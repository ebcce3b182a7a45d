import TeamClaude.Config.EntryKey
import TeamClaude.Lib.Fallible
import TeamClaude.Lib.Keyed
import Mathlib.Data.List.AList

/-!
# The pin file

The live pins of a fleet as a file that outlives the process: an account is written by its identity,
never by its index, and the file is resolved back to indices over the fleet of the next boot.
-/

namespace TeamClaude

open Lib.Json

def pinTtlMs : Int64 := 15 * 60 * 1000

def extendedPinTtlMs : Int64 := 55 * 60 * 1000

def pinCap : Nat := 1024

def pinFormatVersion : UInt32 := 1

structure StoredPin where
  key : UInt64
  name : String
  accountUuid : Option String
  orgUuid : Option String
  orgName : Option String
  touchedAtMs : Int64
  extendedTtl : Bool
  provider : Provider
  deriving DecidableEq

namespace StoredPin

/-- The identity the pin resolves through. -/
def probe (pin : StoredPin) : Account :=
  TeamClaude.probe pin.provider
    { name := pin.name
      accountUuid := pin.accountUuid
      orgUuid := pin.orgUuid
      orgName := pin.orgName }

/-- How long the pin lives: its own window when it has the extended one, the caller's otherwise. -/
def effectiveTtlMs (pin : StoredPin) (ttlMs : Int64) : Int64 :=
  if pin.extendedTtl then extendedPinTtlMs else ttlMs

def ageMs (pin : StoredPin) (nowMs : Int64) : Int :=
  saturatingSub nowMs.toInt pin.touchedAtMs.toInt

def expired (pin : StoredPin) (nowMs ttlMs : Int64) : Bool :=
  decide ((pin.effectiveTtlMs ttlMs).toInt < pin.ageMs nowMs)

/-! ## The spelling of a pin -/

def toJson (pin : StoredPin) : Value :=
  .object ([("key", .number (.posInt pin.key)), ("name", .string pin.name)] ++
    optionalField "accountUuid" (pin.accountUuid.map .string) ++
    optionalField "orgUuid" (pin.orgUuid.map .string) ++
    optionalField "orgName" (pin.orgName.map .string) ++
    [("touchedAtMs", .ofI64 pin.touchedAtMs), ("extendedTtl", .bool pin.extendedTtl)] ++
    optionalField "provider" pin.provider.spelling)

/-- An absent flag is off; one that is no boolean cannot be read. -/
def extendedOf (v : Value) : Option Bool :=
  match v.get "extendedTtl" with
  | none => some false
  | some flag => flag.asBool

def ofJson (v : Value) : Option StoredPin := do
  let key ← v.u64 "key"
  let stored ← DiskIdentity.ofEntry v
  let touchedAtMs ← (v.get "touchedAtMs").bind Value.toI64
  let extendedTtl ← extendedOf v
  let provider ← providerOfEntry v
  return {
    key
    name := stored.name
    accountUuid := stored.accountUuid
    orgUuid := stored.orgUuid
    orgName := stored.orgName
    touchedAtMs, extendedTtl, provider }

/-- The fields of a written pin, one place after the other. -/
theorem get_to_json (pin : StoredPin) (key : String) : pin.toJson.get key =
    ((((((Value.object [("key", .number (.posInt pin.key)), ("name", .string pin.name)]).get key).or
    (if "accountUuid" = key then pin.accountUuid.map .string else none)).or
    (if "orgUuid" = key then pin.orgUuid.map .string else none)).or
    (if "orgName" = key then pin.orgName.map .string else none)).or
    ((Value.object [("touchedAtMs", .ofI64 pin.touchedAtMs),
      ("extendedTtl", .bool pin.extendedTtl)]).get key)).or
    (if "provider" = key then pin.provider.spelling else none) := by
  unfold toJson
  simp only [get_append, get_optional_field]

theorem of_json_to_json (pin : StoredPin) : ofJson pin.toJson = some pin := by
  have hkey : pin.toJson.u64 "key" = some pin.key := by
    rw [Value.u64, get_to_json]
    simp [Value.get, Value.asU64]
  have hstored : DiskIdentity.ofEntry pin.toJson =
      some ⟨pin.name, pin.accountUuid, pin.orgUuid, pin.orgName⟩ := by
    refine disk_identity_of_get ?_ ?_ ?_ ?_ <;> rw [get_to_json] <;> simp [Value.get]
  have htouched : (pin.toJson.get "touchedAtMs").bind Value.toI64 = some pin.touchedAtMs := by
    rw [get_to_json]
    simp [Value.get, Value.to_i64_of_i64]
  have hextended : extendedOf pin.toJson = some pin.extendedTtl := by
    rw [extendedOf, get_to_json]
    simp [Value.get, Value.asBool]
  have hprovider : providerOfEntry pin.toJson = some pin.provider := by
    refine provider_of_get ?_
    rw [get_to_json]
    simp [Value.get]
  unfold ofJson
  rw [hkey, hstored, htouched, hextended, hprovider]
  rfl

end StoredPin

structure PinFile where
  version : UInt32
  savedAtMs : Int64
  pins : List StoredPin

namespace PinFile

def toJson (file : PinFile) : Value :=
  .object [("version", .number (.posInt file.version.toUInt64)),
    ("savedAtMs", .ofI64 file.savedAtMs), ("pins", .array (file.pins.map StoredPin.toJson))]

/-- The derived reader of an unsigned 32-bit field. -/
def versionOf (v : Value) : Option UInt32 :=
  (v.u64 "version").bind fun n => if n.toNat < 2 ^ 32 then some n.toUInt32 else none

def ofJson (v : Value) : Option PinFile := do
  let version ← versionOf v
  let savedAtMs ← (v.get "savedAtMs").bind Value.toI64
  let elems ← (v.get "pins").bind Value.asArray
  let pins ← elems.mapM StoredPin.ofJson
  return { version, savedAtMs, pins }

theorem version_of_to_json (file : PinFile) : versionOf file.toJson = some file.version := by
  have hlt := file.version.toNat_lt
  simp [versionOf, toJson, Value.u64, Value.get, Value.asU64, hlt]

theorem pins_of_json (pins : List StoredPin) :
    (pins.map StoredPin.toJson).mapM StoredPin.ofJson = some pins :=
  Lib.map_m_map fun pin _ => StoredPin.of_json_to_json pin

theorem of_json_to_json (file : PinFile) : ofJson file.toJson = some file := by
  have hsaved : (file.toJson.get "savedAtMs").bind Value.toI64 = some file.savedAtMs := by
    simp [toJson, Value.get, Value.to_i64_of_i64]
  have hpins : (file.toJson.get "pins").bind Value.asArray =
      some (file.pins.map StoredPin.toJson) := by
    simp [toJson, Value.get, Value.asArray]
  rw [ofJson, version_of_to_json, hsaved, hpins]
  show ((file.pins.map StoredPin.toJson).mapM StoredPin.ofJson).bind _ = _
  rw [pins_of_json]
  rfl

end PinFile

/-! ## Saving -/

structure LivePin where
  key : UInt64
  index : Nat
  touchedAtMs : Int64

/-- The pin with the identity of its account in place of the index. -/
def LivePin.stored (accounts : List AccountRuntime) (extended : Finset UInt64) (pin : LivePin) :
    Option StoredPin :=
  accounts[pin.index]?.map fun account =>
    { key := pin.key
      name := account.name
      accountUuid := account.accountUuid
      orgUuid := account.orgUuid
      orgName := account.orgName
      touchedAtMs := pin.touchedAtMs
      extendedTtl := decide (pin.key ∈ extended)
      provider := account.provider }

/-- `affinity_pin_snapshot`: a pin whose index names no account is skipped. -/
def affinityPinSnapshot (accounts : List AccountRuntime) (extended : Finset UInt64)
    (pins : List LivePin) : List StoredPin :=
  pins.filterMap (LivePin.stored accounts extended)

/-- The order of `Reverse(touched_at_ms)`. -/
def StoredPin.fresher (a b : StoredPin) : Bool :=
  decide (b.touchedAtMs ≤ a.touchedAtMs)

/-- The pins a save writes, in the order it writes them: the freshest, sorted by key. -/
def writtenPins (pins : List StoredPin) : List StoredPin :=
  let kept :=
    if pinCap < pins.length then (pins.mergeSort StoredPin.fresher).take pinCap else pins
  kept.mergeSort fun a b => decide (a.key ≤ b.key)

/-- `affinity::save`: what is written, and how many pins were. -/
def savePins (pins : List StoredPin) (nowMs : Int64) : Value × Nat :=
  let pins := writtenPins pins
  (({ version := pinFormatVersion, savedAtMs := nowMs, pins } : PinFile).toJson, pins.length)

section Written

variable {pins : List StoredPin} {pin : StoredPin}

theorem written_perm_of_le (h : pins.length ≤ pinCap) : (writtenPins pins).Perm pins := by
  unfold writtenPins
  rw [if_neg (Nat.not_lt.mpr h)]
  exact List.mergeSort_perm _ _

theorem written_perm_of_gt (h : pinCap < pins.length) :
    (writtenPins pins).Perm ((pins.mergeSort StoredPin.fresher).take pinCap) := by
  unfold writtenPins
  rw [if_pos h]
  exact List.mergeSort_perm _ _

theorem length_written : (writtenPins pins).length = min pins.length pinCap := by
  rcases Nat.lt_or_ge pinCap pins.length with h | h
  · rw [(written_perm_of_gt h).length_eq, List.length_take, List.length_mergeSort, Nat.min_comm]
  · rw [(written_perm_of_le h).length_eq, Nat.min_eq_left h]

theorem written_subperm : (writtenPins pins).Subperm pins := by
  rcases Nat.lt_or_ge pinCap pins.length with h | h
  · exact (written_perm_of_gt h).subperm.trans
      ((List.take_sublist _ _).subperm.trans (List.mergeSort_perm _ _).subperm)
  · exact (written_perm_of_le h).subperm

theorem sorted_fresher (pins : List StoredPin) :
    (pins.mergeSort StoredPin.fresher).Pairwise fun a b => StoredPin.fresher a b = true := by
  refine List.pairwise_mergeSort (fun a b c hab hbc => ?_) (fun a b => ?_) pins
  · simp only [StoredPin.fresher, decide_eq_true_eq] at hab hbc ⊢
    exact Int64.le_trans hbc hab
  · simpa [StoredPin.fresher] using Int64.le_total b.touchedAtMs a.touchedAtMs

/-- A pin the cap cuts is no fresher than any that is written. -/
theorem written_freshest {cut : StoredPin} (hcut : cut ∈ pins) (hnot : cut ∉ writtenPins pins)
    (hpin : pin ∈ writtenPins pins) : cut.touchedAtMs ≤ pin.touchedAtMs := by
  rcases Nat.lt_or_ge pinCap pins.length with h | h
  · have hperm := written_perm_of_gt h
    have hsorted := sorted_fresher pins
    have hmem : cut ∈ pins.mergeSort StoredPin.fresher := List.mem_mergeSort.mpr hcut
    rw [← List.take_append_drop pinCap (pins.mergeSort StoredPin.fresher)] at hsorted hmem
    have hdrop := (List.mem_append.mp hmem).resolve_left fun hk => hnot (hperm.mem_iff.mpr hk)
    have hle := (List.pairwise_append.mp hsorted).2.2 pin (hperm.mem_iff.mp hpin) cut hdrop
    simpa [StoredPin.fresher] using hle
  · exact absurd ((written_perm_of_le h).mem_iff.mpr hcut) hnot

end Written

/-! ## Loading -/

/-- Why a file was ignored entirely. -/
inductive Degraded
  | unreadable
  | formatVersion (found : UInt32)
  | corrupt
  deriving DecidableEq

/-- What is at the path: nothing, bytes that cannot be read or are no JSON, or a document. -/
inductive PinDisk
  | missing
  | unreadable
  | corrupt
  | json (v : Value)

/-- `CacheRead` -/
inductive PinRead
  | missing
  | degraded (reason : Degraded)
  | read (file : PinFile)

/-- `read_cache`: the version first, on its own. -/
def readPinFile : PinDisk → PinRead
  | .missing => .missing
  | .unreadable => .degraded .unreadable
  | .corrupt => .degraded .corrupt
  | .json v =>
    match PinFile.versionOf v with
    | none => .degraded .corrupt
    | some version =>
      if version ≠ pinFormatVersion then .degraded (.formatVersion version)
      else
        match PinFile.ofJson v with
        | some file => .read file
        | none => .degraded .corrupt

structure LoadReport where
  pins : AList (fun _ : UInt64 => Nat × Int64) := ∅
  extended : Finset UInt64 := ∅
  expired : Nat := 0
  unresolved : Nat := 0
  ambiguous : Nat := 0
  degraded : Option Degraded := none

namespace LoadReport

def len (report : LoadReport) : Nat :=
  report.pins.entries.length

/-- A pin that has not expired, resolved against the accounts. -/
def place (accounts : List Account) (report : LoadReport) (pin : StoredPin) : LoadReport :=
  match resolve accounts pin.probe with
  | .one index =>
    { report with
      pins := report.pins.insert pin.key (index, pin.touchedAtMs)
      extended := if pin.extendedTtl then insert pin.key report.extended else report.extended }
  | .none => { report with unresolved := report.unresolved + 1 }
  | .many => { report with ambiguous := report.ambiguous + 1 }

def take (accounts : List Account) (nowMs ttlMs : Int64) (report : LoadReport) (pin : StoredPin) :
    LoadReport :=
  if pin.expired nowMs ttlMs then { report with expired := report.expired + 1 }
  else report.place accounts pin

end LoadReport

/-- The loop over the file's pins, left once the map is full. -/
def loadLoop (accounts : List Account) (nowMs ttlMs : Int64) :
    List StoredPin → LoadReport → LoadReport
  | [], report => report
  | pin :: rest, report =>
    let next := report.take accounts nowMs ttlMs pin
    if !pin.expired nowMs ttlMs && decide (pinCap ≤ next.len) then next
    else loadLoop accounts nowMs ttlMs rest next

/-- `affinity::load` -/
def loadPins (disk : PinDisk) (accounts : List Account) (nowMs ttlMs : Int64) : LoadReport :=
  match readPinFile disk with
  | .missing => {}
  | .degraded reason => { degraded := some reason }
  | .read file => loadLoop accounts nowMs ttlMs file.pins {}

theorem read_saved (pins : List StoredPin) (nowMs : Int64) :
    readPinFile (.json (savePins pins nowMs).1) =
      .read { version := pinFormatVersion, savedAtMs := nowMs, pins := writtenPins pins } := by
  simp only [readPinFile, savePins, PinFile.version_of_to_json, PinFile.of_json_to_json]
  rw [if_neg (not_not.mpr rfl)]

section Load

variable {accounts : List Account} {nowMs ttlMs : Int64} {report : LoadReport} {pin : StoredPin}
  {pins : List StoredPin}

theorem len_take_le : (report.take accounts nowMs ttlMs pin).len ≤ report.len + 1 := by
  unfold LoadReport.take LoadReport.place
  split
  · exact Nat.le_succ _
  · split
    · simp only [LoadReport.len, AList.entries_insert, List.length_cons]
      exact Nat.succ_le_succ (List.kerase_sublist _ _).length_le
    · exact Nat.le_succ _
    · exact Nat.le_succ _

/-- A file within the cap is read to its end. -/
theorem load_loop_eq_foldl (h : report.len + pins.length ≤ pinCap) :
    loadLoop accounts nowMs ttlMs pins report =
      pins.foldl (LoadReport.take accounts nowMs ttlMs) report := by
  induction pins generalizing report with
  | nil => rfl
  | cons pin pins ih =>
    have hlen : (report.take accounts nowMs ttlMs pin).len ≤ report.len + 1 := len_take_le
    rw [List.length_cons] at h
    rw [List.foldl_cons, ← ih (by omega)]
    simp only [loadLoop]
    split
    · rename_i hfull
      have hcap : pinCap ≤ (report.take accounts nowMs ttlMs pin).len := by simp_all
      have hnil : pins = [] := List.length_eq_zero_iff.mp (by omega)
      rw [hnil]
      rfl
    · rfl

/-- A counter that a pin moves by one or not at all. -/
theorem foldl_counter {c : LoadReport → Nat} {q : StoredPin → Bool}
    (h : ∀ report pin, c (report.take accounts nowMs ttlMs pin) =
      c report + if q pin then 1 else 0) :
    c (pins.foldl (LoadReport.take accounts nowMs ttlMs) report) = c report + pins.countP q := by
  induction pins generalizing report with
  | nil => rfl
  | cons pin pins ih =>
    rw [List.foldl_cons, ih, h, List.countP_cons]
    omega

theorem take_expired : (report.take accounts nowMs ttlMs pin).expired =
    report.expired + if pin.expired nowMs ttlMs then 1 else 0 := by
  unfold LoadReport.take LoadReport.place
  split
  · rfl
  · split <;> rfl

theorem take_unresolved : (report.take accounts nowMs ttlMs pin).unresolved =
    report.unresolved +
      if !pin.expired nowMs ttlMs && decide (resolve accounts pin.probe = .none) then 1 else 0 := by
  unfold LoadReport.take LoadReport.place
  cases pin.expired nowMs ttlMs with
  | true => rfl
  | false => cases resolve accounts pin.probe <;> simp

theorem take_ambiguous : (report.take accounts nowMs ttlMs pin).ambiguous =
    report.ambiguous +
      if !pin.expired nowMs ttlMs && decide (resolve accounts pin.probe = .many) then 1 else 0 := by
  unfold LoadReport.take LoadReport.place
  cases pin.expired nowMs ttlMs with
  | true => rfl
  | false => cases resolve accounts pin.probe <;> simp

theorem take_degraded : (report.take accounts nowMs ttlMs pin).degraded = report.degraded := by
  unfold LoadReport.take LoadReport.place
  split
  · rfl
  · split <;> rfl

theorem foldl_degraded : (pins.foldl (LoadReport.take accounts nowMs ttlMs) report).degraded =
    report.degraded := by
  induction pins generalizing report with
  | nil => rfl
  | cons pin pins ih => rw [List.foldl_cons, ih, take_degraded]

/-- The entry a pin makes: the index it resolves to, unless it has expired. -/
def StoredPin.landing (accounts : List Account) (nowMs ttlMs : Int64) (pin : StoredPin) :
    Option Nat :=
  if pin.expired nowMs ttlMs then none
  else
    match resolve accounts pin.probe with
    | .one index => some index
    | _ => none

theorem take_landed {index : Nat} (h : pin.landing accounts nowMs ttlMs = some index) :
    report.take accounts nowMs ttlMs pin =
      { report with
        pins := report.pins.insert pin.key (index, pin.touchedAtMs)
        extended := if pin.extendedTtl then insert pin.key report.extended else report.extended } := by
  unfold StoredPin.landing at h
  unfold LoadReport.take LoadReport.place
  split at h
  · cases h
  · rename_i hfresh
    rw [if_neg hfresh]
    split at h
    · rename_i hr
      cases h
      rw [hr]
    · cases h

/-- A pin that lands nowhere leaves the map as it was and is counted. -/
theorem take_dropped (h : pin.landing accounts nowMs ttlMs = none) :
    (report.take accounts nowMs ttlMs pin).pins = report.pins ∧
      (report.take accounts nowMs ttlMs pin).extended = report.extended := by
  unfold StoredPin.landing at h
  unfold LoadReport.take LoadReport.place
  split at h
  · rename_i hexp
    rw [if_pos hexp]
    exact ⟨rfl, rfl⟩
  · rename_i hfresh
    rw [if_neg hfresh]
    cases hr : resolve accounts pin.probe with
    | one index =>
      rw [hr] at h
      cases h
    | none => exact ⟨rfl, rfl⟩
    | many => exact ⟨rfl, rfl⟩

def StoredPin.entry (accounts : List Account) (nowMs ttlMs : Int64) (pin : StoredPin) :
    Option (Nat × Int64) :=
  (pin.landing accounts nowMs ttlMs).map fun index => (index, pin.touchedAtMs)

theorem take_pins : (report.take accounts nowMs ttlMs pin).pins =
    Lib.fill StoredPin.key (StoredPin.entry accounts nowMs ttlMs) report.pins pin := by
  unfold Lib.fill StoredPin.entry
  cases hl : pin.landing accounts nowMs ttlMs with
  | none => exact (take_dropped hl).1
  | some index => rw [take_landed hl, Option.map_some]

theorem foldl_pins : (pins.foldl (LoadReport.take accounts nowMs ttlMs) report).pins =
    pins.foldl (Lib.fill StoredPin.key (StoredPin.entry accounts nowMs ttlMs)) report.pins := by
  induction pins generalizing report with
  | nil => rfl
  | cons pin pins ih => rw [List.foldl_cons, List.foldl_cons, ih, take_pins]

theorem mem_extended_take {key : UInt64} :
    key ∈ (report.take accounts nowMs ttlMs pin).extended ↔ key ∈ report.extended ∨
      pin.key = key ∧ pin.extendedTtl = true ∧ (pin.landing accounts nowMs ttlMs).isSome := by
  cases hl : pin.landing accounts nowMs ttlMs with
  | none => simp [(take_dropped hl).2]
  | some index =>
    rw [take_landed hl]
    cases pin.extendedTtl with
    | false => simp
    | true => simp [or_comm, eq_comm]

/-- Every pin of distinct keys leaves its entry or none. -/
theorem lookup_loaded {key : UInt64} {v : Nat × Int64} (hkeys : (pins.map StoredPin.key).Nodup) :
    (pins.foldl (LoadReport.take accounts nowMs ttlMs) {}).pins.lookup key = some v ↔
      ∃ pin ∈ pins, pin.key = key ∧ pin.landing accounts nowMs ttlMs = some v.1 ∧
        pin.touchedAtMs = v.2 := by
  have hempty : ({} : LoadReport).pins.lookup key = none := rfl
  rw [foldl_pins, Lib.lookup_fill_all hkeys fun _ _ => rfl, hempty]
  obtain ⟨index, touched⟩ := v
  simp only [reduceCtorEq, false_or, StoredPin.entry, Option.map_eq_some_iff, Prod.mk.injEq,
    existsAndEq, true_and]

theorem mem_extended_foldl {key : UInt64} :
    key ∈ (pins.foldl (LoadReport.take accounts nowMs ttlMs) report).extended ↔
      key ∈ report.extended ∨ ∃ pin ∈ pins, pin.key = key ∧ pin.extendedTtl = true ∧
        (pin.landing accounts nowMs ttlMs).isSome := by
  induction pins generalizing report with
  | nil => simp
  | cons pin pins ih =>
    rw [List.foldl_cons, ih, mem_extended_take]
    simp only [List.mem_cons, or_assoc, exists_eq_or_imp]

/-- The pins a report accounts for, restored or dropped. -/
def LoadReport.tally (report : LoadReport) : Nat :=
  report.len + report.expired + report.unresolved + report.ambiguous

theorem tally_take (hnew : report.pins.lookup pin.key = none) :
    (report.take accounts nowMs ttlMs pin).tally = report.tally + 1 := by
  unfold LoadReport.take LoadReport.place LoadReport.tally LoadReport.len
  split
  · dsimp only
    omega
  · split
    · dsimp only
      rw [AList.entries_insert_of_notMem (AList.lookup_eq_none.mp hnew), List.length_cons]
      omega
    · dsimp only
      omega
    · dsimp only
      omega

theorem tally_foldl (hkeys : (pins.map StoredPin.key).Nodup)
    (hnew : ∀ pin ∈ pins, report.pins.lookup pin.key = none) :
    (pins.foldl (LoadReport.take accounts nowMs ttlMs) report).tally =
      report.tally + pins.length := by
  induction pins generalizing report with
  | nil => rfl
  | cons pin pins ih =>
    rw [List.map_cons, List.nodup_cons] at hkeys
    have hpin := hnew pin List.mem_cons_self
    rw [List.foldl_cons, ih hkeys.2, tally_take hpin, List.length_cons]
    · omega
    · intro other hother
      rw [take_pins, Lib.lookup_fill_ne]
      · exact hnew other (List.mem_cons_of_mem _ hother)
      · exact fun hk => hkeys.1 (hk ▸ List.mem_map_of_mem hother)

end Load

/-! ## Over fully known fleets -/

/-- An account of the fleet as its pins know it. -/
def AccountRuntime.idKey (a : AccountRuntime) : Option IdKey :=
  a.probe.idKey

section Resolve

variable {candidates : List Account} {target record : Account} {index : Nat} {k : IdKey}

theorem positions_eq_singleton {p : Account → Bool} (hget : candidates[index]? = some record)
    (hp : p record = true)
    (hunique : ∀ i other, candidates[i]? = some other → p other = true → i = index) :
    positions p candidates = [index] := by
  have hnodup : (positions p candidates).Nodup := by
    refine List.Nodup.sublist ((List.filter_sublist).map Prod.snd) ?_
    rw [List.zipIdx_map_snd]
    exact List.nodup_range'
  refine List.perm_singleton.mp
    ((List.perm_ext_iff_of_nodup hnodup (List.nodup_singleton index)).mpr fun i => ?_)
  rw [mem_positions, List.mem_singleton]
  constructor
  · rintro ⟨other, hi, hother⟩
    exact hunique i other hi hother
  · rintro rfl
    exact ⟨record, hget, hp⟩

/-- Among fully known and different accounts an identity resolves to the one of its key. -/
theorem resolve_keyed_one (hkeyed : Lib.Keyed Account.idKey candidates)
    (hget : candidates[index]? = some record) (htarget : target.idKey = some k)
    (hrecord : record.idKey = some k) : resolve candidates target = .one index := by
  have hloose : positions (sameIdentity target) candidates = [index] := by
    refine positions_eq_singleton hget ((same_identity_keyed htarget hrecord).mpr rfl) ?_
    intro i other hi hsame
    obtain ⟨ko, hko⟩ := Option.isSome_iff_exists.mp (hkeyed.known other (List.mem_of_getElem? hi))
    have hk := (same_identity_keyed htarget hko).mp hsame
    exact hkeyed.index_unique hi hget (by rw [hko, hrecord, hk])
  unfold resolve
  rw [hloose]

theorem resolve_keyed_none (hkeyed : Lib.Keyed Account.idKey candidates)
    (htarget : target.idKey = some k) (hnone : ∀ record ∈ candidates, record.idKey ≠ some k) :
    resolve candidates target = .none := by
  have hloose : positions (sameIdentity target) candidates = [] := by
    refine List.eq_nil_iff_forall_not_mem.mpr fun i hi => ?_
    obtain ⟨other, hget, hsame⟩ := mem_positions.mp hi
    have hmem := List.mem_of_getElem? hget
    obtain ⟨ko, hko⟩ := Option.isSome_iff_exists.mp (hkeyed.known other hmem)
    exact hnone other hmem (hko.trans (congrArg some ((same_identity_keyed htarget hko).mp hsame).symm))
  unfold resolve
  rw [hloose]

end Resolve

/-- The pins taken over one fleet, saved, and loaded over another. -/
def restartPins (before after : List AccountRuntime) (extended : Finset UInt64)
    (pins : List LivePin) (savedMs nowMs ttlMs : Int64) : LoadReport :=
  loadPins (.json (savePins (affinityPinSnapshot before extended pins) savedMs).1)
    (after.map AccountRuntime.probe) nowMs ttlMs

/-- The pins of a fleet that its save writes. -/
def keptPins (before : List AccountRuntime) (extended : Finset UInt64) (pins : List LivePin) :
    List StoredPin :=
  writtenPins (affinityPinSnapshot before extended pins)

/-- A live pin that a restart brings back at an index. -/
structure Survives (before after : List AccountRuntime) (extended : Finset UInt64)
    (pins : List LivePin) (nowMs ttlMs : Int64) (pin : LivePin) (index : Nat) : Prop where
  /-- The cap keeps it. -/
  kept : ∃ stored ∈ keptPins before extended pins, stored.key = pin.key
  /-- It is not older than its own window. -/
  fresh : saturatingSub nowMs.toInt pin.touchedAtMs.toInt ≤
    (if pin.key ∈ extended then extendedPinTtlMs else ttlMs).toInt
  /-- The same account is at the index. -/
  account : ∃ a b, before[pin.index]? = some a ∧ after[index]? = some b ∧ b.idKey = a.idKey

section Restart

variable {before after : List AccountRuntime} {extended : Finset UInt64} {pins : List LivePin}
  {savedMs nowMs ttlMs : Int64}

theorem stored_eq_some {pin : LivePin} {stored : StoredPin} :
    pin.stored before extended = some stored ↔ ∃ a, before[pin.index]? = some a ∧
      stored.key = pin.key ∧ stored.touchedAtMs = pin.touchedAtMs ∧
      stored.extendedTtl = decide (pin.key ∈ extended) ∧ stored.probe = a.probe := by
  unfold LivePin.stored
  rw [Option.map_eq_some_iff]
  refine exists_congr fun a => and_congr_right fun _ => ?_
  constructor
  · rintro rfl
    exact ⟨rfl, rfl, rfl, rfl⟩
  · obtain ⟨key, name, accountUuid, orgUuid, orgName, touched, ext, provider⟩ := stored
    rintro ⟨rfl, rfl, rfl, hprobe⟩
    simp only [StoredPin.probe, TeamClaude.probe, AccountRuntime.probe, Account.mk.injEq] at hprobe
    obtain ⟨rfl, rfl, rfl, rfl, rfl, -⟩ := hprobe
    rfl

theorem snapshot_keys (hover : ∀ pin ∈ pins, pin.index < before.length) :
    (affinityPinSnapshot before extended pins).map StoredPin.key = pins.map LivePin.key := by
  induction pins with
  | nil => rfl
  | cons pin pins ih =>
    obtain ⟨a, ha⟩ : ∃ a, before[pin.index]? = some a :=
      ⟨_, List.getElem?_eq_getElem (hover pin List.mem_cons_self)⟩
    have hrest := ih fun other hother => hover other (List.mem_cons_of_mem _ hother)
    rw [affinityPinSnapshot, List.filterMap_cons]
    simp only [LivePin.stored, ha, Option.map_some, List.map_cons]
    exact congrArg (pin.key :: ·) hrest

theorem kept_keys_nodup (hkeys : (pins.map LivePin.key).Nodup)
    (hover : ∀ pin ∈ pins, pin.index < before.length) :
    ((keptPins before extended pins).map StoredPin.key).Nodup := by
  have hkept : (keptPins before extended pins).Subperm (affinityPinSnapshot before extended pins) :=
    written_subperm
  obtain ⟨l, hperm, hsub⟩ := hkept
  refine (hperm.map StoredPin.key).nodup_iff.mp ((hsub.map StoredPin.key).nodup ?_)
  rw [snapshot_keys hover]
  exact hkeys

theorem restart_eq_foldl :
    restartPins before after extended pins savedMs nowMs ttlMs =
      (keptPins before extended pins).foldl
        (LoadReport.take (after.map AccountRuntime.probe) nowMs ttlMs) {} := by
  unfold restartPins loadPins
  rw [read_saved]
  refine load_loop_eq_foldl ?_
  show 0 + (keptPins before extended pins).length ≤ pinCap
  rw [keptPins, length_written]
  omega

theorem mem_kept {stored : StoredPin} (h : stored ∈ keptPins before extended pins) :
    ∃ pin ∈ pins, pin.stored before extended = some stored :=
  List.mem_filterMap.mp (written_subperm.subset h)

theorem runtime_keyed (hafter : Lib.Keyed AccountRuntime.idKey after) :
    Lib.Keyed Account.idKey (after.map AccountRuntime.probe) := by
  refine ⟨fun x hx => ?_, ?_⟩
  · obtain ⟨b, hb, rfl⟩ := List.mem_map.mp hx
    exact hafter.known b hb
  · rw [List.map_map]
    exact hafter.nodup

/-- A written pin of a known account resolves to that account and to no other. -/
theorem resolve_stored (hbefore : Lib.Keyed AccountRuntime.idKey before)
    (hafter : Lib.Keyed AccountRuntime.idKey after) {pin : LivePin} {stored : StoredPin}
    (h : pin.stored before extended = some stored) :
    ∃ a, before[pin.index]? = some a ∧
      ((∃ index, resolve (after.map AccountRuntime.probe) stored.probe = .one index ∧
          ∃ b, after[index]? = some b ∧ b.idKey = a.idKey) ∨
        resolve (after.map AccountRuntime.probe) stored.probe = .none ∧
          ∀ b ∈ after, b.idKey ≠ a.idKey) := by
  obtain ⟨a, ha, -, -, -, hprobe⟩ := stored_eq_some.mp h
  obtain ⟨k, hk⟩ := Option.isSome_iff_exists.mp (hbefore.known a (List.mem_of_getElem? ha))
  refine ⟨a, ha, ?_⟩
  rw [hprobe]
  by_cases hin : ∃ b ∈ after, b.idKey = a.idKey
  · obtain ⟨b, hb, hsame⟩ := hin
    obtain ⟨index, hindex⟩ := List.mem_iff_getElem?.mp hb
    have hget : (after.map AccountRuntime.probe)[index]? = some b.probe := by
      rw [List.getElem?_map, hindex]
      rfl
    exact Or.inl ⟨index, resolve_keyed_one (runtime_keyed hafter) hget hk (hsame.trans hk), b, hindex,
      hsame⟩
  · have hnone : ∀ b ∈ after, b.idKey ≠ a.idKey := fun b hb hsame => hin ⟨b, hb, hsame⟩
    refine Or.inr ⟨resolve_keyed_none (runtime_keyed hafter) hk fun record hrecord => ?_, hnone⟩
    obtain ⟨b, hb, rfl⟩ := List.mem_map.mp hrecord
    rw [← hk]
    exact hnone b hb

theorem expired_stored {pin : LivePin} {stored : StoredPin}
    (h : pin.stored before extended = some stored) : stored.expired nowMs ttlMs = false ↔
      saturatingSub nowMs.toInt pin.touchedAtMs.toInt ≤
        (if pin.key ∈ extended then extendedPinTtlMs else ttlMs).toInt := by
  obtain ⟨-, -, -, htouched, hextended, -⟩ := stored_eq_some.mp h
  unfold StoredPin.expired StoredPin.ageMs StoredPin.effectiveTtlMs
  rw [decide_eq_false_iff_not, Int.not_lt, htouched, hextended]
  simp only [decide_eq_true_eq]

theorem landing_stored (hbefore : Lib.Keyed AccountRuntime.idKey before)
    (hafter : Lib.Keyed AccountRuntime.idKey after) {pin : LivePin} {stored : StoredPin} {index : Nat}
    (h : pin.stored before extended = some stored) :
    stored.landing (after.map AccountRuntime.probe) nowMs ttlMs = some index ↔
      stored.expired nowMs ttlMs = false ∧
        ∃ a b, before[pin.index]? = some a ∧ after[index]? = some b ∧ b.idKey = a.idKey := by
  obtain ⟨a, ha, hresolve⟩ := resolve_stored hbefore hafter h
  unfold StoredPin.landing
  cases stored.expired nowMs ttlMs with
  | true => simp
  | false =>
    rcases hresolve with ⟨i, hr, b, hb, hsame⟩ | ⟨hr, hnone⟩
    · rw [hr]
      constructor
      · rintro ⟨⟩
        exact ⟨rfl, a, b, ha, hb, hsame⟩
      · rintro ⟨-, a', b', ha', hb', hsame'⟩
        rw [ha] at ha'
        cases ha'
        exact congrArg some (hafter.index_unique hb hb' (hsame.trans hsame'.symm))
    · rw [hr]
      refine iff_of_false (by simp) ?_
      rintro ⟨-, a', b', ha', hb', hsame'⟩
      rw [ha] at ha'
      cases ha'
      exact hnone b' (List.mem_of_getElem? hb') hsame'

/-- What a restart puts in the map, pin by pin. -/
theorem restart_lookup (hbefore : Lib.Keyed AccountRuntime.idKey before)
    (hafter : Lib.Keyed AccountRuntime.idKey after) (hkeys : (pins.map LivePin.key).Nodup)
    (hover : ∀ pin ∈ pins, pin.index < before.length) (key : UInt64) (index : Nat)
    (touched : Int64) :
    (restartPins before after extended pins savedMs nowMs ttlMs).pins.lookup key =
        some (index, touched) ↔
      ∃ pin ∈ pins, pin.key = key ∧ pin.touchedAtMs = touched ∧
        Survives before after extended pins nowMs ttlMs pin index := by
  rw [restart_eq_foldl, lookup_loaded (kept_keys_nodup hkeys hover)]
  constructor
  · rintro ⟨stored, hstored, rfl, hlanding, rfl⟩
    obtain ⟨pin, hpin, hof⟩ := mem_kept hstored
    obtain ⟨-, -, hkey, htouched, -, -⟩ := stored_eq_some.mp hof
    obtain ⟨hfresh, haccount⟩ := (landing_stored hbefore hafter hof).mp hlanding
    exact ⟨pin, hpin, hkey.symm, htouched.symm, ⟨stored, hstored, hkey⟩,
      (expired_stored hof).mp hfresh, haccount⟩
  · rintro ⟨pin, hpin, rfl, rfl, ⟨stored, hstored, hkey⟩, hfresh, haccount⟩
    obtain ⟨other, hother, hof⟩ := mem_kept hstored
    obtain ⟨-, -, hkey', htouched, -, -⟩ := stored_eq_some.mp hof
    obtain rfl := List.inj_on_of_nodup_map hkeys hother hpin (hkey'.symm.trans hkey)
    exact ⟨stored, hstored, hkey, (landing_stored hbefore hafter hof).mpr
      ⟨(expired_stored hof).mpr hfresh, haccount⟩, htouched⟩

/-- The extended window is kept by the pins that come back, and by no others. -/
theorem restart_extended (hkeys : (pins.map LivePin.key).Nodup)
    (hover : ∀ pin ∈ pins, pin.index < before.length) (key : UInt64) :
    let report := restartPins before after extended pins savedMs nowMs ttlMs
    key ∈ report.extended ↔ key ∈ extended ∧ (report.pins.lookup key).isSome := by
  intro report
  show key ∈ (restartPins before after extended pins savedMs nowMs ttlMs).extended ↔
    _ ∧ ((restartPins before after extended pins savedMs nowMs ttlMs).pins.lookup key).isSome
  have hflag : ∀ stored ∈ keptPins before extended pins,
      (stored.extendedTtl = true ↔ stored.key ∈ extended) := by
    intro stored hstored
    obtain ⟨pin, -, hof⟩ := mem_kept hstored
    obtain ⟨-, -, hkey, -, hextended, -⟩ := stored_eq_some.mp hof
    rw [hkey, hextended, decide_eq_true_iff]
  rw [restart_eq_foldl, mem_extended_foldl, Option.isSome_iff_exists]
  simp only [lookup_loaded (kept_keys_nodup hkeys hover)]
  constructor
  · rintro (hempty | ⟨stored, hstored, rfl, hext, hlanding⟩)
    · exact absurd hempty (Finset.notMem_empty _)
    · obtain ⟨index, hindex⟩ := Option.isSome_iff_exists.mp hlanding
      exact ⟨(hflag stored hstored).mp hext, (index, stored.touchedAtMs),
        stored, hstored, rfl, hindex, rfl⟩
  · rintro ⟨hext, v, stored, hstored, rfl, hlanding, -⟩
    exact Or.inr ⟨stored, hstored, rfl, (hflag stored hstored).mpr hext,
      Option.isSome_iff_exists.mpr ⟨_, hlanding⟩⟩

theorem restart_expired : (restartPins before after extended pins savedMs nowMs ttlMs).expired =
    (keptPins before extended pins).countP fun stored => stored.expired nowMs ttlMs := by
  rw [restart_eq_foldl, foldl_counter fun _ _ => take_expired]
  exact Nat.zero_add _

theorem length_kept (hover : ∀ pin ∈ pins, pin.index < before.length) :
    (keptPins before extended pins).length = min pins.length pinCap := by
  have hlength : (affinityPinSnapshot before extended pins).length = pins.length := by
    rw [← List.length_map, snapshot_keys hover, List.length_map]
  rw [← hlength]
  exact length_written

theorem restart_unresolved (hbefore : Lib.Keyed AccountRuntime.idKey before)
    (hafter : Lib.Keyed AccountRuntime.idKey after) :
    (restartPins before after extended pins savedMs nowMs ttlMs).unresolved =
      (keptPins before extended pins).countP fun stored => !stored.expired nowMs ttlMs &&
        decide (∀ b ∈ after, b.idKey ≠ stored.probe.idKey) := by
  rw [restart_eq_foldl, foldl_counter fun _ _ => take_unresolved]
  refine (Nat.zero_add _).trans (List.countP_congr fun stored hstored => ?_)
  obtain ⟨pin, -, hof⟩ := mem_kept hstored
  obtain ⟨a, ha, hresolve⟩ := resolve_stored hbefore hafter hof
  have hprobe : stored.probe.idKey = a.idKey := by
    obtain ⟨a', ha', -, -, -, hprobe⟩ := stored_eq_some.mp hof
    rw [ha] at ha'
    cases ha'
    exact congrArg Account.idKey hprobe
  rw [hprobe]
  rcases hresolve with ⟨index, hr, b, hb, hsame⟩ | ⟨hr, hnone⟩
  · have hthere : ¬ ∀ b ∈ after, b.idKey ≠ a.idKey := fun h => h b (List.mem_of_getElem? hb) hsame
    simp [hr, hthere]
  · simp only [hr, decide_true, decide_eq_true hnone]

/-- Every pin a save wrote is restored or counted, and none ties. -/
theorem restart_counts (hbefore : Lib.Keyed AccountRuntime.idKey before)
    (hafter : Lib.Keyed AccountRuntime.idKey after) (hkeys : (pins.map LivePin.key).Nodup)
    (hover : ∀ pin ∈ pins, pin.index < before.length) :
    let report := restartPins before after extended pins savedMs nowMs ttlMs
    report.ambiguous = 0 ∧
      report.len + report.expired + report.unresolved = (keptPins before extended pins).length := by
  intro report
  have hambiguous : report.ambiguous = 0 := by
    show (restartPins before after extended pins savedMs nowMs ttlMs).ambiguous = 0
    rw [restart_eq_foldl, foldl_counter fun _ _ => take_ambiguous, Nat.zero_add,
      List.countP_eq_zero]
    intro stored hstored
    obtain ⟨pin, -, hpin⟩ := mem_kept hstored
    obtain ⟨-, -, ⟨index, hr, -⟩ | ⟨hr, -⟩⟩ := resolve_stored hbefore hafter hpin
    · simp [hr]
    · simp [hr]
  refine ⟨hambiguous, ?_⟩
  have htally : report.tally = (keptPins before extended pins).length := by
    show (restartPins before after extended pins savedMs nowMs ttlMs).tally = _
    rw [restart_eq_foldl, tally_foldl (kept_keys_nodup hkeys hover) fun _ _ => rfl]
    exact Nat.zero_add _
  unfold LoadReport.tally at htally
  omega

/-- Across a restart a session keeps its account: the pins that come back are those the cap keeps,
that are within their own window and whose account is still there, each at that account's index with
its touch time and its window; the other written pins are counted as expired or as unresolved, and
those the cap cuts, never fresher than a written one, show in the number written. -/
theorem restart_moves_no_session (before after : List AccountRuntime) (extended : Finset UInt64)
    (pins : List LivePin) (savedMs nowMs ttlMs : Int64)
    (hbefore : Lib.Keyed AccountRuntime.idKey before) (hafter : Lib.Keyed AccountRuntime.idKey after)
    (hkeys : (pins.map LivePin.key).Nodup) (hover : ∀ pin ∈ pins, pin.index < before.length) :
    let kept := keptPins before extended pins
    let report := restartPins before after extended pins savedMs nowMs ttlMs
    (∀ key index touched, report.pins.lookup key = some (index, touched) ↔
      ∃ pin ∈ pins, pin.key = key ∧ pin.touchedAtMs = touched ∧
        Survives before after extended pins nowMs ttlMs pin index) ∧
    (∀ key, key ∈ report.extended ↔ key ∈ extended ∧ (report.pins.lookup key).isSome) ∧
    report.degraded = none ∧ report.ambiguous = 0 ∧
    report.expired = kept.countP (fun stored => stored.expired nowMs ttlMs) ∧
    report.unresolved = kept.countP (fun stored => !stored.expired nowMs ttlMs &&
      decide (∀ b ∈ after, b.idKey ≠ stored.probe.idKey)) ∧
    report.len + report.expired + report.unresolved = kept.length ∧
    (savePins (affinityPinSnapshot before extended pins) savedMs).2 = kept.length ∧
    kept.length = min pins.length pinCap ∧
    ∀ cut ∈ affinityPinSnapshot before extended pins, cut ∉ kept → ∀ stored ∈ kept,
      cut.touchedAtMs ≤ stored.touchedAtMs := by
  intro kept report
  have hcounts : report.ambiguous = 0 ∧
      report.len + report.expired + report.unresolved = kept.length :=
    restart_counts hbefore hafter hkeys hover
  have hreport : report = kept.foldl
      (LoadReport.take (after.map AccountRuntime.probe) nowMs ttlMs) {} := restart_eq_foldl
  refine ⟨restart_lookup hbefore hafter hkeys hover, restart_extended hkeys hover, ?_, hcounts.1,
    restart_expired, restart_unresolved hbefore hafter, hcounts.2, rfl, length_kept hover,
    fun cut hcut hnot stored hstored => written_freshest hcut hnot hstored⟩
  rw [hreport, foldl_degraded]

end Restart

/-- One person in two organizations, and a Codex account of the same id. -/
def threeAccounts : List AccountRuntime :=
  [{ name := "a", provider := .anthropic, accountUuid := some "u", orgUuid := some "o1" },
    { name := "a", provider := .anthropic, accountUuid := some "u", orgUuid := some "o2" },
    { name := "a", provider := .codex, accountUuid := some "u", orgUuid := some "o1" }]

theorem three_accounts_keyed : Lib.Keyed AccountRuntime.idKey threeAccounts where
  known := by decide
  nodup := by decide

theorem three_accounts_reversed : Lib.Keyed AccountRuntime.idKey threeAccounts.reverse where
  known := by decide
  nodup := by decide

/-- The session of the second organization is found where the reordering put it. -/
theorem second_org_pin_restored :
    (restartPins threeAccounts (threeAccounts.reverse.take 2) ∅ [⟨7, 1, 500⟩, ⟨8, 0, 500⟩] 1000 2000
      pinTtlMs).pins.lookup 7 = some (1, 500) := by
  have hafter : Lib.Keyed AccountRuntime.idKey (threeAccounts.reverse.take 2) :=
    three_accounts_reversed.sublist (List.take_sublist _ _)
  have hkept : (⟨7, "a", some "u", some "o2", none, 500, false, .anthropic⟩ : StoredPin) ∈
      keptPins threeAccounts ∅ [⟨7, 1, 500⟩, ⟨8, 0, 500⟩] :=
    (written_perm_of_le (by decide)).mem_iff.mpr (by decide)
  refine ((restart_moves_no_session threeAccounts (threeAccounts.reverse.take 2) ∅
    [⟨7, 1, 500⟩, ⟨8, 0, 500⟩] 1000 2000 pinTtlMs three_accounts_keyed hafter (by decide)
    (by decide)).1 7 1 500).mpr ⟨⟨7, 1, 500⟩, List.mem_cons_self, rfl, rfl, ⟨_, hkept, rfl⟩,
    by decide, _, _, rfl, rfl, rfl⟩

/-- One session more than the cap, all on the first account. -/
def manyPins : List LivePin :=
  (List.range 1025).map fun i => ⟨UInt64.ofNat i, 0, 0⟩

theorem many_pins_nodup : (manyPins.map LivePin.key).Nodup := by
  unfold manyPins
  rw [List.map_map]
  refine List.Nodup.map_on (fun i hi j hj hkey => ?_) List.nodup_range
  have hnat := congrArg UInt64.toNat hkey
  simp only [Function.comp_apply, UInt64.toNat_ofNat'] at hnat
  rw [List.mem_range] at hi hj
  omega

/-- The session the cap cuts is neither restored nor in any counter. -/
theorem cut_pin_uncounted :
    let report := restartPins threeAccounts threeAccounts ∅ manyPins 0 0 pinTtlMs
    manyPins.length = 1025 ∧ report.len = 1024 ∧ report.expired = 0 ∧ report.unresolved = 0 ∧
      report.ambiguous = 0 := by
  intro report
  have hindex : ∀ pin ∈ manyPins, pin.index = 0 ∧ pin.touchedAtMs = 0 := by
    intro pin hpin
    obtain ⟨i, -, rfl⟩ := List.mem_map.mp hpin
    exact ⟨rfl, rfl⟩
  have hover : ∀ pin ∈ manyPins, pin.index < threeAccounts.length := by
    intro pin hpin
    rw [(hindex pin hpin).1]
    decide
  have hlength : manyPins.length = 1025 := by simp [manyPins]
  have hexpired : report.expired = 0 := by
    refine restart_expired.trans (List.countP_eq_zero.mpr fun stored hstored => ?_)
    obtain ⟨pin, hpin, hof⟩ := mem_kept hstored
    rw [(expired_stored hof).mpr]
    · decide
    · rw [(hindex pin hpin).2, if_neg (Finset.notMem_empty _)]
      decide
  have hunresolved : report.unresolved = 0 := by
    refine (restart_unresolved three_accounts_keyed three_accounts_keyed).trans
      (List.countP_eq_zero.mpr fun stored hstored => ?_)
    obtain ⟨pin, hpin, hof⟩ := mem_kept hstored
    obtain ⟨a, ha, -, -, -, hprobe⟩ := stored_eq_some.mp hof
    have hthere : ¬ ∀ b ∈ threeAccounts, b.idKey ≠ stored.probe.idKey :=
      fun h => h a (List.mem_of_getElem? ha) (congrArg Account.idKey hprobe.symm)
    simp [hthere]
  obtain ⟨hambiguous, htotal⟩ : report.ambiguous = 0 ∧
      report.len + report.expired + report.unresolved = _ :=
    restart_counts three_accounts_keyed three_accounts_keyed many_pins_nodup hover
  rw [length_kept hover, hlength, hexpired, hunresolved] at htotal
  exact ⟨hlength, htotal, hexpired, hunresolved, hambiguous⟩

end TeamClaude
