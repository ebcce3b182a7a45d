import TeamClaude.Tokens.Snapshot

/-!
# Saving and loading the bound tokens

The load of the file over the fleet of the next boot, and what comes of a save and a load of one set
of tokens taken in different orders. The cut at the cap sorts by time alone: where one time lies on
either side of the cap, the order decides, and nowhere else.
-/

namespace TeamClaude.BoundTokens

open Lib Lib.Json

/-! ## Loading -/

inductive CacheRead
  | missing
  | degraded (reason : Degraded)
  | read (file : BoundTokenFile)

/-- `read_cache`: the version first, on its own. -/
def readBoundTokenFile : PinDisk → CacheRead
  | .missing => .missing
  | .unreadable => .degraded .unreadable
  | .corrupt => .degraded .corrupt
  | .json v =>
    match PinFile.versionOf v with
    | none => .degraded .corrupt
    | some version =>
      if version ≠ formatVersion then .degraded (.formatVersion version)
      else
        match BoundTokenFile.ofJson v with
        | some file => .read file
        | none => .degraded .corrupt

structure LoadReport where
  tokens : AList (fun _ : String => Nat × BoundTokenKind × Int64) := ∅
  expired : Nat := 0
  unresolved : Nat := 0
  ambiguous : Nat := 0
  degraded : Option Degraded := none

/-- Minted longer ago than the lifetime. -/
def pastTtl (nowMs ttlMs ms : Int64) : Bool :=
  mintedBefore nowMs.toInt ttlMs.toInt ms.toInt

/-- One token of the file. -/
def LoadReport.take (resolved : List Resolved) (nowMs ttlMs : Int64) (report : LoadReport)
    (t : StoredBoundToken) : LoadReport :=
  if pastTtl nowMs ttlMs t.ms then { report with expired := report.expired + 1 }
  else
    match resolved[t.account]? with
    | some (.one index) => { report with tokens := report.tokens.insert t.hash (index, t.kind, t.ms) }
    | some .many => { report with ambiguous := report.ambiguous + 1 }
    | some .none | none => { report with unresolved := report.unresolved + 1 }

/-- `bound_tokens::load`: each identity of the table is resolved once. -/
def load (disk : PinDisk) (accounts : List Account) (nowMs ttlMs : Int64) : LoadReport :=
  match readBoundTokenFile disk with
  | .missing => {}
  | .degraded reason => { degraded := some reason }
  | .read file =>
    let resolved := file.accounts.map fun stored => resolve accounts stored.probe
    file.tokens.foldl (LoadReport.take resolved nowMs ttlMs) {}

/-- The entry a token makes: the account its slot resolves to, unless it has expired. -/
def landing (resolved : List Resolved) (nowMs ttlMs : Int64) (t : StoredBoundToken) :
    Option (Nat × BoundTokenKind × Int64) :=
  if pastTtl nowMs ttlMs t.ms then none
  else
    match resolved[t.account]? with
    | some (.one index) => some (index, t.kind, t.ms)
    | _ => none

section Load

variable {resolved : List Resolved} {nowMs ttlMs savedMs : Int64} {report : LoadReport}
  {t : StoredBoundToken} {tokens : List StoredBoundToken} {fleet : List AccountRuntime}
  {records : List MintRecord} {r : MintRecord}

theorem take_tokens : (report.take resolved nowMs ttlMs t).tokens =
    fill StoredBoundToken.hash (landing resolved nowMs ttlMs) report.tokens t := by
  unfold LoadReport.take fill landing
  cases pastTtl nowMs ttlMs t.ms with
  | true => rfl
  | false =>
    cases resolved[t.account]? with
    | none => rfl
    | some r => cases r <;> rfl

theorem foldl_tokens : (tokens.foldl (LoadReport.take resolved nowMs ttlMs) report).tokens =
    tokens.foldl (fill StoredBoundToken.hash (landing resolved nowMs ttlMs)) report.tokens := by
  induction tokens generalizing report with
  | nil => rfl
  | cons t tokens ih => rw [List.foldl_cons, List.foldl_cons, ih, take_tokens]

/-- Tokens whose slots resolve to one account each are neither unresolved nor ambiguous. -/
theorem foldl_resolved (report : LoadReport)
    (h : ∀ t ∈ tokens, ∃ index, resolved[t.account]? = some (.one index)) :
    let final := tokens.foldl (LoadReport.take resolved nowMs ttlMs) report
    final.unresolved = report.unresolved ∧ final.ambiguous = report.ambiguous ∧
      final.degraded = report.degraded := by
  induction tokens generalizing report with
  | nil => exact ⟨rfl, rfl, rfl⟩
  | cons t tokens ih =>
    obtain ⟨index, hindex⟩ := h t List.mem_cons_self
    obtain ⟨hunresolved, hambiguous, hdegraded⟩ :=
      ih (report.take resolved nowMs ttlMs t) fun t ht => h t (List.mem_cons_of_mem _ ht)
    have hone : (report.take resolved nowMs ttlMs t).unresolved = report.unresolved ∧
        (report.take resolved nowMs ttlMs t).ambiguous = report.ambiguous ∧
        (report.take resolved nowMs ttlMs t).degraded = report.degraded := by
      unfold LoadReport.take
      rw [hindex]
      split <;> exact ⟨rfl, rfl, rfl⟩
    exact ⟨hunresolved.trans hone.1, hambiguous.trans hone.2.1, hdegraded.trans hone.2.2⟩

theorem read_prepared {p : Prepared} (h : ∀ t ∈ p.tokens, t.account < 2 ^ 64) :
    readBoundTokenFile (.json (p.file savedMs).toJson) = .read (p.file savedMs) := by
  have hback : BoundTokenFile.ofJson (p.file savedMs).toJson = some (p.file savedMs) :=
    BoundTokenFile.of_json_to_json h
  have hversion : ¬(p.file savedMs).version ≠ formatVersion := not_not.mpr rfl
  simp only [readBoundTokenFile, BoundTokenFile.version_of_to_json, hback]
  rw [if_neg hversion]

/-- A record of the fleet resolves to the one index its account is at. -/
theorem resolve_record (hfleet : Lib.Keyed AccountRuntime.idKey fleet)
    (hr : ∃ a ∈ fleet, StoredAccount.of a = r.account) :
    ∃ i, resolve (fleet.map AccountRuntime.probe) r.account.probe = .one i ∧
      ∀ index, (∃ a, fleet[index]? = some a ∧ StoredAccount.of a = r.account) ↔ index = i := by
  obtain ⟨a, ha, haccount⟩ := hr
  obtain ⟨k, hk⟩ := Option.isSome_iff_exists.mp (hfleet.known a ha)
  obtain ⟨i, hi⟩ := List.mem_iff_getElem?.mp ha
  have hget : (fleet.map AccountRuntime.probe)[i]? = some a.probe := by
    rw [List.getElem?_map, hi]
    rfl
  refine ⟨i, ?_, fun index => ⟨?_, ?_⟩⟩
  · rw [← haccount]
    exact resolve_keyed_one (runtime_keyed hfleet) hget hk hk
  · rintro ⟨b, hb, hsame⟩
    have hprobe : b.probe = a.probe := congrArg StoredAccount.probe (hsame.trans haccount.symm)
    exact hfleet.index_unique hb hi (congrArg Account.idKey hprobe)
  · rintro rfl
    exact ⟨a, hi, haccount⟩

def resolvedSlots (fleet : List AccountRuntime) (records : List MintRecord) : List Resolved :=
  (written records).accounts.map fun stored =>
    resolve (fleet.map AccountRuntime.probe) stored.probe

theorem resolved_slot (h : r ∈ keptRecords records) :
    (resolvedSlots fleet records)[(r.stored (keptTable records)).account]? =
      some (resolve (fleet.map AccountRuntime.probe) r.account.probe) := by
  have hget : (keptTable records)[(keptTable records).idxOf r.account]? = some r.account :=
    List.getElem?_idxOf (mem_kept_table h)
  unfold resolvedSlots
  rw [List.getElem?_map]
  show Option.map _ (keptTable records)[(keptTable records).idxOf r.account]? = _
  rw [hget]
  rfl

/-- A kept record lands at the index of its account, with its kind and its time. -/
theorem landing_stored {index : Nat} {kind : BoundTokenKind} {ms : Int64}
    (hfleet : Lib.Keyed AccountRuntime.idKey fleet)
    (hr : ∃ a ∈ fleet, StoredAccount.of a = r.account) (h : r ∈ keptRecords records) :
    landing (resolvedSlots fleet records) nowMs ttlMs (r.stored (keptTable records)) =
        some (index, kind, ms) ↔
      pastTtl nowMs ttlMs r.ms = false ∧ r.kind = kind ∧ r.ms = ms ∧
        ∃ a, fleet[index]? = some a ∧ StoredAccount.of a = r.account := by
  obtain ⟨i, hone, hindex⟩ := resolve_record hfleet hr
  unfold landing
  rw [resolved_slot h, hone, hindex index]
  show (if pastTtl nowMs ttlMs r.ms then none else some (i, r.kind, r.ms)) = _ ↔ _
  cases pastTtl nowMs ttlMs r.ms with
  | true => simp
  | false =>
    simp only [Bool.false_eq_true, if_false, Option.some.injEq, Prod.mk.injEq, true_and]
    constructor
    · rintro ⟨rfl, rfl, rfl⟩
      exact ⟨rfl, rfl, rfl⟩
    · rintro ⟨rfl, rfl, rfl⟩
      exact ⟨rfl, rfl, rfl⟩

theorem slot_lt {t : StoredBoundToken} (h : t ∈ (written records).tokens) :
    t.account < 2 ^ 64 := by
  obtain ⟨r, hr, rfl⟩ := List.mem_map.mp h
  have hslot : (keptTable records).idxOf r.account < (keptTable records).length :=
    List.idxOf_lt_length_of_mem (mem_kept_table hr)
  have htable : (keptTable records).length ≤
      0 + ((keptRecords records).map MintRecord.account).length :=
    FirstSeen.length_enter_all_le _ _
  have hkept := length_kept_records records
  rw [List.length_map] at htable
  have hcap : boundTokenCap < 2 ^ 64 := by decide
  show (keptTable records).idxOf r.account < 2 ^ 64
  omega

theorem load_written : load (.json ((written records).file savedMs).toJson)
    (fleet.map AccountRuntime.probe) nowMs ttlMs =
      (written records).tokens.foldl
        (LoadReport.take (resolvedSlots fleet records) nowMs ttlMs) {} := by
  unfold load
  rw [read_prepared fun t ht => slot_lt ht]
  rfl

/-- A record that a load brings back at an index. -/
structure Restored (fleet : List AccountRuntime) (records : List MintRecord) (nowMs ttlMs : Int64)
    (r : MintRecord) (index : Nat) : Prop where
  /-- It has not expired. -/
  fresh : pastTtl nowMs ttlMs r.ms = false
  /-- It is among the newest that have not. -/
  newest : KeepNewest.newerThan mintTime (mintTime r)
    (records.filter fun r => !pastTtl nowMs ttlMs r.ms) < boundTokenCap
  /-- Its own account is at the index. -/
  account : ∃ a, fleet[index]? = some a ∧ StoredAccount.of a = r.account

theorem kept_hashes_nodup (hhashes : (records.map MintRecord.hash).Nodup) :
    ((keptRecords records).map MintRecord.hash).Nodup := by
  have hperm : (keptRecords records).Perm (KeepNewest.keep mintTime boundTokenCap records) :=
    List.mergeSort_perm _ _
  rw [(hperm.map MintRecord.hash).nodup_iff]
  exact KeepNewest.keep_keys_nodup hhashes

/-- Where no mint time straddles the cap, a record that has not expired is kept exactly when fewer
than the cap of those that have not are newer. -/
theorem mem_kept_iff (htied : ¬KeepNewest.EdgeTied mintTime boundTokenCap records)
    (hfresh : pastTtl nowMs ttlMs r.ms = false) :
    r ∈ keptRecords records ↔ r ∈ records ∧ KeepNewest.newerThan mintTime (mintTime r)
      (records.filter fun r => !pastTtl nowMs ttlMs r.ms) < boundTokenCap := by
  have hcut : ∀ a b : MintRecord, mintTime a ≤ mintTime b → (!pastTtl nowMs ttlMs a.ms) = true →
      (!pastTtl nowMs ttlMs b.ms) = true := by
    intro a b hle ha
    rw [Bool.not_eq_true'] at ha ⊢
    by_contra hb
    rw [Bool.not_eq_false] at hb
    have hold : pastTtl nowMs ttlMs a.ms = true :=
      minted_before_ages nowMs.toInt ttlMs.toInt _ _ hle hb
    rw [hold] at ha
    cases ha
  have hself : (!pastTtl nowMs ttlMs r.ms) = true := by rw [hfresh, Bool.not_false]
  unfold keptRecords KeepNewest.keepSorted
  rw [List.mem_mergeSort, KeepNewest.mem_keep htied, KeepNewest.newer_than_filter hcut hself]

/-- A load brings back the newest records that have not expired, each at its own account's index. -/
theorem load_lookup (hfleet : Lib.Keyed AccountRuntime.idKey fleet)
    (hrecords : ∀ r ∈ records, ∃ a ∈ fleet, StoredAccount.of a = r.account)
    (hhashes : (records.map MintRecord.hash).Nodup)
    (htied : ¬KeepNewest.EdgeTied mintTime boundTokenCap records) (hash : String) (index : Nat)
    (kind : BoundTokenKind) (ms : Int64) :
    (load (.json ((written records).file savedMs).toJson) (fleet.map AccountRuntime.probe) nowMs
        ttlMs).tokens.lookup hash = some (index, kind, ms) ↔
      ∃ r ∈ records, r.hash = hash ∧ r.kind = kind ∧ r.ms = ms ∧
        Restored fleet records nowMs ttlMs r index := by
  have hnodup : ((written records).tokens.map StoredBoundToken.hash).Nodup := by
    show (((keptRecords records).map _).map _).Nodup
    rw [List.map_map]
    exact kept_hashes_nodup hhashes
  have hempty : ({} : LoadReport).tokens.lookup hash = none := rfl
  rw [load_written, foldl_tokens, Lib.lookup_fill_all hnodup fun _ _ => rfl, hempty]
  constructor
  · rintro (hnone | ⟨t, ht, hhash, hlanding⟩)
    · cases hnone
    · obtain ⟨r, hr, rfl⟩ := List.mem_map.mp ht
      have hin := mem_kept_records hr
      obtain ⟨hfresh, hkind, hms, haccount⟩ := (landing_stored hfleet (hrecords r hin) hr).mp hlanding
      exact ⟨r, hin, hhash, hkind, hms, hfresh, ((mem_kept_iff htied hfresh).mp hr).2, haccount⟩
  · rintro ⟨r, hin, hhash, hkind, hms, hfresh, hnewest, haccount⟩
    have hr := (mem_kept_iff htied hfresh).mpr ⟨hin, hnewest⟩
    exact Or.inr ⟨_, List.mem_map_of_mem hr, hhash, (landing_stored hfleet (hrecords r hin) hr).mpr
      ⟨hfresh, hkind, hms, haccount⟩⟩

end Load

/-! ## Orders of one set -/

section Orders

variable {records records' : List MintRecord} {fleet : List AccountRuntime}

/-- Writes that are the same keep the same records: these are told apart by their hashes. -/
theorem kept_of_written (hhashes : (records.map MintRecord.hash).Nodup) (hperm : records'.Perm records)
    (h : written records' = written records) : keptRecords records' = keptRecords records := by
  have hmap := congrArg (fun p => p.tokens.map StoredBoundToken.hash) h
  simp only [written, List.map_map] at hmap
  refine List.ext_getElem? fun i => ?_
  have hi := congrArg (·[i]?) hmap
  simp only [List.getElem?_map] at hi
  cases h' : (keptRecords records')[i]? with
  | none =>
    rw [h', Option.map_none] at hi
    exact (Option.map_eq_none_iff.mp hi.symm).symm
  | some r' =>
    rw [h', Option.map_some] at hi
    obtain ⟨r, hr, hsame⟩ := Option.map_eq_some_iff.mp hi.symm
    have hin' := hperm.mem_iff.mp (mem_kept_records (List.mem_of_getElem? h'))
    have hin := mem_kept_records (List.mem_of_getElem? hr)
    rw [hr, List.inj_on_of_nodup_map hhashes hin hin' hsame]

theorem written_congr (hhashes : (records.map MintRecord.hash).Nodup)
    (htied : ¬KeepNewest.EdgeTied mintTime boundTokenCap records) (hperm : records'.Perm records) :
    written records' = written records := by
  have hkept : keptRecords records' = keptRecords records :=
    KeepNewest.keep_sorted_congr hhashes htied hperm
  unfold written keptTable
  rw [hkept]

/-- Two orders of one set of records are saved alike. -/
structure SavedAlike (digest : Value → UInt64) (records records' : List MintRecord) (savedMs : Int64) :
    Prop where
  prepared : ∃ p, prepare (build records) = .ok p ∧ prepare (build records') = .ok p
  flushed : flush digest (build records') savedMs = flush digest (build records) savedMs

/-- What is saved of one order of the records loads back as the newest of them. -/
def LoadsNewest (digest : Value → UInt64) (fleet : List AccountRuntime)
    (records records' : List MintRecord) (savedMs nowMs ttlMs : Int64) : Prop :=
  ∃ hashed document landed, flush digest (build records') savedMs = .ok (hashed, document, landed) ∧
    let report := load (.json document) (fleet.map AccountRuntime.probe) nowMs ttlMs
    report.degraded = none ∧ report.unresolved = 0 ∧ report.ambiguous = 0 ∧
      ∀ hash index kind ms, report.tokens.lookup hash = some (index, kind, ms) ↔
        ∃ r ∈ records, r.hash = hash ∧ r.kind = kind ∧ r.ms = ms ∧
          Restored fleet records nowMs ttlMs r index

theorem flush_build (digest : Value → UInt64) (records : List MintRecord) (savedMs : Int64) :
    flush digest (build records) savedMs = .ok ((written records).contentHash digest,
      ((written records).file savedMs).toJson, (written records).tokens.length) := by
  rw [flush, prepare_build]

theorem saved_alike (digest : Value → UInt64) (savedMs : Int64)
    (hhashes : (records.map MintRecord.hash).Nodup)
    (htied : ¬KeepNewest.EdgeTied mintTime boundTokenCap records) (hperm : records'.Perm records) :
    SavedAlike digest records records' savedMs := by
  have hsame := written_congr hhashes htied hperm
  refine ⟨⟨written records, prepare_build records, ?_⟩, ?_⟩
  · rw [prepare_build, hsame]
  · rw [flush_build, flush_build, hsame]

theorem loads_newest (digest : Value → UInt64) (savedMs nowMs ttlMs : Int64)
    (hfleet : Lib.Keyed AccountRuntime.idKey fleet)
    (hrecords : ∀ r ∈ records, ∃ a ∈ fleet, StoredAccount.of a = r.account)
    (hhashes : (records.map MintRecord.hash).Nodup)
    (htied : ¬KeepNewest.EdgeTied mintTime boundTokenCap records) (hperm : records'.Perm records) :
    LoadsNewest digest fleet records records' savedMs nowMs ttlMs := by
  have hresolved : ∀ t ∈ (written records).tokens, ∃ index,
      (resolvedSlots fleet records)[t.account]? = some (.one index) := by
    intro t ht
    obtain ⟨r, hr, rfl⟩ := List.mem_map.mp ht
    obtain ⟨i, hone, -⟩ := resolve_record hfleet (hrecords r (mem_kept_records hr))
    exact ⟨i, (resolved_slot hr).trans (congrArg some hone)⟩
  obtain ⟨hunresolved, hambiguous, hdegraded⟩ := foldl_resolved {} hresolved
  have hflush : flush digest (build records') savedMs = .ok ((written records).contentHash digest,
      ((written records).file savedMs).toJson, (written records).tokens.length) := by
    rw [flush_build, written_congr hhashes htied hperm]
  refine ⟨_, _, _, hflush, ?_, ?_, ?_, load_lookup hfleet hrecords hhashes htied⟩
  · rw [load_written]
    exact hdegraded
  · rw [load_written]
    exact hunresolved
  · rw [load_written]
    exact hambiguous

theorem fresher_eq : StoredPin.fresher = KeepNewest.newer fun pin => pin.touchedAtMs.toInt := by
  funext a b
  exact decide_eq_decide.mpr Int64.le_iff_toInt_le

theorem written_pins_eq (pins : List StoredPin) :
    writtenPins pins = KeepNewest.keepSorted (fun pin => pin.touchedAtMs.toInt)
      (fun pin => pin.key.toNat) pinCap pins := by
  unfold writtenPins KeepNewest.keepSorted KeepNewest.keep
  rw [fresher_eq]
  rfl

/-- Every order of one set of tokens is saved alike and loads back, over a fleet that minted them, as
the newest of them, and every order of one set of pins is written alike, exactly when no time lies on
either side of the cap: the sort that the cap cuts goes by time alone, so that among equal times the
order decides. -/
theorem caches_order_free_iff (digest : Value → UInt64) (records : List MintRecord)
    (pins : List StoredPin) (savedMs : Int64) (hhashes : (records.map MintRecord.hash).Nodup)
    (hkeys : (pins.map StoredPin.key).Nodup) :
    ((∀ records', records'.Perm records → SavedAlike digest records records' savedMs ∧
        ∀ fleet, Lib.Keyed AccountRuntime.idKey fleet →
          (∀ r ∈ records, ∃ a ∈ fleet, StoredAccount.of a = r.account) →
          ∀ nowMs ttlMs, LoadsNewest digest fleet records records' savedMs nowMs ttlMs) ↔
      ¬KeepNewest.EdgeTied mintTime boundTokenCap records) ∧
    ((∀ pins', pins'.Perm pins → writtenPins pins' = writtenPins pins) ↔
      ¬KeepNewest.EdgeTied (fun pin => pin.touchedAtMs.toInt) pinCap pins) := by
  constructor
  · constructor
    · intro hall htied
      obtain ⟨records', hperm, hne⟩ := KeepNewest.keep_sorted_of_tied hhashes htied
      obtain ⟨p, hp, hp'⟩ := (hall records' hperm).1.prepared
      rw [prepare_build] at hp hp'
      have hsame : written records' = written records :=
        Except.ok.inj (hp'.trans hp.symm)
      exact hne (kept_of_written hhashes hperm hsame)
    · exact fun htied records' hperm => ⟨saved_alike digest savedMs hhashes htied hperm,
        fun fleet hfleet hrecords nowMs ttlMs =>
          loads_newest digest savedMs nowMs ttlMs hfleet hrecords hhashes htied hperm⟩
  · have hnats : (pins.map fun pin => pin.key.toNat).Nodup := by
      have hcomp : (pins.map fun pin => pin.key.toNat) =
          (pins.map StoredPin.key).map UInt64.toNat := by
        rw [List.map_map]
        rfl
      rw [hcomp]
      exact hkeys.map fun a b => UInt64.toNat_inj.mp
    simp only [written_pins_eq]
    exact KeepNewest.keep_sorted_iff hnats

end Orders

/-- Two tokens of two accounts and two pins, each set in its other order. -/
theorem two_orders_alike :
    let personal : MintRecord :=
      { hash := "0a", kind := .thinkingSignature, account := ⟨"a", some "u", some "o1", none, .anthropic⟩
        ms := 500 }
    let work : MintRecord :=
      { hash := "0b", kind := .messageId, account := ⟨"a", some "u", some "o2", none, .anthropic⟩
        ms := 400 }
    let first : StoredPin := ⟨7, "a", some "u", some "o1", none, 500, false, .anthropic⟩
    let second : StoredPin := ⟨8, "a", some "u", some "o2", none, 500, false, .anthropic⟩
    SavedAlike (fun _ => 0) [personal, work] [work, personal] 600 ∧
      LoadsNewest (fun _ => 0) threeAccounts [personal, work] [work, personal] 600 700 86400000 ∧
      writtenPins [second, first] = writtenPins [first, second] := by
  intro personal work first second
  have hrecords : ∀ r ∈ [personal, work], ∃ a ∈ threeAccounts, StoredAccount.of a = r.account := by
    decide
  have h := caches_order_free_iff (fun _ => 0) [personal, work] [first, second] 600 (by decide)
    (by decide)
  have htokens := h.1.mpr (by decide) _ (List.Perm.swap _ _ _)
  exact ⟨htokens.1, htokens.2 threeAccounts three_accounts_keyed hrecords 700 86400000,
    h.2.mpr (by decide) _ (List.Perm.swap _ _ _)⟩

/-- A hash of 64 digits for each number. -/
def bitHash (i : Nat) : String :=
  String.ofList ((List.range 64).map fun k => if i.testBit k then '1' else '0')

theorem bit_hash_inj {i j : Nat} (hi : i < 2 ^ 64) (hj : j < 2 ^ 64) (h : bitHash i = bitHash j) :
    i = j := by
  have hlist := String.ofList_inj.mp h
  refine Nat.eq_of_testBit_eq fun k => ?_
  rcases Nat.lt_or_ge k 64 with hk | hk
  · have hchar := congrArg (·[k]?) hlist
    simp only [List.getElem?_map, List.getElem?_range hk, Option.map_some, Option.some.injEq] at hchar
    cases hbi : i.testBit k <;> cases hbj : j.testBit k <;> simp_all
  · have hpow : 2 ^ 64 ≤ 2 ^ k := Nat.pow_le_pow_right (by decide) hk
    rw [Nat.testBit_lt_two_pow (hi.trans_le hpow), Nat.testBit_lt_two_pow (hj.trans_le hpow)]

/-- One token more than the cap, all minted in one millisecond on one account. -/
def tiedRecords : List MintRecord :=
  (List.range (boundTokenCap + 1)).map fun i =>
    { hash := bitHash i
      kind := .thinkingSignature
      account := ⟨"a", some "u", some "o1", none, .anthropic⟩
      ms := 0 }

theorem tied_hashes_nodup : (tiedRecords.map MintRecord.hash).Nodup := by
  unfold tiedRecords
  rw [List.map_map]
  refine List.Nodup.map_on (fun i hi j hj hsame => ?_) List.nodup_range
  rw [List.mem_range] at hi hj
  have hcap : boundTokenCap + 1 < 2 ^ 64 := by decide
  exact bit_hash_inj (hi.trans hcap) (hj.trans hcap) hsame

/-- One pin more than the cap, all touched in one millisecond. -/
def tiedPins : List StoredPin :=
  affinityPinSnapshot threeAccounts ∅ manyPins

theorem many_pins_over : ∀ pin ∈ manyPins, pin.index < threeAccounts.length := by
  intro pin hpin
  obtain ⟨i, -, rfl⟩ := List.mem_map.mp hpin
  show 0 < threeAccounts.length
  decide

theorem tied_pin_keys : tiedPins.map StoredPin.key = manyPins.map LivePin.key :=
  snapshot_keys many_pins_over

/-- Tied over the cap, the order a set is taken in decides what is written. -/
theorem tied_order_decides :
    (tiedRecords.map MintRecord.hash).Nodup ∧ (tiedPins.map StoredPin.key).Nodup ∧
      prepare (build tiedRecords.reverse) ≠ prepare (build tiedRecords) ∧
      writtenPins tiedPins.reverse ≠ writtenPins tiedPins := by
  have hkeys : (tiedPins.map StoredPin.key).Nodup := by
    rw [tied_pin_keys]
    exact many_pins_nodup
  refine ⟨tied_hashes_nodup, hkeys, ?_, ?_⟩
  · rw [prepare_build, prepare_build]
    intro h
    have hkept := kept_of_written tied_hashes_nodup (List.reverse_perm tiedRecords) (Except.ok.inj h)
    refine KeepNewest.keep_sorted_reverse_ne ?_ (by decide) (List.Nodup.of_map _ tied_hashes_nodup) ?_
      hkept
    · rw [tiedRecords, List.length_map, List.length_range]
    · intro a ha b hb
      have htime : ∀ r ∈ tiedRecords, r.ms = 0 := by
        intro r hr
        obtain ⟨i, -, rfl⟩ := List.mem_map.mp hr
        rfl
      rw [mintTime, mintTime, htime a ha, htime b hb]
  · rw [written_pins_eq, written_pins_eq]
    refine KeepNewest.keep_sorted_reverse_ne ?_ (by decide) (List.Nodup.of_map _ hkeys) ?_
    · have hlength := congrArg List.length tied_pin_keys
      rw [List.length_map, List.length_map] at hlength
      rw [hlength, manyPins, List.length_map, List.length_range]
      rfl
    · intro a ha b hb
      obtain ⟨pin, hpin, hof⟩ := List.mem_filterMap.mp ha
      obtain ⟨pin', hpin', hof'⟩ := List.mem_filterMap.mp hb
      obtain ⟨-, -, -, htouched, -, -⟩ := stored_eq_some.mp hof
      obtain ⟨-, -, -, htouched', -, -⟩ := stored_eq_some.mp hof'
      obtain ⟨i, -, rfl⟩ := List.mem_map.mp hpin
      obtain ⟨j, -, rfl⟩ := List.mem_map.mp hpin'
      rw [htouched, htouched']

end TeamClaude.BoundTokens
