import TeamClaude.Machine
import TeamClaude.Lib.Exec
import TeamClaude.Lib.FirstMatch
import TeamClaude.Lib.SocketText
import TeamClaude.Peer.State
import Mathlib.Data.List.Perm.Subperm
import Mathlib.Data.Multiset.ZeroCons

/-!
# What this machine has found

A scan's rows list the addresses of a set, in the order the set is walked. The list of what was
found keys a row by its id and that list, and caps the rows of the address it happens to start with.
-/

namespace TeamClaude

open Lib

def maxFoundPerAddress : Nat := 2

structure Discovered where
  instanceId : InstanceId
  name : Option String
  addrs : List String
  port : UInt16
  deriving DecidableEq

/-- The row but for the order of its addresses. -/
structure Announcement where
  instanceId : InstanceId
  name : Option String
  addrs : Multiset String
  port : UInt16
  deriving DecidableEq

def Discovered.announcement (row : Discovered) : Announcement :=
  { instanceId := row.instanceId, name := row.name, addrs := row.addrs, port := row.port }

/-! ## Where the rows come from -/

def dialableFromHere : Net.IpAddr → Bool
  | .v4 _ => true
  | .v6 ip =>
    match ip.segments.head? with
    | some first => !(first &&& 0xffc0 == 0xfe80)
    | none => true

def ipText : Net.IpAddr → String
  | .v4 ip => String.ofList ip.display
  | .v6 ip => String.ofList ip.display

/-- `announced_addrs`, of the set in the order it is walked. -/
def announcedAddrs (announced : List Net.IpAddr) : List String :=
  (announced.filter dialableFromHere).map ipText

section DiscoveredRow

variable {Key : Type*} (parse : String → Option InstanceId) (sanitizeName : String → Option String)
  (tagMatches : Key → String → InstanceId → UInt16 → Int → Bool)

/-- `discovered_row`; the parser of ids, the whitelist of names and the check of tags are the
parameters. -/
def discoveredRow (instanceId tag name : Option String) (addrs : List String) (port : UInt16)
    (networkKey : Option Key) (nowUnixSecs : Int) : Option Discovered := do
  if addrs = [] then none
  let instanceId ← (← instanceId) |> parse
  match networkKey with
  | none => pure ()
  | some key =>
    let tag ← tag
    if tagMatches key tag instanceId port nowUnixSecs then pure () else none
  some { instanceId, name := name.bind sanitizeName, addrs, port }

theorem announced_addrs_perm {announced announced' : List Net.IpAddr}
    (h : announced.Perm announced') : (announcedAddrs announced).Perm (announcedAddrs announced') :=
  (h.filter _).map _

/-- Rows of two walks of one set read the same but for the order of the addresses. -/
theorem discovered_row_announcement {addrs addrs' : List String} (h : addrs.Perm addrs')
    (instanceId tag name : Option String) (port : UInt16) (networkKey : Option Key)
    (nowUnixSecs : Int) :
    (discoveredRow parse sanitizeName tagMatches instanceId tag name addrs port networkKey
        nowUnixSecs).map Discovered.announcement =
      (discoveredRow parse sanitizeName tagMatches instanceId tag name addrs' port networkKey
        nowUnixSecs).map Discovered.announcement := by
  have hnil : addrs = [] ↔ addrs' = [] := by
    rw [← List.length_eq_zero_iff, ← List.length_eq_zero_iff, h.length_eq]
  have haddrs : (addrs : Multiset String) = addrs' := Multiset.coe_eq_coe.mpr h
  unfold discoveredRow
  by_cases hempty : addrs = []
  · simp [hempty, hnil.mp hempty]
  · have hempty' : ¬ addrs' = [] := mt hnil.mpr hempty
    cases instanceId with
    | none => simp [hempty, hempty']
    | some text =>
      cases hid : parse text with
      | none => simp [hempty, hempty', hid]
      | some id =>
        cases networkKey with
        | none => simp [hempty, hempty', hid, Discovered.announcement, haddrs]
        | some key =>
          cases tag with
          | none => simp [hempty, hempty']
          | some tag =>
            by_cases htag : tagMatches key tag id port nowUnixSecs = true
            · simp [hempty, hempty', hid, htag, Discovered.announcement, haddrs]
            · simp [hempty, hempty', hid, htag]

end DiscoveredRow

/-! ## The list -/

structure FoundList where
  rows : List (Discovered × Int)
  deriving DecidableEq

namespace FoundList

def new : FoundList :=
  { rows := [] }

/-- The held row is of the row's id and lists its addresses as it does. -/
def coalesces (row : Discovered) (held : Discovered × Int) : Bool :=
  held.1.instanceId == row.instanceId && held.1.addrs == row.addrs

/-- The body of the loop of `observe`. -/
def fold (nowMs : Int) (rows : List (Discovered × Int)) (row : Discovered) :
    List (Discovered × Int) :=
  let key := row.addrs.head?.getD ""
  if rows.any (coalesces row) then
    updateFirst (coalesces row) (fun _ => (row, nowMs)) rows
  else if maxFoundPerAddress ≤ rows.countP fun held => held.1.addrs.head? == some key then
    rows
  else
    rows ++ [(row, nowMs)]

/-- The `retain` of `observe`. -/
def unexpired (nowMs : Int) (rows : List (Discovered × Int)) : List (Discovered × Int) :=
  rows.filter fun held => decide (saturatingSub nowMs held.2 < foundTtlMs)

/-- `Reverse` of the instant a row was seen. -/
def newerFirst (a b : Discovered × Int) : Bool :=
  decide (b.2 ≤ a.2)

def observe (self : FoundList) (seen : List Discovered × Int) : FoundList :=
  let rows := exec (fold seen.2) (unexpired seen.2 self.rows) seen.1
  { rows := rows.mergeSort newerFirst }

/-! ## What the order decides -/

/-- The rows are of one id and name the same addresses. -/
def SameAnnouncer (a b : Discovered) : Prop :=
  a.instanceId = b.instanceId ∧ a.addrs.toFinset = b.addrs.toFinset

/-- How many held rows name an address. -/
def named (addr : String) (rows : List (Discovered × Int)) : Nat :=
  rows.countP fun held => decide (addr ∈ held.1.addrs)

/-- How many held rows name an address and no other. -/
def namedAlone (addr : String) (rows : List (Discovered × Int)) : Nat :=
  rows.countP fun held => decide (held.1.addrs ≠ [] ∧ ∀ a ∈ held.1.addrs, a = addr)

/-- The keys the row has in one order of its addresses or another. -/
def keys (row : Discovered) : List String :=
  if row.addrs = [] then [""] else row.addrs

/-- No order of any addresses decides what is done with the row: it is held already under its only
address, or it is not held, and there is room under each of its keys or under none. -/
def Orderless (rows : List (Discovered × Int)) (row : Discovered) : Prop :=
  (∃ held ∈ rows, coalesces row held = true ∧ ∀ a ∈ row.addrs, ∀ b ∈ row.addrs, a = b) ∨
  (∀ held ∈ rows, ¬ SameAnnouncer held.1 row) ∧
    ((∀ key ∈ keys row, named key rows < maxFoundPerAddress) ∨
      ∀ key ∈ keys row, maxFoundPerAddress ≤ namedAlone key rows)

/-- No order decides what is done with any row of the scan. -/
def OrderFree (self : FoundList) (seen : List Discovered × Int) : Prop :=
  EachStep (fold seen.2) Orderless (unexpired seen.2 self.rows) seen.1

/-- What the list promises after a call. -/
structure Sound (nowMs : Int) (found : FoundList) : Prop where
  oneEach : found.rows.Pairwise fun a b => ¬ SameAnnouncer a.1 b.1
  capped : ∀ addr, named addr found.rows ≤ maxFoundPerAddress
  unexpired : ∀ held ∈ found.rows, nowMs - held.2 < foundTtlMs
  newest : found.rows.Pairwise fun a b => b.2 ≤ a.2

/-! ## Rows that read the same -/

/-- A held row but for the order of its addresses. -/
def unordered (held : Discovered × Int) : Announcement × Int :=
  (held.1.announcement, held.2)

theorem announcement_eq_iff {a b : Discovered} : a.announcement = b.announcement ↔
    a.instanceId = b.instanceId ∧ a.name = b.name ∧ a.addrs.Perm b.addrs ∧ a.port = b.port := by
  simp [Discovered.announcement]

/-- A list of one address alone has one order. -/
theorem eq_of_perm_const {l l' : List String} (h : l.Perm l') (hconst : ∀ a ∈ l, ∀ b ∈ l, a = b) :
    l' = l := by
  cases l with
  | nil => exact h.nil_eq.symm
  | cons a l =>
    have hall : a :: l = List.replicate (l.length + 1) a := by
      refine List.eq_replicate_iff.mpr ⟨rfl, fun b hb => ?_⟩
      exact hconst b hb a List.mem_cons_self
    rw [hall] at h ⊢
    exact List.perm_replicate.mp h.symm

variable {rows rows' : List (Discovered × Int)} {row row' : Discovered} {nowMs : Int}

theorem mem_unordered (hrows : rows.map unordered = rows'.map unordered) {held : Discovered × Int}
    (h : held ∈ rows) : ∃ held' ∈ rows', unordered held' = unordered held := by
  have hmem : unordered held ∈ rows'.map unordered := hrows ▸ List.mem_map_of_mem h
  exact List.mem_map.mp hmem

theorem named_eq (addr : String) (rows : List (Discovered × Int)) :
    named addr rows = (rows.map unordered).countP fun u => decide (addr ∈ u.1.addrs) := by
  rw [List.countP_map]
  rfl

theorem named_alone_eq (addr : String) (rows : List (Discovered × Int)) :
    namedAlone addr rows =
      (rows.map unordered).countP fun u => decide (u.1.addrs ≠ 0 ∧ ∀ a ∈ u.1.addrs, a = addr) := by
  rw [List.countP_map]
  simp [namedAlone, unordered, Discovered.announcement, Function.comp_def]

theorem mem_keys_congr (hrow : row.announcement = row'.announcement) (key : String) :
    key ∈ keys row ↔ key ∈ keys row' := by
  obtain ⟨-, -, hperm, -⟩ := announcement_eq_iff.mp hrow
  have hnil : row.addrs = [] ↔ row'.addrs = [] := by
    rw [← List.length_eq_zero_iff, ← List.length_eq_zero_iff, hperm.length_eq]
  unfold keys
  by_cases hempty : row.addrs = []
  · rw [if_pos hempty, if_pos (hnil.mp hempty)]
  · rw [if_neg hempty, if_neg (mt hnil.mpr hempty)]
    exact hperm.mem_iff

theorem same_announcer_congr {a a' b b' : Discovered} (ha : a.announcement = a'.announcement)
    (hb : b.announcement = b'.announcement) : SameAnnouncer a b ↔ SameAnnouncer a' b' := by
  obtain ⟨haid, -, haddrs, -⟩ := announcement_eq_iff.mp ha
  obtain ⟨hbid, -, hbaddrs, -⟩ := announcement_eq_iff.mp hb
  unfold SameAnnouncer
  rw [haid, hbid, List.toFinset_eq_of_perm _ _ haddrs, List.toFinset_eq_of_perm _ _ hbaddrs]

/-- What coalesces under one order of its only address coalesces under every order. -/
theorem coalesces_congr {held held' : Discovered × Int}
    (hheld : unordered held = unordered held') (hrow : row.announcement = row'.announcement)
    (hconst : ∀ a ∈ row.addrs, ∀ b ∈ row.addrs, a = b) :
    coalesces row held = coalesces row' held' := by
  obtain ⟨hid, -, haddrs, -⟩ := announcement_eq_iff.mp (Prod.mk.inj hheld).1
  obtain ⟨hrowid, -, hrowaddrs, -⟩ := announcement_eq_iff.mp hrow
  unfold coalesces
  rw [hid, hrowid, eq_of_perm_const hrowaddrs hconst]
  congr 1
  rw [Bool.eq_iff_iff, beq_iff_eq, beq_iff_eq]
  constructor
  · intro heq
    rw [← heq]
    exact eq_of_perm_const haddrs (heq ▸ hconst)
  · intro heq
    rw [← heq] at hconst ⊢
    exact eq_of_perm_const haddrs.symm hconst

theorem held_congr (hrows : rows.map unordered = rows'.map unordered)
    (hrow : row.announcement = row'.announcement)
    (h : ∃ held ∈ rows, coalesces row held = true ∧ ∀ a ∈ row.addrs, ∀ b ∈ row.addrs, a = b) :
    ∃ held ∈ rows', coalesces row' held = true ∧ ∀ a ∈ row'.addrs, ∀ b ∈ row'.addrs, a = b := by
  obtain ⟨held, hin, hcoalesces, hconst⟩ := h
  obtain ⟨-, -, hperm, -⟩ := announcement_eq_iff.mp hrow
  obtain ⟨held', hin', hsame⟩ := mem_unordered hrows hin
  refine ⟨held', hin', ?_, fun a ha b hb => ?_⟩
  · rw [← coalesces_congr hsame.symm hrow hconst]
    exact hcoalesces
  · exact hconst a (hperm.mem_iff.mpr ha) b (hperm.mem_iff.mpr hb)

theorem new_congr (hrows : rows.map unordered = rows'.map unordered)
    (hrow : row.announcement = row'.announcement)
    (h : ∀ held ∈ rows, ¬ SameAnnouncer held.1 row) :
    ∀ held ∈ rows', ¬ SameAnnouncer held.1 row' := by
  intro held' hin' hsame
  obtain ⟨held, hin, heq⟩ := mem_unordered hrows.symm hin'
  exact h held hin ((same_announcer_congr (Prod.mk.inj heq).1 hrow).mpr hsame)

theorem room_congr (hrows : rows.map unordered = rows'.map unordered)
    (hrow : row.announcement = row'.announcement)
    (h : ∀ key ∈ keys row, named key rows < maxFoundPerAddress) :
    ∀ key ∈ keys row', named key rows' < maxFoundPerAddress := by
  intro key hkey
  rw [named_eq, ← hrows, ← named_eq]
  exact h key ((mem_keys_congr hrow key).mpr hkey)

theorem full_congr (hrows : rows.map unordered = rows'.map unordered)
    (hrow : row.announcement = row'.announcement)
    (h : ∀ key ∈ keys row, maxFoundPerAddress ≤ namedAlone key rows) :
    ∀ key ∈ keys row', maxFoundPerAddress ≤ namedAlone key rows' := by
  intro key hkey
  rw [named_alone_eq, ← hrows, ← named_alone_eq]
  exact h key ((mem_keys_congr hrow key).mpr hkey)

/-- Whether an order decides is no matter of the order. -/
theorem Orderless.congr (hrows : rows.map unordered = rows'.map unordered)
    (hrow : row.announcement = row'.announcement) (h : Orderless rows row) :
    Orderless rows' row' :=
  h.imp (held_congr hrows hrow) fun hnew =>
    ⟨new_congr hrows hrow hnew.1, hnew.2.imp (room_congr hrows hrow) (full_congr hrows hrow)⟩

/-! ## One row -/

theorem fold_of_held (h : ∃ held ∈ rows, coalesces row held = true) :
    fold nowMs rows row = updateFirst (coalesces row) (fun _ => (row, nowMs)) rows := by
  unfold fold
  rw [if_pos (List.any_eq_true.mpr h)]

theorem not_coalesces (h : ∀ held ∈ rows, ¬ SameAnnouncer held.1 row) :
    ¬ rows.any (coalesces row) = true := by
  rw [List.any_eq_true]
  rintro ⟨held, hin, hcoalesces⟩
  rw [coalesces, Bool.and_eq_true, beq_iff_eq, beq_iff_eq] at hcoalesces
  exact h held hin ⟨hcoalesces.1, by rw [hcoalesces.2]⟩

theorem key_mem_keys (row : Discovered) : row.addrs.head?.getD "" ∈ keys row := by
  unfold keys
  cases row.addrs with
  | nil => simp
  | cons addr addrs => simp

theorem fold_of_room (hnew : ∀ held ∈ rows, ¬ SameAnnouncer held.1 row)
    (hroom : ∀ key ∈ keys row, named key rows < maxFoundPerAddress) :
    fold nowMs rows row = rows ++ [(row, nowMs)] := by
  have hkey := hroom _ (key_mem_keys row)
  unfold fold
  rw [if_neg (not_coalesces hnew), if_neg]
  rw [not_le]
  refine lt_of_le_of_lt (List.countP_mono_left fun held _ hheld => ?_) hkey
  exact decide_eq_true (List.mem_of_head? (beq_iff_eq.mp hheld))

theorem fold_of_full (hnew : ∀ held ∈ rows, ¬ SameAnnouncer held.1 row)
    (hfull : ∀ key ∈ keys row, maxFoundPerAddress ≤ namedAlone key rows) :
    fold nowMs rows row = rows := by
  have hkey := hfull _ (key_mem_keys row)
  unfold fold
  rw [if_neg (not_coalesces hnew), if_pos]
  refine hkey.trans (List.countP_mono_left fun held _ hheld => ?_)
  obtain ⟨hsome, hall⟩ := of_decide_eq_true hheld
  obtain ⟨addr, addrs, haddrs⟩ := List.exists_cons_of_ne_nil hsome
  rw [haddrs] at hall ⊢
  simp [hall addr List.mem_cons_self]

/-- A row that no order decides is folded alike under all orders. -/
theorem fold_congr (h : Orderless rows row) (hrows : rows.map unordered = rows'.map unordered)
    (hrow : row.announcement = row'.announcement) :
    (fold nowMs rows row).map unordered = (fold nowMs rows' row').map unordered := by
  have hadded : unordered (row, nowMs) = unordered (row', nowMs) := by
    unfold unordered
    rw [hrow]
  rcases h with hheld | ⟨hnew, hroom | hfull⟩
  · obtain ⟨held', hin', hcoalesces', -⟩ := held_congr hrows hrow hheld
    obtain ⟨held, hin, hcoalesces, hconst⟩ := hheld
    rw [fold_of_held ⟨held, hin, hcoalesces⟩, fold_of_held ⟨held', hin', hcoalesces'⟩]
    refine map_updateFirst_congr hrows (fun x _ x' _ hx => ?_) (fun _ _ _ _ => hadded)
    exact coalesces_congr hx hrow hconst
  · rw [fold_of_room hnew hroom,
      fold_of_room (new_congr hrows hrow hnew) (room_congr hrows hrow hroom),
      List.map_append, List.map_append, hrows, List.map_singleton, List.map_singleton, hadded]
  · rw [fold_of_full hnew hfull,
      fold_of_full (new_congr hrows hrow hnew) (full_congr hrows hrow hfull), hrows]

/-- One row an announcer, and no address named beyond the cap. -/
structure Kept (rows : List (Discovered × Int)) : Prop where
  oneEach : rows.Pairwise fun a b => ¬ SameAnnouncer a.1 b.1
  capped : ∀ addr, named addr rows ≤ maxFoundPerAddress

theorem Kept.sublist (h : Kept rows) (hsub : rows'.Sublist rows) : Kept rows' where
  oneEach := h.oneEach.sublist hsub
  capped addr := (hsub.countP_le).trans (h.capped addr)

theorem Kept.perm (h : Kept rows) (hperm : rows.Perm rows') : Kept rows' where
  oneEach := (hperm.pairwise_iff fun hab hba => hab ⟨hba.1.symm, hba.2.symm⟩).mp h.oneEach
  capped addr := (hperm.countP_eq _).symm.trans_le (h.capped addr)

/-- What a held row is kept by. -/
def ident (held : Discovered × Int) : InstanceId × List String :=
  (held.1.instanceId, held.1.addrs)

theorem Kept.of_ident (h : Kept rows) (hident : rows'.map ident = rows.map ident) : Kept rows' where
  oneEach := by
    have hpairs : (rows.map ident).Pairwise fun a b => ¬ (a.1 = b.1 ∧ a.2.toFinset = b.2.toFinset) :=
      List.pairwise_map.mpr h.oneEach
    rw [← hident] at hpairs
    exact List.pairwise_map.mp hpairs
  capped addr := by
    have hcount : ∀ l : List (Discovered × Int),
        named addr l = (l.map ident).countP fun i => decide (addr ∈ i.2) := by
      intro l
      rw [List.countP_map]
      rfl
    rw [hcount, hident, ← hcount]
    exact h.capped addr

/-- A row that no order decides keeps the list as it should be. -/
theorem Kept.fold (hkept : Kept rows) (h : Orderless rows row) (nowMs : Int) :
    Kept (fold nowMs rows row) := by
  rcases h with ⟨held, hin, hcoalesces, -⟩ | ⟨hnew, hroom | hfull⟩
  · rw [fold_of_held ⟨held, hin, hcoalesces⟩]
    refine hkept.of_ident (map_updateFirst (fun x hx => ?_) rows)
    rw [coalesces, Bool.and_eq_true, beq_iff_eq, beq_iff_eq] at hx
    exact Prod.ext hx.1.symm hx.2.symm
  · rw [fold_of_room hnew hroom]
    constructor
    · rw [List.pairwise_append]
      refine ⟨hkept.oneEach, List.pairwise_singleton _ _, fun a ha b hb => ?_⟩
      rw [List.mem_singleton.mp hb]
      exact hnew a ha
    · intro addr
      rw [named, List.countP_append, List.countP_singleton]
      split
      · rename_i haddr
        have hmem : addr ∈ row.addrs := of_decide_eq_true haddr
        have hkey : addr ∈ keys row := by
          rw [keys, if_neg (List.ne_nil_of_mem hmem)]
          exact hmem
        exact Nat.succ_le_of_lt (hroom addr hkey)
      · exact hkept.capped addr
  · rw [fold_of_full hnew hfull]
    exact hkept

/-! ## One scan -/

/-- Every held row was seen less than the time to live ago. -/
def Unexpired (nowMs : Int) (rows : List (Discovered × Int)) : Prop :=
  ∀ held ∈ rows, saturatingSub nowMs held.2 < foundTtlMs

theorem Unexpired.fold (h : Unexpired nowMs rows) (row : Discovered) :
    Unexpired nowMs (FoundList.fold nowMs rows row) := by
  have hnow : saturatingSub nowMs nowMs < foundTtlMs := by
    rw [saturatingSub, sub_self]
    decide
  intro held hin
  unfold FoundList.fold at hin
  simp only at hin
  split at hin
  · rcases mem_updateFirst hin with hold | ⟨_, _, _, rfl⟩
    · exact h held hold
    · exact hnow
  · split at hin
    · exact h held hin
    · rcases List.mem_append.mp hin with hold | hadded
      · exact h held hold
      · rw [List.mem_singleton.mp hadded]
        exact hnow

theorem unexpired_of_saturating {seenMs : Int} (h : saturatingSub nowMs seenMs < foundTtlMs) :
    nowMs - seenMs < foundTtlMs := by
  unfold saturatingSub i64Min i64Max foundTtlMs at h
  unfold foundTtlMs
  omega

variable {self other : FoundList} {seen seen' : List Discovered × Int}

/-- The rows of a call before they are sorted. -/
def folded (self : FoundList) (seen : List Discovered × Int) : List (Discovered × Int) :=
  exec (fold seen.2) (FoundList.unexpired seen.2 self.rows) seen.1

theorem observe_rows (self : FoundList) (seen : List Discovered × Int) :
    (self.observe seen).rows = (self.folded seen).mergeSort newerFirst := rfl

theorem sorted_newest (rows : List (Discovered × Int)) :
    (rows.mergeSort newerFirst).Pairwise fun a b => b.2 ≤ a.2 := by
  have htrans : ∀ a b c : Discovered × Int,
      newerFirst a b = true → newerFirst b c = true → newerFirst a c = true := by
    intro a b c hab hbc
    exact decide_eq_true ((of_decide_eq_true hbc).trans (of_decide_eq_true hab))
  have htotal : ∀ a b : Discovered × Int, (newerFirst a b || newerFirst b a) = true := by
    intro a b
    rw [Bool.or_eq_true]
    exact (le_total b.2 a.2).imp decide_eq_true decide_eq_true
  exact (List.pairwise_mergeSort htrans htotal rows).imp of_decide_eq_true

/-- What a call holds is fresh and newest first, whatever the orders. -/
theorem observe_fresh (self : FoundList) (seen : List Discovered × Int) :
    (∀ held ∈ (self.observe seen).rows, seen.2 - held.2 < foundTtlMs) ∧
      (self.observe seen).rows.Pairwise fun a b => b.2 ≤ a.2 := by
  rw [observe_rows]
  refine ⟨fun held hin => ?_, sorted_newest _⟩
  rw [List.mem_mergeSort] at hin
  have hstart : Unexpired seen.2 (FoundList.unexpired seen.2 self.rows) :=
    fun held hheld => of_decide_eq_true (List.mem_filter.mp hheld).2
  have hkeep : ∀ rows row, Unexpired seen.2 rows → True → Unexpired seen.2 (fold seen.2 rows row) :=
    fun rows row h _ => h.fold row
  have hrun := exec_invariant hkeep hstart (fun _ _ _ => trivial) seen.1 List.prefix_rfl
  exact unexpired_of_saturating (hrun held hin)

/-- A call whose rows no order decides leaves a list as it should be. -/
theorem observe_sound (hkept : Kept self.rows) (h : self.OrderFree seen) :
    (self.observe seen).Sound seen.2 := by
  have hkeep : ∀ rows row, Kept rows → Orderless rows row → Kept (fold seen.2 rows row) :=
    fun rows row hrows hrow => hrows.fold hrow seen.2
  have hfolded : Kept (self.folded seen) :=
    exec_invariant hkeep (hkept.sublist List.filter_sublist) h seen.1 List.prefix_rfl
  have hsorted : Kept (self.observe seen).rows := hfolded.perm (List.mergeSort_perm _ _).symm
  obtain ⟨hfresh, hnewest⟩ := observe_fresh self seen
  exact ⟨hsorted.oneEach, hsorted.capped, hfresh, hnewest⟩

/-- The scan but for the orders of the addresses of its rows. -/
def unorderedScan (seen : List Discovered × Int) : List Announcement × Int :=
  (seen.1.map Discovered.announcement, seen.2)

theorem fold_all_congr {scan scan' : List Discovered}
    (h : EachStep (fold nowMs) Orderless rows scan)
    (hrows : rows.map unordered = rows'.map unordered)
    (hscan : scan.map Discovered.announcement = scan'.map Discovered.announcement) :
    (exec (fold nowMs) rows scan).map unordered = (exec (fold nowMs) rows' scan').map unordered := by
  induction scan generalizing rows rows' scan' with
  | nil =>
    obtain rfl := List.map_eq_nil_iff.mp hscan.symm
    exact hrows
  | cons row scan ih =>
    obtain ⟨row', scan', rfl, hrow, hrest⟩ := List.map_eq_cons_iff.mp hscan.symm
    obtain ⟨hfirst, hlater⟩ := each_step_cons.mp h
    rw [exec_cons, exec_cons]
    exact ih hlater (fold_congr hfirst hrows hrow.symm) hrest.symm

theorem unexpired_unordered (rows : List (Discovered × Int)) :
    (unexpired nowMs rows).map unordered =
      (rows.map unordered).filter fun u => decide (saturatingSub nowMs u.2 < foundTtlMs) := by
  rw [List.filter_map]
  rfl

theorem sorted_unordered (rows : List (Discovered × Int)) :
    (rows.mergeSort newerFirst).map unordered =
      (rows.map unordered).mergeSort fun a b => decide (b.2 ≤ a.2) :=
  List.map_mergeSort fun _ _ _ _ => rfl

/-- A call whose rows no order decides holds the same rows under all orders. -/
theorem observe_congr (h : self.OrderFree seen)
    (hrows : self.rows.map unordered = other.rows.map unordered)
    (hseen : unorderedScan seen = unorderedScan seen') :
    (self.observe seen).rows.map unordered = (other.observe seen').rows.map unordered := by
  obtain ⟨hscan, hnow⟩ := Prod.mk.inj hseen
  have hstart : (unexpired seen.2 self.rows).map unordered =
      (unexpired seen'.2 other.rows).map unordered := by
    rw [unexpired_unordered, unexpired_unordered, hrows, hnow]
  have hfolded : (self.folded seen).map unordered = (other.folded seen').map unordered := by
    have hall := fold_all_congr h hstart hscan
    rw [folded, folded, ← hnow]
    rw [hnow] at hall ⊢
    exact hall
  rw [observe_rows, observe_rows, sorted_unordered, sorted_unordered, hfolded]

/-! ## Runs of scans -/

theorem kept_new : Kept new.rows where
  oneEach := List.Pairwise.nil
  capped _ := Nat.zero_le _

theorem Sound.kept (h : self.Sound nowMs) : Kept self.rows :=
  ⟨h.oneEach, h.capped⟩

/-- In a run whose rows no order decides the list is as it should be after every call, and any other
orders of the addresses leave the same rows. -/
theorem found_list_sound {scans : List (List Discovered × Int)}
    (h : EachStep observe OrderFree new scans) :
    EachStep observe (fun self seen => (self.observe seen).Sound seen.2) new scans ∧
    ∀ scans' : List (List Discovered × Int), scans.map unorderedScan = scans'.map unorderedScan →
      (exec observe new scans).rows.map unordered = (exec observe new scans').rows.map unordered := by
  constructor
  · refine each_step_of_invariant (I := fun self => Kept self.rows)
      (fun self seen hkept hfree => (observe_sound hkept hfree).kept)
      (fun self seen hkept hfree => observe_sound hkept hfree) kept_new h
  · suffices hrun : ∀ (scans scans' : List (List Discovered × Int)) (self other : FoundList),
        EachStep observe OrderFree self scans →
        self.rows.map unordered = other.rows.map unordered →
        scans.map unorderedScan = scans'.map unorderedScan →
        (exec observe self scans).rows.map unordered =
          (exec observe other scans').rows.map unordered from
      fun scans' hscans => hrun scans scans' new new h rfl hscans
    clear h scans
    intro scans
    induction scans with
    | nil =>
      intro scans' self other _ hrows hscans
      obtain rfl := List.map_eq_nil_iff.mp hscans.symm
      exact hrows
    | cons seen scans ih =>
      intro scans' self other h hrows hscans
      obtain ⟨seen', scans', rfl, hseen, hrest⟩ := List.map_eq_cons_iff.mp hscans.symm
      obtain ⟨hfirst, hlater⟩ := each_step_cons.mp h
      exact ih scans' _ _ hlater (observe_congr hfirst hrows hseen.symm) hrest.symm

/-- A machine of one address that announces itself twice, and one of two addresses. -/
def quietScan : List Discovered × Int :=
  ([⟨1, none, ["10.0.0.1"], 7755⟩, ⟨1, none, ["10.0.0.1"], 7755⟩,
    ⟨2, none, ["10.0.0.2", "fd00::2"], 7755⟩], 1000)

/-- The same in another order. -/
def quietScanTurned : List Discovered × Int :=
  ([⟨1, none, ["10.0.0.1"], 7755⟩, ⟨1, none, ["10.0.0.1"], 7755⟩,
    ⟨2, none, ["fd00::2", "10.0.0.2"], 7755⟩], 1000)

theorem found_list_sound_quiet :
    (exec observe new [quietScan]).Sound 1000 ∧
      (exec observe new [quietScan]).rows.map unordered =
        (exec observe new [quietScanTurned]).rows.map unordered := by
  have hfree : EachStep observe OrderFree new [quietScan] := by
    rw [each_step_cons]
    refine ⟨?_, each_step_nil⟩
    unfold OrderFree
    rw [quietScan, each_step_cons, each_step_cons, each_step_cons]
    refine ⟨?_, ?_, ?_, each_step_nil⟩ <;> unfold Orderless SameAnnouncer <;> decide +kernel
  have hsound := found_list_sound hfree
  refine ⟨(each_step_cons.mp hsound.1).1, hsound.2 [quietScanTurned] ?_⟩
  simp [quietScan, quietScanTurned, unorderedScan, Discovered.announcement, List.Perm.swap]

/-- One machine of two addresses, walked first in one order and then in the other. -/
def turnedScans : List (List Discovered × Int) :=
  [([⟨1, none, ["10.0.0.1", "fd00::1"], 7755⟩], 0), ([⟨1, none, ["fd00::1", "10.0.0.1"], 7755⟩], 20000)]

/-- The same machine, walked in one order. -/
def steadyScans : List (List Discovered × Int) :=
  [([⟨1, none, ["10.0.0.1", "fd00::1"], 7755⟩], 0), ([⟨1, none, ["10.0.0.1", "fd00::1"], 7755⟩], 20000)]

theorem observe_once (row : Discovered) (nowMs : Int) :
    new.observe ([row], nowMs) = { rows := [(row, nowMs)] } := by
  simp [observe, new, unexpired, fold, maxFoundPerAddress]

theorem turned_twice_found :
    turnedScans.map unorderedScan = steadyScans.map unorderedScan ∧
      ¬ (exec observe new turnedScans).Sound 20000 ∧
      (exec observe new turnedScans).rows.length = 2 ∧
      (exec observe new steadyScans).rows.length = 1 := by
  refine ⟨?_, fun hsound => ?_, ?_, ?_⟩
  · simp [turnedScans, steadyScans, unorderedScan, Discovered.announcement, List.Perm.swap]
  · rw [turnedScans, exec_cons, observe_once, exec_cons, exec_nil] at hsound
    have hkept := hsound.kept.perm (List.mergeSort_perm _ _)
    have hpair := hkept.oneEach
    revert hpair
    unfold SameAnnouncer
    decide +kernel
  · rw [turnedScans, exec_cons, observe_once, exec_cons, exec_nil, observe_rows,
      List.length_mergeSort]
    decide +kernel
  · rw [steadyScans, exec_cons, observe_once, exec_cons, exec_nil, observe_rows,
      List.length_mergeSort]
    decide +kernel

end FoundList

end TeamClaude
