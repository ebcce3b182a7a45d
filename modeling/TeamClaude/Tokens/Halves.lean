import TeamClaude.Tokens.Store

/-!
# The two halves of the bound-token map

The map as the code keeps it: the entries by hash and, in a second container, the mint time of each
with its hash. Every write touches both. These results show that the halves are those of a map whose
entries are kept in age order by construction, and say what a prune leaves.
-/

namespace TeamClaude

open Lib

/-- `BoundTokenMap`: the entries by hash, and (mint ms, hash) pairs, oldest first. -/
structure TokenHalves where
  byHash : AList fun _ : String => Minted := ∅
  byAge : Finset (Int ×ₗ String) := ∅

namespace TokenHalves

def get (h : TokenHalves) (hash : String) : Option Minted :=
  h.byHash.lookup hash

def len (h : TokenHalves) : Nat :=
  h.byHash.entries.length

/-- `BoundTokenMap::insert`: the pair of an earlier mint goes first. -/
def insert (h : TokenHalves) (hash : String) (value : Minted) : TokenHalves :=
  let byAge :=
    match h.byHash.lookup hash with
    | some old => h.byAge.erase (toLex (old.ms, hash))
    | none => h.byAge
  { byAge := Insert.insert (toLex (value.ms, hash)) byAge, byHash := h.byHash.insert hash value }

/-- `BoundTokenMap::insert_if_absent` -/
def insertIfAbsent (h : TokenHalves) (hash : String) (value : Minted) : TokenHalves :=
  if (h.get hash).isSome then h else h.insert hash value

/-- `BTreeSet::first` -/
def first (h : TokenHalves) : Option (Int × String) :=
  (Finset.min h.byAge : Option (Int ×ₗ String)).map ofLex

/-- The loop of `BoundTokenMap::prune`, for as many rounds as there are pairs. -/
def pruneLoop (nowMs ttlMs : Int) (cap : Nat) : Nat → TokenHalves → TokenHalves
  | 0, h => h
  | rounds + 1, h =>
    match h.first with
    | none => h
    | some (oldestMs, hash) =>
      if saturatingSub nowMs oldestMs ≤ ttlMs ∧ h.len ≤ cap then h
      else
        pruneLoop nowMs ttlMs cap rounds
          { byAge := h.byAge.erase (toLex (oldestMs, hash)), byHash := h.byHash.erase hash }

/-- `BoundTokenMap::prune`: every round pops a pair. -/
def prune (h : TokenHalves) (nowMs ttlMs : Int) (cap : Nat) : TokenHalves :=
  h.pruneLoop nowMs ttlMs cap h.byAge.card

/-- One write of the map. -/
inductive Op
  | insert (hash : String) (value : Minted)
  | insertIfAbsent (hash : String) (value : Minted)
  | prune (nowMs ttlMs : Int) (cap : Nat)

def step (h : TokenHalves) : Op → TokenHalves
  | .insert hash value => h.insert hash value
  | .insertIfAbsent hash value => h.insertIfAbsent hash value
  | .prune nowMs ttlMs cap => h.prune nowMs ttlMs cap

end TokenHalves

/-! ## The map in age order -/

namespace TokenHalves

/-- The halves of a map that keeps its entries in age order. -/
def ofMap (m : BoundTokenMap) : TokenHalves :=
  { byHash := m.byKey, byAge := m.byAge }

variable {m : BoundTokenMap} {hash : String} {value : Minted} {nowMs ttlMs : Int} {cap : Nat}

theorem of_map_insert : (ofMap m).insert hash value = ofMap (m.insert hash value) := by
  unfold insert AgedMap.insert AgedMap.ageWithout
  simp only [ofMap]
  cases m.byKey.lookup hash with
  | none => rfl
  | some old => rfl

theorem of_map_insert_if_absent :
    (ofMap m).insertIfAbsent hash value = ofMap (m.insertIfAbsent hash value) := by
  unfold insertIfAbsent AgedMap.insertIfAbsent
  have hget : (ofMap m).get hash = m.get hash := rfl
  rw [hget]
  split
  · rfl
  · exact of_map_insert

/-- Popping the first pair and its hash removes that hash from the map. -/
theorem of_map_remove {oldestMs : Int} (h : m.oldest = some (oldestMs, hash)) :
    ({ byAge := m.byAge.erase (toLex (oldestMs, hash)), byHash := m.byKey.erase hash } :
      TokenHalves) = ofMap (m.remove hash) := by
  obtain ⟨⟨old, hold, rfl⟩, -⟩ := AgedMap.oldest_some h
  rw [← AgedMap.by_age_remove hold]
  rfl

theorem of_map_prune_loop (rounds : Nat) :
    (ofMap m).pruneLoop nowMs ttlMs cap rounds =
      ofMap (m.pruneLoop (mintedBefore nowMs ttlMs) cap rounds) := by
  induction rounds generalizing m with
  | zero => rfl
  | succ rounds ih =>
    have hfirst : (ofMap m).first = m.oldest := rfl
    have hlen : (ofMap m).len = m.len := rfl
    rw [pruneLoop, AgedMap.pruneLoop, hfirst, hlen]
    cases hold : m.oldest with
    | none => rfl
    | some oldest =>
      obtain ⟨oldestMs, hash⟩ := oldest
      have hage : saturatingSub nowMs oldestMs ≤ ttlMs ↔
          mintedBefore nowMs ttlMs oldestMs = false := by
        rw [mintedBefore, decide_eq_false_iff_not, not_lt]
      simp only [hage]
      split
      · rfl
      · rw [← ih, ← of_map_remove hold]
        rfl

theorem of_map_prune : (ofMap m).prune nowMs ttlMs cap =
    ofMap (m.prune (mintedBefore nowMs ttlMs) cap) :=
  of_map_prune_loop _

/-- The halves of every run are those of a map in age order. -/
theorem run_of_map (ops : List Op) : ∃ m, exec step {} ops = ofMap m := by
  induction ops using List.reverseRecOn with
  | nil => exact ⟨AgedMap.empty, rfl⟩
  | append_singleton ops op ih =>
    obtain ⟨m, hm⟩ := ih
    rw [exec_snoc, hm]
    cases op with
    | insert hash value => exact ⟨_, of_map_insert⟩
    | insertIfAbsent hash value => exact ⟨_, of_map_insert_if_absent⟩
    | prune nowMs ttlMs cap => exact ⟨_, of_map_prune⟩

/-- The pairs of the entries that are not older than the lifetime. -/
def unexpired (h : TokenHalves) (nowMs ttlMs : Int) : Finset (Int ×ₗ String) :=
  h.byAge.filter fun e => saturatingSub nowMs (ofLex e).1 ≤ ttlMs

theorem of_map_unexpired :
    (ofMap m).unexpired nowMs ttlMs = m.fresh (mintedBefore nowMs ttlMs) := by
  refine Finset.filter_congr fun e _ => ?_
  rw [mintedBefore, decide_eq_false_iff_not, not_lt]

/-- Below the largest lifetime the saturated age of an entry is over it exactly when its age is. -/
theorem saturated_age {ms : Int} (hlow : i64Min ≤ ttlMs) (hhigh : ttlMs < i64Max) :
    saturatingSub nowMs ms ≤ ttlMs ↔ nowMs - ms ≤ ttlMs := by
  unfold saturatingSub
  omega

/-- What a prune leaves are the newest entries by mint time and hash among those that are not older
than the lifetime, as many as the cap allows. -/
theorem get_of_map_prune : ((ofMap m).prune nowMs ttlMs cap).get hash = some value ↔
    (ofMap m).get hash = some value ∧
      toLex (value.ms, hash) ∈ newest cap ((ofMap m).unexpired nowMs ttlMs) := by
  have hage := m.prune_by_age cap (minted_before_ages nowMs ttlMs)
  rw [of_map_prune, of_map_unexpired, ← hage]
  constructor
  · intro hget
    exact ⟨AgedMap.get_prune_loop hget, (AgedMap.agree _ _ _).mpr ⟨value, hget, rfl⟩⟩
  · rintro ⟨hget, hleft⟩
    obtain ⟨other, hother, -⟩ := (AgedMap.agree _ _ _).mp hleft
    have hsame : m.get hash = some other := AgedMap.get_prune_loop hother
    have hvalue : other = value := Option.some_injective _ (hsame.symm.trans hget)
    rw [hvalue] at hother
    exact hother

/-- In every run each entry has one pair, at its mint time, and there are no other pairs; and a prune
leaves the newest of the entries that are not older than the lifetime, as many as the cap allows. -/
theorem halves_in_step (ops : List Op) :
    let h := exec step {} ops
    (∀ ms hash, toLex (ms, hash) ∈ h.byAge ↔
        ∃ value, h.get hash = some value ∧ value.ms = ms) ∧
      h.byAge.card = h.len ∧
      ∀ nowMs ttlMs cap hash value, (h.prune nowMs ttlMs cap).get hash = some value ↔
        h.get hash = some value ∧
          toLex (value.ms, hash) ∈ newest cap (h.unexpired nowMs ttlMs) := by
  intro h
  obtain ⟨m, hm⟩ := run_of_map ops
  have hh : h = ofMap m := hm
  rw [hh]
  exact ⟨m.agree, m.card_by_age, fun nowMs ttlMs cap hash value => get_of_map_prune⟩

end TokenHalves

end TeamClaude
