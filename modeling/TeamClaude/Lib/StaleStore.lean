import Mathlib.Data.Set.Basic
import Mathlib.Logic.Function.Basic

/-!
# A shared store rewritten from snapshots

Processes share a keyed store. A write changes one key; a process that has loaded the store may drop
keys from its copy and write the whole copy back, keeping what the store holds under the keys it
finds there. The copy may be arbitrarily old, and what goes wrong with an old copy is said exactly:
it lacks a key that joined the store since, or it brings back a key with a value that was
overwritten.
-/

namespace Lib.StaleStore

/-- A way of writing: what a write makes of the value before it, and what it says of a value. -/
structure Writing (V W : Type*) where
  onto : W → Option V → V
  Kept : W → V → Prop
  kept_onto : ∀ w v, Kept w (onto w v)

/-- What a process loaded, and its copy of it after its edits. -/
structure Snapshot (K V : Type*) where
  loaded : Set K
  rows : K → Option V

variable {K V W : Type*} (m : Writing V W)

/-- The store after a write under `k`. -/
def put [DecidableEq K] (file : K → Option V) (k : K) (w : W) : K → Option V :=
  Function.update file k (some (m.onto w (file k)))

def writeBack (file : K → Option V) (snapshot : Snapshot K V) : K → Option V :=
  fun k => (snapshot.rows k).map fun v => (file k).getD v

/-- Every value says what the last write of its key said. -/
def Current (file : K → Option V) (written : K → Option W) : Prop :=
  ∀ k v w, file k = some v → written k = some w → m.Kept w v

/-- A copy holds only what was loaded. -/
def Snapshot.Within (snapshot : Snapshot K V) : Prop :=
  ∀ k, snapshot.rows k ≠ none → k ∈ snapshot.loaded

/-- The copy is not too old to be written back: it was loaded with every key the store has, and
its value under a key that has left the store is the last one written. -/
structure Fresh (file : K → Option V) (written : K → Option W) (snapshot : Snapshot K V) :
    Prop where
  loaded : ∀ k, file k ≠ none → k ∈ snapshot.loaded
  gone : ∀ k v w, snapshot.rows k = some v → file k = none → written k = some w → m.Kept w v

/-- No key leaves the store that the copy was not loaded with. -/
def Stays (file file' : K → Option V) (snapshot : Snapshot K V) : Prop :=
  ∀ k, file k ≠ none → file' k = none → k ∈ snapshot.loaded

section

variable {m} {file : K → Option V} {written : K → Option W} {snapshot : Snapshot K V}

theorem current_put [DecidableEq K] (h : Current m file written) (k : K) (w : W) :
    Current m (put m file k w) (Function.update written k (some w)) := by
  intro k' v w' hv hw
  unfold put at hv
  by_cases hk : k' = k
  · subst hk
    rw [Function.update_self] at hv hw
    cases hv
    cases hw
    exact m.kept_onto _ _
  · rw [Function.update_of_ne hk] at hv hw
    exact h k' v w' hv hw

theorem put_ne_none [DecidableEq K] {k k' : K} {w : W} (h : file k' ≠ none) :
    put m file k w k' ≠ none := by
  unfold put
  by_cases hk : k' = k
  · subst hk
    rw [Function.update_self]
    nofun
  · rw [Function.update_of_ne hk]
    exact h

/-- Writing a copy back keeps the store current and its keys exactly when the copy is fresh. -/
theorem write_back_iff (h : Current m file written) (hwithin : snapshot.Within) :
    Current m (writeBack file snapshot) written ∧ Stays file (writeBack file snapshot) snapshot ↔
      Fresh m file written snapshot := by
  constructor
  · rintro ⟨hcurrent, hstays⟩
    refine ⟨fun k hk => ?_, fun k v w hrow hfile hw => hcurrent k v w ?_ hw⟩
    · by_cases hrow : snapshot.rows k = none
      · exact hstays k hk (by rw [writeBack, hrow]; rfl)
      · exact hwithin k hrow
    · rw [writeBack, hrow, hfile]
      rfl
  · intro hfresh
    refine ⟨fun k v w hv hw => ?_, fun k hk _ => hfresh.loaded k hk⟩
    obtain ⟨row, hrow, hv⟩ := Option.map_eq_some_iff.mp hv
    cases hfile : file k with
    | none =>
      rw [hfile] at hv
      cases hv
      exact hfresh.gone k row w hrow hfile hw
    | some old =>
      rw [hfile] at hv
      cases hv
      exact h k old w hfile hw

end

end Lib.StaleStore
