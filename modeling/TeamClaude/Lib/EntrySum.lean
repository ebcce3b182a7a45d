import TeamClaude.Lib.Retain
import Mathlib.Algebra.Order.BigOperators.Group.List
import Mathlib.Algebra.Order.Ring.Nat

/-!
# Sums over an association list

A weight of each entry, summed, and how it moves when one entry is written or erased.
-/

namespace Lib

variable {α : Type*} {β : α → Type*}

def entrySum (f : Sigma β → Nat) (m : AList β) : Nat :=
  (m.entries.map f).sum

variable {f : Sigma β → Nat} {m : AList β} {k : α}

theorem entrySum_le {g : Sigma β → Nat} (h : ∀ e ∈ m.entries, f e ≤ g e) :
    entrySum f m ≤ entrySum g m :=
  List.sum_le_sum h

theorem entrySum_retain_le (keep : Sigma β → Bool) : entrySum f (retain keep m) ≤ entrySum f m :=
  (List.filter_sublist.map _).sum_le_sum fun _ _ => Nat.zero_le _

/-- Dropping entries of no weight drops no weight. -/
theorem entrySum_retain_eq {keep : Sigma β → Bool} (h : ∀ e, keep e = false → f e = 0) :
    entrySum f (retain keep m) = entrySum f m := by
  unfold entrySum retain
  simp only
  generalize m.entries = es
  induction es with
  | nil => rfl
  | cons e es ih =>
    rw [List.filter_cons]
    split
    · rw [List.map_cons, List.sum_cons, List.map_cons, List.sum_cons, ih]
    · rename_i hk
      rw [List.map_cons, List.sum_cons, ih, h e (by simpa using hk), Nat.zero_add]

theorem entrySum_mapVals (g : ∀ a, β a → β a) :
    entrySum f (mapVals g m) = entrySum (fun e => f ⟨e.1, g e.1 e.2⟩) m := by
  unfold entrySum mapVals
  simp only
  rw [List.map_map]
  rfl

variable [DecidableEq α]

theorem sum_kerase_of_lookup {l : List (Sigma β)} {b : β k} (h : l.dlookup k = some b) :
    ((l.kerase k).map f).sum + f ⟨k, b⟩ = (l.map f).sum := by
  induction l with
  | nil => cases h
  | cons e es ih =>
    obtain ⟨a, c⟩ := e
    by_cases hk : k = a
    · subst hk
      rw [List.dlookup_cons_eq, Option.some.injEq] at h
      subst h
      have htail : List.kerase k (⟨k, c⟩ :: es) = es := List.kerase_cons_eq rfl
      rw [htail, List.map_cons, List.sum_cons, Nat.add_comm]
    · rw [List.dlookup_cons_ne _ _ hk] at h
      have htail : List.kerase k (⟨a, c⟩ :: es) = ⟨a, c⟩ :: List.kerase k es :=
        List.kerase_cons_ne hk
      rw [htail, List.map_cons, List.sum_cons, List.map_cons, List.sum_cons, Nat.add_assoc, ih h]

theorem entrySum_erase {b : β k} (h : m.lookup k = some b) :
    entrySum f (m.erase k) + f ⟨k, b⟩ = entrySum f m :=
  sum_kerase_of_lookup h

theorem entrySum_erase_none (h : m.lookup k = none) : entrySum f (m.erase k) = entrySum f m := by
  have hk : k ∉ m.entries.keys := fun hin => AList.lookup_eq_none.mp h (AList.mem_keys.mpr hin)
  have herase : (m.erase k).entries = m.entries := List.kerase_of_notMem_keys hk
  rw [entrySum, herase, entrySum]

theorem entrySum_insert (b : β k) :
    entrySum f (m.insert k b) = f ⟨k, b⟩ + entrySum f (m.erase k) := by
  have hentries : (m.insert k b).entries = ⟨k, b⟩ :: (m.erase k).entries := AList.entries_insert
  rw [entrySum, hentries, List.map_cons, List.sum_cons, entrySum]

theorem lookup_mapVals (g : ∀ a, β a → β a) (m : AList β) (k : α) :
    (mapVals g m).lookup k = (m.lookup k).map (g k) := by
  unfold mapVals AList.lookup
  simp only
  generalize m.entries = es
  induction es with
  | nil => rfl
  | cons e es ih =>
    obtain ⟨a, c⟩ := e
    rw [List.map_cons]
    by_cases hk : k = a
    · subst hk
      rw [List.dlookup_cons_eq, List.dlookup_cons_eq, Option.map_some]
    · rw [List.dlookup_cons_ne _ _ hk, List.dlookup_cons_ne _ _ hk, ih]

end Lib
