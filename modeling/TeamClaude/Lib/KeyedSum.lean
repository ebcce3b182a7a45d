import Mathlib.Algebra.Order.BigOperators.Group.List
import Mathlib.Data.List.Nodup

/-!
# Sums over rows with distinct keys

`editKey` rewrites the rows of one key. A weight summed over the rows moves by what the one row of
that key gained or lost.
-/

namespace Lib

variable {α κ M : Type*} [DecidableEq κ]

def editKey (key : α → κ) (k : κ) (f : α → α) (l : List α) : List α :=
  l.map fun x => if key x = k then f x else x

variable {key : α → κ} {k : κ} {f : α → α}

theorem mem_editKey {l : List α} {y : α} :
    y ∈ editKey key k f l ↔ ∃ x ∈ l, (if key x = k then f x else x) = y := by
  simp [editKey]

theorem map_key_editKey (h : ∀ x, key (f x) = key x) (l : List α) :
    (editKey key k f l).map key = l.map key := by
  rw [editKey, List.map_map]
  refine List.map_congr_left fun x _ => ?_
  simp only [Function.comp]
  split
  · exact h x
  · rfl

/-- A weight no edit changes keeps its sum. -/
theorem sum_editKey_eq [AddMonoid M] {w : α → M} {l : List α}
    (h : ∀ x ∈ l, key x = k → w (f x) = w x) : ((editKey key k f l).map w).sum = (l.map w).sum := by
  rw [editKey, List.map_map]
  congr 1
  refine List.map_congr_left fun x hx => ?_
  simp only [Function.comp]
  split
  · rename_i hk
    exact h x hx hk
  · rfl

/-- A weight no edit raises sums to no more. -/
theorem sum_editKey_le [AddMonoid M] [Preorder M] [AddLeftMono M] [AddRightMono M] {w : α → M}
    {l : List α} (h : ∀ x ∈ l, key x = k → w (f x) ≤ w x) :
    ((editKey key k f l).map w).sum ≤ (l.map w).sum := by
  rw [editKey, List.map_map]
  refine List.sum_le_sum fun x hx => ?_
  simp only [Function.comp]
  split
  · rename_i hk
    exact h x hx hk
  · exact le_rfl

theorem sum_editKey [AddCommMonoid M] {w : α → M} {l : List α} {x : α} (h : (l.map key).Nodup)
    (hx : x ∈ l) (hk : key x = k) :
    ((editKey key k f l).map w).sum + w x = (l.map w).sum + w (f x) := by
  induction l with
  | nil => cases hx
  | cons y ys ih =>
    rw [List.map_cons, List.nodup_cons] at h
    rcases List.mem_cons.mp hx with rfl | hx
    · have hrest : editKey key k f ys = ys := by
        rw [editKey, List.map_congr_left (g := id), List.map_id]
        intro z hz
        have hne : key z ≠ k := fun he => h.1 (List.mem_map.mpr ⟨z, hz, he.trans hk.symm⟩)
        rw [if_neg hne, id]
      have hcons : editKey key k f (x :: ys) = f x :: editKey key k f ys := by
        simp [editKey, hk]
      rw [hcons, hrest, List.map_cons, List.sum_cons, List.map_cons, List.sum_cons]
      exact (add_right_comm _ _ _).trans (by rw [add_comm (w (f x)), add_right_comm])
    · have hne : key y ≠ k := fun he => h.1 (List.mem_map.mpr ⟨x, hx, hk.trans he.symm⟩)
      have hcons : editKey key k f (y :: ys) = y :: editKey key k f ys := by
        simp [editKey, hne]
      rw [hcons, List.map_cons, List.sum_cons, List.map_cons, List.sum_cons, add_assoc,
        ih h.2 hx, add_assoc]

/-- What a test keeps, a drop of rows that fail it leaves. -/
theorem filter_dropWhile {p q : α → Bool} (h : ∀ x, p x = true → q x = false) (l : List α) :
    (l.dropWhile q).filter p = l.filter p := by
  induction l with
  | nil => rfl
  | cons x xs ih =>
    rw [List.dropWhile_cons]
    split
    · rename_i hq
      have hp : ¬ p x = true := fun hp => by rw [h x hp] at hq; cases hq
      rw [ih, List.filter_cons_of_neg hp]
    · rfl

end Lib
