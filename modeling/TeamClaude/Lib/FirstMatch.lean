import Mathlib.Data.List.Basic

/-!
# Editing the first match in place

`updateFirst` rewrites the first element of a list that passes a test, as a mutable search does.
-/

namespace Lib

variable {α β : Type*} {p : α → Bool} {f : α → α}

def updateFirst (p : α → Bool) (f : α → α) : List α → List α
  | [] => []
  | x :: xs => if p x then f x :: xs else x :: updateFirst p f xs

/-- What the edit leaves alone reads the same over the whole list. -/
theorem map_updateFirst {g : α → β} (h : ∀ x, p x = true → g (f x) = g x) (l : List α) :
    (updateFirst p f l).map g = l.map g := by
  induction l with
  | nil => rfl
  | cons x xs ih =>
    simp only [updateFirst]
    split
    · rename_i hx
      rw [List.map_cons, List.map_cons, h x hx]
    · rw [List.map_cons, List.map_cons, ih]

theorem mem_updateFirst {l : List α} {y : α} (h : y ∈ updateFirst p f l) :
    y ∈ l ∨ ∃ x ∈ l, p x = true ∧ y = f x := by
  induction l with
  | nil => cases h
  | cons x xs ih =>
    simp only [updateFirst] at h
    split at h
    · rename_i hx
      rcases List.mem_cons.mp h with rfl | hy
      · exact .inr ⟨x, List.mem_cons_self, hx, rfl⟩
      · exact .inl (List.mem_cons_of_mem x hy)
    · rcases List.mem_cons.mp h with rfl | hy
      · exact .inl List.mem_cons_self
      · rcases ih hy with hin | ⟨z, hz, hpz, rfl⟩
        · exact .inl (List.mem_cons_of_mem x hin)
        · exact .inr ⟨z, List.mem_cons_of_mem x hz, hpz, rfl⟩

/-- Edits whose tests agree and whose results read the same leave lists that read the same. -/
theorem map_updateFirst_congr {p' : α → Bool} {f' : α → α} {g : α → β} {l l' : List α}
    (hmap : l.map g = l'.map g)
    (hp : ∀ x ∈ l, ∀ x' ∈ l', g x = g x' → p x = p' x')
    (hf : ∀ x x', p x = true → p' x' = true → g (f x) = g (f' x')) :
    (updateFirst p f l).map g = (updateFirst p' f' l').map g := by
  induction l generalizing l' with
  | nil =>
    obtain rfl := List.map_eq_nil_iff.mp hmap.symm
    rfl
  | cons x xs ih =>
    obtain ⟨x', xs', rfl, hx, hxs⟩ := List.map_eq_cons_iff.mp hmap.symm
    have hhead : p x = p' x' := hp x List.mem_cons_self x' List.mem_cons_self hx.symm
    have hrest := ih hxs.symm fun y hy y' hy' =>
      hp y (List.mem_cons_of_mem x hy) y' (List.mem_cons_of_mem x' hy')
    simp only [updateFirst]
    by_cases hpx : p x = true
    · have hpx' : p' x' = true := hhead ▸ hpx
      rw [if_pos hpx, if_pos hpx', List.map_cons, List.map_cons, hf x x' hpx hpx', hxs]
    · rw [if_neg hpx, if_neg (hhead ▸ hpx), List.map_cons, List.map_cons, hrest, hx]

/-- The first match is the edited one, if it still passes the test. -/
theorem find?_updateFirst (h : ∀ x, p x = true → p (f x) = true) (l : List α) :
    (updateFirst p f l).find? p = (l.find? p).map f := by
  induction l with
  | nil => rfl
  | cons x xs ih =>
    simp only [updateFirst]
    split
    · rename_i hx
      rw [List.find?_cons_of_pos (h x hx), List.find?_cons_of_pos hx]
      rfl
    · rename_i hx
      rw [List.find?_cons_of_neg hx, List.find?_cons_of_neg hx, ih]

/-- A search that never meets the edited element reads the same. -/
theorem find?_updateFirst_ne {q : α → Bool} (h : ∀ x, p x = true → q x = false ∧ q (f x) = false)
    (l : List α) : (updateFirst p f l).find? q = l.find? q := by
  induction l with
  | nil => rfl
  | cons x xs ih =>
    simp only [updateFirst]
    split
    · rename_i hx
      rw [List.find?_cons_of_neg (by simp [(h x hx).2]),
        List.find?_cons_of_neg (by simp [(h x hx).1])]
    · by_cases hq : q x = true
      · rw [List.find?_cons_of_pos hq, List.find?_cons_of_pos hq]
      · rw [List.find?_cons_of_neg hq, List.find?_cons_of_neg hq, ih]

theorem modify_findIdx (p : α → Bool) (f : α → α) (l : List α) :
    l.modify (l.findIdx p) f = updateFirst p f l := by
  induction l with
  | nil => rfl
  | cons x xs ih =>
    rw [List.findIdx_cons, updateFirst]
    by_cases hx : p x = true
    · simp [hx]
    · simp [hx, ih]

/-- An element the test rejects stays where it is. -/
theorem updateFirst_split {g : α → β} (hg : ∀ x, p x = true → g (f x) = g x) {x : α}
    (hx : p x = false) (older younger : List α) :
    ∃ older' younger', updateFirst p f (older ++ x :: younger) = older' ++ x :: younger' ∧
      older'.map g = older.map g ∧ younger'.map g = younger.map g := by
  induction older with
  | nil =>
    refine ⟨[], updateFirst p f younger, ?_, rfl, map_updateFirst hg younger⟩
    simp [updateFirst, hx]
  | cons y older ih =>
    by_cases hy : p y = true
    · refine ⟨f y :: older, younger, ?_, ?_, rfl⟩
      · simp [updateFirst, hy]
      · rw [List.map_cons, List.map_cons, hg y hy]
    · obtain ⟨older', younger', heq, hold, hyoung⟩ := ih
      refine ⟨y :: older', younger', ?_, ?_, hyoung⟩
      · rw [List.cons_append, updateFirst, if_neg hy, heq]
        rfl
      · rw [List.map_cons, List.map_cons, hold]

/-- The edit reaches the element that only rejected ones precede. -/
theorem updateFirst_self {x : α} (hx : p x = true) {older : List α}
    (h : ∀ y ∈ older, p y = false) (younger : List α) :
    updateFirst p f (older ++ x :: younger) = older ++ f x :: younger := by
  induction older with
  | nil => simp [updateFirst, hx]
  | cons y older ih =>
    rw [List.cons_append, updateFirst, h y List.mem_cons_self, if_neg Bool.false_ne_true,
      ih fun z hz => h z (List.mem_cons_of_mem _ hz), List.cons_append]

end Lib
