import Mathlib.Data.Prod.Lex
import Mathlib.Data.List.Induction

/-!
# First-least scan

A loop over an enumerated list that remembers the best index and its key, and replaces them only by
a strictly smaller key. It returns the first index of least key among the admitted elements, and
nothing exactly when no element is admitted.
-/

namespace Lib

variable {α κ : Type*} [LinearOrder κ]

/-- One round of the loop: `acc` is the best index so far with its key. -/
def scanStep (ok : Nat → α → Bool) (key : Nat → α → κ) (acc : Option (Nat × κ)) (x : α × Nat) :
    Option (Nat × κ) :=
  if ok x.2 x.1 then
    match acc with
    | none => some (x.2, key x.2 x.1)
    | some b => if key x.2 x.1 < b.2 then some (x.2, key x.2 x.1) else some b
  else acc

/-- The index the loop ends on. -/
def scanBest (ok : Nat → α → Bool) (key : Nat → α → κ) (xs : List α) : Option Nat :=
  (xs.zipIdx.foldl (scanStep ok key) none).map Prod.fst

/-- `i` is the first admitted index of `xs` whose key is least. -/
structure FirstLeast (ok : Nat → α → Bool) (key : Nat → α → κ) (xs : List α) (i : Nat) (k : κ) :
    Prop where
  admitted : ∃ a, xs[i]? = some a ∧ ok i a = true ∧ key i a = k
  least : ∀ j b, xs[j]? = some b → ok j b = true → k ≤ key j b
  first : ∀ j b, j < i → xs[j]? = some b → ok j b = true → k < key j b

/-- What the loop knows after the elements of `xs`. -/
def ScanInv (ok : Nat → α → Bool) (key : Nat → α → κ) (xs : List α) : Option (Nat × κ) → Prop
  | none => ∀ j b, xs[j]? = some b → ok j b = false
  | some (i, k) => FirstLeast ok key xs i k

theorem getElem?_snoc {xs : List α} {x b : α} {j : Nat} :
    (xs ++ [x])[j]? = some b ↔ xs[j]? = some b ∨ (j = xs.length ∧ x = b) := by
  rcases Nat.lt_trichotomy j xs.length with h | h | h
  · simp [List.getElem?_append_left h, Nat.ne_of_lt h]
  · subst h
    simp
  · have hx : xs[j]? = none := List.getElem?_eq_none (Nat.le_of_lt h)
    have hs : (xs ++ [x])[j]? = none := List.getElem?_eq_none (by simp; omega)
    simp [hx, hs, Nat.ne_of_gt h]

theorem lt_length_of_getElem? {xs : List α} {b : α} {j : Nat} (h : xs[j]? = some b) :
    j < xs.length := by
  obtain ⟨hj, -⟩ := List.getElem?_eq_some_iff.mp h
  exact hj

/-- A refused element leaves the loop's knowledge as it was. -/
theorem scan_inv_skip {ok : Nat → α → Bool} {key : Nat → α → κ} {xs : List α} {x : α}
    {acc : Option (Nat × κ)} (h : ScanInv ok key xs acc) (hx : ok xs.length x = false) :
    ScanInv ok key (xs ++ [x]) acc := by
  have old : ∀ j b, (xs ++ [x])[j]? = some b → ok j b = true → xs[j]? = some b := by
    intro j b hj hb
    rcases getElem?_snoc.mp hj with hj | ⟨rfl, rfl⟩
    · exact hj
    · simp [hx] at hb
  match acc, h with
  | none, h =>
    intro j b hj
    by_contra hb
    have hb : ok j b = true := by simpa using hb
    have := h j b (old j b hj hb)
    simp [hb] at this
  | some (i, k), h =>
    obtain ⟨a, ha, hok, hk⟩ := h.admitted
    exact ⟨⟨a, getElem?_snoc.mpr (Or.inl ha), hok, hk⟩,
      fun j b hj hb => h.least j b (old j b hj hb) hb,
      fun j b hji hj hb => h.first j b hji (old j b hj hb) hb⟩

/-- An admitted element takes over exactly when its key is strictly smaller. -/
theorem scan_inv_take {ok : Nat → α → Bool} {key : Nat → α → κ} {xs : List α} {x : α}
    {acc : Option (Nat × κ)} (h : ScanInv ok key xs acc) (hx : ok xs.length x = true) :
    ScanInv ok key (xs ++ [x]) (scanStep ok key acc (x, xs.length)) := by
  simp only [scanStep, hx, if_true]
  have new : (xs ++ [x])[xs.length]? = some x := getElem?_snoc.mpr (Or.inr ⟨rfl, rfl⟩)
  match acc, h with
  | none, h =>
    refine ⟨⟨x, new, hx, rfl⟩, fun j b hj hb => ?_, fun j b hji hj hb => ?_⟩
    · rcases getElem?_snoc.mp hj with hj | ⟨rfl, rfl⟩
      · simp [h j b hj] at hb
      · exact le_rfl
    · rcases getElem?_snoc.mp hj with hj | ⟨rfl, rfl⟩
      · simp [h j b hj] at hb
      · exact absurd hji (lt_irrefl _)
  | some (i, k), h =>
    obtain ⟨a, ha, hok, hk⟩ := h.admitted
    by_cases hlt : key xs.length x < k
    · simp only [hlt, if_true]
      refine ⟨⟨x, new, hx, rfl⟩, fun j b hj hb => ?_, fun j b hji hj hb => ?_⟩
      · rcases getElem?_snoc.mp hj with hj | ⟨rfl, rfl⟩
        · exact hlt.le.trans (h.least j b hj hb)
        · exact le_rfl
      · rcases getElem?_snoc.mp hj with hj | ⟨rfl, rfl⟩
        · exact hlt.trans_le (h.least j b hj hb)
        · exact absurd hji (lt_irrefl _)
    · simp only [hlt, if_false]
      refine ⟨⟨a, getElem?_snoc.mpr (Or.inl ha), hok, hk⟩, fun j b hj hb => ?_,
        fun j b hji hj hb => ?_⟩
      · rcases getElem?_snoc.mp hj with hj | ⟨rfl, rfl⟩
        · exact h.least j b hj hb
        · exact not_lt.mp hlt
      · rcases getElem?_snoc.mp hj with hj | ⟨rfl, rfl⟩
        · exact h.first j b hji hj hb
        · exact absurd hji (Nat.lt_asymm (lt_length_of_getElem? ha))

theorem scan_inv_fold (ok : Nat → α → Bool) (key : Nat → α → κ) (xs : List α) :
    ScanInv ok key xs (xs.zipIdx.foldl (scanStep ok key) none) := by
  induction xs using List.reverseRecOn with
  | nil => intro j b hj; simp at hj
  | append_singleton xs x ih =>
    rw [List.zipIdx_append, List.foldl_append]
    simp only [List.zipIdx_singleton, List.foldl_cons, List.foldl_nil, Nat.zero_add]
    cases hx : ok xs.length x with
    | false => simpa [scanStep, hx] using scan_inv_skip ih hx
    | true => exact scan_inv_take ih hx

/-- The loop returns the first admitted index of least key. -/
theorem scan_best_some {ok : Nat → α → Bool} {key : Nat → α → κ} {xs : List α} {i : Nat}
    (h : scanBest ok key xs = some i) : ∃ k, FirstLeast ok key xs i k := by
  have inv := scan_inv_fold ok key xs
  simp only [scanBest, Option.map_eq_some_iff] at h
  obtain ⟨⟨i', k⟩, hfold, rfl⟩ := h
  rw [hfold] at inv
  exact ⟨k, inv⟩

/-- The loop comes up empty exactly when it admits nothing. -/
theorem scan_best_none {ok : Nat → α → Bool} {key : Nat → α → κ} {xs : List α} :
    scanBest ok key xs = none ↔ ∀ j b, xs[j]? = some b → ok j b = false := by
  have inv := scan_inv_fold ok key xs
  constructor
  · intro h
    simp only [scanBest, Option.map_eq_none_iff] at h
    rwa [h] at inv
  · intro h
    cases hb : scanBest ok key xs with
    | none => rfl
    | some i =>
      obtain ⟨k, hl⟩ := scan_best_some hb
      obtain ⟨a, ha, hok, -⟩ := hl.admitted
      simp [h i a ha] at hok

theorem scan_best_is_some {ok : Nat → α → Bool} {key : Nat → α → κ} {xs : List α} :
    (scanBest ok key xs).isSome = true ↔ ∃ j b, xs[j]? = some b ∧ ok j b = true := by
  rw [← not_iff_not, Bool.not_eq_true, Option.isSome_eq_false_iff, Option.isNone_iff_eq_none,
    scan_best_none]
  push Not
  simp only [ne_eq, Bool.not_eq_true]

end Lib
