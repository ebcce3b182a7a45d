import Mathlib.Data.List.Lex

/-!
# Lists ordered as if padded

Two lists of numbers are compared place by place, the shorter one as if it went on with zeros. How
far both are padded makes no difference, so this is a total preorder on lists of any length.
-/

namespace Lib

variable {α : Type*} [LinearOrder α] (zero : α)

def padTo (width : Nat) (items : List α) : List α :=
  items ++ List.replicate (width - items.length) zero

def PaddedLE (a b : List α) : Prop :=
  padTo zero (max a.length b.length) a ≤ padTo zero (max a.length b.length) b

instance (a b : List α) : Decidable (PaddedLE zero a b) :=
  inferInstanceAs (Decidable (_ ≤ _))

/-- The order of two lists padded to the width of the longer. -/
def comparePadded (a b : List α) : Ordering :=
  if PaddedLE zero a b then if PaddedLE zero b a then .eq else .lt else .gt

variable {zero} {a b c : List α} {width : Nat}

omit [LinearOrder α] in
theorem pad_length (h : a.length ≤ width) : (padTo zero width a).length = width := by
  rw [padTo, List.length_append, List.length_replicate]
  omega

/-- What stands behind two lists of one length does not decide between them, if it is the same. -/
theorem append_le_append_iff (h : a.length = b.length) (c : List α) :
    a ++ c ≤ b ++ c ↔ a ≤ b := by
  induction a generalizing b with
  | nil =>
    obtain rfl : b = [] := List.length_eq_zero_iff.mp h.symm
    exact iff_of_true le_rfl le_rfl
  | cons x a ih =>
    cases b with
    | nil => cases h
    | cons y b =>
      have ih := ih (Nat.succ.inj h)
      rw [← not_lt, ← not_lt, not_iff_not] at ih ⊢
      rw [List.cons_append, List.cons_append, List.cons_lt_cons_iff, List.cons_lt_cons_iff, ih]

/-- Any width that holds both lists compares them alike. -/
theorem padded_le_iff (ha : a.length ≤ width) (hb : b.length ≤ width) :
    PaddedLE zero a b ↔ padTo zero width a ≤ padTo zero width b := by
  have hwiden : ∀ l : List α, l.length ≤ max a.length b.length → padTo zero width l =
      padTo zero (max a.length b.length) l ++
        List.replicate (width - max a.length b.length) zero := by
    intro l hl
    rw [padTo, padTo, List.append_assoc, List.replicate_append_replicate]
    congr 2
    omega
  have hsame : (padTo zero (max a.length b.length) a).length =
      (padTo zero (max a.length b.length) b).length := by
    rw [pad_length (le_max_left _ _), pad_length (le_max_right _ _)]
  rw [hwiden a (le_max_left _ _), hwiden b (le_max_right _ _), append_le_append_iff hsame]
  rfl

theorem padded_le_refl (a : List α) : PaddedLE zero a a :=
  le_rfl

theorem PaddedLE.trans (hab : PaddedLE zero a b) (hbc : PaddedLE zero b c) :
    PaddedLE zero a c := by
  have ha : a.length ≤ max a.length (max b.length c.length) := le_max_left _ _
  have hb : b.length ≤ max a.length (max b.length c.length) := by omega
  have hc : c.length ≤ max a.length (max b.length c.length) := by omega
  rw [padded_le_iff ha hb] at hab
  rw [padded_le_iff hb hc] at hbc
  rw [padded_le_iff ha hc]
  exact hab.trans hbc

theorem padded_le_total (a b : List α) : PaddedLE zero a b ∨ PaddedLE zero b a := by
  unfold PaddedLE
  rw [max_comm b.length a.length]
  exact le_total _ _

theorem compare_padded_lt : comparePadded zero a b = .lt ↔ ¬ PaddedLE zero b a := by
  unfold comparePadded
  split
  · split
    · rename_i hge
      exact iff_of_false nofun (not_not.mpr hge)
    · rename_i hge
      exact iff_of_true rfl hge
  · rename_i hle
    exact iff_of_false nofun (not_not.mpr ((padded_le_total a b).resolve_left hle))

end Lib
