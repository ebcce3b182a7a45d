import TeamClaude.Lib.JsonText.Syntax

/-!
# Windows

The first place a run of bytes stands in a text.
-/

namespace Lib.JsonText

/-- The offset of the first window that is the pattern. -/
def findWindow (w : Bytes) : Bytes → Option Nat
  | [] => if w.isEmpty then some 0 else none
  | b :: t => if w.isPrefixOf (b :: t) then some 0 else (findWindow w t).map (· + 1)

/-- The pattern stands where it is found. -/
theorem find_window_split {w t : Bytes} {p : Nat} (h : findWindow w t = some p) :
    ∃ front back, t = front ++ (w ++ back) ∧ front.length = p := by
  induction t generalizing p with
  | nil =>
    rw [findWindow] at h
    split at h
    · rename_i hw
      cases h
      exact ⟨[], [], by simp [List.isEmpty_iff.mp hw], rfl⟩
    · cases h
  | cons b t ih =>
    rw [findWindow] at h
    split at h
    · rename_i hw
      cases h
      obtain ⟨back, hback⟩ := List.isPrefixOf_iff_prefix.mp hw
      exact ⟨[], back, hback.symm, rfl⟩
    · obtain ⟨q, hq, rfl⟩ := Option.map_eq_some_iff.mp h
      obtain ⟨front, back, rfl, rfl⟩ := ih hq
      exact ⟨b :: front, back, rfl, rfl⟩

theorem prefix_of_front {w front : Bytes} (h : w.length ≤ front.length) (t t' : Bytes) :
    w.isPrefixOf (front ++ t) = w.isPrefixOf (front ++ t') := by
  have hiff : ∀ t, w.isPrefixOf (front ++ t) = true ↔ w <+: front := by
    intro t
    rw [List.isPrefixOf_iff_prefix]
    constructor
    · exact fun hw => List.prefix_of_prefix_length_le hw (List.prefix_append front t) h
    · exact fun hw => hw.trans (List.prefix_append front t)
  rw [Bool.eq_iff_iff, hiff, hiff]

/-- What is found in the front of a text does not depend on what follows. -/
theorem find_window_front {w front t : Bytes} {p : Nat} (h : findWindow w (front ++ t) = some p)
    (hp : p + w.length ≤ front.length) (t' : Bytes) : findWindow w (front ++ t') = some p := by
  induction front generalizing p with
  | nil =>
    rw [List.length_nil, Nat.le_zero, Nat.add_eq_zero_iff] at hp
    obtain rfl := List.length_eq_zero_iff.mp hp.2
    have hzero : ∀ t, findWindow [] t = some 0 := by
      intro t
      cases t <;> rfl
    rw [hzero] at h ⊢
    exact h
  | cons b front ih =>
    simp only [List.cons_append, findWindow] at h ⊢
    have hsame := @prefix_of_front w (b :: front)
      (Nat.le_trans (Nat.le_add_left _ _) hp) t t'
    rw [List.cons_append, List.cons_append] at hsame
    rw [← hsame]
    split at h
    · rename_i hw
      rw [if_pos hw]
      exact h
    · rename_i hw
      obtain ⟨q, hq, rfl⟩ := Option.map_eq_some_iff.mp h
      rw [if_neg hw, ih hq (by simp only [List.length_cons] at hp; omega)]
      rfl

/-- A pattern that stands in a text is found. -/
theorem find_window_inside {w t : Bytes} (h : w <:+: t) : (findWindow w t).isSome = true := by
  induction t with
  | nil =>
    obtain rfl := List.infix_nil.mp h
    rfl
  | cons b t ih =>
    rw [findWindow]
    rcases List.infix_cons_iff.mp h with h | h
    · rw [if_pos (List.isPrefixOf_iff_prefix.mpr h)]
      rfl
    · split
      · rfl
      · simpa using ih h

end Lib.JsonText
