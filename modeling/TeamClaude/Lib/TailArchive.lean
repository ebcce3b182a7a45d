import Mathlib.Data.List.Infix

/-!
# A log in two files

An archive and a plain tail hold one log. Where both are there, the tail is a leftover when the
archive ends with it and news otherwise. Folding the tail into the archive never changes what the
two read as; adding to the tail does, but for the conditions stated here.
-/

namespace Lib

variable {α : Type*} [DecidableEq α]

/-- The two files of a log; either may be missing. -/
structure TailArchive (α : Type*) where
  archive : Option (List α)
  tail : Option (List α)

namespace TailArchive

/-- The text of the log. -/
def read (f : TailArchive α) : List α :=
  match f.archive, f.tail with
  | none, none => []
  | some a, none => a
  | none, some t => t
  | some a, some t => if t <:+ a then a else a ++ t

/-- More text at the end of the tail, which is made where it is missing. -/
def add (f : TailArchive α) (l : List α) : TailArchive α :=
  { f with tail := some (f.tail.getD [] ++ l) }

def folded (f : TailArchive α) : List α :=
  f.archive.getD [] ++ f.tail.getD []

/-- The tail holds news and still does once `l` is at its end. -/
def Takes (f : TailArchive α) (l : List α) : Prop :=
  ∀ a ∈ f.archive, (f.tail.getD [] = [] ∨ ¬f.tail.getD [] <:+ a) ∧ ¬f.tail.getD [] ++ l <:+ a

instance {f : TailArchive α} {l : List α} : Decidable (f.Takes l) :=
  inferInstanceAs (Decidable (∀ a ∈ f.archive, _))

/-- A tail the archive ends with may go. -/
theorem read_leftover {a t : List α} (h : t <:+ a) :
    read ⟨some a, none⟩ = read ⟨some a, some t⟩ := by
  simp [read, h]

/-- The archive takes the tail in; the tail is then a leftover. -/
theorem read_folded {f : TailArchive α} {t : List α} (ht : f.tail = some t)
    (h : f.archive.getD [] = [] ∨ ¬t <:+ f.archive.getD []) :
    read ⟨some f.folded, some t⟩ = f.read := by
  obtain ⟨archive, tail⟩ := f
  obtain rfl : tail = some t := ht
  have hsuffix : t <:+ folded ⟨archive, some t⟩ := List.suffix_append _ _
  cases archive with
  | none => simp [read, folded]
  | some a =>
    simp only [Option.getD_some] at h
    simp only [read, if_pos hsuffix]
    simp only [folded, Option.getD_some]
    split
    · rename_i hleft
      rcases h with rfl | h
      · rw [List.suffix_nil.mp hleft, List.append_nil]
      · exact absurd hleft h
    · rfl

/-- An empty tail is no text. -/
theorem read_touch (f : TailArchive α) : read ⟨f.archive, some (f.tail.getD [])⟩ = f.read := by
  obtain ⟨archive, tail⟩ := f
  cases tail with
  | some t => rfl
  | none => cases archive <;> simp [read]

/-- Adding to the tail adds to the log exactly under `Takes`. -/
theorem read_add_iff {f : TailArchive α} {l : List α} (hl : l ≠ []) :
    (f.add l).read = f.read ++ l ↔ f.Takes l := by
  rw [← read_touch f]
  obtain ⟨archive, tail⟩ := f
  simp only [add, Takes]
  generalize tail.getD [] = t
  cases archive with
  | none => simp [read]
  | some a =>
    simp only [read, Option.mem_some_iff, forall_eq']
    by_cases hnew : t ++ l <:+ a
    · simp only [hnew, if_true, not_true, and_false, iff_false]
      have hlong : t.length + l.length ≤ a.length := by simpa using hnew.length_le
      have hpos : 0 < l.length := List.length_pos_iff.mpr hl
      intro heq
      have hlen := congrArg List.length heq
      split at hlen
      · rw [List.length_append] at hlen
        omega
      · rw [List.length_append, List.length_append] at hlen
        omega
    · simp only [hnew, if_false, not_false_iff, and_true]
      by_cases hold : t <:+ a
      · simp only [hold, if_true, not_true, or_false]
        constructor
        · intro heq
          rw [← List.append_assoc, List.append_cancel_right_eq] at heq
          simpa using heq
        · rintro rfl
          simp
      · simp [hold]

end TailArchive

end Lib
