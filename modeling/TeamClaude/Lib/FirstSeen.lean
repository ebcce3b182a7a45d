import Mathlib.Data.List.Basic
import Mathlib.Data.List.Infix
import Mathlib.Data.List.Nodup

/-!
# A table in the order of first sight

An element enters the table when it is first seen and keeps its place from then on, so that the
place of an element seen is the same in every later table.
-/

namespace Lib.FirstSeen

variable {α : Type*} [DecidableEq α]

/-- The table after an element is seen. -/
def enter (table : List α) (a : α) : List α :=
  if a ∈ table then table else table ++ [a]

def enterAll (table l : List α) : List α :=
  l.foldl enter table

variable {table l : List α} {a b : α}

@[simp] theorem enter_all_nil : enterAll table [] = table := rfl

@[simp] theorem enter_all_cons : enterAll table (a :: l) = enterAll (enter table a) l := rfl

theorem enter_of_mem (h : a ∈ table) : enter table a = table := if_pos h

theorem enter_of_not_mem (h : a ∉ table) : enter table a = table ++ [a] := if_neg h

theorem prefix_enter (table : List α) (a : α) : table <+: enter table a := by
  unfold enter
  split
  · exact List.prefix_refl table
  · exact List.prefix_append table [a]

theorem prefix_enter_all (table l : List α) : table <+: enterAll table l := by
  induction l generalizing table with
  | nil => exact List.prefix_refl table
  | cons a l ih => exact (prefix_enter table a).trans (ih (enter table a))

theorem mem_enter : b ∈ enter table a ↔ b ∈ table ∨ b = a := by
  unfold enter
  split
  · rename_i ha
    constructor
    · exact Or.inl
    · rintro (hb | rfl)
      · exact hb
      · exact ha
  · rw [List.mem_append, List.mem_singleton]

theorem mem_enter_all : b ∈ enterAll table l ↔ b ∈ table ∨ b ∈ l := by
  induction l generalizing table with
  | nil => simp
  | cons a l ih => rw [enter_all_cons, ih, mem_enter, List.mem_cons, or_assoc]

theorem nodup_enter (h : table.Nodup) (a : α) : (enter table a).Nodup := by
  unfold enter
  split
  · exact h
  · rename_i ha
    rw [← List.concat_eq_append]
    exact h.concat ha

theorem nodup_enter_all (h : table.Nodup) (l : List α) : (enterAll table l).Nodup := by
  induction l generalizing table with
  | nil => exact h
  | cons a l ih => exact ih (nodup_enter h a)

theorem length_enter_le (table : List α) (a : α) : (enter table a).length ≤ table.length + 1 := by
  unfold enter
  split
  · exact Nat.le_succ _
  · rw [List.length_append, List.length_singleton]

theorem length_enter_all_le (table l : List α) :
    (enterAll table l).length ≤ table.length + l.length := by
  induction l generalizing table with
  | nil => exact le_rfl
  | cons a l ih =>
    have hstep := length_enter_le table a
    have hrest := ih (enter table a)
    rw [enter_all_cons, List.length_cons]
    omega

/-- A place once taken is kept. -/
theorem idx_of_initial {table table' : List α} (h : table <+: table') (ha : a ∈ table) :
    table'.idxOf a = table.idxOf a := by
  obtain ⟨rest, rfl⟩ := h
  exact List.idxOf_append_of_mem ha

theorem idx_of_enter (ha : a ∈ table) (b : α) : (enter table b).idxOf a = table.idxOf a :=
  idx_of_initial (prefix_enter table b) ha

theorem idx_of_enter_self (h : a ∉ table) : (enter table a).idxOf a = table.length := by
  rw [enter_of_not_mem h, List.idxOf_append_of_notMem h, List.idxOf_cons_self, Nat.add_zero]

end Lib.FirstSeen
