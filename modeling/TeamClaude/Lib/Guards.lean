import Mathlib.Algebra.GroupWithZero.Nat
import Mathlib.Data.List.Infix
import Mathlib.Logic.Function.Basic

/-!
# Counters of held guards

A task holds at most one guard, and a guard is of a key. A counter is kept for each key: it goes up
where a guard is taken and down where one is dropped. So it is at every moment the number of tasks
that hold a guard of the key, and it is at zero when nobody holds one.
-/

namespace Lib

variable {τ κ : Type*} [DecidableEq κ]

def holding (holds : τ → Option κ) (tasks : List τ) (key : κ) : Nat :=
  tasks.countP fun task => decide (holds task = some key)

/-- The counter of each key is the number of tasks that hold a guard of it. -/
def Counts (count : κ → Nat) (holds : τ → Option κ) (tasks : List τ) : Prop :=
  ∀ key, count key = holding holds tasks key

def takeGuard (count : κ → Nat) (key : κ) : κ → Nat :=
  Function.update count key (count key + 1)

/-- One guard of the key less; a counter stops at zero. -/
def dropGuard (count : κ → Nat) (key : κ) : κ → Nat :=
  Function.update count key (count key - 1)

variable {count : κ → Nat} {holds : τ → Option κ} {tasks : List τ} {key other : κ} {i : Nat}
  {old new : τ}

theorem holding_append (task : τ) : holding holds (tasks ++ [task]) key =
    holding holds tasks key + if holds task = some key then 1 else 0 := by
  rw [holding, List.countP_append, List.countP_singleton]
  simp only [decide_eq_true_eq]
  rfl

theorem holding_set (hold : tasks[i]? = some old) (new : τ) :
    holding holds (tasks.set i new) key + (if holds old = some key then 1 else 0) =
      holding holds tasks key + if holds new = some key then 1 else 0 := by
  obtain ⟨hlt, rfl⟩ := List.getElem?_eq_some_iff.mp hold
  have hset := List.countP_set (p := fun task => decide (holds task = some key)) (a := new) hlt
  simp only [decide_eq_true_eq] at hset
  have hheld : (if holds tasks[i] = some key then 1 else 0) ≤ holding holds tasks key := by
    split
    · rename_i hkey
      exact List.countP_pos_iff.mpr ⟨tasks[i], List.getElem_mem hlt, decide_eq_true hkey⟩
    · exact Nat.zero_le _
  rw [holding, hset]
  unfold holding at hheld ⊢
  omega

theorem counts_nil : Counts (fun _ => 0) holds [] :=
  fun _ => rfl

namespace Counts

/-- A new task that holds nothing. -/
theorem join (h : Counts count holds tasks) (hnew : holds new = none) :
    Counts count holds (tasks ++ [new]) := by
  intro key
  rw [holding_append, hnew, h key, if_neg (Option.some_ne_none key).symm, Nat.add_zero]

theorem enter (h : Counts count holds tasks) (hnew : holds new = some key) :
    Counts (takeGuard count key) holds (tasks ++ [new]) := by
  intro other
  rw [holding_append, hnew, takeGuard]
  by_cases hother : other = key
  · rw [hother, Function.update_self, h key, if_pos rfl]
  · rw [Function.update_of_ne hother, h other, if_neg (fun heq => hother (Option.some.inj heq).symm),
      Nat.add_zero]

theorem keep (h : Counts count holds tasks) (hold : tasks[i]? = some old)
    (hsame : holds new = holds old) : Counts count holds (tasks.set i new) := by
  intro key
  have hset : holding holds (tasks.set i new) key + _ = _ := holding_set hold new
  rw [hsame] at hset
  rw [h key]
  omega

/-- A task that held nothing takes a guard. -/
theorem take (h : Counts count holds tasks) (hold : tasks[i]? = some old) (hnone : holds old = none)
    (hnew : holds new = some key) : Counts (takeGuard count key) holds (tasks.set i new) := by
  intro other
  have hset : holding holds (tasks.set i new) other + _ = _ := holding_set hold new
  rw [hnone, hnew, if_neg (Option.some_ne_none other).symm, ← h other] at hset
  rw [takeGuard]
  by_cases hother : other = key
  · subst hother
    rw [if_pos rfl] at hset
    rw [Function.update_self]
    omega
  · rw [if_neg fun heq => hother (Option.some.inj heq).symm] at hset
    rw [Function.update_of_ne hother]
    omega

theorem drop (h : Counts count holds tasks) (hold : tasks[i]? = some old)
    (hheld : holds old = some key) (hnew : holds new = none) :
    Counts (dropGuard count key) holds (tasks.set i new) := by
  intro other
  have hset : holding holds (tasks.set i new) other + _ = _ := holding_set hold new
  rw [hheld, hnew, if_neg (Option.some_ne_none other).symm, ← h other] at hset
  rw [dropGuard]
  by_cases hother : other = key
  · subst hother
    rw [if_pos rfl] at hset
    rw [Function.update_self]
    omega
  · rw [if_neg fun heq => hother (Option.some.inj heq).symm] at hset
    rw [Function.update_of_ne hother]
    omega

/-- A counter nobody holds a guard of is at zero. -/
theorem idle (h : Counts count holds tasks) (hnone : ∀ task ∈ tasks, holds task ≠ some key) :
    count key = 0 := by
  rw [h key, holding, List.countP_eq_zero]
  intro task htask hheld
  exact hnone task htask (of_decide_eq_true hheld)

end Counts

/-- A guard that is taken below a bound only stays within it. -/
theorem take_guard_le {bound : κ → Nat} (h : ∀ k, count k ≤ bound k) (hroom : count key < bound key) :
    ∀ k, takeGuard count key k ≤ bound k := by
  intro k
  rw [takeGuard]
  by_cases hk : k = key
  · subst hk
    rw [Function.update_self]
    exact hroom
  · rw [Function.update_of_ne hk]
    exact h k

theorem drop_guard_le (count : κ → Nat) (key k : κ) : dropGuard count key k ≤ count k := by
  rw [dropGuard]
  by_cases hk : k = key
  · subst hk
    rw [Function.update_self]
    exact Nat.sub_le _ _
  · rw [Function.update_of_ne hk]

end Lib
