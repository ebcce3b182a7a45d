import TeamClaude.Lib.Exec
import Mathlib.Data.Finset.Card
import Mathlib.Data.List.Nodup

/-!
# Newest-first histories

A history lists distinct keys, the one touched last first. A bounded history drops the oldest keys
after every step; it stays a prefix of the history that is not bounded.
-/

namespace Lib.Recency

/-- What can happen to a history. -/
inductive Op (κ : Type*)
  | touch (key : κ)
  | forget (key : κ)
  | keepOnly (keep : κ → Bool)
  | clear

variable {κ : Type*} [DecidableEq κ]

def forget (key : κ) (history : List κ) : List κ :=
  history.filter fun k => decide (k ≠ key)

def touch (key : κ) (history : List κ) : List κ :=
  key :: forget key history

def step (history : List κ) : Op κ → List κ
  | .touch key => touch key history
  | .forget key => forget key history
  | .keepOnly keep => history.filter keep
  | .clear => []

/-- A step of a history that holds at most `bound` keys. -/
def boundedStep (bound : Nat) (held : List κ) (op : Op κ) : List κ :=
  (step held op).take bound

variable {held history : List κ} {key : κ} {bound : Nat}

@[simp] theorem mem_forget {k : κ} : k ∈ forget key history ↔ k ∈ history ∧ k ≠ key := by
  simp [forget]

@[simp] theorem mem_touch {k : κ} : k ∈ touch key history ↔ k = key ∨ k ∈ history := by
  rw [touch, List.mem_cons, mem_forget]
  tauto

theorem touch_nodup (h : history.Nodup) : (touch key history).Nodup :=
  List.nodup_cons.mpr ⟨by simp, h.filter _⟩

/-- Forgetting the oldest key leaves the others. -/
theorem forget_last {newer : List κ} {last : κ} (h : (newer ++ [last]).Nodup) :
    forget last (newer ++ [last]) = newer := by
  have hout : last ∉ newer := fun hin =>
    (List.nodup_append.mp h).2.2 last hin last (List.mem_singleton_self last) rfl
  have hkept : newer.filter (fun k => decide (k ≠ last)) = newer := by
    refine List.filter_eq_self.mpr fun k hk => decide_eq_true ?_
    rintro rfl
    exact hout hk
  rw [forget, List.filter_append, hkept]
  simp

theorem touch_initial (h : held <+: history) : touch key held <+: touch key history :=
  List.prefix_cons_iff.mpr (.inr ⟨_, rfl, h.filter _⟩)

theorem step_initial (h : held <+: history) (op : Op κ) : step held op <+: step history op := by
  cases op with
  | touch key => exact touch_initial h
  | forget key => exact h.filter _
  | keepOnly keep => exact h.filter _
  | clear => exact List.prefix_rfl

theorem bounded_step_length (held : List κ) (op : Op κ) :
    (boundedStep bound held op).length ≤ bound :=
  List.length_take_le bound _

theorem bounded_run_length (ops : List (Op κ)) :
    (exec (boundedStep bound) [] ops).length ≤ bound := by
  induction ops using List.reverseRecOn with
  | nil => exact Nat.zero_le _
  | append_singleton ops op ih =>
    rw [exec_snoc]
    exact bounded_step_length _ op

/-- What a bounded history holds is the newest part of the whole history. -/
theorem bounded_run_initial (ops : List (Op κ)) :
    exec (boundedStep bound) [] ops <+: exec step [] ops := by
  induction ops using List.reverseRecOn with
  | nil => exact List.prefix_rfl
  | append_singleton ops op ih =>
    rw [exec_snoc, exec_snoc]
    exact (List.take_prefix bound _).trans (step_initial ih op)

/-- A touch leaves of the history as many of the newest keys as there were with the touched one, up
to the bound. -/
theorem bounded_touch (hinitial : held <+: history) (hnodup : held.Nodup) :
    boundedStep bound held (.touch key) =
      (touch key history).take (min bound (insert key held.toFinset).card) := by
  have hcard : (insert key held.toFinset).card = (touch key held).length := by
    rw [← List.toFinset_card_of_nodup (touch_nodup hnodup)]
    congr 1
    ext k
    simp
  have htake : touch key held = (touch key history).take (touch key held).length :=
    List.prefix_iff_eq_take.mp (touch_initial hinitial)
  rw [hcard, boundedStep, step, ← List.take_take, ← htake]

end Lib.Recency
