import Mathlib.Algebra.GroupWithZero.Nat
import Mathlib.Data.List.Infix
import Mathlib.Logic.Function.Iterate

/-!
# Runs of a labelled system

A system takes one step for each label of a list. An invariant is shown once for a step and then
holds at every prefix of a run; an observation of a step that follows from the invariant holds of
every step of the run.
-/

namespace Lib

variable {σ ℓ : Type*}

/-- The state after the labels `ls`, taken in order. -/
def exec (step : σ → ℓ → σ) (s : σ) (ls : List ℓ) : σ :=
  ls.foldl step s

@[simp] theorem exec_nil (step : σ → ℓ → σ) (s : σ) : exec step s [] = s := rfl

@[simp] theorem exec_cons (step : σ → ℓ → σ) (s : σ) (l : ℓ) (ls : List ℓ) :
    exec step s (l :: ls) = exec step (step s l) ls := rfl

theorem exec_snoc (step : σ → ℓ → σ) (s : σ) (ls : List ℓ) (l : ℓ) :
    exec step s (ls ++ [l]) = step (exec step s ls) l := by
  simp [exec]

theorem exec_append (step : σ → ℓ → σ) (s : σ) (ls ms : List ℓ) :
    exec step s (ls ++ ms) = exec step (exec step s ls) ms :=
  List.foldl_append

/-- Every step of the run `ls` from `s` satisfies `P`, which sees the state the step starts in. -/
def EachStep (step : σ → ℓ → σ) (P : σ → ℓ → Prop) (s : σ) (ls : List ℓ) : Prop :=
  ∀ pre l, pre ++ [l] <+: ls → P (exec step s pre) l

section EachStep

variable {step : σ → ℓ → σ} {P Q : σ → ℓ → Prop} {s : σ}

theorem each_step_cons {l : ℓ} {ls : List ℓ} :
    EachStep step P s (l :: ls) ↔ P s l ∧ EachStep step P (step s l) ls := by
  constructor
  · intro h
    refine ⟨h [] l (by simp), fun pre l' hl => ?_⟩
    have := h (l :: pre) l' (by simpa using hl)
    simpa using this
  · rintro ⟨h0, h⟩ pre l' hl
    cases pre with
    | nil =>
      have : l' = l := by simpa using hl
      subst this
      exact h0
    | cons x pre =>
      obtain ⟨rfl, htail⟩ : x = l ∧ pre ++ [l'] <+: ls := by simpa using hl
      simpa using h pre l' htail

theorem each_step_nil : EachStep step P s [] := by
  intro pre l hl
  simp at hl

theorem each_step_append {ls ms : List ℓ} : EachStep step P s (ls ++ ms) ↔
    EachStep step P s ls ∧ EachStep step P (exec step s ls) ms := by
  induction ls generalizing s with
  | nil => simp [each_step_nil]
  | cons l ls ih => rw [List.cons_append, each_step_cons, each_step_cons, ih, exec_cons, and_assoc]

/-- A run whose steps all satisfy `A` keeps what every such step keeps. -/
theorem exec_invariant {I : σ → Prop} {A : σ → ℓ → Prop}
    (keep : ∀ s l, I s → A s l → I (step s l)) {ls : List ℓ} (h0 : I s)
    (hok : EachStep step A s ls) : ∀ pre, pre <+: ls → I (exec step s pre) := by
  intro pre
  induction pre using List.reverseRecOn with
  | nil => intro _; exact h0
  | append_singleton pre l ih =>
    intro hl
    rw [exec_snoc]
    exact keep _ _ (ih ((List.prefix_append pre [l]).trans hl)) (hok pre l hl)

/-- What the invariant and the step's condition give of one step holds of every step. -/
theorem each_step_of_invariant {I : σ → Prop} {A : σ → ℓ → Prop}
    (keep : ∀ s l, I s → A s l → I (step s l)) (obs : ∀ s l, I s → A s l → P s l) {ls : List ℓ}
    (h0 : I s) (hok : EachStep step A s ls) : EachStep step P s ls := by
  intro pre l hl
  have hI : I (exec step s pre) :=
    exec_invariant keep h0 hok pre ((List.prefix_append pre [l]).trans hl)
  exact obs _ _ hI (hok pre l hl)

/-- What no step of a run changes is at the end what it was at the start. -/
theorem exec_unchanged {α : Type*} {f : σ → α} {ls : List ℓ}
    (h : EachStep step (fun s l => f (step s l) = f s) s ls) : f (exec step s ls) = f s := by
  induction ls generalizing s with
  | nil => rfl
  | cons l ls ih =>
    obtain ⟨hl, hls⟩ := each_step_cons.mp h
    rw [exec_cons, ih hls, hl]

/-- Two conditions that agree wherever the invariant holds agree on every run, when either of them
keeps the invariant. -/
theorem each_step_congr {I : σ → Prop} {L : ℓ → Prop} (heq : ∀ s l, I s → L l → (P s l ↔ Q s l))
    (keep : ∀ s l, I s → L l → P s l → I (step s l)) {ls : List ℓ} (h0 : I s)
    (hls : ∀ l ∈ ls, L l) : EachStep step P s ls ↔ EachStep step Q s ls := by
  induction ls generalizing s with
  | nil => exact ⟨fun _ => each_step_nil, fun _ => each_step_nil⟩
  | cons l ls ih =>
    have hl := hls l List.mem_cons_self
    have hrest : ∀ l ∈ ls, L l := fun l hl => hls l (List.mem_cons_of_mem _ hl)
    rw [each_step_cons, each_step_cons, ← heq s l h0 hl]
    exact and_congr_right fun hp => ih (keep s l h0 hl hp) hrest

/-- What holds at the end of a run held from its start, or a step of the run brought it and it held
from there on. -/
theorem exec_since {p : σ → Prop} {ls : List ℓ} (h : p (exec step s ls)) :
    (∀ pre, pre <+: ls → p (exec step s pre)) ∨
      ∃ before l after, ls = before ++ l :: after ∧ ¬ p (exec step s before) ∧
        ∀ pre, pre <+: after → p (exec step (exec step s (before ++ [l])) pre) := by
  induction ls using List.reverseRecOn with
  | nil =>
    refine .inl fun pre hpre => ?_
    rw [List.prefix_nil.mp hpre]
    exact h
  | append_singleton ls l ih =>
    by_cases hbefore : p (exec step s ls)
    · rcases ih hbefore with hall | ⟨before, first, after, rfl, hnot, hsince⟩
      · refine .inl fun pre hpre => ?_
        rcases List.prefix_concat_iff.mp hpre with rfl | hpre
        · exact h
        · exact hall pre hpre
      · refine .inr ⟨before, first, after ++ [l], by simp, hnot, fun pre hpre => ?_⟩
        rcases List.prefix_concat_iff.mp hpre with rfl | hpre
        · rw [← exec_append]
          simpa using h
        · exact hsince pre hpre
    · refine .inr ⟨ls, l, [], rfl, hbefore, fun pre hpre => ?_⟩
      rw [List.prefix_nil.mp hpre]
      exact h

theorem EachStep.mono {ls : List ℓ} (h : EachStep step P s ls) (hpq : ∀ s l, P s l → Q s l) :
    EachStep step Q s ls :=
  fun pre l hl => hpq _ _ (h pre l hl)

end EachStep

/-! ## What a run shows -/

/-- What the steps of a run show, in order; a step may show nothing. -/
def observed {β : Type*} (step : σ → ℓ → σ) (obs : σ → ℓ → Option β) : σ → List ℓ → List β
  | _, [] => []
  | s, l :: ls => (obs s l).toList ++ observed step obs (step s l) ls

section Observed

variable {β γ : Type*} {step : σ → ℓ → σ} {obs : σ → ℓ → Option β} {obs' : σ → ℓ → Option γ}
  {I : σ → Prop} {L : ℓ → Prop} {s : σ} {ls : List ℓ}

/-- An observation that follows from another at every step follows from it over the run. -/
theorem observed_bind {g : β → Option γ} (heq : ∀ s l, I s → L l → obs' s l = (obs s l).bind g)
    (keep : ∀ s l, I s → L l → I (step s l)) (h0 : I s) (hls : ∀ l ∈ ls, L l) :
    observed step obs' s ls = (observed step obs s ls).filterMap g := by
  induction ls generalizing s with
  | nil => rfl
  | cons l ls ih =>
    obtain ⟨hl, hrest⟩ := List.forall_mem_cons.mp hls
    rw [observed, observed, List.filterMap_append, ih (keep s l h0 hl) hrest, heq s l h0 hl]
    cases obs s l with
    | none => rfl
    | some b =>
      cases hg : g b with
      | none => simp [hg]
      | some c => simp [hg]

/-- Two observations and a stock that balance at every step balance over the run. -/
theorem observed_balance {stock : σ → Nat}
    (hstep : ∀ s l, I s → L l → (obs s l).toList.length + stock s =
      (obs' s l).toList.length + stock (step s l))
    (keep : ∀ s l, I s → L l → I (step s l)) (h0 : I s) (hls : ∀ l ∈ ls, L l) :
    (observed step obs s ls).length + stock s =
      (observed step obs' s ls).length + stock (exec step s ls) := by
  induction ls generalizing s with
  | nil => rfl
  | cons l ls ih =>
    obtain ⟨hl, hrest⟩ := List.forall_mem_cons.mp hls
    have hone := hstep s l h0 hl
    have hall := ih (keep s l h0 hl) hrest
    rw [observed, observed, List.length_append, List.length_append, exec_cons]
    omega

/-- What every observed step maps and every other step leaves is mapped once for each. -/
theorem observed_iterate {α : Type*} (f : σ → α) (g : α → α)
    (hstep : ∀ s l, I s → L l → f (step s l) = g^[(obs s l).toList.length] (f s))
    (keep : ∀ s l, I s → L l → I (step s l)) (h0 : I s) (hls : ∀ l ∈ ls, L l) :
    f (exec step s ls) = g^[(observed step obs s ls).length] (f s) := by
  induction ls generalizing s with
  | nil => rfl
  | cons l ls ih =>
    obtain ⟨hl, hrest⟩ := List.forall_mem_cons.mp hls
    rw [exec_cons, ih (keep s l h0 hl) hrest, hstep s l h0 hl, observed, List.length_append,
      Nat.add_comm, Function.iterate_add_apply]

/-- A part of the state that every step moves by what it shows is moved over the run by what the run
shows. -/
theorem observed_part {α : Type*} {f : σ → α} {move : α → β → α}
    (hstep : ∀ s l, f (step s l) = (obs s l).elim (f s) (move (f s))) (s : σ) (ls : List ℓ) :
    f (exec step s ls) = exec move (f s) (observed step obs s ls) := by
  induction ls generalizing s with
  | nil => rfl
  | cons l ls ih =>
    rw [exec_cons, ih, hstep, observed, exec_append]
    cases obs s l with
    | none => rfl
    | some shown => rfl

/-- What holds of whatever one step shows holds of all a run shows. -/
theorem observed_forall {p : β → Prop} (h : ∀ s l b, obs s l = some b → p b) (s : σ) (ls : List ℓ) :
    ∀ b ∈ observed step obs s ls, p b := by
  induction ls generalizing s with
  | nil => exact fun b hb => absurd hb List.not_mem_nil
  | cons l ls ih =>
    intro b hb
    rcases List.mem_append.mp hb with hb | hb
    · exact h s l b (Option.mem_toList.mp hb)
    · exact ih (step s l) b hb

/-- An invariant of a state and of all that was shown on the way to it. -/
theorem observed_invariant {I : List β → σ → Prop}
    (hstep : ∀ shown s l, I shown s → I (shown ++ (obs s l).toList) (step s l))
    {shown : List β} (h0 : I shown s) (ls : List ℓ) :
    I (shown ++ observed step obs s ls) (exec step s ls) := by
  induction ls generalizing s shown with
  | nil => rwa [observed, List.append_nil]
  | cons l ls ih =>
    rw [observed, ← List.append_assoc]
    exact ih (hstep shown s l h0)

/-- A stock that pays for what a step shows, out of what the step brings, pays for the run. -/
theorem observed_paid (stock : σ → Nat) (cost : β → Nat) (worth : γ → Nat)
    (hstep : ∀ s l, ((obs s l).toList.map cost).sum + stock (step s l) ≤
      stock s + ((obs' s l).toList.map worth).sum) (s : σ) (ls : List ℓ) :
    ((observed step obs s ls).map cost).sum + stock (exec step s ls) ≤
      stock s + ((observed step obs' s ls).map worth).sum := by
  induction ls generalizing s with
  | nil =>
    show 0 + stock s ≤ stock s + 0
    omega
  | cons l ls ih =>
    have hone := hstep s l
    have hall := ih (step s l)
    rw [observed, observed, List.map_append, List.map_append, List.sum_append, List.sum_append,
      exec_cons]
    omega

/-- A queue whose every step hands out from its front what came in at its back hands out over the run
what came in, in its order; it may lose some on the way. -/
theorem observed_sublist (queue : σ → List γ) (f : β → γ)
    (hstep : ∀ s l, ((obs s l).toList.map f ++ queue (step s l)).Sublist
      (queue s ++ (obs' s l).toList)) (s : σ) (ls : List ℓ) :
    ((observed step obs s ls).map f ++ queue (exec step s ls)).Sublist
      (queue s ++ observed step obs' s ls) := by
  induction ls generalizing s with
  | nil => simp [observed]
  | cons l ls ih =>
    have hone := (hstep s l).append (List.Sublist.refl (observed step obs' (step s l) ls))
    have hall := (List.Sublist.refl ((obs s l).toList.map f)).append (ih (step s l))
    rw [observed, observed, List.map_append, exec_cons]
    simp only [List.append_assoc] at hone hall ⊢
    exact hall.trans hone

end Observed

end Lib
