import TeamClaude.Lib.Exec
import Mathlib.Data.List.Perm.Subperm
import Mathlib.Tactic.Linarith

/-!
# A race of dials

Candidates are tried one after another, each a while after the one before, without waiting for an
answer. The first answer wins and drops the attempts still running; a refusal is noted. The race may
be cut short, and then nothing is noted of any candidate.
-/

namespace TeamClaude

open Lib

inductive RaceEnd (C : Type*)
  | won (candidate : C)
  | lost
  | timedOut
  deriving DecidableEq

/-- The state of `race_candidates`, with the instants its attempts were started at. An attempt that
won stays among the running. -/
structure DialRace (C : Type*) where
  queued : List C
  running : List C
  failed : List C
  nextStart : Option Nat
  started : List (C × Nat)
  ending : Option (RaceEnd C)
  clock : Nat

/-- What the loop waits for, and the bound `run_direct_race` sets it. -/
inductive RaceAct (C : Type*)
  | answer (candidate : C) (reached : Bool)
  | start
  | timeout
  | tick (ms : Nat)
  deriving DecidableEq

structure RaceOutcome (C : Type*) where
  won : Option C
  failed : List C
  deriving DecidableEq

namespace DialRace

variable {C : Type*} [DecidableEq C]

/-- The first candidate is tried at once. -/
def new (candidates : List C) (stagger : Nat) : DialRace C :=
  match candidates with
  | [] =>
    { queued := [], running := [], failed := [], nextStart := none, started := []
      ending := some .lost, clock := 0 }
  | first :: queued =>
    { queued, running := [first], failed := []
      nextStart := if queued = [] then none else some stagger
      started := [(first, 0)], ending := none, clock := 0 }

/-- A running attempt is through. -/
def answer (s : DialRace C) (candidate : C) (reached : Bool) : DialRace C :=
  if candidate ∈ s.running then
    if reached then { s with ending := some (.won candidate) }
    else
      { s with
        running := s.running.erase candidate
        failed := s.failed ++ [candidate]
        ending :=
          if s.running.erase candidate = [] ∧ s.nextStart = none then some .lost else none }
  else s

/-- The sleep before the next attempt is over. -/
def start (stagger : Nat) (s : DialRace C) : DialRace C :=
  match s.nextStart, s.queued with
  | some due, next :: queued =>
    if due ≤ s.clock then
      { s with
        queued
        running := s.running ++ [next]
        nextStart := if queued = [] then none else some (s.clock + stagger)
        started := s.started ++ [(next, s.clock)] }
    else s
  | _, _ => s

def step (stagger : Nat) (s : DialRace C) (act : RaceAct C) : DialRace C :=
  match s.ending with
  | some _ => s
  | none =>
    match act with
    | .answer candidate reached => s.answer candidate reached
    | .start => s.start stagger
    | .timeout => { s with ending := some .timedOut }
    | .tick ms => { s with clock := s.clock + ms }

/-- `run_direct_race`: a race cut short says nothing. -/
def outcome (s : DialRace C) : RaceOutcome C :=
  match s.ending with
  | some (.won candidate) => { won := some candidate, failed := s.failed }
  | some .lost => { won := none, failed := s.failed }
  | _ => { won := none, failed := [] }

def race (candidates : List C) (stagger : Nat) (acts : List (RaceAct C)) : DialRace C :=
  exec (step stagger) (new candidates stagger) acts

/-! ## What every race keeps -/

section Sound

variable {s : DialRace C} {candidates : List C} {stagger : Nat}

/-- Every candidate is queued, running or refused, and was started in its turn. -/
structure Sound (candidates : List C) (stagger : Nat) (s : DialRace C) : Prop where
  split : s.started.map Prod.fst ++ s.queued = candidates
  held : (s.failed ++ s.running).Perm (s.started.map Prod.fst)
  timer : s.nextStart = none ↔ s.queued = []
  paced : ∀ i c at_, s.started[i]? = some (c, at_) → i * stagger ≤ at_
  due : ∀ due, s.nextStart = some due → s.started.length * stagger ≤ due
  going : s.ending = none → s.running ≠ [] ∨ s.queued ≠ []
  won : ∀ c, s.ending = some (.won c) → c ∈ s.running
  lost : s.ending = some .lost → s.running = [] ∧ s.queued = []

omit [DecidableEq C] in
theorem sound_new (candidates : List C) (stagger : Nat) :
    Sound candidates stagger (new candidates stagger) := by
  cases candidates with
  | nil =>
    exact ⟨rfl, .refl _, by simp [new], by simp [new], by simp [new], by simp [new], by simp [new],
      fun _ => ⟨rfl, rfl⟩⟩
  | cons first queued =>
    refine ⟨rfl, .refl _, ?_, ?_, ?_, fun _ => .inl (List.cons_ne_nil _ _), ?_, ?_⟩
    · by_cases hq : queued = [] <;> simp [new, hq]
    · intro i c at_ hi
      cases i with
      | zero => simp
      | succ i => simp [new] at hi
    · intro due hdue
      by_cases hq : queued = []
      · simp [new, hq] at hdue
      · simp [new, hq] at hdue
        simp [new, hdue]
    · simp [new]
    · simp [new]

theorem Sound.answer (h : Sound candidates stagger s) (candidate : C) (reached : Bool) :
    Sound candidates stagger (s.answer candidate reached) := by
  unfold DialRace.answer
  split
  · rename_i hin
    split
    · refine ⟨h.split, h.held, h.timer, h.paced, h.due, by simp, ?_, by simp⟩
      rintro c hc
      cases hc
      exact hin
    · refine ⟨h.split, ?_, h.timer, h.paced, h.due, ?_, ?_, ?_⟩
      · have hback := List.perm_cons_erase hin
        have hone : (s.failed ++ [candidate] ++ s.running.erase candidate).Perm
            (s.failed ++ s.running) := by
          rw [List.append_assoc]
          exact hback.symm.append_left s.failed
        exact hone.trans h.held
      · intro hnone
        dsimp only at hnone ⊢
        split at hnone
        · cases hnone
        · rename_i hmore
          by_cases hrun : s.running.erase candidate = []
          · exact .inr fun hq => hmore ⟨hrun, h.timer.mpr hq⟩
          · exact .inl hrun
      · intro c hc
        dsimp only at hc
        split at hc <;> cases hc
      · intro hlost
        dsimp only at hlost ⊢
        split at hlost
        · rename_i hdone
          exact ⟨hdone.1, h.timer.mp hdone.2⟩
        · cases hlost
  · exact h

omit [DecidableEq C] in
theorem Sound.start (h : Sound candidates stagger s) (hgoing : s.ending = none) :
    Sound candidates stagger (s.start stagger) := by
  unfold DialRace.start
  split
  · rename_i due next queued hdue hqueued
    split
    · rename_i hlate
      have hpast : s.started.length * stagger ≤ s.clock := (h.due due hdue).trans hlate
      refine ⟨?_, ?_, ?_, ?_, ?_, fun _ => .inl (by simp), ?_, ?_⟩
      · have hsplit := h.split
        rw [hqueued] at hsplit
        simpa using hsplit
      · have hheld := h.held.append_right [next]
        simpa using hheld
      · by_cases hq : queued = [] <;> simp [hq]
      · intro i c at_ hi
        dsimp only at hi
        rcases Nat.lt_or_ge i s.started.length with hold | hnew
        · rw [List.getElem?_append_left hold] at hi
          exact h.paced i c at_ hi
        · rw [List.getElem?_append_right hnew] at hi
          have hlast := (List.getElem?_eq_some_iff.mp hi).1
          rw [List.length_singleton] at hlast
          obtain rfl : i = s.started.length := by omega
          simp only [Nat.sub_self, List.getElem?_cons_zero, Option.some.injEq, Prod.mk.injEq] at hi
          exact hi.2 ▸ hpast
      · intro due' hdue'
        dsimp only at hdue' ⊢
        split at hdue'
        · cases hdue'
        · obtain rfl := Option.some.inj hdue'
          rw [List.length_append, List.length_singleton, Nat.add_mul]
          omega
      · intro c hc
        exact absurd (hgoing.symm.trans hc) (by simp)
      · intro hc
        exact absurd (hgoing.symm.trans hc) (by simp)
    · exact h
  · exact h

theorem Sound.step (h : Sound candidates stagger s) (act : RaceAct C) :
    Sound candidates stagger (s.step stagger act) := by
  unfold DialRace.step
  split
  · exact h
  · rename_i hgoing
    cases act with
    | answer candidate reached => exact h.answer candidate reached
    | start => exact h.start hgoing
    | timeout =>
      exact ⟨h.split, h.held, h.timer, h.paced, h.due, by simp, by simp, by simp⟩
    | tick ms => exact ⟨h.split, h.held, h.timer, h.paced, h.due, h.going, h.won, h.lost⟩

theorem sound_race (candidates : List C) (stagger : Nat) (acts : List (RaceAct C)) :
    Sound candidates stagger (race candidates stagger acts) :=
  exec_invariant (A := fun _ _ => True) (fun _ act h _ => h.step act)
    (sound_new candidates stagger) (fun _ _ _ => trivial) acts (List.prefix_refl _)

omit [DecidableEq C] in
theorem Sound.all_failed (h : Sound candidates stagger s) (hlost : s.ending = some .lost) :
    s.failed.Perm candidates := by
  obtain ⟨hrun, hqueued⟩ := h.lost hlost
  have hheld := h.held
  have hsplit := h.split
  rw [hrun, List.append_nil] at hheld
  rw [hqueued, List.append_nil] at hsplit
  exact hsplit ▸ hheld

/-- The candidates a race does not lose: a race that nobody wins was refused by every candidate, one
that is won was refused by those only that it notes, and one still going waits for something. -/
theorem race_accounts (candidates : List C) (stagger : Nat) (acts : List (RaceAct C)) :
    match (race candidates stagger acts).ending with
    | some .lost => (race candidates stagger acts).outcome.failed.Perm candidates
    | some (.won c) => List.Subperm (c :: (race candidates stagger acts).outcome.failed) candidates
    | some .timedOut => (race candidates stagger acts).outcome = { won := none, failed := [] }
    | none => (race candidates stagger acts).running ≠ [] ∨
        ∃ due, (race candidates stagger acts).nextStart = some due := by
  have hsound := sound_race candidates stagger acts
  generalize race candidates stagger acts = s at hsound
  have hstarted : s.started.map Prod.fst <+: candidates := ⟨s.queued, hsound.split⟩
  split
  · rename_i hlost
    simpa [outcome, hlost] using hsound.all_failed hlost
  · rename_i c hwon
    have hfailed : s.outcome.failed = s.failed := by simp [outcome, hwon]
    rw [hfailed]
    have hone : List.Subperm (c :: s.failed) (s.failed ++ s.running) := by
      have hperm : (c :: s.failed).Perm (s.failed ++ [c]) :=
        (List.perm_append_singleton c s.failed).symm
      refine hperm.subperm.trans ?_
      exact (List.subperm_append_left s.failed).mpr
        (List.singleton_subperm_iff.mpr (hsound.won c hwon))
    exact (hone.trans hsound.held.subperm).trans hstarted.sublist.subperm
  · rename_i hout
    simp [outcome, hout]
  · rename_i hgoing
    rcases hsound.going hgoing with hrun | hqueued
    · exact .inl hrun
    · exact .inr (Option.ne_none_iff_exists'.mp fun hnone => hqueued (hsound.timer.mp hnone))

/-- The candidates are started in their order, and each no sooner than its turn. -/
theorem race_paced (candidates : List C) (stagger : Nat) (acts : List (RaceAct C)) :
    (race candidates stagger acts).started.map Prod.fst <+: candidates ∧
      ∀ i c at_, (race candidates stagger acts).started[i]? = some (c, at_) → i * stagger ≤ at_ :=
  have hsound := sound_race candidates stagger acts
  ⟨⟨_, hsound.split⟩, hsound.paced⟩

/-- The second candidate waits for its turn, though it was asked for before. -/
theorem race_paced_once :
    (race ["a", "b"] 250 [.start, .tick 300, .start]).started[1]? = some ("b", 300) ∧
      1 * 250 ≤ 300 := by
  have hstarted : (race ["a", "b"] 250 [.start, .tick 300, .start]).started[1]? = some ("b", 300) :=
    rfl
  exact ⟨hstarted, (race_paced ["a", "b"] 250 [.start, .tick 300, .start]).2 1 "b" 300 hstarted⟩

/-- What a race notes as refused was refused. -/
theorem failed_answered (candidates : List C) (stagger : Nat) (acts : List (RaceAct C)) :
    ∀ c ∈ (race candidates stagger acts).failed, RaceAct.answer c false ∈ acts := by
  induction acts using List.reverseRecOn with
  | nil =>
    intro c hc
    cases candidates <;> cases hc
  | append_singleton acts act ih =>
    intro c hc
    rw [race, exec_snoc, ← race] at hc
    have hold : c ∈ (race candidates stagger acts).failed → RaceAct.answer c false ∈ acts ++ [act] :=
      fun h => List.mem_append_left _ (ih c h)
    unfold step at hc
    split at hc
    · exact hold hc
    · cases act with
      | answer candidate reached =>
        dsimp only [answer] at hc
        split at hc
        · cases reached with
          | true => exact hold hc
          | false =>
            rcases List.mem_append.mp hc with hc | hc
            · exact hold hc
            · rw [List.mem_singleton.mp hc]
              exact List.mem_append_right _ (List.mem_singleton_self _)
        · exact hold hc
      | start =>
        dsimp only [start] at hc
        split at hc
        · split at hc
          · exact hold hc
          · exact hold hc
        · exact hold hc
      | timeout => exact hold hc
      | tick ms => exact hold hc

end Sound

end DialRace

end TeamClaude
