import TeamClaude.Lib.Exec
import Mathlib.Algebra.Order.Group.Defs
import Mathlib.Algebra.Order.Monoid.Unbundled.Pow
import Mathlib.Algebra.Module.NatInt
import Mathlib.Data.List.Count

/-!
# Metered events

A meter allows a number of free events, and after them one event from the instant it is ready at
and then one for each gap. A system whose state shows such a meter is bounded by it over every
span of time.
-/

namespace Lib.Meter

variable {α : Type*} [AddCommGroup α] [LinearOrder α]

/-- An event the meter allows: a free one, or one no earlier than it is ready. -/
def Opens (free : Nat) (ready : Option α) (t : α) : Prop :=
  0 < free ∨ ∃ r ∈ ready, r ≤ t

/-- The events in order, each allowed by the meter that the ones before it leave. -/
def Allowed (gap : α) : Nat → Option α → List α → Prop
  | _, _, [] => True
  | free, ready, t :: ts => Opens free ready t ∧ Allowed gap (free - 1) (some (t + gap)) ts

/-- The second meter allows whatever the first one does. -/
def Tighter (free : Nat) (ready : Option α) (free' : Nat) (ready' : Option α) : Prop :=
  free ≤ free' ∧ (0 < free' ∨ ∀ r ∈ ready, ∃ r' ∈ ready', r' ≤ r)

variable {gap start stop : α} {free free' : Nat} {ready ready' : Option α} {ts : List α}

omit [AddCommGroup α] in
theorem Opens.mono {t : α} (h : Opens free ready t) (htight : Tighter free ready free' ready') :
    Opens free' ready' t := by
  rcases h with hfree | ⟨r, hr, hrt⟩
  · exact .inl (hfree.trans_le htight.1)
  · rcases htight.2 with hfree | hready
    · exact .inl hfree
    · obtain ⟨r', hr', hle⟩ := hready r hr
      exact .inr ⟨r', hr', hle.trans hrt⟩

theorem Allowed.mono (h : Allowed gap free ready ts) (htight : Tighter free ready free' ready') :
    Allowed gap free' ready' ts := by
  induction ts generalizing free free' ready ready' with
  | nil => trivial
  | cons t ts ih =>
    obtain ⟨hfirst, hrest⟩ := h
    have hnext : Tighter (free - 1) (some (t + gap)) (free' - 1) (some (t + gap)) :=
      ⟨Nat.sub_le_sub_right htight.1 1, .inr fun r hr => ⟨r, hr, le_rfl⟩⟩
    exact ⟨hfirst.mono htight, ih hrest hnext⟩

/-! ## The events of a span -/

section Span

variable [IsOrderedAddMonoid α]

/-- Without free events, those of a span are a gap apart. -/
theorem Allowed.spaced {r : α} {n : Nat} (hgap : 0 ≤ gap) (h : Allowed gap 0 (some r) ts)
    (hcount : ts.countP (fun t => decide (start ≤ t ∧ t ≤ stop)) = n + 1) :
    max r start + n • gap ≤ stop := by
  induction ts generalizing r n with
  | nil => simp at hcount
  | cons t ts ih =>
    obtain ⟨hfirst, hrest⟩ := h
    have hready : r ≤ t := by simpa [Opens] using hfirst
    rw [List.countP_cons] at hcount
    by_cases hin : start ≤ t ∧ t ≤ stop
    · rw [if_pos (decide_eq_true hin), Nat.add_right_cancel_iff] at hcount
      have hfrom : max r start ≤ t := max_le hready hin.1
      cases n with
      | zero =>
        rw [zero_nsmul, add_zero]
        exact hfrom.trans hin.2
      | succ n =>
        have hlater := ih hrest hcount
        calc max r start + (n + 1) • gap ≤ t + (n + 1) • gap := by gcongr
          _ = t + gap + n • gap := by rw [succ_nsmul', add_assoc]
          _ ≤ max (t + gap) start + n • gap := by gcongr; exact le_max_left _ _
          _ ≤ stop := hlater
    · rw [if_neg (by simpa using hin), Nat.add_zero] at hcount
      have hlater := ih hrest hcount
      have hmoved : r ≤ t + gap := hready.trans (le_add_of_nonneg_right hgap)
      refine le_trans ?_ hlater
      gcongr

/-- Beyond the free events and one more, each event of a span takes a gap of it. -/
theorem Allowed.in_span {n : Nat} (hgap : 0 ≤ gap) (h : Allowed gap free ready ts)
    (hcount : free + (n + 1) ≤ ts.countP (fun t => decide (start ≤ t ∧ t ≤ stop))) :
    n • gap ≤ stop - start := by
  induction ts generalizing free ready with
  | nil => simp at hcount
  | cons t ts ih =>
    cases free with
    | zero =>
      obtain ⟨m, hm⟩ := Nat.exists_eq_add_of_le hcount
      have hready : ∃ r, ready = some r := by
        rcases h.1 with hfree | ⟨r, hr, -⟩
        · exact absurd hfree (lt_irrefl 0)
        · exact ⟨r, hr⟩
      obtain ⟨r, rfl⟩ := hready
      have hmany : (t :: ts).countP (fun t => decide (start ≤ t ∧ t ≤ stop)) = n + m + 1 := by omega
      have hall := h.spaced hgap hmany
      rw [le_sub_iff_add_le']
      calc start + n • gap ≤ max r start + (n + m) • gap := by
            gcongr
            · exact le_max_right _ _
            · exact Nat.le_add_right n m
        _ ≤ stop := hall
    | succ free =>
      rw [List.countP_cons] at hcount
      refine ih h.2 ?_
      have hone : (if decide (start ≤ t ∧ t ≤ stop) = true then 1 else 0) ≤ 1 := by split <;> omega
      omega

end Span

/-! ## What is metered -/

/-- A system that shows a meter: a step without an event loosens it in no way, an event is one it
allows, and takes a free one or starts a gap. -/
structure Metered {σ ℓ : Type*} (step : σ → ℓ → σ) (event : σ → ℓ → Option α) (gap : α)
    (free : σ → Nat) (ready : σ → Option α) (I : σ → Prop) (A : σ → ℓ → Prop) : Prop where
  keep : ∀ {s l}, I s → A s l → I (step s l)
  idle : ∀ {s l}, I s → A s l → event s l = none →
    Tighter (free (step s l)) (ready (step s l)) (free s) (ready s)
  opens : ∀ {s l t}, I s → A s l → event s l = some t → Opens (free s) (ready s) t
  spends : ∀ {s l t}, I s → A s l → event s l = some t →
    Tighter (free (step s l)) (ready (step s l)) (free s - 1) (some (t + gap))

theorem Metered.allowed {σ ℓ : Type*} {step : σ → ℓ → σ} {event : σ → ℓ → Option α}
    {free : σ → Nat} {ready : σ → Option α} {I : σ → Prop} {A : σ → ℓ → Prop}
    (h : Metered step event gap free ready I A) {s : σ} (hI : I s) {ls : List ℓ}
    (hA : EachStep step A s ls) : Allowed gap (free s) (ready s) (observed step event s ls) := by
  induction ls generalizing s with
  | nil => trivial
  | cons l ls ih =>
    obtain ⟨hfirst, hrest⟩ := each_step_cons.mp hA
    have hlater := ih (h.keep hI hfirst) hrest
    rw [observed]
    cases hevent : event s l with
    | none => exact hlater.mono (h.idle hI hfirst hevent)
    | some t => exact ⟨h.opens hI hfirst hevent, hlater.mono (h.spends hI hfirst hevent)⟩

end Lib.Meter
