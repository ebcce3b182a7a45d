import TeamClaude.Lib.Exec
import TeamClaude.Quota.Fold

/-!
# Windows over a run of folds

What a fold reads of a window says what it leaves there. From it, over any run of folds from the
empty record: a used window always has a reset, and a reset upstream did not report is never
further away than one window.
-/

namespace TeamClaude

open Lib

inductive WindowSlot
  | fiveHour
  | sevenDay
  | sevenDayOi
  deriving DecidableEq

namespace WindowSlot

def length : WindowSlot → Int
  | fiveHour => fiveHourLength
  | sevenDay | sevenDayOi => sevenDayLength

/-- The scope's name in the unified headers. -/
def scope : WindowSlot → String
  | fiveHour => "5h"
  | sevenDay => "7d"
  | sevenDayOi => "7d_oi"

end WindowSlot

def Quota.window (q : Quota) : WindowSlot → Option QuotaWindow
  | .fiveHour => q.fiveHour
  | .sevenDay => q.sevenDay
  | .sevenDayOi => q.sevenDayOi

def Usage.bucket (usage : Usage) : WindowSlot → Option UsageBucket
  | .fiveHour => usage.fiveHour
  | .sevenDay => usage.sevenDay
  | .sevenDayOi => usage.sevenDayOi

def ProbeClock.at (clock : ProbeClock) : WindowSlot → Instant
  | .fiveHour => clock.fiveHour
  | .sevenDay => clock.sevenDay
  | .sevenDayOi => clock.sevenDayOi

inductive Fold
  | headers (headers : HeaderView) (now : Instant)
  | modelWeekly (headers : HeaderView) (now : Instant)
  | codex (headers : HeaderView) (httpStatus : Nat) (refusal : Option CodexQuotaRefusal)
      (now : Instant)
  | usage (usage : Usage) (clock : ProbeClock)

namespace Fold

def apply (text : TextReadings) (q : QuotaRecord) : Fold → QuotaRecord
  | headers hs now => (q.updateFromHeaders text hs now).1
  | modelWeekly hs now => q.rejectModelWeekly text hs now
  | codex hs httpStatus refusal now => (q.updateFromCodexRefusal text hs httpStatus refusal now).1
  | usage u clock => q.applyUsage u clock

/-- The clock reading a fold takes for a window. -/
def instant (slot : WindowSlot) : Fold → Instant
  | headers _ now | modelWeekly _ now | codex _ _ _ now => now
  | usage _ clock => clock.at slot

/-- The utilization of a scope, or the verdict that stands for one. -/
def unifiedReading (text : TextReadings) (hs : HeaderView) (prior : Option QuotaWindow)
    (slot : WindowSlot) : Option (ℚ × Option Instant) :=
  let reset := getReset text hs ("anthropic-ratelimit-unified-" ++ slot.scope ++ "-reset")
  match getParsed text.f64 hs ("anthropic-ratelimit-unified-" ++ slot.scope ++ "-utilization") with
  | some util => some (util, reset)
  | none =>
    if slot = .sevenDayOi ∧ scopeIsAllowed hs "anthropic-ratelimit-unified-7d_oi-status" = true ∧
        prior.any (fun w => decide (1 ≤ w.utilization)) = true then some (0, reset)
    else none

def codexReading (r : CodexReading) : ℚ × Option Instant :=
  (r.utilization, r.reported)

/-- What a fold takes for a window: the utilization, and the reset upstream reported with it.
Nothing where the fold does not write the window. -/
def reading (text : TextReadings) (q : QuotaRecord) (slot : WindowSlot) :
    Fold → Option (ℚ × Option Instant)
  | headers hs _ => unifiedReading text hs (q.window slot) slot
  | modelWeekly hs _ =>
    match slot with
    | .sevenDayOi => some (1, getReset text hs "anthropic-ratelimit-unified-7d_oi-reset")
    | _ => none
  | codex hs _ _ _ =>
    match slot with
    | .fiveHour => (codexHeaderReadings text hs).fiveHour.map codexReading
    | .sevenDay => (codexHeaderReadings text hs).weekly.map codexReading
    | .sevenDayOi => none
  | usage u _ =>
    (u.bucket slot).bind fun bucket =>
      (bucket.utilization.or ((q.window slot).map QuotaWindow.utilization)).map
        fun util => (util, QuotaRecord.bucketReset bucket)

def isUsage : Fold → Bool
  | usage _ _ => true
  | _ => false

end Fold

/-- A window after a fold that read `reading` of it. -/
def learned (prior : Option QuotaWindow) (reading : Option (ℚ × Option Instant)) (now : Instant)
    (win : Int) : Option QuotaWindow :=
  match reading with
  | some (util, reported) => some (learnWindow util reported prior now win)
  | none => prior

section Resolve

variable {reported prior : Option Instant} {now : Instant} {window : Int}

theorem resolve_reset_some : ∃ reset, resolveReset reported prior now window = some reset := by
  unfold resolveReset
  split
  · exact ⟨_, rfl⟩
  · split
    · split <;> exact ⟨_, rfl⟩
    · exact ⟨_, rfl⟩

/-- A reset that was not reported was still ahead before, or is one window away. -/
theorem resolve_reset_unreported {reset : Instant}
    (h : resolveReset none prior now window = some reset) :
    reset = now + window ∨ (prior = some reset ∧ now < reset) := by
  simp only [resolveReset] at h
  split at h
  · split at h
    · rename_i hlt
      cases h
      exact .inr ⟨rfl, hlt⟩
    · cases h
      exact .inl rfl
  · cases h
    exact .inl rfl

end Resolve

section Spec

variable {text : TextReadings} {q : QuotaRecord} {slot : WindowSlot} {hs : HeaderView}
  {now : Instant}

theorem window_headers : ((q.updateFromHeaders text hs now).1).window slot =
    learned (q.window slot) (Fold.unifiedReading text hs (q.window slot) slot) now
      slot.length := by
  cases slot with
  | fiveHour =>
    simp only [QuotaRecord.updateFromHeaders, QuotaRecord.unifiedWindow, Quota.window,
      Fold.unifiedReading, WindowSlot.scope, WindowSlot.length]
    cases getParsed text.f64 hs ("anthropic-ratelimit-unified-" ++ "5h" ++ "-utilization") with
    | some util => rfl
    | none => rfl
  | sevenDay =>
    simp only [QuotaRecord.updateFromHeaders, QuotaRecord.unifiedWindow, Quota.window,
      Fold.unifiedReading, WindowSlot.scope, WindowSlot.length]
    cases getParsed text.f64 hs ("anthropic-ratelimit-unified-" ++ "7d" ++ "-utilization") with
    | some util => rfl
    | none => rfl
  | sevenDayOi =>
    simp only [QuotaRecord.updateFromHeaders, QuotaRecord.unifiedWindow, Quota.window,
      Fold.unifiedReading, WindowSlot.scope, WindowSlot.length, QuotaRecord.allowedModelWeekly]
    cases getParsed text.f64 hs ("anthropic-ratelimit-unified-" ++ "7d_oi" ++ "-utilization") with
    | some util => rfl
    | none =>
      simp only [Option.map_none, Option.none_or, Bool.and_eq_true, true_and]
      split
      · rfl
      · rfl

theorem window_model_weekly : (q.rejectModelWeekly text hs now).window slot =
    learned (q.window slot) (Fold.reading text q slot (.modelWeekly hs now)) now slot.length := by
  cases slot <;> rfl

theorem codex_refusal_five_hour {httpStatus : Nat} {refusal : Option CodexQuotaRefusal} :
    ((q.updateFromCodexRefusal text hs httpStatus refusal now).1).fiveHour =
      QuotaRecord.learnReading q.fiveHour (codexHeaderReadings text hs).fiveHour now
        fiveHourLength := by
  simp only [QuotaRecord.updateFromCodexRefusal]
  cases refusal with
  | some r => rfl
  | none =>
    simp only
    split <;> rfl

theorem codex_refusal_seven_day {httpStatus : Nat} {refusal : Option CodexQuotaRefusal} :
    ((q.updateFromCodexRefusal text hs httpStatus refusal now).1).sevenDay =
      QuotaRecord.learnReading q.sevenDay (codexHeaderReadings text hs).weekly now
        sevenDayLength := by
  simp only [QuotaRecord.updateFromCodexRefusal]
  cases refusal with
  | some r => rfl
  | none =>
    simp only
    split <;> rfl

theorem codex_refusal_model_weekly {httpStatus : Nat} {refusal : Option CodexQuotaRefusal} :
    ((q.updateFromCodexRefusal text hs httpStatus refusal now).1).sevenDayOi = q.sevenDayOi := by
  simp only [QuotaRecord.updateFromCodexRefusal]
  cases refusal with
  | some r => rfl
  | none =>
    simp only
    split <;> rfl

theorem window_codex {httpStatus : Nat} {refusal : Option CodexQuotaRefusal} :
    ((q.updateFromCodexRefusal text hs httpStatus refusal now).1).window slot =
      learned (q.window slot) (Fold.reading text q slot (.codex hs httpStatus refusal now)) now
        slot.length := by
  cases slot with
  | fiveHour =>
    show _ = learned q.fiveHour
      ((codexHeaderReadings text hs).fiveHour.map Fold.codexReading) now fiveHourLength
    rw [Quota.window, codex_refusal_five_hour]
    cases (codexHeaderReadings text hs).fiveHour <;> rfl
  | sevenDay =>
    show _ = learned q.sevenDay
      ((codexHeaderReadings text hs).weekly.map Fold.codexReading) now sevenDayLength
    rw [Quota.window, codex_refusal_seven_day]
    cases (codexHeaderReadings text hs).weekly <;> rfl
  | sevenDayOi => exact codex_refusal_model_weekly

theorem window_end_rejection : q.endRejection.window slot = q.window slot := by
  cases slot <;> rfl

theorem window_drop_rejection (usage : Usage) :
    (q.dropRejectionIfAWindowRolled usage).window slot = q.window slot := by
  unfold QuotaRecord.dropRejectionIfAWindowRolled
  split
  · exact window_end_rejection
  · rfl

theorem window_lift {facts : CodexProbeFacts} :
    (q.liftACodexRefusalTheProbeReadsAllowed facts).window slot = q.window slot := by
  unfold QuotaRecord.liftACodexRefusalTheProbeReadsAllowed
  split
  · exact window_end_rejection
  · rfl

theorem window_facts {facts : CodexProbeFacts} :
    (q.applyFacts facts).window slot = q.window slot := by
  simp only [QuotaRecord.applyFacts]
  split
  · show (QuotaRecord.liftACodexRefusalTheProbeReadsAllowed _ facts).window slot = _
    rw [window_lift]
  · rw [window_lift]

theorem window_usage {usage : Usage} {clock : ProbeClock} :
    (q.applyUsage usage clock).window slot =
      QuotaRecord.applyBucket (q.window slot) (usage.bucket slot) (clock.at slot)
        slot.length := by
  have hdrop : (q.dropRejectionIfAWindowRolled usage).window slot = q.window slot :=
    window_drop_rejection usage
  simp only [QuotaRecord.applyUsage]
  cases usage.codex with
  | some facts =>
    simp only [window_facts]
    rw [← hdrop]
    cases slot <;> rfl
  | none =>
    rw [← hdrop]
    cases slot <;> rfl

end Spec

/-- A fold leaves a window as learned from its reading, but that a usage bucket at zero without a
reset keeps none. -/
theorem fold_window (text : TextReadings) (q : QuotaRecord) (slot : WindowSlot) (f : Fold) :
    (f.apply text q).window slot =
        learned (q.window slot) (f.reading text q slot) (f.instant slot) slot.length ∨
      f.isUsage = true ∧ f.reading text q slot = some (0, none) ∧
        (f.apply text q).window slot = some { utilization := 0, reset := none } := by
  cases f with
  | headers hs now => exact .inl window_headers
  | modelWeekly hs now => exact .inl window_model_weekly
  | codex hs httpStatus refusal now => exact .inl window_codex
  | usage u clock =>
    simp only [Fold.apply, window_usage, Fold.reading, Fold.instant]
    cases hb : u.bucket slot with
    | none => exact .inl rfl
    | some bucket =>
      simp only [QuotaRecord.applyBucket, Option.bind_some]
      cases bucket.utilization.or ((q.window slot).map QuotaWindow.utilization) with
      | none => exact .inl rfl
      | some util =>
        simp only [Option.map_some]
        split
        · rename_i hz
          obtain ⟨hreset, hutil⟩ := Bool.and_eq_true_iff.mp hz
          obtain rfl := of_decide_eq_true hutil
          rw [Option.isNone_iff_eq_none] at hreset
          exact .inr ⟨rfl, by rw [hreset], rfl⟩
        · exact .inl rfl

def ResetKnown (q : QuotaRecord) : Prop :=
  ∀ slot w, q.window slot = some w → w.utilization ≠ 0 → ∃ reset, w.reset = some reset

theorem fold_reset_known {text : TextReadings} {q : QuotaRecord} (f : Fold) (h : ResetKnown q) :
    ResetKnown (f.apply text q) := by
  intro slot w hw hused
  rcases fold_window text q slot f with hl | ⟨-, -, hzero⟩
  · rw [hl] at hw
    cases hr : f.reading text q slot with
    | none =>
      rw [hr] at hw
      exact h slot w hw hused
    | some r =>
      rw [hr] at hw
      cases hw
      exact resolve_reset_some
  · rw [hzero] at hw
    cases hw
    exact absurd rfl hused

def runFolds (text : TextReadings) (folds : List Fold) : QuotaRecord :=
  exec (fun q f => f.apply text q) {} folds

theorem run_reset_known (text : TextReadings) (folds : List Fold) :
    ResetKnown (runFolds text folds) := by
  refine exec_invariant (I := ResetKnown) (A := fun _ _ => True)
    (fun q f h _ => fold_reset_known f h) ?_ (fun _ _ _ => trivial) folds (List.prefix_refl _)
  intro slot w hw
  cases slot <;> cases hw

theorem effective_of_reset {w : QuotaWindow} {reset t : Instant} (h : w.reset = some reset)
    (ht : reset ≤ t) : w.effective t = 0 := by
  rw [QuotaWindow.effective, h]
  exact if_pos ht

/-- What one fold leaves of a window whose reset upstream did not report. -/
theorem fold_unreported {text : TextReadings} {q : QuotaRecord} {slot : WindowSlot} {f : Fold}
    {util : ℚ} {w : QuotaWindow} (hread : f.reading text q slot = some (util, none))
    (hw : (f.apply text q).window slot = some w) :
    f.isUsage = true ∧ w.utilization = 0 ∧ w.reset = none ∨
      ∃ reset, w.reset = some reset ∧
        (reset ≤ f.instant slot + slot.length ∨
          f.instant slot < reset ∧ (q.window slot).bind QuotaWindow.reset = some reset) := by
  rcases fold_window text q slot f with hl | ⟨husage, -, hzero⟩
  · rw [hl, hread] at hw
    cases hw
    obtain ⟨reset, hreset⟩ : ∃ reset, resolveReset none ((q.window slot).bind QuotaWindow.reset)
        (f.instant slot) slot.length = some reset := resolve_reset_some
    refine .inr ⟨reset, hreset, ?_⟩
    rcases resolve_reset_unreported hreset with h | ⟨hprior, hlt⟩
    · exact .inl h.le
    · exact .inr ⟨hlt, hprior⟩
  · rw [hzero] at hw
    cases hw
    exact .inl ⟨husage, rfl, rfl⟩

/-- No window gates for ever: a used window has a reset, past which it gates nothing, and a reset
that upstream did not report in the last fold that wrote the window is at most one window from
that fold or was known before. Only a usage bucket at zero is left without one. -/
theorem no_window_gates_for_ever (text : TextReadings) (folds : List Fold) (slot : WindowSlot)
    (w : QuotaWindow) (hw : (runFolds text folds).window slot = some w) :
    (w.utilization ≠ 0 → ∃ reset, w.reset = some reset ∧ ∀ t, reset ≤ t → w.effective t = 0 ∧
      ∀ threshold, 0 < threshold → Quota.windowNear (some w) threshold t = false) ∧
    ∀ before f after util, folds = before ++ f :: after →
      f.reading text (runFolds text before) slot = some (util, none) →
      EachStep (fun q f => f.apply text q) (fun q g => g.reading text q slot = none)
        (runFolds text (before ++ [f])) after →
      f.isUsage = true ∧ w.utilization = 0 ∧ w.reset = none ∨
        ∃ reset, w.reset = some reset ∧
          (reset ≤ f.instant slot + slot.length ∨
            f.instant slot < reset ∧
              ((runFolds text before).window slot).bind QuotaWindow.reset = some reset) := by
  constructor
  · intro hused
    obtain ⟨reset, hreset⟩ := run_reset_known text folds slot w hw hused
    refine ⟨reset, hreset, fun t ht => ?_⟩
    have hfree : w.effective t = 0 := effective_of_reset hreset ht
    refine ⟨hfree, fun threshold hpos => ?_⟩
    simp only [Quota.windowNear, Option.any_some, hfree, decide_eq_false_iff_not, not_le]
    exact hpos
  · rintro before f after util rfl hread hafter
    -- The folds after `f` leave the window as `f` did.
    have hkeep : (runFolds text (before ++ f :: after)).window slot =
        (f.apply text (runFolds text before)).window slot := by
      have hsame := exec_unchanged (f := fun q : QuotaRecord => q.window slot)
        (hafter.mono fun q g hg => ?_)
      · rw [runFolds, exec_snoc] at hsame
        rw [runFolds, exec_append, exec_cons]
        exact hsame
      · rcases fold_window text q slot g with h | ⟨-, h, -⟩
        · rw [h, hg]
          rfl
        · rw [hg] at h
          cases h
    rw [hkeep] at hw
    exact fold_unreported hread hw

/-- A probe at instant 0 that reads a five-hour utilization and no reset. -/
def bareProbe (utilization : ℚ) : Fold :=
  .usage { fiveHour := some { utilization := some utilization, resetAtMs := none } }
    { fiveHour := 0, sevenDay := 0, sevenDayOi := 0, stamp := 0 }

/-- A response without a quota header. -/
def silentResponse (now : Instant) : Fold :=
  .headers (fun _ => none) now

/-- No text is a number or a timestamp. -/
def blankReadings : TextReadings where
  f64 := fun _ => none
  rfc3339 := fun _ => none

theorem no_window_gates_for_ever_full_bucket :
    ∃ w, (runFolds blankReadings [bareProbe 1, silentResponse 5]).window .fiveHour = some w ∧
      ((bareProbe 1).isUsage = true ∧ w.utilization = 0 ∧ w.reset = none ∨
        ∃ reset, w.reset = some reset ∧
          (reset ≤ (bareProbe 1).instant .fiveHour + WindowSlot.fiveHour.length ∨
            (bareProbe 1).instant .fiveHour < reset ∧
              ((runFolds blankReadings []).window .fiveHour).bind QuotaWindow.reset =
                some reset)) := by
  have hw : (runFolds blankReadings [bareProbe 1, silentResponse 5]).window .fiveHour =
      some { utilization := 1, reset := some fiveHourLength } := by decide +kernel
  refine ⟨_, hw, ?_⟩
  refine (no_window_gates_for_ever blankReadings _ .fiveHour _ hw).2 [] (bareProbe 1)
    [silentResponse 5] 1 rfl (by decide +kernel) ?_
  exact each_step_cons.mpr ⟨rfl, each_step_nil⟩

/-- An idle bucket that a probe read without a reset is left without one. -/
theorem idle_bucket_has_no_reset :
    (bareProbe 0).reading blankReadings (runFolds blankReadings []) .fiveHour = some (0, none) ∧
      ¬ ∃ w reset, (runFolds blankReadings [bareProbe 0]).window .fiveHour = some w ∧
        w.reset = some reset ∧
          (reset ≤ (bareProbe 0).instant .fiveHour + WindowSlot.fiveHour.length ∨
            (bareProbe 0).instant .fiveHour < reset ∧
              ((runFolds blankReadings []).window .fiveHour).bind QuotaWindow.reset =
                some reset) := by
  refine ⟨by decide +kernel, ?_⟩
  rintro ⟨w, reset, hw, hreset, -⟩
  have hidle : (runFolds blankReadings [bareProbe 0]).window .fiveHour =
      some { utilization := 0, reset := none } := by decide +kernel
  rw [hidle] at hw
  cases hw
  cases hreset

end TeamClaude
