import TeamClaude.Lib.Exec
import TeamClaude.Quota.Fold

/-!
# The facts of a Codex refusal

A refusal of a Codex account sets its kind and its reset beside the status. Three places end it: a
response that was served, a probe that sees a window roll and a probe that reads the account
allowed. Over any run of responses and probes the facts are there only while the refusal stands.
-/

namespace TeamClaude

open Lib

/-- A response of a Codex account, or a probe of it, with all it reads. -/
inductive CodexFold
  | response (headers : HeaderView) (httpStatus : Nat) (refusal : Option CodexQuotaRefusal)
      (now : Instant)
  | probe (usage : Usage) (clock : ProbeClock)

namespace QuotaRecord

/-- Neither the refusal's kind nor its reset is stored. -/
def NoRefusalFacts (q : QuotaRecord) : Prop :=
  q.codex.limitReachedType = none ∧ q.codex.refusalReset = none

/-- The facts are stored only while the refusal stands. -/
def FactsWithRefusal (q : QuotaRecord) : Prop :=
  q.rejected = false → q.NoRefusalFacts

def RefusalOver (q : QuotaRecord) : Prop :=
  q.rejected = false ∧ q.NoRefusalFacts

theorem refusal_over_end (q : QuotaRecord) : q.endRejection.RefusalOver :=
  ⟨rfl, rfl, rfl⟩

end QuotaRecord

namespace CodexFold

def apply (text : TextReadings) (q : QuotaRecord) : CodexFold → QuotaRecord
  | response headers httpStatus refusal now =>
    (q.updateFromCodexRefusal text headers httpStatus refusal now).1
  | probe usage clock => q.applyUsage usage clock

/-- A probe reads the account allowed: not at its limit, its spend control not reached and no kind
of refusal. -/
def ReadsAllowed (facts : CodexProbeFacts) : Prop :=
  facts.allowed = some true ∧ facts.limitReached ≠ some true ∧ facts.spendControlReached = false ∧
    facts.limitReachedType = none

/-- A 2xx response that carried a window and no refusal, or a probe that reads the account
allowed. -/
def Ends (text : TextReadings) : CodexFold → Prop
  | response headers httpStatus refusal _ =>
    refusal = none ∧ (200 ≤ httpStatus ∧ httpStatus < 300) ∧
      ((codexHeaderReadings text headers).fiveHour.isSome ∨
        (codexHeaderReadings text headers).weekly.isSome)
  | probe usage _ => ∃ facts, usage.codex = some facts ∧ ReadsAllowed facts

end CodexFold

section Response

variable {text : TextReadings} {q : QuotaRecord} {headers : HeaderView} {httpStatus : Nat}
  {refusal : Option CodexQuotaRefusal} {now : Instant}

/-- A refusal is stored with its facts, whatever the response's status. -/
theorem response_refused (r : CodexQuotaRefusal) :
    (q.updateFromCodexRefusal text headers httpStatus (some r) now).1.rejected = true := rfl

/-- A response without a refusal ends one or leaves the status and the facts alone. -/
theorem response_unrefused :
    (q.updateFromCodexRefusal text headers httpStatus none now).1.RefusalOver ∨
      (q.updateFromCodexRefusal text headers httpStatus none now).1.status = q.status ∧
        (q.updateFromCodexRefusal text headers httpStatus none now).1.codex.limitReachedType =
          q.codex.limitReachedType ∧
        (q.updateFromCodexRefusal text headers httpStatus none now).1.codex.refusalReset =
          q.codex.refusalReset := by
  simp only [QuotaRecord.updateFromCodexRefusal]
  split
  · exact .inl ⟨rfl, rfl, rfl⟩
  · exact .inr ⟨rfl, rfl, rfl⟩

/-- A served response that carried a window ends a refusal. -/
theorem response_served (h2xx : 200 ≤ httpStatus ∧ httpStatus < 300)
    (hread : (codexHeaderReadings text headers).fiveHour.isSome ∨
      (codexHeaderReadings text headers).weekly.isSome) :
    (q.updateFromCodexRefusal text headers httpStatus none now).1.RefusalOver := by
  have hserved : (((codexHeaderReadings text headers).fiveHour.isSome ||
      (codexHeaderReadings text headers).weekly.isSome) &&
        (decide (200 ≤ httpStatus) && decide (httpStatus < 300))) = true := by
    simpa using ⟨hread, h2xx⟩
  simp only [QuotaRecord.updateFromCodexRefusal, hserved, if_true]
  exact ⟨rfl, rfl, rfl⟩

theorem facts_with_refusal_response (h : q.FactsWithRefusal) :
    (q.updateFromCodexRefusal text headers httpStatus refusal now).1.FactsWithRefusal := by
  cases refusal with
  | some r => exact fun hnot => absurd (response_refused r) (by rw [hnot]; decide)
  | none =>
    rcases @response_unrefused text q headers httpStatus now with
      hover | ⟨hstatus, hkind, hreset⟩
    · exact fun _ => hover.2
    · intro hnot
      have hfacts := h (by rwa [Quota.rejected, ← hstatus])
      exact ⟨hkind.trans hfacts.1, hreset.trans hfacts.2⟩

end Response

section Probe

variable {q : QuotaRecord} {usage : Usage} {clock : ProbeClock} {facts : CodexProbeFacts}

theorem facts_with_refusal_drop (h : q.FactsWithRefusal) :
    (q.dropRejectionIfAWindowRolled usage).FactsWithRefusal := by
  unfold QuotaRecord.dropRejectionIfAWindowRolled
  split
  · exact fun _ => q.refusal_over_end.2
  · exact h

theorem facts_with_refusal_lift (h : q.FactsWithRefusal) :
    (q.liftACodexRefusalTheProbeReadsAllowed facts).FactsWithRefusal := by
  unfold QuotaRecord.liftACodexRefusalTheProbeReadsAllowed
  split
  · exact fun _ => q.refusal_over_end.2
  · exact h

/-- The kind is refreshed after the lift, and only where the refusal still stands. -/
theorem facts_with_refusal_facts (h : q.FactsWithRefusal) :
    (q.applyFacts facts).FactsWithRefusal := by
  simp only [QuotaRecord.applyFacts]
  split
  · rename_i hstands
    exact fun hnot => absurd hstands (by rw [Bool.not_eq_true]; exact hnot)
  · exact facts_with_refusal_lift h

theorem facts_with_refusal_usage (h : q.FactsWithRefusal) :
    (q.applyUsage usage clock).FactsWithRefusal := by
  have hdrop : (q.dropRejectionIfAWindowRolled usage).FactsWithRefusal :=
    facts_with_refusal_drop h
  simp only [QuotaRecord.applyUsage]
  cases usage.codex with
  | none => exact hdrop
  | some facts => exact facts_with_refusal_facts hdrop

/-- What the probe reads allowed stands no longer. -/
theorem lift_reads_allowed (hallowed : CodexFold.ReadsAllowed facts) :
    (q.liftACodexRefusalTheProbeReadsAllowed facts).rejected = false := by
  obtain ⟨hall, hlimit, hspend, hkind⟩ := hallowed
  unfold QuotaRecord.liftACodexRefusalTheProbeReadsAllowed
  cases hrejected : q.rejected with
  | true =>
    rw [if_pos (by simp [hall, hlimit, hspend, hkind])]
    rfl
  | false =>
    rw [if_neg (by simp)]
    exact hrejected

theorem facts_reads_allowed (hallowed : CodexFold.ReadsAllowed facts) :
    (q.applyFacts facts).rejected = false := by
  simp only [QuotaRecord.applyFacts]
  split
  · rename_i hstands
    rw [lift_reads_allowed hallowed] at hstands
    cases hstands
  · exact lift_reads_allowed hallowed

theorem usage_reads_allowed (hfacts : usage.codex = some facts)
    (hallowed : CodexFold.ReadsAllowed facts) : (q.applyUsage usage clock).rejected = false := by
  simp only [QuotaRecord.applyUsage, hfacts]
  exact facts_reads_allowed hallowed

end Probe

namespace CodexFold

variable {text : TextReadings} {q : QuotaRecord}

theorem facts_with_refusal_apply (f : CodexFold) (h : q.FactsWithRefusal) :
    (f.apply text q).FactsWithRefusal := by
  cases f with
  | response headers httpStatus refusal now => exact facts_with_refusal_response h
  | probe usage clock => exact facts_with_refusal_usage h

theorem ended_apply {f : CodexFold} (h : q.FactsWithRefusal) (hends : f.Ends text) :
    (f.apply text q).RefusalOver := by
  cases f with
  | response headers httpStatus refusal now =>
    obtain ⟨rfl, h2xx, hread⟩ := hends
    exact response_served h2xx hread
  | probe usage clock =>
    obtain ⟨facts, hfacts, hallowed⟩ := hends
    have hnot : (q.applyUsage usage clock).rejected = false := usage_reads_allowed hfacts hallowed
    exact ⟨hnot, facts_with_refusal_usage h hnot⟩

end CodexFold

def runCodexFolds (text : TextReadings) (folds : List CodexFold) : QuotaRecord :=
  exec (fun q f => f.apply text q) {} folds

theorem facts_with_refusal_run (text : TextReadings) (folds : List CodexFold) :
    (runCodexFolds text folds).FactsWithRefusal := by
  induction folds using List.reverseRecOn with
  | nil => exact fun _ => ⟨rfl, rfl⟩
  | append_singleton folds f ih =>
    rw [runCodexFolds, exec_snoc]
    exact f.facts_with_refusal_apply ih

/-- Over any run the facts of a refusal are stored only while the refusal stands, no fold that ends
it leaves them, and a served response or a probe that reads the account allowed ends it. -/
theorem refusal_facts_live_with_refusal (text : TextReadings) (folds : List CodexFold) :
    let q := runCodexFolds text folds
    ((q.codex.limitReachedType.isSome ∨ q.codex.refusalReset.isSome) →
        q.status = some "rejected") ∧
      ∀ f : CodexFold,
        (q.status = some "rejected" → (f.apply text q).status ≠ some "rejected" →
          (f.apply text q).NoRefusalFacts) ∧
        (f.Ends text → (f.apply text q).status ≠ some "rejected" ∧
          (f.apply text q).NoRefusalFacts) := by
  intro q
  have hq : q.FactsWithRefusal := facts_with_refusal_run text folds
  have hstatus : ∀ q : QuotaRecord, q.rejected = false ↔ q.status ≠ some "rejected" :=
    fun q => decide_eq_false_iff_not
  refine ⟨fun hfacts => ?_, fun f => ⟨fun _ hleft => ?_, fun hends => ?_⟩⟩
  · by_contra hnot
    obtain ⟨hkind, hreset⟩ := hq ((hstatus q).mpr hnot)
    rw [hkind, hreset] at hfacts
    simp at hfacts
  · exact f.facts_with_refusal_apply hq ((hstatus _).mpr hleft)
  · have hover := CodexFold.ended_apply hq hends
    exact ⟨(hstatus _).mp hover.1, hover.2⟩

/-- Both slots at a tenth. -/
def servedHeaders : HeaderView := fun name =>
  if name = "x-codex-primary-used-percent" ∨ name = "x-codex-secondary-used-percent" then some "10"
  else none

/-- Reads the whole numbers and no timestamp. -/
def wholeReadings : TextReadings where
  f64 := fun s => (parseI64 s).map fun n => (n : ℚ)
  rfc3339 := fun _ => none

/-- A refusal that comes with a 2xx status and a window is stored all the same. -/
theorem refused_2xx_stands :
    let refusal : CodexQuotaRefusal := { reset := none, limitReachedType := some "primary" }
    let q := runCodexFolds wholeReadings [.response servedHeaders 200 (some refusal) 0]
    (codexHeaderReadings wholeReadings servedHeaders).fiveHour.isSome ∧
      q.status = some "rejected" ∧ ¬q.NoRefusalFacts := by
  refine ⟨by decide +kernel, rfl, fun h => ?_⟩
  cases h.1

end TeamClaude
