import TeamClaude.Quota.Fold

/-!
# A rejection that is read and one that gates

`quota_rejections` reads the status headers of a response whatever the case of their values. The
record keeps the unified status as it is spelled, and the gates compare that spelling with
`rejected`. The results say on which responses the two agree.
-/

namespace TeamClaude

def unifiedStatusHeader : String := "anthropic-ratelimit-unified-status"

/-- Upstream rejects the account: the aggregate, or one of the two shared windows. -/
def AccountRejected (headers : HeaderView) : Prop :=
  .overall ∈ quotaRejections headers ∨ .fiveHour ∈ quotaRejections headers ∨
    .sevenDay ∈ quotaRejections headers

instance (headers : HeaderView) : Decidable (AccountRejected headers) :=
  inferInstanceAs (Decidable (_ ∨ _ ∨ _))

namespace QuotaRecord

/-- A rejection of the account that comes with a unified status is stored as one, and a rejection of
the model's weekly alone leaves the stored status. -/
def GatesWhatIsRejected (text : TextReadings) (headers : HeaderView) (q : QuotaRecord)
    (now : Instant) : Prop :=
  (AccountRejected headers → (headers unifiedStatusHeader).isSome →
      (q.updateFromHeaders text headers now).1.rejected = true) ∧
    (quotaRejections headers = [.fableWeekly] →
      (q.updateFromHeaders text headers now).1.status = q.status)

section Status

variable {text : TextReadings} {headers : HeaderView} {q : QuotaRecord} {now : Instant}

theorem status_headers : (q.updateFromHeaders text headers now).1.status =
    if quotaRejections headers = [.fableWeekly] then q.status
    else (headers unifiedStatusHeader).or q.status := rfl

theorem not_model_scoped (h : AccountRejected headers) : quotaRejections headers ≠ [.fableWeekly] := by
  intro hscoped
  simp [AccountRejected, hscoped] at h

/-- What is stored for a rejected account is the header's own spelling. -/
theorem status_of_account_rejected (h : AccountRejected headers) {status : String}
    (hstatus : headers unifiedStatusHeader = some status) :
    (q.updateFromHeaders text headers now).1.status = some status := by
  rw [status_headers, if_neg (not_model_scoped h), hstatus, Option.some_or]

end Status

/-- The record gates what the headers reject exactly where the unified status, if there is one, is
spelled `rejected` in lower case. -/
theorem gates_what_is_rejected_iff (text : TextReadings) (headers : HeaderView) (q : QuotaRecord)
    (now : Instant) :
    q.GatesWhatIsRejected text headers now ↔
      (AccountRejected headers → ∀ status, headers unifiedStatusHeader = some status →
        status = "rejected") := by
  have hscoped : quotaRejections headers = [.fableWeekly] →
      (q.updateFromHeaders text headers now).1.status = q.status := by
    intro h
    rw [status_headers, if_pos h]
  constructor
  · intro h hrejected status hstatus
    have hstored := h.1 hrejected (by rw [hstatus]; rfl)
    have hsome : (q.updateFromHeaders text headers now).1.status = some status :=
      status_of_account_rejected hrejected hstatus
    rw [Quota.rejected, hsome] at hstored
    exact Option.some_injective _ (of_decide_eq_true hstored)
  · intro h
    refine ⟨fun hrejected hpresent => ?_, hscoped⟩
    obtain ⟨status, hstatus⟩ := Option.isSome_iff_exists.mp hpresent
    have hsome : (q.updateFromHeaders text headers now).1.status = some status :=
      status_of_account_rejected hrejected hstatus
    obtain rfl := h hrejected status hstatus
    rw [Quota.rejected, hsome]
    exact decide_eq_true rfl

end QuotaRecord

/-- A response whose unified status is the one given. -/
def statusHeaders (status : String) : HeaderView := fun name =>
  if name = unifiedStatusHeader then some status else none

/-- `Rejected` is read as a rejection of the account and stored as a status that no gate knows. -/
theorem capital_rejection_ungated :
    quotaRejections (statusHeaders "Rejected") = [.overall] ∧
      ∀ text now, ¬QuotaRecord.GatesWhatIsRejected text (statusHeaders "Rejected") {} now := by
  have hread : quotaRejections (statusHeaders "Rejected") = [.overall] := by decide +kernel
  have hrejected : AccountRejected (statusHeaders "Rejected") :=
    .inl (by rw [hread]; exact List.mem_singleton_self _)
  refine ⟨hread, fun text now h => ?_⟩
  have hgated := h.1 hrejected rfl
  rw [Quota.rejected, QuotaRecord.status_of_account_rejected hrejected rfl] at hgated
  exact absurd hgated (by decide)

end TeamClaude
