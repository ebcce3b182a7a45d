import TeamClaude.Peer.Overdraft
import Mathlib.Algebra.Order.BigOperators.Group.List

/-!
# Headroom is promised once

A grant is cut out of what is left of the scope's headroom once every overlapping promise is taken
off. After it the promises that overlap the scope, the new one included, fit in the headroom the
grant read.
-/

namespace TeamClaude

/-- Two scopes that draw from one account overlap, in either order. -/
theorem covered_scopes_overlap {a b : LendScope} {label : String} {groups : List String}
    (ha : scopeCovers a label groups = true) (hb : scopeCovers b label groups = true) :
    scopesOverlap a b = true := by
  cases a with
  | all => rfl
  | group name => cases b <;> rfl
  | accounts wanted =>
    cases b with
    | all => rfl
    | group name => rfl
    | accounts held =>
      simp only [scopeCovers, List.any_eq_true, decide_eq_true_eq] at ha hb
      obtain ⟨_, hwanted, rfl⟩ := ha
      obtain ⟨_, hheld, rfl⟩ := hb
      simp only [scopesOverlap, List.any_eq_true, decide_eq_true_eq]
      exact ⟨_, hwanted, hheld⟩

namespace Ledger

theorem unspent_nonneg (lease : Lease) : 0 ≤ unspent lease := by
  unfold unspent
  split
  · exact le_max_right _ _
  · exact le_rfl
  · exact le_rfl

/-- What is promised on a window to unexpired leases that overlap a scope, or are the lease `id`. -/
def promised (l : Ledger) (scope : LendScope) (window : Window) (id : LeaseId) (nowMs : Int) : ℚ :=
  ((l.leases.filter fun lease => decide (nowMs < lease.expiresAtMs) &&
    decide (lease.window = window) && (scopesOverlap scope (l.scopeOf lease.leaseId) ||
      decide (lease.leaseId = id))).map unspent).sum

variable {l : Ledger}

theorem record_scoped_scope_of {lease held : Lease} {peer : PeerId} {scope : LendScope}
    {nowMs : Int} (hin : held ∈ l.leases) (hlive : nowMs < held.expiresAtMs)
    (hne : held.leaseId ≠ lease.leaseId) :
    (l.recordScoped lease peer scope nowMs).scopeOf held.leaseId = l.scopeOf held.leaseId := by
  simp only [scopeOf, recordScoped, record]
  rw [AList.lookup_insert_ne hne, Lib.lookup_retain_keep]
  intro _ _
  simp only [List.mem_map, List.mem_filter, decide_eq_true_eq]
  exact ⟨held, ⟨hin, hlive⟩, rfl⟩

/-- Recording a fresh lease adds its own amount to what was already committed. -/
theorem promised_record_le {lease : Lease} {peer : PeerId} {scope : LendScope} {window : Window}
    {recordMs committedMs nowMs : Int} (hfresh : ∀ held ∈ l.leases, held.leaseId ≠ lease.leaseId)
    (hle : committedMs ≤ nowMs) :
    (l.recordScoped lease peer scope recordMs).promised scope window lease.leaseId nowMs ≤
      l.committedFraction scope window committedMs + unspent lease := by
  set l' := l.recordScoped lease peer scope recordMs with hl'
  have hleases : l'.leases =
      (l.leases.filter fun held => decide (recordMs < held.expiresAtMs)) ++ [lease] := rfl
  have hkept : ((l.leases.filter fun held => decide (recordMs < held.expiresAtMs)).filter
        (fun held => decide (nowMs < held.expiresAtMs) && decide (held.window = window) &&
          (scopesOverlap scope (l'.scopeOf held.leaseId) ||
            decide (held.leaseId = lease.leaseId)))).Sublist
      (l.leases.filter fun held => decide (committedMs < held.expiresAtMs) &&
        decide (held.window = window) && scopesOverlap scope (l.scopeOf held.leaseId)) := by
    rw [List.filter_congr (q := fun held => decide (nowMs < held.expiresAtMs) &&
      decide (held.window = window) && scopesOverlap scope (l.scopeOf held.leaseId)),
      List.filter_filter]
    · refine List.monotone_filter_right _ fun held h => ?_
      simp only [Bool.and_eq_true, decide_eq_true_eq] at h ⊢
      exact ⟨⟨hle.trans_lt h.1.1.1, h.1.1.2⟩, h.1.2⟩
    · intro held hin
      simp only [List.mem_filter, decide_eq_true_eq] at hin
      rw [hl', record_scoped_scope_of hin.1 hin.2 (hfresh held hin.1),
        decide_eq_false (hfresh held hin.1), Bool.or_false]
  have hnonneg : ∀ leases : List Lease, ∀ x ∈ leases.map unspent, 0 ≤ x := by
    intro leases x hx
    obtain ⟨held, -, rfl⟩ := List.mem_map.mp hx
    exact unspent_nonneg held
  rw [promised, hleases, List.filter_append, List.map_append, List.sum_append, committedFraction]
  refine add_le_add ((hkept.map unspent).sum_le_sum (hnonneg _)) ?_
  rw [List.filter_cons]
  split
  · simp
  · simpa using unspent_nonneg lease

/-- What is lendable fits in the headroom next to what is committed, if it is anything at all. -/
theorem lendable_le (c : GrantCall) (h : 0 < l.lendable c) :
    l.committedFraction c.scope c.ask.window c.capMs + l.lendable c ≤
      (l.headroomFor c.scope c.ask.window).getD 0 := by
  have hroom : l.lendable c ≤ max ((l.headroomFor c.scope c.ask.window).getD 0 -
      l.committedFraction c.scope c.ask.window c.capMs) 0 := by
    unfold lendable
    simp only
    split
    · cases c.fleet.lendableByHand c.scope c.ask.window with
      | none => exact le_rfl
      | some handable => exact min_le_left _ _
    · exact le_rfl
  rcases le_max_iff.mp hroom with hle | hle
  · linarith
  · exact absurd hle (not_le.mpr h)

end Ledger

/-- After a grant the unexpired promises that overlap its scope fit in the headroom it read, and
scopes that draw from one account overlap. -/
theorem grant_within_headroom :
    (∀ (l : Ledger) (c : GrantCall) (lease : Lease) (nowMs : Int),
      (l.grant c).1.answer.lease = some lease →
      (∀ held ∈ l.leases, held.leaseId ≠ lease.leaseId) → c.capMs ≤ nowMs →
      (l.grant c).2.promised (l.grant c).1.scope lease.window lease.leaseId nowMs ≤
        ((l.measured c).headroomFor (l.grant c).1.scope lease.window).getD 0) ∧
    ∀ (a b : LendScope) (label : String) (groups : List String),
      scopeCovers a label groups = true → scopeCovers b label groups = true →
      scopesOverlap a b = true ∧ scopesOverlap b a = true := by
  refine ⟨fun l c lease nowMs hmint hfresh hle => ?_, fun a b label groups ha hb =>
    ⟨covered_scopes_overlap ha hb, covered_scopes_overlap hb ha⟩⟩
  rcases l.grant_cases c with ⟨hnone, -⟩ | ⟨minted, hminted, -, hscope, hwin, hspent,
    ⟨amount, hunit, hmin, hmax⟩, hl⟩
  · rw [hmint] at hnone
    cases hnone
  rw [hmint] at hminted
  cases hminted
  have hpos : 0 < amount := min_debit_pos.trans_le hmin
  have hunspent : Ledger.unspent lease = amount := by
    simp [Ledger.unspent, hunit, hspent, hpos.le]
  rw [hl, hscope, hwin]
  calc ((l.measured c).recordScoped lease c.peer c.scope c.recordMs).promised c.scope c.ask.window
        lease.leaseId nowMs
      ≤ (l.measured c).committedFraction c.scope c.ask.window c.capMs + Ledger.unspent lease :=
        Ledger.promised_record_le (by simpa using hfresh) hle
    _ ≤ (l.measured c).committedFraction c.scope c.ask.window c.capMs +
          (l.measured c).lendable c := by rw [hunspent]; exact add_le_add_right hmax _
    _ ≤ ((l.measured c).headroomFor c.scope c.ask.window).getD 0 :=
        Ledger.lendable_le c (hpos.trans_le hmax)

/-- The second peer's ask while the first lease is live. -/
def earlyGrant : GrantCall :=
  { laterGrant with
    capMs := 10
    pickMs := 10
    scheduleNow := 10000000
    clampMs := 10
    recordMs := 10 }

/-- The new lease and the live one over the same accounts fit in the half that is left. -/
theorem second_grant_fits :
    ∃ lease, (shortRun.ledger.grant earlyGrant).1.answer.lease = some lease ∧
      (shortRun.ledger.grant earlyGrant).2.promised .all .sevenDay lease.leaseId 20 ≤ 1 / 2 := by
  obtain ⟨lease, hmint⟩ : ∃ lease,
      (shortRun.ledger.grant earlyGrant).1.answer.lease = some lease :=
    Option.isSome_iff_exists.mp (by decide +kernel)
  have hlease : lease.leaseId = 2 ∧ lease.window = .sevenDay := by
    have hall : (shortRun.ledger.grant earlyGrant).1.answer.lease.all (fun lease =>
        decide (lease.leaseId = 2 ∧ lease.window = .sevenDay)) = true := by decide +kernel
    rw [hmint] at hall
    simpa using hall
  have hscope : (shortRun.ledger.grant earlyGrant).1.scope = .all := by decide +kernel
  have hroom : ((shortRun.ledger.measured earlyGrant).headroomFor .all .sevenDay).getD 0 = 1 / 2 := by
    decide +kernel
  have hfresh : ∀ held ∈ shortRun.ledger.leases, held.leaseId ≠ 2 := by decide +kernel
  have hfits := grant_within_headroom.1 shortRun.ledger earlyGrant lease 20 hmint
    (hlease.1 ▸ hfresh) (by decide)
  rw [hscope, hlease.2, hroom] at hfits
  exact ⟨lease, hmint, hfits⟩

end TeamClaude
