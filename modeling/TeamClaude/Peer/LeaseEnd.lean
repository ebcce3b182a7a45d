import TeamClaude.Peer.Tunnel
import TeamClaude.Peer.Headroom

/-!
# The end of a lease

When a lease stops being one. The borrower asks for the instant it ends at, the handoff asks whether
it has ended, and the ledger asks before every relay; the figures a new grant is cut from ask
something else.
-/

namespace TeamClaude

/-! ## Three spellings of the end -/

/-- `i64::try_from(until_s.saturating_mul(1_000)).ok()` -/
def untilMs (untilS : Nat) : Option Int :=
  let ms : Int := min (untilS * 1000) u64Max
  if ms ≤ i64Max then some ms else none

def leaseEndsAtMs (lease : Lease) : Int :=
  match lease.until_.bind untilMs with
  | some untilMs => min lease.expiresAtMs untilMs
  | none => lease.expiresAtMs

def leaseHasEnded (lease : Lease) (nowMs : Int) : Bool :=
  if lease.expiresAtMs ≤ nowMs then true
  else lease.until_.any fun untilS => (untilMs untilS).any fun endMs => decide (endMs ≤ nowMs)

/-- On a clock of milliseconds an end that fits is reached when its second is. -/
theorem until_ms_reached {nowMs : Int} (h : 0 ≤ nowMs) (hmax : nowMs ≤ i64Max) (untilS : Nat) :
    ((untilMs untilS).any fun endMs => decide (endMs ≤ nowMs)) =
      decide (untilS ≤ secondsOf nowMs) := by
  have hfloor : (untilS : Int) * 1000 ≤ nowMs ↔ untilS ≤ secondsOf nowMs := by
    unfold secondsOf
    omega
  have hrange : i64Max < (u64Max : Int) := by decide
  rw [Bool.eq_iff_iff, decide_eq_true_eq, ← hfloor]
  unfold untilMs
  simp only
  split
  · rename_i hfit
    rw [Option.any_some, decide_eq_true_eq]
    omega
  · rename_i hlarge
    rw [Option.any_none]
    simp only [Bool.false_eq_true, false_iff]
    omega

theorem lease_has_ended_iff (lease : Lease) (nowMs : Int) :
    leaseHasEnded lease nowMs = true ↔ leaseEndsAtMs lease ≤ nowMs := by
  unfold leaseHasEnded leaseEndsAtMs
  cases lease.until_ with
  | none => simp
  | some untilS =>
    rw [Option.bind_some, Option.any_some]
    cases untilMs untilS with
    | none => simp
    | some endMs =>
      simp only [Option.any_some]
      split
      · rename_i hexp
        simpa using Or.inl hexp
      · rename_i hexp
        rw [decide_eq_true_eq, min_le_iff]
        exact ⟨Or.inr, fun h => h.resolve_left hexp⟩

namespace Ledger

variable {l : Ledger} {leaseId : LeaseId} {lease : Lease} {nowMs : Int}

/-- The ledger refuses a lease as expired at its deadline or at the end of the lending. -/
theorem may_relay_expired_iff (h : l.lease? leaseId = some lease) :
    l.mayRelay leaseId nowMs = .error .leaseExpired ↔ lease.expiresAtMs ≤ nowMs ∨
      (lease.until_.any fun untilS => decide (untilS ≤ secondsOf nowMs)) = true := by
  unfold mayRelay
  rw [h]
  simp only
  split
  · rename_i hexp
    simp [hexp]
  rename_i hexp
  split
  · rename_i hend
    simp [hend]
  rename_i hend
  simp only [hexp, hend]
  split
  · simp
  split
  · simp
  split <;> simp

end Ledger

/-- At every instant from the epoch on the three agree, whatever the deadline and the end. -/
theorem lease_end_spellings_agree (l : Ledger) (lease : Lease) (nowMs : Int) (h : 0 ≤ nowMs)
    (hmax : nowMs ≤ i64Max) (hrow : l.lease? lease.leaseId = some lease) :
    (leaseHasEnded lease nowMs = true ↔ leaseEndsAtMs lease ≤ nowMs) ∧
      (leaseHasEnded lease nowMs = true ↔
        l.mayRelay lease.leaseId nowMs = .error .leaseExpired) := by
  refine ⟨lease_has_ended_iff lease nowMs, ?_⟩
  rw [Ledger.may_relay_expired_iff hrow]
  unfold leaseHasEnded
  simp only [until_ms_reached h hmax]
  split
  · rename_i hexp
    simp [hexp]
  · rename_i hexp
    simp only [hexp, false_or]

/-- A lease whose lending ends at the tenth second, long before its deadline. -/
def endingLease : Lease :=
  { shortLease with expiresAtMs := 300000, until_ := some 10 }

theorem ending_lease_agrees :
    (leaseHasEnded endingLease 9999 = true ↔ leaseEndsAtMs endingLease ≤ 9999) ∧
      (leaseHasEnded endingLease 9999 = true ↔
        (({} : Ledger).recordScoped endingLease 7 .all 0).mayRelay 1 9999 = .error .leaseExpired) :=
  lease_end_spellings_agree _ endingLease 9999 (by decide) (by decide) (by decide +kernel)

/-! ## What a lease holds -/

/-- The end of the lending has passed, or the budget is spent. -/
def Lease.stopped (lease : Lease) (nowMs : Int) : Bool :=
  (lease.until_.any fun untilS => decide (untilS ≤ secondsOf nowMs)) ||
    (fractionBudget lease.unit).any fun budget => decide (budget ≤ lease.spent)

namespace Ledger

variable {l : Ledger} {leaseId : LeaseId} {lease : Lease} {nowMs : Int}

def without (l : Ledger) (leaseId : LeaseId) : Ledger :=
  { l with leases := l.leases.eraseP fun lease => decide (lease.leaseId = leaseId) }

/-- A lease adds nothing to what is promised on any scope, nor to the count of any peer. -/
structure HoldsNothing (l : Ledger) (leaseId : LeaseId) (nowMs : Int) : Prop where
  committed : ∀ scope window,
    l.committedFraction scope window nowMs =
      (l.without leaseId).committedFraction scope window nowMs
  counted : ∀ peer, l.liveFor peer nowMs = (l.without leaseId).liveFor peer nowMs

def Unspendable (l : Ledger) (leaseId : LeaseId) (nowMs : Int) : Prop :=
  l.mayRelay leaseId nowMs = .error .leaseExpired ∨ l.mayRelay leaseId nowMs = .error .leaseSpent

theorem may_relay_spent_iff (h : l.lease? leaseId = some lease)
    (hlive : ¬l.mayRelay leaseId nowMs = .error .leaseExpired) :
    l.mayRelay leaseId nowMs = .error .leaseSpent ↔
      ((fractionBudget lease.unit).any fun budget => decide (budget ≤ lease.spent)) = true := by
  rw [may_relay_expired_iff h, not_or] at hlive
  unfold mayRelay
  rw [h]
  simp only [if_neg hlive.1, if_neg hlive.2]
  cases fractionBudget lease.unit with
  | none => simp
  | some budget =>
    simp only [Option.any_some, decide_eq_true_eq]
    split
    · rename_i hspent
      simp [hspent]
    · rename_i hleft
      split <;> simp [hleft]

theorem unspendable_iff (h : l.lease? leaseId = some lease) :
    l.Unspendable leaseId nowMs ↔ lease.expiresAtMs ≤ nowMs ∨ lease.stopped nowMs = true := by
  unfold Unspendable
  rw [Lease.stopped, Bool.or_eq_true, ← or_assoc, ← may_relay_expired_iff h]
  by_cases hlive : l.mayRelay leaseId nowMs = .error .leaseExpired
  · simp [hlive]
  · rw [may_relay_spent_iff h hlive]

theorem lease_split (h : l.lease? leaseId = some lease) :
    ∃ before after, l.leases = before ++ lease :: after ∧
      (l.without leaseId).leases = before ++ after ∧ lease.leaseId = leaseId := by
  obtain ⟨hid, before, after, hleases, hbefore⟩ := List.find?_eq_some_iff_append.mp h
  refine ⟨before, after, hleases, ?_, of_decide_eq_true hid⟩
  have hnot : ∀ held ∈ before, ¬decide (held.leaseId = leaseId) = true := by simpa using hbefore
  simp only [without, hleases]
  rw [List.eraseP_append_right _ hnot, List.eraseP_cons, hid]
  rfl

/-- A lease adds what is left of it to the promises, whatever it may still be spent on. -/
theorem committed_without (h : l.lease? leaseId = some lease) (scope : LendScope)
    (window : Window) (nowMs : Int) :
    l.committedFraction scope window nowMs =
      (l.without leaseId).committedFraction scope window nowMs +
        if nowMs < lease.expiresAtMs ∧ lease.window = window ∧
          scopesOverlap scope (l.scopeOf leaseId) = true then unspent lease else 0 := by
  obtain ⟨before, after, hleases, hrest, hid⟩ := lease_split h
  have hscope : ∀ id, (l.without leaseId).scopeOf id = l.scopeOf id := fun _ => rfl
  simp only [committedFraction, hscope, hleases, hrest, List.filter_append, List.map_append,
    List.sum_append, List.filter_cons, hid, Bool.and_eq_true, decide_eq_true_eq, and_assoc]
  split
  · rw [List.map_cons, List.sum_cons]
    ring
  · ring

/-- A lease counts for its grantee until its deadline. -/
theorem live_for_without (h : l.lease? leaseId = some lease) (peer : PeerId) (nowMs : Int) :
    l.liveFor peer nowMs = (l.without leaseId).liveFor peer nowMs +
      if nowMs < lease.expiresAtMs ∧ l.grantees.lookup leaseId = some peer then 1 else 0 := by
  obtain ⟨before, after, hleases, hrest, hid⟩ := lease_split h
  subst hid
  have hgrantees : (l.without lease.leaseId).grantees = l.grantees := rfl
  simp only [liveFor, hgrantees, hleases, hrest, List.countP_append, List.countP_cons,
    Bool.and_eq_true, decide_eq_true_eq]
  omega

/-- A lease holds nothing once its deadline has passed; before that only a lease no peer was
recorded for, with nothing left on it, does. -/
theorem holds_nothing_iff (h : l.lease? leaseId = some lease) :
    l.HoldsNothing leaseId nowMs ↔ lease.expiresAtMs ≤ nowMs ∨
      (l.grantees.lookup leaseId = none ∧ unspent lease = 0) := by
  constructor
  · intro hnone
    by_cases hexp : lease.expiresAtMs ≤ nowMs
    · exact .inl hexp
    have hlive : nowMs < lease.expiresAtMs := not_le.mp hexp
    refine .inr ⟨?_, ?_⟩
    · by_contra hsome
      obtain ⟨peer, hpeer⟩ := Option.ne_none_iff_exists'.mp hsome
      have hcount := live_for_without h peer nowMs
      rw [hnone.counted peer, if_pos ⟨hlive, hpeer⟩] at hcount
      omega
    · have hsum := committed_without h .all lease.window nowMs
      rw [hnone.committed .all lease.window, if_pos ⟨hlive, rfl, rfl⟩] at hsum
      linarith
  · rintro (hexp | ⟨hpeer, hleft⟩)
    · refine ⟨fun scope window => ?_, fun peer => ?_⟩
      · rw [committed_without h, if_neg fun hif => absurd hif.1 (not_lt.mpr hexp), add_zero]
      · rw [live_for_without h, if_neg fun hif => absurd hif.1 (not_lt.mpr hexp), add_zero]
    · refine ⟨fun scope window => ?_, fun peer => ?_⟩
      · rw [committed_without h, hleft, ite_self, add_zero]
      · rw [live_for_without h, if_neg fun hif => by simp [hpeer] at hif, add_zero]

/-- A lease that holds nothing changes no answer of `grant`. -/
theorem holds_nothing_grant {c : GrantCall} (h : l.HoldsNothing leaseId c.capMs) :
    (l.grant c).1 = ((l.without leaseId).grant c).1 := by
  have hmeasured : (l.without leaseId).measured c = (l.measured c).without leaseId := by
    unfold measured
    cases c.fleet.lendable c.scope c.ask.window <;> rfl
  have hpromised : ∀ held : Ledger,
      (held.measured c).committedFraction = held.committedFraction := by
    intro held
    unfold measured
    cases c.fleet.lendable c.scope c.ask.window <;> rfl
  have hroom : ((l.measured c).without leaseId).headroomFor = (l.measured c).headroomFor := rfl
  have hlendable : ((l.without leaseId).measured c).lendable c = (l.measured c).lendable c := by
    simp only [lendable, hpromised, h.committed, hmeasured, hroom]
    rw [← hmeasured, hpromised]
  unfold grant
  rw [h.counted c.peer]
  split
  · rfl
  split
  · rfl
  simp only [hlendable]
  split <;> rfl

end Ledger

/-- An unspendable lease holds nothing exactly when its deadline has passed, its lending runs on and
its budget is not spent, or no peer was recorded for it and nothing is left on it; a lease that
holds nothing changes no answer of `grant`. -/
theorem unspendable_holds_nothing_iff (l : Ledger) (leaseId : LeaseId) (lease : Lease) (nowMs : Int)
    (hrow : l.lease? leaseId = some lease) :
    ((l.Unspendable leaseId nowMs → l.HoldsNothing leaseId nowMs) ↔
      lease.expiresAtMs ≤ nowMs ∨ lease.stopped nowMs = false ∨
        (l.grantees.lookup leaseId = none ∧ Ledger.unspent lease = 0)) ∧
    ∀ c : GrantCall, c.capMs = nowMs → l.HoldsNothing leaseId nowMs →
      (l.grant c).1 = ((l.without leaseId).grant c).1 := by
  refine ⟨?_, fun c hc hnone => Ledger.holds_nothing_grant (hc ▸ hnone)⟩
  rw [Ledger.unspendable_iff hrow, Ledger.holds_nothing_iff hrow, ← Bool.not_eq_true]
  tauto

/-- The second peer is granted a hundredth of the week and spends it in one request. -/
def spendLease (id : LeaseId) (l : Ledger) : Ledger :=
  ((l.grant { earlyGrant with
    ask := { earlyGrant.ask with unit := .fraction (1 / 100) }, randomId := some id }).2.debit
      id 5 (1 / 100) 10).2

/-- The second peer is granted a tenth of the week, lent until the first second. -/
def endedLedger : Ledger :=
  (({} : Ledger).grant { earlyGrant with
    row := some { inspect := true, lend :=
      [{ window := .sevenDay, fraction := 1 / 2, ttlS := 300, maxInflight := 1,
         until_ := some 1 }] }
  }).2

/-- A lease that is spent counts against its peer, and after eight of them, with nothing left on
any, the next ask is refused for their number; one whose lending is over still takes its part off
what is lendable. -/
theorem unspendable_lease_holds :
    ((spendLease 2 {}).Unspendable 2 20 ∧ ¬(spendLease 2 {}).HoldsNothing 2 20 ∧
      (([2, 3, 4, 5, 6, 7, 8, 9].foldr spendLease {}).grant
        { earlyGrant with capMs := 20 }).1.answer.refusal = some .tooManyLeases) ∧
    endedLedger.Unspendable 2 1000 ∧ ¬endedLedger.HoldsNothing 2 1000 ∧
      endedLedger.committedFraction .all .sevenDay 1000 = 1 / 10 := by
  have hspent : (spendLease 2 {}).liveFor 8 20 ≠ ((spendLease 2 {}).without 2).liveFor 8 20 := by
    decide +kernel
  have hended : endedLedger.liveFor 8 1000 ≠ (endedLedger.without 2).liveFor 8 1000 := by
    decide +kernel
  refine ⟨⟨.inr (by decide +kernel), fun h => hspent (h.counted 8), by decide +kernel⟩,
    .inl (by decide +kernel), fun h => hended (h.counted 8), by decide +kernel⟩

/-- The spent lease of the second peer, at its deadline. -/
theorem spent_lease_expires : (spendLease 2 {}).HoldsNothing 2 300010 := by
  obtain ⟨lease, hlease⟩ := Option.isSome_iff_exists.mp
    (show ((spendLease 2 {}).lease? 2).isSome = true by decide +kernel)
  have hexp : ((spendLease 2 {}).lease? 2).all (fun lease => decide (lease.expiresAtMs ≤ 300010)) =
      true := by decide +kernel
  rw [hlease, Option.all_some, decide_eq_true_eq] at hexp
  exact (unspendable_holds_nothing_iff _ 2 lease 300010 hlease).1.mpr (.inl hexp)
    (.inl ((Ledger.may_relay_expired_iff hlease).mpr (.inl hexp)))

end TeamClaude
