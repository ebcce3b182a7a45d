import TeamClaude.Lib.Escrow
import TeamClaude.Lib.Exec
import TeamClaude.Peer.Ledger
import Mathlib.Algebra.Order.Ring.Rat

/-!
# The overdraft of a lease

Admission reads what a lease has spent before the requests in flight are charged. The slots bound
how far that can go: in every run the requests in flight are counted while the ledger holds the
lease, and what is spent stays below the budget plus one rise for each slot.
-/

namespace TeamClaude

namespace Ledger

def rowsOf (l : Ledger) (id : LeaseId) : List Lease :=
  l.leases.filter fun lease => decide (lease.leaseId = id)

variable {l : Ledger} {id leaseId : LeaseId}

theorem lease_eq_head (l : Ledger) (id : LeaseId) : l.lease? id = (l.rowsOf id).head? :=
  List.head?_filter.symm

/-! ## What each operation does to a lease -/

/-- Entering a request takes a slot or leaves rows and slots alone. -/
theorem enter_relay_cases (l : Ledger) (leaseId : LeaseId) (peer : PeerId) (requestId : RequestId)
    (nowMs : Int) :
    (∃ refusal, (l.enterRelay leaseId peer requestId nowMs).1 = .error refusal ∧
      (l.enterRelay leaseId peer requestId nowMs).2.leases = l.leases ∧
      (l.enterRelay leaseId peer requestId nowMs).2.inflight = l.inflight) ∨
    ((l.enterRelay leaseId peer requestId nowMs).1 = .ok () ∧
      l.mayRelay leaseId nowMs = .ok () ∧
      l.inflightOf leaseId < ((l.lease? leaseId).map Lease.maxInflight).getD 0 ∧
      (l.enterRelay leaseId peer requestId nowMs).2.leases = l.leases ∧
      (l.enterRelay leaseId peer requestId nowMs).2.inflight =
        l.inflight.insert leaseId (l.inflightOf leaseId + 1)) := by
  unfold enterRelay
  split
  · exact Or.inl ⟨_, rfl, rfl, rfl⟩
  split
  · exact Or.inl ⟨_, rfl, rfl, rfl⟩
  rename_i hmay
  simp only
  split
  · exact Or.inl ⟨_, rfl, rfl, rfl⟩
  split
  · exact Or.inl ⟨_, rfl, rfl, rfl⟩
  · rename_i hcap
    exact Or.inr ⟨rfl, hmay, not_le.mp hcap, rfl, rfl⟩

/-- A relay is allowed only on a row with budget left. -/
theorem may_relay_row {nowMs : Int} (h : l.mayRelay id nowMs = .ok ()) :
    ∃ lease budget, l.lease? id = some lease ∧ lease.unit = .fraction budget ∧
      lease.spent < budget := by
  unfold mayRelay at h
  split at h
  · cases h
  rename_i lease hrow
  split at h
  · cases h
  split at h
  · cases h
  split at h
  · cases h
  rename_i budget hbudget
  split at h
  · cases h
  rename_i hspent
  refine ⟨lease, budget, hrow, ?_, not_le.mp hspent⟩
  cases hu : lease.unit with
  | fraction amount =>
    rw [hu] at hbudget
    rw [Option.some.inj hbudget]
  | tokens amount => rw [hu] at hbudget; cases hbudget
  | unknown => rw [hu] at hbudget; cases hbudget

theorem inflight_insert (l : Ledger) (leaseId id : LeaseId) (n : Nat) :
    ({ l with inflight := l.inflight.insert leaseId n } : Ledger).inflightOf id =
      if id = leaseId then n else l.inflightOf id := by
  by_cases h : id = leaseId
  · subst h
    simp [inflightOf, AList.lookup_insert]
  · simp [inflightOf, AList.lookup_insert_ne h, h]

@[simp] theorem leave_relay_leases (l : Ledger) (leaseId : LeaseId) :
    (l.leaveRelay leaseId).leases = l.leases := by
  unfold leaveRelay
  split
  · rfl
  · split <;> rfl

/-- A release gives one slot of its own lease back. -/
theorem leave_relay_inflight (l : Ledger) (leaseId id : LeaseId) :
    (l.leaveRelay leaseId).inflightOf id =
      if id = leaseId then l.inflightOf id - 1 else l.inflightOf id := by
  unfold leaveRelay
  split
  · rename_i hnone
    by_cases h : id = leaseId
    · subst h
      simp [inflightOf, hnone]
    · simp [h]
  rename_i inFlight hsome
  split
  · rename_i hzero
    by_cases h : id = leaseId
    · subst h
      simp [inflightOf, AList.lookup_erase, hsome, hzero]
    · simp [inflightOf, AList.lookup_erase_ne h, h]
  · rw [inflight_insert]
    by_cases h : id = leaseId
    · subst h
      simp [inflightOf, hsome]
    · simp [h]

theorem add_spent_filter_ne (h : leaseId ≠ id) (charge : ℚ) (leases : List Lease) :
    (addSpent leaseId charge leases).filter (fun lease => decide (lease.leaseId = id)) =
      leases.filter fun lease => decide (lease.leaseId = id) := by
  induction leases with
  | nil => rfl
  | cons lease rest ih =>
    simp only [addSpent]
    split
    · rename_i hid
      simp [hid, h]
    · simp only [List.filter_cons, ih]

theorem add_spent_filter_self (charge : ℚ) {leases : List Lease} {lease : Lease}
    (h : leases.filter (fun lease => decide (lease.leaseId = id)) = [lease]) :
    (addSpent id charge leases).filter (fun lease => decide (lease.leaseId = id)) =
      [{ lease with spent := lease.spent + charge }] := by
  induction leases with
  | nil => cases h
  | cons row rest ih =>
    simp only [addSpent]
    by_cases hid : row.leaseId = id
    · simp only [hid, List.filter_cons, decide_true, if_true, List.cons.injEq] at h ⊢
      obtain ⟨rfl, hrest⟩ := h
      subst hid
      exact ⟨rfl, hrest⟩
    · simp only [hid, List.filter_cons, decide_false, Bool.false_eq_true, if_false] at h ⊢
      exact ih h

@[simp] theorem debit_inflight (l : Ledger) (leaseId : LeaseId) (requestId : RequestId)
    (rise : ℚ) (nowMs : Int) :
    (l.debit leaseId requestId rise nowMs).2.inflight = l.inflight := by
  unfold debit
  simp only
  split
  · rfl
  · split <;> rfl

theorem debit_rows_ne (h : leaseId ≠ id) (requestId : RequestId) (rise : ℚ) (nowMs : Int) :
    (l.debit leaseId requestId rise nowMs).2.rowsOf id = l.rowsOf id := by
  unfold debit
  simp only
  split
  · rfl
  · split
    · exact add_spent_filter_ne h _ _
    · rfl

/-- A charge is at most the rise it was made for, once that is at least the least charge. -/
theorem debit_le {rise bound : ℚ} (hr : rise ≤ bound) (hb : minDebit ≤ bound) (l : Ledger)
    (leaseId : LeaseId) (requestId : RequestId) (nowMs : Int) :
    (l.debit leaseId requestId rise nowMs).1 ≤ bound := by
  have hpos : (0 : ℚ) ≤ bound := min_debit_pos.le.trans hb
  unfold debit
  simp only
  split
  · exact hpos
  · split
    · show (if minDebit < rise then rise else minDebit) ≤ bound
      split
      · exact hr
      · exact hb
    · exact hpos

theorem debit_rows_self {lease : Lease} (h : l.rowsOf id = [lease]) (requestId : RequestId)
    (rise : ℚ) (nowMs : Int) : (l.debit id requestId rise nowMs).2.rowsOf id =
      [{ lease with spent := lease.spent + (l.debit id requestId rise nowMs).1 }] := by
  have hsome : (l.lease? id).isSome = true := by rw [lease_eq_head, h]; rfl
  unfold debit
  simp only
  split
  · simpa [rowsOf] using h
  · have hrow : ({ l with pairs := (l.pairs.markCharged id requestId nowMs).2 } :
        Ledger).lease? id = l.lease? id := rfl
    rw [hrow, if_pos hsome]
    exact add_spent_filter_self _ h

theorem debit_rows_nil (h : l.rowsOf id = []) (requestId : RequestId) (rise : ℚ) (nowMs : Int) :
    (l.debit id requestId rise nowMs).2.rowsOf id = [] := by
  have hnone : (l.lease? id).isSome = false := by rw [lease_eq_head, h]; rfl
  unfold debit
  simp only
  split
  · exact h
  · have hrow : ({ l with pairs := (l.pairs.markCharged id requestId nowMs).2 } :
        Ledger).lease? id = l.lease? id := rfl
    rw [hrow, hnone]
    exact h

theorem usage_hint_rows_ne (h : leaseId ≠ id) (hinted : ℚ) :
    (l.applyUsageHint leaseId hinted).2.rowsOf id = l.rowsOf id := by
  unfold applyUsageHint
  split
  · rfl
  split
  · exact add_spent_filter_ne h _ _
  · rfl

theorem usage_hint_inflight (l : Ledger) (leaseId : LeaseId) (hinted : ℚ) :
    (l.applyUsageHint leaseId hinted).2.inflight = l.inflight := by
  unfold applyUsageHint
  split
  · rfl
  · split <;> rfl

theorem record_rows (l : Ledger) (lease : Lease) (nowMs : Int) (id : LeaseId) :
    (l.record lease nowMs).rowsOf id =
      ((l.rowsOf id).filter fun held => decide (nowMs < held.expiresAtMs)) ++
        if lease.leaseId = id then [lease] else [] := by
  simp only [record, rowsOf, List.filter_append, List.filter_filter, List.filter_cons,
    List.filter_nil, decide_eq_true_eq]
  congr 1
  exact List.filter_congr fun held _ => Bool.and_comm _ _

/-- The slots of a lease go with its last row. -/
theorem record_inflight (l : Ledger) (lease : Lease) (nowMs : Int) (id : LeaseId) :
    (l.record lease nowMs).inflightOf id =
      if ((l.rowsOf id).filter fun held => decide (nowMs < held.expiresAtMs)) = [] then 0
      else l.inflightOf id := by
  have hmem : id ∈ (l.leases.filter fun held => decide (nowMs < held.expiresAtMs)).map
      Lease.leaseId ↔
      ((l.rowsOf id).filter fun held => decide (nowMs < held.expiresAtMs)) ≠ [] := by
    simp only [rowsOf, List.mem_map, List.mem_filter, decide_eq_true_eq, ne_eq,
      List.filter_eq_nil_iff, not_forall]
    constructor
    · rintro ⟨held, ⟨hin, hlive⟩, hid⟩
      exact ⟨held, ⟨hin, hid⟩, not_not.mpr hlive⟩
    · rintro ⟨held, ⟨hin, hid⟩, hlive⟩
      exact ⟨held, ⟨hin, not_not.mp hlive⟩, hid⟩
  simp only [record, inflightOf]
  split
  · rename_i hnil
    cases hn : l.inflight.lookup id with
    | none =>
      rw [Lib.lookup_retain_keep (by simp [hn]), hn]
      rfl
    | some n =>
      rw [Lib.lookup_retain_drop hn (decide_eq_false fun h => hmem.mp h hnil)]
      rfl
  · rename_i hne
    rw [Lib.lookup_retain_keep fun _ _ => decide_eq_true (hmem.mpr hne)]

theorem record_scoped_rows (l : Ledger) (lease : Lease) (peer : PeerId) (scope : LendScope)
    (nowMs : Int) (id : LeaseId) :
    (l.recordScoped lease peer scope nowMs).rowsOf id = (l.record lease nowMs).rowsOf id := rfl

theorem record_scoped_inflight (l : Ledger) (lease : Lease) (peer : PeerId) (scope : LendScope)
    (nowMs : Int) (id : LeaseId) :
    (l.recordScoped lease peer scope nowMs).inflightOf id =
      (l.record lease nowMs).inflightOf id := rfl

theorem clamp_to_grant_lease {ask : LeaseRequest} {granted : Option LendGrant} {inspect : Bool}
    {lendable : ℚ} {nowMs : Int} {finish : Option Nat} {closeMs : Option Int} {lease : Lease}
    (h : (clampToGrant ask granted inspect lendable nowMs leaseId finish closeMs).lease =
      some lease) :
    lease.leaseId = leaseId ∧ lease.window = ask.window ∧ lease.spent = 0 ∧
      ∃ amount, lease.unit = .fraction amount ∧ minDebit ≤ amount ∧ amount ≤ lendable := by
  obtain ⟨wanted, grant, -, -, -, -, hamount, -, rfl⟩ := clamp_to_grant_some h
  exact ⟨rfl, rfl, rfl, _, rfl, hamount, min_le_right _ _⟩

@[simp] theorem measured_leases (l : Ledger) (c : GrantCall) : (l.measured c).leases = l.leases := by
  unfold measured
  split <;> rfl

@[simp] theorem measured_inflight (l : Ledger) (c : GrantCall) :
    (l.measured c).inflight = l.inflight := by
  unfold measured
  split <;> rfl

/-- A grant measures and records at most one lease, under the id it was given. -/
theorem grant_cases (l : Ledger) (c : GrantCall) :
    ((l.grant c).1.answer.lease = none ∧ ((l.grant c).2 = l ∨ (l.grant c).2 = l.measured c)) ∨
    ∃ lease, (l.grant c).1.answer.lease = some lease ∧ c.randomId = some lease.leaseId ∧
      (l.grant c).1.scope = c.scope ∧ lease.window = c.ask.window ∧ lease.spent = 0 ∧
      (∃ amount, lease.unit = .fraction amount ∧ minDebit ≤ amount ∧
        amount ≤ (l.measured c).lendable c) ∧
      (l.grant c).2 = (l.measured c).recordScoped lease c.peer c.scope c.recordMs := by
  unfold grant
  split
  · exact Or.inl ⟨rfl, Or.inl rfl⟩
  split
  · exact Or.inl ⟨rfl, Or.inl rfl⟩
  simp only
  split
  · exact Or.inl ⟨rfl, Or.inr rfl⟩
  rename_i leaseId hid
  simp only
  generalize hclamp : clampToGrant c.ask c.granted (c.row.any PeerRow.inspect)
    ((l.measured c).lendable c) c.clampMs leaseId (c.granted.bind LendGrant.until_)
    (c.schedule.bind fun schedule => schedule.closesAtMs c.offset c.scheduleNow) = answer
  cases hl : answer.lease with
  | none => exact Or.inl ⟨rfl, Or.inr rfl⟩
  | some lease =>
    obtain ⟨hlid, hwin, hspent, hamount⟩ := clamp_to_grant_lease (hclamp ▸ hl)
    exact Or.inr ⟨lease, rfl, by rw [hid, hlid], trivial, hwin, hspent, hamount, rfl⟩

end Ledger

/-! ## Runs -/

/-- One operation on the ledger, with the request a release is for. -/
inductive LedgerOp
  | enter (leaseId : LeaseId) (peer : PeerId) (requestId : RequestId) (nowMs : Int)
  | leave (leaseId : LeaseId) (requestId : RequestId)
  | settle (leaseId : LeaseId) (requestId : RequestId) (observedRise : ℚ) (nowMs : Int)
  | debit (leaseId : LeaseId) (requestId : RequestId) (observedRise : ℚ) (nowMs : Int)
  | usageHint (leaseId : LeaseId) (hinted : ℚ)
  | noteHeadroom (scope : LendScope) (window : Window) (fraction : ℚ)
  | record (lease : Lease) (nowMs : Int)
  | recordScoped (lease : Lease) (peer : PeerId) (scope : LendScope) (nowMs : Int)
  | grant (call : GrantCall)

/-- The ledger after an operation. A settlement releases the slot and debits under one lock. -/
def LedgerOp.apply (l : Ledger) : LedgerOp → Ledger
  | enter leaseId peer requestId nowMs => (l.enterRelay leaseId peer requestId nowMs).2
  | leave leaseId _ => l.leaveRelay leaseId
  | settle leaseId requestId observedRise nowMs =>
    ((l.leaveRelay leaseId).debit leaseId requestId observedRise nowMs).2
  | debit leaseId requestId observedRise nowMs => (l.debit leaseId requestId observedRise nowMs).2
  | usageHint leaseId hinted => (l.applyUsageHint leaseId hinted).2
  | noteHeadroom scope window fraction => l.noteScopeHeadroom scope window fraction
  | record lease nowMs => l.record lease nowMs
  | recordScoped lease peer scope nowMs => l.recordScoped lease peer scope nowMs
  | grant call => (l.grant call).2

/-- The ledger with the requests admitted on one lease and not yet released. -/
structure Watched where
  ledger : Ledger
  outstanding : List RequestId

namespace Watched

/-- What an operation does to the requests outstanding on `id`. -/
def track (id : LeaseId) (s : Watched) : LedgerOp → List RequestId
  | .enter leaseId peer requestId nowMs =>
    if leaseId = id ∧ (s.ledger.enterRelay leaseId peer requestId nowMs).1.isOk then
      requestId :: s.outstanding
    else s.outstanding
  | .leave leaseId requestId | .settle leaseId requestId _ _ =>
    if leaseId = id then s.outstanding.erase requestId else s.outstanding
  | _ => s.outstanding

def step (id : LeaseId) (s : Watched) (op : LedgerOp) : Watched :=
  { ledger := op.apply s.ledger, outstanding := s.track id op }

/-- A release on `id` is of an outstanding request and sees a rise of at most `rise`; nothing else
charges the lease or records its id again. -/
def Legal (id : LeaseId) (rise : ℚ) (s : Watched) : LedgerOp → Prop
  | .enter _ _ _ _ => True
  | .leave leaseId requestId => leaseId = id → requestId ∈ s.outstanding
  | .settle leaseId requestId observedRise _ =>
    leaseId = id → requestId ∈ s.outstanding ∧ observedRise ≤ rise
  | .debit leaseId _ _ _ => leaseId ≠ id
  | .usageHint leaseId _ => leaseId ≠ id
  | .noteHeadroom _ _ _ => True
  | .record lease _ => lease.leaseId ≠ id
  | .recordScoped lease _ _ _ => lease.leaseId ≠ id
  | .grant call => call.randomId ≠ some id

/-- While the ledger holds the lease its slots count the outstanding requests and its spend is safe;
once it is dropped it has no slot and takes no request. -/
inductive Accounted (id : LeaseId) (e : Lib.Escrow ℚ) (s : Watched) : Prop
  | held {lease : Lease} (hrow : s.ledger.rowsOf id = [lease])
      (hunit : lease.unit = .fraction e.budget) (hmax : lease.maxInflight = e.limit)
      (hcount : s.ledger.inflightOf id = s.outstanding.length)
      (hsafe : e.Safe lease.spent s.outstanding.length) : Accounted id e s
  | dropped (hrow : s.ledger.rowsOf id = []) (hcount : s.ledger.inflightOf id = 0)
      (hlen : s.outstanding.length ≤ e.limit) : Accounted id e s

variable {id : LeaseId} {e : Lib.Escrow ℚ} {s : Watched}

theorem Accounted.congr (h : Accounted id e s) {l : Ledger} (hrow : l.rowsOf id = s.ledger.rowsOf id)
    (hcount : l.inflightOf id = s.ledger.inflightOf id) :
    Accounted id e { ledger := l, outstanding := s.outstanding } := by
  cases h with
  | held hr hunit hmax hc hsafe => exact .held (hrow.trans hr) hunit hmax (hcount.trans hc) hsafe
  | dropped hr hc hlen => exact .dropped (hrow.trans hr) (hcount.trans hc) hlen

theorem Accounted.record (h : Accounted id e s) {lease : Lease} (hne : lease.leaseId ≠ id)
    (nowMs : Int) :
    Accounted id e { ledger := s.ledger.record lease nowMs, outstanding := s.outstanding } := by
  have hrows := s.ledger.record_rows lease nowMs id
  have hcount := s.ledger.record_inflight lease nowMs id
  rw [if_neg hne, List.append_nil] at hrows
  cases h with
  | @held row hr hunit hmax hc hsafe =>
    rw [hr] at hrows hcount
    by_cases hlive : nowMs < row.expiresAtMs
    · rw [List.filter_cons_of_pos (by simpa using hlive), List.filter_nil] at hrows hcount
      exact .held hrows hunit hmax (hcount.trans hc) hsafe
    · rw [List.filter_cons_of_neg (by simpa using hlive), List.filter_nil] at hrows hcount
      exact .dropped hrows hcount hsafe.within
  | dropped hr hc hlen =>
    rw [hr] at hrows hcount
    exact .dropped hrows hcount hlen

/-- An admission reads a spend below the budget and takes a free slot. -/
theorem Accounted.enter (h : Accounted id e s) (hrise : 0 ≤ e.rise) (leaseId : LeaseId)
    (peer : PeerId) (requestId : RequestId) (nowMs : Int) :
    Accounted id e (s.step id (.enter leaseId peer requestId nowMs)) := by
  rcases s.ledger.enter_relay_cases leaseId peer requestId nowMs with
    ⟨refusal, herr, hleases, hinflight⟩ | ⟨hok, hmay, hfree, hleases, hinflight⟩
  · have hout : s.track id (.enter leaseId peer requestId nowMs) = s.outstanding := by
      simp [track, herr, Except.isOk, Except.toBool]
    rw [step, hout]
    refine h.congr ?_ ?_
    · simp only [LedgerOp.apply, Ledger.rowsOf, hleases]
    · simp only [LedgerOp.apply, Ledger.inflightOf, hinflight]
  have hrows : (LedgerOp.apply s.ledger (.enter leaseId peer requestId nowMs)).rowsOf id =
      s.ledger.rowsOf id := by
    simp only [LedgerOp.apply, Ledger.rowsOf, hleases]
  have hcount : (LedgerOp.apply s.ledger (.enter leaseId peer requestId nowMs)).inflightOf id =
      if id = leaseId then s.ledger.inflightOf leaseId + 1 else s.ledger.inflightOf id := by
    rw [← Ledger.inflight_insert]
    simp only [LedgerOp.apply, Ledger.inflightOf, hinflight]
  by_cases hid : leaseId = id
  · subst hid
    have hout : s.track leaseId (.enter leaseId peer requestId nowMs) =
        requestId :: s.outstanding := by
      simp [track, hok, Except.isOk, Except.toBool]
    obtain ⟨row, budget, hrow, hbudget, hspent⟩ := Ledger.may_relay_row hmay
    rw [Ledger.lease_eq_head] at hrow
    rw [if_pos rfl] at hcount
    cases h with
    | @held lease hr hunit hmax hc hsafe =>
      rw [hr] at hrow
      cases hrow
      rw [hunit] at hbudget
      cases hbudget
      rw [Ledger.lease_eq_head, hr, hc, List.head?_cons, Option.map_some, Option.getD_some,
        hmax] at hfree
      rw [step, hout]
      exact .held (hrows.trans hr) hunit hmax (hcount.trans (by simp [hc]))
        (Lib.Escrow.safe_admit hrise hspent hfree)
    | dropped hr hc hlen =>
      rw [hr] at hrow
      cases hrow
  · have hout : s.track id (.enter leaseId peer requestId nowMs) = s.outstanding := by
      simp [track, hid]
    rw [if_neg fun he => hid he.symm] at hcount
    rw [step, hout]
    exact h.congr hrows hcount

/-- A release gives its slot back and charges at most what the slot held. -/
theorem Accounted.release (h : Accounted id e s) {requestId : RequestId}
    (hin : requestId ∈ s.outstanding) {l : Ledger}
    (hcount : l.inflightOf id = s.ledger.inflightOf id - 1)
    (hnil : s.ledger.rowsOf id = [] → l.rowsOf id = [])
    (hrow : ∀ lease, s.ledger.rowsOf id = [lease] → ∃ charge ≤ e.rise,
      l.rowsOf id = [{ lease with spent := lease.spent + charge }]) :
    Accounted id e { ledger := l, outstanding := s.outstanding.erase requestId } := by
  have hlen : (s.outstanding.erase requestId).length + 1 = s.outstanding.length := by
    have := List.length_erase_of_mem hin
    have := List.length_pos_of_mem hin
    omega
  cases h with
  | @held lease hr hunit hmax hc hsafe =>
    obtain ⟨charge, hle, hrow⟩ := hrow lease hr
    rw [← hlen] at hsafe
    have hslots : l.inflightOf id = (s.outstanding.erase requestId).length := by
      rw [hcount, hc]
      omega
    exact .held hrow hunit hmax hslots (Lib.Escrow.safe_release hsafe hle)
  | dropped hr hc hwithin =>
    have hless : (s.outstanding.erase requestId).length ≤ e.limit := by omega
    exact .dropped (hnil hr) (by rw [hcount, hc]) hless

/-- Every legal operation keeps the account. -/
theorem accounted_step (h : Accounted id e s) (hrise : minDebit ≤ e.rise) {op : LedgerOp}
    (hlegal : Legal id e.rise s op) : Accounted id e (s.step id op) := by
  have hpos : 0 ≤ e.rise := min_debit_pos.le.trans hrise
  cases op with
  | enter leaseId peer requestId nowMs => exact h.enter hpos leaseId peer requestId nowMs
  | leave leaseId requestId =>
    have hcount := s.ledger.leave_relay_inflight leaseId id
    have hrows : (s.ledger.leaveRelay leaseId).rowsOf id = s.ledger.rowsOf id := by
      simp [Ledger.rowsOf]
    simp only [step, track, LedgerOp.apply]
    split
    · rename_i hid
      rw [if_pos hid.symm] at hcount
      exact h.release (hlegal hid) hcount hrows.trans
        fun lease hr => ⟨0, hpos, by rw [hrows, hr, add_zero]⟩
    · rename_i hid
      rw [if_neg fun he => hid he.symm] at hcount
      exact h.congr hrows hcount
  | settle leaseId requestId observedRise nowMs =>
    have hcount := s.ledger.leave_relay_inflight leaseId id
    have hrows : (s.ledger.leaveRelay leaseId).rowsOf id = s.ledger.rowsOf id := by
      simp [Ledger.rowsOf]
    have hdebit : ((s.ledger.leaveRelay leaseId).debit leaseId requestId observedRise
        nowMs).2.inflightOf id = (s.ledger.leaveRelay leaseId).inflightOf id := by
      simp only [Ledger.inflightOf, Ledger.debit_inflight]
    simp only [step, track, LedgerOp.apply]
    split
    · rename_i hid
      subst hid
      rw [if_pos rfl] at hcount
      refine h.release (hlegal rfl).1 (hdebit.trans hcount)
        (fun hr => Ledger.debit_rows_nil (hrows.trans hr) _ _ _) fun lease hr => ?_
      exact ⟨_, Ledger.debit_le (hlegal rfl).2 hrise _ _ _ _,
        Ledger.debit_rows_self (hrows.trans hr) _ _ _⟩
    · rename_i hid
      rw [if_neg fun he => hid he.symm] at hcount
      exact h.congr ((Ledger.debit_rows_ne hid _ _ _).trans hrows) (hdebit.trans hcount)
  | debit leaseId requestId observedRise nowMs =>
    refine h.congr (Ledger.debit_rows_ne hlegal _ _ _) ?_
    simp only [LedgerOp.apply, Ledger.inflightOf, Ledger.debit_inflight]
  | usageHint leaseId hinted =>
    refine h.congr (Ledger.usage_hint_rows_ne hlegal _) ?_
    simp only [LedgerOp.apply, Ledger.inflightOf, Ledger.usage_hint_inflight]
  | noteHeadroom scope window fraction => exact h.congr rfl rfl
  | record lease nowMs => exact h.record hlegal nowMs
  | recordScoped lease peer scope nowMs => exact (h.record hlegal nowMs).congr rfl rfl
  | grant call =>
    have hmeasured : Accounted id e
        { ledger := s.ledger.measured call, outstanding := s.outstanding } :=
      h.congr (by simp [Ledger.rowsOf]) (by simp [Ledger.inflightOf])
    rcases s.ledger.grant_cases call with ⟨-, hl | hl⟩ | ⟨lease, -, hid, -, -, -, -, hl⟩
    · exact h.congr (by rw [LedgerOp.apply, hl]) (by rw [LedgerOp.apply, hl])
    · exact hmeasured.congr (by rw [LedgerOp.apply, hl]) (by rw [LedgerOp.apply, hl])
    · have hne : lease.leaseId ≠ id := fun he => hlegal (he ▸ hid)
      refine (hmeasured.record hne call.recordMs).congr ?_ ?_
      · rw [LedgerOp.apply, hl]
        rfl
      · rw [LedgerOp.apply, hl]
        rfl

def start (l : Ledger) (lease : Lease) (peer : PeerId) (scope : LendScope) (nowMs : Int) : Watched :=
  { ledger := l.recordScoped lease peer scope nowMs, outstanding := [] }

theorem accounted_start {l : Ledger} {lease : Lease} {budget rise : ℚ} (peer : PeerId)
    (scope : LendScope) (nowMs : Int) (hunit : lease.unit = .fraction budget)
    (hspent : lease.spent < budget) (hrise : 0 ≤ rise)
    (hfresh : ∀ held ∈ l.leases, held.leaseId ≠ lease.leaseId) :
    Accounted lease.leaseId ⟨budget, lease.maxInflight, rise⟩
      (start l lease peer scope nowMs) := by
  have hnil : l.rowsOf lease.leaseId = [] := by
    simpa [Ledger.rowsOf] using hfresh
  refine @Accounted.held _ _ _ lease ?_ hunit rfl ?_ (Lib.Escrow.safe_init hrise hspent)
  · rw [start, Ledger.record_scoped_rows, Ledger.record_rows, hnil, if_pos rfl]
    rfl
  · rw [start, Ledger.record_scoped_inflight, Ledger.record_inflight, hnil]
    rfl

end Watched

/-- In every legal run the slots of a lease count its outstanding requests and its spend stays below
the budget plus one rise a slot, for as long as the ledger holds the lease; once it has dropped the
expired lease, the lease has no slot and takes no request. -/
theorem lease_overdraft_bound (l : Ledger) (lease : Lease) (peer : PeerId) (scope : LendScope)
    (nowMs : Int) (budget rise : ℚ) (ops : List LedgerOp) (hunit : lease.unit = .fraction budget)
    (hbudget : 0 < budget) (hspent : lease.spent = 0) (hrise : minDebit ≤ rise)
    (hfresh : ∀ held ∈ l.leases, held.leaseId ≠ lease.leaseId)
    (hlegal : Lib.EachStep (Watched.step lease.leaseId) (Watched.Legal lease.leaseId rise)
      (Watched.start l lease peer scope nowMs) ops) :
    ∀ pre, pre <+: ops → ∀ s, s = Lib.exec (Watched.step lease.leaseId)
        (Watched.start l lease peer scope nowMs) pre →
      s.outstanding.length ≤ lease.maxInflight ∧
      (∀ held, s.ledger.lease? lease.leaseId = some held →
        s.ledger.inflightOf lease.leaseId = s.outstanding.length ∧
        held.spent < budget + lease.maxInflight * rise) ∧
      (s.ledger.lease? lease.leaseId = none → s.ledger.inflightOf lease.leaseId = 0 ∧
        ∀ peer requestId nowMs,
          (s.ledger.enterRelay lease.leaseId peer requestId nowMs).1 ≠ .ok ()) := by
  have hpos : 0 ≤ rise := min_debit_pos.le.trans hrise
  rintro pre hpre s rfl
  have hinv := Lib.exec_invariant (I := Watched.Accounted lease.leaseId
    ⟨budget, lease.maxInflight, rise⟩) (fun s op h hl => Watched.accounted_step h hrise hl)
    (Watched.accounted_start peer scope nowMs hunit (by rw [hspent]; exact hbudget) hpos hfresh)
    hlegal pre hpre
  cases hinv with
  | @held row hr _ _ hcount hsafe =>
    refine ⟨hsafe.within, fun held hheld => ?_, fun hnone => ?_⟩
    · rw [Ledger.lease_eq_head, hr] at hheld
      cases hheld
      exact ⟨hcount, Lib.Escrow.safe_spent hpos hsafe⟩
    · rw [Ledger.lease_eq_head, hr] at hnone
      cases hnone
  | dropped hr hcount hlen =>
    refine ⟨hlen, fun held hheld => ?_, fun _ => ⟨hcount, fun peer requestId nowMs hok => ?_⟩⟩
    · rw [Ledger.lease_eq_head, hr] at hheld
      cases hheld
    · rcases Ledger.enter_relay_cases _ lease.leaseId peer requestId nowMs with
        ⟨refusal, herr, -⟩ | ⟨-, hmay, -⟩
      · rw [herr] at hok
        cases hok
      · obtain ⟨row, _, hrow, -⟩ := Ledger.may_relay_row hmay
        rw [Ledger.lease_eq_head, hr] at hrow
        cases hrow

/-- A fifth of the weekly window for one peer, until the clock reads 1000. -/
def shortLease : Lease where
  leaseId := 1
  window := .sevenDay
  unit := .fraction (1 / 5)
  grantedAtMs := 0
  expiresAtMs := 1000
  spent := 0
  maxInflight := 2
  until_ := none

def halfFleet : Fleet where
  scopeRestriction _ := .unrestricted
  lendable _ _ := some (1 / 2)
  lendableByHand _ _ := none

/-- A second peer's ask once the first lease has expired. -/
def laterGrant : GrantCall where
  peer := 8
  ask := { window := .sevenDay, unit := .fraction (1 / 10), ttlS := 300, maxInflight := 1 }
  row := some { inspect := true, lend :=
    [{ window := .sevenDay, fraction := 1 / 2, ttlS := 300, maxInflight := 1 }] }
  fleet := halfFleet
  offset := 0
  randomId := some 2
  capMs := 2000
  pickMs := 2000
  scheduleNow := 2000000000
  clampMs := 2000
  recordMs := 2000

/-- The lease, recorded for peer 7 on a ledger that has half of the window left. -/
def shortRun : Watched :=
  .start (({} : Ledger).noteScopeHeadroom .all .sevenDay (1 / 2)) shortLease 7 .all 0

/-- One request admitted and settled within its rise. -/
theorem settled_within_bound : ∃ held,
    (Lib.exec (Watched.step 1) shortRun
      [.enter 1 7 5 10, .settle 1 5 (1 / 10) 20]).ledger.lease? 1 = some held ∧
    held.spent < 1 / 5 + 2 * (1 / 10) := by
  have hlegal : Lib.EachStep (Watched.step 1) (Watched.Legal 1 (1 / 10)) shortRun
      [.enter 1 7 5 10, .settle 1 5 (1 / 10) 20] := by
    rw [Lib.each_step_cons, Lib.each_step_cons]
    exact ⟨trivial, fun _ => ⟨by decide +kernel, le_rfl⟩, Lib.each_step_nil⟩
  have hheld : (Lib.exec (Watched.step 1) shortRun
      [.enter 1 7 5 10, .settle 1 5 (1 / 10) 20]).ledger.lease? 1 =
        some { shortLease with spent := 1 / 10 } := by
    decide +kernel
  exact ⟨_, hheld, ((lease_overdraft_bound _ shortLease 7 .all 0 (1 / 5) (1 / 10) _ rfl
    (by decide +kernel) rfl (by decide +kernel) (by simp [Ledger.noteScopeHeadroom]) hlegal _
    (List.prefix_refl _) _ rfl).2.1 _ hheld).2⟩

/-- A request outlives its lease and another peer's grant prunes the ledger: the admitted request is
still outstanding and no slot counts it. -/
theorem pruned_lease_forgets_request :
    shortLease.unit = .fraction (1 / 5) ∧ shortLease.spent = 0 ∧
    Lib.EachStep (Watched.step 1) (Watched.Legal 1 (1 / 10)) shortRun
      [.enter 1 7 5 10, .grant laterGrant] ∧
    (Lib.exec (Watched.step 1) shortRun [.enter 1 7 5 10, .grant laterGrant]).outstanding = [5] ∧
    (Lib.exec (Watched.step 1) shortRun
      [.enter 1 7 5 10, .grant laterGrant]).ledger.inflightOf 1 = 0 := by
  refine ⟨rfl, rfl, ?_, by decide +kernel, by decide +kernel⟩
  rw [Lib.each_step_cons, Lib.each_step_cons]
  exact ⟨trivial, by simp [Watched.Legal, laterGrant], Lib.each_step_nil⟩

end TeamClaude
