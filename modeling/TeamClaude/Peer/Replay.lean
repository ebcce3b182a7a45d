import TeamClaude.Peer.Overdraft
import TeamClaude.Peer.PairCache

/-!
# A remembered relay stays refused

A request id a lease has recorded is refused until it expires, as long as neither the bound of its
own lease nor the bound of the whole ledger has been reached since. The second bound is over every
lease, so enough traffic of others does take the pair away.
-/

namespace TeamClaude

/-- What an operation asks of the remembered pairs. -/
inductive PairAct
  | admitPair (leaseId : LeaseId) (requestId : RequestId) (nowMs : Int)
  | mark (leaseId : LeaseId) (requestId : RequestId) (nowMs : Int)
  deriving DecidableEq

namespace PairAct

def leaseId : PairAct → LeaseId
  | admitPair leaseId _ _ | mark leaseId _ _ => leaseId

def requestId : PairAct → RequestId
  | admitPair _ requestId _ | mark _ requestId _ => requestId

def atMs : PairAct → Int
  | admitPair _ _ nowMs | mark _ _ nowMs => nowMs

def run (cache : PairCache) : PairAct → Bool × PairCache
  | admitPair leaseId requestId nowMs => cache.admitPair leaseId requestId nowMs
  | mark leaseId requestId nowMs => cache.markCharged leaseId requestId nowMs

def records (cache : PairCache) : PairAct → Bool
  | admitPair leaseId requestId nowMs => (cache.admitPair leaseId requestId nowMs).1
  | mark leaseId requestId nowMs =>
    (cache.find leaseId requestId).isNone && (cache.admitPair leaseId requestId nowMs).1

def marks (leaseId : LeaseId) (requestId : RequestId) : PairAct → Bool
  | admitPair _ _ _ => false
  | mark other id _ => decide (other = leaseId ∧ id = requestId)

variable {cache : PairCache} {clockMs : Int} {act : PairAct}

theorem ordered_run (h : cache.Ordered clockMs) (hle : clockMs ≤ act.atMs) :
    (act.run cache).2.Ordered act.atMs := by
  cases act with
  | admitPair leaseId requestId nowMs => exact h.admitPair hle leaseId requestId
  | mark leaseId requestId nowMs =>
    rcases cache.mark_cases leaseId requestId nowMs with ⟨held, -, hm⟩ | ⟨-, hm⟩
    · simp only [run, hm]
      split
      · exact h.mono hle
      · exact (h.mono hle).setCharged leaseId requestId
    · simp only [run, hm]
      exact (h.admitPair hle leaseId requestId).setCharged leaseId requestId

theorem count_run_le (atMs : Int) (cache : PairCache) (act : PairAct) :
    (act.run cache).2.countWhere (fun held => atMs ≤ held.atMs) ≤
      cache.countWhere (fun held => atMs ≤ held.atMs) +
        if act.records cache ∧ atMs ≤ act.atMs then 1 else 0 := by
  cases act with
  | admitPair leaseId requestId nowMs =>
    refine (cache.count_admit_le (fun held => atMs ≤ held.atMs) leaseId requestId nowMs).trans_eq ?_
    exact congrArg _ (if_congr (by simp [records, PairAct.atMs]) rfl rfl)
  | mark leaseId requestId nowMs =>
    rcases cache.mark_cases leaseId requestId nowMs with ⟨held, -, hm⟩ | ⟨hnone, hm⟩
    · simp only [run, hm]
      split
      · exact Nat.le_add_right _ _
      · rw [PairCache.count_setCharged]
        exact Nat.le_add_right _ _
    · simp only [run, hm, PairCache.count_setCharged]
      refine (cache.count_admit_le (fun held => atMs ≤ held.atMs) leaseId requestId
        nowMs).trans_eq ?_
      exact congrArg _ (if_congr (by simp [records, hnone, PairAct.atMs]) rfl rfl)

/-- A remembered pair stays remembered through an act while both bounds leave it room, and it is
charged by the one act that finds it uncharged. -/
theorem holds_run {leaseId : LeaseId} {pair : RelayedPair} {newer : Nat}
    (h : cache.Holds leaseId pair newer) (ho : cache.Ordered clockMs)
    (hlive : PairCache.live act.atMs pair = true)
    (hcount : cache.countWhere (fun held => pair.atMs ≤ held.atMs) < servedCapacity)
    (hroom : act.records cache = true → act.leaseId = leaseId → newer + 1 < servedPerLeaseCapacity) :
    (act.run cache).2.Holds leaseId
        { pair with charged := pair.charged || act.marks leaseId pair.requestId }
        (newer + if act.records cache ∧ act.leaseId = leaseId then 1 else 0) ∧
      (act.marks leaseId pair.requestId = true → (act.run cache).1 = !pair.charged) := by
  cases act with
  | admitPair other requestId nowMs =>
    refine ⟨?_, fun hm => absurd hm Bool.false_ne_true⟩
    simp only [marks, Bool.or_false]
    exact h.admitPair ho hlive hcount other requestId hroom
  | mark other requestId nowMs =>
    have hrecorded := h.mono (Nat.le_add_right newer
      (if (mark other requestId nowMs).records cache ∧ other = leaseId then 1 else 0))
    by_cases hself : other = leaseId ∧ requestId = pair.requestId
    · obtain ⟨rfl, rfl⟩ := hself
      rcases cache.mark_cases other pair.requestId nowMs with ⟨held, hfind, hm⟩ | ⟨hnone, -⟩
      · rw [h.find, Option.some.injEq] at hfind
        subst hfind
        simp only [run, hm, marks, and_self, decide_true, Bool.or_true]
        by_cases hc : pair.charged = true
        · rw [if_pos hc]
          refine ⟨?_, fun _ => by rw [hc]; rfl⟩
          have hpair : ({ pair with charged := true } : RelayedPair) = pair := by
            rw [← hc]
          rw [hpair]
          exact hrecorded
        · rw [if_neg hc]
          exact ⟨hrecorded.setCharged_self, fun _ => by simp [hc]⟩
      · rw [h.find] at hnone
        cases hnone
    · have hmarks : (mark other requestId nowMs).marks leaseId pair.requestId = false := by
        simp only [marks, decide_eq_false_iff_not]
        exact hself
      rw [hmarks, Bool.or_false]
      refine ⟨?_, fun hm => absurd hm Bool.false_ne_true⟩
      rcases cache.mark_cases other requestId nowMs with ⟨held, -, hm⟩ | ⟨hnone, hm⟩
      · simp only [run, hm]
        split
        · exact hrecorded
        · exact hrecorded.setCharged_ne hself
      · have hrec : (mark other requestId nowMs).records cache =
            (cache.admitPair other requestId nowMs).1 := by
          simp [records, hnone]
        rw [hrec] at hroom ⊢
        simp only [run, hm]
        exact (h.admitPair ho hlive hcount other requestId hroom).setCharged_ne hself

end PairAct

/-! ## The operations of the ledger -/

namespace LedgerOp

/-- The clock an operation on the remembered pairs reads. -/
def stampMs : LedgerOp → Option Int
  | enter _ _ _ nowMs | settle _ _ _ nowMs | debit _ _ _ nowMs => some nowMs
  | _ => none

def pairAct (l : Ledger) : LedgerOp → Option PairAct
  | enter leaseId peer requestId nowMs =>
    if l.grantees.lookup leaseId = some peer ∧ (l.mayRelay leaseId nowMs).isOk then
      some (.admitPair leaseId requestId nowMs)
    else none
  | settle leaseId requestId _ nowMs | debit leaseId requestId _ nowMs =>
    some (.mark leaseId requestId nowMs)
  | _ => none

def charge (l : Ledger) : LedgerOp → Option (LeaseId × RequestId × ℚ)
  | settle leaseId requestId observedRise nowMs =>
    some (leaseId, requestId, ((l.leaveRelay leaseId).debit leaseId requestId observedRise nowMs).1)
  | debit leaseId requestId observedRise nowMs =>
    some (leaseId, requestId, (l.debit leaseId requestId observedRise nowMs).1)
  | _ => none

end LedgerOp

namespace Ledger

variable {l : Ledger}

@[simp] theorem leave_relay_pairs (l : Ledger) (leaseId : LeaseId) :
    (l.leaveRelay leaseId).pairs = l.pairs := by
  unfold leaveRelay
  split
  · rfl
  · split <;> rfl

@[simp] theorem debit_pairs (l : Ledger) (leaseId : LeaseId) (requestId : RequestId)
    (observedRise : ℚ) (nowMs : Int) : (l.debit leaseId requestId observedRise nowMs).2.pairs =
      (l.pairs.markCharged leaseId requestId nowMs).2 := by
  unfold debit
  simp only
  split
  · rfl
  · split <;> rfl

/-- A debit of anything is the one that marks its pair. -/
theorem debit_charges {leaseId : LeaseId} {requestId : RequestId} {observedRise : ℚ} {nowMs : Int}
    (h : (l.debit leaseId requestId observedRise nowMs).1 ≠ 0) :
    (l.pairs.markCharged leaseId requestId nowMs).1 = true := by
  by_contra hm
  rw [Bool.not_eq_true] at hm
  refine h ?_
  unfold debit
  simp only [hm]
  rfl

theorem grant_pairs (l : Ledger) (c : GrantCall) : (l.grant c).2.pairs = l.pairs := by
  have hmeasured : (l.measured c).pairs = l.pairs := by
    unfold measured
    split <;> rfl
  unfold grant
  split
  · rfl
  split
  · rfl
  simp only
  split
  · exact hmeasured
  · rename_i leaseId hid
    simp only
    generalize (clampToGrant c.ask c.granted (c.row.any PeerRow.inspect)
      ((l.measured c).lendable c) c.clampMs leaseId (c.granted.bind LendGrant.until_)
      (c.schedule.bind fun schedule => schedule.closesAtMs c.offset c.scheduleNow)).lease = lease
    cases lease with
    | none => exact hmeasured
    | some lease => exact hmeasured

/-- Entering a request acts on the pairs once the grantee and the lease have passed. -/
theorem enter_relay_pairs (l : Ledger) (leaseId : LeaseId) (peer : PeerId) (requestId : RequestId)
    (nowMs : Int) :
    (l.grantees.lookup leaseId = some peer ∧ (l.mayRelay leaseId nowMs).isOk = true ∧
      (l.enterRelay leaseId peer requestId nowMs).2.pairs =
        (l.pairs.admitPair leaseId requestId nowMs).2 ∧
      ((l.enterRelay leaseId peer requestId nowMs).1 = .error .replayed ↔
        (l.pairs.admitPair leaseId requestId nowMs).1 = false)) ∨
    (¬ (l.grantees.lookup leaseId = some peer ∧ (l.mayRelay leaseId nowMs).isOk = true) ∧
      (l.enterRelay leaseId peer requestId nowMs).2 = l ∧
      ((l.enterRelay leaseId peer requestId nowMs).1 = .error .notTheGrantee ∨
        ∃ refusal, (l.enterRelay leaseId peer requestId nowMs).1 = .error (.lease refusal))) := by
  unfold enterRelay
  split
  · rename_i hpeer
    exact .inr ⟨fun h => hpeer h.1, rfl, .inl rfl⟩
  rename_i hpeer
  rw [not_not] at hpeer
  cases hmay : l.mayRelay leaseId nowMs with
  | error refusal => exact .inr ⟨fun h => Bool.false_ne_true h.2, rfl, .inr ⟨refusal, rfl⟩⟩
  | ok =>
    refine .inl ⟨hpeer, rfl, ?_⟩
    simp only
    split
    · rename_i hseen
      exact ⟨rfl, fun _ => by simpa using hseen, fun _ => rfl⟩
    · rename_i hnew
      have hnew : (l.pairs.admitPair leaseId requestId nowMs).1 = true := by simpa using hnew
      split
      · exact ⟨rfl, by simp [hnew]⟩
      · exact ⟨rfl, by simp [hnew]⟩

/-- Entering a request writes the pairs and the slots only. -/
theorem enter_relay_frame (l : Ledger) (leaseId : LeaseId) (peer : PeerId) (requestId : RequestId)
    (nowMs : Int) : ∃ pairs inflight,
      (l.enterRelay leaseId peer requestId nowMs).2 = { l with pairs, inflight } := by
  unfold enterRelay
  split
  · exact ⟨l.pairs, l.inflight, rfl⟩
  split
  · exact ⟨l.pairs, l.inflight, rfl⟩
  simp only
  split
  · exact ⟨_, l.inflight, rfl⟩
  split
  · exact ⟨_, l.inflight, rfl⟩
  · exact ⟨_, _, rfl⟩

theorem leave_relay_frame (l : Ledger) (leaseId : LeaseId) :
    ∃ inflight, l.leaveRelay leaseId = { l with inflight } := by
  unfold leaveRelay
  split
  · exact ⟨l.inflight, rfl⟩
  split
  · exact ⟨_, rfl⟩
  · exact ⟨_, rfl⟩

theorem enter_relay_ok {leaseId : LeaseId} {peer : PeerId} {requestId : RequestId} {nowMs : Int}
    (hp : l.grantees.lookup leaseId = some peer) (hm : l.mayRelay leaseId nowMs = .ok ())
    (hnew : (l.pairs.admitPair leaseId requestId nowMs).1 = true)
    (hslot : l.inflightOf leaseId < ((l.lease? leaseId).map Lease.maxInflight).getD 0) :
    (l.enterRelay leaseId peer requestId nowMs).1 = .ok () := by
  unfold enterRelay
  rw [if_neg (not_not.mpr hp), hm]
  simp only [hnew, Bool.not_true, Bool.false_eq_true, if_false]
  rw [if_neg]
  exact not_le.mpr hslot

end Ledger

/-- What an operation does to the remembered pairs is the act it makes on them. -/
theorem LedgerOp.apply_pairs (l : Ledger) (op : LedgerOp) :
    (op.apply l).pairs = (op.pairAct l).elim l.pairs fun act => (act.run l.pairs).2 := by
  cases op with
  | enter leaseId peer requestId nowMs =>
    simp only [apply, pairAct]
    rcases l.enter_relay_pairs leaseId peer requestId nowMs with ⟨hp, hm, h, -⟩ | ⟨hno, h, -⟩
    · rw [if_pos ⟨hp, hm⟩, h]
      rfl
    · rw [if_neg hno, h]
      rfl
  | leave leaseId requestId => exact l.leave_relay_pairs leaseId
  | settle leaseId requestId observedRise nowMs =>
    simp [apply, pairAct, PairAct.run]
  | debit leaseId requestId observedRise nowMs => simp [apply, pairAct, PairAct.run]
  | usageHint leaseId hinted =>
    simp only [apply, pairAct, Ledger.applyUsageHint]
    split
    · rfl
    · split <;> rfl
  | noteHeadroom scope window fraction => rfl
  | record lease nowMs => rfl
  | recordScoped lease peer scope nowMs => rfl
  | grant call => exact l.grant_pairs call

theorem LedgerOp.stamp_of_act {l : Ledger} {op : LedgerOp} {act : PairAct}
    (h : op.pairAct l = some act) : op.stampMs = some act.atMs := by
  cases op <;> simp only [pairAct] at h
  case enter =>
    split at h
    · cases h; rfl
    · cases h
  all_goals cases h <;> rfl

/-! ## Runs -/

/-- The ledger, with every id a run has recorded and every pair it has charged. -/
structure Remembering where
  ledger : Ledger
  clockMs : Int
  recorded : List (LeaseId × Int)
  charges : List (LeaseId × RequestId)

namespace Remembering

def start (l : Ledger) (clockMs : Int) : Remembering :=
  { ledger := l, clockMs, recorded := [], charges := [] }

def recordedBy (s : Remembering) (op : LedgerOp) : List (LeaseId × Int) :=
  match op.pairAct s.ledger with
  | some act => if act.records s.ledger.pairs then [(act.leaseId, act.atMs)] else []
  | none => []

def chargedBy (s : Remembering) (op : LedgerOp) : List (LeaseId × RequestId) :=
  match op.charge s.ledger with
  | some (leaseId, requestId, amount) => if amount = 0 then [] else [(leaseId, requestId)]
  | none => []

def step (s : Remembering) (op : LedgerOp) : Remembering :=
  { ledger := op.apply s.ledger
    clockMs := op.stampMs.getD s.clockMs
    recorded := s.recordedBy op ++ s.recorded
    charges := s.chargedBy op ++ s.charges }

def run (l : Ledger) (clockMs : Int) (ops : List LedgerOp) : Remembering :=
  Lib.exec step (start l clockMs) ops

/-- The clock does not run backwards. -/
def Timed (s : Remembering) (op : LedgerOp) : Prop :=
  ∀ nowMs ∈ op.stampMs, s.clockMs ≤ nowMs

instance (s : Remembering) (op : LedgerOp) : Decidable (s.Timed op) :=
  inferInstanceAs (Decidable (∀ nowMs ∈ op.stampMs, s.clockMs ≤ nowMs))

def recordedOn (s : Remembering) (leaseId : LeaseId) : Nat :=
  s.recorded.countP fun e => decide (e.1 = leaseId)

/-- The ids recorded on any lease with a stamp of `atMs` or later. -/
def recordedSince (s : Remembering) (atMs : Int) : Nat :=
  s.recorded.countP fun e => decide (atMs ≤ e.2)

def chargesTo (s : Remembering) (leaseId : LeaseId) (requestId : RequestId) : Nat :=
  s.charges.count (leaseId, requestId)

variable {s : Remembering} {op : LedgerOp}

theorem recorded_on_mono (s : Remembering) (op : LedgerOp) (leaseId : LeaseId) :
    s.recordedOn leaseId ≤ (s.step op).recordedOn leaseId := by
  unfold recordedOn step
  rw [List.countP_append]
  exact Nat.le_add_left _ _

theorem recorded_since_mono (s : Remembering) (op : LedgerOp) (atMs : Int) :
    s.recordedSince atMs ≤ (s.step op).recordedSince atMs := by
  unfold recordedSince step
  rw [List.countP_append]
  exact Nat.le_add_left _ _

theorem clock_mono (h : s.Timed op) : s.clockMs ≤ (s.step op).clockMs := by
  unfold step
  cases hs : op.stampMs with
  | none => exact le_rfl
  | some nowMs => exact h nowMs hs

/-! ## What is remembered -/

/-- The cache is in the order of the clock, and remembers nothing the run has not recorded. -/
structure Kept (s : Remembering) : Prop where
  ordered : s.ledger.pairs.Ordered s.clockMs
  counted : ∀ atMs, s.ledger.pairs.countWhere (fun held => atMs ≤ held.atMs) ≤ s.recordedSince atMs

theorem kept_start {l : Ledger} (hnew : l.pairs = ∅) (clockMs : Int) : (start l clockMs).Kept := by
  constructor
  · constructor <;> intro leaseId <;> simp [start, hnew, PairCache.queue]
  · intro atMs
    simp [start, hnew, PairCache.countWhere, Lib.entrySum]

theorem kept_step (h : s.Kept) (ht : s.Timed op) : (s.step op).Kept := by
  have hpairs := LedgerOp.apply_pairs s.ledger op
  cases hact : op.pairAct s.ledger with
  | none =>
    rw [hact, Option.elim_none] at hpairs
    constructor
    · show (op.apply s.ledger).pairs.Ordered (s.step op).clockMs
      rw [hpairs]
      exact h.ordered.mono (clock_mono ht)
    · intro atMs
      show (op.apply s.ledger).pairs.countWhere _ ≤ _
      rw [hpairs]
      exact (h.counted atMs).trans (s.recorded_since_mono op atMs)
  | some act =>
    rw [hact, Option.elim_some] at hpairs
    have hstamp := LedgerOp.stamp_of_act hact
    have hclock : (s.step op).clockMs = act.atMs := by
      simp [step, hstamp]
    constructor
    · show (op.apply s.ledger).pairs.Ordered (s.step op).clockMs
      rw [hpairs, hclock]
      exact PairAct.ordered_run h.ordered (ht act.atMs hstamp)
    · intro atMs
      show (op.apply s.ledger).pairs.countWhere _ ≤ _
      rw [hpairs]
      refine (PairAct.count_run_le atMs s.ledger.pairs act).trans ?_
      have hrecorded : (s.step op).recordedSince atMs = s.recordedSince atMs +
          if act.records s.ledger.pairs ∧ atMs ≤ act.atMs then 1 else 0 := by
        unfold recordedSince step recordedBy
        rw [List.countP_append, hact, Nat.add_comm]
        by_cases hr : act.records s.ledger.pairs = true
        · simp [hr, List.countP_singleton]
        · simp [hr]
      rw [hrecorded]
      exact Nat.add_le_add_right (h.counted atMs) _

/-- One recorded pair, seen from the state it was recorded in: while neither bound has been reached
and it has not expired, it is remembered, and what it was charged shows on it. -/
structure Refusing (since : Remembering) (leaseId : LeaseId) (requestId : RequestId) (atMs : Int)
    (s : Remembering) : Prop where
  kept : s.Kept
  later : atMs ≤ s.clockMs
  more : since.recordedOn leaseId ≤ s.recordedOn leaseId
  held : s.clockMs < atMs + servedTtlMs →
    s.recordedOn leaseId < since.recordedOn leaseId + servedPerLeaseCapacity →
    s.recordedSince atMs < servedCapacity →
    ∃ charged, s.ledger.pairs.Holds leaseId { requestId, atMs, charged }
        (s.recordedOn leaseId - since.recordedOn leaseId) ∧
      s.chargesTo leaseId requestId ≤ since.chargesTo leaseId requestId + charged.toNat

/-- An operation charges a pair only where its act is the one that marks it. -/
theorem charges_step_le (s : Remembering) (op : LedgerOp) (leaseId : LeaseId)
    (requestId : RequestId) :
    (s.step op).chargesTo leaseId requestId ≤ s.chargesTo leaseId requestId +
      (match op.pairAct s.ledger with
        | some act => act.marks leaseId requestId && (act.run s.ledger.pairs).1
        | none => false).toNat := by
  unfold chargesTo step
  rw [List.count_append, Nat.add_comm]
  refine Nat.add_le_add_left ?_ _
  have hdebit : ∀ (l : Ledger) (other : LeaseId) (id : RequestId) (rise : ℚ) (nowMs : Int),
      l.pairs = s.ledger.pairs →
      List.count (leaseId, requestId)
          (if (l.debit other id rise nowMs).1 = 0 then [] else [(other, id)]) ≤
        ((PairAct.mark other id nowMs).marks leaseId requestId &&
          ((PairAct.mark other id nowMs).run s.ledger.pairs).1).toNat := by
    intro l other id rise nowMs hl
    split
    · exact Nat.zero_le _
    · rename_i hne
      have hmark := l.debit_charges hne
      rw [hl] at hmark
      by_cases hself : other = leaseId ∧ id = requestId
      · obtain ⟨rfl, rfl⟩ := hself
        simp [PairAct.marks, PairAct.run, hmark]
      · have hcount : List.count (leaseId, requestId) [(other, id)] = 0 := by
          rw [List.count_eq_zero, List.mem_singleton, Prod.mk.injEq]
          exact fun he => hself ⟨he.1.symm, he.2.symm⟩
        rw [hcount]
        exact Nat.zero_le _
  cases op with
  | settle other id rise nowMs => exact hdebit _ other id rise nowMs (Ledger.leave_relay_pairs _ _)
  | debit other id rise nowMs => exact hdebit _ other id rise nowMs rfl
  | _ => exact Nat.zero_le _

theorem refusing_step {since : Remembering} {leaseId : LeaseId} {requestId : RequestId}
    {atMs : Int} (h : Refusing since leaseId requestId atMs s) (ht : s.Timed op) :
    Refusing since leaseId requestId atMs (s.step op) := by
  have hmore := s.recorded_on_mono op leaseId
  refine ⟨kept_step h.kept ht, h.later.trans (clock_mono ht), h.more.trans hmore, ?_⟩
  intro hclock hlease hall
  obtain ⟨charged, hholds, hcharges⟩ := h.held ((clock_mono ht).trans_lt hclock)
    (hmore.trans_lt hlease) ((s.recorded_since_mono op atMs).trans_lt hall)
  have hstep := s.charges_step_le op leaseId requestId
  have hpairs := LedgerOp.apply_pairs s.ledger op
  have hledger : (s.step op).ledger.pairs = (op.apply s.ledger).pairs := rfl
  have hbase := h.more
  cases hact : op.pairAct s.ledger with
  | none =>
    rw [hact, Option.elim_none] at hpairs
    rw [hact] at hstep
    refine ⟨charged, ?_, hstep.trans hcharges⟩
    rw [hledger, hpairs]
    exact hholds.mono (Nat.sub_le_sub_right hmore _)
  | some act =>
    rw [hact, Option.elim_some] at hpairs
    rw [hact] at hstep
    have hstamp := LedgerOp.stamp_of_act hact
    have hat : (s.step op).clockMs = act.atMs := by simp [step, hstamp]
    have hrecorded : (s.step op).recordedOn leaseId = s.recordedOn leaseId +
        if act.records s.ledger.pairs = true ∧ act.leaseId = leaseId then 1 else 0 := by
      unfold recordedOn step recordedBy
      rw [List.countP_append, hact, Nat.add_comm]
      by_cases hr : act.records s.ledger.pairs = true
      · simp [hr, List.countP_singleton]
      · simp [hr]
    have hlive : PairCache.live act.atMs { requestId, atMs, charged } = true := by
      refine PairCache.live_of_lt ?_ ?_
      · exact h.later.trans (ht act.atMs hstamp)
      · rwa [← hat]
    have hcount : s.ledger.pairs.countWhere (fun held => atMs ≤ held.atMs) < servedCapacity :=
      (h.kept.counted atMs).trans_lt ((s.recorded_since_mono op atMs).trans_lt hall)
    obtain ⟨hnext, hmark⟩ := PairAct.holds_run hholds h.kept.ordered hlive hcount (by
      intro hr hl
      rw [hrecorded, if_pos ⟨hr, hl⟩] at hlease
      omega)
    refine ⟨charged || act.marks leaseId requestId, ?_, ?_⟩
    · rw [hledger, hpairs, hrecorded, Nat.sub_add_comm hbase]
      exact hnext
    · refine hstep.trans ?_
      cases hm : act.marks leaseId requestId with
      | false => simpa [hm] using hcharges
      | true =>
        have hrun := hmark hm
        simp only [hm, hrun]
        cases charged with
        | false => simpa using hcharges
        | true => simpa using hcharges

/-- The answer of a request that has been recorded: it holds a slot, or was refused one. -/
def admitted : Except RelayRefusal Unit → Bool
  | .ok () | .error (.tooManyInflight _) => true
  | .error _ => false

theorem admitted_enter {l : Ledger} {leaseId : LeaseId} {peer : PeerId} {requestId : RequestId}
    {nowMs : Int} (h : admitted (l.enterRelay leaseId peer requestId nowMs).1 = true) :
    (LedgerOp.enter leaseId peer requestId nowMs).pairAct l =
        some (.admitPair leaseId requestId nowMs) ∧
      (l.pairs.admitPair leaseId requestId nowMs).1 = true := by
  rcases l.enter_relay_pairs leaseId peer requestId nowMs with
    ⟨hp, hm, -, hreplay⟩ | ⟨-, -, hno | ⟨refusal, hno⟩⟩
  · refine ⟨if_pos ⟨hp, hm⟩, ?_⟩
    by_contra hseen
    rw [Bool.not_eq_true] at hseen
    rw [hreplay.mpr hseen] at h
    cases h
  · rw [hno] at h
    cases h
  · rw [hno] at h
    cases h

/-- A pair just recorded is remembered with no charge on it. -/
theorem refusing_enter {leaseId : LeaseId} {peer : PeerId} {requestId : RequestId} {atMs : Int}
    (h : s.Kept) (ht : s.Timed (.enter leaseId peer requestId atMs))
    (hin : admitted (s.ledger.enterRelay leaseId peer requestId atMs).1 = true) :
    Refusing (s.step (.enter leaseId peer requestId atMs)) leaseId requestId atMs
      (s.step (.enter leaseId peer requestId atMs)) := by
  obtain ⟨hact, hnew⟩ := admitted_enter hin
  refine ⟨kept_step h ht, le_rfl, le_rfl, fun _ _ _ => ⟨false, ?_, le_rfl⟩⟩
  have hpairs := LedgerOp.apply_pairs s.ledger (.enter leaseId peer requestId atMs)
  rw [hact, Option.elim_some] at hpairs
  rw [Nat.sub_self]
  show (LedgerOp.apply s.ledger _).pairs.Holds _ _ _
  rw [hpairs]
  exact PairCache.holds_of_admitted hnew

/-- A pair remembered within its TTL is not admitted again, for any peer. -/
theorem Refusing.refuses {since : Remembering} {leaseId : LeaseId} {requestId : RequestId}
    {atMs nowMs : Int} (h : Refusing since leaseId requestId atMs s) (hlater : s.clockMs ≤ nowMs)
    (hlive : nowMs < atMs + servedTtlMs)
    (hlease : s.recordedOn leaseId < since.recordedOn leaseId + servedPerLeaseCapacity)
    (hall : s.recordedSince atMs < servedCapacity) (peer : PeerId) :
    admitted (s.ledger.enterRelay leaseId peer requestId nowMs).1 = false := by
  by_contra hin
  rw [Bool.not_eq_false] at hin
  obtain ⟨charged, hholds, -⟩ := h.held (hlater.trans_lt hlive) hlease hall
  have hrefused := hholds.refused h.kept.ordered
    (PairCache.live_of_lt (h.later.trans hlater) hlive) ((h.kept.counted atMs).trans_lt hall)
  rw [(admitted_enter hin).2] at hrefused
  cases hrefused

/-- In every run of a new ledger whose clock does not run backwards, a pair admitted at `atMs` is
admitted to nobody again before it expires, and charged at most once, as long as fewer ids than the
bound of a lease have been recorded on its lease since, and fewer than the bound of the ledger on all
leases from `atMs` on. -/
theorem remembered_relay_refused {l : Ledger} (hnew : l.pairs = ∅) {startMs : Int}
    {before after : List LedgerOp} {leaseId : LeaseId} {peer : PeerId} {requestId : RequestId}
    {atMs nowMs : Int} {s₀ s₁ s₂ : Remembering}
    (htimed : Lib.EachStep step Timed (start l startMs)
      (before ++ .enter leaseId peer requestId atMs :: after))
    (h₀ : run l startMs before = s₀) (h₁ : s₀.step (.enter leaseId peer requestId atMs) = s₁)
    (h₂ : Lib.exec step s₁ after = s₂)
    (hin : admitted (s₀.ledger.enterRelay leaseId peer requestId atMs).1 = true)
    (hlater : s₂.clockMs ≤ nowMs) (hlive : nowMs < atMs + servedTtlMs)
    (hlease : s₂.recordedOn leaseId < s₁.recordedOn leaseId + servedPerLeaseCapacity)
    (hall : s₂.recordedSince atMs < servedCapacity) :
    (∀ borrower, admitted (s₂.ledger.enterRelay leaseId borrower requestId nowMs).1 = false) ∧
      s₂.chargesTo leaseId requestId ≤ s₁.chargesTo leaseId requestId + 1 := by
  subst h₀
  rw [Lib.each_step_append, Lib.each_step_cons] at htimed
  obtain ⟨hbefore, hnow, hafter⟩ := htimed
  have hkept : (run l startMs before).Kept :=
    Lib.exec_invariant (fun _ _ => kept_step) (kept_start hnew startMs) hbefore before
      (List.prefix_refl _)
  have hentered := refusing_enter hkept hnow hin
  rw [h₁] at hentered
  have hremembered : Refusing s₁ leaseId requestId atMs s₂ := by
    rw [← h₂]
    refine Lib.exec_invariant (I := Refusing s₁ leaseId requestId atMs) (fun _ _ => refusing_step)
      hentered ?_ after (List.prefix_refl _)
    rw [← h₁]
    exact hafter
  refine ⟨hremembered.refuses hlater hlive hlease hall, ?_⟩
  obtain ⟨charged, -, hcharges⟩ := hremembered.held (hlater.trans_lt hlive) hlease hall
  exact hcharges.trans (Nat.add_le_add_left (Bool.toNat_le charged) _)

/-! ## Traffic of other leases -/

/-- Seventeen small leases of three peers, none of which holds more than eight. -/
def busyLedger : Ledger where
  leases := (List.range 17).map fun leaseId =>
    { leaseId, window := .sevenDay, unit := .fraction (1 / 100), grantedAtMs := 0,
      expiresAtMs := 600000, spent := 0, maxInflight := 4, until_ := none }
  grantees := ((List.range 17).map fun leaseId =>
    (⟨leaseId, (leaseId + 7) / 8⟩ : Sigma fun _ : LeaseId => PeerId)).toAList
  headroom := (∅ : AList fun _ : String × Window => ℚ).insert ("all", .sevenDay) (1 / 2)

/-- A relay is replayed on the wire and settled twice: it is served and charged once. -/
theorem replayed_relay_refused :
    (∀ borrower, admitted ((run busyLedger 0 [.enter 0 0 7 100, .enter 1 1 7 100, .enter 0 0 7 150,
      .settle 0 7 0 200, .debit 0 7 0 300]).ledger.enterRelay 0 borrower 7 400).1 = false) ∧
    (run busyLedger 0 [.enter 0 0 7 100, .enter 1 1 7 100, .enter 0 0 7 150, .settle 0 7 0 200,
      .debit 0 7 0 300]).chargesTo 0 7 ≤ (run busyLedger 0 [.enter 0 0 7 100]).chargesTo 0 7 + 1 :=
  @remembered_relay_refused busyLedger rfl 0 []
    [.enter 1 1 7 100, .enter 0 0 7 150, .settle 0 7 0 200, .debit 0 7 0 300] 0 0 7 100 400 _ _ _
    (by
      simp only [List.nil_append, Lib.each_step_cons]
      exact ⟨by decide +kernel, by decide +kernel, by decide +kernel, by decide +kernel,
        by decide +kernel, Lib.each_step_nil⟩)
    rfl rfl rfl (by decide +kernel) (by decide +kernel) (by decide +kernel) (by decide +kernel)
    (by decide +kernel)

/-- The request `n` of the others: it is entered on its lease, 256 to a lease, and left. -/
def othersAt (n : Nat) : List LedgerOp :=
  [.enter (n / 256 + 1) ((n / 256 + 8) / 8) n 1, .leave (n / 256 + 1) n]

/-- The state after `n` requests of others, the first pair still in its place. -/
structure Crowded (n : Nat) (s : Remembering) : Prop where
  leases : s.ledger.leases = busyLedger.leases
  grantees : s.ledger.grantees = busyLedger.grantees
  headroom : s.ledger.headroom = busyLedger.headroom
  scopes : s.ledger.scopes = busyLedger.scopes
  free : s.ledger.inflightOf 0 = 0
  clock : s.clockMs ≤ 1
  mine : s.recordedOn 0 = 1
  total : s.ledger.pairs.total = n + 1
  quiet : s.ledger.pairs.queue 0 = [{ requestId := 0, atMs := 0, charged := false }]
  busy : ∀ k : Nat, (s.ledger.pairs.queue (k + 1)).length ≤ n - 256 * k ∧
    ∀ held ∈ s.ledger.pairs.queue (k + 1), held.requestId < n ∧ held.atMs = 1

variable {n : Nat}

theorem Crowded.may_relay (h : Crowded n s) {leaseId : LeaseId} (hid : leaseId < 17) :
    s.ledger.grantees.lookup leaseId = some ((leaseId + 7) / 8) ∧
      s.ledger.mayRelay leaseId 1 = .ok () ∧
      ((s.ledger.lease? leaseId).map Lease.maxInflight).getD 0 = 4 := by
  have hall : ∀ leaseId < 17, busyLedger.grantees.lookup leaseId = some ((leaseId + 7) / 8) ∧
      (busyLedger.mayRelay leaseId 1).isOk = true ∧
      ((busyLedger.lease? leaseId).map Lease.maxInflight).getD 0 = 4 := by decide +kernel
  obtain ⟨hp, hm, hmax⟩ := hall leaseId hid
  have hrelay : s.ledger.mayRelay leaseId 1 = busyLedger.mayRelay leaseId 1 := by
    unfold Ledger.mayRelay Ledger.lease? Ledger.scopeOf Ledger.headroomFor
    rw [h.leases, h.scopes, h.headroom]
  refine ⟨by rw [h.grantees, hp], ?_, ?_⟩
  · rw [hrelay]
    cases hb : busyLedger.mayRelay leaseId 1 with
    | ok => rfl
    | error refusal =>
      rw [hb] at hm
      cases hm
  · unfold Ledger.lease? at hmax ⊢
    rw [h.leases, hmax]

theorem Crowded.live (h : Crowded n s) (leaseId : LeaseId) :
    ∀ held ∈ s.ledger.pairs.queue leaseId, PairCache.live 1 held = true := by
  intro held hin
  have hstamp : held.atMs = 0 ∨ held.atMs = 1 := by
    cases leaseId with
    | zero =>
      rw [h.quiet, List.mem_singleton] at hin
      exact .inl (by rw [hin])
    | succ leaseId => exact .inr ((h.busy leaseId).2 held hin).2
  refine PairCache.live_of_lt ?_ ?_
  · omega
  · unfold servedTtlMs
    omega

/-- A request of another touches the pairs and the inflight counts only. -/
theorem frame_others (n : Nat) (s : Remembering) : ∃ pairs inflight,
    (Lib.exec step s (othersAt n)).ledger = { s.ledger with pairs, inflight } := by
  obtain ⟨pairs, inflight, henter⟩ := s.ledger.enter_relay_frame (n / 256 + 1)
    ((n / 256 + 8) / 8) n 1
  obtain ⟨inflight', hleave⟩ := (s.ledger.enterRelay (n / 256 + 1) ((n / 256 + 8) / 8) n 1).2
    |>.leave_relay_frame (n / 256 + 1)
  exact ⟨pairs, inflight',
    hleave.trans (congrArg (fun l : Ledger => { l with inflight := inflight' }) henter)⟩

theorem inflight_others (n : Nat) (s : Remembering) :
    (Lib.exec step s (othersAt n)).ledger.inflightOf 0 = s.ledger.inflightOf 0 := by
  have hzero : (0 : LeaseId) ≠ n / 256 + 1 := (Nat.succ_ne_zero _).symm
  have hleft := (s.ledger.enterRelay (n / 256 + 1) ((n / 256 + 8) / 8) n 1).2
    |>.leave_relay_inflight (n / 256 + 1) 0
  rw [if_neg hzero] at hleft
  refine hleft.trans ?_
  unfold Ledger.inflightOf
  rcases s.ledger.enter_relay_cases (n / 256 + 1) ((n / 256 + 8) / 8) n 1 with
    ⟨_, -, -, hinflight⟩ | ⟨-, -, -, -, hinflight⟩
  · rw [hinflight]
  · rw [hinflight, AList.lookup_insert_ne hzero]

theorem Crowded.timed_others (h : Crowded n s) : Lib.EachStep step Timed s (othersAt n) := by
  unfold othersAt
  rw [Lib.each_step_cons, Lib.each_step_cons]
  refine ⟨?_, ?_, Lib.each_step_nil⟩
  · intro nowMs hin
    rw [LedgerOp.stampMs, Option.mem_some_iff] at hin
    exact hin ▸ h.clock
  · intro nowMs hin
    cases hin

/-- Its lease may relay, so the pair cache is asked. -/
theorem Crowded.act_others (h : Crowded n s) (hn : n < 4095) :
    (LedgerOp.enter (n / 256 + 1) ((n / 256 + 8) / 8) n 1).pairAct s.ledger =
      some (.admitPair (n / 256 + 1) n 1) := by
  obtain ⟨hp, hm, -⟩ := h.may_relay (show n / 256 + 1 < 17 by omega)
  exact if_pos ⟨hp, by rw [hm]; rfl⟩

theorem Crowded.pairs_others (h : Crowded n s) (hn : n < 4095) :
    (Lib.exec step s (othersAt n)).ledger.pairs =
      (s.ledger.pairs.admitPair (n / 256 + 1) n 1).2 := by
  have hpairs := LedgerOp.apply_pairs s.ledger (.enter (n / 256 + 1) ((n / 256 + 8) / 8) n 1)
  rw [h.act_others hn, Option.elim_some] at hpairs
  exact (Ledger.leave_relay_pairs _ _).trans hpairs

/-- What it records is not on the lease of the first pair. -/
theorem Crowded.recorded_others (h : Crowded n s) (hn : n < 4095) :
    (Lib.exec step s (othersAt n)).recordedOn 0 = s.recordedOn 0 := by
  have hother : ∀ e ∈ s.recordedBy (.enter (n / 256 + 1) ((n / 256 + 8) / 8) n 1), e.1 ≠ 0 := by
    intro e hin
    unfold recordedBy at hin
    rw [h.act_others hn] at hin
    simp only at hin
    split at hin
    · rw [List.mem_singleton.mp hin]
      exact Nat.succ_ne_zero _
    · cases hin
  have hrecorded : (Lib.exec step s (othersAt n)).recorded =
      s.recordedBy (.enter (n / 256 + 1) ((n / 256 + 8) / 8) n 1) ++ s.recorded := rfl
  unfold recordedOn
  rw [hrecorded, List.countP_append, List.countP_eq_zero.mpr (by simpa using hother), Nat.zero_add]

/-- Its pair joins the queue of its lease, and every other queue stays. -/
theorem Crowded.busy_others (h : Crowded n s) {k : Nat} {queue : List RelayedPair}
    (hqueue : queue = if k + 1 = n / 256 + 1 then
        s.ledger.pairs.queue (n / 256 + 1) ++ [{ requestId := n, atMs := 1, charged := false }]
      else s.ledger.pairs.queue (k + 1)) :
    queue.length ≤ n + 1 - 256 * k ∧
      ∀ held ∈ queue, held.requestId < n + 1 ∧ held.atMs = 1 := by
  subst hqueue
  split
  · rename_i hsame
    obtain rfl := Nat.succ_injective hsame
    obtain ⟨hlength, hbelow⟩ := h.busy (n / 256)
    rw [List.length_append, List.length_singleton]
    refine ⟨by omega, fun held hin => ?_⟩
    rcases List.mem_append.mp hin with hin | hin
    · exact ⟨(hbelow held hin).1.trans (Nat.lt_succ_self n), (hbelow held hin).2⟩
    · rw [List.mem_singleton.mp hin]
      exact ⟨Nat.lt_succ_self n, rfl⟩
  · obtain ⟨hlength, hbelow⟩ := h.busy k
    exact ⟨hlength.trans (by omega), fun held hin =>
      ⟨(hbelow held hin).1.trans (Nat.lt_succ_self n), (hbelow held hin).2⟩⟩

/-- While the ledger has room, a request of another lease takes nothing away. -/
theorem crowded_step (h : Crowded n s) (hn : n < 4095) :
    Crowded (n + 1) (Lib.exec step s (othersAt n)) := by
  obtain ⟨hlength, hbelow⟩ := h.busy (n / 256)
  obtain ⟨htotal, hqueue⟩ := @PairCache.admit_within s.ledger.pairs (n / 256 + 1) n 1 h.live
    (by rw [h.total]; unfold servedCapacity; omega)
    (by unfold servedPerLeaseCapacity; omega)
    (fun held hin => Nat.ne_of_lt (hbelow held hin).1)
  obtain ⟨pairs, inflight, hframe⟩ := frame_others n s
  have hpairs := h.pairs_others hn
  constructor
  · exact (congrArg Ledger.leases hframe).trans h.leases
  · exact (congrArg Ledger.grantees hframe).trans h.grantees
  · exact (congrArg Ledger.headroom hframe).trans h.headroom
  · exact (congrArg Ledger.scopes hframe).trans h.scopes
  · exact (inflight_others n s).trans h.free
  · exact le_rfl
  · exact (h.recorded_others hn).trans h.mine
  · rw [hpairs, htotal, h.total]
  · rw [hpairs, hqueue, if_neg (Nat.succ_ne_zero _).symm, h.quiet]
  · intro k
    rw [hpairs]
    exact h.busy_others (hqueue (k + 1))

/-- The first `n` requests of others, 256 on each lease. -/
def others (n : Nat) : List LedgerOp :=
  (List.range n).flatMap othersAt

/-- The state once the first pair has been admitted and released. -/
def askedOnce : Remembering :=
  run busyLedger 0 [.enter 0 0 0 0, .leave 0 0]

theorem run_asked_once (ops : List LedgerOp) :
    run busyLedger 0 (.enter 0 0 0 0 :: .leave 0 0 :: ops) = Lib.exec step askedOnce ops := rfl

theorem crowded_asked_once : Crowded 0 askedOnce := by
  obtain ⟨pairs, inflight, henter⟩ := busyLedger.enter_relay_frame 0 0 0 0
  obtain ⟨inflight', hleave⟩ := (busyLedger.enterRelay 0 0 0 0).2.leave_relay_frame 0
  have hframe : askedOnce.ledger = { busyLedger with pairs, inflight := inflight' } :=
    hleave.trans (by rw [henter])
  have hempty : ∀ leaseId, PairCache.queue (∅ : PairCache) leaseId = [] := fun _ => rfl
  obtain ⟨-, hqueue⟩ := @PairCache.admit_within ∅ 0 0 0
    (fun _ _ hin => absurd hin List.not_mem_nil) (by decide) (by decide)
    (fun _ hin => absurd hin List.not_mem_nil)
  have hact : (LedgerOp.enter 0 0 0 0).pairAct busyLedger = some (.admitPair 0 0 0) := by
    decide +kernel
  have hpairs := (Ledger.leave_relay_pairs (busyLedger.enterRelay 0 0 0 0).2 0).trans
    (LedgerOp.apply_pairs busyLedger (.enter 0 0 0 0))
  rw [hact, Option.elim_some] at hpairs
  constructor
  case grantees => rw [hframe]
  case headroom => rw [hframe]
  case scopes => rw [hframe]
  case busy =>
    intro k
    have hnone : askedOnce.ledger.pairs.queue (k + 1) = [] :=
      (congrArg (fun c => PairCache.queue c (k + 1)) hpairs).trans
        ((hqueue (k + 1)).trans (by rw [if_neg (Nat.succ_ne_zero k), hempty]))
    rw [hnone]
    exact ⟨Nat.zero_le _, fun _ hin => absurd hin List.not_mem_nil⟩
  all_goals decide +kernel

theorem crowded_others (hn : n ≤ 4095) :
    Lib.EachStep step Timed askedOnce (others n) ∧
      Crowded n (Lib.exec step askedOnce (others n)) := by
  induction n with
  | zero => exact ⟨Lib.each_step_nil, crowded_asked_once⟩
  | succ n ih =>
    obtain ⟨htimed, hcrowded⟩ := ih (by omega)
    have hsplit : others (n + 1) = others n ++ othersAt n := by
      unfold others
      rw [List.range_succ, List.flatMap_append, List.flatMap_singleton]
    rw [hsplit, Lib.each_step_append, Lib.exec_append]
    exact ⟨⟨htimed, hcrowded.timed_others⟩, crowded_step hcrowded hn⟩

/-- A pair is admitted, and 4095 requests of sixteen other leases follow, none on its own lease.
The same pair is then admitted again, long before it expires. -/
theorem other_leases_forget_pair :
    Lib.EachStep step Timed (start busyLedger 0) (.enter 0 0 0 0 :: .leave 0 0 :: others 4095) ∧
    (busyLedger.enterRelay 0 0 0 0).1 = .ok () ∧
    (run busyLedger 0 (.enter 0 0 0 0 :: .leave 0 0 :: others 4095)).recordedOn 0 =
      (run busyLedger 0 [.enter 0 0 0 0]).recordedOn 0 ∧
    (run busyLedger 0 (.enter 0 0 0 0 :: .leave 0 0 :: others 4095)).clockMs ≤ 1 ∧
    (1 : Int) < 0 + servedTtlMs ∧
    ((run busyLedger 0 (.enter 0 0 0 0 :: .leave 0 0 :: others 4095)).ledger.enterRelay 0 0 0 1).1 =
      .ok () := by
  obtain ⟨htimed, hcrowded⟩ := crowded_others (n := 4095) le_rfl
  obtain ⟨hp, hm, hmax⟩ := hcrowded.may_relay (show (0 : LeaseId) < 17 by decide)
  rw [run_asked_once]
  refine ⟨?_, by decide +kernel, hcrowded.mine.trans (by decide +kernel), hcrowded.clock,
    by decide +kernel, Ledger.enter_relay_ok hp hm ?_ ?_⟩
  · rw [Lib.each_step_cons, Lib.each_step_cons]
    exact ⟨by decide +kernel, by decide +kernel, htimed⟩
  · have hforgot := PairCache.swept_forgets hcrowded.live (by rw [hcrowded.total]; decide)
      hcrowded.quiet ?_
    · rcases PairCache.admit_cases (Lib.exec step askedOnce (others 4095)).ledger.pairs 0 0 1 with
        ⟨-, held, hin, -⟩ | ⟨-, ha⟩
      · rw [hforgot] at hin
        cases hin
      · rw [ha]
    · intro other hne next hin
      obtain ⟨k, rfl⟩ := Nat.exists_eq_succ_of_ne_zero hne
      rw [((hcrowded.busy k).2 next hin).2]
      decide
  · rw [hmax, hcrowded.free]
    decide

end Remembering

end TeamClaude
