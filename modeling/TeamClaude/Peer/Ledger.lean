import TeamClaude.Lib.Retain
import TeamClaude.Peer.Lend
import Mathlib.Algebra.Order.BigOperators.Group.List

/-!
# The lender's ledger

Every lease this node has granted, who it was granted to and what it draws from, with the requests
in flight against each, the request ids already admitted, and the owner's headroom as last measured.
Every reading of a clock is an argument.
-/

namespace TeamClaude

inductive RelayRefusal
  | lease (refusal : LeaseRefusal)
  | tooManyInflight (max : Nat)
  | replayed
  | notTheGrantee
  deriving DecidableEq

/-- How a request can be held inside a scope on this node. -/
inductive ScopeRestriction
  | unrestricted
  | group (name : String)
  | accounts (labels : List String)
  | unenforceable
  deriving DecidableEq

/-- `WindowUtilization`: what the ledger asks of the node's own fleet. -/
structure Fleet where
  scopeRestriction : LendScope → ScopeRestriction
  lendable : LendScope → Window → Option ℚ
  lendableByHand : LendScope → Window → Option ℚ

/-- One relayed request the ledger remembers. -/
structure RelayedPair where
  requestId : RequestId
  atMs : Int
  charged : Bool
  deriving DecidableEq

def servedCapacity : Nat := 4096

def servedTtlMs : Int := 600000

def servedPerLeaseCapacity : Nat := 256

def maxLeasesPerPeer : Nat := 8

/-- The remembered requests of each lease, newest last. -/
abbrev PairCache := AList fun _ : LeaseId => List RelayedPair

namespace PairCache

def total (cache : PairCache) : Nat :=
  (cache.entries.map fun e => e.2.length).sum

/-- Forget the pairs older than the TTL, and the leases left without one. -/
def expire (cache : PairCache) (nowMs : Int) : PairCache :=
  Lib.retain (fun e => !e.2.isEmpty)
    (Lib.mapVals (fun _ ids => ids.filter fun pair =>
      decide (saturatingSub nowMs pair.atMs < servedTtlMs)) cache)

def oldest (cache : PairCache) : Option LeaseId :=
  (minByKey Prod.snd (cache.entries.filterMap fun e =>
    e.2.head?.map fun pair => (e.1, pair.atMs))).map Prod.fst

def popFront (cache : PairCache) (leaseId : LeaseId) : PairCache :=
  match (cache.lookup leaseId).map List.tail with
  | none => cache
  | some [] => cache.erase leaseId
  | some ids => cache.insert leaseId ids

/-- The process-wide bound. A round takes one pair away, so `total` rounds are enough. -/
def evict (cache : PairCache) : Nat → PairCache
  | 0 => cache
  | rounds + 1 =>
    if servedCapacity ≤ cache.total then
      match cache.oldest with
      | none => cache
      | some leaseId => (cache.popFront leaseId).evict rounds
    else cache

/-- `admit_pair`: expire, evict, refuse a repeat, and record. -/
def admitPair (cache : PairCache) (leaseId : LeaseId) (requestId : RequestId) (nowMs : Int) :
    Bool × PairCache :=
  let cache := cache.expire nowMs
  let cache := cache.evict cache.total
  let ids := (cache.lookup leaseId).getD []
  if ids.any fun pair => decide (pair.requestId = requestId) then (false, cache)
  else
    (true, cache.insert leaseId (ids.drop (ids.length + 1 - servedPerLeaseCapacity) ++
      [{ requestId, atMs := nowMs, charged := false }]))

def find (cache : PairCache) (leaseId : LeaseId) (requestId : RequestId) : Option RelayedPair :=
  ((cache.lookup leaseId).getD []).find? fun pair => decide (pair.requestId = requestId)

def setCharged (cache : PairCache) (leaseId : LeaseId) (requestId : RequestId) : PairCache :=
  match cache.lookup leaseId with
  | none => cache
  | some ids =>
    cache.insert leaseId (ids.modify
      (ids.findIdx fun pair => decide (pair.requestId = requestId)) fun pair =>
        { pair with charged := true })

/-- `mark_charged`: a pair not remembered is recorded as charged. -/
def markCharged (cache : PairCache) (leaseId : LeaseId) (requestId : RequestId) (nowMs : Int) :
    Bool × PairCache :=
  match cache.find leaseId requestId with
  | some pair => if pair.charged then (false, cache) else (true, cache.setCharged leaseId requestId)
  | none => (true, (cache.admitPair leaseId requestId nowMs).2.setCharged leaseId requestId)

end PairCache

structure Ledger where
  leases : List Lease := []
  grantees : AList (fun _ : LeaseId => PeerId) := ∅
  headroom : AList (fun _ : String × Window => ℚ) := ∅
  inflight : AList (fun _ : LeaseId => Nat) := ∅
  pairs : PairCache := ∅
  scopes : AList (fun _ : LeaseId => LendScope) := ∅

namespace Ledger

/-! ## Reads -/

def lease? (l : Ledger) (leaseId : LeaseId) : Option Lease :=
  l.leases.find? fun lease => decide (lease.leaseId = leaseId)

def scopeOf (l : Ledger) (leaseId : LeaseId) : LendScope :=
  (l.scopes.lookup leaseId).getD .all

def inflightOf (l : Ledger) (leaseId : LeaseId) : Nat :=
  (l.inflight.lookup leaseId).getD 0

/-- `headroom_for`: the whole fleet's figure is a ceiling on the scope's own. -/
def headroomFor (l : Ledger) (scope : LendScope) (window : Window) : Option ℚ :=
  let all := l.headroom.lookup (LendScope.all.toSpec, window)
  match l.headroom.lookup (scope.toSpec, window), all with
  | some own, some all => some (min own all)
  | some own, none => some own
  | none, all => all

def mayRelay (l : Ledger) (leaseId : LeaseId) (nowMs : Int) : Except LeaseRefusal Unit :=
  match l.lease? leaseId with
  | none => .error .leaseExpired
  | some lease =>
    if lease.expiresAtMs ≤ nowMs then .error .leaseExpired
    else if lease.until_.any fun until_ => decide (until_ ≤ secondsOf nowMs) then
      .error .leaseExpired
    else
      match fractionBudget lease.unit with
      | none => .error .unsupported
      | some budget =>
        if budget ≤ lease.spent then .error .leaseSpent
        else if (l.headroomFor (l.scopeOf leaseId) lease.window).any fun room =>
            decide (0 < room) then .ok ()
        else .error .ownerGuard

/-- The part of a lease that is lent and not yet spent. -/
def unspent (lease : Lease) : ℚ :=
  match lease.unit with
  | .fraction amount => max (amount - lease.spent) 0
  | .tokens _ => 0
  | .unknown => 0

/-- `committed_fraction`: what is already promised of the accounts a scope draws from. -/
def committedFraction (l : Ledger) (scope : LendScope) (window : Window) (nowMs : Int) : ℚ :=
  ((l.leases.filter fun lease => decide (nowMs < lease.expiresAtMs) &&
    decide (lease.window = window) && scopesOverlap scope (l.scopeOf lease.leaseId)).map unspent).sum

def liveFor (l : Ledger) (peer : PeerId) (nowMs : Int) : Nat :=
  l.leases.countP fun lease => decide (nowMs < lease.expiresAtMs) &&
    decide (l.grantees.lookup lease.leaseId = some peer)

/-! ## Writes -/

/-- `record`: the one insertion point, which forgets every expired row. -/
def record (l : Ledger) (lease : Lease) (nowMs : Int) : Ledger :=
  let kept := l.leases.filter fun held => decide (nowMs < held.expiresAtMs)
  let live := fun id => decide (id ∈ kept.map Lease.leaseId)
  { l with
    leases := kept ++ [lease]
    grantees := Lib.retain (fun e => live e.1) l.grantees
    scopes := Lib.retain (fun e => live e.1) l.scopes
    inflight := Lib.retain (fun e => live e.1) l.inflight }

def recordScoped (l : Ledger) (lease : Lease) (peer : PeerId) (scope : LendScope) (nowMs : Int) :
    Ledger :=
  let l := l.record lease nowMs
  { l with
    grantees := l.grantees.insert lease.leaseId peer
    scopes := l.scopes.insert lease.leaseId scope }

def noteScopeHeadroom (l : Ledger) (scope : LendScope) (window : Window) (fraction : ℚ) : Ledger :=
  { l with headroom := l.headroom.insert (scope.toSpec, window) (max fraction 0) }

/-- `enter_relay`: a refusal leaves the slots as they were, but a request refused for its slot has
been admitted to the cache. -/
def enterRelay (l : Ledger) (leaseId : LeaseId) (peer : PeerId) (requestId : RequestId)
    (nowMs : Int) : Except RelayRefusal Unit × Ledger :=
  if l.grantees.lookup leaseId ≠ some peer then (.error .notTheGrantee, l)
  else
    match l.mayRelay leaseId nowMs with
    | .error refusal => (.error (.lease refusal), l)
    | .ok () =>
      let admitted := l.pairs.admitPair leaseId requestId nowMs
      let l := { l with pairs := admitted.2 }
      if !admitted.1 then (.error .replayed, l)
      else
        let cap := ((l.lease? leaseId).map Lease.maxInflight).getD 0
        let inFlight := l.inflightOf leaseId
        if cap ≤ inFlight then (.error (.tooManyInflight cap), l)
        else (.ok (), { l with inflight := l.inflight.insert leaseId (inFlight + 1) })

/-- `leave_relay`: a count of zero is not kept. -/
def leaveRelay (l : Ledger) (leaseId : LeaseId) : Ledger :=
  match l.inflight.lookup leaseId with
  | none => l
  | some inFlight =>
    if inFlight - 1 = 0 then { l with inflight := l.inflight.erase leaseId }
    else { l with inflight := l.inflight.insert leaseId (inFlight - 1) }

def addSpent (leaseId : LeaseId) (charge : ℚ) : List Lease → List Lease
  | [] => []
  | lease :: rest =>
    if lease.leaseId = leaseId then { lease with spent := lease.spent + charge } :: rest
    else lease :: addSpent leaseId charge rest

/-- `debit`: a request is charged once, its observed rise or the least charge. -/
def debit (l : Ledger) (leaseId : LeaseId) (requestId : RequestId) (observedRise : ℚ)
    (nowMs : Int) : ℚ × Ledger :=
  let marked := l.pairs.markCharged leaseId requestId nowMs
  let l := { l with pairs := marked.2 }
  if !marked.1 then (0, l)
  else
    let charge := if minDebit < observedRise then observedRise else minDebit
    if (l.lease? leaseId).isSome then
      (charge, { l with leases := addSpent leaseId charge l.leases })
    else (0, l)

/-- `apply_usage_hint`: a hint only ever raises the spend. -/
def applyUsageHint (l : Ledger) (leaseId : LeaseId) (hinted : ℚ) : ℚ × Ledger :=
  if hinted ≤ 0 then (0, l)
  else if (l.lease? leaseId).isSome then
    (hinted, { l with leases := addSpent leaseId hinted l.leases })
  else (0, l)

end Ledger

/-! ## Granting -/

/-- What `grant` answers: the frame, the grant that funded it and the scope it draws from. -/
structure Granted where
  answer : LeaseGrant
  funding : Option LendGrant
  scope : LendScope

def Granted.unfunded (refusal : LeaseRefusal) : Granted :=
  { answer := refuse refusal, funding := none, scope := .all }

/-- What a call of `grant` reads besides the ledger: the peer's row, the fleet, the local offset,
the random source, and the clock, which it reads five times. -/
structure GrantCall where
  peer : PeerId
  ask : LeaseRequest
  row : Option PeerRow
  fleet : Fleet
  offset : Int
  randomId : Option LeaseId
  capMs : Int
  pickMs : Int
  scheduleNow : Instant
  clampMs : Int
  recordMs : Int

namespace GrantCall

def granted (c : GrantCall) : Option LendGrant :=
  c.row.bind fun row => row.grantFor c.ask.window (secondsOf c.pickMs) fun scope =>
    decide (c.fleet.scopeRestriction scope ≠ .unenforceable)

def scope (c : GrantCall) : LendScope :=
  (c.granted.map LendGrant.scope).getD .all

def schedule (c : GrantCall) : Option Schedule :=
  c.granted.bind LendGrant.schedule

end GrantCall

namespace Ledger

def measured (l : Ledger) (c : GrantCall) : Ledger :=
  match c.fleet.lendable c.scope c.ask.window with
  | some fraction => l.noteScopeHeadroom c.scope c.ask.window fraction
  | none => l

/-- What is left to lend: the headroom, less what is promised, and for a hand grant no more than the
accounts whose bearer can leave have left. -/
def lendable (l : Ledger) (c : GrantCall) : ℚ :=
  let room := max ((l.headroomFor c.scope c.ask.window).getD 0 -
    l.committedFraction c.scope c.ask.window c.capMs) 0
  match c.granted.map LendGrant.mode with
  | some .hand => ((c.fleet.lendableByHand c.scope c.ask.window).map (min room)).getD room
  | _ => room

def grant (l : Ledger) (c : GrantCall) : Granted × Ledger :=
  if maxLeasesPerPeer ≤ l.liveFor c.peer c.capMs then (.unfunded .tooManyLeases, l)
  else
    match scheduleRefusal c.schedule c.offset c.scheduleNow with
    | some refusal => (.unfunded refusal, l)
    | none =>
      let l := l.measured c
      match c.randomId with
      | none => (.unfunded .unsupported, l)
      | some leaseId =>
        let answer := clampToGrant c.ask c.granted (c.row.any PeerRow.inspect) (l.lendable c)
          c.clampMs leaseId (c.granted.bind LendGrant.until_)
          (c.schedule.bind fun schedule => schedule.closesAtMs c.offset c.scheduleNow)
        let l := answer.lease.elim l fun lease => l.recordScoped lease c.peer c.scope c.recordMs
        ({ answer, funding := c.granted, scope := c.scope }, l)

end Ledger

end TeamClaude
