import TeamClaude.Manager.Select

/-!
# The ladder of one request

What the rotation of a request keeps between its attempts: the accounts it may no longer pick, the
account the next attempt must use, the retry budgets, and the tally its last answer is read off.
Every move of it is a method.
-/

namespace TeamClaude

def maxSameAccount429 : Nat := 2

def inlineWaitMaxSecs : Int := 15

def noGuidanceHoldSecs : Int := 15

def noGuidanceJitterMaxSecs : Int := 5

def exhaustionSoftWaitMaxSecs : Int := noGuidanceHoldSecs + noGuidanceJitterMaxSecs

def maxSameAccount529Retries : Nat := 2

def max529FailoversPerRequest : Nat := 2

def maxOfflineWaitsPerRequest : Nat := 3

def maxSameAccountTransportRetries : Nat := 3

def maxSendsPerAccount : Nat :=
  2 + maxSameAccountTransportRetries + maxSameAccount429 + maxSameAccount529Retries

def maxAttemptsFor (accountCount : Nat) : Nat :=
  max (accountCount * maxSendsPerAccount + (4 + maxOfflineWaitsPerRequest)) 1

/-- A transient limit is waited out in place, or the account is parked for so many seconds. -/
inductive Transient429
  | inlineWait (secs : Int)
  | park (secs : Int)
  deriving DecidableEq

def classifyTransient429 (retryAfter : Option Int) (retried : Nat) (jitter : Int) : Transient429 :=
  match retryAfter with
  | some secs =>
    let wait := max 1 (min secs 300)
    if retried < maxSameAccount429 ∧ wait ≤ inlineWaitMaxSecs then .inlineWait wait else .park wait
  | none => .park (noGuidanceHoldSecs + jitter)

/-- The one wait of a request for a fleet that is parked for the moment. -/
def softWaitSecs (soonestFreeSecs : Int) (alreadyWaited : Bool) : Option Int :=
  if alreadyWaited ∨ soonestFreeSecs ≤ 0 ∨ exhaustionSoftWaitMaxSecs < soonestFreeSecs then none
  else some soonestFreeSecs

def everyAttemptTransportFailed (transportFailures upstreamResponses : Nat) : Bool :=
  decide (0 < transportFailures) && decide (upstreamResponses = 0)

/-! ## Tally -/

/-- An upstream answer that is kept to be forwarded. -/
structure HeldAnswer where
  headers : List (String × String)
  body : String
  deriving DecidableEq

/-- What the client is answered. -/
inductive Reply
  | offlineUnavailable (failures : Nat)
  | badGateway (failures : Nat) (unknownOutcome : Bool)
  | modelUnavailable (refusals : List (Option String × String))
      (refused403 : List (Nat × Option String))
  | accessUnread
  | accessBlocked (answer : HeldAnswer) (refused403 : List (Nat × Option String))
  | credentialRefused (refused403 : List (Nat × Option String))
  | poolRefused
  | switchWarning (bound : Nat)
  | exhausted (boundTo : Option Nat)
  | pinnedEgress
  | carried
  | deliveredUnknown
  | blocked (answer : HeldAnswer)
  | forwarded (status : Nat)
  deriving DecidableEq

/-- What the attempts of one request came back with, counted over all of them. -/
structure Tally where
  transportFailures : Nat := 0
  upstreamResponses : Nat := 0
  unknownOutcomeTransportFailure : Bool := false
  offlineFailures : Nat := 0
  refused403 : List (Nat × Option String) := []
  modelRefusals : List (Option String × String) := []
  accountAccessBlocks : Nat := 0
  codexAccessReadFailures : Nat := 0
  lastAccountAccessBlock : Option HeldAnswer := none
  deriving DecidableEq

/-- `Tally::verdict`: the answer the tally alone decides. `poolRefused` is what
`codex_pool_is_refused` reads off the fleet. -/
def Tally.verdict (t : Tally) (provider : Provider) (poolRefused : Bool) : Option Reply :=
  if everyAttemptTransportFailed t.transportFailures t.upstreamResponses then
    if 0 < t.offlineFailures then some (.offlineUnavailable t.offlineFailures)
    else some (.badGateway t.transportFailures t.unknownOutcomeTransportFailure)
  else if t.modelRefusals ≠ [] then some (.modelUnavailable t.modelRefusals t.refused403)
  else if 0 < t.codexAccessReadFailures ∧ t.codexAccessReadFailures = t.upstreamResponses then
    some .accessUnread
  else
    let blocked :=
      if 0 < t.accountAccessBlocks ∧
          t.accountAccessBlocks + t.refused403.length = t.upstreamResponses then
        t.lastAccountAccessBlock
      else none
    match blocked with
    | some answer => some (.accessBlocked answer t.refused403)
    | none =>
      if t.refused403 ≠ [] ∧ t.refused403.length = t.upstreamResponses then
        some (.credentialRefused t.refused403)
      else
        match provider with
        | .codex => if poolRefused then some .poolRefused else none
        | .anthropic => none

/-! ## Ladder -/

/-- What one attempt decides. -/
inductive Step
  | retrySame
  | rotate
  | park
  | failOver (other : Nat)
  | answer (reply : Reply)
  | forward (status : Nat)
  deriving DecidableEq

/-- The rotation state of one request. -/
structure Ladder where
  tried : Finset Nat := ∅
  benchedForHold : List Nat := []
  nextIdx : Option Nat := none
  forced401 : Finset Nat := ∅
  retried429 : Nat → Nat := fun _ => 0
  retried529 : Nat → Nat := fun _ => 0
  failovers529 : Nat := 0
  peerEgressTried : Bool := false
  softWaitedExhaustion : Bool := false
  parkedTransient : Finset Nat := ∅
  transportRetried : Nat → Nat := fun _ => 0
  resetRecycled : Finset Nat := ∅
  offlineWaits : Nat := 0
  tally : Tally := {}

/-- Whether the account's hold has run out. An index that names no account counts as held. -/
def Manager.holdExpired (m : Manager) (idx : Nat) (nowMs : Int) : Bool :=
  (m.account idx).any fun a => (a.holdRemainingMs nowMs).isNone

namespace Ladder

/-- The account is out for the rest of the request. -/
def bench (l : Ladder) (idx : Nat) : Ladder :=
  { l with tried := insert idx l.tried }

/-- Benched for the hold of a bound conversation; one that is out already is not remembered. -/
def benchForHold (l : Ladder) (idx : Nat) : Ladder :=
  if idx ∈ l.tried then l
  else { l with tried := insert idx l.tried, benchedForHold := l.benchedForHold ++ [idx] }

/-- Re-admit what the hold benched, and only that. -/
def releaseHold (l : Ladder) : Ladder :=
  { l with tried := l.tried \ l.benchedForHold.toFinset, benchedForHold := [] }

/-- The account is out until its hold runs out. -/
def park (l : Ladder) (idx : Nat) : Ladder :=
  { l with tried := insert idx l.tried, parkedTransient := insert idx l.parkedTransient }

/-- The parked accounts whose hold has run out. -/
def freed (l : Ladder) (m : Manager) (nowMs : Int) : Finset Nat :=
  l.parkedTransient.filter fun idx => m.holdExpired idx nowMs = true

def readmitExpiredParks (l : Ladder) (m : Manager) (nowMs : Int) : Ladder :=
  { l with
    tried := l.tried \ l.freed m nowMs
    parkedTransient := l.parkedTransient \ l.freed m nowMs }

def setNext (l : Ladder) (next : Option Nat) : Ladder :=
  { l with nextIdx := next }

def retrySame (l : Ladder) (idx : Nat) : Ladder :=
  l.setNext (some idx)

def failOver529 (l : Ladder) (idx other : Nat) : Ladder :=
  { l with
    tried := insert idx l.tried
    failovers529 := l.failovers529 + 1
    nextIdx := some other }

/-- `first_forced_refresh`: recorded, and whether it is the first. -/
def firstForcedRefresh (l : Ladder) (idx : Nat) : Ladder × Bool :=
  ({ l with forced401 := insert idx l.forced401 }, !decide (idx ∈ l.forced401))

def spend429Retry (l : Ladder) (idx : Nat) : Ladder :=
  { l with retried429 := Function.update l.retried429 idx (l.retried429 idx + 1) }

def spend529Retry (l : Ladder) (idx : Nat) : Ladder :=
  { l with retried529 := Function.update l.retried529 idx (l.retried529 idx + 1) }

def spendTransportRetry (l : Ladder) (idx : Nat) : Ladder :=
  { l with transportRetried := Function.update l.transportRetried idx (l.transportRetried idx + 1) }

def firstResetRecycle (l : Ladder) (idx : Nat) : Ladder :=
  { l with resetRecycled := insert idx l.resetRecycled }

def takeOfflineWait (l : Ladder) : Option Ladder :=
  if l.offlineWaits < maxOfflineWaitsPerRequest then
    some { l with offlineWaits := l.offlineWaits + 1 }
  else none

def spendPeerEgress (l : Ladder) : Ladder :=
  { l with peerEgressTried := true }

def spendSoftWait (l : Ladder) : Ladder :=
  { l with softWaitedExhaustion := true }

def onTally (l : Ladder) (f : Tally → Tally) : Ladder :=
  { l with tally := f l.tally }

def transportFailed (l : Ladder) : Ladder :=
  l.onTally fun t => { t with transportFailures := t.transportFailures + 1 }

def upstreamAnswered (l : Ladder) : Ladder :=
  l.onTally fun t => { t with upstreamResponses := t.upstreamResponses + 1 }

def unknownOutcome (l : Ladder) : Ladder :=
  l.onTally fun t => { t with unknownOutcomeTransportFailure := true }

def offlineFailed (l : Ladder) : Ladder :=
  l.onTally fun t => { t with offlineFailures := t.offlineFailures + 1 }

def codexAccessUnread (l : Ladder) : Ladder :=
  l.onTally fun t => { t with codexAccessReadFailures := t.codexAccessReadFailures + 1 }

def accountAccessBlocked (l : Ladder) (answer : HeldAnswer) : Ladder :=
  l.onTally fun t =>
    { t with
      accountAccessBlocks := t.accountAccessBlocks + 1
      lastAccountAccessBlock := some answer }

def refuse403 (l : Ladder) (idx : Nat) (name : Option String) : Ladder :=
  l.onTally fun t => { t with refused403 := t.refused403 ++ [(idx, name)] }

def modelRefused (l : Ladder) (account : Option String) (detail : String) : Ladder :=
  l.onTally fun t => { t with modelRefusals := t.modelRefusals ++ [(account, detail)] }

end Ladder

end TeamClaude
