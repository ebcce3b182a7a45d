import TeamClaude.Proxy.Ladder
import Mathlib.Data.Finset.Card

/-!
# The rotation of a request

How the request handler walks the fleet: the scope and the hold a request starts with, the pick of
each attempt, what the attempt comes back with, and the move of the ladder it decides. The manager
is shared with every other request, so each reading of it is an input of the turn that makes it.
-/

namespace TeamClaude

/-! ## Labels -/

def isWhiteSpace (c : Char) : Bool :=
  let n := c.toNat
  (decide (9 ≤ n) && decide (n ≤ 13)) || n == 32 || n == 0x85 || n == 0xA0 || n == 0x1680 ||
    (decide (0x2000 ≤ n) && decide (n ≤ 0x200A)) || n == 0x2028 || n == 0x2029 || n == 0x202F ||
    n == 0x205F || n == 0x3000

/-- `str::trim`, on the characters. -/
def trimChars (cs : List Char) : List Char :=
  ((cs.dropWhile isWhiteSpace).reverse.dropWhile isWhiteSpace).reverse

def isAsciiHexDigit (c : Char) : Bool :=
  c.isDigit || (decide ('a' ≤ c) && decide (c ≤ 'f')) || (decide ('A' ≤ c) && decide (c ≤ 'F'))

/-- The `8-4-4-4-12` shape of an upstream id. -/
def isUuidShape (cs : List Char) : Bool :=
  let groups := cs.splitOn '-'
  decide (groups.map List.length = [8, 4, 4, 4, 12]) && groups.all fun g => g.all isAsciiHexDigit

def maxLabelBytes : Nat := 32

inductive LabelRefusal
  | empty
  | uuidShape
  | tooLong (len : Nat)
  | character (c : Char)
  deriving DecidableEq

def isLabelChar (c : Char) : Bool :=
  c.isAlphanum || c == '-' || c == '_' || c == '.' || c == ' '

def sanitizeLabel (raw : String) : Except LabelRefusal String :=
  let trimmed := trimChars raw.toList
  let len := (trimmed.map Char.utf8Size).sum
  if trimmed = [] then .error .empty
  else if isUuidShape trimmed then .error .uuidShape
  else if maxLabelBytes < len then .error (.tooLong len)
  else
    match trimmed.find? fun c => !isLabelChar c with
    | some c => .error (.character c)
    | none => .ok (String.ofList trimmed)

def accountSetLabels (value : String) : List String :=
  ((value.toList.splitOn ',').map fun cs => String.ofList (trimChars cs)).filter (· ≠ "")

/-- The account's name, as a label, is in the set. -/
def Names (labels : List String) (name : String) : Bool :=
  match sanitizeLabel name with
  | .ok label => decide (label ∈ labels)
  | .error _ => false

/-! ## Readings of the manager -/

def thinkingIsOrgBound (model : String) : Bool :=
  decide ("claude-sonnet-5-5".toList <:+: toAsciiLowercase model) ||
    decide ("claude-haiku-5-5".toList <:+: toAsciiLowercase model)

namespace Manager

def providerAccountCount (m : Manager) (provider : Provider) : Nat :=
  m.accounts.countP fun a => decide (a.provider = provider) && !a.removed

def liveProvider (m : Manager) (idx : Nat) : Option Provider :=
  (m.account idx).bind fun a => if a.removed then none else some a.provider

/-- The bound account can still hold a conversation. The soft threshold is not asked. -/
def boundAccountHolds (m : Manager) (idx : Nat) (now : Instant) (isFable : Bool)
    (group : Option String) (warm : WarmWindow) : Bool :=
  (m.account idx).any fun a =>
    let g := m.gateInputs now isFable a.provider
    a.accountHardOk g group warm && a.terminalGate.isNone && !a.modelBlocked g

/-- `select_bound`: the held account, over the soft threshold if need be. -/
def selectBound (m : Manager) (idx : Nat) (tried : Finset Nat) (now : Instant) (isFable : Bool)
    (group strictGroup : Option String) (warm : WarmWindow) : Option Nat × Manager :=
  if idx ∈ tried then (none, m)
  else
    match m.account idx with
    | none => (none, m)
    | some a =>
      let unsupportedExit :=
        decide (a.provider = .codex) && decide (idx ∈ m.codexAccountsWithUnsupportedExit)
      if unsupportedExit || !a.carries strictGroup ||
          !a.hardOk (m.gateInputs now isFable a.provider) group warm then (none, m)
      else (some idx, m.stamp idx)

/-- `outside_org_of`: everything but the siblings of the account in its organization. -/
def outsideOrgOf (m : Manager) (idx : Nat) : Finset Nat :=
  let org := (m.account idx).bind fun a => orgKey a.probe
  ((m.accounts.zipIdx.filter fun x =>
    decide (x.2 = idx) || org.isNone || decide (orgKey x.1.probe ≠ org)).map Prod.snd).toFinset

end Manager

/-! ## The request -/

/-- What the handler has read off a request when it comes to pick an account. `base` carries the
arguments of its picks; each pick has its own `tried` and `now`. -/
structure Ask where
  base : Request
  relayed : Bool := false
  accountSet : Option String := none
  carriesBoundHistory : Bool := false

namespace Ask

def provider (ask : Ask) : Provider :=
  ask.base.provider

def pick (ask : Ask) (tried : Finset Nat) (now : Instant) : Request :=
  { ask.base with tried := tried, now := now }

/-- The account set the request is scoped to: only a relayed request has one. -/
def scope (ask : Ask) : Option (List String) :=
  ((ask.accountSet.filter fun _ => ask.relayed).map accountSetLabels).filter (· ≠ [])

end Ask

/-- Where a released conversation goes first: a sibling in the organization of its account, when
its model's thinking survives nowhere else. -/
def sameOrgRelease (m : Manager) (disk : Option Config) (ask : Ask) (bound : Nat)
    (tried : Finset Nat) (now : Instant) : Option Nat :=
  if ask.base.model.any thinkingIsOrgBound then
    (m.selectWithGroup disk (ask.pick (m.outsideOrgOf bound ∪ tried) now)).1
  else none

/-- The one warning before a held conversation moves. `first` is what `first_switch_warning`
answers. -/
def switchWarning (m : Manager) (ask : Ask) (bound : Nat) (now : Instant) (first : Bool) :
    Option Reply :=
  match ask.base.affinity with
  | none => none
  | some key =>
    if ask.base.isFable &&
        m.boundAccountHolds bound now false ask.base.group (m.warmWindow (some key)) then none
    else if first then some (.switchWarning bound)
    else none

/-- The rotation of a request: its ladder, the account it is held to, how many accounts its
provider had, and how many attempts are left. -/
structure Rotation where
  ladder : Ladder := {}
  boundTo : Option Nat := none
  providerAccountCount : Nat
  attempts : Nat

/-- A request is being walked over the fleet, or has its answer. -/
inductive Handling
  | running (s : Rotation)
  | answered (reply : Reply)

/-! ## Opening -/

/-- What the manager answers while the request is opened. -/
structure Opening where
  now : Instant
  /-- The account the newest of the request's bound tokens names. -/
  minted : Option Nat := none
  /-- The session has been told that this conversation moves. -/
  told : Bool := false
  firstWarning : Bool := false
  /-- The config file as the pick of a release finds it. -/
  disk : Option Config := none

namespace Ladder

def benchOutside (m : Manager) (labels : List String) (accountCount : Nat) (l : Ladder) : Ladder :=
  (List.range accountCount).foldl (fun l idx =>
    if (m.account idx).any fun a => Names labels a.name then l else l.bench idx) l

/-- Every account but the bound one is benched for the hold. -/
def holdTo (bound accountCount : Nat) (l : Ladder) : Ladder :=
  (List.range accountCount).foldl (fun l idx => if idx = bound then l else l.benchForHold idx) l

/-- The ladder of a request before any hold: the accounts outside its set are out. -/
def inScope (m : Manager) (ask : Ask) (accountCount : Nat) : Ladder :=
  match ask.scope with
  | some labels => benchOutside m labels accountCount {}
  | none => {}

end Ladder

/-- The account the request's history is bound to: a minted token names it, or the session's pin
does; one of the other provider is dropped. -/
def boundCandidate (m : Manager) (ask : Ask) (o : Opening) : Option Nat :=
  let pin := if ask.carriesBoundHistory then (ask.base.affinity.bind m.affinity.get).map Prod.fst
    else none
  (o.minted.or pin).filter fun idx => (m.account idx).any fun a => decide (a.provider = ask.provider)

/-- The handler up to its loop. The accounts are counted before the file is read again, by the
count of the provider's accounts. -/
def openRequest (m : Manager) (disk : Option Config) (ask : Ask) (o : Opening) : Handling :=
  let accountCount := m.accounts.length
  let m := m.reloadGroupsIfChanged disk
  let ladder := Ladder.inScope m ask accountCount
  let rotation (ladder : Ladder) (boundTo : Option Nat) : Rotation :=
    { ladder := ladder
      boundTo := boundTo
      providerAccountCount := m.providerAccountCount ask.provider
      attempts := maxAttemptsFor accountCount }
  match boundCandidate m ask o with
  | none => .running (rotation ladder none)
  | some bound =>
    if !o.told && m.boundAccountHolds bound o.now ask.base.isFable ask.base.group
        (m.warmWindow ask.base.affinity) then
      .running (rotation (ladder.holdTo bound accountCount) (some bound))
    else
      match switchWarning m ask bound o.now o.firstWarning with
      | some warning => .answered warning
      | none =>
        .running (rotation
          (ladder.setNext (sameOrgRelease m o.disk ask bound ladder.tried o.now)) none)

/-! ## One turn of the loop -/

/-- A failed send. A send that was answered with a redirect fails as its last hop does. -/
inductive TransportFault
  | connect
  | offline
  | pastConnect (streamReset : Bool)
  deriving DecidableEq

structure TransportError where
  fault : TransportFault
  redirected : Bool := false
  deriving DecidableEq

namespace TransportError

/-- `reqwest::Error::is_connect`: a name that does not resolve is a connect failure too. -/
def isConnect (e : TransportError) : Bool :=
  match e.fault with
  | .connect | .offline => true
  | .pastConnect _ => false

def isOffline (e : TransportError) : Bool :=
  decide (e.fault = .offline)

end TransportError

/-- What a peer makes of a blind carry. -/
inductive ViaCarry
  | carried
  | notTaken
  | takenAndFailed
  deriving DecidableEq

/-- What a 403 says, as far as its body could be read. -/
inductive Forbidden
  | unread
  | authError
  | accountError (answer : HeldAnswer)
  | other (answer : HeldAnswer)
  deriving DecidableEq

structure UpstreamAnswer where
  status : Nat
  hasRefreshToken : Bool := true
  /-- The forced refresh brought a new token. -/
  refreshed : Bool := false
  forbidden : Forbidden := .authError
  requestScoped : Bool := false
  quotaRejected : Bool := false
  retryAfter : Option Int := none
  jitter : Int := 0
  /-- A buffered 400 refuses the model. -/
  modelRefusal : Option String := none

/-- What the send came back with, and what a peer would make of a carry. -/
inductive SendOutcome
  | failed (err : TransportError) (carry : ViaCarry)
  | answered (answer : UpstreamAnswer)

/-- The readings of a turn that found no account to pick. -/
structure Dry where
  fleet : Manager
  disk : Option Config := none
  poolRefused : Bool := false
  /-- The hint that the soft wait is sized by. -/
  retryAfter : Int := 60
  /-- The fleet when the soft wait is over, and the time. -/
  woken : Manager
  wokenMs : Int := 0
  firstWarning : Bool := false
  revalidates : Bool := true

/-- The readings of one turn: the fleet and the file its pick finds, the fleet of its send, the exit
lock, what the send comes back with, and the fleet and the file of a failover. -/
structure Turn where
  now : Instant
  fleet : Manager
  disk : Option Config := none
  dry : Dry
  sending : Manager
  /-- The account leaves through a peer, which has answered. -/
  pinnedAnswer : Bool := false
  came : SendOutcome
  failing : Manager
  failDisk : Option Config := none
  failNow : Instant

/-- What the pick of a turn comes to: an account, a pick to be made again once the request has
waited or has been released from its hold, or an answer. -/
inductive Picked
  | account (idx : Nat) (s : Rotation)
  | waited (s : Rotation)
  | released (s : Rotation)
  | reply (r : Reply)

namespace Rotation

/-- The last resorts of a turn that found no account. -/
def pickDry (ask : Ask) (s : Rotation) (now : Instant) (d : Dry) : Picked :=
  let strictGroup := d.fleet.strictGroup ask.base.group
  let warm := d.fleet.warmWindow ask.base.affinity
  let isFable := ask.base.isFable
  match s.ladder.tally.verdict ask.provider d.poolRefused with
  | some r => .reply r
  | none =>
    match softWaitSecs d.retryAfter s.ladder.softWaitedExhaustion with
    | some _ =>
      .waited { s with ladder := s.ladder.spendSoftWait.readmitExpiredParks d.woken d.wokenMs }
    | none =>
      if (d.fleet.lockedAccountFor ask.provider).isSome then .reply (.exhausted s.boundTo)
      else
        match s.boundTo with
        | some bound =>
          if !d.fleet.boundAccountHolds bound now isFable ask.base.group warm then
            match switchWarning d.fleet ask bound now d.firstWarning with
            | some warning => .reply warning
            | none =>
              let ladder := s.ladder.releaseHold
              .released { s with
                boundTo := none
                ladder := ladder.setNext
                  (sameOrgRelease d.fleet d.disk ask bound ladder.tried now) }
          else
            match (d.fleet.selectBound bound s.ladder.tried now isFable ask.base.group strictGroup
                warm).1 with
            | some idx => .account idx s
            | none => .reply (.exhausted s.boundTo)
        | none =>
          if strictGroup.isNone && d.revalidates then
            match (d.fleet.selectRevalidation d.disk (ask.pick s.ladder.tried now)).1 with
            | some idx => .account idx s
            | none => .reply (.exhausted none)
          else .reply (.exhausted none)

/-- The account of a turn: the one a move has named, or the fleet's pick. -/
def pick (ask : Ask) (s : Rotation) (t : Turn) : Picked :=
  match s.ladder.nextIdx with
  | some idx => .account idx { s with ladder := s.ladder.setNext none }
  | none =>
    match (t.fleet.selectWithGroup t.disk (ask.pick s.ladder.tried t.now)).1 with
    | some idx => .account idx s
    | none => s.pickDry ask t.now t.dry

/-! ### Attempts -/

/-- No attempt has left this machine, as the counters and the last error tell it. -/
def nothingEverLeft (l : Ladder) (err : TransportError) : Bool :=
  !l.tally.unknownOutcomeTransportFailure && (err.isConnect || err.isOffline) &&
    everyAttemptTransportFailed l.tally.transportFailures l.tally.upstreamResponses

/-- The request has no other account to go to, or the failure is the machine's. -/
def rotationIsSpent (ask : Ask) (s : Rotation) (m : Manager) (l : Ladder) (err : TransportError) :
    Bool :=
  err.isOffline || decide (s.providerAccountCount ≤
    (l.tried.filter fun i => m.liveProvider i = some ask.provider).card + 1)

/-- A blind carry is offered: once, with nothing sent, when the rotation is spent. -/
def offersCarry (ask : Ask) (s : Rotation) (m : Manager) (l : Ladder) (err : TransportError) :
    Bool :=
  !l.peerEgressTried && nothingEverLeft l err && s.rotationIsSpent ask m l err &&
    ask.provider.onPeerMesh

/-- The three arms of a failed send, once no peer has taken it: the machine, the connection, the
account. -/
def retryOrRotate (l : Ladder) (idx : Nat) (err : TransportError) : Ladder × Step :=
  if err.isOffline then
    let l := l.offlineFailed
    match l.takeOfflineWait with
    | some l => (l, .retrySame)
    | none => (l, .answer (.offlineUnavailable l.tally.offlineFailures))
  else
    let l := if err.isConnect then l else l.unknownOutcome
    let l := if err.fault = .pastConnect true then l.firstResetRecycle idx else l
    if !err.isConnect && decide (l.transportRetried idx < maxSameAccountTransportRetries) then
      (l.spendTransportRetry idx, .retrySame)
    else (l, .rotate)

def onFailure (ask : Ask) (s : Rotation) (m : Manager) (idx : Nat) (err : TransportError)
    (carry : ViaCarry) : Ladder × Step :=
  let l := s.ladder.transportFailed
  if s.offersCarry ask m l err then
    let l := l.spendPeerEgress
    match carry with
    | .takenAndFailed => (l, .answer .deliveredUnknown)
    | .carried => (l, .answer .carried)
    | .notTaken => retryOrRotate l idx err
  else retryOrRotate l idx err

/-- 401: one forced refresh for each account. -/
def onUnauthorized (l : Ladder) (idx : Nat) (a : UpstreamAnswer) : Ladder × Step :=
  if !a.hasRefreshToken then (l, .rotate)
  else
    let forced := l.firstForcedRefresh idx
    (forced.1, if forced.2 && a.refreshed then .retrySame else .rotate)

/-- 403: the credential or the workspace is refused, or the answer is not about the account. -/
def onForbidden (ask : Ask) (l : Ladder) (idx : Nat) (name : Option String) (a : UpstreamAnswer) :
    Ladder × Step :=
  match ask.provider, a.forbidden with
  | .codex, .unread => (l.codexAccessUnread, .rotate)
  | .codex, .accountError answer => (l.accountAccessBlocked answer, .rotate)
  | .codex, .other answer => (l, .answer (.blocked answer))
  | _, _ => (l.refuse403 idx name, .rotate)

/-- A limit that is no quota refusal: a short wait in place, or the park. -/
def onTransient429 (l : Ladder) (idx : Nat) (a : UpstreamAnswer) : Ladder × Step :=
  match classifyTransient429 a.retryAfter (l.retried429 idx) a.jitter with
  | .inlineWait _ => (l.spend429Retry idx, .retrySame)
  | .park _ => (l, .park)

/-- 429; a refusal of the request alone goes on to the client. -/
def onTooManyRequests (ask : Ask) (l : Ladder) (idx : Nat) (a : UpstreamAnswer) : Ladder × Step :=
  match ask.provider with
  | .anthropic =>
    if a.requestScoped then (l, .forward a.status)
    else if a.quotaRejected then (l, .rotate)
    else onTransient429 l idx a
  | .codex => if a.quotaRejected then (l, .rotate) else onTransient429 l idx a

/-- 529: retries in place, then another account while there is one. -/
def onOverloaded (ask : Ask) (l : Ladder) (idx : Nat) (a : UpstreamAnswer) (t : Turn) :
    Ladder × Step :=
  if l.retried529 idx < maxSameAccount529Retries then (l.spend529Retry idx, .retrySame)
  else if l.failovers529 < max529FailoversPerRequest then
    match (t.failing.selectWithGroup t.failDisk (ask.pick (insert idx l.tried) t.failNow)).1 with
    | some other => (l, .failOver other)
    | none => (l, .forward a.status)
  else (l, .forward a.status)

def onAnswer (ask : Ask) (s : Rotation) (t : Turn) (idx : Nat) (a : UpstreamAnswer) :
    Ladder × Step :=
  let l := s.ladder.upstreamAnswered
  if a.status = 401 then onUnauthorized l idx a
  else if a.status = 403 then
    onForbidden ask l idx ((t.sending.account idx).map AccountRuntime.name) a
  else if a.status = 429 then onTooManyRequests ask l idx a
  else if a.status = 529 then onOverloaded ask l idx a t
  else (l, .forward a.status)

/-- The attempt on an account, from the send to the step it decides. -/
def attempt (ask : Ask) (s : Rotation) (t : Turn) (idx : Nat) : Ladder × Step :=
  match t.came with
  | .failed err carry => s.onFailure ask t.sending idx err carry
  | .answered a => s.onAnswer ask t idx a

/-- The detail of a refused model in a Codex 400 that would go on to the client. -/
def refusedModel (ask : Ask) (t : Turn) : Option String :=
  match ask.provider, t.came with
  | .codex, .answered a => if a.status = 400 then a.modelRefusal else none
  | _, _ => none

/-- The one place where the ladder moves for an attempt. -/
def move (ask : Ask) (s : Rotation) (t : Turn) (idx : Nat) : Handling :=
  let done := s.attempt ask t idx
  let on (l : Ladder) : Handling := .running { s with ladder := l }
  match done.2 with
  | .retrySame => on (done.1.retrySame idx)
  | .rotate => on (done.1.bench idx)
  | .park => on (done.1.park idx)
  | .failOver other => on (done.1.failOver529 idx other)
  | .answer reply => .answered reply
  | .forward status =>
    match refusedModel ask t with
    | some detail =>
      on ((done.1.modelRefused ((t.sending.account idx).map AccountRuntime.name) detail).bench idx)
    | none => .answered (.forwarded status)

/-- The account has a credential to send with: the refresh before the send did not find it dead. -/
def sendable (t : Turn) (idx : Nat) : Bool :=
  (t.sending.account idx).any fun a => decide (a.status ≠ .error)

/-- From the pick to the move. -/
def serve (ask : Ask) (s : Rotation) (t : Turn) (idx : Nat) : Handling :=
  if !sendable t idx then .running { s with ladder := s.ladder.bench idx }
  else if t.pinnedAnswer then .answered .pinnedEgress
  else s.move ask t idx

end Rotation

namespace Handling

/-- One turn of the loop, or its end when the attempts run out. -/
def turn (ask : Ask) (h : Handling) (t : Turn) : Handling :=
  match h with
  | .answered reply => .answered reply
  | .running s =>
    match s.attempts with
    | 0 => .answered ((s.ladder.tally.verdict ask.provider t.dry.poolRefused).getD
        (.exhausted s.boundTo))
    | n + 1 =>
      match { s with attempts := n }.pick ask t with
      | .account idx s => s.serve ask t idx
      | .waited s => .running s
      | .released s => .running s
      | .reply r => .answered r

end Handling

end TeamClaude
