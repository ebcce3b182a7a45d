import TeamClaude.Lib.Exec
import TeamClaude.Lib.FirstMatch
import TeamClaude.Machine
import TeamClaude.Peer.Lend
import Mathlib.Data.List.Sort

/-!
# What a node remembers about strangers

The pairing requests waiting on the operator, the addresses muted and banned, the accepted windows,
the machines heard on the network and the outstanding asks, with the operations of the listener and
of the operator on them.
-/

namespace TeamClaude

/-- `InstanceId`: the eight bytes a machine announces for one boot. -/
abbrev InstanceId := BitVec 64

/-- One pairing request waiting on the operator, keyed by its address. -/
structure Knock where
  addr : String
  instanceId : InstanceId
  proposedName : Option String
  wireVersion : Nat
  listenPort : Option Nat
  firstSeenMs : Int
  lastSeenMs : Int
  deriving DecidableEq

/-- A row no handshake has filled in yet. -/
def Knock.isReservationPlaceholder (k : Knock) : Bool :=
  k.instanceId = 0 && k.proposedName.isNone && k.wireVersion = 0

structure Mute where
  addr : String
  untilMs : Int
  deriving DecidableEq

inductive BanReason
  | blocked
  | forgottenAndBlocked
  deriving DecidableEq

/-- An address, and its static key when a handshake revealed one. -/
structure Ban where
  addr : String
  key : Option PeerId
  sinceMs : Int
  reason : BanReason
  deriving DecidableEq

/-- One accept: a window for one instance id at one address. -/
structure AcceptedInstance where
  instanceId : InstanceId
  addr : String
  untilMs : Int
  openedAtMs : Int
  learnedKey : Option PeerId
  deriving DecidableEq

/-- A machine heard announcing itself. -/
structure Found where
  addr : String
  instanceId : InstanceId
  firstSeenMs : Int
  lastSeenMs : Int
  deriving DecidableEq

structure PendingAsk where
  id : Nat
  untilMs : Int
  deriving DecidableEq

def knockTtlMs : Int := 600000

def muteMs : Int := 3600000

def foundTtlMs : Int := 60000

def maxLearnedKeys : Nat := 32

def maxPendingKnocks : Nat := 8

/-- Why a knock never reached the queue. -/
inductive KnockRefusal
  | banned
  | muted
  | queueFull (pending : Nat)
  deriving DecidableEq

/-- An operator's text: the instance id it parses as, and the rows whose address it spells. -/
structure Selector where
  id : Option InstanceId
  spells : Knock → Bool

structure PeerState where
  pending : List Knock := []
  muted : List Mute := []
  banned : List Ban := []
  accepted : List AcceptedInstance := []
  found : List Found := []
  asks : List PendingAsk := []
  deriving DecidableEq

namespace PeerState

/-! ## Reads -/

def isMuted (s : PeerState) (addr : String) (nowMs : Int) : Bool :=
  s.muted.any fun mute => mute.addr = addr && nowMs < mute.untilMs

def isAddressBanned (s : PeerState) (addr : String) : Bool :=
  s.banned.any fun ban => ban.addr = addr

def isKeyBanned (s : PeerState) (key : PeerId) : Bool :=
  s.banned.any fun ban => ban.key = some key

/-- A row of that address is waiting. -/
def isPending (s : PeerState) (addr : String) : Bool :=
  s.pending.any fun knock => knock.addr = addr

def refusalForKnockSource (s : PeerState) (addr : String) (nowMs : Int) : Option KnockRefusal :=
  if s.isAddressBanned addr then some .banned
  else if s.isMuted addr nowMs then some .muted
  else if s.isPending addr then none
  else if maxPendingKnocks ≤ s.pending.length then some (.queueFull s.pending.length)
  else none

/-- `find_pending`: the id first, the address second, and never a placeholder. -/
def findPending (s : PeerState) (selector : Selector) : Option Knock :=
  (selector.id.bind fun id => s.pending.find? fun knock =>
    knock.instanceId = id && !knock.isReservationPlaceholder).or
  (s.pending.find? fun knock => selector.spells knock && !knock.isReservationPlaceholder)

def keyLearnedAt (s : PeerState) (addr : String) : Option PeerId :=
  (s.accepted.find? fun window => window.addr = addr).bind AcceptedInstance.learnedKey

/-! ## The listener's writes -/

/-- The row of a knock that has just arrived. -/
def freshKnock (addr : String) (instanceId : InstanceId) (proposedName : Option String)
    (wireVersion : Nat) (listenPort : Option Nat) (nowMs : Int) : Knock :=
  { addr, instanceId, proposedName, wireVersion, listenPort, firstSeenMs := nowMs,
    lastSeenMs := nowMs }

/-- `record_knock`: a second knock of an address updates its row in place. -/
def recordKnock (s : PeerState) (addr : String) (instanceId : InstanceId)
    (proposedName : Option String) (wireVersion : Nat) (listenPort : Option Nat) (nowMs : Int) :
    Except KnockRefusal Bool × PeerState :=
  match s.refusalForKnockSource addr nowMs with
  | some refusal => (.error refusal, s)
  | none =>
    if s.isPending addr then
      (.ok false, { s with
        pending := Lib.updateFirst (fun knock => knock.addr = addr)
          (fun knock => { knock with
            instanceId, proposedName, wireVersion, listenPort, lastSeenMs := nowMs }) s.pending })
    else if maxPendingKnocks ≤ s.pending.length then (.error (.queueFull s.pending.length), s)
    else
      (.ok true, { s with
        pending := s.pending ++
          [freshKnock addr instanceId proposedName wireVersion listenPort nowMs] })

/-- `reserve_knock_slot`: a placeholder row holds the slot until the handshake is done. -/
def reserveKnockSlot (s : PeerState) (addr : String) (nowMs : Int) :
    Except KnockRefusal Bool × PeerState :=
  match s.refusalForKnockSource addr nowMs with
  | some refusal => (.error refusal, s)
  | none =>
    if s.isPending addr then (.ok false, s)
    else (.ok true, { s with pending := s.pending ++ [freshKnock addr 0 none 0 none nowMs] })

/-- The row a release takes away: the placeholder of that address and that time. -/
def isReservation (addr : String) (reservedAtMs : Int) (knock : Knock) : Bool :=
  knock.addr = addr && knock.isReservationPlaceholder && knock.firstSeenMs = reservedAtMs

def releaseKnockReservation (s : PeerState) (addr : String) (reservedAtMs : Int) : PeerState :=
  { s with pending := s.pending.filter fun knock => !isReservation addr reservedAtMs knock }

/-- `observe_found`: a scan replaces the list and keeps the age of what it saw before. -/
def observeFound (s : PeerState) (rows : List Found) (nowMs : Int) : PeerState :=
  { s with
    found := rows.map fun row =>
      { row with
        firstSeenMs := ((s.found.find? fun seen =>
          seen.addr = row.addr && seen.instanceId = row.instanceId).map Found.firstSeenMs).getD nowMs
        lastSeenMs := nowMs } }

/-- `record_pairing_key`: the key a handshake revealed, kept with the windows of its address. -/
def recordPairingKey (s : PeerState) (addr : String) (key : PeerId) : PeerState :=
  { s with
    accepted := s.accepted.map fun window =>
      if window.addr = addr then { window with learnedKey := some key } else window }

/-! ## Time -/

/-- The closed windows whose key is forgotten: the ones opened first, down to the bound. -/
def doomed (windows : List AcceptedInstance) (nowMs : Int) : List Nat :=
  let closed := windows.zipIdx.filter fun row => row.1.untilMs ≤ nowMs
  ((closed.insertionSort fun a b => a.1.openedAtMs ≤ b.1.openedAtMs).take
    (closed.length - maxLearnedKeys)).map Prod.snd

/-- The windows that are open or have revealed a key, with the bound on the closed ones. -/
def expireAccepted (windows : List AcceptedInstance) (nowMs : Int) : List AcceptedInstance :=
  let kept := windows.filter fun window =>
    (window.openedAtMs ≤ nowMs && nowMs < window.untilMs) || window.learnedKey.isSome
  (kept.zipIdx.filter fun row => row.2 ∉ doomed kept nowMs).map Prod.fst

def agingRows (s : PeerState) : Nat :=
  s.pending.length + s.muted.length + s.accepted.length + s.found.length + s.asks.length

/-- `expire`: drop what has aged out and count it. A ban has no deadline. -/
def expire (s : PeerState) (nowMs : Int) : Nat × PeerState :=
  let kept : PeerState :=
    { pending := s.pending.filter fun knock => saturatingSub nowMs knock.lastSeenMs < knockTtlMs
      muted := s.muted.filter fun mute => nowMs < mute.untilMs
      banned := s.banned
      accepted := expireAccepted s.accepted nowMs
      found := s.found.filter fun row => saturatingSub nowMs row.lastSeenMs < foundTtlMs
      asks := s.asks.filter fun ask => nowMs < ask.untilMs }
  (s.agingRows - kept.agingRows, kept)

/-! ## The operator's writes -/

def spendAsk (s : PeerState) (id : Nat) : Bool × PeerState :=
  let asks := s.asks.filter fun ask => ask.id ≠ id
  (asks.length ≠ s.asks.length, { s with asks })

/-- `accept_knock`: one window at a time for an address, with the key its last one revealed. -/
def acceptKnock (s : PeerState) (selector : Selector) (nowMs windowSecs : Int) :
    Option AcceptedInstance × PeerState :=
  match s.findPending selector with
  | none => (none, s)
  | some knock =>
    let window : AcceptedInstance :=
      { instanceId := knock.instanceId
        addr := knock.addr
        untilMs := saturatingAdd nowMs (saturatingMul windowSecs 1000)
        openedAtMs := nowMs
        learnedKey := s.keyLearnedAt knock.addr }
    (some window, { s with
      pending := s.pending.filter fun row => row.addr ≠ knock.addr
      accepted := (s.accepted.filter fun row => row.addr ≠ knock.addr) ++ [window] })

def mute (s : PeerState) (addr : String) (nowMs : Int) : PeerState :=
  { s with
    pending := s.pending.filter fun knock => knock.addr ≠ addr
    muted := (s.muted.filter fun mute => mute.addr ≠ addr) ++
      [{ addr, untilMs := saturatingAdd nowMs muteMs }] }

/-- `ban`: a row of the address is edited in place, and a key it is given replaces the one held. -/
def ban (s : PeerState) (addr : String) (key : Option PeerId) (reason : BanReason) (nowMs : Int) :
    PeerState :=
  { s with
    pending := s.pending.filter fun knock => knock.addr ≠ addr
    muted := s.muted.filter fun mute => mute.addr ≠ addr
    accepted := s.accepted.filter fun window => window.addr ≠ addr
    banned :=
      if s.isAddressBanned addr then
        Lib.updateFirst (fun ban => ban.addr = addr)
          (fun ban => { ban with key := key.or ban.key, reason }) s.banned
      else s.banned ++ [{ addr, key, sinceMs := nowMs, reason }] }

def unblock (s : PeerState) (addr : String) : Bool × PeerState :=
  let banned := s.banned.filter fun ban => ban.addr ≠ addr
  (banned.length ≠ s.banned.length, { s with banned })

end PeerState

end TeamClaude
