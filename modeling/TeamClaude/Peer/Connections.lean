import TeamClaude.Lib.Exec
import TeamClaude.Lib.Guards
import TeamClaude.Peer.Bans
import TeamClaude.Peer.FoundList
import TeamClaude.Peer.Invites

/-!
# Peer connections

A node answers connections of other nodes side by side. A connection is let in by the address it
comes from and a slot that is free, by the handshake it asks for and where it asks from, by the key
it proves, and opens at most one stream, by what the row of its peer allows. The operator writes the
peers file and the state file meanwhile.
-/

namespace TeamClaude

open Lib

/-! ## Where a connection comes from -/

/-- `Ipv4Addr::is_loopback` -/
def isLoopbackV4 (ip : Net.Ipv4) : Bool :=
  decide (ip.a = 127)

/-- `Ipv6Addr::is_loopback` -/
def isLoopbackV6 (ip : Net.Ipv6) : Bool :=
  decide (ip.segments = [0, 0, 0, 0, 0, 0, 0, 1])

def isLanScopeV4 (ip : Net.Ipv4) : Bool :=
  isLoopbackV4 ip || decide (ip.a = 10) ||
    (decide (ip.a = 172) && decide (16 ≤ ip.b) && decide (ip.b < 32)) ||
    (decide (ip.a = 192) && decide (ip.b = 168))

def isLanScopeV6 (ip : Net.Ipv6) : Bool :=
  isLoopbackV6 ip ||
    match ip.segments.head? with
    | some first => first &&& 0xffc0 == 0xfe80 || first &&& 0xfe00 == 0xfc00
    | none => false

def isLanScope : Net.IpAddr → Bool
  | .v4 ip => isLanScopeV4 ip
  | .v6 ip =>
    match Net.toIpv4Mapped ip.segments with
    | some mapped => isLanScopeV4 mapped
    | none => isLanScopeV6 ip

def isLoopbackBind : Net.IpAddr → Bool
  | .v4 ip => isLoopbackV4 ip
  | .v6 ip =>
    match Net.toIpv4Mapped ip.segments with
    | some mapped => isLoopbackV4 mapped
    | none => isLoopbackV6 ip

def sharesAGlobalV6Prefix (source : Net.IpAddr) (ownGlobalV6 : List Net.Ipv6) : Bool :=
  match source with
  | .v4 _ => false
  | .v6 ip =>
    (Net.toIpv4Mapped ip.segments).isNone &&
      ownGlobalV6.any fun own => own.segments.take 4 == ip.segments.take 4

inductive Handshake
  | pair
  | return_
  | enrol
  | knock
  | knockPsk
  deriving DecidableEq

/-- `Handshake::from_message_1_len`: a return and an enrolment look alike. -/
def Handshake.fromMessage1Len : Nat → Option Handshake
  | 32 => some .knock
  | 40 | 41 => some .pair
  | 48 => some .knockPsk
  | 96 => some .return_
  | _ => none

inductive InternetAdmission
  | answer
  | refuse
  deriving DecidableEq

def internetAdmission (bind source : Net.IpAddr) (pattern : Handshake) (internet : Bool)
    (ownGlobalV6 : List Net.Ipv6) : InternetAdmission :=
  if isLanScope source || isLoopbackBind bind then .answer
  else
    match pattern with
    | .return_ | .enrol => .answer
    | .pair | .knock | .knockPsk =>
      if !internet && sharesAGlobalV6Prefix source ownGlobalV6 then .answer else .refuse

/-! ## Slots -/

def maxUnauthenticatedSockets : Nat := 16

def maxUnauthenticatedPerAddress : Nat := 2

def maxHeaderlessPerPeer : Nat := 4

/-- The most requests at a time that a row is granted. -/
def InviteFile.largestGrant (file : InviteFile) : Nat :=
  (file.peers.flatMap PinnedRow.lend).foldr (fun grant most => max grant.maxInflight most) 0

def unauthenticatedAllowance (file : InviteFile) : Nat × Nat :=
  (maxUnauthenticatedSockets + file.largestGrant, maxUnauthenticatedPerAddress + file.largestGrant)

/-- `Admission` of the listener, the counters of it; an absent entry of a map is at zero. -/
structure ListenerAdmission where
  liveTotal : Unit → Nat := fun _ => 0
  livePerAddress : String → Nat := fun _ => 0
  headerless : PeerId → Nat := fun _ => 0
  punching : List PeerId := []

inductive SocketRefusal
  | nodeFull (live allowed : Nat)
  | addressFull (live allowed : Nat)
  deriving DecidableEq

namespace ListenerAdmission

/-- `SocketSlot::acquire` -/
def acquireSlot (a : ListenerAdmission) (addr : String) (allowance : Nat × Nat) :
    Except SocketRefusal ListenerAdmission :=
  if allowance.1 ≤ a.liveTotal () then .error (.nodeFull (a.liveTotal ()) allowance.1)
  else if allowance.2 ≤ a.livePerAddress addr then
    .error (.addressFull (a.livePerAddress addr) allowance.2)
  else
    .ok { a with
      liveTotal := takeGuard a.liveTotal ()
      livePerAddress := takeGuard a.livePerAddress addr }

/-- `SocketSlot::drop` -/
def dropSlot (a : ListenerAdmission) (addr : String) : ListenerAdmission :=
  { a with
    liveTotal := dropGuard a.liveTotal ()
    livePerAddress := dropGuard a.livePerAddress addr }

/-- `HeaderlessSession::acquire` -/
def acquireHeaderless (a : ListenerAdmission) (peer : PeerId) : Except Nat ListenerAdmission :=
  if maxHeaderlessPerPeer ≤ a.headerless peer then .error (a.headerless peer)
  else .ok { a with headerless := takeGuard a.headerless peer }

/-- `HeaderlessSession::drop` -/
def dropHeaderless (a : ListenerAdmission) (peer : PeerId) : ListenerAdmission :=
  { a with headerless := dropGuard a.headerless peer }

/-- `PunchInFlight::acquire` -/
def acquirePunch (a : ListenerAdmission) (peer : PeerId) : Option ListenerAdmission :=
  if peer ∈ a.punching then none else some { a with punching := peer :: a.punching }

/-- `PunchInFlight::drop` -/
def dropPunch (a : ListenerAdmission) (peer : PeerId) : ListenerAdmission :=
  { a with punching := a.punching.filter fun other => other ≠ peer }

end ListenerAdmission

/-! ## Streams -/

inductive StreamKind
  | tunnel
  | serve
  | control
  | park
  | unknown (raw : UInt16)
  deriving DecidableEq

inductive TunnelTarget
  | origin (host : String) (port : UInt16)
  | peer (peer : PeerId)
  deriving DecidableEq

structure StreamHeader where
  kind : StreamKind
  target : Option TunnelTarget := none
  via : List PeerId := []
  hopsRemaining : UInt8
  requestId : Nat
  deriving DecidableEq

inductive StreamRefusal
  | unknownKind (raw : UInt16)
  | notGranted (kind : StreamKind)
  | hopsExhausted
  | loopDetected
  | duplicate
  deriving DecidableEq

/-- What a row has to allow for a stream; none of it for a stream that every pinned peer may open. -/
def StreamHeader.permitted (header : StreamHeader) (allow : Allow) : Bool :=
  match header.kind, header.target with
  | .control, _ => true
  | .park, _ => true
  | .serve, _ => allow.inspect
  | .tunnel, some (.origin _ _) => allow.gateway
  | .tunnel, some (.peer _) => allow.relay
  | .tunnel, none => false
  | .unknown _, _ => false

def peerStreamGateRows (header : StreamHeader) (row : Option PinnedRow) : Except StreamRefusal Unit :=
  match header.kind, row with
  | .unknown raw, _ => .error (.unknownKind raw)
  | kind, none => .error (.notGranted kind)
  | kind, some row =>
    if !header.permitted row.allow then .error (.notGranted kind)
    else if header.hopsRemaining = 0 then .error .hopsExhausted
    else .ok ()

/-- `peer_stream_gate_hop`, with the request ids this connection has seen: none, before its first. -/
def peerStreamGateHop (node : PeerId) (header : StreamHeader) (seen : List Nat) :
    Except StreamRefusal Unit :=
  if node ∈ header.via then .error .loopDetected
  else if header.requestId ∈ seen then .error .duplicate
  else .ok ()

/-! ## Connections -/

/-- `PeerSession`, as far as a stream is gated by it, with the secret of an enrolment. -/
structure PeerSession where
  peer : PeerId
  handshake : Handshake
  enrolSecret : Option InviteSecret := none
  deriving DecidableEq

/-- What the message 1 of a return turns out to be; the key and the secret are proven by it. -/
inductive Offer
  | return_ (key : PeerId)
  | enrol (key : PeerId) (secret : InviteSecret)
  deriving DecidableEq

/-- Where `serve_connection` stands: `answered` once it has written the message 2 of a first pairing,
`enrolling` once it has the header of an enrolment. -/
inductive ConnPhase
  | silent
  | knocking
  | answered (instanceId : InstanceId)
  | shaking
  | headerless (session : PeerSession)
  | enrolling (session : PeerSession) (header : StreamHeader)
  | streaming (session : PeerSession) (header : StreamHeader)
  | done
  deriving DecidableEq

/-- A connection in the phase holds nothing. -/
def ConnPhase.isBare : ConnPhase → Bool
  | .silent | .knocking | .headerless _ => false
  | _ => true

/-- What a connection reads of both files as it comes in. -/
structure Seen where
  file : InviteFile
  internet : Bool
  state : PeerState
  nowMs : Int

structure Connection where
  source : Net.IpAddr
  bind : Net.IpAddr
  seen : Seen
  phase : ConnPhase

namespace Connection

/-- `knock_address` of where the connection comes from. -/
def addr (c : Connection) : String :=
  ipText c.source

/-- The address whose slot the connection holds: until its first message is read, or as long as it
knocks. -/
def slot (c : Connection) : Option String :=
  match c.phase with
  | .silent | .knocking => some c.addr
  | _ => none

/-- One of the node's slots, where the connection holds one of its address. -/
def socket (c : Connection) : Option Unit :=
  c.slot.map fun _ => ()

def headerlessPeer (c : Connection) : Option PeerId :=
  match c.phase with
  | .headerless session => some session.peer
  | _ => none

/-- What the connection holds is dropped. -/
def release (c : Connection) (a : ListenerAdmission) : ListenerAdmission :=
  match c.slot, c.headerlessPeer with
  | some addr, _ => a.dropSlot addr
  | none, some peer => a.dropHeaderless peer
  | none, none => a

end Connection

def outstandingSecrets (file : InviteFile) (nowMs : Int) : List InviteSecret :=
  (file.pendingInvites.filter fun invite => invite.outstanding nowMs).map PendingInvite.secret

def PeerState.acceptedWindow (s : PeerState) (addr : String) (instanceId : InstanceId)
    (nowMs : Int) : Bool :=
  s.accepted.any fun window =>
    decide (window.addr = addr) && decide (window.instanceId = instanceId) &&
      decide (window.openedAtMs ≤ nowMs) && decide (nowMs < window.untilMs)

def pairPayloadVersion : UInt8 := 2

/-- Why the payload of a first pairing names no instance. -/
inductive PayloadRefusal
  | firstVersion
  | length (bytes : Nat)
  | version (claimed : UInt8)
  deriving DecidableEq

/-- `Message1::instance_id`: a version byte and eight bytes of the instance. -/
def message1InstanceId (payload : List UInt8) : Except PayloadRefusal InstanceId :=
  match payload with
  | [_, _, _, _, _, _, _, _] => .error .firstVersion
  | [version, a, b, c, d, e, f, g, h] =>
    if version ≠ pairPayloadVersion then .error (.version version)
    else
      .ok (a.toBitVec ++ b.toBitVec ++ c.toBitVec ++ d.toBitVec ++ e.toBitVec ++ f.toBitVec ++
        g.toBitVec ++ h.toBitVec)
  | payload => .error (.length payload.length)

/-- `accept_pairing_or_return` on a first pairing, up to its message 2. -/
def answerPairing (c : Connection) (message : List UInt8) : Option InstanceId :=
  match message1InstanceId (message.drop 32) with
  | .error _ => none
  | .ok instanceId =>
    if c.seen.state.acceptedWindow c.addr instanceId c.seen.nowMs then some instanceId else none

/-- `accept_pairing_or_return` on a return or an enrolment. -/
def acceptReturn (c : Connection) (offer : Offer) (nowMs : Int) : Option PeerSession :=
  match offer with
  | .return_ key =>
    if (c.seen.file.peers.any fun row => decide (row.node = key)) &&
        !c.seen.state.isKeyBanned key then
      some { peer := key, handshake := .return_ }
    else none
  | .enrol key secret =>
    if decide (secret ∈ outstandingSecrets c.seen.file nowMs) && !c.seen.state.isKeyBanned key then
      some { peer := key, handshake := .enrol, enrolSecret := some secret }
    else none

/-- A first pairing that is completed: the six digits are shown for it. -/
structure Paired where
  addr : String
  instanceId : InstanceId
  key : PeerId
  deriving DecidableEq

/-- A node's listener, with the two files it shares with the operator, the punches in flight and the
pairings that were completed, which nothing in the program reads. -/
structure PeerListener where
  file : InviteFile
  internet : Bool := false
  state : PeerState := {}
  admission : ListenerAdmission := {}
  connections : List Connection := []
  punches : List (Option PeerId) := []
  paired : List Paired := []

inductive ListenerAct
  | edit (act : InviteAct)
  | setInternet (on : Bool)
  | verb (op : StateOp)
  | accept (source bind : Net.IpAddr) (nowMs : Int)
  | message1 (i : Nat) (message : List UInt8) (ownGlobalV6 : List Net.Ipv6)
  /-- The message 3 of a first pairing, with the key it proves. -/
  | message3 (i : Nat) (key : PeerId)
  | shake (i : Nat) (offer : Offer) (nowMs : Int)
  | header (i : Nat) (first : StreamHeader)
  /-- The frame behind the header of an enrolment, with the label of a `Control::Enroll`. -/
  | enrol (i : Nat) (label : Option String) (nowMs : Int)
  | close (i : Nat)
  | frame (i : Nat) (asksPunch : Bool)
  | punchEnds (k : Nat)

namespace PeerListener

/-- The connection moves on, and what it held is dropped. -/
def move (s : PeerListener) (i : Nat) (c : Connection) (phase : ConnPhase) : PeerListener :=
  { s with
    admission := c.release s.admission
    connections := s.connections.set i { c with phase } }

def incoming (s : PeerListener) (source bind : Net.IpAddr) (nowMs : Int) : Connection :=
  ⟨source, bind, ⟨s.file, s.internet, s.state, nowMs⟩, .silent⟩

/-- The first lines of `serve_connection`, up to the slot. -/
def accept (s : PeerListener) (source bind : Net.IpAddr) (nowMs : Int) : PeerListener :=
  let c := s.incoming source bind nowMs
  if s.state.isAddressBanned c.addr then s
  else
    match s.admission.acquireSlot c.addr (unauthenticatedAllowance s.file) with
    | .error _ => s
    | .ok admission => { s with admission, connections := s.connections ++ [c] }

/-- What `serve_connection` makes of the first message. A knock keeps the slot. -/
def message1 (s : PeerListener) (i : Nat) (c : Connection) (message : List UInt8)
    (ownGlobalV6 : List Net.Ipv6) : PeerListener :=
  match Handshake.fromMessage1Len message.length with
  | none => s.move i c .done
  | some pattern =>
    match internetAdmission c.bind c.source pattern c.seen.internet ownGlobalV6 with
    | .refuse => s.move i c .done
    | .answer =>
      match pattern with
      | .knock | .knockPsk =>
        { s with connections := s.connections.set i { c with phase := .knocking } }
      | .pair =>
        match answerPairing c message with
        | none => s.move i c .done
        | some instanceId => s.move i c (.answered instanceId)
      | .return_ | .enrol => s.move i c .shaking

/-- A first pairing ends at its message 3, with its key kept. -/
def message3 (s : PeerListener) (i : Nat) (c : Connection) (instanceId : InstanceId)
    (key : PeerId) : PeerListener :=
  if c.seen.state.isKeyBanned key then s.move i c .done
  else
    { s.move i c .done with
      state := s.state.recordPairingKey c.addr key
      paired := ⟨c.addr, instanceId, key⟩ :: s.paired }

/-- A session waits for its stream header under a slot of its peer. -/
def shake (s : PeerListener) (i : Nat) (c : Connection) (offer : Offer) (nowMs : Int) :
    PeerListener :=
  match acceptReturn c offer nowMs with
  | none => s.move i c .done
  | some session =>
    match s.admission.acquireHeaderless session.peer with
    | .error _ => s.move i c .done
    | .ok admission =>
      { s with admission, connections := s.connections.set i { c with phase := .headerless session } }

def gated (s : PeerListener) (node : PeerId) (session : PeerSession) (header : StreamHeader) :
    Except StreamRefusal Unit := do
  peerStreamGateRows header (s.file.peers.find? fun row => decide (row.node = session.peer))
  peerStreamGateHop node header []

/-- `serve_stream`, up to the handler of the stream: an enrolment may open a control stream only, and
is not gated. -/
def header (node : PeerId) (s : PeerListener) (i : Nat) (c : Connection) (session : PeerSession)
    (first : StreamHeader) : PeerListener :=
  if session.handshake = .enrol then
    if session.enrolSecret.isSome ∧ first.kind = .control then s.move i c (.enrolling session first)
    else s.move i c .done
  else
    match s.gated node session first with
    | .error _ => s.move i c .done
    | .ok _ => s.move i c (.streaming session first)

/-- `serve_enrolment`, up to its control stream. -/
def enrol (s : PeerListener) (i : Nat) (c : Connection) (session : PeerSession)
    (first : StreamHeader) (label : Option String) (nowMs : Int) : PeerListener :=
  match session.enrolSecret, label with
  | some secret, some label =>
    match s.file.acceptEnrolment session.peer label secret nowMs with
    | .error _ => s.move i c .done
    | .ok file => { s.move i c (.streaming session first) with file }
  | _, _ => s.move i c .done

/-- A node has a row in the file. -/
def pins (s : PeerListener) (peer : PeerId) : Bool :=
  s.file.peers.any fun row => decide (row.node = peer)

/-- One turn of `serve_control`: a peer that lost its row is cut off, and one that asks for a punch
this node can join gets one at a time. -/
def frame (s : PeerListener) (i : Nat) (c : Connection) (peer : PeerId) (asksPunch : Bool) :
    PeerListener :=
  if !s.pins peer then s.move i c .done
  else if !asksPunch then s
  else
    match s.admission.acquirePunch peer with
    | none => s
    | some admission => { s with admission, punches := s.punches ++ [some peer] }

def step (node : PeerId) (s : PeerListener) : ListenerAct → PeerListener
  | .edit act =>
    match act with
    | .enrol _ _ _ _ => s
    | act => { s with file := s.file.step act }
  | .setInternet on => { s with internet := on }
  | .verb op => { s with state := op.apply s.state }
  | .accept source bind nowMs => s.accept source bind nowMs
  | .message1 i message ownGlobalV6 =>
    match s.connections[i]? with
    | some c => if c.phase = .silent then s.message1 i c message ownGlobalV6 else s
    | none => s
  | .message3 i key =>
    match s.connections[i]? with
    | some c =>
      match c.phase with
      | .answered instanceId => s.message3 i c instanceId key
      | _ => s
    | none => s
  | .shake i offer nowMs =>
    match s.connections[i]? with
    | some c => if c.phase = .shaking then s.shake i c offer nowMs else s
    | none => s
  | .header i first =>
    match s.connections[i]? with
    | some c =>
      match c.phase with
      | .headerless session => header node s i c session first
      | _ => s
    | none => s
  | .enrol i label nowMs =>
    match s.connections[i]? with
    | some c =>
      match c.phase with
      | .enrolling session first => s.enrol i c session first label nowMs
      | _ => s
    | none => s
  | .close i =>
    match s.connections[i]? with
    | some c => s.move i c .done
    | none => s
  | .frame i asksPunch =>
    match s.connections[i]? with
    | some c =>
      match c.phase with
      | .streaming session first =>
        if first.kind = .control then s.frame i c session.peer asksPunch else s
      | _ => s
    | none => s
  | .punchEnds k =>
    match s.punches[k]? with
    | some (some peer) =>
      { s with admission := s.admission.dropPunch peer, punches := s.punches.set k none }
    | _ => s

/-- Nobody is connected yet. -/
def start (file : InviteFile) (internet : Bool) (state : PeerState) : PeerListener :=
  { file, internet, state }

/-! ## What a step does -/

/-- The steps of a listener, each with all that was asked for it. -/
inductive Stepped (node : PeerId) (s : PeerListener) : ListenerAct → PeerListener → Prop
  | nothing (act : ListenerAct) : Stepped node s act s
  | edited (act : InviteAct)
      (hown : ∀ joiner label secret nowMs, act ≠ .enrol joiner label secret nowMs) :
      Stepped node s (.edit act) { s with file := s.file.step act }
  | switched (on : Bool) : Stepped node s (.setInternet on) { s with internet := on }
  | told (op : StateOp) : Stepped node s (.verb op) { s with state := op.apply s.state }
  | accepted (source bind : Net.IpAddr) (nowMs : Int) (admission : ListenerAdmission)
      (hfree : s.state.isAddressBanned (s.incoming source bind nowMs).addr = false)
      (hslot : s.admission.acquireSlot (s.incoming source bind nowMs).addr
        (unauthenticatedAllowance s.file) = .ok admission) :
      Stepped node s (.accept source bind nowMs)
        { s with admission, connections := s.connections ++ [s.incoming source bind nowMs] }
  | ended (act : ListenerAct) (i : Nat) (c : Connection) (hc : s.connections[i]? = some c) :
      Stepped node s act (s.move i c .done)
  | knocks (i : Nat) (message : List UInt8) (own : List Net.Ipv6) (c : Connection)
      (hc : s.connections[i]? = some c) (hphase : c.phase = .silent) :
      Stepped node s (.message1 i message own)
        { s with connections := s.connections.set i { c with phase := .knocking } }
  | answers (i : Nat) (message : List UInt8) (own : List Net.Ipv6) (c : Connection)
      (instanceId : InstanceId) (hc : s.connections[i]? = some c) (hphase : c.phase = .silent)
      (hopen : answerPairing c message = some instanceId) :
      Stepped node s (.message1 i message own) (s.move i c (.answered instanceId))
  | shakes (i : Nat) (message : List UInt8) (own : List Net.Ipv6) (c : Connection)
      (hc : s.connections[i]? = some c) (hphase : c.phase = .silent) :
      Stepped node s (.message1 i message own) (s.move i c .shaking)
  | paired (i : Nat) (key : PeerId) (c : Connection) (instanceId : InstanceId)
      (hc : s.connections[i]? = some c) (hphase : c.phase = .answered instanceId)
      (hfree : c.seen.state.isKeyBanned key = false) :
      Stepped node s (.message3 i key)
        { s.move i c .done with
          state := s.state.recordPairingKey c.addr key
          paired := ⟨c.addr, instanceId, key⟩ :: s.paired }
  | waits (i : Nat) (offer : Offer) (nowMs : Int) (c : Connection) (session : PeerSession)
      (admission : ListenerAdmission) (hc : s.connections[i]? = some c)
      (hphase : c.phase = .shaking) (hproven : acceptReturn c offer nowMs = some session)
      (hslot : s.admission.acquireHeaderless session.peer = .ok admission) :
      Stepped node s (.shake i offer nowMs)
        { s with
          admission
          connections := s.connections.set i { c with phase := .headerless session } }
  | enrols (i : Nat) (first : StreamHeader) (c : Connection) (session : PeerSession)
      (hc : s.connections[i]? = some c) (hphase : c.phase = .headerless session)
      (henrol : session.handshake = .enrol) (hcontrol : first.kind = .control) :
      Stepped node s (.header i first) (s.move i c (.enrolling session first))
  | enrolled (i : Nat) (label : String) (nowMs : Int) (c : Connection) (session : PeerSession)
      (first : StreamHeader) (secret : InviteSecret) (file : InviteFile)
      (hc : s.connections[i]? = some c) (hphase : c.phase = .enrolling session first)
      (hsecret : session.enrolSecret = some secret)
      (hfile : s.file.acceptEnrolment session.peer label secret nowMs = .ok file) :
      Stepped node s (.enrol i (some label) nowMs)
        { s.move i c (.streaming session first) with file }
  | opened (i : Nat) (first : StreamHeader) (c : Connection) (session : PeerSession)
      (hc : s.connections[i]? = some c) (hphase : c.phase = .headerless session)
      (hpinned : session.handshake ≠ .enrol) (hgate : s.gated node session first = .ok ()) :
      Stepped node s (.header i first) (s.move i c (.streaming session first))
  | punches (i : Nat) (peer : PeerId) (admission : ListenerAdmission)
      (hslot : s.admission.acquirePunch peer = some admission) :
      Stepped node s (.frame i true) { s with admission, punches := s.punches ++ [some peer] }
  | punched (k : Nat) (peer : PeerId) (hk : s.punches[k]? = some (some peer)) :
      Stepped node s (.punchEnds k)
        { s with admission := s.admission.dropPunch peer, punches := s.punches.set k none }

section Stepped

variable (node : PeerId) (s : PeerListener) {i : Nat} {c : Connection}

theorem accept_stepped (source bind : Net.IpAddr) (nowMs : Int) :
    Stepped node s (.accept source bind nowMs) (s.accept source bind nowMs) := by
  simp only [accept]
  split
  · exact .nothing _
  · rename_i hbanned
    split
    · exact .nothing _
    · rename_i admission hslot
      exact .accepted source bind nowMs admission (Bool.eq_false_iff.mpr hbanned) hslot

theorem message1_stepped (hc : s.connections[i]? = some c) (hphase : c.phase = .silent)
    (message : List UInt8) (own : List Net.Ipv6) :
    Stepped node s (.message1 i message own) (s.message1 i c message own) := by
  unfold message1
  split
  · exact .ended _ i c hc
  · split
    · exact .ended _ i c hc
    · split
      · exact .knocks i message own c hc hphase
      · exact .knocks i message own c hc hphase
      · split
        · exact .ended _ i c hc
        · rename_i instanceId hopen
          exact .answers i message own c instanceId hc hphase hopen
      · exact .shakes i message own c hc hphase
      · exact .shakes i message own c hc hphase

theorem message3_stepped {instanceId : InstanceId} (hc : s.connections[i]? = some c)
    (hphase : c.phase = .answered instanceId) (key : PeerId) :
    Stepped node s (.message3 i key) (s.message3 i c instanceId key) := by
  unfold message3
  split
  · exact .ended _ i c hc
  · rename_i hfree
    exact .paired i key c instanceId hc hphase (Bool.eq_false_iff.mpr hfree)

theorem shake_stepped (hc : s.connections[i]? = some c) (hphase : c.phase = .shaking) (offer : Offer)
    (nowMs : Int) : Stepped node s (.shake i offer nowMs) (s.shake i c offer nowMs) := by
  unfold shake
  split
  · exact .ended _ i c hc
  · rename_i session hproven
    split
    · exact .ended _ i c hc
    · rename_i admission hslot
      exact .waits i offer nowMs c session admission hc hphase hproven hslot

theorem header_stepped {session : PeerSession} (hc : s.connections[i]? = some c)
    (hphase : c.phase = .headerless session) (first : StreamHeader) :
    Stepped node s (.header i first) (header node s i c session first) := by
  unfold header
  split
  · rename_i henrol
    split
    · rename_i hcontrol
      exact .enrols i first c session hc hphase henrol hcontrol.2
    · exact .ended _ i c hc
  · rename_i hpinned
    split
    · exact .ended _ i c hc
    · rename_i hgate
      exact .opened i first c session hc hphase hpinned hgate

theorem enrol_stepped {session : PeerSession} {first : StreamHeader}
    (hc : s.connections[i]? = some c) (hphase : c.phase = .enrolling session first)
    (label : Option String) (nowMs : Int) :
    Stepped node s (.enrol i label nowMs) (s.enrol i c session first label nowMs) := by
  unfold enrol
  split
  · rename_i secret label hsecret
    split
    · exact .ended _ i c hc
    · rename_i file hfile
      exact .enrolled i label nowMs c session first secret file hc hphase hsecret hfile
  · exact .ended _ i c hc

theorem frame_stepped (hc : s.connections[i]? = some c) (peer : PeerId) (asksPunch : Bool) :
    Stepped node s (.frame i asksPunch) (s.frame i c peer asksPunch) := by
  unfold frame
  split
  · exact .ended _ i c hc
  · split
    · exact .nothing _
    · rename_i hasks
      split
      · exact .nothing _
      · rename_i admission hslot
        obtain rfl : asksPunch = true := by simpa using hasks
        exact .punches i peer admission hslot

theorem step_stepped (act : ListenerAct) : Stepped node s act (step node s act) := by
  cases act with
  | edit act =>
    cases act with
    | enrol joiner label secret nowMs => exact .nothing _
    | mint ask => exact .edited _ nofun
    | revoke id => exact .edited _ nofun
    | pin peer label endpoints nowMs => exact .edited _ nofun
    | forget peer => exact .edited _ nofun
    | grant peer allow lend => exact .edited _ nofun
  | setInternet on => exact .switched on
  | verb op => exact .told op
  | accept source bind nowMs => exact accept_stepped node s source bind nowMs
  | message1 i message own =>
    simp only [step]
    split
    · rename_i c hc
      split
      · rename_i hphase
        exact message1_stepped node s hc hphase message own
      · exact .nothing _
    · exact .nothing _
  | message3 i key =>
    simp only [step]
    split
    · rename_i c hc
      split
      · rename_i hphase
        exact message3_stepped node s hc hphase key
      · exact .nothing _
    · exact .nothing _
  | shake i offer nowMs =>
    simp only [step]
    split
    · rename_i c hc
      split
      · rename_i hphase
        exact shake_stepped node s hc hphase offer nowMs
      · exact .nothing _
    · exact .nothing _
  | header i first =>
    simp only [step]
    split
    · rename_i c hc
      split
      · rename_i hphase
        exact header_stepped node s hc hphase first
      · exact .nothing _
    · exact .nothing _
  | enrol i label nowMs =>
    simp only [step]
    split
    · rename_i c hc
      split
      · rename_i hphase
        exact enrol_stepped node s hc hphase label nowMs
      · exact .nothing _
    · exact .nothing _
  | close i =>
    simp only [step]
    split
    · rename_i c hc
      exact .ended _ i c hc
    · exact .nothing _
  | frame i asksPunch =>
    simp only [step]
    split
    · rename_i c hc
      split
      · split
        · exact frame_stepped node s hc _ asksPunch
        · exact .nothing _
      · exact .nothing _
    · exact .nothing _
  | punchEnds k =>
    simp only [step]
    split
    · rename_i peer hk
      exact .punched k peer hk
    · exact .nothing _

end Stepped

end PeerListener

end TeamClaude
