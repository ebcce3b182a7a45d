import TeamClaude.Peer.Connections

/-!
# What connections are let in for

A stream is served for a peer whose key the operator pinned, and only as far as the operator has
granted it, or for one that enrols on an invite. A first pairing is answered in a window the operator
opened for that machine. Both hold whatever else comes in, and however the operator writes the files,
in between.
-/

namespace TeamClaude

open Lib

namespace PeerListener

structure Served where
  addr : String
  session : PeerSession
  header : StreamHeader
  deriving DecidableEq

/-- The stream of a connection. -/
def served (s : PeerListener) (i : Nat) : Option Served :=
  match s.connections[i]? with
  | some c =>
    match c.phase with
    | .streaming session header => some ⟨c.addr, session, header⟩
    | _ => none
  | none => none

/-- What a session that enrols writes to the peers file on its frame. -/
def enrolment (session : PeerSession) (label : Option String) (nowMs : Int) : Option InviteAct :=
  match session.enrolSecret, label with
  | some secret, some label => some (.enrol session.peer label secret nowMs)
  | _, _ => none

/-- What a step does to the peers file: the operator's writes, and the enrolments. -/
def writes (s : PeerListener) : ListenerAct → Option InviteAct
  | .edit act =>
    match act with
    | .enrol _ _ _ _ => none
    | act => some act
  | .enrol i label nowMs =>
    match s.connections[i]? with
    | some c =>
      match c.phase with
      | .enrolling session _ => enrolment session label nowMs
      | _ => none
    | none => none
  | _ => none

section Grants

variable {node : PeerId} {s : PeerListener} {act : ListenerAct} {c : Connection}

/-! ## The file is written by its own steps -/

theorem enrol_file {session : PeerSession} {first : StreamHeader} (i : Nat) (label : Option String)
    (nowMs : Int) : (s.enrol i c session first label nowMs).file =
      (enrolment session label nowMs).elim s.file s.file.step := by
  unfold enrol enrolment
  cases session.enrolSecret with
  | none => rfl
  | some secret =>
    cases label with
    | none => rfl
    | some label =>
      show _ = s.file.step (.enrol session.peer label secret nowMs)
      simp only [InviteFile.step]
      cases s.file.acceptEnrolment session.peer label secret nowMs with
      | error _ => rfl
      | ok file => rfl

theorem header_file {session : PeerSession} {first : StreamHeader} (i : Nat) :
    (header node s i c session first).file = s.file := by
  unfold header
  split
  · split <;> rfl
  · split <;> rfl

theorem accept_file (s : PeerListener) (source bind : Net.IpAddr) (nowMs : Int) :
    (s.accept source bind nowMs).file = s.file := by
  simp only [accept]
  split
  · rfl
  · split <;> rfl

theorem message1_file (i : Nat) (message : List UInt8) (own : List Net.Ipv6) :
    (s.message1 i c message own).file = s.file := by
  unfold message1
  split
  · rfl
  · split
    · rfl
    · split
      · rfl
      · rfl
      · split <;> rfl
      · rfl
      · rfl

theorem message3_file {instanceId : InstanceId} (i : Nat) (key : PeerId) :
    (s.message3 i c instanceId key).file = s.file := by
  unfold message3
  split <;> rfl

theorem shake_file (i : Nat) (offer : Offer) (nowMs : Int) :
    (s.shake i c offer nowMs).file = s.file := by
  unfold shake
  split
  · rfl
  · split <;> rfl

theorem frame_file (i : Nat) (peer : PeerId) (asksPunch : Bool) :
    (s.frame i c peer asksPunch).file = s.file := by
  unfold frame
  split
  · rfl
  · split
    · rfl
    · split <;> rfl

/-- The file moves by what is written to it and by nothing else. -/
theorem step_file (s : PeerListener) (act : ListenerAct) :
    (s.step node act).file = (s.writes act).elim s.file s.file.step := by
  cases act with
  | edit act => cases act <;> rfl
  | setInternet on => rfl
  | verb op => rfl
  | accept source bind nowMs => exact accept_file s source bind nowMs
  | message1 i message own =>
    simp only [step]
    split
    · split
      · exact message1_file i message own
      · rfl
    · rfl
  | message3 i key =>
    simp only [step]
    split
    · split
      · exact message3_file i key
      · rfl
    · rfl
  | shake i offer nowMs =>
    simp only [step]
    split
    · split
      · exact shake_file i offer nowMs
      · rfl
    · rfl
  | header i first =>
    simp only [step]
    split
    · split
      · exact header_file i
      · rfl
    · rfl
  | enrol i label nowMs =>
    -- A connection that is not enrolling writes nothing, so the cases are those of the writes.
    cases hc : s.connections[i]? with
    | none =>
      simp only [step, writes, hc]
      rfl
    | some c =>
      cases hphase : c.phase with
      | enrolling session first =>
        simp only [step, writes, hc, hphase]
        exact enrol_file i label nowMs
      | _ =>
        simp only [step, writes, hc, hphase]
        rfl
  | close i =>
    simp only [step]
    split <;> rfl
  | frame i asksPunch =>
    simp only [step]
    split
    · split
      · split
        · exact frame_file i _ asksPunch
        · rfl
      · rfl
    · rfl
  | punchEnds k =>
    simp only [step]
    split <;> rfl

/-! ## Where a connection came in -/

/-- A connection from the source is there, with what it read as it came in. -/
def Connected (source : Net.IpAddr) (seen : Seen) (s : PeerListener) : Prop :=
  ∃ c ∈ s.connections, c.source = source ∧ c.seen = seen

/-- The step lets a connection in, that reads the files as they are. -/
def LetsIn (source : Net.IpAddr) (seen : Seen) (s : PeerListener) (act : ListenerAct) : Prop :=
  ∃ bind, act = .accept source bind seen.nowMs ∧
    seen = ⟨s.file, s.internet, s.state, seen.nowMs⟩ ∧ s.state.isAddressBanned (ipText source) = false

variable {source : Net.IpAddr} {seen : Seen} {i : Nat} {phase : ConnPhase} {session : PeerSession}

theorem connected_set {s' : PeerListener} (hc : s.connections[i]? = some c)
    (hs' : s'.connections = s.connections.set i { c with phase }) :
    Connected source seen s' ↔ Connected source seen s := by
  constructor
  · rintro ⟨other, hin, hsource, hseen⟩
    rw [hs'] at hin
    rcases List.mem_or_eq_of_mem_set hin with hin | rfl
    · exact ⟨other, hin, hsource, hseen⟩
    · exact ⟨c, List.mem_of_getElem? hc, hsource, hseen⟩
  · rintro ⟨other, hin, hsource, hseen⟩
    obtain ⟨j, hj⟩ := List.mem_iff_getElem?.mp hin
    by_cases hij : i = j
    · subst hij
      obtain rfl := Option.some_injective _ (hc.symm.trans hj)
      refine ⟨{ c with phase }, List.mem_of_getElem? (i := i) ?_, hsource, hseen⟩
      rw [hs', List.getElem?_set_self (List.getElem?_eq_some_iff.mp hc).1]
    · refine ⟨other, List.mem_of_getElem? (i := j) ?_, hsource, hseen⟩
      rw [hs', List.getElem?_set_ne hij, hj]

/-- Who is connected stays so, and who is new is let in. -/
theorem connected_cases (node : PeerId) (s : PeerListener) (act : ListenerAct) :
    (Connected source seen s → Connected source seen (s.step node act)) ∧
      (Connected source seen (s.step node act) →
        Connected source seen s ∨ LetsIn source seen s act) := by
  have hset : ∀ {s' : PeerListener} {i : Nat} {c : Connection} {phase : ConnPhase},
      s.connections[i]? = some c → s'.connections = s.connections.set i { c with phase } →
        (Connected source seen s → Connected source seen s') ∧
          (Connected source seen s' → Connected source seen s ∨ LetsIn source seen s act) :=
    fun hc hs' => ⟨(connected_set hc hs').mpr, fun h => .inl ((connected_set hc hs').mp h)⟩
  have hstep := step_stepped node s act
  generalize s.step node act = s' at hstep ⊢
  cases hstep with
  | nothing | edited | switched | told | punches | punched => exact ⟨id, .inl⟩
  | accepted source' bind nowMs admission hfree hslot =>
    refine ⟨fun ⟨other, hin, hsame⟩ => ⟨other, List.mem_append_left _ hin, hsame⟩, ?_⟩
    rintro ⟨other, hin, rfl, rfl⟩
    rcases List.mem_append.mp hin with hin | hin
    · exact .inl ⟨other, hin, rfl, rfl⟩
    · obtain rfl := List.mem_singleton.mp hin
      exact .inr ⟨bind, rfl, rfl, hfree⟩
  | ended _ i c hc => exact hset hc rfl
  | knocks i message own c hc hphase => exact hset hc rfl
  | answers i message own c instanceId hc hphase hopen => exact hset hc rfl
  | shakes i message own c hc hphase => exact hset hc rfl
  | paired i key c instanceId hc hphase hfree => exact hset hc rfl
  | waits i offer nowMs c session admission hc hphase hproven hslot => exact hset hc rfl
  | enrols i first c session hc hphase henrol hcontrol => exact hset hc rfl
  | enrolled i label nowMs c session first secret file hc hphase hsecret hfile => exact hset hc rfl
  | opened i first c session hc hphase hpinned hgate => exact hset hc rfl

/-- Whoever is connected came in by a step of the run, and has read the files of then. -/
theorem run_came_in {file : InviteFile} {internet : Bool} {state : PeerState}
    {acts : List ListenerAct}
    (h : Connected source seen (exec (step node) (start file internet state) acts)) :
    ∃ before act after, acts = before ++ act :: after ∧
      LetsIn source seen (exec (step node) (start file internet state) before) act := by
  rcases exec_since h with hall | ⟨before, act, after, hacts, hnot, hsince⟩
  · obtain ⟨c, hin, -⟩ := hall [] List.nil_prefix
    exact absurd hin List.not_mem_nil
  · refine ⟨before, act, after, hacts, ?_⟩
    have hafter := hsince [] List.nil_prefix
    rw [exec_nil, exec_snoc] at hafter
    exact ((connected_cases node _ act).2 hafter).resolve_left hnot

/-! ## What a connection has proven -/

/-- What a session is let in on: an invite of the file where it enrols, else the row of its key. -/
def LetOn (file : InviteFile) (session : PeerSession) : Prop :=
  if session.handshake = .enrol then
    ∃ invite ∈ file.pendingInvites, session.enrolSecret = some invite.secret
  else ∃ row ∈ file.peers, row.node = session.peer

/-- The key was not blocked as the connection came in, and what the session is let in on was there. -/
def Knows (seen : Seen) (session : PeerSession) : Prop :=
  seen.state.isKeyBanned session.peer = false ∧ LetOn seen.file session

/-- A window was open as the connection came in. -/
def InWindow (seen : Seen) (addr : String) (instanceId : InstanceId) : Prop :=
  ∃ window ∈ seen.state.accepted, window.addr = addr ∧ window.instanceId = instanceId ∧
    window.openedAtMs ≤ seen.nowMs ∧ seen.nowMs < window.untilMs

theorem accept_return_knows {offer : Offer} {nowMs : Int}
    (h : acceptReturn c offer nowMs = some session) : Knows c.seen session := by
  unfold acceptReturn at h
  split at h
  · rename_i key
    split at h
    · rename_i hproven
      obtain rfl := Option.some.inj h
      obtain ⟨hrow, hban⟩ := Bool.and_eq_true_iff.mp hproven
      obtain ⟨row, hin, hnode⟩ := List.any_eq_true.mp hrow
      refine ⟨Bool.not_eq_true' _ ▸ hban, ?_⟩
      rw [LetOn, if_neg nofun]
      exact ⟨row, hin, of_decide_eq_true hnode⟩
    · cases h
  · rename_i key secret
    split at h
    · rename_i hproven
      obtain rfl := Option.some.inj h
      obtain ⟨hsecret, hban⟩ := Bool.and_eq_true_iff.mp hproven
      obtain ⟨invite, hin, hinvite⟩ := List.mem_map.mp (of_decide_eq_true hsecret)
      refine ⟨Bool.not_eq_true' _ ▸ hban, ?_⟩
      rw [LetOn, if_pos rfl]
      exact ⟨invite, (List.mem_filter.mp hin).1, congrArg some hinvite.symm⟩
    · cases h

theorem answer_pairing_window {message : List UInt8} {instanceId : InstanceId}
    (h : answerPairing c message = some instanceId) : InWindow c.seen c.addr instanceId := by
  unfold answerPairing at h
  split at h
  · cases h
  · split at h
    · rename_i hopen
      obtain rfl := Option.some.inj h
      obtain ⟨window, hin, hsame⟩ := List.any_eq_true.mp hopen
      simp only [Bool.and_eq_true, decide_eq_true_eq] at hsame
      exact ⟨window, hin, hsame.1.1.1, hsame.1.1.2, hsame.1.2, hsame.2⟩
    · cases h

def ProvenAt (c : Connection) : Prop :=
  match c.phase with
  | .answered instanceId => InWindow c.seen c.addr instanceId
  | .headerless session => Knows c.seen session
  | .enrolling session header =>
    Knows c.seen session ∧ session.handshake = .enrol ∧ header.kind = .control
  | _ => True

/-- A completed pairing is of a connection that was answered, and its key was not blocked. -/
def PairedOn (s : PeerListener) (paired : Paired) : Prop :=
  ∃ source seen, Connected source seen s ∧ paired.addr = ipText source ∧
    seen.state.isKeyBanned paired.key = false ∧ InWindow seen paired.addr paired.instanceId

structure Proven (s : PeerListener) : Prop where
  connections : ∀ c ∈ s.connections, ProvenAt c
  paired : ∀ paired ∈ s.paired, PairedOn s paired

theorem Proven.step (h : Proven s) (act : ListenerAct) : Proven (s.step node act) := by
  have hkept : ∀ paired ∈ s.paired, PairedOn (s.step node act) paired := by
    intro paired hin
    obtain ⟨source, seen, hconn, hrest⟩ := h.paired paired hin
    exact ⟨source, seen, (connected_cases node s act).1 hconn, hrest⟩
  have hset : ∀ {i : Nat} {c : Connection}, ProvenAt c →
      ∀ other ∈ s.connections.set i c, ProvenAt other := by
    intro i c hc other hin
    rcases List.mem_or_eq_of_mem_set hin with hin | rfl
    · exact h.connections other hin
    · exact hc
  have hstep := step_stepped node s act
  generalize s.step node act = s' at hstep hkept ⊢
  cases hstep with
  | nothing | edited | switched | told | punches | punched => exact ⟨h.connections, hkept⟩
  | accepted source bind nowMs admission hfree hslot =>
    refine ⟨fun other hin => ?_, hkept⟩
    rcases List.mem_append.mp hin with hin | hin
    · exact h.connections other hin
    · obtain rfl := List.mem_singleton.mp hin
      exact trivial
  | ended _ i c hc => exact ⟨hset trivial, hkept⟩
  | knocks i message own c hc hphase => exact ⟨hset trivial, hkept⟩
  | answers i message own c instanceId hc hphase hopen =>
    exact ⟨hset (answer_pairing_window hopen), hkept⟩
  | shakes i message own c hc hphase => exact ⟨hset trivial, hkept⟩
  | paired i key c instanceId hc hphase hfree =>
    refine ⟨hset trivial, fun paired hin => ?_⟩
    rcases List.mem_cons.mp hin with rfl | hin
    · have hwindow := h.connections c (List.mem_of_getElem? hc)
      rw [ProvenAt, hphase] at hwindow
      exact ⟨c.source, c.seen, (connected_set hc rfl).mpr ⟨c, List.mem_of_getElem? hc, rfl, rfl⟩, rfl,
        hfree, hwindow⟩
    · exact hkept paired hin
  | waits i offer nowMs c session admission hc hphase hproven hslot =>
    exact ⟨hset (accept_return_knows hproven), hkept⟩
  | enrols i first c session hc hphase henrol hcontrol =>
    have hknows := h.connections c (List.mem_of_getElem? hc)
    rw [ProvenAt, hphase] at hknows
    exact ⟨hset ⟨hknows, henrol, hcontrol⟩, hkept⟩
  | enrolled i label nowMs c session first secret file hc hphase hsecret hfile =>
    exact ⟨hset trivial, hkept⟩
  | opened i first c session hc hphase hpinned hgate => exact ⟨hset trivial, hkept⟩

theorem run_proven (node : PeerId) (file : InviteFile) (internet : Bool) (state : PeerState)
    (acts : List ListenerAct) : Proven (exec (step node) (start file internet state) acts) :=
  exec_invariant (A := fun _ _ => True) (fun _ act h _ => h.step act)
    ⟨fun _ hin => absurd hin List.not_mem_nil, fun _ hin => absurd hin List.not_mem_nil⟩
    (fun _ _ _ => trivial) acts (List.prefix_refl acts)

/-! ## Streams -/

theorem gate_rows_ok {header : StreamHeader} {row : Option PinnedRow}
    (h : peerStreamGateRows header row = .ok ()) :
    header.hopsRemaining ≠ 0 ∧ ∃ pinned, row = some pinned ∧ header.permitted pinned.allow = true := by
  unfold peerStreamGateRows at h
  split at h
  · cases h
  · cases h
  · rename_i pinned _
    split at h
    · cases h
    · rename_i hallow
      split at h
      · cases h
      · rename_i hhops
        exact ⟨hhops, pinned, rfl, by simpa using hallow⟩

theorem gated_ok {header : StreamHeader} (h : s.gated node session header = .ok ()) :
    header.hopsRemaining ≠ 0 ∧ node ∉ header.via ∧
      ∃ row ∈ s.file.peers, row.node = session.peer ∧ header.permitted row.allow = true := by
  unfold gated at h
  cases hrows : peerStreamGateRows header
      (s.file.peers.find? fun row => decide (row.node = session.peer)) with
  | error refusal =>
    rw [hrows] at h
    cases h
  | ok _ =>
    rw [hrows] at h
    obtain ⟨hhops, row, hrow, hallow⟩ := gate_rows_ok hrows
    have hnode := List.find?_some hrow
    refine ⟨hhops, fun hvia => ?_, row, List.mem_of_find?_eq_some hrow, of_decide_eq_true hnode,
      hallow⟩
    have hloop : peerStreamGateHop node header [] = .ok () := h
    rw [peerStreamGateHop, if_pos hvia] at hloop
    cases hloop

theorem permitted_to_all {header : StreamHeader} (h : header.permitted {} = true) :
    header.kind = .control ∨ header.kind = .park := by
  unfold StreamHeader.permitted at h
  split at h
  · rename_i hkind
    exact .inl hkind
  · rename_i hkind
    exact .inr hkind
  -- Any other stream asks for a power, and an empty grant has none.
  all_goals cases h

theorem served_some {s : PeerListener} {stream : Served} (h : s.served i = some stream) :
    ∃ c, s.connections[i]? = some c ∧ stream.addr = c.addr ∧
      c.phase = .streaming stream.session stream.header := by
  unfold served at h
  split at h
  · rename_i c hc
    split at h
    · rename_i session header hphase
      obtain rfl := Option.some.inj h
      exact ⟨c, hc, rfl, hphase⟩
    · cases h
  · cases h

theorem served_of {s : PeerListener} {stream : Served} (hc : s.connections[i]? = some c)
    (haddr : stream.addr = c.addr) (hphase : c.phase = .streaming stream.session stream.header) :
    s.served i = some stream := by
  simp only [served, hc, hphase, ← haddr]

theorem served_set {s' : PeerListener} {stream : Served} {j : Nat} (hc : s.connections[j]? = some c)
    (hs' : s'.connections = s.connections.set j { c with phase }) (h : s'.served i = some stream) :
    s.served i = some stream ∨
      j = i ∧ stream.addr = c.addr ∧ phase = .streaming stream.session stream.header := by
  obtain ⟨other, hother, haddr, hstream⟩ := served_some h
  rw [hs'] at hother
  by_cases hji : j = i
  · subst hji
    rw [List.getElem?_set_self (List.getElem?_eq_some_iff.mp hc).1] at hother
    obtain rfl := Option.some_injective _ hother
    exact .inr ⟨rfl, haddr, hstream⟩
  · rw [List.getElem?_set_ne hji] at hother
    exact .inl (served_of hother haddr hstream)

/-- A stream begins as it passes the gate, or with its enrolment. -/
inductive Begins (node : PeerId) (s : PeerListener) (i : Nat) (stream : Served) :
    ListenerAct → InviteFile → Prop
  | gated (c : Connection) (hc : s.connections[i]? = some c) (haddr : stream.addr = c.addr)
      (hphase : c.phase = .headerless stream.session) (hpinned : stream.session.handshake ≠ .enrol)
      (hgate : s.gated node stream.session stream.header = .ok ()) :
      Begins node s i stream (.header i stream.header) s.file
  | enrolled (c : Connection) (label : String) (nowMs : Int) (secret : InviteSecret)
      (file : InviteFile) (hc : s.connections[i]? = some c) (haddr : stream.addr = c.addr)
      (hphase : c.phase = .enrolling stream.session stream.header)
      (hsecret : stream.session.enrolSecret = some secret)
      (hfile : s.file.acceptEnrolment stream.session.peer label secret nowMs = .ok file) :
      Begins node s i stream (.enrol i (some label) nowMs) file

theorem served_cases {stream : Served} (h : (s.step node act).served i = some stream) :
    s.served i = some stream ∨ Begins node s i stream act (s.step node act).file := by
  have hstep := step_stepped node s act
  generalize s.step node act = s' at hstep h ⊢
  cases hstep with
  | nothing | edited | switched | told | punches | punched => exact .inl h
  | accepted source bind nowMs admission hfree hslot =>
    obtain ⟨c, hc, haddr, hphase⟩ := served_some h
    rcases List.mem_append.mp (List.mem_of_getElem? hc) with hin | hin
    · have hlt : i < s.connections.length := by
        by_contra hge
        have hlast : (s.connections ++ [s.incoming source bind nowMs])[i]? = some c := hc
        rw [List.getElem?_append_right (Nat.le_of_not_lt hge)] at hlast
        rw [List.mem_singleton.mp (List.mem_of_getElem? hlast)] at hphase
        cases hphase
      exact .inl (served_of ((List.getElem?_append_left hlt).symm.trans hc) haddr hphase)
    · rw [List.mem_singleton.mp hin] at hphase
      cases hphase
  | ended _ j c hc => exact .inl ((served_set hc rfl h).resolve_right nofun)
  | knocks j message own c hc hphase => exact .inl ((served_set hc rfl h).resolve_right nofun)
  | answers j message own c instanceId hc hphase hopen =>
    exact .inl ((served_set hc rfl h).resolve_right nofun)
  | shakes j message own c hc hphase => exact .inl ((served_set hc rfl h).resolve_right nofun)
  | paired j key c instanceId hc hphase hfree =>
    exact .inl ((served_set hc rfl h).resolve_right nofun)
  | waits j offer nowMs c session admission hc hphase hproven hslot =>
    exact .inl ((served_set hc rfl h).resolve_right nofun)
  | enrols j first c session hc hphase henrol hcontrol =>
    exact .inl ((served_set hc rfl h).resolve_right nofun)
  | enrolled j label nowMs c session first secret file hc hphase hsecret hfile =>
    rcases served_set hc rfl h with h | ⟨rfl, haddr, hstream⟩
    · exact .inl h
    · obtain ⟨rfl, rfl⟩ := ConnPhase.streaming.inj hstream
      exact .inr (.enrolled c label nowMs secret file hc haddr hphase hsecret hfile)
  | opened j first c session hc hphase hpinned hgate =>
    rcases served_set hc rfl h with h | ⟨rfl, haddr, hstream⟩
    · exact .inl h
    · obtain ⟨rfl, rfl⟩ := ConnPhase.streaming.inj hstream
      exact .inr (.gated c hc haddr hphase hpinned hgate)

/-- The operator granted the row what it may do with no pairing of its node since, or it had it from
the start. -/
def Empowered (file : InviteFile) (acts : List InviteAct) (row : PinnedRow) : Prop :=
  InviteFile.Granted file acts row ∨ InviteFile.Inherited file acts row

/-- A connection of the session came in by a step of the run, blocked neither by its address nor by
its key, and what it is let in on was in the file. -/
def CameIn (node : PeerId) (s : PeerListener) (acts : List ListenerAct) (stream : Served) : Prop :=
  ∃ before source bind nowMs after, acts = before ++ .accept source bind nowMs :: after ∧
    stream.addr = ipText source ∧
    (exec (step node) s before).state.isAddressBanned stream.addr = false ∧
    (exec (step node) s before).state.isKeyBanned stream.session.peer = false ∧
    LetOn (exec (step node) s before).file stream.session

/-- The row of a pinned peer allows the stream. Unless every pinned peer may open such a stream, the
operator has granted it to the pairing the row is of. -/
def Allowed (node : PeerId) (file : InviteFile) (s : PeerListener) (written : List InviteAct)
    (stream : Served) : Prop :=
  stream.header.hopsRemaining ≠ 0 ∧ node ∉ stream.header.via ∧
    ∃ row ∈ s.file.peers, row.node = stream.session.peer ∧
      stream.header.permitted row.allow = true ∧
      (stream.header.kind = .control ∨ stream.header.kind = .park ∨ Empowered file written row)

/-- The enrolment spends an invite that is outstanding, and pins its key with no power. -/
def Enrols (i : Nat) (s s' : PeerListener) (act : ListenerAct) (stream : Served) : Prop :=
  ∃ label nowMs, act = .enrol i (some label) nowMs ∧ stream.header.kind = .control ∧
    (∃ invite ∈ s.file.pendingInvites, stream.session.enrolSecret = some invite.secret ∧
      invite.outstanding nowMs = true) ∧
    ∃ row ∈ s'.file.peers, row.node = stream.session.peer ∧ row.allow = {}

theorem came_in {file : InviteFile} {internet : Bool} {state : PeerState} {acts : List ListenerAct}
    {stream : Served} (hc : c ∈ (exec (step node) (start file internet state) acts).connections)
    (haddr : stream.addr = c.addr) (hknows : Knows c.seen stream.session) :
    CameIn node (start file internet state) acts stream := by
  obtain ⟨before, _, after, hacts, bind, rfl, hseen, hfree⟩ := run_came_in ⟨c, hc, rfl, rfl⟩
  obtain ⟨hban, hlet⟩ := hknows
  rw [hseen] at hban hlet
  exact ⟨before, c.source, bind, c.seen.nowMs, after, hacts, haddr, haddr ▸ hfree, hban, hlet⟩

theorem gated_allowed {file : InviteFile} {internet : Bool} {state : PeerState}
    {acts : List ListenerAct} {stream : Served}
    (hgate : (exec (step node) (start file internet state) acts).gated node stream.session
      stream.header = .ok ()) :
    Allowed node file (exec (step node) (start file internet state) acts)
      (observed (step node) writes (start file internet state) acts) stream := by
  obtain ⟨hhops, hvia, row, hrow, hnode, hallow⟩ := gated_ok hgate
  refine ⟨hhops, hvia, row, hrow, hnode, hallow, ?_⟩
  rw [observed_part step_file] at hrow
  rcases InviteFile.run_row_cases _ _ row hrow with ⟨hnone, -⟩ | hgranted | hinherited
  · rw [hnone] at hallow
    rcases permitted_to_all hallow with hcontrol | hpark
    · exact .inl hcontrol
    · exact .inr (.inl hpark)
  · exact .inr (.inr (.inl hgranted))
  · exact .inr (.inr (.inr hinherited))

theorem enrolment_spends {file file' : InviteFile} {joiner : PeerId} {label : String}
    {secret : InviteSecret} {nowMs : Int}
    (h : file.acceptEnrolment joiner label secret nowMs = .ok file') :
    (∃ invite ∈ file.pendingInvites, invite.secret = secret ∧ invite.outstanding nowMs = true) ∧
      ∃ row ∈ file'.peers, row.node = joiner ∧ row.allow = {} := by
  obtain ⟨label', invites, hspend, rfl⟩ := InviteFile.enrol_cases h
  exact ⟨PendingInvite.spend_outstanding hspend, _, List.mem_append_right _ List.mem_cons_self, rfl,
    rfl⟩

/-- A peer that may relay comes back from the local network. -/
def onePinned : InviteFile :=
  { listen := none
    peers := [{ node := 1, label := "a", addedAt := 0, allow := { relay := true } }]
    pendingInvites := [] }

def oneServed : Served :=
  ⟨"192.168.0.2", { peer := 1, handshake := .return_ },
    { kind := .tunnel, target := some (.peer 2), hopsRemaining := 1, requestId := 9 }⟩

def oneReturn : List ListenerAct :=
  [.accept (.v4 ⟨192, 168, 0, 2⟩) (.v4 ⟨0, 0, 0, 0⟩) 5, .message1 0 (List.replicate 96 0) [],
    .shake 0 (.return_ 1) 5, .header 0 oneServed.header]

/-- The rows are of one accept, whatever key each has learned. -/
def SameWindow (window held : AcceptedInstance) : Prop :=
  held.addr = window.addr ∧ held.instanceId = window.instanceId ∧
    held.openedAtMs = window.openedAtMs ∧ held.untilMs = window.untilMs

def Held (window : AcceptedInstance) (state : PeerState) : Prop :=
  ∃ held ∈ state.accepted, SameWindow window held

def OpensWindow (window : AcceptedInstance) (state : PeerState) (op : StateOp) : Prop :=
  ∃ selector nowMs windowSecs fresh, op = .accept selector nowMs windowSecs ∧
    (state.acceptKnock selector nowMs windowSecs).1 = some fresh ∧ SameWindow window fresh

variable {state : PeerState} {window : AcceptedInstance}

theorem expire_accepted_mem {windows : List AcceptedInstance} {nowMs : Int}
    (h : window ∈ PeerState.expireAccepted windows nowMs) : window ∈ windows := by
  unfold PeerState.expireAccepted at h
  obtain ⟨row, hrow, rfl⟩ := List.mem_map.mp h
  have hzip := (List.mem_filter.mp hrow).1
  exact (List.mem_filter.mp (List.fst_mem_of_mem_zipIdx hzip)).1

theorem held_of_subset {state' : PeerState} (hsub : ∀ row ∈ state'.accepted, row ∈ state.accepted)
    (h : Held window state') : Held window state := by
  obtain ⟨row, hin, hsame⟩ := h
  exact ⟨row, hsub row hin, hsame⟩

theorem held_of_learned {addr : String} {key : PeerId}
    (h : Held window (state.recordPairingKey addr key)) : Held window state := by
  obtain ⟨row, hin, hsame⟩ := h
  obtain ⟨held, hheld, rfl⟩ := List.mem_map.mp hin
  refine ⟨held, hheld, ?_⟩
  split at hsame <;> exact hsame

/-- A window that is kept after a call was kept before it, or the call is the accept that opens it. -/
theorem held_cases {op : StateOp} (h : Held window (op.apply state)) :
    Held window state ∨ OpensWindow window state op := by
  cases op with
  | ban addr key reason nowMs =>
    exact .inl (held_of_subset (fun row hin => (List.mem_filter.mp hin).1) h)
  | expire nowMs => exact .inl (held_of_subset (fun row hin => expire_accepted_mem hin) h)
  | reserve addr nowMs =>
    refine .inl (held_of_subset (fun row hin => ?_) h)
    simp only [StateOp.apply, PeerState.reserveKnockSlot] at hin
    split at hin
    · exact hin
    · split at hin <;> exact hin
  | record addr instanceId proposedName wireVersion listenPort nowMs =>
    refine .inl (held_of_subset (fun row hin => ?_) h)
    simp only [StateOp.apply, PeerState.recordKnock] at hin
    split at hin
    · exact hin
    · split at hin
      · exact hin
      · split at hin <;> exact hin
  | accept selector nowMs windowSecs =>
    cases hopened : state.acceptKnock selector nowMs windowSecs with
    | mk opened state' =>
      have hafter : Held window state' := by
        have happly : (StateOp.accept selector nowMs windowSecs).apply state = state' := by
          rw [StateOp.apply, hopened]
        rwa [happly] at h
      unfold PeerState.acceptKnock at hopened
      split at hopened
      · cases hopened
        exact .inl hafter
      · rename_i knock hknock
        obtain ⟨row, hin, hsame⟩ := hafter
        cases hopened
        rcases List.mem_append.mp hin with hin | hin
        · exact .inl ⟨row, (List.mem_filter.mp hin).1, hsame⟩
        · obtain rfl := List.mem_singleton.mp hin
          refine .inr ⟨selector, nowMs, windowSecs, _, rfl, ?_, hsame⟩
          rw [PeerState.acceptKnock, hknock]
  | learnKey addr key => exact .inl (held_of_learned h)
  | unblock | mute | release | find | observe | spendAsk => exact .inl h

theorem ban_drops (state : PeerState) (key : Option PeerId) (reason : BanReason) (nowMs : Int) :
    ¬ Held window (state.ban window.addr key reason nowMs) := by
  rintro ⟨row, hin, haddr, -⟩
  have hne := (List.mem_filter.mp hin).2
  simp [haddr] at hne

/-- Of a listener's steps only the operator's accept opens a window. -/
theorem held_step_cases (h : Held window (s.step node act).state) :
    Held window s.state ∨ ∃ op, act = .verb op ∧ OpensWindow window s.state op := by
  have hstep := step_stepped node s act
  generalize s.step node act = s' at hstep h
  cases hstep with
  | told op => exact (held_cases h).imp_right fun hopens => ⟨op, rfl, hopens⟩
  | paired i key c instanceId hc hphase hfree => exact .inl (held_of_learned h)
  | _ => exact .inl h

/-- No step of the run bans the address. -/
def Unbanned (addr : String) (acts : List ListenerAct) : Prop :=
  ∀ key reason nowMs, .verb (.ban addr key reason nowMs) ∉ acts

theorem unbanned_of_held {s : PeerListener} {acts : List ListenerAct}
    (h : ∀ pre, pre <+: acts → Held window (exec (step node) s pre).state) :
    Unbanned window.addr acts := by
  intro key reason nowMs hin
  obtain ⟨pre, post, rfl⟩ := List.mem_iff_append.mp hin
  have hafter := h (pre ++ [.verb (.ban window.addr key reason nowMs)]) ⟨post, by simp⟩
  rw [exec_snoc] at hafter
  exact ban_drops _ key reason nowMs hafter

/-- The window was open from the start or the operator opened it in the run, and no ban of its address
came since. -/
def Stands (node : PeerId) (start : PeerListener) (acts : List ListenerAct)
    (window : AcceptedInstance) : Prop :=
  (Held window start.state ∧ Unbanned window.addr acts) ∨
    ∃ before op after, acts = before ++ .verb op :: after ∧
      OpensWindow window (exec (step node) start before).state op ∧ Unbanned window.addr after

theorem stands_of_held {s : PeerListener} {acts : List ListenerAct}
    (h : Held window (exec (step node) s acts).state) : Stands node s acts window := by
  rcases exec_since (p := fun s : PeerListener => Held window s.state) h with
    hall | ⟨before, act, after, rfl, hnot, hsince⟩
  · exact .inl ⟨hall [] List.nil_prefix, unbanned_of_held hall⟩
  · have hfirst := hsince [] List.nil_prefix
    rw [exec_nil, exec_snoc] at hfirst
    obtain ⟨op, rfl, hopens⟩ := (held_step_cases hfirst).resolve_left hnot
    exact .inr ⟨before, op, after, rfl, hopens, unbanned_of_held hsince⟩

/-- A connection from the address came in by a step of the run, not blocked by it, in a window for the
machine that was open. -/
def InvitedIn (node : PeerId) (s : PeerListener) (acts : List ListenerAct) (addr : String)
    (instanceId : InstanceId) (P : PeerState → Prop) : Prop :=
  ∃ before source bind nowMs after, acts = before ++ .accept source bind nowMs :: after ∧
    addr = ipText source ∧ (exec (step node) s before).state.isAddressBanned addr = false ∧
    P (exec (step node) s before).state ∧
    ∃ window, window.addr = addr ∧ window.instanceId = instanceId ∧ window.openedAtMs ≤ nowMs ∧
      nowMs < window.untilMs ∧ Stands node s before window

theorem invited_in {file : InviteFile} {internet : Bool} {state : PeerState}
    {acts : List ListenerAct} {addr : String} {instanceId : InstanceId} {P : PeerState → Prop}
    (hconn : Connected source seen (exec (step node) (start file internet state) acts))
    (haddr : addr = ipText source) (hP : P seen.state) (hwindow : InWindow seen addr instanceId) :
    InvitedIn node (start file internet state) acts addr instanceId P := by
  obtain ⟨before, _, after, hacts, bind, rfl, hseen, hfree⟩ := run_came_in hconn
  obtain ⟨window, hin, hwaddr, hinstance, hopened, huntil⟩ := hwindow
  rw [hseen] at hP hin
  exact ⟨before, source, bind, seen.nowMs, after, hacts, haddr, haddr ▸ hfree, hP, window, hwaddr,
    hinstance, hopened, huntil, stands_of_held ⟨window, hin, rfl, rfl, rfl, rfl⟩⟩

/-- A first pairing is answered only for the one machine the operator has accepted, at the one address
it knocked from, as long as the window lasts and nobody has blocked the address; and completed only
for a key that nobody has blocked either. -/
theorem pairings_are_accepted (node : PeerId) (file : InviteFile) (internet : Bool)
    (state : PeerState) (acts : List ListenerAct) :
    (∀ c ∈ (exec (step node) (start file internet state) acts).connections, ∀ instanceId,
      c.phase = .answered instanceId →
        InvitedIn node (start file internet state) acts c.addr instanceId fun _ => True) ∧
    ∀ paired ∈ (exec (step node) (start file internet state) acts).paired,
      InvitedIn node (start file internet state) acts paired.addr paired.instanceId
        fun state => state.isKeyBanned paired.key = false := by
  have hproven := run_proven node file internet state acts
  refine ⟨fun c hc instanceId hphase => ?_, fun paired hin => ?_⟩
  · have hwindow := hproven.connections c hc
    rw [ProvenAt, hphase] at hwindow
    exact invited_in ⟨c, hc, rfl, rfl⟩ rfl trivial hwindow
  · obtain ⟨source, seen, hconn, haddr, hban, hwindow⟩ := hproven.paired paired hin
    exact invited_in hconn haddr hban hwindow

/-- A machine has knocked, the operator accepts it, and it pairs. -/
example : (exec (step 0)
    (start onePinned false { pending := [PeerState.freshKnock "192.168.0.2" 7 none 1 none 0] })
    [.verb (.accept ⟨some 7, fun _ => false⟩ 0 120),
      .accept (.v4 ⟨192, 168, 0, 2⟩) (.v4 ⟨0, 0, 0, 0⟩) 5,
      .message1 0 (List.replicate 32 0 ++ [2, 0, 0, 0, 0, 0, 0, 0, 7]) [], .message3 0 3]).paired =
    [⟨"192.168.0.2", 7, 3⟩] := by
  decide +kernel

end Grants

end PeerListener

end TeamClaude
