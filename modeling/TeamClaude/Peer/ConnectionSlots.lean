import TeamClaude.Peer.Connections

/-!
# The slots of connections

A slot is taken as a connection comes in or proves its key and is given back as it moves on, on
every way out. So what the admission has counted is what the connections hold.
-/

namespace TeamClaude

open Lib

namespace PeerListener

/-- The counters of the admission count what connections and punches hold. -/
structure Accounted (s : PeerListener) : Prop where
  total : Counts s.admission.liveTotal Connection.socket s.connections
  perAddress : Counts s.admission.livePerAddress Connection.slot s.connections
  headerless : Counts s.admission.headerless Connection.headerlessPeer s.connections
  punches : Counts (fun peer => if peer ∈ s.admission.punching then 1 else 0) id s.punches

section Accounted

variable {node : PeerId} {s : PeerListener} {i : Nat} {c : Connection} {phase : ConnPhase}

theorem bare_holds_nothing (hbare : phase.isBare = true) :
    ({ c with phase } : Connection).slot = none ∧
      ({ c with phase } : Connection).headerlessPeer = none := by
  cases phase <;> first | exact ⟨rfl, rfl⟩ | cases hbare

theorem headerless_peer_of_slot {addr : String} (h : c.slot = some addr) :
    c.headerlessPeer = none := by
  unfold Connection.slot at h
  unfold Connection.headerlessPeer
  split at h
  · rename_i hphase
    rw [hphase]
  · rename_i hphase
    rw [hphase]
  · cases h

theorem socket_of_slot {slot : Option String} (h : c.slot = slot) :
    c.socket = slot.map fun _ => () := by
  rw [Connection.socket, h]

/-- A connection that moves on to hold nothing gives back what it held. -/
theorem Accounted.move (h : Accounted s) (hc : s.connections[i]? = some c)
    (hbare : phase.isBare = true) : Accounted (s.move i c phase) := by
  obtain ⟨hslot, hpeer⟩ := bare_holds_nothing (c := c) hbare
  have hsocket := socket_of_slot hslot
  unfold PeerListener.move Connection.release
  cases hheld : c.slot with
  | some addr =>
    have hnone := headerless_peer_of_slot hheld
    rw [hnone]
    exact ⟨h.total.drop hc (socket_of_slot hheld) hsocket, h.perAddress.drop hc hheld hslot,
      h.headerless.keep hc (hpeer.trans hnone.symm), h.punches⟩
  | none =>
    have hfree := hsocket.trans (socket_of_slot hheld).symm
    have hkept := hslot.trans hheld.symm
    cases hwaits : c.headerlessPeer with
    | some peer =>
      exact ⟨h.total.keep hc hfree, h.perAddress.keep hc hkept, h.headerless.drop hc hwaits hpeer,
        h.punches⟩
    | none =>
      exact ⟨h.total.keep hc hfree, h.perAddress.keep hc hkept,
        h.headerless.keep hc (hpeer.trans hwaits.symm), h.punches⟩

theorem acquire_slot_ok {a a' : ListenerAdmission} {addr : String} {allowance : Nat × Nat}
    (h : a.acquireSlot addr allowance = .ok a') :
    a.liveTotal () < allowance.1 ∧ a.livePerAddress addr < allowance.2 ∧
      a' = { a with
        liveTotal := takeGuard a.liveTotal ()
        livePerAddress := takeGuard a.livePerAddress addr } := by
  unfold ListenerAdmission.acquireSlot at h
  split at h
  · cases h
  · split at h
    · cases h
    · rename_i htotal haddr
      cases h
      exact ⟨Nat.lt_of_not_le htotal, Nat.lt_of_not_le haddr, rfl⟩

theorem acquire_headerless_ok {a a' : ListenerAdmission} {peer : PeerId}
    (h : a.acquireHeaderless peer = .ok a') :
    a.headerless peer < maxHeaderlessPerPeer ∧
      a' = { a with headerless := takeGuard a.headerless peer } := by
  unfold ListenerAdmission.acquireHeaderless at h
  split at h
  · cases h
  · rename_i hroom
    cases h
    exact ⟨Nat.lt_of_not_le hroom, rfl⟩

theorem acquire_punch_some {a a' : ListenerAdmission} {peer : PeerId}
    (h : a.acquirePunch peer = some a') :
    peer ∉ a.punching ∧ a' = { a with punching := peer :: a.punching } := by
  unfold ListenerAdmission.acquirePunch at h
  split at h
  · cases h
  · rename_i hnew
    cases h
    exact ⟨hnew, rfl⟩

theorem punching_cons {peers : List PeerId} {peer : PeerId} (hnew : peer ∉ peers) :
    (fun other => if other ∈ peer :: peers then 1 else 0) =
      takeGuard (fun other => if other ∈ peers then 1 else 0) peer := by
  funext other
  rw [takeGuard]
  by_cases hother : other = peer
  · subst hother
    rw [Function.update_self, if_pos List.mem_cons_self, if_neg hnew]
  · rw [Function.update_of_ne hother]
    simp only [List.mem_cons, hother, false_or]

theorem punching_filter {peers : List PeerId} {peer : PeerId} :
    (fun other => if other ∈ peers.filter fun p => p ≠ peer then 1 else 0) =
      dropGuard (fun other => if other ∈ peers then 1 else 0) peer := by
  funext other
  rw [dropGuard]
  by_cases hother : other = peer
  · subst hother
    rw [Function.update_self]
    simp only [List.mem_filter, ne_eq, not_true_eq_false, decide_false, Bool.false_eq_true, and_false,
      if_false]
    split <;> rfl
  · rw [Function.update_of_ne hother]
    simp only [List.mem_filter, ne_eq, hother, not_false_eq_true, decide_true, and_true]

theorem Accounted.step (h : Accounted s) (act : ListenerAct) : Accounted (s.step node act) := by
  have hstep := step_stepped node s act
  generalize s.step node act = s' at hstep
  cases hstep with
  | nothing | edited | switched | told => exact ⟨h.total, h.perAddress, h.headerless, h.punches⟩
  | accepted source bind nowMs admission hfree hslot =>
    obtain ⟨-, -, rfl⟩ := acquire_slot_ok hslot
    have htotal : (s.incoming source bind nowMs).socket = some () := rfl
    have haddr : (s.incoming source bind nowMs).slot = some (s.incoming source bind nowMs).addr := rfl
    exact ⟨h.total.enter htotal, h.perAddress.enter haddr, h.headerless.join rfl, h.punches⟩
  | ended _ i c hc => exact h.move hc rfl
  | knocks i message own c hc hphase =>
    have hslot : c.slot = some c.addr := by rw [Connection.slot, hphase]
    have hpeer : c.headerlessPeer = none := by rw [Connection.headerlessPeer, hphase]
    exact ⟨h.total.keep hc (socket_of_slot hslot).symm, h.perAddress.keep hc hslot.symm,
      h.headerless.keep hc hpeer.symm, h.punches⟩
  | answers i message own c instanceId hc hphase hopen => exact h.move hc rfl
  | shakes i message own c hc hphase => exact h.move hc rfl
  | paired i key c instanceId hc hphase hfree =>
    have hmove : Accounted (s.move i c .done) := h.move hc rfl
    exact ⟨hmove.total, hmove.perAddress, hmove.headerless, hmove.punches⟩
  | waits i offer nowMs c session admission hc hphase hproven hslot =>
    obtain ⟨-, rfl⟩ := acquire_headerless_ok hslot
    have hnone : c.slot = none := by rw [Connection.slot, hphase]
    have hpeer : c.headerlessPeer = none := by rw [Connection.headerlessPeer, hphase]
    exact ⟨h.total.keep hc (socket_of_slot hnone).symm, h.perAddress.keep hc hnone.symm,
      h.headerless.take hc hpeer rfl, h.punches⟩
  | enrols i first c session hc hphase henrol hcontrol => exact h.move hc rfl
  | enrolled i label nowMs c session first secret file hc hphase hsecret hfile =>
    have hmove : Accounted (s.move i c (.streaming session first)) := h.move hc rfl
    exact ⟨hmove.total, hmove.perAddress, hmove.headerless, hmove.punches⟩
  | opened i first c session hc hphase hpinned hgate => exact h.move hc rfl
  | punches i peer admission hslot =>
    obtain ⟨hnew, rfl⟩ := acquire_punch_some hslot
    refine ⟨h.total, h.perAddress, h.headerless, ?_⟩
    rw [punching_cons hnew]
    exact h.punches.enter rfl
  | punched k peer hk =>
    refine ⟨h.total, h.perAddress, h.headerless, ?_⟩
    show Counts
      (fun other => if other ∈ s.admission.punching.filter fun p => p ≠ peer then 1 else 0) id _
    rw [punching_filter]
    exact h.punches.drop hk rfl rfl

/-- The counters stay within what the most generous file allows. -/
structure Capped (most : Nat) (s : PeerListener) : Prop where
  total : ∀ k, s.admission.liveTotal k ≤ maxUnauthenticatedSockets + most
  perAddress : ∀ addr, s.admission.livePerAddress addr ≤ maxUnauthenticatedPerAddress + most
  headerless : ∀ peer, s.admission.headerless peer ≤ maxHeaderlessPerPeer

theorem release_le (c : Connection) (a : ListenerAdmission) :
    (∀ k, (c.release a).liveTotal k ≤ a.liveTotal k) ∧
      (∀ addr, (c.release a).livePerAddress addr ≤ a.livePerAddress addr) ∧
      ∀ peer, (c.release a).headerless peer ≤ a.headerless peer := by
  unfold Connection.release
  split
  · rename_i addr _
    exact ⟨fun k => drop_guard_le a.liveTotal () k, fun k => drop_guard_le a.livePerAddress addr k,
      fun _ => le_rfl⟩
  · rename_i peer _ _
    exact ⟨fun _ => le_rfl, fun _ => le_rfl, fun k => drop_guard_le a.headerless peer k⟩
  · exact ⟨fun _ => le_rfl, fun _ => le_rfl, fun _ => le_rfl⟩

theorem Capped.move {most : Nat} (h : Capped most s) (i : Nat) (c : Connection) (phase : ConnPhase) :
    Capped most (s.move i c phase) := by
  obtain ⟨htotal, haddr, hpeer⟩ := release_le c s.admission
  exact ⟨fun k => (htotal k).trans (h.total k), fun addr => (haddr addr).trans (h.perAddress addr),
    fun peer => (hpeer peer).trans (h.headerless peer)⟩

theorem Capped.step {most : Nat} (h : Capped most s) (hmost : s.file.largestGrant ≤ most)
    (act : ListenerAct) : Capped most (s.step node act) := by
  have hstep := step_stepped node s act
  generalize s.step node act = s' at hstep
  cases hstep with
  | nothing | edited | switched | told | knocks => exact ⟨h.total, h.perAddress, h.headerless⟩
  | accepted source bind nowMs admission hfree hslot =>
    obtain ⟨htotal, haddr, rfl⟩ := acquire_slot_ok hslot
    have hsockets := htotal.trans_le (Nat.add_le_add_left hmost maxUnauthenticatedSockets)
    have hroom := haddr.trans_le (Nat.add_le_add_left hmost maxUnauthenticatedPerAddress)
    exact ⟨take_guard_le h.total hsockets, take_guard_le h.perAddress hroom, h.headerless⟩
  | ended _ i c hc => exact h.move i c .done
  | answers i message own c instanceId hc hphase hopen => exact h.move i c (.answered instanceId)
  | shakes i message own c hc hphase => exact h.move i c .shaking
  | paired i key c instanceId hc hphase hfree =>
    have hmove := h.move i c .done
    exact ⟨hmove.total, hmove.perAddress, hmove.headerless⟩
  | waits i offer nowMs c session admission hc hphase hproven hslot =>
    obtain ⟨hroom, rfl⟩ := acquire_headerless_ok hslot
    exact ⟨h.total, h.perAddress, take_guard_le h.headerless hroom⟩
  | enrols i first c session hc hphase henrol hcontrol => exact h.move i c (.enrolling session first)
  | enrolled i label nowMs c session first secret file hc hphase hsecret hfile =>
    have hmove := h.move i c (.streaming session first)
    exact ⟨hmove.total, hmove.perAddress, hmove.headerless⟩
  | opened i first c session hc hphase hpinned hgate => exact h.move i c (.streaming session first)
  | punches i peer admission hslot =>
    obtain ⟨-, rfl⟩ := acquire_punch_some hslot
    exact ⟨h.total, h.perAddress, h.headerless⟩
  | punched k peer hk => exact ⟨h.total, h.perAddress, h.headerless⟩

/-- However connections come, stall, prove themselves and end, the counters are what they hold, so
that none is lost with a refused connection; and they stay within what the operator has allowed. -/
theorem slots_are_held (node : PeerId) (file : InviteFile) (internet : Bool) (state : PeerState)
    (most : Nat) (acts : List ListenerAct)
    (hmost : EachStep (step node) (fun s _ => s.file.largestGrant ≤ most)
      (start file internet state) acts) :
    Accounted (exec (step node) (start file internet state) acts) ∧
      Capped most (exec (step node) (start file internet state) acts) := by
  have hstart : Accounted (start file internet state) ∧ Capped most (start file internet state) :=
    ⟨⟨counts_nil, counts_nil, counts_nil, counts_nil⟩,
      ⟨fun _ => Nat.zero_le _, fun _ => Nat.zero_le _, fun _ => Nat.zero_le _⟩⟩
  have hstep : ∀ s act, Accounted s ∧ Capped most s → s.file.largestGrant ≤ most →
      Accounted (s.step node act) ∧ Capped most (s.step node act) :=
    fun s act h hmost => ⟨h.1.step act, h.2.step hmost act⟩
  exact exec_invariant hstep hstart hmost acts (List.prefix_refl acts)

/-- Nobody is pinned, and three connections of one address come in. -/
def lonely : InviteFile :=
  { listen := none, peers := [], pendingInvites := [] }

def threeCalls : List ListenerAct :=
  [.accept (.v4 ⟨10, 0, 0, 1⟩) (.v4 ⟨0, 0, 0, 0⟩) 0, .accept (.v4 ⟨10, 0, 0, 1⟩) (.v4 ⟨0, 0, 0, 0⟩) 1,
    .accept (.v4 ⟨10, 0, 0, 1⟩) (.v4 ⟨0, 0, 0, 0⟩) 2]

/-- The third is refused and costs nothing. -/
theorem slots_are_held_once :
    (exec (step 0) (start lonely false {}) threeCalls).connections.length = 2 ∧
      Accounted (exec (step 0) (start lonely false {}) threeCalls) ∧
      Capped 0 (exec (step 0) (start lonely false {}) threeCalls) := by
  have hmost : EachStep (step 0) (fun s _ => s.file.largestGrant ≤ 0) (start lonely false {})
      threeCalls :=
    each_step_cons.mpr ⟨by decide +kernel, each_step_cons.mpr ⟨by decide +kernel,
      each_step_cons.mpr ⟨by decide +kernel, each_step_nil⟩⟩⟩
  exact ⟨by decide +kernel, slots_are_held 0 lonely false {} 0 threeCalls hmost⟩

end Accounted

end PeerListener

end TeamClaude
