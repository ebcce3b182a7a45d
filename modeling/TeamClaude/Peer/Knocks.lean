import TeamClaude.Peer.Bans
import Mathlib.Logic.Function.Basic

/-!
# Knocks that race for the queue

Every connection reserves a slot before its handshake and records its knock, or gives the slot back,
after it. Connections of one address share a row: the one that created it may take it away while a
sibling still counts on it.
-/

namespace TeamClaude

namespace PeerState

variable {s : PeerState} {addr other : String}

/-- The queue is within its cap and holds one row an address. -/
structure Bounded (s : PeerState) : Prop where
  within : s.pending.length ≤ maxPendingKnocks
  distinct : (s.pending.map Knock.addr).Nodup

theorem is_pending_iff : s.isPending addr = true ↔ addr ∈ s.pending.map Knock.addr := by
  simp [isPending]

theorem is_pending_append (knock : Knock) :
    ({ s with pending := s.pending ++ [knock] } : PeerState).isPending other = true ↔
      s.isPending other = true ∨ other = knock.addr := by
  simp [is_pending_iff]

/-- An address already waiting is never refused for room. -/
theorem refusal_of_pending (h : s.isPending addr = true) (nowMs : Int) (n : Nat) :
    s.refusalForKnockSource addr nowMs ≠ some (.queueFull n) := by
  unfold refusalForKnockSource
  rw [if_pos h]
  split
  · simp
  · split <;> simp

/-- An address that is not refused waits already or finds room. -/
theorem room_of_no_refusal {nowMs : Int} (h : s.refusalForKnockSource addr nowMs = none)
    (hnew : ¬ s.isPending addr = true) : s.pending.length < maxPendingKnocks := by
  unfold refusalForKnockSource at h
  rw [if_neg hnew] at h
  by_contra hfull
  rw [if_pos (not_lt.mp hfull)] at h
  split at h
  · cases h
  · split at h <;> cases h

theorem Bounded.append (h : s.Bounded) {knock : Knock} (hnew : ¬ s.isPending knock.addr = true)
    (hroom : s.pending.length < maxPendingKnocks) :
    ({ s with pending := s.pending ++ [knock] } : PeerState).Bounded := by
  refine ⟨by simpa using Nat.succ_le_of_lt hroom, ?_⟩
  rw [List.map_append, List.nodup_append]
  refine ⟨h.distinct, by simp, ?_⟩
  intro a ha b hb hab
  rw [is_pending_iff] at hnew
  have hb : b = knock.addr := by simpa using hb
  rw [hab, hb] at ha
  exact hnew ha

theorem Bounded.of_sublist (h : s.Bounded) {rows : List Knock} (hs : rows.Sublist s.pending) :
    ({ s with pending := rows } : PeerState).Bounded :=
  ⟨hs.length_le.trans h.within, h.distinct.sublist (hs.map _)⟩

/-! ## What the three calls do to the queue -/

/-- A reservation is refused, finds a row, or adds one where there is room. -/
theorem reserve_cases (s : PeerState) (addr : String) (nowMs : Int) :
    (∃ refusal, s.reserveKnockSlot addr nowMs = (.error refusal, s)) ∨
    (s.isPending addr = true ∧ s.reserveKnockSlot addr nowMs = (.ok false, s)) ∨
    (¬ s.isPending addr = true ∧ s.pending.length < maxPendingKnocks ∧
      s.reserveKnockSlot addr nowMs =
        (.ok true, { s with pending := s.pending ++ [freshKnock addr 0 none 0 none nowMs] })) := by
  unfold reserveKnockSlot
  split
  · rename_i refusal _
    exact .inl ⟨refusal, rfl⟩
  rename_i hnone
  split
  · rename_i hin
    exact .inr (.inl ⟨hin, rfl⟩)
  · rename_i hnew
    exact .inr (.inr ⟨hnew, room_of_no_refusal hnone hnew, rfl⟩)

/-- A record is refused, edits a row in place, or adds one where there is room; it is refused for
room only where the address does not wait. -/
theorem record_cases (s : PeerState) (addr : String) (instanceId : InstanceId)
    (proposedName : Option String) (wireVersion : Nat) (listenPort : Option Nat) (nowMs : Int) :
    (∃ refusal, s.recordKnock addr instanceId proposedName wireVersion listenPort nowMs =
      (.error refusal, s) ∧ (s.isPending addr = true → ∀ n, refusal ≠ .queueFull n)) ∨
    (∃ rows, s.recordKnock addr instanceId proposedName wireVersion listenPort nowMs =
      (.ok false, { s with pending := rows }) ∧
        rows.map Knock.addr = s.pending.map Knock.addr) ∨
    (¬ s.isPending addr = true ∧ s.pending.length < maxPendingKnocks ∧
      s.recordKnock addr instanceId proposedName wireVersion listenPort nowMs =
        (.ok true, { s with pending := s.pending ++
          [freshKnock addr instanceId proposedName wireVersion listenPort nowMs] })) := by
  unfold recordKnock
  split
  · rename_i refusal hsome
    refine .inl ⟨refusal, rfl, fun hin n he => ?_⟩
    exact refusal_of_pending hin nowMs n (he ▸ hsome)
  rename_i hnone
  split
  · refine .inr (.inl ⟨_, rfl, ?_⟩)
    exact Lib.map_updateFirst (p := fun knock : Knock => knock.addr = addr) (g := Knock.addr)
      (f := fun knock => { knock with
        instanceId, proposedName, wireVersion, listenPort, lastSeenMs := nowMs })
      (fun _ _ => rfl) s.pending
  rename_i hnew
  have hroom := room_of_no_refusal hnone hnew
  rw [if_neg (not_le.mpr hroom)]
  exact .inr (.inr ⟨hnew, hroom, rfl⟩)

/-- A release takes no row of another address. -/
theorem release_pending_ne (h : other ≠ addr) (reservedAtMs : Int) :
    (s.releaseKnockReservation addr reservedAtMs).isPending other = s.isPending other := by
  unfold isPending releaseKnockReservation
  rw [List.any_filter]
  congr 1
  funext knock
  by_cases ho : knock.addr = other
  · simp [isReservation, ho, h]
  · simp [ho]

/-- A release that finds no reservation of its own changes nothing. -/
theorem release_untouched {reservedAtMs : Int}
    (h : ¬ s.pending.any (isReservation addr reservedAtMs) = true) :
    s.releaseKnockReservation addr reservedAtMs = s := by
  unfold releaseKnockReservation
  rw [List.filter_eq_self.mpr]
  intro knock hin
  rw [Bool.not_eq_true, List.any_eq_false] at h
  simpa using h knock hin

end PeerState

/-! ## Connections -/

/-- Where one connection stands. A refused record is kept, with what its reservation answered. -/
inductive KnockPhase
  | idle
  | shaking (addr : String) (created : Bool) (atMs : Int)
  | refused (addr : String) (created : Bool) (atMs : Int) (refusal : KnockRefusal)
  | closed
  deriving DecidableEq

/-- The reservation the connection owns: the row its own call created. -/
def KnockPhase.owned : KnockPhase → Option (String × Int)
  | shaking addr true atMs => some (addr, atMs)
  | refused addr true atMs _ => some (addr, atMs)
  | _ => none

/-- What one connection does next. -/
inductive KnockAct
  | reserve (conn : Nat) (addr : String) (nowMs : Int)
  | record (conn : Nat) (instanceId : InstanceId) (proposedName : Option String)
      (wireVersion : Nat) (listenPort : Option Nat) (nowMs : Int)
  | fail (conn : Nat)

/-- The shared state and the connections of `serve_knock`. -/
structure Listening where
  state : PeerState
  phase : Nat → KnockPhase

namespace Listening

/-- No connection has knocked yet. -/
def start (s : PeerState) : Listening :=
  { state := s, phase := fun _ => .idle }

def step (s : Listening) : KnockAct → Listening
  | .reserve conn addr nowMs =>
    match s.phase conn with
    | .idle =>
      let reserved := s.state.reserveKnockSlot addr nowMs
      { state := reserved.2
        phase := Function.update s.phase conn <|
          match reserved.1 with
          | .ok created => .shaking addr created nowMs
          | .error _ => .closed }
    | _ => s
  | .record conn instanceId proposedName wireVersion listenPort nowMs =>
    match s.phase conn with
    | .shaking addr created atMs =>
      let recorded :=
        s.state.recordKnock addr instanceId proposedName wireVersion listenPort nowMs
      { state := recorded.2
        phase := Function.update s.phase conn <|
          match recorded.1 with
          | .ok _ => .closed
          | .error refusal => .refused addr created atMs refusal }
    | _ => s
  | .fail conn =>
    { state := match (s.phase conn).owned with
        | some (addr, atMs) => s.state.releaseKnockReservation addr atMs
        | none => s.state
      phase := Function.update s.phase conn .closed }

/-- A release that takes a row away takes it from no other connection in its handshake. -/
def Undisturbed (s : Listening) : KnockAct → Prop
  | .fail conn => ∀ addr atMs, (s.phase conn).owned = some (addr, atMs) →
      s.state.pending.any (PeerState.isReservation addr atMs) = true →
      ∀ sibling created sinceMs, sibling ≠ conn →
        s.phase sibling ≠ .shaking addr created sinceMs
  | _ => True

/-- Every connection in its handshake has a row, and none was refused for room afterwards. -/
structure Covered (s : Listening) : Prop where
  waiting : ∀ conn addr created atMs, s.phase conn = .shaking addr created atMs →
    s.state.isPending addr = true
  room : ∀ conn addr created atMs n, s.phase conn ≠ .refused addr created atMs (.queueFull n)

variable {s : Listening}

theorem covered_start (s : PeerState) : (start s).Covered :=
  ⟨nofun, nofun⟩

/-- Connections keep their rows when no row goes and the one that moved is covered. -/
theorem Covered.update (h : s.Covered) {state : PeerState} {conn : Nat} {phase : KnockPhase}
    (hkeep : ∀ other created atMs sibling, sibling ≠ conn →
      s.phase sibling = .shaking other created atMs → s.state.isPending other = true →
        state.isPending other = true)
    (hwaiting : ∀ addr created atMs, phase = .shaking addr created atMs →
      state.isPending addr = true)
    (hroom : ∀ addr created atMs n, phase ≠ .refused addr created atMs (.queueFull n)) :
    Covered { state, phase := Function.update s.phase conn phase } := by
  constructor
  · intro sibling addr created atMs hs
    by_cases hc : sibling = conn
    · subst hc
      exact hwaiting addr created atMs (by simpa using hs)
    · have hs : s.phase sibling = .shaking addr created atMs := by simpa [hc] using hs
      exact hkeep addr created atMs sibling hc hs (h.waiting sibling addr created atMs hs)
  · intro sibling addr created atMs n hs
    by_cases hc : sibling = conn
    · subst hc
      exact hroom addr created atMs n (by simpa using hs)
    · exact h.room sibling addr created atMs n (by simpa [hc] using hs)

theorem covered_reserve (h : s.Covered) (conn : Nat) (addr : String) (nowMs : Int) :
    (s.step (.reserve conn addr nowMs)).Covered := by
  simp only [step]
  split
  · rcases s.state.reserve_cases addr nowMs with ⟨refusal, hr⟩ | ⟨hin, hr⟩ | ⟨hnew, -, hr⟩
    · rw [hr]
      exact h.update (fun _ _ _ _ _ _ hp => hp) (by simp) (by simp)
    · rw [hr]
      refine h.update (fun _ _ _ _ _ _ hp => hp) ?_ (by simp)
      rintro _ _ _ hphase
      cases hphase
      exact hin
    · rw [hr]
      refine h.update (fun _ _ _ _ _ _ hp => ?_) ?_ (by simp)
      · exact (PeerState.is_pending_append _).mpr (.inl hp)
      · rintro _ _ _ hphase
        cases hphase
        exact (PeerState.is_pending_append _).mpr (.inr rfl)
  · exact h

theorem covered_record (h : s.Covered) (conn : Nat) (instanceId : InstanceId)
    (proposedName : Option String) (wireVersion : Nat) (listenPort : Option Nat) (nowMs : Int) :
    (s.step (.record conn instanceId proposedName wireVersion listenPort nowMs)).Covered := by
  simp only [step]
  split
  · rename_i addr created atMs hphase
    have hin := h.waiting conn addr created atMs hphase
    rcases s.state.record_cases addr instanceId proposedName wireVersion listenPort nowMs with
      ⟨refusal, hr, hroom⟩ | ⟨rows, hr, hrows⟩ | ⟨hnew, -, -⟩
    · rw [hr]
      refine h.update (fun _ _ _ _ _ _ hp => hp) (by simp) ?_
      rintro _ _ _ n hrefused
      cases hrefused
      exact hroom hin n rfl
    · rw [hr]
      refine h.update (fun _ _ _ _ _ _ hp => ?_) (by simp) (by simp)
      rw [PeerState.is_pending_iff] at hp ⊢
      rwa [hrows]
    · exact absurd hin hnew
  · exact h

theorem covered_fail (h : s.Covered) {conn : Nat} (hok : s.Undisturbed (.fail conn)) :
    (s.step (.fail conn)).Covered := by
  simp only [step]
  refine h.update (fun other created atMs sibling hne hsibling hp => ?_) (by simp) (by simp)
  split
  · rename_i addr sinceMs howned
    by_cases hany : s.state.pending.any (PeerState.isReservation addr sinceMs) = true
    · by_cases haddr : other = addr
      · subst haddr
        exact absurd hsibling (hok _ _ howned hany sibling created atMs hne)
      · rwa [PeerState.release_pending_ne haddr]
    · rwa [PeerState.release_untouched hany]
  · exact hp

theorem covered_step (h : s.Covered) {act : KnockAct} (hok : s.Undisturbed act) :
    (s.step act).Covered := by
  cases act with
  | reserve conn addr nowMs => exact covered_reserve h conn addr nowMs
  | record conn instanceId proposedName wireVersion listenPort nowMs =>
    exact covered_record h conn instanceId proposedName wireVersion listenPort nowMs
  | fail conn => exact covered_fail h hok

/-- Every step keeps the queue within its cap, disturbed or not. -/
theorem bounded_step (h : s.state.Bounded) (act : KnockAct) : (s.step act).state.Bounded := by
  cases act with
  | reserve conn addr nowMs =>
    simp only [step]
    split
    · rcases s.state.reserve_cases addr nowMs with ⟨refusal, hr⟩ | ⟨-, hr⟩ | ⟨hnew, hroom, hr⟩
      · rwa [hr]
      · rwa [hr]
      · rw [hr]
        exact h.append hnew hroom
    · exact h
  | record conn instanceId proposedName wireVersion listenPort nowMs =>
    simp only [step]
    split
    · rename_i addr _ _ _
      rcases s.state.record_cases addr instanceId proposedName wireVersion listenPort nowMs with
        ⟨refusal, hr, -⟩ | ⟨rows, hr, hrows⟩ | ⟨hnew, hroom, hr⟩
      · rwa [hr]
      · rw [hr]
        refine ⟨?_, hrows ▸ h.distinct⟩
        have hlen := congrArg List.length hrows
        rw [List.length_map, List.length_map] at hlen
        exact hlen.trans_le h.within
      · rw [hr]
        exact h.append hnew hroom
    · exact h
  | fail conn =>
    simp only [step]
    split
    · exact h.of_sublist List.filter_sublist
    · exact h

end Listening

/-- The queue stays within its cap with one row an address, and a connection that was told it has a
slot is not refused for room, where no release takes a row that another connection of its address
still counts on. -/
theorem admitted_knock_keeps_room (s : PeerState) (h : s.Bounded) (acts : List KnockAct) :
    (∀ pre, pre <+: acts → (Lib.exec Listening.step (.start s) pre).state.Bounded) ∧
    (Lib.EachStep Listening.step Listening.Undisturbed (.start s) acts →
      ∀ pre, pre <+: acts → ∀ conn addr created atMs n,
        (Lib.exec Listening.step (.start s) pre).phase conn ≠
          .refused addr created atMs (.queueFull n)) := by
  constructor
  · exact Lib.exec_invariant (I := fun s : Listening => s.state.Bounded) (A := fun _ _ => True)
      (fun s act hs _ => Listening.bounded_step hs act) h fun _ _ _ => trivial
  · intro hok pre hpre
    have hcovered := Lib.exec_invariant (I := Listening.Covered) (A := Listening.Undisturbed)
      (fun s act hs ha => Listening.covered_step hs ha) (Listening.covered_start s) hok pre hpre
    exact hcovered.room

/-- Two connections of one address, the second recording before the first gives up. -/
theorem sibling_recorded_first :
    (Lib.exec Listening.step (.start {}) [.reserve 0 "10.0.0.1" 5, .reserve 1 "10.0.0.1" 6,
      .record 1 9 none 1 none 7, .fail 0]).phase 1 ≠
        .refused "10.0.0.1" false 6 (.queueFull maxPendingKnocks) := by
  refine (admitted_knock_keeps_room {} ⟨by decide, by decide⟩ _).2 ?_ _ (List.prefix_refl _) _ _ _ _ _
  rw [Lib.each_step_cons, Lib.each_step_cons, Lib.each_step_cons, Lib.each_step_cons]
  refine ⟨trivial, trivial, trivial, ?_, Lib.each_step_nil⟩
  have hfree : ¬ (Lib.exec Listening.step (.start {}) [.reserve 0 "10.0.0.1" 5,
      .reserve 1 "10.0.0.1" 6, .record 1 9 none 1 none 7]).state.pending.any
        (PeerState.isReservation "10.0.0.1" 5) = true := by
    decide +kernel
  have howned : ((Lib.exec Listening.step (.start {}) [.reserve 0 "10.0.0.1" 5,
      .reserve 1 "10.0.0.1" 6, .record 1 9 none 1 none 7]).phase 0).owned =
        some ("10.0.0.1", 5) := by
    decide +kernel
  intro addr atMs hother hany
  have hown : some ("10.0.0.1", (5 : Int)) = some (addr, atMs) := howned.symm.trans hother
  cases hown
  exact absurd hany hfree

/-- The first connection of an address gives up, eight others take the room, and the second, which
had been told it has a slot, is refused. -/
theorem released_sibling_refused :
    (Lib.exec Listening.step (.start {}) [.reserve 0 "10.0.0.1" 5, .reserve 1 "10.0.0.1" 6]).phase
      1 = .shaking "10.0.0.1" false 6 ∧
    (Lib.exec Listening.step (.start {}) [.reserve 0 "10.0.0.1" 5, .reserve 1 "10.0.0.1" 6, .fail 0,
      .reserve 2 "10.0.0.2" 7, .reserve 3 "10.0.0.3" 7, .reserve 4 "10.0.0.4" 7,
      .reserve 5 "10.0.0.5" 7, .reserve 6 "10.0.0.6" 7, .reserve 7 "10.0.0.7" 7,
      .reserve 8 "10.0.0.8" 7, .reserve 9 "10.0.0.9" 7, .record 1 9 none 1 none 8]).phase 1 =
        .refused "10.0.0.1" false 6 (.queueFull maxPendingKnocks) := by
  decide +kernel

end TeamClaude
