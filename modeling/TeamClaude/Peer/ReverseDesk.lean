import TeamClaude.Lib.Exec
import TeamClaude.Machine
import TeamClaude.Peer.Tunnel
import Mathlib.Logic.Function.Basic

/-!
# The desk of parked carriers

A Mac that cannot be dialled parks streams at a friend, which forwards ride back out over. The desk
keeps a queue for each peer, hands its oldest stream out, and drops what was parked too long ago when
it looks at the queue.
-/

namespace TeamClaude

open Lib

def reverseParkTtlMs : Int := 5 * 60 * 1000

structure ParkedCarry (T : Type*) where
  stream : T
  parkedAtMs : Int
  deriving DecidableEq

/-- `ParkOutcome`, without the refusal of a peer that is not pinned. -/
inductive ParkOutcome
  | parked (opened : Nat)
  | deskFull (opened : Nat)
  deriving DecidableEq

/-- `ReverseDesk`: a peer without a queue has an empty one. -/
structure ReverseDesk (T : Type*) where
  queues : PeerId → List (ParkedCarry T)

inductive DeskAct (T : Type*)
  | park (peer : PeerId) (stream : T) (nowMs : Int)
  | take (peer : PeerId) (nowMs : Int)
  | openFor (peer : PeerId) (nowMs : Int)
  | prune (nowMs : Int)

namespace ReverseDesk

variable {T : Type*}

def new : ReverseDesk T :=
  { queues := fun _ => [] }

def isExpired (nowMs : Int) (carry : ParkedCarry T) : Bool :=
  decide (reverseParkTtlMs ≤ saturatingSub nowMs carry.parkedAtMs)

/-- `drop_expired`: it stops at the first carry that is not. -/
def dropExpired (queue : List (ParkedCarry T)) (nowMs : Int) : List (ParkedCarry T) :=
  queue.dropWhile (isExpired nowMs)

def park (desk : ReverseDesk T) (peer : PeerId) (stream : T) (nowMs : Int) :
    ParkOutcome × ReverseDesk T :=
  let queue := dropExpired (desk.queues peer) nowMs
  if maxOpenCarriesPerPeer ≤ queue.length then
    (.deskFull queue.length, { queues := Function.update desk.queues peer queue })
  else
    (.parked (queue.length + 1),
      { queues := Function.update desk.queues peer (queue ++ [{ stream, parkedAtMs := nowMs }]) })

def take (desk : ReverseDesk T) (peer : PeerId) (nowMs : Int) :
    Option (ParkedCarry T) × ReverseDesk T :=
  match dropExpired (desk.queues peer) nowMs with
  | [] => (none, { queues := Function.update desk.queues peer [] })
  | carry :: queue => (some carry, { queues := Function.update desk.queues peer queue })

def openFor (desk : ReverseDesk T) (peer : PeerId) (nowMs : Int) : Nat × ReverseDesk T :=
  let queue := dropExpired (desk.queues peer) nowMs
  (queue.length, { queues := Function.update desk.queues peer queue })

def prune (desk : ReverseDesk T) (nowMs : Int) : ReverseDesk T :=
  { queues := fun peer => dropExpired (desk.queues peer) nowMs }

def step (desk : ReverseDesk T) : DeskAct T → ReverseDesk T
  | .park peer stream nowMs => (desk.park peer stream nowMs).2
  | .take peer nowMs => (desk.take peer nowMs).2
  | .openFor peer nowMs => (desk.openFor peer nowMs).2
  | .prune nowMs => desk.prune nowMs

def parks (peer : PeerId) (desk : ReverseDesk T) : DeskAct T → Option (ParkedCarry T)
  | .park other stream nowMs =>
    match (desk.park other stream nowMs).1 with
    | .parked _ => if other = peer then some { stream, parkedAtMs := nowMs } else none
    | .deskFull _ => none
  | _ => none

def takes (peer : PeerId) (desk : ReverseDesk T) : DeskAct T → Option (ParkedCarry T × Int)
  | .take other nowMs =>
    if other = peer then (desk.take other nowMs).1.map fun carry => (carry, nowMs) else none
  | _ => none

/-! ## One step -/

variable {desk : ReverseDesk T} {peer : PeerId}

theorem drop_expired_sublist (queue : List (ParkedCarry T)) (nowMs : Int) :
    (dropExpired queue nowMs).Sublist queue :=
  List.dropWhile_sublist _

theorem front_in_time {queue rest : List (ParkedCarry T)} {carry : ParkedCarry T} {nowMs : Int}
    (h : dropExpired queue nowMs = carry :: rest) :
    saturatingSub nowMs carry.parkedAtMs < reverseParkTtlMs := by
  have hhead := List.head?_dropWhile_not (isExpired nowMs) queue
  rw [← dropExpired, h] at hhead
  simpa [isExpired] using hhead

/-- What a step hands out for a peer, with what it leaves in the queue, is what was queued or is
parked by it, in that order. -/
theorem step_hands_out (peer : PeerId) (desk : ReverseDesk T) (act : DeskAct T) :
    ((desk.takes peer act).toList.map Prod.fst ++ (desk.step act).queues peer).Sublist
      (desk.queues peer ++ (desk.parks peer act).toList) := by
  cases act with
  | park other stream nowMs =>
    have hkept := drop_expired_sublist (desk.queues peer) nowMs
    simp only [takes, parks, step, park]
    by_cases heq : other = peer
    · subst heq
      split
      · simpa using hkept
      · simpa using hkept
    · split
      · simp [Ne.symm heq]
      · simp [Ne.symm heq]
  | take other nowMs =>
    have hkept := drop_expired_sublist (desk.queues peer) nowMs
    simp only [takes, parks, step, take]
    by_cases heq : other = peer
    · subst heq
      rw [if_pos rfl]
      cases hqueue : dropExpired (desk.queues other) nowMs with
      | nil => simp
      | cons carry rest =>
        rw [hqueue] at hkept
        simpa using hkept
    · rw [if_neg heq]
      cases dropExpired (desk.queues other) nowMs <;> simp [Ne.symm heq]
  | openFor other nowMs =>
    have hkept := drop_expired_sublist (desk.queues peer) nowMs
    simp only [takes, parks, step, openFor]
    by_cases heq : other = peer
    · subst heq
      simpa using hkept
    · simp [Ne.symm heq]
  | prune nowMs => simpa [takes, parks, step, prune] using drop_expired_sublist (desk.queues peer) nowMs

theorem take_in_time {act : DeskAct T} {carry : ParkedCarry T} {nowMs : Int}
    (h : desk.takes peer act = some (carry, nowMs)) :
    saturatingSub nowMs carry.parkedAtMs < reverseParkTtlMs := by
  cases act with
  | take other atMs =>
    simp only [takes, take] at h
    split at h
    · cases hqueue : dropExpired (desk.queues other) atMs with
      | nil =>
        rw [hqueue] at h
        cases h
      | cons first rest =>
        rw [hqueue] at h
        cases h
        exact front_in_time hqueue
    · cases h
  | _ => cases h

/-- No peer holds more carriers than it may have open. -/
def Bounded (desk : ReverseDesk T) : Prop :=
  ∀ peer, (desk.queues peer).length ≤ maxOpenCarriesPerPeer

theorem bounded_update {queue : List (ParkedCarry T)} (h : desk.Bounded)
    (hqueue : queue.length ≤ maxOpenCarriesPerPeer) :
    Bounded { queues := Function.update desk.queues peer queue } := by
  intro other
  by_cases heq : other = peer
  · subst heq
    simpa using hqueue
  · simpa [heq] using h other

theorem bounded_step (h : desk.Bounded) (act : DeskAct T) : (desk.step act).Bounded := by
  have hkept (peer : PeerId) (nowMs : Int) :
      (dropExpired (desk.queues peer) nowMs).length ≤ maxOpenCarriesPerPeer :=
    (drop_expired_sublist _ _).length_le.trans (h peer)
  cases act with
  | park peer stream nowMs =>
    simp only [step, park]
    split
    · exact bounded_update h (hkept peer nowMs)
    · rename_i hroom
      refine bounded_update h ?_
      rw [List.length_append, List.length_singleton]
      omega
  | take peer nowMs =>
    have hlen := hkept peer nowMs
    simp only [step, take]
    cases hqueue : dropExpired (desk.queues peer) nowMs with
    | nil => exact bounded_update h (Nat.zero_le _)
    | cons carry rest =>
      rw [hqueue, List.length_cons] at hlen
      exact bounded_update h (by omega)
  | openFor peer nowMs => exact bounded_update h (hkept peer nowMs)
  | prune nowMs => exact fun peer => hkept peer nowMs

/-! ## Runs -/

/-- Over any run, whatever the clock does, the carriers handed out for a peer are carriers parked for
that very peer, each handed out once and in the order they were parked; none was parked longer ago
than a carrier may be, and no more are held than the peer may have open. -/
theorem desk_hands_out (peer : PeerId) (acts : List (DeskAct T)) :
    ((observed step (takes peer) new acts).map Prod.fst).Sublist
        (observed step (parks peer) new acts) ∧
      (∀ taken ∈ observed step (takes peer) new acts,
        saturatingSub taken.2 taken.1.parkedAtMs < reverseParkTtlMs) ∧
      ((exec step (new : ReverseDesk T) acts).queues peer).length ≤ maxOpenCarriesPerPeer := by
  refine ⟨?_, observed_forall (fun _ _ _ h => take_in_time h) new acts, ?_⟩
  · have hrun := observed_sublist (fun desk : ReverseDesk T => desk.queues peer) Prod.fst
      (step_hands_out peer) new acts
    exact (List.sublist_append_left _ _).trans (by simpa [new] using hrun)
  · have hnew : (new : ReverseDesk T).Bounded := fun _ => Nat.zero_le _
    have hbounded := exec_invariant (I := Bounded (T := T)) (A := fun _ _ => True)
      (fun _ act h _ => bounded_step h act) hnew (fun _ _ _ => trivial) acts (List.prefix_refl acts)
    exact hbounded peer

/-- The older carrier goes out first, and one parked too long ago goes to nobody. -/
example : observed step (takes 1) (new : ReverseDesk Nat)
    [.park 1 7 0, .park 1 8 10, .take 1 20, .park 2 9 30, .take 1 300010] =
    [({ stream := 7, parkedAtMs := 0 }, 20)] := by decide

end ReverseDesk

end TeamClaude
