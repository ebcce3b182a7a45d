import TeamClaude.Lib.Exec
import TeamClaude.Peer.Lend
import Mathlib.Algebra.Order.BigOperators.Group.List

/-!
# Borrowing

One request offered to a list of lenders. In serve mode the body crosses to the lender, which sends
it from its own account; in hand mode this node sends it on the bearer the lender has handed it. The
frames in flight, the lender's half of every exchange and the borrower's loop move one step at a
time, in any order.
-/

namespace TeamClaude

abbrev Body := List UInt8

def maxBodyBytes : Nat := 65519

def maxRelayedBodyBytes : Nat := 33554432

/-! ## The wire -/

/-- What crosses a SERVE stream, in either direction. -/
inductive Frame
  | header
  | request (bodyBytes : Nat)
  | ack (accepted : Bool)
  | replyRefused
  | replyServed (bodyBytes : Nat)
  | chunk (bytes : Body)
  | bodyEnd
  deriving DecidableEq

/-- `send_body`: the body in frames, and an empty frame after it. -/
def bodyFrames (body : Body) : List Frame :=
  (body.toChunks maxBodyBytes).map Frame.chunk ++ [.bodyEnd]

/-! ## The lender's half -/

/-- Where `handle_serve_on` stands. -/
inductive LenderPhase
  | awaitingHeader
  | awaitingRequest
  | receiving (promised : Nat) (got : Body)
  | holding (body : Body)
  | running
  | answering (unsent : List Frame)
  | closed
  deriving DecidableEq

/-- What the gates before the ack answer: no answer at all, a refusal, or the ack. -/
inductive Verdict
  | drop
  | refuse
  | accept
  deriving DecidableEq

inductive LenderAct
  /-- The next frame is read; the gates answer if it is the request. -/
  | reads (verdict : Verdict)
  /-- The stream ends, or a frame does not decrypt. -/
  | readFails
  /-- `serve_on_own_account` sends the request. -/
  | sends
  | answers (reply : Body)
  | writes
  /-- Any other failure: the stream is closed with no answer. -/
  | fails

/-- One SERVE stream: the frames in flight each way, where the lender stands, and what it has sent
upstream. `wroteBody` is the borrower's last body frame written whole, `refused` the lender's
`ServeReply::Refused`. -/
structure Exchange where
  lender : PeerId
  toLender : List Frame := []
  toBorrower : List Frame := []
  phase : LenderPhase := .awaitingHeader
  upstream : Option Body := none
  wroteBody : Bool := false
  refused : Bool := false
  deriving DecidableEq

namespace Exchange

/-- A body that is not the one the request promised: nothing has been sent upstream. -/
def refuseBody (e : Exchange) : Exchange :=
  { e with phase := .closed, toBorrower := e.toBorrower ++ [.replyRefused], refused := true }

/-- `handle_serve_on`, on the frame it has just read. -/
def lenderReads (e : Exchange) (verdict : Verdict) (frame : Frame) : Exchange :=
  match e.phase, frame with
  | .awaitingHeader, .header => { e with phase := .awaitingRequest }
  | .awaitingRequest, .request promised =>
    match verdict with
    | .drop => { e with phase := .closed }
    | .refuse => { e with phase := .closed, toBorrower := e.toBorrower ++ [.ack false] }
    | .accept =>
      { e with phase := .receiving promised [], toBorrower := e.toBorrower ++ [.ack true] }
  | .receiving promised got, .chunk bytes =>
    if maxRelayedBodyBytes < got.length + bytes.length then e.refuseBody
    else { e with phase := .receiving promised (got ++ bytes) }
  | .receiving promised got, .bodyEnd =>
    if got.length = promised then { e with phase := .holding got } else e.refuseBody
  | _, _ => { e with phase := .closed }

def lenderStep (e : Exchange) : LenderAct → Exchange
  | .reads verdict =>
    match e.phase, e.toLender with
    | .awaitingHeader, frame :: rest
    | .awaitingRequest, frame :: rest
    | .receiving _ _, frame :: rest => { e with toLender := rest }.lenderReads verdict frame
    | _, _ => e
  | .readFails =>
    match e.phase with
    | .awaitingHeader | .awaitingRequest => { e with phase := .closed }
    | .receiving _ _ => e.refuseBody
    | _ => e
  | .sends =>
    match e.phase with
    | .holding body => { e with phase := .running, upstream := some body }
    | _ => e
  | .answers reply =>
    match e.phase with
    | .running => { e with phase := .answering (.replyServed reply.length :: bodyFrames reply) }
    | _ => e
  | .writes =>
    match e.phase with
    | .answering (frame :: unsent) =>
      { e with phase := .answering unsent, toBorrower := e.toBorrower ++ [frame] }
    | _ => e
  | .fails => { e with phase := .closed }

end Exchange

/-! ## The borrower's half -/

/-- What `try_serve` answers, or that its client has gone. -/
inductive BorrowOutcome
  | served (lender : PeerId)
  | deliveredUnknown
  | notServed
  | cancelled
  deriving DecidableEq

/-- Where `try_serve` stands, `borrow_once` and the hand-mode send included. -/
inductive BorrowPhase
  /-- About to ask for the lease of the next lender. -/
  | asking
  | opening (unsent : List Frame)
  | awaitingAck
  | sending (unsent : List Frame)
  | awaitingReply
  | receiving (promised : Nat) (got : Body)
  /-- A hand-mode request is dialling. `left`: it has been sent and redirected before. -/
  | connecting (lender : PeerId) (left : Bool)
  /-- A hand-mode request has been sent. -/
  | exchanging (lender : PeerId)
  | done (outcome : BorrowOutcome)
  deriving DecidableEq

inductive BorrowerAct
  /-- `lease_for`: no lease, or one with or without a handed bearer. -/
  | lease (handed : Option Bool)
  /-- The next frame is written whole. -/
  | writes
  | reads
  /-- No way to the lender, a stream that fails, a frame that does not decode, or the deadline. -/
  | fails
  | noBearer
  | connects
  /-- A connect or resolver failure: `nothing_left_this_mac`. -/
  | connectFails
  | redirected
  | answered
  /-- Any other error of the hand-mode send. -/
  | breaks
  | cancelled

/-- One ask, the lenders not asked yet, and every exchange opened so far, the newest first. -/
structure Borrow where
  body : Body
  remaining : List PeerId
  phase : BorrowPhase := .asking
  /-- The flag that `open_serve_within` reads. -/
  delivered : Bool := false
  exchanges : List Exchange := []
  /-- The lenders on whose bearer this node has sent the body. -/
  handSends : List PeerId := []

inductive BorrowAct
  | borrower (act : BorrowerAct)
  | lender (nth : Nat) (act : LenderAct)

namespace Borrow

def start (body : Body) (lenders : List PeerId) : Borrow :=
  { body, remaining := lenders }

/-- The next lender may be asked. -/
def next (s : Borrow) : Borrow :=
  { s with phase := .asking, delivered := false }

def finish (s : Borrow) (outcome : BorrowOutcome) : Borrow :=
  { s with phase := .done outcome }

/-- `open_serve_within` on an error or the deadline: whether the body has crossed decides. -/
def giveUp (s : Borrow) : Borrow :=
  if s.delivered then s.finish .deliveredUnknown else s.next

def onStream (s : Borrow) (f : Exchange → Exchange) : Borrow :=
  match s.exchanges with
  | [] => s
  | e :: es => { s with exchanges := f e :: es }

def write (s : Borrow) (frame : Frame) : Borrow :=
  s.onStream fun e =>
    { e with toLender := e.toLender ++ [frame], wroteBody := e.wroteBody || frame = .bodyEnd }

/-- `borrow_once`, on the frame it has just read. -/
def borrowerReads (s : Borrow) (lender : PeerId) (frame : Frame) : Borrow :=
  match s.phase, frame with
  | .awaitingAck, .ack true => { s with phase := .sending (bodyFrames s.body) }
  | .awaitingAck, _ => s.next
  | .awaitingReply, .replyRefused => s.next
  | .awaitingReply, .replyServed promised => { s with phase := .receiving promised [] }
  | .receiving promised got, .chunk bytes =>
    if maxRelayedBodyBytes < got.length + bytes.length then s.giveUp
    else { s with phase := .receiving promised (got ++ bytes) }
  | .receiving promised got, .bodyEnd =>
    if got.length = promised then s.finish (.served lender) else s.giveUp
  | _, _ => s.giveUp

def borrowerStep (s : Borrow) : BorrowerAct → Borrow
  | .lease handed =>
    match s.phase, s.remaining with
    | .asking, [] => s.finish .notServed
    | .asking, lender :: rest =>
      let s := { s with remaining := rest }
      match handed with
      | none => s
      | some true => { s with phase := .connecting lender false }
      | some false =>
        { s with
          phase := .opening [.header, .request s.body.length]
          exchanges := { lender } :: s.exchanges }
    | _, _ => s
  | .writes =>
    match s.phase with
    | .opening (frame :: unsent) =>
      { s.write frame with phase := if unsent = [] then .awaitingAck else .opening unsent }
    | .sending (frame :: unsent) =>
      -- `delivered` is stored once the last frame has been written
      { s.write frame with
        phase := if unsent = [] then .awaitingReply else .sending unsent
        delivered := decide (unsent = []) }
    | _ => s
  | .reads =>
    match s.phase, s.exchanges with
    | .awaitingAck, { toBorrower := frame :: rest, lender, .. } :: _
    | .awaitingReply, { toBorrower := frame :: rest, lender, .. } :: _
    | .receiving _ _, { toBorrower := frame :: rest, lender, .. } :: _ =>
      (s.onStream fun e => { e with toBorrower := rest }).borrowerReads lender frame
    | _, _ => s
  | .fails =>
    match s.phase with
    | .opening _ | .awaitingAck | .sending _ | .awaitingReply | .receiving _ _ => s.giveUp
    | _ => s
  | .noBearer =>
    match s.phase with
    | .connecting _ false => s.next
    | _ => s
  | .connects =>
    match s.phase with
    | .connecting lender left =>
      { s with
        phase := .exchanging lender
        handSends := if left then s.handSends else lender :: s.handSends }
    | _ => s
  | .connectFails =>
    match s.phase with
    | .connecting _ _ => s.next
    | _ => s
  | .redirected =>
    match s.phase with
    | .exchanging lender => { s with phase := .connecting lender true }
    | _ => s
  | .answered =>
    match s.phase with
    | .exchanging lender => s.finish (.served lender)
    | _ => s
  | .breaks =>
    match s.phase with
    | .connecting _ _ | .exchanging _ => s.finish .deliveredUnknown
    | _ => s
  | .cancelled =>
    match s.phase with
    | .done _ => s
    | _ => s.finish .cancelled

def step (s : Borrow) : BorrowAct → Borrow
  | .borrower act => s.borrowerStep act
  | .lender nth act => { s with exchanges := s.exchanges.modify nth fun e => e.lenderStep act }

end Borrow

end TeamClaude
