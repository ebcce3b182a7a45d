import TeamClaude.Usage.Ledger

/-!
# The ledger's writer thread

Requests queue their lines and never wait; one thread writes them. A line the queue has no room for is
counted and raises a flag, which only the writer lowers, once a write has found the count unmoved. A
flush waits for its own message to come back, and the shutdown for the thread to end.
-/

namespace TeamClaude

open Lib

def ledgerQueueDepth : Nat := 4096

inductive LedgerMsg
  | line (line : LedgerLine)
  | flush (call : Nat)
  deriving DecidableEq

def queuedLines (messages : List LedgerMsg) : List LedgerLine :=
  messages.filterMap fun
    | .line line => some line
    | .flush _ => none

/-- Where one call of `record` stands: it looks whether a ledger is attached, sends, and counts and
reports the line if there was no room for it. -/
inductive RecordCall
  | idle
  | looked (line : LedgerLine)
  | refused
  | counted (number : Nat)
  | returned
  deriving DecidableEq

/-- Where one call of `flush_via` stands; it holds a sender of its own while it is `cloned`. -/
inductive FlushCall
  | idle
  | cloned
  | waiting
  | returned (flushed : Bool)
  deriving DecidableEq

/-- Where the writer thread stands: `appended` to `restoring` are the steps of
`note_drop_episode`. -/
inductive WriterPhase
  | idle
  | writing (line : LedgerLine)
  | appended
  | loaded (dropped : Nat)
  | lowered (dropped : Nat)
  | restoring
  | ended
  | panicked
  deriving DecidableEq

inductive LedgerShutdown
  | notAttached
  | flushed
  | abandoned
  deriving DecidableEq

/-- Where `shutdown_ledger` stands. -/
inductive ShutdownPhase
  | idle
  | detached
  | taken
  | joining
  | returned (outcome : LedgerShutdown)
  deriving DecidableEq

/-- The tracker's half and the writer's. `sent` is every line the queue took, `handled` every line the
writer came to, with whether its write went through, and `raised` the highest drop that was reported;
nothing in the program reads these three. -/
structure LedgerWriter where
  depth : Nat
  attached : Bool := true
  handle : Bool := true
  healthy : Bool := true
  dropping : Bool := false
  dropped : Nat := 0
  queue : List LedgerMsg := []
  senders : Nat := 1
  records : Nat → RecordCall := fun _ => .idle
  flushes : Nat → FlushCall := fun _ => .idle
  writer : WriterPhase := .idle
  dropsSeen : Nat := 0
  shutdown : ShutdownPhase := .idle
  sent : List LedgerLine := []
  handled : List (LedgerLine × Bool) := []
  raised : Nat := 0

/-- One step of a request, of a flush, of the writer thread or of the shutdown. -/
inductive LedgerAct
  | look (call : Nat) (line : LedgerLine)
  | send (call : Nat)
  | count (call : Nat)
  | raise (call : Nat)
  | clone (call : Nat)
  | mark (call : Nat)
  | giveUp (call : Nat)
  | receive
  | write (ok : Bool)
  | load
  | lower
  | reread
  | restore
  | panic
  | detach
  | take
  | drop
  | join (timedOut : Bool)
  deriving DecidableEq

namespace LedgerWriter

/-- `attach_ledger`, with a channel of this depth; the program's is `ledgerQueueDepth`. -/
def new (depth : Nat) : LedgerWriter :=
  { depth }

/-- The receiver is alive. -/
def Listening (s : LedgerWriter) : Prop :=
  s.writer ≠ .ended ∧ s.writer ≠ .panicked

instance (s : LedgerWriter) : Decidable s.Listening :=
  inferInstanceAs (Decidable (_ ∧ _))

/-- `try_send` finds room and a receiver. -/
def HasRoom (s : LedgerWriter) : Prop :=
  s.Listening ∧ s.queue.length < s.depth

instance (s : LedgerWriter) : Decidable s.HasRoom :=
  inferInstanceAs (Decidable (_ ∧ _))

def setRecord (s : LedgerWriter) (call : Nat) (phase : RecordCall) : LedgerWriter :=
  { s with records := Function.update s.records call phase }

def setFlush (s : LedgerWriter) (call : Nat) (phase : FlushCall) : LedgerWriter :=
  { s with flushes := Function.update s.flushes call phase }

/-- The first load of `record`. -/
def look (s : LedgerWriter) (call : Nat) (line : LedgerLine) : LedgerWriter :=
  match s.records call with
  | .idle => s.setRecord call (if s.attached then .looked line else .returned)
  | _ => s

/-- The send of `queue`, under the read lock; a tracker whose handle is gone sends nothing. -/
def send (s : LedgerWriter) (call : Nat) : LedgerWriter :=
  match s.records call with
  | .looked line =>
    if s.handle then
      if s.HasRoom then
        { s with
          queue := s.queue ++ [LedgerMsg.line line]
          sent := s.sent ++ [line] }.setRecord call .returned
      else s.setRecord call .refused
    else s.setRecord call .returned
  | _ => s

def count (s : LedgerWriter) (call : Nat) : LedgerWriter :=
  match s.records call with
  | .refused => { s with dropped := s.dropped + 1 }.setRecord call (.counted (s.dropped + 1))
  | _ => s

def raise (s : LedgerWriter) (call : Nat) : LedgerWriter :=
  match s.records call with
  | .counted number =>
    { s with dropping := true, raised := max s.raised number }.setRecord call .returned
  | _ => s

/-- A flush clones the sender under the read lock; the shutdown's own flush clones the handle it
took. -/
def clone (s : LedgerWriter) (call : Nat) : LedgerWriter :=
  match s.flushes call with
  | .idle =>
    if s.handle ∨ s.shutdown = .taken then
      { s with senders := s.senders + 1 }.setFlush call .cloned
    else s.setFlush call (.returned false)
  | _ => s

/-- One `try_send` of the flush's message; on a full queue it tries again. -/
def mark (s : LedgerWriter) (call : Nat) : LedgerWriter :=
  match s.flushes call with
  | .cloned =>
    if s.HasRoom then
      { s with
        queue := s.queue ++ [LedgerMsg.flush call]
        senders := s.senders - 1 }.setFlush call .waiting
    else if s.Listening then s
    else { s with senders := s.senders - 1 }.setFlush call (.returned false)
  | _ => s

/-- The deadline passes. -/
def giveUp (s : LedgerWriter) (call : Nat) : LedgerWriter :=
  match s.flushes call with
  | .cloned => { s with senders := s.senders - 1 }.setFlush call (.returned false)
  | .waiting => s.setFlush call (.returned false)
  | _ => s

/-- `recv`, and the answer to a flush: the writer ends where the queue is empty and no sender is
left. -/
def receive (s : LedgerWriter) : LedgerWriter :=
  match s.writer, s.queue with
  | .idle, .line line :: queue => { s with queue, writer := .writing line }
  | .idle, .flush call :: queue =>
    match s.flushes call with
    | .waiting => { s with queue }.setFlush call (.returned true)
    | _ => { s with queue }
  | .idle, [] => if s.senders = 0 then { s with writer := .ended } else s
  | _, _ => s

/-- `append`: the write and the health it leaves. -/
def write (s : LedgerWriter) (ok : Bool) : LedgerWriter :=
  match s.writer with
  | .writing line =>
    { s with
      handled := s.handled ++ [(line, ok)]
      healthy := ok
      writer := if ok then .appended else .idle }
  | _ => s

/-- The first load of `note_drop_episode`. -/
def load (s : LedgerWriter) : LedgerWriter :=
  match s.writer with
  | .appended =>
    if s.dropped ≠ s.dropsSeen then { s with dropsSeen := s.dropped, writer := .idle }
    else { s with writer := .loaded s.dropped }
  | _ => s

/-- Its swap. -/
def lower (s : LedgerWriter) : LedgerWriter :=
  match s.writer with
  | .loaded dropped =>
    { s with dropping := false, writer := if s.dropping then .lowered dropped else .idle }
  | _ => s

/-- Its second load. -/
def reread (s : LedgerWriter) : LedgerWriter :=
  match s.writer with
  | .lowered dropped => { s with writer := if s.dropped ≠ dropped then .restoring else .idle }
  | _ => s

def restore (s : LedgerWriter) : LedgerWriter :=
  match s.writer with
  | .restoring => { s with dropping := true, writer := .idle }
  | _ => s

/-- The thread dies with its receiver; what it held and what is queued goes with it. The loads and
stores of its report cannot panic. -/
def panic (s : LedgerWriter) : LedgerWriter :=
  match s.writer with
  | .idle => { s with writer := .panicked }
  | .writing _ => { s with writer := .panicked }
  | _ => s

def detach (s : LedgerWriter) : LedgerWriter :=
  match s.shutdown with
  | .idle => { s with attached := false, shutdown := .detached }
  | _ => s

/-- The handle is taken under the write lock. Here it may also be taken between a send and its report,
which the lock rules out. -/
def take (s : LedgerWriter) : LedgerWriter :=
  match s.shutdown with
  | .detached =>
    if s.handle then { s with handle := false, shutdown := .taken }
    else { s with shutdown := .returned .notAttached }
  | _ => s

def drop (s : LedgerWriter) : LedgerWriter :=
  match s.shutdown with
  | .taken => { s with senders := s.senders - 1, shutdown := .joining }
  | _ => s

/-- One look at the thread. -/
def join (s : LedgerWriter) (timedOut : Bool) : LedgerWriter :=
  match s.shutdown with
  | .joining =>
    if s.writer = .ended then { s with shutdown := .returned .flushed }
    else if s.writer = .panicked ∨ timedOut then { s with shutdown := .returned .abandoned }
    else s
  | _ => s

def step (s : LedgerWriter) : LedgerAct → LedgerWriter
  | .look call line => s.look call line
  | .send call => s.send call
  | .count call => s.count call
  | .raise call => s.raise call
  | .clone call => s.clone call
  | .mark call => s.mark call
  | .giveUp call => s.giveUp call
  | .receive => s.receive
  | .write ok => s.write ok
  | .load => s.load
  | .lower => s.lower
  | .reread => s.reread
  | .restore => s.restore
  | .panic => s.panic
  | .detach => s.detach
  | .take => s.take
  | .drop => s.drop
  | .join timedOut => s.join timedOut

def isPersisting (s : LedgerWriter) : Bool :=
  s.attached && s.healthy && !s.dropping

def inHand (s : LedgerWriter) : List LedgerLine :=
  match s.writer with
  | .writing line => [line]
  | _ => []

/-- The lines the writer is through with. -/
def done (s : LedgerWriter) : List LedgerLine :=
  s.handled.map Prod.fst

/-! ## What every run keeps -/

variable {s s' : LedgerWriter} {call : Nat} {before : List LedgerLine}

/-- What is done was sent first, and while the thread lives the rest is in hand or queued, in
order. -/
structure InOrder (s : LedgerWriter) : Prop where
  first : s.done <+: s.sent
  order : s.writer ≠ .panicked → s.sent = s.done ++ s.inHand ++ queuedLines s.queue
  ended : s.writer = .ended → s.queue = []
  joined : s.shutdown = .returned .flushed → s.writer = .ended

/-- A flush with its message in the queue has sent it. -/
def Sent (s : LedgerWriter) : Prop :=
  ∀ call, .flush call ∈ s.queue → s.flushes call ≠ .idle ∧ s.flushes call ≠ .cloned

/-- What a flush that began behind these lines has to expect. -/
structure Promised (before : List LedgerLine) (call : Nat) (s : LedgerWriter) : Prop where
  began : before <+: s.sent
  queued : ∀ front, front ++ [.flush call] <+: s.queue → s.writer ≠ .panicked →
    before <+: s.done ++ s.inHand ++ queuedLines front
  flushed : s.flushes call = .returned true → before <+: s.done

/-- A step that moves no message. -/
structure Still (s s' : LedgerWriter) : Prop where
  sent : s'.sent = s.sent
  done : s'.done = s.done
  inHand : s'.inHand = s.inHand
  queue : s'.queue = s.queue
  panicked : s'.writer ≠ .panicked → s.writer ≠ .panicked
  ended : s'.writer = .ended ↔ s.writer = .ended

theorem Still.refl (s : LedgerWriter) : Still s s :=
  ⟨rfl, rfl, rfl, rfl, id, Iff.rfl⟩

theorem Still.in_order (still : Still s s') (hs : InOrder s) (hshutdown : s'.shutdown = s.shutdown) :
    InOrder s' where
  first := by
    rw [still.done, still.sent]
    exact hs.first
  order hlive := by
    rw [still.sent, still.done, still.inHand, still.queue]
    exact hs.order (still.panicked hlive)
  ended hended := by
    rw [still.queue]
    exact hs.ended (still.ended.mp hended)
  joined hjoined := still.ended.mpr (hs.joined (hshutdown ▸ hjoined))

theorem Still.promised (still : Still s s') (hp : Promised before call s)
    (hflush : s'.flushes call = s.flushes call) : Promised before call s' where
  began := by
    rw [still.sent]
    exact hp.began
  queued front hfront hlive := by
    rw [still.done, still.inHand]
    exact hp.queued front (still.queue ▸ hfront) (still.panicked hlive)
  flushed hflushed := by
    rw [still.done]
    exact hp.flushed (hflush ▸ hflushed)

/-! ## The steps that move no message -/

/-- Nor does it touch the shutdown or a flush. -/
def Keeps (s s' : LedgerWriter) : Prop :=
  Still s s' ∧ s'.shutdown = s.shutdown ∧ s'.flushes = s.flushes

theorem Keeps.refl (s : LedgerWriter) : Keeps s s :=
  ⟨.refl s, rfl, rfl⟩

theorem keeps_writer {dropping : Bool} {dropsSeen : Nat} {writer : WriterPhase}
    (hold : s.inHand = [] ∧ s.Listening)
    (hnew : ∀ line, writer ≠ .writing line) (hended : writer ≠ .ended) :
    Keeps s { s with dropping, dropsSeen, writer } := by
  obtain ⟨hhand, hlive⟩ := hold
  refine ⟨⟨rfl, rfl, ?_, rfl, fun _ => hlive.2, ?_⟩, rfl, rfl⟩
  · rw [hhand]
    unfold inHand
    split
    · rename_i line hline
      exact absurd hline (hnew line)
    · rfl
  · exact ⟨fun h => absurd h hended, fun h => absurd h hlive.1⟩

/-- The steps of `record` but its send, of the writer's report and of the shutdown. -/
def Quiet : LedgerAct → Prop
  | .look _ _ | .count _ | .raise _ | .load | .lower | .reread | .restore => True
  | _ => False

theorem quiet_keeps (s : LedgerWriter) (act : LedgerAct) (hquiet : Quiet act) :
    Keeps s (s.step act) := by
  cases act with
  | look call line =>
    show Keeps s (s.look call line)
    unfold look
    split <;> exact ⟨⟨rfl, rfl, rfl, rfl, id, Iff.rfl⟩, rfl, rfl⟩
  | count call =>
    show Keeps s (s.count call)
    unfold count
    split <;> exact ⟨⟨rfl, rfl, rfl, rfl, id, Iff.rfl⟩, rfl, rfl⟩
  | raise call =>
    show Keeps s (s.raise call)
    unfold raise
    split <;> exact ⟨⟨rfl, rfl, rfl, rfl, id, Iff.rfl⟩, rfl, rfl⟩
  | load =>
    show Keeps s s.load
    unfold load
    split
    · rename_i hwriter
      have hold : s.inHand = [] ∧ s.Listening := by simp [inHand, Listening, hwriter]
      split
      · exact keeps_writer hold nofun nofun
      · exact keeps_writer hold nofun nofun
    · exact .refl s
  | lower =>
    show Keeps s s.lower
    unfold lower
    split
    · rename_i dropped hwriter
      have hold : s.inHand = [] ∧ s.Listening := by simp [inHand, Listening, hwriter]
      cases hdropping : s.dropping
      · exact keeps_writer hold nofun nofun
      · exact keeps_writer hold nofun nofun
    · exact .refl s
  | reread =>
    show Keeps s s.reread
    unfold reread
    split
    · rename_i dropped hwriter
      have hold : s.inHand = [] ∧ s.Listening := by simp [inHand, Listening, hwriter]
      split
      · exact keeps_writer hold nofun nofun
      · exact keeps_writer hold nofun nofun
    · exact .refl s
  | restore =>
    show Keeps s s.restore
    unfold restore
    split
    · rename_i hwriter
      exact keeps_writer (by simp [inHand, Listening, hwriter]) nofun nofun
    · exact .refl s
  | _ => exact hquiet.elim

/-! ## The steps that move one -/

@[simp] theorem queued_lines_append (front back : List LedgerMsg) :
    queuedLines (front ++ back) = queuedLines front ++ queuedLines back :=
  List.filterMap_append

theorem in_hand_idle (h : s.writer = .idle) : s.inHand = [] := by
  rw [inHand, h]

theorem receive_cases (s : LedgerWriter) : s.receive = s ∨
    (∃ line queue, s.writer = .idle ∧ s.queue = .line line :: queue ∧
      s.receive = { s with queue, writer := .writing line }) ∨
    (∃ call queue, s.writer = .idle ∧ s.queue = .flush call :: queue ∧
      (s.receive = { s with queue } ∨ s.receive = { s with queue }.setFlush call (.returned true))) ∨
    (s.writer = .idle ∧ s.queue = [] ∧ s.receive = { s with writer := .ended }) := by
  unfold receive
  split
  · rename_i line queue hwriter hqueue
    exact .inr (.inl ⟨line, queue, hwriter, hqueue, rfl⟩)
  · rename_i call queue hwriter hqueue
    refine .inr (.inr (.inl ⟨call, queue, hwriter, hqueue, ?_⟩))
    split
    · exact .inr rfl
    · exact .inl rfl
  · rename_i hwriter hqueue
    split
    · exact .inr (.inr (.inr ⟨hwriter, hqueue, rfl⟩))
    · exact .inl rfl
  · exact .inl rfl

/-- A step of a flush that leaves the lines and the queue alone. -/
theorem Promised.set_flush {other : Nat} {phase : FlushCall} (hp : Promised before call s)
    (hflushed : other = call → phase = .returned true → before <+: s.done) :
    Promised before call (s.setFlush other phase) := by
  by_cases heq : call = other
  · subst heq
    have hphase : (s.setFlush call phase).flushes call = phase := Function.update_self ..
    exact ⟨hp.began, hp.queued, fun h => hflushed rfl (hphase ▸ h)⟩
  · have hphase : (s.setFlush other phase).flushes call = s.flushes call :=
      Function.update_of_ne heq ..
    exact ⟨hp.began, hp.queued, fun h => hp.flushed (hphase ▸ h)⟩

theorem InOrder.receive (hs : InOrder s) : InOrder s.receive := by
  rcases receive_cases s with hsame | ⟨line, queue, hwriter, hqueue, hnext⟩ |
    ⟨other, queue, hwriter, hqueue, hnext⟩ | ⟨hwriter, hqueue, hnext⟩
  · rw [hsame]
    exact hs
  · rw [hnext]
    refine ⟨hs.first, fun _ => ?_, nofun, fun hjoined => ?_⟩
    · have horder := hs.order (by rw [hwriter]; nofun)
      rw [in_hand_idle hwriter, hqueue, List.append_nil] at horder
      show s.sent = s.done ++ [line] ++ queuedLines queue
      rw [horder, List.append_assoc]
      rfl
    · exact absurd (hs.joined hjoined) (by rw [hwriter]; nofun)
  · have hkept : InOrder { s with queue } := by
      refine ⟨hs.first, fun hlive => ?_, fun hended => ?_, hs.joined⟩
      · have horder := hs.order hlive
        rw [hqueue] at horder
        exact horder
      · exact absurd hended (by rw [hwriter]; nofun)
    rcases hnext with hnext | hnext
    · rw [hnext]
      exact hkept
    · rw [hnext]
      exact ⟨hkept.first, hkept.order, hkept.ended, hkept.joined⟩
  · rw [hnext]
    refine ⟨hs.first, fun _ => ?_, fun _ => hqueue, fun _ => rfl⟩
    have horder := hs.order (by rw [hwriter]; nofun)
    rw [in_hand_idle hwriter] at horder
    exact horder

theorem Promised.receive (hp : Promised before call s) :
    Promised before call s.receive := by
  rcases receive_cases s with hsame | ⟨line, queue, hwriter, hqueue, hnext⟩ |
    ⟨other, queue, hwriter, hqueue, hnext⟩ | ⟨hwriter, hqueue, hnext⟩
  · rw [hsame]
    exact hp
  · rw [hnext]
    refine ⟨hp.began, fun front hfront _ => ?_, hp.flushed⟩
    have hlonger : .line line :: front ++ [.flush call] <+: s.queue := by
      rw [hqueue, List.cons_append, List.prefix_cons_inj]
      exact hfront
    have hbefore := hp.queued _ hlonger (by rw [hwriter]; nofun)
    rw [in_hand_idle hwriter, List.append_nil] at hbefore
    show before <+: s.done ++ [line] ++ queuedLines front
    rw [List.append_assoc]
    exact hbefore
  · have hkept : Promised before call { s with queue } := by
      refine ⟨hp.began, fun front hfront hlive => ?_, hp.flushed⟩
      have hlonger : .flush other :: front ++ [.flush call] <+: s.queue := by
        rw [hqueue, List.cons_append, List.prefix_cons_inj]
        exact hfront
      exact hp.queued (.flush other :: front) hlonger hlive
    rcases hnext with hnext | hnext
    · rw [hnext]
      exact hkept
    · rw [hnext]
      refine hkept.set_flush fun heq _ => ?_
      -- its own message is at the head, so nothing is left in front of it
      have hhead := hp.queued [] (by rw [hqueue, heq]; exact ⟨queue, rfl⟩) (by rw [hwriter]; nofun)
      rw [in_hand_idle hwriter, List.append_nil] at hhead
      show before <+: s.done
      simpa [queuedLines] using hhead
  · rw [hnext]
    refine ⟨hp.began, fun front hfront _ => ?_, hp.flushed⟩
    rw [show ({ s with writer := .ended } : LedgerWriter).queue = [] from hqueue] at hfront
    have hlen := hfront.length_le
    simp at hlen

theorem InOrder.write (hs : InOrder s) (ok : Bool) : InOrder (s.write ok) := by
  unfold LedgerWriter.write
  split
  · rename_i line hwriter
    have horder := hs.order (by rw [hwriter]; nofun)
    rw [inHand, hwriter] at horder
    refine ⟨?_, fun _ => ?_, fun hended => ?_, fun hjoined => ?_⟩
    · show (s.handled ++ [(line, ok)]).map Prod.fst <+: s.sent
      rw [horder, List.map_append]
      exact List.prefix_append _ _
    · show s.sent = (s.handled ++ [(line, ok)]).map Prod.fst ++ _ ++ queuedLines s.queue
      cases ok <;> simpa [inHand, LedgerWriter.done] using horder
    · cases ok <;> cases hended
    · exact absurd (hs.joined hjoined) (by rw [hwriter]; nofun)
  · exact hs

theorem Promised.write (hp : Promised before call s) (ok : Bool) :
    Promised before call (s.write ok) := by
  unfold LedgerWriter.write
  split
  · rename_i line hwriter
    refine ⟨hp.began, fun front hfront _ => ?_, fun hflushed => ?_⟩
    · have hbefore := hp.queued front hfront (by rw [hwriter]; nofun)
      rw [inHand, hwriter] at hbefore
      show before <+: (s.handled ++ [(line, ok)]).map Prod.fst ++ _ ++ queuedLines front
      cases ok <;> simpa [inHand, LedgerWriter.done] using hbefore
    · refine (hp.flushed hflushed).trans ?_
      show s.handled.map Prod.fst <+: (s.handled ++ [(line, ok)]).map Prod.fst
      rw [List.map_append]
      exact List.prefix_append _ _
  · exact hp

/-- A message enters the queue behind every other. -/
theorem InOrder.enqueue (hs : InOrder s) (hlive : s.Listening) (message : LedgerMsg) :
    InOrder { s with
      queue := s.queue ++ [message]
      sent := s.sent ++ queuedLines [message] } := by
  refine ⟨hs.first.trans (List.prefix_append _ _), fun hne => ?_,
    fun hended => absurd hended hlive.1, hs.joined⟩
  show s.sent ++ queuedLines [message] = s.done ++ s.inHand ++ queuedLines (s.queue ++ [message])
  rw [hs.order hne, queued_lines_append, List.append_assoc]

theorem Promised.enqueue (hp : Promised before call s) (message : LedgerMsg)
    (hmessage : message = .flush call → s.writer ≠ .panicked →
      before <+: s.done ++ s.inHand ++ queuedLines s.queue) :
    Promised before call { s with
      queue := s.queue ++ [message]
      sent := s.sent ++ queuedLines [message] } where
  began := hp.began.trans (List.prefix_append _ _)
  queued front hfront hlive := by
    rcases List.prefix_concat_iff.mp hfront with heq | hold
    · obtain ⟨rfl, hlast⟩ := List.append_inj' heq rfl
      exact hmessage (List.singleton_inj.mp hlast).symm hlive
    · exact hp.queued front hold hlive
  flushed := hp.flushed

theorem send_cases (s : LedgerWriter) (call : Nat) : Keeps s (s.send call) ∨
    ∃ line, s.Listening ∧ s.send call = { s with
      queue := s.queue ++ [LedgerMsg.line line]
      sent := s.sent ++ queuedLines [LedgerMsg.line line] }.setRecord call .returned := by
  unfold send
  split
  · rename_i line hcall
    split
    · split
      · rename_i hroom
        exact .inr ⟨line, hroom.1, rfl⟩
      · exact .inl ⟨⟨rfl, rfl, rfl, rfl, id, Iff.rfl⟩, rfl, rfl⟩
    · exact .inl ⟨⟨rfl, rfl, rfl, rfl, id, Iff.rfl⟩, rfl, rfl⟩
  · exact .inl (.refl s)

/-- What a step of a flush does: it takes or gives back a sender, or it queues its message. -/
theorem flush_cases (s : LedgerWriter) (act : LedgerAct) (call : Nat)
    (hact : act = .clone call ∨ act = .mark call ∨ act = .giveUp call) :
    s.step act = s ∨
    (∃ senders phase, s.step act = { s with senders }.setFlush call phase ∧
      phase ≠ .returned true ∧ phase ≠ .idle ∧ (phase = .cloned → s.flushes call = .idle)) ∨
    ∃ senders, s.flushes call = .cloned ∧ s.Listening ∧ s.step act = { s with
      senders
      queue := s.queue ++ [LedgerMsg.flush call]
      sent := s.sent ++ queuedLines [LedgerMsg.flush call] }.setFlush call .waiting := by
  rcases hact with rfl | rfl | rfl
  · show s.clone call = s ∨ (∃ senders phase, s.clone call = _ ∧ _) ∨ _
    unfold clone
    split
    · rename_i hidle
      split
      · exact .inr (.inl ⟨_, _, rfl, nofun, nofun, fun _ => hidle⟩)
      · exact .inr (.inl ⟨s.senders, _, rfl, nofun, nofun, nofun⟩)
    · exact .inl rfl
  · show s.mark call = s ∨ (∃ senders phase, s.mark call = _ ∧ _) ∨ ∃ senders, _ ∧ _ ∧ s.mark call = _
    unfold mark
    split
    · rename_i hcloned
      split
      · rename_i hroom
        refine .inr (.inr ⟨s.senders - 1, hcloned, hroom.1, ?_⟩)
        simp [queuedLines]
      · split
        · exact .inl rfl
        · exact .inr (.inl ⟨_, _, rfl, nofun, nofun, nofun⟩)
    · exact .inl rfl
  · show s.giveUp call = s ∨ (∃ senders phase, s.giveUp call = _ ∧ _) ∨ _
    unfold giveUp
    split
    · exact .inr (.inl ⟨_, _, rfl, nofun, nofun, nofun⟩)
    · exact .inr (.inl ⟨s.senders, _, rfl, nofun, nofun, nofun⟩)
    · exact .inl rfl

theorem Sent.set_flush (hs : Sent s) {phase : FlushCall} (hidle : phase ≠ .idle)
    (hcloned : phase = .cloned → s.flushes call = .idle) : Sent (s.setFlush call phase) := by
  intro other hmem
  have hold := hs other hmem
  show Function.update s.flushes call phase other ≠ .idle ∧
    Function.update s.flushes call phase other ≠ .cloned
  by_cases heq : other = call
  · subst heq
    rw [Function.update_self]
    exact ⟨hidle, fun hphase => hold.1 (hcloned hphase)⟩
  · rw [Function.update_of_ne heq]
    exact hold

structure Kept (s : LedgerWriter) : Prop where
  order : InOrder s
  own : Sent s

/-- A step keeps the order, and what every flush was promised. -/
structure Follows (s s' : LedgerWriter) : Prop where
  kept : Kept s'
  promised : ∀ call before, Promised before call s → Promised before call s'

theorem Follows.refl (hs : Kept s) : Follows s s :=
  ⟨hs, fun _ _ hp => hp⟩

theorem Keeps.follows (keeps : Keeps s s') (hs : Kept s) : Follows s s' := by
  obtain ⟨still, hshutdown, hflushes⟩ := keeps
  refine ⟨⟨still.in_order hs.order hshutdown, ?_⟩, fun call _ hp =>
    still.promised hp (congrFun hflushes call)⟩
  intro call hmem
  rw [hflushes]
  exact hs.own call (still.queue ▸ hmem)

/-- The shutdown moves on, without an answer or with the thread at its end. -/
theorem shutdown_follows (hs : Kept s) {attached handle : Bool} {senders : Nat}
    {shutdown : ShutdownPhase} (hended : shutdown = .returned .flushed → s.writer = .ended) :
    Follows s { s with attached, handle, senders, shutdown } :=
  ⟨⟨⟨hs.order.first, hs.order.order, hs.order.ended, hended⟩, hs.own⟩, fun _ _ hp =>
    ⟨hp.began, hp.queued, hp.flushed⟩⟩

theorem detach_follows (hs : Kept s) : Follows s s.detach := by
  unfold detach
  split
  · exact shutdown_follows hs nofun
  · exact .refl hs

theorem take_follows (hs : Kept s) : Follows s s.take := by
  unfold take
  split
  · split
    · exact shutdown_follows hs nofun
    · exact shutdown_follows hs nofun
  · exact .refl hs

theorem drop_follows (hs : Kept s) : Follows s s.drop := by
  unfold drop
  split
  · exact shutdown_follows hs nofun
  · exact .refl hs

theorem join_follows (hs : Kept s) (timedOut : Bool) : Follows s (s.join timedOut) := by
  unfold join
  split
  · split
    · rename_i hended
      exact shutdown_follows hs fun _ => hended
    · split
      · exact shutdown_follows hs nofun
      · exact .refl hs
  · exact .refl hs

theorem panic_cases (s : LedgerWriter) : s.panic = s ∨
    (s.writer = .idle ∨ ∃ line, s.writer = .writing line) ∧
      s.panic = { s with writer := .panicked } := by
  unfold panic
  split
  · rename_i hwriter
    exact .inr ⟨.inl hwriter, rfl⟩
  · rename_i line hwriter
    exact .inr ⟨.inr ⟨line, hwriter⟩, rfl⟩
  · exact .inl rfl

theorem panic_follows (hs : Kept s) : Follows s s.panic := by
  rcases panic_cases s with hsame | ⟨hwriter, hnext⟩
  · rw [hsame]
    exact .refl hs
  · rw [hnext]
    refine ⟨⟨⟨hs.order.first, fun hne => absurd rfl hne, nofun, fun hjoined => ?_⟩, hs.own⟩, fun _ _ hp =>
      ⟨hp.began, fun _ _ hne => absurd rfl hne, hp.flushed⟩⟩
    have hended := hs.order.joined hjoined
    rcases hwriter with hwriter | ⟨line, hwriter⟩
    · rw [hended] at hwriter
      cases hwriter
    · rw [hended] at hwriter
      cases hwriter

theorem receive_follows (hs : Kept s) : Follows s s.receive := by
  refine ⟨⟨hs.order.receive, ?_⟩, fun _ _ hp => hp.receive⟩
  rcases receive_cases s with hsame | ⟨line, queue, -, hqueue, hnext⟩ |
    ⟨other, queue, -, hqueue, hnext⟩ | ⟨-, hqueue, hnext⟩
  · rw [hsame]
    exact hs.own
  · rw [hnext]
    exact fun call hmem => hs.own call (by rw [hqueue]; exact List.mem_cons_of_mem _ hmem)
  · have hkept : Sent { s with queue } :=
      fun call hmem => hs.own call (by rw [hqueue]; exact List.mem_cons_of_mem _ hmem)
    rcases hnext with hnext | hnext
    · rw [hnext]
      exact hkept
    · rw [hnext]
      exact hkept.set_flush nofun nofun
  · rw [hnext]
    exact hs.own

theorem write_follows (hs : Kept s) (ok : Bool) : Follows s (s.write ok) := by
  refine ⟨⟨hs.order.write ok, ?_⟩, fun _ _ hp => hp.write ok⟩
  unfold LedgerWriter.write
  split
  · exact hs.own
  · exact hs.own

theorem send_follows (hs : Kept s) (call : Nat) : Follows s (s.send call) := by
  rcases send_cases s call with hkeeps | ⟨line, hlive, hnext⟩
  · exact hkeeps.follows hs
  · rw [hnext]
    have horder := hs.order.enqueue hlive (.line line)
    refine ⟨⟨⟨horder.first, horder.order, horder.ended, horder.joined⟩, fun call hmem => ?_⟩,
      fun _ _ hp => ?_⟩
    · rcases List.mem_append.mp hmem with hold | hnew
      · exact hs.own call hold
      · cases List.mem_singleton.mp hnew
    · have hp' := hp.enqueue (.line line) nofun
      exact ⟨hp'.began, hp'.queued, hp'.flushed⟩

theorem flush_follows (hs : Kept s) {act : LedgerAct} {call : Nat}
    (hact : act = .clone call ∨ act = .mark call ∨ act = .giveUp call) : Follows s (s.step act) := by
  rcases flush_cases s act call hact with hsame | ⟨senders, phase, hnext, hne, hbegun, hidle⟩ |
    ⟨senders, hcloned, hlive, hnext⟩
  · rw [hsame]
    exact .refl hs
  · rw [hnext]
    have hown : Sent { s with senders } := hs.own
    refine ⟨⟨⟨hs.order.first, hs.order.order, hs.order.ended, hs.order.joined⟩, hown.set_flush hbegun hidle⟩,
      fun other before hp => ?_⟩
    have hp' : Promised before other { s with senders } := ⟨hp.began, hp.queued, hp.flushed⟩
    exact hp'.set_flush fun _ hphase => absurd hphase hne
  · rw [hnext]
    have horder := hs.order.enqueue hlive (.flush call)
    refine ⟨⟨⟨horder.first, horder.order, horder.ended, horder.joined⟩, ?_⟩, fun other before hp => ?_⟩
    · intro other hmem
      show Function.update s.flushes call .waiting other ≠ .idle ∧
        Function.update s.flushes call .waiting other ≠ .cloned
      by_cases heq : other = call
      · rw [heq, Function.update_self]
        exact ⟨nofun, nofun⟩
      · rw [Function.update_of_ne heq]
        rcases List.mem_append.mp hmem with hold | hnew
        · exact hs.own other hold
        · exact absurd (LedgerMsg.flush.inj (List.mem_singleton.mp hnew)) heq
    · have hp' := hp.enqueue (.flush call) fun _ hne => by
        rw [← hs.order.order hne]
        exact hp.began
      have hp'' : Promised before other { s with
          senders
          queue := s.queue ++ [LedgerMsg.flush call]
          sent := s.sent ++ queuedLines [LedgerMsg.flush call] } :=
        ⟨hp'.began, hp'.queued, hp'.flushed⟩
      exact hp''.set_flush fun _ hphase => by cases hphase

theorem step_follows (hs : Kept s) (act : LedgerAct) : Follows s (s.step act) := by
  cases act with
  | look call line => exact (quiet_keeps s (.look call line) trivial).follows hs
  | send call => exact send_follows hs call
  | count call => exact (quiet_keeps s (.count call) trivial).follows hs
  | raise call => exact (quiet_keeps s (.raise call) trivial).follows hs
  | clone call => exact flush_follows hs (.inl rfl)
  | mark call => exact flush_follows hs (.inr (.inl rfl))
  | giveUp call => exact flush_follows hs (.inr (.inr rfl))
  | receive => exact receive_follows hs
  | write ok => exact write_follows hs ok
  | load => exact (quiet_keeps s .load trivial).follows hs
  | lower => exact (quiet_keeps s .lower trivial).follows hs
  | reread => exact (quiet_keeps s .reread trivial).follows hs
  | restore => exact (quiet_keeps s .restore trivial).follows hs
  | panic => exact panic_follows hs
  | detach => exact detach_follows hs
  | take => exact take_follows hs
  | drop => exact drop_follows hs
  | join timedOut => exact join_follows hs timedOut

theorem kept_new (depth : Nat) : Kept (new depth) where
  order := ⟨List.prefix_rfl, fun _ => rfl, fun _ => rfl, fun h => by cases h⟩
  own _ hmem := by cases hmem

theorem kept_run (depth : Nat) (acts : List LedgerAct) : Kept (exec step (new depth) acts) :=
  exec_invariant (I := Kept) (A := fun _ _ => True) (fun _ act hs _ => (step_follows hs act).kept)
    (kept_new depth) (fun _ _ _ => trivial) acts List.prefix_rfl

/-- A flush that has not begun. -/
theorem Kept.promised (hs : Kept s) (hidle : s.flushes call = .idle) : Promised s.sent call s where
  began := List.prefix_rfl
  queued front hfront _ := absurd hidle (hs.own call (hfront.subset (by simp))).1
  flushed hflushed := by
    rw [hidle] at hflushed
    cases hflushed

theorem promised_run (hs : Kept s) (hp : Promised before call s) (acts : List LedgerAct) :
    Promised before call (exec step s acts) := by
  have hrun : Kept (exec step s acts) ∧ Promised before call (exec step s acts) :=
    exec_invariant (I := fun s => Kept s ∧ Promised before call s) (A := fun _ _ => True)
      (fun _ act hs _ => ⟨(step_follows hs.1 act).kept, (step_follows hs.1 act).promised _ _ hs.2⟩)
      ⟨hs, hp⟩ (fun _ _ _ => trivial) acts List.prefix_rfl
  exact hrun.2

/-- In every interleaving: a flush that answers true has every line that was queued when it began
through the writer, a shutdown that says flushed has every line that was ever queued through it, and
the lines are handled in the order they were queued, each once. -/
theorem flushed_is_handled (depth : Nat) (before after : List LedgerAct) (call : Nat)
    (hidle : (exec step (new depth) before).flushes call = .idle) :
    ((exec step (new depth) (before ++ after)).flushes call = .returned true →
      (exec step (new depth) before).sent <+: (exec step (new depth) (before ++ after)).done) ∧
    ((exec step (new depth) (before ++ after)).shutdown = .returned .flushed →
      (exec step (new depth) (before ++ after)).done = (exec step (new depth) (before ++ after)).sent) ∧
    (exec step (new depth) (before ++ after)).done <+: (exec step (new depth) (before ++ after)).sent := by
  have hstart := kept_run depth before
  have hend := kept_run depth (before ++ after)
  refine ⟨fun hflushed => ?_, fun hjoined => ?_, hend.order.first⟩
  · rw [exec_append] at hflushed ⊢
    exact (promised_run hstart (hstart.promised hidle) after).flushed hflushed
  · have hended := hend.order.joined hjoined
    have horder := hend.order.order (by rw [hended]; nofun)
    rw [hend.order.ended hended, inHand, hended] at horder
    simpa [queuedLines] using horder.symm

/-- A line is queued behind the flush, and is still queued when the flush is answered. -/
theorem flushed_is_handled_once :
    (exec step (new ledgerQueueDepth) [.look 0 ⟨0, [104]⟩, .send 0]).sent <+:
      (exec step (new ledgerQueueDepth) ([.look 0 ⟨0, [104]⟩, .send 0] ++
        [.clone 7, .mark 7, .look 1 ⟨1, [105]⟩, .send 1, .receive, .write true, .load, .lower,
          .receive])).done :=
  (flushed_is_handled _ _ _ 7 rfl).1 (by decide)

/-! ## The drop flag -/

/-- The writer is not about to put back what it lowered. -/
def Decided (s : LedgerWriter) : Prop :=
  (∀ dropped, s.writer ≠ .lowered dropped) ∧ s.writer ≠ .restoring

/-- The writer is in `note_drop_episode`. -/
def Reporting (s : LedgerWriter) : Prop :=
  match s.writer with
  | .appended | .loaded _ | .lowered _ | .restoring => True
  | _ => False

theorem decided_of_not_reporting (h : ¬ s.Reporting) : s.Decided := by
  refine ⟨fun dropped hwriter => h ?_, fun hwriter => h ?_⟩ <;> simp [Reporting, hwriter]

/-- What the counts say of each other, and the health of the last write. -/
structure Honest (s : LedgerWriter) : Prop where
  counted : ∀ call number, s.records call = .counted number → number ≤ s.dropped
  seen : s.dropsSeen ≤ s.dropped
  raised : s.raised ≤ s.dropped
  loaded : ∀ dropped, s.writer = .loaded dropped → dropped = s.dropsSeen
  lowered : ∀ dropped, s.writer = .lowered dropped → dropped = s.dropsSeen
  healthy : s.healthy = (s.handled.getLast?.map Prod.snd).getD true

/-- A line was written after the first `k` that the writer came to. -/
def WrittenSince (k : Nat) (s : LedgerWriter) : Prop :=
  ∃ line, (line, true) ∈ s.handled.drop k

/-- What becomes of the drop `number` of a call, counted when the writer had come to `k` lines. Until
a later line is written its flag is up once it is reported, or about to be put back, and the writer
has not looked at the count since, or has and is through with that report. -/
structure Pending (call number k : Nat) (s : LedgerWriter) : Prop where
  dropped : number ≤ s.dropped
  handled : k ≤ s.handled.length
  reported : s.records call = .counted number ∨ s.records call = .returned ∧ number ≤ s.raised
  shown : WrittenSince k s ∨
    (number ≤ s.raised → s.dropping = true ∨ ¬ s.Decided) ∧ (s.dropsSeen < number ∨ ¬ s.Reporting)

theorem honest_new (depth : Nat) : Honest (new depth) where
  counted _ _ h := by cases h
  seen := Nat.le_refl _
  raised := Nat.le_refl _
  loaded _ h := by cases h
  lowered _ h := by cases h
  healthy := rfl

structure SameFlag (s s' : LedgerWriter) : Prop where
  counted : ∀ call number, s'.records call = .counted number ↔ s.records call = .counted number
  returned : ∀ call, s.records call = .returned → s'.records call = .returned
  dropped : s'.dropped = s.dropped
  dropsSeen : s'.dropsSeen = s.dropsSeen
  raised : s'.raised = s.raised
  dropping : s'.dropping = s.dropping
  writer : s'.writer = s.writer ∨ ¬ s'.Reporting ∧ ¬ s.Reporting
  healthy : s'.healthy = s.healthy
  handled : s'.handled = s.handled

theorem SameFlag.honest (same : SameFlag s s') (hs : Honest s) : Honest s' where
  counted call number hcall := by
    rw [same.dropped]
    exact hs.counted call number ((same.counted call number).mp hcall)
  seen := by
    rw [same.dropsSeen, same.dropped]
    exact hs.seen
  raised := by
    rw [same.raised, same.dropped]
    exact hs.raised
  loaded dropped hloaded := by
    rw [same.dropsSeen]
    rcases same.writer with heq | ⟨hnot, -⟩
    · exact hs.loaded dropped (heq ▸ hloaded)
    · exact absurd (by simp [Reporting, hloaded]) hnot
  lowered dropped hlowered := by
    rw [same.dropsSeen]
    rcases same.writer with heq | ⟨hnot, -⟩
    · exact hs.lowered dropped (heq ▸ hlowered)
    · exact absurd (by simp [Reporting, hlowered]) hnot
  healthy := by
    rw [same.healthy, same.handled]
    exact hs.healthy

theorem SameFlag.pending {number k : Nat} (same : SameFlag s s') (hp : Pending call number k s) :
    Pending call number k s' where
  dropped := same.dropped ▸ hp.dropped
  handled := same.handled ▸ hp.handled
  reported := by
    rw [same.raised]
    exact hp.reported.imp (same.counted call number).mpr fun h => ⟨same.returned call h.1, h.2⟩
  shown := by
    rw [WrittenSince, same.handled, same.raised, same.dropping, same.dropsSeen]
    refine hp.shown.imp_right fun ⟨hflag, hseen⟩ => ?_
    rcases same.writer with heq | ⟨hafter, hbefore⟩
    · unfold Decided Reporting at *
      rw [heq]
      exact ⟨hflag, hseen⟩
    · refine ⟨fun h => .inl ((hflag h).resolve_right ?_), .inr hafter⟩
      exact not_not.mpr (decided_of_not_reporting hbefore)

theorem SameFlag.refl (s : LedgerWriter) : SameFlag s s :=
  ⟨fun _ _ => .rfl, fun _ h => h, rfl, rfl, rfl, rfl, .inl rfl, rfl, rfl⟩

/-- The steps that report no drop and do not decide about the flag. -/
def Aside : LedgerAct → Prop
  | .count _ | .raise _ | .write _ | .load | .lower | .reread | .restore => False
  | _ => True

theorem set_record_same {phase : RecordCall} (hold : ∀ number, s.records call ≠ .counted number)
    (hreturned : s.records call ≠ .returned) (hphase : ∀ number, phase ≠ .counted number) :
    SameFlag s (s.setRecord call phase) := by
  refine ⟨fun other number => ?_, fun other h => ?_, rfl, rfl, rfl, rfl, .inl rfl, rfl, rfl⟩
  · show Function.update s.records call phase other = _ ↔ _
    by_cases heq : other = call
    · subst heq
      rw [Function.update_self]
      exact iff_of_false (hphase number) (hold number)
    · rw [Function.update_of_ne heq]
  · have hne : other ≠ call := fun heq => hreturned (heq ▸ h)
    exact (Function.update_of_ne hne ..).trans h

theorem aside_same {act : LedgerAct} (haside : Aside act) : SameFlag s (s.step act) := by
  cases act with
  | look call line =>
    show SameFlag s (s.look call line)
    unfold look
    split
    · rename_i hidle
      refine set_record_same (by simp [hidle]) (by simp [hidle]) ?_
      split <;> nofun
    · exact .refl s
  | send call =>
    show SameFlag s (s.send call)
    unfold send
    split
    · rename_i line hlooked
      have hkeep : ∀ phase, (∀ number, phase ≠ .counted number) →
          SameFlag s (s.setRecord call phase) :=
        fun phase => set_record_same (by simp [hlooked]) (by simp [hlooked])
      split
      · split
        · have hsent := hkeep .returned nofun
          exact ⟨hsent.counted, hsent.returned, rfl, rfl, rfl, rfl, .inl rfl, rfl, rfl⟩
        · exact hkeep .refused nofun
      · exact hkeep .returned nofun
    · exact .refl s
  | clone call =>
    show SameFlag s (s.clone call)
    unfold clone
    split
    · split <;> exact ⟨fun _ _ => .rfl, fun _ h => h, rfl, rfl, rfl, rfl, .inl rfl, rfl, rfl⟩
    · exact .refl s
  | mark call =>
    show SameFlag s (s.mark call)
    unfold mark
    split
    · split
      · exact ⟨fun _ _ => .rfl, fun _ h => h, rfl, rfl, rfl, rfl, .inl rfl, rfl, rfl⟩
      · split <;> exact ⟨fun _ _ => .rfl, fun _ h => h, rfl, rfl, rfl, rfl, .inl rfl, rfl, rfl⟩
    · exact .refl s
  | giveUp call =>
    show SameFlag s (s.giveUp call)
    unfold giveUp
    split <;> exact ⟨fun _ _ => .rfl, fun _ h => h, rfl, rfl, rfl, rfl, .inl rfl, rfl, rfl⟩
  | receive =>
    show SameFlag s s.receive
    have hidle : s.writer = .idle → ¬ s.Reporting := fun h => by simp [Reporting, h]
    rcases receive_cases s with hsame | ⟨line, queue, hwriter, -, hnext⟩ |
      ⟨other, queue, hwriter, -, hnext | hnext⟩ | ⟨hwriter, -, hnext⟩
    · rw [hsame]
      exact .refl s
    · rw [hnext]
      exact ⟨fun _ _ => .rfl, fun _ h => h, rfl, rfl, rfl, rfl, .inr ⟨id, hidle hwriter⟩, rfl, rfl⟩
    · rw [hnext]
      exact ⟨fun _ _ => .rfl, fun _ h => h, rfl, rfl, rfl, rfl, .inl rfl, rfl, rfl⟩
    · rw [hnext]
      exact ⟨fun _ _ => .rfl, fun _ h => h, rfl, rfl, rfl, rfl, .inl rfl, rfl, rfl⟩
    · rw [hnext]
      exact ⟨fun _ _ => .rfl, fun _ h => h, rfl, rfl, rfl, rfl, .inr ⟨id, hidle hwriter⟩, rfl, rfl⟩
  | panic =>
    show SameFlag s s.panic
    rcases panic_cases s with hsame | ⟨hwriter, hnext⟩
    · rw [hsame]
      exact .refl s
    · rw [hnext]
      refine ⟨fun _ _ => .rfl, fun _ h => h, rfl, rfl, rfl, rfl, .inr ⟨id, ?_⟩, rfl, rfl⟩
      rcases hwriter with hwriter | ⟨line, hwriter⟩ <;> simp [Reporting, hwriter]
  | detach =>
    show SameFlag s s.detach
    unfold detach
    split <;> exact ⟨fun _ _ => .rfl, fun _ h => h, rfl, rfl, rfl, rfl, .inl rfl, rfl, rfl⟩
  | take =>
    show SameFlag s s.take
    unfold take
    split
    · split <;> exact ⟨fun _ _ => .rfl, fun _ h => h, rfl, rfl, rfl, rfl, .inl rfl, rfl, rfl⟩
    · exact .refl s
  | drop =>
    show SameFlag s s.drop
    unfold drop
    split <;> exact ⟨fun _ _ => .rfl, fun _ h => h, rfl, rfl, rfl, rfl, .inl rfl, rfl, rfl⟩
  | join timedOut =>
    show SameFlag s (s.join timedOut)
    unfold join
    split
    · split
      · exact ⟨fun _ _ => .rfl, fun _ h => h, rfl, rfl, rfl, rfl, .inl rfl, rfl, rfl⟩
      · split <;> exact ⟨fun _ _ => .rfl, fun _ h => h, rfl, rfl, rfl, rfl, .inl rfl, rfl, rfl⟩
    · exact .refl s
  | _ => exact haside.elim

theorem Honest.step (hs : Honest s) (act : LedgerAct) : Honest (s.step act) := by
  cases act with
  | count call =>
    show Honest (s.count call)
    unfold LedgerWriter.count
    split
    · refine ⟨fun other number hcall => ?_, Nat.le_succ_of_le hs.seen, Nat.le_succ_of_le hs.raised,
        hs.loaded, hs.lowered, hs.healthy⟩
      show number ≤ s.dropped + 1
      by_cases heq : other = call
      · subst heq
        have hnumber := (Function.update_self ..).symm.trans hcall
        exact (RecordCall.counted.inj hnumber).ge
      · exact Nat.le_succ_of_le
          (hs.counted other number ((Function.update_of_ne heq ..).symm.trans hcall))
    · exact hs
  | raise call =>
    show Honest (s.raise call)
    unfold LedgerWriter.raise
    split
    · rename_i number hcall
      refine ⟨fun other n h => ?_, hs.seen, Nat.max_le.mpr ⟨hs.raised, hs.counted call number hcall⟩,
        hs.loaded, hs.lowered, hs.healthy⟩
      by_cases heq : other = call
      · subst heq
        exact nomatch (Function.update_self ..).symm.trans h
      · exact hs.counted other n ((Function.update_of_ne heq ..).symm.trans h)
    · exact hs
  | write ok =>
    show Honest (s.write ok)
    unfold LedgerWriter.write
    split
    · rename_i line hwriter
      refine ⟨hs.counted, hs.seen, hs.raised, fun d h => ?_, fun d h => ?_, ?_⟩
      · cases ok <;> cases h
      · cases ok <;> cases h
      · show ok = ((s.handled ++ [(line, ok)]).getLast?.map Prod.snd).getD true
        simp
    · exact hs
  | load =>
    show Honest s.load
    unfold LedgerWriter.load
    split
    · split
      · exact ⟨hs.counted, Nat.le_refl _, hs.raised, nofun, nofun, hs.healthy⟩
      · rename_i hsame
        refine ⟨hs.counted, hs.seen, hs.raised, fun d h => ?_, nofun, hs.healthy⟩
        exact (WriterPhase.loaded.inj h).symm.trans (not_not.mp hsame)
    · exact hs
  | lower =>
    show Honest s.lower
    unfold LedgerWriter.lower
    split
    · rename_i dropped hwriter
      refine ⟨hs.counted, hs.seen, hs.raised, fun d h => ?_, fun d h => ?_, hs.healthy⟩
      · cases hdropping : s.dropping <;> simp [hdropping] at h
      · cases hdropping : s.dropping
        · simp [hdropping] at h
        · obtain rfl : dropped = d := by simpa [hdropping] using h
          exact hs.loaded _ hwriter
    · exact hs
  | reread =>
    show Honest s.reread
    unfold LedgerWriter.reread
    split
    · split
      · exact ⟨hs.counted, hs.seen, hs.raised, nofun, nofun, hs.healthy⟩
      · exact ⟨hs.counted, hs.seen, hs.raised, nofun, nofun, hs.healthy⟩
    · exact hs
  | restore =>
    show Honest s.restore
    unfold LedgerWriter.restore
    split
    · exact ⟨hs.counted, hs.seen, hs.raised, nofun, nofun, hs.healthy⟩
    · exact hs
  | _ => exact (aside_same (by trivial)).honest hs

theorem honest_run (depth : Nat) (acts : List LedgerAct) : Honest (exec step (new depth) acts) :=
  exec_invariant (I := Honest) (A := fun _ _ => True) (fun _ act hs _ => hs.step act)
    (honest_new depth) (fun _ _ _ => trivial) acts List.prefix_rfl

/-! ## A drop that was counted -/

section Pending

variable {number k : Nat}

theorem Pending.count (hp : Pending call number k s) (other : Nat) :
    Pending call number k (s.count other) := by
  unfold LedgerWriter.count
  split
  · rename_i hrefused
    have hne : call ≠ other := by
      rintro rfl
      rcases hp.reported with h | ⟨h, -⟩ <;> rw [hrefused] at h <;> cases h
    refine ⟨Nat.le_succ_of_le hp.dropped, hp.handled, ?_, hp.shown⟩
    show Function.update s.records other _ call = _ ∨ Function.update s.records other _ call = _ ∧ _
    rw [Function.update_of_ne hne]
    exact hp.reported
  · exact hp

/-- Its own report, or one of another drop: the flag is up. -/
theorem Pending.raise (hp : Pending call number k s) (other : Nat) :
    Pending call number k (s.raise other) := by
  unfold LedgerWriter.raise
  split
  · rename_i n hcounted
    refine ⟨hp.dropped, hp.handled, ?_, hp.shown.imp_right fun ⟨_, hseen⟩ => ⟨fun _ => .inl rfl, hseen⟩⟩
    show Function.update s.records other _ call = _ ∨
      Function.update s.records other _ call = _ ∧ number ≤ max s.raised n
    by_cases heq : call = other
    · subst heq
      refine .inr ⟨Function.update_self .., ?_⟩
      rcases hp.reported with h | ⟨h, -⟩
      · obtain rfl := RecordCall.counted.inj (h.symm.trans hcounted)
        exact Nat.le_max_right _ _
      · rw [hcounted] at h
        cases h
    · rw [Function.update_of_ne heq]
      exact hp.reported.imp_right fun h => ⟨h.1, h.2.trans (Nat.le_max_left _ _)⟩
  · exact hp

theorem Pending.write (hp : Pending call number k s) (ok : Bool) :
    Pending call number k (s.write ok) := by
  unfold LedgerWriter.write
  split
  · rename_i line hwriter
    have hdrop : (s.handled ++ [(line, ok)]).drop k = s.handled.drop k ++ [(line, ok)] :=
      List.drop_append_of_le_length hp.handled
    refine ⟨hp.dropped, ?_, hp.reported, ?_⟩
    · show k ≤ (s.handled ++ [(line, ok)]).length
      rw [List.length_append]
      exact Nat.le_add_right_of_le hp.handled
    · have hdecided : s.Decided := by simp [Decided, hwriter]
      cases ok with
      | true =>
        refine .inl ⟨line, ?_⟩
        show (line, true) ∈ (s.handled ++ [(line, true)]).drop k
        rw [hdrop]
        exact List.mem_append_right _ List.mem_cons_self
      | false =>
        refine hp.shown.imp (fun ⟨written, hmem⟩ => ⟨written, ?_⟩) fun ⟨hflag, _⟩ =>
          ⟨fun h => .inl ((hflag h).resolve_right (not_not.mpr hdecided)), .inr id⟩
        show (written, true) ∈ (s.handled ++ [(line, false)]).drop k
        rw [hdrop]
        exact List.mem_append_left _ hmem
  · exact hp

/-- The first look at the count after the drop: the writer leaves the flag to the next line. -/
theorem Pending.load (hp : Pending call number k s) : Pending call number k s.load := by
  unfold LedgerWriter.load
  split
  · rename_i hwriter
    have hdecided : s.Decided := by simp [Decided, hwriter]
    have hunseen : ¬ s.Reporting → False := fun h => h (by simp [Reporting, hwriter])
    split
    · refine ⟨hp.dropped, hp.handled, hp.reported, hp.shown.imp_right fun ⟨hflag, _⟩ => ?_⟩
      exact ⟨fun h => .inl ((hflag h).resolve_right (not_not.mpr hdecided)), .inr id⟩
    · refine ⟨hp.dropped, hp.handled, hp.reported, hp.shown.imp_right fun ⟨hflag, hseen⟩ => ?_⟩
      exact ⟨fun h => .inl ((hflag h).resolve_right (not_not.mpr hdecided)),
        .inl (hseen.resolve_right hunseen)⟩
  · exact hp

theorem Pending.lower (hp : Pending call number k s) : Pending call number k s.lower := by
  unfold LedgerWriter.lower
  split
  · rename_i dropped hwriter
    have hdecided : s.Decided := by simp [Decided, hwriter]
    refine ⟨hp.dropped, hp.handled, hp.reported, hp.shown.imp_right fun ⟨hflag, hseen⟩ => ?_⟩
    have hunseen : s.dropsSeen < number := hseen.resolve_right fun h => h (by simp [Reporting, hwriter])
    refine ⟨fun h => .inr ?_, .inl hunseen⟩
    have hup := (hflag h).resolve_right (not_not.mpr hdecided)
    simp [Decided, hup]
  · exact hp

/-- The second look finds the drop, which the first had not seen. -/
theorem Pending.reread (hs : Honest s) (hp : Pending call number k s) :
    Pending call number k s.reread := by
  unfold LedgerWriter.reread
  split
  · rename_i dropped hwriter
    refine ⟨hp.dropped, hp.handled, hp.reported, hp.shown.imp_right fun ⟨_, hseen⟩ => ?_⟩
    have hunseen : s.dropsSeen < number := hseen.resolve_right fun h => h (by simp [Reporting, hwriter])
    have hmoved : s.dropped ≠ dropped := by
      have hloaded := hs.lowered dropped hwriter
      have hcounted := hp.dropped
      omega
    rw [if_pos hmoved]
    exact ⟨fun _ => .inr fun h => h.2 rfl, .inl hunseen⟩
  · exact hp

theorem Pending.restore (hp : Pending call number k s) : Pending call number k s.restore := by
  unfold LedgerWriter.restore
  split
  · exact ⟨hp.dropped, hp.handled, hp.reported,
      hp.shown.imp_right fun _ => ⟨fun _ => .inl rfl, .inr id⟩⟩
  · exact hp

theorem Pending.step (hs : Honest s) (hp : Pending call number k s) (act : LedgerAct) :
    Pending call number k (s.step act) := by
  cases act with
  | count other => exact hp.count other
  | raise other => exact hp.raise other
  | write ok => exact hp.write ok
  | load => exact hp.load
  | lower => exact hp.lower
  | reread => exact hp.reread hs
  | restore => exact hp.restore
  | _ => exact (aside_same (by trivial)).pending hp

theorem pending_counted (hs : Honest s) (hrefused : s.records call = .refused) :
    Pending call (s.dropped + 1) s.handled.length (s.count call) := by
  have hcount : s.count call = { s with dropped := s.dropped + 1 }.setRecord call
      (.counted (s.dropped + 1)) := by rw [LedgerWriter.count, hrefused]
  rw [hcount]
  refine ⟨Nat.le_refl _, Nat.le_refl _, .inl (Function.update_self ..), .inr ⟨fun h => ?_, .inl ?_⟩⟩
  · exact absurd (h.trans hs.raised) (Nat.not_succ_le_self _)
  · exact Nat.lt_succ_of_le hs.seen

theorem pending_run (hs : Honest s) (hp : Pending call number k s) (acts : List LedgerAct) :
    Pending call number k (exec LedgerWriter.step s acts) := by
  have hrun : Honest (exec LedgerWriter.step s acts) ∧
      Pending call number k (exec LedgerWriter.step s acts) :=
    exec_invariant (I := fun s => Honest s ∧ Pending call number k s) (A := fun _ _ => True)
      (fun _ act hs _ => ⟨hs.1.step act, hs.2.step hs.1 act⟩) ⟨hs, hp⟩ (fun _ _ _ => trivial) acts
      List.prefix_rfl
  exact hrun.2

end Pending

/-- A line too many for a queue of two, which the first of two writes sees. -/
def oneTooMany : List LedgerAct :=
  [.look 0 ⟨0, [104]⟩, .send 0, .look 1 ⟨1, [105]⟩, .send 1, .look 2 ⟨2, [106]⟩, .send 2]

def caughtUp : List LedgerAct :=
  [.raise 2, .receive, .write true, .load, .receive, .write true, .load, .lower, .reread]

end LedgerWriter

end TeamClaude
