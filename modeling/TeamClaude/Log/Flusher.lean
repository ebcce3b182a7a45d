import TeamClaude.Lib.Exec
import Mathlib.Data.Finset.Card
import Mathlib.Order.Interval.Finset.Nat

/-!
# The log file's flusher

Log lines and sync barriers go through one queue to one writer thread. A sync takes a ticket, queues
a barrier, and waits until as many barriers have passed. Barriers enter the queue in another order
than their tickets, and a sync may be released by the barrier of another one.
-/

namespace TeamClaude

open Lib

/-- A line as the formatter writes it, never empty. -/
abbrev LogLine := {text : List UInt8 // text ≠ []}

/-- A message of the queue. The barrier is the empty line; the ticket it was sent under is noted for
the proofs, and nothing in the program can read it. -/
inductive LogMessage
  | line (text : LogLine)
  | barrier (ticket : Nat)
  deriving DecidableEq

namespace LogMessage

def text? : LogMessage → Option LogLine
  | line text => some text
  | barrier _ => none

def ticket? : LogMessage → Option Nat
  | line _ => none
  | barrier ticket => some ticket

end LogMessage

def linesOf (messages : List LogMessage) : List LogLine :=
  messages.filterMap LogMessage.text?

def ticketsOf (messages : List LogMessage) : List Nat :=
  messages.filterMap LogMessage.ticket?

/-- Where one call of `Flusher::sync` stands. -/
inductive LogSyncCall
  | idle
  | begun
  | ticketed (ticket : Nat)
  | waiting (ticket : Nat)
  | returned (synced : Bool)
  deriving DecidableEq

/-- The queue, the sink behind the writer thread and the calls. `taken` is what the writer has been
through. -/
structure FileLog where
  taken : List LogMessage := []
  queue : List LogMessage := []
  buffer : List LogLine := []
  disk : List LogLine := []
  requested : Nat := 0
  count : Nat := 0
  closed : Bool := false
  calls : Nat → LogSyncCall := fun _ => .idle

/-- One step of an emitter, of a call, of the writer thread or of the owner. -/
inductive LogAct
  | emit (text : LogLine)
  | beginSync (call : Nat)
  | takeTicket (call : Nat)
  | sendBarrier (call : Nat) (accepted : Bool)
  | look (call : Nat) (timedOut : Bool)
  | write
  | flush
  | close
  deriving DecidableEq

namespace FileLog

/-- Everything that was ever queued, in order. -/
def sent (s : FileLog) : List LogMessage :=
  s.taken ++ s.queue

def setCall (s : FileLog) (call : Nat) (phase : LogSyncCall) : FileLog :=
  { s with calls := Function.update s.calls call phase }

/-- A buffer that runs full, or a queue that runs empty, is flushed at any time. -/
def flush (s : FileLog) : FileLog :=
  { s with buffer := [], disk := s.disk ++ s.buffer }

/-- `Sink::write_all` -/
def writeAll (s : FileLog) : LogMessage → FileLog
  | .line text => { s with buffer := s.buffer ++ [text] }
  | .barrier _ => { s.flush with count := s.count + 1 }

def writeNext (s : FileLog) : FileLog :=
  match s.queue with
  | [] => s
  | message :: queue => { s with taken := s.taken ++ [message], queue }.writeAll message

/-- The first lines of `sync`. -/
def beginSync (s : FileLog) (call : Nat) : FileLog :=
  match s.calls call with
  | .idle => s.setCall call (if s.closed then .returned false else .begun)
  | _ => s

def takeTicket (s : FileLog) (call : Nat) : FileLog :=
  match s.calls call with
  | .begun => { s with requested := s.requested + 1 }.setCall call (.ticketed (s.requested + 1))
  | _ => s

/-- The barrier is not accepted once the writer thread has gone. -/
def sendBarrier (s : FileLog) (call : Nat) (accepted : Bool) : FileLog :=
  match s.calls call with
  | .ticketed ticket =>
    if accepted then
      { s with queue := s.queue ++ [LogMessage.barrier ticket] }.setCall call (.waiting ticket)
    else s.setCall call (.returned false)
  | _ => s

/-- One round of the wait, under the lock. -/
def look (s : FileLog) (call : Nat) (timedOut : Bool) : FileLog :=
  match s.calls call with
  | .waiting ticket =>
    if ticket ≤ s.count then s.setCall call (.returned true)
    else if s.closed || timedOut then s.setCall call (.returned false)
    else s
  | _ => s

def step (s : FileLog) : LogAct → FileLog
  | .emit text => { s with queue := s.queue ++ [.line text] }
  | .beginSync call => s.beginSync call
  | .takeTicket call => s.takeTicket call
  | .sendBarrier call accepted => s.sendBarrier call accepted
  | .look call timedOut => s.look call timedOut
  | .write => s.writeNext
  | .flush => s.flush
  | .close => { s with closed := true }

/-! ## What every run keeps -/

/-- Tickets are handed out once, every barrier that was taken is counted, and what stands in front of
a counted barrier is on disk. -/
structure Counted (s : FileLog) : Prop where
  nodup : (ticketsOf s.sent).Nodup
  bound : ∀ t ∈ ticketsOf s.sent, 1 ≤ t ∧ t ≤ s.requested
  unsent : ∀ call ticket, s.calls call = .ticketed ticket →
    1 ≤ ticket ∧ ticket ≤ s.requested ∧ ticket ∉ ticketsOf s.sent
  apart : ∀ call other ticket, s.calls call = .ticketed ticket →
    s.calls other = .ticketed ticket → call = other
  count : s.count = (ticketsOf s.taken).length
  lines : linesOf s.taken = s.disk ++ s.buffer
  flushed : ∀ front ticket back, s.taken = front ++ .barrier ticket :: back →
    linesOf front <+: s.disk

variable {s : FileLog}

theorem counted_new : Counted {} where
  nodup := List.nodup_nil
  bound := nofun
  unsent := nofun
  apart := nofun
  count := rfl
  lines := rfl
  flushed front ticket back h := by
    cases front <;> cases h

/-! ## One step -/

variable {call ticket : Nat}

@[simp] theorem tickets_append (front back : List LogMessage) :
    ticketsOf (front ++ back) = ticketsOf front ++ ticketsOf back :=
  List.filterMap_append

@[simp] theorem lines_append (front back : List LogMessage) :
    linesOf (front ++ back) = linesOf front ++ linesOf back :=
  List.filterMap_append

theorem set_call_calls (s : FileLog) (call : Nat) (phase : LogSyncCall) :
    (s.setCall call phase).calls = Function.update s.calls call phase :=
  rfl

/-- A call whose new phase holds no ticket. -/
theorem Counted.set_call (h : Counted s) {phase : LogSyncCall} (hphase : ∀ t, phase ≠ .ticketed t) :
    Counted (s.setCall call phase) := by
  have hold : ∀ c t, (s.setCall call phase).calls c = .ticketed t → s.calls c = .ticketed t := by
    intro c t hc
    by_cases heq : c = call
    · subst heq
      rw [set_call_calls, Function.update_self] at hc
      exact absurd hc (hphase t)
    · rwa [set_call_calls, Function.update_of_ne heq] at hc
  exact
    { nodup := h.nodup
      bound := h.bound
      unsent := fun c t hc => h.unsent c t (hold c t hc)
      apart := fun c o t hc ho => h.apart c o t (hold c t hc) (hold o t ho)
      count := h.count
      lines := h.lines
      flushed := h.flushed }

theorem Counted.emit (h : Counted s) (text : LogLine) : Counted (s.step (.emit text)) := by
  have hsent : ticketsOf (s.step (.emit text)).sent = ticketsOf s.sent := by
    show ticketsOf (s.taken ++ (s.queue ++ [.line text])) = ticketsOf (s.taken ++ s.queue)
    rw [← List.append_assoc, tickets_append _ [_]]
    exact List.append_nil _
  exact
    { nodup := hsent ▸ h.nodup
      bound := hsent ▸ h.bound
      unsent := hsent ▸ h.unsent
      apart := h.apart
      count := h.count
      lines := h.lines
      flushed := h.flushed }

theorem Counted.take_ticket (h : Counted s) : Counted (s.takeTicket call) := by
  unfold takeTicket
  split
  · have hfresh : ∀ c t, s.calls c = .ticketed t → t ≠ s.requested + 1 := by
      intro c t hc heq
      have hle := (h.unsent c t hc).2.1
      omega
    have hcases : ∀ c t, Function.update s.calls call (.ticketed (s.requested + 1)) c = .ticketed t →
        (c = call ∧ t = s.requested + 1) ∨ s.calls c = .ticketed t := by
      intro c t hc
      by_cases heq : c = call
      · rw [heq, Function.update_self] at hc
        exact .inl ⟨heq, (LogSyncCall.ticketed.inj hc).symm⟩
      · rw [Function.update_of_ne heq] at hc
        exact .inr hc
    refine
      { nodup := h.nodup
        bound := fun t ht => ⟨(h.bound t ht).1, Nat.le_succ_of_le (h.bound t ht).2⟩
        unsent := ?_
        apart := ?_
        count := h.count
        lines := h.lines
        flushed := h.flushed }
    · intro c t hc
      rcases hcases c t hc with ⟨-, rfl⟩ | hc
      · refine ⟨Nat.succ_pos _, Nat.le_refl _, fun hmem => ?_⟩
        have hle := (h.bound _ hmem).2
        omega
      · obtain ⟨hpos, hle, hnot⟩ := h.unsent c t hc
        exact ⟨hpos, Nat.le_succ_of_le hle, hnot⟩
    · intro c o t hc ho
      rcases hcases c t hc with ⟨hcall, hnew⟩ | hold
      · rcases hcases o t ho with ⟨hother, -⟩ | hold'
        · rw [hcall, hother]
        · exact absurd hnew (hfresh o t hold')
      · rcases hcases o t ho with ⟨-, hnew⟩ | hold'
        · exact absurd hnew (hfresh c t hold)
        · exact h.apart c o t hold hold'
  · exact h

theorem Counted.send_barrier (h : Counted s) (accepted : Bool) :
    Counted (s.sendBarrier call accepted) := by
  unfold sendBarrier
  split
  · rename_i ticket hcall
    split
    · obtain ⟨hpos, hle, hnot⟩ := h.unsent call ticket hcall
      have hsent : ticketsOf (s.taken ++ (s.queue ++ [.barrier ticket])) =
          ticketsOf s.sent ++ [ticket] := by
        rw [← List.append_assoc, tickets_append _ [_]]
        rfl
      have hold : ∀ c t, Function.update s.calls call (.waiting ticket) c = .ticketed t →
          c ≠ call ∧ s.calls c = .ticketed t := by
        intro c t hc
        by_cases heq : c = call
        · rw [heq, Function.update_self] at hc
          cases hc
        · rw [Function.update_of_ne heq] at hc
          exact ⟨heq, hc⟩
      refine
        { nodup := ?_
          bound := ?_
          unsent := ?_
          apart := fun c o t hc ho => h.apart c o t (hold c t hc).2 (hold o t ho).2
          count := h.count
          lines := h.lines
          flushed := h.flushed }
      · show (ticketsOf (s.taken ++ (s.queue ++ [.barrier ticket]))).Nodup
        rw [hsent]
        exact List.nodup_append.mpr ⟨h.nodup, List.nodup_singleton _, fun a ha b hb heq =>
          hnot (by rw [← List.mem_singleton.mp hb, ← heq]; exact ha)⟩
      · intro t ht
        have hmem : t ∈ ticketsOf s.sent ++ [ticket] := hsent ▸ ht
        rcases List.mem_append.mp hmem with hmem | hmem
        · exact h.bound t hmem
        · rw [List.mem_singleton.mp hmem]
          exact ⟨hpos, hle⟩
      · intro c t hc
        obtain ⟨hne, hc⟩ := hold c t hc
        obtain ⟨hpos', hle', hnot'⟩ := h.unsent c t hc
        refine ⟨hpos', hle', fun hmem => ?_⟩
        have hmem : t ∈ ticketsOf s.sent ++ [ticket] := hsent ▸ hmem
        rcases List.mem_append.mp hmem with hmem | hmem
        · exact hnot' hmem
        · rw [List.mem_singleton.mp hmem] at hc
          exact hne (h.apart c call ticket hc hcall)
    · exact h.set_call nofun
  · exact h

theorem Counted.flush (h : Counted s) : Counted s.flush where
  nodup := h.nodup
  bound := h.bound
  unsent := h.unsent
  apart := h.apart
  count := h.count
  lines := by
    rw [FileLog.flush, List.append_nil]
    exact h.lines
  flushed front ticket back heq := (h.flushed front ticket back heq).trans (List.prefix_append _ _)

theorem write_next_nil (h : s.queue = []) : s.writeNext = s := by
  rw [writeNext, h]

theorem write_next_cons {message : LogMessage} {queue : List LogMessage}
    (h : s.queue = message :: queue) : s.writeNext =
      { s with taken := s.taken ++ [message], queue }.writeAll message := by
  rw [writeNext, h]

/-- The writer moves a message from the queue to what was taken. -/
theorem write_next_keeps (s : FileLog) : s.writeNext.sent = s.sent ∧
    s.writeNext.requested = s.requested ∧ s.writeNext.calls = s.calls := by
  cases hqueue : s.queue with
  | nil =>
    rw [write_next_nil hqueue]
    exact ⟨rfl, rfl, rfl⟩
  | cons message queue =>
    have hsent : s.taken ++ [message] ++ queue = s.sent := by
      rw [sent, hqueue, List.append_assoc]
      rfl
    rw [write_next_cons hqueue]
    cases message with
    | line text => exact ⟨hsent, rfl, rfl⟩
    | barrier ticket => exact ⟨hsent, rfl, rfl⟩

theorem write_next_disk (s : FileLog) : s.disk <+: s.writeNext.disk := by
  cases hqueue : s.queue with
  | nil => rw [write_next_nil hqueue]
  | cons message queue =>
    rw [write_next_cons hqueue]
    cases message with
    | line text => exact List.prefix_rfl
    | barrier ticket => exact List.prefix_append _ _

/-- What stands in front of an element of a list with one more at its end. -/
theorem prefix_of_concat {α : Type*} {front back l : List α} {a b : α}
    (h : l ++ [a] = front ++ b :: back) : front <+: l := by
  have hlong : front ++ [b] <+: l ++ [a] := ⟨back, by rw [List.append_assoc, h]; rfl⟩
  have hlen := hlong.length_le
  simp only [List.length_append, List.length_singleton] at hlen
  exact List.prefix_of_prefix_length_le ((List.prefix_append _ _).trans hlong)
    (List.prefix_append _ _) (by omega)

/-- A barrier flushes what was taken before it, and is counted. -/
theorem Counted.write (h : Counted s) : Counted s.writeNext := by
  obtain ⟨hsent, hrequested, hcalls⟩ := write_next_keeps s
  cases hqueue : s.queue with
  | nil =>
    rw [write_next_nil hqueue]
    exact h
  | cons message queue =>
    have hnext := write_next_cons hqueue
    refine
      { nodup := by rw [hsent]; exact h.nodup
        bound := by rw [hsent, hrequested]; exact h.bound
        unsent := by rw [hsent, hrequested, hcalls]; exact h.unsent
        apart := by rw [hcalls]; exact h.apart
        count := ?_
        lines := ?_
        flushed := ?_ }
    all_goals rw [hnext]
    all_goals cases message with
    | line text => ?_
    | barrier ticket => ?_
    · show s.count = (ticketsOf (s.taken ++ [.line text])).length
      rw [h.count, tickets_append]
      exact congrArg List.length (List.append_nil _).symm
    · show s.count + 1 = (ticketsOf (s.taken ++ [.barrier ticket])).length
      rw [h.count, tickets_append, List.length_append]
      rfl
    · show linesOf (s.taken ++ [.line text]) = s.disk ++ (s.buffer ++ [text])
      rw [lines_append, h.lines, List.append_assoc]
      rfl
    · show linesOf (s.taken ++ [.barrier ticket]) = s.disk ++ s.buffer ++ []
      rw [lines_append, h.lines]
      rfl
    · intro front t back (heq : s.taken ++ [.line text] = front ++ .barrier t :: back)
      rcases List.eq_nil_or_concat back with rfl | ⟨more, last, rfl⟩
      · cases List.append_inj_right' heq rfl
      · rw [List.concat_eq_append, ← List.cons_append, ← List.append_assoc] at heq
        exact h.flushed front t more (List.append_inj_left' heq rfl)
    · intro front t back (heq : s.taken ++ [.barrier ticket] = front ++ .barrier t :: back)
      show linesOf front <+: s.disk ++ s.buffer
      rw [← h.lines]
      exact (prefix_of_concat heq).filterMap _

theorem Counted.step (h : Counted s) (act : LogAct) : Counted (s.step act) := by
  cases act with
  | emit text => exact h.emit text
  | beginSync call =>
    show Counted (s.beginSync call)
    unfold beginSync
    split
    · apply h.set_call
      split <;> nofun
    · exact h
  | takeTicket call => exact h.take_ticket
  | sendBarrier call accepted => exact h.send_barrier accepted
  | look call timedOut =>
    show Counted (s.look call timedOut)
    unfold look
    split
    · split
      · exact h.set_call nofun
      · split
        · exact h.set_call nofun
        · exact h
    · exact h
  | write => exact h.write
  | flush => exact h.flush
  | close => exact ⟨h.nodup, h.bound, h.unsent, h.apart, h.count, h.lines, h.flushed⟩

/-! ## One call -/

/-- What a call that began behind these messages has seen so far. -/
structure Awaits (before : List LogMessage) (call : Nat) (s : FileLog) : Prop where
  queued : before <+: s.sent
  issued : ∀ t ∈ ticketsOf before, t ≤ s.requested
  earlier : ∀ k, s.calls call = .ticketed k ∨ s.calls call = .waiting k →
    1 ≤ k ∧ ∀ t ∈ ticketsOf before, t < k
  synced : s.calls call = .returned true → linesOf before <+: s.disk

variable {before : List LogMessage}

/-- Fewer barriers than the count stand among the messages, so a later one has passed. -/
theorem Counted.passed (h : Counted s) (hqueued : before <+: s.sent) {k : Nat} (hpos : 1 ≤ k)
    (hearlier : ∀ t ∈ ticketsOf before, t < k) (hcount : k ≤ s.count) :
    linesOf before <+: s.disk := by
  have hfew : ∀ front, front <+: before → (ticketsOf front).length < k := by
    intro front hfront
    have hsub : (ticketsOf front).toFinset ⊆ Finset.Ico 1 k := by
      intro t ht
      have hmem := (hfront.filterMap LogMessage.ticket?).subset (List.mem_toFinset.mp ht)
      have hsent := (hqueued.filterMap LogMessage.ticket?).subset hmem
      exact Finset.mem_Ico.mpr ⟨(h.bound t hsent).1, hearlier t hmem⟩
    have hnodup : (ticketsOf front).Nodup :=
      h.nodup.sublist ((hfront.trans hqueued).filterMap _).sublist
    have hle := Finset.card_le_card hsub
    rw [List.toFinset_card_of_nodup hnodup, Nat.card_Ico] at hle
    omega
  rw [h.count] at hcount
  rcases List.prefix_or_prefix_of_prefix (List.prefix_append s.taken s.queue) hqueued with
    htaken | ⟨more, hmore⟩
  · exact absurd (hfew _ htaken) (Nat.not_lt.mpr hcount)
  · -- the first barrier behind them flushed them
    have hlater : ticketsOf more ≠ [] := by
      intro hnil
      rw [← hmore, tickets_append, hnil, List.append_nil] at hcount
      exact absurd (hfew _ List.prefix_rfl) (Nat.not_lt.mpr hcount)
    obtain ⟨t, ht⟩ := List.exists_mem_of_ne_nil _ hlater
    obtain ⟨message, hmem, hticket⟩ := List.mem_filterMap.mp ht
    obtain ⟨front, back, hsplit⟩ := List.append_of_mem hmem
    cases message with
    | line text => cases hticket
    | barrier ticket =>
      have hall := h.flushed (before ++ front) ticket back (by
        rw [← hmore, hsplit, List.append_assoc])
      rw [lines_append] at hall
      exact (List.prefix_append _ _).trans hall

/-- A step that leaves the call where it is. -/
theorem Awaits.keep {s' : FileLog} (h : Awaits before call s) (hsent : s.sent <+: s'.sent)
    (hrequested : s.requested ≤ s'.requested) (hdisk : s.disk <+: s'.disk)
    (hcall : s'.calls call = s.calls call) : Awaits before call s' where
  queued := h.queued.trans hsent
  issued t ht := (h.issued t ht).trans hrequested
  earlier k hk := h.earlier k (hcall ▸ hk)
  synced hs := (h.synced (hcall ▸ hs)).trans hdisk

/-- A step of one call that touches neither queue nor disk. -/
theorem Awaits.move {phase : LogSyncCall} (h : Awaits before call s) (other : Nat) {requested : Nat}
    (hrequested : s.requested ≤ requested)
    (hearlier : other = call → ∀ k, phase = .ticketed k ∨ phase = .waiting k →
      1 ≤ k ∧ ∀ t ∈ ticketsOf before, t < k)
    (hsynced : other = call → phase = .returned true → linesOf before <+: s.disk) :
    Awaits before call ({ s with requested }.setCall other phase) := by
  by_cases heq : call = other
  · subst heq
    have hphase : ({ s with requested }.setCall call phase).calls call = phase :=
      Function.update_self ..
    exact
      { queued := h.queued
        issued := fun t ht => (h.issued t ht).trans hrequested
        earlier := fun k hk => hearlier rfl k (hphase ▸ hk)
        synced := fun hs => hsynced rfl (hphase ▸ hs) }
  · exact h.keep List.prefix_rfl hrequested List.prefix_rfl (Function.update_of_ne heq ..)

theorem Awaits.step (h : Awaits before call s) (hcounted : Counted s) (act : LogAct) :
    Awaits before call (s.step act) := by
  have hqueue : ∀ message : LogMessage, s.sent <+: s.taken ++ (s.queue ++ [message]) := by
    intro message
    rw [← List.append_assoc]
    exact List.prefix_append _ _
  cases act with
  | emit text => exact h.keep (hqueue _) (Nat.le_refl _) List.prefix_rfl rfl
  | beginSync other =>
    show Awaits before call (s.beginSync other)
    unfold beginSync
    split
    · apply h.move other (Nat.le_refl s.requested)
      · intro _ k hk
        split at hk <;> exact absurd hk (by simp)
      · intro _ hs
        split at hs <;> cases hs
    · exact h
  | takeTicket other =>
    show Awaits before call (s.takeTicket other)
    unfold takeTicket
    split
    · apply h.move other (Nat.le_succ s.requested)
      · intro _ k hk
        rcases hk with hk | hk
        · obtain rfl := LogSyncCall.ticketed.inj hk
          exact ⟨Nat.succ_pos _, fun t ht => Nat.lt_succ_of_le (h.issued t ht)⟩
        · cases hk
      · nofun
    · exact h
  | sendBarrier other accepted =>
    show Awaits before call (s.sendBarrier other accepted)
    unfold sendBarrier
    split
    · rename_i ticket hcall
      split
      · have hsent : Awaits before call { s with queue := s.queue ++ [.barrier ticket] } :=
          h.keep (hqueue _) (Nat.le_refl _) List.prefix_rfl rfl
        apply hsent.move other (Nat.le_refl s.requested)
        · intro heq k hk
          rcases hk with hk | hk
          · cases hk
          · obtain rfl := LogSyncCall.waiting.inj hk
            exact h.earlier ticket (.inl (heq ▸ hcall))
        · nofun
      · exact h.move other (Nat.le_refl s.requested) (fun _ k hk => absurd hk (by simp)) nofun
    · exact h
  | look other timedOut =>
    show Awaits before call (s.look other timedOut)
    unfold look
    split
    · rename_i ticket hcall
      split
      · rename_i hcount
        apply h.move other (Nat.le_refl s.requested)
        · exact fun _ k hk => absurd hk (by simp)
        · intro heq _
          obtain ⟨hpos, hearlier⟩ := h.earlier ticket (.inr (heq ▸ hcall))
          exact hcounted.passed h.queued hpos hearlier hcount
      · split
        · exact h.move other (Nat.le_refl s.requested) (fun _ k hk => absurd hk (by simp)) nofun
        · exact h
    · exact h
  | write =>
    obtain ⟨hsent, hrequested, hcalls⟩ := write_next_keeps s
    exact h.keep (hsent ▸ List.prefix_rfl) (Nat.le_of_eq hrequested.symm) (write_next_disk s)
      (congrFun hcalls call)
  | flush => exact h.keep List.prefix_rfl (Nat.le_refl _) (List.prefix_append _ _) rfl
  | close => exact h.keep List.prefix_rfl (Nat.le_refl _) List.prefix_rfl rfl

theorem Counted.awaits (h : Counted s) (hidle : s.calls call = .idle) :
    Awaits s.sent call s where
  queued := List.prefix_rfl
  issued t ht := (h.bound t ht).2
  earlier k hk := by
    rw [hidle] at hk
    exact absurd hk (by simp)
  synced hs := by
    rw [hidle] at hs
    cases hs

theorem counted_run (acts : List LogAct) : Counted (exec step {} acts) :=
  exec_invariant (I := Counted) (A := fun _ _ => True) (fun _ act h _ => h.step act) counted_new
    (fun _ _ _ => trivial) acts List.prefix_rfl

/-- A call that returns true has every line that was queued before it began on disk, whatever the
emitters, the other calls, the writer and a close do in between. -/
theorem sync_has_synced (before after : List LogAct) (call : Nat)
    (hidle : (exec step {} before).calls call = .idle)
    (hsynced : (exec step {} (before ++ .beginSync call :: after)).calls call = .returned true) :
    linesOf (exec step {} before).sent <+:
      (exec step {} (before ++ .beginSync call :: after)).disk := by
  have hstart := (counted_run before).awaits hidle
  have hrun : Counted (exec step {} (before ++ .beginSync call :: after)) ∧
      Awaits (exec step {} before).sent call
        (exec step {} (before ++ .beginSync call :: after)) := by
    rw [exec_append]
    exact exec_invariant
      (I := fun s => Counted s ∧ Awaits (exec step {} before).sent call s) (A := fun _ _ => True)
      (fun _ act h _ => ⟨h.1.step act, h.2.step h.1 act⟩) ⟨counted_run before, hstart⟩
      (fun _ _ _ => trivial) _ List.prefix_rfl
  exact hrun.2.synced hsynced

/-- The second call takes the later ticket and queues the earlier barrier, which releases the
first. -/
theorem sync_has_synced_crossed :
    linesOf (exec step {} [.emit ⟨[104], by decide⟩]).sent <+:
      (exec step {} ([.emit ⟨[104], by decide⟩] ++ .beginSync 0 ::
        [.takeTicket 0, .beginSync 1, .takeTicket 1, .sendBarrier 1 true, .emit ⟨[105], by decide⟩,
          .write, .write, .sendBarrier 0 true, .look 0 false])).disk :=
  sync_has_synced _ _ 0 rfl (by decide)

end FileLog

end TeamClaude
