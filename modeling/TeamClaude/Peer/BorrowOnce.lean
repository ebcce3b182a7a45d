import TeamClaude.Peer.Borrow

/-!
# A borrowed request runs at most once

A lender sends a body upstream only after it has read the frame that ends it, and the borrower sets
its flag with that frame: an exchange that may still run is the one the borrower stopped at. The
hand-mode send has no such flag, and a redirected request that then fails to connect is taken for
one that never left.
-/

namespace TeamClaude

namespace Exchange

variable {e : Exchange}

/-- The lender may have the whole body and has not refused it. -/
def outstanding (e : Exchange) : Bool :=
  e.wroteBody && !e.refused

/-- What every exchange keeps, whoever moves. -/
structure Sound (e : Exchange) : Prop where
  queued : .bodyEnd ∈ e.toLender → e.wroteBody = true
  held : ∀ body, e.phase = .holding body → e.wroteBody = true
  sent : e.upstream ≠ none → e.wroteBody = true ∧
    (e.phase = .running ∨ (∃ unsent, e.phase = .answering unsent) ∨ e.phase = .closed)
  refused : e.refused = true → e.upstream = none ∧ e.phase = .closed
  told : .replyRefused ∈ e.toBorrower → e.refused = true
  answer : ∀ unsent, e.phase = .answering unsent → .replyRefused ∉ unsent

theorem sound_open (lender : PeerId) : Sound { lender } := by
  constructor <;> simp

/-- A lender that has sent the body upstream has not refused it. -/
theorem Sound.outstanding_of_sent (h : e.Sound) (hs : e.upstream ≠ none) : e.outstanding = true := by
  unfold outstanding
  rw [(h.sent hs).1]
  cases hr : e.refused with
  | false => rfl
  | true => exact absurd (h.refused hr).1 hs

theorem replyRefused_notMem_bodyFrames (body : Body) : .replyRefused ∉ bodyFrames body := by
  simp [bodyFrames]

theorem Sound.refuseBody (h : e.Sound) (hs : e.upstream = none) : e.refuseBody.Sound := by
  constructor
  · exact h.queued
  · simp [Exchange.refuseBody]
  · exact fun hn => absurd hs hn
  · exact fun _ => ⟨hs, rfl⟩
  · exact fun _ => rfl
  · simp [Exchange.refuseBody]

/-- Closing a stream sends nothing. -/
theorem Sound.close (h : e.Sound) : Sound { e with phase := .closed } := by
  constructor
  · exact h.queued
  · simp
  · exact fun hs => ⟨(h.sent hs).1, .inr (.inr rfl)⟩
  · exact fun hr => ⟨(h.refused hr).1, rfl⟩
  · exact h.told
  · simp

/-- Before the body is read nothing has been sent and nothing refused. -/
theorem Sound.early (h : e.Sound) (hrun : e.phase ≠ .running)
    (hanswer : ∀ unsent, e.phase ≠ .answering unsent) (hclosed : e.phase ≠ .closed) :
    e.upstream = none ∧ e.refused = false := by
  constructor
  · by_contra hs
    rcases (h.sent hs).2 with hp | ⟨unsent, hp⟩ | hp
    · exact hrun hp
    · exact hanswer unsent hp
    · exact hclosed hp
  · by_contra hr
    exact hclosed (h.refused (by simpa using hr)).2

/-- A lender that has sent nothing moves on, and answers no refusal of the body. -/
theorem Sound.advance (h : e.Sound) (hs : e.upstream = none) (hr : e.refused = false)
    {phase : LenderPhase} {frames : List Frame} (hframes : .replyRefused ∉ frames)
    (hheld : ∀ body, phase = .holding body → e.wroteBody = true)
    (hanswer : ∀ unsent, phase = .answering unsent → .replyRefused ∉ unsent) :
    Sound { e with phase, toBorrower := e.toBorrower ++ frames } := by
  constructor
  · exact h.queued
  · exact hheld
  · exact fun hn => absurd hs hn
  · exact fun hn => absurd hn (by simp [hr])
  · intro hin
    rcases List.mem_append.mp hin with hin | hin
    · exact h.told hin
    · exact absurd hin hframes
  · exact hanswer

theorem Sound.reading (h : e.Sound) {frame : Frame} {rest : List Frame}
    (hq : e.toLender = frame :: rest) : Sound { e with toLender := rest } :=
  ⟨fun hin => h.queued (by rw [hq]; exact List.mem_cons_of_mem _ hin), h.held, h.sent, h.refused,
    h.told, h.answer⟩

theorem sound_lender_reads (h : e.Sound) (hs : e.upstream = none) (hr : e.refused = false)
    (verdict : Verdict) {frame : Frame} (hframe : frame = .bodyEnd → e.wroteBody = true) :
    (e.lenderReads verdict frame).Sound := by
  have hmove : ∀ phase, (∀ body, phase = .holding body → e.wroteBody = true) →
      (∀ unsent, phase ≠ .answering unsent) → Sound { e with phase } := by
    intro phase hheld hanswer
    have hadvance := h.advance hs hr (show Frame.replyRefused ∉ [] from List.not_mem_nil) hheld
      fun unsent he => absurd he (hanswer unsent)
    rwa [List.append_nil] at hadvance
  unfold lenderReads
  split
  · exact hmove _ nofun nofun
  · split
    · exact hmove _ nofun nofun
    · exact h.advance hs hr (by simp) nofun nofun
    · exact h.advance hs hr (by simp) nofun nofun
  · split
    · exact h.refuseBody hs
    · exact hmove _ nofun nofun
  · split
    · exact hmove _ (fun _ _ => hframe rfl) nofun
    · exact h.refuseBody hs
  · exact hmove _ nofun nofun

/-- No step of the lender's half breaks an exchange. -/
theorem sound_lender_step (h : e.Sound) (act : LenderAct) : (e.lenderStep act).Sound := by
  cases act with
  | reads verdict =>
    have hread : ∀ frame rest, e.toLender = frame :: rest → e.upstream = none ∧ e.refused = false →
        ({ e with toLender := rest }.lenderReads verdict frame).Sound := by
      intro frame rest hq hearly
      refine sound_lender_reads (h.reading hq) hearly.1 hearly.2 verdict ?_
      rintro rfl
      exact h.queued (by rw [hq]; exact List.mem_cons_self)
    simp only [lenderStep]
    split
    · rename_i hp hq
      exact hread _ _ hq (h.early (by simp [hp]) (by simp [hp]) (by simp [hp]))
    · rename_i hp hq
      exact hread _ _ hq (h.early (by simp [hp]) (by simp [hp]) (by simp [hp]))
    · rename_i hp hq
      exact hread _ _ hq (h.early (by simp [hp]) (by simp [hp]) (by simp [hp]))
    · exact h
  | readFails =>
    simp only [lenderStep]
    split
    · exact h.close
    · exact h.close
    · rename_i hp
      exact h.refuseBody (h.early (by simp [hp]) (by simp [hp]) (by simp [hp])).1
    · exact h
  | sends =>
    simp only [lenderStep]
    split
    · rename_i body hp
      have hearly := h.early (by simp [hp]) (by simp [hp]) (by simp [hp])
      exact ⟨h.queued, nofun, fun _ => ⟨h.held body hp, .inl rfl⟩,
        fun hr => absurd hr (by simp [hearly.2]), h.told, nofun⟩
    · exact h
  | answers reply =>
    simp only [lenderStep]
    split
    · rename_i hp
      refine ⟨h.queued, nofun, fun hs => ⟨(h.sent hs).1, .inr (.inl ⟨_, rfl⟩)⟩, ?_, h.told, ?_⟩
      · intro hr
        have hclosed := (h.refused hr).2
        rw [hp] at hclosed
        cases hclosed
      · intro unsent hanswer
        cases hanswer
        simpa using replyRefused_notMem_bodyFrames reply
    · exact h
  | writes =>
    simp only [lenderStep]
    split
    · rename_i frame unsent hp
      have hunsent := h.answer _ hp
      rw [List.mem_cons, not_or] at hunsent
      refine ⟨h.queued, nofun, fun hs => ⟨(h.sent hs).1, .inr (.inl ⟨_, rfl⟩)⟩, ?_, ?_, ?_⟩
      · intro hr
        have hclosed := (h.refused hr).2
        rw [hp] at hclosed
        cases hclosed
      · intro hin
        rcases List.mem_append.mp hin with hin | hin
        · exact h.told hin
        · exact absurd (List.mem_singleton.mp hin) hunsent.1
      · intro rest hanswer
        cases hanswer
        exact hunsent.2
    · exact h
  | fails => exact h.close

/-- A lender neither writes the borrower's body nor takes a refusal back. -/
theorem lender_step_frame (e : Exchange) (act : LenderAct) :
    (e.lenderStep act).lender = e.lender ∧ (e.lenderStep act).wroteBody = e.wroteBody ∧
      (e.refused = true → (e.lenderStep act).refused = true) := by
  have hreads : ∀ (e : Exchange) verdict frame, (e.lenderReads verdict frame).lender = e.lender ∧
      (e.lenderReads verdict frame).wroteBody = e.wroteBody ∧
      (e.refused = true → (e.lenderReads verdict frame).refused = true) := by
    intro e verdict frame
    unfold lenderReads
    split
    · exact ⟨rfl, rfl, id⟩
    · split <;> exact ⟨rfl, rfl, id⟩
    · split
      · exact ⟨rfl, rfl, fun _ => rfl⟩
      · exact ⟨rfl, rfl, id⟩
    · split
      · exact ⟨rfl, rfl, id⟩
      · exact ⟨rfl, rfl, fun _ => rfl⟩
    · exact ⟨rfl, rfl, id⟩
  cases act with
  | reads verdict =>
    simp only [lenderStep]
    split
    · exact hreads _ verdict _
    · exact hreads _ verdict _
    · exact hreads _ verdict _
    · exact ⟨rfl, rfl, id⟩
  | readFails =>
    simp only [lenderStep]
    split
    · exact ⟨rfl, rfl, id⟩
    · exact ⟨rfl, rfl, id⟩
    · exact ⟨rfl, rfl, fun _ => rfl⟩
    · exact ⟨rfl, rfl, id⟩
  | sends | answers reply | writes =>
    simp only [lenderStep]
    split <;> exact ⟨rfl, rfl, id⟩
  | fails => exact ⟨rfl, rfl, id⟩

theorem outstanding_lender_step (act : LenderAct) (h : (e.lenderStep act).outstanding = true) :
    e.outstanding = true := by
  obtain ⟨-, hw, hr⟩ := e.lender_step_frame act
  unfold outstanding at h ⊢
  rw [Bool.and_eq_true, Bool.not_eq_true', hw] at h
  rw [Bool.and_eq_true, Bool.not_eq_true']
  refine ⟨h.1, ?_⟩
  by_contra hrefused
  rw [hr (by simpa using hrefused)] at h
  exact absurd h.2 (by decide)

end Exchange

/-! ## The borrower's loop -/

/-- No exchange may still run. -/
def Spent (exchanges : List Exchange) : Prop :=
  ∀ e ∈ exchanges, e.outstanding = false

section Modify

variable {exchanges : List Exchange} {nth : Nat} {act : LenderAct}

theorem mem_lender_step {e : Exchange}
    (h : e ∈ exchanges.modify nth fun e => e.lenderStep act) :
    e ∈ exchanges ∨ ∃ before ∈ exchanges, e = before.lenderStep act := by
  induction exchanges generalizing nth with
  | nil => simp at h
  | cons first rest ih =>
    cases nth with
    | zero =>
      rw [List.modify_zero_cons] at h
      rcases List.mem_cons.mp h with rfl | h
      · exact .inr ⟨first, List.mem_cons_self, rfl⟩
      · exact .inl (List.mem_cons_of_mem _ h)
    | succ nth =>
      rw [List.modify_succ_cons] at h
      rcases List.mem_cons.mp h with rfl | h
      · exact .inl List.mem_cons_self
      · rcases ih h with h | ⟨before, hb, rfl⟩
        · exact .inl (List.mem_cons_of_mem _ h)
        · exact .inr ⟨before, List.mem_cons_of_mem _ hb, rfl⟩

theorem spent_lender_step (h : Spent exchanges) :
    Spent (exchanges.modify nth fun e => e.lenderStep act) := by
  intro e hin
  rcases mem_lender_step hin with hin | ⟨before, hb, rfl⟩
  · exact h e hin
  · by_contra hrun
    rw [Bool.not_eq_false] at hrun
    have hbefore := Exchange.outstanding_lender_step act hrun
    rw [h before hb] at hbefore
    cases hbefore

theorem cons_lender_step (e : Exchange) (es : List Exchange) (hs : Spent es) :
    ∃ e' es', (e :: es).modify nth (fun e => e.lenderStep act) = e' :: es' ∧ Spent es' ∧
      e'.lender = e.lender := by
  cases nth with
  | zero => exact ⟨e.lenderStep act, es, rfl, hs, (e.lender_step_frame act).1⟩
  | succ nth => exact ⟨e, es.modify nth fun e => e.lenderStep act, rfl, spent_lender_step hs, rfl⟩

end Modify

namespace Borrow

/-- Nothing has crossed that may still run. -/
structure Idle (s : Borrow) : Prop where
  flag : s.delivered = false
  spent : Spent s.exchanges
  unsent : s.handSends = []

/-- The body has crossed to the newest lender, and to no other that may still run. -/
structure Crossed (s : Borrow) : Prop where
  flag : s.delivered = true
  newest : ∃ e es, s.exchanges = e :: es ∧ Spent es
  unsent : s.handSends = []

/-- The body has left on one handed bearer. -/
structure Left (s : Borrow) : Prop where
  flag : s.delivered = false
  spent : Spent s.exchanges
  sent : s.handSends.length = 1

/-- The loop has ended, and at most one sender can have had the body. -/
def Over (s : Borrow) (outcome : BorrowOutcome) : Prop :=
  (Spent s.exchanges ∧ s.handSends.length ≤ 1) ∨
  (outcome ≠ .notServed ∧ s.handSends = [] ∧ ∃ e es, s.exchanges = e :: es ∧ Spent es ∧
    ∀ lender, outcome = .served lender → lender = e.lender)

/-- What may still run, where the borrower stands. -/
def Stage (s : Borrow) : BorrowPhase → Prop
  | .asking | .connecting _ false => s.Idle
  | .opening unsent => s.Idle ∧ s.exchanges ≠ [] ∧ .bodyEnd ∉ unsent
  | .awaitingAck => s.Idle ∧ s.exchanges ≠ []
  | .sending unsent =>
    s.Idle ∧ s.exchanges ≠ [] ∧ ∃ chunks, unsent = chunks ++ [.bodyEnd] ∧ .bodyEnd ∉ chunks
  | .awaitingReply | .receiving _ _ => s.Crossed
  | .connecting _ true | .exchanging _ => s.Left
  | .done outcome => s.Over outcome

/-- What every run of the loop keeps. -/
structure Safe (s : Borrow) : Prop where
  sound : ∀ e ∈ s.exchanges, e.Sound
  stage : s.Stage s.phase

variable {s : Borrow}

/-- What keeps each of the four situations keeps the stage. -/
theorem Stage.mono {t : Borrow} (hidle : s.Idle → t.Idle)
    (hne : s.exchanges ≠ [] → t.exchanges ≠ []) (hcrossed : s.Crossed → t.Crossed)
    (hleft : s.Left → t.Left) (hover : ∀ outcome, s.Over outcome → t.Over outcome)
    {phase : BorrowPhase} (h : s.Stage phase) : t.Stage phase := by
  cases phase with
  | asking => exact hidle h
  | opening unsent => exact ⟨hidle h.1, hne h.2.1, h.2.2⟩
  | awaitingAck => exact ⟨hidle h.1, hne h.2⟩
  | sending unsent => exact ⟨hidle h.1, hne h.2.1, h.2.2⟩
  | awaitingReply => exact hcrossed h
  | receiving promised got => exact hcrossed h
  | connecting lender left =>
    cases left with
    | false => exact hidle h
    | true => exact hleft h
  | exchanging lender => exact hleft h
  | done outcome => exact hover outcome h

theorem safe_start (body : Body) (lenders : List PeerId) : (start body lenders).Safe :=
  ⟨nofun, ⟨rfl, nofun, rfl⟩⟩

theorem safe_lender (h : s.Safe) (nth : Nat) (act : LenderAct) :
    (s.step (.lender nth act)).Safe := by
  have hidle : s.Idle → (s.step (.lender nth act)).Idle := fun hi =>
    ⟨hi.flag, spent_lender_step hi.spent, hi.unsent⟩
  have hne : s.exchanges ≠ [] → (s.step (.lender nth act)).exchanges ≠ [] := by
    intro hn he
    have hlength := congrArg List.length he
    rw [step, List.length_modify, List.length_nil, List.length_eq_zero_iff] at hlength
    exact hn hlength
  have hcrossed : s.Crossed → (s.step (.lender nth act)).Crossed := by
    rintro ⟨hflag, ⟨e, es, hes, hs⟩, hunsent⟩
    obtain ⟨e', es', heq, hspent, -⟩ := @cons_lender_step nth act e es hs
    exact ⟨hflag, ⟨e', es', by rw [step, hes, heq], hspent⟩, hunsent⟩
  have hleft : s.Left → (s.step (.lender nth act)).Left := fun hl =>
    ⟨hl.flag, spent_lender_step hl.spent, hl.sent⟩
  have hover : ∀ outcome, s.Over outcome → (s.step (.lender nth act)).Over outcome := by
    rintro outcome (⟨hs, hlen⟩ | ⟨hne, hunsent, e, es, hes, hs, hserved⟩)
    · exact .inl ⟨spent_lender_step hs, hlen⟩
    · obtain ⟨e', es', heq, hspent, hlender⟩ := @cons_lender_step nth act e es hs
      exact .inr ⟨hne, hunsent, e', es', by rw [step, hes, heq], hspent,
        fun lender ho => (hserved lender ho).trans hlender.symm⟩
  refine ⟨fun e hin => ?_, h.stage.mono hidle hne hcrossed hleft hover⟩
  rcases mem_lender_step hin with hin | ⟨before, hb, rfl⟩
  · exact h.sound e hin
  · exact Exchange.sound_lender_step (h.sound before hb) act

/-! ## The borrower's steps -/

theorem safe_next (hsound : ∀ e ∈ s.exchanges, e.Sound) (hs : Spent s.exchanges)
    (hsent : s.handSends = []) : s.next.Safe :=
  ⟨hsound, ⟨rfl, hs, hsent⟩⟩

theorem safe_give_up (hsound : ∀ e ∈ s.exchanges, e.Sound) (h : s.Idle ∨ s.Crossed) :
    s.giveUp.Safe := by
  unfold giveUp
  rcases h with h | h
  · rw [h.flag]
    exact safe_next hsound h.spent h.unsent
  · rw [h.flag]
    obtain ⟨e, es, hes, hs⟩ := h.newest
    exact ⟨hsound, .inr ⟨nofun, h.unsent, e, es, hes, hs, nofun⟩⟩

theorem safe_cancel (h : s.Safe) (outcome : BorrowOutcome) (hnone : outcome ≠ .notServed)
    (hserved : ∀ lender, outcome ≠ .served lender) : (s.finish outcome).Safe := by
  refine ⟨h.sound, ?_⟩
  have hidle : s.Idle → s.Over outcome := fun hi =>
    .inl ⟨hi.spent, by rw [hi.unsent]; exact Nat.zero_le _⟩
  have hcrossed : s.Crossed → s.Over outcome := fun hc => by
    obtain ⟨e, es, hes, hs⟩ := hc.newest
    exact .inr ⟨hnone, hc.unsent, e, es, hes, hs, fun lender ho => absurd ho (hserved lender)⟩
  have hleft : s.Left → s.Over outcome := fun hl => .inl ⟨hl.spent, hl.sent.le⟩
  have hstage := h.stage
  show s.Over outcome
  cases hp : s.phase with
  | asking => rw [hp] at hstage; exact hidle hstage
  | opening unsent => rw [hp] at hstage; exact hidle hstage.1
  | awaitingAck => rw [hp] at hstage; exact hidle hstage.1
  | sending unsent => rw [hp] at hstage; exact hidle hstage.1
  | awaitingReply => rw [hp] at hstage; exact hcrossed hstage
  | receiving promised got => rw [hp] at hstage; exact hcrossed hstage
  | connecting lender left =>
    rw [hp] at hstage
    cases left with
    | false => exact hidle hstage
    | true => exact hleft hstage
  | exchanging lender => rw [hp] at hstage; exact hleft hstage
  | done before =>
    rw [hp] at hstage
    rcases hstage with hs | ⟨-, hunsent, e, es, hes, hs, -⟩
    · exact .inl hs
    · exact .inr ⟨hnone, hunsent, e, es, hes, hs, fun lender ho => absurd ho (hserved lender)⟩

theorem sound_write (hsound : ∀ e ∈ s.exchanges, e.Sound) (frame : Frame) :
    ∀ e ∈ (s.write frame).exchanges, e.Sound := by
  unfold write onStream
  cases hes : s.exchanges with
  | nil => simp [hes]
  | cons e es =>
    rw [hes] at hsound
    have he := hsound e List.mem_cons_self
    intro e' hin
    rcases List.mem_cons.mp hin with rfl | hin
    · refine ⟨?_, fun body hb => ?_, fun hs => ?_, he.refused, he.told, he.answer⟩
      · intro hin
        rcases List.mem_append.mp hin with hin | hin
        · simp [he.queued hin]
        · simp [List.mem_singleton.mp hin]
      · simp [he.held body hb]
      · exact ⟨by simp [(he.sent hs).1], (he.sent hs).2⟩
    · exact hsound e' (List.mem_cons_of_mem _ hin)

theorem spent_write (hs : Spent s.exchanges) {frame : Frame} (hframe : frame ≠ .bodyEnd) :
    Spent (s.write frame).exchanges := by
  unfold write onStream
  cases hes : s.exchanges with
  | nil => simpa [hes] using hs
  | cons e es =>
    rw [hes] at hs
    intro e' hin
    rcases List.mem_cons.mp hin with rfl | hin
    · have he := hs e List.mem_cons_self
      simpa [Exchange.outstanding, hframe] using he
    · exact hs e' (List.mem_cons_of_mem _ hin)

theorem write_frame (s : Borrow) (frame : Frame) : (s.write frame).handSends = s.handSends ∧
    (s.write frame).delivered = s.delivered := by
  unfold write onStream
  split <;> exact ⟨rfl, rfl⟩

theorem write_newest (hne : s.exchanges ≠ []) (hs : Spent s.exchanges) (frame : Frame) :
    ∃ e es, (s.write frame).exchanges = e :: es ∧ Spent es := by
  unfold write onStream
  cases hes : s.exchanges with
  | nil => exact absurd hes hne
  | cons e es =>
    rw [hes] at hs
    exact ⟨_, es, rfl, fun e' hin => hs e' (List.mem_cons_of_mem _ hin)⟩

/-- A redirected hand-mode request reaches the place it is redirected to. -/
def Reaches (s : Borrow) : BorrowAct → Prop
  | .borrower .connectFails => ∀ lender, s.phase ≠ .connecting lender true
  | _ => True

theorem safe_lease (h : s.Safe) (handed : Option Bool) :
    (s.borrowerStep (.lease handed)).Safe := by
  simp only [borrowerStep]
  split
  · rename_i hp hr
    have hidle : s.Idle := by simpa [hp, Stage] using h.stage
    exact ⟨h.sound, .inl ⟨hidle.spent, by simp [finish, hidle.unsent]⟩⟩
  · rename_i lender rest hp hr
    have hidle : s.Idle := by simpa [hp, Stage] using h.stage
    split
    · refine ⟨h.sound, ?_⟩
      show Stage _ s.phase
      rw [hp]
      exact ⟨hidle.flag, hidle.spent, hidle.unsent⟩
    · exact ⟨h.sound, hidle.flag, hidle.spent, hidle.unsent⟩
    · refine ⟨fun e hin => ?_, ⟨hidle.flag, fun e hin => ?_, hidle.unsent⟩, List.cons_ne_nil _ _,
        by simp⟩
      · rcases List.mem_cons.mp hin with rfl | hin
        · exact Exchange.sound_open lender
        · exact h.sound e hin
      · rcases List.mem_cons.mp hin with rfl | hin
        · rfl
        · exact hidle.spent e hin
  · exact h

theorem safe_writes (h : s.Safe) : (s.borrowerStep .writes).Safe := by
  have hstage := h.stage
  simp only [borrowerStep]
  split
  · rename_i frame unsent hp
    rw [hp] at hstage
    obtain ⟨hidle, hne, hunsent⟩ := hstage
    rw [List.mem_cons, not_or] at hunsent
    have hidle' : (s.write frame).Idle :=
      ⟨(s.write_frame frame).2.trans hidle.flag, spent_write hidle.spent (Ne.symm hunsent.1),
        (s.write_frame frame).1.trans hidle.unsent⟩
    have hne' : (s.write frame).exchanges ≠ [] := by
      obtain ⟨e, es, hes, -⟩ := write_newest hne hidle.spent frame
      rw [hes]
      exact List.cons_ne_nil _ _
    refine ⟨sound_write h.sound frame, ?_⟩
    split
    · exact ⟨⟨hidle'.flag, hidle'.spent, hidle'.unsent⟩, hne'⟩
    · exact ⟨⟨hidle'.flag, hidle'.spent, hidle'.unsent⟩, hne', hunsent.2⟩
  · rename_i frame unsent hp
    rw [hp] at hstage
    obtain ⟨hidle, hne, chunks, hchunks, hend⟩ := hstage
    refine ⟨sound_write h.sound frame, ?_⟩
    have hsent := (s.write_frame frame).1.trans hidle.unsent
    by_cases hlast : unsent = []
    · rw [if_pos hlast]
      exact ⟨decide_eq_true hlast, write_newest hne hidle.spent frame, hsent⟩
    · rw [if_neg hlast]
      cases chunks with
      | nil =>
        rw [List.nil_append, List.cons.injEq] at hchunks
        exact absurd hchunks.2 hlast
      | cons first chunks =>
        rw [List.cons_append, List.cons.injEq] at hchunks
        rw [List.mem_cons, not_or] at hend
        obtain ⟨rfl, hrest⟩ := hchunks
        obtain ⟨e, es, hes, -⟩ := write_newest hne hidle.spent frame
        refine ⟨⟨decide_eq_false hlast, spent_write hidle.spent (Ne.symm hend.1), hsent⟩, ?_, chunks,
          hrest, hend.2⟩
        show (s.write frame).exchanges ≠ []
        rw [hes]
        exact List.cons_ne_nil _ _
  · exact h

/-- Taking a frame off the stream changes nothing that may still run. -/
theorem safe_take (h : s.Safe) {e : Exchange} {es : List Exchange} {frame : Frame}
    {rest : List Frame} (hes : s.exchanges = e :: es) (hq : e.toBorrower = frame :: rest) :
    (s.onStream fun e => { e with toBorrower := rest }).Safe := by
  obtain ⟨hsound, hstage⟩ := h
  have hexchanges : s.onStream (fun e => { e with toBorrower := rest }) =
      { s with exchanges := { e with toBorrower := rest } :: es } := by
    simp [onStream, hes]
  have he := hsound e (by rw [hes]; exact List.mem_cons_self)
  have hspent : Spent s.exchanges → Spent ({ e with toBorrower := rest } :: es) := by
    intro hs e' hin
    rcases List.mem_cons.mp hin with rfl | hin
    · exact hs e (by rw [hes]; exact List.mem_cons_self)
    · exact hs e' (by rw [hes]; exact List.mem_cons_of_mem _ hin)
  have hnewest : (∃ e es, s.exchanges = e :: es ∧ Spent es) → Spent es := by
    rintro ⟨e', es', heq, hs⟩
    rw [hes, List.cons.injEq] at heq
    rw [heq.2]
    exact hs
  rw [hexchanges]
  refine ⟨fun e' hin => ?_, ?_⟩
  · rcases List.mem_cons.mp hin with rfl | hin
    · exact ⟨he.queued, he.held, he.sent, he.refused,
        fun hin => he.told (by rw [hq]; exact List.mem_cons_of_mem _ hin), he.answer⟩
    · exact hsound e' (by rw [hes]; exact List.mem_cons_of_mem _ hin)
  · refine Stage.mono (s := s) (t := { s with exchanges := { e with toBorrower := rest } :: es })
      (fun hi => ⟨hi.flag, hspent hi.spent, hi.unsent⟩)
      (fun _ => List.cons_ne_nil _ _)
      (fun hc => ⟨hc.flag, ⟨_, es, rfl, hnewest hc.newest⟩, hc.unsent⟩)
      (fun hl => ⟨hl.flag, hspent hl.spent, hl.sent⟩) ?_ hstage
    rintro outcome (⟨hs, hlen⟩ | ⟨hne, hunsent, e', es', heq, hs, hserved⟩)
    · exact .inl ⟨hspent hs, hlen⟩
    · rw [hes, List.cons.injEq] at heq
      obtain ⟨rfl, rfl⟩ := heq
      exact .inr ⟨hne, hunsent, _, es, rfl, hs, hserved⟩

/-- A reply is acted on with the body still at one lender at most. -/
theorem safe_borrower_reads (h : s.Safe) {e : Exchange} {es : List Exchange} {frame : Frame}
    (hes : s.exchanges = e :: es) (hrefused : frame = .replyRefused → e.refused = true)
    (hphase : s.phase = .awaitingAck ∨ s.phase = .awaitingReply ∨
      ∃ promised got, s.phase = .receiving promised got) :
    (s.borrowerReads e.lender frame).Safe := by
  have hstage := h.stage
  have hup : s.giveUp.Safe := by
    refine safe_give_up h.sound ?_
    rcases hphase with hp | hp | ⟨promised, got, hp⟩
    · rw [hp] at hstage
      exact .inl hstage.1
    · rw [hp] at hstage
      exact .inr hstage
    · rw [hp] at hstage
      exact .inr hstage
  unfold borrowerReads
  split
  · rename_i hp
    rw [hp] at hstage
    exact ⟨h.sound, ⟨hstage.1.flag, hstage.1.spent, hstage.1.unsent⟩, hstage.2, _, rfl,
      by simp⟩
  · rename_i hp hack
    rw [hp] at hstage
    exact safe_next h.sound hstage.1.spent hstage.1.unsent
  · rename_i hp
    rw [hp] at hstage
    obtain ⟨e', es', heq, hs⟩ := hstage.newest
    rw [hes, List.cons.injEq] at heq
    refine safe_next h.sound ?_ hstage.unsent
    intro e'' hin
    rw [hes] at hin
    rcases List.mem_cons.mp hin with rfl | hin
    · simp [Exchange.outstanding, hrefused rfl]
    · exact hs e'' (heq.2 ▸ hin)
  · rename_i hp
    rw [hp] at hstage
    exact ⟨h.sound, hstage.flag, hstage.newest, hstage.unsent⟩
  · rename_i hp
    rw [hp] at hstage
    split
    · exact hup
    · exact ⟨h.sound, hstage.flag, hstage.newest, hstage.unsent⟩
  · rename_i hp
    rw [hp] at hstage
    split
    · obtain ⟨e', es', heq, hs⟩ := hstage.newest
      rw [hes, List.cons.injEq] at heq
      obtain ⟨rfl, rfl⟩ := heq
      refine ⟨h.sound, .inr ⟨nofun, hstage.unsent, e, es, hes, hs, fun lender ho => ?_⟩⟩
      cases ho
      rfl
    · exact hup
  · exact hup

theorem safe_reads (h : s.Safe) : (s.borrowerStep .reads).Safe := by
  have hread : ∀ e es frame rest, s.exchanges = e :: es → e.toBorrower = frame :: rest →
      (s.phase = .awaitingAck ∨ s.phase = .awaitingReply ∨
        ∃ promised got, s.phase = .receiving promised got) →
      ((s.onStream fun e => { e with toBorrower := rest }).borrowerReads e.lender frame).Safe := by
    intro e es frame rest hes hq hphase
    have htake := safe_take h hes hq
    have he := h.sound e (by rw [hes]; exact List.mem_cons_self)
    have hexchanges : s.onStream (fun e => { e with toBorrower := rest }) =
        { s with exchanges := { e with toBorrower := rest } :: es } := by
      simp [onStream, hes]
    rw [hexchanges] at htake ⊢
    refine safe_borrower_reads htake (e := { e with toBorrower := rest }) rfl ?_ hphase
    rintro rfl
    exact he.told (by rw [hq]; exact List.mem_cons_self)
  simp only [borrowerStep]
  split
  · rename_i hp hes
    exact hread _ _ _ _ hes rfl (.inl hp)
  · rename_i hp hes
    exact hread _ _ _ _ hes rfl (.inr (.inl hp))
  · rename_i hp hes
    exact hread _ _ _ _ hes rfl (.inr (.inr ⟨_, _, hp⟩))
  · exact h

theorem safe_borrower (h : s.Safe) {act : BorrowerAct} (ha : s.Reaches (.borrower act)) :
    (s.step (.borrower act)).Safe := by
  have hstage := h.stage
  cases act with
  | lease handed => exact safe_lease h handed
  | writes => exact safe_writes h
  | reads => exact safe_reads h
  | fails =>
    simp only [step, borrowerStep]
    split
    · rename_i hp
      rw [hp] at hstage
      exact safe_give_up h.sound (.inl hstage.1)
    · rename_i hp
      rw [hp] at hstage
      exact safe_give_up h.sound (.inl hstage.1)
    · rename_i hp
      rw [hp] at hstage
      exact safe_give_up h.sound (.inl hstage.1)
    · rename_i hp
      rw [hp] at hstage
      exact safe_give_up h.sound (.inr hstage)
    · rename_i hp
      rw [hp] at hstage
      exact safe_give_up h.sound (.inr hstage)
    · exact h
  | noBearer =>
    simp only [step, borrowerStep]
    split
    · rename_i hp
      rw [hp] at hstage
      exact safe_next h.sound hstage.spent hstage.unsent
    · exact h
  | connects =>
    simp only [step, borrowerStep]
    split
    · rename_i lender left hp
      rw [hp] at hstage
      cases left with
      | false => exact ⟨h.sound, hstage.flag, hstage.spent, by simp [hstage.unsent]⟩
      | true => exact ⟨h.sound, hstage.flag, hstage.spent, hstage.sent⟩
    · exact h
  | connectFails =>
    simp only [step, borrowerStep]
    split
    · rename_i lender left hp
      rw [hp] at hstage
      cases left with
      | false => exact safe_next h.sound hstage.spent hstage.unsent
      | true => exact absurd hp (ha lender)
    · exact h
  | redirected =>
    simp only [step, borrowerStep]
    split
    · rename_i hp
      rw [hp] at hstage
      exact ⟨h.sound, hstage.flag, hstage.spent, hstage.sent⟩
    · exact h
  | answered =>
    simp only [step, borrowerStep]
    split
    · rename_i hp
      rw [hp] at hstage
      exact ⟨h.sound, .inl ⟨hstage.spent, hstage.sent.le⟩⟩
    · exact h
  | breaks =>
    simp only [step, borrowerStep]
    split
    · exact safe_cancel h _ nofun nofun
    · exact safe_cancel h _ nofun nofun
    · exact h
  | cancelled =>
    simp only [step, borrowerStep]
    split
    · exact h
    · exact safe_cancel h _ nofun nofun

/-- How many have sent the body upstream, this node on each handed bearer counting as one. -/
def senders (s : Borrow) : Nat :=
  s.exchanges.countP (fun e => e.upstream.isSome) + s.handSends.length

/-- The loop has stopped at this exchange: it waits for its answer, gives it, gives the
delivered-unknown one, or has lost its client. -/
def StopsAt (s : Borrow) (e : Exchange) : Prop :=
  match s.phase with
  | .awaitingReply | .receiving _ _ | .done .deliveredUnknown | .done .cancelled => True
  | .done (.served lender) => lender = e.lender
  | _ => False

theorem senders_of_spent (h : s.Safe) (hs : Spent s.exchanges) : s.senders = s.handSends.length := by
  unfold senders
  rw [List.countP_eq_zero.mpr, Nat.zero_add]
  intro e hin hsent
  have hrun := (h.sound e hin).outstanding_of_sent (Option.isSome_iff_ne_none.mp hsent)
  rw [hs e hin] at hrun
  cases hrun

theorem senders_of_newest (h : s.Safe) {e : Exchange} {es : List Exchange}
    (hes : s.exchanges = e :: es) (hs : Spent es) (hsent : s.handSends = []) : s.senders ≤ 1 := by
  have htail : es.countP (fun e => e.upstream.isSome) = 0 := by
    refine List.countP_eq_zero.mpr fun e' hin hup => ?_
    have hsound := h.sound e' (by rw [hes]; exact List.mem_cons_of_mem _ hin)
    have hrun := hsound.outstanding_of_sent (Option.isSome_iff_ne_none.mp hup)
    rw [hs e' hin] at hrun
    cases hrun
  unfold senders
  rw [hes, hsent, List.countP_cons, htail, List.length_nil]
  split <;> omega

/-- Where the loop stands says how many may have sent the body. -/
theorem Safe.once (h : s.Safe) : s.senders ≤ 1 ∧ ∀ nth e, s.exchanges[nth]? = some e →
    e.outstanding = true → nth = 0 ∧ s.handSends = [] ∧ s.StopsAt e := by
  have hspent : Spent s.exchanges → s.handSends.length ≤ 1 →
      s.senders ≤ 1 ∧ ∀ nth e, s.exchanges[nth]? = some e → e.outstanding = true →
        nth = 0 ∧ s.handSends = [] ∧ s.StopsAt e := by
    intro hs hlen
    refine ⟨by rw [senders_of_spent h hs]; exact hlen, fun nth e hnth hrun => ?_⟩
    rw [hs e (List.mem_of_getElem? hnth)] at hrun
    cases hrun
  have hidle : s.Idle → _ := fun hi => hspent hi.spent (by rw [hi.unsent]; exact Nat.zero_le _)
  have hnewest : ∀ e es, s.exchanges = e :: es → Spent es → s.handSends = [] → s.StopsAt e →
      s.senders ≤ 1 ∧ ∀ nth e, s.exchanges[nth]? = some e → e.outstanding = true →
        nth = 0 ∧ s.handSends = [] ∧ s.StopsAt e := by
    intro e es hes hs hsent hstop
    refine ⟨senders_of_newest h hes hs hsent, fun nth e' hnth hrun => ?_⟩
    rw [hes] at hnth
    cases nth with
    | zero =>
      rw [List.getElem?_cons_zero, Option.some.injEq] at hnth
      subst hnth
      exact ⟨rfl, hsent, hstop⟩
    | succ nth =>
      rw [List.getElem?_cons_succ] at hnth
      rw [hs e' (List.mem_of_getElem? hnth)] at hrun
      cases hrun
  have hleft : s.Left → _ := fun hl => hspent hl.spent hl.sent.le
  have hstage := h.stage
  cases hp : s.phase with
  | asking => rw [hp] at hstage; exact hidle hstage
  | opening unsent => rw [hp] at hstage; exact hidle hstage.1
  | awaitingAck => rw [hp] at hstage; exact hidle hstage.1
  | sending unsent => rw [hp] at hstage; exact hidle hstage.1
  | awaitingReply =>
    rw [hp] at hstage
    obtain ⟨e, es, hes, hs⟩ := hstage.newest
    exact hnewest e es hes hs hstage.unsent (by simp [StopsAt, hp])
  | receiving promised got =>
    rw [hp] at hstage
    obtain ⟨e, es, hes, hs⟩ := hstage.newest
    exact hnewest e es hes hs hstage.unsent (by simp [StopsAt, hp])
  | connecting lender left =>
    rw [hp] at hstage
    cases left with
    | false => exact hidle hstage
    | true => exact hleft hstage
  | exchanging lender => rw [hp] at hstage; exact hleft hstage
  | done outcome =>
    rw [hp] at hstage
    rcases hstage with ⟨hs, hlen⟩ | ⟨hne, hsent, e, es, hes, hs, hserved⟩
    · exact hspent hs hlen
    · refine hnewest e es hes hs hsent ?_
      cases outcome with
      | served lender =>
        simp only [StopsAt, hp]
        exact hserved lender rfl
      | deliveredUnknown => simp [StopsAt, hp]
      | cancelled => simp [StopsAt, hp]
      | notServed => exact absurd rfl hne

/-- For every list of lenders and every order of steps of the borrower, the lenders and their
streams, as long as no redirected hand-mode request fails to connect: at most one sender has put the
body upstream, and where a lender may have the body and has not refused it, its exchange is the
last one opened, no handed bearer has been used, and the loop gives its answer or the
delivered-unknown one. -/
theorem borrowed_once (body : Body) (lenders : List PeerId) (acts : List BorrowAct)
    (hreach : Lib.EachStep step Reaches (start body lenders) acts) :
    (Lib.exec step (start body lenders) acts).senders ≤ 1 ∧
    ∀ nth e, (Lib.exec step (start body lenders) acts).exchanges[nth]? = some e →
      e.outstanding = true → nth = 0 ∧
        (Lib.exec step (start body lenders) acts).handSends = [] ∧
        (Lib.exec step (start body lenders) acts).StopsAt e := by
  have hsafe : (Lib.exec step (start body lenders) acts).Safe := by
    refine Lib.exec_invariant (I := Safe) (fun s act hs ha => ?_) (safe_start body lenders) hreach
      acts (List.prefix_refl _)
    cases act with
    | borrower act => exact safe_borrower hs ha
    | lender nth act => exact safe_lender hs nth act
  exact hsafe.once

/-- The borrower's and the lender's steps of one exchange, up to the body sent upstream. -/
def exchangeActs : List BorrowAct :=
  [.borrower (.lease (some false)), .borrower .writes, .borrower .writes,
    .lender 0 (.reads .accept), .lender 0 (.reads .accept), .borrower .reads, .borrower .writes,
    .borrower .writes, .lender 0 (.reads .accept), .lender 0 (.reads .accept), .lender 0 .sends]

/-- The first lender's address is dead, the second takes the body and answers. -/
theorem second_lender_serves :
    (Lib.exec step (start [1, 2] [7, 8]) ([.borrower (.lease (some false)), .borrower .fails] ++
      exchangeActs)).senders ≤ 1 := by
  refine (borrowed_once [1, 2] [7, 8] _ ?_).1
  simp only [exchangeActs, List.cons_append, List.nil_append, Lib.each_step_cons, Reaches, true_and]
  exact Lib.each_step_nil

/-- A hand-mode request is sent upstream and redirected to a place that does not answer, which is
read as one that never left: the next lender sends the body too. -/
theorem redirected_request_sent_twice :
    (Lib.exec step (start [1, 2] [7, 8]) ([.borrower (.lease (some true)), .borrower .connects,
      .borrower .redirected, .borrower .connectFails] ++ exchangeActs)).senders = 2 := by
  decide +kernel

end Borrow

end TeamClaude
