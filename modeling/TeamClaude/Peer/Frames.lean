import TeamClaude.Lib.Exec
import TeamClaude.Lib.Framing
import TeamClaude.Lib.Octets

/-!
# Frames on a stream

One Noise message behind a two-byte length. The reader keeps what it has taken off the stream, so
that a call given up while it waits for more loses nothing.
-/

namespace TeamClaude

def maxFrameBytes : Nat := 65535

inductive FrameError
  | incomplete
  | tooLong (len : Nat)
  deriving DecidableEq

/-- `encode_frame`, onto the end of `out`. -/
def encodeFrame (payload out : List UInt8) : Except FrameError (List UInt8) :=
  if maxFrameBytes < payload.length then .error (.tooLong payload.length)
  else .ok (out ++ (Lib.be16Bytes payload.length ++ payload))

/-- `decode_frame`: the payload, and how many bytes of the buffer it took. -/
def decodeFrame (buf : List UInt8) : Except FrameError (List UInt8 × Nat) :=
  match buf with
  | hi :: lo :: body =>
    let len := Lib.be16 hi lo
    if len ≤ body.length then .ok (body.take len, 2 + len) else .error .incomplete
  | _ => .error .incomplete

structure FrameReader where
  pending : List UInt8 := []
  deriving DecidableEq

/-- Where a `next_frame` that runs stops: with a frame, asking for more, or refused. -/
inductive FramePoll
  | frame (payload : List UInt8)
  | more
  | refused (err : FrameError)
  deriving DecidableEq

/-- One round of `next_frame`, up to the read it awaits. -/
def FrameReader.poll (r : FrameReader) : FramePoll × FrameReader :=
  match decodeFrame r.pending with
  | .ok (payload, consumed) => (.frame payload, { pending := r.pending.drop consumed })
  | .error .incomplete => (.more, r)
  | .error err => (.refused err, r)

/-- A reader on a stream: the bytes still to come, whether a call awaits a read, whether a call has
failed, and the frames that calls have returned. -/
structure FrameStream where
  reader : FrameReader := {}
  coming : List UInt8
  waiting : Bool := false
  failed : Bool := false
  yielded : List (List UInt8) := []
  deriving DecidableEq

/-- A call of `next_frame`, a read of up to that many bytes that ends the wait of a call, or the end
of a call that is dropped while it waits. -/
inductive FrameEvent
  | call
  | read (upTo : Nat)
  | cancel
  deriving DecidableEq

namespace FrameStream

/-- A call runs until it returns or waits. -/
def resume (s : FrameStream) (r : FrameReader) : FrameStream :=
  match r.poll with
  | (.frame payload, r) =>
    { s with reader := r, waiting := false, yielded := s.yielded ++ [payload] }
  | (.more, r) => { s with reader := r, waiting := true }
  | (.refused _, r) => { s with reader := r, waiting := false, failed := true }

/-- A read of nothing is the end of the stream. -/
def step (s : FrameStream) : FrameEvent → FrameStream
  | .call => if s.waiting then s else s.resume s.reader
  | .read upTo =>
    if s.waiting then
      let bytes := s.coming.take upTo
      if bytes.isEmpty then { s with waiting := false, failed := true }
      else { s with coming := s.coming.drop upTo }.resume { pending := s.reader.pending ++ bytes }
    else s
  | .cancel => { s with waiting := false }

end FrameStream

/-! ## One buffer -/

def frames : Lib.Framing (List UInt8) UInt8 where
  encode payload := Lib.be16Bytes payload.length ++ payload
  decode buf := (decodeFrame buf).toOption

theorem encode_frame_eq {payload : List UInt8} (h : payload.length ≤ maxFrameBytes)
    (out : List UInt8) : encodeFrame payload out = .ok (out ++ frames.encode payload) :=
  if_neg (not_lt.mpr h)

@[simp] theorem frames_encode_length (payload : List UInt8) :
    (frames.encode payload).length = 2 + payload.length := by
  simp [frames]

/-- A buffer reads as a frame, or asks for more of one. -/
theorem decode_frame_cases (buf : List UInt8) :
    (∃ payload, decodeFrame buf = .ok (payload, 2 + payload.length) ∧
      frames.encode payload <+: buf ∧ payload.length ≤ maxFrameBytes) ∨
    (decodeFrame buf = .error .incomplete ∧ buf.length < 2 + maxFrameBytes) := by
  match buf with
  | [] => exact .inr ⟨rfl, by decide⟩
  | [_] => exact .inr ⟨rfl, by simp [maxFrameBytes]⟩
  | hi :: lo :: body =>
    have hlt := Lib.be16_lt hi lo
    by_cases hfits : Lib.be16 hi lo ≤ body.length
    · have hlen : (body.take (Lib.be16 hi lo)).length = Lib.be16 hi lo := by
        rw [List.length_take, min_eq_left hfits]
      refine .inl ⟨body.take (Lib.be16 hi lo), ?_, ?_, ?_⟩
      · rw [hlen]
        exact if_pos hfits
      · refine ⟨body.drop (Lib.be16 hi lo), ?_⟩
        simp only [frames, hlen, Lib.be16_bytes_of, List.append_assoc, List.take_append_drop]
        rfl
      · rw [hlen]
        exact Nat.le_of_lt_succ hlt
    · refine .inr ⟨if_neg hfits, ?_⟩
      simp only [List.length_cons, maxFrameBytes]
      omega

/-- The header of a payload spells its length. -/
theorem frames_encode_eq (payload : List UInt8) : frames.encode payload =
    (payload.length / 256).toUInt8 :: payload.length.toUInt8 :: payload :=
  rfl

theorem decode_frame_cons {payload body : List UInt8} (h : payload.length ≤ maxFrameBytes) :
    decodeFrame ((payload.length / 256).toUInt8 :: payload.length.toUInt8 :: body) =
      if payload.length ≤ body.length then
        .ok (body.take payload.length, 2 + payload.length)
      else .error .incomplete := by
  have hlen := Lib.be16_of_bytes (show payload.length < 65536 from Nat.lt_succ_of_le h)
  simp only [decodeFrame, hlen]

theorem frames_lawful : frames.Lawful fun payload => payload.length ≤ maxFrameBytes where
  whole := by
    intro payload rest h
    change (decodeFrame (frames.encode payload ++ rest)).toOption = _
    rw [frames_encode_length, frames_encode_eq, List.cons_append, List.cons_append,
      decode_frame_cons h, if_pos (by simp), List.take_left]
    rfl
  short := by
    intro payload part h hpart hne
    obtain ⟨more, hmore⟩ := hpart
    rw [frames_encode_eq] at hmore hne
    change (decodeFrame part).toOption = none
    match part with
    | [] => rfl
    | [_] => rfl
    | hi :: lo :: body =>
      simp only [List.cons_append, List.cons.injEq] at hmore
      obtain ⟨rfl, rfl, hbody⟩ := hmore
      rw [decode_frame_cons h, if_neg]
      · rfl
      · intro hle
        rw [← hbody, List.length_append] at hle
        have hnil := List.eq_nil_of_length_eq_zero (show more.length = 0 by omega)
        rw [hnil, List.append_nil] at hbody
        rw [hbody] at hne
        exact hne rfl
  empty := rfl

/-- What a buffer at the front of a stream of payloads reads as. -/
theorem decode_front {payloads : List (List UInt8)} {pending coming : List UInt8}
    (hvalid : ∀ p ∈ payloads, p.length ≤ maxFrameBytes)
    (hsplit : pending ++ coming = frames.encodeAll payloads) :
    (∃ payload tail, payloads = payload :: tail ∧
      decodeFrame pending = .ok (payload, 2 + payload.length) ∧
      pending.drop (2 + payload.length) ++ coming = frames.encodeAll tail) ∨
    (decodeFrame pending = .error .incomplete ∧ (payloads = [] ∨ coming ≠ [])) := by
  have hread : ∀ result, (decodeFrame pending).toOption = some result →
      decodeFrame pending = .ok result := fun result h => by
    cases hdecode : decodeFrame pending with
    | ok value =>
      rw [hdecode] at h
      cases h
      rfl
    | error err =>
      rw [hdecode] at h
      cases h
  rcases frames_lawful.front hvalid hsplit with
    ⟨payload, tail, rfl, hdecode, hrest⟩ | ⟨hdecode, hleft⟩
  · rw [frames_encode_length] at hdecode hrest
    exact .inl ⟨payload, tail, rfl, hread _ hdecode, hrest⟩
  · refine .inr ⟨?_, hleft.imp_right fun ⟨_, _, _, _, hcoming⟩ => hcoming⟩
    rcases decode_frame_cases pending with ⟨payload, hok, -⟩ | ⟨hmore, -⟩
    · rw [show frames.decode pending = (decodeFrame pending).toOption from rfl, hok] at hdecode
      cases hdecode
    · exact hmore

/-! ## Runs -/

namespace FrameStream

variable {s : FrameStream} {payloads : List (List UInt8)}

/-- What a reader has returned and what it holds with what is still to come make up the stream of
the payloads; it waits only for the rest of a frame, and fails only at the end. -/
structure Sound (payloads : List (List UInt8)) (s : FrameStream) : Prop where
  left : ∃ left, payloads = s.yielded ++ left ∧
    s.reader.pending ++ s.coming = frames.encodeAll left
  waits : s.waiting = true → decodeFrame s.reader.pending = .error .incomplete
  ended : s.failed = true → s.yielded = payloads

/-- A read takes something off a stream that has not ended. -/
def Reads : FrameEvent → Prop
  | .read upTo => 0 < upTo
  | _ => True

theorem resume_frame {r : FrameReader} {payload : List UInt8} {consumed : Nat}
    (h : decodeFrame r.pending = .ok (payload, consumed)) :
    s.resume r = { s with
      reader := { pending := r.pending.drop consumed }
      waiting := false
      yielded := s.yielded ++ [payload] } := by
  simp [resume, FrameReader.poll, h]

theorem resume_more {r : FrameReader} (h : decodeFrame r.pending = .error .incomplete) :
    s.resume r = { s with reader := r, waiting := true } := by
  simp [resume, FrameReader.poll, h]

/-- A call that goes on takes the next payload if it is whole, and waits otherwise. -/
theorem sound_resume {r : FrameReader} {left : List (List UInt8)}
    (hvalid : ∀ p ∈ payloads, p.length ≤ maxFrameBytes) (hleft : payloads = s.yielded ++ left)
    (hsplit : r.pending ++ s.coming = frames.encodeAll left)
    (hended : s.failed = true → s.yielded = payloads) : Sound payloads (s.resume r) := by
  have hrest : ∀ p ∈ left, p.length ≤ maxFrameBytes := fun p hp =>
    hvalid p (hleft ▸ List.mem_append_right _ hp)
  rcases decode_front hrest hsplit with ⟨payload, tail, rfl, hdecode, htail⟩ | ⟨hdecode, -⟩
  · rw [resume_frame hdecode]
    refine ⟨⟨tail, ?_, htail⟩, fun hwait => (nomatch hwait), fun hfailed => ?_⟩
    · rw [hleft, List.append_assoc]
      rfl
    · -- A call fails only once every payload has been returned.
      rw [hended hfailed, List.self_eq_append_right] at hleft
      cases hleft
  · rw [resume_more hdecode]
    exact ⟨⟨left, hleft, hsplit⟩, fun _ => hdecode, hended⟩

theorem sound_step (hvalid : ∀ p ∈ payloads, p.length ≤ maxFrameBytes) (event : FrameEvent)
    (h : Sound payloads s) (hreads : Reads event) : Sound payloads (s.step event) := by
  obtain ⟨left, hleft, hsplit⟩ := h.left
  cases event with
  | call =>
    simp only [step]
    split
    · exact h
    · exact sound_resume hvalid hleft hsplit h.ended
  | read upTo =>
    simp only [step]
    split
    · rename_i hwait
      split
      · rename_i hempty
        -- Nothing was read and nothing is left to come.
        have hcoming : s.coming = [] := by
          rcases List.take_eq_nil_iff.mp (List.isEmpty_iff.mp hempty) with hzero | hnil
          · exact absurd hzero (Nat.pos_iff_ne_zero.mp hreads)
          · exact hnil
        refine ⟨⟨left, hleft, hsplit⟩, fun hwait => (nomatch hwait), fun _ => ?_⟩
        have hrest : ∀ p ∈ left, p.length ≤ maxFrameBytes := fun p hp =>
          hvalid p (hleft ▸ List.mem_append_right _ hp)
        rcases decode_front hrest hsplit with ⟨payload, tail, -, hdecode, -⟩ | ⟨-, hnil | hmore⟩
        · rw [h.waits hwait] at hdecode
          cases hdecode
        · rw [hleft, hnil, List.append_nil]
        · exact absurd hcoming hmore
      · refine sound_resume (s := { s with coming := s.coming.drop upTo }) hvalid hleft ?_ h.ended
        simp only [List.append_assoc, List.take_append_drop]
        exact hsplit
    · exact h
  | cancel => exact ⟨⟨left, hleft, hsplit⟩, fun hwait => (nomatch hwait), h.ended⟩

def start (payloads : List (List UInt8)) : FrameStream :=
  { coming := frames.encodeAll payloads }

theorem sound_start (payloads : List (List UInt8)) : Sound payloads (start payloads) :=
  ⟨⟨payloads, rfl, rfl⟩, fun hwait => (nomatch hwait), fun hfailed => (nomatch hfailed)⟩

theorem sound_run (hvalid : ∀ p ∈ payloads, p.length ≤ maxFrameBytes) {events : List FrameEvent}
    (hreads : ∀ event ∈ events, Reads event) :
    Sound payloads (Lib.exec step (start payloads) events) := by
  exact Lib.exec_invariant (A := fun _ => Reads) (fun s event => sound_step hvalid event)
    (sound_start payloads) (fun pre event hpre => hreads event (hpre.subset (by simp))) events
    (List.prefix_refl _)

/-! ## The buffer -/

/-- A call that waits holds less than a frame, and a read adds to that what it read. -/
theorem buffered_step {bound : Nat} (event : FrameEvent)
    (hwaits : s.waiting = true → decodeFrame s.reader.pending = .error .incomplete)
    (h : s.reader.pending.length ≤ 2 + maxFrameBytes + bound)
    (hbound : ∀ upTo, event = .read upTo → upTo ≤ bound) :
    (s.step event).reader.pending.length ≤ 2 + maxFrameBytes + bound := by
  have hresume : ∀ (s : FrameStream) (r : FrameReader),
      (s.resume r).reader.pending.length ≤ r.pending.length := by
    intro s r
    rcases decode_frame_cases r.pending with ⟨payload, hframe, -⟩ | ⟨hmore, -⟩
    · rw [resume_frame hframe]
      simp
    · rw [resume_more hmore]
  cases event with
  | call =>
    simp only [step]
    split
    · exact h
    · exact (hresume _ _).trans h
  | read upTo =>
    simp only [step]
    split
    · rename_i hwait
      have hpart : s.reader.pending.length < 2 + maxFrameBytes := by
        rcases decode_frame_cases s.reader.pending with ⟨payload, hframe, -⟩ | ⟨-, hlt⟩
        · rw [hwaits hwait] at hframe
          cases hframe
        · exact hlt
      have hread := hbound upTo rfl
      split
      · exact h
      · refine (hresume _ _).trans ?_
        simp only [List.length_append, List.length_take]
        omega
    · exact h
  | cancel => exact h

theorem buffered_run (hvalid : ∀ p ∈ payloads, p.length ≤ maxFrameBytes) {events : List FrameEvent}
    (hreads : ∀ event ∈ events, Reads event) {bound : Nat}
    (hbound : ∀ upTo, .read upTo ∈ events → upTo ≤ bound) :
    (Lib.exec step (start payloads) events).reader.pending.length ≤ 2 + maxFrameBytes + bound := by
  exact (Lib.exec_invariant
    (I := fun s => Sound payloads s ∧ s.reader.pending.length ≤ 2 + maxFrameBytes + bound)
    (A := fun _ event => event ∈ events)
    (fun s event h hin => ⟨sound_step hvalid event h.1 (hreads event hin),
      buffered_step event h.1.waits h.2 fun upTo heq => hbound upTo (heq ▸ hin)⟩)
    ⟨sound_start payloads, Nat.zero_le _⟩
    (fun pre event hpre => hpre.subset (by simp)) events (List.prefix_refl _)).2

/-! ## Every payload arrives -/

/-- What is left of a run: the bytes to come and the payloads to return. -/
def remaining (payloads : List (List UInt8)) (s : FrameStream) : Nat :=
  s.coming.length + (payloads.length - s.yielded.length)

theorem resume_coming (r : FrameReader) : (s.resume r).coming = s.coming := by
  unfold resume
  split <;> rfl

theorem resume_yielded (r : FrameReader) : s.yielded.length ≤ (s.resume r).yielded.length := by
  unfold resume
  split <;> simp

theorem step_yielded (event : FrameEvent) : s.yielded.length ≤ (s.step event).yielded.length := by
  cases event with
  | call =>
    simp only [step]
    split
    · exact le_rfl
    · exact resume_yielded _
  | read upTo =>
    simp only [step]
    split
    · split
      · exact le_rfl
      · exact resume_yielded (s := { s with coming := s.coming.drop upTo }) _
    · exact le_rfl
  | cancel => exact le_rfl

/-- A reader that has returned as many payloads as there are has returned them all. -/
theorem Sound.finished (h : Sound payloads s) (hlen : payloads.length ≤ s.yielded.length) :
    s.yielded = payloads ∧ remaining payloads s = 0 := by
  obtain ⟨left, hleft, hsplit⟩ := h.left
  have hsum := congrArg List.length hleft
  rw [List.length_append] at hsum
  have hnil := List.eq_nil_of_length_eq_zero (show left.length = 0 by omega)
  rw [hnil, List.append_nil] at hleft
  rw [hnil, Lib.Framing.encode_all_nil, List.append_eq_nil_iff] at hsplit
  refine ⟨hleft.symm, ?_⟩
  rw [remaining, hsplit.2, hleft]
  simp

/-- Until every payload is returned a call that waits has something to read. -/
theorem read_progress (hvalid : ∀ p ∈ payloads, p.length ≤ maxFrameBytes) (h : Sound payloads s)
    {upTo : Nat} (hupTo : 0 < upTo) (hwait : s.waiting = true) (hne : s.yielded ≠ payloads) :
    remaining payloads (s.step (.read upTo)) < remaining payloads s := by
  obtain ⟨left, hleft, hsplit⟩ := h.left
  have hrest : ∀ p ∈ left, p.length ≤ maxFrameBytes := fun p hp =>
    hvalid p (hleft ▸ List.mem_append_right _ hp)
  have hcoming : s.coming ≠ [] := by
    rcases decode_front hrest hsplit with ⟨payload, tail, -, hdecode, -⟩ | ⟨-, hnil | hmore⟩
    · rw [h.waits hwait] at hdecode
      cases hdecode
    · rw [hnil, List.append_nil] at hleft
      exact absurd hleft.symm hne
    · exact hmore
  have htake : (s.coming.take upTo).isEmpty = false := by
    rw [List.isEmpty_eq_false_iff, ne_eq, List.take_eq_nil_iff, not_or]
    exact ⟨Nat.pos_iff_ne_zero.mp hupTo, hcoming⟩
  have hpos := List.length_pos_iff.mpr hcoming
  have hyielded := resume_yielded (s := { s with coming := s.coming.drop upTo })
    { pending := s.reader.pending ++ s.coming.take upTo }
  simp only [step, if_pos hwait, htake, Bool.false_eq_true, if_false, remaining, resume_coming,
    List.length_drop] at hyielded ⊢
  omega

/-- A call and a read come closer to the end of the payloads. -/
theorem round_progress (hvalid : ∀ p ∈ payloads, p.length ≤ maxFrameBytes) (h : Sound payloads s)
    {upTo : Nat} (hupTo : 0 < upTo) (hne : s.yielded ≠ payloads) :
    remaining payloads ((s.step .call).step (.read upTo)) < remaining payloads s := by
  by_cases hwait : s.waiting = true
  · have hcall : s.step .call = s := if_pos hwait
    rw [hcall]
    exact read_progress hvalid h hupTo hwait hne
  · have hcall : s.step .call = s.resume s.reader := if_neg hwait
    obtain ⟨left, hleft, hsplit⟩ := h.left
    have hrest : ∀ p ∈ left, p.length ≤ maxFrameBytes := fun p hp =>
      hvalid p (hleft ▸ List.mem_append_right _ hp)
    rcases decode_front hrest hsplit with ⟨payload, tail, rfl, hdecode, -⟩ | ⟨hdecode, -⟩
    · have hread : (s.step .call).step (.read upTo) = s.step .call := by
        rw [hcall, resume_frame hdecode]
        rfl
      have hlen := congrArg List.length hleft
      rw [hread, hcall, resume_frame hdecode]
      simp only [remaining, List.length_append, List.length_cons, List.length_nil] at hlen ⊢
      omega
    · have hwaits : (s.step .call).waiting = true := by
        rw [hcall, resume_more hdecode]
      have hsame : remaining payloads (s.step .call) = remaining payloads s := by
        rw [hcall, resume_more hdecode]
        rfl
      rw [← hsame]
      refine read_progress hvalid (sound_step hvalid .call h trivial) hupTo hwaits ?_
      rw [hcall, resume_more hdecode]
      exact hne

/-- Calls and reads in turn. -/
def rounds (sizes : List Nat) : List FrameEvent :=
  sizes.flatMap fun upTo => [.call, .read upTo]

/-- As many rounds as there are bytes and payloads left return every payload. -/
theorem rounds_complete (hvalid : ∀ p ∈ payloads, p.length ≤ maxFrameBytes) (h : Sound payloads s)
    {sizes : List Nat} (hsizes : ∀ upTo ∈ sizes, 0 < upTo)
    (henough : remaining payloads s ≤ sizes.length) :
    (Lib.exec step s (rounds sizes)).yielded = payloads := by
  induction sizes generalizing s with
  | nil =>
    simp only [remaining, List.length_nil] at henough
    exact (h.finished (by omega)).1
  | cons upTo sizes ih =>
    have hupTo := hsizes upTo List.mem_cons_self
    have hnext : Sound payloads ((s.step .call).step (.read upTo)) :=
      sound_step hvalid _ (sound_step hvalid .call h trivial) hupTo
    refine ih hnext (fun n hn => hsizes n (List.mem_cons_of_mem _ hn)) ?_
    by_cases hne : s.yielded = payloads
    · have hlen := (step_yielded (s := s) .call).trans (step_yielded (.read upTo))
      rw [hne] at hlen
      rw [(hnext.finished hlen).2]
      exact Nat.zero_le _
    · have hless := round_progress hvalid h hupTo hne
      rw [List.length_cons] at henough
      omega

end FrameStream

/-- The payloads encoded one after the other are their stream. -/
theorem encode_frames {payloads : List (List UInt8)}
    (hvalid : ∀ p ∈ payloads, p.length ≤ maxFrameBytes) (out : List UInt8) :
    payloads.foldlM (fun out payload => encodeFrame payload out) out =
      .ok (out ++ frames.encodeAll payloads) := by
  induction payloads generalizing out with
  | nil => simp [pure, Except.pure]
  | cons payload payloads ih =>
    rw [List.foldlM_cons, encode_frame_eq (hvalid payload List.mem_cons_self)]
    refine (ih (fun p hp => hvalid p (List.mem_cons_of_mem _ hp)) _).trans ?_
    rw [List.append_assoc]
    rfl

open FrameStream in
/-- For every list of payloads that fit a frame, however its stream is cut into reads and wherever a
call is given up: the frames returned are the first of the payloads, in order; a call awaits a read
exactly while no whole frame is buffered; a call fails only once every payload has been returned;
the buffer never holds more than a frame and a read; and any calls and reads from there on, enough
of them, return every payload. -/
theorem frames_survive_cuts (payloads : List (List UInt8)) (events : List FrameEvent)
    (s : FrameStream) (hvalid : ∀ p ∈ payloads, p.length ≤ maxFrameBytes)
    (hreads : ∀ event ∈ events, FrameStream.Reads event)
    (hs : s = Lib.exec step (start payloads) events) :
    payloads.foldlM (fun out payload => encodeFrame payload out) [] = .ok (start payloads).coming ∧
    s.yielded <+: payloads ∧
    (s.waiting = true → decodeFrame s.reader.pending = .error .incomplete) ∧
    ((s.step .call).waiting = true ↔ decodeFrame s.reader.pending = .error .incomplete) ∧
    (∀ upTo, s.waiting = true → s.coming.take upTo ≠ [] →
      ((s.step (.read upTo)).waiting = true ↔
        decodeFrame (s.reader.pending ++ s.coming.take upTo) = .error .incomplete)) ∧
    (s.failed = true → s.yielded = payloads) ∧
    (∀ bound, (∀ upTo, .read upTo ∈ events → upTo ≤ bound) →
      s.reader.pending.length ≤ 2 + maxFrameBytes + bound) ∧
    ∀ sizes : List Nat, (∀ upTo ∈ sizes, 0 < upTo) →
      (start payloads).coming.length + payloads.length ≤ sizes.length →
      (Lib.exec step s (rounds sizes)).yielded = payloads := by
  subst hs
  have hsound := sound_run hvalid hreads
  obtain ⟨left, hleft, hsplit⟩ := hsound.left
  have hresume : ∀ (s : FrameStream) (r : FrameReader),
      (s.resume r).waiting = true ↔ decodeFrame r.pending = .error .incomplete := by
    intro s r
    rcases decode_frame_cases r.pending with ⟨payload, hframe, -⟩ | ⟨hmore, -⟩
    · rw [resume_frame hframe, hframe]
      simp
    · rw [resume_more hmore, hmore]
      simp
  refine ⟨encode_frames hvalid [], ⟨left, hleft.symm⟩, hsound.waits, ?_, fun upTo hwait htake => ?_,
    hsound.ended, fun bound => buffered_run hvalid hreads, fun sizes hsizes henough => ?_⟩
  · simp only [step]
    split
    · rename_i hwait
      exact ⟨fun _ => hsound.waits hwait, fun _ => hwait⟩
    · exact hresume _ _
  · have hbytes : (List.take upTo (Lib.exec step (start payloads) events).coming).isEmpty = false :=
      List.isEmpty_eq_false_iff.mpr htake
    simp only [step, if_pos hwait, hbytes, Bool.false_eq_true, if_false]
    exact hresume _ _
  · refine rounds_complete hvalid hsound hsizes (le_trans ?_ henough)
    have hall : (start payloads).coming =
        frames.encodeAll (Lib.exec step (start payloads) events).yielded ++
          frames.encodeAll left := by
      rw [← Lib.Framing.encode_all_append, ← hleft]
      rfl
    have hcoming := congrArg List.length hsplit
    simp only [remaining, hall, List.length_append] at hcoming ⊢
    omega

/-- Two frames of a stream cut in the middle of a length and of a payload, with a call given up in
between. -/
theorem cut_frames_survive :
    (Lib.exec FrameStream.step (FrameStream.start [[1, 2, 3], [], [4]])
      [.call, .read 1, .cancel, .call, .read 2, .call]).yielded <+: [[1, 2, 3], [], [4]] :=
  (frames_survive_cuts [[1, 2, 3], [], [4]] [.call, .read 1, .cancel, .call, .read 2, .call] _
    (by decide) (by simp [FrameStream.Reads]) rfl).2.1

end TeamClaude
