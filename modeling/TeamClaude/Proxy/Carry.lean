import TeamClaude.Proxy.Moves

/-!
# The blind carry

A request whose sends all failed at their connects may be offered to a peer, once. What the rotation
knows of its earlier sends is in the tally: a send that failed past its connect is recorded there, and
so is every answer. A send that was answered with a redirect is recorded as its last hop fails.
-/

namespace TeamClaude

namespace Ladder

/-- The two ladders tell the same of what has left this machine. -/
structure SameWire (l l' : Ladder) : Prop where
  upstreamResponses : l'.tally.upstreamResponses = l.tally.upstreamResponses
  unknown : l'.tally.unknownOutcomeTransportFailure = l.tally.unknownOutcomeTransportFailure
  peerEgressTried : l'.peerEgressTried = l.peerEgressTried

@[refl] theorem SameWire.refl (l : Ladder) : l.SameWire l := ⟨rfl, rfl, rfl⟩

theorem SameWire.trans {l l' l'' : Ladder} (h : l.SameWire l') (h' : l'.SameWire l'') :
    l.SameWire l'' where
  upstreamResponses := h'.upstreamResponses.trans h.upstreamResponses
  unknown := h'.unknown.trans h.unknown
  peerEgressTried := h'.peerEgressTried.trans h.peerEgressTried

/-- As far as the ladder knows, nothing of the request has left this machine. -/
structure Quiet (l : Ladder) : Prop where
  upstreamResponses : l.tally.upstreamResponses = 0
  unknown : l.tally.unknownOutcomeTransportFailure = false

theorem Quiet.same {l l' : Ladder} (h : l'.Quiet) (hsame : l.SameWire l') : l.Quiet :=
  ⟨hsame.upstreamResponses ▸ h.upstreamResponses, hsame.unknown ▸ h.unknown⟩

end Ladder

namespace TransportError

theorem connect_of_offline {err : TransportError} (h : err.isOffline = true) :
    err.isConnect = true := by
  have hfault : err.fault = .offline := of_decide_eq_true h
  simp only [isConnect, hfault]

end TransportError

namespace Rotation

variable {ask : Ask} {s : Rotation} {t : Turn} {idx : Nat}

/-! ## Attempts -/

/-- What a failed send leaves, once no peer has taken it. -/
structure FailedWire (l : Ladder) (err : TransportError) (l' : Ladder) : Prop where
  upstreamResponses : l'.tally.upstreamResponses = l.tally.upstreamResponses
  unknown : l'.tally.unknownOutcomeTransportFailure =
    (l.tally.unknownOutcomeTransportFailure || !err.isConnect)
  peerEgressTried : l'.peerEgressTried = l.peerEgressTried

theorem FailedWire.same {l l' l'' : Ladder} {err : TransportError} (h : FailedWire l err l')
    (hsame : l'.SameWire l'') : FailedWire l err l'' where
  upstreamResponses := hsame.upstreamResponses.trans h.upstreamResponses
  unknown := hsame.unknown.trans h.unknown
  peerEgressTried := hsame.peerEgressTried.trans h.peerEgressTried

theorem FailedWire.of_same {l l' l'' : Ladder} {err : TransportError} (hsame : l.SameWire l')
    (h : FailedWire l' err l'') : FailedWire l err l'' where
  upstreamResponses := h.upstreamResponses.trans hsame.upstreamResponses
  unknown := by rw [h.unknown, hsame.unknown]
  peerEgressTried := h.peerEgressTried.trans hsame.peerEgressTried

theorem failed_of_connect {l l' : Ladder} {err : TransportError} (hconnect : err.isConnect = true)
    (hsame : l.SameWire l') : FailedWire l err l' where
  upstreamResponses := hsame.upstreamResponses
  unknown := by rw [hsame.unknown, hconnect, Bool.not_true, Bool.or_false]
  peerEgressTried := hsame.peerEgressTried

theorem retry_or_rotate_wire (l : Ladder) (idx : Nat) (err : TransportError) :
    FailedWire l err (retryOrRotate l idx err).1 := by
  unfold retryOrRotate
  split
  · rename_i hoffline
    refine failed_of_connect (TransportError.connect_of_offline hoffline) ?_
    unfold Ladder.takeOfflineWait
    by_cases hwait : l.offlineFailed.offlineWaits < maxOfflineWaitsPerRequest
    · simp only [if_pos hwait]
      exact ⟨rfl, rfl, rfl⟩
    · simp only [if_neg hwait]
      exact ⟨rfl, rfl, rfl⟩
  · have hunknown : FailedWire l err (if err.isConnect then l else l.unknownOutcome) := by
      split
      · rename_i hconnect
        exact failed_of_connect hconnect (.refl l)
      · rename_i hpast
        refine ⟨rfl, ?_, rfl⟩
        rw [Bool.eq_false_iff.mpr hpast, Bool.not_false, Bool.or_true]
        rfl
    generalize (if err.isConnect then l else l.unknownOutcome) = l₁ at hunknown ⊢
    have hreset : l₁.SameWire
        (if err.fault = .pastConnect true then l₁.firstResetRecycle idx else l₁) := by
      split
      · exact ⟨rfl, rfl, rfl⟩
      · rfl
    simp only
    generalize (if err.fault = .pastConnect true then l₁.firstResetRecycle idx else l₁) = l₂
      at hreset ⊢
    split
    · exact (hunknown.same hreset).same ⟨rfl, rfl, rfl⟩
    · exact hunknown.same hreset

/-- An answer is counted, and nothing else that it changes tells of the wire. -/
theorem same_wire_kept (l₀ : Ladder) : KeptByAnswers l₀.SameWire where
  firstForcedRefresh _ _ h := h.trans ⟨rfl, rfl, rfl⟩
  codexAccessUnread _ h := h.trans ⟨rfl, rfl, rfl⟩
  accountAccessBlocked _ _ h := h.trans ⟨rfl, rfl, rfl⟩
  refuse403 _ _ _ h := h.trans ⟨rfl, rfl, rfl⟩
  spend429Retry _ _ h := h.trans ⟨rfl, rfl, rfl⟩
  spend529Retry _ _ h := h.trans ⟨rfl, rfl, rfl⟩

/-- The move of an attempt changes nothing of what is known of the wire. -/
theorem move_wire {s' : Rotation} (hmove : s.move ask t idx = .running s') :
    (s.attempt ask t idx).1.SameWire s'.ladder := by
  unfold move at hmove
  simp only at hmove
  generalize s.attempt ask t idx = done at hmove ⊢
  obtain ⟨l, step⟩ := done
  cases step with
  | answer reply => cases hmove
  | forward status =>
    cases hrefused : refusedModel ask t with
    | none =>
      simp only [hrefused] at hmove
      cases hmove
    | some detail =>
      simp only [hrefused] at hmove
      cases hmove
      exact ⟨rfl, rfl, rfl⟩
  | _ =>
    cases hmove
    exact ⟨rfl, rfl, rfl⟩

/-- A carry is offered only when, as far as the ladder knows, nothing has left this machine. -/
theorem offers_carry_quiet {m : Manager} {l : Ladder} {err : TransportError}
    (h : s.offersCarry ask m l err = true) :
    l.peerEgressTried = false ∧ l.Quiet ∧ err.isConnect = true := by
  simp only [offersCarry, nothingEverLeft, everyAttemptTransportFailed, Bool.and_eq_true,
    Bool.not_eq_true', Bool.or_eq_true, decide_eq_true_eq] at h
  obtain ⟨⟨⟨huntried, ⟨hknown, hconnect⟩, -, hunanswered⟩, -⟩, -⟩ := h
  exact ⟨huntried, ⟨hunanswered, hknown⟩,
    hconnect.elim id TransportError.connect_of_offline⟩

/-! ## Turns -/

/-- The carry that the attempt of a turn offers, by what a peer makes of it. -/
def carryOffer (ask : Ask) (s : Rotation) (t : Turn) : Option ViaCarry :=
  match t.came with
  | .failed err carry =>
    if s.offersCarry ask t.sending s.ladder.transportFailed err then some carry else none
  | .answered _ => none

end Rotation

/-- A peer has the request. -/
def ViaCarry.taken : ViaCarry → Bool
  | .carried | .takenAndFailed => true
  | .notTaken => false

/-- The send of the turn may have put the request on a connection: it failed past its connect, or it
was answered, if only with a redirect or by the peer that its account leaves through. -/
def Turn.wrote (t : Turn) : Bool :=
  t.pinnedAnswer ||
    match t.came with
    | .failed err _ => !err.isConnect || err.redirected
    | .answered _ => true

namespace Handling

def carryOf (ask : Ask) (h : Handling) (t : Turn) : Option ViaCarry :=
  match h with
  | .answered _ => none
  | .running s =>
    match s.attempts with
    | 0 => none
    | n + 1 =>
      match { s with attempts := n }.pick ask t with
      | .account idx s =>
        if !Rotation.sendable t idx then none
        else if t.pinnedAnswer then none
        else s.carryOffer ask t
      | .waited _ => none
      | .released _ => none
      | .reply _ => none

end Handling

namespace Rotation

variable {ask : Ask} {s : Rotation} {t : Turn} {idx : Nat}

/-- What a turn tells of the wire: the account it sends on, the carry it offers, and the request
after it. -/
inductive Wired (l : Ladder) (t : Turn) : Option Nat → Option ViaCarry → Handling → Prop
  | unsent {h : Handling} (hsame : ∀ s', h = .running s' → l.SameWire s'.ladder) :
      Wired l t none none h
  | pinned {idx : Nat} (reply : Reply) : Wired l t (some idx) none (.answered reply)
  | answered {idx : Nat} {h : Handling}
      (hsame : ∀ s', h = .running s' → l.upstreamAnswered.SameWire s'.ladder) :
      Wired l t (some idx) none h
  | failed {idx : Nat} {err : TransportError} {carry : ViaCarry} {h : Handling}
      (hpin : t.pinnedAnswer = false) (hcame : t.came = .failed err carry)
      (hwire : ∀ s', h = .running s' → FailedWire l err s'.ladder) : Wired l t (some idx) none h
  | offered {idx : Nat} {err : TransportError} {carry : ViaCarry} {h : Handling}
      (hpin : t.pinnedAnswer = false) (hcame : t.came = .failed err carry)
      (huntried : l.peerEgressTried = false) (hquiet : l.Quiet) (hconnect : err.isConnect = true)
      (htaken : carry.taken = true → ∃ reply, h = .answered reply)
      (hwire : ∀ s', h = .running s' → FailedWire l.spendPeerEgress err s'.ladder) :
      Wired l t (some idx) (some carry) h

theorem Wired.of_same {l l' : Ladder} (hsame : l.SameWire l') {sent : Option Nat}
    {carry : Option ViaCarry} {h : Handling} (hwired : Wired l' t sent carry h) :
    Wired l t sent carry h := by
  obtain ⟨hupstream, hunknown, hpeer⟩ := hsame
  cases hwired with
  | unsent hwire => exact .unsent fun s' hs' => .trans ⟨hupstream, hunknown, hpeer⟩ (hwire s' hs')
  | pinned reply => exact .pinned reply
  | answered hwire =>
    have hanswered : l.upstreamAnswered.SameWire l'.upstreamAnswered :=
      ⟨congrArg (· + 1) hupstream, hunknown, hpeer⟩
    exact .answered fun s' hs' => hanswered.trans (hwire s' hs')
  | failed hpin hcame hwire =>
    exact .failed hpin hcame fun s' hs' => .of_same ⟨hupstream, hunknown, hpeer⟩ (hwire s' hs')
  | offered hpin hcame huntried hquiet hconnect htaken hwire =>
    have hspent : l.spendPeerEgress.SameWire l'.spendPeerEgress := ⟨hupstream, hunknown, rfl⟩
    exact .offered hpin hcame (hpeer ▸ huntried) (hquiet.same ⟨hupstream, hunknown, hpeer⟩)
      hconnect htaken fun s' hs' => .of_same hspent (hwire s' hs')

theorem Wired.offered_of_some {l : Ladder} {sent : Option Nat} {carry : ViaCarry} {h : Handling}
    (hwired : Wired l t sent (some carry) h) : ∃ err, t.pinnedAnswer = false ∧
      t.came = .failed err carry ∧ l.peerEgressTried = false ∧ l.Quiet ∧ err.isConnect = true := by
  cases hwired with
  | offered hpin hcame huntried hquiet hconnect =>
    exact ⟨_, hpin, hcame, huntried, hquiet, hconnect⟩

theorem wired_attempt (ask : Ask) (s : Rotation) (t : Turn) (idx : Nat)
    (hpin : t.pinnedAnswer = false) :
    Wired s.ladder t (some idx) (s.carryOffer ask t) (s.move ask t idx) := by
  have hmove : ∀ s', s.move ask t idx = .running s' →
      (s.attempt ask t idx).1.SameWire s'.ladder := fun s' => move_wire
  cases hcame : t.came with
  | answered a =>
    simp only [carryOffer, attempt, hcame] at hmove ⊢
    have hcounted : s.ladder.upstreamAnswered.SameWire (s.onAnswer ask t idx a).1 :=
      (same_wire_kept _).on_answer (.refl _) a
    exact .answered fun s' hs' => hcounted.trans (hmove s' hs')
  | failed err carry =>
    simp only [carryOffer, attempt, hcame, onFailure] at hmove ⊢
    by_cases hoffer : s.offersCarry ask t.sending s.ladder.transportFailed err = true
    · obtain ⟨huntried, hquiet, hconnect⟩ := offers_carry_quiet hoffer
      have hspent : s.ladder.spendPeerEgress.SameWire s.ladder.transportFailed.spendPeerEgress :=
        ⟨rfl, rfl, rfl⟩
      simp only [hoffer, if_true] at hmove ⊢
      refine .offered hpin hcame huntried ⟨hquiet.upstreamResponses, hquiet.unknown⟩ hconnect
        (fun htaken => ?_) fun s' hs' => .of_same hspent ?_
      · cases carry with
        | notTaken => cases htaken
        | carried => exact ⟨.carried, by simp only [move, attempt, hcame, onFailure, hoffer, if_true]⟩
        | takenAndFailed =>
          exact ⟨.deliveredUnknown, by simp only [move, attempt, hcame, onFailure, hoffer, if_true]⟩
      · have hafter := hmove s' hs'
        cases carry with
        | notTaken => exact (retry_or_rotate_wire _ idx err).same hafter
        | carried => exact failed_of_connect hconnect hafter
        | takenAndFailed => exact failed_of_connect hconnect hafter
    · have hfailed : s.ladder.SameWire s.ladder.transportFailed := ⟨rfl, rfl, rfl⟩
      simp only [hoffer, Bool.false_eq_true, if_false] at hmove ⊢
      exact .failed hpin hcame fun s' hs' =>
        .of_same hfailed ((retry_or_rotate_wire _ idx err).same (hmove s' hs'))

/-- Everything that one turn of a request tells of the wire. -/
theorem wired (ask : Ask) (s : Rotation) (t : Turn) :
    Wired s.ladder t ((Handling.running s).observe ask t).sent ((Handling.running s).carryOf ask t)
      ((Handling.running s).turn ask t) := by
  simp only [Handling.observe, Handling.carryOf, Handling.turn]
  cases s.attempts with
  | zero => exact .unsent fun s' hs' => by cases hs'
  | succ n =>
    have hpick := pick_case ask { s with attempts := n } t
    simp only
    generalize ({ s with attempts := n } : Rotation).pick ask t = picked at hpick ⊢
    cases hpick with
    | @account idx hchosen =>
      have hcleared : s.ladder.SameWire (s.ladder.setNext none) := ⟨rfl, rfl, rfl⟩
      refine .of_same hcleared ?_
      simp only [serve]
      by_cases hsend : sendable t idx = true
      · simp only [hsend, Bool.not_true, Bool.false_eq_true, if_false]
        cases hpin : t.pinnedAnswer with
        | true => exact .pinned _
        | false =>
          exact wired_attempt ask { s with ladder := s.ladder.setNext none, attempts := n } t idx hpin
      · simp only [hsend, Bool.not_false, if_true]
        refine .unsent fun s' hs' => ?_
        cases hs'
        exact ⟨rfl, rfl, rfl⟩
    | waited hnext hfirst =>
      refine .unsent fun s' hs' => ?_
      cases hs'
      exact ⟨rfl, rfl, rfl⟩
    | released hnext hheld huntried =>
      refine .unsent fun s' hs' => ?_
      cases hs'
      exact ⟨rfl, rfl, rfl⟩
    | reply r => exact .unsent fun s' hs' => by cases hs'

end Rotation

/-! ## Runs -/

/-- The send of the turn was not answered with a redirect to a place that it then could not connect
to. -/
def Turn.LosesNoRedirect (t : Turn) : Prop :=
  ∀ err carry, t.came = .failed err carry → err.redirected = true → err.isConnect = false

/-- A request, with the copies of it that may have been written past a connect, the carries that
were offered, and whether a peer has it. -/
structure Wire where
  handling : Handling
  written : Nat := 0
  offers : Nat := 0
  taken : Bool := false

namespace Wire

/-- The copies that a turn may write past a connect: its own send, and what a peer takes. -/
def writes (ask : Ask) (w : Wire) (t : Turn) : Nat :=
  ((w.handling.observe ask t).sent.isSome && t.wrote).toNat +
    ((w.handling.carryOf ask t).any ViaCarry.taken).toNat

def step (ask : Ask) (w : Wire) (t : Turn) : Wire where
  handling := w.handling.turn ask t
  written := w.written + w.writes ask t
  offers := w.offers + (w.handling.carryOf ask t).isSome.toNat
  taken := w.taken || (w.handling.carryOf ask t).any ViaCarry.taken

/-- A carry is the first of its request and is offered with no copy written, this turn's included;
once a peer has the request nothing more is sent, and at most one copy has been written. -/
structure CarriesOnce (ask : Ask) (w : Wire) (t : Turn) : Prop where
  first : (w.handling.carryOf ask t).isSome → w.offers = 0
  unsent : (w.handling.carryOf ask t).isSome → w.written = 0 ∧ t.wrote = false
  last : w.taken = true →
    (w.handling.observe ask t).sent = none ∧ w.handling.carryOf ask t = none
  copies : (w.step ask t).taken = true → (w.step ask t).written ≤ 1

/-- What the tally of a running request tells of the wire. -/
structure Known (w : Wire) (s : Rotation) : Prop where
  quiet : s.ladder.Quiet → w.written = 0
  offered : s.ladder.peerEgressTried = false → w.offers = 0
  untaken : w.taken = false

/-- The tally is right about the wire while the request runs, and a taken request runs no more. -/
structure Sound (w : Wire) : Prop where
  known : ∀ s, w.handling = .running s → w.Known s
  copies : w.taken = true → w.written ≤ 1

section Sound

variable {ask : Ask} {w : Wire} {t : Turn}

theorem wrote_failed {err : TransportError} {carry : ViaCarry} (hlost : t.LosesNoRedirect)
    (hpin : t.pinnedAnswer = false) (hcame : t.came = .failed err carry) :
    t.wrote = !err.isConnect := by
  have hredirect := hlost err carry hcame
  simp only [Turn.wrote, hpin, hcame, Bool.false_or]
  cases hred : err.redirected with
  | false => rw [Bool.or_false]
  | true => rw [hredirect hred, Bool.or_true, Bool.not_false]

section Running

variable {s : Rotation} {written offers : Nat}

theorem sound_step (hknown : Known ⟨.running s, written, offers, false⟩ s)
    (hlost : t.LosesNoRedirect) : (step ask ⟨.running s, written, offers, false⟩ t).Sound := by
  have hwired := s.wired ask t
  simp only [step, writes]
  generalize ((Handling.running s).observe ask t).sent = sent at hwired ⊢
  generalize (Handling.running s).carryOf ask t = carry at hwired ⊢
  generalize (Handling.running s).turn ask t = h at hwired ⊢
  cases hwired with
  | unsent hsame =>
    refine ⟨fun s' hs' => ⟨fun hquiet => ?_, fun hpeer => ?_, rfl⟩, fun htaken => by cases htaken⟩
    · exact hknown.quiet (hquiet.same (hsame s' hs'))
    · exact hknown.offered ((hsame s' hs').peerEgressTried ▸ hpeer)
  | pinned reply =>
    refine ⟨fun s' hs' => ?_, fun htaken => ?_⟩
    · cases hs'
    · cases htaken
  | answered hsame =>
    refine ⟨fun s' hs' => ⟨fun hquiet => ?_, fun hpeer => ?_, rfl⟩, fun htaken => by cases htaken⟩
    · have hcounted : s'.ladder.tally.upstreamResponses = s.ladder.tally.upstreamResponses + 1 :=
        (hsame s' hs').upstreamResponses
      have hnone := hquiet.upstreamResponses
      omega
    · exact hknown.offered ((hsame s' hs').peerEgressTried ▸ hpeer)
  | @failed _ err carry _ hpin hcame hwire =>
    refine ⟨fun s' hs' => ⟨fun hquiet => ?_, fun hpeer => ?_, rfl⟩, fun htaken => by cases htaken⟩
    · obtain ⟨hupstream, hunknown, -⟩ := hwire s' hs'
      rw [hquiet.unknown, eq_comm, Bool.or_eq_false_iff] at hunknown
      have hzero : written = 0 :=
        hknown.quiet ⟨hupstream ▸ hquiet.upstreamResponses, hunknown.1⟩
      show written + ((true && t.wrote).toNat + 0) = 0
      rw [wrote_failed hlost hpin hcame, hunknown.2, hzero]
      rfl
    · exact hknown.offered ((hwire s' hs').peerEgressTried ▸ hpeer)
  | @offered _ err carry _ hpin hcame huntried hquiet hconnect htaken hwire =>
    have hzero : written = 0 := hknown.quiet hquiet
    have hwrote : t.wrote = false := by rw [wrote_failed hlost hpin hcame, hconnect, Bool.not_true]
    refine ⟨fun s' hs' => ?_, fun _ => ?_⟩
    · have huntaken : carry.taken = false := by
        cases hpeer : carry.taken with
        | false => rfl
        | true =>
          obtain ⟨reply, hreply⟩ := htaken hpeer
          cases hreply.symm.trans hs'
      refine ⟨fun _ => ?_, fun hpeer => ?_, huntaken⟩
      · show written + ((true && t.wrote).toNat + carry.taken.toNat) = 0
        rw [hzero, hwrote, huntaken]
        rfl
      · have hspent : s'.ladder.peerEgressTried = true := (hwire s' hs').peerEgressTried
        rw [hspent] at hpeer
        cases hpeer
    · show written + ((true && t.wrote).toNat + carry.taken.toNat) ≤ 1
      rw [hzero, hwrote]
      have hone := carry.taken.toNat_le
      show 0 + (0 + carry.taken.toNat) ≤ 1
      omega

theorem one_carry_running (hknown : Known ⟨.running s, written, offers, false⟩ s)
    (hlost : t.LosesNoRedirect) : CarriesOnce ask ⟨.running s, written, offers, false⟩ t := by
  have hoffer : ((Handling.running s).carryOf ask t).isSome →
      s.ladder.peerEgressTried = false ∧ s.ladder.Quiet ∧ t.wrote = false := by
    intro hsome
    obtain ⟨carry, hcarry⟩ := Option.isSome_iff_exists.mp hsome
    obtain ⟨err, hpin, hcame, huntried, hquiet, hconnect⟩ :=
      (hcarry ▸ s.wired ask t).offered_of_some
    exact ⟨huntried, hquiet, by rw [wrote_failed hlost hpin hcame, hconnect, Bool.not_true]⟩
  refine ⟨fun hsome => ?_, fun hsome => ?_, fun htaken => ?_, (sound_step hknown hlost).copies⟩
  · exact hknown.offered (hoffer hsome).1
  · exact ⟨hknown.quiet (hoffer hsome).2.1, (hoffer hsome).2.2⟩
  · cases htaken

end Running

theorem Sound.step (h : w.Sound) (hlost : t.LosesNoRedirect) : (w.step ask t).Sound := by
  obtain ⟨handling, written, offers, taken⟩ := w
  cases handling with
  | running s =>
    have hknown := h.known s rfl
    obtain rfl : taken = false := hknown.untaken
    exact sound_step hknown hlost
  | answered reply =>
    refine ⟨fun s' hs' => ?_, fun htaken => ?_⟩
    · cases hs'
    · exact h.copies ((Bool.or_false taken).symm.trans htaken)

theorem Sound.one_carry (h : w.Sound) (hlost : t.LosesNoRedirect) : w.CarriesOnce ask t := by
  obtain ⟨handling, written, offers, taken⟩ := w
  cases handling with
  | running s =>
    have hknown := h.known s rfl
    obtain rfl : taken = false := hknown.untaken
    exact one_carry_running hknown hlost
  | answered reply =>
    refine ⟨fun hoffer => ?_, fun hoffer => ?_, fun _ => ⟨rfl, rfl⟩, (h.step hlost).copies⟩
    · cases hoffer
    · cases hoffer

theorem sound_opened (m : Manager) (disk : Option Config) (ask : Ask) (o : Opening) :
    Sound ⟨openRequest m disk ask o, 0, 0, false⟩ :=
  ⟨fun _ _ => ⟨fun _ => rfl, fun _ => rfl, rfl⟩, fun htaken => by cases htaken⟩

end Sound

/-- In every run in which no send is answered with a redirect and then fails to connect to its
target, a carry never sends a request twice. -/
theorem carries_once (m : Manager) (disk : Option Config) (ask : Ask) (o : Opening)
    (turns : List Turn) (hlost : ∀ t ∈ turns, t.LosesNoRedirect) :
    Lib.EachStep (step ask) (CarriesOnce ask) { handling := openRequest m disk ask o } turns :=
  Lib.each_step_of_invariant (I := Sound) (A := fun _ t => t.LosesNoRedirect)
    (fun _ _ hsound hlost => hsound.step hlost) (fun _ _ hsound hlost => hsound.one_carry hlost)
    (sound_opened m disk ask o) fun _ t hpre => hlost t (hpre.subset (by simp))

/-- Two accounts, and a request that any of them may serve. -/
def pairFleet : Manager :=
  .new { accounts := [{ name := "ada", provider := .anthropic },
    { name := "bob", provider := .anthropic }] }

def plainRequest : Ask :=
  { base := { now := 0, path := "/v1/messages" } }

/-- A turn whose send fails to connect, at once or at the target of a redirect. -/
def unconnected (redirected : Bool) (carry : ViaCarry) : Turn where
  now := 0
  fleet := pairFleet
  dry := { fleet := pairFleet, woken := pairFleet }
  sending := pairFleet
  came := .failed { fault := .connect, redirected := redirected } carry
  failing := pairFleet
  failNow := 0

/-- Neither account connects, and a peer carries the request. -/
theorem unconnected_request_carried :
    Lib.EachStep (step plainRequest) (CarriesOnce plainRequest)
        { handling := openRequest pairFleet none plainRequest { now := 0 } }
        [unconnected false .notTaken, unconnected false .carried] ∧
      (Lib.exec (step plainRequest)
        { handling := openRequest pairFleet none plainRequest { now := 0 } }
        [unconnected false .notTaken, unconnected false .carried]).taken = true := by
  have hplain : ∀ carry, (unconnected false carry).LosesNoRedirect := by
    intro carry err carry' hcame hredirected
    obtain ⟨rfl, -⟩ := SendOutcome.failed.inj hcame
    cases hredirected
  refine ⟨carries_once _ _ _ _ _ fun t ht => ?_, by decide +kernel⟩
  simp only [List.mem_cons, List.not_mem_nil, or_false] at ht
  rcases ht with rfl | rfl
  · exact hplain .notTaken
  · exact hplain .carried

/-- The first account answers with a redirect whose target does not connect, the second account does
not connect, and the peer that is then asked sends the request again. -/
theorem redirected_request_carried :
    ¬Lib.EachStep (step plainRequest) (CarriesOnce plainRequest)
        { handling := openRequest pairFleet none plainRequest { now := 0 } }
        [unconnected true .notTaken, unconnected false .carried] ∧
      (Lib.exec (step plainRequest)
        { handling := openRequest pairFleet none plainRequest { now := 0 } }
        [unconnected true .notTaken, unconnected false .carried]).written = 2 := by
  refine ⟨fun h => ?_, by decide +kernel⟩
  have hsecond := (Lib.each_step_cons.mp (Lib.each_step_cons.mp h).2).1
  exact absurd (hsecond.copies (by decide +kernel)) (by decide +kernel)

end Wire

end TeamClaude
