import TeamClaude.Lib.Exec
import TeamClaude.Manager.Doors
import TeamClaude.Proxy.Rotation

/-!
# What one turn can do

Every way a turn of the rotation can leave the accounts it benched, parked, held and named for the
next attempt. An attempt changes only budgets and the tally; the account of a turn is the one a
move has named or one that is not benched.
-/

namespace TeamClaude

/-! ## Picks of the manager -/

namespace Manager

variable {m : Manager} {disk : Option Config} {r : Request} {idx : Nat}

theorem select_untried (h : (m.selectWithGroup disk r).1 = some idx) : idx ∉ r.tried := by
  have hs := door_servable (select_core_door h)
  have htried : idx ∉ ((m.reloadGroupsIfChanged disk).excludeUnsupportedCodexExits r.tried
      r.provider).1 := hs.1
  rw [exclude_tried] at htried
  exact fun hin => htried (Finset.mem_union_left _ hin)

theorem revalidation_sticky_untried {kept : Kept} (h : m.revalidationSticky r kept = some idx) :
    idx ∉ r.tried := by
  unfold revalidationSticky at h
  split at h
  · split at h
    · rename_i hok
      obtain rfl := Option.some_injective _ h
      simp only [Bool.and_eq_true, Bool.not_eq_true', decide_eq_false_iff_not] at hok
      exact hok.1
    · cases h
  · cases h

theorem least_utilized_untried (h : m.leastUtilized r = some idx) : idx ∉ r.tried := by
  obtain ⟨k, hk⟩ := Lib.scan_best_some h
  obtain ⟨a, -, hok, -⟩ := hk.admitted
  simp only [Bool.not_eq_true', Bool.or_eq_false_iff, decide_eq_false_iff_not] at hok
  exact hok.1

theorem revalidation_core_untried (h : (m.revalidationCore r).1 = some idx) : idx ∉ r.tried := by
  unfold revalidationCore at h
  split at h
  · rename_i pinned hpin
    obtain rfl := Option.some_injective _ h
    have hok := (Option.filter_eq_some_iff.mp hpin).2
    simp only [Bool.and_eq_true, Bool.not_eq_true', decide_eq_false_iff_not] at hok
    exact hok.1
  · unfold revalidationFallback at h
    split at h
    · cases h
    · rename_i picked hpick
      split at h
      · cases h
      · obtain rfl := Option.some_injective _ h
        rcases Option.or_eq_some_iff.mp hpick with hsticky | ⟨-, hleast⟩
        · obtain ⟨kept, -, hsticky⟩ := Option.bind_eq_some_iff.mp hsticky
          exact revalidation_sticky_untried hsticky
        · exact least_utilized_untried hleast

theorem revalidation_untried (h : (m.selectRevalidation disk r).1 = some idx) : idx ∉ r.tried := by
  have htried := revalidation_core_untried h
  simp only [exclude_tried] at htried
  exact fun hin => htried (Finset.mem_union_left _ hin)

theorem select_bound_some {bound : Nat} {tried : Finset Nat} {now : Instant} {isFable : Bool}
    {group strictGroup : Option String} {warm : WarmWindow}
    (h : (m.selectBound bound tried now isFable group strictGroup warm).1 = some idx) :
    idx = bound ∧ idx ∉ tried := by
  unfold selectBound at h
  split at h
  · cases h
  · rename_i huntried
    split at h
    · cases h
    · simp only at h
      split at h
      · cases h
      · obtain rfl := Option.some_injective _ h
        exact ⟨rfl, huntried⟩

end Manager

/-! ## Attempts -/

namespace Ladder

/-- The two ladders have the same accounts out and the same one named for the next attempt. -/
structure SameBenches (l l' : Ladder) : Prop where
  tried : l'.tried = l.tried
  benchedForHold : l'.benchedForHold = l.benchedForHold
  nextIdx : l'.nextIdx = l.nextIdx
  parkedTransient : l'.parkedTransient = l.parkedTransient
  softWaitedExhaustion : l'.softWaitedExhaustion = l.softWaitedExhaustion

@[refl] theorem SameBenches.refl (l : Ladder) : l.SameBenches l := ⟨rfl, rfl, rfl, rfl, rfl⟩

theorem SameBenches.trans {l l' l'' : Ladder} (h : l.SameBenches l') (h' : l'.SameBenches l'') :
    l.SameBenches l'' where
  tried := h'.tried.trans h.tried
  benchedForHold := h'.benchedForHold.trans h.benchedForHold
  nextIdx := h'.nextIdx.trans h.nextIdx
  parkedTransient := h'.parkedTransient.trans h.parkedTransient
  softWaitedExhaustion := h'.softWaitedExhaustion.trans h.softWaitedExhaustion

theorem same_benches_on_tally (l : Ladder) (f : Tally → Tally) : l.SameBenches (l.onTally f) :=
  ⟨rfl, rfl, rfl, rfl, rfl⟩

end Ladder

namespace Rotation

open Ladder

variable {ask : Ask} {s : Rotation} {t : Turn} {idx : Nat}

theorem retry_or_rotate_same (l : Ladder) (idx : Nat) (err : TransportError) :
    l.SameBenches (retryOrRotate l idx err).1 := by
  unfold retryOrRotate
  split
  · unfold Ladder.takeOfflineWait
    by_cases hwait : l.offlineFailed.offlineWaits < maxOfflineWaitsPerRequest
    · simp only [if_pos hwait]
      exact ⟨rfl, rfl, rfl, rfl, rfl⟩
    · simp only [if_neg hwait]
      exact same_benches_on_tally l _
  · have hunknown : l.SameBenches (if err.isConnect then l else l.unknownOutcome) := by
      split
      · rfl
      · exact same_benches_on_tally l _
    generalize (if err.isConnect then l else l.unknownOutcome) = l₁ at hunknown ⊢
    have hreset : l₁.SameBenches
        (if err.fault = .pastConnect true then l₁.firstResetRecycle idx else l₁) := by
      split
      · exact ⟨rfl, rfl, rfl, rfl, rfl⟩
      · rfl
    simp only
    generalize (if err.fault = .pastConnect true then l₁.firstResetRecycle idx else l₁) = l₂
      at hreset ⊢
    split
    · exact (hunknown.trans hreset).trans ⟨rfl, rfl, rfl, rfl, rfl⟩
    · exact hunknown.trans hreset

theorem on_failure_same (ask : Ask) (s : Rotation) (m : Manager) (idx : Nat) (err : TransportError)
    (carry : ViaCarry) : s.ladder.SameBenches (s.onFailure ask m idx err carry).1 := by
  have hfailed : s.ladder.SameBenches s.ladder.transportFailed := same_benches_on_tally _ _
  unfold onFailure
  simp only
  split
  · have hspent : s.ladder.SameBenches s.ladder.transportFailed.spendPeerEgress :=
      hfailed.trans ⟨rfl, rfl, rfl, rfl, rfl⟩
    cases carry with
    | takenAndFailed => exact hspent
    | carried => exact hspent
    | notTaken => exact hspent.trans (retry_or_rotate_same _ idx err)
  · exact hfailed.trans (retry_or_rotate_same _ idx err)

/-- A property of ladders that no arm of an answered attempt changes. -/
structure KeptByAnswers (P : Ladder → Prop) : Prop where
  firstForcedRefresh : ∀ l idx, P l → P (l.firstForcedRefresh idx).1
  codexAccessUnread : ∀ l, P l → P l.codexAccessUnread
  accountAccessBlocked : ∀ l answer, P l → P (l.accountAccessBlocked answer)
  refuse403 : ∀ l idx name, P l → P (l.refuse403 idx name)
  spend429Retry : ∀ l idx, P l → P (l.spend429Retry idx)
  spend529Retry : ∀ l idx, P l → P (l.spend529Retry idx)

theorem KeptByAnswers.on_transient_429 {P : Ladder → Prop} (hkept : KeptByAnswers P) {l : Ladder}
    (hl : P l) (idx : Nat) (a : UpstreamAnswer) : P (onTransient429 l idx a).1 := by
  unfold onTransient429
  split
  · exact hkept.spend429Retry l idx hl
  · exact hl

theorem KeptByAnswers.on_answer {P : Ladder → Prop} (hkept : KeptByAnswers P)
    (hl : P s.ladder.upstreamAnswered) (a : UpstreamAnswer) : P (s.onAnswer ask t idx a).1 := by
  unfold onAnswer
  simp only
  generalize s.ladder.upstreamAnswered = l at hl ⊢
  split
  · unfold onUnauthorized
    split
    · exact hl
    · exact hkept.firstForcedRefresh l idx hl
  split
  · unfold onForbidden
    split
    · exact hkept.codexAccessUnread l hl
    · exact hkept.accountAccessBlocked l _ hl
    · exact hl
    · exact hkept.refuse403 l idx _ hl
  split
  · unfold onTooManyRequests
    split
    · split
      · exact hl
      split
      · exact hl
      · exact hkept.on_transient_429 hl idx a
    · split
      · exact hl
      · exact hkept.on_transient_429 hl idx a
  split
  · unfold onOverloaded
    split
    · exact hkept.spend529Retry l idx hl
    split
    · split
      · exact hl
      · exact hl
    · exact hl
  · exact hl

theorem same_benches_kept (l₀ : Ladder) : KeptByAnswers l₀.SameBenches where
  firstForcedRefresh _ _ h := h.trans ⟨rfl, rfl, rfl, rfl, rfl⟩
  codexAccessUnread _ h := h.trans (same_benches_on_tally _ _)
  accountAccessBlocked _ _ h := h.trans (same_benches_on_tally _ _)
  refuse403 _ _ _ h := h.trans (same_benches_on_tally _ _)
  spend429Retry _ _ h := h.trans ⟨rfl, rfl, rfl, rfl, rfl⟩
  spend529Retry _ _ h := h.trans ⟨rfl, rfl, rfl, rfl, rfl⟩

/-- An attempt changes budgets and the tally. -/
theorem attempt_same (ask : Ask) (s : Rotation) (t : Turn) (idx : Nat) :
    s.ladder.SameBenches (s.attempt ask t idx).1 := by
  unfold attempt
  split
  · exact on_failure_same ask s t.sending idx _ _
  · exact (same_benches_kept s.ladder).on_answer (same_benches_on_tally _ _) _

theorem same_org_release_untried {m : Manager} {disk : Option Config} {bound next : Nat}
    {tried : Finset Nat} {now : Instant} (h : sameOrgRelease m disk ask bound tried now = some next) :
    next ∉ tried := by
  unfold sameOrgRelease at h
  split at h
  · exact fun hin => Manager.select_untried h (Finset.mem_union_right _ hin)
  · cases h

theorem fail_over_untried {other : Nat} (h : (s.attempt ask t idx).2 = .failOver other) :
    other ∉ insert idx s.ladder.tried := by
  have hup : s.ladder.upstreamAnswered.tried = s.ladder.tried := rfl
  unfold attempt at h
  split at h
  · unfold onFailure retryOrRotate at h
    simp only at h
    repeat' split at h
    all_goals cases h
  · rename_i a _
    unfold onAnswer at h
    simp only at h
    split at h
    · unfold onUnauthorized at h
      simp only at h
      repeat' split at h
      all_goals cases h
    split at h
    · unfold onForbidden at h
      repeat' split at h
      all_goals cases h
    split at h
    · unfold onTooManyRequests onTransient429 at h
      repeat' split at h
      all_goals cases h
    split at h
    · unfold onOverloaded at h
      split at h
      · cases h
      split at h
      · split at h
        · rename_i hselect
          obtain rfl := Step.failOver.inj h
          exact hup ▸ Manager.select_untried hselect
        · cases h
      · cases h
    · cases h

end Rotation

/-! ## Turns -/

inductive BenchKind
  | scope
  | hold
  | rotated
  | parked
  | failedOver
  deriving DecidableEq

/-- What a turn does to the accounts that are out. -/
inductive Move
  | idle
  | waited (woken : Manager) (nowMs : Int)
  | released
  | benched (idx : Nat) (kind : BenchKind)

/-- The account a turn sends on, and its move. -/
structure Observed where
  sent : Option Nat := none
  move : Move := .idle

namespace Rotation

def observeMove (ask : Ask) (s : Rotation) (t : Turn) (idx : Nat) : Move :=
  match (s.attempt ask t idx).2 with
  | .rotate => .benched idx .rotated
  | .park => .benched idx .parked
  | .failOver _ => .benched idx .failedOver
  | .forward _ => if (refusedModel ask t).isSome then .benched idx .rotated else .idle
  | .retrySame | .answer _ => .idle

/-- The account of a turn is the one named for it, or one that is not benched. -/
def Chosen (s : Rotation) (idx : Nat) : Prop :=
  s.ladder.nextIdx = some idx ∨ s.ladder.nextIdx = none ∧ idx ∉ s.ladder.tried

/-- What a turn of the request can do, beside what is observed of it. -/
inductive Turned (s : Rotation) (t : Turn) : Observed → Handling → Prop
  | replied (reply : Reply) : Turned s t {} (.answered reply)
  | waited {s' : Rotation} (hnext : s.ladder.nextIdx = none)
      (hfirst : s.ladder.softWaitedExhaustion = false)
      (hladder : s'.ladder =
        s.ladder.spendSoftWait.readmitExpiredParks t.dry.woken t.dry.wokenMs)
      (hbound : s'.boundTo = s.boundTo) :
      Turned s t { move := .waited t.dry.woken t.dry.wokenMs } (.running s')
  | released {s' : Rotation} {bound : Nat} {next : Option Nat} (hnext : s.ladder.nextIdx = none)
      (hheld : s.boundTo = some bound) (hladder : s'.ladder = s.ladder.releaseHold.setNext next)
      (huntried : ∀ idx, next = some idx → idx ∉ s.ladder.releaseHold.tried)
      (hbound : s'.boundTo = none) : Turned s t { move := .released } (.running s')
  | unsendable {s' : Rotation} {idx : Nat} (hchosen : s.Chosen idx)
      (hladder : s'.ladder = (s.ladder.setNext none).bench idx) (hbound : s'.boundTo = s.boundTo) :
      Turned s t { move := .benched idx .rotated } (.running s')
  | finished {idx : Nat} (hchosen : s.Chosen idx) (hsend : sendable t idx = true) (reply : Reply) :
      Turned s t { sent := some idx } (.answered reply)
  | retried {s' : Rotation} {l : Ladder} {idx : Nat} (hchosen : s.Chosen idx)
      (hsend : sendable t idx = true) (hsame : (s.ladder.setNext none).SameBenches l)
      (hladder : s'.ladder = l.retrySame idx) (hbound : s'.boundTo = s.boundTo) :
      Turned s t { sent := some idx } (.running s')
  | rotated {s' : Rotation} {l : Ladder} {idx : Nat} (hchosen : s.Chosen idx)
      (hsend : sendable t idx = true) (hsame : (s.ladder.setNext none).SameBenches l)
      (hladder : s'.ladder = l.bench idx) (hbound : s'.boundTo = s.boundTo) :
      Turned s t { sent := some idx, move := .benched idx .rotated } (.running s')
  | parked {s' : Rotation} {l : Ladder} {idx : Nat} (hchosen : s.Chosen idx)
      (hsend : sendable t idx = true) (hsame : (s.ladder.setNext none).SameBenches l)
      (hladder : s'.ladder = l.park idx) (hbound : s'.boundTo = s.boundTo) :
      Turned s t { sent := some idx, move := .benched idx .parked } (.running s')
  | failedOver {s' : Rotation} {l : Ladder} {idx other : Nat} (hchosen : s.Chosen idx)
      (hsend : sendable t idx = true) (hsame : (s.ladder.setNext none).SameBenches l)
      (hother : other ∉ insert idx l.tried) (hladder : s'.ladder = l.failOver529 idx other)
      (hbound : s'.boundTo = s.boundTo) :
      Turned s t { sent := some idx, move := .benched idx .failedOver } (.running s')

end Rotation

namespace Handling

/-- The account the request is held to. -/
def boundTo : Handling → Option Nat
  | .running s => s.boundTo
  | .answered _ => none

/-- What is seen of a turn from outside the ladder. -/
def observe (ask : Ask) (h : Handling) (t : Turn) : Observed :=
  match h with
  | .answered _ => {}
  | .running s =>
    match s.attempts with
    | 0 => {}
    | n + 1 =>
      match { s with attempts := n }.pick ask t with
      | .account idx s =>
        if !Rotation.sendable t idx then { move := .benched idx .rotated }
        else if t.pinnedAnswer then { sent := some idx }
        else { sent := some idx, move := s.observeMove ask t idx }
      | .waited _ => { move := .waited t.dry.woken t.dry.wokenMs }
      | .released _ => { move := .released }
      | .reply _ => {}

end Handling

namespace Rotation

variable {ask : Ask} {s : Rotation} {t : Turn} {idx : Nat}

inductive PickCase (s : Rotation) (t : Turn) : Picked → Prop
  | account {idx : Nat} (hchosen : s.Chosen idx) :
      PickCase s t (.account idx { s with ladder := s.ladder.setNext none })
  | waited (hnext : s.ladder.nextIdx = none) (hfirst : s.ladder.softWaitedExhaustion = false) :
      PickCase s t (.waited { s with
        ladder := s.ladder.spendSoftWait.readmitExpiredParks t.dry.woken t.dry.wokenMs })
  | released {bound : Nat} {next : Option Nat} (hnext : s.ladder.nextIdx = none)
      (hheld : s.boundTo = some bound)
      (huntried : ∀ idx, next = some idx → idx ∉ s.ladder.releaseHold.tried) :
      PickCase s t (.released { s with
        boundTo := none
        ladder := s.ladder.releaseHold.setNext next })
  | reply (r : Reply) : PickCase s t (.reply r)

/-- An account picked while none is named. -/
theorem pick_case_picked (hnext : s.ladder.nextIdx = none) (huntried : idx ∉ s.ladder.tried) :
    s.PickCase t (.account idx s) := by
  have hsame : { s with ladder := s.ladder.setNext none } = s := by
    rw [Ladder.setNext, ← hnext]
  have hpick : s.PickCase t (.account idx { s with ladder := s.ladder.setNext none }) :=
    .account (.inr ⟨hnext, huntried⟩)
  rwa [hsame] at hpick

theorem soft_wait_first {hint secs : Int} {waited : Bool} (h : softWaitSecs hint waited = some secs) :
    waited = false := by
  unfold softWaitSecs at h
  split at h
  · cases h
  · rename_i hnot
    simpa using fun hwaited : waited = true => hnot (.inl hwaited)

theorem pick_dry_case (ask : Ask) (hnext : s.ladder.nextIdx = none) :
    s.PickCase t (s.pickDry ask t.now t.dry) := by
  unfold pickDry
  simp only
  split
  · exact .reply _
  split
  · rename_i hwait
    exact .waited hnext (soft_wait_first hwait)
  split
  · exact .reply _
  split
  · rename_i bound hheld
    split
    · split
      · exact .reply _
      · exact .released hnext hheld fun idx => same_org_release_untried
    · split
      · rename_i hbound
        exact pick_case_picked hnext (Manager.select_bound_some hbound).2
      · exact .reply _
  · split
    · split
      · rename_i hrevalidation
        exact pick_case_picked hnext (Manager.revalidation_untried hrevalidation)
      · exact .reply _
    · exact .reply _

theorem pick_case (ask : Ask) (s : Rotation) (t : Turn) : s.PickCase t (s.pick ask t) := by
  unfold pick
  split
  · rename_i hnext
    exact .account (.inl hnext)
  · rename_i hnext
    split
    · rename_i hselect
      exact pick_case_picked hnext (Manager.select_untried hselect)
    · exact pick_dry_case ask hnext

theorem turned_serve (ask : Ask) {s s₀ : Rotation} (hchosen : s₀.Chosen idx)
    (hladder : s.ladder = s₀.ladder.setNext none) (hbound : s.boundTo = s₀.boundTo) :
    s₀.Turned t
      (if !sendable t idx then { move := .benched idx .rotated }
        else if t.pinnedAnswer then { sent := some idx }
        else { sent := some idx, move := s.observeMove ask t idx })
      (s.serve ask t idx) := by
  unfold serve
  by_cases hsend : sendable t idx = true
  · simp only [hsend, Bool.not_true, Bool.false_eq_true, if_false]
    split
    · exact .finished hchosen hsend _
    · have hsame := attempt_same ask s t idx
      have hother : ∀ other, (s.attempt ask t idx).2 = .failOver other →
          other ∉ insert idx (s.attempt ask t idx).1.tried := by
        intro other hstep
        rw [hsame.tried]
        exact fail_over_untried hstep
      rw [hladder] at hsame
      simp only [move, observeMove]
      generalize s.attempt ask t idx = done at hsame hother
      obtain ⟨l, step⟩ := done
      cases step with
      | retrySame => exact .retried hchosen hsend hsame rfl hbound
      | rotate => exact .rotated hchosen hsend hsame rfl hbound
      | park => exact .parked hchosen hsend hsame rfl hbound
      | failOver other => exact .failedOver hchosen hsend hsame (hother other rfl) rfl hbound
      | answer reply => exact .finished hchosen hsend reply
      | forward status =>
        cases refusedModel ask t with
        | none => exact .finished hchosen hsend _
        | some detail =>
          exact .rotated hchosen hsend (hsame.trans (Ladder.same_benches_on_tally l _)) rfl hbound
  · simp only [hsend, Bool.not_false, if_true]
    exact .unsendable hchosen (by rw [hladder]) hbound

/-- Everything that one turn of a request can do. -/
theorem turned (ask : Ask) (s : Rotation) (t : Turn) :
    s.Turned t ((Handling.running s).observe ask t) ((Handling.running s).turn ask t) := by
  simp only [Handling.observe, Handling.turn]
  cases s.attempts with
  | zero => exact .replied _
  | succ n =>
    have hpick := pick_case ask { s with attempts := n } t
    simp only
    generalize ({ s with attempts := n } : Rotation).pick ask t = picked at hpick ⊢
    cases hpick with
    | account hchosen => exact turned_serve ask hchosen rfl rfl
    | waited hnext hfirst => exact .waited hnext hfirst rfl rfl
    | released hnext hheld huntried => exact .released hnext hheld rfl huntried rfl
    | reply r => exact .replied r

end Rotation

/-! ## Openings -/

/-- The request is scoped to a set that the account is not in. -/
def outOfScope (m : Manager) (ask : Ask) (idx : Nat) : Bool :=
  ask.scope.any fun labels => !(m.account idx).any fun a => Names labels a.name

namespace Ladder

variable (m : Manager) (ask : Ask) (labels : List String) (bound n : Nat) (l : Ladder)

theorem bench_outside_succ : benchOutside m labels (n + 1) l =
    if (m.account n).any fun a => Names labels a.name then benchOutside m labels n l
    else (benchOutside m labels n l).bench n := by
  simp only [benchOutside, List.range_succ, List.foldl_append, List.foldl_cons, List.foldl_nil]

theorem hold_to_succ : l.holdTo bound (n + 1) =
    if n = bound then l.holdTo bound n else (l.holdTo bound n).benchForHold n := by
  simp only [holdTo, List.range_succ, List.foldl_append, List.foldl_cons, List.foldl_nil]

/-- A ladder on which nothing has been parked, held or named. -/
structure Fresh (l : Ladder) : Prop where
  benchedForHold : l.benchedForHold = []
  nextIdx : l.nextIdx = none
  parkedTransient : l.parkedTransient = ∅
  softWaitedExhaustion : l.softWaitedExhaustion = false

theorem bench_outside_fresh (h : l.Fresh) : (benchOutside m labels n l).Fresh := by
  induction n with
  | zero => exact h
  | succ n ih =>
    rw [bench_outside_succ]
    split
    · exact ih
    · exact ⟨ih.benchedForHold, ih.nextIdx, ih.parkedTransient, ih.softWaitedExhaustion⟩

theorem mem_bench_outside {idx : Nat} : idx ∈ (benchOutside m labels n l).tried ↔
    idx ∈ l.tried ∨ idx < n ∧ ¬(m.account idx).any (fun a => Names labels a.name) = true := by
  induction n with
  | zero => simp [benchOutside]
  | succ n ih =>
    rw [bench_outside_succ]
    by_cases hin : (m.account n).any (fun a => Names labels a.name) = true
    · rw [if_pos hin, ih]
      refine or_congr_right (and_congr_left fun hout => ?_)
      have hne : idx ≠ n := fun heq => hout (heq ▸ hin)
      omega
    · rw [if_neg hin]
      show idx ∈ insert n (benchOutside m labels n l).tried ↔ _
      rw [Finset.mem_insert, ih]
      by_cases heq : idx = n
      · subst heq
        exact iff_of_true (.inl rfl) (.inr ⟨Nat.lt_succ_self _, hin⟩)
      · have hlt : idx < n ↔ idx < n + 1 := by omega
        rw [hlt]
        exact or_iff_right heq

theorem fresh_in_scope : (inScope m ask n).Fresh := by
  unfold inScope
  split
  · exact bench_outside_fresh m _ n {} ⟨rfl, rfl, rfl, rfl⟩
  · exact ⟨rfl, rfl, rfl, rfl⟩

theorem mem_in_scope {idx : Nat} :
    idx ∈ (inScope m ask n).tried ↔ idx < n ∧ outOfScope m ask idx = true := by
  unfold inScope outOfScope
  split
  · rename_i labels hscope
    rw [mem_bench_outside, hscope]
    simp
  · rename_i hscope
    rw [hscope]
    simp

theorem mem_bench_for_hold {idx i : Nat} : i ∈ (l.benchForHold idx).tried ↔ i = idx ∨ i ∈ l.tried := by
  unfold benchForHold
  split
  · rename_i hin
    exact (or_iff_right_of_imp fun heq => heq ▸ hin).symm
  · exact Finset.mem_insert

theorem mem_held_bench_for_hold {idx i : Nat} : i ∈ (l.benchForHold idx).benchedForHold ↔
    i ∈ l.benchedForHold ∨ i = idx ∧ i ∉ l.tried := by
  unfold benchForHold
  split
  · rename_i hin
    exact (or_iff_left fun h => h.2 (h.1 ▸ hin)).symm
  · rename_i hout
    rw [List.mem_append, List.mem_singleton]
    exact or_congr_right ⟨fun heq => ⟨heq, heq ▸ hout⟩, And.left⟩

theorem mem_hold_to {idx : Nat} :
    idx ∈ (l.holdTo bound n).tried ↔ idx ∈ l.tried ∨ idx < n ∧ idx ≠ bound := by
  induction n with
  | zero => simp [holdTo]
  | succ n ih =>
    rw [hold_to_succ]
    split
    · rw [ih]
      refine or_congr_right ?_
      omega
    · rw [mem_bench_for_hold, ih]
      refine ⟨fun h => ?_, fun h => ?_⟩ <;> grind

/-- The hold remembers what it benches, unless it was benched before. -/
theorem mem_held_hold_to {idx : Nat} : idx ∈ (l.holdTo bound n).benchedForHold ↔
    idx ∈ l.benchedForHold ∨ idx ∉ l.tried ∧ idx < n ∧ idx ≠ bound := by
  induction n with
  | zero => simp [holdTo]
  | succ n ih =>
    rw [hold_to_succ]
    split
    · rw [ih]
      refine or_congr_right (and_congr_right fun _ => ?_)
      omega
    · rw [mem_held_bench_for_hold, ih, mem_hold_to]
      refine ⟨fun h => ?_, fun h => ?_⟩ <;> grind

/-- The hold changes nothing but the two. -/
theorem hold_to_rest : (l.holdTo bound n).nextIdx = l.nextIdx ∧
    (l.holdTo bound n).parkedTransient = l.parkedTransient ∧
    (l.holdTo bound n).softWaitedExhaustion = l.softWaitedExhaustion := by
  induction n with
  | zero => exact ⟨rfl, rfl, rfl⟩
  | succ n ih =>
    rw [hold_to_succ]
    split
    · exact ih
    · unfold benchForHold
      split
      · exact ih
      · exact ih

end Ladder

/-- What a request starts with: no hold and at most an account it is released to, or the hold. -/
inductive Opened (m : Manager) (ask : Ask) (n : Nat) : Handling → Prop
  | answered (reply : Reply) : Opened m ask n (.answered reply)
  | free {s : Rotation} {next : Option Nat}
      (hladder : s.ladder = (Ladder.inScope m ask n).setNext next)
      (huntried : ∀ idx, next = some idx → idx ∉ (Ladder.inScope m ask n).tried)
      (hbound : s.boundTo = none) : Opened m ask n (.running s)
  | held {s : Rotation} {bound : Nat} (hladder : s.ladder = (Ladder.inScope m ask n).holdTo bound n)
      (hbound : s.boundTo = some bound) : Opened m ask n (.running s)

theorem opened (m : Manager) (disk : Option Config) (ask : Ask) (o : Opening) :
    Opened (m.reloadGroupsIfChanged disk) ask m.accounts.length (openRequest m disk ask o) := by
  unfold openRequest
  simp only
  split
  · have hnone : Ladder.inScope (m.reloadGroupsIfChanged disk) ask m.accounts.length =
        (Ladder.inScope (m.reloadGroupsIfChanged disk) ask m.accounts.length).setNext none := by
      rw [Ladder.setNext, ← (Ladder.fresh_in_scope _ ask _).nextIdx]
    exact .free hnone nofun rfl
  · split
    · exact .held rfl rfl
    · split
      · exact .answered _
      · exact .free rfl (fun idx => Rotation.same_org_release_untried) rfl

end TeamClaude
