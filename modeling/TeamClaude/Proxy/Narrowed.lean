import TeamClaude.Manager.Mirror
import TeamClaude.Proxy.Moves

/-!
# A narrowed request

A relayed request is scoped to a set of accounts, and a request with a bound history is held to one,
by benching every other account the fleet has when the request is opened. An account that is
admitted later is benched by neither, so the request stays narrow as long as none that it may not use
joins the fleet.
-/

namespace TeamClaude

/-! ## Ladders inside a set -/

/-- The ladder can name or re-admit no account outside `A`. -/
structure Ladder.Within (A : Nat → Prop) (l : Ladder) : Prop where
  tried : ∀ idx, ¬A idx → idx ∈ l.tried
  parked : ∀ idx ∈ l.parkedTransient, A idx
  next : ∀ idx, l.nextIdx = some idx → A idx

section Within

variable {A : Nat → Prop} {l l' : Ladder} {s : Rotation} {t : Turn} {idx : Nat}

namespace Ladder

theorem Within.of_untried (h : l.Within A) (huntried : idx ∉ l.tried) : A idx := by
  by_contra hout
  exact huntried (h.tried idx hout)

theorem Within.chosen (h : s.ladder.Within A) (hchosen : s.Chosen idx) : A idx :=
  hchosen.elim (h.next idx) fun hpick => h.of_untried hpick.2

theorem Within.same (h : l.Within A) (hsame : l.SameBenches l') : l'.Within A where
  tried i := by rw [hsame.tried]; exact h.tried i
  parked i := by rw [hsame.parkedTransient]; exact h.parked i
  next i := by rw [hsame.nextIdx]; exact h.next i

theorem Within.set_next (h : l.Within A) {next : Option Nat} (hnext : ∀ idx, next = some idx → A idx) :
    (l.setNext next).Within A :=
  ⟨h.tried, h.parked, hnext⟩

theorem Within.clear_next (h : l.Within A) : (l.setNext none).Within A :=
  h.set_next fun _ heq => by cases heq

theorem Within.bench (h : l.Within A) (idx : Nat) : (l.bench idx).Within A :=
  ⟨fun i hi => Finset.mem_insert_of_mem (h.tried i hi), h.parked, h.next⟩

theorem Within.park (h : l.Within A) (hin : A idx) : (l.park idx).Within A := by
  refine ⟨fun i hi => Finset.mem_insert_of_mem (h.tried i hi), fun i hi => ?_, h.next⟩
  rcases Finset.mem_insert.mp hi with rfl | hi
  · exact hin
  · exact h.parked i hi

/-- Only parked accounts come back from the wait. -/
theorem Within.readmit (h : l.Within A) (m : Manager) (nowMs : Int) :
    (l.spendSoftWait.readmitExpiredParks m nowMs).Within A := by
  refine ⟨fun i hi => ?_, fun i hi => ?_, h.next⟩
  · refine Finset.mem_sdiff.mpr ⟨h.tried i hi, fun hfreed => ?_⟩
    exact hi (h.parked i (Finset.mem_filter.mp hfreed).1)
  · exact h.parked i (Finset.mem_sdiff.mp hi).1

theorem Within.release (h : l.Within A) (hheld : ∀ idx ∈ l.benchedForHold, A idx) :
    l.releaseHold.Within A := by
  refine ⟨fun i hi => ?_, h.parked, h.next⟩
  exact Finset.mem_sdiff.mpr ⟨h.tried i hi, fun hback => hi (hheld i (List.mem_toFinset.mp hback))⟩

/-- A turn keeps the ladder inside the set, if the hold it may release has benched nothing outside
it. -/
theorem Within.turned (h : s.ladder.Within A) {o : Observed} {h' : Handling}
    (hturned : s.Turned t o h')
    (hheld : o.move = .released → ∀ idx ∈ s.ladder.benchedForHold, A idx) {s' : Rotation}
    (hs' : h' = .running s') : s'.ladder.Within A := by
  cases hturned with
  | replied reply => cases hs'
  | waited hnext hfirst hladder hbound =>
    cases hs'
    rw [hladder]
    exact h.readmit _ _
  | released hnext hbound hladder huntried hbound' =>
    cases hs'
    have hreleased := h.release (hheld rfl)
    rw [hladder]
    exact hreleased.set_next fun i heq => hreleased.of_untried (huntried i heq)
  | unsendable hchosen hladder hbound =>
    cases hs'
    rw [hladder]
    exact h.clear_next.bench _
  | finished hchosen hsend reply => cases hs'
  | retried hchosen hsend hsame hladder hbound =>
    cases hs'
    rw [hladder]
    exact (h.clear_next.same hsame).set_next fun i heq =>
      Option.some_injective _ heq ▸ h.chosen hchosen
  | rotated hchosen hsend hsame hladder hbound =>
    cases hs'
    rw [hladder]
    exact (h.clear_next.same hsame).bench _
  | parked hchosen hsend hsame hladder hbound =>
    cases hs'
    rw [hladder]
    exact (h.clear_next.same hsame).park (h.chosen hchosen)
  | @failedOver _ l idx other hchosen hsend hsame hother hladder hbound =>
    cases hs'
    have hl : l.Within A := h.clear_next.same hsame
    have hin : A other :=
      hl.of_untried fun hmem => hother (Finset.mem_insert_of_mem hmem)
    have hnamed : ((l.bench idx).setNext (some other)).Within A :=
      (hl.bench idx).set_next fun i heq => Option.some_injective _ heq ▸ hin
    rw [hladder]
    exact hnamed.same ⟨rfl, rfl, rfl, rfl, rfl⟩

end Ladder

end Within

namespace Rotation

variable {s : Rotation} {t : Turn} {o : Observed} {h' : Handling}

/-- A sent account was the turn's choice, and the fleet of the send has it. -/
theorem Turned.sent_chosen (hturned : s.Turned t o h') {idx : Nat} (hsent : o.sent = some idx) :
    s.Chosen idx ∧ sendable t idx = true := by
  cases hturned with
  | finished hchosen hsend | retried hchosen hsend | rotated hchosen hsend | parked hchosen hsend
  | failedOver hchosen hsend =>
    obtain rfl := Option.some_injective _ hsent
    exact ⟨hchosen, hsend⟩
  | _ => cases hsent

/-- A hold lasts until it is released, and none begins. -/
theorem Turned.held (hturned : s.Turned t o h') {s' : Rotation} (hs' : h' = .running s')
    {bound : Nat} (hbound : s'.boundTo = some bound) :
    s.boundTo = some bound ∧ o.move ≠ .released := by
  cases hturned with
  | replied reply => cases hs'
  | finished hchosen hsend reply => cases hs'
  | released hnext hheld hladder huntried hnone =>
    cases hs'
    rw [hnone] at hbound
    cases hbound
  | waited _ _ _ hkept | unsendable _ _ hkept | retried _ _ _ _ hkept | rotated _ _ _ _ hkept
  | parked _ _ _ _ hkept | failedOver _ _ _ _ _ hkept =>
    cases hs'
    exact ⟨hkept ▸ hbound, by simp⟩

/-- What the hold has benched does not grow after the request is opened. -/
theorem Turned.benched_for_hold (hturned : s.Turned t o h') {s' : Rotation}
    (hs' : h' = .running s') : s'.ladder.benchedForHold ⊆ s.ladder.benchedForHold := by
  cases hturned with
  | replied reply => cases hs'
  | finished hchosen hsend reply => cases hs'
  | released hnext hheld hladder huntried hnone =>
    cases hs'
    rw [hladder]
    exact List.nil_subset _
  | waited _ _ hladder | unsendable _ hladder =>
    cases hs'
    rw [hladder]
    exact List.Subset.refl _
  | retried _ _ hsame hladder | rotated _ _ hsame hladder | parked _ _ hsame hladder
  | failedOver _ _ hsame _ hladder =>
    cases hs'
    rw [hladder]
    exact fun idx hin => hsame.benchedForHold ▸ hin

end Rotation

/-! ## Runs of a narrowed request -/

/-- The scope has not benched this account: it joined later, or it is in the set. -/
def Unscoped (m : Manager) (ask : Ask) (count idx : Nat) : Prop :=
  ¬(idx < count ∧ outOfScope m ask idx = true)

/-- The hold has not benched this account. -/
def Unheld (count bound idx : Nat) : Prop :=
  idx < count → idx = bound

namespace Handling

/-- The request can reach no account that its scope or its hold has benched. -/
def Narrow (m : Manager) (ask : Ask) (count : Nat) (h : Handling) : Prop :=
  ∀ s, h = .running s → s.ladder.Within (Unscoped m ask count) ∧
    (∀ idx ∈ s.ladder.benchedForHold, Unscoped m ask count idx) ∧
    ∀ bound, s.boundTo = some bound → s.ladder.Within (Unheld count bound)

/-- The fleet of the turn's send is a later state of the fleet the request was opened on: no account
that the request's set does not name has joined it since the accounts were counted, and none at all
but the bound one while the request is held. -/
structure Undisturbed (m : Manager) (ask : Ask) (count : Nat) (h : Handling) (t : Turn) : Prop where
  later : m.KeepsSlots t.sending
  scope : ∀ labels, ask.scope = some labels → ∀ idx a, count ≤ idx →
    t.sending.account idx = some a → Names labels a.name = true
  hold : ∀ bound, h.boundTo = some bound → ∀ idx, count ≤ idx →
    (t.sending.account idx).isSome → idx = bound

/-- The turn sends on an account in the request's set, and on the bound one while it is held. -/
structure StaysNarrow (ask : Ask) (h : Handling) (t : Turn) : Prop where
  scope : ∀ idx, (h.observe ask t).sent = some idx → ∀ labels, ask.scope = some labels →
    ∃ a, t.sending.account idx = some a ∧ Names labels a.name = true
  hold : ∀ idx, (h.observe ask t).sent = some idx → ∀ bound, h.boundTo = some bound → idx = bound

variable {m : Manager} {ask : Ask} {count : Nat}

theorem narrow_opened {h : Handling} (hopened : Opened m ask count h) : h.Narrow m ask count := by
  obtain ⟨hheld, hnext, hparked, -⟩ := Ladder.fresh_in_scope m ask count
  have htried : ∀ idx, ¬Unscoped m ask count idx → idx ∈ (Ladder.inScope m ask count).tried :=
    fun idx hout => (Ladder.mem_in_scope m ask count).mpr (not_not.mp hout)
  have hscope : (Ladder.inScope m ask count).Within (Unscoped m ask count) := by
    refine ⟨htried, fun idx hin => ?_, fun idx hin => ?_⟩
    · rw [hparked] at hin
      cases hin
    · rw [hnext] at hin
      cases hin
  intro s hs
  cases hopened with
  | answered reply => cases hs
  | @free _ next hladder huntried hbound =>
    cases hs
    have hnone : ((Ladder.inScope m ask count).setNext next).benchedForHold = [] := hheld
    rw [hladder, hbound]
    refine ⟨hscope.set_next fun idx heq => hscope.of_untried (huntried idx heq), fun idx hin => ?_,
      fun bound heq => by cases heq⟩
    rw [hnone] at hin
    cases hin
  | @held _ bound hladder hbound =>
    cases hs
    obtain ⟨hnext', hparked', -⟩ :=
      Ladder.hold_to_rest bound count (Ladder.inScope m ask count)
    have hmem := @Ladder.mem_hold_to bound count (Ladder.inScope m ask count)
    have hwithin : ∀ A : Nat → Prop,
        (∀ idx, ¬A idx → idx ∈ ((Ladder.inScope m ask count).holdTo bound count).tried) →
        ((Ladder.inScope m ask count).holdTo bound count).Within A := by
      intro A hA
      refine ⟨hA, fun idx hin => ?_, fun idx hin => ?_⟩
      · rw [hparked', hparked] at hin
        cases hin
      · rw [hnext', hnext] at hin
        cases hin
    rw [hladder, hbound]
    refine ⟨hwithin _ fun idx hout => hmem.mpr (.inl (htried idx hout)), fun idx hin => ?_,
      fun bound' heq => ?_⟩
    · rw [Ladder.mem_held_hold_to, hheld] at hin
      exact hscope.of_untried (hin.resolve_left (by simp)).1
    · obtain rfl := Option.some_injective _ heq
      exact hwithin _ fun idx hout => hmem.mpr (.inr (Classical.not_imp.mp hout))

theorem narrow_turn {h : Handling} (hnarrow : h.Narrow m ask count) (t : Turn) :
    (h.turn ask t).Narrow m ask count := by
  intro s' hs'
  cases h with
  | answered reply => cases hs'
  | running s =>
    obtain ⟨hscope, hheld, hhold⟩ := hnarrow s rfl
    have hturned := s.turned ask t
    refine ⟨hscope.turned hturned (fun _ => hheld) hs',
      fun idx hin => hheld idx (hturned.benched_for_hold hs' hin), fun bound hbound => ?_⟩
    obtain ⟨hbefore, hkept⟩ := hturned.held hs' hbound
    exact (hhold bound hbefore).turned hturned (fun hreleased => absurd hreleased hkept) hs'

/-- An account of the fleet that the request was opened on still has its name. -/
theorem named_of_keeps {m' : Manager} (hkeeps : m.KeepsSlots m') {labels : List String} {idx : Nat}
    (hnamed : (m.account idx).any (fun a => Names labels a.name) = true) :
    ∃ a, m'.account idx = some a ∧ Names labels a.name = true := by
  obtain ⟨a, ha, hname⟩ := (Option.any_eq_true _ _).mp hnamed
  obtain ⟨a', ha', hfilled⟩ := hkeeps.1 idx a ha
  have hsame : a'.name = a.name := hfilled.name
  exact ⟨a', ha', hsame ▸ hname⟩

theorem stays_narrow_turn {h : Handling} (hnarrow : h.Narrow m ask count) {t : Turn}
    (hfleet : h.Undisturbed m ask count t) : h.StaysNarrow ask t := by
  cases h with
  | answered reply =>
    refine ⟨fun idx hsent => ?_, fun idx hsent => ?_⟩
    · cases hsent
    · cases hsent
  | running s =>
    obtain ⟨hscope, -, hhold⟩ := hnarrow s rfl
    have hturned := s.turned ask t
    refine ⟨fun idx hsent labels hlabels => ?_, fun idx hsent bound hbound => ?_⟩
    · obtain ⟨hchosen, hsend⟩ := hturned.sent_chosen hsent
      by_cases hidx : idx < count
      · have hin : ¬outOfScope m ask idx = true :=
          fun hout => hscope.chosen hchosen ⟨hidx, hout⟩
        refine named_of_keeps hfleet.later ?_
        simpa [outOfScope, hlabels] using hin
      · obtain ⟨a, ha, -⟩ := (Option.any_eq_true _ _).mp hsend
        exact ⟨a, ha, hfleet.scope labels hlabels idx a (by omega) ha⟩
    · obtain ⟨hchosen, hsend⟩ := hturned.sent_chosen hsent
      by_cases hidx : idx < count
      · exact (hhold bound hbound).chosen hchosen hidx
      · obtain ⟨a, ha, -⟩ := (Option.any_eq_true _ _).mp hsend
        exact hfleet.hold bound hbound idx (by omega) (by rw [ha]; rfl)

/-- In every run that no account outside the set, and while it is held no account but the bound one,
joins after the accounts were counted, a request is sent only on accounts of its set, and only on
the bound one while it is held. -/
theorem stays_narrow (m : Manager) (disk : Option Config) (ask : Ask) (o : Opening)
    (turns : List Turn)
    (hfleet : Lib.EachStep (turn ask)
      (Undisturbed (m.reloadGroupsIfChanged disk) ask m.accounts.length)
      (openRequest m disk ask o) turns) :
    Lib.EachStep (turn ask) (StaysNarrow ask) (openRequest m disk ask o) turns :=
  Lib.each_step_of_invariant (I := Narrow (m.reloadGroupsIfChanged disk) ask m.accounts.length)
    (fun _ t hnarrow _ => narrow_turn hnarrow t) (fun _ _ hnarrow => stays_narrow_turn hnarrow)
    (narrow_opened (opened m disk ask o)) hfleet

/-- A fleet of one account, and the file that bob has been added to. -/
def adaConfig : Config :=
  { accounts := [{ name := "ada", provider := .anthropic }] }

def withBob : Config :=
  { accounts := adaConfig.accounts ++
      [{ name := "bob", provider := .anthropic, priority := some (-1) }] }

/-- A turn whose pick reads this file again, and whose send is answered with this status. -/
def answeredTurn (fleet : Manager) (disk : Option Config) (status : Nat) : Turn :=
  let sending := fleet.reloadGroupsIfChanged disk
  { now := 0
    fleet := fleet
    disk := disk
    dry := { fleet := sending, woken := sending }
    sending := sending
    came := .answered { status := status }
    failing := sending
    failNow := 0 }

def lentRequest : Ask :=
  { base := { now := 0, path := "/v1/messages" }, relayed := true, accountSet := some "ada" }

def boundRequest : Ask :=
  { base := { now := 0, path := "/v1/messages" }, carriesBoundHistory := true }

/-- Over a fleet with bob in it, the request lent to ada is retried on her and answered. -/
theorem lent_request_stays_narrow :
    Lib.EachStep (turn lentRequest) (StaysNarrow lentRequest)
      (openRequest (Manager.new withBob) none lentRequest { now := 0 })
      [answeredTurn (Manager.new withBob) none 529, answeredTurn (Manager.new withBob) none 200] := by
  refine stays_narrow _ _ _ _ _ ?_
  have hfleet : ∀ h status, h.boundTo = none → Undisturbed (Manager.new withBob) lentRequest 2 h
      (answeredTurn (Manager.new withBob) none status) := by
    intro h status hfree
    refine ⟨Manager.keeps_slots_refl _, fun labels _ idx a hidx ha => ?_, fun bound hbound => ?_⟩
    · have hlt : idx < 2 := (List.getElem?_eq_some_iff.mp ha).1
      omega
    · rw [hfree] at hbound
      cases hbound
  exact Lib.each_step_cons.mpr ⟨hfleet _ _ rfl,
    Lib.each_step_cons.mpr ⟨hfleet _ _ (by decide +kernel), Lib.each_step_nil⟩⟩

/-- Bob joins with the pick of the first attempt: the request lent to ada is sent on bob, and so is
the request held to ada. -/
theorem joined_account_served :
    (Manager.new adaConfig).KeepsSlots (answeredTurn (Manager.new adaConfig) withBob 200).sending ∧
    ¬Lib.EachStep (turn lentRequest) (StaysNarrow lentRequest)
      (openRequest (Manager.new adaConfig) none lentRequest { now := 0 })
      [answeredTurn (Manager.new adaConfig) withBob 200] ∧
    ¬Lib.EachStep (turn boundRequest) (StaysNarrow boundRequest)
      (openRequest (Manager.new adaConfig) none boundRequest { now := 0, minted := some 0 })
      [answeredTurn (Manager.new adaConfig) withBob 200] := by
  refine ⟨Manager.keeps_slots_step _ (.reload withBob), fun h => ?_, fun h => ?_⟩
  · have hnames : ((answeredTurn (Manager.new adaConfig) withBob 200).sending.account 1).all
        (fun a => !Names ["ada"] a.name) = true := by decide +kernel
    obtain ⟨a, ha, hname⟩ := (Lib.each_step_cons.mp h).1.scope 1 (by decide +kernel) ["ada"]
      (by decide +kernel)
    rw [ha] at hnames
    simp [hname] at hnames
  · exact absurd ((Lib.each_step_cons.mp h).1.hold 1 (by decide +kernel) 0 (by decide +kernel))
      (by omega)

end Handling

end TeamClaude
