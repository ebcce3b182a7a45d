import TeamClaude.Manager.RowGate
import TeamClaude.Manager.Select

/-!
# The exhaustion hint

When no account may serve, how long a client is told to wait: the soonest instant at which a row of
the asked fleet reports its gate cleared, folded over the rows.
-/

namespace TeamClaude

structure ExhaustionHint where
  retryAfter : Int
  freeAt : Option Instant
  binding : Option RowGate
  gated : RowGate → Nat

/-- The manager with its rows as the gates see them. -/
structure HintFleet where
  manager : Manager
  rows : List GatedRow
  mirrors : rows.map GatedRow.toAccountRuntime = manager.accounts

namespace GatedRow

/-- `rejected_codex_window`: of the full windows with a live reset, the one that rolls last. -/
def rejectedCodexWindow (a : GatedRow) (threshold : ℚ) (now : Instant) :
    Option (RowGate × Instant) :=
  maxByKey Prod.snd
    ([(RowGate.fiveHour, a.quota.fiveHour), (.sevenDay, a.quota.sevenDay)].filterMap fun x =>
      ((x.2.filter fun w => decide (threshold ≤ w.effective now)).bind fun w =>
        w.liveReset now).map fun reset => (x.1, reset))

def rejectedCodexFreeAtMs (a : GatedRow) (threshold : ℚ) (now : Instant) : Option Int :=
  (((a.codexRefusalReset.map odtToMs).or
    ((a.rejectedCodexWindow threshold now).map fun x => odtToMs x.2)).or
      a.rateLimitedUntilMs).filter fun at_ => decide (odtToMs now < at_)

end GatedRow

/-- `codex_candidate_indices`, on the fleet as the reload it starts with left it. -/
def Manager.codexCandidateIndices (m : Manager) (boundTo : Option Nat) (group : Option String) :
    Finset Nat :=
  ((m.accounts.zipIdx.filter fun x =>
    decide (x.1.provider = .codex) && !x.1.removed && boundTo.all (fun b => decide (b = x.2)) &&
      (m.lockedAccountFor .codex).all (fun l => decide (l = x.2)) && x.1.carries group &&
      !x.1.disabled && !decide (x.1.status = .error) && !x.1.parkedBlocks m.groups.parked &&
      !x.1.reservedBlocks group m.groups.reserved &&
      !decide (x.2 ∈ m.codexAccountsWithUnsupportedExit)).map Prod.snd).toFinset

structure HintFold where
  gated : RowGate → Nat := fun _ => 0
  soonest : Option (Int × RowGate) := none
  everyOneRejected : Bool := true
  rejectedCodexSoonest : Option Int := none

namespace HintFold

/-- The clear-instant of a gate, in milliseconds, while it is still ahead. -/
def freeAtMs (nowMs : Int) (gate : TimedGate) : Option Int :=
  (gate.2.map odtToMs).filter fun at_ => decide (nowMs < at_)

def takeSoonest (nowMs : Int) (soonest : Option (Int × RowGate)) (gate : TimedGate) :
    Option (Int × RowGate) :=
  match freeAtMs nowMs gate with
  | none => soonest
  | some at_ =>
    match soonest with
    | none => some (at_, gate.1)
    | some best => if at_ < best.1 then some (at_, gate.1) else some best

/-- A rejected Codex row's way back, folded beside the gates. -/
def takeRejected (best at_ : Option Int) : Option Int :=
  match at_ with
  | none => best
  | some at_ => some (best.elim at_ fun b => min b at_)

def row (g : GateInputs) (group : Option String) (acc : HintFold) (a : GatedRow) : HintFold :=
  let gate := a.accountGate g group
  { gated := fun reason =>
      if gate.1 ≠ .ok ∧ gate.1 = reason then acc.gated reason + 1 else acc.gated reason
    soonest := takeSoonest g.nowMs acc.soonest gate
    everyOneRejected := acc.everyOneRejected && decide (gate.1 = .terminal .rejected)
    rejectedCodexSoonest :=
      if gate.1 = .terminal .rejected ∧ a.provider = .codex then
        takeRejected acc.rejectedCodexSoonest
          (a.rejectedCodexFreeAtMs (a.threshold g.globalThreshold) g.now)
      else acc.rejectedCodexSoonest }

/-- The soonest instant with its gate, once every row is folded. -/
def answer (acc : HintFold) : Option (Int × RowGate) :=
  match acc.rejectedCodexSoonest with
  | some at_ => if acc.everyOneRejected then some (at_, .terminal .rejected) else acc.soonest
  | none => acc.soonest

/-- `((at - now_ms + 999) / 1000).max(1)` -/
def hint (nowMs : Int) (acc : HintFold) : ExhaustionHint :=
  match acc.answer with
  | some (at_, reason) =>
    { retryAfter := max ((at_ - nowMs + 999).tdiv 1000) 1
      freeAt := msToOdt at_
      binding := some reason
      gated := acc.gated }
  | none => { retryAfter := 60, freeAt := none, binding := none, gated := acc.gated }

end HintFold

namespace HintFleet

/-- The rows a hint folds: one account, a Codex request's candidates, one provider's, a group's. -/
def asked (f : HintFleet) (provider : Option Provider) (group : Option String)
    (only : Option Nat) : List GatedRow :=
  let codexCandidates :=
    if provider.or (only.bind fun idx => (f.manager.account idx).map AccountRuntime.provider) =
        some .codex then
      some (f.manager.codexCandidateIndices only group)
    else none
  (f.rows.zipIdx.filter fun x =>
    only.all (fun o => decide (o = x.2)) && codexCandidates.all (fun c => decide (x.2 ∈ c)) &&
      provider.all (fun p => decide (x.1.provider = p)) && x.1.carries group).map Prod.fst

/-- `exhaustion_hint_over`. The gates ask nothing of the provider. -/
def exhaustionHintOver (f : HintFleet) (now : Instant) (isFable : Bool)
    (provider : Option Provider) (group : Option String) (only : Option Nat) : ExhaustionHint :=
  let g := f.manager.gateInputs now isFable (provider.getD .anthropic)
  ((f.asked provider group only).foldl (HintFold.row g group) {}).hint (odtToMs now)

def exhaustionHint (f : HintFleet) (now : Instant) (isFable : Bool) (provider : Provider)
    (group : Option String) : ExhaustionHint :=
  f.exhaustionHintOver now isFable (some provider) group none

def exhaustionHintForAccount (f : HintFleet) (now : Instant) (isFable : Bool) (idx : Nat) :
    ExhaustionHint :=
  f.exhaustionHintOver now isFable none none (some idx)

end HintFleet

/-! ## What the fold finds -/

section Fold

variable {g : GateInputs} {group : Option String} {rows : List GatedRow}

/-- The soonest clear-instant ahead among the rows folded so far, with its row's gate. -/
def SoonestOf (g : GateInputs) (group : Option String) (rows : List GatedRow) :
    Option (Int × RowGate) → Prop
  | none => ∀ a ∈ rows, HintFold.freeAtMs g.nowMs (a.accountGate g group) = none
  | some (at_, reason) =>
    (∃ a ∈ rows, (a.accountGate g group).1 = reason ∧
      HintFold.freeAtMs g.nowMs (a.accountGate g group) = some at_) ∧
    ∀ a ∈ rows, ∀ b ∈ HintFold.freeAtMs g.nowMs (a.accountGate g group), at_ ≤ b

theorem soonest_of_snoc {soonest : Option (Int × RowGate)} {a : GatedRow}
    (h : SoonestOf g group rows soonest) :
    SoonestOf g group (rows ++ [a])
      (HintFold.takeSoonest g.nowMs soonest (a.accountGate g group)) := by
  unfold HintFold.takeSoonest
  cases hfree : HintFold.freeAtMs g.nowMs (a.accountGate g group) with
  | none =>
    cases soonest with
    | none =>
      intro b hb
      rcases List.mem_append.mp hb with hb | hb
      · exact h b hb
      · obtain rfl := List.mem_singleton.mp hb
        exact hfree
    | some best =>
      obtain ⟨⟨b, hb, hgate⟩, hleast⟩ := h
      refine ⟨⟨b, List.mem_append_left _ hb, hgate⟩, fun c hc => ?_⟩
      rcases List.mem_append.mp hc with hc | hc
      · exact hleast c hc
      · obtain rfl := List.mem_singleton.mp hc
        rw [hfree]
        intro t ht
        cases ht
  | some at_ =>
    have hnew : a ∈ rows ++ [a] := List.mem_append_right _ (List.mem_singleton_self a)
    cases soonest with
    | none =>
      refine ⟨⟨a, hnew, rfl, hfree⟩, fun c hc => ?_⟩
      rcases List.mem_append.mp hc with hc | hc
      · rw [h c hc]
        intro t ht
        cases ht
      · obtain rfl := List.mem_singleton.mp hc
        rw [hfree]
        rintro t ⟨⟩
        exact le_rfl
    | some best =>
      obtain ⟨⟨b, hb, hgate⟩, hleast⟩ := h
      show SoonestOf g group _ (if at_ < best.1 then _ else _)
      split
      · rename_i hlt
        refine ⟨⟨a, hnew, rfl, hfree⟩, fun c hc t ht => ?_⟩
        rcases List.mem_append.mp hc with hc | hc
        · exact hlt.le.trans (hleast c hc t ht)
        · obtain rfl := List.mem_singleton.mp hc
          rw [hfree] at ht
          cases ht
          exact le_rfl
      · rename_i hge
        refine ⟨⟨b, List.mem_append_left _ hb, hgate⟩, fun c hc t ht => ?_⟩
        rcases List.mem_append.mp hc with hc | hc
        · exact hleast c hc t ht
        · obtain rfl := List.mem_singleton.mp hc
          rw [hfree] at ht
          cases ht
          exact not_lt.mp hge

theorem fold_soonest (rows : List GatedRow) :
    SoonestOf g group rows (rows.foldl (HintFold.row g group) {}).soonest := by
  induction rows using List.reverseRecOn with
  | nil =>
    intro a ha
    cases ha
  | append_singleton rows a ih =>
    rw [List.foldl_append]
    exact soonest_of_snoc ih

/-- Anthropic rows have no rejected way back. -/
theorem fold_answer (h : ∀ a ∈ rows, a.provider = .anthropic) :
    (rows.foldl (HintFold.row g group) {}).answer =
      (rows.foldl (HintFold.row g group) {}).soonest := by
  have hnone : (rows.foldl (HintFold.row g group) {}).rejectedCodexSoonest = none := by
    induction rows using List.reverseRecOn with
    | nil => rfl
    | append_singleton rows a ih =>
      have ha : a.provider = .anthropic :=
        h a (List.mem_append_right _ (List.mem_singleton_self a))
      rw [List.foldl_append]
      show (if _ ∧ a.provider = .codex then _ else _) = none
      rw [if_neg (by rw [ha]; simp)]
      exact ih fun b hb => h b (List.mem_append_left _ hb)
  rw [HintFold.answer, hnone]

end Fold

namespace HintFleet

variable {f : HintFleet} {isFable : Bool} {group : Option String} {a : GatedRow}

/-- The row may serve the asked fleet's traffic at `t`, pacing ignored. -/
def Passes (f : HintFleet) (isFable : Bool) (group : Option String) (t : Instant) (a : GatedRow) :
    Prop :=
  a.eligible (f.manager.gateInputs t isFable .anthropic) false group group = true

instance {t : Instant} : Decidable (f.Passes isFable group t a) :=
  inferInstanceAs (Decidable (_ = true))

/-- The gate the row reports at `t`. -/
def gateAt (f : HintFleet) (isFable : Bool) (group : Option String) (t : Instant) (a : GatedRow) :
    TimedGate :=
  a.accountGate (f.manager.gateInputs t isFable .anthropic) group

theorem mem_asked : a ∈ f.asked (some .anthropic) group none ↔
    a ∈ f.rows ∧ a.provider = .anthropic ∧ a.carries group = true := by
  simp only [asked, Option.some_or, List.mem_map, List.mem_filter, Bool.and_eq_true, Option.all_none,
    Option.all_some, decide_eq_true_eq, true_and, Prod.exists, exists_and_right, exists_eq_right]
  simp only [Option.some.injEq, reduceCtorEq, if_false, Option.all_none, true_and,
    List.mem_zipIdx_iff_getElem?]
  constructor
  · rintro ⟨idx, hmem, hprovider, hcarries⟩
    exact ⟨List.mem_of_getElem? hmem, hprovider, hcarries⟩
  · rintro ⟨hmem, hprovider, hcarries⟩
    obtain ⟨idx, hidx⟩ := List.mem_iff_getElem?.mp hmem
    exact ⟨idx, hidx, hprovider, hcarries⟩

/-- Every threshold of the fleet is positive and every time of it is at a whole millisecond. -/
structure Measured (f : HintFleet) : Prop where
  thresholds : ∀ a ∈ f.rows, 0 < a.threshold f.manager.globalThreshold
  fable : ∀ threshold ∈ f.manager.fableWeeklyThreshold, 0 < threshold
  timed : ∀ a ∈ f.rows, a.Timed

/-- A row that is out, and not by upstream's verdict, passes from its gate's clear-instant on. -/
theorem passes_iff_cleared {now t : Instant} (hf : f.Measured) (ha : a ∈ f.rows) (hnow : OnMs now)
    (ht : OnMs t) (hle : now ≤ t) (hverdict : a.quota.rejected = false)
    (hout : ¬f.Passes isFable group now a) :
    f.Passes isFable group t a ↔
      a ∈ f.asked (some .anthropic) group none ∧ ClearedBy t (f.gateAt isFable group now a) := by
  obtain ⟨nowMs, rfl, hnow⟩ := hnow
  obtain ⟨ms, rfl, hms⟩ := ht
  have hle : nowMs ≤ ms := by
    have hle : (nowMs * 1000000 : Int) ≤ ms * 1000000 := hle
    omega
  have hinputs : ∀ ms : Int, f.manager.gateInputs (ms * 1000000) isFable .anthropic =
      (f.manager.gateInputs 0 isFable .anthropic).at ms := by
    intro ms
    simp only [Manager.gateInputs, GateInputs.at, odt_to_ms_whole]
  have hpos : PositiveThresholds (f.manager.gateInputs 0 isFable .anthropic) a.toAccountRuntime :=
    ⟨hf.thresholds a ha, hf.fable⟩
  simp only [Passes, gateAt, hinputs, Bool.not_eq_true] at hout ⊢
  rw [GatedRow.eligible_iff_gate_cleared hle hnow hms hpos hverdict hout, mem_asked]
  simp only [Manager.gateInputs, ha, true_and, and_assoc]

/-- The clear-instant a row's gate adds to the fold. -/
theorem free_at_of_gate {now t : Instant} {reason : RowGate} (ht : OnMs t) (hnow : OnMs now)
    (hlt : now < t) : ∃ ms : Int, t = ms * 1000000 ∧ DatedMs ms ∧
      HintFold.freeAtMs (odtToMs now) (reason, some t) = some ms := by
  obtain ⟨ms, rfl, hms⟩ := ht
  obtain ⟨nowMs, rfl, -⟩ := hnow
  have hlt : (nowMs * 1000000 : Int) < ms * 1000000 := hlt
  refine ⟨ms, rfl, hms, ?_⟩
  simp only [HintFold.freeAtMs, Option.map_some, odt_to_ms_whole, Option.filter_some]
  exact if_pos (decide_eq_true (by omega))

/-- The gate of an asked row that is out lies ahead, at a whole millisecond. -/
theorem gate_ahead {now t : Instant} {reason : RowGate} (hf : f.Measured) (hnow : OnMs now)
    (ha : a ∈ f.asked (some .anthropic) group none) (hverdict : a.quota.rejected = false)
    (hout : ¬f.Passes isFable group now a)
    (hgate : f.gateAt isFable group now a = (reason, some t)) : now < t ∧ OnMs t := by
  have hrow : a ∈ f.rows := (mem_asked.mp ha).1
  constructor
  · by_contra hle
    refine hout ((passes_iff_cleared hf hrow hnow hnow le_rfl hverdict hout).mpr ⟨ha, ?_⟩)
    rw [hgate]
    exact ⟨t, rfl, not_lt.mp hle⟩
  · have hfree : (f.gateAt isFable group now a).2 = some t := by rw [hgate]
    exact GatedRow.account_gate_on_ms (hf.timed a hrow) t hfree

/-- A row upstream rejected reports no instant. -/
theorem rejected_gate {t : Instant} (h : a.quota.rejected = true) :
    (f.gateAt isFable group t a).2 = none := by
  unfold gateAt GatedRow.accountGate
  cases hterminal : a.terminalGate with
  | some reason => rfl
  | none =>
    simp only [AccountRuntime.terminalGate, h, if_true] at hterminal
    split at hterminal
    · cases hterminal
    · split at hterminal <;> cases hterminal

/-- What the hint answers: the soonest clear-instant ahead among the asked rows. -/
theorem exhaustion_hint_cases (f : HintFleet) (isFable : Bool) (group : Option String)
    (now : Instant) :
    ∃ soonest, SoonestOf (f.manager.gateInputs now isFable .anthropic) group
        (f.asked (some .anthropic) group none) soonest ∧
      match soonest with
      | some (at_, reason) =>
        (f.exhaustionHint now isFable .anthropic group).retryAfter =
            max ((at_ - odtToMs now + 999).tdiv 1000) 1 ∧
          (f.exhaustionHint now isFable .anthropic group).freeAt = msToOdt at_ ∧
          (f.exhaustionHint now isFable .anthropic group).binding = some reason
      | none => (f.exhaustionHint now isFable .anthropic group).freeAt = none := by
  have hanthropic : ∀ a ∈ f.asked (some .anthropic) group none, a.provider = .anthropic :=
    fun a ha => (mem_asked.mp ha).2.1
  refine ⟨_, fold_soonest _, ?_⟩
  simp only [exhaustionHint, exhaustionHintOver, HintFold.hint, fold_answer hanthropic,
    Option.getD_some]
  split
  · simp only [and_self]
  · simp only

/-- A row that passes later on had its gate folded, at an instant no later than that. -/
theorem folded_of_passes {now s : Instant} (hf : f.Measured) (hnow : OnMs now) (hs : OnMs s)
    (hle : now ≤ s) (ha : a ∈ f.rows) (hverdict : a.quota.rejected = false)
    (hout : ¬f.Passes isFable group now a) (hpass : f.Passes isFable group s a) :
    a ∈ f.asked (some .anthropic) group none ∧
      ∃ ms : Int, ms * 1000000 ≤ s ∧
        HintFold.freeAtMs (odtToMs now) (f.gateAt isFable group now a) = some ms := by
  obtain ⟨hasked, t, hfree, hts⟩ := (passes_iff_cleared hf ha hnow hs hle hverdict hout).mp hpass
  have hgate : f.gateAt isFable group now a = ((f.gateAt isFable group now a).1, some t) := by
    rw [← hfree]
  obtain ⟨hahead, ht⟩ := gate_ahead hf hnow hasked hverdict hout hgate
  obtain ⟨ms, rfl, -, hms⟩ := free_at_of_gate ht hnow hahead
  rw [hgate]
  exact ⟨hasked, ms, hts, hms⟩

/-- The row behind the fold's answer, and its clear-instant. -/
theorem folded_row {now : Instant} {at_ : Int} (hf : f.Measured) (hnow : OnMs now)
    (ha : a ∈ f.asked (some .anthropic) group none)
    (hout : ¬f.Passes isFable group now a)
    (hfree : HintFold.freeAtMs (odtToMs now) (f.gateAt isFable group now a) = some at_) :
    (f.gateAt isFable group now a).2 = some (at_ * 1000000) ∧ DatedMs at_ ∧ odtToMs now < at_ ∧
      f.Passes isFable group (at_ * 1000000) a := by
  have hrow : a ∈ f.rows := (mem_asked.mp ha).1
  obtain ⟨hmap, hlt⟩ := Option.filter_eq_some_iff.mp hfree
  obtain ⟨t, ht, hat⟩ := Option.map_eq_some_iff.mp hmap
  have hverdict : a.quota.rejected = false := by
    by_contra h
    rw [rejected_gate (Bool.not_eq_false _ ▸ h)] at ht
    cases ht
  have hgate : f.gateAt isFable group now a = ((f.gateAt isFable group now a).1, some t) := by
    rw [← ht]
  obtain ⟨hahead, ms, rfl, hms⟩ := gate_ahead hf hnow ha hverdict hout hgate
  rw [odt_to_ms_whole] at hat
  subst hat
  refine ⟨ht, hms, of_decide_eq_true hlt, ?_⟩
  rw [passes_iff_cleared hf hrow hnow ⟨ms, rfl, hms⟩ hahead.le hverdict hout]
  exact ⟨ha, _, ht, le_rfl⟩

theorem retry_after_rounds {now : Instant} {at_ : Int} (hnow : OnMs now)
    (hlt : odtToMs now < at_) :
    at_ * 1000000 ≤ now + max ((at_ - odtToMs now + 999).tdiv 1000) 1 * 1000000000 ∧
      now + max ((at_ - odtToMs now + 999).tdiv 1000) 1 * 1000000000 <
        at_ * 1000000 + 1000000000 := by
  obtain ⟨nowMs, rfl, -⟩ := hnow
  rw [odt_to_ms_whole] at hlt ⊢
  rw [Int.tdiv_eq_ediv_of_nonneg (by omega)]
  show at_ * 1000000 ≤ nowMs * 1000000 + _ ∧ nowMs * 1000000 + _ < _
  omega

/-- The exhaustion hint is honest: rows upstream rejected aside, no account passes before the
instant it names, one does at that instant and its gate is the one named, the wait rounds up to it
within a second; and where it names none, no account passes later on. -/
theorem exhaustion_hint_honest (f : HintFleet) (isFable : Bool) (group : Option String)
    (now : Instant) (hf : f.Measured) (hnow : OnMs now)
    (hout : ∀ a ∈ f.rows, ¬f.Passes isFable group now a) :
    let hint := f.exhaustionHint now isFable .anthropic group
    (∀ t, hint.freeAt = some t →
      (∀ s, OnMs s → now ≤ s → s < t → ∀ a ∈ f.rows, a.quota.rejected = false →
        ¬f.Passes isFable group s a) ∧
      (∃ a ∈ f.rows, f.Passes isFable group t a ∧
        f.gateAt isFable group now a = (hint.binding.getD .ok, some t)) ∧
      t ≤ now + hint.retryAfter * 1000000000 ∧
      now + hint.retryAfter * 1000000000 < t + 1000000000) ∧
    (hint.freeAt = none → ∀ s, OnMs s → now ≤ s → ∀ a ∈ f.rows, a.quota.rejected = false →
      ¬f.Passes isFable group s a) := by
  intro hint
  obtain ⟨soonest, hsoonest, hhint⟩ :=
    exhaustion_hint_cases f isFable group now
  cases soonest with
  | none =>
    have hnone : hint.freeAt = none := hhint
    refine ⟨fun t ht => ?_, fun _ s hs hle a ha hverdict hpass => ?_⟩
    · rw [hnone] at ht
      cases ht
    · obtain ⟨hasked, ms, -, hms⟩ :=
        folded_of_passes hf hnow hs hle ha hverdict (hout a ha) hpass
      have hquiet : HintFold.freeAtMs (odtToMs now) (f.gateAt isFable group now a) = none :=
        hsoonest a hasked
      rw [hquiet] at hms
      cases hms
  | some best =>
    obtain ⟨at_, reason⟩ := best
    obtain ⟨hretry, hfreeAt, hbinding⟩ := hhint
    obtain ⟨⟨a, hasked, hreason, hfree⟩, hleast⟩ := hsoonest
    have hrow : a ∈ f.rows := (mem_asked.mp hasked).1
    obtain ⟨hclear, hdated, hahead, hpasses⟩ := folded_row hf hnow hasked (hout a hrow) hfree
    have hat : hint.freeAt = some (at_ * 1000000) := hfreeAt.trans (ms_to_odt_dated hdated)
    refine ⟨fun t ht => ?_, fun hnone => ?_⟩
    · rw [hat] at ht
      cases ht
      refine ⟨fun s hs hle hlt b hb hverdict hpass => ?_, ⟨a, hrow, hpasses, ?_⟩, ?_⟩
      · obtain ⟨hbasked, ms, hms, hbfree⟩ :=
          folded_of_passes hf hnow hs hle hb hverdict (hout b hb) hpass
        have hsooner : at_ ≤ ms := hleast b hbasked ms hbfree
        have hlate : at_ * 1000000 ≤ s :=
          (Int.mul_le_mul_of_nonneg_right hsooner (by decide)).trans hms
        exact absurd hlt (not_lt.mpr hlate)
      · rw [hbinding, Option.getD_some, ← hreason, ← hclear]
        rfl
      · rw [hretry]
        exact retry_after_rounds hnow hahead
    · rw [hat] at hnone
      cases hnone

end HintFleet

def loneRow (row : GatedRow) : HintFleet where
  manager := .assemble {} [row.toAccountRuntime]
  rows := [row]
  mirrors := rfl

def heldRow : GatedRow where
  name := "ada"
  provider := .anthropic
  rateLimitedUntilMs := some 5000

namespace HintFleet

theorem exhaustion_hint_honest_held :
    ∃ a ∈ (loneRow heldRow).rows, (loneRow heldRow).Passes false none 5000000000 a := by
  have hfree : ((loneRow heldRow).exhaustionHint 0 false .anthropic none).freeAt =
      some 5000000000 := by decide +kernel
  have hmeasured : (loneRow heldRow).Measured :=
    ⟨List.forall_mem_singleton.mpr (by decide +kernel), by decide +kernel,
      List.forall_mem_singleton.mpr
        ⟨by rintro _ ⟨⟩, by rintro _ ⟨⟩, by rintro _ ⟨⟩, by rintro _ ⟨⟩⟩⟩
  have hhonest := exhaustion_hint_honest (loneRow heldRow) false none 0 hmeasured
    ⟨0, by decide, by decide, by decide⟩ (List.forall_mem_singleton.mpr (by decide +kernel))
  obtain ⟨-, ⟨a, ha, hpasses, -⟩, -⟩ := hhonest.1 _ hfree
  exact ⟨a, ha, hpasses⟩

/-- The held row with upstream's verdict stored. -/
def rejectedRow : GatedRow :=
  { heldRow with quota := { status := some "rejected" } }

/-- A row whose threshold is zero, with a used window. -/
def closedRow : GatedRow where
  name := "ada"
  provider := .anthropic
  switchThreshold := some 0
  quota := { fiveHour := some { utilization := 1, reset := some 5000000000 } }

/-- A rejected row passes at its hold's end, which no hint names; a row with a threshold of zero
does not pass at the reset the hint names. -/
theorem hint_misses :
    (¬(loneRow rejectedRow).Passes false none 0 rejectedRow ∧
      ((loneRow rejectedRow).exhaustionHint 0 false .anthropic none).freeAt = none ∧
      (loneRow rejectedRow).Passes false none 5000000000 rejectedRow) ∧
    (¬(loneRow closedRow).Passes false none 0 closedRow ∧
      ((loneRow closedRow).exhaustionHint 0 false .anthropic none).freeAt = some 5000000000 ∧
      ¬(loneRow closedRow).Passes false none 5000000000 closedRow) := by
  decide +kernel

end HintFleet

end TeamClaude
