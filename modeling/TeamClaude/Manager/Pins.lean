import TeamClaude.Manager.Doors
import TeamClaude.Manager.Calls

/-!
# Pin stability

What a call does to the pin map: at most one write, for its own session. The write keeps the
session on its account unless the account is gone for every request or the session sits idle-cold
over the soft threshold, and another session loses its pin only to the size cap or to the sweep of
unsupported Codex exits.
-/

namespace TeamClaude

namespace Manager

def PinnedTo (m : Manager) (key : Key) (idx : Nat) : Prop :=
  (m.affinity.get key).map Prod.fst = some idx

/-- No account at this index passes the account-level gates for the call's reservation group. -/
def Gone (m : Manager) (r : Request) (group : Option String) (idx : Nat) : Prop :=
  ∀ a, m.account idx = some a →
    a.accountHardOk (m.gates r) group (m.warmWindow r.affinity) = false

/-- The account is over its soft threshold, the session has been idle for the warm window, and
another account is eligible. -/
def ColdOverThreshold (m : Manager) (r : Request) (pin : Pin) : Prop :=
  (∃ a, m.account pin.1 = some a ∧ a.nearThreshold (m.gates r) = true) ∧
    (m.warmWindow r.affinity).ms ≤ r.nowMs - pin.2 ∧
    ∃ idx b, idx ≠ pin.1 ∧ m.account idx = some b ∧
      b.eligible (m.gates r) true none r.group = true

/-! ## The soft threshold -/

theorem terminal_gate_of_alive {a : AccountRuntime} {nowMs : Int} {warm : WarmWindow}
    (h : a.terminalBlocks nowMs warm = false) :
    a.disabled = false ∧ a.status ≠ .error := by
  unfold AccountRuntime.terminalBlocks at h
  unfold AccountRuntime.terminalGate at h
  split at h
  · rename_i hg
    split at hg
    · cases hg
    split at hg
    · cases hg
    · rename_i hd he
      exact ⟨by simpa using hd, he⟩
  · cases h
  · rename_i hg
    split at hg
    · cases hg
    split at hg
    · cases hg
    · rename_i hd he
      exact ⟨by simpa using hd, he⟩

/-- What is left of the full gate once everything but the threshold is known to pass. -/
theorem eligible_iff_under_threshold {a : AccountRuntime} {g : GateInputs} {warm : WarmWindow}
    {group : Option String} (hprov : a.provider = g.provider)
    (halive : a.accountHardOk g group warm = true) (hheld : a.holdClearsWhileWarm g.nowMs warm = false)
    (hmodel : a.modelBlocked g = false) (hpaced : a.pacedOut g.pacing g.nowMs = false) :
    a.eligible g true none group = true ↔ a.nearThreshold g = false := by
  simp only [AccountRuntime.accountHardOk, Bool.and_eq_true, Bool.not_eq_true'] at halive
  obtain ⟨⟨⟨hterm, hparked⟩, hlong⟩, hreserved⟩ := halive
  obtain ⟨hd, he⟩ := terminal_gate_of_alive hterm
  have hunheld : a.held g.nowMs = false := by
    by_contra hh
    rcases AccountRuntime.held_split warm (by simpa using hh) with h | h
    · rw [hlong] at h
      cases h
    · rw [hheld] at h
      cases h
  simp [AccountRuntime.eligible, AccountRuntime.carries, hprov, hd, he, hparked, hunheld, hmodel,
    hreserved, hpaced]

theorem OverThreshold.near {m : Manager} {r : Request} {a : AccountRuntime}
    (h : m.OverThreshold r a) (hprov : a.provider = r.provider) :
    a.nearThreshold (m.gates r) = true := by
  by_contra hn
  have he := (eligible_iff_under_threshold (g := m.gates r) hprov h.alive h.unheld h.unblocked
    h.unpaced).mpr (by simpa using hn)
  rw [h.ineligible] at he
  cases he

theorem has_eligible_alternative_iff {m : Manager} {r : Request} {idx : Nat} :
    m.hasEligibleAlternative r idx = true ↔ ∃ j b, j ≠ idx ∧ m.account j = some b ∧
      b.eligible (m.gates r) true none r.group = true := by
  simp only [hasEligibleAlternative, List.any_eq_true, Bool.and_eq_true, Bool.not_eq_true',
    decide_eq_false_iff_not, Prod.exists, List.mem_zipIdx_iff_getElem?, account]
  constructor
  · rintro ⟨b, j, hb, hj, he⟩
    exact ⟨j, b, hj, hb, he⟩
  · rintro ⟨j, b, hj, hb, he⟩
    exact ⟨b, j, hb, hj, he⟩

/-! ## One selection -/

def MayMove (m : Manager) (r : Request) (pin : Pin) : Prop :=
  m.Gone r r.group pin.1 ∨ m.ColdOverThreshold r pin

/-- The pin map after a call: as it was, or with one write for the session `r` is made for, which
moves an existing pin only where `moves` allows it. -/
inductive PinWrite (r : Request) (pins : CappedMap Key Pin) (moves : Pin → Prop) :
    CappedMap Key Pin → Prop
  | same : PinWrite r pins moves pins
  | write {key : Key} {idx : Nat} (hk : r.affinity = some key)
      (hm : ∀ pin, pins.get key = some pin → idx = pin.1 ∨ moves pin) :
      PinWrite r pins moves (pins.insert key (idx, r.nowMs))

theorem PinWrite.mono {r : Request} {pins after : CappedMap Key Pin} {moves moves' : Pin → Prop}
    (h : PinWrite r pins moves after) (hm : ∀ pin, moves pin → moves' pin) :
    PinWrite r pins moves' after := by
  cases h with
  | same => exact .same
  | write hk hw => exact .write hk fun pin hpin => (hw pin hpin).imp_right (hm pin)

variable {m : Manager} {r : Request}

theorem settle_conn_affinity (idx : Nat) : (m.settleConn r idx).affinity = m.affinity := by
  unfold settleConn
  split
  · rfl
  · rfl

/-- The write at the end of a selection: the kept pin's index, or the account that serves. -/
theorem settle_pin_write {kept : Option Kept} {best : Option Nat} {moves : Pin → Prop}
    (h : ∀ key pin, r.affinity = some key → m.affinity.get key = some pin →
      (∃ k, kept = some k ∧ k.pin = pin.1) ∨ (kept = none ∧ moves pin)) :
    PinWrite r m.affinity moves (m.settle r kept best).2.affinity := by
  unfold settle
  split
  · exact .same
  rename_i idx
  rw [settle_conn_affinity]
  unfold settlePin
  split
  · rename_i key k hk
    rw [write_pin_affinity, record_divert_affinity, stamp_affinity]
    refine .write hk fun pin hpin => ?_
    rcases h key pin hk hpin with ⟨k', hk', hpin'⟩ | ⟨hnone, -⟩
    · cases hk'
      exact Or.inl hpin'
    · cases hnone
  · rename_i key hk
    rw [write_pin_affinity, stamp_affinity]
    refine .write hk fun pin hpin => ?_
    rcases h key pin hk hpin with ⟨k', hk', -⟩ | ⟨-, hm⟩
    · cases hk'
    · exact Or.inr hm
  · exact .same

/-- A verdict that gives the pin up does so for one of the two reasons a pin may move. -/
theorem may_move_of_release {key : Key} {pin : Pin} (h : m.pinVerdict r key pin = .release) :
    m.MayMove r pin := by
  have hcase := m.pin_case r key pin
  rw [h] at hcase
  cases hcase with
  | gone hg => exact Or.inl hg
  | idleCold hs ho hc =>
    obtain ⟨hidle, halt⟩ := hc
    obtain ⟨j, b, hj, hb, he⟩ := has_eligible_alternative_iff.mp halt
    exact Or.inr ⟨⟨_, hs.account, ho.near hs.provider⟩, hidle, j, b, hj, hb, he⟩

theorem migration_off {key : Key} {idx : Nat} (h : m.config.loadBalanceMigration = false) :
    m.migrationTarget r key idx = idx := by
  simp [migrationTarget, h]

theorem committed_target_self (key : Key) (idx : Nat) :
    m.committedTarget r key idx idx = idx := by
  simp [committedTarget]

/-- With migration off, a verdict that serves serves the pin. -/
theorem serve_target_of_migration_off {key : Key} {pin : Pin} {target : Nat}
    (hoff : m.config.loadBalanceMigration = false)
    (h : m.pinVerdict r key pin = .serve target) : target = pin.1 := by
  have hcase := m.pin_case r key pin
  rw [h] at hcase
  generalize hv : PinVerdict.serve target = v at hcase
  cases hcase with
  | usable hs he =>
    cases hv
    exact migration_off hoff
  | overThreshold hs ho hc =>
    cases hv
    rfl
  | _ => cases hv

theorem overlay_affinity {idx : Nat} {m' : Manager} (h : m.overlay r = some (idx, m')) :
    m'.affinity = m.affinity := by
  rcases overlay_cases h with ⟨-, k, -, rfl⟩ | ⟨-, -, rfl⟩
  · rfl
  · rfl

theorem select_core_pin_write (hoff : m.config.loadBalanceMigration = false) :
    PinWrite r m.affinity (m.MayMove r) (m.selectCore r).2.affinity := by
  unfold selectCore
  split
  · exact .same
  cases hf : m.affinityFastPath r with
  | served idx m' =>
    obtain ⟨key, pin, target, hk, hp, hv, rfl, rfl⟩ := served_cases hf
    obtain rfl := serve_target_of_migration_off hoff hv
    rw [committed_target_self, write_pin_affinity, stamp_affinity]
    refine .write hk fun pin' hpin' => Or.inl ?_
    rw [hp] at hpin'
    cases hpin'
    rfl
  | fall kept =>
    have hkept : ∀ key pin, r.affinity = some key → m.affinity.get key = some pin →
        (∃ k, kept = some k ∧ k.pin = pin.1) ∨ (kept = none ∧ m.MayMove r pin) := by
      intro key pin hk hp
      simp only [affinityFastPath, hk, hp] at hf
      split at hf
      · cases hf
      · cases hf
        exact Or.inl ⟨_, rfl, rfl⟩
      · rename_i hv
        cases hf
        exact Or.inr ⟨rfl, may_move_of_release hv⟩
    simp only [selectOffPin]
    split
    · split
      · rename_i i m' ho
        rw [overlay_affinity ho]
        exact .same
      · exact settle_pin_write hkept
    · exact settle_pin_write hkept

/-! ## One revalidation -/

theorem pinned_idx_eq {key : Key} {pin : Pin} (hk : r.affinity = some key)
    (hp : m.affinity.get key = some pin) : m.pinnedIdx r = some pin.1 := by
  simp [pinnedIdx, hk, hp]

/-- A revalidation keeps a pin whose account is alive, and gives the others up. -/
theorem revalidation_kept_cases {key : Key} {pin : Pin} (hk : r.affinity = some key)
    (hp : m.affinity.get key = some pin) :
    (∃ k, m.revalidationKept r = some k ∧ k.pin = pin.1) ∨
      (m.revalidationKept r = none ∧ m.Gone r none pin.1) := by
  unfold revalidationKept
  rw [pinned_idx_eq hk hp]
  cases halive : (m.account pin.1).any fun a =>
      a.accountHardOk (m.gates r) none (m.warmWindow r.affinity) with
  | true =>
    have hkept : ((some pin.1).filter fun idx => (m.account idx).any fun a =>
        a.accountHardOk (m.gates r) none (m.warmWindow r.affinity)) = some pin.1 := by
      simp [Option.filter_some, halive]
    rw [hkept]
    exact Or.inl ⟨_, rfl, rfl⟩
  | false =>
    refine Or.inr ⟨by simp [Option.filter_some, halive], fun a ha => ?_⟩
    simpa [ha] using halive

theorem spend_revalidation_affinity (provider : Provider) (nowMs : Int) :
    (m.spendRevalidation provider nowMs).affinity = m.affinity := by
  cases provider <;> rfl

theorem revalidation_core_pin_write :
    PinWrite r m.affinity (fun pin => m.Gone r none pin.1) (m.revalidationCore r).2.affinity := by
  unfold revalidationCore
  split
  · exact .same
  unfold revalidationFallback
  split
  · exact .same
  rename_i idx hidx
  split
  · exact .same
  unfold settleRevalidation
  split
  · rename_i key k hk hkept
    rw [record_divert_affinity, write_pin_affinity, stamp_affinity, spend_revalidation_affinity]
    refine .write hk fun pin hp => Or.inl ?_
    rcases revalidation_kept_cases hk hp with ⟨k', hk', hpin⟩ | ⟨hnone, -⟩
    · rw [hkept] at hk'
      cases hk'
      exact hpin
    · rw [hkept] at hnone
      cases hnone
  · rename_i key hk hkept
    rw [write_pin_affinity, stamp_affinity, spend_revalidation_affinity]
    refine .write hk fun pin hp => Or.inr ?_
    rcases revalidation_kept_cases hk hp with ⟨k', hk', -⟩ | ⟨-, hgone⟩
    · rw [hkept] at hk'
      cases hk'
    · exact hgone
  · rw [stamp_affinity, spend_revalidation_affinity]
    exact .same

/-! ## Runs -/

theorem PinWrite.own {pins after : CappedMap Key Pin} {moves : Pin → Prop}
    (h : PinWrite r pins moves after) {key : Key} {pin : Pin} (hk : r.affinity = some key)
    (hp : pins.get key = some pin) : (after.get key).map Prod.fst = some pin.1 ∨ moves pin := by
  cases h with
  | same =>
    rw [hp]
    exact Or.inl rfl
  | write hk' hm =>
    rw [hk] at hk'
    cases hk'
    rw [CappedMap.get_insert_self]
    rcases hm pin hp with rfl | hmove
    · exact Or.inl rfl
    · exact Or.inr hmove

/-- The size cap removes the session's pin when this call writes its own. -/
def EvictedPin (m : Manager) (c : Call) (key : Key) : Prop :=
  ∃ own idx, c.request.affinity = some own ∧
    ((m.swept c).affinity.put own (idx, c.request.nowMs)).victim own = some key

/-- The call is a Codex one and the session's pin sits on an unsupported strict-exit row. -/
def SweptPin (m : Manager) (c : Call) (key : Key) : Prop :=
  ∃ pin, m.affinity.get key = some pin ∧ pin.1 ∈ (m.live c).unsupportedFor c.request.provider

theorem PinWrite.other {m : Manager} {c : Call} {after : CappedMap Key Pin} {moves : Pin → Prop}
    (h : PinWrite (m.screened c) (m.swept c).affinity moves after) {key : Key}
    (hk : c.request.affinity ≠ some key) :
    after.get key = (m.swept c).affinity.get key ∨ (after.get key = none ∧ m.EvictedPin c key) := by
  cases h with
  | same => exact Or.inl rfl
  | write hown hm =>
    rename_i own idx
    have hown : c.request.affinity = some own := hown
    have hne : key ≠ own := by
      rintro rfl
      exact hk hown
    by_cases hv : ((m.swept c).affinity.put own (idx, c.request.nowMs)).victim own = some key
    · exact Or.inr ⟨CappedMap.get_insert_victim _ _ hv, own, idx, hown, hv⟩
    · exact Or.inl (CappedMap.get_insert_ne _ _ hne hv)

def MovesPin (m : Manager) (c : Call) (pin : Pin) : Prop :=
  (m.live c).Gone c.request c.group pin.1 ∨
    (∃ disk r, c = .select disk r ∧ (m.live c).ColdOverThreshold r pin)

theorem gone_swept {c : Call} {group : Option String} {idx : Nat}
    (h : (m.swept c).Gone (m.screened c) group idx) : (m.live c).Gone c.request group idx := by
  intro a ha
  have := h a (by rwa [swept_account])
  rwa [swept_gates, swept_warm_window] at this

theorem cold_swept {c : Call} {pin : Pin} (h : (m.swept c).ColdOverThreshold (m.screened c) pin) :
    (m.live c).ColdOverThreshold c.request pin := by
  obtain ⟨⟨a, ha, hnear⟩, hidle, j, b, hj, hb, he⟩ := h
  rw [swept_account] at ha hb
  rw [swept_gates] at hnear he
  rw [swept_warm_window] at hidle
  exact ⟨⟨a, ha, hnear⟩, hidle, j, b, hj, hb, he⟩

/-- Every call writes the pin map at most once, for its own session. -/
theorem call_pin_write (c : Call) (hoff : m.config.loadBalanceMigration = false) :
    PinWrite (m.screened c) (m.swept c).affinity (m.MovesPin c) (m.next c).affinity := by
  cases c with
  | select disk r =>
    refine (select_core_pin_write (by simp [hoff])).mono fun pin hmove => ?_
    rcases hmove with hgone | hcold
    · exact Or.inl (gone_swept hgone)
    · exact Or.inr ⟨disk, r, rfl, cold_swept hcold⟩
  | revalidate disk r =>
    exact revalidation_core_pin_write.mono fun pin hgone => Or.inl (gone_swept hgone)

structure PinStep (m : Manager) (c : Call) : Prop where
  own : ∀ key pin, c.request.affinity = some key → m.affinity.get key = some pin →
    pin.1 ∉ (m.live c).codexAccountsWithUnsupportedExit →
    (m.next c).PinnedTo key pin.1 ∨ m.MovesPin c pin
  others : ∀ key, c.request.affinity ≠ some key →
    (m.next c).affinity.get key = m.affinity.get key ∨
      ((m.next c).affinity.get key = none ∧ (m.EvictedPin c key ∨ m.SweptPin c key))

theorem unsupported_for_subset (m : Manager) (provider : Provider) :
    m.unsupportedFor provider ⊆ m.codexAccountsWithUnsupportedExit := by
  cases provider with
  | anthropic => exact Finset.empty_subset _
  | codex => exact Finset.Subset.refl _

theorem pin_step (c : Call) (hoff : m.config.loadBalanceMigration = false) : m.PinStep c := by
  have hwrite := call_pin_write c hoff
  constructor
  · intro key pin hk hp hex
    have hkeep : (m.swept c).affinity.get key = some pin := by
      rw [swept_get, hp]
      intro pin' hp'
      rw [hp] at hp'
      cases hp'
      exact fun hin => hex ((m.live c).unsupported_for_subset _ hin)
    exact hwrite.own hk hkeep
  · intro key hk
    by_cases hswept : m.SweptPin c key
    · rcases hwrite.other hk with he | ⟨he, hv⟩
      · by_cases hnone : (m.swept c).affinity.get key = none
        · exact Or.inr ⟨he.trans hnone, Or.inr hswept⟩
        · obtain ⟨pin, hpin⟩ := Option.ne_none_iff_exists'.mp hnone
          exact Or.inl (by rw [he, hpin, swept_get_some hpin])
      · exact Or.inr ⟨he, Or.inl hv⟩
    · have hkeep : (m.swept c).affinity.get key = m.affinity.get key :=
        swept_get fun pin hp hin => hswept ⟨pin, hp, hin⟩
      rcases hwrite.other hk with he | ⟨he, hv⟩
      · exact Or.inl (he.trans hkeep)
      · exact Or.inr ⟨he, Or.inl hv⟩

@[simp] theorem next_load_balance_migration (c : Call) :
    (m.next c).config.loadBalanceMigration = m.config.loadBalanceMigration := by
  rw [(m.next_writes c).frame Manager.config Write.config, swept_config,
    live_load_balance_migration]

/-- The pin of a session no call is made for is unchanged at the end of a run, or gone because one
of its calls dropped it. -/
theorem run_others (key : Key) (calls : List Call) (m : Manager)
    (hoff : m.config.loadBalanceMigration = false)
    (hother : ∀ c ∈ calls, c.request.affinity ≠ some key) :
    (Lib.exec next m calls).affinity.get key = m.affinity.get key ∨
      ((Lib.exec next m calls).affinity.get key = none ∧
        ∃ pre c, pre ++ [c] <+: calls ∧ ((Lib.exec next m pre).EvictedPin c key ∨
          (Lib.exec next m pre).SweptPin c key)) := by
  induction calls generalizing m with
  | nil => exact Or.inl rfl
  | cons c calls ih =>
    have hstep := (pin_step c hoff).others key (hother c (by simp))
    have hrest := ih (m.next c) (by simp [hoff]) fun c' hc' => hother c' (by simp [hc'])
    rw [Lib.exec_cons]
    rcases hrest with heq | ⟨hnone, pre, c', hpre, hdrop⟩
    · rcases hstep with hkeep | ⟨hnone, hdrop⟩
      · exact Or.inl (heq.trans hkeep)
      · exact Or.inr ⟨heq.trans hnone, [], c, by simp, hdrop⟩
    · exact Or.inr ⟨hnone, c :: pre, c', by simpa using hpre, hdrop⟩

/-- In every run with migration off each call keeps its own session's pin unless the account is
gone or idle-cold over its threshold, and drops another session's pin only by the size cap or by
the sweep of unsupported Codex exits. -/
theorem pin_stability (m : Manager) (calls : List Call)
    (hoff : m.config.loadBalanceMigration = false) :
    Lib.EachStep next PinStep m calls ∧
    ∀ key, (∀ c ∈ calls, c.request.affinity ≠ some key) →
      (Lib.exec next m calls).affinity.get key = m.affinity.get key ∨
        ((Lib.exec next m calls).affinity.get key = none ∧
          ∃ pre c, pre ++ [c] <+: calls ∧ ((Lib.exec next m pre).EvictedPin c key ∨
            (Lib.exec next m pre).SweptPin c key)) := by
  refine ⟨?_, fun key hother => run_others key calls m hoff hother⟩
  refine Lib.each_step_of_invariant (I := fun m => m.config.loadBalanceMigration = false)
    (A := fun _ _ => True) (fun m c h _ => ?_) (fun m c h _ => pin_step c h) hoff ?_
  · simpa using h
  · exact fun _ _ _ => trivial

/-- Two Codex rows, the second with a strict peer exit, and a restored session on each. -/
def restoredFleet : Manager :=
  (new { accounts := [{ name := "a", provider := .codex },
    { name := "b", provider := .codex, egress := .via 1, egressStrict := true }] }).restoreAffinity
      [(1, (0, 0)), (2, (1, 0))] ∅

/-- The first session's next Codex turn. -/
def codexTurn : Call :=
  .select none { now := 0, path := "/backend-api/codex/responses", affinity := some 1 }

/-- One turn of the first session on the restored fleet. -/
theorem pin_step_restored : restoredFleet.PinStep codexTurn :=
  (pin_stability restoredFleet [codexTurn] rfl).1 [] codexTurn (List.prefix_refl _)

/-- The turn of the session on the supported row drops the other session's pin, far below the cap:
the sweep, not an eviction, removes it. -/
theorem codex_turn_drops_other_pin :
    restoredFleet.affinity.get 1 = some (0, 0) ∧
    0 ∉ (restoredFleet.live codexTurn).codexAccountsWithUnsupportedExit ∧
    restoredFleet.config.loadBalanceMigration = false ∧
    codexTurn.request.affinity ≠ some 2 ∧
    restoredFleet.affinity.get 2 = some (1, 0) ∧
    (restoredFleet.next codexTurn).affinity.get 2 = none ∧
    ¬ restoredFleet.EvictedPin codexTurn 2 := by
  refine ⟨by decide +kernel, by decide +kernel, rfl, by decide +kernel, by decide +kernel,
    by decide +kernel, ?_⟩
  rintro ⟨own, idx, -, hv⟩
  have hlen : (restoredFleet.swept codexTurn).affinity.len = 1 := by decide +kernel
  have hcap : (restoredFleet.swept codexTurn).affinity.cap = 1024 := by decide +kernel
  have hput := (restoredFleet.swept codexTurn).affinity.len_put_le own (idx, codexTurn.request.nowMs)
  rw [CappedMap.victim_under_cap] at hv
  · cases hv
  · have : ((restoredFleet.swept codexTurn).affinity.put own (idx, codexTurn.request.nowMs)).cap =
        1024 := hcap
    omega

end Manager

end TeamClaude
