import TeamClaude.Manager.Pacing
import TeamClaude.Manager.Pins

/-!
# The soft threshold and a cold pin

A session pinned to an account that is over its soft threshold and nothing else is served there,
unless it sits idle-cold and some other account looks eligible. The fall-through that follows asks
more of an account than that look does; these results say when the request is answered.
-/

namespace TeamClaude

namespace Manager

/-- An account that answers a request which keeps no pin: through the connection pin, the
control-account overlay or one of the passes of the pool pick. -/
inductive FallThrough (m : Manager) (r : Request) : Prop
  | noise {k : Key} {idx : Nat} {a : AccountRuntime} (hc : r.requestClass = .noise)
      (hk : r.connKey = some k) (hget : m.connAffinityGet k r.nowMs = some idx)
      (ht : idx ∉ r.tried) (hu : idx ∉ m.unsupportedFor r.provider) (ha : m.account idx = some a)
      (he : a.eligible (m.gates r) true (m.strictGroup r.group) r.group = true) : FallThrough m r
  | control {idx : Nat} {a : AccountRuntime} (hc : r.requestClass = .controlPreferred)
      (hi : m.controlIdx = some idx) (ht : idx ∉ r.tried) (hu : idx ∉ m.unsupportedFor r.provider)
      (ha : m.account idx = some a) (hp : a.provider = r.provider)
      (he : a.controlEligible r.nowMs = true) (hcar : a.carries (m.strictGroup r.group) = true) :
      FallThrough m r
  | paced {idx : Nat} {a : AccountRuntime} (ha : m.account idx = some a) (hin : m.InPool r idx)
      (hp : m.PassesPool r true r.group idx a) : FallThrough m r
  | leastLoaded {idx : Nat} {a : AccountRuntime} (hn : m.strictGroup r.group = none)
      (ha : m.account idx = some a) (hin : m.InPool r idx)
      (hp : m.PassesPool r false none idx a) : FallThrough m r
  | lastResort {idx : Nat} {a : AccountRuntime} (hn : m.strictGroup r.group = none)
      (hf : r.isFable = true) (ha : m.account idx = some a) (hin : m.InPool r idx)
      (hp : a.provider = r.provider) (hok : m.lastResortOk (m.gates r) ∅ idx a = true) :
      FallThrough m r

variable {m : Manager} {r : Request}

/-- Without a pin to keep, the answer is the overlay's or the pool pick's. -/
theorem select_off_pin_is_some : (m.selectOffPin r none).1.isSome = true ↔
    (m.overlay r).isSome = true ∨ (m.poolPick r).isSome = true := by
  unfold selectOffPin
  cases ho : m.overlay r with
  | none => simp
  | some p => simp

theorem overlay_is_some : (m.overlay r).isSome = true ↔
    (r.requestClass = .noise ∧ ∃ k idx, m.noisePick r = some (k, idx)) ∨
      (r.requestClass = .controlPreferred ∧ ∃ idx, m.controlPick r = some idx) := by
  unfold overlay
  split
  · rename_i hc
    simp [hc]
  · rename_i hc
    simp [hc, Option.isSome_iff_exists]
  · rename_i hc
    simp [hc, Option.isSome_iff_exists]

theorem noise_pick_of_eligible {k : Key} {idx : Nat} {a : AccountRuntime} (hk : r.connKey = some k)
    (hget : m.connAffinityGet k r.nowMs = some idx) (ht : idx ∉ r.tried)
    (ha : m.account idx = some a)
    (he : a.eligible (m.gates r) true (m.strictGroup r.group) r.group = true) :
    m.noisePick r = some (k, idx) := by
  simp [noisePick, hk, hget, ht, ha, he, Option.filter_some]

theorem control_pick_of_eligible {idx : Nat} {a : AccountRuntime} (hi : m.controlIdx = some idx)
    (ht : idx ∉ r.tried) (ha : m.account idx = some a) (hp : a.provider = r.provider)
    (he : a.controlEligible r.nowMs = true) (hcar : a.carries (m.strictGroup r.group) = true) :
    m.controlPick r = some idx := by
  simp [controlPick, hi, ht, ha, hp, he, hcar, Option.filter_some]

section Live

variable (m) (c : Call)

theorem swept_conn_affinity_get (k : Key) (nowMs : Int) :
    (m.swept c).connAffinityGet k nowMs = (m.live c).connAffinityGet k nowMs := by
  obtain ⟨_, h⟩ := m.swept_eq c
  rw [h]
  rfl

theorem untried_screened {idx : Nat} : idx ∉ (m.screened c).tried ↔
    idx ∉ c.request.tried ∧ idx ∉ (m.live c).unsupportedFor c.request.provider := by
  rw [screened_tried, Finset.mem_union, not_or]

/-- The pool pick finds an account exactly when one of its passes admits one. -/
theorem swept_pool_pick_is_some :
    ((m.swept c).poolPick (m.screened c)).isSome = true ↔ ∃ idx a, (m.live c).account idx = some a ∧
      (m.live c).InPool c.request idx ∧
      ((m.live c).PassesPool c.request true c.request.group idx a ∨
        (m.live c).strictGroup c.request.group = none ∧
          ((m.live c).PassesPool c.request false none idx a ∨
            c.request.isFable = true ∧ a.provider = c.request.provider ∧
              (m.live c).lastResortOk ((m.live c).gates c.request) ∅ idx a = true)) := by
  have hgroup : (m.screened c).group = c.request.group := rfl
  have hfable : (m.screened c).isFable = c.request.isFable := rfl
  constructor
  · intro h
    obtain ⟨idx, hidx⟩ := Option.isSome_iff_exists.mp h
    obtain ⟨a, ha, hok⟩ := pool_pick_cases hidx
    rw [swept_account] at ha
    rw [hgroup, hfable, swept_strict_group, swept_pool_ok, swept_pool_ok, swept_last_resort_ok]
      at hok
    rcases hok with ⟨hin, hp⟩ | ⟨hn, ⟨hin, hp⟩ | ⟨hf, hin, hp⟩⟩
    · exact ⟨idx, a, ha, hin, Or.inl hp⟩
    · exact ⟨idx, a, ha, hin, Or.inr ⟨hn, Or.inl hp⟩⟩
    · exact ⟨idx, a, ha, hin, Or.inr ⟨hn, Or.inr ⟨hf, hp⟩⟩⟩
  · rintro ⟨idx, a, ha, hin, hp | ⟨hn, hrest⟩⟩
    · have hsome := (m.swept_pick_eligible_is_some c _ _).mpr ⟨idx, a, ha, hin, hp⟩
      obtain ⟨i, hi⟩ := Option.isSome_iff_exists.mp hsome
      rw [pool_pick_of_paced (by rw [hgroup]; exact hi)]
      rfl
    · have hstrict : (m.swept c).strictGroup (m.screened c).group = none := by
        rw [hgroup, swept_strict_group, hn]
      by_contra hnone
      rw [Option.not_isSome_iff_eq_none, pool_pick_none_iff hstrict] at hnone
      obtain ⟨-, hl, hf⟩ := hnone
      rcases hrest with hp | ⟨hfab, hprov, hok⟩
      · have hsome := (m.swept_pick_least_loaded_is_some c _).mpr ⟨idx, a, ha, hin, hp⟩
        rw [hl] at hsome
        cases hsome
      · have hsome := pick_fable_last_resort_is_some.mpr
          ⟨idx, a, (m.swept_account c idx).trans ha,
            (m.swept_last_resort_ok c).mpr ⟨hin, hprov, hok⟩⟩
        rw [hf hfab] at hsome
        cases hsome

/-- A call that keeps no pin is answered exactly when some door behind the fast path is open. -/
theorem fall_through_iff :
    ((m.swept c).selectOffPin (m.screened c) none).1.isSome = true ↔
      (m.live c).FallThrough c.request := by
  have hclass : (m.screened c).requestClass = c.request.requestClass := rfl
  have hnow : (m.screened c).nowMs = c.request.nowMs := rfl
  have hconn : (m.screened c).connKey = c.request.connKey := rfl
  have hgroup : (m.screened c).group = c.request.group := rfl
  rw [select_off_pin_is_some, overlay_is_some, swept_pool_pick_is_some, hclass]
  constructor
  · rintro ((⟨hc, k, idx, hn⟩ | ⟨hc, idx, hn⟩) | ⟨idx, a, ha, hin, hp | ⟨hs, hp | ⟨hf, hp, hok⟩⟩⟩)
    · obtain ⟨hk, hget, ht, a, ha, he⟩ := noise_pick_eligible hn
      rw [swept_conn_affinity_get, hnow] at hget
      obtain ⟨ht, hu⟩ := (m.untried_screened c).mp ht
      rw [swept_account] at ha
      rw [swept_gates, swept_strict_group, hgroup] at he
      exact .noise hc hk hget ht hu ha he
    · obtain ⟨hi, ht, a, ha, hp, he, hcar⟩ := control_pick_some hn
      rw [swept_control_idx] at hi
      obtain ⟨ht, hu⟩ := (m.untried_screened c).mp ht
      rw [swept_account] at ha
      rw [swept_strict_group, hgroup] at hcar
      exact .control hc hi ht hu ha hp he hcar
    · exact .paced ha hin hp
    · exact .leastLoaded hs ha hin hp
    · exact .lastResort hs hf ha hin hp hok
  · rintro (⟨hc, hk, hget, ht, hu, ha, he⟩ | ⟨hc, hi, ht, hu, ha, hp, he, hcar⟩ | ⟨ha, hin, hp⟩ |
      ⟨hs, ha, hin, hp⟩ | ⟨hs, hf, ha, hin, hp, hok⟩)
    · refine Or.inl (Or.inl ⟨hc, _, _, noise_pick_of_eligible hk ?_
        ((m.untried_screened c).mpr ⟨ht, hu⟩) ((m.swept_account c _).trans ha) ?_⟩)
      · rwa [swept_conn_affinity_get, hnow]
      · rwa [swept_gates, swept_strict_group, hgroup]
    · refine Or.inl (Or.inr ⟨hc, _, control_pick_of_eligible ?_
        ((m.untried_screened c).mpr ⟨ht, hu⟩) ((m.swept_account c _).trans ha) hp he ?_⟩)
      · rwa [swept_control_idx]
      · rwa [swept_strict_group, hgroup]
    · exact Or.inr ⟨_, _, ha, hin, Or.inl hp⟩
    · exact Or.inr ⟨_, _, ha, hin, Or.inr ⟨hs, Or.inl hp⟩⟩
    · exact Or.inr ⟨_, _, ha, hin, Or.inr ⟨hs, Or.inr ⟨hf, hp, hok⟩⟩⟩

end Live

/-! ## The pin itself -/

/-- The pinned account fails no gate but, perhaps, the soft threshold. -/
structure SoftOnly (m : Manager) (r : Request) (a : AccountRuntime) : Prop where
  provider : a.provider = r.provider
  carries : a.carries (m.strictGroup r.group) = true
  alive : a.accountHardOk (m.gates r) r.group (m.warmWindow r.affinity) = true
  unheld : a.held r.nowMs = false
  unrejected : a.quota.rejected = false
  unblocked : a.modelBlocked (m.gates r) = false
  unpaced : a.pacedOut m.pacing r.nowMs = false

theorem SoftOnly.hold {a : AccountRuntime} (h : m.SoftOnly r a) :
    a.holdClearsWhileWarm r.nowMs (m.warmWindow r.affinity) = false := by
  have hnone : a.holdRemainingMs r.nowMs = none := by
    have hun := h.unheld
    unfold AccountRuntime.held at hun
    cases hu : a.rateLimitedUntilMs with
    | none => simp [AccountRuntime.holdRemainingMs, hu]
    | some u =>
      rw [hu] at hun
      simp only [Option.any_some, decide_eq_false_iff_not] at hun
      simp [AccountRuntime.holdRemainingMs, hu, Option.filter_some]
      omega
  simp [AccountRuntime.holdClearsWhileWarm, hnone]

theorem SoftOnly.rejection {a : AccountRuntime} (h : m.SoftOnly r a) :
    a.rejectionClearsWhileWarm r.nowMs (m.warmWindow r.affinity) = false := by
  simp [AccountRuntime.rejectionClearsWhileWarm, AccountRuntime.rejectionResetMs, h.unrejected]

theorem SoftOnly.eligible_iff {a : AccountRuntime} (h : m.SoftOnly r a) :
    a.eligible (m.gates r) true none r.group = true ↔ a.nearThreshold (m.gates r) = false :=
  eligible_iff_under_threshold h.provider h.alive h.hold h.unblocked h.unpaced

/-- What the fast path answers for such a pin: itself, unless it is near, cold and an alternative
looks eligible, and then whatever the fall-through finds. -/
theorem soft_only_answer {key : Key} {pin : Pin} {a : AccountRuntime}
    (hl : m.lockedAccountFor r.provider = none) (hk : r.affinity = some key)
    (hp : m.affinity.get key = some pin) (ha : m.account pin.1 = some a) (ht : pin.1 ∉ r.tried)
    (h : m.SoftOnly r a) :
    (m.selectCore r).1.isSome = true ↔
      (a.nearThreshold (m.gates r) = false ∨ ¬ m.IdleCold r pin) ∨
        (m.selectOffPin r none).1.isSome = true := by
  have hcase := m.pin_case r key pin
  simp only [selectCore, hl, affinityFastPath, hk, hp]
  generalize hv : m.pinVerdict r key pin = v at hcase
  cases hcase with
  | otherProvider ha' hprov =>
    rw [ha] at ha'
    cases ha'
    exact absurd h.provider hprov
  | outOfGroup hg hout =>
    have hcar := h.carries
    rw [hg] at hcar
    exact absurd (AccountRuntime.carries_some.mp hcar) (hout a ha)
  | tried ha' ht' => exact absurd ht' ht
  | usable hs he =>
    have := hs.account
    rw [ha] at this
    cases this
    simp [h.eligible_iff.mp he]
  | gone hg =>
    have := hg a ha
    rw [h.alive] at this
    cases this
  | yields hs halive hy =>
    have := hs.account
    rw [ha] at this
    cases this
    simp [h.hold, h.rejection, h.unblocked, h.unpaced] at hy
  | idleCold hs ho hc =>
    have := hs.account
    rw [ha] at this
    cases this
    simp [ho.near h.provider, hc]
  | overThreshold hs ho hc => simp [hc]

/-- A request pinned to an account that fails at most the soft threshold is answered exactly when
that account is a supported exit and is under the threshold, recently touched or without an
alternative that looks eligible, or when a door behind the fast path is open. -/
theorem soft_threshold_answer_iff (m : Manager) (disk : Option Config) (r : Request) (key : Key)
    (pin : Pin) (a : AccountRuntime)
    (hl : (m.reloadGroupsIfChanged disk).lockedAccountFor r.provider = none)
    (hk : r.affinity = some key) (hp : m.affinity.get key = some pin)
    (ha : (m.reloadGroupsIfChanged disk).account pin.1 = some a) (ht : pin.1 ∉ r.tried)
    (h : (m.reloadGroupsIfChanged disk).SoftOnly r a) :
    (m.selectWithGroup disk r).1.isSome = true ↔
      (pin.1 ∉ (m.reloadGroupsIfChanged disk).unsupportedFor r.provider ∧
        (a.nearThreshold ((m.reloadGroupsIfChanged disk).gates r) = false ∨
          r.nowMs - pin.2 < ((m.reloadGroupsIfChanged disk).warmWindow r.affinity).ms ∨
          ∀ idx b, idx ≠ pin.1 → (m.reloadGroupsIfChanged disk).account idx = some b →
            b.eligible ((m.reloadGroupsIfChanged disk).gates r) true none r.group = false)) ∨
      (m.reloadGroupsIfChanged disk).FallThrough r := by
  have hlive : m.live (.select disk r) = m.reloadGroupsIfChanged disk := rfl
  have hreq : (Call.select disk r).request = r := rfl
  have hrun : m.selectWithGroup disk r =
      (m.swept (.select disk r)).selectCore (m.screened (.select disk r)) := rfl
  have hfall := m.fall_through_iff (.select disk r)
  rw [hlive, hreq] at hfall
  have hlock : (m.swept (.select disk r)).lockedAccountFor (m.screened (.select disk r)).provider =
      none := by
    obtain ⟨_, hs⟩ := m.swept_eq (.select disk r)
    rw [hs]
    exact hl
  rw [hrun, ← hfall]
  by_cases hu : pin.1 ∈ (m.reloadGroupsIfChanged disk).unsupportedFor r.provider
  · have hgone : (m.swept (.select disk r)).affinity.get key = none := swept_get_dropped hp hu
    simp only [selectCore, hlock, affinityFastPath, screened_affinity, hreq, hk, hgone, hu,
      not_true_eq_false, false_and, false_or]
  · have hkeep : (m.swept (.select disk r)).affinity.get key = some pin := by
      rw [swept_get, hp]
      intro pin' hp'
      rw [hp] at hp'
      cases hp'
      exact hu
    have hsoft : (m.swept (.select disk r)).SoftOnly (m.screened (.select disk r)) a := by
      obtain ⟨_, hs⟩ := m.swept_eq (.select disk r)
      rw [hs]
      exact ⟨h.provider, h.carries, h.alive, h.unheld, h.unrejected, h.unblocked, h.unpaced⟩
    have hcold : (m.swept (.select disk r)).IdleCold (m.screened (.select disk r)) pin ↔
        ((m.reloadGroupsIfChanged disk).warmWindow r.affinity).ms ≤ r.nowMs - pin.2 ∧
          ∃ idx b, idx ≠ pin.1 ∧ (m.reloadGroupsIfChanged disk).account idx = some b ∧
            b.eligible ((m.reloadGroupsIfChanged disk).gates r) true none r.group = true := by
      rw [IdleCold, has_eligible_alternative_iff]
      simp only [swept_account, swept_gates, swept_warm_window, hlive]
      rfl
    rw [soft_only_answer hlock hk hkeep ((m.swept_account _ _).trans ha)
      ((m.untried_screened _).mpr ⟨ht, hu⟩) hsoft, hcold, swept_gates, hlive]
    refine or_congr ?_ Iff.rfl
    simp only [hu, not_false_eq_true, true_and, not_and_or, not_le, not_exists, Bool.not_eq_true,
      hreq]
    refine or_congr Iff.rfl (or_congr Iff.rfl ?_)
    simp only [ne_eq, imp_iff_not_or]

/-- Account `a` over its threshold with a session pinned to it, and the control account `b`. -/
def coldFleet : Manager :=
  (assemble { controlAccount := some "b" }
    [{ name := "a", provider := .anthropic,
       quota := { fiveHour := some { utilization := 99 / 100, reset := none } } },
     { name := "b", provider := .anthropic }]).restoreAffinity [(7, (0, 0))] ∅

/-- The session's next inference turn, `seconds` after its last one. -/
def turnAfter (seconds : Int) : Request :=
  { now := seconds * 1000000000, path := "/v1/messages", affinity := some 7 }

def overAccount : AccountRuntime :=
  { name := "a", provider := .anthropic,
    quota := { fiveHour := some { utilization := 99 / 100, reset := none } } }

theorem over_account_soft_only (seconds : Int) (h : seconds = 400 ∨ seconds = 10) :
    coldFleet.SoftOnly (turnAfter seconds) overAccount := by
  rcases h with rfl | rfl <;>
    exact ⟨by decide +kernel, by decide +kernel, by decide +kernel, by decide +kernel,
      by decide +kernel, by decide +kernel, by decide +kernel⟩

/-- Idle past the warm window, the session is refused: the only alternative that looks eligible is
the control account, which the inference pick excludes. -/
theorem cold_turn_refused :
    coldFleet.lockedAccountFor (turnAfter 400).provider = none ∧
    coldFleet.affinity.get 7 = some (0, 0) ∧ coldFleet.account 0 = some overAccount ∧
    0 ∉ (turnAfter 400).tried ∧ coldFleet.SoftOnly (turnAfter 400) overAccount ∧
    (coldFleet.selectWithGroup none (turnAfter 400)).1 = none :=
  ⟨by decide +kernel, by decide +kernel, by decide +kernel, by decide +kernel,
    over_account_soft_only 400 (Or.inl rfl), by decide +kernel⟩

/-- Within the warm window the pin is served. -/
theorem warm_turn_answered : (coldFleet.selectWithGroup none (turnAfter 10)).1.isSome = true :=
  (soft_threshold_answer_iff coldFleet none (turnAfter 10) 7 (0, 0) overAccount (by decide +kernel)
    rfl (by decide +kernel) (by decide +kernel) (by decide +kernel)
    (over_account_soft_only 10 (Or.inr rfl))).mpr
    (Or.inl ⟨by decide +kernel, Or.inr (Or.inl (by decide +kernel))⟩)

end Manager

end TeamClaude
