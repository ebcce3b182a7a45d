import TeamClaude.Manager.Frame

/-!
# The doors of a selection

Every way the selection can return an account, with what its gates establish, and every way a pin
can be served, kept or given up. What is proved of a selection is proved by cases on these.
-/

namespace TeamClaude.Manager

variable {m : Manager} {r : Request}

/-- The account may answer the request at all: it has not failed it, it is of the request's
provider, and it carries the group the request asks for strictly. -/
def Servable (m : Manager) (r : Request) (idx : Nat) : Prop :=
  idx ∉ r.tried ∧ ∃ a, m.account idx = some a ∧ a.provider = r.provider ∧
    a.carries (m.strictGroup r.group) = true

theorem strict_group_eq_none_or (m : Manager) (group : Option String) :
    m.strictGroup group = none ∨ m.strictGroup group = group := by
  cases group with
  | none => exact Or.inl rfl
  | some g =>
    unfold strictGroup
    cases hg : m.groups.isStrict g with
    | true => exact Or.inr (by simp [hg])
    | false => exact Or.inl (by simp [hg])

theorem strict_group_some {group : Option String} {g : String} :
    m.strictGroup group = some g ↔ group = some g ∧ m.groups.isStrict g = true :=
  Option.filter_eq_some_iff

/-- An account in the group asked for carries the group asked for strictly. -/
theorem carries_strict {a : AccountRuntime} {group : Option String} (h : a.carries group = true) :
    a.carries (m.strictGroup group) = true := by
  rcases m.strict_group_eq_none_or group with hs | hs
  · rw [hs]
    rfl
  · rwa [hs]

theorem out_of_strict_group {a : AccountRuntime} {strict : Option String} :
    (strict.any fun s => !a.inGroup s) = false ↔ a.carries strict = true := by
  cases strict with
  | none => simp [AccountRuntime.carries]
  | some s => simp [AccountRuntime.carries]

/-- A gate of the shared form, with membership asked strictly, makes an account servable. -/
theorem servable_of_eligible {idx : Nat} {a : AccountRuntime} {respectPacing : Bool}
    {reservedGroup : Option String} (ht : idx ∉ r.tried) (ha : m.account idx = some a)
    (h : a.eligible (m.gates r) respectPacing (m.strictGroup r.group) reservedGroup = true) :
    m.Servable r idx :=
  ⟨ht, a, ha, AccountRuntime.eligible_provider h, AccountRuntime.eligible_carries h⟩

/-! ## The pin -/

/-- What the fast path has found out about a pin once it judges the account itself. -/
structure PinInScope (m : Manager) (r : Request) (pin : Pin) (a : AccountRuntime) : Prop where
  account : m.account pin.1 = some a
  untried : pin.1 ∉ r.tried
  provider : a.provider = r.provider
  carries : a.carries (m.strictGroup r.group) = true

theorem PinInScope.servable {pin : Pin} {a : AccountRuntime} (h : m.PinInScope r pin a) :
    m.Servable r pin.1 :=
  ⟨h.untried, a, h.account, h.provider, h.carries⟩

/-- The account fails the full gate, clears the account-level one and every per-request one that
diverts: it is over its soft threshold and nothing else. -/
structure OverThreshold (m : Manager) (r : Request) (a : AccountRuntime) : Prop where
  ineligible : a.eligible (m.gates r) true none r.group = false
  alive : a.accountHardOk (m.gates r) r.group (m.warmWindow r.affinity) = true
  unheld : a.holdClearsWhileWarm r.nowMs (m.warmWindow r.affinity) = false
  unrejected : a.rejectionClearsWhileWarm r.nowMs (m.warmWindow r.affinity) = false
  unblocked : a.modelBlocked (m.gates r) = false
  unpaced : a.pacedOut m.pacing r.nowMs = false

/-- The session has been idle for the warm window and an alternative account looks eligible. -/
def IdleCold (m : Manager) (r : Request) (pin : Pin) : Prop :=
  (m.warmWindow r.affinity).ms ≤ r.nowMs - pin.2 ∧ m.hasEligibleAlternative r pin.1 = true

inductive PinCase (m : Manager) (r : Request) (key : Key) (pin : Pin) : PinVerdict → Prop
  | otherProvider {a : AccountRuntime} (ha : m.account pin.1 = some a)
      (hp : a.provider ≠ r.provider) (untilMs : Int) : PinCase m r key pin (.divert untilMs)
  | outOfGroup {g : String} (hg : m.strictGroup r.group = some g)
      (hout : ∀ a, m.account pin.1 = some a → g ∉ a.groups) (untilMs : Int) :
      PinCase m r key pin (.divert untilMs)
  | tried {a : AccountRuntime} (ha : m.account pin.1 = some a) (ht : pin.1 ∈ r.tried)
      (halive : a.accountHardOk (m.gates r) r.group (m.warmWindow r.affinity) = true)
      (untilMs : Int) : PinCase m r key pin (.divert untilMs)
  | usable {a : AccountRuntime} (hs : m.PinInScope r pin a)
      (he : a.eligible (m.gates r) true none r.group = true) :
      PinCase m r key pin (.serve (m.migrationTarget r key pin.1))
  | gone (hg : ∀ a, m.account pin.1 = some a →
      a.accountHardOk (m.gates r) r.group (m.warmWindow r.affinity) = false) :
      PinCase m r key pin .release
  | yields {a : AccountRuntime} (hs : m.PinInScope r pin a)
      (halive : a.accountHardOk (m.gates r) r.group (m.warmWindow r.affinity) = true)
      (hy : (a.holdClearsWhileWarm r.nowMs (m.warmWindow r.affinity) ||
        a.rejectionClearsWhileWarm r.nowMs (m.warmWindow r.affinity) ||
        a.modelBlocked (m.gates r) || a.pacedOut m.pacing r.nowMs) = true)
      (untilMs : Int) : PinCase m r key pin (.divert untilMs)
  | idleCold {a : AccountRuntime} (hs : m.PinInScope r pin a) (ho : m.OverThreshold r a)
      (hc : m.IdleCold r pin) : PinCase m r key pin .release
  | overThreshold {a : AccountRuntime} (hs : m.PinInScope r pin a) (ho : m.OverThreshold r a)
      (hc : ¬ m.IdleCold r pin) : PinCase m r key pin (.serve pin.1)

theorem pin_case (m : Manager) (r : Request) (key : Key) (pin : Pin) :
    m.PinCase r key pin (m.pinVerdict r key pin) := by
  unfold pinVerdict
  cases ha : m.account pin.1 with
  | none =>
    simp only [Option.any_none, Option.bind_none, Bool.false_eq_true, if_false, Bool.not_false,
      if_true]
    split
    · rename_i hstrict
      obtain ⟨g, hg, -⟩ := Option.any_eq_true _ _ |>.mp hstrict
      exact .outOfGroup hg (fun a h => by rw [ha] at h; cases h) _
    · have hnone : ∀ a, m.account pin.1 = some a →
          a.accountHardOk (m.gates r) r.group (m.warmWindow r.affinity) = false := by
        intro a h
        rw [ha] at h
        cases h
      split <;> exact .gone hnone
  | some a =>
    simp only [Option.any_some, decide_eq_true_eq, Option.bind_some]
    split
    · rename_i hp
      exact .otherProvider ha hp _
    rename_i hp
    split
    · rename_i hstrict
      obtain ⟨g, hg, hout⟩ := Option.any_eq_true _ _ |>.mp hstrict
      refine .outOfGroup hg (fun a' h => ?_) _
      rw [ha] at h
      cases h
      simpa [AccountRuntime.inGroup] using hout
    rename_i hstrict
    split
    · rename_i ht
      split
      · rename_i halive
        exact .tried ha ht halive _
      · rename_i hdead
        refine .gone fun a' h => ?_
        rw [ha] at h
        cases h
        simpa using hdead
    rename_i ht
    have hs : m.PinInScope r pin a :=
      ⟨ha, ht, not_not.mp hp, out_of_strict_group.mp (by simpa using hstrict)⟩
    split
    · rename_i he
      exact .usable hs he
    rename_i he
    split
    · rename_i hdead
      refine .gone fun a' h => ?_
      rw [ha] at h
      cases h
      simpa using hdead
    rename_i halive
    have halive : a.accountHardOk (m.gates r) r.group (m.warmWindow r.affinity) = true := by
      simpa using halive
    split
    · rename_i hyield
      exact .yields hs halive hyield _
    rename_i hyield
    simp only [Bool.or_eq_true, not_or, Bool.not_eq_true] at hyield
    obtain ⟨⟨⟨hheld, hrej⟩, hmodel⟩, hpaced⟩ := hyield
    have ho : m.OverThreshold r a := ⟨by simpa using he, halive, hheld, hrej, hmodel, hpaced⟩
    split
    · rename_i hc
      exact .idleCold hs ho hc
    · rename_i hc
      exact .overThreshold hs ho hc

/-- A migration moves the session to an account its own gates admit, or not at all. -/
theorem migration_target_cases (m : Manager) (r : Request) (key : Key) (idx : Nat) :
    m.migrationTarget r key idx = idx ∨
    (m.config.loadBalanceMigration = true ∧ ∃ a, m.account (m.migrationTarget r key idx) = some a ∧
      m.migrationOk r key idx (m.migrationTarget r key idx) a = true) := by
  unfold migrationTarget
  split
  · rename_i hc
    cases hb : Lib.scanBest (m.migrationOk r key idx) (fun cand a =>
        (toLex (m.liveCount key r.nowMs cand, toLex (a.inFlight, a.lastSelectedSeq)) :
          Nat ×ₗ Nat ×ₗ Nat)) m.accounts with
    | none => exact Or.inl rfl
    | some y =>
      obtain ⟨k, hk⟩ := Lib.scan_best_some hb
      obtain ⟨a, ha, hok, -⟩ := hk.admitted
      exact Or.inr ⟨hc.2, a, ha, hok⟩
  · exact Or.inl rfl

theorem committed_target_cases (m : Manager) (r : Request) (key : Key) (idx target : Nat) :
    m.committedTarget r key idx target = target ∨ m.committedTarget r key idx target = idx := by
  unfold committedTarget
  split
  · exact Or.inl rfl
  split
  · exact Or.inl rfl
  · exact Or.inr rfl

/-! ## The answers -/

/-- The doors an account is returned through, each with what its own gates establish. -/
inductive Door (m : Manager) (r : Request) : Nat → Prop
  | lock {idx : Nat} (hl : m.lockedAccountFor r.provider = some idx)
      (hs : m.Servable r idx) : Door m r idx
  | honoured {key : Key} {pin : Pin} {a : AccountRuntime} (hk : r.affinity = some key)
      (hp : m.affinity.get key = some pin) (hs : m.PinInScope r pin a)
      (he : a.eligible (m.gates r) true none r.group = true) : Door m r pin.1
  | overThreshold {key : Key} {pin : Pin} {a : AccountRuntime} (hk : r.affinity = some key)
      (hp : m.affinity.get key = some pin) (hs : m.PinInScope r pin a)
      (ho : m.OverThreshold r a) : Door m r pin.1
  | migrated {key : Key} {pin : Pin} {idx : Nat} {a : AccountRuntime} (hk : r.affinity = some key)
      (hp : m.affinity.get key = some pin) (hon : m.config.loadBalanceMigration = true)
      (ha : m.account idx = some a) (hm : m.migrationOk r key pin.1 idx a = true) : Door m r idx
  | noise {k : Key} {idx : Nat} (hc : r.requestClass = .noise)
      (hn : m.noisePick r = some (k, idx)) : Door m r idx
  | control {idx : Nat} (hc : r.requestClass = .controlPreferred)
      (hp : m.controlPick r = some idx) : Door m r idx
  | sticky {kept : Kept} {idx : Nat} (hs : m.stickyPick r kept = some idx) : Door m r idx
  | pool {idx : Nat} {a : AccountRuntime} (ha : m.account idx = some a)
      (hok : m.poolOk (m.gates r) (m.poolTried r) true r.group idx a = true) : Door m r idx
  | leastLoaded {idx : Nat} {a : AccountRuntime} (hn : m.strictGroup r.group = none)
      (ha : m.account idx = some a)
      (hok : m.poolOk (m.gates r) (m.poolTried r) false none idx a = true) : Door m r idx
  | lastResort {idx : Nat} {a : AccountRuntime} (hn : m.strictGroup r.group = none)
      (ha : m.account idx = some a)
      (hok : m.lastResortOk (m.gates r) (m.poolTried r) idx a = true) : Door m r idx

theorem pool_pick_cases {idx : Nat} (h : m.poolPick r = some idx) :
    ∃ a, m.account idx = some a ∧
      (m.poolOk (m.gates r) (m.poolTried r) true r.group idx a = true ∨
        m.strictGroup r.group = none ∧
          (m.poolOk (m.gates r) (m.poolTried r) false none idx a = true ∨
            r.isFable = true ∧ m.lastResortOk (m.gates r) (m.poolTried r) idx a = true)) := by
  unfold poolPick at h
  simp only at h
  split at h
  · rename_i i hp
    cases h
    obtain ⟨a, ha, hok⟩ := pick_eligible_some hp
    exact ⟨a, ha, Or.inl hok⟩
  split at h
  · cases h
  rename_i hstrict
  have hn : m.strictGroup r.group = none := by simpa using hstrict
  split at h
  · rename_i i hp
    cases h
    obtain ⟨a, ha, hok⟩ := pick_least_loaded_some hp
    exact ⟨a, ha, Or.inr ⟨hn, Or.inl hok⟩⟩
  split at h
  · rename_i hf
    obtain ⟨a, ha, hok⟩ := pick_fable_last_resort_some h
    exact ⟨a, ha, Or.inr ⟨hn, Or.inr ⟨hf, hok⟩⟩⟩
  · cases h

theorem pool_pick_door {idx : Nat} (h : m.poolPick r = some idx) : m.Door r idx := by
  obtain ⟨a, ha, hok | ⟨hn, hok | ⟨-, hok⟩⟩⟩ := pool_pick_cases h
  · exact .pool ha hok
  · exact .leastLoaded hn ha hok
  · exact .lastResort hn ha hok

@[simp] theorem settle_fst (m : Manager) (r : Request) (kept : Option Kept) (best : Option Nat) :
    (m.settle r kept best).1 = best := by
  cases best <;> rfl

theorem fast_path_door {idx : Nat} {m' : Manager} (h : m.affinityFastPath r = .served idx m') :
    m.Door r idx := by
  obtain ⟨key, pin, target, hk, hp, hv, rfl, -⟩ := served_cases h
  have hcase := m.pin_case r key pin
  rw [hv] at hcase
  generalize htarget : PinVerdict.serve target = v at hcase
  cases hcase with
  | usable hs he =>
    cases htarget
    rcases committed_target_cases (m.stamp (m.migrationTarget r key pin.1)) r key pin.1
      (m.migrationTarget r key pin.1) with hc | hc
    · rw [hc]
      rcases m.migration_target_cases r key pin.1 with hmig | ⟨hon, a, ha, hm⟩
      · rw [hmig]
        exact .honoured hk hp hs he
      · exact .migrated hk hp hon ha hm
    · rw [hc]
      exact .honoured hk hp hs he
  | overThreshold hs ho hc =>
    cases htarget
    simp only [committedTarget, if_true]
    exact .overThreshold hk hp hs ho
  | _ => cases htarget

theorem overlay_door {idx : Nat} {m' : Manager} (h : m.overlay r = some (idx, m')) :
    m.Door r idx := by
  rcases overlay_cases h with ⟨hc, k, hn, -⟩ | ⟨hc, hn, -⟩
  · exact .noise hc hn
  · exact .control hc hn

theorem locked_pick_servable {idx i : Nat} (hl : m.lockedAccountFor r.provider = some idx)
    (h : m.lockedPick r idx = some i) : i = idx ∧ m.Servable r idx := by
  obtain ⟨-, hlive⟩ := Option.filter_eq_some_iff.mp hl
  obtain ⟨a, ha, hok⟩ := Option.any_eq_true _ _ |>.mp hlive
  simp only [Bool.and_eq_true, Bool.not_eq_true', decide_eq_true_eq] at hok
  unfold lockedPick at h
  rw [ha] at h
  simp only [Option.any_some] at h
  split at h
  · cases h
  rename_i hstrict
  split at h
  · cases h
  rename_i ht
  cases h
  exact ⟨rfl, ht, a, ha, hok.2, out_of_strict_group.mp (by simpa using hstrict)⟩

/-- Whatever a selection returns came through one of the doors. -/
theorem select_core_door {idx : Nat} (h : (m.selectCore r).1 = some idx) : m.Door r idx := by
  unfold selectCore at h
  split at h
  · rename_i i hl
    obtain ⟨rfl, hs⟩ := locked_pick_servable hl h
    exact .lock hl hs
  split at h
  · rename_i i m' hf
    cases h
    exact fast_path_door hf
  rename_i kept hf
  unfold selectOffPin at h
  split at h
  · split at h
    · rename_i i m' ho
      cases h
      exact overlay_door ho
    · rw [settle_fst] at h
      exact pool_pick_door h
  · rename_i k
    rw [settle_fst] at h
    cases hs : m.stickyPick r k with
    | some s =>
      rw [hs] at h
      cases h
      exact .sticky hs
    | none =>
      rw [hs] at h
      exact pool_pick_door h

/-! ## What every door checks -/

theorem tried_subset_pool_tried (m : Manager) (r : Request) : r.tried ⊆ m.poolTried r := by
  unfold poolTried
  split
  · exact Finset.subset_insert _ _
  · exact Finset.Subset.refl _

theorem untried_of_pool {idx : Nat} (h : idx ∉ m.poolTried r) : idx ∉ r.tried :=
  fun ht => h (m.tried_subset_pool_tried r ht)

theorem noise_pick_eligible {k : Key} {idx : Nat} (h : m.noisePick r = some (k, idx)) :
    r.connKey = some k ∧ m.connAffinityGet k r.nowMs = some idx ∧ idx ∉ r.tried ∧
      ∃ a, m.account idx = some a ∧
        a.eligible (m.gates r) true (m.strictGroup r.group) r.group = true := by
  unfold noisePick at h
  obtain ⟨k', hk, hf⟩ := Option.bind_eq_some_iff.mp h
  obtain ⟨i, hi, heq⟩ := Option.map_eq_some_iff.mp hf
  cases heq
  obtain ⟨hget, hok⟩ := Option.filter_eq_some_iff.mp hi
  simp only [Bool.and_eq_true, Bool.not_eq_true', decide_eq_false_iff_not] at hok
  obtain ⟨a, ha, he⟩ := Option.any_eq_true _ _ |>.mp hok.2
  exact ⟨hk, hget, hok.1, a, ha, he⟩

theorem control_pick_some {idx : Nat} (h : m.controlPick r = some idx) :
    m.controlIdx = some idx ∧ idx ∉ r.tried ∧ ∃ a, m.account idx = some a ∧
      a.provider = r.provider ∧ a.controlEligible r.nowMs = true ∧
        a.carries (m.strictGroup r.group) = true := by
  obtain ⟨hi, hok⟩ := Option.filter_eq_some_iff.mp h
  simp only [Bool.and_eq_true, Bool.not_eq_true', decide_eq_false_iff_not] at hok
  obtain ⟨a, ha, hc⟩ := Option.any_eq_true _ _ |>.mp hok.2
  simp only [Bool.and_eq_true, decide_eq_true_eq] at hc
  exact ⟨hi, hok.1, a, ha, hc.1.1, hc.1.2, hc.2⟩

theorem sticky_pick_some {kept : Kept} {idx : Nat} (h : m.stickyPick r kept = some idx) :
    divertVerdict (r.affinity.bind m.divertLedger.get) kept.pin kept.untilMs 0 = .sticky idx ∧
      idx ∉ r.tried ∧ ∃ a, m.account idx = some a ∧
        a.eligible (m.gates r) true (m.strictGroup r.group) r.group = true := by
  unfold stickyPick at h
  split at h
  · rename_i i hv
    split at h
    · rename_i hok
      cases h
      simp only [Bool.and_eq_true, Bool.not_eq_true', decide_eq_false_iff_not] at hok
      obtain ⟨a, ha, he⟩ := Option.any_eq_true _ _ |>.mp hok.2
      exact ⟨hv, hok.1, a, ha, he⟩
    · cases h
  · cases h

/-- No door leads out of `tried`, across providers or out of a strict group. -/
theorem door_servable {idx : Nat} (h : m.Door r idx) : m.Servable r idx := by
  cases h with
  | lock hl hs => exact hs
  | honoured hk hp hs he => exact hs.servable
  | overThreshold hk hp hs ho => exact hs.servable
  | migrated hk hp hon ha hm =>
    simp only [migrationOk, Bool.and_eq_true, Bool.not_eq_true', Bool.or_eq_false_iff,
      decide_eq_false_iff_not] at hm
    exact servable_of_eligible hm.1.1.2 ha hm.2
  | noise hc hn =>
    obtain ⟨-, -, ht, a, ha, he⟩ := noise_pick_eligible hn
    exact servable_of_eligible ht ha he
  | control hc hp =>
    obtain ⟨-, ht, a, ha, hprov, -, hcar⟩ := control_pick_some hp
    exact ⟨ht, a, ha, hprov, hcar⟩
  | sticky hs =>
    obtain ⟨-, ht, a, ha, he⟩ := sticky_pick_some hs
    exact servable_of_eligible ht ha he
  | pool ha hok =>
    obtain ⟨ht, he, -⟩ := pool_ok_iff.mp hok
    exact ⟨untried_of_pool ht, _, ha, AccountRuntime.eligible_provider he,
      carries_strict (AccountRuntime.eligible_carries he)⟩
  | leastLoaded hn ha hok =>
    obtain ⟨ht, he, -⟩ := pool_ok_iff.mp hok
    exact ⟨untried_of_pool ht, _, ha, AccountRuntime.eligible_provider he, by rw [hn]; rfl⟩
  | lastResort hn ha hok =>
    obtain ⟨ht, hprov, -⟩ := last_resort_ok_iff.mp hok
    exact ⟨untried_of_pool ht, _, ha, hprov, by rw [hn]; rfl⟩

/-- Every selection returns an untried account of the path's provider, inside the strict group. -/
theorem select_with_group_servable (m : Manager) (disk : Option Config) (r : Request) (idx : Nat)
    (h : (m.selectWithGroup disk r).1 = some idx) :
    idx ∉ r.tried ∧ ∃ a, (m.reloadGroupsIfChanged disk).account idx = some a ∧
      a.provider = Provider.ofPath r.path ∧
      ∀ g, r.group = some g → (m.reloadGroupsIfChanged disk).groups.isStrict g = true →
        g ∈ a.groups := by
  unfold selectWithGroup at h
  simp only at h
  have hs := door_servable (select_core_door h)
  obtain ⟨affinity, hstate⟩ :=
    (m.reloadGroupsIfChanged disk).exclude_state r.tried r.provider
  rw [hstate, exclude_tried] at hs
  obtain ⟨ht, a, ha, hprov, hcar⟩ := hs
  refine ⟨fun hin => ht (Finset.mem_union_left _ hin), a, ha, hprov, fun g hg hstrict => ?_⟩
  have hsome : (m.reloadGroupsIfChanged disk).strictGroup r.group = some g :=
    strict_group_some.mpr ⟨hg, hstrict⟩
  exact AccountRuntime.carries_some.mp (hsome ▸ hcar)

/-- Two accounts, the second in a group that does not spill. -/
def laneFleet : Manager :=
  new { accounts := [{ name := "a", provider := .anthropic },
    { name := "b", provider := .anthropic, groups := some ["lane"] }] }

/-- A request for the group on a fresh fleet is answered by its member. -/
theorem select_lane_servable : 1 ∉ (∅ : Finset Nat) ∧ ∃ a, laneFleet.account 1 = some a ∧
    a.provider = Provider.ofPath "/v1/messages" ∧
    ∀ g, some "lane" = some g → laneFleet.groups.isStrict g = true → g ∈ a.groups :=
  select_with_group_servable laneFleet none
    { now := 0, path := "/v1/messages", group := some "lane" } 1 (by decide +kernel)

end TeamClaude.Manager
