import TeamClaude.Manager.Doors
import TeamClaude.Manager.Calls

/-!
# Pacing and the pool pick

A plain inference request reaches nothing but the pool pick. These results compare its passes:
what the fallback adds to the paced pass for a request without a group, and what is missing for a
request held inside one.
-/

namespace TeamClaude

namespace Manager

/-- An inference request that no lock and no session key routes. -/
structure PlainInference (m : Manager) (r : Request) : Prop where
  unlocked : m.lockedAccountFor r.provider = none
  inference : r.requestClass = .inference
  unpinned : r.affinity = none

/-- The account is one the pool pick looks at: not tried, not an unsupported Codex exit, not the
excluded control account. -/
def InPool (m : Manager) (r : Request) (idx : Nat) : Prop :=
  idx ∉ r.tried ∧ idx ∉ m.unsupportedFor r.provider ∧ m.controlExcluded r ≠ some idx

/-- The gates of one pool pass, the control account's reserve floor included. -/
def PassesPool (m : Manager) (r : Request) (respectPacing : Bool) (group : Option String)
    (idx : Nat) (a : AccountRuntime) : Prop :=
  a.eligible (m.gates r) respectPacing group group = true ∧
    m.poolPickRespectsControlReserve idx a r.now = true

instance (m : Manager) (r : Request) (idx : Nat) : Decidable (m.InPool r idx) :=
  inferInstanceAs (Decidable (_ ∧ _ ∧ _))

instance (m : Manager) (r : Request) (respectPacing : Bool) (group : Option String) (idx : Nat)
    (a : AccountRuntime) : Decidable (m.PassesPool r respectPacing group idx a) :=
  inferInstanceAs (Decidable (_ ∧ _))

variable {m : Manager} {r : Request}

/-! ## The passes -/

/-- Without a key, a lock or an overlay the call is the pool pick. -/
theorem select_core_plain (h : m.PlainInference r) :
    m.selectCore r = m.settle r none (m.poolPick r) := by
  have hoverlay : m.overlay r = none := by simp [overlay, h.inference]
  simp only [selectCore, h.unlocked, affinityFastPath, h.unpinned, selectOffPin, hoverlay]

theorem pool_pick_strict {g : String} (h : m.strictGroup r.group = some g) :
    m.poolPick r = m.pickEligible (m.gates r) (m.poolTried r) true r.group := by
  unfold poolPick
  simp only [h, Option.isSome_some, if_true]
  split <;> simp_all

theorem pool_pick_none_iff (h : m.strictGroup r.group = none) : m.poolPick r = none ↔
    m.pickEligible (m.gates r) (m.poolTried r) true r.group = none ∧
      m.pickLeastLoaded (m.gates r) (m.poolTried r) none = none ∧
      (r.isFable = true → m.pickFableLastResort (m.gates r) (m.poolTried r) = none) := by
  unfold poolPick
  simp only [h, Option.isSome_none, Bool.false_eq_true, if_false]
  split
  · rename_i i hp
    simp [hp]
  rename_i hp
  split
  · rename_i i hl
    simp [hp, hl]
  rename_i hl
  split
  · rename_i hf
    simp [hp, hl, hf]
  · rename_i hf
    simp [hp, hl, hf]

theorem pool_pick_of_paced {idx : Nat}
    (h : m.pickEligible (m.gates r) (m.poolTried r) true r.group = some idx) :
    m.poolPick r = some idx := by
  simp only [poolPick, h]

theorem notMem_pool_tried {idx : Nat} :
    idx ∉ m.poolTried r ↔ idx ∉ r.tried ∧ m.controlExcluded r ≠ some idx := by
  unfold poolTried
  split
  · rename_i c hc
    simp only [Finset.mem_insert, not_or, hc, ne_eq, Option.some.injEq]
    constructor
    · rintro ⟨h1, h2⟩
      exact ⟨h2, fun h => h1 h.symm⟩
    · rintro ⟨h1, h2⟩
      exact ⟨fun h => h2 h.symm, h1⟩
  · rename_i hc
    simp [hc]

/-! ## The same passes over the reloaded state -/

section Live

variable (m) (c : Call)

theorem swept_control_excluded :
    (m.swept c).controlExcluded (m.screened c) = (m.live c).controlExcluded c.request := by
  obtain ⟨_, h⟩ := m.swept_eq c
  rw [h]
  rfl

theorem in_pool_iff {idx : Nat} : idx ∉ (m.swept c).poolTried (m.screened c) ↔
    (m.live c).InPool c.request idx := by
  rw [notMem_pool_tried, swept_control_excluded, screened_tried, Finset.mem_union, not_or, InPool,
    and_assoc]

theorem swept_pool_ok {respectPacing : Bool} {group : Option String} {idx : Nat}
    {a : AccountRuntime} :
    (m.swept c).poolOk ((m.swept c).gates (m.screened c)) ((m.swept c).poolTried (m.screened c))
      respectPacing group idx a = true ↔
    (m.live c).InPool c.request idx ∧ (m.live c).PassesPool c.request respectPacing group idx a := by
  rw [pool_ok_iff, in_pool_iff, swept_gates]
  obtain ⟨_, h⟩ := m.swept_eq c
  rw [h]
  rfl

theorem swept_pick_eligible_is_some (respectPacing : Bool) (group : Option String) :
    ((m.swept c).pickEligible ((m.swept c).gates (m.screened c))
      ((m.swept c).poolTried (m.screened c)) respectPacing group).isSome = true ↔
    ∃ idx a, (m.live c).account idx = some a ∧ (m.live c).InPool c.request idx ∧
      (m.live c).PassesPool c.request respectPacing group idx a := by
  simp only [pick_eligible_is_some, swept_pool_ok, swept_account]

theorem swept_pick_least_loaded_is_some (group : Option String) :
    ((m.swept c).pickLeastLoaded ((m.swept c).gates (m.screened c))
      ((m.swept c).poolTried (m.screened c)) group).isSome = true ↔
    ∃ idx a, (m.live c).account idx = some a ∧ (m.live c).InPool c.request idx ∧
      (m.live c).PassesPool c.request false group idx a := by
  simp only [pick_least_loaded_is_some, swept_pool_ok, swept_account]

def lastResortPick (m : Manager) (r : Request) : Option Nat :=
  m.pickFableLastResort (m.gates r) (m.poolTried { r with
    tried := r.tried ∪ m.unsupportedFor r.provider })

theorem swept_last_resort : (m.swept c).pickFableLastResort ((m.swept c).gates (m.screened c))
      ((m.swept c).poolTried (m.screened c)) = (m.live c).lastResortPick c.request := by
  have htried : (m.swept c).poolTried (m.screened c) = (m.live c).poolTried { c.request with
      tried := c.request.tried ∪ (m.live c).unsupportedFor c.request.provider } := by
    unfold poolTried
    rw [swept_control_excluded, screened_tried]
    rfl
  rw [htried, swept_gates]
  obtain ⟨_, h⟩ := m.swept_eq c
  rw [h]
  rfl

theorem swept_last_resort_ok {idx : Nat} {a : AccountRuntime} :
    (m.swept c).lastResortOk ((m.swept c).gates (m.screened c))
      ((m.swept c).poolTried (m.screened c)) idx a = true ↔
    (m.live c).InPool c.request idx ∧ a.provider = c.request.provider ∧
      (m.live c).lastResortOk ((m.live c).gates c.request) ∅ idx a = true := by
  rw [last_resort_ok_iff, in_pool_iff, swept_gates]
  obtain ⟨_, h⟩ := m.swept_eq c
  rw [h]
  rfl

theorem swept_plain {disk : Option Config} {r : Request}
    (h : (m.reloadGroupsIfChanged disk).PlainInference r) :
    (m.swept (.select disk r)).PlainInference (m.screened (.select disk r)) := by
  refine ⟨?_, h.inference, h.unpinned⟩
  obtain ⟨_, hs⟩ := m.swept_eq (.select disk r)
  rw [hs]
  exact h.unlocked

/-- A plain call answers with the pool pick over the reloaded state. -/
theorem select_plain_answer {disk : Option Config} {r : Request}
    (h : (m.reloadGroupsIfChanged disk).PlainInference r) :
    (m.selectWithGroup disk r).1 =
      (m.swept (.select disk r)).poolPick (m.screened (.select disk r)) := by
  have hrun : m.selectWithGroup disk r =
      (m.swept (.select disk r)).selectCore (m.screened (.select disk r)) := rfl
  rw [hrun, select_core_plain (m.swept_plain h), settle_fst]

end Live

/-! ## Requests without a group -/

theorem control_excluded_ne_iff {idx : Nat} (hc : r.requestClass = .inference)
    (hg : r.group = none) : m.controlExcluded r ≠ some idx ↔
      (m.controlPooled = false → m.controlIdx ≠ some idx) := by
  have hopt : ∀ i, m.optedIn none i = false := fun _ => rfl
  cases hp : m.controlPooled with
  | true => simp [controlExcluded, hp]
  | false => simp [controlExcluded, hp, hc, hg, hopt]

theorem passes_pool_unpaced {group : Option String} {idx : Nat} {a : AccountRuntime}
    (h : m.PassesPool r true group idx a) : m.PassesPool r false group idx a :=
  ⟨AccountRuntime.eligible_unpaced h.1, h.2⟩

/-- A plain request without a group is refused exactly when no account the pool looks at passes
with pacing ignored and, for Fable, the last resort finds none; and where some account passes with
pacing respected, so does the answer. -/
theorem plain_select_never_paced_out (m : Manager) (disk : Option Config) (r : Request)
    (h : (m.reloadGroupsIfChanged disk).PlainInference r) (hg : r.group = none) :
    ((m.selectWithGroup disk r).1 = none ↔
      (∀ idx a, (m.reloadGroupsIfChanged disk).account idx = some a → idx ∉ r.tried →
        idx ∉ (m.reloadGroupsIfChanged disk).unsupportedFor r.provider →
        ((m.reloadGroupsIfChanged disk).controlPooled = false →
          (m.reloadGroupsIfChanged disk).controlIdx ≠ some idx) →
        ¬ (m.reloadGroupsIfChanged disk).PassesPool r false none idx a) ∧
      (r.isFable = true → (m.reloadGroupsIfChanged disk).lastResortPick r = none)) ∧
    ((∃ idx a, (m.reloadGroupsIfChanged disk).account idx = some a ∧
        (m.reloadGroupsIfChanged disk).InPool r idx ∧
        (m.reloadGroupsIfChanged disk).PassesPool r true none idx a) →
      ∃ idx a, (m.selectWithGroup disk r).1 = some idx ∧
        (m.reloadGroupsIfChanged disk).account idx = some a ∧
        (m.reloadGroupsIfChanged disk).PassesPool r true none idx a) := by
  have hstrict : (m.swept (.select disk r)).strictGroup (m.screened (.select disk r)).group =
      none := by
    simp [Call.request, hg, strictGroup]
  have hgroup : (m.screened (.select disk r)).group = none := hg
  have hex : ∀ idx, (m.reloadGroupsIfChanged disk).InPool r idx ↔ idx ∉ r.tried ∧
      idx ∉ (m.reloadGroupsIfChanged disk).unsupportedFor r.provider ∧
      ((m.reloadGroupsIfChanged disk).controlPooled = false →
        (m.reloadGroupsIfChanged disk).controlIdx ≠ some idx) := fun idx => by
    rw [InPool, control_excluded_ne_iff h.inference hg]
  have hpaced := m.swept_pick_eligible_is_some (.select disk r) true none
  have hloaded := m.swept_pick_least_loaded_is_some (.select disk r) none
  have hlive : m.live (.select disk r) = m.reloadGroupsIfChanged disk := rfl
  have hreq : (Call.select disk r).request = r := rfl
  simp only [hlive, hreq] at hpaced hloaded
  rw [select_plain_answer m h]
  constructor
  · rw [pool_pick_none_iff hstrict, hgroup, swept_last_resort]
    constructor
    · rintro ⟨-, hl, hf⟩
      refine ⟨fun idx a ha ht hu hc hpass => ?_, hf⟩
      have hsome := hloaded.mpr ⟨idx, a, ha, (hex idx).mpr ⟨ht, hu, hc⟩, hpass⟩
      rw [hl] at hsome
      cases hsome
    · rintro ⟨hnone, hf⟩
      have hall : ∀ idx a, (m.reloadGroupsIfChanged disk).account idx = some a →
          (m.reloadGroupsIfChanged disk).InPool r idx →
          ¬ (m.reloadGroupsIfChanged disk).PassesPool r false none idx a := by
        intro idx a ha hin
        obtain ⟨ht, hu, hc⟩ := (hex idx).mp hin
        exact hnone idx a ha ht hu hc
      refine ⟨?_, ?_, hf⟩
      · rw [← Option.not_isSome_iff_eq_none, hpaced]
        rintro ⟨idx, a, ha, hin, hpass⟩
        exact hall idx a ha hin (passes_pool_unpaced hpass)
      · rw [← Option.not_isSome_iff_eq_none, hloaded]
        rintro ⟨idx, a, ha, hin, hpass⟩
        exact hall idx a ha hin hpass
  · intro hsome
    obtain ⟨idx, hidx⟩ := Option.isSome_iff_exists.mp (hpaced.mpr hsome)
    obtain ⟨a, ha, hok⟩ := pick_eligible_some hidx
    rw [swept_pool_ok] at hok
    rw [swept_account] at ha
    exact ⟨idx, a, pool_pick_of_paced (by rw [hgroup]; exact hidx), ha, hok.2⟩

/-- One healthy account. -/
def loneFleet : Manager :=
  new { accounts := [{ name := "a", provider := .anthropic }] }

/-- The lone account passes with pacing respected, so it is the answer. -/
theorem lone_select_paced : ∃ idx a, (loneFleet.selectWithGroup none
      { now := 0, path := "/v1/messages" }).1 = some idx ∧
    loneFleet.account idx = some a ∧
    loneFleet.PassesPool { now := 0, path := "/v1/messages" } true none idx a :=
  (plain_select_never_paced_out loneFleet none { now := 0, path := "/v1/messages" }
    ⟨by decide +kernel, by decide +kernel, rfl⟩ rfl).2
    ⟨0, _, rfl, ⟨by decide +kernel, by decide +kernel, by decide +kernel⟩,
      ⟨by decide +kernel, by decide +kernel⟩⟩

/-- One Codex row whose strict peer exit Codex cannot honour. -/
def strictExitFleet : Manager :=
  new { accounts := [{ name := "a", provider := .codex, egress := .via 1, egressStrict := true }] }

/-- The row is untried, is no control account and passes every gate of the pool pick, and the
request is refused all the same. -/
theorem strict_exit_row_refused :
    (strictExitFleet.selectWithGroup none { now := 0, path := "/backend-api/codex/responses" }).1 =
      none ∧
    strictExitFleet.PlainInference { now := 0, path := "/backend-api/codex/responses" } ∧
    strictExitFleet.controlIdx = none ∧
    ∃ a, strictExitFleet.account 0 = some a ∧
      strictExitFleet.PassesPool { now := 0, path := "/backend-api/codex/responses" } false none 0 a :=
  ⟨by decide +kernel, ⟨by decide +kernel, by decide +kernel, rfl⟩, rfl, _, rfl,
    ⟨by decide +kernel, by decide +kernel⟩⟩

/-! ## Requests held inside a group -/

/-- A plain request held inside a group is answered exactly when some member the pool looks at
passes with pacing respected: the pass that ignores pacing drops the group, so it never runs. -/
theorem strict_select_iff_unpaced_member (m : Manager) (disk : Option Config) (r : Request)
    (g : String) (h : (m.reloadGroupsIfChanged disk).PlainInference r) (hg : r.group = some g)
    (hstrict : (m.reloadGroupsIfChanged disk).groups.isStrict g = true) :
    (∃ idx a, (m.selectWithGroup disk r).1 = some idx ∧
      (m.reloadGroupsIfChanged disk).account idx = some a ∧ g ∈ a.groups) ↔
    ∃ idx a, (m.reloadGroupsIfChanged disk).account idx = some a ∧
      (m.reloadGroupsIfChanged disk).InPool r idx ∧
      (m.reloadGroupsIfChanged disk).PassesPool r true (some g) idx a := by
  have hs : (m.swept (.select disk r)).strictGroup (m.screened (.select disk r)).group = some g := by
    simp [Call.request, Call.disk, live, hg, strictGroup, hstrict]
  have hpaced := m.swept_pick_eligible_is_some (.select disk r) true (some g)
  have hlive : m.live (.select disk r) = m.reloadGroupsIfChanged disk := rfl
  have hreq : (Call.select disk r).request = r := rfl
  have hgroup : (m.screened (.select disk r)).group = some g := hg
  simp only [hlive, hreq] at hpaced
  rw [select_plain_answer m h, pool_pick_strict hs, hgroup, ← hpaced]
  constructor
  · rintro ⟨idx, a, hidx, -⟩
    rw [hidx]
    rfl
  · intro hsome
    obtain ⟨idx, hidx⟩ := Option.isSome_iff_exists.mp hsome
    obtain ⟨a, ha, hok⟩ := pick_eligible_some hidx
    rw [swept_account, hlive] at ha
    rw [swept_pool_ok] at hok
    exact ⟨idx, a, hidx, ha,
      AccountRuntime.carries_some.mp (AccountRuntime.eligible_carries hok.2.1)⟩

/-- One member of a strict group, at its concurrency cap. -/
def pacedLane : Manager :=
  assemble { pacing := { maxInFlightPerAccount := some 1 } }
    [{ name := "a", provider := .anthropic, groups := ["lane"], inFlight := 1 }]

def laneRequest : Request :=
  { now := 0, path := "/v1/messages", group := some "lane" }

/-- The member passes every gate but pacing, and the group's own request is refused. -/
theorem paced_lane_refused : pacedLane.PlainInference laneRequest ∧
    pacedLane.groups.isStrict "lane" = true ∧
    (∃ a, pacedLane.account 0 = some a ∧ "lane" ∈ a.groups ∧ pacedLane.InPool laneRequest 0 ∧
      pacedLane.PassesPool laneRequest false (some "lane") 0 a) ∧
    (pacedLane.selectWithGroup none laneRequest).1 = none :=
  ⟨⟨by decide +kernel, by decide +kernel, rfl⟩, by decide +kernel,
    ⟨_, rfl, by decide +kernel, ⟨by decide +kernel, by decide +kernel, by decide +kernel⟩,
      ⟨by decide +kernel, by decide +kernel⟩⟩, by decide +kernel⟩

/-- On the idle lane the member passes with pacing respected and answers. -/
theorem lane_member_answers : ∃ idx a, (laneFleet.selectWithGroup none laneRequest).1 = some idx ∧
    laneFleet.account idx = some a ∧ "lane" ∈ a.groups :=
  (strict_select_iff_unpaced_member laneFleet none laneRequest "lane"
    ⟨by decide +kernel, by decide +kernel, rfl⟩ rfl (by decide +kernel)).mpr
    ⟨1, _, rfl, ⟨by decide +kernel, by decide +kernel, by decide +kernel⟩,
      ⟨by decide +kernel, by decide +kernel⟩⟩

end Manager

end TeamClaude
