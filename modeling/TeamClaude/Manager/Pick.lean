import TeamClaude.Lib.FirstLeast
import TeamClaude.Manager.Gates

/-!
# Pool picks

The three loops over the fleet that pick an account for an unpinned request: the rotation pick, the
least-loaded fallback and the Fable last resort. Each keeps the first account of least key among
those its gates admit.
-/

namespace TeamClaude

/-- `i64::try_from(x).unwrap_or(i64::MAX)` -/
def i64OrMax (x : Int) : Int :=
  if i64Min ≤ x ∧ x ≤ i64Max then x else i64Max

def i128Min : Int := -(2 ^ 127)

/-- `x as u64` of a non-negative float: rounded down, saturating. -/
def floorU64 (x : ℚ) : Nat :=
  min x.floor.toNat (2 ^ 64 - 1)

/-- Priority, reset-urgency bucket, tick of the last pick, weekly reset: smaller is picked first. -/
abbrev RotationKey := Int ×ₗ Int ×ₗ Nat ×ₗ Int

namespace Manager

def gateInputs (m : Manager) (now : Instant) (isFable : Bool) (provider : Provider) :
    GateInputs where
  globalThreshold := m.globalThreshold
  fableWeeklyThreshold := m.fableWeeklyThreshold
  pacing := m.pacing
  reserved := m.groups.reserved
  parked := m.groups.parked
  now := now
  nowMs := odtToMs now
  isFable := isFable
  provider := provider

def poolPickRespectsControlReserve (m : Manager) (idx : Nat) (a : AccountRuntime) (now : Instant) :
    Bool :=
  if m.controlIdx ≠ some idx then true
  else
    !a.quota.isNear (effectiveThreshold (a.threshold m.globalThreshold) m.controlReserve true) now

/-- `reset_urgency_tier`: the bucket of the governing weekly reset, the same for all when off. -/
def resetUrgencyTier (m : Manager) (a : AccountRuntime) (now : Instant) : Int :=
  if m.resetUrgencyTierMs = 0 then 0
  else
    match a.quota.governingWeeklyReset now with
    | none => i64Min
    | some reset => (max (i64OrMax ((reset - now).tdiv 1000000)) 0).tdiv m.resetUrgencyTierMs

/-- An unknown weekly reset sorts first. -/
def resetKey (a : AccountRuntime) (now : Instant) : Int :=
  match a.quota.governingWeeklyReset now with
  | none => i128Min
  | some reset => unixTimestamp reset

def rotationKey (m : Manager) (a : AccountRuntime) (now : Instant) : RotationKey :=
  toLex (a.priority, toLex (m.resetUrgencyTier a now, toLex (a.lastSelectedSeq, resetKey a now)))

/-- What `pick_eligible` and `pick_least_loaded` ask of an account. -/
def poolOk (m : Manager) (g : GateInputs) (tried : Finset Nat) (respectPacing : Bool)
    (group : Option String) (idx : Nat) (a : AccountRuntime) : Bool :=
  !decide (idx ∈ tried) && a.eligible g respectPacing group group &&
    m.poolPickRespectsControlReserve idx a g.now

def pickEligible (m : Manager) (g : GateInputs) (tried : Finset Nat) (respectPacing : Bool)
    (group : Option String) : Option Nat :=
  Lib.scanBest (m.poolOk g tried respectPacing group) (fun _ a => m.rotationKey a g.now) m.accounts

def pickLeastLoaded (m : Manager) (g : GateInputs) (tried : Finset Nat) (group : Option String) :
    Option Nat :=
  Lib.scanBest (m.poolOk g tried false group)
    (fun _ a => (toLex (a.inFlight, m.rotationKey a g.now) : Nat ×ₗ RotationKey)) m.accounts

/-- The gates of the Fable last resort: only the predicted Fable threshold is relaxed. -/
def lastResortOk (m : Manager) (g : GateInputs) (tried : Finset Nat) (idx : Nat)
    (a : AccountRuntime) : Bool :=
  !decide (idx ∈ tried) && decide (a.provider = g.provider) &&
    !(a.disabled || decide (a.status = .error)) && !a.parkedBlocks g.parked && !a.held g.nowMs &&
    !a.nearThreshold g && !a.quota.modelWeeklyRejected g.now && !a.reservedBlocks none g.reserved &&
    m.poolPickRespectsControlReserve idx a g.now

/-- The used share of the Fable weekly bucket, in millionths. -/
def oiBucket (a : AccountRuntime) (now : Instant) : Nat :=
  floorU64 (max ((a.quota.sevenDayOi.map fun w => w.effective now).getD 0) 0 * 1000000)

def pickFableLastResort (m : Manager) (g : GateInputs) (tried : Finset Nat) : Option Nat :=
  Lib.scanBest (m.lastResortOk g tried)
    (fun _ a => (toLex (oiBucket a g.now, m.rotationKey a g.now) : Nat ×ₗ RotationKey)) m.accounts

/-! ## What a pick returns -/

section Picks

variable {m : Manager} {g : GateInputs} {tried : Finset Nat} {respectPacing : Bool}
  {group : Option String} {idx : Nat} {a : AccountRuntime}

theorem pool_ok_iff : m.poolOk g tried respectPacing group idx a = true ↔
    idx ∉ tried ∧ a.eligible g respectPacing group group = true ∧
      m.poolPickRespectsControlReserve idx a g.now = true := by
  simp [poolOk, and_assoc]

theorem last_resort_ok_iff : m.lastResortOk g tried idx a = true ↔
    idx ∉ tried ∧ a.provider = g.provider ∧ m.lastResortOk g ∅ idx a = true := by
  simp only [lastResortOk, Finset.notMem_empty, Bool.and_eq_true, Bool.not_eq_true',
    decide_eq_false_iff_not, decide_eq_true_eq, decide_false, Bool.not_false,
    true_and]
  tauto

theorem pick_eligible_some (h : m.pickEligible g tried respectPacing group = some idx) :
    ∃ a, m.account idx = some a ∧ m.poolOk g tried respectPacing group idx a = true := by
  obtain ⟨k, hk⟩ := Lib.scan_best_some h
  obtain ⟨a, ha, hok, -⟩ := hk.admitted
  exact ⟨a, ha, hok⟩

theorem pick_least_loaded_some (h : m.pickLeastLoaded g tried group = some idx) :
    ∃ a, m.account idx = some a ∧ m.poolOk g tried false group idx a = true := by
  obtain ⟨k, hk⟩ := Lib.scan_best_some h
  obtain ⟨a, ha, hok, -⟩ := hk.admitted
  exact ⟨a, ha, hok⟩

theorem pick_fable_last_resort_some (h : m.pickFableLastResort g tried = some idx) :
    ∃ a, m.account idx = some a ∧ m.lastResortOk g tried idx a = true := by
  obtain ⟨k, hk⟩ := Lib.scan_best_some h
  obtain ⟨a, ha, hok, -⟩ := hk.admitted
  exact ⟨a, ha, hok⟩

theorem pick_eligible_is_some : (m.pickEligible g tried respectPacing group).isSome = true ↔
    ∃ idx a, m.account idx = some a ∧ m.poolOk g tried respectPacing group idx a = true :=
  Lib.scan_best_is_some

theorem pick_least_loaded_is_some : (m.pickLeastLoaded g tried group).isSome = true ↔
    ∃ idx a, m.account idx = some a ∧ m.poolOk g tried false group idx a = true :=
  Lib.scan_best_is_some

theorem pick_fable_last_resort_is_some : (m.pickFableLastResort g tried).isSome = true ↔
    ∃ idx a, m.account idx = some a ∧ m.lastResortOk g tried idx a = true :=
  Lib.scan_best_is_some

end Picks

end Manager

end TeamClaude
