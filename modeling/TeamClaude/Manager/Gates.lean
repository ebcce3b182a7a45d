import TeamClaude.Manager.State

/-!
# Eligibility gates

The predicates that decide whether an account may serve a request, keep a session's pin, or be
picked as the control account. One record carries the inputs that every gate of a selection call
shares.
-/

namespace TeamClaude

/-- Why an account is out of rotation for good. -/
inductive GateReason
  | disabled
  | login
  | rejected
  deriving DecidableEq

/-- What the gates of one call read besides the account. -/
structure GateInputs where
  globalThreshold : ℚ
  fableWeeklyThreshold : Option ℚ
  pacing : PacingConfig
  reserved : Finset String
  parked : Finset String
  now : Instant
  nowMs : Int
  isFable : Bool
  provider : Provider

def effectiveFableThreshold (override : Option ℚ) (today : ℚ) : ℚ :=
  override.getD today

/-- `effective_threshold`: the control account keeps some headroom against general picks. -/
def effectiveThreshold (threshold reserve : ℚ) (allowReserve : Bool) : ℚ :=
  if allowReserve then max (threshold - reserve) 0 else threshold

namespace AccountRuntime

/-! ## Holds and rejections -/

/-- Milliseconds still to run on a live hold. -/
def holdRemainingMs (a : AccountRuntime) (nowMs : Int) : Option Int :=
  (a.rateLimitedUntilMs.map (· - nowMs)).filter fun remaining => decide (0 < remaining)

/-- `now_ms < until`, as the serving gates ask it. -/
def held (a : AccountRuntime) (nowMs : Int) : Bool :=
  a.rateLimitedUntilMs.any fun until_ => decide (nowMs < until_)

def holdOutlivesCache (a : AccountRuntime) (nowMs : Int) (warm : WarmWindow) : Bool :=
  (a.holdRemainingMs nowMs).any fun remaining => decide (warm.ms ≤ remaining)

def holdClearsWhileWarm (a : AccountRuntime) (nowMs : Int) (warm : WarmWindow) : Bool :=
  (a.holdRemainingMs nowMs).any fun remaining => decide (remaining < warm.ms)

/-- When a rejection carried by the five-hour window clears on its own. -/
def rejectionResetMs (a : AccountRuntime) : Option Int :=
  if !a.quota.rejected then none
  else
    match a.quota.fiveHour with
    | none => none
    | some fiveHour =>
      let weeklyUtil := (a.quota.sevenDay.map QuotaWindow.utilization).getD 0
      if fiveHour.utilization < weeklyUtil then none else fiveHour.reset.map odtToMs

def rejectionClearsWhileWarm (a : AccountRuntime) (nowMs : Int) (warm : WarmWindow) : Bool :=
  a.rejectionResetMs.any fun reset => decide (0 < reset - nowMs) && decide (reset - nowMs < warm.ms)

/-! ## Account-level gates -/

/-- The blocks that are a fact about the credential and never self-free. -/
def terminalGate (a : AccountRuntime) : Option GateReason :=
  if a.disabled then some .disabled
  else if a.status = .error then some .login
  else if a.quota.rejected then some .rejected
  else none

def parkedBlocks (a : AccountRuntime) (parked : Finset String) : Bool :=
  a.groups.any fun g => decide (g ∈ parked)

/-- A reservation holds out only traffic that asked for no group. -/
def reservedBlocks (a : AccountRuntime) (group : Option String) (reserved : Finset String) : Bool :=
  if group.isSome then false else a.groups.any fun g => decide (g ∈ reserved)

/-- A terminal gate that is not a five-hour rejection rolling while the cache is warm. -/
def terminalBlocks (a : AccountRuntime) (nowMs : Int) (warm : WarmWindow) : Bool :=
  match a.terminalGate with
  | some .rejected => !a.rejectionClearsWhileWarm nowMs warm
  | some _ => true
  | none => false

/-- `account_hard_ok`: the one authority on whether a session's pin may move. -/
def accountHardOk (a : AccountRuntime) (g : GateInputs) (group : Option String) (warm : WarmWindow) :
    Bool :=
  !a.terminalBlocks g.nowMs warm && !a.parkedBlocks g.parked && !a.holdOutlivesCache g.nowMs warm &&
    !a.reservedBlocks group g.reserved

/-- The account's own switch threshold, or the fleet's. -/
def threshold (a : AccountRuntime) (globalThreshold : ℚ) : ℚ :=
  a.switchThreshold.getD globalThreshold

def modelBlocked (a : AccountRuntime) (g : GateInputs) : Bool :=
  g.isFable && a.quota.modelWeeklyExhausted
    (effectiveFableThreshold g.fableWeeklyThreshold (a.threshold g.globalThreshold)) g.now

/-- `hard_ok`: the account-level gates plus what this one request needs. -/
def hardOk (a : AccountRuntime) (g : GateInputs) (group : Option String) (warm : WarmWindow) :
    Bool :=
  a.accountHardOk g group warm && a.terminalGate.isNone && !a.holdClearsWhileWarm g.nowMs warm &&
    !a.modelBlocked g

/-- `control_eligible`: bypasses `disabled` on purpose. -/
def controlEligible (a : AccountRuntime) (nowMs : Int) : Bool :=
  !decide (a.status = .error) && !a.quota.rejected && !a.held nowMs

/-! ## Serving gates -/

def pacedOut (a : AccountRuntime) (pacing : PacingConfig) (nowMs : Int) : Bool :=
  pacing.isActive &&
    ((pacing.effectiveMaxInFlight.any fun cap => decide (cap ≤ a.inFlight)) ||
      pacing.minSpacingMs.any fun gap => decide (saturatingSub nowMs a.lastServedMs < asI64 gap))

def nearThreshold (a : AccountRuntime) (g : GateInputs) : Bool :=
  a.quota.isNear (a.threshold g.globalThreshold) g.now

def carries (a : AccountRuntime) (group : Option String) : Bool :=
  group.all a.inGroup

/-- `eligible`: `group` narrows by membership, `reservedGroup` is the real ask. -/
def eligible (a : AccountRuntime) (g : GateInputs) (respectPacing : Bool)
    (group reservedGroup : Option String) : Bool :=
  decide (a.provider = g.provider) && !(a.disabled || decide (a.status = .error)) &&
    !a.parkedBlocks g.parked && !a.held g.nowMs && !a.nearThreshold g && !a.modelBlocked g &&
    !a.reservedBlocks reservedGroup g.reserved && a.carries group &&
    !(respectPacing && a.pacedOut g.pacing g.nowMs)

section Eligible

variable {a : AccountRuntime} {g : GateInputs} {respectPacing : Bool}
  {group reservedGroup : Option String}

theorem eligible_provider (h : a.eligible g respectPacing group reservedGroup = true) :
    a.provider = g.provider := by
  simp only [eligible, Bool.and_eq_true, decide_eq_true_eq] at h
  tauto

theorem eligible_carries (h : a.eligible g respectPacing group reservedGroup = true) :
    a.carries group = true := by
  simp only [eligible, Bool.and_eq_true] at h
  tauto

/-- Ignoring pacing only widens the gate. -/
theorem eligible_unpaced (h : a.eligible g respectPacing group reservedGroup = true) :
    a.eligible g false group reservedGroup = true := by
  simp only [eligible, Bool.and_eq_true] at h ⊢
  simp only [Bool.false_and, Bool.not_false, and_true]
  tauto

end Eligible

theorem carries_some {a : AccountRuntime} {group : String} :
    a.carries (some group) = true ↔ group ∈ a.groups := by
  simp [carries, inGroup]

theorem held_iff {a : AccountRuntime} {nowMs : Int} :
    a.held nowMs = true ↔ ∃ until_, a.rateLimitedUntilMs = some until_ ∧ nowMs < until_ := by
  simp [held, Option.any_eq_true]

/-- A live hold either outlives the cache or clears while it is warm. -/
theorem held_split {a : AccountRuntime} {nowMs : Int} (warm : WarmWindow)
    (h : a.held nowMs = true) :
    a.holdOutlivesCache nowMs warm = true ∨ a.holdClearsWhileWarm nowMs warm = true := by
  obtain ⟨until_, hu, hlt⟩ := held_iff.mp h
  have hlive : a.holdRemainingMs nowMs = some (until_ - nowMs) := by
    simp [holdRemainingMs, hu, hlt]
  simp only [holdOutlivesCache, holdClearsWhileWarm, hlive, Option.any_some, decide_eq_true_eq]
  omega

end AccountRuntime

end TeamClaude
