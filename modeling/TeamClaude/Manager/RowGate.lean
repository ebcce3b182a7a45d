import TeamClaude.Manager.Pick
import Mathlib.Order.WithBot

/-!
# The gate that holds a row out

Why an account is out of rotation and when it clears, as the status and the exhaustion hint report
it: the latest-clearing of its active gates. Beside it, what that says about eligibility later on
with the account unchanged.
-/

namespace TeamClaude

inductive HoldCause
  | rateLimit
  | refused
  deriving DecidableEq

/-- A live row with what the reported gates read beside selection's fields. -/
structure GatedRow extends AccountRuntime where
  holdCause : HoldCause := .rateLimit
  codexRefusalReset : Option Instant := none
  deriving DecidableEq

inductive RowGate
  | ok
  | terminal (reason : GateReason)
  | parked
  | reserved
  | hold
  | refused
  | fiveHour
  | sevenDay
  | fableWeekly
  | standard
  deriving DecidableEq

/-- A gate with the instant it clears; none where no instant can be promised. -/
abbrev TimedGate := RowGate × Option Instant

/-- `gate_clear_key`: an unknown instant sorts after every known one. -/
def gateClearKey : Option Instant → WithTop Int
  | some t => (t : WithTop Int)
  | none => ⊤

/-- A window at or over its threshold, until its reset. -/
def windowGate (reason : RowGate) (window : Option QuotaWindow) (threshold : ℚ) (now : Instant) :
    List TimedGate :=
  match window with
  | some w => if threshold ≤ w.effective now then [(reason, w.liveReset now)] else []
  | none => []

/-- Over a standard token or request limit that has not refreshed. -/
def standardNear (q : Quota) (threshold : ℚ) (now : Instant) : Bool :=
  !q.standardExpired now && (Quota.limitNear q.tokensLimit q.tokensRemaining threshold ||
    Quota.limitNear q.requestsLimit q.requestsRemaining threshold)

/-- The standard limits, until their refresh. -/
def standardGate (q : Quota) (threshold : ℚ) (now : Instant) : List TimedGate :=
  if standardNear q threshold now then [(.standard, q.standardReset)] else []

namespace GatedRow

def holdReason (a : GatedRow) : RowGate :=
  match a.holdCause with
  | .rateLimit => .hold
  | .refused => .refused

def reservedGate (a : GatedRow) (group : Option String) (reserved : Finset String) :
    List TimedGate :=
  if a.reservedBlocks group reserved then [(.reserved, none)] else []

def holdGate (a : GatedRow) (nowMs : Int) : List TimedGate :=
  match a.rateLimitedUntilMs with
  | some until_ => if nowMs < until_ then [(a.holdReason, msToOdt until_)] else []
  | none => []

def fableGate (a : GatedRow) (g : GateInputs) : List TimedGate :=
  if g.isFable then
    windowGate .fableWeekly a.quota.sevenDayOi
      (effectiveFableThreshold g.fableWeeklyThreshold (a.threshold g.globalThreshold)) g.now
  else []

def activeGates (a : GatedRow) (g : GateInputs) (group : Option String) : List TimedGate :=
  a.reservedGate group g.reserved ++ a.holdGate g.nowMs ++
    windowGate .fiveHour a.quota.fiveHour (a.threshold g.globalThreshold) g.now ++
    windowGate .sevenDay a.quota.sevenDay (a.threshold g.globalThreshold) g.now ++
    a.fableGate g ++ standardGate a.quota (a.threshold g.globalThreshold) g.now

def accountGate (a : GatedRow) (g : GateInputs) (group : Option String) : TimedGate :=
  match a.terminalGate with
  | some reason => (.terminal reason, none)
  | none =>
    if a.parkedBlocks g.parked then (.parked, none)
    else
      (maxByKey (fun gate => gateClearKey gate.2) (a.activeGates g group)).getD (.ok, none)

end GatedRow

/-! ## Clearing -/

/-- The gate has cleared by `t`. -/
def ClearedBy (t : Instant) (gate : TimedGate) : Prop :=
  ∃ at_, gate.2 = some at_ ∧ at_ ≤ t

/-- A whole number of milliseconds that an `OffsetDateTime` can name. -/
def DatedMs (ms : Int) : Prop :=
  minTimestamp ≤ ms / 1000 ∧ ms / 1000 ≤ maxTimestamp

/-- An instant at a whole, nameable millisecond. -/
def OnMs (t : Instant) : Prop :=
  ∃ ms : Int, t = ms * 1000000 ∧ DatedMs ms

theorem ms_to_odt_dated {ms : Int} (h : DatedMs ms) : msToOdt ms = some (ms * 1000000) := by
  have hsecs : ms * 1000000 / 1000000000 = ms / 1000 := by omega
  simp only [msToOdt, fromUnixTimestampNanos, hsecs]
  exact if_pos h

theorem ms_to_odt_some {ms : Int} {t : Instant} (h : msToOdt ms = some t) :
    t = ms * 1000000 ∧ DatedMs ms := by
  have hsecs : ms * 1000000 / 1000000000 = ms / 1000 := by omega
  simp only [msToOdt, fromUnixTimestampNanos, hsecs] at h
  split at h
  · rename_i hd
    cases h
    exact ⟨rfl, hd⟩
  · cases h

section Windows

variable {window : Option QuotaWindow} {threshold : ℚ} {now t : Instant} {reason : RowGate}

/-- A window's gate has cleared exactly when the window is under its threshold again. -/
theorem window_gate_cleared (hpos : 0 < threshold) (hle : now ≤ t) :
    (∀ gate ∈ windowGate reason window threshold now, ClearedBy t gate) ↔
      Quota.windowNear window threshold t = false := by
  cases window with
  | none => simp [windowGate, Quota.windowNear]
  | some w =>
    simp only [windowGate, Quota.windowNear, Option.any_some, decide_eq_false_iff_not, not_le]
    cases hreset : w.reset with
    | none =>
      simp only [QuotaWindow.effective, QuotaWindow.liveReset, hreset]
      split
      · rename_i hnear
        simp [ClearedBy, hnear]
      · rename_i hfar
        simpa using hfar
    | some reset =>
      simp only [QuotaWindow.effective, QuotaWindow.liveReset, hreset]
      by_cases hpast : reset ≤ now
      · have hpast' : reset ≤ t := hpast.trans hle
        simp [hpast, hpast', hpos]
      · have hlive : now < reset := not_le.mp hpast
        rw [if_neg hpast, if_pos hlive]
        by_cases hnear : threshold ≤ w.utilization
        · rw [if_pos hnear]
          by_cases hr : reset ≤ t
          · simp [ClearedBy, hr, hpos]
          · simp [ClearedBy, hr, hnear]
        · rw [if_neg hnear]
          by_cases hr : reset ≤ t
          · simp [hr, hpos]
          · simpa [hr] using hnear

end Windows

section Limits

variable {q : Quota} {threshold : ℚ} {now t : Instant}

theorem standard_gate_cleared (hle : now ≤ t) :
    (∀ gate ∈ standardGate q threshold now, ClearedBy t gate) ↔
      standardNear q threshold t = false := by
  obtain ⟨spent, hspent⟩ : ∃ spent, (Quota.limitNear q.tokensLimit q.tokensRemaining threshold ||
    Quota.limitNear q.requestsLimit q.requestsRemaining threshold) = spent := ⟨_, rfl⟩
  have hnear : ∀ t, standardNear q threshold t = (!q.standardExpired t && spent) := by
    intro t
    rw [standardNear, hspent]
  simp only [standardGate, hnear]
  cases spent with
  | false => simp
  | true =>
    cases hreset : q.standardReset with
    | none => simp [Quota.standardExpired, hreset, ClearedBy]
    | some r =>
      simp only [Quota.standardExpired, hreset, Option.any_some, Bool.and_true]
      by_cases hpast : r ≤ now
      · have hpast' : r ≤ t := hpast.trans hle
        simp [hpast, hpast']
      · simp [hpast, ClearedBy]

end Limits

namespace GatedRow

variable {a : GatedRow} {group : Option String}

theorem reserved_gate_cleared {reserved : Finset String} {t : Instant} :
    (∀ gate ∈ a.reservedGate group reserved, ClearedBy t gate) ↔
      a.reservedBlocks group reserved = false := by
  unfold reservedGate
  cases a.reservedBlocks group reserved <;> simp [ClearedBy]

/-- A hold that no instant can name outlives every instant. -/
theorem hold_gate_cleared {nowMs ms : Int} (hle : nowMs ≤ ms) (hnow : DatedMs nowMs)
    (hms : DatedMs ms) :
    (∀ gate ∈ a.holdGate nowMs, ClearedBy (ms * 1000000) gate) ↔ a.held ms = false := by
  cases huntil : a.rateLimitedUntilMs with
  | none => simp [holdGate, AccountRuntime.held, huntil]
  | some until_ =>
    simp only [holdGate, AccountRuntime.held, huntil, Option.any_some, decide_eq_false_iff_not,
      not_lt]
    by_cases hlive : nowMs < until_
    · rw [if_pos hlive, List.forall_mem_singleton]
      cases hodt : msToOdt until_ with
      | none =>
        have hlate : ¬DatedMs until_ := by
          intro hd
          rw [ms_to_odt_dated hd] at hodt
          cases hodt
        simp only [ClearedBy, reduceCtorEq, false_and, exists_false, false_iff, not_le]
        simp only [DatedMs, minTimestamp, maxTimestamp] at hlate hnow hms
        omega
      | some at_ =>
        obtain ⟨rfl, -⟩ := ms_to_odt_some hodt
        simp only [ClearedBy, Option.some.injEq, exists_eq_left']
        show (until_ * 1000000 : Int) ≤ ms * 1000000 ↔ until_ ≤ ms
        omega
    · rw [if_neg hlive]
      simp only [List.not_mem_nil, false_implies, implies_true, true_iff]
      omega

end GatedRow

/-- The inputs of two calls that differ in their instant alone. -/
def GateInputs.at (g : GateInputs) (ms : Int) : GateInputs :=
  { g with now := ms * 1000000, nowMs := ms }

structure PositiveThresholds (g : GateInputs) (a : AccountRuntime) : Prop where
  row : 0 < a.threshold g.globalThreshold
  fable : ∀ threshold ∈ g.fableWeeklyThreshold, 0 < threshold

theorem PositiveThresholds.effective {g : GateInputs} {a : AccountRuntime}
    (h : PositiveThresholds g a) :
    0 < effectiveFableThreshold g.fableWeeklyThreshold (a.threshold g.globalThreshold) := by
  unfold effectiveFableThreshold
  cases hf : g.fableWeeklyThreshold with
  | none => exact h.row
  | some threshold => exact h.fable threshold hf

namespace GatedRow

variable {a : GatedRow} {g : GateInputs} {group : Option String}

theorem fable_gate_cleared {nowMs ms : Int} (hle : nowMs ≤ ms)
    (hpos : PositiveThresholds g a.toAccountRuntime) :
    (∀ gate ∈ a.fableGate (g.at nowMs), ClearedBy (ms * 1000000) gate) ↔
      a.modelBlocked (g.at ms) = false := by
  unfold fableGate AccountRuntime.modelBlocked
  cases hf : g.isFable with
  | false => simp [GateInputs.at, hf]
  | true =>
    simp only [GateInputs.at, hf, if_true, Bool.true_and]
    have hinstant : (nowMs * 1000000 : Int) ≤ ms * 1000000 := by omega
    exact window_gate_cleared hpos.effective hinstant

/-- A row the standing blocks leave in: not switched off, not parked, in the group asked for. -/
def Open (a : GatedRow) (g : GateInputs) (group : Option String) : Prop :=
  a.provider = g.provider ∧ a.disabled = false ∧ a.status ≠ .error ∧
    a.parkedBlocks g.parked = false ∧ a.carries group = true

theorem near_threshold_eq : a.nearThreshold g =
    (Quota.windowNear a.quota.fiveHour (a.threshold g.globalThreshold) g.now ||
      Quota.windowNear a.quota.sevenDay (a.threshold g.globalThreshold) g.now ||
      standardNear a.quota (a.threshold g.globalThreshold) g.now) := rfl

/-- An open row passes later on exactly when all its active gates have cleared. -/
theorem eligible_iff_cleared {nowMs ms : Int} (hle : nowMs ≤ ms) (hnow : DatedMs nowMs)
    (hms : DatedMs ms) (hpos : PositiveThresholds g a.toAccountRuntime) :
    a.eligible (g.at ms) false group group = true ↔
      a.Open g group ∧
        ∀ gate ∈ a.activeGates (g.at nowMs) group, ClearedBy (ms * 1000000) gate := by
  have hinstant : (nowMs * 1000000 : Int) ≤ ms * 1000000 := by omega
  simp only [activeGates, List.forall_mem_append]
  rw [fable_gate_cleared hle hpos]
  show _ ↔ _ ∧ (((((∀ gate ∈ a.reservedGate group g.reserved, _) ∧
    ∀ gate ∈ a.holdGate nowMs, _) ∧
    ∀ gate ∈ windowGate .fiveHour a.quota.fiveHour (a.threshold g.globalThreshold)
      (nowMs * 1000000), _) ∧
    ∀ gate ∈ windowGate .sevenDay a.quota.sevenDay (a.threshold g.globalThreshold)
      (nowMs * 1000000), _) ∧ _) ∧
    ∀ gate ∈ standardGate a.quota (a.threshold g.globalThreshold) (nowMs * 1000000), _
  rw [reserved_gate_cleared, hold_gate_cleared hle hnow hms, window_gate_cleared hpos.row hinstant,
    window_gate_cleared hpos.row hinstant, standard_gate_cleared hinstant]
  simp only [AccountRuntime.eligible, near_threshold_eq, Open, Bool.and_eq_true, Bool.not_eq_true',
    Bool.or_eq_false_iff, decide_eq_true_eq, decide_eq_false_iff_not, Bool.false_and, and_true]
  simp only [GateInputs.at]
  constructor
  · rintro ⟨⟨⟨⟨⟨⟨⟨hprovider, hon, hstatus⟩, hparked⟩, hheld⟩, ⟨hfive, hseven⟩, hstandard⟩, hmodel⟩,
      hreserved⟩, hcarries⟩
    exact ⟨⟨hprovider, hon, hstatus, hparked, hcarries⟩,
      ⟨⟨⟨⟨hreserved, hheld⟩, hfive⟩, hseven⟩, hmodel⟩, hstandard⟩
  · rintro ⟨⟨hprovider, hon, hstatus, hparked, hcarries⟩,
      ⟨⟨⟨⟨hreserved, hheld⟩, hfive⟩, hseven⟩, hmodel⟩, hstandard⟩
    exact ⟨⟨⟨⟨⟨⟨⟨hprovider, hon, hstatus⟩, hparked⟩, hheld⟩, ⟨hfive, hseven⟩, hstandard⟩, hmodel⟩,
      hreserved⟩, hcarries⟩

theorem cleared_iff_latest {gates : List TimedGate} {t : Instant} :
    (∀ gate ∈ gates, ClearedBy t gate) ↔
      match maxByKey (fun gate : TimedGate => gateClearKey gate.2) gates with
      | none => True
      | some gate => ClearedBy t gate := by
  cases hmax : maxByKey (fun gate : TimedGate => gateClearKey gate.2) gates with
  | none =>
    rw [max_by_key_none.mp hmax]
    simp
  | some latest =>
    obtain ⟨hmem, hlatest⟩ := max_by_key_spec hmax
    constructor
    · intro hall
      exact hall latest hmem
    · rintro ⟨at_, hat, hle⟩ gate hgate
      have hkey := hlatest gate hgate
      rw [hat] at hkey
      cases hg : gate.2 with
      | none =>
        rw [hg] at hkey
        exact absurd hkey (not_le.mpr (WithTop.coe_lt_top at_))
      | some b =>
        rw [hg] at hkey
        exact ⟨b, hg, (WithTop.coe_le_coe.mp hkey).trans hle⟩

/-- A row that is out now, but not by upstream's verdict, is in again exactly when the gate it
reports has cleared. -/
theorem eligible_iff_gate_cleared {nowMs ms : Int} (hle : nowMs ≤ ms) (hnow : DatedMs nowMs)
    (hms : DatedMs ms) (hpos : PositiveThresholds g a.toAccountRuntime)
    (hverdict : a.quota.rejected = false)
    (hout : a.eligible (g.at nowMs) false group group = false) :
    a.eligible (g.at ms) false group group = true ↔
      a.provider = g.provider ∧ a.carries group = true ∧
        ClearedBy (ms * 1000000) (a.accountGate (g.at nowMs) group) := by
  have hnever : ∀ t reason, ¬ClearedBy t (reason, none) := by
    rintro t reason ⟨at_, hat, -⟩
    cases hat
  have hnot : ¬(a.Open g group ∧
      ∀ gate ∈ a.activeGates (g.at nowMs) group, ClearedBy (nowMs * 1000000) gate) := by
    rw [← eligible_iff_cleared le_rfl hnow hnow hpos, hout]
    exact Bool.false_ne_true
  rw [eligible_iff_cleared hle hnow hms hpos, cleared_iff_latest]
  rw [cleared_iff_latest] at hnot
  unfold accountGate
  cases hterminal : a.terminalGate with
  | some reason =>
    have hclosed : ¬a.Open g group := by
      rintro ⟨-, hon, hstatus, -, -⟩
      simp [AccountRuntime.terminalGate, hon, hstatus, hverdict] at hterminal
    simp only [hnever, and_false, iff_false]
    exact fun hopen => hclosed hopen.1
  | none =>
    have hstanding : a.disabled = false ∧ a.status ≠ .error := by
      simp only [AccountRuntime.terminalGate] at hterminal
      split at hterminal
      · cases hterminal
      · rename_i hon
        split at hterminal
        · cases hterminal
        · rename_i hstatus
          exact ⟨by simpa using hon, hstatus⟩
    obtain ⟨hon, hstatus⟩ := hstanding
    show _ ↔ _ ∧ _ ∧ ClearedBy _ (if a.parkedBlocks g.parked = true then _ else _)
    cases hparked : a.parkedBlocks g.parked with
    | true =>
      have hclosed : ¬a.Open g group := by
        rintro ⟨-, -, -, hfree, -⟩
        rw [hparked] at hfree
        cases hfree
      simp only [if_true, hnever, and_false, iff_false]
      exact fun hopen => hclosed hopen.1
    | false =>
      have hopen : a.Open g group ↔ a.provider = g.provider ∧ a.carries group = true := by
        simp [Open, hon, hstatus, hparked]
      rw [hopen] at hnot ⊢
      cases hmax : maxByKey (fun gate : TimedGate => gateClearKey gate.2)
          (a.activeGates (g.at nowMs) group) with
      | none =>
        rw [hmax] at hnot
        exact iff_of_false hnot fun h => hnot ⟨⟨h.1, h.2.1⟩, trivial⟩
      | some latest => exact and_assoc

/-- Every reset a row stores is at a whole millisecond. -/
structure Timed (a : GatedRow) : Prop where
  fiveHour : ∀ w ∈ a.quota.fiveHour, ∀ t ∈ w.reset, OnMs t
  sevenDay : ∀ w ∈ a.quota.sevenDay, ∀ t ∈ w.reset, OnMs t
  sevenDayOi : ∀ w ∈ a.quota.sevenDayOi, ∀ t ∈ w.reset, OnMs t
  standardReset : ∀ t ∈ a.quota.standardReset, OnMs t

theorem window_gate_on_ms {reason : RowGate} {window : Option QuotaWindow} {threshold : ℚ}
    {now : Instant} (h : ∀ w ∈ window, ∀ t ∈ w.reset, OnMs t) :
    ∀ gate ∈ windowGate reason window threshold now, ∀ t ∈ gate.2, OnMs t := by
  cases window with
  | none => simp [windowGate]
  | some w =>
    simp only [windowGate]
    split
    · rw [List.forall_mem_singleton]
      intro t ht
      refine h w rfl t ?_
      simp only [QuotaWindow.liveReset] at ht
      split at ht
      · rename_i hreset
        split at ht
        · rw [hreset]
          exact ht
        · cases ht
      · cases ht
    · simp

theorem active_gates_on_ms (h : a.Timed) :
    ∀ gate ∈ a.activeGates g group, ∀ t ∈ gate.2, OnMs t := by
  simp only [activeGates, List.forall_mem_append]
  refine ⟨⟨⟨⟨⟨?_, ?_⟩, window_gate_on_ms h.fiveHour⟩, window_gate_on_ms h.sevenDay⟩, ?_⟩, ?_⟩
  · unfold reservedGate
    split <;> simp
  · unfold holdGate
    split
    · split
      · rw [List.forall_mem_singleton]
        intro t ht
        obtain ⟨rfl, hd⟩ := ms_to_odt_some ht
        exact ⟨_, rfl, hd⟩
      · simp
    · simp
  · unfold fableGate
    split
    · exact window_gate_on_ms h.sevenDayOi
    · simp
  · unfold standardGate
    split
    · rw [List.forall_mem_singleton]
      exact h.standardReset
    · simp

theorem account_gate_on_ms (h : a.Timed) : ∀ t ∈ (a.accountGate g group).2, OnMs t := by
  unfold accountGate
  split
  · simp
  · split
    · simp
    · cases hmax : maxByKey (fun gate : TimedGate => gateClearKey gate.2)
          (a.activeGates g group) with
      | none => simp
      | some latest => exact active_gates_on_ms h latest (max_by_key_spec hmax).1

end GatedRow

/-! ## The promise of a gate -/

section Promise

variable {window : Option QuotaWindow} {threshold : ℚ} {now : Instant} {reason : RowGate}

theorem window_gate_nil :
    windowGate reason window threshold now = [] ↔ Quota.windowNear window threshold now = false := by
  cases window with
  | none => simp [windowGate, Quota.windowNear]
  | some w => simp [windowGate, Quota.windowNear]

theorem window_gate_reason : ∀ gate ∈ windowGate reason window threshold now, gate.1 = reason := by
  cases window with
  | none => simp [windowGate]
  | some w =>
    simp only [windowGate]
    split <;> simp

theorem standard_gate_nil {q : Quota} :
    standardGate q threshold now = [] ↔ standardNear q threshold now = false := by
  simp [standardGate]

end Promise

namespace GatedRow

variable {a : GatedRow} {g : GateInputs} {group : Option String}

theorem hold_gate_nil {nowMs : Int} : a.holdGate nowMs = [] ↔ a.held nowMs = false := by
  unfold holdGate AccountRuntime.held
  cases a.rateLimitedUntilMs <;> simp

theorem fable_gate_nil : a.fableGate g = [] ↔ a.modelBlocked g = false := by
  unfold fableGate AccountRuntime.modelBlocked
  cases g.isFable with
  | false => simp
  | true =>
    simp only [if_true, Bool.true_and]
    exact window_gate_nil

theorem active_gates_reason : ∀ gate ∈ a.activeGates g group, gate.1 ≠ .ok := by
  simp only [activeGates, List.forall_mem_append]
  refine ⟨⟨⟨⟨⟨?_, ?_⟩, ?_⟩, ?_⟩, ?_⟩, ?_⟩
  · unfold reservedGate
    split <;> simp
  · unfold holdGate holdReason
    split
    · split
      · cases a.holdCause <;> simp
      · simp
    · simp
  · exact fun gate hg => by simp [window_gate_reason gate hg]
  · exact fun gate hg => by simp [window_gate_reason gate hg]
  · unfold fableGate
    split
    · exact fun gate hg => by simp [window_gate_reason gate hg]
    · simp
  · unfold standardGate
    split <;> simp

/-- The gates of the view are the blocks of the routing gate, one for one. -/
theorem active_gates_nil : a.activeGates g group = [] ↔
    a.reservedBlocks group g.reserved = false ∧ a.held g.nowMs = false ∧
      a.nearThreshold g = false ∧ a.modelBlocked g = false := by
  have hreserved : a.reservedGate group g.reserved = [] ↔
      a.reservedBlocks group g.reserved = false := by
    simp [reservedGate]
  simp only [activeGates, List.append_eq_nil_iff, hreserved, hold_gate_nil, window_gate_nil,
    fable_gate_nil, standard_gate_nil, near_threshold_eq, Bool.or_eq_false_iff]
  constructor
  · rintro ⟨⟨⟨⟨⟨hr, hh⟩, h5⟩, h7⟩, hf⟩, hs⟩
    exact ⟨hr, hh, ⟨⟨h5, h7⟩, hs⟩, hf⟩
  · rintro ⟨hr, hh, ⟨⟨h5, h7⟩, hs⟩, hf⟩
    exact ⟨⟨⟨⟨⟨hr, hh⟩, h5⟩, h7⟩, hf⟩, hs⟩

theorem terminal_gate_none : a.terminalGate = none ↔
    a.disabled = false ∧ a.status ≠ .error ∧ a.quota.rejected = false := by
  unfold AccountRuntime.terminalGate
  cases a.disabled with
  | true => simp
  | false =>
    by_cases hs : a.status = .error
    · simp [hs]
    · simp [hs]

theorem account_gate_ok : (a.accountGate g group).1 = .ok ↔
    a.terminalGate = none ∧ a.parkedBlocks g.parked = false ∧ a.activeGates g group = [] := by
  unfold accountGate
  cases hterminal : a.terminalGate with
  | some reason => simp
  | none =>
    cases hparked : a.parkedBlocks g.parked with
    | true => simp
    | false =>
      simp only [Bool.false_eq_true, if_false, true_and]
      cases hmax : maxByKey (fun gate : TimedGate => gateClearKey gate.2)
          (a.activeGates g group) with
      | none => simp [max_by_key_none.mp hmax]
      | some latest =>
        have hmem := (max_by_key_spec hmax).1
        refine iff_of_false (active_gates_reason latest hmem) fun hnil => ?_
        rw [hnil] at hmem
        cases hmem

/-- The inputs of a request to the row's own provider. -/
def asked (a : GatedRow) (g : GateInputs) : GateInputs :=
  { g with provider := a.provider }

theorem account_gate_asked : a.accountGate (a.asked g) group = a.accountGate g group := rfl

/-- The view reports a row as in exactly when the routing gate passes it and upstream has not
rejected it. -/
theorem account_gate_ok_iff : (a.accountGate g none).1 = .ok ↔
    a.eligible (a.asked g) false none none = true ∧ a.quota.rejected = false := by
  rw [← account_gate_asked, account_gate_ok, terminal_gate_none, active_gates_nil]
  simp only [AccountRuntime.eligible, AccountRuntime.carries, asked, Bool.and_eq_true,
    Bool.not_eq_true', Bool.or_eq_false_iff, decide_eq_true_eq, decide_eq_false_iff_not,
    Bool.false_and, and_true, true_and, Option.all_none]
  constructor
  · rintro ⟨⟨hon, hs, hv⟩, hp, hr, hh, hn, hm⟩
    exact ⟨⟨⟨⟨⟨⟨⟨hon, hs⟩, hp⟩, hh⟩, hn⟩, hm⟩, hr⟩, hv⟩
  · rintro ⟨⟨⟨⟨⟨⟨⟨hon, hs⟩, hp⟩, hh⟩, hn⟩, hm⟩, hr⟩, hv⟩
    exact ⟨⟨hon, hs, hv⟩, hp, hr, hh, hn, hm⟩

end GatedRow

/-- A whole millisecond that an `OffsetDateTime` can name. -/
def Millis := { ms : Int // DatedMs ms }

def GateInputs.atMillis (g : GateInputs) (ms : Millis) : GateInputs :=
  g.at ms.1

namespace GatedRow

variable {a : GatedRow} {g : GateInputs}

/-- A gate that names an instant is not upstream's verdict. -/
theorem unrejected_of_timed {group : Option String} {reason : RowGate} {t : Instant}
    (h : a.accountGate g group = (reason, some t)) : a.quota.rejected = false := by
  unfold accountGate at h
  cases hterminal : a.terminalGate with
  | some verdict =>
    rw [hterminal] at h
    cases h
  | none => exact (terminal_gate_none.mp hterminal).2.2

theorem untimed_of_ok {group : Option String} (h : (a.accountGate g group).1 = .ok) :
    (a.accountGate g group).2 = none := by
  obtain ⟨hterminal, hparked, hnil⟩ := account_gate_ok.mp h
  have hmax : maxByKey (fun gate : TimedGate => gateClearKey gate.2) (a.activeGates g group) =
      none := by
    rw [hnil]
    rfl
  unfold accountGate
  rw [hterminal, hmax, hparked]
  rfl

/-- The view and the routing gate agree on who is in, and an instant the view names is the first at
which the routing gate passes the row, with the row unchanged. -/
theorem account_gate_exact (hpos : PositiveThresholds g a.toAccountRuntime) :
    (∀ now nowMs, (a.accountGate { g with now, nowMs } none).1 = .ok ↔
      a.eligible (a.asked { g with now, nowMs }) false none none = true ∧
        a.quota.rejected = false) ∧
    ∀ (now : Millis) (reason : RowGate) (t : Instant),
      a.accountGate (g.atMillis now) none = (reason, some t) →
      now.1 * 1000000 < t ∧
      ∀ ms : Millis, now.1 ≤ ms.1 →
        (a.eligible (a.asked (g.atMillis ms)) false none none = true ↔ t ≤ ms.1 * 1000000) := by
  refine ⟨fun now nowMs => account_gate_ok_iff, fun now reason t hgate => ?_⟩
  have hverdict := unrejected_of_timed hgate
  have hout : a.eligible ((a.asked g).at now.1) false none none = false := by
    by_contra hin
    have hpass : a.eligible (a.asked (g.atMillis now)) false none none = true :=
      Bool.eq_true_of_not_eq_false hin
    have hnone := untimed_of_ok (account_gate_ok_iff.mpr ⟨hpass, hverdict⟩)
    rw [hgate] at hnone
    cases hnone
  have hclears : ∀ ms : Millis, now.1 ≤ ms.1 →
      (a.eligible (a.asked (g.atMillis ms)) false none none = true ↔ t ≤ ms.1 * 1000000) := by
    intro ms hle
    show a.eligible ((a.asked g).at ms.1) false none none = true ↔ _
    rw [eligible_iff_gate_cleared hle now.2 ms.2 (g := a.asked g) ⟨hpos.row, hpos.fable⟩ hverdict
      hout]
    show _ ∧ _ ∧ ClearedBy _ (a.accountGate (g.atMillis now) none) ↔ _
    rw [hgate]
    simp [ClearedBy, asked, AccountRuntime.carries]
  refine ⟨?_, hclears⟩
  by_contra hpast
  have hin := (hclears now le_rfl).mpr (not_lt.mp hpast)
  have hout' : a.eligible (a.asked (g.atMillis now)) false none none = false := hout
  rw [hin] at hout'
  cases hout'

/-- A held row whose five-hour window is full until a later instant. -/
def fullRow : GatedRow where
  name := "a"
  provider := .anthropic
  rateLimitedUntilMs := some 60000
  quota := { fiveHour := some ⟨1, some 100000000000⟩ }

/-- The gates of an ordinary request at the epoch. -/
def fullRowInputs : GateInputs where
  globalThreshold := 98 / 100
  fableWeeklyThreshold := none
  pacing := {}
  reserved := ∅
  parked := ∅
  now := 0
  nowMs := 0
  isFable := false
  provider := .anthropic

/-- The window outlasts the hold, and the row is out to its last millisecond and in at its reset. -/
theorem full_row_clears :
    fullRow.eligible (fullRow.asked (fullRowInputs.at 99999)) false none none = false ∧
    fullRow.eligible (fullRow.asked (fullRowInputs.at 100000)) false none none = true := by
  have hpos : PositiveThresholds fullRowInputs fullRow.toAccountRuntime :=
    ⟨by decide +kernel, by simp [fullRowInputs]⟩
  have hdated : ∀ ms : Int, 0 ≤ ms → ms ≤ 100000 → DatedMs ms := by
    intro ms h0 h1
    simp only [DatedMs, minTimestamp, maxTimestamp]
    omega
  have hgate : fullRow.accountGate (fullRowInputs.at 0) none =
      (.fiveHour, some 100000000000) := by decide +kernel
  obtain ⟨-, hclears⟩ := (account_gate_exact hpos).2 ⟨0, hdated 0 (by omega) (by omega)⟩ .fiveHour
    100000000000 hgate
  have hbefore := hclears ⟨99999, hdated _ (by omega) (by omega)⟩ (by show (0 : Int) ≤ 99999; omega)
  have hfree := hclears ⟨100000, hdated _ (by omega) (by omega)⟩ (by show (0 : Int) ≤ 100000; omega)
  constructor
  · rw [← Bool.not_eq_true]
    intro hin
    have hearly : (100000000000 : Int) ≤ 99999 * 1000000 := hbefore.mp hin
    omega
  · refine hfree.mpr ?_
    show (100000000000 : Int) ≤ 100000 * 1000000
    omega

end GatedRow

end TeamClaude
