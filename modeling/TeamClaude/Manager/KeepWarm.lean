import TeamClaude.Lib.Meter
import TeamClaude.Manager.Gates

/-!
# Keep-warm

A warm that is answered without the five-hour window has learnt nothing. A row allows three of
those and then one for each cooldown. Both kinds of run share one flag; a sweep lists its targets
behind the flag, a scheduled warm looks before it takes the flag.
-/

namespace TeamClaude

open Lib

def warmAttemptsWithoutEvidenceLimit : Nat := 3

def warmEvidenceRetryCooldownMs : Int := 3600000

def probeFailuresBeforeWarmingUnprobed : Nat := 3

def cooldownElapsed (deadlineMs : Option Int) (nowMs : Int) : Bool :=
  deadlineMs.any fun untilMs => decide (untilMs ≤ nowMs)

/-- An account row, as far as keep-warm reads or writes it. -/
structure WarmRow where
  account : AccountRuntime
  oauth : Bool
  refreshToken : Option String
  accessToken : Option String
  quotaKnown : Bool := false
  consecutiveProbeFailures : Nat := 0
  consecutiveWarmsWithoutEvidence : Nat := 0
  warmEvidenceRetryAfterMs : Option Int := none

namespace WarmRow

/-- The last filter of `warm_targets`: fewer misses than the limit, or the cooldown is over. -/
def mayRepeat (row : WarmRow) (nowMs : Int) : Bool :=
  decide (row.consecutiveWarmsWithoutEvidence < warmAttemptsWithoutEvidenceLimit) ||
    cooldownElapsed row.warmEvidenceRetryAfterMs nowMs

/-- The filters of `warm_targets`. -/
def warmTarget (row : WarmRow) (nowMs : Int) (globalThreshold : ℚ) (awaitingFirstProbe : Bool) :
    Bool :=
  let now : Instant := nowMs * 1000000
  decide (row.account.provider = .anthropic) &&
    (row.oauth && row.refreshToken.isSome && !row.account.disabled &&
      decide (row.account.status ≠ .error) && decide (row.account.status ≠ .throttled) &&
      (!awaitingFirstProbe || row.quotaKnown ||
        decide (probeFailuresBeforeWarmingUnprobed ≤ row.consecutiveProbeFailures)) &&
      (row.account.quota.fiveHour.bind fun w => w.liveReset now).isNone &&
      !row.account.quota.isNear (row.account.threshold globalThreshold) now &&
      row.mayRepeat nowMs)

/-- `rearm_warm_evidence_cooldown_if_excluded` -/
def rearm (row : WarmRow) (nowMs : Int) : WarmRow :=
  if warmAttemptsWithoutEvidenceLimit ≤ row.consecutiveWarmsWithoutEvidence then
    { row with warmEvidenceRetryAfterMs := some (nowMs + warmEvidenceRetryCooldownMs) }
  else row

def recordWarmWithoutEvidence (row : WarmRow) (nowMs : Int) : WarmRow :=
  rearm
    { row with
      consecutiveWarmsWithoutEvidence := min (row.consecutiveWarmsWithoutEvidence + 1) u32Max }
    nowMs

def recordWarmFailure (row : WarmRow) (nowMs : Int) : WarmRow :=
  row.rearm nowMs

/-- `update_quota`, and any other change of the row: the misses and the cooldown go only when a
response carried the five-hour window. -/
def updated (row new : WarmRow) (readFiveHour : Bool) : WarmRow :=
  { new with
    quotaKnown := new.quotaKnown || readFiveHour
    consecutiveWarmsWithoutEvidence :=
      if readFiveHour then 0 else row.consecutiveWarmsWithoutEvidence
    warmEvidenceRetryAfterMs := if readFiveHour then none else row.warmEvidenceRetryAfterMs }

end WarmRow

inductive WarmOutcome
  | ok (quota : Quota) (readFiveHour : Bool)
  | err

/-- The outcome, recorded in the row as `warm_account` does. -/
def WarmRow.answered (row : WarmRow) (nowMs : Int) : WarmOutcome → WarmRow
  | .ok quota readFiveHour =>
    let row' := row.updated { row with account := { row.account with quota } } readFiveHour
    if readFiveHour then row' else row'.recordWarmWithoutEvidence nowMs
  | .err => row.recordWarmFailure nowMs

/-- Where one run of `warm_one` or `warm_all` stands. -/
inductive WarmRun
  | idle
  | checked (idx : Nat)
  | taken
  | holding (todo : List Nat)
  | sent (idx : Nat) (todo : List Nat)
  deriving DecidableEq

/-- The rows, the flag and the runs. -/
structure KeepWarm where
  nowMs : Int
  globalThreshold : ℚ
  probeIntervalSeconds : Nat
  rows : List WarmRow
  inFlight : Bool
  runs : Nat → WarmRun

/-- One step of a run, of the clock or of the rest of the program. -/
inductive WarmAct
  | tick (ms : Nat)
  | cadence (probeIntervalSeconds : Nat)
  | add (row : WarmRow)
  | update (idx : Nat) (row : WarmRow) (readFiveHour : Bool)
  | check (run idx : Nat)
  | take (run : Nat)
  | sweep (run : Nat)
  | list (run : Nat)
  | send (run : Nat)
  | answer (run : Nat) (outcome : WarmOutcome)
  | release (run : Nat)

namespace KeepWarm

def warmTargets (s : KeepWarm) : List Nat :=
  (s.rows.zipIdx.filter fun x =>
    x.1.warmTarget s.nowMs s.globalThreshold (decide (0 < s.probeIntervalSeconds))).map Prod.snd

def accessToken (s : KeepWarm) (idx : Nat) : Option String :=
  s.rows[idx]?.bind WarmRow.accessToken

def setRun (s : KeepWarm) (run : Nat) (stage : WarmRun) : KeepWarm :=
  { s with runs := Function.update s.runs run stage }

/-- The target check of `warm_one`. -/
def check (s : KeepWarm) (run idx : Nat) : KeepWarm :=
  match s.runs run with
  | .idle => if idx ∈ s.warmTargets then s.setRun run (.checked idx) else s
  | _ => s

/-- `warm_one` swaps the flag, and returns when it was set. -/
def take (s : KeepWarm) (run : Nat) : KeepWarm :=
  match s.runs run with
  | .checked idx =>
    if s.inFlight then s.setRun run .idle
    else { s.setRun run (.holding [idx]) with inFlight := true }
  | _ => s

/-- `warm_all` swaps the flag, and returns when it was set. -/
def sweep (s : KeepWarm) (run : Nat) : KeepWarm :=
  match s.runs run with
  | .idle => if s.inFlight then s else { s.setRun run .taken with inFlight := true }
  | _ => s

/-- `warm_all` lists its targets. -/
def list (s : KeepWarm) (run : Nat) : KeepWarm :=
  match s.runs run with
  | .taken => s.setRun run (.holding s.warmTargets)
  | _ => s

/-- The first half of `warm_account`: an account without a token is passed over. -/
def send (s : KeepWarm) (run : Nat) : KeepWarm :=
  match s.runs run with
  | .holding (idx :: todo) =>
    match s.accessToken idx with
    | none => s.setRun run (.holding todo)
    | some _ => s.setRun run (.sent idx todo)
  | _ => s

/-- The second half of `warm_account`. -/
def answer (s : KeepWarm) (run : Nat) (outcome : WarmOutcome) : KeepWarm :=
  match s.runs run with
  | .sent idx todo =>
    { s.setRun run (.holding todo) with
      rows := s.rows.modify idx fun row => row.answered s.nowMs outcome }
  | _ => s

/-- `WarmInFlightGuard` drops, at the end of the run or before. -/
def release (s : KeepWarm) (run : Nat) : KeepWarm :=
  match s.runs run with
  | .holding _ => { s.setRun run .idle with inFlight := false }
  | _ => s

def step (s : KeepWarm) : WarmAct → KeepWarm
  | .tick ms => { s with nowMs := s.nowMs + ms }
  | .cadence probeIntervalSeconds => { s with probeIntervalSeconds }
  | .add row =>
    { s with
      rows := s.rows ++ [{ row with
        consecutiveWarmsWithoutEvidence := 0
        warmEvidenceRetryAfterMs := none }] }
  | .update idx new readFiveHour =>
    { s with rows := s.rows.modify idx fun row => row.updated new readFiveHour }
  | .check run idx => s.check run idx
  | .take run => s.take run
  | .sweep run => s.sweep run
  | .list run => s.list run
  | .send run => s.send run
  | .answer run outcome => s.answer run outcome
  | .release run => s.release run

def sends (idx : Nat) (s : KeepWarm) : WarmAct → Option Int
  | .send run =>
    match s.runs run with
    | .holding (next :: _) => if next = idx then (s.accessToken idx).map fun _ => s.nowMs else none
    | _ => none
  | _ => none

/-! ## What keep-warm may spend -/

/-- No response latches a five-hour window for the account, and its warms are answered 200. -/
def Quiet (idx : Nat) (s : KeepWarm) : WarmAct → Prop
  | .update other _ readFiveHour => other = idx → readFiveHour = false
  | .answer run outcome =>
    (∃ todo, s.runs run = .sent idx todo) → ∃ quota, outcome = .ok quota false
  | _ => True

/-- The warms sent for the account over the stretch, in any span of it. -/
def SpendBounded (start : KeepWarm) (idx : Nat) (acts : List WarmAct) : Prop :=
  ∀ fromMs : Int, ∀ spanMs : Nat,
    ((observed step (sends idx) start acts).countP
      (fun t => decide (fromMs ≤ t ∧ t ≤ fromMs + spanMs)) : Int) ≤
      warmAttemptsWithoutEvidenceLimit + 1 + spanMs / warmEvidenceRetryCooldownMs

/-- The account's row allows another warm that may learn nothing. -/
def mayRepeat (s : KeepWarm) (idx : Nat) : Bool :=
  s.rows[idx]?.any fun row => row.mayRepeat s.nowMs

/-- A scheduled warm that gets the flag finds the account with a warm left to spend, as when it
looked. -/
def StillTarget (s : KeepWarm) : WarmAct → Prop
  | .take run => ∀ idx, s.runs run = .checked idx → s.inFlight = false → s.mayRepeat idx = true
  | _ => True

/-! ## Rows -/

variable {s start : KeepWarm} {act : WarmAct} {idx run : Nat} {before acts : List WarmAct}

theorem mem_warm_targets (h : idx ∈ s.warmTargets) : s.mayRepeat idx = true := by
  simp only [warmTargets, List.mem_map, List.mem_filter, Prod.exists, exists_eq_right] at h
  obtain ⟨row, hmem, htarget⟩ := h
  have hrow : s.rows[idx]? = some row := by
    simpa [List.mem_zipIdx_iff_getElem?] using hmem
  simp only [WarmRow.warmTarget, Bool.and_eq_true] at htarget
  rw [mayRepeat, hrow]
  exact htarget.2.2

theorem nodup_warm_targets (s : KeepWarm) : s.warmTargets.Nodup := by
  have hidx : (s.rows.zipIdx.map Prod.snd).Nodup := by
    rw [List.zipIdx_map_snd]
    exact List.nodup_range'
  exact hidx.sublist (List.filter_sublist.map Prod.snd)

end KeepWarm

namespace WarmRow

variable {row new : WarmRow} {nowMs : Int}

theorem may_repeat_updated (readFiveHour : Bool) (h : row.mayRepeat nowMs = true) :
    (row.updated new readFiveHour).mayRepeat nowMs = true := by
  cases readFiveHour with
  | true => rfl
  | false => exact h

theorem may_repeat_later {laterMs : Int} (hlater : nowMs ≤ laterMs) (h : row.mayRepeat nowMs = true) :
    row.mayRepeat laterMs = true := by
  simp only [mayRepeat, Bool.or_eq_true, cooldownElapsed, Option.any_eq_true, decide_eq_true_eq] at h ⊢
  rcases h with hfew | ⟨untilMs, hsome, huntil⟩
  · exact .inl hfew
  · exact .inr ⟨untilMs, hsome, huntil.trans hlater⟩

end WarmRow

namespace WarmRun

def Flagged : WarmRun → Prop
  | .taken | .holding _ | .sent _ _ => True
  | _ => False

/-- The accounts the run has listed and not done with. -/
def listed : WarmRun → List Nat
  | .holding todo => todo
  | .sent idx todo => idx :: todo
  | _ => []

/-- The accounts the run will still send for. -/
def ahead : WarmRun → List Nat
  | .holding todo => todo
  | .sent _ todo => todo
  | _ => []

theorem ahead_sublist (stage : WarmRun) : stage.ahead.Sublist stage.listed := by
  cases stage with
  | sent idx todo => exact List.sublist_cons_self idx todo
  | _ => exact List.Sublist.refl _

theorem flagged_of_listed {stage : WarmRun} {idx : Nat} (h : idx ∈ stage.listed) :
    stage.Flagged := by
  cases stage with
  | idle => cases h
  | checked other => cases h
  | _ => trivial

end WarmRun

namespace KeepWarm

variable {s start : KeepWarm} {act : WarmAct} {idx run : Nat} {stage : WarmRun}
  {before acts : List WarmAct}

theorem may_repeat_modify {other : Nat} {f : WarmRow → WarmRow} (h : s.mayRepeat idx = true)
    (hf : ∀ row : WarmRow, other = idx → row.mayRepeat s.nowMs = true →
      (f row).mayRepeat s.nowMs = true) :
    ({ s with rows := s.rows.modify other f } : KeepWarm).mayRepeat idx = true := by
  obtain ⟨row, hrow, hmay⟩ := Option.any_eq_true _ _ |>.mp h
  simp only [mayRepeat, List.getElem?_modify, hrow]
  split
  · rename_i hother
    exact hf row hother hmay
  · exact hmay

/-! ## One flag -/

/-- One run at a time has the flag, lists each account once and finds it with a warm to spend. -/
structure Held (s : KeepWarm) : Prop where
  sole : ∀ {run other}, (s.runs run).Flagged → (s.runs other).Flagged → run = other
  flag : ∀ {run}, (s.runs run).Flagged → s.inFlight = true
  once : ∀ run, (s.runs run).listed.Nodup
  due : ∀ {run idx}, idx ∈ (s.runs run).ahead → s.mayRepeat idx = true
  known : ∀ {run idx todo}, s.runs run = .sent idx todo → idx < s.rows.length

theorem held_idle (h : ∀ run, s.runs run = .idle) : Held s where
  sole := fun {run other} hrun => by
    rw [h run] at hrun
    exact hrun.elim
  flag := fun {run} hrun => by
    rw [h run] at hrun
    exact hrun.elim
  once run := by
    rw [h run]
    exact List.nodup_nil
  due := fun {run idx} hidx => by
    rw [h run] at hidx
    cases hidx
  known := fun {run idx todo} hrun => by
    rw [h run] at hrun
    cases hrun

@[simp] theorem runs_set (s : KeepWarm) (run : Nat) (stage : WarmRun) :
    (s.setRun run stage).runs = Function.update s.runs run stage := rfl

@[simp] theorem rows_set (s : KeepWarm) (run : Nat) (stage : WarmRun) :
    (s.setRun run stage).rows = s.rows := rfl

@[simp] theorem now_set (s : KeepWarm) (run : Nat) (stage : WarmRun) :
    (s.setRun run stage).nowMs = s.nowMs := rfl

@[simp] theorem in_flight_set (s : KeepWarm) (run : Nat) (stage : WarmRun) :
    (s.setRun run stage).inFlight = s.inFlight := rfl

theorem Held.set (h : Held s) (hstage : stage.Flagged → (s.runs run).Flagged)
    (honce : stage.listed.Nodup) (hdue : ∀ idx ∈ stage.ahead, s.mayRepeat idx = true)
    (hknown : ∀ idx todo, stage = .sent idx todo → idx < s.rows.length) :
    Held (s.setRun run stage) := by
  have hback : ∀ {other}, ((s.setRun run stage).runs other).Flagged → (s.runs other).Flagged := by
    intro other hother
    rw [runs_set] at hother
    rcases eq_or_ne other run with rfl | hne
    · rw [Function.update_self] at hother
      exact hstage hother
    · rwa [Function.update_of_ne hne] at hother
  refine ⟨fun hrun hother => h.sole (hback hrun) (hback hother), fun hrun => h.flag (hback hrun),
    fun other => ?_, fun {other idx} hidx => ?_, fun {other idx todo} hsent => ?_⟩
  · rw [runs_set]
    rcases eq_or_ne other run with rfl | hne
    · rwa [Function.update_self]
    · rw [Function.update_of_ne hne]
      exact h.once other
  · rw [runs_set] at hidx
    rcases eq_or_ne other run with rfl | hne
    · rw [Function.update_self] at hidx
      exact hdue idx hidx
    · rw [Function.update_of_ne hne] at hidx
      exact h.due hidx
  · rw [runs_set] at hsent
    rcases eq_or_ne other run with rfl | hne
    · rw [Function.update_self] at hsent
      exact hknown idx todo hsent
    · rw [Function.update_of_ne hne] at hsent
      exact h.known hsent

/-- A run that takes the free flag. -/
theorem Held.takes (h : Held s) (hfree : s.inFlight = false) (honce : stage.listed.Nodup)
    (hdue : ∀ idx ∈ stage.ahead, s.mayRepeat idx = true) (hsent : ∀ idx todo, stage ≠ .sent idx todo) :
    Held { s.setRun run stage with inFlight := true } := by
  have hnone : ∀ other, ¬ (s.runs other).Flagged := by
    intro other hother
    have hflag := h.flag hother
    rw [hfree] at hflag
    cases hflag
  have honly : ∀ {other}, (Function.update s.runs run stage other).Flagged → other = run := by
    intro other hother
    by_contra hne
    rw [Function.update_of_ne hne] at hother
    exact hnone other hother
  refine ⟨fun hrun hother => (honly hrun).trans (honly hother).symm, fun _ => rfl,
    fun other => ?_, fun {other idx} hidx => ?_, fun {other idx todo} hrun => ?_⟩
  · rcases eq_or_ne other run with rfl | hne
    · rwa [runs_set, Function.update_self]
    · rw [runs_set, Function.update_of_ne hne]
      exact h.once other
  · rcases eq_or_ne other run with rfl | hne
    · rw [runs_set, Function.update_self] at hidx
      exact hdue idx hidx
    · rw [runs_set, Function.update_of_ne hne] at hidx
      exact h.due hidx
  · rcases eq_or_ne other run with rfl | hne
    · rw [runs_set, Function.update_self] at hrun
      exact absurd hrun (hsent idx todo)
    · rw [runs_set, Function.update_of_ne hne] at hrun
      exact h.known hrun

theorem Held.releases (h : Held s) (hrun : (s.runs run).Flagged) :
    Held { s.setRun run .idle with inFlight := false } := by
  have hnone : ∀ other, ¬ (Function.update s.runs run .idle other).Flagged := by
    intro other hother
    rcases eq_or_ne other run with rfl | hne
    · rw [Function.update_self] at hother
      exact hother
    · rw [Function.update_of_ne hne] at hother
      exact hne (h.sole hother hrun)
  have hset : Held (s.setRun run .idle) :=
    h.set False.elim List.nodup_nil (by simp [WarmRun.ahead]) (by simp)
  exact ⟨hset.sole, fun {other} hother => absurd hother (hnone other), hset.once, hset.due,
    hset.known⟩

/-- A change of the rows or the clock that leaves the listed accounts a warm to spend. -/
theorem Held.rows {s' : KeepWarm} (h : Held s) (hruns : s'.runs = s.runs)
    (hflag : s'.inFlight = s.inFlight) (hlen : s.rows.length ≤ s'.rows.length)
    (hdue : ∀ run, ∀ idx ∈ (s.runs run).ahead, s.mayRepeat idx = true → s'.mayRepeat idx = true) :
    Held s' := by
  refine ⟨?_, ?_, ?_, ?_, ?_⟩
  · rw [hruns]
    exact h.sole
  · rw [hruns, hflag]
    exact h.flag
  · rw [hruns]
    exact h.once
  · rw [hruns]
    exact fun {run idx} hidx => hdue run idx hidx (h.due hidx)
  · rw [hruns]
    exact fun {run idx todo} hsent => (h.known hsent).trans_le hlen

theorem may_repeat_later {laterMs : Nat} (h : s.mayRepeat idx = true) :
    ({ s with nowMs := s.nowMs + laterMs } : KeepWarm).mayRepeat idx = true := by
  obtain ⟨row, hrow, hmay⟩ := Option.any_eq_true _ _ |>.mp h
  rw [mayRepeat, hrow]
  exact WarmRow.may_repeat_later (Int.le_add_of_nonneg_right (Int.natCast_nonneg laterMs)) hmay

theorem may_repeat_add {row : WarmRow} (h : s.mayRepeat idx = true) :
    ({ s with rows := s.rows ++ [row] } : KeepWarm).mayRepeat idx = true := by
  obtain ⟨old, hrow, hmay⟩ := Option.any_eq_true _ _ |>.mp h
  have hidx : idx < s.rows.length := (List.getElem?_eq_some_iff.mp hrow).1
  rw [mayRepeat, List.getElem?_append_left hidx, hrow]
  exact hmay

theorem Held.check (h : Held s) (run idx : Nat) : Held (s.check run idx) := by
  unfold KeepWarm.check
  split
  · split
    · exact h.set False.elim List.nodup_nil (by simp [WarmRun.ahead]) (by simp)
    · exact h
  · exact h

theorem Held.take (h : Held s) (hstill : StillTarget s (.take run)) : Held (s.take run) := by
  unfold KeepWarm.take
  split
  · rename_i idx hrun
    split
    · exact h.set False.elim List.nodup_nil (by simp [WarmRun.ahead]) (by simp)
    · rename_i hflag
      have hfree : s.inFlight = false := by simpa using hflag
      refine h.takes hfree (List.nodup_singleton idx) (fun other hother => ?_) (by simp)
      rw [List.mem_singleton.mp hother]
      exact hstill idx hrun hfree
  · exact h

theorem Held.sweep (h : Held s) (run : Nat) : Held (s.sweep run) := by
  unfold KeepWarm.sweep
  split
  · split
    · exact h
    · rename_i hflag
      exact h.takes (by simpa using hflag) List.nodup_nil (by simp [WarmRun.ahead]) (by simp)
  · exact h

theorem Held.list (h : Held s) (run : Nat) : Held (s.list run) := by
  unfold KeepWarm.list
  split
  · rename_i hrun
    refine h.set (fun _ => ?_) s.nodup_warm_targets (fun idx => mem_warm_targets) (by simp)
    rw [hrun]
    trivial
  · exact h

theorem Held.send (h : Held s) (run : Nat) : Held (s.send run) := by
  unfold KeepWarm.send
  split
  · rename_i idx todo hrun
    have honce : (idx :: todo).Nodup := by simpa [hrun, WarmRun.listed] using h.once run
    have hdue : ∀ other ∈ todo, s.mayRepeat other = true := fun other hother =>
      h.due (show other ∈ (s.runs run).ahead by rw [hrun]; exact List.mem_cons_of_mem idx hother)
    have hflagged : (s.runs run).Flagged := by
      rw [hrun]
      trivial
    split
    · exact h.set (fun _ => hflagged) honce.of_cons hdue (by simp)
    · rename_i token htoken
      refine h.set (fun _ => hflagged) honce hdue fun idx' todo' hsent => ?_
      obtain ⟨rfl, -⟩ := WarmRun.sent.inj hsent
      obtain ⟨row, hrow, -⟩ := Option.bind_eq_some_iff.mp htoken
      exact (List.getElem?_eq_some_iff.mp hrow).1
  · exact h

theorem Held.answer (h : Held s) (run : Nat) (outcome : WarmOutcome) :
    Held (s.answer run outcome) := by
  unfold KeepWarm.answer
  split
  · rename_i idx todo hrun
    have honce : (idx :: todo).Nodup := by simpa [hrun, WarmRun.listed] using h.once run
    have hdue : ∀ other ∈ todo, s.mayRepeat other = true := fun other hother =>
      h.due (show other ∈ (s.runs run).ahead by rw [hrun]; exact hother)
    have hflagged : (s.runs run).Flagged := by
      rw [hrun]
      trivial
    have hset : Held (s.setRun run (.holding todo)) :=
      h.set (fun _ => hflagged) honce.of_cons hdue (by simp)
    refine hset.rows rfl rfl (by simp) fun other i hi hmay => ?_
    -- the run that was answered is the only one with a list, and the account is off it
    have hother : other = run := by
      by_contra hne
      rw [runs_set, Function.update_of_ne hne] at hi
      exact hne (h.sole (WarmRun.flagged_of_listed ((WarmRun.ahead_sublist _).mem hi)) hflagged)
    subst hother
    rw [runs_set, Function.update_self] at hi
    refine may_repeat_modify (s := s.setRun other (.holding todo)) hmay fun row hidx => ?_
    subst hidx
    exact absurd hi (List.nodup_cons.mp honce).1
  · exact h

theorem Held.release (h : Held s) (run : Nat) : Held (s.release run) := by
  unfold KeepWarm.release
  split
  · rename_i todo hrun
    exact h.releases (by rw [hrun]; trivial)
  · exact h

theorem Held.step (h : Held s) (hstill : StillTarget s act) : Held (s.step act) := by
  cases act with
  | tick ms => exact h.rows rfl rfl le_rfl fun run idx _ hmay => may_repeat_later hmay
  | cadence probeIntervalSeconds => exact h.rows rfl rfl le_rfl fun run idx _ hmay => hmay
  | add row => exact h.rows rfl rfl (by simp [KeepWarm.step]) fun run idx _ hmay => may_repeat_add hmay
  | update other new readFiveHour =>
    refine h.rows rfl rfl (by simp [KeepWarm.step]) fun run idx _ hmay => ?_
    exact may_repeat_modify hmay fun row _ => WarmRow.may_repeat_updated readFiveHour
  | check run idx => exact h.check run idx
  | take run => exact h.take hstill
  | sweep run => exact h.sweep run
  | list run => exact h.list run
  | send run => exact h.send run
  | answer run outcome => exact h.answer run outcome
  | release run => exact h.release run

/-! ## The meter -/

def Pending (s : KeepWarm) (idx : Nat) : Prop :=
  ∃ run todo, s.runs run = .sent idx todo

def misses (s : KeepWarm) (idx : Nat) : Nat :=
  (s.rows[idx]?.map WarmRow.consecutiveWarmsWithoutEvidence).getD 0

def retryAfterMs (s : KeepWarm) (idx : Nat) : Option Int :=
  s.rows[idx]?.bind WarmRow.warmEvidenceRetryAfterMs

open Classical in
/-- The warms that may be answered without evidence before the cooldown; one that is out counts as
answered. -/
noncomputable def left (s : KeepWarm) (idx : Nat) : Nat :=
  warmAttemptsWithoutEvidenceLimit - (s.misses idx + if s.Pending idx then 1 else 0)

open Classical in
/-- When the cooldown is over; one that is out would be answered now. -/
noncomputable def readyMs (s : KeepWarm) (idx : Nat) : Option Int :=
  if s.Pending idx then some (s.nowMs + warmEvidenceRetryCooldownMs) else s.retryAfterMs idx

/-- A step that touches neither the account's counters nor whether a warm of it is out. -/
structure Spared (s s' : KeepWarm) (idx : Nat) : Prop where
  misses : s'.misses idx = s.misses idx
  retry : s'.retryAfterMs idx = s.retryAfterMs idx
  pending : s'.Pending idx ↔ s.Pending idx
  later : s.nowMs ≤ s'.nowMs

theorem Spared.tighter {s' : KeepWarm} (h : Spared s s' idx) :
    Meter.Tighter (s'.left idx) (s'.readyMs idx) (s.left idx) (s.readyMs idx) := by
  have hlater := h.later
  unfold left readyMs
  rw [h.misses, h.retry]
  by_cases hpending : s.Pending idx
  · rw [if_pos hpending, if_pos (h.pending.mpr hpending), if_pos hpending,
      if_pos (h.pending.mpr hpending)]
    refine ⟨le_rfl, .inr fun r hr => ⟨_, rfl, ?_⟩⟩
    obtain rfl := Option.mem_some_iff.mp hr
    omega
  · have hafter : ¬ s'.Pending idx := fun hp => hpending (h.pending.mp hp)
    rw [if_neg hpending, if_neg hafter, if_neg hpending, if_neg hafter]
    exact ⟨le_rfl, .inr fun r hr => ⟨r, hr, le_rfl⟩⟩

theorem pending_set (hwas : ∀ todo, s.runs run ≠ .sent idx todo)
    (hnow : ∀ todo, stage ≠ .sent idx todo) : (s.setRun run stage).Pending idx ↔ s.Pending idx := by
  unfold Pending
  rw [runs_set]
  constructor
  · rintro ⟨other, todo, hother⟩
    rcases eq_or_ne other run with rfl | hne
    · rw [Function.update_self] at hother
      exact absurd hother (hnow todo)
    · rw [Function.update_of_ne hne] at hother
      exact ⟨other, todo, hother⟩
  · rintro ⟨other, todo, hother⟩
    have hne : other ≠ run := by
      rintro rfl
      exact hwas todo hother
    exact ⟨other, todo, by rw [Function.update_of_ne hne, hother]⟩

/-- Nothing is out for the account while the run with the flag has sent nothing for it. -/
theorem Held.not_pending (h : Held s) (hflagged : (s.runs run).Flagged)
    (hsent : ∀ todo, s.runs run ≠ .sent idx todo) : ¬ s.Pending idx := by
  rintro ⟨other, todo, hother⟩
  have hsame : other = run := h.sole (by rw [hother]; trivial) hflagged
  subst hsame
  exact hsent todo hother

theorem Spared.rfl (s : KeepWarm) (idx : Nat) : Spared s s idx :=
  ⟨Eq.refl _, Eq.refl _, Iff.rfl, le_rfl⟩

theorem spared_set (hwas : ∀ todo, s.runs run ≠ .sent idx todo)
    (hnow : ∀ todo, stage ≠ .sent idx todo) : Spared s (s.setRun run stage) idx :=
  ⟨rfl, rfl, pending_set hwas hnow, le_rfl⟩

theorem spared_flag {flag : Bool} {s' : KeepWarm} (h : Spared s s' idx) :
    Spared s { s' with inFlight := flag } idx :=
  ⟨h.misses, h.retry, h.pending, h.later⟩

/-- A change of one row that spares the counters of the account. -/
theorem spared_modify {other : Nat} {f : WarmRow → WarmRow}
    (hf : ∀ row : WarmRow, other = idx →
      (f row).consecutiveWarmsWithoutEvidence = row.consecutiveWarmsWithoutEvidence ∧
        (f row).warmEvidenceRetryAfterMs = row.warmEvidenceRetryAfterMs) :
    Spared s { s with rows := s.rows.modify other f } idx := by
  refine ⟨?_, ?_, Iff.rfl, le_rfl⟩
  · rw [misses, misses, List.getElem?_modify]
    cases s.rows[idx]? with
    | none => rfl
    | some row =>
      simp only [Option.map_eq_map, Option.map_some, Option.getD_some]
      split
      · rename_i hother
        exact (hf row hother).1
      · rfl
  · rw [retryAfterMs, retryAfterMs, List.getElem?_modify]
    cases s.rows[idx]? with
    | none => rfl
    | some row =>
      simp only [Option.map_eq_map, Option.map_some, Option.bind_some]
      split
      · rename_i hother
        exact (hf row hother).2
      · rfl

theorem spared_add {row : WarmRow} (hnone : row.consecutiveWarmsWithoutEvidence = 0)
    (hretry : row.warmEvidenceRetryAfterMs = none) :
    Spared s { s with rows := s.rows ++ [row] } idx := by
  refine ⟨?_, ?_, Iff.rfl, le_rfl⟩
  · rw [misses, misses]
    rcases lt_trichotomy idx s.rows.length with hlt | heq | hgt
    · rw [List.getElem?_append_left hlt]
    · subst heq
      simp [hnone]
    · simp [List.getElem?_append_right hgt.le, Nat.sub_ne_zero_of_lt hgt, hgt.le]
  · rw [retryAfterMs, retryAfterMs]
    rcases lt_trichotomy idx s.rows.length with hlt | heq | hgt
    · rw [List.getElem?_append_left hlt]
    · subst heq
      simp [hretry]
    · simp [List.getElem?_append_right hgt.le, Nat.sub_ne_zero_of_lt hgt, hgt.le]

theorem spared_send (h : sends idx s (.send run) = none) : Spared s (s.send run) idx := by
  unfold KeepWarm.send
  split
  · rename_i other todo hrun
    have hwas : ∀ todo, s.runs run ≠ .sent idx todo := by simp [hrun]
    split
    · exact spared_set hwas (by simp)
    · rename_i token htoken
      refine spared_set hwas fun todo' hsent => ?_
      obtain ⟨rfl, -⟩ := WarmRun.sent.inj hsent
      simp [sends, hrun, htoken] at h
  · exact .rfl s idx

/-- A miss counts up to the limit as one warm less, and from there on starts a cooldown. -/
theorem answered_misses (row : WarmRow) (nowMs : Int) (quota : Quota) :
    warmAttemptsWithoutEvidenceLimit -
        (row.answered nowMs (.ok quota false)).consecutiveWarmsWithoutEvidence =
      warmAttemptsWithoutEvidenceLimit - (row.consecutiveWarmsWithoutEvidence + 1) ∧
    (warmAttemptsWithoutEvidenceLimit ≤ row.consecutiveWarmsWithoutEvidence + 1 →
      (row.answered nowMs (.ok quota false)).warmEvidenceRetryAfterMs =
        some (nowMs + warmEvidenceRetryCooldownMs)) := by
  simp only [WarmRow.answered, WarmRow.updated, Bool.false_eq_true, if_false,
    WarmRow.recordWarmWithoutEvidence, WarmRow.rearm]
  unfold warmAttemptsWithoutEvidenceLimit u32Max
  split
  · refine ⟨?_, fun _ => rfl⟩
    show 3 - min (row.consecutiveWarmsWithoutEvidence + 1) (2 ^ 32 - 1) = _
    omega
  · rename_i hfew
    refine ⟨?_, fun hmany => absurd ?_ hfew⟩
    · show 3 - min (row.consecutiveWarmsWithoutEvidence + 1) (2 ^ 32 - 1) = _
      omega
    · show 3 ≤ min (row.consecutiveWarmsWithoutEvidence + 1) (2 ^ 32 - 1)
      omega

/-- The state after a warm of the account was answered without evidence. -/
theorem answered_tighter (h : Held s) {todo : List Nat} (hrun : s.runs run = .sent idx todo)
    (quota : Quota) :
    Meter.Tighter ((s.answer run (.ok quota false)).left idx)
      ((s.answer run (.ok quota false)).readyMs idx) (s.left idx) (s.readyMs idx) := by
  have hafter : ¬ (s.answer run (.ok quota false)).Pending idx := by
    rintro ⟨other, todo', hother⟩
    simp only [KeepWarm.answer, hrun, runs_set] at hother
    rcases eq_or_ne other run with rfl | hne
    · rw [Function.update_self] at hother
      cases hother
    · rw [Function.update_of_ne hne] at hother
      exact hne (h.sole (by rw [hother]; trivial) (by rw [hrun]; trivial))
  have hpending : s.Pending idx := ⟨run, todo, hrun⟩
  obtain ⟨row, hrow⟩ : ∃ row, s.rows[idx]? = some row :=
    ⟨_, List.getElem?_eq_getElem (h.known hrun)⟩
  obtain ⟨hmisses, hretry⟩ := answered_misses row s.nowMs quota
  have hrow' : (s.answer run (.ok quota false)).rows[idx]? =
      some (row.answered s.nowMs (.ok quota false)) := by
    simp [KeepWarm.answer, hrun, hrow]
  unfold left readyMs
  rw [if_neg hafter, if_pos hpending, if_neg hafter, if_pos hpending, misses, misses, retryAfterMs,
    hrow, hrow']
  simp only [Option.map_some, Option.getD_some, Option.bind_some, Nat.add_zero]
  refine ⟨hmisses.le, ?_⟩
  by_cases hmany : warmAttemptsWithoutEvidenceLimit ≤ row.consecutiveWarmsWithoutEvidence + 1
  · rw [hretry hmany]
    exact .inr fun r hr => ⟨r, hr, le_rfl⟩
  · exact .inl (by omega)

theorem idle_tighter (h : Held s) (hquiet : Quiet idx s act) (hnone : sends idx s act = none) :
    Meter.Tighter ((s.step act).left idx) ((s.step act).readyMs idx) (s.left idx) (s.readyMs idx) := by
  cases act with
  | tick ms =>
    have hspared : Spared s (s.step (.tick ms)) idx :=
      ⟨rfl, rfl, Iff.rfl, Int.le_add_of_nonneg_right (Int.natCast_nonneg ms)⟩
    exact hspared.tighter
  | cadence probeIntervalSeconds =>
    have hspared : Spared s (s.step (.cadence probeIntervalSeconds)) idx :=
      ⟨rfl, rfl, Iff.rfl, le_rfl⟩
    exact hspared.tighter
  | add row => exact (spared_add rfl rfl).tighter
  | update other new readFiveHour =>
    refine (spared_modify fun row hother => ?_).tighter
    rw [hquiet hother]
    exact ⟨rfl, rfl⟩
  | check run other =>
    refine Spared.tighter ?_
    rw [step, KeepWarm.check]
    split
    · rename_i hrun
      split
      · exact spared_set (by simp [hrun]) (by simp)
      · exact .rfl s idx
    · exact .rfl s idx
  | take run =>
    refine Spared.tighter ?_
    rw [step, KeepWarm.take]
    split
    · rename_i other hrun
      split
      · exact spared_set (by simp [hrun]) (by simp)
      · exact spared_flag (spared_set (by simp [hrun]) (by simp))
    · exact .rfl s idx
  | sweep run =>
    refine Spared.tighter ?_
    rw [step, KeepWarm.sweep]
    split
    · rename_i hrun
      split
      · exact .rfl s idx
      · exact spared_flag (spared_set (by simp [hrun]) (by simp))
    · exact .rfl s idx
  | list run =>
    refine Spared.tighter ?_
    rw [step, KeepWarm.list]
    split
    · rename_i hrun
      exact spared_set (by simp [hrun]) (by simp)
    · exact .rfl s idx
  | send run => exact (spared_send hnone).tighter
  | answer run outcome =>
    by_cases hsent : ∃ todo, s.runs run = .sent idx todo
    · obtain ⟨quota, rfl⟩ := hquiet hsent
      obtain ⟨todo, hrun⟩ := hsent
      exact answered_tighter h hrun quota
    · refine Spared.tighter ?_
      rw [step, KeepWarm.answer]
      split
      · rename_i other todo hrun
        have hother : other ≠ idx := by
          rintro rfl
          exact hsent ⟨todo, hrun⟩
        have hset : Spared s (s.setRun run (.holding todo)) idx :=
          spared_set (fun todo' hrun' => hsent ⟨todo', hrun'⟩) (by simp)
        have hrows := spared_modify (s := s) (f := fun row => row.answered s.nowMs outcome)
          fun row heq => absurd heq hother
        exact ⟨hrows.misses, hrows.retry, hset.pending, le_rfl⟩
      · exact .rfl s idx
  | release run =>
    refine Spared.tighter ?_
    rw [step, KeepWarm.release]
    split
    · rename_i todo hrun
      exact spared_flag (spared_set (by simp [hrun]) (by simp))
    · exact .rfl s idx

/-- A send for the account: its run has the flag, and the account has a token. -/
theorem sends_eq_some {t : Int} (h : sends idx s act = some t) :
    ∃ run todo token, act = .send run ∧ s.runs run = .holding (idx :: todo) ∧
      s.accessToken idx = some token ∧ t = s.nowMs := by
  cases act with
  | send run =>
    simp only [sends] at h
    split at h
    · rename_i next todo hrun
      split at h
      · rename_i hnext
        subst hnext
        obtain ⟨token, htoken, ht⟩ := Option.map_eq_some_iff.mp h
        exact ⟨run, todo, token, rfl, hrun, htoken, ht.symm⟩
      · cases h
    · cases h
  | _ => cases h

theorem send_opens (h : Held s) {t : Int} (hsend : sends idx s act = some t) :
    Meter.Opens (s.left idx) (s.readyMs idx) t := by
  obtain ⟨run, todo, token, rfl, hrun, -, rfl⟩ := sends_eq_some hsend
  have hmay : s.mayRepeat idx = true :=
    h.due (show idx ∈ (s.runs run).ahead by rw [hrun]; exact List.mem_cons_self)
  have hpending : ¬ s.Pending idx := h.not_pending (by rw [hrun]; trivial) (by simp [hrun])
  obtain ⟨row, hrow, hrepeat⟩ := Option.any_eq_true _ _ |>.mp hmay
  unfold left readyMs
  rw [if_neg hpending, if_neg hpending, misses, retryAfterMs, hrow]
  simp only [WarmRow.mayRepeat, cooldownElapsed, Bool.or_eq_true, decide_eq_true_eq,
    Option.any_eq_true] at hrepeat
  rcases hrepeat with hfew | ⟨untilMs, huntil, helapsed⟩
  · exact .inl (Nat.sub_pos_of_lt hfew)
  · exact .inr ⟨untilMs, huntil, helapsed⟩

theorem send_spends (h : Held s) {t : Int} (hsend : sends idx s act = some t) :
    Meter.Tighter ((s.step act).left idx) ((s.step act).readyMs idx) (s.left idx - 1)
      (some (t + warmEvidenceRetryCooldownMs)) := by
  obtain ⟨run, todo, token, rfl, hrun, htoken, rfl⟩ := sends_eq_some hsend
  have hpending : ¬ s.Pending idx := h.not_pending (by rw [hrun]; trivial) (by simp [hrun])
  have hstep : s.step (.send run) = s.setRun run (.sent idx todo) := by
    rw [step, KeepWarm.send]
    simp only [hrun, htoken]
  have hafter : (s.setRun run (.sent idx todo)).Pending idx :=
    ⟨run, todo, by rw [runs_set, Function.update_self]⟩
  have hmisses : (s.setRun run (.sent idx todo)).misses idx = s.misses idx := rfl
  rw [hstep]
  unfold left readyMs
  rw [if_pos hafter, if_pos hafter, if_neg hpending, hmisses, now_set]
  exact ⟨by omega, .inr fun r hr => ⟨r, hr, le_rfl⟩⟩

/-- Keep-warm shows a meter for each account, while its warms learn nothing. -/
theorem metered (idx : Nat) :
    Meter.Metered step (sends idx) warmEvidenceRetryCooldownMs (fun s => s.left idx)
      (fun s => s.readyMs idx) Held (fun s act => StillTarget s act ∧ Quiet idx s act) where
  keep hheld hact := hheld.step hact.1
  idle hheld hact hnone := idle_tighter hheld hact.2 hnone
  opens hheld _ hsend := send_opens hheld hsend
  spends hheld _ hsend := send_spends hheld hsend

/-! ## Runs -/

theorem held_run (hidle : ∀ run, start.runs run = .idle)
    (hstill : EachStep step StillTarget start acts) : Held (exec step start acts) := by
  have hkeep : ∀ s act, Held s → StillTarget s act → Held (step s act) := fun s act => Held.step
  exact exec_invariant hkeep (held_idle hidle) hstill acts List.prefix_rfl

theorem allowed_bounded {free : Nat} {ready : Option Int} {ts : List Int}
    (hfree : free ≤ warmAttemptsWithoutEvidenceLimit)
    (h : Meter.Allowed warmEvidenceRetryCooldownMs free ready ts) (fromMs : Int) (spanMs : Nat) :
    (ts.countP (fun t => decide (fromMs ≤ t ∧ t ≤ fromMs + spanMs)) : Int) ≤
      warmAttemptsWithoutEvidenceLimit + 1 + spanMs / warmEvidenceRetryCooldownMs := by
  set count := ts.countP (fun t => decide (fromMs ≤ t ∧ t ≤ fromMs + spanMs)) with hcount
  have hcooldown : 0 < warmEvidenceRetryCooldownMs := by decide
  have hnonneg : 0 ≤ (spanMs : Int) / warmEvidenceRetryCooldownMs :=
    Int.ediv_nonneg (Int.natCast_nonneg spanMs) hcooldown.le
  by_cases hfew : count ≤ free
  · omega
  · obtain ⟨n, hn⟩ := Nat.exists_eq_add_of_lt (Nat.lt_of_not_le hfew)
    have hfit : free + (n + 1) ≤ count := by omega
    have hspan := h.in_span hcooldown.le hfit
    rw [add_sub_cancel_left, nsmul_eq_mul] at hspan
    have hquot : (n : Int) ≤ spanMs / warmEvidenceRetryCooldownMs :=
      (Int.le_ediv_iff_mul_le hcooldown).mpr hspan
    omega

/-- In every run whose scheduled warms still find their target, keep-warm that learns nothing stops
spending. -/
theorem warm_spend (hidle : ∀ run, start.runs run = .idle)
    (hstill : EachStep step StillTarget start (before ++ acts))
    (hquiet : EachStep step (Quiet idx) (exec step start before) acts) :
    SpendBounded (exec step start before) idx acts := by
  obtain ⟨hbefore, hacts⟩ := each_step_append.mp hstill
  have hheld := held_run hidle hbefore
  have hboth : EachStep step (fun s act => StillTarget s act ∧ Quiet idx s act)
      (exec step start before) acts := fun pre act hpre => ⟨hacts pre act hpre, hquiet pre act hpre⟩
  have hallowed := (metered idx).allowed hheld hboth
  exact allowed_bounded (Nat.sub_le _ _) hallowed

/-- One account whose quota is known and whose window is cold. -/
def cold : KeepWarm where
  nowMs := 0
  globalThreshold := 1
  probeIntervalSeconds := 300
  rows :=
    [{ account := { name := "cold", provider := .anthropic }
       oauth := true
       refreshToken := some "refresh"
       accessToken := some "access"
       quotaKnown := true }]
  inFlight := false
  runs := fun _ => .idle

/-- The rest of a run that has the flag: one warm, answered without the window. -/
def misses200 (run : Nat) : List WarmAct :=
  [.send run, .answer run (.ok {} false), .release run]

/-- A scheduled warm and then a sweep. -/
def inTurn : List WarmAct :=
  [.check 0 0, .take 0] ++ misses200 0 ++ [.sweep 1, .list 1] ++ misses200 1

theorem still_target_of (hrun : s.runs run = .checked idx) (hmay : s.mayRepeat idx = true) :
    StillTarget s (.take run) := by
  intro other hother _
  rw [hrun] at hother
  obtain rfl := WarmRun.checked.inj hother
  exact hmay

theorem quiet_of_answers
    (h : ∀ act ∈ acts,
      (∀ run outcome, act = .answer run outcome → ∃ quota, outcome = .ok quota false) ∧
        ∀ other row readFiveHour, act ≠ .update other row readFiveHour) :
    EachStep step (Quiet idx) start acts := by
  intro pre act hpre
  have hact := h act (hpre.subset (by simp))
  cases act with
  | update other row readFiveHour => exact absurd rfl (hact.2 other row readFiveHour)
  | answer run outcome => exact fun _ => hact.1 run outcome rfl
  | _ => trivial

theorem warm_spend_in_turn : SpendBounded (exec step cold []) 0 inTurn := by
  apply warm_spend (fun _ => rfl)
  · simp only [inTurn, misses200, List.nil_append, List.cons_append, each_step_cons]
    refine ⟨trivial, ?_, trivial, trivial, trivial, trivial, trivial, trivial, trivial, trivial,
      each_step_nil⟩
    have hchecked : (cold.step (.check 0 0)).runs 0 = .checked 0 := by decide +kernel
    exact still_target_of hchecked (by decide +kernel)
  · apply quiet_of_answers
    simp [inTurn, misses200]

def sweepOnce (run : Nat) : List WarmAct :=
  [.sweep run, .list run] ++ misses200 run

/-- Three sweeps while a scheduled warm is between its look and the flag, and one more an hour
later while the next one is. -/
def overtaken : List WarmAct :=
  .check 0 0 :: sweepOnce 1 ++ sweepOnce 1 ++ sweepOnce 1 ++ .take 0 :: misses200 0 ++
    [.tick 3600000, .check 0 0] ++ sweepOnce 1 ++ .take 0 :: misses200 0

/-- The scheduled warms that were overtaken are sent all the same: six in the hour. -/
theorem overtaken_spends :
    (∀ run, cold.runs run = .idle) ∧ EachStep step (Quiet 0) cold overtaken ∧
      ¬ SpendBounded cold 0 overtaken := by
  refine ⟨fun _ => rfl, ?_, fun h => ?_⟩
  · apply quiet_of_answers
    simp [overtaken, sweepOnce, misses200]
  · have hhour := h 0 3600000
    revert hhour
    decide +kernel

end KeepWarm

end TeamClaude
