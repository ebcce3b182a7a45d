import TeamClaude.Lib.Exec
import TeamClaude.Lib.Retain
import TeamClaude.Lib.Trailing
import TeamClaude.Machine
import Mathlib.Data.List.AList

/-!
# The probe schedule

Each account has an instant at which it is due, drawn anew when it fires and when it comes back into
the eligible set. On a capped schedule the instant is put off by a history of fires, which is kept
when the account is forgotten.
-/

namespace TeamClaude

open Lib Lib.Trailing

def jitterPercent : UInt64 := 30
def capWindowMs : Int := 3600000
def nearLimitCadenceDivisor : UInt64 := 2

inductive ProbeUrgency
  | routine
  | nearLimit
  deriving DecidableEq

/-! ## The draws -/

/-- The state of the generator. -/
structure Rng where
  state : UInt64

def mix64 (z : UInt64) : UInt64 :=
  let z := (z ^^^ (z >>> 30)) * 0xBF58476D1CE4E5B9
  let z := (z ^^^ (z >>> 27)) * 0x94D049BB133111EB
  z ^^^ (z >>> 31)

def Rng.nextU64 (rng : Rng) : UInt64 × Rng :=
  let state := rng.state + 0x9E3779B97F4A7C15
  (mix64 state, ⟨state⟩)

/-- `u64::saturating_mul` -/
def satMul (a b : UInt64) : UInt64 :=
  if a.toNat * b.toNat < 18446744073709551616 then a * b else 18446744073709551615

/-- `u64::saturating_add` -/
def satAdd (a b : UInt64) : UInt64 :=
  if a.toNat + b.toNat < 18446744073709551616 then a + b else 18446744073709551615

/-- `u64::saturating_sub` -/
def satSub (a b : UInt64) : UInt64 :=
  if b ≤ a then a - b else 0

def jitteredIntervalSecs (cadenceSecs draw : UInt64) : UInt64 :=
  let cadence := max cadenceSecs 1
  let spread := satMul cadence jitterPercent / 100
  let low := satSub cadence spread
  let span := satAdd (satMul spread 2) 1
  max (low + draw % span) 1

def initialOffsetSecs (cadenceSecs draw : UInt64) : UInt64 :=
  draw % (max cadenceSecs 1 + 1)

def probeIntervalSecs (cadenceSecs : UInt64) (urgency : ProbeUrgency) (draw : UInt64) : UInt64 :=
  let centre :=
    match urgency with
    | .routine => cadenceSecs
    | .nearLimit => cadenceSecs / nearLimitCadenceDivisor
  jitteredIntervalSecs centre draw

/-- `1000 * secs as i64` -/
def secsToMs (secs : UInt64) : Int :=
  (1000 * secs.toInt64).toInt

/-! ## The schedule -/

structure FleetSchedule where
  dueMs : AList fun _ : Nat => Int := ∅
  cap : Option Nat := none
  firedMs : AList fun _ : Nat => List Int := ∅

namespace FleetSchedule

def capped (cap : Nat) : FleetSchedule :=
  { cap := some cap }

def fired (s : FleetSchedule) (idx : Nat) : List Int :=
  (s.firedMs.lookup idx).getD []

/-- The earliest instant from `wantMs` on at which the account may fire within the cap. -/
def capClamp (s : FleetSchedule) (idx : Nat) (wantMs : Int) : Int :=
  match s.cap with
  | none => wantMs
  | some cap =>
    match s.firedMs.lookup idx with
    | none => wantMs
    | some fired =>
      match fromLast cap fired with
      | some oldestCounted => max wantMs (oldestCounted + capWindowMs)
      | none => wantMs

/-- A fire, and the fires that have left the window dropped. -/
def recordFire (s : FleetSchedule) (idx : Nat) (nowMs : Int) : FleetSchedule :=
  match s.cap with
  | none => s
  | some _ =>
    { s with
      firedMs := s.firedMs.insert idx
        ((s.fired idx ++ [nowMs]).dropWhile fun t => decide (t ≤ nowMs - capWindowMs)) }

variable {R : Type*} (next : R → UInt64 × R)

/-- One account of the loop in `sync`. -/
def syncOne (nowMs : Int) (cadenceSecs : UInt64) (acc : FleetSchedule × R) (idx : Nat) :
    FleetSchedule × R :=
  if idx ∈ acc.1.dueMs then acc
  else
    let (draw, rng) := next acc.2
    let want := wrappingAdd nowMs (secsToMs (initialOffsetSecs cadenceSecs draw))
    ({ acc.1 with dueMs := acc.1.dueMs.insert idx (acc.1.capClamp idx want) }, rng)

/-- The accounts that are still eligible keep their instant. -/
def forget (s : FleetSchedule) (eligible : List Nat) : FleetSchedule :=
  { s with dueMs := retain (fun e => eligible.contains e.1) s.dueMs }

def sync (s : FleetSchedule) (nowMs : Int) (eligible : List Nat) (cadenceSecs : UInt64) (rng : R) :
    FleetSchedule × R :=
  eligible.foldl (syncOne next nowMs cadenceSecs) (s.forget eligible, rng)

/-- The order of `sort_unstable` on instants and accounts. -/
def dueBefore (a b : Int × Nat) : Bool :=
  decide (a.1 < b.1) || (decide (a.1 = b.1) && decide (a.2 ≤ b.2))

/-- The accounts due, earliest first. -/
def due (s : FleetSchedule) (nowMs : Int) : List Nat :=
  (((s.dueMs.entries.filter fun e => decide (e.2 ≤ nowMs)).map fun e => (e.2, e.1)).mergeSort
    dueBefore).map Prod.snd

def reschedule (s : FleetSchedule) (idx : Nat) (nowMs : Int) (cadenceSecs : UInt64)
    (urgency : ProbeUrgency) (rng : R) : FleetSchedule × R :=
  let s := s.recordFire idx nowMs
  let (draw, rng) := next rng
  let want := wrappingAdd nowMs (secsToMs (probeIntervalSecs cadenceSecs urgency draw))
  ({ s with dueMs := s.dueMs.insert idx (s.capClamp idx want) }, rng)

/-! ## What a call does to the history -/

variable {s : FleetSchedule} {idx other : Nat} {wantMs nowMs atMs : Int} {cap : Nat}
  {cadenceSecs : UInt64} {eligible : List Nat} {urgency : ProbeUrgency} {rng : R}

theorem mem_due : idx ∈ s.due nowMs ↔ ∃ atMs, s.dueMs.lookup idx = some atMs ∧ atMs ≤ nowMs := by
  rw [due, List.mem_map]
  constructor
  · rintro ⟨p, hp, rfl⟩
    obtain ⟨e, he, rfl⟩ := List.mem_map.mp (List.mem_mergeSort.mp hp)
    obtain ⟨hmem, hle⟩ := List.mem_filter.mp he
    exact ⟨e.2, AList.mem_lookup_iff.mpr hmem, of_decide_eq_true hle⟩
  · rintro ⟨atMs, hlookup, hle⟩
    refine ⟨(atMs, idx), List.mem_mergeSort.mpr (List.mem_map.mpr ⟨⟨idx, atMs⟩, ?_, rfl⟩), rfl⟩
    exact List.mem_filter.mpr ⟨AList.mem_lookup_iff.mp hlookup, decide_eq_true hle⟩

def PutOff (cap : Nat) (s : FleetSchedule) : Prop :=
  ∀ idx atMs, s.dueMs.lookup idx = some atMs → Room capWindowMs atMs cap (s.fired idx)

theorem cap_clamp_room (hcap : s.cap = some cap) :
    Room capWindowMs (s.capClamp idx wantMs) cap (s.fired idx) := by
  intro e he
  rw [fired] at he
  rw [capClamp, hcap]
  cases hfired : s.firedMs.lookup idx with
  | none =>
    rw [hfired] at he
    cases cap <;> cases he
  | some fired =>
    rw [hfired, Option.getD_some, Option.mem_def] at he
    simp only [he]
    exact le_max_right _ _

/-- A new instant for one account. -/
theorem PutOff.insert (h : s.PutOff cap) (hcap : s.cap = some cap) :
    ({ s with dueMs := s.dueMs.insert idx (s.capClamp idx wantMs) } : FleetSchedule).PutOff cap := by
  intro i atMs hlookup
  by_cases heq : i = idx
  · subst heq
    rw [AList.lookup_insert] at hlookup
    obtain rfl := Option.some.inj hlookup
    exact cap_clamp_room hcap
  · rw [AList.lookup_insert_ne heq] at hlookup
    exact h i atMs hlookup

/-- What a call that fires nobody keeps. -/
structure Rests (cap : Nat) (s s' : FleetSchedule) : Prop where
  sameCap : s'.cap = s.cap
  firedMs : s'.firedMs = s.firedMs
  putOff : s.cap = some cap → s.PutOff cap → s'.PutOff cap

theorem Rests.trans {s' s'' : FleetSchedule} (h : Rests cap s s') (h' : Rests cap s' s'') :
    Rests cap s s'' where
  sameCap := h'.sameCap.trans h.sameCap
  firedMs := h'.firedMs.trans h.firedMs
  putOff hcap hput := h'.putOff (h.sameCap.trans hcap) (h.putOff hcap hput)

theorem rests_forget (s : FleetSchedule) (eligible : List Nat) : Rests cap s (s.forget eligible) where
  sameCap := rfl
  firedMs := rfl
  putOff _ hput i atMs hlookup := hput i atMs (lookup_retain_some.mp hlookup).1

theorem rests_sync_one (acc : FleetSchedule × R) :
    Rests cap acc.1 (syncOne next nowMs cadenceSecs acc idx).1 := by
  unfold syncOne
  split
  · exact ⟨rfl, rfl, fun _ hput => hput⟩
  · exact ⟨rfl, rfl, fun hcap hput => hput.insert hcap⟩

theorem rests_sync : Rests cap s (s.sync next nowMs eligible cadenceSecs rng).1 := by
  have hfold : ∀ (accounts : List Nat) (acc : FleetSchedule × R),
      Rests cap acc.1 (accounts.foldl (syncOne next nowMs cadenceSecs) acc).1 := by
    intro accounts
    induction accounts with
    | nil => exact fun acc => ⟨rfl, rfl, fun _ hput => hput⟩
    | cons account accounts ih => exact fun acc => (rests_sync_one next acc).trans (ih _)
  exact (rests_forget s eligible).trans (hfold eligible (s.forget eligible, rng))

theorem cap_record_fire : (s.recordFire idx nowMs).cap = s.cap := by
  unfold recordFire
  split <;> rfl

theorem fired_record_fire (hcap : s.cap = some cap) : (s.recordFire idx nowMs).fired other =
    if other = idx then
      (s.fired idx ++ [nowMs]).dropWhile fun t => decide (t ≤ nowMs - capWindowMs)
    else s.fired other := by
  rw [recordFire, hcap]
  by_cases heq : other = idx
  · subst heq
    rw [if_pos rfl, fired, AList.lookup_insert]
    rfl
  · rw [if_neg heq, fired, AList.lookup_insert_ne heq]
    rfl

theorem fired_reschedule :
    (s.reschedule next idx nowMs cadenceSecs urgency rng).1.fired other =
      (s.recordFire idx nowMs).fired other :=
  rfl

theorem cap_reschedule : (s.reschedule next idx nowMs cadenceSecs urgency rng).1.cap = s.cap :=
  cap_record_fire

theorem due_record_fire : (s.recordFire idx nowMs).dueMs = s.dueMs := by
  unfold recordFire
  split <;> rfl

theorem put_off_reschedule (hcap : s.cap = some cap) (hput : s.PutOff cap) :
    (s.reschedule next idx nowMs cadenceSecs urgency rng).1.PutOff cap := by
  intro i atMs hlookup
  rw [fired_reschedule]
  by_cases heq : i = idx
  · subst heq
    have hat : (s.reschedule next i nowMs cadenceSecs urgency rng).1.dueMs.lookup i =
        some ((s.recordFire i nowMs).capClamp i
          (wrappingAdd nowMs (secsToMs (probeIntervalSecs cadenceSecs urgency (next rng).1)))) :=
      AList.lookup_insert _
    rw [hat] at hlookup
    obtain rfl := Option.some.inj hlookup
    exact cap_clamp_room (cap_record_fire.trans hcap)
  · have hat : (s.reschedule next idx nowMs cadenceSecs urgency rng).1.dueMs.lookup i =
        s.dueMs.lookup i := by
      have hdue : (s.recordFire idx nowMs).dueMs = s.dueMs := due_record_fire
      rw [← hdue]
      exact AList.lookup_insert_ne heq
    rw [hat] at hlookup
    rw [fired_record_fire hcap, if_neg heq]
    exact hput i atMs hlookup

end FleetSchedule

/-! ## Runs -/

/-- A schedule with its generator and its clock, the accounts listed as due at this instant that have
not fired since, and all fires of each account. -/
structure ScheduleRun (R : Type*) where
  schedule : FleetSchedule
  rng : R
  nowMs : Int
  listed : List Nat := []
  fires : Nat → List Int := fun _ => []

inductive ScheduleAct
  | sync (nowMs : Int) (eligible : List Nat) (cadenceSecs : UInt64)
  | due (nowMs : Int)
  | reschedule (idx : Nat) (nowMs : Int) (cadenceSecs : UInt64) (urgency : ProbeUrgency)

namespace ScheduleAct

def nowMs : ScheduleAct → Int
  | sync nowMs _ _ => nowMs
  | due nowMs => nowMs
  | reschedule _ nowMs _ _ => nowMs

end ScheduleAct

namespace ScheduleRun

variable {R : Type*} (next : R → UInt64 × R)

/-- The clock moves; a listing holds for its own instant. -/
def atInstant (s : ScheduleRun R) (nowMs : Int) : ScheduleRun R :=
  { s with nowMs, listed := if nowMs = s.nowMs then s.listed else [] }

def step (s : ScheduleRun R) (act : ScheduleAct) : ScheduleRun R :=
  let s := s.atInstant act.nowMs
  match act with
  | .sync nowMs eligible cadenceSecs =>
    let synced := s.schedule.sync next nowMs eligible cadenceSecs s.rng
    { s with schedule := synced.1, rng := synced.2 }
  | .due nowMs => { s with listed := s.schedule.due nowMs }
  | .reschedule idx nowMs cadenceSecs urgency =>
    let drawn := s.schedule.reschedule next idx nowMs cadenceSecs urgency s.rng
    { s with
      schedule := drawn.1
      rng := drawn.2
      listed := s.listed.filter (· ≠ idx)
      fires := Function.update s.fires idx (s.fires idx ++ [nowMs]) }

/-- The clock does not go back, and an account fires at an instant at which it was listed. -/
def Ready (s : ScheduleRun R) (act : ScheduleAct) : Prop :=
  s.nowMs ≤ act.nowMs ∧
    ∀ idx nowMs cadenceSecs urgency, act = .reschedule idx nowMs cadenceSecs urgency →
      idx ∈ (s.atInstant nowMs).listed

/-- Every account's history holds what it needs of its fires, and no account is due or listed before
there is room for another fire. -/
structure Sound (cap : Nat) (s : ScheduleRun R) : Prop where
  hasCap : s.schedule.cap = some cap
  kept : ∀ idx, Trailing.Kept capWindowMs s.nowMs cap (s.fires idx) (s.schedule.fired idx)
  putOff : s.schedule.PutOff cap
  listed : ∀ idx ∈ s.listed, Room capWindowMs s.nowMs cap (s.schedule.fired idx)

variable {s : ScheduleRun R} {cap : Nat} {nowMs : Int}

def start (cap : Nat) (rng : R) (nowMs : Int) : ScheduleRun R where
  schedule := .capped cap
  rng := rng
  nowMs := nowMs

theorem sound_start (cap : Nat) (rng : R) (nowMs : Int) : (start cap rng nowMs).Sound cap where
  hasCap := rfl
  kept _ := kept_nil
  putOff := nofun
  listed := nofun

theorem Sound.at_instant (h : s.Sound cap) (hle : s.nowMs ≤ nowMs) : (s.atInstant nowMs).Sound cap where
  hasCap := h.hasCap
  kept idx := (h.kept idx).mono hle
  putOff := h.putOff
  listed idx hidx := by
    have hin : idx ∈ if nowMs = s.nowMs then s.listed else [] := hidx
    split at hin
    · exact (h.listed idx hin).mono hle
    · cases hin

theorem Sound.step (h : s.Sound cap) (hcap : 0 < cap) {act : ScheduleAct} (hready : s.Ready act) :
    (s.step next act).Sound cap := by
  have hnow := h.at_instant hready.1
  have hsync := hready.2
  cases act with
  | sync nowMs eligible cadenceSecs =>
    have hrests : FleetSchedule.Rests cap s.schedule
        (s.schedule.sync next nowMs eligible cadenceSecs s.rng).1 := FleetSchedule.rests_sync next
    have hfired : ∀ idx, (s.schedule.sync next nowMs eligible cadenceSecs s.rng).1.fired idx =
        s.schedule.fired idx := by
      intro idx
      rw [FleetSchedule.fired, hrests.firedMs, FleetSchedule.fired]
    exact
      { hasCap := hrests.sameCap.trans h.hasCap
        kept := fun idx => (hfired idx).symm ▸ hnow.kept idx
        putOff := hrests.putOff h.hasCap h.putOff
        listed := fun idx hidx => (hfired idx).symm ▸ hnow.listed idx hidx }
  | due nowMs =>
    exact
      { hasCap := h.hasCap
        kept := hnow.kept
        putOff := h.putOff
        listed := by
          intro idx hidx
          obtain ⟨atMs, hlookup, hle⟩ := FleetSchedule.mem_due.mp hidx
          exact (h.putOff idx atMs hlookup).mono hle }
  | reschedule idx nowMs cadenceSecs urgency =>
    have hroom := hnow.listed idx (hsync idx nowMs cadenceSecs urgency rfl)
    have hfired : ∀ other, (s.schedule.reschedule next idx nowMs cadenceSecs urgency s.rng).1.fired
        other = if other = idx then
          (s.schedule.fired idx ++ [nowMs]).dropWhile fun t => decide (t ≤ nowMs - capWindowMs)
        else s.schedule.fired other :=
      fun other => FleetSchedule.fired_record_fire h.hasCap
    refine
      { hasCap := (FleetSchedule.cap_reschedule next).trans h.hasCap
        kept := ?_
        putOff := FleetSchedule.put_off_reschedule next h.hasCap h.putOff
        listed := ?_ }
    · intro other
      show Trailing.Kept capWindowMs nowMs cap
        (Function.update s.fires idx (s.fires idx ++ [nowMs]) other)
        ((s.schedule.reschedule next idx nowMs cadenceSecs urgency s.rng).1.fired other)
      rw [hfired]
      by_cases heq : other = idx
      · subst heq
        rw [if_pos rfl, Function.update_self]
        exact (hnow.kept other).push hcap hroom
      · rw [if_neg heq, Function.update_of_ne heq]
        exact hnow.kept other
    · intro other hother
      obtain ⟨hin, hne⟩ := List.mem_filter.mp hother
      show Room capWindowMs nowMs cap
        ((s.schedule.reschedule next idx nowMs cadenceSecs urgency s.rng).1.fired other)
      rw [hfired, if_neg (of_decide_eq_true hne)]
      exact hnow.listed other hin

/-- No account fires more than `cap` times in any hour, whatever generator draws the instants and
whoever leaves the eligible set and comes back. -/
theorem fires_within_cap (rng : R) (startMs : Int) (hcap : 0 < cap) (acts : List ScheduleAct)
    (hready : EachStep (step next) Ready (start cap rng startMs) acts) (idx : Nat) (t : Int) :
    (within capWindowMs t ((exec (step next) (start cap rng startMs) acts).fires idx)).length ≤
      cap :=
  ((exec_invariant (I := Sound cap) (fun _ _ h hok => h.step next hcap hok)
    (sound_start cap rng startMs) hready acts List.prefix_rfl).kept idx).capped t

/-- The account leaves and comes back right after its one fire of the hour. -/
theorem fires_within_cap_churn : (within capWindowMs 5000
    ((exec (step Rng.nextU64) (start 1 ⟨7⟩ 0) [.sync 0 [0] 1, .due 5000,
      .reschedule 0 5000 1 .nearLimit, .sync 5000 [] 1, .sync 5000 [0] 1]).fires 0)).length ≤ 1 := by
  refine fires_within_cap Rng.nextU64 ⟨7⟩ 0 (by decide) _ ?_ 0 5000
  refine each_step_cons.mpr ⟨⟨by decide, nofun⟩, each_step_cons.mpr ⟨⟨by decide, nofun⟩,
    each_step_cons.mpr ⟨⟨by decide, ?_⟩, each_step_cons.mpr ⟨⟨by decide, nofun⟩,
      each_step_cons.mpr ⟨⟨by decide, nofun⟩, each_step_nil⟩⟩⟩⟩⟩
  rintro _ _ _ _ ⟨⟩
  exact FleetSchedule.mem_due.mpr ⟨_, rfl, by decide⟩

end ScheduleRun

end TeamClaude
