import TeamClaude.Lib.Exec
import TeamClaude.Lib.FirstSeen
import TeamClaude.Lib.KeyedSum
import TeamClaude.Peer.Endpoints
import TeamClaude.Peer.Tunnel

/-!
# What each path carried

The meter holds the charges of the last hour, by the path they went over. Once a minute its totals are
summed and, where they changed since they were last written, written to the state file.
-/

namespace TeamClaude

open Lib

abbrev PeerPath := PeerId × Locator

structure PathCharge where
  atMs : Int
  path : PeerPath
  bytes : Nat
  tokens : Nat
  deriving DecidableEq

structure PathTraffic where
  path : PeerPath
  bytesLastHour : Nat
  tokensLastHour : Nat
  updatedAtMs : Int
  deriving DecidableEq

structure PathMeter where
  charges : List PathCharge := []
  seen : List PeerPath := []

/-- `u64::saturating_add`, over a list. -/
def saturatingSum (amounts : List Nat) : Nat :=
  amounts.foldl (fun total amount => min (total + amount) u64Max) 0

def pathTotals (charges : List PathCharge) (nowMs : Int) (path : PeerPath) : PathTraffic :=
  let own := charges.filter fun row => row.path = path
  { path
    bytesLastHour := saturatingSum (own.map PathCharge.bytes)
    tokensLastHour := saturatingSum (own.map PathCharge.tokens)
    updatedAtMs := nowMs }

namespace PathMeter

def trim (meter : PathMeter) (nowMs : Int) : PathMeter :=
  { meter with
    charges := meter.charges.dropWhile fun row => decide (row.atMs < nowMs - budgetWindowMs) }

def charge (meter : PathMeter) (row : PathCharge) : PathMeter :=
  let meter := meter.trim row.atMs
  { charges := meter.charges ++ [row]
    seen := FirstSeen.enter meter.seen row.path }

def rows (meter : PathMeter) (nowMs : Int) : List PathTraffic × PathMeter :=
  let meter := meter.trim nowMs
  (meter.seen.map (pathTotals meter.charges nowMs), meter)

end PathMeter

def PathTraffic.key (row : PathTraffic) : PeerPath × Nat × Nat :=
  (row.path, row.bytesLastHour, row.tokensLastHour)

/-- `path_traffic_rows_match`: sorted, they are the same. -/
def pathTrafficRowsMatch (rows lastWritten : List PathTraffic) : Bool :=
  (rows.map PathTraffic.key).isPerm (lastWritten.map PathTraffic.key)

/-- The meter, what the summing loop wrote last, and the section of the state file. -/
structure PathTotals where
  meter : PathMeter := {}
  lastWritten : List PathTraffic := []
  file : List PathTraffic

inductive TrafficAct
  | charge (row : PathCharge)
  | tick (nowMs : Int) (ok : Bool)

namespace PathTotals

/-- `path_traffic_tick`; a write may fail. -/
def tick (s : PathTotals) (nowMs : Int) (ok : Bool) : PathTotals :=
  let (rows, meter) := s.meter.rows nowMs
  if pathTrafficRowsMatch rows s.lastWritten then { s with meter }
  else if ok then { meter, lastWritten := rows, file := rows }
  else { s with meter }

def step (s : PathTotals) : TrafficAct → PathTotals
  | .charge row => { s with meter := s.meter.charge row }
  | .tick nowMs ok => s.tick nowMs ok

/-- The process begins with whatever is in the file. -/
def start (file : List PathTraffic) : PathTotals :=
  { file }

end PathTotals

namespace TrafficAct

/-- The instant of a step. -/
def atMs : TrafficAct → Int
  | .charge row => row.atMs
  | .tick nowMs _ => nowMs

def charged : TrafficAct → Option PathCharge
  | .charge row => some row
  | .tick _ _ => none

end TrafficAct

/-! ## The meter -/

/-- The charges no older than an hour. -/
def lastHour (charges : List PathCharge) (nowMs : Int) : List PathCharge :=
  charges.filter fun row => decide (nowMs - budgetWindowMs ≤ row.atMs)

/-- The totals of every path ever charged, in the order of its first charge, over the last hour. -/
def trafficOf (charges : List PathCharge) (nowMs : Int) : List PathTraffic :=
  (FirstSeen.enterAll [] (charges.map PathCharge.path)).map (pathTotals (lastHour charges nowMs) nowMs)

/-- The meter holds what was charged, but for what is older than an hour at the instant. -/
structure Meters (charges : List PathCharge) (nowMs : Int) (meter : PathMeter) : Prop where
  recent : ∀ laterMs, nowMs ≤ laterMs → lastHour meter.charges laterMs = lastHour charges laterMs
  seen : meter.seen = FirstSeen.enterAll [] (charges.map PathCharge.path)
  sorted : meter.charges.Pairwise fun older newer => older.atMs ≤ newer.atMs
  past : ∀ row ∈ meter.charges, row.atMs ≤ nowMs

variable {charges : List PathCharge} {nowMs laterMs : Int} {meter : PathMeter}

theorem meters_new (nowMs : Int) : Meters [] nowMs {} :=
  ⟨fun _ _ => rfl, rfl, List.Pairwise.nil, fun _ h => absurd h List.not_mem_nil⟩

theorem Meters.mono (h : Meters charges nowMs meter) (hlater : nowMs ≤ laterMs) :
    Meters charges laterMs meter where
  recent t ht := h.recent t (hlater.trans ht)
  seen := h.seen
  sorted := h.sorted
  past row hin := (h.past row hin).trans hlater

theorem last_hour_trim (meter : PathMeter) (h : nowMs ≤ laterMs) :
    lastHour (meter.trim nowMs).charges laterMs = lastHour meter.charges laterMs := by
  refine filter_dropWhile (fun row hrow => ?_) meter.charges
  have hin := of_decide_eq_true hrow
  exact decide_eq_false (by omega)

theorem trim_sublist (meter : PathMeter) (nowMs : Int) :
    (meter.trim nowMs).charges.Sublist meter.charges :=
  List.dropWhile_sublist _

theorem Meters.trim (h : Meters charges nowMs meter) (hlater : nowMs ≤ laterMs) :
    Meters charges laterMs (meter.trim laterMs) where
  recent t ht := by
    rw [last_hour_trim meter ht]
    exact h.recent t (hlater.trans ht)
  seen := h.seen
  sorted := h.sorted.sublist (trim_sublist meter laterMs)
  past row hrow := (h.past row ((trim_sublist meter laterMs).subset hrow)).trans hlater

theorem Meters.charge {row : PathCharge} (h : Meters charges nowMs meter) (hlater : nowMs ≤ row.atMs) :
    Meters (charges ++ [row]) row.atMs (meter.charge row) where
  recent t ht := by
    have hkept := (h.trim hlater).recent t ht
    unfold lastHour at hkept ⊢
    rw [PathMeter.charge, List.filter_append, List.filter_append, hkept]
  seen := by
    rw [List.map_append, FirstSeen.enterAll, List.foldl_append]
    exact congrArg (FirstSeen.enter · row.path) h.seen
  sorted := by
    have htrim := h.trim hlater
    refine List.pairwise_append.mpr ⟨htrim.sorted, List.pairwise_singleton _ _, ?_⟩
    intro older hin newer hnewer
    rw [List.mem_singleton.mp hnewer]
    exact htrim.past older hin
  past other hin := by
    rcases List.mem_append.mp hin with hin | hin
    · exact (h.trim hlater).past other hin
    · rw [List.mem_singleton.mp hin]

/-- What is left after a trim is of the last hour, as the oldest charge left is. -/
theorem Meters.trimmed (h : Meters charges nowMs meter) (hlater : nowMs ≤ laterMs) :
    (meter.trim laterMs).charges = lastHour charges laterMs := by
  have htrim := h.trim hlater
  rw [← htrim.recent laterMs le_rfl, lastHour, eq_comm, List.filter_eq_self]
  intro row hin
  have hhead := List.head?_dropWhile_not (fun row : PathCharge =>
    decide (row.atMs < laterMs - budgetWindowMs)) meter.charges
  have hsorted := htrim.sorted
  change row ∈ meter.charges.dropWhile _ at hin
  change (meter.charges.dropWhile _).Pairwise _ at hsorted
  cases hleft : meter.charges.dropWhile fun row => decide (row.atMs < laterMs - budgetWindowMs) with
  | nil =>
    rw [hleft] at hin
    cases hin
  | cons first rest =>
    rw [hleft] at hin hhead hsorted
    have hfirst : ¬ first.atMs < laterMs - budgetWindowMs := by simpa using hhead
    have hrow : first.atMs ≤ row.atMs := by
      rcases List.mem_cons.mp hin with rfl | hin
      · exact le_rfl
      · exact (List.pairwise_cons.mp hsorted).1 row hin
    exact decide_eq_true (by omega)

theorem Meters.rows (h : Meters charges nowMs meter) (hlater : nowMs ≤ laterMs) :
    (meter.rows laterMs).1 = trafficOf charges laterMs := by
  rw [PathMeter.rows, trafficOf, ← h.trimmed hlater, ← h.seen]
  rfl

/-! ## Runs of the loop -/

namespace PathTotals

variable {s : PathTotals} {file : List PathTraffic}

def charged (acts : List TrafficAct) : List PathCharge :=
  acts.filterMap TrafficAct.charged

/-- The file holds what the loop wrote last; before it wrote anything, what it was begun with. -/
def Held (file : List PathTraffic) (s : PathTotals) : Prop :=
  s.file = s.lastWritten ∨ (s.lastWritten = [] ∧ s.file = file)

theorem Held.step (h : Held file s) (act : TrafficAct) : Held file (s.step act) := by
  cases act with
  | charge row => exact h
  | tick nowMs ok =>
    simp only [PathTotals.step, tick]
    split
    · exact h
    · split
      · exact .inl rfl
      · exact h

/-- After a tick that did not fail, what was written last matches the meter. -/
theorem tick_matches (s : PathTotals) (nowMs : Int) :
    ((s.tick nowMs true).lastWritten.map PathTraffic.key).Perm
      ((s.meter.rows nowMs).1.map PathTraffic.key) := by
  simp only [tick]
  split
  · rename_i hmatch
    exact (List.isPerm_iff.mp hmatch).symm
  · exact List.Perm.refl _

theorem meters_run (file : List PathTraffic) {acts : List TrafficAct}
    (hclock : (acts.map TrafficAct.atMs).Pairwise (· ≤ ·)) {nowMs : Int}
    (hnow : ∀ act ∈ acts, act.atMs ≤ nowMs) :
    Meters (charged acts) nowMs (exec step (start file) acts).meter := by
  induction acts using List.reverseRecOn generalizing nowMs with
  | nil => exact meters_new nowMs
  | append_singleton acts act ih =>
    rw [List.map_append, List.pairwise_append] at hclock
    have hbefore : ∀ other ∈ acts, other.atMs ≤ act.atMs := fun other hin =>
      hclock.2.2 _ (List.mem_map_of_mem hin) _ (List.mem_singleton_self _)
    have hlast : act.atMs ≤ nowMs := hnow act (List.mem_append_right _ (List.mem_singleton_self _))
    have hmeters := ih hclock.1 hbefore
    rw [exec_snoc, charged, List.filterMap_append, ← charged]
    cases act with
    | charge row => exact (hmeters.charge le_rfl).mono hlast
    | tick atMs ok =>
      have htrim := (hmeters.trim (le_refl atMs)).mono hlast
      have hnone : List.filterMap TrafficAct.charged [TrafficAct.tick atMs ok] = [] := rfl
      rw [hnone, List.append_nil]
      simp only [step, tick]
      split
      · exact htrim
      · split
        · exact htrim
        · exact htrim

/-- While the clock does not go back, after a tick whose write did not fail the file has the totals of
the last hour of every path that was ever charged; before the first charge it is left as it was. -/
theorem file_is_current (file : List PathTraffic) {acts : List TrafficAct} {nowMs : Int}
    (hclock : ((acts ++ [TrafficAct.tick nowMs true]).map TrafficAct.atMs).Pairwise (· ≤ ·)) :
    ((exec step (start file) (acts ++ [.tick nowMs true])).file.map PathTraffic.key).Perm
        ((trafficOf (charged acts) nowMs).map PathTraffic.key) ∨
      (charged acts = [] ∧ (exec step (start file) (acts ++ [.tick nowMs true])).file = file) := by
  rw [List.map_append, List.pairwise_append] at hclock
  have hbefore : ∀ act ∈ acts, act.atMs ≤ nowMs := fun act hin =>
    hclock.2.2 _ (List.mem_map_of_mem hin) _ (List.mem_singleton_self _)
  have hmeters := meters_run file hclock.1 hbefore
  have hmatch := tick_matches (exec step (start file) acts) nowMs
  rw [hmeters.rows le_rfl] at hmatch
  have hstart : Held file (start file) := .inr ⟨rfl, rfl⟩
  have hheld := exec_invariant (I := Held file) (A := fun _ _ => True) (fun _ act h _ => h.step act)
    hstart (fun _ _ _ => trivial) (acts ++ [.tick nowMs true]) (List.prefix_refl _)
  rw [exec_snoc] at hheld ⊢
  rcases hheld with hsame | ⟨hempty, hfile⟩
  · left
    rw [hsame]
    exact hmatch
  · refine .inr ⟨?_, hfile⟩
    change (PathTotals.tick _ _ _).lastWritten = [] at hempty
    rw [hempty, List.map_nil, List.nil_perm, List.map_eq_nil_iff, trafficOf, List.map_eq_nil_iff]
      at hmatch
    rw [List.eq_nil_iff_forall_not_mem]
    intro row hin
    have hseen : row.path ∈ FirstSeen.enterAll [] ((charged acts).map PathCharge.path) :=
      FirstSeen.mem_enter_all.mpr (.inr (List.mem_map_of_mem hin))
    rw [hmatch] at hseen
    cases hseen

/-- An hour after its last charge a path is still listed, with nothing. -/
theorem file_is_current_once :
    ((exec step (start []) [.charge ⟨0, (1, .via 2), 5, 0⟩, .tick 3600001 true]).file.map
      PathTraffic.key).Perm [((1, .via 2), 0, 0)] := by
  have hclock : (([TrafficAct.charge ⟨0, (1, .via 2), 5, 0⟩] ++ [TrafficAct.tick 3600001 true]).map
      TrafficAct.atMs).Pairwise (· ≤ ·) := by
    decide
  rcases file_is_current [] hclock with hperm | ⟨hnone, -⟩
  · exact hperm
  · cases hnone

end PathTotals

end TeamClaude
