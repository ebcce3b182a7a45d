import TeamClaude.Machine
import TeamClaude.Proxy.Buffered
import Mathlib.Data.List.AList
import Mathlib.Data.List.Sort

/-!
# The tool calls of a session

A call is opened by its `tool_use` block and closed by its `tool_result`, which folds it into the
counts, the bucket of its tool, the timeout tallies and the list of the slowest. A map is a list of
its entries; the source leaves their order open, which shows only between equal stamps.
-/

namespace TeamClaude

def terminalTools : List String := ["StructuredOutput"]
def slowestCap : Nat := 10
def timedOutCap : Nat := 20
def toolDurationReservoirCap : Nat := 256

def CommandClass.asStr : CommandClass → String
  | wait => "wait"
  | compound => "compound"
  | search => "search"
  | gitNet => "git-net"
  | gitLocal => "git-local"
  | build => "build"
  | other => "other"

structure ToolResultEvent where
  id : String
  isError : Bool
  timedOut : Bool
  deriving DecidableEq

/-- A call still awaiting its result. -/
structure RunningTool where
  tool : String
  startedMs : Int
  commandHead : Option String
  commandClass : Option CommandClass
  timeoutSeconds : Option Nat
  deriving DecidableEq

/-- A completed call, its `seconds` in milliseconds. -/
structure SlowTool where
  tool : String
  ms : Int
  commandHead : Option String
  commandClass : Option CommandClass
  endedMs : Int
  deriving DecidableEq

structure ToolBucket where
  calls : Nat := 0
  errors : Nat := 0
  overOneMinute : Nat := 0
  durations : List Int := []
  deriving DecidableEq

/-- The calls awaiting their results, by id. -/
abbrev RunningCalls := AList fun _ : String => RunningTool

structure ToolStats where
  calls : Nat := 0
  errors : Nat := 0
  timeouts : Nat := 0
  timeoutsByClass : AList (fun _ : String => Nat) := ∅
  timedOut : List SlowTool := []
  overOneMinute : Nat := 0
  running : RunningCalls := ∅
  slowest : List SlowTool := []
  byTool : AList (fun _ : String => ToolBucket) := ∅

def overOneMinuteMs (ms : Int) : Bool := decide (60000 ≤ ms)

def ToolBucket.record (bucket : ToolBucket) (ms : Int) (isError : Bool) : ToolBucket :=
  let durations := bucket.durations ++ [ms]
  { calls := bucket.calls + 1
    errors := bucket.errors + isError.toNat
    overOneMinute := bucket.overOneMinute + (overOneMinuteMs ms).toNat
    durations :=
      if toolDurationReservoirCap < durations.length then durations.tail else durations }

/-- `insert_slowest`: a stable sort, the slowest first. -/
def insertSlowest (slowest : List SlowTool) (tool : SlowTool) : List SlowTool :=
  ((slowest ++ [tool]).insertionSort fun a b => b.ms ≤ a.ms).take slowestCap

def RunningTool.elapsedMs (running : RunningTool) (nowMs : Int) : Int :=
  max (nowMs - running.startedMs) 0

/-- The key of the timeout tally: the class of the command, else the tool. -/
def RunningTool.timeoutKey (running : RunningTool) : String :=
  (running.commandClass.map CommandClass.asStr).getD running.tool

def completeCall (tools : ToolStats) (running : RunningTool) (nowMs : Int)
    (isError timedOut : Bool) : ToolStats :=
  let ms := running.elapsedMs nowMs
  let completed : SlowTool :=
    { tool := running.tool
      ms
      commandHead := running.commandHead
      commandClass := running.commandClass
      endedMs := nowMs }
  { calls := tools.calls + 1
    errors := tools.errors + isError.toNat
    timeouts := tools.timeouts + timedOut.toNat
    timeoutsByClass :=
      if timedOut then
        tools.timeoutsByClass.insert running.timeoutKey
          ((tools.timeoutsByClass.lookup running.timeoutKey).getD 0 + 1)
      else tools.timeoutsByClass
    timedOut := if timedOut then (completed :: tools.timedOut).take timedOutCap else tools.timedOut
    overOneMinute := tools.overOneMinute + (overOneMinuteMs ms).toNat
    running := tools.running
    slowest := insertSlowest tools.slowest completed
    byTool := tools.byTool.insert running.tool
      (((tools.byTool.lookup running.tool).getD {}).record ms isError) }

def ToolUseEvent.isTerminal (tu : ToolUseEvent) : Bool :=
  tu.name.any fun name => terminalTools.contains name

/-- The entry started longest ago goes when the map is at its cap. Of several started at one instant
the first listed goes, where the source's map leaves open which. -/
def makeRoom (running : RunningCalls) : RunningCalls :=
  if pendingToolCap ≤ running.entries.length then
    match (minByKey (fun e => e.2.startedMs) running.entries).map Sigma.fst with
    | some oldest => running.erase oldest
    | none => running
  else running

/-- `insert_running`, which edits this map alone. -/
def insertRunning (startedMs : Int) (timeoutSeconds : Option Nat) (running : RunningCalls)
    (tu : ToolUseEvent) : RunningCalls :=
  if tu.id ∈ running then running
  else if tu.isTerminal then running
  else
    (makeRoom running).insert tu.id
      { tool := tu.name.getD ""
        startedMs
        commandHead := tu.commandHead
        commandClass := tu.commandClass
        timeoutSeconds }

def closeResult (nowMs : Int) (tools : ToolStats) (tr : ToolResultEvent) : ToolStats :=
  match tools.running.lookup tr.id with
  | some running =>
    completeCall { tools with running := tools.running.erase tr.id } running nowMs tr.isError
      tr.timedOut
  | none => tools

/-! ## The calls a request closes -/

structure FinishedCall where
  id : String
  call : RunningTool
  endedMs : Int
  isError : Bool
  timedOut : Bool
  deriving DecidableEq

def finishedBy (nowMs : Int) : RunningCalls → List ToolResultEvent → List FinishedCall
  | _, [] => []
  | running, tr :: results =>
    match running.lookup tr.id with
    | some call =>
      { id := tr.id, call, endedMs := nowMs, isError := tr.isError, timedOut := tr.timedOut } ::
        finishedBy nowMs (running.erase tr.id) results
    | none => finishedBy nowMs running results

variable {nowMs startedMs : Int} {timeoutSeconds : Option Nat} {running : RunningCalls} {id : String}
  {tu : ToolUseEvent} {uses : List ToolUseEvent} {results : List ToolResultEvent}

theorem mem_ids_finished_by : id ∈ (finishedBy nowMs running results).map FinishedCall.id ↔
    id ∈ running ∧ id ∈ results.map ToolResultEvent.id := by
  induction results generalizing running with
  | nil => simp [finishedBy]
  | cons tr results ih =>
    simp only [finishedBy, List.map_cons, List.mem_cons]
    cases hlookup : running.lookup tr.id with
    | none =>
      have hnot : tr.id ∉ running := AList.lookup_eq_none.mp hlookup
      simp only [ih]
      constructor
      · rintro ⟨hid, hmem⟩
        exact ⟨hid, Or.inr hmem⟩
      · rintro ⟨hid, rfl | hmem⟩
        · exact absurd hid hnot
        · exact ⟨hid, hmem⟩
    | some call =>
      have hin : tr.id ∈ running := AList.lookup_isSome.mp (by rw [hlookup]; rfl)
      simp only [List.map_cons, List.mem_cons, ih, AList.mem_erase]
      constructor
      · rintro (rfl | ⟨⟨-, hid⟩, hmem⟩)
        · exact ⟨hin, Or.inl rfl⟩
        · exact ⟨hid, Or.inr hmem⟩
      · rintro ⟨hid, hmem⟩
        by_cases heq : id = tr.id
        · exact Or.inl heq
        · exact Or.inr ⟨⟨heq, hid⟩, hmem.resolve_left heq⟩

/-- A request closes a call once, however many results it brings for it. -/
theorem nodup_ids_finished_by : ((finishedBy nowMs running results).map FinishedCall.id).Nodup := by
  induction results generalizing running with
  | nil => exact List.nodup_nil
  | cons tr results ih =>
    simp only [finishedBy]
    cases hlookup : running.lookup tr.id with
    | none => exact ih
    | some call =>
      refine List.nodup_cons.mpr ⟨fun hmem => ?_, ih⟩
      exact (AList.mem_erase.mp (mem_ids_finished_by.mp hmem).1).1 rfl

/-! ## The counts -/

namespace FinishedCall

def ms (f : FinishedCall) : Int := f.call.elapsedMs f.endedMs

end FinishedCall

structure ToolBucket.Tallies (bucket : ToolBucket) (log : List FinishedCall) : Prop where
  calls : bucket.calls = log.length
  errors : bucket.errors = log.countP FinishedCall.isError
  overOneMinute : bucket.overOneMinute = log.countP fun f => overOneMinuteMs f.ms

/-- The counts of a session, each tool's and each class's among them, are of exactly these calls. -/
structure ToolStats.Tallies (tools : ToolStats) (log : List FinishedCall) : Prop where
  calls : tools.calls = log.length
  errors : tools.errors = log.countP FinishedCall.isError
  timeouts : tools.timeouts = log.countP FinishedCall.timedOut
  overOneMinute : tools.overOneMinute = log.countP fun f => overOneMinuteMs f.ms
  timeoutsByClass : ∀ key, (tools.timeoutsByClass.lookup key).getD 0 =
    log.countP fun f => f.timedOut && decide (f.call.timeoutKey = key)
  byTool : ∀ tool, ((tools.byTool.lookup tool).getD {}).Tallies
    (log.filter fun f => f.call.tool = tool)

variable {bucket : ToolBucket} {tools : ToolStats} {log : List FinishedCall} {f : FinishedCall}

theorem count_snoc {α : Type*} (p : α → Bool) (l : List α) (x : α) :
    (l ++ [x]).countP p = l.countP p + (p x).toNat := by
  rw [List.countP_append, List.countP_singleton]
  cases p x <;> rfl

theorem ToolBucket.Tallies.record (h : bucket.Tallies log) :
    (bucket.record f.ms f.isError).Tallies (log ++ [f]) where
  calls := by
    rw [List.length_append, ← h.calls]
    rfl
  errors := by
    rw [count_snoc, ← h.errors]
    rfl
  overOneMinute := by
    rw [count_snoc, ← h.overOneMinute]
    rfl

theorem tallies_timeouts (h : tools.Tallies log) (key : String) :
    ((completeCall tools f.call f.endedMs f.isError f.timedOut).timeoutsByClass.lookup key).getD 0 =
      (log ++ [f]).countP fun f => f.timedOut && decide (f.call.timeoutKey = key) := by
  rw [count_snoc, ← h.timeoutsByClass key]
  simp only [completeCall]
  cases f.timedOut with
  | false => rfl
  | true =>
    by_cases heq : f.call.timeoutKey = key
    · subst heq
      simp
    · simp [AList.lookup_insert_ne (Ne.symm heq), heq]

theorem tallies_by_tool (h : tools.Tallies log) (tool : String) :
    (((completeCall tools f.call f.endedMs f.isError f.timedOut).byTool.lookup tool).getD {}).Tallies
      ((log ++ [f]).filter fun f => f.call.tool = tool) := by
  rw [List.filter_append]
  by_cases heq : f.call.tool = tool
  · subst heq
    have hfilter : [f].filter (fun g => decide (g.call.tool = f.call.tool)) = [f] := by simp
    have hlookup : (completeCall tools f.call f.endedMs f.isError f.timedOut).byTool.lookup
        f.call.tool = some (((tools.byTool.lookup f.call.tool).getD {}).record f.ms f.isError) :=
      AList.lookup_insert _
    rw [hfilter, hlookup]
    exact (h.byTool f.call.tool).record
  · have hfilter : [f].filter (fun g => decide (g.call.tool = tool)) = [] := by simp [heq]
    have hlookup : (completeCall tools f.call f.endedMs f.isError f.timedOut).byTool.lookup tool =
        tools.byTool.lookup tool := AList.lookup_insert_ne (Ne.symm heq)
    rw [hfilter, hlookup, List.append_nil]
    exact h.byTool tool

/-- A call that is folded is counted once, in each count that is about it. -/
theorem ToolStats.Tallies.complete_call (h : tools.Tallies log) :
    (completeCall tools f.call f.endedMs f.isError f.timedOut).Tallies (log ++ [f]) where
  calls := by
    rw [List.length_append, ← h.calls]
    rfl
  errors := by
    rw [count_snoc, ← h.errors]
    rfl
  timeouts := by
    rw [count_snoc, ← h.timeouts]
    rfl
  overOneMinute := by
    rw [count_snoc, ← h.overOneMinute]
    rfl
  timeoutsByClass := tallies_timeouts h
  byTool := tallies_by_tool h

/-- The counts do not read the calls still running. -/
theorem ToolStats.Tallies.with_running (h : tools.Tallies log) (running : RunningCalls) :
    ({ tools with running } : ToolStats).Tallies log :=
  ⟨h.calls, h.errors, h.timeouts, h.overOneMinute, h.timeoutsByClass, h.byTool⟩

theorem ToolStats.Tallies.close_results (h : tools.Tallies log) :
    (results.foldl (closeResult nowMs) tools).Tallies
      (log ++ finishedBy nowMs tools.running results) := by
  induction results generalizing tools log with
  | nil => rwa [finishedBy, List.append_nil]
  | cons tr results ih =>
    rw [List.foldl_cons, finishedBy, closeResult]
    cases hlookup : tools.running.lookup tr.id with
    | none => exact ih h
    | some call =>
      have hclosed := (h.with_running (tools.running.erase tr.id)).complete_call
        (f := ⟨tr.id, call, nowMs, tr.isError, tr.timedOut⟩)
      have hrest := ih hclosed
      rw [List.append_assoc] at hrest
      exact hrest

theorem mem_running_closed : id ∈ (results.foldl (closeResult nowMs) tools).running ↔
    id ∈ tools.running ∧ id ∉ results.map ToolResultEvent.id := by
  induction results generalizing tools with
  | nil => simp
  | cons tr results ih =>
    rw [List.foldl_cons, ih, List.map_cons, List.mem_cons, not_or, ← and_assoc]
    refine and_congr_left fun _ => ?_
    rw [closeResult]
    cases hlookup : tools.running.lookup tr.id with
    | none =>
      have hnot : tr.id ∉ tools.running := AList.lookup_eq_none.mp hlookup
      refine ⟨fun hid => ⟨hid, fun heq => hnot (heq ▸ hid)⟩, And.left⟩
    | some call => exact AList.mem_erase.trans and_comm

/-! ## The calls a request opens -/

theorem mem_make_room (h : id ∈ makeRoom running) : id ∈ running := by
  unfold makeRoom at h
  split at h
  · split at h
    · exact (AList.mem_erase.mp h).2
    · exact h
  · exact h

theorem mem_insert_running (h : id ∈ insertRunning startedMs timeoutSeconds running tu) :
    id ∈ running ∨ id = tu.id ∧ tu.isTerminal = false := by
  unfold insertRunning at h
  split at h
  · exact Or.inl h
  · split at h
    · exact Or.inl h
    · rename_i hterminal
      rcases (AList.mem_insert _).mp h with rfl | hmem
      · exact Or.inr ⟨rfl, by simpa using hterminal⟩
      · exact Or.inl (mem_make_room hmem)

/-- A call is open after the blocks of a request only if it was before or a block opens it. -/
theorem mem_inserted (h : id ∈ uses.foldl (insertRunning startedMs timeoutSeconds) running) :
    id ∈ running ∨ ∃ tu ∈ uses, tu.id = id ∧ tu.isTerminal = false := by
  induction uses generalizing running with
  | nil => exact Or.inl h
  | cons tu uses ih =>
    rcases ih h with hmem | ⟨later, hlater, heq⟩
    · rcases mem_insert_running hmem with hrunning | ⟨heq, hterminal⟩
      · exact Or.inl hrunning
      · exact Or.inr ⟨tu, List.mem_cons_self, heq.symm, hterminal⟩
    · exact Or.inr ⟨later, List.mem_cons_of_mem tu hlater, heq⟩

end TeamClaude
