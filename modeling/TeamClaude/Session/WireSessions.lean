import TeamClaude.Lib.Exec
import TeamClaude.Lib.Retain
import TeamClaude.Session.ToolStats

/-!
# The table of sessions

A request is folded into its session: its blocks open calls, its results close them. A response opens
the calls it asks for. Sessions unseen for an hour are dropped, and the oldest when there are too
many.
-/

namespace TeamClaude

open Lib

def sessionCap : Nat := 512
def sessionTtlMs : Int := 3600000
def reqPerMinuteLen : Nat := 30

/-- Requests in each of the last minutes, oldest first; the counters are `u16`. -/
structure ReqPerMinuteRing where
  buckets : List Nat := List.replicate reqPerMinuteLen 0
  headMinute : Int := 0
  deriving DecidableEq

namespace ReqPerMinuteRing

def advanceTo (ring : ReqPerMinuteRing) (minute : Int) : ReqPerMinuteRing :=
  let diff := minute - ring.headMinute
  if diff ≤ 0 then ring
  else
    let shift := (min diff reqPerMinuteLen).toNat
    { buckets := (fun buckets => buckets.tail ++ [0])^[shift] ring.buckets
      headMinute := minute }

def record (ring : ReqPerMinuteRing) (nowMs : Int) : ReqPerMinuteRing :=
  let ring := ring.advanceTo (nowMs / 60000)
  { ring with
    buckets := ring.buckets.modify (ring.buckets.length - 1) fun last => min (last + 1) 65535 }

end ReqPerMinuteRing

structure WireSession where
  account : Option String := none
  model : Option String := none
  firstSeenMs : Int := 0
  lastSeenMs : Int := 0
  requests : Nat := 0
  reqPerMinute : ReqPerMinuteRing := {}
  tools : ToolStats := {}
  lastUsageMs : Option Int := none

def WireSession.isLiveAt (session : WireSession) (nowMs ttlMs : Int) : Bool :=
  decide (nowMs - session.lastSeenMs ≤ ttlMs) ||
    session.lastUsageMs.any fun usageMs => decide (nowMs < (usageMs / 60000 + 2) * 60000 + ttlMs)

/-- What `record_request` is called with. -/
structure WireRequest where
  sessionId : String
  account : Option String
  model : Option String
  nowMs : Int
  toolUses : List ToolUseEvent
  toolResults : List ToolResultEvent

/-- `WireSessionTracker` -/
abbrev WireSessions := AList fun _ : String => WireSession

namespace WireSessions

def evictStale (sessions : WireSessions) (nowMs : Int) : WireSessions :=
  retain (fun e => e.2.isLiveAt nowMs sessionTtlMs) sessions

/-- Of several sessions seen last at one instant the first listed goes, where the source's map leaves
open which. -/
def evictOverCap (sessions : WireSessions) : WireSessions :=
  if sessionCap < sessions.entries.length then
    match (minByKey (fun e => e.2.lastSeenMs) sessions.entries).map Sigma.fst with
    | some oldest => sessions.erase oldest
    | none => sessions
  else sessions

def entryOf (sessions : WireSessions) (r : WireRequest) : WireSession :=
  (sessions.lookup r.sessionId).getD { firstSeenMs := r.nowMs }

def previousResponseEndMs (sessions : WireSessions) (r : WireRequest) : Int :=
  if r.sessionId ∈ sessions then (sessions.entryOf r).lastSeenMs else r.nowMs

def opened (sessions : WireSessions) (r : WireRequest) : RunningCalls :=
  r.toolUses.foldl (insertRunning (sessions.previousResponseEndMs r) none)
    (sessions.entryOf r).tools.running

def foldRequest (sessions : WireSessions) (r : WireRequest) : WireSession :=
  let entry := sessions.entryOf r
  { entry with
    requests := entry.requests + 1
    lastSeenMs := r.nowMs
    reqPerMinute := entry.reqPerMinute.record r.nowMs
    account := r.account <|> entry.account
    model := r.model <|> entry.model
    tools := r.toolResults.foldl (closeResult r.nowMs)
      { entry.tools with running := sessions.opened r } }

def recordRequest (sessions : WireSessions) (r : WireRequest) : WireSessions :=
  let sessions := sessions.evictStale r.nowMs
  evictOverCap (sessions.insert r.sessionId (sessions.foldRequest r))

def recordResponseToolUses (sessions : WireSessions) (sessionId : String) (nowMs : Int)
    (toolUses : List ToolUseEvent) : WireSessions :=
  match sessions.lookup sessionId with
  | some entry =>
    sessions.insert sessionId
      { entry with
        tools :=
          { entry.tools with
            running := toolUses.foldl (insertRunning nowMs none) entry.tools.running } }
  | none => sessions

def closedBy (sessions : WireSessions) (r : WireRequest) : List FinishedCall :=
  finishedBy r.nowMs ((sessions.evictStale r.nowMs).opened r) r.toolResults

/-! ## What a call leaves of a session -/

variable {sessions : WireSessions} {r : WireRequest} {sid target : String} {nowMs : Int}
  {session : WireSession} {toolUses : List ToolUseEvent}

theorem lookup_evict_over_cap (h : sessions.evictOverCap.lookup sid = some session) :
    sessions.lookup sid = some session := by
  unfold evictOverCap at h
  split at h
  · split at h
    · rename_i oldest _
      by_cases heq : sid = oldest
      · subst heq
        rw [AList.lookup_erase] at h
        cases h
      · rwa [AList.lookup_erase_ne heq] at h
    · exact h
  · exact h

theorem lookup_record_request (h : (sessions.recordRequest r).lookup sid = some session) :
    sid = r.sessionId ∧ session = (sessions.evictStale r.nowMs).foldRequest r ∨
      sid ≠ r.sessionId ∧ sessions.lookup sid = some session := by
  have hinsert := lookup_evict_over_cap h
  by_cases heq : sid = r.sessionId
  · subst heq
    rw [AList.lookup_insert] at hinsert
    exact Or.inl ⟨rfl, (Option.some.inj hinsert).symm⟩
  · rw [AList.lookup_insert_ne heq] at hinsert
    exact Or.inr ⟨heq, (lookup_retain_some.mp hinsert).1⟩

theorem lookup_record_response
    (h : (sessions.recordResponseToolUses target nowMs toolUses).lookup sid = some session) :
    ∃ before, sessions.lookup sid = some before ∧
      (session = before ∨ sid = target ∧ session.tools =
        { before.tools with
          running := toolUses.foldl (insertRunning nowMs none) before.tools.running }) := by
  unfold recordResponseToolUses at h
  cases hentry : sessions.lookup target with
  | none =>
    rw [hentry] at h
    exact ⟨session, h, Or.inl rfl⟩
  | some entry =>
    rw [hentry] at h
    by_cases heq : sid = target
    · subst heq
      rw [AList.lookup_insert] at h
      obtain rfl := Option.some.inj h
      exact ⟨entry, hentry, Or.inr ⟨rfl, rfl⟩⟩
    · rw [AList.lookup_insert_ne heq] at h
      exact ⟨session, h, Or.inl rfl⟩

/-- The tallies of a session stand for the calls of its life, which is a suffix of a log. -/
def Tallied (sessions : WireSessions) (log : String → List FinishedCall) : Prop :=
  ∀ sid session, sessions.lookup sid = some session →
    ∃ life, life <:+ log sid ∧ session.tools.Tallies life

theorem tallies_default : ({} : ToolStats).Tallies [] where
  calls := rfl
  errors := rfl
  timeouts := rfl
  overOneMinute := rfl
  timeoutsByClass _ := rfl
  byTool _ := ⟨rfl, rfl, rfl⟩

theorem Tallied.fold_request {log : String → List FinishedCall} (h : sessions.Tallied log) :
    ∃ life, life <:+ log r.sessionId ++ sessions.closedBy r ∧
      ((sessions.evictStale r.nowMs).foldRequest r).tools.Tallies life := by
  set live := sessions.evictStale r.nowMs with hlive
  have hentry : ∃ life, life <:+ log r.sessionId ∧ (live.entryOf r).tools.Tallies life := by
    unfold entryOf
    cases hlookup : live.lookup r.sessionId with
    | none => exact ⟨[], List.nil_suffix, tallies_default⟩
    | some entry => exact h r.sessionId entry (lookup_retain_some.mp hlookup).1
  obtain ⟨life, ⟨past, hpast⟩, htallies⟩ := hentry
  refine ⟨life ++ sessions.closedBy r, ⟨past, ?_⟩, ?_⟩
  · rw [← hpast, List.append_assoc]
  · exact (htallies.with_running (live.opened r)).close_results

end WireSessions

/-! ## Runs -/

inductive WireOp
  | request (r : WireRequest)
  | response (sessionId : String) (nowMs : Int) (toolUses : List ToolUseEvent)

/-- The table, and the calls folded so far, by session. -/
structure WireRun where
  sessions : WireSessions := ∅
  finished : String → List FinishedCall := fun _ => []

namespace WireRun

def step (s : WireRun) : WireOp → WireRun
  | .request r =>
    { sessions := s.sessions.recordRequest r
      finished :=
        Function.update s.finished r.sessionId
          (s.finished r.sessionId ++ s.sessions.closedBy r) }
  | .response sessionId nowMs toolUses =>
    { s with sessions := s.sessions.recordResponseToolUses sessionId nowMs toolUses }

/-- The ids of the calls a session has folded. -/
def finishedIds (s : WireRun) (sid : String) : List String :=
  (s.finished sid).map FinishedCall.id

/-- No request brings the session a result for a call that it has folded and that stands open again
once the blocks of the request are in. -/
def NoReplay (sid : String) (s : WireRun) : WireOp → Prop
  | .request r => r.sessionId = sid → ∀ tr ∈ r.toolResults,
      tr.id ∈ s.finishedIds sid → tr.id ∉ (s.sessions.evictStale r.nowMs).opened r
  | .response _ _ _ => True

variable {s : WireRun} {sid : String} {op : WireOp}

theorem tallied_step (h : s.sessions.Tallied s.finished) :
    (s.step op).sessions.Tallied (s.step op).finished := by
  intro sid session hlookup
  cases op with
  | request r =>
    simp only [step] at hlookup ⊢
    rcases WireSessions.lookup_record_request hlookup with ⟨rfl, rfl⟩ | ⟨hne, hbefore⟩
    · rw [Function.update_self]
      exact h.fold_request
    · rw [Function.update_of_ne hne]
      exact h sid session hbefore
  | response sessionId nowMs toolUses =>
    obtain ⟨before, hbefore, hsame⟩ := WireSessions.lookup_record_response hlookup
    obtain ⟨life, hlife, htallies⟩ := h sid before hbefore
    refine ⟨life, hlife, ?_⟩
    rcases hsame with rfl | ⟨-, htools⟩
    · exact htallies
    · rw [htools]
      exact htallies.with_running _

theorem tallied_run (ops : List WireOp) :
    (exec step {} ops).sessions.Tallied (exec step {} ops).finished := by
  induction ops using List.reverseRecOn with
  | nil => exact fun sid session hlookup => nomatch hlookup
  | append_singleton ops op ih =>
    rw [exec_snoc]
    exact tallied_step ih

/-- One step appends to the ids, and repeats one exactly when it replays a call. -/
theorem nodup_step :
    ((s.step op).finishedIds sid).Nodup ↔ (s.finishedIds sid).Nodup ∧ NoReplay sid s op := by
  cases op with
  | response sessionId nowMs toolUses => exact ⟨fun h => ⟨h, trivial⟩, And.left⟩
  | request r =>
    by_cases heq : r.sessionId = sid
    · subst heq
      have hids : (s.step (.request r)).finishedIds r.sessionId =
          s.finishedIds r.sessionId ++ (s.sessions.closedBy r).map FinishedCall.id := by
        simp only [finishedIds, step, Function.update_self, List.map_append]
      rw [hids, List.nodup_append]
      constructor
      · rintro ⟨hbefore, -, hdisjoint⟩
        refine ⟨hbefore, fun _ tr htr hfinished hopen => ?_⟩
        refine hdisjoint tr.id hfinished tr.id ?_ rfl
        exact mem_ids_finished_by.mpr ⟨hopen, List.mem_map_of_mem htr⟩
      · rintro ⟨hbefore, hfresh⟩
        refine ⟨hbefore, nodup_ids_finished_by, fun id hid other hother hsame => ?_⟩
        subst hsame
        obtain ⟨hopen, hresult⟩ := mem_ids_finished_by.mp hother
        obtain ⟨tr, htr, rfl⟩ := List.mem_map.mp hresult
        exact hfresh rfl tr htr hid hopen
    · have hids : (s.step (.request r)).finishedIds sid = s.finishedIds sid := by
        simp only [finishedIds, step, Function.update_of_ne (Ne.symm heq)]
      rw [hids]
      exact ⟨fun h => ⟨h, fun hsid => absurd hsid heq⟩, And.left⟩

/-- Every count of a session is a count of the calls of its log, and the log has each id once exactly
in the runs that replay no folded call. -/
theorem tool_call_counted_once (ops : List WireOp) (sid : String) :
    (exec step {} ops).sessions.Tallied (exec step {} ops).finished ∧
      (((exec step {} ops).finishedIds sid).Nodup ↔ EachStep step (NoReplay sid) {} ops) := by
  refine ⟨tallied_run ops, ?_⟩
  induction ops using List.reverseRecOn with
  | nil => exact ⟨fun _ => each_step_nil, fun _ => List.nodup_nil⟩
  | append_singleton ops op ih =>
    rw [exec_snoc, nodup_step, ih, each_step_append, each_step_cons]
    exact ⟨fun h => ⟨h.1, h.2, each_step_nil⟩, fun h => ⟨h.1, h.2.1⟩⟩

/-- The first request of a session and a response that asks for a call; the next request brings the
block and the result, and is sent once more. -/
def resent : List WireOp :=
  let call : ToolUseEvent := ⟨"toolu_1", some "Bash", some "ls", some .other⟩
  let body : WireRequest := ⟨"s", none, none, 60000, [call], [⟨"toolu_1", false, false⟩]⟩
  [.request ⟨"s", none, none, 0, [], []⟩, .response "s" 1000 [call], .request body,
    .request { body with nowMs := 61000 }]

theorem resent_counted_twice :
    ¬((exec step {} resent).finishedIds "s").Nodup ∧
      ((exec step {} resent).sessions.lookup "s").map (fun session => session.tools.calls) =
        some 2 := by
  decide +kernel

/-! ## Clients that name no folded call again -/

/-- No block of the session opens a call that the session has folded. -/
def NamesOpen (sid : String) (s : WireRun) : WireOp → Prop
  | .request r => r.sessionId = sid →
      ∀ tu ∈ r.toolUses, tu.isTerminal = false → tu.id ∉ s.finishedIds sid
  | .response sessionId _ toolUses => sessionId = sid →
      ∀ tu ∈ toolUses, tu.isTerminal = false → tu.id ∉ s.finishedIds sid

/-- No call that the session has folded is running. -/
def Closed (sid : String) (s : WireRun) : Prop :=
  ∀ session, s.sessions.lookup sid = some session →
    ∀ id ∈ s.finishedIds sid, id ∉ session.tools.running

theorem Closed.not_opened {r : WireRequest} (h : Closed r.sessionId s)
    (hnames : NamesOpen r.sessionId s (.request r)) {id : String}
    (hid : id ∈ s.finishedIds r.sessionId) :
    id ∉ (s.sessions.evictStale r.nowMs).opened r := by
  intro hopen
  rcases mem_inserted hopen with hrunning | ⟨tu, htu, rfl, hterminal⟩
  · rw [WireSessions.entryOf] at hrunning
    cases hlookup : (s.sessions.evictStale r.nowMs).lookup r.sessionId with
    | none =>
      rw [hlookup] at hrunning
      exact absurd hrunning (AList.notMem_empty id)
    | some entry =>
      rw [hlookup] at hrunning
      exact h entry (lookup_retain_some.mp hlookup).1 id hid hrunning
  · exact hnames rfl tu htu hterminal hid

theorem closed_step (h : Closed sid s) (hnames : NamesOpen sid s op) : Closed sid (s.step op) := by
  intro session hlookup id hid hrunning
  cases op with
  | request r =>
    rcases WireSessions.lookup_record_request hlookup with ⟨rfl, rfl⟩ | ⟨hne, hbefore⟩
    · obtain ⟨hopen, hresult⟩ := mem_running_closed.mp hrunning
      simp only [finishedIds, step, Function.update_self, List.map_append, List.mem_append] at hid
      rcases hid with hpast | hnow
      · exact h.not_opened hnames hpast hopen
      · exact hresult (mem_ids_finished_by.mp hnow).2
    · simp only [finishedIds, step, Function.update_of_ne hne] at hid
      exact h session hbefore id hid hrunning
  | response sessionId nowMs toolUses =>
    obtain ⟨before, hbefore, hsame⟩ := WireSessions.lookup_record_response hlookup
    rcases hsame with rfl | ⟨rfl, htools⟩
    · exact h session hbefore id hid hrunning
    · rw [htools] at hrunning
      rcases mem_inserted hrunning with hpast | ⟨tu, htu, rfl, hterminal⟩
      · exact h before hbefore id hid hpast
      · exact hnames rfl tu htu hterminal hid

/-- Where no block opens a folded call again, no request replays one. -/
theorem no_replay_of_names_open {ops : List WireOp}
    (hnames : EachStep step (NamesOpen sid) {} ops) : EachStep step (NoReplay sid) {} ops := by
  refine each_step_of_invariant (fun s op hclosed hop => closed_step hclosed hop)
    (fun s op hclosed hop => ?_) (fun session hlookup => nomatch hlookup) hnames
  cases op with
  | request r =>
    rintro rfl tr - hfinished
    exact hclosed.not_opened hop hfinished
  | response sessionId nowMs toolUses => trivial

end WireRun

end TeamClaude
