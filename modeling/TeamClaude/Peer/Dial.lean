import TeamClaude.Peer.DialOrder
import TeamClaude.Peer.DialRace

/-!
# Dialling a peer

A dial races the direct endpoints its order begins with, tries the rest one by one, asks the dead
drop for fresher ones, and only then punches or asks another Mac to carry the stream. Another Mac is
dialled at its direct endpoints alone. What was refused on the way cools down for every later dial,
and what answered cools no longer.
-/

namespace TeamClaude

open Lib

/-- `CONNECTION_ATTEMPT_DELAY`, in milliseconds. -/
def connectionAttemptDelay : Nat := 250

/-- How a peer was reached. `direct` has the endpoint that answered; the port that did may be the
pair's rendezvous port. -/
inductive Reached
  | direct (endpoint : Endpoint)
  | via (node : PeerId)
  | punched (addr : Net.SocketAddr)
  deriving DecidableEq

/-- `Locator::Direct` -/
def Endpoint.isDirect (endpoint : Endpoint) : Bool :=
  match endpoint.locator with
  | .direct _ => true
  | _ => false

/-- What a dial tells the path table: `cool_down` and `clear_cooldown`. -/
inductive PathNote
  | refused (peer : PeerId) (locator : Locator) (nowMs : Int)
  | cleared (peer : PeerId) (locator : Locator)
  deriving DecidableEq

def PathNote.path : PathNote → PeerId × Locator
  | .refused peer locator _ => (peer, locator)
  | .cleared peer locator => (peer, locator)

namespace PathTable

def note (table : PathTable) : PathNote → PathTable
  | .refused peer locator nowMs => table.noteFailure peer locator nowMs
  | .cleared peer locator => table.clearCooldown peer locator

/-- The table after what a dial told it, in order. -/
def noted (table : PathTable) (notes : List PathNote) : PathTable :=
  exec note table notes

end PathTable

/-- What a race leaves behind: its refusals, each at its instant, and its winner. -/
def RaceOutcome.notes (outcome : RaceOutcome Endpoint) (peer : PeerId)
    (refusedMs : Endpoint → Int) : List PathNote :=
  (outcome.failed.map fun endpoint => .refused peer endpoint.locator (refusedMs endpoint)) ++
    outcome.won.toList.map fun endpoint => .cleared peer endpoint.locator

/-- A dial of a row's direct endpoints alone: when it reads its order, how its race goes, and when
the refusals are noted. -/
structure DirectDial where
  nowMs : Int
  race : List (RaceAct Endpoint)
  refusedMs : Endpoint → Int

/-- `dial_peer_within`: the endpoint that answered, and what the table was told. -/
def dialPeerWithin (row : DialRow) (dial : DirectDial) (table : PathTable) :
    Option Endpoint × List PathNote :=
  let candidates := (dialOrder row table dial.nowMs).filter Endpoint.isDirect
  let outcome := (DialRace.race candidates connectionAttemptDelay dial.race).outcome
  (outcome.won, outcome.notes row.node dial.refusedMs)

/-- What asking another Mac to carry meets: the peers file, whether there is a key to dial with, the
dial of that Mac, and whether the handshake and the header got through to it. -/
structure Carry where
  file : List DialRow
  keyed : Bool
  dial : DirectDial
  opened : Bool

/-- `forward_through`, with `open_forward_to` -/
def forwardThrough (carry : Carry) (forwarder target : PeerId) (table : PathTable) :
    Bool × List PathNote :=
  match carry.file.find? fun row => row.node = forwarder with
  | none => (false, [])
  | some row =>
    if !carry.keyed then (false, [])
    else if row.node = target then (false, [])
    else
      let dialled := dialPeerWithin row carry.dial table
      (dialled.1.isSome && carry.opened, dialled.2)

/-- What the dead drop had: the endpoints it wrote, the peers file read back after them, and the
dial of the fresh row's direct endpoints. -/
structure Fetched where
  written : List Endpoint
  file : List DialRow
  dial : DirectDial

/-- One dial of a peer, with what the network and the clock make of it. -/
structure Dial where
  row : DialRow
  nowMs : Int
  /-- The race of the leading run, and the instants its refusals are noted at. -/
  leading : List (RaceAct Endpoint)
  leadingMs : Endpoint → Int
  /-- What a direct endpoint of the rest answers, how another one is carried, and when a refusal is
  noted. -/
  answers : Endpoint → Bool
  carried : Endpoint → Carry
  refusedMs : Endpoint → Int
  fetched : Option Fetched
  punched : Option Net.SocketAddr
  forwarders : List PeerId
  carries : PeerId → Carry

def clearCooldownsForFetch (peer : PeerId) (written : List Endpoint) : List PathNote :=
  written.map fun endpoint => .cleared peer endpoint.locator

namespace Dial

/-- The stream an endpoint of the rest gives. -/
def reachedBy (endpoint : Endpoint) : Reached :=
  match endpoint.locator with
  | .direct _ => .direct endpoint
  | .via node => .via node
  | .reverse node => .via node

def leadingRun (dial : Dial) (table : PathTable) : List Endpoint :=
  (dialOrder dial.row table dial.nowMs).takeWhile Endpoint.isDirect

/-- What is left of the order behind it. -/
def rest (dial : Dial) (table : PathTable) : List Endpoint :=
  (dialOrder dial.row table dial.nowMs).dropWhile Endpoint.isDirect

def ask (dial : Dial) (endpoint : Endpoint) (table : PathTable) : Bool × List PathNote :=
  match endpoint.locator with
  | .direct _ => (dial.answers endpoint, [])
  | .via node => forwardThrough (dial.carried endpoint) node dial.row.node table
  | .reverse node => forwardThrough (dial.carried endpoint) node dial.row.node table

def tryRest (dial : Dial) : List Endpoint → PathTable → Option Endpoint × List PathNote
  | [], _ => (none, [])
  | endpoint :: rest, table =>
    let asked := dial.ask endpoint table
    if asked.1 then (some endpoint, asked.2 ++ [.cleared dial.row.node endpoint.locator])
    else
      let notes := asked.2 ++ [.refused dial.row.node endpoint.locator (dial.refusedMs endpoint)]
      let tried := dial.tryRest rest (table.noted notes)
      (tried.1, notes ++ tried.2)

/-- The dead drop and the race of what the fresh row holds. -/
def tryFetched (dial : Dial) (table : PathTable) : Option Endpoint × List PathNote :=
  match dial.fetched with
  | none => (none, [])
  | some fetched =>
    let cleared := clearCooldownsForFetch dial.row.node fetched.written
    match fetched.file.find? fun row => row.node = dial.row.node with
    | none => (none, cleared)
    | some fresh =>
      let dialled := dialPeerWithin fresh fetched.dial (table.noted cleared)
      (dialled.1, cleared ++ dialled.2)

def lead (dial : Dial) (table : PathTable) : RaceOutcome Endpoint :=
  (DialRace.race (dial.leadingRun table) connectionAttemptDelay dial.leading).outcome

/-- What the race of the leading run tells the table. -/
def led (dial : Dial) (table : PathTable) : List PathNote :=
  (dial.lead table).notes dial.row.node dial.leadingMs

def tryRow (dial : Dial) (table : PathTable) : Option Endpoint × List PathNote :=
  match (dial.lead table).won with
  | some endpoint => (some endpoint, dial.led table)
  | none =>
    let tried := dial.tryRest (dial.rest table) (table.noted (dial.led table))
    let notes := dial.led table ++ tried.2
    match tried.1 with
    | some endpoint => (some endpoint, notes)
    | none =>
      let fetched := dial.tryFetched (table.noted notes)
      (fetched.1, notes ++ fetched.2)

/-- The loop over the Macs this node may ask to carry. -/
def tryForwarders (dial : Dial) : List PeerId → PathTable → Option PeerId × List PathNote
  | [], _ => (none, [])
  | forwarder :: rest, table =>
    let asked := forwardThrough (dial.carries forwarder) forwarder dial.row.node table
    if asked.1 then (some forwarder, asked.2)
    else
      let tried := dial.tryForwarders rest (table.noted asked.2)
      (tried.1, asked.2 ++ tried.2)

def dialPeerReachingWithin (dial : Dial) (table : PathTable) : Option Reached × List PathNote :=
  let tried := dial.tryRow table
  match tried.1 with
  | some endpoint => (some (reachedBy endpoint), tried.2)
  | none =>
    match dial.punched with
    | some addr => (some (.punched addr), tried.2)
    | none =>
      let carried := dial.tryForwarders dial.forwarders (table.noted tried.2)
      (carried.1.map .via, tried.2 ++ carried.2)

end Dial

/-! ## Runs of dials -/

/-- What happens to the path table: a peer is dialled at its direct endpoints alone, or in every way
there is, or a probe measures paths. -/
inductive DialAct
  | within (row : DialRow) (dial : DirectDial)
  | reaching (dial : Dial)
  | record (stat : PeerId → Locator → Option PathStat)

namespace Dial

def notes (table : PathTable) : DialAct → List PathNote
  | .within row dial => (dialPeerWithin row dial table).2
  | .reaching dial => (dial.dialPeerReachingWithin table).2
  | .record _ => []

def step (table : PathTable) (act : DialAct) : PathTable :=
  match act with
  | .record stat => { table with stat }
  | act => table.noted (notes table act)

/-- The instant a refusal cools its path till. -/
def coolsTill (refusedMs : Int) : Int :=
  saturatingAdd refusedMs pathRetryCooldownMs

variable {act : DialAct} {dial : Dial} {table : PathTable} {row : DialRow} {peer : PeerId}
  {locator : Locator} {refusedMs untilMs : Int}

/-! ## What was asked -/

/-- A race of direct endpoints of the row was refused on the path, and notes it at the instant. -/
def RaceRefused (row : DialRow) (race : List (RaceAct Endpoint)) (noted : Endpoint → Int)
    (locator : Locator) (refusedMs : Int) : Prop :=
  ∃ candidates endpoint, candidates ⊆ row.endpoints ∧ endpoint.locator = locator ∧
    endpoint ∈ (DialRace.race candidates connectionAttemptDelay race).outcome.failed ∧
    RaceAct.answer endpoint false ∈ race ∧ refusedMs = noted endpoint

/-- The endpoint had its turn in the rest, with the leading race lost and those before it refused,
and did not answer. -/
def RestRefused (dial : Dial) (table : PathTable) (endpoint : Endpoint) : Prop :=
  (dial.lead table).won = none ∧ ∃ before after, dial.rest table = before ++ endpoint :: after ∧
    let tried := dial.tryRest before (table.noted (dial.led table))
    tried.1 = none ∧ (dial.ask endpoint (table.noted (dial.led table ++ tried.2))).1 = false

inductive Asks (dial : Dial) (forwarder : PeerId) : Carry → Prop
  | via (endpoint : Endpoint) (named : endpoint ∈ dial.row.endpoints)
      (path : endpoint.locator = .via forwarder ∨ endpoint.locator = .reverse forwarder) :
      Asks dial forwarder (dial.carried endpoint)
  | last (named : forwarder ∈ dial.forwarders) : Asks dial forwarder (dial.carries forwarder)

inductive Refused (table : PathTable) (locator : Locator) (refusedMs : Int) :
    DialAct → PeerId → Prop
  | within (row : DialRow) (dial : DirectDial)
      (raced : RaceRefused row dial.race dial.refusedMs locator refusedMs) :
      Refused table locator refusedMs (.within row dial) row.node
  | leading (dial : Dial)
      (raced : RaceRefused dial.row dial.leading dial.leadingMs locator refusedMs) :
      Refused table locator refusedMs (.reaching dial) dial.row.node
  | rest (dial : Dial) (endpoint : Endpoint) (path : endpoint.locator = locator)
      (asked : RestRefused dial table endpoint) (at_ : refusedMs = dial.refusedMs endpoint) :
      Refused table locator refusedMs (.reaching dial) dial.row.node
  | fetched (dial : Dial) (fetched : Fetched) (had : dial.fetched = some fetched) (fresh : DialRow)
      (found : fetched.file.find? (fun row => row.node = dial.row.node) = some fresh)
      (raced : RaceRefused fresh fetched.dial.race fetched.dial.refusedMs locator refusedMs) :
      Refused table locator refusedMs (.reaching dial) dial.row.node
  | carrier (dial : Dial) (forwarder : PeerId) (carry : Carry) (asked : Asks dial forwarder carry)
      (row : DialRow) (found : carry.file.find? (fun row => row.node = forwarder) = some row)
      (raced : RaceRefused row carry.dial.race carry.dial.refusedMs locator refusedMs) :
      Refused table locator refusedMs (.reaching dial) forwarder

theorem failed_refused {candidates : List Endpoint} {race : List (RaceAct Endpoint)}
    {endpoint : Endpoint}
    (h : endpoint ∈ (DialRace.race candidates connectionAttemptDelay race).outcome.failed) :
    RaceAct.answer endpoint false ∈ race := by
  refine DialRace.failed_answered candidates connectionAttemptDelay race endpoint ?_
  unfold DialRace.outcome at h
  split at h
  · exact h
  · exact h
  · cases h

theorem race_refused {candidates : List Endpoint} {race : List (RaceAct Endpoint)} {node : PeerId}
    {noted : Endpoint → Int} (hrow : candidates ⊆ row.endpoints)
    (h : .refused peer locator refusedMs ∈
      (DialRace.race candidates connectionAttemptDelay race).outcome.notes node noted) :
    peer = node ∧ RaceRefused row race noted locator refusedMs := by
  rcases List.mem_append.mp h with hfailed | hwon
  · obtain ⟨endpoint, hin, heq⟩ := List.mem_map.mp hfailed
    cases heq
    exact ⟨rfl, candidates, endpoint, hrow, rfl, hin, failed_refused hin, rfl⟩
  · obtain ⟨endpoint, -, heq⟩ := List.mem_map.mp hwon
    cases heq

theorem order_subset (row : DialRow) (table : PathTable) (nowMs : Int) :
    dialOrder row table nowMs ⊆ row.endpoints :=
  fun _ hin => (mem_dial_order.mp hin).1

theorem within_refused {direct : DirectDial}
    (h : .refused peer locator refusedMs ∈ (dialPeerWithin row direct table).2) :
    peer = row.node ∧ RaceRefused row direct.race direct.refusedMs locator refusedMs :=
  race_refused (fun _ hin => order_subset _ _ _ (List.mem_of_mem_filter hin)) h

theorem forward_refused {carry : Carry} {forwarder target : PeerId}
    (h : .refused peer locator refusedMs ∈ (forwardThrough carry forwarder target table).2) :
    peer = forwarder ∧ ∃ row, carry.file.find? (fun row => row.node = forwarder) = some row ∧
      RaceRefused row carry.dial.race carry.dial.refusedMs locator refusedMs := by
  unfold forwardThrough at h
  split at h
  · cases h
  · rename_i row hfound
    split at h
    · cases h
    · split at h
      · cases h
      · obtain ⟨rfl, hraced⟩ := within_refused h
        have hnode : row.node = forwarder := by simpa using List.find?_some hfound
        exact ⟨hnode, row, hfound, hraced⟩

theorem ask_refused {endpoint : Endpoint} (hin : endpoint ∈ dial.row.endpoints)
    {start : PathTable} (h : .refused peer locator refusedMs ∈ (dial.ask endpoint table).2) :
    Refused start locator refusedMs (.reaching dial) peer := by
  unfold ask at h
  split at h
  · cases h
  · rename_i node hpath
    obtain ⟨rfl, row, hfound, hraced⟩ := forward_refused h
    exact .carrier dial peer _ (.via endpoint hin (.inl hpath)) row hfound hraced
  · rename_i node hpath
    obtain ⟨rfl, row, hfound, hraced⟩ := forward_refused h
    exact .carrier dial peer _ (.via endpoint hin (.inr hpath)) row hfound hraced

theorem try_rest_answered {first : Endpoint} (rest : List Endpoint)
    (h : (dial.ask first table).1 = true) : dial.tryRest (first :: rest) table =
      (some first, (dial.ask first table).2 ++ [.cleared dial.row.node first.locator]) := by
  simp only [tryRest, if_pos h]

theorem try_rest_refused {first : Endpoint} (rest : List Endpoint)
    (h : (dial.ask first table).1 = false) : dial.tryRest (first :: rest) table =
      let told := (dial.ask first table).2 ++
        [.refused dial.row.node first.locator (dial.refusedMs first)]
      let tried := dial.tryRest rest (table.noted told)
      (tried.1, told ++ tried.2) := by
  simp only [tryRest, h, Bool.false_eq_true, if_false]

/-- A refusal noted by the loop is that of an endpoint that had its turn, or was noted on the way to
a Mac asked to carry. -/
theorem rest_refused {rest : List Endpoint}
    (h : .refused peer locator refusedMs ∈ (dial.tryRest rest table).2) :
    (∃ endpoint ∈ rest, ∃ at_, .refused peer locator refusedMs ∈ (dial.ask endpoint at_).2) ∨
      (peer = dial.row.node ∧ ∃ before endpoint after, rest = before ++ endpoint :: after ∧
        endpoint.locator = locator ∧ refusedMs = dial.refusedMs endpoint ∧
        (dial.tryRest before table).1 = none ∧
        (dial.ask endpoint (table.noted (dial.tryRest before table).2)).1 = false) := by
  induction rest generalizing table with
  | nil => cases h
  | cons first rest ih =>
    cases hfirst : (dial.ask first table).1 with
    | true =>
      rw [try_rest_answered rest hfirst] at h
      rcases List.mem_append.mp h with hinner | hclear
      · exact .inl ⟨first, List.mem_cons_self, _, hinner⟩
      · cases List.mem_singleton.mp hclear
    | false =>
      rw [try_rest_refused rest hfirst] at h
      rcases List.mem_append.mp h with htold | hrest
      · rcases List.mem_append.mp htold with hinner | hnote
        · exact .inl ⟨first, List.mem_cons_self, _, hinner⟩
        · cases List.mem_singleton.mp hnote
          exact .inr ⟨rfl, [], first, rest, rfl, rfl, rfl, rfl, hfirst⟩
      · rcases ih hrest with ⟨endpoint, hin, hinner⟩ | ⟨rfl, before, endpoint, after, rfl, hturn⟩
        · exact .inl ⟨endpoint, List.mem_cons_of_mem _ hin, hinner⟩
        · obtain ⟨hpath, hat, hpassed, hasked⟩ := hturn
          refine .inr ⟨rfl, first :: before, endpoint, after, rfl, hpath, hat, ?_, ?_⟩
          · rw [try_rest_refused before hfirst]
            exact hpassed
          · rw [try_rest_refused before hfirst, PathTable.noted, exec_append]
            exact hasked

theorem fetched_refused {start : PathTable}
    (h : .refused peer locator refusedMs ∈ (dial.tryFetched table).2) :
    Refused start locator refusedMs (.reaching dial) peer := by
  have hcleared (written : List Endpoint) :
      .refused peer locator refusedMs ∉ clearCooldownsForFetch dial.row.node written := by
    intro hin
    obtain ⟨endpoint, -, heq⟩ := List.mem_map.mp hin
    cases heq
  unfold tryFetched at h
  split at h
  · cases h
  · rename_i fetched hfetched
    dsimp only at h
    split at h
    · exact absurd h (hcleared _)
    · rename_i fresh hfresh
      rcases List.mem_append.mp h with hwritten | hraced
      · exact absurd hwritten (hcleared _)
      · obtain ⟨rfl, hrefused⟩ := within_refused hraced
        have hnode : fresh.node = dial.row.node := by simpa using List.find?_some hfresh
        rw [hnode]
        exact .fetched dial fetched hfetched fresh hfresh hrefused

theorem led_refused (h : .refused peer locator refusedMs ∈ dial.led table) {start : PathTable} :
    Refused start locator refusedMs (.reaching dial) peer := by
  have hrow : dial.leadingRun table ⊆ dial.row.endpoints :=
    fun _ hin => order_subset _ _ _ ((List.takeWhile_prefix _).subset hin)
  obtain ⟨rfl, hraced⟩ := race_refused hrow h
  exact .leading dial hraced

theorem row_refused (h : .refused peer locator refusedMs ∈ (dial.tryRow table).2) :
    Refused table locator refusedMs (.reaching dial) peer := by
  unfold tryRow at h
  split at h
  · exact led_refused h
  · rename_i hlost
    have hrest (hin : .refused peer locator refusedMs ∈ dial.led table ++
        (dial.tryRest (dial.rest table) (table.noted (dial.led table))).2) :
        Refused table locator refusedMs (.reaching dial) peer := by
      rcases List.mem_append.mp hin with hled | hrest
      · exact led_refused hled
      · rcases rest_refused hrest with
          ⟨endpoint, hin, at_, hinner⟩ | ⟨rfl, before, endpoint, after, horder, hpath, hat, hturn⟩
        · have hrow : endpoint ∈ dial.row.endpoints :=
            order_subset _ _ _ ((List.dropWhile_suffix _).subset hin)
          exact ask_refused hrow hinner
        · refine .rest dial endpoint hpath ⟨hlost, before, after, horder, hturn.1, ?_⟩ hat
          rw [PathTable.noted, exec_append]
          exact hturn.2
    dsimp only at h
    split at h
    · exact hrest h
    · rcases List.mem_append.mp h with htried | hfetched
      · exact hrest htried
      · exact fetched_refused hfetched

theorem forwarders_refused {forwarders : List PeerId} (hall : forwarders ⊆ dial.forwarders)
    {start : PathTable}
    (h : .refused peer locator refusedMs ∈ (dial.tryForwarders forwarders table).2) :
    Refused start locator refusedMs (.reaching dial) peer := by
  induction forwarders generalizing table with
  | nil => cases h
  | cons first rest ih =>
    obtain ⟨hfirst, hrest⟩ := List.cons_subset.mp hall
    have hinner (hin : .refused peer locator refusedMs ∈
        (forwardThrough (dial.carries first) first dial.row.node table).2) :
        Refused start locator refusedMs (.reaching dial) peer := by
      obtain ⟨rfl, row, hfound, hraced⟩ := forward_refused hin
      exact .carrier dial peer _ (.last hfirst) row hfound hraced
    unfold tryForwarders at h
    dsimp only at h
    split at h
    · exact hinner h
    · rcases List.mem_append.mp h with hin | hin
      · exact hinner hin
      · exact ih hrest hin

theorem reaching_refused
    (h : .refused peer locator refusedMs ∈ (dial.dialPeerReachingWithin table).2) :
    Refused table locator refusedMs (.reaching dial) peer := by
  unfold dialPeerReachingWithin at h
  dsimp only at h
  split at h
  · exact row_refused h
  · split at h
    · exact row_refused h
    · rcases List.mem_append.mp h with hrow | hcarried
      · exact row_refused hrow
      · exact forwarders_refused (List.Subset.refl _) hcarried

theorem noted_refused (h : .refused peer locator refusedMs ∈ notes table act) :
    Refused table locator refusedMs act peer := by
  cases act with
  | within row direct =>
    obtain ⟨rfl, hraced⟩ := within_refused h
    exact .within row direct hraced
  | reaching dial => exact reaching_refused h
  | record stat => cases h

/-! ## What answered -/

/-- The act got the peer's stream through the path. -/
def Answered (peer : PeerId) (locator : Locator) (table : PathTable) : DialAct → Prop
  | .within row dial => row.node = peer ∧
      ∃ endpoint, (dialPeerWithin row dial table).1 = some endpoint ∧ endpoint.locator = locator
  | .reaching dial => dial.row.node = peer ∧
      ∃ endpoint, (dial.tryRow table).1 = some endpoint ∧ endpoint.locator = locator
  | .record _ => False

theorem race_answered {outcome : RaceOutcome Endpoint} {endpoint : Endpoint}
    (hwon : outcome.won = some endpoint) (node : PeerId) (noted : Endpoint → Int) :
    (outcome.notes node noted).getLast? = some (.cleared node endpoint.locator) := by
  simp [RaceOutcome.notes, hwon]

theorem within_answered {direct : DirectDial} {endpoint : Endpoint}
    (h : (dialPeerWithin row direct table).1 = some endpoint) :
    (dialPeerWithin row direct table).2.getLast? = some (.cleared row.node endpoint.locator) :=
  race_answered h _ _

theorem last_append {told more : List PathNote} {note : PathNote} (h : more.getLast? = some note) :
    (told ++ more).getLast? = some note := by
  rw [List.getLast?_append, h]
  rfl

theorem rest_answered {rest : List Endpoint} {endpoint : Endpoint}
    (h : (dial.tryRest rest table).1 = some endpoint) :
    (dial.tryRest rest table).2.getLast? = some (.cleared dial.row.node endpoint.locator) := by
  induction rest generalizing table with
  | nil => cases h
  | cons first rest ih =>
    cases hfirst : (dial.ask first table).1 with
    | true =>
      rw [try_rest_answered rest hfirst] at h ⊢
      obtain rfl := Option.some.inj h
      exact List.getLast?_concat
    | false =>
      rw [try_rest_refused rest hfirst] at h ⊢
      exact last_append (ih h)

theorem fetched_answered {endpoint : Endpoint} (h : (dial.tryFetched table).1 = some endpoint) :
    (dial.tryFetched table).2.getLast? = some (.cleared dial.row.node endpoint.locator) := by
  unfold tryFetched at h ⊢
  split
  · rename_i hnone
    rw [hnone] at h
    cases h
  · rename_i fetched hfetched
    rw [hfetched] at h
    dsimp only at h ⊢
    split
    · rename_i hnone
      rw [hnone] at h
      cases h
    · rename_i fresh hfresh
      rw [hfresh] at h
      have hnode : fresh.node = dial.row.node := by simpa using List.find?_some hfresh
      rw [← hnode] at h ⊢
      exact last_append (within_answered h)

theorem row_answered {endpoint : Endpoint} (h : (dial.tryRow table).1 = some endpoint) :
    (dial.tryRow table).2.getLast? = some (.cleared dial.row.node endpoint.locator) := by
  unfold tryRow at h ⊢
  split at h
  · rename_i won hwon
    obtain rfl := Option.some.inj h
    exact race_answered hwon _ _
  · dsimp only at h ⊢
    split at h
    · rename_i tried htried
      obtain rfl := Option.some.inj h
      exact last_append (rest_answered htried)
    · exact last_append (fetched_answered h)

theorem answered_last (h : Answered peer locator table act) :
    (notes table act).getLast? = some (.cleared peer locator) := by
  cases act with
  | within row direct =>
    obtain ⟨rfl, endpoint, hanswer, rfl⟩ := h
    exact within_answered hanswer
  | reaching dial =>
    obtain ⟨rfl, endpoint, hanswer, rfl⟩ := h
    have hnotes : notes table (.reaching dial) = (dial.tryRow table).2 := by
      unfold notes dialPeerReachingWithin
      simp only [hanswer]
    rw [hnotes]
    exact row_answered hanswer
  | record stat => cases h

/-! ## What a run leaves in the table -/

/-- None of the notes is of the path. -/
def Silent (peer : PeerId) (locator : Locator) (told : List PathNote) : Prop :=
  ∀ note ∈ told, note.path ≠ (peer, locator)

theorem till_note (table : PathTable) (note : PathNote) :
    (table.note note).till peer locator =
      if note.path = (peer, locator) then
        match note with
        | .refused _ _ refusedMs => some (coolsTill refusedMs)
        | .cleared _ _ => none
      else table.till peer locator := by
  cases note with
  | refused other path refusedMs =>
    rw [PathTable.note, PathTable.noteFailure, PathTable.till_cool_down]
    exact if_congr eq_comm rfl rfl
  | cleared other path =>
    rw [PathTable.note, PathTable.till_clear_cooldown]
    exact if_congr eq_comm rfl rfl

/-- A cooldown was there before the notes, or is that of the last of them on the path. -/
theorem till_noted (told : List PathNote)
    (htill : (table.noted told).till peer locator = some untilMs) :
    (table.till peer locator = some untilMs ∧ Silent peer locator told) ∨
      ∃ before refusedMs since, told = before ++ .refused peer locator refusedMs :: since ∧
        untilMs = coolsTill refusedMs ∧ Silent peer locator since := by
  have hnone : Silent peer locator [] := fun note hin => absurd hin List.not_mem_nil
  induction told using List.reverseRecOn with
  | nil => exact .inl ⟨htill, hnone⟩
  | append_singleton told note ih =>
    rw [PathTable.noted, exec_snoc, till_note] at htill
    split at htill
    · rename_i hpath
      cases note with
      | refused other path refusedMs =>
        obtain ⟨rfl, rfl⟩ := Prod.mk.inj hpath
        exact .inr ⟨told, refusedMs, [], rfl, (Option.some.inj htill).symm, hnone⟩
      | cleared other path => cases htill
    · rename_i hpath
      have hsilent {told : List PathNote} (h : Silent peer locator told) :
          Silent peer locator (told ++ [note]) :=
        List.forall_mem_append.mpr ⟨h, List.forall_mem_singleton.mpr hpath⟩
      rcases ih htill with ⟨hold, hquiet⟩ | ⟨before, refusedMs, since, rfl, hat, hquiet⟩
      · exact .inl ⟨hold, hsilent hquiet⟩
      · exact .inr ⟨before, refusedMs, since ++ [note], by simp, hat, hsilent hquiet⟩

theorem distinct_noted (h : table.Distinct) (told : List PathNote) :
    (table.noted told).Distinct := by
  refine exec_invariant (A := fun _ _ => True) (fun table note hd _ => ?_) h (fun _ _ _ => trivial)
    told (List.prefix_refl _)
  cases note with
  | refused peer locator refusedMs => exact hd.cool_down _ _ _
  | cleared peer locator => exact hd.clear_cooldown _ _

/-- An act changes the cooldowns by what it tells, and by nothing else. -/
theorem step_cooldowns (table : PathTable) (act : DialAct) :
    (step table act).cooldowns = (table.noted (notes table act)).cooldowns := by
  cases act <;> rfl

theorem distinct_run (h : table.Distinct) (acts : List DialAct) :
    (exec step table acts).Distinct := by
  refine exec_invariant (A := fun _ _ => True) (fun table act hd _ => ?_) h (fun _ _ _ => trivial)
    acts (List.prefix_refl _)
  have hnoted := distinct_noted hd (notes table act)
  unfold PathTable.Distinct at hnoted ⊢
  rwa [step_cooldowns]

/-- No act of the run told anything of the path, nor got its stream through it. -/
def Untouched (peer : PeerId) (locator : Locator) (table : PathTable) (acts : List DialAct) :
    Prop :=
  EachStep step (fun table act => Silent peer locator (notes table act) ∧
    ¬ Answered peer locator table act) table acts

theorem silent_unanswered (h : Silent peer locator (notes table act)) :
    ¬ Answered peer locator table act :=
  fun hanswer => h _ (List.mem_of_getLast? (answered_last hanswer)) rfl

/-- An act of the run was refused on the path, the last it told of it; the path cools for a cooldown
from there, and neither that act nor a later one got its stream through it. -/
def RefusedSince (peer : PeerId) (locator : Locator) (untilMs : Int) (table : PathTable)
    (acts : List DialAct) : Prop :=
  ∃ before act after refusedMs, acts = before ++ act :: after ∧
    Refused (exec step table before) locator refusedMs act peer ∧ untilMs = coolsTill refusedMs ∧
    (∃ told since, notes (exec step table before) act =
      told ++ .refused peer locator refusedMs :: since ∧ Silent peer locator since) ∧
    ¬ Answered peer locator (exec step table before) act ∧
    Untouched peer locator (exec step table (before ++ [act])) after

theorem refused_unanswered {before since : List PathNote}
    (htold : notes table act = before ++ .refused peer locator refusedMs :: since)
    (hsilent : Silent peer locator since) : ¬ Answered peer locator table act := by
  intro hanswer
  have hlast := answered_last hanswer
  rw [htold, List.getLast?_append, List.getLast?_cons] at hlast
  cases hsince : since.getLast? with
  | none =>
    rw [hsince] at hlast
    cases hlast
  | some last =>
    rw [hsince] at hlast
    cases hlast
    exact hsilent _ (List.mem_of_getLast? hsince) rfl

theorem till_run (table : PathTable) (acts : List DialAct)
    (htill : (exec step table acts).till peer locator = some untilMs) :
    table.till peer locator = some untilMs ∨ RefusedSince peer locator untilMs table acts := by
  induction acts using List.reverseRecOn with
  | nil => exact .inl htill
  | append_singleton acts act ih =>
    have hnoted : ((exec step table acts).noted (notes (exec step table acts) act)).till peer
        locator = some untilMs := by
      rw [exec_snoc, PathTable.till, step_cooldowns] at htill
      exact htill
    rcases till_noted _ hnoted with ⟨hold, hsilent⟩ | ⟨told, refusedMs, since, htold, hat, hsilent⟩
    · rcases ih hold with
        hfirst | ⟨before, first, after, refusedMs, rfl, hrefused, hat, hlast, hno, hquiet⟩
      · exact .inl hfirst
      · have hsplit : before ++ first :: after ++ [act] = before ++ first :: (after ++ [act]) := by
          simp
        have hlater : Untouched peer locator (exec step table (before ++ [first]))
            (after ++ [act]) := by
          refine each_step_append.mpr ⟨hquiet, each_step_cons.mpr ⟨?_, each_step_nil⟩⟩
          rw [← exec_append, List.append_assoc]
          exact ⟨hsilent, silent_unanswered hsilent⟩
        exact .inr ⟨before, first, _, refusedMs, hsplit, hrefused, hat, hlast, hno, hlater⟩
    · have hin : .refused peer locator refusedMs ∈ notes (exec step table acts) act := by
        rw [htold]
        exact List.mem_append_right _ List.mem_cons_self
      exact .inr ⟨acts, act, [], refusedMs, rfl, noted_refused hin, hat,
        ⟨told, since, htold, hsilent⟩, refused_unanswered htold hsilent, each_step_nil⟩

def localEndpoint (port : UInt16) : Endpoint :=
  .direct (.v4 ⟨127, 0, 0, 1⟩ port) 0 .paired

/-- A dial of one endpoint that is refused, and then of another Mac that is refused too. -/
def refusedDial : Dial :=
  { row := { node := 1, endpoints := [localEndpoint 1] }
    nowMs := 0
    leading := [.answer (localEndpoint 1) false]
    leadingMs := fun _ => 300
    answers := fun _ => true
    carried := fun _ => { file := [], keyed := false, dial := ⟨0, [], fun _ => 0⟩, opened := false }
    refusedMs := fun _ => 0
    fetched := none
    punched := none
    forwarders := [2]
    carries := fun _ =>
      { file := [{ node := 2, endpoints := [localEndpoint 1] }]
        keyed := true
        dial := ⟨300, [.answer (localEndpoint 1) false], fun _ => 400⟩
        opened := true } }

theorem dial_order_single (row : DialRow) (table : PathTable) (nowMs : Int) {endpoint : Endpoint}
    (h : row.endpoints = [endpoint]) : dialOrder row table nowMs = [endpoint] := by
  unfold dialOrder orderEndpoints dropCoolingEndpoints
  rw [h, List.mergeSort_singleton]
  cases hcool : table.isCooling row.node endpoint.locator nowMs <;> simp [hcool]

theorem refused_dial_row : refusedDial.tryRow {} =
    (none, [.refused 1 (localEndpoint 1).locator 300]) := by
  have horder : dialOrder refusedDial.row {} refusedDial.nowMs = [localEndpoint 1] :=
    dial_order_single _ _ _ rfl
  unfold tryRow led lead leadingRun rest
  rw [horder]
  rfl

theorem forward_dials {carry : Carry} {forwarder target : PeerId}
    (hfound : carry.file.find? (fun row => row.node = forwarder) = some row)
    (hkeyed : carry.keyed = true) (hother : row.node ≠ target) :
    forwardThrough carry forwarder target table =
      ((dialPeerWithin row carry.dial table).1.isSome && carry.opened,
        (dialPeerWithin row carry.dial table).2) := by
  unfold forwardThrough
  rw [hfound]
  simp [hkeyed, hother]

theorem refused_carry (table : PathTable) : forwardThrough (refusedDial.carries 2) 2 1 table =
    (false, [.refused 2 (localEndpoint 1).locator 400]) := by
  have hdial : dialPeerWithin { node := 2, endpoints := [localEndpoint 1] }
      (refusedDial.carries 2).dial table = (none, [.refused 2 (localEndpoint 1).locator 400]) := by
    unfold dialPeerWithin
    rw [dial_order_single _ _ _ rfl]
    rfl
  rw [forward_dials rfl rfl (by decide), hdial]
  rfl

theorem refused_dial_notes : notes {} (.reaching refusedDial) =
    [.refused 1 (localEndpoint 1).locator 300, .refused 2 (localEndpoint 1).locator 400] := by
  have hcarried (table : PathTable) : refusedDial.tryForwarders [2] table =
      (none, [.refused 2 (localEndpoint 1).locator 400]) := by
    simp only [tryForwarders]
    rw [show refusedDial.row.node = 1 from rfl, refused_carry]
    rfl
  show (refusedDial.dialPeerReachingWithin {}).2 = _
  unfold dialPeerReachingWithin
  simp only [refused_dial_row]
  exact congrArg (_ :: ·) (congrArg Prod.snd (hcarried _))

def CutShort (dial : Dial) (table : PathTable) : Prop :=
  (DialRace.race (dial.leadingRun table) connectionAttemptDelay dial.leading).ending ≠ some .lost

theorem rest_passed {rest : List Endpoint} (h : (dial.tryRest rest table).1 = none) :
    ∀ before endpoint after, rest = before ++ endpoint :: after →
      (dial.tryRest before table).1 = none ∧
        (dial.ask endpoint (table.noted (dial.tryRest before table).2)).1 = false := by
  induction rest generalizing table with
  | nil => exact fun before endpoint after heq => absurd heq.symm (by simp)
  | cons first rest ih =>
    cases hfirst : (dial.ask first table).1 with
    | true =>
      rw [try_rest_answered rest hfirst] at h
      cases h
    | false =>
      rw [try_rest_refused rest hfirst] at h
      rintro (_ | ⟨other, before⟩) endpoint after heq
      · obtain ⟨rfl, -⟩ := List.cons.inj heq
        exact ⟨rfl, hfirst⟩
      · obtain ⟨rfl, hrest⟩ := List.cons.inj heq
        obtain ⟨hpassed, hasked⟩ := ih h before endpoint after hrest
        rw [try_rest_refused before hfirst]
        refine ⟨hpassed, ?_⟩
        rw [PathTable.noted, exec_append]
        exact hasked

theorem leading_refused (h : ¬ CutShort dial table) :
    ∀ endpoint ∈ dial.leadingRun table, RaceAct.answer endpoint false ∈ dial.leading := by
  intro endpoint hin
  have hsound := DialRace.sound_race (dial.leadingRun table) connectionAttemptDelay dial.leading
  have hfailed := (hsound.all_failed (not_not.mp h)).mem_iff.mpr hin
  exact DialRace.failed_answered _ _ _ endpoint hfailed

/-- A row that gave nothing lost the race of its leading run, and the rest. -/
theorem row_lost (h : (dial.tryRow table).1 = none) : (dial.lead table).won = none ∧
    (dial.tryRest (dial.rest table) (table.noted (dial.led table))).1 = none := by
  unfold tryRow at h
  split at h
  · cases h
  · rename_i hlost
    dsimp only at h
    split at h
    · cases h
    · rename_i hrest
      exact ⟨hlost, hrest⟩

/-- A peer is punched at or asked for through another Mac only after every endpoint of the order was
asked and refused, but for those of a race that was cut short. -/
theorem last_resort (dial : Dial) (table : PathTable) (hnone : (dial.tryRow table).1 = none) :
    ∀ endpoint ∈ dialOrder dial.row table dial.nowMs,
      (endpoint ∈ dial.rest table ∧ RestRefused dial table endpoint) ∨
        (endpoint ∈ dial.leadingRun table ∧ RaceAct.answer endpoint false ∈ dial.leading) ∨
        (CutShort dial table ∧ endpoint ∈ dial.leadingRun table) := by
  intro endpoint hin
  rw [← List.takeWhile_append_dropWhile (p := Endpoint.isDirect) (l := dialOrder _ _ _),
    List.mem_append] at hin
  rcases hin with hleading | hrest
  · by_cases hcut : CutShort dial table
    · exact .inr (.inr ⟨hcut, hleading⟩)
    · exact .inr (.inl ⟨hleading, leading_refused hcut endpoint hleading⟩)
  · obtain ⟨hlost, hpassed⟩ := row_lost hnone
    obtain ⟨before, after, horder⟩ := List.append_of_mem hrest
    obtain ⟨hbefore, hasked⟩ := rest_passed hpassed before endpoint after horder
    rw [PathTable.noted, PathTable.noted, ← exec_append] at hasked
    exact .inl ⟨hrest, hlost, before, after, horder, hbefore, hasked⟩

/-- The dial whose race was lost asked its one endpoint. -/
theorem last_resort_once : RaceAct.answer (localEndpoint 1) false ∈ refusedDial.leading := by
  have horder : dialOrder refusedDial.row {} refusedDial.nowMs = [localEndpoint 1] :=
    dial_order_single _ _ _ rfl
  have hlost : ¬ CutShort refusedDial {} := by
    rw [CutShort, leadingRun, horder]
    decide
  have hrest : refusedDial.rest {} = [] := by
    rw [rest, horder]
    rfl
  have hin : localEndpoint 1 ∈ dialOrder refusedDial.row {} refusedDial.nowMs := by
    rw [horder]
    exact List.mem_singleton_self _
  rcases last_resort refusedDial {} (congrArg Prod.fst refused_dial_row) _ hin with
    ⟨hturn, -⟩ | ⟨-, hasked⟩ | ⟨hcut, -⟩
  · rw [hrest] at hturn
    cases hturn
  · exact hasked
  · exact absurd hcut hlost

end Dial

end TeamClaude
