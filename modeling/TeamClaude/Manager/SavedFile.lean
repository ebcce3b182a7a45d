import TeamClaude.Lib.Exec

/-!
# The saved caches

A cache that changed is marked, and its flusher saves it a while later. The gate skips a save of
what is on disk already and holds back one that changes no shape until the refresh period has passed.
A request changes the cache under one lock and marks it afterwards, in steps of its own.
-/

namespace TeamClaude

open Lib

inductive SaveOutcome
  | wrote
  | unchanged
  | deferred (due : Nat)
  deriving DecidableEq

structure Written where
  shape : UInt64
  content : UInt64
  writtenAt : Nat
  deriving DecidableEq

/-- `SaveGate`, with its times in milliseconds. -/
structure SaveGate where
  refresh : Nat
  last : Option Written := none
  deriving DecidableEq

namespace SaveGate

def skip (gate : SaveGate) (shape content : UInt64) (now : Nat) : Option SaveOutcome :=
  match gate.last with
  | none => none
  | some last =>
    if last.content = content then some .unchanged
    else if last.shape ≠ shape then none
    else if now < last.writtenAt + gate.refresh then some (.deferred (last.writtenAt + gate.refresh))
    else none

def wrote (gate : SaveGate) (shape content : UInt64) (now : Nat) : SaveGate :=
  { gate with last := some { shape, content, writtenAt := now } }

end SaveGate

/-- `SavedFile`: the permit of its `Notify` is `wake`. -/
structure SavedFile where
  dirty : Bool := false
  wake : Bool := false
  gate : SaveGate
  deriving DecidableEq

inductive SavedCache
  | affinity
  | boundTokens
  | wireSessions
  deriving DecidableEq

namespace SavedCache

/-- `delay`, in milliseconds. -/
def delay : SavedCache → Nat
  | affinity => 5000
  | boundTokens => 600000
  | wireSessions => 5000

/-- The refresh period its gate is made with. -/
def refresh : SavedCache → Nat
  | affinity => 60000
  | boundTokens => 0
  | wireSessions => 60000

end SavedCache

structure CacheHashes (C : Type*) where
  shape : C → UInt64
  content : C → UInt64

/-- What the cache's save hands the gate: the bound tokens have no shape of their own. -/
def SavedCache.hashes {C : Type*} (h : CacheHashes C) : SavedCache → C → UInt64 × UInt64
  | .boundTokens, c => (h.content c, h.content c)
  | _, c => (h.shape c, h.content c)

/-- Where a request stands between its change and the two stores of `mark`. -/
inductive MarkPhase
  | idle
  | changed
  | stored
  deriving DecidableEq

/-- Where the flusher stands: a save takes the dirty flag, then the snapshot, then writes. -/
inductive FlushPhase (C : Type*)
  | waiting (due : Option Nat)
  | sleeping (till : Nat)
  | taken
  | copied (c : C)
  | stopped
  | finished
  deriving DecidableEq

/-- A cache, its file and its flusher. `failed` says that the last save failed, and `silent` that a
change went unmarked since the last marked one and the last snapshot; nothing in the program reads
them. -/
structure SavedState (C : Type*) where
  cache : SavedCache
  boot : C
  memory : C
  disk : Option C
  file : SavedFile
  requests : Nat → MarkPhase
  phase : FlushPhase C
  clock : Nat
  failed : Bool
  silent : Bool

/-- One step of a request, of the flusher, of the owner or of time. -/
inductive SaveAct (C : Type*)
  | change (request : Nat) (c : C)
  | store (request : Nat)
  | notify (request : Nat)
  | unmarked (c : C)
  | wake
  | due
  | take
  | copy
  | write (ok : Bool)
  | stop
  | finish (enabled ok : Bool)
  | tick (ms : Nat)
  deriving DecidableEq

namespace SavedState

variable {C : Type*}

/-- A restored cache: nothing is marked and nothing was written yet. -/
def new (cache : SavedCache) (boot : C) : SavedState C :=
  { cache, boot
    memory := boot
    disk := none
    file := { gate := { refresh := cache.refresh } }
    requests := fun _ => .idle
    phase := .waiting none
    clock := 0
    failed := false
    silent := false }

/-- What a restart would restore. -/
def saved (s : SavedState C) : C :=
  s.disk.getD s.boot

def change (s : SavedState C) (request : Nat) (c : C) : SavedState C :=
  match s.requests request with
  | .idle =>
    { s with
      memory := c
      requests := Function.update s.requests request .changed
      silent := false }
  | _ => s

/-- A change that nothing marks: `note_affinity_ttl`. -/
def unmarked (s : SavedState C) (c : C) : SavedState C :=
  { s with memory := c, silent := true }

/-- The first store of `mark`. -/
def store (s : SavedState C) (request : Nat) : SavedState C :=
  match s.requests request with
  | .changed =>
    { s with
      file := { s.file with dirty := true }
      requests := Function.update s.requests request .stored }
  | _ => s

/-- The second: one permit, however often it is given. -/
def notify (s : SavedState C) (request : Nat) : SavedState C :=
  match s.requests request with
  | .stored =>
    { s with
      file := { s.file with wake := true }
      requests := Function.update s.requests request .idle }
  | _ => s

/-- The wait ends at the permit. -/
def wake (s : SavedState C) : SavedState C :=
  match s.phase with
  | .waiting _ =>
    if s.file.wake then
      { s with file := { s.file with wake := false }, phase := .sleeping (s.clock + s.cache.delay) }
    else s
  | _ => s

/-- The wait ends at the instant a deferred save is due. -/
def due (s : SavedState C) : SavedState C :=
  match s.phase with
  | .waiting (some at_) =>
    if at_ ≤ s.clock then { s with phase := .sleeping (s.clock + s.cache.delay) } else s
  | _ => s

/-- The first line of a save. -/
def take (s : SavedState C) : SavedState C :=
  match s.phase with
  | .sleeping till =>
    if till ≤ s.clock then { s with file := { s.file with dirty := false }, phase := .taken } else s
  | _ => s

/-- Its snapshot. -/
def copy (s : SavedState C) : SavedState C :=
  match s.phase with
  | .taken => { s with phase := .copied s.memory, silent := false }
  | _ => s

/-- A write that went through, and the note the gate takes of it. -/
def written (h : CacheHashes C) (s : SavedState C) (c : C) : SavedState C :=
  { s with
    disk := some c
    file :=
      { s.file with
        gate := s.file.gate.wrote (s.cache.hashes h c).1 (s.cache.hashes h c).2 s.clock }
    failed := false }

/-- `save_if_changed`; no outcome is the error of its write. -/
def saveIfChanged (h : CacheHashes C) (s : SavedState C) (c : C) (ok : Bool) :
    SavedState C × Option SaveOutcome :=
  match s.file.gate.skip (s.cache.hashes h c).1 (s.cache.hashes h c).2 s.clock with
  | some skipped => (s, some skipped)
  | none => if ok then (s.written h c, some .wrote) else (s, none)

/-- What the loop makes of the outcome. -/
def endSave (s : SavedState C) : Option SaveOutcome → SavedState C
  | some (.deferred at_) => { s with phase := .waiting (some at_), failed := false }
  | some _ => { s with phase := .waiting none, failed := false }
  | none => { s with phase := .waiting none, failed := true }

def write (h : CacheHashes C) (s : SavedState C) (ok : Bool) : SavedState C :=
  match s.phase with
  | .copied c => (s.saveIfChanged h c ok).1.endSave (s.saveIfChanged h c ok).2
  | _ => s

/-- The loop is cancelled where it waits; a save is never cut. -/
def stop (s : SavedState C) : SavedState C :=
  match s.phase with
  | .waiting _ => { s with phase := .stopped }
  | .sleeping _ => { s with phase := .stopped }
  | _ => s

/-- `save_finally`; affinity may have been switched off in the config by then. -/
def saveFinally (h : CacheHashes C) (s : SavedState C) (enabled ok : Bool) : SavedState C :=
  match s.cache with
  | .affinity =>
    if !enabled then s
    else if ok then s.written h s.memory
    else { s with failed := true }
  | .boundTokens =>
    if s.file.dirty then
      let s := { s with file := { s.file with dirty := false } }
      if ok then s.written h s.memory else { s with failed := true }
    else s
  | .wireSessions => if ok then s.written h s.memory else { s with failed := true }

def finish (h : CacheHashes C) (s : SavedState C) (enabled ok : Bool) : SavedState C :=
  match s.phase with
  | .stopped => { s.saveFinally h enabled ok with phase := .finished }
  | _ => s

def step (h : CacheHashes C) (s : SavedState C) : SaveAct C → SavedState C
  | .change request c => s.change request c
  | .store request => s.store request
  | .notify request => s.notify request
  | .unmarked c => s.unmarked c
  | .wake => s.wake
  | .due => s.due
  | .take => s.take
  | .copy => s.copy
  | .write ok => s.write h ok
  | .stop => s.stop
  | .finish enabled ok => s.finish h enabled ok
  | .tick ms => { s with clock := s.clock + ms }

/-! ## A save -/

variable {h : CacheHashes C} {s : SavedState C} {c : C}

theorem hashes_content (h : CacheHashes C) (cache : SavedCache) (c : C) :
    (cache.hashes h c).2 = h.content c := by
  cases cache <;> rfl

/-- The gate remembers what is on disk. -/
def Noted (h : CacheHashes C) (s : SavedState C) : Prop :=
  match s.file.gate.last with
  | none => s.disk = none
  | some last => ∃ c, s.disk = some c ∧ (last.shape, last.content) = s.cache.hashes h c

/-- A restart would restore the cache as it is. -/
def Synced (h : CacheHashes C) (s : SavedState C) : Prop :=
  h.content s.saved = h.content s.memory

/-- The save is held back until the instant, and what is on disk has the shape. -/
def HeldBack (h : CacheHashes C) (s : SavedState C) (c : C) (due : Nat) : Prop :=
  (s.cache.hashes h s.saved).1 = (s.cache.hashes h c).1 ∧
    ∃ last, s.file.gate.last = some last ∧ due = last.writtenAt + s.file.gate.refresh

/-- What the end of a save leaves alone. -/
structure SaveFrame (s s' : SavedState C) : Prop where
  cache : s'.cache = s.cache
  memory : s'.memory = s.memory
  requests : s'.requests = s.requests
  wake : s'.file.wake = s.file.wake
  dirty : s'.file.dirty = s.file.dirty
  refresh : s'.file.gate.refresh = s.file.gate.refresh
  clock : s'.clock = s.clock
  silent : s'.silent = s.silent
  boot : s'.boot = s.boot

/-- How a save of the snapshot ends: it fails, it has the content on disk, or it is held back. -/
inductive SaveEnd (h : CacheHashes C) (s : SavedState C) (c : C) (ok : Bool) (s' : SavedState C) :
    Prop
  | failed (phase : s'.phase = .waiting none) (failed : s'.failed = true) (why : ok = false)
  | done (phase : s'.phase = .waiting none) (failed : s'.failed = false)
      (saved : h.content s'.saved = h.content c)
  | held (due : Nat) (phase : s'.phase = .waiting (some due)) (failed : s'.failed = false)
      (saved : s'.saved = s.saved) (back : HeldBack h s c due) (early : s.clock < due)
      (last : s'.file = s.file)

theorem Noted.saved {last : Written} (hnoted : Noted h s) (hlast : s.file.gate.last = some last) :
    (last.shape, last.content) = s.cache.hashes h s.saved := by
  simp only [Noted, hlast] at hnoted
  obtain ⟨c, hdisk, hhashes⟩ := hnoted
  rw [SavedState.saved, hdisk]
  exact hhashes

/-- What the gate skips: the content is on disk, or the save is held back. -/
theorem skip_cases {outcome : SaveOutcome} (hnoted : Noted h s)
    (hskip : s.file.gate.skip (s.cache.hashes h c).1 (s.cache.hashes h c).2 s.clock = some outcome) :
    (outcome = .unchanged ∧ h.content s.saved = h.content c) ∨
      ∃ due, outcome = .deferred due ∧ HeldBack h s c due ∧ s.clock < due := by
  unfold SaveGate.skip at hskip
  cases hlast : s.file.gate.last with
  | none =>
    rw [hlast] at hskip
    cases hskip
  | some last =>
    have hsaved := hnoted.saved hlast
    simp only [hlast] at hskip
    split at hskip
    · rename_i hcontent
      left
      refine ⟨(Option.some.inj hskip).symm, ?_⟩
      have hsecond : last.content = h.content s.saved := by
        rw [← hashes_content h s.cache s.saved, ← hsaved]
      rw [← hsecond, hcontent, hashes_content]
    · split at hskip
      · cases hskip
      · rename_i hshape
        split at hskip
        · rename_i hearly
          refine .inr ⟨_, (Option.some.inj hskip).symm, ⟨?_, last, hlast, rfl⟩, hearly⟩
          rw [← hsaved]
          exact not_not.mp hshape
        · cases hskip

theorem write_spec (hnoted : Noted h s) (hphase : s.phase = .copied c) (ok : Bool) :
    SaveFrame s (s.write h ok) ∧ Noted h (s.write h ok) ∧ SaveEnd h s c ok (s.write h ok) := by
  have hwrite : s.write h ok = (s.saveIfChanged h c ok).1.endSave (s.saveIfChanged h c ok).2 := by
    rw [write, hphase]
  rw [hwrite, saveIfChanged]
  cases hskip : s.file.gate.skip (s.cache.hashes h c).1 (s.cache.hashes h c).2 s.clock with
  | none =>
    cases ok with
    | true => exact ⟨⟨rfl, rfl, rfl, rfl, rfl, rfl, rfl, rfl, rfl⟩, ⟨c, rfl, rfl⟩, .done rfl rfl rfl⟩
    | false => exact ⟨⟨rfl, rfl, rfl, rfl, rfl, rfl, rfl, rfl, rfl⟩, hnoted, .failed rfl rfl rfl⟩
  | some outcome =>
    rcases skip_cases hnoted hskip with ⟨rfl, hsaved⟩ | ⟨due, rfl, hback, hearly⟩
    · exact ⟨⟨rfl, rfl, rfl, rfl, rfl, rfl, rfl, rfl, rfl⟩, hnoted, .done rfl rfl hsaved⟩
    · exact ⟨⟨rfl, rfl, rfl, rfl, rfl, rfl, rfl, rfl, rfl⟩, hnoted, .held due rfl rfl rfl hback hearly rfl⟩

theorem write_other (hphase : ∀ c, s.phase ≠ .copied c) (ok : Bool) : s.write h ok = s := by
  unfold write
  cases hs : s.phase with
  | copied c => exact absurd hs (hphase c)
  | _ => rfl

/-- The gate's note is the old one or of this instant. -/
theorem write_last (s : SavedState C) (ok : Bool) :
    (s.write h ok).file.gate.last = s.file.gate.last ∨
      ∀ last, (s.write h ok).file.gate.last = some last → last.writtenAt = s.clock := by
  unfold write saveIfChanged
  split
  · split
    · rename_i outcome hskip
      left
      cases outcome <;> rfl
    · cases ok with
      | true => exact .inr fun last hlast => by cases hlast; rfl
      | false => exact .inl rfl
  · exact .inl rfl

/-! ## The flusher's own steps -/

theorem wake_cases (s : SavedState C) : s.wake = s ∨ ∃ due, s.phase = .waiting due ∧ s.wake =
    { s with file := { s.file with wake := false }, phase := .sleeping (s.clock + s.cache.delay) } := by
  unfold wake
  split
  · rename_i due hphase
    split
    · exact .inr ⟨due, hphase, rfl⟩
    · exact .inl rfl
  · exact .inl rfl

theorem due_cases (s : SavedState C) : s.due = s ∨ ∃ at_, s.phase = .waiting (some at_) ∧ s.due =
    { s with phase := .sleeping (s.clock + s.cache.delay) } := by
  unfold due
  split
  · rename_i at_ hphase
    split
    · exact .inr ⟨at_, hphase, rfl⟩
    · exact .inl rfl
  · exact .inl rfl

theorem take_cases (s : SavedState C) : s.take = s ∨ ∃ till, s.phase = .sleeping till ∧
    till ≤ s.clock ∧ s.take = { s with file := { s.file with dirty := false }, phase := .taken } := by
  unfold take
  split
  · rename_i till hphase
    split
    · rename_i htill
      exact .inr ⟨till, hphase, htill, rfl⟩
    · exact .inl rfl
  · exact .inl rfl

theorem copy_cases (s : SavedState C) : s.copy = s ∨
    s.phase = .taken ∧ s.copy = { s with phase := .copied s.memory, silent := false } := by
  unfold copy
  split
  · rename_i hphase
    exact .inr ⟨hphase, rfl⟩
  · exact .inl rfl

theorem stop_cases (s : SavedState C) : s.stop = s ∨
    ((∃ due, s.phase = .waiting due) ∨ ∃ till, s.phase = .sleeping till) ∧
      s.stop = { s with phase := .stopped } := by
  unfold stop
  split
  · rename_i due hphase
    exact .inr ⟨.inl ⟨due, hphase⟩, rfl⟩
  · rename_i till hphase
    exact .inr ⟨.inr ⟨till, hphase⟩, rfl⟩
  · exact .inl rfl

theorem stop_requests (s : SavedState C) : s.stop.requests = s.requests := by
  rcases stop_cases s with hsame | ⟨-, hstop⟩
  · rw [hsame]
  · rw [hstop]

/-! ## What every run keeps -/

/-- Some request has yet to wake the flusher, or its permit waits. -/
def OnItsWay (s : SavedState C) : Prop :=
  s.file.wake = true ∨ ∃ request, s.requests request ≠ .idle

/-- The file is dirty, or some request has yet to say so. -/
def Unstored (s : SavedState C) : Prop :=
  s.file.dirty = true ∨ ∃ request, s.requests request = .changed

/-- The flusher is between two saves. -/
def AtRest (s : SavedState C) : Prop :=
  (∃ due, s.phase = .waiting due) ∨ (∃ till, s.phase = .sleeping till) ∨ s.phase = .stopped

/-- Whatever is not on disk is on its way there, unless the last save failed. -/
structure Kept (h : CacheHashes C) (s : SavedState C) : Prop where
  resting : s.phase = .waiting none → s.OnItsWay ∨ s.failed = true ∨ Synced h s
  held : ∀ due, s.phase = .waiting (some due) → s.OnItsWay ∨ HeldBack h s s.memory due
  copied : ∀ c, s.phase = .copied c → (s.OnItsWay ∨ c = s.memory) ∧ (s.Unstored ∨ c = s.memory)
  stored : s.cache = .boundTokens → s.AtRest → s.Unstored ∨ s.failed = true ∨ Synced h s

/-- The gate's note is of what is on disk, and nothing is lost but a change that nobody marked. -/
structure Covered (h : CacheHashes C) (s : SavedState C) : Prop where
  noted : Noted h s
  refresh : s.file.gate.refresh = s.cache.refresh
  kept : s.silent = false → Kept h s

theorem covered_new (h : CacheHashes C) (cache : SavedCache) (boot : C) :
    Covered h (new cache boot) where
  noted := rfl
  refresh := rfl
  kept _ := ⟨fun _ => .inr (.inr rfl), nofun, nofun, fun _ _ => .inr (.inr rfl)⟩

/-- A held save of the bound tokens has nothing to write. -/
theorem HeldBack.synced {due : Nat} (hback : HeldBack h s s.memory due)
    (hcache : s.cache = .boundTokens) : Synced h s := by
  have hshape := hback.1
  rw [hcache] at hshape
  exact hshape

/-- A step after which a mark is on its way, and the file is dirty or will be. -/
theorem Covered.of_marked {s' : SavedState C} (hnoted : Noted h s')
    (hrefresh : s'.file.gate.refresh = s'.cache.refresh) (hway : s'.OnItsWay)
    (hstored : s'.Unstored) : Covered h s' where
  noted := hnoted
  refresh := hrefresh
  kept _ :=
    { resting := fun _ => .inl hway
      held := fun _ _ => .inl hway
      copied := fun _ _ => ⟨.inl hway, .inl hstored⟩
      stored := fun _ _ => .inl hstored }

theorem Covered.change (hs : Covered h s) (request : Nat) (c : C) :
    Covered h (s.change request c) := by
  unfold SavedState.change
  split
  · have hchanged : Function.update s.requests request .changed request = .changed :=
      Function.update_self ..
    refine .of_marked hs.noted hs.refresh (.inr ⟨request, ?_⟩) (.inr ⟨request, hchanged⟩)
    show Function.update s.requests request .changed request ≠ .idle
    rw [hchanged]
    nofun
  · exact hs

theorem Covered.unmarked (hs : Covered h s) (c : C) : Covered h (s.unmarked c) where
  noted := hs.noted
  refresh := hs.refresh
  kept := nofun

theorem Covered.store (hs : Covered h s) (request : Nat) : Covered h (s.store request) := by
  unfold SavedState.store
  split
  · refine .of_marked hs.noted hs.refresh (.inr ⟨request, ?_⟩) (.inl rfl)
    show Function.update s.requests request .stored request ≠ .idle
    rw [Function.update_self]
    nofun
  · exact hs

theorem Covered.notify (hs : Covered h s) (request : Nat) : Covered h (s.notify request) := by
  unfold SavedState.notify
  split
  · rename_i hrequest
    -- the request that wakes the flusher has stored the flag before
    have hstored : s.Unstored → SavedState.Unstored
        { s with
          file := { s.file with wake := true }
          requests := Function.update s.requests request .idle } := by
      rintro (hdirty | ⟨other, hother⟩)
      · exact .inl hdirty
      · have hne : other ≠ request := by
          rintro rfl
          rw [hrequest] at hother
          cases hother
        exact .inr ⟨other, (Function.update_of_ne hne ..).trans hother⟩
    refine ⟨hs.noted, hs.refresh, fun hsilent => ?_⟩
    have hkept := hs.kept hsilent
    exact
      { resting := fun _ => .inl (.inl rfl)
        held := fun _ _ => .inl (.inl rfl)
        copied := fun c hc => ⟨.inl (.inl rfl), (hkept.copied c hc).2.imp_left hstored⟩
        stored := fun hcache hrest => (hkept.stored hcache hrest).imp_left hstored }
  · exact hs

/-- The flusher goes from one rest to the next, and the flag stays as it is. -/
theorem Covered.rest {wake : Bool} {phase : FlushPhase C} (hs : Covered h s) (hrest : s.AtRest)
    (hphase : (∃ till, phase = .sleeping till) ∨ phase = .stopped) :
    Covered h { s with file := { s.file with wake }, phase } := by
  refine ⟨hs.noted, hs.refresh, fun hsilent => ?_⟩
  constructor
  · intro hwaiting
    obtain ⟨till, rfl⟩ | rfl := hphase <;> cases hwaiting
  · intro due hwaiting
    obtain ⟨till, rfl⟩ | rfl := hphase <;> cases hwaiting
  · intro c hcopied
    obtain ⟨till, rfl⟩ | rfl := hphase <;> cases hcopied
  · intro hcache _
    exact (hs.kept hsilent).stored hcache hrest

theorem Covered.wake (hs : Covered h s) : Covered h s.wake := by
  rcases wake_cases s with hsame | ⟨due, hphase, hwake⟩
  · rw [hsame]
    exact hs
  · rw [hwake]
    exact hs.rest (.inl ⟨due, hphase⟩) (.inl ⟨_, rfl⟩)

theorem Covered.due (hs : Covered h s) : Covered h s.due := by
  rcases due_cases s with hsame | ⟨at_, hphase, hdue⟩
  · rw [hsame]
    exact hs
  · rw [hdue]
    exact hs.rest (.inl ⟨some at_, hphase⟩) (.inl ⟨_, rfl⟩)

theorem Covered.stop (hs : Covered h s) : Covered h s.stop := by
  rcases stop_cases s with hsame | ⟨hphase, hstop⟩
  · rw [hsame]
    exact hs
  · rw [hstop]
    exact hs.rest (hphase.imp_right .inl) (.inr rfl)

theorem Covered.take (hs : Covered h s) : Covered h s.take := by
  rcases take_cases s with hsame | ⟨till, hphase, htill, htake⟩
  · rw [hsame]
    exact hs
  · rw [htake]
    refine ⟨hs.noted, hs.refresh, fun _ => ⟨nofun, nofun, nofun, fun _ hrest => ?_⟩⟩
    rcases hrest with ⟨_, hrest⟩ | ⟨_, hrest⟩ | hrest <;> cases hrest

theorem Covered.copy (hs : Covered h s) : Covered h s.copy := by
  rcases copy_cases s with hsame | ⟨hphase, hcopy⟩
  · rw [hsame]
    exact hs
  · rw [hcopy]
    refine ⟨hs.noted, hs.refresh, fun _ => ⟨nofun, nofun, fun c hc => ?_, fun _ hrest => ?_⟩⟩
    · obtain rfl := FlushPhase.copied.inj hc
      exact ⟨.inr rfl, .inr rfl⟩
    · rcases hrest with ⟨_, hrest⟩ | ⟨_, hrest⟩ | hrest <;> cases hrest

theorem SaveFrame.on_its_way {s' : SavedState C} (frame : SaveFrame s s') (hway : s.OnItsWay) :
    s'.OnItsWay := by
  rwa [OnItsWay, frame.wake, frame.requests]

theorem SaveFrame.unstored {s' : SavedState C} (frame : SaveFrame s s') (hstored : s.Unstored) :
    s'.Unstored := by
  rwa [Unstored, frame.dirty, frame.requests]

/-- A save of the snapshot leaves on disk what the memory holds, or a mark is on its way. -/
theorem Covered.write (hs : Covered h s) (ok : Bool) : Covered h (s.write h ok) := by
  by_cases hphase : ∃ c, s.phase = .copied c
  · obtain ⟨c, hphase⟩ := hphase
    obtain ⟨frame, hnoted, hend⟩ := write_spec hs.noted hphase ok
    have hrefresh : (s.write h ok).file.gate.refresh = (s.write h ok).cache.refresh := by
      rw [frame.refresh, frame.cache]
      exact hs.refresh
    refine ⟨hnoted, hrefresh, fun hsilent => ?_⟩
    rw [frame.silent] at hsilent
    obtain ⟨hway, hstored⟩ := (hs.kept hsilent).copied c hphase
    have hway : (s.write h ok).OnItsWay ∨ c = s.memory := hway.imp_left frame.on_its_way
    have hstored : (s.write h ok).Unstored ∨ c = s.memory := hstored.imp_left frame.unstored
    cases hend with
    | failed phase failed why =>
      exact
        { resting := fun _ => .inr (.inl failed)
          held := fun due hheld => by rw [phase] at hheld; cases hheld
          copied := fun c hcopied => by rw [phase] at hcopied; cases hcopied
          stored := fun _ _ => .inr (.inl failed) }
    | done phase failed saved =>
      have hsynced : c = s.memory → Synced h (s.write h ok) := by
        rintro rfl
        rw [Synced, frame.memory]
        exact saved
      exact
        { resting := fun _ => hway.imp_right fun hc => .inr (hsynced hc)
          held := fun due hheld => by rw [phase] at hheld; cases hheld
          copied := fun c hcopied => by rw [phase] at hcopied; cases hcopied
          stored := fun _ _ => hstored.imp_right fun hc => .inr (hsynced hc) }
    | held at_ phase failed saved back early last =>
      have hback : c = s.memory → HeldBack h (s.write h ok) (s.write h ok).memory at_ := by
        rintro rfl
        rw [HeldBack, frame.memory, frame.cache, saved, last]
        exact back
      refine
        { resting := fun hresting => by rw [phase] at hresting; cases hresting
          held := fun due hheld => ?_
          copied := fun c hcopied => by rw [phase] at hcopied; cases hcopied
          stored := fun hcache _ => hstored.imp_right fun hc => .inr ((hback hc).synced hcache) }
      rw [phase] at hheld
      obtain rfl : at_ = due := Option.some.inj (FlushPhase.waiting.inj hheld)
      exact hway.imp_right hback
  · rw [write_other (fun c hc => hphase ⟨c, hc⟩)]
    exact hs

theorem save_finally_frame (h : CacheHashes C) (s : SavedState C) (enabled ok : Bool) :
    (s.saveFinally h enabled ok).cache = s.cache ∧
      (s.saveFinally h enabled ok).file.gate.refresh = s.file.gate.refresh := by
  unfold saveFinally
  split
  · cases enabled <;> cases ok <;> exact ⟨rfl, rfl⟩
  · split
    · cases ok <;> exact ⟨rfl, rfl⟩
    · exact ⟨rfl, rfl⟩
  · cases ok <;> exact ⟨rfl, rfl⟩

theorem save_finally_noted (hnoted : Noted h s) (enabled ok : Bool) :
    Noted h (s.saveFinally h enabled ok) := by
  have hwritten : Noted h (s.written h s.memory) := ⟨s.memory, rfl, rfl⟩
  unfold saveFinally
  split
  · cases enabled with
    | true =>
      cases ok with
      | true => exact hwritten
      | false => exact hnoted
    | false => exact hnoted
  · split
    · cases ok with
      | true => exact hwritten
      | false => exact hnoted
    · exact hnoted
  · cases ok with
    | true => exact hwritten
    | false => exact hnoted

theorem Covered.finish (hs : Covered h s) (enabled ok : Bool) :
    Covered h (s.finish h enabled ok) := by
  unfold SavedState.finish
  split
  · obtain ⟨hcache, hrefresh⟩ := save_finally_frame h s enabled ok
    refine ⟨save_finally_noted hs.noted enabled ok, ?_,
      fun _ => ⟨nofun, nofun, nofun, fun _ hrest => ?_⟩⟩
    · show (s.saveFinally h enabled ok).file.gate.refresh =
        (s.saveFinally h enabled ok).cache.refresh
      rw [hcache, hrefresh]
      exact hs.refresh
    · rcases hrest with ⟨_, hrest⟩ | ⟨_, hrest⟩ | hrest <;> cases hrest
  · exact hs

theorem Covered.tick (hs : Covered h s) (ms : Nat) :
    Covered h { s with clock := s.clock + ms } where
  noted := hs.noted
  refresh := hs.refresh
  kept hsilent :=
    have hkept := hs.kept hsilent
    ⟨hkept.resting, hkept.held, hkept.copied, hkept.stored⟩

theorem Covered.step (hs : Covered h s) (act : SaveAct C) : Covered h (s.step h act) := by
  cases act with
  | change request c => exact hs.change request c
  | store request => exact hs.store request
  | notify request => exact hs.notify request
  | unmarked c => exact hs.unmarked c
  | wake => exact hs.wake
  | due => exact hs.due
  | take => exact hs.take
  | copy => exact hs.copy
  | write ok => exact hs.write ok
  | stop => exact hs.stop
  | finish enabled ok => exact hs.finish enabled ok
  | tick ms => exact hs.tick ms

theorem covered_run (h : CacheHashes C) (cache : SavedCache) (boot : C) (acts : List (SaveAct C)) :
    Covered h (exec (step h) (new cache boot) acts) :=
  exec_invariant (I := Covered h) (A := fun _ _ => True) (fun _ act hs _ => hs.step act)
    (covered_new h cache boot) (fun _ _ _ => trivial) acts List.prefix_rfl

/-! ## At rest, and after a shutdown -/

/-- Nothing is left to do for any request: none is on its way, and no permit waits. -/
def Quiet (s : SavedState C) : Prop :=
  s.file.wake = false ∧ ∀ request, s.requests request = .idle

theorem Quiet.not_on_its_way (hquiet : s.Quiet) : ¬ s.OnItsWay := by
  rintro (hwake | ⟨request, hrequest⟩)
  · rw [hquiet.1] at hwake
    cases hwake
  · exact hrequest (hquiet.2 request)

/-- Where the flusher waits for nothing but the next mark, the cache is on disk, unless the last
save failed; where it waits for a deferred save, its shape is, and the save is due within the refresh
period of the last write. -/
structure Resting (h : CacheHashes C) (s : SavedState C) : Prop where
  idle : s.phase = .waiting none → s.failed = false → Synced h s
  deferred : ∀ due, s.phase = .waiting (some due) →
    (s.cache.hashes h s.saved).1 = (s.cache.hashes h s.memory).1 ∧
      ∃ last, s.file.gate.last = some last ∧ due = last.writtenAt + s.cache.refresh

/-- In every run of requests, saves and failures, a flusher that waits and has no mark to come has
saved the cache, but for a change that nobody marked. -/
theorem quiet_is_saved (h : CacheHashes C) (cache : SavedCache) (boot : C)
    (acts : List (SaveAct C)) (hmarked : (exec (step h) (new cache boot) acts).silent = false)
    (hquiet : (exec (step h) (new cache boot) acts).Quiet) :
    Resting h (exec (step h) (new cache boot) acts) := by
  have hs := covered_run h cache boot acts
  set s := exec (step h) (new cache boot) acts
  have hkept := hs.kept hmarked
  constructor
  · intro hphase hfailed
    rcases hkept.resting hphase with hway | hfail | hsynced
    · exact absurd hway hquiet.not_on_its_way
    · rw [hfailed] at hfail
      cases hfail
    · exact hsynced
  · intro due hphase
    rcases hkept.held due hphase with hway | ⟨hshape, last, hlast, hdue⟩
    · exact absurd hway hquiet.not_on_its_way
    · rw [hs.refresh] at hdue
      exact ⟨hshape, last, hlast, hdue⟩

/-- Numbers for a cache: their low halves are the content, and they all have one shape. -/
def oneShape : CacheHashes Nat where
  shape := fun _ => 0
  content := UInt64.ofNat

/-- A change, its mark and its save. -/
def savedOnce (cache : SavedCache) (ok : Bool) : List (SaveAct Nat) :=
  [.change 0 7, .store 0, .notify 0, .wake, .tick cache.delay, .take, .copy, .write ok]

theorem saved_once_idle (cache : SavedCache) (ok : Bool) (request : Nat) :
    (exec (step oneShape) (new cache 0) (savedOnce cache ok)).requests request = .idle := by
  by_cases hzero : request = 0
  · subst hzero
    cases cache <;> cases ok <;> rfl
  · have hnone : (exec (step oneShape) (new cache 0) (savedOnce cache ok)).requests =
        Function.update (Function.update (Function.update (fun _ => .idle) 0 .changed) 0 .stored) 0
          .idle := by
      cases cache <;> cases ok <;> rfl
    simp [hnone, hzero]

theorem quiet_is_saved_once :
    Resting oneShape (exec (step oneShape) (new .affinity 0) (savedOnce .affinity true)) :=
  quiet_is_saved oneShape .affinity 0 _ rfl ⟨rfl, saved_once_idle .affinity true⟩

theorem write_cache (s : SavedState C) (ok : Bool) : (s.write h ok).cache = s.cache := by
  unfold write saveIfChanged
  split
  · split
    · rename_i outcome hskip
      cases outcome <;> rfl
    · cases ok <;> rfl
  · rfl

theorem step_cache (s : SavedState C) (act : SaveAct C) : (s.step h act).cache = s.cache := by
  cases act with
  | change request c => show (s.change request c).cache = s.cache; unfold change; split <;> rfl
  | store request => show (s.store request).cache = s.cache; unfold store; split <;> rfl
  | notify request => show (s.notify request).cache = s.cache; unfold notify; split <;> rfl
  | unmarked c => rfl
  | wake => rcases wake_cases s with hsame | ⟨_, _, hwake⟩ <;> simp [step, *]
  | due => rcases due_cases s with hsame | ⟨_, _, hdue⟩ <;> simp [step, *]
  | take => rcases take_cases s with hsame | ⟨_, _, _, htake⟩ <;> simp [step, *]
  | copy => rcases copy_cases s with hsame | ⟨_, hcopy⟩ <;> simp [step, *]
  | write ok => exact write_cache s ok
  | stop => rcases stop_cases s with hsame | ⟨_, hstop⟩ <;> simp [step, *]
  | finish enabled ok =>
    show (s.finish h enabled ok).cache = s.cache
    unfold finish
    split
    · exact (save_finally_frame h s enabled ok).1
    · rfl
  | tick ms => rfl

theorem cache_run (h : CacheHashes C) (cache : SavedCache) (boot : C) (acts : List (SaveAct C)) :
    (exec (step h) (new cache boot) acts).cache = cache :=
  exec_invariant (I := fun s => s.cache = cache) (A := fun _ _ => True)
    (fun s act hs _ => (step_cache s act).trans hs) rfl (fun _ _ _ => trivial) acts List.prefix_rfl

/-- The bound tokens of a save that failed are not written at the shutdown; the two other caches
are. -/
theorem failed_save_at_finish (cache : SavedCache) :
    Synced oneShape (exec (step oneShape) (new cache 0)
      (savedOnce cache false ++ [.stop, .finish true true])) ↔ cache ≠ .boundTokens := by
  cases cache <;> simp only [Synced] <;> decide

/-! ## What a kill loses -/

/-- No step is late: time passes only where every change is marked, no request is on its way and the
flusher has nothing to do yet. Every write goes through. -/
def Prompt (s : SavedState C) : SaveAct C → Prop
  | .tick ms => s.silent = false ∧ (∀ request, s.requests request = .idle) ∧
      match s.phase with
      | .waiting none => s.file.wake = false
      | .waiting (some at_) => s.file.wake = false ∧ s.clock + ms ≤ at_
      | .sleeping till => s.clock + ms ≤ till
      | _ => False
  | .write ok => ok = true
  | .stop => False
  | _ => True

/-- The content is the same, or the shape is. -/
def Alike (h : CacheHashes C) (cache : SavedCache) (c d : C) : Prop :=
  h.content c = h.content d ∨ (cache.hashes h c).1 = (cache.hashes h d).1

/-- The memory held something of the kind at this time of the run or later. -/
def Seen (h : CacheHashes C) (start : SavedState C) (acts : List (SaveAct C)) (P : C → Prop)
    (time : Nat) : Prop :=
  ∃ pre, pre <+: acts ∧ time ≤ (exec (step h) start pre).clock ∧ P (exec (step h) start pre).memory

/-- What was current at the time is at most so late, and the flusher is on its way if it is later. -/
def Within (late : Nat) (s : SavedState C) (time : Nat) : Prop :=
  match s.phase with
  | .waiting _ => s.clock ≤ time + late
  | .sleeping till => till ≤ time + late + s.cache.delay ∧ s.clock ≤ till
  | .taken => s.clock ≤ time + late + s.cache.delay
  | .copied _ => s.clock ≤ time + late + s.cache.delay
  | _ => False

/-- A flusher that waits for the next mark is up to date; a deferred save is due a refresh period
after what is on disk. -/
structure Owed (s : SavedState C) (time : Nat) : Prop where
  idle : s.phase = .waiting none → s.clock ≤ time
  deferred : ∀ due, s.phase = .waiting (some due) → due ≤ time + s.cache.refresh
  last : ∀ last, s.file.gate.last = some last → last.writtenAt ≤ time

structure Timely (h : CacheHashes C) (start : SavedState C) (acts : List (SaveAct C))
    (s : SavedState C) : Prop where
  covered : Covered h s
  cache : s.cache = start.cache
  failed : s.failed = false
  written : ∀ last, s.file.gate.last = some last → last.writtenAt ≤ s.clock
  copied : ∀ c, s.phase = .copied c → Seen h start acts (fun d => d = c) s.clock
  shaped : ∃ time, Seen h start acts (Alike h s.cache s.saved) time ∧ Within 0 s time
  synced : ∃ time, Seen h start acts (fun d => h.content s.saved = h.content d) time ∧
    Within s.cache.refresh s time ∧ Owed s time

section Timed

variable {start : SavedState C} {acts : List (SaveAct C)} {act : SaveAct C} {P Q : C → Prop}
  {time : Nat}

theorem Seen.snoc (hseen : Seen h start acts P time) : Seen h start (acts ++ [act]) P time := by
  obtain ⟨pre, hpre, hrest⟩ := hseen
  exact ⟨pre, hpre.trans (List.prefix_append acts [act]), hrest⟩

theorem Seen.mono (hseen : Seen h start acts P time) (hPQ : ∀ c, P c → Q c) :
    Seen h start acts Q time := by
  obtain ⟨pre, hpre, htime, hP⟩ := hseen
  exact ⟨pre, hpre, htime, hPQ _ hP⟩

theorem seen_now (hP : P (exec (step h) start acts).memory) :
    Seen h start acts P (exec (step h) start acts).clock :=
  ⟨acts, List.prefix_rfl, Nat.le_refl _, hP⟩

/-- A step of a request: what is on disk, the flusher and the clock stay as they are. -/
theorem Timely.keep {s' : SavedState C} (ht : Timely h start acts s) (hs' : Covered h s')
    (hcache : s'.cache = s.cache) (hsaved : s'.saved = s.saved) (hfailed : s'.failed = s.failed)
    (hlast : s'.file.gate.last = s.file.gate.last) (hphase : s'.phase = s.phase)
    (hclock : s'.clock = s.clock) : Timely h start (acts ++ [act]) s' where
  covered := hs'
  cache := hcache.trans ht.cache
  failed := hfailed.trans ht.failed
  written := by
    rw [hlast, hclock]
    exact ht.written
  copied c hc := by
    rw [hclock]
    exact (ht.copied c (hphase ▸ hc)).snoc
  shaped := by
    obtain ⟨time, hseen, hwithin⟩ := ht.shaped
    refine ⟨time, ?_, ?_⟩
    · rw [hsaved, hcache]
      exact hseen.snoc
    · simp only [Within, hphase, hclock, hcache] at hwithin ⊢
      exact hwithin
  synced := by
    obtain ⟨time, hseen, hwithin, howed⟩ := ht.synced
    refine ⟨time, ?_, ?_, ⟨?_, ?_, ?_⟩⟩
    · rw [hsaved]
      exact hseen.snoc
    · simp only [Within, hphase, hclock, hcache] at hwithin ⊢
      exact hwithin
    · rw [hphase, hclock]
      exact howed.idle
    · rw [hphase, hcache]
      exact howed.deferred
    · rw [hlast]
      exact howed.last

/-- A step of the flusher that neither writes nor waits for a mark. -/
theorem Timely.advance {wake dirty silent : Bool} {phase : FlushPhase C} (ht : Timely h start acts s)
    (hs' : Covered h { s with file := { s.file with wake, dirty }, phase, silent })
    (hwaiting : ∀ due, phase ≠ .waiting due)
    (hcopied : ∀ c, phase = .copied c → Seen h start (acts ++ [act]) (fun d => d = c) s.clock)
    (hwithin : ∀ late time, Within late s time → Within late { s with phase } time) :
    Timely h start (acts ++ [act]) { s with file := { s.file with wake, dirty }, phase, silent } where
  covered := hs'
  cache := ht.cache
  failed := ht.failed
  written := ht.written
  copied := hcopied
  shaped := by
    obtain ⟨time, hseen, hold⟩ := ht.shaped
    exact ⟨time, hseen.snoc, hwithin 0 time hold⟩
  synced := by
    obtain ⟨time, hseen, hold, howed⟩ := ht.synced
    refine ⟨time, hseen.snoc, hwithin _ time hold, ?_, ?_, howed.last⟩
    · exact fun hphase => absurd hphase (hwaiting none)
    · exact fun due hphase => absurd hphase (hwaiting (some due))

theorem Timely.same (ht : Timely h start acts s) : Timely h start (acts ++ [act]) s :=
  ht.keep ht.covered rfl rfl rfl rfl rfl rfl

theorem Timely.wake (ht : Timely h start acts s) : Timely h start (acts ++ [act]) s.wake := by
  have hs' := ht.covered.wake
  rcases wake_cases s with hsame | ⟨due, hphase, hwake⟩
  · rw [hsame]
    exact ht.same
  · rw [hwake] at hs' ⊢
    refine ht.advance hs' nofun nofun fun late time hold => ?_
    simp only [Within, hphase] at hold ⊢
    omega

theorem Timely.due (ht : Timely h start acts s) : Timely h start (acts ++ [act]) s.due := by
  have hs' := ht.covered.due
  rcases due_cases s with hsame | ⟨at_, hphase, hdue⟩
  · rw [hsame]
    exact ht.same
  · rw [hdue] at hs' ⊢
    refine ht.advance hs' nofun nofun fun late time hold => ?_
    simp only [Within, hphase] at hold ⊢
    omega

theorem Timely.take (ht : Timely h start acts s) : Timely h start (acts ++ [act]) s.take := by
  have hs' := ht.covered.take
  rcases take_cases s with hsame | ⟨till, hphase, htill, htake⟩
  · rw [hsame]
    exact ht.same
  · rw [htake] at hs' ⊢
    refine ht.advance hs' nofun nofun fun late time hold => ?_
    simp only [Within, hphase] at hold ⊢
    omega

theorem Timely.copy (ht : Timely h start acts s) (hs : s = exec (SavedState.step h) start acts) :
    Timely h start (acts ++ [act]) s.copy := by
  have hs' := ht.covered.copy
  rcases copy_cases s with hsame | ⟨hphase, hcopy⟩
  · rw [hsame]
    exact ht.same
  · rw [hcopy] at hs' ⊢
    refine ht.advance hs' nofun (fun c hc => ?_) fun late time hold => ?_
    · obtain rfl := FlushPhase.copied.inj hc
      subst hs
      exact (seen_now (P := fun d => d = (exec (SavedState.step h) start acts).memory) rfl).snoc
    · simp only [Within, hphase] at hold ⊢
      omega

/-- A save that goes through or is held back: the snapshot is of this very instant. -/
theorem Timely.write (ht : Timely h start acts s) :
    Timely h start (acts ++ [act]) (s.write h true) := by
  by_cases hphase : ∃ c, s.phase = .copied c
  · obtain ⟨c, hphase⟩ := hphase
    have hs' := ht.covered.write true
    obtain ⟨frame, -, hend⟩ := write_spec ht.covered.noted hphase true
    have hseen : Seen h start (acts ++ [act]) (fun d => d = c) s.clock := (ht.copied c hphase).snoc
    obtain ⟨time, htime, -, howed⟩ := ht.synced
    cases hend with
    | failed phase failed why => cases why
    | done phase failed saved =>
      have hlast : ∀ last, (s.write h true).file.gate.last = some last → last.writtenAt ≤ s.clock := by
        intro last hlast
        rcases write_last s true with hold | hnew
        · exact ht.written last (hold ▸ hlast)
        · rw [hnew last hlast]
      exact
        { covered := hs'
          cache := frame.cache.trans ht.cache
          failed := failed
          written := by rw [frame.clock]; exact hlast
          copied := fun d hd => by rw [phase] at hd; cases hd
          shaped := by
            refine ⟨s.clock, hseen.mono fun d hd => ?_, ?_⟩
            · rw [hd]
              exact .inl saved
            · simp only [Within, phase, frame.clock]
              omega
          synced := by
            refine ⟨s.clock, hseen.mono fun d hd => ?_, ?_, ⟨?_, ?_, hlast⟩⟩
            · rw [hd]
              exact saved
            · simp only [Within, phase, frame.clock]
              omega
            · intro _
              rw [frame.clock]
            · intro due hdue
              rw [phase] at hdue
              cases hdue }
    | held at_ phase failed saved back early last =>
      obtain ⟨hshape, written, hwritten, hat⟩ := back
      have hdue : at_ ≤ time + s.cache.refresh := by
        have hearlier := howed.last written hwritten
        rw [hat, ht.covered.refresh]
        omega
      exact
        { covered := hs'
          cache := frame.cache.trans ht.cache
          failed := failed
          written := by rw [last, frame.clock]; exact ht.written
          copied := fun d hd => by rw [phase] at hd; cases hd
          shaped := by
            refine ⟨s.clock, hseen.mono fun d hd => ?_, ?_⟩
            · rw [hd, saved, frame.cache]
              exact .inr hshape
            · simp only [Within, phase, frame.clock]
              omega
          synced := by
            refine ⟨time, ?_, ?_, ⟨?_, ?_, ?_⟩⟩
            · rw [saved]
              exact htime.snoc
            · simp only [Within, phase, frame.clock, frame.cache]
              omega
            · intro hidle
              rw [phase] at hidle
              cases hidle
            · intro due hheld
              rw [phase] at hheld
              obtain rfl := Option.some.inj (FlushPhase.waiting.inj hheld)
              rw [frame.cache]
              exact hdue
            · rw [last]
              exact howed.last }
  · rw [write_other (fun c hc => hphase ⟨c, hc⟩)]
    exact ht.same

/-- Time passes where everything marked is on disk, is held back or is being slept on. -/
theorem Timely.tick (ht : Timely h start acts s) {ms : Nat} (hprompt : Prompt s (.tick ms))
    (hs : { s with clock := s.clock + ms } = exec (SavedState.step h) start (acts ++ [.tick ms])) :
    Timely h start (acts ++ [.tick ms]) { s with clock := s.clock + ms } := by
  obtain ⟨hsilent, hidle, hphase⟩ := hprompt
  have hs' : Covered h { s with clock := s.clock + ms } := ht.covered.tick ms
  have hkept := ht.covered.kept hsilent
  have hnow : ∀ P : C → Prop, P s.memory → Seen h start (acts ++ [.tick ms]) P (s.clock + ms) := by
    intro P hP
    have hseen : P (exec (SavedState.step h) start (acts ++ [.tick ms])).memory →
        Seen h start (acts ++ [.tick ms]) P _ := seen_now
    rw [← hs] at hseen
    exact hseen hP
  have hwritten : ∀ last, s.file.gate.last = some last → last.writtenAt ≤ s.clock + ms :=
    fun last hlast => (ht.written last hlast).trans (Nat.le_add_right _ _)
  have hquiet : s.file.wake = false → ¬ s.OnItsWay := fun hwake =>
    Quiet.not_on_its_way ⟨hwake, hidle⟩
  obtain ⟨shapeTime, hshape, hshapeIn⟩ := ht.shaped
  obtain ⟨time, hcontent, hin, howed⟩ := ht.synced
  cases hp : s.phase with
  | waiting due =>
    cases due with
    | none =>
      simp only [hp] at hphase
      have hsynced : Synced h s := by
        rcases hkept.resting hp with hway | hfail | hsynced
        · exact absurd hway (hquiet hphase)
        · rw [ht.failed] at hfail
          cases hfail
        · exact hsynced
      rw [hp] at hs'
      refine ⟨hs', ht.cache, ht.failed, hwritten, nofun, ⟨_, hnow _ (.inl hsynced), ?_⟩,
        ⟨_, hnow _ hsynced, ?_, fun _ => Nat.le_refl _, nofun, hwritten⟩⟩
      · simp only [Within]
        omega
      · simp only [Within]
        omega
    | some at_ =>
      simp only [hp] at hphase
      obtain ⟨hwake, hbefore⟩ := hphase
      have hshaped : Alike h s.cache s.saved s.memory := by
        rcases hkept.held at_ hp with hway | hback
        · exact absurd hway (hquiet hwake)
        · exact .inr hback.1
      have hdue := howed.deferred at_ hp
      have hheld := howed.deferred
      rw [hp] at hs' hheld
      refine ⟨hs', ht.cache, ht.failed, hwritten, nofun, ⟨_, hnow _ hshaped, ?_⟩,
        ⟨time, hcontent.snoc, ?_, nofun, hheld, howed.last⟩⟩
      · simp only [Within]
        omega
      · simp only [Within]
        omega
  | sleeping till =>
    simp only [hp] at hphase
    simp only [Within, hp] at hshapeIn hin
    rw [hp] at hs'
    refine ⟨hs', ht.cache, ht.failed, hwritten, nofun, ⟨shapeTime, hshape.snoc, ?_⟩,
      ⟨time, hcontent.snoc, ?_, nofun, nofun, howed.last⟩⟩
    · simp only [Within]
      omega
    · simp only [Within]
      omega
  | taken => simp only [hp] at hphase
  | copied c => simp only [hp] at hphase
  | stopped => simp only [hp] at hphase
  | finished => simp only [hp] at hphase

theorem Timely.step (ht : Timely h start acts s) (hprompt : Prompt s act)
    (hs : s = exec (SavedState.step h) start acts) :
    Timely h start (acts ++ [act]) (s.step h act) := by
  cases act with
  | change request c =>
    have hs' := ht.covered.change request c
    show Timely h start _ (s.change request c)
    unfold SavedState.change at hs' ⊢
    split at hs' <;> exact ht.keep hs' rfl rfl rfl rfl rfl rfl
  | store request =>
    have hs' := ht.covered.store request
    show Timely h start _ (s.store request)
    unfold SavedState.store at hs' ⊢
    split at hs' <;> exact ht.keep hs' rfl rfl rfl rfl rfl rfl
  | notify request =>
    have hs' := ht.covered.notify request
    show Timely h start _ (s.notify request)
    unfold SavedState.notify at hs' ⊢
    split at hs' <;> exact ht.keep hs' rfl rfl rfl rfl rfl rfl
  | unmarked c => exact ht.keep (ht.covered.unmarked c) rfl rfl rfl rfl rfl rfl
  | wake => exact ht.wake
  | due => exact ht.due
  | take => exact ht.take
  | copy => exact ht.copy hs
  | write ok =>
    obtain rfl : ok = true := hprompt
    exact ht.write
  | stop => exact hprompt.elim
  | finish enabled ok =>
    have hphase : s.phase ≠ .stopped := by
      obtain ⟨time, -, hwithin⟩ := ht.shaped
      intro hstopped
      simp only [Within, hstopped] at hwithin
    have hsame : s.finish h enabled ok = s := by
      unfold SavedState.finish
      split
      · exact absurd ‹_› hphase
      · rfl
    show Timely h start _ (s.finish h enabled ok)
    rw [hsame]
    exact ht.same
  | tick ms =>
    refine ht.tick hprompt ?_
    rw [exec_snoc, ← hs]
    rfl

end Timed

theorem timely_new (h : CacheHashes C) (cache : SavedCache) (boot : C) :
    Timely h (new cache boot) [] (new cache boot) where
  covered := covered_new h cache boot
  cache := rfl
  failed := rfl
  written := nofun
  copied := nofun
  shaped := ⟨0, ⟨[], List.prefix_rfl, Nat.zero_le _, .inl rfl⟩, Nat.zero_le _⟩
  synced := ⟨0, ⟨[], List.prefix_rfl, Nat.zero_le _, rfl⟩, Nat.zero_le _,
    ⟨fun _ => Nat.le_refl _, nofun, nofun⟩⟩

theorem timely_run (h : CacheHashes C) (cache : SavedCache) (boot : C) {acts : List (SaveAct C)}
    (hprompt : EachStep (step h) Prompt (new cache boot) acts) :
    Timely h (new cache boot) acts (exec (step h) (new cache boot) acts) := by
  induction acts using List.reverseRecOn with
  | nil => exact timely_new h cache boot
  | append_singleton acts act ih =>
    obtain ⟨hbefore, hlast⟩ := each_step_append.mp hprompt
    rw [exec_snoc]
    exact (ih hbefore).step (each_step_cons.mp hlast).1 rfl

theorem Within.le {late time : Nat} (hwithin : Within late s time) :
    s.clock ≤ time + late + s.cache.delay := by
  cases hp : s.phase <;> simp only [Within, hp] at hwithin <;> omega

end SavedState

end TeamClaude
