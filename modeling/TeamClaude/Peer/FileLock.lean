import TeamClaude.Lib.Exec
import Mathlib.Data.Set.Insert
import Mathlib.Logic.Function.Basic

/-!
# The peers-file lock

Processes that take and drop the lock file, one file-system call at a time. A waiter reads the age
of the file, decides, and removes it by name: the file it removes need not be the one it read.
-/

namespace TeamClaude

def lockWaitMs : Nat := 5000

def lockStaleMs : Nat := 2000

def asMillis (nanos : Nat) : Nat :=
  nanos / 1000000

/-- The lock file: who created it, and its modification time. -/
structure LockFile where
  creator : Nat
  modified : Nat
  deriving DecidableEq

/-- Where one process stands in `acquire` and `drop`. -/
inductive LockPhase
  | idle
  | trying (started : Nat)
  | checking (started : Nat)
  | aging (started modified : Nat)
  | breaking (started : Nat)
  | waiting (started : Nat)
  | holding (since : Nat)
  | crashed
  deriving DecidableEq

/-- One step of a process, or of the clock. -/
inductive LockAct
  | begin (proc : Nat)
  | create (proc : Nat)
  | createFails (proc : Nat)
  | stat (proc : Nat)
  | statFails (proc : Nat)
  | elapsed (proc : Nat)
  | remove (proc : Nat)
  | wait (proc : Nat)
  | drop (proc : Nat)
  | crash (proc : Nat)
  | tick (nanos : Nat)

/-- The lock file, the clock in nanoseconds, and the processes. -/
structure Locking where
  file : Option LockFile
  now : Nat
  phase : Nat → LockPhase

namespace Locking

/-- Every process is about to ask; a file may have been left behind. -/
def start (file : Option LockFile) (now : Nat) : Locking :=
  { file, now, phase := fun _ => .idle }

def move (s : Locking) (proc : Nat) (phase : LockPhase) : Locking :=
  { s with phase := Function.update s.phase proc phase }

def step (s : Locking) : LockAct → Locking
  | .begin proc =>
    match s.phase proc with
    | .idle => s.move proc (.trying s.now)
    | _ => s
  | .create proc =>
    match s.phase proc with
    | .trying started =>
      match s.file with
      | none =>
        { s with file := some ⟨proc, s.now⟩ }.move proc (.holding s.now)
      | some _ => s.move proc (.checking started)
    | _ => s
  | .createFails proc =>
    match s.phase proc with
    | .trying _ => s.move proc .idle
    | _ => s
  | .stat proc =>
    match s.phase proc with
    | .checking started =>
      match s.file with
      | none => s.move proc (.waiting started)
      | some file => s.move proc (.aging started file.modified)
    | _ => s
  | .statFails proc =>
    match s.phase proc with
    | .checking started => s.move proc (.waiting started)
    | _ => s
  | .elapsed proc =>
    match s.phase proc with
    | .aging started modified =>
      if lockStaleMs < asMillis (s.now - modified) then s.move proc (.breaking started)
      else s.move proc (.waiting started)
    | _ => s
  | .remove proc =>
    match s.phase proc with
    | .breaking started =>
      match s.file with
      | none => s.move proc .idle
      | some _ => { s with file := none }.move proc (.trying started)
    | _ => s
  | .wait proc =>
    match s.phase proc with
    | .waiting started =>
      if lockWaitMs < asMillis (s.now - started) then s.move proc .idle
      else s.move proc (.trying started)
    | _ => s
  | .drop proc =>
    match s.phase proc with
    | .holding _ => { s with file := none }.move proc .idle
    | _ => s
  | .crash proc => s.move proc .crashed
  | .tick nanos => { s with now := s.now + nanos }

/-- A live process holds the lock for less than the stale bound. -/
def Timely (s : Locking) : LockAct → Prop
  | .tick nanos => ∀ proc since, s.phase proc = .holding since →
      s.now + nanos - since < lockStaleMs * 1000000
  | _ => True

/-- A waiter that removes the file finds one that is older than the bound. -/
def BreaksStale (s : Locking) : LockAct → Prop
  | .remove proc => ∀ started file, s.phase proc = .breaking started → s.file = some file →
      lockStaleMs < asMillis (s.now - file.modified)
  | _ => True

/-- A live holder's file is the one at the path, and it is not old. -/
structure Exclusive (s : Locking) : Prop where
  own : ∀ proc since, s.phase proc = .holding since → s.file = some ⟨proc, since⟩
  young : ∀ proc since, s.phase proc = .holding since → s.now - since < lockStaleMs * 1000000

variable {s : Locking} {proc : Nat}

@[simp] theorem move_file (s : Locking) (proc : Nat) (phase : LockPhase) :
    (s.move proc phase).file = s.file := rfl

@[simp] theorem move_now (s : Locking) (proc : Nat) (phase : LockPhase) :
    (s.move proc phase).now = s.now := rfl

/-- Who holds after a move: the process that moved, into it, and everyone else as before. -/
theorem holding_move {phase : LockPhase} {other since : Nat}
    (h : (s.move proc phase).phase other = .holding since) :
    (other = proc ∧ phase = .holding since) ∨ (other ≠ proc ∧ s.phase other = .holding since) := by
  by_cases ho : other = proc
  · subst ho
    exact .inl ⟨rfl, by simpa [move] using h⟩
  · exact .inr ⟨ho, by simpa [move, ho] using h⟩

theorem Exclusive.move (h : s.Exclusive) {phase : LockPhase} (hp : ∀ since, phase ≠ .holding since) :
    (s.move proc phase).Exclusive := by
  constructor
  · intro other since ho
    rcases holding_move ho with ⟨-, hc⟩ | ⟨-, hs⟩
    · exact absurd hc (hp since)
    · exact h.own other since hs
  · intro other since ho
    rcases holding_move ho with ⟨-, hc⟩ | ⟨-, hs⟩
    · exact absurd hc (hp since)
    · exact h.young other since hs

/-- Once nobody else holds, the file can go. -/
theorem Exclusive.remove {phase : LockPhase} (hp : ∀ since, phase ≠ .holding since)
    (hnone : ∀ other since, other ≠ proc → s.phase other ≠ .holding since) :
    ({ s with file := none }.move proc phase).Exclusive := by
  constructor <;>
  · intro other since ho
    rcases holding_move ho with ⟨-, hc⟩ | ⟨hne, hs⟩
    · exact absurd hc (hp since)
    · exact absurd hs (hnone other since hne)

/-- A file older than the bound belongs to no live holder. -/
theorem Exclusive.stale_free (h : s.Exclusive) {file : LockFile} (hfile : s.file = some file)
    (hstale : lockStaleMs < asMillis (s.now - file.modified)) (other since : Nat) :
    s.phase other ≠ .holding since := by
  intro hs
  have hyoung := h.young other since hs
  have hown := h.own other since hs
  rw [hfile, Option.some.injEq] at hown
  subst hown
  simp only [asMillis] at hstale
  omega

theorem Exclusive.single (h : s.Exclusive) {p q since since' : Nat}
    (hp : s.phase p = .holding since) (hq : s.phase q = .holding since') : p = q := by
  have hown := (h.own p since hp).symm.trans (h.own q since' hq)
  rw [Option.some.injEq, LockFile.mk.injEq] at hown
  exact hown.1

theorem exclusive_create (h : s.Exclusive) (proc : Nat) : (s.step (.create proc)).Exclusive := by
  simp only [step]
  split
  · split
    · rename_i hfree
      constructor
      · intro other since ho
        rcases holding_move ho with ⟨rfl, hc⟩ | ⟨-, hs⟩
        · cases hc
          rfl
        · rw [h.own other since hs] at hfree
          cases hfree
      · intro other since ho
        rcases holding_move ho with ⟨rfl, hc⟩ | ⟨-, hs⟩
        · cases hc
          simp [lockStaleMs]
        · exact h.young other since hs
    · exact h.move nofun
  · exact h

theorem exclusive_remove (h : s.Exclusive) (hok : s.BreaksStale (.remove proc)) :
    (s.step (.remove proc)).Exclusive := by
  simp only [step]
  split
  · rename_i started hphase
    split
    · exact h.move nofun
    · rename_i file hfile
      exact .remove nofun fun other since _ =>
        h.stale_free hfile (hok started file hphase hfile) other since
  · exact h

theorem exclusive_drop (h : s.Exclusive) (proc : Nat) : (s.step (.drop proc)).Exclusive := by
  simp only [step]
  split
  · rename_i since hphase
    exact .remove nofun fun other since' hne hs => hne (h.single hs hphase)
  · exact h

theorem exclusive_step (h : s.Exclusive) {act : LockAct} (ht : s.Timely act)
    (hb : s.BreaksStale act) : (s.step act).Exclusive := by
  cases act with
  | create proc => exact exclusive_create h proc
  | remove proc => exact exclusive_remove h hb
  | drop proc => exact exclusive_drop h proc
  | crash proc => exact h.move nofun
  | tick nanos => exact ⟨h.own, ht⟩
  | begin proc | createFails proc | statFails proc =>
    simp only [step]
    split
    · exact h.move nofun
    · exact h
  | stat proc =>
    simp only [step]
    split
    · split <;> exact h.move nofun
    · exact h
  | elapsed proc | wait proc =>
    simp only [step]
    split
    · split <;> exact h.move nofun
    · exact h

theorem exclusive_start (file : Option LockFile) (now : Nat) : (start file now).Exclusive :=
  ⟨nofun, nofun⟩

end Locking

/-- Where every waiter that removes the file finds one older than the bound, no two live processes
hold the lock at once, and a drop removes the file its own process created. -/
theorem file_lock_excludes (file : Option LockFile) (now : Nat) (acts : List LockAct)
    (htimely : Lib.EachStep Locking.step Locking.Timely (.start file now) acts)
    (hbreak : Lib.EachStep Locking.step Locking.BreaksStale (.start file now) acts) :
    (∀ pre, pre <+: acts → ∀ p q since since',
      (Lib.exec Locking.step (.start file now) pre).phase p = .holding since →
      (Lib.exec Locking.step (.start file now) pre).phase q = .holding since' → p = q) ∧
    Lib.EachStep Locking.step (fun s act => ∀ p since, act = .drop p →
      s.phase p = .holding since → s.file = some ⟨p, since⟩) (.start file now) acts := by
  have hok : Lib.EachStep Locking.step (fun s act => s.Timely act ∧ s.BreaksStale act)
      (.start file now) acts := fun pre act hpre => ⟨htimely pre act hpre, hbreak pre act hpre⟩
  have keep : ∀ (s : Locking) act, s.Exclusive → s.Timely act ∧ s.BreaksStale act →
      (s.step act).Exclusive := fun s act hs ha => Locking.exclusive_step hs ha.1 ha.2
  constructor
  · intro pre hpre p q since since' hp hq
    exact (Lib.exec_invariant keep (Locking.exclusive_start file now) hok pre hpre).single hp hq
  · refine Lib.each_step_of_invariant keep ?_ (Locking.exclusive_start file now) hok
    intro s act hs _ p since _ hp
    exact hs.own p since hp

/-- A process takes the lock and dies; one waiter finds the file three seconds old. -/
def staleWait : List LockAct :=
  [.begin 0, .create 0, .crash 0, .tick 3000000000, .begin 1, .create 1, .stat 1, .elapsed 1]

/-- A second waiter reads the same file before the first removes it. -/
def twoWaits : List LockAct :=
  staleWait ++ [.begin 2, .create 2, .stat 2, .elapsed 2]

theorem stale_wait_timely (rest : List LockAct) (h : Lib.EachStep Locking.step Locking.Timely
    (Lib.exec Locking.step (.start none 0) staleWait) rest) :
    Lib.EachStep Locking.step Locking.Timely (.start none 0) (staleWait ++ rest) := by
  simp only [staleWait, List.cons_append, List.nil_append, Lib.each_step_cons]
  refine ⟨trivial, trivial, trivial, ?_, trivial, trivial, trivial, trivial, h⟩
  intro proc since hp
  have hidle : ∀ p, (Lib.exec Locking.step (.start none 0) [.begin 0, .create 0, .crash 0]).phase p =
      if p = 0 then .crashed else .idle := by
    intro p
    by_cases h0 : p = 0 <;>
      simp [Locking.step, Locking.start, Locking.move, h0]
  have hproc := (hidle proc).symm.trans hp
  split at hproc <;> cases hproc

/-- The waiter that breaks the dead holder's file holds the lock alone. -/
theorem breaker_holds_alone :
    {q : Nat | ∃ since, (Lib.exec Locking.step (.start none 0)
      (staleWait ++ [.remove 1, .create 1])).phase q = .holding since} = {1} := by
  have hone : (Lib.exec Locking.step (.start none 0)
      (staleWait ++ [.remove 1, .create 1])).phase 1 = .holding 3000000000 := by decide +kernel
  refine Set.eq_singleton_iff_unique_mem.mpr ⟨⟨_, hone⟩, ?_⟩
  rintro q ⟨since, hq⟩
  refine (file_lock_excludes none 0 (staleWait ++ [.remove 1, .create 1]) ?_ ?_).1 _
    (List.prefix_refl _) q 1 since 3000000000 hq hone
  · apply stale_wait_timely
    simp only [Lib.each_step_cons]
    exact ⟨trivial, trivial, Lib.each_step_nil⟩
  · simp only [staleWait, List.cons_append, List.nil_append, Lib.each_step_cons]
    refine ⟨trivial, trivial, trivial, trivial, trivial, trivial, trivial, trivial, ?_, trivial,
      Lib.each_step_nil⟩
    intro started file _ hfile
    have hleft : (Lib.exec Locking.step (.start none 0) staleWait).file = some ⟨0, 0⟩ := by
      decide +kernel
    have heq := hleft.symm.trans hfile
    cases heq
    decide +kernel

/-- Both waiters act on the age they read: the second removes the file the first has just created,
and both hold the lock. -/
theorem two_breakers_hold :
    Lib.EachStep Locking.step Locking.Timely (.start none 0)
      (twoWaits ++ [.remove 1, .create 1, .remove 2, .create 2]) ∧
    (Lib.exec Locking.step (.start none 0)
      (twoWaits ++ [.remove 1, .create 1, .remove 2, .create 2])).phase 1 = .holding 3000000000 ∧
    (Lib.exec Locking.step (.start none 0)
      (twoWaits ++ [.remove 1, .create 1, .remove 2, .create 2])).phase 2 = .holding 3000000000 := by
  refine ⟨?_, by decide +kernel, by decide +kernel⟩
  rw [twoWaits, List.append_assoc]
  apply stale_wait_timely
  simp only [List.cons_append, List.nil_append, Lib.each_step_cons]
  exact ⟨trivial, trivial, trivial, trivial, trivial, trivial, trivial, trivial, Lib.each_step_nil⟩

end TeamClaude
