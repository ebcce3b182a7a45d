import TeamClaude.Machine
import TeamClaude.Lib.Exec
import TeamClaude.Lib.TailArchive
import Mathlib.Data.List.Sort

/-!
# The usage ledger's day files

A day's lines are appended to a plain file; a closed day is compressed, one file-system step after
the other, any of which may fail or be the last one of the process. A gzip file is its decompressed
text.
-/

namespace TeamClaude

open Lib

abbrev Bytes := List UInt8

/-- A UTC date, in days since the epoch. -/
abbrev Day := Int

def ledgerDate (tsMs : Int) : Day :=
  match msToOdt tsMs with
  | some t => t / 86400000000000
  | none => 0

/-- A ledger line: its instant and its JSON text. -/
structure LedgerLine where
  t : Int
  json : Bytes
  deriving DecidableEq

namespace LedgerLine

def day (line : LedgerLine) : Day :=
  ledgerDate line.t

/-- The line as it is appended, newline last. -/
def bytes (line : LedgerLine) : Bytes :=
  line.json ++ [10]

theorem bytes_ne_nil (line : LedgerLine) : line.bytes ≠ [] := by
  simp [bytes]

end LedgerLine

/-- The files of one day: `.jsonl`, `.jsonl.gz` and the temporary one. -/
structure DayFiles where
  plain : Option Bytes := none
  gz : Option Bytes := none
  temp : Option Bytes := none
  deriving DecidableEq

namespace DayFiles

/-- The two files that readers look at. -/
def both (f : DayFiles) : TailArchive UInt8 :=
  ⟨f.gz, f.plain⟩

/-- `read_ledger_day` -/
def read (f : DayFiles) : Bytes :=
  f.both.read

end DayFiles

/-- How one file-system step goes: it fails, or the process stops before it. -/
inductive Outcome
  | done
  | failed
  | stopped
  deriving DecidableEq

inductive Ending
  | done
  | failed
  | stopped
  deriving DecidableEq

/-- What each file-system step of one compression meets. -/
structure CompressRun where
  readPlain : Outcome := .done
  readGz : Outcome := .done
  writeTemp : Outcome := .done
  /-- What a write that was cut short left. -/
  partialTemp : Option Bytes := none
  readBack : Outcome := .done
  rename : Outcome := .done
  cleanup : Outcome := .done
  removePlain : Outcome := .done
  statGz : Outcome := .done

/-- A step in the sequence of `compress_day`: what follows it runs only where it is done. -/
def Outcome.andThen (o : Outcome) (f : DayFiles) (next : DayFiles × Ending) : DayFiles × Ending :=
  match o with
  | .done => next
  | .failed => (f, .failed)
  | .stopped => (f, .stopped)

namespace DayFiles

/-- The last steps: the plain file goes, then the report asks for the sizes. -/
def removeThePlain (f : DayFiles) (run : CompressRun) : DayFiles × Ending :=
  run.removePlain.andThen f
    (run.statGz.andThen { f with plain := none } ({ f with plain := none }, .done))

/-- A failure before the rename takes the temporary file away, if it can. -/
def giveUp (f : DayFiles) (run : CompressRun) : DayFiles × Ending :=
  run.cleanup.andThen f ({ f with temp := none }, .failed)

/-- A step before the rename: its failure gives the temporary file up. -/
def beforeRename (o : Outcome) (f : DayFiles) (run : CompressRun) (next : DayFiles × Ending) :
    DayFiles × Ending :=
  match o with
  | .done => next
  | .failed => f.giveUp run
  | .stopped => (f, .stopped)

def compress (f : DayFiles) (run : CompressRun) : DayFiles × Ending :=
  match f.plain with
  | none => (f, .done)
  | some plain =>
    run.readPlain.andThen f <| run.readGz.andThen f <|
      let content := f.gz.getD []
      if content ≠ [] ∧ plain <:+ content then
        -- A pass that stopped after its rename: the `.gz` already holds these lines.
        f.removeThePlain run
      else
        let full := content ++ plain
        beforeRename run.writeTemp { f with temp := run.partialTemp } run <|
          beforeRename run.readBack { f with temp := some full } run <|
            beforeRename run.rename { f with temp := some full } run <|
              removeThePlain { f with gz := some full, temp := none } run

end DayFiles

/-- The directory and the writer thread: the day file it holds open, which a pass may have
unlinked, the days its pass has still to compress and, as history, the lines appended. -/
structure LedgerState where
  files : Day → DayFiles := fun _ => {}
  /-- The days with a file in the directory. -/
  listed : List Day := []
  opened : Option (Day × Bool) := none
  pending : List Day := []
  appended : Day → List LedgerLine := fun _ => []

inductive AppendOutcome
  | written
  | openFailed
  | writeFailed
  deriving DecidableEq

inductive LedgerEvent
  | append (line : LedgerLine) (outcome : AppendOutcome)
  | beginPass (today : Day) (unread : List Day)
  | compressNext (run : CompressRun)
  | stop

namespace LedgerState

/-- `open_day_file`, where the day's file is not the one held open. -/
def openDay (s : LedgerState) (d : Day) : LedgerState :=
  if s.opened.map Prod.fst = some d then s
  else
    { s with
      files := Function.update s.files d
        { s.files d with plain := some ((s.files d).plain.getD []) }
      listed := if d ∈ s.listed then s.listed else d :: s.listed
      opened := some (d, true) }

/-- The line goes to the file held open, which is no day's file once it was unlinked. -/
def write (s : LedgerState) (line : LedgerLine) : LedgerState :=
  { s with
    files :=
      if s.opened = some (line.day, true) then
        Function.update s.files line.day
          { s.files line.day with
            plain := some ((s.files line.day).plain.getD [] ++ line.bytes) }
      else s.files
    appended := Function.update s.appended line.day (s.appended line.day ++ [line]) }

def tryAppend (s : LedgerState) (line : LedgerLine) (outcome : AppendOutcome) : LedgerState :=
  match outcome with
  | .written => (s.openDay line.day).write line
  | .openFailed => s
  | .writeFailed => s.openDay line.day

/-- The plain days before yesterday, in order, but for those the listing failed on. -/
def closedDays (s : LedgerState) (today : Day) (unread : List Day) : List Day :=
  (s.listed.filter fun d => (s.files d).plain.isSome && decide (d < today - 1) &&
    !decide (d ∈ unread)).insertionSort (· ≤ ·)

/-- A removed plain file stays open under the handle that holds it. -/
def unlink (s : LedgerState) (d : Day) (after : DayFiles) : Option (Day × Bool) :=
  s.opened.map fun h =>
    (h.1, h.2 && !(decide (h.1 = d) && (s.files d).plain.isSome && after.plain.isNone))

/-- The next day of `compress_closed_days`. -/
def compressNext (s : LedgerState) (run : CompressRun) : LedgerState :=
  match s.pending with
  | [] => s
  | d :: rest =>
    let r := (s.files d).compress run
    { s with
      files := Function.update s.files d r.1
      opened := if r.2 = .stopped then none else s.unlink d r.1
      pending := if r.2 = .stopped then [] else rest }

/-- The process ends; its handle and its pass with it. -/
def stopProcess (s : LedgerState) : LedgerState :=
  { s with opened := none, pending := [] }

def step (s : LedgerState) : LedgerEvent → LedgerState
  | .append line outcome => s.tryAppend line outcome
  | .beginPass today unread => { s with pending := s.closedDays today unread }
  | .compressNext run => s.compressNext run
  | .stop => s.stopProcess

/-- Every day reads as its lines, each once and in order. -/
def Reads (s : LedgerState) : Prop :=
  ∀ d, (s.files d).read = ((s.appended d).map LedgerLine.bytes).flatten

/-- The file held open for the line's day is linked, and the day's plain file holds news, before
the line and with it. -/
def Takes (s : LedgerState) (line : LedgerLine) : Prop :=
  s.opened ≠ some (line.day, false) ∧ (s.files line.day).both.Takes line.bytes

instance {s : LedgerState} {line : LedgerLine} : Decidable (s.Takes line) :=
  inferInstanceAs (Decidable (_ ∧ _))

/-- A line that is written finds its day ready to take it. -/
def Ready (s : LedgerState) : LedgerEvent → Prop
  | .append line .written => s.Takes line
  | _ => True

end LedgerState

/-! ## Compression -/

section Compress

variable {f : DayFiles} {run : CompressRun}

theorem read_and_then {o : Outcome} {next : DayFiles × Ending} {b : Bytes} (hf : f.read = b)
    (hnext : next.1.read = b) : (o.andThen f next).1.read = b := by
  cases o with
  | done => exact hnext
  | failed => exact hf
  | stopped => exact hf

theorem read_remove_the_plain {b : Bytes} (hf : f.read = b)
    (hgone : ({ f with plain := none } : DayFiles).read = b) :
    (f.removeThePlain run).1.read = b :=
  read_and_then hf (read_and_then hgone hgone)

theorem read_before_rename {o : Outcome} {next : DayFiles × Ending} {b : Bytes} (hf : f.read = b)
    (hnext : next.1.read = b) : (DayFiles.beforeRename o f run next).1.read = b := by
  cases o with
  | done => exact hnext
  | failed => exact read_and_then hf hf
  | stopped => exact hf

theorem read_compress : (f.compress run).1.read = f.read := by
  unfold DayFiles.compress
  cases hplain : f.plain with
  | none => rfl
  | some plain =>
    have hfiles : f.both = ⟨f.gz, some plain⟩ := by rw [DayFiles.both, hplain]
    refine read_and_then rfl (read_and_then rfl ?_)
    show (ite _ _ _ : DayFiles × Ending).1.read = _
    split
    · rename_i hleft
      obtain ⟨hne, hsuffix⟩ := hleft
      cases hgz : f.gz with
      | none => exact absurd (by rw [hgz]; rfl) hne
      | some a =>
        rw [hgz, Option.getD_some] at hsuffix
        refine read_remove_the_plain rfl ?_
        rw [DayFiles.read, DayFiles.read, hfiles, DayFiles.both]
        rw [hgz]
        exact TailArchive.read_leftover hsuffix
    · rename_i hnews
      have hnews : f.both.archive.getD [] = [] ∨ ¬plain <:+ f.both.archive.getD [] := by
        rw [hfiles]
        by_cases hempty : f.gz.getD [] = []
        · exact .inl hempty
        · exact .inr fun h => hnews ⟨hempty, h⟩
      have hfull : f.gz.getD [] ++ plain = f.both.folded := by
        rw [hfiles]
        rfl
      have hfold : TailArchive.read ⟨some f.both.folded, some plain⟩ = f.read :=
        TailArchive.read_folded (by rw [hfiles]) hnews
      have htemp : ∀ t, ({ plain := some plain, gz := f.gz, temp := t } : DayFiles).read = f.read := by
        intro t
        rw [DayFiles.read, DayFiles.read, hfiles]
        rfl
      refine read_before_rename (htemp _) (read_before_rename (htemp _)
        (read_before_rename (htemp _) ?_))
      have hsuffix : plain <:+ f.both.folded := by
        rw [← hfull]
        exact List.suffix_append _ _
      rw [hfull]
      refine read_remove_the_plain hfold ?_
      rw [← hfold]
      exact TailArchive.read_leftover hsuffix

end Compress

namespace LedgerState

variable {s : LedgerState} {line : LedgerLine}

/-! ## Appends -/

theorem files_open_day {d : Day} : (s.openDay d).files d =
    if s.opened.map Prod.fst = some d then s.files d
    else { s.files d with plain := some ((s.files d).plain.getD []) } := by
  unfold openDay
  split <;> simp

theorem files_open_day_ne {d e : Day} (h : e ≠ d) : (s.openDay d).files e = s.files e := by
  unfold openDay
  split
  · rfl
  · exact Function.update_of_ne h _ _

/-- Opening a day's file adds no text. -/
theorem both_open_day (d : Day) : ((s.openDay d).files d).read = (s.files d).read ∧
    ((s.openDay d).files d).gz = (s.files d).gz ∧
      ((s.openDay d).files d).plain.getD [] = (s.files d).plain.getD [] := by
  rw [files_open_day]
  split
  · exact ⟨rfl, rfl, rfl⟩
  · exact ⟨TailArchive.read_touch (s.files d).both, rfl, rfl⟩

theorem appended_open_day (d : Day) : (s.openDay d).appended = s.appended := by
  unfold openDay
  split <;> rfl

/-- After opening, the handle is the day's, and linked unless it was held and had been unlinked. -/
theorem opened_open_day (d : Day) :
    (s.openDay d).opened = some (d, true) ↔ s.opened ≠ some (d, false) := by
  unfold openDay
  split
  · rename_i hheld
    obtain ⟨h, hh, rfl⟩ := Option.map_eq_some_iff.mp hheld
    obtain ⟨e, linked⟩ := h
    rw [hh]
    cases linked <;> simp
  · rename_i hother
    simp only [true_iff]
    intro h
    rw [h] at hother
    exact hother rfl

theorem reads_open_day (h : s.Reads) (d : Day) : (s.openDay d).Reads := by
  intro e
  rw [appended_open_day]
  by_cases he : e = d
  · subst he
    rw [(both_open_day e).1]
    exact h e
  · rw [files_open_day_ne he]
    exact h e

/-- A line that was written is found exactly where the day took it. -/
theorem reads_append_iff (h : s.Reads) :
    (s.tryAppend line .written).Reads ↔ s.Takes line := by
  have hopen := reads_open_day h line.day
  have hold : ((s.openDay line.day).files line.day).read =
      (((s.openDay line.day).appended line.day).map LedgerLine.bytes).flatten := hopen line.day
  have hothers : ∀ e, e ≠ line.day → ((s.tryAppend line .written).files e).read =
      (((s.tryAppend line .written).appended e).map LedgerLine.bytes).flatten := by
    intro e he
    simp only [tryAppend, write, Function.update_of_ne he]
    split
    · rw [Function.update_of_ne he]
      exact hopen e
    · exact hopen e
  have hday : (s.tryAppend line .written).Reads ↔
      ((s.tryAppend line .written).files line.day).read =
        ((s.openDay line.day).files line.day).read ++ line.bytes := by
    constructor
    · intro hreads
      rw [hreads line.day, hold]
      simp [tryAppend, write]
    · intro hread e
      by_cases he : e = line.day
      · subst he
        rw [hread, hold]
        simp [tryAppend, write]
      · exact hothers e he
  rw [hday]
  by_cases hlinked : s.opened = some (line.day, false)
  · have hlost : (s.openDay line.day).opened ≠ some (line.day, true) := by
      rw [ne_eq, opened_open_day, not_not]
      exact hlinked
    simp only [Takes, hlinked, ne_eq, not_true, false_and, iff_false]
    simp only [tryAppend, write, if_neg hlost]
    intro heq
    exact line.bytes_ne_nil (by simpa using heq)
  · have hheld : (s.openDay line.day).opened = some (line.day, true) :=
      (opened_open_day line.day).mpr hlinked
    obtain ⟨hread, hgz, hplain⟩ := both_open_day (s := s) line.day
    have hfile : (s.tryAppend line .written).files line.day =
        { (s.openDay line.day).files line.day with
          plain := some ((s.files line.day).plain.getD [] ++ line.bytes) } := by
      simp only [tryAppend, write, if_pos hheld, Function.update_self, hplain]
    have hboth : ((s.tryAppend line .written).files line.day).both =
        (s.files line.day).both.add line.bytes := by
      rw [hfile]
      simp only [DayFiles.both, TailArchive.add, hgz]
    rw [hread, Takes, and_iff_right hlinked, ← TailArchive.read_add_iff line.bytes_ne_nil,
      ← hboth]
    rfl

/-! ## Runs -/

theorem reads_compress_next (h : s.Reads) (run : CompressRun) : (s.compressNext run).Reads := by
  unfold compressNext
  cases s.pending with
  | nil => exact h
  | cons d rest =>
    intro e
    show (Function.update s.files d _ e).read = _
    by_cases he : e = d
    · subst he
      rw [Function.update_self, read_compress]
      exact h e
    · rw [Function.update_of_ne he]
      exact h e

/-- Every event but a line the day does not take keeps the days readable. -/
theorem reads_step (h : s.Reads) (e : LedgerEvent) (hready : s.Ready e) : (s.step e).Reads := by
  cases e with
  | append line outcome =>
    cases outcome with
    | written => exact (reads_append_iff h).mpr hready
    | openFailed => exact h
    | writeFailed => exact reads_open_day h line.day
  | beginPass today unread => exact h
  | compressNext run => exact reads_compress_next h run
  | stop => exact h

/-- The usage ledger survives compression: in a run whose lines all find their day's file linked
and holding news, every day reads as its lines, each once and in order, whatever steps of the
passes fail or stop the process. -/
theorem ledger_survives (events : List LedgerEvent) (hready : EachStep step Ready {} events) :
    ∀ pre, pre <+: events → (exec step {} pre).Reads :=
  exec_invariant (fun _ e h hready => reads_step h e hready) (fun _ => rfl) hready

def lineOf (d : Day) (text : UInt8) : LedgerLine where
  t := d * 86400000
  json := [text]

/-- Day 0 is compressed on day 2, in the way the pass went. -/
def compressedDay (run : CompressRun) : List LedgerEvent :=
  [.append (lineOf 0 97) .written, .append (lineOf 2 98) .written, .beginPass 2 [], .compressNext run]

theorem ledger_survives_late_line :
    (exec step {} (compressedDay {} ++ [.append (lineOf 0 99) .written])).Reads := by
  refine ledger_survives (compressedDay {} ++ [.append (lineOf 0 99) .written]) ?_ _
    (List.prefix_refl _)
  refine each_step_cons.mpr ⟨?_, each_step_cons.mpr ⟨?_, each_step_cons.mpr ⟨trivial,
    each_step_cons.mpr ⟨trivial, each_step_cons.mpr ⟨?_, each_step_nil⟩⟩⟩⟩⟩
  · show Takes _ _
    decide +kernel
  · show Takes _ _
    decide +kernel
  · show Takes _ _
    decide +kernel

/-- A late line after a pass that stopped before its remove makes the day's lines read twice; a
late line equal to the last one compressed is lost; and so is a late line of a day whose plain file
the pass removed under the open handle. -/
theorem late_lines_misread :
    ¬(exec step {} (compressedDay { removePlain := .stopped } ++
        [.append (lineOf 0 99) .written])).Reads ∧
      ¬(exec step {} (compressedDay {} ++ [.append (lineOf 0 97) .written])).Reads ∧
      ¬(exec step {} [.append (lineOf 0 97) .written, .append (lineOf 1 98) .written,
        .append (lineOf 3 99) .written, .beginPass 3 [], .compressNext {},
        .append (lineOf 1 100) .written, .compressNext {},
        .append (lineOf 1 101) .written]).Reads := by
  refine ⟨fun h => ?_, fun h => ?_, fun h => ?_⟩
  · exact absurd (h 0) (by decide +kernel)
  · exact absurd (h 0) (by decide +kernel)
  · exact absurd (h 1) (by decide +kernel)

end LedgerState

end TeamClaude
