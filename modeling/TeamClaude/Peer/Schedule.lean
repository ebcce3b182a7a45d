import TeamClaude.Machine
import Mathlib.Data.Finset.Basic

/-!
# Lending hours

When a lend grant is open for borrowing: a daily window of local time and a filter on the day the
window starts. An offset is in seconds east of UTC.
-/

namespace TeamClaude

inductive Weekday
  | monday
  | tuesday
  | wednesday
  | thursday
  | friday
  | saturday
  | sunday
  deriving DecidableEq

namespace Weekday

def previous : Weekday → Weekday
  | monday => sunday
  | tuesday => monday
  | wednesday => tuesday
  | thursday => wednesday
  | friday => thursday
  | saturday => friday
  | sunday => saturday

/-- The weekday of a day counted from the epoch, which was a Thursday. -/
def ofDay (day : Int) : Weekday :=
  match ((day + 3) % 7).toNat with
  | 0 => monday
  | 1 => tuesday
  | 2 => wednesday
  | 3 => thursday
  | 4 => friday
  | 5 => saturday
  | _ => sunday

end Weekday

/-- A local wall-clock reading: the day counted from the epoch and the minute of that day. -/
structure LocalTime where
  offset : Int
  day : Int
  minute : Nat
  deriving DecidableEq

namespace LocalTime

def ofInstant (offset : Int) (now : Instant) : LocalTime :=
  let seconds := unixTimestamp now + offset
  { offset, day := seconds / 86400, minute := (seconds % 86400 / 60).toNat }

def weekday (t : LocalTime) : Weekday :=
  .ofDay t.day

/-- The unix millisecond at which a minute of the reading's day, or of the next, begins. -/
def minuteMs (t : LocalTime) (nextDay : Bool) (minute : Nat) : Int :=
  odtToMs (((t.day + if nextDay then 1 else 0) * 86400 + minute * 60 - t.offset) * 1000000000)

end LocalTime

/-- A time of day. -/
structure Hhmm where
  hour : Nat
  minute : Nat
  hour_lt : hour < 24
  minute_lt : minute < 60
  deriving DecidableEq

def Hhmm.minuteOfDay (t : Hhmm) : Nat :=
  t.hour * 60 + t.minute

/-- A daily window. -/
structure Between where
  start : Hhmm
  finish : Hhmm
  deriving DecidableEq

/-- When a lend grant is open, `none` being no restriction. -/
structure Schedule where
  between : Option (Hhmm × Hhmm) := none
  days : Option (Finset Weekday) := none

namespace Schedule

/-- `from_parts`: a list that names no day is no filter. -/
def fromParts (between : Option Between) (days : Option (List Weekday)) : Option Schedule :=
  let days := (days.filter fun days => !days.isEmpty).map List.toFinset
  let between := between.map fun window => (window.start, window.finish)
  if between.isNone && days.isNone then none else some { between, days }

def dayOpen (s : Schedule) (day : Weekday) : Bool :=
  s.days.all fun days => decide (day ∈ days)

/-- `contains_at_local`: a window that crosses midnight belongs to the day it starts on. -/
def containsAtLocal (s : Schedule) (local_ : LocalTime) : Bool :=
  match s.between with
  | none => s.dayOpen local_.weekday
  | some (start, finish) =>
    match compare start.minuteOfDay finish.minuteOfDay with
    | .lt =>
      s.dayOpen local_.weekday && decide (start.minuteOfDay ≤ local_.minute) &&
        decide (local_.minute < finish.minuteOfDay)
    | .gt =>
      (s.dayOpen local_.weekday.previous && decide (local_.minute < finish.minuteOfDay)) ||
        (s.dayOpen local_.weekday && decide (start.minuteOfDay ≤ local_.minute))
    | .eq => false

/-- `contains`, at the offset this host is in. -/
def contains (s : Schedule) (offset : Int) (now : Instant) : Bool :=
  s.containsAtLocal (.ofInstant offset now)

/-- `schedule_closes_at_ms`: when the window that is open now stops being open. -/
def closesAtMs (s : Schedule) (offset : Int) (now : Instant) : Option Int :=
  let local_ := LocalTime.ofInstant offset now
  match s.between with
  | none => s.days.map fun _ => local_.minuteMs true 0
  | some (start, finish) =>
    match compare start.minuteOfDay finish.minuteOfDay with
    | .lt => some (local_.minuteMs false finish.minuteOfDay)
    | .gt =>
      some (local_.minuteMs (!decide (local_.minute < finish.minuteOfDay)) finish.minuteOfDay)
    | .eq => none

end Schedule

end TeamClaude
