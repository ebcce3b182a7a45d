import TeamClaude.Lib.OrdTally
import TeamClaude.Provider
import TeamClaude.Usage.Ledger
import Mathlib.Data.String.Basic

/-!
# The usage buckets

What an account served is kept three times: in a ring of minutes, in the day that is current, and,
for Codex, in a week of minutes. Each of them drops what it no longer answers for. The prices are a
parameter; a cost is in nanodollars.
-/

namespace TeamClaude

open Lib

def ringMinutes : Int := 360
def fiveHoursMs : Int := 18000000
def weekMs : Int := 604800000
def weekMinutes : Int := weekMs / 60000
def oneHourMs : Int := 3600000
def unknownModel : String := "unknown"

structure UsageRecord where
  tsMs : Int
  model : Option String
  session : Option UInt64 := none
  quotaInput : UInt64 := 0
  input : UInt64 := 0
  cache5m : UInt64 := 0
  cache1h : UInt64 := 0
  cacheRead : UInt64 := 0
  output : UInt64 := 0
  provider : Provider := .anthropic
  reasoning : UInt64 := 0
  deriving DecidableEq

namespace UsageRecord

def modelKey (r : UsageRecord) : String :=
  r.model.getD unknownModel

def minute (r : UsageRecord) : Int :=
  r.tsMs / 60000

end UsageRecord

@[ext] structure Totals where
  requests : UInt64 := 0
  input : UInt64 := 0
  cache5m : UInt64 := 0
  cache1h : UInt64 := 0
  cacheRead : UInt64 := 0
  output : UInt64 := 0
  costNanos : UInt64 := 0
  unpricedRequests : UInt64 := 0
  reasoning : UInt64 := 0
  deriving DecidableEq

/-- `tcr_status_wire::UsageTotals`, its cost in nanodollars. -/
structure UsageTotals where
  requests : UInt64
  inputTokens : UInt64
  cacheCreationTokens : UInt64
  cacheCreation1hTokens : UInt64
  cacheReadTokens : UInt64
  outputTokens : UInt64
  costNanos : Option UInt64
  unpricedRequests : UInt64
  reasoningTokens : UInt64
  deriving DecidableEq

namespace Totals

def add (a b : Totals) : Totals where
  requests := a.requests + b.requests
  input := a.input + b.input
  cache5m := a.cache5m + b.cache5m
  cache1h := a.cache1h + b.cache1h
  cacheRead := a.cacheRead + b.cacheRead
  output := a.output + b.output
  costNanos := a.costNanos + b.costNanos
  unpricedRequests := a.unpricedRequests + b.unpricedRequests
  reasoning := a.reasoning + b.reasoning

instance : Add Totals := ⟨add⟩

instance : Zero Totals := ⟨{}⟩

instance : AddCommMonoid Totals where
  add_assoc a b c := Totals.ext (UInt64.add_assoc _ _ _) (UInt64.add_assoc _ _ _)
    (UInt64.add_assoc _ _ _) (UInt64.add_assoc _ _ _) (UInt64.add_assoc _ _ _)
    (UInt64.add_assoc _ _ _) (UInt64.add_assoc _ _ _) (UInt64.add_assoc _ _ _)
    (UInt64.add_assoc _ _ _)
  zero_add a := Totals.ext (UInt64.zero_add _) (UInt64.zero_add _) (UInt64.zero_add _)
    (UInt64.zero_add _) (UInt64.zero_add _) (UInt64.zero_add _) (UInt64.zero_add _)
    (UInt64.zero_add _) (UInt64.zero_add _)
  add_zero a := Totals.ext (UInt64.add_zero _) (UInt64.add_zero _) (UInt64.add_zero _)
    (UInt64.add_zero _) (UInt64.add_zero _) (UInt64.add_zero _) (UInt64.add_zero _)
    (UInt64.add_zero _) (UInt64.add_zero _)
  add_comm a b := Totals.ext (UInt64.add_comm _ _) (UInt64.add_comm _ _) (UInt64.add_comm _ _)
    (UInt64.add_comm _ _) (UInt64.add_comm _ _) (UInt64.add_comm _ _) (UInt64.add_comm _ _)
    (UInt64.add_comm _ _) (UInt64.add_comm _ _)
  nsmul := nsmulRec

/-- A cost is unknown when there were requests and none of them could be priced. -/
def toWire (t : Totals) : UsageTotals where
  requests := t.requests
  inputTokens := t.input
  cacheCreationTokens := t.cache5m + t.cache1h
  cacheCreation1hTokens := t.cache1h
  cacheReadTokens := t.cacheRead
  outputTokens := t.output
  costNanos := if 0 < t.requests ∧ t.requests ≤ t.unpricedRequests then none else some t.costNanos
  unpricedRequests := t.unpricedRequests
  reasoningTokens := t.reasoning

end Totals

abbrev ModelTotals := OrdMap String Totals

structure MinuteBucket where
  minute : Option Int := none
  models : ModelTotals := ∅

structure AccountUsage where
  ring : List MinuteBucket := List.replicate ringMinutes.toNat {}
  day : Option Day := none
  today : ModelTotals := ∅
  week : OrdMap Int Totals := ∅

/-- The accounts of a `UsageTracker`. -/
abbrev UsageTracker := List AccountUsage

def UsageTracker.new (accountCount : Nat) : UsageTracker :=
  List.replicate accountCount {}

/-- The account at an index runs `f`; the list grows to reach it. -/
def withAccount {R : Type} (accounts : UsageTracker) (idx : Nat)
    (f : AccountUsage → R × AccountUsage) : R × UsageTracker :=
  match accounts[idx]? with
  | some account => ((f account).1, accounts.set idx (f account).2)
  | none =>
    ((f {}).1, accounts ++ List.replicate (idx - accounts.length) {} ++ [(f {}).2])

/-- The local day of an instant, at an offset in nanoseconds; an instant that has no date is read as
the epoch. -/
def localDay (offset tsMs : Int) : Day :=
  ((msToOdt tsMs).getD 0 + offset) / 86400000000000

/-! ## Recording -/

section Record

variable {Price : Type*} (lookup : String → Option Price)
  (costNanos : Price → UInt64 → UInt64 → UInt64 → UInt64 → UInt64 → UInt64) (offset : Int)

def priced (r : UsageRecord) : Totals :=
  let totals : Totals :=
    { requests := 1
      input := r.input
      cache5m := r.cache5m
      cache1h := r.cache1h
      cacheRead := r.cacheRead
      output := r.output
      reasoning := r.reasoning }
  match r.model.bind lookup with
  | some price =>
    { totals with
      costNanos := costNanos price r.input r.cache5m r.cache1h r.cacheRead r.output }
  | none => { totals with unpricedRequests := 1 }

/-- A record of a newer minute takes the slot, one of an older minute is dropped. -/
def MinuteBucket.record (bucket : MinuteBucket) (minute : Int) (model : String) (totals : Totals) :
    MinuteBucket :=
  match bucket.minute with
  | some held =>
    if minute < held then bucket
    else if held = minute then { bucket with models := bucket.models.add model totals }
    else { minute := some minute, models := (∅ : ModelTotals).add model totals }
  | none => { minute := some minute, models := (∅ : ModelTotals).add model totals }

namespace AccountUsage

def recordMinute (account : AccountUsage) (minute : Int) (model : String) (totals : Totals) :
    AccountUsage :=
  { account with
    ring := account.ring.modify (minute % ringMinutes).toNat
      fun bucket => bucket.record minute model totals }

/-- A record of a later day rolls the day over, one of an earlier day is dropped. -/
def recordDay (account : AccountUsage) (day : Day) (model : String) (totals : Totals) :
    AccountUsage :=
  match account.day with
  | some held =>
    if held = day then { account with today := account.today.add model totals }
    else if day < held then account
    else { account with day := some day, today := (∅ : ModelTotals).add model totals }
  | none => { account with day := some day, today := (∅ : ModelTotals).add model totals }

/-- A Codex record goes to the week, which is cut a week below its newest minute. -/
def recordWeek (account : AccountUsage) (minute : Int) (totals : Totals) : Provider → AccountUsage
  | .anthropic => account
  | .codex =>
    let week := account.week.add minute totals
    { account with week := week.dropBelow (week.lastKey.getD minute - weekMinutes) }

def record (account : AccountUsage) (r : UsageRecord) : AccountUsage :=
  let totals := priced lookup costNanos r
  ((account.recordMinute r.minute r.modelKey totals).recordDay (localDay offset r.tsMs) r.modelKey
    totals).recordWeek r.minute totals r.provider

end AccountUsage

def recordInMemory (accounts : UsageTracker) (idx : Nat) (r : UsageRecord) : UsageTracker :=
  (withAccount accounts idx fun account => ((), account.record lookup costNanos offset r)).2

end Record

/-! ## Reading -/

structure UsageWindow where
  since : Int
  totals : UsageTotals
  deriving DecidableEq

structure UsageRow where
  today : UsageTotals
  window : Option UsageWindow
  lastHour : UsageTotals
  todayByModel : OrdMap String UsageTotals
  sevenDayWindow : Option UsageWindow

/-- The minutes `range` sums: those of the span that the ring covers. -/
def inRange (sinceMs nowMs minute : Int) : Bool :=
  decide (sinceMs / 60000 ≤ minute) && decide (minute ≤ nowMs / 60000) &&
    decide (nowMs / 60000 - ringMinutes + 1 ≤ minute)

namespace AccountUsage

def range (account : AccountUsage) (sinceMs nowMs : Int) : Totals :=
  (account.ring.map fun bucket =>
    if bucket.minute.any (inRange sinceMs nowMs) then bucket.models.total else 0).sum

def rowOf (offset : Int) (account : AccountUsage) (nowMs : Int) (fiveHourResetMs : Option Int) :
    UsageRow :=
  let todayCurrent := account.day = some (localDay offset nowMs)
  { today := if todayCurrent then account.today.total.toWire else ({} : Totals).toWire
    window := fiveHourResetMs.map fun reset =>
      { since := reset - fiveHoursMs
        totals := (account.range (reset - fiveHoursMs) nowMs).toWire }
    lastHour := (account.range (nowMs - oneHourMs) nowMs).toWire
    todayByModel := if todayCurrent then account.today.mapVals Totals.toWire else ∅
    sevenDayWindow := none }

def weekRange (account : AccountUsage) (first last : Int) : Totals :=
  account.week.sumOn fun minute => decide (first ≤ minute) && decide (minute ≤ last)

end AccountUsage

namespace UsageTracker

def row (offset : Int) (accounts : UsageTracker) (idx : Nat) (nowMs : Int)
    (fiveHourResetMs : Option Int) : UsageRow :=
  (withAccount accounts idx fun account =>
    (account.rowOf offset nowMs fiveHourResetMs, account)).1

def sevenDayWindow (accounts : UsageTracker) (idx : Nat) (nowMs resetMs lengthMs : Int) :
    Option UsageWindow :=
  let since := resetMs - lengthMs
  if since < nowMs - weekMs then none
  else
    let totals :=
      if since / 60000 ≤ nowMs / 60000 then
        (withAccount accounts idx fun account =>
          (account.weekRange (since / 60000) (nowMs / 60000), account)).1
      else {}
    some { since, totals := totals.toWire }

end UsageTracker

end TeamClaude
