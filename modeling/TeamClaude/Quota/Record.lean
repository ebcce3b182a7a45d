import TeamClaude.Quota
import Mathlib.Data.Rat.Lemmas
import Mathlib.Order.WithBot

/-!
# The whole quota record

What a reading of an account's quota arrives as, response headers or a probe's usage, and the
record it is folded into: the windows of `Quota` and, beside them, what only the folds write.
-/

namespace TeamClaude

abbrev HeaderView := String → Option String

/-- The two readings of a header's text that are not written here: an `f64` when it is finite,
and an RFC 3339 timestamp. -/
structure TextReadings where
  f64 : String → Option ℚ
  rfc3339 : String → Option Instant

def trim (s : String) : String :=
  String.ofList ((s.toList.dropWhile Char.isWhitespace).reverse.dropWhile Char.isWhitespace).reverse

def parseDigits (ds : List Char) : Option Nat :=
  if ds ≠ [] ∧ ds.all Char.isDigit then
    some (ds.foldl (fun n c => 10 * n + (c.toNat - '0'.toNat)) 0)
  else none

def parseI64 (s : String) : Option Int :=
  let value : Option Int :=
    match s.toList with
    | '-' :: ds => (parseDigits ds).map fun n => -(n : Int)
    | '+' :: ds => (parseDigits ds).map fun n => (n : Int)
    | ds => (parseDigits ds).map fun n => (n : Int)
  value.filter fun n => decide (i64Min ≤ n) && decide (n ≤ i64Max)

example : parseI64 "-10080" = some (-10080) := by rfl

/-- `u32::try_from` -/
def toU32 (n : Int) : Option Nat :=
  if 0 ≤ n ∧ n < 2 ^ 32 then some n.toNat else none

def getParsed {α : Type} (parse : String → Option α) (headers : HeaderView) (name : String) :
    Option α :=
  (headers name).bind fun s => parse (trim s)

/-- A reset header: epoch seconds, or an RFC 3339 timestamp where it is no whole number. -/
def getReset (text : TextReadings) (headers : HeaderView) (name : String) : Option Instant :=
  (headers name).bind fun s =>
    match parseI64 (trim s) with
    | some secs => fromUnixTimestamp secs
    | none => text.rfc3339 (trim s)

def headerSays (headers : HeaderView) (name expected : String) : Bool :=
  (headers name).any fun s => s.toLower = expected

def scopeIsAllowed (headers : HeaderView) (name : String) : Bool :=
  headerSays headers name "allowed" || headerSays headers name "allowed_warning"

inductive UnifiedRejectionKind
  | overall
  | fiveHour
  | sevenDay
  | fableWeekly
  deriving DecidableEq

/-- The unified scopes that report durable exhaustion; the aggregate only where no scope explains
it. -/
def quotaRejections (headers : HeaderView) : List UnifiedRejectionKind :=
  let fiveRejected := headerSays headers "anthropic-ratelimit-unified-5h-status" "rejected"
  let sevenRejected := headerSays headers "anthropic-ratelimit-unified-7d-status" "rejected"
  let fableRejected := headerSays headers "anthropic-ratelimit-unified-7d_oi-status" "rejected"
  let sharedAllowed := scopeIsAllowed headers "anthropic-ratelimit-unified-5h-status" &&
    scopeIsAllowed headers "anthropic-ratelimit-unified-7d-status"
  let overallRejected := headerSays headers "anthropic-ratelimit-unified-status" "rejected" &&
    !(fiveRejected || sevenRejected || fableRejected && sharedAllowed)
  [(overallRejected, .overall), (fiveRejected, .fiveHour), (sevenRejected, .sevenDay),
    (fableRejected, .fableWeekly)].filterMap fun k => if k.1 then some k.2 else none

structure CodexCredits where
  hasCredits : Bool
  unlimited : Bool
  balance : Option String
  deriving DecidableEq

/-- A Codex window a reading carried, by its length in minutes. -/
structure CodexWindow where
  minutes : Option Nat := none
  deriving DecidableEq

structure CodexWindows where
  fiveHour : Option CodexWindow := none
  sevenDay : Option CodexWindow := none
  deriving DecidableEq

/-- What a Codex account's readings said beyond its windows' utilization. -/
structure CodexQuotaFacts where
  probedWindows : Option CodexWindows := none
  headerWindows : Option CodexWindows := none
  limitReachedType : Option String := none
  refusalReset : Option Instant := none
  spendControlReached : Bool := false
  credits : Option CodexCredits := none
  deriving DecidableEq

structure QuotaRecord extends Quota where
  extraUsageUsd : Option ℚ := none
  updatedAt : Option Instant := none
  codex : CodexQuotaFacts := {}
  deriving DecidableEq

structure CodexQuotaRefusal where
  reset : Option Instant
  limitReachedType : Option String
  deriving DecidableEq

structure UsageBucket where
  utilization : Option ℚ
  resetAtMs : Option Int
  deriving DecidableEq

/-- What a Codex usage probe said beyond its buckets. -/
structure CodexProbeFacts where
  windows : CodexWindows := {}
  planType : Option String := none
  limitReachedType : Option String := none
  spendControlReached : Bool := false
  credits : Option CodexCredits := none
  allowed : Option Bool := none
  limitReached : Option Bool := none
  deriving DecidableEq

/-- The buckets a usage probe yields. -/
structure Usage where
  fiveHour : Option UsageBucket := none
  sevenDay : Option UsageBucket := none
  sevenDayOi : Option UsageBucket := none
  extraUsageUsd : Option ℚ := none
  codex : Option CodexProbeFacts := none
  deriving DecidableEq

end TeamClaude
