import TeamClaude.Lib.Json
import TeamClaude.Quota.Fold

/-!
# The Codex usage payload

The usage endpoint's answer, mapped onto the buckets a probe yields: windows by length, then the
plan, credits, spend control and refusal kind.
-/

namespace TeamClaude

open Lib.Json

/-- `limit_window_seconds` up to this is the five-hour bucket. -/
def codexFiveHourCutoffSeconds : Int := 36000

example : codexFiveHourCutoffSeconds = codexFiveHourCutoffMinutes * 60 := rfl

/-- The refusal's kind: its `type`, or the value itself when it is a bare string. -/
def reachedTypeFromPayload (value : Option Value) : Option String :=
  match value with
  | some (.string kind) => some kind
  | some (.object fields) => (Value.object fields).str "type"
  | _ => none

/-- The credits object; it counts only with a boolean `has_credits`. -/
def creditsFromPayload (value : Option Value) : Option CodexCredits :=
  match value with
  | some (.object fields) =>
    let credits := Value.object fields
    ((credits.get "has_credits").bind Value.asBool).map fun hasCredits =>
      { hasCredits := hasCredits
        unlimited := (credits.get "unlimited").bind Value.asBool = some true
        balance := credits.str "balance" }
  | _ => none

/-- One bucket of a payload, with the length it keeps. -/
structure PayloadReading where
  bucket : UsageBucket
  minutes : Option Nat
  deriving DecidableEq

def rank (utilization : Option ℚ) : WithBot ℚ :=
  match utilization with
  | some u => u
  | none => ⊥

def PayloadReading.merge (other r : PayloadReading) : PayloadReading where
  bucket :=
    { utilization := max other.bucket.utilization r.bucket.utilization
      resetAtMs := max other.bucket.resetAtMs r.bucket.resetAtMs }
  minutes := codexKeptLength (rank other.bucket.utilization, other.minutes)
    (rank r.bucket.utilization, r.minutes)

/-- One window of the payload; nothing where it is null, missing or carries no data. -/
def codexPayloadSlot (rateLimit : Value) (key : String) (positionalIsWeekly : Bool) (nowS : Int) :
    Option (Bool × PayloadReading) :=
  match (rateLimit.get key).filter fun w => !w.isNull with
  | none => none
  | some w =>
    let utilization := ((w.get "used_percent").bind Value.asF64).map fun p => p / 100
    let resetAtMs :=
      (((w.get "reset_at").bind Value.asI64).or
        (((w.get "reset_after_seconds").bind Value.asI64).map (saturatingAdd nowS))).map
          fun s => saturatingMul s 1000
    -- Zero or less is no length.
    let seconds := ((w.get "limit_window_seconds").bind Value.asI64).filter fun s => decide (0 < s)
    if utilization.all (fun u => decide (u = 0)) && seconds.isNone && resetAtMs.isNone then none
    else
      let weekly := fillsWeekly seconds codexFiveHourCutoffSeconds positionalIsWeekly
      let minutes := (seconds.bind fun secs => toU32 (secs / 60)).filter fun m => decide (0 < m)
      some (weekly, { bucket := { utilization := utilization, resetAtMs := resetAtMs },
                      minutes := minutes })

def codexPayloadReadings (rateLimit : Value) (nowS : Int) : SlotBuckets PayloadReading :=
  SlotBuckets.ofSlots PayloadReading.merge
    (codexPayloadSlot rateLimit "primary_window" false nowS)
    (codexPayloadSlot rateLimit "secondary_window" true nowS)

/-- The plan a payload names; a blank name is none. -/
def planFromPayload (v : Value) : Option String :=
  (v.str "plan_type").filter fun plan => !(trim plan).isEmpty

def usageFromPayload (v : Value) (nowMs : Int) : Usage :=
  let facts : CodexProbeFacts :=
    { planType := planFromPayload v
      limitReachedType := reachedTypeFromPayload (v.get "rate_limit_reached_type")
      spendControlReached :=
        ((v.get "spend_control").bind fun control => control.get "reached").bind Value.asBool =
          some true
      credits := creditsFromPayload (v.get "credits") }
  match (v.get "rate_limit").filter fun r => !r.isNull with
  | none => { codex := some facts }
  | some rateLimit =>
    let readings := codexPayloadReadings rateLimit (nowMs.tdiv 1000)
    { fiveHour := readings.fiveHour.map PayloadReading.bucket
      sevenDay := readings.weekly.map PayloadReading.bucket
      codex := some { facts with
        allowed := (rateLimit.get "allowed").bind Value.asBool
        limitReached := (rateLimit.get "limit_reached").bind Value.asBool
        windows := readings.windows PayloadReading.minutes } }

end TeamClaude
