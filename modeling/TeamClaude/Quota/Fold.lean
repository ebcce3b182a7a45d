import TeamClaude.Quota.Record

/-!
# The folds of the quota record

The four writers of an account's quota: the headers of a response, a model-scoped rejection, the
headers of a Codex response and the usage of a probe.
-/

namespace TeamClaude

/-- Nominal length of the five-hour window, in nanoseconds. -/
def fiveHourLength : Int := 5 * 3600 * 1000000000

/-- Nominal length of the weekly windows. -/
def sevenDayLength : Int := 7 * 24 * 3600 * 1000000000

/-- The reset of a window that learns a utilization: the reported one, else a prior one while it
is still ahead, else one window from now. -/
def resolveReset (reported prior : Option Instant) (now : Instant) (window : Int) :
    Option Instant :=
  match reported with
  | some reset => some reset
  | none =>
    match prior with
    | some reset => if now < reset then some reset else some (now + window)
    | none => some (now + window)

def learnWindow (utilization : ℚ) (reported : Option Instant) (prior : Option QuotaWindow)
    (now : Instant) (window : Int) : QuotaWindow where
  utilization := utilization
  reset := resolveReset reported (prior.bind QuotaWindow.reset) now window

/-- The clock readings of one `apply_usage`: each bucket's, then the stamp's. -/
structure ProbeClock where
  fiveHour : Instant
  sevenDay : Instant
  sevenDayOi : Instant
  stamp : Instant

namespace QuotaRecord

/-- The window of one unified scope, where the response reports its utilization. -/
def unifiedWindow (text : TextReadings) (headers : HeaderView) (scope : String)
    (prior : Option QuotaWindow) (now : Instant) (window : Int) : Option QuotaWindow :=
  (getParsed text.f64 headers ("anthropic-ratelimit-unified-" ++ scope ++ "-utilization")).map
    fun util => learnWindow util
      (getReset text headers ("anthropic-ratelimit-unified-" ++ scope ++ "-reset")) prior now window

/-- An `allowed` verdict without a number ends a recorded rejection of the model's weekly. -/
def allowedModelWeekly (text : TextReadings) (headers : HeaderView) (prior : Option QuotaWindow)
    (now : Instant) : Option QuotaWindow :=
  if scopeIsAllowed headers "anthropic-ratelimit-unified-7d_oi-status" &&
      prior.any (fun w => decide (1 ≤ w.utilization)) then
    some (learnWindow 0 (getReset text headers "anthropic-ratelimit-unified-7d_oi-reset") prior now
      sevenDayLength)
  else none

/-- `update_from_headers`, with whether the response reported the five-hour window. -/
def updateFromHeaders (text : TextReadings) (q : QuotaRecord) (headers : HeaderView)
    (now : Instant) : QuotaRecord × Bool :=
  let fiveHour := unifiedWindow text headers "5h" q.fiveHour now fiveHourLength
  let sevenDay := unifiedWindow text headers "7d" q.sevenDay now sevenDayLength
  let sevenDayOi :=
    (unifiedWindow text headers "7d_oi" q.sevenDayOi now sevenDayLength).or
      (allowedModelWeekly text headers q.sevenDayOi now)
  let status := headers "anthropic-ratelimit-unified-status"
  -- A rejection that is the model's alone is not the account's.
  let modelScoped := quotaRejections headers = [.fableWeekly]
  let tokensLimit := getParsed parseI64 headers "anthropic-ratelimit-tokens-limit"
  let tokensRemaining := getParsed parseI64 headers "anthropic-ratelimit-tokens-remaining"
  let requestsLimit := getParsed parseI64 headers "anthropic-ratelimit-requests-limit"
  let requestsRemaining := getParsed parseI64 headers "anthropic-ratelimit-requests-remaining"
  let standardReset := (getReset text headers "anthropic-ratelimit-tokens-reset").or
    (getReset text headers "anthropic-ratelimit-requests-reset")
  let readAny := fiveHour.isSome || sevenDay.isSome || sevenDayOi.isSome || status.isSome ||
    tokensLimit.isSome || tokensRemaining.isSome || requestsLimit.isSome ||
    requestsRemaining.isSome || standardReset.isSome
  ({ q with
      fiveHour := fiveHour.or q.fiveHour
      sevenDay := sevenDay.or q.sevenDay
      sevenDayOi := sevenDayOi.or q.sevenDayOi
      status := if modelScoped then q.status else status.or q.status
      tokensLimit := tokensLimit.or q.tokensLimit
      tokensRemaining := tokensRemaining.or q.tokensRemaining
      requestsLimit := requestsLimit.or q.requestsLimit
      requestsRemaining := requestsRemaining.or q.requestsRemaining
      standardReset := standardReset.or q.standardReset
      updatedAt := if readAny then some now else q.updatedAt },
    fiveHour.isSome)

/-- Upstream rejected the model's weekly while both shared scopes stayed allowed. -/
def rejectModelWeekly (text : TextReadings) (q : QuotaRecord) (headers : HeaderView)
    (now : Instant) : QuotaRecord :=
  { q with
    sevenDayOi := some (learnWindow 1
      (getReset text headers "anthropic-ratelimit-unified-7d_oi-reset") q.sevenDayOi now
      sevenDayLength) }

/-- A probed utilization strictly under the stored one: a new window started. -/
def windowRolled (stored : Option QuotaWindow) (probed : Option UsageBucket) : Bool :=
  match stored, probed.bind UsageBucket.utilization with
  | some stored, some probed => decide (probed < stored.utilization)
  | _, _ => false

/-- A Codex refusal's facts live exactly as long as the refusal. -/
def endRejection (q : QuotaRecord) : QuotaRecord :=
  { q with
    status := none
    codex := { q.codex with limitReachedType := none, refusalReset := none } }

def dropRejectionIfAWindowRolled (q : QuotaRecord) (usage : Usage) : QuotaRecord :=
  if q.rejected && (windowRolled q.fiveHour usage.fiveHour ||
      windowRolled q.sevenDay usage.sevenDay) then q.endRejection
  else q

def liftACodexRefusalTheProbeReadsAllowed (q : QuotaRecord) (facts : CodexProbeFacts) :
    QuotaRecord :=
  if q.rejected && facts.allowed = some true && facts.limitReached ≠ some true &&
      !facts.spendControlReached && facts.limitReachedType.isNone then q.endRejection
  else q

/-- `OffsetDateTime` of a probe's milliseconds. -/
def bucketReset (bucket : UsageBucket) : Option Instant :=
  bucket.resetAtMs.bind fun ms => fromUnixTimestampNanos (ms * 1000000)

/-- `apply_bucket`: a utilization of zero never makes up a reset, and one that could not be read
keeps the prior one. -/
def applyBucket (window : Option QuotaWindow) (bucket : Option UsageBucket) (now : Instant)
    (win : Int) : Option QuotaWindow :=
  match bucket with
  | none => window
  | some bucket =>
    match bucket.utilization.or (window.map QuotaWindow.utilization) with
    | none => window
    | some utilization =>
      if (bucketReset bucket).isNone && decide (utilization = 0) then
        some { utilization := utilization, reset := none }
      else some (learnWindow utilization (bucketReset bucket) window now win)

def applyFacts (q : QuotaRecord) (facts : CodexProbeFacts) : QuotaRecord :=
  let q := { q with codex := { q.codex with
    probedWindows := some facts.windows
    spendControlReached := facts.spendControlReached
    credits := facts.credits.or q.codex.credits } }
  let q := q.liftACodexRefusalTheProbeReadsAllowed facts
  if q.rejected then
    { q with codex := { q.codex with
      limitReachedType := facts.limitReachedType.or q.codex.limitReachedType } }
  else q

def applyUsage (q : QuotaRecord) (usage : Usage) (clock : ProbeClock) : QuotaRecord :=
  -- Before the buckets: it compares against the windows they overwrite.
  let q := q.dropRejectionIfAWindowRolled usage
  let q := { q with
    fiveHour := applyBucket q.fiveHour usage.fiveHour clock.fiveHour fiveHourLength
    sevenDay := applyBucket q.sevenDay usage.sevenDay clock.sevenDay sevenDayLength
    sevenDayOi := applyBucket q.sevenDayOi usage.sevenDayOi clock.sevenDayOi sevenDayLength
    extraUsageUsd := usage.extraUsageUsd.or q.extraUsageUsd
    updatedAt := some clock.stamp }
  match usage.codex with
  | some facts => q.applyFacts facts
  | none => q

end QuotaRecord

/-- The longest window, in minutes, that is still the five-hour bucket. -/
def codexFiveHourCutoffMinutes : Int := 600

/-- The length a bucket keeps of two windows: the fuller one's, the longer on equal
utilization. A utilization the reading did not carry is the bottom element. -/
def codexKeptLength (first second : WithBot ℚ × Option Nat) : Option Nat :=
  if second.1 < first.1 then first.2
  else if first.1 < second.1 then second.2
  else max first.2 second.2

structure CodexReading where
  utilization : ℚ
  reported : Option Instant
  minutes : Option Nat
  deriving DecidableEq

/-- Two windows of one bucket: the higher utilization and the later reset. -/
def CodexReading.merge (other r : CodexReading) : CodexReading where
  utilization := max other.utilization r.utilization
  reported := max other.reported r.reported
  minutes := codexKeptLength (other.utilization, other.minutes) (r.utilization, r.minutes)

/-- The two buckets of one reading, merged across its slots. -/
structure SlotBuckets (α : Type) where
  fiveHour : Option α := none
  weekly : Option α := none

def mergeInto {α : Type} (merge : α → α → α) (bucket : Option α) (r : α) : α :=
  match bucket with
  | none => r
  | some other => merge other r

/-- A slot's reading joins its bucket; the flag says whether that is the weekly one. -/
def SlotBuckets.add {α : Type} (merge : α → α → α) (rs : SlotBuckets α) (slot : Option (Bool × α)) :
    SlotBuckets α :=
  match slot with
  | none => rs
  | some (true, r) => { rs with weekly := some (mergeInto merge rs.weekly r) }
  | some (false, r) => { rs with fiveHour := some (mergeInto merge rs.fiveHour r) }

def SlotBuckets.ofSlots {α : Type} (merge : α → α → α) (primary secondary : Option (Bool × α)) :
    SlotBuckets α :=
  (({} : SlotBuckets α).add merge primary).add merge secondary

/-- A window fills the weekly bucket by its length; without one, its slot decides. -/
def fillsWeekly (length : Option Int) (cutoff : Int) (positionalIsWeekly : Bool) : Bool :=
  match length with
  | some l => decide (cutoff < l)
  | none => positionalIsWeekly

/-- One slot of a Codex response; nothing where it carries no data. -/
def codexHeaderSlot (text : TextReadings) (headers : HeaderView) (slot : String)
    (positionalIsWeekly : Bool) : Option (Bool × CodexReading) :=
  match getParsed text.f64 headers (slot ++ "-used-percent") with
  | none => none
  | some used =>
    -- Zero or less is no length.
    let minutes := (getParsed parseI64 headers (slot ++ "-window-minutes")).filter
      fun m => decide (0 < m)
    let reported := (getParsed parseI64 headers (slot ++ "-reset-at")).bind fromUnixTimestamp
    if decide (used = 0) && minutes.isNone && reported.isNone then none
    else
      let weekly := fillsWeekly minutes codexFiveHourCutoffMinutes positionalIsWeekly
      some (weekly, { utilization := used / 100, reported := reported,
                      minutes := minutes.bind toU32 })

def codexHeaderReadings (text : TextReadings) (headers : HeaderView) : SlotBuckets CodexReading :=
  SlotBuckets.ofSlots CodexReading.merge (codexHeaderSlot text headers "x-codex-primary" false)
    (codexHeaderSlot text headers "x-codex-secondary" true)

/-- Which windows a reading carried, and how long each is. -/
def SlotBuckets.windows {α : Type} (minutes : α → Option Nat) (rs : SlotBuckets α) :
    CodexWindows where
  fiveHour := rs.fiveHour.map fun r => ⟨minutes r⟩
  sevenDay := rs.weekly.map fun r => ⟨minutes r⟩

def codexFlag (headers : HeaderView) (name : String) : Option Bool :=
  (headers name).bind fun s =>
    if (trim s).toLower = "true" then some true
    else if (trim s).toLower = "false" then some false
    else none

def codexCreditsFromHeaders (headers : HeaderView) : Option CodexCredits :=
  (codexFlag headers "x-codex-credits-has-credits").map fun hasCredits =>
    { hasCredits := hasCredits
      unlimited := (codexFlag headers "x-codex-credits-unlimited").getD false
      balance := ((headers "x-codex-credits-balance").map trim).filter fun b => !b.isEmpty }

namespace QuotaRecord

/-- A bucket's window after a response that read it, or did not. -/
def learnReading (window : Option QuotaWindow) (r : Option CodexReading) (now : Instant)
    (win : Int) : Option QuotaWindow :=
  match r with
  | some r => some (learnWindow r.utilization r.reported window now win)
  | none => window

/-- `update_from_codex_refusal`, with whether the response reported the five-hour window. -/
def updateFromCodexRefusal (text : TextReadings) (q : QuotaRecord) (headers : HeaderView)
    (httpStatus : Nat) (refusal : Option CodexQuotaRefusal) (now : Instant) :
    QuotaRecord × Bool :=
  let readings := codexHeaderReadings text headers
  let readAWindow := readings.fiveHour.isSome || readings.weekly.isSome
  let q := { q with
    fiveHour := learnReading q.fiveHour readings.fiveHour now fiveHourLength
    sevenDay := learnReading q.sevenDay readings.weekly now sevenDayLength
    codex := { q.codex with
      -- Silence says nothing about the plan's windows.
      headerWindows :=
        if readAWindow then some (readings.windows CodexReading.minutes)
        else q.codex.headerWindows } }
  let q :=
    match refusal with
    | some refusal =>
      { q with
        status := some "rejected"
        codex := { q.codex with
          refusalReset := refusal.reset, limitReachedType := refusal.limitReachedType } }
    | none =>
      if readAWindow && (decide (200 ≤ httpStatus) && decide (httpStatus < 300)) then
        { q with
          status := some "allowed"
          codex := { q.codex with limitReachedType := none, refusalReset := none } }
      else q
  ({ q with
      codex := { q.codex with credits := (codexCreditsFromHeaders headers).or q.codex.credits }
      updatedAt := if readAWindow || refusal.isSome then some now else q.updatedAt },
    readings.fiveHour.isSome)

end QuotaRecord

end TeamClaude
