import TeamClaude.Machine
import Mathlib.Data.Rat.Floor

/-!
# Account quota

The last known windows and limits of an account and the questions selection asks of them.
Utilizations are exact rationals.
-/

namespace TeamClaude

/-- One utilization window: the fraction used and when it resets. -/
structure QuotaWindow where
  utilization : ℚ
  reset : Option Instant
  deriving DecidableEq

namespace QuotaWindow

/-- A window whose reset has passed reads as empty. -/
def effective (w : QuotaWindow) (now : Instant) : ℚ :=
  match w.reset with
  | some reset => if reset ≤ now then 0 else w.utilization
  | none => w.utilization

/-- The reset instant while it is still ahead. -/
def liveReset (w : QuotaWindow) (now : Instant) : Option Instant :=
  match w.reset with
  | some reset => if now < reset then some reset else none
  | none => none

end QuotaWindow

/-- The last known quota of an account, as far as selection reads it. -/
structure Quota where
  fiveHour : Option QuotaWindow := none
  sevenDay : Option QuotaWindow := none
  sevenDayOi : Option QuotaWindow := none
  status : Option String := none
  tokensLimit : Option Int := none
  tokensRemaining : Option Int := none
  requestsLimit : Option Int := none
  requestsRemaining : Option Int := none
  standardReset : Option Instant := none
  deriving DecidableEq

namespace Quota

/-- Upstream's own verdict on the account. -/
def rejected (q : Quota) : Bool :=
  q.status = some "rejected"

def limitNear (limit remaining : Option Int) (threshold : ℚ) : Bool :=
  match limit, remaining with
  | some l, some r => decide (0 < l) && decide (threshold ≤ 1 - (r : ℚ) / l)
  | _, _ => false

def windowNear (window : Option QuotaWindow) (threshold : ℚ) (now : Instant) : Bool :=
  window.any fun w => decide (threshold ≤ w.effective now)

def standardExpired (q : Quota) (now : Instant) : Bool :=
  q.standardReset.any fun r => decide (r ≤ now)

/-- The soft switch threshold. -/
def isNear (q : Quota) (threshold : ℚ) (now : Instant) : Bool :=
  windowNear q.fiveHour threshold now || windowNear q.sevenDay threshold now ||
    (!q.standardExpired now &&
      (limitNear q.tokensLimit q.tokensRemaining threshold ||
        limitNear q.requestsLimit q.requestsRemaining threshold))

def modelWeeklyExhausted (q : Quota) (threshold : ℚ) (now : Instant) : Bool :=
  windowNear q.sevenDayOi threshold now

/-- The model-scoped weekly bucket as upstream rejects it, not as we predict it. -/
def modelWeeklyRejected (q : Quota) (now : Instant) : Bool :=
  windowNear q.sevenDayOi 1 now

/-- `max.max(w.effective(now))` over a window that may be unknown. -/
def maxEffective (acc : ℚ) (window : Option QuotaWindow) (now : Instant) : ℚ :=
  match window with
  | some w => max acc (w.effective now)
  | none => acc

def maxUtilization (q : Quota) (now : Instant) (isFable : Bool) : ℚ :=
  let acc := maxEffective (maxEffective 0 q.fiveHour now) q.sevenDay now
  if isFable then maxEffective acc q.sevenDayOi now else acc

def governingWeeklyReset (q : Quota) (now : Instant) : Option Instant :=
  q.sevenDay.bind fun w => w.liveReset now

end Quota

end TeamClaude
