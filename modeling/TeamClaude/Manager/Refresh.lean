import TeamClaude.Lib.Exec
import TeamClaude.Manager.Roster

/-!
# Refreshing a credential

A refresh plans on a snapshot of its row, waits for the row's refresh lock, checks that the row
still holds the access token of the snapshot, posts the refresh token, and writes the outcome. A
login of the same account writes the row without that lock.
-/

namespace TeamClaude

structure Tokens where
  accessToken : String
  refreshToken : Option String
  expiresAtMs : Int
  deriving DecidableEq

inductive RefreshResult
  | success (tokens : Tokens)
  | authRejected (status : Nat) (code : Option String)
  | transient
  deriving DecidableEq

/-- A submitted account with its credentials. -/
structure Login where
  account : Account
  accessToken : String
  refreshToken : Option String
  expiresAt : Option Int
  isOauth : Bool := true
  codexHome : Option String := none

structure CredentialRow extends AccountRuntime where
  accessToken : String
  refreshToken : Option String
  expiresAtMs : Option Int
  isOauth : Bool := true
  refreshRetryAfterMs : Option Int := none
  errorRetryAfterMs : Option Int := none
  errorBackoffMs : Int := 0
  loginError : Option String := none
  codexHome : Option String := none
  deriving DecidableEq

/-- A stored expiry in seconds becomes milliseconds. -/
def normalizeExpiresAt (value : Int) : Int :=
  if value < 1000000000000 then value * 1000 else value

def refreshRetryCooldownMs : Int := 2000

def errorReprobeBaseMs : Int := 60000

def errorReprobeCapMs : Int := 30 * 60000

def expiringSoonMs : Int := 5 * 60 * 1000

/-- `Manager::cooldown_deadline` -/
def cooldownDeadline (nowMs : Int) : Int :=
  nowMs + refreshRetryCooldownMs

namespace CredentialRow

def isExpired (row : CredentialRow) (nowMs : Int) : Bool :=
  row.expiresAtMs.any fun expiry => decide (expiry ≤ nowMs)

def isExpiringSoon (row : CredentialRow) (nowMs : Int) : Bool :=
  row.expiresAtMs.any fun expiry => decide (expiry ≤ nowMs + expiringSoonMs)

/-- The cooldown of a failed or forced refresh is running. -/
def inCooldown (row : CredentialRow) (nowMs : Int) : Bool :=
  row.refreshRetryAfterMs.any fun deadline => decide (nowMs < deadline)

/-- `refresh_plan`: the refresh token to send, and the access token it is meant to replace. -/
def refreshPlan (row : CredentialRow) (released force : Bool) (nowMs : Int) :
    Option (String × String) :=
  if released ∨ row.isOauth = false ∨ row.removed then none
  else
    match row.refreshToken with
    | none => none
    | some refreshToken =>
      if !(force || row.isExpired nowMs || row.isExpiringSoon nowMs) then none
      else if row.inCooldown nowMs && !(force && row.isExpired nowMs) then none
      else some (refreshToken, row.accessToken)

def applyRefresh (row : CredentialRow) (tokens : Tokens) (cooldownAfter : Option Int) :
    CredentialRow :=
  { row with
    accessToken := tokens.accessToken
    refreshToken := tokens.refreshToken
    expiresAtMs := some tokens.expiresAtMs
    refreshRetryAfterMs := cooldownAfter
    status := if row.status = .error then .active else row.status
    errorRetryAfterMs := none
    errorBackoffMs := 0
    loginError := none }

def rejected (row : CredentialRow) (status : Nat) (code : Option String) : CredentialRow :=
  { row with
    status := .error
    loginError :=
      match row.provider with
      | .anthropic => row.loginError
      | .codex => some (code.getD ("http_" ++ toString status)) }

def growErrorBackoff (row : CredentialRow) (nowMs : Int) : CredentialRow :=
  let backoff := if row.errorBackoffMs = 0 then errorReprobeBaseMs
    else min (row.errorBackoffMs * 2) errorReprobeCapMs
  { row with errorBackoffMs := backoff, errorRetryAfterMs := some (nowMs + backoff) }

def relogin (row : CredentialRow) (login : Login) : CredentialRow :=
  { row with
    toAccountRuntime := row.toAccountRuntime.relogin login.account
    accessToken := login.accessToken
    refreshToken := login.refreshToken
    expiresAtMs := login.expiresAt.map normalizeExpiresAt
    isOauth := login.isOauth
    loginError :=
      match login.account.provider with
      | .anthropic => row.loginError
      | .codex => none
    codexHome :=
      match login.account.provider with
      | .anthropic => row.codexHome
      | .codex => login.codexHome }

end CredentialRow

/-! ## Interleavings -/

inductive RefreshPhase
  | queued
  | posting
  | answered (result : RefreshResult)
  | rejected
  deriving DecidableEq

/-- One refresh of the row, with how many logins the row had taken when it took its snapshot and
when it checked the row. -/
structure RefreshRun where
  force : Bool
  refreshToken : String
  accessBefore : String
  phase : RefreshPhase := .queued
  plannedAt : Nat
  checkedAt : Nat := 0
  deriving DecidableEq

/-- One row, the refreshes of it, and the refresh that holds its refresh lock. -/
structure RowRace where
  row : CredentialRow
  runs : Nat → Option RefreshRun := fun _ => none
  lock : Option Nat := none
  logins : Nat := 0
  released : Bool := false

/-- A step of a refresh or of a login. -/
inductive RaceEvent
  | plan (id : Nat) (force : Bool) (nowMs : Int)
  | check (id : Nat) (nowMs : Int)
  | answer (id : Nat) (result : RefreshResult)
  | adopt (id : Nat) (adopted newer : Option Tokens)
  | outcome (id : Nat) (nowMs : Int)
  | backOff (id : Nat) (nowMs : Int)
  | relogin (login : Login)

/-- The refresh that takes the step. -/
def RaceEvent.refresh : RaceEvent → Option Nat
  | .plan id _ _ | .check id _ | .answer id _ | .adopt id _ _ | .outcome id _ | .backOff id _ =>
    some id
  | .relogin _ => none

namespace RowRace

def setRun (s : RowRace) (id : Nat) (run : Option RefreshRun) : RowRace :=
  { s with runs := Function.update s.runs id run }

/-- The refresh ends and lets go of the lock. -/
def finish (s : RowRace) (id : Nat) : RowRace :=
  { s.setRun id none with lock := none }

/-- The snapshot, before the lock. -/
def plan (s : RowRace) (id : Nat) (force : Bool) (nowMs : Int) : RowRace :=
  match s.runs id, s.row.refreshPlan s.released force nowMs with
  | none, some (refreshToken, accessBefore) =>
    s.setRun id (some
      { force := force, refreshToken := refreshToken, accessBefore := accessBefore
        plannedAt := s.logins })
  | _, _ => s

/-- Under the lock: a refresh whose access token is gone, or that meets a cooldown, ends here. -/
def check (s : RowRace) (id : Nat) (run : RefreshRun) (nowMs : Int) : RowRace :=
  if s.lock.isSome then s
  else if s.row.accessToken ≠ run.accessBefore ∨ s.row.inCooldown nowMs then s.setRun id none
  else
    { s.setRun id (some { run with phase := .posting, checkedAt := s.logins }) with
      lock := some id }

/-- A Codex login imported from a folder publishes the tokens there, and adopts newer ones. -/
def adopt (s : RowRace) (id : Nat) (run : RefreshRun) (tokens : Tokens)
    (adopted newer : Option Tokens) : RowRace :=
  if s.row.provider = .codex ∧ s.row.codexHome.isSome ∧ s.row.removed = false ∧
      s.released = false then
    { s.setRun id (some { run with phase := .answered (.success (newer.getD tokens)) }) with
      row := adopted.elim s.row fun tokens => s.row.applyRefresh tokens none }
  else s

def outcome (s : RowRace) (id : Nat) (run : RefreshRun) (result : RefreshResult) (nowMs : Int) :
    RowRace :=
  match result with
  | .success tokens =>
    { s.finish id with
      row := s.row.applyRefresh tokens (if run.force then some (cooldownDeadline nowMs) else none) }
  | .authRejected status code =>
    { s.setRun id (some { run with phase := .rejected }) with row := s.row.rejected status code }
  | .transient =>
    { s.finish id with
      row := { s.row with refreshRetryAfterMs := some (cooldownDeadline nowMs) } }

/-- A step out of turn changes nothing. -/
def step (s : RowRace) (event : RaceEvent) : RowRace :=
  match event with
  | .plan id force nowMs => s.plan id force nowMs
  | .relogin login => { s with row := s.row.relogin login, logins := s.logins + 1 }
  | .check id nowMs =>
    match s.runs id with
    | some run => if run.phase = .queued then s.check id run nowMs else s
    | none => s
  | .answer id result =>
    match s.runs id with
    | some run =>
      if run.phase = .posting then s.setRun id (some { run with phase := .answered result }) else s
    | none => s
  | .adopt id adopted newer =>
    match s.runs id with
    | some run =>
      match run.phase with
      | .answered (.success tokens) => s.adopt id run tokens adopted newer
      | _ => s
    | none => s
  | .outcome id nowMs =>
    match s.runs id with
    | some run =>
      match run.phase with
      | .answered result => s.outcome id run result nowMs
      | _ => s
    | none => s
  | .backOff id nowMs =>
    match s.runs id with
    | some run =>
      if run.phase = .rejected then { s.finish id with row := s.row.growErrorBackoff nowMs } else s
    | none => s

end RowRace

end TeamClaude
