import TeamClaude.Lib.Exec
import TeamClaude.Manager.AuthFile

/-!
# Synchronizing an imported login

A refresh of an imported Codex row posts a refresh token and owes the pair it got to the file until
it is written back there. The Codex CLI writes the file between any two operations, except that no
write of it falls between the comparison that ends a write-back and the rename.
-/

namespace TeamClaude

open Lib Lib.Json

/-! ## Operations on the file -/

/-- What the upstream answers a refresh token with. -/
inductive Minting
  | success (tokens : CodexTokens)
  | authRejected (status : Nat) (code : Option String)
  | transient
  deriving DecidableEq

/-- The operations of a synchronization, each of them one file operation, POST or reading of the
clock. A file that is read comes with the clock right after it. -/
inductive SyncOp (Bytes : Type)
  | clock
  | post (refresh : String)
  /-- `read`, which wants a login document -/
  | read
  /-- the writer lock is opened and taken -/
  | lock
  /-- `symlink_metadata` -/
  | isLink
  /-- the temporary file is written -/
  | prepare
  /-- the file read again, for the comparison -/
  | compare
  /-- the temporary file takes the place of the file -/
  | rename (bytes : Bytes) (tokens : CodexTokens)

def SyncOp.Res {Bytes : Type} : SyncOp Bytes → Type
  | clock => Int
  | post _ => Minting
  | read => Option (ImportedAuth Bytes) × Int
  | lock => Bool
  | isLink => Option Bool
  | prepare => Bool
  | compare => Option Bytes
  | rename _ _ => Bool

abbrev syncOps (Bytes : Type) : Interface where
  Op := SyncOp Bytes
  Res := SyncOp.Res

abbrev SyncProg (Bytes : Type) :=
  Prog (syncOps Bytes)

namespace SyncProg

variable {Bytes : Type}

def clock : SyncProg Bytes Int :=
  Prog.call (I := syncOps Bytes) SyncOp.clock

def post (refresh : String) : SyncProg Bytes Minting :=
  Prog.call (I := syncOps Bytes) (SyncOp.post refresh)

def read : SyncProg Bytes (Option (ImportedAuth Bytes) × Int) :=
  Prog.call (I := syncOps Bytes) SyncOp.read

def lock : SyncProg Bytes Bool :=
  Prog.call (I := syncOps Bytes) SyncOp.lock

def isLink : SyncProg Bytes (Option Bool) :=
  Prog.call (I := syncOps Bytes) SyncOp.isLink

def prepare : SyncProg Bytes Bool :=
  Prog.call (I := syncOps Bytes) SyncOp.prepare

def compare : SyncProg Bytes (Option Bytes) :=
  Prog.call (I := syncOps Bytes) SyncOp.compare

def rename (bytes : Bytes) (tokens : CodexTokens) : SyncProg Bytes Bool :=
  Prog.call (I := syncOps Bytes) (SyncOp.rename bytes tokens)

end SyncProg

/-! ## The file and its other writer -/

inductive SyncEvent (Bytes : Type)
  | read (auth : Option (ImportedAuth Bytes)) (nowMs : Int)
  | minted (posted : String) (tokens : CodexTokens)
  | wrote (before : Option Bytes) (tokens : CodexTokens)

/-- The login file, as a symlink or not, and what was done, the newest first. -/
structure AuthDir (Bytes : Type) where
  content : Option Bytes
  link : Bool := false
  log : List (SyncEvent Bytes) := []

/-- What the Codex CLI leaves in the place of the file. -/
structure CliWrite (Bytes : Type) where
  content : Option Bytes
  link : Bool := false

/-- The turn before an operation: what the Codex CLI writes, whether the operation fails, what the
clock shows after it and what the upstream answers. -/
structure SyncTurn (Bytes : Type) where
  cli : Option (CliWrite Bytes) := none
  fails : Bool := false
  nowMs : Int := 0
  minting : Minting := .transient

namespace AuthDir

variable {Bytes : Type}

def written (d : AuthDir Bytes) : Option (CliWrite Bytes) → AuthDir Bytes
  | none => d
  | some w => { d with content := w.content, link := w.link }

/-- One operation after the turn before it. The rename follows the comparison without one. -/
def perform (c : AuthCodec Bytes) (turn : SyncTurn Bytes) (o : SyncOp Bytes) (d : AuthDir Bytes) :
    o.Res × AuthDir Bytes :=
  match o with
  | .clock => (turn.nowMs, d.written turn.cli)
  | .post refresh =>
    let d := d.written turn.cli
    match turn.minting with
    | .success tokens => (.success tokens, { d with log := .minted refresh tokens :: d.log })
    | other => (other, d)
  | .read =>
    let d := d.written turn.cli
    let auth := if turn.fails then none else d.content.bind (ImportedAuth.ofBytes c)
    ((auth, turn.nowMs), { d with log := .read auth turn.nowMs :: d.log })
  | .lock => (!turn.fails, d.written turn.cli)
  | .isLink =>
    let d := d.written turn.cli
    (if turn.fails then none else some d.link, d)
  | .prepare => (!turn.fails, d.written turn.cli)
  | .compare =>
    let d := d.written turn.cli
    (if turn.fails then none else d.content, d)
  | .rename bytes tokens =>
    if turn.fails then (false, d)
    else (true, { content := some bytes, link := false, log := .wrote d.content tokens :: d.log })

end AuthDir

abbrev authFile {Bytes : Type} (c : AuthCodec Bytes) : Shared (syncOps Bytes) where
  State := AuthDir Bytes
  Turn := SyncTurn Bytes
  quiet := {}
  perform := AuthDir.perform c

/-! ## `write_back_with_digest` -/

/-- `io::Result<bool>` of a write-back: `Ok(true)`, `Ok(false)` or an error. -/
inductive WriteBack
  | published
  | changed
  | failed
  deriving DecidableEq

/-- The document with a pair in the place of its own. -/
def ImportedAuth.withTokens {Bytes : Type} (c : AuthCodec Bytes) (auth : ImportedAuth Bytes)
    (tokens : CodexTokens) (refreshed : String) (nowMs : Int) : Option Value :=
  match auth.document.get "tokens" with
  | some (.object fields) =>
    let stored := Value.object fields
    let stored := match tokens.idToken with
      | some idToken => stored.insert "id_token" (.string idToken)
      | none => stored
    let stored := stored.insert "access_token" (.string tokens.accessToken)
    let stored := stored.insert "refresh_token" (.string refreshed)
    some ((auth.document.insert "tokens" stored).insert "last_refresh"
      (.string (c.writeInstant nowMs)))
  | _ => none

/-- The raw document names a refresh token of another digest. -/
def refreshChanged {Bytes : Type} (c : AuthCodec Bytes) (expectedDigest : String)
    (current : Bytes) : Bool :=
  (((c.document current).bind (·.get "tokens")).bind (·.str "refresh_token")).any
    fun refresh => decide (c.refreshDigest refresh ≠ expectedDigest)

section WriteBack

variable {Bytes : Type} [DecidableEq Bytes] (c : AuthCodec Bytes)

/-- From the temporary file on: the file is compared as a whole before it is replaced. -/
def commitWriteBack (expectedDigest : String) (auth : ImportedAuth Bytes) (bytes : Bytes)
    (tokens : CodexTokens) : SyncProg Bytes WriteBack := do
  let prepared ← SyncProg.prepare
  if prepared = false then return .failed
  let link ← SyncProg.isLink
  if link ≠ some false then return .failed
  let current ← SyncProg.compare
  match current with
  | none => return .failed
  | some current =>
    if current ≠ auth.original then
      if refreshChanged c expectedDigest current then return .changed else return .failed
    else
      let renamed ← SyncProg.rename bytes tokens
      return if renamed then .published else .failed

def writeBackWithDigest (expectedDigest : String) (tokens : CodexTokens) :
    SyncProg Bytes WriteBack := do
  let locked ← SyncProg.lock
  if locked = false then return .failed
  let link ← SyncProg.isLink
  if link ≠ some false then return .failed
  let (auth, nowMs) ← SyncProg.read
  match auth with
  | none => return .failed
  | some auth =>
    if c.refreshDigest auth.login.refreshToken ≠ expectedDigest then return .changed
    else
      match nonEmptyText tokens.refreshToken with
      | none => return .failed
      | some refreshed =>
        match auth.withTokens c tokens refreshed nowMs with
        | none => return .failed
        | some document => commitWriteBack c expectedDigest auth (c.print document) tokens

end WriteBack

/-! ## The row -/

structure PendingCodexWriteback where
  expectedRefresh : String
  tokens : CodexTokens
  retryAfterMs : Int := 0
  failures : Nat := 0
  deriving DecidableEq

/-- `PendingCodexWriteback::back_off`: five seconds, doubled with each failure, up to five minutes. -/
def PendingCodexWriteback.backOff (pending : PendingCodexWriteback) (nowMs : Int) :
    PendingCodexWriteback :=
  let failures := min (pending.failures + 1) 255
  let seconds := min (5 * 2 ^ min (failures - 1) 6) 300
  { pending with failures, retryAfterMs := nowMs + seconds * 1000 }

structure SyncRow extends CredentialRow where
  pending : Option PendingCodexWriteback := none

namespace SyncRow

def pair (row : SyncRow) : String × Option String :=
  (row.accessToken, row.refreshToken)

def apply (row : SyncRow) (tokens : Tokens) (cooldownAfter : Option Int) : SyncRow :=
  { row with toCredentialRow := row.toCredentialRow.applyRefresh tokens cooldownAfter }

def imported (row : SyncRow) : Bool :=
  match row.provider with
  | .anthropic => false
  | .codex => row.codexHome.isSome

end SyncRow

section Refresh

variable {Bytes : Type} [DecidableEq Bytes] (c : AuthCodec Bytes)

/-- What the file that a write-back was refused for settles: it holds the pending pair already, or a
newer live pair to adopt. -/
inductive SettledOwed
  | published
  | adopted (tokens : CodexTokens)
  | owed
  deriving DecidableEq

/-- The file's pair against the pending one. -/
def settleOwed (row : SyncRow) (owed : CodexTokens) (found : Option (ImportedAuth Bytes) × Int) :
    SettledOwed :=
  match found.1 with
  | none => .owed
  | some auth =>
    if auth.login.refreshToken = owed.refreshToken.getD "" ∧
        auth.login.accessToken = owed.accessToken then .published
    else
      match (auth.newerTokens c (owed.refreshToken.getD "") owed.accessToken row.orgUuid
          row.accountUuid none false).filter fun tokens => decide (found.2 < tokens.expiresAtMs) with
      | some tokens => .adopted tokens
      | none => .owed

/-- The row once a write-back has been settled, or has not. -/
def SyncRow.settled (row : SyncRow) (nowMs : Int) : SettledOwed → SyncRow
  | .published => { row with pending := none }
  | .adopted tokens => { row.apply tokens.toTokens none with pending := none }
  | .owed => { row with pending := row.pending.map (·.backOff nowMs) }

/-- `flush_codex_writeback_locked`, with the mutation not released. -/
def flushCodexWritebackLocked (row : SyncRow) : SyncProg Bytes (Option WriteBack × SyncRow) :=
  if row.removed = true ∨ row.imported = false then return (none, row)
  else
    match row.pending with
    | none => return (none, row)
    | some pending => do
      let result ← writeBackWithDigest c pending.expectedRefresh pending.tokens
      match result with
      | .published => return (some result, row.settled 0 .published)
      | .changed =>
        let found ← SyncProg.read
        let nowMs ← SyncProg.clock
        return (some result, row.settled nowMs (settleOwed c row pending.tokens found))
      | .failed =>
        let nowMs ← SyncProg.clock
        return (some result, row.settled nowMs .owed)

def readImported (row : SyncRow) : SyncProg Bytes (Option (ImportedAuth Bytes)) :=
  if row.imported then do
    let (auth, _) ← SyncProg.read
    return auth
  else return none

/-- `newer_in_file`: the file's pair if it is newer, and the clock right after it was read. -/
def newerInFile (row : SyncRow) (refreshToken accessBefore : String) (afterMs : Option Int)
    (previousRejected : Bool) : SyncProg Bytes (Option CodexTokens × Int) :=
  if row.imported then do
    let (auth, nowMs) ← SyncProg.read
    return (auth.bind fun auth => auth.newerTokens c refreshToken accessBefore row.orgUuid
      row.accountUuid afterMs previousRejected, nowMs)
  else do
    let nowMs ← SyncProg.clock
    return (none, nowMs)

/-- The instant of the file that still held the refresh token of the row. -/
def loadedRefreshMs (fileBefore : Option (ImportedAuth Bytes)) (refreshToken : String) :
    Option Int :=
  (fileBefore.filter fun auth => decide (auth.login.refreshToken = refreshToken)).bind
    ImportedAuth.lastRefreshMs

/-- A pair that a refresh came to, and what is to be done with it. -/
inductive Refreshed
  /-- minted for the token posted, which the file held or did not -/
  | minted (tokens : CodexTokens) (posted : String) (fromFile : Bool)
  /-- found in the file instead -/
  | found (tokens : CodexTokens)
  | rejected (status : Nat) (code : Option String)
  | transient

def Minting.refreshed (minting : Minting) (posted : String) (fromFile : Bool) : Refreshed :=
  match minting with
  | .success tokens => .minted tokens posted fromFile
  | .authRejected status code => .rejected status code
  | .transient => .transient

/-- After a failed POST: a newer pair of the file, or another POST for the token of one. -/
def postAgain (row : SyncRow) (refreshToken accessBefore : String) (loadedMs : Option Int)
    (posted : String) (fromFile : Bool) (failure : Minting) : SyncProg Bytes Refreshed := do
  let rejected := match failure with
    | .authRejected _ _ => true
    | _ => false
  let (found, nowMs) ← newerInFile c row refreshToken accessBefore loadedMs rejected
  match found.filter fun tokens => decide (tokens.refreshToken ≠ some posted) with
  | none => return failure.refreshed posted fromFile
  | some replacement =>
    if nowMs < replacement.expiresAtMs then return .found replacement
    else
      match replacement.refreshToken with
      | none => return failure.refreshed posted fromFile
      | some token =>
        let minting ← SyncProg.post token
        return minting.refreshed token true

def postRefresh (row : SyncRow) (refreshToken accessBefore : String) (loadedMs : Option Int)
    (posted : String) (fromFile : Bool) : SyncProg Bytes Refreshed := do
  let minting ← SyncProg.post posted
  match minting with
  | .success tokens => return .minted tokens posted fromFile
  | failure => postAgain c row refreshToken accessBefore loadedMs posted fromFile failure

/-- The digest of the token a minted pair is owed over: that of the pending pair it goes on from, or
of the token posted for it. -/
def expectedFor (row : SyncRow) (posted : String) (fromFile : Bool) : String :=
  match row.pending.filter fun pending =>
      !fromFile && decide (pending.tokens.refreshToken = some posted) with
  | some pending => pending.expectedRefresh
  | none => c.refreshDigest posted

/-- A minted pair is owed to the file, and written there; where another pair was found instead, that
one is taken if it is newer than the one the refresh began with. -/
def publishMinted (row : SyncRow) (refreshToken accessBefore : String) (loadedMs : Option Int)
    (tokens : CodexTokens) (posted : String) (fromFile : Bool) :
    SyncProg Bytes (CodexTokens × SyncRow) :=
  if row.imported then do
    let expectedRefresh := expectedFor c row posted fromFile
    let (result, row) ←
      flushCodexWritebackLocked c { row with pending := some { expectedRefresh, tokens } }
    if result = some .changed then
      let (found, nowMs) ← newerInFile c row refreshToken accessBefore loadedMs false
      match found.filter fun tokens => decide (nowMs < tokens.expiresAtMs) with
      | some newer => return (newer, { row with pending := none })
      | none => return (tokens, row)
    else return (tokens, row)
  else return (tokens, row)

/-- The end of a refresh that came to a pair. -/
def installPair (row : SyncRow) (force : Bool) (tokens : CodexTokens) :
    SyncProg Bytes (Bool × SyncRow) := do
  let nowMs ← SyncProg.clock
  return (true, row.apply tokens.toTokens (if force then some (cooldownDeadline nowMs) else none))

def finishRefresh (row : SyncRow) (force : Bool) (refreshToken accessBefore : String)
    (loadedMs : Option Int) : Refreshed → SyncProg Bytes (Bool × SyncRow)
  | .minted tokens posted fromFile => do
    let (tokens, row) ←
      publishMinted c row refreshToken accessBefore loadedMs tokens posted fromFile
    installPair row force tokens
  | .found tokens => installPair { row with pending := none } force tokens
  | .rejected status code => do
    let nowMs ← SyncProg.clock
    let pending := match row.provider with
      | .anthropic => row.pending
      | .codex => none
    return (false, { row with
      toCredentialRow := (row.toCredentialRow.rejected status code).growErrorBackoff nowMs
      pending })
  | .transient => do
    let nowMs ← SyncProg.clock
    return (false, { row with refreshRetryAfterMs := some (cooldownDeadline nowMs) })

/-- `refresh_locked`, once it has the lock: whether a pair was applied, and the row. -/
def refreshLocked (row : SyncRow) (force : Bool) (refreshToken accessBefore : String) :
    SyncProg Bytes (Bool × SyncRow) :=
  if row.accessToken ≠ accessBefore then return (false, row)
  else do
    let nowMs ← SyncProg.clock
    if row.inCooldown nowMs then return (false, row)
    else
      let fileBefore ← readImported row
      let loadedMs := loadedRefreshMs fileBefore refreshToken
      let (preexisting, nowMs) ← newerInFile c row refreshToken accessBefore none false
      match preexisting.filter fun tokens => decide (nowMs < tokens.expiresAtMs) with
      | some tokens => installPair { row with pending := none } force tokens
      | none =>
        let posted := (preexisting.bind fun tokens => tokens.refreshToken).getD refreshToken
        let fromFile := preexisting.isSome ||
          fileBefore.any fun auth => decide (auth.login.refreshToken = posted)
        let refreshed ← postRefresh c row refreshToken accessBefore loadedMs posted fromFile
        finishRefresh c row force refreshToken accessBefore loadedMs refreshed

/-- `retry_codex_writeback`: what it checks before it takes the lock it checks again under it. -/
def retryCodexWriteback (row : SyncRow) : SyncProg Bytes SyncRow :=
  if row.removed = true ∨ row.codexHome = none then return { row with pending := none }
  else do
    let nowMs ← SyncProg.clock
    if row.pending.any fun pending => decide (pending.retryAfterMs ≤ nowMs) then
      let (_, row) ← flushCodexWritebackLocked c row
      return row
    else return row

end Refresh

end TeamClaude
