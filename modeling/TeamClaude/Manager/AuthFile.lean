import TeamClaude.Lib.Json
import TeamClaude.Lib.SharedProg
import TeamClaude.Manager.Refresh

/-!
# The imported login file

An imported Codex login stays in the `auth.json` it came from, which the Codex CLI writes as well. A
pair is adopted from the file only if it is newer, and a pair is written back only over the token it
came from.
-/

namespace TeamClaude

open Lib Lib.Json

/-! ## What a file holds -/

structure CodexTokens extends Tokens where
  idToken : Option String := none
  deriving DecidableEq

/-- The two tokens that go together. -/
def Tokens.pair (tokens : Tokens) : String × Option String :=
  (tokens.accessToken, tokens.refreshToken)

structure CodexLogin where
  accessToken : String
  refreshToken : String
  accountId : Option String := none
  userId : Option String := none
  expiresAtMs : Option Int := none
  isFedramp : Bool := false
  deriving DecidableEq

/-- The parts of a login file that are read and written elsewhere: its text as JSON, the payload of a
JWT, instants, and the digest of a token. -/
structure AuthCodec (Bytes : Type) where
  document : Bytes → Option Value
  print : Value → Bytes
  jwtPayload : String → Option Value
  readInstant : String → Option Int
  writeInstant : Int → String
  refreshDigest : String → String

/-- A product of a stored number of seconds that fits an `i64`. -/
def secondsToMs (seconds : Int) : Option Int :=
  if -2 ^ 63 ≤ seconds * 1000 ∧ seconds * 1000 < 2 ^ 63 then some (seconds * 1000) else none

/-- An absent text is none, and so is `null`; anything else that is no text is an error. -/
def optionalText : Option Value → Option (Option String)
  | none => some none
  | some .null => some none
  | some (.string s) => some (some s)
  | some _ => none

/-- A field of a structure, which serde also reads from a sequence by position. -/
def structField (v : Value) (key : String) (position : Nat) : Option Value :=
  match v with
  | .array elems => elems[position]?
  | v => v.get key

def isStruct (v : Value) (fields : Nat) : Bool :=
  match v with
  | .object _ => true
  | .array elems => decide (elems.length ≤ fields)
  | _ => false

/-- A text that is not empty. -/
def nonEmptyText (s : Option String) : Option String :=
  s.filter (· ≠ "")

/-- The claims of an id token or an access token that tell who it belongs to. -/
structure IdClaims where
  chatgptAccountId : Option String := none
  chatgptUserId : Option String := none
  chatgptAccountIsFedramp : Bool := false

namespace AuthCodec

variable {Bytes : Type} (c : AuthCodec Bytes)

def jwtIatMs (jwt : String) : Option Int :=
  (((c.jwtPayload jwt).bind (·.get "iat")).bind Value.asI64).bind secondsToMs

def jwtExpMs (jwt : String) : Option Int :=
  (((c.jwtPayload jwt).bind (·.get "exp")).bind Value.asI64).bind secondsToMs

def idClaims (jwt : String) : Option IdClaims :=
  (c.jwtPayload jwt).map fun payload =>
    let auth := payload.get "https://api.openai.com/auth"
    let text (key : String) : Option String := auth.bind (·.str key)
    { chatgptAccountId := text "chatgpt_account_id"
      chatgptUserId := (text "chatgpt_user_id").or (text "user_id")
      chatgptAccountIsFedramp :=
        ((auth.bind (·.get "chatgpt_account_is_fedramp")).bind Value.asBool).getD false }

def loginFromTokens (idToken : Option String) (accessToken refreshToken : String)
    (accountId : Option String) : CodexLogin :=
  let id := (idToken.bind c.idClaims).getD {}
  let access := (c.idClaims accessToken).getD {}
  { accessToken, refreshToken
    accountId := ((nonEmptyText accountId).or id.chatgptAccountId).or access.chatgptAccountId
    userId := id.chatgptUserId.or access.chatgptUserId
    expiresAtMs := c.jwtExpMs accessToken
    isFedramp := id.chatgptAccountIsFedramp || access.chatgptAccountIsFedramp }

/-- `tokens` of an `auth.json`, if they are the tokens of a ChatGPT login. -/
def loginOfTokens (tokens : Value) : Option CodexLogin :=
  if isStruct tokens 4 then do
    let idToken ← optionalText (structField tokens "id_token" 0)
    let accessToken ← optionalText (structField tokens "access_token" 1)
    let refreshToken ← optionalText (structField tokens "refresh_token" 2)
    let accountId ← optionalText (structField tokens "account_id" 3)
    let accessToken ← nonEmptyText accessToken
    let refreshToken ← nonEmptyText refreshToken
    some (c.loginFromTokens idToken accessToken refreshToken accountId)
  else none

/-- `parse_auth_json`, where it finds a login. -/
def parseAuthJson (doc : Value) : Option CodexLogin :=
  if isStruct doc 2 then do
    let authMode ← optionalText (structField doc "auth_mode" 0)
    if authMode.any (· ≠ "chatgpt") then none
    else
      match structField doc "tokens" 1 with
      | none | some .null => none
      | some tokens => c.loginOfTokens tokens
  else none

end AuthCodec

structure ImportedAuth (Bytes : Type) where
  original : Bytes
  document : Value
  login : CodexLogin
  lastRefreshMs : Option Int

namespace ImportedAuth

variable {Bytes : Type}

/-- `read`, once the file is read: nothing for what is no login document. -/
def ofBytes (c : AuthCodec Bytes) (original : Bytes) : Option (ImportedAuth Bytes) :=
  (c.document original).bind fun document =>
    (c.parseAuthJson document).map fun login =>
      { original, document, login
        lastRefreshMs := (document.str "last_refresh").bind c.readInstant }

def pair (auth : ImportedAuth Bytes) : String × Option String :=
  (auth.login.accessToken, some auth.login.refreshToken)

/-- The file's own instant passes the baseline. -/
def stampPasses (auth : ImportedAuth Bytes) (afterMs : Option Int) (previousRejected : Bool) :
    Bool :=
  match afterMs with
  | none => true
  | some previous =>
    match auth.lastRefreshMs with
    | some current =>
      !(decide (current < previous) || (decide (current = previous) && !previousRejected))
    | none => previousRejected

/-- The issuance of the access token passes that of the previous one. -/
def issuancePasses (c : AuthCodec Bytes) (auth : ImportedAuth Bytes) (previousAccess : String)
    (afterMs : Option Int) (previousRejected : Bool) : Bool :=
  match c.jwtIatMs previousAccess, c.jwtIatMs auth.login.accessToken with
  | some previous, some candidate =>
    if candidate < previous then false
    else if previous < candidate then true
    else afterMs.isSome || previousRejected
  | _, _ => afterMs.isSome || previousRejected

/-- `tokens.id_token` of the document. -/
def idToken (auth : ImportedAuth Bytes) : Option String :=
  ((auth.document.get "tokens").bind (·.get "id_token")).bind Value.asStr

/-- Neither JWT names another workspace. -/
def sameWorkspace (c : AuthCodec Bytes) (auth : ImportedAuth Bytes) (expected : String) : Bool :=
  [some auth.login.accessToken, auth.idToken].all fun token =>
    !((token.bind c.idClaims).bind IdClaims.chatgptAccountId).any (· ≠ expected)

def newerTokens (c : AuthCodec Bytes) (auth : ImportedAuth Bytes)
    (previousRefresh previousAccess : String) (accountId userId : Option String)
    (afterMs : Option Int) (previousRejected : Bool) : Option CodexTokens := do
  let expected ← nonEmptyText accountId
  let login := auth.login
  if login.refreshToken = previousRefresh ∨ login.accessToken = previousAccess ∨
      login.accountId ≠ some expected ∨ login.isFedramp = true ∨
      (userId.any fun old => login.userId.any (old ≠ ·)) = true ∨
      auth.stampPasses afterMs previousRejected = false then none
  else if auth.issuancePasses c previousAccess afterMs previousRejected = false then none
  else if (auth.document.get "tokens").isNone then none
  else if auth.sameWorkspace c expected = false then none
  else
    some
      { idToken := nonEmptyText auth.idToken
        accessToken := login.accessToken
        refreshToken := some login.refreshToken
        expiresAtMs := login.expiresAtMs.getD 0 }

theorem newer_tokens_pair {c : AuthCodec Bytes} {auth : ImportedAuth Bytes}
    {previousRefresh previousAccess : String} {accountId userId : Option String}
    {afterMs : Option Int} {previousRejected : Bool} {tokens : CodexTokens}
    (h : auth.newerTokens c previousRefresh previousAccess accountId userId afterMs
      previousRejected = some tokens) :
    tokens.pair = auth.pair ∧ auth.login.refreshToken ≠ previousRefresh := by
  unfold newerTokens at h
  obtain ⟨expected, -, h⟩ := Option.bind_eq_some_iff.mp h
  dsimp only at h
  split at h
  · cases h
  · rename_i hpasses
    rw [not_or] at hpasses
    split at h
    · cases h
    split at h
    · cases h
    split at h
    · cases h
    · rw [← Option.some.inj h]
      exact ⟨rfl, hpasses.1⟩

end ImportedAuth

end TeamClaude
