import TeamClaude.Config.PlanMerge

/-!
# Account entries

An account as the loader reads it from an entry of the file and as a writer of the whole file spells
it back, and the parts of it that a credential write changes.
-/

namespace TeamClaude

open Lib.Json

/-- `AccountType`: what `type` says, an unknown word held as written. -/
inductive AccountType
  | oauth
  | apiKey
  | unrecognized (raw : String)
  deriving DecidableEq

namespace AccountType

def ofSpelling (s : String) : AccountType :=
  if s = "oauth" then .oauth else if s = "apikey" then .apiKey else .unrecognized s

def spelling : AccountType → String
  | oauth => "oauth"
  | apiKey => "apikey"
  | unrecognized raw => raw

/-- A known type may stand as the one key of an object, over a null. -/
def ofValue : Value → Option AccountType
  | .string s => some (ofSpelling s)
  | .object [(name, .null)] =>
    if name = "oauth" then some .oauth else if name = "apikey" then some .apiKey else none
  | _ => none

/-- An absent `type` is OAuth. -/
def ofEntry (entry : Value) : Option AccountType :=
  match entry.get "type" with
  | none => some .oauth
  | some v => ofValue v

end AccountType

/-- The keys of an entry that this model reads or writes by name. -/
def namedKeys : List String :=
  ["name", "type", "provider", "accountUuid", "orgUuid", "orgName", "accessToken", "refreshToken",
    "expiresAt", "priority", "organizationType", "rateLimitTier", "seatTier", "codexHome"]

/-- The other fields of an entry, as the file spells them: routing knobs and unknown keys. -/
def OtherFields := {fields : List (String × Value) // ∀ f ∈ fields, f.1 ∉ namedKeys}

def OtherFields.empty : OtherFields :=
  ⟨[], fun _ hf => absurd hf List.not_mem_nil⟩

structure Credentials where
  accessToken : String
  refreshToken : Option String := none
  expiresAt : Option Int64 := none
  deriving DecidableEq

/-- `config::Account`. -/
structure StoredAccount where
  name : String
  accountType : AccountType := .oauth
  provider : Provider := .anthropic
  accountUuid : Option String := none
  orgUuid : Option String := none
  orgName : Option String := none
  credentials : Credentials
  priority : Option Int64 := none
  organizationType : Option String := none
  rateLimitTier : Option String := none
  seatTier : Option String := none
  codexHome : Option String := none
  others : OtherFields := .empty

namespace StoredAccount

def identity (a : StoredAccount) : Account where
  name := a.name
  provider := a.provider
  accountUuid := a.accountUuid
  orgUuid := a.orgUuid
  orgName := a.orgName

end StoredAccount

/-! ## Writing an entry -/

/-- A field that is skipped when there is nothing to write. -/
def optionalField (key : String) (v : Option Value) : List (String × Value) :=
  (v.map fun v => (key, v)).toList

/-- The serialized credentials; an unset one is skipped. -/
def Credentials.fields (c : Credentials) : List (String × Value) :=
  [("accessToken", .string c.accessToken)] ++
    optionalField "refreshToken" (c.refreshToken.map .string) ++
    optionalField "expiresAt" (c.expiresAt.map .ofI64)

/-- Anthropic is spelled as the absent key. -/
def Provider.spelling : Provider → Option Value
  | .anthropic => none
  | .codex => some (.string "codex")

def StoredAccount.toEntry (a : StoredAccount) : Value :=
  .object ([("name", .string a.name), ("type", .string a.accountType.spelling)] ++
    optionalField "provider" a.provider.spelling ++
    optionalField "accountUuid" (a.accountUuid.map .string) ++
    optionalField "orgUuid" (a.orgUuid.map .string) ++
    optionalField "orgName" (a.orgName.map .string) ++
    a.credentials.fields ++
    optionalField "priority" (a.priority.map .ofI64) ++
    optionalField "organizationType" (a.organizationType.map .string) ++
    optionalField "rateLimitTier" (a.rateLimitTier.map .string) ++
    optionalField "seatTier" (a.seatTier.map .string) ++
    optionalField "codexHome" (a.codexHome.map .string) ++ a.others.1)

/-! ## Reading an entry -/

/-- An optional `i64` field, by its derived reader. -/
def optionalI64 (entry : Value) (key : String) : Option (Option Int64) :=
  match entry.get key with
  | none => some none
  | some .null => some none
  | some v => v.toI64.map some

/-- The fields of an entry that are not read by name. -/
def othersOfEntry (entry : Value) : OtherFields :=
  match entry with
  | .object fields =>
    ⟨fields.filter fun f => f.1 ∉ namedKeys, fun f hf => by simpa using (List.mem_filter.mp hf).2⟩
  | _ => .empty

/-- The account of a usable entry: an API-key row and a row without a token are not loaded. -/
def StoredAccount.ofEntry (entry : Value) : Option StoredAccount := do
  let stored ← DiskIdentity.ofEntry entry
  let provider ← providerOfEntry entry
  let accountType ← AccountType.ofEntry entry
  let accessToken ← entry.str "accessToken"
  guard (accountType ≠ .apiKey ∧ accessToken ≠ "")
  let refreshToken ← optionalStr entry "refreshToken"
  let expiresAt ← optionalI64 entry "expiresAt"
  let priority ← optionalI64 entry "priority"
  let organizationType ← optionalStr entry "organizationType"
  let rateLimitTier ← optionalStr entry "rateLimitTier"
  let seatTier ← optionalStr entry "seatTier"
  let codexHome ← optionalStr entry "codexHome"
  return {
    name := stored.name
    accountType, provider
    accountUuid := stored.accountUuid
    orgUuid := stored.orgUuid
    orgName := stored.orgName
    credentials := { accessToken, refreshToken, expiresAt }
    priority, organizationType, rateLimitTier, seatTier, codexHome
    others := othersOfEntry entry }

/-! ## Credential versions -/

def credentialVersionFor : Provider → UInt64
  | .anthropic => 1
  | .codex => 2

/-- An absent version always needs one; a Codex row also when it carries a smaller number. -/
def needsCredentialStamp (entry : Value) (provider : Provider) : Bool :=
  let version := credentialVersionFor provider
  match entry.get "credentialVersion" with
  | none => true
  | some (.number n) => decide (1 < version) && (Value.number n).asU64.any fun v => decide (v < version)
  | some _ => false

def stampCredentialVersion (entry : Value) (provider : Provider) : Value :=
  if needsCredentialStamp entry provider then
    entry.insert "credentialVersion" (.number (.posInt (credentialVersionFor provider)))
  else entry

/-- The loader refuses a version above the provider's, and one that is no version number. -/
def versionUnderstood (entry : Value) : Bool :=
  let understood := ((providerOfEntry entry).map credentialVersionFor).getD 1
  match entry.get "credentialVersion" with
  | none => true
  | some v => v.asU64.any fun v => decide (v ≤ understood)

end TeamClaude
