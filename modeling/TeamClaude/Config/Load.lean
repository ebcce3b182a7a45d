import TeamClaude.Config.MintName
import TeamClaude.Config.SavedLogin
import TeamClaude.Lib.Freshen
import Mathlib.Data.List.Sort

/-!
# Loading the config file

The file is read row by row. A row without a credential of its own is set aside under its name,
which shifts the rows behind it in memory but not in the file. Names that repeat are then minted
anew, in memory and in the file.
-/

namespace TeamClaude

open Lib Lib.Json

/-! ## The document -/

/-- `ControlAccountRef`: the name of an account, or an identity object an older build wrote. -/
inductive ControlAccountRef
  | name (name : String)
  | identity (stored : DiskIdentity)

namespace ControlAccountRef

def accountName : ControlAccountRef → String
  | .name s => s
  | .identity stored => stored.name

/-- The two shapes are told apart by the kind of the value. -/
def ofValue : Value → Option ControlAccountRef
  | .string s => some (.name s)
  | v => (DiskIdentity.ofEntry v).map .identity

end ControlAccountRef

def defaultUpstream : String :=
  "https://api.anthropic.com"

def defaultCodexUpstream : String :=
  "https://chatgpt.com"

structure AccountRename where
  fromName : String
  toName : String
  org : Option String
  deriving DecidableEq

/-- `config::Config`, without the settings that loading does not look at. -/
structure BootConfig where
  upstream : String
  codexUpstream : String
  accounts : List StoredAccount
  controlAccount : Option ControlAccountRef
  quarantinedAccounts : List String := []
  renamedAccounts : List AccountRename := []
  renameWriteError : Option String := none

def stringOr (doc : Value) (key default : String) : Option String :=
  match doc.get key with
  | none => some default
  | some v => v.asStr

/-- The account entries; nothing when the key holds something else. -/
def accountsField (doc : Value) : Option (List Value) :=
  match doc.get "accounts" with
  | none => some []
  | some v => v.asArray

/-- An absent or `null` reference is none; one of neither shape cannot be read. -/
def controlField (doc : Value) : Option (Option ControlAccountRef) :=
  match doc.get "controlAccount" with
  | none => some none
  | some .null => some none
  | some v => (ControlAccountRef.ofValue v).map some

/-- The typed reading of a document. -/
def BootConfig.ofDocument (doc : Value) : Option BootConfig := do
  guard (doc.isObject = true)
  let upstream ← stringOr doc "upstream" defaultUpstream
  let codexUpstream ← stringOr doc "codexUpstream" defaultCodexUpstream
  let entries ← accountsField doc
  let accounts ← entries.mapM StoredAccount.ofEntry
  let controlAccount ← controlField doc
  return { upstream, codexUpstream, accounts, controlAccount }

/-! ## Quarantine -/

/-- Why a row is set aside. -/
inductive Unusable
  | missingAccessToken
  | apiKeyAccount
  | unreadableType (raw : Value)
  | foreignUpstream (upstream : Value) (provider : Provider)

def nameShown (entry : Value) : String :=
  (entry.str "name").getD "<unnamed>"

section Quarantine

-- the lowercased host of a URL, if it parses and has one
variable (upstreamHost : String → Option String)

/-- What is wrong with a row, whatever its name. -/
def unusableReason (ownUpstreamHost ownCodexUpstreamHost : Option String) (entry : Value) :
    Option Unusable :=
  match AccountType.ofEntry entry with
  | none => some (.unreadableType ((entry.get "type").getD .null))
  | some accountType =>
    if accountType = .apiKey then some .apiKeyAccount
    else if (presentKey (entry.str "accessToken")).isNone then some .missingAccessToken
    else
      match entry.get "upstream" with
      | none => none
      | some upstream =>
        let provider := (providerOfEntry entry).getD .anthropic
        let hosts := match provider with
          | .anthropic => [upstreamHost defaultUpstream, ownUpstreamHost]
          | .codex => [upstreamHost defaultCodexUpstream, ownCodexUpstreamHost]
        match upstream.asStr.bind upstreamHost with
        | some host => if some host ∈ hosts then none else some (.foreignUpstream upstream provider)
        | none => some (.foreignUpstream upstream provider)

def unusableAccount (ownUpstreamHost ownCodexUpstreamHost : Option String) (entry : Value) :
    Option (String × Unusable) :=
  (unusableReason upstreamHost ownUpstreamHost ownCodexUpstreamHost entry).map
    fun reason => (nameShown entry, reason)

/-- The host of a top-level upstream, or of its default when the key holds no string. -/
def ownHost (doc : Value) (key default : String) : Option String :=
  upstreamHost ((doc.str key).getD default)

/-- Why the loader sets a row aside, which it looks at once it is stamped. -/
def setAside (doc entry : Value) : Option (String × Unusable) :=
  unusableAccount upstreamHost (ownHost upstreamHost doc "upstream" defaultUpstream)
    (ownHost upstreamHost doc "codexUpstream" defaultCodexUpstream) (stampLoaded entry)

/-- Why a row's version refuses the whole file. -/
def versionRefusal (entry : Value) : Option String :=
  let understood := ((providerOfEntry entry).map credentialVersionFor).getD 1
  match entry.get "credentialVersion" with
  | none => none
  | some v =>
    match v.asU64 with
    | none => some ("account \"" ++ nameShown entry ++ "\" carries a credentialVersion that is " ++
        "not a version number; refusing to load rather than guess what it means")
    | some v =>
      if understood < v then
        some ("account \"" ++ nameShown entry ++ "\" carries credentialVersion " ++ toString v ++
          ", which this build only understands up to " ++ toString understood ++ "; refusing to " ++
          "load rather than silently reinterpret its credential shape")
      else none

/-- How a load ends without a config: with a message, on a document its types do not fit, or, where
no name is left to mint, never. -/
inductive LoadError
  | refused (message : String)
  | malformed
  | hangs

def noneUsable (quarantined : List String) : String :=
  "no usable accounts remain after skipping " ++ toString quarantined.length ++
    " (no credential, an API-key account, an unreadable type, or a non-Anthropic upstream): " ++
    ", ".intercalate quarantined

/-- `doc.get_mut("accounts")`, where there are any. -/
def withEntries (doc : Value) (entries : List Value) : Value :=
  match entriesOf doc with
  | some _ => doc.insert "accounts" (.array entries)
  | none => doc

abbrev entriesIn (doc : Value) : List Value :=
  (entriesOf doc).getD []

/-- The entries that are not set aside, with where they sit. -/
def keptEntries (doc : Value) : List (Value × Nat) :=
  (entriesIn doc).zipIdx.filter fun e => (setAside upstreamHost doc e.1).isNone

def quarantinedNames (doc : Value) : List String :=
  (entriesIn doc).filterMap fun e => (setAside upstreamHost doc e).map Prod.fst

/-- `load`, up to the renames: the config, and where each account sat in the file's own array. -/
def readConfig (doc : Value) : Except LoadError (BootConfig × List Nat) :=
  match (entriesIn doc).findSome? versionRefusal with
  | some message => .error (.refused message)
  | none =>
    if !(entriesIn doc).isEmpty && (keptEntries upstreamHost doc).isEmpty then
      .error (.refused (noneUsable (quarantinedNames upstreamHost doc)))
    else
      match BootConfig.ofDocument (withEntries doc
        ((keptEntries upstreamHost doc).map fun e => stampLoaded e.1)) with
      | none => .error .malformed
      | some config =>
        .ok ({ config with quarantinedAccounts := quarantinedNames upstreamHost doc },
          (keptEntries upstreamHost doc).map Prod.snd)

end Quarantine

/-! ## The renames -/

def isPersonalPlan (organizationType : Option String) : Bool :=
  organizationType = some "claude_max" || organizationType = some "claude_pro"

def duplicatedNames (accounts : List StoredAccount) : List String :=
  let names := accounts.map StoredAccount.name
  (names.dedup.filter fun name => 1 < names.count name).insertionSort (· ≤ ·)

def rowsNamed (accounts : List StoredAccount) (name : String) : List (StoredAccount × Nat) :=
  accounts.zipIdx.filter fun row => row.1.name = name

/-- The row that keeps the name: the first on a personal plan, or else the first of the lowest
priority number. -/
def keeperOf (rows : List (StoredAccount × Nat)) : Option (StoredAccount × Nat) :=
  (rows.find? fun row => isPersonalPlan row.1.organizationType).or
    (minByKey (fun row => (row.1.priority.getD 0).toInt) rows)

def leavingRows (accounts : List StoredAccount) (name : String) : List (StoredAccount × Nat) :=
  let rows := rowsNamed accounts name
  match keeperOf rows with
  | none => []
  | some keeper => rows.filter fun row => row.2 ≠ keeper.2

def mintOrder (accounts : List StoredAccount) : List (StoredAccount × Nat) :=
  (duplicatedNames accounts).flatMap (leavingRows accounts)

def mintedFor (account : StoredAccount) (taken : Finset String) : Option String :=
  mintName (emailOf account.name) account.orgName account.orgUuid taken

/-- One name after another, each off-limits for the next. -/
def mintRenames (taken : Finset String) :
    List (StoredAccount × Nat) → Option (List (Nat × AccountRename))
  | [] => some []
  | (account, index) :: rows => do
    let minted ← mintedFor account taken
    let renames ← mintRenames (insert minted taken) rows
    return (index, { fromName := account.name, toName := minted,
                     org := account.orgName.or account.orgUuid }) :: renames

/-- The names of the accounts in memory. -/
def BootConfig.names (config : BootConfig) : List String :=
  config.accounts.map StoredAccount.name

/-- `plan_renames`; nothing when a name is minted forever. -/
def planRenames (accounts : List StoredAccount) : Option (List (Nat × AccountRename)) :=
  (mintRenames (accounts.map StoredAccount.name).toFinset (mintOrder accounts)).map
    fun renames => renames.insertionSort fun r r' => r.1 ≤ r'.1

/-! ## Writing them -/

def insertName (name : String) (entry : Value) : Value :=
  entry.insert "name" (.string name)

def renameEntry (entries : List Value) (r : Nat × String) : Except String (List Value) :=
  if (entries[r.1]?).any Value.isObject then .ok (entries.modify r.1 (insertName r.2))
  else .error ("config parse error: accounts[" ++ toString r.1 ++ "] is not an object")

/-- `save_renames`: the file, unless it could not be written. -/
def saveRenames (write : Except String Unit) (doc : Value) (renames : List (Nat × String))
    (controlAccount : Option String) : Except String Value := do
  match entriesOf doc with
  | none => .error "config parse error: the accounts key is not an array"
  | some entries =>
    let entries ← renames.foldlM renameEntry entries
    let doc := doc.insert "accounts" (.array entries)
    let doc := match controlAccount with
      | some name => doc.insert "controlAccount" (.string name)
      | none => doc
    write
    return doc

def renameAccount (rename : AccountRename) (account : StoredAccount) : StoredAccount :=
  { account with name := rename.toName }

/-- The new name of the first account that the reference names, if it gets one. -/
def controlRename (config : BootConfig) (renames : List (Nat × AccountRename)) : Option String := do
  let control ← config.controlAccount
  let first ← firstPlace config.names control.accountName
  let rename ← renames.find? fun r => r.1 = first
  return rename.2.toName

/-- The config with its accounts renamed; the reference follows its account. -/
def BootConfig.renamed (config : BootConfig) (renames : List (Nat × AccountRename)) : BootConfig :=
  { config with
    accounts := editAll renameAccount config.accounts renames
    controlAccount := ((controlRename config renames).map .name).or config.controlAccount
    renamedAccounts := renames.map Prod.snd }

/-- Where the new names go in the file's own array. -/
def writesAt (fileIndex : List Nat) (renames : List (Nat × AccountRename)) : List (Nat × String) :=
  renames.filterMap fun r => (fileIndex[r.1]?).map fun i => (i, r.2.toName)

/-- `migrate_duplicate_names`: the config, and the file it leaves. -/
def migrateDuplicateNames (write : Except String Unit) (doc : Value) (config : BootConfig)
    (fileIndex : List Nat) : Option (BootConfig × Value) :=
  (planRenames config.accounts).map fun renames =>
    if renames.isEmpty then (config, doc)
    else
      let writes := writesAt fileIndex renames
      if writes.length ≠ renames.length then
        ({ config.renamed renames with
            renameWriteError :=
              some "could not map every renamed account back to its entry in the file" }, doc)
      else
        match saveRenames write doc writes (controlRename config renames) with
        | .error err => ({ config.renamed renames with renameWriteError := some err }, doc)
        | .ok file => (config.renamed renames, file)

/-- `load`: the config, and the file it leaves. The write goes as it is given. -/
def load (upstreamHost : String → Option String) (write : Except String Unit) (doc : Value) :
    Except LoadError (BootConfig × Value) := do
  let (config, fileIndex) ← readConfig upstreamHost doc
  match migrateDuplicateNames write doc config fileIndex with
  | none => .error .hangs
  | some loaded => return loaded

end TeamClaude
