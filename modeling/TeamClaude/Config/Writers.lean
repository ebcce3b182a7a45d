import TeamClaude.Config.AccountEntry
import TeamClaude.Manager.Roster

/-!
# Writers of the config file

The three ways an account list reaches the file: a token write merges credentials into the entries
it finds, an account write updates or appends one entry, and a settings write spells the whole list
out of memory and takes the credentials from the file. The loader reads the list back.
-/

namespace TeamClaude

open Lib.Json

/-! ## `save_tokens_for` -/

/-- Which accounts' credentials a token write may touch. -/
inductive CredentialScope
  | all
  | only (position : Nat)

def CredentialScope.covers : CredentialScope → Nat → Bool
  | .all, _ => true
  | .only position, p => p = position

def codexSyncPendingKey : String := "codexTokenSyncPending"

def mergeEntry (entry : Value) (fresh : StoredAccount) : Value :=
  let entry := entry.extend fresh.credentials.fields
  let entry :=
    match fresh.provider with
    | .anthropic => entry
    | .codex =>
      match (Value.object fresh.others.1).get codexSyncPendingKey with
      | some value => entry.insert codexSyncPendingKey value
      | none => entry.remove codexSyncPendingKey
  stampCredentialVersion entry fresh.provider

def mergeTokens (file : List Value) (memory : List StoredAccount) (scope : CredentialScope) :
    List Value :=
  (file.zip (planMerge file (memory.map StoredAccount.identity))).map fun c =>
    match c.2.2 with
    | .skip _ => c.1
    | .write position =>
      if scope.covers position then
        match memory[position]? with
        | some fresh => mergeEntry c.1 fresh
        | none => c.1
      else c.1

/-! ## `save_account` -/

/-- The one entry that carries the identity. -/
def locateAccountEntry (file : List Value) (target : Account) : Resolved :=
  resolveAmong (file.zipIdx.filterMap fun c =>
    (probeOfEntry c.1).toOption.map fun found => (c.2, found)) target

/-- The key holds a string that is not empty. -/
def presentIn (entry : Value) (key : String) : Bool :=
  match entry.get key with
  | some (.string s) => decide (s ≠ "")
  | _ => false

/-- An identity field is written only where the entry has none. -/
def backfillField (entry : Value) (key : String) (v : Option String) : Value :=
  if presentIn entry key then entry
  else
    match v with
    | some s => entry.insert key (.string s)
    | none => entry

/-- A plan field is overwritten by a reading, and kept without one. -/
def overwriteField (entry : Value) (key : String) (v : Option String) : Value :=
  match v with
  | some s => entry.insert key (.string s)
  | none => entry

/-- Anthropic is spelled as the absent key. -/
def spellProvider (entry : Value) (provider : Provider) : Value :=
  match provider with
  | .anthropic => entry.remove "provider"
  | .codex => entry.insert "provider" (.string "codex")

/-- A Codex row's folder is that of the login, and no sync is pending any more. -/
def restateCodex (entry : Value) (account : StoredAccount) : Value :=
  match account.provider, account.codexHome with
  | .anthropic, _ => entry
  | .codex, some folder =>
    (entry.insert "codexHome" (.string folder)).remove codexSyncPendingKey
  | .codex, none => (entry.remove "codexHome").remove codexSyncPendingKey

/-- The version, the type, the provider and the Codex fields are stated anew. -/
def restateEntry (entry : Value) (account : StoredAccount) : Value :=
  let entry := stampCredentialVersion entry account.provider
  let entry := entry.insert "type" (.string account.accountType.spelling)
  let entry := spellProvider entry account.provider
  restateCodex entry account

def backfillIdentity (entry : Value) (account : StoredAccount) : Value :=
  let entry := backfillField entry "accountUuid" account.accountUuid
  let entry := backfillField entry "orgUuid" account.orgUuid
  backfillField entry "orgName" account.orgName

def overwritePlan (entry : Value) (account : StoredAccount) : Value :=
  let entry := overwriteField entry "organizationType" account.organizationType
  let entry := overwriteField entry "rateLimitTier" account.rateLimitTier
  overwriteField entry "seatTier" account.seatTier

def updateEntry (entry : Value) (account : StoredAccount) : Value :=
  let entry := entry.extend account.credentials.fields
  let entry := restateEntry entry account
  let entry := backfillIdentity entry account
  overwritePlan entry account

/-- The back of the fleet. -/
def nextPriorityIn (file : List Value) : Int64 :=
  ((file.filterMap fun entry => (entry.get "priority").bind Value.toI64).max?.map (· + 1)).getD 0

def newEntry (file : List Value) (account : StoredAccount) : Value :=
  let entry := account.toEntry
  let entry :=
    if account.priority.isNone then entry.insert "priority" (.ofI64 (nextPriorityIn file)) else entry
  stampCredentialVersion entry account.provider

def mergeAccount (file : List Value) (account : StoredAccount) : List Value × AccountWrite :=
  match locateAccountEntry file account.identity with
  | .many => (file, .ambiguous)
  | .one index => (file.modify index fun entry => updateEntry entry account, .updated)
  | .none => (file ++ [newEntry file account], .added)

/-! ## `save_settings` -/

def credentialKeys : List String := ["accessToken", "refreshToken", "expiresAt"]

/-- The entry of an account written from memory; a Codex one is at its provider's version. -/
def StoredAccount.snapshotEntry (a : StoredAccount) : Value :=
  match a.provider with
  | .anthropic => a.toEntry
  | .codex => stampCredentialVersion a.toEntry a.provider

/-- One entry's credential fields, and their absence, copied into another. -/
def carryCredentials (source : Value) (into : Value) : Value :=
  credentialKeys.foldl (fun into key =>
    match source.get key with
    | some value => into.insert key value
    | none => into.remove key) into

def carryEntry (out : List Value) (c : Value × Option String × EntryPlan) : List Value :=
  match c.2.2 with
  | .skip _ => out
  | .write position => out.modify position (carryCredentials c.1)

def carryDiskCredentials (out disk : List Value) (memory : List StoredAccount) : List Value :=
  (disk.zip (planMerge disk (memory.map StoredAccount.identity))).foldl carryEntry out

def saveSettings (file : List Value) (memory : List StoredAccount) : List Value :=
  carryDiskCredentials (memory.map StoredAccount.snapshotEntry) file memory

/-! ## `load` -/

def stampLoaded (entry : Value) : Value :=
  match providerOfEntry entry with
  | some provider => stampCredentialVersion entry provider
  | none => entry

def loadAccounts (file : List Value) : Option (List StoredAccount) :=
  if file.all versionUnderstood then
    file.mapM fun entry => StoredAccount.ofEntry (stampLoaded entry)
  else none

end TeamClaude
