import TeamClaude.Lib.Admit
import TeamClaude.Lib.Exec
import TeamClaude.Manager.Identity

/-!
# The roster

The operations that add, park and revive account rows: the reload of an edited config file, a login
that adds an account or replaces the credentials of one, the bench switch and the choice of the
control account. The live rows and the entries of the config in memory are two vectors that the
other by-index readers take to be aligned.
-/

namespace TeamClaude

inductive AccountWrite
  | added
  | updated
  | ambiguous
  | unwritable
  deriving DecidableEq

/-- The write of the config file: none where the manager has no file, an error where it failed. -/
abbrev SaveAttempt := Option (Except Unit AccountWrite)

/-- Whether an added or replaced account will survive a restart. -/
inductive AddPersist
  | noConfigFile
  | persisted
  | ambiguous
  | writeFailed
  deriving DecidableEq

def AddPersist.of : SaveAttempt → AddPersist
  | none => .noConfigFile
  | some (.ok .added) | some (.ok .updated) => .persisted
  | some (.ok .ambiguous) => .ambiguous
  | some (.ok .unwritable) | some (.error ()) => .writeFailed

/-- What `add_or_update_account` did. -/
inductive AddAccountOutcome
  | added (idx : Nat) (name : String) (persist : AddPersist)
  | updated (idx : Nat) (name : String) (persist : AddPersist)
  | ambiguous (names : List String)
  deriving DecidableEq

namespace AccountRuntime

/-- Identity fields are filled in only where the row has none. -/
def backfill (row : AccountRuntime) (account : Account) : AccountRuntime :=
  { row with
    accountUuid := row.accountUuid.or account.accountUuid
    orgUuid := row.orgUuid.or account.orgUuid
    orgName := row.orgName.or account.orgName }

/-- A login on an existing row clears its error, brings a deleted row back as the login asks for it,
and fills in its identity. -/
def relogin (row : AccountRuntime) (account : Account) : AccountRuntime :=
  let row := if row.status = .error then { row with status := .active } else row
  let row :=
    if row.removed then { row with removed := false, disabled := account.disabled.getD false }
    else row
  row.backfill account

/-- The row's own identity and routing state, with the pin its config entry holds. -/
def durable (row : AccountRuntime) (provider : Provider) (pin : Egress × Bool) : Account where
  name := row.name
  provider := provider
  accountUuid := row.accountUuid
  orgUuid := row.orgUuid
  orgName := row.orgName
  priority := some row.priority
  switchThreshold := row.switchThreshold
  disabled := if row.disabled then some true else none
  groups := if row.groups.isEmpty then none else some row.groups
  egress := pin.1
  egressStrict := pin.2

end AccountRuntime

def existingPin (entries : List Account) (target : Account) : Egress × Bool :=
  match resolve entries target with
  | .one position => (entries[position]?.map fun entry => (entry.egress, entry.egressStrict)).getD
      (.local, false)
  | .many | .none => (.local, false)

/-- `persist_replaced`, as far as the config in memory: once the file holds the new credentials, an
identity that no entry in memory carries is appended there. -/
def persistReplaced (entries : List Account) (target : Account) (save : SaveAttempt) :
    List Account :=
  match save with
  | some (.ok .updated) | some (.ok .added) =>
    match resolve entries target with
    | .none => entries ++ [target]
    | .one _ | .many => entries
  | _ => entries

namespace Manager

/-- The back of the fleet. -/
def nextPriority (m : Manager) : Int :=
  ((m.accounts.map AccountRuntime.priority).max?.map (· + 1)).getD 0

def appendAccount (m : Manager) (account : Account) : Manager :=
  { m with
    accounts := m.accounts ++ [.fromConfig account]
    config := { m.config with accounts := m.config.accounts ++ [account] } }

/-- The live slot a login lands on. -/
def landsOn (m : Manager) (account : Account) : Option (Nat × AccountRuntime) :=
  match resolve (m.accounts.map AccountRuntime.probe) account with
  | .one idx => m.accounts[idx]?.map (idx, ·)
  | .none | .many => none

def addOrUpdateAccount (m : Manager) (account : Account) (save : SaveAttempt) :
    Manager × AddAccountOutcome :=
  if resolve (m.accounts.map AccountRuntime.probe) account = .many then
    (m, .ambiguous
      ((m.accounts.filter fun a => sameIdentity account a.probe).map AccountRuntime.name))
  else
    match m.landsOn account with
    | some (idx, found) =>
      let row := found.relogin account
      let target := row.durable account.provider (existingPin m.config.accounts account)
      ({ m with
          accounts := m.accounts.set idx row
          config := { m.config with
            accounts := persistReplaced m.config.accounts target save } },
        .updated idx row.name (.of save))
    | none =>
      let account := { account with priority := some (account.priority.getD m.nextPriority) }
      (m.appendAccount account, .added m.accounts.length account.name (.of save))

/-- `set_disabled`: a deleted row answers as one that does not exist. `wrote` says whether the file
holds the flag now. -/
def setDisabled (m : Manager) (idx : Nat) (disabled wrote : Bool) : Manager :=
  match m.accounts[idx]? with
  | none => m
  | some row =>
    if row.removed then m
    else
      let benched := { row with disabled := disabled }
      let benched :=
        if disabled = false ∧ row.status = .error then
          { benched with status := .active, rateLimitedUntilMs := none }
        else benched
      { m with
        accounts := m.accounts.set idx benched
        config := { m.config with
          accounts :=
            match wrote, resolve m.config.accounts row.probe with
            | true, .one position => m.config.accounts.modify position fun entry =>
                { entry with disabled := if disabled then some true else none }
            | _, _ => m.config.accounts } }

/-- The slot `set_control_by_query` resolves a name to: the one listed row of that name, which no
Codex row can be. -/
def resolveControl (m : Manager) (query : String) : Option Nat :=
  match (m.accounts.zipIdx.filter fun x => decide (x.1.name = query) && !x.1.removed).map
      Prod.snd with
  | [only] => if m.accounts[only]?.any fun a => decide (a.provider = .anthropic) then some only
      else none
  | _ => none

/-- `set_control`: the store that follows the resolution, under a lock of its own. -/
def setControl (m : Manager) (idx : Option Nat) (wrote : Bool) : Manager :=
  { m with
    controlIdx := idx
    config := { m.config with
      controlAccount :=
        if wrote then (idx.bind m.account).map AccountRuntime.name
        else m.config.controlAccount } }

/-- One operation on the roster. -/
inductive FleetOp
  | reload (file : Config)
  | addOrUpdate (account : Account) (save : SaveAttempt)
  | setDisabled (idx : Nat) (disabled wrote : Bool)
  | setControl (idx : Option Nat) (wrote : Bool)

def fleetStep (m : Manager) : FleetOp → Manager
  | .reload file => m.applyGroupReload file
  | .addOrUpdate account save => (m.addOrUpdateAccount account save).1
  | .setDisabled idx disabled wrote => m.setDisabled idx disabled wrote
  | .setControl idx wrote => m.setControl idx wrote

end Manager

end TeamClaude
