import TeamClaude.Config
import TeamClaude.Quota
import TeamClaude.Manager.CappedMap

/-!
# The manager's rotation state

The live account rows, the maps keyed by session and by connection, and the boot-time settings that
account selection reads, with the reload that follows an edit of the config file.
-/

namespace TeamClaude

inductive AccountStatus
  | active
  | throttled
  | error
  deriving DecidableEq

/-- The live state of one account, as far as selection reads or writes it. -/
structure AccountRuntime where
  name : String
  provider : Provider
  accountUuid : Option String := none
  orgUuid : Option String := none
  orgName : Option String := none
  priority : Int := 0
  disabled : Bool := false
  removed : Bool := false
  groups : List String := []
  switchThreshold : Option ℚ := none
  status : AccountStatus := .active
  quota : Quota := {}
  lastSelectedSeq : Nat := 0
  inFlight : Nat := 0
  lastServedMs : Int := 0
  rateLimitedUntilMs : Option Int := none
  deriving DecidableEq

namespace AccountRuntime

def fromConfig (account : Account) : AccountRuntime where
  name := account.name
  provider := account.provider
  accountUuid := account.accountUuid
  orgUuid := account.orgUuid
  orgName := account.orgName
  priority := account.priority.getD 0
  disabled := account.disabled.getD false
  groups := account.groups.getD []
  switchThreshold := account.switchThreshold

/-- `identity::probe` over a live row. -/
def probe (a : AccountRuntime) : Account where
  name := a.name
  provider := a.provider
  accountUuid := a.accountUuid
  orgUuid := a.orgUuid
  orgName := a.orgName

def inGroup (a : AccountRuntime) (group : String) : Bool :=
  decide (group ∈ a.groups)

end AccountRuntime

/-- The destinations one session was diverted to during one hold of its pin. -/
structure DivertEpisode where
  pin : Nat
  untilMs : Int
  destinations : Nat
  sticky : Nat
  deriving DecidableEq

/-- How long a session's prompt cache stays warm, in milliseconds. -/
structure WarmWindow where
  ms : Int
  deriving DecidableEq

def cacheWarmHoldSecs : Int := 300

namespace WarmWindow

/-- The five-minute window of a session nothing is known about. -/
def default : WarmWindow := ⟨cacheWarmHoldSecs * 1000⟩

/-- `EXTENDED_PIN_TTL_MS`: the window of a session that asked for the one-hour cache. -/
def extended : WarmWindow := ⟨55 * 60 * 1000⟩

end WarmWindow

abbrev Key := Nat

/-- A pin: the account index and the millisecond it was last touched. -/
abbrev Pin := Nat × Int

def affinityCap : Nat := 1024

def connAffinityCap : Nat := 256

def divertLedgerCap : Nat := 1024

/-- Rotation state. -/
structure Manager where
  accounts : List AccountRuntime
  config : Config
  globalThreshold : ℚ
  fableWeeklyThreshold : Option ℚ
  groups : GroupPolicy
  pacing : PacingConfig
  lockedIdx : Option Nat
  controlIdx : Option Nat
  selectSeq : Nat
  affinity : CappedMap Key Pin
  affinityExtended : Finset Key
  nextRevalidationAtMs : Int
  nextCodexRevalidationAtMs : Int
  connAffinity : CappedMap Key Pin
  divertLedger : CappedMap Key DivertEpisode
  controlReserve : ℚ
  controlPooled : Bool
  resetUrgencyTierMs : Int

namespace Manager

def account (m : Manager) (idx : Nat) : Option AccountRuntime :=
  m.accounts[idx]?

/-! ## Boot -/

/-- `identity::match_one`: the one row of that name, when exactly one carries it. -/
def matchOne (accounts : List AccountRuntime) (name : String) : Option Nat :=
  match (accounts.zipIdx.filter fun x => decide (x.1.name = name)).map Prod.snd with
  | [only] => some only
  | _ => none

/-- Codex has no control account: a Codex row named as one is ignored. -/
def controlAtBoot (config : Config) (accounts : List AccountRuntime) : Option Nat :=
  (config.controlAccount.bind (matchOne accounts)).filter fun idx =>
    accounts[idx]?.all fun account => decide (account.provider = .anthropic)

def assemble (config : Config) (accounts : List AccountRuntime) : Manager where
  accounts := accounts
  config := config
  globalThreshold := config.switchThreshold
  fableWeeklyThreshold := config.fableWeeklyThreshold
  groups := .fromConfig config
  pacing := config.pacing
  lockedIdx := config.lockAccount.bind fun name =>
    accounts.findIdx? fun a => decide (a.name = name)
  controlIdx := controlAtBoot config accounts
  selectSeq := 1
  affinity := .new affinityCap Prod.snd
  affinityExtended := ∅
  nextRevalidationAtMs := 0
  nextCodexRevalidationAtMs := 0
  connAffinity := .new connAffinityCap Prod.snd
  divertLedger := .new divertLedgerCap DivertEpisode.untilMs
  controlReserve := config.effectiveControlReserve
  controlPooled := config.controlPooled
  resetUrgencyTierMs := min (config.resetUrgencyTierHours * 3600000) (2 ^ 63 - 1)

def new (config : Config) : Manager :=
  assemble config (config.accounts.map .fromConfig)

/-- `restore_affinity`, after the pin file was read: a pin already in memory wins. -/
def restoreAffinity (m : Manager) (pins : List (Key × Pin)) (extended : Finset Key) : Manager :=
  { m with
    affinity := pins.foldl (fun map pin => map.orInsert pin.1 pin.2) m.affinity
    affinityExtended := m.affinityExtended ∪ extended }

/-! ## Reload -/

/-- One live row against the file: a row the file lost is parked in its slot and gives up the
control role, one that came back is revived, and group membership follows the file. -/
def reloadRow (fresh : Config) (idx : Nat) (account : AccountRuntime) (control : Option Nat) :
    AccountRuntime × Option Nat :=
  match fresh.accounts.find? (sameIdentity account.probe) with
  | none =>
    if account.removed then (account, control)
    else
      ({ account with removed := true, disabled := true },
        if control = some idx then none else control)
  | some found =>
    let groups := found.groups.getD []
    if account.removed then
      ({ account with removed := false, disabled := found.disabled.getD false, groups := groups },
        if fresh.controlAccount = some account.name ∧ control = none then some idx else control)
    else ({ account with groups := groups }, control)

/-- The live rows from slot `idx` on, in order. -/
def reloadRows (fresh : Config) : Nat → List AccountRuntime → Option Nat →
    List AccountRuntime × Option Nat
  | _, [], control => ([], control)
  | idx, account :: rest, control =>
    let row := reloadRow fresh idx account control
    let tail := reloadRows fresh (idx + 1) rest row.2
    (row.1 :: tail.1, tail.2)

/-- Admit the rows no live account owns, into both index-aligned vectors. -/
def admitRows (candidates : List Account) (rows : List AccountRuntime × List Account) :
    List AccountRuntime × List Account :=
  candidates.foldl (fun rows candidate =>
    if rows.1.any fun existing => sameIdentity existing.probe candidate then rows
    else (rows.1 ++ [.fromConfig candidate], rows.2 ++ [candidate])) rows

def applyGroupReload (m : Manager) (fresh : Config) : Manager :=
  let rows := reloadRows fresh 0 m.accounts m.controlIdx
  let admitted := admitRows fresh.accounts (rows.1, m.config.accounts)
  { m with
    groups := .fromConfig fresh
    accounts := admitted.1
    config := { m.config with accounts := admitted.2 }
    controlIdx := rows.2 }

/-- `reload_groups_if_changed`: `disk` is the file when it changed since the last reload and could
be read, and `none` otherwise, when everything in memory is kept. -/
def reloadGroupsIfChanged (m : Manager) (disk : Option Config) : Manager :=
  match disk with
  | some fresh => m.applyGroupReload fresh
  | none => m

section Reload

variable (m : Manager) (disk : Option Config)

@[simp] theorem reload_affinity : (m.reloadGroupsIfChanged disk).affinity = m.affinity := by
  cases disk <;> rfl

@[simp] theorem reload_divert_ledger :
    (m.reloadGroupsIfChanged disk).divertLedger = m.divertLedger := by
  cases disk <;> rfl

@[simp] theorem reload_conn_affinity :
    (m.reloadGroupsIfChanged disk).connAffinity = m.connAffinity := by
  cases disk <;> rfl

@[simp] theorem reload_control_pooled :
    (m.reloadGroupsIfChanged disk).controlPooled = m.controlPooled := by
  cases disk <;> rfl

end Reload

end Manager

end TeamClaude
