import TeamClaude.Provider
import Mathlib.Data.Finset.Image
import Mathlib.Algebra.Order.Ring.Rat

/-!
# Configuration

The rows and settings of the config file that account selection reads, and the rule that decides
whether two rows are the same account.
-/

namespace TeamClaude

/-- Where an account's traffic leaves: this machine, or a peer named by its id. -/
inductive Egress
  | local
  | via (peer : Nat)
  deriving DecidableEq

def Egress.peer : Egress → Option Nat
  | .local => none
  | .via peer => some peer

structure Account where
  name : String
  provider : Provider
  accountUuid : Option String := none
  orgUuid : Option String := none
  orgName : Option String := none
  priority : Option Int := none
  switchThreshold : Option ℚ := none
  disabled : Option Bool := none
  groups : Option (List String) := none
  egress : Egress := .local
  egressStrict : Bool := false
  deriving DecidableEq

namespace Account

/-- A strict peer exit a Codex row cannot honour. -/
def hasUnsupportedStrictPeerExit (a : Account) : Bool :=
  match a.provider with
  | .anthropic => false
  | .codex => a.egressStrict && a.egress.peer.isSome

end Account

/-! ## Identity -/

/-- An id that is present and not empty. -/
def presentKey (id : Option String) : Option String :=
  id.filter (· ≠ "")

def orgKey (a : Account) : Option String :=
  (presentKey a.orgUuid).or (presentKey a.orgName)

def uuidKey (a : Account) : Option String :=
  presentKey a.accountUuid

/-- Whether two rows are the same account: never across providers; by account id and organisation
where both rows know them, and by name otherwise. -/
def sameIdentity (a b : Account) : Bool :=
  if a.provider ≠ b.provider then false
  else
    match uuidKey a, uuidKey b with
    | some ua, some ub =>
      if ua ≠ ub then false
      else
        match orgKey a, orgKey b with
        | some ka, some kb => ka = kb
        | _, _ => true
    | _, _ => a.name = b.name

/-! ## Pacing -/

/-- Per-account pacing; absent knobs are inert. -/
structure PacingConfig where
  maxInFlightPerAccount : Option Nat := none
  minSpacingMs : Option Nat := none
  deriving DecidableEq

namespace PacingConfig

/-- A configured cap of zero counts as unset. -/
def effectiveMaxInFlight (p : PacingConfig) : Option Nat :=
  match p.maxInFlightPerAccount with
  | some 0 => none
  | other => other

def isActive (p : PacingConfig) : Bool :=
  p.effectiveMaxInFlight.isSome || p.minSpacingMs.isSome

end PacingConfig

/-! ## Groups -/

/-- What is configured about a group itself. -/
structure GroupSettings where
  reserved : Bool := false
  parked : Bool := false
  allowControlAccount : Bool := false
  spillToPool : Bool := false
  deriving DecidableEq

/-- The parts of the config file that selection and its reload read. -/
structure Config where
  accounts : List Account := []
  groupSettings : List (String × GroupSettings) := []
  switchThreshold : ℚ := 95 / 100
  fableWeeklyThreshold : Option ℚ := none
  pacing : PacingConfig := {}
  lockAccount : Option String := none
  controlAccount : Option String := none
  controlReserve : ℚ := 5 / 100
  controlPooled : Bool := false
  resetUrgencyTierHours : Nat := 24
  loadBalanceMigration : Bool := false

namespace Config

/-- The reserve as the manager applies it, clamped to its documented range. -/
def effectiveControlReserve (c : Config) : ℚ :=
  max 0 (min c.controlReserve (1 / 2))

/-- The labels whose settings have the given flag set. -/
def groupNames (c : Config) (flag : GroupSettings → Bool) : Finset String :=
  ((c.groupSettings.filter fun s => flag s.2).map Prod.fst).toFinset

def reservedGroupNames (c : Config) : Finset String :=
  c.groupNames GroupSettings.reserved

def parkedGroupNames (c : Config) : Finset String :=
  c.groupNames GroupSettings.parked

def controlAllowedGroupNames (c : Config) : Finset String :=
  c.groupNames GroupSettings.allowControlAccount

def spillGroupNames (c : Config) : Finset String :=
  c.groupNames GroupSettings.spillToPool

end Config

/-- The group settings a whole selection call reads. -/
structure GroupPolicy where
  reserved : Finset String := ∅
  parked : Finset String := ∅
  controlAllowed : Finset String := ∅
  spill : Finset String := ∅
  deriving DecidableEq

namespace GroupPolicy

def fromConfig (c : Config) : GroupPolicy where
  reserved := c.reservedGroupNames
  parked := c.parkedGroupNames
  controlAllowed := c.controlAllowedGroupNames
  spill := c.spillGroupNames

/-- A request asking for the group is held inside it. -/
def isStrict (p : GroupPolicy) (group : String) : Bool :=
  decide (group ∈ p.reserved) || !decide (group ∈ p.spill)

end GroupPolicy

end TeamClaude
