import TeamClaude.Peer.Schedule
import Mathlib.Algebra.Order.Ring.Rat

/-!
# Leases on the wire and grants in the peers file

What a borrower asks for, what a lender answers, and the grants an operator has written for a peer.
Fractions are exact rationals.
-/

namespace TeamClaude

/-- The opaque ids of leases, requests and peers. -/
abbrev LeaseId := Nat

abbrev RequestId := Nat

abbrev PeerId := Nat

/-! ## The wire -/

/-- The rate-limit window a lease is against. -/
inductive Window
  | fiveHour
  | sevenDay
  | sevenDayOi
  | unknown
  deriving DecidableEq

/-- How much of a window is lent. -/
inductive LeaseUnit
  | fraction (amount : ℚ)
  | tokens (amount : Nat)
  | unknown
  deriving DecidableEq

/-- `fraction_budget`: the only unit this build lends. -/
def fractionBudget : LeaseUnit → Option ℚ
  | .fraction amount => some amount
  | .tokens _ => none
  | .unknown => none

structure LeaseRequest where
  window : Window
  unit : LeaseUnit
  ttlS : Nat
  maxInflight : Nat

/-- A granted lease: a budget with a deadline. -/
structure Lease where
  leaseId : LeaseId
  window : Window
  unit : LeaseUnit
  grantedAtMs : Int
  expiresAtMs : Int
  spent : ℚ
  maxInflight : Nat
  until_ : Option Nat
  deriving DecidableEq

inductive LeaseRefusal
  | leaseExpired
  | leaseSpent
  | ownerGuard
  | tooManyLeases
  | inspectNotGranted
  | unsupported
  | inFlightFull
  | outsideSchedule
  deriving DecidableEq

/-- The lender's answer. -/
structure LeaseGrant where
  lease : Option Lease
  refusal : Option LeaseRefusal
  deriving DecidableEq

/-- What a lease draws from, on the lender only. -/
inductive LendScope
  | all
  | group (name : String)
  | accounts (labels : List String)
  deriving DecidableEq

def LendScope.toSpec : LendScope → String
  | .all => "all"
  | .group name => "group:" ++ name
  | .accounts labels => "account:" ++ ",".intercalate labels

/-- `scope_covers`: the scope draws from the account of that label in those groups. -/
def scopeCovers (scope : LendScope) (label : String) (groups : List String) : Bool :=
  match scope with
  | .all => true
  | .group name => groups.any fun group => group = name
  | .accounts labels => labels.any fun named => named = label

/-- `scopes_overlap`: a lease on `held` may be spending accounts that `wanted` draws from. A group
overlaps every other scope, since its members are not known here. -/
def scopesOverlap (wanted held : LendScope) : Bool :=
  match wanted, held with
  | .all, _ => true
  | _, .all => true
  | .accounts wanted, .accounts held => wanted.any fun label => decide (label ∈ held)
  | _, _ => true

/-! ## The peers file -/

/-- Who sends a lent request upstream. -/
inductive LendMode
  | serve
  | hand
  deriving DecidableEq

/-- What a peer may borrow on one window. -/
structure LendGrant where
  mode : LendMode := .serve
  scope : LendScope := .all
  window : Window
  fraction : ℚ
  ttlS : Nat
  maxInflight : Nat
  until_ : Option Nat := none
  between : Option Between := none
  days : Option (List Weekday) := none

namespace LendGrant

def schedule (g : LendGrant) : Option Schedule :=
  Schedule.fromParts g.between g.days

def hasEnded (g : LendGrant) (nowS : Nat) : Bool :=
  g.until_.any fun until_ => decide (until_ ≤ nowS)

end LendGrant

/-- A peer's row, as far as lending reads it. -/
structure PeerRow where
  inspect : Bool
  lend : List LendGrant

/-- `grant_for`: the first grant on the window that has not ended and that this node's picker can
hold a request inside. -/
def PeerRow.grantFor (row : PeerRow) (window : Window) (nowS : Nat)
    (enforceable : LendScope → Bool) : Option LendGrant :=
  (row.lend.filter fun g => decide (g.window = window) && !g.hasEnded nowS).find? fun g =>
    enforceable g.scope

/-! ## Clamping an ask -/

def minDebit : ℚ := 2 / 1000

theorem min_debit_pos : 0 < minDebit := by decide +kernel

/-- Unix milliseconds as unix seconds, rounded down and never negative. -/
def secondsOf (nowMs : Int) : Nat :=
  (nowMs / 1000).toNat

def scheduleRefusal (schedule : Option Schedule) (offset : Int) (now : Instant) :
    Option LeaseRefusal :=
  match schedule with
  | some schedule => if schedule.contains offset now then none else some .outsideSchedule
  | none => none

def refuse (refusal : LeaseRefusal) : LeaseGrant :=
  { lease := none, refusal := some refusal }

/-- `clamp_to_grant`: the ask, clamped by the grant and by what the owner can lend. -/
def clampToGrant (ask : LeaseRequest) (granted : Option LendGrant) (inspect : Bool) (lendable : ℚ)
    (nowMs : Int) (leaseId : LeaseId) (finish : Option Nat) (scheduleCloseMs : Option Int) :
    LeaseGrant :=
  if !inspect then refuse .inspectNotGranted
  else if ask.window = .unknown then refuse .unsupported
  else
    match fractionBudget ask.unit with
    | none => refuse .unsupported
    | some wanted =>
      match granted.filter fun g => decide (g.window = ask.window) with
      | none => refuse .inspectNotGranted
      | some grant =>
        let amount := min (min wanted grant.fraction) lendable
        if amount < minDebit then refuse .ownerGuard
        else if finish.any fun finish => decide (finish ≤ secondsOf nowMs) then
          refuse .leaseExpired
        else
          let expiresAtMs := nowMs + (min ask.ttlS grant.ttlS : Nat) * 1000
          { lease := some {
              leaseId
              window := ask.window
              unit := .fraction amount
              grantedAtMs := nowMs
              expiresAtMs := scheduleCloseMs.elim expiresAtMs (min expiresAtMs)
              spent := 0
              maxInflight := min ask.maxInflight grant.maxInflight
              until_ := finish }
            refusal := none }

/-- A lease that is minted: what was asked for and granted, and what each of its fields was cut to. -/
theorem clamp_to_grant_some {ask : LeaseRequest} {granted : Option LendGrant} {inspect : Bool}
    {lendable : ℚ} {nowMs : Int} {leaseId : LeaseId} {finish : Option Nat}
    {scheduleCloseMs : Option Int} {lease : Lease}
    (h : (clampToGrant ask granted inspect lendable nowMs leaseId finish scheduleCloseMs).lease =
      some lease) :
    ∃ wanted grant, inspect = true ∧ ask.window ≠ .unknown ∧
      fractionBudget ask.unit = some wanted ∧
      (granted.filter fun g => decide (g.window = ask.window)) = some grant ∧
      minDebit ≤ min (min wanted grant.fraction) lendable ∧
      (finish.any fun finish => decide (finish ≤ secondsOf nowMs)) = false ∧
      lease = {
        leaseId
        window := ask.window
        unit := .fraction (min (min wanted grant.fraction) lendable)
        grantedAtMs := nowMs
        expiresAtMs := scheduleCloseMs.elim (nowMs + (min ask.ttlS grant.ttlS : Nat) * 1000)
          (min (nowMs + (min ask.ttlS grant.ttlS : Nat) * 1000))
        spent := 0
        maxInflight := min ask.maxInflight grant.maxInflight
        until_ := finish } := by
  unfold clampToGrant at h
  split at h
  · cases h
  rename_i hinspect
  split at h
  · cases h
  rename_i hwindow
  split at h
  · cases h
  rename_i wanted hwanted
  split at h
  · cases h
  rename_i grant hgrant
  simp only at h
  split at h
  · cases h
  rename_i hamount
  split at h
  · cases h
  rename_i hfinish
  cases h
  exact ⟨wanted, grant, by simpa using hinspect, hwindow, hwanted, hgrant, not_lt.mp hamount,
    Bool.eq_false_iff.mpr hfinish, rfl⟩

end TeamClaude
