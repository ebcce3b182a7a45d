import TeamClaude.Lib.Exec
import TeamClaude.Lib.FirstMatch
import TeamClaude.Machine
import TeamClaude.Peer.Endpoints
import Mathlib.Data.Prod.Lex

/-!
# The order a peer is dialled in

The path table holds what was measured of each path and which paths cool down after a failure. It
orders a row's endpoints by kind, by how they were learned, by what was measured and by age, and
leaves out those that cool down while any other is left.
-/

namespace TeamClaude

open Lib

/-- `PATH_RETRY_COOLDOWN`, in milliseconds. -/
def pathRetryCooldownMs : Int := 60000

inductive PathPolicy
  | direct
  | via
  deriving DecidableEq

structure PathsConfig where
  prefer : PathPolicy := .direct
  viaAllow : List PeerId := []

/-- What the order reads off a `PathStat`: whether its loss is over the maximum, and its `rtt_key`. -/
structure PathStat where
  lossy : Bool
  rttKey : Nat

structure PathCooldown where
  peer : PeerId
  locator : Locator
  untilMs : Int
  deriving DecidableEq

/-- The measurements are averages of floats; `stat` is what the order reads off them. -/
structure PathTable where
  config : PathsConfig := {}
  stat : PeerId → Locator → Option PathStat := fun _ _ => none
  cooldowns : List PathCooldown := []

def PathCooldown.isOf (peer : PeerId) (locator : Locator) (row : PathCooldown) : Bool :=
  decide (row.peer = peer) && decide (row.locator = locator)

namespace PathTable

def coolDown (table : PathTable) (peer : PeerId) (locator : Locator) (untilMs : Int) : PathTable :=
  if table.cooldowns.any (PathCooldown.isOf peer locator) then
    { table with
      cooldowns :=
        updateFirst (PathCooldown.isOf peer locator) (fun row => { row with untilMs }) table.cooldowns }
  else
    { table with cooldowns := table.cooldowns ++ [{ peer, locator, untilMs }] }

def clearCooldown (table : PathTable) (peer : PeerId) (locator : Locator) : PathTable :=
  { table with cooldowns := table.cooldowns.filter fun row => !row.isOf peer locator }

def isCooling (table : PathTable) (peer : PeerId) (locator : Locator) (nowMs : Int) : Bool :=
  table.cooldowns.any fun row => row.isOf peer locator && decide (nowMs < row.untilMs)

/-- `cool_down`: a failure at the instant. -/
def noteFailure (table : PathTable) (peer : PeerId) (locator : Locator) (nowMs : Int) : PathTable :=
  table.coolDown peer locator (saturatingAdd nowMs pathRetryCooldownMs)

end PathTable

def sourceRank (endpoint : Endpoint) : Nat :=
  match endpoint.source with
  | .paired => 0
  | .hello => 0
  | .mapping => 1
  | .beacon => 1
  | .brief => 2
  | .drop => 3
  | .moved => 3

def Endpoint.isVia (endpoint : Endpoint) : Bool :=
  match endpoint.locator with
  | .via _ => true
  | _ => false

/-- The path goes through a node the operator does not allow. -/
def Endpoint.isForbidden (endpoint : Endpoint) (config : PathsConfig) : Bool :=
  match endpoint.locator with
  | .via node => !config.viaAllow.isEmpty && !config.viaAllow.contains node
  | _ => false

def kindRank (endpoint : Endpoint) (config : PathsConfig) : Nat :=
  if endpoint.isForbidden config then 2
  else
    match config.prefer, endpoint.isVia with
    | .direct, false => 0
    | .via, true => 0
    | .direct, true => 1
    | .via, false => 1

/-- What no measurement changes: the kind of a path and how it was learned. -/
def pathRank (config : PathsConfig) (endpoint : Endpoint) : ℕ ×ₗ ℕ :=
  toLex (kindRank endpoint config, sourceRank endpoint)

def measuredRank (stat : Option PathStat) (endpoint : Endpoint) : ℕ ×ₗ ℕ ×ₗ ℤ :=
  toLex ((stat.elim false PathStat.lossy).toNat,
    toLex (stat.elim u32Max PathStat.rttKey, -endpoint.observedAtMs))

/-- The key `order_endpoints` sorts by. -/
def dialKey (table : PathTable) (node : PeerId) (endpoint : Endpoint) :
    (ℕ ×ₗ ℕ) ×ₗ (ℕ ×ₗ ℕ ×ₗ ℤ) :=
  toLex (pathRank table.config endpoint, measuredRank (table.stat node endpoint.locator) endpoint)

def orderEndpoints (row : DialRow) (table : PathTable) : List Endpoint :=
  row.endpoints.mergeSort fun a b => decide (dialKey table row.node a ≤ dialKey table row.node b)

def dropCoolingEndpoints (order : List Endpoint) (peer : PeerId) (table : PathTable) (nowMs : Int) :
    List Endpoint :=
  let awake := order.filter fun endpoint => !table.isCooling peer endpoint.locator nowMs
  if awake = [] then order else awake

def dialOrder (row : DialRow) (table : PathTable) (nowMs : Int) : List Endpoint :=
  dropCoolingEndpoints (orderEndpoints row table) row.node table nowMs

/-! ## The order -/

variable {row : DialRow} {table : PathTable} {nowMs : Int}

theorem order_perm (row : DialRow) (table : PathTable) :
    (orderEndpoints row table).Perm row.endpoints :=
  List.mergeSort_perm _ _

/-- An endpoint is left out only while it cools down and another of the row does not. -/
theorem mem_dial_order {endpoint : Endpoint} : endpoint ∈ dialOrder row table nowMs ↔
    endpoint ∈ row.endpoints ∧ (table.isCooling row.node endpoint.locator nowMs = false ∨
      ∀ other ∈ row.endpoints, table.isCooling row.node other.locator nowMs = true) := by
  have hperm := order_perm row table
  unfold dialOrder dropCoolingEndpoints
  dsimp only
  split
  · rename_i hnone
    rw [List.filter_eq_nil_iff] at hnone
    have hall : ∀ other ∈ row.endpoints, table.isCooling row.node other.locator nowMs = true := by
      intro other hother
      simpa using hnone other (hperm.mem_iff.mpr hother)
    rw [hperm.mem_iff]
    exact ⟨fun hin => ⟨hin, .inr hall⟩, fun hin => hin.1⟩
  · rename_i hsome
    rw [List.mem_filter, hperm.mem_iff, Bool.not_eq_true']
    refine and_congr_right fun hin => ⟨.inl, ?_⟩
    rintro (hawake | hall)
    · exact hawake
    · obtain ⟨other, hother⟩ := List.exists_mem_of_ne_nil _ hsome
      obtain ⟨hother, hawake⟩ := List.mem_filter.mp hother
      rw [hall other (hperm.mem_iff.mp hother)] at hawake
      cases hawake

/-! ## Cooldowns -/

namespace PathTable

variable {peer other : PeerId} {locator path : Locator} {untilMs : Int}

def Distinct (table : PathTable) : Prop :=
  (table.cooldowns.map fun row => (row.peer, row.locator)).Nodup

theorem is_of_iff {row : PathCooldown} :
    row.isOf peer locator = true ↔ (row.peer, row.locator) = (peer, locator) := by
  simp [PathCooldown.isOf]

theorem Distinct.cool_down (h : Distinct table) (peer : PeerId) (locator : Locator) (untilMs : Int) :
    Distinct (table.coolDown peer locator untilMs) := by
  unfold PathTable.coolDown
  split
  · have hkeys := map_updateFirst (p := PathCooldown.isOf peer locator)
      (f := fun row => { row with untilMs }) (g := fun row => (row.peer, row.locator))
      (fun _ _ => rfl) table.cooldowns
    exact (congrArg List.Nodup hkeys).mpr h
  · rename_i hnew
    unfold Distinct
    rw [List.map_append, List.nodup_append]
    refine ⟨h, List.nodup_singleton _, ?_⟩
    intro key hkey key' hkey' hsame
    obtain ⟨row, hrow, rfl⟩ := List.mem_map.mp hkey
    rw [List.map_singleton, List.mem_singleton] at hkey'
    exact hnew (List.any_eq_true.mpr ⟨row, hrow, is_of_iff.mpr (hsame.trans hkey')⟩)

theorem Distinct.clear_cooldown (h : Distinct table) (peer : PeerId) (locator : Locator) :
    Distinct (table.clearCooldown peer locator) :=
  h.sublist (List.filter_sublist.map _)

/-- The instant till which a path cools. -/
def till (table : PathTable) (peer : PeerId) (locator : Locator) : Option Int :=
  (table.cooldowns.find? (PathCooldown.isOf peer locator)).map PathCooldown.untilMs

/-- The one cooldown of a path decides. -/
theorem Distinct.is_cooling (h : Distinct table) (peer : PeerId) (locator : Locator) (nowMs : Int) :
    table.isCooling peer locator nowMs =
      (table.till peer locator).elim false fun untilMs => decide (nowMs < untilMs) := by
  unfold till
  cases hfind : table.cooldowns.find? (PathCooldown.isOf peer locator) with
  | none =>
    rw [isCooling, Option.map_none, Option.elim_none, List.any_eq_false]
    intro row hrow hcool
    have hof := (Bool.and_eq_true_iff.mp hcool).1
    exact List.find?_eq_none.mp hfind row hrow hof
  | some row =>
    have hrow := List.mem_of_find?_eq_some hfind
    have hof := List.find?_some hfind
    rw [Option.map_some, Option.elim_some, Bool.eq_iff_iff, isCooling, List.any_eq_true]
    constructor
    · rintro ⟨same, hsame, hcool⟩
      obtain ⟨hsameof, hcool⟩ := Bool.and_eq_true_iff.mp hcool
      have heq : same = row :=
        List.inj_on_of_nodup_map h hsame hrow ((is_of_iff.mp hsameof).trans (is_of_iff.mp hof).symm)
      exact heq ▸ hcool
    · intro hcool
      exact ⟨row, hrow, Bool.and_eq_true_iff.mpr ⟨hof, hcool⟩⟩

/-- A failure cools its own path and no other. -/
theorem till_cool_down (table : PathTable) : (table.coolDown peer locator untilMs).till other path =
    if (other, path) = (peer, locator) then some untilMs else table.till other path := by
  have hother {row : PathCooldown} (hne : ¬ (other, path) = (peer, locator))
      (hof : row.isOf peer locator = true) : row.isOf other path = false := by
    rw [Bool.eq_false_iff]
    exact fun h => hne ((is_of_iff.mp h).symm.trans (is_of_iff.mp hof))
  unfold till PathTable.coolDown
  split
  · rename_i hany
    dsimp only
    split
    · rename_i hsame
      obtain ⟨rfl, rfl⟩ := Prod.mk.inj hsame
      have hfirst := find?_updateFirst (p := PathCooldown.isOf other path)
        (f := fun row => { row with untilMs }) (fun row hrow => hrow) table.cooldowns
      rw [hfirst]
      obtain ⟨row, hrow⟩ :=
        Option.isSome_iff_exists.mp (List.find?_isSome.mpr (List.any_eq_true.mp hany))
      rw [hrow]
      rfl
    · rename_i hne
      have hkept := find?_updateFirst_ne (p := PathCooldown.isOf peer locator)
        (f := fun row => { row with untilMs }) (q := PathCooldown.isOf other path)
        (fun row hrow => ⟨hother hne hrow, hother hne hrow⟩) table.cooldowns
      rw [hkept]
  · rename_i hnew
    rw [List.find?_append]
    split
    · rename_i hsame
      obtain ⟨rfl, rfl⟩ := Prod.mk.inj hsame
      have hnone : table.cooldowns.find? (PathCooldown.isOf other path) = none := by
        rw [List.find?_eq_none]
        exact fun row hrow hof => hnew (List.any_eq_true.mpr ⟨row, hrow, hof⟩)
      simp [hnone, PathCooldown.isOf]
    · rename_i hne
      rw [List.find?_singleton, hother hne (is_of_iff.mpr rfl)]
      simp

/-- A path that answered cools no longer. -/
theorem till_clear_cooldown (table : PathTable) :
    (table.clearCooldown peer locator).till other path =
      if (other, path) = (peer, locator) then none else table.till other path := by
  unfold till clearCooldown
  dsimp only
  rw [List.find?_filter]
  split
  · rename_i hsame
    obtain ⟨rfl, rfl⟩ := Prod.mk.inj hsame
    simp
  · rename_i hne
    congr 2
    funext row
    by_cases hof : row.isOf other path = true
    · have hnot : row.isOf peer locator = false := by
        rw [Bool.eq_false_iff]
        exact fun h => hne ((is_of_iff.mp hof).symm.trans (is_of_iff.mp h))
      simp [hof, hnot]
    · simp [hof]

end PathTable

end TeamClaude
