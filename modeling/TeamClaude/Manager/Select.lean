import TeamClaude.Manager.Pick
import Mathlib.Data.Nat.Bits

/-!
# Account selection

The two selection calls of the manager: the pick of a request, with its hard lock, affinity fast
path, control-account overlay, sticky destination and pool pick, and the last-resort serve of a
fleet that reads over its soft threshold. Each call is one function from the manager's state to its
answer and the state it leaves.
-/

namespace TeamClaude

/-- The arguments of a selection call. -/
structure Request where
  tried : Finset Nat := ∅
  now : Instant
  model : Option String := none
  affinity : Option Key := none
  path : String
  connKey : Option Key := none
  group : Option String := none

namespace Request

def nowMs (r : Request) : Int :=
  odtToMs r.now

def provider (r : Request) : Provider :=
  Provider.ofPath r.path

def isFable (r : Request) : Bool :=
  r.provider.hasFableBucket && r.model.any isFableModel

def requestClass (r : Request) : RequestClass :=
  classifyRequest r.path

end Request

def connAffinityTtlMs : Int := 5 * 60 * 1000

/-- `PIN_LOAD_IDLE_MS`: how long a pin counts as load on its account. -/
def pinLoadIdleMs : Int := 60 * 60 * 1000

def pinCountsAsLoad (isSelf : Bool) (touchedMs nowMs : Int) : Bool :=
  isSelf || decide (saturatingSub nowMs touchedMs ≤ pinLoadIdleMs)

/-- `u64::count_ones` -/
def countOnes (mask : Nat) : Nat :=
  mask.bits.count true

/-- Whether a divert may reuse a destination, take a fresh one, or must block. -/
inductive DivertVerdict
  | fresh
  | sticky (idx : Nat)
  | block
  deriving DecidableEq

/-- An episode is the pair of pin and hold deadline; any other pair is no episode. -/
def divertVerdict (ep : Option DivertEpisode) (pin : Nat) (untilMs : Int) (budget : Nat) :
    DivertVerdict :=
  match ep.filter fun e => decide (e.pin = pin) && decide (e.untilMs = untilMs) with
  | none => .fresh
  | some episode =>
    if budget ≠ 0 ∧ budget ≤ countOnes episode.destinations then .block else .sticky episode.sticky

/-- A pin kept while another account serves, with the hold deadline the divert is keyed on. -/
structure Kept where
  pin : Nat
  untilMs : Int
  deriving DecidableEq

/-- What the affinity fast path decides about the session's pin. -/
inductive PinVerdict
  /-- Serve this account and pin the session to it. -/
  | serve (target : Nat)
  /-- Serve this request elsewhere and keep the pin. -/
  | divert (untilMs : Int)
  /-- Give the pin up to whatever the fall-through picks. -/
  | release
  deriving DecidableEq

namespace Manager

/-! ## Reads -/

def gates (m : Manager) (r : Request) : GateInputs :=
  m.gateInputs r.now r.isFable r.provider

def strictGroup (m : Manager) (group : Option String) : Option String :=
  group.filter m.groups.isStrict

def warmWindow (m : Manager) (key : Option Key) : WarmWindow :=
  match key with
  | none => .default
  | some key => if key ∈ m.affinityExtended then .extended else .default

def codexAccountsWithUnsupportedExit (m : Manager) : Finset Nat :=
  ((m.config.accounts.zipIdx.filter fun x => x.1.hasUnsupportedStrictPeerExit).map
    Prod.snd).toFinset

/-- The live locked slot, when the lock belongs to this provider. -/
def lockedAccountFor (m : Manager) (provider : Provider) : Option Nat :=
  m.lockedIdx.filter fun idx =>
    (m.account idx).any fun a => !a.removed && decide (a.provider = provider)

/-- How many live pins sit on an account; the requesting session's own pin always counts. -/
def liveCount (m : Manager) (key : Key) (nowMs : Int) (idx : Nat) : Nat :=
  m.affinity.map.entries.countP fun e =>
    pinCountsAsLoad (decide (e.1 = key)) e.2.2 nowMs && decide (e.2.1 = idx)

def connAffinityGet (m : Manager) (connKey : Key) (nowMs : Int) : Option Nat :=
  (m.connAffinity.get connKey).bind fun pin =>
    if saturatingSub nowMs pin.2 < connAffinityTtlMs then some pin.1 else none

/-! ## Writes -/

/-- Stamp the chosen account with the next tick. -/
def stamp (m : Manager) (idx : Nat) : Manager :=
  { m with
    selectSeq := m.selectSeq + 1
    accounts := m.accounts.modify idx fun a => { a with lastSelectedSeq := m.selectSeq } }

/-- `pins.insert(key, (idx, now_ms))` -/
def writePin (m : Manager) (key : Key) (idx : Nat) (nowMs : Int) : Manager :=
  { m with affinity := m.affinity.insert key (idx, nowMs) }

def connAffinityRecord (m : Manager) (connKey : Key) (idx : Nat) (nowMs : Int) : Manager :=
  { m with connAffinity := m.connAffinity.insert connKey (idx, nowMs) }

/-- The episode a divert leaves: the destination is a bit of a 64-bit mask. -/
def divertEpisode (prior : Option DivertEpisode) (pin : Nat) (untilMs : Int) (dest : Nat) :
    DivertEpisode :=
  let fresh : DivertEpisode := { pin, untilMs, destinations := 0, sticky := dest }
  let entry :=
    match prior with
    | some e => if e.pin ≠ pin ∨ e.untilMs ≠ untilMs then fresh else e
    | none => fresh
  { entry with
    sticky := if entry.destinations = 0 then dest else entry.sticky
    destinations := entry.destinations ||| (1 <<< (dest % 2 ^ 32)) }

/-- `record_divert`: a destination the mask cannot hold is not recorded. -/
def recordDivert (m : Manager) (key : Key) (kept : Kept) (dest : Nat) : Manager :=
  if 64 ≤ dest % 2 ^ 32 then m
  else
    { m with
      divertLedger := m.divertLedger.insert key
        (divertEpisode (m.divertLedger.get key) kept.pin kept.untilMs dest) }

/-- `exclude_unsupported_codex_exits`: on a Codex path, rows with a strict peer exit Codex cannot
honour join `tried`, and every pin on one of them is dropped. -/
def excludeUnsupportedCodexExits (m : Manager) (tried : Finset Nat) (provider : Provider) :
    Finset Nat × Manager :=
  match provider with
  | .anthropic => (tried, m)
  | .codex =>
    let unsupported := m.codexAccountsWithUnsupportedExit
    if unsupported = ∅ then (tried, m)
    else
      (tried ∪ unsupported,
        { m with affinity := m.affinity.retain fun _ pin => !decide (pin.1 ∈ unsupported) })

/-! ## The affinity fast path -/

/-- What a load-balancing migration asks of its target. -/
def migrationOk (m : Manager) (r : Request) (key : Key) (idx cand : Nat) (a : AccountRuntime) :
    Bool :=
  !(decide (cand = idx) || decide (cand ∈ r.tried)) &&
    !decide (m.liveCount key r.nowMs idx ≤ m.liveCount key r.nowMs cand + 1) &&
    a.eligible (m.gates r) true (m.strictGroup r.group) r.group

/-- A usable pin, or the least-loaded account that strictly improves balance. -/
def migrationTarget (m : Manager) (r : Request) (key : Key) (idx : Nat) : Nat :=
  if 2 ≤ m.liveCount key r.nowMs idx ∧ m.config.loadBalanceMigration = true then
    (Lib.scanBest (m.migrationOk r key idx)
      (fun cand a => (toLex (m.liveCount key r.nowMs cand, toLex (a.inFlight, a.lastSelectedSeq)) :
        Nat ×ₗ Nat ×ₗ Nat)) m.accounts).getD idx
  else idx

/-- The counts are read again under the lock that writes the pin: a stale move keeps the pin. -/
def committedTarget (m : Manager) (r : Request) (key : Key) (idx target : Nat) : Nat :=
  if target = idx then target
  else if (m.affinity.get key).map Prod.fst = some idx ∧
      m.liveCount key r.nowMs target + 1 < m.liveCount key r.nowMs idx then target
  else idx

/-- Another account passes the soft-inclusive gate, whatever else the pool pick asks of it. -/
def hasEligibleAlternative (m : Manager) (r : Request) (idx : Nat) : Bool :=
  m.accounts.zipIdx.any fun x =>
    !decide (x.2 = idx) && x.1.eligible (m.gates r) true none r.group

/-- Everything about the pinned account that the fast path decides on. -/
def pinVerdict (m : Manager) (r : Request) (key : Key) (pin : Pin) : PinVerdict :=
  let g := m.gates r
  let warm := m.warmWindow r.affinity
  let pinned := m.account pin.1
  let holdUntilMs := (pinned.bind AccountRuntime.rateLimitedUntilMs).getD 0
  -- a pin never crosses providers
  if pinned.any fun a => decide (a.provider ≠ r.provider) then .divert holdUntilMs
  -- a strict group ask outranks an existing pin
  else if (m.strictGroup r.group).any fun s => !pinned.any fun a => a.inGroup s then
    .divert holdUntilMs
  else if pin.1 ∈ r.tried then
    if pinned.any fun a => a.accountHardOk g r.group warm then .divert holdUntilMs else .release
  else if pinned.any fun a => a.eligible g true none r.group then
    .serve (m.migrationTarget r key pin.1)
  else if !pinned.any fun a => a.accountHardOk g r.group warm then .release
  else if pinned.any fun a => a.holdClearsWhileWarm g.nowMs warm ||
      a.rejectionClearsWhileWarm g.nowMs warm || a.modelBlocked g ||
      a.pacedOut g.pacing g.nowMs then
    .divert ((pinned.bind fun a => a.rateLimitedUntilMs.or a.rejectionResetMs).getD 0)
  -- over the soft threshold only: serve, unless idle-cold with somewhere to go
  else if warm.ms ≤ r.nowMs - pin.2 ∧ m.hasEligibleAlternative r pin.1 = true then .release
  else .serve pin.1

/-- The outcome of the fast path: an answer, or a fall-through that may keep the pin. -/
inductive FastPath
  | served (idx : Nat) (m : Manager)
  | fall (kept : Option Kept)

def affinityFastPath (m : Manager) (r : Request) : FastPath :=
  match r.affinity with
  | none => .fall none
  | some key =>
    match m.affinity.get key with
    | none => .fall none
    | some pin =>
      match m.pinVerdict r key pin with
      | .serve target =>
        let committed := (m.stamp target).committedTarget r key pin.1 target
        .served committed ((m.stamp target).writePin key committed r.nowMs)
      | .divert untilMs => .fall (some { pin := pin.1, untilMs })
      | .release => .fall none

/-! ## The overlays -/

/-- The account a noise request's connection already uses, while it may serve. -/
def noisePick (m : Manager) (r : Request) : Option (Key × Nat) :=
  r.connKey.bind fun k =>
    ((m.connAffinityGet k r.nowMs).filter fun idx =>
      !decide (idx ∈ r.tried) && (m.account idx).any fun a =>
        a.eligible (m.gates r) true (m.strictGroup r.group) r.group).map fun idx => (k, idx)

/-- The control account, for an identity-plane request it may serve. -/
def controlPick (m : Manager) (r : Request) : Option Nat :=
  m.controlIdx.filter fun idx =>
    !decide (idx ∈ r.tried) && (m.account idx).any fun a =>
      decide (a.provider = r.provider) && a.controlEligible r.nowMs &&
        a.carries (m.strictGroup r.group)

/-- The control-account overlay of a request that keeps no pin. -/
def overlay (m : Manager) (r : Request) : Option (Nat × Manager) :=
  match r.requestClass with
  | .inference => none
  | .noise => (m.noisePick r).map fun p => (p.2, (m.stamp p.2).connAffinityRecord p.1 p.2 r.nowMs)
  | .controlPreferred => (m.controlPick r).map fun idx => (idx, m.stamp idx)

/-- The destination this divert's episode already uses, while it may serve. -/
def stickyPick (m : Manager) (r : Request) (kept : Kept) : Option Nat :=
  match divertVerdict (r.affinity.bind m.divertLedger.get) kept.pin kept.untilMs 0 with
  | .sticky idx =>
    if !decide (idx ∈ r.tried) && (m.account idx).any fun a =>
      a.eligible (m.gates r) true (m.strictGroup r.group) r.group then some idx else none
  | _ => none

/-! ## The pool pick -/

/-- The group asked for carries the control account and opted in to it. -/
def optedIn (m : Manager) (group : Option String) (idx : Nat) : Bool :=
  group.any fun g =>
    decide (g ∈ m.groups.controlAllowed) && (m.account idx).any fun a => a.inGroup g

/-- The control account an inference pick may not land on. -/
def controlExcluded (m : Manager) (r : Request) : Option Nat :=
  if r.requestClass = .inference ∧ m.controlPooled = false then
    m.controlIdx.filter fun idx => !m.optedIn r.group idx
  else none

/-- `tried`, with the excluded control account added. -/
def poolTried (m : Manager) (r : Request) : Finset Nat :=
  match m.controlExcluded r with
  | some idx => insert idx r.tried
  | none => r.tried

/-- Pass one honours pacing and the group; only an ask that is not strict goes on to the
least-loaded fallback over the whole pool and to the Fable last resort. -/
def poolPick (m : Manager) (r : Request) : Option Nat :=
  let g := m.gates r
  let tried := m.poolTried r
  match m.pickEligible g tried true r.group with
  | some idx => some idx
  | none =>
    if (m.strictGroup r.group).isSome then none
    else
      match m.pickLeastLoaded g tried none with
      | some idx => some idx
      | none => if r.isFable then m.pickFableLastResort g tried else none

/-! ## `select_with_group` -/

/-- Re-pin the session and record the divert, once an account is picked. -/
def settlePin (m : Manager) (r : Request) (kept : Option Kept) (idx : Nat) : Manager :=
  match r.affinity, kept with
  | some key, some k => (m.recordDivert key k idx).writePin key k.pin r.nowMs
  | some key, none => m.writePin key idx r.nowMs
  | none, _ => m

/-- Noise that fell through to the pool re-records its connection's account. -/
def settleConn (m : Manager) (r : Request) (idx : Nat) : Manager :=
  match r.requestClass, r.connKey with
  | .noise, some k => m.connAffinityRecord k idx r.nowMs
  | _, _ => m

/-- The state after the pick, and the answer. -/
def settle (m : Manager) (r : Request) (kept : Option Kept) (best : Option Nat) :
    Option Nat × Manager :=
  match best with
  | none => (none, m)
  | some idx => (some idx, ((m.stamp idx).settlePin r kept idx).settleConn r idx)

/-- The rest of the call once the fast path has fallen through. -/
def selectOffPin (m : Manager) (r : Request) (kept : Option Kept) : Option Nat × Manager :=
  match kept with
  | none =>
    match m.overlay r with
    | some (idx, m') => (some idx, m')
    | none => m.settle r none (m.poolPick r)
  | some k => m.settle r (some k) ((m.stickyPick r k).or (m.poolPick r))

/-- The locked account and no other, unless a strict ask or `tried` rules it out. -/
def lockedPick (m : Manager) (r : Request) (idx : Nat) : Option Nat :=
  if (m.strictGroup r.group).any fun s => !(m.account idx).any fun a => a.inGroup s then none
  else if idx ∈ r.tried then none else some idx

/-- The call after the reload and the exclusion of unsupported Codex exits. -/
def selectCore (m : Manager) (r : Request) : Option Nat × Manager :=
  match m.lockedAccountFor r.provider with
  | some idx => (m.lockedPick r idx, m)
  | none =>
    match m.affinityFastPath r with
    | .served idx m' => (some idx, m')
    | .fall kept => m.selectOffPin r kept

def selectWithGroup (m : Manager) (disk : Option Config) (r : Request) : Option Nat × Manager :=
  let live := m.reloadGroupsIfChanged disk
  let filtered := live.excludeUnsupportedCodexExits r.tried r.provider
  filtered.2.selectCore { r with tried := filtered.1 }

/-! ## `select_revalidation` -/

def revalidationMinSpacingMs : Int := 2000

/-- The hard gates of a revalidation serve, which knows no group. -/
def revalidationOk (m : Manager) (r : Request) (a : AccountRuntime) : Bool :=
  decide (a.provider = r.provider) && a.hardOk (m.gates r) none (m.warmWindow r.affinity)

/-- The session's pinned account. -/
def pinnedIdx (m : Manager) (r : Request) : Option Nat :=
  (r.affinity.bind m.affinity.get).map Prod.fst

/-- The pin is served as it is, without the throttle. -/
def pinHonor (m : Manager) (r : Request) : Option Nat :=
  (m.pinnedIdx r).filter fun idx =>
    !decide (idx ∈ r.tried) && (m.account idx).any (m.revalidationOk r)

/-- A pin whose account is alive stays while another account serves. -/
def revalidationKept (m : Manager) (r : Request) : Option Kept :=
  ((m.pinnedIdx r).filter fun idx =>
    (m.account idx).any fun a => a.accountHardOk (m.gates r) none (m.warmWindow r.affinity)).map
      fun idx =>
        { pin := idx, untilMs := ((m.account idx).bind AccountRuntime.rateLimitedUntilMs).getD 0 }

def revalidationSticky (m : Manager) (r : Request) (kept : Kept) : Option Nat :=
  match divertVerdict (r.affinity.bind m.divertLedger.get) kept.pin kept.untilMs 0 with
  | .sticky idx =>
    if !decide (idx ∈ r.tried) && (m.account idx).any (m.revalidationOk r) then some idx else none
  | _ => none

/-- The least-utilized account the hard gates admit, ties by tick. -/
def leastUtilized (m : Manager) (r : Request) : Option Nat :=
  Lib.scanBest (fun idx a => !(decide (idx ∈ r.tried) || !m.revalidationOk r a))
    (fun _ a => (toLex (a.quota.maxUtilization r.now r.isFable, a.lastSelectedSeq) : ℚ ×ₗ Nat))
    m.accounts

/-- When this provider's next fallback serve is allowed. -/
def nextRevalidationAt (m : Manager) : Provider → Int
  | .anthropic => m.nextRevalidationAtMs
  | .codex => m.nextCodexRevalidationAtMs

def spendRevalidation (m : Manager) (provider : Provider) (nowMs : Int) : Manager :=
  match provider with
  | .anthropic => { m with nextRevalidationAtMs := nowMs + revalidationMinSpacingMs }
  | .codex => { m with nextCodexRevalidationAtMs := nowMs + revalidationMinSpacingMs }

/-- The pin is written before the episode here, the other way round than in `settlePin`. -/
def settleRevalidation (m : Manager) (r : Request) (kept : Option Kept) (idx : Nat) : Manager :=
  match r.affinity, kept with
  | some key, some k => (m.writePin key k.pin r.nowMs).recordDivert key k idx
  | some key, none => m.writePin key idx r.nowMs
  | none, _ => m

def revalidationFallback (m : Manager) (r : Request) (kept : Option Kept) :
    Option Nat × Manager :=
  match (kept.bind (m.revalidationSticky r)).or (m.leastUtilized r) with
  | none => (none, m)
  | some idx =>
    if r.nowMs < m.nextRevalidationAt r.provider then (none, m)
    else
      (some idx,
        ((m.spendRevalidation r.provider r.nowMs).stamp idx).settleRevalidation r kept idx)

def revalidationCore (m : Manager) (r : Request) : Option Nat × Manager :=
  match m.pinHonor r with
  | some idx => (some idx, m.stamp idx)
  | none => m.revalidationFallback r (m.revalidationKept r)

def selectRevalidation (m : Manager) (disk : Option Config) (r : Request) :
    Option Nat × Manager :=
  let live := m.reloadGroupsIfChanged disk
  let filtered := live.excludeUnsupportedCodexExits r.tried r.provider
  filtered.2.revalidationCore { r with tried := filtered.1 }

end Manager

end TeamClaude
