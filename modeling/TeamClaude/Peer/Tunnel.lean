import TeamClaude.Lib.Exec
import TeamClaude.Lib.KeyedSum
import TeamClaude.Peer.Lend

/-!
# The carried bytes of a peer

What this node has carried for each peer inside the rolling hour. An open carry holds a slice of the
hour in reserve; a carry that closes is charged what it moved, at the instant it was admitted.
-/

namespace TeamClaude

def budgetWindowMs : Int := 3600000

def maxOpenCarriesPerPeer : Nat := 4

def u64Max : Nat := 2 ^ 64 - 1

/-- One entry of the hour: the instant it is booked at, whose it is, and its bytes. -/
structure SpentRow where
  atMs : Int
  peer : PeerId
  bytes : Nat
  deriving DecidableEq

/-- One open carry: its id, whose it is, and the slice it holds. -/
structure OpenRow where
  id : Nat
  peer : PeerId
  bytes : Nat
  deriving DecidableEq

structure TunnelBudget where
  spent : List SpentRow := []
  opened : List OpenRow := []
  nextOpen : Nat := 0
  deriving DecidableEq

inductive Admission
  | carry (allowance : Nat) (id : Nat)
  | overBudget (spent cap : Nat)
  deriving DecidableEq

namespace TunnelBudget

/-- `trim`: entries leave from the front while they are older than the window. -/
def trim (b : TunnelBudget) (nowMs : Int) : TunnelBudget :=
  { b with spent := b.spent.dropWhile fun row => row.atMs < nowMs - budgetWindowMs }

/-- `spent_by`, after its trim. -/
def spentBy (b : TunnelBudget) (peer : PeerId) : Nat :=
  ((b.spent.filter fun row => row.peer = peer).map SpentRow.bytes).sum

def reservedBy (b : TunnelBudget) (peer : PeerId) : Nat :=
  ((b.opened.filter fun row => row.peer = peer).map OpenRow.bytes).sum

def slice (cap : Nat) : Nat :=
  max (cap / maxOpenCarriesPerPeer) 1

/-- `admit`: what is spent and what is reserved both count. -/
def admitCarry (b : TunnelBudget) (peer : PeerId) (cap : Nat) (nowMs : Int) :
    Admission × TunnelBudget :=
  let b := b.trim nowMs
  let held := min (b.spentBy peer + b.reservedBy peer) u64Max
  if cap ≤ held then (.overBudget held cap, b)
  else
    let allowance := min (cap - held) (slice cap)
    (.carry allowance b.nextOpen,
      { b with
        opened := b.opened ++ [{ id := b.nextOpen, peer, bytes := allowance }]
        nextOpen := min (b.nextOpen + 1) u64Max })

def charge (b : TunnelBudget) (peer : PeerId) (bytes : Nat) (nowMs : Int) : TunnelBudget :=
  let b := b.trim nowMs
  { b with spent := b.spent ++ [{ atMs := nowMs, peer, bytes }] }

def close (b : TunnelBudget) (id : Nat) (peer : PeerId) (bytes : Nat) (nowMs : Int) : TunnelBudget :=
  { b with opened := b.opened.filter fun row => row.id ≠ id }.charge peer bytes nowMs

end TunnelBudget

/-! ## Carries -/

/-- One carry: its reservation, with the clock it was made by, and every move of bytes so far. -/
structure Carrying where
  id : Nat
  peer : PeerId
  allowance : Nat
  admittedMs : Int
  moves : List (Int × Nat) := []
  live : Bool := true
  deriving DecidableEq

namespace Carrying

def moved (c : Carrying) : Nat :=
  (c.moves.map Prod.snd).sum

def movedSince (lo : Int) (c : Carrying) : Nat :=
  ((c.moves.filter fun m => lo ≤ m.1).map Prod.snd).sum

/-- The bytes moved in a closed span. -/
def movedIn (lo hi : Int) (c : Carrying) : Nat :=
  ((c.moves.filter fun m => lo ≤ m.1 && m.1 ≤ hi).map Prod.snd).sum

/-- The meter lets bytes through while the allowance covers them. -/
def move (nowMs : Int) (bytes : Nat) (c : Carrying) : Carrying :=
  if c.live && c.moved + bytes ≤ c.allowance then { c with moves := c.moves ++ [(nowMs, bytes)] }
  else c

def release (c : Carrying) : Carrying :=
  { c with live := false }

end Carrying

/-- One event at the gateway. A release that is not finished is of a carry cut off before its
splice returned, which charges nothing. -/
inductive CarryAct
  | tick (ms : Nat)
  | admitCarry (peer : PeerId)
  | move (id : Nat) (bytes : Nat)
  | release (id : Nat) (finished : Bool)

/-- The ledger, the clock and every carry admitted so far. -/
structure Gateway where
  budget : TunnelBudget
  nowMs : Int
  carries : List Carrying

namespace Gateway

def start (nowMs : Int) : Gateway :=
  { budget := {}, nowMs, carries := [] }

def liveCarry (s : Gateway) (id : Nat) : Option Carrying :=
  s.carries.find? fun c => c.id = id && c.live

def step (capOf : PeerId → Nat) (s : Gateway) : CarryAct → Gateway
  | .tick ms => { s with nowMs := s.nowMs + ms }
  | .admitCarry peer =>
    let admitted := s.budget.admitCarry peer (capOf peer) s.nowMs
    { s with
      budget := admitted.2
      carries := s.carries ++
        match admitted.1 with
        | .carry allowance id => [{ id, peer, allowance, admittedMs := s.nowMs }]
        | .overBudget _ _ => [] }
  | .move id bytes =>
    { s with carries := Lib.editKey Carrying.id id (Carrying.move s.nowMs bytes) s.carries }
  | .release id finished =>
    match s.liveCarry id with
    | none => s
    | some c =>
      { s with
        budget := s.budget.close id c.peer (if finished then c.moved else 0) c.admittedMs
        carries := Lib.editKey Carrying.id id Carrying.release s.carries }

def total (peer : PeerId) (w : Carrying → Nat) (s : Gateway) : Nat :=
  (s.carries.map fun c => if c.peer = peer then w c else 0).sum

end Gateway

end TeamClaude
