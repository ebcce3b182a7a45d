import TeamClaude.Lib.Exec
import TeamClaude.Lib.FirstMatch
import TeamClaude.Lib.SocketText
import TeamClaude.Peer.State
import Mathlib.Data.List.Perm.Subperm
import Mathlib.Logic.Function.Basic

/-!
# Where a peer is reached

A pinned row's endpoints, newest first. A completed handshake or a beacon writes them under the file
lock. A brief, a drop and a moved link first decide, on a copy of the row, what such hearsay may
write, and write it later.
-/

namespace TeamClaude

open Lib

def maxEndpointsPerPeer : Nat := 8

inductive Locator
  | direct (addr : Net.SocketAddr)
  | via (node : PeerId)
  | reverse (node : PeerId)
  deriving DecidableEq

inductive EndpointSource
  | paired
  | hello
  | beacon
  | mapping
  | brief
  | drop
  | moved
  deriving DecidableEq

structure Endpoint where
  locator : Locator
  observedAtMs : Int
  source : EndpointSource
  deriving DecidableEq

namespace Endpoint

def direct (addr : Net.SocketAddr) (observedAtMs : Int) (source : EndpointSource) : Endpoint :=
  { locator := .direct addr, observedAtMs, source }

def directAddr (endpoint : Endpoint) : Option Net.SocketAddr :=
  match endpoint.locator with
  | .direct addr => some addr
  | .via _ => none
  | .reverse _ => none

end Endpoint

def isDialableClaim (addr : Net.SocketAddr) : Bool :=
  !addr.ip.isUnspecified && addr.port != 0

/-- A peer's row, as far as reaching it goes. -/
structure DialRow where
  node : PeerId
  endpoints : List Endpoint
  deriving DecidableEq

/-- `Reverse` of the instant an endpoint was observed. -/
def newerObserved (a b : Endpoint) : Bool :=
  decide (b.observedAtMs ≤ a.observedAtMs)

/-- `PeerRow::observe_endpoint` -/
def observeEndpoint (endpoints : List Endpoint) (endpoint : Endpoint) : List Endpoint :=
  let others := endpoints.filter fun existing => existing.locator != endpoint.locator
  ((endpoint :: others).mergeSort newerObserved).take maxEndpointsPerPeer

inductive PeersFile.Observed
  | written (added : Nat)
  | nothingDialable
  | noRow
  deriving DecidableEq

def dialable (endpoints : List Endpoint) : List Endpoint :=
  endpoints.filter fun endpoint => endpoint.directAddr.all isDialableClaim

/-- `observe_endpoints`, from the lock to the save. -/
def observeEndpoints (file : List DialRow) (peer : PeerId) (endpoints : List Endpoint) :
    PeersFile.Observed × List DialRow :=
  let endpoints := dialable endpoints
  if endpoints = [] then
    (.nothingDialable, file)
  else if file.any fun row => row.node == peer then
    (.written endpoints.length, updateFirst (fun row => row.node == peer)
      (fun row => { row with endpoints := endpoints.foldl observeEndpoint row.endpoints }) file)
  else
    (.noRow, file)

/-! ## What hearsay may write -/

def maxBriefEndpointsPerPeer : Nat := 2

def maxDropEndpointsPerPeer : Nat := 2

def maxMovedEndpointsPerPeer : Nat := 2

/-- What the loop of `admissible_weak_endpoints` counts and collects. -/
structure Admitting where
  heldFromSource : Nat
  freeSlots : Nat
  admissible : List Endpoint

/-- The body of the loop. -/
def Admitting.next (row : List Endpoint) (source : EndpointSource) (cap : Nat) (acc : Admitting)
    (endpoint : Endpoint) : Admitting :=
  if acc.admissible.any fun kept => kept.locator == endpoint.locator then
    acc
  else
    match row.find? fun held => held.locator == endpoint.locator with
    | some held =>
      if held.source = source then
        { acc with admissible := acc.admissible ++ [endpoint] }
      else
        acc
    | none =>
      if cap ≤ acc.heldFromSource ∨ acc.freeSlots = 0 then
        acc
      else
        { heldFromSource := acc.heldFromSource + 1
          freeSlots := acc.freeSlots - 1
          admissible := acc.admissible ++ [endpoint] }

def heldFrom (source : EndpointSource) (row : List Endpoint) : Nat :=
  row.countP fun endpoint => endpoint.source = source

def admissibleWeakEndpoints (row learned : List Endpoint) (source : EndpointSource) (cap : Nat) :
    List Endpoint :=
  let start : Admitting :=
    { heldFromSource := heldFrom source row
      freeSlots := maxEndpointsPerPeer - min row.length maxEndpointsPerPeer
      admissible := [] }
  (learned.foldl (Admitting.next row source cap) start).admissible

inductive Hearsay
  | brief
  | drop
  | moved
  deriving DecidableEq

namespace Hearsay

def source : Hearsay → EndpointSource
  | brief => .brief
  | drop => .drop
  | moved => .moved

def cap : Hearsay → Nat
  | brief => maxBriefEndpointsPerPeer
  | drop => maxDropEndpointsPerPeer
  | moved => maxMovedEndpointsPerPeer

/-- What a kind of hearsay writes of the addresses it names, read off the row:
`admissible_brief_endpoints`, `admissible_drop_endpoints`, and `admissible_moved_endpoints` less what
the row holds already. -/
def decided (kind : Hearsay) (row : List Endpoint) (addrs : List Net.SocketAddr) (nowMs : Int) :
    List Endpoint :=
  let learned := addrs.map fun addr => Endpoint.direct addr nowMs kind.source
  let admissible := admissibleWeakEndpoints row learned kind.source kind.cap
  match kind with
  | brief => admissible
  | drop => admissible
  | moved => admissible.filter fun endpoint => !row.any fun held => held.locator == endpoint.locator

end Hearsay

/-! ## Writers over one file -/

/-- A batch of hearsay that is decided and not yet written. -/
structure Pending where
  peer : PeerId
  kind : Hearsay
  batch : List Endpoint

/-- The peers file and the writers between their read and their write. -/
structure PeersFile where
  file : List DialRow
  pending : Nat → Option Pending

inductive EndpointAct
  | proven (peer : PeerId) (endpoints : List Endpoint)
  | decide (writer : Nat) (peer : PeerId) (kind : Hearsay) (addrs : List Net.SocketAddr)
      (nowMs : Int)
  | land (writer : Nat)

namespace PeersFile

def endpointsOf (file : List DialRow) (peer : PeerId) : Option (List Endpoint) :=
  (file.find? fun row => row.node == peer).map DialRow.endpoints

/-- The decision of a writer that has read the file; it keeps nothing where the peer has no row or
nothing is admissible. -/
def decision (file : List DialRow) (peer : PeerId) (kind : Hearsay) (addrs : List Net.SocketAddr)
    (nowMs : Int) : Option Pending :=
  (endpointsOf file peer).bind fun row =>
    let batch := kind.decided row addrs nowMs
    if batch = [] then none else some { peer, kind, batch }

def step (s : PeersFile) : EndpointAct → PeersFile
  | .proven peer endpoints => { s with file := (observeEndpoints s.file peer endpoints).2 }
  | .decide writer peer kind addrs nowMs =>
    { s with pending :=
        Function.update s.pending writer (decision s.file peer kind addrs nowMs) }
  | .land writer =>
    match s.pending writer with
    | some pending =>
      { file := (observeEndpoints s.file pending.peer pending.batch).2
        pending := Function.update s.pending writer none }
    | none => s

theorem step_land_some {s : PeersFile} {writer : Nat} {pending : Pending}
    (h : s.pending writer = some pending) : s.step (.land writer) =
      { file := (observeEndpoints s.file pending.peer pending.batch).2
        pending := Function.update s.pending writer none } := by
  unfold step
  simp only [h]

theorem step_land_none {s : PeersFile} {writer : Nat} (h : s.pending writer = none) :
    s.step (.land writer) = s := by
  unfold step
  simp only [h]

/-- A file nobody is writing. -/
def start (file : List DialRow) : PeersFile :=
  { file, pending := fun _ => none }

end PeersFile

/-! ## One endpoint -/

/-- A row as `observe_endpoint` leaves it: one entry a locator, no more than there are slots. -/
structure RowBounded (row : List Endpoint) : Prop where
  distinct : (row.map Endpoint.locator).Nodup
  within : row.length ≤ maxEndpointsPerPeer

variable {row batch : List Endpoint} {endpoint held : Endpoint} {source : EndpointSource} {cap : Nat}

def elsewhere (row : List Endpoint) (endpoint : Endpoint) : List Endpoint :=
  row.filter fun existing => existing.locator != endpoint.locator

theorem mem_elsewhere :
    held ∈ elsewhere row endpoint ↔ held ∈ row ∧ held.locator ≠ endpoint.locator := by
  simp [elsewhere]

theorem observe_bounded (h : RowBounded row) (endpoint : Endpoint) :
    RowBounded (observeEndpoint row endpoint) where
  distinct := by
    have hnodup : ((endpoint :: elsewhere row endpoint).map Endpoint.locator).Nodup := by
      rw [List.map_cons, List.nodup_cons]
      refine ⟨fun hin => ?_, h.distinct.sublist (List.filter_sublist.map _)⟩
      obtain ⟨other, hother, hlocator⟩ := List.mem_map.mp hin
      exact (mem_elsewhere.mp hother).2 hlocator
    have hsorted := ((List.mergeSort_perm (endpoint :: elsewhere row endpoint) newerObserved).map
      Endpoint.locator).nodup_iff.mpr hnodup
    exact hsorted.sublist ((List.take_sublist _ _).map _)
  within := List.length_take_le _ _

theorem observe_all_bounded (h : RowBounded row) (batch : List Endpoint) :
    RowBounded (batch.foldl observeEndpoint row) := by
  induction batch generalizing row with
  | nil => exact h
  | cons endpoint batch ih => exact ih (observe_bounded h endpoint)

theorem held_from_perm {row' : List Endpoint} (h : row.Perm row') (source : EndpointSource) :
    heldFrom source row = heldFrom source row' :=
  h.countP_eq _

theorem held_from_cons (h : endpoint.source = source) :
    heldFrom source (endpoint :: row) = heldFrom source row + 1 :=
  List.countP_cons_of_pos (decide_eq_true h)

/-- Where there is a slot for it, an endpoint takes the place of what the row holds at its locator,
and nothing else goes. -/
theorem observe_perm (h : (elsewhere row endpoint).length < maxEndpointsPerPeer) :
    (observeEndpoint row endpoint).Perm (endpoint :: elsewhere row endpoint) := by
  have hsorted := List.mergeSort_perm (endpoint :: elsewhere row endpoint) newerObserved
  unfold observeEndpoint
  rw [List.take_of_length_le]
  · exact hsorted
  · exact hsorted.length_eq.trans_le (Nat.succ_le_of_lt h)

theorem elsewhere_of_new (h : ∀ held ∈ row, held.locator ≠ endpoint.locator) :
    elsewhere row endpoint = row :=
  List.filter_eq_self.mpr fun held hin => bne_iff_ne.mpr (h held hin)

theorem elsewhere_of_held (hdistinct : (row.map Endpoint.locator).Nodup) (hin : held ∈ row)
    (hlocator : held.locator = endpoint.locator) : row.Perm (held :: elsewhere row endpoint) := by
  induction row with
  | nil => cases hin
  | cons first rest ih =>
    rw [List.map_cons, List.nodup_cons] at hdistinct
    rcases List.mem_cons.mp hin with rfl | hrest
    · have hnew : ∀ other ∈ rest, other.locator ≠ endpoint.locator := by
        intro other hother hsame
        refine hdistinct.1 (List.mem_map.mpr ⟨other, hother, ?_⟩)
        rw [hsame, hlocator]
      have hkept : elsewhere (held :: rest) endpoint = rest := by
        have hgone : (held.locator != endpoint.locator) = false := by simp [hlocator]
        rw [elsewhere, List.filter_cons_of_neg (by simp [hgone])]
        exact elsewhere_of_new hnew
      rw [hkept]
    · have hother : first.locator ≠ endpoint.locator := by
        intro hsame
        refine hdistinct.1 (List.mem_map.mpr ⟨held, hrest, ?_⟩)
        rw [hsame, hlocator]
      have hkept : elsewhere (first :: rest) endpoint = first :: elsewhere rest endpoint :=
        List.filter_cons_of_pos (bne_iff_ne.mpr hother)
      rw [hkept]
      exact ((ih hdistinct.2 hrest).cons first).trans (List.Perm.swap held first _)

/-! ## A batch -/

/-- How many endpoints of a batch are at locators new to the row. -/
def news (row batch : List Endpoint) : Nat :=
  batch.countP fun endpoint => decide (∀ held ∈ row, held.locator ≠ endpoint.locator)

/-- The row has room for a batch of hearsay: what it holds at a locator of the batch is of the
batch's own source, each new locator has a slot, and the source stays within its cap unless there is
no new locator. -/
structure Fits (row : List Endpoint) (source : EndpointSource) (cap : Nat) (batch : List Endpoint) :
    Prop where
  ours : ∀ endpoint ∈ batch, ∀ held ∈ row, held.locator = endpoint.locator → held.source = source
  slots : row.length + news row batch ≤ maxEndpointsPerPeer
  capped : news row batch = 0 ∨ heldFrom source row + news row batch ≤ cap

structure OfSource (source : EndpointSource) (batch : List Endpoint) : Prop where
  source : ∀ endpoint ∈ batch, endpoint.source = source
  distinct : (batch.map Endpoint.locator).Nodup

theorem news_congr {row' : List Endpoint}
    (h : ∀ endpoint ∈ batch, (∀ held ∈ row, held.locator ≠ endpoint.locator) ↔
      ∀ held ∈ row', held.locator ≠ endpoint.locator) : news row batch = news row' batch :=
  List.countP_congr fun endpoint hin => by simpa using h endpoint hin

theorem news_cons_new (h : ∀ held ∈ row, held.locator ≠ endpoint.locator) :
    news row (endpoint :: batch) = news row batch + 1 :=
  List.countP_cons_of_pos (decide_eq_true h)

theorem news_cons_held (hin : held ∈ row) (hlocator : held.locator = endpoint.locator) :
    news row (endpoint :: batch) = news row batch :=
  List.countP_cons_of_neg (by simpa using ⟨held, hin, hlocator⟩)

/-- An endpoint of the batch leaves the rest of the batch as it was to the row. -/
theorem observe_next (hrow : RowBounded row)
    (hbatch : OfSource source (endpoint :: batch))
    (hours : ∀ held ∈ row, held.locator = endpoint.locator → held.source = source)
    (hslots : row.length + news row (endpoint :: batch) ≤ maxEndpointsPerPeer) :
    (observeEndpoint row endpoint).length + news (observeEndpoint row endpoint) batch =
        row.length + news row (endpoint :: batch) ∧
      heldFrom source (observeEndpoint row endpoint) + news (observeEndpoint row endpoint) batch =
        heldFrom source row + news row (endpoint :: batch) ∧
      ∀ held, held ∈ observeEndpoint row endpoint ↔
        held = endpoint ∨ held ∈ row ∧ held.locator ≠ endpoint.locator := by
  have hsource := hbatch.source endpoint List.mem_cons_self
  have hapart : ∀ other ∈ batch, other.locator ≠ endpoint.locator := by
    have hnodup := hbatch.distinct
    rw [List.map_cons, List.nodup_cons] at hnodup
    intro other hother hsame
    exact hnodup.1 (List.mem_map.mpr ⟨other, hother, hsame⟩)
  -- The rest of the batch is at other locators, so what is new of it stays new.
  have hrest : ∀ {row' : List Endpoint}, row'.Perm (endpoint :: elsewhere row endpoint) →
      news row' batch = news row batch := by
    intro row' hperm
    refine news_congr fun other hother => ?_
    simp only [hperm.mem_iff, List.mem_cons, mem_elsewhere]
    constructor
    · intro h held hin hsame
      refine h held (.inr ⟨hin, ?_⟩) hsame
      rw [hsame]
      exact hapart other hother
    · rintro h held (rfl | ⟨hin, -⟩)
      · exact (hapart other hother).symm
      · exact h held hin
  have hmem : ∀ {row' : List Endpoint}, row'.Perm (endpoint :: elsewhere row endpoint) →
      ∀ held, held ∈ row' ↔ held = endpoint ∨ held ∈ row ∧ held.locator ≠ endpoint.locator := by
    intro row' hperm held
    rw [hperm.mem_iff, List.mem_cons, mem_elsewhere]
  by_cases hnew : ∀ held ∈ row, held.locator ≠ endpoint.locator
  · rw [news_cons_new hnew] at hslots ⊢
    have hsame := elsewhere_of_new hnew
    have hroom : (elsewhere row endpoint).length < maxEndpointsPerPeer := by
      rw [hsame]
      omega
    have hperm := observe_perm hroom
    refine ⟨?_, ?_, hmem hperm⟩
    · rw [hperm.length_eq, hrest hperm, hsame, List.length_cons]
      omega
    · rw [held_from_perm hperm, hrest hperm, hsame, held_from_cons hsource]
      omega
  · push Not at hnew
    obtain ⟨held, hin, hlocator⟩ := hnew
    rw [news_cons_held hin hlocator] at hslots ⊢
    have hold := elsewhere_of_held hrow.distinct hin hlocator
    have hlength := hold.length_eq
    have hcount := held_from_perm hold source
    rw [held_from_cons (hours held hin hlocator)] at hcount
    rw [List.length_cons] at hlength
    have hwithin := hrow.within
    have hperm := observe_perm (show (elsewhere row endpoint).length < maxEndpointsPerPeer by omega)
    refine ⟨?_, ?_, hmem hperm⟩
    · rw [hperm.length_eq, hrest hperm, List.length_cons]
      omega
    · rw [held_from_perm hperm, hrest hperm, held_from_cons hsource, hcount]

/-- A batch that fits displaces nothing of another source, and adds what is new of it. -/
theorem observe_all_fits (hrow : RowBounded row) (hbatch : OfSource source batch)
    (hours : ∀ endpoint ∈ batch, ∀ held ∈ row, held.locator = endpoint.locator →
      held.source = source)
    (hslots : row.length + news row batch ≤ maxEndpointsPerPeer) :
    (∀ held ∈ row, held.source ≠ source → held ∈ batch.foldl observeEndpoint row) ∧
      heldFrom source (batch.foldl observeEndpoint row) = heldFrom source row + news row batch := by
  induction batch generalizing row with
  | nil => exact ⟨fun held hin _ => hin, rfl⟩
  | cons endpoint batch ih =>
    have hfirst := hours endpoint List.mem_cons_self
    obtain ⟨hlength, hcount, hmem⟩ := observe_next hrow hbatch hfirst hslots
    have hlater : OfSource source batch :=
      ⟨fun e he => hbatch.source e (List.mem_cons_of_mem endpoint he),
        (List.nodup_cons.mp hbatch.distinct).2⟩
    have hours' : ∀ e ∈ batch, ∀ held ∈ observeEndpoint row endpoint, held.locator = e.locator →
        held.source = source := by
      intro e he held hin hlocator
      rcases (hmem held).mp hin with rfl | ⟨hold, -⟩
      · exact hbatch.source held List.mem_cons_self
      · exact hours e (List.mem_cons_of_mem endpoint he) held hold hlocator
    obtain ⟨hkeep, hadded⟩ := ih (observe_bounded hrow endpoint) hlater hours'
      (hlength.trans_le hslots)
    constructor
    · intro held hin hsource
      refine hkeep held ((hmem held).mpr (.inr ⟨hin, fun hsame => ?_⟩)) hsource
      exact hsource (hfirst held hin hsame)
    · exact hadded.trans hcount

/-! ## A decision fits the row it is read off -/

theorem Fits.sublist {sub : List Endpoint} (h : Fits row source cap batch)
    (hsub : sub.Sublist batch) : Fits row source cap sub where
  ours endpoint hin := h.ours endpoint (hsub.subset hin)
  slots := (Nat.add_le_add_left hsub.countP_le row.length).trans h.slots
  capped := by
    have hle : news row sub ≤ news row batch := hsub.countP_le
    rcases h.capped with hnone | hcap
    · exact .inl (Nat.le_zero.mp (hnone ▸ hle))
    · exact .inr ((Nat.add_le_add_left hle _).trans hcap)

theorem OfSource.sublist {sub : List Endpoint} (h : OfSource source batch)
    (hsub : sub.Sublist batch) : OfSource source sub where
  source endpoint hin := h.source endpoint (hsub.subset hin)
  distinct := h.distinct.sublist (hsub.map _)

theorem OfSource.snoc (h : OfSource source batch) (hsource : endpoint.source = source)
    (hapart : ∀ kept ∈ batch, kept.locator ≠ endpoint.locator) :
    OfSource source (batch ++ [endpoint]) where
  source e he := by
    rcases List.mem_append.mp he with hin | hin
    · exact h.source e hin
    · rw [List.mem_singleton.mp hin]
      exact hsource
  distinct := by
    rw [List.map_append, List.nodup_append]
    refine ⟨h.distinct, List.nodup_singleton _, fun a ha b hb => ?_⟩
    obtain ⟨kept, hkept, rfl⟩ := List.mem_map.mp ha
    rw [List.map_singleton, List.mem_singleton] at hb
    rw [hb]
    exact hapart kept hkept

theorem news_append (row batch : List Endpoint) (endpoint : Endpoint) :
    news row (batch ++ [endpoint]) = news row batch + news row [endpoint] :=
  List.countP_append

/-- What the loop of `admissible_weak_endpoints` has counted is what it has collected. -/
structure Admitted (row : List Endpoint) (source : EndpointSource) (cap : Nat) (acc : Admitting) :
    Prop where
  batch : OfSource source acc.admissible
  fits : Fits row source cap acc.admissible
  held : acc.heldFromSource = heldFrom source row + news row acc.admissible
  free : row.length + news row acc.admissible + acc.freeSlots = maxEndpointsPerPeer

theorem Admitted.next {acc : Admitting} (h : Admitted row source cap acc)
    (hdistinct : (row.map Endpoint.locator).Nodup) (hsource : endpoint.source = source) :
    Admitted row source cap (acc.next row source cap endpoint) := by
  unfold Admitting.next
  split
  · exact h
  rename_i hapart
  have hbatch : OfSource source (acc.admissible ++ [endpoint]) := by
    refine h.batch.snoc hsource fun kept hkept hsame => hapart ?_
    exact List.any_eq_true.mpr ⟨kept, hkept, beq_iff_eq.mpr hsame⟩
  have hours : (∀ held ∈ row, held.locator = endpoint.locator → held.source = source) →
      ∀ e ∈ acc.admissible ++ [endpoint], ∀ held ∈ row, held.locator = e.locator →
        held.source = source := by
    intro hlast e he
    rcases List.mem_append.mp he with hin | hin
    · exact h.fits.ours e hin
    · rw [List.mem_singleton.mp hin]
      exact hlast
  split
  · rename_i held hfind
    split
    · rename_i hheld
      have hin := List.mem_of_find?_eq_some hfind
      have hlocator : held.locator = endpoint.locator := by simpa using List.find?_some hfind
      have hnews : news row (acc.admissible ++ [endpoint]) = news row acc.admissible := by
        rw [news_append, news_cons_held hin hlocator]
        rfl
      have hlast : ∀ other ∈ row, other.locator = endpoint.locator → other.source = source := by
        intro other hother hsame
        have hone : other = held :=
          List.inj_on_of_nodup_map hdistinct hother hin (hsame.trans hlocator.symm)
        rw [hone]
        exact hheld
      refine ⟨hbatch, ⟨hours hlast, ?_, ?_⟩, ?_, ?_⟩
      · rw [hnews]
        exact h.fits.slots
      · rw [hnews]
        exact h.fits.capped
      · rw [hnews]
        exact h.held
      · rw [hnews]
        exact h.free
    · exact h
  · rename_i hfind
    have hnew : ∀ held ∈ row, held.locator ≠ endpoint.locator := by
      intro held hin
      simpa using List.find?_eq_none.mp hfind held hin
    have hnews : news row (acc.admissible ++ [endpoint]) = news row acc.admissible + 1 := by
      rw [news_append, news_cons_new hnew]
      rfl
    have hheld := h.held
    have hfree := h.free
    split
    · exact h
    · rename_i hroom
      push Not at hroom
      refine ⟨hbatch, ⟨hours fun held hin hsame => absurd hsame (hnew held hin), ?_, .inr ?_⟩, ?_, ?_⟩
      · rw [hnews]
        omega
      · rw [hnews]
        omega
      · rw [hnews]
        simp only
        omega
      · rw [hnews]
        simp only
        omega

theorem admissible_fits {learned : List Endpoint} (hrow : RowBounded row)
    (hlearned : ∀ endpoint ∈ learned, endpoint.source = source) :
    OfSource source (admissibleWeakEndpoints row learned source cap) ∧
      Fits row source cap (admissibleWeakEndpoints row learned source cap) := by
  have hwithin := hrow.within
  suffices hloop : ∀ (learned : List Endpoint) (acc : Admitting),
      (∀ endpoint ∈ learned, endpoint.source = source) → Admitted row source cap acc →
      Admitted row source cap (learned.foldl (Admitting.next row source cap) acc) by
    have hstart : Admitted row source cap
        { heldFromSource := heldFrom source row
          freeSlots := maxEndpointsPerPeer - min row.length maxEndpointsPerPeer
          admissible := [] } := by
      refine ⟨⟨fun e he => (List.not_mem_nil he).elim, List.nodup_nil⟩,
        ⟨fun e he => (List.not_mem_nil he).elim, hwithin, .inl rfl⟩, rfl, ?_⟩
      rw [min_eq_left hwithin]
      exact Nat.add_sub_cancel' hwithin
    have hend := hloop learned _ hlearned hstart
    exact ⟨hend.batch, hend.fits⟩
  clear hlearned learned
  intro learned
  induction learned with
  | nil => exact fun acc _ h => h
  | cons endpoint learned ih =>
    intro acc hlearned h
    obtain ⟨hfirst, hrest⟩ := List.forall_mem_cons.mp hlearned
    exact ih _ hrest (h.next hrow.distinct hfirst)

/-- What a kind of hearsay decides to write is of its source and fits the row. -/
theorem decided_fits (kind : Hearsay) (hrow : RowBounded row) (addrs : List Net.SocketAddr)
    (nowMs : Int) : OfSource kind.source (kind.decided row addrs nowMs) ∧
      Fits row kind.source kind.cap (kind.decided row addrs nowMs) := by
  have hlearned : ∀ endpoint ∈ addrs.map fun addr => Endpoint.direct addr nowMs kind.source,
      endpoint.source = kind.source := by
    intro endpoint hin
    obtain ⟨addr, -, rfl⟩ := List.mem_map.mp hin
    rfl
  have hall : OfSource kind.source (admissibleWeakEndpoints row
        (addrs.map fun addr => Endpoint.direct addr nowMs kind.source) kind.source kind.cap) ∧
      Fits row kind.source kind.cap (admissibleWeakEndpoints row
        (addrs.map fun addr => Endpoint.direct addr nowMs kind.source) kind.source kind.cap) :=
    admissible_fits hrow hlearned
  have hsub : (kind.decided row addrs nowMs).Sublist (admissibleWeakEndpoints row
      (addrs.map fun addr => Endpoint.direct addr nowMs kind.source) kind.source kind.cap) := by
    cases kind with
    | brief => exact List.Sublist.refl _
    | drop => exact List.Sublist.refl _
    | moved => exact List.filter_sublist
  exact ⟨hall.1.sublist hsub, hall.2.sublist hsub⟩

/-! ## One write of the file -/

namespace PeersFile

variable {file : List DialRow} {peer other : PeerId}

theorem endpoints_of_observe (file : List DialRow) (peer : PeerId) (batch : List Endpoint) :
    endpointsOf (observeEndpoints file peer batch).2 peer =
      (endpointsOf file peer).map fun row => (dialable batch).foldl observeEndpoint row := by
  unfold observeEndpoints endpointsOf
  simp only
  split
  · rename_i hnone
    rw [hnone]
    exact Option.map_id'.symm
  split
  · rw [find?_updateFirst, Option.map_map, Option.map_map]
    · rfl
    · exact fun row hrow => hrow
  · rename_i hnone
    rw [List.find?_eq_none.mpr fun row hrow hnode => hnone (List.any_eq_true.mpr ⟨row, hrow, hnode⟩)]
    rfl

theorem endpoints_of_observe_ne (h : other ≠ peer) (file : List DialRow) (batch : List Endpoint) :
    endpointsOf (observeEndpoints file peer batch).2 other = endpointsOf file other := by
  unfold observeEndpoints endpointsOf
  simp only
  split
  · rfl
  split
  · rw [find?_updateFirst_ne]
    intro row hrow
    have hne : (row.node == other) = false := by
      rw [beq_iff_eq.mp hrow]
      exact beq_false_of_ne h.symm
    exact ⟨hne, hne⟩
  · rfl

/-! ## Interleaved writers -/

/-- The peer's row, where it has one, is as `observe_endpoint` leaves rows. -/
def Pinned (peer : PeerId) (file : List DialRow) : Prop :=
  ∀ row ∈ endpointsOf file peer, RowBounded row

theorem Pinned.observe (h : Pinned peer file) (other : PeerId) (batch : List Endpoint) :
    Pinned peer (observeEndpoints file other batch).2 := by
  intro row hrow
  by_cases hother : peer = other
  · subst hother
    rw [endpoints_of_observe, Option.mem_def, Option.map_eq_some_iff] at hrow
    obtain ⟨old, hold, rfl⟩ := hrow
    exact observe_all_bounded (h old hold) _
  · rw [endpoints_of_observe_ne hother] at hrow
    exact h row hrow

/-- Every batch that waits to be written to the peer's row is of its source. -/
def Waiting (peer : PeerId) (s : PeersFile) : Prop :=
  ∀ writer, ∀ pending ∈ s.pending writer, pending.peer = peer →
    OfSource pending.kind.source pending.batch

/-- What holds of a row and of the writes to it in any interleaving. -/
structure Inv (peer : PeerId) (s : PeersFile) : Prop where
  pinned : Pinned peer s.file
  waiting : Waiting peer s

theorem decision_spec {kind : Hearsay} {addrs : List Net.SocketAddr} {nowMs : Int}
    {pending : Pending} (h : decision file peer kind addrs nowMs = some pending) :
    pending.peer = peer ∧ pending.kind = kind ∧
      ∃ row, endpointsOf file peer = some row ∧ pending.batch = kind.decided row addrs nowMs := by
  obtain ⟨row, hrow, hbatch⟩ := Option.bind_eq_some_iff.mp h
  simp only at hbatch
  split at hbatch
  · cases hbatch
  · obtain rfl := Option.some.inj hbatch
    exact ⟨rfl, rfl, row, hrow, rfl⟩

theorem Inv.step {s : PeersFile} (h : Inv peer s) (act : EndpointAct) : Inv peer (s.step act) := by
  cases act with
  | proven other endpoints => exact ⟨h.pinned.observe other endpoints, h.waiting⟩
  | decide writer other kind addrs nowMs =>
    refine ⟨h.pinned, fun writer' pending hpending hpeer => ?_⟩
    by_cases hwriter : writer' = writer
    · subst hwriter
      have hdecision : decision s.file other kind addrs nowMs = some pending := by
        simpa [PeersFile.step] using hpending
      obtain ⟨rfl, rfl, row, hrow, hbatch⟩ := decision_spec hdecision
      rw [hbatch]
      rw [hpeer] at hrow
      exact (decided_fits pending.kind (h.pinned row hrow) addrs nowMs).1
    · refine h.waiting writer' pending ?_ hpeer
      simpa [PeersFile.step, hwriter] using hpending
  | land writer =>
    cases hlands : s.pending writer with
    | none =>
      rw [step_land_none hlands]
      exact h
    | some landing =>
      rw [step_land_some hlands]
      refine ⟨h.pinned.observe _ _, fun writer' pending hpending hpeer => ?_⟩
      by_cases hwriter : writer' = writer
      · subst hwriter
        simp at hpending
      · refine h.waiting writer' pending ?_ hpeer
        simpa [hwriter] using hpending

/-- A batch lands on a row it fits. -/
def LandsFitting (peer : PeerId) (s : PeersFile) : EndpointAct → Prop
  | .land writer => ∀ pending ∈ s.pending writer, pending.peer = peer →
      ∀ row ∈ endpointsOf s.file peer,
        Fits row pending.kind.source pending.kind.cap (dialable pending.batch)
  | _ => True

/-- A write of hearsay leaves what the row holds of any other source, and brings the row to no more
than the cap of its own. -/
def Spares (peer : PeerId) (s : PeersFile) (act : EndpointAct) : Prop :=
  match act with
  | .land writer => ∀ pending ∈ s.pending writer, pending.peer = peer →
      ∀ row ∈ endpointsOf s.file peer, ∃ row' ∈ endpointsOf (s.step act).file peer,
        (∀ held ∈ row, held.source ≠ pending.kind.source → held ∈ row') ∧
        heldFrom pending.kind.source row' ≤
          max pending.kind.cap (heldFrom pending.kind.source row)
  | _ => True

theorem Inv.spares {s : PeersFile} (h : Inv peer s) {act : EndpointAct}
    (hfits : LandsFitting peer s act) : Spares peer s act := by
  cases act with
  | proven other endpoints => trivial
  | decide writer other kind addrs nowMs => trivial
  | land writer =>
    intro pending hpending hpeer row hrow
    have hbatch := (h.waiting writer pending hpending hpeer).sublist
      (List.filter_sublist : (dialable pending.batch).Sublist pending.batch)
    have hfit := hfits pending hpending hpeer row hrow
    obtain ⟨hkeep, hcount⟩ := observe_all_fits (h.pinned row hrow) hbatch hfit.ours hfit.slots
    refine ⟨_, ?_, hkeep, ?_⟩
    · rw [step_land_some hpending]
      simp only
      rw [hpeer, endpoints_of_observe, Option.mem_def.mp hrow]
      rfl
    · have hadded : heldFrom pending.kind.source _ = heldFrom pending.kind.source row +
          news row (dialable pending.batch) := hcount
      rw [hadded]
      rcases hfit.capped with hnone | hcap
      · rw [hnone]
        exact le_max_right _ _
      · exact hcap.trans (le_max_left _ _)

theorem lands_fitting_of_unchanged {s s' : PeersFile} (h : Inv peer s) {writer : Nat}
    {kind : Hearsay} {addrs : List Net.SocketAddr} {nowMs : Int}
    (hpending : s'.pending writer = decision s.file peer kind addrs nowMs)
    (hrow : endpointsOf s'.file peer = endpointsOf s.file peer) :
    LandsFitting peer s' (.land writer) := by
  intro pending hin _ row hmem
  rw [hpending] at hin
  obtain ⟨-, rfl, row', hrow', hbatch⟩ := decision_spec hin
  rw [hrow, hrow'] at hmem
  obtain rfl : row' = row := Option.some.inj hmem
  rw [hbatch]
  exact (decided_fits pending.kind (h.pinned row' hrow') addrs nowMs).2.sublist List.filter_sublist

theorem start_inv (h : Pinned peer file) : Inv peer (start file) where
  pinned := h
  waiting _ _ hpending := by cases hpending

/-- A row is bounded in every interleaving; where every batch lands on a row it fits, no hearsay
displaces what the row holds of another source or outgrows its own share. -/
theorem hearsay_spares (h : Pinned peer file) {acts : List EndpointAct}
    (hfits : EachStep step (LandsFitting peer) (start file) acts) :
    (∀ pre, pre <+: acts → ∀ row ∈ endpointsOf (exec step (start file) pre).file peer,
      (row.map Endpoint.locator).Nodup ∧ row.length ≤ maxEndpointsPerPeer) ∧
    EachStep step (Spares peer) (start file) acts := by
  have hkeep : ∀ s act, Inv peer s → LandsFitting peer s act → Inv peer (s.step act) :=
    fun s act hs _ => hs.step act
  constructor
  · intro pre hpre row hrow
    have hinv := exec_invariant hkeep (start_inv h) hfits pre hpre
    exact ⟨(hinv.pinned row hrow).distinct, (hinv.pinned row hrow).within⟩
  · exact each_step_of_invariant hkeep (fun s act hs hact => hs.spares hact) (start_inv h) hfits

def friendAddr : Net.SocketAddr :=
  .v4 ⟨192, 0, 2, 7⟩ 7755

/-- A friend pinned with no address yet. -/
def friendFile : List DialRow :=
  [{ node := 7, endpoints := [] }]

theorem hearsay_spares_brief :
    EachStep step (Spares 7) (start friendFile) [.decide 0 7 .brief [friendAddr] 1000, .land 0] := by
  have hpinned : Pinned 7 friendFile := by
    intro row hrow
    obtain rfl : [] = row := Option.some.inj hrow
    exact ⟨List.nodup_nil, Nat.zero_le _⟩
  refine (hearsay_spares hpinned ?_).2
  rw [each_step_cons, each_step_cons]
  refine ⟨trivial, ?_, each_step_nil⟩
  have hpending : ((start friendFile).step (.decide 0 7 .brief [friendAddr] 1000)).pending 0 =
      decision (start friendFile).file 7 .brief [friendAddr] 1000 := rfl
  exact lands_fitting_of_unchanged (start_inv hpinned) hpending rfl

theorem observe_over (endpoint : Endpoint) (h : ∀ held ∈ row, held.locator = endpoint.locator) :
    observeEndpoint row endpoint = [endpoint] := by
  have hnone : elsewhere row endpoint = [] :=
    List.filter_eq_nil_iff.mpr fun held hin => by simp [h held hin]
  have hperm := observe_perm (show (elsewhere row endpoint).length < maxEndpointsPerPeer by
    rw [hnone]
    decide)
  rw [hnone] at hperm
  exact List.perm_singleton.mp hperm

/-- A brief decided on the empty row relabels what the friend's own greeting wrote meanwhile. -/
theorem brief_relabels :
    ¬ EachStep step (Spares 7) (start friendFile)
      [.decide 0 7 .brief [friendAddr] 1000,
        .proven 7 [Endpoint.direct friendAddr 2000 .hello], .land 0] := by
  rw [each_step_cons, each_step_cons, each_step_cons]
  rintro ⟨-, -, hlast, -⟩
  set s := ((start friendFile).step (.decide 0 7 .brief [friendAddr] 1000)).step
    (.proven 7 [Endpoint.direct friendAddr 2000 .hello]) with hs
  have hpending : s.pending 0 = some
      { peer := 7, kind := .brief, batch := [Endpoint.direct friendAddr 1000 .brief] } := rfl
  have hgreeted : endpointsOf s.file 7 = some [Endpoint.direct friendAddr 2000 .hello] := by
    have hfile : s.file =
        (observeEndpoints friendFile 7 [Endpoint.direct friendAddr 2000 .hello]).2 := rfl
    rw [hfile, endpoints_of_observe]
    exact congrArg some (observe_over _ (fun held hin => (List.not_mem_nil hin).elim))
  have hbriefed : endpointsOf (s.step (.land 0)).file 7 =
      some [Endpoint.direct friendAddr 1000 .brief] := by
    rw [step_land_some hpending, endpoints_of_observe, hgreeted]
    refine congrArg some (observe_over _ fun held hin => ?_)
    rw [List.mem_singleton.mp hin]
    rfl
  obtain ⟨row', hrow', hkeep, -⟩ := hlast _ hpending rfl _ hgreeted
  obtain rfl : _ = row' := Option.some.inj (hbriefed.symm.trans hrow')
  have hlost := hkeep _ List.mem_cons_self (by decide)
  revert hlost
  decide

end PeersFile

end TeamClaude
