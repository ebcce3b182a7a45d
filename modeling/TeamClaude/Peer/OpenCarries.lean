import TeamClaude.Peer.Tunnel
import Mathlib.Algebra.Order.BigOperators.Group.List
import Mathlib.Algebra.Order.Ring.Nat

/-!
# Open carries of a peer

The bound on a peer's open carries is not counted. It is meant to follow from each of them holding a
quarter of the cap; what the carries hold together does stay within the cap.
-/

namespace TeamClaude

inductive BudgetCall
  | admitCarry (peer : PeerId) (cap : Nat) (nowMs : Int)
  | charge (peer : PeerId) (bytes : Nat) (nowMs : Int)
  | close (id : Nat) (peer : PeerId) (bytes : Nat) (nowMs : Int)
  deriving DecidableEq

namespace BudgetCall

def nowMs : BudgetCall → Int
  | admitCarry _ _ nowMs => nowMs
  | charge _ _ nowMs => nowMs
  | close _ _ _ nowMs => nowMs

def apply (b : TunnelBudget) : BudgetCall → TunnelBudget
  | admitCarry peer cap nowMs => (b.admitCarry peer cap nowMs).2
  | charge peer bytes nowMs => b.charge peer bytes nowMs
  | close id peer bytes nowMs => b.close id peer bytes nowMs

end BudgetCall

namespace TunnelBudget

def openOf (b : TunnelBudget) (peer : PeerId) : List OpenRow :=
  b.opened.filter fun row => row.peer = peer

/-- What counts against a peer's cap: the bytes spent in the hour and the bytes in reserve. -/
def held (b : TunnelBudget) (peer : PeerId) (nowMs : Int) : Nat :=
  (b.trim nowMs).spentBy peer + b.reservedBy peer

/-- When a peer asks for a carry with four open, what is held reaches the cap. -/
def Covered (peer : PeerId) (b : TunnelBudget) : BudgetCall → Prop
  | .admitCarry other cap nowMs =>
    other = peer → (b.openOf peer).length = maxOpenCarriesPerPeer → cap ≤ b.held peer nowMs
  | _ => True

/-- A carry of the peer is admitted with a whole slice left, or not at all. -/
def WholeSlice (peer : PeerId) (b : TunnelBudget) : BudgetCall → Prop
  | .admitCarry other cap nowMs =>
    other = peer → cap ≤ b.held peer nowMs ∨ b.held peer nowMs + slice cap ≤ cap
  | _ => True

/-- Calls at clocks that do not run back, in which a peer has one cap. -/
structure CappedRun (peer : PeerId) (cap : Nat) (calls : List BudgetCall) : Prop where
  capped : ∀ c nowMs, BudgetCall.admitCarry peer c nowMs ∈ calls → c = cap
  ordered : (calls.map BudgetCall.nowMs).Pairwise (· ≤ ·)

variable {b : TunnelBudget} {peer : PeerId} {cap : Nat} {nowMs : Int}

theorem reserved_eq (b : TunnelBudget) (peer : PeerId) :
    b.reservedBy peer = ((b.openOf peer).map OpenRow.bytes).sum :=
  rfl

/-- A peer with room left is given its slice, or what is left of it. -/
theorem admit_room (hcap : cap ≤ u64Max) (h : b.held peer nowMs < cap) :
    ((b.admitCarry peer cap nowMs).2.openOf peer) = b.openOf peer ++
      [{ id := b.nextOpen, peer, bytes := min (cap - b.held peer nowMs) (slice cap) }] := by
  have hheld : min ((b.trim nowMs).spentBy peer + (b.trim nowMs).reservedBy peer) u64Max =
      b.held peer nowMs := min_eq_left (h.le.trans hcap)
  unfold admitCarry
  simp only [hheld, if_neg (not_le.mpr h)]
  simp [openOf, List.filter_append, trim]

theorem admit_full (hcap : cap ≤ u64Max) (h : cap ≤ b.held peer nowMs) :
    (b.admitCarry peer cap nowMs).2.openOf peer = b.openOf peer := by
  have hheld : cap ≤ min ((b.trim nowMs).spentBy peer + (b.trim nowMs).reservedBy peer) u64Max :=
    le_min h hcap
  unfold admitCarry
  simp only [if_pos hheld]
  rfl

theorem admit_other {other : PeerId} (h : other ≠ peer) :
    (b.admitCarry other cap nowMs).2.openOf peer = b.openOf peer := by
  unfold admitCarry
  simp only
  split
  · rfl
  · simp [openOf, trim, List.filter_append, h]

/-- A call adds one carry of the peer, when it asks with room left; any other call adds none. -/
theorem apply_open (hcap : cap ≤ u64Max) {call : BudgetCall}
    (hcall : ∀ c nowMs, call = .admitCarry peer c nowMs → c = cap) :
    ((call.apply b).openOf peer).Sublist (b.openOf peer) ∨
    ∃ nowMs row, call = .admitCarry peer cap nowMs ∧ b.held peer nowMs < cap ∧
      row.bytes = min (cap - b.held peer nowMs) (slice cap) ∧
      (call.apply b).openOf peer = b.openOf peer ++ [row] := by
  cases call with
  | admitCarry other c nowMs =>
    by_cases hpeer : other = peer
    · subst hpeer
      obtain rfl := hcall c nowMs rfl
      by_cases hroom : b.held other nowMs < c
      · exact .inr ⟨nowMs, _, rfl, hroom, rfl, admit_room hcap hroom⟩
      · exact .inl ((admit_full hcap (not_lt.mp hroom)).symm ▸ List.Sublist.refl _)
    · exact .inl ((admit_other hpeer).symm ▸ List.Sublist.refl _)
  | charge other bytes nowMs => exact .inl (List.Sublist.refl _)
  | close id other bytes nowMs => exact .inl (List.filter_sublist.filter _)

theorem slice_pos (cap : Nat) : 0 < slice cap :=
  Nat.lt_of_lt_of_le Nat.one_pos (le_max_right _ _)

/-- The peer's carries hold no more than its cap together, and each holds something. -/
structure Within (peer : PeerId) (cap : Nat) (b : TunnelBudget) : Prop where
  reserved : b.reservedBy peer ≤ cap
  positive : ∀ row ∈ b.openOf peer, 1 ≤ row.bytes

theorem within_step (hcap : cap ≤ u64Max) {call : BudgetCall} (h : Within peer cap b)
    (hcall : ∀ c nowMs, call = .admitCarry peer c nowMs → c = cap) :
    Within peer cap (call.apply b) := by
  rcases apply_open hcap hcall with hsub | ⟨nowMs, row, -, hroom, hbytes, hopen⟩
  · refine ⟨le_trans ?_ h.reserved, fun row hrow => h.positive row (hsub.subset hrow)⟩
    exact (hsub.map OpenRow.bytes).sum_le_sum fun _ _ => Nat.zero_le _
  · have hpos := slice_pos cap
    have hreserved : b.reservedBy peer ≤ b.held peer nowMs := Nat.le_add_left _ _
    refine ⟨?_, fun held hheld => ?_⟩
    · rw [reserved_eq, hopen, List.map_append, List.sum_append, ← reserved_eq, List.map_singleton,
        List.sum_singleton, hbytes]
      omega
    · rw [hopen, List.mem_append, List.mem_singleton] at hheld
      rcases hheld with hold | rfl
      · exact h.positive held hold
      · rw [hbytes]
        omega

/-- A peer has no more carries open than bytes in reserve. -/
theorem Within.length_le (h : Within peer cap b) : (b.openOf peer).length ≤ cap := by
  have hlen := List.length_le_sum_of_one_le ((b.openOf peer).map OpenRow.bytes) fun n hn => by
    obtain ⟨row, hrow, rfl⟩ := List.mem_map.mp hn
    exact h.positive row hrow
  rw [List.length_map, ← reserved_eq] at hlen
  exact hlen.trans h.reserved

/-- The carries of a peer that are all whole slices fit in the cap. -/
structure Whole (peer : PeerId) (cap : Nat) (b : TunnelBudget) : Prop
    extends Within peer cap b where
  whole : ∀ row ∈ b.openOf peer, row.bytes = slice cap

theorem whole_step (hcap : cap ≤ u64Max) {call : BudgetCall} (h : Whole peer cap b)
    (hcall : (∀ c nowMs, call = .admitCarry peer c nowMs → c = cap) ∧ WholeSlice peer b call) :
    Whole peer cap (call.apply b) := by
  refine ⟨within_step hcap h.toWithin hcall.1, fun row hrow => ?_⟩
  rcases apply_open hcap hcall.1 with hsub | ⟨nowMs, row', rfl, hroom, hbytes, hopen⟩
  · exact h.whole row (hsub.subset hrow)
  · rw [hopen, List.mem_append, List.mem_singleton] at hrow
    rcases hrow with hold | rfl
    · exact h.whole row hold
    · have hleft := (hcall.2 rfl).resolve_left (not_le.mpr hroom)
      rw [hbytes]
      omega

theorem Whole.length_le (h : Whole peer cap b) (hfive : cap < 5 * slice cap) :
    (b.openOf peer).length ≤ maxOpenCarriesPerPeer := by
  have hsum : ((b.openOf peer).map OpenRow.bytes).sum = (b.openOf peer).length * slice cap := by
    rw [List.map_congr_left h.whole, List.map_const', List.sum_replicate_nat]
  have hle := h.reserved
  rw [reserved_eq, hsum] at hle
  have hlt : (b.openOf peer).length < 5 := by
    by_contra hmany
    have := Nat.mul_le_mul_right (slice cap) (not_lt.mp hmany)
    omega
  exact Nat.le_of_lt_succ hlt

def FewOpen (peer : PeerId) (b : TunnelBudget) : Prop :=
  (b.openOf peer).length ≤ maxOpenCarriesPerPeer

theorem few_step (hcap : cap ≤ u64Max) {call : BudgetCall} (h : FewOpen peer b)
    (hcall : (∀ c nowMs, call = .admitCarry peer c nowMs → c = cap) ∧ Covered peer b call) :
    FewOpen peer (call.apply b) := by
  rcases apply_open hcap hcall.1 with hsub | ⟨nowMs, row, rfl, hroom, -, hopen⟩
  · exact hsub.length_le.trans h
  · have hfour : (b.openOf peer).length ≠ maxOpenCarriesPerPeer := fun hlen =>
      not_le.mpr hroom (hcall.2 rfl hlen)
    unfold FewOpen at h ⊢
    rw [hopen, List.length_append, List.length_singleton]
    omega

/-- A fifth carry is opened where four are open that do not cover the cap. -/
theorem covered_of_few (hcap : cap ≤ u64Max) {call : BudgetCall}
    (hcall : ∀ c nowMs, call = .admitCarry peer c nowMs → c = cap)
    (h : FewOpen peer (call.apply b)) : Covered peer b call := by
  cases call with
  | admitCarry other c nowMs =>
    intro hpeer hfour
    subst hpeer
    obtain rfl := hcall c nowMs rfl
    by_contra hroom
    unfold FewOpen at h
    rw [BudgetCall.apply, admit_room hcap (not_le.mp hroom), List.length_append, hfour] at h
    exact absurd h (Nat.not_succ_le_self _)
  | charge other bytes nowMs => trivial
  | close id other bytes nowMs => trivial

/-! ## Runs -/

section Runs

variable {calls : List BudgetCall}

theorem CappedRun.each (h : CappedRun peer cap calls) : Lib.EachStep BudgetCall.apply
    (fun _ call => ∀ c nowMs, call = .admitCarry peer c nowMs → c = cap) {} calls := by
  intro pre call hpre c nowMs hcall
  exact h.capped c nowMs (hcall ▸ hpre.subset (List.mem_append_right _ List.mem_cons_self))

theorem within_run (hcap : cap ≤ u64Max) (h : CappedRun peer cap calls) :
    ∀ pre, pre <+: calls → Within peer cap (Lib.exec BudgetCall.apply {} pre) :=
  Lib.exec_invariant (fun _ _ => within_step hcap) ⟨Nat.zero_le _, fun _ hrow => by cases hrow⟩
    h.each

theorem few_run_iff (hcap : cap ≤ u64Max) (h : CappedRun peer cap calls) :
    (∀ pre, pre <+: calls → FewOpen peer (Lib.exec BudgetCall.apply {} pre)) ↔
      Lib.EachStep BudgetCall.apply (Covered peer) {} calls := by
  constructor
  · intro hfew pre call hpre
    refine covered_of_few hcap (h.each pre call hpre) ?_
    rw [← Lib.exec_snoc BudgetCall.apply {} pre call]
    exact hfew _ hpre
  · intro hcovered
    exact Lib.exec_invariant (fun _ _ => few_step hcap) (Nat.zero_le _)
      fun pre call hpre => ⟨h.each pre call hpre, hcovered pre call hpre⟩

theorem few_of_whole (hcap : cap ≤ u64Max) (h : CappedRun peer cap calls)
    (hfive : cap < 5 * slice cap)
    (hwhole : Lib.EachStep BudgetCall.apply (WholeSlice peer) {} calls) :
    ∀ pre, pre <+: calls → FewOpen peer (Lib.exec BudgetCall.apply {} pre) := by
  intro pre hpre
  have hinv := Lib.exec_invariant (I := Whole peer cap) (fun _ _ => whole_step hcap)
    ⟨⟨Nat.zero_le _, fun _ hrow => by cases hrow⟩, fun _ hrow => by cases hrow⟩
    (fun pre call hpre => ⟨h.each pre call hpre, hwhole pre call hpre⟩) pre hpre
  exact hinv.length_le hfive

end Runs

/-! ## Thin carries -/

/-- With nothing left in the hour a carry is admitted while the reservations are short of the cap.
-/
theorem admit_rolled (hcap : cap ≤ u64Max) (hspent : (b.trim nowMs).spent = [])
    (hroom : b.reservedBy peer < cap) :
    ((b.admitCarry peer cap nowMs).2.trim nowMs).spent = [] ∧
      ((b.admitCarry peer cap nowMs).2.openOf peer).length = (b.openOf peer).length + 1 ∧
      (b.admitCarry peer cap nowMs).2.reservedBy peer ≤ b.reservedBy peer + slice cap := by
  have hheld : b.held peer nowMs = b.reservedBy peer := by
    simp [held, spentBy, hspent]
  have hopen := admit_room hcap (hheld ▸ hroom)
  refine ⟨?_, ?_, ?_⟩
  · have hkept : (b.admitCarry peer cap nowMs).2.spent = (b.trim nowMs).spent := by
      unfold admitCarry
      simp only
      split <;> rfl
    simp only [trim, hkept] at hspent ⊢
    rw [hspent]
    rfl
  · rw [hopen, List.length_append, List.length_singleton]
  · rw [reserved_eq, hopen, List.map_append, List.sum_append, ← reserved_eq, List.map_singleton,
      List.sum_singleton]
    exact Nat.add_le_add_left (min_le_right _ _) _

/-- A carry admitted on the last byte of the hour, and four more once the hour has rolled. -/
def thinRun (peer : PeerId) (cap : Nat) : List BudgetCall :=
  [.charge peer (cap - 1) 0, .admitCarry peer cap 0] ++
    List.replicate 4 (.admitCarry peer cap (budgetWindowMs + 1))

theorem thin_run_capped (peer : PeerId) (cap : Nat) : CappedRun peer cap (thinRun peer cap) := by
  refine ⟨fun c nowMs hin => ?_, by simp [thinRun, BudgetCall.nowMs, budgetWindowMs]⟩
  simp [thinRun] at hin
  omega

/-- Every cap from five on lets a peer open five carries. -/
theorem thin_run_five (hcap : cap ≤ u64Max) (hfive : 5 ≤ cap) :
    ((Lib.exec BudgetCall.apply {} (thinRun peer cap)).openOf peer).length = 5 := by
  have hslice : slice cap ≤ cap / 4 := max_le le_rfl (by omega)
  set b₀ : TunnelBudget := ({} : TunnelBudget).charge peer (cap - 1) 0 with hb₀
  have hheld : b₀.held peer 0 = cap - 1 := by
    simp [hb₀, held, charge, trim, spentBy, reservedBy, budgetWindowMs]
  have hthin := admit_room hcap (show b₀.held peer 0 < cap by omega)
  have hbyte : min (cap - b₀.held peer 0) (slice cap) = 1 := by
    have := slice_pos cap
    omega
  rw [hbyte, show b₀.openOf peer = [] from rfl, List.nil_append] at hthin
  set b₁ := (b₀.admitCarry peer cap 0).2 with hb₁
  have hspent : (b₁.trim (budgetWindowMs + 1)).spent = [] := by
    simp [hb₁, admitCarry, hb₀, charge, trim, budgetWindowMs]
    split <;> simp
  have hreserved : b₁.reservedBy peer = 1 := by
    rw [reserved_eq, hthin]
    rfl
  obtain ⟨hspent₁, hlen₁, hle₁⟩ := admit_rolled hcap hspent (show b₁.reservedBy peer < cap by omega)
  set b₂ := (b₁.admitCarry peer cap (budgetWindowMs + 1)).2
  obtain ⟨hspent₂, hlen₂, hle₂⟩ :=
    admit_rolled hcap hspent₁ (show b₂.reservedBy peer < cap by omega)
  set b₃ := (b₂.admitCarry peer cap (budgetWindowMs + 1)).2
  obtain ⟨hspent₃, hlen₃, hle₃⟩ :=
    admit_rolled hcap hspent₂ (show b₃.reservedBy peer < cap by omega)
  set b₄ := (b₃.admitCarry peer cap (budgetWindowMs + 1)).2
  obtain ⟨-, hlen₄, -⟩ := admit_rolled hcap hspent₃ (show b₄.reservedBy peer < cap by omega)
  rw [hlen₃, hlen₂, hlen₁, hthin] at hlen₄
  exact hlen₄

/-- In every run the reservations of a peer stay within its cap. At most four of its carries are
open throughout exactly when each time it asks with four open, what they hold and what it has spent
in the hour reach the cap; that is so when every carry takes a whole slice and five slices pass the
cap. No run opens five exactly when the cap is at most four bytes. -/
theorem open_carries_bounded_iff (peer : PeerId) (cap : Nat) (hcap : cap ≤ u64Max) :
    (∀ calls, CappedRun peer cap calls →
      (∀ pre, pre <+: calls → (Lib.exec BudgetCall.apply {} pre).reservedBy peer ≤ cap) ∧
      ((∀ pre, pre <+: calls → FewOpen peer (Lib.exec BudgetCall.apply {} pre)) ↔
        Lib.EachStep BudgetCall.apply (Covered peer) {} calls) ∧
      (cap < 5 * slice cap → Lib.EachStep BudgetCall.apply (WholeSlice peer) {} calls →
        ∀ pre, pre <+: calls → FewOpen peer (Lib.exec BudgetCall.apply {} pre))) ∧
    ((∀ calls, CappedRun peer cap calls →
        ∀ pre, pre <+: calls → FewOpen peer (Lib.exec BudgetCall.apply {} pre)) ↔ cap ≤ 4) := by
  refine ⟨fun calls hrun => ⟨fun pre hpre => (within_run hcap hrun pre hpre).reserved,
    few_run_iff hcap hrun, few_of_whole hcap hrun⟩, fun hfew => ?_, fun hfour calls hrun pre hpre =>
      (within_run hcap hrun pre hpre).length_le.trans hfour⟩
  by_contra hlarge
  have hopen := hfew _ (thin_run_capped peer cap) _ (List.prefix_refl _)
  unfold FewOpen at hopen
  rw [thin_run_five hcap (not_le.mp hlarge)] at hopen
  exact absurd hopen (by decide)

/-- A peer with five bytes an hour opens five carries, each with its slice; with eight it does once
the bytes that made one slice thin are an hour old. -/
theorem five_carries_open :
    (CappedRun 7 5 (List.replicate 5 (.admitCarry 7 5 0)) ∧
      ¬FewOpen 7 (Lib.exec BudgetCall.apply {} (List.replicate 5 (.admitCarry 7 5 0)))) ∧
    CappedRun 7 8 (thinRun 7 8) ∧ ¬FewOpen 7 (Lib.exec BudgetCall.apply {} (thinRun 7 8)) := by
  refine ⟨⟨⟨fun c nowMs hin => ?_, by decide⟩, by unfold FewOpen; decide⟩, ?_, ?_⟩
  · simp at hin
    exact hin.1
  · refine ⟨fun c nowMs hin => ?_, by decide⟩
    simp [thinRun] at hin
    omega
  · unfold FewOpen
    decide

/-- Four carries of a peer with eight bytes an hour are whole slices, and the fifth is refused. -/
theorem four_whole_carries : FewOpen 7
    (Lib.exec BudgetCall.apply {} (List.replicate 5 (.admitCarry 7 8 0))) := by
  have hrun : CappedRun 7 8 (List.replicate 5 (.admitCarry 7 8 0)) := by
    refine ⟨fun c nowMs hin => ?_, by decide⟩
    simp at hin
    exact hin.1
  refine ((open_carries_bounded_iff 7 8 (by decide)).1 _ hrun).2.2 (by decide) ?_ _
    (List.prefix_refl _)
  simp only [List.replicate, Lib.each_step_cons, WholeSlice]
  exact ⟨fun _ => by decide, fun _ => by decide, fun _ => by decide, fun _ => by decide,
    fun _ => by decide, Lib.each_step_nil⟩

end TunnelBudget

end TeamClaude
