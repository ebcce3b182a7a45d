import TeamClaude.Peer.Headroom

/-!
# Hand-mode grants over a run

A hand grant is clamped twice: by what is left of the scope's headroom, less what is promised, and
by the room of the one account whose bearer would leave. The second figure has nothing taken off.
-/

namespace TeamClaude

namespace GrantCall

/-- What the ask and its grant agree on, before any clamp by the fleet. -/
def wanted (c : GrantCall) : Option ℚ :=
  (fractionBudget c.ask.unit).bind fun wanted =>
    (c.granted.filter fun g => decide (g.window = c.ask.window)).map fun g => min wanted g.fraction

structure ByHand (fleet : Fleet) (scope : LendScope) (window : Window) (c : GrantCall) : Prop where
  fleet : c.fleet = fleet
  scope : c.scope = scope
  window : c.ask.window = window
  mode : c.granted.map LendGrant.mode = some .hand

end GrantCall

namespace Ledger

/-- What is left of a call's scope once every promise that overlaps it is taken off. -/
def uncommitted (l : Ledger) (c : GrantCall) : ℚ :=
  (l.headroomFor c.scope c.ask.window).getD 0 - l.committedFraction c.scope c.ask.window c.capMs

theorem clamp_to_grant_unit {ask : LeaseRequest} {granted : Option LendGrant} {inspect : Bool}
    {lendable : ℚ} {nowMs : Int} {leaseId : LeaseId} {finish : Option Nat} {closeMs : Option Int}
    {lease : Lease}
    (h : (clampToGrant ask granted inspect lendable nowMs leaseId finish closeMs).lease =
      some lease) :
    ∃ wanted grant, fractionBudget ask.unit = some wanted ∧
      (granted.filter fun g => decide (g.window = ask.window)) = some grant ∧
      lease.unit = .fraction (min (min wanted grant.fraction) lendable) := by
  obtain ⟨wanted, grant, -, -, hwanted, hgrant, -, -, rfl⟩ := clamp_to_grant_some h
  exact ⟨wanted, grant, hwanted, hgrant, rfl⟩

/-- A lease is minted for what was wanted, as far as it is lendable. -/
theorem grant_amount {l : Ledger} {c : GrantCall} {lease : Lease}
    (h : (l.grant c).1.answer.lease = some lease) :
    ∃ wanted, c.wanted = some wanted ∧ 0 < unspent lease ∧
      unspent lease = min wanted ((l.measured c).lendable c) := by
  rcases l.grant_cases c with ⟨hnone, -⟩ | ⟨minted, hminted, -, -, -, hspent,
    ⟨amount, hunit, hmin, -⟩, -⟩
  · rw [h] at hnone
    cases hnone
  rw [h] at hminted
  cases hminted
  have hpos : 0 < amount := min_debit_pos.trans_le hmin
  have hunspent : unspent lease = amount := by
    simp [unspent, hunit, hspent, hpos.le]
  unfold grant at h
  split at h
  · cases h
  split at h
  · cases h
  simp only at h
  split at h
  · cases h
  obtain ⟨wanted, grant, hwanted, hgrant, hclamp⟩ := clamp_to_grant_unit h
  rw [hunit, LeaseUnit.fraction.injEq] at hclamp
  refine ⟨min wanted grant.fraction, ?_, hunspent ▸ hpos, hunspent.trans hclamp⟩
  rw [GrantCall.wanted, hwanted, Option.bind_some, hgrant, Option.map_some]

theorem lendable_by_hand {l : Ledger} {c : GrantCall} {fleet : Fleet} {scope : LendScope}
    {window : Window} {room : ℚ} (hc : c.ByHand fleet scope window)
    (hroom : fleet.lendableByHand scope window = some room) :
    l.lendable c = min (max (l.uncommitted c) 0) room := by
  have hhand : c.fleet.lendableByHand c.scope c.ask.window = some room := by
    rw [hc.fleet, hc.scope, hc.window, hroom]
  simp only [lendable, hc.mode, hhand, Option.map_some, Option.getD_some, uncommitted]

end Ledger

/-- The ledger of a run of grants, with every lease minted so far. -/
structure Handing where
  ledger : Ledger
  minted : List Lease := []

namespace Handing

def step (s : Handing) (c : GrantCall) : Handing :=
  { ledger := (s.ledger.grant c).2
    minted := s.minted ++ (s.ledger.grant c).1.answer.lease.toList }

/-- The unspent fractions of the leases minted so far. -/
def promised (s : Handing) : ℚ :=
  (s.minted.map Ledger.unspent).sum

/-- A grant is the first, or what it wants, or what is left of the scope, fits in the part of the
hand room that is not promised yet. -/
def Fits (room : ℚ) (s : Handing) (c : GrantCall) : Prop :=
  s.promised = 0 ∨ (∀ wanted, c.wanted = some wanted → wanted ≤ room - s.promised) ∨
    (s.ledger.measured c).uncommitted c ≤ room - s.promised

variable {s : Handing} {c : GrantCall} {room : ℚ}

theorem promised_nonneg (s : Handing) : 0 ≤ s.promised := by
  refine List.sum_nonneg fun x hx => ?_
  obtain ⟨lease, -, rfl⟩ := List.mem_map.mp hx
  exact Ledger.unspent_nonneg lease

theorem promised_step_none (h : (s.ledger.grant c).1.answer.lease = none) :
    (s.step c).promised = s.promised := by
  simp [step, promised, h]

theorem promised_step_some {lease : Lease} (h : (s.ledger.grant c).1.answer.lease = some lease) :
    (s.step c).promised = s.promised + Ledger.unspent lease := by
  simp [step, promised, h]

/-- A minted lease keeps the promises within the hand room exactly when it fits. -/
theorem promised_step_le_iff {fleet : Fleet} {scope : LendScope} {window : Window} {lease : Lease}
    (hroom : fleet.lendableByHand scope window = some room) (hc : c.ByHand fleet scope window)
    (hle : s.promised ≤ room) (h : (s.ledger.grant c).1.answer.lease = some lease) :
    (s.step c).promised ≤ room ↔ s.Fits room c := by
  obtain ⟨wanted, hwanted, -, hamount⟩ := Ledger.grant_amount h
  rw [Ledger.lendable_by_hand hc hroom] at hamount
  have hpos := s.promised_nonneg
  have hleft : (s.step c).promised ≤ room ↔ Ledger.unspent lease ≤ room - s.promised := by
    rw [promised_step_some h, le_sub_iff_add_le']
  have hall : (∀ w, c.wanted = some w → w ≤ room - s.promised) ↔ wanted ≤ room - s.promised := by
    simp [hwanted]
  rw [hleft, hamount, min_le_iff, min_le_iff, max_le_iff, Fits, hall]
  constructor
  · rintro (hw | ⟨hu, -⟩ | hr)
    · exact .inr (.inl hw)
    · exact .inr (.inr hu)
    · exact .inl (by linarith)
  · rintro (hz | hw | hu)
    · exact .inr (.inr (by linarith))
    · exact .inl hw
    · exact .inr (.inl ⟨hu, by linarith⟩)

theorem promised_step_le {fleet : Fleet} {scope : LendScope} {window : Window}
    (hroom : fleet.lendableByHand scope window = some room) (hc : c.ByHand fleet scope window)
    (hle : s.promised ≤ room) (hfits : s.Fits room c) : (s.step c).promised ≤ room := by
  cases h : (s.ledger.grant c).1.answer.lease with
  | none => rwa [promised_step_none h]
  | some lease => exact (promised_step_le_iff hroom hc hle h).mpr hfits

end Handing

/-- Over a run of hand-mode grants on one scope and window the minted leases promise no more than
the hand room where every grant fits in the part of it that is left, and a grant that mints without
fitting promises more. -/
theorem hand_grants_within_room (l : Ledger) (fleet : Fleet) (scope : LendScope) (window : Window)
    (room : ℚ) (calls : List GrantCall) (hroom : fleet.lendableByHand scope window = some room)
    (hpos : 0 ≤ room) (hcalls : ∀ c ∈ calls, c.ByHand fleet scope window) :
    (Lib.EachStep Handing.step (Handing.Fits room) { ledger := l } calls →
      ∀ pre, pre <+: calls →
        (Lib.exec Handing.step { ledger := l } pre).promised ≤ room) ∧
    ∀ pre c lease, pre ++ [c] <+: calls →
      ((Lib.exec Handing.step { ledger := l } pre).ledger.grant c).1.answer.lease = some lease →
      (Lib.exec Handing.step { ledger := l } pre).promised ≤ room →
      ((Lib.exec Handing.step { ledger := l } (pre ++ [c])).promised ≤ room ↔
        (Lib.exec Handing.step { ledger := l } pre).Fits room c) := by
  have hhand : ∀ pre c, pre ++ [c] <+: calls → c.ByHand fleet scope window :=
    fun pre c hpre => hcalls c (hpre.subset (by simp))
  constructor
  · intro hfits
    exact Lib.exec_invariant (I := fun s : Handing => s.promised ≤ room)
      (A := fun s c => c.ByHand fleet scope window ∧ s.Fits room c)
      (fun s c hle ha => Handing.promised_step_le hroom ha.1 hle ha.2) hpos
      fun pre c hpre => ⟨hhand pre c hpre, hfits pre c hpre⟩
  · intro pre c lease hpre hmint hle
    rw [Lib.exec_snoc]
    exact Handing.promised_step_le_iff hroom (hhand pre c hpre) hle hmint

/-- A fleet with nine tenths of every window, four of them on the account that can be handed over. -/
def pinnedFleet : Fleet where
  scopeRestriction _ := .unrestricted
  lendable _ _ := some (9 / 10)
  lendableByHand _ _ := some (4 / 10)

/-- An ask of peer 7 for a fraction of the week, lent by hand. -/
def handAsk (id : LeaseId) (fraction : ℚ) : GrantCall where
  peer := 7
  ask := { window := .sevenDay, unit := .fraction fraction, ttlS := 300, maxInflight := 1 }
  row := some { inspect := true, lend :=
    [{ window := .sevenDay, fraction := 1, ttlS := 300, maxInflight := 1, mode := .hand }] }
  fleet := pinnedFleet
  offset := 0
  randomId := some id
  capMs := 1000
  pickMs := 1000
  scheduleNow := 1000000000
  clampMs := 1000
  recordMs := 1000

theorem hand_ask_by_hand (id : LeaseId) (fraction : ℚ) :
    (handAsk id fraction).ByHand pinnedFleet .all .sevenDay :=
  ⟨rfl, rfl, rfl, rfl⟩

/-- Two asks that share the hand room. -/
theorem small_hand_grants :
    (Lib.exec Handing.step { ledger := {} } [handAsk 1 (1 / 10), handAsk 2 (3 / 10)]).promised ≤
      4 / 10 := by
  refine (hand_grants_within_room {} pinnedFleet .all .sevenDay (4 / 10) _ rfl (by decide +kernel)
    ?_).1 ?_ _ (List.prefix_refl _)
  · simp only [List.mem_cons, List.not_mem_nil, or_false]
    rintro c (rfl | rfl) <;> exact hand_ask_by_hand _ _
  · rw [Lib.each_step_cons, Lib.each_step_cons]
    refine ⟨.inl (by decide +kernel), .inr (.inl ?_), Lib.each_step_nil⟩
    intro wanted hwanted
    have hw : (handAsk 2 (3 / 10)).wanted = some (3 / 10) := by decide +kernel
    rw [hw] at hwanted
    cases hwanted
    decide +kernel

/-- Two asks for the whole hand room are both granted, on the bearer of the same account. -/
theorem hand_room_promised_twice :
    pinnedFleet.lendableByHand .all .sevenDay = some (4 / 10) ∧
    (∀ c ∈ [handAsk 1 (4 / 10), handAsk 2 (4 / 10)], c.ByHand pinnedFleet .all .sevenDay) ∧
    (Lib.exec Handing.step { ledger := {} } [handAsk 1 (4 / 10), handAsk 2 (4 / 10)]).promised =
      8 / 10 := by
  refine ⟨rfl, ?_, by decide +kernel⟩
  simp only [List.mem_cons, List.not_mem_nil, or_false]
  rintro c (rfl | rfl) <;> exact hand_ask_by_hand _ _

end TeamClaude
