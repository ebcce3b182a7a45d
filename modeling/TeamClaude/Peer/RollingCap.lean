import TeamClaude.Peer.Tunnel
import Mathlib.Tactic.Linarith

/-!
# The rolling byte cap

A carry is charged at the instant it was admitted, not when its bytes moved. While every byte still
inside the window was booked inside it, what a peer has moved since any instant of the window, with
what its open carries may still move, stays within the cap.
-/

namespace TeamClaude

namespace Carrying

variable {c : Carrying} {lo hi nowMs : Int} {bytes : Nat}

/-- What the carry has moved from an instant on, or may still move. -/
def exposure (lo : Int) (c : Carrying) : Nat :=
  if c.live then c.movedSince lo + (c.allowance - c.moved) else c.movedSince lo

/-- What a closed carry was charged, where it was booked no earlier than `floor`. -/
def booked (floor : Int) (c : Carrying) : Nat :=
  if c.live = false ∧ floor ≤ c.admittedMs then c.moved else 0

/-- The slice an open carry holds. -/
def held (c : Carrying) : Nat :=
  if c.live then c.allowance else 0

theorem movedSince_le_moved (lo : Int) (c : Carrying) : c.movedSince lo ≤ c.moved :=
  (List.filter_sublist.map _).sum_le_sum fun _ _ => Nat.zero_le _

theorem movedSince_anti (h : lo ≤ hi) (c : Carrying) : c.movedSince hi ≤ c.movedSince lo := by
  refine List.Sublist.sum_le_sum (List.Sublist.map _ ?_) fun _ _ => Nat.zero_le _
  refine List.monotone_filter_right _ fun m hm => ?_
  simp only [decide_eq_true_eq] at hm ⊢
  exact h.trans hm

theorem movedIn_le_exposure (lo hi : Int) (c : Carrying) : c.movedIn lo hi ≤ c.exposure lo := by
  have hin : c.movedIn lo hi ≤ c.movedSince lo := by
    refine List.Sublist.sum_le_sum (List.Sublist.map _ ?_) fun _ _ => Nat.zero_le _
    refine List.monotone_filter_right _ fun m hm => ?_
    simp only [Bool.and_eq_true] at hm
    exact hm.1
  unfold exposure
  split
  · omega
  · exact hin

@[simp] theorem move_id (nowMs : Int) (bytes : Nat) (c : Carrying) :
    (c.move nowMs bytes).id = c.id := by
  unfold move
  split <;> rfl

@[simp] theorem move_peer (nowMs : Int) (bytes : Nat) (c : Carrying) :
    (c.move nowMs bytes).peer = c.peer := by
  unfold move
  split <;> rfl

@[simp] theorem move_live (nowMs : Int) (bytes : Nat) (c : Carrying) :
    (c.move nowMs bytes).live = c.live := by
  unfold move
  split <;> rfl

@[simp] theorem move_allowance (nowMs : Int) (bytes : Nat) (c : Carrying) :
    (c.move nowMs bytes).allowance = c.allowance := by
  unfold move
  split <;> rfl

@[simp] theorem move_admitted (nowMs : Int) (bytes : Nat) (c : Carrying) :
    (c.move nowMs bytes).admittedMs = c.admittedMs := by
  unfold move
  split <;> rfl

theorem move_within (h : c.moved ≤ c.allowance) (nowMs : Int) (bytes : Nat) :
    (c.move nowMs bytes).moved ≤ (c.move nowMs bytes).allowance := by
  rw [move_allowance]
  unfold move
  split
  · rename_i hfit
    simp only [Bool.and_eq_true, decide_eq_true_eq] at hfit
    simpa [moved] using hfit.2
  · exact h

/-- A closed carry does not move. -/
theorem move_closed (h : c.live = false) (nowMs : Int) (bytes : Nat) : c.move nowMs bytes = c := by
  unfold move
  rw [h, Bool.false_and, if_neg Bool.false_ne_true]

/-- What a move adds to a past span is nothing. -/
theorem move_movedIn (h : hi < nowMs) (bytes : Nat) :
    (c.move nowMs bytes).movedIn lo hi = c.movedIn lo hi := by
  unfold move
  split
  · have hout : ¬ nowMs ≤ hi := not_le.mpr h
    simp [movedIn, List.filter_append, hout]
  · rfl

theorem move_exposure (nowMs : Int) (bytes : Nat) (c : Carrying) :
    (c.move nowMs bytes).exposure lo ≤ c.exposure lo := by
  unfold move
  split
  · rename_i hfit
    simp only [Bool.and_eq_true, decide_eq_true_eq] at hfit
    have hsince : ({ c with moves := c.moves ++ [(nowMs, bytes)] } : Carrying).movedSince lo ≤
        c.movedSince lo + bytes := by
      unfold movedSince
      rw [List.filter_append, List.map_append, List.sum_append]
      refine Nat.add_le_add_left ?_ _
      rw [List.filter_cons]
      split <;> simp
    have hmoved : ({ c with moves := c.moves ++ [(nowMs, bytes)] } : Carrying).moved =
        c.moved + bytes := by
      simp [moved]
    unfold exposure
    rw [if_pos hfit.1, if_pos hfit.1, hmoved]
    simp only
    omega
  · exact le_rfl

theorem release_exposure (c : Carrying) : c.release.exposure lo ≤ c.exposure lo := by
  have hclosed : c.release.exposure lo = c.movedSince lo := rfl
  rw [hclosed]
  unfold exposure
  split
  · exact Nat.le_add_right _ _
  · exact le_rfl

end Carrying

namespace Gateway

open Carrying

variable {s : Gateway} {peer : PeerId} {capOf : PeerId → Nat}

theorem total_le_total {w w' : Carrying → Nat} (h : ∀ c ∈ s.carries, c.peer = peer → w c ≤ w' c) :
    s.total peer w ≤ s.total peer w' := by
  refine List.sum_le_sum fun c hc => ?_
  split
  · rename_i hp
    exact h c hc hp
  · exact le_rfl

theorem total_add (w w' : Carrying → Nat) (s : Gateway) :
    s.total peer (fun c => w c + w' c) = s.total peer w + s.total peer w' := by
  unfold total
  rw [← List.sum_map_add]
  congr 1
  refine List.map_congr_left fun c _ => ?_
  split
  · rfl
  · rfl

/-! ## The invariant -/

/-- The bytes of the hour's entries of a peer from an instant on. -/
def spentSince (b : TunnelBudget) (peer : PeerId) (floor : Int) : Nat :=
  ((b.spent.filter fun row => row.peer = peer && floor ≤ row.atMs).map SpentRow.bytes).sum

/-- The ledger mirrors the carries, and the peer's bytes are within the cap. -/
structure Sound (capOf : PeerId → Nat) (peer : PeerId) (s : Gateway) : Prop where
  ids : (s.carries.map Carrying.id).Nodup
  fresh : ∀ c ∈ s.carries, c.id < s.budget.nextOpen
  within : ∀ c ∈ s.carries, c.moved ≤ c.allowance
  past : ∀ c ∈ s.carries, c.admittedMs ≤ s.nowMs
  reserved : s.budget.opened =
    (s.carries.filter Carrying.live).map fun c => ⟨c.id, c.peer, c.allowance⟩
  charged : ∀ floor, s.nowMs - budgetWindowMs ≤ floor →
    s.total peer (Carrying.booked floor) ≤ spentSince s.budget peer floor
  booked : s.budget.spentBy peer + s.budget.reservedBy peer ≤ capOf peer
  exposed : ∀ lo, s.nowMs - budgetWindowMs ≤ lo → s.total peer (exposure lo) ≤ capOf peer
  kept : ∀ lo, s.total peer (movedIn lo (lo + budgetWindowMs)) ≤ capOf peer

/-- The peer is admitted only while every byte a released carry of its has moved inside the window
was booked inside it, and a release charges what was moved; ids have not run out. -/
def Accounts (peer : PeerId) (s : Gateway) : CarryAct → Prop
  | .admitCarry other => s.budget.nextOpen < u64Max ∧ (other = peer →
      ∀ c ∈ s.carries, c.peer = peer → c.live = false →
        c.movedSince (s.nowMs - budgetWindowMs) = 0 ∨ s.nowMs - budgetWindowMs ≤ c.admittedMs)
  | .release carryId finished => ∀ c ∈ s.carries, c.id = carryId → c.live = true →
      finished = true ∨ c.moved = 0
  | _ => True

/-- Trimming takes nothing inside the window away. -/
theorem spentSince_trim {b : TunnelBudget} {nowMs floor : Int} (h : nowMs - budgetWindowMs ≤ floor) :
    spentSince (b.trim nowMs) peer floor = spentSince b peer floor := by
  unfold spentSince TunnelBudget.trim
  rw [Lib.filter_dropWhile]
  intro row hrow
  simp only [Bool.and_eq_true, decide_eq_true_eq] at hrow
  exact decide_eq_false (not_lt.mpr (h.trans hrow.2))

theorem spentSince_charge {b : TunnelBudget} {other : PeerId} {bytes : Nat} {nowMs floor : Int}
    (h : nowMs - budgetWindowMs ≤ floor) : spentSince (b.charge other bytes nowMs) peer floor =
      spentSince b peer floor + if other = peer ∧ floor ≤ nowMs then bytes else 0 := by
  rw [← spentSince_trim h (b := b)]
  unfold spentSince TunnelBudget.charge
  simp only
  rw [List.filter_append, List.map_append, List.sum_append, List.filter_cons]
  congr 1
  split
  · rename_i hrow
    rw [if_pos (by simpa using hrow)]
    simp
  · rename_i hrow
    rw [if_neg (by simpa using hrow)]
    simp

theorem spentSince_le_spentBy (b : TunnelBudget) (peer : PeerId) (floor : Int) :
    spentSince b peer floor ≤ b.spentBy peer := by
  refine List.Sublist.sum_le_sum (List.Sublist.map _ ?_) fun _ _ => Nat.zero_le _
  refine List.monotone_filter_right _ fun row hrow => ?_
  simp only [Bool.and_eq_true] at hrow
  exact hrow.1

/-- What is reserved for a peer is what its open carries hold. -/
theorem reservedBy_eq (h : s.budget.opened =
    (s.carries.filter Carrying.live).map fun c => ⟨c.id, c.peer, c.allowance⟩) :
    s.budget.reservedBy peer = s.total peer held := by
  unfold TunnelBudget.reservedBy total
  rw [h]
  generalize s.carries = carries
  induction carries with
  | nil => rfl
  | cons c cs ih =>
    rw [List.map_cons, List.sum_cons, ← ih, List.filter_cons]
    by_cases hl : c.live = true <;> by_cases hp : c.peer = peer <;> simp [hl, hp, held]

/-- A past window keeps its bytes, a current one is covered by what is exposed. -/
theorem kept_of_exposed (h : s.Sound capOf peer) {s' : Gateway} (hnow : s'.nowMs = s.nowMs)
    (hexposed : ∀ lo, s'.nowMs - budgetWindowMs ≤ lo → s'.total peer (exposure lo) ≤ capOf peer)
    (hpast : ∀ lo, lo + budgetWindowMs < s.nowMs →
      s'.total peer (movedIn lo (lo + budgetWindowMs)) =
        s.total peer (movedIn lo (lo + budgetWindowMs))) :
    ∀ lo, s'.total peer (movedIn lo (lo + budgetWindowMs)) ≤ capOf peer := by
  intro lo
  by_cases hlo : lo + budgetWindowMs < s.nowMs
  · rw [hpast lo hlo]
    exact h.kept lo
  · exact (total_le_total fun c _ _ => movedIn_le_exposure _ _ c).trans
      (hexposed lo (by rw [hnow]; omega))

theorem sound_start (capOf : PeerId → Nat) (peer : PeerId) (nowMs : Int) :
    (start nowMs).Sound capOf peer where
  ids := List.nodup_nil
  fresh := by simp [start]
  within := by simp [start]
  past := by simp [start]
  reserved := rfl
  charged _ _ := Nat.zero_le _
  booked := Nat.zero_le _
  exposed _ _ := Nat.zero_le _
  kept _ := Nat.zero_le _

theorem sound_tick (h : s.Sound capOf peer) (ms : Nat) :
    (s.step capOf (.tick ms)).Sound capOf peer where
  ids := h.ids
  fresh := h.fresh
  within := h.within
  past c hc := (h.past c hc).trans (by simp [step])
  reserved := h.reserved
  charged floor hf := h.charged floor (by simp only [step] at hf; omega)
  booked := h.booked
  exposed lo hl := h.exposed lo (by simp only [step] at hl; omega)
  kept := h.kept

theorem total_edit (id : Nat) (f : Carrying → Carrying) (hp : ∀ c, (f c).peer = c.peer)
    (w : Carrying → Nat) (hw : ∀ c ∈ s.carries, c.peer = peer → w (f c) = w c) :
    Gateway.total peer w { s with carries := Lib.editKey Carrying.id id f s.carries } =
      s.total peer w := by
  refine Lib.sum_editKey_eq fun c hc _ => ?_
  rw [hp c]
  split
  · rename_i hcp
    exact hw c hc hcp
  · rfl

theorem total_edit_le (id : Nat) (f : Carrying → Carrying) (hp : ∀ c, (f c).peer = c.peer)
    (w : Carrying → Nat) (hw : ∀ c, w (f c) ≤ w c) :
    Gateway.total peer w { s with carries := Lib.editKey Carrying.id id f s.carries } ≤
      s.total peer w := by
  refine Lib.sum_editKey_le fun c _ _ => ?_
  rw [hp c]
  split
  · exact hw c
  · exact le_rfl

theorem sound_move (h : s.Sound capOf peer) (id bytes : Nat) :
    (s.step capOf (.move id bytes)).Sound capOf peer := by
  have hexposed : ∀ lo, s.nowMs - budgetWindowMs ≤ lo →
      (s.step capOf (.move id bytes)).total peer (exposure lo) ≤ capOf peer := fun lo hlo =>
    (total_edit_le id _ (move_peer _ _) _ fun c => move_exposure _ _ c).trans (h.exposed lo hlo)
  refine ⟨?_, ?_, ?_, ?_, ?_, ?_, h.booked, hexposed, kept_of_exposed h rfl hexposed ?_⟩
  · simpa only [step, Lib.map_key_editKey (move_id s.nowMs bytes)] using h.ids
  · intro c hc
    obtain ⟨c', hc', rfl⟩ := Lib.mem_editKey.mp hc
    have := h.fresh c' hc'
    split
    · rwa [move_id]
    · exact this
  · intro c hc
    obtain ⟨c', hc', rfl⟩ := Lib.mem_editKey.mp hc
    split
    · exact move_within (h.within c' hc') _ _
    · exact h.within c' hc'
  · intro c hc
    obtain ⟨c', hc', rfl⟩ := Lib.mem_editKey.mp hc
    split
    · rw [move_admitted]
      exact h.past c' hc'
    · exact h.past c' hc'
  · have hlive : ∀ carries : List Carrying,
        ((Lib.editKey Carrying.id id (Carrying.move s.nowMs bytes) carries).filter
          Carrying.live).map (fun c => (⟨c.id, c.peer, c.allowance⟩ : OpenRow)) =
        (carries.filter Carrying.live).map fun c => ⟨c.id, c.peer, c.allowance⟩ := by
      intro carries
      induction carries with
      | nil => rfl
      | cons c cs ih =>
        unfold Lib.editKey at ih ⊢
        rw [List.map_cons, List.filter_cons, List.filter_cons]
        by_cases hid : c.id = id <;> by_cases hl : c.live = true <;> simp [hid, hl, ih]
    exact h.reserved.trans (hlive s.carries).symm
  · intro floor hfloor
    refine (le_of_eq ?_).trans (h.charged floor hfloor)
    refine total_edit id _ (move_peer _ _) _ fun c _ _ => ?_
    by_cases hl : c.live = true
    · simp [Carrying.booked, hl]
    · rw [move_closed (by simpa using hl)]
  · intro lo hlo
    exact total_edit id _ (move_peer _ _) _ fun c _ _ => move_movedIn hlo bytes

/-- Closing a carry drops its row. -/
theorem opened_release (id : Nat) (carries : List Carrying) :
    (((carries.filter Carrying.live).map fun c => (⟨c.id, c.peer, c.allowance⟩ : OpenRow)).filter
      fun row => row.id ≠ id) =
    ((Lib.editKey Carrying.id id Carrying.release carries).filter Carrying.live).map fun c =>
      ⟨c.id, c.peer, c.allowance⟩ := by
  induction carries with
  | nil => rfl
  | cons c cs ih =>
    unfold Lib.editKey at ih ⊢
    rw [List.map_cons, List.filter_cons, @List.filter_cons _ _ (List.map _ cs)]
    by_cases hid : c.id = id <;> by_cases hl : c.live = true <;>
      simp [hid, hl, Carrying.release] at ih ⊢ <;> exact ih

theorem spentBy_trim_le (b : TunnelBudget) (peer : PeerId) (nowMs : Int) :
    (b.trim nowMs).spentBy peer ≤ b.spentBy peer :=
  (((List.dropWhile_sublist _).filter _).map _).sum_le_sum fun _ _ => Nat.zero_le _

theorem spentBy_charge_le (b : TunnelBudget) (peer other : PeerId) (bytes : Nat) (nowMs : Int) :
    (b.charge other bytes nowMs).spentBy peer ≤
      b.spentBy peer + if other = peer then bytes else 0 := by
  have htrim := spentBy_trim_le b peer nowMs
  unfold TunnelBudget.spentBy at htrim ⊢
  simp only [TunnelBudget.charge]
  rw [List.filter_append, List.map_append, List.sum_append, List.filter_cons]
  refine Nat.add_le_add htrim ?_
  by_cases hp : other = peer <;> simp [hp]

/-- The gateway once a carry is closed and its bytes are charged. -/
def closed (s : Gateway) (c : Carrying) : Gateway :=
  { s with
    budget := s.budget.close c.id c.peer c.moved c.admittedMs
    carries := Lib.editKey Carrying.id c.id Carrying.release s.carries }

section closed

variable {c : Carrying}

/-- A release that charges what was moved closes its carry. -/
theorem step_release {id : Nat} {finished : Bool} (hok : s.Accounts peer (.release id finished))
    (hin : c ∈ s.carries) (hid : c.id = id) (hlive : c.live = true)
    (hfind : s.liveCarry id = some c) :
    s.step capOf (.release id finished) = s.closed c := by
  have hcharge : (if finished = true then c.moved else 0) = c.moved := by
    split
    · rfl
    · rename_i hf
      exact ((hok c hin hid hlive).resolve_left hf).symm
  subst hid
  simp only [step, hfind, hcharge, closed]

theorem total_closed (h : s.Sound capOf peer) (hin : c ∈ s.carries) (w : Carrying → Nat) :
    (s.closed c).total peer w + (if c.peer = peer then w c else 0) =
      s.total peer w + if c.peer = peer then w c.release else 0 :=
  Lib.sum_editKey (f := Carrying.release)
    (w := fun d : Carrying => if d.peer = peer then w d else 0) h.ids hin rfl

theorem reserved_closed (h : s.Sound capOf peer) : (s.closed c).budget.opened =
    ((s.closed c).carries.filter Carrying.live).map fun c => ⟨c.id, c.peer, c.allowance⟩ := by
  unfold closed
  rw [← opened_release, ← h.reserved]
  rfl

/-- The bytes are charged at the instant the carry was admitted. -/
theorem charged_closed (h : s.Sound capOf peer) (hin : c ∈ s.carries) (hlive : c.live = true)
    {floor : Int} (hfloor : s.nowMs - budgetWindowMs ≤ floor) :
    (s.closed c).total peer (Carrying.booked floor) ≤
      spentSince (s.closed c).budget peer floor := by
  have hold := h.charged floor hfloor
  have hnew := total_closed h hin (Carrying.booked floor)
  have hpast := h.past c hin
  have hopen : Carrying.booked floor c = 0 := by simp [Carrying.booked, hlive]
  have hclosed : Carrying.booked floor c.release =
      if floor ≤ c.admittedMs then c.moved else 0 := by
    simp [Carrying.booked, Carrying.release, Carrying.moved]
  have hspent : spentSince (s.closed c).budget peer floor =
      spentSince s.budget peer floor +
        if c.peer = peer ∧ floor ≤ c.admittedMs then c.moved else 0 :=
    spentSince_charge (b := { s.budget with
      opened := s.budget.opened.filter fun row => row.id ≠ c.id }) (by omega)
  rw [hopen, hclosed] at hnew
  rw [hspent]
  by_cases hp : c.peer = peer
  · rw [if_pos hp, if_pos hp] at hnew
    simp only [hp, true_and]
    omega
  · rw [if_neg hp, if_neg hp] at hnew
    simp only [hp, false_and, if_false]
    omega

/-- What the carry moved is within the slice it gives back. -/
theorem booked_closed (h : s.Sound capOf peer) (hin : c ∈ s.carries) (hlive : c.live = true) :
    (s.closed c).budget.spentBy peer + (s.closed c).budget.reservedBy peer ≤ capOf peer := by
  have hcap := h.booked
  have hwithin := h.within c hin
  have hheld := total_closed h hin held
  have hopen : held c = c.allowance := by simp [held, hlive]
  have hclosed : held c.release = 0 := rfl
  have hspent : (s.closed c).budget.spentBy peer ≤
      s.budget.spentBy peer + if c.peer = peer then c.moved else 0 :=
    spentBy_charge_le { s.budget with
      opened := s.budget.opened.filter fun row => row.id ≠ c.id } peer c.peer c.moved c.admittedMs
  rw [reservedBy_eq h.reserved] at hcap
  rw [hopen, hclosed] at hheld
  rw [reservedBy_eq (reserved_closed h)]
  by_cases hp : c.peer = peer
  · rw [if_pos hp, if_pos hp] at hheld
    rw [if_pos hp] at hspent
    omega
  · rw [if_neg hp, if_neg hp] at hheld
    rw [if_neg hp] at hspent
    omega

theorem sound_closed (h : s.Sound capOf peer) (hin : c ∈ s.carries) (hlive : c.live = true) :
    (s.closed c).Sound capOf peer := by
  have hexposed : ∀ lo, s.nowMs - budgetWindowMs ≤ lo →
      (s.closed c).total peer (exposure lo) ≤ capOf peer := fun lo hlo =>
    (total_edit_le c.id Carrying.release (fun _ => rfl) (exposure lo)
      fun c => release_exposure c).trans (h.exposed lo hlo)
  refine ⟨?_, ?_, ?_, ?_, reserved_closed h, fun floor => charged_closed h hin hlive,
    booked_closed h hin hlive, hexposed, kept_of_exposed h rfl hexposed ?_⟩
  · have hids : (s.closed c).carries.map Carrying.id = s.carries.map Carrying.id :=
      Lib.map_key_editKey (f := Carrying.release) (fun _ => rfl) _
    exact hids.symm ▸ h.ids
  · intro d hd
    obtain ⟨d', hd', rfl⟩ := Lib.mem_editKey.mp hd
    have := h.fresh d' hd'
    split <;> exact this
  · intro d hd
    obtain ⟨d', hd', rfl⟩ := Lib.mem_editKey.mp hd
    have := h.within d' hd'
    split <;> exact this
  · intro d hd
    obtain ⟨d', hd', rfl⟩ := Lib.mem_editKey.mp hd
    have := h.past d' hd'
    split <;> exact this
  · intro lo _
    exact total_edit c.id Carrying.release (fun _ => rfl) (movedIn lo (lo + budgetWindowMs))
      fun _ _ _ => rfl

end closed

theorem sound_release (h : s.Sound capOf peer) {id : Nat} {finished : Bool}
    (hok : s.Accounts peer (.release id finished)) :
    (s.step capOf (.release id finished)).Sound capOf peer := by
  cases hfind : s.liveCarry id with
  | none =>
    simp only [step, hfind]
    exact h
  | some c =>
    have hin : c ∈ s.carries := List.mem_of_find?_eq_some hfind
    have hc := List.find?_some hfind
    simp only [Bool.and_eq_true, decide_eq_true_eq] at hc
    obtain ⟨hid, hlive⟩ := hc
    rw [step_release hok hin hid hlive hfind]
    exact sound_closed h hin hlive

/-- A trim of the ledger keeps its account. -/
theorem sound_trim (h : s.Sound capOf peer) :
    Sound capOf peer { s with budget := s.budget.trim s.nowMs } where
  ids := h.ids
  fresh := h.fresh
  within := h.within
  past := h.past
  reserved := h.reserved
  charged floor hfloor := by
    rw [spentSince_trim hfloor]
    exact h.charged floor hfloor
  booked := (Nat.add_le_add_right (spentBy_trim_le _ _ _) _).trans h.booked
  exposed := h.exposed
  kept := h.kept

/-- What the peer has moved inside the window, or may still move, is spent or reserved. -/
theorem exposed_le_held (h : s.Sound capOf peer)
    (hok : ∀ c ∈ s.carries, c.peer = peer → c.live = false →
      c.movedSince (s.nowMs - budgetWindowMs) = 0 ∨ s.nowMs - budgetWindowMs ≤ c.admittedMs)
    {lo : Int} (hlo : s.nowMs - budgetWindowMs ≤ lo) :
    s.total peer (exposure lo) ≤ s.budget.spentBy peer + s.budget.reservedBy peer := by
  have hweight : ∀ c ∈ s.carries, c.peer = peer →
      exposure lo c ≤ Carrying.booked (s.nowMs - budgetWindowMs) c + held c := by
    intro c hc hp
    have hall := movedSince_le_moved lo c
    have hmoved := h.within c hc
    by_cases hl : c.live = true
    · rw [exposure, held, if_pos hl, if_pos hl]
      omega
    · have hclosed : c.live = false := by simpa using hl
      rw [exposure, held, if_neg hl, if_neg hl, Carrying.booked]
      rcases hok c hc hp hclosed with hzero | hin
      · have hanti := movedSince_anti hlo c
        omega
      · rw [if_pos ⟨hclosed, hin⟩]
        omega
  calc s.total peer (exposure lo)
      ≤ s.total peer (fun c => Carrying.booked (s.nowMs - budgetWindowMs) c + held c) :=
        total_le_total hweight
    _ = s.total peer (Carrying.booked (s.nowMs - budgetWindowMs)) + s.total peer held :=
        total_add _ _ s
    _ ≤ s.budget.spentBy peer + s.budget.reservedBy peer := by
        rw [reservedBy_eq h.reserved]
        exact Nat.add_le_add_right
          ((h.charged _ le_rfl).trans (spentSince_le_spentBy _ _ _)) _

/-- A carry with its slice, at the instant it is admitted. -/
def newCarry (s : Gateway) (other : PeerId) (allowance : Nat) : Carrying :=
  { id := s.budget.nextOpen, peer := other, allowance, admittedMs := s.nowMs }

/-- The gateway once the ledger has given a carry its slice. -/
def carried (s : Gateway) (other : PeerId) (allowance : Nat) : Gateway :=
  { s with
    budget := { s.budget with
      opened := s.budget.opened ++ [⟨s.budget.nextOpen, other, allowance⟩]
      nextOpen := min (s.budget.nextOpen + 1) u64Max }
    carries := s.carries ++ [s.newCarry other allowance] }

section carried

variable {other : PeerId} {allowance : Nat}

theorem newCarry_exposure (lo : Int) : exposure lo (s.newCarry other allowance) = allowance := by
  simp [newCarry, exposure, movedSince, moved]

theorem total_carried (w : Carrying → Nat) : (s.carried other allowance).total peer w =
    s.total peer w + if other = peer then w (s.newCarry other allowance) else 0 := by
  simp [total, carried, newCarry]

/-- A new carry has moved nothing and is not charged yet. -/
theorem total_carried_zero {w : Carrying → Nat} (hw : w (s.newCarry other allowance) = 0) :
    (s.carried other allowance).total peer w = s.total peer w := by
  rw [total_carried, hw, ite_self, Nat.add_zero]

theorem mem_carried {P : Carrying → Prop} (hold : ∀ c ∈ s.carries, P c)
    (hnew : P (s.newCarry other allowance)) : ∀ c ∈ (s.carried other allowance).carries, P c := by
  intro c hc
  rcases List.mem_append.mp hc with hc | hc
  · exact hold c hc
  · rw [List.mem_singleton.mp hc]
    exact hnew

theorem reservedBy_carried : (s.carried other allowance).budget.reservedBy peer =
    s.budget.reservedBy peer + if other = peer then allowance else 0 := by
  unfold TunnelBudget.reservedBy carried
  rw [List.filter_append, List.map_append, List.sum_append]
  by_cases hp : other = peer <;> simp [hp]

theorem booked_carried (h : s.Sound capOf peer) (hheld : other = peer →
      s.budget.spentBy peer + s.budget.reservedBy peer + allowance ≤ capOf peer) :
    (s.carried other allowance).budget.spentBy peer +
      (s.carried other allowance).budget.reservedBy peer ≤ capOf peer := by
  have hcap := h.booked
  have hsame : (s.carried other allowance).budget.spentBy peer = s.budget.spentBy peer := rfl
  rw [reservedBy_carried, hsame]
  split
  · rename_i hp
    have := hheld hp
    omega
  · omega

theorem sound_carry (h : s.Sound capOf peer) (hids : s.budget.nextOpen < u64Max)
    (hroom : other = peer → ∀ lo, s.nowMs - budgetWindowMs ≤ lo →
      s.total peer (exposure lo) + allowance ≤ capOf peer)
    (hheld : other = peer →
      s.budget.spentBy peer + s.budget.reservedBy peer + allowance ≤ capOf peer) :
    (s.carried other allowance).Sound capOf peer := by
  have hnext : (s.carried other allowance).budget.nextOpen = s.budget.nextOpen + 1 :=
    min_eq_left hids
  refine ⟨?_, ?_, mem_carried h.within (Nat.zero_le _), mem_carried h.past le_rfl, ?_, ?_,
    booked_carried h hheld, ?_, ?_⟩
  · unfold carried
    rw [List.map_append, List.nodup_append]
    refine ⟨h.ids, by simp, ?_⟩
    intro a ha b hb hab
    obtain ⟨c, hc, rfl⟩ := List.mem_map.mp ha
    have hlt := h.fresh c hc
    rw [hab, List.mem_singleton.mp hb] at hlt
    exact lt_irrefl _ hlt
  · rw [hnext]
    exact mem_carried (fun c hc => (h.fresh c hc).trans (Nat.lt_succ_self _))
      (Nat.lt_succ_self _)
  · simp only [carried, h.reserved, List.filter_append, List.map_append]
    rfl
  · intro floor hfloor
    rw [total_carried_zero rfl]
    exact h.charged floor hfloor
  · intro lo hlo
    rw [total_carried, newCarry_exposure]
    split
    · rename_i hp
      exact hroom hp lo hlo
    · exact h.exposed lo hlo
  · intro lo
    rw [total_carried_zero rfl]
    exact h.kept lo

end carried

theorem sound_admitted (h : s.Sound capOf peer) (hcap : capOf peer ≤ u64Max) {other : PeerId}
    (hok : s.Accounts peer (.admitCarry other)) :
    (s.step capOf (.admitCarry other)).Sound capOf peer := by
  have htrim := sound_trim h
  simp only [step, TunnelBudget.admitCarry]
  split
  · simpa using htrim
  · rename_i hroom
    have hfits : other = peer →
        (s.budget.trim s.nowMs).spentBy peer + (s.budget.trim s.nowMs).reservedBy peer +
          min (capOf other - min ((s.budget.trim s.nowMs).spentBy other +
            (s.budget.trim s.nowMs).reservedBy other) u64Max) (TunnelBudget.slice (capOf other)) ≤
          capOf peer := by
      rintro rfl
      have hbooked : (s.budget.trim s.nowMs).spentBy other +
          (s.budget.trim s.nowMs).reservedBy other ≤ capOf other := htrim.booked
      rw [min_eq_left (hbooked.trans hcap)]
      omega
    refine sound_carry htrim hok.1 (fun hp lo hlo => ?_) hfits
    exact (Nat.add_le_add_right (exposed_le_held htrim (hok.2 hp) hlo) _).trans (hfits hp)

/-- Every event keeps the account. -/
theorem sound_step (h : s.Sound capOf peer) (hcap : capOf peer ≤ u64Max) {act : CarryAct}
    (hok : s.Accounts peer act) : (s.step capOf act).Sound capOf peer := by
  cases act with
  | tick ms => exact sound_tick h ms
  | admitCarry other => exact sound_admitted h hcap hok
  | move carryId bytes => exact sound_move h carryId bytes
  | release carryId finished => exact sound_release h hok

end Gateway

/-- In every run that books a peer's bytes where they moved, the bytes its carries move inside any
span of one window stay within the cap. -/
theorem carried_within_cap (capOf : PeerId → Nat) (peer : PeerId) (nowMs : Int)
    (acts : List CarryAct) (hcap : capOf peer ≤ u64Max)
    (hok : Lib.EachStep (Gateway.step capOf) (Gateway.Accounts peer) (.start nowMs) acts) :
    ∀ pre, pre <+: acts → ∀ lo,
      (Lib.exec (Gateway.step capOf) (.start nowMs) pre).total peer
        (Carrying.movedIn lo (lo + budgetWindowMs)) ≤ capOf peer := by
  intro pre hpre
  exact (Lib.exec_invariant (I := Gateway.Sound capOf peer)
    (fun s act hs ha => Gateway.sound_step hs hcap ha) (Gateway.sound_start capOf peer nowMs)
    hok pre hpre).kept

/-- A carry moves its slice and closes, and a second one moves what is left of its own. -/
def twoCarries : List CarryAct :=
  [.admitCarry 7, .move 0 2, .release 0 true, .tick 1000, .admitCarry 7, .move 1 2]

theorem two_carries_within :
    (Lib.exec (Gateway.step fun _ => 8) (.start 0) twoCarries).total 7
      (Carrying.movedIn 0 budgetWindowMs) ≤ 8 := by
  refine carried_within_cap (fun _ => 8) 7 0 twoCarries (by decide) ?_ _ (List.prefix_refl _) 0
  simp only [twoCarries, Lib.each_step_cons]
  refine ⟨⟨by decide, fun _ => by decide +kernel⟩, trivial, ?_, trivial,
    ⟨by decide, fun _ => by decide +kernel⟩, trivial, Lib.each_step_nil⟩
  intro _ _ _ _
  exact .inl rfl

/-- Four carries move their slices just before the hour rolls and close just after it: they are
charged to the hour they were admitted in, and four more move the whole cap again. -/
def lateMoves : List CarryAct :=
  [.admitCarry 7, .admitCarry 7, .admitCarry 7, .admitCarry 7, .tick 3600000,
    .move 0 2, .move 1 2, .move 2 2, .move 3 2,
    .tick 1, .release 0 true, .release 1 true, .release 2 true, .release 3 true,
    .admitCarry 7, .admitCarry 7, .admitCarry 7, .admitCarry 7,
    .move 4 2, .move 5 2, .move 6 2, .move 7 2]

theorem late_moves_exceed_cap :
    (Lib.exec (Gateway.step fun _ => 8) (.start 0) lateMoves).total 7
      (Carrying.movedIn 3600000 (3600000 + budgetWindowMs)) = 16 := by
  decide +kernel

end TeamClaude
