import TeamClaude.Manager.Pins
import TeamClaude.Manager.Refused
import TeamClaude.Manager.Ticks
import Mathlib.Data.List.Chain

/-!
# Divert episodes

A call that keeps the session's pin while another account serves records the destination in the
ledger, under the pin and the deadline it computed for it. The first destination recorded is the one
every later divert under that pin and deadline is offered, as long as the mask of destinations has a
bit for it.
-/

namespace TeamClaude

namespace Manager

/-! ## The divert of a call -/

/-- The pin a selection keeps while another account serves. -/
def selectKept (m : Manager) (r : Request) : Option Kept :=
  match m.lockedAccountFor r.provider with
  | some _ => none
  | none =>
    match m.affinityFastPath r with
    | .served _ _ => none
    | .fall kept => kept

/-- The pin a revalidation keeps while another account serves. -/
def fallbackKept (m : Manager) (r : Request) : Option Kept :=
  match m.pinHonor r with
  | some _ => none
  | none => m.revalidationKept r

/-- The pin and deadline the divert of a call is recorded under. -/
def divertOf (m : Manager) (c : Call) : Option Kept :=
  match c with
  | .select _ _ => (m.swept c).selectKept (m.screened c)
  | .revalidate _ _ => (m.swept c).fallbackKept (m.screened c)

/-- The account passes the gate that the call's kind asks of a destination. -/
def passesDoor (m : Manager) (c : Call) (idx : Nat) : Bool :=
  !decide (idx ∈ (m.live c).unsupportedFor c.request.provider) &&
    ((m.live c).account idx).any fun a =>
      match c with
      | .select _ r =>
        a.eligible ((m.live c).gates r) true ((m.live c).strictGroup r.group) r.group
      | .revalidate _ r => (m.live c).revalidationOk r a

/-- The spacing between fallback serves refuses the call. -/
def throttled (m : Manager) (c : Call) : Bool :=
  match c with
  | .select _ _ => false
  | .revalidate _ r => decide (r.nowMs < m.nextRevalidationAt r.provider)

/-! ## The ledger -/

section Ledger

variable {m : Manager} {r : Request} {key : Key} {kept : Kept} {dest : Nat}

def InMask (dest : Nat) : Prop := dest % 2 ^ 32 < 64

theorem record_divert_get : (m.recordDivert key kept dest).divertLedger.get key =
    if 64 ≤ dest % 2 ^ 32 then m.divertLedger.get key
    else some (divertEpisode (m.divertLedger.get key) kept.pin kept.untilMs dest) := by
  unfold recordDivert
  split
  · rfl
  · exact CappedMap.get_insert_self _ _ _

/-- The episode recorded for the session offers this destination for the pin and deadline. -/
def Offers (ledger : Option DivertEpisode) (kept : Kept) (dest : Nat) : Prop :=
  ∃ e, ledger = some e ∧ e.pin = kept.pin ∧ e.untilMs = kept.untilMs ∧ e.sticky = dest ∧
    e.destinations ≠ 0

theorem or_shift_ne_zero (mask dest : Nat) : mask ||| (1 <<< dest) ≠ 0 := by
  intro h
  have hbit : (mask ||| (1 <<< dest)).testBit dest = true := by simp
  rw [h] at hbit
  simp at hbit

/-- The first destination of an episode is the one it offers. -/
theorem offers_first {ledger : Option DivertEpisode}
    (hfresh : ∀ e, ledger = some e → e.pin = kept.pin → e.untilMs ≠ kept.untilMs) :
    Offers (some (divertEpisode ledger kept.pin kept.untilMs dest)) kept dest := by
  have hentry : divertEpisode ledger kept.pin kept.untilMs dest =
      { pin := kept.pin, untilMs := kept.untilMs, sticky := dest,
        destinations := 0 ||| (1 <<< (dest % 2 ^ 32)) } := by
    unfold divertEpisode
    cases ledger with
    | none => rfl
    | some e =>
      have hstale : e.pin ≠ kept.pin ∨ e.untilMs ≠ kept.untilMs := by
        by_cases hp : e.pin = kept.pin
        · exact Or.inr (hfresh e rfl hp)
        · exact Or.inl hp
      simp only [if_pos hstale, if_true]
  rw [hentry]
  exact ⟨_, rfl, rfl, rfl, rfl, or_shift_ne_zero _ _⟩

/-- A later destination of the episode does not replace the first. -/
theorem Offers.later {ledger : Option DivertEpisode} (h : Offers ledger kept dest) (other : Nat) :
    Offers (some (divertEpisode ledger kept.pin kept.untilMs other)) kept dest := by
  obtain ⟨e, rfl, hpin, huntil, hsticky, hmask⟩ := h
  have hentry : divertEpisode (some e) kept.pin kept.untilMs other =
      { e with destinations := e.destinations ||| (1 <<< (other % 2 ^ 32)) } := by
    simp [divertEpisode, hpin, huntil, hmask]
  rw [hentry]
  exact ⟨_, rfl, hpin, huntil, hsticky, or_shift_ne_zero _ _⟩

theorem Offers.record (h : Offers (m.divertLedger.get key) kept dest) (other : Nat) :
    Offers ((m.recordDivert key kept other).divertLedger.get key) kept dest := by
  rw [record_divert_get]
  split
  · exact h
  · exact h.later other

theorem Offers.verdict {ledger : Option DivertEpisode} (h : Offers ledger kept dest) :
    divertVerdict ledger kept.pin kept.untilMs 0 = .sticky dest := by
  obtain ⟨e, rfl, hpin, huntil, rfl, -⟩ := h
  have hfilter : (some e).filter (fun e => decide (e.pin = kept.pin) &&
      decide (e.untilMs = kept.untilMs)) = some e := by
    simp [Option.filter_some, hpin, huntil]
  simp [divertVerdict, hfilter]

end Ledger

/-! ## One call -/

section Call

variable {m : Manager} {r : Request} {key : Key} {kept : Kept} {dest : Nat}

theorem settle_conn_divert_ledger (idx : Nat) :
    (m.settleConn r idx).divertLedger = m.divertLedger := by
  unfold settleConn
  split
  · rfl
  · rfl

theorem overlay_divert_ledger {idx : Nat} {m' : Manager} (h : m.overlay r = some (idx, m')) :
    m'.divertLedger = m.divertLedger := by
  rcases overlay_cases h with ⟨-, k, -, rfl⟩ | ⟨-, -, rfl⟩
  · rfl
  · rfl

/-- A selection that keeps no pin for a divert leaves the ledger alone. -/
theorem select_ledger_same (h : m.selectKept r = none) :
    (m.selectCore r).2.divertLedger = m.divertLedger := by
  unfold selectKept at h
  unfold selectCore
  cases hl : m.lockedAccountFor r.provider with
  | some idx => rfl
  | none =>
    simp only [hl] at h ⊢
    cases hf : m.affinityFastPath r with
    | served idx m' =>
      obtain ⟨key, pin, target, -, -, -, -, rfl⟩ := served_cases hf
      rfl
    | fall kept =>
      simp only [hf] at h ⊢
      subst h
      simp only [selectOffPin]
      cases ho : m.overlay r with
      | some served => exact overlay_divert_ledger ho
      | none =>
        cases m.poolPick r with
        | none => rfl
        | some idx =>
          simp only [settle, settle_conn_divert_ledger]
          unfold settlePin
          cases r.affinity with
          | none => rfl
          | some key => rfl

/-- A selection with a kept pin falls through to the sticky offer and the pool. -/
theorem select_core_kept (h : m.selectKept r = some kept) :
    m.selectCore r = m.settle r (some kept) ((m.stickyPick r kept).or (m.poolPick r)) := by
  unfold selectKept at h
  unfold selectCore
  cases hl : m.lockedAccountFor r.provider with
  | some idx =>
    simp only [hl] at h
    cases h
  | none =>
    simp only [hl] at h ⊢
    cases hf : m.affinityFastPath r with
    | served idx m' =>
      simp only [hf] at h
      cases h
    | fall kept =>
      simp only [hf] at h ⊢
      rw [h]
      rfl

theorem settle_ledger_kept (hk : r.affinity = some key) :
    (m.settle r (some kept) (some dest)).2.divertLedger.get key =
      (m.recordDivert key kept dest).divertLedger.get key := by
  simp only [settle, settle_conn_divert_ledger, settlePin, hk]
  show ((m.stamp dest).recordDivert key kept dest).divertLedger.get key = _
  rw [record_divert_get, record_divert_get]
  rfl

/-- The destination the episode offers is picked ahead of the pool. -/
theorem select_offered (hkept : m.selectKept r = some kept) (hk : r.affinity = some key)
    (ho : Offers (m.divertLedger.get key) kept dest) (ht : dest ∉ r.tried)
    (he : ((m.account dest).any fun a =>
      a.eligible (m.gates r) true (m.strictGroup r.group) r.group) = true) :
    (m.selectCore r).1 = some dest := by
  have hsticky : m.stickyPick r kept = some dest := by
    unfold stickyPick
    rw [hk, Option.bind_some, ho.verdict]
    simp [ht, he]
  rw [select_core_kept hkept, hsticky, Option.some_or]
  rfl

theorem spend_revalidation_divert_ledger (provider : Provider) (nowMs : Int) :
    (m.spendRevalidation provider nowMs).divertLedger = m.divertLedger := by
  cases provider <;> rfl

/-- A revalidation that keeps no pin for a divert leaves the ledger alone. -/
theorem revalidation_ledger_same (h : m.fallbackKept r = none) :
    (m.revalidationCore r).2.divertLedger = m.divertLedger := by
  unfold fallbackKept at h
  unfold revalidationCore
  cases hp : m.pinHonor r with
  | some idx => rfl
  | none =>
    simp only [hp] at h ⊢
    rw [h]
    unfold revalidationFallback
    split
    · rfl
    · split
      · rfl
      · unfold settleRevalidation
        cases r.affinity with
        | none => exact spend_revalidation_divert_ledger _ _
        | some key => exact spend_revalidation_divert_ledger _ _

theorem revalidation_core_kept (h : m.fallbackKept r = some kept) :
    m.revalidationCore r = m.revalidationFallback r (some kept) := by
  unfold fallbackKept at h
  unfold revalidationCore
  cases hp : m.pinHonor r with
  | some idx =>
    simp only [hp] at h
    cases h
  | none =>
    simp only [hp] at h ⊢
    rw [h]

theorem fallback_ledger_kept (hk : r.affinity = some key)
    (ha : (m.revalidationFallback r (some kept)).1 = some dest) :
    (m.revalidationFallback r (some kept)).2.divertLedger.get key =
      (m.recordDivert key kept dest).divertLedger.get key := by
  unfold revalidationFallback at ha ⊢
  split at ha
  · cases ha
  rename_i idx hidx
  split at ha
  · cases ha
  · rename_i hopen
    cases ha
    simp only [if_neg hopen, settleRevalidation, hk]
    rw [record_divert_get, record_divert_get]
    show (if _ then (m.spendRevalidation r.provider r.nowMs).divertLedger.get key
      else some (divertEpisode ((m.spendRevalidation r.provider r.nowMs).divertLedger.get key)
        _ _ _)) = _
    rw [spend_revalidation_divert_ledger]

theorem revalidation_offered (hkept : m.fallbackKept r = some kept) (hk : r.affinity = some key)
    (ho : Offers (m.divertLedger.get key) kept dest) (ht : dest ∉ r.tried)
    (he : ((m.account dest).any (m.revalidationOk r)) = true)
    (hopen : ¬ r.nowMs < m.nextRevalidationAt r.provider) :
    (m.revalidationCore r).1 = some dest := by
  have hsticky : m.revalidationSticky r kept = some dest := by
    unfold revalidationSticky
    rw [hk, Option.bind_some, ho.verdict]
    simp [ht, he]
  rw [revalidation_core_kept hkept, revalidationFallback, Option.bind_some, hsticky, Option.some_or]
  simp only [if_neg hopen]

end Call

section Visit

variable {m : Manager} {c : Call} {key : Key} {kept : Kept} {dest : Nat}

theorem next_ledger_same (h : m.divertOf c = none) : (m.next c).divertLedger = m.divertLedger := by
  rw [← m.swept_divert_ledger c]
  cases c with
  | select disk r => exact select_ledger_same h
  | revalidate disk r => exact revalidation_ledger_same h

theorem swept_revalidation_ok :
    (m.swept c).revalidationOk (m.screened c) = (m.live c).revalidationOk c.request := by
  funext a
  unfold revalidationOk
  rw [swept_gates, screened_affinity, swept_warm_window]
  rfl

theorem swept_next_revalidation (provider : Provider) :
    (m.swept c).nextRevalidationAt provider = m.nextRevalidationAt provider := by
  obtain ⟨_, h⟩ := m.swept_eq c
  rw [h]
  unfold live
  cases c.disk <;> cases provider <;> rfl

/-- A served divert is recorded under its pin and deadline. -/
theorem next_ledger_kept (hk : c.request.affinity = some key) (h : m.divertOf c = some kept)
    (ha : m.answer c = some dest) :
    (m.next c).divertLedger.get key = (m.recordDivert key kept dest).divertLedger.get key := by
  have hswept : ((m.swept c).recordDivert key kept dest).divertLedger.get key =
      (m.recordDivert key kept dest).divertLedger.get key := by
    rw [record_divert_get, record_divert_get, swept_divert_ledger]
  rw [← hswept]
  cases c with
  | select disk r =>
    have hcore := select_core_kept h
    have hbest : ((m.swept (.select disk r)).settle (m.screened (.select disk r)) (some kept)
        (((m.swept (.select disk r)).stickyPick (m.screened (.select disk r)) kept).or
          ((m.swept (.select disk r)).poolPick (m.screened (.select disk r))))).1 = some dest := by
      rw [← hcore]
      exact ha
    rw [settle_fst] at hbest
    rw [hbest] at hcore
    show ((m.swept (.select disk r)).selectCore (m.screened (.select disk r))).2.divertLedger.get
      key = _
    rw [hcore]
    exact settle_ledger_kept hk
  | revalidate disk r =>
    have hcore := revalidation_core_kept h
    show ((m.swept (.revalidate disk r)).revalidationCore
      (m.screened (.revalidate disk r))).2.divertLedger.get key = _
    rw [hcore]
    refine fallback_ledger_kept hk ?_
    rw [← hcore]
    exact ha

/-- A call keeps what the session's episode offers. -/
theorem Offers.next (hk : c.request.affinity = some key) {offered : Kept}
    (hkey : ∀ k, m.divertOf c = some k → k = offered)
    (ho : Offers (m.divertLedger.get key) offered dest) :
    Offers ((m.next c).divertLedger.get key) offered dest := by
  cases hd : m.divertOf c with
  | none => rwa [next_ledger_same hd]
  | some k =>
    obtain rfl := hkey k hd
    cases ha : m.answer c with
    | none =>
      have hsame : (m.next c).divertLedger = m.divertLedger := by
        rw [refused_next ha, swept_divert_ledger]
      rwa [hsame]
    | some other =>
      rw [next_ledger_kept hk hd ha]
      exact ho.record other

/-- A divert whose episode offers a destination is served on it, unless the throttle refuses. -/
theorem offered_answer (hk : c.request.affinity = some key) (hd : m.divertOf c = some kept)
    (ho : Offers (m.divertLedger.get key) kept dest) (ht : dest ∉ c.request.tried)
    (hdoor : m.passesDoor c dest = true) (hopen : m.throttled c = false) :
    m.answer c = some dest := by
  simp only [passesDoor, Bool.and_eq_true, Bool.not_eq_true', decide_eq_false_iff_not] at hdoor
  obtain ⟨hsupported, hgate⟩ := hdoor
  have htried : dest ∉ (m.screened c).tried := by
    rw [screened_tried, Finset.mem_union]
    exact fun h => h.elim ht hsupported
  have hledger : Offers ((m.swept c).divertLedger.get key) kept dest := by
    rwa [swept_divert_ledger]
  cases c with
  | select disk r =>
    refine select_offered hd hk hledger htried ?_
    show (((m.swept (.select disk r)).account dest).any fun a =>
      a.eligible ((m.swept (.select disk r)).gates (m.screened (.select disk r))) true
        ((m.swept (.select disk r)).strictGroup r.group) r.group) = true
    rw [swept_account, swept_gates, swept_strict_group]
    exact hgate
  | revalidate disk r =>
    refine revalidation_offered hd hk hledger htried ?_ ?_
    · show ((m.swept (.revalidate disk r)).account dest).any
        ((m.swept (.revalidate disk r)).revalidationOk (m.screened (.revalidate disk r))) = true
      rw [swept_account, swept_revalidation_ok]
      exact hgate
    · show ¬ r.nowMs < (m.swept (.revalidate disk r)).nextRevalidationAt r.provider
      rw [swept_next_revalidation]
      simpa [throttled] using hopen

end Visit

/-! ## The deadline of a divert -/

/-- The hold of a row and the reset its rejection names. -/
def limits (a : AccountRuntime) : Option Int × Option Int :=
  (a.rateLimitedUntilMs, a.rejectionResetMs)

theorem reload_row_limits (fresh : Config) (idx : Nat) (a : AccountRuntime) (control : Option Nat) :
    limits (reloadRow fresh idx a control).1 = limits a := by
  unfold reloadRow
  split
  · split <;> rfl
  · simp only
    split <;> rfl

/-- A reload leaves the hold and the rejection of every row as they were. -/
theorem live_limits {m : Manager} {c : Call} {idx : Nat} {a : AccountRuntime}
    (h : m.account idx = some a) :
    ∃ b, (m.live c).account idx = some b ∧ limits b = limits a := by
  unfold live
  cases c.disk with
  | none => exact ⟨a, h, rfl⟩
  | some fresh =>
    obtain ⟨extra, he, -⟩ := admit_rows_append fresh.accounts
      ((reloadRows fresh 0 m.accounts m.controlIdx).1, m.config.accounts)
    have hacc : (m.reloadGroupsIfChanged (some fresh)).accounts =
        (reloadRows fresh 0 m.accounts m.controlIdx).1 ++ extra := he
    have hmap := reload_rows_map limits reload_row_limits fresh m.accounts 0 m.controlIdx
    have hget : ((reloadRows fresh 0 m.accounts m.controlIdx).1.map limits)[idx]? =
        some (limits a) := by
      rw [hmap, List.getElem?_map]
      exact congrArg (Option.map limits) h
    rw [List.getElem?_map, Option.map_eq_some_iff] at hget
    obtain ⟨b, hb, hlim⟩ := hget
    refine ⟨b, ?_, hlim⟩
    rw [account, hacc, List.getElem?_append_left (List.getElem?_eq_some_iff.mp hb).1]
    exact hb

section Deadline

variable {m : Manager} {r : Request} {key : Key} {pin : Pin} {a : AccountRuntime}
  {hold reset : Option Int}

/-- The deadlines a divert of a pin with this hold and rejection can be recorded under: the fast
path's own gates fall back on the rejection, the other sites do not. -/
def Deadline (hold reset : Option Int) (untilMs : Int) : Prop :=
  untilMs = hold.getD 0 ∨ untilMs = (hold.or reset).getD 0

theorem pin_verdict_deadline {untilMs : Int} (ha : m.account pin.1 = some a)
    (hv : m.pinVerdict r key pin = .divert untilMs) :
    Deadline a.rateLimitedUntilMs a.rejectionResetMs untilMs := by
  unfold pinVerdict at hv
  rw [ha] at hv
  simp only [Option.bind_some] at hv
  split at hv
  · cases hv
    exact Or.inl rfl
  split at hv
  · cases hv
    exact Or.inl rfl
  split at hv
  · split at hv
    · cases hv
      exact Or.inl rfl
    · cases hv
  split at hv
  · cases hv
  split at hv
  · cases hv
  split at hv
  · cases hv
    exact Or.inr rfl
  · split at hv <;> cases hv

theorem select_kept_deadline {kept : Kept} (hk : r.affinity = some key)
    (h : m.selectKept r = some kept) :
    ∃ pin, m.affinity.get key = some pin ∧ kept.pin = pin.1 ∧
      ∀ a, m.account pin.1 = some a →
        Deadline a.rateLimitedUntilMs a.rejectionResetMs kept.untilMs := by
  unfold selectKept at h
  split at h
  · cases h
  cases hf : m.affinityFastPath r with
  | served idx m' =>
    rw [hf] at h
    cases h
  | fall kept' =>
    rw [hf] at h
    obtain rfl : kept' = some kept := h
    obtain ⟨key', pin, untilMs, hk', hp, hv, rfl⟩ := fall_kept_cases hf
    obtain rfl := Option.some_injective _ (hk.symm.trans hk')
    exact ⟨pin, hp, rfl, fun a ha => pin_verdict_deadline ha hv⟩

theorem fallback_kept_deadline {kept : Kept} (hk : r.affinity = some key)
    (h : m.fallbackKept r = some kept) :
    ∃ pin, m.affinity.get key = some pin ∧ kept.pin = pin.1 ∧
      ∀ a, m.account pin.1 = some a → kept.untilMs = a.rateLimitedUntilMs.getD 0 := by
  unfold fallbackKept at h
  split at h
  · cases h
  unfold revalidationKept at h
  obtain ⟨idx, hidx, rfl⟩ := Option.map_eq_some_iff.mp h
  have hpin : m.pinnedIdx r = some idx := (Option.filter_eq_some_iff.mp hidx).1
  rw [pinnedIdx, hk, Option.bind_some, Option.map_eq_some_iff] at hpin
  obtain ⟨pin, hp, rfl⟩ := hpin
  exact ⟨pin, hp, rfl, fun a ha => by simp [ha]⟩

theorem divert_deadline {c : Call} {idx : Nat} {kept : Kept} (hk : c.request.affinity = some key)
    (hp : m.PinnedTo key idx) (ha : m.account idx = some a) (h : m.divertOf c = some kept) :
    kept.pin = idx ∧ Deadline a.rateLimitedUntilMs a.rejectionResetMs kept.untilMs := by
  obtain ⟨b, hb, hlim⟩ := live_limits (c := c) ha
  have hswept : ∃ pin, (m.swept c).affinity.get key = some pin ∧ kept.pin = pin.1 ∧
      ∀ a, (m.swept c).account pin.1 = some a →
        Deadline a.rateLimitedUntilMs a.rejectionResetMs kept.untilMs := by
    cases c with
    | select disk r => exact select_kept_deadline (r := m.screened (.select disk r)) hk h
    | revalidate disk r =>
      obtain ⟨pin, hpin, hkp, hu⟩ :=
        fallback_kept_deadline (r := m.screened (.revalidate disk r)) hk h
      exact ⟨pin, hpin, hkp, fun a ha => Or.inl (hu a ha)⟩
  obtain ⟨pin, hpin, hkp, hu⟩ := hswept
  have hidx : pin.1 = idx := by
    rw [PinnedTo, swept_get_some hpin] at hp
    exact Option.some_injective _ hp
  subst hidx
  obtain ⟨hhold, hreset⟩ := Prod.mk.inj hlim
  rw [← hhold, ← hreset]
  exact ⟨hkp, hu b (by rw [swept_account, hb])⟩

end Deadline

/-! ## A stretch of calls -/

/-- The calls of one session over a stretch in which its pin stays on one account, whose hold and
rejection stay the same. Anything else may change between two calls, apart from the session's own
episode, which only its calls write. -/
structure Stretch (key : Key) (pin : Nat) (hold reset : Option Int)
    (visits : List (Manager × Call)) : Prop where
  own : ∀ v ∈ visits, v.2.request.affinity = some key
  pinned : ∀ v ∈ visits, v.1.PinnedTo key pin
  row : ∀ v ∈ visits, ∃ a, v.1.account pin = some a ∧ a.rateLimitedUntilMs = hold ∧
    a.rejectionResetMs = reset
  linked : visits.IsChain fun v w =>
    w.1.divertLedger.get key = (v.1.next v.2).divertLedger.get key

/-- The diverts of the stretch are all recorded under one pin and deadline. -/
def OneDeadline (visits : List (Manager × Call)) : Prop :=
  ∀ v ∈ visits, ∀ w ∈ visits, ∀ k k', v.1.divertOf v.2 = some k → w.1.divertOf w.2 = some k' →
    k = k'

section Stretch

variable {key : Key} {pin : Nat} {hold reset : Option Int} {visits rest : List (Manager × Call)}
  {first : Manager × Call}

/-- Where the pin has a hold, or its rejection names no reset, every site computes one deadline. -/
theorem Stretch.one_deadline (h : Stretch key pin hold reset visits)
    (hkey : (hold.or reset).getD 0 = hold.getD 0) : OneDeadline visits := by
  have hfixed : ∀ v ∈ visits, ∀ k, v.1.divertOf v.2 = some k → k = ⟨pin, hold.getD 0⟩ := by
    intro v hv k hk
    obtain ⟨a, ha, rfl, rfl⟩ := h.row v hv
    obtain ⟨hp, hd⟩ := divert_deadline (h.own v hv) (h.pinned v hv) ha hk
    have hu : k.untilMs = a.rateLimitedUntilMs.getD 0 := hd.elim id fun hd => hd.trans hkey
    cases k
    simp_all
  intro v hv w hw k k' hk hk'
  rw [hfixed v hv k hk, hfixed w hw k' hk']

/-- What the session's episode offers at the start of a stretch with one deadline it offers at
every call of it. -/
theorem Stretch.offers (h : Stretch key pin hold reset (first :: rest)) {kept : Kept} {dest : Nat}
    (hkey : ∀ v ∈ first :: rest, ∀ k, v.1.divertOf v.2 = some k → k = kept)
    (ho : Offers ((first.1.next first.2).divertLedger.get key) kept dest) :
    ∀ v ∈ rest, Offers (v.1.divertLedger.get key) kept dest := by
  induction rest generalizing first with
  | nil => simp
  | cons second rest ih =>
    have hlink := (List.isChain_cons_cons.mp h.linked)
    have hsecond : Offers (second.1.divertLedger.get key) kept dest := by
      rw [hlink.1]
      exact ho
    intro v hv
    rcases List.mem_cons.mp hv with rfl | hv
    · exact hsecond
    · have htail : Stretch key pin hold reset (second :: rest) :=
        ⟨fun v hv => h.own v (List.mem_cons_of_mem _ hv),
          fun v hv => h.pinned v (List.mem_cons_of_mem _ hv),
          fun v hv => h.row v (List.mem_cons_of_mem _ hv), hlink.2⟩
      refine ih htail (fun v hv => hkey v (List.mem_cons_of_mem _ hv)) ?_ v hv
      exact hsecond.next (h.own second (by simp)) (hkey second (by simp))

/-- If the first call opens an episode on a destination, every later divert of the stretch that may
use the destination and is not refused by the throttle is served on it. -/
def OneDestination (key : Key) (first : Manager × Call) (rest : List (Manager × Call)) : Prop :=
  ∀ kept dest, first.1.divertOf first.2 = some kept →
    (∀ e, first.1.divertLedger.get key = some e → e.pin = kept.pin → e.untilMs ≠ kept.untilMs) →
    first.1.answer first.2 = some dest →
    ∀ v ∈ rest, (v.1.divertOf v.2).isSome = true → dest ∉ v.2.request.tried →
      v.1.passesDoor v.2 dest = true → v.1.throttled v.2 = false → v.1.answer v.2 = some dest

/-- A pin with a hold, or whose rejection names no reset, is diverted under one deadline; and over a
stretch with one deadline a destination that the mask can hold stays the destination. -/
theorem one_divert_destination (h : Stretch key pin hold reset (first :: rest)) :
    ((hold.or reset).getD 0 = hold.getD 0 → OneDeadline (first :: rest)) ∧
    (OneDeadline (first :: rest) →
      (∀ dest, first.1.answer first.2 = some dest → InMask dest) →
      OneDestination key first rest) := by
  refine ⟨h.one_deadline, fun hone hmask kept dest hkept hfresh ha v hv hd ht hdoor hopen => ?_⟩
  have hkey : ∀ v ∈ first :: rest, ∀ k, v.1.divertOf v.2 = some k → k = kept :=
    fun v hv k hk => hone v hv first (by simp) k kept hk hkept
  have hrecorded : Offers ((first.1.next first.2).divertLedger.get key) kept dest := by
    have hbit := hmask dest ha
    unfold InMask at hbit
    rw [next_ledger_kept (h.own first (by simp)) hkept ha, record_divert_get,
      if_neg (by omega)]
    exact offers_first hfresh
  have hoffered := h.offers hkey hrecorded v hv
  obtain ⟨k, hk⟩ := Option.isSome_iff_exists.mp hd
  obtain rfl := hkey v (List.mem_cons_of_mem _ hv) k hk
  exact offered_answer (h.own v (List.mem_cons_of_mem _ hv)) hk hoffered ht hdoor hopen

end Stretch

def threeRows (first : AccountRuntime) : Manager :=
  { (new {}).restoreAffinity [(1, (0, 0))] ∅ with
    accounts := [first, { name := "b", provider := .anthropic },
      { name := "c", provider := .anthropic }] }

/-- The pin is under a hold that clears while the session is warm. -/
def heldPinFleet : Manager :=
  threeRows { name := "a", provider := .anthropic, rateLimitedUntilMs := some 60000 }

/-- Upstream rejected the pin until its five-hour window resets. -/
def rejectedFleet : Manager :=
  threeRows { name := "a", provider := .anthropic,
              quota := { status := some "rejected", fiveHour := some ⟨1, some 100000000000⟩ } }

/-- The free rows of the fleet are past the mask. -/
def wideFleet : Manager :=
  { (new {}).restoreAffinity [(1, (0, 0))] ∅ with
    accounts :=
      { name := "a", provider := .anthropic, rateLimitedUntilMs := some 60000 } ::
        (List.replicate 63 { name := "off", provider := .anthropic, disabled := true } ++
          [{ name := "x", provider := .anthropic }, { name := "y", provider := .anthropic }]) }

def divertTurn (tried : Finset Nat) : Call :=
  .select none { now := 0, path := "/v1/messages", affinity := some 1, tried }

def twoCalls (m : Manager) (c c' : Call) : List (Manager × Call) :=
  [(m, c), (m.next c, c')]

theorem stretch_two {m : Manager} {c c' : Call} {key : Key} {pin : Nat} {hold reset : Option Int}
    (hk : c.request.affinity = some key) (hk' : c'.request.affinity = some key)
    (hp : (m.affinity.get key).map Prod.fst = some pin)
    (hp' : ((m.next c).affinity.get key).map Prod.fst = some pin)
    (hrow : (m.account pin).map limits = some (hold, reset))
    (hrow' : ((m.next c).account pin).map limits = some (hold, reset)) :
    Stretch key pin hold reset (twoCalls m c c') := by
  have hlim : ∀ {m : Manager}, (m.account pin).map limits = some (hold, reset) →
      ∃ a, m.account pin = some a ∧ a.rateLimitedUntilMs = hold ∧ a.rejectionResetMs = reset := by
    intro m h
    obtain ⟨a, ha, hl⟩ := Option.map_eq_some_iff.mp h
    exact ⟨a, ha, (Prod.mk.inj hl).1, (Prod.mk.inj hl).2⟩
  have hmem : ∀ v ∈ twoCalls m c c', v = (m, c) ∨ v = (m.next c, c') := by
    intro v hv
    simpa [twoCalls] using hv
  refine ⟨fun v hv => ?_, fun v hv => ?_, fun v hv => ?_, ?_⟩
  · rcases hmem v hv with rfl | rfl
    · exact hk
    · exact hk'
  · rcases hmem v hv with rfl | rfl
    · exact hp
    · exact hp'
  · rcases hmem v hv with rfl | rfl
    · exact hlim hrow
    · exact hlim hrow'
  · simp [twoCalls]

theorem held_stretch : Stretch 1 0 (some 60000) none
    (twoCalls heldPinFleet (divertTurn ∅) (divertTurn {0})) :=
  stretch_two rfl rfl (by decide +kernel) (by decide +kernel) (by decide +kernel) (by decide +kernel)

/-- Both diverts of the held pin, by its hold and by `tried`, are served on the second row. -/
theorem held_divert_destination :
    (heldPinFleet.next (divertTurn ∅)).answer (divertTurn {0}) = some 1 := by
  obtain ⟨hdeadline, hdest⟩ := one_divert_destination held_stretch
  have hfirst : heldPinFleet.answer (divertTurn ∅) = some 1 := by decide +kernel
  refine hdest (hdeadline rfl) (fun dest hd => ?_) ⟨0, 60000⟩ 1 (by decide +kernel)
    (fun e he => ?_) hfirst _ (List.mem_singleton_self _) (by decide +kernel) (by decide +kernel)
    (by decide +kernel) rfl
  · have hone : some dest = some 1 := hd.symm.trans hfirst
    cases hone
    show 1 % 2 ^ 32 < 64
    omega
  · have hnone : heldPinFleet.divertLedger.get 1 = none := by decide +kernel
    rw [hnone] at he
    cases he

/-- A rejection is keyed on its reset by one site and not by the others, so the second divert of the
rejected pin opens an episode of its own; and a destination past the mask is never recorded, so the
second divert of the wide fleet takes another row. -/
theorem two_divert_destinations :
    (Stretch 1 0 none (some 100000) (twoCalls rejectedFleet (divertTurn ∅) (divertTurn {0})) ∧
      ¬ OneDestination 1 (rejectedFleet, divertTurn ∅)
        [(rejectedFleet.next (divertTurn ∅), divertTurn {0})]) ∧
    (Stretch 1 0 (some 60000) none (twoCalls wideFleet (divertTurn ∅) (divertTurn ∅)) ∧
      ¬ OneDestination 1 (wideFleet, divertTurn ∅)
        [(wideFleet.next (divertTurn ∅), divertTurn ∅)]) := by
  refine ⟨⟨stretch_two rfl rfl (by decide +kernel) (by decide +kernel) (by decide +kernel)
    (by decide +kernel), fun h => ?_⟩, ⟨stretch_two rfl rfl (by decide +kernel) (by decide +kernel)
    (by decide +kernel) (by decide +kernel), fun h => ?_⟩⟩
  · have hnone : rejectedFleet.divertLedger.get 1 = none := by decide +kernel
    have hsecond := h ⟨0, 100000⟩ 1 (by decide +kernel)
      (fun e he => by rw [hnone] at he; cases he) (by decide +kernel) _
      (List.mem_singleton_self _) (by decide +kernel) (by decide +kernel) (by decide +kernel) rfl
    exact absurd hsecond (by decide +kernel)
  · have hnone : wideFleet.divertLedger.get 1 = none := by decide +kernel
    have hsecond := h ⟨0, 60000⟩ 64 (by decide +kernel)
      (fun e he => by rw [hnone] at he; cases he) (by decide +kernel) _
      (List.mem_singleton_self _) (by decide +kernel) (by decide +kernel) (by decide +kernel) rfl
    exact absurd hsecond (by decide +kernel)

end Manager

end TeamClaude
