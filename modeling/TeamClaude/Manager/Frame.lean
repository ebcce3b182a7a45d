import TeamClaude.Manager.Select
import Mathlib.Logic.Relation

/-!
# What each write leaves alone

Projections of the manager's writes: a stamp changes a tick, a pin write changes the pin map, and
so on. Selection proofs read the state through these and never unfold a write.
-/

namespace TeamClaude.Manager

variable (m : Manager) (idx : Nat) (key : Key) (nowMs : Int)

/-! ## Stamps -/

theorem account_stamp (j : Nat) : (m.stamp idx).account j =
    (m.account j).map fun a => if j = idx then { a with lastSelectedSeq := m.selectSeq } else a := by
  simp only [account, stamp, List.getElem?_modify]
  by_cases hj : idx = j
  · subst hj
    simp
  · simp [hj, Ne.symm hj]

theorem account_stamp_self {a : AccountRuntime} (h : m.account idx = some a) :
    (m.stamp idx).account idx = some { a with lastSelectedSeq := m.selectSeq } := by
  simp [account_stamp, h]

theorem account_stamp_ne {j : Nat} (h : j ≠ idx) : (m.stamp idx).account j = m.account j := by
  simp [account_stamp, h]

@[simp] theorem stamp_select_seq : (m.stamp idx).selectSeq = m.selectSeq + 1 := rfl
@[simp] theorem stamp_affinity : (m.stamp idx).affinity = m.affinity := rfl

/-! ## Pins -/

@[simp] theorem write_pin_affinity (pin : Nat) :
    (m.writePin key pin nowMs).affinity = m.affinity.insert key (pin, nowMs) := rfl

/-! ## Divert episodes -/

section Divert

variable (kept : Kept) (dest : Nat)

/-- A divert writes the ledger or nothing. -/
theorem record_divert_cases : m.recordDivert key kept dest = m ∨
    ∃ entry : DivertEpisode, entry = divertEpisode (m.divertLedger.get key) kept.pin kept.untilMs dest ∧
      m.recordDivert key kept dest =
        { m with divertLedger := m.divertLedger.insert key entry } := by
  unfold recordDivert
  split
  · exact Or.inl rfl
  · exact Or.inr ⟨_, rfl, rfl⟩

@[simp] theorem record_divert_affinity : (m.recordDivert key kept dest).affinity = m.affinity := by
  rcases m.record_divert_cases key kept dest with h | ⟨_, -, h⟩ <;> rw [h]

@[simp] theorem record_divert_accounts : (m.recordDivert key kept dest).accounts = m.accounts := by
  rcases m.record_divert_cases key kept dest with h | ⟨_, -, h⟩ <;> rw [h]

@[simp] theorem record_divert_select_seq :
    (m.recordDivert key kept dest).selectSeq = m.selectSeq := by
  rcases m.record_divert_cases key kept dest with h | ⟨_, -, h⟩ <;> rw [h]

end Divert

/-! ## Excluded exits -/

/-- On a Codex path the exclusion adds the unsupported rows to `tried` and drops their pins. -/
theorem exclude_cases (tried : Finset Nat) (provider : Provider) :
    m.excludeUnsupportedCodexExits tried provider = (tried, m) ∨
    (provider = .codex ∧ m.excludeUnsupportedCodexExits tried provider =
      (tried ∪ m.codexAccountsWithUnsupportedExit,
        { m with
          affinity := m.affinity.retain fun _ pin =>
            !decide (pin.1 ∈ m.codexAccountsWithUnsupportedExit) })) := by
  cases provider with
  | anthropic => exact Or.inl rfl
  | codex =>
    simp only [excludeUnsupportedCodexExits]
    split
    · exact Or.inl rfl
    · exact Or.inr ⟨trivial, rfl⟩

/-- The rows the exclusion adds to `tried`: none unless the path is Codex's. -/
def unsupportedFor (provider : Provider) : Finset Nat :=
  match provider with
  | .anthropic => ∅
  | .codex => m.codexAccountsWithUnsupportedExit

theorem exclude_tried (tried : Finset Nat) (provider : Provider) :
    (m.excludeUnsupportedCodexExits tried provider).1 = tried ∪ m.unsupportedFor provider := by
  cases provider with
  | anthropic => simp [excludeUnsupportedCodexExits, unsupportedFor]
  | codex =>
    simp only [excludeUnsupportedCodexExits, unsupportedFor]
    split
    · rename_i h
      simp [h]
    · rfl

/-- Apart from the pin map the exclusion leaves the manager as it was. -/
theorem exclude_state (tried : Finset Nat) (provider : Provider) :
    ∃ affinity, (m.excludeUnsupportedCodexExits tried provider).2 = { m with affinity } := by
  rcases m.exclude_cases tried provider with h | ⟨-, h⟩
  · exact ⟨m.affinity, by rw [h]⟩
  · exact ⟨_, by rw [h]⟩

/-- A pin survives the exclusion unless its row is excluded. -/
theorem exclude_get {tried : Finset Nat} {provider : Provider}
    (h : ∀ pin, m.affinity.get key = some pin → pin.1 ∉ m.unsupportedFor provider) :
    (m.excludeUnsupportedCodexExits tried provider).2.affinity.get key = m.affinity.get key := by
  rcases m.exclude_cases tried provider with he | ⟨rfl, he⟩
  · rw [he]
  · rw [he]
    refine CappedMap.get_retain_keep fun pin hpin => ?_
    simpa [unsupportedFor] using h pin hpin

theorem exclude_get_dropped {tried : Finset Nat} {provider : Provider} {pin : Pin}
    (hp : m.affinity.get key = some pin) (hin : pin.1 ∈ m.unsupportedFor provider) :
    (m.excludeUnsupportedCodexExits tried provider).2.affinity.get key = none := by
  cases provider with
  | anthropic => cases hin
  | codex =>
    simp only [excludeUnsupportedCodexExits]
    split
    · rename_i hempty
      simp [unsupportedFor, hempty] at hin
    · exact CappedMap.get_retain_drop hp (by simpa [unsupportedFor] using hin)

/-! ## The writes of a call -/

inductive Write (m : Manager) : Manager → Prop
  | stamp (idx : Nat) : Write m (m.stamp idx)
  | pin (key : Key) (idx : Nat) (nowMs : Int) : Write m (m.writePin key idx nowMs)
  | conn (key : Key) (idx : Nat) (nowMs : Int) : Write m (m.connAffinityRecord key idx nowMs)
  | divert (key : Key) (kept : Kept) (dest : Nat) : Write m (m.recordDivert key kept dest)
  | spend (provider : Provider) (nowMs : Int) : Write m (m.spendRevalidation provider nowMs)

def Writes : Manager → Manager → Prop :=
  Relation.ReflTransGen Write

/-- What every single write leaves alone a call leaves alone. -/
theorem Writes.frame {α : Type} {m m' : Manager} (h : Writes m m') (f : Manager → α)
    (keep : ∀ {m m' : Manager}, Write m m' → f m' = f m) : f m' = f m := by
  induction h with
  | refl => rfl
  | tail _ hw ih => exact (keep hw).trans ih

theorem Write.config {m m' : Manager} (h : Write m m') : m'.config = m.config := by
  cases h with
  | divert key kept dest => rcases m.record_divert_cases key kept dest with h | ⟨_, -, h⟩ <;> rw [h]
  | spend provider nowMs => cases provider <;> rfl
  | _ => rfl

theorem settle_pin_writes (r : Request) (kept : Option Kept) (idx : Nat) :
    Writes m (m.settlePin r kept idx) := by
  unfold settlePin
  split
  · exact (Relation.ReflTransGen.single (.divert _ _ _)).tail (.pin _ _ _)
  · exact .single (.pin _ _ _)
  · exact .refl

theorem settle_conn_writes (r : Request) (idx : Nat) : Writes m (m.settleConn r idx) := by
  unfold settleConn
  split
  · exact .single (.conn _ _ _)
  · exact .refl

theorem settle_writes (r : Request) (kept : Option Kept) (best : Option Nat) :
    Writes m (m.settle r kept best).2 := by
  cases best with
  | none => exact .refl
  | some idx =>
    exact ((Relation.ReflTransGen.single (.stamp idx)).trans (settle_pin_writes _ r kept idx)).trans
      (settle_conn_writes _ r idx)

/-- What an overlay that answers has done: a noise request's connection pin is written again, the
control account is only stamped. -/
theorem overlay_cases {m : Manager} {r : Request} {idx : Nat} {m' : Manager}
    (h : m.overlay r = some (idx, m')) :
    (r.requestClass = .noise ∧ ∃ k, m.noisePick r = some (k, idx) ∧
        m' = (m.stamp idx).connAffinityRecord k idx r.nowMs) ∨
      (r.requestClass = .controlPreferred ∧ m.controlPick r = some idx ∧ m' = m.stamp idx) := by
  unfold overlay at h
  split at h
  · cases h
  · rename_i hc
    obtain ⟨⟨k, i⟩, hpick, heq⟩ := Option.map_eq_some_iff.mp h
    cases heq
    exact Or.inl ⟨hc, k, hpick, rfl⟩
  · rename_i hc
    obtain ⟨i, hpick, heq⟩ := Option.map_eq_some_iff.mp h
    cases heq
    exact Or.inr ⟨hc, hpick, rfl⟩

/-- What a pin that is served has done: its verdict's target is stamped, and the account committed to
is written back as the pin. -/
theorem served_cases {m : Manager} {r : Request} {idx : Nat} {m' : Manager}
    (h : m.affinityFastPath r = .served idx m') :
    ∃ key pin target, r.affinity = some key ∧ m.affinity.get key = some pin ∧
      m.pinVerdict r key pin = .serve target ∧
      idx = (m.stamp target).committedTarget r key pin.1 target ∧
      m' = (m.stamp target).writePin key idx r.nowMs := by
  unfold affinityFastPath at h
  split at h
  · cases h
  rename_i key hk
  split at h
  · cases h
  rename_i pin hp
  split at h
  · rename_i target hv
    cases h
    exact ⟨key, pin, target, hk, hp, hv, rfl, rfl⟩
  · cases h
  · cases h

/-- A pin kept while its session falls through was diverted from. -/
theorem fall_kept_cases {m : Manager} {r : Request} {kept : Kept}
    (h : m.affinityFastPath r = .fall (some kept)) :
    ∃ key pin untilMs, r.affinity = some key ∧ m.affinity.get key = some pin ∧
      m.pinVerdict r key pin = .divert untilMs ∧ kept = { pin := pin.1, untilMs } := by
  unfold affinityFastPath at h
  split at h
  · cases h
  rename_i key hk
  split at h
  · cases h
  rename_i pin hp
  split at h
  · cases h
  · rename_i untilMs hv
    cases h
    exact ⟨key, pin, untilMs, hk, hp, hv, rfl⟩
  · cases h

theorem overlay_writes {r : Request} {idx : Nat} {m' : Manager}
    (h : m.overlay r = some (idx, m')) : Writes m m' := by
  rcases overlay_cases h with ⟨-, k, -, rfl⟩ | ⟨-, -, rfl⟩
  · exact (Relation.ReflTransGen.single (.stamp _)).tail (.conn _ _ _)
  · exact .single (.stamp _)

theorem select_core_writes (r : Request) : Writes m (m.selectCore r).2 := by
  unfold selectCore
  split
  · exact .refl
  cases hf : m.affinityFastPath r with
  | served idx m' =>
    obtain ⟨key, pin, target, -, -, -, -, rfl⟩ := served_cases hf
    exact (Relation.ReflTransGen.single (.stamp _)).tail (.pin _ _ _)
  | fall kept =>
    simp only [selectOffPin]
    split
    · split
      · rename_i ho
        exact m.overlay_writes ho
      · exact m.settle_writes r _ _
    · exact m.settle_writes r _ _

theorem settle_revalidation_writes (r : Request) (kept : Option Kept) (idx : Nat) :
    Writes m (m.settleRevalidation r kept idx) := by
  unfold settleRevalidation
  split
  · exact (Relation.ReflTransGen.single (.pin _ _ _)).tail (.divert _ _ _)
  · exact .single (.pin _ _ _)
  · exact .refl

theorem revalidation_core_writes (r : Request) : Writes m (m.revalidationCore r).2 := by
  unfold revalidationCore
  split
  · exact .single (.stamp _)
  unfold revalidationFallback
  split
  · exact .refl
  rename_i idx _
  split
  · exact .refl
  have hserved : Writes m ((m.spendRevalidation r.provider r.nowMs).stamp idx) :=
    (Relation.ReflTransGen.single (.spend _ _)).tail (.stamp _)
  exact hserved.trans (settle_revalidation_writes _ r _ idx)

end TeamClaude.Manager
