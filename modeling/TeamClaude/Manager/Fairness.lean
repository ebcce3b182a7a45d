import TeamClaude.Lib.Rotation
import TeamClaude.Manager.Pacing
import TeamClaude.Manager.Ticks

/-!
# Rotation fairness

Plain requests without a group rotate: while the accounts that can be picked stay the same and
share one priority and one reset-urgency bucket, any window of as many picks as there are accounts
takes each of them once. Across priorities and buckets the lowest always goes first.
-/

namespace TeamClaude

namespace Manager

/-- The account can be picked for a plain request without a group. -/
def Pickable (m : Manager) (r : Request) (idx : Nat) (a : AccountRuntime) : Prop :=
  m.account idx = some a ∧ m.InPool r idx ∧ m.PassesPool r true none idx a

/-- Lower priority first, then the sooner reset bucket. -/
def RanksBefore (m : Manager) (now : Instant) (a b : AccountRuntime) : Prop :=
  a.priority < b.priority ∨
    (a.priority = b.priority ∧ m.resetUrgencyTier a now ≤ m.resetUrgencyTier b now)

theorem rotation_key_le {m : Manager} {a b : AccountRuntime} {now : Instant}
    (h : m.rotationKey a now ≤ m.rotationKey b now) : m.RanksBefore now a b ∧
      (a.priority = b.priority → m.resetUrgencyTier a now = m.resetUrgencyTier b now →
        a.lastSelectedSeq ≤ b.lastSelectedSeq) := by
  simp only [rotationKey, Prod.Lex.toLex_le_toLex] at h
  rcases h with hp | ⟨hp, ht | ⟨ht, hs | ⟨hs, -⟩⟩⟩
  · exact ⟨Or.inl hp, fun he => absurd he hp.ne⟩
  · exact ⟨Or.inr ⟨hp, ht.le⟩, fun _ he => absurd he ht.ne⟩
  · exact ⟨Or.inr ⟨hp, ht.le⟩, fun _ _ => hs.le⟩
  · exact ⟨Or.inr ⟨hp, ht.le⟩, fun _ _ => hs.le⟩

section Live

variable {m : Manager} {disk : Option Config} {r : Request}

theorem swept_rotation_key (c : Call) (a : AccountRuntime) (now : Instant) :
    (m.swept c).rotationKey a now = (m.live c).rotationKey a now := by
  obtain ⟨_, h⟩ := m.swept_eq c
  rw [h]
  rfl

/-- A plain request that some account can serve is answered by one of least rotation key. -/
theorem plain_pick_least (h : (m.reloadGroupsIfChanged disk).PlainInference r)
    (hg : r.group = none)
    (hex : ∃ idx a, (m.reloadGroupsIfChanged disk).Pickable r idx a) :
    ∃ idx a, (m.selectWithGroup disk r).1 = some idx ∧
      (m.reloadGroupsIfChanged disk).Pickable r idx a ∧
      ∀ j b, (m.reloadGroupsIfChanged disk).Pickable r j b →
        (m.reloadGroupsIfChanged disk).rotationKey a r.now ≤
          (m.reloadGroupsIfChanged disk).rotationKey b r.now := by
  have hgroup : (m.screened (.select disk r)).group = none := hg
  have hsome := (m.swept_pick_eligible_is_some (.select disk r) true none).mpr hex
  obtain ⟨idx, hidx⟩ := Option.isSome_iff_exists.mp hsome
  obtain ⟨k, hk⟩ := Lib.scan_best_some hidx
  obtain ⟨a, ha, hok, hkey⟩ := hk.admitted
  have hacc : (m.live (.select disk r)).account idx = some a :=
    (m.swept_account (.select disk r) idx).symm.trans ha
  obtain ⟨hin, hp⟩ := (m.swept_pool_ok (.select disk r)).mp hok
  refine ⟨idx, a, ?_, ⟨hacc, hin, hp⟩, fun j b hb => ?_⟩
  · rw [select_plain_answer m h]
    exact pool_pick_of_paced (by rw [hgroup]; exact hidx)
  · have hjacc : (m.swept (.select disk r)).accounts[j]? = some b :=
      (m.swept_account (.select disk r) j).trans hb.1
    have hle := hk.least j b hjacc ((m.swept_pool_ok (.select disk r)).mpr ⟨hb.2.1, hb.2.2⟩)
    rw [← hkey, swept_rotation_key, swept_rotation_key] at hle
    exact hle

/-- The answer of a plain request is stamped with the tick, and nothing else is. -/
theorem plain_next_seq (h : (m.reloadGroupsIfChanged disk).PlainInference r) {idx : Nat}
    {a : AccountRuntime} (hans : (m.selectWithGroup disk r).1 = some idx)
    (ha : (m.reloadGroupsIfChanged disk).account idx = some a) :
    (m.selectWithGroup disk r).2.seqOf idx = m.selectSeq ∧
      ∀ j, j ≠ idx → (m.selectWithGroup disk r).2.seqOf j = m.seqOf j := by
  have hsame := m.swept_same_ticks (.select disk r)
  have hrun : m.selectWithGroup disk r = (m.swept (.select disk r)).settle
      (m.screened (.select disk r)) none
        ((m.swept (.select disk r)).poolPick (m.screened (.select disk r))) := by
    rw [← select_core_plain (m.swept_plain h)]
    rfl
  have hpick : (m.swept (.select disk r)).poolPick (m.screened (.select disk r)) = some idx := by
    rw [hrun, settle_fst] at hans
    exact hans
  have hconn : (m.screened (.select disk r)).requestClass = .inference := h.inference
  have hunpinned : (m.screened (.select disk r)).affinity = none := h.unpinned
  have hacc : (m.selectWithGroup disk r).2.accounts =
      ((m.swept (.select disk r)).stamp idx).accounts := by
    rw [hrun, hpick]
    simp only [settle, settleConn, settlePin, hconn, hunpinned]
  constructor
  · rw [seq_of_congr hacc, seq_of_stamp_self ((m.swept_account (.select disk r) idx).trans ha),
      hsame.1]
  · intro j hj
    rw [seq_of_congr hacc, seq_of_stamp_ne hj, hsame.2]

end Live

/-- A run of plain group-less requests over a fixed pool of accounts on one level: `m t`, `disk t`
and `r t` are the state, the file and the request of the `t`-th pick. -/
structure LevelRun (E : Finset Nat) (n : Nat) (m : Nat → Manager) (disk : Nat → Option Config)
    (r : Nat → Request) : Prop where
  start : Reachable (m 0)
  plain : ∀ t < n, ((m t).reloadGroupsIfChanged (disk t)).PlainInference (r t)
  ungrouped : ∀ t < n, (r t).group = none
  pool : ∀ t < n, ∀ idx, idx ∈ E ↔
    ∃ a, ((m t).reloadGroupsIfChanged (disk t)).Pickable (r t) idx a
  level : ∀ t < n, ∀ i j a b, ((m t).reloadGroupsIfChanged (disk t)).Pickable (r t) i a →
    ((m t).reloadGroupsIfChanged (disk t)).Pickable (r t) j b → a.priority = b.priority ∧
      ((m t).reloadGroupsIfChanged (disk t)).resetUrgencyTier a (r t).now =
        ((m t).reloadGroupsIfChanged (disk t)).resetUrgencyTier b (r t).now
  consecutive : ∀ t, t + 1 < n → SameTicks ((m t).selectWithGroup (disk t) (r t)).2 (m (t + 1))

namespace LevelRun

variable {E : Finset Nat} {n : Nat} {m : Nat → Manager} {disk : Nat → Option Config}
  {r : Nat → Request}

theorem reachable (h : LevelRun E n m disk r) : ∀ t < n, Reachable (m t) := by
  intro t
  induction t with
  | zero => intro _; exact h.start
  | succ t ih =>
    intro ht
    exact .env ((ih (by omega)).call (.select (disk t) (r t))) (h.consecutive t ht)

/-- The account picked at each turn, once there is one to pick. -/
theorem pick (h : LevelRun E n m disk r) (hE : E.Nonempty) {t : Nat} (ht : t < n) :
    ∃ idx ∈ E, ((m t).selectWithGroup (disk t) (r t)).1 = some idx ∧
      ∀ j ∈ E, (m t).seqOf idx ≤ (m t).seqOf j := by
  obtain ⟨e, he⟩ := hE
  obtain ⟨idx, a, hans, hpick, hleast⟩ := plain_pick_least (h.plain t ht) (h.ungrouped t ht)
    ⟨e, (h.pool t ht e).mp he⟩
  have hsame := (m t).reload_same_ticks (disk t)
  refine ⟨idx, (h.pool t ht idx).mpr ⟨a, hpick⟩, hans, fun j hj => ?_⟩
  obtain ⟨b, hb⟩ := (h.pool t ht j).mp hj
  obtain ⟨hprio, htier⟩ := h.level t ht idx j a b hpick hb
  have hle := (rotation_key_le (hleast j b hb)).2 hprio htier
  rw [← hsame.2 idx, ← hsame.2 j, seq_of_account hpick.1, seq_of_account hb.1]
  exact hle

theorem rotation (h : LevelRun E n m disk r) (hE : E.Nonempty) (picks : Nat → Nat)
    (hpicks : ∀ t < n, ((m t).selectWithGroup (disk t) (r t)).1 = some (picks t)) :
    Lib.Rotation E n picks (fun t => (m t).seqOf) (fun t => (m t).selectSeq) := by
  have chosen : ∀ t < n, picks t ∈ E ∧ ∀ j ∈ E, (m t).seqOf (picks t) ≤ (m t).seqOf j := by
    intro t ht
    obtain ⟨idx, hidx, hans, hleast⟩ := h.pick hE ht
    rw [hpicks t ht] at hans
    cases hans
    exact ⟨hidx, hleast⟩
  have stamped : ∀ t, t + 1 < n → (m (t + 1)).seqOf (picks t) = (m t).selectSeq ∧
      ∀ j, j ≠ picks t → (m (t + 1)).seqOf j = (m t).seqOf j := by
    intro t ht
    obtain ⟨a, ha⟩ := (h.pool t (by omega) (picks t)).mp (chosen t (by omega)).1
    obtain ⟨hself, hother⟩ := plain_next_seq (h.plain t (by omega)) (hpicks t (by omega)) ha.1
    have hsame := h.consecutive t ht
    exact ⟨(hsame.2 _).trans hself, fun j hj => (hsame.2 j).trans (hother j hj)⟩
  exact {
    mem := fun t ht => (chosen t ht).1
    least := fun t ht => (chosen t ht).2
    fresh := fun t ht f _ => (h.reachable t ht).ticks_fresh f
    picked := fun t ht => (stamped t ht).1
    frame := fun t ht f _ hf => (stamped t ht).2 f hf }

end LevelRun

/-- Every window of as many picks as the pool has accounts takes each of them once, and no pick
passes over an account that ranks before it. -/
theorem rotation_fair :
    (∀ {E : Finset Nat} {n : Nat} {m : Nat → Manager} {disk : Nat → Option Config}
      {r : Nat → Request}, LevelRun E n m disk r → ∀ s, s + E.card ≤ n →
        (∀ t ∈ Set.Ico s (s + E.card), ∃ idx ∈ E,
          ((m t).selectWithGroup (disk t) (r t)).1 = some idx) ∧
        Set.InjOn (fun t => ((m t).selectWithGroup (disk t) (r t)).1)
          (Set.Ico s (s + E.card))) ∧
    ∀ {m : Manager} {disk : Option Config} {r : Request},
      (m.reloadGroupsIfChanged disk).PlainInference r → r.group = none →
      (∃ j b, (m.reloadGroupsIfChanged disk).Pickable r j b) →
      ∃ idx a, (m.selectWithGroup disk r).1 = some idx ∧
        (m.reloadGroupsIfChanged disk).Pickable r idx a ∧
        ∀ j b, (m.reloadGroupsIfChanged disk).Pickable r j b →
          (m.reloadGroupsIfChanged disk).RanksBefore r.now a b := by
  constructor
  · intro E n m disk r h s hs
    rcases E.eq_empty_or_nonempty with rfl | hE
    · simp
    have hpick : ∀ t < n, ∃ idx ∈ E, ((m t).selectWithGroup (disk t) (r t)).1 = some idx := by
      intro t ht
      obtain ⟨idx, hidx, hans, -⟩ := h.pick hE ht
      exact ⟨idx, hidx, hans⟩
    refine ⟨fun t ht => hpick t (by have := ht.2; omega), ?_⟩
    let picks : Nat → Nat := fun t => ((m t).selectWithGroup (disk t) (r t)).1.getD 0
    have hpicks : ∀ t < n, ((m t).selectWithGroup (disk t) (r t)).1 = some (picks t) := by
      intro t ht
      obtain ⟨idx, -, hans⟩ := hpick t ht
      simp only [picks, hans, Option.getD_some]
    have hinj := (h.rotation hE picks hpicks).window_injective le_rfl hs
    intro x hx y hy hxy
    have hxn : x < n := by have := hx.2; omega
    have hyn : y < n := by have := hy.2; omega
    refine hinj hx hy ?_
    simp only [hpicks x hxn, hpicks y hyn, Option.some.injEq] at hxy
    exact hxy
  · intro m disk r h hg hex
    obtain ⟨idx, a, hans, hpick, hleast⟩ := plain_pick_least h hg hex
    exact ⟨idx, a, hans, hpick, fun j b hb => (rotation_key_le (hleast j b hb)).1⟩

/-- Two healthy accounts. -/
def twinFleet : Manager :=
  new { accounts := [{ name := "a", provider := .anthropic },
    { name := "b", provider := .anthropic }] }

/-- One plain turn after another from `m`. -/
def turns (m : Manager) (r : Request) : Nat → Manager
  | 0 => m
  | t + 1 => ((turns m r t).selectWithGroup none r).2

def plainTurn : Request :=
  { now := 0, path := "/v1/messages" }

/-- Both twins can be picked at each of the first two turns. -/
theorem twins_pickable : ∀ t < 2, ∀ idx, idx < 2 ↔
    ∃ a, (twinFleet.turns plainTurn t).Pickable plainTurn idx a := by
  intro t ht idx
  have hlen : ∀ t < 2, (twinFleet.turns plainTurn t).accounts.length = 2 := by decide +kernel
  have hrow : ∀ t < 2, ∀ idx < 2, ((twinFleet.turns plainTurn t).account idx).any (fun a =>
      decide ((twinFleet.turns plainTurn t).InPool plainTurn idx) &&
        decide ((twinFleet.turns plainTurn t).PassesPool plainTurn true none idx a)) = true := by
    decide +kernel
  constructor
  · intro hidx
    obtain ⟨a, ha, hok⟩ := (Option.any_eq_true _ _).mp (hrow t ht idx hidx)
    rw [Bool.and_eq_true, decide_eq_true_eq, decide_eq_true_eq] at hok
    exact ⟨a, ha, hok⟩
  · rintro ⟨a, ha, -⟩
    rw [← hlen t ht]
    exact (List.getElem?_eq_some_iff.mp ha).1

/-- Two turns on the twins take both accounts, and the first takes the one that ranks first. -/
theorem twins_take_turns :
    Set.InjOn (fun t => ((twinFleet.turns plainTurn t).selectWithGroup none plainTurn).1)
        (Set.Ico 0 2) ∧
      ∃ idx a, (twinFleet.selectWithGroup none plainTurn).1 = some idx ∧
        ∀ j b, twinFleet.Pickable plainTurn j b → twinFleet.RanksBefore 0 a b := by
  have hplain : ∀ t < 2, (twinFleet.turns plainTurn t).PlainInference plainTurn := by
    intro t ht
    have hlock : ∀ t < 2,
        (twinFleet.turns plainTurn t).lockedAccountFor plainTurn.provider = none := by
      decide +kernel
    exact ⟨hlock t ht, by decide +kernel, rfl⟩
  have hlevel : ∀ t < 2, ∀ a ∈ (twinFleet.turns plainTurn t).accounts, a.priority = 0 ∧
      (twinFleet.turns plainTurn t).resetUrgencyTier a 0 = i64Min := by
    decide +kernel
  have hmem : ∀ t < 2, ∀ idx a, (twinFleet.turns plainTurn t).Pickable plainTurn idx a →
      a ∈ (twinFleet.turns plainTurn t).accounts :=
    fun t _ idx a h => List.mem_of_getElem? h.1
  have hrun : LevelRun (Finset.range 2) 2 (twinFleet.turns plainTurn) (fun _ => none)
      (fun _ => plainTurn) := {
    start := .boot _
    plain := hplain
    ungrouped := fun _ _ => rfl
    pool := fun t ht idx => Finset.mem_range.trans (twins_pickable t ht idx)
    level := by
      intro t ht i j a b ha hb
      have hla := hlevel t ht a (hmem t ht i a ha)
      have hlb := hlevel t ht b (hmem t ht j b hb)
      exact ⟨hla.1.trans hlb.1.symm, hla.2.trans hlb.2.symm⟩
    consecutive := fun _ _ => ⟨rfl, fun _ => rfl⟩ }
  have hfirst : (twinFleet.reloadGroupsIfChanged none).PlainInference plainTurn :=
    hplain 0 (by omega)
  obtain ⟨idx, a, hans, -, hranks⟩ :=
    rotation_fair.2 hfirst rfl
      ⟨0, (twins_pickable 0 (by omega) 0).mp (by omega)⟩
  exact ⟨(rotation_fair.1 hrun 0 le_rfl).2, idx, a, hans, hranks⟩

end Manager

end TeamClaude
