import TeamClaude.Manager.Pacing

/-!
# The control account and inference

The pool pick of an inference request holds the control account out, and no other door does. The
account therefore reaches inference through a session that already holds it, as its pin or as its
divert destination, or through the scan of a revalidation. These results name the ways an account
gets into a session, and show that a run without them serves no inference from the control account.
-/

namespace TeamClaude

namespace Manager

/-! ## The ways into a session -/

/-- The account ranks first in the first pass of the pool pick that admits any account. -/
inductive PoolFirst (m : Manager) (r : Request) (idx : Nat) : Prop
  | paced {k : RotationKey}
      (h : Lib.FirstLeast (m.poolOk (m.gates r) (m.poolTried r) true r.group)
        (fun _ a => m.rotationKey a r.now) m.accounts idx k)
  | leastLoaded {k : Nat ×ₗ RotationKey}
      (hn : m.strictGroup r.group = none)
      (hpaced : ∀ j b, m.account j = some b →
        m.poolOk (m.gates r) (m.poolTried r) true r.group j b = false)
      (h : Lib.FirstLeast (m.poolOk (m.gates r) (m.poolTried r) false none)
        (fun _ a => toLex (a.inFlight, m.rotationKey a r.now)) m.accounts idx k)
  | lastResort {k : Nat ×ₗ RotationKey}
      (hn : m.strictGroup r.group = none) (hf : r.isFable = true)
      (hloaded : ∀ j b, m.account j = some b →
        m.poolOk (m.gates r) (m.poolTried r) false none j b = false)
      (h : Lib.FirstLeast (m.lastResortOk (m.gates r) (m.poolTried r))
        (fun _ a => toLex (oiBucket a r.now, m.rotationKey a r.now)) m.accounts idx k)

def ReachesPool (m : Manager) (r : Request) : Prop :=
  ∃ kept, m.affinityFastPath r = .fall kept ∧ (kept = none → m.overlay r = none) ∧
    ∀ k, kept = some k → m.stickyPick r k = none

/-- A selection takes the account into its session: as the target of a load-balancing migration, or
out of the pool on a path that is not inference. -/
inductive SelectTakes (m : Manager) (r : Request) (idx : Nat) : Prop
  | migrated {key : Key} {pin : Pin} {a : AccountRuntime} {k : Nat ×ₗ Nat ×ₗ Nat}
      (hk : r.affinity = some key) (hp : m.affinity.get key = some pin)
      (hs : m.PinInScope r pin a) (he : a.eligible (m.gates r) true none r.group = true)
      (hload : 2 ≤ m.liveCount key r.nowMs pin.1) (hon : m.config.loadBalanceMigration = true)
      (h : Lib.FirstLeast (m.migrationOk r key pin.1) (fun cand a =>
        toLex (m.liveCount key r.nowMs cand, toLex (a.inFlight, a.lastSelectedSeq)))
          m.accounts idx k)
  | pool (hc : r.requestClass ≠ .inference) (hr : m.ReachesPool r) (h : m.PoolFirst r idx)

/-- A revalidation takes the account into its session: nothing ahead of the scan answers, the
throttle is open, and the account is the least utilized of those the hard gates admit. -/
structure RevalidationTakes (m : Manager) (r : Request) (idx : Nat) : Prop where
  unpinned : m.pinHonor r = none
  unsettled : ∀ k, m.revalidationKept r = some k → m.revalidationSticky r k = none
  due : m.nextRevalidationAt r.provider ≤ r.nowMs
  first : ∃ k, Lib.FirstLeast (fun j a => !(decide (j ∈ r.tried) || !m.revalidationOk r a))
    (fun _ a => (toLex (a.quota.maxUtilization r.now r.isFable, a.lastSelectedSeq) : ℚ ×ₗ Nat))
      m.accounts idx k

def Takes (m : Manager) (c : Call) (idx : Nat) : Prop :=
  match c with
  | .select _ _ => (m.swept c).SelectTakes (m.screened c) idx
  | .revalidate _ _ => (m.swept c).RevalidationTakes (m.screened c) idx

variable {m : Manager} {r : Request}

theorem pool_pick_first {idx : Nat} (h : m.poolPick r = some idx) : m.PoolFirst r idx := by
  unfold poolPick at h
  simp only at h
  split at h
  · rename_i i hp
    cases h
    obtain ⟨k, hk⟩ := Lib.scan_best_some hp
    exact .paced hk
  rename_i hpaced
  split at h
  · cases h
  rename_i hstrict
  have hn : m.strictGroup r.group = none := by simpa using hstrict
  split at h
  · rename_i i hp
    cases h
    obtain ⟨k, hk⟩ := Lib.scan_best_some hp
    exact .leastLoaded hn (Lib.scan_best_none.mp hpaced) hk
  rename_i hloaded
  split at h
  · rename_i hf
    obtain ⟨k, hk⟩ := Lib.scan_best_some h
    exact .lastResort hn hf (Lib.scan_best_none.mp hloaded) hk
  · cases h

/-- What the pool pick returns was not held out of it. -/
theorem pool_pick_untried {idx : Nat} (h : m.poolPick r = some idx) : idx ∉ m.poolTried r := by
  obtain ⟨a, -, hok | ⟨-, hok | ⟨-, hok⟩⟩⟩ := pool_pick_cases h
  · exact (pool_ok_iff.mp hok).1
  · exact (pool_ok_iff.mp hok).1
  · exact (last_resort_ok_iff.mp hok).1

/-- A served pin is written back, and serves the session's own account or one taken in. -/
theorem fast_path_served {idx : Nat} {m' : Manager} (h : m.affinityFastPath r = .served idx m') :
    ∃ key pin target, r.affinity = some key ∧ m.affinity.get key = some pin ∧
      m' = (m.stamp target).writePin key idx r.nowMs ∧ (idx = pin.1 ∨ m.SelectTakes r idx) := by
  obtain ⟨key, pin, target, hk, hp, hv, hidx, hm'⟩ := served_cases h
  refine ⟨key, pin, target, hk, hp, hm', ?_⟩
  rw [hidx]
  have hcase := m.pin_case r key pin
  rw [hv] at hcase
  rcases committed_target_cases (m.stamp target) r key pin.1 target with hc | hc
  · rw [hc]
    generalize htarget : PinVerdict.serve target = v at hcase
    cases hcase with
    | usable hs he =>
      cases htarget
      unfold migrationTarget
      split
      · rename_i hon
        cases hb : Lib.scanBest (m.migrationOk r key pin.1) (fun cand a =>
            (toLex (m.liveCount key r.nowMs cand, toLex (a.inFlight, a.lastSelectedSeq)) :
              Nat ×ₗ Nat ×ₗ Nat)) m.accounts with
        | none => exact Or.inl rfl
        | some idx =>
          obtain ⟨k, hfirst⟩ := Lib.scan_best_some hb
          exact Or.inr (.migrated hk hp hs he hon.1 hon.2 hfirst)
      · exact Or.inl rfl
    | overThreshold hs ho hc =>
      cases htarget
      exact Or.inl rfl
    | _ => cases htarget
  · exact Or.inl hc

/-- The pin a fall-through keeps is the session's own. -/
theorem fast_path_kept {k : Kept} (h : m.affinityFastPath r = .fall (some k)) :
    ∃ key pin, r.affinity = some key ∧ m.affinity.get key = some pin ∧ k.pin = pin.1 := by
  obtain ⟨key, pin, untilMs, hk, hp, -, rfl⟩ := fall_kept_cases h
  exact ⟨key, pin, hk, hp, rfl⟩

/-! ## Sessions that never hold the account -/

/-- No session of `K` is pinned to the account or diverts to it. -/
structure Spared (K : Set Key) (idx : Nat) (m : Manager) : Prop where
  pins : ∀ key ∈ K, ∀ pin, m.affinity.get key = some pin → pin.1 ≠ idx
  episodes : ∀ key ∈ K, ∀ e, m.divertLedger.get key = some e → e.sticky ≠ idx

theorem divert_episode_sticky (prior : Option DivertEpisode) (pin : Nat) (untilMs : Int)
    (dest : Nat) : (divertEpisode prior pin untilMs dest).sticky = dest ∨
      ∃ e, prior = some e ∧ (divertEpisode prior pin untilMs dest).sticky = e.sticky := by
  unfold divertEpisode
  cases prior with
  | none => exact Or.inl rfl
  | some e =>
    simp only
    split
    · exact Or.inl rfl
    · split
      · exact Or.inl rfl
      · exact Or.inr ⟨e, rfl, rfl⟩

theorem divert_verdict_sticky {ep : Option DivertEpisode} {pin budget idx : Nat} {untilMs : Int}
    (h : divertVerdict ep pin untilMs budget = .sticky idx) : ∃ e, ep = some e ∧ e.sticky = idx := by
  unfold divertVerdict at h
  split at h
  · cases h
  rename_i e he
  split at h
  · cases h
  · cases h
    exact ⟨e, (Option.filter_eq_some_iff.mp he).1, rfl⟩

namespace Spared

variable {K : Set Key} {idx : Nat} {m' : Manager}

theorem congr (h : Spared K idx m) (ha : m'.affinity = m.affinity)
    (hd : m'.divertLedger = m.divertLedger) : Spared K idx m' :=
  ⟨by rw [ha]; exact h.pins, by rw [hd]; exact h.episodes⟩

theorem write_pin (h : Spared K idx m) {key : Key} {target : Nat} (nowMs : Int)
    (hne : key ∈ K → target ≠ idx) : Spared K idx (m.writePin key target nowMs) := by
  refine ⟨fun k hk pin hp => ?_, h.episodes⟩
  rcases CappedMap.get_insert_some hp with ⟨rfl, rfl⟩ | hold
  · exact hne hk
  · exact h.pins k hk pin hold

theorem record_divert (h : Spared K idx m) {key : Key} (kept : Kept) {dest : Nat}
    (hne : key ∈ K → dest ≠ idx) : Spared K idx (m.recordDivert key kept dest) := by
  rcases m.record_divert_cases key kept dest with hw | ⟨e, rfl, hw⟩
  · rwa [hw]
  rw [hw]
  refine ⟨h.pins, fun k hk e he => ?_⟩
  rcases CappedMap.get_insert_some he with ⟨rfl, rfl⟩ | hold
  · rcases divert_episode_sticky (m.divertLedger.get k) kept.pin kept.untilMs dest with
      hs | ⟨prior, hprior, hs⟩
    · rw [hs]
      exact hne hk
    · rw [hs]
      exact h.episodes k hk prior hprior
  · exact h.episodes k hk e hold

/-- A session outside `K` may write what it likes; one inside must not write the account. -/
theorem settle (h : Spared K idx m) {kept : Option Kept} {best : Nat}
    (hkept : ∀ key ∈ K, r.affinity = some key → ∀ k, kept = some k → k.pin ≠ idx)
    (hbest : ∀ key ∈ K, r.affinity = some key → best ≠ idx) :
    Spared K idx (m.settle r kept (some best)).2 := by
  have hstamp : Spared K idx (m.stamp best) := h.congr rfl rfl
  have hpin : Spared K idx ((m.stamp best).settlePin r kept best) := by
    unfold settlePin
    split
    · rename_i key k hkey
      exact (hstamp.record_divert k fun hK => hbest key hK hkey).write_pin _
        fun hK => hkept key hK hkey k rfl
    · rename_i key hkey
      exact hstamp.write_pin _ fun hK => hbest key hK hkey
    · exact hstamp
  show Spared K idx (((m.stamp best).settlePin r kept best).settleConn r best)
  unfold settleConn
  split
  · exact hpin.congr rfl rfl
  · exact hpin

theorem settle_revalidation (h : Spared K idx m) {kept : Option Kept} {best : Nat}
    (hkept : ∀ key ∈ K, r.affinity = some key → ∀ k, kept = some k → k.pin ≠ idx)
    (hbest : ∀ key ∈ K, r.affinity = some key → best ≠ idx) :
    Spared K idx (m.settleRevalidation r kept best) := by
  unfold settleRevalidation
  split
  · rename_i key k hkey
    exact (h.write_pin _ fun hK => hkept key hK hkey k rfl).record_divert k
      fun hK => hbest key hK hkey
  · rename_i key hkey
    exact h.write_pin _ fun hK => hbest key hK hkey
  · exact h

theorem sticky (h : Spared K idx m) {key : Key} (hK : key ∈ K) (hk : r.affinity = some key)
    {kept : Kept} {dest : Nat} (hs : m.stickyPick r kept = some dest) : dest ≠ idx := by
  obtain ⟨hv, -⟩ := sticky_pick_some hs
  obtain ⟨e, he, rfl⟩ := divert_verdict_sticky hv
  rw [hk] at he
  exact h.episodes key hK e he

theorem revalidation_sticky (h : Spared K idx m) {key : Key} (hK : key ∈ K)
    (hk : r.affinity = some key) {kept : Kept} {dest : Nat}
    (hs : m.revalidationSticky r kept = some dest) : dest ≠ idx := by
  unfold revalidationSticky at hs
  split at hs
  · rename_i i hv
    split at hs
    · cases hs
      obtain ⟨e, he, rfl⟩ := divert_verdict_sticky hv
      rw [hk] at he
      exact h.episodes key hK e he
    · cases hs
  · cases hs

end Spared

/-- An overlay answers no inference and writes into no session. -/
theorem overlay_sessions {idx : Nat} {m' : Manager} (h : m.overlay r = some (idx, m')) :
    r.requestClass ≠ .inference ∧ m'.affinity = m.affinity ∧ m'.divertLedger = m.divertLedger := by
  rcases overlay_cases h with ⟨hc, k, -, rfl⟩ | ⟨hc, -, rfl⟩
  · exact ⟨by simp [hc], rfl, rfl⟩
  · exact ⟨by simp [hc], rfl, rfl⟩

theorem key_of_concern {K : Set Key} {key : Key}
    (hkey : r.requestClass = .inference → ∀ key, r.affinity = some key → key ∈ K)
    (hconcern : r.requestClass = .inference ∨ ∃ key ∈ K, r.affinity = some key)
    (hk : r.affinity = some key) : key ∈ K := by
  rcases hconcern with hc | ⟨key', hK, hk'⟩
  · exact hkey hc key hk
  · rw [hk] at hk'
    cases hk'
    exact hK

/-- The pool does not give inference the account it leaves out, nor another request one that its
selection does not take. -/
theorem pool_pick_spared {c : Nat} {kept : Option Kept}
    (hout : r.requestClass = .inference → m.controlExcluded r = some c)
    (hno : ¬ m.SelectTakes r c) (hfall : m.affinityFastPath r = .fall kept)
    (hover : kept = none → m.overlay r = none)
    (hstick : ∀ k, kept = some k → m.stickyPick r k = none) : m.poolPick r ≠ some c := by
  intro hpick
  by_cases hc : r.requestClass = .inference
  · refine pool_pick_untried hpick ?_
    simp [poolTried, hout hc]
  · exact hno (.pool hc ⟨kept, hfall, hover, hstick⟩ (pool_pick_first hpick))

/-- A selection that takes the control account into no session of `K` answers no inference with it
and leaves those sessions free of it. -/
theorem select_core_spared {K : Set Key} {c : Nat} (h : Spared K c m)
    (hl : m.lockedAccountFor r.provider = none)
    (hout : r.requestClass = .inference → m.controlExcluded r = some c)
    (hkey : r.requestClass = .inference → ∀ key, r.affinity = some key → key ∈ K)
    (hno : (r.requestClass = .inference ∨ ∃ key ∈ K, r.affinity = some key) →
      ¬ m.SelectTakes r c) :
    (r.requestClass = .inference → (m.selectCore r).1 ≠ some c) ∧
      Spared K c (m.selectCore r).2 := by
  simp only [selectCore, hl]
  split
  · rename_i idx m' hserved
    obtain ⟨key, pin, target, hk, hp, rfl, hidx⟩ := fast_path_served hserved
    have hne : key ∈ K → idx ≠ c := by
      rintro hK rfl
      rcases hidx with hidx | htakes
      · exact h.pins key hK pin hp hidx.symm
      · exact hno (Or.inr ⟨key, hK, hk⟩) htakes
    refine ⟨fun hc => ?_, (h.congr rfl rfl : Spared K c (m.stamp target)).write_pin _ hne⟩
    simpa using hne (hkey hc key hk)
  rename_i kept hfall
  -- what is left to settle once an account is picked off the pin
  have hsettle : ∀ best : Option Nat,
      ((r.requestClass = .inference ∨ ∃ key ∈ K, r.affinity = some key) → best ≠ some c) →
      (r.requestClass = .inference → (m.settle r kept best).1 ≠ some c) ∧
        Spared K c (m.settle r kept best).2 := by
    intro best hbest
    refine ⟨fun hc => by rw [settle_fst]; exact hbest (Or.inl hc), ?_⟩
    cases best with
    | none => exact h
    | some idx =>
      refine h.settle (fun key hK hk k hkept => ?_) fun key hK hk hidx =>
        hbest (Or.inr ⟨key, hK, hk⟩) (by rw [hidx])
      obtain ⟨key', pin, hk', hp, hpin⟩ := fast_path_kept (hkept ▸ hfall)
      rw [hk] at hk'
      cases hk'
      rw [hpin]
      exact h.pins key hK pin hp
  cases kept with
  | none =>
    simp only [selectOffPin]
    split
    · rename_i idx m' hover
      obtain ⟨hc, ha, hd⟩ := overlay_sessions hover
      exact ⟨fun hinf => absurd hinf hc, h.congr ha hd⟩
    · rename_i hover
      refine hsettle _ fun hconcern hpick => ?_
      exact pool_pick_spared hout (hno hconcern) hfall (fun _ => hover) (by simp) hpick
  | some k =>
    refine hsettle _ fun hconcern hpick => ?_
    obtain ⟨key, pin, hk, -, -⟩ := fast_path_kept hfall
    have hK : key ∈ K := key_of_concern hkey hconcern hk
    cases hs : m.stickyPick r k with
    | some dest =>
      rw [hs] at hpick
      cases hpick
      exact h.sticky hK hk hs rfl
    | none =>
      rw [hs] at hpick
      refine pool_pick_spared hout (hno hconcern) hfall (by simp) (fun k' hk' => ?_) hpick
      cases hk'
      exact hs

/-- A revalidation that takes the control account into no session of `K` answers no inference with
it and leaves those sessions free of it. -/
theorem revalidation_core_spared {K : Set Key} {c : Nat} (h : Spared K c m)
    (hkey : r.requestClass = .inference → ∀ key, r.affinity = some key → key ∈ K)
    (hno : (r.requestClass = .inference ∨ ∃ key ∈ K, r.affinity = some key) →
      ¬ m.RevalidationTakes r c) :
    (r.requestClass = .inference → (m.revalidationCore r).1 ≠ some c) ∧
      Spared K c (m.revalidationCore r).2 := by
  have hpinned : ∀ key ∈ K, r.affinity = some key → m.pinnedIdx r ≠ some c := by
    intro key hK hk hp
    simp only [pinnedIdx, hk, Option.bind_some, Option.map_eq_some_iff] at hp
    obtain ⟨pin, hp, hpin⟩ := hp
    exact h.pins key hK pin hp hpin
  have hpin : ∀ idx, m.pinnedIdx r = some idx → ∃ key, r.affinity = some key := by
    intro idx hp
    cases hk : r.affinity with
    | none => simp [pinnedIdx, hk] at hp
    | some key => exact ⟨key, rfl⟩
  have hown : r.requestClass = .inference → m.pinnedIdx r ≠ some c := by
    intro hc hp
    obtain ⟨key, hk⟩ := hpin c hp
    exact hpinned key (hkey hc key hk) hk hp
  unfold revalidationCore
  split
  · rename_i idx hhonor
    refine ⟨fun hc hidx => ?_, h.congr rfl rfl⟩
    cases hidx
    exact hown hc (Option.filter_eq_some_iff.mp hhonor).1
  rename_i hhonor
  unfold revalidationFallback
  split
  · exact ⟨by simp, h⟩
  rename_i idx hpick
  split
  · exact ⟨by simp, h⟩
  rename_i hdue
  have hkept : ∀ k, m.revalidationKept r = some k → m.pinnedIdx r = some k.pin := by
    intro k hk
    obtain ⟨i, hi, rfl⟩ := Option.map_eq_some_iff.mp hk
    exact (Option.filter_eq_some_iff.mp hi).1
  have hne : (r.requestClass = .inference ∨ ∃ key ∈ K, r.affinity = some key) → idx ≠ c := by
    rintro hconcern rfl
    rcases Option.or_eq_some_iff.mp hpick with hs | ⟨hs, hleast⟩
    · obtain ⟨k, hk, hs⟩ := Option.bind_eq_some_iff.mp hs
      obtain ⟨key, haff⟩ := hpin _ (hkept k hk)
      exact h.revalidation_sticky (key_of_concern hkey hconcern haff) haff hs rfl
    · obtain ⟨k, hfirst⟩ := Lib.scan_best_some hleast
      refine hno hconcern ⟨hhonor, fun k hk => ?_, not_lt.mp hdue, k, hfirst⟩
      rw [hk] at hs
      exact hs
  refine ⟨fun hc => by simpa using hne (Or.inl hc), ?_⟩
  have hspent : Spared K c ((m.spendRevalidation r.provider r.nowMs).stamp idx) :=
    h.congr (by cases r.provider <;> rfl) (by cases r.provider <;> rfl)
  refine hspent.settle_revalidation (fun key hK hk k hk' hpin => ?_) fun key hK hk =>
    hne (Or.inr ⟨key, hK, hk⟩)
  exact hpinned key hK hk (hpin ▸ hkept k hk')

/-! ## Runs -/

def inferenceSessions (calls : List Call) : Set Key :=
  { key | ∃ c ∈ calls, c.request.requestClass = .inference ∧ c.request.affinity = some key }

/-- The call is made for inference, or for a session that also sends inference. -/
def Concerns (calls : List Call) (c : Call) : Prop :=
  c.request.requestClass = .inference ∨
    ∃ key ∈ inferenceSessions calls, c.request.affinity = some key

/-- The control account is the one at `idx`, and the group asked for has not opted in to it. -/
structure Guarded (idx : Nat) (m : Manager) (c : Call) : Prop where
  control : (m.live c).controlIdx = some idx
  shut : ∀ g, c.group = some g → g ∉ (m.live c).groups.controlAllowed

/-- A manager without sessions, without a lock and with the control account out of the pool. -/
structure Unseeded (m : Manager) : Prop where
  unpooled : m.controlPooled = false
  unlocked : m.lockedIdx = none
  pins : ∀ key, m.affinity.get key = none
  episodes : ∀ key, m.divertLedger.get key = none

theorem Write.control_pooled {m m' : Manager} (h : Write m m') :
    m'.controlPooled = m.controlPooled := by
  cases h with
  | divert key kept dest => rcases m.record_divert_cases key kept dest with h | ⟨_, -, h⟩ <;> rw [h]
  | spend provider nowMs => cases provider <;> rfl
  | _ => rfl

theorem Write.locked_idx {m m' : Manager} (h : Write m m') : m'.lockedIdx = m.lockedIdx := by
  cases h with
  | divert key kept dest => rcases m.record_divert_cases key kept dest with h | ⟨_, -, h⟩ <;> rw [h]
  | spend provider nowMs => cases provider <;> rfl
  | _ => rfl

section Step

variable {c : Call}

theorem swept_control_pooled : (m.swept c).controlPooled = m.controlPooled := by
  obtain ⟨_, h⟩ := m.swept_eq c
  rw [h]
  exact m.reload_control_pooled c.disk

theorem swept_locked_idx : (m.swept c).lockedIdx = m.lockedIdx := by
  obtain ⟨_, h⟩ := m.swept_eq c
  rw [h]
  unfold live
  cases c.disk <;> rfl

theorem next_control_pooled : (m.next c).controlPooled = m.controlPooled :=
  ((m.next_writes c).frame controlPooled Write.control_pooled).trans swept_control_pooled

theorem next_locked_idx : (m.next c).lockedIdx = m.lockedIdx :=
  ((m.next_writes c).frame lockedIdx Write.locked_idx).trans swept_locked_idx

theorem Spared.swept {K : Set Key} {idx : Nat} (h : Spared K idx m) : Spared K idx (m.swept c) := by
  refine ⟨fun key hK pin hp => h.pins key hK pin (swept_get_some hp), ?_⟩
  rw [swept_divert_ledger]
  exact h.episodes

/-- One call keeps the sessions of `K` free of the control account, and answers no inference with
it, unless it takes it in. -/
theorem call_spared {K : Set Key} {idx : Nat} (h : Spared K idx m) (hg : m.Guarded idx c)
    (hpooled : m.controlPooled = false) (hlocked : m.lockedIdx = none)
    (hkey : c.request.requestClass = .inference → ∀ key, c.request.affinity = some key → key ∈ K)
    (hno : (c.request.requestClass = .inference ∨ ∃ key ∈ K, c.request.affinity = some key) →
      ¬ m.Takes c idx) :
    (c.request.requestClass = .inference → m.answer c ≠ some idx) ∧ Spared K idx (m.next c) := by
  rw [← m.screened_request_class c, ← m.screened_affinity c] at hkey hno
  rw [← m.screened_request_class c]
  cases c with
  | select disk r =>
    have hl : (m.swept (.select disk r)).lockedAccountFor (m.screened (.select disk r)).provider =
        none := by
      rw [lockedAccountFor, swept_locked_idx, hlocked]
      rfl
    rw [answer, next, run_select]
    refine select_core_spared h.swept hl (fun hc => ?_) hkey hno
    rw [swept_control_excluded]
    rw [screened_request_class] at hc
    have hunpooled : (m.live (.select disk r)).controlPooled = false :=
      (m.reload_control_pooled disk).trans hpooled
    have hshut : (m.live (.select disk r)).optedIn r.group idx = false := by
      unfold optedIn
      cases hgroup : r.group with
      | none => rfl
      | some g => simp [hg.shut g hgroup]
    unfold controlExcluded
    rw [if_pos ⟨hc, hunpooled⟩, hg.control]
    simp [Call.request, hshut]
  | revalidate disk r =>
    rw [answer, next, run_revalidate]
    exact revalidation_core_spared h.swept hkey hno

end Step

/-- In a run from empty sessions whose calls take the control account into no session that sends
inference, no inference call is answered with it. -/
theorem inference_never_control (m : Manager) (calls : List Call) (idx : Nat) (h0 : m.Unseeded)
    (hg : Lib.EachStep next (Guarded idx) m calls)
    (hno : Lib.EachStep next (fun m c => Concerns calls c → ¬ m.Takes c idx) m calls) :
    Lib.EachStep next
      (fun m c => c.request.requestClass = .inference → m.answer c ≠ some idx) m calls := by
  have hcall : ∀ pre c, pre ++ [c] <+: calls → c ∈ calls := by
    intro pre c hpre
    exact hpre.subset (by simp)
  refine Lib.each_step_of_invariant
    (I := fun m => (m.controlPooled = false ∧ m.lockedIdx = none) ∧
      Spared (inferenceSessions calls) idx m)
    (A := fun m c => c ∈ calls ∧ Guarded idx m c ∧ (Concerns calls c → ¬ m.Takes c idx))
    (fun m c hI hok => ?_) (fun m c hI hok hc => ?_) ?_
    fun pre c hpre => ⟨hcall pre c hpre, hg pre c hpre, hno pre c hpre⟩
  · refine ⟨⟨next_control_pooled.trans hI.1.1, next_locked_idx.trans hI.1.2⟩, ?_⟩
    exact (call_spared hI.2 hok.2.1 hI.1.1 hI.1.2
      (fun hc key hk => ⟨c, hok.1, hc, hk⟩) hok.2.2).2
  · exact (call_spared hI.2 hok.2.1 hI.1.1 hI.1.2
      (fun hc key hk => ⟨c, hok.1, hc, hk⟩) hok.2.2).1 hc
  · refine ⟨⟨h0.unpooled, h0.unlocked⟩, fun key _ pin hp => ?_, fun key _ e he => ?_⟩
    · rw [h0.pins] at hp
      cases hp
    · rw [h0.episodes] at he
      cases he

/-- A pool account and an enabled control account. -/
def guardedFleet : Manager :=
  new { accounts := [{ name := "a", provider := .anthropic },
      { name := "c", provider := .anthropic }], controlAccount := some "c" }

def sessionTurn : Request :=
  { now := 0, path := "/v1/messages", affinity := some 1 }

/-- A turn and a revalidation of one session, both served by the pool account. -/
theorem session_never_control : Lib.EachStep next
    (fun m c => c.request.requestClass = .inference → m.answer c ≠ some 1) guardedFleet
      [.select none sessionTurn, .revalidate none sessionTurn] := by
  refine inference_never_control guardedFleet _ 1 ⟨rfl, rfl, fun key => rfl, fun key => rfl⟩ ?_ ?_
  · rw [Lib.each_step_cons, Lib.each_step_cons]
    exact ⟨⟨by decide +kernel, by simp [Call.group, sessionTurn]⟩,
      ⟨by decide +kernel, by simp [Call.group]⟩, Lib.each_step_nil⟩
  · rw [Lib.each_step_cons, Lib.each_step_cons]
    refine ⟨fun _ h => ?_, fun _ h => ?_, Lib.each_step_nil⟩
    · cases h with
      | migrated hk hp hs he hload hon h => cases hon
      | pool hc hr h => exact hc (by decide +kernel)
    · have hhonor := h.unpinned
      revert hhonor
      decide +kernel

/-- The same fleet with a hold on the pool account. -/
def heldFleet : Manager :=
  { guardedFleet with
    accounts := guardedFleet.accounts.modify 0 fun a =>
      { a with rateLimitedUntilMs := some 60000 } }

/-- The session's turn finds no pool account, its revalidation takes the control account in, and
the next turn is served by it. -/
theorem held_session_gets_control :
    heldFleet.Unseeded ∧ (∀ key, heldFleet.connAffinity.get key = none) ∧
    (heldFleet.account 1).any (fun a => !a.disabled) = true ∧
    Lib.EachStep next (Guarded 1) heldFleet
      [.select none sessionTurn, .revalidate none sessionTurn, .select none sessionTurn] ∧
    ¬ Lib.EachStep next
      (fun m c => c.request.requestClass = .inference → m.answer c ≠ some 1) heldFleet
        [.select none sessionTurn, .revalidate none sessionTurn, .select none sessionTurn] := by
  refine ⟨⟨rfl, rfl, fun key => rfl, fun key => rfl⟩, fun key => rfl, by decide +kernel, ?_, ?_⟩
  · simp only [Lib.each_step_cons]
    exact ⟨⟨by decide +kernel, by simp [Call.group, sessionTurn]⟩,
      ⟨by decide +kernel, by simp [Call.group]⟩,
      ⟨by decide +kernel, by simp [Call.group, sessionTurn]⟩, Lib.each_step_nil⟩
  · intro h
    simp only [Lib.each_step_cons] at h
    exact h.2.2.1 (by decide +kernel) (by decide +kernel)

end Manager

end TeamClaude
