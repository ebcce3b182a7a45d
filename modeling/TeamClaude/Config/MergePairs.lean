import TeamClaude.Config.PlanMerge
import Mathlib.Data.Fin.Basic
import Mathlib.Logic.Equiv.Basic

/-!
# The pairs a merge writes

The passes over the entries commit ready pairs until none is left, and a matching that is reached so
does not depend on the order in which entries and accounts stand.
-/

namespace TeamClaude

open Lib.Json Lib.Pairing

/-! ## One pass commits ready pairs -/

/-- The entry at `i` and the account at `p` both have an identity that satisfies `r`. -/
def matchBy (r : Account → Account → Bool) (probes : List (Option Account))
    (memory : List Account) (i p : Nat) : Prop :=
  ∃ probe account, probes[i]? = some (some probe) ∧ memory[p]? = some account ∧
    r probe account = true

theorem match_by_strict (probes : List (Option Account)) (memory : List Account) (i p : Nat)
    (h : matchBy sameIdentityStrict probes memory i p) :
    matchBy sameIdentity probes memory i p := by
  obtain ⟨probe, account, hprobe, hmem, hstrict⟩ := h
  exact ⟨probe, account, hprobe, hmem, same_identity_of_strict hstrict⟩

namespace Pairing

def pairs (s : Pairing) : Set (Nat × Nat) :=
  {p | s.plan[p.1]? = some (some (.write p.2))}

/-- The plan is open for the entries with an identity that are in no pair, and the accounts in no
pair are unclaimed. -/
structure Tracks (probes : List (Option Account)) (memory : List Account) (s : Pairing) :
    Prop where
  length : s.plan.length = probes.length
  claimed : s.claimed.length = memory.length
  isOpen : ∀ i, s.plan[i]? = some none ↔
    (∃ probe, probes[i]? = some (some probe)) ∧ ∀ p, (i, p) ∉ s.pairs
  isFree : ∀ p, s.claimed[p]? = some false ↔ p < memory.length ∧ ∀ i, (i, p) ∉ s.pairs

section Tracks

variable {probes : List (Option Account)} {memory : List Account} {s : Pairing}

theorem mem_unclaimed (h : s.Tracks probes memory) {p : Nat} {account : Account} :
    (p, account) ∈ s.unclaimed memory ↔ memory[p]? = some account ∧ ∀ i, (i, p) ∉ s.pairs := by
  have hz : (p, account) ∈ memory.zipIdx.map Prod.swap ↔ memory[p]? = some account := by
    rw [List.mem_map]
    constructor
    · rintro ⟨c, hc, he⟩
      cases he
      exact List.mem_zipIdx_iff_getElem?.mp hc
    · exact fun hm => ⟨(account, p), List.mem_zipIdx_iff_getElem?.mpr hm, rfl⟩
  rw [unclaimed, List.mem_filter, hz, decide_eq_true_iff, h.isFree]
  refine ⟨fun ⟨hm, _, hfree⟩ => ⟨hm, hfree⟩, fun ⟨hm, hfree⟩ => ⟨hm, ?_, hfree⟩⟩
  exact (List.getElem?_eq_some_iff.mp hm).1

theorem mem_unsettled (h : s.Tracks probes memory) {i : Nat} {probe : Account} :
    (i, probe) ∈ s.unsettled probes ↔
      probes[i]? = some (some probe) ∧ ∀ p, (i, p) ∉ s.pairs := by
  rw [unsettled, List.mem_filterMap]
  constructor
  · rintro ⟨⟨c, j⟩, hc, he⟩
    split at he
    · rename_i hopen
      obtain ⟨probe', rfl, he⟩ := Option.map_eq_some_iff.mp he
      cases he
      exact ⟨List.mem_zipIdx_iff_getElem?.mp hc, ((h.isOpen _).mp hopen).2⟩
    · cases he
  · rintro ⟨hi, hfree⟩
    refine ⟨(some probe, i), List.mem_zipIdx_iff_getElem?.mpr hi, ?_⟩
    rw [if_pos ((h.isOpen i).mpr ⟨⟨probe, hi⟩, hfree⟩)]
    rfl

theorem nodup_unclaimed : ((s.unclaimed memory).map Prod.fst).Nodup := by
  have hz : (memory.zipIdx.map Prod.swap).map Prod.fst = List.range' 0 memory.length := by
    rw [List.map_map, show Prod.fst ∘ Prod.swap = (Prod.snd : Account × Nat → Nat) from rfl,
      List.zipIdx_map_snd]
  exact List.Nodup.sublist (List.filter_sublist.map _) (hz ▸ List.nodup_range')

theorem nodup_unsettled : ((s.unsettled probes).map Prod.fst).Nodup := by
  have hsub : ((s.unsettled probes).map Prod.fst).Sublist (probes.zipIdx.map Prod.snd) := by
    rw [unsettled]
    generalize probes.zipIdx = l
    induction l with
    | nil => exact .refl _
    | cons c l ih =>
      rw [List.filterMap_cons, List.map_cons]
      split
      · exact ih.cons _
      · rename_i he
        split at he
        · obtain ⟨probe, -, rfl⟩ := Option.map_eq_some_iff.mp he
          exact ih.cons_cons _
        · cases he
  exact List.Nodup.sublist hsub (List.zipIdx_map_snd 0 probes ▸ List.nodup_range')

/-- An open entry and an account resolve to each other exactly when their pair is ready. -/
theorem ready_iff (h : s.Tracks probes memory) {i p : Nat} {probe account : Account}
    (hi : probes[i]? = some (some probe)) (hp : memory[p]? = some account) :
    Ready (matchBy sameIdentity probes memory) (matchBy sameIdentityStrict probes memory)
        s.pairs (i, p) ↔
      resolveAmong (s.unclaimed memory) probe = .one p ∧
        resolveAmong (s.unsettled probes) account = .one i := by
  have hright : ∀ r : Account → Account → Bool,
      rightOf (matchBy r probes memory) s.pairs i =
        {p | ∃ a, (p, a) ∈ s.unclaimed memory ∧ r probe a = true} := by
    intro r
    ext q
    constructor
    · rintro ⟨⟨probe', a, hi', hq, hr⟩, hfree⟩
      rw [hi] at hi'
      cases hi'
      exact ⟨a, (mem_unclaimed h).mpr ⟨hq, hfree⟩, hr⟩
    · rintro ⟨a, ha, hr⟩
      obtain ⟨hq, hfree⟩ := (mem_unclaimed h).mp ha
      exact ⟨⟨probe, a, hi, hq, hr⟩, hfree⟩
  have hleft : ∀ r : Account → Account → Bool, (∀ a b, r a b = r b a) →
      leftOf (matchBy r probes memory) s.pairs p =
        {i | ∃ a, (i, a) ∈ s.unsettled probes ∧ r account a = true} := by
    intro r hcomm
    ext j
    constructor
    · rintro ⟨⟨probe', a, hj, hp', hr⟩, hfree⟩
      rw [hp] at hp'
      cases hp'
      exact ⟨probe', (mem_unsettled h).mpr ⟨hj, hfree⟩, hcomm probe' account ▸ hr⟩
    · rintro ⟨a, ha, hr⟩
      obtain ⟨hj, hfree⟩ := (mem_unsettled h).mp ha
      exact ⟨⟨a, account, hj, hp, hcomm account a ▸ hr⟩, hfree⟩
  rw [resolve_among_one nodup_unclaimed, resolve_among_one nodup_unsettled, ← hright, ← hright,
    ← hleft _ same_identity_comm, ← hleft _ same_identity_strict_comm]
  exact ⟨fun h => ⟨h.right, h.left⟩, fun h => ⟨h.1, h.2⟩⟩

/-- What pairing one entry does: nothing when no account is ready for it, and otherwise it commits
the one that is. -/
inductive PairedOne (probes : List (Option Account)) (memory : List Account) (s : Pairing)
    (index : Nat) : Pairing → Prop
  | idle (h : ∀ p, ¬ Ready (matchBy sameIdentity probes memory)
      (matchBy sameIdentityStrict probes memory) s.pairs (index, p)) :
      PairedOne probes memory s index s
  | commit (p : Nat)
      (h : Ready (matchBy sameIdentity probes memory)
        (matchBy sameIdentityStrict probes memory) s.pairs (index, p))
      (hopen : s.plan[index]? = some none) (hfree : s.claimed[p]? = some false) :
      PairedOne probes memory s index (s.commit index p)

theorem pair_one_cases (h : s.Tracks probes memory) (index : Nat) :
    PairedOne probes memory s index (s.pairOne probes memory index) := by
  have hready : ∀ p, Ready (matchBy sameIdentity probes memory)
      (matchBy sameIdentityStrict probes memory) s.pairs (index, p) →
      ∃ probe account, probes[index]? = some (some probe) ∧ memory[p]? = some account ∧
        s.plan[index]? = some none := by
    intro p hp
    obtain ⟨probe, account, hi, hm, -⟩ := hp.matches (match_by_strict probes memory)
    exact ⟨probe, account, hi, hm, (h.isOpen index).mpr
      ⟨⟨probe, hi⟩, hp.free_left (match_by_strict probes memory)⟩⟩
  unfold pairOne
  split
  · rename_i hopen
    refine .idle fun p hp => ?_
    obtain ⟨probe, account, hi, hm, hplan⟩ := hready p hp
    rw [openProbe, if_pos hplan, hi] at hopen
    cases hopen
  · rename_i probe hopen
    rw [openProbe] at hopen
    split at hopen
    · rename_i hplan
      have hi : probes[index]? = some (some probe) := Option.join_eq_some_iff.mp hopen
      split
      · rename_i position hone
        have hmem := (resolve_among_one nodup_unclaimed).mp hone
        obtain ⟨account, hacc, -⟩ := hmem.loose (strict_among_subset _ _)
        obtain ⟨hm, hfree⟩ := (mem_unclaimed h).mp hacc
        rw [hm]
        dsimp only
        split
        · rename_i hmutual
          exact .commit position ((ready_iff h hi hm).mpr ⟨hone, hmutual⟩) hplan
            ((h.isFree position).mpr ⟨(List.getElem?_eq_some_iff.mp hm).1, hfree⟩)
        · rename_i hmutual
          refine .idle fun p hp => ?_
          obtain ⟨-, account', -, hm', -⟩ := hready p hp
          obtain ⟨hone', hmutual'⟩ := (ready_iff h hi hm').mp hp
          rw [hone] at hone'
          cases hone'
          rw [hm] at hm'
          cases hm'
          exact hmutual hmutual'
      · rename_i hnot
        refine .idle fun p hp => ?_
        obtain ⟨-, account, -, hm, -⟩ := hready p hp
        exact hnot p ((ready_iff h hi hm).mp hp).1
    · cases hopen

theorem get_commit {index p i : Nat} (hopen : s.plan[index]? = some none) :
    (s.commit index p).plan[i]? = if i = index then some (some (.write p)) else s.plan[i]? := by
  show (s.plan.set index (some (.write p)))[i]? = _
  split
  · rename_i hi
    rw [hi, List.getElem?_set_self (List.getElem?_eq_some_iff.mp hopen).1]
  · rename_i hi
    rw [List.getElem?_set_ne (Ne.symm hi)]

theorem pairs_commit {index p : Nat} (hopen : s.plan[index]? = some none) :
    (s.commit index p).pairs = insert (index, p) s.pairs := by
  ext ⟨i, q⟩
  show (s.commit index p).plan[i]? = some (some (.write q)) ↔
    (i, q) = (index, p) ∨ s.plan[i]? = some (some (.write q))
  rw [get_commit hopen]
  split
  · rename_i hi
    rw [hi, hopen]
    simp [eq_comm]
  · rename_i hi
    simp [hi]

theorem Tracks.commit (h : s.Tracks probes memory) {index p : Nat}
    (hopen : s.plan[index]? = some none) (hfree : s.claimed[p]? = some false) :
    (s.commit index p).Tracks probes memory := by
  have hp : p < s.claimed.length := (List.getElem?_eq_some_iff.mp hfree).1
  refine ⟨?_, ?_, fun i => ?_, fun q => ?_⟩
  · rw [Pairing.commit, List.length_set, h.length]
  · rw [Pairing.commit, List.length_set, h.claimed]
  · rw [get_commit hopen, pairs_commit hopen]
    split
    · rename_i hi
      exact ⟨nofun, fun hno => absurd (.inl (by rw [hi])) (hno.2 p)⟩
    · rename_i hi
      rw [h.isOpen]
      refine and_congr Iff.rfl (forall_congr' fun q => not_congr ⟨.inr, fun hq => hq.elim ?_ id⟩)
      exact fun he => absurd (congrArg Prod.fst he) hi
  · rw [pairs_commit hopen]
    show (s.claimed.set p true)[q]? = some false ↔ _
    by_cases hq : p = q
    · subst hq
      rw [List.getElem?_set_self hp]
      exact ⟨nofun, fun hno => absurd (.inl rfl) (hno.2 index)⟩
    · rw [List.getElem?_set_ne hq, h.isFree]
      refine and_congr Iff.rfl (forall_congr' fun i => not_congr ⟨.inr, fun hi => hi.elim ?_ id⟩)
      exact fun he => absurd (congrArg Prod.snd he).symm hq

def openCount (s : Pairing) : Nat :=
  s.plan.countP fun plan => decide (plan = none)

theorem open_count_commit {index p : Nat} (hopen : s.plan[index]? = some none) :
    (s.commit index p).openCount + 1 = s.openCount := by
  obtain ⟨hlt, hget⟩ := List.getElem?_eq_some_iff.mp hopen
  have hpos : 0 < s.openCount :=
    List.countP_pos_iff.mpr ⟨none, List.mem_of_getElem? hopen, by simp⟩
  have hset : (s.commit index p).openCount = s.openCount - 1 := by
    show (s.plan.set index (some (.write p))).countP _ = _
    rw [List.countP_set hlt, hget]
    simp [openCount]
  omega

/-- What a stretch of a pass does: it commits ready pairs and closes a plan with each, or it finds
no ready pair at all. -/
structure Passed (probes : List (Option Account)) (memory : List Account) (indices : List Nat)
    (s s' : Pairing) : Prop where
  tracks : s'.Tracks probes memory
  reaches : Relation.ReflTransGen
    (Commit (matchBy sameIdentity probes memory) (matchBy sameIdentityStrict probes memory))
    s.pairs s'.pairs
  progress : s'.progressed = true → s.progressed = true ∨ s'.openCount < s.openCount
  count : s'.openCount ≤ s.openCount
  idle : s'.progressed = false → s' = s ∧ ∀ i ∈ indices, ∀ p,
    ¬ Ready (matchBy sameIdentity probes memory) (matchBy sameIdentityStrict probes memory)
      s.pairs (i, p)

theorem passed_pair_one (h : s.Tracks probes memory) (index : Nat) :
    Passed probes memory [index] s (s.pairOne probes memory index) := by
  have hone := pair_one_cases h index
  generalize s.pairOne probes memory index = s' at hone ⊢
  cases hone with
  | idle hidle =>
    refine ⟨h, .refl, .inl, le_refl _, fun _ => ⟨rfl, ?_⟩⟩
    exact fun i hi => List.mem_singleton.mp hi ▸ hidle
  | commit p hready hopen hfree =>
    have hcount := open_count_commit (p := p) hopen
    refine ⟨h.commit hopen hfree, .single ⟨_, hready, pairs_commit hopen⟩, ?_, by omega, nofun⟩
    exact fun _ => .inr (by omega)

theorem passed_foldl (h : s.Tracks probes memory) (indices : List Nat) :
    Passed probes memory indices s (indices.foldl (pairOne probes memory) s) := by
  induction indices generalizing s with
  | nil => exact ⟨h, .refl, .inl, le_refl _, fun _ => ⟨rfl, nofun⟩⟩
  | cons index rest ih =>
    rw [List.foldl_cons]
    have hhead := passed_pair_one h index
    have htail := ih hhead.tracks
    refine ⟨htail.tracks, hhead.reaches.trans htail.reaches, fun hp => ?_,
      htail.count.trans hhead.count, fun hp => ?_⟩
    · rcases htail.progress hp with hs | hlt
      · exact (hhead.progress hs).imp id fun hlt => Nat.lt_of_le_of_lt htail.count hlt
      · exact .inr (Nat.lt_of_lt_of_le hlt hhead.count)
    · obtain ⟨heq, hrest⟩ := htail.idle hp
      rw [heq] at hp
      obtain ⟨heq', hhere⟩ := hhead.idle hp
      refine ⟨heq.trans heq', fun i hi => ?_⟩
      rcases List.mem_cons.mp hi with rfl | hi
      · exact hhere _ (List.mem_singleton_self _)
      · rw [heq'] at hrest
        exact hrest i hi

/-- A pass that pairs nothing leaves no pair ready; any other one closes a plan. -/
theorem round_cases (h : s.Tracks probes memory) :
    (s.round probes memory).Tracks probes memory ∧
      Relation.ReflTransGen (Commit (matchBy sameIdentity probes memory)
        (matchBy sameIdentityStrict probes memory)) s.pairs (s.round probes memory).pairs ∧
      (if (s.round probes memory).progressed then
        (s.round probes memory).openCount < s.openCount
      else Settled (matchBy sameIdentity probes memory) (matchBy sameIdentityStrict probes memory)
        (s.round probes memory).pairs) := by
  have hstart : ({ s with progressed := false } : Pairing).Tracks probes memory :=
    ⟨h.length, h.claimed, h.isOpen, h.isFree⟩
  have hpass := passed_foldl hstart (List.range probes.length)
  refine ⟨hpass.tracks, hpass.reaches, ?_⟩
  split
  · rename_i hp
    exact (hpass.progress hp).resolve_left nofun
  · rename_i hp
    obtain ⟨heq, hidle⟩ := hpass.idle (Bool.eq_false_iff.mpr hp)
    rintro ⟨i, p⟩ hready
    obtain ⟨probe, account, hi, -⟩ := hready.matches (match_by_strict probes memory)
    rw [round, heq] at hready
    exact hidle i (List.mem_range.mpr (List.getElem?_eq_some_iff.mp hi).1) p hready

/-- With a pass for every open plan and one more, no pair is left ready. -/
theorem settle_settled (h : s.Tracks probes memory) {fuel : Nat} (hfuel : s.openCount < fuel) :
    (s.settle probes memory fuel).Tracks probes memory ∧
      Relation.ReflTransGen (Commit (matchBy sameIdentity probes memory)
        (matchBy sameIdentityStrict probes memory)) s.pairs
        (s.settle probes memory fuel).pairs ∧
      Settled (matchBy sameIdentity probes memory) (matchBy sameIdentityStrict probes memory)
        (s.settle probes memory fuel).pairs := by
  induction fuel generalizing s with
  | zero => omega
  | succ fuel ih =>
    obtain ⟨htracks, hreach, hcase⟩ := round_cases h
    rw [settle]
    split at hcase
    · rename_i hp
      rw [if_pos hp]
      obtain ⟨htracks', hreach', hsettled⟩ := ih htracks (by omega)
      exact ⟨htracks', hreach.trans hreach', hsettled⟩
    · rename_i hp
      rw [if_neg hp]
      exact ⟨htracks, hreach, hcase⟩

end Tracks

end Pairing

/-! ## The plan of a whole file -/

theorem get_probes_of {entries : List Value} {i : Nat} {found : Account} :
    (probesOf entries)[i]? = some (some found) ↔
      ∃ entry, entries[i]? = some entry ∧ probeOfEntry entry = .ok found := by
  rw [probesOf, List.getElem?_map, Option.map_eq_some_iff]
  refine exists_congr fun entry => and_congr_right fun _ => ?_
  cases probeOfEntry entry <;> simp [Except.toOption]

theorem get_start {entries : List Value} {memory : List Account} {i : Nat} :
    (Pairing.start entries memory).plan[i]? = some none ↔
      ∃ found, (probesOf entries)[i]? = some (some found) := by
  simp only [get_probes_of]
  show (entries.map _)[i]? = some none ↔ _
  rw [List.getElem?_map, Option.map_eq_some_iff]
  constructor
  · rintro ⟨entry, hi, he⟩
    cases hp : probeOfEntry entry with
    | error reason => simp [hp] at he
    | ok found => exact ⟨found, entry, hi, hp⟩
  · rintro ⟨found, entry, hi, hp⟩
    exact ⟨entry, hi, by rw [hp]⟩

theorem pairs_start (entries : List Value) (memory : List Account) :
    (Pairing.start entries memory).pairs = ∅ := by
  refine Set.eq_empty_of_forall_notMem fun ⟨i, p⟩ hp => ?_
  obtain ⟨entry, -, he⟩ := Option.map_eq_some_iff.mp ((List.getElem?_map ..).symm.trans hp)
  cases hprobe : probeOfEntry entry <;> simp [hprobe] at he

theorem tracks_start (entries : List Value) (memory : List Account) :
    (Pairing.start entries memory).Tracks (probesOf entries) memory where
  length := by simp [Pairing.start, probesOf]
  claimed := by simp [Pairing.start]
  isOpen i := by simp [get_start, pairs_start]
  isFree p := by
    rw [pairs_start]
    simp [Pairing.start, List.getElem?_replicate]

/-- The pairs of the finished passes are reached from none by committing ready ones, until none is
left. -/
theorem final_settled (entries : List Value) (memory : List Account) :
    (Pairing.final entries memory).Tracks (probesOf entries) memory ∧
      Relation.ReflTransGen (Commit (matchBy sameIdentity (probesOf entries) memory)
        (matchBy sameIdentityStrict (probesOf entries) memory)) ∅
        (Pairing.final entries memory).pairs ∧
      Settled (matchBy sameIdentity (probesOf entries) memory)
        (matchBy sameIdentityStrict (probesOf entries) memory)
        (Pairing.final entries memory).pairs := by
  have hstart := tracks_start entries memory
  have hfuel : (Pairing.start entries memory).openCount < entries.length + 1 := by
    have hle := List.countP_le_length (p := fun plan : Option EntryPlan => decide (plan = none))
      (l := (Pairing.start entries memory).plan)
    have hlen := hstart.length
    rw [probesOf, List.length_map] at hlen
    show List.countP _ _ < _
    omega
  have h := Pairing.settle_settled hstart hfuel
  rwa [pairs_start] at h

theorem left_over_skip (probes : List (Option Account)) (memory : List Account) (s : Pairing)
    (i p : Nat) : s.leftOver probes memory i ≠ some (.write p) := by
  unfold Pairing.leftOver
  cases s.openProbe probes i <;> nofun

theorem writes_iff {entries : List Value} {memory : List Account} {i p : Nat} :
    Writes entries memory i p ↔ (i, p) ∈ (Pairing.final entries memory).pairs := by
  have hlen := (final_settled entries memory).1.length
  rw [probesOf, List.length_map] at hlen
  show _ ↔ (Pairing.final entries memory).plan[i]? = some (some (.write p))
  unfold Writes planMerge
  rw [List.getElem?_map, Option.map_map, List.getElem?_zipIdx, Option.map_map]
  rcases Nat.lt_or_ge i entries.length with hi | hi
  · have hi' : i < (Pairing.final entries memory).plan.length := hlen ▸ hi
    obtain ⟨plan, hplan⟩ : ∃ plan, (Pairing.final entries memory).plan[i]? = some plan :=
      ⟨_, List.getElem?_eq_getElem hi'⟩
    rw [List.getElem?_eq_getElem hi]
    simp only [Option.map_some, Function.comp, Nat.zero_add, Option.some.injEq, hplan,
      Option.join_some]
    cases plan with
    | some plan => simp
    | none =>
      have hleft := left_over_skip (probesOf entries) memory (Pairing.final entries memory) i p
      cases hl : (Pairing.final entries memory).leftOver (probesOf entries) memory i with
      | none => simp
      | some plan =>
        rw [hl] at hleft
        simpa using hleft
  · rw [List.getElem?_eq_none hi, List.getElem?_eq_none (hlen ▸ hi)]
    simp

/-! ## One to one, and in no order -/

/-- The list in another order: the place `i` holds what was at `σ i`. -/
def rearrange {γ : Type} (l : List γ) (σ : Equiv.Perm (Fin l.length)) : List γ :=
  List.ofFn fun i => l.get (σ i)

/-- The account may be the entry's by identity alone. -/
def Candidate (entries : List Value) (memory : List Account) (index position : Nat) : Prop :=
  ∃ entry found account, entries[index]? = some entry ∧ probeOfEntry entry = .ok found ∧
    memory[position]? = some account ∧ sameIdentity found account = true

theorem match_by_iff_candidate {entries : List Value} {memory : List Account} {i p : Nat} :
    matchBy sameIdentity (probesOf entries) memory i p ↔ Candidate entries memory i p := by
  constructor
  · rintro ⟨found, account, hi, hp, hsame⟩
    obtain ⟨entry, hentry, hok⟩ := get_probes_of.mp hi
    exact ⟨entry, found, account, hentry, hok, hp, hsame⟩
  · rintro ⟨entry, found, account, hentry, hok, hp, hsame⟩
    exact ⟨found, account, get_probes_of.mpr ⟨entry, hentry, hok⟩, hp, hsame⟩

/-- The provider an entry is matched under is the one its `provider` key names. -/
theorem probe_of_entry_provider {entry : Value} {found : Account}
    (h : probeOfEntry entry = .ok found) : providerOfEntry entry = some found.provider := by
  unfold probeOfEntry at h
  split at h
  · split at h
    · cases h
    · split at h
      · cases h
      · rename_i provider hprovider
        cases h
        exact hprovider
  · cases h

theorem written_matching (entries : List Value) (memory : List Account) :
    Matching (matchBy sameIdentity (probesOf entries) memory)
      (Pairing.final entries memory).pairs :=
  matching_empty.reaches (match_by_strict _ _) (final_settled entries memory).2.1

/-- Every rearrangement of a list is a renaming of all places. -/
theorem get_rearrange {γ : Type} (l : List γ) (σ : Equiv.Perm (Fin l.length)) (i : Nat) :
    (rearrange l σ)[i]? = l[σ.extendDomain Fin.equivSubtype i]? := by
  rcases Nat.lt_or_ge i l.length with hi | hi
  · have hσ : σ.extendDomain Fin.equivSubtype i = σ ⟨i, hi⟩ :=
      σ.extendDomain_apply_image Fin.equivSubtype ⟨i, hi⟩
    rw [hσ, rearrange, List.getElem?_ofFn, dif_pos hi, List.getElem?_eq_getElem (σ ⟨i, hi⟩).isLt]
    rfl
  · have hσ : σ.extendDomain Fin.equivSubtype i = i :=
      σ.extendDomain_apply_not_subtype Fin.equivSubtype (by omega)
    rw [hσ, List.getElem?_eq_none hi, List.getElem?_eq_none (by simpa [rearrange] using hi)]

theorem match_by_rearrange (r : Account → Account → Bool) (entries : List Value)
    (memory : List Account) (σ : Equiv.Perm (Fin entries.length))
    (τ : Equiv.Perm (Fin memory.length)) :
    matchBy r (probesOf (rearrange entries σ)) (rearrange memory τ) =
      rename (σ.extendDomain Fin.equivSubtype) (τ.extendDomain Fin.equivSubtype)
        (matchBy r (probesOf entries) memory) := by
  funext i p
  simp only [matchBy, rename, probesOf, List.getElem?_map, get_rearrange]

/-- The passes over rearranged lists pair the same entries with the same accounts. -/
theorem writes_rearrange (entries : List Value) (memory : List Account)
    (σ : Equiv.Perm (Fin entries.length)) (τ : Equiv.Perm (Fin memory.length)) (i p : Nat) :
    Writes (rearrange entries σ) (rearrange memory τ) i p ↔
      Writes entries memory (σ.extendDomain Fin.equivSubtype i)
        (τ.extendDomain Fin.equivSubtype p) := by
  obtain ⟨-, hreach, hsettled⟩ := final_settled entries memory
  obtain ⟨-, hreach', hsettled'⟩ := final_settled (rearrange entries σ) (rearrange memory τ)
  rw [match_by_rearrange, match_by_rearrange] at hreach' hsettled'
  have hsub : ∀ a b, rename (σ.extendDomain Fin.equivSubtype) (τ.extendDomain Fin.equivSubtype)
      (matchBy sameIdentityStrict (probesOf entries) memory) a b →
      rename (σ.extendDomain Fin.equivSubtype) (τ.extendDomain Fin.equivSubtype)
        (matchBy sameIdentity (probesOf entries) memory) a b :=
    fun _ _ => match_by_strict _ _ _ _
  have hsame := settled_unique hsub hreach' hsettled'
    (reaches_rename _ _ hreach) (settled_rename _ _ hsettled)
  rw [writes_iff, writes_iff, hsame]
  exact Iff.rfl

/-- No account is written into two entries or across providers, an entry and an account that have
only each other are written, and the order of neither list matters. -/
theorem plan_merge_pairs (entries : List Value) (memory : List Account) :
    (∀ i j p, Writes entries memory i p → Writes entries memory j p → i = j) ∧
    (∀ i p, Writes entries memory i p → ∃ entry account, entries[i]? = some entry ∧
      memory[p]? = some account ∧ providerOfEntry entry = some account.provider) ∧
    (∀ i p, Candidate entries memory i p → (∀ q, Candidate entries memory i q → q = p) →
      (∀ j, Candidate entries memory j p → j = i) → Writes entries memory i p) ∧
    ∀ (σ : Equiv.Perm (Fin entries.length)) (τ : Equiv.Perm (Fin memory.length))
      (i : Fin entries.length) (p : Fin memory.length),
      Writes (rearrange entries σ) (rearrange memory τ) i p ↔
        Writes entries memory (σ i) (τ p) := by
  have hmatching := written_matching entries memory
  refine ⟨fun i j p hi hj => ?_, fun i p h => ?_, fun i p hc hright hleft => ?_,
    fun σ τ i p => ?_⟩
  · exact hmatching.left i j p (writes_iff.mp hi) (writes_iff.mp hj)
  · obtain ⟨entry, found, account, hentry, hok, hp, hsame⟩ :=
      match_by_iff_candidate.mp (hmatching.loose (i, p) (writes_iff.mp h))
    refine ⟨entry, account, hentry, hp, ?_⟩
    rw [probe_of_entry_provider hok, same_identity_provider hsame]
  · refine writes_iff.mpr ((final_settled entries memory).2.2.mem_of_only hmatching ?_ ?_)
    · exact ⟨match_by_iff_candidate.mpr hc, fun q hq => hright q (match_by_iff_candidate.mp hq)⟩
    · exact ⟨match_by_iff_candidate.mpr hc, fun j hj => hleft j (match_by_iff_candidate.mp hj)⟩
  · have hσ : σ.extendDomain Fin.equivSubtype (i : Nat) = σ i :=
      σ.extendDomain_apply_image Fin.equivSubtype i
    have hτ : τ.extendDomain Fin.equivSubtype (p : Nat) = τ p :=
      τ.extendDomain_apply_image Fin.equivSubtype p
    rw [writes_rearrange, hσ, hτ]

/-- A legacy entry without its organisation, the entry of the organisation, and a Codex row that
shares their name. -/
def legacyEntries : List Value :=
  [.object [("name", .string "a@x"), ("accountUuid", .string "u")],
    .object [("name", .string "a@x"), ("accountUuid", .string "u"), ("orgUuid", .string "o")],
    .object [("name", .string "a@x"), ("provider", .string "codex")]]

def legacyFleet : List Account :=
  [{ name := "a@x", provider := .anthropic, accountUuid := some "u", orgUuid := some "o" },
    { name := "a@x", provider := .codex },
    { name := "a@x", provider := .anthropic, accountUuid := some "u" }]

example : planMerge legacyEntries legacyFleet =
    [(some "a@x", .write 2), (some "a@x", .write 0), (some "a@x", .write 1)] := by
  decide

theorem plan_merge_pairs_legacy :
    (∀ j, Writes legacyEntries legacyFleet j 0 → j = 1) ∧
    (∃ entry account, legacyEntries[0]? = some entry ∧ legacyFleet[2]? = some account ∧
      providerOfEntry entry = some account.provider) ∧
    Writes legacyEntries legacyFleet 2 1 := by
  obtain ⟨hone, hprovider, honly, -⟩ := plan_merge_pairs legacyEntries legacyFleet
  refine ⟨fun j hj => hone j 1 0 hj (by decide), hprovider 0 2 (by decide), honly 2 1 ?_ ?_ ?_⟩
  · exact ⟨_, _, _, rfl, rfl, rfl, rfl⟩
  · rintro q ⟨entry, found, account, hentry, hok, hq, hsame⟩
    cases hentry
    cases hok
    match q, hq with
    | 0, hq => cases hq; cases hsame
    | 1, _ => rfl
    | 2, hq => cases hq; cases hsame
  · rintro j ⟨entry, found, account, hj, hok, hp, hsame⟩
    cases hp
    match j, hj with
    | 0, hj => cases hj; cases hok; cases hsame
    | 1, hj => cases hj; cases hok; cases hsame
    | 2, _ => rfl

end TeamClaude
