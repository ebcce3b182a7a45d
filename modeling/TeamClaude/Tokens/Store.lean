import TeamClaude.Lib.AgedMap
import TeamClaude.Lib.Exec
import TeamClaude.Machine
import TeamClaude.Proxy.Buffered
import Mathlib.Algebra.BigOperators.Group.Finset.Basic
import Mathlib.Algebra.Group.Action.Defs
import Mathlib.Algebra.Order.BigOperators.Group.Finset
import Mathlib.Data.Fintype.Basic
import Mathlib.Data.String.Basic

/-!
# The bound-token store

The map from token hashes to the accounts that minted them, split into parts by hash. A record
bounds the part it lands in; the entries of a restored file are set without bounding.
-/

namespace TeamClaude

/-- What the map holds for one token: the minting account, the kind and the mint time. -/
structure Minted where
  idx : Nat
  kind : BoundTokenKind
  ms : Int
  deriving DecidableEq

def boundTokenTtlMs : Int := 24 * 60 * 60 * 1000

def boundTokenCap : Nat := 65536

def boundTokenShards : Nat := 16

instance : NeZero boundTokenShards := ⟨by decide⟩

/-- Entries by hash and in mint order. -/
abbrev BoundTokenMap := Lib.AgedMap String Minted.ms

/-- Past the lifetime: the entry is dropped by the next prune and never honoured. -/
def tokenExpired (nowMs : Int) (mintedMs : Int) : Bool :=
  decide (boundTokenTtlMs < saturatingSub nowMs mintedMs)

/-- Minted longer ago than a lifetime. -/
def mintedBefore (nowMs ttlMs : Int) (ms : Int) : Bool :=
  decide (ttlMs < saturatingSub nowMs ms)

theorem minted_before_ages (nowMs ttlMs : Int) : Lib.AgedMap.Ages (mintedBefore nowMs ttlMs) := by
  intro t t' hle h
  have hold : ttlMs < saturatingSub nowMs t' := of_decide_eq_true h
  refine decide_eq_true (hold.trans_le ?_)
  unfold saturatingSub
  omega

/-! ## Parts -/

/-- The value of an ASCII hex digit of either case. -/
def hexValue (c : Char) : Option Nat :=
  if '0' ≤ c ∧ c ≤ '9' then some (c.toNat - '0'.toNat)
  else if 'a' ≤ c ∧ c ≤ 'f' then some (c.toNat - 'a'.toNat + 10)
  else if 'A' ≤ c ∧ c ≤ 'F' then some (c.toNat - 'A'.toNat + 10)
  else none

/-- `u32::from_str_radix(_, 16)` on at most eight digits, which cannot overflow: one leading plus
sign is taken, and there must be a digit. -/
def fromStrRadix16 (cs : List Char) : Option Nat :=
  let digits := if cs.head? = some '+' then cs.tail else cs
  if digits = [] then none
  else digits.foldlM (fun acc c => (hexValue c).map fun d => acc * 16 + d) 0

/-- The first 32 bits of a hex digest; none for any other text. A text whose first eight bytes do
not end at a character boundary has a character that is no digit among the first eight. -/
def headBits (hash : String) : Option Nat :=
  if hash.toList.length < 8 then none else fromStrRadix16 (hash.toList.take 8)

/-- `shard_of`: the digest's head, and std's hasher over anything else. -/
def shardOf (hasher : String → Nat) (hash : String) : Fin boundTokenShards :=
  ⟨(headBits hash).getD (hasher hash) % boundTokenShards, Nat.mod_lt _ (by decide)⟩

def shardCap : Nat := boundTokenCap / boundTokenShards

abbrev ShardedBoundTokens := Fin boundTokenShards → BoundTokenMap

namespace ShardedBoundTokens

variable (hasher : String → Nat)

def empty : ShardedBoundTokens := fun _ => Lib.AgedMap.empty

/-- The part a hash lives in. -/
def shard (s : ShardedBoundTokens) (hash : String) : BoundTokenMap :=
  s (shardOf hasher hash)

/-- How many entries all parts hold. -/
def total (s : ShardedBoundTokens) : Nat :=
  ∑ i, (s i).len

/-- `hash`'s entry, unless it is past its lifetime. -/
def get (s : ShardedBoundTokens) (hash : String) (nowMs : Int) : Option Minted :=
  ((shard hasher s hash).get hash).filter fun minted => !tokenExpired nowMs minted.ms

/-- Set an entry and bound its part. -/
def put (s : ShardedBoundTokens) (hash : String) (value : Minted) (nowMs : Int) :
    ShardedBoundTokens :=
  Function.update s (shardOf hasher hash)
    (((shard hasher s hash).insert hash value).prune (tokenExpired nowMs) shardCap)

def record (s : ShardedBoundTokens) (hash : String) (value : Minted) (nowMs : Int) :
    ShardedBoundTokens :=
  put hasher s hash value nowMs

/-- `ShardedBoundTokens::rebind`: only while the entry still names the account it was read with. -/
def rebind (s : ShardedBoundTokens) (hash : String) (oldIdx : Nat) (value : Minted) (nowMs : Int) :
    Bool × ShardedBoundTokens :=
  if ((shard hasher s hash).get hash).any fun minted => decide (minted.idx = oldIdx) then
    (true, put hasher s hash value nowMs)
  else (false, s)

/-- Set an entry that is not there yet, without bounding. -/
def insertIfAbsent (s : ShardedBoundTokens) (hash : String) (value : Minted) : ShardedBoundTokens :=
  Function.update s (shardOf hasher hash) ((shard hasher s hash).insertIfAbsent hash value)

/-- `restore_bound_tokens`, of the entries the file was read to. -/
def restore (entries : List (String × Minted)) : ShardedBoundTokens :=
  entries.foldl (fun s e => insertIfAbsent hasher s e.1 e.2) empty

/-! ## Parts of a write -/

section Parts

variable {hasher : String → Nat} {s : ShardedBoundTokens} {hash h : String} {value : Minted}
  {nowMs : Int} {i : Fin boundTokenShards}

theorem put_other (hi : i ≠ shardOf hasher hash) : put hasher s hash value nowMs i = s i :=
  Function.update_of_ne hi _ _

theorem put_own : put hasher s hash value nowMs (shardOf hasher hash) =
    ((s (shardOf hasher hash)).insert hash value).prune (tokenExpired nowMs) shardCap :=
  Function.update_self _ _ _

theorem rebind_cases (hasher : String → Nat) (s : ShardedBoundTokens) (hash : String) (oldIdx : Nat)
    (value : Minted) (nowMs : Int) : rebind hasher s hash oldIdx value nowMs = (false, s) ∨
      rebind hasher s hash oldIdx value nowMs = (true, put hasher s hash value nowMs) := by
  unfold rebind
  split
  · exact Or.inr rfl
  · exact Or.inl rfl

/-- A write leaves every other hash of a part its entry, or prunes it. -/
theorem get_put_other {v : Minted} (hne : h ≠ hash)
    (hv : (put hasher s hash value nowMs i).get h = some v) : (s i).get h = some v := by
  by_cases hi : i = shardOf hasher hash
  · subst hi
    rw [put_own] at hv
    have hin := Lib.AgedMap.get_prune_loop hv
    rwa [Lib.AgedMap.get_insert_ne hne] at hin
  · rwa [put_other hi] at hv

theorem put_absent (hne : h ≠ hash) (habs : (s i).get h = none) :
    (put hasher s hash value nowMs i).get h = none := by
  rw [Option.eq_none_iff_forall_ne_some]
  intro v hv
  rw [get_put_other hne hv] at habs
  cases habs

/-- A written hash has the entry written, or it was pruned at once. -/
theorem get_put_self {v : Minted}
    (hv : (put hasher s hash value nowMs (shardOf hasher hash)).get hash = some v) : v = value := by
  rw [put_own] at hv
  have hin := Lib.AgedMap.get_prune_loop hv
  rw [Lib.AgedMap.get_insert_self] at hin
  exact (Option.some_injective _ hin).symm

end Parts

end ShardedBoundTokens

/-! ## Runs -/

/-- One write to the store after its restore, with the time it is made at. -/
inductive StoreOp
  | record (hash : String) (idx : Nat) (kind : BoundTokenKind) (nowMs : Int)
  | rebind (hash : String) (oldIdx idx : Nat) (kind : BoundTokenKind) (nowMs : Int)

namespace StoreOp

def nowMs : StoreOp → Int
  | record _ _ _ nowMs => nowMs
  | rebind _ _ _ _ nowMs => nowMs

def apply (hasher : String → Nat) (s : ShardedBoundTokens) : StoreOp → ShardedBoundTokens
  | record hash idx kind nowMs =>
    ShardedBoundTokens.record hasher s hash { idx, kind, ms := nowMs } nowMs
  | rebind hash oldIdx idx kind nowMs =>
    (ShardedBoundTokens.rebind hasher s hash oldIdx { idx, kind, ms := nowMs } nowMs).2

end StoreOp

namespace ShardedBoundTokens

variable {hasher : String → Nat}

/-- Every part is within its share. -/
def Bounded (s : ShardedBoundTokens) : Prop :=
  ∀ i, (s i).len ≤ shardCap

theorem shares_add_up : boundTokenShards * shardCap = boundTokenCap := by decide

theorem Bounded.total_le {s : ShardedBoundTokens} (h : s.Bounded) : s.total ≤ boundTokenCap := by
  have hsum := Finset.sum_le_card_nsmul Finset.univ (fun i => (s i).len) shardCap
    fun i _ => h i
  rw [Finset.card_univ, Fintype.card_fin, smul_eq_mul, shares_add_up] at hsum
  exact hsum

theorem Bounded.put {s : ShardedBoundTokens} (h : s.Bounded) (hash : String) (value : Minted)
    (nowMs : Int) : (put hasher s hash value nowMs).Bounded := by
  intro i
  by_cases hi : i = shardOf hasher hash
  · subst hi
    rw [put_own]
    exact Lib.AgedMap.prune_len_le
  · rw [put_other hi]
    exact h i

theorem Bounded.apply {s : ShardedBoundTokens} (h : s.Bounded) (op : StoreOp) :
    (op.apply hasher s).Bounded := by
  cases op with
  | record hash idx kind nowMs => exact h.put hash _ nowMs
  | rebind hash oldIdx idx kind nowMs =>
    simp only [StoreOp.apply]
    rcases rebind_cases hasher s hash oldIdx { idx, kind, ms := nowMs } nowMs with
      he | he
    · rw [he]
      exact h
    · rw [he]
      exact h.put hash _ nowMs

theorem Bounded.run {s : ShardedBoundTokens} (h : s.Bounded) (ops : List StoreOp) :
    (Lib.exec (StoreOp.apply hasher) s ops).Bounded := by
  induction ops generalizing s with
  | nil => exact h
  | cons op ops ih => exact ih (h.apply op)

theorem total_split (s : ShardedBoundTokens) (i : Fin boundTokenShards) :
    s.total = (s i).len + ∑ j ∈ Finset.univ.erase i, (s j).len :=
  (Finset.add_sum_erase _ _ (Finset.mem_univ i)).symm

/-! ## The restored store -/

def restoredIn (hasher : String → Nat) (entries : List (String × Minted))
    (i : Fin boundTokenShards) : Finset String :=
  (entries.map Prod.fst).toFinset.filter fun hash => shardOf hasher hash = i

theorem insert_if_absent_get {s : ShardedBoundTokens} {hash h : String} {value : Minted}
    {i : Fin boundTokenShards} :
    ((insertIfAbsent hasher s hash value i).get h).isSome =
      (((s i).get h).isSome || decide (h = hash ∧ shardOf hasher hash = i)) := by
  unfold insertIfAbsent
  by_cases hi : i = shardOf hasher hash
  · subst hi
    rw [Function.update_self, Lib.AgedMap.get_insert_if_absent, shard]
    by_cases hh : h = hash
    · simp [hh]
    · simp [hh]
  · rw [Function.update_of_ne hi]
    simp [Ne.symm hi]

theorem restore_get (entries : List (String × Minted)) (i : Fin boundTokenShards) (h : String) :
    ((restore hasher entries i).get h).isSome = true ↔ h ∈ restoredIn hasher entries i := by
  have hfold : ∀ s : ShardedBoundTokens,
      ((entries.foldl (fun s e => insertIfAbsent hasher s e.1 e.2) s i).get h).isSome = true ↔
        ((s i).get h).isSome = true ∨ h ∈ restoredIn hasher entries i := by
    induction entries with
    | nil => simp [restoredIn]
    | cons e entries ih =>
      intro s
      rw [List.foldl_cons, ih, insert_if_absent_get]
      simp only [restoredIn, Bool.or_eq_true, decide_eq_true_eq, List.map_cons, List.toFinset_cons,
        Finset.mem_filter, Finset.mem_insert]
      constructor
      · rintro ((hs | ⟨rfl, hi⟩) | ⟨hin, hi⟩)
        · exact Or.inl hs
        · exact Or.inr ⟨Or.inl rfl, hi⟩
        · exact Or.inr ⟨Or.inr hin, hi⟩
      · rintro (hs | ⟨rfl | hin, hi⟩)
        · exact Or.inl (Or.inl hs)
        · exact Or.inl (Or.inr ⟨rfl, hi⟩)
        · exact Or.inr ⟨hin, hi⟩
  rw [restore, hfold]
  simp [empty]

/-- A part of the restored store holds each of its hashes once. -/
theorem restore_len (entries : List (String × Minted)) (i : Fin boundTokenShards) :
    (restore hasher entries i).len = (restoredIn hasher entries i).card := by
  rw [Lib.AgedMap.len_eq_keys]
  congr 1
  ext h
  rw [List.mem_toFinset, Lib.AgedMap.mem_keys, restore_get]

/-! ## Filling parts -/

theorem token_expired_ages (nowMs : Int) : Lib.AgedMap.Ages (tokenExpired nowMs) :=
  minted_before_ages nowMs boundTokenTtlMs

theorem just_minted (nowMs : Int) : tokenExpired nowMs nowMs = false := by
  simp [tokenExpired, saturatingSub, boundTokenTtlMs, i64Min, i64Max]

/-- A record of a hash at a time. -/
def mintAt (nowMs : Int) (hash : String) : StoreOp :=
  .record hash 0 .thinkingSignature nowMs

/-- Recording new hashes of one part adds an entry for each until the part has its share, and leaves
the other parts alone. -/
theorem fill_part (nowMs : Int) {i : Fin boundTokenShards} (hashes : List String) :
    ∀ s : ShardedBoundTokens, hashes.Nodup → (∀ h ∈ hashes, shardOf hasher h = i) →
      (∀ h ∈ hashes, (s i).get h = none) →
      min shardCap ((s i).freshLen (tokenExpired nowMs) + hashes.length) ≤
        (Lib.exec (StoreOp.apply hasher) s (hashes.map (mintAt nowMs)) i).freshLen
          (tokenExpired nowMs) ∧
      ∀ j, j ≠ i → Lib.exec (StoreOp.apply hasher) s (hashes.map (mintAt nowMs)) j = s j := by
  induction hashes with
  | nil => exact fun s _ _ _ => ⟨Nat.min_le_right _ _, fun _ _ => rfl⟩
  | cons hash hashes ih =>
    intro s hnodup hpart habs
    obtain ⟨hnew, hnodup⟩ := List.nodup_cons.mp hnodup
    obtain rfl := hpart hash List.mem_cons_self
    have hnone := habs hash List.mem_cons_self
    obtain ⟨hfill, hothers⟩ := ih
      (put hasher s hash { idx := 0, kind := .thinkingSignature, ms := nowMs } nowMs) hnodup
      (fun h hh => hpart h (List.mem_cons_of_mem _ hh))
      (fun h hh => put_absent (fun he => hnew (by rwa [← he]))
        (habs h (List.mem_cons_of_mem _ hh)))
    obtain ⟨hfresh, hmin⟩ := Lib.AgedMap.prune_fresh shardCap (token_expired_ages nowMs)
      (m := (s (shardOf hasher hash)).insert hash
        { idx := 0, kind := .thinkingSignature, ms := nowMs })
    rw [Lib.AgedMap.fresh_len_insert hnone (just_minted nowMs)] at hmin
    rw [put_own, Lib.AgedMap.fresh_len_eq hfresh] at hfill
    refine ⟨?_, fun j hj => (hothers j hj).trans (put_other hj)⟩
    refine le_trans ?_ hfill
    rw [List.length_cons]
    omega

/-- Recording a share of new hashes in each of some parts fills those parts. -/
theorem fill_parts (nowMs : Int) (fill : Fin boundTokenShards → List String)
    (hnodup : ∀ i, (fill i).Nodup) (hpart : ∀ i, ∀ h ∈ fill i, shardOf hasher h = i)
    (hlen : ∀ i, (fill i).length = shardCap) (parts : List (Fin boundTokenShards)) :
    ∀ s : ShardedBoundTokens, parts.Nodup → (∀ i ∈ parts, ∀ h ∈ fill i, (s i).get h = none) →
      (∀ i ∈ parts, shardCap ≤ (Lib.exec (StoreOp.apply hasher) s
        (parts.flatMap fun i => (fill i).map (mintAt nowMs)) i).len) ∧
      ∀ i, i ∉ parts → Lib.exec (StoreOp.apply hasher) s
        (parts.flatMap fun i => (fill i).map (mintAt nowMs)) i = s i := by
  induction parts with
  | nil => exact fun s _ _ => ⟨by simp, fun _ _ => rfl⟩
  | cons i parts ih =>
    intro s hn habs
    obtain ⟨hi, hn⟩ := List.nodup_cons.mp hn
    obtain ⟨hown, hothers⟩ := fill_part nowMs (fill i) s (hnodup i) (hpart i)
      (habs i List.mem_cons_self)
    rw [hlen i] at hown
    rw [List.flatMap_cons, Lib.exec_append]
    obtain ⟨hrest, hkept⟩ := ih
      (Lib.exec (StoreOp.apply hasher) s ((fill i).map (mintAt nowMs))) hn fun j hj h hh => by
        rw [hothers j (fun he => hi (he ▸ hj))]
        exact habs j (List.mem_cons_of_mem _ hj) h hh
    refine ⟨fun j hj => ?_, fun j hj => ?_⟩
    · rcases List.mem_cons.mp hj with rfl | hj
      · rw [hkept j hi]
        exact (le_trans (by omega) hown).trans Lib.AgedMap.fresh_len_le
      · exact hrest j hj
    · rw [List.mem_cons, not_or] at hj
      rw [hkept j hj.2, hothers j hj.1]

/-! ## Hashes no file holds -/

/-- A hash of part `i` that is `n` characters longer than its eight digits. -/
def longHash (i : Fin boundTokenShards) (n : Nat) : String :=
  String.ofList (List.replicate 7 '0' ++ [Nat.digitChar i] ++ List.replicate n '0')

theorem long_hash_shard (hasher : String → Nat) (i : Fin boundTokenShards) (n : Nat) :
    shardOf hasher (longHash i n) = i := by
  have hhead : headBits (longHash i n) = some i.1 := by
    have hbits : ∀ i : Fin boundTokenShards,
        fromStrRadix16 (List.replicate 7 '0' ++ [Nat.digitChar i]) = some i.1 := by decide
    have htake : (longHash i n).toList.take 8 = List.replicate 7 '0' ++ [Nat.digitChar i] := by
      rw [longHash, String.toList_ofList]
      exact List.take_left' rfl
    have hlen : ¬ (longHash i n).toList.length < 8 := by
      rw [longHash, String.toList_ofList]
      simp only [List.length_append, List.length_replicate, List.length_singleton]
      omega
    rw [headBits, if_neg hlen, htake, hbits]
  apply Fin.ext
  simp only [shardOf, hhead, Option.getD_some]
  exact Nat.mod_eq_of_lt i.2

theorem long_hash_length (i : Fin boundTokenShards) (n : Nat) :
    (longHash i n).toList.length = 8 + n := by
  rw [longHash, String.toList_ofList]
  simp only [List.length_append, List.length_replicate, List.length_singleton]

theorem long_hash_inj {i : Fin boundTokenShards} {n n' : Nat} (h : longHash i n = longHash i n') :
    n = n' := by
  have hlen := long_hash_length i n
  rw [h, long_hash_length] at hlen
  omega

/-- A share of hashes of each part that are longer than every hash of the file. -/
def fillHashes (longest : Nat) (i : Fin boundTokenShards) : List String :=
  (List.range shardCap).map fun n => longHash i (longest + n)

theorem fill_hashes_nodup (longest : Nat) (i : Fin boundTokenShards) :
    (fillHashes longest i).Nodup := by
  refine List.Nodup.map (fun n n' h => ?_) List.nodup_range
  have := long_hash_inj h
  omega

theorem fill_hashes_shard {longest : Nat} {i : Fin boundTokenShards} :
    ∀ h ∈ fillHashes longest i, shardOf hasher h = i := by
  intro h hh
  obtain ⟨n, -, rfl⟩ := List.mem_map.mp hh
  exact long_hash_shard hasher i _

/-- No restored part holds a hash longer than every hash of the file. -/
theorem fill_hashes_absent {entries : List (String × Minted)} {longest : Nat}
    (hlong : ∀ e ∈ entries, e.1.toList.length ≤ longest) {i j : Fin boundTokenShards} :
    ∀ h ∈ fillHashes longest i, (restore hasher entries j).get h = none := by
  intro h hh
  obtain ⟨n, -, rfl⟩ := List.mem_map.mp hh
  by_contra hsome
  have hin := (restore_get entries j _).mp (Option.isSome_iff_ne_none.mpr hsome)
  obtain ⟨e, he, hhash⟩ := List.mem_map.mp (List.mem_toFinset.mp (Finset.mem_filter.mp hin).1)
  have hle := hlong e he
  rw [hhash, long_hash_length] at hle
  omega

theorem longest_hash (entries : List (String × Minted)) :
    ∃ longest, ∀ e ∈ entries, e.1.toList.length ≤ longest := by
  refine ⟨(entries.map fun e => e.1.toList.length).sum, fun e he => ?_⟩
  exact List.single_le_sum (by simp) _ (List.mem_map_of_mem he)

/-- Filling every part but one takes the store past its cap when that one is over its share. -/
theorem overfull_part (entries : List (String × Minted)) (nowMs : Int) {i : Fin boundTokenShards}
    (hover : shardCap < (restoredIn hasher entries i).card) :
    ∃ ops : List StoreOp, (∀ op ∈ ops, op.nowMs = nowMs) ∧
      boundTokenCap < (Lib.exec (StoreOp.apply hasher) (restore hasher entries) ops).total := by
  obtain ⟨longest, hlong⟩ := longest_hash entries
  let others := (List.finRange boundTokenShards).filter fun j => decide (j ≠ i)
  have hmem : ∀ j, j ∈ others ↔ j ≠ i := by simp [others]
  obtain ⟨hfull, hkept⟩ := fill_parts nowMs (fillHashes longest) (fill_hashes_nodup longest)
    (fun _ => fill_hashes_shard) (fun _ => by simp [fillHashes]) others (restore hasher entries)
    ((List.nodup_finRange _).filter _) (fun _ _ => fill_hashes_absent hlong)
  refine ⟨others.flatMap fun i => (fillHashes longest i).map (mintAt nowMs), ?_, ?_⟩
  · intro op hop
    obtain ⟨j, -, hop⟩ := List.mem_flatMap.mp hop
    obtain ⟨h, -, rfl⟩ := List.mem_map.mp hop
    rfl
  · have hrest := Finset.card_nsmul_le_sum (Finset.univ.erase i) (fun j =>
      (Lib.exec (StoreOp.apply hasher) (restore hasher entries)
        (others.flatMap fun i => (fillHashes longest i).map (mintAt nowMs)) j).len) shardCap
      fun j hj => hfull j ((hmem j).mpr (Finset.ne_of_mem_erase hj))
    rw [Finset.card_erase_of_mem (Finset.mem_univ i), Finset.card_univ, Fintype.card_fin,
      smul_eq_mul] at hrest
    rw [total_split _ i, hkept i (fun h => (hmem i).mp h rfl), restore_len]
    have hadd : shardCap + (boundTokenShards - 1) * shardCap = boundTokenCap := by decide
    omega

/-- After a restore the store keeps its cap in every run with times that do not go back exactly when
no part was restored past its share. -/
theorem store_keeps_cap_iff (hasher : String → Nat) (entries : List (String × Minted)) :
    (∀ ops : List StoreOp, (ops.map StoreOp.nowMs).Pairwise (· ≤ ·) →
      (Lib.exec (StoreOp.apply hasher) (restore hasher entries) ops).total ≤ boundTokenCap) ↔
    ∀ i, (restoredIn hasher entries i).card ≤ shardCap := by
  constructor
  · intro hruns i
    by_contra hover
    obtain ⟨ops, hnow, htotal⟩ := overfull_part entries 0 (not_le.mp hover)
    refine absurd (hruns ops ?_) (not_le.mpr htotal)
    rw [List.pairwise_map]
    refine List.pairwise_of_forall_mem_list fun a ha b hb => ?_
    rw [hnow a ha, hnow b hb]
  · intro hparts ops _
    have hbounded : (restore hasher entries).Bounded := fun i => by
      rw [restore_len]
      exact hparts i
    exact (hbounded.run ops).total_le

/-- A file of a full store whose hashes all start with the same eight digits. -/
def skewedFile : List (String × Minted) :=
  (List.range boundTokenCap).map fun n =>
    (longHash 0 n, { idx := 0, kind := .thinkingSignature, ms := 0 })

/-- One record after the restore of the skewed file lands in another part. -/
theorem skewed_restore_passes_cap :
    skewedFile.length ≤ boundTokenCap ∧
    boundTokenCap < (Lib.exec (StoreOp.apply fun _ => 0) (restore (fun _ => 0) skewedFile)
      [mintAt 0 (longHash 1 0)]).total := by
  have hkeys : restoredIn (fun _ => 0) skewedFile 0 =
      (Finset.range boundTokenCap).image (longHash 0) := by
    ext h
    simp only [restoredIn, skewedFile, List.map_map, Finset.mem_filter, List.mem_toFinset,
      List.mem_map, List.mem_range, Function.comp, Finset.mem_image, Finset.mem_range]
    constructor
    · rintro ⟨hh, -⟩
      exact hh
    · rintro ⟨n, hn, rfl⟩
      exact ⟨⟨n, hn, rfl⟩, long_hash_shard _ 0 n⟩
  have hcard : (restoredIn (fun _ => 0) skewedFile 0).card = boundTokenCap := by
    rw [hkeys, Finset.card_image_of_injective _ fun _ _ => long_hash_inj, Finset.card_range]
  have habsent : (restore (fun _ => 0) skewedFile 1).get (longHash 1 0) = none := by
    by_contra hsome
    have hin := (restore_get skewedFile 1 _).mp (Option.isSome_iff_ne_none.mpr hsome)
    obtain ⟨e, he, hhash⟩ := List.mem_map.mp (List.mem_toFinset.mp (Finset.mem_filter.mp hin).1)
    obtain ⟨n, -, rfl⟩ := List.mem_map.mp he
    have hshard := long_hash_shard (fun _ => 0) 0 n
    rw [show longHash 0 n = longHash 1 0 from hhash, long_hash_shard] at hshard
    cases hshard
  obtain ⟨hnew, hkept⟩ := @fill_part (fun _ => 0) 0 1 [longHash 1 0]
    (restore (fun _ => 0) skewedFile) (List.nodup_singleton _)
    (fun h hh => by rw [List.mem_singleton.mp hh, long_hash_shard])
    (fun h hh => by rw [List.mem_singleton.mp hh, habsent])
  rw [List.map_singleton] at hkept
  rw [List.map_singleton, List.length_singleton] at hnew
  refine ⟨by simp [skewedFile], ?_⟩
  have hone : 1 ≤ (Lib.exec (StoreOp.apply fun _ => 0) (restore (fun _ => 0) skewedFile)
      [mintAt 0 (longHash 1 0)] 1).len := by
    have hcap : 1 ≤ shardCap := by decide
    exact (le_trans (le_min hcap (Nat.le_add_left 1 _)) hnew).trans Lib.AgedMap.fresh_len_le
  have hsum := Finset.single_le_sum (f := fun j => (Lib.exec (StoreOp.apply fun _ => 0)
    (restore (fun _ => 0) skewedFile) [mintAt 0 (longHash 1 0)] j).len)
    (fun _ _ => Nat.zero_le _) (Finset.mem_erase.mpr ⟨by decide, Finset.mem_univ 1⟩ :
      (1 : Fin boundTokenShards) ∈ Finset.univ.erase 0)
  have hzero : (Lib.exec (StoreOp.apply fun _ => 0) (restore (fun _ => 0) skewedFile)
      [mintAt 0 (longHash 1 0)] 0).len = boundTokenCap := by
    rw [← hcard, ← restore_len]
    exact congrArg Lib.AgedMap.len (hkept 0 (by decide))
  rw [total_split _ 0, hzero]
  exact Nat.lt_add_of_pos_right (hone.trans hsum)

end ShardedBoundTokens

end TeamClaude
