import TeamClaude.Lib.Newest
import Mathlib.Data.List.AList
import Mathlib.Data.Prod.Lex

/-!
# Maps with their entries in age order

A map whose entries are also kept ordered by a stamp read off their values, so that the oldest can
be taken without a pass over the rest. The two halves agree by construction. Pruning removes from
the oldest end, first what is stale and then what is over a cap.
-/

namespace Lib

variable {κ ν τ : Type*} [LinearOrder κ] [LinearOrder τ] {stamp : ν → τ}

/-- The entries by key and, oldest first, by stamp and key. -/
structure AgedMap (κ : Type*) {ν τ : Type*} [LinearOrder κ] [LinearOrder τ] (stamp : ν → τ) where
  byKey : AList fun _ : κ => ν
  byAge : Finset (τ ×ₗ κ)
  agree : ∀ t k, toLex (t, k) ∈ byAge ↔ ∃ v, byKey.lookup k = some v ∧ stamp v = t

namespace AgedMap

def empty : AgedMap κ stamp where
  byKey := ∅
  byAge := ∅
  agree := by simp

def get (m : AgedMap κ stamp) (k : κ) : Option ν :=
  m.byKey.lookup k

def len (m : AgedMap κ stamp) : Nat :=
  m.byKey.entries.length

/-- The age order without the place of one key. -/
def ageWithout (m : AgedMap κ stamp) (k : κ) : Finset (τ ×ₗ κ) :=
  match m.byKey.lookup k with
  | some old => m.byAge.erase (toLex (stamp old, k))
  | none => m.byAge

theorem mem_age_without {m : AgedMap κ stamp} {k j : κ} {t : τ} :
    toLex (t, j) ∈ m.ageWithout k ↔ toLex (t, j) ∈ m.byAge ∧ j ≠ k := by
  unfold ageWithout
  cases hk : m.byKey.lookup k with
  | none =>
    refine ⟨fun h => ⟨h, ?_⟩, fun h => h.1⟩
    rintro rfl
    obtain ⟨v, hv, -⟩ := (m.agree t j).mp h
    rw [hk] at hv
    cases hv
  | some old =>
    simp only [Finset.mem_erase]
    constructor
    · rintro ⟨hne, h⟩
      refine ⟨h, ?_⟩
      rintro rfl
      obtain ⟨v, hv, rfl⟩ := (m.agree t j).mp h
      rw [hk] at hv
      cases hv
      exact hne rfl
    · rintro ⟨h, hne⟩
      refine ⟨fun he => hne ?_, h⟩
      exact congrArg (fun p : τ ×ₗ κ => (ofLex p).2) he

/-- Set a key's entry, replacing the one it has. -/
def insert (m : AgedMap κ stamp) (k : κ) (v : ν) : AgedMap κ stamp where
  byKey := m.byKey.insert k v
  byAge := Insert.insert (toLex (stamp v, k)) (m.ageWithout k)
  agree := by
    intro t j
    rw [Finset.mem_insert, mem_age_without, m.agree]
    by_cases hj : j = k
    · subst hj
      simp only [ne_eq, not_true_eq_false, and_false, or_false, AList.lookup_insert,
        Option.some.injEq, exists_eq_left']
      exact ⟨fun h => (congrArg (fun p : τ ×ₗ κ => (ofLex p).1) h).symm, fun h => by rw [h]⟩
    · rw [AList.lookup_insert_ne hj]
      have hne : toLex (t, j) ≠ toLex (stamp v, k) :=
        fun h => hj (congrArg (fun p : τ ×ₗ κ => (ofLex p).2) h)
      simp [hne, hj]

/-- Set a key's entry only when it has none. -/
def insertIfAbsent (m : AgedMap κ stamp) (k : κ) (v : ν) : AgedMap κ stamp :=
  if (m.get k).isSome then m else m.insert k v

/-- Remove a key from both halves. -/
def remove (m : AgedMap κ stamp) (k : κ) : AgedMap κ stamp where
  byKey := m.byKey.erase k
  byAge := m.ageWithout k
  agree := by
    intro t j
    rw [mem_age_without, m.agree]
    by_cases hj : j = k
    · subst hj
      simp
    · simp [AList.lookup_erase_ne hj, hj]

/-- The first entry in age order. -/
def oldest (m : AgedMap κ stamp) : Option (τ × κ) :=
  (Finset.min m.byAge : Option (τ ×ₗ κ)).map ofLex

/-- Pop the oldest entry until it is not stale and the map is within its cap. -/
def pruneLoop (stale : τ → Bool) (cap : Nat) : Nat → AgedMap κ stamp → AgedMap κ stamp
  | 0, m => m
  | fuel + 1, m =>
    match m.oldest with
    | none => m
    | some (t, k) =>
      if stale t = false ∧ m.len ≤ cap then m else pruneLoop stale cap fuel (m.remove k)

/-- Every pop shortens the age order, so its size bounds the loop. -/
def prune (m : AgedMap κ stamp) (stale : τ → Bool) (cap : Nat) : AgedMap κ stamp :=
  m.pruneLoop stale cap m.byAge.card

/-! ## Reading back -/

section Get

variable {m : AgedMap κ stamp} {k j : κ} {v : ν}

@[simp] theorem get_empty : (empty : AgedMap κ stamp).get k = none := AList.lookup_empty k

@[simp] theorem get_insert_self : (m.insert k v).get k = some v := AList.lookup_insert m.byKey

theorem get_insert_ne (h : j ≠ k) : (m.insert k v).get j = m.get j := AList.lookup_insert_ne h

theorem get_insert_if_absent : (m.insertIfAbsent k v).get j =
    if j = k then some ((m.get k).getD v) else m.get j := by
  unfold insertIfAbsent
  by_cases hj : j = k
  · subst hj
    cases hg : m.get j with
    | some old => simp [hg]
    | none => simp
  · rw [if_neg hj]
    split
    · rfl
    · exact get_insert_ne hj

@[simp] theorem get_remove_self : (m.remove k).get k = none := by
  simp [get, remove]

theorem get_remove_ne (h : j ≠ k) : (m.remove k).get j = m.get j := AList.lookup_erase_ne h

/-- A pruned map holds nothing the map did not hold. -/
theorem get_prune_loop {stale : τ → Bool} {cap fuel : Nat}
    (h : (pruneLoop stale cap fuel m).get k = some v) : m.get k = some v := by
  induction fuel generalizing m with
  | zero => exact h
  | succ fuel ih =>
    unfold pruneLoop at h
    split at h
    · exact h
    rename_i t o _
    split at h
    · exact h
    · have hr := ih h
      by_cases hk : k = o
      · subst hk
        rw [get_remove_self] at hr
        cases hr
      · rwa [get_remove_ne hk] at hr

end Get

/-! ## Size -/

section Size

variable {m : AgedMap κ stamp} {k : κ} {v : ν}

theorem mem_keys : k ∈ m.byKey.keys ↔ (m.get k).isSome = true := by
  rw [get, AList.lookup_isSome]
  rfl

theorem len_eq_keys : m.len = m.byKey.keys.toFinset.card := by
  rw [List.toFinset_card_of_nodup m.byKey.keys_nodup]
  simp [len, AList.keys, List.keys]

/-- Both halves hold the same entries. -/
theorem card_by_age : m.byAge.card = m.len := by
  rw [len_eq_keys]
  refine Finset.card_nbij (fun e => (ofLex e).2) ?_ ?_ ?_
  · intro e he
    obtain ⟨v, hv, -⟩ := (m.agree (ofLex e).1 (ofLex e).2).mp he
    have : (m.get (ofLex e).2).isSome = true := by
      rw [get, hv]
      rfl
    simpa using mem_keys.mpr this
  · intro e he f hf hk
    obtain ⟨v, hv, ht⟩ := (m.agree (ofLex e).1 (ofLex e).2).mp he
    obtain ⟨w, hw, ht'⟩ := (m.agree (ofLex f).1 (ofLex f).2).mp hf
    have hk : (ofLex e).2 = (ofLex f).2 := hk
    rw [hk, hw] at hv
    cases hv
    exact congrArg toLex (Prod.ext (ht.symm.trans ht') hk)
  · intro k hk
    have hk : (m.get k).isSome = true := mem_keys.mp (by simpa using hk)
    obtain ⟨v, hv⟩ := Option.isSome_iff_exists.mp hk
    exact ⟨toLex (stamp v, k), (m.agree _ _).mpr ⟨v, hv, rfl⟩, rfl⟩

theorem len_remove_present (h : (m.get k).isSome = true) : (m.remove k).len + 1 = m.len := by
  rw [len_eq_keys, len_eq_keys]
  have hkeys : (m.remove k).byKey.keys.toFinset = m.byKey.keys.toFinset.erase k := by
    ext j
    simp [remove, AList.keys_erase, List.Nodup.mem_erase_iff m.byKey.keys_nodup]
  rw [hkeys]
  exact Finset.card_erase_add_one (by simpa using mem_keys.mpr h)

end Size

/-! ## Pruning -/

section Prune

variable {m : AgedMap κ stamp} {stale : τ → Bool} {cap : Nat} {t : τ} {k : κ}

theorem oldest_none (h : m.oldest = none) : m.len = 0 := by
  rw [← card_by_age, Finset.card_eq_zero]
  exact Finset.min_eq_top.mp (Option.map_eq_none_iff.mp h)

theorem oldest_min (h : m.oldest = some (t, k)) : m.byAge.min = (toLex (t, k) : τ ×ₗ κ) := by
  obtain ⟨e, he, heq⟩ := Option.map_eq_some_iff.mp h
  rw [← heq]
  exact he

/-- The oldest entry is one of the map's, and no entry's stamp is before it. -/
theorem oldest_some (h : m.oldest = some (t, k)) :
    (∃ v, m.get k = some v ∧ stamp v = t) ∧
      ∀ j v, m.get j = some v → t ≤ stamp v := by
  have hmin := oldest_min h
  refine ⟨(m.agree t k).mp (Finset.mem_of_min hmin), fun j v hv => ?_⟩
  have hmem : toLex (stamp v, j) ∈ m.byAge := (m.agree _ _).mpr ⟨v, hv, rfl⟩
  have hle := Finset.min_le_of_eq hmem hmin
  exact (Prod.Lex.toLex_le_toLex.mp hle).elim le_of_lt fun h => h.1.le

theorem prune_loop_len_le {fuel : Nat} (hfuel : m.len ≤ fuel) :
    (pruneLoop stale cap fuel m).len ≤ cap := by
  induction fuel generalizing m with
  | zero => exact (Nat.le_zero.mp hfuel).trans_le (Nat.zero_le cap)
  | succ fuel ih =>
    unfold pruneLoop
    split
    · rename_i hnone
      rw [oldest_none hnone]
      exact Nat.zero_le cap
    rename_i t k hsome
    split
    · rename_i hstop
      exact hstop.2
    · obtain ⟨⟨v, hv, -⟩, -⟩ := oldest_some hsome
      have hlen := len_remove_present (m := m) (k := k) (by rw [hv]; rfl)
      exact ih (by omega)

theorem prune_len_le : (m.prune stale cap).len ≤ cap :=
  prune_loop_len_le (by rw [card_by_age])

/-- How many entries are not stale. -/
def freshLen (m : AgedMap κ stamp) (stale : τ → Bool) : Nat :=
  (m.byAge.filter fun e => stale (ofLex e).1 = false).card

theorem fresh_len_le : m.freshLen stale ≤ m.len := by
  rw [← card_by_age]
  exact Finset.card_filter_le _ _

theorem fresh_len_eq (h : ∀ j v, m.get j = some v → stale (stamp v) = false) :
    m.freshLen stale = m.len := by
  rw [freshLen, Finset.filter_true_of_mem, card_by_age]
  intro e he
  obtain ⟨v, hv, ht⟩ := (m.agree (ofLex e).1 (ofLex e).2).mp he
  rw [← ht]
  exact h _ v hv

theorem fresh_len_insert {v : ν} (hk : m.get k = none) (hv : stale (stamp v) = false) :
    (m.insert k v).freshLen stale = m.freshLen stale + 1 := by
  have hage : (m.insert k v).byAge = Insert.insert (toLex (stamp v, k)) m.byAge := by
    show Insert.insert _ (m.ageWithout k) = _
    unfold ageWithout
    rw [show m.byKey.lookup k = none from hk]
  have hnew : toLex (stamp v, k) ∉ m.byAge.filter fun e => stale (ofLex e).1 = false := by
    intro h
    obtain ⟨w, hw, -⟩ := (m.agree _ _).mp (Finset.mem_filter.mp h).1
    rw [show m.byKey.lookup k = none from hk] at hw
    cases hw
  rw [freshLen, hage, Finset.filter_insert, if_pos (by exact hv),
    Finset.card_insert_of_notMem hnew]
  rfl

theorem by_age_remove {v : ν} (hk : m.get k = some v) :
    (m.remove k).byAge = m.byAge.erase (toLex (stamp v, k)) := by
  show m.ageWithout k = _
  unfold ageWithout
  rw [show m.byKey.lookup k = some v from hk]

/-- Older entries are stale whenever younger ones are. -/
def Ages (stale : τ → Bool) : Prop :=
  ∀ t t', t ≤ t' → stale t' = true → stale t = true

theorem fresh_of_oldest (hages : Ages stale) (h : m.oldest = some (t, k)) (ht : stale t = false) :
    ∀ j v, m.get j = some v → stale (stamp v) = false := by
  intro j v hv
  by_contra hs
  have hold := hages t (stamp v) ((oldest_some h).2 j v hv) (Bool.eq_true_of_not_eq_false hs)
  rw [ht] at hold
  cases hold

/-- The entries that are not stale, by age. -/
def fresh (m : AgedMap κ stamp) (stale : τ → Bool) : Finset (τ ×ₗ κ) :=
  m.byAge.filter fun e => stale (ofLex e).1 = false

theorem newest_fresh_of_empty (h : m.len = 0) : m.byAge = newest cap (m.fresh stale) := by
  rw [← card_by_age, Finset.card_eq_zero] at h
  rw [fresh, h, Finset.filter_empty]
  rfl

theorem fresh_eq_by_age (h : ∀ j v, m.get j = some v → stale (stamp v) = false) :
    m.fresh stale = m.byAge := by
  refine Finset.filter_true_of_mem fun e he => ?_
  obtain ⟨v, hv, ht⟩ := (m.agree (ofLex e).1 (ofLex e).2).mp he
  rw [← ht]
  exact h _ v hv

theorem fresh_remove_stale (hv : m.get k = some v) (hs : stale (stamp v) = true) :
    (m.remove k).fresh stale = m.fresh stale := by
  have hout : toLex (stamp v, k) ∉ m.fresh stale := by
    intro hin
    have hfresh : stale (stamp v) = false := (Finset.mem_filter.mp hin).2
    rw [hs] at hfresh
    cases hfresh
  rw [fresh, fresh, by_age_remove hv, Finset.filter_erase]
  exact Finset.erase_eq_of_notMem hout

/-- The oldest entry is none of the newest that are not stale, where it is stale itself or the map is
over the cap. -/
theorem newest_fresh_remove {t : τ} (hages : Ages stale) (hsome : m.oldest = some (t, k))
    (hgo : ¬(stale t = false ∧ m.len ≤ cap)) :
    newest cap ((m.remove k).fresh stale) = newest cap (m.fresh stale) := by
  obtain ⟨⟨v, hv, rfl⟩, -⟩ := oldest_some hsome
  cases hs : stale (stamp v) with
  | true => rw [fresh_remove_stale hv hs]
  | false =>
    have hfresh := fresh_of_oldest hages hsome hs
    have hrest : ∀ j w, (m.remove k).get j = some w → stale (stamp w) = false := by
      intro j w hw
      by_cases hj : j = k
      · subst hj
        rw [get_remove_self] at hw
        cases hw
      · rw [get_remove_ne hj] at hw
        exact hfresh j w hw
    have hover : cap < m.byAge.card := by
      rw [card_by_age]
      by_contra hle
      exact hgo ⟨hs, not_lt.mp hle⟩
    rw [fresh_eq_by_age hfresh, fresh_eq_by_age hrest, by_age_remove hv,
      newest_erase_least (oldest_min hsome) hover]

theorem prune_loop_by_age {fuel : Nat} (hages : Ages stale) (hfuel : m.len ≤ fuel) :
    (pruneLoop stale cap fuel m).byAge = newest cap (m.fresh stale) := by
  induction fuel generalizing m with
  | zero => exact newest_fresh_of_empty (Nat.le_zero.mp hfuel)
  | succ fuel ih =>
    unfold pruneLoop
    split
    · rename_i hnone
      exact newest_fresh_of_empty (oldest_none hnone)
    rename_i t k hsome
    split
    · rename_i hstop
      rw [fresh_eq_by_age (fresh_of_oldest hages hsome hstop.1),
        newest_of_card_le (card_by_age.trans_le hstop.2)]
    · rename_i hgo
      obtain ⟨⟨v, hv, -⟩, -⟩ := oldest_some hsome
      have hlen := len_remove_present (m := m) (k := k) (by rw [hv]; rfl)
      rw [ih (by omega)]
      exact newest_fresh_remove hages hsome hgo

/-- What a prune leaves are the newest fresh entries, as many as the cap allows. -/
theorem prune_by_age (cap : Nat) (hages : Ages stale) :
    (m.prune stale cap).byAge = newest cap (m.fresh stale) :=
  prune_loop_by_age hages (by rw [card_by_age])

/-- After a prune every entry is fresh, and as many fresh ones are left as the cap allows. -/
theorem prune_fresh (cap : Nat) (hages : Ages stale) :
    (∀ j v, (m.prune stale cap).get j = some v → stale (stamp v) = false) ∧
      min cap (m.freshLen stale) ≤ (m.prune stale cap).len := by
  constructor
  · intro j v hv
    have hmem := ((m.prune stale cap).agree (stamp v) j).mpr ⟨v, hv, rfl⟩
    rw [prune_by_age cap hages] at hmem
    exact (Finset.mem_filter.mp (newest_subset hmem)).2
  · rw [← card_by_age, prune_by_age cap hages, card_newest]
    exact le_rfl

end Prune

end AgedMap

end Lib
