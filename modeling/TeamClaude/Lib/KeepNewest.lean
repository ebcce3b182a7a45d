import Mathlib.Data.List.Nodup
import Mathlib.Data.List.Perm.Subperm
import Mathlib.Order.Lattice

/-!
# Keeping the newest of a list

A list over a cap is sorted by time, newest first, and cut at the cap; what is kept is then sorted by
key. The result is the same for every order of the list exactly when no two elements of one time lie
on either side of the cut.
-/

namespace Lib.KeepNewest

variable {α τ κ : Type*} [LinearOrder τ] [LinearOrder κ]

/-- The order of falling time. -/
def newer (time : α → τ) (a b : α) : Bool := decide (time b ≤ time a)

/-- The order of rising key. -/
def before (key : α → κ) (a b : α) : Bool := decide (key a ≤ key b)

/-- At most `cap` elements, the newest. -/
def keep (time : α → τ) (cap : Nat) (l : List α) : List α :=
  if cap < l.length then (l.mergeSort (newer time)).take cap else l

/-- What is kept, in order of key. -/
def keepSorted (time : α → τ) (key : α → κ) (cap : Nat) (l : List α) : List α :=
  (keep time cap l).mergeSort (before key)

def newerThan (time : α → τ) (t : τ) (l : List α) : Nat :=
  l.countP fun a => decide (t < time a)

def asNewAs (time : α → τ) (t : τ) (l : List α) : Nat :=
  l.countP fun a => decide (t ≤ time a)

/-- Elements of one time lie on either side of the cap. -/
def EdgeTied (time : α → τ) (cap : Nat) (l : List α) : Prop :=
  ∃ a ∈ l, newerThan time (time a) l < cap ∧ cap < asNewAs time (time a) l

instance (time : α → τ) (cap : Nat) (l : List α) : Decidable (EdgeTied time cap l) :=
  List.decidableBEx _ l

section Sorted

variable {time : α → τ} {key : α → κ} {cap : Nat} {l l' : List α} {a : α}

theorem edge_tied_perm (h : l.Perm l') : EdgeTied time cap l ↔ EdgeTied time cap l' := by
  have hnewer : ∀ t, newerThan time t l = newerThan time t l' := fun t => h.countP_eq _
  have hasNew : ∀ t, asNewAs time t l = asNewAs time t l' := fun t => h.countP_eq _
  unfold EdgeTied
  simp only [hnewer, hasNew, h.mem_iff]

theorem sorted_newer (time : α → τ) (l : List α) :
    (l.mergeSort (newer time)).Pairwise fun a b => time b ≤ time a := by
  refine (List.pairwise_mergeSort (fun a b c hab hbc => ?_) (fun a b => ?_) l).imp fun h =>
    of_decide_eq_true h
  · exact decide_eq_true ((of_decide_eq_true hbc).trans (of_decide_eq_true hab))
  · simpa [newer] using le_total (time b) (time a)

/-- Lists of one content and distinct keys are sorted by key to one list. -/
theorem sorted_by_key (h : l.Perm l') (hkeys : (l.map key).Nodup) :
    l.mergeSort (before key) = l'.mergeSort (before key) := by
  have hsorted : ∀ l : List α, (l.mergeSort (before key)).Pairwise fun a b => key a ≤ key b := by
    intro l
    refine (List.pairwise_mergeSort (fun a b c hab hbc => ?_) (fun a b => ?_) l).imp fun h =>
      of_decide_eq_true h
    · exact decide_eq_true ((of_decide_eq_true hab).trans (of_decide_eq_true hbc))
    · simpa [before] using le_total (key a) (key b)
  have hperm : (l.mergeSort (before key)).Perm (l'.mergeSort (before key)) :=
    (List.mergeSort_perm l _).trans (h.trans (List.mergeSort_perm l' _).symm)
  refine hperm.eq_of_pairwise (fun a b ha hb hab hba => ?_) (hsorted l) (hsorted l')
  have ha' : a ∈ l := List.mem_mergeSort.mp ha
  have hb' : b ∈ l := h.mem_iff.mpr (List.mem_mergeSort.mp hb)
  exact List.inj_on_of_nodup_map hkeys ha' hb' (le_antisymm hab hba)

theorem newer_than_append (t : τ) (l m : List α) :
    newerThan time t (l ++ m) = newerThan time t l + newerThan time t m :=
  List.countP_append

theorem as_new_as_append (t : τ) (l m : List α) :
    asNewAs time t (l ++ m) = asNewAs time t l + asNewAs time t m :=
  List.countP_append

theorem newer_than_eq_zero {t : τ} (h : ∀ a ∈ l, time a ≤ t) : newerThan time t l = 0 :=
  List.countP_eq_zero.mpr fun a ha => by simpa using h a ha

theorem newer_than_eq_length {t : τ} (h : ∀ a ∈ l, t < time a) : newerThan time t l = l.length :=
  List.countP_eq_length.mpr fun a ha => decide_eq_true (h a ha)

theorem as_new_as_eq_zero {t : τ} (h : ∀ a ∈ l, time a < t) : asNewAs time t l = 0 :=
  List.countP_eq_zero.mpr fun a ha => by simpa using h a ha

theorem as_new_as_eq_length {t : τ} (h : ∀ a ∈ l, t ≤ time a) : asNewAs time t l = l.length :=
  List.countP_eq_length.mpr fun a ha => decide_eq_true (h a ha)

/-- An element is as new as itself and not newer. -/
theorem newer_than_lt (time : α → τ) (ha : a ∈ l) :
    newerThan time (time a) l < asNewAs time (time a) l := by
  obtain ⟨pre, post, rfl⟩ := List.append_of_mem ha
  have hle : ∀ l : List α, newerThan time (time a) l ≤ asNewAs time (time a) l := fun l =>
    List.countP_mono_left fun b _ hb => decide_eq_true (of_decide_eq_true hb).le
  have hself : newerThan time (time a) [a] = 0 := newer_than_eq_zero (by simp)
  have hself' : asNewAs time (time a) [a] = 1 := as_new_as_eq_length (by simp)
  have hpre := hle pre
  have hpost := hle post
  rw [← List.singleton_append, newer_than_append, newer_than_append, as_new_as_append,
    as_new_as_append]
  omega

theorem as_new_as_le_length (time : α → τ) (t : τ) (l : List α) : asNewAs time t l ≤ l.length :=
  List.countP_le_length

/-- In a list of falling times over the cap, where none straddles it, the elements with fewer than
the cap newer are those inside the cap. -/
theorem filter_newest (hsorted : l.Pairwise fun a b => time b ≤ time a) (hover : cap < l.length)
    (h : ¬EdgeTied time cap l) :
    l.filter (fun a => decide (newerThan time (time a) l < cap)) = l.take cap := by
  have hsplit := List.take_append_drop cap l
  have hcut : ∀ x ∈ l.take cap, ∀ y ∈ l.drop cap, time y ≤ time x := by
    rw [← hsplit] at hsorted
    exact (List.pairwise_append.mp hsorted).2.2
  have hfull : (l.take cap).length = cap := by
    rw [List.length_take]
    omega
  have hkept : (l.take cap).filter (fun a => decide (newerThan time (time a) l < cap)) =
      l.take cap := by
    refine List.filter_eq_self.mpr fun x hx => decide_eq_true ?_
    have hbelow : newerThan time (time x) (l.drop cap) = 0 :=
      newer_than_eq_zero fun y hy => hcut x hx y hy
    have hself := newer_than_lt time hx
    have hroom := as_new_as_le_length time (time x) (l.take cap)
    rw [← hsplit, newer_than_append, hbelow]
    omega
  have hdropped : (l.drop cap).filter (fun a => decide (newerThan time (time a) l < cap)) = [] := by
    refine List.filter_eq_nil_iff.mpr fun y hy hlt => h ⟨y, ?_, of_decide_eq_true hlt, ?_⟩
    · exact List.mem_of_mem_drop hy
    · have habove : asNewAs time (time y) (l.take cap) = cap :=
        (as_new_as_eq_length fun x hx => hcut x hx y hy).trans hfull
      have hself := newer_than_lt time hy
      rw [← hsplit, as_new_as_append, habove]
      omega
  conv_lhs => rw [← hsplit, List.filter_append, hsplit]
  rw [hkept, hdropped, List.append_nil]

/-- Where no time straddles the cap, an element is kept exactly when fewer than the cap are newer. -/
theorem keep_perm (h : ¬EdgeTied time cap l) :
    (keep time cap l).Perm (l.filter fun a => decide (newerThan time (time a) l < cap)) := by
  unfold keep
  split
  · rename_i hover
    have hperm := List.mergeSort_perm l (newer time)
    have hnewer : ∀ t, newerThan time t l = newerThan time t (l.mergeSort (newer time)) :=
      fun t => (hperm.countP_eq _).symm
    rw [← edge_tied_perm hperm] at h
    rw [← hperm.length_eq] at hover
    rw [← filter_newest (sorted_newer time l) hover h]
    simp only [hnewer]
    exact hperm.filter _
  · rename_i hfits
    rw [List.filter_eq_self.mpr fun a ha => decide_eq_true ?_]
    have hself := newer_than_lt time ha
    have hroom := as_new_as_le_length time (time a) l
    omega

theorem mem_keep (h : ¬EdgeTied time cap l) :
    a ∈ keep time cap l ↔ a ∈ l ∧ newerThan time (time a) l < cap := by
  rw [(keep_perm h).mem_iff, List.mem_filter, decide_eq_true_iff]

theorem keep_subperm (time : α → τ) (cap : Nat) (l : List α) : (keep time cap l).Subperm l := by
  unfold keep
  split
  · exact (List.take_sublist _ _).subperm.trans (List.mergeSort_perm l _).subperm
  · exact List.Subperm.refl l

theorem length_keep_le : (keep time cap l).length ≤ cap := by
  unfold keep
  split
  · exact List.length_take_le _ _
  · omega

omit [LinearOrder κ] in
theorem keep_keys_nodup (hkeys : (l.map key).Nodup) : ((keep time cap l).map key).Nodup := by
  obtain ⟨m, hperm, hsub⟩ := keep_subperm time cap l
  exact (hperm.map key).nodup_iff.mp (hkeys.sublist (hsub.map key))

theorem keep_sorted_congr (hkeys : (l.map key).Nodup) (h : ¬EdgeTied time cap l)
    (hperm : l'.Perm l) : keepSorted time key cap l' = keepSorted time key cap l := by
  have hnewer : ∀ t, newerThan time t l' = newerThan time t l := fun t => hperm.countP_eq _
  have hkept : (keep time cap l).Perm (keep time cap l') := by
    refine (keep_perm h).trans (List.Perm.trans ?_ (keep_perm ?_).symm)
    · simp only [hnewer]
      exact hperm.symm.filter _
    · rwa [edge_tied_perm hperm]
  exact (sorted_by_key hkept (keep_keys_nodup hkeys)).symm

omit [LinearOrder τ] [LinearOrder κ] in
/-- A list longer than a positive cap, parted between the last element inside it and the first
outside. -/
theorem split_at_cap (hcap : 0 < cap) (h : cap < l.length) :
    ∃ pre x y post, l = pre ++ x :: y :: post ∧ pre.length + 1 = cap := by
  obtain ⟨cap, rfl⟩ := Nat.exists_eq_add_one.mpr hcap
  have hx : cap < l.length := by omega
  refine ⟨l.take cap, l[cap], l[cap + 1], l.drop (cap + 1 + 1), ?_, ?_⟩
  · rw [← List.drop_eq_getElem_cons h, ← List.drop_eq_getElem_cons hx, List.take_append_drop]
  · rw [List.length_take]
    omega

/-- In a list of falling times, a time of which fewer than the first part are newer and more than the
first part are as new is the time on both sides of the cut. -/
theorem time_of_cut {x y : α} {pre post : List α} {t : τ}
    (hsorted : (pre ++ x :: y :: post).Pairwise fun a b => time b ≤ time a)
    (hnewer : newerThan time t (pre ++ x :: y :: post) < pre.length + 1)
    (hasNew : pre.length + 1 < asNewAs time t (pre ++ x :: y :: post)) : time x = time y := by
  have hcut : pre ++ x :: y :: post = (pre ++ [x]) ++ y :: post := by simp
  have hlen : (pre ++ [x]).length = pre.length + 1 := List.length_append
  rw [hcut] at hsorted hnewer hasNew
  rw [newer_than_append] at hnewer
  rw [as_new_as_append] at hasNew
  obtain ⟨habove, hbelow, hacross⟩ := List.pairwise_append.mp hsorted
  refine le_antisymm (le_of_not_gt fun hlt => ?_) (hacross x (by simp) y (by simp))
  have hfirst : ∀ a ∈ pre ++ [x], time x ≤ time a := by
    intro a ha
    rcases List.mem_append.mp ha with ha | ha
    · exact (List.pairwise_append.mp habove).2.2 a ha x (List.mem_singleton_self x)
    · rw [List.mem_singleton.mp ha]
  have hlast : ∀ b ∈ y :: post, time b ≤ time y := by
    intro b hb
    rcases List.mem_cons.mp hb with rfl | hb
    · exact le_rfl
    · exact (List.pairwise_cons.mp hbelow).1 b hb
  rcases le_or_gt t (time y) with ht | ht
  · have hall : newerThan time t (pre ++ [x]) = (pre ++ [x]).length :=
      newer_than_eq_length fun a ha => (ht.trans_lt hlt).trans_le (hfirst a ha)
    omega
  · have hnone : asNewAs time t (y :: post) = 0 :=
      as_new_as_eq_zero fun b hb => (hlast b hb).trans_lt ht
    have hmost := as_new_as_le_length time t (pre ++ [x])
    omega

/-- The two elements on either side of the cap have one time, where a time straddles it. -/
theorem edge_of_tied (h : EdgeTied time cap l) : ∃ pre x y post,
    l.mergeSort (newer time) = pre ++ x :: y :: post ∧ pre.length + 1 = cap ∧ time x = time y := by
  obtain ⟨e, -, hnewerE, hasNewE⟩ := h
  have hperm := List.mergeSort_perm l (newer time)
  have hsorted := sorted_newer time l
  have hroom := as_new_as_le_length time (time e) l
  have hnewer : newerThan time (time e) (l.mergeSort (newer time)) < cap := by
    rwa [newerThan, hperm.countP_eq]
  have hasNew : cap < asNewAs time (time e) (l.mergeSort (newer time)) := by
    rwa [asNewAs, hperm.countP_eq]
  have hover : cap < (l.mergeSort (newer time)).length := by
    rw [hperm.length_eq]
    omega
  obtain ⟨pre, x, y, post, hsplit, hpre⟩ := split_at_cap (by omega) hover
  rw [hsplit] at hsorted hnewer hasNew
  rw [← hpre] at hnewer hasNew
  exact ⟨pre, x, y, post, hsplit, hpre, time_of_cut hsorted hnewer hasNew⟩

/-- Two neighbours of one time may change places in a sorted list. -/
theorem sort_swap {pre post : List α} {x y : α}
    (hsorted : (pre ++ x :: y :: post).Pairwise fun a b => time b ≤ time a) (hsame : time x = time y) :
    (pre ++ y :: x :: post).mergeSort (newer time) = pre ++ y :: x :: post := by
  have htimes : (pre ++ x :: y :: post).map time = (pre ++ y :: x :: post).map time := by
    simp [hsame]
  have hfall : ((pre ++ x :: y :: post).map time).Pairwise fun s t => t ≤ s :=
    List.pairwise_map.mpr hsorted
  rw [htimes] at hfall
  exact List.mergeSort_of_pairwise ((List.pairwise_map.mp hfall).imp decide_eq_true)

/-- What is kept of a list whose sorted form is known up to the cap. -/
theorem mem_keep_sorted {pre post : List α} {x y b : α} (hpre : pre.length + 1 = cap)
    (h : l.mergeSort (newer time) = pre ++ x :: y :: post) :
    b ∈ keepSorted time key cap l ↔ b ∈ pre ∨ b = x := by
  have hlength := (List.mergeSort_perm l (newer time)).length_eq
  rw [h, List.length_append, List.length_cons, List.length_cons] at hlength
  have hsplit : pre ++ x :: y :: post = (pre ++ [x]) ++ y :: post := by simp
  have hcap : cap = (pre ++ [x]).length := by
    rw [List.length_append, List.length_singleton]
    exact hpre.symm
  rw [keepSorted, List.mem_mergeSort, keep, if_pos (by omega), h, hsplit, hcap, List.take_left,
    List.mem_append, List.mem_singleton]

/-- Where a time straddles the cap, some order of the list keeps something else. -/
theorem keep_sorted_of_tied (hkeys : (l.map key).Nodup) (h : EdgeTied time cap l) :
    ∃ l', l'.Perm l ∧ keepSorted time key cap l' ≠ keepSorted time key cap l := by
  obtain ⟨pre, x, y, post, hs, hcap, hsame⟩ := edge_of_tied h
  have hperm := List.mergeSort_perm l (newer time)
  have hsorted := sorted_newer time l
  have hnodup : (l.mergeSort (newer time)).Nodup :=
    hperm.nodup_iff.mpr (List.Nodup.of_map key hkeys)
  rw [hs] at hperm hsorted hnodup
  have hswap : (pre ++ y :: x :: post).Perm (pre ++ x :: y :: post) :=
    (List.Perm.swap x y post).append_left pre
  refine ⟨pre ++ y :: x :: post, hswap.trans hperm, fun heq => ?_⟩
  have hin : x ∈ keepSorted time key cap l := (mem_keep_sorted hcap hs).mpr (Or.inr rfl)
  rw [← heq, mem_keep_sorted hcap (sort_swap hsorted hsame)] at hin
  obtain ⟨-, hrest, hacross⟩ := List.nodup_append.mp hnodup
  rcases hin with hin | rfl
  · exact hacross x hin x List.mem_cons_self rfl
  · exact (List.nodup_cons.mp hrest).1 List.mem_cons_self

/-- Every order of the list keeps the same exactly when no time straddles the cap. -/
theorem keep_sorted_iff (hkeys : (l.map key).Nodup) :
    (∀ l', l'.Perm l → keepSorted time key cap l' = keepSorted time key cap l) ↔
      ¬EdgeTied time cap l := by
  constructor
  · intro hall htied
    obtain ⟨l', hperm, hne⟩ := keep_sorted_of_tied hkeys htied
    exact hne (hall l' hperm)
  · exact fun h l' hperm => keep_sorted_congr hkeys h hperm

/-- Among what a cutoff in time leaves, as many are newer than one of them as in the whole list. -/
theorem newer_than_filter {p : α → Bool} (hp : ∀ a b, time a ≤ time b → p a = true → p b = true)
    (ha : p a = true) (l : List α) :
    newerThan time (time a) (l.filter p) = newerThan time (time a) l := by
  unfold newerThan
  rw [List.countP_filter]
  refine List.countP_congr fun b _ => ?_
  simp only [Bool.and_eq_true, decide_eq_true_eq, and_iff_left_iff_imp]
  exact fun hlt => hp a b hlt.le ha

/-- Elements of one time are kept as they come. -/
theorem keep_same_time (h : ∀ a ∈ l, ∀ b ∈ l, time b ≤ time a) : keep time cap l = l.take cap := by
  unfold keep
  split
  · rw [List.mergeSort_of_pairwise]
    exact List.pairwise_iff_forall_sublist.mpr fun hsub =>
      decide_eq_true (h _ (hsub.subset (by simp)) _ (hsub.subset (by simp)))
  · rename_i hfits
    exact (List.take_of_length_le (Nat.not_lt.mp hfits)).symm

/-- One element over the cap, all of one time: the first is kept in this order and cut in the
reversed one. -/
theorem keep_sorted_reverse_ne (hlength : l.length = cap + 1) (hcap : 0 < cap)
    (hnodup : l.Nodup) (h : ∀ a ∈ l, ∀ b ∈ l, time b ≤ time a) :
    keepSorted time key cap l.reverse ≠ keepSorted time key cap l := by
  cases l with
  | nil => cases hlength
  | cons x l =>
    obtain ⟨cap, rfl⟩ := Nat.exists_eq_add_one.mpr hcap
    rw [List.length_cons] at hlength
    have hl : l.length = cap + 1 := by omega
    have hfirst : x ∈ keepSorted time key (cap + 1) (x :: l) := by
      rw [keepSorted, List.mem_mergeSort, keep_same_time h, List.take_succ_cons]
      exact List.mem_cons_self
    have hback : ∀ a ∈ (x :: l).reverse, ∀ b ∈ (x :: l).reverse, time b ≤ time a := fun a ha b hb =>
      h a (List.mem_reverse.mp ha) b (List.mem_reverse.mp hb)
    intro heq
    rw [← heq, keepSorted, List.mem_mergeSort, keep_same_time hback, List.reverse_cons,
      List.take_append_of_le_length (by simp [hl])] at hfirst
    exact (List.nodup_cons.mp hnodup).1 (List.mem_reverse.mp (List.mem_of_mem_take hfirst))

omit [LinearOrder κ] in
theorem keep_map {β : Type*} (f : β → α) (l : List β) :
    (keep (time ∘ f) cap l).map f = keep time cap (l.map f) := by
  unfold keep
  rw [List.length_map]
  split
  · have hsort : (l.mergeSort (newer (time ∘ f))).map f = (l.map f).mergeSort (newer time) :=
      List.map_mergeSort fun _ _ _ _ => rfl
    rw [List.map_take, hsort]
  · rfl

/-- What is kept can be chosen before or after a map that leaves the times and the keys alone. -/
theorem keep_sorted_map {β : Type*} (f : β → α) (l : List β) :
    (keepSorted (time ∘ f) (key ∘ f) cap l).map f = keepSorted time key cap (l.map f) := by
  unfold keepSorted
  rw [← keep_map]
  exact List.map_mergeSort fun _ _ _ _ => rfl

end Sorted

end Lib.KeepNewest
