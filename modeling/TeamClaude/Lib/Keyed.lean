import Mathlib.Data.List.AList
import Mathlib.Data.List.Basic
import Mathlib.Data.List.Nodup

/-!
# Lists keyed by a partial key

Every element has a key and no two share one, so an element is found by its key. What a change of
the list does is said by what it does to the lookups.
-/

namespace Lib

variable {γ δ κ : Type*}

/-- Every element has a key, and no two have the same. -/
structure Keyed (key : γ → Option κ) (l : List γ) : Prop where
  known : ∀ x ∈ l, (key x).isSome
  nodup : (l.map key).Nodup

def lookup [DecidableEq κ] (key : γ → Option κ) (l : List γ) (k : κ) : Option γ :=
  l.find? fun x => key x = some k

namespace Keyed

variable {key : γ → Option κ} {l : List γ} {x y : γ} {k : κ}

theorem index_unique (h : Keyed key l) {i j : Nat} (hi : l[i]? = some x) (hj : l[j]? = some y)
    (hkey : key x = key y) : i = j := by
  have hlt : i < (l.map key).length := by
    rw [List.length_map]
    exact (List.getElem?_eq_some_iff.mp hi).1
  refine (List.getElem?_inj hlt h.nodup).mp ?_
  rw [List.getElem?_map, List.getElem?_map, hi, hj]
  exact congrArg some hkey

theorem eq_of_key (h : Keyed key l) (hx : x ∈ l) (hy : y ∈ l) (hkey : key x = key y) : x = y := by
  obtain ⟨i, hi⟩ := List.mem_iff_getElem?.mp hx
  obtain ⟨j, hj⟩ := List.mem_iff_getElem?.mp hy
  obtain rfl := h.index_unique hi hj hkey
  exact Option.some.inj (hi.symm.trans hj)

theorem of_map_eq {key' : δ → Option κ} {l' : List δ} (h : Keyed key l)
    (heq : l'.map key' = l.map key) : Keyed key' l' where
  known y hy := by
    obtain ⟨x, hx, he⟩ := List.mem_map.mp (heq ▸ List.mem_map_of_mem hy : key' y ∈ l.map key)
    rw [← he]
    exact h.known x hx
  nodup := heq ▸ h.nodup

theorem map {key' : δ → Option κ} {f : γ → δ} (h : Keyed key l)
    (hf : ∀ x ∈ l, key' (f x) = key x) : Keyed key' (l.map f) := by
  refine h.of_map_eq ?_
  rw [List.map_map]
  exact List.map_congr_left hf

theorem sublist {l' : List γ} (h : Keyed key l) (hl : l'.Sublist l) : Keyed key l' where
  known x hx := h.known x (hl.subset hx)
  nodup := h.nodup.sublist (hl.map key)

theorem append_singleton (h : Keyed key l) (hx : (key x).isSome) (hnew : ∀ y ∈ l, key y ≠ key x) :
    Keyed key (l ++ [x]) where
  known y hy := by
    rcases List.mem_append.mp hy with hy | hy
    · exact h.known y hy
    · rw [List.mem_singleton.mp hy]
      exact hx
  nodup := by
    rw [List.map_append, List.map_singleton]
    refine List.nodup_append.mpr ⟨h.nodup, List.nodup_singleton _, ?_⟩
    intro a ha b hb
    obtain ⟨y, hy, rfl⟩ := List.mem_map.mp ha
    rw [List.mem_singleton.mp hb]
    exact hnew y hy

theorem modify {f : γ → γ} (h : Keyed key l) (hf : ∀ x ∈ l, key (f x) = key x) (i : Nat) :
    Keyed key (l.modify i f) := by
  refine h.of_map_eq (List.ext_getElem? fun j => ?_)
  rw [List.getElem?_map, List.getElem?_map, List.getElem?_modify]
  split
  · cases hj : l[j]? with
    | none => rfl
    | some x => exact congrArg some (hf x (List.mem_of_getElem? hj))
  · cases l[j]? <;> rfl

end Keyed

section Lookup

variable [DecidableEq κ] {key : γ → Option κ} {l : List γ} {x : γ} {k : κ}

theorem lookup_eq_some (h : Keyed key l) : lookup key l k = some x ↔ x ∈ l ∧ key x = some k := by
  constructor
  · intro hx
    exact ⟨List.mem_of_find?_eq_some hx, by simpa using List.find?_some hx⟩
  · rintro ⟨hx, hk⟩
    cases hfound : lookup key l k with
    | none =>
      have hno := List.find?_eq_none.mp hfound x hx
      simp [hk] at hno
    | some y =>
      have hy : key y = some k := by simpa using List.find?_some hfound
      rw [h.eq_of_key (List.mem_of_find?_eq_some hfound) hx (hy.trans hk.symm)]

theorem lookup_eq_none : lookup key l k = none ↔ ∀ x ∈ l, key x ≠ some k := by
  rw [lookup, List.find?_eq_none]
  simp

theorem lookup_ne_none : lookup key l k ≠ none ↔ some k ∈ l.map key := by
  rw [Ne, lookup_eq_none, List.mem_map]
  push Not
  rfl

/-- Elements that keep their keys are found where they were. -/
theorem lookup_map {key' : δ → Option κ} {f : γ → δ} (hf : ∀ x ∈ l, key' (f x) = key x) :
    lookup key' (l.map f) k = (lookup key l k).map f := by
  rw [lookup, List.find?_map]
  refine congrArg (Option.map f) ?_
  induction l with
  | nil => rfl
  | cons y l ih =>
    have hy : key' (f y) = key y := hf y (List.mem_cons_self)
    rw [lookup, List.find?_cons, List.find?_cons, ← lookup]
    rw [ih fun x hx => hf x (List.mem_cons_of_mem y hx)]
    simp [hy]

theorem lookup_append_singleton :
    lookup key (l ++ [x]) k = (lookup key l k).or (if key x = some k then some x else none) := by
  rw [lookup, List.find?_append, ← lookup]
  congr 1
  by_cases hx : key x = some k <;> simp [hx]

/-- What is read off an element is found unchanged after a change that keeps it. -/
theorem lookup_modify_map {f : γ → γ} {g : γ → δ} {i : Nat}
    (hf : ∀ x ∈ l, key (f x) = key x ∧ g (f x) = g x) :
    (lookup key (l.modify i f) k).map g = (lookup key l k).map g := by
  induction l generalizing i with
  | nil => simp
  | cons y l ih =>
    have hrest : ∀ x ∈ l, key (f x) = key x ∧ g (f x) = g x :=
      fun x hx => hf x (List.mem_cons_of_mem y hx)
    obtain ⟨hkey, hg⟩ := hf y List.mem_cons_self
    cases i with
    | zero =>
      rw [List.modify_zero_cons, lookup, lookup, List.find?_cons, List.find?_cons, hkey]
      split
      · exact congrArg some hg
      · rfl
    | succ i =>
      rw [List.modify_succ_cons, lookup, lookup, List.find?_cons, List.find?_cons]
      split
      · rfl
      · exact ih hrest

end Lookup

section Fill

variable [DecidableEq κ] {key : γ → κ} {entry : γ → Option δ} {m : AList fun _ : κ => δ} {l : List γ}
  {x : γ} {k : κ} {v : δ}

/-- The entry an element makes in a map, if it makes one. -/
def fill (key : γ → κ) (entry : γ → Option δ) (m : AList fun _ : κ => δ) (x : γ) :
    AList fun _ : κ => δ :=
  match entry x with
  | some v => m.insert (key x) v
  | none => m

theorem lookup_fill (hnew : m.lookup (key x) = none) :
    (fill key entry m x).lookup k = some v ↔ m.lookup k = some v ∨ key x = k ∧ entry x = some v := by
  unfold fill
  cases entry x with
  | none => simp
  | some w =>
    by_cases hk : k = key x
    · subst hk
      simp [AList.lookup_insert, hnew]
    · simp [AList.lookup_insert_ne hk, Ne.symm hk]

/-- An element makes no entry but its own. -/
theorem lookup_fill_ne (h : k ≠ key x) : (fill key entry m x).lookup k = m.lookup k := by
  unfold fill
  cases entry x with
  | none => rfl
  | some v => exact AList.lookup_insert_ne h

/-- Every element of distinct keys leaves its entry or none. -/
theorem lookup_fill_all (hkeys : (l.map key).Nodup) (hnew : ∀ x ∈ l, m.lookup (key x) = none) :
    (l.foldl (fill key entry) m).lookup k = some v ↔
      m.lookup k = some v ∨ ∃ x ∈ l, key x = k ∧ entry x = some v := by
  induction l generalizing m with
  | nil => simp
  | cons x l ih =>
    rw [List.map_cons, List.nodup_cons] at hkeys
    rw [List.foldl_cons, ih hkeys.2, lookup_fill (hnew x List.mem_cons_self)]
    · simp only [List.mem_cons, or_assoc, exists_eq_or_imp]
    · intro y hy
      rw [lookup_fill_ne]
      · exact hnew y (List.mem_cons_of_mem x hy)
      · exact fun hsame => hkeys.1 (hsame ▸ List.mem_map_of_mem hy)

end Fill

end Lib
