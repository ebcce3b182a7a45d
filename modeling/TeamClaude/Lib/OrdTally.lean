import Mathlib.Algebra.BigOperators.Group.List.Basic
import Mathlib.Data.List.Induction
import Mathlib.Order.Lattice

/-!
# Tallies in key order

A map kept in the order of its keys, whose values are sums: an item adds its value at its key. The map
that a list of items leaves does not depend on their order, and its sum over a span of keys is the sum
over the items of the span. A cell that keeps the items of the newest key alone shows, through a view
of that key, the items of the key.
-/

namespace Lib

variable {κ ν α S : Type*}

structure OrdMap (κ ν : Type*) [LinearOrder κ] where
  entries : List (κ × ν)
  sorted : entries.Pairwise fun a b => a.1 < b.1

namespace OrdMap

section Order

variable [LinearOrder κ]

def empty : OrdMap κ ν := ⟨[], .nil⟩

instance : EmptyCollection (OrdMap κ ν) := ⟨empty⟩

instance : Inhabited (OrdMap κ ν) := ⟨empty⟩

@[ext] theorem ext_entries {m m' : OrdMap κ ν} (h : m.entries = m'.entries) : m = m' := by
  cases m
  cases m'
  congr

instance [DecidableEq ν] : DecidableEq (OrdMap κ ν) := fun m m' =>
  decidable_of_iff (m.entries = m'.entries) ⟨ext_entries, fun h => congrArg entries h⟩

/-- What a sorted list holds at a key. -/
def find (k : κ) : List (κ × ν) → Option ν
  | [] => none
  | e :: rest => if e.1 = k then some e.2 else find k rest

def lookup (m : OrdMap κ ν) (k : κ) : Option ν :=
  find k m.entries

/-- The entry of a key replaced by `f` of it. -/
def alter (k : κ) (f : Option ν → ν) : List (κ × ν) → List (κ × ν)
  | [] => [(k, f none)]
  | e :: rest =>
    if k < e.1 then (k, f none) :: e :: rest
    else if k = e.1 then (k, f (some e.2)) :: rest
    else e :: alter k f rest

variable {k k' : κ} {f : Option ν → ν} {l l' : List (κ × ν)} {e : κ × ν}

theorem mem_alter (h : e ∈ alter k f l) : e.1 = k ∨ e ∈ l := by
  induction l with
  | nil =>
    rw [alter, List.mem_singleton] at h
    exact Or.inl (congrArg Prod.fst h)
  | cons first rest ih =>
    rw [alter] at h
    split_ifs at h with hlt heq
    · rcases List.mem_cons.mp h with rfl | hmem
      · exact Or.inl rfl
      · exact Or.inr hmem
    · rcases List.mem_cons.mp h with rfl | hmem
      · exact Or.inl rfl
      · exact Or.inr (List.mem_cons_of_mem _ hmem)
    · rcases List.mem_cons.mp h with rfl | hmem
      · exact Or.inr List.mem_cons_self
      · exact (ih hmem).imp id (List.mem_cons_of_mem _)

theorem sorted_alter (h : l.Pairwise fun a b => a.1 < b.1) :
    (alter k f l).Pairwise fun a b => a.1 < b.1 := by
  induction l with
  | nil => exact List.pairwise_singleton _ _
  | cons first rest ih =>
    obtain ⟨hfirst, hrest⟩ := List.pairwise_cons.mp h
    rw [alter]
    split_ifs with hlt heq
    · refine List.pairwise_cons.mpr ⟨fun e he => ?_, h⟩
      rcases List.mem_cons.mp he with rfl | hmem
      · exact hlt
      · exact hlt.trans (hfirst e hmem)
    · subst heq
      exact List.pairwise_cons.mpr ⟨hfirst, hrest⟩
    · refine List.pairwise_cons.mpr ⟨fun e he => ?_, ih hrest⟩
      rcases mem_alter he with hkey | hmem
      · rw [hkey]
        exact lt_of_le_of_ne (not_lt.mp hlt) (Ne.symm heq)
      · exact hfirst e hmem

theorem find_none_of_lt (h : ∀ e ∈ l, k < e.1) : find k l = none := by
  induction l with
  | nil => rfl
  | cons first rest ih =>
    rw [find, if_neg (h first List.mem_cons_self).ne']
    exact ih fun e he => h e (List.mem_cons_of_mem _ he)

theorem find_alter (h : l.Pairwise fun a b => a.1 < b.1) :
    find k' (alter k f l) = if k' = k then some (f (find k l)) else find k' l := by
  induction l with
  | nil =>
    by_cases heq : k' = k
    · simp [alter, find, heq]
    · simp [alter, find, heq, Ne.symm heq]
  | cons first rest ih =>
    obtain ⟨hfirst, hrest⟩ := List.pairwise_cons.mp h
    by_cases hlt : k < first.1
    · rw [alter, if_pos hlt]
      by_cases hsame : k' = k
      · subst hsame
        have hnone : find k' (first :: rest) = none := by
          refine find_none_of_lt fun e he => ?_
          rcases List.mem_cons.mp he with rfl | hmem
          · exact hlt
          · exact hlt.trans (hfirst e hmem)
        rw [if_pos rfl, find, if_pos rfl, hnone]
      · rw [if_neg hsame, find, if_neg (Ne.symm hsame)]
    · by_cases heq : k = first.1
      · rw [alter, if_neg hlt, if_pos heq]
        subst heq
        by_cases hsame : k' = first.1
        · subst hsame
          rw [if_pos rfl, find, if_pos rfl, find, if_pos rfl]
        · rw [if_neg hsame, find, if_neg (Ne.symm hsame), find, if_neg (Ne.symm hsame)]
      · rw [alter, if_neg hlt, if_neg heq, find, ih hrest]
        by_cases hsame : k' = k
        · subst hsame
          rw [if_neg (Ne.symm heq), if_pos rfl, if_pos rfl, find, if_neg (Ne.symm heq)]
        · rw [if_neg hsame, if_neg hsame, find]

/-- Sorted lists that hold the same at every key are the same. -/
theorem eq_of_find (h : l.Pairwise fun a b => a.1 < b.1) (h' : l'.Pairwise fun a b => a.1 < b.1)
    (hfind : ∀ k, find k l = find k l') : l = l' := by
  induction l generalizing l' with
  | nil =>
    cases l' with
    | nil => rfl
    | cons e' rest' => exact absurd (hfind e'.1) (by simp [find])
  | cons e rest ih =>
    cases l' with
    | nil => exact absurd (hfind e.1) (by simp [find])
    | cons e' rest' =>
      obtain ⟨hfirst, hrest⟩ := List.pairwise_cons.mp h
      obtain ⟨hfirst', hrest'⟩ := List.pairwise_cons.mp h'
      have hkey : e.1 = e'.1 := by
        rcases lt_trichotomy e.1 e'.1 with hlt | heq | hlt
        · have hnone : find e.1 (e' :: rest') = none := by
            refine find_none_of_lt fun x hx => ?_
            rcases List.mem_cons.mp hx with rfl | hmem
            · exact hlt
            · exact hlt.trans (hfirst' x hmem)
          have hsome := hfind e.1
          rw [hnone, find, if_pos rfl] at hsome
          cases hsome
        · exact heq
        · have hnone : find e'.1 (e :: rest) = none := by
            refine find_none_of_lt fun x hx => ?_
            rcases List.mem_cons.mp hx with rfl | hmem
            · exact hlt
            · exact hlt.trans (hfirst x hmem)
          have hsome := hfind e'.1
          rw [hnone, find, if_pos rfl] at hsome
          cases hsome
      have hvalue := hfind e.1
      rw [find, if_pos rfl, find, if_pos hkey.symm] at hvalue
      have hhead : e = e' := Prod.ext hkey (Option.some.inj hvalue)
      subst hhead
      refine congrArg _ (ih hrest hrest' fun k => ?_)
      by_cases hk : e.1 = k
      · subst hk
        rw [find_none_of_lt hfirst, find_none_of_lt hfirst']
      · have := hfind k
        rwa [find, if_neg hk, find, if_neg hk] at this

theorem ext_lookup {m m' : OrdMap κ ν} (h : ∀ k, m.lookup k = m'.lookup k) : m = m' :=
  ext_entries (eq_of_find m.sorted m'.sorted h)

@[simp] theorem lookup_empty (k : κ) : (∅ : OrdMap κ ν).lookup k = none := rfl

/-- The values read through a function. -/
def mapVals {μ : Type*} (g : ν → μ) (m : OrdMap κ ν) : OrdMap κ μ where
  entries := m.entries.map fun e => (e.1, g e.2)
  sorted := List.pairwise_map.mpr m.sorted

def lastKey (m : OrdMap κ ν) : Option κ :=
  m.entries.getLast?.map Prod.fst

/-- The entries from the first key on that is not under the bound. -/
def dropBelow (m : OrdMap κ ν) (bound : κ) : OrdMap κ ν where
  entries := m.entries.dropWhile fun e => decide (e.1 < bound)
  sorted := m.sorted.sublist (List.dropWhile_sublist _)

theorem mem_of_last_key {m : OrdMap κ ν} (h : m.lastKey = some k) : ∃ v, (k, v) ∈ m.entries := by
  rw [lastKey, Option.map_eq_some_iff] at h
  obtain ⟨e, he, rfl⟩ := h
  exact ⟨e.2, List.mem_of_getLast? he⟩

end Order

/-! ## Sums -/

section Sums

variable [LinearOrder κ] [AddCommMonoid ν] {k k' : κ} {v v' : ν} {m : OrdMap κ ν}

def add (m : OrdMap κ ν) (k : κ) (v : ν) : OrdMap κ ν where
  entries := alter k (fun old => old.getD 0 + v) m.entries
  sorted := sorted_alter m.sorted

/-- The sum of the values whose keys satisfy a test. -/
def sumOn (m : OrdMap κ ν) (p : κ → Bool) : ν :=
  (m.entries.map fun e => if p e.1 then e.2 else 0).sum

def total (m : OrdMap κ ν) : ν :=
  (m.entries.map Prod.snd).sum

theorem lookup_add : (m.add k v).lookup k' =
    if k' = k then some ((m.lookup k).getD 0 + v) else m.lookup k' :=
  find_alter m.sorted

theorem add_right_comm : (m.add k v).add k' v' = (m.add k' v').add k v := by
  refine ext_lookup fun x => ?_
  simp only [lookup_add]
  by_cases hk : k' = k
  · subst hk
    by_cases hx : x = k'
    · simp only [hx, if_true, Option.getD_some]
      rw [add_assoc, add_assoc, add_comm v]
    · simp only [hx, if_false]
  · by_cases hx : x = k'
    · subst hx
      simp only [hk, if_true, if_false]
    · simp only [hx, Ne.symm hk, if_false]

theorem sum_alter (p : κ → Bool) (l : List (κ × ν)) :
    ((alter k (fun old => old.getD 0 + v) l).map fun e => if p e.1 then e.2 else 0).sum =
      (l.map fun e => if p e.1 then e.2 else 0).sum + if p k then v else 0 := by
  induction l with
  | nil => simp [alter]
  | cons e rest ih =>
    rw [alter]
    split_ifs with hlt hp heq hp hp
    · simp [hp, add_comm]
    · simp [hp]
    · subst heq
      simp only [List.map_cons, List.sum_cons, hp, if_true, Option.getD_some]
      rw [add_assoc, add_assoc, add_comm v]
    · subst heq
      simp [hp]
    · rw [List.map_cons, List.sum_cons, ih, List.map_cons, List.sum_cons, if_pos hp, add_assoc]
    · rw [List.map_cons, List.sum_cons, ih, List.map_cons, List.sum_cons, if_neg hp, add_assoc]

theorem sum_on_add (p : κ → Bool) : (m.add k v).sumOn p = m.sumOn p + if p k then v else 0 :=
  sum_alter p m.entries

theorem total_eq_sum_on : m.total = m.sumOn fun _ => true := by
  simp [total, sumOn]

theorem total_add : (m.add k v).total = m.total + v := by
  rw [total_eq_sum_on, total_eq_sum_on, sum_on_add, if_pos rfl]

/-- Entries under the bound do not count in a sum over keys from the bound on. -/
theorem sum_on_drop_below {p : κ → Bool} {bound : κ} (h : ∀ k, p k = true → bound ≤ k) :
    (m.dropBelow bound).sumOn p = m.sumOn p := by
  have hdrop : ∀ l : List (κ × ν),
      ((l.dropWhile fun e => decide (e.1 < bound)).map fun e => if p e.1 then e.2 else 0).sum =
        (l.map fun e => if p e.1 then e.2 else 0).sum := by
    intro l
    induction l with
    | nil => rfl
    | cons e rest ih =>
      by_cases hlt : e.1 < bound
      · have hp : ¬p e.1 = true := fun hp => absurd (h e.1 hp) (not_le.mpr hlt)
        rw [List.dropWhile_cons_of_pos (by simpa using hlt), ih, List.map_cons, List.sum_cons,
          if_neg hp, zero_add]
      · rw [List.dropWhile_cons_of_neg (by simpa using hlt)]
  exact hdrop m.entries

end Sums

/-! ## Tallies -/

section Tally

variable [LinearOrder κ] [AddCommMonoid ν] {key : α → κ} {val : α → ν} {xs ys : List α}

def tally (key : α → κ) (val : α → ν) (xs : List α) : OrdMap κ ν :=
  xs.foldl (fun m x => m.add (key x) (val x)) ∅

theorem tally_snoc (xs : List α) (x : α) :
    tally key val (xs ++ [x]) = (tally key val xs).add (key x) (val x) := by
  rw [tally, List.foldl_concat]
  rfl

theorem tally_perm (h : xs.Perm ys) : tally key val xs = tally key val ys :=
  h.foldl_eq' (fun _ _ _ _ _ => add_right_comm) ∅

theorem sum_on_tally (p : κ → Bool) :
    (tally key val xs).sumOn p = ((xs.filter fun x => p (key x)).map val).sum := by
  induction xs using List.reverseRecOn with
  | nil => rfl
  | append_singleton xs x ih =>
    rw [tally_snoc, sum_on_add, ih, List.filter_append, List.map_append, List.sum_append]
    cases hp : p (key x) <;> simp [hp]

theorem total_tally : (tally key val xs).total = (xs.map val).sum := by
  rw [total_eq_sum_on, sum_on_tally, List.filter_true]

end Tally

end OrdMap

/-- An edit of one cell moves a sum over the cells by what it adds to the cell. -/
theorem sum_modify [AddCommMonoid ν] {w : α → ν} {f : α → α} {cells : List α} {i : Nat} {x : α}
    {v : ν} (hx : cells[i]? = some x) (hf : w (f x) = w x + v) :
    ((cells.modify i f).map w).sum = (cells.map w).sum + v := by
  induction cells generalizing i with
  | nil => cases hx
  | cons y cells ih =>
    cases i with
    | zero =>
      obtain rfl : y = x := Option.some.inj hx
      rw [List.modify_zero_cons, List.map_cons, List.sum_cons, hf, List.map_cons, List.sum_cons,
        add_assoc, add_assoc, add_comm v]
    | succ i =>
      rw [List.modify_succ_cons, List.map_cons, List.sum_cons, ih hx, List.map_cons, List.sum_cons,
        add_assoc]

/-! ## The newest key -/

/-- A cell that keeps a state for the newest key it has seen. -/
structure Latest (κ S : Type*) where
  held : Option κ
  kept : S

namespace Latest

variable [LinearOrder κ] {zero : S} {feed : S → S} {s : Latest κ S} {k : κ} {p : κ → Bool}

/-- An item of an older key is dropped, one of a newer key starts the state anew. -/
def push (zero : S) (feed : S → S) (s : Latest κ S) (k : κ) : Latest κ S :=
  match s.held with
  | none => ⟨some k, feed zero⟩
  | some held =>
    if k < held then s
    else if held = k then { s with kept := feed s.kept }
    else ⟨some k, feed zero⟩

/-- The state, if its key satisfies a test. -/
def view (zero : S) (p : κ → Bool) (s : Latest κ S) : S :=
  if s.held.any p then s.kept else zero

/-- Where the test admits no key but the newest, the view takes exactly the items it admits. -/
theorem view_push (h : ∀ held, s.held = some held →
    (held < k → p held = false) ∧ (k < held → p k = false)) :
    (s.push zero feed k).view zero p = if p k then feed (s.view zero p) else s.view zero p := by
  unfold push
  cases hheld : s.held with
  | none => simp [view, hheld]
  | some held =>
    obtain ⟨holder, hnewer⟩ := h held hheld
    by_cases hlt : k < held
    · simp [hlt, hnewer hlt]
    · by_cases heq : held = k
      · subst heq
        cases hp : p held <;> simp [view, hheld, hp]
      · have hold : p held = false := holder (lt_of_le_of_ne (not_lt.mp hlt) heq)
        cases hp : p k <;> simp [view, hheld, hlt, heq, hp, hold]

theorem held_push {held : κ} (h : (s.push zero feed k).held = some held) :
    held = k ∨ s.held = some held := by
  unfold push at h
  split at h
  · exact Or.inl (Option.some.inj h).symm
  · rename_i old hold
    split_ifs at h with hlt heq
    · exact Or.inr h
    · exact Or.inr h
    · exact Or.inl (Option.some.inj h).symm

end Latest

end Lib
