import Mathlib.Data.List.Nodup

/-!
# Restoring distinct keys

A list whose keys repeat is edited at some places, so that each key stays at one place of its own
and the other places get new ones. A reference names a key and stands for the first place that has
it.
-/

namespace Lib

variable {α β γ δ : Type*}

/-- Elements changed one after another, each at its place. -/
def editAll (edit : β → α → α) (l : List α) (edits : List (Nat × β)) : List α :=
  edits.foldl (fun l e => l.modify e.1 (edit e.2)) l

section EditAll

variable {edit : β → α → α} {l : List α} {edits : List (Nat × β)} {i : Nat} {b : β}

theorem edit_all_cons (e : Nat × β) :
    editAll edit l (e :: edits) = editAll edit (l.modify e.1 (edit e.2)) edits :=
  rfl

@[simp] theorem length_edit_all : (editAll edit l edits).length = l.length := by
  induction edits generalizing l with
  | nil => rfl
  | cons e edits ih => rw [edit_all_cons, ih, List.length_modify]

/-- A place without an edit is left alone. -/
theorem get_edit_all_of_not_mem (h : i ∉ edits.map Prod.fst) :
    (editAll edit l edits)[i]? = l[i]? := by
  induction edits generalizing l with
  | nil => rfl
  | cons e edits ih =>
    rw [List.map_cons, List.mem_cons, not_or] at h
    rw [edit_all_cons, ih h.2, List.getElem?_modify_ne _ _ (Ne.symm h.1)]

theorem get_edit_all_of_mem (hplaces : (edits.map Prod.fst).Nodup) (h : (i, b) ∈ edits) :
    (editAll edit l edits)[i]? = l[i]?.map (edit b) := by
  induction edits generalizing l with
  | nil => cases h
  | cons e edits ih =>
    rw [List.map_cons, List.nodup_cons] at hplaces
    rw [edit_all_cons]
    rcases List.mem_cons.mp h with rfl | h
    · rw [get_edit_all_of_not_mem hplaces.1, List.getElem?_modify_eq]
      rfl
    · have hne : e.1 ≠ i := by
        rintro rfl
        exact hplaces.1 (List.mem_map.mpr ⟨_, h, rfl⟩)
      rw [ih hplaces.2 h, List.getElem?_modify_ne _ _ hne]

/-- What is read off the elements is edited along. -/
theorem map_edit_all {f : α → γ} {g : β → δ} {edit' : δ → γ → γ}
    (h : ∀ b x, f (edit b x) = edit' (g b) (f x)) :
    (editAll edit l edits).map f =
      editAll edit' (l.map f) (edits.map fun e => (e.1, g e.2)) := by
  induction edits generalizing l with
  | nil => rfl
  | cons e edits ih =>
    rw [edit_all_cons, ih, List.map_cons, edit_all_cons]
    congr 1
    refine List.ext_getElem? fun j => ?_
    rw [List.getElem?_map, List.getElem?_modify, List.getElem?_modify, List.getElem?_map]
    cases l[j]? with
    | none => split <;> rfl
    | some x =>
      split
      · exact congrArg some (h e.2 x)
      · rfl

end EditAll

/-! ## Freshening -/

/-- Keys put at their places, in place of what was there. -/
def setAll (l : List α) (edits : List (Nat × α)) : List α :=
  editAll (fun b _ => b) l edits

/-- Each key is left at exactly one place, and what comes to the others is new. -/
structure Freshens (l : List α) (edits : List (Nat × α)) : Prop where
  places : (edits.map Prod.fst).Nodup
  values : (edits.map Prod.snd).Nodup
  fresh : ∀ x ∈ edits.map Prod.snd, x ∉ l
  within : ∀ i ∈ edits.map Prod.fst, i < l.length
  keeper : ∀ x ∈ l, ∃! i : Nat, l[i]? = some x ∧ i ∉ edits.map Prod.fst

namespace Freshens

variable {l : List α} {edits : List (Nat × α)} {i j : Nat} {x y : α}

theorem get_of_not_mem (hi : i ∉ edits.map Prod.fst) : (setAll l edits)[i]? = l[i]? :=
  get_edit_all_of_not_mem hi

theorem get_of_mem (h : Freshens l edits) (hi : (i, y) ∈ edits) :
    (setAll l edits)[i]? = some y := by
  have hlt : i < l.length := h.within i (List.mem_map.mpr ⟨_, hi, rfl⟩)
  rw [setAll, get_edit_all_of_mem h.places hi, List.getElem?_eq_getElem hlt]
  rfl

/-- A place holds what it held and has no edit, or it holds what its edit put there. -/
theorem get_cases (h : Freshens l edits) (hx : (setAll l edits)[i]? = some x) :
    (i ∉ edits.map Prod.fst ∧ l[i]? = some x) ∨ (i, x) ∈ edits := by
  by_cases hi : i ∈ edits.map Prod.fst
  · obtain ⟨⟨i, y⟩, he, rfl⟩ := List.mem_map.mp hi
    rw [h.get_of_mem he] at hx
    exact .inr (Option.some.inj hx ▸ he)
  · rw [get_of_not_mem hi] at hx
    exact .inl ⟨hi, hx⟩

theorem value_not_mem (h : Freshens l edits) (hi : (i, y) ∈ edits) : y ∉ l :=
  h.fresh y (List.mem_map.mpr ⟨_, hi, rfl⟩)

/-- A key is put at one place only. -/
theorem place_of_value (h : Freshens l edits) (hi : (i, y) ∈ edits) (hj : (j, y) ∈ edits) :
    i = j :=
  congrArg Prod.fst (List.inj_on_of_nodup_map h.values hi hj rfl)

theorem nodup (h : Freshens l edits) : (setAll l edits).Nodup := by
  rw [List.nodup_iff_getElem?_ne_getElem?]
  intro i j hij hj heq
  have hlt : i < (setAll l edits).length := Nat.lt_trans hij hj
  have hi := List.getElem?_eq_getElem hlt
  rw [hi] at heq
  refine Nat.ne_of_lt hij ?_
  rcases h.get_cases hi with ⟨hnot, hx⟩ | hx
  · rcases h.get_cases heq.symm with ⟨hnot', hx'⟩ | hx'
    · exact (h.keeper _ (List.mem_of_getElem? hx)).unique ⟨hx, hnot⟩ ⟨hx', hnot'⟩
    · exact absurd (List.mem_of_getElem? hx) (h.value_not_mem hx')
  · rcases h.get_cases heq.symm with ⟨-, hx'⟩ | hx'
    · exact absurd (List.mem_of_getElem? hx') (h.value_not_mem hx)
    · exact h.place_of_value hx hx'

/-- Only a key that is elsewhere too is taken from a place. -/
theorem only_repeated (h : Freshens l edits) (hx : l[i]? = some x)
    (hne : (setAll l edits)[i]? ≠ some x) : ∃ j, j ≠ i ∧ l[j]? = some x := by
  obtain ⟨j, ⟨hj, hnot⟩, -⟩ := h.keeper x (List.mem_of_getElem? hx)
  refine ⟨j, ?_, hj⟩
  rintro rfl
  exact hne ((get_of_not_mem hnot).trans hx)

/-- Each key stays at exactly one of its places. -/
theorem one_keeps (h : Freshens l edits) (hx : x ∈ l) :
    ∃! i : Nat, l[i]? = some x ∧ (setAll l edits)[i]? = some x := by
  obtain ⟨i, ⟨hi, hnot⟩, hunique⟩ := h.keeper x hx
  refine ⟨i, ⟨hi, (get_of_not_mem hnot).trans hi⟩, fun j hj => ?_⟩
  rcases h.get_cases hj.2 with ⟨hnot', hj'⟩ | hj'
  · exact hunique j ⟨hj', hnot'⟩
  · exact absurd hx (h.value_not_mem hj')

end Freshens

/-! ## References -/

def firstPlace [DecidableEq α] (l : List α) (x : α) : Option Nat :=
  l.findIdx? (· = x)

section Reference

variable [DecidableEq α] {l : List α} {edits : List (Nat × α)} {i : Nat} {x y : α}

theorem first_place_none : firstPlace l x = none ↔ x ∉ l := by
  rw [firstPlace, List.findIdx?_eq_none_iff]
  constructor
  · intro h hx
    have hfalse := h x hx
    rw [decide_eq_true rfl] at hfalse
    cases hfalse
  · intro h y hy
    exact decide_eq_false fun heq => h (heq ▸ hy)

theorem get_first_place (h : firstPlace l x = some i) : l[i]? = some x := by
  obtain ⟨hlt, hx, -⟩ := List.findIdx?_eq_some_iff_getElem.mp h
  rw [List.getElem?_eq_getElem hlt, of_decide_eq_true hx]

theorem first_place_nodup (hl : l.Nodup) : firstPlace l x = some i ↔ l[i]? = some x := by
  refine ⟨get_first_place, fun hx => ?_⟩
  cases hfirst : firstPlace l x with
  | none => exact absurd (List.mem_of_getElem? hx) (first_place_none.mp hfirst)
  | some j =>
    obtain ⟨hi, hix⟩ := List.getElem?_eq_some_iff.mp hx
    obtain ⟨hj, hjx⟩ := List.getElem?_eq_some_iff.mp (get_first_place hfirst)
    exact congrArg some (hl.getElem_inj_iff.mp (hjx.trans hix.symm))

/-- The reference after the edits: it follows the one at its place. -/
def followed (l : List α) (edits : List (Nat × α)) (x : α) : α :=
  match (firstPlace l x).bind fun i => edits.find? fun e => e.1 = i with
  | some e => e.2
  | none => x

/-- A reference stands for the same place before and after unless it stood for none and what it
names is put somewhere. -/
theorem Freshens.follows (h : Freshens l edits) :
    firstPlace (setAll l edits) (followed l edits x) = firstPlace l x ↔
      x ∈ l ∨ x ∉ edits.map Prod.snd := by
  unfold followed
  cases hfirst : firstPlace l x with
  | none =>
    have hx := first_place_none.mp hfirst
    rw [Option.bind_none, first_place_none]
    constructor
    · intro hnot
      refine .inr fun hmem => ?_
      obtain ⟨⟨i, y⟩, he, rfl⟩ := List.mem_map.mp hmem
      exact hnot (List.mem_of_getElem? (h.get_of_mem he))
    · intro hor hmem
      have hnot := hor.resolve_left hx
      obtain ⟨i, hi⟩ := List.mem_iff_getElem?.mp hmem
      rcases h.get_cases hi with ⟨-, hi⟩ | hi
      · exact hx (List.mem_of_getElem? hi)
      · exact hnot (List.mem_map.mpr ⟨_, hi, rfl⟩)
  | some i =>
    have hi := get_first_place hfirst
    refine iff_of_true ?_ (.inl (List.mem_of_getElem? hi))
    rw [Option.bind_some]
    cases hfind : edits.find? fun e => e.1 = i with
    | none =>
      have hnot : i ∉ edits.map Prod.fst := by
        intro hmem
        obtain ⟨e, he, heq⟩ := List.mem_map.mp hmem
        exact List.find?_eq_none.mp hfind e he (decide_eq_true heq)
      exact (first_place_nodup h.nodup).mpr ((get_of_not_mem hnot).trans hi)
    | some e =>
      have he := List.mem_of_find?_eq_some hfind
      have heq : e.1 = i := by simpa using List.find?_some hfind
      subst heq
      exact (first_place_nodup h.nodup).mpr (h.get_of_mem he)

end Reference

end Lib
