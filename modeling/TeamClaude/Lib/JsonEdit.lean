import TeamClaude.Lib.JsonRead

/-!
# Editing objects held in a document

Fields are set and dropped on an object that a document holds under a key. The object is created
when it is missing, and dropped with the last of its fields.
-/

namespace Lib.Json.Value

variable {v w x y : Value} {key name : String} {path : List Step}
  {edits edits' : List (String × Option Value)} {held : Option Value}

/-! ## Deciding equality -/

mutual

def decEq : (v w : Value) → Decidable (v = w)
  | null, w => decidable_of_iff (w.leaf = .null) (by cases w <;> simp [leaf])
  | bool b, w => decidable_of_iff (w.leaf = .bool b) (by cases w <;> simp [leaf, eq_comm])
  | number n, w => decidable_of_iff (w.leaf = .number n) (by cases w <;> simp [leaf, eq_comm])
  | string s, w => decidable_of_iff (w.leaf = .string s) (by cases w <;> simp [leaf, eq_comm])
  | array elems, array elems' =>
    match decEqElems elems elems' with
    | isTrue h => isTrue (congrArg array h)
    | isFalse h => isFalse fun heq => h (array.inj heq)
  | array _, null | array _, bool _ | array _, number _ | array _, string _ | array _, object _ =>
    isFalse (by simp)
  | object fields, object fields' =>
    match decEqFields fields fields' with
    | isTrue h => isTrue (congrArg object h)
    | isFalse h => isFalse fun heq => h (object.inj heq)
  | object _, null | object _, bool _ | object _, number _ | object _, string _
  | object _, array _ => isFalse (by simp)

def decEqElems : (vs ws : List Value) → Decidable (vs = ws)
  | [], [] => isTrue rfl
  | [], _ :: _ | _ :: _, [] => isFalse (by simp)
  | v :: vs, w :: ws =>
    match decEq v w, decEqElems vs ws with
    | isTrue h, isTrue hs => isTrue (by rw [h, hs])
    | isFalse h, _ => isFalse fun heq => h (List.cons.inj heq).1
    | _, isFalse hs => isFalse fun heq => hs (List.cons.inj heq).2

def decEqFields : (vs ws : List (String × Value)) → Decidable (vs = ws)
  | [], [] => isTrue rfl
  | [], _ :: _ | _ :: _, [] => isFalse (by simp)
  | (name, v) :: vs, (name', w) :: ws =>
    match decEq v w, decEqFields vs ws with
    | isTrue h, isTrue hs =>
      if hname : name = name' then isTrue (by rw [hname, h, hs])
      else isFalse fun heq => hname (Prod.mk.inj (List.cons.inj heq).1).1
    | isFalse h, _ => isFalse fun heq => h (Prod.mk.inj (List.cons.inj heq).1).2
    | _, isFalse hs => isFalse fun heq => hs (List.cons.inj heq).2

end

instance : DecidableEq Value :=
  decEq

/-! ## Setting several fields -/

def setFields (v : Value) (edits : List (String × Option Value)) : Value :=
  edits.foldl (fun v edit => v.setField edit.1 edit.2) v

/-- What a field holds after the edits: the last one of it counts. -/
def overlay (edits : List (String × Option Value)) (name : String) (held : Option Value) :
    Option Value :=
  edits.foldl (fun held edit => if name = edit.1 then edit.2 else held) held

@[simp] theorem is_object_set_fields (v : Value) (edits : List (String × Option Value)) :
    (v.setFields edits).isObject = v.isObject := by
  induction edits generalizing v with
  | nil => rfl
  | cons edit edits ih => exact (ih _).trans (is_object_set_field v edit.1 edit.2)

theorem get_set_fields (hv : v.isObject = true) (edits : List (String × Option Value))
    (name : String) : (v.setFields edits).get name = overlay edits name (v.get name) := by
  induction edits generalizing v with
  | nil => rfl
  | cons edit edits ih =>
    have hset : (v.setField edit.1 edit.2).isObject = true := by rwa [is_object_set_field]
    exact (ih hset).trans (congrArg _ (get_set_field hv edit.1 edit.2 name))

/-- A field none of the edits names is what it was. -/
theorem overlay_of_not_mem (h : name ∉ edits.map Prod.fst) : overlay edits name held = held := by
  induction edits generalizing held with
  | nil => rfl
  | cons edit edits ih =>
    rw [List.map_cons, List.mem_cons, not_or] at h
    show overlay edits name (if name = edit.1 then edit.2 else held) = held
    rw [if_neg h.1, ih h.2]

/-- Edits of different fields may be exchanged. -/
theorem overlay_comm (h : List.Disjoint (edits.map Prod.fst) (edits'.map Prod.fst)) :
    overlay edits' name (overlay edits name held) = overlay edits name (overlay edits' name held) := by
  by_cases hname : name ∈ edits.map Prod.fst
  · have hother : name ∉ edits'.map Prod.fst := fun hmem => h hname hmem
    rw [overlay_of_not_mem hother, overlay_of_not_mem hother]
  · rw [overlay_of_not_mem hname, overlay_of_not_mem hname]

theorem same_set_fields_comm (hv : v.isObject = true)
    (h : List.Disjoint (edits.map Prod.fst) (edits'.map Prod.fst)) :
    Same ((v.setFields edits).setFields edits') ((v.setFields edits').setFields edits) := by
  have hset : ∀ edits, (v.setFields edits).isObject = true := fun edits => by
    rwa [is_object_set_fields]
  refine same_object (by simpa using hv) (by simpa using hv) fun name => ?_
  rw [get_set_fields (hset edits), get_set_fields (hset edits'), get_set_fields hv,
    get_set_fields hv, overlay_comm h]

/-- A path that starts with none of the fields reads as it did. -/
theorem read_set_fields (hv : v.isObject = true)
    (hpath : ∀ name ∈ edits.map Prod.fst, ¬ [Step.key name] <+: path) :
    (v.setFields edits).read path = v.read path := by
  induction edits generalizing v with
  | nil => rfl
  | cons edit edits ih =>
    rw [List.map_cons, List.forall_mem_cons] at hpath
    have hset : (v.setField edit.1 edit.2).isObject = true := by rwa [is_object_set_field]
    exact (ih hset hpath.2).trans (read_set_field hv edit.2 hpath.1)

/-! ## An object that comes and goes with its fields -/

/-- The object that is held, or a new one in the place of anything else. -/
def objectOr : Option Value → Value
  | some (object fields) => object fields
  | _ => object []

/-- An object without fields is dropped. -/
def dropEmpty : Value → Option Value
  | object [] => none
  | v => some v

@[simp] theorem is_object_object_or (held : Option Value) : (objectOr held).isObject = true := by
  unfold objectOr
  split <;> rfl

theorem get_object_or (held : Option Value) (name : String) :
    (objectOr held).get name = held.bind (·.get name) := by
  unfold objectOr
  split
  · rfl
  · rename_i hnot
    match held with
    | none => rfl
    | some (object fields) => exact absurd rfl (hnot fields)
    | some null | some (bool _) | some (number _) | some (string _) | some (array _) => rfl

theorem object_or_drop_empty (hv : v.isObject = true) : objectOr (dropEmpty v) = v := by
  unfold dropEmpty
  split
  · rfl
  · cases v with
    | object fields => rfl
    | _ => cases hv

theorem drop_empty_none (hv : v.isObject = true) :
    dropEmpty v = none ↔ ∀ name, v.get name = none := by
  cases v with
  | object fields =>
    cases fields with
    | nil => exact iff_of_true rfl fun _ => rfl
    | cons field fields =>
      refine iff_of_false (by simp [dropEmpty]) fun h => ?_
      have hfirst := h field.1
      simp [get] at hfirst
  | _ => cases hv

theorem drop_empty_some (h : dropEmpty v = some x) : x = v ∧ (v.isObject = true →
    ∃ name, (v.get name).isSome = true) := by
  have hself : x = v := by
    unfold dropEmpty at h
    split at h
    · cases h
    · exact (Option.some.inj h).symm
  refine ⟨hself, fun hv => ?_⟩
  by_contra hnone
  have hempty : dropEmpty v = none := by
    refine (drop_empty_none hv).mpr fun name => ?_
    by_contra hsome
    exact hnone ⟨name, Option.isSome_iff_ne_none.mpr hsome⟩
  rw [hempty] at h
  cases h

theorem Same.drop_empty (h : Same v w) (hv : v.isObject = true) (hw : w.isObject = true) :
    (dropEmpty v).map read = (dropEmpty w).map read := by
  have hnone : dropEmpty v = none ↔ dropEmpty w = none := by
    rw [drop_empty_none hv, drop_empty_none hw]
    refine forall_congr' fun name => ?_
    rw [← Option.map_eq_none_iff, h.get name, Option.map_eq_none_iff]
  cases hx : dropEmpty v with
  | none => rw [hnone.mp hx]
  | some x =>
    cases hy : dropEmpty w with
    | none => rw [hnone.mpr hy] at hx; cases hx
    | some y =>
      obtain rfl := (drop_empty_some hx).1
      obtain rfl := (drop_empty_some hy).1
      exact congrArg some h

/-- Below its root, an object that is dropped when empty reads as it does itself. -/
theorem read_drop_empty (hv : v.isObject = true) (step : Step) :
    ((dropEmpty v).map read).bind (· (step :: path)) = v.read (step :: path) := by
  have hread : ((objectOr (dropEmpty v)).read (step :: path)) = v.read (step :: path) := by
    rw [object_or_drop_empty hv]
  cases hx : dropEmpty v with
  | none =>
    rw [hx] at hread
    rw [← hread]
    cases step <;> rfl
  | some x => rw [(drop_empty_some hx).1]; rfl

/-- So does one that is created when it is missing. -/
theorem read_object_or (hheld : ∀ x, held = some x → x.isObject = true) (step : Step) :
    (held.map read).bind (· (step :: path)) = (objectOr held).read (step :: path) := by
  cases held with
  | none => cases step <;> rfl
  | some x =>
    have hx := hheld x rfl
    cases x with
    | object fields => rfl
    | _ => cases hx

end Lib.Json.Value
