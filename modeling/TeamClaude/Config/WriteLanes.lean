import TeamClaude.Config.TargetedWrites

/-!
# The lanes of the targeted writes

Each write stays with the fields of its place, and writes of different fields may be exchanged. The
document a write leaves resolves every other write as before, for no identity field is touched.
-/

namespace TeamClaude

open Lib.Json

/-! ## What is asked of a write -/

/-- What `load` asks of the settings of groups: it reads them as a map of objects. -/
structure LoadsSettings (doc : Value) : Prop where
  settings : ∀ x, doc.get "groupSettings" = some x → x.isObject = true
  groups : ∀ x group y, doc.get "groupSettings" = some x → x.get group = some y →
    y.isObject = true

def Place.steps : Place → List Step
  | .entry index => [.key "accounts", .index index]
  | .group name => [.key "groupSettings", .key name]
  | .top => []

/-- The objects that come and go with a group's settings. -/
def Place.containers : Place → List (List Step)
  | .group name => [[.key "groupSettings"], [.key "groupSettings", .key name]]
  | _ => []

namespace ConfigWrite

/-- The paths to the fields of a write; a refused write has none. -/
def lanes (w : ConfigWrite) (doc : Value) : List (List Step) :=
  match w.place doc with
  | .error _ => []
  | .ok place => w.keys.map fun key => place.steps ++ [.key key]

def containers (w : ConfigWrite) (doc : Value) : List (List Step) :=
  match w.place doc with
  | .error _ => []
  | .ok place => place.containers

/-- A write changes its fields and the containers of them, leaves no container empty, changes
nothing unless it answers so, and finds what it wrote. -/
structure StaysInLane (w : ConfigWrite) (doc : Value) : Prop where
  frame : ∀ path, (∀ lane ∈ w.lanes doc, ¬ lane <+: path) → path ∉ w.containers doc →
    (w.run doc).1.read path = doc.read path
  emptied : (w.run doc).2 = .updated → ∀ path ∈ w.containers doc,
    ((w.run doc).1.read path).isSome = true →
      ∃ key, ((w.run doc).1.read (path ++ [.key key])).isSome = true
  kept : (w.run doc).2 ≠ .updated → (w.run doc).1 = doc
  again : (w.run doc).2 = .updated ∨ (w.run doc).2 = .unchanged →
    (w.run (w.run doc).1).2 = .unchanged
  refused : (w.run doc).2 = .noEntry ∨ (w.run doc).2 = .ambiguous →
    (w.run (w.run doc).1).2 = (w.run doc).2

/-- The writes resolve to different places, or have no key in common. -/
def Apart (w w' : ConfigWrite) (doc : Value) : Prop :=
  ∀ place place', w.place doc = .ok place → w'.place doc = .ok place' →
    place ≠ place' ∨ List.Disjoint w.keys w'.keys

end ConfigWrite

/-! ## The fields a write sets -/

section Edits

variable {w : ConfigWrite} {held held' : String → Option Value}

open ConfigWrite

theorem plan_edit_name {field : String × Option String} {edit : String × Option Value}
    (h : planEdit held field = some edit) : edit.1 = field.1 := by
  obtain ⟨value, -, hrest⟩ := Option.bind_eq_some_iff.mp h
  split at hrest
  · cases hrest
  · rw [← Option.some.inj hrest]

theorem edits_names : ∀ name ∈ (w.edits held).map Prod.fst, name ∈ w.keys := by
  have hset : ∀ read key desired, ∀ name ∈ (setUnless read key desired held).map Prod.fst,
      name ∈ [key] := by
    intro read key desired name hname
    unfold setUnless at hname
    split at hname
    · cases hname
    · exact hname
  cases w with
  | plan target o r s =>
    intro name hname
    obtain ⟨edit, hedit, rfl⟩ := List.mem_map.mp hname
    obtain ⟨field, hfield, heq⟩ := List.mem_filterMap.mp hedit
    obtain ⟨value, hvalue, -⟩ := Option.bind_eq_some_iff.mp heq
    rw [plan_edit_name heq]
    exact List.mem_map.mpr ⟨field, List.mem_filter.mpr ⟨hfield, by rw [hvalue]; rfl⟩, rfl⟩
  | membership target group member =>
    intro name hname
    simp only [edits, groupsEdit] at hname
    split at hname
    · cases hname
    · exact hname
  | control target => cases target <;> exact hset _ _ _
  | _ => exact hset _ _ _

/-- What a write sets depends on what its own keys hold. -/
theorem edits_congr (h : ∀ key ∈ w.keys, held' key = held key) : w.edits held' = w.edits held := by
  have hset : ∀ read key desired, held' key = held key →
      setUnless read key desired held' = setUnless read key desired held := by
    intro read key desired hkey
    unfold setUnless
    rw [hkey]
  cases w with
  | plan target o r s =>
    refine List.filterMap_congr fun field hfield => ?_
    unfold planEdit
    cases hvalue : field.2 with
    | none => rfl
    | some value =>
      have hkey : field.1 ∈ (ConfigWrite.plan target o r s).keys :=
        List.mem_map.mpr ⟨field, List.mem_filter.mpr ⟨hfield, by rw [hvalue]; rfl⟩, rfl⟩
      rw [h _ hkey]
  | membership target group member =>
    simp only [edits, groupsEdit]
    rw [h "groups" (by simp [keys])]
  | control target => cases target <;> exact hset _ _ _ (h _ (by simp [keys]))
  | _ => exact hset _ _ _ (h _ (by simp [keys]))

theorem groups_held_field (groups : List String) : groupsHeld (groupsField groups) = groups := by
  unfold groupsField
  cases groups with
  | nil => rfl
  | cons group groups =>
    simp [groupsHeld, Value.asArray, List.filterMap_map, Function.comp_def, Value.asStr]

theorem regroup_mem (groups : List String) (group : String) (member : Bool) :
    member = decide (group ∈ regroup groups group member) := by
  cases member <;> simp [regroup]

theorem overlay_plan {fields : List (String × Option String)}
    (hfields : (fields.map Prod.fst).Nodup) {field : String × Option String} (hfield : field ∈ fields)
    {value : String} (hvalue : field.2 = some value) :
    Value.overlay (fields.filterMap (planEdit held)) field.1 (held field.1) =
      some (.string value) := by
  induction fields with
  | nil => cases hfield
  | cons first fields ih =>
    rw [List.map_cons, List.nodup_cons] at hfields
    have hnames : ∀ name ∈ (fields.filterMap (planEdit held)).map Prod.fst,
        name ∈ fields.map Prod.fst := by
      intro name hname
      obtain ⟨edit, hedit, rfl⟩ := List.mem_map.mp hname
      obtain ⟨other, hother, heq⟩ := List.mem_filterMap.mp hedit
      exact List.mem_map.mpr ⟨other, hother, (plan_edit_name heq).symm⟩
    rcases List.mem_cons.mp hfield with rfl | hrest
    · have hnot : field.1 ∉ (fields.filterMap (planEdit held)).map Prod.fst :=
        fun hmem => hfields.1 (hnames _ hmem)
      by_cases hheld : held field.1 = some (.string value)
      · have hnone : planEdit held field = none := by simp [planEdit, hvalue, hheld]
        rw [List.filterMap_cons_none hnone, Value.overlay_of_not_mem hnot, hheld]
      · have hsome : planEdit held field = some (field.1, some (.string value)) := by
          simp [planEdit, hvalue, hheld]
        rw [List.filterMap_cons_some hsome]
        show Value.overlay _ field.1 (if field.1 = field.1 then some (.string value) else _) = _
        rw [if_pos rfl, Value.overlay_of_not_mem hnot]
    · have hne : field.1 ≠ first.1 := fun heq =>
        hfields.1 (heq ▸ List.mem_map.mpr ⟨field, hrest, rfl⟩)
      cases hplan : planEdit held first with
      | none =>
        rw [List.filterMap_cons_none hplan]
        exact ih hfields.2 hrest
      | some edit =>
        rw [List.filterMap_cons_some hplan]
        show Value.overlay _ field.1 (if field.1 = edit.1 then edit.2 else _) = _
        rw [if_neg (plan_edit_name hplan ▸ hne)]
        exact ih hfields.2 hrest

/-- What was set is found, so nothing is set again. -/
theorem edits_again : w.edits (fun key => Value.overlay (w.edits held) key (held key)) = [] := by
  have hset : ∀ (read : Option Value → Option Value) key desired, read desired = desired →
      setUnless read key desired
        (fun name => Value.overlay (setUnless read key desired held) name (held name)) = [] := by
    intro read key desired hread
    unfold setUnless
    split
    · rename_i hheld
      exact if_pos hheld
    · refine if_pos ?_
      simpa [Value.overlay] using hread
  have hflag : ∀ set key, GroupKey.current key (flag set) = flag set ∨ key = .color := by
    rintro set (_ | _ | _ | _) <;> cases set <;> simp [flag, GroupKey.current, Value.asBool]
  cases w with
  | disabled target value => exact hset _ _ _ rfl
  | plan target o r s =>
    refine List.filterMap_eq_nil_iff.mpr fun field hfield => ?_
    unfold planEdit
    cases hvalue : field.2 with
    | none => rfl
    | some value =>
      refine if_pos ?_
      exact overlay_plan (by simp [planFields]) hfield hvalue
  | membership target group member =>
    simp only [edits, groupsEdit]
    split
    · rename_i halready
      exact if_pos halready
    · refine if_pos ?_
      simpa [Value.overlay, groups_held_field] using
        regroup_mem (groupsHeld (held "groups")) group member
  | groupReserved group set => exact hset _ _ _ ((hflag set .reserved).resolve_right (by simp))
  | groupParked group set => exact hset _ _ _ ((hflag set .parked).resolve_right (by simp))
  | groupAllowControl group set =>
    exact hset _ _ _ ((hflag set .allowControl).resolve_right (by simp))
  | groupColor group color => exact hset _ _ _ (by cases color <;> rfl)
  | control target => cases target <;> exact hset _ _ _ rfl

end Edits

/-! ## The place after a write -/

section Places

variable {doc : Value} {place place' : Place} {w w' : ConfigWrite}
  {edits edits' : List (String × Option Value)} {key name : String}

/-- The place is there: an entry of the list that is an object. -/
def Place.Stands (place : Place) (doc : Value) : Prop :=
  match place with
  | .entry index => ∃ entries entry, doc.get "accounts" = some (.array entries) ∧
      entries[index]? = some entry ∧ entry.isObject = true
  | _ => True

theorem is_object_edit (hdoc : doc.isObject = true) : (place.edit edits doc).isObject = true := by
  rwa [Place.edit, Value.is_object_set_field]

theorem get_edit (hdoc : doc.isObject = true) : (place.edit edits doc).get name =
    if name = place.topKey then place.rewrite edits (doc.get place.topKey) else doc.get name :=
  Value.get_set_field hdoc _ _ _

theorem held_in_group (held : Option Value) : (Place.group name).heldIn held key =
    (Value.objectOr ((Value.objectOr held).get name)).get key := by
  rw [Value.get_object_or, Value.get_object_or]
  rfl

/-- The settings once those of a group are edited. -/
theorem settings_rewrite (held : Option Value) :
    Value.objectOr ((Place.group name).rewrite edits held) = (Value.objectOr held).setField name
      (Value.dropEmpty ((Value.objectOr ((Value.objectOr held).get name)).setFields edits)) :=
  Value.object_or_drop_empty (by simp)

theorem held_edit (hdoc : doc.isObject = true) (hplace : place.Stands doc)
    (htop : place = .top → key = "controlAccount") :
    place.held (place.edit edits doc) key = Value.overlay edits key (place.held doc key) := by
  unfold Place.held
  rw [get_edit hdoc, if_pos rfl]
  cases place with
  | entry index =>
    obtain ⟨entries, entry, hget, hentry, hobject⟩ := hplace
    simp only [Place.topKey, hget, Place.heldIn, Place.rewrite, Option.map_some, Option.bind_some,
      Value.asArray, List.getElem?_modify, hentry, Option.map_eq_map, if_pos]
    exact Value.get_set_fields hobject edits key
  | group name =>
    rw [held_in_group, held_in_group, settings_rewrite, Value.get_set_field (by simp), if_pos rfl,
      Value.object_or_drop_empty (by simp), Value.get_set_fields (by simp)]
  | top => rw [htop rfl]; rfl

/-- An edit of one place is not seen at another. -/
theorem held_edit_other (hdoc : doc.isObject = true) (hne : place ≠ place') :
    place'.held (place.edit edits doc) key = place'.held doc key := by
  unfold Place.held
  rw [get_edit hdoc]
  by_cases htop : place'.topKey = place.topKey
  · rw [if_pos htop, htop]
    cases place with
    | entry index =>
      cases place' with
      | entry index' =>
        have hindex : index ≠ index' := fun h => hne (h ▸ rfl)
        simp only [Place.topKey]
        cases doc.get "accounts" with
        | none => rfl
        | some x =>
          cases x with
          | array entries => simp [Place.heldIn, Place.rewrite, Value.asArray, hindex]
          | _ => rfl
      | _ => simp [Place.topKey] at htop
    | group name =>
      cases place' with
      | group name' =>
        have hname : name' ≠ name := fun h => hne (h ▸ rfl)
        rw [held_in_group, held_in_group, settings_rewrite, Value.get_set_field (by simp),
          if_neg hname]
      | _ => simp [Place.topKey] at htop
    | top =>
      cases place' with
      | top => exact absurd rfl hne
      | _ => simp [Place.topKey] at htop
  · rw [if_neg htop]

/-- What an account resolves to depends on the identities of the entries. -/
theorem locate_congr {file file' : List Value} {target : Account}
    (h : file'.map probeOfEntry = file.map probeOfEntry) :
    locateAccountEntry file' target = locateAccountEntry file target := by
  have hprobes : ∀ file : List Value, locateAccountEntry file target =
      resolveAmong ((file.map probeOfEntry).zipIdx.filterMap fun c =>
        c.1.toOption.map fun found => (c.2, found)) target := by
    intro file
    rw [List.zipIdx_map, List.filterMap_map]
    rfl
  rw [hprobes, hprobes, h]

/-- The identities of the entries stay, and with them what every account resolves to. -/
theorem locate_edit (hdoc : doc.isObject = true) (hplace : place.Stands doc)
    (hnames : ∀ name ∈ edits.map Prod.fst, name ∉ identityKeys) (target : Account) :
    locateIn (place.edit edits doc) target = locateIn doc target := by
  unfold locateIn entriesOf
  rw [get_edit hdoc]
  cases place with
  | entry index =>
    obtain ⟨entries, entry, hget, hentry, hobject⟩ := hplace
    simp only [Place.topKey, if_pos, hget, Place.rewrite, Option.map_some, Option.bind_some,
      Value.asArray]
    refine locate_congr (List.ext_getElem? fun i => ?_)
    rw [List.getElem?_map, List.getElem?_map, List.getElem?_modify]
    by_cases hi : index = i
    · subst hi
      have hagree : AgreeOn identityKeys entry (entry.setFields edits) := by
        refine ⟨Value.is_object_set_fields entry edits, fun key hkey => ?_⟩
        rw [Value.get_set_fields hobject]
        exact Value.overlay_of_not_mem fun hmem => hnames key hmem hkey
      simp [hentry, probe_of_entry_congr hagree]
    · simp [hi]
  | group name => rw [if_neg (by simp [Place.topKey])]
  | top => rw [if_neg (by simp [Place.topKey])]

def entryPlace (doc : Value) (target : Account) : Except TargetedWrite Place :=
  match findAccountEntry doc target with
  | .error refusal => .error refusal.outcome
  | .ok (index, _) => .ok (.entry index)

/-- An entry that is located is an object, and found. -/
theorem entry_place (target : Account) :
    entryPlace doc target =
      match locateIn doc target with
      | .none => .error .noEntry
      | .many => .error .ambiguous
      | .one index => .ok (.entry index) := by
  unfold entryPlace findAccountEntry
  cases hloc : locateIn doc target with
  | none => rfl
  | many => rfl
  | one index =>
    rw [locate_in_eq] at hloc
    obtain ⟨entry, found, hentry, hok, -⟩ := located hloc
    have hheld : (entriesOf doc).bind (·[index]?) = some entry := by
      cases hentries : entriesOf doc with
      | none => rw [hentries] at hentry; cases hentry
      | some entries => rw [hentries] at hentry; exact hentry
    have hobject := (probe_ok_iff.mp hok).1
    cases entry with
    | object fields => simp only [hheld]
    | _ => cases hobject

/-- A write is for one account's entry, for one group's settings, or for the control account. -/
theorem place_kinds (w : ConfigWrite) :
    (∃ target, ∀ doc, w.place doc = entryPlace doc target) ∨
      (∃ group, ∀ doc, w.place doc = .ok (.group group)) ∨
      (w.keys = ["controlAccount"] ∧ ∃ account : Option Account, ∀ doc, w.place doc =
        if account.any (fun account => decide (locateIn doc account = .many)) then
          .error .ambiguous else .ok .top) := by
  cases w with
  | disabled target _ => exact .inl ⟨target, fun _ => rfl⟩
  | plan target _ _ _ => exact .inl ⟨target, fun _ => rfl⟩
  | membership target _ _ => exact .inl ⟨target, fun _ => rfl⟩
  | control target =>
    refine .inr (.inr ⟨rfl, target, fun doc => ?_⟩)
    cases target with
    | none => rfl
    | some account => simp [ConfigWrite.place]
  | groupReserved group _ => exact .inr (.inl ⟨group, fun _ => rfl⟩)
  | groupParked group _ => exact .inr (.inl ⟨group, fun _ => rfl⟩)
  | groupAllowControl group _ => exact .inr (.inl ⟨group, fun _ => rfl⟩)
  | groupColor group _ => exact .inr (.inl ⟨group, fun _ => rfl⟩)

theorem place_congr {doc' : Value} (h : ∀ target, locateIn doc' target = locateIn doc target)
    (w : ConfigWrite) : w.place doc' = w.place doc := by
  rcases place_kinds w with ⟨target, hplace⟩ | ⟨group, hplace⟩ | ⟨-, account, hplace⟩
  · rw [hplace, hplace, entry_place, entry_place, h]
  · rw [hplace, hplace]
  · rw [hplace, hplace]
    simp only [h]

theorem place_stands (h : w.place doc = .ok place) : place.Stands doc := by
  rcases place_kinds w with ⟨target, hplace⟩ | ⟨group, hplace⟩ | ⟨-, account, hplace⟩
  · rw [hplace, entryPlace] at h
    split at h
    · cases h
    · rename_i index entry hfound
      obtain rfl := Except.ok.inj h
      obtain ⟨-, hobject, entries, hget, hentry⟩ := found_entry hfound
      exact ⟨entries, entry, hget, hentry, hobject⟩
  · obtain rfl := Except.ok.inj ((hplace doc).symm.trans h)
    trivial
  · rw [hplace] at h
    split at h
    · cases h
    · obtain rfl := Except.ok.inj h
      trivial

theorem keys_of_top (h : w.place doc = .ok .top) : w.keys = ["controlAccount"] := by
  rcases place_kinds w with ⟨target, hplace⟩ | ⟨group, hplace⟩ | ⟨hkeys, -⟩
  · rw [hplace, entryPlace] at h
    split at h <;> cases h
  · cases (hplace doc).symm.trans h
  · exact hkeys

/-- No write touches a field that an entry is matched by. -/
theorem keys_no_identity (w : ConfigWrite) : ∀ key ∈ w.keys, key ∉ identityKeys := by
  cases w with
  | plan target o r s =>
    intro key hkey
    obtain ⟨field, hfield, rfl⟩ := List.mem_map.mp hkey
    have hmem := (List.mem_filter.mp hfield).1
    simp only [ConfigWrite.planFields, List.mem_cons, List.not_mem_nil, or_false] at hmem
    rcases hmem with rfl | rfl | rfl <;> simp [identityKeys]
  | _ => simp [ConfigWrite.keys, identityKeys, GroupKey.wire]

/-! What a write does to the document. -/

theorem run_refused {refusal : TargetedWrite} (h : w.place doc = .error refusal) :
    w.run doc = (doc, refusal) := by
  rw [run_eq, h]

theorem run_placed (h : w.place doc = .ok place) :
    w.run doc = place.write (w.edits (place.held doc)) doc := by
  rw [run_eq, h]

theorem place_write (h : w.place doc = .ok place) :
    (w.edits (place.held doc) = [] ∧ w.run doc = (doc, .unchanged)) ∨
      (w.edits (place.held doc) ≠ [] ∧
        w.run doc = (place.edit (w.edits (place.held doc)) doc, .updated)) := by
  rw [run_placed h]
  unfold Place.write
  by_cases hedits : w.edits (place.held doc) = []
  · exact .inl ⟨hedits, if_pos hedits⟩
  · exact .inr ⟨hedits, if_neg hedits⟩

theorem edits_no_identity (held : String → Option Value) :
    ∀ name ∈ (w.edits held).map Prod.fst, name ∉ identityKeys :=
  fun name hname => keys_no_identity w name (edits_names name hname)

/-- After a write every other one resolves as before. -/
theorem place_run (hdoc : doc.isObject = true) : w'.place (w.run doc).1 = w'.place doc := by
  cases hplace : w.place doc with
  | error refusal => rw [run_refused hplace]
  | ok place =>
    rcases place_write hplace with ⟨-, hrun⟩ | ⟨-, hrun⟩
    · rw [hrun]
    · rw [hrun]
      exact place_congr (locate_edit hdoc (place_stands hplace) (edits_no_identity _)) w'

/-- After a write the fields of one apart from it hold what they held. -/
theorem held_run (hdoc : doc.isObject = true) (hplace : w.place doc = .ok place)
    (hplace' : w'.place doc = .ok place')
    (happart : place ≠ place' ∨ List.Disjoint w.keys w'.keys) :
    ∀ key ∈ w'.keys, place'.held (w.run doc).1 key = place'.held doc key := by
  intro key hkey
  rcases place_write hplace with ⟨-, hrun⟩ | ⟨-, hrun⟩
  · rw [hrun]
  · rw [hrun]
    by_cases hne : place = place'
    · subst hne
      have hdisjoint := happart.resolve_left (not_not.mpr rfl)
      rw [held_edit hdoc (place_stands hplace)]
      · exact Value.overlay_of_not_mem fun hmem => hdisjoint (edits_names key hmem) hkey
      · rintro rfl
        rw [keys_of_top hplace'] at hkey
        exact List.mem_singleton.mp hkey
    · exact held_edit_other hdoc hne

/-- A write that was carried out finds its fields as it states them. -/
theorem run_again (hdoc : doc.isObject = true) (hplace : w.place doc = .ok place) :
    (w.run (w.run doc).1).2 = .unchanged := by
  have hafter : w.place (w.run doc).1 = .ok place := (place_run hdoc).trans hplace
  have hnil : w.edits (place.held (w.run doc).1) = [] := by
    rcases place_write hplace with ⟨hnil, hrun⟩ | ⟨-, hrun⟩
    · rwa [hrun]
    · rw [hrun]
      refine (edits_congr fun key hkey => ?_).trans (@edits_again w (place.held doc))
      refine held_edit hdoc (place_stands hplace) ?_
      rintro rfl
      rw [keys_of_top hplace] at hkey
      exact List.mem_singleton.mp hkey
  rw [run_placed hafter, hnil]
  rfl

end Places

/-! ## Writes apart -/

section Apart

variable {doc : Value} {place place' : Place} {edits edits' : List (String × Option Value)}

/-- Under one top-level key the edits of different fields may be exchanged. -/
theorem rewrite_comm (hplace : place.Stands doc) (hplace' : place'.Stands doc)
    (htop : place'.topKey = place.topKey)
    (happart : place ≠ place' ∨ List.Disjoint (edits.map Prod.fst) (edits'.map Prod.fst)) :
    (place'.rewrite edits' (place.rewrite edits (doc.get place.topKey))).map Value.read =
      (place.rewrite edits (place'.rewrite edits' (doc.get place.topKey))).map Value.read := by
  cases place with
  | entry index =>
    cases place' with
    | entry index' =>
      obtain ⟨entries, entry, hget, hentry, hobject⟩ := hplace
      simp only [Place.topKey, hget, Place.rewrite, Option.map_some]
      refine congrArg some (Value.same_array (List.ext_getElem? fun i => ?_))
      simp only [List.getElem?_map, List.getElem?_modify]
      by_cases hi : index = i
      · subst hi
        by_cases hi' : index' = index
        · subst hi'
          have hdisjoint := happart.resolve_left (not_not.mpr rfl)
          have hsame : ((entry.setFields edits).setFields edits').read =
              ((entry.setFields edits').setFields edits).read :=
            Value.same_set_fields_comm hobject hdisjoint
          simpa [hentry] using hsame
        · simp [hi']
      · simp [hi]
    | _ => simp [Place.topKey] at htop
  | group name =>
    cases place' with
    | group name' =>
      set settings := Value.objectOr (doc.get (Place.group name).topKey) with hsettings
      have hobject : settings.isObject = true := Value.is_object_object_or _
      show (Value.dropEmpty ((Value.objectOr ((Place.group name).rewrite edits _)).setField name'
          (Value.dropEmpty ((Value.objectOr ((Value.objectOr
            ((Place.group name).rewrite edits _)).get name')).setFields edits')))).map Value.read =
        (Value.dropEmpty ((Value.objectOr ((Place.group name').rewrite edits' _)).setField name
          (Value.dropEmpty ((Value.objectOr ((Value.objectOr
            ((Place.group name').rewrite edits' _)).get name)).setFields edits)))).map Value.read
      rw [settings_rewrite, settings_rewrite, ← hsettings]
      refine Value.Same.drop_empty ?_ (by simpa using hobject) (by simpa using hobject)
      refine Value.same_object (by simpa using hobject) (by simpa using hobject) fun key => ?_
      simp only [Value.get_set_field, hobject, Value.is_object_set_field]
      by_cases hname : name' = name
      · subst hname
        have hdisjoint := happart.resolve_left (not_not.mpr rfl)
        simp only [if_pos]
        rw [Value.object_or_drop_empty (by simp), Value.object_or_drop_empty (by simp)]
        by_cases hkey : key = name'
        · simp only [hkey, if_pos]
          have hsame : Value.Same _ _ := Value.same_set_fields_comm
            (Value.is_object_object_or (settings.get name')) hdisjoint
          exact hsame.drop_empty (by simp) (by simp)
        · simp [hkey]
      · by_cases hkey : key = name
        · subst hkey
          simp [Ne.symm hname]
        · simp [hname, hkey]
    | _ => simp [Place.topKey] at htop
  | top =>
    cases place' with
    | top =>
      have hdisjoint := happart.resolve_left (not_not.mpr rfl)
      exact congrArg _ (Value.overlay_comm hdisjoint)
    | _ => simp [Place.topKey] at htop

theorem edit_comm (hdoc : doc.isObject = true) (hplace : place.Stands doc)
    (hplace' : place'.Stands doc)
    (happart : place ≠ place' ∨ List.Disjoint (edits.map Prod.fst) (edits'.map Prod.fst)) :
    Value.Same (place'.edit edits' (place.edit edits doc))
      (place.edit edits (place'.edit edits' doc)) := by
  have hfirst : (place.edit edits doc).isObject = true := is_object_edit hdoc
  have hfirst' : (place'.edit edits' doc).isObject = true := is_object_edit hdoc
  refine Value.same_object (is_object_edit hfirst) (is_object_edit hfirst') fun key => ?_
  rw [get_edit hfirst, get_edit hfirst', get_edit hdoc, get_edit hdoc, get_edit hdoc, get_edit hdoc]
  by_cases htop : place'.topKey = place.topKey
  · by_cases hkey : key = place.topKey
    · simp only [htop, hkey, if_pos]
      exact rewrite_comm hplace hplace' htop happart
    · simp only [htop, hkey, if_false]
  · by_cases hkey : key = place.topKey
    · subst hkey
      simp only [htop, Ne.symm htop, if_pos, if_false]
    · simp only [hkey, Ne.symm htop, htop, if_false]

end Apart

/-! ## What else a write leaves -/

section Frame

variable {doc : Value} {place : Place} {edits : List (String × Option Value)} {path : List Step}

/-- Under its top-level key an edit changes its fields and their containers. -/
theorem read_rewrite (hload : LoadsSettings doc) (hplace : place.Stands doc)
    (htop : place = .top → ∀ name ∈ edits.map Prod.fst, name = "controlAccount")
    (hlanes : ∀ name ∈ edits.map Prod.fst,
      ¬ (place.steps ++ [.key name]) <+: .key place.topKey :: path)
    (hcontainers : .key place.topKey :: path ∉ place.containers) :
    ((place.rewrite edits (doc.get place.topKey)).map Value.read).bind (· path) =
      ((doc.get place.topKey).map Value.read).bind (· path) := by
  cases place with
  | entry index =>
    obtain ⟨entries, entry, hget, hentry, hobject⟩ := hplace
    simp only [Place.topKey, hget, Place.rewrite, Option.map_some, Option.bind_some]
    cases path with
    | nil => simp [Value.read, Value.leaf]
    | cons step path =>
      cases step with
      | key name => rfl
      | index i =>
        rw [Value.read_cons, Value.read_cons]
        simp only [Value.child, Value.asArray, Option.bind_some, List.getElem?_modify]
        by_cases hi : index = i
        · subst hi
          simp only [hentry, Option.map_eq_map, Option.map_some, Option.bind_some, if_pos]
          refine Value.read_set_fields hobject fun name hname hpath => hlanes name hname ?_
          simpa [Place.steps, Place.topKey] using hpath
        · simp [hi]
  | group name =>
    simp only [Place.topKey] at hlanes hcontainers ⊢
    cases path with
    | nil => exact absurd (by simp [Place.containers]) hcontainers
    | cons step path =>
      set settings := Value.objectOr (doc.get "groupSettings") with hsettings
      have hobject : settings.isObject = true := Value.is_object_object_or _
      have hset : (settings.setField name (Value.dropEmpty ((Value.objectOr
          (settings.get name)).setFields edits))).isObject = true := by
        rwa [Value.is_object_set_field]
      rw [Place.rewrite, Value.read_drop_empty hset, Value.read_object_or hload.settings,
        ← hsettings]
      cases step with
      | index i => rw [Value.read_cons, Value.read_cons, Value.object_index hset,
          Value.object_index hobject]
      | key key =>
        rw [Value.read_key, Value.read_key, Value.get_set_field hobject]
        by_cases hkey : key = name
        · subst hkey
          rw [if_pos rfl]
          cases path with
          | nil => exact absurd (by simp [Place.containers]) hcontainers
          | cons step path =>
            have hgroup : ∀ x, settings.get key = some x → x.isObject = true := by
              intro x hx
              rw [hsettings, Value.get_object_or] at hx
              obtain ⟨held, hheld, hx⟩ := Option.bind_eq_some_iff.mp hx
              exact hload.groups held key x hheld hx
            rw [Value.read_drop_empty (by simp), Value.read_object_or hgroup]
            refine Value.read_set_fields (by simp) fun name hname hpath => hlanes name hname ?_
            simpa [Place.steps] using hpath
        · rw [if_neg hkey]
  | top =>
    have hnot : "controlAccount" ∉ edits.map Prod.fst := fun hmem =>
      hlanes _ hmem (by simp [Place.steps, Place.topKey])
    simp only [Place.rewrite, Place.topKey]
    rw [Value.overlay_of_not_mem hnot]

theorem read_edit (hdoc : doc.isObject = true) (hload : LoadsSettings doc)
    (hplace : place.Stands doc)
    (htop : place = .top → ∀ name ∈ edits.map Prod.fst, name = "controlAccount")
    (hlanes : ∀ name ∈ edits.map Prod.fst, ¬ (place.steps ++ [.key name]) <+: path)
    (hcontainers : path ∉ place.containers) : (place.edit edits doc).read path = doc.read path := by
  have hafter : (place.edit edits doc).isObject = true := is_object_edit hdoc
  cases path with
  | nil => rw [Value.read, Value.read, Value.object_leaf hafter, Value.object_leaf hdoc]
  | cons step path =>
    cases step with
    | index i => rw [Value.read_cons, Value.read_cons, Value.object_index hafter,
        Value.object_index hdoc]
    | key key =>
      rw [Value.read_key, Value.read_key, get_edit hdoc]
      by_cases hkey : key = place.topKey
      · subst hkey
        rw [if_pos rfl]
        exact read_rewrite hload hplace htop hlanes hcontainers
      · rw [if_neg hkey]

theorem container_filled (hdoc : doc.isObject = true) (hpath : path ∈ place.containers)
    (hread : ((place.edit edits doc).read path).isSome = true) :
    ∃ key, ((place.edit edits doc).read (path ++ [.key key])).isSome = true := by
  cases place with
  | group name =>
    set settings := Value.objectOr (doc.get "groupSettings") with hsettings
    set entry := (Value.objectOr (settings.get name)).setFields edits with hentry
    have hafter : (settings.setField name (Value.dropEmpty entry)).isObject = true := by
      simp [hsettings]
    have hget : ((Place.group name).edit edits doc).get "groupSettings" =
        Value.dropEmpty (settings.setField name (Value.dropEmpty entry)) := by
      rw [get_edit hdoc, Place.topKey, if_pos rfl]
      rfl
    have hbelow : ∀ step path, ((Place.group name).edit edits doc).read
        (.key "groupSettings" :: step :: path) =
        (settings.setField name (Value.dropEmpty entry)).read (step :: path) := by
      intro step path
      rw [Value.read_key, hget, Value.read_drop_empty hafter]
    simp only [Place.containers, List.mem_cons, List.not_mem_nil, or_false] at hpath
    rcases hpath with rfl | rfl
    · cases hx : Value.dropEmpty (settings.setField name (Value.dropEmpty entry)) with
      | none =>
        rw [Value.read_key, hget, hx] at hread
        cases hread
      | some x =>
        obtain ⟨key, hkey⟩ := (Value.drop_empty_some hx).2 hafter
        refine ⟨key, ?_⟩
        rw [List.singleton_append, hbelow, Value.read_key]
        obtain ⟨y, hy⟩ := Option.isSome_iff_exists.mp hkey
        rw [hy]
        rfl
    · rw [hbelow, Value.read_key, Value.get_set_field (by simp [hsettings]), if_pos rfl] at hread
      cases hx : Value.dropEmpty entry with
      | none =>
        rw [hx] at hread
        cases hread
      | some x =>
        obtain ⟨rfl, hfield⟩ := Value.drop_empty_some hx
        obtain ⟨key, hkey⟩ := hfield (by simp [hentry])
        refine ⟨key, ?_⟩
        show (((Place.group name).edit edits doc).read
          (.key "groupSettings" :: .key name :: [.key key])).isSome = true
        rw [hbelow, Value.read_key, Value.get_set_field (by simp [hsettings]), if_pos rfl, hx]
        obtain ⟨y, hy⟩ := Option.isSome_iff_exists.mp hkey
        show ((_ : Value).read [.key key]).isSome = true
        rw [Value.read_key, hy]
        rfl
  | entry index => cases hpath
  | top => cases hpath

end Frame

/-! ## Every targeted write -/

section Writes

variable {doc : Value} {w w' : ConfigWrite}

theorem refusal_of_place {refusal : TargetedWrite} (h : w.place doc = .error refusal) :
    refusal = .noEntry ∨ refusal = .ambiguous := by
  rcases place_kinds w with ⟨target, hplace⟩ | ⟨group, hplace⟩ | ⟨-, account, hplace⟩
  · rw [hplace, entryPlace] at h
    split at h
    · rename_i found _
      rw [← Except.error.inj h]
      cases found with
      | noEntry => exact .inl rfl
      | ambiguous => exact .inr rfl
    · cases h
  · cases (hplace doc).symm.trans h
  · rw [hplace] at h
    split at h
    · exact .inr (Except.error.inj h).symm
    · cases h

theorem stays_in_lane (hdoc : doc.isObject = true) (hload : LoadsSettings doc) (w : ConfigWrite) :
    w.StaysInLane doc := by
  cases hplace : w.place doc with
  | error refusal =>
    have hrun := run_refused hplace
    have hrefusal := refusal_of_place hplace
    refine ⟨fun path _ _ => by rw [hrun], fun hupdated => ?_, fun _ => by rw [hrun],
      fun hdone => ?_, fun _ => by rw [hrun, hrun]⟩
    · rw [hrun] at hupdated
      rcases hrefusal with rfl | rfl <;> cases hupdated
    · rw [hrun] at hdone
      rcases hrefusal with rfl | rfl <;> rcases hdone with h | h <;> cases h
  | ok place =>
    rcases place_write hplace with ⟨-, hrun⟩ | ⟨-, hrun⟩
    · refine ⟨fun path _ _ => by rw [hrun], fun hupdated => ?_, fun _ => by rw [hrun],
        fun _ => run_again hdoc hplace, fun hrefused => ?_⟩
      · rw [hrun] at hupdated
        cases hupdated
      · rw [hrun] at hrefused
        rcases hrefused with h | h <;> cases h
    · have hlane : ∀ key ∈ w.keys, place.steps ++ [.key key] ∈ w.lanes doc := by
        intro key hkey
        simp only [ConfigWrite.lanes, hplace]
        exact List.mem_map.mpr ⟨key, hkey, rfl⟩
      have hcontainers : w.containers doc = place.containers := by
        simp only [ConfigWrite.containers, hplace]
      refine ⟨fun path hlanes hpath => ?_, fun _ path hpath hread => ?_, fun hnot => ?_,
        fun _ => run_again hdoc hplace, fun hrefused => ?_⟩
      · rw [hrun]
        refine read_edit hdoc hload (place_stands hplace) ?_ (fun name hname => ?_)
          (hcontainers ▸ hpath)
        · rintro rfl name hname
          have hkey := edits_names name hname
          rw [keys_of_top hplace] at hkey
          exact List.mem_singleton.mp hkey
        · exact hlanes _ (hlane name (edits_names name hname))
      · rw [hrun] at hread ⊢
        exact container_filled hdoc (hcontainers ▸ hpath) hread
      · rw [hrun] at hnot
        exact absurd rfl hnot
      · rw [hrun] at hrefused
        rcases hrefused with h | h <;> cases h

theorem run_comm (hdoc : doc.isObject = true) (happart : w.Apart w' doc) :
    Value.Same (w'.run (w.run doc).1).1 (w.run (w'.run doc).1).1 := by
  have hkeep : w'.place (w.run doc).1 = w'.place doc := place_run hdoc
  have hkeep' : w.place (w'.run doc).1 = w.place doc := place_run hdoc
  cases hplace : w.place doc with
  | error refusal =>
    rw [run_refused hplace, run_refused (hkeep'.trans hplace)]
    exact Value.Same.refl _
  | ok place =>
    cases hplace' : w'.place doc with
    | error refusal =>
      rw [run_refused hplace', run_refused (hkeep.trans hplace')]
      exact Value.Same.refl _
    | ok place' =>
      have hdiff := happart place place' hplace hplace'
      have hdiff' : place' ≠ place ∨ List.Disjoint w'.keys w.keys :=
        hdiff.imp Ne.symm List.Disjoint.symm
      have hheld : w'.edits (place'.held (w.run doc).1) = w'.edits (place'.held doc) :=
        edits_congr (held_run hdoc hplace hplace' hdiff)
      have hheld' : w.edits (place.held (w'.run doc).1) = w.edits (place.held doc) :=
        edits_congr (held_run hdoc hplace' hplace hdiff')
      rw [run_placed (hkeep.trans hplace'), run_placed (hkeep'.trans hplace), hheld, hheld']
      unfold Place.write
      -- a write that changes nothing is the identity in either order
      rcases place_write hplace with ⟨hnil, hrun⟩ | ⟨hsome, hrun⟩
      · rcases place_write hplace' with ⟨hnil', hrun'⟩ | ⟨hsome', hrun'⟩
        · rw [hrun, hrun', if_pos hnil, if_pos hnil']
          exact Value.Same.refl _
        · rw [hrun, hrun', if_pos hnil, if_neg hsome']
          exact Value.Same.refl _
      · rcases place_write hplace' with ⟨hnil', hrun'⟩ | ⟨hsome', hrun'⟩
        · rw [hrun, hrun', if_neg hsome, if_pos hnil']
          exact Value.Same.refl _
        · rw [hrun, hrun', if_neg hsome, if_neg hsome']
          refine edit_comm hdoc (place_stands hplace) (place_stands hplace') ?_
          refine hdiff.imp id fun hdisjoint name hname hname' => ?_
          exact hdisjoint (edits_names name hname) (edits_names name hname')

/-- Targeted writes stay in their lanes, and those of different lanes may be exchanged. -/
theorem targeted_writes (hdoc : doc.isObject = true) (hload : LoadsSettings doc) :
    (∀ w : ConfigWrite, w.StaysInLane doc) ∧
      ∀ w w' : ConfigWrite, w.Apart w' doc →
        Value.Same (w'.run (w.run doc).1).1 (w.run (w'.run doc).1).1 :=
  ⟨stays_in_lane hdoc hload, fun _ _ => run_comm hdoc⟩

/-- A group with one setting, which is taken away while another one is set. -/
def oneSetting : Value :=
  .object [("groupSettings", .object [("g", .object [("reserved", .bool true)])])]

theorem one_setting_exchanged :
    Value.Same ((ConfigWrite.groupParked "g" true).run
        ((ConfigWrite.groupReserved "g" false).run oneSetting).1).1
      ((ConfigWrite.groupReserved "g" false).run
        ((ConfigWrite.groupParked "g" true).run oneSetting).1).1 := by
  have hload : LoadsSettings oneSetting := by
    refine ⟨fun x hx => ?_, fun x group y hx hy => ?_⟩
    · rw [← Option.some.inj hx]
      rfl
    · obtain rfl := Option.some.inj hx
      unfold Value.get at hy
      by_cases hgroup : "g" = group
      · simp [hgroup] at hy
        rw [← hy]
        rfl
      · simp [hgroup] at hy
  refine (targeted_writes rfl hload).2 _ _ fun place place' _ _ => .inr ?_
  simp [ConfigWrite.keys, GroupKey.wire]

/-- A write that is refused is refused again, and not answered as done already. -/
theorem refused_write_repeated : ¬ ∀ (doc : Value) (w : ConfigWrite), doc.isObject = true →
    LoadsSettings doc → (w.run (w.run doc).1).2 = .unchanged := by
  intro h
  have hload : LoadsSettings (.object []) := by
    refine ⟨fun x hx => ?_, fun x group y hx _ => ?_⟩
    · cases hx
    · cases hx
  have hnone := h (.object []) (.disabled { name := "a@x", provider := .anthropic } true) rfl hload
  revert hnone
  decide +kernel

end Writes

end TeamClaude
