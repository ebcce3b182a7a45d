import TeamClaude.Config.SavedLogin
import TeamClaude.Lib.JsonEdit

/-!
# Targeted writes

Five writers each edit one place of the document: fields of one account's entry, a setting of one
group, or the control account. All of them leave it alone when it holds already what they write.
-/

namespace TeamClaude

open Lib.Json

/-! ## The writers -/

inductive TargetedWrite
  | updated
  | unchanged
  | noEntry
  | ambiguous
  deriving DecidableEq

inductive EntryRefusal
  | noEntry
  | ambiguous
  deriving DecidableEq

def EntryRefusal.outcome : EntryRefusal → TargetedWrite
  | .noEntry => .noEntry
  | .ambiguous => .ambiguous

def findAccountEntry (doc : Value) (target : Account) : Except EntryRefusal (Nat × Value) :=
  match locateIn doc target with
  | .none => .error .noEntry
  | .many => .error .ambiguous
  | .one index =>
    match (entriesOf doc).bind (·[index]?) with
    | some (.object fields) => .ok (index, .object fields)
    | _ => .error .noEntry

/-- The document once the entry found in it was edited in place. -/
def putEntry (doc : Value) (index : Nat) (entry : Value) : Value :=
  match doc.get "accounts" with
  | some (.array entries) => doc.insert "accounts" (.array (entries.set index entry))
  | _ => doc

/-- `then_some(Value::Bool(true))`: what is not set is dropped. -/
def flag (set : Bool) : Option Value :=
  if set then some (.bool true) else none

def mergeDisabled (doc : Value) (target : Account) (disabled : Bool) : Value × TargetedWrite :=
  match findAccountEntry doc target with
  | .error refusal => (doc, refusal.outcome)
  | .ok (index, entry) =>
    let desired := flag disabled
    if entry.get "disabled" = desired then (doc, .unchanged)
    else (putEntry doc index (entry.setField "disabled" desired), .updated)

def mergePlanField (acc : Value × Bool) (field : String × Option String) : Value × Bool :=
  match field.2 with
  | none => acc
  | some value =>
    let desired : Value := .string value
    if acc.1.get field.1 = some desired then acc
    else (acc.1.insert field.1 desired, true)

def mergePlan (doc : Value) (target : Account)
    (organizationType rateLimitTier seatTier : Option String) : Value × TargetedWrite :=
  match findAccountEntry doc target with
  | .error refusal => (doc, refusal.outcome)
  | .ok (index, entry) =>
    let (entry, changed) := [("organizationType", organizationType),
      ("rateLimitTier", rateLimitTier), ("seatTier", seatTier)].foldl mergePlanField (entry, false)
    if changed then (putEntry doc index entry, .updated) else (doc, .unchanged)

/-- The labels an entry carries; what is no string in the list is none. -/
def groupsHeld (held : Option Value) : List String :=
  ((held.bind Value.asArray).getD []).filterMap Value.asStr

/-- The labels once the group is added or taken away. -/
def regroup (groups : List String) (group : String) (member : Bool) : List String :=
  if member then groups ++ [group] else groups.filter (· ≠ group)

/-- The field the labels are written as: none without labels. -/
def groupsField (groups : List String) : Option Value :=
  if groups.isEmpty then none else some (.array (groups.map .string))

def mergeGroupMembership (doc : Value) (target : Account) (group : String) (member : Bool) :
    Value × TargetedWrite :=
  match findAccountEntry doc target with
  | .error refusal => (doc, refusal.outcome)
  | .ok (index, entry) =>
    let groups := groupsHeld (entry.get "groups")
    let already := decide (group ∈ groups)
    if member = already then (doc, .unchanged)
    else (putEntry doc index (entry.setField "groups" (groupsField (regroup groups group member))),
      .updated)

inductive GroupKey
  | reserved
  | parked
  | allowControl
  | color
  deriving DecidableEq

namespace GroupKey

/-- The key's spelling in the file. -/
def wire : GroupKey → String
  | reserved => "reserved"
  | parked => "parked"
  | allowControl => "allowControlAccount"
  | color => "color"

/-- What the key carries, read the way the writer would write it. -/
def current (key : GroupKey) (raw : Option Value) : Option Value :=
  match key with
  | reserved | parked | allowControl =>
    ((raw.bind Value.asBool).filter (· = true)).map .bool
  | color => (raw.bind Value.asStr).map .string

end GroupKey

def setGroupSetting (doc : Value) (group : String) (key : GroupKey) (desired : Option Value) :
    Value × TargetedWrite :=
  let already := key.current
    (((doc.get "groupSettings").bind (·.get group)).bind (·.get key.wire))
  if already = desired then (doc, .unchanged)
  else
    -- a container is dropped with the last of its fields, and what is no object
    -- is replaced by a fresh one
    let settings := Value.objectOr (doc.get "groupSettings")
    let settings :=
      match desired with
      | some value =>
        let entry := Value.objectOr (settings.get group)
        settings.insert group (entry.insert key.wire value)
      | none =>
        match settings.get group with
        | some (.object fields) =>
          settings.setField group (Value.dropEmpty ((Value.object fields).remove key.wire))
        | _ => settings
    (doc.setField "groupSettings" (Value.dropEmpty settings), .updated)

def mergeControlAccount (doc : Value) (target : Option Account) : Value × TargetedWrite :=
  let write (desired : Option Value) : Value × TargetedWrite :=
    if doc.get "controlAccount" = desired then (doc, .unchanged)
    else (doc.setField "controlAccount" desired, .updated)
  match target with
  | none => write none
  | some account =>
    match locateIn doc account with
    | .many => (doc, .ambiguous)
    | _ => write (some (.string account.name))

/-- The writes that `save_disabled`, `save_plan`, `save_group_membership`, the four savers of a
group's setting and `save_control_account` make. -/
inductive ConfigWrite
  | disabled (target : Account) (disabled : Bool)
  | plan (target : Account) (organizationType rateLimitTier seatTier : Option String)
  | membership (target : Account) (group : String) (member : Bool)
  | groupReserved (group : String) (reserved : Bool)
  | groupParked (group : String) (parked : Bool)
  | groupAllowControl (group : String) (allow : Bool)
  | groupColor (group : String) (color : Option String)
  | control (target : Option Account)

namespace ConfigWrite

def run : ConfigWrite → Value → Value × TargetedWrite
  | disabled target value, doc => mergeDisabled doc target value
  | plan target organizationType rateLimitTier seatTier, doc =>
    mergePlan doc target organizationType rateLimitTier seatTier
  | membership target group member, doc => mergeGroupMembership doc target group member
  | groupReserved group reserved, doc => setGroupSetting doc group .reserved (flag reserved)
  | groupParked group parked, doc => setGroupSetting doc group .parked (flag parked)
  | groupAllowControl group allow, doc => setGroupSetting doc group .allowControl (flag allow)
  | groupColor group color, doc => setGroupSetting doc group .color (color.map .string)
  | control target, doc => mergeControlAccount doc target

end ConfigWrite

/-! ## The place a write edits -/

/-- A place whose fields a write sets. -/
inductive Place
  | entry (index : Nat)
  | group (name : String)
  | top
  deriving DecidableEq

namespace Place

/-- The top-level key the place lies under. -/
def topKey : Place → String
  | entry _ => "accounts"
  | group _ => "groupSettings"
  | top => "controlAccount"

/-- What a field of the place holds, by what the top-level key holds. -/
def heldIn (place : Place) (held : Option Value) (key : String) : Option Value :=
  match place with
  | entry index => ((held.bind Value.asArray).bind (·[index]?)).bind (·.get key)
  | group name => (held.bind (·.get name)).bind (·.get key)
  | top => held

/-- What the top-level key holds once fields of the place are edited. -/
def rewrite (place : Place) (edits : List (String × Option Value)) (held : Option Value) :
    Option Value :=
  match place with
  | entry index => held.map fun
      | .array entries => .array (entries.modify index fun entry => entry.setFields edits)
      | other => other
  | group name =>
    let settings := Value.objectOr held
    let entry := Value.objectOr (settings.get name)
    Value.dropEmpty (settings.setField name (Value.dropEmpty (entry.setFields edits)))
  | top => Value.overlay edits "controlAccount" held

def held (place : Place) (doc : Value) (key : String) : Option Value :=
  place.heldIn (doc.get place.topKey) key

def edit (place : Place) (edits : List (String × Option Value)) (doc : Value) : Value :=
  doc.setField place.topKey (place.rewrite edits (doc.get place.topKey))

def write (place : Place) (edits : List (String × Option Value)) (doc : Value) :
    Value × TargetedWrite :=
  if edits = [] then (doc, .unchanged) else (place.edit edits doc, .updated)

end Place

namespace ConfigWrite

def place (doc : Value) : ConfigWrite → Except TargetedWrite Place
  | disabled target _ | plan target _ _ _ | membership target _ _ =>
    match findAccountEntry doc target with
    | .error refusal => .error refusal.outcome
    | .ok (index, _) => .ok (.entry index)
  | groupReserved group _ | groupParked group _ | groupAllowControl group _ | groupColor group _ =>
    .ok (.group group)
  | control none => .ok .top
  | control (some account) => if locateIn doc account = .many then .error .ambiguous else .ok .top

def planFields (organizationType rateLimitTier seatTier : Option String) :
    List (String × Option String) :=
  [("organizationType", organizationType), ("rateLimitTier", rateLimitTier), ("seatTier", seatTier)]

def keys : ConfigWrite → List String
  | disabled _ _ => ["disabled"]
  | plan _ o r s => ((planFields o r s).filter fun field => field.2.isSome).map Prod.fst
  | membership _ _ _ => ["groups"]
  | groupReserved _ _ => [GroupKey.reserved.wire]
  | groupParked _ _ => [GroupKey.parked.wire]
  | groupAllowControl _ _ => [GroupKey.allowControl.wire]
  | groupColor _ _ => [GroupKey.color.wire]
  | control _ => ["controlAccount"]

/-- A field set to what is desired unless what it is read as is that already. -/
def setUnless (read : Option Value → Option Value) (key : String) (desired : Option Value)
    (held : String → Option Value) : List (String × Option Value) :=
  if read (held key) = desired then [] else [(key, desired)]

def planEdit (held : String → Option Value) (field : String × Option String) :
    Option (String × Option Value) :=
  field.2.bind fun value =>
    if held field.1 = some (.string value) then none else some (field.1, some (.string value))

def groupsEdit (group : String) (member : Bool) (held : String → Option Value) :
    List (String × Option Value) :=
  let groups := groupsHeld (held "groups")
  if member = decide (group ∈ groups) then []
  else [("groups", groupsField (regroup groups group member))]

/-- The fields a write sets, by what its place holds. -/
def edits : ConfigWrite → (String → Option Value) → List (String × Option Value)
  | disabled _ value => setUnless id "disabled" (flag value)
  | plan _ o r s => fun held => (planFields o r s).filterMap (planEdit held)
  | membership _ group member => groupsEdit group member
  | groupReserved _ reserved =>
    setUnless GroupKey.reserved.current GroupKey.reserved.wire (flag reserved)
  | groupParked _ parked => setUnless GroupKey.parked.current GroupKey.parked.wire (flag parked)
  | groupAllowControl _ allow =>
    setUnless GroupKey.allowControl.current GroupKey.allowControl.wire (flag allow)
  | groupColor _ color =>
    setUnless GroupKey.color.current GroupKey.color.wire (color.map .string)
  | control none => setUnless id "controlAccount" none
  | control (some account) => setUnless id "controlAccount" (some (.string account.name))

end ConfigWrite

/-! ## Each writer edits its place -/

section Edits

variable {doc : Value} {target : Account} {index : Nat} {entry : Value}

theorem found_entry (h : findAccountEntry doc target = .ok (index, entry)) :
    locateIn doc target = .one index ∧ entry.isObject = true ∧
      ∃ entries, doc.get "accounts" = some (.array entries) ∧ entries[index]? = some entry := by
  unfold findAccountEntry at h
  split at h
  · cases h
  · cases h
  · rename_i i hone
    split at h
    · rename_i fields hentry
      obtain ⟨rfl, rfl⟩ := Prod.mk.inj (Except.ok.inj h)
      refine ⟨hone, rfl, ?_⟩
      unfold entriesOf at hentry
      cases hget : doc.get "accounts" with
      | none => rw [hget] at hentry; cases hentry
      | some held =>
        cases held with
        | array entries =>
          rw [hget] at hentry
          exact ⟨entries, rfl, hentry⟩
        | _ => rw [hget] at hentry; cases hentry
    · cases h

theorem modify_eq_set {entries : List Value} (h : entries[index]? = some entry)
    (f : Value → Value) : entries.modify index f = entries.set index (f entry) := by
  refine List.ext_getElem? fun i => ?_
  rw [List.getElem?_modify, List.getElem?_set]
  by_cases hi : index = i
  · subst hi
    have hlt : index < entries.length := (List.getElem?_eq_some_iff.mp h).1
    rw [h, if_pos rfl, if_pos hlt, Option.map_eq_map, Option.map_some, if_pos rfl]
  · simp [hi]

/-- The entry put back with its fields set is the place edited. -/
theorem put_entry_eq (h : findAccountEntry doc target = .ok (index, entry))
    (edits : List (String × Option Value)) :
    putEntry doc index (entry.setFields edits) = (Place.entry index).edit edits doc := by
  obtain ⟨-, -, entries, hget, hentry⟩ := found_entry h
  unfold putEntry Place.edit
  simp only [Place.topKey, Place.rewrite, hget, Option.map_some, Value.setField]
  rw [modify_eq_set hentry]

theorem held_entry (h : findAccountEntry doc target = .ok (index, entry)) :
    (Place.entry index).held doc = entry.get := by
  obtain ⟨-, -, entries, hget, hentry⟩ := found_entry h
  funext key
  simp [Place.held, Place.heldIn, Place.topKey, hget, Value.asArray, hentry]

theorem merge_plan_fields (entry : Value) (hentry : entry.isObject = true) (changed : Bool)
    (fields : List (String × Option String)) (hfields : (fields.map Prod.fst).Nodup) :
    fields.foldl mergePlanField (entry, changed) =
      (entry.setFields (fields.filterMap (ConfigWrite.planEdit entry.get)),
        changed || !(fields.filterMap (ConfigWrite.planEdit entry.get)).isEmpty) := by
  induction fields generalizing entry changed with
  | nil => simp [Value.setFields]
  | cons field fields ih =>
    rw [List.map_cons, List.nodup_cons] at hfields
    obtain ⟨key, value⟩ := field
    cases value with
    | none => simpa [mergePlanField, ConfigWrite.planEdit] using ih entry hentry changed hfields.2
    | some value =>
      by_cases hheld : entry.get key = some (.string value)
      · simpa [mergePlanField, ConfigWrite.planEdit, hheld] using ih entry hentry changed hfields.2
      · have hrest : fields.filterMap (ConfigWrite.planEdit (entry.insert key (.string value)).get) =
            fields.filterMap (ConfigWrite.planEdit entry.get) := by
          refine List.filterMap_congr fun other hother => ?_
          have hne : other.1 ≠ key := by
            rintro rfl
            exact hfields.1 (List.mem_map.mpr ⟨_, hother, rfl⟩)
          unfold ConfigWrite.planEdit
          rw [Value.get_insert hentry, if_neg hne]
        have hnext := ih (entry.insert key (.string value)) (by simpa using hentry) true hfields.2
        rw [hrest] at hnext
        simpa [mergePlanField, ConfigWrite.planEdit, hheld, Value.setFields, Value.setField]
          using hnext

theorem merge_plan_eq (o r s : Option String)
    (h : findAccountEntry doc target = .ok (index, entry)) : mergePlan doc target o r s =
      (Place.entry index).write ((ConfigWrite.planFields o r s).filterMap
        (ConfigWrite.planEdit ((Place.entry index).held doc))) doc := by
  have hfields := merge_plan_fields entry (found_entry h).2.1 false (ConfigWrite.planFields o r s)
    (by simp [ConfigWrite.planFields])
  rw [held_entry h]
  unfold mergePlan Place.write
  rw [h]
  simp only [← ConfigWrite.planFields.eq_1, hfields, Bool.false_or]
  split
  · rename_i hne
    rw [if_neg (by simpa using hne), put_entry_eq h]
  · rename_i hnil
    rw [if_pos (by simpa using hnil)]

theorem merge_disabled_eq (value : Bool) (h : findAccountEntry doc target = .ok (index, entry)) :
    mergeDisabled doc target value = (Place.entry index).write
      (ConfigWrite.setUnless id "disabled" (flag value)
        ((Place.entry index).held doc)) doc := by
  rw [held_entry h]
  unfold mergeDisabled Place.write ConfigWrite.setUnless
  rw [h]
  simp only [id_eq]
  split
  · rw [if_pos rfl]
  · rw [if_neg (by simp), ← put_entry_eq h]
    rfl

theorem merge_group_membership_eq (group : String) (member : Bool)
    (h : findAccountEntry doc target = .ok (index, entry)) :
    mergeGroupMembership doc target group member = (Place.entry index).write
      (ConfigWrite.groupsEdit group member ((Place.entry index).held doc)) doc := by
  rw [held_entry h]
  unfold mergeGroupMembership Place.write ConfigWrite.groupsEdit
  rw [h]
  dsimp only
  split
  · rw [if_pos rfl]
  · rw [if_neg (by simp), ← put_entry_eq h]
    rfl

theorem drop_empty_insert (v : Value) (key : String) (x : Value) (hv : v.isObject = true) :
    Value.dropEmpty (v.insert key x) = some (v.insert key x) := by
  cases v with
  | object fields => rfl
  | _ => cases hv

theorem set_group_setting_eq (doc : Value) (group : String) (key : GroupKey)
    (desired : Option Value) : setGroupSetting doc group key desired = (Place.group group).write
      (ConfigWrite.setUnless key.current key.wire desired ((Place.group group).held doc)) doc := by
  unfold setGroupSetting Place.write ConfigWrite.setUnless Place.held Place.heldIn
  simp only [Place.topKey]
  by_cases halready : key.current
      (((doc.get "groupSettings").bind (·.get group)).bind (·.get key.wire)) = desired
  · simp only [halready, if_true]
  · simp only [halready, if_false, List.cons_ne_nil]
    unfold Place.edit Place.rewrite
    simp only [Place.topKey, Value.setFields, List.foldl_cons, List.foldl_nil]
    cases desired with
    | some value =>
      have hentry : (Value.objectOr ((Value.objectOr (doc.get "groupSettings")).get group)).isObject =
          true := Value.is_object_object_or _
      simp only [Value.setField, drop_empty_insert _ _ _ hentry]
    | none =>
      have hgroup : (Value.objectOr (doc.get "groupSettings")).get group =
          (doc.get "groupSettings").bind (·.get group) := Value.get_object_or _ _
      -- only an object holds a setting that can be cleared
      have hheld : ∃ fields, (Value.objectOr (doc.get "groupSettings")).get group =
          some (.object fields) := by
        rw [hgroup]
        by_contra hnot
        refine halready ?_
        have hraw : ((doc.get "groupSettings").bind (·.get group)).bind (·.get key.wire) = none := by
          cases hx : (doc.get "groupSettings").bind (·.get group) with
          | none => rfl
          | some x =>
            cases x with
            | object fields => exact absurd ⟨fields, hx⟩ hnot
            | _ => rfl
        rw [hraw]
        cases key <;> rfl
      obtain ⟨fields, hfields⟩ := hheld
      rw [hfields]
      rfl

/-- A write is refused where it resolves to no place, and otherwise edits its place. -/
theorem run_eq (w : ConfigWrite) (doc : Value) : w.run doc =
    match w.place doc with
    | .error refusal => (doc, refusal)
    | .ok place => place.write (w.edits (place.held doc)) doc := by
  cases w with
  | disabled target value =>
    cases hfind : findAccountEntry doc target with
    | error refusal => simp only [ConfigWrite.run, mergeDisabled, ConfigWrite.place, hfind]
    | ok found =>
      simp only [ConfigWrite.run, ConfigWrite.place, hfind]
      exact merge_disabled_eq value hfind
  | plan target o r s =>
    cases hfind : findAccountEntry doc target with
    | error refusal => simp only [ConfigWrite.run, mergePlan, ConfigWrite.place, hfind]
    | ok found =>
      simp only [ConfigWrite.run, ConfigWrite.place, hfind]
      exact merge_plan_eq o r s hfind
  | membership target group member =>
    cases hfind : findAccountEntry doc target with
    | error refusal => simp only [ConfigWrite.run, mergeGroupMembership, ConfigWrite.place, hfind]
    | ok found =>
      simp only [ConfigWrite.run, ConfigWrite.place, hfind]
      exact merge_group_membership_eq group member hfind
  | groupReserved group _ | groupParked group _ | groupAllowControl group _ | groupColor group _ =>
    exact set_group_setting_eq doc group _ _
  | control target =>
    have hwrite : ∀ desired : Option Value,
        (if doc.get "controlAccount" = desired then (doc, TargetedWrite.unchanged)
          else (doc.setField "controlAccount" desired, .updated)) =
        Place.top.write (ConfigWrite.setUnless id "controlAccount" desired (Place.top.held doc))
          doc := by
      intro desired
      unfold Place.write ConfigWrite.setUnless
      by_cases hheld : doc.get "controlAccount" = desired
      · simp [hheld, Place.held, Place.heldIn, Place.topKey]
      · simp [hheld, Place.held, Place.heldIn, Place.topKey, Place.edit, Place.rewrite,
          Value.overlay]
    cases target with
    | none => exact hwrite none
    | some account =>
      simp only [ConfigWrite.run, mergeControlAccount, ConfigWrite.place]
      split
      · rename_i hmany
        rw [if_pos hmany]
      · rename_i hmany
        rw [if_neg hmany]
        exact hwrite _

end Edits

end TeamClaude
