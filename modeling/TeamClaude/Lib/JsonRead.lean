import TeamClaude.Lib.Json

/-!
# Reading a document along paths

Two documents are equal when every path reads the same in both: the order in which an object holds
its fields is not part of it.
-/

namespace Lib.Json

inductive Step
  | key (name : String)
  | index (i : Nat)
  deriving DecidableEq

/-- What stands at the end of a path; a container by its kind and an array also by its length. -/
inductive Leaf
  | null
  | bool (b : Bool)
  | number (n : Number)
  | string (s : String)
  | array (length : Nat)
  | object
  deriving DecidableEq

namespace Value

def leaf : Value → Leaf
  | null => .null
  | bool b => .bool b
  | number n => .number n
  | string s => .string s
  | array elems => .array elems.length
  | object _ => .object

/-- The tree one step down. -/
def child (v : Value) : Step → Option Value
  | .key name => v.get name
  | .index i => v.asArray.bind fun elems => elems[i]?

/-- What stands at the end of a path, if it leads anywhere. -/
def read (v : Value) : List Step → Option Leaf
  | [] => some v.leaf
  | step :: path =>
    match v.child step with
    | none => none
    | some w => w.read path

/-- `serde_json`'s equality. -/
def Same (v w : Value) : Prop :=
  v.read = w.read

variable {v w x : Value} {fields : List (String × Value)} {elems elems' : List Value}
  {key name : String} {i : Nat} {path : List Step}

theorem Same.refl (v : Value) : Same v v :=
  rfl

theorem read_cons (step : Step) : v.read (step :: path) = ((v.child step).map read).bind (· path) := by
  rw [read]
  cases v.child step <;> rfl

theorem read_key (name : String) :
    v.read (.key name :: path) = ((v.get name).map read).bind (· path) :=
  read_cons _

theorem object_leaf (hv : v.isObject = true) : v.leaf = .object := by
  cases v with
  | object fields => rfl
  | _ => cases hv

theorem object_index (hv : v.isObject = true) (i : Nat) : v.child (.index i) = none := by
  cases v with
  | object fields => rfl
  | _ => cases hv

theorem same_object (hv : v.isObject = true) (hw : w.isObject = true)
    (h : ∀ name, (v.get name).map read = (w.get name).map read) : Same v w := by
  funext path
  cases path with
  | nil => rw [read, read, object_leaf hv, object_leaf hw]
  | cons step path =>
    cases step with
    | key name => rw [read_key, read_key, h]
    | index i => rw [read_cons, read_cons, object_index hv, object_index hw]

theorem same_array (h : elems.map read = elems'.map read) : Same (array elems) (array elems') := by
  have hget : ∀ i, (elems[i]?).map read = (elems'[i]?).map read := fun i => by
    rw [← List.getElem?_map, ← List.getElem?_map, h]
  funext path
  cases path with
  | nil =>
    have hlen : elems.length = elems'.length := by simpa using congrArg List.length h
    rw [read, read, leaf, leaf, hlen]
  | cons step path =>
    cases step with
    | key name => rw [read_key, read_key]; rfl
    | index i =>
      rw [read_cons, read_cons]
      exact congrArg (fun r => Option.bind r fun f => f path) (hget i)

/-- Fields of documents that are the same read the same. -/
theorem Same.get (h : Same v w) (name : String) : (v.get name).map read = (w.get name).map read := by
  have hpath : ∀ path, ((v.get name).map read).bind (· path) = ((w.get name).map read).bind (· path) :=
    fun path => by rw [← read_key, ← read_key, h]
  cases hv : v.get name with
  | none =>
    cases hw : w.get name with
    | none => rfl
    | some y =>
      have hroot := hpath []
      rw [hv, hw] at hroot
      simp [read] at hroot
  | some x =>
    cases hw : w.get name with
    | none =>
      have hroot := hpath []
      rw [hv, hw] at hroot
      simp [read] at hroot
    | some y =>
      refine congrArg some (funext fun path => ?_)
      have hall := hpath path
      rw [hv, hw] at hall
      exact hall

/-! ## Setting and dropping a field -/

def setField (v : Value) (key : String) : Option Value → Value
  | some x => v.insert key x
  | none => v.remove key

@[simp] theorem is_object_set_field (v : Value) (key : String) (x : Option Value) :
    (v.setField key x).isObject = v.isObject := by
  cases x with
  | none => exact is_object_remove
  | some x => exact is_object_insert

theorem get_set_field (hv : v.isObject = true) (key : String) (x : Option Value) (name : String) :
    (v.setField key x).get name = if name = key then x else v.get name := by
  cases x with
  | none => exact get_remove
  | some x => exact get_insert hv

/-- A path that does not start with the field reads as it did. -/
theorem read_set_field (hv : v.isObject = true) (x : Option Value)
    (hpath : ¬ [Step.key key] <+: path) : (v.setField key x).read path = v.read path := by
  have hset : (v.setField key x).isObject = true := by rwa [is_object_set_field]
  cases path with
  | nil => rw [read, read, object_leaf hset, object_leaf hv]
  | cons step path =>
    cases step with
    | key name =>
      have hname : name ≠ key := by
        rintro rfl
        exact hpath (by simp)
      rw [read_key, read_key, get_set_field hv, if_neg hname]
    | index i => rw [read_cons, read_cons, object_index hset, object_index hv]

end Value

end Lib.Json
