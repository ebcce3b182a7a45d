import Mathlib.Data.List.Basic
import Mathlib.Data.Rat.Lemmas

/-!
# JSON trees

A parsed document and the partial reads a program takes from it: a field of an object, a number
that fits an unsigned word, a string, the elements of an array.
-/

namespace Lib.Json

/-- The three shapes a parsed number has. -/
inductive Number
  | posInt (n : UInt64)
  | negInt (n : Int64)
  | float (bits : UInt64)
  deriving DecidableEq

/-- The nearest `f64` of a whole number, ties to the even one. -/
def roundToF64 (n : Nat) : ℚ :=
  if n < 2 ^ 53 then n
  else
    let unit : Nat := 2 ^ (Nat.log2 n - 52)
    let down : Nat := n / unit
    let up := decide (unit < 2 * (n % unit)) || (decide (unit = 2 * (n % unit)) && down % 2 = 1)
    (((if up then down + 1 else down) * unit : Nat) : ℚ)

/-- The value of the bits of an `f64`, when it is finite. -/
def f64OfBits (bits : UInt64) : Option ℚ :=
  let exponent : Nat := bits.toNat / 2 ^ 52 % 2 ^ 11
  let fraction : Nat := bits.toNat % 2 ^ 52
  let magnitude : ℚ :=
    if exponent = 0 then fraction / 2 ^ 1074
    else if exponent < 1075 then (2 ^ 52 + fraction) / 2 ^ (1075 - exponent)
    else (2 ^ 52 + fraction) * 2 ^ (exponent - 1075)
  if exponent = 2047 then none
  else some (if bits.toNat / 2 ^ 63 = 1 then -magnitude else magnitude)

inductive Value
  | null
  | bool (b : Bool)
  | number (n : Number)
  | string (s : String)
  | array (elems : List Value)
  | object (fields : List (String × Value))

namespace Value

/-- The field `key` of an object; nothing for any other tree. -/
def get (v : Value) (key : String) : Option Value :=
  match v with
  | object fields => (fields.find? fun f => f.1 = key).map Prod.snd
  | _ => none

def asU64 : Value → Option UInt64
  | number (.posInt n) => some n
  | _ => none

def asI64 : Value → Option Int
  | number (.posInt n) => if n.toNat < 2 ^ 63 then some n.toNat else none
  | number (.negInt n) => some n.toInt
  | _ => none

def asF64 : Value → Option ℚ
  | number (.posInt n) => some (roundToF64 n.toNat)
  | number (.negInt n) => some (-roundToF64 n.toInt.natAbs)
  | number (.float bits) => f64OfBits bits
  | _ => none

def asBool : Value → Option Bool
  | bool b => some b
  | _ => none

def asStr : Value → Option String
  | string s => some s
  | _ => none

def asArray : Value → Option (List Value)
  | array elems => some elems
  | _ => none

def isObject : Value → Bool
  | object _ => true
  | _ => false

def isNull : Value → Bool
  | null => true
  | _ => false

/-- The field `key`, when it holds a string. -/
def str (v : Value) (key : String) : Option String :=
  (v.get key).bind asStr

/-- The field `key`, when it holds an unsigned 64-bit number. -/
def u64 (v : Value) (key : String) : Option UInt64 :=
  (v.get key).bind asU64

theorem str_congr {v w : Value} {key : String} (h : v.get key = w.get key) :
    v.str key = w.str key := by
  simp only [str, h]

theorem get_object_of_mem {fields : List (String × Value)} {key : String} {v : Value}
    (hkeys : (fields.map Prod.fst).Nodup) (h : (key, v) ∈ fields) :
    (object fields).get key = some v := by
  induction fields with
  | nil => cases h
  | cons f fs ih =>
    rw [List.map_cons, List.nodup_cons] at hkeys
    rcases List.mem_cons.mp h with rfl | h
    · simp [get]
    · have hne : f.1 ≠ key := by
        rintro rfl
        exact hkeys.1 (List.mem_map.mpr ⟨_, h, rfl⟩)
      have hrest := ih hkeys.2 h
      simpa [get, hne] using hrest

/-! ## Editing an object -/

/-- `Map::insert` on an object: the field takes the place of any other of its key. -/
def insert (v : Value) (key : String) (x : Value) : Value :=
  match v with
  | object fields => object ((key, x) :: fields.filter fun f => f.1 ≠ key)
  | other => other

/-- `Map::remove` on an object. -/
def remove (v : Value) (key : String) : Value :=
  match v with
  | object fields => object (fields.filter fun f => f.1 ≠ key)
  | other => other

/-- `Map::extend` on an object. -/
def extend (v : Value) (fields : List (String × Value)) : Value :=
  fields.foldl (fun v f => v.insert f.1 f.2) v

/-- The number an `i64` is written as. -/
def ofI64 (n : Int64) : Value :=
  .number (if 0 ≤ n then .posInt n.toUInt64 else .negInt n)

/-- The `i64` a number is read as. -/
def toI64 : Value → Option Int64
  | number (.posInt n) => if n.toNat < 2 ^ 63 then some n.toInt64 else none
  | number (.negInt n) => some n
  | _ => none

theorem to_i64_of_i64 (n : Int64) : (ofI64 n).toI64 = some n := by
  unfold ofI64
  split
  · rename_i hn
    have hlt : n.toUInt64.toNat < 2 ^ 63 := by
      rw [Int64.toNat_toUInt64_of_le hn, Int64.toNatClampNeg]
      have htop := n.toInt_lt
      omega
    rw [toI64, if_pos hlt, Int64.toInt64_toUInt64]
  · rfl

section Edit

variable {v x : Value} {key other : String}

@[simp] theorem is_object_insert : (v.insert key x).isObject = v.isObject := by
  cases v <;> rfl

@[simp] theorem is_object_remove : (v.remove key).isObject = v.isObject := by
  cases v <;> rfl

@[simp] theorem is_object_extend {fields : List (String × Value)} :
    (v.extend fields).isObject = v.isObject := by
  induction fields generalizing v with
  | nil => rfl
  | cons f fields ih => exact ih.trans is_object_insert

theorem get_remove : (v.remove key).get other = if other = key then none else v.get other := by
  cases v with
  | object fields =>
    show (((fields.filter fun f => f.1 ≠ key).find? fun f => f.1 = other).map Prod.snd) = _
    rw [List.find?_filter]
    split
    · rename_i ho
      subst ho
      rw [List.find?_eq_none.mpr (by simp)]
      rfl
    · rename_i ho
      show _ = (fields.find? fun f => f.1 = other).map Prod.snd
      congr 2
      funext f
      by_cases hf : f.1 = other <;> simp [hf, ho]
  | _ => simp [remove, get]

theorem get_insert (hv : v.isObject = true) :
    (v.insert key x).get other = if other = key then some x else v.get other := by
  cases v with
  | object fields =>
    have hrest : ((object fields).remove key).get other =
        ((fields.filter fun f => f.1 ≠ key).find? fun f => f.1 = other).map Prod.snd := rfl
    rw [get_remove] at hrest
    show (((key, x) :: fields.filter fun f => f.1 ≠ key).find? fun f => f.1 = other).map Prod.snd = _
    split at hrest
    · rename_i ho
      rw [if_pos ho, List.find?_cons_of_pos (by simp [ho])]
      rfl
    · rename_i ho
      rw [if_neg ho, List.find?_cons_of_neg (by simpa using Ne.symm ho), ← hrest]
  | _ => cases hv

/-- A field that the new fields do not name is what it was. -/
theorem get_extend_of_not_mem {fields : List (String × Value)} (hv : v.isObject = true)
    (h : other ∉ fields.map Prod.fst) : (v.extend fields).get other = v.get other := by
  induction fields generalizing v with
  | nil => rfl
  | cons f fields ih =>
    rw [List.map_cons, List.mem_cons, not_or] at h
    show ((v.insert f.1 f.2).extend fields).get other = _
    rw [ih (by simpa using hv) h.2, get_insert hv, if_neg h.1]

end Edit

end Value

end Lib.Json
