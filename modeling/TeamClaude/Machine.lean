import Mathlib.Algebra.Order.Ring.Int

/-!
# Machine integers and clocks

The integer conversions the code relies on and its readings of the wall clock. Instants are
nanoseconds since the epoch, in the integers.
-/

namespace TeamClaude

/-- The range of an `i64`. -/
def i64Min : Int := -(2 ^ 63)

def i64Max : Int := 2 ^ 63 - 1

def u32Max : Nat := 2 ^ 32 - 1

/-- `i64::saturating_sub` -/
def saturatingSub (a b : Int) : Int :=
  max i64Min (min i64Max (a - b))

/-- `i64::saturating_add` -/
def saturatingAdd (a b : Int) : Int :=
  max i64Min (min i64Max (a + b))

/-- `i64::saturating_mul` -/
def saturatingMul (a b : Int) : Int :=
  max i64Min (min i64Max (a * b))

/-- `+` on `i64`, as a release build adds. -/
def wrappingAdd (a b : Int) : Int :=
  Int.bmod (a + b) (2 ^ 64)

/-- `x as i64` for a `u64`. -/
def asI64 (x : Nat) : Int :=
  Int.bmod x (2 ^ 64)

/-- `OffsetDateTime`, as nanoseconds since the Unix epoch. -/
abbrev Instant := Int

/-- `odt_to_ms`: the division truncates towards zero. -/
def odtToMs (now : Instant) : Int :=
  now.tdiv 1000000

/-- `OffsetDateTime::unix_timestamp`: whole seconds, rounded down. -/
def unixTimestamp (t : Instant) : Int :=
  t / 1000000000

/-- The seconds an `OffsetDateTime` can name, years -9999 to 9999. -/
def minTimestamp : Int := -377705116800

def maxTimestamp : Int := 253402300799

/-- `OffsetDateTime::from_unix_timestamp` -/
def fromUnixTimestamp (secs : Int) : Option Instant :=
  if minTimestamp ≤ secs ∧ secs ≤ maxTimestamp then some (secs * 1000000000) else none

/-- `OffsetDateTime::from_unix_timestamp_nanos` -/
def fromUnixTimestampNanos (nanos : Int) : Option Instant :=
  if minTimestamp ≤ nanos / 1000000000 ∧ nanos / 1000000000 ≤ maxTimestamp then some nanos else none

def msToOdt (ms : Int) : Option Instant :=
  fromUnixTimestampNanos (ms * 1000000)

theorem odt_to_ms_whole (ms : Int) : odtToMs (ms * 1000000) = ms :=
  Int.mul_tdiv_cancel ms (by decide)

/-- `Iterator::min_by_key` over an `i64` key: the first element of least key. -/
def minByKey {α : Type*} (key : α → Int) : List α → Option α
  | [] => none
  | x :: xs =>
    match minByKey key xs with
    | none => some x
    | some y => if key y < key x then some y else some x

theorem min_by_key_none {α : Type*} {key : α → Int} {l : List α} :
    minByKey key l = none ↔ l = [] := by
  cases l with
  | nil => simp [minByKey]
  | cons a l =>
    simp only [minByKey, reduceCtorEq, iff_false]
    split
    · exact Option.some_ne_none _
    · split <;> exact Option.some_ne_none _

theorem min_by_key_spec {α : Type*} {key : α → Int} {l : List α} {x : α}
    (h : minByKey key l = some x) : x ∈ l ∧ ∀ y ∈ l, key x ≤ key y := by
  induction l generalizing x with
  | nil => cases h
  | cons a l ih =>
    simp only [minByKey] at h
    cases hrest : minByKey key l with
    | none =>
      rw [hrest] at h
      cases h
      refine ⟨List.mem_cons_self, fun y hy => ?_⟩
      rcases List.mem_cons.mp hy with rfl | hy
      · exact le_rfl
      · rw [min_by_key_none.mp hrest] at hy
        cases hy
    | some b =>
      rw [hrest] at h
      obtain ⟨hb, hmin⟩ := ih hrest
      simp only at h
      split at h
      · rename_i hlt
        cases h
        refine ⟨List.mem_cons_of_mem _ hb, fun y hy => ?_⟩
        rcases List.mem_cons.mp hy with rfl | hy
        · exact hlt.le
        · exact hmin y hy
      · rename_i hge
        cases h
        refine ⟨List.mem_cons_self, fun y hy => ?_⟩
        rcases List.mem_cons.mp hy with rfl | hy
        · exact le_rfl
        · exact (not_lt.mp hge).trans (hmin y hy)

/-- `Iterator::max_by_key`: the last element of greatest key. -/
def maxByKey {α κ : Type*} [LinearOrder κ] (key : α → κ) : List α → Option α
  | [] => none
  | x :: xs =>
    match maxByKey key xs with
    | none => some x
    | some y => if key y < key x then some x else some y

section MaxByKey

variable {α κ : Type*} [LinearOrder κ] {key : α → κ}

theorem max_by_key_none {l : List α} : maxByKey key l = none ↔ l = [] := by
  cases l with
  | nil => simp [maxByKey]
  | cons a l =>
    simp only [maxByKey, reduceCtorEq, iff_false]
    split
    · exact Option.some_ne_none _
    · split <;> exact Option.some_ne_none _

theorem max_by_key_spec {l : List α} {x : α} (h : maxByKey key l = some x) :
    x ∈ l ∧ ∀ y ∈ l, key y ≤ key x := by
  induction l generalizing x with
  | nil => cases h
  | cons a l ih =>
    simp only [maxByKey] at h
    cases hrest : maxByKey key l with
    | none =>
      rw [hrest] at h
      cases h
      refine ⟨List.mem_cons_self, fun y hy => ?_⟩
      rw [max_by_key_none.mp hrest] at hy
      obtain rfl := List.mem_singleton.mp hy
      exact le_rfl
    | some b =>
      rw [hrest] at h
      obtain ⟨hb, hmax⟩ := ih hrest
      simp only at h
      split at h
      · rename_i hlt
        cases h
        refine ⟨List.mem_cons_self, fun y hy => ?_⟩
        rcases List.mem_cons.mp hy with rfl | hy
        · exact le_rfl
        · exact (hmax y hy).trans hlt.le
      · rename_i hge
        cases h
        refine ⟨List.mem_cons_of_mem _ hb, fun y hy => ?_⟩
        rcases List.mem_cons.mp hy with rfl | hy
        · exact not_lt.mp hge
        · exact hmax y hy

end MaxByKey

end TeamClaude
