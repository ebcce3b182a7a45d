import Mathlib.Data.Nat.Notation
import Mathlib.Tactic.IntervalCases

/-!
# Numbers as digits

A number at the front of a text, read as far as its digits go, and the digits a number is written
with: what is written is read back when no further digit follows.
-/

namespace Lib

def toDigit (radix : Nat) (c : Char) : Option Nat :=
  let digit :=
    if '0' ≤ c ∧ c ≤ '9' then c.toNat - '0'.toNat
    else if 'a' ≤ c ∧ c ≤ 'z' then c.toNat - 'a'.toNat + 10
    else if 'A' ≤ c ∧ c ≤ 'Z' then c.toNat - 'A'.toNat + 10
    else radix
  if digit < radix then some digit else none

/-- The digits at the front of a text, and what follows them. -/
def readDigits (radix : Nat) : List Char → List Nat × List Char
  | [] => ([], [])
  | c :: text =>
    match toDigit radix c with
    | none => ([], c :: text)
    | some digit => (digit :: (readDigits radix text).1, (readDigits radix text).2)

def ofDigits (radix : Nat) (digits : List Nat) : Nat :=
  digits.foldl (fun n digit => radix * n + digit) 0

/-- A number below a bound, of at most so many digits where there is a limit, with no zero in front
of others where that is not allowed. -/
def readNumber (radix : Nat) (maxDigits : Option Nat) (allowZeroFront : Bool) (bound : Nat)
    (text : List Char) : Option (Nat × List Char) :=
  let (digits, rest) := readDigits radix text
  if maxDigits.any (· < digits.length) then none
  else if digits = [] then none
  else if allowZeroFront = false ∧ text.head? = some '0' ∧ 1 < digits.length then none
  else if ofDigits radix digits < bound then some (ofDigits radix digits, rest)
  else none

def readGivenChar (c : Char) : List Char → Option (List Char)
  | [] => none
  | first :: text => if first = c then some text else none

theorem to_digit_digit_char {radix digit : Nat} (h : digit < radix) (hradix : radix ≤ 16) :
    toDigit radix digit.digitChar = some digit := by
  have hlt : digit < 16 := h.trans_le hradix
  unfold toDigit
  interval_cases digit <;> exact if_pos h

/-- A number in digits is read as itself. -/
theorem to_digits_digits {radix : Nat} (hradix : 1 < radix) (n : Nat) :
    ∃ digits, Nat.toDigits radix n = digits.map Nat.digitChar ∧ (∀ d ∈ digits, d < radix) ∧
      ofDigits radix digits = n ∧ (digits.head? = some 0 → n = 0) := by
  induction n using Nat.strongRecOn with
  | _ n ih =>
    rcases Nat.lt_or_ge n radix with hn | hn
    · refine ⟨[n], Nat.toDigits_of_lt_base hn, ?_, ?_, Option.some.inj⟩
      · intro d hd
        rw [List.mem_singleton.mp hd]
        exact hn
      · show radix * 0 + n = n
        rw [Nat.mul_zero, Nat.zero_add]
    · obtain ⟨digits, hdigits, hlt, hvalue, hhead⟩ := ih (n / radix)
        (Nat.div_lt_self (by omega) hradix)
      have hmod := Nat.mod_lt n (show 0 < radix by omega)
      refine ⟨digits ++ [n % radix], ?_, ?_, ?_, ?_⟩
      · rw [Nat.toDigits_of_base_le hradix hn, hdigits, List.map_append]
        rfl
      · intro d hd
        rcases List.mem_append.mp hd with hd | hd
        · exact hlt d hd
        · rw [List.mem_singleton.mp hd]
          exact hmod
      · rw [ofDigits, List.foldl_append]
        rw [ofDigits] at hvalue
        show radix * _ + n % radix = n
        rw [hvalue, Nat.div_add_mod]
      · intro hzero
        have hne : digits ≠ [] := by
          rintro rfl
          exact Nat.toDigits_ne_nil hdigits
        obtain ⟨d, more, rfl⟩ := List.exists_cons_of_ne_nil hne
        have hquot := Nat.div_eq_zero_iff.mp (hhead hzero)
        omega

/-- The text behind a number ends it. -/
def EndsDigits (radix : Nat) (rest : List Char) : Prop :=
  ∀ c more, rest = c :: more → toDigit radix c = none

theorem read_digits_map {radix : Nat} {digits : List Nat} {rest : List Char}
    (hradix : radix ≤ 16) (hdigits : ∀ d ∈ digits, d < radix) (hrest : EndsDigits radix rest) :
    readDigits radix (digits.map Nat.digitChar ++ rest) = (digits, rest) := by
  induction digits with
  | nil =>
    cases rest with
    | nil => rfl
    | cons c more => simp only [List.map_nil, List.nil_append, readDigits, hrest c more rfl]
  | cons d digits ih =>
    have hrec := ih fun e he => hdigits e (List.mem_cons_of_mem d he)
    simp only [List.map_cons, List.cons_append, readDigits,
      to_digit_digit_char (hdigits d List.mem_cons_self) hradix, hrec]

/-- Only digits are written, so what is none of them stands in no number. -/
theorem not_mem_to_digits {radix n : Nat} {c : Char} (hone : 1 < radix) (hradix : radix ≤ 16)
    (hc : toDigit radix c = none) : c ∉ Nat.toDigits radix n := by
  obtain ⟨digits, hdigits, hlt, -, -⟩ := to_digits_digits hone n
  rw [hdigits]
  intro hmem
  obtain ⟨d, hd, rfl⟩ := List.mem_map.mp hmem
  rw [to_digit_digit_char (hlt d hd) hradix] at hc
  cases hc

theorem to_digits_inj {radix n m : Nat} (hone : 1 < radix) (hradix : radix ≤ 16)
    (h : Nat.toDigits radix n = Nat.toDigits radix m) : n = m := by
  have hread : ∀ k, ofDigits radix (readDigits radix (Nat.toDigits radix k)).1 = k := by
    intro k
    obtain ⟨digits, hdigits, hlt, hvalue, -⟩ := to_digits_digits hone k
    have hall : readDigits radix (digits.map Nat.digitChar ++ []) = (digits, []) :=
      read_digits_map hradix hlt nofun
    rw [List.append_nil] at hall
    rw [hdigits, hall, hvalue]
  rw [← hread n, h, hread m]

/-- A number that fits the bound and the limit on its digits is read back. -/
theorem read_number_to_digits {radix n bound : Nat} {maxDigits : Option Nat}
    {allowZeroFront : Bool} {rest : List Char} (hone : 1 < radix) (hradix : radix ≤ 16)
    (hlen : ∀ limit ∈ maxDigits, n < radix ^ limit ∧ 0 < limit) (hbound : n < bound)
    (hrest : EndsDigits radix rest) :
    readNumber radix maxDigits allowZeroFront bound (Nat.toDigits radix n ++ rest) =
      some (n, rest) := by
  obtain ⟨digits, hdigits, hlt, hvalue, hzero⟩ := to_digits_digits hone n
  have hread := read_digits_map hradix hlt hrest
  have hcount : (Nat.toDigits radix n).length = digits.length := by
    rw [hdigits, List.length_map]
  have hne : digits ≠ [] := by
    rintro rfl
    exact Nat.toDigits_ne_nil hdigits
  have hmax : ¬maxDigits.any (· < digits.length) = true := by
    cases hm : maxDigits with
    | none => exact Bool.false_ne_true
    | some limit =>
      obtain ⟨hpow, hpos⟩ := hlen limit hm
      have hle := (Nat.length_toDigits_le_iff hone hpos).mpr hpow
      rw [hcount] at hle
      simpa using hle
  have hfront : ¬(allowZeroFront = false ∧
      (Nat.toDigits radix n ++ rest).head? = some '0' ∧ 1 < digits.length) := by
    rintro ⟨-, hhead, hmany⟩
    obtain ⟨d, more, rfl⟩ := List.exists_cons_of_ne_nil hne
    rw [hdigits] at hhead
    have hchar : d.digitChar = '0' := Option.some.inj hhead
    have hd := to_digit_digit_char (hlt d List.mem_cons_self) hradix
    rw [hchar] at hd
    have hd0 : d = 0 := by
      have h0 := to_digit_digit_char (show 0 < radix by omega) hradix
      exact Option.some.inj (hd.symm.trans h0)
    rw [hzero (congrArg some hd0), Nat.toDigits_zero] at hcount
    rw [← hcount] at hmany
    exact absurd hmany (by decide)
  unfold readNumber
  rw [hdigits] at hfront ⊢
  simp only [hread, if_neg hmax, if_neg hne, if_neg hfront, hvalue, if_pos hbound]

end Lib
