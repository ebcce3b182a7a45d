import TeamClaude.Lib.BaseCode
import TeamClaude.Lib.Slices
import Mathlib.Data.List.DropRight
import Mathlib.Tactic.IntervalCases

/-!
# Base64

One decoder for two alphabets. It shifts a 32-bit accumulator left by six with every character and
never masks it; only its lowest bits, fewer than eight, are still to be written.
-/

namespace TeamClaude

open Lib

def sextet (sixtyTwo sixtyThree b : UInt8) : Option UInt8 :=
  if 'A'.toUInt8 ≤ b ∧ b ≤ 'Z'.toUInt8 then some (b - 'A'.toUInt8)
  else if 'a'.toUInt8 ≤ b ∧ b ≤ 'z'.toUInt8 then some (b - 'a'.toUInt8 + 26)
  else if '0'.toUInt8 ≤ b ∧ b ≤ '9'.toUInt8 then some (b - '0'.toUInt8 + 52)
  else if b = sixtyTwo then some 62
  else if b = sixtyThree then some 63
  else none

structure SextetLoop where
  out : List UInt8 := []
  acc : UInt32 := 0
  bits : UInt32 := 0

namespace SextetLoop

def push (s : SextetLoop) (v : UInt32) : SextetLoop :=
  let acc := (s.acc <<< 6) ||| v
  let bits := s.bits + 6
  if 8 ≤ bits then
    { out := s.out ++ [((acc >>> (bits - 8)) &&& 0xff).toUInt8], acc, bits := bits - 8 }
  else { s with acc, bits }

/-- The bytes written and the live bits of the accumulator are the bits read. -/
structure Holds (s : SextetLoop) (sextets : List Nat) : Prop where
  bits_lt : s.bits.toNat < 8
  spelled : octetBits s.out ++ toBits s.bits.toNat s.acc.toNat = ungroup 6 sextets

theorem shift_in (acc v : UInt32) (hv : v.toNat < 64) :
    ((acc <<< 6) ||| v).toNat = 64 * (acc.toNat % 2 ^ 26) + v.toNat := by
  have hshift : (acc <<< 6).toNat = 2 ^ 6 * (acc.toNat % 2 ^ 26) := by
    rw [UInt32.toNat_shiftLeft, Nat.shiftLeft_eq]
    change acc.toNat * 2 ^ 6 % 2 ^ 32 = _
    omega
  rw [UInt32.toNat_or, hshift, ← Nat.two_pow_add_eq_or_of_lt (i := 6) hv]

theorem shift_out (acc low : UInt32) (hlow : low.toNat < 32) :
    ((acc >>> low) &&& 0xff).toUInt8.toNat = acc.toNat / 2 ^ low.toNat % 2 ^ 8 := by
  have hand : ((acc >>> low) &&& 0xff).toNat = acc.toNat / 2 ^ low.toNat % 2 ^ 8 := by
    rw [UInt32.toNat_and, UInt32.toNat_shiftRight, Nat.mod_eq_of_lt hlow,
      Nat.shiftRight_eq_div_pow]
    exact Nat.and_two_pow_sub_one_eq_mod _ 8
  rw [UInt32.toNat_toUInt8, hand, Nat.mod_mod]

theorem Holds.push {s : SextetLoop} {sextets : List Nat} (h : s.Holds sextets) {v : UInt32}
    (hv : v.toNat < 64) : (s.push v).Holds (sextets ++ [v.toNat]) := by
  have hlt := h.bits_lt
  have hacc := shift_in s.acc v hv
  have hbits : (s.bits + 6).toNat = s.bits.toNat + 6 := by
    rw [UInt32.toNat_add]
    change (s.bits.toNat + 6) % 2 ^ 32 = _
    omega
  -- the live bits and the new ones are the lowest of the shifted accumulator
  have hlive : octetBits s.out ++ toBits (s.bits.toNat + 6) ((s.acc <<< 6) ||| v).toNat =
      ungroup 6 (sextets ++ [v.toNat]) := by
    have hhigh : (64 * (s.acc.toNat % 2 ^ 26) + v.toNat) / 2 ^ 6 = s.acc.toNat % 2 ^ 26 := by omega
    have hlow : (64 * (s.acc.toNat % 2 ^ 26) + v.toNat) % 2 ^ 6 = v.toNat % 2 ^ 6 := by omega
    rw [hacc, to_bits_add, hhigh, to_bits_mod (by omega), ← to_bits_mod (le_refl 6), hlow,
      to_bits_mod (le_refl 6), ← List.append_assoc, h.spelled, ungroup, ungroup,
      List.flatMap_append, List.flatMap_singleton]
  unfold SextetLoop.push
  dsimp only
  split
  · rename_i hfull
    have hge : 8 ≤ s.bits.toNat + 6 := by
      rw [← hbits]
      exact UInt32.le_iff_toNat_le.mp hfull
    have hleft : (s.bits + 6 - 8).toNat = s.bits.toNat - 2 := by
      rw [UInt32.toNat_sub_of_le _ _ hfull, hbits]
      change s.bits.toNat + 6 - 8 = _
      omega
    refine ⟨by rw [hleft]; omega, ?_⟩
    have hbyte := shift_out ((s.acc <<< 6) ||| v) (s.bits + 6 - 8) (by rw [hleft]; omega)
    have hsplit : s.bits.toNat + 6 = 8 + (s.bits.toNat - 2) := by omega
    rw [hsplit, to_bits_add, ← to_bits_mod (le_refl 8), ← List.append_assoc] at hlive
    rw [hleft] at hbyte ⊢
    rw [octet_bits_append, octetBits, octetBits, List.map_singleton, hbyte]
    simpa [ungroup, octetBits] using hlive
  · rename_i hfull
    have hlt' : s.bits.toNat + 6 < 8 := by
      rw [← hbits]
      exact Nat.lt_of_not_le fun hle => hfull (UInt32.le_iff_toNat_le.mpr hle)
    exact ⟨by rw [hbits]; omega, by rw [hbits]; exact hlive⟩

end SextetLoop

def base64DecodeWith (s : String) (sixtyTwo sixtyThree : UInt8) : Option (List UInt8) :=
  let bytes := (s.toList.rdropWhile (· = '=')).flatMap String.utf8EncodeChar
  let loop := bytes.foldlM (fun (loop : SextetLoop) b =>
    (sextet sixtyTwo sixtyThree b).map fun v => loop.push v.toUInt32) {}
  loop.bind fun loop => if bytes.length % 4 = 1 then none else some loop.out

def base64urlDecode (s : String) : Option (List UInt8) :=
  base64DecodeWith s '-'.toUInt8 '_'.toUInt8

def base64StandardDecode (s : String) : Option (List UInt8) :=
  base64DecodeWith s '+'.toUInt8 '/'.toUInt8

example : base64urlDecode "Zm9vYmE=" = some [102, 111, 111, 98, 97] := by decide +kernel

/-! ## The two alphabets -/

inductive Base64
  | urlSafe
  | standard
  deriving DecidableEq

namespace Base64

/-- The characters for 62 and 63. -/
def marks : Base64 → Char × Char
  | urlSafe => ('-', '_')
  | standard => ('+', '/')

def decode : Base64 → String → Option (List UInt8)
  | urlSafe => base64urlDecode
  | standard => base64StandardDecode

/-- The table of the alphabet. -/
def symbols (k : Base64) : List Char :=
  "ABCDEFGHIJKLMNOPQRSTUVWXYZabcdefghijklmnopqrstuvwxyz0123456789".toList ++ [k.marks.1, k.marks.2]

def symbol (k : Base64) (n : Nat) : Char :=
  k.symbols.getD n 'A'

def value (k : Base64) (c : Char) : Option Nat :=
  k.symbols.idxOf? c

theorem letters_listed :
    "ABCDEFGHIJKLMNOPQRSTUVWXYZabcdefghijklmnopqrstuvwxyz0123456789".toList =
      ['A', 'B', 'C', 'D', 'E', 'F', 'G', 'H', 'I', 'J', 'K', 'L', 'M', 'N', 'O', 'P', 'Q', 'R', 'S',
        'T', 'U', 'V', 'W', 'X', 'Y', 'Z', 'a', 'b', 'c', 'd', 'e', 'f', 'g', 'h', 'i', 'j', 'k',
        'l', 'm', 'n', 'o', 'p', 'q', 'r', 's', 't', 'u', 'v', 'w', 'x', 'y', 'z', '0', '1', '2',
        '3', '4', '5', '6', '7', '8', '9'] :=
  @String.toList_ofList _

/-- The code points of the table, the marks last. -/
theorem codes_listed (k : Base64) : k.symbols.map Char.toNat =
    List.range' 65 26 ++ List.range' 97 26 ++ List.range' 48 10 ++
      [k.marks.1.toNat, k.marks.2.toNat] := by
  unfold symbols
  rw [letters_listed]
  rfl

theorem find_in_range (first count n : Nat) : (List.range' first count).findIdx? (· == n) =
    if first ≤ n ∧ n < first + count then some (n - first) else none := by
  induction count generalizing first with
  | zero => rw [if_neg (by omega)]; rfl
  | succ count ih =>
    rw [List.range'_succ, List.findIdx?_cons, ih]
    by_cases hn : first = n
    · rw [if_pos (beq_iff_eq.mpr hn), if_pos (by omega), hn, Nat.sub_self]
    · rw [if_neg (by simpa using hn)]
      by_cases hin : first + 1 ≤ n ∧ n < first + 1 + count
      · rw [if_pos hin, if_pos (by omega), Option.map_some]
        congr 1
        omega
      · rw [if_neg hin, if_neg (by omega), Option.map_none]

/-- What a code point stands for, under the code points of the two marks. -/
def codeValue (sixtyTwo sixtyThree n : Nat) : Option Nat :=
  if 65 ≤ n ∧ n < 91 then some (n - 65)
  else if 97 ≤ n ∧ n < 123 then some (n - 97 + 26)
  else if 48 ≤ n ∧ n < 58 then some (n - 48 + 52)
  else if sixtyTwo = n then some 62
  else if sixtyThree = n then some 63
  else none

theorem value_of_nat (k : Base64) {n : Nat} (hn : n < 128) :
    k.value (Char.ofNat n) = codeValue k.marks.1.toNat k.marks.2.toNat n := by
  have hcode : (Char.ofNat n).toNat = n := by
    rw [Char.ofNat, dif_pos (Or.inl (by omega))]
    rfl
  have hfind : k.value (Char.ofNat n) = (k.symbols.map Char.toNat).findIdx? (· == n) := by
    unfold value
    rw [List.idxOf?, List.findIdx?_map]
    congr 1
    funext c
    rw [Function.comp_apply, Bool.eq_iff_iff, beq_iff_eq, beq_iff_eq, ← Char.toNat_inj, hcode]
  rw [hfind, codes_listed, codeValue]
  simp only [List.findIdx?_append, find_in_range, List.findIdx?_cons, List.findIdx?_nil,
    List.length_append, List.length_range', beq_iff_eq]
  split_ifs <;> simp

theorem sextet_of_nat (sixtyTwo sixtyThree : UInt8) {n : Nat} (hn : n < 128) :
    (sextet sixtyTwo sixtyThree n.toUInt8).map UInt8.toNat =
      codeValue sixtyTwo.toNat sixtyThree.toNat n := by
  have hb : n.toUInt8.toNat = n := Nat.mod_eq_of_lt (by omega)
  have hrange : ∀ first last : UInt8,
      (first ≤ n.toUInt8 ∧ n.toUInt8 ≤ last) = (first.toNat ≤ n ∧ n < last.toNat + 1) := by
    intro first last
    rw [UInt8.le_iff_toNat_le, UInt8.le_iff_toNat_le, hb, Nat.lt_succ_iff]
  have hmark : ∀ mark : UInt8, (n.toUInt8 = mark) = (mark.toNat = n) := by
    intro mark
    rw [← UInt8.toNat_inj, hb, @eq_comm Nat n]
  have hoffset : ∀ first base : UInt8, first.toNat ≤ n → base.toNat + n < 256 →
      (n.toUInt8 - first + base).toNat = n - first.toNat + base.toNat := by
    intro first base hle hlt
    rw [UInt8.toNat_add, UInt8.toNat_sub_of_le _ _ (by rwa [UInt8.le_iff_toNat_le, hb]), hb]
    exact Nat.mod_eq_of_lt (by omega)
  have hplain : ∀ first : UInt8, first.toNat ≤ n → (n.toUInt8 - first).toNat = n - first.toNat := by
    intro first hle
    rw [UInt8.toNat_sub_of_le _ _ (by rwa [UInt8.le_iff_toNat_le, hb]), hb]
  unfold sextet codeValue
  simp only [hrange, hmark]
  change Option.map _ (if 65 ≤ n ∧ n < 91 then _ else if 97 ≤ n ∧ n < 123 then _
    else if 48 ≤ n ∧ n < 58 then _ else _) = _
  split_ifs with hu hl hd h62 h63
  · exact congrArg some (hplain _ hu.1)
  · exact congrArg some (hoffset _ _ hl.1 (show 26 + n < 256 by omega))
  · exact congrArg some (hoffset _ _ hd.1 (show 52 + n < 256 by omega))
  · rfl
  · rfl
  · rfl

/-- The byte of an ASCII character is read as the table has it. -/
theorem sextet_ascii (k : Base64) {n : Nat} (hn : n < 128) :
    (sextet k.marks.1.toUInt8 k.marks.2.toUInt8 n.toUInt8).map UInt8.toNat =
      k.value (Char.ofNat n) := by
  rw [sextet_of_nat _ _ hn, k.value_of_nat hn]
  cases k <;> rfl

theorem sextet_not_ascii (k : Base64) {b : UInt8} (hb : 128 ≤ b.toNat) :
    sextet k.marks.1.toUInt8 k.marks.2.toUInt8 b = none := by
  have hrange : ∀ {first last : UInt8}, last.toNat < 128 → ¬ (first ≤ b ∧ b ≤ last) :=
    fun hlast h => Nat.not_lt.mpr (hb.trans (UInt8.le_iff_toNat_le.mp h.2)) hlast
  have hmark : ∀ {mark : UInt8}, mark.toNat < 128 → b ≠ mark := by
    rintro mark hmark rfl
    exact Nat.not_lt.mpr hb hmark
  have hmarks : k.marks.1.toUInt8.toNat < 128 ∧ k.marks.2.toUInt8.toNat < 128 := by
    cases k <;> decide
  rw [sextet, if_neg (hrange (by decide)), if_neg (hrange (by decide)),
    if_neg (hrange (by decide)), if_neg (hmark hmarks.1), if_neg (hmark hmarks.2)]

theorem symbols_ascii (k : Base64) : ∀ c ∈ k.symbols, c.toNat < 128 := by
  intro c hc
  have hcode : c.toNat ∈ k.symbols.map Char.toNat := List.mem_map_of_mem hc
  rw [codes_listed] at hcode
  revert hcode
  generalize c.toNat = n
  revert n
  cases k <;> exact forall_mem_of_all (by decide +kernel)

theorem symbols_length (k : Base64) : k.symbols.length = 64 := by
  rw [← List.length_map Char.toNat, codes_listed]
  rfl

theorem values_listed (k : Base64) : k.symbols.map k.value = (List.range 64).map some := by
  have hcodes : k.symbols.map k.value =
      (k.symbols.map Char.toNat).map (codeValue k.marks.1.toNat k.marks.2.toNat) := by
    rw [List.map_map]
    refine List.map_congr_left fun c hc => ?_
    rw [Function.comp_apply, ← k.value_of_nat (k.symbols_ascii c hc), Char.ofNat_toNat]
  rw [hcodes, codes_listed]
  cases k <;> rfl

theorem value_symbol (k : Base64) {n : Nat} (hn : n < 64) : k.value (k.symbol n) = some n := by
  have hlt : n < k.symbols.length := by rwa [symbols_length]
  have hget : k.symbol n = k.symbols[n] := by
    rw [symbol, List.getD_eq_getElem?_getD, List.getElem?_eq_getElem hlt, Option.getD_some]
  have hvalues := congrArg (·[n]?) k.values_listed
  simp only [List.getElem?_map, List.getElem?_eq_getElem hlt, List.getElem?_range hn,
    Option.map_some, Option.some.injEq] at hvalues
  rw [hget, hvalues]

theorem symbol_value {k : Base64} {c : Char} {n : Nat} (h : k.value c = some n) :
    n < 64 ∧ k.symbol n = c := by
  obtain ⟨hlt, hget, -⟩ := List.idxOf?_eq_some_iff.mp h
  refine ⟨k.symbols_length ▸ hlt, ?_⟩
  rw [symbol, List.getD_eq_getElem?_getD, List.getElem?_eq_getElem hlt, hget, Option.getD_some]

/-- RFC 4648: six bits a character, zeros behind the last byte, without padding. -/
def alphabet (k : Base64) : Alphabet where
  width := 6
  symbol := k.symbol
  value := k.value
  fold := id
  width_pos := by decide
  width_le := by decide
  value_symbol _ hn := k.value_symbol hn
  symbol_value _ _ h := symbol_value h
  value_fold _ := rfl

def encode (k : Base64) (x : List UInt8) : List Char :=
  k.alphabet.encode x

def encodePadded (k : Base64) (x : List UInt8) : List Char :=
  k.encode x ++ List.replicate ((4 - (k.encode x).length % 4) % 4) '='

/-! ## The decoder reads sextets -/

/-- A character outside ASCII starts with a byte outside it. -/
theorem utf8_first {c : Char} (h : 128 ≤ c.toNat) :
    ∃ b rest, String.utf8EncodeChar c = b :: rest ∧ 128 ≤ b.toNat := by
  unfold String.utf8EncodeChar
  dsimp only
  change 128 ≤ c.val.toNat at h
  split
  · omega
  split
  · exact ⟨_, _, rfl, by rw [UInt8.toNat_ofNat']; omega⟩
  split
  · exact ⟨_, _, rfl, by rw [UInt8.toNat_ofNat']; omega⟩
  · exact ⟨_, _, rfl, by rw [UInt8.toNat_ofNat']; omega⟩

/-- The bytes of a character: its value's, or a first one outside the alphabet. -/
theorem utf8_char (k : Base64) (c : Char) :
    (∃ b, String.utf8EncodeChar c = [b] ∧
      (sextet k.marks.1.toUInt8 k.marks.2.toUInt8 b).map UInt8.toNat = k.value c) ∨
    (k.value c = none ∧ ∃ b rest, String.utf8EncodeChar c = b :: rest ∧
      sextet k.marks.1.toUInt8 k.marks.2.toUInt8 b = none) := by
  by_cases hascii : c.toNat < 128
  · left
    refine ⟨UInt8.ofNat c.toNat, ?_, ?_⟩
    · exact if_pos (Nat.le_of_lt_succ hascii)
    · have hread := k.sextet_ascii hascii
      rwa [Char.ofNat_toNat] at hread
  · right
    have hvalue : k.value c = none :=
      List.idxOf?_eq_none_iff.mpr fun hmem => hascii (k.symbols_ascii c hmem)
    obtain ⟨b, rest, hbytes, hb⟩ := utf8_first (Nat.le_of_not_lt hascii)
    exact ⟨hvalue, b, rest, hbytes, k.sextet_not_ascii hb⟩

def readByte (k : Base64) (loop : SextetLoop) (b : UInt8) : Option SextetLoop :=
  (sextet k.marks.1.toUInt8 k.marks.2.toUInt8 b).map fun v => loop.push v.toUInt32

theorem decode_eq (k : Base64) (s : String) :
    k.decode s =
      let bytes := (s.toList.rdropWhile (· = '=')).flatMap String.utf8EncodeChar
      (bytes.foldlM k.readByte {}).bind fun loop =>
        if bytes.length % 4 = 1 then none else some loop.out := by
  cases k <;> rfl

theorem loop_none (k : Base64) {text : List Char} (h : text.mapM k.value = none)
    (loop : SextetLoop) : (text.flatMap String.utf8EncodeChar).foldlM k.readByte loop = none := by
  induction text generalizing loop with
  | nil => cases h
  | cons c text ih =>
    rw [List.flatMap_cons]
    rcases k.utf8_char c with ⟨b, hbytes, hread⟩ | ⟨-, b, rest, hbytes, hread⟩
    · rw [hbytes, List.singleton_append, List.foldlM_cons, readByte]
      cases hsextet : sextet k.marks.1.toUInt8 k.marks.2.toUInt8 b with
      | none => rfl
      | some v =>
        rw [hsextet] at hread
        refine ih ?_ _
        rw [List.mapM_cons, ← hread] at h
        cases hrest : text.mapM k.value with
        | none => rfl
        | some values => simp [hrest] at h
    · rw [hbytes, List.cons_append, List.foldlM_cons, readByte, hread]
      rfl

theorem loop_some (k : Base64) {text : List Char} {values : List Nat}
    (h : text.mapM k.value = some values) {loop : SextetLoop} {before : List Nat}
    (hloop : loop.Holds before) :
    (text.flatMap String.utf8EncodeChar).length = text.length ∧
      ∃ loop', (text.flatMap String.utf8EncodeChar).foldlM k.readByte loop = some loop' ∧
        loop'.Holds (before ++ values) := by
  induction text generalizing loop before values with
  | nil =>
    obtain rfl : [] = values := by simpa using h
    exact ⟨rfl, loop, rfl, by rwa [List.append_nil]⟩
  | cons c text ih =>
    rw [List.mapM_cons] at h
    obtain ⟨n, hn, h⟩ := Option.bind_eq_some_iff.mp h
    obtain ⟨rest, hrest, h⟩ := Option.bind_eq_some_iff.mp h
    cases h
    rcases k.utf8_char c with ⟨b, hbytes, hread⟩ | ⟨hnone, -⟩
    · obtain ⟨v, hsextet, hv⟩ := Option.map_eq_some_iff.mp (hread.trans hn)
      have hwide : v.toUInt32.toNat = n := by rw [UInt8.toNat_toUInt32, hv]
      have hpush := hloop.push (v := v.toUInt32) (by rw [hwide]; exact (symbol_value hn).1)
      rw [hwide] at hpush
      obtain ⟨hlength, loop', hrun, hholds⟩ := ih hrest hpush
      refine ⟨by simp [hbytes, hlength], loop', ?_, by simpa using hholds⟩
      rw [List.flatMap_cons, hbytes, List.singleton_append, List.foldlM_cons, readByte, hsextet]
      exact hrun
    · rw [hnone] at hn
      cases hn

theorem start_holds : ({} : SextetLoop).Holds [] :=
  ⟨by decide, rfl⟩

/-- Bits that are followed by less than a byte tell their bytes. -/
theorem octets_unique {y y' : List UInt8} {rest rest' : List Bool} (hrest : rest.length < 8)
    (hrest' : rest'.length < 8) (h : octetBits y ++ rest = octetBits y' ++ rest') : y = y' := by
  have hlength := congrArg List.length h
  rw [List.length_append, List.length_append, octet_bits_length, octet_bits_length] at hlength
  have hcount : y.length = y'.length := by omega
  calc y = octets y.length (octetBits y ++ rest) := (octets_octet_bits y rest).symm
    _ = octets y'.length (octetBits y' ++ rest') := by rw [h, hcount]
    _ = y' := octets_octet_bits y' rest'

/-- What a text decodes to is spelled by its sextets, with less than a byte behind it. -/
theorem decode_iff (k : Base64) {s : String} {y : List UInt8} :
    k.decode s = some y ↔ ∃ values rest,
      (s.toList.rdropWhile (· = '=')).mapM k.value = some values ∧
        (s.toList.rdropWhile (· = '=')).length % 4 ≠ 1 ∧ rest.length < 8 ∧
          octetBits y ++ rest = ungroup 6 values := by
  rw [decode_eq]
  dsimp only
  cases hvalues : (s.toList.rdropWhile (· = '=')).mapM k.value with
  | none =>
    rw [k.loop_none hvalues]
    exact iff_of_false nofun (by simp)
  | some values =>
    obtain ⟨hlength, loop, hrun, hholds⟩ := k.loop_some hvalues start_holds
    rw [List.nil_append] at hholds
    rw [hrun, Option.bind_some, hlength]
    have hbits : (toBits loop.bits.toNat loop.acc.toNat).length < 8 := by
      rw [to_bits_length]
      exact hholds.bits_lt
    constructor
    · intro h
      split at h
      · cases h
      · rename_i hfour
        obtain rfl := Option.some.inj h
        exact ⟨values, _, rfl, hfour, hbits, hholds.spelled⟩
    · rintro ⟨values', rest, hsame, hfour, hrest, hspelled⟩
      obtain rfl := Option.some.inj hsame
      rw [if_neg hfour, octets_unique hbits hrest (hholds.spelled.trans hspelled.symm)]

/-! ## Round trips -/

/-- Two texts of one length with the same values, but for the lowest bits of the last one. -/
structure SameButLow (k : Base64) (unused : Nat) (s t : List Char) : Prop where
  length : s.length = t.length
  front : s.dropLast = t.dropLast
  last : ∀ c ∈ s.getLast?, ∀ d ∈ t.getLast?, ∃ v w, k.value c = some v ∧ k.value d = some w ∧
    v / 2 ^ unused = w / 2 ^ unused

theorem values_lt (k : Base64) (x : List UInt8) :
    ∀ v ∈ k.alphabet.values x, v < 2 ^ k.alphabet.width :=
  groups_lt

theorem encode_no_pad (k : Base64) (x : List UInt8) : '=' ∉ k.encode x := by
  intro hmem
  obtain ⟨v, hv, hsymbol⟩ := List.mem_map.mp hmem
  have hvalue : k.value (k.symbol v) = some v :=
    k.value_symbol (k.values_lt x v hv)
  have hpad : k.symbol v = '=' := hsymbol
  rw [hpad] at hvalue
  have hnone : k.value '=' = none := by
    rw [show '=' = Char.ofNat 61 from rfl, k.value_of_nat (by decide)]
    cases k <;> rfl
  cases hnone.symm.trans hvalue

/-- Neither the encoding nor its padding is lost or kept by trimming. -/
theorem trim_padded (k : Base64) (x : List UInt8) (pads : Nat) :
    (k.encode x ++ List.replicate pads '=').rdropWhile (· = '=') = k.encode x := by
  induction pads with
  | zero =>
    rw [List.replicate_zero, List.append_nil]
    refine List.rdropWhile_eq_self_iff.mpr fun hne => ?_
    have hlast := List.getLast_mem hne
    simp only [decide_eq_true_eq]
    intro hpad
    rw [hpad] at hlast
    exact k.encode_no_pad x hlast
  | succ pads ih =>
    rw [List.replicate_succ', ← List.append_assoc, List.rdropWhile_concat_pos _ _ _ (by simp)]
    exact ih

theorem decode_encode (k : Base64) (x : List UInt8) {s : String}
    (h : s.toList.rdropWhile (· = '=') = k.encode x) : k.decode s = some x := by
  have hbounds := Alphabet.symbol_count_bounds (a := k.alphabet) (octetBits x).length
  have hlength := Alphabet.encode_length (a := k.alphabet) x
  have hbits := octet_bits_length x
  have hwidth : k.alphabet.width = 6 := rfl
  rw [hwidth, hbits] at hbounds
  rw [hbits] at hlength
  have hspelled := Alphabet.ungroup_values (a := k.alphabet) x
  rw [Alphabet.pad] at hspelled
  refine k.decode_iff.mpr ⟨k.alphabet.values x, _, ?_, ?_, ?_, hspelled.symm⟩
  · rw [h]
    exact Alphabet.map_m_symbol (k.values_lt x)
  · rw [h, encode, hlength]
    omega
  · rw [List.length_replicate, hbits, hwidth]
    omega

theorem encode_decode (k : Base64) {s : String} {y : List UInt8} (h : k.decode s = some y) :
    k.SameButLow (6 * (k.encode y).length - 8 * y.length) (k.encode y)
      (s.toList.rdropWhile (· = '=')) := by
  obtain ⟨values, rest, hvalues, hfour, hrest, hspelled⟩ := k.decode_iff.mp h
  obtain ⟨hlt, hsymbols⟩ := Alphabet.map_m_value (a := k.alphabet) hvalues
  have hid : k.alphabet.fold = id := rfl
  rw [hid, List.map_id] at hsymbols
  have hcount : values.length = (s.toList.rdropWhile (· = '=')).length := by
    simpa using congrArg List.length hsymbols
  have hlength := congrArg List.length hspelled
  rw [List.length_append, octet_bits_length, ungroup_length] at hlength
  have hbounds := Alphabet.symbol_count_bounds (a := k.alphabet) (octetBits y).length
  have hwidth : k.alphabet.width = 6 := rfl
  rw [hwidth, octet_bits_length] at hbounds
  have hshort : rest.length < 6 := by
    by_contra hlong
    have hspare : 3 * values.length = 4 * y.length + 3 := by omega
    omega
  have hchars : k.alphabet.symbolCount (8 * y.length) = values.length := by omega
  have hsextets : (k.alphabet.values y).length = values.length := by
    rw [Alphabet.values, groups_length, octet_bits_length, hchars]
  have hpadded := Alphabet.ungroup_values (a := k.alphabet) y
  rw [Alphabet.pad, octet_bits_length, hchars] at hpadded
  have hunused : (List.replicate (k.alphabet.width * values.length - 8 * y.length) false).length =
      6 * values.length - 8 * y.length := List.length_replicate
  obtain ⟨hfront, hlast⟩ := ungroup_front (k.values_lt y) hlt hsextets hpadded hspelled.symm
    (by rw [hunused]; omega) (by rw [hunused]; omega)
  rw [hunused] at hlast
  have hencoded : (k.encode y).length = values.length := by
    rw [encode, Alphabet.encode, List.length_map, hsextets]
  rw [← hsymbols, hencoded]
  refine ⟨by rw [hencoded, List.length_map], ?_, ?_⟩
  · rw [encode, Alphabet.encode, ← List.map_dropLast, ← List.map_dropLast, hfront]
  · intro c hc d hd
    rw [encode, Alphabet.encode, List.getLast?_map] at hc
    rw [List.getLast?_map] at hd
    obtain ⟨v, hv, rfl⟩ := Option.map_eq_some_iff.mp hc
    obtain ⟨w, hw, rfl⟩ := Option.map_eq_some_iff.mp hd
    exact ⟨v, w, k.alphabet.value_symbol v (k.values_lt y v (List.mem_of_getLast? hv)),
      k.alphabet.value_symbol w (hlt w (List.mem_of_getLast? hw)), hlast v hv w hw⟩

end Base64

/-- For both alphabets, decoding gives back what was encoded, with or without padding, and a text
that decodes is the encoding of its bytes up to its trailing `=` and the unused low bits of its last
character. -/
theorem base64_round_trip (k : Base64) :
    (∀ x, k.decode (String.ofList (k.encode x)) = some x ∧
      k.decode (String.ofList (k.encodePadded x)) = some x) ∧
    ∀ s y, k.decode s = some y →
      k.SameButLow (6 * (k.encode y).length - 8 * y.length) (k.encode y)
        (s.toList.rdropWhile (· = '=')) := by
  refine ⟨fun x => ⟨k.decode_encode x ?_, k.decode_encode x ?_⟩, fun s y h => k.encode_decode h⟩
  · have htrim := k.trim_padded x 0
    rw [List.replicate_zero, List.append_nil] at htrim
    rw [String.toList_ofList, htrim]
  · rw [String.toList_ofList, Base64.encodePadded, k.trim_padded]

end TeamClaude
