import Mathlib.Data.List.Infix

/-!
# Big-endian numbers

The bytes of a number of sixteen or of sixty-four bits, most significant first, and the number two
bytes spell.
-/

namespace Lib

/-- `u16::from_be_bytes` -/
def be16 (hi lo : UInt8) : Nat :=
  hi.toNat * 256 + lo.toNat

/-- `(n as u16).to_be_bytes()` -/
def be16Bytes (n : Nat) : List UInt8 :=
  [(n / 256).toUInt8, n.toUInt8]

def be64Bytes (n : UInt64) : List UInt8 :=
  [56, 48, 40, 32, 24, 16, 8, 0].map fun shift : Nat => (n.toNat >>> shift).toUInt8

@[simp] theorem be16_bytes_length (n : Nat) : (be16Bytes n).length = 2 :=
  rfl

theorem be16_lt (hi lo : UInt8) : be16 hi lo < 65536 := by
  have hhi := hi.toNat_lt
  have hlo := lo.toNat_lt
  unfold be16
  omega

theorem be16_eq_zero {hi lo : UInt8} : be16 hi lo = 0 ↔ hi = 0 ∧ lo = 0 := by
  unfold be16
  rw [← UInt8.toNat_inj, ← UInt8.toNat_inj, UInt8.toNat_zero]
  omega

theorem be16_of_bytes {n : Nat} (h : n < 65536) : be16 (n / 256).toUInt8 n.toUInt8 = n := by
  unfold be16
  rw [Nat.toUInt8_eq, Nat.toUInt8_eq, UInt8.toNat_ofNat', UInt8.toNat_ofNat']
  omega

theorem be16_bytes_of (hi lo : UInt8) : be16Bytes (be16 hi lo) = [hi, lo] := by
  have hhi := hi.toNat_lt
  have hlo := lo.toNat_lt
  have hdiv : (hi.toNat * 256 + lo.toNat) / 256 = hi.toNat := by omega
  unfold be16Bytes be16
  rw [hdiv]
  congr 1
  · exact UInt8.ofNat_toNat
  · congr 1
    apply UInt8.toNat.inj
    rw [Nat.toUInt8_eq, UInt8.toNat_ofNat']
    omega

theorem be64_bytes_length (n : UInt64) : (be64Bytes n).length = 8 :=
  rfl

/-- What is above a byte and the byte are what is above the bits below it. -/
theorem shift_byte_eq {n m k : Nat} (habove : n >>> (k + 8) = m >>> (k + 8))
    (hbyte : (n >>> k).toUInt8 = (m >>> k).toUInt8) : n >>> k = m >>> k := by
  rw [Nat.shiftRight_add, Nat.shiftRight_add, Nat.shiftRight_eq_div_pow _ 8,
    Nat.shiftRight_eq_div_pow _ 8] at habove
  rw [← UInt8.toNat_inj, Nat.toUInt8_eq, Nat.toUInt8_eq, UInt8.toNat_ofNat',
    UInt8.toNat_ofNat'] at hbyte
  omega

theorem be64_bytes_inj {n m : UInt64} (h : be64Bytes n = be64Bytes m) : n = m := by
  have hzero : ∀ n : UInt64, n.toNat >>> 64 = 0 := fun n => by
    rw [Nat.shiftRight_eq_div_pow, Nat.div_eq_of_lt n.toNat_lt]
  simp only [be64Bytes, List.map_cons, List.map_nil, List.cons.injEq, and_true] at h
  obtain ⟨h56, h48, h40, h32, h24, h16, h8, h0⟩ := h
  have heq := shift_byte_eq ((hzero n).trans (hzero m).symm) h56
  exact UInt64.toNat.inj (shift_byte_eq (shift_byte_eq (shift_byte_eq (shift_byte_eq (shift_byte_eq
    (shift_byte_eq (shift_byte_eq heq h48) h40) h32) h24) h16) h8) h0)

end Lib
