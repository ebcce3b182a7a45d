import TeamClaude.Lib.JsonText.Syntax

/-!
# The text of a string

What the bytes between two quotes spell, and when a run of bytes is UTF-8.
-/

namespace Lib.JsonText

/-! ## Escapes -/

def hexValue (b : UInt8) : Nat :=
  if isDigit b then b.toNat - 0x30
  else if 0x61 ≤ b then b.toNat - 0x57
  else b.toNat - 0x37

def hexValue4 (h1 h2 h3 h4 : UInt8) : Nat :=
  ((hexValue h1 * 16 + hexValue h2) * 16 + hexValue h3) * 16 + hexValue h4

/-- The UTF-8 of a code point. -/
def utf8 (n : Nat) : Bytes :=
  if n < 0x80 then [n.toUInt8]
  else if n < 0x800 then [(0xC0 + n / 0x40).toUInt8, (0x80 + n % 0x40).toUInt8]
  else if n < 0x10000 then
    [(0xE0 + n / 0x1000).toUInt8, (0x80 + n / 0x40 % 0x40).toUInt8, (0x80 + n % 0x40).toUInt8]
  else
    [(0xF0 + n / 0x40000).toUInt8, (0x80 + n / 0x1000 % 0x40).toUInt8,
      (0x80 + n / 0x40 % 0x40).toUInt8, (0x80 + n % 0x40).toUInt8]

def escaped (b : UInt8) : Option UInt8 :=
  if b == quote || b == backslash || b == 0x2F then some b
  else if b == 0x62 then some 0x08
  else if b == 0x66 then some 0x0C
  else if b == 0x6E then some 0x0A
  else if b == 0x72 then some 0x0D
  else if b == 0x74 then some 0x09
  else none

/-- The text a string spells; none when half of a surrogate pair stands alone in it. -/
def decode : Bytes → Option Bytes
  | [] => some []
  | b :: t =>
    if b == backslash then
      match t with
      | [] => none
      | e :: t =>
        if e == 0x75 then
          match t with
          | h1 :: h2 :: h3 :: h4 :: t =>
            let n := hexValue4 h1 h2 h3 h4
            if 0xDC00 ≤ n && n ≤ 0xDFFF then none
            else if 0xD800 ≤ n && n ≤ 0xDBFF then
              match t with
              | s :: u :: g1 :: g2 :: g3 :: g4 :: t =>
                let m := hexValue4 g1 g2 g3 g4
                if s == backslash && u == 0x75 && 0xDC00 ≤ m && m ≤ 0xDFFF then
                  (decode t).map (utf8 (0x10000 + (n - 0xD800) * 0x400 + (m - 0xDC00)) ++ ·)
                else none
              | _ => none
            else (decode t).map (utf8 n ++ ·)
          | _ => none
        else (escaped e).bind fun c => (decode t).map (c :: ·)
    else (decode t).map (b :: ·)

/-- The string spells a text. -/
def Body.decodes (body : Body) : Bool :=
  (decode body.1).isSome

/-! ## UTF-8 -/

def isContinuation (b : UInt8) : Bool :=
  0x80 ≤ b && b ≤ 0xBF

/-- The first two bytes of a character of two. -/
def isPair (b c : UInt8) : Bool :=
  0xC2 ≤ b && b ≤ 0xDF && isContinuation c

/-- The first two bytes of a character of three: no overlong spelling and no surrogate. -/
def isTriple (b c : UInt8) : Bool :=
  (b == 0xE0 && 0xA0 ≤ c && c ≤ 0xBF) || (0xE1 ≤ b && b ≤ 0xEC && isContinuation c) ||
    (b == 0xED && 0x80 ≤ c && c ≤ 0x9F) || (0xEE ≤ b && b ≤ 0xEF && isContinuation c)

/-- The first two bytes of a character of four. -/
def isQuad (b c : UInt8) : Bool :=
  (b == 0xF0 && 0x90 ≤ c && c ≤ 0xBF) || (0xF1 ≤ b && b ≤ 0xF3 && isContinuation c) ||
    (b == 0xF4 && 0x80 ≤ c && c ≤ 0x8F)

def isUtf8 : Bytes → Bool
  | [] => true
  | b :: t =>
    if b < 0x80 then isUtf8 t
    else
      match t with
      | [] => false
      | c :: t =>
        if isPair b c then isUtf8 t
        else
          match t with
          | [] => false
          | d :: t =>
            if isTriple b c then isContinuation d && isUtf8 t
            else
              match t with
              | [] => false
              | e :: t => isQuad b c && isContinuation d && isContinuation e && isUtf8 t

theorem ascii_not_continuation {b : UInt8} (h : b < 0x80) : isContinuation b = false := by
  simp only [isContinuation, Bool.and_eq_false_imp, decide_eq_true_eq]
  intro hge
  exact absurd h (UInt8.not_lt.mpr hge)

theorem ascii_not_second {b c : UInt8} (h : c < 0x80) :
    isPair b c = false ∧ isTriple b c = false ∧ isQuad b c = false := by
  have hcont := ascii_not_continuation h
  have hge : ∀ {n : UInt8}, 0x80 ≤ n → ¬n ≤ c := by
    intro n hn hle
    exact absurd h (UInt8.not_lt.mpr (UInt8.le_trans hn hle))
  have ha0 : ¬(0xA0 : UInt8) ≤ c := hge (by decide)
  have h80 : ¬(0x80 : UInt8) ≤ c := hge (by decide)
  have h90 : ¬(0x90 : UInt8) ≤ c := hge (by decide)
  simp [isPair, isTriple, isQuad, hcont, ha0, h80, h90]

theorem utf8_ascii_cons {b : UInt8} (h : b < 0x80) (t : Bytes) : isUtf8 (b :: t) = isUtf8 t := by
  rw [isUtf8.eq_def]
  exact if_pos h

/-- A text is cut at an ASCII byte without cutting a character. -/
theorem utf8_append {b : UInt8} (h : b < 0x80) (s t : Bytes) :
    isUtf8 (s ++ b :: t) = (isUtf8 s && isUtf8 t) := by
  have hcont := ascii_not_continuation h
  fun_induction isUtf8 s with
  | case1 => exact utf8_ascii_cons h t
  | case2 c s hc ih => rw [List.cons_append, utf8_ascii_cons hc, ih]
  | case3 c hc =>
    have hsecond := ascii_not_second (b := c) h
    cases t with
    | nil => simp [isUtf8, hc, hsecond]
    | cons d t => cases t <;> simp [isUtf8, hc, hsecond]
  | case4 c hc d s hpair ih =>
    rw [← ih, isUtf8.eq_def]
    simp [hc, hpair]
  | case5 c hc d hpair =>
    cases t <;> simp [isUtf8, hc, hpair, hcont]
  | case6 c hc d hpair e s htriple ih =>
    rw [Bool.and_assoc, ← ih, isUtf8.eq_def]
    simp [hc, hpair, htriple]
  | case7 c hc d hpair e htriple => simp [isUtf8, hc, hpair, htriple, hcont]
  | case8 c hc d hpair e htriple f s ih =>
    rw [Bool.and_assoc, ← ih, isUtf8.eq_def]
    simp [hc, hpair, htriple]

theorem utf8_of_ascii {t : Bytes} (h : ∀ b ∈ t, b < 0x80) : isUtf8 t = true := by
  induction t with
  | nil => rfl
  | cons b t ih =>
    rw [utf8_ascii_cons (h b List.mem_cons_self)]
    exact ih fun c hc => h c (List.mem_cons_of_mem b hc)

/-! ## What a UTF-8 string spells -/

theorem hex_value_lt {b : UInt8} (h : isHex b = true) : hexValue b < 16 := by
  unfold hexValue
  split
  · rename_i hdigit
    simp only [isDigit, Bool.and_eq_true, decide_eq_true_eq, UInt8.le_iff_toNat_le] at hdigit
    have h30 : (0x30 : UInt8).toNat = 0x30 := rfl
    have h39 : (0x39 : UInt8).toNat = 0x39 := rfl
    omega
  · rename_i hdigit
    simp only [isHex, hdigit, Bool.false_or, Bool.or_eq_true, Bool.and_eq_true, decide_eq_true_eq,
      UInt8.le_iff_toNat_le] at h
    have h61 : (0x61 : UInt8).toNat = 0x61 := rfl
    have h66 : (0x66 : UInt8).toNat = 0x66 := rfl
    have h41 : (0x41 : UInt8).toNat = 0x41 := rfl
    have h46 : (0x46 : UInt8).toNat = 0x46 := rfl
    simp only [UInt8.le_iff_toNat_le]
    split <;> omega

theorem hex_value4_lt {h1 h2 h3 h4 : UInt8}
    (h : (isHex h1 && isHex h2 && isHex h3 && isHex h4) = true) :
    hexValue4 h1 h2 h3 h4 < 0x10000 := by
  simp only [Bool.and_eq_true] at h
  obtain ⟨⟨⟨hh1, hh2⟩, hh3⟩, hh4⟩ := h
  have hv1 := hex_value_lt hh1
  have hv2 := hex_value_lt hh2
  have hv3 := hex_value_lt hh3
  have hv4 := hex_value_lt hh4
  unfold hexValue4
  omega

theorem to_uint8_toNat {n : Nat} (h : n < 256) : n.toUInt8.toNat = n := by
  simp [Nat.toUInt8, Nat.mod_eq_of_lt h]

theorem continuation_iff (b : UInt8) :
    isContinuation b = true ↔ 0x80 ≤ b.toNat ∧ b.toNat ≤ 0xBF := by
  simp [isContinuation, UInt8.le_iff_toNat_le]

theorem pair_iff (b c : UInt8) : isPair b c = true ↔
    0xC2 ≤ b.toNat ∧ b.toNat ≤ 0xDF ∧ 0x80 ≤ c.toNat ∧ c.toNat ≤ 0xBF := by
  simp [isPair, continuation_iff, UInt8.le_iff_toNat_le, and_assoc]

theorem triple_iff (b c : UInt8) : isTriple b c = true ↔
    0xE0 ≤ b.toNat ∧ b.toNat ≤ 0xEF ∧ 0x80 ≤ c.toNat ∧ c.toNat ≤ 0xBF ∧
      (b.toNat = 0xE0 → 0xA0 ≤ c.toNat) ∧ (b.toNat = 0xED → c.toNat ≤ 0x9F) := by
  simp only [isTriple, Bool.or_eq_true, Bool.and_eq_true, decide_eq_true_eq, beq_iff_eq,
    continuation_iff, UInt8.le_iff_toNat_le, ← UInt8.toNat_inj, UInt8.reduceToNat]
  omega

theorem quad_iff (b c : UInt8) : isQuad b c = true ↔
    0xF0 ≤ b.toNat ∧ b.toNat ≤ 0xF4 ∧ 0x80 ≤ c.toNat ∧ c.toNat ≤ 0xBF ∧
      (b.toNat = 0xF0 → 0x90 ≤ c.toNat) ∧ (b.toNat = 0xF4 → c.toNat ≤ 0x8F) := by
  simp only [isQuad, Bool.or_eq_true, Bool.and_eq_true, decide_eq_true_eq, beq_iff_eq,
    continuation_iff, UInt8.le_iff_toNat_le, ← UInt8.toNat_inj, UInt8.reduceToNat]
  omega

theorem utf8_pair {b c : UInt8} (h : isPair b c = true) (t : Bytes) :
    isUtf8 (b :: c :: t) = isUtf8 t := by
  have hlow := (pair_iff b c).mp h
  have hb : ¬b < 0x80 := by
    simp only [UInt8.lt_iff_toNat_lt, UInt8.reduceToNat]
    omega
  rw [isUtf8.eq_def]
  simp [hb, h]

theorem utf8_triple {b c d : UInt8} (h : isTriple b c = true) (hd : isContinuation d = true)
    (t : Bytes) : isUtf8 (b :: c :: d :: t) = isUtf8 t := by
  have hlow := (triple_iff b c).mp h
  have hb : ¬b < 0x80 := by
    simp only [UInt8.lt_iff_toNat_lt, UInt8.reduceToNat]
    omega
  have hpair : ¬isPair b c = true := by
    rw [pair_iff]
    omega
  rw [isUtf8.eq_def]
  simp [hb, hpair, h, hd]

theorem utf8_quad {b c d e : UInt8} (h : isQuad b c = true) (hd : isContinuation d = true)
    (he : isContinuation e = true) (t : Bytes) :
    isUtf8 (b :: c :: d :: e :: t) = isUtf8 t := by
  have hlow := (quad_iff b c).mp h
  have hb : ¬b < 0x80 := by
    simp only [UInt8.lt_iff_toNat_lt, UInt8.reduceToNat]
    omega
  have hpair : ¬isPair b c = true := by
    rw [pair_iff]
    omega
  have htriple : ¬isTriple b c = true := by
    rw [triple_iff]
    omega
  rw [isUtf8.eq_def]
  simp [hb, hpair, htriple, h, hd, he]

theorem code_point_utf8 {n : Nat} (hmax : n < 0x110000) (hpair : n < 0xD800 ∨ 0xDFFF < n)
    (t : Bytes) : isUtf8 (utf8 n ++ t) = isUtf8 t := by
  have hcont : ∀ k, isContinuation (0x80 + k % 0x40).toUInt8 = true := by
    intro k
    rw [continuation_iff, to_uint8_toNat (by omega)]
    omega
  unfold utf8
  split
  · refine utf8_ascii_cons ?_ t
    rw [UInt8.lt_iff_toNat_lt, to_uint8_toNat (by omega)]
    assumption
  split
  · refine utf8_pair ?_ t
    rw [pair_iff, to_uint8_toNat (by omega), to_uint8_toNat (by omega)]
    omega
  split
  · refine utf8_triple ?_ (hcont _) t
    rw [triple_iff, to_uint8_toNat (by omega), to_uint8_toNat (by omega)]
    omega
  · refine utf8_quad ?_ (hcont _) (hcont _) t
    rw [quad_iff, to_uint8_toNat (by omega), to_uint8_toNat (by omega)]
    omega

/-- An escape that is no code point stands for one ASCII byte. -/
theorem escaped_ascii {e c : UInt8} (h : escaped e = some c) : e < 0x80 ∧ c < 0x80 := by
  unfold escaped at h
  split at h
  · rename_i hsame
    cases h
    simp only [Bool.or_eq_true, beq_iff_eq] at hsame
    rcases hsame with (rfl | rfl) | rfl <;> decide
  · repeat' split at h
    all_goals
      cases h
      try
        rename_i heq
        obtain rfl := beq_iff_eq.mp heq
        decide

theorem utf8_concat {p : Bytes} (h : isUtf8 p = true) (q : Bytes) : isUtf8 (p ++ q) = isUtf8 q := by
  fun_induction isUtf8 p with
  | case1 => rfl
  | case2 c p hc ih => rw [List.cons_append, utf8_ascii_cons hc, ih h]
  | case4 c hc d p hpair ih => simpa [utf8_pair hpair] using ih h
  | case6 c hc d hpair e p htriple ih =>
    rw [Bool.and_eq_true] at h
    simpa [utf8_triple htriple h.1] using ih h.2
  | case8 c hc d hpair e htriple f p ih =>
    simp only [Bool.and_eq_true] at h
    obtain ⟨⟨⟨hquad, he⟩, hf⟩, hp⟩ := h
    simpa [utf8_quad hquad he hf] using ih hp
  | _ => cases h

theorem hex_ascii {b : UInt8} (h : isHex b = true) : b < 0x80 := by
  simp only [isHex, isDigit, Bool.or_eq_true, Bool.and_eq_true, decide_eq_true_eq,
    UInt8.le_iff_toNat_le, UInt8.reduceToNat] at h
  simp only [UInt8.lt_iff_toNat_lt, UInt8.reduceToNat]
  omega

/-- A code point's escape ends what stands in front of it, and the string goes on behind it. -/
theorem code_escape {p s : Bytes} {h1 h2 h3 h4 : UInt8}
    (hbody : isBody (backslash :: 0x75 :: h1 :: h2 :: h3 :: h4 :: s) = true)
    (h : isUtf8 (p ++ backslash :: 0x75 :: h1 :: h2 :: h3 :: h4 :: s) = true) :
    isUtf8 p = true ∧ isUtf8 s = true ∧ isBody s = true ∧ hexValue4 h1 h2 h3 h4 < 0x10000 := by
  have hhex : (isHex h1 && isHex h2 && isHex h3 && isHex h4 && isBody s) = true := by
    simpa [isBody] using hbody
  rw [Bool.and_eq_true] at hhex
  refine ⟨?_, ?_, hhex.2, hex_value4_lt hhex.1⟩
  · rw [utf8_append (by decide), Bool.and_eq_true] at h
    exact h.1
  · simp only [Bool.and_eq_true] at hhex
    obtain ⟨⟨⟨⟨hh1, hh2⟩, hh3⟩, hh4⟩, -⟩ := hhex
    rw [utf8_append (by decide), Bool.and_eq_true, utf8_ascii_cons (by decide),
      utf8_ascii_cons (hex_ascii hh1), utf8_ascii_cons (hex_ascii hh2),
      utf8_ascii_cons (hex_ascii hh3), utf8_ascii_cons (hex_ascii hh4)] at h
    exact h.2

/-- What a string spells, behind the front of a character that it ends. -/
theorem decode_utf8_from (s : Bytes) (hbody : isBody s = true) (p : Bytes)
    (h : isUtf8 (p ++ s) = true) (t : Bytes) (ht : decode s = some t) :
    isUtf8 (p ++ t) = true := by
  fun_induction decode s generalizing p t with
  | case1 =>
    cases ht
    exact h
  | case4 b hb e he h1 h2 h3 h4 n hlow hhigh c u g1 g2 g3 g4 s m hpair ih =>
    -- the two halves of a surrogate pair
    simp only [Bool.and_eq_true, beq_iff_eq, decide_eq_true_eq] at hb he hhigh hpair
    obtain ⟨⟨⟨rfl, rfl⟩, hmlow⟩, hmhigh⟩ := hpair
    subst hb he
    obtain ⟨hp, hs, hbody, -⟩ := code_escape hbody h
    obtain ⟨-, hs, hbody, -⟩ := code_escape (p := []) hbody hs
    obtain ⟨out, hout, rfl⟩ := Option.map_eq_some_iff.mp ht
    rw [utf8_concat hp, code_point_utf8 (by omega) (by omega)]
    exact ih hbody [] hs out hout
  | case7 b hb e he h1 h2 h3 h4 s n hlow hhigh ih =>
    simp only [Bool.and_eq_true, beq_iff_eq, decide_eq_true_eq] at hb he hlow hhigh
    subst hb he
    obtain ⟨hp, hs, hbody, hn⟩ := code_escape hbody h
    obtain ⟨out, hout, rfl⟩ := Option.map_eq_some_iff.mp ht
    have hn : n < 0x10000 := hn
    rw [utf8_concat hp, code_point_utf8 (by omega) (by omega)]
    exact ih hbody [] hs out hout
  | case9 b hb e s he ih =>
    obtain rfl := beq_iff_eq.mp hb
    obtain ⟨c, hc, ht⟩ := Option.bind_eq_some_iff.mp ht
    obtain ⟨out, hout, rfl⟩ := Option.map_eq_some_iff.mp ht
    obtain ⟨heascii, hcascii⟩ := escaped_ascii hc
    rw [utf8_append (by decide), utf8_ascii_cons heascii, Bool.and_eq_true] at h
    have hbody : (isEscape e && isBody s) = true := by
      rw [isBody.eq_def] at hbody
      simpa [he] using hbody
    rw [utf8_append hcascii, h.1, Bool.true_and]
    exact ih (Bool.and_eq_true_iff.mp hbody).2 [] h.2 out hout
  | case10 b s hb ih =>
    obtain ⟨out, hout, rfl⟩ := Option.map_eq_some_iff.mp ht
    have hbody : isBody s = true := by
      have hplain : (b != quote && 0x20 ≤ b && isBody s) = true := by
        rw [isBody.eq_def] at hbody
        simpa [hb] using hbody
      exact (Bool.and_eq_true_iff.mp hplain).2
    -- the byte belongs to the character in front of it
    have hfront := ih hbody (p ++ [b]) (by simpa using h) out hout
    simpa using hfront
  | _ => cases ht

/-- A UTF-8 string spells a UTF-8 text. -/
theorem decode_utf8 (body : Body) (h : isUtf8 body.1 = true) {t : Bytes}
    (ht : decode body.1 = some t) : isUtf8 t = true :=
  decode_utf8_from body.1 body.2 [] h t ht

end Lib.JsonText
