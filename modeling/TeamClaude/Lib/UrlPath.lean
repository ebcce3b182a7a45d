import Mathlib.Data.List.Infix

/-!
# Setting the path of a URL

The path state of the WHATWG URL standard for a special scheme, run on a whole text: tabs and
newlines are dropped, a backslash separates as a slash does, dot segments are folded in every
spelling, and what is left is percent-encoded. The percent-encode set is a parameter.
-/

namespace Lib

/-- ASCII tab, LF and CR. -/
def isTabOrNewline (c : Char) : Bool :=
  decide (c = '\t') || decide (c = '\n') || decide (c = '\r')

/-- An ASCII letter or digit, or one of the marks a path is read by. -/
def isPlain (c : Char) : Bool :=
  c.isAlphanum || decide (c ∈ ['/', '%', '.', '-', '_'])

theorem toNat_lt_of_isPlain {c : Char} (h : isPlain c = true) : c.toNat < 127 := by
  unfold isPlain at h
  rw [Bool.or_eq_true, decide_eq_true_eq] at h
  rcases h with h | h
  · delta Char.isAlphanum Char.isAlpha Char.isUpper Char.isLower Char.isDigit at h
    simp only [Bool.or_eq_true, Bool.and_eq_true, decide_eq_true_eq, ge_iff_le,
      UInt32.le_iff_toNat_le] at h
    have hZ : 'Z'.val.toNat = 90 := rfl
    have hz : 'z'.val.toNat = 122 := rfl
    have h9 : '9'.val.toNat = 57 := rfl
    show c.val.toNat < 127
    omega
  · have hall : ∀ c ∈ ['/', '%', '.', '-', '_'], c.toNat < 127 := by simp
    exact hall c h

/-- A percent-encode set, which leaves plain characters alone. -/
structure EncodeSet where
  encodes : Char → Bool
  plain : ∀ c, isPlain c = true → encodes c = false

def hexDigit (n : Nat) : Char :=
  (Nat.digitChar n).toUpper

def percentEncodeByte (b : UInt8) : List Char :=
  ['%', hexDigit (b.toNat / 16), hexDigit (b.toNat % 16)]

namespace EncodeSet

variable (E : EncodeSet)

/-- One character, as UTF-8 escapes if the set encodes it. -/
def encodeChar (c : Char) : List Char :=
  if E.encodes c then (String.utf8EncodeChar c).flatMap percentEncodeByte else [c]

def encode (text : List Char) : List Char :=
  text.flatMap E.encodeChar

variable {E} {c : Char}

theorem encodeChar_plain (h : isPlain c = true) : E.encodeChar c = [c] := by
  rw [encodeChar, E.plain c h]
  rfl

theorem first_byte (c : Char) : ∃ b rest, String.utf8EncodeChar c = b :: rest ∧
    (b.toNat = 46 → c = '.') := by
  unfold String.utf8EncodeChar
  simp only
  split
  · refine ⟨_, _, rfl, fun h => ?_⟩
    rw [UInt8.toNat_ofNat_of_lt' (by simp only [UInt8.size]; omega)] at h
    exact Char.ext (UInt32.toNat_inj.mp h)
  split
  · refine ⟨_, _, rfl, fun h => ?_⟩
    rw [UInt8.toNat_ofNat_of_lt' (by simp only [UInt8.size]; omega)] at h
    omega
  split
  · refine ⟨_, _, rfl, fun h => ?_⟩
    rw [UInt8.toNat_ofNat_of_lt' (by simp only [UInt8.size]; omega)] at h
    omega
  · refine ⟨_, _, rfl, fun h => ?_⟩
    rw [UInt8.toNat_ofNat_of_lt' (by simp only [UInt8.size]; omega)] at h
    omega

theorem hex_digit_spells (hi lo : Nat) (hhi : hi < 16) (hlo : lo < 16)
    (h : hexDigit hi = '2' ∧ (hexDigit lo = 'e' ∨ hexDigit lo = 'E')) : hi = 2 ∧ lo = 14 := by
  have hall : ∀ hi < 16, ∀ lo < 16, hexDigit hi = '2' ∧
      (hexDigit lo = 'e' ∨ hexDigit lo = 'E') → hi = 2 ∧ lo = 14 := by decide +kernel
  exact hall hi hhi lo hlo h

/-- An encoded character is either itself, or an escape that does not spell a dot. -/
theorem encodeChar_cases (E : EncodeSet) (c : Char) :
    E.encodeChar c = [c] ∨ (isPlain c = false ∧ ∃ hi lo rest,
      E.encodeChar c = '%' :: hi :: lo :: rest ∧
      ¬ (hi = '2' ∧ (lo = 'e' ∨ lo = 'E'))) := by
  unfold encodeChar
  split
  · rename_i henc
    have hplain : isPlain c = false := by
      by_contra h
      rw [E.plain c (by simpa using h)] at henc
      cases henc
    obtain ⟨b, rest, hb, hdot⟩ := first_byte c
    refine .inr ⟨hplain, hexDigit (b.toNat / 16), hexDigit (b.toNat % 16),
      rest.flatMap percentEncodeByte, by rw [hb]; rfl, fun hspells => ?_⟩
    have hlt := b.toNat_lt
    obtain ⟨hhi, hlo⟩ := hex_digit_spells _ _ (by omega) (by omega) hspells
    rw [hdot (by omega)] at hplain
    exact absurd hplain (by decide)
  · exact .inl rfl

theorem encodeChar_length (E : EncodeSet) (c : Char) : 1 ≤ (E.encodeChar c).length := by
  rcases E.encodeChar_cases c with h | ⟨-, hi, lo, rest, h, -⟩
  · rw [h]
    exact le_rfl
  · rw [h]
    exact Nat.le_add_left _ _

@[simp] theorem encode_nil : E.encode [] = [] := rfl

@[simp] theorem encode_cons (c : Char) (text : List Char) :
    E.encode (c :: text) = E.encodeChar c ++ E.encode text := rfl

theorem encode_append (s t : List Char) : E.encode (s ++ t) = E.encode s ++ E.encode t :=
  List.flatMap_append

theorem encode_filter_lt {p : Char → Bool} {text : List Char} (h : ∃ c ∈ text, p c = false) :
    (E.encode (text.filter p)).length < (E.encode text).length := by
  have hle : ∀ text : List Char,
      (E.encode (text.filter p)).length ≤ (E.encode text).length := by
    intro text
    induction text with
    | nil => exact le_rfl
    | cons c text ih =>
      rw [List.filter_cons]
      split
      · rw [encode_cons, encode_cons, List.length_append, List.length_append]
        omega
      · rw [encode_cons, List.length_append]
        omega
  induction text with
  | nil =>
    obtain ⟨c, hc, -⟩ := h
    cases hc
  | cons c text ih =>
    rw [List.filter_cons]
    have hone := E.encodeChar_length c
    split
    · rename_i hp
      have hrest : ∃ c ∈ text, p c = false := by
        obtain ⟨d, hd, hdrop⟩ := h
        rcases List.mem_cons.mp hd with rfl | hd
        · rw [hp] at hdrop
          cases hdrop
        · exact ⟨d, hd, hdrop⟩
      have := ih hrest
      rw [encode_cons, encode_cons, List.length_append, List.length_append]
      omega
    · have := hle text
      rw [encode_cons, List.length_append]
      omega

end EncodeSet

namespace EncodeSet

variable {E : EncodeSet}

theorem head_encodeChar_eq_iff {b c : Char} (hb : isPlain b = true) (hpct : b ≠ '%') :
    (E.encodeChar c).head? = some b ↔ c = b := by
  rcases E.encodeChar_cases c with h | ⟨hplain, hi, lo, rest, h, -⟩
  · rw [h, List.head?_cons, Option.some.injEq]
  · rw [h, List.head?_cons, Option.some.injEq]
    constructor
    · exact fun he => absurd he.symm hpct
    · rintro rfl
      rw [hb] at hplain
      cases hplain

theorem head_encode_eq_iff {b : Char} (hb : isPlain b = true) (hpct : b ≠ '%') (text : List Char) :
    (E.encode text).head? = some b ↔ text.head? = some b := by
  cases text with
  | nil => rfl
  | cons c text =>
    rw [encode_cons,
      List.head?_append_of_ne_nil _ (List.ne_nil_of_length_pos (E.encodeChar_length c)),
      head_encodeChar_eq_iff hb hpct, List.head?_cons, Option.some.injEq]

/-- Percent-encoding keeps what stands in front of a text, as long as it is plain. -/
theorem isPrefixOf?_encode {base : List Char}
    (hbase : ∀ b ∈ base, isPlain b = true ∧ b ≠ '%') (text : List Char) :
    base.isPrefixOf? (E.encode text) = (base.isPrefixOf? text).map E.encode := by
  induction base generalizing text with
  | nil => rfl
  | cons b base ih =>
    obtain ⟨hb, hpct⟩ := hbase b List.mem_cons_self
    have hrest := ih fun d hd => hbase d (List.mem_cons_of_mem _ hd)
    cases text with
    | nil => rfl
    | cons c text =>
      by_cases hc : c = b
      · subst hc
        rw [encode_cons, encodeChar_plain hb, List.singleton_append]
        simp only [List.isPrefixOf?, beq_self_eq_true, if_true, hrest]
      · have hhead : (E.encode (c :: text)).head? ≠ some b := by
          rw [Ne, head_encode_eq_iff hb hpct, List.head?_cons, Option.some.injEq]
          exact hc
        cases henc : E.encode (c :: text) with
        | nil =>
          simp [List.isPrefixOf?, Ne.symm hc]
        | cons d tail =>
          rw [henc, List.head?_cons, Ne, Option.some.injEq] at hhead
          simp [List.isPrefixOf?, Ne.symm hc, Ne.symm hhead]

end EncodeSet

/-! ## Dot segments -/

/-- The dots a text spells, each as itself or as `%2e`, if it spells nothing else. -/
def dotCount : List Char → Option Nat
  | [] => some 0
  | '.' :: rest => (dotCount rest).map (· + 1)
  | '%' :: '2' :: e :: rest => if e = 'e' ∨ e = 'E' then (dotCount rest).map (· + 1) else none
  | _ => none

def isSingleDot (segment : List Char) : Bool :=
  dotCount segment == some 1

def isDoubleDot (segment : List Char) : Bool :=
  dotCount segment == some 2

example : (["..", ".%2e", "%2e.", "%2e%2e", "%2E."].all fun s => isDoubleDot s.toList) &&
    (isSingleDot "%2E".toList && !isDoubleDot "...".toList) = true := by decide

/-- A text that opens with neither a dot nor an escape of one spells none. -/
theorem dotCount_none_of_head {c : Char} (hdot : c ≠ '.') (hpct : c ≠ '%') (text : List Char) :
    dotCount (c :: text) = none := by
  unfold dotCount
  split
  all_goals simp_all

theorem dotCount_none_of_escape {hi lo : Char} (h : ¬ (hi = '2' ∧ (lo = 'e' ∨ lo = 'E')))
    (text : List Char) : dotCount ('%' :: hi :: lo :: text) = none := by
  unfold dotCount
  split
  all_goals simp_all

theorem dotCount_none_of_second {c : Char} (h : c ≠ '2') (text : List Char) :
    dotCount ('%' :: c :: text) = none := by
  unfold dotCount
  split
  all_goals simp_all

/-- Encoding neither makes nor breaks a dot segment. -/
theorem dotCount_encode (E : EncodeSet) (text : List Char) :
    dotCount (E.encode text) = dotCount text := by
  have hself : ∀ c, isPlain c = true → E.encodeChar c = [c] := fun c => EncodeSet.encodeChar_plain
  fun_induction dotCount text with
  | case1 => rfl
  | case2 rest ih =>
    rw [EncodeSet.encode_cons, hself '.' (by decide), List.singleton_append]
    simp only [dotCount, ih]
  | case3 e rest he ih =>
    rw [EncodeSet.encode_cons, EncodeSet.encode_cons, EncodeSet.encode_cons, hself '%' (by decide),
      hself '2' (by decide), hself e (by rcases he with rfl | rfl <;> decide)]
    simp only [List.singleton_append, dotCount, if_pos he, ih]
  | case4 e rest he =>
    rw [EncodeSet.encode_cons, EncodeSet.encode_cons, hself '%' (by decide), hself '2' (by decide)]
    rcases E.encodeChar_cases e with h | ⟨-, hi, lo, tail, h, -⟩
    · rw [EncodeSet.encode_cons, h]
      exact dotCount_none_of_escape (fun hs => he hs.2) _
    · rw [EncodeSet.encode_cons, h]
      exact dotCount_none_of_escape (by simp) _
  | case5 text hnil hdot hesc =>
    cases text with
    | nil => exact absurd rfl hnil
    | cons c rest =>
      have hc : c ≠ '.' := fun he => hdot rest (by rw [he])
      by_cases hpct : c = '%'
      · subst hpct
        rw [EncodeSet.encode_cons, hself '%' (by decide)]
        cases rest with
        | nil => rfl
        | cons d rest =>
          by_cases htwo : d = '2'
          · subst htwo
            cases rest with
            | nil =>
              rw [EncodeSet.encode_cons, hself '2' (by decide)]
              rfl
            | cons e rest => exact absurd rfl (hesc e rest)
          · rcases E.encodeChar_cases d with h | ⟨-, hi, lo, tail, h, -⟩
            · rw [EncodeSet.encode_cons, h]
              exact dotCount_none_of_second htwo _
            · rw [EncodeSet.encode_cons, h]
              exact dotCount_none_of_second (by decide) _
      · rcases E.encodeChar_cases c with h | ⟨-, hi, lo, tail, h, hspells⟩
        · rw [EncodeSet.encode_cons, h]
          exact dotCount_none_of_head hc hpct _
        · rw [EncodeSet.encode_cons, h]
          exact dotCount_none_of_escape hspells _

/-! ## The path state -/

abbrev UrlPath := List (List Char)

namespace UrlPath

/-- What the end of a segment does to the path. A dot segment at the end of the text leaves an empty
one. -/
def close (path : UrlPath) (buffer : List Char) (atEnd : Bool) : UrlPath :=
  if isDoubleDot buffer then path.dropLast ++ (if atEnd then [[]] else [])
  else if isSingleDot buffer then path ++ (if atEnd then [[]] else [])
  else path ++ [buffer]

/-- The path state, with the segment being read. -/
def parse (E : EncodeSet) (path : UrlPath) (buffer : List Char) : List Char → UrlPath
  | [] => path.close buffer true
  | c :: text =>
    if c = '/' ∨ c = '\\' then parse E (path.close buffer false) [] text
    else parse E path (buffer ++ E.encodeChar c) text

def set (E : EncodeSet) (text : List Char) : UrlPath :=
  match text.filter fun c => !isTabOrNewline c with
  | [] => parse E [] [] []
  | c :: rest => if c = '/' ∨ c = '\\' then parse E [] [] rest else parse E [] [] (c :: rest)

def render (path : UrlPath) : List Char :=
  path.flatMap fun segment => '/' :: segment

/-! ## Segments -/

theorem split_cons (c : Char) (text : List Char) : (c :: text).splitOn '/' =
    if c = '/' then [] :: text.splitOn '/' else (text.splitOn '/').modifyHead (List.cons c) := by
  rw [List.splitOn_eq_splitOnP, List.splitOn_eq_splitOnP, List.splitOnP_cons_eq_if_modifyHead]
  by_cases h : c = '/' <;> simp [h]

theorem render_modifyHead_cons (c : Char) {path : UrlPath} (h : path ≠ []) :
    render (path.modifyHead (List.cons c)) = '/' :: c :: (render path).tail := by
  cases path with
  | nil => exact absurd rfl h
  | cons segment path => rfl

theorem render_split (text : List Char) : render (text.splitOn '/') = '/' :: text := by
  induction text with
  | nil => rfl
  | cons c text ih =>
    rw [split_cons]
    split
    · rename_i hc
      subst hc
      show '/' :: ([] ++ render (text.splitOn '/')) = _
      rw [ih, List.nil_append]
    · rw [render_modifyHead_cons c (List.splitOn_ne_nil _ _), ih]
      rfl

theorem split_injective {s t : List Char} (h : s.splitOn '/' = t.splitOn '/') : s = t := by
  have hrender := congrArg render h
  rw [render_split, render_split] at hrender
  exact (List.cons.inj hrender).2

variable {E : EncodeSet}

theorem split_append {s : List Char} (h : '/' ∉ s) (t : List Char) :
    (s ++ t).splitOn '/' = (t.splitOn '/').modifyHead (s ++ ·) := by
  induction s with
  | nil =>
    cases ht : t.splitOn '/' with
    | nil => exact absurd ht (List.splitOn_ne_nil _ _)
    | cons segment segments => simp [ht]
  | cons c s ih =>
    have hc : c ≠ '/' := fun he => h (by rw [he]; exact List.mem_cons_self)
    rw [List.cons_append, split_cons, if_neg hc, ih fun hin => h (List.mem_cons_of_mem _ hin)]
    cases ht : t.splitOn '/' with
    | nil => exact absurd ht (List.splitOn_ne_nil _ _)
    | cons segment segments => rfl

theorem slash_notMem_encodeChar {c : Char} (h : c ≠ '/') : '/' ∉ E.encodeChar c := by
  have hdigit : ∀ n < 16, hexDigit n ≠ '/' := by decide
  unfold EncodeSet.encodeChar
  split
  · intro hin
    obtain ⟨b, -, hb⟩ := List.mem_flatMap.mp hin
    have hlt := b.toNat_lt
    have hhi := hdigit (b.toNat / 16) (by omega)
    have hlo := hdigit (b.toNat % 16) (by omega)
    simp only [percentEncodeByte, List.mem_cons, List.not_mem_nil, or_false] at hb
    rcases hb with hb | hb | hb
    · exact absurd hb (by decide)
    · exact hhi hb.symm
    · exact hlo hb.symm
  · rw [List.mem_singleton]
    exact fun he => h he.symm

theorem split_encode (text : List Char) :
    (E.encode text).splitOn '/' = (text.splitOn '/').map E.encode := by
  induction text with
  | nil => rfl
  | cons c text ih =>
    rw [EncodeSet.encode_cons, split_cons]
    split
    · rename_i hc
      subst hc
      rw [EncodeSet.encodeChar_plain (by decide), List.singleton_append, split_cons, if_pos rfl, ih]
      rfl
    · rename_i hc
      rw [split_append (slash_notMem_encodeChar hc), ih]
      cases ht : text.splitOn '/' with
      | nil => exact absurd ht (List.splitOn_ne_nil _ _)
      | cons segment segments => rfl

/-- A text with no dot segment and no backslash is read as it is split. -/
theorem parse_plain {text : List Char} (hback : '\\' ∉ text) {raw : List Char} (hraw : '/' ∉ raw)
    (hdots : ∀ segment ∈ (raw ++ text).splitOn '/',
      isSingleDot segment = false ∧ isDoubleDot segment = false) (path : UrlPath) :
    parse E path (E.encode raw) text = path ++ ((raw ++ text).splitOn '/').map E.encode := by
  have hslash : ∀ raw : List Char, '/' ∉ raw → ∀ c ∈ raw, (c == '/') = false := by
    intro raw hraw c hc
    rw [beq_eq_false_iff_ne]
    rintro rfl
    exact hraw hc
  have hclose : ∀ raw : List Char, isSingleDot raw = false ∧ isDoubleDot raw = false →
      ∀ path atEnd, close path (E.encode raw) atEnd = path ++ [E.encode raw] := by
    intro raw hr path atEnd
    unfold isSingleDot isDoubleDot at hr
    unfold close isSingleDot isDoubleDot
    rw [dotCount_encode, hr.1, hr.2]
    rfl
  induction text generalizing raw path with
  | nil =>
    have hsplit : raw.splitOn '/' = [raw] :=
      List.splitOnP_eq_singleton (hslash raw hraw)
    rw [List.append_nil, hsplit] at hdots ⊢
    exact hclose raw (hdots raw (List.mem_singleton_self raw)) path true
  | cons c text ih =>
    have hb : c ≠ '\\' := fun he => hback (by rw [he]; exact List.mem_cons_self)
    have hrest : '\\' ∉ text := fun hin => hback (List.mem_cons_of_mem _ hin)
    simp only [parse]
    by_cases hc : c = '/'
    · subst hc
      have hsplit : (raw ++ '/' :: text).splitOn '/' = raw :: text.splitOn '/' :=
        List.splitOnP_append_cons_of_forall_mem (hslash raw hraw) '/' (by simp) text
      rw [hsplit] at hdots ⊢
      rw [if_pos (.inl rfl), hclose raw (hdots raw List.mem_cons_self)]
      have hnext := @ih hrest [] (by simp)
        (fun segment hs => hdots segment (List.mem_cons_of_mem _ hs)) (path ++ [E.encode raw])
      rw [List.nil_append] at hnext
      exact hnext.trans (by simp)
    · have hraw' : '/' ∉ raw ++ [c] := by
        simp only [List.mem_append, List.mem_singleton, not_or]
        exact ⟨hraw, fun he => hc he.symm⟩
      have happend : raw ++ c :: text = (raw ++ [c]) ++ text := by simp
      rw [happend] at hdots ⊢
      rw [if_neg (by simp [hc, hb]), ← ih hrest hraw' hdots path, EncodeSet.encode_append]
      simp

/-! ## Lengths -/

theorem render_append (s t : UrlPath) : render (s ++ t) = render s ++ render t :=
  List.flatMap_append

theorem close_length (path : UrlPath) (buffer : List Char) (atEnd : Bool) :
    (render (path.close buffer atEnd)).length ≤ (render path).length + 1 + buffer.length := by
  have hdrop : (render path.dropLast).length ≤ (render path).length := by
    unfold render
    conv_rhs => rw [← List.take_append_drop (path.length - 1) path]
    rw [List.dropLast_eq_take, List.flatMap_append, List.length_append]
    exact Nat.le_add_right _ _
  have hend : (render (if atEnd then [[]] else [])).length ≤ 1 := by
    cases atEnd <;> decide
  unfold close
  split
  · rw [render_append, List.length_append]
    omega
  split
  · rw [render_append, List.length_append]
    omega
  · rw [render_append, List.length_append]
    simp [render]
    omega

/-- The path read is no longer than the text, percent-encoded. -/
theorem parse_length (E : EncodeSet) (path : UrlPath) (buffer text : List Char) :
    (render (parse E path buffer text)).length ≤
      (render path).length + 1 + buffer.length + (E.encode text).length := by
  induction text generalizing path buffer with
  | nil => exact close_length path buffer true
  | cons c text ih =>
    have hone := E.encodeChar_length c
    rw [EncodeSet.encode_cons, List.length_append]
    simp only [parse]
    split
    · have hclose := close_length path buffer false
      have hnext := ih (path.close buffer false) []
      rw [List.length_nil] at hnext
      omega
    · have hnext := ih path (buffer ++ E.encodeChar c)
      rw [List.length_append] at hnext
      omega

/-- A rooted text with no tab, newline, backslash or dot segment is set as it is, percent-encoded. -/
theorem render_set_plain {text : List Char} (hroot : text.head? = some '/')
    (hkept : ∀ c ∈ text, isTabOrNewline c = false) (hback : '\\' ∉ text)
    (hdots : ∀ segment ∈ text.splitOn '/',
      isSingleDot segment = false ∧ isDoubleDot segment = false) :
    render (set E text) = E.encode text := by
  cases text with
  | nil => cases hroot
  | cons c rest =>
    rw [List.head?_cons, Option.some.injEq] at hroot
    subst hroot
    have hfilter : ('/' :: rest).filter (fun c => !isTabOrNewline c) = '/' :: rest :=
      List.filter_eq_self.mpr fun c hc => by rw [hkept c hc]; rfl
    rw [split_cons, if_pos rfl] at hdots
    have hparse := @parse_plain E rest (fun hin => hback (List.mem_cons_of_mem _ hin)) [] (by simp)
      (fun segment hs => hdots segment (List.mem_cons_of_mem _ hs)) []
    unfold set
    rw [hfilter]
    simp only [true_or, if_true]
    rw [EncodeSet.encode_nil] at hparse
    rw [hparse, List.nil_append, List.nil_append, ← split_encode, render_split,
      EncodeSet.encode_cons, EncodeSet.encodeChar_plain (by decide)]
    rfl

/-- A rooted text that loses a character is not set as it is. -/
theorem render_set_ne {text : List Char} (hroot : text.head? = some '/')
    (hdropped : ∃ c ∈ text, isTabOrNewline c = true) : render (set E text) ≠ E.encode text := by
  intro heq
  cases text with
  | nil => cases hroot
  | cons c rest =>
    rw [List.head?_cons, Option.some.injEq] at hroot
    subst hroot
    have hlt := @EncodeSet.encode_filter_lt E (fun c => !isTabOrNewline c) ('/' :: rest)
      (by simpa using hdropped)
    have hfilter : ('/' :: rest).filter (fun c => !isTabOrNewline c) =
        '/' :: rest.filter fun c => !isTabOrNewline c :=
      List.filter_cons_of_pos (by decide)
    have hset : set E ('/' :: rest) = parse E [] [] (rest.filter fun c => !isTabOrNewline c) := by
      unfold set
      rw [hfilter]
      simp
    have hle := parse_length E [] [] (rest.filter fun c => !isTabOrNewline c)
    rw [hset] at heq
    rw [heq] at hle
    rw [hfilter, EncodeSet.encode_cons, EncodeSet.encodeChar_plain (by decide)] at hlt
    simp [render] at hlt hle
    omega

end UrlPath

end Lib
