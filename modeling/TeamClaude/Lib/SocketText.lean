import TeamClaude.Lib.Numeral
import TeamClaude.Lib.Octets

/-!
# Socket addresses as text

The addresses of `std::net`, how they are displayed and how a text is read as one. An address is
read back from what it is displayed as, but for its flow.
-/

namespace Lib.Net

structure Ipv4 where
  a : UInt8
  b : UInt8
  c : UInt8
  d : UInt8
  deriving DecidableEq

/-- An address of eight segments. -/
structure Ipv6 where
  segments : List UInt16
  eight : segments.length = 8
  deriving DecidableEq

inductive IpAddr
  | v4 (ip : Ipv4)
  | v6 (ip : Ipv6)
  deriving DecidableEq

inductive SocketAddr
  | v4 (ip : Ipv4) (port : UInt16)
  | v6 (ip : Ipv6) (port : UInt16) (flowinfo scopeId : UInt32)
  deriving DecidableEq

namespace SocketAddr

def new : IpAddr → UInt16 → SocketAddr
  | .v4 ip, port => v4 ip port
  | .v6 ip, port => v6 ip port 0 0

def ip : SocketAddr → IpAddr
  | v4 ip _ => .v4 ip
  | v6 ip _ _ _ => .v6 ip

def port : SocketAddr → UInt16
  | v4 _ port => port
  | v6 _ port _ _ => port

end SocketAddr

def IpAddr.isUnspecified : IpAddr → Bool
  | v4 ip => ip == ⟨0, 0, 0, 0⟩
  | v6 ip => ip.segments.all (· == 0)

namespace SocketAddr

/-- The scope and the flow of an address are zero. -/
def Plain : SocketAddr → Prop
  | v4 _ _ => True
  | v6 _ _ flowinfo scopeId => flowinfo = 0 ∧ scopeId = 0

instance : DecidablePred Plain := fun addr =>
  match addr with
  | v4 _ _ => isTrue trivial
  | v6 _ _ flowinfo scopeId => inferInstanceAs (Decidable (flowinfo = 0 ∧ scopeId = 0))

/-- An address without its flow. -/
def shown : SocketAddr → SocketAddr
  | v4 ip port => v4 ip port
  | v6 ip port _ scopeId => v6 ip port 0 scopeId

theorem Plain.shown {addr : SocketAddr} (h : addr.Plain) : addr.shown = addr := by
  cases addr with
  | v4 ip port => rfl
  | v6 ip port flowinfo scopeId => rw [SocketAddr.shown, h.1]

end SocketAddr

def decimal (n : Nat) : List Char :=
  Nat.toDigits 10 n

def hex (segment : UInt16) : List Char :=
  Nat.toDigits 16 segment.toNat

def Ipv4.display (ip : Ipv4) : List Char :=
  decimal ip.a.toNat ++ '.' :: (decimal ip.b.toNat ++ '.' :: (decimal ip.c.toNat ++
    '.' :: decimal ip.d.toNat))

/-- A run of zero segments. -/
structure Span where
  start : Nat := 0
  len : Nat := 0
  deriving DecidableEq

/-- The first of the longest runs of zeros, from segment `i` on. -/
def zeroSpan : Nat → Span → Span → List UInt16 → Span
  | _, longest, _, [] => longest
  | i, longest, current, segment :: rest =>
    if segment = 0 then
      let current : Span := ⟨if current.len = 0 then i else current.start, current.len + 1⟩
      zeroSpan (i + 1) (if longest.len < current.len then current else longest) current rest
    else zeroSpan (i + 1) longest {} rest

def fmtSubslice : List UInt16 → List Char
  | [] => []
  | first :: tail => hex first ++ tail.flatMap fun segment => ':' :: hex segment

/-- The octets of a segment, as numbers. -/
def highLow (segment : UInt16) : UInt8 × UInt8 :=
  ((segment.toNat / 256).toUInt8, segment.toNat.toUInt8)

def toIpv4Mapped : List UInt16 → Option Ipv4
  | [0, 0, 0, 0, 0, 0xFFFF, ab, cd] =>
    some ⟨(highLow ab).1, (highLow ab).2, (highLow cd).1, (highLow cd).2⟩
  | _ => none

def Ipv6.display (ip : Ipv6) : List Char :=
  match toIpv4Mapped ip.segments with
  | some ipv4 => [':', ':', 'f', 'f', 'f', 'f', ':'] ++ ipv4.display
  | none =>
    let zeroes := zeroSpan 0 {} {} ip.segments
    if 1 < zeroes.len then
      fmtSubslice (ip.segments.take zeroes.start) ++
        ':' :: ':' :: fmtSubslice (ip.segments.drop (zeroes.start + zeroes.len))
    else fmtSubslice ip.segments

def SocketAddr.display : SocketAddr → List Char
  | v4 ip port => ip.display ++ ':' :: decimal port.toNat
  | v6 ip port _ scopeId =>
    '[' :: (ip.display ++ ((if scopeId = 0 then [] else '%' :: decimal scopeId.toNat) ++
      ']' :: ':' :: decimal port.toNat))

def readOctet (text : List Char) : Option (UInt8 × List Char) := do
  let (n, text) ← readNumber 10 (some 3) false 256 text
  return (n.toUInt8, text)

def readIpv4 (text : List Char) : Option (Ipv4 × List Char) := do
  let (a, text) ← readOctet text
  let (b, text) ← readOctet (← readGivenChar '.' text)
  let (c, text) ← readOctet (← readGivenChar '.' text)
  let (d, text) ← readOctet (← readGivenChar '.' text)
  return (⟨a, b, c, d⟩, text)

/-- `read_separator`: no separator stands in front of the first item. -/
def readSeparator {α : Type} (sep : Char) (index : Nat)
    (inner : List Char → Option (α × List Char)) (text : List Char) : Option (α × List Char) :=
  if 0 < index then do inner (← readGivenChar sep text) else inner text

def readSegment (text : List Char) : Option (UInt16 × List Char) := do
  let (n, text) ← readNumber 16 (some 4) true 65536 text
  return (n.toUInt16, text)

/-- `read_groups`, with so many groups left to read: the groups, whether an IPv4 address ended them,
and the text behind them. -/
def readGroups : Nat → Nat → List Char → List UInt16 × Bool × List Char
  | 0, _, text => ([], false, text)
  | left + 1, index, text =>
    match if 0 < left then readSeparator ':' index readIpv4 text else none with
    | some (ip, text) =>
      ([(be16 ip.a ip.b).toUInt16, (be16 ip.c ip.d).toUInt16], true, text)
    | none =>
      match readSeparator ':' index readSegment text with
      | none => ([], false, text)
      | some (group, text) =>
        let (groups, ipv4, text) := readGroups left (index + 1) text
        (group :: groups, ipv4, text)

theorem read_groups_length (left index : Nat) (text : List Char) :
    (readGroups left index text).1.length ≤ left := by
  induction left generalizing index text with
  | zero => exact Nat.le_refl 0
  | succ left ih =>
    unfold readGroups
    split
    · rename_i hipv4
      split at hipv4
      · simp only [List.length_cons, List.length_nil]
        omega
      · cases hipv4
    · split
      · exact Nat.zero_le _
      · exact Nat.succ_le_succ (ih _ _)

/-- The groups on both sides of `::`. -/
def joinGroups (head tail : List UInt16) (h : head.length + tail.length ≤ 8) : Ipv6 where
  segments := head ++ (List.replicate (8 - tail.length - head.length) 0 ++ tail)
  eight := by
    rw [List.length_append, List.length_append, List.length_replicate]
    omega

theorem groups_fit (text behind : List Char) :
    (readGroups 8 0 text).1.length +
      (readGroups (8 - ((readGroups 8 0 text).1.length + 1)) 0 behind).1.length ≤ 8 := by
  have hhead := read_groups_length 8 0 text
  have htail := read_groups_length (8 - ((readGroups 8 0 text).1.length + 1)) 0 behind
  omega

def readIpv6 (text : List Char) : Option (Ipv6 × List Char) :=
  let head := readGroups 8 0 text
  if h : head.1.length = 8 then some (⟨head.1, h⟩, head.2.2)
  else if head.2.1 then none
  else do
    let behind ← readGivenChar ':' head.2.2
    let behind ← readGivenChar ':' behind
    let tail := readGroups (8 - (head.1.length + 1)) 0 behind
    return (joinGroups head.1 tail.1 (groups_fit text behind), tail.2.2)

def readPort (text : List Char) : Option (UInt16 × List Char) := do
  let (n, text) ← readNumber 10 none true 65536 (← readGivenChar ':' text)
  return (n.toUInt16, text)

def readScopeId (text : List Char) : Option (UInt32 × List Char) := do
  let (n, text) ← readNumber 10 none true 4294967296 (← readGivenChar '%' text)
  return (n.toUInt32, text)

def readSocketAddrV4 (text : List Char) : Option (SocketAddr × List Char) := do
  let (ip, text) ← readIpv4 text
  let (port, text) ← readPort text
  return (.v4 ip port, text)

def readSocketAddrV6 (text : List Char) : Option (SocketAddr × List Char) := do
  let (ip, text) ← readIpv6 (← readGivenChar '[' text)
  let (scopeId, text) := (readScopeId text).getD (0, text)
  let (port, text) ← readPort (← readGivenChar ']' text)
  return (.v6 ip port 0 scopeId, text)

/-- `str::parse::<SocketAddr>` -/
def parseSocketAddr (text : List Char) : Option SocketAddr :=
  match (readSocketAddrV4 text).or (readSocketAddrV6 text) with
  | some (addr, []) => some addr
  | _ => none

section Digits

theorem to_digit_colon (radix : Nat) : toDigit radix ':' = none :=
  if_neg (Nat.lt_irrefl _)

theorem to_digit_dot (radix : Nat) : toDigit radix '.' = none :=
  if_neg (Nat.lt_irrefl _)

theorem to_digit_bracket (radix : Nat) : toDigit radix ']' = none :=
  if_neg (Nat.lt_irrefl _)

theorem to_digit_percent (radix : Nat) : toDigit radix '%' = none :=
  if_neg (Nat.lt_irrefl _)

theorem ends_digits_cons {radix : Nat} {c : Char} (h : toDigit radix c = none)
    (rest : List Char) : EndsDigits radix (c :: rest) := by
  intro c' more heq
  cases heq
  exact h

theorem ends_digits_nil (radix : Nat) : EndsDigits radix [] := by
  intro c more h
  cases h

theorem read_octet_decimal (octet : UInt8) {rest : List Char} (hrest : EndsDigits 10 rest) :
    readOctet (decimal octet.toNat ++ rest) = some (octet, rest) := by
  have hlt : octet.toNat < 256 := octet.toNat_lt
  have hread : readNumber 10 (some 3) false 256 (decimal octet.toNat ++ rest) =
      some (octet.toNat, rest) := by
    refine read_number_to_digits (by decide) (by decide) ?_ hlt hrest
    intro limit hlimit
    cases hlimit
    exact ⟨by omega, by decide⟩
  unfold readOctet
  rw [hread]
  exact congrArg some (congrArg (·, rest) UInt8.ofNat_toNat)

theorem read_segment_hex (segment : UInt16) {rest : List Char} (hrest : EndsDigits 16 rest) :
    readSegment (hex segment ++ rest) = some (segment, rest) := by
  have hlt : segment.toNat < 65536 := segment.toNat_lt
  have hread : readNumber 16 (some 4) true 65536 (hex segment ++ rest) =
      some (segment.toNat, rest) := by
    refine read_number_to_digits (by decide) (by decide) ?_ hlt hrest
    intro limit hlimit
    cases hlimit
    exact ⟨by omega, by decide⟩
  unfold readSegment
  rw [hread]
  exact congrArg some (congrArg (·, rest) UInt16.ofNat_toNat)

theorem read_port_decimal (port : UInt16) :
    readPort (':' :: decimal port.toNat) = some (port, []) := by
  have hread : readNumber 10 none true 65536 (decimal port.toNat ++ []) =
      some (port.toNat, []) :=
    read_number_to_digits (by decide) (by decide) (fun _ h => nomatch h) port.toNat_lt
      (ends_digits_nil 10)
  rw [List.append_nil] at hread
  unfold readPort
  rw [show readGivenChar ':' (':' :: decimal port.toNat) = some (decimal port.toNat) from rfl]
  simp only [bind, Option.bind, hread]
  exact congrArg some (congrArg (·, []) UInt16.ofNat_toNat)

end Digits

theorem read_ipv4_display (ip : Ipv4) {rest : List Char} (hrest : EndsDigits 10 rest) :
    readIpv4 (ip.display ++ rest) = some (ip, rest) := by
  have hdot : ∀ more, EndsDigits 10 ('.' :: more) := ends_digits_cons (to_digit_dot 10)
  unfold readIpv4 Ipv4.display
  simp only [List.append_assoc, List.cons_append]
  rw [read_octet_decimal ip.a (hdot _)]
  simp only [bind, Option.bind, readGivenChar, if_true]
  rw [read_octet_decimal ip.b (hdot _)]
  simp only [if_true]
  rw [read_octet_decimal ip.c (hdot _)]
  simp only [if_true]
  rw [read_octet_decimal ip.d hrest]
  rfl

theorem read_digits_cons {radix : Nat} {c : Char} (h : toDigit radix c = none)
    (rest : List Char) : readDigits radix (c :: rest) = ([], c :: rest) := by
  rw [readDigits, h]

/-- A text that starts with no digit is no number. -/
theorem read_number_cons {radix bound : Nat} {maxDigits : Option Nat} {allowZeroFront : Bool}
    {c : Char} (h : toDigit radix c = none) (rest : List Char) :
    readNumber radix maxDigits allowZeroFront bound (c :: rest) = none := by
  unfold readNumber
  rw [read_digits_cons h]
  simp only [if_true]
  split <;> rfl

theorem read_number_rest {radix bound n : Nat} {maxDigits : Option Nat} {allowZeroFront : Bool}
    {text rest : List Char}
    (h : readNumber radix maxDigits allowZeroFront bound text = some (n, rest)) :
    rest = (readDigits radix text).2 := by
  unfold readNumber at h
  simp only at h
  split at h
  · cases h
  · split at h
    · cases h
    · split at h
      · cases h
      · split at h
        · cases h
          rfl
        · cases h

/-- No dot follows the digits of a text in which something else comes before a dot. -/
theorem no_dot_behind {front : List Char} {c : Char} (hfront : '.' ∉ front) (hc : c ≠ '.')
    (hdigit : toDigit 10 c = none) (rest : List Char) :
    readGivenChar '.' (readDigits 10 (front ++ c :: rest)).2 = none := by
  induction front with
  | nil =>
    rw [List.nil_append, read_digits_cons hdigit]
    exact if_neg hc
  | cons first front ih =>
    rw [List.mem_cons, not_or] at hfront
    obtain ⟨hfirst, hfront⟩ := hfront
    rw [List.cons_append, readDigits]
    split
    · exact if_neg (Ne.symm hfirst)
    · exact ih hfront

theorem read_octet_rest {text rest : List Char} {octet : UInt8}
    (h : readOctet text = some (octet, rest)) : rest = (readDigits 10 text).2 := by
  unfold readOctet at h
  obtain ⟨⟨n, behind⟩, hnumber, hsome⟩ := Option.bind_eq_some_iff.mp h
  cases hsome
  exact read_number_rest hnumber

theorem read_ipv4_none {text : List Char}
    (h : readGivenChar '.' (readDigits 10 text).2 = none) : readIpv4 text = none := by
  unfold readIpv4
  cases hoctet : readOctet text with
  | none => rfl
  | some front =>
    obtain ⟨octet, rest⟩ := front
    rw [← read_octet_rest hoctet] at h
    simp only [bind, Option.bind, h]

theorem not_mem_to_digits {radix : Nat} (hone : 1 < radix) (hradix : radix ≤ 16) (n : Nat)
    {c : Char} (hc : toDigit radix c = none) : c ∉ Nat.toDigits radix n := by
  obtain ⟨digits, hdigits, hlt, -, -⟩ := to_digits_digits hone n
  rw [hdigits]
  intro hmem
  obtain ⟨d, hd, rfl⟩ := List.mem_map.mp hmem
  rw [to_digit_digit_char (hlt d hd) hradix] at hc
  cases hc

/-- Behind the last group stands the closing bracket, or the scope in front of it. -/
def EndsAddr (c : Char) : Prop :=
  c = ']' ∨ c = '%'

def EndsGroup (c : Char) : Prop :=
  c = ':' ∨ EndsAddr c

theorem EndsGroup.no_digit {c : Char} (h : EndsGroup c) :
    c ≠ '.' ∧ ∀ radix, toDigit radix c = none := by
  rcases h with rfl | rfl | rfl
  · exact ⟨by decide, to_digit_colon⟩
  · exact ⟨by decide, to_digit_bracket⟩
  · exact ⟨by decide, to_digit_percent⟩

theorem EndsAddr.ne_colon {c : Char} (h : EndsAddr c) : c ≠ ':' := by
  rcases h with rfl | rfl <;> decide

theorem read_ipv4_segment (segment : UInt16) {c : Char} (hc : EndsGroup c)
    (rest : List Char) : readIpv4 (hex segment ++ c :: rest) = none := by
  obtain ⟨hdot, hdigit⟩ := hc.no_digit
  exact read_ipv4_none (no_dot_behind
    (not_mem_to_digits (by decide) (by decide) _ (to_digit_dot 16)) hdot (hdigit 10) rest)

theorem read_ipv4_cons {c : Char} (hc : EndsGroup c) (rest : List Char) :
    readIpv4 (c :: rest) = none := by
  obtain ⟨hdot, hdigit⟩ := hc.no_digit
  refine read_ipv4_none ?_
  rw [read_digits_cons (hdigit 10)]
  exact if_neg hdot

theorem read_segment_cons {c : Char} (hc : EndsGroup c) (rest : List Char) :
    readSegment (c :: rest) = none := by
  unfold readSegment
  rw [read_number_cons (hc.no_digit.2 16)]
  rfl

/-- The text behind the groups on one side: the `::` between the sides, or the end of the address.
-/
def EndsGroups (rest : List Char) : Prop :=
  (∃ more, rest = ':' :: ':' :: more) ∨ ∃ c more, EndsAddr c ∧ rest = c :: more

theorem EndsGroups.first {rest : List Char} (h : EndsGroups rest) :
    ∃ c more, rest = c :: more ∧ EndsGroup c := by
  rcases h with ⟨more, rfl⟩ | ⟨c, more, hc, rfl⟩
  · exact ⟨':', _, rfl, .inl rfl⟩
  · exact ⟨c, more, rfl, .inr hc⟩

/-- Behind a segment comes the colon of the next one or the end of the groups. -/
theorem first_behind {rest : List Char} (h : EndsGroups rest) (tail : List UInt16) :
    ∃ c more, ((tail.flatMap fun segment => ':' :: hex segment) ++ rest) = c :: more ∧
      EndsGroup c := by
  cases tail with
  | nil => exact h.first
  | cons segment tail => exact ⟨':', _, rfl, .inl rfl⟩

theorem read_separator_end {α : Type} {inner : List Char → Option (α × List Char)}
    (hinner : ∀ c more, EndsGroup c → inner (c :: more) = none) {rest : List Char}
    (h : EndsGroups rest) (index : Nat) : readSeparator ':' index inner rest = none := by
  unfold readSeparator
  rcases h with ⟨more, rfl⟩ | ⟨c, more, hc, rfl⟩
  · split
    · exact hinner ':' more (.inl rfl)
    · exact hinner ':' _ (.inl rfl)
  · split
    · rw [readGivenChar, if_neg hc.ne_colon]
      rfl
    · exact hinner c more (.inr hc)

theorem read_groups_end {rest : List Char} (h : EndsGroups rest) (left index : Nat) :
    readGroups left index rest = ([], false, rest) := by
  cases left with
  | zero => rfl
  | succ left =>
    have hipv4 : (if 0 < left then readSeparator ':' index readIpv4 rest else none) = none := by
      split
      · exact read_separator_end (fun _ more hc => read_ipv4_cons hc more) h index
      · rfl
    unfold readGroups
    rw [hipv4, read_separator_end (fun _ more hc => read_segment_cons hc more) h index]

/-- A segment in front of what ends a group is the next group. -/
theorem read_groups_segment {segment : UInt16} {text behind : List Char} {index : Nat}
    (hsep : ∀ inner : List Char → Option (Ipv4 × List Char),
      readSeparator ':' index inner text = inner (hex segment ++ behind))
    (hsegment : readSeparator ':' index readSegment text = readSegment (hex segment ++ behind))
    (hbehind : ∃ c more, behind = c :: more ∧ EndsGroup c) (left : Nat) :
    readGroups (left + 1) index text =
      (segment :: (readGroups left (index + 1) behind).1,
        (readGroups left (index + 1) behind).2) := by
  obtain ⟨c, more, rfl, hc⟩ := hbehind
  have hipv4 : (if 0 < left then readSeparator ':' index readIpv4 text else none) = none := by
    split
    · rw [hsep]
      exact read_ipv4_segment segment hc more
    · rfl
  have hread : readSegment (hex segment ++ c :: more) = some (segment, c :: more) :=
    read_segment_hex segment (ends_digits_cons (hc.no_digit.2 16) more)
  rw [readGroups, hipv4, hsegment, hread]

/-- Groups behind a colon each, as many as are left to read or fewer, are read back. -/
theorem read_groups_tail {tail : List UInt16} {rest : List Char} (h : EndsGroups rest)
    {left index : Nat} (hleft : tail.length ≤ left) (hindex : 0 < index) :
    readGroups left index ((tail.flatMap fun segment => ':' :: hex segment) ++ rest) =
      (tail, false, rest) := by
  induction tail generalizing left index with
  | nil => exact read_groups_end h left index
  | cons segment tail ih =>
    cases left with
    | zero => exact absurd hleft (Nat.not_succ_le_zero _)
    | succ left =>
      have hsep : ∀ {α : Type} (inner : List Char → Option (α × List Char)),
          readSeparator ':' index inner
            (((segment :: tail).flatMap fun segment => ':' :: hex segment) ++ rest) =
              inner (hex segment ++
                ((tail.flatMap fun segment => ':' :: hex segment) ++ rest)) := by
        intro α inner
        rw [readSeparator, if_pos hindex, List.flatMap_cons, List.append_assoc]
        rfl
      rw [read_groups_segment hsep (hsep _) (first_behind h tail) left,
        ih (Nat.le_of_succ_le_succ hleft) (Nat.succ_pos index)]

theorem read_groups_subslice {chunk : List UInt16} {rest : List Char} (h : EndsGroups rest)
    {left : Nat} (hleft : chunk.length ≤ left) :
    readGroups left 0 (fmtSubslice chunk ++ rest) = (chunk, false, rest) := by
  cases chunk with
  | nil => exact read_groups_end h left 0
  | cons segment tail =>
    cases left with
    | zero => exact absurd hleft (Nat.not_succ_le_zero _)
    | succ left =>
      have hsep : ∀ {α : Type} (inner : List Char → Option (α × List Char)),
          readSeparator ':' 0 inner (fmtSubslice (segment :: tail) ++ rest) =
            inner (hex segment ++ ((tail.flatMap fun segment => ':' :: hex segment) ++ rest)) := by
        intro α inner
        rw [readSeparator, if_neg (Nat.lt_irrefl 0), fmtSubslice, List.append_assoc]
      rw [read_groups_segment hsep (hsep _) (first_behind h tail) left,
        read_groups_tail h (Nat.le_of_succ_le_succ hleft) Nat.one_pos]

/-! A run of zeros that the display leaves out stands in the segments. -/

def ZeroIn (segments : List UInt16) (span : Span) : Prop :=
  ∀ k, span.start ≤ k → k < span.start + span.len → segments[k]? = some 0

theorem zero_span_zero {segments rest : List UInt16} {i : Nat} {longest current : Span}
    (hrest : segments.drop i = rest) (hlongest : ZeroIn segments longest)
    (hcurrent : ZeroIn segments current)
    (hend : current.len ≠ 0 → current.start + current.len = i) :
    ZeroIn segments (zeroSpan i longest current rest) := by
  induction rest generalizing i longest current with
  | nil => exact hlongest
  | cons segment rest ih =>
    have hget : segments[i]? = some segment := by
      rw [← List.head?_drop, hrest]
      rfl
    have hdrop : segments.drop (i + 1) = rest := by
      rw [← List.drop_drop, hrest]
      rfl
    unfold zeroSpan
    split
    · rename_i hzero
      subst hzero
      obtain ⟨next, hnext⟩ : ∃ next : Span, next =
        ⟨if current.len = 0 then i else current.start, current.len + 1⟩ := ⟨_, rfl⟩
      have hstop : next.start + next.len = i + 1 := by
        rw [hnext]
        simp only
        split
        · omega
        · rename_i hlen
          have := hend hlen
          omega
      have hzeros : ZeroIn segments next := by
        intro k hle hlt
        rcases Nat.lt_or_ge k i with hk | hk
        · have hlen : current.len ≠ 0 := by
            intro hlen
            rw [hnext, hlen] at hle
            exact absurd hle (Nat.not_le.mpr hk)
          rw [hnext] at hle
          simp only [if_neg hlen] at hle
          exact hcurrent k hle (by rw [hend hlen]; exact hk)
        · have hki : k = i := by omega
          rw [hki]
          exact hget
      subst hnext
      refine ih hdrop ?_ hzeros fun _ => hstop
      by_cases hlonger : longest.len < current.len + 1
      · rw [if_pos hlonger]
        exact hzeros
      · rw [if_neg hlonger]
        exact hlongest
    · exact ih hdrop hlongest (fun k hk hlt => absurd hlt (by simp only; omega))
        (fun h => absurd rfl h)

/-- Around zeros that are left out, the segments are what is left. -/
theorem ZeroIn.split {segments : List UInt16} {span : Span} (h : ZeroIn segments span)
    (hlen : 0 < span.len) :
    span.start + span.len ≤ segments.length ∧
      segments = segments.take span.start ++
        (List.replicate span.len 0 ++ segments.drop (span.start + span.len)) := by
  have hlast := h (span.start + span.len - 1) (by omega) (by omega)
  obtain ⟨hlt, -⟩ := List.getElem?_eq_some_iff.mp hlast
  refine ⟨by omega, ?_⟩
  have hmiddle : (segments.drop span.start).take span.len = List.replicate span.len 0 := by
    refine List.eq_replicate_iff.mpr ⟨?_, ?_⟩
    · rw [List.length_take, List.length_drop]
      omega
    · intro segment hsegment
      obtain ⟨k, hk, hget⟩ := List.mem_iff_getElem.mp hsegment
      rw [List.length_take] at hk
      rw [List.getElem_take, List.getElem_drop] at hget
      have hzero := h (span.start + k) (Nat.le_add_right _ _) (by omega)
      rw [List.getElem?_eq_getElem (by omega), hget] at hzero
      exact Option.some.inj hzero
  rw [← hmiddle, ← List.drop_drop, List.take_append_drop, List.take_append_drop]

theorem read_ipv6_full {text rest : List Char} {ip : Ipv6} {ipv4 : Bool}
    (h : readGroups 8 0 text = (ip.segments, ipv4, rest)) : readIpv6 text = some (ip, rest) := by
  have hfull : (readGroups 8 0 text).1.length = 8 := by
    rw [h]
    exact ip.eight
  unfold readIpv6
  rw [dif_pos hfull]
  simp only [h]

/-- Fewer than eight groups, `::` and the groups of the other side are read as an address with
zeros between the sides. -/
theorem read_ipv6_split {text behind rest : List Char} {head tail : List UInt16} {ip : Ipv6}
    {ipv4 : Bool} (hhead : readGroups 8 0 text = (head, false, ':' :: ':' :: behind))
    (hshort : head.length < 8)
    (htail : readGroups (8 - (head.length + 1)) 0 behind = (tail, ipv4, rest))
    (hip : ip.segments = head ++ (List.replicate (8 - tail.length - head.length) 0 ++ tail)) :
    readIpv6 text = some (ip, rest) := by
  have hne : (readGroups 8 0 text).1.length ≠ 8 := by
    rw [hhead]
    exact Nat.ne_of_lt hshort
  have hjoin : ∀ groups, groups = tail → ∀ hfit, joinGroups head groups hfit = ip := by
    intro groups hgroups hfit
    subst hgroups
    cases ip
    simp only at hip
    subst hip
    rfl
  unfold readIpv6
  rw [dif_neg hne]
  simp only [hhead]
  rw [if_neg Bool.false_ne_true]
  simp only [readGivenChar, if_true, bind, Option.bind]
  have hfit := read_groups_length (8 - (head.length + 1)) 0 behind
  refine congrArg some (Prod.ext (hjoin _ ?_ (by omega)) ?_)
  · rw [htail]
  · exact congrArg (fun read => read.2.2) htail

theorem high_low_segment (segment : UInt16) :
    (be16 (highLow segment).1 (highLow segment).2).toUInt16 = segment := by
  rw [highLow, be16_of_bytes segment.toNat_lt]
  exact UInt16.ofNat_toNat

theorem to_ipv4_mapped_some {segments : List UInt16} {ipv4 : Ipv4}
    (h : toIpv4Mapped segments = some ipv4) :
    segments = [0, 0, 0, 0, 0, 0xFFFF, (be16 ipv4.a ipv4.b).toUInt16,
      (be16 ipv4.c ipv4.d).toUInt16] := by
  unfold toIpv4Mapped at h
  split at h
  · cases h
    rw [high_low_segment, high_low_segment]
  · cases h

theorem EndsAddr.groups {c : Char} (h : EndsAddr c) (rest : List Char) : EndsGroups (c :: rest) :=
  .inr ⟨c, rest, h, rfl⟩

/-- A mapped address is displayed with an IPv4 address at its end. -/
theorem read_ipv6_mapped {ip : Ipv6} {ipv4 : Ipv4} (h : toIpv4Mapped ip.segments = some ipv4)
    {c : Char} (hc : EndsAddr c) (rest : List Char) :
    readIpv6 (ip.display ++ c :: rest) = some (ip, c :: rest) := by
  have hsegments := to_ipv4_mapped_some h
  obtain ⟨text, htext⟩ : ∃ text, text = ipv4.display ++ c :: rest := ⟨_, rfl⟩
  have hdisplay : ip.display ++ c :: rest = ':' :: ':' :: (hex 0xFFFF ++ ':' :: text) := by
    rw [Ipv6.display, h, htext]
    rfl
  have hhead : readGroups 8 0 (':' :: ':' :: (hex 0xFFFF ++ ':' :: text)) =
      ([], false, ':' :: ':' :: (hex 0xFFFF ++ ':' :: text)) :=
    read_groups_end (.inl ⟨_, rfl⟩) 8 0
  have hipv4 : readGroups 6 1 (':' :: text) =
      ([(be16 ipv4.a ipv4.b).toUInt16, (be16 ipv4.c ipv4.d).toUInt16], true, c :: rest) := by
    have hread : readSeparator ':' 1 readIpv4 (':' :: text) = some (ipv4, c :: rest) := by
      rw [htext]
      exact read_ipv4_display ipv4 (ends_digits_cons ((EndsGroup.no_digit (.inr hc)).2 10) rest)
    rw [readGroups, if_pos (by decide), hread]
  have htail : readGroups 7 0 (hex 0xFFFF ++ ':' :: text) =
      (0xFFFF :: [(be16 ipv4.a ipv4.b).toUInt16, (be16 ipv4.c ipv4.d).toUInt16], true,
        c :: rest) := by
    rw [read_groups_segment (fun _ => rfl) rfl ⟨':', text, rfl, .inl rfl⟩ 6, hipv4]
  rw [hdisplay]
  refine read_ipv6_split hhead (by decide) htail ?_
  rw [hsegments]
  rfl

/-- What an IPv6 address is displayed as is read back up to its end. -/
theorem read_ipv6_display (ip : Ipv6) {c : Char} (hc : EndsAddr c) (rest : List Char) :
    readIpv6 (ip.display ++ c :: rest) = some (ip, c :: rest) := by
  have hend := hc.groups rest
  cases hmapped : toIpv4Mapped ip.segments with
  | some ipv4 => exact read_ipv6_mapped hmapped hc rest
  | none =>
    obtain ⟨span, hspan⟩ : ∃ span, span = zeroSpan 0 {} {} ip.segments := ⟨_, rfl⟩
    have hdisplay : ip.display = if 1 < span.len then
        fmtSubslice (ip.segments.take span.start) ++
          ':' :: ':' :: fmtSubslice (ip.segments.drop (span.start + span.len))
      else fmtSubslice ip.segments := by
      rw [Ipv6.display, hmapped, hspan]
    have hzero : ZeroIn ip.segments span := by
      rw [hspan]
      exact zero_span_zero rfl (fun k _ hlt => absurd hlt (Nat.not_lt_zero k))
        (fun k _ hlt => absurd hlt (Nat.not_lt_zero k)) (fun h => absurd rfl h)
    have height := ip.eight
    by_cases hlen : 1 < span.len
    · obtain ⟨hfit, hsplit⟩ := hzero.split (by omega)
      rw [hdisplay, if_pos hlen, List.append_assoc]
      have htake : (ip.segments.take span.start).length = span.start := by
        rw [List.length_take]
        omega
      have hdrop : (ip.segments.drop (span.start + span.len)).length =
          8 - (span.start + span.len) := by
        rw [List.length_drop, height]
      refine read_ipv6_split (read_groups_subslice (.inl ⟨_, rfl⟩) (by omega)) (by omega)
        (read_groups_subslice hend (by omega)) ?_
      rw [htake, hdrop, show 8 - (8 - (span.start + span.len)) - span.start = span.len by omega]
      exact hsplit
    · rw [hdisplay, if_neg hlen]
      exact read_ipv6_full (read_groups_subslice hend height.le)

theorem read_scope_id_decimal (scopeId : UInt32) (rest : List Char) :
    readScopeId ('%' :: (decimal scopeId.toNat ++ ']' :: rest)) = some (scopeId, ']' :: rest) := by
  have hread : readNumber 10 none true 4294967296 (decimal scopeId.toNat ++ ']' :: rest) =
      some (scopeId.toNat, ']' :: rest) :=
    read_number_to_digits (by decide) (by decide) (fun _ h => nomatch h) scopeId.toNat_lt
      (ends_digits_cons (to_digit_bracket 10) rest)
  unfold readScopeId
  rw [show readGivenChar '%' ('%' :: (decimal scopeId.toNat ++ ']' :: rest)) =
    some (decimal scopeId.toNat ++ ']' :: rest) from rfl]
  simp only [bind, Option.bind, hread]
  exact congrArg some (congrArg (·, ']' :: rest) UInt32.ofNat_toNat)

/-- An address behind a bracket, with its scope where it has one, is read back. -/
theorem read_socket_addr_v6 (ip : Ipv6) (port : UInt16) (scopeId : UInt32) :
    readSocketAddrV6 ('[' :: (ip.display ++ ((if scopeId = 0 then [] else
      '%' :: decimal scopeId.toNat) ++ ']' :: ':' :: decimal port.toNat))) =
      some (.v6 ip port 0 scopeId, []) := by
  obtain ⟨behind, hbehind⟩ : ∃ behind, behind = ':' :: decimal port.toNat := ⟨_, rfl⟩
  have hport : readPort behind = some (port, []) := by
    rw [hbehind]
    exact read_port_decimal port
  rw [← hbehind]
  unfold readSocketAddrV6
  by_cases hzero : scopeId = 0
  · rw [if_pos hzero, List.nil_append, hzero]
    simp only [readGivenChar, if_true, bind, Option.bind, read_ipv6_display ip (.inl rfl)]
    rw [show readScopeId (']' :: behind) = none from rfl]
    simp only [Option.getD_none, if_true, hport]
    rfl
  · rw [if_neg hzero, List.cons_append]
    simp only [readGivenChar, if_true, bind, Option.bind, read_ipv6_display ip (.inr rfl),
      read_scope_id_decimal, Option.getD_some, hport]
    rfl

/-- What an address is displayed as says all of it but its flow. -/
theorem parse_shown (addr : SocketAddr) : parseSocketAddr addr.display = some addr.shown := by
  cases addr with
  | v4 ip port =>
    have hip : readIpv4 (ip.display ++ ':' :: decimal port.toNat) =
        some (ip, ':' :: decimal port.toNat) :=
      read_ipv4_display ip (ends_digits_cons (to_digit_colon 10) _)
    have hread : readSocketAddrV4 (ip.display ++ ':' :: decimal port.toNat) =
        some (.v4 ip port, []) := by
      unfold readSocketAddrV4
      simp only [hip, bind, Option.bind, read_port_decimal]
      rfl
    unfold parseSocketAddr
    rw [SocketAddr.display, hread]
    rfl
  | v6 ip port flowinfo scopeId =>
    have hv4 : ∀ text, readSocketAddrV4 ('[' :: text) = none := by
      intro text
      have hip : readIpv4 ('[' :: text) = none := by
        refine read_ipv4_none ?_
        rw [read_digits_cons (show toDigit 10 '[' = none by decide)]
        rfl
      unfold readSocketAddrV4
      rw [hip]
      rfl
    unfold parseSocketAddr
    rw [SocketAddr.display, hv4, read_socket_addr_v6]
    rfl

/-- An address whose scope and flow are zero is read back from what it is displayed as. -/
theorem parse_display {addr : SocketAddr} (h : addr.Plain) :
    parseSocketAddr addr.display = some addr := by
  rw [parse_shown, h.shown]

theorem comma_not_mem_decimal (n : Nat) : ',' ∉ decimal n :=
  not_mem_to_digits (by decide) (by decide) n (by decide)

theorem comma_not_mem_ipv4 (ip : Ipv4) : ',' ∉ ip.display := by
  have hdot : (',' : Char) ≠ '.' := by decide
  simp only [Ipv4.display, List.mem_append, List.mem_cons, comma_not_mem_decimal, hdot, or_self,
    not_false_eq_true]

theorem comma_not_mem_subslice (chunk : List UInt16) : ',' ∉ fmtSubslice chunk := by
  have hhex : ∀ segment, ',' ∉ hex segment := fun segment =>
    not_mem_to_digits (by decide) (by decide) _ (by decide)
  cases chunk with
  | nil => exact List.not_mem_nil
  | cons first tail =>
    intro hmem
    rcases List.mem_append.mp hmem with h | h
    · exact hhex first h
    · obtain ⟨segment, -, h⟩ := List.mem_flatMap.mp h
      rcases List.mem_cons.mp h with h | h
      · cases h
      · exact hhex segment h

theorem comma_not_mem_ipv6 (ip : Ipv6) : ',' ∉ ip.display := by
  have hcolon : (',' : Char) ≠ ':' := by decide
  unfold Ipv6.display
  split
  · rename_i ipv4 _
    have hfront : ',' ∉ [':', ':', 'f', 'f', 'f', 'f', ':'] := by decide
    simp only [List.mem_append, hfront, comma_not_mem_ipv4, or_self, not_false_eq_true]
  · simp only
    split
    · simp only [List.mem_append, List.mem_cons, comma_not_mem_subslice, hcolon, or_self,
        not_false_eq_true]
    · exact comma_not_mem_subslice _

theorem comma_not_mem_display (addr : SocketAddr) : ',' ∉ addr.display := by
  have hcolon : (',' : Char) ≠ ':' := by decide
  have hopen : (',' : Char) ≠ '[' := by decide
  have hclose : (',' : Char) ≠ ']' := by decide
  have hscope : (',' : Char) ≠ '%' := by decide
  cases addr with
  | v4 ip port =>
    simp only [SocketAddr.display, List.mem_append, List.mem_cons, comma_not_mem_ipv4,
      comma_not_mem_decimal, hcolon, or_self, not_false_eq_true]
  | v6 ip port flowinfo scopeId =>
    have hpart : ',' ∉ (if scopeId = 0 then [] else '%' :: decimal scopeId.toNat) := by
      split
      · exact List.not_mem_nil
      · simp only [List.mem_cons, comma_not_mem_decimal, hscope, or_self, not_false_eq_true]
    simp only [SocketAddr.display, List.mem_append, List.mem_cons, comma_not_mem_ipv6,
      comma_not_mem_decimal, hpart, hcolon, hopen, hclose, or_self, not_false_eq_true]

end Lib.Net
