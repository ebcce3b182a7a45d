import TeamClaude.Lib.BaseCode
import TeamClaude.Lib.Slices
import TeamClaude.Peer.DialAddrs

/-!
# Keys in base32

The alphabet in which keys and longer runs of bytes are written for pasting, and what is read of
one. The codec itself is a parameter; `crockford` is one that does what it is documented to do.
-/

namespace TeamClaude

def crockfordAlphabet : List Char :=
  ['0', '1', '2', '3', '4', '5', '6', '7', '8', '9', 'A', 'B', 'C', 'D', 'E', 'F', 'G', 'H', 'J',
    'K', 'M', 'N', 'P', 'Q', 'R', 'S', 'T', 'V', 'W', 'X', 'Y', 'Z']

/-- The characters that are translated, `spec.translate.from`. -/
def translateFrom : List Char :=
  ['a', 'b', 'c', 'd', 'e', 'f', 'g', 'h', 'j', 'k', 'm', 'n', 'p', 'q', 'r', 's', 't', 'v', 'w',
    'x', 'y', 'z']

/-- The symbol that a character is read as. -/
def crockfordFold (c : Char) : Char :=
  if c ∈ translateFrom then c.toUpper else c

inductive PeerIdError
  | alphabet (c : Char)
  | length (got : Nat)
  | malformed (length : Nat)
  deriving DecidableEq

/-- `PeerId`: a public key. -/
structure PeerKey where
  key : Octets 32
  deriving DecidableEq

/-- The character that starts at a byte of a text. -/
def charFrom : List Char → Nat → Option Char
  | [], _ => none
  | c :: text, pos =>
    if pos = 0 then some c
    else if c.utf8Size ≤ pos then charFrom text (pos - c.utf8Size)
    else none

section
variable (base : Lib.Encoding)

def crockfordDecode (s : List Char) : Except PeerIdError (List UInt8) :=
  match base.decode s with
  | .ok bytes => .ok bytes
  | .error err =>
    match err.kind with
    | .symbol => .error (.alphabet ((charFrom s err.position).getD '\uFFFD'))
    | _ => .error (.malformed s.length)

def encodeKey32 (key : Octets 32) : List Char :=
  base.encode key.1

def decodeKey32 (field : List Char) : Except PeerIdError (Octets 32) := do
  let bytes ← crockfordDecode base field
  if h : bytes.length = 32 then .ok ⟨bytes, h⟩ else .error (.length bytes.length)

def PeerKey.toWire (id : PeerKey) : List Char :=
  base.encode id.key.1

def PeerKey.parse (wire : List Char) : Except PeerIdError PeerKey := do
  let key ← decodeKey32 base wire
  return ⟨key⟩

end

abbrev CodecLawful (base : Lib.Encoding) : Prop :=
  base.Lawful crockfordFold crockfordAlphabet

section
variable {base : Lib.Encoding} {s : List Char} {bytes : List UInt8}

theorem crockford_decode_ok : crockfordDecode base s = .ok bytes ↔ base.decode s = .ok bytes := by
  unfold crockfordDecode
  split
  · rename_i found hfound
    rw [hfound, Except.ok.injEq, Except.ok.injEq]
  · rename_i err herr
    rw [herr]
    constructor
    · intro h
      split at h <;> cases h
    · intro h
      cases h

theorem decode_key32_encode (hbase : CodecLawful base) (key : Octets 32) :
    decodeKey32 base (encodeKey32 base key) = .ok key := by
  have hdecode := crockford_decode_ok.mpr (hbase.decode_encode key.1)
  unfold decodeKey32 encodeKey32
  simp only [hdecode, bind, Except.bind]
  rw [dif_pos key.2]

theorem peer_key_parse_to_wire (hbase : CodecLawful base) (id : PeerKey) :
    PeerKey.parse base (id.toWire base) = .ok id := by
  have hkey := decode_key32_encode hbase id.key
  unfold PeerKey.parse PeerKey.toWire
  unfold encodeKey32 at hkey
  rw [hkey]
  rfl

theorem fold_encode (hbase : CodecLawful base) (bytes : List UInt8) :
    (base.encode bytes).map crockfordFold = base.encode bytes :=
  (hbase.encode_decode _ _ (hbase.decode_encode bytes)).symm

theorem fold_symbol {c : Char} (h : c ∈ crockfordAlphabet) : crockfordFold c = c := by
  have hall : ∀ c ∈ crockfordAlphabet, crockfordFold c = c := Lib.forall_mem_of_all (by decide)
  exact hall c h

theorem lower_mem {c : Char} (h : c.isLower = true) :
    c ∈ "abcdefghijklmnopqrstuvwxyz".toList := by
  have hrange := Bool.and_eq_true_iff.mp h
  have hlo : 97 ≤ c.toNat := of_decide_eq_true hrange.1
  have hhi : c.toNat ≤ 122 := of_decide_eq_true hrange.2
  rw [← Char.ofNat_toNat c]
  generalize c.toNat = n at hlo hhi
  interval_cases n <;> decide

theorem to_upper_of_not_lower {c : Char} (h : ¬c.isLower = true) : c.toUpper = c := by
  unfold Char.toUpper
  exact dif_neg fun hlower => h
    (Bool.and_eq_true_iff.mpr ⟨decide_eq_true hlower.1, decide_eq_true hlower.2⟩)

/-- A character that is a symbol in upper case is read as that symbol. -/
theorem fold_of_upper {c : Char} (h : c.toUpper ∈ crockfordAlphabet) :
    crockfordFold c = c.toUpper := by
  have hall : ∀ c ∈ "abcdefghijklmnopqrstuvwxyz".toList,
      c.toUpper ∈ crockfordAlphabet → crockfordFold c = c.toUpper :=
    Lib.forall_mem_of_all (by decide)
  by_cases hlower : c.isLower = true
  · exact hall c (lower_mem hlower) h
  · rw [to_upper_of_not_lower hlower] at h ⊢
    exact fold_symbol h

theorem no_space_of_upper {c : Char} (h : c.toUpper ∈ crockfordAlphabet) :
    Lib.isWhiteSpace c = false := by
  have hlowers : ∀ c ∈ "abcdefghijklmnopqrstuvwxyz".toList, Lib.isWhiteSpace c = false :=
    Lib.forall_mem_of_all (by decide)
  have halphabet : ∀ c ∈ crockfordAlphabet, Lib.isWhiteSpace c = false :=
    Lib.forall_mem_of_all (by decide)
  by_cases hlower : c.isLower = true
  · exact hlowers c (lower_mem hlower)
  · rw [to_upper_of_not_lower hlower] at h
    exact halphabet c h

/-- A text that decodes is the encoding of its bytes, but for the case of its letters. -/
theorem upper_of_decode (hbase : CodecLawful base) (h : base.decode s = .ok bytes) :
    s.map Char.toUpper = base.encode bytes := by
  have hfold := hbase.encode_decode s bytes h
  rw [hfold]
  refine List.map_congr_left fun c hc => ?_
  have hsymbol : crockfordFold c ∈ crockfordAlphabet := by
    refine hbase.encode_symbols bytes _ ?_
    rw [hfold]
    exact List.mem_map_of_mem hc
  unfold crockfordFold at hsymbol ⊢
  split at hsymbol
  · rename_i hfrom
    rw [if_pos hfrom]
  · rename_i hfrom
    have hall : ∀ c ∈ crockfordAlphabet, c.toUpper = c := Lib.forall_mem_of_all (by decide)
    rw [if_neg hfrom, hall c hsymbol]

theorem encode_inj (hbase : CodecLawful base) {other : List UInt8}
    (h : base.encode bytes = base.encode other) : bytes = other := by
  have hdecode := hbase.decode_encode bytes
  rw [h, hbase.decode_encode] at hdecode
  exact (Except.ok.inj hdecode).symm

theorem encode_no_space (hbase : CodecLawful base) (bytes : List UInt8) :
    ∀ c ∈ base.encode bytes, Lib.isWhiteSpace c = false := by
  have halphabet : ∀ c ∈ crockfordAlphabet, Lib.isWhiteSpace c = false :=
    Lib.forall_mem_of_all (by decide)
  exact fun c hc => halphabet c (hbase.encode_symbols bytes c hc)

theorem upper_encode (hbase : CodecLawful base) (bytes : List UInt8) :
    (base.encode bytes).map Char.toUpper = base.encode bytes := by
  have hall : ∀ c ∈ crockfordAlphabet, c.toUpper = c := Lib.forall_mem_of_all (by decide)
  exact (List.map_congr_left fun c hc => hall c (hbase.encode_symbols bytes c hc)).trans
    (List.map_id _)

theorem encode_ne_nil (hbase : CodecLawful base) {bytes : List UInt8} (h : bytes ≠ []) :
    base.encode bytes ≠ [] := by
  intro hnil
  have hfront := hbase.encode_front bytes [] (hnil ▸ List.nil_prefix)
  exact h (List.prefix_nil.mp hfront)

theorem colon_not_mem_encode (hbase : CodecLawful base) (bytes : List UInt8) :
    ':' ∉ base.encode bytes :=
  fun hc => absurd (hbase.encode_symbols bytes ':' hc) (by decide)

end

/-! ## A codec -/

def crockfordSymbol (n : Nat) : Char :=
  crockfordAlphabet.getD n '0'

def crockfordValue (c : Char) : Option Nat :=
  let n := crockfordAlphabet.idxOf (crockfordFold c)
  if n < 32 then some n else none

theorem fold_fold (c : Char) : crockfordFold (crockfordFold c) = crockfordFold c := by
  have hall : ∀ c ∈ translateFrom, crockfordFold c ∈ crockfordAlphabet :=
    Lib.forall_mem_of_all (by decide)
  by_cases hc : c ∈ translateFrom
  · exact fold_symbol (hall c hc)
  · have hfold : crockfordFold c = c := if_neg hc
    rw [hfold, hfold]

/-- The alphabet, most significant bit first and five bits a symbol, with lower case read as upper
case. -/
def crockford : Lib.Alphabet where
  width := 5
  symbol := crockfordSymbol
  value := crockfordValue
  fold := crockfordFold
  width_pos := by decide
  width_le := by decide
  value_symbol := by decide
  symbol_value := by
    intro c n h
    unfold crockfordValue at h
    simp only at h
    split at h
    · rename_i hlt
      cases h
      refine ⟨hlt, ?_⟩
      have hmem : crockfordFold c ∈ crockfordAlphabet := List.idxOf_lt_length_iff.mp hlt
      unfold crockfordSymbol
      rw [List.getD_eq_getElem?_getD, List.getElem?_idxOf hmem]
      rfl
    · cases h
  value_fold := by
    intro c
    unfold crockfordValue
    rw [fold_fold]

theorem crockford_lawful : CodecLawful crockford.encoding :=
  Lib.Alphabet.encoding_lawful (a := crockford) (by decide)

end TeamClaude
