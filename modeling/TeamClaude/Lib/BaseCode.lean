import Mathlib.Data.List.Infix
import Mathlib.Tactic.Linarith

/-!
# Bytes spelt in an alphabet

An encoding of bytes in symbols of a fixed number of bits each, most significant bit first, without
padding symbols. `Encoding` is what a program sees of one and `Encoding.Lawful` what it may rely on;
an `Alphabet` gives such an encoding.
-/

namespace Lib

/-- The lowest bits of a number, most significant first. -/
def toBits : Nat → Nat → List Bool
  | 0, _ => []
  | width + 1, n => toBits width (n / 2) ++ [n % 2 == 1]

def ofBits (bits : List Bool) : Nat :=
  bits.foldl (fun n bit => 2 * n + bit.toNat) 0

/-- The numbers that runs of `width` bits spell, as many as asked for. -/
def groups (width : Nat) : Nat → List Bool → List Nat
  | 0, _ => []
  | count + 1, bits => ofBits (bits.take width) :: groups width count (bits.drop width)

theorem to_bits_length (width n : Nat) : (toBits width n).length = width := by
  induction width generalizing n with
  | zero => rfl
  | succ width ih => rw [toBits, List.length_append, ih, List.length_singleton]

theorem of_bits_concat (bits : List Bool) (bit : Bool) :
    ofBits (bits ++ [bit]) = 2 * ofBits bits + bit.toNat := by
  rw [ofBits, List.foldl_append]
  rfl

theorem of_bits_to_bits {width n : Nat} (h : n < 2 ^ width) : ofBits (toBits width n) = n := by
  induction width generalizing n with
  | zero =>
    rw [Nat.pow_zero, Nat.lt_one_iff] at h
    exact h.symm
  | succ width ih =>
    rw [Nat.pow_succ] at h
    rw [toBits, of_bits_concat, ih (by omega)]
    rcases Nat.mod_two_eq_zero_or_one n with hn | hn
    · rw [hn]
      change 2 * (n / 2) + 0 = n
      omega
    · rw [hn]
      change 2 * (n / 2) + 1 = n
      omega

theorem of_bits_lt (bits : List Bool) : ofBits bits < 2 ^ bits.length := by
  induction bits using List.reverseRecOn with
  | nil => exact Nat.one_pos
  | append_singleton bits bit ih =>
    have hbit := Bool.toNat_lt bit
    rw [of_bits_concat, List.length_append, List.length_singleton, Nat.pow_succ]
    omega

theorem to_bits_of_bits (bits : List Bool) : toBits bits.length (ofBits bits) = bits := by
  induction bits using List.reverseRecOn with
  | nil => rfl
  | append_singleton bits bit ih =>
    rw [of_bits_concat, List.length_append, List.length_singleton, toBits]
    have hbit := Bool.toNat_lt bit
    have hhalf : (2 * ofBits bits + bit.toNat) / 2 = ofBits bits := by omega
    have hodd : (2 * ofBits bits + bit.toNat) % 2 = bit.toNat := by omega
    rw [hhalf, hodd, ih]
    cases bit <;> rfl

/-- The lowest bits of a number are those of its upper part and then those of its lower part. -/
theorem to_bits_add (high low n : Nat) :
    toBits (high + low) n = toBits high (n / 2 ^ low) ++ toBits low n := by
  induction low generalizing n with
  | zero => simp [toBits]
  | succ low ih =>
    rw [← Nat.add_assoc, toBits, toBits, ih, List.append_assoc, Nat.div_div_eq_div_mul,
      Nat.pow_succ, Nat.mul_comm 2]

/-- Bits above the lowest ones are not seen. -/
theorem to_bits_mod {width count : Nat} (h : width ≤ count) (n : Nat) :
    toBits width (n % 2 ^ count) = toBits width n := by
  induction width generalizing n count with
  | zero => rfl
  | succ width ih =>
    obtain ⟨count, rfl⟩ := Nat.exists_eq_succ_of_ne_zero (Nat.ne_of_gt (Nat.lt_of_lt_of_le
      (Nat.succ_pos width) h))
    have hhalf : n % 2 ^ (count + 1) / 2 = n / 2 % 2 ^ count := by
      rw [Nat.pow_succ, Nat.mul_comm, Nat.mod_mul_right_div_self]
    have hodd : n % 2 ^ (count + 1) % 2 = n % 2 := by
      rw [Nat.mod_mod_of_dvd n (Dvd.intro_left _ (Nat.pow_succ ..).symm)]
    rw [toBits, toBits, hhalf, hodd, ih (Nat.le_of_succ_le_succ h)]

/-- The bits of numbers of `width` bits each. -/
def ungroup (width : Nat) (values : List Nat) : List Bool :=
  values.flatMap (toBits width)

section
variable {width count : Nat} {bits : List Bool} {values : List Nat}

theorem groups_length (width count : Nat) (bits : List Bool) :
    (groups width count bits).length = count := by
  induction count generalizing bits with
  | zero => rfl
  | succ count ih => rw [groups, List.length_cons, ih]

theorem groups_lt : ∀ v ∈ groups width count bits, v < 2 ^ width := by
  induction count generalizing bits with
  | zero => exact fun v hv => nomatch hv
  | succ count ih =>
    rintro v (_ | ⟨_, hv⟩)
    · refine (of_bits_lt _).trans_le (Nat.pow_le_pow_right Nat.two_pos ?_)
      rw [List.length_take]
      exact Nat.min_le_left _ _
    · exact ih v hv

theorem ungroup_length (width : Nat) (values : List Nat) :
    (ungroup width values).length = width * values.length := by
  induction values with
  | nil => rfl
  | cons v values ih =>
    rw [ungroup, List.flatMap_cons, List.length_append, to_bits_length]
    rw [ungroup] at ih
    rw [ih, List.length_cons, Nat.mul_succ, Nat.add_comm]

theorem ungroup_groups (h : bits.length = width * count) :
    ungroup width (groups width count bits) = bits := by
  induction count generalizing bits with
  | zero => exact (List.eq_nil_of_length_eq_zero h).symm
  | succ count ih =>
    rw [Nat.mul_succ] at h
    have htake : (bits.take width).length = width := by
      rw [List.length_take]
      omega
    have hdrop : (bits.drop width).length = width * count := by
      rw [List.length_drop]
      omega
    have hrest := ih hdrop
    have hfirst := to_bits_of_bits (bits.take width)
    rw [htake] at hfirst
    rw [groups, ungroup, List.flatMap_cons, hfirst]
    rw [ungroup] at hrest
    rw [hrest, List.take_append_drop]

/-- Numbers of `width` bits are read back, whatever follows their bits. -/
theorem groups_ungroup (h : ∀ v ∈ values, v < 2 ^ width) (more : List Bool) :
    groups width values.length (ungroup width values ++ more) = values := by
  induction values with
  | nil => rfl
  | cons v values ih =>
    have hlen := to_bits_length width v
    have hrest := ih fun u hu => h u (List.mem_cons_of_mem v hu)
    rw [ungroup, List.flatMap_cons, List.length_cons, groups, List.append_assoc,
      List.take_left' hlen, List.drop_left' hlen, of_bits_to_bits (h v List.mem_cons_self)]
    exact congrArg (v :: ·) hrest

theorem ungroup_concat (width : Nat) (values : List Nat) (v : Nat) :
    ungroup width (values ++ [v]) = ungroup width values ++ toBits width v := by
  rw [ungroup, ungroup, List.flatMap_append, List.flatMap_singleton]

theorem ungroup_inj {others : List Nat} (h : ∀ v ∈ values, v < 2 ^ width)
    (h' : ∀ v ∈ others, v < 2 ^ width) (hlength : values.length = others.length)
    (heq : ungroup width values = ungroup width others) : values = others := by
  have hback := groups_ungroup h []
  rw [heq, hlength, groups_ungroup h' []] at hback
  exact hback.symm

/-- Numbers whose bits agree up to the lowest of the last one agree but for these. -/
theorem ungroup_front {others : List Nat} {common low low' : List Bool}
    (h : ∀ v ∈ values, v < 2 ^ width) (h' : ∀ v ∈ others, v < 2 ^ width)
    (hlength : values.length = others.length) (hvalues : ungroup width values = common ++ low)
    (hothers : ungroup width others = common ++ low') (hlow : low.length = low'.length)
    (hwidth : low.length ≤ width) :
    values.dropLast = others.dropLast ∧ ∀ v ∈ values.getLast?, ∀ u ∈ others.getLast?,
      v / 2 ^ low.length = u / 2 ^ low.length := by
  rcases values.eq_nil_or_concat' with rfl | ⟨front, v, rfl⟩
  · obtain rfl := List.eq_nil_of_length_eq_zero hlength.symm
    simp
  rcases others.eq_nil_or_concat' with rfl | ⟨front', u, rfl⟩
  · simp at hlength
  have hsplit : width = width - low.length + low.length := by omega
  have hupper : ∀ {xs : List Nat} {x : Nat} {tail : List Bool}, tail.length = low.length →
      ungroup width (xs ++ [x]) = common ++ tail →
      ungroup width xs ++ toBits (width - low.length) (x / 2 ^ low.length) = common := by
    intro xs x tail htail hbits
    rw [ungroup_concat, hsplit, to_bits_add, ← hsplit, ← List.append_assoc] at hbits
    exact (List.append_inj' hbits (by rw [to_bits_length, htail])).1
  have hsame := (hupper rfl hvalues).trans (hupper hlow.symm hothers).symm
  have hfronts : front.length = front'.length := by simpa using hlength
  obtain ⟨hfront, hlast⟩ := List.append_inj hsame
    (by rw [ungroup_length, ungroup_length, hfronts])
  have hupper_lt : ∀ {x : Nat}, x < 2 ^ width → x / 2 ^ low.length < 2 ^ (width - low.length) := by
    intro x hx
    rw [hsplit, Nat.pow_add] at hx
    exact Nat.div_lt_of_lt_mul (by rwa [Nat.mul_comm])
  have hv : v < 2 ^ width := h v (by simp)
  have hu : u < 2 ^ width := h' u (by simp)
  constructor
  · rw [List.dropLast_concat, List.dropLast_concat]
    exact ungroup_inj (fun x hx => h x (by simp [hx])) (fun x hx => h' x (by simp [hx])) hfronts
      hfront
  · simp only [List.getLast?_concat, Option.mem_some_iff, forall_eq']
    rw [← of_bits_to_bits (hupper_lt hv), hlast, of_bits_to_bits (hupper_lt hu)]

end

def octetBits (bytes : List UInt8) : List Bool :=
  ungroup 8 (bytes.map UInt8.toNat)

theorem octet_bits_length (bytes : List UInt8) : (octetBits bytes).length = 8 * bytes.length := by
  rw [octetBits, ungroup_length, List.length_map]

theorem octet_bits_append (front back : List UInt8) :
    octetBits (front ++ back) = octetBits front ++ octetBits back := by
  rw [octetBits, List.map_append, ungroup, List.flatMap_append]
  rfl

/-- The bytes that bits spell, as many as asked for. -/
def octets (count : Nat) (bits : List Bool) : List UInt8 :=
  (groups 8 count bits).map Nat.toUInt8

theorem octets_octet_bits (bytes : List UInt8) (more : List Bool) :
    octets bytes.length (octetBits bytes ++ more) = bytes := by
  have hlt : ∀ v ∈ bytes.map UInt8.toNat, v < 2 ^ 8 := by
    intro v hv
    obtain ⟨b, -, rfl⟩ := List.mem_map.mp hv
    exact b.toNat_lt
  have hback := groups_ungroup hlt more
  rw [List.length_map] at hback
  rw [octets, octetBits, hback, List.map_map]
  exact (List.map_congr_left fun b _ => UInt8.ofNat_toNat).trans (List.map_id _)

theorem octets_length (count : Nat) (bits : List Bool) : (octets count bits).length = count := by
  rw [octets, List.length_map, groups_length]

theorem octet_bits_octets {count : Nat} {bits : List Bool} (h : bits.length = 8 * count)
    (more : List Bool) : octetBits (octets count (bits ++ more)) = bits := by
  have hback : (octets count bits).map UInt8.toNat = groups 8 count bits := by
    rw [octets, List.map_map]
    refine (List.map_congr_left fun v hv => ?_).trans (List.map_id _)
    rw [Function.comp_apply, Nat.toUInt8_eq, UInt8.toNat_ofNat', Nat.mod_eq_of_lt (groups_lt v hv)]
    rfl
  have hbits : octetBits (octets count bits) = bits := by
    rw [octetBits, hback, ungroup_groups h]
  have hmore := octets_octet_bits (octets count bits) more
  rw [hbits, octets_length] at hmore
  rw [hmore, hbits]

inductive DecodeKind
  | length
  | symbol
  | trailing
  deriving DecidableEq

/-- Why a text does not decode, and where. -/
structure DecodeError where
  position : Nat
  kind : DecodeKind
  deriving DecidableEq

structure Encoding where
  encode : List UInt8 → List Char
  decode : List Char → Except DecodeError (List UInt8)

/-- What an encoding is documented to do: decoding gives back what was encoded, a text that decodes
is the encoding of its bytes up to the characters that are read as one symbol, and an encoding in
front of another is of bytes in front of the other's. -/
structure Encoding.Lawful (base : Encoding) (fold : Char → Char) (symbols : List Char) : Prop where
  decode_encode : ∀ bytes, base.decode (base.encode bytes) = .ok bytes
  encode_decode : ∀ text bytes, base.decode text = .ok bytes → base.encode bytes = text.map fold
  decode_fold : ∀ text bytes, base.decode (text.map fold) = .ok bytes → base.decode text = .ok bytes
  encode_symbols : ∀ bytes, ∀ c ∈ base.encode bytes, c ∈ symbols
  encode_front : ∀ front bytes, base.encode front <+: base.encode bytes → front <+: bytes

/-- Encodings of equally many bytes are equally long. -/
def Encoding.Uniform (base : Encoding) : Prop :=
  ∀ bytes other : List UInt8, bytes.length = other.length →
    (base.encode bytes).length = (base.encode other).length

/-- Symbols of `width` bits each; a character is read as the symbol it folds to. -/
structure Alphabet where
  width : Nat
  symbol : Nat → Char
  value : Char → Option Nat
  fold : Char → Char
  width_pos : 0 < width
  width_le : width ≤ 8
  value_symbol : ∀ n, n < 2 ^ width → value (symbol n) = some n
  symbol_value : ∀ c n, value c = some n → n < 2 ^ width ∧ symbol n = fold c
  value_fold : ∀ c, value (fold c) = value c

namespace Alphabet

variable (a : Alphabet)

def symbolCount (bits : Nat) : Nat :=
  (bits + (a.width - 1)) / a.width

/-- Bits up to a whole number of symbols. -/
def pad (bits : List Bool) : List Bool :=
  bits ++ List.replicate (a.width * a.symbolCount bits.length - bits.length) false

def values (bytes : List UInt8) : List Nat :=
  groups a.width (a.symbolCount (octetBits bytes).length) (a.pad (octetBits bytes))

def encode (bytes : List UInt8) : List Char :=
  (a.values bytes).map a.symbol

/-- A text has no symbol to spare, only symbols, and zeros behind its last byte. -/
def decode (text : List Char) : Except DecodeError (List UInt8) :=
  let spare := a.width * text.length % 8
  if a.width ≤ spare then .error ⟨text.length - spare / a.width, .length⟩
  else
    match text.mapM a.value with
    | none => .error ⟨text.findIdx fun c => (a.value c).isNone, .symbol⟩
    | some values =>
      let bits := ungroup a.width values
      let count := bits.length / 8
      if true ∈ bits.drop (8 * count) then .error ⟨text.length - 1, .trailing⟩
      else .ok (octets count bits)

def encoding : Encoding where
  encode := a.encode
  decode := a.decode

variable {a} {bits : List Bool} {bytes : List UInt8} {text : List Char}

theorem symbol_count_bounds (n : Nat) :
    n ≤ a.width * a.symbolCount n ∧ a.width * a.symbolCount n < n + a.width := by
  have hpos := a.width_pos
  have hdiv := Nat.div_add_mod (n + (a.width - 1)) a.width
  have hmod := Nat.mod_lt (n + (a.width - 1)) hpos
  unfold symbolCount
  omega

theorem pad_length (bits : List Bool) :
    (a.pad bits).length = a.width * a.symbolCount bits.length := by
  have hbounds := symbol_count_bounds (a := a) bits.length
  rw [pad, List.length_append, List.length_replicate]
  omega

theorem ungroup_values (bytes : List UInt8) :
    ungroup a.width (a.values bytes) = a.pad (octetBits bytes) :=
  ungroup_groups (pad_length _)

theorem map_m_symbol {values : List Nat} (h : ∀ v ∈ values, v < 2 ^ a.width) :
    (values.map a.symbol).mapM a.value = some values := by
  induction values with
  | nil => rfl
  | cons v values ih =>
    rw [List.map_cons, List.mapM_cons, a.value_symbol v (h v List.mem_cons_self),
      ih fun u hu => h u (List.mem_cons_of_mem v hu)]
    rfl

theorem filter_map_symbol {values : List Nat} (h : ∀ v ∈ values, v < 2 ^ a.width) :
    (values.map a.symbol).filterMap a.value = values := by
  induction values with
  | nil => rfl
  | cons v values ih =>
    rw [List.map_cons, List.filterMap_cons, a.value_symbol v (h v List.mem_cons_self)]
    exact congrArg (v :: ·) (ih fun u hu => h u (List.mem_cons_of_mem v hu))

theorem encode_length (bytes : List UInt8) :
    (a.encode bytes).length = a.symbolCount (octetBits bytes).length := by
  rw [encode, List.length_map, values, groups_length]

theorem encoding_uniform : a.encoding.Uniform := by
  intro bytes other h
  change (a.encode bytes).length = (a.encode other).length
  rw [encode_length, encode_length, octet_bits_length, octet_bits_length, h]

theorem decode_encode (bytes : List UInt8) : a.decode (a.encode bytes) = .ok bytes := by
  have hbounds := symbol_count_bounds (a := a) (octetBits bytes).length
  have hle := a.width_le
  have hlen := encode_length (a := a) bytes
  have hbits := octet_bits_length bytes
  have hspare : ¬a.width ≤ a.width * (a.encode bytes).length % 8 := by
    rw [hlen]
    omega
  have hmap : (a.encode bytes).mapM a.value = some (a.values bytes) :=
    map_m_symbol groups_lt
  have hcount : (a.pad (octetBits bytes)).length / 8 = bytes.length := by
    rw [pad_length]
    omega
  have hdrop : true ∉ (a.pad (octetBits bytes)).drop (8 * bytes.length) := by
    rw [pad, List.drop_left' hbits]
    exact fun htrue => Bool.noConfusion (List.eq_of_mem_replicate htrue)
  unfold decode
  simp only [if_neg hspare, hmap, ungroup_values, hcount, if_neg hdrop]
  exact congrArg Except.ok (octets_octet_bits bytes _)

theorem map_m_value {values : List Nat} (h : text.mapM a.value = some values) :
    (∀ v ∈ values, v < 2 ^ a.width) ∧ values.map a.symbol = text.map a.fold := by
  induction text generalizing values with
  | nil =>
    cases h
    exact ⟨fun v hv => absurd hv List.not_mem_nil, rfl⟩
  | cons c text ih =>
    rw [List.mapM_cons] at h
    obtain ⟨v, hv, h⟩ := Option.bind_eq_some_iff.mp h
    obtain ⟨rest, hrest, h⟩ := Option.bind_eq_some_iff.mp h
    cases h
    obtain ⟨hlt, hsymbols⟩ := ih hrest
    obtain ⟨hvlt, hsymbol⟩ := a.symbol_value c v hv
    constructor
    · rintro u (_ | ⟨_, hu⟩)
      · exact hvlt
      · exact hlt u hu
    · rw [List.map_cons, List.map_cons, hsymbol, hsymbols]

/-- A text that decodes spells its bytes and then zeros, up to a whole number of symbols. -/
theorem decode_ok (h : a.decode text = .ok bytes) :
    ∃ values, text.mapM a.value = some values ∧
      text.length = a.symbolCount (octetBits bytes).length ∧
        ungroup a.width values = a.pad (octetBits bytes) := by
  have hpos := a.width_pos
  have hle := a.width_le
  unfold decode at h
  simp only at h
  split at h
  · cases h
  · rename_i hspare
    split at h
    · cases h
    · rename_i values hvalues
      split at h
      · cases h
      · rename_i hzeros
        cases h
        obtain ⟨-, hsymbols⟩ := map_m_value hvalues
        have hcount : values.length = text.length := by
          simpa using congrArg List.length hsymbols
        have hlen : (ungroup a.width values).length = a.width * text.length := by
          rw [ungroup_length, hcount]
        obtain ⟨count, hdiv⟩ : ∃ count, count = (ungroup a.width values).length / 8 := ⟨_, rfl⟩
        rw [← hdiv] at hzeros ⊢
        have htake : ((ungroup a.width values).take (8 * count)).length = 8 * count := by
          rw [List.length_take]
          omega
        have hoctets : octetBits (octets count (ungroup a.width values)) =
            (ungroup a.width values).take (8 * count) := by
          have hbits := octet_bits_octets htake ((ungroup a.width values).drop (8 * count))
          rwa [List.take_append_drop] at hbits
        have hspelt : text.length = a.symbolCount (8 * count) := by
          rw [symbolCount]
          refine (Nat.div_eq_of_lt_le ?_ ?_).symm
          · rw [Nat.mul_comm]
            omega
          · rw [Nat.mul_comm _ a.width, Nat.mul_succ]
            omega
        have hdrop : (ungroup a.width values).drop (8 * count) =
            List.replicate (a.width * text.length - 8 * count) false := by
          refine List.eq_replicate_iff.mpr ⟨by rw [List.length_drop, hlen], fun bit hbit => ?_⟩
          cases bit with
          | false => rfl
          | true => exact absurd hbit hzeros
        refine ⟨values, hvalues, ?_, ?_⟩
        · rw [hoctets, htake, hspelt]
        · rw [pad, hoctets, htake, ← hspelt, ← hdrop, List.take_append_drop]

theorem encode_decode (h : a.decode text = .ok bytes) : a.encode bytes = text.map a.fold := by
  obtain ⟨values, hvalues, hlen, hbits⟩ := decode_ok h
  obtain ⟨hlt, hsymbols⟩ := map_m_value hvalues
  have hcount : values.length = text.length := by
    simpa using congrArg List.length hsymbols
  have hback := groups_ungroup hlt []
  rw [List.append_nil, hbits, hcount, hlen] at hback
  rw [encode, Alphabet.values, hback, hsymbols]

theorem map_m_fold (text : List Char) : (text.map a.fold).mapM a.value = text.mapM a.value := by
  induction text with
  | nil => rfl
  | cons c text ih => rw [List.map_cons, List.mapM_cons, List.mapM_cons, ih, a.value_fold]

theorem decode_fold (h : a.decode (text.map a.fold) = .ok bytes) : a.decode text = .ok bytes := by
  unfold decode at h ⊢
  simp only [List.length_map, map_m_fold] at h ⊢
  split at h
  · cases h
  · rename_i hspare
    rw [if_neg hspare]
    split at h
    · cases h
    · rename_i values hvalues
      exact h

/-- Bytes whose encoding stands in front of another's stand in front of the other bytes. -/
theorem encode_front {front : List UInt8} (h : a.encode front <+: a.encode bytes) :
    front <+: bytes := by
  have hpos := a.width_pos
  have hle := a.width_le
  have hbounds := symbol_count_bounds (a := a) (octetBits bytes).length
  have hfilter : ∀ b, (a.encode b).filterMap a.value = a.values b := fun b =>
    filter_map_symbol groups_lt
  have hvalues : a.values front <+: a.values bytes := by
    rw [← hfilter, ← hfilter]
    exact h.filterMap a.value
  have hbits : a.pad (octetBits front) <+: a.pad (octetBits bytes) := by
    rw [← ungroup_values, ← ungroup_values]
    obtain ⟨more, hmore⟩ := hvalues
    rw [← hmore, ungroup, ungroup, List.flatMap_append]
    exact List.prefix_append _ _
  have hfront : octetBits front <+: a.pad (octetBits bytes) :=
    (List.prefix_append _ _).trans hbits
  have hshort : front.length ≤ bytes.length := by
    have := hfront.length_le
    rw [pad_length, octet_bits_length] at this
    rw [octet_bits_length] at hbounds
    rw [octet_bits_length] at this
    omega
  obtain ⟨more, hmore⟩ : octetBits front <+: octetBits bytes :=
    List.prefix_of_prefix_length_le hfront (List.prefix_append _ _)
      (by rw [octet_bits_length, octet_bits_length]; omega)
  have htake : (bytes.take front.length).length = front.length := by
    rw [List.length_take]
    omega
  have hsplit : octetBits bytes =
      octetBits (bytes.take front.length) ++ octetBits (bytes.drop front.length) := by
    rw [← octet_bits_append, List.take_append_drop]
  have hbytes := octets_octet_bits (bytes.take front.length) (octetBits (bytes.drop front.length))
  rw [← hsplit, htake, ← hmore, octets_octet_bits] at hbytes
  rw [hbytes]
  exact List.take_prefix _ _

/-- An alphabet whose symbols are among those listed gives a lawful encoding. -/
theorem encoding_lawful {symbols : List Char}
    (h : ∀ n, n < 2 ^ a.width → a.symbol n ∈ symbols) : a.encoding.Lawful a.fold symbols where
  decode_encode := decode_encode
  encode_decode := fun _ _ h => encode_decode h
  decode_fold := fun _ _ h => decode_fold h
  encode_symbols := by
    intro bytes c hc
    obtain ⟨v, hv, rfl⟩ := List.mem_map.mp hc
    exact h v (groups_lt v hv)
  encode_front := fun _ _ h => encode_front h

end Alphabet

end Lib
