import TeamClaude.Lib.Octets

/-!
# Items behind a tag and a length

A vector of items, each a tag of fixed width, a sixteen-bit length and that many bytes. The items of
a run of bytes are read as far as they are whole.
-/

namespace Lib.Tlv

/-- A tag and the bytes behind it. -/
abbrev Item := List UInt8 × List UInt8

def encode (item : Item) : List UInt8 :=
  item.1 ++ (be16Bytes item.2.length ++ item.2)

def encodeAll (items : List Item) : List UInt8 :=
  (items.map encode).flatten

/-- An item that a vector with tags of `width` bytes can hold. -/
structure Fits (width : Nat) (item : Item) : Prop where
  tag : item.1.length = width
  body : item.2.length < 65536

def bodyLength (width : Nat) (bytes : List UInt8) : Nat :=
  be16 ((bytes.drop width).headD 0) ((bytes.drop (width + 1)).headD 0)

/-- The item at the front of a run of bytes, and what follows it. -/
def item (width : Nat) (bytes : List UInt8) : Option (Item × List UInt8) :=
  let len := bodyLength width bytes
  if width + 2 + len ≤ bytes.length then
    some ((bytes.take width, (bytes.drop (width + 2)).take len), bytes.drop (width + 2 + len))
  else none

/-- The items at the front of a run of bytes, at most as many as asked for. -/
def itemsUpTo (width : Nat) : Nat → List UInt8 → List Item
  | 0, _ => []
  | rounds + 1, bytes =>
    match item width bytes with
    | none => []
    | some (first, rest) => first :: itemsUpTo width rounds rest

def items (width : Nat) (bytes : List UInt8) : List Item :=
  itemsUpTo width bytes.length bytes

variable {width : Nat} {bytes rest : List UInt8} {first : Item}

theorem item_rest (h : item width bytes = some (first, rest)) :
    rest.length + (width + 2 + first.2.length) = bytes.length ∧
      rest = bytes.drop (width + 2 + first.2.length) := by
  unfold item at h
  simp only at h
  split at h
  · rename_i hle
    cases h
    have hlen : ((bytes.drop (width + 2)).take (bodyLength width bytes)).length =
        bodyLength width bytes := by
      rw [List.length_take, List.length_drop]
      omega
    rw [hlen, List.length_drop]
    exact ⟨by omega, rfl⟩
  · cases h

theorem items_up_to_enough {rounds more : Nat} (h : bytes.length ≤ rounds)
    (hmore : bytes.length ≤ more) : itemsUpTo width rounds bytes = itemsUpTo width more bytes := by
  induction rounds generalizing bytes more with
  | zero =>
    have hnil : bytes = [] := List.eq_nil_of_length_eq_zero (Nat.le_zero.mp h)
    subst hnil
    cases more with
    | zero => rfl
    | succ more => simp [itemsUpTo, item]
  | succ rounds ih =>
    cases more with
    | zero =>
      have hnil : bytes = [] := List.eq_nil_of_length_eq_zero (Nat.le_zero.mp hmore)
      subst hnil
      simp [itemsUpTo, item]
    | succ more =>
      simp only [itemsUpTo]
      cases hitem : item width bytes with
      | none => rfl
      | some front =>
        obtain ⟨first, rest⟩ := front
        have hrest := (item_rest hitem).1
        exact congrArg (first :: ·) (ih (by omega) (by omega))

theorem items_none (h : item width bytes = none) : items width bytes = [] := by
  unfold items
  cases hlen : bytes.length with
  | zero => rfl
  | succ n => simp [itemsUpTo, h]

theorem items_some (h : item width bytes = some (first, rest)) :
    items width bytes = first :: items width rest := by
  have hrest := (item_rest h).1
  unfold items
  cases hlen : bytes.length with
  | zero => omega
  | succ n =>
    simp only [itemsUpTo, h]
    exact congrArg (first :: ·) (items_up_to_enough (by omega) le_rfl)

/-- A whole item reads back, whatever follows it. -/
theorem item_encode (h : Fits width first) (rest : List UInt8) :
    item width (encode first ++ rest) = some (first, rest) := by
  obtain ⟨tag, body⟩ := first
  obtain ⟨htag, hbody⟩ := h
  simp only at htag hbody
  subst htag
  have hdrop : (encode (tag, body) ++ rest).drop tag.length =
      be16Bytes body.length ++ (body ++ rest) := by
    rw [encode, List.append_assoc, List.drop_left, List.append_assoc]
  have hlen : bodyLength tag.length (encode (tag, body) ++ rest) = body.length := by
    rw [bodyLength, ← List.drop_drop, hdrop]
    exact be16_of_bytes hbody
  have hsize : (encode (tag, body)).length = tag.length + 2 + body.length := by
    simp only [encode, List.length_append, be16_bytes_length]
    omega
  have hbodyAt : ((encode (tag, body) ++ rest).drop (tag.length + 2)).take body.length = body := by
    have hassoc : encode (tag, body) ++ rest =
        (tag ++ be16Bytes body.length) ++ (body ++ rest) := by
      simp only [encode, List.append_assoc]
    have hhead : tag.length + 2 = (tag ++ be16Bytes body.length).length := by
      rw [List.length_append, be16_bytes_length]
    rw [hassoc, hhead, List.drop_left, List.take_left]
  have htagAt : (encode (tag, body) ++ rest).take tag.length = tag := by
    rw [encode, List.append_assoc, List.take_left]
  have hrest : (encode (tag, body) ++ rest).drop (tag.length + 2 + body.length) = rest := by
    rw [← hsize, List.drop_left]
  unfold item
  simp only [hlen, hbodyAt, htagAt, hrest]
  rw [if_pos]
  rw [List.length_append, hsize]
  omega

theorem encode_length (item : Item) :
    (encode item).length = item.1.length + 2 + item.2.length := by
  rw [encode, List.length_append, List.length_append, be16_bytes_length]
  omega

@[simp] theorem encode_all_cons (first : Item) (all : List Item) :
    encodeAll (first :: all) = encode first ++ encodeAll all := rfl

theorem encode_all_append (before after : List Item) :
    encodeAll (before ++ after) = encodeAll before ++ encodeAll after := by
  simp only [encodeAll, List.map_append, List.flatten_append]

theorem fits_of_encode_all {all : List Item} (htag : ∀ i ∈ all, i.1.length = width)
    (h : (encodeAll all).length < 65536) : ∀ i ∈ all, Fits width i := by
  induction all with
  | nil => exact fun i hi => nomatch hi
  | cons first all ih =>
    rw [encode_all_cons, List.length_append, encode_length] at h
    rintro i (_ | ⟨_, hi⟩)
    · exact ⟨htag first List.mem_cons_self, by omega⟩
    · exact ih (fun i hi => htag i (List.mem_cons_of_mem _ hi)) (by omega) i hi

theorem items_encode_all {all : List Item} (h : ∀ i ∈ all, Fits width i) :
    items width (encodeAll all) = all := by
  induction all with
  | nil => rfl
  | cons first all ih =>
    have hfirst := item_encode (h first List.mem_cons_self) (encodeAll all)
    exact (items_some hfirst).trans
      (congrArg (first :: ·) (ih fun i hi => h i (List.mem_cons_of_mem _ hi)))

end Lib.Tlv
