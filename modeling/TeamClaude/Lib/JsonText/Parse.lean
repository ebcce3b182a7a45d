import TeamClaude.Lib.JsonText.Syntax

/-!
# Reading a JSON text

The one tree that renders to a text, when there is one. What the reader takes is what the tree it
returns renders to, and every tree is read back from its rendering.
-/

namespace Lib.JsonText

/-! ## The reader -/

theorem all_takeWhile (p : UInt8 → Bool) (t : Bytes) : (t.takeWhile p).all p = true := by
  rw [List.all_eq_true]
  exact fun b hb => List.mem_takeWhile_imp hb

def takeSpace (t : Bytes) : Space × Bytes :=
  (⟨t.takeWhile isSpace, all_takeWhile isSpace t⟩, t.dropWhile isSpace)

def expect (b : UInt8) : Bytes → Option Bytes
  | [] => none
  | c :: t => if c == b then some t else none

/-- The text up to the quote that ends a string, and what follows the quote. -/
def splitBody : Bytes → Option (Bytes × Bytes)
  | [] => none
  | b :: t =>
    if b == quote then some ([], t)
    else if b == backslash then
      match t with
      | [] => none
      | e :: t => (splitBody t).map fun p => (b :: e :: p.1, p.2)
    else (splitBody t).map fun p => (b :: p.1, p.2)

def readString (t : Bytes) : Option (Body × Bytes) :=
  match splitBody t with
  | none => none
  | some p => if h : isBody p.1 = true then some (⟨p.1, h⟩, p.2) else none

def readScalar (t : Bytes) : Option (Scalar × Bytes) :=
  if h : isScalar (t.takeWhile isScalarByte) = true then
    some (⟨t.takeWhile isScalarByte, h⟩, t.dropWhile isScalarByte)
  else none

def readHead (t : Bytes) : Option (Head × Bytes) := do
  let afterQuote ← expect quote (takeSpace t).2
  let key ← readString afterQuote
  let afterColon ← expect colon (takeSpace key.2).2
  return ({ pre := (takeSpace t).1
            key := key.1
            mid := (takeSpace key.2).1
            gap := (takeSpace afterColon).1 }, (takeSpace afterColon).2)

/-- The tree at the front of a text and what follows it. Every call uses up one unit of fuel. -/
def read : Nat → (k : Kind) → Bytes → Option (Text k × Bytes)
  | 0, _, _ => none
  | _ + 1, .value, [] => none
  | n + 1, .value, b :: t =>
    if b == quote then (readString t).map fun p => (.string p.1, p.2)
    else if b == openBracket then
      match expect closeBracket (takeSpace t).2 with
      | some rest => some (.emptyArray (takeSpace t).1, rest)
      | none => (read n .items t).map fun p => (.array p.1, p.2)
    else if b == openBrace then
      match expect closeBrace (takeSpace t).2 with
      | some rest => some (.emptyObject (takeSpace t).1, rest)
      | none => (read n .members t).map fun p => (.object p.1, p.2)
    else (readScalar (b :: t)).map fun p => (.scalar p.1, p.2)
  | n + 1, .items, t => do
    let v ← read n .value (takeSpace t).2
    let post := takeSpace v.2
    match post.2 with
    | [] => none
    | b :: rest =>
      if b == comma then
        (read n .items rest).map fun p => (.item (takeSpace t).1 v.1 post.1 p.1, p.2)
      else if b == closeBracket then some (.lastItem (takeSpace t).1 v.1 post.1, rest)
      else none
  | n + 1, .members, t => do
    let head ← readHead t
    let v ← read n .value head.2
    let post := takeSpace v.2
    match post.2 with
    | [] => none
    | b :: rest =>
      if b == comma then
        (read n .members rest).map fun p => (.member head.1 v.1 post.1 p.1, p.2)
      else if b == closeBrace then some (.lastMember head.1 v.1 post.1, rest)
      else none

/-- A whole text: one value and nothing after it but whitespace. -/
def readDocument (t : Bytes) : Option Document :=
  match read (2 * t.length + 2) .value (takeSpace t).2 with
  | none => none
  | some v =>
    if (takeSpace v.2).2 = [] then
      some { pre := (takeSpace t).1, root := v.1, post := (takeSpace v.2).1 }
    else none

/-! ## What is read is what is there -/

theorem take_space_eq {t : Bytes} {p : Space × Bytes} (h : takeSpace t = p) : t = p.1.1 ++ p.2 := by
  rw [← h]
  exact List.takeWhile_append_dropWhile.symm

theorem expect_eq_some {b : UInt8} {t rest : Bytes} : expect b t = some rest ↔ t = b :: rest := by
  cases t with
  | nil => simp [expect]
  | cons c t =>
    by_cases hc : c = b
    · simp [expect, hc]
    · simp [expect, hc]

theorem split_body_eq {t body rest : Bytes} (h : splitBody t = some (body, rest)) :
    t = body ++ quote :: rest := by
  fun_induction splitBody t generalizing body with
  | case1 => cases h
  | case2 b t hq =>
    cases h
    simp [beq_iff_eq.mp hq]
  | case3 b hq hb => cases h
  | case4 b hq hb e t ih =>
    obtain ⟨p, hp, he⟩ := Option.map_eq_some_iff.mp h
    cases he
    simp [ih hp]
  | case5 b t hq hb ih =>
    obtain ⟨p, hp, he⟩ := Option.map_eq_some_iff.mp h
    cases he
    simp [ih hp]

theorem read_string_eq {t rest : Bytes} {body : Body} (h : readString t = some (body, rest)) :
    t = body.1 ++ quote :: rest := by
  unfold readString at h
  split at h
  · cases h
  · rename_i p hp
    split at h
    · cases h
      exact split_body_eq hp
    · cases h

theorem read_scalar_eq {t rest : Bytes} {s : Scalar} (h : readScalar t = some (s, rest)) :
    t = s.1 ++ rest := by
  unfold readScalar at h
  split at h
  · cases h
    exact List.takeWhile_append_dropWhile.symm
  · cases h

theorem read_head_eq {t rest : Bytes} {head : Head} (h : readHead t = some (head, rest)) :
    t = head.render ++ rest := by
  unfold readHead at h
  generalize hpre : takeSpace t = pre at h
  obtain ⟨afterQuote, hquote, h⟩ := Option.bind_eq_some_iff.mp h
  obtain ⟨key, hkey, h⟩ := Option.bind_eq_some_iff.mp h
  generalize hmid : takeSpace key.2 = mid at h
  obtain ⟨afterColon, hcolon, h⟩ := Option.bind_eq_some_iff.mp h
  generalize hgap : takeSpace afterColon = gap at h
  cases h
  rw [take_space_eq hpre, expect_eq_some.mp hquote, read_string_eq hkey, take_space_eq hmid,
    expect_eq_some.mp hcolon, take_space_eq hgap]
  simp [Head.render, renderString]

/-- The reader takes from the front of the text what the tree renders to. -/
theorem read_eq {n : Nat} {k : Kind} {t rest : Bytes} {c : Text k}
    (h : read n k t = some (c, rest)) : t = c.render ++ rest := by
  induction n generalizing k t rest with
  | zero => cases h
  | succ n ih =>
    cases k with
    | value =>
      cases t with
      | nil => cases h
      | cons b t =>
        simp only [read] at h
        generalize hpre : takeSpace t = pre at h
        split at h
        · rename_i hq
          obtain ⟨p, hp, he⟩ := Option.map_eq_some_iff.mp h
          cases he
          simp [Text.render, renderString, beq_iff_eq.mp hq, read_string_eq hp]
        split at h
        · rename_i hb
          split at h
          · rename_i rest' hclose
            cases h
            simp [Text.render, beq_iff_eq.mp hb, take_space_eq hpre, expect_eq_some.mp hclose]
          · obtain ⟨p, hp, he⟩ := Option.map_eq_some_iff.mp h
            cases he
            simp [Text.render, beq_iff_eq.mp hb, ih hp]
        split at h
        · rename_i hb
          split at h
          · rename_i rest' hclose
            cases h
            simp [Text.render, beq_iff_eq.mp hb, take_space_eq hpre, expect_eq_some.mp hclose]
          · obtain ⟨p, hp, he⟩ := Option.map_eq_some_iff.mp h
            cases he
            simp [Text.render, beq_iff_eq.mp hb, ih hp]
        · obtain ⟨p, hp, he⟩ := Option.map_eq_some_iff.mp h
          cases he
          exact read_scalar_eq hp
    | items =>
      simp only [read] at h
      generalize hpre : takeSpace t = pre at h
      obtain ⟨v, hv, h⟩ := Option.bind_eq_some_iff.mp h
      generalize hpost : takeSpace v.2 = post at h
      obtain ⟨ws, after⟩ := post
      rw [take_space_eq hpre, ih hv, take_space_eq hpost]
      cases after with
      | nil => cases h
      | cons b r =>
        dsimp only at h
        split at h
        · rename_i hb
          obtain ⟨p, hp, he⟩ := Option.map_eq_some_iff.mp h
          cases he
          simp [Text.render, ih hp, beq_iff_eq.mp hb]
        split at h
        · rename_i hb
          cases h
          simp [Text.render, beq_iff_eq.mp hb]
        · cases h
    | members =>
      simp only [read] at h
      obtain ⟨head, hhead, h⟩ := Option.bind_eq_some_iff.mp h
      obtain ⟨v, hv, h⟩ := Option.bind_eq_some_iff.mp h
      generalize hpost : takeSpace v.2 = post at h
      obtain ⟨ws, after⟩ := post
      rw [read_head_eq hhead, ih hv, take_space_eq hpost]
      cases after with
      | nil => cases h
      | cons b r =>
        dsimp only at h
        split at h
        · rename_i hb
          obtain ⟨p, hp, he⟩ := Option.map_eq_some_iff.mp h
          cases he
          simp [Text.render, ih hp, beq_iff_eq.mp hb]
        split at h
        · rename_i hb
          cases h
          simp [Text.render, beq_iff_eq.mp hb]
        · cases h

/-! ## Every tree is read back -/

/-- The text does not go on with a byte of the kind. -/
def Stops (p : UInt8 → Bool) (t : Bytes) : Prop :=
  ∀ b ∈ t.head?, p b = false

theorem stops_nil (p : UInt8 → Bool) : Stops p [] := by
  intro b hb
  cases hb

theorem stops_cons {p : UInt8 → Bool} {b : UInt8} {t : Bytes} (h : p b = false) :
    Stops p (b :: t) := by
  intro c hc
  cases hc
  exact h

theorem takeWhile_append {p : UInt8 → Bool} {t r : Bytes} (ht : t.all p = true) (hr : Stops p r) :
    (t ++ r).takeWhile p = t ∧ (t ++ r).dropWhile p = r := by
  have hnil : r.takeWhile p = [] ∧ r.dropWhile p = r := by
    cases r with
    | nil => exact ⟨rfl, rfl⟩
    | cons b r =>
      have hb := hr b rfl
      simp [hb]
  rw [List.all_eq_true] at ht
  rw [List.takeWhile_append_of_pos ht, List.dropWhile_append_of_pos ht, hnil.1, hnil.2]
  exact ⟨List.append_nil t, rfl⟩

theorem take_space_append (ws : Space) {r : Bytes} (hr : Stops isSpace r) :
    takeSpace (ws.1 ++ r) = (ws, r) := by
  obtain ⟨htake, hdrop⟩ := takeWhile_append ws.2 hr
  unfold takeSpace
  exact Prod.ext (Subtype.ext htake) hdrop

theorem split_quote (t : Bytes) : splitBody (quote :: t) = some ([], t) := by
  unfold splitBody
  rfl

theorem split_escape (e : UInt8) (t : Bytes) : splitBody (backslash :: e :: t) =
    (splitBody t).map fun p => (backslash :: e :: p.1, p.2) := by
  rw [splitBody.eq_def]
  rfl

theorem split_plain {b : UInt8} {t : Bytes} (hquote : b ≠ quote) (hslash : b ≠ backslash) :
    splitBody (b :: t) = (splitBody t).map fun p => (b :: p.1, p.2) := by
  rw [splitBody.eq_def]
  dsimp only
  rw [if_neg (by simpa using hquote), if_neg (by simpa using hslash)]

theorem hex_plain {b : UInt8} (h : isHex b = true) : b ≠ quote ∧ b ≠ backslash := by
  constructor <;> rintro rfl <;> revert h <;> decide

theorem split_body_append {body : Bytes} (h : isBody body = true) (r : Bytes) :
    splitBody (body ++ quote :: r) = some (body, r) := by
  fun_induction isBody body with
  | case1 => exact split_quote r
  | case2 b hb => cases h
  | case3 b hb e he h1 h2 h3 h4 t ih =>
    simp only [Bool.and_eq_true] at h
    obtain ⟨⟨⟨⟨hh1, hh2⟩, hh3⟩, hh4⟩, ht⟩ := h
    have hp1 := hex_plain hh1
    have hp2 := hex_plain hh2
    have hp3 := hex_plain hh3
    have hp4 := hex_plain hh4
    simp only [List.cons_append]
    rw [beq_iff_eq.mp hb, split_escape, split_plain hp1.1 hp1.2, split_plain hp2.1 hp2.2,
      split_plain hp3.1 hp3.2, split_plain hp4.1 hp4.2, ih ht]
    rfl
  | case4 b hb e t he hshort => cases h
  | case5 b hb e t he ih =>
    rw [Bool.and_eq_true] at h
    rw [beq_iff_eq.mp hb, List.cons_append, List.cons_append, split_escape, ih h.2]
    rfl
  | case6 b t hb ih =>
    simp only [Bool.and_eq_true, bne_iff_ne] at h
    rw [List.cons_append, split_plain h.1.1 (by simpa using hb), ih h.2]
    rfl

theorem read_string_append (body : Body) (r : Bytes) :
    readString (body.1 ++ quote :: r) = some (body, r) := by
  unfold readString
  rw [split_body_append body.2]
  exact dif_pos body.2

theorem is_scalar_bytes {t : Bytes} (h : isScalar t = true) :
    t.all isScalarByte = true ∧ t ≠ [] := by
  unfold isScalar at h
  simp only [Bool.or_eq_true, beq_iff_eq, Bool.and_eq_true] at h
  rcases h with ((rfl | rfl) | rfl) | ⟨hnumber, hall⟩
  · decide
  · decide
  · decide
  · refine ⟨hall, ?_⟩
    rintro rfl
    cases hnumber

theorem scalar_bytes (s : Scalar) : s.1.all isScalarByte = true ∧ s.1 ≠ [] :=
  is_scalar_bytes s.2

theorem read_scalar_append (s : Scalar) {r : Bytes} (hr : Stops isScalarByte r) :
    readScalar (s.1 ++ r) = some (s, r) := by
  obtain ⟨htake, hdrop⟩ := takeWhile_append (scalar_bytes s).1 hr
  have hs : isScalar ((s.1 ++ r).takeWhile isScalarByte) = true := by
    rw [htake]
    exact s.2
  unfold readScalar
  rw [dif_pos hs]
  exact congrArg some (Prod.ext (Subtype.ext htake) hdrop)

theorem expect_cons (b : UInt8) (t : Bytes) : expect b (b :: t) = some t :=
  expect_eq_some.mpr rfl

theorem read_head_append (head : Head) {r : Bytes} (hr : Stops isSpace r) :
    readHead (head.render ++ r) = some (head, r) := by
  obtain ⟨pre, key, mid, gap⟩ := head
  have hpre : takeSpace ((Head.mk pre key mid gap).render ++ r) =
      (pre, quote :: (key.1 ++ quote :: (mid.1 ++ colon :: (gap.1 ++ r)))) := by
    rw [← take_space_append pre (stops_cons (by decide))]
    simp [Head.render, renderString]
  have hmid : takeSpace (mid.1 ++ colon :: (gap.1 ++ r)) = (mid, colon :: (gap.1 ++ r)) :=
    take_space_append mid (stops_cons (by decide))
  have hgap : takeSpace (gap.1 ++ r) = (gap, r) := take_space_append gap hr
  unfold readHead
  simp only [hpre, expect_cons, Option.bind_eq_bind, Option.bind_some, read_string_append, hmid,
    hgap]
  rfl

/-- The first byte of a value. -/
inductive Starts : UInt8 → Prop
  | quote : Starts quote
  | bracket : Starts openBracket
  | brace : Starts openBrace
  | scalar {b : UInt8} (h : isScalarByte b = true) : Starts b

theorem Starts.not_space {b : UInt8} (h : Starts b) : isSpace b = false := by
  cases h with
  | quote => decide
  | bracket => decide
  | brace => decide
  | scalar h =>
    rw [Bool.eq_false_iff]
    intro hs
    simp only [isSpace, Bool.or_eq_true, beq_iff_eq] at hs
    rcases hs with ((rfl | rfl) | rfl) | rfl <;> revert h <;> decide

theorem Starts.ne_close {b : UInt8} (h : Starts b) : b ≠ closeBracket := by
  rintro rfl
  cases h with
  | scalar h => revert h; decide

theorem render_starts (c : Text .value) : ∃ b t, c.render = b :: t ∧ Starts b := by
  cases c with
  | scalar s =>
    obtain ⟨hall, hne⟩ := scalar_bytes s
    obtain ⟨b, t, ht⟩ := List.exists_cons_of_ne_nil hne
    refine ⟨b, t, ht, .scalar ?_⟩
    rw [ht, List.all_cons, Bool.and_eq_true] at hall
    exact hall.1
  | string body => exact ⟨_, _, rfl, .quote⟩
  | emptyArray ws => exact ⟨_, _, rfl, .bracket⟩
  | array items => exact ⟨_, _, rfl, .bracket⟩
  | emptyObject ws => exact ⟨_, _, rfl, .brace⟩
  | object members => exact ⟨_, _, rfl, .brace⟩

/-- The fuel a tree is read with. -/
def Text.size : {k : Kind} → Text k → Nat
  | _, .scalar _ => 1
  | _, .string _ => 1
  | _, .emptyArray _ => 1
  | _, .array items => items.size + 1
  | _, .emptyObject _ => 1
  | _, .object members => members.size + 1
  | _, .lastItem _ v _ => v.size + 1
  | _, .item _ v _ rest => v.size + rest.size + 1
  | _, .lastMember _ v _ => v.size + 1
  | _, .member _ v _ rest => v.size + rest.size + 1

theorem size_le {k : Kind} (c : Text k) : c.size ≤ 2 * c.render.length := by
  induction c with
  | scalar s =>
    have hpos := List.length_pos_iff.mpr (scalar_bytes s).2
    show 1 ≤ 2 * s.1.length
    omega
  | string body => simp [Text.size, Text.render, renderString]; omega
  | emptyArray ws => simp [Text.size, Text.render]; omega
  | array items ih => simp [Text.size, Text.render]; omega
  | emptyObject ws => simp [Text.size, Text.render]; omega
  | object members ih => simp [Text.size, Text.render]; omega
  | lastItem pre v post ih => simp [Text.size, Text.render]; omega
  | item pre v post rest ihv ihrest => simp [Text.size, Text.render]; omega
  | lastMember head v post ih => simp [Text.size, Text.render]; omega
  | member head v post rest ihv ihrest => simp [Text.size, Text.render]; omega

/-- What may follow a tree: no byte that a literal or a number would go on with. -/
def Follows : Kind → Bytes → Prop
  | .value, t => Stops isScalarByte t
  | _, _ => True

theorem stops_space (ws : Space) {t : Bytes} (h : Stops isScalarByte t) :
    Stops isScalarByte (ws.1 ++ t) := by
  obtain ⟨ws, hws⟩ := ws
  cases ws with
  | nil => exact h
  | cons c ws =>
    refine stops_cons ?_
    rw [List.all_cons, Bool.and_eq_true] at hws
    rw [Bool.eq_false_iff]
    intro hc
    exact absurd hws.1 (by rw [(Starts.scalar hc).not_space]; decide)

theorem stops_space_append (ws : Space) {b : UInt8} {t : Bytes} (h : isScalarByte b = false) :
    Stops isScalarByte (ws.1 ++ b :: t) :=
  stops_space ws (stops_cons h)

theorem stops_render (v : Text .value) (r : Bytes) : Stops isSpace (v.render ++ r) := by
  obtain ⟨b, t, ht, hb⟩ := render_starts v
  rw [ht]
  exact stops_cons hb.not_space

/-- The items of an array do not begin with its closing bracket. -/
theorem expect_items (items : Text .items) (r : Bytes) :
    expect closeBracket (takeSpace (items.render ++ r)).2 = none := by
  have hfirst : ∀ (pre : Space) (v : Text .value) (t : Bytes),
      expect closeBracket (takeSpace (pre.1 ++ (v.render ++ t))).2 = none := by
    intro pre v t
    rw [take_space_append pre (stops_render v t)]
    obtain ⟨b, t', ht, hb⟩ := render_starts v
    rw [ht]
    simp [expect, hb.ne_close]
  cases items with
  | lastItem pre v post => simpa [Text.render] using hfirst pre v _
  | item pre v post rest => simpa [Text.render] using hfirst pre v _

theorem expect_members (members : Text .members) (r : Bytes) :
    expect closeBrace (takeSpace (members.render ++ r)).2 = none := by
  have hfirst : ∀ (head : Head) (t : Bytes),
      expect closeBrace (takeSpace (head.render ++ t)).2 = none := by
    intro head t
    have hspace := take_space_append head.pre
      (r := quote :: (head.key.1 ++ quote :: (head.mid.1 ++ colon :: (head.gap.1 ++ t))))
      (stops_cons (by decide))
    have hrender : head.render ++ t = head.pre.1 ++
        quote :: (head.key.1 ++ quote :: (head.mid.1 ++ colon :: (head.gap.1 ++ t))) := by
      simp [Head.render, renderString]
    rw [hrender, hspace]
    rfl
  cases members with
  | lastMember head v post => simpa [Text.render] using hfirst head _
  | member head v post rest => simpa [Text.render] using hfirst head _

/-- The byte that opens a literal or a number opens nothing else. -/
theorem scalar_byte_ne {b : UInt8} (h : isScalarByte b = true) :
    b ≠ quote ∧ b ≠ openBracket ∧ b ≠ openBrace := by
  refine ⟨?_, ?_, ?_⟩ <;> rintro rfl <;> revert h <;> decide

theorem read_scalar {n : Nat} (s : Scalar) {r : Bytes} (hr : Stops isScalarByte r) :
    read (n + 1) .value (s.1 ++ r) = some (.scalar s, r) := by
  obtain ⟨hall, hne⟩ := scalar_bytes s
  obtain ⟨b, t, ht⟩ := List.exists_cons_of_ne_nil hne
  have hread := read_scalar_append s hr
  rw [ht, List.cons_append] at hread ⊢
  rw [ht, List.all_cons, Bool.and_eq_true] at hall
  obtain ⟨hquote, hbracket, hbrace⟩ := scalar_byte_ne hall.1
  rw [read, if_neg (by simpa using hquote), if_neg (by simpa using hbracket),
    if_neg (by simpa using hbrace), hread]
  rfl

theorem read_string {n : Nat} (body : Body) (r : Bytes) :
    read (n + 1) .value (renderString body ++ r) = some (.string body, r) := by
  have hread := read_string_append body r
  simp only [renderString, List.cons_append, List.append_assoc, List.nil_append]
  rw [read, if_pos (by decide), hread]
  rfl

/-- The item at the front, when the separator after it is a comma. -/
theorem read_item {n : Nat} {pre post : Space} {v : Text .value} {r t : Bytes}
    {rest : Text .items} (hv : read n .value (v.render ++ (post.1 ++ comma :: t)) =
      some (v, post.1 ++ comma :: t)) (hrest : read n .items t = some (rest, r)) :
    read (n + 1) .items (pre.1 ++ (v.render ++ (post.1 ++ comma :: t))) =
      some (.item pre v post rest, r) := by
  have hpre := take_space_append pre (stops_render v (post.1 ++ comma :: t))
  have hpost : takeSpace (post.1 ++ comma :: t) = (post, comma :: t) :=
    take_space_append post (stops_cons (by decide))
  simp only [read, hpre, hv, Option.bind_eq_bind, Option.bind_some, hpost]
  rw [if_pos (by decide), hrest]
  rfl

theorem read_last_item {n : Nat} {pre post : Space} {v : Text .value} {r : Bytes}
    (hv : read n .value (v.render ++ (post.1 ++ closeBracket :: r)) =
      some (v, post.1 ++ closeBracket :: r)) :
    read (n + 1) .items (pre.1 ++ (v.render ++ (post.1 ++ closeBracket :: r))) =
      some (.lastItem pre v post, r) := by
  have hpre := take_space_append pre (stops_render v (post.1 ++ closeBracket :: r))
  have hpost : takeSpace (post.1 ++ closeBracket :: r) = (post, closeBracket :: r) :=
    take_space_append post (stops_cons (by decide))
  simp only [read, hpre, hv, Option.bind_eq_bind, Option.bind_some, hpost]
  rfl

theorem read_member {n : Nat} {head : Head} {post : Space} {v : Text .value} {r t : Bytes}
    {rest : Text .members} (hv : read n .value (v.render ++ (post.1 ++ comma :: t)) =
      some (v, post.1 ++ comma :: t)) (hrest : read n .members t = some (rest, r)) :
    read (n + 1) .members (head.render ++ (v.render ++ (post.1 ++ comma :: t))) =
      some (.member head v post rest, r) := by
  have hhead := read_head_append head (stops_render v (post.1 ++ comma :: t))
  have hpost : takeSpace (post.1 ++ comma :: t) = (post, comma :: t) :=
    take_space_append post (stops_cons (by decide))
  simp only [read, hhead, hv, Option.bind_eq_bind, Option.bind_some, hpost]
  rw [if_pos (by decide), hrest]
  rfl

theorem read_last_member {n : Nat} {head : Head} {post : Space} {v : Text .value} {r : Bytes}
    (hv : read n .value (v.render ++ (post.1 ++ closeBrace :: r)) =
      some (v, post.1 ++ closeBrace :: r)) :
    read (n + 1) .members (head.render ++ (v.render ++ (post.1 ++ closeBrace :: r))) =
      some (.lastMember head v post, r) := by
  have hhead := read_head_append head (stops_render v (post.1 ++ closeBrace :: r))
  have hpost : takeSpace (post.1 ++ closeBrace :: r) = (post, closeBrace :: r) :=
    take_space_append post (stops_cons (by decide))
  simp only [read, hhead, hv, Option.bind_eq_bind, Option.bind_some, hpost]
  rfl

theorem read_render {n : Nat} {k : Kind} {c : Text k} {r : Bytes} (hn : c.size ≤ n)
    (hr : Follows k r) : read n k (c.render ++ r) = some (c, r) := by
  induction c generalizing n r with
  | scalar s =>
    obtain ⟨n, rfl⟩ := Nat.exists_eq_add_of_le' hn
    exact read_scalar s hr
  | string body =>
    obtain ⟨n, rfl⟩ := Nat.exists_eq_add_of_le' hn
    exact read_string body r
  | emptyArray ws =>
    obtain ⟨n, rfl⟩ := Nat.exists_eq_add_of_le' hn
    have hws := take_space_append ws (r := closeBracket :: r) (stops_cons (by decide))
    simp only [Text.render, List.cons_append, List.append_assoc, List.nil_append]
    simp only [Text.size, read, hws, expect_cons]
    rfl
  | array items ih =>
    obtain ⟨n, rfl⟩ := Nat.exists_eq_add_of_le' hn
    have hread : read (n + items.size) .items (items.render ++ r) = some (items, r) :=
      ih (by omega) trivial
    simp only [Text.render, Text.size, List.cons_append, ← Nat.add_assoc]
    simp only [read, expect_items, hread]
    rfl
  | emptyObject ws =>
    obtain ⟨n, rfl⟩ := Nat.exists_eq_add_of_le' hn
    have hws := take_space_append ws (r := closeBrace :: r) (stops_cons (by decide))
    simp only [Text.render, List.cons_append, List.append_assoc, List.nil_append]
    simp only [Text.size, read, hws, expect_cons]
    rfl
  | object members ih =>
    obtain ⟨n, rfl⟩ := Nat.exists_eq_add_of_le' hn
    have hread : read (n + members.size) .members (members.render ++ r) = some (members, r) :=
      ih (by omega) trivial
    simp only [Text.render, Text.size, List.cons_append, ← Nat.add_assoc]
    simp only [read, expect_members, hread]
    rfl
  | lastItem pre v post ih =>
    obtain ⟨n, rfl⟩ := Nat.exists_eq_add_of_le' hn
    have hv := ih (n := n + v.size) (by omega) (stops_space_append post (b := closeBracket) (t := r)
      (by decide))
    simpa [Text.render, Text.size, ← Nat.add_assoc] using read_last_item hv
  | item pre v post rest ihv ihrest =>
    obtain ⟨n, rfl⟩ := Nat.exists_eq_add_of_le' hn
    have hv := ihv (n := n + (v.size + rest.size)) (by omega)
      (stops_space_append post (b := comma) (t := rest.render ++ r) (by decide))
    have hrest := ihrest (n := n + (v.size + rest.size)) (r := r) (by omega) trivial
    simpa [Text.render, Text.size, ← Nat.add_assoc] using read_item hv hrest
  | lastMember head v post ih =>
    obtain ⟨n, rfl⟩ := Nat.exists_eq_add_of_le' hn
    have hv := ih (n := n + v.size) (by omega) (stops_space_append post (b := closeBrace) (t := r)
      (by decide))
    simpa [Text.render, Text.size, ← Nat.add_assoc] using read_last_member hv
  | member head v post rest ihv ihrest =>
    obtain ⟨n, rfl⟩ := Nat.exists_eq_add_of_le' hn
    have hv := ihv (n := n + (v.size + rest.size)) (by omega)
      (stops_space_append post (b := comma) (t := rest.render ++ r) (by decide))
    have hrest := ihrest (n := n + (v.size + rest.size)) (r := r) (by omega) trivial
    simpa [Text.render, Text.size, ← Nat.add_assoc] using read_member hv hrest

theorem read_document_eq {t : Bytes} {d : Document} (h : readDocument t = some d) :
    d.render = t := by
  unfold readDocument at h
  generalize hpre : takeSpace t = pre at h
  split at h
  · cases h
  · rename_i v hv
    generalize hpost : takeSpace v.2 = post at h
    split at h
    · rename_i hend
      cases h
      rw [take_space_eq hpre, read_eq hv, take_space_eq hpost, hend, List.append_nil]
      exact List.append_assoc _ _ _
    · cases h

theorem read_document_render (d : Document) : readDocument d.render = some d := by
  obtain ⟨pre, root, post⟩ := d
  have hpost : takeSpace post.1 = (post, []) := by
    have happend := take_space_append post (stops_nil isSpace)
    rwa [List.append_nil] at happend
  have hstop : Stops isScalarByte post.1 := by
    have happend := stops_space post (stops_nil isScalarByte)
    rwa [List.append_nil] at happend
  have hrender : (Document.mk pre root post).render = pre.1 ++ (root.render ++ post.1) :=
    List.append_assoc _ _ _
  have hpre := take_space_append pre (stops_render root post.1)
  have hfuel : root.size ≤ 2 * (pre.1 ++ (root.render ++ post.1)).length + 2 := by
    have hsize := size_le root
    simp only [List.length_append]
    omega
  unfold readDocument
  rw [hrender, hpre, read_render hfuel hstop]
  dsimp only
  rw [hpost]
  rfl

end Lib.JsonText
