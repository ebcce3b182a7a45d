import Mathlib.Data.List.TakeWhile

/-!
# The concrete syntax of JSON

A JSON text as its bytes spell it: every brace, every escape and every run of whitespace is in the
tree, and rendering the tree gives the bytes back. A tree is well formed by construction.
-/

namespace Lib.JsonText

abbrev Bytes := List UInt8

def ascii (s : String) : Bytes :=
  s.toList.map fun c => c.toNat.toUInt8

def quote : UInt8 := 0x22
def backslash : UInt8 := 0x5C
def comma : UInt8 := 0x2C
def colon : UInt8 := 0x3A
def openBracket : UInt8 := 0x5B
def closeBracket : UInt8 := 0x5D
def openBrace : UInt8 := 0x7B
def closeBrace : UInt8 := 0x7D

/-! ## Tokens -/

def isSpace (b : UInt8) : Bool :=
  b == 0x20 || b == 0x09 || b == 0x0A || b == 0x0D

def isDigit (b : UInt8) : Bool :=
  0x30 ≤ b && b ≤ 0x39

def isHex (b : UInt8) : Bool :=
  isDigit b || (0x61 ≤ b && b ≤ 0x66) || (0x41 ≤ b && b ≤ 0x46)

/-- A byte that may stand in a literal or a number. -/
def isScalarByte (b : UInt8) : Bool :=
  isDigit b || (0x61 ≤ b && b ≤ 0x7A) || b == 0x45 || b == 0x2B || b == 0x2D || b == 0x2E

def isDigits (t : Bytes) : Bool :=
  !t.isEmpty && t.all isDigit

def isExponent : Bytes → Bool
  | [] => true
  | e :: t =>
    (e == 0x65 || e == 0x45) &&
      match t with
      | [] => false
      | sign :: ds => if sign == 0x2B || sign == 0x2D then isDigits ds else isDigits t

/-- What may follow the integer part of a number. -/
def isFraction : Bytes → Bool
  | [] => true
  | b :: t =>
    if b == 0x2E then !(t.takeWhile isDigit).isEmpty && isExponent (t.dropWhile isDigit)
    else isExponent (b :: t)

def isUnsigned : Bytes → Bool
  | [] => false
  | b :: t =>
    if b == 0x30 then isFraction t else isDigit b && isFraction (t.dropWhile isDigit)

def isNumber : Bytes → Bool
  | [] => false
  | b :: t => if b == 0x2D then isUnsigned t else isUnsigned (b :: t)

/-- A literal or a number. -/
def isScalar (t : Bytes) : Bool :=
  t == ascii "null" || t == ascii "true" || t == ascii "false" || (isNumber t && t.all isScalarByte)

/-- The byte after a backslash, other than `u`. -/
def isEscape (b : UInt8) : Bool :=
  b == quote || b == backslash || b == 0x2F || b == 0x62 || b == 0x66 || b == 0x6E || b == 0x72 ||
    b == 0x74

/-- What stands between the quotes of a string. -/
def isBody : Bytes → Bool
  | [] => true
  | b :: t =>
    if b == backslash then
      match t with
      | [] => false
      | e :: t =>
        if e == 0x75 then
          match t with
          | h1 :: h2 :: h3 :: h4 :: t => isHex h1 && isHex h2 && isHex h3 && isHex h4 && isBody t
          | _ => false
        else isEscape e && isBody t
    else b != quote && 0x20 ≤ b && isBody t

/-- A run of whitespace. -/
def Space := {t : Bytes // t.all isSpace = true}

def Scalar := {t : Bytes // isScalar t = true}

/-- The text of a string, without its quotes. -/
def Body := {t : Bytes // isBody t = true}

def Space.none : Space :=
  ⟨[], rfl⟩

/-! ## Trees -/

inductive Kind
  | value
  | items
  | members

/-- The key of a member, and the whitespace around it and its colon. -/
structure Head where
  pre : Space
  key : Body
  mid : Space
  gap : Space

/-- A value, the rest of an array's items up to its closing bracket, or the rest of an object's
members up to its closing brace. -/
inductive Text : Kind → Type
  | scalar (t : Scalar) : Text .value
  | string (body : Body) : Text .value
  | emptyArray (ws : Space) : Text .value
  | array (items : Text .items) : Text .value
  | emptyObject (ws : Space) : Text .value
  | object (members : Text .members) : Text .value
  | lastItem (pre : Space) (v : Text .value) (post : Space) : Text .items
  | item (pre : Space) (v : Text .value) (post : Space) (rest : Text .items) : Text .items
  | lastMember (head : Head) (v : Text .value) (post : Space) : Text .members
  | member (head : Head) (v : Text .value) (post : Space) (rest : Text .members) : Text .members

def renderString (body : Body) : Bytes :=
  quote :: body.1 ++ [quote]

def Head.render (h : Head) : Bytes :=
  h.pre.1 ++ renderString h.key ++ h.mid.1 ++ colon :: h.gap.1

def Text.render : {k : Kind} → Text k → Bytes
  | _, .scalar t => t.1
  | _, .string body => renderString body
  | _, .emptyArray ws => openBracket :: ws.1 ++ [closeBracket]
  | _, .array items => openBracket :: items.render
  | _, .emptyObject ws => openBrace :: ws.1 ++ [closeBrace]
  | _, .object members => openBrace :: members.render
  | _, .lastItem pre v post => pre.1 ++ v.render ++ post.1 ++ [closeBracket]
  | _, .item pre v post rest => pre.1 ++ v.render ++ post.1 ++ comma :: rest.render
  | _, .lastMember head v post => head.render ++ v.render ++ post.1 ++ [closeBrace]
  | _, .member head v post rest => head.render ++ v.render ++ post.1 ++ comma :: rest.render

/-- A whole text: one value, with whitespace around it. -/
structure Document where
  pre : Space
  root : Text .value
  post : Space

def Document.render (d : Document) : Bytes :=
  d.pre.1 ++ d.root.render ++ d.post.1

end Lib.JsonText
