import Mathlib.Logic.Basic

/-!
# Sealed messages

A box seals a message to a public key, not always to the same output, and opens an output with a
private key. An ideal box opens what was sealed to the key, and nothing else.
-/

namespace Lib

structure SealedBox (Priv Pub Msg Out : Type*) where
  publicOf : Priv → Pub
  /-- An output of sealing a message to a key. -/
  Sealed : Pub → Msg → Out → Prop
  openSealed : Priv → Out → Option Msg

namespace SealedBox

variable {Priv Pub Msg Out : Type*}

structure Ideal (box : SealedBox Priv Pub Msg Out) : Prop where
  open_iff : ∀ key out msg,
    box.openSealed key out = some msg ↔ box.Sealed (box.publicOf key) msg out

variable {box : SealedBox Priv Pub Msg Out} {keys : List Priv} {out : Out} {msg : Msg}

theorem Ideal.open_none (h : box.Ideal) {key : Priv} :
    box.openSealed key out = none ↔ ∀ msg, ¬box.Sealed (box.publicOf key) msg out := by
  constructor
  · intro hnone msg hsealed
    rw [(h.open_iff key out msg).mpr hsealed] at hnone
    cases hnone
  · intro hsealed
    cases hopen : box.openSealed key out with
    | none => rfl
    | some msg => exact absurd ((h.open_iff key out msg).mp hopen) (hsealed msg)

/-- A message is sealed to one of some keys, and to none of those before it. -/
inductive SealedFirst {Row : Type*} (box : SealedBox Priv Pub Msg Out) (keyOf : Row → Priv)
    (out : Out) : List Row → Row → Msg → Prop
  | here {row rows msg} : box.Sealed (box.publicOf (keyOf row)) msg out →
      SealedFirst box keyOf out (row :: rows) row msg
  | later {row rows found msg} : (∀ other, ¬box.Sealed (box.publicOf (keyOf row)) other out) →
      SealedFirst box keyOf out rows found msg → SealedFirst box keyOf out (row :: rows) found msg

theorem SealedFirst.sealed {Row : Type*} {keyOf : Row → Priv} {rows : List Row} {row : Row}
    (h : box.SealedFirst keyOf out rows row msg) :
    box.Sealed (box.publicOf (keyOf row)) msg out := by
  induction h with
  | here hsealed => exact hsealed
  | later _ _ ih => exact ih

/-- The first of some rows whose key opens an output, with what it opens to. -/
def openFirst {Row : Type*} (box : SealedBox Priv Pub Msg Out) (keyOf : Row → Priv) (out : Out) :
    List Row → Option (Row × Msg)
  | [] => none
  | row :: rows =>
    match box.openSealed (keyOf row) out with
    | some msg => some (row, msg)
    | none => openFirst box keyOf out rows

theorem Ideal.open_first {Row : Type*} (h : box.Ideal) {keyOf : Row → Priv} {rows : List Row}
    {row : Row} :
    box.openFirst keyOf out rows = some (row, msg) ↔ box.SealedFirst keyOf out rows row msg := by
  induction rows with
  | nil =>
    constructor
    · intro hopen
      cases hopen
    · intro hsealed
      cases hsealed
  | cons first rows ih =>
    unfold openFirst
    cases hopen : box.openSealed (keyOf first) out with
    | some found =>
      have hfound := (h.open_iff _ _ _).mp hopen
      constructor
      · intro hrow
        cases hrow
        exact .here hfound
      · intro hsealed
        cases hsealed with
        | here hmsg =>
          have hsame := (h.open_iff _ _ _).mpr hmsg
          rw [hopen] at hsame
          cases hsame
          rfl
        | later hnone _ => exact absurd hfound (hnone found)
    | none =>
      constructor
      · exact fun hrow => .later (h.open_none.mp hopen) (ih.mp hrow)
      · intro hsealed
        cases hsealed with
        | here hmsg =>
          rw [(h.open_iff _ _ _).mpr hmsg] at hopen
          cases hopen
        | later _ hlater => exact ih.mpr hlater

end SealedBox

end Lib
