import Mathlib.Data.List.Infix

/-!
# Items read off the front of a buffer

A code for items, with a reader that takes one item off the front of a buffer and says how much it
took. When a whole item reads back whatever follows it and a part of one reads as nothing, a buffer
that holds the front of a stream of items reads as the first of them, or as nothing.
-/

namespace Lib

structure Framing (α β : Type*) where
  encode : α → List β
  decode : List β → Option (α × Nat)

namespace Framing

variable {α β : Type*}

def encodeAll (f : Framing α β) (items : List α) : List β :=
  (items.map f.encode).flatten

structure Lawful (f : Framing α β) (valid : α → Prop) : Prop where
  whole : ∀ a rest, valid a → f.decode (f.encode a ++ rest) = some (a, (f.encode a).length)
  short : ∀ a part, valid a → part <+: f.encode a → part ≠ f.encode a → f.decode part = none
  empty : f.decode [] = none

variable {f : Framing α β} {valid : α → Prop} {items : List α} {pending rest : List β}

@[simp] theorem encode_all_nil : f.encodeAll [] = [] := rfl

@[simp] theorem encode_all_cons (a : α) (items : List α) :
    f.encodeAll (a :: items) = f.encode a ++ f.encodeAll items := rfl

theorem encode_all_append (before after : List α) :
    f.encodeAll (before ++ after) = f.encodeAll before ++ f.encodeAll after := by
  simp [encodeAll]

/-- What a buffer at the front of a stream reads as: the first item, with the stream of the others
left, or nothing, with the first item still on its way if there is one. -/
theorem Lawful.front (h : f.Lawful valid) (hvalid : ∀ a ∈ items, valid a)
    (hsplit : pending ++ rest = f.encodeAll items) :
    (∃ a tail, items = a :: tail ∧ f.decode pending = some (a, (f.encode a).length) ∧
      pending.drop (f.encode a).length ++ rest = f.encodeAll tail) ∨
    (f.decode pending = none ∧ (items = [] ∨
      ∃ a tail, items = a :: tail ∧ pending.length < (f.encode a).length ∧ rest ≠ [])) := by
  cases items with
  | nil =>
    obtain ⟨rfl, -⟩ := List.append_eq_nil_iff.mp hsplit
    exact .inr ⟨h.empty, .inl rfl⟩
  | cons a tail =>
    have ha := hvalid a List.mem_cons_self
    rw [encode_all_cons] at hsplit
    rcases List.append_eq_append_iff.mp hsplit with ⟨more, hwhole, hrest⟩ | ⟨more, rfl, htail⟩
    · by_cases hmore : more = []
      · subst hmore
        rw [List.append_nil] at hwhole
        subst hwhole
        refine .inl ⟨a, tail, rfl, ?_, ?_⟩
        · simpa using h.whole a [] ha
        · rw [List.drop_length, List.nil_append, hrest, List.nil_append]
      · refine .inr ⟨h.short a pending ha ⟨more, hwhole.symm⟩ fun heq => hmore ?_,
          .inr ⟨a, tail, rfl, ?_, fun hnil => hmore ?_⟩⟩
        · rw [heq] at hwhole
          exact List.self_eq_append_right.mp hwhole
        · have := List.length_pos_iff.mpr hmore
          rw [hwhole, List.length_append]
          omega
        · rw [hnil] at hrest
          exact (List.append_eq_nil_iff.mp hrest.symm).1
    · refine .inl ⟨a, tail, rfl, h.whole a more ha, ?_⟩
      rw [List.drop_left, htail]

end Framing

end Lib
