import Mathlib.Data.List.Forall2

/-!
# Aligned and growing lists

Two lists stay related position by position while one of their positions is replaced, and a list
grows while its positions keep what they hold up to a relation.
-/

namespace Lib

variable {α β : Type*}

section Aligned

variable {R : α → β → Prop} {l : List α} {m : List β}

theorem aligned_get (h : List.Forall₂ R l m) {i : Nat} {a : α} {b : β} (ha : l[i]? = some a)
    (hb : m[i]? = some b) : R a b := by
  obtain ⟨hl, rfl⟩ := List.getElem?_eq_some_iff.mp ha
  obtain ⟨hm, rfl⟩ := List.getElem?_eq_some_iff.mp hb
  exact h.get hl hm

theorem aligned_set (h : List.Forall₂ R l m) {i : Nat} {a : α}
    (ha : ∀ old b, l[i]? = some old → m[i]? = some b → R old b → R a b) :
    List.Forall₂ R (l.set i a) m := by
  induction h generalizing i with
  | nil => exact .nil
  | cons hab htail ih =>
    cases i with
    | zero => exact .cons (ha _ _ rfl rfl hab) htail
    | succ i => exact .cons hab (ih fun old b hl hm => ha old b hl hm)

theorem aligned_modify (h : List.Forall₂ R l m) {f : β → β} (hf : ∀ a b, R a b → R a (f b))
    (i : Nat) : List.Forall₂ R l (m.modify i f) := by
  induction h generalizing i with
  | nil => cases i <;> exact .nil
  | cons hab htail ih =>
    cases i with
    | zero => exact .cons (hf _ _ hab) htail
    | succ i => exact .cons hab (ih i)

end Aligned

/-- Every position of the first list is a position of the second, and what it holds there follows
from what it held by `R`. -/
def Extends (R : α → α → Prop) (l m : List α) : Prop :=
  ∀ (i : Nat) a, l[i]? = some a → ∃ b, m[i]? = some b ∧ R a b

namespace Extends

variable {R : α → α → Prop} {l m n : List α}

theorem refl (hR : ∀ a, R a a) (l : List α) : Extends R l l :=
  fun _ a h => ⟨a, h, hR a⟩

theorem trans (hR : ∀ a b c, R a b → R b c → R a c) (h : Extends R l m) (h' : Extends R m n) :
    Extends R l n := by
  intro i a ha
  obtain ⟨b, hb, hab⟩ := h i a ha
  obtain ⟨c, hc, hbc⟩ := h' i b hb
  exact ⟨c, hc, hR a b c hab hbc⟩

theorem append (h : Extends R l m) (n : List α) : Extends R l (m ++ n) := by
  intro i a ha
  obtain ⟨b, hb, hab⟩ := h i a ha
  exact ⟨b, List.getElem?_append_left (List.getElem?_eq_some_iff.mp hb).1 ▸ hb, hab⟩

theorem map {f : α → α} (hf : ∀ a, R a (f a)) (l : List α) : Extends R l (l.map f) :=
  fun i a ha => ⟨f a, by rw [List.getElem?_map, ha]; rfl, hf a⟩

theorem set (hR : ∀ a, R a a) {i : Nat} {a : α} (ha : ∀ old, l[i]? = some old → R old a) :
    Extends R l (l.set i a) := by
  intro j b hb
  rw [List.getElem?_set]
  split
  · rename_i hij
    subst hij
    exact ⟨a, if_pos (List.getElem?_eq_some_iff.mp hb).1, ha b hb⟩
  · exact ⟨b, hb, hR b⟩

theorem modify (hR : ∀ a, R a a) {f : α → α} (hf : ∀ a, R a (f a)) (i : Nat) (l : List α) :
    Extends R l (l.modify i f) := by
  intro j b hb
  rw [List.getElem?_modify, hb]
  split
  · exact ⟨f b, rfl, hf b⟩
  · exact ⟨b, rfl, hR b⟩

end Extends

end Lib
