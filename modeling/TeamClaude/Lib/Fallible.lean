import Mathlib.Data.List.Basic

/-!
# Steps that can fail

What is known of the parts when steps that can fail succeed one after another.
-/

namespace Lib

variable {ε ε' α : Type*}

theorem bind_ok {ε α β : Type} {first : Except ε α} {next : α → Except ε β} {b : β} :
    first >>= next = .ok b ↔ ∃ a, first = .ok a ∧ next a = .ok b := by
  cases first with
  | error err =>
    constructor
    · intro h
      cases h
    · rintro ⟨a, ha, -⟩
      cases ha
  | ok a =>
    constructor
    · exact fun h => ⟨a, rfl, h⟩
    · rintro ⟨other, hother, h⟩
      cases hother
      exact h

theorem map_error_ok {rename : ε → ε'} {result : Except ε α} {a : α} :
    result.mapError rename = .ok a ↔ result = .ok a := by
  cases result with
  | ok found => rw [Except.mapError, Except.ok.injEq, Except.ok.injEq]
  | error err =>
    constructor
    · intro h
      cases h
    · intro h
      cases h

theorem to_option_some {result : Except ε α} {a : α} :
    result.toOption = some a ↔ result = .ok a := by
  cases result with
  | ok found => rw [Except.toOption, Option.some.injEq, Except.ok.injEq]
  | error err =>
    constructor
    · intro h
      cases h
    · intro h
      cases h

theorem map_m_ok {ε α β : Type} {step : α → Except ε β} {items : List α} {out : List β}
    (h : items.mapM step = .ok out) : ∀ b ∈ out, ∃ a ∈ items, step a = .ok b := by
  induction items generalizing out with
  | nil =>
    cases h
    exact fun b hb => absurd hb List.not_mem_nil
  | cons a items ih =>
    rw [List.mapM_cons] at h
    obtain ⟨first, hfirst, h⟩ := bind_ok.mp h
    obtain ⟨more, hmore, h⟩ := bind_ok.mp h
    cases h
    rintro b (_ | ⟨_, hb⟩)
    · exact ⟨a, List.mem_cons_self, hfirst⟩
    · obtain ⟨other, hother, hstep⟩ := ih hmore b hb
      exact ⟨other, List.mem_cons_of_mem a hother, hstep⟩

theorem map_m_map {α β : Type} {read : β → Option α} {write : α → β} {l : List α}
    (h : ∀ a ∈ l, read (write a) = some a) : (l.map write).mapM read = some l := by
  induction l with
  | nil => rfl
  | cons a l ih =>
    rw [List.map_cons, List.mapM_cons, h a List.mem_cons_self,
      ih fun b hb => h b (List.mem_cons_of_mem a hb)]
    rfl

end Lib
