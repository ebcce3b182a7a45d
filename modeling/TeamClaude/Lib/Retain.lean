import Mathlib.Data.List.AList

/-!
# Filtering an association list

`retain` keeps the entries that satisfy a test and says what a lookup reads afterwards.
-/

namespace Lib

variable {α : Type*} {β : α → Type*} [DecidableEq α]

/-- Keep the entries for which `keep` answers `true`. -/
def retain (keep : Sigma β → Bool) (m : AList β) : AList β where
  entries := m.entries.filter keep
  nodupKeys := m.nodupKeys.sublist List.filter_sublist

/-- Rewrite every value, keys and order kept. -/
def mapVals {γ : α → Type*} (f : ∀ a, β a → γ a) (m : AList β) : AList γ where
  entries := m.entries.map fun e => ⟨e.1, f e.1 e.2⟩
  nodupKeys := by
    have h := m.nodupKeys
    simp only [List.NodupKeys, List.keys, List.map_map] at h ⊢
    exact h

theorem lookup_retain_some {keep : Sigma β → Bool} {m : AList β} {k : α} {b : β k} :
    (retain keep m).lookup k = some b ↔ m.lookup k = some b ∧ keep ⟨k, b⟩ = true := by
  have hin := AList.mem_lookup_iff (a := k) (b := b) (s := retain keep m)
  have hout := AList.mem_lookup_iff (a := k) (b := b) (s := m)
  rw [Option.mem_def] at hin hout
  rw [hin, hout]
  simp [retain]

theorem lookup_retain_keep {keep : Sigma β → Bool} {m : AList β} {k : α}
    (h : ∀ b, m.lookup k = some b → keep ⟨k, b⟩ = true) :
    (retain keep m).lookup k = m.lookup k := by
  cases hb : m.lookup k with
  | some b => exact lookup_retain_some.mpr ⟨hb, h b hb⟩
  | none =>
    rw [Option.eq_none_iff_forall_ne_some]
    intro b hr
    rw [(lookup_retain_some.mp hr).1] at hb
    cases hb

theorem lookup_retain_drop {keep : Sigma β → Bool} {m : AList β} {k : α} {b : β k}
    (hb : m.lookup k = some b) (hk : keep ⟨k, b⟩ = false) : (retain keep m).lookup k = none := by
  rw [Option.eq_none_iff_forall_ne_some]
  intro b' hr
  obtain ⟨hb', hk'⟩ := lookup_retain_some.mp hr
  rw [hb] at hb'
  cases hb'
  simp [hk] at hk'

end Lib
