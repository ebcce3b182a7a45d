import Mathlib.Data.List.Nodup

/-!
# A capped list with distinct keys

`push` adds an entry at the end of a list unless the list is full or already holds the entry's key.
Where there is room for every entry pushed, the list ends with one entry for each key, and it holds
exactly the entries pushed if and only if no two of them share a key.
-/

namespace Lib.Distinct

variable {α κ : Type*} [DecidableEq κ] (key : α → κ) (cap : Nat)

def push (acc : List α) (x : α) : List α :=
  if cap ≤ acc.length ∨ ∃ y ∈ acc, key y = key x then acc else acc ++ [x]

def pushAll (acc xs : List α) : List α :=
  xs.foldl (push key cap) acc

variable {key cap}

theorem length_push_le_succ (acc : List α) (x : α) :
    (push key cap acc x).length ≤ acc.length + 1 := by
  unfold push
  split <;> simp

theorem mem_push {acc : List α} {x y : α} (h : y ∈ push key cap acc x) : y ∈ acc ∨ y = x := by
  unfold push at h
  split at h
  · exact .inl h
  · simpa using h

theorem mem_push_of_mem {acc : List α} {x y : α} (h : y ∈ acc) : y ∈ push key cap acc x := by
  unfold push
  split
  · exact h
  · exact List.mem_append_left _ h

theorem key_mem_push {acc : List α} {x : α} (h : acc.length < cap) :
    ∃ y ∈ push key cap acc x, key y = key x := by
  unfold push
  split
  · rename_i hs
    rcases hs with hs | hs
    · omega
    · exact hs
  · exact ⟨x, by simp, rfl⟩

theorem injOn_push {acc : List α} {x : α}
    (h : ∀ a ∈ acc, ∀ b ∈ acc, key a = key b → a = b) :
    ∀ a ∈ push key cap acc x, ∀ b ∈ push key cap acc x, key a = key b → a = b := by
  unfold push
  split
  · exact h
  · rename_i hn
    simp only [not_or, not_exists, not_and] at hn
    intro a ha b hb hab
    simp only [List.mem_append, List.mem_singleton] at ha hb
    rcases ha with ha | rfl <;> rcases hb with hb | rfl
    · exact h a ha b hb hab
    · exact absurd hab (hn.2 a ha)
    · exact absurd hab.symm (hn.2 b hb)
    · rfl

theorem mem_pushAll {acc xs : List α} {y : α} (h : y ∈ pushAll key cap acc xs) :
    y ∈ acc ∨ y ∈ xs := by
  induction xs generalizing acc with
  | nil => exact .inl h
  | cons x xs ih =>
    rcases ih h with h | h
    · rcases mem_push h with h | rfl
      · exact .inl h
      · exact .inr List.mem_cons_self
    · exact .inr (List.mem_cons_of_mem _ h)

theorem mem_pushAll_of_mem {acc xs : List α} {y : α} (h : y ∈ acc) :
    y ∈ pushAll key cap acc xs := by
  induction xs generalizing acc with
  | nil => exact h
  | cons x xs ih => exact ih (mem_push_of_mem h)

theorem injOn_pushAll {acc xs : List α} (h : ∀ a ∈ acc, ∀ b ∈ acc, key a = key b → a = b) :
    ∀ a ∈ pushAll key cap acc xs, ∀ b ∈ pushAll key cap acc xs, key a = key b → a = b := by
  induction xs generalizing acc with
  | nil => exact h
  | cons x xs ih => exact ih (injOn_push h)

/-- With room for all of them, every key pushed is in the list. -/
theorem key_mem_pushAll {acc xs : List α} (hroom : acc.length + xs.length ≤ cap) {x : α}
    (hx : x ∈ xs) : ∃ y ∈ pushAll key cap acc xs, key y = key x := by
  induction xs generalizing acc with
  | nil => cases hx
  | cons z zs ih =>
    simp only [List.length_cons] at hroom
    have hlen : (push key cap acc z).length ≤ acc.length + 1 := length_push_le_succ acc z
    rcases List.mem_cons.mp hx with rfl | hx
    · obtain ⟨y, hy, hk⟩ : ∃ y ∈ push key cap acc x, key y = key x := key_mem_push (by omega)
      exact ⟨y, @mem_pushAll_of_mem _ _ _ key cap _ zs y hy, hk⟩
    · exact ih (by omega) hx

/-- A capped list holds everything pushed to it exactly when no two entries share a key. -/
theorem mem_pushAll_iff_injOn {xs : List α} (hroom : xs.length ≤ cap) :
    (∀ x ∈ xs, x ∈ pushAll key cap [] xs) ↔ ∀ a ∈ xs, ∀ b ∈ xs, key a = key b → a = b := by
  constructor
  · intro h a ha b hb
    exact injOn_pushAll (by simp) a (h a ha) b (h b hb)
  · intro h x hx
    obtain ⟨y, hy, hk⟩ : ∃ y ∈ pushAll key cap [] xs, key y = key x :=
      key_mem_pushAll (by simpa using hroom) hx
    have hyxs : y ∈ xs := (mem_pushAll hy).resolve_left (by simp)
    rwa [h y hyxs x hx hk] at hy

end Lib.Distinct
