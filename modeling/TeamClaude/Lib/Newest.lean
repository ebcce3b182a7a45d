import Mathlib.Data.Finset.Max

/-!
# The newest elements of a finite set

The elements of a finite set with fewer than a given number above them. Removing the least element
of a set over that number leaves its newest elements alone.
-/

namespace Lib

variable {α : Type*} [LinearOrder α]

/-- The `count` greatest elements, or all where there are fewer. -/
def newest (count : Nat) (s : Finset α) : Finset α :=
  s.filter fun e => (s.filter (e < ·)).card < count

section Newest

variable {s : Finset α} {e least : α} {count : Nat}

theorem mem_newest : e ∈ newest count s ↔ e ∈ s ∧ (s.filter (e < ·)).card < count :=
  Finset.mem_filter

theorem newest_subset : newest count s ⊆ s :=
  Finset.filter_subset _ s

theorem card_above_lt (h : e ∈ s) : (s.filter (e < ·)).card < s.card := by
  refine Finset.card_lt_card (Finset.filter_ssubset.mpr ⟨e, h, ?_⟩)
  exact lt_irrefl e

theorem newest_of_card_le (h : s.card ≤ count) : newest count s = s :=
  Finset.filter_true_of_mem fun _ he => (card_above_lt he).trans_le h

/-- Everything but the least element is above it. -/
theorem above_least (h : s.min = least) : s.filter (least < ·) = s.erase least := by
  ext e
  rw [Finset.mem_filter, Finset.mem_erase]
  constructor
  · rintro ⟨he, hlt⟩
    exact ⟨hlt.ne', he⟩
  · rintro ⟨hne, he⟩
    exact ⟨he, lt_of_le_of_ne (Finset.min_le_of_eq he h) hne.symm⟩

/-- A set over the count has the newest elements it has without its least. -/
theorem newest_erase_least (h : s.min = least) (hover : count < s.card) :
    newest count (s.erase least) = newest count s := by
  have hleast : least ∈ s := Finset.mem_of_min h
  have habove : ∀ e ∈ s, (s.erase least).filter (e < ·) = s.filter (e < ·) := by
    intro e he
    rw [Finset.filter_erase, Finset.erase_eq_of_notMem]
    rintro hmem
    exact absurd (Finset.mem_filter.mp hmem).2 (not_lt.mpr (Finset.min_le_of_eq he h))
  ext e
  rw [mem_newest, mem_newest]
  constructor
  · rintro ⟨he, hcount⟩
    have hin := Finset.mem_of_mem_erase he
    exact ⟨hin, by rwa [habove e hin] at hcount⟩
  · rintro ⟨he, hcount⟩
    have hne : e ≠ least := by
      rintro rfl
      rw [above_least h, Finset.card_erase_of_mem hleast] at hcount
      omega
    exact ⟨Finset.mem_erase.mpr ⟨hne, he⟩, by rwa [habove e he]⟩

/-- There are as many newest elements as the count and the set allow. -/
theorem card_newest (count : Nat) (s : Finset α) : (newest count s).card = min count s.card := by
  induction hsize : s.card generalizing s with
  | zero => rw [newest_of_card_le (by omega), hsize, Nat.min_zero]
  | succ size ih =>
    rcases Nat.lt_or_ge count s.card with hover | hfits
    · have hsome : s.Nonempty := Finset.card_pos.mp (by omega)
      obtain ⟨least, hleast⟩ := Finset.min_of_nonempty hsome
      have hrest := Finset.card_erase_of_mem (Finset.mem_of_min hleast)
      rw [← newest_erase_least hleast hover, ih (s.erase least) (by omega)]
      omega
    · rw [newest_of_card_le hfits]
      omega

end Newest

end Lib
