import Mathlib.Data.List.Basic
import Mathlib.Data.List.TakeWhile
import Mathlib.Data.Int.Order.Basic

/-!
# Events capped in every trailing span

A list of instants, oldest first, whose front is dropped once it has left the span. A new instant
comes no sooner than the span after the one that has `cap - 1` behind it, so that no span of that
length holds more than `cap`.
-/

namespace Lib.Trailing

/-- The events of the span that ends at an instant. -/
def within (window t : Int) (events : List Int) : List Int :=
  events.filter fun e => decide (t - window < e) && decide (e ≤ t)

/-- The event with `count - 1` others behind it. -/
def fromLast (count : Nat) (events : List Int) : Option Int :=
  if count ≤ events.length then events[events.length - count]? else none

/-- What is kept of all events: those that have left the span may be gone. -/
structure Kept (window now : Int) (cap : Nat) (all kept : List Int) : Prop where
  sorted : all.Pairwise (· ≤ ·)
  past : ∀ e ∈ all, e ≤ now
  trimmed : ∃ gone, all = gone ++ kept ∧ ∀ e ∈ gone, e ≤ now - window
  capped : ∀ t, (within window t all).length ≤ cap

/-- The next event may come: the span that ends now holds fewer than `cap`. -/
def Room (window now : Int) (cap : Nat) (kept : List Int) : Prop :=
  ∀ e ∈ fromLast cap kept, e + window ≤ now

variable {window now later floor : Int} {cap count : Nat} {all kept events : List Int}

theorem kept_nil : Kept window now cap [] [] where
  sorted := List.Pairwise.nil
  past := nofun
  trimmed := ⟨[], rfl, nofun⟩
  capped _ := Nat.zero_le cap

theorem Kept.mono (h : Kept window now cap all kept) (hle : now ≤ later) :
    Kept window later cap all kept where
  sorted := h.sorted
  past e he := (h.past e he).trans hle
  trimmed := by
    obtain ⟨gone, hall, hgone⟩ := h.trimmed
    exact ⟨gone, hall, fun e he => (hgone e he).trans (by omega)⟩
  capped := h.capped

theorem Room.mono (h : Room window now cap kept) (hle : now ≤ later) :
    Room window later cap kept :=
  fun e he => (h e he).trans hle

/-- Only those behind an early event are later than the floor. -/
theorem few_after (hsorted : events.Pairwise (· ≤ ·)) (hpos : 0 < count)
    (h : ∀ e ∈ fromLast count events, e ≤ floor) :
    (events.filter fun e => decide (floor < e)).length < count := by
  by_cases hlen : count ≤ events.length
  · have hidx : events.length - count < events.length := by omega
    have hfloor : events[events.length - count] ≤ floor := by
      apply h
      rw [fromLast, if_pos hlen]
      exact List.getElem?_eq_getElem hidx
    have hfront : ∀ e ∈ events.take (events.length - count + 1), e ≤ floor := by
      intro e he
      obtain ⟨i, hi, rfl⟩ := List.mem_take_iff_getElem.mp he
      refine le_trans ?_ hfloor
      rcases Nat.lt_or_ge i (events.length - count) with hlt | hge
      · exact List.pairwise_iff_getElem.mp hsorted i _ (by omega) hidx hlt
      · have heq : i = events.length - count := by omega
        simp only [heq, le_refl]
    have hsplit := List.take_append_drop (events.length - count + 1) events
    have hnone : (events.take (events.length - count + 1)).filter
        (fun e => decide (floor < e)) = [] := by
      rw [List.filter_eq_nil_iff]
      intro e he hlt
      exact absurd (hfront e he) (Int.not_le.mpr (of_decide_eq_true hlt))
    have hrest := List.length_filter_le (fun e => decide (floor < e))
      (events.drop (events.length - count + 1))
    rw [List.length_drop] at hrest
    rw [← hsplit, List.filter_append, hnone, List.nil_append]
    omega
  · exact (List.length_filter_le _ _).trans_lt (Nat.lt_of_not_ge hlen)

/-- With room there are fewer than `cap` events in the span that ends now. -/
theorem Kept.fewer (h : Kept window now cap all kept) (hcap : 0 < cap)
    (hroom : Room window now cap kept) :
    (all.filter fun e => decide (now - window < e)).length < cap := by
  obtain ⟨gone, rfl, hgone⟩ := h.trimmed
  have hnone : gone.filter (fun e => decide (now - window < e)) = [] := by
    rw [List.filter_eq_nil_iff]
    intro e he hlt
    exact absurd (hgone e he) (Int.not_le.mpr (of_decide_eq_true hlt))
  rw [List.filter_append, hnone, List.nil_append]
  apply few_after (List.pairwise_append.mp h.sorted).2.1 hcap
  intro e he
  have hle := hroom e he
  omega

/-- An event with room for it, and the front dropped after it. -/
theorem Kept.push (h : Kept window now cap all kept) (hcap : 0 < cap)
    (hroom : Room window now cap kept) :
    Kept window now cap (all ++ [now])
      ((kept ++ [now]).dropWhile fun e => decide (e ≤ now - window)) where
  sorted := List.pairwise_append.mpr ⟨h.sorted, List.pairwise_singleton _ _, fun a ha b hb => by
    rw [List.mem_singleton.mp hb]
    exact h.past a ha⟩
  past e he := by
    rcases List.mem_append.mp he with he | he
    · exact h.past e he
    · rw [List.mem_singleton.mp he]
  trimmed := by
    obtain ⟨gone, hall, hgone⟩ := h.trimmed
    refine ⟨gone ++ (kept ++ [now]).takeWhile fun e => decide (e ≤ now - window), ?_, ?_⟩
    · rw [List.append_assoc, List.takeWhile_append_dropWhile, hall, List.append_assoc]
    · intro e he
      rcases List.mem_append.mp he with he | he
      · exact hgone e he
      · have hin := List.mem_takeWhile_imp he
        exact of_decide_eq_true hin
  capped t := by
    rcases Int.lt_or_le t now with hlt | hle
    · have hnew : within window t [now] = [] := by
        rw [within, List.filter_eq_nil_iff]
        intro e he hin
        rw [List.mem_singleton.mp he, Bool.and_eq_true] at hin
        exact absurd (of_decide_eq_true hin.2) (Int.not_le.mpr hlt)
      have happend : within window t (all ++ [now]) = within window t all := by
        rw [within, List.filter_append]
        exact (congrArg _ hnew).trans (List.append_nil _)
      rw [happend]
      exact h.capped t
    · have hfew := h.fewer hcap hroom
      have hsub : (within window t all).length ≤
          (all.filter fun e => decide (now - window < e)).length := by
        apply List.Sublist.length_le
        refine List.monotone_filter_right _ fun e he => ?_
        rw [Bool.and_eq_true] at he
        have hin := of_decide_eq_true he.1
        exact decide_eq_true (by omega)
      have happend : (within window t (all ++ [now])).length ≤ (within window t all).length + 1 := by
        rw [within, List.filter_append, List.length_append]
        exact Nat.add_le_add_left (List.length_filter_le _ _) _
      omega

end Lib.Trailing
