import Mathlib.Data.Finset.Card
import Mathlib.Data.Finset.Max
import Mathlib.Order.Interval.Finset.Nat

/-!
# Least-recently-picked rotation

Every member of a pool carries the tick of its last pick. A pick takes a member of least stamp and
stamps it with the current tick, which is above every stamp. Two picks of one member are then at
least as far apart as the pool is large, whatever the initial stamps are and however ties are
broken.
-/

namespace Lib

variable {ι : Type*}

/-- `picks t` is the `t`-th pick of a rotation over the pool `E`, for the first `n` picks. -/
structure Rotation (E : Finset ι) (n : Nat) (picks : Nat → ι) (stamp : Nat → ι → Nat)
    (tick : Nat → Nat) : Prop where
  mem : ∀ t < n, picks t ∈ E
  least : ∀ t < n, ∀ f ∈ E, stamp t (picks t) ≤ stamp t f
  fresh : ∀ t < n, ∀ f ∈ E, stamp t f < tick t
  picked : ∀ t, t + 1 < n → stamp (t + 1) (picks t) = tick t
  frame : ∀ t, t + 1 < n → ∀ f ∈ E, f ≠ picks t → stamp (t + 1) f = stamp t f

namespace Rotation

variable {E : Finset ι} {n : Nat} {picks : Nat → ι} {stamp : Nat → ι → Nat} {tick : Nat → Nat}

/-- A member that is not picked between `a` and `b` keeps its stamp. -/
theorem stamp_unpicked (h : Rotation E n picks stamp tick) {f : ι} (hf : f ∈ E) {a b : Nat}
    (hab : a ≤ b) (hb : b < n) (hnot : ∀ t, a ≤ t → t < b → picks t ≠ f) :
    stamp b f = stamp a f := by
  induction b, hab using Nat.le_induction with
  | base => rfl
  | succ b hab ih =>
    have hkeep : stamp b f = stamp a f :=
      ih (by omega) fun t hat htb => hnot t hat (by omega)
    rw [h.frame b hb f hf fun he => hnot b hab (by omega) he.symm, hkeep]

/-- Between two picks of one member with none of it between them, every other member is picked. -/
theorem others_between (h : Rotation E n picks stamp tick) {a b : Nat} (hab : a < b) (hb : b < n)
    (heq : picks b = picks a) (hlast : ∀ t, a < t → t < b → picks t ≠ picks a) {f : ι} (hf : f ∈ E)
    (hne : f ≠ picks a) : ∃ t, a < t ∧ t < b ∧ picks t = f := by
  by_contra hno
  have hno : ∀ t, a + 1 ≤ t → t < b → picks t ≠ f := fun t hat htb he => hno ⟨t, hat, htb, he⟩
  have hE : picks a ∈ E := h.mem a (by omega)
  have hmine : stamp b (picks a) = tick a := by
    rw [h.stamp_unpicked hE hab hb fun t hat htb => hlast t hat htb]
    exact h.picked a (by omega)
  have hother : stamp b f = stamp a f := by
    rw [h.stamp_unpicked hf hab hb hno]
    exact h.frame a (by omega) f hf hne
  have hle : stamp b (picks b) ≤ stamp b f := h.least b hb f hf
  have hlt : stamp a f < tick a := h.fresh a (by omega) f hf
  rw [heq, hmine, hother] at hle
  omega

/-- Two picks of one member are at least the pool's size apart. -/
theorem gap [DecidableEq ι] (h : Rotation E n picks stamp tick) {a b : Nat} (hab : a < b) (hb : b < n)
    (heq : picks b = picks a) : E.card ≤ b - a := by
  -- the last pick of the member before `b`
  obtain ⟨c, ⟨hac, hcb, hc⟩, hmax⟩ : ∃ c, (a ≤ c ∧ c < b ∧ picks c = picks a) ∧
      ∀ t, c < t → t < b → picks t ≠ picks a := by
    have hne : ((Finset.Ico a b).filter fun t => picks t = picks a).Nonempty :=
      ⟨a, by simp [hab]⟩
    have hc := Finset.max'_mem _ hne
    have hmax := Finset.le_max' ((Finset.Ico a b).filter fun t => picks t = picks a)
    simp only [Finset.mem_filter, Finset.mem_Ico] at hc hmax
    refine ⟨_, ⟨hc.1.1, hc.1.2, hc.2⟩, fun t hct htb he => ?_⟩
    have := hmax t ⟨⟨by omega, htb⟩, he⟩
    omega
  have hsub : E.erase (picks a) ⊆ (Finset.Ioo c b).image picks := by
    intro f hf
    obtain ⟨hne, hfE⟩ := Finset.mem_erase.mp hf
    obtain ⟨t, hct, htb, ht⟩ :=
      h.others_between hcb hb (heq.trans hc.symm) (by rwa [hc]) hfE (by rwa [hc])
    exact Finset.mem_image.mpr ⟨t, Finset.mem_Ioo.mpr ⟨hct, htb⟩, ht⟩
  have hcard : (E.erase (picks a)).card ≤ (Finset.Ioo c b).card :=
    (Finset.card_le_card hsub).trans Finset.card_image_le
  have herase : (E.erase (picks a)).card + 1 = E.card :=
    Finset.card_erase_add_one (h.mem a (by omega))
  rw [Nat.card_Ioo] at hcard
  omega

/-- Any window of at most the pool's size holds distinct picks. -/
theorem window_injective [DecidableEq ι] (h : Rotation E n picks stamp tick) {a w : Nat}
    (hw : w ≤ E.card) (haw : a + w ≤ n) : Set.InjOn picks (Set.Ico a (a + w)) := by
  intro x hx y hy hxy
  simp only [Set.mem_Ico] at hx hy
  rcases Nat.lt_trichotomy x y with hlt | heq | hlt
  · have := h.gap hlt (by omega) hxy.symm
    omega
  · exact heq
  · have := h.gap hlt (by omega) hxy
    omega

end Rotation

end Lib
