import Mathlib.Algebra.Order.Ring.Defs
import Mathlib.Tactic.Linarith
import Mathlib.Tactic.Ring

/-!
# A budget with work in flight

Work is admitted while less than the budget is spent and fewer than `limit` pieces are in flight;
what a piece costs is only known when it is released, and is at most `rise`. Spending then stays
below the budget plus one rise for each piece that may be in flight.
-/

namespace Lib

variable {𝕜 : Type*} [CommRing 𝕜] [LinearOrder 𝕜] [IsStrictOrderedRing 𝕜]

/-- A budget, the most pieces in flight at once, and the most one piece can cost. -/
structure Escrow (𝕜 : Type*) where
  budget : 𝕜
  limit : Nat
  rise : 𝕜

namespace Escrow

/-- What is spent plus what the pieces in flight may still cost stays below the bound. -/
structure Safe (e : Escrow 𝕜) (spent : 𝕜) (inflight : Nat) : Prop where
  within : inflight ≤ e.limit
  covered : spent + inflight * e.rise < e.budget + e.limit * e.rise

variable {e : Escrow 𝕜} {spent : 𝕜} {inflight : Nat}

theorem safe_init (hr : 0 ≤ e.rise) (h : spent < e.budget) : e.Safe spent 0 := by
  refine ⟨Nat.zero_le _, ?_⟩
  have hm : (0 : 𝕜) ≤ e.limit * e.rise := mul_nonneg (Nat.cast_nonneg _) hr
  simp only [Nat.cast_zero, zero_mul, add_zero]
  linarith

/-- Admission looks at what is spent only, so it is the room in flight that pays for it. -/
theorem safe_admit (hr : 0 ≤ e.rise) (hs : spent < e.budget) (hn : inflight < e.limit) :
    e.Safe spent (inflight + 1) := by
  refine ⟨hn, ?_⟩
  have hcast : ((inflight + 1 : Nat) : 𝕜) ≤ e.limit := Nat.cast_le.mpr hn
  have hmul : ((inflight + 1 : Nat) : 𝕜) * e.rise ≤ e.limit * e.rise :=
    mul_le_mul_of_nonneg_right hcast hr
  linarith

theorem safe_release (h : e.Safe spent (inflight + 1)) {charge : 𝕜} (hc : charge ≤ e.rise) :
    e.Safe (spent + charge) inflight := by
  refine ⟨by have := h.within; omega, ?_⟩
  have hcov := h.covered
  rw [Nat.cast_add_one, add_mul, one_mul] at hcov
  linarith

theorem safe_spent (hr : 0 ≤ e.rise) (h : e.Safe spent inflight) :
    spent < e.budget + e.limit * e.rise := by
  have hn : (0 : 𝕜) ≤ inflight * e.rise := mul_nonneg (Nat.cast_nonneg _) hr
  linarith [h.covered]

end Escrow

end Lib
