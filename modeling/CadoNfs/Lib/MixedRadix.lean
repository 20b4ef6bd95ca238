import Mathlib.Algebra.Order.Ring.Int
import Mathlib.Algebra.BigOperators.Ring.Finset

/-!
# Mixed radix digits

The weights of a mixed radix system divide each other.  The digits of a number are taken
between one weight and the next one.

Main results:

- Theorem `sum_digit`: the digits below a weight give the remainder.
- Theorem `digit_lt`: the bound of a digit.
- Theorem `digit_eq_zero_iff`: when a digit is zero.
-/

namespace MixedRadix

open Finset

/-- The weights of a mixed radix system. -/
structure Weights (w : ℕ → ℤ) : Prop where
  zero : w 0 = 1
  pos : ∀ j, 0 < w j
  dvd : ∀ j, w j ∣ w (j + 1)

/-- The digit of a number at a weight. -/
def digit (w : ℕ → ℤ) (x : ℤ) (j : ℕ) : ℤ :=
  x % w (j + 1) / w j

variable {w : ℕ → ℤ} (hw : Weights w) (x : ℤ)

include hw

theorem Weights.le {i j : ℕ} (hij : i ≤ j) : w i ≤ w j := by
  induction hij with
  | refl => exact le_rfl
  | step _ ih => exact ih.trans (Int.le_of_dvd (hw.pos _) (hw.dvd _))

theorem digit_nonneg (j : ℕ) : 0 ≤ digit w x j :=
  Int.ediv_nonneg (Int.emod_nonneg x (hw.pos _).ne') (hw.pos j).le

/-- A digit is less than the quotient of the weights. -/
theorem digit_lt (j : ℕ) : digit w x j < w (j + 1) / w j :=
  Int.ediv_lt_of_lt_mul (hw.pos j)
    ((Int.emod_lt_of_pos x (hw.pos _)).trans_eq (Int.ediv_mul_cancel (hw.dvd j)).symm)

theorem digit_eq_zero_iff (j : ℕ) : digit w x j = 0 ↔ x % w (j + 1) < w j := by
  have hdigit : digit w x j < 1 ↔ x % w (j + 1) < w j := by
    rw [digit, Int.ediv_lt_iff_lt_mul (hw.pos j), one_mul]
  have := digit_nonneg hw x j
  omega

/-- The digits below a weight give the remainder. -/
theorem sum_digit (k : ℕ) : ∑ j ∈ range k, w j * digit w x j = x % w k := by
  induction k with
  | zero => rw [range_zero, sum_empty, hw.zero, Int.emod_one]
  | succ k ih =>
    rw [sum_range_succ, ih, digit, ← Int.emod_emod_of_dvd x (hw.dvd k), add_comm,
      Int.mul_ediv_add_emod]

end MixedRadix
