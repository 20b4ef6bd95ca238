import Mathlib.Algebra.BigOperators.Intervals
import Mathlib.Algebra.BigOperators.Ring.Finset
import Mathlib.Algebra.Order.BigOperators.Group.Finset
import Mathlib.Combinatorics.Enumerative.Stirling
import Mathlib.Tactic.Ring

/-!
# Elimination in the matrix of powers

The matrix whose entry in row `i` and column `k` is `i ^ k`.  Gaussian elimination
subtracts from a row a binomial coefficient times each of the rows above it, and leaves factorials
times Stirling numbers of the second kind.

Main results:

- Theorem `row_zero`: the rows are those of the powers at the beginning.
- Theorem `row_eq_add`: one elimination.
- Theorem `row_of_lt`: what has been eliminated.
-/

namespace PowerRows

open Finset
open Nat (stirlingSecond)

/-- The entry `k` of the row `i` after `j` eliminations. -/
def row (j i k : ℕ) : ℕ :=
  ∑ l ∈ Ico j (i + 1), i.descFactorial l * stirlingSecond k l

variable {i j k : ℕ}

/-- A power as a sum of descending factorials. -/
theorem row_zero (i k : ℕ) : row 0 i k = i ^ k := by
  unfold row
  rw [← range_eq_Ico]
  induction k with
  | zero =>
    rw [sum_range_succ', sum_eq_zero fun l _ => by rw [Nat.stirlingSecond_zero_succ, mul_zero],
      Nat.descFactorial_zero, Nat.stirlingSecond_zero, pow_zero, zero_add, one_mul]
  | succ k ih =>
    have hleft : ∑ l ∈ range i, i.descFactorial (l + 1) * ((l + 1) * stirlingSecond k (l + 1))
        = ∑ l ∈ range (i + 1), l * (i.descFactorial l * stirlingSecond k l) := by
      rw [sum_range_succ', zero_mul, add_zero]
      exact sum_congr rfl fun l _ => by ring
    have hright : ∑ l ∈ range i, i.descFactorial (l + 1) * stirlingSecond k l
        = ∑ l ∈ range (i + 1), (i - l) * (i.descFactorial l * stirlingSecond k l) := by
      rw [sum_range_succ, Nat.sub_self, zero_mul, add_zero]
      exact sum_congr rfl fun l _ => by rw [Nat.descFactorial_succ, mul_assoc]
    calc ∑ l ∈ range (i + 1), i.descFactorial l * stirlingSecond (k + 1) l
        = ∑ l ∈ range i, (i.descFactorial (l + 1) * ((l + 1) * stirlingSecond k (l + 1))
            + i.descFactorial (l + 1) * stirlingSecond k l) := by
          rw [sum_range_succ', Nat.stirlingSecond_succ_zero, mul_zero, add_zero]
          exact sum_congr rfl fun l _ => by rw [Nat.stirlingSecond_succ_succ, mul_add]
      _ = ∑ l ∈ range (i + 1), i * (i.descFactorial l * stirlingSecond k l) := by
          rw [sum_add_distrib, hleft, hright, ← sum_add_distrib]
          refine sum_congr rfl fun l hl => ?_
          rw [← add_mul, Nat.add_sub_cancel' (Nat.lt_succ_iff.mp (mem_range.mp hl))]
      _ = i ^ (k + 1) := by rw [← mul_sum, ih, pow_succ']

/-- The columns before `j` have been eliminated. -/
theorem row_of_lt (hk : k < j) : row j i k = 0 :=
  sum_eq_zero fun l hl => by
    rw [Nat.stirlingSecond_eq_zero_of_lt (hk.trans_le (mem_Ico.mp hl).1), mul_zero]

theorem row_self (j k : ℕ) : row j j k = j.factorial * stirlingSecond k j := by
  rw [row, sum_Ico_succ_top le_rfl, Ico_self, sum_empty, zero_add, Nat.descFactorial_self]

theorem row_pivot (j : ℕ) : row j j j = j.factorial := by
  rw [row_self, Nat.stirlingSecond_self, mul_one]

/-- One elimination. -/
theorem row_eq_add (hj : j < i) (k : ℕ) :
    row j i k = i.choose j * row j j k + row (j + 1) i k := by
  rw [row, sum_eq_sum_Ico_succ_bot (by omega), row_self, ← mul_assoc, mul_comm (i.choose j),
    ← Nat.descFactorial_eq_factorial_mul_choose, row]

theorem row_below (hj : j < i) : row j i j = i.choose j * j.factorial := by
  rw [row_eq_add hj, row_pivot, row_of_lt (Nat.lt_succ_self j), add_zero]

theorem row_le_pow (j i k : ℕ) : row j i k ≤ i ^ k := by
  rw [← row_zero]
  exact sum_le_sum_of_subset_of_nonneg (Ico_subset_Ico (Nat.zero_le j) le_rfl)
    fun _ _ _ => Nat.zero_le _

end PowerRows
