import Mathlib.Algebra.BigOperators.Intervals
import Mathlib.Algebra.BigOperators.Ring.Finset
import Mathlib.Tactic.LinearCombination
import Mathlib.Tactic.Ring

/-!
# Binary forms

Homogeneous polynomials in two variables, given by their coefficients from the lowest power of
the first variable on.

Main results:

- Theorems `form_succ`, `form_last`: a form without its first or its last term.
- Theorem `form_linear_mul`: the coefficients of a form times a linear form.
- Theorem `form_neg`: a form at the opposite point.
-/

namespace BinaryForm

open Finset

variable {R : Type*} [CommRing R] (n : ℕ) (c : ℕ → R) (x y : R)

/-- The form of degree `n` with the coefficients `c`. -/
def form : R :=
  ∑ k ∈ range (n + 1), c k * x ^ k * y ^ (n - k)

@[simp] theorem form_zero : form 0 c x y = c 0 := by
  simp [form]

theorem form_congr {n : ℕ} {c c' : ℕ → R} (h : ∀ k ≤ n, c k = c' k) (x y : R) :
    form n c x y = form n c' x y :=
  sum_congr rfl fun k hk => by rw [h k (Nat.lt_succ_iff.mp (mem_range.mp hk))]

/-- Without the term in which the first variable does not occur. -/
theorem form_succ :
    form (n + 1) c x y = x * form n (fun k => c (k + 1)) x y + c 0 * y ^ (n + 1) := by
  rw [form, sum_range_succ', form, mul_sum, pow_zero, mul_one, Nat.sub_zero]
  refine congrArg (· + _) (sum_congr rfl fun k _ => ?_)
  rw [Nat.add_sub_add_right, pow_succ]
  ring

/-- Without the term in which the second variable does not occur. -/
theorem form_last : form (n + 1) c x y = y * form n c x y + c (n + 1) * x ^ (n + 1) := by
  rw [form, sum_range_succ, form, mul_sum, Nat.sub_self, pow_zero, mul_one]
  refine congrArg (· + _) (sum_congr rfl fun k hk => ?_)
  rw [Nat.sub_add_comm (Nat.lt_succ_iff.mp (mem_range.mp hk)), pow_succ]
  ring

theorem form_add (c c' : ℕ → R) (x y : R) :
    form n (fun k => c k + c' k) x y = form n c x y + form n c' x y := by
  rw [form, form, form, ← sum_add_distrib]
  exact sum_congr rfl fun k _ => by ring

theorem form_const_mul (a : R) (c : ℕ → R) (x y : R) :
    form n (fun k => a * c k) x y = a * form n c x y := by
  rw [form, form, mul_sum]
  exact sum_congr rfl fun k _ => by ring

/-- The coefficients of a form times `a * x + b * y`. -/
theorem form_linear_mul {n : ℕ} {c c' : ℕ → R} {a b : R} (hfirst : c' 0 = b * c 0)
    (hmid : ∀ k < n, c' (k + 1) = a * c k + b * c (k + 1)) (hlast : c' (n + 1) = a * c n)
    (x y : R) : form (n + 1) c' x y = (a * x + b * y) * form n c x y := by
  rcases n with _ | n
  · rw [form_succ, form_zero, form_zero, hfirst, hlast]
    ring
  · -- the inner coefficients are a form of their own
    have hinner : form n (fun k => c' (k + 1)) x y
        = a * form n c x y + b * form n (fun k => c (k + 1)) x y := by
      rw [form_congr (fun k hk => hmid k (Nat.lt_succ_iff.mpr hk)), form_add, form_const_mul,
        form_const_mul]
    have hx := form_last n c x y
    have hy := form_succ n c x y
    rw [form_succ, form_last, hinner, hfirst, hlast]
    linear_combination (-(a * x)) * hx - (b * y) * hy

/-- The form at the opposite point. -/
theorem form_neg : form n c (-x) (-y) = (-1) ^ n * form n c x y := by
  rw [form, form, mul_sum]
  refine sum_congr rfl fun k hk => ?_
  have hsplit : (-1 : R) ^ n = (-1) ^ k * (-1) ^ (n - k) := by
    rw [← pow_add, Nat.add_sub_of_le (Nat.lt_succ_iff.mp (mem_range.mp hk))]
  rw [hsplit, neg_pow x, neg_pow y]
  ring

end BinaryForm
