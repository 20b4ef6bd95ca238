import Mathlib.Algebra.BigOperators.Intervals
import Mathlib.Tactic.Abel

/-!
# Seven products for eight

The product of matrices whose entries are multiplied by a map that is additive in both
arguments, and its four quarters in terms of seven products of sums of quarters.

Main results:

- Theorem `prod_halves`: a product by the halves of the inner dimension.
- Theorems `quarter11`, `quarter12`, `quarter21` and `quarter22`: the
  quarters of a product.
-/

namespace Strassen

open Finset

variable {U V W : Type*} [AddCommGroup U] [AddCommGroup V] [AddCommGroup W]

/-- The product of two matrices with the inner dimension `k`. -/
def prod (f : U →+ V →+ W) (k : ℕ) (A : ℕ × ℕ → U) (B : ℕ × ℕ → V) (p : ℕ × ℕ) : W :=
  ∑ x ∈ range k, f (A (p.1, x)) (B (x, p.2))

variable (f : U →+ V →+ W) (k : ℕ)

section

variable (A A' : ℕ × ℕ → U) (B : ℕ × ℕ → V)

theorem prod_add_left : prod f k (A + A') B = prod f k A B + prod f k A' B := by
  funext p
  simp only [prod, Pi.add_apply, map_add, AddMonoidHom.add_apply, sum_add_distrib]

theorem prod_sub_left : prod f k (A - A') B = prod f k A B - prod f k A' B := by
  funext p
  simp only [prod, Pi.sub_apply, map_sub, AddMonoidHom.sub_apply, sum_sub_distrib]

end

variable (A : ℕ × ℕ → U)

theorem prod_add_right (B B' : ℕ × ℕ → V) : prod f k A (B + B') = prod f k A B + prod f k A B' := by
  funext p
  simp [prod, Pi.add_apply, map_add, sum_add_distrib]

theorem prod_sub_right (B B' : ℕ × ℕ → V) : prod f k A (B - B') = prod f k A B - prod f k A B' := by
  funext p
  simp [prod, Pi.sub_apply, map_sub, sum_sub_distrib]

theorem prod_congr {A A' : ℕ × ℕ → U} {B B' : ℕ × ℕ → V} {m n : ℕ}
    (hA : ∀ i < m, ∀ x < k, A (i, x) = A' (i, x)) (hB : ∀ x < k, ∀ j < n, B (x, j) = B' (x, j))
    {i j : ℕ} (hi : i < m) (hj : j < n) : prod f k A B (i, j) = prod f k A' B' (i, j) :=
  sum_congr rfl fun x hx => by
    rw [hA i hi x (mem_range.mp hx), hB x (mem_range.mp hx) j hj]

/-- The part of a matrix that begins at a row and a column. -/
def corner {X : Type*} (i j : ℕ) (A : ℕ × ℕ → X) (p : ℕ × ℕ) : X :=
  A (p.1 + i, p.2 + j)

/-- A product by the halves of the inner dimension. -/
theorem prod_halves (B : ℕ × ℕ → V) (i j : ℕ) : corner i j (prod f (k + k) A B)
      = prod f k (corner i 0 A) (corner 0 j B) + prod f k (corner i k A) (corner k j B) := by
  funext p
  simp only [corner, prod, Pi.add_apply, sum_range_add, add_zero]
  simp [add_comm k]

section Quarters

variable (A11 A12 A21 A22 : ℕ × ℕ → U) (B11 B12 B21 B22 : ℕ × ℕ → V)

theorem quarter11 :
    prod f k A11 B11 + prod f k A12 B21
      = prod f k (A12 - A22) (B21 + B22) + prod f k (A11 + A22) (B11 + B22)
        + prod f k A22 (B21 - B11) - prod f k (A11 + A12) B22 := by
  simp only [prod_add_left, prod_sub_left, prod_add_right, prod_sub_right]
  abel

theorem quarter12 :
    prod f k A11 B12 + prod f k A12 B22
      = prod f k (A11 + A12) B22 + prod f k A11 (B12 - B22) := by
  simp only [prod_add_left, prod_sub_right]
  abel

theorem quarter21 :
    prod f k A21 B11 + prod f k A22 B21
      = prod f k A22 (B21 - B11) + prod f k (A21 + A22) B11 := by
  simp only [prod_add_left, prod_sub_right]
  abel

theorem quarter22 :
    prod f k A21 B12 + prod f k A22 B22
      = prod f k (A21 - A11) (B11 + B12) + prod f k (A11 + A22) (B11 + B22)
        - prod f k (A21 + A22) B11 + prod f k A11 (B12 - B22) := by
  simp only [prod_add_left, prod_sub_left, prod_add_right, prod_sub_right]
  abel

end Quarters

end Strassen
