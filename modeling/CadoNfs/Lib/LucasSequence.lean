import Mathlib.RingTheory.Polynomial.Chebyshev

/-!
# Lucas sequences

The sequence `V 0 = 2`, `V 1 = X`, `V (n + 1) = X * V n - V (n - 1)`
over a commutative ring, and triples of its terms as differential addition chains use
them: two terms and the term at the difference of their indices.

Main results:

- Theorem `lucasV_eq_eval`: the terms are values of the rescaled Chebyshev
  polynomials, which also gives them at negative indices.
- Theorem `lucasTerm_add`: a sum of indices costs one product and one
  difference.
- Theorem `IsLucasTriple.sum`: two terms and the term at the difference give the
  term at the sum.
- Theorems `lucasV_comp`, `lucasV_progression`: products of indices, and arithmetic
  progressions of them.
-/

namespace LucasSequence

open Polynomial

variable {R : Type*} [CommRing R] (X : R)

/-! ## Terms -/

attribute [local instance] Mathlib.Meta.NormNum.instAtLeastTwo in
/-- The Lucas sequence `V`. -/
def lucasV (X : R) (n : ℕ) : R :=
  match n with
  | 0 => 2
  | 1 => X
  | n + 2 => X * lucasV X (n + 1) - lucasV X n

variable (n : ℤ)

/-- The term at an integer index. -/
noncomputable def lucasTerm : R :=
  (Chebyshev.C R n).eval X

@[simp]
theorem lucasTerm_zero : lucasTerm X 0 = 2 := by
  simp [lucasTerm]

@[simp]
theorem lucasTerm_one : lucasTerm X 1 = X := by
  simp [lucasTerm]

@[simp]
theorem lucasTerm_neg : lucasTerm X (-n) = lucasTerm X n := by
  simp [lucasTerm]

theorem lucasTerm_add_two : lucasTerm X (n + 2) = X * lucasTerm X (n + 1) - lucasTerm X n := by
  simp [lucasTerm, Chebyshev.C_add_two]

/-- At natural indices the terms are those of the recursion. -/
theorem lucasV_eq_eval (n : ℕ) : lucasV X n = lucasTerm X n := by
  induction n using lucasV.induct with
  | case1 => simp [lucasV]
  | case2 => simp [lucasV]
  | case3 n ih₁ ih₂ =>
    rw [lucasV, ih₁, ih₂]
    push_cast
    exact (lucasTerm_add_two X n).symm

/-- A sum of indices costs one product and one difference. -/
theorem lucasTerm_add (m n : ℤ) :
    lucasTerm X (m + n) = lucasTerm X m * lucasTerm X n - lucasTerm X (m - n) := by
  have hproduct := congrArg (Polynomial.eval X) (Chebyshev.C_mul_C R m n)
  simp only [eval_mul, eval_add] at hproduct
  rw [eq_sub_iff_add_eq]
  exact hproduct.symm

theorem lucasTerm_two_mul : lucasTerm X (2 * n) = lucasTerm X n * lucasTerm X n - 2 := by
  rw [two_mul, lucasTerm_add, sub_self, lucasTerm_zero]

/-! ## Triples -/

/-- Two terms and the term at the difference of their indices. -/
structure IsLucasTriple (index : ℤ × ℤ) (A B C : R) : Prop where
  fst : A = lucasTerm X index.1
  snd : B = lucasTerm X index.2
  diff : C = lucasTerm X (index.1 - index.2)

/-- The term at the sum of the two indices. -/
theorem IsLucasTriple.sum {index : ℤ × ℤ} {A B C : R} (h : IsLucasTriple X index A B C) :
    A * B - C = lucasTerm X (index.1 + index.2) := by
  rw [h.fst, h.snd, h.diff, lucasTerm_add]

theorem lucasTerm_product {m n difference total : ℤ}
    (hdifference : difference = m - n ∨ difference = n - m) (htotal : total = m + n) :
    lucasTerm X m * lucasTerm X n - lucasTerm X difference = lucasTerm X total := by
  subst htotal
  rcases hdifference with rfl | rfl
  · exact (lucasTerm_add X m n).symm
  · rw [← neg_sub m n, lucasTerm_neg]
    exact (lucasTerm_add X m n).symm

theorem lucasTerm_square {n total : ℤ} (htotal : total = 2 * n) :
    lucasTerm X n * lucasTerm X n - 2 = lucasTerm X total := by
  rw [htotal, lucasTerm_two_mul]

/-- A term at a term is the term at the product of the indices. -/
theorem lucasV_comp (m n : ℕ) : lucasV (lucasV X m) n = lucasV X (m * n) := by
  simp only [lucasV_eq_eval, lucasTerm]
  rw [mul_comm, Nat.cast_mul, Chebyshev.C_mul, eval_comp]

/-- The next term of an arithmetic progression of indices. -/
theorem lucasV_progression {m n l : ℕ} (hl : l + n = m) :
    lucasV X m * lucasV X n - lucasV X l = lucasV X (m + n) := by
  simp only [lucasV_eq_eval]
  exact lucasTerm_product X (.inl (by omega)) (by push_cast; rfl)

theorem lucasV_mul_succ (n : ℕ) : lucasV X n * lucasV X (n + 1) - X = lucasV X (2 * n + 1) := by
  rw [mul_comm, two_mul, add_right_comm]
  exact lucasV_progression X (l := 1) (by omega)

theorem lucasV_mul_self (n : ℕ) : lucasV X n * lucasV X n - 2 = lucasV X (2 * n) := by
  rw [two_mul]
  exact lucasV_progression X (l := 0) (by omega)

end LucasSequence
