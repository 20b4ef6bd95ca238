import Mathlib.Algebra.BigOperators.ModEq
import Mathlib.Algebra.Polynomial.Identities
import Mathlib.RingTheory.Coprime.Lemmas

/-!
# Expansions of an integer at a quotient

A polynomial with integer coefficients whose homogeneous value at `m` and `l` is a given
integer `N` has the root `m / l` modulo `N`.  The coefficients are found from the
top: the first two from an approximate root of `N` that is exact modulo `l ^ 2`, every
further one modulo `l`.

Main results:

- Theorem `sq_dvd_of_approx`: what the approximate root says about the first two
  coefficients.
- Theorem `dvd_sub_digit`: a further coefficient.
- Theorem `root_of_expansion`: the root modulo `N`.
-/

namespace RationalExpansion

open Finset

/-! ## The first two coefficients -/

/-- An approximate root `d * c * m + a * l` of `d ^ d * c ^ (d - 1) * N` gives the
leading coefficients `c` and `a`. -/
theorem sq_dvd_of_approx {N m a l c : ℤ} {d : ℕ} (hd : 2 ≤ d) (hcop : IsCoprime l (d * c))
    (h : (d * c * m + a * l) ^ d ≡ d ^ d * c ^ (d - 1) * N [ZMOD l ^ 2]) :
    l ^ 2 ∣ N - (c * m ^ d + a * m ^ (d - 1) * l) := by
  obtain ⟨e, rfl⟩ : ∃ e, d = e + 2 := ⟨d - 2, by omega⟩
  rw [show e + 2 - 1 = e + 1 by omega] at h ⊢
  obtain ⟨k, hk⟩ := Polynomial.powAddExpansion (((e + 2 : ℕ) : ℤ) * c * m) (a * l) (e + 2)
  rw [hk, show e + 2 - 1 = e + 1 by omega] at h
  have hdvd := (Int.modEq_iff_dvd.mp h)
  have hfactor : IsCoprime (l ^ 2) (((e + 2 : ℕ) : ℤ) ^ (e + 2) * c ^ (e + 1)) := by
    apply IsCoprime.pow_left
    exact (hcop.of_mul_right_left.pow_right).mul_right hcop.of_mul_right_right.pow_right
  refine hfactor.dvd_of_dvd_mul_left ?_
  have hsplit : ((e + 2 : ℕ) : ℤ) ^ (e + 2) * c ^ (e + 1)
        * (N - (c * m ^ (e + 2) + a * m ^ (e + 1) * l))
      = ((e + 2 : ℕ) : ℤ) ^ (e + 2) * c ^ (e + 1) * N
        - ((((e + 2 : ℕ) : ℤ) * c * m) ^ (e + 2)
          + ((e + 2 : ℕ) : ℤ) * (((e + 2 : ℕ) : ℤ) * c * m) ^ (e + 1) * (a * l)
          + k * (a * l) ^ 2) + l ^ 2 * (k * a ^ 2) := by ring
  rw [hsplit]
  exact dvd_add hdvd (dvd_mul_right _ _)

theorem dvd_of_sq_dvd {t l b : ℤ} (hl : l ≠ 0) (h : l ^ 2 ∣ t - b * l) :
    l ∣ t ∧ l ∣ t / l - b := by
  obtain ⟨z, hz⟩ := h
  have ht : t = l * (b + l * z) := by linear_combination hz
  refine ⟨⟨_, ht⟩, z, ?_⟩
  rw [ht, Int.mul_ediv_cancel_left _ hl, add_sub_cancel_left]

theorem isCoprime_of_approx {N m a l c : ℤ} {d : ℕ} (hd : 2 ≤ d) (hcop : IsCoprime l N)
    (h : l ^ 2 ∣ N - (c * m ^ d + a * m ^ (d - 1) * l)) : IsCoprime m l := by
  obtain ⟨e, rfl⟩ : ∃ e, d = e + 2 := ⟨d - 2, by omega⟩
  rw [show e + 2 - 1 = e + 1 by omega] at h
  obtain ⟨z, hz⟩ := h
  have hN : N = m * (c * m ^ (e + 1)) + l * (a * m ^ (e + 1) + l * z) := by
    linear_combination hz
  rw [hN] at hcop
  exact (hcop.of_add_mul_left_right.of_mul_right_left).symm

/-! ## A further coefficient -/

/-- A coefficient that is congruent to `t / y` makes the rest divisible, however it has been
split. -/
theorem dvd_sub_digit {t y l k a c : ℤ} (hk : l ∣ y * k - 1) (hc : l ∣ c - (k * t - a)) :
    l ∣ t - y * (a + c) := by
  obtain ⟨u, hu⟩ := hk
  obtain ⟨v, hv⟩ := hc
  exact ⟨-(u * t) - y * v, by linear_combination -t * hu - y * hv⟩

/-! ## The polynomial -/

/-- The homogeneous value of the polynomial with coefficients `f` of degree `d`. -/
def homogeneous (f : ℕ → ℤ) (d : ℕ) (m l : ℤ) : ℤ :=
  ∑ j ∈ range (d + 1), f j * m ^ j * l ^ (d - j)

theorem homogeneous_eq (f : ℕ → ℤ) (d : ℕ) (m l : ℤ) :
    homogeneous f d m l = f 0 * l ^ d + ∑ j ∈ Ioc 0 d, f j * m ^ j * l ^ (d - j) := by
  rw [homogeneous]
  have hsplit : ∀ n, ∑ j ∈ range (n + 1), f j * m ^ j * l ^ (d - j)
      = f 0 * l ^ d + ∑ j ∈ Ioc 0 n, f j * m ^ j * l ^ (d - j) := by
    intro n
    induction n with
    | zero => simp
    | succ n ih => rw [sum_range_succ, ih, sum_Ioc_succ_top (Nat.zero_le n), add_assoc]
  exact hsplit d

/-- A quotient `r` of `m` by `l` modulo the homogeneous value is a root. -/
theorem root_of_expansion {f : ℕ → ℤ} {d : ℕ} {m l r : ℤ}
    (hcop : IsCoprime l (homogeneous f d m l)) (hr : l * r ≡ m [ZMOD homogeneous f d m l]) :
    ∑ j ∈ range (d + 1), f j * r ^ j ≡ 0 [ZMOD homogeneous f d m l] := by
  set N := homogeneous f d m l
  have hscaled : l ^ d * ∑ j ∈ range (d + 1), f j * r ^ j ≡ N [ZMOD N] := by
    rw [mul_sum]
    refine (Int.ModEq.sum fun j hj => ?_).trans (Int.ModEq.refl N)
    have hle : j ≤ d := Nat.lt_succ_iff.mp (mem_range.mp hj)
    have hpow : l ^ d * (f j * r ^ j) = f j * (l * r) ^ j * l ^ (d - j) := by
      rw [mul_pow, ← Nat.sub_add_cancel hle, pow_add, Nat.add_sub_cancel]
      ring
    rw [hpow]
    exact ((hr.pow j).mul_left _).mul_right _
  have hdvd : N ∣ l ^ d * ∑ j ∈ range (d + 1), f j * r ^ j :=
    (Int.modEq_zero_iff_dvd.mp (hscaled.trans (Int.modEq_zero_iff_dvd.mpr dvd_rfl)))
  exact Int.modEq_zero_iff_dvd.mpr (hcop.pow_left.symm.dvd_of_dvd_mul_left hdvd)

theorem exists_quotient {l N : ℤ} (hcop : IsCoprime l N) (m : ℤ) : ∃ r, l * r ≡ m [ZMOD N] := by
  obtain ⟨u, v, huv⟩ := hcop
  refine ⟨u * m, Int.modEq_iff_dvd.mpr ⟨v * m, ?_⟩⟩
  linear_combination -m * huv

end RationalExpansion
