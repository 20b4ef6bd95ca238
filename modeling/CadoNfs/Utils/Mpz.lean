import Mathlib.Algebra.Ring.Divisibility.Lemmas
import Mathlib.Data.Int.Lemmas
import Mathlib.Data.Nat.Prime.Basic
import Mathlib.RingTheory.Coprime.Basic
import Mathlib.Tactic.LinearCombination

/-!
# Functions on integers of arbitrary size

The functions of the multiprecision library that may fail, or that are defined on some of their
arguments only.

Main results:

- Theorem `mpzInvert_of_isCoprime`: an inverse is found if there is one.
- Theorem `mpzDivexact_mul`: an exact division.
-/

namespace CadoNfs

/-! ## Inverses -/

/-- `mpz_invert`. -/
def mpzInvert (a : ℤ) (m : ℕ) : Option ℕ :=
  (List.range m).find? fun v => (a * v - 1) % m = 0

section Invert

variable {a : ℤ} {m v : ℕ}

theorem dvd_of_mpzInvert (h : mpzInvert a m = some v) : (m : ℤ) ∣ a * v - 1 := by
  unfold mpzInvert at h
  have hfound := List.find?_some h
  exact Int.dvd_of_emod_eq_zero (of_decide_eq_true hfound)

theorem mpzInvert_of_isCoprime (hm : 0 < m) (h : IsCoprime a m) : ∃ v, mpzInvert a m = some v := by
  obtain ⟨u, w, huw⟩ := h
  rw [← Option.isSome_iff_exists, mpzInvert, List.find?_isSome]
  have hpos : 0 ≤ u % m := Int.emod_nonneg u (by omega)
  have hlt : u % m < m := Int.emod_lt_of_pos u (by omega)
  refine ⟨(u % m).toNat, List.mem_range.mpr (by omega), decide_eq_true ?_⟩
  rw [Int.toNat_of_nonneg hpos]
  refine Int.emod_eq_zero_of_dvd ⟨-w - a * (u / m), ?_⟩
  have := Int.emod_add_mul_ediv u m
  linear_combination a * this + huw

theorem mpzInvert_of_dvd {p : ℕ} (hp : p.Prime) (ha : (p : ℤ) ∣ a) (hm : p ∣ m) :
    mpzInvert a m = none := by
  rw [mpzInvert, List.find?_eq_none]
  intro v _ hv
  have hdvd := Int.dvd_of_emod_eq_zero (of_decide_eq_true hv)
  have hone : (p : ℤ) ∣ 1 := by
    have := dvd_sub (ha.mul_right (v : ℤ)) ((Int.natCast_dvd_natCast.mpr hm).trans hdvd)
    rwa [sub_sub_cancel] at this
  exact hp.one_lt.ne' (Nat.dvd_one.mp (by exact_mod_cast hone))

end Invert

/-! ## Exact division -/

/-- `mpz_divexact`, which is defined only if the division is exact. -/
def mpzDivexact (n d : ℤ) : Option ℤ :=
  if d ≠ 0 ∧ n % d = 0 then some (n / d) else none

theorem mpzDivexact_of_dvd {n d : ℤ} (hd : d ≠ 0) (h : d ∣ n) :
    mpzDivexact n d = some (n / d) :=
  if_pos ⟨hd, Int.emod_eq_zero_of_dvd h⟩

/-- The division of a multiple. -/
theorem mpzDivexact_mul {d : ℤ} (hd : d ≠ 0) (q : ℤ) : mpzDivexact (d * q) d = some q := by
  rw [mpzDivexact_of_dvd hd (dvd_mul_right d q), Int.mul_ediv_cancel_left _ hd]

end CadoNfs
