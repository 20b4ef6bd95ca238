import CadoNfs.Sieve.Qlattice
import Mathlib.Tactic.LinearCombination

/-!
# The range of the 32-bit reduction

`redc_u32` and `redc_32` of `las.c` reduce a 64-bit number by one word.  Their
comments allow every odd `p` below `2 ^ 32`, with a doubt about the upper half.  The
sum that is divided by `2 ^ 32` overflows for `p` above `2 ^ 31`, and the signed
variant takes a quotient for negative already from `2 ^ 31` on, which is reached for
`p` above `2 ^ 30`.

Main results:

- Theorem `redcU32_correct_iff`: the range of `redc_u32`.
- Theorem `redc32_correct_iff`: the range of `redc_32`.
- Theorem `redcs_correct_iff`: the range of both.
-/

namespace CadoNfs

variable {p invp : ℕ}

/-! ## The quotient modulo p -/

/-- The number `y` is `x` divided by `2 ^ 32` modulo `p`. -/
structure IsRedc (p : ℕ) (x : ℤ) (y : ℕ) : Prop where
  lt : y < p
  modEq : (y : ℤ) * 2 ^ 32 ≡ x [ZMOD p]

theorem isCoprime_two_pow (hodd : p % 2 = 1) (n : ℕ) : IsCoprime (p : ℤ) (2 ^ n) := by
  refine IsCoprime.pow_right (Int.isCoprime_iff_gcd_eq_one.mpr ?_)
  exact Nat.coprime_two_right.mpr (Nat.odd_iff.mpr hodd)

theorem IsRedc.unique (hodd : p % 2 = 1) {x : ℤ} {y y' : ℕ} (h : IsRedc p x y)
    (h' : IsRedc p x y') : y' = y := by
  have hdvd : (p : ℤ) ∣ (y - y') * 2 ^ 32 := by
    rw [sub_mul]
    exact Int.modEq_iff_dvd.mp (h'.modEq.trans h.modEq.symm)
  have hmod : (y' : ℤ) ≡ y [ZMOD p] :=
    Int.modEq_iff_dvd.mpr ((isCoprime_two_pow hodd 32).dvd_of_dvd_mul_right hdvd)
  have hmod : y' % p = y % p := by exact_mod_cast hmod
  rwa [Nat.mod_eq_of_lt h'.lt, Nat.mod_eq_of_lt h.lt] at hmod

/-- The result is the number that it should be, and the only one. -/
def ReturnsRedc (p : ℕ) (x : ℤ) (result : Option ℕ) : Prop :=
  ∃ y, result = some y ∧ IsRedc p x y ∧ ∀ y', IsRedc p x y' → y' = y

theorem ReturnsRedc.of_isRedc (hodd : p % 2 = 1) {x : ℤ} {y : ℕ} {result : Option ℕ}
    (hresult : result = some y) (h : IsRedc p x y) : ReturnsRedc p x result :=
  ⟨y, hresult, h, fun _ h' => h.unique hodd h'⟩

theorem not_dvd_two_pow (hodd : p % 2 = 1) (hone : 1 < p) (n : ℕ) : ¬(p : ℤ) ∣ 2 ^ n := by
  intro hdvd
  have hunit := (isCoprime_two_pow hodd n).isUnit_of_dvd' dvd_rfl hdvd
  rw [Int.isUnit_iff] at hunit
  omega

/-! ## A quotient that is too large -/

theorem greatest_multiplier (hinvp : 2 ^ 32 ∣ invp * p + 1) {n : ℕ} (hn : 32 ≤ n) :
    ((2 ^ n - (2 ^ 32 - 1) * p : ℤ) * invp) % 2 ^ 32 = 2 ^ 32 - 1 := by
  obtain ⟨c, hc⟩ := hinvp
  have hc : (invp : ℤ) * p + 1 = 2 ^ 32 * c := by exact_mod_cast hc
  have hpow : (2 : ℤ) ^ n = 2 ^ 32 * 2 ^ (n - 32) := by
    rw [← pow_add, Nat.add_sub_of_le hn]
  have hdecomp : (2 ^ n - (2 ^ 32 - 1) * p : ℤ) * invp
      = 2 ^ 32 - 1 + 2 ^ 32 * (2 ^ (n - 32) * invp - (2 ^ 32 - 1) * c) := by
    linear_combination (invp : ℤ) * hpow - (2 ^ 32 - 1) * hc
  rw [hdecomp, Int.add_mul_emod_self_left]
  rfl

section

variable (hodd : p % 2 = 1) (hp : p < 2 ^ 32) (hinvp : 2 ^ 32 ∣ invp * p + 1)
include hodd hp hinvp

/-- `redc_u32` is right for all its arguments if and only if `p` is below
`2 ^ 31`. -/
theorem redcU32_correct_iff :
    (∀ x : ℕ, x < 2 ^ 32 * p → ReturnsRedc p x (redcU32 x p invp)) ↔ p < 2 ^ 31 := by
  constructor
  · intro h
    by_contra hge
    -- the sum is 2 ^ 64, and its upper half is taken for zero
    have hle : (2 ^ 32 - 1) * p ≤ 2 ^ 64 := by omega
    have hcast : ((2 ^ 64 - (2 ^ 32 - 1) * p : ℕ) : ℤ) = 2 ^ 64 - (2 ^ 32 - 1) * p := by
      rw [Nat.cast_sub hle]
      push_cast
      rfl
    have ht : (2 ^ 64 - (2 ^ 32 - 1) * p) * invp % 2 ^ 32 = 2 ^ 32 - 1 := by
      have hgreatest := greatest_multiplier hinvp (n := 64) (by norm_num)
      rw [← hcast] at hgreatest
      have hlast : (2 ^ 32 - 1 : ℤ) = ((2 ^ 32 - 1 : ℕ) : ℤ) := rfl
      rw [hlast] at hgreatest
      exact_mod_cast hgreatest
    have hzero : redcU32 (2 ^ 64 - (2 ^ 32 - 1) * p) p invp = some 0 := by
      simp only [redcU32, ht, Nat.sub_add_cancel hle, Nat.mod_self, Nat.zero_div, ge_iff_le,
        Nat.le_zero_eq, show p ≠ 0 by omega, if_false, show 0 < p by omega, if_true]
    obtain ⟨y, hy, hredc, -⟩ := h (2 ^ 64 - (2 ^ 32 - 1) * p) (by omega)
    obtain rfl : 0 = y := Option.some_inj.mp (hzero.symm.trans hy)
    have hmod := Int.modEq_iff_dvd.mp hredc.modEq
    rw [hcast, Nat.cast_zero, zero_mul, sub_zero] at hmod
    exact not_dvd_two_pow hodd (by omega) 64 ((dvd_sub_left (Dvd.intro_left _ rfl)).mp hmod)
  · intro hlt x hx
    obtain ⟨y, hy, hrun, hmod⟩ := redcU32_spec (by omega) hlt hinvp hx
    exact .of_isRedc hodd hrun ⟨hy, hmod⟩

/-- `redc_32` is right for all its arguments if and only if `p` is below
`2 ^ 30`. -/
theorem redc32_correct_iff :
    (∀ x : ℤ, -2 ^ 63 ≤ x → x < 2 ^ 63 → |x| < 2 ^ 32 * p → ReturnsRedc p x (redc32 x p invp)) ↔
      p < 2 ^ 30 := by
  constructor
  · intro h
    by_contra hge
    -- the quotient is 2 ^ 31, and p is added to it
    set x : ℤ := 2 ^ 63 - (2 ^ 32 - 1) * p with hx
    have ht : (x * invp % 2 ^ 32).toNat = 2 ^ 32 - 1 := by
      rw [hx, greatest_multiplier hinvp (by norm_num)]
      rfl
    have hsum : ((x + ((2 ^ 32 - 1 : ℕ) : ℤ) * p) % 2 ^ 64).toNat / 2 ^ 32 = 2 ^ 31 := by
      have hexact : x + ((2 ^ 32 - 1 : ℕ) : ℤ) * p = 2 ^ 63 := by
        rw [hx]
        push_cast
        ring
      rw [hexact]
      rfl
    have hrun : redc32 x p invp = if (2 ^ 31 + p) % 2 ^ 32 < p then some ((2 ^ 31 + p) % 2 ^ 32)
        else none := by
      simp only [redc32, ht, hsum, ge_iff_le, le_refl, if_true]
    obtain ⟨y, hy, hredc, -⟩ := h x (by omega) (by omega) (abs_lt.mpr ⟨by omega, by omega⟩)
    rw [hrun] at hy
    split_ifs at hy with hsmall
    obtain rfl := Option.some_inj.mp hy
    have hval : (((2 ^ 31 + p) % 2 ^ 32 : ℕ) : ℤ) = p - 2 ^ 31 := by omega
    obtain ⟨c, hc⟩ := Int.modEq_iff_dvd.mp hredc.modEq
    rw [hval] at hc
    refine not_dvd_two_pow hodd (by omega) 64 ⟨c + (2 ^ 33 - 1), ?_⟩
    rw [hx] at hc
    linear_combination hc
  · intro hlt x _ _ hx
    obtain ⟨hlo, hhi⟩ := abs_lt.mp hx
    obtain ⟨y, hy, hrun, hmod⟩ := redc32_spec (by omega) hlt hinvp hlo hhi
    exact .of_isRedc hodd hrun ⟨hy, hmod⟩

/-- Both reductions are right for all their arguments if and only if `p` is below
`2 ^ 30`. -/
theorem redcs_correct_iff : ((∀ x : ℕ, x < 2 ^ 32 * p → ReturnsRedc p x (redcU32 x p invp)) ∧
      ∀ x : ℤ, -2 ^ 63 ≤ x → x < 2 ^ 63 → |x| < 2 ^ 32 * p →
        ReturnsRedc p x (redc32 x p invp)) ↔
      p < 2 ^ 30 := by
  rw [redcU32_correct_iff hodd hp hinvp, redc32_correct_iff hodd hp hinvp]
  omega

end

theorem redcs_correct_seven :
    ((∀ x : ℕ, x < 2 ^ 32 * 7 → ReturnsRedc 7 x (redcU32 x 7 1227133513)) ∧
      ∀ x : ℤ, -2 ^ 63 ≤ x → x < 2 ^ 63 → |x| < 2 ^ 32 * (7 : ℕ) →
        ReturnsRedc 7 x (redc32 x 7 1227133513)) ↔
      7 < 2 ^ 30 :=
  redcs_correct_iff (by decide) (by decide) (by decide)

/-- Primes for which the unsigned and the signed reduction are wrong. -/
theorem not_redcs_correct :
    (2 ^ 32 ∣ 3318838365 * 2147483659 + 1 ∧ 9223371991757619211 < 2 ^ 32 * 2147483659 ∧
      ¬ReturnsRedc 2147483659 9223371991757619211
        (redcU32 9223371991757619211 2147483659 3318838365)) ∧
    (2 ^ 32 ∣ 2505397589 * 1073741827 + 1 ∧ 4611686006616227843 < 2 ^ 32 * 1073741827 ∧
      ¬ReturnsRedc 1073741827 4611686006616227843
        (redc32 4611686006616227843 1073741827 2505397589)) := by
  refine ⟨⟨by decide, by decide, fun h => ?_⟩, by decide, by decide, fun h => ?_⟩
  · have hrun : redcU32 9223371991757619211 2147483659 3318838365 = some 0 := by decide
    obtain ⟨y, hy, hredc, -⟩ := h
    obtain rfl : 0 = y := Option.some_inj.mp (hrun.symm.trans hy)
    have hmod := hredc.modEq
    revert hmod
    decide
  · have hrun : redc32 4611686006616227843 1073741827 2505397589 = none := by decide
    obtain ⟨y, hy, -, -⟩ := h
    rw [hrun] at hy
    simp at hy

end CadoNfs
