import Mathlib.NumberTheory.LegendreSymbol.QuadraticReciprocity

/-!
# Strong probable primes

The power of two in the order of a number modulo a prime: a power of the number is squared until
it is minus one.  The number of squarings need not be the exponent of two in the order of the
group.

Main results:

- Theorem `pow_two_pow_eq_one_iff`: repeated squaring reaches one by way of minus one.
- Theorem `strongTest_iff`: what the test says modulo a prime.
- Theorems `strongTest_prime`, `strongTest_two`: a prime passes for every base, and for
  the base 2 with one squaring less if 2 is a square.
- Theorem `forall_pow_modEq_one_iff`: the exponents that take every number to one.
-/

namespace StrongProbablePrime

/-! ## Square roots of one -/

/-- An element whose `2 ^ n`-th power is one is one itself, or one of its repeated squares
is minus one. -/
theorem pow_two_pow_eq_one_iff {R : Type*} [CommRing R] [IsDomain R] (y : R) (n : ℕ) :
    y ^ 2 ^ n = 1 ↔ y = 1 ∨ ∃ j < n, y ^ 2 ^ j = -1 := by
  induction n with
  | zero => simp
  | succ n ih =>
    rw [pow_succ, pow_mul, sq, mul_self_eq_one_iff, ih]
    constructor
    · rintro ((h | ⟨j, hj, h⟩) | h)
      · exact Or.inl h
      · exact Or.inr ⟨j, by omega, h⟩
      · exact Or.inr ⟨n, by omega, h⟩
    · rintro (h | ⟨j, hj, h⟩)
      · exact Or.inl (Or.inl h)
      · rcases Nat.lt_succ_iff_lt_or_eq.mp hj with hlt | rfl
        · exact Or.inl (Or.inr ⟨j, hlt, h⟩)
        · exact Or.inr h

/-! ## The test modulo a prime -/

section Prime

variable {p : ℕ}

/-- The test with an exponent `k` and `n` squarings, where `k * 2 ^ n` falls short
of `p - 1` by `s`: the prime passes exactly for the bases whose power `s` is one. -/
theorem strongTest_iff (hp : p.Prime) {x k n s : ℕ} (hx : ¬p ∣ x) (h : k * 2 ^ n + s = p - 1) :
    (x ^ k ≡ 1 [MOD p] ∨ ∃ j < n, (x ^ k) ^ 2 ^ j ≡ p - 1 [MOD p]) ↔ x ^ s ≡ 1 [MOD p] := by
  have : Fact p.Prime := ⟨hp⟩
  have hminus : ((p - 1 : ℕ) : ZMod p) = -1 := by
    rw [Nat.cast_sub hp.one_lt.le, Nat.cast_one, ZMod.natCast_self, zero_sub]
  simp only [← ZMod.natCast_eq_natCast_iff, Nat.cast_pow, Nat.cast_one, hminus]
  rw [← pow_two_pow_eq_one_iff, ← pow_mul]
  have hne : (x : ZMod p) ≠ 0 := fun hzero => hx ((ZMod.natCast_eq_zero_iff x p).mp hzero)
  have hfermat : (x : ZMod p) ^ (k * 2 ^ n) * (x : ZMod p) ^ s = 1 := by
    rw [← pow_add, h]
    exact ZMod.pow_card_sub_one_eq_one hne
  constructor <;> intro hone <;> rw [hone] at hfermat
  · rwa [one_mul] at hfermat
  · rwa [mul_one] at hfermat

/-- An exponent takes every number that the prime does not divide to one exactly if it is a
multiple of the order of the group. -/
theorem forall_pow_modEq_one_iff (hp : p.Prime) (s : ℕ) :
    (∀ x, ¬p ∣ x → x ^ s ≡ 1 [MOD p]) ↔ p - 1 ∣ s := by
  have : Fact p.Prime := ⟨hp⟩
  rw [← ZMod.card p, ← FiniteField.forall_pow_eq_one_iff (ZMod p), ZMod.card]
  constructor
  · intro h u
    have hval := h (u : ZMod p).val fun hdvd => u.ne_zero (by
      rw [← ZMod.natCast_zmod_val (u : ZMod p)]
      exact (ZMod.natCast_eq_zero_iff _ p).mpr hdvd)
    rw [← ZMod.natCast_eq_natCast_iff, Nat.cast_pow, ZMod.natCast_zmod_val, Nat.cast_one] at hval
    exact Units.ext (by rw [Units.val_pow_eq_pow_val, hval, Units.val_one])
  · intro h x hx
    have hne : (x : ZMod p) ≠ 0 := fun hzero => hx ((ZMod.natCast_eq_zero_iff x p).mp hzero)
    have hunit := congrArg Units.val (h (Units.mk0 (x : ZMod p) hne))
    rw [Units.val_pow_eq_pow_val, Units.val_mk0, Units.val_one] at hunit
    rw [← ZMod.natCast_eq_natCast_iff, Nat.cast_pow, hunit, Nat.cast_one]

/-- A prime passes for every base that is not zero. -/
theorem strongTest_prime [Fact p.Prime] {x : ZMod p} (hx : x ≠ 0) {k n : ℕ}
    (h : k * 2 ^ n = p - 1) : x ^ k = 1 ∨ ∃ j < n, (x ^ k) ^ 2 ^ j = -1 := by
  rw [← pow_two_pow_eq_one_iff, ← pow_mul, h]
  exact ZMod.pow_card_sub_one_eq_one hx

/-- If two is a square modulo the prime, then the prime passes for the base 2 with one squaring
less. -/
theorem strongTest_two [Fact p.Prime] (hmod : p % 8 = 1 ∨ p % 8 = 7) {k n : ℕ}
    (h : k * 2 ^ (n + 1) = p - 1) :
    (2 : ZMod p) ^ k = 1 ∨ ∃ j < n, ((2 : ZMod p) ^ k) ^ 2 ^ j = -1 := by
  have hne : (2 : ZMod p) ≠ 0 := by
    intro hzero
    have hdvd : p ∣ 2 := (ZMod.natCast_eq_zero_iff 2 p).mp (by exact_mod_cast hzero)
    have hle := Nat.le_of_dvd (by omega) hdvd
    have htwo := (Fact.out : p.Prime).two_le
    omega
  have hsquare := (ZMod.exists_sq_eq_two_iff (p := p) (by omega)).mpr hmod
  have hhalf : p / 2 = k * 2 ^ n := by
    rw [pow_succ, ← mul_assoc] at h
    omega
  rw [← pow_two_pow_eq_one_iff, ← pow_mul, ← hhalf]
  exact (ZMod.euler_criterion p hne).mp hsquare

end Prime

end StrongProbablePrime
