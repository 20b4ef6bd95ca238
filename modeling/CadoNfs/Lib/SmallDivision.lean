import CadoNfs.Lib.BitScan
import Mathlib.Algebra.BigOperators.Intervals

/-!
# Exact division of two words by a small constant

A two-word number is divided by a one-word constant that has an inverse modulo the word
base.  If the division is exact, the high quotient word is a truncating quotient and the
low one a product with the inverse; if the number is known only modulo the square of the
word base, both quotient words are products with the inverse.

Main results:

- Theorem `TwoWord.divide_exact`: the truncating division.
- Theorem `TwoWord.divide_modEq`: the division modulo the square of the word base.
- Theorem `dvd_add_mul_of_neg_inv`: the multiple of the modulus that makes a residue
  divisible.
- Theorem `mul_inverse_le_iff`: the product with the inverse tells whether a word is a
  multiple.
- Theorem `wordsValue_modEq`: a number from its words and the residues of the powers of
  the word base.
-/

namespace WordArith

open BitVec (ofNat toNat_mul toNat_ofNat toNat_udiv)

variable {w : ℕ}

/-! ## The quotient words -/

namespace TwoWord

theorem residue_eq (t : TwoWord w) (n : ℕ) :
    (t.hi.toNat % n * (2 ^ w % n) + t.lo.toNat % n) % n = t.value % n := by
  rw [value, ← Nat.add_mod_mod, Nat.mod_mod, Nat.add_mod, ← Nat.mul_mod, Nat.mod_mod,
    ← Nat.add_mod, add_comm, mul_comm t.hi.toNat]

theorem lo_mul_inverse {t : TwoWord w} {n c : BitVec w} (h : n * c = 1#w) {q : ℕ}
    (ht : t.value % 2 ^ w = n.toNat * q % 2 ^ w) : t.lo * c = ofNat w q := by
  have hlo : t.lo = n * ofNat w q := by
    apply BitVec.eq_of_toNat_eq
    rw [← value_mod, ht, toNat_mul, toNat_ofNat, Nat.mul_mod_mod]
  rw [hlo, BitVec.mul_assoc, BitVec.mul_comm _ c, ← BitVec.mul_assoc, h, BitVec.one_mul]

theorem divide_exact {t : TwoWord w} {n c : BitVec w} (h : n * c = 1#w) (hn : 0 < n.toNat)
    {q : ℕ} (ht : t.value = n.toNat * q) : (⟨t.lo * c, t.hi / n⟩ : TwoWord w).value = q := by
  have hhi : (t.hi / n).toNat = q / 2 ^ w := by
    rw [toNat_udiv, ← value_div, ht, Nat.div_div_eq_div_mul, mul_comm (2 ^ w),
      Nat.mul_div_mul_left _ _ hn]
  rw [value, hhi, lo_mul_inverse h (by rw [ht]), toNat_ofNat]
  exact Nat.mod_add_div q (2 ^ w)

/-- The quotient modulo the square of the word base: the part of the number that the low
quotient word accounts for is taken off, what is left in the high word is multiplied by the
inverse. -/
theorem divide_modEq (t : TwoWord w) {n c : BitVec w} (h : n * c = 1#w) :
    n.toNat * (⟨t.lo * c, (t.sub (mulWide (t.lo * c) n)).1.hi * c⟩ : TwoWord w).value
      ≡ t.value [MOD 2 ^ w * 2 ^ w] := by
  have hlow : (t.lo * c).toNat * n.toNat ≡ t.value [MOD 2 ^ w] := by
    have hprod : t.lo * c * n = t.lo := by
      rw [BitVec.mul_assoc, BitVec.mul_comm c, h, BitVec.mul_one]
    rw [Nat.ModEq, value_mod, ← toNat_mul, hprod]
  generalize t.lo * c = q₀ at hlow ⊢
  obtain hsub := sub_value t (mulWide q₀ n)
  rw [mulWide_value] at hsub
  generalize hs : (t.sub (mulWide q₀ n)).1 = s at hsub ⊢
  generalize (t.sub (mulWide q₀ n)).2.toNat = borrow at hsub
  -- the low word cancels
  have hlo : s.lo.toNat = 0 := by
    have hmod : s.value + q₀.toNat * n.toNat ≡ 0 + q₀.toNat * n.toNat [MOD 2 ^ w] := by
      rw [hsub, zero_add]
      rw [mul_assoc]
      exact (Nat.add_mul_mod_self_left _ _ _).trans hlow.symm
    rw [← value_mod]
    exact hmod.add_right_cancel'
  have hhigh : (s.hi * c).toNat * n.toNat ≡ s.hi.toNat [MOD 2 ^ w] := by
    have hprod : s.hi * c * n = s.hi := by
      rw [BitVec.mul_assoc, BitVec.mul_comm c, h, BitVec.mul_one]
    rw [Nat.ModEq, ← toNat_mul, hprod, Nat.mod_eq_of_lt s.hi.isLt]
  have hvalue : s.value = 2 ^ w * s.hi.toNat := by rw [value, hlo, zero_add]
  calc n.toNat * (q₀.toNat + 2 ^ w * (s.hi * c).toNat)
      = q₀.toNat * n.toNat + 2 ^ w * ((s.hi * c).toNat * n.toNat) := by ring
    _ ≡ q₀.toNat * n.toNat + 2 ^ w * s.hi.toNat [MOD 2 ^ w * 2 ^ w] :=
      (hhigh.mul_left' (2 ^ w)).add_left _
    _ = t.value + 2 ^ w * 2 ^ w * borrow := by rw [← hvalue, add_comm, hsub]
    _ ≡ t.value [MOD 2 ^ w * 2 ^ w] := Nat.add_mul_mod_self_left _ _ _

end TwoWord

/-! ## The multiple that is added -/

/-- With minus the inverse of the modulus, a multiple of the modulus makes the number
divisible. -/
theorem dvd_add_mul_of_neg_inv {n inv a m : ℕ} (h : (inv * (m % n) + 1) % n = 0) :
    n ∣ a + inv * (a % n) % n * m := by
  have hinv : inv * m + 1 ≡ 0 [MOD n] := by
    refine ((Nat.ModEq.mul_left inv (Nat.mod_modEq m n)).add_right 1).symm.trans ?_
    exact h.trans (Nat.zero_mod n).symm
  rw [← Nat.modEq_zero_iff_dvd]
  calc a + inv * (a % n) % n * m ≡ a + inv * a * m [MOD n] :=
        (((Nat.mod_modEq _ n).trans ((Nat.mod_modEq a n).mul_left inv)).mul_right m).add_left a
    _ = a * (inv * m + 1) := by ring
    _ ≡ a * 0 [MOD n] := hinv.mul_left a

theorem quotient_lt {n k a m q : ℕ} (hk : k < n) (ha : a < m) (h : a + k * m = n * q) :
    q < m := by
  have hle : (k + 1) * m ≤ n * m := Nat.mul_le_mul_right m hk
  have hlt : n * q < n * m := by
    rw [← h]
    linarith
  exact Nat.lt_of_mul_lt_mul_left hlt

/-! ## Divisibility -/

/-- The product with the inverse is small for the multiples only. -/
theorem mul_inverse_le_iff {p c : BitVec w} (h : c * p = 1#w) (hp : 0 < p.toNat)
    (x : BitVec w) : x * c ≤ BitVec.allOnes w / p ↔ p.toNat ∣ x.toNat := by
  have hback : x * c * p = x := by rw [BitVec.mul_assoc, h, BitVec.mul_one]
  rw [BitVec.le_def, toNat_udiv, BitVec.toNat_allOnes, Nat.le_div_iff_mul_le hp]
  constructor
  · intro hle
    have hlt : (x * c).toNat * p.toNat < 2 ^ w := by
      have := Nat.two_pow_pos w
      omega
    have hx : x.toNat = (x * c).toNat * p.toNat := by
      conv_lhs => rw [← hback, toNat_mul, Nat.mod_eq_of_lt hlt]
    exact ⟨(x * c).toNat, by rw [hx, mul_comm]⟩
  · rintro ⟨q, hq⟩
    have hlt : q < 2 ^ w := by
      refine lt_of_le_of_lt ?_ x.isLt
      rw [hq]
      exact Nat.le_mul_of_pos_left q hp
    have hquot : x * c = ofNat w q := by
      have hx : x = ofNat w q * p := by
        apply BitVec.eq_of_toNat_eq
        rw [toNat_mul, toNat_ofNat, Nat.mod_mul_mod, mul_comm q, ← hq, Nat.mod_eq_of_lt x.isLt]
      rw [hx, BitVec.mul_assoc, BitVec.mul_comm p, h, BitVec.mul_one]
    rw [hquot, toNat_ofNat, Nat.mod_eq_of_lt hlt, mul_comm, ← hq]
    have := x.isLt
    omega

theorem wordsValue_ofNat (N k : ℕ) :
    wordsValue (fun i => ofNat w (N / 2 ^ (w * i))) k = N % 2 ^ (w * k) := by
  induction k with
  | zero => simp [wordsValue, Nat.mod_one]
  | succ k ih =>
    rw [wordsValue, ih, toNat_ofNat, mul_add, mul_one, pow_add, Nat.mod_mul,
      mul_comm (_ % _) (2 ^ (w * k)), add_comm]

/-- The number that an array of words denotes, with residues of the powers of the word base. -/
theorem wordsValue_modEq (e : ℕ → BitVec w) {a : ℕ → ℕ} {p : ℕ} (k : ℕ)
    (ha : ∀ i < k, a i ≡ 2 ^ (w * i) [MOD p]) :
    ∑ i ∈ Finset.range k, (e i).toNat * a i ≡ wordsValue e k [MOD p] := by
  induction k with
  | zero => exact Nat.ModEq.refl 0
  | succ k ih =>
    rw [Finset.sum_range_succ, wordsValue, add_comm]
    exact ((ha k (by omega)).mul_left _).add (ih fun i hi => ha i (by omega))

end WordArith
