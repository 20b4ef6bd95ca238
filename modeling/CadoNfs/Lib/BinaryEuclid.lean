import Mathlib.Data.Int.ModEq
import Mathlib.Data.Nat.Prime.Basic
import Mathlib.Tactic.Ring
import Mathlib.Tactic.Linarith

/-!
# The binary Euclidean algorithm

The binary algorithm divides by two and subtracts, and keeps two coefficients with the two
numbers.  Each division by two is made up for by a power of two.

Main results:

- Theorem `BinaryEuclid.subtract`: the smaller number is subtracted from the larger one.
- Theorem `BinaryEuclid.shift`: a power of two is divided out.
- Theorem `BinaryEuclid.coprime_iff`: what the last number says.
- Theorem `OddPair.reduce`: one subtraction and the division after it keep the pair odd,
  the coefficients bounded by the power of two and the product bounded.
-/

namespace CadoNfs

open Nat (Coprime cast_mul cast_ofNat succ_mul)

/-! ## Invariant -/

/-- `x * u` is `a` and `x * v` is `-b`, both times `2 ^ t`, modulo
`p`. -/
structure BinaryEuclid (p : ℕ) (x : ℤ) (a b u v t : ℕ) : Prop where
  total : a * v + b * u = p
  left : x * u ≡ a * 2 ^ t [ZMOD p]
  right : x * v ≡ -(b * 2 ^ t) [ZMOD p]
  gcd_eq : Nat.gcd a b = Int.gcd x p

namespace BinaryEuclid

variable {p a b u v t : ℕ} {x : ℤ}

theorem start (x p : ℕ) : BinaryEuclid p x x p 1 0 0 where
  total := by omega
  left := by simp
  right := by
    simp only [Nat.cast_zero, mul_zero, pow_zero, mul_one]
    exact (Int.modEq_iff_dvd.mpr (by simp))
  gcd_eq := rfl

section

variable (h : BinaryEuclid p x a b u v t)
include h

theorem swap : BinaryEuclid p (-x) b a v u t where
  total := by rw [← h.total, add_comm]
  left := by
    have hneg := h.right.neg
    rwa [neg_neg, ← neg_mul] at hneg
  right := by
    have hneg := h.left.neg
    rwa [← neg_mul] at hneg
  gcd_eq := by rw [Nat.gcd_comm, h.gcd_eq, Int.neg_gcd]

theorem subtract (hab : a ≤ b) : BinaryEuclid p x a (b - a) u (v + u) t where
  total := by
    obtain ⟨c, rfl⟩ := Nat.exists_eq_add_of_le hab
    have htotal := h.total
    rw [Nat.add_sub_cancel_left]
    linarith
  left := h.left
  right := by
    have hsum := h.right.add h.left
    rw [Nat.cast_add, Nat.cast_sub hab, mul_add]
    refine hsum.trans ?_
    rw [show -((b : ℤ) * 2 ^ t) + a * 2 ^ t = -(((b : ℤ) - a) * 2 ^ t) by ring]
  gcd_eq := by rw [Nat.gcd_sub_self_right hab, h.gcd_eq]

theorem divide : BinaryEuclid p x a (b % a) u (v + b / a * u) t := by
  have hrun : ∀ q, q * a ≤ b → BinaryEuclid p x a (b - q * a) u (v + q * u) t := by
    intro q
    induction q with
    | zero => intro _; simpa using h
    | succ q ih =>
      intro hq
      rw [succ_mul] at hq
      have hstep := (ih (by omega)).subtract (by omega)
      rwa [Nat.sub_sub, ← succ_mul, add_assoc, ← succ_mul] at hstep
  have hmod : b - b / a * a = b % a := by
    rw [mul_comm, Nat.mod_eq_sub]
  rw [← hmod]
  exact hrun (b / a) (Nat.div_mul_le_self b a)

end

theorem shift {l : ℕ} (h : BinaryEuclid p x a (b * 2 ^ l) u v t) (ha : a % 2 = 1) :
    BinaryEuclid p x a b (u * 2 ^ l) v (t + l) where
  total := by
    rw [← h.total]
    ring
  left := by
    have hmul := h.left.mul_right (2 ^ l)
    rw [cast_mul, Nat.cast_pow, cast_ofNat, pow_add, ← mul_assoc, ← mul_assoc]
    exact hmul
  right := by
    have hright := h.right
    rw [cast_mul, Nat.cast_pow, cast_ofNat] at hright
    refine hright.trans ?_
    rw [show (b : ℤ) * 2 ^ l * 2 ^ t = b * 2 ^ (t + l) by rw [pow_add]; ring]
  gcd_eq := by
    rw [← h.gcd_eq]
    have hodd : Coprime a (2 ^ l) :=
      Coprime.pow_right l (Nat.odd_iff.mpr ha).coprime_two_right
    exact (hodd.symm.gcd_mul_right_cancel_right b).symm

theorem left_le (h : BinaryEuclid p x a b u v t) (hb : 0 < b) : u ≤ p := by
  have htotal := h.total
  have hmul : u ≤ b * u := Nat.le_mul_of_pos_left u hb
  omega

theorem right_le (h : BinaryEuclid p x a b u v t) (ha : 0 < a) : v ≤ p := by
  have htotal := h.total
  have hmul : v ≤ a * v := Nat.le_mul_of_pos_left v ha
  omega

theorem coprime_iff (h : BinaryEuclid p x a a u v t) : a = 1 ↔ Int.gcd x p = 1 := by
  rw [← h.gcd_eq, Nat.gcd_self]

end BinaryEuclid

/-! ## Odd pairs -/

/-- Between two divisions both numbers are odd.  The power of two bounds the coefficients from
above, and is itself bounded by a number `n` through the product. -/
structure OddPair (p : ℕ) (x : ℤ) (n : ℕ) (a b u v t : ℕ) : Prop
    extends BinaryEuclid p x a b u v t where
  left_odd : a % 2 = 1
  right_odd : b % 2 = 1
  left_le_mod : a ≤ p
  right_le_mod : b ≤ p
  left_coeff : u ≤ 2 ^ t
  right_coeff : v ≤ 2 ^ t
  product : a * b * 2 ^ t ≤ n

namespace OddPair

variable {p n a b u v t l c : ℕ} {x : ℤ}

theorem start {y : ℕ} (hp : p % 2 = 1) (hy : y = c * 2 ^ l) (hodd : c % 2 = 1) (hlt : y < p) :
    OddPair p y (y * p) c p 1 0 l where
  toBinaryEuclid := by
    have hstart := (BinaryEuclid.start y p).swap
    nth_rewrite 2 [hy] at hstart
    have hshift := (hstart.shift hp).swap
    rwa [neg_neg, zero_mul, zero_add] at hshift
  left_odd := hodd
  right_odd := hp
  left_le_mod := by
    have hle : c ≤ c * 2 ^ l := Nat.le_mul_of_pos_right c (Nat.two_pow_pos l)
    omega
  right_le_mod := le_rfl
  left_coeff := Nat.one_le_two_pow
  right_coeff := Nat.zero_le _
  product := by
    rw [hy, mul_right_comm]

theorem swap (h : OddPair p x n a b u v t) : OddPair p (-x) n b a v u t where
  toBinaryEuclid := h.toBinaryEuclid.swap
  left_odd := h.right_odd
  right_odd := h.left_odd
  left_le_mod := h.right_le_mod
  right_le_mod := h.left_le_mod
  left_coeff := h.right_coeff
  right_coeff := h.left_coeff
  product := by
    rw [mul_comm b]
    exact h.product

section

variable (h : OddPair p x n a b u v t)
include h

theorem shift_pos (hab : a ≤ b) (hc : b - a = c * 2 ^ l) (hodd : c % 2 = 1) : 0 < l := by
  have ha := h.left_odd
  have hb := h.right_odd
  rcases Nat.eq_zero_or_pos l with rfl | hl
  · rw [pow_zero, mul_one] at hc
    omega
  · exact hl

theorem reduce (hab : a < b) (hc : b - a = c * 2 ^ l)
    (hodd : c % 2 = 1) : OddPair p x n a c (u * 2 ^ l) (v + u) (t + l) where
  toBinaryEuclid := by
    have hsub := h.toBinaryEuclid.subtract hab.le
    rw [hc] at hsub
    exact hsub.shift h.left_odd
  left_odd := h.left_odd
  right_odd := hodd
  left_le_mod := h.left_le_mod
  right_le_mod := by
    have hle : c ≤ c * 2 ^ l := Nat.le_mul_of_pos_right c (Nat.two_pow_pos l)
    have := h.right_le_mod
    omega
  left_coeff := by
    rw [pow_add]
    exact Nat.mul_le_mul_right _ h.left_coeff
  right_coeff := by
    have hpow : 2 ^ t * 2 ≤ 2 ^ (t + l) := by
      rw [← pow_succ]
      exact Nat.pow_le_pow_right two_pos (Nat.add_le_add_left (h.shift_pos hab.le hc hodd) t)
    have := h.left_coeff
    have := h.right_coeff
    omega
  product := by
    refine le_trans ?_ h.product
    calc a * c * 2 ^ (t + l) = a * (c * 2 ^ l) * 2 ^ t := by ring
      _ = a * (b - a) * 2 ^ t := by rw [hc]
      _ ≤ a * b * 2 ^ t :=
        Nat.mul_le_mul_right _ (Nat.mul_le_mul_left a (Nat.sub_le b a))

theorem add_le (hab : a < b) : v + u ≤ p := by
  have ha := h.left_odd
  exact (h.toBinaryEuclid.subtract hab.le).right_le (by omega)

theorem sub_mul_le (hab : a ≤ b) : (b - a) * u ≤ p := by
  have htotal := (h.toBinaryEuclid.subtract hab).total
  omega

theorem two_pow_le : 2 ^ t ≤ n := by
  have ha := h.left_odd
  have hb := h.right_odd
  have hpos : 0 < a * b := Nat.mul_pos (by omega) (by omega)
  exact (Nat.le_mul_of_pos_left _ hpos).trans h.product

end

theorem ne_zero_of_modEq (hp : p % 2 = 1) (hone : 1 < p) {y : ℤ} (h : y ≡ 2 ^ t [ZMOD p]) :
    ¬ (p : ℤ) ∣ y := by
  intro hdvd
  have hcop : Coprime p (2 ^ t) :=
    (Nat.coprime_two_right.mpr (Nat.odd_iff.mpr hp)).pow_right t
  have hdvd' : p ∣ 2 ^ t := by exact_mod_cast h.dvd_iff.mp hdvd
  have := hcop.eq_one_of_dvd hdvd'
  omega

theorem left_inverse (h : OddPair p x n 1 b u v t) (hp : p % 2 = 1) (hone : 1 < p) :
    Int.gcd x p = 1 ∧ u < p ∧ x * u ≡ 2 ^ t [ZMOD p] := by
  have hinv : x * u ≡ 2 ^ t [ZMOD p] := by simpa using h.left
  have hb := h.right_odd
  have hle := h.toBinaryEuclid.left_le (show 0 < b by omega)
  have hne : u ≠ p := by
    rintro rfl
    exact ne_zero_of_modEq hp hone hinv (Dvd.intro_left x rfl)
  exact ⟨by rw [← h.gcd_eq, Nat.gcd_one_left], by omega, hinv⟩

theorem right_inverse (h : OddPair p x n a 1 u v t) (hp : p % 2 = 1) (hone : 1 < p) :
    Int.gcd x p = 1 ∧ v < p ∧ 0 < v ∧ x * (p - v) ≡ 2 ^ t [ZMOD p] := by
  obtain ⟨hgcd, hlt, hinv⟩ := h.swap.left_inverse hp hone
  have hpos : v ≠ 0 := by
    rintro rfl
    exact ne_zero_of_modEq hp hone hinv (by simp)
  refine ⟨by rwa [Int.neg_gcd] at hgcd, hlt, by omega, Int.ModEq.trans ?_ hinv⟩
  exact Int.modEq_iff_dvd.mpr ⟨-x, by ring⟩

theorem not_coprime (h : OddPair p x n a a u v t) (ha : a ≠ 1) : Int.gcd x p ≠ 1 :=
  fun hgcd => ha (h.toBinaryEuclid.coprime_iff.mpr hgcd)

end OddPair

/-! ## Powers of two -/

theorem half_modEq {x c : ℤ} {p u : ℕ} (hp : p % 2 = 1) (h : x * u ≡ 2 * c [ZMOD p]) :
    x * ((u / 2 + if u % 2 = 1 then (p + 1) / 2 else 0 : ℕ) : ℤ) ≡ c [ZMOD p] := by
  have htwo : ((2 * (u / 2 + if u % 2 = 1 then (p + 1) / 2 else 0) : ℕ) : ℤ) ≡ u [ZMOD p] := by
    split_ifs with hu
    · rw [show 2 * (u / 2 + (p + 1) / 2) = u + p by omega, Nat.cast_add]
      exact Int.modEq_iff_dvd.mpr ⟨-1, by ring⟩
    · rw [show 2 * (u / 2 + 0) = u by omega]
  have hcop : Int.gcd p 2 = 1 := by
    have hodd : Coprime p 2 := (Nat.odd_iff.mpr hp).coprime_two_right
    exact_mod_cast hodd
  have hmul : 2 * (x * ((u / 2 + if u % 2 = 1 then (p + 1) / 2 else 0 : ℕ) : ℤ)) ≡ 2 * c
      [ZMOD p] := by
    rw [cast_mul, cast_ofNat] at htwo
    rw [mul_left_comm]
    exact (htwo.mul_left x).trans h
  rw [Int.modEq_iff_dvd, ← mul_sub] at hmul
  exact Int.modEq_iff_dvd.mpr (Int.dvd_of_dvd_mul_right_of_gcd_one hmul hcop)

theorem double_modEq {x c : ℤ} {p u : ℕ} (h : x * u ≡ c [ZMOD p]) :
    x * ((if p ≤ u * 2 then u * 2 - p else u * 2 : ℕ) : ℤ) ≡ 2 * c [ZMOD p] := by
  have htwo : ((if p ≤ u * 2 then u * 2 - p else u * 2 : ℕ) : ℤ) ≡ 2 * u [ZMOD p] := by
    split_ifs with hu
    · rw [Nat.cast_sub hu, cast_mul, cast_ofNat]
      exact Int.modEq_iff_dvd.mpr ⟨1, by ring⟩
    · rw [cast_mul, cast_ofNat, mul_comm]
  refine (htwo.mul_left x).trans ?_
  rw [mul_left_comm]
  exact h.mul_left 2

end CadoNfs
