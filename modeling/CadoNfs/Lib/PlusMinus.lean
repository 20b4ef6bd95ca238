import CadoNfs.Lib.TrailingZeros
import Mathlib.Data.Nat.Prime.Basic
import Mathlib.Algebra.Order.Ring.Abs

/-!
# The plus-minus algorithm

A greatest common divisor of odd integers without comparisons: the sum or the difference is a
multiple of four, and powers of two are divided out.  The integers may become negative; the sum
of their magnitudes falls.

Main results:

- Theorem `PlusMinus.combine_spec`: the sum or difference is a multiple of four and keeps
  the greatest common divisor.
- Theorem `PlusMinus.gcd_shift`: powers of two do not matter beside an odd number.
- Theorem `PlusMinus.magnitude_lt`: one round brings the magnitudes down.
- Theorems `PlusMinus.oddPart_spec`, `PlusMinus.oddPart_eq`: the odd part of a number.
- Theorem `PlusMinus.gcd_next`: the greatest common divisor of two consecutive numbers of the
  plus-minus sequence.
- Theorem `PlusMinus.gcd_two_pow_mul`: the powers of two that are divided out first.
-/

namespace PlusMinus

open Int (natAbs_mul natAbs_pow)

variable {a b c d : ℤ} {l : ℕ}

/-- The sum or the difference, by the second lowest bits. -/
def combine (a b : ℤ) : ℤ :=
  if a % 4 ≠ b % 4 then b + a else b - a

theorem four_dvd_combine (ha : a % 2 = 1) (hb : b % 2 = 1) : 4 ∣ combine a b := by
  rw [combine]
  split_ifs <;> omega

theorem abs_combine_le (a b : ℤ) : |combine a b| ≤ |a| + |b| := by
  rw [combine, add_comm |a|]
  split_ifs
  · exact abs_add_le b a
  · exact abs_sub b a

theorem gcd_combine (a b : ℤ) : Int.gcd a (combine a b) = Int.gcd a b := by
  rw [combine]
  split_ifs
  · exact Int.gcd_add_self_right a b
  · exact Int.gcd_sub_self_right a b

theorem gcd_shift (ha : a % 2 = 1) (hc : c = d * 2 ^ l) : Int.gcd a c = Int.gcd a d := by
  have hodd : Nat.Coprime a.natAbs (2 ^ l) := by
    refine Nat.Coprime.pow_right l (Nat.coprime_two_right.mpr (Nat.odd_iff.mpr ?_))
    omega
  rw [hc, Int.gcd_eq_natAbs_gcd_natAbs, Int.gcd_eq_natAbs_gcd_natAbs, natAbs_mul, natAbs_pow]
  exact hodd.symm.gcd_mul_right_cancel_right d.natAbs

theorem four_mul_abs_le (hd : d % 2 = 1) (hc : c = d * 2 ^ l) (hfour : 4 ∣ c) :
    4 * |d| ≤ |c| := by
  have hl : 2 ≤ l := by
    rcases l with _ | _ | l
    · rw [pow_zero] at hc
      omega
    · rw [zero_add, pow_one] at hc
      omega
    · omega
  rw [hc, abs_mul, abs_of_nonneg (show (0 : ℤ) ≤ 2 ^ l by positivity), mul_comm 4]
  have hpow : (2 : ℤ) ^ 2 ≤ 2 ^ l := pow_le_pow_right₀ (by norm_num) hl
  exact mul_le_mul_of_nonneg_left (by linarith) (abs_nonneg d)

theorem magnitude_lt {a' b' : ℤ} (hb : 0 < |b|) (ha' : 4 * |a'| ≤ |a| ∨ |a'| ≤ |a| ∧ |a| < |b|)
    (hb' : 4 * |b'| ≤ |a'| + |b|) : |a'| + 2 * |b'| < |a| + |b| := by
  rcases ha' with ha' | ⟨ha', hlt⟩
  · have := abs_nonneg a'
    linarith
  · linarith

/-! ## Odd parts -/

/-- What is left of a number when the powers of two are divided out; 0 for 0. -/
def oddPart (z : ℤ) : ℤ := z / 2 ^ CadoNfs.ctz z.natAbs z.natAbs

@[simp] theorem oddPart_zero : oddPart 0 = 0 := rfl

variable {z : ℤ}

theorem shift_ctz_spec (hz : z ≠ 0) {bits : ℕ} (hbits : z.natAbs < 2 ^ bits) :
    z = z / 2 ^ CadoNfs.ctz bits z.natAbs * 2 ^ CadoNfs.ctz bits z.natAbs ∧
      z / 2 ^ CadoNfs.ctz bits z.natAbs % 2 = 1 := by
  obtain ⟨c, hc, hodd⟩ := CadoNfs.ctz_spec (Int.natAbs_pos.mpr hz) hbits
  generalize CadoNfs.ctz bits z.natAbs = k at hc ⊢
  have hpow : (2 : ℤ) ^ k ≠ 0 := by positivity
  obtain ⟨q, rfl⟩ : (2 : ℤ) ^ k ∣ z :=
    Int.dvd_natAbs.mp ⟨c, by rw [hc, mul_comm]; push_cast; rfl⟩
  rw [Int.mul_ediv_cancel_left _ hpow]
  refine ⟨mul_comm _ _, ?_⟩
  have habs : q.natAbs = c := by
    rw [natAbs_mul, natAbs_pow, mul_comm] at hc
    exact Nat.eq_of_mul_eq_mul_right (by positivity) hc
  omega

theorem oddPart_spec (hz : z ≠ 0) : ∃ l, z = oddPart z * 2 ^ l ∧ oddPart z % 2 = 1 := by
  obtain ⟨hsplit, hodd⟩ := shift_ctz_spec hz Nat.lt_two_pow_self
  exact ⟨_, hsplit, hodd⟩

theorem oddPart_eq {z c : ℤ} {l : ℕ} (hz : z = c * 2 ^ l) (hc : c % 2 = 1) : oddPart z = c := by
  have hne : z ≠ 0 := by
    rw [hz]
    exact mul_ne_zero (by omega) (by positivity)
  obtain ⟨k, hk, hodd⟩ := oddPart_spec hne
  have habs : (oddPart z).natAbs * 2 ^ k = c.natAbs * 2 ^ l := by
    have heq := congrArg Int.natAbs (hk.symm.trans hz)
    rwa [natAbs_mul, natAbs_mul, natAbs_pow, natAbs_pow] at heq
  have hkl := CadoNfs.two_pow_eq_of_odd (by omega) (by omega) habs
  rw [hkl] at hk
  exact mul_right_cancel₀ (by positivity) (hk.symm.trans hz)

theorem oddPart_of_odd (hz : z % 2 = 1) : oddPart z = z :=
  oddPart_eq (l := 0) (by rw [pow_zero, mul_one]) hz

theorem oddPart_odd (hz : z ≠ 0) : oddPart z % 2 = 1 := by
  obtain ⟨_, _, hodd⟩ := oddPart_spec hz
  exact hodd

theorem abs_oddPart_le (z : ℤ) : |oddPart z| ≤ |z| := by
  rcases eq_or_ne z 0 with rfl | hz
  · exact le_rfl
  · obtain ⟨l, hl, -⟩ := oddPart_spec hz
    conv_rhs => rw [hl]
    rw [abs_mul, abs_of_nonneg (show (0 : ℤ) ≤ 2 ^ l by positivity)]
    have hpow : (1 : ℤ) ≤ 2 ^ l := one_le_pow₀ (by norm_num)
    nlinarith [abs_nonneg (oddPart z)]

theorem four_mul_abs_oddPart_le (hz : 4 ∣ z) : 4 * |oddPart z| ≤ |z| := by
  rcases eq_or_ne z 0 with rfl | hne
  · exact le_rfl
  · obtain ⟨l, hl, hodd⟩ := oddPart_spec hne
    exact four_mul_abs_le hodd hl hz

theorem gcd_oddPart {a : ℤ} (ha : a % 2 = 1) (z : ℤ) : Int.gcd a (oddPart z) = Int.gcd a z := by
  rcases eq_or_ne z 0 with rfl | hz
  · rfl
  · obtain ⟨l, hl, -⟩ := oddPart_spec hz
    exact (gcd_shift ha hl).symm

theorem gcd_two_pow_mul {a b : ℤ} (ha : a % 2 = 1) (hb : b % 2 = 1) (s t : ℕ) :
    Int.gcd (a * 2 ^ s) (b * 2 ^ t) = Int.gcd a b * 2 ^ min s t := by
  rcases Nat.le_total s t with hst | hst
  · obtain ⟨r, rfl⟩ := Nat.exists_eq_add_of_le hst
    rw [Nat.min_eq_left hst, pow_add, mul_comm (2 ^ s), ← mul_assoc, Int.gcd_mul_right,
      gcd_shift ha rfl, natAbs_pow]
    rfl
  · obtain ⟨r, rfl⟩ := Nat.exists_eq_add_of_le hst
    rw [Nat.min_eq_right hst, pow_add, mul_comm (2 ^ t), ← mul_assoc, Int.gcd_mul_right,
      Int.gcd_comm, gcd_shift hb rfl, Int.gcd_comm, natAbs_pow]
    rfl

/-! ## The plus-minus sequence -/

/-- The number that follows two odd numbers. -/
def next (a b : ℤ) : ℤ := oddPart (combine b a)

/-- The sequence of odd parts that starts with `a` and `b`. -/
def sequence : ℤ → ℤ → ℕ → ℤ
  | a, _, 0 => a
  | a, b, n + 1 => sequence b (next a b) n

/-- The first zero of the sequence has the index `n`. -/
structure FirstZero (a b : ℤ) (n : ℕ) : Prop where
  zero : sequence a b n = 0
  ne_zero : ∀ m < n, sequence a b m ≠ 0

section

variable {a b : ℤ}

theorem FirstZero.unique {m n : ℕ} (hm : FirstZero a b m) (hn : FirstZero a b n) : m = n := by
  rcases Nat.lt_trichotomy m n with h | h | h
  · exact absurd hm.zero (hn.ne_zero m h)
  · exact h
  · exact absurd hn.zero (hm.ne_zero n h)

theorem FirstZero.cons {n : ℕ} (ha : a ≠ 0) (h : FirstZero b (next a b) n) :
    FirstZero a b (n + 1) where
  zero := h.zero
  ne_zero m hm := by
    cases m with
    | zero => exact ha
    | succ m => exact h.ne_zero m (by omega)

theorem firstZero_one (ha : a ≠ 0) (hb : b = 0) : FirstZero a b 1 where
  zero := hb
  ne_zero m hm := by
    obtain rfl : m = 0 := by omega
    exact ha

theorem gcd_next (hb : b % 2 = 1) : Int.gcd b (next a b) = Int.gcd a b := by
  rw [next, gcd_oddPart hb, gcd_combine, Int.gcd_comm]

theorem four_mul_abs_next_le (ha : a % 2 = 1) (hb : b % 2 = 1) : 4 * |next a b| ≤ |a| + |b| := by
  have hfour := four_mul_abs_oddPart_le (four_dvd_combine hb ha)
  have hle := abs_combine_le b a
  rw [next]
  linarith

theorem next_odd (h : combine b a ≠ 0) : next a b % 2 = 1 :=
  oddPart_odd h

end

end PlusMinus
