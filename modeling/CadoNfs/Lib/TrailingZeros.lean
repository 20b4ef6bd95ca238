import Mathlib.Tactic.Ring
import Mathlib.Tactic.Linarith

/-!
# Trailing zeros

How many times two divides a number: from a table for the low byte, or bit by bit.

Main results:

- Theorem `trailingZeros_byte`: what the table says about a number.
- Theorem `ctz_spec`: what is left after the division is odd.
-/

namespace CadoNfs

/-- The table `trailing_zeros`. -/
def trailingZeros : List ℕ :=
  [8,0,1,0,2,0,1,0,3,0,1,0,2,0,1,0,4,0,1,0,2,0,1,0,3,0,1,0,2,0,1,0,
   5,0,1,0,2,0,1,0,3,0,1,0,2,0,1,0,4,0,1,0,2,0,1,0,3,0,1,0,2,0,1,0,
   6,0,1,0,2,0,1,0,3,0,1,0,2,0,1,0,4,0,1,0,2,0,1,0,3,0,1,0,2,0,1,0,
   5,0,1,0,2,0,1,0,3,0,1,0,2,0,1,0,4,0,1,0,2,0,1,0,3,0,1,0,2,0,1,0,
   7,0,1,0,2,0,1,0,3,0,1,0,2,0,1,0,4,0,1,0,2,0,1,0,3,0,1,0,2,0,1,0,
   5,0,1,0,2,0,1,0,3,0,1,0,2,0,1,0,4,0,1,0,2,0,1,0,3,0,1,0,2,0,1,0,
   6,0,1,0,2,0,1,0,3,0,1,0,2,0,1,0,4,0,1,0,2,0,1,0,3,0,1,0,2,0,1,0,
   5,0,1,0,2,0,1,0,3,0,1,0,2,0,1,0,4,0,1,0,2,0,1,0,3,0,1,0,2,0,1,0]

/-- The table entry for the low byte of a word. -/
def lookupZeros {w : ℕ} (x : BitVec w) : ℕ :=
  trailingZeros.getD (x.toNat % 256) 0

/-- `ctzl` of a number that is not 0, looking at the given number of bits. -/
def ctz : ℕ → ℕ → ℕ
  | 0, _ => 0
  | bits + 1, a => if a % 2 = 1 then 0 else ctz bits (a / 2) + 1

theorem trailingZeros_spec : ∀ b < 256, (trailingZeros.getD b 0 = 8 ∧ b = 0) ∨
    (trailingZeros.getD b 0 < 8 ∧ b % 2 ^ (trailingZeros.getD b 0 + 1)
      = 2 ^ trailingZeros.getD b 0) := by
  decide +kernel

/-- The table entry of the low byte: eight zeros, or the exact number of zeros. -/
theorem trailingZeros_byte (n : ℕ) :
    (trailingZeros.getD (n % 256) 0 = 8 ∧ 2 ^ 8 ∣ n) ∨
      (trailingZeros.getD (n % 256) 0 < 8 ∧
        ∃ q, n = (2 * q + 1) * 2 ^ trailingZeros.getD (n % 256) 0) := by
  rcases trailingZeros_spec (n % 256) (Nat.mod_lt _ (by decide)) with ⟨htz, hzero⟩ | ⟨htz, hmod⟩
  · exact Or.inl ⟨htz, Nat.dvd_of_mod_eq_zero hzero⟩
  · set l := trailingZeros.getD (n % 256) 0
    have hmod' : n % 2 ^ (l + 1) = 2 ^ l := by
      have hbyte : 256 = 2 ^ (l + 1) * 2 ^ (8 - (l + 1)) := by
        rw [← pow_add, Nat.add_sub_cancel' (by omega)]
        rfl
      rw [← hmod, hbyte]
      exact (Nat.mod_mul_right_mod _ _ _).symm
    refine Or.inr ⟨htz, n / 2 ^ (l + 1), ?_⟩
    have hdiv := Nat.div_add_mod n (2 ^ (l + 1))
    rw [hmod', pow_succ] at hdiv
    rw [pow_succ]
    linarith

theorem ctz_spec {a bits : ℕ} (ha : 0 < a) (hbits : a < 2 ^ bits) :
    ∃ c, a = c * 2 ^ ctz bits a ∧ c % 2 = 1 := by
  induction bits generalizing a with
  | zero => omega
  | succ bits ih =>
    rw [ctz]
    split_ifs with hodd
    · exact ⟨a, by omega, hodd⟩
    · rw [pow_succ] at hbits
      obtain ⟨c, hc, hcodd⟩ := ih (a := a / 2) (by omega) (by omega)
      refine ⟨c, ?_, hcodd⟩
      rw [pow_succ, ← mul_assoc, ← hc]
      omega

theorem two_pow_eq_of_odd {a b i j : ℕ} (ha : a % 2 = 1) (hb : b % 2 = 1)
    (h : a * 2 ^ i = b * 2 ^ j) : i = j := by
  induction i generalizing j with
  | zero =>
    cases j with
    | zero => rfl
    | succ j =>
      rw [pow_zero, mul_one, pow_succ, ← mul_assoc] at h
      omega
  | succ i ih =>
    cases j with
    | zero =>
      rw [pow_zero, mul_one, pow_succ, ← mul_assoc] at h
      omega
    | succ j =>
      rw [ih (j := j)]
      rw [pow_succ, pow_succ, ← mul_assoc, ← mul_assoc] at h
      omega

end CadoNfs
