import Mathlib.Data.Nat.Log
import Mathlib.Tactic.Linarith
import Mathlib.Tactic.Ring

/-!
# The square root of an integer in double precision

An integer is converted to a double with 53 bits, and the square root of the double is
rounded to 53 bits again; both go to the nearest double.  The integral part of the result
can be one more than that of the exact root, and it is never less.

Main results:

- Theorem `le_floorSqrt`: the integral part is at least the exact one.
- Theorem `floorSqrt_le`: a bound for integers of 64 bits.
-/

namespace DoubleSqrt

open Nat (le_log2 log2_lt sqrt sub_le two_pow_pos)

/-- The double that is nearest to an integer, the even one of two. -/
def ofNat (n : ℕ) : ℕ :=
  let s := n.log2 - 52
  let q := n / 2 ^ s
  let r := n % 2 ^ s
  (if 2 ^ s < 2 * r ∨ 2 * r = 2 ^ s ∧ q % 2 = 1 then q + 1 else q) * 2 ^ s

/-- The integral part of the double that is nearest to the square root. -/
def floorSqrt (x : ℕ) : ℕ :=
  let t := 52 - x.log2 / 2
  (sqrt (4 * x * 4 ^ t) + 1) / 2 / 2 ^ t

variable {n m s : ℕ}

theorem two_mul_le_ofNat (hs : n.log2 - 52 = s) : 2 * n ≤ 2 * ofNat n + 2 ^ s := by
  have hdiv := Nat.div_add_mod n (2 ^ s)
  rw [mul_comm] at hdiv
  simp only [ofNat, hs]
  split_ifs with hround
  · have := Nat.mod_lt n (two_pow_pos s)
    rw [add_mul]
    omega
  · omega

theorem pow_le_ofNat (hn : 2 ^ 52 ≤ n) (hs : n.log2 - 52 = s) : 2 ^ (52 + s) ≤ ofNat n := by
  have hlog : 52 ≤ n.log2 := (le_log2 (by omega)).mpr hn
  have hself : 2 ^ (52 + s) ≤ n := by
    rw [← hs, Nat.add_sub_cancel' hlog]
    exact Nat.log2_self_le (by omega)
  have hq : 2 ^ 52 ≤ n / 2 ^ s := by
    rwa [Nat.le_div_iff_mul_le (two_pow_pos s), ← pow_add]
  simp only [ofNat, hs]
  rw [pow_add]
  refine Nat.mul_le_mul_right _ ?_
  split_ifs <;> omega

theorem ofNat_le (hn : n < 2 ^ 64) : ofNat n ≤ 2 ^ 64 := by
  obtain ⟨s, hs⟩ : ∃ s, n.log2 - 52 = s := ⟨_, rfl⟩
  have hs11 : s ≤ 12 := by
    by_cases hzero : n = 0
    · subst hzero
      simp at hs
      omega
    · have := (log2_lt hzero).mpr hn
      omega
  have hq : n / 2 ^ s < 2 ^ (64 - s) := by
    rw [Nat.div_lt_iff_lt_mul (two_pow_pos s), ← pow_add]
    rwa [show 64 - s + s = 64 by omega]
  calc ofNat n ≤ 2 ^ (64 - s) * 2 ^ s := by
        simp only [ofNat, hs]
        refine Nat.mul_le_mul_right _ ?_
        split_ifs <;> omega
    _ = 2 ^ 64 := by rw [← pow_add, show 64 - s + s = 64 by omega]

theorem ofNat_eq (hn : n < 2 ^ 53) : ofNat n = n := by
  have hs : n.log2 - 52 = 0 := by
    by_cases hzero : n = 0
    · subst hzero
      rfl
    · have := (log2_lt hzero).mpr hn
      omega
  simp [ofNat, hs, Nat.mod_one]

theorem le_floorSqrt_of_sq {x t : ℕ} (ht : 52 - x.log2 / 2 = t)
    (h : (2 * (m * 2 ^ t) - 1) * (2 * (m * 2 ^ t) - 1) ≤ 4 * x * 4 ^ t) : m ≤ floorSqrt x := by
  have hsqrt := Nat.le_sqrt.mpr h
  simp only [floorSqrt, ht]
  rw [Nat.le_div_iff_mul_le (two_pow_pos t), Nat.le_div_iff_mul_le two_pos]
  omega

theorem four_pow (t : ℕ) : 4 ^ t = 2 ^ t * 2 ^ t := by
  rw [← mul_pow]
  rfl

theorem lt_two_mul_of_sq_le {B P : ℕ} (hsq : B * B ≤ 2 * P) (hlarge : B * 2 ^ 25 ≤ P)
    (hB : 2 ≤ B) (hP : P ≤ n) (hn : n < (m + 1) * (m + 1)) : B < 2 * m := by
  by_contra hnot
  have hm : (2 * m + 2) * (2 * m + 2) ≤ (B + 2) * (B + 2) :=
    Nat.mul_le_mul (by omega) (by omega)
  have hfour : 4 * P < (2 * m + 2) * (2 * m + 2) := by
    calc 4 * P < 4 * ((m + 1) * (m + 1)) := by omega
      _ = (2 * m + 2) * (2 * m + 2) := by ring
  have hexpand : (B + 2) * (B + 2) = B * B + 4 * B + 4 := by ring
  omega

/-- Rounding does not lose a unit of the root. -/
theorem le_floorSqrt_of_large (hn : 2 ^ 53 ≤ n) (hlt : n < 2 ^ 64) :
    sqrt n ≤ floorSqrt (ofNat n) := by
  obtain ⟨s, hs⟩ : ∃ s, n.log2 - 52 = s := ⟨_, rfl⟩
  obtain ⟨x, hx⟩ : ∃ x, ofNat n = x := ⟨_, rfl⟩
  obtain ⟨t, ht⟩ : ∃ t, 52 - x.log2 / 2 = t := ⟨_, rfl⟩
  obtain ⟨m, hm⟩ : ∃ m, sqrt n = m := ⟨_, rfl⟩
  have herror : 2 * n ≤ 2 * x + 2 ^ s := hx ▸ two_mul_le_ofNat hs
  have hxpow : 2 ^ (52 + s) ≤ x := hx ▸ pow_le_ofNat (by omega) hs
  have hs1 : 1 ≤ s := by
    have := (le_log2 (by omega)).mpr hn
    omega
  have hs11 : s ≤ 11 := by
    have := (log2_lt (by omega)).mpr hlt
    omega
  have hxlog : 52 + s ≤ x.log2 :=
    (le_log2 (by have := two_pow_pos (52 + s); omega)).mpr hxpow
  have hnpow : 2 ^ (52 + s) ≤ n := by
    have hlog : n.log2 = 52 + s := by omega
    rw [← hlog]
    exact Nat.log2_self_le (by omega)
  have hmm : m * m ≤ n := hm ▸ Nat.sqrt_le n
  have hmn : n < (m + 1) * (m + 1) := hm ▸ Nat.lt_succ_sqrt n
  -- the error of the conversion is less than what the rounding of the root allows
  have hsmall : 2 ^ t * 2 ^ s < 2 * m := by
    refine lt_two_mul_of_sq_le (P := 2 ^ (52 + s)) ?_ ?_ ?_ hnpow hmn
    · rw [← pow_add, ← pow_add, ← pow_succ']
      exact Nat.pow_le_pow_right two_pos (by omega)
    · rw [← pow_add, ← pow_add]
      exact Nat.pow_le_pow_right two_pos (by omega)
    · rw [← pow_add]
      exact Nat.pow_le_pow_right two_pos (show 1 ≤ t + s by omega)
  rw [hx, hm]
  refine le_floorSqrt_of_sq ht ?_
  obtain ⟨M, hM⟩ : ∃ M, m * 2 ^ t = M := ⟨_, rfl⟩
  have hpos := two_pow_pos t
  have hM1 : 1 ≤ M := by
    rw [← hM]
    exact Nat.mul_pos (by omega) hpos
  have hMsq : M * M ≤ n * 4 ^ t := by
    calc M * M = m * m * 4 ^ t := by rw [← hM, four_pow]; ring
      _ ≤ n * 4 ^ t := Nat.mul_le_mul_right _ hmm
  have hbudget : 2 ^ s * 4 ^ t + 1 ≤ 2 * M := by
    have hstep := Nat.mul_le_mul_left (2 ^ t) (show 2 ^ t * 2 ^ s + 1 ≤ 2 * m from hsmall)
    have hleft : 2 ^ t * (2 ^ t * 2 ^ s + 1) = 2 ^ s * 4 ^ t + 2 ^ t := by rw [four_pow]; ring
    have hright : 2 ^ t * (2 * m) = 2 * M := by rw [← hM]; ring
    omega
  have hscaled := Nat.mul_le_mul_right (4 ^ t) herror
  rw [hM]
  obtain ⟨N, rfl⟩ := Nat.exists_eq_add_of_le' hM1
  have hleft : (2 * (N + 1) - 1) * (2 * (N + 1) - 1)
      = 4 * ((N + 1) * (N + 1)) - 4 * (N + 1) + 1 := by
    rw [show 2 * (N + 1) - 1 = 2 * N + 1 by omega,
      show 4 * ((N + 1) * (N + 1)) = 4 * (N * N) + 4 * N + 4 * (N + 1) by ring, Nat.add_sub_cancel]
    ring
  rw [add_mul, mul_assoc 2 n, mul_assoc 2 x] at hscaled
  rw [hleft, mul_assoc 4 x]
  have hself := Nat.le_mul_self (N + 1)
  omega

/-- The integral part is not below the exact one. -/
theorem le_floorSqrt (hlt : n < 2 ^ 64) : sqrt n ≤ floorSqrt (ofNat n) := by
  by_cases hn : n < 2 ^ 53
  · rw [ofNat_eq hn]
    refine le_floorSqrt_of_sq rfl ?_
    obtain ⟨t, ht⟩ : ∃ t, 52 - n.log2 / 2 = t := ⟨_, rfl⟩
    rw [ht]
    calc (2 * (sqrt n * 2 ^ t) - 1) * (2 * (sqrt n * 2 ^ t) - 1)
        ≤ 2 * (sqrt n * 2 ^ t) * (2 * (sqrt n * 2 ^ t)) :=
          Nat.mul_le_mul (sub_le _ _) (sub_le _ _)
      _ = 4 * (sqrt n * sqrt n) * 4 ^ t := by rw [four_pow]; ring
      _ ≤ 4 * n * 4 ^ t :=
          Nat.mul_le_mul_right _ (Nat.mul_le_mul_left _ (Nat.sqrt_le n))
  · exact le_floorSqrt_of_large (not_lt.mp hn) hlt

theorem floorSqrt_le_of_le_sq {x b : ℕ} (h : x ≤ b * b) : floorSqrt x ≤ b := by
  obtain ⟨t, ht⟩ : ∃ t, 52 - x.log2 / 2 = t := ⟨_, rfl⟩
  have hroot : sqrt (4 * x * 4 ^ t) ≤ 2 * b * 2 ^ t := by
    rw [← Nat.sqrt_eq (2 * b * 2 ^ t)]
    refine Nat.sqrt_le_sqrt ?_
    calc 4 * x * 4 ^ t ≤ 4 * (b * b) * 4 ^ t :=
          Nat.mul_le_mul_right _ (Nat.mul_le_mul_left _ h)
      _ = 2 * b * 2 ^ t * (2 * b * 2 ^ t) := by rw [four_pow]; ring
  simp only [floorSqrt, ht]
  rw [mul_assoc 2 b] at hroot
  refine Nat.div_le_of_le_mul ?_
  rw [mul_comm (2 ^ t)]
  omega

/-- The root of an integer of 64 bits. -/
theorem floorSqrt_le (hlt : n < 2 ^ 64) : floorSqrt (ofNat n) ≤ 2 ^ 32 :=
  floorSqrt_le_of_le_sq ((ofNat_le hlt).trans (by norm_num))

end DoubleSqrt
