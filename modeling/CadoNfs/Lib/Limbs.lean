import CadoNfs.Lib.Gf2

/-!
# Arrays of limbs as bit strings

An array of 64-bit limbs, least significant first, is a string of bits.  Functions that
shift such a string are given by what they do to the bits.

Main results:

- Theorem `bitAt_store`: the bits of an array after limbs have been stored in it.
- Definition `Shifts.standard`: shifts limb by limb move the bits as they should.
-/

namespace LimbArray

open Gf2

/-- An array of limbs, from some address on. -/
abbrev Limbs := ℕ → BitVec 64

/-- The bit at a position of the string. -/
def bitAt (ws : Limbs) (P : ℕ) : ZMod 2 :=
  bit (ws (P / 64)) (P % 64)

variable (dst : Limbs)

/-- Limbs stored in an array from an address on. -/
def store (rp n : ℕ) (limbs : Limbs) : Limbs := fun y =>
  if rp ≤ y ∧ y < rp + n then limbs (y - rp) else dst y

/-- The array from an address on. -/
def from_ (src : Limbs) (sp : ℕ) : Limbs := fun i => src (sp + i)

theorem bitAt_from (src : Limbs) (sp P : ℕ) : bitAt (from_ src sp) P = bitAt src (64 * sp + P) := by
  rw [bitAt, bitAt, from_, Nat.mul_add_div (by decide), Nat.mul_add_mod]

theorem store_apply_of_le {rp n y : ℕ} (limbs : Limbs) (hle : rp ≤ y)
    (hlt : y < rp + n) : store dst rp n limbs y = limbs (y - rp) :=
  if_pos ⟨hle, hlt⟩

theorem store_apply_of_not {rp n y : ℕ} (limbs : Limbs)
    (hy : y < rp ∨ rp + n ≤ y) : store dst rp n limbs y = dst y :=
  if_neg (by omega)

/-- The bits after limbs have been stored. -/
theorem bitAt_store (rp n : ℕ) (limbs : Limbs) (P : ℕ) : bitAt (store dst rp n limbs) P
      = if 64 * rp ≤ P ∧ P < 64 * (rp + n) then bitAt limbs (P - 64 * rp) else bitAt dst P := by
  unfold bitAt
  split_ifs with hP
  · rw [store_apply_of_le dst limbs (by omega) (by omega)]
    rw [show (P - 64 * rp) / 64 = P / 64 - rp by omega, show (P - 64 * rp) % 64 = P % 64 by omega]
  · rw [store_apply_of_not dst limbs (by omega)]

/-- Functions that shift `n` limbs by less than a limb. -/
structure Shifts where
  lshift : Limbs → ℕ → ℕ → Limbs
  rshift : Limbs → ℕ → ℕ → Limbs
  bitAt_lshift : ∀ src n cnt P, 0 < cnt → cnt < 64 → P < 64 * n →
    bitAt (lshift src n cnt) P = if cnt ≤ P then bitAt src (P - cnt) else 0
  bitAt_rshift : ∀ src n cnt P, 0 < cnt → cnt < 64 → P < 64 * n →
    bitAt (rshift src n cnt) P = if P + cnt < 64 * n then bitAt src (P + cnt) else 0

theorem bit_or_of_right {a b : BitVec 64} {t : ℕ} (h : bit b t = 0) :
    bit (a ||| b) t = bit a t := by
  rw [bit, ofBool_eq_zero_iff] at h
  rw [bit, bit, BitVec.getLsbD_or, h, Bool.or_false]

theorem bit_or_of_left {a b : BitVec 64} {t : ℕ} (h : bit a t = 0) :
    bit (a ||| b) t = bit b t := by
  rw [BitVec.or_comm, bit_or_of_right h]

theorem bit_shiftLeft (a : BitVec 64) (k t : ℕ) (ht : t < 64) :
    bit (a <<< k) t = if k ≤ t then bit a (t - k) else 0 := by
  rw [bit, BitVec.getLsbD_shiftLeft]
  by_cases hk : k ≤ t
  · simp [hk, ht, bit, Nat.not_lt.mpr hk]
  · simp [hk, Nat.lt_of_not_le hk]

theorem bit_shiftRight (a : BitVec 64) (k t : ℕ) : bit (a >>> k) t = bit a (k + t) := by
  rw [bit, BitVec.getLsbD_ushiftRight, bit]

/-- The shifts limb by limb. -/
def Shifts.standard : Shifts where
  lshift src _ cnt := fun i =>
    (src i <<< cnt) ||| (if i = 0 then 0#64 else src (i - 1) >>> (64 - cnt))
  rshift src n cnt := fun i =>
    (src i >>> cnt) ||| (if i + 1 < n then src (i + 1) <<< (64 - cnt) else 0#64)
  bitAt_lshift := by
    intro src n cnt P hpos hlt _
    have ht : P % 64 < 64 := Nat.mod_lt _ (by decide)
    unfold bitAt
    by_cases hlow : cnt ≤ P % 64
    · rw [bit_or_of_right, bit_shiftLeft _ _ _ ht, if_pos hlow, if_pos (by omega)]
      · rw [show (P - cnt) / 64 = P / 64 by omega, show (P - cnt) % 64 = P % 64 - cnt by omega]
      · split_ifs with hfirst
        · exact bit_zero _
        · rw [bit_shiftRight, bit_of_le _ (by omega)]
    · rw [bit_or_of_left (by rw [bit_shiftLeft _ _ _ ht, if_neg hlow])]
      by_cases hfirst : P / 64 = 0
      · rw [if_pos hfirst, bit_zero, if_neg (by omega)]
      · rw [if_neg hfirst, bit_shiftRight, if_pos (by omega)]
        rw [show (P - cnt) / 64 = P / 64 - 1 by omega,
          show (P - cnt) % 64 = 64 - cnt + P % 64 by omega]
  bitAt_rshift := by
    intro src n cnt P hpos hlt hP
    have ht : P % 64 < 64 := Nat.mod_lt _ (by decide)
    unfold bitAt
    by_cases hlow : P % 64 + cnt < 64
    · rw [bit_or_of_right, bit_shiftRight, if_pos (by omega)]
      · rw [show (P + cnt) / 64 = P / 64 by omega, show (P + cnt) % 64 = cnt + P % 64 by omega]
      · split_ifs with hlast
        · rw [bit_shiftLeft _ _ _ ht, if_neg (by omega)]
        · exact bit_zero _
    · rw [bit_or_of_left (by rw [bit_shiftRight, bit_of_le _ (by omega)])]
      by_cases hlast : P / 64 + 1 < n
      · rw [if_pos hlast, bit_shiftLeft _ _ _ ht, if_pos (by omega), if_pos (by omega)]
        rw [show (P + cnt) / 64 = P / 64 + 1 by omega,
          show (P + cnt) % 64 = P % 64 - (64 - cnt) by omega]
      · rw [if_neg hlast, bit_zero, if_neg (by omega)]

end LimbArray
