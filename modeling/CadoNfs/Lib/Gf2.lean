import Mathlib.Algebra.BigOperators.Intervals
import Mathlib.Algebra.Field.ZMod
import Mathlib.Data.BitVec
import CadoNfs.Lib.ForRange

/-!
# Bits as elements of GF(2)

A bit of a machine word as an element of the field with two elements: exclusive or is
the sum and conjunction is the product.

Main results:

- Theorem `bit_forRange_xor`: words added up in a loop, bit by bit.
- Theorem `and_one_shift_ne_zero_iff`: the test of a bit with a mask.
-/

namespace Gf2

open ForRange Finset

variable {w : ℕ} (b : Bool)

/-- A Boolean as an element of GF(2). -/
def ofBool : ZMod 2 :=
  if b then 1 else 0

@[simp]
theorem ofBool_false : ofBool false = 0 :=
  rfl

@[simp]
theorem ofBool_true : ofBool true = 1 :=
  rfl

@[simp]
theorem ofBool_xor (a b : Bool) : ofBool (a ^^ b) = ofBool a + ofBool b := by
  cases a <;> cases b <;> decide

@[simp]
theorem ofBool_eq_one_iff : ofBool b = 1 ↔ b = true := by
  cases b <;> decide

@[simp]
theorem ofBool_eq_zero_iff : ofBool b = 0 ↔ b = false := by
  cases b <;> decide

theorem eq_zero_or_one (z : ZMod 2) : z = 0 ∨ z = 1 := by
  revert z
  decide

@[simp]
theorem add_self (z : ZMod 2) : z + z = 0 := by
  revert z
  decide

variable (v : BitVec w) (t : ℕ)

/-- The bit of a word at a position. -/
def bit : ZMod 2 :=
  ofBool (v.getLsbD t)

@[simp]
theorem bit_zero : bit (0#w) t = 0 := by
  simp [bit]

@[simp]
theorem bit_xor (a b : BitVec w) (t : ℕ) : bit (a ^^^ b) t = bit a t + bit b t := by
  simp [bit]

theorem bit_of_le {t : ℕ} (h : w ≤ t) : bit v t = 0 := by
  rw [bit, BitVec.getLsbD_of_ge v t h, ofBool_false]

theorem eq_of_bit_eq {a b : BitVec w} (h : ∀ t < w, bit a t = bit b t) : a = b := by
  refine BitVec.eq_of_getLsbD_eq fun t ht => ?_
  have hbit := h t ht
  unfold bit at hbit
  cases ha : a.getLsbD t <;> cases hb : b.getLsbD t <;> simp_all

/-- Words added up in a loop. -/
theorem bit_forRange_xor (n : ℕ) (g : ℕ → BitVec w) (v : BitVec w) (t : ℕ) :
    bit (forRange n (fun k v => v ^^^ g k) v) t = bit v t + ∑ k ∈ range n, bit (g k) t := by
  induction n with
  | zero => simp
  | succ n ih => rw [forRange_succ, bit_xor, ih, sum_range_succ, add_assoc]

theorem bit_one_shift {t : ℕ} (ht : t < w) (u : ℕ) :
    bit (1#w <<< t) u = if u = t then 1 else 0 := by
  have hshift : 1#w <<< t = BitVec.twoPow w t := by rw [BitVec.twoPow_eq]
  rw [bit, hshift, BitVec.getLsbD_twoPow]
  by_cases hu : u = t
  · simp [hu, ht]
  · simp [hu, Ne.symm hu]

theorem bit_or_one_shift {t : ℕ} (ht : t < w) (u : ℕ) :
    bit (v ||| 1#w <<< t) u = if u = t then 1 else bit v u := by
  have hone := bit_one_shift ht u
  unfold bit at hone ⊢
  rw [BitVec.getLsbD_or]
  by_cases hu : u = t
  · rw [if_pos hu, ofBool_eq_one_iff] at hone
    rw [hone, Bool.or_true, if_pos hu, ofBool_true]
  · rw [if_neg hu, ofBool_eq_zero_iff] at hone
    rw [hone, Bool.or_false, if_neg hu]

/-- The test of one bit of a word. -/
theorem and_one_shift_ne_zero_iff {t : ℕ} (ht : t < w) : v &&& 1#w <<< t ≠ 0#w ↔ bit v t = 1 := by
  have hone := bit_one_shift ht
  unfold bit at hone ⊢
  rw [ofBool_eq_one_iff]
  constructor
  · intro hne
    by_contra hbit
    refine hne (BitVec.eq_of_getLsbD_eq fun u _ => ?_)
    rw [BitVec.getLsbD_and, BitVec.getLsbD_zero]
    by_cases hu : u = t
    · rw [hu, Bool.eq_false_of_not_eq_true hbit, Bool.false_and]
    · have hzero := hone u
      rw [if_neg hu, ofBool_eq_zero_iff] at hzero
      rw [hzero, Bool.and_false]
  · intro hbit hzero
    have hand := congrArg (fun x => x.getLsbD t) hzero
    have hself := hone t
    rw [if_pos rfl, ofBool_eq_one_iff] at hself
    simp only [BitVec.getLsbD_and, hbit, hself, BitVec.getLsbD_zero] at hand
    exact absurd hand (by decide)

theorem one_shift_eq_zero_iff : 1#w <<< t = 0#w ↔ w ≤ t := by
  rw [← BitVec.twoPow_eq]
  constructor
  · intro h
    by_contra hlt
    have hbit := congrArg (fun x => x.getLsbD t) h
    simp [show t < w by omega] at hbit
  · intro h
    refine BitVec.eq_of_getLsbD_eq fun u hu => ?_
    simp [BitVec.getLsbD_twoPow, show t ≠ u by omega]

/-! ## Flat bit matrices -/

/-- The bit of a flat array of words at a row and a column. -/
def flatBit (stride : ℕ) (p : ℕ → BitVec w) (r x : ℕ) : ZMod 2 :=
  bit (p (stride * r + x / w)) (x % w)

/-- The bit of an array of words. -/
def arrayBit (p : ℕ → BitVec w) (x : ℕ) : ZMod 2 :=
  bit (p (x / w)) (x % w)

theorem mod_eq_mod_iff {x c : ℕ} (hdiv : x / w = c / w) : x % w = c % w ↔ x = c := by
  constructor
  · intro hmod
    rw [← Nat.div_add_mod x w, hdiv, hmod, Nat.div_add_mod]
  · rintro rfl
    rfl

theorem arrayBit_setBit (hw : 0 < w) (p : ℕ → BitVec w) (c x : ℕ) :
    arrayBit (Function.update p (c / w) (p (c / w) ||| 1#w <<< (c % w))) x
      = if x = c then 1 else arrayBit p x := by
  unfold arrayBit
  by_cases hdiv : x / w = c / w
  · rw [hdiv, Function.update_self, bit_or_one_shift _ (Nat.mod_lt c hw)]
    exact if_congr (mod_eq_mod_iff hdiv) rfl rfl
  · rw [Function.update_of_ne hdiv, if_neg (mt (congrArg (· / w)) hdiv)]

theorem next_column (hw : 0 < w) (c : ℕ) :
    (if (1#w <<< (c % w)) <<< 1 = 0#w then (c / w + 1, 1#w)
      else (c / w, (1#w <<< (c % w)) <<< 1)) = ((c + 1) / w, 1#w <<< ((c + 1) % w)) := by
  have hlt := Nat.mod_lt c hw
  have hsplit := Nat.div_add_mod c w
  rw [← BitVec.shiftLeft_add]
  by_cases hlast : c % w + 1 = w
  · have hnext : c + 1 = w * (c / w + 1) := by rw [Nat.mul_succ]; omega
    rw [if_pos ((one_shift_eq_zero_iff _).mpr hlast.ge), hnext, Nat.mul_div_cancel_left _ hw,
      Nat.mul_mod_right, BitVec.shiftLeft_zero]
  · have hnext : c + 1 = w * (c / w) + (c % w + 1) := by omega
    rw [if_neg (mt (one_shift_eq_zero_iff _).mp (by omega))]
    conv_rhs => rw [hnext, Nat.mul_add_div hw, Nat.mul_add_mod,
      Nat.div_eq_of_lt (show c % w + 1 < w by omega),
      Nat.mod_eq_of_lt (show c % w + 1 < w by omega), add_zero]

theorem div_lt_stride {stride x : ℕ} (hx : x < stride * w) : x / w < stride :=
  Nat.div_lt_of_lt_mul (mul_comm stride w ▸ hx)

end Gf2
