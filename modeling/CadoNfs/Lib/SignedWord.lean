import CadoNfs.Lib.Word
import Mathlib.Data.Int.ModEq
import Mathlib.Algebra.Order.Ring.Abs

/-!
# Two words as a signed number

Two's complement over two words: the high word is read as signed.

Main results:

- Theorem `TwoWord.toInt_eq_of_modEq`: a number in range that is congruent to the unsigned
  reading is the signed reading.
- Theorems `TwoWord.add_toInt` and `TwoWord.sub_toInt`: sums and differences in range
  are exact.
-/

namespace WordArith

variable {w : ℕ}

namespace TwoWord

/-- The signed number that the two words denote. -/
def toInt (t : TwoWord w) : ℤ :=
  t.lo.toNat + 2 ^ w * t.hi.toInt

theorem toInt_modEq (t : TwoWord w) : t.toInt ≡ t.value [ZMOD 2 ^ w * 2 ^ w] := by
  have hhi : ∃ k : ℤ, t.hi.toInt = t.hi.toNat - 2 ^ w * k := by
    rw [BitVec.toInt_eq_toNat_cond]
    split_ifs
    · exact ⟨0, by ring⟩
    · exact ⟨1, by push_cast; ring⟩
  obtain ⟨k, hk⟩ := hhi
  refine Int.modEq_iff_dvd.mpr ⟨k, ?_⟩
  rw [toInt, value, hk]
  push_cast
  ring

theorem toInt_bounds (t : TwoWord w) :
    -(2 ^ w * 2 ^ w) ≤ 2 * t.toInt ∧ 2 * t.toInt < 2 ^ w * 2 ^ w := by
  have hlo : (t.lo.toNat : ℤ) < 2 ^ w := by exact_mod_cast t.lo.isLt
  have hlow : -2 ^ w ≤ 2 * t.hi.toInt := BitVec.le_two_mul_toInt
  have hhigh : 2 * t.hi.toInt < 2 ^ w := BitVec.two_mul_toInt_lt
  have hpos : (0 : ℤ) < 2 ^ w := by positivity
  rw [toInt]
  constructor
  · have hmul := mul_le_mul_of_nonneg_left hlow hpos.le
    linarith [Int.natCast_nonneg t.lo.toNat]
  · rcases Nat.eq_zero_or_pos w with rfl | hw
    · rw [BitVec.eq_nil t.lo, BitVec.eq_nil t.hi]
      decide
    · -- the base is even, so that twice the high word leaves room for the low one
      have hroom : 2 * t.hi.toInt + 2 ≤ 2 ^ w := by
        have heven : (2 : ℤ) ^ w = 2 * 2 ^ (w - 1) := by
          rw [← pow_succ']
          congr 1
          omega
        omega
      have hmul := mul_le_mul_of_nonneg_left hroom hpos.le
      linarith

variable {t : TwoWord w}

theorem toInt_eq_of_modEq {x : ℤ} (h : x ≡ t.value [ZMOD 2 ^ w * 2 ^ w])
    (hlow : -(2 ^ w * 2 ^ w) ≤ 2 * x) (hhigh : 2 * x < 2 ^ w * 2 ^ w) : t.toInt = x := by
  obtain ⟨hl, hh⟩ := toInt_bounds t
  have hdvd := Int.modEq_iff_dvd.mp (h.trans t.toInt_modEq.symm)
  have hzero : t.toInt - x = 0 := by
    refine Int.eq_zero_of_abs_lt_dvd hdvd ?_
    rw [abs_lt]
    constructor <;> linarith
  linarith

theorem toInt_eq_value (h : 2 * t.value < 2 ^ w * 2 ^ w) : t.toInt = t.value := by
  have h' : (2 * t.value : ℤ) < 2 ^ w * 2 ^ w := by exact_mod_cast h
  refine toInt_eq_of_modEq rfl ?_ h'
  have : (0 : ℤ) ≤ 2 ^ w * 2 ^ w := by positivity
  linarith [Int.natCast_nonneg t.value]

theorem value_eq_toInt (h : 0 ≤ t.toInt) : (t.value : ℤ) = t.toInt := by
  have hlt : (t.value : ℤ) < 2 ^ w * 2 ^ w := by exact_mod_cast t.value_lt
  have hbound := (toInt_bounds t).2
  have hmod : t.toInt % (2 ^ w * 2 ^ w) = t.value % (2 ^ w * 2 ^ w) := t.toInt_modEq
  rwa [Int.emod_eq_of_lt h (by linarith), Int.emod_eq_of_lt (Int.natCast_nonneg _) hlt,
    eq_comm] at hmod

theorem toInt_eq_zero_iff : t.toInt = 0 ↔ t.lo = 0#w ∧ t.hi = 0#w := by
  constructor
  · intro h
    have hvalue := value_eq_toInt h.ge
    rw [h] at hvalue
    have ht : t = ⟨0#w, 0#w⟩ := value_injective (by
      rw [show t.value = 0 by exact_mod_cast hvalue]
      simp [value])
    rw [ht]
    exact ⟨rfl, rfl⟩
  · rintro ⟨hlo, hhi⟩
    simp [toInt, hlo, hhi]

theorem toInt_neg_iff (t : TwoWord w) : t.toInt < 0 ↔ t.hi.toInt < 0 := by
  have hlo : (t.lo.toNat : ℤ) < 2 ^ w := by exact_mod_cast t.lo.isLt
  have hpos : (0 : ℤ) < 2 ^ w := by positivity
  have hnn := Int.natCast_nonneg t.lo.toNat
  rw [toInt]
  constructor
  · intro h
    by_contra hneg
    have := mul_nonneg hpos.le (not_lt.mp hneg)
    linarith
  · intro h
    have := mul_le_mul_of_nonneg_left (show t.hi.toInt ≤ -1 by omega) hpos.le
    linarith

theorem add_toInt {r a : TwoWord w} (hlow : -(2 ^ w * 2 ^ w) ≤ 2 * (r.toInt + a.toInt))
    (hhigh : 2 * (r.toInt + a.toInt) < 2 ^ w * 2 ^ w) :
    (r.add a).1.toInt = r.toInt + a.toInt := by
  refine toInt_eq_of_modEq ?_ hlow hhigh
  refine (r.toInt_modEq.add a.toInt_modEq).trans (Int.modEq_iff_dvd.mpr ⟨-(r.add a).2.toNat, ?_⟩)
  have hvalue : ((r.add a).1.value + 2 ^ w * 2 ^ w * (r.add a).2.toNat : ℤ)
      = r.value + a.value := by exact_mod_cast add_value r a
  linarith

theorem sub_toInt {r a : TwoWord w} (hlow : -(2 ^ w * 2 ^ w) ≤ 2 * (r.toInt - a.toInt))
    (hhigh : 2 * (r.toInt - a.toInt) < 2 ^ w * 2 ^ w) :
    (r.sub a).1.toInt = r.toInt - a.toInt := by
  refine toInt_eq_of_modEq ?_ hlow hhigh
  refine (r.toInt_modEq.sub a.toInt_modEq).trans (Int.modEq_iff_dvd.mpr ⟨(r.sub a).2.toNat, ?_⟩)
  have hvalue : ((r.sub a).1.value + a.value : ℤ)
      = r.value + 2 ^ w * 2 ^ w * (r.sub a).2.toNat := by exact_mod_cast sub_value r a
  linarith

end TwoWord

end WordArith
