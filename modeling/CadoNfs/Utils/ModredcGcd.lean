import CadoNfs.Lib.PlusMinus
import CadoNfs.Lib.SignedWord
import CadoNfs.Utils.ModredcArith

/-!
# Greatest common divisors with a two-word modulus

`mod_gcd` of `modredc_2ul_common.c`: the plus-minus algorithm on signed two-word
numbers.

Main results:

- Theorem `gcdShiftOut_spec`: the arithmetic shifts leave an odd number.
- Theorem `gcdCombine_spec`: the sum or difference by the second lowest bits.
- Theorem `modGcdLoop_spec`: the loop ends with the greatest common divisor.
- Theorem `modGcd_spec`: the result for every residue.
-/

namespace CadoNfs

open WordArith PlusMinus
open TwoWord (toInt toInt_eq_value value)

variable {w : ℕ}

/-! ## Definitions -/

section Definitions

variable (build : UlarithBuild)

/-- A double-word shift and an arithmetic shift of the high word. -/
def gcdShift (a : TwoWord w) (sh : ℕ) : TwoWord w :=
  ⟨ularithShrd build a.lo a.hi sh, a.hi.sshiftRight sh⟩

/-- The loop of `mod_gcd` over the low bytes. -/
def gcdShiftOutLoop : ℕ → TwoWord w → Outcome (TwoWord w)
  | 0, _ => .abort
  | fuel + 1, a =>
    let sh := lookupZeros a.lo
    let a := gcdShift build a sh
    if sh = 8 then gcdShiftOutLoop fuel a else pure a

/-- "Make a odd" of `mod_gcd`, with the table (`LOOKUP_TRAILING_ZEROS`) or without. -/
def gcdShiftOut (lookup : Bool) (a : TwoWord w) : Outcome (TwoWord w) :=
  if lookup then gcdShiftOutLoop build (2 * w + 1) a
  else
    let a : TwoWord w :=
      if a.lo = 0#w then ⟨a.hi, if a.hi.toInt < 0 then BitVec.allOnes w else 0#w⟩ else a
    pure (gcdShift build a (ularithCtz build a.lo))

/-- `ularith_add_2ul_2ul` on signed numbers; a sum out of range is on record. -/
def tracedSignedAdd (r a : TwoWord w) : Outcome (TwoWord w) :=
  .dropCarry (ularithAdd2ul2ul build r a,
    decide (2 ^ w * 2 ^ w ≤ 2 * |r.toInt + a.toInt|))

/-- `ularith_sub_2ul_2ul` on signed numbers; a difference out of range is on record. -/
def tracedSignedSub (r a : TwoWord w) : Outcome (TwoWord w) :=
  .dropCarry (ularithSub2ul2ul build r a,
    decide (2 ^ w * 2 ^ w ≤ 2 * |r.toInt - a.toInt|))

/-- The sum or the difference, so that the low two bits of `b` become zero. -/
def gcdCombine (a b : TwoWord w) : Outcome (TwoWord w) :=
  if (a.lo ^^^ b.lo) &&& 2#w ≠ 0#w then tracedSignedAdd build b a else tracedSignedSub build b a

/-- The negation of a negative number before it is returned. -/
def gcdAbs (a : TwoWord w) : TwoWord w :=
  if a.hi.toInt < 0 then ⟨-a.lo, if a.lo ≠ 0#w then -a.hi - 1#w else -a.hi⟩ else a

/-- The loop of `mod_gcd`. -/
def modGcdLoop (lookup : Bool) : ℕ → TwoWord w → TwoWord w → Outcome (TwoWord w)
  | 0, _, _ => .abort
  | fuel + 1, a, b =>
    if a.hi ≠ 0#w ∨ a.lo ≠ 0#w then do
      let a ← gcdShiftOut build lookup a
      let b ← gcdCombine build a b
      if b.lo = 0#w ∧ b.hi = 0#w then pure (gcdAbs a)
      else do
        let b ← gcdShiftOut build lookup b
        let a ← gcdCombine build b a
        modGcdLoop lookup fuel a b
    else pure (gcdAbs b)

/-- `mod_gcd`. -/
def modGcd (lookup : Bool) (A : TwoWord w) (m : Modulusredc w) : Outcome (TwoWord w) :=
  if A.lo = 0#w ∧ A.hi = 0#w then pure m.m
  else modGcdLoop build lookup (A.value + m.m.value + 1) A m.m

end Definitions

/-! ## Shifts -/

section Shifts

variable {a b : TwoWord w} {c : ℤ} {l : ℕ} (build : UlarithBuild)

theorem gcdShift_toInt (hl : l < w) (ha : a.toInt = c * 2 ^ l) :
    (gcdShift build a l).toInt = c := by
  have hpow : (2 : ℤ) ^ w = 2 ^ (w - l) * 2 ^ l := by
    rw [← pow_add]
    congr 1
    omega
  have hposw : (0 : ℤ) < 2 ^ w := by positivity
  have hposl : (0 : ℤ) < 2 ^ l := by positivity
  -- both words of the quotient, from the signed number
  have hlo : ((ularithShrd build a.lo a.hi l).toNat : ℤ) = c % 2 ^ w := by
    obtain ⟨k, hk⟩ := Int.modEq_iff_dvd.mp a.toInt_modEq
    have hvalue : (a.value : ℤ) = (c + 2 ^ w * (2 ^ (w - l) * k)) * 2 ^ l := by
      rw [show (a.value : ℤ) = a.toInt + 2 ^ w * 2 ^ w * k by linarith, ha]
      nth_rewrite 2 [hpow]
      ring
    have hnat : (ularithShrd build a.lo a.hi l).toNat = a.value / 2 ^ l % 2 ^ w := by
      rw [← ularithShrd_value build a hl, TwoWord.value_mod]
    rw [hnat]
    push_cast
    rw [hvalue, Int.mul_ediv_cancel _ hposl.ne', Int.add_mul_emod_self_left]
  have hhi : (a.hi.sshiftRight l).toInt = c / 2 ^ w := by
    have hlow : (a.lo.toNat : ℤ) < 2 ^ w := by exact_mod_cast a.lo.isLt
    have hdiv : a.toInt / 2 ^ w = a.hi.toInt := by
      rw [toInt, Int.add_mul_ediv_left _ _ hposw.ne',
        Int.ediv_eq_zero_of_lt (Int.natCast_nonneg _) hlow, zero_add]
    rw [BitVec.toInt_sshiftRight, Int.shiftRight_eq_div_pow, ← hdiv, ha]
    push_cast
    rw [Int.ediv_ediv_of_nonneg hposw.le, mul_comm ((2 : ℤ) ^ w),
      ← Int.ediv_ediv_of_nonneg hposl.le, Int.mul_ediv_cancel _ hposl.ne']
  rw [gcdShift, toInt, hlo, hhi]
  exact Int.emod_add_mul_ediv c (2 ^ w)

theorem toInt_eq_of_lo {k : ℕ} (hl : l < w) (hlo : a.lo.toNat = k * 2 ^ l) (hk : k % 2 = 1) :
    ∃ c, a.toInt = c * 2 ^ l ∧ c % 2 = 1 := by
  have hpow : (2 : ℤ) ^ w = 2 * 2 ^ (w - l - 1) * 2 ^ l := by
    rw [← pow_succ', ← pow_add]
    congr 1
    omega
  refine ⟨k + 2 * (2 ^ (w - l - 1) * a.hi.toInt), ?_, by omega⟩
  rw [toInt, hlo, hpow]
  push_cast
  ring

theorem abs_le_of_shift {c d : ℤ} (h : c = d * 2 ^ l) : |d| ≤ |c| := by
  rw [h, abs_mul, abs_of_nonneg (show (0 : ℤ) ≤ 2 ^ l by positivity)]
  exact le_mul_of_one_le_right (abs_nonneg d) (one_le_pow₀ (by norm_num))

/-- The loop takes out all factors of two. -/
theorem gcdShiftOutLoop_spec (hw : 8 < w) {fuel : ℕ} (hne : a.toInt ≠ 0)
    (hfuel : |a.toInt| < 2 ^ (8 * fuel)) :
    ∃ d l, gcdShiftOutLoop build fuel a = pure d ∧ a.toInt = d.toInt * 2 ^ l ∧
      d.toInt % 2 = 1 := by
  induction fuel generalizing a with
  | zero =>
    have := abs_pos.mpr hne
    simp only [mul_zero, pow_zero] at hfuel
    omega
  | succ fuel ih =>
    rcases trailingZeros_byte a.lo.toNat with ⟨htz, k, hk⟩ | ⟨htz, q, hq⟩
    · -- a whole byte of zeros
      obtain ⟨c, hc⟩ : ∃ c, a.toInt = c * 2 ^ 8 := by
        refine ⟨k + 2 ^ (w - 8) * a.hi.toInt, ?_⟩
        have hpow : (2 : ℤ) ^ w = 2 ^ (w - 8) * 2 ^ 8 := by
          rw [← pow_add]
          congr 1
          omega
        rw [toInt, hk, hpow]
        push_cast
        ring
      have hval := gcdShift_toInt build hw hc
      obtain ⟨d, l, hrest, hd, hodd⟩ := ih (a := gcdShift build a 8) (by
          rw [hval]
          rintro rfl
          exact hne (by rw [hc, zero_mul])) (by
          rw [hval]
          rw [hc, abs_mul, abs_of_nonneg (show (0 : ℤ) ≤ 2 ^ 8 by norm_num),
            show 8 * (fuel + 1) = 8 * fuel + 8 by ring, pow_add] at hfuel
          exact lt_of_mul_lt_mul_right hfuel (by norm_num))
      refine ⟨d, 8 + l, ?_, ?_, hodd⟩
      · simp only [gcdShiftOutLoop, lookupZeros, htz, if_true, hrest]
      · rw [hc, ← hval, hd, mul_assoc, ← pow_add, add_comm l]
    · obtain ⟨c, hc, hodd⟩ := toInt_eq_of_lo (htz.trans hw) hq (by omega)
      have hval := gcdShift_toInt build (htz.trans hw) hc
      refine ⟨gcdShift build a (lookupZeros a.lo), lookupZeros a.lo, ?_, ?_, ?_⟩
      · simp only [gcdShiftOutLoop, lookupZeros, htz.ne, if_false]
      · rw [lookupZeros, hval]
        exact hc
      · rw [lookupZeros, hval]
        exact hodd

theorem toInt_signExtend (x : BitVec w) :
    (⟨x, if x.toInt < 0 then BitVec.allOnes w else 0#w⟩ : TwoWord w).toInt = x.toInt := by
  rcases Nat.eq_zero_or_pos w with rfl | hw
  · rw [BitVec.eq_nil x]
    decide
  · have hx := BitVec.toInt_eq_toNat_cond x
    have hlt := x.isLt
    by_cases h : 2 * x.toNat < 2 ^ w
    · rw [if_pos h] at hx
      rw [if_neg (by omega), toInt, BitVec.toInt_zero, hx]
      ring
    · rw [if_neg h] at hx
      rw [if_pos (by omega), toInt, BitVec.toInt_allOnes, if_pos hw, hx]
      push_cast
      ring

/-- Both ways to count leave an odd number. -/
theorem gcdShiftOut_spec (lookup : Bool) (hw : 8 < w) (hne : a.toInt ≠ 0) :
    ∃ d l, gcdShiftOut build lookup a = pure d ∧ a.toInt = d.toInt * 2 ^ l ∧
      d.toInt % 2 = 1 := by
  have hctz : ∀ a : TwoWord w, a.lo ≠ 0#w →
      ∃ l, a.toInt = (gcdShift build a (ularithCtz build a.lo)).toInt * 2 ^ l ∧
        (gcdShift build a (ularithCtz build a.lo)).toInt % 2 = 1 := by
    intro a hlo
    have hpos : 0 < a.lo.toNat :=
      Nat.pos_of_ne_zero fun h => hlo (BitVec.eq_of_toNat_eq (by simpa using h))
    obtain ⟨k, hk, hodd⟩ := ularithCtz_spec build (by omega) hpos
    have hlt : ularithCtz build a.lo < w := by
      have hle : 2 ^ ularithCtz build a.lo ≤ a.lo.toNat := by
        conv_rhs => rw [hk]
        exact Nat.le_mul_of_pos_left _ (by omega)
      exact (Nat.pow_lt_pow_iff_right (by decide)).mp (hle.trans_lt a.lo.isLt)
    obtain ⟨c, hc, hcodd⟩ := toInt_eq_of_lo hlt hk hodd
    have hval := gcdShift_toInt build hlt hc
    exact ⟨_, by rw [hval]; exact hc, by rw [hval]; exact hcodd⟩
  cases lookup with
  | true =>
    refine gcdShiftOutLoop_spec build hw hne ?_
    have hbound := a.toInt_bounds
    have hpow : (2 : ℤ) ^ w * 2 ^ w ≤ 2 ^ (8 * (2 * w + 1)) := by
      rw [← pow_add]
      exact pow_le_pow_right₀ (by norm_num) (by omega)
    rw [abs_lt]
    have hpos : (0 : ℤ) < 2 ^ w * 2 ^ w := by positivity
    constructor <;> linarith
  | false =>
    by_cases hlo : a.lo = 0#w
    · have hhi : a.hi ≠ 0#w := fun h => hne (TwoWord.toInt_eq_zero_iff.mpr ⟨hlo, h⟩)
      obtain ⟨l, hl, hodd⟩ := hctz ⟨a.hi, if a.hi.toInt < 0 then BitVec.allOnes w else 0#w⟩ hhi
      rw [toInt_signExtend] at hl
      refine ⟨_, w + l, by simp [gcdShiftOut, hlo], ?_,
        hodd⟩
      have ha : a.toInt = a.hi.toInt * 2 ^ w := by
        simp [toInt, hlo, mul_comm]
      rw [ha, pow_add, mul_comm (2 ^ w), ← mul_assoc]
      exact congrArg (· * 2 ^ w) hl
    · obtain ⟨l, hl, hodd⟩ := hctz a hlo
      exact ⟨_, l, by simp [gcdShiftOut, hlo], hl, hodd⟩

end Shifts

/-! ## Sums, differences and signs -/

section Sums

variable {a b : TwoWord w}

theorem xor_and_two_iff (hw : 2 ≤ w) {x y : BitVec w} (hx : x.toNat % 2 = 1)
    (hy : y.toNat % 2 = 1) : (x ^^^ y) &&& 2#w ≠ 0#w ↔ x.toNat % 4 ≠ y.toNat % 4 := by
  have htwo : 2#w = 1#w <<< 1 := by
    have hlt : 2 < 2 ^ w := by
      calc 2 < 2 ^ 2 := by decide
        _ ≤ 2 ^ w := Nat.pow_le_pow_right (by decide) hw
    apply BitVec.eq_of_toNat_eq
    rw [BitVec.toNat_shiftLeft, toNat_const hlt, toNat_const (by omega), Nat.shiftLeft_eq,
      one_mul, pow_one, Nat.mod_eq_of_lt hlt]
  have hbit : ∀ n : ℕ, n.testBit 1 = decide (n / 2 % 2 = 1) := fun n => by
    rw [Nat.testBit_eq_decide_div_mod_eq, pow_one]
  rw [ne_eq, htwo, and_bit_eq_zero_iff _ (by omega), BitVec.toNat_xor, Nat.testBit_xor, hbit, hbit]
  by_cases hx' : x.toNat / 2 % 2 = 1 <;> by_cases hy' : y.toNat / 2 % 2 = 1 <;>
    simp only [hx', hy', decide_true, decide_false, Bool.xor_false, Bool.xor_true, Bool.not_false,
      Bool.not_true, reduceCtorEq, not_false_eq_true, not_true_eq_false, true_iff, false_iff] <;>
    omega

theorem toInt_mod_four (hw : 2 ≤ w) (a : TwoWord w) : a.toInt % 4 = a.lo.toNat % 4 := by
  have hdvd : (4 : ℤ) ∣ 2 ^ w := pow_dvd_pow 2 hw
  rw [toInt]
  exact Int.ModEq.symm (Int.modEq_iff_dvd.mpr (by
    rw [add_sub_cancel_left]
    exact hdvd.mul_right _))

variable (build : UlarithBuild)

theorem tracedSignedAdd_of_lt (h : 2 * |b.toInt + a.toInt| < 2 ^ w * 2 ^ w) :
    ∃ c, tracedSignedAdd build b a = pure c ∧ c.toInt = b.toInt + a.toInt := by
  have hrange := abs_lt.mp (show |2 * (b.toInt + a.toInt)| < 2 ^ w * 2 ^ w by
    rwa [abs_mul, abs_of_pos (by norm_num : (0 : ℤ) < 2)])
  refine ⟨ularithAdd2ul2ul build b a, Outcome.dropCarry_of (by simpa using h), ?_⟩
  rw [ularithAdd2ul2ul_eq]
  exact TwoWord.add_toInt hrange.1.le hrange.2

theorem tracedSignedSub_of_lt (h : 2 * |b.toInt - a.toInt| < 2 ^ w * 2 ^ w) :
    ∃ c, tracedSignedSub build b a = pure c ∧ c.toInt = b.toInt - a.toInt := by
  have hrange := abs_lt.mp (show |2 * (b.toInt - a.toInt)| < 2 ^ w * 2 ^ w by
    rwa [abs_mul, abs_of_pos (by norm_num : (0 : ℤ) < 2)])
  refine ⟨ularithSub2ul2ul build b a, Outcome.dropCarry_of (by simpa using h), ?_⟩
  rw [ularithSub2ul2ul_eq]
  exact TwoWord.sub_toInt hrange.1.le hrange.2

/-- The sum or difference of odd numbers, when both fit. -/
theorem gcdCombine_spec (hw : 2 ≤ w) (ha : a.toInt % 2 = 1)
    (hb : b.toInt % 2 = 1) (hfit : 2 * (|a.toInt| + |b.toInt|) < 2 ^ w * 2 ^ w) :
    ∃ c, gcdCombine build a b = pure c ∧ c.toInt = combine a.toInt b.toInt := by
  have ha4 := toInt_mod_four hw a
  have hb4 := toInt_mod_four hw b
  have htest : (a.lo ^^^ b.lo) &&& 2#w ≠ 0#w ↔ a.toInt % 4 ≠ b.toInt % 4 := by
    rw [xor_and_two_iff hw (by omega) (by omega)]
    omega
  rw [combine]
  by_cases hdiff : a.toInt % 4 ≠ b.toInt % 4
  · have hle := abs_add_le b.toInt a.toInt
    obtain ⟨c, hc, hcv⟩ := tracedSignedAdd_of_lt build (a := a) (b := b) (by linarith)
    exact ⟨c, by rw [gcdCombine, if_pos (htest.mpr hdiff), hc], by rw [if_pos hdiff, hcv]⟩
  · have hle := abs_sub b.toInt a.toInt
    obtain ⟨c, hc, hcv⟩ := tracedSignedSub_of_lt build (a := a) (b := b) (by linarith)
    exact ⟨c, by rw [gcdCombine, if_neg (mt htest.mp hdiff), hc], by rw [if_neg hdiff, hcv]⟩

/-- The absolute value of a signed number of two words. -/
theorem gcdAbs_value (hw : 0 < w) (a : TwoWord w) : (gcdAbs a).value = a.toInt.natAbs := by
  rw [gcdAbs]
  have hsign := a.toInt_neg_iff
  by_cases hneg : a.hi.toInt < 0
  · -- the unsigned readings of the number and its negation add up to the range
    have hhi := BitVec.toInt_eq_toNat_cond a.hi
    have hlolt := a.lo.isLt
    have hhilt := a.hi.isLt
    have hhipos : 0 < a.hi.toNat ∧ a.hi.toInt = a.hi.toNat - (2 ^ w : ℕ) := by
      split_ifs at hhi <;> omega
    have hnegate : (⟨-a.lo, if a.lo ≠ 0#w then -a.hi - 1#w else -a.hi⟩ : TwoWord w).value
        + a.value = 2 ^ w * 2 ^ w := by
      have hone : (1#w).toNat = 1 := toNat_const (Nat.one_lt_two_pow (by omega))
      have hneghi : (-a.hi).toNat = 2 ^ w - a.hi.toNat := by
        rw [BitVec.toNat_neg, Nat.mod_eq_of_lt (by omega)]
      obtain ⟨k, hk⟩ : ∃ k, 2 ^ w = a.hi.toNat + (k + 1) :=
        ⟨2 ^ w - a.hi.toNat - 1, by omega⟩
      by_cases hlo : a.lo = 0#w
      · rw [if_neg (not_not.mpr hlo)]
        simp only [value, hlo, BitVec.neg_zero, BitVec.toNat_zero, hneghi, zero_add]
        rw [← mul_add, Nat.sub_add_cancel hhilt.le]
      · have hlopos : 0 < a.lo.toNat :=
          Nat.pos_of_ne_zero fun h => hlo (BitVec.eq_of_toNat_eq (by simpa using h))
        have hneglo : (-a.lo).toNat = 2 ^ w - a.lo.toNat := by
          rw [BitVec.toNat_neg, Nat.mod_eq_of_lt (by omega)]
        have hdec : (-a.hi - 1#w).toNat = k := by
          rw [BitVec.toNat_sub_of_le (BitVec.le_def.mpr (by omega)), hneghi, hone]
          omega
        rw [if_pos hlo]
        simp only [value, hneglo, hdec]
        calc 2 ^ w - a.lo.toNat + 2 ^ w * k + (a.lo.toNat + 2 ^ w * a.hi.toNat)
            = 2 ^ w * (a.hi.toNat + (k + 1)) := by
              rw [mul_add, mul_add]
              omega
          _ = 2 ^ w * 2 ^ w := by rw [← hk]
    have hvalue : (a.value : ℤ) = a.toInt + 2 ^ w * 2 ^ w := by
      rw [toInt, hhipos.2, value]
      push_cast
      ring
    have hnegate' : ((⟨-a.lo, if a.lo ≠ 0#w then -a.hi - 1#w else -a.hi⟩ : TwoWord w).value : ℤ)
        + a.value = 2 ^ w * 2 ^ w := by exact_mod_cast hnegate
    rw [if_pos hneg]
    omega
  · have hvalue := TwoWord.value_eq_toInt (not_lt.mp (mt hsign.mp hneg))
    rw [if_neg hneg]
    omega

end Sums

/-! ## The loop -/

section Loop

variable {a b : TwoWord w} {g : ℕ}

/-- The loop ends with the greatest common divisor, and no number leaves the signed range.  The
magnitudes fall, as in every round `a` is smaller than `b` or a multiple of four. -/
theorem modGcdLoop_spec (build : UlarithBuild) (lookup : Bool) (hw : 8 < w) (fuel : ℕ)
    (hb : b.toInt % 2 = 1) (hab : 4 ∣ a.toInt ∨ |a.toInt| < |b.toInt|)
    (hfit : 2 * (|a.toInt| + |b.toInt|) < 2 ^ w * 2 ^ w)
    (hg : Int.gcd b.toInt a.toInt = g) (hfuel : |a.toInt| + |b.toInt| < fuel) :
    ∃ r, modGcdLoop build lookup fuel a b = pure r ∧ r.value = g := by
  induction fuel generalizing a b with
  | zero =>
    have := abs_nonneg a.toInt
    have := abs_nonneg b.toInt
    omega
  | succ fuel ih =>
    by_cases hzero : a.toInt = 0
    · have hstop : ¬ (a.hi ≠ 0#w ∨ a.lo ≠ 0#w) := by
        obtain ⟨hlo, hhi⟩ := TwoWord.toInt_eq_zero_iff.mp hzero
        simp [hlo, hhi]
      refine ⟨gcdAbs b, by rw [modGcdLoop, if_neg hstop], ?_⟩
      rw [gcdAbs_value (by omega), ← hg, hzero, Int.gcd_zero_right]
    have hcont : a.hi ≠ 0#w ∨ a.lo ≠ 0#w := by
      by_contra h
      obtain ⟨hhi, hlo⟩ := not_or.mp h
      exact hzero (TwoWord.toInt_eq_zero_iff.mpr ⟨not_not.mp hlo, not_not.mp hhi⟩)
    have hbpos : 0 < |b.toInt| := abs_pos.mpr (by omega)
    -- the odd part of a
    obtain ⟨a₁, l, ha₁, hal, ha₁odd⟩ := gcdShiftOut_spec build lookup hw hzero
    have ha₁le : |a₁.toInt| ≤ |a.toInt| := abs_le_of_shift hal
    have ha₁mag : 4 * |a₁.toInt| ≤ |a.toInt| ∨
        |a₁.toInt| ≤ |a.toInt| ∧ |a.toInt| < |b.toInt| :=
      hab.imp (fun h => four_mul_abs_le ha₁odd hal h) fun h => ⟨ha₁le, h⟩
    have hg₁ : Int.gcd a₁.toInt b.toInt = g := by
      rw [Int.gcd_comm, ← gcd_shift hb hal, hg]
    -- the combination that becomes b
    obtain ⟨c, hc, hcv⟩ := gcdCombine_spec build (by omega) ha₁odd hb (by linarith)
    have hgc : Int.gcd a₁.toInt c.toInt = g := by rw [hcv, gcd_combine, hg₁]
    by_cases hczero : c.toInt = 0
    · refine ⟨gcdAbs a₁, ?_, ?_⟩
      · have hwords := TwoWord.toInt_eq_zero_iff.mp hczero
        simp [modGcdLoop, if_pos hcont, ha₁, hc, if_pos hwords]
      · rw [gcdAbs_value (by omega), ← hgc, hczero, Int.gcd_zero_right]
    have hwords := mt TwoWord.toInt_eq_zero_iff.mpr hczero
    obtain ⟨b₁, k, hb₁, hbk, hb₁odd⟩ := gcdShiftOut_spec build lookup hw hczero
    have hb₁mag : 4 * |b₁.toInt| ≤ |a₁.toInt| + |b.toInt| := by
      have hfour := four_mul_abs_le hb₁odd hbk (by
        rw [hcv]
        exact four_dvd_combine ha₁odd hb)
      have hle := abs_combine_le a₁.toInt b.toInt
      rw [hcv] at hfour
      linarith
    have hfall := magnitude_lt hbpos ha₁mag hb₁mag
    have hb₁nn := abs_nonneg b₁.toInt
    have hg₂ : Int.gcd b₁.toInt a₁.toInt = g := by
      rw [Int.gcd_comm, ← gcd_shift ha₁odd hbk, hgc]
    -- the combination that becomes a
    obtain ⟨d, hd, hdv⟩ := gcdCombine_spec build (by omega) hb₁odd ha₁odd (by linarith)
    have hdle : |d.toInt| ≤ |b₁.toInt| + |a₁.toInt| := by
      rw [hdv]
      exact abs_combine_le _ _
    obtain ⟨r, hr, hrv⟩ := ih (a := d) (b := b₁) hb₁odd
      (Or.inl (by rw [hdv]; exact four_dvd_combine hb₁odd ha₁odd)) (by linarith)
      (by rw [hdv, gcd_combine, hg₂]) (by push_cast at hfuel; linarith)
    refine ⟨r, ?_, hrv⟩
    simp [modGcdLoop, if_pos hcont, ha₁, hc, if_neg hwords, hb₁, hd, hr]

/-- For every odd modulus with two bits to spare, every residue and both ways to count trailing
zeros: the greatest common divisor is returned, no signed number leaves its range, and the
integer that the residue represents has the same greatest common divisor with the modulus. -/
theorem modGcd_spec (build : UlarithBuild) (lookup : Bool) (hw : 8 < w) {m : Modulusredc w}
    (hodd : m.m.value % 2 = 1) (hfour : 4 * m.m.value < 2 ^ w * 2 ^ w) {A : TwoWord w}
    (hA : A.value < m.m.value) :
    ∃ r, modGcd build lookup A m = pure r ∧ r.value = Nat.gcd A.value m.m.value ∧
      ∀ x, x * (2 ^ w * 2 ^ w) ≡ A.value [MOD m.m.value] → Nat.gcd x m.m.value = r.value := by
  suffices hrun : ∃ r, modGcd build lookup A m = pure r ∧
      r.value = Nat.gcd A.value m.m.value by
    obtain ⟨r, hr, hrv⟩ := hrun
    refine ⟨r, hr, hrv, fun x hx => ?_⟩
    have hcop : Nat.Coprime (2 ^ w * 2 ^ w) m.m.value := by
      rw [← pow_add]
      exact (Nat.coprime_two_left.mpr (Nat.odd_iff.mpr hodd)).pow_left _
    rw [hrv, ← hx.gcd_eq, hcop.gcd_mul_right_cancel]
  by_cases hzero : A.lo = 0#w ∧ A.hi = 0#w
  · refine ⟨m.m, by rw [modGcd, if_pos hzero], ?_⟩
    simp [value, hzero.1, hzero.2]
  · have hAint : A.toInt = A.value := toInt_eq_value (by omega)
    have hmint : m.m.toInt = m.m.value := toInt_eq_value (by omega)
    have hA' : (A.value : ℤ) < m.m.value := by exact_mod_cast hA
    have hfour' : (4 * m.m.value : ℤ) < 2 ^ w * 2 ^ w := by exact_mod_cast hfour
    obtain ⟨r, hr, hrv⟩ := modGcdLoop_spec build lookup hw
      (A.value + m.m.value + 1) (a := A) (b := m.m) (g := Nat.gcd A.value m.m.value) (by omega)
      (Or.inr (by rw [hAint, hmint, Nat.abs_cast, Nat.abs_cast]; exact hA'))
      (by rw [hAint, hmint, Nat.abs_cast, Nat.abs_cast]; linarith)
      (by rw [hAint, hmint, Int.gcd_natCast_natCast, Nat.gcd_comm])
      (by rw [hAint, hmint, Nat.abs_cast, Nat.abs_cast]; push_cast; linarith)
    exact ⟨r, by rw [modGcd, if_neg hzero, hr], hrv⟩

end Loop

/-- The greatest common divisor of 9 and `2 ^ 64 + 5`. -/
theorem modGcd_spec_nine :
    ∃ r, modGcd .noAsm true ⟨9#64, 0#64⟩ ⟨⟨5#64, 1#64⟩, ⟨25#64, 0#64⟩, 0x3333333333333333#64⟩
      = pure r ∧ r.value = 3 := by
  obtain ⟨r, hr, hrv, -⟩ := modGcd_spec .noAsm true (by decide)
    (m := ⟨⟨5#64, 1#64⟩, ⟨25#64, 0#64⟩, 0x3333333333333333#64⟩) (by decide) (by decide)
    (A := ⟨9#64, 0#64⟩) (by decide)
  exact ⟨r, hr, by rw [hrv]; decide⟩

end CadoNfs
