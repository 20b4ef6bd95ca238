import CadoNfs.Utils.UlarithWide

/-!
# Two-word integers of the Montgomery arithmetics

`modredc_2ul2.h` and `modredc_15ul.h` share the text of their functions
on two-word integers.  Each function is defined once here; the two headers use it
under their own names.

Main results:

- Theorem `modredcIntlt_iff`: the comparison decides the order unless its
  borrow is missed by the fallback.
- Theorem `modredcIntmod_iff`: the remainder, and the numbers at which it is wrong.
- Theorem `ularith_fallback_agrees_iff`: for each carry primitive, the exact
  inputs on which the C fallback agrees with the x86 text.
-/

namespace CadoNfs

open WordArith
open BitVec (allOnes lt_def)
open Nat (mod_eq_of_lt mod_lt two_pow_pos)
open Outcome (assert assert_of)
open TwoWord (mulWide sub_flag_iff value value_div value_mod)

variable {w : ℕ}

/-! ## Definitions shared by both headers -/

section Definitions

variable (build : UlarithBuild)

/-- `modredc*_intlt`. -/
def modredcIntlt (a b : TwoWord w) : Bool :=
  (ularithSub2ul2ulCy build a b).2

/-- `modredc*_intsub`. -/
def modredcIntsub (a b : TwoWord w) : TwoWord w :=
  ularithSub2ul2ul build a b

/-- `modredc*_intshr`. -/
def modredcIntshr (s : TwoWord w) (i : ℕ) : TwoWord w :=
  ⟨ularithShrd build s.lo s.hi i, s.hi >>> i⟩

/-- `modredc*_intshl`. -/
def modredcIntshl (s : TwoWord w) (i : ℕ) : TwoWord w :=
  ⟨s.lo <<< i, ularithShld build s.hi s.lo i⟩

/-- The block of `modredc*_intmod` that divides both numbers by the power of
two that leaves one word of the divisor. -/
def modredcIntmodShift (n d : TwoWord w) : TwoWord w × TwoWord w :=
  let t1 := modredcIntshr build n 1
  let t2 := modredcIntshr build d 1
  if t2.hi ≠ 0#w then
    let i := w - ularithClz build t2.hi
    (modredcIntshr build t1 i, modredcIntshr build t2 i)
  else
    (t1, t2)

/-- `modredc*_intmod`: the remainder of `n` by `d`. -/
def modredcIntmod (n d : TwoWord w) : Outcome (TwoWord w) := do
  if d.hi = 0#w then
    if n.hi < d.lo then
      let (_, r) ← ularithDiv2ulUlUl n d.lo
      pure ⟨r, 0#w⟩
    else
      let (_, t) ← ularithDiv2ulUlUl ⟨n.hi, 0#w⟩ d.lo
      let (_, r) ← ularithDiv2ulUlUl ⟨n.lo, t⟩ d.lo
      pure ⟨r, 0#w⟩
  else
    let (t1, t2) := modredcIntmodShift build n d
    assert (t2.hi = 0#w)
    assert (t2.lo &&& (1#w <<< (w - 1)) ≠ 0#w)
    assert (t1.hi < t2.lo)
    let (q, _) ← ularithDiv2ulUlUl t1 t2.lo
    let t1 ← ularithMulUlUl2ul build q d.lo
    let t1 : TwoWord w := ⟨t1.lo, t1.hi + q * d.hi⟩
    let t1 := if modredcIntlt build n t1 then modredcIntsub build t1 d else t1
    assert (¬ modredcIntlt build n t1)
    pure (modredcIntsub build n t1)

end Definitions

variable (build : UlarithBuild) (a b : TwoWord w)

/-- `modredc2ul2_intlt`. -/
def modredc2ul2Intlt : Bool :=
  modredcIntlt build a b

/-- `modredc15ul_intlt`. -/
def modredc15ulIntlt : Bool :=
  modredcIntlt build a b

/-- `modredc2ul2_intsub`. -/
def modredc2ul2Intsub : TwoWord w :=
  modredcIntsub build a b

/-- `modredc15ul_intsub`. -/
def modredc15ulIntsub : TwoWord w :=
  modredcIntsub build a b

variable (n d : TwoWord w)

/-- `modredc2ul2_intmod`. -/
def modredc2ul2Intmod : Outcome (TwoWord w) :=
  modredcIntmod build n d

/-- `modredc15ul_intmod`. -/
def modredc15ulIntmod : Outcome (TwoWord w) :=
  modredcIntmod build n d

/-! ## Comparison and subtraction -/

/-- The comparison decides the order, except that the fallback takes a missed
borrow for no borrow. -/
theorem modredcIntlt_iff : modredcIntlt build a b = true
      ↔ a.value < b.value ∧ (build = .noAsm → ¬ BorrowMissed a b) := by
  rw [← sub_flag_iff]
  cases build with
  | x86 => simp [modredcIntlt]
  | noAsm => simp [modredcIntlt, ularithSub2ul2ulCy_noAsm_snd]

theorem modredcIntsub_value {a b : TwoWord w}
    (h : b.value ≤ a.value) : (modredcIntsub build a b).value = a.value - b.value := by
  rw [modredcIntsub, ularithSub2ul2ul_eq]
  exact (TwoWord.sub_value_of_le h).1

theorem modredcIntshr_value (s : TwoWord w) {i : ℕ} (hi : i < w) :
    (modredcIntshr build s i).value = s.value / 2 ^ i :=
  ularithShrd_value build s hi

theorem modredcIntshl_value {s : TwoWord w} {i : ℕ} (hi : i < w)
    (hfit : s.value * 2 ^ i < 2 ^ w * 2 ^ w) :
    (modredcIntshl build s i).value = s.value * 2 ^ i :=
  ularithShld_value build s hi hfit

/-! ## Remainders -/

theorem modredcIntmod_oneWord (hd : d.hi = 0#w) (hpos : 0 < d.lo.toNat) :
    ∃ r, modredcIntmod build n d = pure r ∧ r.value = n.value % d.value := by
  have hdv : d.value = d.lo.toNat := by simp [value, hd]
  have hword : ∀ a : BitVec w, (⟨a, 0#w⟩ : TwoWord w).value = a.toNat := by
    intro a
    simp [value]
  rw [hdv]
  by_cases hlt : n.hi < d.lo
  · obtain ⟨q, r, hdiv, -, hr⟩ := ularithDiv2ulUlUl_eq (lt_def.mp hlt)
    refine ⟨⟨r, 0#w⟩, ?_, by rw [hword, hr]⟩
    simp [modredcIntmod, if_pos hd, if_pos hlt, hdiv]
  · have hzero : (⟨n.hi, 0#w⟩ : TwoWord w).hi.toNat < d.lo.toNat := by simpa using hpos
    obtain ⟨q₁, t, hdiv₁, -, ht⟩ := ularithDiv2ulUlUl_eq hzero
    rw [hword] at ht
    have hlow : (⟨n.lo, t⟩ : TwoWord w).hi.toNat < d.lo.toNat := by
      change t.toNat < d.lo.toNat
      rw [ht]
      exact mod_lt _ hpos
    obtain ⟨q₂, r, hdiv₂, -, hr⟩ := ularithDiv2ulUlUl_eq hlow
    refine ⟨⟨r, 0#w⟩, ?_, ?_⟩
    · simp [modredcIntmod, if_pos hd, if_neg hlt, hdiv₁, hdiv₂]
    · rw [hword, hr, value, value, ht]
      exact ((Nat.ModEq.refl _).add ((Nat.mod_modEq _ _).mul_left _))

/-- The shift of `modredc*_intmod` takes off as many bits as the high word of
the divisor has. -/
theorem modredcIntmodShift_value (hw : 1 < w) (n d : TwoWord w) (hd : 0 < d.hi.toNat) :
    (modredcIntmodShift build n d).1.value = n.value / 2 ^ d.hi.toNat.size ∧
      (modredcIntmodShift build n d).2.value = d.value / 2 ^ d.hi.toNat.size := by
  have hsize : d.hi.toNat.size ≤ w := Nat.size_le.mpr d.hi.isLt
  have ht2 : (modredcIntshr build d 1).hi.toNat = d.hi.toNat / 2 := by
    simp [modredcIntshr, BitVec.toNat_ushiftRight, Nat.shiftRight_eq_div_pow]
  have hsucc : d.hi.toNat.size = (d.hi.toNat / 2).size + 1 := by
    have hbit := Nat.size_bit (b := d.hi.toNat.bodd) (n := d.hi.toNat.div2)
    rw [Nat.bit_bodd_div2, Nat.div2_val] at hbit
    exact hbit (by omega)
  by_cases hzero : (modredcIntshr build d 1).hi = 0#w
  · have hhalf : d.hi.toNat / 2 = 0 := by rw [← ht2, hzero]; simp
    have hone : d.hi.toNat.size = 1 := by rw [hsucc, hhalf, Nat.size_zero]
    simp only [modredcIntmodShift, hzero, ne_eq, not_true_eq_false, if_false, hone]
    exact ⟨modredcIntshr_value build n hw, modredcIntshr_value build d hw⟩
  · have hhalf : 0 < (modredcIntshr build d 1).hi.toNat := by
      rw [Nat.pos_iff_ne_zero, ne_eq, ← BitVec.toNat_inj] at *
      simpa using hzero
    have hi : w - ularithClz build (modredcIntshr build d 1).hi = d.hi.toNat.size - 1 := by
      rw [ularithClz_eq build hhalf, ht2]
      omega
    have hlt : d.hi.toNat.size - 1 < w := by omega
    simp only [modredcIntmodShift, ne_eq, hzero, not_false_eq_true, if_true, hi]
    rw [modredcIntshr_value build _ hlt, modredcIntshr_value build _ hlt,
      modredcIntshr_value build _ hw, modredcIntshr_value build _ hw,
      Nat.div_div_eq_div_mul, Nat.div_div_eq_div_mul, ← pow_add,
      show 1 + (d.hi.toNat.size - 1) = d.hi.toNat.size by omega]
    exact ⟨rfl, rfl⟩

theorem leading_bounds (hw : 0 < w) (d : TwoWord w) (hd : 0 < d.hi.toNat) :
    2 ^ (w - 1) ≤ d.value / 2 ^ d.hi.toNat.size ∧
      d.value / 2 ^ d.hi.toNat.size < 2 ^ w := by
  have hpos : 0 < d.hi.toNat.size := Nat.size_pos.mpr hd
  have hlow : 2 ^ (d.hi.toNat.size - 1) ≤ d.hi.toNat := Nat.lt_size.mp (by omega)
  have hhigh : d.hi.toNat < 2 ^ d.hi.toNat.size := Nat.lt_size_self _
  have hlo := d.lo.isLt
  constructor
  · rw [Nat.le_div_iff_mul_le (two_pow_pos _)]
    calc 2 ^ (w - 1) * 2 ^ d.hi.toNat.size
        = 2 ^ w * 2 ^ (d.hi.toNat.size - 1) := by
          rw [← pow_add, ← pow_add]
          congr 1
          omega
      _ ≤ 2 ^ w * d.hi.toNat := Nat.mul_le_mul_left _ hlow
      _ ≤ d.value := Nat.le_add_left _ _
  · apply Nat.div_lt_of_lt_mul
    calc d.value < 2 ^ w + 2 ^ w * d.hi.toNat := by unfold value; omega
      _ = 2 ^ w * (d.hi.toNat + 1) := by ring
      _ ≤ 2 ^ w * 2 ^ d.hi.toNat.size := Nat.mul_le_mul_left _ hhigh
      _ = 2 ^ d.hi.toNat.size * 2 ^ w := by ring

/-- The end of `modredc*_intmod`: a multiple of the divisor that overshoots
by at most one divisor is corrected, unless the fallback misses that it
overshoots. -/
theorem modredcIntmod_correct {n d t : TwoWord w} (hd : 0 < d.value)
    (ht : t.value = n.value / d.value * d.value ∨
      (t.value = (n.value / d.value + 1) * d.value ∧ (build = .noAsm → ¬ BorrowMissed n t))) :
    ∃ r, (do
      let t1 := if modredcIntlt build n t then modredcIntsub build t d else t
      assert (¬ modredcIntlt build n t1)
      pure (modredcIntsub build n t1)) = pure r ∧ r.value = n.value % d.value := by
  have hle : n.value / d.value * d.value ≤ n.value := Nat.div_mul_le_self _ _
  have hmod : n.value - n.value / d.value * d.value = n.value % d.value := by
    have hsplit := Nat.div_add_mod' n.value d.value
    omega
  -- once the multiple is the right one the assertion holds and the rest is exact
  have hdone : ∀ u : TwoWord w, u.value = n.value / d.value * d.value →
      ∃ r, (do
        assert (¬ modredcIntlt build n u)
        pure (modredcIntsub build n u)) = pure r ∧ r.value = n.value % d.value := by
    intro u hu
    have hnlt : ¬ modredcIntlt build n u = true := by
      rw [modredcIntlt_iff]
      omega
    refine ⟨modredcIntsub build n u, ?_, ?_⟩
    · rw [assert_of hnlt, pure_bind]
    · rw [modredcIntsub_value build (by omega), hu, hmod]
  rcases ht with ht | ⟨ht, hmissed⟩
  · have hnlt : ¬ modredcIntlt build n t = true := by
      rw [modredcIntlt_iff]
      omega
    simp only [if_neg hnlt]
    exact hdone t ht
  · have hover : n.value < t.value := by
      rw [ht, mul_comm]
      exact Nat.lt_mul_div_succ _ hd
    have hlt : modredcIntlt build n t = true := by
      rw [modredcIntlt_iff]
      exact ⟨hover, hmissed⟩
    simp only [if_pos hlt]
    apply hdone
    rw [add_mul, one_mul] at ht
    rw [modredcIntsub_value build (by omega)]
    omega

theorem quotient_mul_value_mod (q : BitVec w) (d : TwoWord w) :
    (⟨(mulWide q d.lo).lo, (mulWide q d.lo).hi + q * d.hi⟩
      : TwoWord w).value = q.toNat * d.value % (2 ^ w * 2 ^ w) := by
  have hlow := TwoWord.mulWide_value q d.lo
  have hsum : q.toNat * d.value = (mulWide q d.lo).lo.toNat
      + 2 ^ w * ((mulWide q d.lo).hi.toNat + q.toNat * d.hi.toNat) := by
    calc q.toNat * d.value = q.toNat * d.lo.toNat + 2 ^ w * (q.toNat * d.hi.toNat) := by
          unfold value; ring
      _ = _ := by rw [← hlow]; unfold value; ring
  have hlo := (mulWide q d.lo).lo.isLt
  rw [hsum, Nat.mod_mul, Nat.add_mul_mod_self_left, mod_eq_of_lt hlo,
    Nat.add_mul_div_left _ _ (two_pow_pos w), Nat.div_eq_of_lt hlo, zero_add]
  simp [value]

/-- The assertions before the division hold, and what is left after it is the correction of
the multiple of the divisor that the estimate of the quotient gives. -/
theorem modredcIntmod_run (hw : 1 < w) (heven : w % 2 = 0) (n d : TwoWord w) (hd : 0 < d.hi.toNat) :
    ∃ t : TwoWord w, t.value = n.value / 2 ^ d.hi.toNat.size
        / (d.value / 2 ^ d.hi.toNat.size) * d.value % (2 ^ w * 2 ^ w) ∧
      modredcIntmod build n d = (do
        let t1 := if modredcIntlt build n t then modredcIntsub build t d else t
        assert (¬ modredcIntlt build n t1)
        pure (modredcIntsub build n t1)) := by
  obtain ⟨ht1, ht2⟩ := modredcIntmodShift_value build hw n d hd
  obtain ⟨hxlow, hxhigh⟩ := leading_bounds (by omega) d hd
  have hpow : (2 : ℕ) ^ w = 2 * 2 ^ (w - 1) := by
    rw [← pow_succ']
    congr 1
    omega
  have hylt : n.value / 2 ^ d.hi.toNat.size < 2 ^ w * 2 ^ (w - 1) := by
    have hpos : 0 < d.hi.toNat.size := Nat.size_pos.mpr hd
    apply Nat.div_lt_of_lt_mul
    calc n.value < 2 ^ w * 2 ^ w := n.value_lt
      _ = 2 ^ 1 * (2 ^ w * 2 ^ (w - 1)) := by rw [hpow]; ring
      _ ≤ 2 ^ d.hi.toNat.size * (2 ^ w * 2 ^ (w - 1)) :=
        Nat.mul_le_mul_right _ (Nat.pow_le_pow_right (by omega) hpos)
  generalize hshift : modredcIntmodShift build n d = shifted at *
  obtain ⟨t1, t2⟩ := shifted
  simp only at ht1 ht2
  have hhi0 : t2.hi = 0#w := by
    apply BitVec.eq_of_toNat_eq
    rw [← value_div, ht2, Nat.div_eq_of_lt hxhigh]
    simp
  have hlo : t2.lo.toNat = d.value / 2 ^ d.hi.toNat.size := by
    rw [← value_mod, ht2, mod_eq_of_lt hxhigh]
  have htop : ¬ (t2.lo &&& (1#w <<< (w - 1)) = 0#w) := by
    have hone : d.value / 2 ^ d.hi.toNat.size / 2 ^ (w - 1) = 1 := by
      apply Nat.div_eq_of_lt_le <;> omega
    rw [and_bit_eq_zero_iff _ (by omega), hlo, Nat.testBit_eq_decide_div_mod_eq, hone]
    simp
  have hquot : t1.hi.toNat < t2.lo.toNat := by
    rw [hlo, ← value_div, ht1]
    exact (Nat.div_lt_of_lt_mul hylt).trans_le hxlow
  obtain ⟨q, dummy, hdiv, hq, -⟩ := ularithDiv2ulUlUl_eq hquot
  rw [ht1, hlo] at hq
  have hdhi : ¬ d.hi = 0#w := by
    intro h
    simp [h] at hd
  refine ⟨_, (quotient_mul_value_mod q d).trans (by rw [hq]), ?_⟩
  simp only [modredcIntmod, if_neg hdhi, hshift]
  rw [assert_of hhi0, pure_bind, assert_of htop, pure_bind,
    assert_of (lt_def.mpr hquot), pure_bind, hdiv, pure_bind]
  simp only
  rw [ularithMulUlUl2ul_eq build (by omega) heven, pure_bind]

theorem leading_part (hw : 0 < w) (d : TwoWord w) (hd : 0 < d.hi.toNat) :
    (2 ^ d.hi.toNat.size = 2 ∨ 4 ≤ 2 ^ d.hi.toNat.size) ∧
      2 ^ w ≤ 2 * (d.value / 2 ^ d.hi.toNat.size) := by
  obtain ⟨hxlow, -⟩ := leading_bounds hw d hd
  have hpow : (2 : ℕ) ^ w = 2 * 2 ^ (w - 1) := by
    rw [← pow_succ']
    congr 1
    omega
  have hpos : 0 < d.hi.toNat.size := Nat.size_pos.mpr hd
  refine ⟨?_, by omega⟩
  rcases Nat.lt_or_ge 1 d.hi.toNat.size with h | h
  · right
    calc 4 = 2 ^ 2 := rfl
      _ ≤ 2 ^ d.hi.toNat.size := Nat.pow_le_pow_right (by omega) h
  · left
    rw [show d.hi.toNat.size = 1 by omega, pow_one]

theorem leading_quotient (hw : 0 < w) (n d : TwoWord w) (hd : 0 < d.hi.toNat) :
    n.value / 2 ^ d.hi.toNat.size / (d.value / 2 ^ d.hi.toNat.size) = n.value / d.value ∨
      n.value / 2 ^ d.hi.toNat.size / (d.value / 2 ^ d.hi.toNat.size)
        = n.value / d.value + 1 := by
  obtain ⟨hD, hx⟩ := leading_part hw d hd
  exact Redc.quotient_estimate n.value_lt hD (two_pow_pos w) hx

theorem leading_quotient_mul_lt (hw : 0 < w) (n d : TwoWord w) (hd : 0 < d.hi.toNat) :
    n.value / 2 ^ d.hi.toNat.size / (d.value / 2 ^ d.hi.toNat.size) * d.value
      < n.value + d.value := by
  obtain ⟨hD, hx⟩ := leading_part hw d hd
  exact Redc.leading_div_mul_lt n.value_lt hD hx

theorem value_pos_of_hi_pos {d : TwoWord w} (hd : 0 < d.hi.toNat) : 0 < d.value := by
  have := Nat.mul_le_mul_left (2 ^ w) hd
  have hW := two_pow_pos w
  unfold value
  omega

/-! ## When the remainder is right -/

/-- The estimate of the quotient is right, or the multiple of the divisor that is too large
fits two words and the comparison sees that it is too large: the portable text does not, when
the high word of the multiple is all ones and its low word is above that of `n`. -/
def IntmodFits : Prop :=
  n.value / 2 ^ d.hi.toNat.size / (d.value / 2 ^ d.hi.toNat.size) = n.value / d.value + 1 →
    (n.value / d.value + 1) * d.value < 2 ^ w * 2 ^ w ∧
    (build = .noAsm → (n.value / d.value + 1) * d.value < 2 ^ w * (2 ^ w - 1) ∨
      (n.value / d.value + 1) * d.value % 2 ^ w ≤ n.value % 2 ^ w)

theorem borrowMissed_iff (n t : TwoWord w) :
    BorrowMissed n t ↔ 2 ^ w * (2 ^ w - 1) ≤ t.value ∧ n.value % 2 ^ w < t.value % 2 ^ w := by
  have hones : t.hi = allOnes w ↔ 2 ^ w * (2 ^ w - 1) ≤ t.value := by
    have hhi := t.hi.isLt
    have hlo := t.lo.isLt
    rw [eq_allOnes_iff, mul_comm, ← Nat.le_div_iff_mul_le (two_pow_pos w), value_div]
    omega
  rw [BorrowMissed, hones, value_mod, value_mod]
  simp [subFlag]

theorem modredcIntsub_overshoot {n t : TwoWord w} {T : ℕ}
    (hn : n.value < T) (hT : T ≤ n.value + 2 ^ w * 2 ^ w) (ht : t.value = T % (2 ^ w * 2 ^ w)) :
    (modredcIntsub build n t).value + T = n.value + 2 ^ w * 2 ^ w := by
  have hlt := n.value_lt
  have hsub := TwoWord.sub_value n t
  have hflag := sub_flag_iff n t
  rw [modredcIntsub, ularithSub2ul2ul_eq]
  rcases Nat.lt_or_ge T (2 ^ w * 2 ^ w) with hsmall | hlarge
  · rw [mod_eq_of_lt hsmall] at ht
    rw [hflag.mpr (ht ▸ hn), Bool.toNat_true, ht] at hsub
    omega
  · rw [Nat.mod_eq_sub_mod hlarge, mod_eq_of_lt (by omega)] at ht
    have hfalse : (n.sub t).2 = false := by
      rw [← Bool.not_eq_true, hflag]
      omega
    rw [hfalse, Bool.toNat_false] at hsub
    omega

section

variable (hw : 1 < w) (heven : w % 2 = 0) (n d : TwoWord w)
include hw heven

/-- The remainder by a two-word divisor is right exactly if the estimate of the quotient
is, or the multiple that is too large fits and is seen. -/
theorem modredcIntmod_twoWord_iff (hd : 0 < d.hi.toNat) :
    (∃ r, modredcIntmod build n d = pure r ∧ r.value = n.value % d.value) ↔
      IntmodFits build n d := by
  have hdpos := value_pos_of_hi_pos hd
  constructor
  · rintro ⟨r, hrun, hr⟩ hover
    by_contra hbad
    obtain ⟨t, ht, htail⟩ := modredcIntmod_run build hw heven n d hd
    rw [hover] at ht
    obtain ⟨T, hT⟩ : ∃ T, (n.value / d.value + 1) * d.value = T := ⟨_, rfl⟩
    rw [hT] at ht hbad
    have hsplit := Nat.div_add_mod' n.value d.value
    have hmod := mod_lt n.value hdpos
    have hTn : T + n.value % d.value = n.value + d.value := by
      rw [← hT, Nat.succ_mul]
      omega
    have hdlt := d.value_lt
    have hnlt := n.value_lt
    -- the comparison takes the multiple for small enough
    have hseen : ¬ modredcIntlt build n t = true := by
      rw [modredcIntlt_iff, borrowMissed_iff]
      rintro ⟨hlt, hmissed⟩
      rcases Nat.lt_or_ge T (2 ^ w * 2 ^ w) with hsmall | hlarge
      · rw [mod_eq_of_lt hsmall] at ht
        rw [ht] at hmissed
        refine hbad ⟨hsmall, fun hbuild => ?_⟩
        have := hmissed hbuild
        omega
      · rw [Nat.mod_eq_sub_mod hlarge, mod_eq_of_lt (by omega)] at ht
        omega
    have hvalue := modredcIntsub_overshoot build (by omega : n.value < T) (by omega) ht
    rw [hrun, if_neg hseen] at htail
    simp only [] at htail
    rw [assert_of hseen, pure_bind] at htail
    have hrt : r = modredcIntsub build n t := congrArg (fun x => x.toOption.getD r) htail
    rw [← hrt, hr] at hvalue
    omega
  · intro hfits
    obtain ⟨t, ht, htail⟩ := modredcIntmod_run build hw heven n d hd
    rw [htail]
    apply modredcIntmod_correct build hdpos
    rcases leading_quotient (by omega) n d hd with h | h
    · left
      have hle : n.value / d.value * d.value ≤ n.value := Nat.div_mul_le_self _ _
      rw [ht, h, mod_eq_of_lt (hle.trans_lt n.value_lt)]
    · have hvalue : t.value = (n.value / d.value + 1) * d.value := by
        rw [ht, h, mod_eq_of_lt (hfits h).1]
      refine Or.inr ⟨hvalue, fun hbuild hmissed => ?_⟩
      obtain ⟨hhigh, hlow⟩ := (borrowMissed_iff n t).mp hmissed
      rw [hvalue] at hhigh hlow
      rcases (hfits h).2 hbuild with hfit | hfit <;> omega

theorem modredcIntmod_twoWord (hd : 0 < d.hi.toNat) (hfit : n.value + d.value ≤ 2 ^ w * 2 ^ w)
    (hcorner : ∀ t : TwoWord w, t.value = (n.value / d.value + 1) * d.value →
      n.value / 2 ^ d.hi.toNat.size / (d.value / 2 ^ d.hi.toNat.size)
        = n.value / d.value + 1 → ¬ BorrowMissed n t) :
    ∃ r, modredcIntmod build n d = pure r ∧ r.value = n.value % d.value := by
  rw [modredcIntmod_twoWord_iff build hw heven n d hd]
  intro hover
  obtain ⟨t, ht, -⟩ := modredcIntmod_run build hw heven n d hd
  have hlt := leading_quotient_mul_lt (by omega) n d hd
  rw [hover] at ht hlt
  have hT := hlt.trans_le hfit
  rw [mod_eq_of_lt hT] at ht
  have hseen := hcorner t ht hover
  rw [borrowMissed_iff, ht] at hseen
  exact ⟨hT, fun _ => by omega⟩

/-- In both headers the remainder by a divisor that is not zero is right exactly if the
divisor has one word or the numbers fit. -/
theorem modredcIntmod_iff (hd : d.value ≠ 0) :
    ((∃ r, modredc2ul2Intmod build n d = pure r ∧ r.value = n.value % d.value) ↔
      (d.hi ≠ 0#w → IntmodFits build n d)) ∧
    ((∃ r, modredc15ulIntmod build n d = pure r ∧ r.value = n.value % d.value) ↔
      (d.hi ≠ 0#w → IntmodFits build n d)) := by
  refine and_self_iff.mpr ?_
  show (∃ r, modredcIntmod build n d = pure r ∧ r.value = n.value % d.value) ↔ _
  by_cases hhi : d.hi = 0#w
  · have hlo : 0 < d.lo.toNat := by
      rw [value, hhi] at hd
      simpa [Nat.pos_iff_ne_zero] using hd
    exact iff_of_true (modredcIntmod_oneWord build n d hhi hlo) fun h => absurd hhi h
  · have hpos : 0 < d.hi.toNat := by
      rw [Nat.pos_iff_ne_zero]
      exact fun h => hhi (BitVec.eq_of_toNat_eq (by simpa using h))
    rw [modredcIntmod_twoWord_iff build hw heven n d hpos]
    exact ⟨fun h _ => h, fun h => h hhi⟩

end

/-- The portable text on 64-bit words. -/
theorem modredcIntmod_iff_word64 :
    (∃ r, modredc2ul2Intmod .noAsm (⟨5#64, 7#64⟩ : TwoWord 64) ⟨3#64, 1#64⟩ = pure r ∧
      r.value = (⟨5#64, 7#64⟩ : TwoWord 64).value % (⟨3#64, 1#64⟩ : TwoWord 64).value) ↔
    ((1#64 : BitVec 64) ≠ 0#64 → IntmodFits .noAsm (⟨5#64, 7#64⟩ : TwoWord 64) ⟨3#64, 1#64⟩) :=
  (modredcIntmod_iff .noAsm (by decide) (by decide) ⟨5#64, 7#64⟩ ⟨3#64, 1#64⟩ (by decide)).1

/-- On 64-bit words `2 ^ 128 - 1` modulo `2 ^ 64 + 3` comes out as a number above
the divisor. -/
theorem modredcIntmod_overshoot :
    modredc2ul2Intmod .x86 (⟨allOnes 64, allOnes 64⟩ : TwoWord 64) ⟨3#64, 1#64⟩
        = pure ⟨5#64, allOnes 64⟩ ∧
      modredc15ulIntmod .x86 (⟨allOnes 64, allOnes 64⟩ : TwoWord 64)
        ⟨3#64, 1#64⟩ = pure ⟨5#64, allOnes 64⟩ ∧
      modredc2ul2Intmod .noAsm (⟨allOnes 64, allOnes 64⟩ : TwoWord 64)
        ⟨3#64, 1#64⟩ = pure ⟨5#64, allOnes 64⟩ ∧
      modredc15ulIntmod .noAsm (⟨allOnes 64, allOnes 64⟩ : TwoWord 64)
        ⟨3#64, 1#64⟩ = pure ⟨5#64, allOnes 64⟩ ∧
      (⟨allOnes 64, allOnes 64⟩ : TwoWord 64).value
        % (⟨3#64, 1#64⟩ : TwoWord 64).value = 8 := by
  decide +kernel

/-! ## The fallback against the assembly -/

/-- For every input, each fallback agrees with the assembly exactly as stated: the
primitives that drop the final carry always, those that return or use it unless an
all-ones high word takes a carry from below, and the conditional increment only
when it has nothing to add. -/
theorem ularith_fallback_agrees_iff (r a : TwoWord w) (u : BitVec w)
    (memory : ℕ → BitVec w) (p : ℕ) :
    ularithAddUl2ul .noAsm r u = ularithAddUl2ul .x86 r u ∧
    ularithAdd2ul2ul .noAsm r a = ularithAdd2ul2ul .x86 r a ∧
    ularithSubUl2ul .noAsm r u = ularithSubUl2ul .x86 r u ∧
    ularithSub2ul2ul .noAsm r a = ularithSub2ul2ul .x86 r a ∧
    (ularithIncNz .noAsm memory p u = ularithIncNz .x86 memory p u ↔ u = 0#w) ∧
    ((ularithIncNz .noAsm memory p u) p
        = (if u = 0#w then memory p else memory p + 1#w) ↔ u = 0#w) ∧
    (ularithAdd2ul2ulCy .noAsm r a = ularithAdd2ul2ulCy .x86 r a ↔
      ¬ (a.hi = allOnes w ∧ 2 ^ w ≤ r.lo.toNat + a.lo.toNat)) ∧
    (((ularithAdd2ul2ulCy .noAsm r a).2 = true ↔ 2 ^ w * 2 ^ w ≤ r.value + a.value) ↔
      ¬ (a.hi = allOnes w ∧ 2 ^ w ≤ r.lo.toNat + a.lo.toNat)) ∧
    (ularithSub2ul2ulCy .noAsm r a = ularithSub2ul2ulCy .x86 r a ↔
      ¬ (a.hi = allOnes w ∧ r.lo < a.lo)) ∧
    (((ularithSub2ul2ulCy .noAsm r a).2 = true ↔ r.value < a.value) ↔
      ¬ (a.hi = allOnes w ∧ r.lo < a.lo)) ∧
    (ularithSub2ul2ulGe .noAsm r a = ularithSub2ul2ulGe .x86 r a ↔
      ¬ (a.hi = allOnes w ∧ r.lo < a.lo)) ∧
    (ularithSub2ul2ulGe .noAsm r a = (if a.value ≤ r.value then (r.sub a).1 else r) ↔
      ¬ (a.hi = allOnes w ∧ r.lo < a.lo)) ∧
    ((modredc2ul2Intlt .noAsm r a = true ↔ r.value < a.value) ↔
      ¬ (a.hi = allOnes w ∧ r.lo < a.lo)) ∧
    ((modredc15ulIntlt .noAsm r a = true ↔ r.value < a.value) ↔
      ¬ (a.hi = allOnes w ∧ r.lo < a.lo)) := by
  have hcarry : CarryMissed r a
      ↔ a.hi = allOnes w ∧ 2 ^ w ≤ r.lo.toNat + a.lo.toNat := by
    simp [CarryMissed, addFlag]
  have hborrow : BorrowMissed r a ↔ a.hi = allOnes w ∧ r.lo < a.lo := by
    simp [BorrowMissed, subFlag, lt_def]
  have hlt := ularithSub2ul2ulCy_noAsm_borrow_iff r a
  rw [← hcarry, ← hborrow]
  refine ⟨?_, ?_, ?_, ?_, ularithIncNz_noAsm_eq_iff memory p u,
    ularithIncNz_noAsm_word_iff memory p u, ularithAdd2ul2ulCy_noAsm_eq_iff r a,
    ularithAdd2ul2ulCy_noAsm_carry_iff r a, ularithSub2ul2ulCy_noAsm_eq_iff r a, hlt,
    ularithSub2ul2ulGe_noAsm_eq_iff r a, ularithSub2ul2ulGe_noAsm_ite_iff r a, hlt, hlt⟩
  · rw [ularithAddUl2ul_eq, ularithAddUl2ul_eq]
  · rw [ularithAdd2ul2ul_eq, ularithAdd2ul2ul_eq]
  · rw [ularithSubUl2ul_eq, ularithSubUl2ul_eq]
  · rw [ularithSub2ul2ul_eq, ularithSub2ul2ul_eq]

/-- On 64-bit words the fallback of the carry-returning sum misses the carry of
`1 + (2 ^ 128 - 1)`, and the conditional increment by one leaves a zero
word zero. -/
theorem ularith_fallback_carry_lost :
    (ularithAdd2ul2ulCy .noAsm ⟨1#64, 0#64⟩ ⟨allOnes 64, allOnes 64⟩).2
        = false ∧
      2 ^ 64 * 2 ^ 64 ≤ (⟨1#64, 0#64⟩ : TwoWord 64).value
        + (⟨allOnes 64, allOnes 64⟩ : TwoWord 64).value ∧
      modredc2ul2Intlt .noAsm ⟨0#64, 0#64⟩ ⟨1#64, allOnes 64⟩ = false ∧
      (⟨0#64, 0#64⟩ : TwoWord 64).value < (⟨1#64, allOnes 64⟩ : TwoWord 64).value ∧
      ularithSub2ul2ulGe .noAsm ⟨0#64, 0#64⟩ ⟨1#64, allOnes 64⟩ ≠ ⟨0#64, 0#64⟩ ∧
      ularithIncNz .noAsm (fun _ => 0#64) 0 1#64 0 = 0#64 := by
  decide

end CadoNfs
