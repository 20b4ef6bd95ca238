import CadoNfs.Utils.ModredcArith

/-!
# Residues in Montgomery form

The functions of `modredc_2ul2.h` and `modredc_15ul.h` on residues, as operations on the
numbers that the residues stand for.

Main results:

- Definition `IsResidueOf`: the Montgomery form of a number.
- Theorem `IsResidueOf.eq_iff`: two residues are equal exactly if their numbers are congruent.
- Theorems `IsResidueOf.mul`, `IsResidueOf.add`, `IsResidueOf.sub`,
  `IsResidueOf.neg`: what the functions compute.
-/

namespace CadoNfs

open WordArith Redc
open TwoWord (value value_injective)

variable {w : ℕ}

/-! ## Definitions -/

section Definitions

variable (build : UlarithBuild)

/-- `modredc*_sub`: the text for x86-64 selects the modulus or zero by the borrow, the other
text compares the difference with the minuend. -/
def modredcSub (a b : TwoWord w) (m : Modulusredc w) : TwoWord w :=
  match build with
  | .x86 => ularithAdd2ul2ul build (a.sub b).1 (if (a.sub b).2 then m.m else ⟨0#w, 0#w⟩)
  | .noAsm =>
    let t := ularithSub2ul2ul build a b
    if t.hi > a.hi ∨ (t.hi = a.hi ∧ t.lo > a.lo) then ularithAdd2ul2ul build t m.m else t

/-- `modredc*_neg`. -/
def modredcNeg (a : TwoWord w) (m : Modulusredc w) : TwoWord w :=
  if a.lo = 0#w ∧ a.hi = 0#w then a else ularithSub2ul2ul build m.m a

end Definitions

/-- `modredc*_equal`. -/
def modredcEqual (a b : TwoWord w) : Bool :=
  a.lo == b.lo && a.hi == b.hi

/-- `modredc*_is1`. -/
def modredcIs1 (a : TwoWord w) (m : Modulusredc w) : Bool :=
  modredcEqual a m.one

/-! ## Comparison -/

theorem modredcEqual_iff (a b : TwoWord w) : modredcEqual a b = true ↔ a = b := by
  rw [modredcEqual, Bool.and_eq_true, beq_iff_eq, beq_iff_eq]
  exact ⟨fun h => value_injective (by rw [value, h.1, h.2, value]),
    fun h => ⟨by rw [h], by rw [h]⟩⟩

/-! ## Subtraction -/

/-- The difference is reduced, with the modulus added after a borrow. -/
theorem modredcSub_value (build : UlarithBuild) {a b : TwoWord w} {m : Modulusredc w}
    (ha : a.value < m.m.value) (hb : b.value < m.m.value) :
    (modredcSub build a b m).value < m.m.value ∧
      ((modredcSub build a b m).value + b.value = a.value ∨
        (modredcSub build a b m).value + b.value = a.value + m.m.value) := by
  have hsub := TwoWord.sub_value a b
  have hflag := TwoWord.sub_flag_iff a b
  have hbound := (a.sub b).1.value_lt
  have hadd : ∀ x : TwoWord w, ((a.sub b).1.add x).1.value
      + 2 ^ w * 2 ^ w * ((a.sub b).1.add x).2.toNat = (a.sub b).1.value + x.value :=
    fun x => TwoWord.add_value _ x
  have hmlt := m.m.value_lt
  -- without a borrow nothing is added, with a borrow the sum wraps
  have hdiff : (a.sub b).2 = false → (a.sub b).1.value + b.value = a.value := by
    intro h
    simpa [h] using hsub
  have hwrap : (a.sub b).2 = true →
      ((a.sub b).1.add m.m).1.value + b.value = a.value + m.m.value := by
    intro h
    have hx := hadd m.m
    have hxlt := ((a.sub b).1.add m.m).1.value_lt
    have hlt := hflag.mp h
    simp only [h, Bool.toNat_true, mul_one] at hsub
    rcases hc : ((a.sub b).1.add m.m).2 with - | - <;>
      simp only [hc, Bool.toNat_true, Bool.toNat_false, mul_one, mul_zero] at hx <;> omega
  have hcompare : ((a.sub b).1.hi > a.hi ∨ ((a.sub b).1.hi = a.hi ∧ (a.sub b).1.lo > a.lo))
      ↔ (a.sub b).2 = true := by
    have hlex := TwoWord.value_lt_iff a (a.sub b).1
    rw [gt_iff_lt, gt_iff_lt, BitVec.lt_def, BitVec.lt_def, ← BitVec.toNat_inj,
      eq_comm (a := (a.sub b).1.hi.toNat), ← hlex]
    cases h : (a.sub b).2 with
    | false =>
      have := hdiff h
      simp only [Bool.false_eq_true, iff_false, not_lt]
      omega
    | true =>
      simp only [h, Bool.toNat_true, mul_one] at hsub
      simp only [iff_true]
      omega
  cases build with
  | x86 =>
    cases h : (a.sub b).2 with
    | false =>
      have hzero := hadd ⟨0#w, 0#w⟩
      have hvalue : (⟨0#w, 0#w⟩ : TwoWord w).value = 0 := by simp [value]
      have hd := hdiff h
      have hxlt := ((a.sub b).1.add ⟨0#w, 0#w⟩).1.value_lt
      have hsame : ((a.sub b).1.add ⟨0#w, 0#w⟩).1.value = (a.sub b).1.value := by
        rcases hc : ((a.sub b).1.add ⟨0#w, 0#w⟩).2 with - | - <;>
          simp only [hc, Bool.toNat_true, Bool.toNat_false, mul_one, mul_zero] at hzero <;>
          omega
      simp only [modredcSub, h, Bool.false_eq_true, if_false, ularithAdd2ul2ul_eq, hsame]
      omega
    | true =>
      have := hwrap h
      have hlt := hflag.mp h
      simp only [modredcSub, h, if_true, ularithAdd2ul2ul_eq]
      omega
  | noAsm =>
    simp only [modredcSub, ularithSub2ul2ul_eq, ularithAdd2ul2ul_eq]
    by_cases h : (a.sub b).2 = true
    · rw [if_pos (hcompare.mpr h)]
      have := hwrap h
      have hlt := hflag.mp h
      omega
    · rw [if_neg (fun hc => h (hcompare.mp hc))]
      have := hdiff (Bool.eq_false_iff.mpr h)
      omega

theorem modredcNeg_value (build : UlarithBuild) {a : TwoWord w} {m : Modulusredc w}
    (ha : a.value < m.m.value) :
    (modredcNeg build a m).value < m.m.value ∧
      ((modredcNeg build a m).value + a.value = 0 ∨
        (modredcNeg build a m).value + a.value = m.m.value) := by
  unfold modredcNeg
  by_cases hzero : a.lo = 0#w ∧ a.hi = 0#w
  · have hvalue : a.value = 0 := by simp [value, hzero.1, hzero.2]
    rw [if_pos hzero]
    omega
  · have hpos : 0 < a.value := by
      refine Nat.pos_of_ne_zero fun h => hzero ?_
      have heq : a = ⟨0#w, 0#w⟩ := value_injective (by rw [h]; simp [value])
      simp [heq]
    rw [if_neg hzero, ularithSub2ul2ul_eq, (TwoWord.sub_value_of_le ha.le).1]
    omega

/-! ## What a residue stands for -/

/-- `r` is the Montgomery form of `x`. -/
structure IsResidueOf (m : Modulusredc w) (x : ℕ) (r : TwoWord w) : Prop where
  /-- The residue is reduced. -/
  lt : r.value < m.m.value
  /-- It is the number times the square of the word base. -/
  congr : r.value ≡ x * (2 ^ w * 2 ^ w) [MOD m.m.value]

namespace IsResidueOf

variable {arith : RedcArith} {m : Modulusredc w} {x y : ℕ} {a b : TwoWord w}

section

variable (hm : ValidModulus m) (ha : IsResidueOf m x a) (hb : IsResidueOf m y b)
include hm ha hb

theorem eq_iff : a = b ↔ x ≡ y [MOD m.m.value] := by
  constructor
  · rintro rfl
    exact Nat.ModEq.cancel_right_of_coprime hm.coprime (ha.congr.symm.trans hb.congr)
  · intro h
    apply value_injective
    exact (ha.congr.trans ((h.mul_right _).trans hb.congr.symm)).eq_of_lt_of_lt ha.lt hb.lt

theorem equal_iff : modredcEqual a b = true ↔ x ≡ y [MOD m.m.value] := by
  rw [← ha.eq_iff hm hb, modredcEqual, Bool.and_eq_true, beq_iff_eq, beq_iff_eq]
  constructor
  · rintro ⟨hlo, hhi⟩
    cases a
    cases b
    simp_all
  · rintro rfl
    exact ⟨rfl, rfl⟩

end

theorem one (hm : ValidModulus m) : IsResidueOf m 1 m.one := by
  refine ⟨?_, ?_⟩
  · rw [hm.one_value]
    exact Nat.mod_lt _ hm.pos
  · rw [hm.one_value, one_mul]
    exact Nat.mod_modEq _ _

theorem exists_residue (hm : ValidModulus m) (x : ℕ) : ∃ a, IsResidueOf m x a := by
  have hlt := Nat.mod_lt (x * (2 ^ w * 2 ^ w)) hm.pos
  have hfit := hlt.trans m.m.value_lt
  set v := x * (2 ^ w * 2 ^ w) % m.m.value with hv
  have hvalue : (⟨BitVec.ofNat w v, BitVec.ofNat w (v / 2 ^ w)⟩ : TwoWord w).value = v := by
    rw [value, BitVec.toNat_ofNat, BitVec.toNat_ofNat, Nat.mod_eq_of_lt (Nat.div_lt_of_lt_mul hfit)]
    exact Nat.mod_add_div v (2 ^ w)
  refine ⟨_, hvalue.symm ▸ hlt, ?_⟩
  rw [hvalue, hv]
  exact Nat.mod_modEq _ _

theorem mul (build : UlarithBuild) (hw : 2 ≤ w) (heven : w % 2 = 0) (hm : ValidRedc arith m)
    (ha : IsResidueOf m x a) (hb : IsResidueOf m y b) :
    ∃ r, modMul arith build a b m = pure r ∧ IsResidueOf m (x * y) r := by
  obtain ⟨r, hr, hres⟩ := modMul_spec build hw heven hm ha.lt hb.lt
  refine ⟨r, hr, hres.lt, ?_⟩
  refine Nat.ModEq.cancel_right_of_coprime hm.coprime (hres.congr.trans ?_)
  calc a.value * b.value ≡ x * (2 ^ w * 2 ^ w) * (y * (2 ^ w * 2 ^ w)) [MOD m.m.value] :=
        ha.congr.mul hb.congr
    _ = x * y * (2 ^ w * 2 ^ w) * (2 ^ w * 2 ^ w) := by ring

variable (build : UlarithBuild)

theorem sqr (hw : 2 ≤ w) (heven : w % 2 = 0) (hm : ValidRedc arith m) (ha : IsResidueOf m x a) :
    ∃ r, modSqr arith build a m = pure r ∧ IsResidueOf m (x * x) r := by
  rw [modSqr_eq_mul build (by omega) heven]
  exact ha.mul build hw heven hm ha

theorem add (build : UlarithBuild) (hw : 0 < w) (hm : ValidModulus m)
    (ha : IsResidueOf m x a) (hb : IsResidueOf m y b) :
    ∃ r, modredcAdd build a b m = pure r ∧ IsResidueOf m (x + y) r := by
  obtain ⟨r, hr, hrv⟩ := modredcAdd_spec build hw hm ha.lt hb.lt
  refine ⟨r, hr, ?_, ?_⟩
  · rw [hrv]
    exact Nat.mod_lt _ hm.pos
  · rw [hrv, add_mul]
    exact (Nat.mod_modEq _ _).trans (ha.congr.add hb.congr)

theorem sub {z : ℕ} (ha : IsResidueOf m x a)
    (hb : IsResidueOf m y b) (hz : z + y ≡ x [MOD m.m.value]) :
    IsResidueOf m z (modredcSub build a b m) := by
  obtain ⟨hlt, hvalue⟩ := modredcSub_value build ha.lt hb.lt
  refine ⟨hlt, hb.congr.add_right_cancel ?_⟩
  have hsum : (modredcSub build a b m).value + b.value ≡ a.value [MOD m.m.value] := by
    rcases hvalue with h | h <;> rw [h]
    exact Nat.add_mod_right _ _
  refine hsum.trans (ha.congr.trans ?_)
  rw [← add_mul]
  exact (hz.mul_right _).symm

theorem neg {z : ℕ} (ha : IsResidueOf m x a)
    (hz : z + x ≡ 0 [MOD m.m.value]) : IsResidueOf m z (modredcNeg build a m) := by
  obtain ⟨hlt, hvalue⟩ := modredcNeg_value build ha.lt
  refine ⟨hlt, ha.congr.add_right_cancel ?_⟩
  have hsum : (modredcNeg build a m).value + a.value ≡ 0 [MOD m.m.value] := by
    rcases hvalue with h | h <;> rw [h]
    exact (Nat.modEq_zero_iff_dvd.mpr dvd_rfl)
  rw [← add_mul]
  refine hsum.trans ?_
  have hmul := hz.mul_right (2 ^ w * 2 ^ w)
  rw [zero_mul] at hmul
  exact hmul.symm

end IsResidueOf

end CadoNfs
