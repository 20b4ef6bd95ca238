import CadoNfs.Lib.RingOps
import CadoNfs.Utils.ModredcUl

/-!
# The one-word arithmetics as operations on residues

`mod_ul_common.c` is compiled for `mod_ul.h` and for `modredc_ul.h`.  The functions
of either header are operations that model the ring of residues.

Main results:

- Theorem `modulOps_models`: the residues are the numbers themselves.
- Theorem `modredculOps_models`: the residues are in Montgomery form.
-/

namespace CadoNfs

open WordArith WordArith.RingOps
open Nat (cast_add cast_mul cast_sub mod_lt)

variable {w : ℕ}

/-! ## Definitions -/

/-- `modul_set1`. -/
def modulSet1 (m : BitVec w) : BitVec w :=
  if m = 1#w then 0#w else 1#w

variable (build : UlarithBuild)

/-- The functions of `mod_ul.h` for a modulus. -/
def modulOps (m : BitVec w) : RingOps (BitVec w) where
  one := modulSet1 m
  neg a := modulNeg a m
  add a b := pure (modulAdd build a b m)
  sub a b := modulSub build a b m
  mul a b := modulMul build a b m
  sqr a := modulMul build a a m

/-- `modredcul_neg`. -/
def modredculNeg (a : BitVec w) (m : Modulusredcul w) : BitVec w :=
  if a = 0#w then a else m.m - a

/-- `modredcul_sub`, which has the text of `modul_sub`. -/
def modredculSub (a b : BitVec w) (m : Modulusredcul w) : BitVec w :=
  modulSub build a b m.m

/-- The assembly of `modredcul_mul` and `modredcul_sqr` after the product. -/
def modredculRedcAsm (p : TwoWord w) (m : Modulusredcul w) : Outcome (BitVec w) := do
  let rax := p.lo * m.invm
  -- cmp, sbb
  let phigh := p.hi + if rax < 1#w then 0#w else 1#w
  let q ← ularithMulUlUl2ul .x86 rax m.m
  let r := phigh + q.hi
  let phigh := phigh - m.m
  -- add, cmovc
  pure (if addFlag phigh q.hi false = true then phigh + q.hi else r)

/-- The functions of `modredc_ul.h` for a modulus. -/
def modredculOps (m : Modulusredcul w) : RingOps (BitVec w) where
  one := m.one
  neg a := modredculNeg a m
  add a b := pure (modredculAdd build a b m)
  sub a b := modredculSub build a b m
  mul a b :=
    match build with
    | .x86 => do
      let p ← ularithMulUlUl2ul .x86 a b
      modredculRedcAsm p m
    | .noAsm => modredculMul .noAsm a b m
  sqr a :=
    match build with
    | .x86 => do
      let p ← ularithSqrUl2ul .x86 a
      modredculRedcAsm p m
    | .noAsm => modredculSqr .noAsm a m

/-- A residue that is the number itself. -/
abbrev PlainResidue (N : ℕ) (x : ZMod N) (a : BitVec w) : Prop :=
  ScaledResidue N 1 x a.toNat

/-- A residue in Montgomery form of one word. -/
abbrev MontgomeryResidueUl (N : ℕ) (x : ZMod N) (a : BitVec w) : Prop :=
  ScaledResidue N ((2 ^ w : ℕ) : ZMod N) x a.toNat

/-! ## Plain residues -/

section Plain

variable {m : BitVec w}

theorem modulNeg_cast {a : BitVec w} (ha : a.toNat < m.toNat) :
    (modulNeg a m).toNat < m.toNat ∧ ((modulNeg a m).toNat : ZMod m.toNat) = -(a.toNat) := by
  rw [modulNeg_spec ha]
  refine ⟨mod_lt _ (by omega), ?_⟩
  rw [ZMod.natCast_mod, cast_sub ha.le, ZMod.natCast_self, zero_sub]

theorem modulSub_cast (build : UlarithBuild) {a b : BitVec w} (ha : a.toNat < m.toNat)
    (hb : b.toNat < m.toNat) :
    (modulSub build a b m).toNat < m.toNat ∧
      ((modulSub build a b m).toNat : ZMod m.toNat) = a.toNat - b.toNat := by
  rw [modulSub_spec build ha hb]
  refine ⟨mod_lt _ (by omega), ?_⟩
  rw [ZMod.natCast_mod, cast_add, cast_sub hb.le, ZMod.natCast_self, zero_sub, sub_eq_add_neg]

section

variable (build : UlarithBuild) (hw : 0 < w) (heven : w % 2 = 0) (hm : 0 < m.toNat)
include hw heven hm

theorem modulOps_scaled : (modulOps build m).Scaled m.toNat 1 BitVec.toNat where
  isUnit := isUnit_one
  injective := BitVec.toNat_injective
  one := by
    have hone : (1#w).toNat = 1 := toNat_const (Nat.one_lt_two_pow (by omega))
    change (modulSet1 m).toNat < m.toNat ∧ ((modulSet1 m).toNat : ZMod m.toNat) = 1
    unfold modulSet1
    split_ifs with h
    · have hmone : m.toNat = 1 := by rw [h, hone]
      refine ⟨by simpa using hm, ?_⟩
      rw [hmone]
      exact Subsingleton.elim _ _
    · have hne : m.toNat ≠ 1 := fun hmone => h (BitVec.eq_of_toNat_eq (by rw [hmone, hone]))
      exact ⟨by omega, by rw [hone, Nat.cast_one]⟩
  neg := modulNeg_cast
  add := fun {a b} ha hb => by
    have hvalue := modulAdd_spec build ha hb
    refine ⟨_, rfl, ?_, ?_⟩ <;> rw [hvalue]
    · exact mod_lt _ hm
    · rw [ZMod.natCast_mod, cast_add]
  sub := modulSub_cast build
  mul := fun {a b} ha hb => by
    obtain ⟨r, hr, hvalue⟩ := modulMul_spec build hw heven ha hb
    refine ⟨r, hr, ?_, ?_⟩ <;> rw [hvalue]
    · exact mod_lt _ hm
    · rw [ZMod.natCast_mod, cast_mul, mul_one]
  sqr := fun {a} ha => by
    obtain ⟨r, hr, hvalue⟩ := modulMul_spec build hw heven ha ha
    refine ⟨r, hr, ?_, ?_⟩ <;> rw [hvalue]
    · exact mod_lt _ hm
    · rw [ZMod.natCast_mod, cast_mul, mul_one]

/-- The functions of `mod_ul.h` model the ring of residues. -/
theorem modulOps_models : (modulOps build m).Models (PlainResidue m.toNat) :=
  (modulOps_scaled build hw heven hm).models

end

end Plain

/-! ## Residues in Montgomery form -/

section Montgomery

variable {m : Modulusredcul w}

theorem modredculRedcAsm_eq (hw : 0 < w) (hm : ValidModulusUl m) (p : TwoWord w) :
    modredculRedcAsm p m = modredculRedc .x86 p.lo p.hi m := by
  -- the product with the odd inverse is zero only if the word is
  have hzero : p.lo * m.invm < 1#w ↔ ¬p.lo ≠ 0#w := by
    have hcancel : p.lo * m.invm * m.m = -p.lo := by
      rw [BitVec.mul_assoc, hm.invm_mul, BitVec.mul_neg, BitVec.mul_one]
    have hlt : p.lo * m.invm < 1#w ↔ p.lo * m.invm = 0#w := by
      rw [BitVec.lt_def, toNat_const (Nat.one_lt_two_pow (by omega)), Nat.lt_one_iff,
        ← BitVec.toNat_inj, BitVec.toNat_zero]
    rw [hlt, not_not]
    constructor
    · intro hprod
      rw [hprod, BitVec.zero_mul] at hcancel
      simpa using hcancel.symm
    · intro hlo
      rw [hlo, BitVec.zero_mul]
  simp only [modredculRedcAsm, modredculRedc, modredculAdd, ularithMulUlUl2ul, pure_bind,
    hzero, ite_not]
  congr 1
  generalize p.hi + (if p.lo = 0#w then 0#w else 1#w) = phigh
  cases addFlag (phigh - m.m) (TwoWord.mulWide (p.lo * m.invm) m.m).hi false <;> rfl

section

variable (build : UlarithBuild) (hw : 0 < w) (heven : w % 2 = 0) (hm : ValidModulusUl m)
include hw heven hm

theorem modredculOps_scaled :
    (modredculOps build m).Scaled m.m.toNat ((2 ^ w : ℕ) : ZMod m.m.toNat) BitVec.toNat where
  isUnit := (ZMod.isUnit_iff_coprime _ _).mpr hm.coprime.symm
  injective := BitVec.toNat_injective
  one := by
    have hone := hm.one_value
    change m.one.toNat < m.m.toNat ∧ ((m.one.toNat : ℕ) : ZMod m.m.toNat) = _
    rw [hone]
    exact ⟨mod_lt _ hm.pos, ZMod.natCast_mod _ _⟩
  neg := modulNeg_cast
  add := fun {a b} ha hb => by
    have hvalue := modredculAddSemi_value build (b := b) (Or.inl ha)
    rw [← modredculAdd_eq_addSemi] at hvalue
    refine ⟨_, rfl, ?_, ?_⟩ <;> rw [hvalue] <;> split_ifs with hle
    · omega
    · omega
    · rw [cast_sub hle, cast_add, ZMod.natCast_self, sub_zero]
    · rw [cast_add]
  sub := modulSub_cast build
  mul := fun {a b} _ hb => by
    obtain ⟨r, hr, hres⟩ := modredculMul_spec build hw heven hm a hb
    refine ⟨r, ?_, hres.lt, ?_⟩
    · cases build with
      | x86 =>
        refine Eq.trans (congrArg (ularithMulUlUl2ul .x86 a b >>= ·) (funext fun p => ?_)) hr
        exact modredculRedcAsm_eq hw hm p
      | noAsm => exact hr
    · rw [← cast_mul, ← cast_mul]
      exact (ZMod.natCast_eq_natCast_iff _ _ _).mpr hres.congr
  sqr := fun {a} ha => by
    obtain ⟨r, hr, hres⟩ := modredculMul_spec build hw heven hm a ha
    rw [← modredculSqr_eq_mul] at hr
    refine ⟨r, ?_, hres.lt, ?_⟩
    · cases build with
      | x86 =>
        refine Eq.trans (congrArg (ularithSqrUl2ul .x86 a >>= ·) (funext fun p => ?_)) hr
        exact modredculRedcAsm_eq hw hm p
      | noAsm => exact hr
    · rw [← cast_mul, ← cast_mul]
      exact (ZMod.natCast_eq_natCast_iff _ _ _).mpr hres.congr

/-- The functions of `modredc_ul.h` model the ring of residues. -/
theorem modredculOps_models : (modredculOps build m).Models (MontgomeryResidueUl m.m.toNat) :=
  (modredculOps_scaled build hw heven hm).models

end

end Montgomery

end CadoNfs
