import CadoNfs.Lib.RingOps
import CadoNfs.Utils.ModredcResidue

/-!
# The two-word arithmetic as operations on residues

`modredc_2ul_common.c` is compiled for `modredc_15ul.h` and for `modredc_2ul2.h`.
The functions of either header are operations that model the ring of residues.

Main results:

- Theorem `isResidueOf_iff`: the Montgomery form of a number as a scaled residue.
- Theorem `modredcOps_models`: the operations model the ring.
-/

namespace CadoNfs

open WordArith WordArith.RingOps Redc

variable {w : ℕ}

/-- The functions of a two-word header for a modulus. -/
def modredcOps (arith : RedcArith) (build : UlarithBuild) (m : Modulusredc w) :
    RingOps (TwoWord w) where
  one := m.one
  neg a := modredcNeg build a m
  add a b := modredcAdd build a b m
  sub a b := modredcSub build a b m
  mul a b := modMul arith build a b m
  sqr a := modSqr arith build a m

/-- A residue in Montgomery form of two words. -/
abbrev MontgomeryResidue (N : ℕ) (x : ZMod N) (a : TwoWord w) : Prop :=
  ScaledResidue N ((2 ^ w * 2 ^ w : ℕ) : ZMod N) x a.value

section Models

variable {arith : RedcArith} {m : Modulusredc w} {x : ℕ} {r : TwoWord w}

/-- The Montgomery form of a number is its multiple by the square of the word base. -/
theorem isResidueOf_iff : IsResidueOf m x r ↔ MontgomeryResidue m.m.value x r := by
  constructor
  · rintro ⟨hlt, hcongr⟩
    exact ⟨hlt, by rw [← Nat.cast_mul]; exact (ZMod.natCast_eq_natCast_iff _ _ _).mpr hcongr⟩
  · rintro ⟨hlt, hcast⟩
    rw [← Nat.cast_mul] at hcast
    exact ⟨hlt, (ZMod.natCast_eq_natCast_iff _ _ _).mp hcast⟩

section

variable (build : UlarithBuild) (hw : 2 ≤ w) (heven : w % 2 = 0) (hm : ValidRedc arith m)
include hw heven hm

theorem modredcOps_scaled :
    (modredcOps arith build m).Scaled m.m.value ((2 ^ w * 2 ^ w : ℕ) : ZMod m.m.value)
      TwoWord.value where
  isUnit := (ZMod.isUnit_iff_coprime _ _).mpr hm.coprime.symm
  injective := TwoWord.value_injective
  one := by
    have hone := hm.one_value
    refine ⟨?_, ?_⟩
    · change m.one.value < m.m.value
      rw [hone]
      exact Nat.mod_lt _ hm.pos
    · change ((m.one.value : ℕ) : ZMod m.m.value) = _
      rw [hone, ZMod.natCast_mod]
  neg := fun {a} ha => by
    obtain ⟨hlt, hvalue⟩ := modredcNeg_value build ha
    refine ⟨hlt, eq_neg_of_add_eq_zero_left ?_⟩
    change ((modredcNeg build a m).value : ZMod m.m.value) + a.value = 0
    rw [← Nat.cast_add]
    rcases hvalue with h | h <;> rw [h]
    · exact Nat.cast_zero
    · exact ZMod.natCast_self _
  add := fun {a b} ha hb => by
    obtain ⟨r, hr, hvalue⟩ := modredcAdd_spec build (by omega) hm.toValidModulus ha hb
    refine ⟨r, hr, ?_, ?_⟩ <;> rw [hvalue]
    · exact Nat.mod_lt _ hm.pos
    · rw [ZMod.natCast_mod, Nat.cast_add]
  sub := fun {a b} ha hb => by
    obtain ⟨hlt, hvalue⟩ := modredcSub_value build ha hb
    refine ⟨hlt, eq_sub_of_add_eq ?_⟩
    change ((modredcSub build a b m).value : ZMod m.m.value) + b.value = a.value
    rw [← Nat.cast_add]
    rcases hvalue with h | h <;> rw [h]
    rw [Nat.cast_add, ZMod.natCast_self, add_zero]
  mul := fun {a b} ha hb => by
    obtain ⟨r, hr, hres⟩ := modMul_spec build hw heven hm ha hb
    refine ⟨r, hr, hres.lt, ?_⟩
    rw [← Nat.cast_mul, ← Nat.cast_mul]
    exact (ZMod.natCast_eq_natCast_iff _ _ _).mpr hres.congr
  sqr := fun {a} ha => by
    obtain ⟨r, hr, hres⟩ := modMul_spec build hw heven hm ha ha
    refine ⟨r, (modSqr_eq_mul build (by omega) heven).trans hr, hres.lt, ?_⟩
    rw [← Nat.cast_mul, ← Nat.cast_mul]
    exact (ZMod.natCast_eq_natCast_iff _ _ _).mpr hres.congr

/-- The functions model the ring of residues. -/
theorem modredcOps_models : (modredcOps arith build m).Models (MontgomeryResidue m.m.value) :=
  (modredcOps_scaled build hw heven hm).models

end

end Models

end CadoNfs
