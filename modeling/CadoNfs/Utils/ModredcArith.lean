import CadoNfs.Utils.Modredc15ul

/-!
# The two-word arithmetics under one name

The files `modredc_2ul_common.c`, `modredc_2ul2.c` and `modredc_15ul.c` are
compiled with one of two headers, or have the same text for both.  The functions that they call
are dispatched here.

Main results:

- Theorem `modInitmodUls_spec`: initialisation accepts every odd modulus in range.
- Theorems `modRedc1_spec`, `modGetUls_spec`, `modMul_spec`: a reduction step, the
  conversion and the product.
-/

namespace CadoNfs

open WordArith Redc

variable {w : ℕ}

/-! ## Definitions -/

/-- The header of the two-word arithmetic. -/
inductive RedcArith where
  | modredc15ul
  | modredc2ul2
  deriving DecidableEq, Repr

/-- The modulus has at most that many bits. -/
def RedcArith.bits (arith : RedcArith) (w : ℕ) : ℕ :=
  match arith with
  | .modredc15ul => w + w / 2
  | .modredc2ul2 => 2 * w - 2

section Definitions

variable (arith : RedcArith) (build : UlarithBuild)

/-- `mod_initmod_uls`. -/
def modInitmodUls (s : TwoWord w) : Outcome (Modulusredc w) :=
  match arith with
  | .modredc15ul => modredc15ulInitmodUls build s
  | .modredc2ul2 => modredc2ul2InitmodUls build s

/-- `modredc*_redc1`. -/
def modRedc1 (s : TwoWord w) (m : Modulusredc w) : Outcome (TwoWord w) :=
  match arith with
  | .modredc15ul => modredc15ulRedc1 build s m
  | .modredc2ul2 => modredc2ul2Redc1 build s m

/-- `mod_get_uls`. -/
def modGetUls (s : TwoWord w) (m : Modulusredc w) : Outcome (TwoWord w) :=
  match arith with
  | .modredc15ul => modredc15ulGetUls build s m
  | .modredc2ul2 => modredc2ul2GetUls build s m

/-- `mod_mul`. -/
def modMul (a b : TwoWord w) (m : Modulusredc w) : Outcome (TwoWord w) :=
  match arith with
  | .modredc15ul => modredc15ulMul build a b m
  | .modredc2ul2 => modredc2ul2Mul build a b m

/-- `mod_sqr`. -/
def modSqr (a : TwoWord w) (m : Modulusredc w) : Outcome (TwoWord w) :=
  match arith with
  | .modredc15ul => modredc15ulSqr build a m
  | .modredc2ul2 => modredc2ul2Sqr build a m

end Definitions

/-- A modulus that the header has initialised. -/
structure ValidRedc (arith : RedcArith) (m : Modulusredc w) : Prop extends ValidModulus m where
  /-- The modulus is in range. -/
  lt_bits : m.m.value < 2 ^ arith.bits w

/-! ## What the functions compute -/

section Specs

variable {arith : RedcArith} {m : Modulusredc w} {s a b : TwoWord w} (build : UlarithBuild)

/-- Initialisation accepts every odd modulus in range. -/
theorem modInitmodUls_spec (hw : w = 32 ∨ w = 64)
    (hodd : s.value % 2 = 1) (hlow : 2 ^ w ≤ s.value) (hhigh : s.value < 2 ^ arith.bits w) :
    ∃ m, modInitmodUls arith build s = pure m ∧ m.m = s ∧ ValidRedc arith m := by
  have hhi : s.hi.toNat < 2 ^ (arith.bits w - w) := by
    apply hi_lt_of_value_lt
    rw [← pow_add, Nat.add_sub_cancel' (by cases arith <;> simp only [RedcArith.bits] <;> omega)]
    exact hhigh
  cases arith with
  | modredc15ul =>
    rw [RedcArith.bits, Nat.add_sub_cancel_left] at hhi
    obtain ⟨m, hinit, rfl, hm⟩ := modredcInitmodUls_spec build hw (by omega) hodd
      (hi_pos_of_le_value hlow) hhi
    exact ⟨m, hinit, rfl, hm, hhigh⟩
  | modredc2ul2 =>
    rw [RedcArith.bits, show 2 * w - 2 - w = w - 2 by omega] at hhi
    obtain ⟨m, hinit, rfl, hm⟩ := modredcInitmodUls_spec build hw le_rfl hodd
      (hi_pos_of_le_value hlow) hhi
    exact ⟨m, hinit, rfl, hm, hhigh⟩

section

variable (hpos : 0 < w) (heven : w % 2 = 0) (hm : ValidRedc arith m) (hs : s.value < m.m.value)
include hpos heven hm hs

/-- A one-word reduction divides by the word base. -/
theorem modRedc1_spec : ∃ r, modRedc1 arith build s m = pure r ∧
      IsMontgomeryResidue (2 ^ w) m.m.value s.value r.value := by
  have hrun : ∃ r, modRedc1 arith build s m = pure r ∧
      2 ^ w * r.value = s.value + (s.lo * m.invm).toNat * m.m.value := by
    cases arith with
    | modredc15ul => exact modredc15ulRedc1_spec build hpos heven hm.toValidModulus s
    | modredc2ul2 => exact modredc2ul2Redc1_spec build hpos heven hm.toValidModulus s
  obtain ⟨r, hr, hrv⟩ := hrun
  exact ⟨r, hr, IsMontgomeryResidue.of_lt
    ((Nat.coprime_two_right.mpr (Nat.odd_iff.mpr hm.odd)).pow_right w)
    (redc_lt hs (s.lo * m.invm).isLt hrv) (congr_of_eq_add_mul hrv)⟩

/-- The conversion out of Montgomery form divides by the square of the word base. -/
theorem modGetUls_spec : ∃ r, modGetUls arith build s m = pure r ∧
      IsMontgomeryResidue (2 ^ w * 2 ^ w) m.m.value s.value r.value := by
  cases arith with
  | modredc15ul => exact modredc15ulFrommontgomery_spec build hpos heven hm.toValidModulus hs
  | modredc2ul2 => exact modredc2ul2Frommontgomery_spec build hpos heven hm.toValidModulus hs

end

/-- The product of residues is the reduced Montgomery product. -/
theorem modMul_spec (hw : 2 ≤ w) (heven : w % 2 = 0)
    (hm : ValidRedc arith m) (ha : a.value < m.m.value) (hb : b.value < m.m.value) :
    ∃ r, modMul arith build a b m = pure r ∧
      IsMontgomeryResidue (2 ^ w * 2 ^ w) m.m.value (a.value * b.value) r.value := by
  cases arith with
  | modredc15ul =>
    refine modredc15ulMul_spec build hw heven hm.toValidModulus (hi_lt_of_value_lt ?_) ha hb
    rw [← pow_add]
    exact hm.lt_bits
  | modredc2ul2 => exact modredc2ul2Mul_spec build hw heven hm.toValidModulus ha hb

theorem modSqr_eq_mul (hpos : 0 < w) (heven : w % 2 = 0) :
    modSqr arith build a m = modMul arith build a a m := by
  cases arith with
  | modredc15ul => exact modredc15ulSqr_eq_mul build hpos heven a m
  | modredc2ul2 => exact modredc2ul2Sqr_eq_mul build hpos heven a m

end Specs

end CadoNfs
