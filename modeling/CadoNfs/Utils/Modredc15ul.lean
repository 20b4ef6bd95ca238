import CadoNfs.Utils.Modredc2ul2

/-!
# Montgomery arithmetic for moduli of up to one and a half words

The portable C text of `modredc_15ul.h`: conversion out of Montgomery form,
product and square.  The text relies on the high words being below half a word
base: their product is taken in one word.

Main results:

- Theorem `modredc15ulFrommontgomery_spec`: the two reduction steps written in
  line give the reduced residue.
- Theorem `modredc15ulMul_spec`: the product is the reduced Montgomery product
  and no addition drops a carry.
- Theorem `modredc15ul_correct`: initialisation, product, square and conversion
  together.
-/

namespace CadoNfs

open WordArith Redc
open TwoWord (mulWide mulWide_value value)

variable {w : ℕ}

/-! ## Definitions -/

section Definitions

variable (build : UlarithBuild) (s : TwoWord w)

/-- `modredc15ul_initmod_uls`. -/
def modredc15ulInitmodUls : Outcome (Modulusredc w) :=
  modredcInitmodUls build (w / 2) s

/-- `modredc15ul_add`. -/
def modredc15ulAdd (a b : TwoWord w) (m : Modulusredc w) : Outcome (TwoWord w) :=
  modredcAdd build a b m

variable (m : Modulusredc w)

/-- `modredc15ul_tomontgomery`. -/
def modredc15ulTomontgomery : Outcome (TwoWord w) :=
  modredcTomontgomery build s m

/-- `modredc15ul_redc1`: a one-word reduction. -/
def modredc15ulRedc1 : Outcome (TwoWord w) := do
  let k := s.lo * m.invm
  let t01 ← ularithMulUlUl2ul build k m.m.lo
  let t1 ← tracedIncIf (t01.lo ≠ 0#w) t01.hi
  let t12 ← tracedAddUl2ul build ⟨t1, 0#w⟩ s.hi
  let t03 ← ularithMulUlUl2ul build k m.m.hi
  tracedAdd2ul2ul build t12 t03

/-- `modredc15ul_frommontgomery`: two reduction steps in line. -/
def modredc15ulFrommontgomery : Outcome (TwoWord w) := do
  let k := s.lo * m.invm
  let t01 ← ularithMulUlUl2ul build k m.m.lo
  let t1 ← tracedIncIf (t01.lo ≠ 0#w) t01.hi
  let t12 ← tracedAddUl2ul build ⟨t1, 0#w⟩ s.hi
  let t04 ← ularithMulUlUl2ul build k m.m.hi
  let t12 ← tracedAdd2ul2ul build t12 t04
  -- here t2:t1:0 = s + k*m
  let k := t12.lo * m.invm
  let t04 ← ularithMulUlUl2ul build k m.m.lo
  let t4 ← tracedIncIf (t04.lo ≠ 0#w) t04.hi
  let t23 ← tracedAddUl2ul build ⟨t12.hi, 0#w⟩ t4
  let t04 ← ularithMulUlUl2ul build k m.m.hi
  tracedAdd2ul2ul build t23 t04

/-- `modredc15ul_get_uls`. -/
def modredc15ulGetUls : Outcome (TwoWord w) :=
  modredc15ulFrommontgomery build s m

/-- The portable `modredc15ul_mul`. -/
def modredc15ulMul (a b : TwoWord w) (m : Modulusredc w) : Outcome (TwoWord w) := do
  -- product of the two low words
  let t01 ← ularithMulUlUl2ul build a.lo b.lo
  -- one REDC step
  let k := t01.lo * m.invm
  let p ← ularithMulUlUl2ul build k m.m.lo
  let ph ← tracedIncIf (p.lo ≠ 0#w) p.hi
  let t12 ← tracedAddUl2ul build ⟨t01.hi, 0#w⟩ ph
  let p ← ularithMulUlUl2ul build k m.m.hi
  let t12 ← tracedAdd2ul2ul build t12 p
  -- products of one low and one high word
  let p ← ularithMulUlUl2ul build a.hi b.lo
  let t12 ← tracedAdd2ul2ul build t12 p
  let p ← ularithMulUlUl2ul build a.lo b.hi
  let t12 ← tracedAdd2ul2ul build t12 p
  let pl := a.hi * b.hi
  let t23 ← tracedAddUl2ul build ⟨t12.hi, 0#w⟩ pl
  let k := t12.lo * m.invm
  let p ← ularithMulUlUl2ul build k m.m.lo
  let ph ← tracedIncIf (p.lo ≠ 0#w) p.hi
  let t23 ← tracedAddUl2ul build t23 ph
  let p ← ularithMulUlUl2ul build k m.m.hi
  let t23 ← tracedAdd2ul2ul build t23 p
  pure (ularithSub2ul2ulGe build t23 m.m)

/-- The portable `modredc15ul_sqr`. -/
def modredc15ulSqr (a : TwoWord w) (m : Modulusredc w) : Outcome (TwoWord w) := do
  -- square of low word
  let t01 ← ularithMulUlUl2ul build a.lo a.lo
  -- one REDC step
  let k := t01.lo * m.invm
  let p ← ularithMulUlUl2ul build k m.m.lo
  let ph ← tracedIncIf (p.lo ≠ 0#w) p.hi
  let t12 ← tracedAddUl2ul build ⟨t01.hi, 0#w⟩ ph
  let p ← ularithMulUlUl2ul build k m.m.hi
  let t12 ← tracedAdd2ul2ul build t12 p
  -- product of low and high word
  let p ← ularithMulUlUl2ul build a.hi a.lo
  let t12 ← tracedAdd2ul2ul build t12 p
  let t12 ← tracedAdd2ul2ul build t12 p
  -- square of high word
  let pl := a.hi * a.hi
  let t23 ← tracedAddUl2ul build ⟨t12.hi, 0#w⟩ pl
  let k := t12.lo * m.invm
  let p ← ularithMulUlUl2ul build k m.m.lo
  let ph ← tracedIncIf (p.lo ≠ 0#w) p.hi
  let t23 ← tracedAddUl2ul build t23 ph
  let p ← ularithMulUlUl2ul build k m.m.hi
  let t23 ← tracedAdd2ul2ul build t23 p
  pure (ularithSub2ul2ulGe build t23 m.m)

end Definitions

/-! ## One reduction step, in line -/

theorem mulWide_lo_ne_zero_iff {m : Modulusredc w} (hm : ValidModulus m) (s : BitVec w) :
    (mulWide (s * m.invm) m.m.lo).lo ≠ 0#w ↔ s ≠ 0#w := by
  rw [mulWide_lo, mul_invm_mul_lo hm]
  simp

variable (build : UlarithBuild)

section

variable (hpos : 0 < w) (heven : w % 2 = 0) {m : Modulusredc w} (hm : ValidModulus m)
include hpos heven hm

theorem modredc15ulRedc1_spec (s : TwoWord w) : ∃ r, modredc15ulRedc1 build s m = pure r ∧
      2 ^ w * r.value = s.value + (s.lo * m.invm).toNat * m.m.value := by
  obtain ⟨h, t, r, hh, ⟨ht, -⟩, hr, hrv⟩ := redcStep_spec build hpos hm s
    (mulWide_lo_ne_zero_iff hm s.lo)
  refine ⟨r, ?_, hrv⟩
  simp [modredc15ulRedc1, ularithMulUlUl2ul_eq build hpos heven, hh, ht, hr]

/-- The conversion out of Montgomery form divides by the word base squared and
reduces. -/
theorem modredc15ulFrommontgomery_spec {s : TwoWord w} (hs : s.value < m.m.value) :
    ∃ r, modredc15ulFrommontgomery build s m = pure r ∧
      IsMontgomeryResidue (2 ^ w * 2 ^ w) m.m.value s.value r.value := by
  obtain ⟨h, t, u, hh, ⟨ht, -⟩, hu, huv⟩ := redcStep_spec build hpos hm s
    (mulWide_lo_ne_zero_iff hm s.lo)
  obtain ⟨h', t', r, hh', ⟨-, ht'⟩, hr, hrv⟩ := redcStep_spec build hpos hm u
    (mulWide_lo_ne_zero_iff hm u.lo)
  have hult := redc_lt hs (s.lo * m.invm).isLt huv
  have hrlt := redc_lt hult (u.lo * m.invm).isLt hrv
  refine ⟨r, ?_, ?_⟩
  · simp [modredc15ulFrommontgomery, ularithMulUlUl2ul_eq build hpos heven, hh, ht, hu, hh', ht',
      hr]
  · apply IsMontgomeryResidue.of_lt hm.coprime hrlt
    have htotal : 2 ^ w * 2 ^ w * r.value = s.value
        + ((s.lo * m.invm).toNat + 2 ^ w * (u.lo * m.invm).toNat) * m.m.value := by
      rw [mul_assoc, hrv, mul_add, huv]
      ring
    exact congr_of_eq_add_mul htotal

end

/-! ## Product and square -/

theorem hi_mul_hi_toNat {m a b : TwoWord w} (heven : w % 2 = 0)
    (hhalf : m.hi.toNat < 2 ^ (w / 2)) (ha : a.value < m.value) (hb : b.value < m.value) :
    (a.hi * b.hi).toNat = a.hi.toNat * b.hi.toNat := by
  have hle : ∀ c : TwoWord w, c.value < m.value → c.hi.toNat < 2 ^ (w / 2) := by
    intro c hc
    rw [← TwoWord.value_div] at hhalf ⊢
    exact (Nat.div_le_div_right hc.le).trans_lt hhalf
  exact toNat_mul_of_half (by omega) (hle a ha) (hle b hb)

/-- The product of residues is the reduced Montgomery product, and no addition drops
a carry. -/
theorem modredc15ulMul_spec (hw : 2 ≤ w) (heven : w % 2 = 0)
    {m : Modulusredc w} (hm : ValidModulus m) (hhalf : m.m.hi.toNat < 2 ^ (w / 2))
    {a b : TwoWord w} (ha : a.value < m.m.value) (hb : b.value < m.m.value) :
    ∃ r, modredc15ulMul build a b m = pure r ∧
      IsMontgomeryResidue (2 ^ w * 2 ^ w) m.m.value (a.value * b.value) r.value := by
  have hpos : 0 < w := by omega
  obtain ⟨h₀, t₀, t, hh₀, ⟨-, ht₀⟩, ht, htv⟩ := redcStep_spec build hpos hm
    (mulWide a.lo b.lo) (mulWide_lo_ne_zero_iff hm _)
  rw [mulWide_value] at htv
  obtain ⟨u, v, h, x, y, z, hu, hv, hh, hx, hy, hz, hres⟩ := redcProduct_spec build hw hm ha hb htv
    _ (mulWide_lo_ne_zero_iff hm) (p := a.hi * b.hi) (q := 0#w) fun x => by
      rw [hi_mul_hi_toNat heven hhalf ha hb]
      simp [value]
  refine ⟨_, ?_, hres⟩
  simp [modredc15ulMul, ularithMulUlUl2ul_eq build hpos heven, hh₀, ht₀, ht, hu, hv, hx, hh, hy, hz]

theorem modredc15ulSqr_eq_mul (hpos : 0 < w) (heven : w % 2 = 0)
    (a : TwoWord w) (m : Modulusredc w) :
    modredc15ulSqr build a m = modredc15ulMul build a a m := by
  simp [modredc15ulSqr, modredc15ulMul, ularithMulUlUl2ul_eq build hpos heven,
    mulWide_comm a.lo a.hi]

/-! ## The whole life of a modulus -/

/-- For both word sizes and every odd modulus in range: initialisation succeeds with
the right residue one, product and square of residues are the unique reduced
Montgomery product without a dropped carry, and the conversion out of Montgomery form
gives the unique reduced quotient by the word base squared. -/
theorem modredc15ul_correct (hw : w = 32 ∨ w = 64) {s : TwoWord w}
    (hodd : s.value % 2 = 1) (hlow : 2 ^ w ≤ s.value) (hhigh : s.value < 2 ^ (w + w / 2)) :
    ∃ m, modredc15ulInitmodUls build s = pure m ∧ m.m = s ∧
      m.one.value = 2 ^ (2 * w) % s.value ∧
      (∀ a b : TwoWord w, a.value < s.value → b.value < s.value →
        ∃ r, modredc15ulMul build a b m = pure r ∧
          IsMontgomeryResidue (2 ^ (2 * w)) s.value (a.value * b.value) r.value) ∧
      (∀ a : TwoWord w, a.value < s.value →
        ∃ r, modredc15ulSqr build a m = pure r ∧
          IsMontgomeryResidue (2 ^ (2 * w)) s.value (a.value * a.value) r.value) ∧
      (∀ x : TwoWord w, x.value < s.value →
        ∃ r, modredc15ulFrommontgomery build x m = pure r ∧
          IsMontgomeryResidue (2 ^ (2 * w)) s.value x.value r.value) := by
  have hpos : 0 < w := by omega
  have heven : w % 2 = 0 := by omega
  have hbase : (2 : ℕ) ^ (2 * w) = 2 ^ w * 2 ^ w := by rw [← pow_add]; congr 1; omega
  have hhalf : s.hi.toNat < 2 ^ (w / 2) := by
    apply hi_lt_of_value_lt
    rw [← pow_add]
    exact hhigh
  obtain ⟨m, hinit, hms, hm⟩ := modredcInitmodUls_spec build hw (by omega) hodd
    (hi_pos_of_le_value hlow) hhalf
  subst hms
  have hmul : ∀ a b : TwoWord w, a.value < m.m.value → b.value < m.m.value →
      ∃ r, modredc15ulMul build a b m = pure r ∧
        IsMontgomeryResidue (2 ^ (2 * w)) m.m.value (a.value * b.value) r.value := by
    intro a b ha hb
    rw [hbase]
    exact modredc15ulMul_spec build (by omega) heven hm hhalf ha hb
  refine ⟨m, hinit, rfl, by rw [hbase]; exact hm.one_value, hmul, ?_, ?_⟩
  · intro a ha
    rw [modredc15ulSqr_eq_mul build hpos heven]
    exact hmul a a ha ha
  · intro x hx
    rw [hbase]
    exact modredc15ulFrommontgomery_spec build hpos heven hm hx

/-- The portable text for 32-bit words at the modulus `2 ^ 47 + 5`. -/
theorem modredc15ul_correct_word32 :
    ∃ m, modredc15ulInitmodUls .noAsm (⟨5#32, 32768#32⟩ : TwoWord 32) = pure m ∧
      ∃ r, modredc15ulMul .noAsm ⟨5#32, 0#32⟩ ⟨7#32, 1#32⟩ m = pure r ∧
        IsMontgomeryResidue (2 ^ 64) (2 ^ 47 + 5) (5 * (2 ^ 32 + 7)) r.value := by
  obtain ⟨m, hinit, -, -, hmul, -, -⟩ :=
    modredc15ul_correct .noAsm (Or.inl rfl) (s := (⟨5#32, 32768#32⟩ : TwoWord 32))
      (by decide) (by decide) (by decide)
  exact ⟨m, hinit, hmul ⟨5#32, 0#32⟩ ⟨7#32, 1#32⟩ (by decide) (by decide)⟩

end CadoNfs
