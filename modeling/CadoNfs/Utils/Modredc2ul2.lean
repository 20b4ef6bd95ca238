import CadoNfs.Utils.Modredc

/-!
# Montgomery arithmetic for moduli of up to two words minus two bits

The portable C text of `modredc_2ul2.h`: reduction by one word, conversion out
of Montgomery form, product and square.  Every addition is recorded with the carry
it drops.

Main results:

- Theorem `modredc2ul2Redc1_spec`: one reduction step is exact for every
  two-word number.
- Theorem `modredc2ul2Mul_spec`: the product is the reduced Montgomery product
  and no addition drops a carry.
- Theorem `modredc2ul2_correct`: initialisation, product, square and the round
  trip through Montgomery form together.
-/

namespace CadoNfs

open WordArith Redc
open TwoWord (mulWide mulWide_value value value_div)

variable {w : ℕ}

/-! ## Definitions -/

section Definitions

variable (build : UlarithBuild) (s : TwoWord w)

/-- `modredc2ul2_initmod_uls`. -/
def modredc2ul2InitmodUls : Outcome (Modulusredc w) :=
  modredcInitmodUls build (w - 2) s

/-- `modredc2ul2_add`. -/
def modredc2ul2Add (a b : TwoWord w) (m : Modulusredc w) : Outcome (TwoWord w) :=
  modredcAdd build a b m

variable (m : Modulusredc w)

/-- `modredc2ul2_tomontgomery`. -/
def modredc2ul2Tomontgomery : Outcome (TwoWord w) :=
  modredcTomontgomery build s m

/-- `modredc2ul2_redc1`: a one-word reduction. -/
def modredc2ul2Redc1 : Outcome (TwoWord w) := do
  let k := s.lo * m.invm
  let t01 ← ularithMulUlUl2ul build k m.m.lo
  let t1 ← tracedIncIf (s.lo ≠ 0#w) t01.hi
  let t12 ← tracedAddUl2ul build ⟨t1, 0#w⟩ s.hi
  let t03 ← ularithMulUlUl2ul build k m.m.hi
  tracedAdd2ul2ul build t12 t03

/-- `modredc2ul2_frommontgomery`: two one-word reductions. -/
def modredc2ul2Frommontgomery : Outcome (TwoWord w) := do
  let t ← modredc2ul2Redc1 build s m
  modredc2ul2Redc1 build t m

/-- `modredc2ul2_get_uls`. -/
def modredc2ul2GetUls : Outcome (TwoWord w) :=
  modredc2ul2Frommontgomery build s m

/-- The portable `modredc2ul2_mul`. -/
def modredc2ul2Mul (a b : TwoWord w) (m : Modulusredc w) : Outcome (TwoWord w) := do
  -- product of the two low words, one REDC step
  let t ← ularithMulUlUl2ul build a.lo b.lo
  let t ← modredc2ul2Redc1 build t m
  -- products of one low and one high word
  let p ← ularithMulUlUl2ul build a.hi b.lo
  let t ← tracedAdd2ul2ul build t p
  let p ← ularithMulUlUl2ul build a.lo b.hi
  let t ← tracedAdd2ul2ul build t p
  -- product of the two high words
  let p ← ularithMulUlUl2ul build a.hi b.hi
  let t12 ← tracedAddUl2ul build ⟨t.hi, p.hi⟩ p.lo
  -- t2:t1:t0 := t2:t1:t0 + km
  let k := t.lo * m.invm
  let p ← ularithMulUlUl2ul build k m.m.lo
  let ph ← tracedIncIf (t.lo ≠ 0#w) p.hi
  let t12 ← tracedAddUl2ul build t12 ph
  let p ← ularithMulUlUl2ul build k m.m.hi
  let t12 ← tracedAdd2ul2ul build t12 p
  pure (ularithSub2ul2ulGe build t12 m.m)

/-- The portable `modredc2ul2_sqr`. -/
def modredc2ul2Sqr (a : TwoWord w) (m : Modulusredc w) : Outcome (TwoWord w) := do
  -- square of the low word, one REDC step
  let t ← ularithMulUlUl2ul build a.lo a.lo
  let t ← modredc2ul2Redc1 build t m
  -- products of low and high word
  let p ← ularithMulUlUl2ul build a.hi a.lo
  let t ← tracedAdd2ul2ul build t p
  let t ← tracedAdd2ul2ul build t p
  -- square of the high word
  let p ← ularithMulUlUl2ul build a.hi a.hi
  let t12 ← tracedAddUl2ul build ⟨t.hi, p.hi⟩ p.lo
  -- t2:t1:t0 := t2:t1:t0 + km
  let k := t.lo * m.invm
  let p ← ularithMulUlUl2ul build k m.m.lo
  let ph ← tracedIncIf (t.lo ≠ 0#w) p.hi
  let t12 ← tracedAddUl2ul build t12 ph
  let p ← ularithMulUlUl2ul build k m.m.hi
  let t12 ← tracedAdd2ul2ul build t12 p
  pure (ularithSub2ul2ulGe build t12 m.m)

end Definitions

/-! ## One reduction step -/

variable (build : UlarithBuild)

/-- The words that a reduction step adds up: the carried low product, the other word and
the high product.  The sources test either low word for the carry and start the sum from
either word. -/
theorem redcStep_spec (hpos : 0 < w) {m : Modulusredc w} (hm : ValidModulus m) (s : TwoWord w)
    {c : Prop} [Decidable c] (hc : c ↔ s.lo ≠ 0#w) :
    ∃ h t r, tracedIncIf c (mulWide (s.lo * m.invm) m.m.lo).hi = pure h ∧
      (tracedAddUl2ul build ⟨h, 0#w⟩ s.hi = pure t ∧
        tracedAddUl2ul build ⟨s.hi, 0#w⟩ h = pure t) ∧
      tracedAdd2ul2ul build t (mulWide (s.lo * m.invm) m.m.hi) = pure r ∧
      2 ^ w * r.value = s.value + (s.lo * m.invm).toNat * m.m.value := by
  obtain ⟨h, hh, hhv⟩ := redcLow_spec hpos hm s.lo hc
  have hsum := word_sum_lt h.isLt s.hi.isLt (s.lo * m.invm).isLt m.m.hi.isLt
  have hword : ∀ x : BitVec w, (⟨x, 0#w⟩ : TwoWord w).value = x.toNat := by
    intro x
    simp [value]
  have hprod := mulWide_value (s.lo * m.invm) m.m.hi
  obtain ⟨t, ht, htv⟩ := tracedAddUl2ul_of_lt build
    (show (⟨h, 0#w⟩ : TwoWord w).value + s.hi.toNat < 2 ^ w * 2 ^ w by rw [hword]; omega)
  obtain ⟨t', ht', htv'⟩ := tracedAddUl2ul_of_lt build
    (show (⟨s.hi, 0#w⟩ : TwoWord w).value + h.toNat < 2 ^ w * 2 ^ w by rw [hword]; omega)
  rw [hword] at htv htv'
  have htt : t' = t := TwoWord.value_injective (by omega)
  subst htt
  obtain ⟨r, hr, hrv⟩ := tracedAdd2ul2ul_of_lt build
    (show t'.value + (mulWide (s.lo * m.invm) m.m.hi).value < 2 ^ w * 2 ^ w by
      omega)
  refine ⟨h, t', r, hh, ⟨ht, ht'⟩, hr, ?_⟩
  rw [hrv, htv, hprod]
  calc 2 ^ w * (h.toNat + s.hi.toNat + (s.lo * m.invm).toNat * m.m.hi.toNat)
      = 2 ^ w * h.toNat + 2 ^ w * s.hi.toNat
        + 2 ^ w * ((s.lo * m.invm).toNat * m.m.hi.toNat) := by ring
    _ = s.value + (s.lo * m.invm).toNat * m.m.value := by
      rw [hhv]; unfold value; ring

section

variable (hpos : 0 < w) (heven : w % 2 = 0) {m : Modulusredc w} (hm : ValidModulus m)
include hpos heven hm

/-- A one-word reduction is exact for every two-word number: the additions fit, and
the result is the number plus a multiple of the modulus, divided by the word
base. -/
theorem modredc2ul2Redc1_spec (s : TwoWord w) : ∃ r, modredc2ul2Redc1 build s m = pure r ∧
      2 ^ w * r.value = s.value + (s.lo * m.invm).toNat * m.m.value := by
  obtain ⟨h, t, r, hh, ⟨ht, -⟩, hr, hrv⟩ := redcStep_spec build hpos hm s (c := s.lo ≠ 0#w) Iff.rfl
  refine ⟨r, ?_, hrv⟩
  simp [modredc2ul2Redc1, ularithMulUlUl2ul_eq build hpos heven, hh, ht, hr]

theorem modredc2ul2Frommontgomery_spec {s : TwoWord w} (hs : s.value < m.m.value) :
    ∃ r, modredc2ul2Frommontgomery build s m = pure r ∧
      IsMontgomeryResidue (2 ^ w * 2 ^ w) m.m.value s.value r.value := by
  obtain ⟨t, ht, htv⟩ := modredc2ul2Redc1_spec build hpos heven hm s
  obtain ⟨r, hr, hrv⟩ := modredc2ul2Redc1_spec build hpos heven hm t
  have htlt := redc_lt hs (s.lo * m.invm).isLt htv
  have hrlt := redc_lt htlt (t.lo * m.invm).isLt hrv
  refine ⟨r, by simp [modredc2ul2Frommontgomery, ht, hr], ?_⟩
  apply IsMontgomeryResidue.of_lt hm.coprime hrlt
  have htotal : 2 ^ w * 2 ^ w * r.value = s.value
      + ((s.lo * m.invm).toNat + 2 ^ w * (t.lo * m.invm).toNat) * m.m.value := by
    rw [mul_assoc, hrv, mul_add, htv]
    ring
  exact congr_of_eq_add_mul htotal

end

/-! ## Product and square -/

theorem ValidModulus.four_mul_hi_le {m : Modulusredc w} (hm : ValidModulus m) {a : TwoWord w}
    (ha : a.value < m.m.value) : 4 * a.hi.toNat ≤ 2 ^ w := by
  have hfour := hm.four_mul_le
  have hhigh : 2 ^ w * a.hi.toNat ≤ a.value := Nat.le_add_left _ _
  have hmul : 2 ^ w * (4 * a.hi.toNat) ≤ 2 ^ w * 2 ^ w := by
    rw [mul_left_comm]
    omega
  exact Nat.le_of_mul_le_mul_left hmul (Nat.two_pow_pos w)

/-- The second half of a product, after the reduction `t` of the product of the two low
words.  The sources differ in the low word that they test for the carry and in the words
from which they add the product of the two high words. -/
theorem redcProduct_spec (hw : 2 ≤ w) {m : Modulusredc w} (hm : ValidModulus m)
    {a b t : TwoWord w} (ha : a.value < m.m.value) (hb : b.value < m.m.value) {k p : BitVec w}
    (htv : 2 ^ w * t.value = a.lo.toNat * b.lo.toNat + k.toNat * m.m.value)
    (c : BitVec w → Prop) [DecidablePred c] (hc : ∀ x, c x ↔ x ≠ 0#w) {q : BitVec w}
    (hstart : ∀ x, (⟨x, q⟩ : TwoWord w).value + p.toNat = x.toNat + a.hi.toNat * b.hi.toNat) :
    ∃ u v h x y z, tracedAdd2ul2ul build t (mulWide a.hi b.lo) = pure u ∧
      tracedAdd2ul2ul build u (mulWide a.lo b.hi) = pure v ∧
      tracedIncIf (c v.lo) (mulWide (v.lo * m.invm) m.m.lo).hi = pure h ∧
      tracedAddUl2ul build ⟨v.hi, q⟩ p = pure x ∧ tracedAddUl2ul build x h = pure y ∧
      tracedAdd2ul2ul build y (mulWide (v.lo * m.invm) m.m.hi) = pure z ∧
      IsMontgomeryResidue (2 ^ w * 2 ^ w) m.m.value (a.value * b.value)
        (ularithSub2ul2ulGe build z m.m).value := by
  have hW : 4 ≤ 2 ^ w := by
    calc 4 = 2 ^ 2 := rfl
      _ ≤ 2 ^ w := Nat.pow_le_pow_right (by omega) hw
  -- the mixed products fit two words
  have hcross := cross_sum_lt htv a.lo.isLt b.lo.isLt (BitVec.isLt _) hm.four_mul_le
    (hm.four_mul_hi_le ha) (hm.four_mul_hi_le hb) hW
  obtain ⟨u, hu, huv⟩ := tracedAdd2ul2ul_of_lt build
    (r := t) (a := mulWide a.hi b.lo) (by rw [mulWide_value]; omega)
  rw [mulWide_value] at huv
  obtain ⟨v, hv, hvv⟩ := tracedAdd2ul2ul_of_lt build
    (r := u) (a := mulWide a.lo b.hi) (by rw [mulWide_value]; omega)
  rw [mulWide_value, huv] at hvv
  obtain ⟨h, hh, hhv⟩ := redcLow_spec (by omega) hm v.lo (hc v.lo)
  -- the whole number after the second step is below twice the modulus
  have htotal := redc_total htv hvv hhv
  have hlt := redc_two_lt (Nat.mul_lt_mul'' ha hb) m.m.value_lt
    (BitVec.isLt _) (v.lo * m.invm).isLt htotal
  have hfour := hm.four_mul_le
  have hstart := hstart v.hi
  obtain ⟨x, hx, hxv⟩ := tracedAddUl2ul_of_lt build (r := ⟨v.hi, q⟩) (a := p) (by omega)
  obtain ⟨y, hy, hyv⟩ := tracedAddUl2ul_of_lt build (r := x) (a := h) (by omega)
  obtain ⟨z, hz, hzv⟩ := tracedAdd2ul2ul_of_lt build
    (r := y) (a := mulWide (v.lo * m.invm) m.m.hi)
    (by rw [mulWide_value]; omega)
  rw [mulWide_value, hyv, hxv, hstart] at hzv
  rw [← hzv] at hlt htotal
  exact ⟨u, v, h, x, y, z, hu, hv, hh, hx, hy, hz,
    IsMontgomeryResidue.of_sub hm.coprime hlt (congr_of_eq_add_mul htotal)
      (ularithSub2ul2ulGe_value build (hm.not_borrowMissed (by omega) z))⟩

/-- The product of residues is the reduced Montgomery product, and no addition drops
a carry. -/
theorem modredc2ul2Mul_spec (hw : 2 ≤ w) (heven : w % 2 = 0)
    {m : Modulusredc w} (hm : ValidModulus m) {a b : TwoWord w} (ha : a.value < m.m.value)
    (hb : b.value < m.m.value) :
    ∃ r, modredc2ul2Mul build a b m = pure r ∧
      IsMontgomeryResidue (2 ^ w * 2 ^ w) m.m.value (a.value * b.value) r.value := by
  have hpos : 0 < w := by omega
  obtain ⟨t, ht, htv⟩ := modredc2ul2Redc1_spec build hpos heven hm
    (mulWide a.lo b.lo)
  rw [mulWide_value] at htv
  obtain ⟨u, v, h, x, y, z, hu, hv, hh, hx, hy, hz, hres⟩ := redcProduct_spec build hw hm ha hb htv
    (fun x => x ≠ 0#w) (fun _ => Iff.rfl) (p := (mulWide a.hi b.hi).lo)
    (q := (mulWide a.hi b.hi).hi) fun x => by
      rw [← mulWide_value a.hi b.hi]
      unfold value
      ring
  refine ⟨_, ?_, hres⟩
  simp [modredc2ul2Mul, ularithMulUlUl2ul_eq build hpos heven, ht, hu, hv, hx, hh, hy, hz]

theorem mulWide_comm (a b : BitVec w) : mulWide a b = mulWide b a := by
  simp [mulWide, mul_comm a.toNat]

theorem modredc2ul2Sqr_eq_mul (hpos : 0 < w) (heven : w % 2 = 0)
    (a : TwoWord w) (m : Modulusredc w) :
    modredc2ul2Sqr build a m = modredc2ul2Mul build a a m := by
  simp [modredc2ul2Sqr, modredc2ul2Mul, ularithMulUlUl2ul_eq build hpos heven,
    mulWide_comm a.lo a.hi]

/-! ## The whole life of a modulus -/

theorem hi_lt_of_value_lt {s : TwoWord w} {bits : ℕ} (h : s.value < 2 ^ w * 2 ^ bits) :
    s.hi.toNat < 2 ^ bits := by
  rw [← value_div]
  exact Nat.div_lt_of_lt_mul h

theorem hi_pos_of_le_value {s : TwoWord w} (h : 2 ^ w ≤ s.value) : 0 < s.hi.toNat := by
  rw [← value_div]
  exact Nat.div_pos h (Nat.two_pow_pos w)

theorem ValidModulus.invm_mul_value {m : Modulusredc w} (hm : ValidModulus m) (hw : 0 < w) :
    m.invm.toNat * m.m.value % 2 ^ w = 2 ^ w - 1 := by
  have hprod := congrArg BitVec.toNat hm.invm_mul
  have hone : 1 < 2 ^ w := Nat.one_lt_two_pow (by omega)
  have hneg : (-1#w).toNat = 2 ^ w - 1 := by
    rw [BitVec.toNat_neg, BitVec.toNat_ofNat, Nat.mod_eq_of_lt hone, Nat.mod_eq_of_lt (by omega)]
  rw [BitVec.toNat_mul, hneg] at hprod
  rw [← hprod, value, mul_add, mul_left_comm, Nat.add_mul_mod_self_left]

/-- For both word sizes and every odd modulus in range: initialisation succeeds with
the right derived fields, product and square of residues are the unique reduced
Montgomery product without a dropped carry, and reading a residue inverts its
conversion. -/
theorem modredc2ul2_correct (hw : w = 32 ∨ w = 64) {s : TwoWord w}
    (hodd : s.value % 2 = 1) (hlow : 2 ^ w < s.value) (hhigh : s.value < 2 ^ (2 * w - 2)) :
    ∃ m, modredc2ul2InitmodUls build s = pure m ∧ m.m = s ∧
      m.invm.toNat * s.value % 2 ^ w = 2 ^ w - 1 ∧
      m.one.value = 2 ^ (2 * w) % s.value ∧
      (∀ a b : TwoWord w, a.value < s.value → b.value < s.value →
        ∃ r, modredc2ul2Mul build a b m = pure r ∧
          IsMontgomeryResidue (2 ^ (2 * w)) s.value (a.value * b.value) r.value) ∧
      (∀ a : TwoWord w, a.value < s.value →
        ∃ r, modredc2ul2Sqr build a m = pure r ∧
          IsMontgomeryResidue (2 ^ (2 * w)) s.value (a.value * a.value) r.value) ∧
      (∀ x : TwoWord w, x.value < s.value →
        ∃ t, modredc2ul2Tomontgomery build x m = pure t ∧ t.value < s.value ∧
          modredc2ul2GetUls build t m = pure x) := by
  have hpos : 0 < w := by omega
  have heven : w % 2 = 0 := by omega
  have hbase : (2 : ℕ) ^ (2 * w) = 2 ^ w * 2 ^ w := by rw [← pow_add]; congr 1; omega
  have hbound : s.hi.toNat < 2 ^ (w - 2) := by
    apply hi_lt_of_value_lt
    rw [← pow_add, show w + (w - 2) = 2 * w - 2 by omega]
    exact hhigh
  obtain ⟨m, hinit, hms, hm⟩ := modredcInitmodUls_spec build hw le_rfl hodd
    (hi_pos_of_le_value hlow.le) hbound
  subst hms
  have hmul : ∀ a b : TwoWord w, a.value < m.m.value → b.value < m.m.value →
      ∃ r, modredc2ul2Mul build a b m = pure r ∧
        IsMontgomeryResidue (2 ^ (2 * w)) m.m.value (a.value * b.value) r.value := by
    intro a b ha hb
    rw [hbase]
    exact modredc2ul2Mul_spec build (by omega) heven hm ha hb
  refine ⟨m, hinit, rfl, hm.invm_mul_value hpos, by rw [hbase]; exact hm.one_value, hmul, ?_, ?_⟩
  · intro a ha
    rw [modredc2ul2Sqr_eq_mul build hpos heven]
    exact hmul a a ha ha
  · intro x hx
    obtain ⟨t, ht, htv⟩ := modredcTomontgomery_spec build hpos hm hx
    have htlt : t.value < m.m.value := by
      rw [htv]
      exact Nat.mod_lt _ hm.pos
    obtain ⟨r, hr, hres⟩ := modredc2ul2Frommontgomery_spec build hpos heven hm htlt
    have hxr : x.value = r.value := by
      apply hres.unique _ hx
      rw [htv, ← hbase]
      exact (Nat.mod_modEq _ _).symm
    refine ⟨t, ht, htlt, ?_⟩
    rw [TwoWord.value_injective hxr]
    exact hr

/-- The portable text for 64-bit words at the modulus `2 ^ 64 + 13`. -/
theorem modredc2ul2_correct_word64 :
    ∃ m, modredc2ul2InitmodUls .noAsm (⟨13#64, 1#64⟩ : TwoWord 64) = pure m ∧
      ∃ r, modredc2ul2Mul .noAsm ⟨5#64, 0#64⟩ ⟨7#64, 1#64⟩ m = pure r ∧
        IsMontgomeryResidue (2 ^ 128) (2 ^ 64 + 13) (5 * (2 ^ 64 + 7)) r.value := by
  obtain ⟨m, hinit, -, -, -, hmul, -, -⟩ :=
    modredc2ul2_correct .noAsm (Or.inr rfl) (s := (⟨13#64, 1#64⟩ : TwoWord 64))
      (by decide) (by decide) (by decide)
  exact ⟨m, hinit, hmul ⟨5#64, 0#64⟩ ⟨7#64, 1#64⟩ (by decide) (by decide)⟩

end CadoNfs
