import CadoNfs.Utils.Modredc
import CadoNfs.Utils.ModUl

/-!
# Montgomery arithmetic for moduli of one word

The portable C text of `modredc_ul.h`.  There are no spare bits: a modulus may be any odd
word, and sums wrap.

Main results:

- Theorem `modredculRedc_spec`: the reduction of a number whose high word is below the
  modulus.
- Theorem `modredculRedcSemi_spec`: the reduction of any number, which may not be
  reduced.
- Theorem `modredcul_correct`: initialisation, product, square and conversion together.
-/

namespace CadoNfs

open WordArith Redc
open BitVec (allOnes le_def toNat_add toNat_ofNat)
open Nat (mod_eq_of_lt mod_lt mod_modEq)
open TwoWord (mulWide mulWide_value value)

variable {w : ℕ}

/-! ## Definitions -/

/-- The modulus record of `modredc_ul.h`. -/
structure Modulusredcul (w : ℕ) where
  /-- The modulus. -/
  m : BitVec w
  /-- Minus the inverse of the modulus, modulo the word base. -/
  invm : BitVec w
  /-- The residue one in Montgomery form. -/
  one : BitVec w
  deriving DecidableEq, Repr

section Definitions

variable (build : UlarithBuild)

/-- `modredcul_tomontgomery`. -/
def modredculTomontgomery (a : BitVec w) (m : Modulusredcul w) : Outcome (BitVec w) :=
  ularithDiv2ulUlUlR ⟨0#w, a⟩ m.m

variable (s : BitVec w)

/-- `modredcul_initmod_ul`. -/
def modredculInitmodUl : Outcome (Modulusredcul w) := do
  let inv ← ularithInvmod s
  let m : Modulusredcul w := { m := s, invm := -inv, one := 0#w }
  if m.m = 1#w then
    pure m
  else
    let one ← modredculTomontgomery 1#w m
    pure { m with one := one }

/-- `modredcul_frommontgomery`. -/
def modredculFrommontgomery (a : BitVec w) (m : Modulusredcul w) : Outcome (BitVec w) := do
  let t ← ularithMulUlUl2ul build (a * m.invm) m.m
  pure (t.hi + if a ≠ 0#w then 1#w else 0#w)

/-- `modredcul_add`, whose first operand may be the modulus in the portable text. -/
def modredculAdd (a b : BitVec w) (m : Modulusredcul w) : BitVec w :=
  match build with
  | .x86 =>
    let t := a + b
    let tr := a - m.m
    -- add, cmovnc
    if addFlag tr b false = false then t else tr + b
  | .noAsm => if b ≥ m.m - a then b - (m.m - a) else a + b

/-- `modredcul_add_semi`. -/
def modredculAddSemi (a b : BitVec w) (m : Modulusredcul w) : BitVec w :=
  match build with
  | .x86 =>
    let t := a - m.m
    let tr := a + b
    -- add, cmovc
    if addFlag t b false = true then t + b else tr
  | .noAsm => if b ≥ m.m - a then b - (m.m - a) else a + b

/-- `modredcul_redc`. -/
def modredculRedc (plow phigh : BitVec w) (m : Modulusredcul w) : Outcome (BitVec w) := do
  let p ← ularithMulUlUl2ul build (plow * m.invm) m.m
  let t := phigh + if plow ≠ 0#w then 1#w else 0#w
  pure (modredculAdd build t p.hi m)

/-- `modredcul_redc_semi`. -/
def modredculRedcSemi (plow phigh : BitVec w) (m : Modulusredcul w) : Outcome (BitVec w) := do
  let p ← ularithMulUlUl2ul build (plow * m.invm) m.m
  let t := phigh + if plow ≠ 0#w then 1#w else 0#w
  pure (modredculAddSemi build p.hi t m)

/-- The portable `modredcul_mul`. -/
def modredculMul (a b : BitVec w) (m : Modulusredcul w) : Outcome (BitVec w) := do
  let p ← ularithMulUlUl2ul build a b
  modredculRedc build p.lo p.hi m

/-- The portable `modredcul_sqr`. -/
def modredculSqr (a : BitVec w) (m : Modulusredcul w) : Outcome (BitVec w) := do
  let p ← ularithSqrUl2ul build a
  modredculRedc build p.lo p.hi m

/-- `modredcul_set_ul`. -/
def modredculSetUl (m : Modulusredcul w) : Outcome (BitVec w) := do
  let p ← ularithMulUlUl2ul build s m.one
  let r ← modredculRedc build p.lo p.hi m
  modredculTomontgomery r m

/-- `modredcul_get_ul`. -/
def modredculGetUl (m : Modulusredcul w) : Outcome (BitVec w) :=
  modredculFrommontgomery build s m

end Definitions

/-- What the arithmetic relies on: the modulus is odd, and the two derived fields are
right. -/
structure ValidModulusUl (m : Modulusredcul w) : Prop where
  /-- The modulus is odd. -/
  odd : m.m.toNat % 2 = 1
  /-- `invm` is minus the inverse of the modulus. -/
  invm_mul : m.invm * m.m = -1#w
  /-- `one` is the word base, reduced. -/
  one_value : m.one.toNat = 2 ^ w % m.m.toNat

namespace ValidModulusUl

variable {m : Modulusredcul w}

theorem pos (hm : ValidModulusUl m) : 0 < m.m.toNat := by
  have := hm.odd
  omega

theorem coprime (hm : ValidModulusUl m) : Nat.Coprime m.m.toNat (2 ^ w) :=
  (Nat.coprime_two_right.mpr (Nat.odd_iff.mpr hm.odd)).pow_right w

end ValidModulusUl

/-! ## One reduction step -/

section Reduction

variable {m : Modulusredcul w} {a b : BitVec w}

theorem mulWide_hi_lt_right (a : BitVec w) (hb : 0 < b.toNat) :
    (mulWide a b).hi.toNat < b.toNat := by
  have hvalue := mulWide_value a b
  rw [← TwoWord.value_div, hvalue]
  exact Nat.div_lt_of_lt_mul (Nat.mul_lt_mul_of_pos_right a.isLt hb)

variable (build : UlarithBuild)

theorem modredculAdd_eq_addSemi (a b : BitVec w) (m : Modulusredcul w) :
    modredculAdd build a b m = modredculAddSemi build a b m := by
  cases build with
  | x86 => cases h : addFlag (a - m.m) b false <;> simp [modredculAdd, modredculAddSemi, h]
  | noAsm => rfl

/-- The modulus is subtracted from a sum that is not below it.  The first operand may be the
modulus in the portable text only. -/
theorem modredculAddSemi_value (ha : a.toNat < m.m.toNat ∨ build = .noAsm ∧ a.toNat = m.m.toNat) :
    (modredculAddSemi build a b m).toNat
      = if m.m.toNat ≤ a.toNat + b.toNat then a.toNat + b.toNat - m.m.toNat
        else a.toNat + b.toNat := by
  have hm := m.m.isLt
  have hb := b.isLt
  cases build with
  | x86 =>
    have ha : a.toNat < m.m.toNat := ha.resolve_right fun h => absurd h.1 (by decide)
    have hsub : (a - m.m).toNat = 2 ^ w + a.toNat - m.m.toNat := by
      rw [BitVec.toNat_sub, mod_eq_of_lt (by omega)]
      omega
    have hflag : addFlag (a - m.m) b false = true ↔ m.m.toNat ≤ a.toNat + b.toNat := by
      rw [addFlag, hsub, decide_eq_true_eq, Bool.toNat_false]
      omega
    simp only [modredculAddSemi, hflag]
    split_ifs with hle
    · rw [toNat_add, hsub, show 2 ^ w + a.toNat - m.m.toNat + b.toNat
        = a.toNat + b.toNat - m.m.toNat + 2 ^ w by omega, Nat.add_mod_right,
        mod_eq_of_lt (by omega)]
    · rw [toNat_add, mod_eq_of_lt (by omega)]
  | noAsm =>
    have hneg : (m.m - a).toNat = m.m.toNat - a.toNat :=
      BitVec.toNat_sub_of_le (le_def.mpr (by omega))
    have hge : b ≥ m.m - a ↔ m.m.toNat ≤ a.toNat + b.toNat := by
      rw [ge_iff_le, le_def, hneg]
      omega
    simp only [modredculAddSemi, hge]
    split_ifs with hle
    · rw [BitVec.toNat_sub_of_le (le_def.mpr (by omega)), hneg]
      omega
    · rw [toNat_add, mod_eq_of_lt (by omega)]

theorem toNat_add_carry (hw : 0 < w) {a : BitVec w} {c : Prop} [Decidable c]
    (ha : a.toNat < 2 ^ w - 1) :
    (a + if c then 1#w else 0#w).toNat = a.toNat + if c then 1 else 0 := by
  have hone : (1#w).toNat = 1 := by
    rw [toNat_ofNat, mod_eq_of_lt (Nat.one_lt_two_pow (by omega))]
  split_ifs with h
  · rw [toNat_add, hone, mod_eq_of_lt (by omega)]
  · simp

theorem redc_congr {W m x t r : ℕ} (k : ℕ) (h : W * t = x + k * m)
    (hr : r = if m ≤ t then t - m else t) : r * W ≡ x [MOD m] := by
  have ht : t * W ≡ x [MOD m] := congr_of_eq_add_mul h
  rw [hr]
  split_ifs with hle
  · have hsub : t * W = (t - m) * W + m * W := by
      rw [← add_mul, Nat.sub_add_cancel hle]
    rw [hsub] at ht
    exact (Nat.ModEq.symm (by simp [Nat.ModEq])).trans ht
  · exact ht

section

variable (hw : 0 < w) (heven : w % 2 = 0) (hm : ValidModulusUl m) {plow phigh : BitVec w}
include hw heven hm

/-- The reduction of any number whose high word is not all ones. -/
theorem modredculRedcSemi_spec (hp : phigh.toNat < 2 ^ w - 1) :
    ∃ r, modredculRedcSemi build plow phigh m = pure r ∧
      r.toNat * 2 ^ w ≡ phigh.toNat * 2 ^ w + plow.toNat [MOD m.m.toNat] ∧
      (phigh.toNat < m.m.toNat → r.toNat < m.m.toNat) ∧
      (m.m.toNat ≤ phigh.toNat → r.toNat ≤ phigh.toNat) := by
  have hcancel := mulWide_cancel hm.invm_mul plow
  have hthigh := mulWide_hi_lt_right (plow * m.invm) hm.pos
  have hcarry := toNat_add_carry hw (c := plow ≠ 0#w) hp
  have hvalue := modredculAddSemi_value build (m := m)
    (b := phigh + if plow ≠ 0#w then 1#w else 0#w) (Or.inl hthigh)
  rw [hcarry] at hvalue
  refine ⟨_, by rw [modredculRedcSemi, ularithMulUlUl2ul_eq build hw heven, pure_bind],
    ?_, fun hlt => ?_, fun hle => ?_⟩
  · refine redc_congr (plow * m.invm).toNat ?_ hvalue
    rw [add_left_comm, mul_add, hcancel]
    ring
  all_goals
    rw [hvalue]
    split_ifs <;> omega

/-- The reduction of a number whose high word is so far below the modulus that the carry does
not make it the modulus; in the portable text the carry may do so. -/
theorem modredculRedc_spec (hp : phigh.toNat + (if plow ≠ 0#w then 1 else 0) < m.m.toNat ∨
      build = .noAsm ∧ phigh.toNat < m.m.toNat) :
    ∃ r, modredculRedc build plow phigh m = pure r ∧
      IsMontgomeryResidue (2 ^ w) m.m.toNat (phigh.toNat * 2 ^ w + plow.toNat) r.toNat := by
  have hmlt := m.m.isLt
  have hcancel := mulWide_cancel hm.invm_mul plow
  have hthigh := mulWide_hi_lt_right (plow * m.invm) hm.pos
  have hpw : phigh.toNat < 2 ^ w - 1 := by
    rcases hp with hp | hp <;> omega
  have hcarry := toNat_add_carry hw (c := plow ≠ 0#w) hpw
  obtain ⟨c, hc, hc1⟩ : ∃ c, (if plow ≠ 0#w then 1 else 0) = c ∧ c ≤ 1 :=
    ⟨_, rfl, by split_ifs <;> omega⟩
  rw [hc] at hcancel hcarry hp
  have hvalue := modredculAddSemi_value build (m := m)
    (a := phigh + if plow ≠ 0#w then 1#w else 0#w)
    (b := (mulWide (plow * m.invm) m.m).hi) (by
      rw [hcarry]
      rcases hp with hp | ⟨hbuild, hp⟩
      · exact Or.inl hp
      · exact (Nat.lt_or_eq_of_le (by omega : phigh.toNat + c ≤ m.m.toNat)).imp_right
          fun h => ⟨hbuild, h⟩)
  rw [hcarry] at hvalue
  refine ⟨_, by rw [modredculRedc, ularithMulUlUl2ul_eq build hw heven, pure_bind], ?_⟩
  rw [modredculAdd_eq_addSemi]
  refine IsMontgomeryResidue.of_sub hm.coprime ?_
    (congr_of_eq_add_mul (k := (plow * m.invm).toNat) ?_) hvalue
  · rcases hp with hp | ⟨-, hp⟩ <;> omega
  · rw [add_assoc, add_comm c, mul_add, hcancel]
    ring

end

theorem mulWide_carry_lt {k : ℕ} (a : BitVec w) (hb : b.toNat < k) :
    (mulWide a b).hi.toNat + (if (mulWide a b).lo ≠ 0#w then 1 else 0) < k := by
  have hvalue := mulWide_value a b
  have hle : a.toNat * b.toNat ≤ a.toNat * (k - 1) := Nat.mul_le_mul_left _ (by omega)
  have ha := a.isLt
  rw [value] at hvalue
  split_ifs with hlo
  · have hpos : 0 < (mulWide a b).lo.toNat := by
      rw [Nat.pos_iff_ne_zero]
      exact fun h => hlo (BitVec.eq_of_toNat_eq (by simpa using h))
    have hlt : 2 ^ w * (mulWide a b).hi.toNat < 2 ^ w * (k - 1) := by
      have hmul : a.toNat * (k - 1) ≤ 2 ^ w * (k - 1) := Nat.mul_le_mul_right _ ha.le
      omega
    have := Nat.lt_of_mul_lt_mul_left hlt
    omega
  · have hmul : a.toNat * (k - 1) ≤ 2 ^ w * (k - 1) := Nat.mul_le_mul_right _ ha.le
    have hle' := Nat.le_of_mul_le_mul_left (c := 2 ^ w)
      (show 2 ^ w * (mulWide a b).hi.toNat ≤ 2 ^ w * (k - 1) by omega)
      (Nat.two_pow_pos w)
    omega

section

variable (hw : 0 < w) (heven : w % 2 = 0) (hm : ValidModulusUl m) (a : BitVec w)
  (hb : b.toNat < m.m.toNat)
include hw heven hm hb

theorem modredculRedc_mulWide :
    ∃ r, modredculRedc build (mulWide a b).lo (mulWide a b).hi m = pure r ∧
      IsMontgomeryResidue (2 ^ w) m.m.toNat (a.toNat * b.toNat) r.toNat := by
  obtain ⟨r, hr, hres⟩ := modredculRedc_spec build hw heven hm (Or.inl (mulWide_carry_lt a hb))
  refine ⟨r, hr, ?_⟩
  rwa [← mulWide_value, value, add_comm, mul_comm (2 ^ w)]

theorem modredculMul_spec : ∃ r, modredculMul build a b m = pure r ∧
      IsMontgomeryResidue (2 ^ w) m.m.toNat (a.toNat * b.toNat) r.toNat := by
  rw [modredculMul, ularithMulUlUl2ul_eq build hw heven, pure_bind]
  exact modredculRedc_mulWide build hw heven hm a hb

end

theorem modredculSqr_eq_mul (a : BitVec w) (m : Modulusredcul w) :
    modredculSqr build a m = modredculMul build a a m := by
  rw [modredculSqr, modredculMul, ularithSqrUl2ul_eq_mul]

/-! ## Conversion -/

theorem modredculTomontgomery_spec (ha : a.toNat < m.m.toNat) :
    ∃ r, modredculTomontgomery a m = pure r ∧ r.toNat = a.toNat * 2 ^ w % m.m.toNat := by
  have hvalue : (⟨0#w, a⟩ : TwoWord w).value = a.toNat * 2 ^ w := by
    simp [value, mul_comm]
  have hlt : a.toNat * 2 ^ w % m.m.toNat < 2 ^ w := (mod_lt _ (by omega)).trans m.m.isLt
  refine ⟨BitVec.ofNat w (a.toNat * 2 ^ w % m.m.toNat), ?_, ?_⟩
  · rw [modredculTomontgomery, ularithDiv2ulUlUlR, hvalue,
      Outcome.assert_of (BitVec.lt_def.mpr ha), pure_bind]
  · rw [toNat_ofNat, mod_eq_of_lt hlt]

theorem modredculGetUl_spec (hw : 0 < w) (heven : w % 2 = 0)
    (hm : ValidModulusUl m) (ha : a.toNat < m.m.toNat) :
    ∃ r, modredculGetUl build a m = pure r ∧
      IsMontgomeryResidue (2 ^ w) m.m.toNat a.toNat r.toNat := by
  have hmlt := m.m.isLt
  have hcancel := mulWide_cancel hm.invm_mul a
  have hthigh := mulWide_hi_lt_right (a * m.invm) hm.pos
  refine ⟨_, by rw [modredculGetUl, modredculFrommontgomery, ularithMulUlUl2ul_eq build hw heven,
    pure_bind], ?_⟩
  rw [toNat_add_carry hw (by omega)]
  exact IsMontgomeryResidue.of_lt hm.coprime (redc_lt ha (a * m.invm).isLt hcancel)
    (congr_of_eq_add_mul hcancel)

theorem modredculInitmodUl_spec (hw : w = 32 ∨ w = 64) {s : BitVec w} (hodd : s.toNat % 2 = 1) :
    ∃ m, modredculInitmodUl s = pure m ∧ m.m = s ∧ ValidModulusUl m := by
  have hone : (1#w).toNat = 1 := by
    rw [toNat_ofNat, mod_eq_of_lt (Nat.one_lt_two_pow (by omega))]
  obtain ⟨inv, hinv, hinvmul⟩ := ularithInvmod_spec hw (n := s) (by omega)
  have hneg : -inv * s = -1#w := by rw [BitVec.neg_mul, hinvmul]
  by_cases hs : s = 1#w
  · refine ⟨{ m := s, invm := -inv, one := 0#w }, ?_, rfl, hodd, hneg, ?_⟩
    · rw [modredculInitmodUl, hinv, pure_bind, if_pos hs]
    · simp [hs, hone, Nat.mod_one]
  · have hgt : (1#w).toNat < s.toNat := by
      have hne : s.toNat ≠ 1 := fun h => hs (BitVec.eq_of_toNat_eq (by rw [h, hone]))
      omega
    obtain ⟨one, hone', hvalue⟩ := modredculTomontgomery_spec (a := 1#w)
      (m := { m := s, invm := -inv, one := 0#w }) hgt
    refine ⟨{ m := s, invm := -inv, one := one }, ?_, rfl, hodd, hneg, ?_⟩
    · rw [modredculInitmodUl, hinv, pure_bind, if_neg hs, hone', pure_bind]
    · rw [hvalue, hone, one_mul]

end Reduction

/-! ## The whole life of a modulus -/

/-- For both word sizes and every odd word: initialisation succeeds, product and square of
residues are the reduced Montgomery product, a number that is converted and read is reduced, and
the reduction of any number is in the right class and not larger than its high word or the
modulus. -/
theorem modredcul_correct (build : UlarithBuild) (hw : w = 32 ∨ w = 64) {s : BitVec w}
    (hodd : s.toNat % 2 = 1) :
    ∃ m, modredculInitmodUl s = pure m ∧ m.m = s ∧
      (∀ a b : BitVec w, a.toNat < s.toNat → b.toNat < s.toNat →
        ∃ r, modredculMul build a b m = pure r ∧
          IsMontgomeryResidue (2 ^ w) s.toNat (a.toNat * b.toNat) r.toNat) ∧
      (∀ a : BitVec w, a.toNat < s.toNat →
        ∃ r, modredculSqr build a m = pure r ∧
          IsMontgomeryResidue (2 ^ w) s.toNat (a.toNat * a.toNat) r.toNat) ∧
      (∀ x : BitVec w, ∃ t, modredculSetUl build x m = pure t ∧ t.toNat < s.toNat ∧
        ∃ y, modredculGetUl build t m = pure y ∧ y.toNat = x.toNat % s.toNat) ∧
      (∀ plow phigh : BitVec w, phigh.toNat < 2 ^ w - 1 →
        ∃ r, modredculRedcSemi build plow phigh m = pure r ∧
          r.toNat * 2 ^ w ≡ phigh.toNat * 2 ^ w + plow.toNat [MOD s.toNat] ∧
          (phigh.toNat < s.toNat → r.toNat < s.toNat) ∧
          (s.toNat ≤ phigh.toNat → r.toNat ≤ phigh.toNat)) := by
  have hpos : 0 < w := by omega
  have heven : w % 2 = 0 := by omega
  obtain ⟨m, hinit, rfl, hm⟩ := modredculInitmodUl_spec hw hodd
  have hmul := fun (a b : BitVec w) (hb : b.toNat < m.m.toNat) =>
    modredculMul_spec build hpos heven hm a hb
  refine ⟨m, hinit, rfl, fun a b _ hb => hmul a b hb, fun a ha => ?_, fun x => ?_,
    fun plow phigh hp => modredculRedcSemi_spec build hpos heven hm hp⟩
  · rw [modredculSqr_eq_mul]
    exact hmul a a ha
  · have hone : m.one.toNat < m.m.toNat := by
      rw [hm.one_value]
      exact mod_lt _ hm.pos
    obtain ⟨r, hr, hrres⟩ := modredculRedc_mulWide build hpos heven hm x hone
    obtain ⟨t, ht, htv⟩ := modredculTomontgomery_spec hrres.lt
    have htlt : t.toNat < m.m.toNat := by
      rw [htv]
      exact mod_lt _ hm.pos
    obtain ⟨y, hy, hyres⟩ := modredculGetUl_spec build hpos heven hm htlt
    refine ⟨t, ?_, htlt, y, hy, ?_⟩
    · rw [modredculSetUl, ularithMulUlUl2ul_eq build hpos heven, pure_bind, hr, pure_bind, ht]
    · -- reading undoes the conversion, and the product with one is the number itself
      have hyr : y.toNat = r.toNat := by
        refine (hyres.unique _ hrres.lt ?_).symm
        rw [htv]
        exact (mod_modEq _ _).symm
      have hrx : x.toNat % m.m.toNat = r.toNat := by
        refine hrres.unique _ (mod_lt _ hm.pos) ?_
        rw [hm.one_value]
        exact (mod_modEq _ _).mul (mod_modEq _ _).symm
      rw [hyr, hrx]

/-- The portable text for the largest 64-bit modulus. -/
theorem modredcul_correct_word64 :
    ∃ m, modredculInitmodUl (allOnes 64) = pure m ∧
      ∃ r, modredculMul .noAsm 5#64 (allOnes 64 - 1#64) m = pure r ∧
        IsMontgomeryResidue (2 ^ 64) (2 ^ 64 - 1) (5 * (2 ^ 64 - 2)) r.toNat := by
  obtain ⟨m, hinit, -, hmul, -, -, -⟩ :=
    modredcul_correct .noAsm (Or.inr rfl) (s := allOnes 64) (by decide)
  exact ⟨m, hinit, hmul 5#64 (allOnes 64 - 1#64) (by decide) (by decide)⟩

end CadoNfs
