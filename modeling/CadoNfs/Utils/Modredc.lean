import CadoNfs.Utils.ModredcInt
import Mathlib.Data.Nat.Prime.Basic

/-!
# Montgomery moduli of two words

What `modredc_2ul2.h` and `modredc_15ul.h` share beyond their integer
functions: the modulus record and its initialisation, the modular addition, the
conversion to Montgomery form and the low word of a reduction step.

Main results:

- Theorem `modredcInitmodUls_spec`: initialisation of an odd modulus below a
  quarter of the word base squared gives a `ValidModulus`.
- Theorem `modredcTomontgomery_spec`: the doubling loop multiplies by the word
  base squared.
- Theorem `redcLow_spec`: the low word of a reduction step cancels and its
  carry fits.
-/

namespace CadoNfs

open WordArith
open TwoWord (mulWide mulWide_value value value_mod_two)

variable {w : ℕ}

/-! ## The modulus -/

/-- The modulus record of both headers. -/
structure Modulusredc (w : ℕ) where
  /-- The modulus. -/
  m : TwoWord w
  /-- The residue one in Montgomery form. -/
  one : TwoWord w
  /-- Minus the inverse of the modulus, modulo the word base. -/
  invm : BitVec w
  deriving DecidableEq, Repr

/-- What the arithmetic relies on: the modulus is odd, has a nonzero high word and
two spare bits, and the two derived fields are right. -/
structure ValidModulus (m : Modulusredc w) : Prop where
  /-- The modulus is odd. -/
  odd : m.m.value % 2 = 1
  /-- The high word is nonzero. -/
  hi_pos : 0 < m.m.hi.toNat
  /-- Two top bits are free. -/
  four_mul_le : 4 * m.m.value ≤ 2 ^ w * 2 ^ w
  /-- `invm` is minus the inverse of the low word. -/
  invm_mul : m.invm * m.m.lo = -1#w
  /-- `one` is the word base squared, reduced. -/
  one_value : m.one.value = 2 ^ w * 2 ^ w % m.m.value

section Definitions

variable (build : UlarithBuild)

/-- `modredc*_initmod_uls`; the headers differ in the number `bits` of
bits they allow the high word. -/
def modredcInitmodUls (bits : ℕ) (s : TwoWord w) : Outcome (Modulusredc w) := do
  Outcome.assert (s.hi > 0#w)
  Outcome.assert (s.hi < 1#w <<< bits)
  let inv ← ularithInvmod s.lo
  let one := modredcIntsub build ⟨0#w, 0#w⟩ s
  let one ← modredcIntmod build one s
  pure { m := s, one := one, invm := -inv }

/-- `modredc*_add`. -/
def modredcAdd (a b : TwoWord w) (m : Modulusredc w) : Outcome (TwoWord w) := do
  let r ← tracedAdd2ul2ul build a b
  pure (ularithSub2ul2ulGe build r m.m)

/-- The loop of `modredc*_tomontgomery` with `n` doublings to go. -/
def modredcTomontgomeryLoop (m : Modulusredc w) (n : ℕ) (r : TwoWord w) :
    Outcome (TwoWord w) :=
  match n with
  | 0 => pure r
  | n + 1 => do
    let r ← modredcAdd build r r m
    modredcTomontgomeryLoop m n r

/-- `modredc*_tomontgomery`. -/
def modredcTomontgomery (s : TwoWord w) (m : Modulusredc w) : Outcome (TwoWord w) :=
  modredcTomontgomeryLoop build m (2 * w) s

end Definitions

namespace ValidModulus

variable {m : Modulusredc w}

section

variable (hm : ValidModulus m)
include hm

theorem lo_odd (hw : 0 < w) : m.m.lo.toNat % 2 = 1 := by
  rw [← value_mod_two hw]
  exact hm.odd

theorem pos : 0 < m.m.value := by
  have := hm.odd
  omega

theorem coprime : Nat.Coprime m.m.value (2 ^ w * 2 ^ w) := by
  have hodd : Nat.Coprime m.m.value 2 :=
    Nat.coprime_two_right.mpr (Nat.odd_iff.mpr hm.odd)
  exact Nat.Coprime.mul_right (hodd.pow_right w) (hodd.pow_right w)

theorem not_borrowMissed_of_le (hw : 0 < w) (r : TwoWord w) {a : TwoWord w}
    (ha : a.value ≤ m.m.value) : ¬ BorrowMissed r a := by
  rintro ⟨hones, -⟩
  have hfour := hm.four_mul_le
  have hvalue : 2 ^ w * (2 ^ w - 1) ≤ a.value := by
    rw [value, hones, BitVec.toNat_allOnes]
    exact Nat.le_add_left _ _
  have hW : 2 ≤ 2 ^ w := Nat.le_self_pow (by omega) 2
  have hbase : 2 ^ w ≤ 2 * (2 ^ w - 1) := by omega
  have hmul := Nat.mul_le_mul_left (2 ^ w) hbase
  have hWW : 0 < 2 ^ w * 2 ^ w := Nat.mul_pos (by omega) (by omega)
  rw [mul_left_comm] at hmul
  omega

theorem not_borrowMissed (hw : 0 < w) (r : TwoWord w) : ¬ BorrowMissed r m.m :=
  hm.not_borrowMissed_of_le hw r le_rfl

end

end ValidModulus

/-! ## Addition and conversion -/

variable (build : UlarithBuild)

theorem ularithSub2ul2ulGe_value {r a : TwoWord w} (h : ¬ BorrowMissed r a) :
    (ularithSub2ul2ulGe build r a).value
      = if a.value ≤ r.value then r.value - a.value else r.value := by
  have hbuild : ularithSub2ul2ulGe build r a = if a.value ≤ r.value then (r.sub a).1 else r := by
    cases build with
    | x86 => exact ularithSub2ul2ulGe_x86 r a
    | noAsm => exact (ularithSub2ul2ulGe_noAsm_ite_iff r a).mpr h
  rw [hbuild]
  by_cases hle : a.value ≤ r.value
  · rw [if_pos hle, if_pos hle, (TwoWord.sub_value_of_le hle).1]
  · rw [if_neg hle, if_neg hle]

section

variable (hw : 0 < w) {m : Modulusredc w} (hm : ValidModulus m)
include hw hm

theorem modredcAdd_spec {a b : TwoWord w} (ha : a.value < m.m.value) (hb : b.value < m.m.value) :
    ∃ c, modredcAdd build a b m = pure c ∧ c.value = (a.value + b.value) % m.m.value := by
  have hfour := hm.four_mul_le
  obtain ⟨r, hr, hrv⟩ := tracedAdd2ul2ul_of_lt build (r := a) (a := b) (by omega)
  refine ⟨_, by rw [modredcAdd, hr, pure_bind], ?_⟩
  rw [ularithSub2ul2ulGe_value build (hm.not_borrowMissed hw r), hrv]
  by_cases hle : m.m.value ≤ a.value + b.value
  · rw [if_pos hle, Nat.mod_eq_sub_mod hle, Nat.mod_eq_of_lt (by omega)]
  · rw [if_neg hle, Nat.mod_eq_of_lt (by omega)]

theorem modredcTomontgomeryLoop_spec (n : ℕ) {r : TwoWord w} (hr : r.value < m.m.value) :
    ∃ c, modredcTomontgomeryLoop build m n r = pure c ∧
      c.value = r.value * 2 ^ n % m.m.value := by
  induction n generalizing r with
  | zero =>
    refine ⟨r, rfl, ?_⟩
    rw [pow_zero, mul_one, Nat.mod_eq_of_lt hr]
  | succ n ih =>
    obtain ⟨s, hs, hsv⟩ := modredcAdd_spec build hw hm hr hr
    have hslt : s.value < m.m.value := by
      rw [hsv]
      exact Nat.mod_lt _ hm.pos
    obtain ⟨c, hc, hcv⟩ := ih hslt
    refine ⟨c, by rw [modredcTomontgomeryLoop, hs, pure_bind, hc], ?_⟩
    rw [hcv, hsv, Nat.mod_mul_mod]
    congr 1
    ring

/-- The conversion to Montgomery form multiplies by the word base squared. -/
theorem modredcTomontgomery_spec {s : TwoWord w} (hs : s.value < m.m.value) :
    ∃ c, modredcTomontgomery build s m = pure c ∧
      c.value = s.value * 2 ^ (2 * w) % m.m.value :=
  modredcTomontgomeryLoop_spec build hw hm (2 * w) hs

end

/-! ## The low word of a reduction step -/

theorem mul_invm_mul_lo {m : Modulusredc w} (hm : ValidModulus m) (s : BitVec w) :
    s * m.invm * m.m.lo = -s := by
  rw [mul_assoc, hm.invm_mul]
  simp

theorem mulWide_lo (a b : BitVec w) : (mulWide a b).lo = a * b := by
  apply BitVec.eq_of_toNat_eq
  simp [mulWide, BitVec.toNat_mul]

theorem mulWide_hi_lt (a b : BitVec w) : (mulWide a b).hi.toNat + 1 < 2 ^ w ∨ w = 0 := by
  rcases Nat.eq_zero_or_pos w with hw | hw
  · exact Or.inr hw
  left
  have hvalue := mulWide_value a b
  have ha := a.isLt
  have hb := b.isLt
  have hW : 2 ≤ 2 ^ w := Nat.le_self_pow (by omega) 2
  have hprod : a.toNat * b.toNat ≤ (2 ^ w - 1) * (2 ^ w - 1) :=
    Nat.mul_le_mul (by omega) (by omega)
  have hlt : 2 ^ w * (mulWide a b).hi.toNat < 2 ^ w * (2 ^ w - 1) := by
    calc 2 ^ w * (mulWide a b).hi.toNat ≤ (mulWide a b).value :=
          Nat.le_add_left _ _
      _ ≤ (2 ^ w - 1) * (2 ^ w - 1) := by rw [hvalue]; exact hprod
      _ < 2 ^ w * (2 ^ w - 1) := Nat.mul_lt_mul_of_pos_right (by omega) (by omega)
  have := Nat.lt_of_mul_lt_mul_left hlt
  omega

section

variable {m invm : BitVec w} (h : invm * m = -1#w) (s : BitVec w)
include h

theorem mulWide_cancel :
    2 ^ w * ((mulWide (s * invm) m).hi.toNat + if s ≠ 0#w then 1 else 0)
      = s.toNat + (s * invm).toNat * m.toNat := by
  have hvalue := mulWide_value (s * invm) m
  have hlo : (mulWide (s * invm) m).lo = -s := by
    rw [mulWide_lo, mul_assoc, h]
    simp
  rw [value, hlo] at hvalue
  by_cases hs : s = 0#w
  · rw [if_neg (not_not.mpr hs), ← hvalue, hs]
    simp
  · have hspos : 0 < s.toNat := by
      rw [Nat.pos_iff_ne_zero]
      exact fun hzero => hs (BitVec.eq_of_toNat_eq (by simpa using hzero))
    have hslt := s.isLt
    have hneg : (-s).toNat = 2 ^ w - s.toNat := by
      rw [BitVec.toNat_neg, Nat.mod_eq_of_lt (by omega)]
    rw [hneg] at hvalue
    rw [if_pos hs, mul_add, mul_one]
    omega

theorem two_pow_dvd_partial {t : ℕ} (ht : t < w) :
    2 ^ t ∣ s.toNat + ((s * invm) &&& ((1#w <<< t) - 1#w)).toNat * m.toNat := by
  have hfull : 2 ^ t ∣ s.toNat + (s * invm).toNat * m.toNat := by
    rw [← mulWide_cancel h s]
    exact Dvd.dvd.mul_right (pow_dvd_pow 2 ht.le) _
  have hcongr : s.toNat + (s * invm).toNat % 2 ^ t * m.toNat
      ≡ s.toNat + (s * invm).toNat * m.toNat [MOD 2 ^ t] :=
    ((Nat.mod_modEq _ _).mul_right _).add_left _
  rw [toNat_and_halfMask _ ht]
  exact (hcongr.dvd_iff dvd_rfl).mpr hfull

end

/-- The low word of a reduction step: whether the code tests the low word itself or
the low product word, the carry goes into the high product word without wrapping. -/
theorem redcLow_spec (hw : 0 < w) {m : Modulusredc w} (hm : ValidModulus m) (s : BitVec w)
    {c : Prop} [Decidable c] (hc : c ↔ s ≠ 0#w) :
    ∃ h, tracedIncIf c (mulWide (s * m.invm) m.m.lo).hi = pure h ∧
      2 ^ w * h.toNat = s.toNat + (s * m.invm).toNat * m.m.lo.toNat := by
  have hcancel := mulWide_cancel hm.invm_mul s
  by_cases hs : s = 0#w
  · refine ⟨_, by rw [tracedIncIf, if_neg (by rw [hc]; simpa using hs)], ?_⟩
    rwa [if_neg (not_not.mpr hs), add_zero] at hcancel
  · have hone : (1#w).toNat = 1 := by
      rw [BitVec.toNat_ofNat, Nat.mod_eq_of_lt (Nat.one_lt_two_pow (by omega))]
    have hroom := mulWide_hi_lt (s * m.invm) m.m.lo
    obtain ⟨h, hh, hhv⟩ := tracedAddUl_of_lt
      (r := (mulWide (s * m.invm) m.m.lo).hi) (a := 1#w) (by omega)
    refine ⟨h, by rw [tracedIncIf, if_pos (hc.mpr hs), hh], ?_⟩
    rwa [if_pos hs, ← hone, ← hhv] at hcancel

/-! ## Initialisation -/

theorem modredcIntsub_zero_value {s : TwoWord w} (hs : 0 < s.value) :
    (modredcIntsub build ⟨0#w, 0#w⟩ s).value = 2 ^ w * 2 ^ w - s.value := by
  have hzero : (⟨0#w, 0#w⟩ : TwoWord w).value = 0 := by simp [value]
  have hflag : ((⟨0#w, 0#w⟩ : TwoWord w).sub s).2 = true := by
    rw [TwoWord.sub_flag_iff, hzero]
    exact hs
  have hvalue := TwoWord.sub_value ⟨0#w, 0#w⟩ s
  simp only [hflag, hzero, Bool.toNat_true] at hvalue
  rw [modredcIntsub, ularithSub2ul2ul_eq]
  omega

theorem BorrowMissed.lo_lt {r a : TwoWord w} (h : BorrowMissed r a) :
    r.lo.toNat < a.lo.toNat ∧ a.value + 2 ^ w = 2 ^ w * 2 ^ w + a.lo.toNat := by
  obtain ⟨hones, hflag⟩ := h
  constructor
  · simpa [subFlag] using hflag
  · rw [value, hones, BitVec.toNat_allOnes, Nat.mul_sub, mul_one]
    have hW := Nat.two_pow_pos w
    have hle : 2 ^ w ≤ 2 ^ w * 2 ^ w := Nat.le_mul_of_pos_left _ hW
    omega

/-- When the quotient for `one` is overestimated, the fallback does not miss
it: the remainder is not below the low word of the modulus. -/
theorem initmod_not_borrowMissed (hw : 0 < w) {n s t : TwoWord w} (hpos : 0 < s.hi.toNat)
    (hodd : s.value % 2 = 1) (hn : n.value = 2 ^ w * 2 ^ w - s.value)
    (ht : t.value = (n.value / s.value + 1) * s.value)
    (hover : n.value / 2 ^ s.hi.toNat.size / (s.value / 2 ^ s.hi.toNat.size)
      = n.value / s.value + 1) : ¬ BorrowMissed n t := by
  intro hmissed
  obtain ⟨hlo, htv⟩ := hmissed.lo_lt
  have hslt := s.value_lt
  have hspos : 0 < s.value := by omega
  have hquot : n.value / s.value + 1 = 2 ^ w * 2 ^ w / s.value := by
    rw [hn]
    exact (Nat.div_eq_sub_div hspos hslt.le).symm
  have hsize : 2 ^ s.hi.toNat.size ≤ 2 * s.hi.toNat := by
    have hsz : 0 < s.hi.toNat.size := Nat.size_pos.mpr hpos
    have hlow : 2 ^ (s.hi.toNat.size - 1) ≤ s.hi.toNat := Nat.lt_size.mp (by omega)
    calc 2 ^ s.hi.toNat.size = 2 * 2 ^ (s.hi.toNat.size - 1) := by
          rw [← pow_succ']
          congr 1
          omega
      _ ≤ 2 * s.hi.toNat := Nat.mul_le_mul_left 2 hlow
  rw [hquot, hn] at hover
  have hmod := Redc.low_word_le_mod_of_overshoot hslt.le hspos
    (show 2 ^ w * s.hi.toNat ≤ s.value from Nat.le_add_left _ _) (Nat.two_pow_pos _)
    hsize hover
  have hslo : s.value - 2 ^ w * s.hi.toNat = s.lo.toNat := by simp [value]
  have hsplit := Nat.div_add_mod' (2 ^ w * 2 ^ w) s.value
  rw [hslo] at hmod
  rw [hquot] at ht
  -- the low word of `n` is the complement of the low word of the modulus
  have hnlo : n.lo.toNat = 2 ^ w - s.lo.toNat := by
    have hlopos : 0 < s.lo.toNat := by
      have := value_mod_two hw s
      omega
    have hlolt := s.lo.isLt
    have hhilt := s.hi.isLt
    have hcomplement : n.value = 2 ^ w - s.lo.toNat + 2 ^ w * (2 ^ w - 1 - s.hi.toNat) := by
      have hmul : 2 ^ w * (2 ^ w - 1 - s.hi.toNat) + 2 ^ w * s.hi.toNat + 2 ^ w
          = 2 ^ w * 2 ^ w := by
        rw [← mul_add, ← Nat.mul_succ]
        congr 1
        omega
      rw [hn, value]
      omega
    rw [← TwoWord.value_mod, hcomplement, Nat.add_mul_mod_self_left, Nat.mod_eq_of_lt (by omega)]
  omega

/-- Initialisation accepts every odd number with a nonzero high word below the
allowed bound and gives a valid modulus. -/
theorem modredcInitmodUls_spec (hw : w = 32 ∨ w = 64) {bits : ℕ}
    (hbits : bits ≤ w - 2) {s : TwoWord w} (hodd : s.value % 2 = 1)
    (hpos : 0 < s.hi.toNat) (hbound : s.hi.toNat < 2 ^ bits) :
    ∃ m, modredcInitmodUls build bits s = pure m ∧ m.m = s ∧ ValidModulus m := by
  have hw0 : 0 < w := by omega
  have hpow : (2 : ℕ) ^ w = 4 * 2 ^ (w - 2) := by
    rw [show (4 : ℕ) = 2 ^ 2 by rfl, ← pow_add]
    congr 1
    omega
  have hhi : s.hi.toNat + 1 ≤ 2 ^ (w - 2) :=
    hbound.trans_le (Nat.pow_le_pow_right (by omega) hbits)
  have hlolt := s.lo.isLt
  have hfour : 4 * s.value ≤ 2 ^ w * 2 ^ w := by
    calc 4 * s.value ≤ 4 * (2 ^ w * (s.hi.toNat + 1)) := by
          unfold value
          rw [mul_add (2 ^ w)]
          omega
      _ ≤ 4 * (2 ^ w * 2 ^ (w - 2)) :=
        Nat.mul_le_mul_left 4 (Nat.mul_le_mul_left _ hhi)
      _ = 2 ^ w * (4 * 2 ^ (w - 2)) := by ring
      _ = 2 ^ w * 2 ^ w := by rw [← hpow]
  have hspos : 0 < s.value := by omega
  have hassert₁ : s.hi > 0#w := by
    rw [gt_iff_lt, BitVec.lt_def]
    simpa using hpos
  have hassert₂ : s.hi < 1#w <<< bits := by
    have hone : (1#w <<< bits).toNat = 2 ^ bits := by
      rw [BitVec.toNat_shiftLeft, BitVec.toNat_ofNat,
        Nat.mod_eq_of_lt (Nat.one_lt_two_pow (by omega)), Nat.shiftLeft_eq, one_mul,
        Nat.mod_eq_of_lt (Nat.pow_lt_pow_right (by omega) (by omega))]
    rw [BitVec.lt_def, hone]
    exact hbound
  have hloodd : s.lo.toNat % 2 ≠ 0 := by
    rw [← value_mod_two hw0]
    omega
  obtain ⟨inv, hinv, hinvmul⟩ := ularithInvmod_spec hw hloodd
  have hn := modredcIntsub_zero_value build hspos
  obtain ⟨one, hone, honev⟩ := modredcIntmod_twoWord build (by omega) (by omega)
    (modredcIntsub build ⟨0#w, 0#w⟩ s) s hpos (by rw [hn]; omega)
    (fun t ht hover => initmod_not_borrowMissed hw0 hpos hodd hn ht hover)
  refine ⟨{ m := s, one := one, invm := -inv }, ?_, rfl, hodd, hpos, hfour, ?_, ?_⟩
  · simp [modredcInitmodUls, Outcome.assert_of hassert₁, Outcome.assert_of hassert₂, hinv, hone]
  · change -inv * s.lo = -1#w
    rw [neg_mul, hinvmul]
  · change one.value = 2 ^ w * 2 ^ w % s.value
    rw [honev, hn, ← Nat.mod_eq_sub_mod (by omega)]

end CadoNfs
