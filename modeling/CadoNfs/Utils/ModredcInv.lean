import CadoNfs.Lib.BinaryEuclidRun
import CadoNfs.Utils.ModInt
import CadoNfs.Utils.ModredcArith

/-!
# Inverses modulo two words

`modredc2ul2_inv` of `modredc_2ul2.c` and `modredc15ul_inv` of
`modredc_15ul.c`: a binary algorithm on two-word numbers, and Montgomery reductions for the
power of two that it leaves.

Main results:

- Theorem `modredcInvOps_lawful`: the steps of the algorithm are exact.
- Theorem `modredcInvPartial_spec`: the variable-width reduction divides by a power of two.
- Theorem `modInv_spec`: the inverse is found if there is one.
-/

namespace CadoNfs

open WordArith Redc
open Nat (Coprime ModEq cast_add mod_lt odd_iff two_pow_pos)
open Outcome (assert assert_of dropCarry_of)
open TwoWord (mulWide mulWide_value value value_mod)

variable {w : ℕ}

/-! ## Definitions -/

section Definitions

variable (build : UlarithBuild)

/-- `modredc*_intshl`, with its lost bits on record. -/
def tracedIntshl (s : TwoWord w) (i : ℕ) : Outcome (TwoWord w) :=
  .dropCarry (modredcIntshl build s i, decide (2 ^ w * 2 ^ w ≤ s.value * 2 ^ i))

/-- "Shift left u by LONG_BIT", with the lost high word on record. -/
def tracedMoveWord (u : TwoWord w) : Outcome (TwoWord w) :=
  .dropCarry (⟨0#w, u.lo⟩, decide (u.hi ≠ 0#w))

/-- The loop that makes `a` odd before the algorithm starts. -/
def modredcMakeOddLoop : ℕ → TwoWord w → ℤ → Outcome (TwoWord w × ℤ)
  | 0, _, _ => .abort
  | fuel + 1, a, t =>
    let lsh := lookupZeros a.lo
    let a := modredcIntshr build a lsh
    let t := t + lsh
    if lsh = 8 then modredcMakeOddLoop fuel a t else pure (a, t)

variable (lookup : Bool)

/-- "make a odd", with the table (`LOOKUP_TRAILING_ZEROS`) or without. -/
def modredcMakeOdd (a : TwoWord w) (t : ℤ) : Outcome (TwoWord w × ℤ) :=
  if lookup then modredcMakeOddLoop build (2 * w + 1) a t
  else
    let (a, t) : TwoWord w × ℤ := if a.lo = 0#w then (⟨a.hi, 0#w⟩, t + w) else (a, t)
    let lsh := ularithCtz build a.lo
    pure (modredcIntshr build a lsh, t + lsh)

/-- The loop over the low bytes of `b`. -/
def modredcShiftOutLoop : ℕ → TwoWord w → TwoWord w → ℤ →
    Outcome (TwoWord w × TwoWord w × ℤ)
  | 0, _, _, _ => .abort
  | fuel + 1, b, u, t => do
    let lsh := lookupZeros b.lo
    let b := modredcIntshr build b lsh
    let t := t + lsh
    let u ← tracedIntshl build u lsh
    if lsh = 8 then modredcShiftOutLoop fuel b u t else pure (b, u, t)

/-- The count of the builtin for a `b` whose low word is not zero. -/
def modredcShiftOutCtz (b u : TwoWord w) (t : ℤ) : Outcome (TwoWord w × TwoWord w × ℤ) := do
  let lsh := ularithCtz build b.lo
  let u ← tracedIntshl build u lsh
  pure (modredcIntshr build b lsh, u, t + lsh)

/-- Divide the trailing zeros out of `b`, with the table or without. -/
def modredcShiftOut (b u : TwoWord w) (t : ℤ) :
    Outcome (TwoWord w × TwoWord w × ℤ) :=
  if lookup then modredcShiftOutLoop build (2 * w + 1) b u t
  else if b.lo = 0#w then do
    let u ← tracedMoveWord u
    modredcShiftOutCtz build ⟨b.hi, 0#w⟩ u (t + w)
  else modredcShiftOutCtz build b u t

/-- The operations of the main loop. -/
def modredcInvOps : EuclidOps (TwoWord w) where
  sub b a := modredcIntsub build b a
  add v u := tracedAdd2ul2ul build v u
  lt a b := modredcIntlt build a b
  shiftOut := modredcShiftOut build lookup

/-- The test for equality that ends the main loop. -/
def modredcInvStop (a b : TwoWord w) : Bool :=
  modIntequal .modredc2ul2 a b

/-- The variable-width reduction at the end of the inverse. -/
def modredcInvPartial (u : TwoWord w) (t : ℤ) (m : Modulusredc w) : Outcome (TwoWord w) :=
  if t > 0 then do
    let t := t.toNat
    let k := (u.lo * m.invm) &&& ((1#w <<< t) - 1#w)
    let s01 ← ularithMulUlUl2ul build k m.m.lo
    let s01 ← tracedAdd2ul2ul build s01 u
    let s34 ← ularithMulUlUl2ul build k m.m.hi
    let s12 ← tracedAdd2ul2ul build ⟨s01.hi, 0#w⟩ s34
    -- shift s2:s1:s0 right by t
    pure ⟨ularithShrd build s01.lo s12.lo t, ularithShrd build s12.lo s12.hi t⟩
  else pure u

/-- The loop `while (t >= LONG_BIT)` of `modredc2ul2_inv`. -/
def modredc2ul2InvWords : ℕ → TwoWord w → ℤ → Modulusredc w → Outcome (TwoWord w × ℤ)
  | 0, _, _, _ => .abort
  | fuel + 1, u, t, m =>
    if t ≥ w then do
      let u ← modredc2ul2Redc1 build u m
      modredc2ul2InvWords fuel u (t - w) m
    else pure (u, t)

/-- The one step of `modredc15ul_inv` instead, and its assertion. -/
def modredc15ulInvWords (u : TwoWord w) (t : ℤ) (m : Modulusredc w) :
    Outcome (TwoWord w × ℤ) :=
  if t ≥ w then do
    let u ← modredc15ulRedc1 build u m
    assert (t - w < w)
    pure (u, t - w)
  else do
    assert (t < w)
    pure (u, t)

/-- The full reductions at the end of the inverse. -/
def modredcInvWords (arith : RedcArith) (u : TwoWord w) (t : ℤ) (m : Modulusredc w) :
    Outcome (TwoWord w × ℤ) :=
  match arith with
  | .modredc15ul => modredc15ulInvWords build u t m
  | .modredc2ul2 => modredc2ul2InvWords build (t.toNat + 1) u t m

/-- `modredc2ul2_inv` and `modredc15ul_inv`.  The inner `none` is the return value
0, for which `r` is not written. -/
def modredcInv (arith : RedcArith) (lookup : Bool) (A : TwoWord w) (m : Modulusredc w) :
    Outcome (Option (TwoWord w)) := do
  if A.lo = 0#w ∧ A.hi = 0#w then pure none
  else do
    let b := m.m
    let a ← modGetUls arith build A m
    let a ← modRedc1 arith build a m
    let (a, t) ← modredcMakeOdd build lookup a (-w)
    let (a, _, u, _, t) ← (modredcInvOps build lookup).loop modredcInvStop (4 * w) (4 * w)
      a b ⟨1#w, 0#w⟩ ⟨0#w, 0#w⟩ t
    if modIntcmpUl .modredc2ul2 a 1#w ≠ 0 then pure none
    else do
      assert (t ≥ 0)
      let (u, t) ← modredcInvWords build arith u t m
      let u ← modredcInvPartial build u t m
      pure (some u)

end Definitions

/-- `modredc2ul2_inv`. -/
def modredc2ul2Inv (build : UlarithBuild) (lookup : Bool) (A : TwoWord w) (m : Modulusredc w) :
    Outcome (Option (TwoWord w)) :=
  modredcInv build .modredc2ul2 lookup A m

/-- `modredc15ul_inv`. -/
def modredc15ulInv (build : UlarithBuild) (lookup : Bool) (A : TwoWord w) (m : Modulusredc w) :
    Outcome (Option (TwoWord w)) :=
  modredcInv build .modredc15ul lookup A m

/-- `mod_inv`. -/
def modInv (arith : RedcArith) (build : UlarithBuild) (lookup : Bool) (A : TwoWord w)
    (m : Modulusredc w) : Outcome (Option (TwoWord w)) :=
  match arith with
  | .modredc15ul => modredc15ulInv build lookup A m
  | .modredc2ul2 => modredc2ul2Inv build lookup A m

/-! ## Trailing zeros -/

section Zeros

variable {b u : TwoWord w} {c l p : ℕ}

theorem lookupZeros_lo (hw : 8 ≤ w) (b : TwoWord w) :
    lookupZeros b.lo = trailingZeros.getD (b.value % 256) 0 := by
  have hdvd : 256 ∣ 2 ^ w := pow_dvd_pow 2 hw
  rw [lookupZeros, ← value_mod, Nat.mod_mod_of_dvd _ hdvd]

variable (build : UlarithBuild)

theorem tracedIntshl_of_lt (hl : l < w) (h : u.value * 2 ^ l < 2 ^ w * 2 ^ w) :
    ∃ d, tracedIntshl build u l = pure d ∧ d.value = u.value * 2 ^ l :=
  ⟨modredcIntshl build u l, dropCarry_of (by simpa using h), modredcIntshl_value build hl h⟩

theorem modredcIntshr_of_eq (hl : l < w) (hb : b.value = c * 2 ^ l) :
    (modredcIntshr build b l).value = c := by
  rw [modredcIntshr_value build b hl, hb]
  exact Nat.mul_div_cancel c (two_pow_pos l)

theorem tracedIntshl_spec (hp : p < 2 ^ w * 2 ^ w) (hl : l < w)
    (hpos : 0 < b.value) (hb : b.value = c * 2 ^ l) (hle : b.value * u.value ≤ p) :
    ∃ d, tracedIntshl build u l = pure d ∧ d.value = u.value * 2 ^ l ∧ c * d.value ≤ p := by
  have hc : 0 < c := Nat.pos_of_ne_zero fun h => by rw [hb, h, Nat.zero_mul] at hpos; omega
  have hmul : c * (u.value * 2 ^ l) = b.value * u.value := by
    rw [hb]
    ring
  have hle' : u.value * 2 ^ l ≤ c * (u.value * 2 ^ l) := Nat.le_mul_of_pos_left _ hc
  obtain ⟨d, hd, hdv⟩ := tracedIntshl_of_lt build (u := u) hl (by omega)
  exact ⟨d, hd, hdv, by rwa [hdv, hmul]⟩

theorem value_eq_of_lo (hlw : l < w) (hlo : b.lo.toNat = c * 2 ^ l) (hc : c % 2 = 1) :
    ∃ c', b.value = c' * 2 ^ l ∧ c' % 2 = 1 := by
  have hpow : 2 ^ w = 2 * 2 ^ (w - l - 1) * 2 ^ l := by
    rw [← pow_succ', ← pow_add]
    congr 1
    omega
  refine ⟨c + 2 * (2 ^ (w - l - 1) * b.hi.toNat), ?_, by omega⟩
  rw [value, hlo, hpow]
  ring

theorem ularithCtz_lo (hw : 0 < w) (hlo : b.lo ≠ 0#w) : ularithCtz build b.lo < w ∧
      ∃ c, b.value = c * 2 ^ ularithCtz build b.lo ∧ c % 2 = 1 := by
  have hpos : 0 < b.lo.toNat :=
    Nat.pos_of_ne_zero fun h => hlo (BitVec.eq_of_toNat_eq (by simpa using h))
  obtain ⟨c, hc, hodd⟩ := ularithCtz_spec build hw hpos
  have hlt : ularithCtz build b.lo < w := by
    have hle : 2 ^ ularithCtz build b.lo ≤ b.lo.toNat := by
      conv_rhs => rw [hc]
      exact Nat.le_mul_of_pos_left _ (by omega)
    exact (Nat.pow_lt_pow_iff_right (by decide)).mp (hle.trans_lt b.lo.isLt)
  exact ⟨hlt, value_eq_of_lo hlt hc hodd⟩

theorem value_of_lo_zero (hlo : b.lo = 0#w) :
    b.value = (⟨b.hi, 0#w⟩ : TwoWord w).value * 2 ^ w := by
  simp [value, hlo, mul_comm]

/-- Whole bytes of zeros are shifted out first. -/
theorem modredcShiftOutLoop_spec (hw : 8 < w) {fuel : ℕ} (t : ℤ)
    (hp : p < 2 ^ w * 2 ^ w) (hpos : 0 < b.value) (hfuel : b.value < 2 ^ (8 * fuel))
    (hle : b.value * u.value ≤ p) :
    ∃ l c d, modredcShiftOutLoop build fuel b u t = pure (c, d, t + (l : ℕ)) ∧
      b.value = c.value * 2 ^ l ∧ c.value % 2 = 1 ∧ d.value = u.value * 2 ^ l := by
  induction fuel generalizing b u t with
  | zero => omega
  | succ fuel ih =>
    have hlookup := lookupZeros_lo hw.le b
    rcases trailingZeros_byte b.value with ⟨htz, k, hk⟩ | ⟨htz, q, hq⟩ <;> rw [← hlookup] at htz
    · -- a whole byte of zeros
      rw [mul_comm] at hk
      obtain ⟨d, hrun, hd, hle'⟩ := tracedIntshl_spec build hp hw hpos hk hle
      have hval := modredcIntshr_of_eq build hw hk
      obtain ⟨l, c, e, hrest, hc, hodd, he⟩ := ih (b := modredcIntshr build b 8) (u := d)
        (t + (8 : ℕ)) (by omega) (by
          rw [show 8 * (fuel + 1) = 8 * fuel + 8 by ring, pow_add] at hfuel
          omega) (by rwa [hval])
      refine ⟨8 + l, c, e, ?_, ?_, hodd, ?_⟩
      · simp only [modredcShiftOutLoop, htz, hrun, pure_bind, if_true, hrest, cast_add, add_assoc]
      · rw [hk, ← hval, hc, mul_assoc, ← pow_add, add_comm l]
      · rw [he, hd, mul_assoc, ← pow_add]
    · rw [← hlookup] at hq
      obtain ⟨d, hrun, hd, -⟩ := tracedIntshl_spec build hp (htz.trans hw) hpos hq hle
      have hval := modredcIntshr_of_eq build (htz.trans hw) hq
      refine ⟨lookupZeros b.lo, modredcIntshr build b (lookupZeros b.lo), d, ?_, ?_, ?_, hd⟩
      · simp [modredcShiftOutLoop, hrun, htz.ne]
      · rw [hval]
        exact hq
      · rw [hval]
        omega

theorem modredcShiftOutCtz_spec (hw : 0 < w) (t : ℤ)
    (hp : p < 2 ^ w * 2 ^ w) (hlo : b.lo ≠ 0#w) (hle : b.value * u.value ≤ p) :
    ∃ l c d, modredcShiftOutCtz build b u t = pure (c, d, t + (l : ℕ)) ∧
      b.value = c.value * 2 ^ l ∧ c.value % 2 = 1 ∧ d.value = u.value * 2 ^ l := by
  obtain ⟨hlt, c, hc, hodd⟩ := ularithCtz_lo build hw hlo
  have hpos : 0 < b.value := by
    rw [hc]
    exact Nat.mul_pos (by omega) (two_pow_pos _)
  obtain ⟨d, hrun, hd, -⟩ := tracedIntshl_spec build hp hlt hpos hc hle
  have hval := modredcIntshr_of_eq build hlt hc
  refine ⟨ularithCtz build b.lo, modredcIntshr build b (ularithCtz build b.lo), d, ?_, ?_, ?_, hd⟩
  · rw [modredcShiftOutCtz, hrun, pure_bind]
  · rw [hval]
    exact hc
  · rw [hval]
    exact hodd

variable (lookup : Bool)

/-- Factors of two go from the value to the coefficient. -/
theorem modredcShiftOut_spec (hw : 8 < w) (t : ℤ)
    (hp : p < 2 ^ w * 2 ^ w) (hpos : 0 < b.value) (hle : b.value * u.value ≤ p) :
    ∃ l c d, modredcShiftOut build lookup b u t = pure (c, d, t + (l : ℕ)) ∧
      b.value = c.value * 2 ^ l ∧ c.value % 2 = 1 ∧ d.value = u.value * 2 ^ l := by
  cases lookup with
  | true =>
    refine modredcShiftOutLoop_spec build hw t hp hpos (b.value_lt.trans_le ?_) hle
    rw [← pow_add]
    exact Nat.pow_le_pow_right two_pos (by omega)
  | false =>
    by_cases hlo : b.lo = 0#w
    · -- the low word is zero: first a whole word is moved
      have hb := value_of_lo_zero hlo
      have hbpos : 0 < (⟨b.hi, 0#w⟩ : TwoWord w).value :=
        Nat.pos_of_ne_zero fun h => by rw [hb, h, Nat.zero_mul] at hpos; omega
      have hule : 2 ^ w * u.value ≤ b.value * u.value := by
        rw [hb]
        exact Nat.mul_le_mul_right _ (Nat.le_mul_of_pos_left _ hbpos)
      have hult : u.value < 2 ^ w := Nat.lt_of_mul_lt_mul_left (hule.trans_lt (by omega))
      have huhi : u.hi = 0#w := hi_eq_zero_iff.mpr hult
      have hmove : tracedMoveWord u = pure ⟨0#w, u.lo⟩ :=
        dropCarry_of (by simp [huhi])
      have hu : (⟨0#w, u.lo⟩ : TwoWord w).value = u.value * 2 ^ w := by
        simp [value, huhi, mul_comm]
      have hlo' : b.hi ≠ 0#w := by
        intro h
        rw [h, value] at hbpos
        simp at hbpos
      obtain ⟨l, c, d, hrun, hc, hodd, hd⟩ := modredcShiftOutCtz_spec build (by omega)
        (b := ⟨b.hi, 0#w⟩) (u := ⟨0#w, u.lo⟩) (t + w) hp hlo' (by
          rw [hu, mul_comm u.value, ← mul_assoc, ← hb]
          exact hle)
      refine ⟨w + l, c, d, ?_, ?_, hodd, ?_⟩
      · simp [modredcShiftOut, hlo, hmove, hrun, add_assoc]
      · rw [hb, hc, mul_assoc, ← pow_add, add_comm l]
      · rw [hd, hu, mul_assoc, ← pow_add]
    · obtain ⟨l, c, d, hrun, h⟩ := modredcShiftOutCtz_spec build (by omega) t hp hlo hle
      refine ⟨l, c, d, ?_, h⟩
      simp [modredcShiftOut, hlo, hrun]

theorem modredcMakeOddLoop_spec (hw : 8 < w) {fuel : ℕ} (t : ℤ)
    (hpos : 0 < b.value) (hfuel : b.value < 2 ^ (8 * fuel)) :
    ∃ l c, modredcMakeOddLoop build fuel b t = pure (c, t + (l : ℕ)) ∧
      b.value = c.value * 2 ^ l ∧ c.value % 2 = 1 := by
  induction fuel generalizing b t with
  | zero => omega
  | succ fuel ih =>
    have hlookup := lookupZeros_lo hw.le b
    rcases trailingZeros_byte b.value with ⟨htz, k, hk⟩ | ⟨htz, q, hq⟩ <;> rw [← hlookup] at htz
    · rw [mul_comm] at hk
      have hval := modredcIntshr_of_eq build hw hk
      obtain ⟨l, c, hrest, hc, hodd⟩ := ih (b := modredcIntshr build b 8) (t + (8 : ℕ))
        (by omega) (by
          rw [show 8 * (fuel + 1) = 8 * fuel + 8 by ring, pow_add] at hfuel
          omega)
      refine ⟨8 + l, c, ?_, ?_, hodd⟩
      · simp only [modredcMakeOddLoop, htz, if_true, hrest, cast_add, add_assoc]
      · rw [hk, ← hval, hc, mul_assoc, ← pow_add, add_comm l]
    · rw [← hlookup] at hq
      have hval := modredcIntshr_of_eq build (htz.trans hw) hq
      refine ⟨lookupZeros b.lo, modredcIntshr build b (lookupZeros b.lo), ?_, ?_, ?_⟩
      · simp [modredcMakeOddLoop, htz.ne]
      · rw [hval]
        exact hq
      · rw [hval]
        omega

theorem modredcMakeOdd_spec (hw : 8 < w) (t : ℤ) (hpos : 0 < b.value) :
    ∃ l c, modredcMakeOdd build lookup b t = pure (c, t + (l : ℕ)) ∧
      b.value = c.value * 2 ^ l ∧ c.value % 2 = 1 := by
  cases lookup with
  | true =>
    refine modredcMakeOddLoop_spec build hw t hpos (b.value_lt.trans_le ?_)
    rw [← pow_add]
    exact Nat.pow_le_pow_right two_pos (by omega)
  | false =>
    by_cases hlo : b.lo = 0#w
    · have hb := value_of_lo_zero hlo
      have hlo' : b.hi ≠ 0#w := by
        intro h
        rw [hb, h, value] at hpos
        simp at hpos
      obtain ⟨hlt, c, hc, hodd⟩ := ularithCtz_lo build (by omega) (b := ⟨b.hi, 0#w⟩) hlo'
      have hval := modredcIntshr_of_eq build hlt hc
      refine ⟨w + ularithCtz build b.hi, modredcIntshr build ⟨b.hi, 0#w⟩ (ularithCtz build b.hi),
        ?_, ?_, by rw [hval]; exact hodd⟩
      · simp [modredcMakeOdd, hlo, add_assoc]
      · rw [hval, hb, hc, mul_assoc, ← pow_add, add_comm w]
    · obtain ⟨hlt, c, hc, hodd⟩ := ularithCtz_lo build (by omega) hlo
      have hval := modredcIntshr_of_eq build hlt hc
      refine ⟨ularithCtz build b.lo, modredcIntshr build b (ularithCtz build b.lo), ?_,
        by rw [hval]; exact hc, by rw [hval]; exact hodd⟩
      simp [modredcMakeOdd, hlo]

/-- The steps of the main loop are exact. -/
theorem modredcInvOps_lawful (hw : 8 < w) {m : Modulusredc w} (hm : ValidModulus m) :
    (modredcInvOps build lookup).Lawful (value : TwoWord w → ℕ) m.m.value where
  sub_value h := modredcIntsub_value build h
  add_value h := tracedAdd2ul2ul_of_lt build (h.trans_lt m.m.value_lt)
  lt_iff h := by
    rw [modredcInvOps, modredcIntlt_iff]
    exact and_iff_left fun _ => hm.not_borrowMissed_of_le (by omega) _ h
  shiftOut_value t hpos hle := modredcShiftOut_spec build lookup hw t m.m.value_lt hpos hle

end Zeros

/-! ## The power of two -/

section Division

variable {arith : RedcArith} {m : Modulusredc w} {u : TwoWord w} {t : ℕ} (build : UlarithBuild)

/-- The double-word shifts of three words divide by a power of two, when the quotient has two
words. -/
theorem ularithShrd_three (s₀ : BitVec w) (s : TwoWord w) (ht : t < w)
    (hfit : (s₀.toNat + 2 ^ w * s.value) / 2 ^ t < 2 ^ w * 2 ^ w) :
    (⟨ularithShrd build s₀ s.lo t, ularithShrd build s.lo s.hi t⟩ : TwoWord w).value
      = (s₀.toNat + 2 ^ w * s.value) / 2 ^ t := by
  set S := s₀.toNat + 2 ^ w * s.value with hS
  have hhigh : S / 2 ^ t / 2 ^ w = s.value / 2 ^ t := by
    rw [Nat.div_div_eq_div_mul, mul_comm, ← Nat.div_div_eq_div_mul, hS,
      Nat.add_mul_div_left _ _ (two_pow_pos w), Nat.div_eq_of_lt s₀.isLt, zero_add]
  have hlow : (ularithShrd build s₀ s.lo t).toNat = S / 2 ^ t % 2 ^ w := by
    have hshift := ularithShrd_value build ⟨s₀, s.lo⟩ ht
    have hpow : 2 ^ w = 2 ^ (w - t) * 2 ^ t := by
      rw [← pow_add]
      congr 1
      omega
    have hsplit : S = (⟨s₀, s.lo⟩ : TwoWord w).value + 2 ^ t * (2 ^ w * (2 ^ (w - t) * s.hi.toNat))
        := by
      rw [hS, value, value, Nat.mul_add, ← add_assoc]
      congr 1
      rw [show 2 ^ t * (2 ^ w * (2 ^ (w - t) * s.hi.toNat))
        = 2 ^ w * (2 ^ (w - t) * 2 ^ t * s.hi.toNat) by ring, ← hpow]
    rw [← value_mod ⟨ularithShrd build s₀ s.lo t, s.lo >>> t⟩, hshift, hsplit,
      Nat.add_mul_div_left _ _ (two_pow_pos t), Nat.add_mul_mod_self_left]
  have hword : (ularithShrd build s.lo s.hi t).toNat = s.value / 2 ^ t := by
    have hshift := ularithShrd_value build s ht
    rw [← value_mod ⟨ularithShrd build s.lo s.hi t, s.hi >>> t⟩, hshift, Nat.mod_eq_of_lt]
    rw [← hhigh]
    exact Nat.div_lt_of_lt_mul hfit
  rw [value, hlow, hword, ← hhigh]
  exact Nat.mod_add_div _ _

/-- The partial reduction divides by a power of two below the word base. -/
theorem modredcInvPartial_spec (hw : 0 < w) (heven : w % 2 = 0)
    (hm : ValidModulus m) (hu : u.value < m.m.value) (ht : t < w) :
    ∃ r, modredcInvPartial build u t m = pure r ∧
      IsMontgomeryResidue (2 ^ t) m.m.value u.value r.value := by
  have hcop : Coprime m.m.value (2 ^ t) :=
    (Nat.coprime_two_right.mpr (odd_iff.mpr hm.odd)).pow_right t
  rcases Nat.eq_zero_or_pos t with rfl | htpos
  · refine ⟨u, ?_, IsMontgomeryResidue.of_lt hcop hu (by simp [ModEq])⟩
    rw [modredcInvPartial, if_neg (by simp)]
  set k := (u.lo * m.invm) &&& ((1#w <<< t) - 1#w) with hk
  have hklt : k.toNat < 2 ^ t := by
    rw [hk, toNat_and_halfMask _ ht]
    exact mod_lt _ (two_pow_pos t)
  -- no sum leaves its words
  have hfour := hm.four_mul_le
  have hhalf : 2 * (2 ^ t * 2 ^ w) ≤ 2 ^ w * 2 ^ w := by
    rw [← mul_assoc, ← pow_succ']
    exact Nat.mul_le_mul_right _ (Nat.pow_le_pow_right two_pos ht)
  have hbase : 2 * 2 ^ w ≤ 2 ^ w * 2 ^ w :=
    Nat.mul_le_mul_right _ (Nat.le_self_pow (by omega) 2)
  have hprod : ∀ x : BitVec w, (mulWide k x).value < 2 ^ t * 2 ^ w := fun x => by
    rw [mulWide_value]
    exact Nat.mul_lt_mul'' hklt x.isLt
  have hlo := hprod m.m.lo
  have hhi := hprod m.m.hi
  obtain ⟨s01, h01, h01v⟩ := tracedAdd2ul2ul_of_lt build (r := mulWide k m.m.lo) (a := u)
    (by omega)
  have hstart : (⟨s01.hi, 0#w⟩ : TwoWord w).value = s01.hi.toNat := by simp [value]
  have hs01hi := s01.hi.isLt
  obtain ⟨s12, h12, h12v⟩ := tracedAdd2ul2ul_of_lt build (r := ⟨s01.hi, 0#w⟩)
    (a := mulWide k m.m.hi) (by omega)
  have htotal : s01.lo.toNat + 2 ^ w * s12.value = u.value + k.toNat * m.m.value := by
    rw [h12v, hstart, Nat.mul_add, ← add_assoc]
    change s01.value + _ = _
    rw [h01v, mulWide_value, mulWide_value]
    simp only [value]
    ring
  -- the low bits are zero, and the quotient is reduced
  obtain ⟨r, hr⟩ : 2 ^ t ∣ u.value + k.toNat * m.m.value := by
    have hlow := two_pow_dvd_partial hm.invm_mul u.lo ht
    have hsplit : u.value + k.toNat * m.m.value = u.lo.toNat + k.toNat * m.m.lo.toNat
        + 2 ^ w * (u.hi.toNat + k.toNat * m.m.hi.toNat) := by
      simp only [value]
      ring
    rw [hsplit]
    exact Nat.dvd_add hlow ((pow_dvd_pow 2 ht.le).mul_right _)
  have hrlt : r < m.m.value := redc_lt hu hklt hr.symm
  have hquot : (s01.lo.toNat + 2 ^ w * s12.value) / 2 ^ t = r := by
    rw [htotal, hr, Nat.mul_div_cancel_left _ (two_pow_pos t)]
  have hshift := ularithShrd_three build s01.lo s12 ht (by rw [hquot]; omega)
  rw [hquot] at hshift
  refine ⟨⟨ularithShrd build s01.lo s12.lo t, ularithShrd build s12.lo s12.hi t⟩, ?_, ?_⟩
  · rw [modredcInvPartial, if_pos (by exact_mod_cast htpos)]
    simp [← hk, ularithMulUlUl2ul_eq build hw heven, h01, h12]
  · rw [hshift]
    exact IsMontgomeryResidue.of_lt hcop hrlt (congr_of_eq_add_mul hr.symm)

/-- The full reductions leave less than a word base of the power of two.  The one step of the
narrower arithmetic is enough there. -/
theorem modredcInvWords_spec (hw : 0 < w) (heven : w % 2 = 0)
    (hm : ValidRedc arith m) (hu : u.value < m.m.value)
    (ht : arith = .modredc15ul → t < 2 * w) :
    ∃ (r : TwoWord w) (n : ℕ), n < w ∧ modredcInvWords build arith u t m = pure (r, (n : ℤ)) ∧
      r.value < m.m.value ∧ ∃ k, t = n + k ∧ r.value * 2 ^ k ≡ u.value [MOD m.m.value] := by
  have hstep : ∀ {u : TwoWord w}, u.value < m.m.value → ∃ r, modRedc1 arith build u m = pure r ∧
      IsMontgomeryResidue (2 ^ w) m.m.value u.value r.value :=
    fun hu => modRedc1_spec build hw heven hm hu
  cases arith with
  | modredc15ul =>
    have ht := ht rfl
    by_cases hlarge : w ≤ t
    · obtain ⟨n, rfl⟩ := Nat.exists_eq_add_of_le hlarge
      obtain ⟨r, hr, hres⟩ := hstep hu
      refine ⟨r, n, by omega, ?_, hres.lt, w, add_comm _ _, hres.congr⟩
      rw [modRedc1] at hr
      rw [modredcInvWords, modredc15ulInvWords, if_pos (by push_cast; omega), hr,
        pure_bind, cast_add, add_sub_cancel_left,
        assert_of (by exact_mod_cast (show n < w by omega)), pure_bind]
    · refine ⟨u, t, by omega, ?_, hu, 0, rfl, by simp [ModEq]⟩
      rw [modredcInvWords, modredc15ulInvWords, if_neg (by omega), assert_of (by omega), pure_bind]
  | modredc2ul2 =>
    have hloop : ∀ (fuel t : ℕ) (u : TwoWord w), t < fuel → u.value < m.m.value →
        ∃ (r : TwoWord w) (n : ℕ), n < w ∧
          modredc2ul2InvWords build fuel u (t : ℤ) m = pure (r, (n : ℤ)) ∧ r.value < m.m.value ∧
          ∃ k, t = n + k ∧ r.value * 2 ^ k ≡ u.value [MOD m.m.value] := by
      intro fuel
      induction fuel with
      | zero => intro t u ht; omega
      | succ fuel ih =>
        intro t u ht hu
        by_cases hlarge : w ≤ t
        · obtain ⟨n, rfl⟩ := Nat.exists_eq_add_of_le hlarge
          obtain ⟨r₁, hr₁, hres⟩ := hstep hu
          obtain ⟨r, n', hn', hr, hrlt, k, rfl, hcongr⟩ := ih n r₁ (by omega) hres.lt
          refine ⟨r, n', hn', ?_, hrlt, k + w, by ring, ?_⟩
          · rw [modRedc1] at hr₁
            rw [modredc2ul2InvWords, if_pos (by push_cast; omega), hr₁, pure_bind, ← hr]
            congr 1
            push_cast
            ring
          · rw [pow_add, ← mul_assoc]
            exact (hcongr.mul_right _).trans hres.congr
        · refine ⟨u, t, by omega, ?_, hu, 0, rfl, by simp [ModEq]⟩
          rw [modredc2ul2InvWords, if_neg (by omega)]
    exact hloop _ t u (by omega) hu

/-- The two conversions divide by the third power of the word base.  They keep the common divisor
with the modulus, and what they leave of a nonzero residue is positive. -/
theorem modredcInv_conversions {A : TwoWord w} (hpos : 0 < w) (heven : w % 2 = 0)
    (hm : ValidRedc arith m) (hA : A.value < m.m.value) (hzero : ¬(A.lo = 0#w ∧ A.hi = 0#w)) :
    ∃ a₁ a, modGetUls arith build A m = pure a₁ ∧ modRedc1 arith build a₁ m = pure a ∧
      0 < a.value ∧ a.value < m.m.value ∧ Nat.gcd A.value m.m.value = Int.gcd a.value m.m.value ∧
      a.value * (2 ^ w * (2 ^ w * 2 ^ w)) ≡ A.value [MOD m.m.value] := by
  obtain ⟨a₁, ha₁, ha₁res⟩ := modGetUls_spec build hpos heven hm hA
  obtain ⟨a, ha, hares⟩ := modRedc1_spec build hpos heven hm ha₁res.lt
  have haA : a.value * (2 ^ w * (2 ^ w * 2 ^ w)) ≡ A.value [MOD m.m.value] := by
    rw [← mul_assoc]
    exact (hares.congr.mul_right _).trans ha₁res.congr
  have hcop : Coprime m.m.value (2 ^ w) :=
    (Nat.coprime_two_right.mpr (odd_iff.mpr hm.odd)).pow_right w
  refine ⟨a₁, a, ha₁, ha, Nat.pos_of_ne_zero fun h => hzero ?_, hares.lt, ?_, haA⟩
  · rw [h, Nat.zero_mul] at haA
    have hA0 := (haA.eq_of_lt_of_lt hm.pos hA).symm
    rw [value] at hA0
    have hW := two_pow_pos w
    constructor <;> apply BitVec.eq_of_toNat_eq <;> rw [BitVec.toNat_zero]
    · omega
    · exact (Nat.mul_eq_zero.mp (by omega : 2 ^ w * A.hi.toNat = 0)).resolve_left hW.ne'
  · rw [Int.gcd_natCast_natCast, ← haA.gcd_eq]
    exact Coprime.gcd_mul_right_cancel _ (hcop.mul_right (hcop.mul_right hcop)).symm

/-- The reductions after the loop: a coefficient of `a` at the power `2 ^ (w + t)` gives the
inverse of `A`. -/
theorem modredcInv_reductions {A a : TwoWord w} (hw : w = 32 ∨ w = 64) (hm : ValidRedc arith m)
    (hA : A.value < m.m.value) (hu : u.value < m.m.value) (ht : arith = .modredc15ul → t < 2 * w)
    (haA : a.value * (2 ^ w * (2 ^ w * 2 ^ w)) ≡ A.value [MOD m.m.value])
    (hinv : (a.value * u.value : ℤ) ≡ 2 ^ (w + t) [ZMOD m.m.value]) :
    ∃ (r₁ : TwoWord w) (n : ℤ) (r : TwoWord w),
      modredcInvWords build arith u t m = pure (r₁, n) ∧
      modredcInvPartial build r₁ n m = pure r ∧ r.value < m.m.value ∧
      modMul arith build r A m = pure m.one := by
  have hpos : 0 < w := by omega
  have heven : w % 2 = 0 := by omega
  obtain ⟨r₁, n, hn, hwords, hr₁, k, rfl, hr₁u⟩ :=
    modredcInvWords_spec build hpos heven hm hu ht
  obtain ⟨r, hr, hres⟩ := modredcInvPartial_spec build hpos heven hm.toValidModulus hr₁ hn
  have hru : r.value * 2 ^ (n + k) ≡ u.value [MOD m.m.value] := by
    rw [pow_add, ← mul_assoc]
    exact (hres.congr.mul_right _).trans hr₁u
  have hinv' : a.value * u.value ≡ 2 ^ (n + k) * 2 ^ w [MOD m.m.value] := by
    rw [← pow_add, add_comm (n + k), ← Int.natCast_modEq_iff]
    exact_mod_cast hinv
  have hrA := mul_modEq_of_inverse
    ((Nat.coprime_two_right.mpr (odd_iff.mpr hm.odd)).pow_right (n + k)) hinv' hru haA
  obtain ⟨one, hmul, hmulres⟩ := modMul_spec build (by omega) heven hm hres.lt hA
  have hone : one = m.one := by
    refine TwoWord.value_injective (hmulres.unique m.one.value ?_ ?_).symm
    · rw [hm.one_value]
      exact mod_lt _ hm.pos
    · rw [hm.one_value]
      refine ((Nat.mod_modEq _ _).mul_right _).trans ?_
      rw [show 2 ^ w * 2 ^ w * (2 ^ w * 2 ^ w) = 2 ^ w * (2 ^ w * 2 ^ w) * 2 ^ w by ring]
      exact hrA.symm
  exact ⟨r₁, n, r, hwords, hr, hres.lt, by rw [hmul, hone]⟩

end Division

/-! ## The inverse -/

/-- For both headers, every odd modulus in range and both ways to count trailing zeros: if the
residue is coprime to the modulus the inverse is returned, reduced, and otherwise none.  No bit is
lost in a sum or a left shift, and no assertion fails. -/
theorem modInv_spec (arith : RedcArith) (build : UlarithBuild) (lookup : Bool)
    (hw : w = 32 ∨ w = 64) {s : TwoWord w} (hodd : s.value % 2 = 1) (hlow : 2 ^ w < s.value)
    (hhigh : s.value < 2 ^ arith.bits w) :
    ∃ m, modInitmodUls arith build s = pure m ∧ m.m = s ∧ ∀ A : TwoWord w, A.value < s.value →
      (Nat.gcd A.value s.value = 1 → ∃ r, modInv arith build lookup A m = pure (some r) ∧
        r.value < s.value ∧ modMul arith build r A m = pure m.one) ∧
      (Nat.gcd A.value s.value ≠ 1 → modInv arith build lookup A m = pure none) := by
  have hpos : 0 < w := by omega
  have heven : w % 2 = 0 := by omega
  obtain ⟨m, hinit, rfl, hm⟩ := modInitmodUls_spec build hw hodd hlow.le hhigh
  refine ⟨m, hinit, rfl, fun A hA => ?_⟩
  have hmod : modInv arith build lookup A m = modredcInv build arith lookup A m := by
    cases arith <;> rfl
  rw [hmod]
  have hone_toNat : (1#w).toNat = 1 := toNat_const (Nat.one_lt_two_pow (by omega))
  have hmone : 1 < m.m.value := (Nat.one_lt_two_pow (by omega)).trans hlow
  by_cases hzero : A.lo = 0#w ∧ A.hi = 0#w
  · have hA0 : A.value = 0 := by simp [value, hzero.1, hzero.2]
    refine ⟨fun h => ?_, fun _ => by rw [modredcInv, if_pos hzero]⟩
    rw [hA0, Nat.gcd_zero_left] at h
    omega
  obtain ⟨a₁, a, ha₁, ha, hapos, halt, hgcd, haA⟩ :=
    modredcInv_conversions build hpos heven hm hA hzero
  -- the main loop
  obtain ⟨l, c, hc, hcl, hcodd⟩ := modredcMakeOdd_spec build lookup (by omega) (-w) hapos
  have hpair := OddPair.start hodd hcl hcodd halt
  have hbound : a.value * m.m.value < 2 ^ (4 * w) := by
    calc a.value * m.m.value < 2 ^ w * 2 ^ w * (2 ^ w * 2 ^ w) :=
          Nat.mul_lt_mul'' a.value_lt m.m.value_lt
      _ = 2 ^ (4 * w) := by
        rw [← pow_add, ← pow_add]
        congr 1
        omega
  have hclt : c.value < m.m.value := by
    have hle : c.value ≤ c.value * 2 ^ l := Nat.le_mul_of_pos_right _ (two_pow_pos l)
    omega
  have hfits : ∀ a : TwoWord w, ModArith.Fits .modredc2ul2 a := fun a h => by cases h
  have hstop : ∀ a b : TwoWord w, modredcInvStop a b = true ↔ a.value = b.value := fun a b =>
    modIntequal_iff (hfits a) (hfits b)
  have hone : (⟨1#w, 0#w⟩ : TwoWord w).value = 1 := by simp [value, hone_toNat]
  have hnull : (⟨0#w, 0#w⟩ : TwoWord w).value = 0 := by simp [value]
  obtain ⟨a', b', u, v, t, hloop, h', heq⟩ := EuclidOps.loop_spec
    (modredcInvOps_lawful build lookup (by omega) hm.toValidModulus) hstop
    (a := c) (b := m.m) (u := ⟨1#w, 0#w⟩) (v := ⟨0#w, 0#w⟩) (x := a.value)
    (n := a.value * m.m.value) (t := l)
    (by rw [EuclidOps.Pair, hone, hnull]; exact hpair)
    hclt hbound (hbound.trans_le (Nat.pow_le_pow_right two_pos (Nat.le_add_left _ _))) (-w)
  rw [add_comm (-(w : ℤ))] at hc
  have hrun : modredcInv build arith lookup A m
      = (if modIntcmpUl .modredc2ul2 a' 1#w ≠ 0 then pure none
      else do
        assert ((t : ℤ) + -w ≥ 0)
        let (u, t) ← modredcInvWords build arith u (t + -w) m
        let u ← modredcInvPartial build u t m
        pure (some u)) := by
    simp [modredcInv, if_neg hzero, ha₁, ha, hc, hloop]
  have hcmp : modIntcmpUl .modredc2ul2 a' 1#w = 0 ↔ a'.value = 1 := by
    rw [modIntcmpUl_eq_zero_iff (fun h => by cases h), hone_toNat]
  by_cases ha' : a'.value = 1
  · rw [EuclidOps.Pair, ← heq, ha'] at h'
    obtain ⟨hcoprime, hult, hinv⟩ := h'.left_inverse hodd hmone
    refine ⟨fun _ => ?_, fun h => absurd (hgcd.trans hcoprime) h⟩
    -- the coefficients sum up to the modulus, so the power of two is large
    obtain ⟨e, rfl⟩ : ∃ e, t = w + e := by
      refine Nat.exists_eq_add_of_le (Nat.lt_succ_iff.mp
        ((Nat.pow_lt_pow_iff_right (show 1 < 2 by decide)).mp ?_))
      have htotal := h'.total
      have hu := h'.left_coeff
      have hv := h'.right_coeff
      rw [Nat.pow_succ]
      omega
    have hsmall : arith = .modredc15ul → e < 2 * w := by
      rintro rfl
      have hsq : a.value * m.m.value < 2 ^ (3 * w) := by
        calc a.value * m.m.value < 2 ^ (w + w / 2) * 2 ^ (w + w / 2) :=
              Nat.mul_lt_mul'' (halt.trans hm.lt_bits) hm.lt_bits
          _ = 2 ^ (3 * w) := by
            rw [← pow_add]
            congr 1
            omega
      have hlt := (Nat.pow_lt_pow_iff_right (show 1 < 2 by decide)).mp (h'.two_pow_le.trans_lt hsq)
      omega
    obtain ⟨r₁, n, r, hwords, hr, hrlt, hmul⟩ :=
      modredcInv_reductions build hw hm hA hult hsmall haA hinv
    refine ⟨r, ?_, hrlt, hmul⟩
    have hcount : ((w + e : ℕ) : ℤ) + -w = (e : ℤ) := by
      push_cast
      ring
    have hcount' : assert ((e : ℤ) ≥ 0) = pure () := assert_of (Int.natCast_nonneg _)
    rw [hrun, if_neg (not_not.mpr (hcmp.mpr ha')), hcount]
    simp only [hcount', hwords, hr, pure_bind]
  · rw [EuclidOps.Pair, ← heq] at h'
    refine ⟨fun h => absurd (hgcd.symm.trans h) (h'.not_coprime ha'), fun _ => ?_⟩
    rw [hrun, if_pos (mt hcmp.mp ha')]

/-- The inverse of 3 modulo `2 ^ 64 + 13`. -/
theorem modInv_spec_word64 :
    ∃ m, modInitmodUls .modredc2ul2 .noAsm (⟨13#64, 1#64⟩ : TwoWord 64) = pure m ∧
      ∃ r, modInv .modredc2ul2 .noAsm true ⟨3#64, 0#64⟩ m = pure (some r) ∧
        r.value < 2 ^ 64 + 13 ∧
        modMul .modredc2ul2 .noAsm r ⟨3#64, 0#64⟩ m = pure m.one := by
  obtain ⟨m, hinit, -, hinv⟩ := modInv_spec .modredc2ul2 .noAsm true (Or.inr rfl)
    (s := (⟨13#64, 1#64⟩ : TwoWord 64)) (by decide) (by decide) (by decide)
  exact ⟨m, hinit, (hinv ⟨3#64, 0#64⟩ (by decide)).1 (by decide)⟩

end CadoNfs
