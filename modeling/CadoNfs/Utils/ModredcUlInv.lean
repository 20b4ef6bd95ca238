import CadoNfs.Lib.BinaryEuclidRun
import CadoNfs.Utils.ModredcUl

/-!
# Inverses modulo one word

`modredcul_inv` of `modredc_ul.c`: a binary algorithm, and one full and one partial
Montgomery reduction for the power of two that it leaves.

Main results:

- Theorem `modredculInvOps_lawful`: the steps of the algorithm are exact, for both ways to
  count trailing zeros.
- Theorem `modredculInvRedc_spec`: the two reductions divide by the power of two.
- Theorem `modredculInv_spec`: the inverse is found if there is one.
-/

namespace CadoNfs

open WordArith Redc
open BitVec (allOnes eq_of_toNat_eq le_def lt_def toNat_zero)
open Outcome (assert assert_of)

variable {w : ℕ}

/-! ## Definitions -/

/-- How trailing zeros are counted (`LOOKUP_TRAILING_ZEROS`): with the table, or with the
compiler builtin, for which `ctzl(0)` may be any number. -/
inductive ZeroCount where
  | lookup
  | ctzl (ofZero : ℕ)
  deriving DecidableEq, Repr

/-- The C operator `<<=` on one word, with its lost bits on record. -/
def tracedShlUl (r : BitVec w) (i : ℕ) : Outcome (BitVec w) :=
  .dropCarry (r <<< i, decide (2 ^ w ≤ r.toNat * 2 ^ i))

/-- `ctzl`. -/
def ctzl (ofZero : ℕ) (x : BitVec w) : ℕ :=
  if x = 0#w then ofZero else ctz w x.toNat

/-- The loop that makes `y` odd before the algorithm starts. -/
def modredculMakeOddLoop : ℕ → BitVec w → ℤ → Outcome (BitVec w × ℤ)
  | 0, _, _ => .abort
  | fuel + 1, y, t =>
    let lsh := lookupZeros y
    let y := y >>> lsh
    let t := t + lsh
    if lsh = 8 then modredculMakeOddLoop fuel y t else pure (y, t)

/-- "make y odd". -/
def modredculMakeOdd (zeros : ZeroCount) (y : BitVec w) (t : ℤ) : Outcome (BitVec w × ℤ) :=
  match zeros with
  | .lookup => modredculMakeOddLoop (w + 1) y t
  | .ctzl ofZero =>
    let lsh := ctzl ofZero y
    pure (y >>> lsh, t + lsh)

/-- Shift `x` right and `u` left.  The lost bits of `u` are on record as long as
`x` is not zero; after that `u` is not used any more. -/
def modredculShift (x u : BitVec w) (t : ℤ) (lsh : ℕ) : Outcome (BitVec w × BitVec w × ℤ) := do
  let x := x >>> lsh
  let u ← if x = 0#w then pure (u <<< lsh) else tracedShlUl u lsh
  pure (x, u, t + lsh)

/-- The loop over the low bytes of `x`. -/
def modredculShiftOutLoop : ℕ → BitVec w → BitVec w → ℤ → Outcome (BitVec w × BitVec w × ℤ)
  | 0, _, _, _ => .abort
  | fuel + 1, x, u, t => do
    let (x', u, t) ← modredculShift x u t (lookupZeros x)
    if lookupZeros x = 8 ∧ x' ≠ 0#w then modredculShiftOutLoop fuel x' u t else pure (x', u, t)

/-- Divide the trailing zeros out of `x`. -/
def modredculShiftOut (zeros : ZeroCount) (x u : BitVec w) (t : ℤ) :
    Outcome (BitVec w × BitVec w × ℤ) :=
  match zeros with
  | .lookup => modredculShiftOutLoop (w + 1) x u t
  | .ctzl ofZero => modredculShift x u t (ctzl ofZero x)

/-- The operations of the main loop. -/
def modredculInvOps (zeros : ZeroCount) : EuclidOps (BitVec w) where
  sub x y := x - y
  add v u := tracedAddUl v u
  lt y x := decide (y < x)
  shiftOut := modredculShiftOut zeros

section Definitions

variable (build : UlarithBuild)

/-- The variable-width reduction at the end of `modredcul_inv`. -/
def modredculInvPartial (u : BitVec w) (t : ℤ) (m : Modulusredcul w) : Outcome (BitVec w) := do
  assert (t < w)
  if t > 0 then do
    let tlow := (u * m.invm) &&& ((1#w <<< t.toNat) - 1#w)
    let p ← ularithMulUlUl2ul build tlow m.m
    let p ← tracedAddUl2ul build p u
    pure (ularithShrd build p.lo p.hi t.toNat)
  else pure u

/-- The end of `modredcul_inv`: `u` is divided by the power of two, at most one word
of it in a full reduction and the rest in a partial one. -/
def modredculInvRedc (u : BitVec w) (t : ℤ) (m : Modulusredcul w) : Outcome (BitVec w) :=
  if t ≥ w then do
    let p ← ularithMulUlUl2ul build (u * m.invm) m.m
    let u := p.hi + if u ≠ 0#w then 1#w else 0#w
    modredculInvPartial build u (t - w) m
  else modredculInvPartial build u t m

/-- `modredcul_inv`.  The inner `none` is the return value 0, for which `r` is not
written. -/
def modredculInv (zeros : ZeroCount) (A : BitVec w) (m : Modulusredcul w) :
    Outcome (Option (BitVec w)) := do
  assert (A < m.m)
  assert (m.m &&& 1#w ≠ 0#w)
  if A = 0#w then pure none
  else do
    let y ← modredculGetUl build A m
    let y ← modredculGetUl build y m
    let (y, t) ← modredculMakeOdd zeros y 0
    let (y, x, u, v, t) ← (modredculInvOps zeros).loop (fun _ reduced => decide (reduced ≤ 1#w))
      (2 * w) (2 * w) y m.m 1#w 0#w t
    if x &&& y = 0#w then pure none
    else do
      let u := if y ≠ 1#w then m.m - v else u
      let u ← modredculInvRedc build u t m
      pure (some u)

end Definitions

/-! ## Trailing zeros -/

section Zeros

variable {x u : BitVec w} {c l p : ℕ}

theorem ctzl_spec (ofZero : ℕ) (hx : 0 < x.toNat) :
    ∃ c, x.toNat = c * 2 ^ ctzl ofZero x ∧ c % 2 = 1 := by
  have hne : x ≠ 0#w := by
    rintro rfl
    simp at hx
  rw [ctzl, if_neg hne]
  exact ctz_spec hx x.isLt

theorem toNat_shiftRight_of_eq (hx : x.toNat = c * 2 ^ l) : (x >>> l).toNat = c := by
  rw [BitVec.toNat_ushiftRight, Nat.shiftRight_eq_div_pow, hx]
  exact Nat.mul_div_cancel c (Nat.two_pow_pos l)

theorem tracedShlUl_of_lt (h : u.toNat * 2 ^ l < 2 ^ w) :
    ∃ d, tracedShlUl u l = pure d ∧ d.toNat = u.toNat * 2 ^ l := by
  refine ⟨u <<< l, Outcome.dropCarry_of (by simpa using h), ?_⟩
  rw [BitVec.toNat_shiftLeft, Nat.shiftLeft_eq, Nat.mod_eq_of_lt h]

theorem modredculShift_spec (t : ℤ) (hp : p < 2 ^ w) (hpos : 0 < x.toNat)
    (hx : x.toNat = c * 2 ^ l) (hle : x.toNat * u.toNat ≤ p) :
    ∃ d, modredculShift x u t l = pure (x >>> l, d, t + l) ∧ d.toNat = u.toNat * 2 ^ l ∧
      c * d.toNat ≤ p := by
  have hc : 0 < c := Nat.pos_of_ne_zero fun h => by rw [hx, h, zero_mul] at hpos; omega
  have hmul : c * (u.toNat * 2 ^ l) = x.toNat * u.toNat := by
    rw [hx]
    ring
  obtain ⟨d, hd, hdv⟩ := tracedShlUl_of_lt (u := u) (l := l) (by
    have hle' : u.toNat * 2 ^ l ≤ c * (u.toNat * 2 ^ l) := Nat.le_mul_of_pos_left _ hc
    omega)
  have hne : x >>> l ≠ 0#w := by
    intro h
    have hc' := toNat_shiftRight_of_eq hx
    rw [h, toNat_zero] at hc'
    omega
  refine ⟨d, ?_, hdv, by rwa [hdv, hmul]⟩
  rw [modredculShift, if_neg hne, hd, pure_bind]

/-- The loop moves the power of two to the coefficient. -/
theorem modredculShiftOutLoop_spec {fuel : ℕ} (t : ℤ) (hp : p < 2 ^ w) (hpos : 0 < x.toNat)
    (hfuel : x.toNat < 2 ^ (8 * fuel)) (hle : x.toNat * u.toNat ≤ p) :
    ∃ l c d, modredculShiftOutLoop fuel x u t = pure (c, d, t + (l : ℕ)) ∧
      x.toNat = c.toNat * 2 ^ l ∧ c.toNat % 2 = 1 ∧ d.toNat = u.toNat * 2 ^ l := by
  induction fuel generalizing x u t with
  | zero => omega
  | succ fuel ih =>
    rcases trailingZeros_byte x.toNat with ⟨htz, k, hk⟩ | ⟨htz, q, hq⟩
    · -- a whole byte of zeros
      rw [mul_comm] at hk
      obtain ⟨d, hrun, hd, hle'⟩ := modredculShift_spec t hp hpos hk hle
      have hval := toNat_shiftRight_of_eq hk
      have hne : x >>> 8 ≠ 0#w := by
        intro h
        rw [h, toNat_zero] at hval
        omega
      obtain ⟨l, c, e, hrest, hc, hodd, he⟩ := ih (x := x >>> 8) (u := d) (t + (8 : ℕ))
        (by omega) (by
          rw [show 8 * (fuel + 1) = 8 * fuel + 8 by ring, pow_add] at hfuel
          omega) (by rwa [hval])
      refine ⟨8 + l, c, e, ?_, ?_, hodd, ?_⟩
      · simp only [modredculShiftOutLoop, lookupZeros, htz, hrun, pure_bind, ne_eq, hne,
          not_false_eq_true, and_self, if_true, hrest, Nat.cast_add, add_assoc]
      · rw [hk, ← hval, hc, mul_assoc, ← pow_add, add_comm l]
      · rw [he, hd, mul_assoc, ← pow_add]
    · obtain ⟨d, hrun, hd, -⟩ := modredculShift_spec t hp hpos hq hle
      have hval := toNat_shiftRight_of_eq hq
      refine ⟨lookupZeros x, x >>> lookupZeros x, d, ?_, ?_, ?_, hd⟩
      · simp only [modredculShiftOutLoop, lookupZeros, hrun, pure_bind, htz.ne, false_and, if_false]
      · rw [lookupZeros, hval]
        exact hq
      · rw [lookupZeros, hval]
        omega

variable (zeros : ZeroCount)

theorem modredculInvOps_shiftOut (t : ℤ) (hp : p < 2 ^ w)
    (hpos : 0 < x.toNat) (hle : x.toNat * u.toNat ≤ p) :
    ∃ l c d, modredculShiftOut zeros x u t = pure (c, d, t + (l : ℕ)) ∧
      x.toNat = c.toNat * 2 ^ l ∧ c.toNat % 2 = 1 ∧ d.toNat = u.toNat * 2 ^ l := by
  cases zeros with
  | lookup =>
    refine modredculShiftOutLoop_spec t hp hpos (x.isLt.trans_le ?_) hle
    exact Nat.pow_le_pow_right two_pos (by omega)
  | ctzl ofZero =>
    obtain ⟨c, hc, hodd⟩ := ctzl_spec ofZero hpos
    obtain ⟨d, hrun, hd, -⟩ := modredculShift_spec t hp hpos hc hle
    have hval := toNat_shiftRight_of_eq hc
    exact ⟨_, _, d, hrun, by rw [hval]; exact hc, by rwa [hval], hd⟩

theorem modredculShiftOut_zero (x u : BitVec w) (t : ℤ) (hx : x.toNat = 0) :
    ∃ c d s, modredculShiftOut zeros x u t = pure (c, d, s) ∧ c.toNat = 0 := by
  obtain rfl : x = 0#w := eq_of_toNat_eq (by simpa using hx)
  have hshift : ∀ l, modredculShift 0#w u t l = pure (0#w, u <<< l, t + l) := by
    intro l
    simp [modredculShift]
  cases zeros with
  | lookup =>
    refine ⟨0#w, u <<< lookupZeros 0#w, t + lookupZeros 0#w, ?_, hx⟩
    rw [modredculShiftOut, modredculShiftOutLoop, hshift, pure_bind]
    simp
  | ctzl ofZero => exact ⟨0#w, _, _, hshift _, hx⟩

/-- The number is made odd and its power of two counted. -/
theorem modredculMakeOdd_spec (t : ℤ) (hpos : 0 < x.toNat) :
    ∃ l c, modredculMakeOdd zeros x t = pure (c, t + (l : ℕ)) ∧
      x.toNat = c.toNat * 2 ^ l ∧ c.toNat % 2 = 1 := by
  have hloop : ∀ fuel (x : BitVec w) (t : ℤ), 0 < x.toNat → x.toNat < 2 ^ (8 * fuel) →
      ∃ l c, modredculMakeOddLoop fuel x t = pure (c, t + (l : ℕ)) ∧
        x.toNat = c.toNat * 2 ^ l ∧ c.toNat % 2 = 1 := by
    intro fuel
    induction fuel with
    | zero => intro x t hpos hfuel; omega
    | succ fuel ih =>
      intro x t hpos hfuel
      rcases trailingZeros_byte x.toNat with ⟨htz, k, hk⟩ | ⟨htz, q, hq⟩
      · rw [mul_comm] at hk
        have hval := toNat_shiftRight_of_eq hk
        obtain ⟨l, c, hrest, hc, hodd⟩ := ih (x >>> 8) (t + (8 : ℕ)) (by omega) (by
          rw [show 8 * (fuel + 1) = 8 * fuel + 8 by ring, pow_add] at hfuel
          omega)
        refine ⟨8 + l, c, ?_, ?_, hodd⟩
        · simp only [modredculMakeOddLoop, lookupZeros, htz, if_true, hrest, Nat.cast_add,
            add_assoc]
        · rw [hk, ← hval, hc, mul_assoc, ← pow_add, add_comm l]
      · have hval := toNat_shiftRight_of_eq hq
        refine ⟨lookupZeros x, x >>> lookupZeros x, ?_, ?_, ?_⟩
        · simp only [modredculMakeOddLoop, lookupZeros, htz.ne, if_false]
        · rw [lookupZeros, hval]
          exact hq
        · rw [lookupZeros, hval]
          omega
  cases zeros with
  | lookup =>
    exact hloop _ x t hpos (x.isLt.trans_le (Nat.pow_le_pow_right two_pos (by omega)))
  | ctzl ofZero =>
    obtain ⟨c, hc, hodd⟩ := ctzl_spec ofZero hpos
    have hval := toNat_shiftRight_of_eq hc
    exact ⟨_, _, rfl, by rw [hval]; exact hc, by rwa [hval]⟩

/-- The steps of the main loop are exact. -/
theorem modredculInvOps_lawful (hp : p < 2 ^ w) :
    (modredculInvOps zeros).Lawful (BitVec.toNat : BitVec w → ℕ) p where
  sub_value h := BitVec.toNat_sub_of_le (le_def.mpr h)
  add_value h := tracedAddUl_of_lt (by omega)
  lt_iff _ := by simp [modredculInvOps, lt_def]
  shiftOut_value t hpos hle := modredculInvOps_shiftOut zeros t hp hpos hle

end Zeros

/-! ## The power of two -/

section Division

variable {m : Modulusredcul w} {u : BitVec w}

section

variable (build : UlarithBuild) (hw : 0 < w) (heven : w % 2 = 0) (hm : ValidModulusUl m)
  (hu : u.toNat < m.m.toNat) {t : ℕ}
include hw heven hm hu

/-- A partial reduction divides by a power of two. -/
theorem modredculInvPartial_spec (ht : t < w) : ∃ r, modredculInvPartial build u t m = pure r ∧
      IsMontgomeryResidue (2 ^ t) m.m.toNat u.toNat r.toNat := by
  have hassert : assert ((t : ℤ) < w) = pure () :=
    assert_of (by exact_mod_cast ht)
  rcases Nat.eq_zero_or_pos t with rfl | htpos
  · refine ⟨u, ?_, IsMontgomeryResidue.of_lt (Nat.coprime_one_right _) hu (by simp [Nat.ModEq])⟩
    rw [modredculInvPartial, hassert, pure_bind, if_neg (by simp)]
  set k := (u * m.invm) &&& ((1#w <<< t) - 1#w) with hk
  have hmlt := m.m.isLt
  have hklt : k.toNat < 2 ^ t := by
    rw [hk, toNat_and_halfMask _ ht]
    exact Nat.mod_lt _ (Nat.two_pow_pos t)
  have hpow : 2 ^ t < 2 ^ w := Nat.pow_lt_pow_right (by omega) ht
  have hsum : k.toNat * m.m.toNat + u.toNat < 2 ^ t * m.m.toNat := by
    calc k.toNat * m.m.toNat + u.toNat < (k.toNat + 1) * m.m.toNat := by
          rw [Nat.succ_mul]
          omega
      _ ≤ 2 ^ t * m.m.toNat := Nat.mul_le_mul_right _ hklt
  have hfit : 2 ^ t * m.m.toNat < 2 ^ w * 2 ^ w :=
    Nat.mul_lt_mul_of_lt_of_le hpow hmlt.le (Nat.two_pow_pos w)
  obtain ⟨q, hq, hqv⟩ := tracedAddUl2ul_of_lt build (r := TwoWord.mulWide k m.m) (a := u) (by
    rw [TwoWord.mulWide_value]
    omega)
  rw [TwoWord.mulWide_value, add_comm] at hqv
  -- the low bits are zero, and the quotient has one word
  obtain ⟨r, hr⟩ := two_pow_dvd_partial hm.invm_mul u ht
  rw [← hk, ← hqv] at hr
  have hrlt : r < m.m.toNat := redc_lt hu hklt (by rw [← hr, hqv])
  have hshift := ularithShrd_value build q ht
  rw [hr, Nat.mul_div_cancel_left _ (Nat.two_pow_pos t)] at hshift
  have hword : (ularithShrd build q.lo q.hi t).toNat = r := by
    have hmod := TwoWord.value_mod (⟨ularithShrd build q.lo q.hi t, q.hi >>> t⟩ : TwoWord w)
    rw [← hmod, hshift, Nat.mod_eq_of_lt (by omega)]
  refine ⟨ularithShrd build q.lo q.hi t, ?_, ?_⟩
  · rw [modredculInvPartial, hassert, pure_bind, if_pos (by exact_mod_cast htpos)]
    simp [← hk, ularithMulUlUl2ul_eq build hw heven, hq]
  · rw [hword]
    exact IsMontgomeryResidue.of_lt
      ((Nat.coprime_two_right.mpr (Nat.odd_iff.mpr hm.odd)).pow_right t) hrlt
      (congr_of_eq_add_mul (k := k.toNat) (by rw [← hr, hqv]))

/-- The two reductions divide by a power of two below the square of the word base. -/
theorem modredculInvRedc_spec (ht : t < 2 * w) :
    ∃ r, modredculInvRedc build u t m = pure r ∧ r.toNat < m.m.toNat ∧
      r.toNat * 2 ^ t ≡ u.toNat [MOD m.m.toNat] := by
  by_cases hlarge : w ≤ t
  · obtain ⟨n, rfl⟩ := Nat.exists_eq_add_of_le hlarge
    obtain ⟨v, hv, hvres⟩ := modredculGetUl_spec build hw heven hm hu
    obtain ⟨r, hr, hrres⟩ := modredculInvPartial_spec build hw heven hm hvres.lt
      (show n < w by omega)
    rw [modredculGetUl, modredculFrommontgomery, ularithMulUlUl2ul_eq build hw heven,
      pure_bind] at hv
    refine ⟨r, ?_, hrres.lt, ?_⟩
    · have hv' : (TwoWord.mulWide (u * m.invm) m.m).hi + (if u ≠ 0#w then 1#w else 0#w) = v := by
        simpa using congrArg Outcome.toOption hv
      simp only [modredculInvRedc, ularithMulUlUl2ul_eq build hw heven, pure_bind, hv']
      rw [if_pos (by push_cast; omega), ← hr, Nat.cast_add, add_sub_cancel_left]
    · rw [pow_add, mul_comm (2 ^ w), ← mul_assoc]
      exact (hrres.congr.mul_right _).trans hvres.congr
  · obtain ⟨r, hr, hrres⟩ := modredculInvPartial_spec build hw heven hm hu
      (show t < w by omega)
    refine ⟨r, ?_, hrres.lt, hrres.congr⟩
    rw [modredculInvRedc, if_neg (by omega), hr]

end

end Division

/-! ## The inverse -/

/-- For an odd modulus above one and both ways to count trailing zeros: if the residue is coprime
to the modulus the inverse is returned, reduced, and otherwise none.  No bit of a coefficient is
lost while the numbers are not zero, and no assertion fails. -/
theorem modredculInv_spec (build : UlarithBuild) (zeros : ZeroCount) (hw : w = 32 ∨ w = 64)
    {m : Modulusredcul w} (hm : ValidModulusUl m) (hone : 1 < m.m.toNat) {A : BitVec w}
    (hA : A.toNat < m.m.toNat) :
    (Nat.gcd A.toNat m.m.toNat = 1 → ∃ r, modredculInv build zeros A m = pure (some r) ∧
      r.toNat < m.m.toNat ∧ modredculMul build r A m = pure m.one) ∧
    (Nat.gcd A.toNat m.m.toNat ≠ 1 → modredculInv build zeros A m = pure none) := by
  have hpos : 0 < w := by omega
  have heven : w % 2 = 0 := by omega
  have hmlt := m.m.isLt
  have hodd := hm.odd
  have hone_toNat : (1#w).toNat = 1 := toNat_const (Nat.one_lt_two_pow (by omega))
  have hassert₁ : assert (A < m.m) = pure () := assert_of (lt_def.mpr hA)
  have hassert₂ : assert (m.m &&& 1#w ≠ 0#w) = pure () := by
    refine assert_of fun h => ?_
    have hand := congrArg BitVec.toNat h
    rw [BitVec.toNat_and, hone_toNat, Nat.and_one_is_mod, toNat_zero] at hand
    omega
  by_cases hzero : A = 0#w
  · subst hzero
    refine ⟨fun h => ?_, fun _ => ?_⟩
    · rw [toNat_zero, Nat.gcd_zero_left] at h
      omega
    · rw [modredculInv, hassert₁, hassert₂, pure_bind, pure_bind, if_pos rfl]
  -- both conversions together divide by the square of the word base
  obtain ⟨y₁, hy₁, hy₁res⟩ := modredculGetUl_spec build hpos heven hm hA
  obtain ⟨y, hy, hyres⟩ := modredculGetUl_spec build hpos heven hm hy₁res.lt
  have hyA : y.toNat * (2 ^ w * 2 ^ w) ≡ A.toNat [MOD m.m.toNat] := by
    rw [← mul_assoc]
    exact (hyres.congr.mul_right _).trans hy₁res.congr
  have hcop := hm.coprime
  have hgcd : Nat.gcd A.toNat m.m.toNat = Int.gcd y.toNat m.m.toNat := by
    rw [Int.gcd_natCast_natCast, ← hyA.gcd_eq, ← mul_assoc,
      Nat.Coprime.gcd_mul_right_cancel _ hcop.symm, Nat.Coprime.gcd_mul_right_cancel _ hcop.symm]
  have hypos : 0 < y.toNat := by
    refine Nat.pos_of_ne_zero fun h => hzero (eq_of_toNat_eq ?_)
    rw [h, zero_mul] at hyA
    rw [toNat_zero]
    exact (hyA.eq_of_lt_of_lt (by omega) hA).symm
  -- the main loop
  obtain ⟨l, c, hc, hcl, hcodd⟩ := modredculMakeOdd_spec zeros 0 hypos
  have hpair := OddPair.start hodd hcl hcodd hyres.lt
  have hbound : y.toNat * m.m.toNat < 2 ^ (2 * w) := by
    rw [two_mul, pow_add]
    exact Nat.mul_lt_mul'' y.isLt hmlt
  have hstop : ∀ a b : BitVec w, (fun _ reduced => decide (reduced ≤ 1#w)) a b = true ↔
      b.toNat ≤ 1 := by
    intro a b
    rw [decide_eq_true_eq, le_def, hone_toNat]
  have hclt : c.toNat < m.m.toNat := by
    have hle : c.toNat ≤ c.toNat * 2 ^ l := Nat.le_mul_of_pos_right _ (Nat.two_pow_pos l)
    have := hyres.lt
    omega
  obtain ⟨y', x, u, v, s, hloop, hend⟩ := EuclidOps.unitLoop_spec
    (modredculInvOps_lawful zeros hmlt) (modredculShiftOut_zero zeros) hstop
    (a := c) (b := m.m) (u := 1#w) (v := 0#w) (x := y.toNat) (n := y.toNat * m.m.toNat) (t := l)
    (by rw [EuclidOps.Pair, hone_toNat, toNat_zero]; exact hpair)
    (Or.inl hclt) hbound (hbound.trans_le (Nat.pow_le_pow_right two_pos (Nat.le_add_left _ _))) 0
  rw [add_zero] at hloop
  rw [zero_add] at hc
  have hrun : modredculInv build zeros A m = (if x &&& y' = 0#w then pure none
      else do
        let u ← modredculInvRedc build (if y' ≠ 1#w then m.m - v else u) s m
        pure (some u)) := by
    simp [modredculInv, hassert₁, hassert₂, if_neg hzero, hy₁, hy, hc, hloop]
  rcases hend with ⟨t, rfl, h', hunit⟩ | ⟨hnull, hne⟩
  · have hand : x &&& y' ≠ 0#w := by
      intro h
      have hbit := congrArg (fun z : BitVec w => z.toNat.testBit 0) h
      simp [Nat.testBit_zero, h'.left_odd, h'.right_odd] at hbit
    -- the coefficient of the number that is one, with its sign
    obtain ⟨hcoprime, u', hu', hu'lt, hinv⟩ : Int.gcd y.toNat m.m.toNat = 1 ∧
        ∃ u', (if y' ≠ 1#w then m.m - v else u) = u' ∧ u'.toNat < m.m.toNat ∧
          (y.toNat : ℤ) * u'.toNat ≡ 2 ^ t [ZMOD m.m.toNat] := by
      by_cases hy' : y' = 1#w
      · rw [EuclidOps.Pair, hy', hone_toNat] at h'
        obtain ⟨hg, hlt, hinv⟩ := h'.left_inverse hodd hone
        exact ⟨hg, u, by rw [if_neg (not_not.mpr hy')], hlt, hinv⟩
      · have hx : x.toNat = 1 := hunit.resolve_left fun h =>
          hy' (eq_of_toNat_eq (by rw [h, hone_toNat]))
        rw [EuclidOps.Pair, hx] at h'
        obtain ⟨hg, hlt, hvpos, hinv⟩ := h'.right_inverse hodd hone
        have hsub : (m.m - v).toNat = m.m.toNat - v.toNat :=
          BitVec.toNat_sub_of_le (le_def.mpr hlt.le)
        refine ⟨hg, m.m - v, if_pos hy', by omega, ?_⟩
        rwa [hsub, Nat.cast_sub hlt.le]
    have ht : t < 2 * w := (Nat.pow_lt_pow_iff_right (by decide)).mp
      (h'.two_pow_le.trans_lt hbound)
    obtain ⟨r, hr, hrlt, hrres⟩ := modredculInvRedc_spec build hpos heven hm hu'lt ht
    have hinv' : y.toNat * u'.toNat ≡ 2 ^ t * 1 [MOD m.m.toNat] := by
      rw [mul_one, ← Int.natCast_modEq_iff]
      exact_mod_cast hinv
    have hrA := mul_modEq_of_inverse
      ((Nat.coprime_two_right.mpr (Nat.odd_iff.mpr hodd)).pow_right t) hinv' hrres hyA
    obtain ⟨one, hmul, hres⟩ := modredculMul_spec build hpos heven hm r hA
    have hone' : one = m.one := by
      refine eq_of_toNat_eq (hres.unique m.one.toNat ?_ ?_).symm
      · rw [hm.one_value]
        exact Nat.mod_lt _ hm.pos
      · rw [hm.one_value]
        refine ((Nat.mod_modEq _ _).mul_right _).trans ?_
        rw [mul_one] at hrA
        exact hrA.symm
    refine ⟨fun _ => ⟨r, ?_, hrlt, by rw [hmul, hone']⟩, fun h => absurd (hgcd.trans hcoprime) h⟩
    rw [hrun, if_neg hand, hu']
    rw [add_zero, hr, pure_bind]
  · refine ⟨fun h => absurd (hgcd.symm.trans h) hne, fun _ => ?_⟩
    have hand : x &&& y' = 0#w := by
      rcases hnull with h | h
      · rw [show y' = 0#w from eq_of_toNat_eq (by simpa using h), BitVec.and_zero]
      · rw [show x = 0#w from eq_of_toNat_eq (by simpa using h), BitVec.zero_and]
    rw [hrun, if_pos hand]

/-- The inverse of 3 modulo 7. -/
theorem modredculInv_spec_seven :
    ∃ r, modredculInv .noAsm .lookup 3#64 ⟨7#64, 0x9249249249249249#64, 2#64⟩ = pure (some r) ∧
      r.toNat < 7 ∧
      modredculMul .noAsm r 3#64 ⟨7#64, 0x9249249249249249#64, 2#64⟩ = pure 2#64 :=
  (modredculInv_spec .noAsm .lookup (Or.inr rfl)
    (m := ⟨7#64, 0x9249249249249249#64, 2#64⟩) ⟨by decide, by decide, by decide +kernel⟩
    (by decide) (A := 3#64) (by decide)).1 (by decide)

/-- Modulo one the only residue is coprime to the modulus, and has no inverse here.  For 3 modulo 9
one number becomes zero, and a `ctzl(0)` of 64 then shifts all bits out of the coefficient 1. -/
theorem modredculInv_one :
    modredculInitmodUl 1#64 = pure ⟨1#64, allOnes 64, 0#64⟩ ∧
      Nat.gcd (0#64).toNat (1#64).toNat = 1 ∧
      modredculInv .noAsm .lookup 0#64 ⟨1#64, allOnes 64, 0#64⟩ = pure none ∧
      modredculInv .x86 (.ctzl 0) 0#64 ⟨1#64, allOnes 64, 0#64⟩ = pure none ∧
      modredculInitmodUl 9#64 = pure ⟨9#64, 0x71c71c71c71c71c7#64, 7#64⟩ ∧
      (modredculGetUl .x86 3#64 ⟨9#64, 0x71c71c71c71c71c7#64, 7#64⟩ >>= fun y =>
        modredculGetUl .x86 y ⟨9#64, 0x71c71c71c71c71c7#64, 7#64⟩) = pure 3#64 ∧
      (modredculInvOps (.ctzl 0)).loop (fun _ reduced => decide (reduced ≤ 1#64)) (2 * 64) (2 * 64)
        3#64 9#64 1#64 0#64 0 = pure (0#64, 3#64, 3#64, 1#64, 1) ∧
      (modredculInvOps (.ctzl 64)).loop (fun _ reduced => decide (reduced ≤ 1#64)) (2 * 64) (2 * 64)
        3#64 9#64 1#64 0#64 0 = pure (0#64, 3#64, 3#64, 0#64, 1 + 64) := by
  decide +kernel

end CadoNfs
