import CadoNfs.Lib.BinaryEuclid
import CadoNfs.Utils.ModUl

/-!
# Inverses modulo a word

`mod_inv` of `mod_ul.c`: the extended Euclidean algorithm with two divisions in each
turn.  The cofactors are signed words, and the last one that is computed may overflow.  With it
stand `mod_gcd` of `mod_ul_common.c` and `modul_invmodlong`.

Main results:

- Theorem `modulInvLoop_spec`: the loop ends with the greatest common divisor, and a cofactor
  that belongs to 1 has not overflowed.
- Theorem `modulInv_run`: the function in terms of the loop.
- Theorems `modulInv_of_coprime`, `modulInv_of_not_coprime`: the inverse is found if there
  is one.
- Theorem `modulGcd_spec`: the greatest common divisor of a residue and the modulus.
- Theorem `modulInvmodlong_spec`: the inverse of an odd word modulo the word base.
-/

namespace CadoNfs

open WordArith
open BitVec (allOnes eq_of_toNat_eq le_def lt_def ofInt ofInt_add ofInt_natCast ofInt_neg
  ofNat_toNat setWidth_and setWidth_eq setWidth_xor toNat_udiv toNat_umod toNat_zero)
open Outcome (assert assert_of)

variable {w : ℕ}

/-! ## Definitions -/

/-- The loop of `mod_inv`, which ends with `u1` and `u2`. -/
def modulInvLoop : ℕ → BitVec w → BitVec w → BitVec w → BitVec w →
    Outcome (BitVec w × BitVec w)
  | 0, _, _, _, _ => .abort
  | fuel + 1, u1, v1, u2, v2 =>
    if v2 ≠ 0#w then
      let q := u2 / v2
      let u1 := u1 - q * v1
      let u2 := u2 - q * v2
      if u2 = 0#w then pure (v1, v2)
      else
        let q := v2 / u2
        let v1 := v1 - q * u1
        let v2 := v2 - q * u2
        modulInvLoop fuel u1 v1 u2 v2
    else pure (u1, u2)

/-- The end of `mod_inv`: the residue is set, and the product with the argument must be
one. -/
def modulInvFinish (build : UlarithBuild) (u1 s m : BitVec w) : Outcome (ℤ × BitVec w) := do
  assert (u1 < m)
  let r := u1 % m
  let tmp ← modulMul build s r m
  assert (tmp = 1#w)
  pure (1, r)

/-- `mod_inv`: the return value and the residue `r`. -/
def modulInv (build : UlarithBuild) (s m : BitVec w) : Outcome (ℤ × BitVec w) := do
  assert (m > 0#w)
  assert (s < m)
  if s = 0#w then pure (0, 0#w)
  else if s = 1#w then pure (1, 1#w)
  else
    let v1 := -(m / s)
    let v2 := m % s
    if v2 = 1#w then modulInvFinish build (v1 + m) s m
    else do
      let (u1, u2) ← modulInvLoop (s.toNat + 1) 1#w v1 s v2
      if u2 ≠ 1#w then pure (0, 0#w)
      else modulInvFinish build (if u1.toInt < 0 then u1 + m else u1) s m

/-- The loop of `mod_gcd`, which ends with `b`. -/
def modulGcdLoop : ℕ → BitVec w → BitVec w → Outcome (BitVec w)
  | 0, _, _ => .abort
  | fuel + 1, a, b => if a > 0#w then modulGcdLoop fuel (b % a) a else pure b

/-- `mod_gcd`. -/
def modulGcd (r m : BitVec w) : Outcome (BitVec w) := do
  assert (m > 0#w)
  let a := if r ≥ m then r % m else r
  modulGcdLoop (a.toNat + 1) a m

/-- `modul_invmodlong`. -/
def modulInvmodlong (n : BitVec w) : Outcome (BitVec w) := do
  assert (n.toNat % 2 ≠ 0)
  let r := n ^^^ ((n &&& 4#w) <<< 1) ^^^ ((n &&& 2#w) <<< 2)
  let r := newtonStepUlong r n
  let r := newtonStepUlong r n
  let r := newtonStepUlong r n
  -- sizeof (unsigned long) > 4
  pure (if w = 32 then r else newtonStepUlong r n)

/-- The loop of `mod_inv` on unbounded integers. -/
def exactInvLoop : ℕ → ℤ → ℤ → ℕ → ℕ → ℤ × ℕ
  | 0, u1, _, u2, _ => (u1, u2)
  | fuel + 1, u1, v1, u2, v2 =>
    if v2 ≠ 0 then
      let u1 := u1 - (u2 / v2 : ℕ) * v1
      let u2 := u2 % v2
      if u2 = 0 then (v1, v2)
      else exactInvLoop fuel u1 (v1 - (v2 / u2 : ℕ) * u1) u2 (v2 % u2)
    else (u1, u2)

/-! ## The loop -/

section Loop

variable {p fuel x y : ℕ} {s : ℤ} {u1 v1 u2 v2 : BitVec w}

theorem sub_div_mul (a b : BitVec w) : (a - a / b * b).toNat = a.toNat % b.toNat := by
  have hmul : (a / b * b).toNat = a.toNat / b.toNat * b.toNat := by
    have hle := Nat.div_mul_le_self a.toNat b.toNat
    rw [BitVec.toNat_mul, toNat_udiv, Nat.mod_eq_of_lt (by have := a.isLt; omega)]
  rw [BitVec.toNat_sub_of_le (le_def.mpr (by rw [hmul]; exact Nat.div_mul_le_self _ _)),
    hmul, mul_comm, Nat.mod_eq_sub]

theorem ofInt_sub_mul (a b : ℤ) (q : BitVec w) :
    ofInt w a - q * ofInt w b = ofInt w (a - q.toNat * b) := by
  rw [sub_eq_add_neg a, ofInt_add, ofInt_neg, BitVec.ofInt_mul, ofInt_natCast,
    ofNat_toNat, setWidth_eq, BitVec.sub_eq_add_neg]

theorem toInt_ofInt_of_two_mul_lt (hp : p < 2 ^ w) {c : ℤ} (hlow : -(p : ℤ) < 2 * c)
    (hhigh : 2 * c < p) : (ofInt w c).toInt = c := by
  have hw : 0 < w := by
    rcases Nat.eq_zero_or_pos w with rfl | hw
    · rw [pow_zero] at hp
      omega
    · exact hw
  have hpow : (2 : ℤ) ^ w = 2 * 2 ^ (w - 1) := by
    rw [← pow_succ']
    congr 1
    omega
  have hp' : (p : ℤ) < 2 ^ w := by exact_mod_cast hp
  exact BitVec.toInt_ofInt_eq_self hw (by omega) (by omega)

/-- The loop on words against the loop on integers.  The cofactors alternate in sign, `x` for
`u1` and `-y` for `v1`; what belongs to a remainder above zero is below half the
modulus. -/
theorem modulInvLoop_spec (hp : p < 2 ^ w)
    (h : BinaryEuclid p s u2.toNat v2.toNat x y 0) (hlt : v2.toNat < u2.toNat)
    (hx : 0 < x) (hy : 0 < y) (hhalf : u2.toNat = 1 → 2 * x < p) (hfuel : v2.toNat < fuel) :
    ∃ u1' u2' c, modulInvLoop fuel (ofInt w x) (ofInt w (-y)) u2 v2
        = pure (u1', u2') ∧
      exactInvLoop fuel x (-y) u2.toNat v2.toNat = (c, u2'.toNat) ∧
      u2'.toNat = Int.gcd s p ∧
      (u2'.toNat = 1 → u1'.toInt = c ∧ u1' = ofInt w c ∧ -(p : ℤ) < 2 * c ∧ 2 * c < p ∧
        s * c ≡ 1 [ZMOD p]) := by
  induction fuel generalizing u2 v2 x y with
  | zero => omega
  | succ fuel ih =>
    by_cases hv2 : v2 = 0#w
    · -- the remainder zero: the other cofactor is kept
      subst hv2
      refine ⟨ofInt w x, u2, x, ?_, ?_, ?_, fun hone => ?_⟩
      · rw [modulInvLoop, if_neg (not_not.mpr rfl)]
      · simp [exactInvLoop]
      · rw [← h.gcd_eq, toNat_zero, Nat.gcd_zero_right]
      · have hx' := hhalf hone
        have hinv := h.left
        rw [hone, pow_zero] at hinv
        exact ⟨toInt_ofInt_of_two_mul_lt hp (by omega) (by omega), rfl, by omega, by omega, hinv⟩
    have hv2pos : 0 < v2.toNat :=
      Nat.pos_of_ne_zero fun h => hv2 (eq_of_toNat_eq (by simpa using h))
    have hv2ne : v2.toNat ≠ 0 := by omega
    -- the first division
    have hu1 : ofInt w x - u2 / v2 * ofInt w (-y)
        = ofInt w ((x + u2.toNat / v2.toNat * y : ℕ) : ℤ) := by
      rw [ofInt_sub_mul, toNat_udiv]
      congr 1
      push_cast
      ring
    have hu2 := sub_div_mul u2 v2
    have hmid := h.swap.divide.swap
    rw [neg_neg, ← hu2] at hmid
    have hexact₁ : (x : ℤ) - (u2.toNat / v2.toNat : ℕ) * -(y : ℤ)
        = ((x + u2.toNat / v2.toNat * y : ℕ) : ℤ) := by
      push_cast
      ring
    set u2' := u2 - u2 / v2 * v2 with hu2'
    set x' := x + u2.toNat / v2.toNat * y with hx'
    have hu2lt : u2'.toNat < v2.toNat := by
      rw [hu2]
      exact Nat.mod_lt _ hv2pos
    by_cases hzero : u2' = 0#w
    · refine ⟨ofInt w (-y), v2, -y, ?_, ?_, ?_, fun hone => ?_⟩
      · simp [modulInvLoop, hv2, ← hu2', hzero]
      · simp [exactInvLoop, hv2ne, ← hu2, hzero]
      · rw [← hmid.gcd_eq, hzero, toNat_zero, Nat.gcd_zero_left]
      · have htotal := h.total
        rw [hone] at htotal hlt
        have hle : 2 * y ≤ u2.toNat * y := Nat.mul_le_mul_right y hlt
        have hinv := h.right
        rw [hone, pow_zero] at hinv
        refine ⟨toInt_ofInt_of_two_mul_lt hp (by omega) (by omega), rfl, by omega, by omega, ?_⟩
        have hneg := hinv.neg
        rw [← mul_neg] at hneg
        simpa using hneg
    have hu2pos : 0 < u2'.toNat :=
      Nat.pos_of_ne_zero fun h => hzero (eq_of_toNat_eq (by simpa using h))
    have hu2ne : u2'.toNat ≠ 0 := by omega
    -- the second division
    have hv1 : ofInt w (-y) - v2 / u2' * ofInt w x'
        = ofInt w (-((y + v2.toNat / u2'.toNat * x' : ℕ) : ℤ)) := by
      rw [ofInt_sub_mul, toNat_udiv]
      congr 1
      push_cast
      ring
    have hexact₂ : -(y : ℤ) - (v2.toNat / u2'.toNat : ℕ) * (x' : ℤ)
        = -((y + v2.toNat / u2'.toNat * x' : ℕ) : ℤ) := by
      push_cast
      ring
    have hv2' := sub_div_mul v2 u2'
    have hnext := hmid.divide
    rw [← hv2'] at hnext
    have hv2lt : (v2 - v2 / u2' * u2').toNat < u2'.toNat := by
      rw [hv2']
      exact Nat.mod_lt _ hu2pos
    obtain ⟨r1, r2, c, hrun, hexact, hrest⟩ := ih (x := x')
      (y := y + v2.toNat / u2'.toNat * x') hnext hv2lt (by omega) (by omega) (fun hone => by
        have htotal := hmid.total
        rw [hone, one_mul] at htotal
        have hle : 2 * x' ≤ v2.toNat * x' := Nat.mul_le_mul_right x' (by omega)
        omega) (by omega)
    refine ⟨r1, r2, c, ?_, ?_, hrest⟩
    · simp only [modulInvLoop, ne_eq, hv2, not_false_eq_true, if_true, ← hu2', hzero, if_false, hu1,
        hv1, hrun]
    · simp only [exactInvLoop, ne_eq, hv2ne, not_false_eq_true, if_true, ← hu2, hu2ne, if_false,
        hexact₁, hexact₂, ← hv2', hexact]

end Loop

/-! ## The inverse -/

section Inverse

variable {s m u1 : BitVec w} (build : UlarithBuild)

theorem modulInvFinish_spec (hpos : 0 < w) (heven : w % 2 = 0)
    (hs : s.toNat < m.toNat) (hone : 1 < m.toNat) (hu1 : u1.toNat < m.toNat)
    (hinv : (s.toNat : ℤ) * u1.toNat ≡ 1 [ZMOD m.toNat]) :
    modulInvFinish build u1 s m = pure (1, u1) := by
  have hr : u1 % m = u1 :=
    eq_of_toNat_eq (by rw [toNat_umod, Nat.mod_eq_of_lt hu1])
  obtain ⟨tmp, htmp, htmpv⟩ := modulMul_spec build hpos heven hs hu1
  have hprod : s.toNat * u1.toNat % m.toNat = 1 := by
    have hnat : s.toNat * u1.toNat ≡ 1 [MOD m.toNat] := by
      rw [← Int.natCast_modEq_iff]
      exact_mod_cast hinv
    rw [hnat, Nat.mod_eq_of_lt hone]
  have htmp1 : tmp = 1#w := by
    apply eq_of_toNat_eq
    rw [htmpv, hprod, toNat_const (Nat.one_lt_two_pow (by omega))]
  simp [modulInvFinish, assert_of (lt_def.mpr hu1), hr, htmp, assert_of htmp1]

theorem modulInv_start (hs : s.toNat < m.toNat) (hs2 : 2 ≤ s.toNat) :
    BinaryEuclid m.toNat s.toNat s.toNat (m % s).toNat 1 (m.toNat / s.toNat) 0 ∧
      (m % s).toNat < s.toNat ∧ 0 < m.toNat / s.toNat := by
  have hstart := (BinaryEuclid.start s.toNat m.toNat).divide
  rw [mul_one, zero_add, ← toNat_umod] at hstart
  refine ⟨hstart, ?_, Nat.div_pos hs.le (by omega)⟩
  rw [toNat_umod]
  exact Nat.mod_lt _ (by omega)

/-- The function for an argument above one. -/
theorem modulInv_run (hw : 0 < w) (hs : s.toNat < m.toNat) (hs2 : 2 ≤ s.toNat) :
    ∃ u1 u2 c, modulInvLoop (s.toNat + 1) 1#w (-(m / s)) s (m % s) = pure (u1, u2) ∧
      exactInvLoop (s.toNat + 1) 1 (-(m.toNat / s.toNat : ℕ)) s.toNat (m.toNat % s.toNat)
        = (c, u2.toNat) ∧
      u2.toNat = Nat.gcd s.toNat m.toNat ∧
      (u2.toNat = 1 → u1.toInt = c ∧ u1 = ofInt w c ∧ -(m.toNat : ℤ) < 2 * c ∧
        2 * c < m.toNat ∧ s.toNat * c ≡ 1 [ZMOD m.toNat]) ∧
      modulInv build s m
        = if m % s = 1#w then modulInvFinish build (-(m / s) + m) s m
          else if u2 ≠ 1#w then pure (0, 0#w)
          else modulInvFinish build (if u1.toInt < 0 then u1 + m else u1) s m := by
  have hone : (1#w).toNat = 1 := toNat_const (Nat.one_lt_two_pow (by omega))
  have hassert₁ : assert (m > 0#w) = pure () := by
    refine assert_of ?_
    rw [gt_iff_lt, lt_def, toNat_zero]
    omega
  have hassert₂ : assert (s < m) = pure () := assert_of (lt_def.mpr hs)
  have hs0 : s ≠ 0#w := by
    rintro rfl
    rw [toNat_zero] at hs2
    omega
  have hs1 : s ≠ 1#w := by
    rintro rfl
    omega
  obtain ⟨hstart, hrem, hquot⟩ := modulInv_start hs hs2
  have hu1 : (1#w : BitVec w) = ofInt w (1 : ℕ) := by
    rw [ofInt_natCast]
  have hv1 : -(m / s) = ofInt w (-(m.toNat / s.toNat : ℕ)) := by
    rw [ofInt_neg, ofInt_natCast, ← toNat_udiv, ofNat_toNat, setWidth_eq]
  obtain ⟨u1, u2, c, hrun, hexact, hgcd, hunit⟩ := modulInvLoop_spec m.isLt hstart hrem
    Nat.one_pos hquot (fun h => by omega) (show (m % s).toNat < s.toNat + 1 by omega)
  rw [← hu1, ← hv1] at hrun
  rw [toNat_umod, Nat.cast_one] at hexact
  rw [Int.gcd_natCast_natCast] at hgcd
  refine ⟨u1, u2, c, hrun, hexact, hgcd, hunit, ?_⟩
  simp [modulInv, hassert₁, hassert₂, if_neg hs0, if_neg hs1, hrun]

section

variable (hpos : 0 < w) (heven : w % 2 = 0) (hs : s.toNat < m.toNat) (hone : 1 < m.toNat)
include hpos heven hs hone

theorem modulInvFinish_of_cofactor {c : ℤ} (hu1 : u1 = ofInt w c)
    (hc : 0 ≤ c) (hcm : c < m.toNat) (hinv : (s.toNat : ℤ) * c ≡ 1 [ZMOD m.toNat]) :
    ∃ r, modulInvFinish build u1 s m = pure (1, r) ∧ r.toNat < m.toNat ∧
      r.toNat * s.toNat ≡ 1 [MOD m.toNat] := by
  have hmlt := m.isLt
  obtain ⟨n, rfl⟩ := Int.eq_ofNat_of_zero_le hc
  have hu1n : u1.toNat = n := by
    rw [hu1, ofInt_natCast, toNat_const (by omega)]
  rw [← hu1n] at hinv
  refine ⟨u1, modulInvFinish_spec build hpos heven hs hone (by omega) hinv, by omega, ?_⟩
  rw [← Int.natCast_modEq_iff, Nat.cast_mul, mul_comm]
  exact_mod_cast hinv

/-- The inverse of a residue that is coprime to the modulus. -/
theorem modulInv_of_coprime (hcop : Nat.gcd s.toNat m.toNat = 1) :
    ∃ r, modulInv build s m = pure (1, r) ∧ r.toNat < m.toNat ∧
      r.toNat * s.toNat ≡ 1 [MOD m.toNat] := by
  have hone_toNat : (1#w).toNat = 1 := toNat_const (Nat.one_lt_two_pow (by omega))
  have hs0 : s.toNat ≠ 0 := by
    intro h
    rw [h, Nat.gcd_zero_left] at hcop
    omega
  by_cases hs1 : s = 1#w
  · subst hs1
    refine ⟨1#w, ?_, by omega, by rw [hone_toNat]⟩
    have hm : m > 0#w := by
      rw [gt_iff_lt, lt_def, toNat_zero]
      omega
    have h10 : (1#w : BitVec w) ≠ 0#w := fun h => hs0 (by rw [h, toNat_zero])
    rw [modulInv, assert_of hm, assert_of (lt_def.mpr hs),
      pure_bind, pure_bind, if_neg h10, if_pos rfl]
  have hs2 : 2 ≤ s.toNat := by
    have h1 : s.toNat ≠ 1 := fun h => hs1 (eq_of_toNat_eq (by rw [h, hone_toNat]))
    omega
  obtain ⟨u1, u2, c, -, -, hgcd, hunit, hbody⟩ := modulInv_run build hpos hs hs2
  obtain ⟨hu1c, hu1w, hlow, hhigh, hinv⟩ := hunit (hgcd.trans hcop)
  have hu2 : u2 = 1#w := eq_of_toNat_eq (by rw [hgcd, hcop, hone_toNat])
  rw [hbody]
  by_cases hv2 : m % s = 1#w
  · -- the first remainder is one already
    rw [if_pos hv2]
    obtain ⟨hstart, -, hquot⟩ := modulInv_start hs hs2
    have hright := hstart.right
    rw [hv2, hone_toNat, pow_zero] at hright
    have hlt : m.toNat / s.toNat < m.toNat := Nat.div_lt_self (by omega) (by omega)
    refine modulInvFinish_of_cofactor build hpos heven hs hone
      (c := m.toNat - (m.toNat / s.toNat : ℕ)) ?_ (by omega) (by omega) ?_
    · rw [sub_eq_neg_add, ofInt_add, ofInt_neg, ofInt_natCast,
        ofInt_natCast, ofNat_toNat, setWidth_eq, ← toNat_udiv, ofNat_toNat, setWidth_eq]
    · have hneg : (s.toNat : ℤ) * -((m.toNat / s.toNat : ℕ) : ℤ) ≡ 1 [ZMOD m.toNat] := by
        have h := hright.neg
        rwa [← mul_neg, neg_neg, Nat.cast_one, mul_one] at h
      refine Int.ModEq.trans (Int.modEq_iff_dvd.mpr ⟨-s.toNat, ?_⟩) hneg
      ring
  · rw [if_neg hv2, if_neg (not_not.mpr hu2)]
    by_cases hneg : u1.toInt < 0
    · rw [if_pos hneg]
      refine modulInvFinish_of_cofactor build hpos heven hs hone (c := c + m.toNat) ?_ (by omega)
        (by omega) ?_
      · rw [hu1w, ofInt_add, ofInt_natCast, ofNat_toNat, setWidth_eq]
      · refine Int.ModEq.trans (Int.modEq_iff_dvd.mpr ⟨-s.toNat, ?_⟩) hinv
        ring
    · rw [if_neg hneg]
      exact modulInvFinish_of_cofactor build hpos heven hs hone hu1w (by omega) (by omega) hinv

end

/-- Without an inverse. -/
theorem modulInv_of_not_coprime (hpos : 0 < w)
    (hs : s.toNat < m.toNat) (hcop : Nat.gcd s.toNat m.toNat ≠ 1) :
    modulInv build s m = pure (0, 0#w) := by
  have hone_toNat : (1#w).toNat = 1 := toNat_const (Nat.one_lt_two_pow (by omega))
  by_cases hs0 : s = 0#w
  · subst hs0
    have hm : m > 0#w := by
      rw [gt_iff_lt, lt_def]
      exact hs
    rw [modulInv, assert_of hm, pure_bind, pure_bind, if_pos rfl]
  have hs2 : 2 ≤ s.toNat := by
    have h0 : s.toNat ≠ 0 := fun h => hs0 (eq_of_toNat_eq (by simpa using h))
    have h1 : s.toNat ≠ 1 := fun h => hcop (by rw [h, Nat.gcd_one_left])
    omega
  obtain ⟨u1, u2, c, -, -, hgcd, -, hbody⟩ := modulInv_run build hpos hs hs2
  have hv2 : m % s ≠ 1#w := by
    intro h
    have hg := (modulInv_start hs hs2).1.gcd_eq
    rw [h, hone_toNat, Nat.gcd_one_right, Int.gcd_natCast_natCast] at hg
    exact hcop hg.symm
  have hu2 : u2 ≠ 1#w := fun h => hcop (by rw [← hgcd, h, hone_toNat])
  rw [hbody, if_neg hv2, if_pos hu2]

/-- For every modulus above one, even or odd, and every residue: if the two are coprime the
inverse is returned, reduced, and otherwise zero.  No assertion fails, and the cofactor that the
loop returns for 1 is the one of the loop on unbounded integers. -/
theorem modulInv_spec (hpos : 0 < w) (heven : w % 2 = 0)
    (hs : s.toNat < m.toNat) (hone : 1 < m.toNat) :
    (Nat.gcd s.toNat m.toNat = 1 → ∃ r, modulInv build s m = pure (1, r) ∧ r.toNat < m.toNat ∧
      r.toNat * s.toNat ≡ 1 [MOD m.toNat]) ∧
    (Nat.gcd s.toNat m.toNat ≠ 1 → modulInv build s m = pure (0, 0#w)) ∧
    (1 < s.toNat → Nat.gcd s.toNat m.toNat = 1 → ∃ u1 u2,
      modulInvLoop (s.toNat + 1) 1#w (-(m / s)) s (m % s) = pure (u1, u2) ∧
        (u1.toInt, u2.toNat) = exactInvLoop (s.toNat + 1) 1 (-(m.toNat / s.toNat : ℕ)) s.toNat
          (m.toNat % s.toNat)) := by
  refine ⟨modulInv_of_coprime build hpos heven hs hone, modulInv_of_not_coprime build hpos hs,
    fun hs2 hcop => ?_⟩
  obtain ⟨u1, u2, c, hrun, hexact, hgcd, hunit, -⟩ := modulInv_run build hpos hs hs2
  exact ⟨u1, u2, hrun, by rw [hexact, (hunit (hgcd.trans hcop)).1]⟩

end Inverse

theorem modulGcdLoop_spec {a b : BitVec w} {fuel : ℕ} (hfuel : a.toNat < fuel) :
    ∃ g, modulGcdLoop fuel a b = pure g ∧ g.toNat = Nat.gcd a.toNat b.toNat := by
  induction fuel generalizing a b with
  | zero => omega
  | succ fuel ih =>
    rw [modulGcdLoop]
    by_cases ha : a > 0#w
    · have hpos : 0 < a.toNat := lt_def.mp ha
      have hlt := Nat.mod_lt b.toNat hpos
      obtain ⟨g, hrun, hg⟩ := ih (a := b % a) (b := a) (by rw [toNat_umod]; omega)
      refine ⟨g, by rw [if_pos ha, hrun], ?_⟩
      rw [hg, toNat_umod, ← Nat.gcd_rec]
    · have hzero : a.toNat = 0 := by
        rw [gt_iff_lt, lt_def] at ha
        simpa using ha
      exact ⟨b, by rw [if_neg ha], by rw [hzero, Nat.gcd_zero_left]⟩

/-- `mod_gcd` of a reduced residue. -/
theorem modulGcd_spec {r m : BitVec w} (hr : r.toNat < m.toNat) :
    ∃ g, modulGcd r m = pure g ∧ g.toNat = Nat.gcd r.toNat m.toNat := by
  have hm : m > 0#w := by
    rw [gt_iff_lt, lt_def, toNat_zero]
    omega
  have hlt : ¬r ≥ m := by
    rw [ge_iff_le, le_def]
    omega
  rw [modulGcd, assert_of hm, pure_bind, if_neg hlt]
  exact modulGcdLoop_spec (Nat.lt_succ_self _)

theorem invmodlong_start_modEq (hw : 4 ≤ w) {n : BitVec w} (hodd : n.toNat % 2 ≠ 0) :
    (((n ^^^ ((n &&& 4#w) <<< 1) ^^^ ((n &&& 2#w) <<< 2)).toNat : ℕ) : ℤ) * n.toNat
      ≡ 1 [ZMOD 2 ^ 4] := by
  have htable : ∀ x : BitVec 4, x.toNat % 2 ≠ 0 →
      (x ^^^ ((x &&& 4#4) <<< 1) ^^^ ((x &&& 2#4) <<< 2)) * x = 1#4 := by
    decide
  have hlow : (n.setWidth 4).toNat % 2 ≠ 0 := by
    rw [BitVec.toNat_setWidth]
    omega
  have hwidth : ((n ^^^ ((n &&& 4#w) <<< 1) ^^^ ((n &&& 2#w) <<< 2)) * n).setWidth 4 = 1#4 := by
    rw [BitVec.setWidth_mul _ _ hw, setWidth_xor, setWidth_xor,
      BitVec.setWidth_shiftLeft_of_le hw, BitVec.setWidth_shiftLeft_of_le hw,
      setWidth_and, setWidth_and, BitVec.setWidth_ofNat_of_le hw, BitVec.setWidth_ofNat_of_le hw]
    exact htable _ hlow
  have hmod := toNat_setWidth_modEq ((n ^^^ ((n &&& 4#w) <<< 1) ^^^ ((n &&& 2#w) <<< 2)) * n) 4
  rw [hwidth] at hmod
  have hdvd : (2 : ℤ) ^ 4 ∣ 2 ^ w := pow_dvd_pow 2 hw
  exact ((toNat_mul_modEq _ n).of_dvd hdvd).symm.trans hmod.symm

/-- `modul_invmodlong` inverts every odd word. -/
theorem modulInvmodlong_spec (hw : w = 32 ∨ w = 64) {n : BitVec w} (hodd : n.toNat % 2 ≠ 0) :
    ∃ r, modulInvmodlong n = pure r ∧ r * n = 1#w := by
  have hstart := invmodlong_start_modEq (by omega) hodd
  have hstep₁ := newtonStepUlong_modEq hstart (by omega)
  have hstep₂ := newtonStepUlong_modEq hstep₁ (by omega)
  have hstep₃ := newtonStepUlong_modEq hstep₂ (by omega)
  rw [modulInvmodlong, assert_of hodd, pure_bind]
  rcases hw with hw | hw
  · exact ⟨_, congrArg pure (if_pos hw), mul_eq_one_of_modEq (by omega) hstep₃⟩
  · have hstep₄ := newtonStepUlong_modEq hstep₃ (by omega)
    exact ⟨_, congrArg pure (if_neg (by omega)), mul_eq_one_of_modEq (by omega) hstep₄⟩

/-- The inverse of 11 modulo the largest word; the cofactor of the last rest, which is zero, would
be that word and overflows. -/
theorem modulInv_spec_allOnes :
    let m := allOnes 64
    (∃ r, modulInv .noAsm 11#64 m = pure (1, r) ∧ r.toNat < m.toNat ∧
      r.toNat * (11#64).toNat ≡ 1 [MOD m.toNat]) ∧
    ∃ u1 u2, modulInvLoop 12 1#64 (-(m / 11#64)) 11#64 (m % 11#64) = pure (u1, u2) ∧
      (u1.toInt, u2.toNat) = exactInvLoop 12 1 (-(m.toNat / 11 : ℕ)) 11 (m.toNat % 11) := by
  intro m
  obtain ⟨hinv, -, hloop⟩ := modulInv_spec .noAsm (by decide) (by decide) (s := 11#64) (m := m)
    (by decide) (by decide)
  exact ⟨hinv (by decide), hloop (by decide) (by decide)⟩

/-- Modulo one the only residue is coprime to the modulus, and has no inverse here. -/
theorem modulInv_one :
    modulInv .noAsm 0#64 1#64 = pure (0, 0#64) ∧ modulInv .x86 0#64 1#64 = pure (0, 0#64) ∧
      Nat.gcd (0#64).toNat (1#64).toNat = 1 := by
  decide +kernel

end CadoNfs
