import CadoNfs.Utils.ModredcOps

/-!
# Powers of residues

The powering functions of `modredc_2ul_common.c`: an arbitrary or a small base, with an
exponent of one word or of an array of words.

Main results:

- Theorem `modPowUl_spec`, `modPowMp_spec`: powers of an arbitrary base.
- Theorem `modNpowUl_spec`, `modNpowMp_spec`: powers of the bases 2, 3, 5 and 7.
-/

namespace CadoNfs

open WordArith
open Outcome (assert assert_of)
open IsResidueOf (one)

variable {w : ℕ}

/-! ## Definitions -/

section Definitions

variable (arith : RedcArith) (build : UlarithBuild)

/-- "Find highest set bit in e". -/
def highestBit (e : BitVec w) : BitVec w :=
  (1#w <<< (w - 1)) >>> ularithClz build e

/-- The loop of `mod_pow_ul`, with the bits of the exponent that are still to be seen
in `e1`. -/
def modPowUlLoop (b : TwoWord w) (e : BitVec w) (m : Modulusredc w) :
    ℕ → TwoWord w → BitVec w → BitVec w → Outcome (TwoWord w × BitVec w × BitVec w)
  | 0, _, _, _ => .abort
  | fuel + 1, t, mask, e1 =>
    if mask > 1#w then do
      let t ← modSqr arith build t m
      let mask := mask >>> 1
      if e &&& mask ≠ 0#w then do
        let t ← modMul arith build t b m
        modPowUlLoop b e m fuel t mask (e1 - mask)
      else modPowUlLoop b e m fuel t mask e1
    else pure (t, mask, e1)

/-- `mod_pow_ul`. -/
def modPowUl (b : TwoWord w) (e : BitVec w) (m : Modulusredc w) : Outcome (TwoWord w) :=
  if e = 0#w then pure m.one
  else do
    let mask := highestBit build e
    let (t, mask, e1) ← modPowUlLoop arith build b e m (w + 1) b mask (e - mask)
    assert (e1 = 0#w ∧ mask = 1#w)
    pure t

/-- One turn of `mod_pow_mp`. -/
def modPowStep (b : TwoWord w) (m : Modulusredc w) (bit : Bool) (t : TwoWord w) :
    Outcome (TwoWord w) := do
  let t ← modSqr arith build t m
  if bit then modMul arith build t b m else pure t

/-- `mod_pow_mp`. -/
def modPowMp (b : TwoWord w) (e : ℕ → BitVec w) (nrwords : ℕ) (m : Modulusredc w) :
    Outcome (TwoWord w) :=
  if nrwords = 0 ∨ e (nrwords - 1) = 0#w then pure m.one
  else
    wordsLoop (modPowStep arith build b m) e nrwords (highestBit build (e (nrwords - 1)) >>> 1) b

/-- `simple_mul`: addition chains for small multipliers. -/
def simpleMul (a : TwoWord w) (b : BitVec w) (m : Modulusredc w) : Outcome (TwoWord w) :=
  if b = 2#w then modredcAdd build a a m
  else if b = 3#w then do
    let r ← modredcAdd build a a m
    modredcAdd build r a m
  else if b = 5#w then do
    let r ← modredcAdd build a a m
    let r ← modredcAdd build r r m
    modredcAdd build r a m
  else do
    assert (b = 7#w)
    let r ← modredcAdd build a a m
    let r ← modredcAdd build r r m
    let r ← modredcAdd build r r m
    pure (modredcSub build r a m)

/-- The small base as a residue. -/
def modNpowStart (b : BitVec w) (m : Modulusredc w) : Outcome (TwoWord w) :=
  if b = 2#w then modredcAdd build m.one m.one m else simpleMul build m.one b m

/-- One turn of `mod_npow_ul` and `mod_npow_mp`: the base 2 is multiplied by a shift. -/
def modNpowStep (b : BitVec w) (m : Modulusredc w) (bit : Bool) (t : TwoWord w) :
    Outcome (TwoWord w) := do
  let t ← modSqr arith build t m
  if b = 2#w then
    pure (ularithSub2ul2ulGe build (modredcIntshl build t (if bit then 1 else 0)) m.m)
  else do
    let u ← simpleMul build t b m
    pure (if bit then u else t)

/-- `mod_npow_ul`. -/
def modNpowUl (b e : BitVec w) (m : Modulusredc w) : Outcome (TwoWord w) :=
  if e = 0#w then pure m.one
  else do
    let t ← modNpowStart build b m
    let mask := highestBit build e
    assert (e &&& mask ≠ 0#w)
    maskLoop (modNpowStep arith build b m) e (w + 1) (mask >>> 1) t

/-- `mod_2pow_ul`. -/
def mod2powUl (e : BitVec w) (m : Modulusredc w) : Outcome (TwoWord w) :=
  modNpowUl arith build 2#w e m

/-- `mod_npow_mp`. -/
def modNpowMp (b : BitVec w) (e : ℕ → BitVec w) (nrwords : ℕ) (m : Modulusredc w) :
    Outcome (TwoWord w) :=
  if nrwords = 0 ∨ e (nrwords - 1) = 0#w then pure m.one
  else do
    let t ← modNpowStart build b m
    wordsLoop (modNpowStep arith build b m) e nrwords (highestBit build (e (nrwords - 1)) >>> 1) t

/-- `mod_2pow_mp`. -/
def mod2powMp (e : ℕ → BitVec w) (nrwords : ℕ) (m : Modulusredc w) : Outcome (TwoWord w) :=
  modNpowMp arith build 2#w e nrwords m

end Definitions

/-! ## The highest bit -/

theorem highestBit_toNat (build : UlarithBuild) {e : BitVec w} (he : 0 < e.toNat) :
    (highestBit build e).toNat = 2 ^ (e.toNat.size - 1) := by
  have hsize : e.toNat.size ≤ w := Nat.size_le.mpr e.isLt
  have hpos : 0 < e.toNat.size := Nat.size_pos.mpr he
  have htop : (1#w <<< (w - 1)).toNat = 2 ^ (w - 1) := by
    rw [BitVec.toNat_shiftLeft, BitVec.toNat_ofNat, Nat.shiftLeft_eq,
      Nat.mod_eq_of_lt (Nat.one_lt_two_pow (by omega)), one_mul,
      Nat.mod_eq_of_lt (Nat.pow_lt_pow_right (by omega) (by omega))]
  rw [highestBit, ularithClz_eq build he, BitVec.toNat_ushiftRight, htop,
    Nat.shiftRight_eq_div_pow, Nat.pow_div (by omega) (by omega)]
  congr 1
  omega

theorem div_highestBit {n : ℕ} (hn : 0 < n) : n / 2 ^ (n.size - 1) = 1 := by
  have hpos : 0 < n.size := Nat.size_pos.mpr hn
  have hlow : 2 ^ (n.size - 1) ≤ n := Nat.lt_size.mp (by omega)
  have hhigh : n < 2 ^ (n.size - 1) * 2 := by
    rw [← pow_succ, Nat.sub_add_cancel hpos]
    exact Nat.lt_size_self n
  exact Nat.div_eq_of_lt_le (by omega) (by omega)

theorem highestBit_half (build : UlarithBuild) {e : BitVec w} (he : 0 < e.toNat) :
    (highestBit build e >>> 1).toNat = 2 ^ (e.toNat.size - 1) / 2 := by
  rw [BitVec.toNat_ushiftRight, highestBit_toNat build he, Nat.shiftRight_eq_div_pow, pow_one]

section Scan

variable {σ : Type} {step : Bool → σ → Outcome σ} {Inv : ℕ → σ → Prop} {s : σ}

theorem maskLoop_highestBit (build : UlarithBuild) (hstep : ScansBits step Inv) {e : BitVec w}
    (he : 0 < e.toNat) (h : Inv 1 s) :
    ∃ s', maskLoop step e (w + 1) (highestBit build e >>> 1) s = pure s' ∧ Inv e.toNat s' := by
  have hsize : e.toNat.size ≤ w := Nat.size_le.mpr e.isLt
  rw [← div_highestBit he] at h
  obtain ⟨s', hs', hres⟩ := maskLoop_spec hstep e (by omega : e.toNat.size - 1 < w + 1)
    (highestBit_half build he) h
  rw [Nat.div_add_mod'] at hres
  exact ⟨s', hs', hres⟩

/-- An array of words that is empty or has a zero on top is taken for zero; otherwise the
exponent is its number. -/
def mpExponent (e : ℕ → BitVec w) (nrwords : ℕ) : ℕ :=
  if nrwords = 0 ∨ e (nrwords - 1) = 0#w then 0 else wordsValue e nrwords

theorem wordsLoop_highestBit (build : UlarithBuild) (hstep : ScansBits step Inv)
    {e : ℕ → BitVec w} {nrwords : ℕ} (hzero : ¬(nrwords = 0 ∨ e (nrwords - 1) = 0#w))
    (h : Inv 1 s) :
    ∃ s', wordsLoop step e nrwords (highestBit build (e (nrwords - 1)) >>> 1) s = pure s' ∧
      Inv (mpExponent e nrwords) s' := by
  rw [mpExponent, if_neg hzero]
  rw [not_or] at hzero
  obtain ⟨i, rfl⟩ := Nat.exists_eq_add_one_of_ne_zero hzero.1
  rw [Nat.add_sub_cancel] at hzero ⊢
  have he := BitVec.toNat_pos_of_ne_zero hzero.2
  have hsize : (e i).toNat.size ≤ w := Nat.size_le.mpr (e i).isLt
  rw [← div_highestBit he] at h
  exact wordsLoop_spec hstep e (by omega : (e i).toNat.size - 1 ≤ w) (highestBit_half build he) h
    rfl

end Scan

/-! ## An arbitrary base -/

/-- The loop of `mod_pow_ul` from its start. -/
theorem powLoop_highestBit {ρ : Type} {R : Type*} [CommRing R] {ops : RingOps ρ}
    {Rep : R → ρ → Prop} {x : R} {b : ρ} (h : ops.Models Rep) (hb : Rep x b) (build : UlarithBuild)
    (hw : 0 < w) {e : BitVec w} (hzero : e ≠ 0#w) :
    ∃ r, ops.powLoop b e (w + 1) b (highestBit build e) (e - highestBit build e)
      = pure (r, 1#w, 0#w) ∧ Rep (x ^ e.toNat) r := by
  have he := BitVec.toNat_pos_of_ne_zero hzero
  have hmask := highestBit_toNat build he
  have hsize : e.toNat.size ≤ w := Nat.size_le.mpr e.isLt
  have hdiv := div_highestBit he
  have hrest : (e - highestBit build e).toNat = e.toNat % 2 ^ (e.toNat.size - 1) := by
    have hsum := Nat.div_add_mod e.toNat (2 ^ (e.toNat.size - 1))
    rw [hdiv, mul_one] at hsum
    rw [BitVec.toNat_sub_of_le (by rw [BitVec.le_def, hmask]; omega), hmask]
    omega
  exact RingOps.powLoop_spec h hb hw e (by omega : e.toNat.size - 1 < w + 1) hmask
    (by rwa [hdiv, pow_one]) hrest

section Pow

variable {arith : RedcArith} {m : Modulusredc w} {x : ℕ} {b : TwoWord w}

theorem modPowStep_scans (build : UlarithBuild) (hw : 2 ≤ w) (heven : w % 2 = 0)
    (hm : ValidRedc arith m) (hb : IsResidueOf m x b) :
    ScansBits (modPowStep arith build b m) (fun n t => IsResidueOf m (x ^ n) t) := by
  simp only [isResidueOf_iff, Nat.cast_pow]
  exact RingOps.powStep_scans (modredcOps_models build hw heven hm) (isResidueOf_iff.mp hb)

theorem modPowUlLoop_eq (b : TwoWord w) (e : BitVec w) (m : Modulusredc w) (build : UlarithBuild)
    (fuel : ℕ) (t : TwoWord w) (mask e1 : BitVec w) :
    modPowUlLoop arith build b e m fuel t mask e1
      = (modredcOps arith build m).powLoop b e fuel t mask e1 := by
  induction fuel generalizing t mask e1 with
  | zero => rfl
  | succ fuel ih =>
    simp only [modPowUlLoop, RingOps.powLoop, ih]
    rfl

section

variable (build : UlarithBuild) (hw : 2 ≤ w) (heven : w % 2 = 0) (hm : ValidRedc arith m)
  (hb : IsResidueOf m x b)
include hw heven hm hb

/-- `mod_pow_ul` computes the power, and its assertions hold. -/
theorem modPowUl_spec (e : BitVec w) :
    ∃ r, modPowUl arith build b e m = pure r ∧ IsResidueOf m (x ^ e.toNat) r := by
  by_cases hzero : e = 0#w
  · refine ⟨m.one, by rw [modPowUl, if_pos hzero], ?_⟩
    rw [hzero, BitVec.toNat_zero, pow_zero]
    exact one hm.toValidModulus
  simp only [isResidueOf_iff, Nat.cast_pow] at *
  obtain ⟨r, hr, hres⟩ := powLoop_highestBit (modredcOps_models build hw heven hm) hb build
    (by omega) hzero
  refine ⟨r, ?_, hres⟩
  simp [modPowUl, if_neg hzero, modPowUlLoop_eq, hr, assert_of]

/-- `mod_pow_mp` computes the power. -/
theorem modPowMp_spec (e : ℕ → BitVec w) (nrwords : ℕ) :
    ∃ r, modPowMp arith build b e nrwords m = pure r ∧
      IsResidueOf m (x ^ mpExponent e nrwords) r := by
  unfold modPowMp
  by_cases hzero : nrwords = 0 ∨ e (nrwords - 1) = 0#w
  · rw [if_pos hzero, mpExponent, if_pos hzero, pow_zero]
    exact ⟨m.one, rfl, one hm.toValidModulus⟩
  · rw [if_neg hzero]
    exact wordsLoop_highestBit build (modPowStep_scans build hw heven hm hb) hzero
      (by rwa [pow_one])

end

end Pow

/-! ## The small bases -/

section Npow

variable {arith : RedcArith} {m : Modulusredc w} {x : ℕ} {a : TwoWord w} {b : BitVec w}

theorem ofNat_ne_of_lt (hw : 3 ≤ w) {i j : ℕ} (hi : i < 8) (hj : j < 8) (hne : i ≠ j) :
    BitVec.ofNat w i ≠ BitVec.ofNat w j := by
  have hpow : 2 ^ 3 ≤ 2 ^ w := Nat.pow_le_pow_right (by omega) hw
  intro h
  have hval := congrArg BitVec.toNat h
  rw [toNat_const (by omega), toNat_const (by omega)] at hval
  exact hne hval

variable (build : UlarithBuild)

section

variable (hw : 3 ≤ w) (hm : ValidModulus m) (hb : b = 2#w ∨ b = 3#w ∨ b = 5#w ∨ b = 7#w)
include hw hm hb

theorem simpleMul_spec (ha : IsResidueOf m x a) :
    ∃ r, simpleMul build a b m = pure r ∧ IsResidueOf m (x * b.toNat) r := by
  have hpow : 2 ^ 3 ≤ 2 ^ w := Nat.pow_le_pow_right (by omega) hw
  have hadd := fun {x y : ℕ} {a b : TwoWord w} (ha : IsResidueOf m x a) (hb : IsResidueOf m y b) =>
    ha.add build (by omega : 0 < w) hm hb
  obtain ⟨r₂, hr₂, h₂⟩ := hadd ha ha
  obtain ⟨r₃, hr₃, h₃⟩ := hadd h₂ ha
  obtain ⟨r₄, hr₄, h₄⟩ := hadd h₂ h₂
  obtain ⟨r₅, hr₅, h₅⟩ := hadd h₄ ha
  obtain ⟨r₈, hr₈, h₈⟩ := hadd h₄ h₄
  have hne := fun {i j : ℕ} => ofNat_ne_of_lt hw (i := i) (j := j)
  rcases hb with rfl | rfl | rfl | rfl
  · refine ⟨r₂, by rw [simpleMul, if_pos rfl, hr₂], ?_⟩
    rwa [toNat_const (by omega), Nat.mul_two]
  · refine ⟨r₃, ?_, ?_⟩
    · rw [simpleMul, if_neg (hne (by omega) (by omega) (by omega)), if_pos rfl, hr₂, pure_bind, hr₃]
    · rwa [toNat_const (by omega), show x * 3 = x + x + x by ring]
  · refine ⟨r₅, ?_, ?_⟩
    · rw [simpleMul, if_neg (hne (by omega) (by omega) (by omega)),
        if_neg (hne (by omega) (by omega) (by omega)), if_pos rfl, hr₂, pure_bind, hr₄,
        pure_bind, hr₅]
    · rwa [toNat_const (by omega), show x * 5 = x + x + (x + x) + x by ring]
  · refine ⟨modredcSub build r₈ a m, ?_, ?_⟩
    · rw [simpleMul, if_neg (hne (by omega) (by omega) (by omega)),
        if_neg (hne (by omega) (by omega) (by omega)),
        if_neg (hne (by omega) (by omega) (by omega)), assert_of rfl, pure_bind,
        hr₂, pure_bind, hr₄, pure_bind, hr₈, pure_bind]
    · rw [toNat_const (by omega)]
      refine h₈.sub build ha ?_
      rw [show x * 7 + x = x + x + (x + x) + (x + x + (x + x)) by ring]

theorem modNpowStart_spec : ∃ t, modNpowStart build b m = pure t ∧ IsResidueOf m b.toNat t := by
  have hchain : modNpowStart build b m = simpleMul build m.one b m := by
    unfold modNpowStart
    split_ifs with h
    · rw [simpleMul, if_pos h]
    · rfl
  obtain ⟨t, ht, hres⟩ := simpleMul_spec build hw hm hb (one hm)
  rw [one_mul] at hres
  exact ⟨t, hchain.trans ht, hres⟩

end

theorem shift_sub_spec (hw : 1 < w) (hm : ValidModulus m) (ha : IsResidueOf m x a) (bit : Bool) :
    IsResidueOf m (x * 2 ^ bit.toNat)
      (ularithSub2ul2ulGe build (modredcIntshl build a (if bit then 1 else 0)) m.m) := by
  have hi : (if bit then 1 else 0) = bit.toNat := by cases bit <;> rfl
  have hbit : bit.toNat ≤ 1 := Bool.toNat_le bit
  have hfour := hm.four_mul_le
  have hlt := ha.lt
  have hdouble : a.value * 2 ^ bit.toNat < 2 * m.m.value := by
    have hle : 2 ^ bit.toNat ≤ 2 := by
      calc 2 ^ bit.toNat ≤ 2 ^ 1 := Nat.pow_le_pow_right (by omega) hbit
        _ = 2 := pow_one 2
    calc a.value * 2 ^ bit.toNat ≤ a.value * 2 := Nat.mul_le_mul_left _ hle
      _ < 2 * m.m.value := by omega
  have hvalue := modredcIntshl_value build (s := a) (i := bit.toNat) (by omega) (by omega)
  have hcongr : a.value * 2 ^ bit.toNat ≡ x * 2 ^ bit.toNat * (2 ^ w * 2 ^ w) [MOD m.m.value] := by
    rw [Nat.mul_right_comm]
    exact ha.congr.mul_right _
  rw [hi]
  have hsub := ularithSub2ul2ulGe_value build
    (hm.not_borrowMissed (by omega) (modredcIntshl build a bit.toNat))
  rw [hvalue] at hsub
  refine ⟨?_, Nat.ModEq.trans ?_ hcongr⟩
  · rw [hsub]
    split_ifs <;> omega
  · rw [hsub]
    split_ifs with h
    · exact (Nat.modEq_iff_dvd' (Nat.sub_le _ _)).mpr (by rw [Nat.sub_sub_self h])
    · rfl

section

variable (hw : 3 ≤ w) (heven : w % 2 = 0) (hm : ValidRedc arith m)
  (hb : b = 2#w ∨ b = 3#w ∨ b = 5#w ∨ b = 7#w)
include hw heven hm hb

theorem modNpowStep_scans :
    ScansBits (modNpowStep arith build b m) (fun n t => IsResidueOf m (b.toNat ^ n) t) := by
  intro n bit t ht
  obtain ⟨s, hs, hsres⟩ := ht.sqr build (by omega) heven hm
  rw [← pow_add, ← two_mul] at hsres
  by_cases htwo : b = 2#w
  · refine ⟨_, by rw [modNpowStep, hs, pure_bind, if_pos htwo], ?_⟩
    have hshift := shift_sub_spec build (by omega) hm.toValidModulus hsres bit
    have hpow : 2 ^ 3 ≤ 2 ^ w := Nat.pow_le_pow_right (by omega) hw
    have hval : b.toNat = 2 := by rw [htwo, toNat_const (by omega)]
    rw [hval, ← pow_add] at hshift
    rwa [hval]
  · obtain ⟨u, hu, hures⟩ := simpleMul_spec build hw hm.toValidModulus hb hsres
    rw [← pow_succ] at hures
    refine ⟨if bit then u else s, ?_, ?_⟩
    · rw [modNpowStep, hs, pure_bind, if_neg htwo, hu, pure_bind]
    · cases bit with
      | false => simpa using hsres
      | true => simpa using hures

/-- `mod_npow_ul` computes the power of the small base, and its assertion holds. -/
theorem modNpowUl_spec (e : BitVec w) :
    ∃ r, modNpowUl arith build b e m = pure r ∧ IsResidueOf m (b.toNat ^ e.toNat) r := by
  unfold modNpowUl
  by_cases hzero : e = 0#w
  · rw [if_pos hzero, hzero, BitVec.toNat_zero, pow_zero]
    exact ⟨m.one, rfl, one hm.toValidModulus⟩
  have he := BitVec.toNat_pos_of_ne_zero hzero
  have hset : e &&& highestBit build e ≠ 0#w := by
    have hbit := and_mask_toNat (highestBit_toNat build he) e
    rw [div_highestBit he] at hbit
    by_contra h
    rw [h] at hbit
    simp at hbit
  obtain ⟨t, ht, htres⟩ := modNpowStart_spec build hw hm.toValidModulus hb
  obtain ⟨r, hr, hres⟩ := maskLoop_highestBit build (modNpowStep_scans build hw heven hm hb) he
    (by rwa [pow_one])
  refine ⟨r, ?_, hres⟩
  simp [if_neg hzero, ht, assert_of hset, hr]

/-- `mod_npow_mp` computes the power of the small base. -/
theorem modNpowMp_spec (e : ℕ → BitVec w) (nrwords : ℕ) :
    ∃ r, modNpowMp arith build b e nrwords m = pure r ∧
      IsResidueOf m (b.toNat ^ mpExponent e nrwords) r := by
  unfold modNpowMp
  by_cases hzero : nrwords = 0 ∨ e (nrwords - 1) = 0#w
  · rw [if_pos hzero, mpExponent, if_pos hzero, pow_zero]
    exact ⟨m.one, rfl, one hm.toValidModulus⟩
  · obtain ⟨t, ht, htres⟩ := modNpowStart_spec build hw hm.toValidModulus hb
    rw [if_neg hzero, ht, pure_bind]
    exact wordsLoop_highestBit build (modNpowStep_scans build hw heven hm hb) hzero
      (by rwa [pow_one])

end

end Npow

end CadoNfs
