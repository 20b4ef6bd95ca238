import CadoNfs.Lib.StrongProbablePrime
import CadoNfs.Utils.ModredcPow
import Mathlib.NumberTheory.LucasPrimality
import Mathlib.Tactic.NormNum.Prime
import Mathlib.Tactic.ReduceModChar

/-!
# The strong probable prime tests for two words

`mod_sprp` and `mod_sprp2` of `modredc_2ul_common.c`.  The decomposition of
`m - 1` shifts by the leading zeros of its low word, where the functions of
`mod_ul_common.c` shift by the trailing zeros.

Main results:

- Theorem `sprpDecompose_spec`: what the decomposition computes.
- Theorem `modSprp_prime`: the bases for which a prime passes.
- Theorem `modSprp_iff`: the primes that pass for every base with a right decomposition.
-/

namespace CadoNfs

open WordArith StrongProbablePrime
open BitVec (le_def toNat_zero)
open TwoWord (value)

variable {w : ℕ}

/-! ## Definitions -/

section Definitions

variable (arith : RedcArith) (build : UlarithBuild)

/-- The loop of `find_minus1`, with the number of squarings that are left. -/
def findMinus1Loop (minusone : TwoWord w) (m : Modulusredc w) :
    ℕ → TwoWord w → Outcome Bool
  | 0, _ => pure false
  | n + 1, r1 => do
    let r1 ← modSqr arith build r1 m
    if modredcEqual r1 minusone then pure true else findMinus1Loop minusone m n r1

/-- `find_minus1`. -/
def findMinus1 (r1 minusone : TwoWord w) (po2 : ℕ) (m : Modulusredc w) : Outcome Bool :=
  if modredcIs1 r1 m || modredcEqual r1 minusone then pure true
  else findMinus1Loop arith build minusone m (po2 - 1) r1

/-- "Let m-1 = 2^l * k, k odd. Set mm1 = k, po2 = l". -/
def sprpDecompose (m : Modulusredc w) : Outcome (TwoWord w × ℕ) := do
  let mm1 : TwoWord w := ⟨m.m.lo - 1#w, m.m.hi⟩
  let start : TwoWord w × ℕ := if mm1.lo = 0#w then (⟨mm1.hi, 0#w⟩, w) else (mm1, 0)
  Outcome.assert (start.1.lo ≠ 0#w)
  let i := ularithClz build start.1.lo
  pure (modredcIntshr build start.1 i, start.2 + i)

/-- A two-word integer as an array. -/
def wordArray (t : TwoWord w) (i : ℕ) : BitVec w :=
  if i = 0 then t.lo else t.hi

/-- "Exponentiate", for a base that is given. -/
def sprpPower (b k : TwoWord w) (m : Modulusredc w) : Outcome (TwoWord w) :=
  if k.hi > 0#w then modPowMp arith build b (wordArray k) 2 m else modPowUl arith build b k.lo m

/-- "Exponentiate", for the base 2. -/
def sprp2Power (k : TwoWord w) (m : Modulusredc w) : Outcome (TwoWord w) :=
  if k.hi > 0#w then mod2powMp arith build (wordArray k) 2 m else mod2powUl arith build k.lo m

/-- `mod_sprp`. -/
def modSprp (b : TwoWord w) (m : Modulusredc w) : Outcome Bool :=
  if m.m.lo = 1#w ∧ m.m.hi = 0#w then pure false
  else do
    let (mm1, po2) ← sprpDecompose build m
    let minusone := modredcNeg build m.one m
    let r ← sprpPower arith build b mm1 m
    findMinus1 arith build r minusone po2 m

/-- `mod_sprp2`. -/
def modSprp2 (m : Modulusredc w) : Outcome Bool := do
  let (mm1, po2) ← sprpDecompose build m
  let minusone := modredcNeg build m.one m
  let r ← sprp2Power arith build mm1 m
  findMinus1 arith build r minusone po2 m

end Definitions

/-! ## The search for minus one -/

section FindMinus1

variable {arith : RedcArith} {m : Modulusredc w} {x z : ℕ} {r1 minusone : TwoWord w}

theorem findMinus1_eq (build : UlarithBuild) (r1 minusone : TwoWord w) (po2 : ℕ)
    (m : Modulusredc w) :
    findMinus1 arith build r1 minusone po2 m
      = (modredcOps arith build m).findMinusOne modredcEqual (modredcIs1 · m) r1 minusone po2 := by
  have hloop : ∀ n r1, findMinus1Loop arith build minusone m n r1
      = (modredcOps arith build m).findMinusOneLoop modredcEqual minusone n r1 := by
    intro n
    induction n with
    | zero => exact fun _ => rfl
    | succ n ih =>
      intro r1
      simp only [findMinus1Loop, RingOps.findMinusOneLoop, ih]
      rfl
  rw [findMinus1, RingOps.findMinusOne, hloop]

theorem findMinus1_spec (build : UlarithBuild) (hw : 2 ≤ w) (heven : w % 2 = 0)
    (hm : ValidRedc arith m) (hminus : IsResidueOf m z minusone) (po2 : ℕ)
    (hr : IsResidueOf m x r1) :
    ∃ res, findMinus1 arith build r1 minusone po2 m = pure res ∧
      (res = true ↔ x ≡ 1 [MOD m.m.value] ∨ ∃ j < max 1 po2, x ^ 2 ^ j ≡ z [MOD m.m.value]) := by
  have hone : modredcIs1 r1 m = true ↔ (x : ZMod m.m.value) = 1 := by
    rw [← Nat.cast_one, ZMod.natCast_eq_natCast_iff]
    exact hr.equal_iff hm.toValidModulus (IsResidueOf.one hm.toValidModulus)
  simp only [findMinus1_eq, ← ZMod.natCast_eq_natCast_iff, Nat.cast_pow, Nat.cast_one]
  exact RingOps.findMinusOne_spec _ (modredcOps_models build hw heven hm) modredcEqual_iff
    (isResidueOf_iff.mp hminus) po2 (isResidueOf_iff.mp hr) hone

end FindMinus1

/-! ## The decomposition -/

section Decompose

/-- The word of `m - 1` whose leading zeros are counted: the low word, or the high word if
the low one is zero. -/
def sprpWord (m : TwoWord w) : BitVec w :=
  if m.lo - 1#w = 0#w then m.hi else m.lo - 1#w

/-- The power of two that the other word makes up for. -/
def sprpBase (m : TwoWord w) : ℕ :=
  if m.lo - 1#w = 0#w then w else 0

/-- The number that is shifted, and the power of two that is taken out before. -/
def sprpStart (m : TwoWord w) : TwoWord w × ℕ :=
  if m.lo - 1#w = 0#w then (⟨m.hi, 0#w⟩, w) else (⟨m.lo - 1#w, m.hi⟩, 0)

/-- `po2`, from the leading zeros of the word. -/
def sprpPo2 (build : UlarithBuild) (m : TwoWord w) : ℕ :=
  sprpBase m + ularithClz build (sprpWord m)

variable {m : Modulusredc w}

theorem sprpWord_spec (hw : 0 < w) (hm : ValidModulus m) :
    0 < (sprpWord m.m).toNat ∧ ∃ rest, m.m.value - 1
      = ((sprpWord m.m).toNat + 2 ^ w * rest) * 2 ^ sprpBase m.m := by
  have hlo := hm.lo_odd hw
  have hhi := hm.hi_pos
  have hone : (1#w).toNat = 1 := toNat_const (Nat.one_lt_two_pow (by omega))
  have hsub : (m.m.lo - 1#w).toNat = m.m.lo.toNat - 1 := by
    rw [BitVec.toNat_sub_of_le (by rw [le_def, hone]; omega), hone]
  unfold sprpWord sprpBase
  by_cases h : m.m.lo - 1#w = 0#w
  · rw [h, toNat_zero] at hsub
    rw [if_pos h, if_pos h]
    refine ⟨hhi, 0, ?_⟩
    rw [mul_zero, add_zero, value, mul_comm _ (2 ^ w)]
    omega
  · have hpos := BitVec.toNat_pos_of_ne_zero h
    rw [if_neg h, if_neg h, pow_zero]
    refine ⟨hpos, m.m.hi.toNat, ?_⟩
    rw [mul_one, hsub, value]
    omega

theorem sprpStart_spec (hw : 0 < w) (hm : ValidModulus m) :
    (sprpStart m.m).1.lo = sprpWord m.m ∧ (sprpStart m.m).2 = sprpBase m.m ∧
      m.m.value - 1 = 2 ^ sprpBase m.m * (sprpStart m.m).1.value := by
  have hlo := hm.lo_odd hw
  have hone : (1#w).toNat = 1 := toNat_const (Nat.one_lt_two_pow (by omega))
  have hsub : (m.m.lo - 1#w).toNat = m.m.lo.toNat - 1 := by
    rw [BitVec.toNat_sub_of_le (by rw [le_def, hone]; omega), hone]
  unfold sprpStart sprpWord sprpBase
  split_ifs with h
  · refine ⟨rfl, rfl, ?_⟩
    rw [h, toNat_zero] at hsub
    simp only [value, toNat_zero, mul_zero, add_zero]
    omega
  · refine ⟨rfl, rfl, ?_⟩
    simp only [value, hsub, pow_zero, one_mul]
    omega

/-- The decomposition divides `m - 1` by the power of two, and drops the remainder. -/
theorem sprpDecompose_spec (build : UlarithBuild) (hw : 0 < w) (hm : ValidModulus m) :
    ∃ k, sprpDecompose build m = pure (k, sprpPo2 build m.m) ∧
      k.value = (m.m.value - 1) / 2 ^ sprpPo2 build m.m := by
  have hpos := (sprpWord_spec hw hm).1
  have hclz : ularithClz build (sprpWord m.m) < w := by
    rw [ularithClz_eq build hpos]
    have := Nat.size_pos.mpr hpos
    omega
  have hne : sprpWord m.m ≠ 0#w := by
    intro h
    rw [h, toNat_zero] at hpos
    omega
  obtain ⟨hlo, hbase, hvalue⟩ := sprpStart_spec hw hm
  refine ⟨modredcIntshr build (sprpStart m.m).1 (ularithClz build (sprpWord m.m)), ?_, ?_⟩
  · rw [sprpPo2, ← hlo, ← hbase]
    rw [← hlo] at hne
    exact congrArg (· >>= _) (Outcome.assert_of hne)
  · rw [modredcIntshr_value build _ hclz, hvalue, sprpPo2, pow_add,
      Nat.mul_div_mul_left _ _ (Nat.two_pow_pos _)]

end Decompose

/-! ## Primes -/

section Prime

variable {arith : RedcArith} {m : Modulusredc w} {x : ℕ}

theorem mpExponent_wordArray {k : TwoWord w} (h : k.hi > 0#w) :
    mpExponent (wordArray k) 2 = k.value := by
  have hne : wordArray k (2 - 1) ≠ 0#w := by
    intro hzero
    have hhi : k.hi = 0#w := hzero
    simp [hhi] at h
  rw [mpExponent, if_neg (by simp [hne])]
  simp only [wordsValue, wordArray, if_true, value, one_ne_zero, if_false, mul_zero,
    pow_zero, mul_one, add_zero]
  ring

theorem value_of_not_hi_pos {k : TwoWord w} (h : ¬k.hi > 0#w) : k.lo.toNat = k.value := by
  rw [gt_iff_lt, BitVec.lt_def, toNat_zero, Nat.pos_iff_ne_zero, not_not] at h
  rw [value, h, mul_zero, add_zero]

variable (build : UlarithBuild)

/-- The remainder that the decomposition drops. -/
def sprpRest (m : TwoWord w) : ℕ :=
  (m.value - 1) % 2 ^ sprpPo2 build m

/-- For a prime, the search for minus one in the powers of `x ^ k` succeeds exactly if the
dropped part of the exponent takes `x` to one. -/
theorem findMinus1_prime (hw : 2 ≤ w) (heven : w % 2 = 0)
    (hm : ValidRedc arith m) (hp : m.m.value.Prime) (hx : ¬m.m.value ∣ x) {r : TwoWord w}
    (hr : IsResidueOf m (x ^ ((m.m.value - 1) / 2 ^ sprpPo2 build m.m)) r) :
    ∃ res, findMinus1 arith build r (modredcNeg build m.one m) (sprpPo2 build m.m) m = pure res ∧
      (res = true ↔ x ^ sprpRest build m.m ≡ 1 [MOD m.m.value]) := by
  have hminus : IsResidueOf m (m.m.value - 1) (modredcNeg build m.one m) := by
    refine (IsResidueOf.one hm.toValidModulus).neg build ?_
    rw [Nat.sub_add_cancel hp.one_lt.le]
    exact Nat.modEq_zero_iff_dvd.mpr dvd_rfl
  obtain ⟨res, hres, hiff⟩ := findMinus1_spec build hw heven hm hminus (sprpPo2 build m.m) hr
  refine ⟨res, hres, hiff.trans ?_⟩
  have hsplit := Nat.div_add_mod' (m.m.value - 1) (2 ^ sprpPo2 build m.m)
  have htest := strongTest_iff hp hx hsplit
  rcases Nat.eq_zero_or_pos (sprpPo2 build m.m) with hzero | hpos
  · -- without a squaring the exponent is all of `m - 1`
    rw [hzero] at htest ⊢
    have hone : x ^ sprpRest build m.m ≡ 1 [MOD m.m.value] := by
      rw [sprpRest, hzero, pow_zero, Nat.mod_one, pow_zero]
    rw [sprpRest, hzero] at hone ⊢
    refine iff_of_true (Or.inl ?_) hone
    exact (htest.mpr hone).resolve_right (by simp)
  · rw [Nat.max_eq_right hpos]
    exact htest

theorem sprpPower_spec (hw : 2 ≤ w) (heven : w % 2 = 0)
    (hm : ValidRedc arith m) {b : TwoWord w} (hb : IsResidueOf m x b) (k : TwoWord w) :
    ∃ r, sprpPower arith build b k m = pure r ∧ IsResidueOf m (x ^ k.value) r := by
  unfold sprpPower
  by_cases h : k.hi > 0#w
  · rw [if_pos h, ← mpExponent_wordArray h]
    exact modPowMp_spec build hw heven hm hb _ 2
  · rw [if_neg h, ← value_of_not_hi_pos h]
    exact modPowUl_spec build hw heven hm hb k.lo

theorem sprp2Power_spec (hw : 3 ≤ w) (heven : w % 2 = 0) (hm : ValidRedc arith m) (k : TwoWord w) :
    ∃ r, sprp2Power arith build k m = pure r ∧ IsResidueOf m (2 ^ k.value) r := by
  unfold sprp2Power
  have htwo : (2#w).toNat = 2 := by
    have hpow : 2 ^ 3 ≤ 2 ^ w := Nat.pow_le_pow_right (by omega) hw
    exact toNat_const (by omega)
  by_cases h : k.hi > 0#w
  · have hspec := modNpowMp_spec build hw heven hm (Or.inl rfl) (wordArray k) 2
    rw [htwo, mpExponent_wordArray h] at hspec
    rwa [if_pos h]
  · have hspec := modNpowUl_spec build hw heven hm (Or.inl rfl) k.lo
    rw [htwo, value_of_not_hi_pos h] at hspec
    rwa [if_neg h]

/-- `mod_sprp` accepts a prime exactly for the bases whose power by the dropped part of the
exponent is one. -/
theorem modSprp_prime (hw : 2 ≤ w) (heven : w % 2 = 0)
    (hm : ValidRedc arith m) (hp : m.m.value.Prime) {b : TwoWord w} (hb : IsResidueOf m x b)
    (hx : ¬m.m.value ∣ x) :
    ∃ res, modSprp arith build b m = pure res ∧
      (res = true ↔ x ^ sprpRest build m.m ≡ 1 [MOD m.m.value]) := by
  have hone : ¬(m.m.lo = 1#w ∧ m.m.hi = 0#w) := by
    rintro ⟨-, hhi⟩
    have hpos := hm.hi_pos
    rw [hhi, toNat_zero] at hpos
    omega
  obtain ⟨k, hk, hkv⟩ := sprpDecompose_spec build (by omega) hm.toValidModulus
  obtain ⟨r, hr, hrres⟩ := sprpPower_spec build hw heven hm hb k
  rw [hkv] at hrres
  obtain ⟨res, hres, hiff⟩ := findMinus1_prime build hw heven hm hp hx hrres
  refine ⟨res, ?_, hiff⟩
  simp [modSprp, if_neg hone, hk, hr, hres]

theorem modSprp2_prime (hw : 3 ≤ w) (heven : w % 2 = 0)
    (hm : ValidRedc arith m) (hp : m.m.value.Prime) :
    ∃ res, modSprp2 arith build m = pure res ∧
      (res = true ↔ 2 ^ sprpRest build m.m ≡ 1 [MOD m.m.value]) := by
  have htwo : ¬m.m.value ∣ 2 := by
    intro hdvd
    have hodd := hm.odd
    have := Nat.le_of_dvd (by omega) hdvd
    have := hp.two_le
    omega
  obtain ⟨k, hk, hkv⟩ := sprpDecompose_spec build (by omega) hm.toValidModulus
  obtain ⟨r, hr, hrres⟩ := sprp2Power_spec build hw heven hm k
  rw [hkv] at hrres
  obtain ⟨res, hres, hiff⟩ := findMinus1_prime build (by omega) heven hm hp htwo hrres
  refine ⟨res, ?_, hiff⟩
  simp [modSprp2, hk, hr, hres]

end Prime

/-! ## The decomposition that is meant -/

section

variable (build : UlarithBuild) {m : Modulusredc w} (hw : 0 < w) (hm : ValidModulus m)
include hw hm

theorem sprp_oddPart : ∃ c, c % 2 = 1 ∧
      m.m.value - 1 = c * 2 ^ (sprpBase m.m + ularithCtz build (sprpWord m.m)) := by
  obtain ⟨hpos, rest, hrest⟩ := sprpWord_spec hw hm
  obtain ⟨c, hc, hodd⟩ := ularithCtz_spec build hw hpos
  have hctz : ularithCtz build (sprpWord m.m) < w := by
    refine (Nat.pow_lt_pow_iff_right (by omega : 1 < 2)).mp (lt_of_le_of_lt ?_
      (sprpWord m.m).isLt)
    rw [hc]
    exact Nat.le_mul_of_pos_left _ (by omega)
  set t := ularithCtz build (sprpWord m.m)
  obtain ⟨d, hd⟩ : ∃ d, w = t + d + 1 := ⟨w - t - 1, by omega⟩
  refine ⟨c + 2 * (2 ^ d * rest), by omega, ?_⟩
  rw [hrest, hc]
  have hpow : 2 ^ w = 2 ^ t * 2 ^ d * 2 := by rw [← pow_add, ← pow_succ, ← hd]
  rw [hpow, pow_add]
  ring

theorem sprpDecompose_odd_iff : (∃ k po2, sprpDecompose build m = pure (k, po2) ∧ k.value % 2 = 1 ∧
        k.value * 2 ^ po2 = m.m.value - 1)
      ↔ ularithClz build (sprpWord m.m) = ularithCtz build (sprpWord m.m) := by
  obtain ⟨k, hk, hkv⟩ := sprpDecompose_spec build hw hm
  obtain ⟨c, hodd, hc⟩ := sprp_oddPart build hw hm
  constructor
  · rintro ⟨k', po2, hrun, hk'odd, hk'⟩
    rw [hk] at hrun
    have hpair := congrArg Outcome.toOption hrun
    rw [Outcome.toOption_pure, Outcome.toOption_pure, Option.some_inj, Prod.mk.injEq] at hpair
    obtain ⟨rfl, rfl⟩ := hpair
    have heq := two_pow_eq_of_odd hk'odd hodd (hk'.trans hc)
    rw [sprpPo2] at heq
    omega
  · intro heq
    have hpo2 : m.m.value - 1 = c * 2 ^ sprpPo2 build m.m := by rw [sprpPo2, heq, hc]
    rw [hpo2, Nat.mul_div_cancel _ (Nat.two_pow_pos _)] at hkv
    exact ⟨k, _, hk, by rw [hkv, hodd], by rw [hkv, hpo2]⟩

end

/-! ## The primes that pass -/

theorem prime_two_mul_fifteen_pow : Nat.Prime 5125781251 := by
  have hhalf : (2 : ZMod 5125781251) ^ 2562890625 ≠ 1 := by
    reduce_mod_char
    decide
  have hthird : (2 : ZMod 5125781251) ^ 1708593750 ≠ 1 := by
    reduce_mod_char
    decide
  have hfifth : (2 : ZMod 5125781251) ^ 1025156250 ≠ 1 := by
    reduce_mod_char
    decide
  apply lucas_primality 5125781251 2
  · reduce_mod_char
  · intro q hq hdvd
    rw [show 5125781251 - 1 = 2 * 3 ^ 8 * 5 ^ 8 by norm_num, hq.dvd_mul, hq.dvd_mul] at hdvd
    rcases hdvd with (h | h) | h
    · rw [(Nat.prime_dvd_prime_iff_eq hq Nat.prime_two).mp h]
      exact hhalf
    · rw [(Nat.prime_dvd_prime_iff_eq hq Nat.prime_three).mp (hq.dvd_of_dvd_pow h)]
      exact hthird
    · rw [(Nat.prime_dvd_prime_iff_eq hq Nat.prime_five).mp (hq.dvd_of_dvd_pow h)]
      exact hfifth

/-- A prime passes `mod_sprp` for exactly the bases whose power by the dropped part of the
exponent is one, so for every base if and only if `m - 1` divides that part; it passes for
every base, and passes `mod_sprp2`, with an odd `k`, if and only if the word of
`m - 1` that is looked at has as many leading zeros as trailing zeros. -/
theorem modSprp_iff (arith : RedcArith) (build : UlarithBuild) (hw : w = 32 ∨ w = 64)
    {s : TwoWord w} (hprime : s.value.Prime) (hlow : 2 ^ w < s.value)
    (hhigh : s.value < 2 ^ arith.bits w) :
    ∃ m, modInitmodUls arith build s = pure m ∧ m.m = s ∧
      (∀ x b, IsResidueOf m x b → ¬s.value ∣ x → ∃ res, modSprp arith build b m = pure res ∧
        (res = true ↔ x ^ sprpRest build s ≡ 1 [MOD s.value])) ∧
      (∃ res, modSprp2 arith build m = pure res ∧
        (res = true ↔ 2 ^ sprpRest build s ≡ 1 [MOD s.value])) ∧
      ((∀ x b, IsResidueOf m x b → ¬s.value ∣ x → modSprp arith build b m = pure true)
        ↔ s.value - 1 ∣ sprpRest build s) ∧
      (((∀ x b, IsResidueOf m x b → ¬s.value ∣ x → modSprp arith build b m = pure true) ∧
          modSprp2 arith build m = pure true ∧
          ∃ k po2, sprpDecompose build m = pure (k, po2) ∧ k.value % 2 = 1 ∧
            k.value * 2 ^ po2 = s.value - 1)
        ↔ ularithClz build (sprpWord s) = ularithCtz build (sprpWord s)) := by
  have hpos : 0 < w := by omega
  have heven : w % 2 = 0 := by omega
  have hodd : s.value % 2 = 1 := by
    have htwo : 2 ^ 1 ≤ 2 ^ w := Nat.pow_le_pow_right (by omega) hpos
    exact (hprime.eq_two_or_odd).resolve_left (by omega)
  obtain ⟨m, hinit, rfl, hm⟩ := modInitmodUls_spec build hw hodd hlow.le hhigh
  have hsprp := fun {x : ℕ} {b : TwoWord w} (hb : IsResidueOf m x b) (hx : ¬m.m.value ∣ x) =>
    modSprp_prime build (by omega) heven hm hprime hb hx
  have hsprp2 := modSprp2_prime build (by omega) heven hm hprime
  have hall : (∀ x b, IsResidueOf m x b → ¬m.m.value ∣ x → modSprp arith build b m = pure true)
      ↔ ∀ x, ¬m.m.value ∣ x → x ^ sprpRest build m.m ≡ 1 [MOD m.m.value] := by
    constructor
    · intro h x hx
      obtain ⟨b, hb⟩ := IsResidueOf.exists_residue hm.toValidModulus x
      obtain ⟨res, hres, hiff⟩ := hsprp hb hx
      rw [h x b hb hx] at hres
      have hpass := congrArg Outcome.toOption hres
      rw [Outcome.toOption_pure, Outcome.toOption_pure, Option.some_inj] at hpass
      exact hiff.mp hpass.symm
    · intro h x b hb hx
      obtain ⟨res, hres, hiff⟩ := hsprp hb hx
      rw [hres, hiff.mpr (h x hx)]
  refine ⟨m, hinit, rfl, fun x b hb hx => hsprp hb hx, hsprp2,
    hall.trans (forall_pow_modEq_one_iff hprime _), ?_⟩
  rw [← sprpDecompose_odd_iff build hpos hm.toValidModulus]
  refine ⟨fun h => h.2.2, fun h => ?_⟩
  obtain ⟨k, po2, hrun, hkodd, hk⟩ := h
  have hrest : sprpRest build m.m = 0 := by
    have heq := (sprpDecompose_odd_iff build hpos hm.toValidModulus).mp ⟨k, po2, hrun, hkodd, hk⟩
    obtain ⟨c, -, hc⟩ := sprp_oddPart build hpos hm.toValidModulus
    rw [sprpRest, sprpPo2, heq, hc, Nat.mul_mod_left]
  have hpass : ∀ x, x ^ sprpRest build m.m ≡ 1 [MOD m.m.value] := fun x => by rw [hrest, pow_zero]
  refine ⟨hall.mpr fun x _ => hpass x, ?_, k, po2, hrun, hkodd, hk⟩
  obtain ⟨res, hres, hiff⟩ := hsprp2
  rw [hres, hiff.mpr (hpass 2)]

/-- The prime `2 * 15 ^ 8 + 1` at 32-bit words, where the word has two leading zeros and
one trailing zero. -/
theorem modSprp_iff_word32 :
    ∃ m, modInitmodUls .modredc2ul2 .noAsm (⟨830813955#32, 1#32⟩ : TwoWord 32) = pure m ∧
      ∀ x b, IsResidueOf m x b → ¬5125781251 ∣ x →
        ∃ res, modSprp .modredc2ul2 .noAsm b m = pure res ∧
          (res = true ↔ x ^ 2 ≡ 1 [MOD 5125781251]) := by
  obtain ⟨m, hinit, -, hsprp, -⟩ := modSprp_iff .modredc2ul2 .noAsm (Or.inl rfl)
    (s := (⟨830813955#32, 1#32⟩ : TwoWord 32)) prime_two_mul_fifteen_pow (by decide) (by decide)
  exact ⟨m, hinit, hsprp⟩

/-- The prime `2 * 15 ^ 8 + 1` is rejected for the base 2 by both tests. -/
theorem modSprp_rejects_prime :
    Nat.Prime (⟨830813955#32, 1#32⟩ : TwoWord 32).value ∧
      ∃ m, modInitmodUls .modredc2ul2 .noAsm (⟨830813955#32, 1#32⟩ : TwoWord 32) = pure m ∧
        (∃ b, IsResidueOf m 2 b ∧ modSprp .modredc2ul2 .noAsm b m = pure false) ∧
        modSprp2 .modredc2ul2 .noAsm m = pure false := by
  have hprime : Nat.Prime (⟨830813955#32, 1#32⟩ : TwoWord 32).value := prime_two_mul_fifteen_pow
  obtain ⟨m, hinit, hms, hm⟩ : ∃ m,
      modInitmodUls .modredc2ul2 .noAsm (⟨830813955#32, 1#32⟩ : TwoWord 32) = pure m ∧
        m.m = ⟨830813955#32, 1#32⟩ ∧ ValidRedc .modredc2ul2 m :=
    modInitmodUls_spec .noAsm (Or.inl rfl) (by decide) (by decide) (by decide)
  have hfour : ¬2 ^ sprpRest .noAsm m.m ≡ 1 [MOD m.m.value] := by
    rw [hms]
    decide
  obtain ⟨b, hb⟩ := IsResidueOf.exists_residue hm.toValidModulus 2
  obtain ⟨res, hres, hiff⟩ := modSprp_prime .noAsm (by omega) (by omega) hm (hms ▸ hprime) hb
    (by rw [hms]; decide)
  obtain ⟨res2, hres2, hiff2⟩ := modSprp2_prime .noAsm (by omega) (by omega) hm (hms ▸ hprime)
  refine ⟨hprime, m, hinit, ⟨b, hb, ?_⟩, ?_⟩
  · rw [hres, Bool.eq_false_iff.mpr (fun h => hfour (hiff.mp h))]
  · rw [hres2, Bool.eq_false_iff.mpr (fun h => hfour (hiff2.mp h))]

end CadoNfs
