import CadoNfs.Utils.ModredcInv
import CadoNfs.Utils.ModredcSprp
import CadoNfs.Utils.ModUlCommon

/-!
# The primality tests

`mod_isprime` of `mod_ul_common.c` and of `modredc_2ul_common.c`: strong probable
prime tests to the base 2, with one squaring less where 2 is a square, and to bases that depend on
the remainder by 3, with early exits for small numbers and lists of the numbers that pass although
they are composite.

Main results:

- Theorem `not_prime_of_mem_exceptions`: the listed numbers are composite.
- Theorem `modulIsprime_prime`: the one-word test accepts every prime.
- Theorem `modIsprime_prime`: the two-word test accepts every prime.
- Theorem `modIsprime_accepts`: no prime that a header admits is rejected.
-/

namespace CadoNfs

open WordArith StrongProbablePrime
open BitVec (ofNat)
open TwoWord (value)

variable {w : ℕ}

/-! ## Definitions -/

/-- "These are the base 5,7,61 SPSP < 10^13 and n == 1 (mod 3)". -/
def spsp5_7_61 : List ℕ :=
  [30926647201, 45821738881, 74359744201, 90528271681, 110330267041, 373303331521, 440478111067,
    1436309367751, 1437328758421, 1858903385041, 4897239482521, 5026103290981, 5219055617887,
    5660137043641, 6385803726241]

/-- "These are the base 3,5 SPSP < 10^13 with n == 2 (mod 3)". -/
def spsp3_5 : List ℕ :=
  [244970876021, 405439595861, 1566655993781, 3857382025841, 4074652846961, 5783688565841]

section OneWord

/-- `modul_is1`. -/
def modulIs1 (a : BitVec w) : Bool :=
  a == 1#w

/-- `modredcul_is1`. -/
def modredculIs1 (m : Modulusredcul w) (a : BitVec w) : Bool :=
  a == m.one

variable (build : UlarithBuild) (ops : RingOps (BitVec w)) (is1 : BitVec w → Bool)

/-- `find_minus1`. -/
def modulFindMinus1 (r1 minusone : BitVec w) (po2 : ℕ) : Outcome Bool :=
  ops.findMinusOne (· == ·) is1 r1 minusone po2

/-- `mod_pow_ul`, and `find_minus1` in the power. -/
def modulSprpTest (b mm1 minusone : BitVec w) (po2 : ℕ) : Outcome Bool := do
  let r1 ← modulPowUl build ops b mm1
  modulFindMinus1 ops is1 r1 minusone po2

/-- The test of the power of 2: "If n is prime and 1 or 7 (mod 8), then 2 is a square (mod n) and
one less squaring must suffice". -/
def modulTwoTest (n r1 minusone : BitVec w) (po2 : ℕ) : Outcome Bool :=
  if n.toNat % 8 = 7 then pure (is1 r1)
  else modulFindMinus1 ops is1 r1 minusone (po2 - if n.toNat % 8 = 1 then 1 else 0)

/-- "b = 5". -/
def modulSet5 (minusone : BitVec w) : Outcome (BitVec w) := do
  let b ← ops.add ops.one ops.one
  let b ← ops.add b b
  pure (ops.sub b minusone)

/-- "b = 7". -/
def modulSet7 (minusone : BitVec w) : Outcome (BitVec w) := do
  let b ← ops.add ops.one ops.one
  let b ← ops.add b b
  let b ← ops.add b b
  ops.add b minusone

/-- From 7 by 14, 15, 30 and 60 to 61. -/
def modulSet61 (b minusone : BitVec w) : Outcome (BitVec w) := do
  let b ← ops.add b b
  let b := ops.sub b minusone
  let b ← ops.add b b
  let b ← ops.add b b
  pure (ops.sub b minusone)

/-- The bases 7, 61 and 5, for `n % 3UL == 1UL`. -/
def modulIsprimeOne (n mm1 minusone : BitVec w) (po2 : ℕ) : Outcome Bool := do
  let b ← modulSet7 ops minusone
  let found ← modulSprpTest build ops is1 b mm1 minusone po2
  if found = false then pure false
  else if n.toNat < 2269093 then pure (decide (n.toNat ≠ 314821))
  else do
    let b ← modulSet61 ops b minusone
    let found ← modulSprpTest build ops is1 b mm1 minusone po2
    if found = false then pure false
    -- ULONG_MAX > 4294967295UL
    else if 2 ^ w - 1 > 4294967295 then
      if n.toNat ≠ 4759123141 ∧ n.toNat ≠ 8411807377 ∧ n.toNat < 11207066041 then pure true
      else do
        let b ← modulSet5 ops minusone
        let found ← modulSprpTest build ops is1 b mm1 minusone po2
        if found = false then pure false else pure (decide (n.toNat ∉ spsp5_7_61))
    else pure true

/-- The bases 3 and 5: "Case n % 3 == 0, 2". -/
def modulIsprimeOther (n mm1 minusone : BitVec w) (po2 : ℕ) : Outcome Bool := do
  let r1 ← modul3powUl build ops mm1
  let found ← modulFindMinus1 ops is1 r1 minusone po2
  if found = false then pure false
  else if n.toNat < 102690677 ∧ n.toNat ≠ 5173601 ∧ n.toNat ≠ 16070429 ∧ n.toNat ≠ 54029741 then
    pure true
  else do
    let b ← modulSet5 ops minusone
    let found ← modulSprpTest build ops is1 b mm1 minusone po2
    if found = false then pure false
    else if 2 ^ w - 1 > 4294967295 then pure (decide (n.toNat ∉ spsp3_5))
    else pure true

/-- `mod_isprime` of `mod_ul_common.c`, for the modulus `n`. -/
def modulIsprime (n : BitVec w) : Outcome Bool :=
  if n = 1#w then pure false
  else if n.toNat % 2 = 0 then pure (decide (n.toNat = 2))
  else do
    let mm1 := n - 1#w
    let po2 := ularithCtz build mm1
    let mm1 := mm1 >>> po2
    let minusone := ops.neg ops.one
    let r1 ← modul2powUl build ops mm1
    let found ← modulTwoTest ops is1 n r1 minusone po2
    if found = false then pure false
    else if n.toNat < 2047 then pure true
    else if n.toNat % 3 = 1 then modulIsprimeOne build ops is1 n mm1 minusone po2
    else modulIsprimeOther build ops is1 n mm1 minusone po2

end OneWord

/-- The words of the numbers of `spsp5_7_61`, for `LONG_BIT == 32`. -/
def spsp5_7_61Words : List (TwoWord w) :=
  [(861876129, 7), (2872065921, 10), (1345300169, 17), (333958465, 21), (2956084641, 25),
    (3936144065, 86), (2391446875, 102), (1790290887, 334), (2809681557, 334), (3477513169, 432),
    (976765081, 1140), (991554661, 1170), (670353247, 1215), (3665114809, 1317),
    (3482324385, 1486)].map fun c : ℕ × ℕ => ⟨ofNat w c.1, ofNat w c.2⟩

/-- The words of the numbers of `spsp3_5`, for `LONG_BIT == 32`. -/
def spsp3_5Words : List (TwoWord w) :=
  [(157740149, 57), (1712670037, 94), (3287898037, 364), (501394033, 898), (3023850353, 948),
    (2662585425, 1346)].map fun c : ℕ × ℕ => ⟨ofNat w c.1, ofNat w c.2⟩

section TwoWords

variable (arith : RedcArith) (build : UlarithBuild)

/-- "Set mm1 to the odd part of m-1". -/
def isprimeDecompose (n : TwoWord w) : Outcome (TwoWord w × ℕ) := do
  let mm1 : TwoWord w := ⟨n.lo - 1#w, n.hi⟩
  let start : TwoWord w × ℕ := if mm1.lo = 0#w then (⟨mm1.hi, 0#w⟩, w) else (mm1, 0)
  Outcome.assert (start.1.lo ≠ 0#w)
  let i := ularithCtz build start.1.lo
  pure (modredcIntshr build start.1 i, start.2 + i)

/-- `mod_npow_mp` or `mod_npow_ul`, which are `mod_2pow_mp` or `mod_2pow_ul` for
the base 2, by the length of the exponent. -/
def isprimeNpow (b : BitVec w) (mm1 : TwoWord w) (m : Modulusredc w) : Outcome (TwoWord w) :=
  if mm1.hi ≠ 0#w then modNpowMp arith build b (wordArray mm1) 2 m
  else modNpowUl arith build b mm1.lo m

/-- `mod_pow_mp` or `mod_pow_ul`, by the length of the exponent. -/
def isprimePow (b mm1 : TwoWord w) (m : Modulusredc w) : Outcome (TwoWord w) :=
  if mm1.hi ≠ 0#w then modPowMp arith build b (wordArray mm1) 2 m
  else modPowUl arith build b mm1.lo m

/-- The power of a small base, and `find_minus1` in the power. -/
def isprimeNpowTest (b : BitVec w) (mm1 minusone : TwoWord w) (po2 : ℕ) (m : Modulusredc w) :
    Outcome Bool := do
  let r1 ← isprimeNpow arith build b mm1 m
  findMinus1 arith build r1 minusone po2 m

/-- `mod_set_ul_reduced`. -/
def modSetUlReduced (s : BitVec w) (m : Modulusredc w) : Outcome (TwoWord w) :=
  modredcTomontgomery build ⟨s, 0#w⟩ m

/-- The test of the power of 2. -/
def isprimeTwoTest (r1 minusone : TwoWord w) (po2 : ℕ) (m : Modulusredc w) : Outcome Bool :=
  if m.m.lo.toNat % 8 = 7 then pure (modredcIs1 r1 m)
  else findMinus1 arith build r1 minusone (po2 - if m.m.lo.toNat % 8 = 7 then 1 else 0) m

/-- The bases 7, 61 and 5. -/
def isprimeOne (mm1 minusone : TwoWord w) (po2 : ℕ) (m : Modulusredc w) : Outcome Bool := do
  let found ← isprimeNpowTest arith build 7#w mm1 minusone po2 m
  if found = false then pure false
  else do
    let b ← modSetUlReduced build 61#w m
    let r1 ← isprimePow arith build b mm1 m
    let found ← findMinus1 arith build r1 minusone po2 m
    if found = false then pure false
    else if w = 32 ∧ modIntcmp .modredc2ul2 m.m ⟨2617131449#w, 2#w⟩ < 0 then
      pure (decide (modIntcmp .modredc2ul2 m.m ⟨464155845#w, 1#w⟩ ≠ 0 ∧
        modIntcmp .modredc2ul2 m.m ⟨4116840081#w, 1#w⟩ ≠ 0))
    else do
      let found ← isprimeNpowTest arith build 5#w mm1 minusone po2 m
      if found = false then pure false
      else if w = 32 then
        pure (spsp5_7_61Words.all fun c => decide (modIntcmp .modredc2ul2 m.m c ≠ 0))
      else pure true

/-- The bases 3 and 5. -/
def isprimeOther (mm1 minusone : TwoWord w) (po2 : ℕ) (m : Modulusredc w) : Outcome Bool := do
  let found ← isprimeNpowTest arith build 3#w mm1 minusone po2 m
  if found = false then pure false
  else do
    let found ← isprimeNpowTest arith build 5#w mm1 minusone po2 m
    if found = false then pure false
    else if w = 32 then
      pure (spsp3_5Words.all fun c => decide (modIntcmp .modredc2ul2 m.m c ≠ 0))
    else pure true

/-- `mod_isprime` of `modredc_2ul_common.c`. -/
def modIsprime (m : Modulusredc w) : Outcome Bool :=
  if modIntcmpUl .modredc2ul2 m.m 1#w = 0 then pure false
  else if m.m.lo.toNat % 2 = 0 then pure (decide (modIntcmpUl .modredc2ul2 m.m 2#w = 0))
  else do
    let (mm1, po2) ← isprimeDecompose build m.m
    let minusone := modredcNeg build m.one m
    let r1 ← isprimeNpow arith build 2#w mm1 m
    let found ← isprimeTwoTest arith build r1 minusone po2 m
    if found = false then pure false
    else
      let i := m.m.lo.toNat % 3 + m.m.hi.toNat % 3
      if i = 1 ∨ i = 4 then isprimeOne arith build mm1 minusone po2 m
      else isprimeOther arith build mm1 minusone po2 m

end TwoWords

/-! ## The numbers that are listed -/

/-- The listed numbers are composite. -/
theorem not_prime_of_mem_exceptions {n : ℕ} (h : n ∈ spsp5_7_61 ∨ n ∈ spsp3_5) : ¬n.Prime := by
  simp only [spsp5_7_61, spsp3_5, List.mem_cons, List.not_mem_nil, or_false] at h
  rcases h with
    (rfl | rfl | rfl | rfl | rfl | rfl | rfl | rfl | rfl | rfl | rfl | rfl | rfl | rfl | rfl) |
    (rfl | rfl | rfl | rfl | rfl | rfl) <;> norm_num

/-! ## The odd part of a prime less one -/

section OddPart

variable {n k po2 : ℕ}

theorem isprime_po2 (hp : n.Prime) (hne : n ≠ 2) (hk : k * 2 ^ po2 = n - 1) (hodd : k % 2 = 1) :
    0 < po2 ∧ (n % 8 = 7 → po2 = 1) := by
  have hmod := hp.eq_two_or_odd.resolve_left hne
  have htwo := hp.two_le
  have hpos : 0 < po2 := by
    refine Nat.pos_of_ne_zero fun hzero => ?_
    rw [hzero, pow_zero, mul_one] at hk
    omega
  refine ⟨hpos, fun h8 => ?_⟩
  by_contra h
  obtain ⟨j, rfl⟩ : ∃ j, po2 = j + 2 := ⟨po2 - 2, by omega⟩
  have hfour : n - 1 = k * 2 ^ j * 4 := by
    rw [← hk, pow_add]
    ring
  omega

theorem natCast_ne_zero_of_lt {b : ℕ} (hb : 0 < b) (h : b < n) : (b : ZMod n) ≠ 0 := by
  rw [Ne, ZMod.natCast_eq_zero_iff]
  exact fun hdvd => absurd (Nat.le_of_dvd hb hdvd) (by omega)

theorem two_passes (hp : n.Prime) (hne : n ≠ 2) (hk : k * 2 ^ po2 = n - 1) (hodd : k % 2 = 1) :
    (n % 8 = 7 → (2 : ZMod n) ^ k = 1) ∧
      ((2 : ZMod n) ^ k = 1 ∨
        ∃ j < po2 - if n % 8 = 1 then 1 else 0, ((2 : ZMod n) ^ k) ^ 2 ^ j = -1) := by
  have : Fact n.Prime := ⟨hp⟩
  obtain ⟨hpos, hseven⟩ := isprime_po2 hp hne hk hodd
  have hsquare := fun hmod : n % 8 = 1 ∨ n % 8 = 7 =>
    strongTest_two hmod (by rwa [Nat.sub_add_cancel hpos] : k * 2 ^ (po2 - 1 + 1) = n - 1)
  refine ⟨fun h8 => ?_, ?_⟩
  · have h := hsquare (.inr h8)
    rw [hseven h8] at h
    exact h.resolve_right (by simp)
  · split_ifs with h8
    · exact hsquare (.inl h8)
    · have htwo := hp.two_le
      have hcast := natCast_ne_zero_of_lt (n := n) (b := 2) (by omega) (by omega)
      exact strongTest_prime (by exact_mod_cast hcast) hk

end OddPart

/-! ## One word -/

section OneWord

variable {ops : RingOps (BitVec w)} {is1 : BitVec w → Bool} {n : BitVec w}
  {Rep : ZMod n.toNat → BitVec w → Prop} {x : ZMod n.toNat} {b r mm1 : BitVec w} {po2 : ℕ}

theorem modulFindMinus1_passes (h : ops.Models Rep)
    (his1 : ∀ x a, Rep x a → (is1 a = true ↔ x = 1)) (hr : Rep x r)
    (hpass : x = 1 ∨ ∃ j < po2, x ^ 2 ^ j = -1) :
    modulFindMinus1 ops is1 r (ops.neg ops.one) po2 = pure true := by
  obtain ⟨res, hres, hiff⟩ := RingOps.findMinusOne_spec is1 h (fun _ _ => beq_iff_eq) (h.neg h.one)
    po2 hr (his1 x r hr)
  have htrue : res = true := hiff.mpr (hpass.imp_right fun ⟨j, hj, hx⟩ => ⟨j, by omega, hx⟩)
  rw [modulFindMinus1, hres, htrue]

theorem modulSprpTest_prime (build : UlarithBuild) (hw : 0 < w) (h : ops.Models Rep)
    (his1 : ∀ x a, Rep x a → (is1 a = true ↔ x = 1)) (hp : n.toNat.Prime)
    (hk : mm1.toNat * 2 ^ po2 = n.toNat - 1) (hx : x ≠ 0) (hb : Rep x b) :
    modulSprpTest build ops is1 b mm1 (ops.neg ops.one) po2 = pure true := by
  have : Fact n.toNat.Prime := ⟨hp⟩
  obtain ⟨r1, hr1, hres⟩ := modulPowUl_spec build hw h hb mm1
  rw [modulSprpTest, hr1, pure_bind]
  exact modulFindMinus1_passes h his1 hres (strongTest_prime hx hk)

theorem modulSet5_spec (h : ops.Models Rep) :
    ∃ b, modulSet5 ops (ops.neg ops.one) = pure b ∧ Rep 5 b := by
  obtain ⟨b₂, hb₂, h₂⟩ := h.add h.one h.one
  obtain ⟨b₄, hb₄, h₄⟩ := h.add h₂ h₂
  have h₅ := h.sub h₄ (h.neg h.one)
  rw [show (1 + 1 + (1 + 1) - -1 : ZMod n.toNat) = 5 by norm_num] at h₅
  exact ⟨_, by rw [modulSet5, hb₂, pure_bind, hb₄, pure_bind], h₅⟩

theorem modulSet7_spec (h : ops.Models Rep) :
    ∃ b, modulSet7 ops (ops.neg ops.one) = pure b ∧ Rep 7 b := by
  obtain ⟨b₂, hb₂, h₂⟩ := h.add h.one h.one
  obtain ⟨b₄, hb₄, h₄⟩ := h.add h₂ h₂
  obtain ⟨b₈, hb₈, h₈⟩ := h.add h₄ h₄
  obtain ⟨b₇, hb₇, h₇⟩ := h.add h₈ (h.neg h.one)
  rw [show (1 + 1 + (1 + 1) + (1 + 1 + (1 + 1)) + -1 : ZMod n.toNat) = 7 by norm_num] at h₇
  exact ⟨b₇, by rw [modulSet7, hb₂, pure_bind, hb₄, pure_bind, hb₈, pure_bind, hb₇], h₇⟩

theorem modulSet61_spec (h : ops.Models Rep) (hb : Rep 7 b) :
    ∃ b', modulSet61 ops b (ops.neg ops.one) = pure b' ∧ Rep 61 b' := by
  obtain ⟨b₁₄, hb₁₄, h₁₄⟩ := h.add hb hb
  have h₁₅ := h.sub h₁₄ (h.neg h.one)
  obtain ⟨b₃₀, hb₃₀, h₃₀⟩ := h.add h₁₅ h₁₅
  obtain ⟨b₆₀, hb₆₀, h₆₀⟩ := h.add h₃₀ h₃₀
  have h₆₁ := h.sub h₆₀ (h.neg h.one)
  rw [show (7 + 7 - -1 + (7 + 7 - -1) + (7 + 7 - -1 + (7 + 7 - -1)) - -1 : ZMod n.toNat) = 61 by
    norm_num] at h₆₁
  refine ⟨_, ?_, h₆₁⟩
  simp [modulSet61, hb₁₄, hb₃₀, hb₆₀]

section

variable (build : UlarithBuild) (hw : 0 < w) (h : ops.Models Rep)
  (his1 : ∀ x a, Rep x a → (is1 a = true ↔ x = 1)) (hp : n.toNat.Prime)
include hw h his1 hp

section

variable (hk : mm1.toNat * 2 ^ po2 = n.toNat - 1) (hlarge : 61 < n.toNat)
include hk hlarge

theorem modulIsprimeOne_prime :
    modulIsprimeOne build ops is1 n mm1 (ops.neg ops.one) po2 = pure true := by
  have htest := fun {c : ℕ} {b : BitVec w} (hc : 0 < c ∧ c ≤ 61) (hb : Rep (c : ZMod n.toNat) b) =>
    modulSprpTest_prime build hw h his1 hp hk
      (natCast_ne_zero_of_lt (b := c) (by omega) (by omega)) hb
  obtain ⟨b₇, hb₇, h₇⟩ := modulSet7_spec h
  obtain ⟨b₆₁, hb₆₁, h₆₁⟩ := modulSet61_spec h h₇
  obtain ⟨b₅, hb₅, h₅⟩ := modulSet5_spec h
  have ht₇ := htest (c := 7) (by omega) (by exact_mod_cast h₇)
  have ht₆₁ := htest (c := 61) (by omega) (by exact_mod_cast h₆₁)
  have ht₅ := htest (c := 5) (by omega) (by exact_mod_cast h₅)
  have hfirst : n.toNat ≠ 314821 := by
    intro heq
    rw [heq] at hp
    norm_num at hp
  have hlast : n.toNat ∉ spsp5_7_61 := fun hmem =>
    not_prime_of_mem_exceptions (.inl hmem) hp
  simp [modulIsprimeOne, hb₇, hb₆₁, hb₅, ht₇, ht₆₁, ht₅, hfirst, hlast]

theorem modulIsprimeOther_prime :
    modulIsprimeOther build ops is1 n mm1 (ops.neg ops.one) po2 = pure true := by
  have : Fact n.toNat.Prime := ⟨hp⟩
  have hne := fun (c : ℕ) (hc : 0 < c ∧ c ≤ 61) =>
    natCast_ne_zero_of_lt (n := n.toNat) (b := c) (by omega) (by omega)
  obtain ⟨r₃, hr₃, h₃⟩ := modul3powUl_spec build h mm1
  have ht₃ := modulFindMinus1_passes h his1 h₃
    (strongTest_prime (by exact_mod_cast hne 3 (by omega)) hk)
  obtain ⟨b₅, hb₅, h₅⟩ := modulSet5_spec h
  have ht₅ := modulSprpTest_prime build hw h his1 hp hk (by exact_mod_cast hne 5 (by omega)) h₅
  have hlast : n.toNat ∉ spsp3_5 := fun hmem =>
    not_prime_of_mem_exceptions (.inr hmem) hp
  simp [modulIsprimeOther, hr₃, ht₃, hb₅, ht₅, hlast]

end

/-- The one-word test accepts every prime. -/
theorem modulIsprime_prime : modulIsprime build ops is1 n = pure true := by
  have hone : (1#w).toNat = 1 := toNat_const (Nat.one_lt_two_pow (by omega))
  have htwo := hp.two_le
  have hne_one : n ≠ 1#w := by
    rintro rfl
    omega
  by_cases heven : n.toNat % 2 = 0
  · have heq : n.toNat = 2 := hp.eq_two_or_odd.resolve_right (by omega)
    rw [modulIsprime, if_neg hne_one, if_pos heven, heq, decide_eq_true rfl]
  have hsub : (n - 1#w).toNat = n.toNat - 1 := by
    rw [BitVec.toNat_sub_of_le (by rw [BitVec.le_def, hone]; omega), hone]
  obtain ⟨c, hc, hodd⟩ := ularithCtz_spec build hw (a := n - 1#w) (by omega)
  have hmm1 : ((n - 1#w) >>> ularithCtz build (n - 1#w)).toNat = c := by
    rw [BitVec.toNat_ushiftRight, Nat.shiftRight_eq_div_pow]
    conv_lhs => rw [hc]
    exact Nat.mul_div_cancel c (Nat.two_pow_pos _)
  have hk : ((n - 1#w) >>> ularithCtz build (n - 1#w)).toNat * 2 ^ ularithCtz build (n - 1#w)
      = n.toNat - 1 := by rw [hmm1, ← hc, hsub]
  obtain ⟨hseven, hpass⟩ := two_passes hp (by omega) hk (by rw [hmm1, hodd])
  obtain ⟨r1, hr1, hres⟩ := modul2powUl_spec build h ((n - 1#w) >>> ularithCtz build (n - 1#w))
  have hfound : modulTwoTest ops is1 n r1 (ops.neg ops.one) (ularithCtz build (n - 1#w))
      = pure true := by
    unfold modulTwoTest
    by_cases h8 : n.toNat % 8 = 7
    · rw [if_pos h8, (his1 _ _ hres).mpr (hseven h8)]
    · rw [if_neg h8]
      exact modulFindMinus1_passes h his1 hres hpass
  simp only [modulIsprime, if_neg hne_one, if_neg heven, hr1, pure_bind, hfound,
    Bool.true_eq_false, if_false]
  split_ifs with hsmall hthree
  · rfl
  · exact modulIsprimeOne_prime build hw h his1 hp hk (by omega)
  · exact modulIsprimeOther_prime build hw h his1 hp hk (by omega)

end

end OneWord

/-! ## Two words -/

section TwoWords

variable {arith : RedcArith} {m : Modulusredc w} {b k r : TwoWord w} {po2 x : ℕ}

variable (build : UlarithBuild)

theorem isprimeDecompose_spec (hw : 0 < w) (hm : ValidModulus m) :
    ∃ k po2, isprimeDecompose build m.m = pure (k, po2) ∧ k.value * 2 ^ po2 = m.m.value - 1 ∧
      k.value % 2 = 1 := by
  have hpos := (sprpWord_spec hw hm).1
  have hne : sprpWord m.m ≠ 0#w := by
    intro h
    rw [h, BitVec.toNat_zero] at hpos
    omega
  obtain ⟨hlo, hbase, hvalue⟩ := sprpStart_spec hw hm
  rw [← hlo] at hne
  obtain ⟨hctz, c, hc, hodd⟩ := ularithCtz_lo build hw hne
  have hk := modredcIntshr_of_eq build hctz hc
  refine ⟨modredcIntshr build (sprpStart m.m).1 (ularithCtz build (sprpStart m.m).1.lo),
    (sprpStart m.m).2 + ularithCtz build (sprpStart m.m).1.lo,
    congrArg (· >>= _) (Outcome.assert_of hne), ?_, by rw [hk, hodd]⟩
  rw [hk, hbase, hvalue, hc, pow_add]
  exact mul_left_comm _ _ _

theorem modredcIs1_iff (build : UlarithBuild) (hw : 2 ≤ w) (heven : w % 2 = 0)
    (hm : ValidRedc arith m) (hr : IsResidueOf m x r) :
    modredcIs1 r m = true ↔ (x : ZMod m.m.value) = 1 := by
  have hmodels := modredcOps_models build hw heven hm
  exact (modredcEqual_iff r m.one).trans (hmodels.eq_iff (isResidueOf_iff.mp hr) hmodels.one)

theorem findMinus1_passes (hw : 2 ≤ w) (heven : w % 2 = 0)
    (hm : ValidRedc arith m) (hr : IsResidueOf m x r)
    (hpass : (x : ZMod m.m.value) = 1 ∨ ∃ j < po2, (x : ZMod m.m.value) ^ 2 ^ j = -1) :
    findMinus1 arith build r (modredcNeg build m.one m) po2 m = pure true := by
  have hmodels := modredcOps_models build hw heven hm
  have hone := modredcIs1_iff build hw heven hm hr
  obtain ⟨res, hres, hiff⟩ := RingOps.findMinusOne_spec (modredcIs1 · m) hmodels modredcEqual_iff
    (hmodels.neg hmodels.one) po2 (isResidueOf_iff.mp hr) hone
  have htrue : res = true := hiff.mpr (hpass.imp_right fun ⟨j, hj, hx⟩ => ⟨j, by omega, hx⟩)
  rw [findMinus1_eq, ← htrue]
  exact hres

theorem isprimeNpow_spec (hw : 3 ≤ w) (heven : w % 2 = 0)
    (hm : ValidRedc arith m) {c : BitVec w} (hc : c = 2#w ∨ c = 3#w ∨ c = 5#w ∨ c = 7#w)
    (k : TwoWord w) :
    ∃ r, isprimeNpow arith build c k m = pure r ∧ IsResidueOf m (c.toNat ^ k.value) r := by
  unfold isprimeNpow
  by_cases h : k.hi ≠ 0#w
  · rw [if_pos h, ← mpExponent_wordArray ((BitVec.pos_iff_ne_zero _).mpr h)]
    exact modNpowMp_spec build hw heven hm hc _ 2
  · rw [if_neg h, ← value_of_not_hi_pos (fun hpos => h ((BitVec.pos_iff_ne_zero _).mp hpos))]
    exact modNpowUl_spec build hw heven hm hc k.lo

theorem isprimePow_spec (hw : 2 ≤ w) (heven : w % 2 = 0)
    (hm : ValidRedc arith m) (hb : IsResidueOf m x b) (k : TwoWord w) :
    ∃ r, isprimePow arith build b k m = pure r ∧ IsResidueOf m (x ^ k.value) r := by
  unfold isprimePow
  by_cases h : k.hi ≠ 0#w
  · rw [if_pos h, ← mpExponent_wordArray ((BitVec.pos_iff_ne_zero _).mpr h)]
    exact modPowMp_spec build hw heven hm hb _ 2
  · rw [if_neg h, ← value_of_not_hi_pos (fun hpos => h ((BitVec.pos_iff_ne_zero _).mp hpos))]
    exact modPowUl_spec build hw heven hm hb k.lo

theorem isprimeNpowTest_prime (hw : w = 32 ∨ w = 64)
    (hm : ValidRedc arith m) (hp : m.m.value.Prime) (hk : k.value * 2 ^ po2 = m.m.value - 1)
    (hlarge : 61 < m.m.value) {c : ℕ} (hc : c = 3 ∨ c = 5 ∨ c = 7) :
    isprimeNpowTest arith build (ofNat w c) k (modredcNeg build m.one m) po2 m
      = pure true := by
  have : Fact m.m.value.Prime := ⟨hp⟩
  have hpow : 2 ^ 6 ≤ 2 ^ w := Nat.pow_le_pow_right (by omega) (by omega)
  obtain ⟨r1, hr1, hres⟩ := isprimeNpow_spec build (by omega) (by omega) hm
    (by rcases hc with rfl | rfl | rfl <;> simp : ofNat w c = 2#w ∨ _) k
  have hpass := strongTest_prime
    (natCast_ne_zero_of_lt (by omega : 0 < c) (by omega : c < m.m.value)) hk
  rw [toNat_const (by omega)] at hres
  rw [← Nat.cast_pow] at hpass
  rw [isprimeNpowTest, hr1, pure_bind]
  exact findMinus1_passes build (by omega) (by omega) hm hres hpass

theorem modSetUlReduced_spec (hw : 0 < w) (hm : ValidModulus m)
    {s : BitVec w} (hs : s.toNat < m.m.value) :
    ∃ r, modSetUlReduced build s m = pure r ∧ IsResidueOf m s.toNat r := by
  have hvalue : (⟨s, 0#w⟩ : TwoWord w).value = s.toNat := by simp [value]
  obtain ⟨r, hr, hrv⟩ := modredcTomontgomery_spec build hw hm (s := ⟨s, 0#w⟩) (by rwa [hvalue])
  refine ⟨r, hr, by rw [hrv]; exact Nat.mod_lt _ hm.pos, ?_⟩
  rw [hrv, hvalue, two_mul, pow_add]
  exact Nat.mod_modEq _ _

theorem value_eq_of_modIntcmp {a b : TwoWord w} (h : modIntcmp .modredc2ul2 a b = 0) :
    a.value = b.value := by
  simp only [modIntcmp, wordCmp, gt_iff_lt, BitVec.lt_def, ← BitVec.toNat_inj] at h
  split_ifs at h with h₁ h₂ h₃ h₄
  · exact absurd h (by decide)
  · rw [value, value, h₄, Nat.le_antisymm (not_lt.mp h₂) (not_lt.mp h₁)]
  · exact absurd h (by decide)

theorem all_modIntcmp_ne_zero {s : TwoWord w} (hp : s.value.Prime) {l : List (TwoWord w)}
    (hl : ∀ c ∈ l, ¬c.value.Prime) :
    (l.all fun c => decide (modIntcmp .modredc2ul2 s c ≠ 0)) = true := by
  rw [List.all_eq_true]
  intro c hc
  refine decide_eq_true fun heq => hl c hc ?_
  rwa [← value_eq_of_modIntcmp heq]

theorem not_prime_of_mem_words {c : TwoWord 32} (h : c ∈ spsp5_7_61Words ∨ c ∈ spsp3_5Words) :
    ¬c.value.Prime := by
  have hone : ∀ c ∈ (spsp5_7_61Words : List (TwoWord 32)), c.value ∈ spsp5_7_61 := by decide
  have hother : ∀ c ∈ (spsp3_5Words : List (TwoWord 32)), c.value ∈ spsp3_5 := by decide
  exact not_prime_of_mem_exceptions (h.imp (hone c) (hother c))

section

variable (hw : w = 32 ∨ w = 64) (hm : ValidRedc arith m) (hp : m.m.value.Prime)
include hw hm hp

section

variable (hk : k.value * 2 ^ po2 = m.m.value - 1) (hlarge : 61 < m.m.value)
include hk hlarge

theorem isprimeOne_prime :
    isprimeOne arith build k (modredcNeg build m.one m) po2 m = pure true := by
  have : Fact m.m.value.Prime := ⟨hp⟩
  have hpow : 2 ^ 6 ≤ 2 ^ w := Nat.pow_le_pow_right (by omega) (by omega)
  have hvalue : (61#w).toNat = 61 := toNat_const (by omega)
  have ht₇ := isprimeNpowTest_prime build hw hm hp hk hlarge (.inr (.inr rfl))
  have ht₅ := isprimeNpowTest_prime build hw hm hp hk hlarge (.inr (.inl rfl))
  obtain ⟨b, hb, hbres⟩ := modSetUlReduced_spec build (by omega : 0 < w) hm.toValidModulus
    (s := 61#w) (by rwa [hvalue])
  obtain ⟨r, hr, hres⟩ := isprimePow_spec build (by omega) (by omega) hm hbres k
  have hpass := strongTest_prime (natCast_ne_zero_of_lt (by omega : 0 < 61) hlarge) hk
  rw [← Nat.cast_pow] at hpass
  rw [hvalue] at hres
  have ht₆₁ := findMinus1_passes build (by omega) (by omega) hm hres hpass
  simp only [isprimeOne, ht₇, hb, hr, ht₆₁, ht₅, pure_bind, Bool.true_eq_false, if_false]
  rcases hw with rfl | rfl
  · have hne : ∀ c : TwoWord 32, ¬c.value.Prime → modIntcmp .modredc2ul2 m.m c ≠ 0 :=
      fun c hc heq => hc (by rwa [← value_eq_of_modIntcmp heq])
    have hfirst := hne ⟨464155845#32, 1#32⟩ (by norm_num [value])
    have hsecond := hne ⟨4116840081#32, 1#32⟩ (by norm_num [value])
    rw [all_modIntcmp_ne_zero hp fun c hc => not_prime_of_mem_words (.inl hc)]
    simp [hfirst, hsecond]
  · simp [(by decide : ¬(64 = 32))]

theorem isprimeOther_prime :
    isprimeOther arith build k (modredcNeg build m.one m) po2 m = pure true := by
  have ht₃ := isprimeNpowTest_prime build hw hm hp hk hlarge (.inl rfl)
  have ht₅ := isprimeNpowTest_prime build hw hm hp hk hlarge (.inr (.inl rfl))
  simp only [isprimeOther, ht₃, ht₅, pure_bind, Bool.true_eq_false, if_false]
  rcases hw with rfl | rfl
  · rw [all_modIntcmp_ne_zero hp fun c hc => not_prime_of_mem_words (.inr hc), ite_self]
  · exact if_neg (by decide)

end

/-- The two-word test accepts every prime. -/
theorem modIsprime_prime : modIsprime arith build m = pure true := by
  have hpow : 2 ^ 6 ≤ 2 ^ w := Nat.pow_le_pow_right (by omega) (by omega)
  have hbase : 2 ^ w ≤ m.m.value :=
    (Nat.le_mul_of_pos_right _ hm.hi_pos).trans (Nat.le_add_left _ _)
  have hone : modIntcmpUl .modredc2ul2 m.m 1#w ≠ 0 := by
    have hhi : m.m.hi > 0#w := hm.hi_pos
    simp only [modIntcmpUl, if_pos hhi]
    decide
  have hlo := hm.lo_odd (by omega)
  have hmod : m.m.lo.toNat % 8 = m.m.value % 8 := by
    obtain ⟨d, rfl⟩ : ∃ d, w = 3 + d := ⟨w - 3, by omega⟩
    rw [value, pow_add, mul_assoc]
    exact (Nat.add_mul_mod_self_left _ 8 _).symm
  obtain ⟨k, po2, hdecompose, hk, hodd⟩ :=
    isprimeDecompose_spec build (by omega) hm.toValidModulus
  obtain ⟨r1, hr1, hres⟩ := isprimeNpow_spec build (by omega) (by omega) hm (.inl rfl) k
  rw [toNat_const (by omega)] at hres
  have : Fact m.m.value.Prime := ⟨hp⟩
  have hseven := (two_passes hp (by omega) hk hodd).1
  have hpass := strongTest_prime
    (natCast_ne_zero_of_lt (by omega : 0 < 2) (by omega : 2 < m.m.value)) hk
  rw [← Nat.cast_pow] at hpass
  have hfound : isprimeTwoTest arith build r1 (modredcNeg build m.one m) po2 m = pure true := by
    unfold isprimeTwoTest
    by_cases h8 : m.m.lo.toNat % 8 = 7
    · have hr1one := (modredcIs1_iff build (by omega) (by omega) hm hres).mpr
        (by rw [Nat.cast_pow]; exact_mod_cast hseven (hmod ▸ h8))
      rw [if_pos h8, hr1one]
    · rw [if_neg h8, if_neg h8]
      exact findMinus1_passes build (by omega) (by omega) hm hres hpass
  have hnoteven : ¬m.m.lo.toNat % 2 = 0 := by omega
  simp only [modIsprime, if_neg hone, if_neg hnoteven, hdecompose, pure_bind, hr1, hfound,
    Bool.true_eq_false, if_false]
  split_ifs
  · exact isprimeOne_prime build hw hm hp hk (by omega)
  · exact isprimeOther_prime build hw hm hp hk (by omega)

end

end TwoWords

/-! ## The headers -/

/-- No prime that a header admits is rejected: a prime of one word, with the plain residues or
those in Montgomery form, or a prime of two words. -/
theorem modIsprime_accepts (build : UlarithBuild) (hw : w = 32 ∨ w = 64) :
    (∀ n : BitVec w, n.toNat.Prime →
      modulIsprime build (modulOps build n) modulIs1 n = pure true) ∧
    (∀ n : BitVec w, n.toNat.Prime → n.toNat ≠ 2 → ∃ m, modredculInitmodUl n = pure m ∧
      modulIsprime build (modredculOps build m) (modredculIs1 m) m.m = pure true ∧ m.m = n) ∧
    ∀ (arith : RedcArith) (n : TwoWord w), n.value.Prime → 2 ^ w < n.value →
      n.value < 2 ^ arith.bits w → ∃ m, modInitmodUls arith build n = pure m ∧ m.m = n ∧
        modIsprime arith build m = pure true := by
  have hpos : 0 < w := by omega
  have heven : w % 2 = 0 := by omega
  refine ⟨fun n hp => ?_, fun n hp hne => ?_, fun arith n hp hlow hhigh => ?_⟩
  · have hmodels := modulOps_models build hpos heven hp.pos
    have hone : modulSet1 n = 1#w := if_neg fun h => by
      rw [h, toNat_const (Nat.one_lt_two_pow (by omega))] at hp
      exact Nat.not_prime_one hp
    refine modulIsprime_prime build hpos hmodels (fun x a hx => ?_) hp
    rw [← hmodels.eq_iff hx hmodels.one, modulIs1, beq_iff_eq, ← hone]
    rfl
  · obtain ⟨m, hinit, rfl, hm⟩ := modredculInitmodUl_spec hw (hp.eq_two_or_odd.resolve_left hne)
    have hmodels := modredculOps_models build hpos heven hm
    refine ⟨m, hinit, ?_, rfl⟩
    refine modulIsprime_prime build hpos hmodels (fun x a hx => ?_) hp
    exact beq_iff_eq.trans (hmodels.eq_iff hx hmodels.one)
  · have htwo : 2 ^ 1 ≤ 2 ^ w := Nat.pow_le_pow_right (by omega) hpos
    obtain ⟨m, hinit, rfl, hm⟩ := modInitmodUls_spec build hw
      (hp.eq_two_or_odd.resolve_left (by omega)) hlow.le hhigh
    exact ⟨m, hinit, rfl, modIsprime_prime build hw hm hp⟩

theorem modIsprime_accepts_word32 : ∃ m,
    modInitmodUls .modredc2ul2 .x86 ⟨830813955#32, 1#32⟩ = pure m ∧ m.m = ⟨830813955#32, 1#32⟩ ∧
      modIsprime .modredc2ul2 .x86 m = pure true :=
  (modIsprime_accepts .x86 (.inl rfl)).2.2 .modredc2ul2 ⟨830813955#32, 1#32⟩
    prime_two_mul_fifteen_pow (by decide) (by decide)

end CadoNfs
