import CadoNfs.Lib.CharacterSum
import CadoNfs.Linalg.Cleanup
import CadoNfs.Utils.ModUl

/-!
# The values of characters

The program `characters` evaluates 64 characters at a time at a pair `(a, b)`, and
the threads share the pairs of a batch.

Main results:

- Theorem `evalChar_spec`: the value of one character at one pair, on each of the paths
  of `eval_64chars`, at the numbers that these read in words of `w` bits.
- Theorem `meaningBit_eq_sum`: what a character says about a product is the sum of what
  it says about the factors.
- Theorem `eval64charsBatch_spec`: the words of a batch.
-/

namespace CadoNfs.Characters

open ForRange Gf2 WordArith CharacterSum

/-! ## Evaluation -/

/-- `alg_prime_t`, without the exponent; an `unsigned long` has `w` bits. -/
structure AlgPrime (w : ℕ) where
  p : BitVec w
  r : BitVec w
  deriving DecidableEq

/-- The rational polynomial in `cado_poly`. -/
structure CadoPoly where
  g : ℕ → ℤ
  degreeg : ℕ

variable {w : ℕ}

/-- The quick check of the rational sign. -/
def quickSign (pol : CadoPoly) (a : BitVec 64) : ℤ :=
  if a.toInt > 0 then (pol.g 1).sign else -(pol.g 1).sign

variable (w) in
/-- The rational sign in `eval_64chars`.  `mpz_mul_si` takes a `long`, `mpz_mul_ui` an
`unsigned long`. -/
def rationalSign (pol : CadoPoly) (a b : BitVec 64) : Option Bool := do
  assertAlways (pol.degreeg = 1)
  let res := quickSign pol a
  if (pol.g 0).sign ≠ res then
    some (decide (pol.g 1 * (a.setWidth w).toInt + pol.g 0 * (b.setWidth w).toNat < 0))
  else
    some (decide (res < 0))

variable (build : UlarithBuild)

/-- The character of a prime in `eval_64chars`.  The code makes `a` an `unsigned long` before it
reduces it, and reduces `b` before. -/
def primeCharacter (ch : AlgPrime w) (a b : BitVec 64) :
    Outcome Bool :=
  if a.toInt < 0 then do
    let ua := (-a).setWidth w % ch.p
    let ub := (b % ch.p.setWidth 64).setWidth w
    let aux ← modulMul build ub ch.r ch.p
    let aux := modulAdd build ua aux ch.p
    let aux := modulNeg aux ch.p
    let j ← modulJacobi aux ch.p
    pure (decide (j < 0))
  else do
    let ua := a.setWidth w % ch.p
    let ub := (b % ch.p.setWidth 64).setWidth w
    let aux ← modulMul build ub ch.r ch.p
    let aux := modulSub build ua aux ch.p
    let j ← modulJacobi aux ch.p
    pure (decide (j < 0))

/-- The value `res` of one character in `eval_64chars`. -/
def evalChar (pol : CadoPoly) (ch : AlgPrime w) (a b : BitVec 64) :
    Option Bool :=
  if ch.p = 0#w then
    if ch.r = 0#w then some false
    else if ch.r = 1#w then some true
    else if ch.r = 2#w then rationalSign w pol a b
    else if ch.r = 3#w then some (decide (b = 0#64))
    else none
  else (primeCharacter build ch a b).toOption

/-- `eval_64chars`. -/
def eval64chars (pol : CadoPoly) (chars : ℕ → AlgPrime w)
    (a b : BitVec 64) : Option (BitVec 64) :=
  forRangeM 64 (fun i v => (evalChar build pol (chars i) a b).map fun res =>
    v ||| ((if res then 1#64 else 0#64 : BitVec 64) <<< i)) 0#64

/-- `eval_64chars_batch_thread` of the thread `tnum` among `g`. -/
def eval64charsBatchThread (pol : CadoPoly) (chars : ℕ → AlgPrime w)
    (A B : ℕ → BitVec 64) (n g tnum : ℕ) (W : ℕ → BitVec 64) : Option (ℕ → BitVec 64) :=
  let z0 := tnum * n / g
  forRangeM ((tnum + 1) * n / g - z0) (fun k W =>
    (eval64chars build pol chars (A (z0 + k)) (B (z0 + k))).map fun v =>
      Function.update W (z0 + k) v) W

/-- `eval_64chars_batch`.  The threads write parts of `W` that do not overlap and
are taken one after the other. -/
def eval64charsBatch (pol : CadoPoly) (chars : ℕ → AlgPrime w)
    (A B : ℕ → BitVec 64) (n g : ℕ) (W : ℕ → BitVec 64) : Option (ℕ → BitVec 64) :=
  forRangeM g (eval64charsBatchThread build pol chars A B n g) W

/-! ## What a character says -/

/-- The characters that `create_characters` makes: special ones, and those of a prime
and a root modulo the prime. -/
inductive Built (pol : CadoPoly) : AlgPrime w → Prop
  | trivial : Built pol ⟨0#w, 0#w⟩
  | parity : Built pol ⟨0#w, 1#w⟩
  | sign (h : pol.degreeg = 1) : Built pol ⟨0#w, 2#w⟩
  | free : Built pol ⟨0#w, 3#w⟩
  | prime {p r : BitVec w} (hp : p.toNat.Prime) (hr : r.toNat < p.toNat) : Built pol ⟨p, r⟩

/-- The product of the `a - b * r` that `p` does not divide. -/
def rootProduct (p r : ℕ) (rels : List (ℤ × ℕ)) : ℤ :=
  ((rels.map fun x => x.1 - (x.2 : ℤ) * r).filter fun z => ¬(p : ℤ) ∣ z).prod

/-- The product of the `g1 * a + g0 * b` that are not zero. -/
def rationalProduct (pol : CadoPoly) (rels : List (ℤ × ℕ)) : ℤ :=
  ((rels.map fun x => pol.g 1 * x.1 + pol.g 0 * x.2).filter fun z => z ≠ 0).prod

/-- What a character says about the product over some relations. -/
def Meaning (pol : CadoPoly) (ch : AlgPrime w) (rels : List (ℤ × ℕ)) : Prop :=
  if ch.p = 0#w then
    if ch.r = 0#w then False
    else if ch.r = 1#w then rels.length % 2 = 1
    else if ch.r = 2#w then rationalProduct pol rels < 0
    else rels.countP (fun x => x.2 = 0) % 2 = 1
  else ¬IsSquare (rootProduct ch.p.toNat ch.r.toNat rels : ZMod ch.p.toNat)

/-- A pair as numbers. -/
def relationOf (x : BitVec 64 × BitVec 64) : ℤ × ℕ :=
  (x.1.toInt, x.2.toNat)

/-- The pair fits in a `long` and an `unsigned long` of `w` bits. -/
def FitsLong (w : ℕ) (x : BitVec 64 × BitVec 64) : Prop :=
  -2 ^ (w - 1) ≤ x.1.toInt ∧ x.1.toInt < 2 ^ (w - 1) ∧ x.2.toNat < 2 ^ w
deriving Decidable

/-- The pair that a character reads.  A prime cuts `|a|` to an `unsigned long`; the rational sign
cuts `a` and `b`, unless its quick check decides. -/
def readPair (pol : CadoPoly) (ch : AlgPrime w) (x : BitVec 64 × BitVec 64) : ℤ × ℕ :=
  if ch.p ≠ 0#w then
    (if x.1.toInt < 0 then -(((-x.1).setWidth w).toNat : ℤ) else (x.1.setWidth w).toNat,
      x.2.toNat)
  else if ch.r = 2#w ∧ (pol.g 0).sign ≠ quickSign pol x.1 then
    ((x.1.setWidth w).toInt, (x.2.setWidth w).toNat)
  else relationOf x

/-! ### Products as sums -/

section Sums

variable {pol : CadoPoly} {ch : AlgPrime w}

open Classical in
/-- One where the character says so. -/
noncomputable def meaningBit (pol : CadoPoly) (ch : AlgPrime w) (rels : List (ℤ × ℕ)) : ZMod 2 :=
  if Meaning pol ch rels then 1 else 0

theorem meaningBit_eq_one_iff (rels : List (ℤ × ℕ)) :
    meaningBit pol ch rels = 1 ↔ Meaning pol ch rels := by
  unfold meaningBit
  split_ifs with h
  · exact iff_of_true rfl h
  · exact iff_of_false (by decide) h

theorem meaningBit_eq {rels : List (ℤ × ℕ)} {z : ZMod 2} (h : z = 1 ↔ Meaning pol ch rels) :
    meaningBit pol ch rels = z := by
  rcases eq_zero_or_one z with rfl | rfl
  · refine (eq_zero_or_one _).resolve_right fun hone => ?_
    exact zero_ne_one (h.mpr ((meaningBit_eq_one_iff rels).mp hone))
  · exact (meaningBit_eq_one_iff rels).mpr (h.mp rfl)

theorem countP_mod_two (q : ℤ × ℕ → Prop) [DecidablePred q] (rels : List (ℤ × ℕ)) :
    (rels.map fun x => if q x then (1 : ZMod 2) else 0).sum = 1
      ↔ rels.countP (fun x => q x) % 2 = 1 := by
  have hsum : (rels.map fun x => if q x then (1 : ZMod 2) else 0).sum
      = (rels.countP fun x => q x : ℕ) := by
    induction rels with
    | nil => rfl
    | cons x rels ih =>
      rw [List.map_cons, List.sum_cons, ih, List.countP_cons]
      by_cases hx : q x
      · simp [hx, add_comm]
      · simp [hx]
  rw [hsum, ← Nat.odd_iff, ← ZMod.natCast_eq_one_iff_odd]

theorem rootProduct_cast (p r : ℕ) (rels : List (ℤ × ℕ)) :
    (rootProduct p r rels : ZMod p)
      = nonzeroProd (rels.map fun x => ((x.1 - (x.2 : ℤ) * r : ℤ) : ZMod p)) := by
  unfold rootProduct nonzeroProd
  induction rels with
  | nil => exact Int.cast_one
  | cons x rels ih =>
    simp only [List.map_cons, List.filter_cons, ← ZMod.intCast_zmod_eq_zero_iff_dvd,
      decide_eq_true_eq] at ih ⊢
    by_cases hx : ((x.1 - (x.2 : ℤ) * r : ℤ) : ZMod p) = 0
    · rw [if_neg (not_not.mpr hx), if_neg (not_not.mpr hx), ih]
    · rw [if_pos hx, if_pos hx, List.prod_cons, List.prod_cons, Int.cast_mul, ih]

/-- The special characters differ. -/
theorem special_ne (hw : w = 32 ∨ w = 64) :
    1#w ≠ 0#w ∧ 2#w ≠ 0#w ∧ 2#w ≠ 1#w ∧ 3#w ≠ 0#w ∧ 3#w ≠ 1#w ∧ 3#w ≠ 2#w := by
  rcases hw with rfl | rfl <;> decide

/-- The bit of a list is the sum of the bits of its relations. -/
theorem meaningBit_eq_sum (hw : w = 32 ∨ w = 64) (hch : Built pol ch) (rels : List (ℤ × ℕ)) :
    meaningBit pol ch rels = (rels.map fun x => meaningBit pol ch [x]).sum := by
  obtain ⟨h10, h20, h21, h30, h31, h32⟩ := special_ne hw
  cases hch with
  | trivial =>
    have hzero : ∀ rels, meaningBit pol ⟨0#w, 0#w⟩ rels = 0 := fun rels =>
      meaningBit_eq (iff_of_false (by decide) (by simp [Meaning]))
    simp [hzero]
  | parity =>
    have hone : ∀ rels, meaningBit pol ⟨0#w, 1#w⟩ rels = (rels.map fun _ => 1).sum :=
      fun rels => meaningBit_eq (by
        have hcount := countP_mod_two (fun _ => True) rels
        simpa [Meaning, h10] using hcount)
    simp [hone]
  | sign hdegree =>
    have hsign : ∀ rels, meaningBit pol ⟨0#w, 2#w⟩ rels
        = charBit sign (nonzeroProd (rels.map fun x => pol.g 1 * x.1 + pol.g 0 * x.2)) :=
      fun rels => meaningBit_eq (by
        rw [charBit_sign_iff]
        simp [Meaning, rationalProduct, nonzeroProd, h20, h21])
    rw [hsign, charBit_prod, List.map_map]
    congr 1
    refine List.map_congr_left fun x _ => ?_
    rw [hsign, charBit_prod]
    simp
  | free =>
    have hfree : ∀ rels, meaningBit pol ⟨0#w, 3#w⟩ rels
        = (rels.map fun x => if x.2 = 0 then (1 : ZMod 2) else 0).sum := fun rels =>
      meaningBit_eq (by
        rw [countP_mod_two]
        simp [Meaning, h30, h31, h32])
    simp [hfree]
  | @prime p r hp hr =>
    have : Fact p.toNat.Prime := ⟨hp⟩
    have hne : p ≠ 0#w := fun h => hp.ne_zero (by rw [h]; rfl)
    have hprime : ∀ rels, meaningBit pol ⟨p, r⟩ rels
        = charBit (quadratic p.toNat) (nonzeroProd (rels.map fun x =>
          ((x.1 - (x.2 : ℤ) * r.toNat : ℤ) : ZMod p.toNat))) := fun rels =>
      meaningBit_eq (by
        rw [charBit_quadratic_iff, ← rootProduct_cast]
        simp [Meaning, hne])
    rw [hprime, charBit_prod, List.map_map]
    congr 1
    refine List.map_congr_left fun x _ => ?_
    rw [hprime, charBit_prod]
    simp

end Sums

/-! ## One character -/

section Evaluate

variable {pol : CadoPoly} {a b : BitVec 64}

theorem quick_sign {g0 g1 x y : ℤ} (hy : 0 ≤ y) (hne : x ≠ 0 ∨ y ≠ 0)
    (hsign : g0.sign = if x > 0 then g1.sign else -g1.sign) :
    (if x > 0 then g1.sign else -g1.sign) < 0 ↔ g1 * x + g0 * y < 0 := by
  rw [← hsign, Int.sign_neg_iff]
  by_cases hx : x > 0
  · rw [if_pos hx] at hsign
    rcases lt_trichotomy g1 0 with hneg | rfl | hpos
    · rw [Int.sign_eq_neg_one_of_neg hneg, Int.sign_eq_neg_one_iff_neg] at hsign
      have h1 := mul_neg_of_neg_of_pos hneg hx
      have h0 := mul_nonpos_of_nonpos_of_nonneg hsign.le hy
      exact iff_of_true hsign (by omega)
    · rw [Int.sign_zero, Int.sign_eq_zero_iff_zero] at hsign
      simp [hsign]
    · rw [Int.sign_eq_one_of_pos hpos, Int.sign_eq_one_iff_pos] at hsign
      have h1 := mul_pos hpos hx
      have h0 := mul_nonneg hsign.le hy
      exact iff_of_false (by omega) (by omega)
  · have hx' : x ≤ 0 := not_lt.mp hx
    have hlt : x < 0 ∨ 0 < y := by omega
    rw [if_neg hx] at hsign
    rcases lt_trichotomy g1 0 with hneg | rfl | hpos
    · rw [Int.sign_eq_neg_one_of_neg hneg, neg_neg, Int.sign_eq_one_iff_pos] at hsign
      have h1 := mul_nonneg_of_nonpos_of_nonpos hneg.le hx'
      have h0 := mul_nonneg hsign.le hy
      exact iff_of_false (by omega) (by omega)
    · rw [Int.sign_zero, neg_zero, Int.sign_eq_zero_iff_zero] at hsign
      simp [hsign]
    · rw [Int.sign_eq_one_of_pos hpos, Int.sign_eq_neg_one_iff_neg] at hsign
      have h1 := mul_nonpos_of_nonneg_of_nonpos hpos.le hx'
      have h0 := mul_nonpos_of_nonpos_of_nonneg hsign.le hy
      refine iff_of_true hsign ?_
      rcases hlt with hlt | hlt
      · have := mul_neg_of_pos_of_neg hpos hlt
        omega
      · have := mul_neg_of_neg_of_pos hsign hlt
        omega

theorem rationalSign_spec (w : ℕ) (hdegree : pol.degreeg = 1)
    (hne : a.toInt ≠ 0 ∨ b.toNat ≠ 0) :
    ∃ res, rationalSign w pol a b = some res ∧
      (res = true ↔ pol.g 1 * (readPair pol ⟨0#w, 2#w⟩ (a, b)).1
        + pol.g 0 * (readPair pol ⟨0#w, 2#w⟩ (a, b)).2 < 0) := by
  rw [rationalSign, assertAlways_of_true hdegree]
  by_cases hquick : (pol.g 0).sign = quickSign pol a
  · have hread : readPair pol ⟨0#w, 2#w⟩ (a, b) = (a.toInt, b.toNat) := by
      rw [readPair, if_neg (not_not.mpr rfl), if_neg (fun h => h.2 hquick)]
      rfl
    refine ⟨_, if_neg (not_not.mpr hquick), ?_⟩
    rw [decide_eq_true_eq, hread]
    exact quick_sign (Int.natCast_nonneg _) (by omega) hquick
  · have hread : readPair pol ⟨0#w, 2#w⟩ (a, b)
        = ((a.setWidth w).toInt, (b.setWidth w).toNat) := by
      rw [readPair, if_neg (not_not.mpr rfl), if_pos ⟨rfl, hquick⟩]
    rw [hread]
    exact ⟨_, if_pos hquick, decide_eq_true_iff⟩

theorem toNat_neg_of_toInt_neg (ha : a.toInt < 0) : ((-a).toNat : ℤ) = -a.toInt := by
  have hlt := a.isLt
  rw [BitVec.toInt_eq_toNat_cond] at ha ⊢
  rw [BitVec.toNat_neg]
  split_ifs at ha ⊢ with hcond
  · omega
  · rw [Nat.mod_eq_of_lt (by omega)]
    omega

theorem toNat_of_toInt_nonneg (ha : 0 ≤ a.toInt) : (a.toNat : ℤ) = a.toInt := by
  have hlt := a.isLt
  rw [BitVec.toInt_eq_toNat_cond] at ha ⊢
  split_ifs at ha ⊢ with hcond
  · rfl
  · omega

variable (pol) in
/-- The bit of a prime is set on the non-squares. -/
theorem primeCharacter_spec (hw : w = 32 ∨ w = 64) (build : UlarithBuild) {p r : BitVec w}
    (hp : p.toNat.Prime) (hr : r.toNat < p.toNat) (a b : BitVec 64) :
    ∃ res, primeCharacter build ⟨p, r⟩ a b = pure res ∧
      (res = true ↔ ¬IsSquare (((readPair pol ⟨p, r⟩ (a, b)).1
        - ((readPair pol ⟨p, r⟩ (a, b)).2 : ℤ) * r.toNat : ℤ) : ZMod p.toNat)) := by
  have hpos := hp.pos
  have hne : p ≠ 0#w := fun h => hp.ne_zero (by rw [h]; rfl)
  have hmod : ∀ x : BitVec w, (x % p).toNat = x.toNat % p.toNat := fun x =>
    BitVec.toNat_umod
  have hlt : ∀ x : BitVec w, (x % p).toNat < p.toNat := fun x => by
    rw [hmod]
    exact Nat.mod_lt _ hpos
  have hwide : 2 ^ w ≤ 2 ^ 64 := Nat.pow_le_pow_right (by decide) (by omega)
  have hub : ((b % p.setWidth 64).setWidth w).toNat = b.toNat % p.toNat := by
    have hplt := p.isLt
    rw [BitVec.toNat_setWidth, BitVec.toNat_umod, BitVec.toNat_setWidth,
      Nat.mod_eq_of_lt (hplt.trans_le hwide), Nat.mod_eq_of_lt ((Nat.mod_lt _ hpos).trans hplt)]
  obtain ⟨t, hmul, ht⟩ := modulMul_spec build (by omega) (by omega)
    (hub ▸ Nat.mod_lt _ hpos) hr
  have htlt : t.toNat < p.toNat := ht ▸ Nat.mod_lt _ hpos
  have hcast : (t.toNat : ZMod p.toNat) = b.toNat * r.toNat := by
    rw [ht, hub]
    simp
  unfold primeCharacter readPair
  rw [if_pos hne]
  by_cases hneg : a.toInt < 0
  · have hadd := modulAdd_spec build (hlt ((-a).setWidth w)) htlt
    have haddlt : (modulAdd build ((-a).setWidth w % p) t p).toNat < p.toNat :=
      hadd ▸ Nat.mod_lt _ hpos
    have hsub := modulNeg_spec haddlt
    obtain ⟨j, hjacobi, hj⟩ := modulJacobi_neg_iff hp (hsub ▸ Nat.mod_lt _ hpos)
    refine ⟨decide (j < 0), ?_, ?_⟩
    · simp [if_pos hneg, hmul, hjacobi]
    · rw [decide_eq_true_eq, hj, hsub, ZMod.natCast_mod, Nat.cast_sub haddlt.le, hadd,
        ZMod.natCast_mod, hmod, Nat.cast_add, ZMod.natCast_mod, hcast, ZMod.natCast_self,
        if_pos hneg]
      push_cast
      ring_nf
  · have hsub := modulSub_spec build (hlt (a.setWidth w)) htlt
    obtain ⟨j, hjacobi, hj⟩ := modulJacobi_neg_iff hp (hsub ▸ Nat.mod_lt _ hpos)
    refine ⟨decide (j < 0), ?_, ?_⟩
    · simp [if_neg hneg, hmul, hjacobi]
    · rw [decide_eq_true_eq, hj, hsub, ZMod.natCast_mod, Nat.cast_add, Nat.cast_sub htlt.le, hmod,
        ZMod.natCast_mod, hcast, ZMod.natCast_self, if_neg hneg]
      push_cast
      ring_nf

/-- Pairs that fit in a `long` and an `unsigned long` are read as they are. -/
theorem readPair_of_fits (hw : w = 32 ∨ w = 64) (ch : AlgPrime w) {x : BitVec 64 × BitVec 64}
    (hx : FitsLong w x) : readPair pol ch x = relationOf x := by
  obtain ⟨hlow, hhigh, hb⟩ := hx
  have hpow : 2 ^ w = 2 * 2 ^ (w - 1) := by rcases hw with rfl | rfl <;> rfl
  have hcast : ((2 ^ (w - 1) : ℕ) : ℤ) = 2 ^ (w - 1) := Nat.cast_pow 2 _
  have hint : (x.1.setWidth w).toInt = x.1.toInt := by
    have hdvd : 2 ^ w ∣ 2 ^ 64 := Nat.pow_dvd_pow 2 (by omega)
    have hbmod := Int.bmod_bmod_of_dvd (a := x.1.toNat) hdvd
    rw [← BitVec.toInt_eq_toNat_bmod] at hbmod
    rw [BitVec.toInt_setWidth, ← hbmod, hpow]
    exact Int.bmod_eq_of_le (by push_cast; omega) (by push_cast; omega)
  unfold readPair
  split_ifs with hp hneg hsign
  · have hneg' := toNat_neg_of_toInt_neg hneg
    have hlt : (-x.1).toNat < 2 ^ w := by omega
    refine Prod.ext ?_ rfl
    rw [BitVec.toNat_setWidth, Nat.mod_eq_of_lt hlt, hneg', neg_neg]
    rfl
  · have hnonneg := toNat_of_toInt_nonneg (not_lt.mp hneg)
    refine Prod.ext ?_ rfl
    rw [BitVec.toNat_setWidth, Nat.mod_eq_of_lt (by omega), hnonneg]
    rfl
  · exact Prod.ext hint ((BitVec.toNat_setWidth _ _).trans (Nat.mod_eq_of_lt hb))
  · rfl

theorem fitsLong_of_wide (x : BitVec 64 × BitVec 64) : FitsLong 64 x :=
  ⟨BitVec.le_toInt _, BitVec.toInt_lt, x.2.isLt⟩

theorem rationalProduct_singleton (pol : CadoPoly) (x : ℤ × ℕ) :
    rationalProduct pol [x] < 0 ↔ pol.g 1 * x.1 + pol.g 0 * x.2 < 0 := by
  by_cases hzero : pol.g 1 * x.1 + pol.g 0 * x.2 = 0
  · simp [rationalProduct, hzero]
  · simp [rationalProduct, hzero]

/-- One character at one pair that is not zero. -/
theorem evalChar_spec (hw : w = 32 ∨ w = 64) (build : UlarithBuild) {ch : AlgPrime w}
    (hch : Built pol ch) {x : BitVec 64 × BitVec 64} (hne : x ≠ (0#64, 0#64)) :
    ∃ res, evalChar build pol ch x.1 x.2 = some res ∧
      ofBool res = meaningBit pol ch [readPair pol ch x] := by
  obtain ⟨h10, h20, h21, h30, h31, h32⟩ := special_ne hw
  have hiff : ∀ {res : Bool}, (res = true ↔ Meaning pol ch [readPair pol ch x]) →
      ofBool res = meaningBit pol ch [readPair pol ch x] := fun h =>
    (meaningBit_eq ((ofBool_eq_one_iff _).trans h)).symm
  cases hch with
  | trivial => exact ⟨false, by simp [evalChar], hiff (by simp [Meaning])⟩
  | parity => exact ⟨true, by simp [evalChar, h10], hiff (by simp [Meaning, h10])⟩
  | sign hdegree =>
    have hpair : x.1.toInt ≠ 0 ∨ x.2.toNat ≠ 0 := by
      by_contra hnot
      push Not at hnot
      refine hne (Prod.ext (BitVec.eq_of_toInt_eq ?_) (BitVec.eq_of_toNat_eq ?_))
      · simpa using hnot.1
      · simpa using hnot.2
    obtain ⟨res, hrun, hres⟩ := rationalSign_spec w hdegree hpair
    refine ⟨res, by simp [evalChar, h20, h21, hrun], hiff (hres.trans ?_)⟩
    have hmeaning : ∀ x, Meaning pol ⟨0#w, 2#w⟩ [x] ↔ rationalProduct pol [x] < 0 := fun x => by
      simp [Meaning, h20, h21]
    exact ((hmeaning _).trans (rationalProduct_singleton pol _)).symm
  | free =>
    have hread : readPair pol ⟨0#w, 3#w⟩ x = relationOf x := by simp [readPair, h32]
    refine ⟨decide (x.2 = 0#64), by simp [evalChar, h30, h31, h32], hiff ?_⟩
    have hzero : x.2 = 0#64 ↔ x.2.toNat = 0 :=
      ⟨fun h => by rw [h]; rfl, fun h => BitVec.eq_of_toNat_eq h⟩
    rw [decide_eq_true_eq, hzero, hread]
    by_cases hb : x.2.toNat = 0 <;> simp [Meaning, relationOf, hb, h30, h31, h32]
  | @prime p r hp hr =>
    have hne : p ≠ 0#w := fun h => hp.ne_zero (by rw [h]; rfl)
    obtain ⟨res, hrun, hres⟩ := primeCharacter_spec pol hw build hp hr x.1 x.2
    refine ⟨res, ?_, hiff (hres.trans ?_)⟩
    · rw [evalChar, if_neg hne, hrun]
      rfl
    · have : Fact p.toNat.Prime := ⟨hp⟩
      simp only [Meaning, if_neg hne, rootProduct_cast]
      rw [← charBit_quadratic_iff, ← charBit_quadratic_iff, charBit_prod]
      simp

/-- One word holds the bits of 64 characters. -/
theorem eval64chars_spec (hw : w = 32 ∨ w = 64) (build : UlarithBuild) {chars : ℕ → AlgPrime w}
    (hchars : ∀ i < 64, Built pol (chars i)) {x : BitVec 64 × BitVec 64}
    (hne : x ≠ (0#64, 0#64)) :
    ∃ v, eval64chars build pol chars x.1 x.2 = some v ∧
      ∀ i < 64, bit v i = meaningBit pol (chars i) [readPair pol (chars i) x] := by
  have hloop := forRangeM_induct (motive := fun n (v : BitVec 64) => ∀ i < 64,
      bit v i = if i < n then meaningBit pol (chars i) [readPair pol (chars i) x] else 0)
    (fun i v => (evalChar build pol (chars i) x.1 x.2).map fun res =>
      v ||| ((if res then 1#64 else 0#64 : BitVec 64) <<< i)) 0#64 64 ?_ ?_
  · obtain ⟨v, hrun, hv⟩ := hloop
    exact ⟨v, hrun, fun i hi => (hv i hi).trans (if_pos hi)⟩
  · intro i _
    rw [bit_zero, if_neg (by omega)]
  · intro n hn v hv
    obtain ⟨res, hrun, hres⟩ := evalChar_spec hw build (hchars n hn) hne
    refine ⟨v ||| ((if res then 1#64 else 0#64 : BitVec 64) <<< n), by rw [hrun]; rfl,
      fun i hi => ?_⟩
    cases res with
    | false =>
      have hzero : (if false = true then 1#64 else 0#64 : BitVec 64) <<< n = 0#64 := by simp
      rw [hzero, BitVec.or_zero, hv i hi]
      by_cases hin : i = n
      · rw [hin, if_neg (lt_irrefl n), if_pos n.lt_succ_self, ← hres]
        rfl
      · exact if_congr (by omega) rfl rfl
    | true =>
      rw [if_pos rfl, bit_or_one_shift v hn, hv i hi]
      by_cases hin : i = n
      · rw [if_pos hin, if_pos (by omega), hin, ← hres]
        rfl
      · rw [if_neg hin]
        exact if_congr (by omega) rfl rfl

end Evaluate

/-! ## A batch -/

section Batch

variable {pol : CadoPoly} {chars : ℕ → AlgPrime w} {A B : ℕ → BitVec 64} {n g : ℕ}

/-- The word `v` holds what 64 characters say about a pair as they read it. -/
def Holds (pol : CadoPoly) (chars : ℕ → AlgPrime w) (a b v : BitVec 64) : Prop :=
  ∀ i < 64, bit v i = meaningBit pol (chars i) [readPair pol (chars i) (a, b)]

section

variable (hw : w = 32 ∨ w = 64) (build : UlarithBuild) (hchars : ∀ i < 64, Built pol (chars i))
  (hne : ∀ z < n, (A z, B z) ≠ (0#64, 0#64))
include hw hchars hne

theorem eval64charsBatchThread_spec {tnum : ℕ} (htnum : tnum < g) {W : ℕ → BitVec 64}
    (hW : ∀ z < tnum * n / g, Holds pol chars (A z) (B z) (W z)) :
    ∃ W', eval64charsBatchThread build pol chars A B n g tnum W = some W' ∧
      ∀ z < (tnum + 1) * n / g, Holds pol chars (A z) (B z) (W' z) := by
  have hlast : (tnum + 1) * n / g ≤ n := by
    refine Nat.div_le_of_le_mul ?_
    exact Nat.mul_le_mul_right n htnum
  have hmono : tnum * n / g ≤ (tnum + 1) * n / g :=
    Nat.div_le_div_right (Nat.mul_le_mul_right n tnum.le_succ)
  have hloop := forRangeM_induct
    (motive := fun k (W : ℕ → BitVec 64) =>
      ∀ z < tnum * n / g + k, Holds pol chars (A z) (B z) (W z))
    (fun k W => (eval64chars build pol chars (A (tnum * n / g + k))
      (B (tnum * n / g + k))).map fun v => Function.update W (tnum * n / g + k) v)
    W ((tnum + 1) * n / g - tnum * n / g) hW ?_
  · rwa [Nat.add_sub_cancel' hmono] at hloop
  · intro k hk W hW
    obtain ⟨v, hrun, hv⟩ := eval64chars_spec hw build hchars
      (hne (tnum * n / g + k) (by omega))
    refine ⟨Function.update W (tnum * n / g + k) v, by rw [hrun]; rfl, fun z hz => ?_⟩
    by_cases hzk : z = tnum * n / g + k
    · rw [hzk, Function.update_self]
      exact hv
    · rw [Function.update_of_ne hzk]
      exact hW z (by omega)

/-- The words of a batch, for any number of threads. -/
theorem eval64charsBatch_spec (hg : 0 < g) (W : ℕ → BitVec 64) :
    ∃ W', eval64charsBatch build pol chars A B n g W = some W' ∧
      ∀ z < n, Holds pol chars (A z) (B z) (W' z) := by
  have hloop := forRangeM_induct
    (motive := fun tnum (W : ℕ → BitVec 64) =>
      ∀ z < tnum * n / g, Holds pol chars (A z) (B z) (W z))
    (eval64charsBatchThread build pol chars A B n g) W g (by simp)
    (fun tnum htnum W hW => eval64charsBatchThread_spec hw build hchars hne htnum hW)
  rwa [Nat.mul_div_cancel_left n hg] at hloop

end

end Batch

end CadoNfs.Characters
