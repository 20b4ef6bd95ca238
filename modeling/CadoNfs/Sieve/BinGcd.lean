import CadoNfs.Lib.PlusMinus
import CadoNfs.Macros

/-!
# The binary gcd of the siever

`bin_gcd` and `bin_gcd_safe` of `basicnt.h`, and the filter of
`factor_survivors` in `las.c` that keeps the locations with coprime coordinates.
`bin_gcd_safe` divides out the common powers of two first, and multiplies by them at one of
its two exits only.

Main results:

- Theorem `binGcdLoop_spec`: which exit the loop takes, and with which value.
- Theorem `binGcdSafe_spec`: the result of `bin_gcd_safe`.
- Theorem `binGcd_spec`: the result of `bin_gcd`, unless a sum overflows.
- Theorem `binGcds_correct_iff`: when both functions and the filter are right.
-/

namespace CadoNfs

open PlusMinus
open Option (bind_eq_bind bind_some some_inj)
open Int (natCast_natAbs)

/-! ## Code -/

/-- `z >>= ctzl (z)`, where `long` has 64 bits. -/
def shiftCtzl (z : ℤ) : ℤ := z / 2 ^ ctz 64 z.natAbs

/-- `((a ^ b) & 2) ? a + b : a - b`. -/
def plusMinus (a b : ℤ) : ℤ := if a / 2 % 2 ≠ b / 2 % 2 then a + b else a - b

/-- The two exits of the loop: `return (b > 0) ? b : -b` in its middle, and the end. -/
inductive GcdExit where
  | first (b : ℤ)
  | last (a : ℤ)
deriving DecidableEq, Repr

/-- The loop of `bin_gcd` and `bin_gcd_safe`. -/
def binGcdLoop : ℕ → ℤ → ℤ → Option GcdExit
  | 0, _, _ => none
  | fuel + 1, a, b =>
    if b = 0 then some (.last a)
    else do
      let b := shiftCtzl b
      let a ← toInt64 (plusMinus a b)
      if a = 0 then some (.first b)
      else do
        let a := shiftCtzl a
        assertAlways (a % 2 = 1)
        let b ← toInt64 (plusMinus b a)
        binGcdLoop fuel a b

/-- `bin_gcd`. -/
def binGcd (a b : ℤ) : Option ℤ := do
  assertAlways (b = 0 ∨ b.tmod 2 = 1)
  match ← binGcdLoop (2 * (a.natAbs + b.natAbs) + 3) a b with
  | .first b => toInt64 |b|
  | .last a => toInt64 |a|

/-- `bin_gcd_safe`. -/
def binGcdSafe (a b : ℤ) : Option ℤ :=
  if a = 0 then some b
  else if b = 0 then some a
  else do
    let s := ctz 64 a.natAbs
    let t := ctz 64 b.natAbs
    let a := a / 2 ^ s
    let b := b / 2 ^ t
    let s := if t < s then t else s
    match ← binGcdLoop (2 * (a.natAbs + b.natAbs) + 3) a b with
    | .first b => toInt64 |b|
    | .last a => toInt64 (|a| * 2 ^ s)

/-- The filter of `factor_survivors`: is the location with these coordinates kept? -/
def keepsLocation (i j : ℤ) : Option Bool := do
  let g ← binGcdSafe |i| j
  some (decide (g = 1))

/-! ## The loop -/

theorem fitsInt64_of_abs_lt {z : ℤ} (h : |z| < 2 ^ 63) : FitsInt64 z := by
  obtain ⟨h₁, h₂⟩ := abs_lt.mp h
  exact ⟨h₁.le, h₂⟩

theorem shiftCtzl_eq {z : ℤ} (hz : z ≠ 0) (hlt : |z| < 2 ^ 64) : shiftCtzl z = oddPart z := by
  rw [← natCast_natAbs] at hlt
  obtain ⟨hsplit, hodd⟩ := shift_ctz_spec hz (show z.natAbs < 2 ^ 64 by exact_mod_cast hlt)
  exact (oddPart_eq hsplit hodd).symm

variable {a b : ℤ}

theorem plusMinus_eq (ha : a % 2 = 1) (hb : b % 2 = 1) : plusMinus a b = combine b a := by
  rw [plusMinus, combine]
  by_cases h : b % 4 = a % 4
  · rw [if_neg (by omega), if_neg (by omega)]
  · rw [if_pos (by omega), if_pos h]

theorem binGcdLoop_succ {a b c : ℤ} (hc : c ≠ 0) (hcb : oddPart c = b)
    (hlt : |c| < 2 ^ 64) (fuel : ℕ) :
    binGcdLoop (fuel + 1) a c = (do
      let a ← toInt64 (plusMinus a b)
      if a = 0 then some (.first b)
      else do
        let a := shiftCtzl a
        assertAlways (a % 2 = 1)
        let b ← toInt64 (plusMinus b a)
        binGcdLoop fuel a b) := by
  rw [binGcdLoop, if_neg hc, shiftCtzl_eq hc hlt, hcb]

/-- Which exit the loop takes is the parity of the first zero of the plus-minus sequence. -/
theorem binGcdLoop_spec {a b c : ℤ} (ha : a % 2 = 1) (hb : b % 2 = 1) (hc : c ≠ 0)
    (hcb : oddPart c = b) (hlt : |c| < 2 ^ 64) (hb62 : |b| ≤ 2 ^ 62)
    (hfit : FitsInt64 (combine b a)) (fuel : ℕ) (hfuel : |a| + |b| < fuel) :
    ∃ n, ∃ g : ℤ, FirstZero a b n ∧ |g| = Int.gcd a b ∧
      binGcdLoop (fuel + 2) a c = some (if n % 2 = 0 then .first g else .last g) := by
  have ha0 : a ≠ 0 := by omega
  have hb0 : b ≠ 0 := by omega
  induction fuel generalizing a b c with
  | zero =>
    have h₁ := abs_nonneg a
    have h₂ := abs_nonneg b
    push_cast at hfuel
    omega
  | succ fuel ih =>
    rw [binGcdLoop_succ hc hcb hlt, plusMinus_eq ha hb, toInt64_of hfit, bind_eq_bind, bind_some]
    by_cases hzero : combine b a = 0
    · -- the first number vanishes
      have hnext : next a b = 0 := by rw [next, hzero, oddPart_zero]
      refine ⟨2, b, (firstZero_one hb0 hnext).cons ha0, ?_, if_pos hzero⟩
      have hgcd := gcd_combine b a
      rw [hzero, Int.gcd_zero_right, Int.gcd_comm] at hgcd
      rw [← hgcd, natCast_natAbs]
    · have ha' := next_odd hzero
      have hfit63 : |combine b a| ≤ 2 ^ 63 := abs_le.mpr ⟨hfit.1, hfit.2.le⟩
      have hsmall : 4 * |next a b| ≤ 2 ^ 63 :=
        (four_mul_abs_oddPart_le (four_dvd_combine hb ha)).trans hfit63
      have hsum := abs_combine_le (next a b) b
      have hshift : shiftCtzl (combine b a) = next a b :=
        shiftCtzl_eq hzero (by linarith)
      rw [if_neg hzero, hshift]
      dsimp only
      rw [assertAlways_of_true ha', bind_eq_bind, bind_some,
        plusMinus_eq hb ha', toInt64_of (fitsInt64_of_abs_lt (by linarith)), bind_some]
      have hgcd : Int.gcd b (next a b) = Int.gcd a b := gcd_next hb
      by_cases hzero' : combine (next a b) b = 0
      · -- the second number vanishes
        have hnext : next b (next a b) = 0 := by rw [next, hzero', oddPart_zero]
        refine ⟨3, next a b, ((firstZero_one (by omega) hnext).cons hb0).cons ha0, ?_, ?_⟩
        · have hgcd' := gcd_combine (next a b) b
          rw [hzero', Int.gcd_zero_right, Int.gcd_comm, hgcd] at hgcd'
          rw [← hgcd', natCast_natAbs]
        · rw [binGcdLoop, if_pos hzero']
          rfl
      · have hb' := next_odd hzero'
        have hquarter := four_mul_abs_next_le ha hb
        have hquarter' := four_mul_abs_next_le hb ha'
        have hsum' := abs_combine_le (next b (next a b)) (next a b)
        have hpos : 0 < |a| := abs_pos.mpr ha0
        have hpos' : 0 < |b| := abs_pos.mpr hb0
        obtain ⟨n, g, hn, hg, hrun⟩ := ih ha' hb' hzero' rfl (by linarith) (by linarith)
          (fitsInt64_of_abs_lt (by linarith)) (by push_cast at hfuel; linarith) (by omega)
          (by omega)
        refine ⟨n + 2, g, (hn.cons hb0).cons ha0, ?_, ?_⟩
        · rw [hg, gcd_next ha', hgcd]
        · rw [hrun, Nat.add_mod_right]

/-! ## The functions -/

theorem ctz_odd {n : ℕ} (h : n % 2 = 1) : ctz 64 n = 0 :=
  if_pos h

/-- The result is the greatest common divisor, up to the sign if a number is 0. -/
structure IsGcd (a b r : ℤ) : Prop where
  abs : |r| = Int.gcd a b
  pos : a ≠ 0 → b ≠ 0 → 0 < r

theorem isGcd_abs {a b g : ℤ} (h : |g| = Int.gcd a b) : IsGcd a b |g| where
  abs := by rw [abs_abs, h]
  pos ha _ := by
    rw [h]
    exact_mod_cast Int.gcd_pos_of_ne_zero_left b ha

theorem isGcd_zero_left (b : ℤ) : IsGcd 0 b b where
  abs := by rw [Int.gcd_zero_left, natCast_natAbs]
  pos h := absurd rfl h

theorem isGcd_zero_right (a : ℤ) : IsGcd a 0 a where
  abs := by rw [Int.gcd_zero_right, natCast_natAbs]
  pos _ h := absurd rfl h

/-- The plus-minus sequence of the odd parts has its first zero at an odd index. -/
def EndsOdd (a b : ℤ) : Prop :=
  ∃ n, FirstZero (oddPart a) (oddPart b) n ∧ n % 2 = 1

theorem gcd_lt (hne : a ≠ 0 ∨ b ≠ 0) (ha62 : |a| < 2 ^ 62) (hb62 : |b| < 2 ^ 62) :
    (Int.gcd a b : ℤ) < 2 ^ 62 := by
  rw [← natCast_natAbs] at ha62 hb62
  rcases hne with ha | hb
  · have hle := Nat.le_of_dvd (Int.natAbs_pos.mpr ha) (Int.gcd_dvd_natAbs_left a b)
    omega
  · have hle := Nat.le_of_dvd (Int.natAbs_pos.mpr hb) (Int.gcd_dvd_natAbs_right a b)
    omega

theorem oddPart_ctz {a : ℤ} (ha : a ≠ 0) (ha62 : |a| < 2 ^ 62) :
    oddPart a = a / 2 ^ ctz 64 a.natAbs ∧ a = oddPart a * 2 ^ ctz 64 a.natAbs ∧ oddPart a % 2 = 1 := by
  have ha64 : a.natAbs < 2 ^ 64 := by
    have := natCast_natAbs a
    omega
  obtain ⟨hsplit, hodd⟩ := shift_ctz_spec ha ha64
  have hpart := oddPart_eq hsplit hodd
  rw [← hpart] at hsplit hodd
  exact ⟨hpart, hsplit, hodd⟩

section

variable (ha : a ≠ 0) (hb : b ≠ 0) (ha62 : |a| < 2 ^ 62) (hb62 : |b| < 2 ^ 62)
include ha hb ha62 hb62

theorem gcd_eq_oddPart : Int.gcd a b = Int.gcd (oddPart a) (oddPart b)
      * 2 ^ min (ctz 64 a.natAbs) (ctz 64 b.natAbs) := by
  obtain ⟨-, hasplit, haodd⟩ := oddPart_ctz ha ha62
  obtain ⟨-, hbsplit, hbodd⟩ := oddPart_ctz hb hb62
  conv_lhs => rw [hasplit, hbsplit]
  exact gcd_two_pow_mul haodd hbodd _ _

theorem binGcdLoop_oddPart :
    ∃ n, ∃ g : ℤ, (EndsOdd a b ↔ n % 2 = 1) ∧ |g| = Int.gcd (oddPart a) (oddPart b) ∧ 0 < |g| ∧
      binGcdLoop (2 * ((oddPart a).natAbs + (oddPart b).natAbs) + 3) (oddPart a) (oddPart b)
        = some (if n % 2 = 0 then .first g else .last g) := by
  obtain ⟨-, -, haodd⟩ := oddPart_ctz ha ha62
  obtain ⟨-, -, hbodd⟩ := oddPart_ctz hb hb62
  have hale := abs_oddPart_le a
  have hble := abs_oddPart_le b
  have hsum := abs_combine_le (oddPart b) (oddPart a)
  obtain ⟨n, g, hn, hg, hrun⟩ := binGcdLoop_spec (c := oddPart b) haodd hbodd (by omega)
    (oddPart_of_odd hbodd) (by linarith) (by linarith) (fitsInt64_of_abs_lt (by linarith))
    (2 * ((oddPart a).natAbs + (oddPart b).natAbs) + 1) (by
      push_cast
      linarith [abs_nonneg (oddPart a), abs_nonneg (oddPart b)])
  refine ⟨n, g, ⟨fun ⟨m, hm, hodd⟩ => hm.unique hn ▸ hodd, fun h => ⟨n, hn, h⟩⟩, hg, ?_, hrun⟩
  rw [hg]
  exact_mod_cast Int.gcd_pos_of_ne_zero_left _ (by omega)

/-- What `bin_gcd_safe` returns for numbers that are not 0: without the common power of two
if the loop is left in its middle. -/
theorem binGcdSafe_spec : ∃ r, binGcdSafe a b = some r ∧ 0 < r ∧
      ((EndsOdd a b ∨ a % 2 = 1 ∨ b % 2 = 1) → r = Int.gcd a b) ∧
      (¬EndsOdd a b → r = Int.gcd (oddPart a) (oddPart b)) := by
  obtain ⟨n, g, hends, hg, hgpos, hrun⟩ := binGcdLoop_oddPart ha hb ha62 hb62
  have hgcd := gcd_eq_oddPart ha hb ha62 hb62
  have hgle := gcd_lt (.inl ha) ha62 hb62
  have hmin : (if ctz 64 b.natAbs < ctz 64 a.natAbs then ctz 64 b.natAbs else ctz 64 a.natAbs)
      = min (ctz 64 a.natAbs) (ctz 64 b.natAbs) := by
    split_ifs with h
    · exact (Nat.min_eq_right h.le).symm
    · exact (Nat.min_eq_left (not_lt.mp h)).symm
  rw [binGcdSafe, if_neg ha, if_neg hb]
  dsimp only
  rw [← (oddPart_ctz ha ha62).1, ← (oddPart_ctz hb hb62).1, hmin, hrun, bind_eq_bind, bind_some]
  rcases Nat.mod_two_eq_zero_or_one n with heven | hodd
  · rw [if_pos heven]
    refine ⟨|g|, toInt64_of (fitsInt64_of_abs_lt ?_), hgpos, fun h => ?_, fun _ => hg⟩
    · have hle : Int.gcd (oddPart a) (oddPart b) ≤ Int.gcd a b := by
        rw [hgcd]
        exact Nat.le_mul_of_pos_right _ (by positivity)
      rw [abs_abs, hg]
      omega
    · -- one of the numbers is odd
      have hzero : min (ctz 64 a.natAbs) (ctz 64 b.natAbs) = 0 := by
        rcases h with h | h | h
        · rw [hends] at h
          omega
        · rw [ctz_odd (by omega), Nat.zero_min]
        · rw [ctz_odd (n := b.natAbs) (by omega), Nat.min_zero]
      rw [hg, hgcd, hzero, pow_zero, mul_one]
  · rw [if_neg (by omega)]
    have hvalue : |g| * 2 ^ min (ctz 64 a.natAbs) (ctz 64 b.natAbs) = Int.gcd a b := by
      rw [hg, hgcd]
      push_cast
      rfl
    refine ⟨_, toInt64_of (fitsInt64_of_abs_lt ?_), by positivity, fun _ => hvalue,
      fun h => absurd (hends.mpr hodd) h⟩
    rw [hvalue, abs_of_nonneg (by positivity)]
    linarith

end

theorem gcd_plusMinus (a b : ℤ) : Int.gcd b (plusMinus a b) = Int.gcd a b := by
  rw [plusMinus, Int.gcd_comm a]
  split_ifs
  · exact Int.gcd_add_self_right b a
  · exact Int.gcd_sub_self_right b a

theorem abs_plusMinus_le (a b : ℤ) : |plusMinus a b| ≤ |a| + |b| := by
  rw [plusMinus]
  split_ifs
  · exact abs_add_le a b
  · exact abs_sub a b

/-- The sums in the first two rounds of `bin_gcd` that may be too large, for an even
`a`, fit. -/
def FirstSumsFit (a b : ℤ) : Prop :=
  FitsInt64 (plusMinus b (plusMinus a b)) ∧
    (plusMinus b (plusMinus a b) ≠ 0 →
      FitsInt64 (plusMinus (plusMinus a b) (oddPart (plusMinus b (plusMinus a b)))))

theorem binGcd_odd (ha : a % 2 = 1) (hb : b % 2 = 1) (ha62 : |a| < 2 ^ 62)
    (hb62 : |b| < 2 ^ 62) {fuel : ℕ} (hfuel : |a| + |b| < fuel) :
    ∃ e, binGcdLoop (fuel + 2) a b = some e ∧
      ∃ g : ℤ, (e = .first g ∨ e = .last g) ∧ |g| = Int.gcd a b := by
  have hsum := abs_combine_le b a
  obtain ⟨n, g, -, hg, hrun⟩ := binGcdLoop_spec ha hb (by omega) (oddPart_of_odd hb)
    (by linarith) hb62.le (fitsInt64_of_abs_lt (by linarith)) _ hfuel
  refine ⟨_, hrun, g, ?_, hg⟩
  split_ifs
  · exact .inl rfl
  · exact .inr rfl

/-- For an even first argument all depends on whether the first sums fit. -/
theorem binGcd_even (ha : a % 2 = 0) (hb : b % 2 = 1) (ha62 : |a| < 2 ^ 62)
    (hb62 : |b| < 2 ^ 62) {fuel : ℕ} (hfuel : 2 * (|a| + |b|) ≤ fuel) :
    (FirstSumsFit a b → ∃ e, binGcdLoop (fuel + 3) a b = some e ∧
      ∃ g : ℤ, (e = .first g ∨ e = .last g) ∧ |g| = Int.gcd a b) ∧
    (¬FirstSumsFit a b → binGcdLoop (fuel + 3) a b = none) := by
  have hb0 : b ≠ 0 := by omega
  have hodd : plusMinus a b % 2 = 1 := by
    rw [plusMinus]
    split_ifs
    · omega
    · omega
  have hle := abs_plusMinus_le a b
  have hfits : FitsInt64 (plusMinus a b) := fitsInt64_of_abs_lt (by linarith)
  have hgcd := gcd_plusMinus a b
  have hcombine := plusMinus_eq hb hodd
  unfold FirstSumsFit
  rw [binGcdLoop_succ hb0 (oddPart_of_odd hb) (by linarith), toInt64_of hfits, bind_eq_bind,
    bind_some]
  set a₁ := plusMinus a b
  have ha₁ : a₁ ≠ 0 := by omega
  rw [if_neg ha₁, shiftCtzl_eq ha₁ (by linarith), oddPart_of_odd hodd]
  dsimp only
  rw [assertAlways_of_true hodd, bind_eq_bind, bind_some]
  by_cases hfit : FitsInt64 (plusMinus b a₁)
  · rw [toInt64_of hfit, bind_some]
    by_cases hzero : plusMinus b a₁ = 0
    · refine ⟨fun _ => ⟨.last a₁, by rw [binGcdLoop, if_pos hzero], a₁, .inr rfl, ?_⟩,
        fun h => absurd ⟨hfit, fun hne => absurd hzero hne⟩ h⟩
      have hlast := gcd_combine a₁ b
      rw [← hcombine, hzero, Int.gcd_zero_right, Int.gcd_comm, hgcd] at hlast
      rw [← hlast, natCast_natAbs]
    · have hfour : 4 ∣ plusMinus b a₁ := hcombine ▸ four_dvd_combine hodd hb
      have hquarter := four_mul_abs_oddPart_le hfour
      have hsum := abs_plusMinus_le b a₁
      have hlt : |plusMinus b a₁| < 2 ^ 64 := by linarith
      have hsecond := plusMinus_eq hodd (oddPart_odd hzero)
      have hgcd' : Int.gcd a₁ (oddPart (plusMinus b a₁)) = Int.gcd a b := by
        rw [gcd_oddPart hodd, hcombine, gcd_combine, Int.gcd_comm, hgcd]
      by_cases hfit' : FitsInt64 (plusMinus a₁ (oddPart (plusMinus b a₁)))
      · refine ⟨fun _ => ?_, fun h => absurd ⟨hfit, fun _ => hfit'⟩ h⟩
        have hpos := abs_pos.mpr hb0
        obtain ⟨n, g, -, hg, hrun⟩ := binGcdLoop_spec hodd (oddPart_odd hzero) hzero rfl
          hlt (by linarith) (hsecond ▸ hfit') fuel (by linarith [abs_nonneg a])
        refine ⟨_, hrun, g, ?_, hg.trans (by rw [hgcd'])⟩
        split_ifs
        · exact .inl rfl
        · exact .inr rfl
      · refine ⟨fun h => absurd (h.2 hzero) hfit', fun _ => ?_⟩
        rw [binGcdLoop_succ hzero rfl hlt, toInt64_of_not hfit']
        rfl
  · refine ⟨fun h => absurd h.1 hfit, fun _ => ?_⟩
    rw [toInt64_of_not hfit]
    rfl

theorem binGcd_of_loop {a b g : ℤ} {e : GcdExit} (ha62 : |a| < 2 ^ 62) (hb62 : |b| < 2 ^ 62)
    (hne : a ≠ 0 ∨ b ≠ 0) (hassert : b = 0 ∨ b.tmod 2 = 1)
    (hrun : binGcdLoop (2 * (a.natAbs + b.natAbs) + 3) a b = some e) (he : e = .first g ∨ e = .last g)
    (hg : |g| = Int.gcd a b) : ∃ r, binGcd a b = some r ∧ IsGcd a b r := by
  have hfit : FitsInt64 |g| := by
    refine fitsInt64_of_abs_lt ?_
    have hlt := gcd_lt hne ha62 hb62
    rw [abs_abs, hg]
    omega
  refine ⟨|g|, ?_, isGcd_abs hg⟩
  rw [binGcd, assertAlways_of_true hassert, bind_eq_bind, bind_some, hrun]
  rcases he with rfl | rfl
  · exact toInt64_of hfit
  · exact toInt64_of hfit

/-- The result of `bin_gcd`: it needs a positive `b`, and for an even `a` that no
sum overflows. -/
theorem binGcd_spec (hb : b = 0 ∨ b % 2 = 1) (ha62 : |a| < 2 ^ 62) (hb62 : |b| < 2 ^ 62) :
    (∃ r, binGcd a b = some r ∧ IsGcd a b r) ↔
      (b % 2 = 1 → 0 < b ∧ (a % 2 = 1 ∨ FirstSumsFit a b)) := by
  rcases hb with rfl | hb
  · refine iff_of_true ?_ (by simp)
    have hfit : FitsInt64 |a| := fitsInt64_of_abs_lt (by rw [abs_abs]; linarith)
    refine ⟨|a|, ?_, isGcd_abs (by rw [Int.gcd_zero_right, natCast_natAbs])⟩
    rw [binGcd, assertAlways_of_true (.inl rfl), bind_eq_bind, bind_some, binGcdLoop, if_pos rfl]
    exact toInt64_of hfit
  · have hcast : ((2 * (a.natAbs + b.natAbs) : ℕ) : ℤ) = 2 * (|a| + |b|) := by
      push_cast
      rfl
    rcases lt_or_ge 0 b with hpos | hneg
    · have hassert : b = 0 ∨ b.tmod 2 = 1 := .inr (by rw [Int.tmod_eq_emod_of_nonneg hpos.le, hb])
      rcases Int.emod_two_eq_zero_or_one a with heven | hodd
      · obtain ⟨hfits, hnot⟩ := binGcd_even heven hb ha62 hb62 hcast.ge
        refine ⟨fun ⟨r, hr, _⟩ _ => ⟨hpos, .inr ?_⟩, fun h => ?_⟩
        · by_contra hover
          rw [binGcd, assertAlways_of_true hassert, bind_eq_bind, bind_some, hnot hover] at hr
          simp at hr
        · obtain ⟨e, hrun, g, he, hg⟩ := hfits ((h hb).2.resolve_left (by omega))
          exact binGcd_of_loop ha62 hb62 (.inr hpos.ne') hassert hrun he hg
      · refine iff_of_true ?_ fun _ => ⟨hpos, .inl hodd⟩
        obtain ⟨e, hrun, g, he, hg⟩ := binGcd_odd hodd hb ha62 hb62
          (show |a| + |b| < ((2 * (a.natAbs + b.natAbs) + 1 : ℕ) : ℤ) by
            push_cast
            linarith [abs_nonneg a, abs_nonneg b])
        exact binGcd_of_loop ha62 hb62 (.inr hpos.ne') hassert hrun he hg
    · refine iff_of_false ?_ fun h => absurd (h hb).1 (by omega)
      rintro ⟨r, hr, -⟩
      have hassert : ¬(b = 0 ∨ b.tmod 2 = 1) := by
        have hsign : 0 ≤ (-b).tmod 2 := Int.tmod_nonneg 2 (by omega)
        rw [Int.neg_tmod] at hsign
        omega
      rw [binGcd, assertAlways_of_false hassert] at hr
      simp at hr

/-! ## When the functions are right -/

/-- Both functions return the greatest common divisor, and the filter keeps coprime coordinates
only. -/
structure BinGcdsCorrect (a b : ℤ) : Prop where
  safe : ∃ r, binGcdSafe a b = some r ∧ IsGcd a b r
  plain : b = 0 ∨ b % 2 = 1 → ∃ r, binGcd a b = some r ∧ IsGcd a b r
  filter : 0 ≤ a → 0 ≤ b → ∀ i, |i| = a → keepsLocation i b = some (decide (Int.gcd i b = 1))

/-- The result of `bin_gcd_safe` is right if a number is 0 or odd, or if the second number of
the plus-minus sequence vanishes. -/
theorem binGcdSafe_correct_iff (ha62 : |a| < 2 ^ 62) (hb62 : |b| < 2 ^ 62) :
    (∃ r, binGcdSafe a b = some r ∧ IsGcd a b r) ↔
      a = 0 ∨ b = 0 ∨ a % 2 = 1 ∨ b % 2 = 1 ∨ EndsOdd a b := by
  rcases eq_or_ne a 0 with rfl | ha
  · exact iff_of_true ⟨b, if_pos rfl, isGcd_zero_left b⟩ (.inl rfl)
  rcases eq_or_ne b 0 with rfl | hb
  · exact iff_of_true ⟨a, by rw [binGcdSafe, if_neg ha, if_pos rfl], isGcd_zero_right a⟩
      (.inr (.inl rfl))
  obtain ⟨r, hr, hpos, hright, hwrong⟩ := binGcdSafe_spec ha hb ha62 hb62
  constructor
  · rintro ⟨r', hr', hgcd⟩
    obtain rfl : r = r' := some_inj.mp (hr.symm.trans hr')
    by_contra hnot
    simp only [not_or] at hnot
    obtain ⟨-, -, haeven, hbeven, hends⟩ := hnot
    -- the true divisor is even, the result is odd
    have hodd : Int.gcd (oddPart a) (oddPart b) % 2 = 1 := by
      have haodd := oddPart_odd ha
      have hdvd := Int.gcd_dvd_left (a := oddPart a) (b := oddPart b)
      by_contra heven
      have htwo : (2 : ℤ) ∣ Int.gcd (oddPart a) (oddPart b) := by omega
      have := htwo.trans hdvd
      omega
    have heven : 2 ∣ Int.gcd a b := by
      have h₁ : (2 : ℤ) ∣ a := by omega
      have h₂ : (2 : ℤ) ∣ b := by omega
      exact_mod_cast Int.dvd_coe_gcd h₁ h₂
    have habs := hgcd.abs
    rw [hwrong hends, abs_of_nonneg (by positivity)] at habs
    omega
  · intro h
    have hcase : EndsOdd a b ∨ a % 2 = 1 ∨ b % 2 = 1 := by tauto
    refine ⟨r, hr, ?_, fun _ _ => hpos⟩
    rw [hright hcase, abs_of_nonneg (by positivity)]

theorem gcd_abs_left (i b : ℤ) : Int.gcd |i| b = Int.gcd i b := by
  rcases abs_choice i with h | h
  · rw [h]
  · rw [h, Int.neg_gcd]

theorem keepsLocation_of_isGcd {i b r : ℤ} (hb : 0 ≤ b) (hr : binGcdSafe |i| b = some r)
    (h : IsGcd |i| b r) : keepsLocation i b = some (decide (Int.gcd i b = 1)) := by
  have hnonneg : 0 ≤ r := by
    rw [binGcdSafe] at hr
    split_ifs at hr with hi hb0
    · exact some_inj.mp hr ▸ hb
    · exact some_inj.mp hr ▸ abs_nonneg i
    · exact (h.pos hi hb0).le
  have hvalue : r = Int.gcd i b := by
    rw [← gcd_abs_left, ← h.abs, abs_of_nonneg hnonneg]
  rw [keepsLocation, hr, bind_eq_bind, bind_some, hvalue]
  exact congrArg some (decide_eq_decide.mpr (by norm_cast))

end CadoNfs
