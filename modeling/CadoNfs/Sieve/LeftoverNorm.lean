import Mathlib.Algebra.BigOperators.Group.List.Lemmas
import Mathlib.Data.Nat.Prime.Pow
import CadoNfs.Ecm.Facul
import CadoNfs.Lib.RoughNumber
import CadoNfs.Macros

/-!
# What trial division leaves of a norm

`las.c` looks at the size of the cofactor of a norm before it is factored, and accepts
the factors that `facul` finds.  Bit sizes stand for comparisons with powers of two; `facul` gives
up on a number that has more than two words less two bits, so that none wraps.

Main results:

- Theorem `checkSound_iff`: a rejected cofactor is too large or has a large prime factor.
- Theorem `factorSound`: the factors that are listed are prime.
- Theorem `leftoverNorm_iff`: both functions.
-/

namespace CadoNfs

open List (append_assoc nil_append prod_cons replicate zipWith)
open Option (bind_eq_bind bind_some some_inj)
open WordArith (Outcome TwoWord)

/-! ## Code -/

/-- `mpz_sizeinbase (n, 2)`, the macro `BITSIZE`. -/
def bitsize (n : ℕ) : ℕ :=
  max 1 n.size

/-- `check_leftover_norm`, with `w` bits in a `size_t`; `probabPrime` is
`mpz_probab_prime_p`. -/
def checkLeftoverNorm (w : ℕ) (probabPrime : ℕ → Bool) (n lpb BB BBB mfb : ℕ) : ℕ :=
  let s := bitsize n
  if mfb < s then 0
  else if lpb < s ∧ n < BB then 0
  else if 2 * lpb % 2 ^ w < s ∧ n < BBB then 0
  else if lpb < s ∧ probabPrime n = true then 0
  else 1

/-- The number `n` and the arrays `factors` and `multis`. -/
structure Leftover where
  n : ℕ
  factors : List ℕ
  multis : List ℕ
  deriving DecidableEq, Repr

/-- A factor is appended, with multiplicity 1. -/
def Leftover.append (s : Leftover) (p : ℕ) : Leftover :=
  { s with factors := s.factors ++ [p], multis := s.multis ++ [1] }

variable {w : ℕ}

/-- The loop over the entries of `ul_factors`; `false` is the return with 0. -/
def divideFactors (bound : BitVec w) : List (BitVec w) → Leftover → Option (Bool × Leftover)
  | [], s => some (true, s)
  | p :: ulFactors, s =>
    if bound < p then some (false, s)
    else do
      assertAlways (s.n % p.toNat = 0)
      divideFactors bound ulFactors ({ s with n := s.n / p.toNat }.append p.toNat)

/-- The part of `factor_leftover_norm` for a positive `facul_code`. -/
def acceptFactors (bound : BitVec w) (l : ℕ) (ulFactors : List (BitVec w)) (start : Leftover) :
    Option (ℕ × Leftover) := do
  let (divided, s) ← divideFactors bound ulFactors start
  if divided = false then some (0, s)
  else if s.n = 1 then some (1, s)
  else if bitsize s.n % 2 ^ 32 ≤ l then some (1, s.append s.n)
  -- the test `s > 2*l` makes no difference
  else some (0, s)

variable {Plan : Type} (build : UlarithBuild) (oracle : FaculOracle w Plan)
  (strategy : FaculStrategy w Plan) (fuel : ℕ)

/-- `factor_leftover_norm`: the value it returns and what it leaves; `none` is a failed assertion, a
call of `facul` that does not return, or one that finds more than the 16 factors there is room for.
`shiftOne l` is `1UL << l`, of which nothing is known when `l` is not below the width. -/
def factorLeftoverNorm (asserts : Bool) (shiftOne : ℕ → BitVec w) (n l : ℕ) :
    Option (ℕ × Leftover) :=
  let start : Leftover := ⟨n, [], []⟩
  if n = 1 then some (1, start)
  else if bitsize n ≤ l then some (1, start.append n)
  else do
    match ← (facul build oracle strategy fuel n).toOption with
    | none => some (0, start)
    | some ulFactors =>
      assertAlways (ulFactors.length ≤ 16)
      assertAlways (asserts = true → ulFactors = [] ∨ n ≠ (ulFactors.headD 0).toNat)
      if ulFactors ≠ [] then acceptFactors (shiftOne l) l ulFactors start else some (0, start)

/-! ## The size check -/

section Check

variable {n B lpb mfb : ℕ} {probabPrime : ℕ → Bool}

theorem bitsize_le_iff (hn : 1 ≤ n) {l : ℕ} : bitsize n ≤ l ↔ n < 2 ^ l := by
  have hpos : 0 < n.size := Nat.size_pos.mpr hn
  rw [bitsize, max_eq_right hpos, Nat.size_le]

theorem lt_bitsize_iff (hn : 1 ≤ n) {l : ℕ} : l < bitsize n ↔ 2 ^ l ≤ n := by
  rw [← not_le, bitsize_le_iff hn, not_lt]

/-- What the sieve relies on: no relation is lost, as what is rejected is too large or has a large
prime factor. -/
def CheckSound (w : ℕ) (probabPrime : ℕ → Bool) (n B lpb mfb : ℕ) : Prop :=
  checkLeftoverNorm w probabPrime n lpb (B ^ 2) (B ^ 2 * B) mfb = 0 →
    mfb < bitsize n ∨ ∃ p, p.Prime ∧ p ∣ n ∧ 2 ^ lpb ≤ p

/-- The check is right unless it rejects 1. -/
theorem checkSound_iff (hpp : ∀ m, probabPrime m = true → m.Prime) (hn : 1 ≤ n)
    (hrough : Rough B n) (hlpb : 2 * lpb < 2 ^ w) :
    CheckSound w probabPrime n B lpb mfb ↔ ¬(lpb = 0 ∧ n = 1 ∧ 1 ≤ mfb ∧ 2 ≤ B) := by
  constructor
  · rintro hsound ⟨rfl, rfl, hmfb, hB⟩
    have hsize : bitsize 1 = 1 := by decide
    have hsq : 1 < B ^ 2 := Nat.one_lt_pow two_ne_zero hB
    have hreject : checkLeftoverNorm w probabPrime 1 0 (B ^ 2) (B ^ 2 * B) mfb = 0 := by
      simp only [checkLeftoverNorm, hsize]
      rw [if_neg (by omega), if_pos ⟨Nat.one_pos, hsq⟩]
    rcases hsound hreject with hlt | ⟨p, hp, hdvd, -⟩
    · omega
    · exact hp.one_lt.ne' (Nat.dvd_one.mp hdvd)
  · intro hgood hreject
    by_contra hnot
    push Not at hnot
    obtain ⟨hsize, hsmall⟩ := hnot
    -- a prime `n` would be small, and so would 1
    have hprime : lpb < bitsize n → ¬n.Prime := fun hlt hp =>
      absurd ((lt_bitsize_iff hn).mp hlt) (hsmall n hp dvd_rfl).not_ge
    have hone : n ≠ 1 ∨ B ≤ 1 ∨ 0 < lpb := by
      have hpos : 1 ≤ bitsize n := le_max_left _ _
      omega
    have hB1 : B ≤ 1 → ∀ k, B ^ k ≤ 1 := fun h k => pow_le_one' h k
    simp only [checkLeftoverNorm, Nat.mod_eq_of_lt hlpb, if_neg hsize.not_gt] at hreject
    split_ifs at hreject with hsq hcube hpp'
    · have hn1 : 1 < n := by
        by_contra hn1
        obtain rfl : n = 1 := by omega
        rcases hone with h | h | h
        · exact h rfl
        · exact (hB1 h 2).not_gt hsq.2
        · exact absurd hsq.1 (by rw [show bitsize 1 = 1 by decide]; omega)
      exact hprime hsq.1 (hrough.prime_of_lt_sq hn1 hsq.2)
    · have hn1 : 1 < n := by
        by_contra hn1
        obtain rfl : n = 1 := by omega
        rcases hone with h | h | h
        · exact h rfl
        · exact (hB1 h 3).not_gt (by rw [pow_succ]; exact hcube.2)
        · exact absurd hcube.1 (by rw [show bitsize 1 = 1 by decide]; omega)
      have hlt := hrough.lt_sq hn1 (by rw [pow_succ]; exact hcube.2) hsmall
      rw [← pow_mul, mul_comm lpb 2] at hlt
      exact absurd ((lt_bitsize_iff hn).mp hcube.1) hlt.not_ge
    · exact hprime hpp'.1 (hpp n hpp'.2)

end Check

/-! ## The factors -/

section Factors

variable {n B l : ℕ} {bound : BitVec w} {ulFactors : List (BitVec w)} {s s' : Leftover}

/-- All factors are divided out and listed, from `s` to `s'`. -/
structure Divided (bound : BitVec w) (ulFactors : List (BitVec w)) (s s' : Leftover) : Prop where
  le : ∀ p ∈ ulFactors, p.toNat ≤ bound.toNat
  prod : (ulFactors.map BitVec.toNat).prod * s'.n = s.n
  factors : s'.factors = s.factors ++ ulFactors.map BitVec.toNat
  multis : s'.multis = s.multis ++ replicate ulFactors.length 1

theorem Divided.of_divideFactors (h : divideFactors bound ulFactors s = some (true, s')) :
    Divided bound ulFactors s s' := by
  induction ulFactors generalizing s with
  | nil =>
    obtain rfl : s = s' := by simpa [divideFactors] using h
    exact ⟨by simp, by simp, by simp, by simp⟩
  | cons p ulFactors ih =>
    rw [divideFactors, bind_eq_bind] at h
    by_cases hle : bound < p
    · rw [if_pos hle] at h
      cases h
    rw [if_neg hle] at h
    by_cases hdvd : s.n % p.toNat = 0
    · rw [assertAlways_of_true hdvd, bind_some] at h
      obtain ⟨hall, hprod, hfactors, hmultis⟩ := ih h
      refine ⟨List.forall_mem_cons.mpr ⟨not_lt.mp hle, hall⟩, ?_, ?_, ?_⟩
      · rw [List.map_cons, prod_cons, mul_assoc, hprod]
        exact Nat.mul_div_cancel' (Nat.dvd_of_mod_eq_zero hdvd)
      · rw [hfactors, Leftover.append, append_assoc]
        rfl
      · rw [hmultis, Leftover.append, append_assoc]
        rfl
    · rw [assertAlways_of_false hdvd] at h
      cases h

variable {Plan : Type} {build : UlarithBuild} {oracle : FaculOracle w Plan}
  {strategy : FaculStrategy w Plan} {fuel : ℕ} {asserts : Bool} {shiftOne : ℕ → BitVec w}

theorem acceptFactors_eq_one {start : Leftover}
    (h : acceptFactors bound l ulFactors start = some (1, s)) :
    ∃ s₁, divideFactors bound ulFactors start = some (true, s₁) ∧
      (s₁.n = 1 ∧ s = s₁ ∨ s₁.n ≠ 1 ∧ bitsize s₁.n % 2 ^ 32 ≤ l ∧ s = s₁.append s₁.n) := by
  rw [acceptFactors, bind_eq_bind] at h
  rcases hdiv : divideFactors bound ulFactors start with _ | ⟨divided, s₁⟩
  · rw [hdiv] at h
    cases h
  · cases divided with
    | false => simp [hdiv] at h
    | true =>
      rw [hdiv, bind_some] at h
      refine ⟨s₁, rfl, ?_⟩
      dsimp only at h
      rw [if_neg (by decide)] at h
      split_ifs at h with hone hbits
      · simp only [some_inj, Prod.mk.injEq, true_and] at h
        exact .inl ⟨hone, h.symm⟩
      · simp only [some_inj, Prod.mk.injEq, true_and] at h
        exact .inr ⟨hone, hbits, h.symm⟩
      · cases h

/-- `facul` gives up on a number that has too many bits. -/
theorem facul_of_large (hn : 1 < n) (hsize : 2 * w - 2 < n.size) :
    facul build oracle strategy fuel n = pure (some []) := by
  rw [facul, if_neg (by omega), if_neg (by omega), if_pos (by simpa using hsize)]

theorem factorLeftoverNorm_eq_one
    (h : factorLeftoverNorm build oracle strategy fuel asserts shiftOne n l = some (1, s)) :
    (n = 1 ∧ s = ⟨n, [], []⟩) ∨ (n ≠ 1 ∧ bitsize n ≤ l ∧ s = ⟨n, [n], [1]⟩) ∨
      (n ≠ 1 ∧ ∃ ulFactors ≠ [],
        (facul build oracle strategy fuel n).toOption = some (some ulFactors) ∧
        acceptFactors (shiftOne l) l ulFactors ⟨n, [], []⟩ = some (1, s)) := by
  unfold factorLeftoverNorm at h
  dsimp only at h
  split_ifs at h with hn hsmall
  · exact .inl ⟨hn, by simpa [eq_comm] using h⟩
  · exact .inr (.inl ⟨hn, hsmall, by simpa [Leftover.append, eq_comm] using h⟩)
  · rw [bind_eq_bind] at h
    obtain ⟨found, hfound, hrest⟩ := Option.bind_eq_some_iff.mp h
    rcases found with _ | ulFactors
    · cases hrest
    dsimp only at hrest
    obtain ⟨-, -, hrest⟩ := Option.bind_eq_some_iff.mp hrest
    obtain ⟨-, -, hrest⟩ := Option.bind_eq_some_iff.mp hrest
    split_ifs at hrest with hne
    · exact .inr (.inr ⟨hn, ulFactors, hne, hfound, hrest⟩)
    · cases hrest

/-- What `factor_leftover_norm` relies on: `facul` has found primes whose product divides `n`. -/
structure FaculFactors (n : ℕ) (ulFactors : List (BitVec w)) : Prop where
  prime : ∀ p ∈ ulFactors, p.toNat.Prime
  dvd : (ulFactors.map BitVec.toNat).prod ∣ n

/-- What the factors that are listed have to be when the function returns 1. -/
def FactorSound (build : UlarithBuild) (oracle : FaculOracle w Plan)
    (strategy : FaculStrategy w Plan) (fuel : ℕ) (asserts : Bool) (shiftOne : ℕ → BitVec w)
    (n l : ℕ) : Prop :=
  ∀ s, factorLeftoverNorm build oracle strategy fuel asserts shiftOne n l = some (1, s) →
    s.factors.length = s.multis.length ∧ (∀ p ∈ s.factors, p.Prime ∧ p ≤ 2 ^ l) ∧
      (zipWith (· ^ ·) s.factors s.multis).prod = n

theorem prod_zipWith_replicate (L : List ℕ) :
    (zipWith (· ^ ·) L (replicate L.length 1)).prod = L.prod := by
  induction L with
  | nil => rfl
  | cons p L ih =>
    rw [List.length_cons, List.replicate_succ, List.zipWith_cons_cons, prod_cons,
      prod_cons, ih, pow_one]

theorem le_two_pow (hshift : ∀ l < w, shiftOne l = 1#w <<< l) {u : BitVec w}
    (hu : u.toNat ≤ (shiftOne l).toNat) : u.toNat ≤ 2 ^ l := by
  by_cases hl : l < w
  · refine hu.trans ?_
    rw [hshift l hl, BitVec.toNat_shiftLeft, Nat.shiftLeft_eq, BitVec.toNat_ofNat]
    calc 1 % 2 ^ w * 2 ^ l % 2 ^ w ≤ 1 % 2 ^ w * 2 ^ l := Nat.mod_le _ _
      _ ≤ 1 * 2 ^ l := Nat.mul_le_mul_right _ (Nat.mod_le _ _)
      _ = 2 ^ l := one_mul _
  · exact u.isLt.le.trans (Nat.pow_le_pow_right (by decide) (not_lt.mp hl))

/-- Whenever the function returns 1 the factors are primes below the bound whose product
is `n`. -/
theorem factorSound (hw : w = 32 ∨ w = 64) (hn : 1 ≤ n) (hrough : Rough B n)
    (hl : 2 ^ l ≤ B ^ 2) (hshift : ∀ l < w, shiftOne l = 1#w <<< l)
    (hfacul : ∀ ulFactors, (facul build oracle strategy fuel n).toOption = some (some ulFactors) →
      FaculFactors n ulFactors) :
    FactorSound build oracle strategy fuel asserts shiftOne n l := by
  intro s hs
  rcases factorLeftoverNorm_eq_one hs with ⟨rfl, rfl⟩ | ⟨hn1, hsize, rfl⟩ |
    ⟨hn1, ulFactors, hne, hfound, haccept⟩
  · simp
  · have hlt := (bitsize_le_iff hn).mp hsize
    have hnprime := hrough.prime_of_lt_sq (by omega) (hlt.trans_le hl)
    simpa using ⟨hnprime, hlt.le⟩
  · obtain ⟨hprime, -⟩ := hfacul ulFactors hfound
    -- what `facul` splits has at most two words
    have hbits : n.size ≤ 2 * w - 2 := by
      by_contra hlarge
      rw [facul_of_large (by omega) (not_le.mp hlarge)] at hfound
      exact hne (by simpa using hfound.symm)
    obtain ⟨s₁, hdiv, hlast⟩ := acceptFactors_eq_one haccept
    obtain ⟨hle, hprod, hfactors, hmultis⟩ := Divided.of_divideFactors hdiv
    simp only [nil_append] at hprod hfactors hmultis
    have hlist : ∀ p ∈ ulFactors.map BitVec.toNat, p.Prime ∧ p ≤ 2 ^ l := by
      intro p hp
      obtain ⟨u, hu, rfl⟩ := List.mem_map.mp hp
      exact ⟨hprime u hu, le_two_pow hshift (hle u hu)⟩
    have hzip := prod_zipWith_replicate (ulFactors.map BitVec.toNat)
    rw [List.length_map] at hzip
    rcases hlast with ⟨hone, rfl⟩ | ⟨hone, hsmall, rfl⟩
    · refine ⟨by rw [hfactors, hmultis, List.length_map, List.length_replicate], ?_, ?_⟩
      · rwa [hfactors]
      · rw [hone, mul_one] at hprod
        rw [hfactors, hmultis, hzip, hprod]
    · have hcdvd : s₁.n ∣ n := ⟨_, by rw [← hprod, mul_comm]⟩
      have hc : 1 ≤ s₁.n := Nat.pos_of_dvd_of_pos hcdvd hn
      have hnarrow : bitsize s₁.n < 2 ^ 32 := by
        have := Nat.size_le_size (Nat.le_of_dvd hn hcdvd)
        have := Nat.size_pos.mpr hc
        unfold bitsize
        omega
      have hlt : s₁.n < 2 ^ l := by
        rwa [← bitsize_le_iff hc, ← Nat.mod_eq_of_lt hnarrow]
      have hcprime := (hrough.of_dvd hcdvd).prime_of_lt_sq (by omega) (hlt.trans_le hl)
      refine ⟨by simp [Leftover.append, hfactors, hmultis], fun p hp => ?_, ?_⟩
      · rcases List.mem_append.mp hp with hp | hp
        · exact hlist p (hfactors ▸ hp)
        · rw [List.mem_singleton.mp hp]
          exact ⟨hcprime, hlt.le⟩
      · rw [Leftover.append, hfactors, hmultis, List.zipWith_append (by simp), List.prod_append,
          hzip]
        simpa using hprod

end Factors

/-! ## Both functions -/

section Both

variable {n B lpb mfb l : ℕ} {probabPrime : ℕ → Bool} {asserts : Bool}
  {shiftOne : ℕ → BitVec w} {Plan : Type} {build : UlarithBuild} {oracle : FaculOracle w Plan}
  {strategy : FaculStrategy w Plan} {fuel : ℕ}

/-- The check is right unless it rejects 1, and the factors that are listed are right; `lpb` is an
`int` where the check is called. -/
theorem leftoverNorm_iff (hw : w = 32 ∨ w = 64) (hpp : ∀ m, probabPrime m = true → m.Prime)
    (hn : 1 ≤ n) (hrough : Rough B n) (hlpb : 2 * lpb < 2 ^ w)
    (hshift : ∀ l < w, shiftOne l = 1#w <<< l) :
    (CheckSound w probabPrime n B lpb mfb ↔ ¬(lpb = 0 ∧ n = 1 ∧ 1 ≤ mfb ∧ 2 ≤ B)) ∧
      (2 ^ l ≤ B ^ 2 →
        (∀ ulFactors, (facul build oracle strategy fuel n).toOption = some (some ulFactors) →
          FaculFactors n ulFactors) →
        FactorSound build oracle strategy fuel asserts shiftOne n l) :=
  ⟨checkSound_iff hpp hn hrough hlpb, fun hl hfacul => factorSound hw hn hrough hl hshift hfacul⟩

/-- With a large prime bound of 1 the cofactor 1 is rejected. -/
theorem not_checkSound :
    ¬∀ n B lpb mfb, 1 ≤ n → Rough B n → CheckSound 64 (fun m => decide m.Prime) n B lpb mfb := by
  intro h
  have hreject : checkLeftoverNorm 64 (fun m => decide m.Prime) 1 0 (2 ^ 2) (2 ^ 2 * 2) 1 = 0 := by
    decide
  have hrough : Rough 2 1 := fun p hp hdvd => absurd (Nat.dvd_one.mp hdvd) hp.one_lt.ne'
  rcases h 1 2 0 1 le_rfl hrough hreject with hsize | ⟨p, hp, hdvd, -⟩
  · exact absurd hsize (by decide)
  · exact hp.one_lt.ne' (Nat.dvd_one.mp hdvd)

/-- The cofactor 9 with the bound 2, of which 3 is found twice. -/
theorem leftoverNorm_iff_nine :
    let strategy : FaculStrategy 64 Unit := ⟨4#64, ⟨4#64, 0#64⟩, [⟨.pm1Method, ()⟩]⟩
    CheckSound 64 (fun m => decide m.Prime) 9 2 2 4 ∧
      FactorSound .x86 findThree strategy 9 true (fun l => 1#64 <<< l) 9 2 ∧
      factorLeftoverNorm .x86 findThree strategy 9 true (fun l => 1#64 <<< l) 9 2
        = some (1, ⟨1, [3, 3], [1, 1]⟩) := by
  intro strategy
  have hrough : Rough 2 9 := by
    intro p hp hdvd
    by_contra hle
    obtain rfl : p = 2 := by
      have := hp.two_le
      omega
    exact absurd hdvd (by decide)
  have hfound : facul .x86 findThree strategy 9 ((9 : ℕ) : ℤ) = pure (some [3#64, 3#64]) := by
    obtain ⟨m, hm, -, -⟩ := faculInitmod_spec .x86 (.inr rfl) (n := (⟨9#64, 0#64⟩ : TwoWord 64))
      (by decide) (by decide) (by decide)
    have hdoit : (faculInitmod (w := 64) .x86 ⟨9#64, 0#64⟩ >>= fun m =>
        faculDoit .x86 findThree strategy 9 m 0) = pure (some [3#64, 3#64]) := by decide +kernel
    rw [hm, Outcome.pure_bind] at hdoit
    have hm' : faculInitmod .x86 ⟨BitVec.ofNat 64 ((9 : ℕ) : ℤ).toNat, BitVec.ofNat 64
      (((9 : ℕ) : ℤ).toNat / 2 ^ 64)⟩ = pure m := hm
    rw [facul, if_neg (by decide), if_neg (by decide), if_neg (by decide), hm',
      Outcome.pure_bind, hdoit, Outcome.pure_bind]
    exact congrArg (fun l => pure (some l)) (List.mergeSort_of_pairwise (by decide))
  have hpp : ∀ m, decide (Nat.Prime m) = true → m.Prime := fun m hm => of_decide_eq_true hm
  have hshift : ∀ l < 64, (fun l => 1#64 <<< l) l = 1#64 <<< l := fun _ _ => rfl
  obtain ⟨hcheck, hfactor⟩ :
      (CheckSound 64 (fun m => decide m.Prime) 9 2 2 4 ↔ _) ∧ (2 ^ 2 ≤ 2 ^ 2 → _) :=
    leftoverNorm_iff (.inr rfl) hpp (by decide) hrough (by decide) hshift
  refine ⟨hcheck.mpr (by decide), hfactor le_rfl fun ulFactors hfacul => ?_, ?_⟩
  · obtain rfl : ulFactors = [3#64, 3#64] := by
      rw [hfound] at hfacul
      simpa using hfacul.symm
    exact ⟨by simp [Nat.prime_three], by decide⟩
  · rw [factorLeftoverNorm, hfound]
    decide

end Both

end CadoNfs
