import Mathlib.Algebra.BigOperators.Group.List.Basic
import CadoNfs.Utils.ModInt
import CadoNfs.Utils.Modredc15ul

/-!
# Factoring into small primes

`facul` chooses an arithmetic for a number, and `facul_doit` splits its modulus
by one method after another.  It calls itself on composite factors and cofactors, in
the arithmetic that suits each of them.

Main results:

- Theorem `faculSplit_spec`: one split is right when the calls it makes are.
- Theorem `faculDoit_spec`: every call terminates without a failed assertion; what
  it stores divides the modulus and is smooth, and it rejects only a modulus with a
  large prime factor.
- Theorem `facul_correct`: the same for the sorted output of `facul`.
-/

namespace CadoNfs

open WordArith
open BitVec (ofNat)
open TwoWord (value value_div)

variable {w : ℕ}

/-! ## Moduli and strategies -/

/-- A modulus and the arithmetic it was initialised for; at the width of one word the
high words of the record are zero. -/
structure FaculModulus (w : ℕ) where
  arith : ModArith
  mod : Modulusredc w
  deriving DecidableEq, Repr

/-- The number that is factored. -/
def FaculModulus.value (m : FaculModulus w) : ℕ :=
  m.mod.m.value

/-- `modredcul_initmod_uls`. -/
def modredculInitmodUls (s : TwoWord w) : Outcome (Modulusredc w) := do
  let inv ← ularithInvmod s.lo
  if s.lo = 1#w then
    pure { m := ⟨s.lo, 0#w⟩, one := ⟨0#w, 0#w⟩, invm := -inv }
  else do
    -- modredcul_tomontgomery of one
    let (_, one) ← ularithDiv2ulUlUl ⟨0#w, 1#w⟩ s.lo
    pure { m := ⟨s.lo, 0#w⟩, one := ⟨one, 0#w⟩, invm := -inv }

/-- The value of `method` in an entry of `strategy->methods`. -/
inductive FaculMethodId where
  | pm1Method
  | pp1Method
  | ecMethod
  | other
  deriving DecidableEq, Repr

/-- `facul_method_t`. -/
structure FaculMethod (Plan : Type) where
  method : FaculMethodId
  plan : Plan

/-- `facul_strategy_t`; the list ends where `method` is zero. -/
structure FaculStrategy (w : ℕ) (Plan : Type) where
  lpb : BitVec w
  fbb2 : TwoWord w
  methods : List (FaculMethod Plan)

variable {Plan : Type}

/-- `facul_make_strategy` for a given list of methods. -/
def faculMakeStrategy (build : UlarithBuild) (methods : List (FaculMethod Plan))
    (fbb lpb : BitVec w) : Outcome (FaculStrategy w Plan) := do
  let fbb2 ← ularithMulUlUl2ul build fbb fbb
  pure { lpb := lpb, fbb2 := fbb2, methods := methods }

/-- The factoring methods and the two compositeness tests.  A method returns some
divisor of its modulus in `f`, and the number `bt`. -/
structure FaculOracle (w : ℕ) (Plan : Type) where
  pm1 : Plan → FaculModulus w → TwoWord w × ℤ
  pp1 : Plan → FaculModulus w → TwoWord w × ℤ
  ecm : Plan → FaculModulus w → TwoWord w × ℤ
  sprp2 : FaculModulus w → Bool
  sprp : ℕ → FaculModulus w → Bool
  pm1_dvd : ∀ plan m, (pm1 plan m).1.value ∣ m.value
  pp1_dvd : ∀ plan m, (pp1 plan m).1.value ∣ m.value
  ecm_dvd : ∀ plan m, (ecm plan m).1.value ∣ m.value

/-- `primetest`. -/
def primetest (oracle : FaculOracle w Plan) (m : FaculModulus w) : Bool :=
  let isprime := oracle.sprp2 m
  if isprime then oracle.sprp 3 m else isprime

/-- The call of the method of an entry; `none` is a value that is not known. -/
def faculCallMethod (oracle : FaculOracle w Plan) (method : FaculMethod Plan)
    (m : FaculModulus w) : Option (TwoWord w × ℤ) :=
  match method.method with
  | .pm1Method => some (oracle.pm1 method.plan m)
  | .pp1Method => some (oracle.pp1 method.plan m)
  | .ecMethod => some (oracle.ecm method.plan m)
  | .other => none

/-! ## The recursion -/

/-- The numbers in `factors[0..found-1]`, or `none` for `found = -1`, which
is also `FACUL_NOT_SMOOTH`. -/
abbrev FaculFound (w : ℕ) := Option (List (BitVec w))

/-- What the tests say of a factor or cofactor. -/
inductive FaculPart (w : ℕ) where
  | prime (p : TwoWord w)
  | composite (m : FaculModulus w)

section FaculDoit

variable (build : UlarithBuild) (oracle : FaculOracle w Plan) (strategy : FaculStrategy w Plan)

/-- The modulus for the factor, in the smallest arithmetic. -/
def faculInitFactor (arith : ModArith) (f : TwoWord w) : Outcome (FaculModulus w) :=
  if modIntbits build arith f ≤ w then do
    let fm ← modredculInitmodUls f
    pure ⟨.modredcul, fm⟩
  else if modIntbits build arith f ≤ w + w / 2 then do
    let fm ← modredc15ulInitmodUls build f
    pure ⟨.modredc15ul, fm⟩
  else do
    let fm ← modredc2ul2InitmodUls build f
    pure ⟨.modredc2ul2, fm⟩

/-- The modulus for the cofactor, in the smallest arithmetic; what does not fit the
arithmetic of the call aborts. -/
def faculInitCofactor (arith : ModArith) (n : TwoWord w) : Outcome (FaculModulus w) :=
  if modIntbits build arith n ≤ w then do
    let cfm ← modredculInitmodUls n
    pure ⟨.modredcul, cfm⟩
  else if arith.size ≥ 2 ∧ modIntbits build arith n ≤ w + w / 2 then do
    let cfm ← modredc15ulInitmodUls build n
    pure ⟨.modredc15ul, cfm⟩
  else if arith.size ≥ 2 then do
    let cfm ← modredc2ul2InitmodUls build n
    pure ⟨.modredc2ul2, cfm⟩
  else
    .abort

/-- Determine for certain if a factor or cofactor is prime; `none` is a prime above
`lpb`. -/
def faculClassify (arith : ModArith) (init : TwoWord w → Outcome (FaculModulus w))
    (f : TwoWord w) (fprime : Bool) : Outcome (Option (FaculPart w)) :=
  if fprime then
    pure (some (.prime f))
  else do
    let fm ← init f
    if primetest oracle fm then
      if modIntcmpUl arith f strategy.lpb > 0 then pure none else pure (some (.prime f))
    else
      pure (some (.composite fm))

/-- Store a prime, or what the call on a composite number finds. -/
def faculStore (recurse : FaculModulus w → ℕ → Outcome (FaculFound w)) (i : ℕ)
    (part : FaculPart w) : Outcome (FaculFound w) :=
  match part with
  | .prime p => pure (some [p.lo])
  | .composite m => recurse m i

/-- The rest of an iteration of `facul_doit` in which method `i` has found a
proper factor `f` of `n`. -/
def faculSplit (recurse : FaculModulus w → ℕ → Outcome (FaculFound w)) (arith : ModArith)
    (i : ℕ) (n f : TwoWord w) : Outcome (FaculFound w) :=
  let fprime := decide (modIntcmp arith f strategy.fbb2 ≤ 0)
  if fprime ∧ modIntcmpUl arith f strategy.lpb > 0 then
    pure none
  else do
    let n ← modIntdivexact build arith n f
    let cfprime := decide (modIntcmp arith n strategy.fbb2 ≤ 0)
    if cfprime ∧ modIntcmpUl arith n strategy.lpb > 0 then
      pure none
    else do
      let fpart? ← faculClassify oracle strategy arith (faculInitFactor build arith) f fprime
      match fpart? with
      | none => pure none
      | some fpart => do
        let cfpart? ←
          faculClassify oracle strategy arith (faculInitCofactor build arith) n cfprime
        match cfpart? with
        | none => pure none
        | some cfpart => do
          let found ← faculStore recurse i fpart
          match found with
          | none => pure none
          | some factors => do
            let found ← faculStore recurse (i + 1) cfpart
            match found with
            | none => pure none
            | some factors' => pure (some (factors ++ factors'))

/-- The loop of `facul_doit` over the entries from `i` on. -/
def faculLoop (recurse : FaculModulus w → ℕ → Outcome (FaculFound w)) (m : FaculModulus w)
    (i : ℕ) (methods : List (FaculMethod Plan)) : Outcome (FaculFound w) :=
  match methods with
  | [] => pure (some [])
  | method :: methods =>
    let n := m.mod.m
    if i > 3 ∧ modIntbits build m.arith n > w then
      pure (some [])
    else
      match faculCallMethod oracle method m with
      | none => pure none
      | some (f, _) =>
        -- whatever bt is, the next method is tried
        if modIntequalUl m.arith f 1#w then
          faculLoop recurse m (i + 1) methods
        else if modIntequal m.arith f n then
          faculLoop recurse m (i + 1) methods
        else
          faculSplit build oracle strategy recurse m.arith i n f

/-- `facul_doit`; `fuel` bounds the depth of the calls. -/
def faculDoit (fuel : ℕ) (m : FaculModulus w) (methodStart : ℕ) : Outcome (FaculFound w) :=
  match fuel with
  | 0 => .abort
  | fuel + 1 =>
    faculLoop build oracle strategy (faculDoit fuel) m methodStart
      (strategy.methods.drop methodStart)

/-- The modulus that `facul` initialises for a number of at most two words. -/
def faculInitmod (n : TwoWord w) : Outcome (FaculModulus w) :=
  let i := modIntbits build .modredc2ul2 n
  if i ≤ w then do
    let m ← modredculInitmodUls n
    pure ⟨.modredcul, m⟩
  else if i ≤ w + w / 2 then do
    let m ← modredc15ulInitmodUls build n
    pure ⟨.modredc15ul, m⟩
  else do
    Outcome.assert (i ≤ 2 * w - 2)
    let m ← modredc2ul2InitmodUls build n
    pure ⟨.modredc2ul2, m⟩

/-- `facul`. -/
def facul (fuel : ℕ) (N : ℤ) : Outcome (FaculFound w) :=
  if N ≤ 0 then
    pure none
  else if N = 1 then
    pure (some [])
  else if N.toNat.size > 2 * w - 2 then
    pure (some [])
  else do
    let m ← faculInitmod build ⟨ofNat w N.toNat, ofNat w (N.toNat / 2 ^ w)⟩
    let found ← faculDoit build oracle strategy fuel m 0
    pure (found.map fun factors => factors.mergeSort fun a b => a.toNat ≤ b.toNat)

end FaculDoit

/-! ## Initialisation -/

/-- What `facul_doit` relies on: the modulus is odd, not one, has the words of its
arithmetic, and two bits are free. -/
structure FaculModulus.Valid (m : FaculModulus w) : Prop where
  odd : m.value % 2 = 1
  one_lt : 1 < m.value
  fits : m.arith.Fits m.mod.m
  hi_lt : m.mod.m.hi.toNat < 2 ^ (w - 2)

section Initialisation

variable (build : UlarithBuild)

theorem modredculInitmodUls_spec (hw : w = 32 ∨ w = 64) {s : TwoWord w}
    (hodd : s.value % 2 = 1) (hone : 1 < s.value) (hhi : s.hi = 0#w) :
    ∃ m, modredculInitmodUls s = pure m ∧ m.m = s := by
  have hvalue : s.value = s.lo.toNat := value_of_hi_zero hhi
  have hs : (⟨s.lo, 0#w⟩ : TwoWord w) = s := by rw [← hhi]
  have hlo1 : (1#w).toNat = 1 := toNat_const (Nat.one_lt_two_pow (by omega))
  have hne : s.lo ≠ 1#w := by
    intro heq
    rw [hvalue, heq, hlo1] at hone
    omega
  obtain ⟨inv, hinv, -⟩ := ularithInvmod_spec hw (n := s.lo) (by omega)
  obtain ⟨q, one, hdiv, -, -⟩ := ularithDiv2ulUlUl_eq (a := ⟨0#w, 1#w⟩) (b := s.lo)
    (by rw [hlo1]; omega)
  refine ⟨⟨s, ⟨one, 0#w⟩, -inv⟩, ?_, rfl⟩
  simp [modredculInitmodUls, hinv, if_neg hne, hdiv, hs]

variable {arith : ModArith} {f : TwoWord w}

theorem faculInitFactor_spec (hw : w = 32 ∨ w = 64) (hfits : arith.Fits f)
    (hodd : f.value % 2 = 1) (hone : 1 < f.value) (hhi : f.hi.toNat < 2 ^ (w - 2)) :
    ∃ fm, faculInitFactor build arith f = pure fm ∧ fm.Valid ∧ fm.value = f.value := by
  unfold faculInitFactor
  rw [modIntbits_eq build hfits]
  by_cases h₁ : f.value.size ≤ w
  · have hzero : f.hi = 0#w := hi_eq_zero_iff.mpr (Nat.size_le.mp h₁)
    obtain ⟨m, hm, rfl⟩ := modredculInitmodUls_spec hw hodd hone hzero
    refine ⟨⟨.modredcul, m⟩, ?_, ⟨hodd, hone, fun _ => hzero, hhi⟩, rfl⟩
    simp [if_pos h₁, hm]
  · have hpos : 0 < f.hi.toNat := by
      apply hi_pos_of_le_value
      rw [Nat.size_le] at h₁
      omega
    by_cases h₂ : f.value.size ≤ w + w / 2
    · have hhalf : f.hi.toNat < 2 ^ (w / 2) := by
        apply hi_lt_of_value_lt
        rw [← pow_add]
        exact Nat.size_le.mp h₂
      obtain ⟨m, hm, rfl, -⟩ := modredcInitmodUls_spec build hw (by omega) hodd hpos hhalf
      refine ⟨⟨.modredc15ul, m⟩, ?_, ⟨hodd, hone, fun h => (by cases h), hhi⟩, rfl⟩
      simp [if_neg h₁, if_pos h₂, modredc15ulInitmodUls, hm]
    · obtain ⟨m, hm, rfl, -⟩ := modredcInitmodUls_spec build hw le_rfl hodd hpos hhi
      refine ⟨⟨.modredc2ul2, m⟩, ?_, ⟨hodd, hone, fun h => (by cases h), hhi⟩, rfl⟩
      simp [if_neg h₁, if_neg h₂, modredc2ul2InitmodUls, hm]

theorem faculInitCofactor_eq (hfits : arith.Fits f) :
    faculInitCofactor build arith f = faculInitFactor build arith f := by
  unfold faculInitCofactor faculInitFactor
  by_cases hsize : arith.size ≥ 2
  · simp [hsize]
  · have harith : arith = .modredcul := by
      cases arith <;> simp_all [ModArith.size]
    have hbits : modIntbits build arith f ≤ w := by
      rw [modIntbits_eq build hfits, Nat.size_le]
      exact hi_eq_zero_iff.mp (hfits harith)
    simp [if_pos hbits]

end Initialisation

/-! ## What a call returns -/

/-- The primality tests accept only primes. -/
def AcceptsPrimes (oracle : FaculOracle w Plan) : Prop :=
  ∀ m : FaculModulus w, m.Valid → primetest oracle m = true → m.value.Prime

/-- What is stored is smooth and divides the number, and a number is rejected only if
it has a large prime factor, provided the sieve has removed the small ones. -/
structure FaculOk (oracle : FaculOracle w Plan) (fbb lpb : BitVec w) (N : ℕ)
    (found : FaculFound w) : Prop where
  one_lt : ∀ factors, found = some factors → ∀ p ∈ factors, 1 < p.toNat
  le_lpb : ∀ factors, found = some factors → ∀ p ∈ factors, p.toNat ≤ lpb.toNat
  prod_dvd : ∀ factors, found = some factors → (factors.map BitVec.toNat).prod ∣ N
  notSmooth : found = none → (∀ p : ℕ, p.Prime → p ∣ N → fbb.toNat < p) →
    AcceptsPrimes oracle → ∃ p : ℕ, p.Prime ∧ p ∣ N ∧ lpb.toNat < p

section Ok

variable {oracle : FaculOracle w Plan} {fbb lpb : BitVec w} {a b N : ℕ}

theorem FaculOk.empty : FaculOk oracle fbb lpb N (some []) where
  one_lt := by simp
  le_lpb := by simp
  prod_dvd := by simp
  notSmooth := fun h => by cases h

theorem FaculOk.single {p : BitVec w} (hone : 1 < p.toNat) (hle : p.toNat ≤ lpb.toNat) :
    FaculOk oracle fbb lpb p.toNat (some [p]) where
  one_lt := by simpa using hone
  le_lpb := by simpa using hle
  prod_dvd := by simp
  notSmooth := fun h => by cases h

theorem FaculOk.append {factors factors' : List (BitVec w)}
    (h : FaculOk oracle fbb lpb a (some factors))
    (h' : FaculOk oracle fbb lpb b (some factors')) :
    FaculOk oracle fbb lpb (a * b) (some (factors ++ factors')) where
  one_lt := by
    rintro - ⟨⟩ p hp
    rcases List.mem_append.mp hp with hp | hp
    · exact h.one_lt _ rfl p hp
    · exact h'.one_lt _ rfl p hp
  le_lpb := by
    rintro - ⟨⟩ p hp
    rcases List.mem_append.mp hp with hp | hp
    · exact h.le_lpb _ rfl p hp
    · exact h'.le_lpb _ rfl p hp
  prod_dvd := by
    rintro - ⟨⟩
    rw [List.map_append, List.prod_append]
    exact Nat.mul_dvd_mul (h.prod_dvd _ rfl) (h'.prod_dvd _ rfl)
  notSmooth := fun h => by cases h

theorem FaculOk.reject (h : FaculOk oracle fbb lpb a none) (hdvd : a ∣ N) :
    FaculOk oracle fbb lpb N none where
  one_lt := by simp
  le_lpb := by simp
  prod_dvd := by simp
  notSmooth := by
    intro _ hsmall htests
    obtain ⟨p, hp, hpa, hlpb⟩ :=
      h.notSmooth rfl (fun p hp hpa => hsmall p hp (hpa.trans hdvd)) htests
    exact ⟨p, hp, hpa.trans hdvd, hlpb⟩

theorem FaculOk.large (hprime : (∀ p : ℕ, p.Prime → p ∣ a → fbb.toNat < p) →
    AcceptsPrimes oracle → a.Prime) (hlpb : lpb.toNat < a) :
    FaculOk oracle fbb lpb a none where
  one_lt := by simp
  le_lpb := by simp
  prod_dvd := by simp
  notSmooth := fun _ hsmall htests => ⟨a, hprime hsmall htests, dvd_rfl, hlpb⟩

theorem prime_of_le_square {bound : ℕ} (hone : 1 < a) (hle : a ≤ bound * bound)
    (hsmall : ∀ p : ℕ, p.Prime → p ∣ a → bound < p) : a.Prime := by
  by_contra hnot
  have hfac := hsmall a.minFac (Nat.minFac_prime (by omega)) (Nat.minFac_dvd a)
  have hsq := Nat.minFac_sq_le_self (by omega) hnot
  have hlt := Nat.mul_lt_mul'' hfac hfac
  rw [pow_two] at hsq
  omega

end Ok

/-! ## One split -/

/-- A factor or cofactor of value `v` after the tests. -/
def FaculPart.Ok (lpb : BitVec w) (v : ℕ) (part : FaculPart w) : Prop :=
  match part with
  | .prime p => p.value = v ∧ v ≤ lpb.toNat
  | .composite m => m.Valid ∧ m.value = v

/-- The calls of `facul_doit` on moduli below a bound are right. -/
def RecurseOk (oracle : FaculOracle w Plan) (fbb lpb : BitVec w) (entries bound : ℕ)
    (recurse : FaculModulus w → ℕ → Outcome (FaculFound w)) : Prop :=
  ∀ m i, m.Valid → m.value < bound → i ≤ entries →
    ∃ found, recurse m i = pure found ∧ FaculOk oracle fbb lpb m.value found

section Split

variable {build : UlarithBuild} {oracle : FaculOracle w Plan} {strategy : FaculStrategy w Plan}
  {fbb : BitVec w} {arith : ModArith} {f : TwoWord w}

theorem facul_quick_reject (hfbb2 : strategy.fbb2.value = fbb.toNat * fbb.toNat)
    (hfits : arith.Fits f) (hone : 1 < f.value)
    (hquick : modIntcmp arith f strategy.fbb2 ≤ 0)
    (hlpb : modIntcmpUl arith f strategy.lpb > 0) :
    FaculOk oracle fbb strategy.lpb f.value none := by
  have hle := modIntcmp_le hfits strategy.fbb2 hquick
  rw [hfbb2] at hle
  exact FaculOk.large (fun hsmall _ => prime_of_le_square hone hle hsmall)
    ((modIntcmpUl_pos_iff hfits strategy.lpb).mp hlpb)

variable (oracle strategy) in
theorem faculClassify_spec {init : TwoWord w → Outcome (FaculModulus w)} {fprime : Bool}
    (hfits : arith.Fits f) (hsmall : fprime = true → f.value ≤ strategy.lpb.toNat)
    (hinit : ∃ fm, init f = pure fm ∧ fm.Valid ∧ fm.value = f.value) :
    ∃ part?, faculClassify oracle strategy arith init f fprime = pure part? ∧
      (part? = none → FaculOk oracle fbb strategy.lpb f.value none) ∧
      ∀ part, part? = some part → part.Ok strategy.lpb f.value := by
  unfold faculClassify
  by_cases hfprime : fprime = true
  · refine ⟨some (.prime f), if_pos hfprime, (by simp), ?_⟩
    rintro - ⟨⟩
    exact ⟨rfl, hsmall hfprime⟩
  · obtain ⟨fm, hfm, hvalid, hvalue⟩ := hinit
    simp only [if_neg hfprime, hfm, pure_bind]
    by_cases htest : primetest oracle fm = true
    · by_cases hlpb : modIntcmpUl arith f strategy.lpb > 0
      · refine ⟨none, by rw [if_pos htest, if_pos hlpb], fun _ => ?_, (by simp)⟩
        refine FaculOk.large (fun _ htests => ?_)
          ((modIntcmpUl_pos_iff hfits strategy.lpb).mp hlpb)
        rw [← hvalue]
        exact htests fm hvalid htest
      · refine ⟨some (.prime f), by rw [if_pos htest, if_neg hlpb], (by simp), ?_⟩
        rintro - ⟨⟩
        rw [gt_iff_lt, ← gt_iff_lt, modIntcmpUl_pos_iff hfits] at hlpb
        exact ⟨rfl, by omega⟩
    · refine ⟨some (.composite fm), if_neg htest, (by simp), ?_⟩
      rintro - ⟨⟩
      exact ⟨hvalid, hvalue⟩

theorem faculStore_spec {recurse : FaculModulus w → ℕ → Outcome (FaculFound w)}
    {entries bound v i : ℕ} {part : FaculPart w}
    (hrecurse : RecurseOk oracle fbb strategy.lpb entries bound recurse)
    (hpart : part.Ok strategy.lpb v) (hone : 1 < v) (hv : v < bound) (hi : i ≤ entries) :
    ∃ found, faculStore recurse i part = pure found ∧
      FaculOk oracle fbb strategy.lpb v found := by
  cases part with
  | prime p =>
    obtain ⟨rfl, hle⟩ := hpart
    have hzero : p.hi = 0#w := hi_eq_zero_iff.mpr (hle.trans_lt strategy.lpb.isLt)
    rw [value_of_hi_zero hzero] at hone hle ⊢
    exact ⟨some [p.lo], rfl, FaculOk.single hone hle⟩
  | composite m =>
    obtain ⟨hvalid, rfl⟩ := hpart
    exact hrecurse m i hvalid hv hi

theorem FaculModulus.Valid.divisor {m : FaculModulus w} (hm : m.Valid) {x : TwoWord w}
    (hdvd : x.value ∣ m.value) :
    m.arith.Fits x ∧ x.value % 2 = 1 ∧ x.hi.toNat < 2 ^ (w - 2) := by
  have hle : x.value ≤ m.value := Nat.le_of_dvd (by have := hm.one_lt; omega) hdvd
  refine ⟨fun harith => ?_, ?_, ?_⟩
  · exact hi_eq_zero_iff.mpr (hle.trans_lt (hi_eq_zero_iff.mp (hm.fits harith)))
  · by_contra heven
    have htwo : 2 ∣ m.value := (Nat.dvd_of_mod_eq_zero (by omega)).trans hdvd
    have hodd := hm.odd
    omega
  · rw [← value_div]
    refine (Nat.div_le_div_right hle).trans_lt ?_
    rw [FaculModulus.value, value_div]
    exact hm.hi_lt

theorem proper_factors {a b N : ℕ} (hprod : a * b = N) (hone : 1 < N) (ha : a ≠ 1)
    (haN : a ≠ N) : 1 < a ∧ 1 < b ∧ a < N ∧ b < N := by
  have hapos : 0 < a := Nat.pos_of_ne_zero fun h => by simp [h] at hprod; omega
  have hbpos : 0 < b := Nat.pos_of_ne_zero fun h => by simp [h] at hprod; omega
  have hb : b ≠ 1 := fun h => haN (by rw [← hprod, h, mul_one])
  have halt : 1 < a := by omega
  have hblt : 1 < b := by omega
  refine ⟨halt, hblt, ?_, ?_⟩
  · rw [← hprod]
    exact (Nat.lt_mul_iff_one_lt_right hapos).mpr hblt
  · rw [← hprod]
    exact (Nat.lt_mul_iff_one_lt_left hbpos).mpr halt

/-- A split of a number by a proper factor is right when the calls it makes are. -/
theorem faculSplit_spec (hw : w = 32 ∨ w = 64)
    (hfbb2 : strategy.fbb2.value = fbb.toNat * fbb.toNat)
    {recurse : FaculModulus w → ℕ → Outcome (FaculFound w)} {m : FaculModulus w}
    {entries i : ℕ} (hrecurse : RecurseOk oracle fbb strategy.lpb entries m.value recurse)
    (hi : i < entries) (hm : m.Valid) (hdvd : f.value ∣ m.value) (hne_one : f.value ≠ 1)
    (hne_self : f.value ≠ m.value) :
    ∃ found, faculSplit build oracle strategy recurse m.arith i m.mod.m f = pure found ∧
      FaculOk oracle fbb strategy.lpb m.value found := by
  obtain ⟨hffits, hfodd, hfhi⟩ := hm.divisor hdvd
  obtain ⟨n, hn, hnvalue, -⟩ := modIntdivexact_spec build hw hm.fits hfodd hdvd
  have hprod : f.value * n.value = m.value := by
    rw [hnvalue]
    exact Nat.mul_div_cancel' hdvd
  have hndvd : n.value ∣ m.value := Dvd.intro_left _ hprod
  obtain ⟨hnfits, hnodd, hnhi⟩ := hm.divisor hndvd
  obtain ⟨hfone, hnone, hflt, hnlt⟩ := proper_factors hprod hm.one_lt hne_one hne_self
  unfold faculSplit
  by_cases hfquick : decide (modIntcmp m.arith f strategy.fbb2 ≤ 0) = true ∧
      modIntcmpUl m.arith f strategy.lpb > 0
  · exact ⟨none, if_pos hfquick, (facul_quick_reject hfbb2 hffits hfone
      (of_decide_eq_true hfquick.1) hfquick.2).reject hdvd⟩
  simp only [if_neg hfquick, hn, pure_bind]
  by_cases hnquick : decide (modIntcmp m.arith n strategy.fbb2 ≤ 0) = true ∧
      modIntcmpUl m.arith n strategy.lpb > 0
  · exact ⟨none, if_pos hnquick, (facul_quick_reject hfbb2 hnfits hnone
      (of_decide_eq_true hnquick.1) hnquick.2).reject hndvd⟩
  simp only [if_neg hnquick]
  obtain ⟨fpart?, hfpart, hfnone, hfsome⟩ := faculClassify_spec oracle strategy hffits
    (fun h => by
      by_contra hlt
      exact hfquick ⟨h, (modIntcmpUl_pos_iff hffits _).mpr (by omega)⟩)
    (faculInitFactor_spec build hw hffits hfodd hfone hfhi)
  obtain ⟨npart?, hnpart, hnnone, hnsome⟩ := faculClassify_spec oracle strategy hnfits
    (fun h => by
      by_contra hlt
      exact hnquick ⟨h, (modIntcmpUl_pos_iff hnfits _).mpr (by omega)⟩)
    (show ∃ fm, faculInitCofactor build m.arith n = pure fm ∧ fm.Valid ∧ fm.value = n.value by
      rw [faculInitCofactor_eq build hnfits]
      exact faculInitFactor_spec build hw hnfits hnodd hnone hnhi)
  simp only [hfpart, pure_bind]
  cases fpart? with
  | none => exact ⟨none, rfl, (hfnone rfl).reject hdvd⟩
  | some fpart =>
    simp only [hnpart, pure_bind]
    cases npart? with
    | none => exact ⟨none, rfl, (hnnone rfl).reject hndvd⟩
    | some npart =>
      obtain ⟨found, hfound, hok⟩ :=
        faculStore_spec hrecurse (hfsome fpart rfl) hfone hflt hi.le
      obtain ⟨found', hfound', hok'⟩ :=
        faculStore_spec hrecurse (hnsome npart rfl) hnone hnlt hi
      simp only [hfound, pure_bind]
      cases found with
      | none => exact ⟨none, rfl, hok.reject hdvd⟩
      | some factors =>
        simp only [hfound', pure_bind]
        cases found' with
        | none => exact ⟨none, rfl, hok'.reject hndvd⟩
        | some factors' =>
          refine ⟨some (factors ++ factors'), rfl, ?_⟩
          rw [← hprod]
          exact hok.append hok'

/-! ## All calls -/

theorem faculCallMethod_spec (oracle : FaculOracle w Plan) {method : FaculMethod Plan}
    (hknown : method.method ≠ .other) (m : FaculModulus w) :
    ∃ f bt, faculCallMethod oracle method m = some (f, bt) ∧ f.value ∣ m.value := by
  unfold faculCallMethod
  cases hmethod : method.method with
  | pm1Method => exact ⟨_, _, rfl, oracle.pm1_dvd method.plan m⟩
  | pp1Method => exact ⟨_, _, rfl, oracle.pp1_dvd method.plan m⟩
  | ecMethod => exact ⟨_, _, rfl, oracle.ecm_dvd method.plan m⟩
  | other => exact absurd hmethod hknown

/-- The methods are tried in order until the cofactor is done. -/
theorem faculLoop_spec (hw : w = 32 ∨ w = 64)
    (hfbb2 : strategy.fbb2.value = fbb.toNat * fbb.toNat)
    {recurse : FaculModulus w → ℕ → Outcome (FaculFound w)} {m : FaculModulus w}
    (entries : ℕ) {i : ℕ} (hrecurse : RecurseOk oracle fbb strategy.lpb entries m.value recurse)
    (hm : m.Valid) {methods : List (FaculMethod Plan)}
    (hknown : ∀ method ∈ methods, method.method ≠ .other)
    (hentries : i + methods.length ≤ entries) :
    ∃ found, faculLoop build oracle strategy recurse m i methods = pure found ∧
      FaculOk oracle fbb strategy.lpb m.value found := by
  induction methods generalizing i with
  | nil => exact ⟨some [], rfl, FaculOk.empty⟩
  | cons method methods ih =>
    obtain ⟨hmethod, hknown⟩ := List.forall_mem_cons.mp hknown
    rw [List.length_cons] at hentries
    obtain ⟨f, bt, hcall, hdvd⟩ := faculCallMethod_spec oracle hmethod m
    obtain ⟨hfits, -, -⟩ := hm.divisor hdvd
    unfold faculLoop
    by_cases habort : i > 3 ∧ modIntbits build m.arith m.mod.m > w
    · exact ⟨some [], if_pos habort, FaculOk.empty⟩
    simp only [if_neg habort, hcall]
    by_cases hone : modIntequalUl m.arith f 1#w = true
    · simp only [if_pos hone]
      exact ih hknown (by omega)
    simp only [if_neg hone]
    by_cases hself : modIntequal m.arith f m.mod.m = true
    · simp only [if_pos hself]
      exact ih hknown (by omega)
    simp only [if_neg hself]
    rw [modIntequalUl_iff hfits, toNat_const (Nat.one_lt_two_pow (by omega))] at hone
    rw [modIntequal_iff hfits hm.fits] at hself
    exact faculSplit_spec hw hfbb2 hrecurse (by omega) hm hdvd hone hself

variable (build oracle) in
/-- Every call terminates without a failed assertion and is right. -/
theorem faculDoit_spec (hw : w = 32 ∨ w = 64)
    (hfbb2 : strategy.fbb2.value = fbb.toNat * fbb.toNat)
    (hknown : ∀ method ∈ strategy.methods, method.method ≠ .other) (fuel : ℕ) :
    RecurseOk oracle fbb strategy.lpb strategy.methods.length (fuel + 1)
      (faculDoit build oracle strategy fuel) := by
  induction fuel with
  | zero =>
    intro m i hm hlt hi
    have hone := hm.one_lt
    omega
  | succ fuel ih =>
    intro m i hm hlt hi
    unfold faculDoit
    refine faculLoop_spec hw hfbb2 strategy.methods.length ?_ hm
      (fun method hmem => hknown method (List.mem_of_mem_drop hmem)) ?_
    · intro m' i' hm' hlt' hi'
      exact ih m' i' hm' (by omega) hi'
    · rw [List.length_drop]
      omega

end Split

section

variable (build : UlarithBuild) (hw : w = 32 ∨ w = 64)
include hw

theorem faculMakeStrategy_spec (methods : List (FaculMethod Plan)) (fbb lpb : BitVec w) :
    ∃ strategy, faculMakeStrategy build methods fbb lpb = pure strategy ∧
      strategy.lpb = lpb ∧ strategy.methods = methods ∧
      strategy.fbb2.value = fbb.toNat * fbb.toNat := by
  refine ⟨⟨lpb, TwoWord.mulWide fbb fbb, methods⟩, ?_, rfl, rfl, TwoWord.mulWide_value fbb fbb⟩
  rw [faculMakeStrategy, ularithMulUlUl2ul_eq build (by omega) (by omega), pure_bind]

theorem faculInitmod_spec {n : TwoWord w}
    (hodd : n.value % 2 = 1) (hone : 1 < n.value) (hbits : n.value < 2 ^ (2 * w - 2)) :
    ∃ m, faculInitmod build n = pure m ∧ m.Valid ∧ m.value = n.value := by
  have hfits : ModArith.modredc2ul2.Fits n := fun h => by cases h
  have hhi : n.hi.toNat < 2 ^ (w - 2) := by
    apply hi_lt_of_value_lt
    rw [← pow_add, show w + (w - 2) = 2 * w - 2 by omega]
    exact hbits
  have hsize : modIntbits build .modredc2ul2 n ≤ 2 * w - 2 := by
    rw [modIntbits_eq build hfits]
    exact Nat.size_le.mpr hbits
  obtain ⟨m, hm, hvalid⟩ := faculInitFactor_spec build hw hfits hodd hone hhi
  refine ⟨m, ?_, hvalid⟩
  simpa only [faculInitmod, faculInitFactor, Outcome.assert_of hsize, pure_bind]
    using hm

/-- For every odd number of at most two words less two bits, every bound and every list
of methods: the number has a modulus, and on every modulus of the number
`facul_doit` terminates from every start; what it stores is greater than one, at
most `lpb`, and multiplies to a divisor; and when it rejects a number without small
factors, the number has a prime factor above `lpb`. -/
theorem faculDoit_correct (oracle : FaculOracle w Plan) {methods : List (FaculMethod Plan)}
    (hknown : ∀ method ∈ methods, method.method ≠ .other) (fbb lpb : BitVec w)
    {n : TwoWord w} (hodd : n.value % 2 = 1) (hone : 1 < n.value)
    (hbits : n.value < 2 ^ (2 * w - 2)) :
    (∃ m, faculInitmod build n = pure m ∧ m.Valid ∧ m.value = n.value) ∧
    ∃ strategy, faculMakeStrategy build methods fbb lpb = pure strategy ∧
      ∀ m : FaculModulus w, m.Valid → m.value = n.value →
      ∀ fuel methodStart, n.value ≤ fuel → methodStart ≤ methods.length →
        ∃ found, faculDoit build oracle strategy fuel m methodStart = pure found ∧
          (∀ factors, found = some factors →
            (∀ p ∈ factors, 1 < p.toNat ∧ p.toNat ≤ lpb.toNat) ∧
            (factors.map BitVec.toNat).prod ∣ n.value) ∧
          (found = none → (∀ p : ℕ, p.Prime → p ∣ n.value → fbb.toNat < p) →
            AcceptsPrimes oracle → ∃ p : ℕ, p.Prime ∧ p ∣ n.value ∧ lpb.toNat < p) := by
  obtain ⟨strategy, hstrategy, rfl, rfl, hfbb2⟩ :=
    faculMakeStrategy_spec build hw methods fbb lpb
  refine ⟨faculInitmod_spec build hw hodd hone hbits, strategy, hstrategy, ?_⟩
  intro m hvalid hvalue fuel methodStart hfuel hstart
  obtain ⟨found, hfound, hok⟩ := faculDoit_spec _ _ hw hfbb2
    hknown fuel m methodStart hvalid (by omega) hstart
  rw [hvalue] at hok
  exact ⟨found, hfound, fun factors hsome =>
    ⟨fun p hp => ⟨hok.one_lt factors hsome p hp, hok.le_lpb factors hsome p hp⟩,
      hok.prod_dvd factors hsome⟩, hok.notSmooth⟩

end

/-- A method that finds the factor 3, and tests that accept 3 and 5. -/
def findThree : FaculOracle 64 Unit where
  pm1 := fun _ m => if 3 ∣ m.value then (⟨3#64, 0#64⟩, 0) else (⟨1#64, 0#64⟩, 0)
  pp1 := fun _ _ => (⟨1#64, 0#64⟩, 0)
  ecm := fun _ _ => (⟨1#64, 0#64⟩, 0)
  sprp2 := fun m => m.value == 3 || m.value == 5
  sprp := fun _ _ => true
  pm1_dvd := by
    intro _ m
    by_cases h : 3 ∣ m.value
    · simp [h, value]
    · simp [h, value]
  pp1_dvd := by simp [value]
  ecm_dvd := by simp [value]

/-- The number 15 with the bounds 2 and 7. -/
theorem faculDoit_correct_fifteen :
    ∃ strategy, faculMakeStrategy .x86 [⟨.pm1Method, ()⟩] 2#64 7#64 = pure strategy ∧
      ∀ m : FaculModulus 64, m.Valid → m.value = 15 →
        ∃ found, faculDoit .x86 findThree strategy 15 m 0 = pure found ∧
          ∀ factors, found = some factors → (factors.map BitVec.toNat).prod ∣ 15 := by
  obtain ⟨-, strategy, hstrategy, hdoit⟩ := faculDoit_correct .x86 (Or.inr rfl) findThree
    (show ∀ method ∈ [⟨.pm1Method, ()⟩], FaculMethod.method method ≠ .other by simp) 2#64 7#64
    (n := (⟨15#64, 0#64⟩ : TwoWord 64)) (by decide) (by decide) (by decide)
  refine ⟨strategy, hstrategy, fun m hm hvalue => ?_⟩
  obtain ⟨found, hfound, hstored, -⟩ := hdoit m hm hvalue 15 0 (by decide) (by decide)
  exact ⟨found, hfound, fun factors hsome => (hstored factors hsome).2⟩

/-- `facul` returns the factors of `facul_doit` in ascending order. -/
theorem facul_correct (build : UlarithBuild) (hw : w = 32 ∨ w = 64)
    (oracle : FaculOracle w Plan) {strategy : FaculStrategy w Plan} {fbb : BitVec w}
    (hfbb2 : strategy.fbb2.value = fbb.toNat * fbb.toNat)
    (hknown : ∀ method ∈ strategy.methods, method.method ≠ .other)
    {N fuel : ℕ} (hodd : N % 2 = 1) (hone : 1 < N) (hbits : N < 2 ^ (2 * w - 2))
    (hfuel : N ≤ fuel) :
    ∃ found, facul build oracle strategy fuel N = pure found ∧
      FaculOk oracle fbb strategy.lpb N found ∧
      ∀ factors, found = some factors → factors.Pairwise fun a b => a.toNat ≤ b.toNat := by
  have hvalue : (⟨ofNat w N, ofNat w (N / 2 ^ w)⟩ : TwoWord w).value = N := by
    have hdiv : N / 2 ^ w < 2 ^ w := by
      apply Nat.div_lt_of_lt_mul
      rw [← pow_add]
      exact hbits.trans_le (Nat.pow_le_pow_right (by decide) (by omega))
    rw [value, BitVec.toNat_ofNat, toNat_const hdiv]
    exact Nat.mod_add_div N (2 ^ w)
  obtain ⟨m, hm, hvalid, hmvalue⟩ := faculInitmod_spec build hw
    (n := ⟨ofNat w N, ofNat w (N / 2 ^ w)⟩) (by rw [hvalue]; exact hodd)
    (by rw [hvalue]; exact hone) (by rw [hvalue]; exact hbits)
  rw [hvalue] at hmvalue
  obtain ⟨found, hfound, hok⟩ := faculDoit_spec build oracle hw hfbb2
    hknown fuel m 0 hvalid (by omega) (Nat.zero_le _)
  rw [hmvalue] at hok
  refine ⟨found.map fun factors => factors.mergeSort fun a b => a.toNat ≤ b.toNat, ?_, ?_, ?_⟩
  · have hpos : ¬(N : ℤ) ≤ 0 := by omega
    have hne : ¬(N : ℤ) = 1 := by omega
    have hsize : ¬N.size > 2 * w - 2 := by
      rw [gt_iff_lt, not_lt]
      exact Nat.size_le.mpr hbits
    simp only [facul, if_neg hpos, if_neg hne, Int.toNat_natCast, if_neg hsize, hm, hfound,
      pure_bind]
  · cases found with
    | none => exact hok
    | some factors =>
      have hperm := List.mergeSort_perm factors fun a b => decide (a.toNat ≤ b.toNat)
      refine ⟨?_, ?_, ?_, fun h => by cases h⟩
      · rintro - ⟨⟩ p hp
        exact hok.one_lt factors rfl p (hperm.mem_iff.mp hp)
      · rintro - ⟨⟩ p hp
        exact hok.le_lpb factors rfl p (hperm.mem_iff.mp hp)
      · rintro - ⟨⟩
        rw [(hperm.map BitVec.toNat).prod_eq]
        exact hok.prod_dvd factors rfl
  · intro factors hsome
    obtain ⟨unsorted, -, rfl⟩ := Option.map_eq_some_iff.mp hsome
    have hsorted := @List.pairwise_mergeSort _ (fun a b : BitVec w => decide (a.toNat ≤ b.toNat))
      (fun a b c hab hbc => by simp only [decide_eq_true_eq] at *; omega)
      (fun a b => by simp only [Bool.or_eq_true, decide_eq_true_eq]; omega) unsorted
    exact hsorted.imp fun h => by simpa using h

/-- The number 15 with the bounds 2 and 7. -/
theorem facul_correct_fifteen : ∃ found,
    facul .x86 findThree ⟨7#64, ⟨4#64, 0#64⟩, [⟨.pm1Method, ()⟩]⟩ 15 15 = pure found ∧
      ∀ factors, found = some factors → factors.Pairwise fun a b => a.toNat ≤ b.toNat := by
  obtain ⟨found, hfound, -, hsorted⟩ := @facul_correct 64 Unit .x86 (Or.inr rfl) findThree
    ⟨7#64, ⟨4#64, 0#64⟩, [⟨.pm1Method, ()⟩]⟩ 2#64 (by decide) (by simp) 15 15 rfl (by decide)
    (by decide) le_rfl
  exact ⟨found, hfound, hsorted⟩

end CadoNfs
