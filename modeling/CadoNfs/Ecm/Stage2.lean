import Mathlib.Data.Nat.Prime.Basic

/-!
# The stage 2 plan

`stage2_make_plan` chooses pairs `(i, j)` such that the numbers
`i * d - j` and `i * d + j` cover the primes between two bounds.  It starts from
the pairs of the primes themselves and drops primes that divide the partner of a chosen
number, in three passes over one array of flags.
-/

namespace CadoNfs

/-! ## Parameters -/

/-- The array `primes`: which numbers still need their pair. -/
@[ext]
structure Primes where
  flag : ℕ → Bool

instance : CoeFun Primes fun _ => ℕ → Bool := ⟨Primes.flag⟩

/-- The value of `d`. -/
def stage2D : ℕ := 210

/-- The smallest prime not in `d`. -/
def notInD : ℕ := 11

/-- `NEXT_D`. -/
def nextD : ℕ := 254

/-- `NEXT_PASS`. -/
def nextPass : ℕ := 255

/-- `plan->S1`: the numbers below `d / 2` that are coprime to `d`. -/
def stage2S1 : List ℕ :=
  (List.range (stage2D / 2)).filter fun j => j % 2 = 1 ∧ Nat.gcd j stage2D = 1

/-- `stage2_plan_t`. -/
structure Stage2Plan where
  B2 : ℕ
  d : ℕ
  s1 : ℕ
  i0 : ℕ
  i1 : ℕ
  S1 : List ℕ
  pairs : List ℕ
  deriving DecidableEq, Repr

/-! ## Flagged divisors -/

/-- The inner loop of `find_prime_div`: divide by `f` until a cofactor is
flagged or `f` does not divide any more. -/
def divideOut (primes : Primes) (f fuel p : ℕ) : ℕ × Bool :=
  match fuel with
  | 0 => (p, false)
  | fuel + 1 =>
    if p % f = 0 then
      let p := p / f
      if primes p then (p, true) else divideOut primes f fuel p
    else
      (p, false)

/-- The loop of `find_prime_div`; the square of `f` is an
`unsigned int`. -/
def findPrimeDivLoop (primes : Primes) (fuel f p : ℕ) : ℕ :=
  match fuel with
  | 0 => 0
  | fuel + 1 =>
    if p ≥ f * f % 2 ^ 32 then
      let (p, found) := divideOut primes f p p
      if found then p else findPrimeDivLoop primes fuel (f + 2) p
    else
      if primes p then p else 0

/-- `find_prime_div`. -/
def findPrimeDiv (n minF : ℕ) (primes : Primes) : ℕ :=
  findPrimeDivLoop primes (2 ^ 28) minF n

/-! ## The passes -/

/-- Clear the flag of `r`. -/
def Primes.clear (primes : Primes) (r : ℕ) : Primes :=
  ⟨Function.update primes r false⟩

/-- Set the flag of `p`. -/
def Primes.set (primes : Primes) (p : ℕ) : Primes :=
  ⟨Function.update primes p true⟩

/-- The number `sj` with `p = i * d + sj`. -/
def signedResidue (p : ℕ) : ℤ :=
  let j := p % stage2D
  (j : ℤ) - if j > stage2D / 2 then (stage2D : ℤ) else 0

/-- The conversion of an `unsigned int` to `int`. -/
def asInt (p : ℕ) : ℤ :=
  if p < 2 ^ 31 then p else (p : ℤ) - 2 ^ 32

/-- The prime that the first pass drops at `p`, or zero: a flagged divisor of the
partner of `p`. -/
def pass1Drop (primes : Primes) (p : ℕ) : ℕ :=
  if primes p then
    let sj := signedResidue p
    if asInt p < 2 * sj then
      0
    else
      let q := ((asInt p - 2 * sj) % 2 ^ 32).toNat
      if !primes q then findPrimeDiv q notInD primes else 0
  else
    0

/-- The first pass at `p`. -/
def pass1Step (primes : Primes) (p : ℕ) : Primes :=
  let r := pass1Drop primes p
  if r ≠ 0 then primes.clear r else primes

/-- The lower number of a pair. -/
def lowerOf (step : ℕ × ℕ) : ℕ :=
  step.1 * stage2D - step.2

/-- The upper number of a pair. -/
def upperOf (step : ℕ × ℕ) : ℕ :=
  step.1 * stage2D + step.2

/-- What the second pass drops at `(i, j)`: two primes that the pair covers.  The
condition tests `primes[q]` twice. -/
def pass2Drops (primes : Primes) (step : ℕ × ℕ) : Option (ℕ × ℕ) :=
  let p := lowerOf step
  let q := upperOf step
  if !primes q && !primes q then
    let r1 := findPrimeDiv p notInD primes
    let r2 := findPrimeDiv q notInD primes
    if r1 ≠ 0 ∧ r2 ≠ 0 then some (r1, r2) else none
  else
    none

/-- What the third pass drops at `(i, j)`: at least one prime that the pair
covers. -/
def pass3Drops (primes : Primes) (step : ℕ × ℕ) : Option (ℕ × ℕ) :=
  let p := lowerOf step
  let q := upperOf step
  if !primes p && !primes q then
    let r1 := findPrimeDiv p notInD primes
    let r2 := findPrimeDiv q notInD primes
    if r1 ≠ 0 ∨ r2 ≠ 0 then some (r1, r2) else none
  else
    none

/-- Flag the pair and clear what it covers. -/
def takePair (primes : Primes) (step : ℕ × ℕ) (drops : Option (ℕ × ℕ)) : Primes :=
  match drops with
  | some (r1, r2) => ((primes.set (lowerOf step)).clear r1).clear r2
  | none => primes

/-- The second pass at `(i, j)`. -/
def pass2Step (primes : Primes) (step : ℕ × ℕ) : Primes :=
  takePair primes step (pass2Drops primes step)

/-- The third pass at `(i, j)`. -/
def pass3Step (primes : Primes) (step : ℕ × ℕ) : Primes :=
  takePair primes step (pass3Drops primes step)

/-- The numbers from `high` down to `low`. -/
def downFrom (high low : ℕ) : List ℕ :=
  (List.range' low (high + 1 - low)).reverse

/-- The pairs that the second and third pass visit, in their order. -/
def passSteps (maxI minI : ℕ) : List (ℕ × ℕ) :=
  (downFrom maxI (max minI 1)).flatMap fun i => stage2S1.map fun j => (i, j)

/-- The last number that the first pass visits. -/
def pass1Bound (maxI : ℕ) : ℕ :=
  (maxI * stage2D + stage2D / 2 - 1) / notInD

/-- The array after the composite pairing. -/
def compositePairing (B2 maxI minI : ℕ) (primes : Primes) : Primes :=
  let primes := (downFrom B2 (pass1Bound maxI)).foldl pass1Step primes
  let primes := (passSteps maxI minI).foldl pass2Step primes
  (passSteps maxI minI).foldl pass3Step primes

/-! ## The list of pairs -/

/-- Does the pair `(i, j)` include a flagged number? -/
def rowFlag (primes : Primes) (i j : ℕ) : Bool :=
  (decide (i * stage2D ≥ j) && primes (i * stage2D - j)) || primes (i * stage2D + j)

/-- Does the row `i` include a flagged number? -/
def rowUsed (primes : Primes) (i : ℕ) : Bool :=
  stage2S1.any fun j => rowFlag primes i j

/-- The array, the number of `NEXT_D` codes due and the codes written. -/
structure EmitState where
  primes : Primes
  needNextD : ℕ
  pairs : List ℕ

/-- Clear the flags of the pair `(i, j)` once it is written. -/
def clearPair (B2 i j : ℕ) (primes : Primes) : Primes :=
  let primes := if i * stage2D ≥ j then primes.clear (i * stage2D - j) else primes
  if i * stage2D + j ≤ B2 then primes.clear (i * stage2D + j) else primes

/-- Write the code `m` for the row `i` if the pair is needed. -/
def emitStep (B2 i : ℕ) (state : EmitState) (m : ℕ) : EmitState :=
  let j := stage2S1.getD m 0
  if rowFlag state.primes i j then
    { primes := clearPair B2 i j state.primes, needNextD := 0,
      pairs := state.pairs ++ List.replicate state.needNextD nextD ++ [m] }
  else
    state

/-- Write the codes for the row `i`. -/
def emitRow (B2 : ℕ) (state : EmitState) (i : ℕ) : EmitState :=
  let state := (List.range stage2S1.length).foldl (emitStep B2 i) state
  { state with needNextD := state.needNextD + 1 }

/-- The array and the codes after the rows from `minI` to `maxI`. -/
def emitRows (B2 minI maxI : ℕ) (primes : Primes) : EmitState :=
  (List.range' minI (maxI + 1 - minI)).foldl (emitRow B2) ⟨primes, 0, []⟩

/-! ## The plan -/

/-- The flags before the passes: the primes between the bounds, which the source takes
from `getprime`. -/
def initialPrimes (B2min B2 : ℕ) : Primes :=
  ⟨fun p => decide (B2min < p ∧ p ≤ B2 ∧ p.Prime)⟩

/-- `stage2_make_plan`.  It gives `none` where the size of the array wraps, so
that primes are flagged outside of it, where there is no row to end with, and where the
check at the end calls `abort`. -/
def stage2MakePlan (B2min B2 : ℕ) : Option Stage2Plan :=
  if B2 ≤ B2min then
    some { B2 := B2, d := 0, s1 := 0, i0 := 0, i1 := 0, S1 := [], pairs := [] }
  else
    let minI := (B2min + stage2D / 2) / stage2D
    let maxI := (B2 + stage2D / 2) / stage2D
    if B2 + stage2D / 2 ≥ 2 ^ 32 ∨ maxI * stage2D + stage2D / 2 ≥ 2 ^ 32 then
      none
    else
      let primes := initialPrimes B2min B2
      match (downFrom maxI minI).find? (rowUsed primes) with
      | none => none
      | some maxI =>
        let primes := compositePairing B2 maxI minI primes
        let minI := ((List.range' minI (maxI + 1 - minI)).find? (rowUsed primes)).getD (maxI + 1)
        let state := emitRows B2 minI maxI primes
        if (List.range' (B2min + 1) (B2 - B2min)).any state.primes then
          none
        else
          some
            { B2 := B2, d := stage2D, s1 := stage2S1.length, i0 := minI, i1 := maxI + 1,
              S1 := stage2S1, pairs := state.pairs ++ [nextPass] }

/-- The pairs `(i, j)` that codes stand for, from row `i` on. -/
def decodePairs (S1 : List ℕ) (i : ℕ) (codes : List ℕ) : List (ℕ × ℕ) :=
  match codes with
  | [] => []
  | c :: codes =>
    if c = nextPass then []
    else if c = nextD then decodePairs S1 (i + 1) codes
    else (i, S1.getD c 0) :: decodePairs S1 i codes

/-- The pairs `(i, j)` that a plan encodes. -/
def Stage2Plan.encoded (plan : Stage2Plan) : List (ℕ × ℕ) :=
  decodePairs plan.S1 plan.i0 plan.pairs

/-! ## What the search for a divisor returns -/

section Search

variable (primes : Primes)

theorem divideOut_spec (f fuel p : ℕ) :
    (divideOut primes f fuel p).1 ∣ p ∧ (divideOut primes f fuel p).1 ≤ p ∧
      ((divideOut primes f fuel p).2 = true →
        primes (divideOut primes f fuel p).1 = true) := by
  induction fuel generalizing p with
  | zero => exact ⟨dvd_rfl, le_rfl, by simp [divideOut]⟩
  | succ fuel ih =>
    unfold divideOut
    by_cases hmod : p % f = 0
    · have hdvd : p / f ∣ p := Nat.div_dvd_of_dvd (Nat.dvd_of_mod_eq_zero hmod)
      have hle : p / f ≤ p := Nat.div_le_self p f
      by_cases hflag : primes (p / f) = true
      · simp only [hmod, if_true, hflag]
        exact ⟨hdvd, hle, fun _ => trivial⟩
      · simp only [hmod, if_true, if_neg hflag]
        obtain ⟨hdvd', hle', hfound⟩ := ih (p / f)
        exact ⟨hdvd'.trans hdvd, hle'.trans hle, hfound⟩
    · simp only [if_neg hmod]
      exact ⟨dvd_rfl, le_rfl, by simp⟩

theorem findPrimeDivLoop_spec (fuel f p : ℕ) (h : findPrimeDivLoop primes fuel f p ≠ 0) :
    findPrimeDivLoop primes fuel f p ∣ p ∧
      primes (findPrimeDivLoop primes fuel f p) = true := by
  induction fuel generalizing f p with
  | zero => exact absurd rfl h
  | succ fuel ih =>
    unfold findPrimeDivLoop at h ⊢
    obtain ⟨hdvd, -, hfound⟩ := divideOut_spec primes f p p
    by_cases hge : p ≥ f * f % 2 ^ 32
    · simp only [if_pos hge] at h ⊢
      by_cases hflag : (divideOut primes f p p).2 = true
      · simp only [if_pos hflag] at h ⊢
        exact ⟨hdvd, hfound hflag⟩
      · simp only [if_neg hflag] at h ⊢
        obtain ⟨hdvd', hfound'⟩ := ih _ _ h
        exact ⟨hdvd'.trans hdvd, hfound'⟩
    · simp only [if_neg hge] at h ⊢
      by_cases hflag : primes p = true
      · simp only [if_pos hflag]
        exact ⟨dvd_rfl, hflag⟩
      · exact absurd (if_neg hflag) h

theorem findPrimeDiv_spec {n minF : ℕ} (h : findPrimeDiv n minF primes ≠ 0) :
    findPrimeDiv n minF primes ∣ n ∧ primes (findPrimeDiv n minF primes) = true :=
  findPrimeDivLoop_spec primes _ _ _ h

theorem findPrimeDivLoop_fuel (left fuel fuel' f p : ℕ) (hf : f + 2 * left = 479772853)
    (hp : p + 8 ≤ 2 ^ 32) (hfuel : left < fuel) (hfuel' : left < fuel') :
    findPrimeDivLoop primes fuel f p = findPrimeDivLoop primes fuel' f p := by
  induction left generalizing fuel fuel' f p with
  | zero =>
    obtain ⟨fuel, rfl⟩ := Nat.exists_eq_succ_of_ne_zero (by omega : fuel ≠ 0)
    obtain ⟨fuel', rfl⟩ := Nat.exists_eq_succ_of_ne_zero (by omega : fuel' ≠ 0)
    have hsquare : ¬p ≥ f * f % 2 ^ 32 := by
      rw [show f = 479772853 by omega]
      omega
    simp only [findPrimeDivLoop, if_neg hsquare]
  | succ left ih =>
    obtain ⟨fuel, rfl⟩ := Nat.exists_eq_succ_of_ne_zero (by omega : fuel ≠ 0)
    obtain ⟨fuel', rfl⟩ := Nat.exists_eq_succ_of_ne_zero (by omega : fuel' ≠ 0)
    obtain ⟨-, hle, -⟩ := divideOut_spec primes f p p
    have hrest := ih fuel fuel' (f + 2) (divideOut primes f p p).1 (by omega) (by omega)
      (by omega) (by omega)
    simp [findPrimeDivLoop, hrest]

end Search

/-! ## Rows -/

/-- The number `x` belongs to the pair `(i, j)`. -/
def RowEntry (i j x : ℕ) : Prop :=
  (x : ℤ) = i * stage2D - j ∨ (x : ℤ) = i * stage2D + j

/-- The other number of the pair of `x`. -/
def partner (x : ℕ) : ℤ :=
  x - 2 * signedResidue x

theorem stage2S1_bounds {j : ℕ} (hj : j ∈ stage2S1) : 0 < j ∧ j < 105 := by
  have htable : ∀ j ∈ stage2S1, 0 < j ∧ j < 105 := by decide
  exact htable j hj

theorem RowEntry.partner {i j x : ℕ} (hj : j ∈ stage2S1) (hx : RowEntry i j x) :
    ((x : ℤ) = i * stage2D - j ∧ CadoNfs.partner x = i * stage2D + j) ∨
      ((x : ℤ) = i * stage2D + j ∧ CadoNfs.partner x = i * stage2D - j) := by
  have hbounds := stage2S1_bounds hj
  unfold RowEntry stage2D at hx
  unfold CadoNfs.partner signedResidue stage2D
  simp only
  split_ifs <;> omega

theorem RowEntry.unique {i j i' j' x : ℕ} (hj : j ∈ stage2S1) (hj' : j' ∈ stage2S1)
    (hx : RowEntry i j x) (hx' : RowEntry i' j' x) : i = i' ∧ j = j' := by
  have hbounds := stage2S1_bounds hj
  have hbounds' := stage2S1_bounds hj'
  unfold RowEntry stage2D at hx hx'
  omega

end CadoNfs
