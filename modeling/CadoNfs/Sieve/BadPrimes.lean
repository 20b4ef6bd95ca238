import CadoNfs.Lib.ByteWord
import CadoNfs.Sieve.BucketFill
import CadoNfs.Utils.ModUlInv

/-!
# Small primes with a projective root

What `las.c` does for the primes and prime powers below `bucket_thresh` whose root is
projective: `init_small_sieve` fills in their data, `process_regions_one_thread` moves the
first position to the lines of the thread, and `sieve_small_bucket_region` sieves every
`g`-th line of one region after the other.  Between two regions a line and an offset within
the line are kept in one number.

Main results:

- Theorem `SmallBadPrime.Represents.modEq_iff`: the locations of a root in terms of the fields
  of its entry.
- Theorems `badLine_spec`, `sieveWords_line`: one line.
- Theorem `sieveBadPrime_spec`: one prime and one region, if the offset that is kept is below
  `I`.
-/

namespace CadoNfs.SmallSieve

open ByteWord
open Nat (ModEq mod_eq_of_lt mod_le mod_lt mul_div_cancel')

/-! ## Definitions -/

/-- `bucket_region`. -/
def bucketRegion : ℕ := 1 <<< logBucketRegion

/-- `small_bad_prime_data_t`. -/
structure SmallBadPrime where
  g : ℕ
  q : ℕ
  U : ℕ
  /-- Start of the sieve for the next bucket region. -/
  nextPosition : ℕ
  logp : BitVec 8
  deriving DecidableEq, Repr

/-- One root of the factor base, with the value `r` of `fb_root_in_qlattice` for it; the
root is projective if `p ≤ r`. -/
structure FactorBaseRoot where
  p : ℕ
  r : ℕ
  plog : BitVec 8
  deriving DecidableEq, Repr

variable (build : UlarithBuild)

/-- `invmod`: the return value and the value of `*pa` after it. -/
def invmod (pa b : ℕ) : Option (ℤ × ℕ) :=
  match modulInv build (BitVec.ofNat 64 (pa % b)) (BitVec.ofNat 64 b) with
  | .abort => none
  | .done (rc, r) _ => some (rc, if rc ≠ 0 then r.toNat else pa)

/-- The part of `init_small_sieve` for one projective root; `r` is the root after
`r -= p`. -/
def initBadPrime (si : SieveInfo) (p r : ℕ) (plog : BitVec 8) :
    Option SmallBadPrime :=
  let g := Nat.gcd p r
  let q := p / g
  if q = 1 then do
    assertAlways (r = 0)
    some { g := g, q := q, U := 0, nextPosition := g * si.I % 2 ^ 32, logp := plog }
  else do
    let (rc, U) ← invmod build (r / g) q
    assertAlways (rc ≠ 0)
    some
      { g := g
        q := q
        U := U % 2 ^ 32
        nextPosition := (g * si.I + (si.I / 2 + U) % q) % 2 ^ 32
        logp := plog }

/-- A root that `init_small_sieve` adds to the bad primes. -/
def IsBad (si : SieveInfo) (f : FactorBaseRoot) : Prop :=
  f.p ≤ f.r ∧ Nat.gcd f.p (f.r - f.p) < si.J

instance (si : SieveInfo) (f : FactorBaseRoot) : Decidable (IsBad si f) :=
  inferInstanceAs (Decidable (_ ∧ _))

/-- The bad primes of a list of roots, in order. -/
def initBadPrimes (build : UlarithBuild) (si : SieveInfo) :
    List FactorBaseRoot → Option (List SmallBadPrime)
  | [] => some []
  | f :: fb =>
    if IsBad si f then do
      let b ← initBadPrime build si f.p (f.r - f.p) f.plog
      let bad ← initBadPrimes build si fb
      some (b :: bad)
    else initBadPrimes build si fb

/-- `init_small_sieve`: the bad primes below `thresh`. -/
def initSmallSieve (si : SieveInfo) (thresh : ℕ)
    (fb : List FactorBaseRoot) : Option (List SmallBadPrime) :=
  initBadPrimes build si (fb.takeWhile fun f => f.p < thresh)

/-- `sieve_decrease`. -/
def sieveDecrease (S : ℕ → BitVec 8) (x : ℕ) (logp : BitVec 8) : ℕ → BitVec 8 :=
  fun y => if y = x then S y - logp else S y

/-- `for ( ; i < I; i += step)` over a line; `none` is a lack of fuel. -/
def sieveRow (logp : BitVec 8) (I step linestart : ℕ) :
    ℕ → ℕ → (ℕ → BitVec 8) → Option (ℕ → BitVec 8)
  | 0, _, _ => none
  | fuel + 1, i, S =>
    if i < I then
      sieveRow logp I step linestart fuel (uint32Add i step) (sieveDecrease S (linestart + i) logp)
    else some S

/-- One line of a prime with `q > 1`. -/
def badLine (si : SieveInfo) (b : SmallBadPrime) (linestart lineoffset : ℕ) (S : ℕ → BitVec 8) :
    Option (ℕ → BitVec 8) :=
  let evenq := if b.q % 2 = 0 then b.q else 2 * b.q % 2 ^ 32
  if linestart &&& si.I = 0 then
    -- j is even
    let i := if lineoffset % 2 = 0 then uint32Add lineoffset b.q else lineoffset
    if i % 2 = 1 then sieveRow b.logp si.I evenq linestart (si.I + 1) i S
    else some S
  else sieveRow b.logp si.I b.q linestart (si.I + 1) lineoffset S

/-- The loop over the lines of a prime with `q > 1`, with the values of `linestart` and
`lineoffset` after it. -/
def badLines (si : SieveInfo) (b : SmallBadPrime) :
    ℕ → ℕ → ℕ → (ℕ → BitVec 8) → Option (ℕ × ℕ × (ℕ → BitVec 8))
  | 0, _, _, _ => none
  | fuel + 1, linestart, lineoffset, S =>
    if linestart < bucketRegion then do
      let S ← badLine si b linestart lineoffset S
      let sum := uint32Add lineoffset b.U
      badLines si b fuel (uint32Add linestart (b.g * si.I)) (if sum ≥ b.q then sum - b.q else sum) S
    else some (linestart, lineoffset, S)

/-- `while (S_ptr < end)`: four words of eight bytes in each turn. -/
def sieveWords (logps : ℕ → ℕ) (limit : ℕ) :
    ℕ → ℕ → (ℕ → BitVec 8) → Option (ℕ → BitVec 8)
  | 0, _, _ => none
  | fuel + 1, ptr, S =>
    if ptr < limit then
      let S := subWord S ptr logps
      let S := subWord S (ptr + 8) logps
      let S := subWord S (ptr + 16) logps
      let S := subWord S (ptr + 24) logps
      sieveWords logps limit fuel (ptr + 32) S
    else some S

/-- `logps2` for the line that starts at `i0`. -/
def lineLogps (si : SieveInfo) (logp : BitVec 8) (i0 k : ℕ) : ℕ :=
  if i0 &&& si.I = 0 ∧ k % 2 = 0 then 0 else logp.toNat

/-- The loop over the lines of a prime with `q = 1`, with the value of `i0` after it. -/
def badWords (si : SieveInfo) (b : SmallBadPrime) :
    ℕ → ℕ → (ℕ → BitVec 8) → Option (ℕ × (ℕ → BitVec 8))
  | 0, _, _ => none
  | fuel + 1, i0, S =>
    if i0 < bucketRegion then do
      let S ← sieveWords (lineLogps si b.logp i0) (i0 + 8 * (si.I / 8)) (si.I + 1) i0 S
      badWords si b fuel (uint32Add i0 (b.g * si.I)) S
    else some (i0, S)

/-- The part of `sieve_small_bucket_region` for one bad prime. -/
def sieveBadPrime (si : SieveInfo) (b : SmallBadPrime) (S : ℕ → BitVec 8) :
    Option (SmallBadPrime × (ℕ → BitVec 8)) :=
  let i0 := b.nextPosition
  if b.q = 1 then do
    assertAlways (b.U = 0)
    assertAlways (i0 % si.I = 0)
    assertAlways (si.I % 32 = 0)
    let (i0, S) ← badWords si b (bucketRegion + 1) i0 S
    some ({ b with nextPosition := uint32Add i0 (2 ^ 32 - bucketRegion) }, S)
  else do
    let lineoffset := i0 &&& (si.I - 1)
    let linestart := i0 - lineoffset
    assertAlways (b.U < b.q)
    let (linestart, lineoffset, S) ← badLines si b (bucketRegion + 1) linestart lineoffset S
    some
      ({ b with nextPosition := uint32Add (linestart + lineoffset) (2 ^ 32 - bucketRegion) }, S)

/-- The loop of `sieve_small_bucket_region` over the bad primes. -/
def sieveBadPrimes (si : SieveInfo) :
    List SmallBadPrime → (ℕ → BitVec 8) → Option (List SmallBadPrime × (ℕ → BitVec 8))
  | [], S => some ([], S)
  | b :: bad, S => do
    let (b, S) ← sieveBadPrime si b S
    let (bad, S) ← sieveBadPrimes si bad S
    some (b :: bad, S)

/-- The number of lines of a bucket region. -/
def linesPerRegion (si : SieveInfo) : ℕ := bucketRegion >>> si.logI

/-- `nb_buckets`. -/
def nbBuckets (si : SieveInfo) : ℕ :=
  1 + uint32Add (si.I * si.J) (2 ^ 32 - 1) / bucketRegion

/-- The first position of a bad prime in a thread that skips `nj` lines. -/
def startBadPrime (si : SieveInfo) (nj : ℕ) (b : SmallBadPrime) : SmallBadPrime :=
  let ng := (nj + b.g - 1) / b.g % 2 ^ 32
  let ng := if ng = 0 then ng + 1 else ng
  let x := uint32Add (si.I / 2) (ng * b.U) % b.q
  let j := ng * b.g % 2 ^ 32
  { b with nextPosition := ((j + 2 ^ 64 - nj) % 2 ^ 64 * si.I + x) % 2 ^ 32 }

/-- The loop of `process_regions_one_thread` over the sieve regions, given the arrays that the
bad primes are sieved into, with the arrays after it. -/
def sieveRegions (si : SieveInfo) :
    List SmallBadPrime → List (ℕ → BitVec 8) → Option (List (ℕ → BitVec 8))
  | _, [] => some []
  | bad, S :: regions => do
    let (bad, S) ← sieveBadPrimes si bad S
    let regions ← sieveRegions si bad regions
    some (S :: regions)

/-- `process_regions_one_thread` for thread `id`, where region `i` has the array
`S i` when the bad primes are sieved. -/
def processRegionsOneThread (si : SieveInfo) (nbThreads id : ℕ) (bad : List SmallBadPrime)
    (S : ℕ → ℕ → BitVec 8) : Option (List (ℕ → BitVec 8)) := do
  let nj := linesPerRegion si * (nbBuckets si / nbThreads) * id
  assertAlways (nbBuckets si % nbThreads = 0)
  sieveRegions si (bad.map (startBadPrime si nj))
    ((List.range' (nbBuckets si / nbThreads * id) (nbBuckets si / nbThreads)).map S)

/-! ## Locations -/

/-- The dimensions of a sieve region, as `sieve_info_init` and the reduction of the
special-`q` lattice leave them. -/
structure ValidRegion (si : SieveInfo) : Prop where
  I_eq : si.I = 2 ^ si.logI
  two_le_logI : 2 ≤ si.logI
  logI_lt : si.logI < logBucketRegion
  size_lt : si.I * si.J < 2 ^ 31

/-- The location `x` of region `N` is one of the root `r` modulo `p`: its line
is not the first one, its coordinates are not both even, and `j` is `r * i` modulo
`p`. -/
def Hits (si : SieveInfo) (p r N x : ℕ) : Prop :=
  let j := N * linesPerRegion si + x / si.I
  let i : ℤ := (x % si.I : ℕ) - (si.I / 2 : ℕ)
  x < bucketRegion ∧ 1 ≤ j ∧ ¬(2 ∣ i ∧ 2 ∣ j) ∧ (j : ℤ) ≡ r * i [ZMOD p]

instance (si : SieveInfo) (p r N x : ℕ) : Decidable (Hits si p r N x) :=
  inferInstanceAs (Decidable (_ ∧ _ ∧ _ ∧ _))

/-- The array of region `N` is decreased at the locations of a root. -/
def decrease (si : SieveInfo) (N : ℕ) (S : ℕ → BitVec 8) (f : FactorBaseRoot) : ℕ → BitVec 8 :=
  fun x => if Hits si f.p (f.r - f.p) N x then S x - f.plog else S x

/-- What an entry stores of the root `r` modulo `p`. -/
structure SmallBadPrime.Represents (b : SmallBadPrime) (p r : ℕ) : Prop where
  g_eq : b.g = Nat.gcd p r
  q_eq : b.q = p / b.g
  U_lt : b.U < b.q
  unit : b.U * (r / b.g) ≡ 1 [MOD b.q]

namespace SmallBadPrime.Represents

variable {b : SmallBadPrime} {p r : ℕ}

section

variable (h : b.Represents p r)
include h

theorem g_pos : 0 < b.g := by
  rcases Nat.eq_zero_or_pos b.g with h0 | h0
  · have hq := h.q_eq
    rw [h0, Nat.div_zero] at hq
    have hU := h.U_lt
    omega
  · exact h0

theorem mul_eq : b.g * b.q = p := by
  rw [h.q_eq]
  exact mul_div_cancel' (h.g_eq ▸ Nat.gcd_dvd_left p r)

theorem g_mul_div : b.g * (r / b.g) = r :=
  mul_div_cancel' (h.g_eq ▸ Nat.gcd_dvd_right p r)

/-- The locations of the root: every `g`-th line, and there one residue modulo
`q`. -/
theorem modEq_iff (i : ℤ) (j : ℕ) :
    (j : ℤ) ≡ r * i [ZMOD p] ↔ b.g ∣ j ∧ i ≡ (j / b.g : ℕ) * b.U [ZMOD b.q] := by
  have hg := h.g_pos
  have hp : (p : ℤ) = b.g * b.q := by exact_mod_cast h.mul_eq.symm
  have hr : (r : ℤ) * i = b.g * ((r / b.g : ℕ) * i) := by
    rw [← mul_assoc]
    exact_mod_cast congrArg (fun n : ℕ => (n : ℤ) * i) h.g_mul_div.symm
  have hunit : (b.U : ℤ) * (r / b.g : ℕ) ≡ 1 [ZMOD b.q] := by
    exact_mod_cast Int.natCast_modEq_iff.mpr h.unit
  -- the congruence of one line, divided by g
  have hline : ∀ m : ℤ, (b.g : ℤ) * m ≡ r * i [ZMOD p] ↔ i ≡ m * b.U [ZMOD b.q] := fun m => by
    rw [hp, hr, Int.ModEq.mul_left_cancel_iff' (by exact_mod_cast hg.ne')]
    constructor
    · intro hm
      calc i ≡ b.U * (r / b.g : ℕ) * i [ZMOD b.q] := by
            simpa using (hunit.mul_right i).symm
        _ = b.U * ((r / b.g : ℕ) * i) := by ring
        _ ≡ b.U * m [ZMOD b.q] := hm.symm.mul_left _
        _ = m * b.U := mul_comm _ _
    · intro hi
      calc m ≡ m * (b.U * (r / b.g : ℕ)) [ZMOD b.q] := by
            simpa using (hunit.mul_left m).symm
        _ = (r / b.g : ℕ) * (m * b.U) := by ring
        _ ≡ (r / b.g : ℕ) * i [ZMOD b.q] := hi.symm.mul_left _
  constructor
  · intro hj
    have hdvd : b.g ∣ j := by
      have hmod : (j : ℤ) ≡ r * i [ZMOD b.g] := by
        rw [hp] at hj
        exact hj.of_mul_right _
      have hzero : (r : ℤ) * i ≡ 0 [ZMOD b.g] :=
        Int.modEq_zero_iff_dvd.mpr (hr ▸ dvd_mul_right _ _)
      exact_mod_cast Int.modEq_zero_iff_dvd.mp (hmod.trans hzero)
    refine ⟨hdvd, (hline _).mp ?_⟩
    rwa [← Nat.cast_mul, mul_div_cancel' hdvd]
  · rintro ⟨hdvd, hi⟩
    have hj := (hline _).mpr hi
    rwa [← Nat.cast_mul, mul_div_cancel' hdvd] at hj

end

end SmallBadPrime.Represents

/-! ## Lines -/

/-- The first offset in line `m * g`. -/
def offset (si : SieveInfo) (b : SmallBadPrime) (m : ℕ) : ℕ :=
  (si.I / 2 + m * b.U) % b.q

/-- The offset `o` of line `j` is sieved. -/
def Mark (si : SieveInfo) (b : SmallBadPrime) (j o : ℕ) : Prop :=
  b.g ∣ j ∧ o % b.q = offset si b (j / b.g) ∧ ¬(2 ∣ o ∧ 2 ∣ j)

instance (si : SieveInfo) (b : SmallBadPrime) (j o : ℕ) : Decidable (Mark si b j o) :=
  inferInstanceAs (Decidable (_ ∧ _ ∧ _))

/-- The array of the region from line `L` on, sieved in the lines from `m * g` on. -/
def markedFrom (si : SieveInfo) (b : SmallBadPrime) (L m : ℕ) (S : ℕ → BitVec 8) : ℕ → BitVec 8 :=
  fun x =>
    if x < bucketRegion ∧ m * b.g ≤ L + x / si.I ∧ Mark si b (L + x / si.I) (x % si.I) then
      S x - b.logp
    else S x

/-- The array of the region from line `L` on, sieved in line `m * g`. -/
def markedLine (si : SieveInfo) (b : SmallBadPrime) (L m : ℕ) (S : ℕ → BitVec 8) : ℕ → BitVec 8 :=
  fun x => if L + x / si.I = m * b.g ∧ Mark si b (m * b.g) (x % si.I) then S x - b.logp else S x

section Lines

variable {si : SieveInfo} {b : SmallBadPrime} {p r L m : ℕ} {S : ℕ → BitVec 8}

section

variable (h : ValidRegion si)
include h

theorem ValidRegion.I_pos : 0 < si.I := by
  rw [h.I_eq]
  positivity

theorem ValidRegion.four_dvd : 4 ∣ si.I := by
  rw [h.I_eq]
  exact pow_dvd_pow 2 h.two_le_logI

theorem ValidRegion.I_lt : si.I < bucketRegion := by
  rw [h.I_eq]
  exact Nat.pow_lt_pow_right (by omega) h.logI_lt

theorem ValidRegion.lines_mul :
    linesPerRegion si * si.I = bucketRegion ∧ 2 ∣ linesPerRegion si := by
  have hlt := h.logI_lt
  have hpow : bucketRegion = 2 ^ (logBucketRegion - si.logI) * 2 ^ si.logI := by
    rw [← pow_add, Nat.sub_add_cancel hlt.le]
    rfl
  have hlines : linesPerRegion si = 2 ^ (logBucketRegion - si.logI) := by
    rw [linesPerRegion, Nat.shiftRight_eq_div_pow, hpow, Nat.mul_div_cancel _ (by positivity)]
  rw [hlines, h.I_eq]
  exact ⟨hpow.symm, dvd_pow_self 2 (by omega)⟩

theorem ValidRegion.lt_lines_iff (x : ℕ) : x < bucketRegion ↔ x / si.I < linesPerRegion si := by
  rw [Nat.div_lt_iff_lt_mul h.I_pos, h.lines_mul.1]

theorem ValidRegion.and_eq_zero_iff (x : ℕ) : x &&& si.I = 0 ↔ x / si.I % 2 = 0 := by
  rw [h.I_eq, Nat.and_two_pow, Nat.testBit_eq_decide_div_mod_eq]
  rcases Nat.mod_two_eq_zero_or_one (x / 2 ^ si.logI) with h0 | h1
  · simp [h0]
  · simp [h1]

theorem lineStart_and_iff (hL : 2 ∣ L) (hle : L ≤ m * b.g) :
    (m * b.g - L) * si.I &&& si.I = 0 ↔ 2 ∣ m * b.g := by
  rw [h.and_eq_zero_iff, Nat.mul_div_cancel _ h.I_pos]
  omega

end

theorem offset_succ (hU : b.U < b.q) (m : ℕ) :
    (if offset si b m + b.U ≥ b.q then offset si b m + b.U - b.q else offset si b m + b.U)
      = offset si b (m + 1) := by
  have hlt : offset si b m < b.q := mod_lt _ (by omega)
  have hsucc : offset si b (m + 1) = (offset si b m + b.U) % b.q := by
    rw [offset, offset, Nat.mod_add_mod, add_one_mul, add_assoc]
  rw [hsucc]
  split_ifs with hge
  · rw [Nat.mod_eq_sub_mod hge, mod_eq_of_lt (by omega)]
  · exact (mod_eq_of_lt (by omega)).symm

theorem markedFrom_of_le (h : ValidRegion si) (hle : L + linesPerRegion si ≤ m * b.g) :
    markedFrom si b L m S = S := by
  funext x
  refine if_neg fun hx => ?_
  have hlt := (h.lt_lines_iff x).mp hx.1
  omega

theorem markedFrom_succ (h : ValidRegion si) (hg : 0 < b.g)
    (hlt : m * b.g < L + linesPerRegion si) :
    markedFrom si b L (m + 1) (markedLine si b L m S) = markedFrom si b L m S := by
  funext x
  have hx := h.lt_lines_iff x
  have hsucc : (m + 1) * b.g = m * b.g + b.g := add_one_mul m b.g
  simp only [markedFrom, markedLine]
  by_cases hline : L + x / si.I = m * b.g
  · have hnot : ¬(m + 1) * b.g ≤ L + x / si.I := by omega
    rw [if_neg fun hc => hnot hc.2.1, hline]
    have hin : x < bucketRegion := hx.mpr (by omega)
    simp [hin]
  · rw [if_neg (fun hc : L + x / si.I = m * b.g ∧ _ => hline hc.1)]
    refine if_congr (and_congr_right fun hin => and_congr_left fun hmark => ?_) rfl rfl
    -- between two of the lines there is no line of the prime
    obtain ⟨k, hk⟩ := hmark.1
    rw [hk, mul_comm b.g k] at hline ⊢
    have hne : k ≠ m := fun h => hline (by rw [h])
    rw [Nat.mul_le_mul_right_iff hg, Nat.mul_le_mul_right_iff hg]
    omega

theorem eq_line_add_iff {I t i x : ℕ} (hi : i < I) : x = t * I + i ↔ x / I = t ∧ x % I = i := by
  constructor
  · rintro rfl
    rw [mul_comm, Nat.mul_add_div (by omega), Nat.div_eq_of_lt hi, Nat.mul_add_mod, mod_eq_of_lt hi]
    exact ⟨rfl, rfl⟩
  · rintro ⟨rfl, rfl⟩
    exact (Nat.div_add_mod' x I).symm

theorem offset_iff {step i o : ℕ} (hstep : 0 < step) :
    i ≤ o ∧ o % step = i % step ↔ o = i ∨ i + step ≤ o ∧ o % step = i % step := by
  constructor
  · rintro ⟨hle, hmod⟩
    obtain ⟨k, hk⟩ := (Nat.modEq_iff_dvd' hle).mp hmod.symm
    rcases k with _ | k
    · left
      omega
    · have hmul : step * (k + 1) = step * k + step := mul_add_one step k
      right
      exact ⟨by omega, hmod⟩
  · rintro (rfl | ⟨hle, hmod⟩)
    · exact ⟨le_rfl, rfl⟩
    · exact ⟨by omega, hmod⟩

theorem sieveRow_spec {logp : BitVec 8} {I step t fuel i : ℕ} (hI : 0 < I) (hstep : 0 < step)
    (hfit : I + step ≤ 2 ^ 32) (hfuel : I - i < fuel) :
    sieveRow logp I step (t * I) fuel i S
      = some fun x =>
        if x / I = t ∧ i ≤ x % I ∧ x % I % step = i % step then S x - logp else S x := by
  induction fuel generalizing i S with
  | zero => omega
  | succ fuel ih =>
    rw [sieveRow]
    split_ifs with hi
    · rw [uint32Add, mod_eq_of_lt (by omega), ih (by omega)]
      refine congrArg some (funext fun x => ?_)
      simp only [sieveDecrease, eq_line_add_iff hi, Nat.add_mod_right]
      by_cases hx : x / I = t ∧ x % I = i
      · rw [if_neg (by omega), if_pos hx, if_pos ⟨hx.1, hx.2.ge, by rw [hx.2]⟩]
      · rw [if_neg hx]
        refine if_congr (and_congr_right fun hline => ?_) rfl rfl
        have hne : x % I ≠ i := fun h => hx ⟨hline, h⟩
        rw [offset_iff hstep]
        exact ⟨Or.inr, fun h => h.resolve_left hne⟩
    · refine congrArg some (funext fun x => (if_neg fun hx => ?_).symm)
      have hlt := mod_lt x hI
      omega

theorem mod_two_mul_iff {q i o : ℕ} (hq : q % 2 = 1) (hi : i % 2 = 1) :
    o % (2 * q) = i % (2 * q) ↔ o % 2 = 1 ∧ o % q = i % q := by
  have hcop : Nat.Coprime 2 q := (Nat.coprime_two_left).mpr (Nat.odd_iff.mpr hq)
  have hmod := Nat.modEq_and_modEq_iff_modEq_mul (a := o) (b := i) hcop
  rw [ModEq, ModEq, ModEq, hi] at hmod
  exact hmod.symm

theorem mark_line_iff (hg : 0 < b.g) (o : ℕ) :
    Mark si b (m * b.g) o ↔ o % b.q = offset si b m ∧ ¬(2 ∣ o ∧ 2 ∣ m * b.g) := by
  rw [Mark, Nat.mul_div_cancel _ hg]
  exact and_iff_right (dvd_mul_left _ _)

theorem sieveRow_eq_markedLine (h : ValidRegion si) (hg : 0 < b.g) (hle : L ≤ m * b.g)
    {step i : ℕ} (hstep : 0 < step) (hfit : step ≤ 2 ^ 31)
    (hoffsets : ∀ o, i ≤ o ∧ o % step = i % step
      ↔ o % b.q = offset si b m ∧ ¬(2 ∣ o ∧ 2 ∣ m * b.g)) :
    sieveRow b.logp si.I step ((m * b.g - L) * si.I) (si.I + 1) i S
      = some (markedLine si b L m S) := by
  have hIlt : si.I < 2 ^ 16 := h.I_lt
  rw [sieveRow_spec h.I_pos hstep (by omega) (by omega)]
  refine congrArg some (funext fun x => if_congr ?_ rfl rfl)
  rw [mark_line_iff hg, hoffsets]
  exact and_congr_left fun _ => by omega

/-- One line of a prime with `q > 1`. -/
theorem badLine_spec (h : ValidRegion si) (hU : b.U < b.q) (hq : b.q ≤ 2 ^ 30) (hg : 0 < b.g)
    (hL : 2 ∣ L) (hle : L ≤ m * b.g) :
    badLine si b ((m * b.g - L) * si.I) (offset si b m) S = some (markedLine si b L m S) := by
  have hoff : offset si b m < b.q := mod_lt _ (by omega)
  have heven := lineStart_and_iff h hL hle
  have hge : ∀ {o}, o % b.q = offset si b m → offset si b m ≤ o := fun ho =>
    ho ▸ mod_le _ _
  have hadd : uint32Add (offset si b m) b.q = offset si b m + b.q := mod_eq_of_lt (by omega)
  have hdouble : 2 * b.q % 2 ^ 32 = 2 * b.q := mod_eq_of_lt (by omega)
  simp only [badLine, heven, hadd, hdouble]
  by_cases hj : 2 ∣ m * b.g
  · rw [if_pos hj]
    rcases Nat.mod_two_eq_zero_or_one b.q with hq2 | hq2
    · -- the offsets of the line are all even or all odd
      have hpar : ∀ {o}, o % b.q = offset si b m → o % 2 = offset si b m % 2 := fun {o} ho => by
        rw [← ho, Nat.mod_mod_of_dvd _ (Nat.dvd_of_mod_eq_zero hq2)]
      rw [if_pos hq2]
      rcases Nat.mod_two_eq_zero_or_one (offset si b m) with h0 | h1
      · rw [if_pos h0, if_neg (by omega)]
        refine congrArg some (funext fun x => (if_neg fun hx => ?_).symm)
        have hx' := (mark_line_iff hg _).mp hx.2
        have hpar' := hpar hx'.1
        omega
      · rw [if_neg (by omega : ¬offset si b m % 2 = 0), if_pos h1]
        refine sieveRow_eq_markedLine h hg hle (by omega) (by omega) fun o => ?_
        rw [mod_eq_of_lt hoff]
        refine ⟨fun ho => ⟨ho.2, ?_⟩, fun ho => ⟨hge ho.1, ho.1⟩⟩
        have hpar' := hpar ho.2
        omega
    · -- every second offset is odd
      have hstart : ∃ i,
          (if offset si b m % 2 = 0 then offset si b m + b.q else offset si b m) = i ∧
            i % 2 = 1 ∧ i < 2 * b.q ∧ i % b.q = offset si b m := by
        split_ifs with h0
        · refine ⟨_, rfl, by omega, by omega, ?_⟩
          rw [Nat.add_mod_right, mod_eq_of_lt hoff]
        · exact ⟨_, rfl, by omega, by omega, mod_eq_of_lt hoff⟩
      obtain ⟨i, hi, hodd, hlt, hmod⟩ := hstart
      rw [hi, if_pos hodd, if_neg (by omega : ¬b.q % 2 = 0)]
      refine sieveRow_eq_markedLine h hg hle (by omega) (by omega) fun o => ?_
      constructor
      · intro ho
        obtain ⟨hoodd, homod⟩ := (mod_two_mul_iff hq2 hodd).mp ho.2
        exact ⟨homod.trans hmod, by omega⟩
      · intro ho
        have ho' := (mod_two_mul_iff hq2 hodd).mpr ⟨by omega, ho.1.trans hmod.symm⟩
        have hle' := mod_le o (2 * b.q)
        rw [ho', mod_eq_of_lt hlt] at hle'
        exact ⟨hle', ho'⟩
  · rw [if_neg hj]
    refine sieveRow_eq_markedLine h hg hle (by omega) (by omega) fun o => ?_
    rw [mod_eq_of_lt hoff]
    exact ⟨fun ho => ⟨ho.2, fun h2 => hj h2.2⟩, fun ho => ⟨hge ho.1, ho.1⟩⟩

theorem lineStart_lt_iff (h : ValidRegion si) (hle : L ≤ m * b.g) :
    (m * b.g - L) * si.I < bucketRegion ↔ m * b.g < L + linesPerRegion si := by
  rw [← h.lines_mul.1, Nat.mul_lt_mul_right h.I_pos]
  omega

theorem lineStart_succ (hgI : b.g * si.I < 2 ^ 31) (hle : L ≤ m * b.g)
    (hlt : (m * b.g - L) * si.I < bucketRegion) :
    uint32Add ((m * b.g - L) * si.I) (b.g * si.I) = ((m + 1) * b.g - L) * si.I ∧
      (m * b.g - L) * si.I + b.g * si.I = ((m + 1) * b.g - L) * si.I := by
  have hregion : bucketRegion = 2 ^ 16 := rfl
  have hsum : (m * b.g - L) * si.I + b.g * si.I = ((m + 1) * b.g - L) * si.I := by
    rw [add_one_mul m, ← add_mul]
    congr 1
    omega
  exact ⟨by rw [uint32Add, mod_eq_of_lt (by omega), hsum], hsum⟩

variable (S) in
/-- The lines of one region are marked, up to the next region. -/
theorem badLines_spec (h : ValidRegion si) (hU : b.U < b.q) (hq : b.q ≤ 2 ^ 30) (hg : 0 < b.g)
    (hgI : b.g * si.I < 2 ^ 31) (hL : 2 ∣ L) (fuel : ℕ) (hle : L ≤ m * b.g)
    (hfuel : bucketRegion - (m * b.g - L) * si.I < fuel) :
    ∃ k, badLines si b fuel ((m * b.g - L) * si.I) (offset si b m) S
        = some ((k * b.g - L) * si.I, offset si b k, markedFrom si b L m S) ∧
      m ≤ k ∧ L + linesPerRegion si ≤ k * b.g ∧
      ∀ n, m ≤ n → L + linesPerRegion si ≤ n * b.g → k ≤ n := by
  induction fuel generalizing m S with
  | zero => omega
  | succ fuel ih =>
    have hin := lineStart_lt_iff h hle
    have hregion : bucketRegion = 2 ^ 16 := rfl
    rw [badLines]
    split_ifs with hlt
    · obtain ⟨hnext, hsum⟩ := lineStart_succ hgI hle hlt
      have hsucc : (m + 1) * b.g = m * b.g + b.g := add_one_mul m b.g
      have hoff : offset si b m < b.q := mod_lt _ (by omega)
      have hadd : uint32Add (offset si b m) b.U = offset si b m + b.U :=
        mod_eq_of_lt (by omega)
      have hstep : 0 < b.g * si.I := Nat.mul_pos hg h.I_pos
      obtain ⟨k, hrun, hk, hend, hnextk⟩ := ih (markedLine si b L m S) (m := m + 1)
        (by omega) (by omega)
      refine ⟨k, ?_, by omega, hend, fun n hn hle' => ?_⟩
      · rw [badLine_spec h hU hq hg hL hle, some_bind, hadd, hnext]
        simp only [offset_succ hU]
        rw [hrun, markedFrom_succ h hg (hin.mp hlt)]
      · rcases Nat.eq_or_lt_of_le hn with rfl | hn
        · exact absurd (hin.mp hlt) (by omega)
        · exact hnextk n hn hle'
    · refine ⟨m, ?_, le_rfl, by omega, fun _ hn _ => hn⟩
      rw [markedFrom_of_le h (by omega)]

/-- No byte of a word but the last one borrows from the next one. -/
def NoBorrow (si : SieveInfo) (b : SmallBadPrime) (L m : ℕ) (S : ℕ → BitVec 8) : Prop :=
  ∀ x < bucketRegion, m * b.g ≤ L + x / si.I → Mark si b (L + x / si.I) (x % si.I) → x % 8 ≠ 7 →
    b.logp ≤ S x

theorem sieveWords_spec {w : ℕ → ℕ} {lo limit ptr : ℕ} (fuel : ℕ) (hw : w 7 < 256) (hlo : lo ≤ ptr)
    (hptr : ptr ≤ limit) (halign : ptr % 8 = 0) (hturns : 32 ∣ limit - ptr)
    (hle : ∀ y, ptr ≤ y → y < limit → y % 8 ≠ 7 → w (y % 8) ≤ (S y).toNat)
    (hfuel : limit - ptr < fuel) :
    sieveWords w limit fuel ptr (subBytes S w lo ptr) = some (subBytes S w lo limit) := by
  induction fuel generalizing ptr with
  | zero => omega
  | succ fuel ih =>
    rw [sieveWords]
    split_ifs with hlt
    · have hturn : ptr + 32 ≤ limit := by omega
      have hword : ∀ hi, ptr ≤ hi → hi + 8 ≤ limit → hi % 8 = 0 →
          subWord (subBytes S w lo hi) hi w = subBytes S w lo (hi + 8) := fun hi h1 h2 h3 =>
        subWord_subBytes hw (hlo.trans h1) h3 fun y h4 h5 => hle y (h1.trans h4) (by omega)
      have hword0 := hword ptr le_rfl (by omega) halign
      have hword1 : subWord _ (ptr + 8) w = subBytes S w lo (ptr + 16) :=
        hword (ptr + 8) (by omega) (by omega) (by omega)
      have hword2 : subWord _ (ptr + 16) w = subBytes S w lo (ptr + 24) :=
        hword (ptr + 16) (by omega) (by omega) (by omega)
      have hword3 : subWord _ (ptr + 24) w = subBytes S w lo (ptr + 32) :=
        hword (ptr + 24) (by omega) (by omega) (by omega)
      simp only [hword0, hword1, hword2, hword3]
      exact ih (by omega) hturn (by omega) (by omega) (fun y h1 => hle y (by omega)) (by omega)
    · rw [show ptr = limit by omega]

section

variable (h : ValidRegion si) (hI : 32 ∣ si.I) (hq : b.q = 1) (hg : 0 < b.g) (hL : 2 ∣ L)
  (hle : L ≤ m * b.g)
include h hI hq hg hL hle

theorem lineLogps_eq (x : ℕ) : lineLogps si b.logp ((m * b.g - L) * si.I) (x % 8)
      = if Mark si b (m * b.g) (x % si.I) then b.logp.toNat else 0 := by
  have hparity : 2 ∣ x % si.I ↔ x % 8 % 2 = 0 := by
    rw [Nat.dvd_mod_iff (dvd_trans (by decide) hI)]
    omega
  rw [lineLogps, ← ite_not]
  refine if_congr ?_ rfl rfl
  rw [lineStart_and_iff h hL hle, mark_line_iff hg, offset, hq, Nat.mod_one, Nat.mod_one, hparity,
    and_comm (a := 2 ∣ _)]
  exact (and_iff_right rfl).symm

/-- One line of a prime with `q = 1`. -/
theorem sieveWords_line (hlt : m * b.g < L + linesPerRegion si) (hS : NoBorrow si b L m S) :
    sieveWords (lineLogps si b.logp ((m * b.g - L) * si.I))
        ((m * b.g - L) * si.I + 8 * (si.I / 8)) (si.I + 1) ((m * b.g - L) * si.I) S
      = some (markedLine si b L m S) := by
  have hlimit : 8 * (si.I / 8) = si.I := mul_div_cancel' (dvd_trans (by decide) hI)
  have halign : (m * b.g - L) * si.I % 8 = 0 :=
    Nat.mod_eq_zero_of_dvd (dvd_mul_of_dvd_right (dvd_trans (by decide) hI) _)
  have hline : ∀ x, (m * b.g - L) * si.I ≤ x ∧ x < (m * b.g - L) * si.I + si.I
      ↔ L + x / si.I = m * b.g := fun x => by
    rw [← Nat.le_div_iff_mul_le h.I_pos, ← add_one_mul, ← Nat.div_lt_iff_lt_mul h.I_pos]
    omega
  have hlogp := lineLogps_eq h hI hq hg hL hle
  have hbytes : ∀ y, (m * b.g - L) * si.I ≤ y → y < (m * b.g - L) * si.I + si.I → y % 8 ≠ 7 →
      lineLogps si b.logp ((m * b.g - L) * si.I) (y % 8) ≤ (S y).toNat := fun y h1 h2 hlast => by
    have hy := (hline y).mp ⟨h1, h2⟩
    rw [hlogp]
    split_ifs with hmark
    · rw [← hy] at hmark
      exact hS y ((h.lt_lines_iff y).mpr (by omega)) hy.ge hmark hlast
    · exact Nat.zero_le _
  have hw : lineLogps si b.logp ((m * b.g - L) * si.I) 7 < 256 := by
    have hlogplt := b.logp.isLt
    rw [lineLogps]
    split_ifs <;> omega
  have hrun := sieveWords_spec (si.I + 1) hw le_rfl (Nat.le_add_right _ si.I) halign
    (by rwa [Nat.add_sub_cancel_left]) hbytes (by omega)
  rw [subBytes_self] at hrun
  rw [hlimit, hrun]
  refine congrArg some (funext fun x => ?_)
  simp only [subBytes, markedLine, hline, hlogp]
  by_cases hx : L + x / si.I = m * b.g
  · rw [if_pos hx]
    split_ifs with hmark hboth hboth
    · rw [BitVec.ofNat_toNat, BitVec.setWidth_eq]
    · exact absurd ⟨hx, hmark⟩ hboth
    · exact absurd hboth.2 hmark
    · exact BitVec.sub_zero _
  · rw [if_neg hx, if_neg fun hboth => hx hboth.1]

end

theorem NoBorrow.markedLine (hg : 0 < b.g) (hS : NoBorrow si b L m S) :
    NoBorrow si b L (m + 1) (markedLine si b L m S) := by
  intro x hx hle hmark hlast
  have hsucc : (m + 1) * b.g = m * b.g + b.g := add_one_mul m b.g
  rw [SmallSieve.markedLine, if_neg fun hline => by omega]
  exact hS x hx (by omega) hmark hlast

theorem badWords_spec (h : ValidRegion si) (hI : 32 ∣ si.I) (hq : b.q = 1) (hg : 0 < b.g)
    (hgI : b.g * si.I < 2 ^ 31) (hL : 2 ∣ L) (fuel : ℕ) (hle : L ≤ m * b.g)
    (hS : NoBorrow si b L m S) (hfuel : bucketRegion - (m * b.g - L) * si.I < fuel) :
    ∃ k, badWords si b fuel ((m * b.g - L) * si.I) S
        = some ((k * b.g - L) * si.I, markedFrom si b L m S) ∧
      m ≤ k ∧ L + linesPerRegion si ≤ k * b.g ∧
      ∀ n, m ≤ n → L + linesPerRegion si ≤ n * b.g → k ≤ n := by
  induction fuel generalizing m S with
  | zero => omega
  | succ fuel ih =>
    have hin := lineStart_lt_iff h hle
    rw [badWords]
    split_ifs with hlt
    · obtain ⟨hnext, hsum⟩ := lineStart_succ hgI hle hlt
      have hsucc : (m + 1) * b.g = m * b.g + b.g := add_one_mul m b.g
      have hstep : 0 < b.g * si.I := Nat.mul_pos hg h.I_pos
      obtain ⟨k, hrun, hk, hend, hnextk⟩ := ih (m := m + 1) (by omega)
        (hS.markedLine hg) (by omega)
      refine ⟨k, ?_, by omega, hend, fun n hn hle' => ?_⟩
      · rw [sieveWords_line h hI hq hg hL hle (hin.mp hlt) hS, some_bind, hnext, hrun, markedFrom_succ h hg (hin.mp hlt)]
      · rcases Nat.eq_or_lt_of_le hn with rfl | hn
        · exact absurd (hin.mp hlt) (by omega)
        · exact hnextk n hn hle'
    · refine ⟨m, ?_, le_rfl, by omega, fun _ hn _ => hn⟩
      rw [markedFrom_of_le h (by omega)]

/-! ## One region -/

/-- Line `m * g` is the first one from line `L` on, without line zero. -/
structure IsNextLine (b : SmallBadPrime) (L m : ℕ) : Prop where
  pos : 0 < m
  le : L ≤ m * b.g
  first : ∀ n, 0 < n → L ≤ n * b.g → m ≤ n

/-- The next position of a prime in the region from line `L` on. -/
def IsPosition (si : SieveInfo) (b : SmallBadPrime) (L position : ℕ) : Prop :=
  ∃ m, IsNextLine b L m ∧ position = (m * b.g - L) * si.I + offset si b m

/-- The prime marks its lines from `m * g` on, and is left at its next position. -/
abbrev SievesBadPrime (si : SieveInfo) (b : SmallBadPrime) (L m : ℕ) (S : ℕ → BitVec 8) : Prop :=
  ∃ position, sieveBadPrime si b S
      = some ({ b with nextPosition := position }, markedFrom si b L m S) ∧
    IsPosition si b (L + linesPerRegion si) position

theorem IsNextLine.le_add (h : IsNextLine b L m) : m * b.g - L ≤ b.g := by
  obtain ⟨hpos, hle, hfirst⟩ := h
  rcases m with _ | _ | m
  · omega
  · omega
  · have hlt : ¬L ≤ (m + 1) * b.g := fun hc => by
      have := hfirst (m + 1) (by omega) hc
      omega
    have hsucc : (m + 1 + 1) * b.g = (m + 1) * b.g + b.g := add_one_mul _ _
    omega

theorem IsNextLine.next {L' k : ℕ} (h : IsNextLine b L m) (hL' : L ≤ L') (hmk : m ≤ k)
    (hle : L' ≤ k * b.g) (hfirst : ∀ n, m ≤ n → L' ≤ n * b.g → k ≤ n) : IsNextLine b L' k where
  pos := h.pos.trans_le hmk
  le := hle
  first := fun n hn hn' => hfirst n (h.first n hn (hL'.trans hn')) hn'

/-- The sizes of an entry. -/
structure SmallBadPrime.Valid (si : SieveInfo) (b : SmallBadPrime) : Prop where
  g_pos : 0 < b.g
  g_mul_lt : b.g * si.I < 2 ^ 31
  q_le : b.q ≤ 2 ^ 30
  U_lt : b.U < b.q

theorem SmallBadPrime.Valid.offset_lt (hb : b.Valid si) (m : ℕ) : offset si b m < b.q :=
  mod_lt _ (by have := hb.U_lt; omega)

section

variable (h : ValidRegion si) (hb : b.Valid si)
include h hb

theorem isPosition_next {k : ℕ} (hk : IsNextLine b (L + linesPerRegion si) k) :
    IsPosition si b (L + linesPerRegion si)
      (uint32Add ((k * b.g - L) * si.I + offset si b k) (2 ^ 32 - bucketRegion)) := by
  refine ⟨k, hk, ?_⟩
  have hregion : bucketRegion = 2 ^ 16 := rfl
  have hsplit : (k * b.g - L) * si.I
      = (k * b.g - (L + linesPerRegion si)) * si.I + bucketRegion := by
    have hle := hk.le
    rw [← h.lines_mul.1, ← add_mul]
    congr 1
    omega
  have hmul := Nat.mul_le_mul_right si.I hk.le_add
  have hoff := hb.offset_lt k
  have hgI := hb.g_mul_lt
  have hq := hb.q_le
  rw [uint32Add]
  omega

section

variable (hL : 2 ∣ L) (hm : IsNextLine b L m)
  (hposition : b.nextPosition = (m * b.g - L) * si.I + offset si b m)
include hL hm hposition

theorem sieveBadPrime_words (hq : b.q = 1) (hI : 32 ∣ si.I) (hS : NoBorrow si b L m S) :
    SievesBadPrime si b L m S := by
  have hU := hb.U_lt
  have hzero : ∀ n, offset si b n = 0 := fun n => by
    have := hb.offset_lt n
    omega
  rw [hzero, add_zero] at hposition
  rw [SievesBadPrime, sieveBadPrime, if_pos hq, hposition, assertAlways_of_true (by omega),
    assertAlways_of_true (Nat.mul_mod_left _ _), assertAlways_of_true (Nat.mod_eq_zero_of_dvd hI)]
  obtain ⟨k, hrun, hmk, hend, hnext⟩ := badWords_spec h hI hq hb.g_pos hb.g_mul_lt hL
    (bucketRegion + 1) hm.le hS (by omega)
  have hk := isPosition_next h hb (hm.next (Nat.le_add_right _ _) hmk hend hnext)
  rw [hzero, add_zero] at hk
  simp only [some_bind, hrun]
  exact ⟨_, rfl, hk⟩

theorem sieveBadPrime_lines (hq : b.q ≠ 1) (hfirst : offset si b m < si.I) :
    SievesBadPrime si b L m S := by
  have hmask : b.nextPosition &&& (si.I - 1) = offset si b m := by
    rw [h.I_eq, Nat.and_two_pow_sub_one_eq_mod, ← h.I_eq, hposition, mul_comm (m * b.g - L),
      Nat.mul_add_mod, mod_eq_of_lt hfirst]
  have hstart : b.nextPosition - offset si b m = (m * b.g - L) * si.I := by omega
  obtain ⟨k, hrun, hmk, hend, hnext⟩ := badLines_spec S h hb.U_lt hb.q_le hb.g_pos
    hb.g_mul_lt hL (bucketRegion + 1) hm.le (by omega)
  rw [SievesBadPrime, sieveBadPrime, if_neg hq, assertAlways_of_true hb.U_lt]
  simp only [hmask, hstart, some_bind, hrun]
  exact ⟨_, rfl, isPosition_next h hb (hm.next (Nat.le_add_right _ _) hmk hend hnext)⟩

end

/-- A prime with `q > 1` and a region without a line of the prime: however the position is
split, it is put together again. -/
theorem sieveBadPrime_skip (hm : IsNextLine b L m)
    (hposition : b.nextPosition = (m * b.g - L) * si.I + offset si b m) (hq : b.q ≠ 1)
    (hge : L + linesPerRegion si ≤ m * b.g) :
    SievesBadPrime si b L m S := by
  have hregion : bucketRegion ≤ (m * b.g - L) * si.I := by
    by_contra hc
    have hlt := (lineStart_lt_iff h hm.le).mp (by omega)
    omega
  have hmask : b.nextPosition &&& (si.I - 1) = b.nextPosition % si.I := by
    rw [h.I_eq, Nat.and_two_pow_sub_one_eq_mod]
  have hdiv := Nat.div_add_mod b.nextPosition si.I
  have hstart : ¬b.nextPosition - b.nextPosition % si.I < bucketRegion := by
    have hlines : m * b.g - L ≤ b.nextPosition / si.I := by
      rw [Nat.le_div_iff_mul_le h.I_pos]
      omega
    have hmul := Nat.mul_le_mul_right si.I hlines
    rw [mul_comm (b.nextPosition / si.I)] at hmul
    omega
  have hsum : b.nextPosition - b.nextPosition % si.I + b.nextPosition % si.I
      = (m * b.g - L) * si.I + offset si b m := by omega
  have hk := hm.next (Nat.le_add_right _ _) le_rfl hge fun _ hn _ => hn
  rw [SievesBadPrime, sieveBadPrime, if_neg hq, assertAlways_of_true hb.U_lt]
  simp only [hmask, badLines, hstart, if_false, some_bind, hsum]
  exact ⟨_, by rw [markedFrom_of_le h hge], isPosition_next h hb hk⟩

/-- One prime and one region. -/
theorem sieveBadPrime_spec (hL : 2 ∣ L)
    (hm : IsNextLine b L m) (hposition : b.nextPosition = (m * b.g - L) * si.I + offset si b m)
    (hfirst : m * b.g < L + linesPerRegion si → offset si b m < si.I)
    (hwords : b.q = 1 → 32 ∣ si.I ∧ NoBorrow si b L m S) :
    SievesBadPrime si b L m S := by
  by_cases hq : b.q = 1
  · obtain ⟨hI, hS⟩ := hwords hq
    exact sieveBadPrime_words h hb hL hm hposition hq hI hS
  · by_cases hlt : m * b.g < L + linesPerRegion si
    · exact sieveBadPrime_lines h hb hL hm hposition hq (hfirst hlt)
    · exact sieveBadPrime_skip h hb hm hposition hq (not_lt.mp hlt)

end

end Lines

end CadoNfs.SmallSieve
