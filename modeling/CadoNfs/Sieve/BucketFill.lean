import CadoNfs.Sieve.Plattice
import Mathlib.Data.Nat.Bitwise

/-!
# The bucket sieve of one root

The part of `fill_in_buckets` in `las.c` that sieves one root of one factor
base prime: from the origin of the sieve region, two thresholds decide which of the
two basis vectors is added, in 32-bit arithmetic and with offsets that are clamped
when they leave the region.

Main results:

- Theorem `fillStep_isNextPoint`: one pass leads to the next lattice point of
  the region, or out of it.
- Theorem `reducePlattice_bucketWalk`: after a successful reduction the loop
  visits all lattice points of the region above row zero, each once and in order, and
  pushes those whose coordinates are not both even.
-/

namespace CadoNfs

open LatticeWalk

/-! ## Definitions -/

/-- `LOG_BUCKET_REGION`. -/
def logBucketRegion : ℕ := 16

/-- `bucket_update_t`: a position within a bucket region and the encoded
prime. -/
structure BucketUpdate where
  x : ℕ
  p : ℕ
  deriving DecidableEq, Repr

/-- `bucket_encode_prime`. -/
def bucketEncodePrime (p : ℕ) : ℕ :=
  p / 2 % 2 ^ 16

/-- The two branches at the end of the loop body, at column `i`. -/
def fillStep (pli : PlatticeInfo) (i x : ℕ) : ℕ :=
  let x := if i ≥ pli.b1 then uint32Add x pli.a else x
  if i < pli.b0 then uint32Add x pli.c else x

/-- What is pushed for `x`: the number of the bucket and the update. -/
def bucketPush (p x : ℕ) : ℕ × BucketUpdate :=
  (x >>> logBucketRegion,
    { x := x &&& ((1 <<< logBucketRegion) - 1), p := bucketEncodePrime p })

/-- `while (x < IJ)` of `fill_in_buckets`, with the list of all visited
`x` beside the pushed updates; `none` is a lack of fuel. -/
def bucketLoop (si : SieveInfo) (p : ℕ) (pli : PlatticeInfo) (fuel x : ℕ) :
    Option (List ℕ × List (ℕ × BucketUpdate)) :=
  match fuel with
  | 0 => none
  | fuel + 1 =>
    let evenMask := (1 <<< si.logI) ||| 1
    let maskI := si.I - 1
    let IJ := si.I * si.J % 2 ^ 32
    if x < IJ then do
      let i := x &&& maskI
      let pushed := if x &&& evenMask ≠ 0 then [bucketPush p x] else []
      let (visited, pushes) ← bucketLoop si p pli fuel (fillStep pli i x)
      some (x :: visited, pushed ++ pushes)
    else
      some ([], [])

/-- The walk of `fill_in_buckets`: start at the origin, skip it, and loop. -/
def bucketWalk (si : SieveInfo) (p : ℕ) (pli : PlatticeInfo) :
    Option (List ℕ × List (ℕ × BucketUpdate)) :=
  let x := si.I >>> 1
  bucketLoop si p pli (si.I * si.J + 1) (fillStep pli x x)

/-- The updates that `fill_in_buckets` pushes for one root `r` in the
sieved lattice. -/
def fillInBucketsRoot (si : SieveInfo) (p r : ℕ) : Option (List (ℕ × BucketUpdate)) :=
  if r = 0 then
    some [bucketPush p (si.I + si.I / 2)]
  else if r = p then
    some [(0, { x := si.I / 2 + 1, p := bucketEncodePrime p })]
  else if r > p then
    some []
  else do
    match ← reducePlattice p r si with
    | none => some []
    | some pli => do
      let (_, pushes) ← bucketWalk si p pli
      some pushes

/-! ## The region as a strip of the lattice -/

/-- The point of the lattice that `x` stands for lies in the lattice of the
root. -/
def IsHit (p r I x : ℕ) : Prop :=
  (((x % I : ℕ) : ℤ) - (I : ℤ) / 2, ((x / I : ℕ) : ℤ)) ∈ rootLattice p r

theorem platticeOffset_cases (logI : ℕ) (IJ row column : ℤ)
    (hpos : 0 ≤ row * 2 ^ logI + column) :
    (platticeOffset logI IJ row column = row * 2 ^ logI + column ∧
        row * 2 ^ logI + column ≤ IJ) ∨
      (platticeOffset logI IJ row column = (2 ^ 30 - 1 : ℤ) ∧
        IJ < row * 2 ^ logI + column) := by
  unfold platticeOffset
  by_cases h : row * 2 ^ logI + column > IJ
  · right
    rw [if_pos h]
    exact ⟨by norm_num [int32MaxHalf], h⟩
  · left
    rw [if_neg h]
    exact ⟨Int.toNat_of_nonneg hpos, by omega⟩

section Walk

variable {p r : ℕ} {si : SieveInfo} {pli : PlatticeInfo}

/-- One pass adds the exact step of the strip, or both the new position and the exact
one are outside the region. -/
theorem fillStep_eq (h : PlatticeStored p r si pli) (hI : si.I = 2 ^ si.logI)
    (hIJ : si.I * si.J < 2 ^ 30) {k x : ℕ} (hx : x < si.I * si.J) :
    let e := stripStep si.I pli.alpha pli.beta pli.gamma pli.delta k
    (fillStep pli k x : ℤ) = x + e.1 + si.I * e.2 ∨
      (si.I * si.J ≤ fillStep pli k x ∧ (si.I : ℤ) * si.J < x + e.1 + si.I * e.2) := by
  intro e
  have hIcast : (si.I : ℤ) = 2 ^ si.logI := by exact_mod_cast hI
  have hIJcast : (si.J : ℤ) * 2 ^ si.logI = si.I * si.J := by rw [hIcast, mul_comm]
  have hbasis := h.basis
  have hα := hbasis.alpha_gt
  have hγ := hbasis.gamma_ge
  have hβI : (si.I : ℤ) * 1 ≤ si.I * pli.beta :=
    mul_le_mul_of_nonneg_left hbasis.beta_pos (by omega)
  have hδI : (si.I : ℤ) * 1 ≤ si.I * pli.delta :=
    mul_le_mul_of_nonneg_left hbasis.delta_pos (by omega)
  have haa : pli.beta * 2 ^ si.logI + pli.alpha = si.I * pli.beta + pli.alpha := by
    rw [hIcast, mul_comm]
  have hcc : pli.delta * 2 ^ si.logI + pli.gamma = si.I * pli.delta + pli.gamma := by
    rw [hIcast, mul_comm]
  have ha := platticeOffset_cases si.logI (si.J * 2 ^ si.logI) pli.beta pli.alpha (by omega)
  have hc := platticeOffset_cases si.logI (si.J * 2 ^ si.logI) pli.delta pli.gamma (by omega)
  rw [← h.a_eq, haa, hIJcast] at ha
  rw [← h.c_eq, hcc, hIJcast] at hc
  have hb0 := h.b0_eq
  have hb1 := h.b1_eq
  have hsum : (si.I : ℤ) * (pli.beta + pli.delta) = si.I * pli.beta + si.I * pli.delta := by
    ring
  have hIJ' : (si.I : ℤ) * si.J < 2 ^ 30 := by exact_mod_cast hIJ
  have hx' : (x : ℤ) < si.I * si.J := by exact_mod_cast hx
  rcases hbasis.stripStep_cases (k := k) with
    ⟨h₁, h₂, hstep⟩ | ⟨h₁, h₂, hstep⟩ | ⟨h₁, h₂, hstep⟩
  · have hstep' : e = (pli.alpha, pli.beta) := hstep
    have hfill : fillStep pli k x = uint32Add x pli.a := by
      simp [fillStep, if_pos (show k ≥ pli.b1 by omega), if_neg (show ¬ k < pli.b0 by omega)]
    rw [hfill, hstep', uint32Add, Nat.mod_eq_of_lt (by omega)]
    simp only
    push_cast
    omega
  · have hstep' : e = (pli.gamma, pli.delta) := hstep
    have hfill : fillStep pli k x = uint32Add x pli.c := by
      simp [fillStep, if_neg (show ¬ k ≥ pli.b1 by omega), if_pos (show k < pli.b0 by omega)]
    rw [hfill, hstep', uint32Add, Nat.mod_eq_of_lt (by omega)]
    simp only
    push_cast
    omega
  · have hstep' : e = (pli.alpha + pli.gamma, pli.beta + pli.delta) := hstep
    have hfill : fillStep pli k x = uint32Add (uint32Add x pli.a) pli.c := by
      simp [fillStep, if_pos (show k ≥ pli.b1 by omega), if_pos (show k < pli.b0 by omega)]
    rw [hfill, hstep', uint32Add, uint32Add, Nat.mod_eq_of_lt (by omega : x + pli.a < 2 ^ 32),
      Nat.mod_eq_of_lt (by omega)]
    simp only [hsum]
    push_cast
    omega

theorem coordinates_of_eq {I : ℕ} {x : ℕ} {k j : ℤ} (hk : 0 ≤ k) (hkI : k < I)
    (hx : (x : ℤ) = k + I * j) : ((x % I : ℕ) : ℤ) = k ∧ ((x / I : ℕ) : ℤ) = j := by
  have hI : (0 : ℤ) < I := by omega
  constructor
  · rw [Int.natCast_mod, hx, Int.add_mul_emod_self_left, Int.emod_eq_of_lt hk hkI]
  · rw [Int.natCast_ediv, hx, Int.add_mul_ediv_left _ _ hI.ne',
      Int.ediv_eq_zero_of_lt hk hkI, zero_add]

theorem position_eq (I x : ℕ) : (x : ℤ) = ((x % I : ℕ) : ℤ) + I * ((x / I : ℕ) : ℤ) := by
  exact_mod_cast (Nat.mod_add_div x I).symm

/-- One pass from a point of the lattice leads to the next one, or out of the
region. -/
theorem fillStep_isNextPoint (h : PlatticeStored p r si pli) (hI : si.I = 2 ^ si.logI)
    (hIJ : si.I * si.J < 2 ^ 30) {x : ℕ} (hhit : IsHit p r si.I x)
    (hx : x < si.I * si.J) :
    IsNextPoint (IsHit p r si.I) (si.I * si.J) x (fillStep pli (x % si.I) x) := by
  have hIpos : 0 < si.I := by rw [hI]; exact Nat.two_pow_pos _
  have hk : (0 : ℤ) ≤ ((x % si.I : ℕ) : ℤ) := Int.natCast_nonneg _
  have hkI : ((x % si.I : ℕ) : ℤ) < si.I := by exact_mod_cast Nat.mod_lt x hIpos
  have hxeq := position_eq si.I x
  have hstep := fillStep_eq h hI hIJ (k := x % si.I) hx
  obtain ⟨hleft, hright, hrow⟩ := h.basis.stripStep_strip hk hkI
  have hmem := h.basis.stripStep_mem (k := ((x % si.I : ℕ) : ℤ))
  have hmin := fun z : ℤ × ℤ => h.basis.stripStep_minimal hk hkI (x := z)
  simp only at hstep
  generalize stripStep si.I pli.alpha pli.beta pli.gamma pli.delta
    ((x % si.I : ℕ) : ℤ) = e at *
  have hIe : (si.I : ℤ) * 1 ≤ si.I * e.2 := mul_le_mul_of_nonneg_left hrow (by omega)
  have hIJcast : ((si.I * si.J : ℕ) : ℤ) = si.I * si.J := by push_cast; rfl
  refine ⟨by omega, ?_, ?_⟩
  · intro hlt
    have hexact : (fillStep pli (x % si.I) x : ℤ)
        = (((x % si.I : ℕ) : ℤ) + e.1) + si.I * (((x / si.I : ℕ) : ℤ) + e.2) := by
      rw [mul_add]
      omega
    obtain ⟨hcol, hrow'⟩ := coordinates_of_eq hleft hright hexact
    unfold IsHit at hhit ⊢
    rw [hcol, hrow']
    have hadd := (rootLattice (p : ℤ) r).add_mem hhit hmem
    rwa [show ((((x % si.I : ℕ) : ℤ) - (si.I : ℤ) / 2, ((x / si.I : ℕ) : ℤ)) : ℤ × ℤ) + e
      = (((x % si.I : ℕ) : ℤ) + e.1 - (si.I : ℤ) / 2, ((x / si.I : ℕ) : ℤ) + e.2) from
      Prod.ext (by simp only [Prod.fst_add]; ring) rfl] at hadd
  · intro z hz hxz hzlt
    have hzeq := position_eq si.I z
    have hzk : ((z % si.I : ℕ) : ℤ) < si.I := by exact_mod_cast Nat.mod_lt z hIpos
    have hzk0 : (0 : ℤ) ≤ ((z % si.I : ℕ) : ℤ) := Int.natCast_nonneg _
    have hrows : ((x / si.I : ℕ) : ℤ) ≤ ((z / si.I : ℕ) : ℤ) := by
      exact_mod_cast Nat.div_le_div_right hxz.le
    have hdiff := (rootLattice (p : ℤ) r).sub_mem hz hhit
    rw [show ((((z % si.I : ℕ) : ℤ) - (si.I : ℤ) / 2, ((z / si.I : ℕ) : ℤ)) : ℤ × ℤ)
        - (((x % si.I : ℕ) : ℤ) - (si.I : ℤ) / 2, ((x / si.I : ℕ) : ℤ))
      = (((z % si.I : ℕ) : ℤ) - ((x % si.I : ℕ) : ℤ),
          ((z / si.I : ℕ) : ℤ) - ((x / si.I : ℕ) : ℤ)) from
      Prod.ext (by simp only [Prod.fst_sub]; ring) rfl] at hdiff
    have hnext := hmin _ hdiff (by simp only; omega) (by simp only; omega)
      (by simp only; omega) (by
        intro heq
        simp only [Prod.ext_iff, Prod.fst_zero, Prod.snd_zero] at heq
        have hrow0 : ((z / si.I : ℕ) : ℤ) = ((x / si.I : ℕ) : ℤ) := by omega
        rw [hrow0] at hzeq
        omega)
    have hexact : (x : ℤ) + e.1 + si.I * e.2 ≤ z := by
      rcases hnext with hlater | heq
      · have hmul : (si.I : ℤ) * (((x / si.I : ℕ) : ℤ) + e.2 + 1)
            ≤ si.I * ((z / si.I : ℕ) : ℤ) :=
          mul_le_mul_of_nonneg_left (by simp only at hlater; omega) (by omega)
        rw [mul_add, mul_add] at hmul
        omega
      · rw [← heq]
        simp only [mul_sub]
        omega
    omega

end Walk

/-! ## The loop -/

theorem evenMask_eq_zero_iff (logI x : ℕ) :
    x &&& ((1 <<< logI) ||| 1) = 0 ↔ x % 2 = 0 ∧ x / 2 ^ logI % 2 = 0 := by
  rw [Nat.and_or_distrib_left, Nat.or_eq_zero_iff, Nat.and_one_is_mod, Nat.one_shiftLeft,
    Nat.and_two_pow, and_comm, Nat.testBit_eq_decide_div_mod_eq]
  rcases Nat.mod_two_eq_zero_or_one (x / 2 ^ logI) with h | h <;> simp [h]

/-- The coordinates `i` and `j` of a position are not both even. -/
def notBothEven (I x : ℕ) : Bool :=
  !decide ((((x % I : ℕ) : ℤ) - (I : ℤ) / 2) % 2 = 0 ∧ x / I % 2 = 0)

theorem notBothEven_iff {logI x : ℕ} (hlog : 1 < logI) :
    notBothEven (2 ^ logI) x = true ↔ x &&& ((1 <<< logI) ||| 1) ≠ 0 := by
  have hfour : (2 : ℕ) ^ logI = 4 * 2 ^ (logI - 2) := by
    rw [show (4 : ℕ) = 2 ^ 2 by rfl, ← pow_add]
    congr 1
    omega
  have hx := Nat.mod_add_div x (2 ^ logI)
  have hpar : (((x % 2 ^ logI : ℕ) : ℤ) - ((2 ^ logI : ℕ) : ℤ) / 2) % 2 = 0 ↔ x % 2 = 0 := by
    have hrow : 2 ^ logI * (x / 2 ^ logI) = 4 * (2 ^ (logI - 2) * (x / 2 ^ logI)) := by
      rw [← mul_assoc, ← hfour]
    omega
  rw [ne_eq, evenMask_eq_zero_iff]
  simp only [notBothEven, Bool.not_eq_true', decide_eq_false_iff_not, hpar]

theorem bucketLoop_eq (si : SieveInfo) (p : ℕ) (pli : PlatticeInfo) (hlog : 1 < si.logI)
    (hI : si.I = 2 ^ si.logI) (hIJ : si.I * si.J < 2 ^ 30) (fuel x : ℕ) :
    bucketLoop si p pli fuel x
      = (enumerateBelow (fun x => fillStep pli (x % si.I) x) (si.I * si.J) fuel x).map
          fun xs => (xs, (xs.filter (notBothEven si.I)).map (bucketPush p)) := by
  induction fuel generalizing x with
  | zero => rfl
  | succ fuel ih =>
    have hmod : si.I * si.J % 2 ^ 32 = si.I * si.J := Nat.mod_eq_of_lt (by omega)
    have hcol : x &&& (si.I - 1) = x % si.I := by
      rw [hI]
      exact Nat.and_two_pow_sub_one_eq_mod x si.logI
    have heven := notBothEven_iff (x := x) hlog
    rw [← hI] at heven
    simp only [bucketLoop, enumerateBelow, hmod, hcol]
    by_cases hlt : x < si.I * si.J
    · rw [if_pos hlt, if_pos hlt, ih]
      cases enumerateBelow (fun x => fillStep pli (x % si.I) x) (si.I * si.J) fuel
          (fillStep pli (x % si.I) x) with
      | none => rfl
      | some xs =>
        by_cases hpar : notBothEven si.I x = true
        · simp [heven.mp hpar, hpar]
        · have hzero : x &&& ((1 <<< si.logI) ||| 1) = 0 := by
            by_contra hne
            exact hpar (heven.mpr hne)
          simp [hzero, hpar]
    · simp [hlt]

/-! ## The whole walk -/

/-- A location that is hit, in coordinates of the lattice. -/
theorem isHit_iff {p r I J x : ℕ} (hI : 0 < I) (heven : I % 2 = 0) (hIp : I ≤ p) :
    (I / 2 < x ∧ x < I * J ∧ IsHit p r I x) ↔
      ∃ i j : ℤ, -((I : ℤ) / 2) ≤ i ∧ i < (I : ℤ) / 2 ∧ 0 < j ∧ j < J ∧
        i ≡ r * j [ZMOD p] ∧ (x : ℤ) = i + (I : ℤ) / 2 + I * j := by
  have hxeq := position_eq I x
  have hcol : ((x % I : ℕ) : ℤ) < I := by exact_mod_cast Nat.mod_lt x hI
  have hcol0 : (0 : ℤ) ≤ ((x % I : ℕ) : ℤ) := Int.natCast_nonneg _
  constructor
  · rintro ⟨hlow, hhigh, hhit⟩
    refine ⟨((x % I : ℕ) : ℤ) - (I : ℤ) / 2, ((x / I : ℕ) : ℤ), by omega, by omega, ?_, ?_,
      hhit, by omega⟩
    · -- row zero has only the origin, since the prime is at least the line width
      by_contra hrow
      have hrow0 : ((x / I : ℕ) : ℤ) = 0 := by
        have := Int.natCast_nonneg (x / I)
        omega
      have hmod : ((x % I : ℕ) : ℤ) - (I : ℤ) / 2 ≡ 0 [ZMOD p] := by
        have hmem : ((x % I : ℕ) : ℤ) - (I : ℤ) / 2 ≡ r * ((x / I : ℕ) : ℤ) [ZMOD p] := hhit
        rwa [hrow0, mul_zero] at hmem
      rw [hrow0, mul_zero, add_zero] at hxeq
      have hdvd := Int.modEq_zero_iff_dvd.mp hmod
      have hle := Int.le_of_dvd (by omega) hdvd
      omega
    · exact_mod_cast Nat.div_lt_of_lt_mul hhigh
  · rintro ⟨i, j, hi, hi', hj, hjJ, hmem, hx⟩
    obtain ⟨hk, hrow⟩ := coordinates_of_eq (k := i + (I : ℤ) / 2) (by omega) (by omega) hx
    have hmul : (I : ℤ) * (j + 1) ≤ I * J := mul_le_mul_of_nonneg_left (by omega) (by omega)
    have hmul1 : (I : ℤ) * 1 ≤ I * j := mul_le_mul_of_nonneg_left hj (by omega)
    rw [mul_add] at hmul
    refine ⟨by omega, by zify; omega, ?_⟩
    unfold IsHit
    rw [hk, hrow, mem_rootLattice]
    simpa using hmem

/-- The walk of the bucket sieve lists the hits above row zero in increasing order and
pushes those whose coordinates are not both even. -/
theorem bucketWalk_spec {p r : ℕ} {si : SieveInfo} {pli : PlatticeInfo}
    (h : PlatticeStored p r si pli) (hlog : 1 < si.logI) (hI : si.I = 2 ^ si.logI)
    (hIJ : si.I * si.J < 2 ^ 30) (hIp : si.I ≤ p) :
    ∃ visited, bucketWalk si p pli
        = some (visited, (visited.filter (notBothEven si.I)).map (bucketPush p)) ∧
      visited.Pairwise (· < ·) ∧
      ∀ x, x ∈ visited ↔ ∃ i j : ℤ, -((si.I : ℤ) / 2) ≤ i ∧ i < (si.I : ℤ) / 2 ∧ 0 < j ∧
        j < si.J ∧ i ≡ r * j [ZMOD p] ∧ (x : ℤ) = i + (si.I : ℤ) / 2 + si.I * j := by
  have hfour : 4 ≤ si.I := by
    rw [hI]
    calc 4 = 2 ^ 2 := rfl
      _ ≤ 2 ^ si.logI := Nat.pow_le_pow_right (by omega) hlog
  have heven : si.I % 2 = 0 := by
    rw [hI, show si.logI = si.logI - 1 + 1 by omega, pow_succ]
    omega
  have hhalf : si.I >>> 1 = si.I / 2 := Nat.shiftRight_eq_div_pow _ 1
  have hmod : si.I / 2 % si.I = si.I / 2 := Nat.mod_eq_of_lt (by omega)
  have horigin : IsHit p r si.I (si.I / 2) := by
    unfold IsHit
    rw [hmod, Nat.div_eq_of_lt (by omega : si.I / 2 < si.I)]
    simp
  simp only [← isHit_iff (J := si.J) (by omega : 0 < si.I) heven hIp]
  rw [bucketWalk, hhalf, bucketLoop_eq si p pli hlog hI hIJ]
  rcases Nat.eq_zero_or_pos si.J with hJ | hJ
  · -- an empty region
    refine ⟨[], ?_, List.Pairwise.nil, ?_⟩
    · simp [enumerateBelow, hJ]
    · intro x
      simp [hJ]
  · have hbound : si.I / 2 < si.I * si.J := by
      have := Nat.le_mul_of_pos_right si.I hJ
      omega
    have hstart := fillStep_isNextPoint h hI hIJ horigin hbound
    rw [hmod] at hstart
    obtain ⟨xs, hxs, hsorted, hmem⟩ := enumerateBelow_spec
      (fun x hx hlt => fillStep_isNextPoint h hI hIJ hx hlt) (si.I * si.J + 1)
      (fillStep pli (si.I / 2) (si.I / 2)) (by have := hstart.lt; omega) (by omega)
      hstart.point
    refine ⟨xs, by rw [hxs, Option.map_some], hsorted, ?_⟩
    intro x
    rw [hmem x]
    constructor
    · rintro ⟨hle, hlt, hx⟩
      exact ⟨hstart.lt.trans_le hle, hlt, hx⟩
    · rintro ⟨hlow, hlt, hx⟩
      exact ⟨hstart.least x hx hlow hlt, hlt, hx⟩

/-- For every line width and region below the 32-bit limits, every `p` at least as
large as the line width and every nonzero root: the reduction ends without overflow; it
returns zero only if `p` and the root have a common factor, and
otherwise a basis reduced for the line width, from which the loop of the bucket sieve
visits exactly the lattice points of the region above row zero, in strictly increasing
order, and pushes those whose coordinates are not both even. -/
theorem reducePlattice_bucketWalk {logI J p r : ℕ} (hlog : 1 < logI)
    (hIJ : 2 ^ logI * J < 2 ^ 30) (hIp : 2 ^ logI ≤ p) (hp : p < 2 ^ 31) (hr : 0 < r) (hrp : r < p) :
    let si : SieveInfo := { logI := logI, I := 2 ^ logI, J := J }
    let I : ℤ := 2 ^ logI
    (reducePlattice p r si = some none ∧ 1 < Nat.gcd p r) ∨
      ∃ pli, reducePlattice p r si = some (some pli) ∧
        Submodule.span ℤ {(pli.alpha, pli.beta), (pli.gamma, pli.delta)} = rootLattice p r ∧
        LinearIndependent ℤ ![(pli.alpha, pli.beta), (pli.gamma, pli.delta)] ∧
        0 < pli.beta ∧ 0 < pli.delta ∧ -I < pli.alpha ∧ pli.alpha ≤ 0 ∧ 0 ≤ pli.gamma ∧
        pli.gamma < I ∧ I ≤ pli.gamma - pli.alpha ∧
        ∃ visited, bucketWalk si p pli
            = some (visited, (visited.filter (notBothEven (2 ^ logI))).map (bucketPush p)) ∧
          visited.Pairwise (· < ·) ∧
          ∀ x, x ∈ visited ↔ ∃ i j : ℤ, -(I / 2) ≤ i ∧ i < I / 2 ∧ 0 < j ∧ j < J ∧
            i ≡ r * j [ZMOD p] ∧ (x : ℤ) = i + I / 2 + I * j := by
  intro si I
  have hI : ((si.I : ℕ) : ℤ) = I := by simp [si, I]
  have hone : 1 < si.I := Nat.one_lt_two_pow (by omega)
  rcases reducePlattice_spec hone hIp hp hr hrp with hzero | ⟨pli, hpli, hstored⟩
  · exact Or.inl hzero
  · right
    obtain ⟨visited, hwalk, hsorted, hmem⟩ := bucketWalk_spec hstored hlog rfl hIJ hIp
    have hbasis := hstored.basis
    rw [hI] at hbasis
    rw [hI] at hmem
    exact ⟨pli, hpli, hbasis.span_eq, hbasis.linearIndependent, hbasis.beta_pos,
      hbasis.delta_pos, hbasis.alpha_gt, hbasis.alpha_le, hbasis.gamma_ge, hbasis.gamma_lt,
      hbasis.width, visited, hwalk, hsorted, hmem⟩

/-- The theorem at a line width of 16, eight lines and the root 7 of 101. -/
theorem reducePlattice_bucketWalk_width16 :
    (reducePlattice 101 7 { logI := 4, I := 16, J := 8 } = some none ∧ 1 < Nat.gcd 101 7) ∨
      ∃ pli, reducePlattice 101 7 { logI := 4, I := 16, J := 8 } = some (some pli) ∧
        ∃ visited pushes,
          bucketWalk { logI := 4, I := 16, J := 8 } 101 pli = some (visited, pushes) ∧
          visited.Pairwise (· < ·) := by
  rcases reducePlattice_bucketWalk (J := 8) (p := 101) (r := 7)
    (show 1 < 4 by decide) (by decide) (by decide) (by decide) (by decide) (by decide) with
    hzero | ⟨pli, hpli, -, -, -, -, -, -, -, -, -, visited, hwalk, hsorted, -⟩
  · exact Or.inl hzero
  · exact Or.inr ⟨pli, hpli, visited, _, hwalk, hsorted⟩

end CadoNfs
