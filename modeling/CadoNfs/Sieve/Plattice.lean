import CadoNfs.Lib.ReducedLattice
import CadoNfs.Macros

/-!
# Reduction of a prime's lattice for the line sieve

`reduce_plattice` of `las.c`: a Euclidean reduction that subtracts while
both numbers are large and divides once, as soon as one of them is below the width
of the sieve line.

Main results:

- Theorem `reducePlattice_spec`: the reduction ends without leaving the range
  of `int32_t` and without a failed assertion, either with a reduced basis or,
  only if the root and the prime power have a common factor, with zero.
-/

namespace CadoNfs

open LatticeWalk

/-! ## Data -/

/-- The fields of `sieve_info_t` that the reduction and the bucket sieve
read. -/
structure SieveInfo where
  logI : ℕ
  I : ℕ
  J : ℕ
  deriving DecidableEq, Repr

/-- `plattice_info_t`. -/
structure PlatticeInfo where
  alpha : ℤ
  beta : ℤ
  gamma : ℤ
  delta : ℤ
  /-- Sieving offsets in x-coordinate, as stored in 32 bits. -/
  a : ℕ
  c : ℕ
  /-- Thresholds for the branch inside the siever. -/
  b0 : ℕ
  b1 : ℕ
  deriving DecidableEq, Repr

/-- The four signed variables of the reduction. -/
structure PlatticeState where
  a0 : ℤ
  a1 : ℤ
  b0 : ℤ
  b1 : ℤ
  deriving DecidableEq, Repr

/-- A value of type `int32_t`; `none` is a signed overflow. -/
def int32 (x : ℤ) : Option ℤ :=
  if -2 ^ 31 ≤ x ∧ x < 2 ^ 31 then some x else none

/-- `INT32_MAX / 2`, what an offset that leaves the sieve region is clamped
to. -/
def int32MaxHalf : ℕ := (2 ^ 31 - 1) / 2

/-! ## The reduction -/

/-- `do { a0 += b0; a1 += b1; } while (a0 + b0 <= 0)`; `none` is an
overflow or a lack of fuel. -/
def subtractFromA (fuel : ℕ) (s : PlatticeState) : Option PlatticeState :=
  match fuel with
  | 0 => none
  | fuel + 1 => do
    let a0 ← int32 (s.a0 + s.b0)
    let a1 ← int32 (s.a1 + s.b1)
    let test ← int32 (a0 + s.b0)
    if test ≤ 0 then
      subtractFromA fuel { s with a0 := a0, a1 := a1 }
    else
      some { s with a0 := a0, a1 := a1 }

/-- `do { b0 += a0; b1 += a1; } while (b0 + a0 >= 0)`. -/
def subtractFromB (fuel : ℕ) (s : PlatticeState) : Option PlatticeState :=
  match fuel with
  | 0 => none
  | fuel + 1 => do
    let b0 ← int32 (s.b0 + s.a0)
    let b1 ← int32 (s.b1 + s.a1)
    let test ← int32 (b0 + s.a0)
    if test ≥ 0 then
      subtractFromB fuel { s with b0 := b0, b1 := b1 }
    else
      some { s with b0 := b0, b1 := b1 }

/-- The classical division of `b` by `a` that leaves the loop. -/
def divideB (I : ℤ) (s : PlatticeState) : Option PlatticeState := do
  let d ← int32 (s.b0 - I)
  let m ← int32 (-s.a0)
  let k ← int32 (1 + d.tdiv m)
  let ka0 ← int32 (k * s.a0)
  let b0 ← int32 (s.b0 + ka0)
  let ka1 ← int32 (k * s.a1)
  let b1 ← int32 (s.b1 + ka1)
  some { s with b0 := b0, b1 := b1 }

/-- The classical division of `a` by `b` after the loop. -/
def divideA (I : ℤ) (s : PlatticeState) : Option PlatticeState := do
  let m ← int32 (-s.a0)
  let d ← int32 (m - I)
  let k ← int32 (1 + d.tdiv s.b0)
  let kb0 ← int32 (k * s.b0)
  let a0 ← int32 (s.a0 + kb0)
  let kb1 ← int32 (k * s.b1)
  let a1 ← int32 (s.a1 + kb1)
  some { s with a0 := a0, a1 := a1 }

/-- The reduction up to the label `case_even`; an inner `none` is
`return 0`. -/
def reducePlatticeLoop (I : ℤ) (fuel : ℕ) (s : PlatticeState) :
    Option (Option PlatticeState) :=
  match fuel with
  | 0 => none
  | fuel + 1 =>
    if s.b0 ≥ I then do
      let s ← subtractFromA fuel s
      let m ← int32 (-s.a0)
      if m < I then
        if s.a0 = 0 then
          some none
        else do
          let s ← divideB I s
          some (some s)
      else do
        let s ← subtractFromB fuel s
        reducePlatticeLoop I fuel s
    else if s.b0 = 0 then
      some none
    else do
      let s ← divideA I s
      some (some s)

/-- The assertions on the reduced basis. -/
def platticeAsserts (I : ℤ) (s : PlatticeState) : Prop :=
  s.a1 > 0 ∧ s.b1 > 0 ∧ (s.a0 ≤ 0 ∧ s.a0 > -I) ∧ (s.b0 ≥ 0 ∧ s.b0 < I) ∧ s.b0 - s.a0 ≥ I

instance (I : ℤ) (s : PlatticeState) : Decidable (platticeAsserts I s) := by
  unfold platticeAsserts
  infer_instance

/-- A sieving offset as stored: the exact one, or the clamped one if it exceeds the
sieve region. -/
def platticeOffset (logI : ℕ) (IJ : ℤ) (row column : ℤ) : ℕ :=
  let aa := row * 2 ^ logI + column
  if aa > IJ then int32MaxHalf else aa.toNat

/-- What `reduce_plattice` stores from the label `case_even` on;
`none` is a failed assertion. -/
def platticeStore (si : SieveInfo) (s : PlatticeState) : Option PlatticeInfo :=
  let I : ℤ := si.I
  let IJ : ℤ := si.J * 2 ^ si.logI
  if platticeAsserts I s then
    some
      { alpha := s.a0, beta := s.a1, gamma := s.b0, delta := s.b1
        a := platticeOffset si.logI IJ s.a1 s.a0
        c := platticeOffset si.logI IJ s.b1 s.b0
        b0 := (-s.a0).toNat
        b1 := (I - s.b0).toNat }
  else
    none

/-- `reduce_plattice`: an inner `none` is the return value zero, an outer
one an overflow, a failed assertion or more passes than `p + r`. -/
def reducePlattice (p r : ℕ) (si : SieveInfo) : Option (Option PlatticeInfo) := do
  let a0 ← int32 (-p)
  let b0 ← int32 r
  let reduced ← reducePlatticeLoop si.I (p + r + 1) { a0 := a0, a1 := 0, b0 := b0, b1 := 1 }
  match reduced with
  | none => some none
  | some s => do
    let pli ← platticeStore si s
    some (some pli)

/-! ## The invariant -/

/-- Both vectors lie in the lattice, they have determinant `p`, and the signs
are those of the comments in the code. -/
structure PlatticeInv (p r : ℤ) (s : PlatticeState) : Prop where
  a_mem : s.a0 ≡ r * s.a1 [ZMOD p]
  b_mem : s.b0 ≡ r * s.b1 [ZMOD p]
  det : s.b0 * s.a1 - s.a0 * s.b1 = p
  a0_le : s.a0 ≤ 0
  b0_ge : 0 ≤ s.b0
  a1_ge : 0 ≤ s.a1
  b1_pos : 0 < s.b1
  a0_gt : -p ≤ s.a0
  b0_lt : s.b0 ≤ p

theorem int32_of_bounds {x : ℤ} (hlow : -2 ^ 31 ≤ x) (hhigh : x < 2 ^ 31) :
    int32 x = some x := by
  rw [int32, if_pos ⟨hlow, hhigh⟩]

namespace PlatticeInv

variable {p r : ℤ} {s : PlatticeState}

section

variable (h : PlatticeInv p r s)
include h

theorem a1_le (hb : 0 < s.b0) : s.a1 ≤ p := by
  have hprod : 0 ≤ -s.a0 * s.b1 := mul_nonneg (by linarith [h.a0_le]) h.b1_pos.le
  have hmul : 1 * s.a1 ≤ s.b0 * s.a1 := mul_le_mul_of_nonneg_right hb h.a1_ge
  linarith [h.det]

theorem b1_le (ha : s.a0 < 0) : s.b1 ≤ p := by
  have hprod : 0 ≤ s.b0 * s.a1 := mul_nonneg h.b0_ge h.a1_ge
  have hmul : 1 * s.b1 ≤ -s.a0 * s.b1 :=
    mul_le_mul_of_nonneg_right (by omega) h.b1_pos.le
  linarith [h.det]

theorem addToA {k : ℤ} (hk : 0 ≤ k) (hle : s.a0 + k * s.b0 ≤ 0) :
    PlatticeInv p r { s with a0 := s.a0 + k * s.b0, a1 := s.a1 + k * s.b1 } where
  a_mem := by
    have hmem := h.a_mem.add (h.b_mem.mul_left k)
    rwa [show r * s.a1 + k * (r * s.b1) = r * (s.a1 + k * s.b1) by ring] at hmem
  b_mem := h.b_mem
  det := by
    simp only
    linear_combination h.det
  a0_le := hle
  b0_ge := h.b0_ge
  a1_ge := add_nonneg h.a1_ge (mul_nonneg hk h.b1_pos.le)
  b1_pos := h.b1_pos
  a0_gt := by
    have := mul_nonneg hk h.b0_ge
    have := h.a0_gt
    simp only
    omega
  b0_lt := h.b0_lt

theorem addToB {k : ℤ} (hk : 0 ≤ k) (hge : 0 ≤ s.b0 + k * s.a0) :
    PlatticeInv p r { s with b0 := s.b0 + k * s.a0, b1 := s.b1 + k * s.a1 } where
  a_mem := h.a_mem
  b_mem := by
    have hmem := h.b_mem.add (h.a_mem.mul_left k)
    rwa [show r * s.b1 + k * (r * s.a1) = r * (s.b1 + k * s.a1) by ring] at hmem
  det := by
    simp only
    linear_combination h.det
  a0_le := h.a0_le
  b0_ge := hge
  a1_ge := h.a1_ge
  b1_pos := add_pos_of_pos_of_nonneg h.b1_pos (mul_nonneg hk h.a1_ge)
  a0_gt := h.a0_gt
  b0_lt := by
    have := mul_nonneg hk (show 0 ≤ -s.a0 by linarith [h.a0_le])
    have := h.b0_lt
    simp only
    linarith

end

end PlatticeInv

/-! ## The subtracting loops -/

section

variable {p r : ℤ} (hp : p < 2 ^ 31) (fuel : ℕ) {s : PlatticeState} (h : PlatticeInv p r s)
include hp h

/-- The first loop ends within range, before the first coordinate turns positive, and
leaves it above minus the second. -/
theorem subtractFromA_spec (hb : 0 < s.b0) (hbody : s.a0 + s.b0 ≤ 0) (hfuel : -s.a0 ≤ fuel) :
    ∃ t, subtractFromA fuel s = some t ∧ PlatticeInv p r t ∧ t.b0 = s.b0 ∧
      0 < t.a0 + t.b0 ∧ 0 < t.a1 ∧ s.a0 < t.a0 := by
  induction fuel generalizing s with
  | zero => omega
  | succ fuel ih =>
    have hnext : PlatticeInv p r { s with a0 := s.a0 + s.b0, a1 := s.a1 + s.b1 } := by
      have hstep := h.addToA (k := 1) zero_le_one (by simpa using hbody)
      simpa using hstep
    have ha1 := hnext.a1_le hb
    have hb1 := h.b1_pos
    have ha1ge := h.a1_ge
    have ha0 := h.a0_gt
    have hb0 := h.b0_lt
    simp only at ha1
    have h₁ := int32_of_bounds (x := s.a0 + s.b0) (by omega) (by omega)
    have h₂ := int32_of_bounds (x := s.a1 + s.b1) (by omega) (by omega)
    have h₃ := int32_of_bounds (x := s.a0 + s.b0 + s.b0) (by omega) (by omega)
    by_cases htest : s.a0 + s.b0 + s.b0 ≤ 0
    · obtain ⟨t, ht, hinv, htb, hpos, hta, hlt⟩ := ih hnext hb htest (by simp only; omega)
      refine ⟨t, ?_, hinv, htb, hpos, hta, by simp only at hlt; omega⟩
      simp [subtractFromA, h₁, h₂, h₃, some_bind, if_pos htest, ht]
    · refine ⟨_, ?_, hnext, rfl, by simp only; omega, by simp only; omega, by simp only; omega⟩
      simp [subtractFromA, h₁, h₂, h₃, some_bind, if_neg htest]

/-- The second loop ends within range, before the second coordinate turns negative,
and leaves it below minus the first. -/
theorem subtractFromB_spec (ha : s.a0 < 0) (hbody : 0 ≤ s.b0 + s.a0) (hfuel : s.b0 ≤ fuel) :
    ∃ t, subtractFromB fuel s = some t ∧ PlatticeInv p r t ∧ t.a0 = s.a0 ∧
      t.b0 + t.a0 < 0 ∧ t.b0 < s.b0 := by
  induction fuel generalizing s with
  | zero => omega
  | succ fuel ih =>
    have hnext : PlatticeInv p r { s with b0 := s.b0 + s.a0, b1 := s.b1 + s.a1 } := by
      have hstep := h.addToB (k := 1) zero_le_one (by simpa using hbody)
      simpa using hstep
    have hb1 := hnext.b1_le ha
    have hb1pos := h.b1_pos
    have ha1ge := h.a1_ge
    have ha0 := h.a0_gt
    have hb0 := h.b0_lt
    simp only at hb1
    have h₁ := int32_of_bounds (x := s.b0 + s.a0) (by omega) (by omega)
    have h₂ := int32_of_bounds (x := s.b1 + s.a1) (by omega) (by omega)
    have h₃ := int32_of_bounds (x := s.b0 + s.a0 + s.a0) (by omega) (by omega)
    by_cases htest : s.b0 + s.a0 + s.a0 ≥ 0
    · obtain ⟨t, ht, hinv, hta, hneg, hlt⟩ := ih hnext ha htest (by simp only; omega)
      refine ⟨t, ?_, hinv, hta, hneg, by simp only at hlt; omega⟩
      simp [subtractFromB, h₁, h₂, h₃, some_bind, if_pos htest, ht]
    · refine ⟨_, ?_, hnext, rfl, by simp only; omega, by simp only; omega⟩
      simp [subtractFromB, h₁, h₂, h₃, some_bind, if_neg htest]

end

/-! ## The classical divisions -/

theorem ceilDivision_bounds {x m I : ℤ} (hm : 0 < m) (hx : I ≤ x) :
    0 ≤ 1 + (x - I) / m ∧ I - m ≤ x - (1 + (x - I) / m) * m ∧
      x - (1 + (x - I) / m) * m < I := by
  have hrem := Int.emod_nonneg (x - I) hm.ne'
  have hlt := Int.emod_lt_of_pos (x - I) hm
  have hsplit := Int.emod_add_mul_ediv (x - I) m
  have hq : 0 ≤ (x - I) / m := Int.ediv_nonneg (by omega) hm.le
  have hexpand : (1 + (x - I) / m) * m = m + m * ((x - I) / m) := by ring
  refine ⟨by omega, by omega, by omega⟩

variable {p r I : ℤ}

section

variable (hp : p < 2 ^ 31) {s : PlatticeState} (h : PlatticeInv p r s)
include hp h

/-- The division of `b` by `a` stays within range and leaves the second
coordinate below the line width, by no more than the first. -/
theorem divideB_spec (hb : I ≤ s.b0) (ha : s.a0 < 0) (haI : -s.a0 < I) :
    ∃ t, divideB I s = some t ∧ PlatticeInv p r t ∧ t.a0 = s.a0 ∧ t.a1 = s.a1 ∧
      I ≤ t.b0 - t.a0 ∧ t.b0 < I := by
  obtain ⟨hk, hlow, hhigh⟩ := ceilDivision_bounds (x := s.b0) (m := -s.a0) (by omega) hb
  have hdiv : (s.b0 - I).tdiv (-s.a0) = (s.b0 - I) / (-s.a0) :=
    Int.tdiv_eq_ediv_of_nonneg (by omega)
  generalize hkdef : 1 + (s.b0 - I) / -s.a0 = k at *
  have hneg : k * -s.a0 = -(k * s.a0) := by ring
  rw [hneg] at hlow hhigh
  have hnext := h.addToB hk (by omega)
  have hb1 := hnext.b1_le ha
  have hb0 := h.b0_lt
  have hb1pos := h.b1_pos
  have ha1 : 0 ≤ k * s.a1 := mul_nonneg hk h.a1_ge
  have hkle : k * 1 ≤ k * -s.a0 := mul_le_mul_of_nonneg_left (by omega) hk
  simp only at hb1
  have h₁ := int32_of_bounds (x := s.b0 - I) (by omega) (by omega)
  have h₂ := int32_of_bounds (x := -s.a0) (by omega) (by omega)
  have h₃ := int32_of_bounds (x := k) (by omega) (by omega)
  have h₄ := int32_of_bounds (x := k * s.a0) (by omega) (by omega)
  have h₅ := int32_of_bounds (x := s.b0 + k * s.a0) (by omega) (by omega)
  have h₆ := int32_of_bounds (x := k * s.a1) (by omega) (by omega)
  have h₇ := int32_of_bounds (x := s.b1 + k * s.a1) (by omega) (by omega)
  refine ⟨_, ?_, hnext, rfl, rfl, by simp only; omega, by simp only; omega⟩
  simp only [divideB, h₁, h₂, hdiv, hkdef, h₃, h₄, h₅, h₆, h₇, some_bind]

/-- The division of `a` by `b` stays within range and leaves the first
coordinate above minus the line width, by no more than the second. -/
theorem divideA_spec (ha : I ≤ -s.a0) (hb : 0 < s.b0) (hbI : s.b0 < I) :
    ∃ t, divideA I s = some t ∧ PlatticeInv p r t ∧ t.b0 = s.b0 ∧ t.b1 = s.b1 ∧
      0 < t.a1 ∧ I ≤ t.b0 - t.a0 ∧ -I < t.a0 := by
  obtain ⟨hk, hlow, hhigh⟩ := ceilDivision_bounds (x := -s.a0) (m := s.b0) hb ha
  have hdiv : (-s.a0 - I).tdiv s.b0 = (-s.a0 - I) / s.b0 :=
    Int.tdiv_eq_ediv_of_nonneg (by omega)
  have hk1 : 1 ≤ 1 + (-s.a0 - I) / s.b0 := by
    have := Int.ediv_nonneg (show 0 ≤ -s.a0 - I by omega) hb.le
    omega
  generalize hkdef : 1 + (-s.a0 - I) / s.b0 = k at *
  have hnext := h.addToA hk (by omega)
  have ha1 := hnext.a1_le hb
  have ha0 := h.a0_gt
  have hb1pos := h.b1_pos
  have ha1ge := h.a1_ge
  have hb1 : 0 ≤ k * s.b1 := mul_nonneg hk hb1pos.le
  have hb1' : 1 * s.b1 ≤ k * s.b1 := mul_le_mul_of_nonneg_right hk1 hb1pos.le
  have hkle : k * 1 ≤ k * s.b0 := mul_le_mul_of_nonneg_left (by omega) hk
  simp only at ha1
  have h₁ := int32_of_bounds (x := -s.a0) (by omega) (by omega)
  have h₂ := int32_of_bounds (x := -s.a0 - I) (by omega) (by omega)
  have h₃ := int32_of_bounds (x := k) (by omega) (by omega)
  have h₄ := int32_of_bounds (x := k * s.b0) (by omega) (by omega)
  have h₅ := int32_of_bounds (x := s.a0 + k * s.b0) (by omega) (by omega)
  have h₆ := int32_of_bounds (x := k * s.b1) (by omega) (by omega)
  have h₇ := int32_of_bounds (x := s.a1 + k * s.b1) (by omega) (by omega)
  refine ⟨_, ?_, hnext, rfl, rfl, by simp only; omega, by simp only; omega,
    by simp only; omega⟩
  simp [divideA, h₁, h₂, hdiv, hkdef, h₃, h₄, h₅, h₆, h₇, some_bind]

end

/-! ## The whole reduction -/

section

variable {p r : ℤ} {s : PlatticeState} (h : PlatticeInv p r s)
include h

theorem PlatticeInv.dvd_of_a0_eq_zero (ha : s.a0 = 0) (ha1 : 0 < s.a1) : s.b0 ∣ p ∧ s.b0 ∣ r := by
  have hdet := h.det
  rw [ha, zero_mul, sub_zero] at hdet
  have hmem := h.a_mem
  rw [ha, ← hdet] at hmem
  have hdvd : s.b0 * s.a1 ∣ r * s.a1 := Int.modEq_zero_iff_dvd.mp hmem.symm
  exact ⟨⟨s.a1, hdet.symm⟩, Int.dvd_of_mul_dvd_mul_right ha1.ne' hdvd⟩

theorem PlatticeInv.dvd_of_b0_eq_zero (hb : s.b0 = 0) : -s.a0 ∣ p ∧ -s.a0 ∣ r := by
  have hdet : -s.a0 * s.b1 = p := by
    rw [← h.det, hb]
    ring
  have hmem := h.b_mem
  rw [hb, ← hdet] at hmem
  have hdvd : -s.a0 * s.b1 ∣ r * s.b1 := Int.modEq_zero_iff_dvd.mp hmem.symm
  exact ⟨⟨s.b1, hdet.symm⟩, Int.dvd_of_mul_dvd_mul_right h.b1_pos.ne' hdvd⟩

end

/-- What the reduction ends with: two vectors that pass the assertions, or a common
factor of prime and root as large as the line width. -/
def PlatticeOutcome (p r I : ℤ) (res : Option PlatticeState) : Prop :=
  match res with
  | none => ∃ g, I ≤ g ∧ g ∣ p ∧ g ∣ r
  | some t => PlatticeInv p r t ∧ platticeAsserts I t

/-- Each pass of the outer loop lowers the sum of the two first coordinates, so that
enough fuel ends the loop. -/
theorem reducePlatticeLoop_spec (hp : p < 2 ^ 31) (hI : 0 < I) (fuel : ℕ)
    {s : PlatticeState} (h : PlatticeInv p r s) (ha : I ≤ -s.a0) (hba : s.b0 < -s.a0)
    (hfuel : -s.a0 + s.b0 < fuel) :
    ∃ res, reducePlatticeLoop I fuel s = some res ∧ PlatticeOutcome p r I res := by
  induction fuel generalizing s with
  | zero =>
    have := h.b0_ge
    omega
  | succ fuel ih =>
    by_cases hb : s.b0 ≥ I
    · obtain ⟨t, ht, hinv, htb, hsum, hta1, hlt⟩ :=
        subtractFromA_spec hp fuel h (by omega) (by omega) (by omega)
      have hneg := int32_of_bounds (x := -t.a0) (by linarith [hinv.a0_le])
        (by linarith [hinv.a0_gt])
      by_cases hsmall : -t.a0 < I
      · by_cases hzero : t.a0 = 0
        · refine ⟨none, ?_, t.b0, by omega, hinv.dvd_of_a0_eq_zero hzero hta1⟩
          simp [reducePlatticeLoop, if_pos hb, ht, hneg, if_pos hsmall, if_pos hzero, some_bind]
        · have hta0 : t.a0 < 0 := lt_of_le_of_ne hinv.a0_le hzero
          obtain ⟨u, hu, huinv, hua0, hua1, hwidth, hub⟩ :=
            divideB_spec hp hinv (by omega) hta0 hsmall
          refine ⟨some u, ?_, huinv, ?_⟩
          · simp [reducePlatticeLoop, if_pos hb, ht, hneg, if_pos hsmall, if_neg hzero, hu,
              some_bind]
          · have := huinv.b1_pos
            have := huinv.b0_ge
            unfold platticeAsserts
            omega
      · obtain ⟨u, hu, huinv, hua0, hsum', hub⟩ :=
          subtractFromB_spec hp fuel hinv (by omega) (by omega)
            (by have := hinv.a0_le; omega)
        obtain ⟨res, hres, hout⟩ := ih huinv (by omega) (by omega) (by omega)
        refine ⟨res, ?_, hout⟩
        simp [reducePlatticeLoop, if_pos hb, ht, hneg, if_neg hsmall, hu, hres, some_bind]
    · by_cases hzero : s.b0 = 0
      · refine ⟨none, ?_, -s.a0, ha, h.dvd_of_b0_eq_zero hzero⟩
        simp [reducePlatticeLoop, if_neg hb, if_pos hzero]
      · have hbpos : 0 < s.b0 := lt_of_le_of_ne h.b0_ge (Ne.symm hzero)
        obtain ⟨u, hu, huinv, hub0, hub1, hua1, hwidth, hua0⟩ :=
          divideA_spec hp h ha hbpos (by omega)
        refine ⟨some u, ?_, huinv, ?_⟩
        · simp [reducePlatticeLoop, if_neg hb, if_neg hzero, hu, some_bind]
        · have := huinv.b1_pos
          have := huinv.a0_le
          unfold platticeAsserts
          omega

theorem PlatticeInv.isReducedBasis {s : PlatticeState} (h : PlatticeInv p r s)
    (hp : p ≠ 0) (hs : platticeAsserts I s) :
    IsReducedBasis (rootLattice p r) I s.a0 s.a1 s.b0 s.b1 := by
  obtain ⟨hβ, hδ, ⟨hα, hα'⟩, ⟨hγ, hγ'⟩, hwidth⟩ := hs
  exact ⟨span_eq_rootLattice hp h.a_mem h.b_mem h.det, hβ, hδ, hα', hα, hγ, hγ', hwidth⟩

/-- What `reduce_plattice` stores: a reduced basis, offsets that are exact or
clamped, and the two thresholds. -/
structure PlatticeStored (p r : ℕ) (si : SieveInfo) (pli : PlatticeInfo) : Prop where
  basis : IsReducedBasis (rootLattice p r) si.I pli.alpha pli.beta pli.gamma pli.delta
  a_eq : pli.a = platticeOffset si.logI (si.J * 2 ^ si.logI) pli.beta pli.alpha
  c_eq : pli.c = platticeOffset si.logI (si.J * 2 ^ si.logI) pli.delta pli.gamma
  b0_eq : (pli.b0 : ℤ) = -pli.alpha
  b1_eq : (pli.b1 : ℤ) = si.I - pli.gamma

/-- For every prime at least as large as the line width and every nonzero root the
reduction ends without overflow and without a failed assertion; it returns zero only
if prime and root have a common factor. -/
theorem reducePlattice_spec {p r : ℕ} {si : SieveInfo} (hI : 1 < si.I) (hIp : si.I ≤ p)
    (hp : p < 2 ^ 31) (hr : 0 < r) (hrp : r < p) :
    (reducePlattice p r si = some none ∧ 1 < Nat.gcd p r) ∨
      ∃ pli, reducePlattice p r si = some (some pli) ∧ PlatticeStored p r si pli := by
  have hstart : PlatticeInv p r { a0 := -p, a1 := 0, b0 := r, b1 := 1 } := by
    refine ⟨?_, ?_, by simp, by simp, by simp, by simp, by simp, by simp, ?_⟩
    · simp [Int.modEq_zero_iff_dvd]
    · simp [Int.ModEq]
    · simp only
      omega
  have h₁ := int32_of_bounds (x := -p) (by omega) (by omega)
  have h₂ := int32_of_bounds (x := r) (by omega) (by omega)
  obtain ⟨res, hres, hout⟩ := reducePlatticeLoop_spec (I := si.I) (by omega) (by omega)
    (p + r + 1) hstart (by simp only; omega) (by simp only; omega)
    (by simp only; push_cast; omega)
  cases res with
  | none =>
    left
    obtain ⟨g, hg, hgp, hgr⟩ := hout
    refine ⟨?_, ?_⟩
    · simp [reducePlattice, h₁, h₂, hres, some_bind]
    · have hdvd : g ∣ ((Nat.gcd p r : ℕ) : ℤ) := Int.dvd_coe_gcd hgp hgr
      have hpos : 0 < ((Nat.gcd p r : ℕ) : ℤ) := by
        exact_mod_cast Nat.gcd_pos_of_pos_right p hr
      have hle := Int.le_of_dvd hpos hdvd
      omega
  | some s =>
    right
    obtain ⟨hinv, hasserts⟩ := hout
    have hα := hasserts.2.2.1.1
    have hγ := hasserts.2.2.2.1.2
    refine ⟨{ alpha := s.a0, beta := s.a1, gamma := s.b0, delta := s.b1
              a := platticeOffset si.logI (si.J * 2 ^ si.logI) s.a1 s.a0
              c := platticeOffset si.logI (si.J * 2 ^ si.logI) s.b1 s.b0
              b0 := (-s.a0).toNat
              b1 := (si.I - s.b0).toNat }, ?_, ?_⟩
    · simp [reducePlattice, h₁, h₂, hres, platticeStore, if_pos hasserts, some_bind]
    · exact ⟨hinv.isReducedBasis (by omega) hasserts, rfl, rfl,
        Int.toNat_of_nonneg (by omega), Int.toNat_of_nonneg (by omega)⟩

end CadoNfs
