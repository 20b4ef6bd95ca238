import CadoNfs.Lib.Limbs
import CadoNfs.Linalg.Cleanup

/-!
# Matrices of polynomials over GF(2)

The class `polmat` of `lingen_mat_types.hpp`: polynomials stored as limbs, column
after column, with a permutation of the columns.  Sizes are natural numbers: the products of
sizes that the source takes as `unsigned int` are exact here.

Main results:

- Theorem `importColShift_spec`: a column of another matrix, divided by a power of
  `X`.
- Theorem `coeff_clearHighbits`: the bits beyond the coefficients are cleared.
- Theorems `coeff_addpoly` and `coeff_xmulPoly`: one polynomial is changed.
-/

namespace CadoNfs

open Function (update update_of_ne update_self)
open ForRange Gf2 LimbArray

/-- `polmat`; `x` is the area of the limbs.  In the source the sizes and the offsets in `x` are
`unsigned int`s, so a matrix has at most `2 ^ 32` words. -/
structure Polmat where
  nrows : ℕ
  ncols : ℕ
  ncoef : ℕ
  x : Limbs
  order : ℕ → ℕ
  degs : ℕ → ℤ
  order_lt : ∀ j < ncols, order j < ncols
  order_inj : ∀ j < ncols, ∀ j' < ncols, order j = order j' → j = j'

namespace Polmat

/-! ## Code -/

/-- `stride`. -/
def stride (m : Polmat) : ℕ :=
  (m.ncoef + 63) / 64

/-- `colstride`. -/
def colstride (m : Polmat) : ℕ :=
  m.nrows * m.stride

/-- The address that `poly` returns. -/
def poly (m : Polmat) (i j : ℕ) : ℕ :=
  (m.order j * m.nrows + i) * m.stride

/-- The address that `col` returns. -/
def col (m : Polmat) (j : ℕ) : ℕ :=
  m.poly 0 j

/-- `deg`. -/
def deg (m : Polmat) (j : ℕ) : ℤ :=
  m.degs (m.order j)

/-- The constructor. -/
def zeros (nrows ncols ncoef : ℕ) : Polmat where
  nrows := nrows
  ncols := ncols
  ncoef := ncoef
  x := fun _ => 0#64
  order := fun j => j
  degs := fun _ => -1
  order_lt := fun _ hj => hj
  order_inj := fun _ _ _ _ h => h

/-- The bit of `X ^ k` in an entry. -/
def coeff (m : Polmat) (i j k : ℕ) : ZMod 2 :=
  bit (m.x (m.poly i j + k / 64)) (k % 64)

/-- The static `critical`, which nothing sets. -/
def critical : Bool :=
  false

/-- The four ways to move `len` limbs by `s` bits in `import_col_shift`;
`none` stands for a call without limbs. -/
def shiftLimbs (gmp : Shifts) (dst : Limbs) (rp : ℕ) (src : Limbs) (len : ℕ) (s : ℤ) :
    Option Limbs :=
  let as := s.natAbs
  let sw := as / 64
  let sb := as % 64
  if len ≤ sw then none
  else if sb ≠ 0 then
    if s > 0 then some (store dst (rp + sw) (len - sw) (gmp.lshift src (len - sw) sb))
    else some (store dst rp (len - sw) (gmp.rshift (from_ src sw) (len - sw) sb))
  else
    if s > 0 then some (store dst (rp + sw) (len - sw) src)
    else some (store dst rp (len - sw) (from_ src sw))

/-- `import_col_shift`; `tmp` is what its array holds at first. -/
def importColShift (gmp : Shifts) (tmp : Limbs) (m : Polmat) (k : ℕ) (a : Polmat) (j : ℕ)
    (s : ℤ) : Option Polmat := do
  assertAlways (k < m.ncols)
  assertAlways (j < a.ncols)
  assertAlways (a.nrows = m.nrows)
  let src := from_ a.x (a.col j)
  let dst := m.col k
  if m.colstride = a.colstride then
    let x ← shiftLimbs gmp m.x dst src m.colstride s
    some { m with x := x }
  else if m.colstride < a.colstride then do
    assertAlways (critical = false)
    let r ← forRangeM m.nrows (fun i (x, tmp) => do
      let tmp ← shiftLimbs gmp tmp 0 (from_ src (i * a.stride)) a.stride s
      some (store x (dst + i * m.stride) m.stride tmp, tmp)) (m.x, tmp)
    some { m with x := r.1 }
  else none

/-- `clear_highbits`. -/
def clearHighbits (m : Polmat) : Polmat :=
  let offset := m.ncoef / 64
  let mask := (1#64 <<< (m.ncoef % 64)) - 1#64
  if mask = 0#64 then m
  else
    { m with
      x := forRange (m.nrows * m.ncols) (fun i x =>
        update x (offset + i * m.stride) (x (offset + i * m.stride) &&& mask)) m.x }

/-- `zcol`. -/
def zcol (m : Polmat) (j : ℕ) : Polmat :=
  { m with
    x := store m.x (m.col j) m.colstride fun _ => 0#64
    degs := update m.degs (m.order j) (-1) }

/-- `addpoly`. -/
def addpoly (m : Polmat) (i j : ℕ) (src : Limbs) : Polmat :=
  { m with
    x := forRange m.stride (fun k x =>
      update x (m.poly i j + k) (x (m.poly i j + k) ^^^ src k)) m.x }

/-- `xmul_poly`. -/
def xmulPoly (gmp : Shifts) (m : Polmat) (i j s : ℕ) : Polmat :=
  { m with
    x := store m.x (m.poly i j) m.stride (gmp.lshift (from_ m.x (m.poly i j)) m.stride s) }

/-! ## Addresses -/

section

variable (m : Polmat)

theorem poly_eq (i j : ℕ) : m.poly i j = m.col j + i * m.stride := by
  simp only [col, poly]
  ring

theorem col_eq (j : ℕ) : m.col j = m.colstride * m.order j := by
  simp only [col, poly, colstride]
  ring

theorem row_le {i : ℕ} (hi : i < m.nrows) : i * m.stride + m.stride ≤ m.colstride := by
  rw [colstride, ← Nat.succ_mul]
  exact Nat.mul_le_mul_right _ hi

theorem coeff_eq (i j k : ℕ) : m.coeff i j k = bitAt m.x (64 * m.poly i j + k) := by
  rw [coeff, bitAt, Nat.mul_add_div (by decide), Nat.mul_add_mod]

theorem col_disjoint {j j' : ℕ} (hj : j < m.ncols) (hj' : j' < m.ncols) (hne : j ≠ j') :
    m.col j + m.colstride ≤ m.col j' ∨ m.col j' + m.colstride ≤ m.col j := by
  rw [col_eq, col_eq, ← Nat.mul_succ, ← Nat.mul_succ]
  rcases Nat.lt_or_gt_of_ne fun h => hne (m.order_inj j hj j' hj' h) with h | h
  · exact Or.inl (Nat.mul_le_mul_left _ h)
  · exact Or.inr (Nat.mul_le_mul_left _ h)

theorem poly_disjoint {i i' j j' : ℕ} (hi : i < m.nrows) (hi' : i' < m.nrows)
    (hj : j < m.ncols) (hj' : j' < m.ncols) (hne : (i, j) ≠ (i', j')) :
    m.poly i j + m.stride ≤ m.poly i' j' ∨ m.poly i' j' + m.stride ≤ m.poly i j := by
  have hrow := m.row_le hi
  have hrow' := m.row_le hi'
  rw [poly_eq, poly_eq]
  by_cases hcol : j = j'
  · subst hcol
    rcases Nat.lt_or_gt_of_ne fun h => hne (congrArg (·, j) h) with h | h
    · have := Nat.mul_le_mul_right m.stride (Nat.succ_le_of_lt h)
      rw [Nat.succ_mul] at this
      omega
    · have := Nat.mul_le_mul_right m.stride (Nat.succ_le_of_lt h)
      rw [Nat.succ_mul] at this
      omega
  · have := m.col_disjoint hj hj' hcol
    omega

end

/-! ## Shifted columns -/

section Shift

variable {gmp : Shifts}

theorem shiftLimbs_spec (gmp : Shifts) (dst : Limbs) (rp : ℕ) (src : Limbs) {len as : ℕ}
    (has : as < 64 * len) :
    ∃ dst', shiftLimbs gmp dst rp src len (-as) = some dst' ∧
      (∀ P, P + as < 64 * len → bitAt dst' (64 * rp + P) = bitAt src (P + as)) ∧
      ∀ y, y < rp ∨ rp + len ≤ y → dst' y = dst y := by
  have hsw : ¬len ≤ as / 64 := by omega
  have hneg : ¬(-(as : ℤ)) > 0 := by omega
  simp only [shiftLimbs, Int.natAbs_neg, Int.natAbs_natCast, if_neg hsw, if_neg hneg]
  by_cases hsb : as % 64 = 0
  · refine ⟨_, if_neg (not_not.mpr hsb), fun P hP => ?_, fun y hy => ?_⟩
    · rw [bitAt_store, if_pos (by omega), bitAt_from]
      congr 1
      omega
    · exact store_apply_of_not _ _ (by omega)
  · refine ⟨_, if_pos hsb, fun P hP => ?_, fun y hy => ?_⟩
    · rw [bitAt_store, if_pos (by omega), Nat.add_sub_cancel_left,
        gmp.bitAt_rshift _ _ _ _ (by omega) (by omega) (by omega), if_pos (by omega), bitAt_from]
      congr 1
      omega
    · exact store_apply_of_not _ _ (by omega)

variable {m a : Polmat} {k j as : ℕ}

theorem shiftRows_spec (gmp : Shifts) (m a : Polmat) (dst j : ℕ) {as : ℕ}
    (has : as < 64 * a.stride) (tmp : Limbs) (n : ℕ) :
    ∃ r, forRangeM n (fun i (r : Limbs × Limbs) => do
        let tmp ← shiftLimbs gmp r.2 0 (from_ (from_ a.x (a.col j)) (i * a.stride)) a.stride (-as)
        some (store r.1 (dst + i * m.stride) m.stride tmp, tmp)) (m.x, tmp) = some r ∧
      (∀ i < n, ∀ q < 64 * m.stride, q + as < 64 * a.stride →
        bitAt r.1 (64 * (dst + i * m.stride) + q) = a.coeff i j (q + as)) ∧
      ∀ y, y < dst ∨ dst + n * m.stride ≤ y → r.1 y = m.x y := by
  refine forRangeM_induct (motive := fun n (r : Limbs × Limbs) =>
      (∀ i < n, ∀ q < 64 * m.stride, q + as < 64 * a.stride →
        bitAt r.1 (64 * (dst + i * m.stride) + q) = a.coeff i j (q + as)) ∧
      ∀ y, y < dst ∨ dst + n * m.stride ≤ y → r.1 y = m.x y) _ _ n ?_ ?_
  · exact ⟨fun i hi => absurd hi (Nat.not_lt_zero i), fun y _ => rfl⟩
  · rintro i _ ⟨x, tmp⟩ ⟨hbits, hframe⟩
    obtain ⟨tmp', hrun, hshift, -⟩ := shiftLimbs_spec gmp tmp 0
      (from_ (from_ a.x (a.col j)) (i * a.stride)) has
    refine ⟨(store x (dst + i * m.stride) m.stride tmp', tmp'), by rw [hrun]; rfl, ?_, ?_⟩
    · intro i' hi' q hq hqa
      rcases Nat.lt_succ_iff_lt_or_eq.mp hi' with hlt | rfl
      · have hrow := Nat.mul_le_mul_right m.stride (Nat.succ_le_of_lt hlt)
        rw [Nat.succ_mul] at hrow
        rw [bitAt_store, if_neg (by omega), hbits i' hlt q hq hqa]
      · have hbit := hshift q hqa
        rw [bitAt_from, bitAt_from] at hbit
        rw [bitAt_store, if_pos (by omega), Nat.add_sub_cancel_left, coeff_eq, poly_eq]
        rw [mul_zero, zero_add] at hbit
        rw [hbit]
        congr 1
        omega
    · intro y hy
      rw [Nat.succ_mul] at hy
      exact (store_apply_of_not _ _ (by omega)).trans (hframe y (by omega))

/-- What the import of a column changes: the column holds the other one, divided by a power
of `X`. -/
structure Imported (m : Polmat) (k : ℕ) (a : Polmat) (j as : ℕ) (m' : Polmat) : Prop where
  shape : m' = { m with x := m'.x }
  column : ∀ i < m.nrows, ∀ q < 64 * m.stride, q + as < 64 * a.stride →
    m'.coeff i k q = a.coeff i j (q + as)
  other : ∀ c < m.ncols, c ≠ k → ∀ i < m.nrows, ∀ q < 64 * m.stride,
    m'.coeff i c q = m.coeff i c q

theorem coeff_of_frame {x : Limbs} (hk : k < m.ncols)
    (hframe : ∀ y, y < m.col k ∨ m.col k + m.colstride ≤ y → x y = m.x y) {c : ℕ}
    (hc : c < m.ncols) (hne : c ≠ k) {i : ℕ} (hi : i < m.nrows) {q : ℕ}
    (hq : q < 64 * m.stride) : ({ m with x := x } : Polmat).coeff i c q = m.coeff i c q := by
  have hrow := m.row_le hi
  have hcol := m.col_disjoint hc hk hne
  refine congrArg (bit · (q % 64)) (hframe _ ?_)
  show m.poly i c + q / 64 < _ ∨ _ ≤ m.poly i c + q / 64
  rw [poly_eq]
  omega

/-- `import_col_shift` to the right, from a matrix with as many rows and no fewer
coefficients. -/
theorem importColShift_spec (gmp : Shifts) (tmp : Limbs) (hk : k < m.ncols) (hj : j < a.ncols)
    (hrows : a.nrows = m.nrows) (hpos : 0 < m.nrows) (hstride : m.stride ≤ a.stride)
    (has : as < 64 * a.stride) :
    ∃ m', importColShift gmp tmp m k a j (-as) = some m' ∧ Imported m k a j as m' := by
  simp only [importColShift, assertAlways_of_true hk, assertAlways_of_true hj,
    assertAlways_of_true hrows, Option.bind_eq_bind, Option.bind_some]
  by_cases hequal : m.colstride = a.colstride
  · have hsame : a.stride = m.stride := by
      rw [colstride, colstride, hrows] at hequal
      exact (Nat.eq_of_mul_eq_mul_left hpos hequal).symm
    have hlen := m.row_le hpos
    obtain ⟨x, hrun, hbits, hframe⟩ := shiftLimbs_spec gmp m.x (m.col k)
      (from_ a.x (a.col j)) (show as < 64 * m.colstride by omega)
    refine ⟨{ m with x := x }, by rw [if_pos hequal, hrun, Option.bind_some], rfl, ?_, ?_⟩
    · intro i hi q hq hqa
      have hrow := m.row_le hi
      have hbit := hbits (64 * (i * m.stride) + q) (by omega)
      rw [bitAt_from] at hbit
      rw [coeff_eq, coeff_eq, poly_eq, poly_eq, hsame]
      refine Eq.trans (congrArg (bitAt x) ?_) (hbit.trans (congrArg (bitAt a.x) ?_))
      · show 64 * (m.col k + i * m.stride) + q = _
        omega
      · omega
    · intro c hc hne i hi q hq
      exact coeff_of_frame hk hframe hc hne hi hq
  · have hlt : m.colstride < a.colstride := by
      refine lt_of_le_of_ne ?_ hequal
      rw [colstride, colstride, hrows]
      exact Nat.mul_le_mul_left _ hstride
    obtain ⟨r, hrun, hbits, hframe⟩ := shiftRows_spec gmp m a (m.col k) j has tmp m.nrows
    refine ⟨{ m with x := r.1 }, ?_, rfl, ?_, ?_⟩
    · rw [if_neg hequal, if_pos hlt, assertAlways_of_true (show critical = false from rfl),
        Option.bind_some]
      exact congrArg (Option.bind · _) hrun
    · intro i hi q hq hqa
      rw [← hbits i hi q hq hqa, coeff_eq, poly_eq]
      rfl
    · intro c hc hne i hi q hq
      exact coeff_of_frame hk hframe hc hne hi hq

theorem importColShift_eq_none (gmp : Shifts) (tmp : Limbs) (s : ℤ) (hrows : a.nrows ≠ m.nrows) :
    importColShift gmp tmp m k a j s = none := by
  have hassert : assertAlways (a.nrows = m.nrows) = none := if_neg hrows
  simp [importColShift, hassert]

end Shift

/-! ## High bits -/

theorem bit_and_mask (v : BitVec 64) {r : ℕ} (hr : r < 64) (t : ℕ) :
    bit (v &&& ((1#64 <<< r) - 1#64)) t = if t < r then bit v t else 0 := by
  have hmask : ((1#64 <<< r) - 1#64).getLsbD t = decide (t < r) := by
    have hpow : 2 ^ r < 2 ^ 64 := Nat.pow_lt_pow_right (by decide) hr
    have hpos : 0 < 2 ^ r := Nat.two_pow_pos r
    have hshift : (1#64 <<< r).toNat = 2 ^ r := by
      rw [BitVec.toNat_shiftLeft, BitVec.toNat_ofNat, Nat.shiftLeft_eq,
        Nat.mod_eq_of_lt (show 1 < 2 ^ 64 by decide), one_mul, Nat.mod_eq_of_lt hpow]
    have hval : ((1#64 <<< r) - 1#64).toNat = 2 ^ r - 1 := by
      rw [BitVec.toNat_sub_of_le (by rw [BitVec.le_def, hshift]; exact hpos), hshift]
      rfl
    rw [BitVec.getLsbD, hval, Nat.testBit_two_pow_sub_one]
  rw [bit, BitVec.getLsbD_and, hmask, bit]
  split_ifs with h <;> simp [h]

theorem clearHighbits_shape (m : Polmat) :
    m.clearHighbits = { m with x := m.clearHighbits.x } := by
  by_cases hmask : (1#64 <<< (m.ncoef % 64)) - 1#64 = 0#64
  · simp [clearHighbits, if_pos hmask]
  · simp [clearHighbits, if_neg hmask]

/-- `clear_highbits` keeps the coefficients and clears the bits beyond them. -/
theorem coeff_clearHighbits (m : Polmat) {i c q : ℕ} (hi : i < m.nrows) (hc : c < m.ncols)
    (hq : q < 64 * m.stride) :
    m.clearHighbits.coeff i c q = if q < m.ncoef then m.coeff i c q else 0 := by
  have hstride : m.stride = (m.ncoef + 63) / 64 := rfl
  have hr : m.ncoef % 64 < 64 := Nat.mod_lt _ (by decide)
  by_cases hfull : m.ncoef % 64 = 0
  · rw [if_pos (by omega), clearHighbits, hfull]
    rfl
  · have hmask : (1#64 <<< (m.ncoef % 64)) - 1#64 ≠ 0#64 := by
      intro hzero
      have hbit := bit_and_mask (BitVec.allOnes 64) hr 0
      rw [hzero, if_pos (by omega), BitVec.and_zero] at hbit
      exact absurd hbit (by decide)
    have hindex : m.order c * m.nrows + i < m.nrows * m.ncols := by
      have := Nat.mul_le_mul_left m.nrows (Nat.succ_le_of_lt (m.order_lt c hc))
      rw [Nat.mul_succ, mul_comm m.nrows (m.order c)] at this
      omega
    simp only [clearHighbits, if_neg hmask, coeff]
    show bit (forRange (m.nrows * m.ncols) _ m.x (m.poly i c + q / 64)) (q % 64) = _
    by_cases hlast : q / 64 = m.ncoef / 64
    · have haddress : m.poly i c + q / 64
          = m.ncoef / 64 + (m.order c * m.nrows + i) * m.stride := by
        rw [hlast, poly, add_comm]
      rw [haddress, forRange_at_only hindex (fun I _ hne ws => update_of_ne (fun h =>
          hne (Nat.eq_of_mul_eq_mul_right (show 0 < m.stride by omega) (by omega)).symm) _ _)
        (fun ws ws' h => by rw [update_self, update_self, h]), update_self, bit_and_mask _ hr]
      exact if_congr (by omega) rfl rfl
    · rw [if_pos (by omega)]
      refine congrArg (bit · (q % 64)) (forRange_at_id (fun I _ ws => ?_) m.x)
      refine update_of_ne (fun h => hlast ?_) _ _
      have hcell : m.stride * (m.order c * m.nrows + i) + q / 64
          = m.stride * I + m.ncoef / 64 := by
        rw [poly] at h
        rw [mul_comm, h, mul_comm, add_comm]
      exact (cell_inj (by omega) (by omega) hcell).2

/-! ## Single polynomials -/

theorem coeff_zcol (m : Polmat) {i j q : ℕ} (hi : i < m.nrows) (hq : q < 64 * m.stride) :
    (m.zcol j).coeff i j q = 0 := by
  have hrow := m.row_le hi
  have hword : (m.zcol j).x (m.poly i j + q / 64) = 0#64 := by
    rw [poly_eq]
    have hle : m.col j ≤ m.col j + i * m.stride + q / 64 := by omega
    have hlt : m.col j + i * m.stride + q / 64 < m.col j + m.colstride := by omega
    exact store_apply_of_le m.x (fun _ => 0#64) hle hlt
  exact (congrArg (bit · (q % 64)) hword).trans (bit_zero _)

/-- `addpoly` adds to one polynomial. -/
theorem coeff_addpoly (m : Polmat) {i j i' j' q : ℕ} (src : Limbs) (hi : i < m.nrows)
    (hj : j < m.ncols) (hi' : i' < m.nrows) (hj' : j' < m.ncols) (hq : q < 64 * m.stride) :
    (m.addpoly i j src).coeff i' j' q
      = if i' = i ∧ j' = j then m.coeff i' j' q + bitAt src q else m.coeff i' j' q := by
  show bit (forRange m.stride _ m.x (m.poly i' j' + q / 64)) (q % 64) = _
  by_cases hat : i' = i ∧ j' = j
  · obtain ⟨rfl, rfl⟩ := hat
    rw [if_pos ⟨rfl, rfl⟩, forRange_at_only (show q / 64 < m.stride by omega)
      (fun k _ hne ws => update_of_ne (by omega) _ _)
      (fun ws ws' h => by rw [update_self, update_self, h]), update_self, bit_xor]
    rfl
  · rw [if_neg hat]
    have hapart := m.poly_disjoint hi' hi hj' hj fun h => hat (Prod.mk.inj h)
    refine congrArg (bit · (q % 64)) (forRange_at_id (fun k hk ws => ?_) m.x)
    exact update_of_ne (by omega) _ _

/-- `xmul_poly` multiplies one polynomial by a power of `X`. -/
theorem coeff_xmulPoly (gmp : Shifts) (m : Polmat) {i j i' j' q s : ℕ} (hs : 0 < s)
    (hs' : s < 64) (hi : i < m.nrows) (hj : j < m.ncols) (hi' : i' < m.nrows)
    (hj' : j' < m.ncols) (hq : q < 64 * m.stride) :
    (m.xmulPoly gmp i j s).coeff i' j' q
      = if i' = i ∧ j' = j then if s ≤ q then m.coeff i' j' (q - s) else 0
        else m.coeff i' j' q := by
  rw [coeff_eq]
  show bitAt (store m.x (m.poly i j) m.stride _) (64 * m.poly i' j' + q) = _
  by_cases hat : i' = i ∧ j' = j
  · obtain ⟨rfl, rfl⟩ := hat
    rw [if_pos ⟨rfl, rfl⟩, bitAt_store, if_pos (by omega), Nat.add_sub_cancel_left,
      gmp.bitAt_lshift _ _ _ _ hs hs' hq]
    split_ifs with hle
    · rw [bitAt_from, coeff_eq]
    · rfl
  · rw [if_neg hat, coeff_eq]
    have hapart := m.poly_disjoint hi' hi hj' hj fun h => hat (Prod.mk.inj h)
    rw [bitAt_store, if_neg (by omega)]

end Polmat

end CadoNfs
