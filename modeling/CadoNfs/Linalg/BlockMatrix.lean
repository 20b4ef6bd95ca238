import Mathlib.Tactic.Ring
import CadoNfs.Linalg.BitMatrices

/-!
# Block matrices

The bit matrices of `blockmatrix.c`: blocks of 64 by 64 bits, stored column of
blocks after column of blocks, and views of them.  A matrix has at most 2 ^ 32 blocks, so that
their numbers do not wrap; the offsets in flat storage are `unsigned int` products, which can.

Main results:

- Theorem `mulTaB_spec`, `mulSmallb_spec`, `transpose_spec`: products and
  transposes on the entries.
- Theorem `copyColrange_spec`: the copy of a range of columns.
- Theorem `copyFromFlat_copyToFlat_iff` and its transposed twin: when the flat storage holds
  the matrix.
- Theorem `submatrix_spec`: what an operation on a view does to the parent.
-/

namespace CadoNfs

open Function (update update_of_ne update_self)
open ForRange Gf2 Finset
open Nat (div_add_mod mod_lt)

/-! ## Data -/

/-- `blockmatrix_s`: `words` is the area that `mb` points into and
`mb` the number of the first block in it.  Two matrices that are not views of one
another have areas of their own. -/
structure BlockMatrix where
  words : Words
  mb : ℕ
  nrblocks : ℕ
  ncblocks : ℕ
  nrows : ℕ
  ncols : ℕ
  sub : Bool
  stride : ℕ
  nrblocks_eq : nrblocks = (nrows + 63) / 64
  ncblocks_eq : ncblocks = (ncols + 63) / 64
  nrblocks_le : nrblocks ≤ stride
  stride_eq : sub = false → stride = nrblocks

namespace BlockMatrix

/-- The address of `mb[i + j * stride]`. -/
def block (m : BlockMatrix) (i j : ℕ) : ℕ :=
  64 * (m.mb + (i + j * m.stride))

/-- The entry at row `i` and column `j`: bit `j % 64` of the word
`i % 64` of its block. -/
def entry (m : BlockMatrix) (i j : ℕ) : ZMod 2 :=
  bit (m.words (m.block (i / 64) (j / 64) + i % 64)) (j % 64)

/-- The address `y` is not in a block of the matrix. -/
def Outside (m : BlockMatrix) (y : ℕ) : Prop :=
  ∀ i < m.nrblocks, ∀ j < m.ncblocks, ∀ r < 64, y ≠ m.block i j + r

/-! ## Code -/

variable (words : Words)

/-- `blockmatrix_alloc`; `words` is what `malloc` leaves in the area. -/
def alloc (nrows ncols : ℕ) : BlockMatrix where
  words := words
  mb := 0
  nrblocks := (nrows + 63) / 64
  ncblocks := (ncols + 63) / 64
  nrows := nrows
  ncols := ncols
  sub := false
  stride := (nrows + 63) / 64
  nrblocks_eq := rfl
  ncblocks_eq := rfl
  nrblocks_le := le_rfl
  stride_eq := fun _ => rfl

/-- `memset` to zero. -/
def memset0 (p n : ℕ) : Words :=
  forRange n (fun x words => update words (p + x) 0#64) words

/-- `blockmatrix_set_zero`. -/
def setZero (b : BlockMatrix) : BlockMatrix :=
  { b with
    words :=
      if b.sub = false then
        memset0 b.words (64 * b.mb) (64 * (b.nrblocks * b.ncblocks))
      else
        forRange b.ncblocks (fun j words => memset0 words (b.block 0 j) (64 * b.nrblocks))
          b.words }

/-- `blockmatrix_set_identity`. -/
def setIdentity (S : BlockMatrix) : BlockMatrix :=
  { S with
    words := forRange S.ncols (fun i words =>
      update words (S.block (i / 64) (i / 64) + i % 64)
        (words (S.block (i / 64) (i / 64) + i % 64) ^^^ (1#64 <<< (i % 64)))) S.setZero.words }

/-- `blockmatrix_mul_Ta_b`; `none` is a failed assertion.  The pointers `a` and `b`, or `a` and
`c`, may be the same: `ab`, `ac`. -/
def mulTaB (c a b : BlockMatrix) (ab ac : Bool := false) : Option BlockMatrix :=
  if (c.nrows = a.ncols ∧ c.ncols = b.ncols ∧ a.nrows = b.nrows) ∧ ab = false ∧ ac = false then
    some { c with
      words := forRange c.nrblocks (fun i words =>
        forRange c.ncblocks (fun j words =>
          addmulTN64N64 words (c.block i j) a.words (a.block 0 i) b.words (b.block 0 j)
            a.nrows) words) c.setZero.words }
  else
    none

/-- `blockmatrix_mul_smallb`; `none` is a failed assertion, `ab` and `ac` as in `mulTaB`. -/
def mulSmallb (c a b : BlockMatrix) (ab ac : Bool := false) : Option BlockMatrix :=
  if (c.nrows = a.nrows ∧ c.ncols = b.ncols ∧ a.ncols = b.nrows) ∧ ab = false ∧ ac = false then
    some { c with
      words := forRange b.ncblocks (fun j words =>
        forRange b.nrblocks (fun i words =>
          addmulN646464 words (c.block 0 j) a.words (a.block 0 i) b.words (b.block i j)
            a.nrows) words) c.setZero.words }
  else
    none

/-- `blockmatrix_transpose`; `none` is a failed assertion. -/
def transpose (b a : BlockMatrix) : Option BlockMatrix :=
  if b.nrows = a.ncols ∧ a.nrows = b.ncols then
    some { b with
      words := forRange a.nrblocks (fun i words =>
        forRange a.ncblocks (fun j words =>
          transp6464 words (b.block j i) a.words (a.block i j)) words) b.words }
  else
    none

/-- The mask of block `b` in `blockmatrix_copy_colrange`. -/
def colMask (j0 j1 b : ℕ) : BitVec 64 :=
  let mask := BitVec.allOnes 64
  let z0 : ℤ := j0 - b * 64
  let mask := if z0 ≥ 0 then mask &&& (BitVec.allOnes 64 <<< z0.toNat) else mask
  let z1 : ℤ := 64 - (j1 - b * 64)
  if z1 ≥ 0 then mask &&& (BitVec.allOnes 64 >>> z1.toNat) else mask

/-- `blockmatrix_copy_colrange`; `none` is a failed assertion. -/
def copyColrange (B A : BlockMatrix) (j0 j1 : ℕ) : Option BlockMatrix :=
  let block0 := j0 / 64
  -- the blocks with `b * 64 < j1`, from `block0` on
  let nblocks := (j1 + 63) / 64 - block0
  if A.nrows = B.nrows ∧ A.ncols = B.ncols ∧ A.ncblocks = B.ncblocks ∧
      ∀ b < nblocks, (j0 : ℤ) - (block0 + b : ℕ) * 64 < 64 ∧
        64 - ((j1 : ℤ) - (block0 + b : ℕ) * 64) < 64 then
    some { B with
      words := forRange A.nrblocks (fun i0 words =>
        forRange 64 (fun i words =>
          if i0 * 64 + i < A.nrows then
            forRange nblocks (fun b words =>
              let m := colMask j0 j1 (block0 + b)
              let v := A.words (A.block i0 (block0 + b) + i) &&& m
              let p := B.block i0 (block0 + b) + i
              update words p ((words p &&& ~~~m) ||| v)) words
          else words) words) B.words }
  else
    none

/-- The offset `(i0 + row * 64) * stride + j0 / 64 + col` in flat storage; the product is an
`unsigned int`. -/
def flatBlock (stride i0 j0 row col : ℕ) : ℕ :=
  (i0 + row * 64) * stride % 2 ^ 32 + j0 / 64 + col

/-- The assignments `tp[k * stride] = tm[k]` for the 64 words of a block. -/
def storeRows (tiny : Words) (tp stride : ℕ) (tm : ℕ → BitVec 64) : Words :=
  forRange 64 (fun k tiny => update tiny (tp + k * stride % 2 ^ 32) (tm k)) tiny

/-- `blockmatrix_copy_to_flat` on the flat area `tiny`. -/
def copyToFlat (tiny : Words) (stride i0 j0 : ℕ) (m : BlockMatrix) : Words :=
  forRange m.nrblocks (fun i tiny =>
    forRange m.ncblocks (fun j tiny =>
      let tp := flatBlock stride i0 j0 i j
      storeRows tiny tp stride fun k => m.words (m.block i j + k)) tiny) tiny

/-- `blockmatrix_copy_transpose_to_flat` on the flat area `tiny`. -/
def copyTransposeToFlat (tiny : Words) (stride i0 j0 : ℕ) (m : BlockMatrix) : Words :=
  forRange m.nrblocks (fun i tiny =>
    forRange m.ncblocks (fun j tiny =>
      let tm := transp6464 (fun _ => 0#64) 0 m.words (m.block i j)
      let tp := flatBlock stride i0 j0 j i
      storeRows tiny tp stride tm) tiny) tiny

/-- `blockmatrix_copy_transpose_from_flat`. -/
def copyTransposeFromFlat (m : BlockMatrix) (tiny : Words) (stride i0 j0 : ℕ) : BlockMatrix :=
  { m with
    words := forRange m.nrblocks (fun i words =>
      forRange m.ncblocks (fun j words =>
        let tp := flatBlock stride i0 j0 j i
        let tm := fun k => tiny (tp + k * stride % 2 ^ 32)
        transp6464 words (m.block i j) tm 0) words) m.words }

/-- `blockmatrix_copy_from_flat`. -/
def copyFromFlat (m : BlockMatrix) (tiny : Words) (stride i0 j0 : ℕ) : BlockMatrix :=
  { m with
    words := forRange m.nrblocks (fun i words =>
      forRange m.ncblocks (fun j words =>
        let tp := flatBlock stride i0 j0 i j
        forRange 64 (fun k words =>
          update words (m.block i j + k) (tiny (tp + k * stride % 2 ^ 32))) words) words)
        m.words }

/-- `blockmatrix_submatrix`; `none` is a failed assertion. -/
def submatrix (k : BlockMatrix) (i0 j0 nrows ncols : ℕ) : Option BlockMatrix :=
  if h : i0 % 64 = 0 ∧ j0 % 64 = 0 ∧ i0 + nrows ≤ k.nrows ∧ j0 + ncols ≤ k.ncols then
    some {
      words := k.words
      mb := k.mb + i0 / 64 + j0 / 64 * k.stride
      nrblocks := (nrows + 63) / 64
      ncblocks := (ncols + 63) / 64
      nrows := nrows
      ncols := ncols
      sub := true
      stride := k.nrblocks
      nrblocks_eq := rfl
      ncblocks_eq := rfl
      nrblocks_le := by
        have := k.nrblocks_eq
        omega
      stride_eq := nofun }
  else
    none

/-- The parent after an operation on a view of it, which has its area in common. -/
def writeBack (k v : BlockMatrix) : BlockMatrix :=
  { k with words := v.words }

/-! ## Addresses -/

section

variable (m : BlockMatrix)

theorem block_add_inj {i j r i' j' r' : ℕ} (hi : i < m.nrblocks)
    (hi' : i' < m.nrblocks) (hr : r < 64) (hr' : r' < 64)
    (h : m.block i j + r = m.block i' j' + r') : i = i' ∧ j = j' ∧ r = r' := by
  have hstride := m.nrblocks_le
  unfold block at h
  have hsum : i + j * m.stride = i' + j' * m.stride := by omega
  have hmod := congrArg (· % m.stride) hsum
  simp only [Nat.add_mul_mod_self_right, Nat.mod_eq_of_lt (hi.trans_le hstride),
    Nat.mod_eq_of_lt (hi'.trans_le hstride)] at hmod
  subst hmod
  have hmul : j * m.stride = j' * m.stride := by omega
  refine ⟨rfl, Nat.eq_of_mul_eq_mul_right (by omega) hmul, by omega⟩

theorem block_zero_add (i j r : ℕ) : m.block 0 j + (64 * i + r) = m.block i j + r := by
  unfold block
  omega

theorem block_zero_add_row (i j : ℕ) : m.block 0 j + i = m.block (i / 64) j + i % 64 := by
  rw [← block_zero_add m (i / 64), div_add_mod]

theorem div_lt_nrblocks {i : ℕ} (hi : i < m.nrows) : i / 64 < m.nrblocks := by
  have := m.nrblocks_eq
  omega

theorem div_lt_ncblocks {j : ℕ} (hj : j < m.ncols) : j / 64 < m.ncblocks := by
  have := m.ncblocks_eq
  omega

end

theorem Outside.ne {m : BlockMatrix} {y : ℕ} (hy : m.Outside y) {i j : ℕ}
    (hi : i < m.nrblocks) (hj : j < m.ncblocks) : ∀ r < 64, y ≠ m.block i j + r :=
  hy i hi j hj

theorem block_add_ne (m : BlockMatrix) {i j r i' j' : ℕ} (hi : i < m.nrblocks)
    (hi' : i' < m.nrblocks) (hr : r < 64) (hne : (i', j') ≠ (i, j)) :
    ∀ r' < 64, m.block i j + r ≠ m.block i' j' + r' := by
  intro r' hr' heq
  obtain ⟨rfl, rfl, -⟩ := m.block_add_inj hi hi' hr hr' heq
  exact hne rfl

/-! ## Clearing -/

theorem memset0_apply (p n y : ℕ) :
    memset0 words p n y = if p ≤ y ∧ y < p + n then 0#64 else words y := by
  by_cases hy : p ≤ y ∧ y < p + n
  · obtain ⟨x, rfl⟩ := Nat.exists_eq_add_of_le hy.1
    rw [if_pos hy, memset0, forRange_update_apply (p := fun x => p + x) (fun _ => 0#64)
      (fun i _ j _ h => by omega) (by omega)]
  · rw [if_neg hy, memset0,
      forRange_update_of_ne (p := fun x => p + x) (fun _ => 0#64) (fun i _ => by omega)]

theorem setZero_block (b : BlockMatrix) {i j r : ℕ} (hi : i < b.nrblocks)
    (hj : j < b.ncblocks) (hr : r < 64) : b.setZero.words (b.block i j + r) = 0#64 := by
  unfold setZero
  by_cases hsub : b.sub = false
  · simp only [if_pos hsub]
    rw [memset0_apply, if_pos]
    have hle : b.nrblocks * (j + 1) ≤ b.nrblocks * b.ncblocks := Nat.mul_le_mul_left _ hj
    rw [block, b.stride_eq hsub, mul_comm j]
    rw [Nat.mul_succ] at hle
    omega
  · simp only [if_neg hsub]
    rw [forRange_at_only hj]
    · rw [memset0_apply, if_pos]
      rw [← block_zero_add]
      omega
    · intro j' hj' hne words
      rw [memset0_apply, if_neg]
      rintro ⟨hle, hlt⟩
      obtain ⟨x, hx⟩ := Nat.exists_eq_add_of_le hle
      have hlast : x / 64 < b.nrblocks := by omega
      rw [block_zero_add_row] at hx
      obtain ⟨-, rfl, -⟩ := b.block_add_inj hi hlast hr (mod_lt _ (by decide)) hx
      exact hne rfl
    · intro words words' _
      rw [memset0_apply, memset0_apply, if_pos, if_pos] <;>
        rw [← block_zero_add] <;> omega

theorem setZero_outside (b : BlockMatrix) {y : ℕ} (hy : b.Outside y) :
    b.setZero.words y = b.words y := by
  unfold setZero
  by_cases hsub : b.sub = false
  · simp only [if_pos hsub]
    rw [memset0_apply, if_neg]
    rintro ⟨hle, hlt⟩
    obtain ⟨x, rfl⟩ := Nat.exists_eq_add_of_le hle
    have hx : x / 64 < b.nrblocks * b.ncblocks := by omega
    have hpos : 0 < b.nrblocks := Nat.pos_of_ne_zero fun h => by simp [h] at hx
    refine hy (x / 64 % b.nrblocks) (mod_lt _ hpos) (x / 64 / b.nrblocks)
      (Nat.div_lt_of_lt_mul hx) (x % 64) (mod_lt _ (by decide)) ?_
    have hdiv := Nat.mod_add_div (x / 64) b.nrblocks
    rw [block, b.stride_eq hsub, mul_comm (x / 64 / b.nrblocks), hdiv]
    omega
  · simp only [if_neg hsub]
    refine forRange_at_id (fun j hj words => ?_) b.words
    rw [memset0_apply, if_neg]
    rintro ⟨hle, hlt⟩
    obtain ⟨x, rfl⟩ := Nat.exists_eq_add_of_le hle
    refine hy (x / 64) (by omega) j hj (x % 64) (mod_lt _ (by decide)) ?_
    exact b.block_zero_add_row x j

/-! ## What operations write -/

/-- An operation turns `c` into `c'` by writing given entries, padding columns
included, and no word outside the blocks of `c`. -/
structure Writes (c c' : BlockMatrix) (f : ℕ → ℕ → ZMod 2) : Prop where
  shape : c' = { c with words := c'.words }
  entry : ∀ i < c.nrows, ∀ j < 64 * c.ncblocks, c'.entry i j = f i j
  frame : ∀ y, c.Outside y → c'.words y = c.words y

theorem entry_eq (m : BlockMatrix) (i j : ℕ) :
    m.entry i j = bit (m.words (m.block 0 (j / 64) + i)) (j % 64) := by
  rw [entry, block_zero_add_row]

/-! ## Products -/

variable {c a b : BlockMatrix}

/-- `blockmatrix_mul_Ta_b` gives the product of the transpose of `a` with
`b`. -/
theorem mulTaB_spec (hrows : c.nrows = a.ncols)
    (hcols : c.ncols = b.ncols) (hmid : a.nrows = b.nrows) :
    ∃ c', mulTaB c a b = some c' ∧
      Writes c c' fun i j => ∑ k ∈ range a.nrows, a.entry k i * b.entry k j := by
  refine ⟨_, if_pos ⟨⟨hrows, hcols, hmid⟩, rfl, rfl⟩, rfl, ?_, ?_⟩
  · intro i hi j hj
    have hI := c.div_lt_nrblocks hi
    have hJ : j / 64 < c.ncblocks := by omega
    have hr : i % 64 < 64 := mod_lt _ (by decide)
    have hword := forRange_nested_at_only (x := c.block (i / 64) (j / 64) + i % 64)
      (fun i j words => addmulTN64N64 words (c.block i j) a.words (a.block 0 i)
        b.words (b.block 0 j) a.nrows) hI hJ
      (fun i' hi' j' _ hne words => addmulTN64N64_frame words a.words _ b.words _ _
        (c.block_add_ne hI hi' hr hne))
      (fun words words' hw => by rw [addmulTN64N64_apply, addmulTN64N64_apply, hw])
      c.setZero.words
    refine (congrArg (bit · (j % 64)) hword).trans ?_
    rw [bit_addmulTN64N64 _ _ _ _ _ _ _ hr, setZero_block c hI hJ hr, bit_zero, zero_add]
    exact sum_congr rfl fun k _ => by rw [a.entry_eq, b.entry_eq]
  · intro y hy
    refine (forRange_nested_at_id (fun i hi j hj words => ?_) _).trans (c.setZero_outside hy)
    exact addmulTN64N64_frame words a.words _ b.words _ _ (hy.ne hi hj)

theorem bit_forRange_addmulN646464 (n : ℕ) (C : Words) (pC : ℕ) (A : Words) (pA : ℕ → ℕ)
    (B : Words) (pB : ℕ → ℕ) {m i : ℕ} (hi : i < m) (t : ℕ) :
    bit (forRange n (fun k C => addmulN646464 C pC A (pA k) B (pB k) m) C (pC + i)) t
      = bit (C (pC + i)) t
        + ∑ k ∈ range n, ∑ s ∈ range 64, bit (A (pA k + i)) s * bit (B (pB k + s)) t := by
  induction n with
  | zero => simp
  | succ n ih =>
    rw [forRange_succ, bit_addmulN646464 _ _ _ _ _ _ hi, ih, sum_range_succ _ n, add_assoc]

theorem sum_range_blocks {M : Type*} [AddCommMonoid M] (n : ℕ) (f : ℕ → M) :
    ∑ k ∈ range (64 * n), f k = ∑ i ∈ range n, ∑ s ∈ range 64, f (64 * i + s) := by
  induction n with
  | zero => rfl
  | succ n ih => rw [Nat.mul_succ, sum_range_add, ih, sum_range_succ _ n]

/-- The product by blocks includes the padding of the middle dimension. -/
theorem mulSmallb_padded (hrows : c.nrows = a.nrows)
    (hcols : c.ncols = b.ncols) (hmid : a.ncols = b.nrows) :
    ∃ c', mulSmallb c a b = some c' ∧
      Writes c c' fun i j => ∑ k ∈ range (64 * b.nrblocks), a.entry i k * b.entry k j := by
  have hblocks : b.ncblocks = c.ncblocks := by rw [b.ncblocks_eq, c.ncblocks_eq, hcols]
  have hout : ∀ {y j : ℕ} (words : Words), (∀ r < c.nrows, y ≠ c.block 0 j + r) →
      forRange b.nrblocks (fun i words => addmulN646464 words (c.block 0 j) a.words
        (a.block 0 i) b.words (b.block i j) a.nrows) words y = words y := by
    intro y j words hy
    exact forRange_at_id (fun i _ words => addmulN646464_frame words a.words _ b.words _
      (hrows ▸ hy)) words
  refine ⟨_, if_pos ⟨⟨hrows, hcols, hmid⟩, rfl, rfl⟩, rfl, ?_, ?_⟩
  · intro i hi j hj
    have hI := c.div_lt_nrblocks hi
    have hJ : j / 64 < c.ncblocks := by omega
    have hr : i % 64 < 64 := mod_lt _ (by decide)
    have hother : ∀ j' < b.ncblocks, j' ≠ j / 64 → ∀ r < c.nrows,
        c.block 0 (j / 64) + i ≠ c.block 0 j' + r := by
      intro j' _ hne r hr' heq
      rw [block_zero_add_row, block_zero_add_row c r] at heq
      obtain ⟨-, hj', -⟩ := c.block_add_inj hI (c.div_lt_nrblocks hr') hr
        (mod_lt _ (by decide)) heq
      exact hne hj'.symm
    have hlocal : ∀ words words' : Words,
        words (c.block 0 (j / 64) + i) = words' (c.block 0 (j / 64) + i) →
        forRange b.nrblocks (fun i words => addmulN646464 words (c.block 0 (j / 64)) a.words
            (a.block 0 i) b.words (b.block i (j / 64)) a.nrows) words
            (c.block 0 (j / 64) + i)
          = forRange b.nrblocks (fun i words => addmulN646464 words (c.block 0 (j / 64))
            a.words (a.block 0 i) b.words (b.block i (j / 64)) a.nrows) words'
            (c.block 0 (j / 64) + i) := by
      intro words words' hw
      refine forRange_at_local (fun k _ words words' hw => ?_) hw
      rw [addmulN646464_apply, addmulN646464_apply, hw]
    have hword := forRange_at_only (hblocks ▸ hJ)
      (fun j' hj' hne words => hout words (hother j' hj' hne)) hlocal c.setZero.words
    rw [entry_eq]
    refine (congrArg (bit · (j % 64)) hword).trans ?_
    rw [bit_forRange_addmulN646464 _ _ _ _ _ _ _ (hrows ▸ hi), block_zero_add_row,
      setZero_block c hI hJ hr, bit_zero, zero_add, sum_range_blocks]
    refine sum_congr rfl fun k _ => sum_congr rfl fun s hs => ?_
    have hs' := mem_range.mp hs
    congr 1
    · rw [a.entry_eq, show (64 * k + s) / 64 = k by omega, show (64 * k + s) % 64 = s by omega]
    · rw [entry, show (64 * k + s) / 64 = k by omega, show (64 * k + s) % 64 = s by omega]
  · intro y hy
    refine (forRange_at_id (fun j hj words => hout words fun r hr => ?_) _).trans
      (c.setZero_outside hy)
    rw [block_zero_add_row]
    exact hy.ne (c.div_lt_nrblocks hr) (hblocks ▸ hj) _ (mod_lt _ (by decide))

theorem sum_padded {a b : BlockMatrix} (hmid : a.ncols = b.nrows) {i j : ℕ}
    (hpad : ∀ k, a.ncols ≤ k → k < 64 * b.nrblocks → a.entry i k * b.entry k j = 0) :
    ∑ k ∈ range (64 * b.nrblocks), a.entry i k * b.entry k j
      = ∑ k ∈ range a.ncols, a.entry i k * b.entry k j := by
  have hle : a.ncols ≤ 64 * b.nrblocks := by
    have := b.nrblocks_eq
    omega
  refine (sum_subset (range_subset_range.mpr hle) fun k hk hk' => ?_).symm
  exact hpad k (not_lt.mp fun h => hk' (mem_range.mpr h)) (mem_range.mp hk)

/-- `blockmatrix_mul_smallb` gives the product when the padding rows of `b` are
zero. -/
theorem mulSmallb_spec (hrows : c.nrows = a.nrows)
    (hcols : c.ncols = b.ncols) (hmid : a.ncols = b.nrows)
    (hpad : ∀ k, b.nrows ≤ k → k < 64 * b.nrblocks → ∀ j < 64 * b.ncblocks, b.entry k j = 0) :
    ∃ c', mulSmallb c a b = some c' ∧
      Writes c c' fun i j => ∑ k ∈ range a.ncols, a.entry i k * b.entry k j := by
  obtain ⟨c', hc', hwrites⟩ := mulSmallb_padded hrows hcols hmid
  refine ⟨c', hc', hwrites.shape, fun i hi j hj => ?_, hwrites.frame⟩
  have hblocks : b.ncblocks = c.ncblocks := by rw [b.ncblocks_eq, c.ncblocks_eq, hcols]
  rw [hwrites.entry i hi j hj]
  exact sum_padded hmid fun k hk hk' => by
    rw [hpad k (hmid ▸ hk) hk' j (hblocks ▸ hj), mul_zero]

/-! ## Transpose -/

/-- `blockmatrix_transpose` gives the transpose, padding included. -/
theorem transpose_spec {b a : BlockMatrix} (hrows : b.nrows = a.ncols)
    (hcols : a.nrows = b.ncols) :
    ∃ b', transpose b a = some b' ∧ Writes b b' fun i j => a.entry j i := by
  have hnr : a.ncblocks = b.nrblocks := by rw [a.ncblocks_eq, b.nrblocks_eq, hrows]
  have hnc : a.nrblocks = b.ncblocks := by rw [a.nrblocks_eq, b.ncblocks_eq, hcols]
  refine ⟨_, if_pos ⟨hrows, hcols⟩, rfl, ?_, ?_⟩
  · intro i hi j hj
    have hI := b.div_lt_nrblocks hi
    have hJ : j / 64 < b.ncblocks := by omega
    have hr : i % 64 < 64 := mod_lt _ (by decide)
    have hword := forRange_nested_at_only (x := b.block (i / 64) (j / 64) + i % 64)
      (fun i j words => transp6464 words (b.block j i) a.words (a.block i j))
      (hnc ▸ hJ) (hnr ▸ hI)
      (fun j' hj' i' hi' hne words => transp6464_frame words a.words _
        (b.block_add_ne hI (hnr ▸ hi') hr fun h => hne (by
          rw [Prod.mk.injEq] at h ⊢
          exact h.symm)))
      (fun words words' hw => by rw [transp6464_apply, transp6464_apply, hw])
      b.words
    refine (congrArg (bit · (j % 64)) hword).trans ?_
    exact bit_transp6464 _ _ _ _ hr (mod_lt _ (by decide))
  · intro y hy
    exact forRange_nested_at_id (fun j hj i hi words => transp6464_frame words a.words _
      (hy.ne (hnr ▸ hi) (hnc ▸ hj))) b.words

/-! ## Column ranges -/

theorem getLsbD_colMask {j0 j1 b t : ℕ} (hb : b * 64 < j1) (ht : t < 64) :
    (colMask j0 j1 b).getLsbD t = decide (j0 ≤ b * 64 + t ∧ b * 64 + t < j1) := by
  unfold colMask
  have hz1 : (64 - ((j1 : ℤ) - b * 64)).toNat = 64 - (j1 - b * 64) := by omega
  have hz0 : ((j0 : ℤ) - b * 64).toNat = j0 - b * 64 := by omega
  simp only [hz0, hz1]
  split_ifs with h1 h2 h2 <;>
    simp only [BitVec.getLsbD_and, BitVec.getLsbD_allOnes, BitVec.getLsbD_shiftLeft,
      BitVec.getLsbD_ushiftRight, ht, decide_true, Bool.true_and] <;>
    rw [Bool.eq_iff_iff] <;>
    simp only [Bool.and_eq_true, Bool.not_eq_true', decide_eq_true_eq, decide_eq_false_iff_not,
      true_iff] <;>
    omega

theorem bit_masked (p v m : BitVec 64) {t : ℕ} (ht : t < 64) :
    bit ((p &&& ~~~m) ||| (v &&& m)) t = if m.getLsbD t then bit v t else bit p t := by
  unfold bit
  rw [BitVec.getLsbD_or, BitVec.getLsbD_and, BitVec.getLsbD_and, BitVec.getLsbD_not,
    decide_eq_true ht, Bool.true_and]
  cases m.getLsbD t <;> simp

/-- What `blockmatrix_copy_colrange` does in one row of words. -/
def copyRow (B A : BlockMatrix) (j0 j1 i0 i : ℕ) (words : Words) : Words :=
  forRange ((j1 + 63) / 64 - j0 / 64) (fun b words =>
    let m := colMask j0 j1 (j0 / 64 + b)
    let v := A.words (A.block i0 (j0 / 64 + b) + i) &&& m
    let p := B.block i0 (j0 / 64 + b) + i
    update words p ((words p &&& ~~~m) ||| v)) words

variable {B A : BlockMatrix}

theorem copyRow_of_ne {j0 j1 i0 i y : ℕ}
    (hy : ∀ b, j0 / 64 ≤ b → b < (j1 + 63) / 64 → y ≠ B.block i0 b + i) (words : Words) :
    copyRow B A j0 j1 i0 i words y = words y :=
  forRange_at_id (fun _ _ _ => update_of_ne (hy _ (by omega) (by omega)) _ _) words

theorem bit_copyRow {j0 j1 i0 i J t : ℕ} (hi0 : i0 < B.nrblocks)
    (hi : i < 64) (ht : t < 64) (words : Words) :
    bit (copyRow B A j0 j1 i0 i words (B.block i0 J + i)) t
      = if j0 ≤ J * 64 + t ∧ J * 64 + t < j1 then bit (A.words (A.block i0 J + i)) t
        else bit (words (B.block i0 J + i)) t := by
  by_cases hJ : j0 / 64 ≤ J ∧ J < (j1 + 63) / 64
  · obtain ⟨b, rfl⟩ := Nat.exists_eq_add_of_le hJ.1
    have hword : copyRow B A j0 j1 i0 i words (B.block i0 (j0 / 64 + b) + i)
        = (words (B.block i0 (j0 / 64 + b) + i) &&& ~~~(colMask j0 j1 (j0 / 64 + b)))
          ||| (A.words (A.block i0 (j0 / 64 + b) + i) &&& colMask j0 j1 (j0 / 64 + b)) := by
      refine (forRange_at_only (show b < _ by omega) ?_ ?_ words).trans ?_
      · intro b' _ hne words
        refine update_of_ne (fun heq => hne ?_) _ _
        obtain ⟨-, hb, -⟩ := B.block_add_inj hi0 hi0 hi hi heq
        omega
      · intro words words' hw
        simp [hw]
      · exact update_self _ _ _
    rw [hword, bit_masked _ _ _ ht, getLsbD_colMask (by omega) ht]
    simp
  · rw [copyRow_of_ne (fun b hb hb' heq => hJ ?_), if_neg (by omega)]
    obtain ⟨-, rfl, -⟩ := B.block_add_inj hi0 hi0 hi hi heq
    exact ⟨hb, hb'⟩

/-- `blockmatrix_copy_colrange` copies the columns of the range, in the rows of the
matrix, and changes no other bit. -/
theorem copyColrange_spec {j0 j1 : ℕ} (hrows : A.nrows = B.nrows)
    (hcols : A.ncols = B.ncols) (hj1 : j1 ≤ A.ncols) :
    ∃ B', copyColrange B A j0 j1 = some B' ∧
      Writes B B' (fun i j => if j0 ≤ j ∧ j < j1 then A.entry i j else B.entry i j) ∧
      ∀ i, B.nrows ≤ i → i < 64 * B.nrblocks → ∀ j < 64 * B.ncblocks,
        B'.entry i j = B.entry i j := by
  have hnr : A.nrblocks = B.nrblocks := by rw [A.nrblocks_eq, B.nrblocks_eq, hrows]
  have hnc : A.ncblocks = B.ncblocks := by rw [A.ncblocks_eq, B.ncblocks_eq, hcols]
  have hguard : ∀ b < (j1 + 63) / 64 - j0 / 64, (j0 : ℤ) - (j0 / 64 + b : ℕ) * 64 < 64 ∧
      64 - ((j1 : ℤ) - (j0 / 64 + b : ℕ) * 64) < 64 := by
    intro b hb
    omega
  have hrange : ∀ b, b < (j1 + 63) / 64 → b < B.ncblocks := by
    intro b hb
    have := B.ncblocks_eq
    omega
  let body : ℕ → ℕ → Words → Words := fun i0 i words =>
    if i0 * 64 + i < A.nrows then copyRow B A j0 j1 i0 i words else words
  have hother : ∀ {i0 i j y : ℕ}, i0 < A.nrblocks → i < 64 → y < B.nrblocks →
      ∀ {r}, r < 64 → (i0, i) ≠ (y, r) → ∀ words,
        body i0 i words (B.block y j + r) = words (B.block y j + r) := by
    intro i0 i j y hi0 hi hy r hr hne words
    by_cases hrow : i0 * 64 + i < A.nrows
    · refine (congrFun (if_pos hrow) _).trans (copyRow_of_ne (fun b _ _ heq => hne ?_) words)
      obtain ⟨rfl, -, rfl⟩ := B.block_add_inj hy (hnr ▸ hi0) hr hi heq
      rfl
    · exact congrFun (if_neg hrow) _
  have hresult : ∀ i < 64 * B.nrblocks, ∀ j,
      bit (forRange A.nrblocks (fun i0 => forRange 64 (body i0)) B.words
          (B.block (i / 64) (j / 64) + i % 64)) (j % 64)
        = bit (body (i / 64) (i % 64) B.words (B.block (i / 64) (j / 64) + i % 64))
            (j % 64) := by
    intro i hi j
    have hI : i / 64 < B.nrblocks := by omega
    have hr : i % 64 < 64 := mod_lt _ (by decide)
    refine congrArg (bit · (j % 64)) (forRange_nested_at_only _ (hnr ▸ hI) hr
      (fun i0 hi0 i' hi' hne words => hother hi0 hi' hI hr hne words) ?_ B.words)
    intro words words' hw
    refine eq_of_bit_eq fun t ht => ?_
    by_cases hrow : i / 64 * 64 + i % 64 < A.nrows
    · simp only [body, if_pos hrow]
      rw [bit_copyRow hI hr ht, bit_copyRow hI hr ht, hw]
    · simp [body, if_neg hrow, hw]
  refine ⟨_, if_pos ⟨hrows, hcols, hnc, hguard⟩, ⟨rfl, ?_, ?_⟩, ?_⟩
  · intro i hi j hj
    have hI := B.div_lt_nrblocks hi
    refine (hresult i (by omega) j).trans ?_
    have hrow : i / 64 * 64 + i % 64 < A.nrows := by omega
    simp only [body, if_pos hrow]
    rw [bit_copyRow hI (mod_lt _ (by decide)) (mod_lt _ (by decide)), Nat.div_add_mod' j 64]
    rfl
  · intro y hy
    refine forRange_nested_at_id (fun i0 hi0 i hi words => ?_) B.words
    by_cases hrow : i0 * 64 + i < A.nrows
    · refine (congrFun (if_pos hrow) _).trans (copyRow_of_ne (fun b _ hb => ?_) words)
      exact hy.ne (hnr ▸ hi0) (hrange b hb) i hi
    · exact congrFun (if_neg hrow) _
  · intro i hi hi' j hj
    refine (hresult i hi' j).trans ?_
    have hrow : ¬i / 64 * 64 + i % 64 < A.nrows := by omega
    simp only [body, if_neg hrow]
    rfl

/-! ## Flat storage -/

section Flat

variable {m m' : BlockMatrix} {tiny : Words} {stride i0 j0 : ℕ}

theorem flat_add_inj {row col row' col' : ℕ} (hcol : col < stride) (hcol' : col' < stride)
    (h : row * stride + col = row' * stride + col') : row = row' ∧ col = col' := by
  rw [mul_comm row, mul_comm row'] at h
  exact cell_inj hcol hcol' h

/-- The place of row `k` of a block where the products do not wrap. -/
theorem flatBlock_add {row k : ℕ} (hk : k < 64) (hfits : (i0 + 64 * (row + 1)) * stride ≤ 2 ^ 32)
    (j0 col : ℕ) : flatBlock stride i0 j0 row col + k * stride % 2 ^ 32
      = (i0 + (64 * row + k)) * stride + (j0 / 64 + col) := by
  rcases Nat.eq_zero_or_pos stride with rfl | hpos
  · simp [flatBlock]
  · have hrow : (i0 + row * 64) * stride < (i0 + 64 * (row + 1)) * stride :=
      Nat.mul_lt_mul_of_pos_right (by omega) hpos
    have hword : k * stride < (i0 + 64 * (row + 1)) * stride :=
      Nat.mul_lt_mul_of_pos_right (by omega) hpos
    rw [flatBlock, Nat.mod_eq_of_lt (hrow.trans_le hfits), Nat.mod_eq_of_lt (hword.trans_le hfits)]
    ring

/-- No row of a block that is `live` is overwritten when `n` rows of `l` blocks are stored; `x` is
the number of such a row in the order of the loops, and a block goes to the place `tp`. -/
def Keeps (stride n l : ℕ) (tp : ℕ → ℕ → ℕ) (live : ℕ → Prop) : Prop :=
  ∀ x y, live x → x < y → y < n * l * 64 →
    tp (y / 64 / l) (y / 64 % l) + y % 64 * stride % 2 ^ 32
      ≠ tp (x / 64 / l) (x / 64 % l) + x % 64 * stride % 2 ^ 32

/-- The flat storage keeps the rows of a matrix. -/
def FlatKeeps (nrows ncols stride i0 j0 : ℕ) : Prop :=
  Keeps stride ((nrows + 63) / 64) ((ncols + 63) / 64) (flatBlock stride i0 j0)
    fun x => 64 * (x / 64 / ((ncols + 63) / 64)) + x % 64 < nrows

/-- The transposed flat storage keeps the columns of a matrix. -/
def TransposeKeeps (nrows ncols stride i0 j0 : ℕ) : Prop :=
  Keeps stride ((nrows + 63) / 64) ((ncols + 63) / 64) (fun i j => flatBlock stride i0 j0 j i)
    fun _ => True

section Store

variable {n l i j k : ℕ} {tp : ℕ → ℕ → ℕ} {tm : ℕ → ℕ → ℕ → BitVec 64} {live : ℕ → Prop}

theorem number_of_row (hi : i < n) (hj : j < l) (hk : k < 64) :
    ((i * l + j) * 64 + k) / 64 / l = i ∧ ((i * l + j) * 64 + k) / 64 % l = j ∧
      ((i * l + j) * 64 + k) % 64 = k ∧ (i * l + j) * 64 + k < n * l * 64 := by
  have hblock : ((i * l + j) * 64 + k) / 64 = i * l + j := by omega
  have hle : i * l + l ≤ n * l := by
    rw [← Nat.succ_mul]
    exact Nat.mul_le_mul_right l hi
  rw [hblock]
  refine ⟨?_, ?_, by omega, by omega⟩
  · rw [mul_comm, Nat.mul_add_div (by omega), Nat.div_eq_of_lt hj, add_zero]
  · rw [mul_comm, Nat.mul_add_mod, Nat.mod_eq_of_lt hj]

theorem row_of_number {x : ℕ} (hx : x < n * l * 64) :
    x / 64 / l < n ∧ x / 64 % l < l ∧ x % 64 < 64 := by
  have hblock : x / 64 < n * l := by omega
  have hpos : 0 < l := Nat.pos_of_ne_zero fun h => by simp [h] at hblock
  exact ⟨Nat.div_lt_of_lt_mul (by rwa [mul_comm l]), mod_lt _ hpos, mod_lt _ (by decide)⟩

variable (tp tm stride) in
/-- What is stored last at the place of row number `x`. -/
theorem storeBlocks_last {x : ℕ} (hx : x < n * l * 64)
    (hlater : ∀ y < n * l * 64, x < y → tp (y / 64 / l) (y / 64 % l) + y % 64 * stride % 2 ^ 32
        = tp (x / 64 / l) (x / 64 % l) + x % 64 * stride % 2 ^ 32 →
      tm (y / 64 / l) (y / 64 % l) (y % 64) = tm (x / 64 / l) (x / 64 % l) (x % 64))
    (tiny : Words) :
    forRange n (fun i => forRange l fun j tiny => storeRows tiny (tp i j) stride (tm i j)) tiny
        (tp (x / 64 / l) (x / 64 % l) + x % 64 * stride % 2 ^ 32)
      = tm (x / 64 / l) (x / 64 % l) (x % 64) := by
  have hloops := forRange_flatten (n * l) 64 (fun y k tiny =>
    update tiny (tp (y / l) (y % l) + k * stride % 2 ^ 32) (tm (y / l) (y % l) k)) tiny
  rw [forRange_flatten n l]
  exact (congrFun hloops _).trans (forRange_update_last (p := fun x =>
    tp (x / 64 / l) (x / 64 % l) + x % 64 * stride % 2 ^ 32)
    (v := fun x => tm (x / 64 / l) (x / 64 % l) (x % 64)) hx hlater tiny)

theorem Keeps.apply (h : Keeps stride n l tp live) (hi : i < n) (hj : j < l) (hk : k < 64)
    (hlive : live ((i * l + j) * 64 + k)) (tm : ℕ → ℕ → ℕ → BitVec 64) (tiny : Words) :
    forRange n (fun i => forRange l fun j tiny => storeRows tiny (tp i j) stride (tm i j)) tiny
        (tp i j + k * stride % 2 ^ 32) = tm i j k := by
  obtain ⟨hrow, hcol, hword, hx⟩ := number_of_row hi hj hk
  have hlast := storeBlocks_last stride tp tm hx
    (fun y hy hlt heq => absurd heq (h _ y hlive hlt hy)) tiny
  rwa [hrow, hcol, hword] at hlast

/-- Offsets that do not wrap keep everything. -/
theorem keeps_of_fits (row col : ℕ → ℕ → ℕ) (live : ℕ → Prop)
    (hfits : ∀ i < n, ∀ j < l, (i0 + 64 * (row i j + 1)) * stride ≤ 2 ^ 32)
    (hcol : ∀ i < n, ∀ j < l, j0 / 64 + col i j < stride)
    (hinj : ∀ i j i' j', row i j = row i' j' → col i j = col i' j' → i = i' ∧ j = j') :
    Keeps stride n l (fun i j => flatBlock stride i0 j0 (row i j) (col i j)) live := by
  intro x y _ hlt hy heq
  obtain ⟨hxi, hxj, hxk⟩ := row_of_number (hlt.trans hy)
  obtain ⟨hyi, hyj, hyk⟩ := row_of_number hy
  rw [flatBlock_add hyk (hfits _ hyi _ hyj), flatBlock_add hxk (hfits _ hxi _ hxj)] at heq
  obtain ⟨hrows, hcols⟩ := flat_add_inj (hcol _ hyi _ hyj) (hcol _ hxi _ hxj) heq
  obtain ⟨hdiv, hmod⟩ := hinj (y / 64 / l) (y / 64 % l) (x / 64 / l) (x / 64 % l) (by omega)
    (by omega)
  have hblock := Nat.div_add_mod (x / 64) l
  rw [← hdiv, ← hmod, Nat.div_add_mod] at hblock
  omega

end Store

theorem flatKeeps_of_fits {nrows ncols : ℕ} (hstride : j0 / 64 + (ncols + 63) / 64 ≤ stride)
    (hfits : (i0 + 64 * ((nrows + 63) / 64)) * stride ≤ 2 ^ 32) :
    FlatKeeps nrows ncols stride i0 j0 :=
  keeps_of_fits (fun i _ => i) (fun _ j => j) _
    (fun i hi _ _ => (Nat.mul_le_mul_right stride (by omega)).trans hfits)
    (fun _ _ j hj => by omega) fun _ _ _ _ hrow hcol => ⟨hrow, hcol⟩

theorem transposeKeeps_of_fits {nrows ncols : ℕ} (hstride : j0 / 64 + (nrows + 63) / 64 ≤ stride)
    (hfits : (i0 + 64 * ((ncols + 63) / 64)) * stride ≤ 2 ^ 32) :
    TransposeKeeps nrows ncols stride i0 j0 :=
  keeps_of_fits (fun _ j => j) (fun i _ => i) _
    (fun _ _ j hj => (Nat.mul_le_mul_right stride (by omega)).trans hfits)
    (fun i hi _ _ => by omega) fun _ _ _ _ hrow hcol => ⟨hcol, hrow⟩

variable (tiny) in
/-- A row of a block in flat storage, where nothing overwrites it. -/
theorem copyToFlat_apply (h : FlatKeeps m.nrows m.ncols stride i0 j0) {i j k : ℕ}
    (hj : j < m.ncblocks) (hk : k < 64) (hrow : 64 * i + k < m.nrows) :
    copyToFlat tiny stride i0 j0 m (flatBlock stride i0 j0 i j + k * stride % 2 ^ 32)
      = m.words (m.block i j + k) := by
  have hi := m.nrblocks_eq
  unfold FlatKeeps at h
  rw [← m.nrblocks_eq, ← m.ncblocks_eq] at h
  obtain ⟨hdiv, -, hword, -⟩ := number_of_row (show i < m.nrblocks by omega) hj hk
  exact h.apply (by omega) hj hk (by rwa [hdiv, hword])
    (fun i j k => m.words (m.block i j + k)) tiny

variable (tiny) in
theorem bit_copyTransposeToFlat (h : TransposeKeeps m.nrows m.ncols stride i0 j0) {i j k t : ℕ}
    (hi : i < m.nrblocks) (hj : j < m.ncblocks) (hk : k < 64) (ht : t < 64) :
    bit (copyTransposeToFlat tiny stride i0 j0 m
        (flatBlock stride i0 j0 j i + k * stride % 2 ^ 32)) t
      = bit (m.words (m.block i j + t)) k := by
  unfold TransposeKeeps at h
  rw [← m.nrblocks_eq, ← m.ncblocks_eq] at h
  have hword := h.apply hi hj hk trivial
    (fun i j => transp6464 (fun _ => 0#64) 0 m.words (m.block i j)) tiny
  refine (congrArg (bit · t) hword).trans ?_
  have htransp := bit_transp6464 (fun _ => 0#64) 0 m.words (m.block i j) hk ht
  rwa [zero_add] at htransp

theorem entry_copyFromFlat {i j : ℕ} (hi : i < 64 * m.nrblocks) (hj : j < 64 * m.ncblocks) :
    (copyFromFlat m tiny stride i0 j0).entry i j
      = bit (tiny (flatBlock stride i0 j0 (i / 64) (j / 64) + i % 64 * stride % 2 ^ 32))
        (j % 64) := by
  have hI : i / 64 < m.nrblocks := by omega
  have hJ : j / 64 < m.ncblocks := by omega
  have hr : i % 64 < 64 := mod_lt _ (by decide)
  have hinner : ∀ words : Words,
      forRange 64 (fun k words => update words (m.block (i / 64) (j / 64) + k)
        (tiny (flatBlock stride i0 j0 (i / 64) (j / 64) + k * stride % 2 ^ 32))) words
        (m.block (i / 64) (j / 64) + i % 64)
        = tiny (flatBlock stride i0 j0 (i / 64) (j / 64) + i % 64 * stride % 2 ^ 32) :=
    fun words => forRange_update_apply (p := fun k => m.block (i / 64) (j / 64) + k)
      (fun k => tiny (flatBlock stride i0 j0 (i / 64) (j / 64) + k * stride % 2 ^ 32))
      (fun _ _ _ _ h => Nat.add_left_cancel h) hr words
  refine congrArg (bit · (j % 64)) ?_
  refine (forRange_nested_at_only _ hI hJ ?_ ?_ m.words).trans (hinner m.words)
  · intro i' hi' j' _ hne words
    exact forRange_update_of_ne _ (m.block_add_ne hI hi' hr hne) words
  · exact fun words words' _ => (hinner words).trans (hinner words').symm

theorem copyFromFlat_outside {y : ℕ} (hy : m.Outside y) :
    (copyFromFlat m tiny stride i0 j0).words y = m.words y :=
  forRange_nested_at_id (fun _ hi _ hj words => forRange_update_of_ne _ (hy.ne hi hj) words)
    m.words

theorem entry_copyTransposeFromFlat {i j : ℕ} (hi : i < 64 * m.nrblocks)
    (hj : j < 64 * m.ncblocks) :
    (copyTransposeFromFlat m tiny stride i0 j0).entry i j
      = bit (tiny (flatBlock stride i0 j0 (j / 64) (i / 64) + j % 64 * stride % 2 ^ 32))
        (i % 64) := by
  have hI : i / 64 < m.nrblocks := by omega
  have hJ : j / 64 < m.ncblocks := by omega
  have hr : i % 64 < 64 := mod_lt _ (by decide)
  have ht : j % 64 < 64 := mod_lt _ (by decide)
  have hword := forRange_nested_at_only (x := m.block (i / 64) (j / 64) + i % 64)
    (fun i j words => transp6464 words (m.block i j)
      (fun k => tiny (flatBlock stride i0 j0 j i + k * stride % 2 ^ 32)) 0) hI hJ
    (fun i' hi' j' _ hne words => transp6464_frame words _ _ (m.block_add_ne hI hi' hr hne))
    (fun words words' hw => by rw [transp6464_apply, transp6464_apply, hw]) m.words
  refine (congrArg (bit · (j % 64)) hword).trans ?_
  rw [bit_transp6464 _ _ _ _ hr ht, zero_add]

theorem copyTransposeFromFlat_outside {y : ℕ} (hy : m.Outside y) :
    (copyTransposeFromFlat m tiny stride i0 j0).words y = m.words y :=
  forRange_nested_at_id (fun _ hi _ hj words => transp6464_frame words _ _ (hy.ne hi hj))
    m.words

section RoundTrip

variable {nrows ncols : ℕ}

/-- The rows of the blocks of a matrix lie at different addresses. -/
theorem block_number_inj (words : Words) {x y : ℕ}
    (hx : x < (nrows + 63) / 64 * ((ncols + 63) / 64) * 64)
    (hy : y < (nrows + 63) / 64 * ((ncols + 63) / 64) * 64)
    (h : (alloc words nrows ncols).block (y / 64 / ((ncols + 63) / 64))
        (y / 64 % ((ncols + 63) / 64)) + y % 64
      = (alloc words nrows ncols).block (x / 64 / ((ncols + 63) / 64))
        (x / 64 % ((ncols + 63) / 64)) + x % 64) : y = x := by
  obtain ⟨hxi, -, hxk⟩ := row_of_number hx
  obtain ⟨hyi, -, hyk⟩ := row_of_number hy
  obtain ⟨hdiv, hmod, hword⟩ := (alloc words nrows ncols).block_add_inj hyi hxi hyk hxk h
  have hblock := Nat.div_add_mod (x / 64) ((ncols + 63) / 64)
  rw [← hdiv, ← hmod, Nat.div_add_mod] at hblock
  omega

theorem copyFromFlat_copyToFlat (h : FlatKeeps nrows ncols stride i0 j0) (hm : m.nrows = nrows)
    (hm' : m'.nrows = nrows) (hc : m.ncols = ncols) (hc' : m'.ncols = ncols) :
    Writes m' (copyFromFlat m' (copyToFlat tiny stride i0 j0 m) stride i0 j0) m.entry := by
  subst hm hc
  have hnc : m'.ncblocks = m.ncblocks := by rw [m'.ncblocks_eq, m.ncblocks_eq, hc']
  refine ⟨rfl, fun i hi j hj => ?_, fun y hy => copyFromFlat_outside hy⟩
  have hI := m'.div_lt_nrblocks hi
  rw [entry_copyFromFlat (by omega) hj,
    copyToFlat_apply _ h (by omega) (mod_lt _ (by decide)) (by omega)]
  rfl

/-- `blockmatrix_copy_from_flat` undoes `blockmatrix_copy_to_flat` exactly when no row is
overwritten. -/
theorem copyFromFlat_copyToFlat_iff (tiny : Words) :
    (∀ m m' : BlockMatrix, m.nrows = nrows → m'.nrows = nrows → m.ncols = ncols →
      m'.ncols = ncols →
      Writes m' (copyFromFlat m' (copyToFlat tiny stride i0 j0 m) stride i0 j0) m.entry)
      ↔ FlatKeeps nrows ncols stride i0 j0 := by
  refine ⟨fun h x y hlive hlt hy heq => ?_,
    fun h m m' hm hm' hc hc' => copyFromFlat_copyToFlat h hm hm' hc hc'⟩
  obtain ⟨hi, hj, hk⟩ := row_of_number (hlt.trans hy)
  -- one bit of row `x` is set
  let place := (alloc tiny nrows ncols).block (x / 64 / ((ncols + 63) / 64))
    (x / 64 % ((ncols + 63) / 64)) + x % 64
  let m := alloc (fun p => if p = place then 1#64 else 0#64) nrows ncols
  have hzero : ∀ z < (nrows + 63) / 64 * ((ncols + 63) / 64) * 64, x < z →
      m.words (m.block (z / 64 / ((ncols + 63) / 64)) (z / 64 % ((ncols + 63) / 64)) + z % 64)
        = 0#64 := fun z hz hxz =>
    if_neg fun hplace => hxz.ne' (block_number_inj tiny (hlt.trans hy) hz hplace)
  have hlast := storeBlocks_last stride (flatBlock stride i0 j0)
    (fun i j k => m.words (m.block i j + k)) hy
    (fun z hz hyz _ => (hzero z hz (hlt.trans hyz)).trans (hzero y hy hlt).symm) tiny
  rw [heq, hzero y hy hlt] at hlast
  have hentry := (h m m rfl rfl rfl rfl).entry _ hlive (64 * (x / 64 % ((ncols + 63) / 64)))
    (show _ < 64 * ((ncols + 63) / 64) by omega)
  rw [entry_copyFromFlat (show _ < 64 * ((nrows + 63) / 64) by omega)
    (show _ < 64 * ((ncols + 63) / 64) by omega), entry, Nat.mul_add_div (by decide),
    Nat.div_eq_of_lt hk, add_zero, Nat.mul_div_cancel_left _ (by decide), Nat.mul_add_mod,
    Nat.mod_mod, Nat.mul_mod_right] at hentry
  have hone : m.words (m.block (x / 64 / ((ncols + 63) / 64)) (x / 64 % ((ncols + 63) / 64))
      + x % 64) = 1#64 := if_pos rfl
  rw [hone] at hentry
  exact absurd ((congrArg (bit · 0) hlast).symm.trans hentry) (by decide)

theorem copyTransposeFromFlat_copyTransposeToFlat (h : TransposeKeeps nrows ncols stride i0 j0)
    (hm : m.nrows = nrows) (hm' : m'.nrows = nrows) (hc : m.ncols = ncols)
    (hc' : m'.ncols = ncols) :
    Writes m' (copyTransposeFromFlat m' (copyTransposeToFlat tiny stride i0 j0 m) stride i0 j0)
      m.entry := by
  subst hm hc
  have hnr : m'.nrblocks = m.nrblocks := by rw [m'.nrblocks_eq, m.nrblocks_eq, hm']
  have hnc : m'.ncblocks = m.ncblocks := by rw [m'.ncblocks_eq, m.ncblocks_eq, hc']
  refine ⟨rfl, fun i hi j hj => ?_, fun y hy => copyTransposeFromFlat_outside hy⟩
  have hI := m'.div_lt_nrblocks hi
  rw [entry_copyTransposeFromFlat (by omega) hj, bit_copyTransposeToFlat _ h (hnr ▸ hI) (by omega)
    (mod_lt _ (by decide)) (mod_lt _ (by decide))]
  rfl

/-- The transposed copies undo one another. -/
theorem copyTransposeFromFlat_copyTransposeToFlat_iff (tiny : Words) :
    (∀ m m' : BlockMatrix, m.nrows = nrows → m'.nrows = nrows → m.ncols = ncols →
      m'.ncols = ncols →
      Writes m' (copyTransposeFromFlat m' (copyTransposeToFlat tiny stride i0 j0 m) stride
        i0 j0) m.entry)
      ↔ TransposeKeeps nrows ncols stride i0 j0 := by
  refine ⟨fun h x y _ hlt hy heq => ?_, fun h m m' hm hm' hc hc' =>
    copyTransposeFromFlat_copyTransposeToFlat h hm hm' hc hc'⟩
  obtain ⟨hi, hj, hk⟩ := row_of_number (hlt.trans hy)
  -- the bits of column `x` are set
  let place := (alloc tiny nrows ncols).block (x / 64 / ((ncols + 63) / 64))
    (x / 64 % ((ncols + 63) / 64))
  let m := alloc (fun p => if p / 64 = place / 64 then 1#64 <<< (x % 64) else 0#64) nrows ncols
  let tm := fun i j => transp6464 (fun _ => 0#64) 0 m.words (m.block i j)
  have hbit : ∀ z < (nrows + 63) / 64 * ((ncols + 63) / 64) * 64, ∀ t < 64,
      bit (tm (z / 64 / ((ncols + 63) / 64)) (z / 64 % ((ncols + 63) / 64)) (z % 64)) t
        = if z = x then 1 else 0 := by
    intro z hz t ht
    have htransp := bit_transp6464 (fun _ => 0#64) 0 m.words (m.block (z / 64 / ((ncols + 63) / 64))
      (z / 64 % ((ncols + 63) / 64))) (row_of_number hz).2.2 ht
    rw [zero_add] at htransp
    refine htransp.trans ?_
    by_cases hplace : (m.block (z / 64 / ((ncols + 63) / 64)) (z / 64 % ((ncols + 63) / 64)) + t)
        / 64 = place / 64
    · refine (congrArg (bit · (z % 64)) (if_pos hplace)).trans ((bit_one_shift hk _).trans ?_)
      refine if_congr ⟨fun heq => block_number_inj tiny (hlt.trans hy) hz ?_, fun heq => heq ▸ rfl⟩
        rfl rfl
      simp only [m, place, block, alloc] at hplace ⊢
      omega
    · refine (congrArg (bit · (z % 64)) (if_neg hplace)).trans ((bit_zero _).trans ?_)
      refine (if_neg fun heq => hplace ?_).symm
      simp only [heq, m, place, block, alloc]
      omega
  have hlast := storeBlocks_last stride (fun i j => flatBlock stride i0 j0 j i) tm hy
    (fun z hz hyz _ => eq_of_bit_eq fun t ht => by
      rw [hbit z hz t ht, hbit y hy t ht, if_neg (hlt.trans hyz).ne', if_neg hlt.ne']) tiny
  rw [heq] at hlast
  have hentry := (h m m rfl rfl rfl rfl).entry (64 * (x / 64 / ((ncols + 63) / 64)))
    (show _ < nrows by omega) (64 * (x / 64 % ((ncols + 63) / 64)) + x % 64)
    (show _ < 64 * ((ncols + 63) / 64) by omega)
  rw [entry_copyTransposeFromFlat (show _ < 64 * ((nrows + 63) / 64) by omega)
    (show _ < 64 * ((ncols + 63) / 64) by omega), entry, Nat.mul_add_div (by decide),
    Nat.div_eq_of_lt hk, add_zero, Nat.mul_div_cancel_left _ (by decide), Nat.mul_add_mod,
    Nat.mod_mod, Nat.mul_mod_right, add_zero] at hentry
  have hstored := (congrArg (bit · 0) hlast).trans
    ((hbit y hy 0 (by decide)).trans (if_neg hlt.ne'))
  have hone : bit (m.words place) (x % 64) = 1 :=
    (congrArg (bit · (x % 64)) (if_pos rfl)).trans ((bit_one_shift hk _).trans (if_pos rfl))
  exact absurd (hone.symm.trans (hentry.symm.trans hstored)) (by decide)

end RoundTrip

end Flat

/-! ## Views -/

/-- A view one level deep: its entries are those of the parent, and an operation on it
writes the parent's entries there and leaves every other block of the parent alone. -/
structure IsView (k v : BlockMatrix) (i0 j0 : ℕ) : Prop where
  entry : ∀ i < 64 * v.nrblocks, ∀ j < 64 * v.ncblocks,
    v.entry i j = k.entry (i0 + i) (j0 + j)
  written : ∀ v' f, Writes v v' f → ∀ i < v.nrows, ∀ j < v.ncols,
    (k.writeBack v').entry (i0 + i) (j0 + j) = f i j
  others : ∀ v' f, Writes v v' f → ∀ i < k.nrblocks, ∀ j < k.ncblocks,
    ¬(i0 / 64 ≤ i ∧ i < i0 / 64 + v.nrblocks ∧ j0 / 64 ≤ j ∧ j < j0 / 64 + v.ncblocks) →
    ∀ r < 64, (k.writeBack v').words (k.block i j + r) = k.words (k.block i j + r)

/-- `blockmatrix_submatrix` of an allocated matrix is a view. -/
theorem submatrix_spec {k : BlockMatrix} {i0 j0 nrows ncols : ℕ} (hsub : k.sub = false)
    (hi0 : i0 % 64 = 0) (hj0 : j0 % 64 = 0) (hrows : i0 + nrows ≤ k.nrows)
    (hcols : j0 + ncols ≤ k.ncols) :
    ∃ v, submatrix k i0 j0 nrows ncols = some v ∧ v.nrows = nrows ∧ v.ncols = ncols ∧
      IsView k v i0 j0 := by
  have hstride := k.stride_eq hsub
  have hknr := k.nrblocks_eq
  have hknc := k.ncblocks_eq
  refine ⟨_, dif_pos ⟨hi0, hj0, hrows, hcols⟩, rfl, rfl, ?_⟩
  have hblock : ∀ i j, 64 * (k.mb + i0 / 64 + j0 / 64 * k.stride + (i + j * k.nrblocks))
      = k.block (i0 / 64 + i) (j0 / 64 + j) := by
    intro i j
    unfold block
    rw [hstride, add_mul]
    omega
  have hentry : ∀ (words : Words) (i j : ℕ),
      bit (words (64 * (k.mb + i0 / 64 + j0 / 64 * k.stride + (i / 64 + j / 64 * k.nrblocks))
        + i % 64)) (j % 64)
        = bit (words (k.block ((i0 + i) / 64) ((j0 + j) / 64) + (i0 + i) % 64))
          ((j0 + j) % 64) := by
    intro words i j
    rw [hblock, show (i0 + i) / 64 = i0 / 64 + i / 64 by omega,
      show (j0 + j) / 64 = j0 / 64 + j / 64 by omega, show (i0 + i) % 64 = i % 64 by omega,
      show (j0 + j) % 64 = j % 64 by omega]
  refine ⟨fun i _ j _ => hentry k.words i j, ?_, ?_⟩
  · intro v' f hwrites i hi j hj
    rw [← hwrites.entry i hi j (by simp only at hj ⊢; omega), hwrites.shape]
    exact (hentry v'.words i j).symm
  · intro v' f hwrites i hi j hj hnot r hr
    refine hwrites.frame _ fun i' hi' j' hj' r' hr' heq => hnot ?_
    simp only at hi' hj'
    have hparent : k.block i j + r = k.block (i0 / 64 + i') (j0 / 64 + j') + r' :=
      heq.trans (congrArg (· + r') (hblock i' j'))
    obtain ⟨rfl, rfl, -⟩ := k.block_add_inj hi (by omega) hr hr' hparent
    simp only
    omega

/-! ## All operations -/

end BlockMatrix

end CadoNfs
