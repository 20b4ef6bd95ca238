import CadoNfs.Lib.Elimination

/-!
# Gaussian elimination over GF(2)

The elimination of `gauss.c` on a flat array of limbs, and the left nullspace that
`kernel` recovers from the marks it leaves.

Main result:

- Theorem `eliminateRows_spec`: whether rows are taken one, two or three at a time,
  the pivot row is added to every later row with a one in the column.
-/

namespace CadoNfs.Gauss

open Function (update)
open ForRange Gf2
open Finset (Ico insert_comm mem_insert mem_insert_self)

/-! ## Code -/

/-- `MULTI_ROW`. -/
inductive MultiRow
  | one
  | two
  | three
  deriving DecidableEq, Repr

/-- The sizes in `gaussian_elimination_data` and the way the file is compiled:
`MULTI_ROW` and whether `NDEBUG` is defined.  Sizes and the offsets `LIMBS_PER_ROW*i` are `int`s
in the source, so a matrix has fewer than `2 ^ 31` limbs. -/
structure Params where
  nrows : ℕ
  ncols : ℕ
  limbsPerRow : ℕ
  limbsPerCol : ℕ
  multiRow : MultiRow
  ndebug : Bool

/-- An array of limbs. -/
abbrev Limbs (w : ℕ) := ℕ → BitVec w

/-- `assert`. -/
def assert (G : Params) (c : Prop) [Decidable c] : Option Unit :=
  if G.ndebug = true ∨ c then some () else none

/-- The matrices that the elimination transforms: `mat`, and `lmat` unless it is
`NULL`. -/
structure Rows (w : ℕ) where
  mat : Limbs w
  lmat : Option (Limbs w)

section Code

variable {w : ℕ} (G : Params)

/-- The loop `dst[j] ^= src[j]` over the limbs of two rows. -/
def xorRow (p : Limbs w) (d s stride : ℕ) : Limbs w :=
  forRange stride (fun j p =>
    update p (stride * d + j) (p (stride * d + j) ^^^ p (stride * s + j))) p

/-- `simple_addrows`. -/
def simpleAddrows (p : Option (Limbs w)) (d s stride : ℕ) : Option (Limbs w) :=
  p.map fun p => xorRow p d s stride

/-- `*ptr_current[row] |= mask`; the pointers in `ptr_current` are
`j_current` limbs into their rows. -/
def setMark (mat : Limbs w) (row : ℕ) (mask : BitVec w) (jCurrent : ℕ) : Limbs w :=
  update mat (G.limbsPerRow * row + jCurrent)
    (mat (G.limbsPerRow * row + jCurrent) ||| mask)

/-- `addRows`. -/
def addRows (mat : Limbs w) (row pivot : ℕ) (mask : BitVec w) (jCurrent : ℕ) : Limbs w :=
  setMark G (xorRow mat row pivot G.limbsPerRow) row mask jCurrent

/-- `add2Rows`. -/
def add2Rows (mat : Limbs w) (row row2 pivot : ℕ) (mask : BitVec w) (jCurrent : ℕ) :
    Limbs w :=
  let L := G.limbsPerRow
  let mat := forRange L (fun i (mat : Limbs w) =>
    let mat := update mat (L * row + i) (mat (L * row + i) ^^^ mat (L * pivot + i))
    update mat (L * row2 + i) (mat (L * row2 + i) ^^^ mat (L * pivot + i))) mat
  setMark G (setMark G mat row mask jCurrent) row2 mask jCurrent

/-- `add3Rows`. -/
def add3Rows (mat : Limbs w) (row row2 row3 pivot : ℕ) (mask : BitVec w) (jCurrent : ℕ) :
    Limbs w :=
  let L := G.limbsPerRow
  let mat := forRange L (fun i (mat : Limbs w) =>
    let aux := mat (L * pivot + i)
    let mat := update mat (L * row + i) (mat (L * row + i) ^^^ aux)
    let mat := update mat (L * row2 + i) (mat (L * row2 + i) ^^^ aux)
    update mat (L * row3 + i) (mat (L * row3 + i) ^^^ aux)) mat
  setMark G (setMark G (setMark G mat row mask jCurrent) row2 mask jCurrent) row3 mask
    jCurrent

/-- The test `(*ptr_current[i]) & mask`. -/
def testBit (mat : Limbs w) (i : ℕ) (mask : BitVec w) (jCurrent : ℕ) : Prop :=
  mat (G.limbsPerRow * i + jCurrent) &&& mask ≠ 0#w

instance (mat : Limbs w) (i : ℕ) (mask : BitVec w) (jCurrent : ℕ) :
    Decidable (testBit G mat i mask jCurrent) := by
  unfold testBit
  infer_instance

/-- `getPivot`; `none` is the index -1. -/
def getPivot (mat : Limbs w) (mask : BitVec w) (jCurrent : ℕ) : Option ℕ :=
  (List.range G.nrows).find? fun i => decide (testBit G mat i mask jCurrent)

/-- `addRows` and `simple_addrows` on one row. -/
def eliminateOne (rows : Rows w) (i pivot : ℕ) (mask : BitVec w) (jCurrent : ℕ) : Rows w :=
  ⟨addRows G rows.mat i pivot mask jCurrent, simpleAddrows rows.lmat i pivot G.limbsPerCol⟩

/-- `add2Rows` and `simple_addrows` on two rows. -/
def eliminateTwo (rows : Rows w) (i1 i pivot : ℕ) (mask : BitVec w) (jCurrent : ℕ) :
    Rows w :=
  ⟨add2Rows G rows.mat i1 i pivot mask jCurrent,
    simpleAddrows (simpleAddrows rows.lmat i pivot G.limbsPerCol) i1 pivot G.limbsPerCol⟩

/-- The loop of `MULTI_ROW == 1`. -/
def loopOne (rows : Rows w) (pivot : ℕ) (mask : BitVec w) (jCurrent : ℕ) : Rows w :=
  forRange (G.nrows - (pivot + 1)) (fun k rows =>
    let i := pivot + 1 + k
    if testBit G rows.mat i mask jCurrent then eliminateOne G rows i pivot mask jCurrent
    else rows) rows

/-- The block of `MULTI_ROW == 2`; `i1` is -1 when it is `none`. -/
def loopTwo (rows : Rows w) (pivot : ℕ) (mask : BitVec w) (jCurrent : ℕ) : Rows w :=
  let (rows, i1) := forRange (G.nrows - (pivot + 1)) (fun k (rows, i1) =>
    let i := pivot + 1 + k
    if testBit G rows.mat i mask jCurrent then
      match i1 with
      | some i1 => (eliminateTwo G rows i1 i pivot mask jCurrent, none)
      | none => (rows, some i)
    else (rows, i1)) (rows, (none : Option ℕ))
  match i1 with
  | some i1 => eliminateOne G rows i1 pivot mask jCurrent
  | none => rows

/-- The block of `MULTI_ROW == 3`. -/
def loopThree (rows : Rows w) (pivot : ℕ) (mask : BitVec w) (jCurrent : ℕ) : Rows w :=
  let (rows, i1, i2) := forRange (G.nrows - (pivot + 1)) (fun k (rows, i1, i2) =>
    let i := pivot + 1 + k
    if testBit G rows.mat i mask jCurrent then
      match i1, i2 with
      | some i1, some i2 =>
        (⟨add3Rows G rows.mat i1 i2 i pivot mask jCurrent,
          simpleAddrows (simpleAddrows (simpleAddrows rows.lmat i pivot G.limbsPerCol) i1
            pivot G.limbsPerCol) i2 pivot G.limbsPerCol⟩, none, none)
      | some i1, none => (rows, some i1, some i)
      | none, i2 => (rows, some i, i2)
    else (rows, i1, i2)) (rows, (none : Option ℕ), (none : Option ℕ))
  match i1, i2 with
  | some i1, some i2 =>
    ⟨add2Rows G rows.mat i1 i2 pivot mask jCurrent,
      simpleAddrows (simpleAddrows rows.lmat i1 pivot G.limbsPerCol) i2 pivot
        G.limbsPerCol⟩
  | some i1, none => eliminateOne G rows i1 pivot mask jCurrent
  | none, _ => rows

/-- The elimination with one pivot, as compiled. -/
def eliminateRows (rows : Rows w) (pivot : ℕ) (mask : BitVec w) (jCurrent : ℕ) : Rows w :=
  match G.multiRow with
  | .one => loopOne G rows pivot mask jCurrent
  | .two => loopTwo G rows pivot mask jCurrent
  | .three => loopThree G rows pivot mask jCurrent

/-- The variables of `gaussian_elimination`; `set_pivot` is -1 where it is
`none`. -/
structure State (w : ℕ) where
  rows : Rows w
  setPivot : ℕ → Option ℕ
  setUsed : ℕ → Bool
  jCurrent : ℕ
  mask1 : BitVec w

variable (st : State w)

/-- The end of an iteration: the mask moves to the next column. -/
def advance : Option (State w) :=
  let mask1 := st.mask1 <<< 1
  if mask1 = 0#w then do
    assert G (st.jCurrent + 1 ≤ G.limbsPerRow)
    some { st with mask1 := 1#w, jCurrent := st.jCurrent + 1 }
  else
    some { st with mask1 := mask1 }

/-- One iteration of the main loop. -/
def iteration (colCurrent : ℕ) (st : State w) : Option (State w) :=
  match getPivot G st.rows.mat st.mask1 st.jCurrent with
  | none => advance G st
  | some pivot => do
    assert G ((∀ i < pivot, ¬testBit G st.rows.mat i st.mask1 st.jCurrent) ∧
      testBit G st.rows.mat pivot st.mask1 st.jCurrent ∧ st.setUsed pivot = false)
    let rows := eliminateRows G st.rows pivot st.mask1 st.jCurrent
    advance G { st with
      setPivot := update st.setPivot colCurrent (some pivot)
      setUsed := update st.setUsed pivot true
      rows := { rows with mat := addRows G rows.mat pivot pivot st.mask1 st.jCurrent } }

/-- The sum that `check_soundness` forms. -/
def soundnessProbe (mat : Limbs w) : BitVec w :=
  forRange G.nrows (fun i x => x + mat (G.limbsPerRow * i)) (BitVec.ofNat w 2342326)

/-- `check_soundness`; without rows the code compares with the word before the matrix, which is
here the first one. -/
def checkSoundness (mat : Limbs w) : Option Unit := do
  assert G (G.ncols ≤ G.limbsPerRow * w)
  assert G (soundnessProbe G mat ≠ mat (G.limbsPerRow * G.nrows - 1))

/-- `gaussian_elimination`. -/
def gaussianElimination (mat : Limbs w) (lmat : Option (Limbs w)) : Option (State w) := do
  assert G (lmat.isNone = true ∨ G.nrows ≤ G.limbsPerCol * w)
  checkSoundness G mat
  forRangeM G.ncols (iteration G)
    { rows := ⟨mat, lmat⟩, setPivot := fun _ => none, setUsed := fun _ => false,
      jCurrent := 0, mask1 := 1#w }

/-- One pass of the loop of `kernel` that recovers the pivoting of a row into a vector,
over `ptr`, `mask1` and the vector; `none` is the use of a pivot -1. -/
def recoverPass (j : ℕ) :
    ℕ × BitVec w × Limbs w → Option (ℕ × BitVec w × Limbs w)
  | (ptr, mask1, v) =>
    let next := if mask1 <<< 1 = 0#w then (ptr + 1, 1#w) else (ptr, mask1 <<< 1)
    if st.rows.mat ptr &&& mask1 ≠ 0#w then
      (st.setPivot j).map fun pivot =>
        (next.1, next.2,
          update v (pivot / w) (v (pivot / w) ||| (1#w <<< (pivot % w))))
    else some (next.1, next.2, v)

/-- The loop of `kernel` that recovers the pivoting of row `i`. -/
def recoverPivots (i : ℕ) (v : Limbs w) : Option (Limbs w) :=
  (forRangeM G.ncols (recoverPass st) (G.limbsPerRow * i, 1#w, v)).map fun r => r.2.2

/-- The element of the kernel of an unused row `i`, in the space `v`. -/
def kernelVector (i : ℕ) (v : Limbs w) : Option (Limbs w) :=
  let v := forRange G.limbsPerCol (fun j v => update v j 0#w) v
  let v := update v (i / w) (1#w <<< (i % w))
  recoverPivots G st i v

/-- One pass of the loop of `kernel` over the rows: `G->rank`, how far
`ker` was moved, and the table it pointed to, unless it is `NULL`. -/
def kernelPass (i : ℕ) :
    ℕ × ℕ × Option (ℕ → Limbs w) → Option (ℕ × ℕ × Option (ℕ → Limbs w))
  | (rank, k, ker) =>
    if st.setUsed i = false then
      match ker with
      | none => some (rank - 1, k, none)
      | some ker =>
        (kernelVector G st i (ker k)).map fun v =>
          (rank - 1, k + 1, some (update ker k v))
    else some (rank, k, ker)

/-- `kernel`: the dimension and the table of vectors, unless `ker` is
`NULL`; the spaces that the pointers in `ker` point to do not overlap. -/
def kernel (mat : Limbs w) (ker : Option (ℕ → Limbs w)) :
    Option (ℕ × Option (ℕ → Limbs w)) := do
  let st ← gaussianElimination G mat none
  assert G (ker.isNone = true ∨ G.nrows ≤ G.limbsPerCol * w)
  let r ← forRangeM G.nrows (kernelPass G st) (G.nrows, 0, ker)
  some (G.nrows - r.1, r.2.2)

end Code

/-! ## Row operations -/

section RowOperations

variable {w : ℕ} {G : Params} {mat : Limbs w} {row row2 row3 pivot j r l : ℕ}
  {mask : BitVec w}

theorem xorRow_apply (p : Limbs w) (d s : ℕ) {stride : ℕ} (hl : l < stride) :
    xorRow p d s stride (stride * r + l)
      = if r = d then p (stride * d + l) ^^^ p (stride * s + l) else p (stride * r + l) := by
  have hloop := forRange_induct
    (motive := fun n q => ∀ r, ∀ l < stride, q (stride * r + l)
      = if r = d ∧ l < n then p (stride * d + l) ^^^ p (stride * s + l)
        else p (stride * r + l))
    (fun j (p : Limbs w) =>
      update p (stride * d + j) (p (stride * d + j) ^^^ p (stride * s + j))) p
    stride (fun r l _ => by simp) ?_
  · rw [xorRow, hloop r l hl]
    simp [hl]
  · intro n hn q hq r l hl
    rw [update_cell_apply hn hl, hq r l hl, hq d n hn, hq s n hn]
    by_cases hcell : r = d ∧ l = n
    · rw [if_pos hcell, if_neg (by omega), if_neg (by omega), if_pos (by omega), hcell.2]
    · rw [if_neg hcell]
      exact if_congr (by omega) rfl rfl

section

variable (hj : j < G.limbsPerRow)
include hj

theorem setMark_apply (hl : l < G.limbsPerRow) : setMark G mat row mask j (G.limbsPerRow * r + l)
      = if r = row ∧ l = j then mat (G.limbsPerRow * r + l) ||| mask
        else mat (G.limbsPerRow * r + l) := by
  rw [setMark, update_cell_apply hj hl]
  by_cases hcell : r = row ∧ l = j
  · rw [if_pos hcell, if_pos hcell, hcell.1, hcell.2]
  · rw [if_neg hcell, if_neg hcell]

theorem addRows_apply (hl : l < G.limbsPerRow) :
    addRows G mat row pivot mask j (G.limbsPerRow * r + l)
      = if r = row then
          if l = j then
            (mat (G.limbsPerRow * row + l) ^^^ mat (G.limbsPerRow * pivot + l)) ||| mask
          else mat (G.limbsPerRow * row + l) ^^^ mat (G.limbsPerRow * pivot + l)
        else mat (G.limbsPerRow * r + l) := by
  rw [addRows, setMark_apply hj hl, xorRow_apply _ _ _ hl]
  split_ifs <;> simp_all

theorem add2Rows_eq (hne : row ≠ row2) (hp : pivot ≠ row) (hp2 : pivot ≠ row2) :
    add2Rows G mat row row2 pivot mask j
      = addRows G (addRows G mat row pivot mask j) row2 pivot mask j := by
  refine ext_cells (show 0 < G.limbsPerRow by omega) fun r l hl => ?_
  have hloop := forRange_induct
    (motive := fun n q => ∀ r, ∀ l < G.limbsPerRow, q (G.limbsPerRow * r + l)
      = if (r = row ∨ r = row2) ∧ l < n then
          mat (G.limbsPerRow * r + l) ^^^ mat (G.limbsPerRow * pivot + l)
        else mat (G.limbsPerRow * r + l))
    (fun i (mat : Limbs w) =>
      let mat := update mat (G.limbsPerRow * row + i)
        (mat (G.limbsPerRow * row + i) ^^^ mat (G.limbsPerRow * pivot + i))
      update mat (G.limbsPerRow * row2 + i)
        (mat (G.limbsPerRow * row2 + i) ^^^ mat (G.limbsPerRow * pivot + i))) mat
    G.limbsPerRow (fun r l _ => by simp) ?_
  · simp only [add2Rows, setMark_apply hj hl, addRows_apply hj hl, hloop _ l hl]
    by_cases hr2 : r = row2
    · subst hr2
      simp [hl, hne.symm, hp]
    · by_cases hr : r = row
      · subst hr
        simp [hl, hne]
      · simp [hr, hr2]
  · intro n hn q hq r l hl
    simp only [update_cell_apply hn hl, update_cell_apply hn hn, hq _ l hl, hq _ n hn]
    by_cases hln : l = n
    · subst hln
      by_cases hr2 : r = row2
      · simp [hr2, hne.symm, hp]
      · by_cases hr : r = row
        · simp [hr, hne]
        · simp [hr, hr2]
    · have hlt : l < n + 1 ↔ l < n := by omega
      simp [hln, hlt]

/-- The loop for three rows is three single additions. -/
theorem add3Rows_eq (hne : row ≠ row2) (hne3 : row ≠ row3)
    (hne23 : row2 ≠ row3) (hp : pivot ≠ row) (hp2 : pivot ≠ row2) (hp3 : pivot ≠ row3) :
    add3Rows G mat row row2 row3 pivot mask j
      = addRows G (addRows G (addRows G mat row pivot mask j) row2 pivot mask j) row3 pivot
          mask j := by
  refine ext_cells (show 0 < G.limbsPerRow by omega) fun r l hl => ?_
  have hloop := forRange_induct
    (motive := fun n q => ∀ r, ∀ l < G.limbsPerRow, q (G.limbsPerRow * r + l)
      = if (r = row ∨ r = row2 ∨ r = row3) ∧ l < n then
          mat (G.limbsPerRow * r + l) ^^^ mat (G.limbsPerRow * pivot + l)
        else mat (G.limbsPerRow * r + l))
    (fun i (mat : Limbs w) =>
      let aux := mat (G.limbsPerRow * pivot + i)
      let mat := update mat (G.limbsPerRow * row + i) (mat (G.limbsPerRow * row + i) ^^^ aux)
      let mat := update mat (G.limbsPerRow * row2 + i) (mat (G.limbsPerRow * row2 + i) ^^^ aux)
      update mat (G.limbsPerRow * row3 + i) (mat (G.limbsPerRow * row3 + i) ^^^ aux)) mat
    G.limbsPerRow (fun r l _ => by simp) ?_
  · simp only [add3Rows, setMark_apply hj hl, addRows_apply hj hl, hloop _ l hl]
    by_cases hr3 : r = row3
    · subst hr3
      simp [hl, hne3.symm, hne23.symm, hp, hp2]
    · by_cases hr2 : r = row2
      · subst hr2
        simp [hl, hne.symm, hp, hr3]
      · by_cases hr : r = row
        · subst hr
          simp [hl, hr2, hr3]
        · simp [hr, hr2, hr3]
  · intro n hn q hq r l hl
    simp only [update_cell_apply hn hl, update_cell_apply hn hn, hq _ l hl, hq _ n hn]
    by_cases hln : l = n
    · subst hln
      by_cases hr3 : r = row3
      · simp [hr3, hne3.symm, hne23.symm]
      · by_cases hr2 : r = row2
        · simp [hr2, hne23, hne.symm]
        · by_cases hr : r = row
          · simp [hr, hne, hne3]
          · simp [hr, hr2, hr3]
    · have hlt : l < n + 1 ↔ l < n := by omega
      simp [hln, hlt]

end

end RowOperations

/-! ## Adding the pivot row -/

section Added

variable {w : ℕ} {G : Params} {mat₀ mat : Limbs w} {lmat₀ lmat : Option (Limbs w)}
  {pivot j i : ℕ} {mask : BitVec w} {D : Finset ℕ}

/-- The pivot row was added to the rows of `D`, and each of them got its mark. -/
def AddedMat (G : Params) (mat₀ : Limbs w) (pivot j : ℕ) (mask : BitVec w) (D : Finset ℕ)
    (mat : Limbs w) : Prop :=
  ∀ r, ∀ l < G.limbsPerRow, mat (G.limbsPerRow * r + l)
    = if r ∈ D then
        if l = j then
          (mat₀ (G.limbsPerRow * r + l) ^^^ mat₀ (G.limbsPerRow * pivot + l)) ||| mask
        else mat₀ (G.limbsPerRow * r + l) ^^^ mat₀ (G.limbsPerRow * pivot + l)
      else mat₀ (G.limbsPerRow * r + l)

/-- The pivot row of `lmat`, if there is one, was added to the rows of `D`. -/
def AddedLmat (G : Params) (lmat₀ : Option (Limbs w)) (pivot : ℕ) (D : Finset ℕ)
    (lmat : Option (Limbs w)) : Prop :=
  match lmat₀, lmat with
  | none, none => True
  | some p₀, some p => ∀ r, ∀ l < G.limbsPerCol, p (G.limbsPerCol * r + l)
    = if r ∈ D then p₀ (G.limbsPerCol * r + l) ^^^ p₀ (G.limbsPerCol * pivot + l)
      else p₀ (G.limbsPerCol * r + l)
  | _, _ => False

theorem addedMat_empty : AddedMat G mat₀ pivot j mask ∅ mat₀ :=
  fun r l _ => by simp

theorem addedLmat_empty : AddedLmat G lmat₀ pivot ∅ lmat₀ := by
  cases lmat₀ with
  | none => trivial
  | some p => exact fun r l _ => by simp

theorem AddedMat.step (h : AddedMat G mat₀ pivot j mask D mat) (hj : j < G.limbsPerRow)
    (hi : i ∉ D) (hp : pivot ∉ D) :
    AddedMat G mat₀ pivot j mask (insert i D) (addRows G mat i pivot mask j) := by
  intro r l hl
  rw [addRows_apply hj hl, h i l hl, h pivot l hl, h r l hl, if_neg hi, if_neg hp]
  by_cases hr : r = i
  · subst hr
    rw [if_pos rfl, if_pos (mem_insert_self r D)]
  · rw [if_neg hr]
    exact if_congr (by rw [mem_insert, or_iff_right hr]) rfl rfl

theorem AddedLmat.step (h : AddedLmat G lmat₀ pivot D lmat) (hi : i ∉ D) (hp : pivot ∉ D) :
    AddedLmat G lmat₀ pivot (insert i D) (simpleAddrows lmat i pivot G.limbsPerCol) := by
  cases lmat₀ with
  | none =>
    cases lmat with
    | none => trivial
    | some p => exact h.elim
  | some p₀ =>
    cases lmat with
    | none => exact h.elim
    | some p =>
      intro r l hl
      have hcell := h r l hl
      refine (xorRow_apply p i pivot hl).trans ?_
      rw [h i l hl, h pivot l hl, if_neg hi, if_neg hp, hcell]
      by_cases hr : r = i
      · subst hr
        rw [if_pos rfl, if_pos (mem_insert_self r D)]
      · rw [if_neg hr]
        exact if_congr (by rw [mem_insert, or_iff_right hr]) rfl rfl

theorem AddedLmat.isSome_eq (h : AddedLmat G lmat₀ pivot D lmat) :
    lmat.isSome = lmat₀.isSome := by
  cases lmat₀ <;> cases lmat <;> simp_all [AddedLmat]

theorem AddedMat.testBit_iff (h : AddedMat G mat₀ pivot j mask D mat) (hj : j < G.limbsPerRow)
    (hi : i ∉ D) : testBit G mat i mask j ↔ testBit G mat₀ i mask j := by
  rw [testBit, testBit, h i j hj, if_neg hi]

/-- The pivot row was added to the rows of `D` in both matrices. -/
structure Added (G : Params) (rows₀ : Rows w) (pivot j : ℕ) (mask : BitVec w) (D : Finset ℕ)
    (rows : Rows w) : Prop where
  mat : AddedMat G rows₀.mat pivot j mask D rows.mat
  lmat : AddedLmat G rows₀.lmat pivot D rows.lmat

variable {rows₀ rows : Rows w} {i1 i2 : ℕ}

theorem Added.eliminateOne (h : Added G rows₀ pivot j mask D rows) (hj : j < G.limbsPerRow)
    (hi : i ∉ D) (hp : pivot ∉ D) :
    Added G rows₀ pivot j mask (insert i D) (eliminateOne G rows i pivot mask j) :=
  ⟨h.mat.step hj hi hp, h.lmat.step hi hp⟩

theorem Added.eliminateTwo (h : Added G rows₀ pivot j mask D rows) (hj : j < G.limbsPerRow)
    (hi1 : i1 ∉ D) (hi : i ∉ D) (hne : i1 ≠ i) (hp : pivot ∉ D) (hp1 : pivot ≠ i1)
    (hpi : pivot ≠ i) :
    Added G rows₀ pivot j mask (insert i (insert i1 D))
        (eliminateTwo G rows i1 i pivot mask j) ∧
      Added G rows₀ pivot j mask (insert i (insert i1 D))
        ⟨add2Rows G rows.mat i1 i pivot mask j,
          simpleAddrows (simpleAddrows rows.lmat i1 pivot G.limbsPerCol) i pivot
            G.limbsPerCol⟩ := by
  have hmat : AddedMat G rows₀.mat pivot j mask (insert i (insert i1 D))
      (add2Rows G rows.mat i1 i pivot mask j) := by
    rw [add2Rows_eq hj hne hp1 hpi]
    exact (h.mat.step hj hi1 hp).step hj (by simp [hne.symm, hi]) (by simp [hp1, hp])
  refine ⟨⟨hmat, ?_⟩, ⟨hmat, ?_⟩⟩
  · rw [insert_comm]
    exact (h.lmat.step hi hp).step (by simp [hne, hi1]) (by simp [hpi, hp])
  · exact (h.lmat.step hi1 hp).step (by simp [hne.symm, hi]) (by simp [hp1, hp])

theorem Added.eliminateThree (h : Added G rows₀ pivot j mask D rows)
    (hj : j < G.limbsPerRow) (hi1 : i1 ∉ D) (hi2 : i2 ∉ D) (hi : i ∉ D) (hne : i1 ≠ i2)
    (hne1 : i1 ≠ i) (hne2 : i2 ≠ i) (hp : pivot ∉ D) (hp1 : pivot ≠ i1) (hp2 : pivot ≠ i2)
    (hpi : pivot ≠ i) :
    Added G rows₀ pivot j mask (insert i (insert i2 (insert i1 D)))
      ⟨add3Rows G rows.mat i1 i2 i pivot mask j,
        simpleAddrows (simpleAddrows (simpleAddrows rows.lmat i pivot G.limbsPerCol) i1
          pivot G.limbsPerCol) i2 pivot G.limbsPerCol⟩ := by
  refine ⟨?_, ?_⟩
  · rw [add3Rows_eq hj hne hne1 hne2 hp1 hp2 hpi]
    exact ((h.mat.step hj hi1 hp).step hj (by simp [hne.symm, hi2]) (by simp [hp1, hp])).step
      hj (by simp [hne1.symm, hne2.symm, hi]) (by simp [hp1, hp2, hp])
  · have hinsert : insert i (insert i2 (insert i1 D)) = insert i2 (insert i1 (insert i D)) := by
      rw [insert_comm i i2, insert_comm i i1]
    rw [hinsert]
    exact ((h.lmat.step hi hp).step (by simp [hne1, hi1]) (by simp [hpi, hp])).step
      (by simp [hne.symm, hne2, hi2]) (by simp [hp1, hpi, hp])

/-- The rows behind the pivot, up to some row, that have a one in the column. -/
def todo (G : Params) (mat : Limbs w) (pivot : ℕ) (mask : BitVec w) (j k : ℕ) : Finset ℕ :=
  (Ico (pivot + 1) (pivot + 1 + k)).filter fun i => testBit G mat i mask j

theorem mem_todo {k : ℕ} : i ∈ todo G mat pivot mask j k ↔
    pivot + 1 ≤ i ∧ i < pivot + 1 + k ∧ testBit G mat i mask j := by
  simp [todo, and_assoc]

theorem todo_succ_pos {k : ℕ} (h : testBit G mat (pivot + 1 + k) mask j) :
    todo G mat pivot mask j (k + 1)
      = insert (pivot + 1 + k) (todo G mat pivot mask j k) := by
  ext i
  rw [mem_insert, mem_todo, mem_todo]
  constructor
  · rintro ⟨hle, hlt, htest⟩
    by_cases heq : i = pivot + 1 + k
    · exact Or.inl heq
    · exact Or.inr ⟨hle, by omega, htest⟩
  · rintro (rfl | ⟨hle, hlt, htest⟩)
    · exact ⟨by omega, by omega, h⟩
    · exact ⟨hle, by omega, htest⟩

theorem todo_succ_neg {k : ℕ} (h : ¬testBit G mat (pivot + 1 + k) mask j) :
    todo G mat pivot mask j (k + 1) = todo G mat pivot mask j k := by
  ext i
  rw [mem_todo, mem_todo]
  constructor
  · rintro ⟨hle, hlt, htest⟩
    have hne : i ≠ pivot + 1 + k := fun heq => h (heq ▸ htest)
    exact ⟨hle, by omega, htest⟩
  · rintro ⟨hle, hlt, htest⟩
    exact ⟨hle, by omega, htest⟩

theorem not_mem_todo {k : ℕ} : pivot + 1 + k ∉ todo G mat pivot mask j k ∧
    pivot ∉ todo G mat pivot mask j k := by
  rw [mem_todo, mem_todo]
  omega

theorem loopOne_spec (hj : j < G.limbsPerRow) (rows₀ : Rows w) :
    Added G rows₀ pivot j mask (todo G rows₀.mat pivot mask j (G.nrows - (pivot + 1)))
      (loopOne G rows₀ pivot mask j) := by
  refine forRange_induct (motive := fun k rows =>
    Added G rows₀ pivot j mask (todo G rows₀.mat pivot mask j k) rows) _ _ _ ?_ ?_
  · simpa [todo] using ⟨addedMat_empty, addedLmat_empty⟩
  · intro k _ rows hrows
    have htest := hrows.mat.testBit_iff hj not_mem_todo.1
    by_cases h : testBit G rows.mat (pivot + 1 + k) mask j
    · rw [if_pos h, todo_succ_pos (htest.mp h)]
      exact hrows.eliminateOne hj not_mem_todo.1 not_mem_todo.2
    · rw [if_neg h, todo_succ_neg (fun h' => h (htest.mpr h'))]
      exact hrows

/-- What holds while up to two rows wait for the pivot row. -/
def Waiting (G : Params) (rows₀ : Rows w) (pivot j : ℕ) (mask : BitVec w) (k : ℕ)
    (waiting : List ℕ) (rows : Rows w) : Prop :=
  waiting.Nodup ∧ (∀ i ∈ waiting, i ∈ todo G rows₀.mat pivot mask j k) ∧
    Added G rows₀ pivot j mask (todo G rows₀.mat pivot mask j k \ waiting.toFinset) rows

theorem waiting_zero (rows₀ : Rows w) : Waiting G rows₀ pivot j mask 0 [] rows₀ := by
  refine ⟨List.nodup_nil, by simp, ?_⟩
  simpa [todo] using ⟨addedMat_empty, addedLmat_empty⟩

section Step

variable {k : ℕ} {waiting : List ℕ} (h : Waiting G rows₀ pivot j mask k waiting rows)

include h

theorem Waiting.testBit_iff (hj : j < G.limbsPerRow) :
    testBit G rows.mat (pivot + 1 + k) mask j ↔ testBit G rows₀.mat (pivot + 1 + k) mask j :=
  h.2.2.mat.testBit_iff hj fun hmem => not_mem_todo.1 (Finset.mem_sdiff.mp hmem).1

theorem Waiting.skip (htest : ¬testBit G rows₀.mat (pivot + 1 + k) mask j) :
    Waiting G rows₀ pivot j mask (k + 1) waiting rows := by
  rw [Waiting, todo_succ_neg htest]
  exact h

theorem Waiting.push (htest : testBit G rows₀.mat (pivot + 1 + k) mask j) :
    Waiting G rows₀ pivot j mask (k + 1) ((pivot + 1 + k) :: waiting) rows := by
  have hnext : pivot + 1 + k ∉ waiting := fun hmem => not_mem_todo.1 (h.2.1 _ hmem)
  rw [Waiting, todo_succ_pos htest]
  refine ⟨List.nodup_cons.mpr ⟨hnext, h.1⟩, ?_, ?_⟩
  · intro i hi
    rcases List.mem_cons.mp hi with rfl | hi
    · exact mem_insert_self _ _
    · exact Finset.mem_insert_of_mem (h.2.1 i hi)
  · have hdiff : insert (pivot + 1 + k) (todo G rows₀.mat pivot mask j k)
        \ ((pivot + 1 + k) :: waiting).toFinset
        = todo G rows₀.mat pivot mask j k \ waiting.toFinset := by
      ext i
      have hne : i ∈ todo G rows₀.mat pivot mask j k → i ≠ pivot + 1 + k := by
        rintro hi rfl
        exact not_mem_todo.1 hi
      simp only [Finset.mem_sdiff, mem_insert, List.mem_toFinset, List.mem_cons, not_or]
      tauto
    rw [hdiff]
    exact h.2.2

theorem Waiting.ne_pivot : ∀ i ∈ waiting, pivot ≠ i := by
  rintro i hi rfl
  exact not_mem_todo.2 (h.2.1 _ hi)

end Step

theorem Waiting.take_one {k : ℕ} (h : Waiting G rows₀ pivot j mask k [i] rows)
    (hj : j < G.limbsPerRow) :
    Waiting G rows₀ pivot j mask k [] (Gauss.eliminateOne G rows i pivot mask j) := by
  have hmem := h.2.1 i (by simp)
  refine ⟨List.nodup_nil, by simp, ?_⟩
  have hadd := h.2.2.eliminateOne (i := i) hj (by simp) (by simp [not_mem_todo.2])
  convert hadd using 1
  ext y
  by_cases hy : y = i
  · simp [hy, hmem]
  · simp [hy]

theorem Waiting.take_two {k : ℕ} (h : Waiting G rows₀ pivot j mask k [i, i1] rows)
    (hj : j < G.limbsPerRow) :
    Waiting G rows₀ pivot j mask k [] (Gauss.eliminateTwo G rows i1 i pivot mask j) ∧
      Waiting G rows₀ pivot j mask k []
        ⟨add2Rows G rows.mat i1 i pivot mask j,
          simpleAddrows (simpleAddrows rows.lmat i1 pivot G.limbsPerCol) i pivot
            G.limbsPerCol⟩ := by
  have hne : i1 ≠ i := by
    have hnodup := h.1
    simp only [List.nodup_cons, List.mem_singleton] at hnodup
    exact fun heq => hnodup.1 heq.symm
  have hadd := h.2.2.eliminateTwo hj (show i1 ∉ _ by simp) (show i ∉ _ by simp) hne
    (by simp [not_mem_todo.2]) (h.ne_pivot i1 (by simp)) (h.ne_pivot i (by simp))
  have hset : insert i (insert i1 (todo G rows₀.mat pivot mask j k \ [i, i1].toFinset))
      = todo G rows₀.mat pivot mask j k \ [].toFinset := by
    ext y
    by_cases hy : y = i
    · simp [hy, h.2.1 i]
    · by_cases hy1 : y = i1
      · simp [hy1, h.2.1 i1]
      · simp [hy, hy1]
  rw [hset] at hadd
  exact ⟨⟨List.nodup_nil, by simp, hadd.1⟩, ⟨List.nodup_nil, by simp, hadd.2⟩⟩

theorem Waiting.take_three {k : ℕ} (h : Waiting G rows₀ pivot j mask k [i, i2, i1] rows)
    (hj : j < G.limbsPerRow) :
    Waiting G rows₀ pivot j mask k []
      ⟨add3Rows G rows.mat i1 i2 i pivot mask j,
        simpleAddrows (simpleAddrows (simpleAddrows rows.lmat i pivot G.limbsPerCol) i1
          pivot G.limbsPerCol) i2 pivot G.limbsPerCol⟩ := by
  have hnodup := h.1
  simp only [List.nodup_cons, List.mem_cons, List.not_mem_nil, or_false, not_or] at hnodup
  obtain ⟨⟨hne2, hne1⟩, hne, -⟩ := hnodup
  have hadd := h.2.2.eliminateThree hj (show i1 ∉ _ by simp)
    (show i2 ∉ _ by simp) (show i ∉ _ by simp) (Ne.symm hne) (Ne.symm hne1)
    (Ne.symm hne2) (by simp [not_mem_todo.2])
    (h.ne_pivot i1 (by simp)) (h.ne_pivot i2 (by simp)) (h.ne_pivot i (by simp))
  have hset : insert i (insert i2 (insert i1
      (todo G rows₀.mat pivot mask j k \ [i, i2, i1].toFinset)))
      = todo G rows₀.mat pivot mask j k \ [].toFinset := by
    ext y
    by_cases hy : y = i
    · simp [hy, h.2.1 i]
    · by_cases hy2 : y = i2
      · simp [hy2, h.2.1 i2]
      · by_cases hy1 : y = i1
        · simp [hy1, h.2.1 i1]
        · simp [hy, hy1, hy2]
  rw [hset] at hadd
  exact ⟨List.nodup_nil, by simp, hadd⟩

theorem Waiting.added {k : ℕ} (h : Waiting G rows₀ pivot j mask k [] rows) :
    Added G rows₀ pivot j mask (todo G rows₀.mat pivot mask j k) rows := by
  simpa using h.2.2

theorem loopTwo_spec (hj : j < G.limbsPerRow) (rows₀ : Rows w) :
    Added G rows₀ pivot j mask (todo G rows₀.mat pivot mask j (G.nrows - (pivot + 1)))
      (loopTwo G rows₀ pivot mask j) := by
  have hloop := forRange_induct
    (motive := fun k s => Waiting G rows₀ pivot j mask k s.2.toList s.1)
    (fun k (s : Rows w × Option ℕ) =>
      if testBit G s.1.mat (pivot + 1 + k) mask j then
        match s.2 with
        | some i1 => (Gauss.eliminateTwo G s.1 i1 (pivot + 1 + k) pivot mask j, none)
        | none => (s.1, some (pivot + 1 + k))
      else (s.1, s.2)) (rows₀, (none : Option ℕ))
    (G.nrows - (pivot + 1)) (waiting_zero rows₀) ?_
  · rw [loopTwo]
    generalize hs : forRange _ _ _ = s at hloop ⊢
    obtain ⟨rows, _ | i1⟩ := s
    · exact hloop.added
    · exact (hloop.take_one hj).added
  · rintro k _ ⟨rows, i1⟩ hwait
    simp only at hwait ⊢
    by_cases htest : testBit G rows.mat (pivot + 1 + k) mask j
    · rw [if_pos htest]
      have hpush := hwait.push ((hwait.testBit_iff hj).mp htest)
      cases i1 with
      | none => exact hpush
      | some i1 => exact (hpush.take_two hj).1
    · rw [if_neg htest]
      exact hwait.skip fun h => htest ((hwait.testBit_iff hj).mpr h)

/-- The rows that wait in the loop of `MULTI_ROW == 3`, the last one first. -/
def waitingThree (i1 i2 : Option ℕ) : List ℕ :=
  i2.toList ++ i1.toList

/-- The rows below the pivot are cleared in the later words. -/
theorem loopThree_spec (hj : j < G.limbsPerRow) (rows₀ : Rows w) :
    Added G rows₀ pivot j mask (todo G rows₀.mat pivot mask j (G.nrows - (pivot + 1)))
      (loopThree G rows₀ pivot mask j) := by
  have hloop := forRange_induct
    (motive := fun k s => (s.2.1 = none → s.2.2 = none) ∧
      Waiting G rows₀ pivot j mask k (waitingThree s.2.1 s.2.2) s.1)
    (fun k (s : Rows w × Option ℕ × Option ℕ) =>
      if testBit G s.1.mat (pivot + 1 + k) mask j then
        match s.2.1, s.2.2 with
        | some i1, some i2 =>
          (⟨add3Rows G s.1.mat i1 i2 (pivot + 1 + k) pivot mask j,
            simpleAddrows (simpleAddrows (simpleAddrows s.1.lmat (pivot + 1 + k) pivot
              G.limbsPerCol) i1 pivot G.limbsPerCol) i2 pivot G.limbsPerCol⟩, none, none)
        | some i1, none => (s.1, some i1, some (pivot + 1 + k))
        | none, i2 => (s.1, some (pivot + 1 + k), i2)
      else (s.1, s.2.1, s.2.2)) (rows₀, (none : Option ℕ), (none : Option ℕ))
    (G.nrows - (pivot + 1)) ⟨fun _ => rfl, waiting_zero rows₀⟩ ?_
  · rw [loopThree]
    generalize hs : forRange _ _ _ = s at hloop ⊢
    obtain ⟨rows, _ | i1, _ | i2⟩ := s
    · exact hloop.2.added
    · exact absurd (hloop.1 rfl) (by simp)
    · exact (hloop.2.take_one hj).added
    · exact (hloop.2.take_two hj).2.added
  · rintro k _ ⟨rows, i1, i2⟩ ⟨horder, hwait⟩
    simp only at horder hwait ⊢
    by_cases htest : testBit G rows.mat (pivot + 1 + k) mask j
    · rw [if_pos htest]
      have hpush := hwait.push ((hwait.testBit_iff hj).mp htest)
      cases i1 with
      | none =>
        rw [horder rfl] at hpush ⊢
        exact ⟨nofun, hpush⟩
      | some i1 =>
        cases i2 with
        | none => exact ⟨nofun, hpush⟩
        | some i2 => exact ⟨fun _ => rfl, hpush.take_three hj⟩
    · rw [if_neg htest]
      exact ⟨horder, hwait.skip fun h => htest ((hwait.testBit_iff hj).mpr h)⟩

/-- However the file is compiled, the pivot row is added to every later row with a one in
the column. -/
theorem eliminateRows_spec (hj : j < G.limbsPerRow) (rows₀ : Rows w) :
    Added G rows₀ pivot j mask (todo G rows₀.mat pivot mask j (G.nrows - (pivot + 1)))
      (eliminateRows G rows₀ pivot mask j) := by
  unfold eliminateRows
  cases G.multiRow with
  | one => exact loopOne_spec hj rows₀
  | two => exact loopTwo_spec hj rows₀
  | three => exact loopThree_spec hj rows₀

end Added

end CadoNfs.Gauss
