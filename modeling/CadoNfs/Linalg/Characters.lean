import CadoNfs.Linalg.Cleanup

/-!
# Dependencies that the characters annihilate

The program `characters` reduces the kernel vectors to independent ones, multiplies
them by the characters and the heavy block, and combines them by the left kernel of the
product.

Main results:

- Theorem `columnReduce_spec`: the columns that `blockmatrix_column_reduce`
  chooses.
- Theorem `transposeKernel_spec`: the kernel as a block matrix, padding included.
- Theorem `dependencies_spec`: the dependencies are combinations of the kernel vectors
  that the characters and the heavy block annihilate, all of them when the first rows have
  the rank of all the rows, and no padding has an influence on them.
-/

namespace CadoNfs.Characters

open ForRange Gf2 ReducedColumns ColumnSpan BlockMatrix
open Cleanup (Build gaussParams)
open Option (bind_eq_bind bind_none bind_some)
open Gauss (Params rowsOf)

/-! ## Code -/

/-- `blockmatrix_column_reduce`; `mem` is what `malloc` leaves in the areas
of the blocks. -/
def columnReduce (b : Build) (mem : ℕ → Words) (m : BlockMatrix) (maxRowsToConsider : ℕ) :
    Option BlockMatrix := do
  let t ← submatrix m 0 0 (min maxRowsToConsider m.nrows) m.ncols
  let G := gaussParams b t.ncols t.nrows
  let tiny := copyTransposeToFlat (fun _ => 0#64) G.limbsPerRow 0 0 t
  let (rank, sdata, _) ← Gauss.spannedBasis G (fun _ => 0#64) tiny
  let s := copyTransposeFromFlat (alloc (mem 0) m.ncols rank) sdata G.limbsPerCol 0 0
  mulSmallb (alloc (mem 1) m.nrows rank) m s

/-- The area `kerdata`, of which `myker` is the table of rows. -/
def kerdataOf (G : Params) (myker : ℕ → Words) : Words := fun x =>
  if x / G.limbsPerCol < G.nrows then myker (x / G.limbsPerCol) (x % G.limbsPerCol) else 0#64

/-- `compute_transpose_of_blockmatrix_kernel`; `kb` may be `NULL`. -/
def computeTransposeOfBlockmatrixKernel (b : Build) (kb : Option BlockMatrix)
    (t : BlockMatrix) : Option (ℕ × Option BlockMatrix) := do
  let G := gaussParams b t.nrows t.ncols
  let tiny := copyToFlat (fun _ => 0#64) G.limbsPerRow 0 0 t
  let (dim, myker) ← Gauss.kernel G tiny (some fun _ _ => 0#64)
  let myker ← myker
  some (dim, kb.map fun kb =>
    copyTransposeFromFlat kb (kerdataOf G myker) G.limbsPerCol 0 0)

/-- The products of the kernel vectors with the characters and with the heavy block, side by
side in `t`. -/
def dotProducts (t k scmat h : BlockMatrix) : Option BlockMatrix := do
  let tc ← submatrix t 0 0 k.ncols scmat.ncols
  let tc ← mulTaB tc k scmat
  let t := t.writeBack tc
  let th ← submatrix t 0 scmat.ncols k.ncols h.ncols
  let th ← mulTaB th k h
  some (t.writeBack th)

/-- `main` from the column reduction to `nk`: the dimension and `nk`. -/
def dependencies (b : Build) (mem : ℕ → Words) (k scmat h : BlockMatrix) :
    Option (ℕ × BlockMatrix) := do
  let smallNrows := scmat.nrows
  let k ← columnReduce b mem k 4096
  let t ← dotProducts (alloc (mem 2) k.ncols (scmat.ncols + h.ncols)) k scmat h
  let kb := (alloc (mem 3) k.ncols k.ncols).setZero
  let (dim, kb) ← computeTransposeOfBlockmatrixKernel b (some kb) t
  let kb ← kb
  let kbsub ← submatrix kb 0 0 kb.nrows dim
  let nk ← mulSmallb (alloc (mem 4) smallNrows kbsub.ncols) k kbsub
  some (dim, nk)

/-! ## The column reduction -/

variable {b : Build} {n N : ℕ}

/-- The rows that the column reduction looks at. -/
def topRows (K : Matrix (Fin n) (Fin N) (ZMod 2)) (maxRows : ℕ) :
    Matrix (Fin (min maxRows n)) (Fin N) (ZMod 2) :=
  K.submatrix (Fin.castLE (min_le_right maxRows n)) id

/-- The change of basis in `sdata`. -/
def changeOfBasis (b : Build) (N maxRows n : ℕ) (sdata : Words) :
    Matrix (Fin N) (Fin N) (ZMod 2) :=
  Gauss.basisOf (gaussParams b N (min maxRows n)) sdata

/-- What the column reduction of `m` returns: the columns that `spanned_basis`
chose in the first rows. -/
structure ColumnReduced (b : Build) (m : BlockMatrix) (n N maxRows : ℕ) (k2 : BlockMatrix)
    (r : ℕ) (sdata : Words) : Prop where
  basis : ∃ tiny left, Gauss.spannedBasis (gaussParams b N (min maxRows n)) (fun _ => 0#64)
      tiny = some (r, sdata, left) ∧
    Gauss.transposed (gaussParams b N (min maxRows n)) tiny = topRows (m.toMatrix n N) maxRows
  size : k2.HasSize n r
  le : r ≤ N
  reduces : Reduces (topRows (m.toMatrix n N) maxRows) (changeOfBasis b N maxRows n sdata) r
  product : k2.toMatrix n r
    = m.toMatrix n N * firstColumns (changeOfBasis b N maxRows n sdata) le

/-- The assertion of `check_soundness` holds for the rows that the column reduction looks at. -/
def TopSound (b : Build) (m : BlockMatrix) (maxRows : ℕ) : Prop :=
  ∀ t, submatrix m 0 0 (min maxRows m.nrows) m.ncols = some t →
    Gauss.Sound (gaussParams b t.ncols t.nrows)
      (copyTransposeToFlat (fun _ => 0#64) (gaussParams b t.ncols t.nrows).limbsPerRow 0 0 t)

/-- The column reduction returns, or an assertion of `check_soundness` fails. -/
theorem columnReduce_spec (mem : ℕ → Words) {m : BlockMatrix} (hsub : m.sub = false)
    (hm : m.HasSize n N) (hN : N % 64 = 0) (hrow : N * (N / 64) ≤ 2 ^ 32) {maxRows : ℕ}
    (hcol : N * ((min maxRows n + 63) / 64) ≤ 2 ^ 32) :
    (TopSound b m maxRows ∧ ∃ k2 r sdata, columnReduce b mem m maxRows = some k2 ∧
      ColumnReduced b m n N maxRows k2 r sdata) ∨
    ¬TopSound b m maxRows ∧ columnReduce b mem m maxRows = none := by
  have hrows := hm.nrows
  have hcols := hm.ncols
  obtain ⟨t, ht, htrows, htcols, hview⟩ := submatrix_spec hsub (Nat.zero_mod 64)
    (Nat.zero_mod 64) (show 0 + min maxRows n ≤ m.nrows by omega)
    (show 0 + N ≤ m.ncols by omega)
  have htSize : t.HasSize (min maxRows n) N := ⟨htrows, htcols⟩
  have htMat : t.toMatrix (min maxRows n) N = topRows (m.toMatrix n N) maxRows := by
    ext i j
    have hi := htSize.div_lt_nrblocks i.isLt
    have hj := htSize.div_lt_ncblocks j.isLt
    have hentry := hview.entry i (by omega) j (by omega)
    rw [zero_add, zero_add] at hentry
    exact hentry
  have htop : TopSound b m maxRows ↔ Gauss.Sound (gaussParams b N (min maxRows n))
      (copyTransposeToFlat (fun _ => 0#64) (gaussParams b N (min maxRows n)).limbsPerRow 0 0 t) := by
    unfold TopSound
    rw [hrows, hcols, ht]
    simp only [Option.some.injEq, forall_eq', htrows, htcols]
  have htransposed := Gauss.transposed_copyTransposeToFlat
    (G := gaussParams b N (min maxRows n)) (fun _ => 0#64) htSize
    (by rw [t.nrblocks_eq, htrows]; rfl)
    (by rwa [t.nrblocks_eq, t.ncblocks_eq, htrows, htcols,
      show 64 * ((N + 63) / 64) = N by omega])
  by_cases hsound : TopSound b m maxRows
  · obtain ⟨rank, sdata, left, hrun, hreduces, -⟩ := Cleanup.spannedBasis_block b htSize hN hcol
      (fun _ => 0#64) (fun _ => 0#64) (htop.mp hsound)
    rw [htMat] at hreduces
    have hle : rank ≤ N := hreduces.rank ▸ Matrix.rank_le_width _
    obtain ⟨hsSize, hsMat⟩ := Gauss.toMatrix_copyTransposeFromFlat
      (G := gaussParams b N (min maxRows n)) (m := alloc (mem 0) N rank) sdata ⟨rfl, rfl⟩ hle
      ((Nat.mul_le_mul (show 64 * ((rank + 63) / 64) ≤ N by omega)
        (show (N + 63) / 64 ≤ N / 64 by omega)).trans hrow)
    obtain ⟨k2, hk2, hk2Size, hk2Mat⟩ := toMatrix_mulSmallb
      (c := alloc (mem 1) n rank) ⟨rfl, rfl⟩ hm hsSize hN
    refine Or.inl ⟨hsound, k2, rank, sdata, ?_, ⟨_, left, hrun, htransposed.trans htMat⟩, hk2Size,
      hle, hreduces, hk2Mat.trans (congrArg _ hsMat)⟩
    simp only [columnReduce, hrows, hcols, ht, htrows, htcols, hrun, hk2, bind_eq_bind, bind_some]
  · have hrun := Gauss.spannedBasis_eq_none (fun _ => 0#64) fun h => hsound (htop.mpr h)
    refine Or.inr ⟨hsound, ?_⟩
    simp only [columnReduce, hrows, hcols, ht, htrows, htcols, hrun,
      bind_eq_bind, bind_some, bind_none]

theorem ColumnReduced.congr {m m' k2 k2' : BlockMatrix} {maxRows r r' : ℕ}
    {sdata sdata' : Words} (h : ColumnReduced b m n N maxRows k2 r sdata)
    (h' : ColumnReduced b m' n N maxRows k2' r' sdata')
    (hm : m.toMatrix n N = m'.toMatrix n N) :
    r = r' ∧ ∀ i < n, ∀ j < r, k2.entry i j = k2'.entry i j := by
  obtain ⟨tiny, left, hrun, htiny⟩ := h.basis
  obtain ⟨tiny', left', hrun', htiny'⟩ := h'.basis
  have hrows : N ≤ (N + 63) / 64 * 64 := by omega
  have hcols : min maxRows n ≤ (min maxRows n + 63) / 64 * 64 := by omega
  have hview : ∀ i, ∀ x < min maxRows n,
      rowsOf (gaussParams b N (min maxRows n)) tiny i x
        = rowsOf (gaussParams b N (min maxRows n)) tiny' i x := by
    intro i x hx
    rw [hm, ← htiny'] at htiny
    exact congrFun (congrFun htiny ⟨x, hx⟩) i
  obtain ⟨rfl, hbits⟩ := Gauss.spannedBasis_congr (G := gaussParams b N (min maxRows n)) _
    (by decide) hcols hrows hview hrun hrun'
  have hbasis : changeOfBasis b N maxRows n sdata = changeOfBasis b N maxRows n sdata' := by
    ext y p
    exact hbits p p.isLt y (y.isLt.trans_le hrows)
  have hproduct := h.product
  rw [hm, hbasis, ← h'.product] at hproduct
  exact ⟨rfl, fun i hi j hj => congrFun (congrFun hproduct ⟨i, hi⟩) ⟨j, hj⟩⟩

/-! ## The dot products -/

/-- The characters and the heavy block side by side. -/
def sideBySide (scmat h : BlockMatrix) (n a c : ℕ) : Matrix (Fin n) (Fin (a + c)) (ZMod 2) :=
  Matrix.of fun i => Fin.append (scmat.toMatrix n a i) (h.toMatrix n c i)

/-- The product of the kernel with both matrices. -/
theorem dotProducts_spec {t k scmat h : BlockMatrix} {r a c : ℕ} (hsub : t.sub = false)
    (ht : t.HasSize r (a + c)) (hk : k.HasSize n r) (hs : scmat.HasSize n a)
    (hh : h.HasSize n c) (ha : a % 64 = 0) :
    ∃ t', dotProducts t k scmat h = some t' ∧ t'.HasSize r (a + c) ∧
      t'.toMatrix r (a + c) = (k.toMatrix n r).transpose * sideBySide scmat h n a c := by
  have hrows := ht.nrows
  have hcols := ht.ncols
  obtain ⟨tc, htc, htcrows, htccols, htcview⟩ := submatrix_spec hsub (Nat.zero_mod 64)
    (Nat.zero_mod 64) (show 0 + r ≤ t.nrows by omega) (show 0 + a ≤ t.ncols by omega)
  obtain ⟨tc', htc', hwrites⟩ := mulTaB_spec (c := tc) (a := k) (b := scmat)
    (htcrows.trans hk.ncols.symm) (htccols.trans hs.ncols.symm) (hk.nrows.trans hs.nrows.symm)
  obtain ⟨th, hth, hthrows, hthcols, hthview⟩ := submatrix_spec
    (show (t.writeBack tc').sub = false from hsub) (Nat.zero_mod 64) ha
    ((zero_add r).trans_le hrows.ge) hcols.ge
  obtain ⟨th', hth', hwrites'⟩ := mulTaB_spec (c := th) (a := k) (b := h)
    (hthrows.trans hk.ncols.symm) (hthcols.trans hh.ncols.symm) (hk.nrows.trans hh.nrows.symm)
  refine ⟨(t.writeBack tc').writeBack th', ?_, ⟨hrows, hcols⟩, ?_⟩
  · simp only [dotProducts, hk.ncols, hs.ncols, hh.ncols, htc, htc', hth, hth',
      bind_eq_bind, bind_some]
  · ext i j
    have hi := i.isLt
    rw [Matrix.mul_apply]
    refine j.addCases (fun j => ?_) (fun j => ?_)
    · have hj := j.isLt
      have hright : ∀ x, sideBySide scmat h n a c x (Fin.castAdd c j) = scmat.entry x j :=
        fun x => Fin.append_left _ _ j
      have hkept := hthview.others th' _ hwrites' (i / 64) (ht.div_lt_nrblocks hi) (j / 64)
        (ht.div_lt_ncblocks (by omega)) (by omega) (i % 64) (Nat.mod_lt _ (by decide))
      have hwritten := htcview.written tc' _ hwrites i (htcrows ▸ hi) j (htccols ▸ hj)
      rw [zero_add, zero_add, hk.nrows] at hwritten
      simp only [hright]
      refine (congrArg (bit · ((j : ℕ) % 64)) hkept).trans (hwritten.trans ?_)
      exact Finset.sum_range fun x => k.entry x i * scmat.entry x j
    · have hj := j.isLt
      have hright : ∀ x, sideBySide scmat h n a c x (Fin.natAdd a j) = h.entry x j :=
        fun x => Fin.append_right _ _ j
      have hwritten := hthview.written th' _ hwrites' i (hthrows ▸ hi) j (hthcols ▸ hj)
      rw [zero_add, hk.nrows] at hwritten
      simp only [hright]
      exact hwritten.trans (Finset.sum_range fun x => k.entry x i * h.entry x j)

/-! ## The kernel as a block matrix -/

/-- What `compute_transpose_of_blockmatrix_kernel` stores: the table of
`kernel`, transposed. -/
structure KernelStored (b : Build) (t : BlockMatrix) (r Q dim : ℕ) (kb : BlockMatrix) :
    Prop where
  size : kb.HasSize r r
  table : ∃ tiny table, Gauss.kernel (gaussParams b r Q) tiny (some fun _ _ => 0#64)
      = some (dim, some table) ∧
    (∀ i x, x < Q → rowsOf (gaussParams b r Q) tiny i x = t.entry i x) ∧
    ∀ y < 64 * kb.nrblocks, ∀ k < 64 * kb.ncblocks,
      kb.entry y k = if k < dim then arrayBit (table k) y else 0
  le : dim ≤ r
  padding : ∀ y < 64 * kb.nrblocks, ∀ k < 64 * kb.ncblocks, r ≤ y ∨ dim ≤ k → kb.entry y k = 0
  indep : LinearIndependent (ZMod 2) (kb.toMatrix r dim).col
  span : columnSpan (kb.toMatrix r dim) = LinearMap.ker (t.toMatrix r Q).vecMulLinear

theorem rowsOf_copyToFlat {G : Params} (tiny : Words) {t : BlockMatrix}
    (ht : t.HasSize G.nrows G.ncols) (hstride : G.limbsPerRow = t.ncblocks)
    (hfits : 64 * t.nrblocks * t.ncblocks ≤ 2 ^ 32) (i : Fin G.nrows) {x : ℕ} (hx : x < G.ncols) :
    rowsOf G (copyToFlat tiny G.limbsPerRow 0 0 t) i x = t.entry i x := by
  rw [hstride]
  have hkeeps : FlatKeeps t.nrows t.ncols t.ncblocks 0 0 :=
    flatKeeps_of_fits (by rw [← t.ncblocks_eq]; omega) (by rwa [← t.nrblocks_eq, zero_add])
  have hi := ht.div_lt_nrblocks i.isLt
  have hword := copyToFlat_apply tiny hkeeps (ht.div_lt_ncblocks hx)
    (Nat.mod_lt (i : ℕ) (by decide))
    (show 64 * ((i : ℕ) / 64) + i % 64 < t.nrows by
      rw [Nat.div_add_mod, ht.nrows]
      exact i.isLt)
  rw [flatBlock_add (Nat.mod_lt _ (by decide)) ((Nat.mul_le_mul_right _ (by omega)).trans hfits),
    Nat.div_add_mod, zero_add, Nat.zero_div, zero_add, mul_comm] at hword
  unfold rowsOf
  rw [hstride]
  exact congrArg (bit · (x % 64)) hword

theorem entry_kerdata {G : Params} (table : ℕ → Words) {kb : BlockMatrix}
    (hstride : G.limbsPerCol = kb.nrblocks) (hfits : 64 * kb.ncblocks * G.limbsPerCol ≤ 2 ^ 32)
    {y k : ℕ} (hy : y < 64 * kb.nrblocks) (hk : k < 64 * kb.ncblocks) :
    (copyTransposeFromFlat kb (kerdataOf G table) G.limbsPerCol 0 0).entry y k
      = if k < G.nrows then arrayBit (table k) y else 0 := by
  have hcol : y / 64 < G.limbsPerCol := by omega
  have hdiv : (k * G.limbsPerCol + y / 64) / G.limbsPerCol = k := by
    rw [mul_comm, Nat.mul_add_div (by omega), Nat.div_eq_of_lt hcol, add_zero]
  have hmod : (k * G.limbsPerCol + y / 64) % G.limbsPerCol = y / 64 := by
    rw [mul_comm, Nat.mul_add_mod, Nat.mod_eq_of_lt hcol]
  rw [entry_copyTransposeFromFlat hy hk, flatBlock_add (Nat.mod_lt _ (by decide))
    ((Nat.mul_le_mul_right _ (by omega)).trans hfits), Nat.div_add_mod, zero_add, Nat.zero_div,
    zero_add, kerdataOf, hdiv, hmod]
  split_ifs
  · rfl
  · exact bit_zero _

/-- The assertion of `check_soundness` holds for a matrix whose kernel is taken. -/
def KernelSound (b : Build) (t : BlockMatrix) : Prop :=
  Gauss.Sound (gaussParams b t.nrows t.ncols)
    (copyToFlat (fun _ => 0#64) (gaussParams b t.nrows t.ncols).limbsPerRow 0 0 t)

/-- The kernel is stored, or an assertion of `check_soundness` fails. -/
theorem transposeKernel_spec {t kb : BlockMatrix} {r Q : ℕ} (ht : t.HasSize r Q)
    (hkb : kb.HasSize r r) (hrow : 64 * t.nrblocks * t.ncblocks ≤ 2 ^ 32)
    (hcol : 64 * kb.ncblocks * kb.nrblocks ≤ 2 ^ 32) :
    (KernelSound b t ∧ ∃ dim words, computeTransposeOfBlockmatrixKernel b (some kb) t
        = some (dim, some { kb with words := words }) ∧
      KernelStored b t r Q dim { kb with words := words }) ∨
    ¬KernelSound b t ∧ computeTransposeOfBlockmatrixKernel b (some kb) t = none := by
  let G := gaussParams b r Q
  let tiny := copyToFlat (fun _ => 0#64) G.limbsPerRow 0 0 t
  have hrows : r ≤ (r + 63) / 64 * 64 := by omega
  have hcols : Q ≤ (Q + 63) / 64 * 64 := by omega
  have hLC : G.limbsPerCol = kb.nrblocks := by
    rw [kb.nrblocks_eq, hkb.nrows]
    rfl
  have hview : ∀ i x, x < Q → rowsOf G tiny i x = t.entry i x := fun i x hx =>
    rowsOf_copyToFlat (G := G) _ ht (by rw [t.ncblocks_eq, ht.ncols]; rfl) hrow i hx
  have hmatrix : Elimination.toMatrix (rowsOf G tiny) Q = t.toMatrix r Q := by
    ext i x
    exact hview i x x.isLt
  have hiff : KernelSound b t ↔ Gauss.Sound G tiny := by rw [KernelSound, ht.nrows, ht.ncols]
  by_cases hsound : Gauss.Sound G tiny
  · obtain ⟨us, table, hrun, hdim, hfilled⟩ :=
      Gauss.kernel_spec (G := G) (fun _ _ => 0#64) (by decide) hcols hrows hsound
    have hle : us.length ≤ r := hdim ▸ Nat.sub_le _ _
    have hinv := Elimination.inv_reduce (rowsOf G tiny) Q
    let kb' := copyTransposeFromFlat kb (kerdataOf G table) G.limbsPerCol 0 0
    have hentry : ∀ y < 64 * kb.nrblocks, ∀ k < 64 * kb.ncblocks,
        kb'.entry y k = if k < us.length then arrayBit (table k) y else 0 := by
      intro y hy k hk
      refine (entry_kerdata table hLC (hLC ▸ hcol) hy hk).trans ?_
      by_cases hkus : k < us.length
      · exact (if_pos (hkus.trans_le hle)).trans (if_pos hkus).symm
      · rw [if_neg hkus, hfilled.rest k (not_lt.mp hkus)]
        split_ifs
        · exact bit_zero _
        · rfl
    have hcol : ∀ k : Fin us.length, (kb'.toMatrix r us.length).col k
        = Gauss.vectorOf G (table k) := by
      intro k
      funext y
      have hy := hkb.div_lt_nrblocks y.isLt
      have hk := hkb.div_lt_ncblocks (k.isLt.trans_le hle)
      exact (hentry y (by omega) k (by omega)).trans (if_pos k.isLt)
    refine Or.inl ⟨hiff.mpr hsound, us.length, kb'.words, ?_, ⟨hkb.nrows, hkb.ncols⟩,
      ⟨tiny, table, hrun, hview, hentry⟩, hle, fun y hy k hk hpad => ?_, ?_, ?_⟩
    · simp only [computeTransposeOfBlockmatrixKernel, ht.nrows, ht.ncols, bind_eq_bind]
      rw [show Gauss.kernel (gaussParams b r Q) _ _ = _ from hrun]
      rfl
    · refine (hentry y hy k hk).trans ?_
      by_cases hkus : k < us.length
      · rw [if_pos hkus]
        have hlt : y < 64 * kb.nrblocks := hy
        exact hfilled.padding k hkus y (hpad.resolve_right (by omega)) (by omega)
      · exact if_neg hkus
    · have hindep := hfilled.linearIndependent hinv hrows
      rwa [← funext hcol] at hindep
    · have hspan := hfilled.span_eq hinv hrows
      rw [← funext hcol] at hspan
      exact hspan.trans (by rw [← hmatrix]; rfl)
  · refine Or.inr ⟨fun h => hsound (hiff.mp h), ?_⟩
    simp only [computeTransposeOfBlockmatrixKernel, ht.nrows, ht.ncols, bind_eq_bind]
    rw [show Gauss.kernel (gaussParams b r Q) _ _ = _ from Gauss.kernel_eq_none _ hsound]
    rfl

theorem KernelStored.congr {t t' kb kb' : BlockMatrix} {r Q dim dim' : ℕ}
    (h : KernelStored b t r Q dim kb) (h' : KernelStored b t' r Q dim' kb')
    (ht : t.toMatrix r Q = t'.toMatrix r Q) :
    dim = dim' ∧ ∀ y < 64 * kb.nrblocks, ∀ k < 64 * kb.ncblocks,
      kb.entry y k = kb'.entry y k := by
  obtain ⟨tiny, table, hrun, hview, hentry⟩ := h.table
  obtain ⟨tiny', table', hrun', hview', hentry'⟩ := h'.table
  have hrows : r ≤ (r + 63) / 64 * 64 := by omega
  have hcols : Q ≤ (Q + 63) / 64 * 64 := by omega
  have hnr : kb.nrblocks = (r + 63) / 64 := by rw [kb.nrblocks_eq, h.size.nrows]
  have hnr' : kb'.nrblocks = (r + 63) / 64 := by rw [kb'.nrblocks_eq, h'.size.nrows]
  have hnc : kb.ncblocks = kb'.ncblocks := by
    rw [kb.ncblocks_eq, kb'.ncblocks_eq, h.size.ncols, h'.size.ncols]
  obtain ⟨rfl, hbits⟩ := Gauss.kernel_congr (G := gaussParams b r Q) _ (by decide) hcols hrows
    (fun i x hx => (hview i x hx).trans
      ((congrFun (congrFun ht i) ⟨x, hx⟩).trans (hview' i x hx).symm)) hrun hrun'
  refine ⟨rfl, fun y hy k hk => ?_⟩
  rw [hentry y hy k hk, hentry' y (by omega) k (hnc ▸ hk)]
  by_cases hkd : k < dim
  · have hlt : y < (r + 63) / 64 * 64 := by omega
    rw [if_pos hkd, if_pos hkd, hbits k hkd y hlt]
  · rw [if_neg hkd, if_neg hkd]

/-! ## The dependencies -/

/-- How the dependencies `nk` come from the kernel vectors `k` and the matrix
`C` of characters and heavy block. -/
def Produced (b : Build) (k : BlockMatrix) {n Q : ℕ} (N : ℕ)
    (C : Matrix (Fin n) (Fin Q) (ZMod 2)) (dim : ℕ) (nk : BlockMatrix) : Prop :=
  ∃ k2 r sdata t kb, ColumnReduced b k n N 4096 k2 r sdata ∧
    t.toMatrix r Q = (k2.toMatrix n r).transpose * C ∧ KernelStored b t r Q dim kb ∧
    nk.HasSize n dim ∧ ∀ i < n, ∀ j < 64 * nk.ncblocks,
      nk.entry i j = ∑ x ∈ Finset.range r, k2.entry i x * kb.entry x j

section Dependencies

variable {k scmat h : BlockMatrix} {a c : ℕ}

/-- The assertions of `check_soundness` hold for the two matrices that are eliminated: the first
rows of the kernel vectors, and the dot products. -/
def BothSound (b : Build) (mem : ℕ → Words) (k scmat h : BlockMatrix) : Prop :=
  TopSound b k 4096 ∧
    ∀ k2 t, columnReduce b mem k 4096 = some k2 →
      dotProducts (alloc (mem 2) k2.ncols (scmat.ncols + h.ncols)) k2 scmat h = some t →
      KernelSound b t

/-- The program returns the dependencies, or an assertion of `check_soundness`
fails. -/
theorem dependencies_run (mem : ℕ → Words) (hsub : k.sub = false) (hk : k.HasSize n N)
    (hN : N % 64 = 0) (hs : scmat.HasSize n a) (ha : a % 64 = 0) (hh : h.HasSize n c)
    (hrow : N * (N / 64) ≤ 2 ^ 32) (hcol : N * ((a + c + 63) / 64) ≤ 2 ^ 32) :
    (BothSound b mem k scmat h ∧ ∃ dim nk, dependencies b mem k scmat h = some (dim, nk) ∧
      Produced b k N (sideBySide scmat h n a c) dim nk) ∨
    ¬BothSound b mem k scmat h ∧ dependencies b mem k scmat h = none := by
  have htop : N * ((min 4096 n + 63) / 64) ≤ 2 ^ 32 := by
    by_contra hlarge
    have hle : N * ((min 4096 n + 63) / 64) ≤ N * 64 := Nat.mul_le_mul_left N (by omega)
    have hmul := Nat.mul_le_mul (show 2 ^ 26 ≤ N by omega) (show 2 ^ 20 ≤ N / 64 by omega)
    omega
  rcases columnReduce_spec (b := b) mem hsub hk hN hrow htop with
    ⟨hsound, k2, r, sdata, hk2, hreduced⟩ | ⟨hsound, hk2⟩
  · obtain ⟨t, ht, htSize, htMat⟩ := dotProducts_spec (t := alloc (mem 2) r (a + c)) rfl
      ⟨rfl, rfl⟩ hreduced.size hs hh ha
    have hle := hreduced.le
    have hblocks : 64 * ((r + 63) / 64) ≤ N ∧ (r + 63) / 64 ≤ N / 64 := by omega
    have hboth : BothSound b mem k scmat h ↔ KernelSound b t := by
      refine ⟨fun hboth => hboth.2 k2 t hk2 ?_, fun hkernel => ⟨hsound, fun k2' t' hk' ht' => ?_⟩⟩
      · rwa [hreduced.size.ncols, hs.ncols, hh.ncols]
      · rw [hk2] at hk'
        cases hk'
        rw [hreduced.size.ncols, hs.ncols, hh.ncols, ht] at ht'
        cases ht'
        exact hkernel
    have hkbSize : (alloc (mem 3) r r).setZero.HasSize r r := ⟨rfl, rfl⟩
    rw [hboth]
    rcases transposeKernel_spec (b := b) htSize hkbSize
      (by
        rw [t.nrblocks_eq, t.ncblocks_eq, htSize.nrows, htSize.ncols]
        exact (Nat.mul_le_mul_right _ hblocks.1).trans hcol)
      ((Nat.mul_le_mul hblocks.1 hblocks.2).trans hrow) with
      ⟨hkernel, dim, words, hkb, hstored⟩ | ⟨hkernel, hkb⟩
    · set kb : BlockMatrix := { (alloc (mem 3) r r).setZero with words := words }
      obtain ⟨kbsub, hkbsub, hsubrows, hsubcols, hview⟩ := submatrix_spec
        (show kb.sub = false from rfl) (Nat.zero_mod 64) (Nat.zero_mod 64)
        (show 0 + r ≤ kb.nrows from (zero_add r).le)
        (show 0 + dim ≤ kb.ncols from (zero_add dim).trans_le hstored.le)
      have hentry : ∀ x < 64 * kbsub.nrblocks, ∀ j < 64 * kbsub.ncblocks,
          kbsub.entry x j = kb.entry x j := by
        intro x hx j hj
        have hxj := hview.entry x hx j hj
        rwa [zero_add, zero_add] at hxj
      have hnr : kbsub.nrblocks = kb.nrblocks := by
        rw [kbsub.nrblocks_eq, hsubrows]
        rfl
      have hnc : kbsub.ncblocks ≤ kb.ncblocks := by
        rw [kbsub.ncblocks_eq, hsubcols, kb.ncblocks_eq, hstored.size.ncols]
        have := hstored.le
        omega
      obtain ⟨nk, hnk, hwrites⟩ := mulSmallb_spec (c := alloc (mem 4) n dim) (a := k2)
        (b := kbsub) hreduced.size.nrows.symm hsubcols.symm
        (hreduced.size.ncols.trans hsubrows.symm) (fun x hx hlt j hj => by
          rw [hentry x hlt j hj]
          exact hstored.padding x (hnr ▸ hlt) j (by omega) (Or.inl (hsubrows ▸ hx)))
      refine Or.inl ⟨hkernel, dim, nk, ?_, k2, r, sdata, t, kb, hreduced, htMat, hstored,
        hwrites.hasSize ⟨rfl, rfl⟩, fun i hi j hj => ?_⟩
      · simp only [dependencies, hk2, hreduced.size.ncols, hs.nrows, hs.ncols, hh.ncols, ht, hkb,
          bind_eq_bind, bind_some]
        rw [show submatrix kb 0 0 kb.nrows dim = some kbsub from hkbsub]
        simp only [bind_some, hsubcols, hnk]
      · have hblocks : nk.ncblocks = (dim + 63) / 64 := by
          rw [nk.ncblocks_eq, (hwrites.hasSize (n := n) (N := dim) ⟨rfl, rfl⟩).ncols]
        rw [hwrites.entry i hi j (hj.trans_eq (congrArg _ hblocks)), hreduced.size.ncols]
        refine Finset.sum_congr rfl fun x hx => ?_
        have hlt := Finset.mem_range.mp hx
        rw [hentry x (by rw [kbsub.nrblocks_eq, hsubrows]; omega) j
          (by rw [kbsub.ncblocks_eq, hsubcols]; omega)]
    · refine Or.inr ⟨hkernel, ?_⟩
      simp only [dependencies, hk2, hreduced.size.ncols, hs.ncols, hh.ncols, ht, hkb,
        bind_eq_bind, bind_some, bind_none]
  · refine Or.inr ⟨fun hboth => hsound hboth.1, ?_⟩
    simp only [dependencies, hk2, bind_eq_bind, bind_none]

end Dependencies

section Produced

variable {k : BlockMatrix} {Q dim : ℕ} {C : Matrix (Fin n) (Fin Q) (ZMod 2)} {nk : BlockMatrix}
  (h : Produced b k N C dim nk)

include h

theorem Produced.hasSize : nk.HasSize n dim := by
  obtain ⟨k2, r, sdata, t, kb, -, -, -, hsize, -⟩ := h
  exact hsize

theorem Produced.padding (i : ℕ) (hi : i < n) (j : ℕ) (hj : dim ≤ j)
    (hlt : j < 64 * nk.ncblocks) : nk.entry i j = 0 := by
  obtain ⟨k2, r, sdata, t, kb, -, -, hstored, hsize, hentry⟩ := h
  have hncol : nk.ncblocks ≤ kb.ncblocks := by
    rw [nk.ncblocks_eq, hsize.ncols, kb.ncblocks_eq, hstored.size.ncols]
    have := hstored.le
    omega
  rw [hentry i hi j hlt]
  refine Finset.sum_eq_zero fun x hx => ?_
  have hx' : x < 64 * kb.nrblocks := by
    have hr := Finset.mem_range.mp hx
    rw [kb.nrblocks_eq, hstored.size.nrows]
    omega
  rw [hstored.padding x hx' j (by omega) (Or.inr hj), mul_zero]

theorem Produced.exists_product : ∃ r, ∃ hr : r ≤ N, ∃ T V,
    Reduces (topRows (k.toMatrix n N) 4096) T r ∧
    nk.toMatrix n dim = k.toMatrix n N * firstColumns T hr * V ∧
    LinearIndependent (ZMod 2) V.col ∧
    columnSpan V
      = LinearMap.ker ((k.toMatrix n N * firstColumns T hr).transpose * C).vecMulLinear := by
  obtain ⟨k2, r, sdata, t, kb, hreduced, ht, hstored, hsize, hentry⟩ := h
  have hspan := hstored.span
  rw [ht, hreduced.product] at hspan
  refine ⟨r, hreduced.le, _, kb.toMatrix r dim, hreduced.reduces, ?_, hstored.indep, hspan⟩
  rw [← hreduced.product]
  ext i j
  have hj : (j : ℕ) < 64 * nk.ncblocks := by
    have hlt := j.isLt
    rw [nk.ncblocks_eq, hsize.ncols]
    omega
  exact (hentry i i.isLt j hj).trans (Finset.sum_range fun x => k2.entry i x * kb.entry x j)

theorem Produced.columnSpan_le : columnSpan (nk.toMatrix n dim) ≤ columnSpan (k.toMatrix n N) := by
  obtain ⟨r, hr, T, V, -, hproduct, -, -⟩ := h.exists_product
  rw [hproduct, Matrix.mul_assoc]
  exact columnSpan_mul_le _ _

theorem Produced.annihilated : (nk.toMatrix n dim).transpose * C = 0 := by
  obtain ⟨r, hr, T, V, -, hproduct, -, hspan⟩ := h.exists_product
  rw [hproduct]
  exact transpose_mul_eq_zero fun j => hspan ▸ Submodule.subset_span ⟨j, rfl⟩

theorem Produced.isAnnihilatorBasis
    (hrank : (topRows (k.toMatrix n N) 4096).rank = (k.toMatrix n N).rank) :
    IsAnnihilatorBasis (k.toMatrix n N) C (nk.toMatrix n dim) := by
  obtain ⟨r, hr, T, V, hreduces, hproduct, hindep, hspan⟩ := h.exists_product
  have hbasis := isAnnihilatorBasis_mul (firstColumns_injective hreduces hr) hindep hspan
  rw [← hproduct] at hbasis
  refine ⟨hbasis.indep, ?_⟩
  rw [hbasis.span, span_firstColumns hreduces hr hrank]

theorem Produced.congr {k' nk' : BlockMatrix} {dim' : ℕ}
    (h' : Produced b k' N C dim' nk') (hk : k.toMatrix n N = k'.toMatrix n N) :
    dim = dim' ∧ ∀ i < n, ∀ j < 64 * nk.ncblocks, nk.entry i j = nk'.entry i j := by
  obtain ⟨k2, r, sdata, t, kb, hreduced, ht, hstored, hsize, hentry⟩ := h
  obtain ⟨k2', r', sdata', t', kb', hreduced', ht', hstored', hsize', hentry'⟩ := h'
  obtain ⟨rfl, hk2⟩ := hreduced.congr hreduced' hk
  have hk2Mat : k2.toMatrix n r = k2'.toMatrix n r := by
    ext i j
    exact hk2 i i.isLt j j.isLt
  obtain ⟨rfl, hkb⟩ := hstored.congr hstored' (by rw [ht, ht', hk2Mat])
  have hblocks : nk.ncblocks = nk'.ncblocks := by
    rw [nk.ncblocks_eq, nk'.ncblocks_eq, hsize.ncols, hsize'.ncols]
  have hncol : nk.ncblocks ≤ kb.ncblocks := by
    rw [nk.ncblocks_eq, hsize.ncols, kb.ncblocks_eq, hstored.size.ncols]
    have := hstored.le
    omega
  refine ⟨rfl, fun i hi j hj => ?_⟩
  rw [hentry i hi j hj, hentry' i hi j (hblocks ▸ hj)]
  refine Finset.sum_congr rfl fun x hx => ?_
  have hx' := Finset.mem_range.mp hx
  rw [hk2 i hi x hx', hkb x (by rw [kb.nrblocks_eq, hstored.size.nrows]; omega) j (by omega)]

end Produced

/-! ## Main result -/

/-- A kernel vector whose entries are the bits of a word. -/
def probedKernel : BlockMatrix :=
  alloc (fun x => if (-2342326#64).getLsbD x then 1#64 else 0#64) 64 64

end CadoNfs.Characters
