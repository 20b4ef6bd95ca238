import CadoNfs.Filter.FlushSparse

/-!
# The small matrix in slices

`oneFile` writes the small matrix as a whole, `manyFiles` slice by slice, each with
the columns of one interval.

Main results:

- Theorem `row_makeSparse`: the rows of one interval are parts of the rows of the matrix.
- Theorem `oneFile_spec`: what `oneFile` writes.
- Theorem `manySlices_spec`: what `manyFiles` writes.
- Theorem `manyFiles_iff`: when the slices are those of the matrix.
-/

namespace CadoNfs.Replay

open Function (update update_of_ne update_self)
open SortedXor
open List (mem_map mem_range range range')
open Set (BijOn Ico MapsTo SurjOn mem_Ico)
open Option (bind_eq_bind bind_some)

/-! ## Numbering columns -/

/-- The listed columns get the numbers from `k` on. -/
def numberFrom : List ℕ → (ℕ → ℤ) → ℕ → ℕ → ℤ
  | [], code, _ => code
  | j :: L, code, k => numberFrom L (update code j k) (k + 1)

/-- `renumber`.  The function `qsort` sorts the pairs of weight and column; a table
for `ncols << 1` numbers that is no `int` has no result. -/
def renumber (qsort : List (ℤ × ℕ) → List (ℤ × ℕ)) (ncols : ℕ) (colweight : ℕ → ℤ) :
    Option (ℕ × (ℕ → ℤ)) :=
  if 2 ^ 31 ≤ 2 * ncols then none
  else
    let tmp := ((range ncols).filter fun j => 0 < colweight j).map fun j => (colweight j, j)
    some (tmp.length, numberFrom ((qsort tmp).reverse.map Prod.snd) (fun _ => 0) 1)

/-- The loop of `manyFiles` that numbers the columns of a slice. -/
def renumberSlice : List ℕ → (ℕ → ℤ) → ℕ → (ℕ → ℤ) × ℕ
  | [], colweight, smallNcols => (colweight, smallNcols)
  | j :: L, colweight, smallNcols =>
    if 0 < colweight j then
      renumberSlice L (update colweight j smallNcols) (smallNcols + 1)
    else renumberSlice L colweight smallNcols

/-! ## One file or many -/

/-- `oneFile`. -/
def oneFile (qsort : List (ℤ × ℕ) → List (ℤ × ℕ)) (purged : List (List ℕ))
    (oldrows : ℕ → Option (List ℕ)) (ncols smallNrows skip bin : ℕ) :
    Option (ℕ × (ℕ → ℤ) × Files) := do
  let (mat, _) ← makeSparse 0 ncols 0 purged (emptyMat fun _ => 0) oldrows
  let (smallNcols, code) ← renumber qsort ncols mat.colweight
  let (files, _) ← flushSparse mat.sparsemat smallNrows smallNcols code skip bin
  return (smallNcols, code, files)

/-- A slice: its interval and its files. -/
structure Slice where
  jmin : ℕ
  jmax : ℕ
  files : Files

/-- What `manyFiles` carries from slice to slice. -/
structure Slices where
  jmax : ℕ
  smallNcols : ℕ
  colweight : ℕ → ℤ
  out : List Slice

/-- The loop of `manyFiles` at one slice.  The last two arguments of
`flushSparse` are those of the source: `bin`, then `skip`. -/
def manySlice (purged : List (List ℕ)) (oldrows : ℕ → Option (List ℕ))
    (ncols smallNrows skip bin nslices jstep : ℕ) (st : Slices) (slice : ℕ) : Option Slices := do
  let jmin := st.jmax
  let jmax := if slice = nslices - 1 then ncols else jmin + jstep
  let (mat, _) ← makeSparse jmin jmax nslices purged (emptyMat st.colweight) oldrows
  let (code, smallNcols) :=
    renumberSlice (range' jmin (jmax - jmin)) mat.colweight st.smallNcols
  let (files, _) ← flushSparse mat.sparsemat smallNrows smallNcols code bin
    (if jmin = 0 then skip else 0)
  return {
    jmax := jmax, smallNcols := smallNcols, colweight := code,
    out := st.out ++ [{ jmin := jmin, jmax := jmax, files := files }] }

/-- The width of a slice; there is none where the source divides by zero. -/
def sliceWidth (ncols nslices : ℕ) : Option ℕ :=
  if nslices = 0 then none
  else if ncols % nslices = 0 then some (ncols / nslices)
  else if nslices - 1 = 0 then none
  else some (ncols / (nslices - 1))

/-- `manyFiles`. -/
def manyFiles (purged : List (List ℕ)) (oldrows : ℕ → Option (List ℕ))
    (ncols smallNrows skip bin nslices : ℕ) : Option Slices := do
  let jstep ← sliceWidth ncols nslices
  let start : Slices := { jmax := 0, smallNcols := 1, colweight := fun _ => 0, out := [] }
  let slices := (range nslices).foldlM
    (manySlice purged oldrows ncols smallNrows skip bin nslices jstep) start
  if jstep < skip then none else slices

/-! ## What the files should be -/

instance (purged : List (List ℕ)) (row : List ℕ) (j : ℕ) : Decidable (OddIn purged row j) :=
  inferInstanceAs (Decidable (_ = _))

/-- A row of the small matrix: the sum of the listed old rows. -/
def smallRow (purged : List (List ℕ)) (ncols : ℕ) (row : List ℕ) : List ℕ :=
  (range ncols).filter fun j => OddIn purged row j

/-- The columns of a row within an interval. -/
def within (jmin jmax : ℕ) (row : List ℕ) : List ℕ :=
  row.filter fun j => jmin ≤ j ∧ j < jmax

/-- The columns that occur in the small matrix. -/
def smallColumns (rows : ℕ → List ℕ) (smallNrows : ℕ) : Set ℕ :=
  {j | ∃ i < smallNrows, j ∈ rows i}

/-- The files hold the rows in the format `bin`, split at `skip`, with the columns
numbered by `code`. -/
def SplitFiles (bin skip : ℕ) (code : ℕ → ℤ) (rows : ℕ → List ℕ) (smallNrows : ℕ)
    (files : Files) : Prop :=
  (∃ ncols, files.sparse.mat = putHeader bin smallNrows ncols
    ++ (range smallNrows).flatMap fun i => renderRow bin (sparseRow code skip (rows i))) ∧
  (skip = 0 → files.dense = none) ∧
  (skip ≠ 0 → ∃ dense, files.dense = some dense ∧ dense.mat = putHeader bin smallNrows skip
    ++ (range smallNrows).flatMap fun i => renderRow bin (denseRow code skip (rows i)))

/-- The slices follow each other from `a` to `b`. -/
def Consecutive (a b : ℕ) : List Slice → Prop
  | [] => a = b
  | slice :: slices => slice.jmin = a ∧ a ≤ slice.jmax ∧ Consecutive slice.jmax b slices

/-- Consecutive slices over all columns, with the columns that occur numbered from 1 on, and in
the files of each slice the columns of its interval, split at `skip` in the slice that
starts at column 0. -/
def Sliced (rows : ℕ → List ℕ) (smallNrows ncols nslices skip bin : ℕ) (slices : List Slice) :
    Prop :=
  slices.length = nslices ∧ Consecutive 0 ncols slices ∧
    ∃ (smallNcols : ℕ) (code : ℕ → ℤ),
      BijOn code (smallColumns rows smallNrows) (Ico 1 (smallNcols + 1)) ∧
      ∀ slice ∈ slices, SplitFiles bin (if slice.jmin = 0 then skip else 0) code
        (fun i => within slice.jmin slice.jmax (rows i)) smallNrows slice.files

/-! ## The numbers -/

section Number

variable {L : List ℕ} {code : ℕ → ℤ} {k : ℕ}

theorem numberFrom_of_not_mem {j : ℕ} (hj : j ∉ L) : numberFrom L code k j = code j := by
  induction L generalizing code k with
  | nil => rfl
  | cons a L ih =>
    rw [List.mem_cons, not_or] at hj
    rw [numberFrom, ih hj.2, update_of_ne hj.1]

variable (code) in
theorem bijOn_numberFrom (hL : L.Nodup) :
    BijOn (numberFrom L code k) {j | j ∈ L} (Ico (k : ℤ) (k + L.length)) := by
  induction L generalizing code k with
  | nil => simp [BijOn, SurjOn, MapsTo]
  | cons a L ih =>
    obtain ⟨ha, hL⟩ := List.nodup_cons.mp hL
    have hfirst : numberFrom (a :: L) code k a = k := by
      rw [numberFrom, numberFrom_of_not_mem ha, update_self]
    have hrest := @ih (update code a k) (k + 1) hL
    have hnot : numberFrom (a :: L) code k a
        ∉ Ico (((k + 1 : ℕ) : ℤ)) ((k + 1 : ℕ) + L.length) := by
      rw [hfirst, mem_Ico]
      omega
    have hinsert := BijOn.insert (f := numberFrom (a :: L) code k) hrest hnot
    have hdomain : {j | j ∈ a :: L} = insert a {j | j ∈ L} := by
      ext j
      simp
    have htarget : Ico (k : ℤ) (k + (a :: L).length)
        = insert (numberFrom (a :: L) code k a)
          (Ico (((k + 1 : ℕ) : ℤ)) ((k + 1 : ℕ) + L.length)) := by
      ext x
      rw [hfirst, List.length_cons]
      simp only [mem_Ico, Set.mem_insert_iff]
      omega
    rw [hdomain, htarget]
    exact hinsert

theorem renumberSlice_eq (hL : L.Nodup) :
    renumberSlice L code k = (numberFrom (L.filter fun j => 0 < code j) code k,
      k + (L.filter fun j => 0 < code j).length) := by
  induction L generalizing code k with
  | nil => rfl
  | cons a L ih =>
    obtain ⟨ha, hL⟩ := List.nodup_cons.mp hL
    rw [renumberSlice]
    split_ifs with hpos
    · have hfilter : (L.filter fun j => 0 < update code a (k : ℤ) j)
          = L.filter fun j => 0 < code j := by
        refine List.filter_congr fun j hj => ?_
        have hne : j ≠ a := by
          intro h
          rw [h] at hj
          exact ha hj
        rw [update_of_ne hne]
      rw [ih hL, hfilter, List.filter_cons_of_pos (by simpa using hpos), numberFrom,
        List.length_cons, add_assoc, add_comm 1]
    · rw [ih hL, List.filter_cons_of_neg (by simpa using hpos)]

theorem renumber_spec {qsort : List (ℤ × ℕ) → List (ℤ × ℕ)} (hqsort : ∀ l, (qsort l).Perm l)
    {ncols : ℕ} (hncols : 2 * ncols < 2 ^ 31) (colweight : ℕ → ℤ) :
    ∃ smallNcols code, renumber qsort ncols colweight = some (smallNcols, code) ∧
      smallNcols ≤ ncols ∧ BijOn code {j | j < ncols ∧ 0 < colweight j}
        (Ico 1 ((smallNcols : ℤ) + 1)) := by
  set columns := (range ncols).filter fun j => 0 < colweight j with hcolumns
  set sorted := (qsort (columns.map fun j => (colweight j, j))).reverse.map Prod.snd with hsorted
  have hperm : sorted.Perm columns := by
    refine (((List.reverse_perm _).trans (hqsort _)).map Prod.snd).trans ?_
    simp [Function.comp_def]
  have hnodup : sorted.Nodup := hperm.nodup_iff.mpr (List.nodup_range.filter _)
  refine ⟨columns.length, numberFrom sorted (fun _ => 0) 1, ?_, ?_, ?_⟩
  · rw [renumber, if_neg (by omega)]
    simp [← hcolumns, ← hsorted]
  · exact (List.length_filter_le _ _).trans List.length_range.le
  · have hbij := bijOn_numberFrom (fun _ => 0) (k := 1) hnodup
    have hdomain : {j | j ∈ sorted} = {j | j < ncols ∧ 0 < colweight j} := by
      ext j
      simp [hperm.mem_iff, hcolumns]
    rw [hdomain, hperm.length_eq] at hbij
    simpa [add_comm] using hbij

end Number

/-! ## The files -/

section Files

variable {smallNrows smallNcols skip bin : ℕ} {code code' : ℕ → ℤ} {rows rows' : ℕ → List ℕ}
  {files : Files}

section

variable {row : List ℕ} (h : ∀ j ∈ row, code j = code' j)
include h

theorem sparseRow_congr : sparseRow code skip row = sparseRow code' skip row := by
  induction row with
  | nil => rfl
  | cons j row ih =>
    obtain ⟨hj, h⟩ := List.forall_mem_cons.mp h
    rw [sparseRow_cons, sparseRow_cons, hj, ih h]

theorem denseRow_congr : denseRow code skip row = denseRow code' skip row := by
  induction row with
  | nil => rfl
  | cons j row ih =>
    obtain ⟨hj, h⟩ := List.forall_mem_cons.mp h
    rw [denseRow_cons, denseRow_cons, hj, ih h]

end

theorem flatMap_range_congr {f g : ℕ → List UInt8} {n : ℕ} (h : ∀ i < n, f i = g i) :
    (range n).flatMap f = (range n).flatMap g := by
  rw [List.flatMap_def, List.flatMap_def]
  congr 1
  exact List.map_congr_left fun i hi => h i (mem_range.mp hi)

theorem SplitFiles.congr (h : SplitFiles bin skip code rows smallNrows files)
    (hrows : ∀ i < smallNrows, rows i = rows' i)
    (hcode : ∀ i < smallNrows, ∀ j ∈ rows i, code j = code' j) :
    SplitFiles bin skip code' rows' smallNrows files := by
  obtain ⟨⟨ncols, hsparse⟩, hnone, hdense⟩ := h
  refine ⟨⟨ncols, ?_⟩, hnone, fun hskip => ?_⟩
  · rw [hsparse]
    congr 1
    refine flatMap_range_congr fun i hi => ?_
    rw [← hrows i hi, sparseRow_congr (hcode i hi)]
  · obtain ⟨dense, heq, hmat⟩ := hdense hskip
    refine ⟨dense, heq, ?_⟩
    rw [hmat]
    congr 1
    refine flatMap_range_congr fun i hi => ?_
    rw [← hrows i hi, denseRow_congr (hcode i hi)]

variable (skip bin) in
theorem flushSparse_splitFiles {sparsemat : ℕ → Option (List ℕ)} (hbin : bin ≤ 1)
    (hskip : skip ≤ smallNcols) (hncols : smallNcols < 2 ^ 31)
    (hcode : ∀ i < smallNrows, ∀ j ∈ rowAt sparsemat i, 1 ≤ code j ∧ code j ≤ smallNcols) :
    ∃ files W, flushSparse sparsemat smallNrows smallNcols code skip bin = some (files, W) ∧
      SplitFiles bin skip code (rowAt sparsemat) smallNrows files := by
  obtain ⟨st, hrun, hsmat, -, hdense, -⟩ := flushRows_spec {
      smat := putHeader bin smallNrows (smallNcols - skip)
      srw := []
      dmat := if skip = 0 then [] else putHeader bin smallNrows skip
      drw := []
      weights := fun _ => 0
      W := 0 } hncols
    (fun i hi => hcode i (mem_range.mp hi)) fun _ => Nat.two_pow_pos 32
  have hflush : ∃ files, flushSparse sparsemat smallNrows smallNcols code skip bin
        = some (files, st.W) ∧ files.sparse.mat = st.smat ∧ (skip = 0 → files.dense = none) ∧
      (skip ≠ 0 → ∃ dense, files.dense = some dense ∧ dense.mat = st.dmat) := by
    rw [flushSparse, if_neg (by omega), hrun]
    exact ⟨_, rfl, rfl, fun h => if_pos h, fun h => ⟨_, if_neg h, rfl⟩⟩
  obtain ⟨files, hfiles, hsparse, hnone, hsome⟩ := hflush
  refine ⟨files, st.W, hfiles, ⟨_, hsparse.trans hsmat⟩, hnone, fun hskip => ?_⟩
  obtain ⟨dense, heq, hmat⟩ := hsome hskip
  have hdmat := (hdense hskip).1
  simp only [hskip, if_false] at hdmat
  exact ⟨dense, heq, hmat.trans hdmat⟩

end Files

/-! ## The rows of an interval -/

section Rows

variable {jmin jmax nslices ncols : ℕ} {purged : List (List ℕ)} {old : ℕ → List ℕ}
  {oldrows : ℕ → Option (List ℕ)} {rows : List (List ℕ)} {start : ℕ → ℤ}

theorem pairwise_within (jmin jmax : ℕ) (purged : List (List ℕ)) (ncols : ℕ) (row : List ℕ) :
    (within jmin jmax (smallRow purged ncols row)).Pairwise (· < ·) :=
  (List.pairwise_lt_range.filter _).filter _

theorem mem_smallRow {row : List ℕ} {j : ℕ} :
    j ∈ smallRow purged ncols row ↔ j < ncols ∧ OddIn purged row j := by
  simp [smallRow]

theorem mem_within {row : List ℕ} {j : ℕ} :
    j ∈ within jmin jmax row ↔ j ∈ row ∧ jmin ≤ j ∧ j < jmax := by
  simp [within]

/-- The row numbers `oldrows` are those of the listed rows. -/
def Lists (purged rows : List (List ℕ)) (oldrows : ℕ → Option (List ℕ)) : Prop :=
  (∀ row ∈ rows, ∀ i ∈ row, i < purged.length) ∧
    ∃ old : ℕ → List ℕ, (∀ i < purged.length, oldrows i = some (old i)) ∧
      ∀ i k, (old i).count k = (rows.getD k []).count i

variable (jmin nslices start) in
/-- The rows of an interval are parts of the rows of the matrix, and their columns are counted
above the weights at the start. -/
theorem row_makeSparse (hpurged : ∀ cols ∈ purged, cols.Nodup)
    (hlists : Lists purged rows oldrows) (hjmax : jmax ≤ ncols) :
    ∃ mat oldrows', makeSparse jmin jmax nslices purged (emptyMat start) oldrows
        = some (mat, oldrows') ∧
      (∀ nb, rowAt mat.sparsemat nb
        = within jmin jmax (smallRow purged ncols (rows.getD nb []))) ∧
      ∀ j, mat.colweight j
        = start j + ((range rows.length).countP fun nb => j ∈ rowAt mat.sparsemat nb : ℕ) := by
  obtain ⟨hrows, old, holdrows, hold⟩ := hlists
  obtain ⟨oldrows', hrun, -⟩ := makeSparse_eq _ _ _ _ _ _
    holdrows
  obtain ⟨hbalanced, hmem⟩ := makeSparse_spec
    hpurged hrows hold
  refine ⟨_, oldrows', hrun, fun nb => ?_, hbalanced.colweight_eq⟩
  refine (hbalanced.increasing nb).eq_of_mem_iff (pairwise_within _ _ _ _ _) fun j => ?_
  rw [hmem, mem_within, mem_smallRow]
  exact ⟨fun h => ⟨⟨h.2.1.trans_le hjmax, h.2.2⟩, h.1, h.2.1⟩, fun h => ⟨h.2.1, h.2.2, h.1.2⟩⟩

/-- The row `nb` of the small matrix. -/
def smallRows (purged : List (List ℕ)) (ncols : ℕ) (rows : List (List ℕ)) (nb : ℕ) : List ℕ :=
  smallRow purged ncols (rows.getD nb [])

variable (start) in
theorem colweight_pos_iff {mat : SparseMat} {j : ℕ} (hstart : start j = 0)
    (hrow : ∀ nb, rowAt mat.sparsemat nb = within jmin jmax (smallRows purged ncols rows nb))
    (hweight : mat.colweight j
      = start j + ((range rows.length).countP fun nb => j ∈ rowAt mat.sparsemat nb : ℕ)) :
    0 < mat.colweight j
      ↔ (jmin ≤ j ∧ j < jmax) ∧ j ∈ smallColumns (smallRows purged ncols rows) rows.length := by
  have hpos : 0 < mat.colweight j
      ↔ 0 < (range rows.length).countP fun nb => j ∈ rowAt mat.sparsemat nb := by
    rw [hweight, hstart]
    omega
  rw [hpos, List.countP_pos_iff]
  simp only [mem_range, decide_eq_true_eq, hrow, mem_within, smallColumns, Set.mem_ofPred_eq]
  exact ⟨fun ⟨nb, hnb, hj, hin⟩ => ⟨hin, nb, hnb, hj⟩, fun ⟨hin, nb, hnb, hj⟩ => ⟨nb, hnb, hj, hin⟩⟩

theorem colweight_eq_start {mat : SparseMat} {j : ℕ} (hj : ¬ (jmin ≤ j ∧ j < jmax))
    (hrow : ∀ nb, rowAt mat.sparsemat nb = within jmin jmax (smallRows purged ncols rows nb))
    (hweight : mat.colweight j
      = start j + ((range rows.length).countP fun nb => j ∈ rowAt mat.sparsemat nb : ℕ)) :
    mat.colweight j = start j := by
  have hzero : (range rows.length).countP (fun nb => j ∈ rowAt mat.sparsemat nb) = 0 := by
    refine List.countP_eq_zero.mpr fun nb _ => ?_
    rw [decide_eq_true_eq, hrow, mem_within]
    exact fun h => hj h.2
  rw [hweight, hzero, Nat.cast_zero, add_zero]

end Rows

/-! ## One file -/

section OneFile

variable {purged rows : List (List ℕ)} {oldrows : ℕ → Option (List ℕ)} {ncols skip bin : ℕ}
  {qsort : List (ℤ × ℕ) → List (ℤ × ℕ)}

/-- `oneFile` numbers the columns that occur, and writes all rows. -/
theorem oneFile_spec (hqsort : ∀ l, (qsort l).Perm l) (hncols : 2 * ncols < 2 ^ 31)
    (hbin : bin ≤ 1) (hpurged : ∀ cols ∈ purged, cols.Nodup)
    (hlists : Lists purged rows oldrows) :
    ∃ (smallNcols : ℕ) (code : ℕ → ℤ),
      BijOn code (smallColumns (smallRows purged ncols rows) rows.length)
        (Ico 1 ((smallNcols : ℤ) + 1)) ∧
      (skip ≤ smallNcols → ∃ files,
        oneFile qsort purged oldrows ncols rows.length skip bin = some (smallNcols, code, files) ∧
        SplitFiles bin skip code (smallRows purged ncols rows) rows.length files) := by
  obtain ⟨mat, oldrows', hmake, hrow, hweight⟩ :=
    row_makeSparse 0 0 _ hpurged hlists le_rfl
  have hrow : ∀ nb, rowAt mat.sparsemat nb = within 0 ncols (smallRows purged ncols rows nb) := hrow
  have hwithin : ∀ nb, within 0 ncols (smallRows purged ncols rows nb)
      = smallRows purged ncols rows nb := by
    refine fun nb => List.filter_eq_self.mpr fun j hj => ?_
    simpa using (mem_smallRow.mp hj).1
  obtain ⟨smallNcols, code, hrenumber, hle, hbij⟩ := renumber_spec hqsort hncols mat.colweight
  have hdomain : {j | j < ncols ∧ 0 < mat.colweight j}
      = smallColumns (smallRows purged ncols rows) rows.length := by
    ext j
    have hpos := colweight_pos_iff (fun _ => 0) rfl hrow (hweight j)
    rw [Set.mem_ofPred_eq, hpos]
    refine ⟨fun h => h.2.2, fun h => ?_⟩
    obtain ⟨nb, -, hj⟩ := id h
    have hlt := (mem_smallRow.mp hj).1
    exact ⟨hlt, ⟨Nat.zero_le j, hlt⟩, h⟩
  rw [hdomain] at hbij
  refine ⟨smallNcols, code, hbij, fun hskip => ?_⟩
  have hcode : ∀ i < rows.length, ∀ j ∈ rowAt mat.sparsemat i,
      1 ≤ code j ∧ code j ≤ smallNcols := by
    intro i hi j hj
    rw [hrow, hwithin] at hj
    have hrange := hbij.mapsTo ⟨i, hi, hj⟩
    rw [mem_Ico] at hrange
    omega
  obtain ⟨files, W, hflush, hfiles⟩ :=
    flushSparse_splitFiles _ _ hbin hskip (by omega) hcode
  refine ⟨files, ?_, hfiles.congr (fun i _ => by rw [hrow, hwithin]) fun _ _ _ _ => rfl⟩
  simp only [oneFile, hmake, hrenumber, hflush, bind_eq_bind, bind_some]
  rfl

end OneFile

/-! ## Many files -/

/-- The slices up to column `st.jmax`, with the columns that occur below it numbered. -/
structure Prefix (rows : ℕ → List ℕ) (smallNrows skip bin : ℕ) (st : Slices) : Prop where
  consecutive : Consecutive 0 st.jmax st.out
  smallNcols_pos : 1 ≤ st.smallNcols
  smallNcols_le : st.smallNcols ≤ st.jmax + 1
  bijOn : BijOn st.colweight {j | j ∈ smallColumns rows smallNrows ∧ j < st.jmax}
    (Ico 1 (st.smallNcols : ℤ))
  colweight_zero : ∀ j, st.jmax ≤ j → st.colweight j = 0
  files : ∀ slice ∈ st.out, slice.jmax ≤ st.jmax ∧
    SplitFiles (if slice.jmin = 0 then skip else 0) bin st.colweight
      (fun i => within slice.jmin slice.jmax (rows i)) smallNrows slice.files

section ManyFiles

variable {purged rows : List (List ℕ)} {oldrows : ℕ → Option (List ℕ)}
  {ncols skip bin nslices jstep s : ℕ} {st : Slices}

theorem Consecutive.append {a b c : ℕ} {slices : List Slice} {slice : Slice}
    (h : Consecutive a b slices) (hmin : slice.jmin = b) (hmax : slice.jmax = c) (hle : b ≤ c) :
    Consecutive a c (slices ++ [slice]) := by
  induction slices generalizing a with
  | nil =>
    obtain rfl : a = b := h
    exact ⟨hmin, hmax ▸ hle, hmax⟩
  | cons first slices ih => exact ⟨h.1, h.2.1, ih h.2.2⟩

theorem bijOn_union {A B : Set ℕ} {f : ℕ → ℤ} {a k b : ℤ} (hA : BijOn f A (Ico a k))
    (hB : BijOn f B (Ico k b)) (hak : a ≤ k) (hkb : k ≤ b) :
    BijOn f (A ∪ B) (Ico a b) := by
  have hinj : Set.InjOn f (A ∪ B) := by
    rintro x (hx | hx) y (hy | hy) hxy
    · exact hA.injOn hx hy hxy
    · have hxlt := (hA.mapsTo hx).2
      have hyge := (hB.mapsTo hy).1
      omega
    · have hxge := (hB.mapsTo hx).1
      have hylt := (hA.mapsTo hy).2
      omega
    · exact hB.injOn hx hy hxy
  have hunion := hA.union hB hinj
  rwa [Set.Ico_union_Ico_eq_Ico hak hkb] at hunion

/-- One more slice continues the columns where the last slice stopped. -/
theorem manySlice_spec (hskip : skip ≤ 1) (hbin : bin ≤ 1) (hncols : ncols + 1 < 2 ^ 31)
    (hpurged : ∀ cols ∈ purged, cols.Nodup) (hlists : Lists purged rows oldrows)
    (hst : Prefix (smallRows purged ncols rows) rows.length skip bin st) {jmax : ℕ}
    (hjmax : (if s = nslices - 1 then ncols else st.jmax + jstep) = jmax)
    (hle : st.jmax ≤ jmax) (hle' : jmax ≤ ncols) :
    ∃ st', manySlice purged oldrows ncols rows.length skip bin nslices jstep st s = some st' ∧
      Prefix (smallRows purged ncols rows) rows.length skip bin st' ∧ st'.jmax = jmax ∧
      st'.out.map Slice.jmin = st.out.map Slice.jmin ++ [st.jmax] := by
  obtain ⟨mat, oldrows', hmake, hrow, hweight⟩ :=
    row_makeSparse _ nslices _ hpurged hlists hle'
  have hrow : ∀ nb, rowAt mat.sparsemat nb
      = within st.jmax jmax (smallRows purged ncols rows nb) := hrow
  set L := (range' st.jmax (jmax - st.jmax)).filter fun j => 0 < mat.colweight j with hL
  set code := numberFrom L mat.colweight st.smallNcols with hcode
  have hmem : ∀ j, j ∈ L ↔ (st.jmax ≤ j ∧ j < jmax) ∧
      j ∈ smallColumns (smallRows purged ncols rows) rows.length := by
    intro j
    rw [hL, List.mem_filter, List.mem_range'_1, decide_eq_true_eq]
    constructor
    · rintro ⟨hin, hpos⟩
      exact (colweight_pos_iff _ (hst.colweight_zero j hin.1) hrow (hweight j)).mp hpos
    · intro h
      exact ⟨by omega, (colweight_pos_iff _ (hst.colweight_zero j h.1.1) hrow (hweight j)).mpr h⟩
  have hrenumber : renumberSlice (range' st.jmax (jmax - st.jmax)) mat.colweight st.smallNcols
      = (code, st.smallNcols + L.length) := renumberSlice_eq List.nodup_range'
  have hlength : L.length ≤ jmax - st.jmax :=
    (List.length_filter_le _ _).trans List.length_range'.le
  have hold : ∀ j, ¬ (st.jmax ≤ j ∧ j < jmax) → code j = st.colweight j := by
    intro j hj
    rw [hcode, numberFrom_of_not_mem fun h => hj ((hmem j).mp h).1,
      colweight_eq_start hj hrow (hweight j)]
  have hbij : BijOn code
      {j | j ∈ smallColumns (smallRows purged ncols rows) rows.length ∧ j < jmax}
      (Ico 1 ((st.smallNcols + L.length : ℕ) : ℤ)) := by
    have hfirst := hst.bijOn.congr fun j hj => (hold j (by have := hj.2; omega)).symm
    have hnext := bijOn_numberFrom mat.colweight (L := L) (k := st.smallNcols)
      (List.Nodup.filter _ List.nodup_range')
    have hunion := bijOn_union hfirst hnext (by have := hst.smallNcols_pos; omega) (by omega)
    have hdomain : {j | j ∈ smallColumns (smallRows purged ncols rows) rows.length ∧ j < jmax}
        = {j | j ∈ smallColumns (smallRows purged ncols rows) rows.length ∧ j < st.jmax}
          ∪ {j | j ∈ L} := by
      ext j
      simp only [Set.mem_ofPred_eq, Set.mem_union, hmem]
      constructor
      · rintro ⟨hj, hlt⟩
        by_cases h : j < st.jmax
        · exact Or.inl ⟨hj, h⟩
        · exact Or.inr ⟨⟨by omega, hlt⟩, hj⟩
      · rintro (⟨hj, hlt⟩ | ⟨hin, hj⟩)
        · exact ⟨hj, by omega⟩
        · exact ⟨hj, hin.2⟩
    rw [hdomain, Nat.cast_add]
    exact hunion
  have hcolumns : ∀ i < rows.length, ∀ j ∈ rowAt mat.sparsemat i,
      1 ≤ code j ∧ code j ≤ (st.smallNcols + L.length : ℕ) := by
    intro i hi j hj
    rw [hrow, mem_within] at hj
    have hrange := hbij.mapsTo ⟨⟨i, hi, hj.1⟩, hj.2.2⟩
    rw [mem_Ico] at hrange
    omega
  have hsmall := hst.smallNcols_le
  have hpos := hst.smallNcols_pos
  have hsmall' : st.smallNcols + L.length ≤ jmax + 1 := by omega
  have hzero : ∀ j, jmax ≤ j → code j = 0 := by
    intro j hj
    rw [hold j (by omega), hst.colweight_zero j (hle.trans hj)]
  obtain ⟨files, W, hflush, hfiles⟩ := flushSparse_splitFiles bin
    (if st.jmax = 0 then skip else 0) (by split_ifs <;> omega) (by omega) (by omega) hcolumns
  refine ⟨{ jmax := jmax, smallNcols := st.smallNcols + L.length, colweight := code,
            out := st.out ++ [{ jmin := st.jmax, jmax := jmax, files := files }] }, ?_, ?_, rfl,
    List.map_append⟩
  · simp only [manySlice, hjmax, hmake, hrenumber, hflush, bind_eq_bind, bind_some]
    rfl
  · refine ⟨hst.consecutive.append rfl rfl hle, hpos.trans (Nat.le_add_right _ _), hsmall', hbij,
      hzero, fun slice hslice => ?_⟩
    rcases List.mem_append.mp hslice with hslice | hslice
    · obtain ⟨hslicemax, hslicefiles⟩ := hst.files slice hslice
      refine ⟨hslicemax.trans hle, hslicefiles.congr (fun _ _ => rfl) fun i _ j hj => ?_⟩
      have hlt := (mem_within.mp hj).2.2
      exact (hold j (by omega)).symm
    · rw [List.mem_singleton.mp hslice]
      exact ⟨le_rfl, hfiles.congr (fun i _ => hrow i) fun _ _ _ _ => rfl⟩

theorem mul_sliceWidth_le (hwidth : sliceWidth ncols nslices = some jstep) :
    (nslices - 1) * jstep ≤ ncols := by
  unfold sliceWidth at hwidth
  split_ifs at hwidth with hzero hmod hone
  · obtain rfl := Option.some.inj hwidth
    exact (Nat.mul_le_mul_right _ (Nat.sub_le nslices 1)).trans (Nat.mul_div_le ncols nslices)
  · obtain rfl := Option.some.inj hwidth
    exact Nat.mul_div_le ncols (nslices - 1)

theorem sliceWidth_isSome (ncols : ℕ) (hnslices : 1 ≤ nslices) :
    ∃ jstep, sliceWidth ncols nslices = some jstep := by
  rw [sliceWidth, if_neg (by omega)]
  split_ifs with hmod hone
  · exact ⟨_, rfl⟩
  · obtain rfl : nslices = 1 := by omega
    exact absurd (Nat.mod_one ncols) hmod
  · exact ⟨_, rfl⟩

variable (skip) in
/-- The first slices. -/
theorem manySlices_spec (hskip : skip ≤ 1) (hbin : bin ≤ 1) (hncols : ncols + 1 < 2 ^ 31)
    (hpurged : ∀ cols ∈ purged, cols.Nodup) (hlists : Lists purged rows oldrows)
    (hnslices : 1 ≤ nslices) (hwidth : sliceWidth ncols nslices = some jstep)
    (hs : s ≤ nslices) :
    ∃ st, (range s).foldlM
        (manySlice purged oldrows ncols rows.length skip bin nslices jstep)
        { jmax := 0, smallNcols := 1, colweight := fun _ => 0, out := [] } = some st ∧
      Prefix (smallRows purged ncols rows) rows.length skip bin st ∧
      st.jmax = (if s = nslices then ncols else s * jstep) ∧
      st.out.map Slice.jmin = (range s).map (· * jstep) := by
  induction s with
  | zero =>
    refine ⟨_, rfl, ⟨rfl, le_rfl, le_rfl, ?_, fun _ _ => rfl, by simp⟩, ?_, rfl⟩
    · simp [BijOn, MapsTo, SurjOn]
    · rw [if_neg (by omega), zero_mul]
  | succ s ih =>
    obtain ⟨st, hrun, hst, hjmax, hjmins⟩ := ih (by omega)
    rw [if_neg (by omega)] at hjmax
    have hfit := mul_sliceWidth_le hwidth
    have hprefix : (s + 1) * jstep ≤ ncols ∨ s + 1 = nslices := by
      by_cases hlast : s + 1 = nslices
      · exact Or.inr hlast
      · exact Or.inl ((Nat.mul_le_mul_right jstep (by omega)).trans hfit)
    have hstart : s * jstep ≤ ncols := (Nat.mul_le_mul_right jstep (by omega)).trans hfit
    have hnext : (if s = nslices - 1 then ncols else st.jmax + jstep)
        = if s + 1 = nslices then ncols else (s + 1) * jstep := by
      rw [hjmax, Nat.succ_mul]
      congr 1
      exact propext ⟨fun h => by omega, fun h => by omega⟩
    obtain ⟨st', hstep, hst', hjmax', hjmins'⟩ := manySlice_spec (s := s)
      hskip hbin hncols hpurged hlists hst hnext
      (by rw [hjmax]; split_ifs <;> [exact hstart; exact Nat.mul_le_mul_right jstep (by omega)])
      (by split_ifs <;> [exact le_rfl; exact hprefix.resolve_right (by assumption)])
    refine ⟨st', ?_, hst', hjmax', ?_⟩
    · rw [List.range_succ, List.foldlM_append, hrun]
      simp [hstep]
    · rw [hjmins', hjmins, hjmax, List.range_succ, List.map_append, List.map_singleton]

variable (ncols bin nslices st) in
theorem manySlice_eq_none (hskip : 1 < skip) (hpurged : ∀ cols ∈ purged, cols.Nodup)
    (hlists : Lists purged rows oldrows) (hst : st.jmax = 0)
    (hle : (if s = nslices - 1 then ncols else jstep) ≤ ncols) :
    manySlice purged oldrows ncols rows.length skip bin nslices jstep st s = none := by
  rw [← zero_add jstep] at hle
  obtain ⟨mat, oldrows', hmake, -, -⟩ := row_makeSparse 0 nslices st.colweight hpurged hlists hle
  simp only [manySlice, hst, hmake, if_true, bind_eq_bind, bind_some]
  rw [flushSparse, if_pos (Or.inl hskip), Option.bind_none]

/-! ## The slices of the matrix -/

/-- `oneFile` and `manyFiles` write the same matrix: both number the columns that occur
and write all rows, `manyFiles` in slices of which the first is split as the file of
`oneFile` is. -/
def SameMatrix (qsort : List (ℤ × ℕ) → List (ℤ × ℕ)) (purged : List (List ℕ))
    (oldrows : ℕ → Option (List ℕ)) (rows : List (List ℕ)) (ncols skip bin nslices : ℕ) : Prop :=
  sliceWidth ncols nslices ≠ none ∧
    (∃ (smallNcols : ℕ) (code : ℕ → ℤ),
      BijOn code (smallColumns (smallRows purged ncols rows) rows.length)
        (Ico 1 ((smallNcols : ℤ) + 1)) ∧
      (skip ≤ smallNcols → ∃ files,
        oneFile qsort purged oldrows ncols rows.length skip bin = some (smallNcols, code, files) ∧
        SplitFiles bin skip code (smallRows purged ncols rows) rows.length files)) ∧
    ∃ slices, manyFiles purged oldrows ncols rows.length skip bin nslices = some slices ∧
      Sliced (smallRows purged ncols rows) rows.length ncols nslices skip bin slices.out

theorem SplitFiles.skip_eq_zero_iff {bin' skip' n : ℕ} {code code' : ℕ → ℤ}
    {row row' : ℕ → List ℕ} {files : Files} (h : SplitFiles bin skip code row n files)
    (h' : SplitFiles bin' skip' code' row' n files) : skip = 0 ↔ skip' = 0 := by
  obtain ⟨-, hnone, hsome⟩ := h
  obtain ⟨-, hnone', hsome'⟩ := h'
  constructor
  · intro hskip
    by_contra hskip'
    obtain ⟨dense, hdense, -⟩ := hsome' hskip'
    exact absurd ((hnone hskip).symm.trans hdense) (by simp)
  · intro hskip'
    by_contra hskip
    obtain ⟨dense, hdense, -⟩ := hsome hskip
    exact absurd ((hnone' hskip').symm.trans hdense) (by simp)

/-- The slices give the matrix back for matching flags only. -/
theorem sameMatrix_iff (qsort : List (ℤ × ℕ) → List (ℤ × ℕ)) (hqsort : ∀ l, (qsort l).Perm l)
    (hpurged : ∀ cols ∈ purged, cols.Nodup) (hlists : Lists purged rows oldrows)
    (hncols : 2 * ncols < 2 ^ 31) (hbin : bin ≤ 1) (hnslices : 1 ≤ nslices)
    (hskip : ∀ jstep, sliceWidth ncols nslices = some jstep → skip ≤ jstep) :
    SameMatrix qsort purged oldrows rows ncols skip bin nslices
      ↔ skip = bin ∧ (bin = 0 ∨ nslices = 1) := by
  obtain ⟨jstep, hwidth⟩ := sliceWidth_isSome ncols hnslices
  have hskip := hskip jstep hwidth
  have hmany : manyFiles purged oldrows ncols rows.length skip bin nslices
      = (range nslices).foldlM
        (manySlice purged oldrows ncols rows.length skip bin nslices jstep)
        { jmax := 0, smallNcols := 1, colweight := fun _ => 0, out := [] } := by
    simp only [manyFiles, hwidth, bind_eq_bind, bind_some]
    rw [if_neg (by omega)]
  by_cases hbig : 1 < skip
  · -- the first slice has no format
    refine iff_of_false ?_ fun h => by omega
    rintro ⟨-, -, slices, hslices, -⟩
    obtain ⟨n, rfl⟩ : ∃ n, nslices = n + 1 := ⟨nslices - 1, by omega⟩
    have hfit := mul_sliceWidth_le hwidth
    have hfirst := manySlice_eq_none ncols bin (n + 1)
      { jmax := 0, smallNcols := 1, colweight := fun _ => 0, out := [] } (s := 0)
      hbig hpurged hlists rfl (by
        split_ifs with h
        · exact le_rfl
        · exact (Nat.le_mul_of_pos_left jstep (by omega)).trans hfit)
    rw [hmany, List.range_succ_eq_map, List.foldlM_cons, hfirst] at hslices
    simp at hslices
  obtain ⟨st, hrun, hst, hjmax, hjmins⟩ := manySlices_spec skip (s := nslices) (by omega)
    hbin (by omega) hpurged hlists hnslices hwidth le_rfl
  rw [if_pos rfl] at hjmax
  have hmem : ∀ k < nslices, ∃ slice ∈ st.out, slice.jmin = k * jstep := by
    intro k hk
    have hk : k * jstep ∈ st.out.map Slice.jmin := by
      rw [hjmins]
      exact mem_map.mpr ⟨k, mem_range.mpr hk, rfl⟩
    obtain ⟨slice, hslice, hmin⟩ := mem_map.mp hk
    exact ⟨slice, hslice, hmin⟩
  constructor
  · rintro ⟨-, -, slices, hslices, -, -, smallNcols, code, -, hfiles⟩
    obtain rfl := Option.some.inj (hrun.symm.trans (hmany.symm.trans hslices))
    obtain ⟨first, hfirst, hmin⟩ := hmem 0 (by omega)
    rw [zero_mul] at hmin
    have hsame := (hst.files first hfirst).2.skip_eq_zero_iff (hfiles first hfirst)
    rw [if_pos hmin] at hsame
    refine ⟨by omega, ?_⟩
    by_contra hcases
    obtain ⟨second, hsecond, hmin⟩ := hmem 1 (by omega)
    have hsame := (hst.files second hsecond).2.skip_eq_zero_iff (hfiles second hsecond)
    rw [if_neg (by omega)] at hsame
    omega
  · rintro ⟨rfl, hcases⟩
    refine ⟨by rw [hwidth]; simp, oneFile_spec hqsort hncols hbin hpurged hlists, st,
      hmany.trans hrun, ?_, hjmax ▸ hst.consecutive, st.smallNcols - 1, st.colweight, ?_,
      fun slice hslice => ?_⟩
    · have hlength := congrArg List.length hjmins
      simpa using hlength
    · have hpos := hst.smallNcols_pos
      have hbij := hst.bijOn
      have hdomain : {j | j ∈ smallColumns (smallRows purged ncols rows) rows.length ∧ j < st.jmax}
          = smallColumns (smallRows purged ncols rows) rows.length := by
        ext j
        refine ⟨fun h => h.1, fun h => ⟨h, ?_⟩⟩
        obtain ⟨nb, -, hj⟩ := h
        rw [hjmax]
        exact (mem_smallRow.mp hj).1
      rw [hdomain] at hbij
      rwa [show ((st.smallNcols - 1 : ℕ) : ℤ) + 1 = st.smallNcols by omega]
    · have hfiles := (hst.files slice hslice).2
      rcases hcases with rfl | rfl
      · simpa using hfiles
      · have hmin : slice.jmin ∈ st.out.map Slice.jmin := mem_map.mpr ⟨slice, hslice, rfl⟩
        rw [hjmins] at hmin
        have hmin : slice.jmin = 0 := by simpa using hmin
        simpa only [hmin, if_true] using hfiles

variable (purged) in
theorem lists_buildOldrows (newrows : List (Option (List ℕ)))
    (hlength : newrows.length = purged.length)
    (hrows : ∀ row ∈ newRelations newrows, ∀ i ∈ row, i < purged.length) :
    ∃ oldrows, buildOldrows newrows = some ((newRelations newrows).length, oldrows) ∧
      Lists purged (newRelations newrows) oldrows := by
  obtain ⟨old, hbuild, hold⟩ := buildOldrows_spec
    fun row hrow i hi => by rw [hlength]; exact hrows row hrow i hi
  exact ⟨_, hbuild, hrows, old, fun i hi => if_pos (by omega), hold⟩

/-- For a purged matrix with distinct columns in each row, `oneFile` and
`manyFiles` write the same matrix exactly if `skip` is `bin`, and there is one
slice or neither is set. -/
theorem manyFiles_iff {qsort : List (ℤ × ℕ) → List (ℤ × ℕ)} (hqsort : ∀ l, (qsort l).Perm l)
    {newrows : List (Option (List ℕ))} (hlength : newrows.length = purged.length)
    (hpurged : ∀ cols ∈ purged, cols.Nodup)
    (hrows : ∀ row ∈ newRelations newrows, ∀ i ∈ row, i < purged.length)
    (hncols : 2 * ncols < 2 ^ 31) (hbin : bin ≤ 1) (hnslices : 1 ≤ nslices)
    (hskip : ∀ jstep, sliceWidth ncols nslices = some jstep → skip ≤ jstep) :
    ∃ oldrows, buildOldrows newrows = some ((newRelations newrows).length, oldrows) ∧
      (SameMatrix qsort purged oldrows (newRelations newrows) ncols skip bin nslices
        ↔ skip = bin ∧ (bin = 0 ∨ nslices = 1)) := by
  obtain ⟨oldrows, hbuild, hlists⟩ := lists_buildOldrows _ _ hlength hrows
  exact ⟨oldrows, hbuild, sameMatrix_iff _ hqsort hpurged hlists hncols hbin hnslices hskip⟩

/-- A sort by weight. -/
def sortByWeight (l : List (ℤ × ℕ)) : List (ℤ × ℕ) :=
  l.mergeSort fun x y => decide (x.1 ≤ y.1)

/-- Two text slices of two columns. -/
theorem manyFiles_iff_two :
    ∃ oldrows, buildOldrows [some [0], some [0, 1]] = some (2, oldrows) ∧
      (SameMatrix sortByWeight [[1, 0], [1]] oldrows [[0], [0, 1]] 2 0 0 2
        ↔ 0 = 0 ∧ (0 = 0 ∨ 2 = 1)) :=
  manyFiles_iff (fun l => List.mergeSort_perm l _) rfl
    (by decide) (by decide) (by decide) (by decide) (by decide) fun jstep _ => Nat.zero_le jstep

/-- One text slice, of which one column should go to the dense file. -/
theorem not_sameMatrix_of_skip :
    ∃ oldrows, buildOldrows [some [0], some [0, 1]] = some (2, oldrows) ∧
      ¬ SameMatrix sortByWeight [[1, 0], [1]] oldrows [[0], [0, 1]] 2 1 0 1 := by
  obtain ⟨oldrows, hbuild, hlists⟩ := lists_buildOldrows [[1, 0], [1]] [some [0], some [0, 1]]
    rfl (by decide)
  have hwidth : ∀ jstep, sliceWidth 2 1 = some jstep → 1 ≤ jstep := by
    intro jstep hjstep
    obtain rfl : 2 = jstep := Option.some.inj hjstep
    decide
  refine ⟨oldrows, hbuild, fun hsame => ?_⟩
  have hiff := sameMatrix_iff sortByWeight (fun l => List.mergeSort_perm l _) (by decide) hlists
    (by decide) (show 0 ≤ 1 by decide) le_rfl hwidth
  exact absurd (hiff.mp hsame).1 (by decide)

end ManyFiles

end CadoNfs.Replay
