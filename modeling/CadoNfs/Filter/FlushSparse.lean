import Mathlib.Data.Int.ConditionallyCompleteOrder
import CadoNfs.Filter.Replay
import CadoNfs.Macros

/-!
# Writing the small matrix

`flushSparse` writes the matrix in two parts, the columns below `skip` to a dense
file and the others to a sparse file, with the weights of the rows and columns of each part in
files of their own.

Main results:

- Theorem `flushRow_spec`: what one row adds to the files.
- Theorem `flushSparse_aligned`: when all files agree with the matrix.
-/

namespace CadoNfs.Replay

open Digits
open List (append_assoc countP_cons count_append flatMap_cons flatMap_map forall_mem_cons length
  length_map length_range map_cons map_map mem_cons_of_mem mem_map mem_range nil_append range
  range' singleton_append sum sum_cons)

/-! ## The writer -/

/-- The bytes of a text. -/
def ascii (text : List Char) : List UInt8 :=
  text.map fun c => UInt8.ofNat c.toNat

/-- `fwrite32_little` of one word. -/
def fwrite32Little (x : ℕ) : List UInt8 :=
  [UInt8.ofNat x, UInt8.ofNat (x / 2 ^ 8), UInt8.ofNat (x / 2 ^ 16), UInt8.ofNat (x / 2 ^ 24)]

/-- A number in front of a row. -/
def putLength (bin x : ℕ) : List UInt8 :=
  if bin = 0 then ascii (Nat.toDigits 10 x) else fwrite32Little x

/-- An entry of a row. -/
def putEntry (bin x : ℕ) : List UInt8 :=
  if bin = 0 then ascii (' ' :: Nat.toDigits 10 x) else fwrite32Little x

/-- An entry of a weight file. -/
def putWeight (bin x : ℕ) : List UInt8 :=
  if bin = 0 then ascii (Nat.toDigits 10 x ++ ['\n']) else fwrite32Little x

/-- The end of a row. -/
def putEnd (bin : ℕ) : List UInt8 :=
  if bin = 0 then ascii ['\n'] else []

/-- The first line of a text file. -/
def putHeader (bin nrows ncols : ℕ) : List UInt8 :=
  if bin = 0 then ascii (Nat.toDigits 10 nrows ++ ' ' :: (Nat.toDigits 10 ncols ++ ['\n'])) else []

/-- The files that grow row by row, the array `weights` and the number `W` of
coefficients in the sparse file. -/
structure Flush where
  smat : List UInt8
  srw : List UInt8
  dmat : List UInt8
  drw : List UInt8
  weights : ℕ → ℕ
  W : ℕ

/-- The second loop of `flushSparse` over a row, at column `j`. -/
def flushEntry (code : ℕ → ℤ) (smallNcols skip bin : ℕ) (st : Flush) (j : ℕ) : Option Flush :=
  let x := ((code j - 1) % 2 ^ 32).toNat
  if smallNcols ≤ x then none
  else
    let weights := Function.update st.weights x ((st.weights x + 1) % 2 ^ 32)
    if (x : ℤ).bmod (2 ^ 32) < skip then
      if skip = 0 then none
      else some { st with weights := weights, dmat := st.dmat ++ putEntry bin x }
    else some { st with weights := weights, smat := st.smat ++ putEntry bin (x - skip) }

/-- `flushSparse` at one row; `none` stands for `NULL`. -/
def flushRow (code : ℕ → ℤ) (smallNcols skip bin : ℕ) (st : Flush) (row : Option (List ℕ)) :
    Option Flush := do
  let st ← match row with
    | none => some { st with
        smat := st.smat ++ putLength bin 0
        dmat := if skip = 0 then st.dmat else st.dmat ++ putLength bin 0 }
    | some row =>
      let dw := row.countP fun j => code j - 1 < skip
      let sw := row.countP fun j => ¬ code j - 1 < skip
      row.foldlM (flushEntry code smallNcols skip bin) { st with
        smat := st.smat ++ putLength bin sw
        srw := st.srw ++ putWeight bin sw
        dmat := if skip = 0 then st.dmat else st.dmat ++ putLength bin dw
        drw := if skip = 0 then st.drw else st.drw ++ putWeight bin dw
        W := st.W + sw }
  return { st with
    smat := st.smat ++ putEnd bin
    dmat := if skip = 0 then st.dmat else st.dmat ++ putEnd bin }

/-- The matrix and its row and column weights. -/
structure MatrixFiles where
  mat : List UInt8
  rw : List UInt8
  cw : List UInt8

/-- What `flushSparse` leaves: without `skip` there are no dense files. -/
structure Files where
  sparse : MatrixFiles
  dense : Option MatrixFiles

/-- `flushSparse`.  A number `bin` past the two suffixes, or a `skip` past the
array of weights, has no result. -/
def flushSparse (sparsemat : ℕ → Option (List ℕ)) (smallNrows smallNcols : ℕ) (code : ℕ → ℤ)
    (skip bin : ℕ) : Option (Files × ℕ) :=
  if 1 < bin ∨ smallNcols < skip then none
  else do
    let st ← (range smallNrows).foldlM
      (fun st i => flushRow code smallNcols skip bin st (sparsemat i))
      { smat := putHeader bin smallNrows (smallNcols - skip), srw := [],
        dmat := if skip = 0 then [] else putHeader bin smallNrows skip, drw := [],
        weights := fun _ => 0, W := 0 }
    let scw := (range' skip (smallNcols - skip)).flatMap fun j => putWeight bin (st.weights j)
    let dcw := (range skip).flatMap fun j => putWeight bin (st.weights j)
    return ({
      sparse := { mat := st.smat, rw := st.srw, cw := scw }
      dense := if skip = 0 then none else some { mat := st.dmat, rw := st.drw, cw := dcw } }, st.W)

/-! ## What the files should be -/

/-- The entries of a row in the sparse file. -/
def sparseRow (code : ℕ → ℤ) (skip : ℕ) (row : List ℕ) : List ℕ :=
  (row.filter fun j => ¬ code j - 1 < skip).map fun j => (code j - 1).toNat - skip

/-- The entries of a row in the dense file. -/
def denseRow (code : ℕ → ℤ) (skip : ℕ) (row : List ℕ) : List ℕ :=
  (row.filter fun j => code j - 1 < skip).map fun j => (code j - 1).toNat

/-- A row in a matrix file. -/
def renderRow (bin : ℕ) (row : List ℕ) : List UInt8 :=
  putLength bin row.length ++ (row.flatMap (putEntry bin) ++ putEnd bin)

/-- How many entries a column has. -/
def columnWeight (rows : List (List ℕ)) (x : ℕ) : ℕ :=
  (rows.map (List.count x)).sum

/-- The files of a matrix with `ncols` columns. -/
def renderFiles (bin ncols : ℕ) (rows : List (List ℕ)) : MatrixFiles where
  mat := putHeader bin rows.length ncols ++ rows.flatMap (renderRow bin)
  rw := rows.flatMap fun row => putWeight bin row.length
  cw := (range ncols).flatMap fun x => putWeight bin (columnWeight rows x)

/-- The files are those of two matrices that together have the entries of each row, the second
one shifted by `skip`; in each the column weights and the row weights have the same
sum. -/
def Aligned (sparsemat : ℕ → Option (List ℕ)) (smallNrows smallNcols : ℕ) (code : ℕ → ℤ)
    (skip bin : ℕ) (files : Files) : Prop :=
  ∃ drows srows : List (List ℕ), drows.length = smallNrows ∧ srows.length = smallNrows ∧
    (∀ i < smallNrows, (drows.getD i [] ++ (srows.getD i []).map (· + skip)).Perm
      (((sparsemat i).getD []).map fun j => (code j - 1).toNat)) ∧
    (∀ row ∈ drows, ∀ x ∈ row, x < skip) ∧ (∀ row ∈ srows, ∀ x ∈ row, x < smallNcols - skip) ∧
    files.sparse = renderFiles bin (smallNcols - skip) srows ∧
    files.dense = (if skip = 0 then none else some (renderFiles bin skip drows)) ∧
    ((range skip).map (columnWeight drows)).sum = (drows.map length).sum ∧
    ((range (smallNcols - skip)).map (columnWeight srows)).sum = (srows.map length).sum

/-! ## One row -/

section FlushRow

variable {code : ℕ → ℤ} {smallNcols skip bin : ℕ} {st : Flush} {row : List ℕ}

/-- How often an output column is in a row. -/
def outputCount (code : ℕ → ℤ) (row : List ℕ) (x : ℕ) : ℕ :=
  row.countP fun j => (code j - 1).toNat = x

theorem sparseRow_cons (j : ℕ) :
    sparseRow code skip (j :: row)
      = (if code j - 1 < skip then [] else [(code j - 1).toNat - skip])
        ++ sparseRow code skip row := by
  by_cases h : code j - 1 < skip
  · rw [sparseRow, List.filter_cons_of_neg (by simpa using h), if_pos h]
    rfl
  · rw [sparseRow, List.filter_cons_of_pos (by simpa using h), if_neg h]
    rfl

theorem denseRow_cons (j : ℕ) :
    denseRow code skip (j :: row)
      = (if code j - 1 < skip then [(code j - 1).toNat] else []) ++ denseRow code skip row := by
  by_cases h : code j - 1 < skip
  · rw [denseRow, List.filter_cons_of_pos (by simpa using h), if_pos h]
    rfl
  · rw [denseRow, List.filter_cons_of_neg (by simpa using h), if_neg h]
    rfl

variable (skip bin st) in
/-- The entries of one row go out and their weights are counted. -/
theorem flushEntries_spec (hncols : smallNcols < 2 ^ 31)
    (hcode : ∀ j ∈ row, 1 ≤ code j ∧ code j ≤ smallNcols) (hst : ∀ x, st.weights x < 2 ^ 32) :
    ∃ weights, row.foldlM (flushEntry code smallNcols skip bin) st
        = some { st with
            smat := st.smat ++ (sparseRow code skip row).flatMap (putEntry bin)
            dmat := st.dmat ++ (denseRow code skip row).flatMap (putEntry bin)
            weights := weights } ∧
      ∀ x, weights x = (st.weights x + outputCount code row x) % 2 ^ 32 := by
  induction row generalizing st with
  | nil =>
    exact ⟨st.weights, by simp [sparseRow, denseRow], fun x => (Nat.mod_eq_of_lt (hst x)).symm⟩
  | cons j row ih =>
    obtain ⟨⟨hpos, hle⟩, hcode⟩ := forall_mem_cons.mp hcode
    have hx : ((code j - 1) % 2 ^ 32).toNat = (code j - 1).toNat := by
      rw [Int.emod_eq_of_lt (by omega) (by omega)]
    have hint : (((code j - 1).toNat : ℕ) : ℤ).bmod (2 ^ 32) = code j - 1 := by
      rw [Int.bmod_eq_of_le (by omega) (by omega)]
      omega
    set weights₁ := Function.update st.weights (code j - 1).toNat
      ((st.weights (code j - 1).toNat + 1) % 2 ^ 32) with hweights₁
    have hst₁ : ∀ x, weights₁ x < 2 ^ 32 := by
      intro x
      rw [hweights₁, Function.update_apply]
      split_ifs
      · exact Nat.mod_lt _ (by decide)
      · exact hst x
    have hcount : ∀ x, (weights₁ x + outputCount code row x) % 2 ^ 32
        = (st.weights x + outputCount code (j :: row) x) % 2 ^ 32 := by
      intro x
      rw [hweights₁, Function.update_apply, outputCount, outputCount, countP_cons]
      by_cases h : x = (code j - 1).toNat
      · simp only [h, decide_true, if_true]
        omega
      · rw [if_neg h]
        simp only [Ne.symm h, decide_false, Bool.false_eq_true, if_false, add_zero]
    have hstep : flushEntry code smallNcols skip bin st j
        = if code j - 1 < skip then
            some { st with weights := weights₁, dmat := st.dmat ++ putEntry bin (code j - 1).toNat }
          else some { st with
            weights := weights₁
            smat := st.smat ++ putEntry bin ((code j - 1).toNat - skip) } := by
      simp only [flushEntry, hx, hint, ← hweights₁]
      rw [if_neg (by omega)]
      by_cases hlt : code j - 1 < skip
      · rw [if_pos hlt, if_neg (by omega), if_pos hlt]
      · rw [if_neg hlt, if_neg hlt]
    rw [List.foldlM_cons, hstep]
    by_cases hlt : code j - 1 < skip
    · obtain ⟨weights, hrun, hweights⟩ := @ih { st with
        weights := weights₁, dmat := st.dmat ++ putEntry bin (code j - 1).toNat } hcode hst₁
      refine ⟨weights, ?_, fun x => (hweights x).trans (hcount x)⟩
      rw [if_pos hlt, some_bind, hrun]
      simp [sparseRow_cons, denseRow_cons, hlt]
    · obtain ⟨weights, hrun, hweights⟩ := @ih { st with
        weights := weights₁, smat := st.smat ++ putEntry bin ((code j - 1).toNat - skip) } hcode hst₁
      refine ⟨weights, ?_, fun x => (hweights x).trans (hcount x)⟩
      rw [if_neg hlt, some_bind, hrun]
      simp [sparseRow_cons, denseRow_cons, hlt]

/-- The entries of a row weight file for one row; `NULL` has none. -/
def weightEntry (bin : ℕ) (part : List ℕ → List ℕ) (row : Option (List ℕ)) : List UInt8 :=
  match row with
  | none => []
  | some row => putWeight bin (part row).length

/-- What one row adds to the files. -/
theorem flushRow_spec {row : Option (List ℕ)} (hncols : smallNcols < 2 ^ 31)
    (hcode : ∀ j ∈ row.getD [], 1 ≤ code j ∧ code j ≤ smallNcols)
    (hst : ∀ x, st.weights x < 2 ^ 32) :
    ∃ st', flushRow code smallNcols skip bin st row = some st' ∧
      st'.smat = st.smat ++ renderRow bin (sparseRow code skip (row.getD [])) ∧
      st'.srw = st.srw ++ weightEntry bin (sparseRow code skip) row ∧
      (skip ≠ 0 → st'.dmat = st.dmat ++ renderRow bin (denseRow code skip (row.getD [])) ∧
        st'.drw = st.drw ++ weightEntry bin (denseRow code skip) row) ∧
      ∀ x, st'.weights x = (st.weights x + outputCount code (row.getD []) x) % 2 ^ 32 := by
  cases row with
  | none =>
    refine ⟨_, rfl, ?_, ?_, fun hskip => ⟨?_, ?_⟩, fun x => (Nat.mod_eq_of_lt (hst x)).symm⟩ <;>
      simp [renderRow, sparseRow, denseRow, weightEntry, *]
  | some row =>
    rw [Option.getD_some] at hcode ⊢
    have hsw : (sparseRow code skip row).length = row.countP fun j => ¬ code j - 1 < skip := by
      rw [sparseRow, length_map, List.countP_eq_length_filter]
    have hdw : (denseRow code skip row).length = row.countP fun j => code j - 1 < skip := by
      rw [denseRow, length_map, List.countP_eq_length_filter]
    obtain ⟨weights, hrun, hweights⟩ := flushEntries_spec skip bin { st with
        smat := st.smat ++ putLength bin (row.countP fun j => ¬ code j - 1 < skip)
        srw := st.srw ++ putWeight bin (row.countP fun j => ¬ code j - 1 < skip)
        dmat := if skip = 0 then st.dmat
          else st.dmat ++ putLength bin (row.countP fun j => code j - 1 < skip)
        drw := if skip = 0 then st.drw
          else st.drw ++ putWeight bin (row.countP fun j => code j - 1 < skip)
        W := st.W + row.countP fun j => ¬ code j - 1 < skip } hncols hcode hst
    refine ⟨_, by rw [flushRow]; simp only [hrun, some_bind]; rfl,
      ?_, ?_, fun hskip => ⟨?_, ?_⟩, hweights⟩
    · simp [renderRow, hsw]
    · simp [weightEntry, hsw]
    · simp [hskip, renderRow, hdw]
    · simp [hskip, weightEntry, hdw]

end FlushRow

/-! ## All rows -/

section FlushSparse

variable {sparsemat : ℕ → Option (List ℕ)} {smallNrows smallNcols skip bin : ℕ} {code : ℕ → ℤ}

/-- Row `i`; `NULL` means empty. -/
def rowAt (sparsemat : ℕ → Option (List ℕ)) (i : ℕ) : List ℕ :=
  (sparsemat i).getD []

theorem flushRows_spec {L : List ℕ} (st : Flush) (hncols : smallNcols < 2 ^ 31)
    (hcode : ∀ i ∈ L, ∀ j ∈ rowAt sparsemat i, 1 ≤ code j ∧ code j ≤ smallNcols)
    (hst : ∀ x, st.weights x < 2 ^ 32) :
    ∃ st', L.foldlM (fun st i => flushRow code smallNcols skip bin st (sparsemat i)) st
        = some st' ∧
      st'.smat = st.smat ++ L.flatMap
        (fun i => renderRow bin (sparseRow code skip (rowAt sparsemat i))) ∧
      st'.srw = st.srw ++ L.flatMap
        (fun i => weightEntry bin (sparseRow code skip) (sparsemat i)) ∧
      (skip ≠ 0 → st'.dmat = st.dmat ++ L.flatMap
          (fun i => renderRow bin (denseRow code skip (rowAt sparsemat i))) ∧
        st'.drw = st.drw ++ L.flatMap
          (fun i => weightEntry bin (denseRow code skip) (sparsemat i))) ∧
      ∀ x, st'.weights x
        = (st.weights x + (L.map fun i => outputCount code (rowAt sparsemat i) x).sum) % 2 ^ 32 := by
  induction L generalizing st with
  | nil => exact ⟨st, rfl, by simp, by simp, by simp, fun x => (Nat.mod_eq_of_lt (hst x)).symm⟩
  | cons i L ih =>
    obtain ⟨hi, hcode⟩ := forall_mem_cons.mp hcode
    obtain ⟨st₁, hrun₁, hsmat₁, hsrw₁, hdense₁, hweights₁⟩ :=
      flushRow_spec hncols hi hst
    obtain ⟨st', hrun, hsmat, hsrw, hdense, hweights⟩ :=
      ih _ hcode fun x => by rw [hweights₁]; exact Nat.mod_lt _ (by decide)
    refine ⟨st', by rw [List.foldlM_cons, hrun₁]; exact hrun, ?_, ?_, fun hskip => ⟨?_, ?_⟩,
      fun x => ?_⟩
    · rw [hsmat, hsmat₁, flatMap_cons, append_assoc, ← rowAt]
    · rw [hsrw, hsrw₁, flatMap_cons, append_assoc]
    · rw [(hdense hskip).1, (hdense₁ hskip).1, flatMap_cons, append_assoc, ← rowAt]
    · rw [(hdense hskip).2, (hdense₁ hskip).2, flatMap_cons, append_assoc]
    · rw [hweights, hweights₁, Nat.mod_add_mod, map_cons, sum_cons, add_assoc, ← rowAt]

variable {row : List ℕ}

theorem count_sparseRow (hcode : ∀ j ∈ row, 1 ≤ code j) (x : ℕ) :
    (sparseRow code skip row).count x = outputCount code row (x + skip) := by
  induction row with
  | nil => rfl
  | cons j row ih =>
    obtain ⟨hj, hcode⟩ := forall_mem_cons.mp hcode
    rw [sparseRow_cons, count_append, ih hcode, outputCount, outputCount, countP_cons, add_comm]
    congr 1
    by_cases h : code j - 1 < skip
    · rw [if_pos h, List.count_nil, if_neg (by simp only [decide_eq_true_eq]; omega)]
    · rw [if_neg h, List.count_singleton]
      congr 1
      rw [beq_iff_eq, decide_eq_true_eq]
      exact propext ⟨fun h' => by omega, fun h' => by omega⟩

theorem count_denseRow (hcode : ∀ j ∈ row, 1 ≤ code j) {x : ℕ} (hx : x < skip) :
    (denseRow code skip row).count x = outputCount code row x := by
  induction row with
  | nil => rfl
  | cons j row ih =>
    obtain ⟨hj, hcode⟩ := forall_mem_cons.mp hcode
    rw [denseRow_cons, count_append, ih hcode, outputCount, outputCount, countP_cons, add_comm]
    congr 1
    by_cases h : code j - 1 < skip
    · rw [if_pos h, List.count_singleton]
      simp
    · rw [if_neg h, List.count_nil, if_neg (by simp only [decide_eq_true_eq]; omega)]

theorem outputCount_le_one (hnodup : row.Nodup)
    (hinj : ∀ j ∈ row, ∀ k ∈ row, code j = code k → j = k) (hcode : ∀ j ∈ row, 1 ≤ code j)
    (x : ℕ) : outputCount code row x ≤ 1 := by
  induction row with
  | nil => exact Nat.zero_le 1
  | cons j row ih =>
    obtain ⟨hj, hnodup⟩ := List.nodup_cons.mp hnodup
    have ih := ih hnodup (fun k hk l hl => hinj k (mem_cons_of_mem j hk) l
      (mem_cons_of_mem j hl)) fun k hk => hcode k (mem_cons_of_mem j hk)
    rw [outputCount, countP_cons]
    split_ifs with h
    · have hzero : row.countP (fun j => (code j - 1).toNat = x) = 0 := by
        refine List.countP_eq_zero.mpr fun k hk => ?_
        simp only [decide_eq_true_eq] at h ⊢
        intro hkx
        have hjpos := hcode j List.mem_cons_self
        have hkpos := hcode k (mem_cons_of_mem j hk)
        have heq := hinj j List.mem_cons_self k (mem_cons_of_mem j hk) (by omega)
        exact hj (heq ▸ hk)
      omega
    · exact ih

theorem sum_count_range {n : ℕ} {row : List ℕ} (hrow : ∀ x ∈ row, x < n) :
    ((range n).map fun x => row.count x).sum = row.length := by
  have hsum := sum_range_count_mul (fun _ => 1) hrow
  simp only [mul_one, List.map_const', List.sum_replicate_nat] at hsum
  exact hsum

theorem sum_columnWeight {n : ℕ} {rows : List (List ℕ)} (hrows : ∀ row ∈ rows, ∀ x ∈ row, x < n) :
    ((range n).map (columnWeight rows)).sum = (rows.map length).sum := by
  induction rows with
  | nil => simp [show columnWeight [] = fun _ => 0 from rfl]
  | cons row rows ih =>
    obtain ⟨hrow, hrows⟩ := forall_mem_cons.mp hrows
    rw [map_cons, sum_cons, ← ih hrows, ← sum_count_range hrow, ← List.sum_map_add]
    rfl

/-- A weight file has one entry for each weight: in a text file each ends with a newline, in a
binary file each has four bytes. -/
def entryCount (bin : ℕ) (file : List UInt8) : ℕ :=
  if bin = 0 then 4 * file.count 10 else file.length

theorem entryCount_append (bin : ℕ) (file file' : List UInt8) :
    entryCount bin (file ++ file') = entryCount bin file + entryCount bin file' := by
  rw [entryCount, entryCount, entryCount]
  split_ifs
  · rw [count_append, mul_add]
  · rw [List.length_append]

theorem entryCount_putWeight (bin x : ℕ) : entryCount bin (putWeight bin x) = 4 := by
  rw [entryCount, putWeight]
  split_ifs with h
  · have hdigits : (ascii (Nat.toDigits 10 x)).count 10 = 0 := by
      refine List.count_eq_zero.mpr fun hmem => ?_
      obtain ⟨c, hc, heq⟩ := mem_map.mp hmem
      obtain ⟨d, hd, rfl⟩ := mem_toDigits (by decide) hc
      interval_cases d <;> exact absurd heq (by decide)
    rw [ascii, List.map_append, count_append, ← ascii, hdigits]
    rfl
  · rfl

theorem entryCount_flatMap {α : Type} {bin : ℕ} {f : α → List UInt8} {g : α → ℕ}
    (h : ∀ a, entryCount bin (f a) = g a) (L : List α) :
    entryCount bin (L.flatMap f) = (L.map g).sum := by
  induction L with
  | nil => simp [entryCount]
  | cons a L ih => rw [flatMap_cons, entryCount_append, h, ih, map_cons, sum_cons]

theorem entryCount_weightEntry (bin : ℕ) (part : List ℕ → List ℕ) (row : Option (List ℕ)) :
    entryCount bin (weightEntry bin part row) = if row = none then 0 else 4 := by
  cases row with
  | none => simp [weightEntry, entryCount]
  | some row => simp [weightEntry, entryCount_putWeight]

/-- The columns that occur. -/
def occurring (sparsemat : ℕ → Option (List ℕ)) (smallNrows : ℕ) : Set ℕ :=
  {j | ∃ i < smallNrows, j ∈ rowAt sparsemat i}

variable (skip) in
theorem parts_perm (hcode : ∀ j ∈ row, 1 ≤ code j) :
    (denseRow code skip row ++ (sparseRow code skip row).map (· + skip)).Perm
      (row.map fun j => (code j - 1).toNat) := by
  induction row with
  | nil => exact List.Perm.refl []
  | cons j row ih =>
    obtain ⟨hj, hcode⟩ := forall_mem_cons.mp hcode
    rw [denseRow_cons, sparseRow_cons, map_cons]
    by_cases h : code j - 1 < skip
    · rw [if_pos h, if_pos h, nil_append, singleton_append, List.cons_append]
      exact (ih hcode).cons _
    · have hshift : (code j - 1).toNat - skip + skip = (code j - 1).toNat := by omega
      rw [if_neg h, if_neg h, nil_append, singleton_append, map_cons, hshift]
      exact List.perm_middle.trans ((ih hcode).cons _)

/-- The files of one part of the matrix, with no entry in `rw` for `NULL`. -/
def flushedFiles (bin ncols : ℕ) (part : List ℕ → List ℕ) (sparsemat : ℕ → Option (List ℕ))
    (smallNrows : ℕ) : MatrixFiles where
  mat := putHeader bin smallNrows ncols
    ++ (range smallNrows).flatMap fun i => renderRow bin (part (rowAt sparsemat i))
  rw := (range smallNrows).flatMap fun i => weightEntry bin part (sparsemat i)
  cw := (range ncols).flatMap fun x => putWeight bin
    (columnWeight ((range smallNrows).map fun i => part (rowAt sparsemat i)) x)

theorem sum_outputCount_le (hnodup : ∀ i < smallNrows, (rowAt sparsemat i).Nodup)
    (hcode : Set.BijOn code (occurring sparsemat smallNrows) (Set.Icc 1 smallNcols)) (x : ℕ) :
    ((range smallNrows).map fun i => outputCount code (rowAt sparsemat i) x).sum
      ≤ smallNrows := by
  have hone : ∀ i ∈ range smallNrows, outputCount code (rowAt sparsemat i) x ≤ 1 := by
    intro i hi
    have hi := mem_range.mp hi
    exact outputCount_le_one (hnodup i hi)
      (fun j hj k hk => hcode.injOn ⟨i, hi, hj⟩ ⟨i, hi, hk⟩)
      (fun j hj => (hcode.mapsTo ⟨i, hi, hj⟩).1) x
  have hsum := List.sum_le_card_nsmul ((range smallNrows).map fun i =>
    outputCount code (rowAt sparsemat i) x) 1 fun c hc => by
      obtain ⟨i, hi, rfl⟩ := mem_map.mp hc
      exact hone i hi
  simpa using hsum

variable (sparsemat smallNrows smallNcols skip bin code) in
/-- What is written, and the weights that are counted. -/
theorem flushSparse_eq (hbin : bin ≤ 1) (hskip : skip ≤ smallNcols)
    (hnrows : smallNrows < 2 ^ 31) (hncols : smallNcols < 2 ^ 31)
    (hnodup : ∀ i < smallNrows, (rowAt sparsemat i).Nodup)
    (hcode : Set.BijOn code (occurring sparsemat smallNrows) (Set.Icc 1 smallNcols)) :
    ∃ W, flushSparse sparsemat smallNrows smallNcols code skip bin = some ({
      sparse := flushedFiles bin (smallNcols - skip) (sparseRow code skip) sparsemat smallNrows
      dense := if skip = 0 then none else
        some (flushedFiles bin skip (denseRow code skip) sparsemat smallNrows) }, W) := by
  have hrange : ∀ i ∈ range smallNrows, ∀ j ∈ rowAt sparsemat i,
      1 ≤ code j ∧ code j ≤ smallNcols := fun i hi j hj =>
    hcode.mapsTo ⟨i, mem_range.mp hi, hj⟩
  obtain ⟨st, hrun, hsmat, hsrw, hdense, hweights⟩ :=
    flushRows_spec {
      smat := putHeader bin smallNrows (smallNcols - skip)
      srw := []
      dmat := if skip = 0 then [] else putHeader bin smallNrows skip
      drw := []
      weights := fun _ => 0
      W := 0 } hncols hrange fun x => by simp
  have hweight : ∀ x, st.weights x
      = ((range smallNrows).map fun i => outputCount code (rowAt sparsemat i) x).sum := by
    intro x
    have hle := sum_outputCount_le hnodup hcode x
    rw [hweights, zero_add, Nat.mod_eq_of_lt (by omega)]
  have hsparse : ∀ x, st.weights (skip + x) = columnWeight
      ((range smallNrows).map fun i => sparseRow code skip (rowAt sparsemat i)) x := by
    intro x
    rw [hweight, columnWeight, map_map]
    refine congrArg sum (List.map_congr_left fun i hi => ?_)
    rw [Function.comp_apply, count_sparseRow (fun j hj => (hrange i hi j hj).1), add_comm]
  have hdenseWeight : ∀ x < skip, st.weights x = columnWeight
      ((range smallNrows).map fun i => denseRow code skip (rowAt sparsemat i)) x := by
    intro x hx
    rw [hweight, columnWeight, map_map]
    refine congrArg sum (List.map_congr_left fun i hi => ?_)
    rw [Function.comp_apply, count_denseRow (fun j hj => (hrange i hi j hj).1) hx]
  refine ⟨st.W, ?_⟩
  rw [flushSparse, if_neg (by omega), hrun]
  have hscw : (range' skip (smallNcols - skip)).flatMap
        (fun j => putWeight bin (st.weights j))
      = (flushedFiles bin (smallNcols - skip) (sparseRow code skip) sparsemat smallNrows).cw := by
    rw [List.range'_eq_map_range, flatMap_map]
    simp [hsparse, flushedFiles]
  have hdcw : (range skip).flatMap (fun j => putWeight bin (st.weights j))
      = (flushedFiles bin skip (denseRow code skip) sparsemat smallNrows).cw :=
    List.flatMap_congr fun x hx => by rw [hdenseWeight x (mem_range.mp hx)]
  simp only [some_bind, hscw, hdcw, hsmat, hsrw, nil_append]
  by_cases hskip : skip = 0
  · simp only [hskip, if_true]
    rfl
  · simp only [hskip, if_false, (hdense hskip).1, (hdense hskip).2, nil_append]
    rfl

section

variable {ncols : ℕ} {part : List ℕ → List ℕ}

theorem flushedFiles_eq (hall : ∀ i < smallNrows, sparsemat i ≠ none) :
    flushedFiles bin ncols part sparsemat smallNrows
      = renderFiles bin ncols ((range smallNrows).map fun i => part (rowAt sparsemat i)) := by
  rw [flushedFiles, renderFiles, length_map, length_range, flatMap_map, flatMap_map]
  congr 1
  refine List.flatMap_congr fun i hi => ?_
  obtain ⟨row, hrow⟩ := Option.ne_none_iff_exists'.mp (hall i (mem_range.mp hi))
  simp [weightEntry, rowAt, hrow]

theorem ne_none_of_flushedFiles_eq {rows : List (List ℕ)} (hlength : rows.length = smallNrows)
    (heq : flushedFiles bin ncols part sparsemat smallNrows = renderFiles bin ncols rows) :
    ∀ i < smallNrows, sparsemat i ≠ none := by
  have hentries := congrArg (fun files => entryCount bin files.rw) heq
  simp only [flushedFiles, renderFiles] at hentries
  rw [entryCount_flatMap fun i => entryCount_weightEntry bin part (sparsemat i),
    entryCount_flatMap fun row : List ℕ => entryCount_putWeight bin row.length] at hentries
  intro i hi hnull
  have hlt : ((range smallNrows).map fun i => if sparsemat i = none then 0 else 4).sum
      < ((range smallNrows).map fun _ => 4).sum := by
    refine List.sum_lt_sum _ _ (fun k _ => ?_) ⟨i, mem_range.mpr hi, by simp [hnull]⟩
    split_ifs <;> omega
  simp [hlength] at hentries hlt
  omega

end

/-- For distinct columns in each row and a numbering of the occurring columns from 1 on, the
files agree with the matrix exactly if no row is `NULL`. -/
theorem flushSparse_aligned (hbin : bin ≤ 1) (hskip : skip ≤ smallNcols)
    (hnrows : smallNrows < 2 ^ 31) (hncols : smallNcols < 2 ^ 31)
    (hnodup : ∀ i < smallNrows, (rowAt sparsemat i).Nodup)
    (hcode : Set.BijOn code (occurring sparsemat smallNrows) (Set.Icc 1 smallNcols)) :
    (∃ files W, flushSparse sparsemat smallNrows smallNcols code skip bin = some (files, W) ∧
      Aligned sparsemat smallNrows smallNcols code skip bin files) ↔
    ∀ i < smallNrows, sparsemat i ≠ none := by
  obtain ⟨W, hflush⟩ := flushSparse_eq _ _ _ _ _ _ hbin hskip hnrows hncols hnodup hcode
  constructor
  · rintro ⟨files, W', hfiles, drows, srows, -, hlength, -, -, -, hsparse, -⟩
    obtain ⟨rfl, -⟩ := Prod.mk.inj (Option.some.inj (hflush.symm.trans hfiles))
    exact ne_none_of_flushedFiles_eq hlength hsparse
  · intro hall
    have hpos : ∀ i < smallNrows, ∀ j ∈ rowAt sparsemat i, 1 ≤ code j ∧ code j ≤ smallNcols :=
      fun i hi j hj => hcode.mapsTo ⟨i, hi, hj⟩
    have hdenseLt : ∀ row ∈ (range smallNrows).map (fun i => denseRow code skip
        (rowAt sparsemat i)), ∀ x ∈ row, x < skip := by
      intro row hrow x hx
      obtain ⟨i, hi, rfl⟩ := mem_map.mp hrow
      obtain ⟨j, hj, rfl⟩ := mem_map.mp hx
      obtain ⟨hj, hlt⟩ := List.mem_filter.mp hj
      have hrange := hpos i (mem_range.mp hi) j hj
      simp only [decide_eq_true_eq] at hlt
      omega
    have hsparseLt : ∀ row ∈ (range smallNrows).map (fun i => sparseRow code skip
        (rowAt sparsemat i)), ∀ x ∈ row, x < smallNcols - skip := by
      intro row hrow x hx
      obtain ⟨i, hi, rfl⟩ := mem_map.mp hrow
      obtain ⟨j, hj, rfl⟩ := mem_map.mp hx
      obtain ⟨hj, hlt⟩ := List.mem_filter.mp hj
      have hrange := hpos i (mem_range.mp hi) j hj
      simp only [decide_eq_true_eq] at hlt
      omega
    refine ⟨_, W, hflush, _, _, by rw [length_map, length_range],
      by rw [length_map, length_range], fun i hi => ?_, hdenseLt, hsparseLt,
      flushedFiles_eq hall, ?_, sum_columnWeight hdenseLt, sum_columnWeight hsparseLt⟩
    · have hperm := parts_perm skip fun j hj => (hpos i hi j hj).1
      simpa [List.getD_eq_getElem?_getD, hi, rowAt] using hperm
    · simp [flushedFiles_eq hall]

/-- Two rows over the columns 0 and 2, which are numbered by decreasing weight. -/
def twoRows (i : ℕ) : Option (List ℕ) :=
  if i = 0 then some [0, 2] else some [2]

/-- Column 2 comes first. -/
def twoCodes (j : ℕ) : ℤ :=
  if j = 2 then 1 else 2

theorem bijOn_twoCodes : Set.BijOn twoCodes (occurring twoRows 2) (Set.Icc 1 (2 : ℕ)) := by
  have hoccurring : occurring twoRows 2 = {0, 2} := by
    ext j
    simp only [occurring, rowAt, twoRows, Set.mem_ofPred_eq, Set.mem_insert_iff,
      Set.mem_singleton_iff]
    constructor
    · rintro ⟨i, hi, hj⟩
      split_ifs at hj <;> simp at hj <;> omega
    · rintro (rfl | rfl)
      · exact ⟨0, by decide, by simp⟩
      · exact ⟨0, by decide, by simp⟩
  rw [hoccurring]
  refine ⟨?_, ?_, ?_⟩
  · rintro j (rfl | rfl) <;> decide
  · rintro j (rfl | rfl) k (rfl | rfl) h <;> simp_all [twoCodes]
  · rintro x ⟨hle, hge⟩
    rcases (show x = 1 ∨ x = 2 by push_cast at hge; omega) with rfl | rfl
    · exact ⟨2, by simp, rfl⟩
    · exact ⟨0, by simp, rfl⟩

/-- Their files agree with the matrix. -/
theorem flushSparse_aligned_two :
    ∃ files W, flushSparse twoRows 2 2 twoCodes 1 0 = some (files, W) ∧
      Aligned twoRows 2 2 twoCodes 1 0 files :=
  (flushSparse_aligned (by decide) (by decide) (by decide) (by decide) (by decide)
    bijOn_twoCodes).mpr (by decide)

/-- A row with one column, and a row that is `NULL`. -/
def nullRow (i : ℕ) : Option (List ℕ) :=
  if i = 0 then some [0] else none

/-- Its files do not agree with the matrix, for the lack of a row weight. -/
theorem not_aligned_of_null :
    ¬ ∃ files W, flushSparse nullRow 2 1 (fun _ => 1) 0 0 = some (files, W) ∧
      Aligned nullRow 2 1 (fun _ => 1) 0 0 files := by
  rintro ⟨files, W, hfiles, drows, srows, -, hlength, -, -, -, hsparse, -⟩
  have hoccurring : occurring nullRow 2 = {0} := by
    ext j
    simp only [occurring, rowAt, nullRow, Set.mem_ofPred_eq, Set.mem_singleton_iff]
    constructor
    · rintro ⟨i, hi, hj⟩
      split_ifs at hj <;> simp at hj
      exact hj
    · rintro rfl
      exact ⟨0, by decide, by simp⟩
  obtain ⟨W', hflush⟩ := flushSparse_eq nullRow 2 1 0 0 (fun _ => 1) (by decide) (by decide)
    (by decide) (by decide) (by decide) (by
      rw [hoccurring]
      refine ⟨fun j _ => by simp, fun j hj k hk _ => ?_, fun x hx => ⟨0, rfl, ?_⟩⟩
      · rw [Set.mem_singleton_iff.mp hj, Set.mem_singleton_iff.mp hk]
      · simp only [Set.mem_Icc, Nat.cast_one] at hx
        exact le_antisymm hx.1 hx.2)
  obtain ⟨rfl, -⟩ := Prod.mk.inj (Option.some.inj (hflush.symm.trans hfiles))
  exact ne_none_of_flushedFiles_eq hlength hsparse 1 (by decide) rfl

end FlushSparse

end CadoNfs.Replay
