import CadoNfs.Lib.Digits
import CadoNfs.Lib.SortedXor
import Mathlib.Algebra.BigOperators.Group.Finset.Basic
import Mathlib.Algebra.Order.BigOperators.Group.List

/-!
# Building the small matrix

`replay` knows for each new row the old rows that add up to it.  It turns this into the
list of new rows that use an old row, then reads the purged matrix once and adds each row to
all new rows that use it.

Main results:

- Theorem `addrel_spec`: what one addition does to a row and to the column weights.
- Theorem `foldl_addrelCall`: what a run of additions does.
- Theorem `makeSparse_spec`: the rows that `makeSparse` leaves.
- Theorem `replay_correct`: they are the sums, also through the index file.
-/

namespace CadoNfs.Replay

open Function (update update_apply update_of_ne)
open Digits SortedXor
open Nat (digitChar toDigits)
open List (append_assoc cons_append count_cons flatMap_cons foldlM_cons foldl_cons forall_mem_cons
  length_append length_cons map_cons mem_map range replicate sum_cons zipIdx_cons)
open Option (bind_eq_bind bind_some)

/-! ## The matrix -/

/-- `sparsemat`, with `none` for `NULL`, and `colweight`. -/
structure SparseMat where
  sparsemat : ℕ → Option (List ℕ)
  colweight : ℕ → ℤ

/-- A row; `NULL` means empty. -/
def SparseMat.row (mat : SparseMat) (i : ℕ) : List ℕ :=
  (mat.sparsemat i).getD []

/-- The matrix when no row is there yet. -/
def emptyMat (colweight : ℕ → ℤ) : SparseMat where
  sparsemat _ := none
  colweight := colweight

/-- `removeWeight`. -/
def removeWeight (row : List ℕ) (wt : ℕ → ℤ) : ℕ → ℤ :=
  row.foldl (fun wt j => update wt j (wt j - 1)) wt

/-- A loop `colweight[row[k]]++`. -/
def addWeight (row : List ℕ) (wt : ℕ → ℤ) : ℕ → ℤ :=
  row.foldl (fun wt j => update wt j (wt j + 1)) wt

/-- The three loops of `addrel` that merge `rowi` and `buf` into
`tmp`. -/
def mergeBuf : List ℕ → List ℕ → (ℕ → ℤ) → List ℕ × (ℕ → ℤ)
  | [], buf, colweight => (buf, addWeight buf colweight)
  | r :: rowi, [], colweight => (r :: rowi, addWeight (r :: rowi) colweight)
  | r :: rowi, b :: buf, colweight =>
    if r < b then
      let (tmp, colweight) :=
        mergeBuf rowi (b :: buf) (update colweight r (colweight r + 1))
      (r :: tmp, colweight)
    else if r > b then
      let (tmp, colweight) :=
        mergeBuf (r :: rowi) buf (update colweight b (colweight b + 1))
      (b :: tmp, colweight)
    else mergeBuf rowi buf colweight
termination_by rowi buf => rowi.length + buf.length

/-- `addrel`. -/
def addrel (mat : SparseMat) (buf : List ℕ) (i : ℕ) : SparseMat :=
  match mat.sparsemat i with
  | none =>
    { sparsemat := update mat.sparsemat i (some buf)
      colweight := addWeight buf mat.colweight }
  | some rowi =>
    let (tmp, colweight) := mergeBuf rowi buf (removeWeight rowi mat.colweight)
    { sparsemat := update mat.sparsemat i (some tmp)
      colweight := colweight }

/-- The primes of a relation within the requested interval, in the order of
`qsort`. -/
def interval (jmin jmax : ℕ) (cols : List ℕ) : List ℕ :=
  (cols.filter fun j => jmin ≤ j ∧ j < jmax).mergeSort (· ≤ ·)

/-- `makeSparse` at relation `i` of the purged file, given as the list of its
columns.  The list `oldrows[i]` is only read if there is something to add. -/
def makeSparseStep (jmin jmax nslices : ℕ) (state : SparseMat × (ℕ → Option (List ℕ)))
    (rel : List ℕ × ℕ) : Option (SparseMat × (ℕ → Option (List ℕ))) := do
  let (mat, oldrows) := state
  let (cols, i) := rel
  let buf := interval jmin jmax cols
  let mat ← if 0 < buf.length then
      (oldrows i).map fun old => old.foldl (fun mat nb => addrel mat buf nb) mat
    else some mat
  return (mat, if nslices = 0 then update oldrows i none else oldrows)

/-- `makeSparse`. -/
def makeSparse (jmin jmax nslices : ℕ) (purged : List (List ℕ)) (mat : SparseMat)
    (oldrows : ℕ → Option (List ℕ)) : Option (SparseMat × (ℕ → Option (List ℕ))) :=
  purged.zipIdx.foldlM (makeSparseStep jmin jmax nslices) (mat, oldrows)

/-! ## The lists of new rows -/

/-- The loop over `newrows` that counts: `nbrels` and `small_nrows`.  An index
past the end has no result. -/
def countRels (nrows : ℕ) : List (Option (List ℕ)) → (ℕ → ℕ) → ℕ → Option ((ℕ → ℕ) × ℕ)
  | [], nbrels, small => some (nbrels, small)
  | none :: newrows, nbrels, small => countRels nrows newrows nbrels small
  | some row :: newrows, nbrels, small => do
    let nbrels ← row.foldlM (fun nbrels ind =>
      if ind < nrows then some (update nbrels ind (nbrels ind + 1)) else none) nbrels
    countRels nrows newrows nbrels (small + 1)

/-- The loop over `newrows` that fills `oldrows`, with room for `nbrels[i]`
entries in `oldrows[i]`. -/
def fillOldrows (nbrels : ℕ → ℕ) : List (Option (List ℕ)) → ℕ → (ℕ → List ℕ) →
    Option (ℕ → List ℕ)
  | [], _, oldrows => some oldrows
  | none :: newrows, nb, oldrows => fillOldrows nbrels newrows nb oldrows
  | some row :: newrows, nb, oldrows => do
    let oldrows ← row.foldlM (fun oldrows ind =>
      if (oldrows ind).length < nbrels ind then
        some (update oldrows ind (oldrows ind ++ [nb]))
      else none) oldrows
    fillOldrows nbrels newrows (nb + 1) oldrows

/-- The part of `main` that makes `small_nrows` and `oldrows`. -/
def buildOldrows (newrows : List (Option (List ℕ))) : Option (ℕ × (ℕ → Option (List ℕ))) := do
  let (nbrels, small) ← countRels newrows.length newrows (fun _ => 0) 0
  let oldrows ← fillOldrows nbrels newrows 0 fun _ => []
  return (small, fun i => if i < newrows.length then some (oldrows i) else none)

/-- The part of `main` up to the matrix of `oneFile`, before its columns are
renumbered. -/
def replayMat (purged : List (List ℕ)) (ncols : ℕ) (newrows : List (Option (List ℕ))) :
    Option SparseMat := do
  let (_, oldrows) ← buildOldrows newrows
  let (mat, _) ← makeSparse 0 ncols 0 purged (emptyMat fun _ => 0) oldrows
  return mat

/-! ## The index file -/

/-- `makeIndexFile`. -/
def makeIndexFile (newrows : List (Option (List ℕ))) (smallNrows smallNcols : ℕ) : List Char :=
  toDigits 10 smallNrows ++ ' ' :: (toDigits 10 smallNcols ++ '\n' ::
    newrows.flatMap fun row =>
      match row with
      | none => []
      | some row =>
        toDigits 10 row.length ++ ((row.flatMap fun i => ' ' :: toDigits 16 i) ++ ['\n']))

/-- `fscanf` with `%d` or `%x`, for numbers without sign and prefix: white space
is skipped, then there must be a digit. -/
def scanInt (b : ℕ) (text : List Char) : Option (ℕ × List Char) :=
  let text := text.dropWhile fun c => c = ' ' || c = '\n' || c = '\t' || c = '\r'
  let (n, rest) := readNumber (digitBelow b) b (2 ^ 32) 0 text
  if rest.length = text.length then none else some (n, rest)

/-- Numbers in hexadecimal. -/
def scanRow : ℕ → List Char → Option (List ℕ × List Char)
  | 0, text => some ([], text)
  | nc + 1, text => do
    let (i, text) ← scanInt 16 text
    let (row, text) ← scanRow nc text
    return (i :: row, text)

/-- The rows of the index file. -/
def scanRows : ℕ → List Char → Option (List (List ℕ))
  | 0, _ => some []
  | smallNrows + 1, text => do
    let (nc, text) ← scanInt 10 text
    let (row, text) ← scanRow nc text
    let rows ← scanRows smallNrows text
    return row :: rows

/-- `read_newrows_from_file`, which has room for `nrows` rows. -/
def readNewrowsFromFile (nrows : ℕ) (text : List Char) : Option (List (Option (List ℕ))) := do
  let (smallNrows, text) ← scanInt 10 text
  let (_, text) ← scanInt 10 text
  let rows ← scanRows smallNrows text
  if nrows < smallNrows then none
  else return rows.map some ++ replicate (nrows - smallNrows) none

/-! ## One addition -/

section Addrel

variable {mat : SparseMat} {buf rowi : List ℕ} {wt : ℕ → ℤ} {i : ℕ}

theorem update_add_apply (wt : ℕ → ℤ) (a : ℕ) (d : ℤ) (j : ℕ) :
    update wt a (wt a + d) j = wt j + if a = j then d else 0 := by
  rw [update_apply]
  by_cases h : a = j
  · rw [if_pos h.symm, if_pos h, h]
  · rw [if_neg (Ne.symm h), if_neg h, add_zero]

section

variable (row : List ℕ) (wt : ℕ → ℤ) (j : ℕ)

theorem addWeight_apply : addWeight row wt j = wt j + row.count j := by
  induction row generalizing wt with
  | nil => simp [addWeight]
  | cons a row ih =>
    rw [addWeight, foldl_cons, ← addWeight, ih, update_add_apply, count_cons]
    by_cases h : a = j <;> simp [h]
    omega

theorem removeWeight_apply : removeWeight row wt j = wt j - row.count j := by
  induction row generalizing wt with
  | nil => simp [removeWeight]
  | cons a row ih =>
    have hupdate := update_add_apply wt a (-1) j
    rw [← sub_eq_add_neg] at hupdate
    rw [removeWeight, foldl_cons, ← removeWeight, ih, hupdate, count_cons]
    by_cases h : a = j <;> simp [h]
    omega

end

theorem mergeBuf_spec :
    (mergeBuf rowi buf wt).1 = xorMerge rowi buf ∧
      ∀ j, (mergeBuf rowi buf wt).2 j = wt j + (xorMerge rowi buf).count j := by
  have hcons : ∀ (wt : ℕ → ℤ) (a : ℕ) (l : List ℕ) (j : ℕ),
      update wt a (wt a + 1) j + l.count j = wt j + ((a :: l).count j : ℕ) := by
    intro wt a l j
    rw [update_add_apply, count_cons]
    by_cases h : a = j <;> simp [h]
    omega
  fun_induction mergeBuf rowi buf wt with
  | case1 buf wt =>
    rw [xorMerge_nil_left]
    exact ⟨rfl, addWeight_apply buf wt⟩
  | case2 r rowi wt =>
    rw [xorMerge_nil_right]
    exact ⟨rfl, addWeight_apply (r :: rowi) wt⟩
  | case3 r rowi b buf wt hlt tmp wt' heq ih =>
    rw [heq] at ih
    obtain ⟨rfl, hcount⟩ := ih
    rw [xorMerge_cons_of_lt hlt]
    exact ⟨rfl, fun j => (hcount j).trans (hcons wt r _ j)⟩
  | case4 r rowi b buf wt hlt hgt tmp wt' heq ih =>
    rw [heq] at ih
    obtain ⟨rfl, hcount⟩ := ih
    rw [xorMerge_cons_of_gt hgt]
    exact ⟨rfl, fun j => (hcount j).trans (hcons wt b _ j)⟩
  | case5 r rowi b buf wt hlt hgt ih =>
    obtain rfl : r = b := by omega
    rw [xorMerge_cons_self]
    exact ih

/-- The row is replaced by the sum; the weights follow. -/
theorem addrel_spec (mat : SparseMat) (buf : List ℕ) (i : ℕ) :
    (∀ k, (addrel mat buf i).row k
        = if k = i then xorMerge (mat.row i) buf else mat.row k) ∧
      ∀ j, (addrel mat buf i).colweight j
        = mat.colweight j - (mat.row i).count j + (xorMerge (mat.row i) buf).count j := by
  cases hrow : mat.sparsemat i with
  | none =>
    have hempty : mat.row i = [] := by rw [SparseMat.row, hrow]; rfl
    simp only [hempty, xorMerge_nil_left, List.count_nil]
    constructor
    · intro k
      simp only [addrel, hrow, SparseMat.row, update_apply]
      split_ifs <;> rfl
    · intro j
      simp only [addrel, hrow, addWeight_apply]
      omega
  | some rowi =>
    have hrowi : mat.row i = rowi := by rw [SparseMat.row, hrow]; rfl
    obtain ⟨htmp, hcount⟩ :=
      mergeBuf_spec
    rw [hrowi]
    constructor
    · intro k
      simp only [addrel, hrow, SparseMat.row, update_apply]
      split_ifs
      · exact htmp
      · rfl
    · intro j
      simp [addrel, hrow, hcount, removeWeight_apply]

end Addrel

/-! ## A run of additions -/

/-- The rows are increasing, and the weights, above those at the start, count the rows that
contain a column. -/
structure Balanced (smallNrows : ℕ) (start : ℕ → ℤ) (mat : SparseMat) : Prop where
  increasing : ∀ nb, (mat.row nb).Pairwise (· < ·)
  colweight_eq : ∀ j, mat.colweight j
    = start j + ((range smallNrows).countP fun nb => j ∈ mat.row nb : ℕ)

/-- One call of `addrel`, with its buffer and its row. -/
def addrelCall (mat : SparseMat) (call : List ℕ × ℕ) : SparseMat :=
  addrel mat call.1 call.2

/-- The matrix after the first `n` of the calls. -/
def matAfter (calls : List (List ℕ × ℕ)) (n : ℕ) : SparseMat :=
  (calls.take n).foldl addrelCall (emptyMat fun _ => 0)

/-- How often a column is added to a row. -/
def additions (calls : List (List ℕ × ℕ)) (nb j : ℕ) : ℕ :=
  (calls.map fun call => if call.2 = nb then call.1.count j else 0).sum

section Run

variable {smallNrows : ℕ} {start : ℕ → ℤ} {mat : SparseMat} {calls : List (List ℕ × ℕ)}

theorem balanced_emptyMat (smallNrows : ℕ) (start : ℕ → ℤ) :
    Balanced smallNrows start (emptyMat start) where
  increasing _ := List.Pairwise.nil
  colweight_eq j := by simp [emptyMat, SparseMat.row]

theorem countP_range_update {p q : ℕ → Bool} {n i : ℕ} (hi : i < n)
    (hsame : ∀ k, k ≠ i → p k = q k) :
    (range n).countP q + (if p i then 1 else 0)
      = (range n).countP p + if q i then 1 else 0 := by
  induction n with
  | zero => omega
  | succ n ih =>
    rw [List.range_succ, List.countP_append, List.countP_append, List.countP_singleton,
      List.countP_singleton]
    by_cases hn : i = n
    · have hprefix : (range n).countP q = (range n).countP p := by
        refine List.countP_congr fun k hk => ?_
        rw [hsame k (by have := List.mem_range.mp hk; omega)]
      rw [hn, hprefix]
      omega
    · have ih := ih (by omega)
      rw [hsame n (Ne.symm hn)]
      omega

theorem Balanced.addrel (h : Balanced smallNrows start mat) {buf : List ℕ} {i : ℕ}
    (hbuf : buf.Pairwise (· < ·)) (hi : i < smallNrows) :
    Balanced smallNrows start (addrel mat buf i) := by
  obtain ⟨hrow, hweight⟩ := addrel_spec mat buf i
  have hsum := pairwise_xorMerge (h.increasing i) hbuf
  constructor
  · intro nb
    rw [hrow]
    split_ifs
    · exact hsum
    · exact h.increasing nb
  · intro j
    have hupdate := countP_range_update (p := fun nb => j ∈ mat.row nb)
      (q := fun nb => j ∈ (Replay.addrel mat buf i).row nb) hi
      (fun k hk => by rw [hrow, if_neg hk])
    rw [hweight, h.colweight_eq, count_of_pairwise (h.increasing i), count_of_pairwise hsum]
    simp only [hrow i, if_true, decide_eq_true_eq] at hupdate
    omega

variable (calls) in
/-- What a run of additions does. -/
theorem foldl_addrelCall (h : Balanced smallNrows start mat)
    (hcalls : ∀ call ∈ calls, call.1.Pairwise (· < ·) ∧ call.2 < smallNrows) :
    Balanced smallNrows start (calls.foldl addrelCall mat) ∧
      ∀ nb j, ((calls.foldl addrelCall mat).row nb).count j % 2
        = ((mat.row nb).count j + additions calls nb j) % 2 := by
  induction calls generalizing mat with
  | nil => exact ⟨h, fun nb j => by simp [additions]⟩
  | cons call calls ih =>
    obtain ⟨⟨hbuf, hlt⟩, hcalls⟩ := forall_mem_cons.mp hcalls
    obtain ⟨hbalanced, hcount⟩ := ih (h.addrel hbuf hlt) hcalls
    refine ⟨hbalanced, fun nb j => ?_⟩
    rw [foldl_cons, addrelCall, hcount, (addrel_spec mat call.1 call.2).1]
    have hadditions : additions (call :: calls) nb j
        = (if call.2 = nb then call.1.count j else 0) + additions calls nb j := by
      simp [additions]
    rw [hadditions]
    by_cases hnb : nb = call.2
    · have hxor := count_xorMerge (l := mat.row call.2) (m := call.1) j
      rw [hnb, if_pos rfl, if_pos rfl]
      omega
    · rw [if_neg hnb, if_neg (Ne.symm hnb), zero_add]

end Run

/-! ## The lists of old rows -/

/-- The new rows, without the `NULL` entries. -/
def newRelations (newrows : List (Option (List ℕ))) : List (List ℕ) :=
  newrows.filterMap id

section Oldrows

variable {nrows nb : ℕ} {nbrels : ℕ → ℕ} {oldrows : ℕ → List ℕ}
  {newrows : List (Option (List ℕ))} {row : List ℕ}

@[simp]
theorem newRelations_some : newRelations (some row :: newrows) = row :: newRelations newrows :=
  rfl

theorem countRow_spec (hrow : ∀ i ∈ row, i < nrows) :
    row.foldlM (fun nbrels ind =>
      if ind < nrows then some (update nbrels ind (nbrels ind + 1)) else none) nbrels
      = some fun i => nbrels i + row.count i := by
  induction row generalizing nbrels with
  | nil => rfl
  | cons a row ih =>
    obtain ⟨ha, hrow⟩ := forall_mem_cons.mp hrow
    rw [foldlM_cons, if_pos ha, bind_eq_bind, bind_some, ih hrow]
    congr 1
    funext i
    rw [update_apply, count_cons]
    by_cases h : i = a
    · subst h
      simp
      omega
    · simp [h, Ne.symm h]

variable (nbrels) in
theorem countRels_spec (hrows : ∀ row ∈ newRelations newrows, ∀ i ∈ row, i < nrows)
    (small : ℕ) :
    countRels nrows newrows nbrels small
      = some (fun i => nbrels i + ((newRelations newrows).map (List.count i)).sum,
          small + (newRelations newrows).length) := by
  induction newrows generalizing nbrels small with
  | nil => rfl
  | cons row newrows ih =>
    cases row with
    | none => exact ih _ hrows small
    | some row =>
      rw [newRelations_some] at hrows ⊢
      obtain ⟨hrow, hrows⟩ := forall_mem_cons.mp hrows
      rw [countRels, countRow_spec hrow, bind_eq_bind, bind_some, ih _ hrows]
      simp [add_assoc, add_comm 1]

variable (nb nbrels oldrows row) in
/-- The new row is entered in all its old rows. -/
theorem fillRow_spec (hroom : ∀ i, (oldrows i).length + row.count i ≤ nbrels i) :
    row.foldlM (fun oldrows ind =>
      if (oldrows ind).length < nbrels ind then
        some (update oldrows ind (oldrows ind ++ [nb]))
      else none) oldrows
      = some fun i => oldrows i ++ replicate (row.count i) nb := by
  induction row generalizing oldrows with
  | nil => simp
  | cons a row ih =>
    have ha := hroom a
    rw [List.count_cons_self] at ha
    have hupdate : ∀ i, update oldrows a (oldrows a ++ [nb]) i
        = oldrows i ++ if a = i then [nb] else [] := by
      intro i
      rw [update_apply]
      by_cases h : a = i
      · rw [if_pos h.symm, if_pos h, h]
      · rw [if_neg (Ne.symm h), if_neg h, List.append_nil]
    rw [foldlM_cons, if_pos (by omega), bind_eq_bind, bind_some, ih]
    · congr 1
      funext i
      rw [hupdate, count_cons, append_assoc]
      by_cases h : a = i
      · simp [h, List.replicate_succ]
      · simp [h]
    · intro i
      have hi := hroom i
      rw [hupdate, length_append]
      rw [count_cons] at hi
      by_cases h : a = i
      · simp only [h, beq_self_eq_true, if_true, List.length_singleton] at hi ⊢
        omega
      · simp only [h, beq_iff_eq, if_false, List.length_nil] at hi ⊢
        omega

variable (nb nbrels oldrows newrows) in
/-- All new rows are entered: the list of an old row has the number of a new row as often as
the new row has the old one. -/
theorem fillOldrows_spec
    (hroom : ∀ i, (oldrows i).length + ((newRelations newrows).map (List.count i)).sum
      ≤ nbrels i) :
    ∃ oldrows', fillOldrows nbrels newrows nb oldrows = some oldrows' ∧
      ∀ i k, (oldrows' i).count k = (oldrows i).count k
        + if nb ≤ k then ((newRelations newrows).getD (k - nb) []).count i else 0 := by
  induction newrows generalizing nb oldrows with
  | nil => exact ⟨oldrows, rfl, fun i k => by simp [newRelations]⟩
  | cons row newrows ih =>
    cases row with
    | none => exact ih _ _ hroom
    | some row =>
      simp only [newRelations_some, map_cons, sum_cons] at hroom
      have hfill := fillRow_spec nb nbrels oldrows row
        fun i => by have hi := hroom i; omega
      obtain ⟨oldrows', hrun, hcount⟩ := @ih (nb + 1)
        (fun i => oldrows i ++ replicate (row.count i) nb) fun i => by
          have hi := hroom i
          rw [length_append, List.length_replicate]
          omega
      refine ⟨oldrows', by rw [fillOldrows, hfill]; exact hrun, fun i k => ?_⟩
      rw [hcount, List.count_append, List.count_replicate, newRelations_some]
      by_cases hk : nb = k
      · subst hk
        simp
      · by_cases hle : nb ≤ k
        · rw [show k - nb = (k - (nb + 1)) + 1 by omega]
          simp [hk, hle, show nb + 1 ≤ k by omega]
        · simp [hk, hle, show ¬ nb + 1 ≤ k by omega]

theorem buildOldrows_spec
    (hrows : ∀ row ∈ newRelations newrows, ∀ i ∈ row, i < newrows.length) :
    ∃ old : ℕ → List ℕ, buildOldrows newrows
        = some ((newRelations newrows).length,
            fun i => if i < newrows.length then some (old i) else none) ∧
      ∀ i k, (old i).count k = ((newRelations newrows).getD k []).count i := by
  have hcount := countRels_spec (fun _ => 0) hrows 0
  obtain ⟨old, hfill, hold⟩ := fillOldrows_spec 0
    (fun i => 0 + ((newRelations newrows).map (List.count i)).sum) (fun _ => []) newrows
    fun i => by simp
  refine ⟨old, ?_, fun i k => by simpa using hold i k⟩
  simp only [buildOldrows, hcount, bind_eq_bind, bind_some, hfill]
  rw [zero_add]
  rfl

end Oldrows

/-! ## The sums -/

/-- The calls of `addrel` that `makeSparse` makes from relation `k` on. -/
def addrelCalls (jmin jmax : ℕ) (old : ℕ → List ℕ) (purged : List (List ℕ)) (k : ℕ) :
    List (List ℕ × ℕ) :=
  (purged.zipIdx k).flatMap fun rel =>
    if 0 < (interval jmin jmax rel.1).length then
      (old rel.2).map fun nb => (interval jmin jmax rel.1, nb)
    else []

section MakeSparse

variable {jmin jmax nslices : ℕ} {purged : List (List ℕ)} {old : ℕ → List ℕ}
  {oldrows : ℕ → Option (List ℕ)} {mat : SparseMat} {cols : List ℕ}

theorem addrelCalls_cons (k : ℕ) :
    addrelCalls jmin jmax old (cols :: purged) k
      = (if 0 < (interval jmin jmax cols).length then
          (old k).map fun nb => (interval jmin jmax cols, nb)
        else []) ++ addrelCalls jmin jmax old purged (k + 1) :=
  rfl

variable (jmin jmax nslices purged oldrows mat) in
/-- The sparse matrix is the sum of the recorded calls. -/
theorem makeSparse_eq (hold : ∀ i < purged.length, oldrows i = some (old i)) :
    ∃ oldrows', makeSparse jmin jmax nslices purged mat oldrows
        = some ((addrelCalls jmin jmax old purged 0).foldl addrelCall mat, oldrows') ∧
      (nslices ≠ 0 → oldrows' = oldrows) := by
  suffices h : ∀ k, (∀ i, k ≤ i → i < k + purged.length → oldrows i = some (old i)) →
      ∃ oldrows', (purged.zipIdx k).foldlM (makeSparseStep jmin jmax nslices) (mat, oldrows)
          = some ((addrelCalls jmin jmax old purged k).foldl addrelCall mat, oldrows') ∧
        (nslices ≠ 0 → oldrows' = oldrows) from
    h 0 fun i _ hi => hold i (by omega)
  clear hold
  induction purged generalizing mat oldrows with
  | nil => exact fun k _ => ⟨oldrows, rfl, fun _ => rfl⟩
  | cons cols purged ih =>
    intro k hold
    have hk := hold k le_rfl (by rw [length_cons]; omega)
    set oldrows₁ := if nslices = 0 then update oldrows k none else oldrows with holdrows₁
    set calls := if 0 < (interval jmin jmax cols).length then
      (old k).map fun nb => (interval jmin jmax cols, nb) else [] with hcalls
    have hstep : makeSparseStep jmin jmax nslices (mat, oldrows) (cols, k)
        = some (calls.foldl addrelCall mat, oldrows₁) := by
      simp only [makeSparseStep, hk, Option.map_some, hcalls, holdrows₁]
      split_ifs <;> simp [List.foldl_map, addrelCall]
    obtain ⟨oldrows', hrun, hsame⟩ :=
      ih oldrows₁ _ (k + 1) fun i hi hlt => by
        have hi' := hold i (by omega) (by rw [length_cons]; omega)
        rw [holdrows₁]
        split_ifs
        · rw [update_of_ne (by omega)]
          exact hi'
        · exact hi'
    refine ⟨oldrows', ?_, fun hne => ?_⟩
    · rw [zipIdx_cons, foldlM_cons, hstep, bind_eq_bind, bind_some, hrun,
        addrelCalls_cons, List.foldl_append]
    · rw [hsame hne, holdrows₁, if_neg hne]

theorem interval_spec (hcols : cols.Nodup) :
    (interval jmin jmax cols).Pairwise (· < ·) ∧
      ∀ j, (interval jmin jmax cols).count j
        = if jmin ≤ j ∧ j < jmax ∧ j ∈ cols then 1 else 0 := by
  have hperm := List.mergeSort_perm (cols.filter fun j => jmin ≤ j ∧ j < jmax)
    fun x y => decide (x ≤ y)
  have hfilter : (cols.filter fun j => jmin ≤ j ∧ j < jmax).Nodup := hcols.filter _
  have hsorted : (interval jmin jmax cols).Pairwise (· ≤ ·) := by
    refine (List.pairwise_mergeSort (fun a b c => ?_) (fun a b => ?_) _).imp of_decide_eq_true
    · simp only [decide_eq_true_eq]
      exact le_trans
    · simp only [Bool.or_eq_true, decide_eq_true_eq]
      exact le_total a b
  refine ⟨(hsorted.and (hperm.nodup_iff.mpr hfilter)).imp fun h => lt_of_le_of_ne h.1 h.2,
    fun j => ?_⟩
  rw [interval, hperm.count_eq, hfilter.count]
  simp only [List.mem_filter, decide_eq_true_eq]
  congr 1
  exact propext ⟨fun h => ⟨h.2.1, h.2.2, h.1⟩, fun h => ⟨h.2.2, h.1, h.2.1⟩⟩

theorem additions_addrelCalls (nb j k : ℕ) :
    additions (addrelCalls jmin jmax old purged k) nb j
      = ((purged.zipIdx k).map fun rel =>
          (old rel.2).count nb * (interval jmin jmax rel.1).count j).sum := by
  have hone : ∀ (l : List ℕ) (buf : List ℕ),
      additions (l.map fun nb' => (buf, nb')) nb j = l.count nb * buf.count j := by
    intro l buf
    induction l with
    | nil => simp [additions]
    | cons a l ih =>
      rw [additions] at ih ⊢
      rw [map_cons, map_cons, sum_cons, ih, count_cons]
      by_cases h : a = nb <;> simp [h, add_mul, add_comm]
  induction purged generalizing k with
  | nil => rfl
  | cons cols purged ih =>
    have happend : ∀ l l' : List (List ℕ × ℕ),
        additions (l ++ l') nb j = additions l nb j + additions l' nb j := fun l l' => by
      simp [additions]
    rw [addrelCalls_cons, happend, ih, zipIdx_cons, map_cons, sum_cons]
    congr 1
    split_ifs with hlength
    · exact hone (old k) _
    · have hnil : interval jmin jmax cols = [] := List.length_eq_zero_iff.mp (by omega)
      simp [hnil, additions]

theorem sum_range_count_mul (f : ℕ → ℕ) {n : ℕ} {l : List ℕ} (hl : ∀ i ∈ l, i < n) :
    ∑ i ∈ Finset.range n, l.count i * f i = (l.map f).sum := by
  rw [Finset.sum_list_map_count]
  refine (Finset.sum_subset (fun i hi => ?_) fun i _ hi => ?_).symm
  · exact Finset.mem_range.mpr (hl i (List.mem_toFinset.mp hi))
  · rw [List.count_eq_zero.mpr fun h => hi (List.mem_toFinset.mpr h), zero_mul]

theorem sum_count_mul (g : List ℕ → ℕ) {l : List ℕ} (hl : ∀ i ∈ l, i < purged.length) :
    (purged.zipIdx.map fun rel => l.count rel.2 * g rel.1).sum
      = (l.map fun i => g (purged.getD i [])).sum := by
  have hzip : (purged.zipIdx.map fun rel => l.count rel.2 * g rel.1)
      = (range purged.length).map fun i => l.count i * g (purged.getD i []) :=
    List.ext_getElem (by simp) fun i hi _ => by
      simp [List.getElem?_eq_getElem (show i < purged.length by simpa using hi)]
  rw [hzip, ← sum_range_count_mul _ hl]
  rfl

/-- A column is in an odd number of the listed rows. -/
def OddIn (purged : List (List ℕ)) (row : List ℕ) (j : ℕ) : Prop :=
  (row.countP fun i => j ∈ purged.getD i []) % 2 = 1

variable {rows : List (List ℕ)} {start : ℕ → ℤ}

theorem mem_addrelCalls (hpurged : ∀ cols ∈ purged, cols.Nodup)
    (hold : ∀ i k, (old i).count k = (rows.getD k []).count i) {call : List ℕ × ℕ}
    (hcall : call ∈ addrelCalls jmin jmax old purged 0) :
    call.1.Pairwise (· < ·) ∧ call.2 < rows.length := by
  obtain ⟨rel, hrel, hcall⟩ := List.mem_flatMap.mp hcall
  split_ifs at hcall
  · obtain ⟨nb, hnb, rfl⟩ := mem_map.mp hcall
    refine ⟨(interval_spec (hpurged rel.1 (List.fst_mem_of_mem_zipIdx hrel))).1, ?_⟩
    have hcount := List.count_pos_iff.mpr hnb
    by_contra hlong
    rw [hold, List.getD_eq_getElem?_getD, List.getElem?_eq_none (by omega)] at hcount
    exact absurd hcount (by simp)
  · simp at hcall

/-- What `makeSparse` leaves when it starts without rows: each row is the increasing sum
of its old rows, within the interval. -/
theorem makeSparse_spec (hpurged : ∀ cols ∈ purged, cols.Nodup)
    (hrows : ∀ row ∈ rows, ∀ i ∈ row, i < purged.length)
    (hold : ∀ i k, (old i).count k = (rows.getD k []).count i) :
    Balanced rows.length start ((addrelCalls jmin jmax old purged 0).foldl addrelCall
        (emptyMat start)) ∧
      ∀ nb j, j ∈ ((addrelCalls jmin jmax old purged 0).foldl addrelCall (emptyMat start)).row nb
        ↔ jmin ≤ j ∧ j < jmax ∧ OddIn purged (rows.getD nb []) j := by
  obtain ⟨hbalanced, hcount⟩ := foldl_addrelCall _ (balanced_emptyMat rows.length start)
    fun call hcall => mem_addrelCalls hpurged hold hcall
  refine ⟨hbalanced, fun nb j => ?_⟩
  have hrow : ∀ i ∈ rows.getD nb [], i < purged.length := by
    rw [List.getD_eq_getElem?_getD]
    cases hnb : rows[nb]? with
    | none => simp
    | some row => exact hrows row (List.mem_of_getElem? hnb)
  have hsum := sum_count_mul (fun cols => (interval jmin jmax cols).count j) hrow
  have hcountP : ((rows.getD nb []).map fun i =>
      (interval jmin jmax (purged.getD i [])).count j).sum
      = if jmin ≤ j ∧ j < jmax then (rows.getD nb []).countP fun i => j ∈ purged.getD i []
        else 0 := by
    induction rows.getD nb [] with
    | nil => simp
    | cons i row ih =>
      have hnodup : (purged.getD i []).Nodup := by
        rw [List.getD_eq_getElem?_getD]
        cases hi : purged[i]? with
        | none => simp
        | some cols => exact hpurged cols (List.mem_of_getElem? hi)
      rw [map_cons, sum_cons, ih, (interval_spec hnodup).2, List.countP_cons]
      simp only [← and_assoc]
      by_cases hin : jmin ≤ j ∧ j < jmax <;> simp [hin, add_comm]
  rw [mem_iff_count_odd (hbalanced.increasing nb), hcount, additions_addrelCalls]
  simp only [hold, hsum, hcountP]
  by_cases hin : jmin ≤ j ∧ j < jmax
  · simp [emptyMat, SparseMat.row, hin, OddIn]
  · simp only [emptyMat, SparseMat.row, hin, if_false]
    simp [← and_assoc, hin]

end MakeSparse

/-! ## The index file is read back -/

section IndexFile

variable {newrows : List (Option (List ℕ))} {rows : List (List ℕ)}

theorem countRels_newRelations (nrows : ℕ) (nbrels : ℕ → ℕ) (small : ℕ) :
    countRels nrows newrows nbrels small
      = countRels nrows ((newRelations newrows).map some) nbrels small := by
  induction newrows generalizing nbrels small with
  | nil => rfl
  | cons row newrows ih =>
    cases row with
    | none => exact ih nbrels small
    | some row =>
      rw [newRelations_some, map_cons, countRels, countRels]
      congr 1
      funext nbrels'
      exact ih nbrels' (small + 1)

theorem fillOldrows_newRelations (nbrels : ℕ → ℕ) (nb : ℕ) (oldrows : ℕ → List ℕ) :
    fillOldrows nbrels newrows nb oldrows
      = fillOldrows nbrels ((newRelations newrows).map some) nb oldrows := by
  induction newrows generalizing nb oldrows with
  | nil => rfl
  | cons row newrows ih =>
    cases row with
    | none => exact ih nb oldrows
    | some row =>
      rw [newRelations_some, map_cons, fillOldrows, fillOldrows]
      congr 1
      funext oldrows'
      exact ih (nb + 1) oldrows'

theorem replayMat_congr {newrows' : List (Option (List ℕ))}
    (hrows : newRelations newrows' = newRelations newrows)
    (hlength : newrows'.length = newrows.length) (purged : List (List ℕ)) (ncols : ℕ) :
    replayMat purged ncols newrows' = replayMat purged ncols newrows := by
  have hbuild : buildOldrows newrows' = buildOldrows newrows := by
    have hcount : countRels newrows.length newrows' (fun _ => 0) 0
        = countRels newrows.length newrows (fun _ => 0) 0 := by
      rw [countRels_newRelations, hrows, ← countRels_newRelations]
    rw [buildOldrows, buildOldrows, hlength, hcount]
    congr 1
    funext ⟨nbrels, small⟩
    have hfill : fillOldrows nbrels newrows' 0 (fun _ => [])
        = fillOldrows nbrels newrows 0 fun _ => [] := by
      rw [fillOldrows_newRelations, hrows, ← fillOldrows_newRelations]
    simp [hfill]
  rw [replayMat, replayMat, hbuild]

theorem newRelations_map_some_append (n : ℕ) :
    newRelations (rows.map some ++ replicate n none) = rows := by
  induction rows with
  | nil =>
    induction n with
    | zero => rfl
    | succ n ih => exact ih
  | cons row rows ih =>
    rw [map_cons, cons_append, newRelations_some, ih]

theorem scanInt_space (b : ℕ) {c : Char} (hc : c = ' ' ∨ c = '\n') (text : List Char) :
    scanInt b (c :: text) = scanInt b text := by
  rw [scanInt, scanInt]
  rcases hc with rfl | rfl <;> simp

theorem scanInt_toDigits {b : ℕ} (hb : 1 < b) (hb' : b ≤ 16) {n : ℕ} (hn : n < 2 ^ 32)
    {rest : List Char} (hrest : Stops (digitBelow b) rest) :
    scanInt b (toDigits b n ++ rest) = some (n, rest) := by
  have hread := readNumber_toDigits (fun d hd => digitBelow_digitChar hb' hd) hb hn hrest
  obtain ⟨c, cs, hcs⟩ := List.exists_cons_of_ne_nil (Nat.toDigits_ne_nil (n := n) (b := b))
  obtain ⟨d, hd, rfl⟩ : ∃ d < b, c = digitChar d :=
    mem_toDigits hb (hcs ▸ List.mem_cons_self)
  have hspace : (digitChar d = ' ' || digitChar d = '\n' || digitChar d = '\t'
      || digitChar d = '\r') = false := by
    have hd : d < 16 := hd.trans_le hb'
    interval_cases d <;> decide
  rw [hcs, cons_append] at hread ⊢
  simp only [scanInt, List.dropWhile_cons, hspace, Bool.false_eq_true, if_false, hread,
    length_cons, length_append]
  rw [if_neg (by omega)]

theorem stops_of_space {b : ℕ} {c : Char} (hc : c = ' ' ∨ c = '\n') (text : List Char) :
    Stops (digitBelow b) (c :: text) := by
  rw [stops_cons]
  rcases hc with rfl | rfl <;> rfl

theorem scanRow_spec {row : List ℕ} (hrow : ∀ i ∈ row, i < 2 ^ 32) (text : List Char) :
    scanRow row.length ((row.flatMap fun i => ' ' :: toDigits 16 i) ++ '\n' :: text)
      = some (row, '\n' :: text) := by
  induction row with
  | nil => rfl
  | cons i row ih =>
    obtain ⟨hi, hrow⟩ := forall_mem_cons.mp hrow
    have hstops : Stops (digitBelow 16)
        ((row.flatMap fun i => ' ' :: toDigits 16 i) ++ '\n' :: text) := by
      cases row with
      | nil => exact stops_of_space (Or.inr rfl) text
      | cons k row => exact stops_of_space (Or.inl rfl) _
    rw [flatMap_cons, append_assoc, cons_append, length_cons, scanRow,
      scanInt_space 16 (Or.inl rfl), scanInt_toDigits (by decide) le_rfl hi hstops]
    simp [ih hrow]

/-- The lines of the index file, after the end of its first line. -/
def indexLines (rows : List (List ℕ)) : List Char :=
  '\n' :: rows.flatMap fun row =>
    toDigits 10 row.length ++ ((row.flatMap fun i => ' ' :: toDigits 16 i) ++ ['\n'])

theorem indexLines_cons (row : List ℕ) :
    indexLines (row :: rows) = '\n' :: (toDigits 10 row.length
      ++ ((row.flatMap fun i => ' ' :: toDigits 16 i) ++ indexLines rows)) := by
  simp [indexLines, append_assoc]

theorem stops_indexLines (rows : List (List ℕ)) : Stops (digitBelow 10) (indexLines rows) :=
  stops_of_space (Or.inr rfl) _

theorem scanRows_indexLines (hrows : ∀ row ∈ rows, row.length < 2 ^ 32 ∧ ∀ i ∈ row, i < 2 ^ 32) :
    scanRows rows.length (indexLines rows) = some rows := by
  induction rows with
  | nil => rfl
  | cons row rows ih =>
    obtain ⟨⟨hlength, hrow⟩, hrows⟩ := forall_mem_cons.mp hrows
    have ih := ih hrows
    have hstops : Stops (digitBelow 10)
        ((row.flatMap fun i => ' ' :: toDigits 16 i) ++ indexLines rows) := by
      cases row with
      | nil => exact stops_of_space (Or.inr rfl) _
      | cons k row => exact stops_of_space (Or.inl rfl) _
    rw [indexLines_cons, length_cons, scanRows, scanInt_space 10 (Or.inr rfl),
      scanInt_toDigits (by decide) (by decide) hlength hstops]
    simp only [bind_eq_bind, bind_some]
    rw [indexLines] at ih ⊢
    rw [scanRow_spec hrow, bind_some, ih]
    rfl

theorem makeIndexFile_eq (smallNrows smallNcols : ℕ) :
    makeIndexFile newrows smallNrows smallNcols = toDigits 10 smallNrows ++
      ' ' :: (toDigits 10 smallNcols ++ indexLines (newRelations newrows)) := by
  rw [makeIndexFile, indexLines]
  congr 4
  induction newrows with
  | nil => rfl
  | cons row newrows ih =>
    cases row with
    | none => exact ih
    | some row => rw [flatMap_cons, ih, newRelations_some, flatMap_cons]

theorem readNewrowsFromFile_makeIndexFile {smallNcols : ℕ}
    (hsize : (newRelations newrows).length < 2 ^ 32) (hncols : smallNcols < 2 ^ 32)
    (hrows : ∀ row ∈ newRelations newrows, row.length < 2 ^ 32 ∧ ∀ i ∈ row, i < 2 ^ 32) :
    readNewrowsFromFile newrows.length
        (makeIndexFile newrows (newRelations newrows).length smallNcols)
      = some ((newRelations newrows).map some
          ++ replicate (newrows.length - (newRelations newrows).length) none) := by
  have hle : (newRelations newrows).length ≤ newrows.length := List.length_filterMap_le _ _
  rw [makeIndexFile_eq, readNewrowsFromFile,
    scanInt_toDigits (by decide) (by decide) hsize (stops_of_space (Or.inl rfl) _)]
  simp only [bind_eq_bind, bind_some]
  rw [scanInt_space 10 (Or.inl rfl),
    scanInt_toDigits (by decide) (by decide) hncols (stops_indexLines _)]
  simp only [bind_some]
  rw [scanRows_indexLines hrows, bind_some, if_neg (by omega)]
  rfl

end IndexFile

/-! ## The small matrix -/

section Correct

variable {purged : List (List ℕ)} {ncols : ℕ} {newrows : List (Option (List ℕ))}

/-- The rows of the matrix that `replay` makes are the increasing sums of the listed rows. -/
theorem replayMat_spec (hlength : newrows.length = purged.length)
    (hpurged : ∀ cols ∈ purged, cols.Nodup ∧ ∀ j ∈ cols, j < ncols)
    (hrows : ∀ row ∈ newRelations newrows, ∀ i ∈ row, i < purged.length) :
    ∃ old, buildOldrows newrows = some ((newRelations newrows).length,
        fun i => if i < newrows.length then some (old i) else none) ∧
      (∀ i k, (old i).count k = ((newRelations newrows).getD k []).count i) ∧
      replayMat purged ncols newrows
        = some ((addrelCalls 0 ncols old purged 0).foldl addrelCall (emptyMat fun _ => 0)) ∧
      ∀ nb, let row := ((addrelCalls 0 ncols old purged 0).foldl addrelCall
          (emptyMat fun _ => 0)).row nb
        row.Pairwise (· < ·) ∧ ∀ j, j ∈ row ↔ OddIn purged ((newRelations newrows).getD nb []) j := by
  obtain ⟨old, hbuild, hold⟩ := buildOldrows_spec
    fun row hrow i hi => by rw [hlength]; exact hrows row hrow i hi
  obtain ⟨oldrows', hmake, -⟩ := makeSparse_eq 0 ncols 0 purged
    (fun i => if i < newrows.length then some (old i) else none) (emptyMat fun _ => 0)
    fun i hi => if_pos (by omega)
  have hreplay : replayMat purged ncols newrows
      = some ((addrelCalls 0 ncols old purged 0).foldl addrelCall (emptyMat fun _ => 0)) := by
    simp only [replayMat, hbuild, bind_eq_bind, bind_some, hmake]
    rfl
  obtain ⟨hbalanced, hmem⟩ := makeSparse_spec (fun cols hcols => (hpurged cols hcols).1) hrows hold
  refine ⟨old, hbuild, hold, hreplay, fun nb => ⟨hbalanced.increasing nb, fun j => ?_⟩⟩
  rw [hmem]
  refine ⟨fun h => h.2.2, fun h => ⟨Nat.zero_le j, ?_, h⟩⟩
  -- a column in an odd number of rows is in one of them
  have hpos : 0 < ((newRelations newrows).getD nb []).countP fun i => j ∈ purged.getD i [] := by
    rw [OddIn] at h
    omega
  obtain ⟨i, -, hj⟩ := List.countP_pos_iff.mp hpos
  rw [decide_eq_true_eq, List.getD_eq_getElem?_getD] at hj
  cases hi : purged[i]? with
  | none => simp [hi] at hj
  | some cols =>
    rw [hi] at hj
    exact (hpurged cols (List.mem_of_getElem? hi)).2 j hj

/-- For a purged matrix with distinct columns in each row, and new rows that are lists of
distinct old rows: `replay` makes the increasing sums of the listed rows, the column
weights are those of the matrix after each addition, and the index file leads to the same
matrix. -/
theorem replay_correct (hlength : newrows.length = purged.length)
    (hpurged : ∀ cols ∈ purged, cols.Nodup ∧ ∀ j ∈ cols, j < ncols)
    (hrows : ∀ row ∈ newRelations newrows, row.Nodup ∧ ∀ i ∈ row, i < purged.length)
    (hnrows : purged.length < 2 ^ 31) :
    ∃ old mat, buildOldrows newrows = some ((newRelations newrows).length,
        fun i => if i < newrows.length then some (old i) else none) ∧
      replayMat purged ncols newrows = some mat ∧
      mat = (addrelCalls 0 ncols old purged 0).foldl addrelCall (emptyMat fun _ => 0) ∧
      (∀ nb < (newRelations newrows).length, (mat.row nb).Pairwise (· < ·) ∧
        ∀ j, j ∈ mat.row nb ↔ OddIn purged ((newRelations newrows).getD nb []) j) ∧
      (∀ n j, (matAfter (addrelCalls 0 ncols old purged 0) n).colweight j
        = ((range (newRelations newrows).length).countP
          fun nb => j ∈ (matAfter (addrelCalls 0 ncols old purged 0) n).row nb : ℕ)) ∧
      ∀ smallNcols < 2 ^ 31, ∃ newrows', readNewrowsFromFile newrows.length
          (makeIndexFile newrows (newRelations newrows).length smallNcols) = some newrows' ∧
        replayMat purged ncols newrows' = some mat := by
  have hle : (newRelations newrows).length ≤ newrows.length := List.length_filterMap_le _ _
  have hnodup : ∀ cols ∈ purged, cols.Nodup := fun cols hcols => (hpurged cols hcols).1
  obtain ⟨old, hbuild, hold, hreplay, hrow⟩ := replayMat_spec hlength hpurged
    fun row hrow => (hrows row hrow).2
  refine ⟨old, _, hbuild, hreplay, rfl, fun nb _ => hrow nb, fun n j => ?_, fun smallNcols hncols => ?_⟩
  · have hprefix := (foldl_addrelCall ((addrelCalls 0 ncols old purged 0).take n)
      (balanced_emptyMat (newRelations newrows).length fun _ => 0) fun call hcall =>
      mem_addrelCalls hnodup hold (List.mem_of_mem_take hcall)).1
    rw [matAfter, hprefix.colweight_eq j, zero_add]
  · refine ⟨_, readNewrowsFromFile_makeIndexFile (by omega) (by omega) fun row hrow => ?_,
      (replayMat_congr (newRelations_map_some_append _) ?_ purged ncols).trans hreplay⟩
    · obtain ⟨hrownodup, hlt⟩ := hrows row hrow
      have hcard : row.length ≤ purged.length := by
        have hsubset : row ⊆ range purged.length := fun i hi => List.mem_range.mpr (hlt i hi)
        have hle := (hrownodup.subperm hsubset).length_le
        rwa [List.length_range] at hle
      exact ⟨by omega, fun i hi => by have := hlt i hi; omega⟩
    · rw [length_append, List.length_map, List.length_replicate]
      omega

/-- Three old rows, of which the first two are added and the third is dropped. -/
theorem replay_correct_three :
    ∃ mat, replayMat [[2, 0], [0, 1], [1]] 3 [some [0, 1], none, some [2]] = some mat ∧
      ∀ j, j ∈ mat.row 0 ↔ OddIn [[2, 0], [0, 1], [1]] [0, 1] j :=
  have ⟨_, mat, _, hrun, _, hrow, _⟩ :=
    replay_correct
      rfl (by decide) (by decide) (by decide)
  ⟨mat, hrun, (hrow 0 (by decide)).2⟩

end Correct

end CadoNfs.Replay
