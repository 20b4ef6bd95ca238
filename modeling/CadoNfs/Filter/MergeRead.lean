import CadoNfs.Filter.MergeRows

/-!
# Reading the matrix of merge

The purged file is read twice: once for the weights of the columns, then for the rows.  Rows
with heavy columns only are dropped.

Main results:

- Theorem `fillmat_spec`: the stacks after the weights are known.
- Theorem `start_readMatrix`: the matrix after the rows were read.
-/

namespace CadoNfs.Merge

open Function (update update_apply update_idem update_of_ne update_self)
open DoublyLinked SortedXor

/-! ## Reading -/

/-- `initMat` for all columns.  What is not initialised is `NULL`. -/
def initMat (nrows ncols cwmax : ℕ) (rwmax keep : ℤ) : FilterMatrix where
  nrows := nrows
  ncols := ncols
  remNrows := 0
  remNcols := 0
  rows _ := none
  wt _ := 0
  wburied _ := 0
  nburied := 0
  weight := 0
  cwmax := cwmax
  rwmax := rwmax
  keep := keep
  R _ := none
  heap := Heap.empty
  S _ := 0
  A _ := none

/-- `filter_matrix_read_weights`. -/
def filterMatrixReadWeights (mat : FilterMatrix) (purged : List (List ℕ)) : FilterMatrix :=
  { mat with
    wt := purged.foldl (fun wt cols => cols.foldl (fun wt j =>
      if j < mat.ncols then update wt j (wt j + 1) else wt) wt) mat.wt }

/-- `initSWAR`. -/
def initSWAR (mat : FilterMatrix) : FilterMatrix :=
  (List.range (mat.cwmax + 2)).foldl (fun mat k =>
    let (heap, dcl) := create mat.heap none
    { mat with heap := heap, S := update mat.S k dcl }) mat

/-- `fillmat` at column `j`. -/
def fillColumn (mat : FilterMatrix) (j : ℕ) : Option FilterMatrix :=
  let wj := mat.wt j
  if wj ≤ mat.cwmax then do
    let dcl ← mat.stack wj
    let (heap, cell) ← insertAfter mat.heap dcl (some j)
    return { mat with
      heap := heap
      A := update mat.A j (some cell)
      R := update mat.R j (some []) }
  else some { mat with
    wt := update mat.wt j (-wj)
    A := update mat.A j none
    R := update mat.R j none }

/-- `fillmat`. -/
def fillmat (mat : FilterMatrix) : Option FilterMatrix :=
  (List.range mat.ncols).foldlM fillColumn mat

/-- `filter_matrix_read` at an entry of row `i`: the matrix, `buf` and
`nb_heavy_j`.  An entry past the end of `buf` or of `R[j]` has no result. -/
def readEntry (tooheavy : ℕ → Bool) (i lbuf : ℕ) (state : FilterMatrix × List ℕ × ℕ) (j : ℕ) :
    Option (FilterMatrix × List ℕ × ℕ) :=
  let (mat, buf, nbHeavy) := state
  let nbHeavy := if mat.wt j < 0 then nbHeavy + 1 else nbHeavy
  let mat := { mat with weight := mat.weight + 1 }
  if mat.ncols ≤ j then none
  else if tooheavy j then
    some ({ mat with wburied := update mat.wburied i (mat.wburied i + 1) }, buf, nbHeavy)
  else if lbuf ≤ buf.length then none
  else if 0 < mat.wt j then do
    let entries ← mat.R j
    if mat.wt j ≤ entries.length then none
    else some ({ mat with R := update mat.R j (some (entries ++ [some i])) },
      buf ++ [j], nbHeavy)
  else some (mat, buf ++ [j], nbHeavy)

/-- The length of `buf` for a row of `nc` entries: a signed number. -/
def doubleLbuf (lbuf nc : ℕ) : Option ℕ :=
  if lbuf < nc then
    if 2 * lbuf < 2 ^ 31 then some (2 * lbuf) else none
  else some lbuf

/-- `filter_matrix_read` at row `i`, with the length of `buf`. -/
def readRow (tooheavy : ℕ → Bool) (state : FilterMatrix × ℕ) (rel : List ℕ × ℕ) :
    Option (FilterMatrix × ℕ) :=
  let (mat, lbuf) := state
  let (cols, i) := rel
  if mat.nrows ≤ i then none
  else if cols = [] then
    some ({ mat with
      rows := update mat.rows i none
      remNrows := mat.remNrows - 1 }, lbuf)
  else do
    let lbuf ← doubleLbuf lbuf cols.length
    let (mat, buf, nbHeavy) ← cols.foldlM (readEntry tooheavy i lbuf) (mat, [], 0)
    if nbHeavy = cols.length then
      some ({ mat with rows := update mat.rows i none }, lbuf)
    else
      let row := buf.insertionSort (· ≤ ·)
      if (row.zip row.tail).any fun pair => pair.1 = pair.2 then none
      else some ({ mat with rows := update mat.rows i (some row) }, lbuf)

/-- `filter_matrix_read`. -/
def filterMatrixRead (mat : FilterMatrix) (purged : List (List ℕ)) : Option FilterMatrix := do
  let wmax : ℤ := -(mat.nrows / 2000 : ℕ)
  let tooheavy := fun j => decide (mat.wt j < wmax)
  let mat := { mat with
    remNrows := mat.nrows
    weight := 0
    nburied := (List.range mat.ncols).countP tooheavy }
  let (mat, _) ← purged.zipIdx.foldlM (readRow tooheavy) (mat, 100)
  return { mat with remNcols := mat.ncols }

/-- The part of `main` that reads the matrix. -/
def readMatrix (purged : List (List ℕ)) (ncols cwmax : ℕ) (rwmax keep : ℤ) :
    Option FilterMatrix := do
  let mat := filterMatrixReadWeights (initMat purged.length ncols cwmax rwmax keep) purged
  let mat ← fillmat (initSWAR mat)
  filterMatrixRead mat purged

/-! ## Weights and stacks -/

/-- In how many rows of the file a column is. -/
def fileWeight (purged : List (List ℕ)) (j : ℕ) : ℕ :=
  purged.countP fun cols => j ∈ cols

section Fill

variable {purged : List (List ℕ)} {mat : FilterMatrix} {ncols j k : ℕ}

theorem countRow_apply (ncols : ℕ) (cols : List ℕ) (wt : ℕ → ℤ) (hcols : ∀ j ∈ cols, j < ncols) :
    cols.foldl (fun wt j => if j < ncols then update wt j (wt j + 1) else wt) wt j
      = wt j + cols.count j := by
  induction cols generalizing wt with
  | nil => simp
  | cons a cols ih =>
    obtain ⟨ha, hcols⟩ := List.forall_mem_cons.mp hcols
    rw [List.foldl_cons, if_pos ha, ih _ hcols, update_apply, List.count_cons]
    by_cases hja : j = a
    · subst hja
      simp
      omega
    · simp [hja, Ne.symm hja]

theorem wt_readWeights (hpurged : ∀ cols ∈ purged, cols.Nodup ∧ ∀ j ∈ cols, j < mat.ncols)
    (hwt : ∀ j, mat.wt j = 0) : (filterMatrixReadWeights mat purged).wt j = fileWeight purged j := by
  have hfold : ∀ wt : ℕ → ℤ, (purged.foldl (fun wt cols => cols.foldl (fun wt j =>
      if j < mat.ncols then update wt j (wt j + 1) else wt) wt) wt) j
        = wt j + fileWeight purged j := by
    clear hwt
    induction purged with
    | nil => simp [fileWeight]
    | cons cols purged ih =>
      obtain ⟨⟨hnodup, hlt⟩, hpurged⟩ := List.forall_mem_cons.mp hpurged
      intro wt
      have ih := ih hpurged
      rw [List.foldl_cons, ih, countRow_apply _ _ _ hlt, fileWeight, fileWeight, List.countP_cons,
        hnodup.count]
      by_cases hj : j ∈ cols <;> simp [hj]
      omega
  have h := hfold mat.wt
  rw [hwt, zero_add] at h
  exact h

variable (mat) in
/-- At the start the lists are empty. -/
theorem listed_initSWAR (hheap : mat.heap = Heap.empty) (hA : ∀ j, mat.A j = none) :
    Listed mat.cwmax (initSWAR mat).heap (initSWAR mat).S mat.A mat.wt (fun _ => []) ∧
      ∃ S heap, initSWAR mat = { mat with heap := heap, S := S } := by
  have hrun : ∀ n, ∃ S, (List.range n).foldl (fun mat k =>
      let (heap, dcl) := create mat.heap none
      { mat with heap := heap, S := update mat.S k dcl }) mat
        = { mat with
            heap := {
              cells := fun a => if a < n then some { val := none, prev := none, next := none }
                else none
              fresh := n }
            S := S } ∧ ∀ k < n, S k = k := by
    intro n
    induction n with
    | zero =>
      refine ⟨mat.S, ?_, by simp⟩
      rw [List.range_zero, List.foldl_nil]
      simp only [Nat.not_lt_zero, if_false]
      rw [show (⟨fun _ => none, 0⟩ : Heap (Option ℕ)) = Heap.empty from rfl, ← hheap]
    | succ n ih =>
      obtain ⟨S, hfold, hS⟩ := ih
      refine ⟨update S n n, ?_, fun k hk => ?_⟩
      · rw [List.range_succ, List.foldl_append, hfold, List.foldl_cons, List.foldl_nil]
        have hcells : update (fun a : ℕ => if a < n
            then some ({ val := none, prev := none, next := none } : Cell (Option ℕ)) else none) n
              (some { val := none, prev := none, next := none })
            = fun a => if a < n + 1 then some { val := none, prev := none, next := none }
              else none := by
          funext a
          rw [update_apply]
          by_cases ha : a = n
          · simp [ha]
          · simp only [ha, if_false]
            congr 1
            exact propext ⟨fun h => by omega, fun h => by omega⟩
        simp [create, hcells]
      · by_cases hkn : k = n
        · rw [hkn, update_self]
        · rw [update_of_ne hkn, hS k (by omega)]
  obtain ⟨S, hfold, hS⟩ := hrun (mat.cwmax + 2)
  have hinit : initSWAR mat = _ := hfold
  have hlt : ∀ w ∈ Set.Iic (mat.cwmax + 1), w < mat.cwmax + 2 := fun w hw =>
    Nat.lt_succ_of_le (Set.mem_Iic.mp hw)
  rw [hinit]
  refine ⟨⟨⟨fun b hb => ?_, fun w hw => ?_, fun w _ => by simp, fun w hw w' hw' hne a ha => ?_⟩,
    fun w hw => ?_, fun j a hj => ?_, fun w _ a ha => by simp at ha⟩, S, _, rfl⟩
  · by_contra hge
    exact hb (by simp [Heap.next, hge])
  · simp [Segment, Heap.next, hS w (hlt w hw), hlt w hw]
  · rw [List.mem_singleton] at ha ⊢
    simp only [ha, hS w (hlt w hw), hS w' (hlt w' hw')]
    exact hne
  · simp [Heap.val, hS w (by omega), show w < mat.cwmax + 2 by omega]
  · rw [hA j] at hj
    exact absurd hj (by simp)

/-- What `fillmat` makes of the weights `W`: the columns below `k` that are light
are in the stacks. -/
structure Filled (W : ℕ → ℕ) (k : ℕ) (mat : FilterMatrix) : Prop where
  listed : ∃ lists, Listed mat.cwmax mat.heap mat.S mat.A mat.wt lists
  active : ∀ j, mat.A j ≠ none ↔ j < k ∧ W j ≤ mat.cwmax
  wt_eq : ∀ j, mat.wt j = if j < k ∧ mat.cwmax < W j then -(W j : ℤ) else W j
  entries : ∀ j, mat.A j ≠ none → mat.R j = some []

/-- A light column gets its place in a stack, a heavy one a negative weight. -/
theorem fillColumn_spec {W : ℕ → ℕ} (h : Filled W k mat) :
    ∃ mat', fillColumn mat k = some mat' ∧ Filled W (k + 1) mat' ∧ OnlyColumns mat mat' := by
  have hwt : mat.wt k = W k := by rw [h.wt_eq, if_neg (by omega)]
  have hA : mat.A k = none := by
    by_contra hne
    exact absurd ((h.active k).mp hne).1 (lt_irrefl k)
  obtain ⟨lists, hlisted⟩ := h.listed
  by_cases hlight : W k ≤ mat.cwmax
  · obtain ⟨heap, b, lists', hinsert, hlisted'⟩ := hlisted.insert hA (mat.wt k)
    rw [Function.update_eq_self] at hlisted'
    have hstackOf : stackOf mat.cwmax (mat.wt k) = W k := by
      rw [hwt, stackOf]
      omega
    rw [hstackOf] at hinsert
    have hstack : mat.stack (W k) = some (mat.S (W k)) := stack_natCast mat (by omega)
    refine ⟨{ mat with
        heap := heap
        A := update mat.A k (some b)
        R := update mat.R k (some []) }, ?_,
      ⟨⟨lists', hlisted'⟩, fun j => ?_, fun j => ?_, fun j hj => ?_⟩, rfl⟩
    · simp only [fillColumn, hwt, hstack, some_bind, hinsert]
      rw [if_pos (by exact_mod_cast hlight)]
      rfl
    · by_cases hjk : j = k
      · subst hjk
        simp [hlight]
      · simp only [update_of_ne hjk, h.active j]
        exact and_congr_left fun _ => ⟨fun h => by omega, fun h => by omega⟩
    · rw [h.wt_eq j]
      by_cases hjk : j = k
      · subst hjk
        rw [if_neg (by omega), if_neg (by simp only; omega)]
      · congr 1
        exact propext ⟨fun h => ⟨by omega, h.2⟩, fun h => ⟨by omega, h.2⟩⟩
    · by_cases hjk : j = k
      · subst hjk
        exact update_self _ _ _
      · simp only [update_of_ne hjk] at hj ⊢
        exact h.entries j hj
  · have hAk : update mat.A k none = mat.A := Function.update_eq_self_iff.mpr hA.symm
    refine ⟨{ mat with
        wt := update mat.wt k (-mat.wt k)
        A := update mat.A k none
        R := update mat.R k none }, ?_,
      ⟨⟨lists, ?_⟩, fun j => ?_, fun j => ?_, fun j hj => ?_⟩, rfl⟩
    · simp only [fillColumn]
      rw [if_neg (by rw [hwt]; exact_mod_cast hlight)]
    · simp only [hAk]
      refine hlisted.congr fun j hj => update_of_ne ?_ _ _
      rintro rfl
      exact hj hA
    · simp only [hAk, h.active j]
      refine ⟨fun h => ⟨by omega, h.2⟩, fun h => ⟨?_, h.2⟩⟩
      by_contra hge
      obtain rfl : j = k := by omega
      exact hlight h.2
    · by_cases hjk : j = k
      · subst hjk
        simp only [update_self, hwt]
        rw [if_pos ⟨by omega, by omega⟩]
      · simp only [update_of_ne hjk, h.wt_eq j]
        congr 1
        exact propext ⟨fun h => ⟨by omega, h.2⟩, fun h => ⟨by omega, h.2⟩⟩
    · simp only [hAk] at hj
      have hjk : j ≠ k := by
        rintro rfl
        exact hj hA
      simp only [update_of_ne hjk]
      exact h.entries j hj

/-- All columns. -/
theorem fillmat_spec {W : ℕ → ℕ} (h : Filled W 0 mat) :
    ∃ mat', fillmat mat = some mat' ∧ Filled W mat.ncols mat' ∧ OnlyColumns mat mat' := by
  suffices hrun : ∀ n, ∃ mat', (List.range n).foldlM fillColumn mat = some mat' ∧
      Filled W n mat' ∧ OnlyColumns mat mat' from hrun mat.ncols
  intro n
  induction n with
  | zero => exact ⟨mat, rfl, h, OnlyColumns.refl mat⟩
  | succ n ih =>
    obtain ⟨mat₁, hrun₁, hfilled₁, honly₁⟩ := ih
    obtain ⟨mat₂, hrun₂, hfilled₂, honly₂⟩ := fillColumn_spec hfilled₁
    refine ⟨mat₂, ?_, hfilled₂, honly₁.trans honly₂⟩
    rw [List.range_succ, List.foldlM_append, hrun₁]
    simp [hrun₂]

end Fill

/-! ## Rows -/

section Read

variable {purged done : List (List ℕ)} {cols : List ℕ} {mat mat' : FilterMatrix} {buf buf' : List ℕ}
  {nbHeavy nbHeavy' i lbuf lbuf' : ℕ} {tooheavy : ℕ → Bool}

/-- The matrix after the entries `cols` of row `i`. -/
def entered (tooheavy : ℕ → Bool) (i : ℕ) (mat : FilterMatrix) (cols : List ℕ) : FilterMatrix :=
  { mat with
    weight := mat.weight + cols.length
    wburied := update mat.wburied i (mat.wburied i + cols.countP tooheavy)
    R := fun j => if j ∈ cols ∧ 0 < mat.wt j then (mat.R j).map (· ++ [some i]) else mat.R j }

/-- The columns of one row are entered one after the other. -/
theorem readEntries_spec (hnodup : cols.Nodup) (htoo : ∀ j, tooheavy j → mat.wt j < 0)
    (hrun : cols.foldlM (readEntry tooheavy i lbuf) (mat, buf, nbHeavy)
      = some (mat', buf', nbHeavy')) :
    mat' = entered tooheavy i mat cols ∧ buf' = buf ++ cols.filter (fun j => ¬ tooheavy j) ∧
      nbHeavy' = nbHeavy + cols.countP (fun j => mat.wt j < 0) ∧ ∀ j ∈ cols, j < mat.ncols := by
  induction cols generalizing mat buf nbHeavy with
  | nil =>
    obtain ⟨rfl, rfl, rfl⟩ : mat = mat' ∧ buf = buf' ∧ nbHeavy = nbHeavy' := by
      simpa using hrun
    exact ⟨by simp [entered], by simp, by simp, by simp⟩
  | cons a cols ih =>
    obtain ⟨hacols, hnodup⟩ := List.nodup_cons.mp hnodup
    rw [List.foldlM_cons] at hrun
    obtain ⟨⟨mat₁, buf₁, nbHeavy₁⟩, hstep, hrun⟩ := Option.bind_eq_some_iff.mp hrun
    have hone : mat₁ = entered tooheavy i mat [a] ∧
        buf₁ = buf ++ [a].filter (fun j => ¬ tooheavy j) ∧
        nbHeavy₁ = nbHeavy + [a].countP (fun j => mat.wt j < 0) ∧ a < mat.ncols := by
      simp only [readEntry] at hstep
      have hnb : (if mat.wt a < 0 then nbHeavy + 1 else nbHeavy)
          = nbHeavy + [a].countP (fun j => mat.wt j < 0) := by
        by_cases hneg : mat.wt a < 0 <;> simp [hneg]
      rw [hnb] at hstep
      split_ifs at hstep with hncols hheavy hlbuf hpos
      · obtain ⟨rfl, rfl, rfl⟩ : _ = mat₁ ∧ buf = buf₁ ∧ _ = nbHeavy₁ := by simpa using hstep
        have hneg := htoo a hheavy
        refine ⟨?_, by simp [hheavy], by simp, by omega⟩
        have hR : (fun j => if j = a ∧ 0 < mat.wt j then (mat.R j).map (· ++ [some i])
            else mat.R j) = mat.R := by
          funext j
          refine if_neg ?_
          rintro ⟨hj, hpos⟩
          rw [hj] at hpos
          omega
        simp [entered, hR, hheavy]
      · cases hentries : mat.R a with
        | none => simp [hentries] at hstep
        | some entries =>
          simp only [hentries, some_bind] at hstep
          split_ifs at hstep with hroom
          obtain ⟨rfl, rfl, rfl⟩ : _ = mat₁ ∧ _ = buf₁ ∧ _ = nbHeavy₁ := by simpa using hstep
          refine ⟨?_, by simp [hheavy], by simp, by omega⟩
          have hR : (fun j => if j = a ∧ 0 < mat.wt j then (mat.R j).map (· ++ [some i])
              else mat.R j) = update mat.R a (some (entries ++ [some i])) := by
            funext j
            by_cases hj : j = a
            · subst hj
              simp [hpos, hentries]
            · simp [hj]
          simp [entered, hR, hheavy]
      · obtain ⟨rfl, rfl, rfl⟩ : _ = mat₁ ∧ _ = buf₁ ∧ _ = nbHeavy₁ := by simpa using hstep
        refine ⟨?_, by simp [hheavy], by simp, by omega⟩
        have hR : (fun j => if j = a ∧ 0 < mat.wt j then (mat.R j).map (· ++ [some i])
            else mat.R j) = mat.R := by
          funext j
          refine if_neg ?_
          rintro ⟨hj, hpos'⟩
          rw [hj] at hpos'
          exact hpos hpos'
        simp [entered, hR, hheavy]
    obtain ⟨rfl, rfl, rfl, hlt⟩ := hone
    obtain ⟨rfl, rfl, rfl, hlts⟩ := @ih (entered tooheavy i mat [a]) _ _ hnodup htoo hrun
    refine ⟨?_, ?_, ?_, List.forall_mem_cons.mpr ⟨hlt, hlts⟩⟩
    · have hR : (fun j => if j ∈ cols ∧ 0 < mat.wt j then
            (if j ∈ [a] ∧ 0 < mat.wt j then (mat.R j).map (· ++ [some i]) else mat.R j).map
              (· ++ [some i])
          else if j ∈ [a] ∧ 0 < mat.wt j then (mat.R j).map (· ++ [some i]) else mat.R j)
          = fun j => if j ∈ a :: cols ∧ 0 < mat.wt j then (mat.R j).map (· ++ [some i])
            else mat.R j := by
        funext j
        by_cases hja : j = a
        · subst hja
          simp [hacols]
        · simp [hja]
      simp only [entered, hR, update_self, update_idem, List.length_cons,
        List.length_nil, List.countP_cons, List.countP_nil]
      push_cast
      congr 1
      · congr 1
        ring
      · ring
    · rw [List.append_assoc, ← List.filter_append, List.singleton_append]
    · simp only [entered, List.countP_cons, List.countP_nil]
      omega

/-- What is known after the rows `done` were read. -/
structure ReadRows (tooheavy : ℕ → Bool) (mat₀ : FilterMatrix) (done : List (List ℕ))
    (mat : FilterMatrix) : Prop where
  same : mat = { mat₀ with
    rows := mat.rows
    R := mat.R
    wburied := mat.wburied
    weight := mat.weight
    remNrows := mat.remNrows }
  entries : ∀ j, mat₀.A j ≠ none → mat.R j
    = some (((List.range done.length).filter fun i => j ∈ done.getD i []).map some)
  row : ∀ i row, mat.rows i = some row → i < done.length ∧ row.Pairwise (· < ·) ∧
    (∀ j, j ∈ row ↔ j ∈ done.getD i [] ∧ ¬ tooheavy j) ∧
    row.length + mat.wburied i = (done.getD i []).length
  null : ∀ i < done.length, mat.rows i = none → ∀ j ∈ done.getD i [], mat₀.wt j < 0
  wburied_eq : ∀ i, done.length ≤ i → mat.wburied i = 0
  weight_eq : mat.weight = ∑ i ∈ Finset.range done.length, ((done.getD i []).length : ℤ)
  remNrows_eq : mat.remNrows = mat₀.nrows - (done.countP fun cols => cols = [] : ℕ)

theorem getD_append_singleton_of_lt (h : i < done.length) :
    (done ++ [cols]).getD i [] = done.getD i [] := by
  rw [List.getD_eq_getElem?_getD, List.getD_eq_getElem?_getD, List.getElem?_append_left h]

theorem getD_append_singleton_length : (done ++ [cols]).getD done.length [] = cols := by
  simp

/-- Reading one more row keeps what the rows before it have built up. -/
theorem readRow_spec {mat₀ : FilterMatrix} (h : ReadRows tooheavy mat₀ done mat)
    (hnodup : cols.Nodup) (htoo : ∀ j, tooheavy j → mat₀.wt j < 0)
    (hpos : ∀ j ∈ cols, mat₀.A j ≠ none → 0 < mat₀.wt j)
    (hrun : readRow tooheavy (mat, lbuf) (cols, done.length) = some (mat', lbuf')) :
    ReadRows tooheavy mat₀ (done ++ [cols]) mat' := by
  have hwt : mat.wt = mat₀.wt := by rw [h.same]
  have hlast : (done ++ [cols]).getD done.length [] = cols := getD_append_singleton_length
  have hlength : (done ++ [cols]).length = done.length + 1 := List.length_append
  have hsum : ∑ i ∈ Finset.range (done.length + 1), (((done ++ [cols]).getD i []).length : ℤ)
      = ∑ i ∈ Finset.range done.length, ((done.getD i []).length : ℤ) + cols.length := by
    rw [Finset.sum_range_succ, hlast]
    congr 1
    refine Finset.sum_congr rfl fun i hi => ?_
    rw [getD_append_singleton_of_lt (Finset.mem_range.mp hi)]
  have hentries : ∀ j, (((List.range (done.length + 1)).filter
        fun i => j ∈ (done ++ [cols]).getD i []).map (some : ℕ → Option ℕ))
      = ((List.range done.length).filter fun i => j ∈ done.getD i []).map some
        ++ if j ∈ cols then [some done.length] else [] := by
    intro j
    rw [List.range_succ, List.filter_append, List.map_append]
    congr 1
    · congr 1
      refine List.filter_congr fun i hi => ?_
      rw [getD_append_singleton_of_lt (List.mem_range.mp hi)]
    · by_cases hj : j ∈ cols <;> simp [hj]
  have hcount : ((done ++ [cols]).countP fun cols => cols = [])
      = (done.countP fun cols => cols = []) + if cols = [] then 1 else 0 := by
    rw [List.countP_append, List.countP_singleton]
    simp
  -- what does not depend on whether the row is kept
  have hmain : ∀ (mat' : FilterMatrix) (new : Option (List ℕ)),
      mat' = { entered tooheavy done.length mat cols with
        rows := update mat.rows done.length new
        remNrows := mat.remNrows - if cols = [] then 1 else 0 } →
      (∀ row, new = some row → row.Pairwise (· < ·) ∧
        (∀ j, j ∈ row ↔ j ∈ cols ∧ ¬ tooheavy j) ∧
        row.length + cols.countP tooheavy = cols.length) →
      (new = none → ∀ j ∈ cols, mat₀.wt j < 0) →
      ReadRows tooheavy mat₀ (done ++ [cols]) mat' := by
    rintro mat' new rfl hsome hnone
    refine ⟨?_, fun j hj => ?_, fun i row hi => ?_, fun i hi hnull => ?_, fun i hi => ?_, ?_, ?_⟩
    · rw [entered, h.same]
    · rw [hlength, hentries]
      simp only [entered, hwt]
      by_cases hjcols : j ∈ cols
      · rw [if_pos ⟨hjcols, hpos j hjcols hj⟩, h.entries j hj, if_pos hjcols]
        rfl
      · rw [if_neg fun hc => hjcols hc.1, h.entries j hj, if_neg hjcols, List.append_nil]
    · rw [hlength]
      by_cases hil : i = done.length
      · subst hil
        simp only [update_self] at hi
        obtain ⟨hpairwise, hmem, hweight⟩ := hsome row hi
        rw [hlast]
        refine ⟨by omega, hpairwise, hmem, ?_⟩
        simp only [entered, update_self, h.wburied_eq _ le_rfl, zero_add]
        exact hweight
      · simp only [update_of_ne hil] at hi
        obtain ⟨hlt, hrest⟩ := h.row i row hi
        rw [getD_append_singleton_of_lt hlt]
        simp only [entered, update_of_ne hil]
        exact ⟨by omega, hrest⟩
    · rw [hlength] at hi
      by_cases hil : i = done.length
      · subst hil
        simp only [update_self] at hnull
        rw [hlast]
        exact hnone hnull
      · simp only [update_of_ne hil] at hnull
        rw [getD_append_singleton_of_lt (by omega)]
        exact h.null i (by omega) hnull
    · rw [hlength] at hi
      simp only [entered, update_of_ne (show i ≠ done.length by omega)]
      exact h.wburied_eq i (by omega)
    · rw [hlength, hsum, ← h.weight_eq]
      rfl
    · rw [hcount, h.remNrows_eq]
      split_ifs <;> push_cast <;> ring
  simp only [readRow] at hrun
  split_ifs at hrun with hnrows hempty
  · -- an empty row
    obtain ⟨rfl, -⟩ : _ = mat' ∧ _ = lbuf' := by simpa using hrun
    refine hmain _ none ?_ (by simp) fun _ j hj => by simp [hempty] at hj
    simp [entered, hempty]
  · obtain ⟨room, -, hrun⟩ := Option.bind_eq_some_iff.mp hrun
    obtain ⟨⟨mat₁, buf, nbHeavy⟩, hread, hrun⟩ := Option.bind_eq_some_iff.mp hrun
    obtain ⟨rfl, rfl, rfl, hlt⟩ := readEntries_spec hnodup (fun j hj => by
      rw [hwt]
      exact htoo j hj) hread
    rw [if_neg hempty, sub_zero] at hmain
    split_ifs at hrun with hheavy hdup
    · -- a row with heavy columns only
      obtain ⟨rfl, -⟩ : _ = mat' ∧ _ = lbuf' := by simpa using hrun
      refine hmain _ none rfl (by simp) fun _ j hj => ?_
      rw [zero_add, List.countP_eq_length] at hheavy
      have hneg := hheavy j hj
      rw [hwt] at hneg
      simpa using hneg
    · -- the row is kept
      have hsome : ∀ row, some ((cols.filter fun j => !tooheavy j).insertionSort (· ≤ ·)) = some row →
          row.Pairwise (· < ·) ∧ (∀ j, j ∈ row ↔ j ∈ cols ∧ ¬ tooheavy j) ∧
            row.length + cols.countP tooheavy = cols.length := by
        intro row hrow
        obtain rfl := Option.some.inj hrow
        have hperm := List.perm_insertionSort (· ≤ ·) (cols.filter fun j => !tooheavy j)
        refine ⟨pairwise_insertionSort (hnodup.filter _), fun j => ?_, ?_⟩
        · rw [hperm.mem_iff, List.mem_filter]
          simp
        · rw [hperm.length_eq, ← List.countP_eq_length_filter, add_comm,
            List.length_eq_countP_add_countP tooheavy (l := cols)]
          congr 1
          exact List.countP_congr fun j _ => by simp
      obtain ⟨rfl, -⟩ : _ = mat' ∧ _ = lbuf' := by simpa using hrun
      exact hmain _ _ rfl hsome fun hnone => absurd hnone (by simp)

theorem readRows_spec {mat₀ : FilterMatrix} {rest : List (List ℕ)}
    (h : ReadRows tooheavy mat₀ done mat) (hnodup : ∀ cols ∈ rest, cols.Nodup)
    (htoo : ∀ j, tooheavy j → mat₀.wt j < 0)
    (hpos : ∀ cols ∈ rest, ∀ j ∈ cols, mat₀.A j ≠ none → 0 < mat₀.wt j)
    (hrun : (rest.zipIdx done.length).foldlM (readRow tooheavy) (mat, lbuf) = some (mat', lbuf')) :
    ReadRows tooheavy mat₀ (done ++ rest) mat' := by
  induction rest generalizing done mat lbuf with
  | nil =>
    obtain ⟨rfl, rfl⟩ : mat = mat' ∧ lbuf = lbuf' := by simpa using hrun
    rw [List.append_nil]
    exact h
  | cons cols rest ih =>
    obtain ⟨hcols, hnodup⟩ := List.forall_mem_cons.mp hnodup
    obtain ⟨hposcols, hpos⟩ := List.forall_mem_cons.mp hpos
    rw [List.zipIdx_cons, List.foldlM_cons] at hrun
    obtain ⟨⟨mat₁, lbuf₁⟩, hstep, hrun⟩ := Option.bind_eq_some_iff.mp hrun
    have h₁ := readRow_spec h hcols htoo hposcols hstep
    rw [show done.length + 1 = (done ++ [cols]).length by simp] at hrun
    have hall := ih h₁ hnodup hpos hrun
    rwa [List.append_assoc, List.singleton_append] at hall

end Read

/-! ## The matrix that was read -/

/-- A column that is counted in `wburied` only. -/
def Buried (purged : List (List ℕ)) (cwmax j : ℕ) : Prop :=
  cwmax < fileWeight purged j ∧ purged.length / 2000 < fileWeight purged j

/-- The matrix with which `merge` starts. -/
structure Start (purged : List (List ℕ)) (ncols cwmax : ℕ) (mat : FilterMatrix) : Prop where
  nrows_eq : mat.nrows = purged.length
  ncols_eq : mat.ncols = ncols
  cwmax_eq : mat.cwmax = cwmax
  remNcols_eq : mat.remNcols = ncols
  remNrows_eq : mat.remNrows = purged.length - (purged.countP fun cols => cols = [] : ℕ)
  inv : Inv (∑ i ∈ (Finset.range purged.length).filter fun i => mat.rows i = none,
    ((purged.getD i []).length : ℤ)) mat
  kind_eq : ∀ j, mat.kind j = if ncols ≤ j then .removed
    else if fileWeight purged j ≤ cwmax then .active else .heavy
  wt_eq : ∀ j, fileWeight purged j ≤ cwmax → mat.wt j = fileWeight purged j
  row : ∀ i row, mat.rows i = some row →
    ∀ j, j ∈ row ↔ j ∈ purged.getD i [] ∧ ¬ Buried purged cwmax j
  null : ∀ i < purged.length, mat.rows i = none →
    ∀ j ∈ purged.getD i [], cwmax < fileWeight purged j

section Start

variable {purged : List (List ℕ)} {ncols cwmax : ℕ} {rwmax keep : ℤ} {mat : FilterMatrix}

theorem fileWeight_pos {cols : List ℕ} {j : ℕ} (hcols : cols ∈ purged) (hj : j ∈ cols) :
    0 < fileWeight purged j := by
  rw [fileWeight, List.countP_pos_iff]
  exact ⟨cols, hcols, by simpa using hj⟩

theorem fileWeight_eq_zero (hpurged : ∀ cols ∈ purged, ∀ j ∈ cols, j < ncols) {j : ℕ}
    (hj : ncols ≤ j) : fileWeight purged j = 0 := by
  rw [fileWeight, List.countP_eq_zero]
  intro cols hcols hmem
  have hlt := hpurged cols hcols j (by simpa using hmem)
  omega

theorem fileWeight_eq_card (purged : List (List ℕ)) (j : ℕ) :
    fileWeight purged j
      = ((Finset.range purged.length).filter fun i => j ∈ purged.getD i []).card := by
  induction purged using List.reverseRecOn with
  | nil => simp [fileWeight]
  | append_singleton purged cols ih =>
    have hrest : (Finset.range purged.length).filter (fun i => j ∈ (purged ++ [cols]).getD i [])
        = (Finset.range purged.length).filter fun i => j ∈ purged.getD i [] := by
      refine Finset.filter_congr fun i hi => ?_
      rw [getD_append_singleton_of_lt (Finset.mem_range.mp hi)]
    rw [fileWeight, List.countP_append, ← fileWeight, ih, List.length_append, List.length_singleton,
      Finset.range_add_one, Finset.filter_insert, getD_append_singleton_length, hrest,
      List.countP_singleton]
    by_cases hj : j ∈ cols
    · rw [if_pos (by simpa using hj), if_pos hj, Finset.card_insert_of_notMem (by simp)]
    · rw [if_neg (by simpa using hj), if_neg hj, add_zero]

variable (cwmax rwmax keep) in
theorem filled_start (hpurged : ∀ cols ∈ purged, cols.Nodup ∧ ∀ j ∈ cols, j < ncols) :
    ∃ mat, fillmat (initSWAR (filterMatrixReadWeights
        (initMat purged.length ncols cwmax rwmax keep) purged)) = some mat ∧
      Filled (fileWeight purged) ncols mat ∧
      OnlyColumns { initMat purged.length ncols cwmax rwmax keep with S := mat.S } mat := by
  set mat₁ := filterMatrixReadWeights (initMat purged.length ncols cwmax rwmax keep) purged
    with hmat₁
  have hwt : ∀ j, mat₁.wt j = fileWeight purged j := fun j => wt_readWeights hpurged fun _ => rfl
  obtain ⟨hlisted, S, heap, hinit⟩ := listed_initSWAR mat₁ rfl fun _ => rfl
  have hfilled : Filled (fileWeight purged) 0 (initSWAR mat₁) := by
    rw [hinit] at hlisted ⊢
    refine ⟨⟨_, hlisted⟩, fun j => ?_, fun j => ?_, fun j hj => absurd rfl hj⟩
    · exact ⟨fun h => absurd rfl h, fun h => by omega⟩
    · rw [if_neg (by omega)]
      exact hwt j
  obtain ⟨mat, hrun, hfilled', honly⟩ := fillmat_spec hfilled
  rw [hinit] at hfilled' honly
  refine ⟨mat, hrun, hfilled', ?_⟩
  rw [OnlyColumns] at honly ⊢
  rw [honly, hmat₁]
  rfl

theorem Filled.wt_file (hfilled : Filled (fileWeight purged) ncols mat)
    (hpurged : ∀ cols ∈ purged, ∀ j ∈ cols, j < ncols) (hcwmax : mat.cwmax = cwmax) {j : ℕ} :
    mat.wt j = if cwmax < fileWeight purged j then -(fileWeight purged j : ℤ)
      else fileWeight purged j := by
  rw [hfilled.wt_eq j, hcwmax]
  by_cases hj : j < ncols
  · simp [hj]
  · have hzero := fileWeight_eq_zero hpurged (Nat.le_of_not_lt hj)
    simp [hzero]

theorem lt_wmax_iff {j : ℕ} :
    (if cwmax < fileWeight purged j then -(fileWeight purged j : ℤ) else fileWeight purged j)
      < -((purged.length / 2000 : ℕ) : ℤ) ↔ Buried purged cwmax j := by
  rw [Buried]
  split_ifs <;> omega

theorem readRows_nil (tooheavy : ℕ → Bool) (hfilled : Filled (fileWeight purged) ncols mat)
    (honly : OnlyColumns { initMat purged.length ncols cwmax rwmax keep with S := mat.S } mat) :
    ReadRows tooheavy { mat with
      remNrows := mat.nrows
      weight := 0
      nburied := (List.range mat.ncols).countP tooheavy } [] { mat with
      remNrows := mat.nrows
      weight := 0
      nburied := (List.range mat.ncols).countP tooheavy } := by
  have hrows : ∀ i, mat.rows i = none := fun i => by rw [honly]; rfl
  refine ⟨rfl, fun j hj => hfilled.entries j hj, fun i row hi => ?_, by simp, fun i _ => ?_, rfl,
    by simp⟩
  · rw [hrows i] at hi
    exact absurd hi (by simp)
  · rw [honly]
    rfl

/-- The columns and rows of the matrix are those of the file, without the entries of buried
columns. -/
structure FileMatrix (purged : List (List ℕ)) (ncols cwmax : ℕ) (mat : FilterMatrix) : Prop where
  nrows_eq : mat.nrows = purged.length
  ncols_eq : mat.ncols = ncols
  cwmax_eq : mat.cwmax = cwmax
  range : ∀ cols ∈ purged, ∀ j ∈ cols, j < ncols
  wt : ∀ j, mat.wt j = if cwmax < fileWeight purged j then -(fileWeight purged j : ℤ)
    else fileWeight purged j
  active : ∀ j, mat.A j ≠ none ↔ j < ncols ∧ fileWeight purged j ≤ cwmax
  row : ∀ i row, mat.rows i = some row → i < purged.length ∧ row.Pairwise (· < ·) ∧
    (∀ j, j ∈ row ↔ j ∈ purged.getD i [] ∧ ¬ Buried purged cwmax j) ∧
    row.length + mat.wburied i = (purged.getD i []).length
  null : ∀ i < purged.length, mat.rows i = none →
    ∀ j ∈ purged.getD i [], cwmax < fileWeight purged j

namespace FileMatrix

variable (h : FileMatrix purged ncols cwmax mat)
include h

theorem kind_eq (j : ℕ) : mat.kind j = if ncols ≤ j then .removed
    else if fileWeight purged j ≤ cwmax then .active else .heavy := by
  by_cases hj : ncols ≤ j
  · have hzero := fileWeight_eq_zero h.range hj
    have hA : mat.A j = none := by
      by_contra hne
      have hlt := ((h.active j).mp hne).1
      omega
    rw [if_pos hj, kind_eq_removed_iff, h.wt, hzero]
    exact ⟨hA, by simp⟩
  · rw [if_neg hj]
    split_ifs with hlight
    · exact kind_eq_active_iff.mpr ((h.active j).mpr ⟨by omega, hlight⟩)
    · have hA : mat.A j = none := by
        by_contra hne
        exact hlight ((h.active j).mp hne).2
      rw [kind_eq_heavy_iff, h.wt, if_pos (by omega)]
      exact ⟨hA, by omega⟩

theorem mem_file {i j : ℕ} {row : List ℕ} (hi : mat.rows i = some row) (hj : j ∈ row) :
    j < ncols ∧ 0 < fileWeight purged j := by
  obtain ⟨hlt, -, hmem, -⟩ := h.row i row hi
  have hin := ((hmem j).mp hj).1
  rw [List.getD_eq_getElem?_getD, List.getElem?_eq_getElem hlt, Option.getD_some] at hin
  exact ⟨h.range _ (List.getElem_mem hlt) j hin, fileWeight_pos (List.getElem_mem hlt) hin⟩

theorem cells_eq {j : ℕ} (hA : mat.A j ≠ none) :
    mat.cells j = (Finset.range purged.length).filter fun i => j ∈ purged.getD i [] := by
  obtain ⟨-, hlight⟩ := (h.active j).mp hA
  rw [FilterMatrix.cells, h.nrows_eq]
  refine Finset.filter_congr fun i hi => ?_
  cases hrowi : mat.rows i with
  | none =>
    have hno : j ∉ purged.getD i [] := fun hj => by
      have hheavy := h.null i (Finset.mem_range.mp hi) hrowi j hj
      omega
    rw [FilterMatrix.row, hrowi]
    simpa using hno
  | some row =>
    rw [FilterMatrix.row_eq hrowi, (h.row i row hrowi).2.2.1 j, Buried]
    exact ⟨And.left, fun hj => ⟨hj, fun hb => by omega⟩⟩

end FileMatrix

/-- `readMatrix` gives the matrix with which `merge` starts. -/
theorem start_readMatrix (hpurged : ∀ cols ∈ purged, cols.Nodup ∧ ∀ j ∈ cols, j < ncols)
    (hread : readMatrix purged ncols cwmax rwmax keep = some mat) :
    Start purged ncols cwmax mat := by
  obtain ⟨mat₁, hfill, hfilled, honly⟩ := filled_start cwmax rwmax keep hpurged
  simp only [readMatrix, hfill, some_bind, filterMatrixRead] at hread
  obtain ⟨⟨mat₂, lbuf⟩, hrun, hmat⟩ := Option.bind_eq_some_iff.mp hread
  obtain rfl : { mat₂ with remNcols := mat₂.ncols } = mat := Option.some.inj hmat
  have hrange : ∀ cols ∈ purged, ∀ j ∈ cols, j < ncols := fun cols hcols => (hpurged cols hcols).2
  have hnrows : mat₁.nrows = purged.length := by rw [honly]; rfl
  have hcwmax : mat₁.cwmax = cwmax := by rw [honly]; rfl
  have hwt : ∀ j, mat₁.wt j = if cwmax < fileWeight purged j then -(fileWeight purged j : ℤ)
      else fileWeight purged j := fun j => hfilled.wt_file hrange hcwmax
  set tooheavy : ℕ → Bool := fun j => decide (mat₁.wt j < -((mat₁.nrows / 2000 : ℕ) : ℤ))
    with htooheavy
  have hburied : ∀ j, tooheavy j ↔ Buried purged cwmax j := by
    intro j
    rw [htooheavy, decide_eq_true_iff, hwt, hnrows]
    exact lt_wmax_iff
  have h := readRows_spec (readRows_nil tooheavy hfilled honly)
    (fun cols hcols => (hpurged cols hcols).1)
    (fun j hj => by
      have hcw := ((hburied j).mp hj).1
      simp only [hwt j, if_pos hcw]
      omega)
    (fun cols hcols j hj hA => by
      have hlight := ((hfilled.active j).mp hA).2
      have hpos := fileWeight_pos hcols hj
      simp only [hwt j]
      split_ifs <;> omega) hrun
  rw [List.nil_append] at h
  set mat₃ : FilterMatrix := { mat₂ with remNcols := mat₂.ncols } with hmat₃
  have hsame := h.same
  have hA₃ : mat₃.A = mat₁.A := by rw [hmat₃, hsame]
  have hfile : FileMatrix purged ncols cwmax mat₃ := by
    refine ⟨by rw [hmat₃, hsame]; exact hnrows, by rw [hmat₃, hsame, honly]; rfl,
      by rw [hmat₃, hsame]; exact hcwmax, hrange, by rw [hmat₃, hsame]; exact hwt, fun j => ?_,
      fun i row hi => ?_, fun i hi hnone j hj => ?_⟩
    · rw [hA₃, hfilled.active j, hcwmax]
    · obtain ⟨hlt, hpairwise, hmem, hlength⟩ := h.row i row hi
      exact ⟨hlt, hpairwise, fun j => by rw [hmem j, hburied], hlength⟩
    · have hneg : mat₁.wt j < 0 := h.null i hi hnone j hj
      rw [hwt] at hneg
      by_contra hle
      rw [if_neg hle] at hneg
      omega
  refine ⟨hfile.nrows_eq, hfile.ncols_eq, hfile.cwmax_eq, ?_, ?_, ⟨⟨?_, ?_, ?_, ?_, ?_⟩, ?_, ?_, ?_,
    ?_, ?_⟩, hfile.kind_eq, ?_, fun i row hi => (hfile.row i row hi).2.2.1, hfile.null⟩
  · exact congrArg (Nat.cast : ℕ → ℤ) hfile.ncols_eq
  · rw [← hnrows]
    exact h.remNrows_eq
  · obtain ⟨lists, hlisted⟩ := hfilled.listed
    refine ⟨lists, ?_⟩
    rw [hmat₃, hsame]
    exact hlisted
  · intro j hA
    rw [hfile.ncols_eq]
    exact ((hfile.active j).mp hA).1
  · intro j hA
    rw [hfile.cells_eq hA, ← fileWeight_eq_card, hfile.wt, if_neg]
    exact Nat.not_lt.mpr ((hfile.active j).mp hA).2
  · intro j hA
    refine ⟨_, h.entries j (by rw [hA₃] at hA; exact hA), ?_⟩
    have hlive : liveRows (((List.range purged.length).filter fun i => j ∈ purged.getD i []).map
        some) = (List.range purged.length).filter fun i => j ∈ purged.getD i [] := by
      rw [liveRows, List.filterMap_map]
      exact List.filterMap_some
    rw [hlive, hfile.cells_eq hA]
    exact ⟨List.nodup_range.filter _, fun i => by simp⟩
  · intro j hA
    rw [hfile.wt]
    split_ifs with hheavy
    · omega
    · have hge : ncols ≤ j := by
        by_contra hlt
        exact (hfile.active j).mpr ⟨by omega, by omega⟩ hA
      rw [fileWeight_eq_zero hrange hge]
      rfl
  · intro i hi
    obtain ⟨row, hrowi⟩ := Option.ne_none_iff_exists'.mp hi
    rw [hfile.nrows_eq]
    exact (hfile.row i row hrowi).1
  · exact fun i row hi => (hfile.row i row hi).2.1
  · intro i row hi j hj
    have hlt := (hfile.mem_file hi hj).1
    rw [hfile.kind_eq, if_neg (by omega)]
    split_ifs <;> simp
  · intro hzero i row hi j hj
    obtain ⟨hlt, hpos⟩ := hfile.mem_file hi hj
    rw [hfile.cwmax_eq] at hzero
    rw [hfile.kind_eq, if_neg (by omega), if_neg (by omega)]
    simp
  · have hweight : mat₃.weight
        = ∑ i ∈ Finset.range purged.length, ((purged.getD i []).length : ℤ) := h.weight_eq
    rw [hweight, hfile.nrows_eq, Finset.sum_filter, ← Finset.sum_add_distrib]
    refine Finset.sum_congr rfl fun i _ => ?_
    cases hrowi : mat₃.rows i with
    | none => simp [rowWeight]
    | some row =>
      have hlength := (hfile.row i row hrowi).2.2.2
      simp only [rowWeight, reduceCtorEq, if_false, zero_add]
      rw [← hlength]
      push_cast
      rfl
  · intro j hlight
    rw [hfile.wt, if_neg (by omega)]

end Start

end CadoNfs.Merge
