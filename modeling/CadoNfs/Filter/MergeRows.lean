import CadoNfs.Filter.FilterMatrix
import Mathlib.Algebra.BigOperators.Group.Finset.Basic

/-!
# Rows of the matrix of merge

The operations of `merge` on one row: it is replaced by its sum with another row, or it is
removed.  Whatever they do to a row, they do to the columns as well.

Main results:

- Theorem `addRowsAndUpdate_spec`: a row is added to another one.
- Theorem `removeRow_spec`: a row is destroyed.
- Theorem `removeSingletons_spec`: the columns of weight 1 are removed with their rows.
- Theorem `deleteHeavyColumns_spec`: the columns that have become heavy are put aside.
-/

namespace CadoNfs.Merge

open Function (update update_apply update_idem update_of_ne update_self)
open DoublyLinked SortedXor
open Option (getD_none getD_some ne_none_iff_exists')
open Finset (card_eq_zero mem_range range)

/-! ## The history -/

/-- The lines of the history file. -/
abbrev Report := List (List Char)

/-- A number as `fprintf` writes it. -/
def printInt (x : ℤ) : List Char :=
  if x < 0 then '-' :: Nat.toDigits 10 (-x).toNat else Nat.toDigits 10 x.toNat

/-- A line with the numbers `ind`. -/
def reportLine : List ℤ → List Char
  | [] => ['\n']
  | [x] => printInt x ++ ['\n']
  | x :: ind => printInt x ++ ' ' :: reportLine ind

/-- `reportn` for a report of type 0. -/
def reportn (rep : Report) (ind : List ℤ) : Report :=
  rep ++ [reportLine ind]

/-- `report1`. -/
def report1 (rep : Report) (i : ℤ) : Report :=
  reportn rep [i]

/-! ## Rows -/

/-- `addRows`.  There must be room for the sum if its length, an `int`, is given. -/
def addRows (rows : ℕ → Option (List ℕ)) (i1 i2 : ℕ) (len : ℤ) : Option (ℕ → Option (List ℕ)) := do
  let row1 ← rows i1
  let row2 ← rows i2
  let tmp := xorMerge row1 row2
  if len ≠ -1 ∧ len ≠ tmp.length then none
  else some (update rows i1 (some tmp))

/-- `removeRowAndUpdate`. -/
def removeRowAndUpdate (mat : FilterMatrix) (i : ℕ) : Option FilterMatrix := do
  let row ← mat.rows i
  row.foldlM (fun mat j => removeCellAndUpdate mat i j)
    { mat with weight := mat.weight - (row.length + mat.wburied i) }

/-- `addOneRowAndUpdate`. -/
def addOneRowAndUpdate (mat : FilterMatrix) (i : ℕ) : Option FilterMatrix := do
  let row ← mat.rows i
  row.foldlM (fun mat j => addCellAndUpdate mat i j)
    { mat with weight := mat.weight + (row.length + mat.wburied i) }

/-- `addRowsAndUpdate`. -/
def addRowsAndUpdate (mat : FilterMatrix) (i1 i2 : ℕ) (len : ℤ) : Option FilterMatrix := do
  let mat ← removeRowAndUpdate mat i1
  let rows ← addRows mat.rows i1 i2 len
  addOneRowAndUpdate { mat with rows := rows } i1

/-- `removeRowDefinitely`. -/
def removeRowDefinitely (rep : Report) (mat : FilterMatrix) (i : ℕ) :
    Option (Report × FilterMatrix) := do
  let mat ← removeRowAndUpdate mat i
  return (report1 rep i, { destroyRow mat i with remNrows := mat.remNrows - 1 })

/-! ## Columns -/

/-- `removeColDefinitely`. -/
def removeColDefinitely (rep : Report) (mat : FilterMatrix) (j : ℕ) :
    Option (Report × FilterMatrix) := do
  let entries ← mat.R j
  let (rep, mat) ← (List.range entries.length).foldlM (fun (state : Report × FilterMatrix) k => do
    let (rep, mat) := state
    let entries ← mat.R j
    match ← entries[k]? with
    | none => some (rep, mat)
    | some i => do
      let mat ← removeJFromRow mat i j
      let (rep, mat) ← removeRowDefinitely rep mat i
      some (rep, { mat with remNcols := mat.remNcols - 1 })) (rep, mat)
  return (rep, { mat with wt := update mat.wt j 0 })

/-- The loop of `deleteAllColsFromStack`, for at most `fuel` columns. -/
def deleteCols (iS : ℕ) : ℕ → Report → FilterMatrix → ℤ → Option (Report × FilterMatrix × ℤ)
  | 0, _, _, _ => none
  | fuel + 1, rep, mat, njrem => do
    let dcl ← mat.stack iS
    match ← dclistFirst mat.heap dcl with
    | none => some (rep, mat, njrem)
    | some dcl => do
      let j ← columnAt mat.heap dcl
      let mat := if iS = 0 then { mat with remNcols := mat.remNcols - 1 } else mat
      let (rep, mat) ← if iS = 1 then removeColDefinitely rep mat j else some (rep, mat)
      let k := mat.wt j
      let mat ← removeColumnAndUpdate mat j
      deleteCols iS fuel rep { mat with wt := update mat.wt j (-k) } (njrem + 1)

/-- `deleteAllColsFromStack`.  A column leaves its stack only once. -/
def deleteAllColsFromStack (rep : Report) (mat : FilterMatrix) (iS : ℕ) :
    Option (Report × FilterMatrix × ℤ) :=
  deleteCols iS (mat.ncols + 1) rep mat 0

/-- `removeSingletons`. -/
def removeSingletons (rep : Report) (mat : FilterMatrix) : Option (Report × FilterMatrix × ℤ) :=
  deleteAllColsFromStack rep mat 1

/-- `deleteHeavyColumns`. -/
def deleteHeavyColumns (rep : Report) (mat : FilterMatrix) : Option (Report × FilterMatrix × ℤ) :=
  deleteAllColsFromStack rep mat (mat.cwmax + 1)

/-! ## Rows and columns together -/

/-- A row; `NULL` means empty. -/
def FilterMatrix.row (mat : FilterMatrix) (i : ℕ) : List ℕ :=
  (mat.rows i).getD []

/-- The rows of a column. -/
def FilterMatrix.cells (mat : FilterMatrix) (j : ℕ) : Finset ℕ :=
  (range mat.nrows).filter fun i => j ∈ mat.row i

/-- What a row adds to the weight of the matrix. -/
def rowWeight (row : Option (List ℕ)) (buried : ℕ) : ℤ :=
  match row with
  | none => 0
  | some row => row.length + buried

/-- What holds between two operations.  The weight also counts `dropped` cells, of rows
that were dropped when the matrix was read. -/
structure Inv (dropped : ℤ) (mat : FilterMatrix) : Prop where
  columns : Columns mat mat.cells
  lt_nrows : ∀ i, mat.rows i ≠ none → i < mat.nrows
  increasing : ∀ i row, mat.rows i = some row → row.Pairwise (· < ·)
  kind_ne : ∀ i row, mat.rows i = some row → ∀ j ∈ row, mat.kind j ≠ .removed
  not_active : mat.cwmax = 0 → ∀ i row, mat.rows i = some row → ∀ j ∈ row, mat.kind j ≠ .active
  weight_eq : mat.weight
    = dropped + ∑ i ∈ range mat.nrows, rowWeight (mat.rows i) (mat.wburied i)

section Rows

variable {dropped : ℤ} {mat mat' : FilterMatrix} {i i1 i2 j : ℕ} {row row1 row2 : List ℕ}

theorem FilterMatrix.row_eq (h : mat.rows i = some row) : mat.row i = row := by
  rw [FilterMatrix.row, h, getD_some]

theorem FilterMatrix.mem_cells : i ∈ mat.cells j ↔ i < mat.nrows ∧ j ∈ mat.row i := by
  rw [FilterMatrix.cells, Finset.mem_filter, mem_range]

theorem FilterMatrix.cells_update (hi : i < mat.nrows) (new : Option (List ℕ)) (j : ℕ) :
    FilterMatrix.cells { mat with rows := update mat.rows i new } j
      = if j ∈ new.getD [] then insert i ((mat.cells j).erase i) else (mat.cells j).erase i := by
  ext k
  have hrow : FilterMatrix.row { mat with rows := update mat.rows i new } k
      = if k = i then new.getD [] else mat.row k := by
    simp only [FilterMatrix.row, update_apply]
    split_ifs <;> rfl
  rw [FilterMatrix.mem_cells, hrow]
  by_cases hk : k = i
  · subst hk
    by_cases hj : j ∈ new.getD [] <;> simp [hj, hi]
  · by_cases hj : j ∈ new.getD [] <;> simp [hj, hk, FilterMatrix.mem_cells]

section

variable (h : Inv dropped mat)
include h

/-- Replacing one row keeps the invariant when its cells and weights follow. -/
theorem Inv.setRow (hi : i < mat.nrows) {new : Option (List ℕ)}
    (hcols : Columns mat' mat'.cells) (hrows : mat'.rows = update mat.rows i new)
    (hnrows : mat'.nrows = mat.nrows) (hcwmax : mat'.cwmax = mat.cwmax)
    (hwburied : mat'.wburied = mat.wburied)
    (hkind : ∀ k row, mat'.rows k = some row → ∀ j ∈ row, mat'.kind j = mat.kind j)
    (hnew : ∀ row, new = some row → row.Pairwise (· < ·) ∧ (∀ j ∈ row, mat.kind j ≠ .removed) ∧
      (mat.cwmax = 0 → ∀ j ∈ row, mat.kind j ≠ .active))
    (hweight : mat'.weight
      = mat.weight - rowWeight (mat.rows i) (mat.wburied i) + rowWeight new (mat.wburied i)) :
    Inv dropped mat' where
  columns := hcols
  lt_nrows k hk := by
    rw [hnrows]
    by_cases hki : k = i
    · rw [hki]
      exact hi
    · rw [hrows, update_of_ne hki] at hk
      exact h.lt_nrows k hk
  increasing k row hk := by
    by_cases hki : k = i
    · rw [hrows, hki, update_self] at hk
      exact (hnew row hk).1
    · rw [hrows, update_of_ne hki] at hk
      exact h.increasing k row hk
  kind_ne k row hk j hj := by
    rw [hkind k row hk j hj]
    by_cases hki : k = i
    · rw [hrows, hki, update_self] at hk
      exact (hnew row hk).2.1 j hj
    · rw [hrows, update_of_ne hki] at hk
      exact h.kind_ne k row hk j hj
  not_active hzero k row hk j hj := by
    rw [hkind k row hk j hj]
    rw [hcwmax] at hzero
    by_cases hki : k = i
    · rw [hrows, hki, update_self] at hk
      exact (hnew row hk).2.2 hzero j hj
    · rw [hrows, update_of_ne hki] at hk
      exact h.not_active hzero k row hk j hj
  weight_eq := by
    have hmem := mem_range.mpr hi
    rw [hweight, h.weight_eq, hnrows, hwburied, hrows, ← Finset.add_sum_erase _ _ hmem,
      ← Finset.add_sum_erase _ (fun k => rowWeight (update mat.rows i new k) _) hmem]
    have hrest : ∑ k ∈ (range mat.nrows).erase i,
          rowWeight (update mat.rows i new k) (mat.wburied k)
        = ∑ k ∈ (range mat.nrows).erase i, rowWeight (mat.rows k) (mat.wburied k) := by
      refine Finset.sum_congr rfl fun k hk => ?_
      rw [update_of_ne (Finset.ne_of_mem_erase hk)]
    rw [hrest, update_self]
    ring

theorem removeRowAndUpdate_spec (hi : mat.rows i = some row) :
    ∃ mat', removeRowAndUpdate mat i = some mat' ∧
      Columns mat' (fun j => (mat.cells j).erase i) ∧ mat'.kind = mat.kind ∧
      OnlyColumns { mat with weight := mat.weight - (row.length + mat.wburied i) } mat' := by
  have hcols : Columns { mat with weight := mat.weight - (row.length + mat.wburied i) }
      mat.cells := ⟨h.columns.listed, h.columns.lt_ncols, h.columns.wt_eq, h.columns.entries,
    h.columns.inactive⟩
  have hlt := h.lt_nrows i (by simp [hi])
  obtain ⟨mat', hrun, hcols', hkind, -, honly⟩ := removeCells_spec (i := i) hcols
    (nodup_of_pairwise (h.increasing i row hi)) (h.kind_ne i row hi) fun j hj _ => by
      rw [FilterMatrix.mem_cells, FilterMatrix.row_eq hi]
      exact ⟨hlt, hj⟩
  refine ⟨mat', by rw [removeRowAndUpdate, hi]; exact hrun, hcols'.congr fun j _ => ?_, hkind,
    honly⟩
  split_ifs with hj
  · rfl
  · refine Finset.erase_eq_of_notMem fun hmem => hj ?_
    rw [FilterMatrix.mem_cells, FilterMatrix.row_eq hi] at hmem
    exact hmem.2

/-- A row is replaced by its sum with another one.  Other rows and the kinds of the columns
stay. -/
theorem addRowsAndUpdate_spec (h1 : mat.rows i1 = some row1)
    (h2 : mat.rows i2 = some row2) {len : ℤ}
    (hlen : len = -1 ∨ len = (xorMerge row1 row2).length) :
    ∃ mat', addRowsAndUpdate mat i1 i2 len = some mat' ∧ Inv dropped mat' ∧
      mat'.kind = mat.kind ∧
      OnlyColumns { mat with
        rows := update mat.rows i1 (some (xorMerge row1 row2))
        weight := mat'.weight } mat' := by
  have hlt := h.lt_nrows i1 (by simp [h1])
  obtain ⟨mat₁, hrun₁, hcols₁, hkind₁, honly₁⟩ := removeRowAndUpdate_spec h h1
  have hrows₁ : mat₁.rows = mat.rows := by rw [honly₁]
  have hpairwise := pairwise_xorMerge (h.increasing i1 row1 h1) (h.increasing i2 row2 h2)
  have hsum : ∀ j ∈ xorMerge row1 row2, mat.kind j ≠ .removed := by
    intro j hj
    rcases mem_of_mem_xorMerge hj with hj | hj
    · exact h.kind_ne i1 row1 h1 j hj
    · exact h.kind_ne i2 row2 h2 j hj
  have hheavy : mat.cwmax = 0 → ∀ j ∈ xorMerge row1 row2, mat.kind j ≠ .active := by
    intro hzero j hj
    rcases mem_of_mem_xorMerge hj with hj | hj
    · exact h.not_active hzero i1 row1 h1 j hj
    · exact h.not_active hzero i2 row2 h2 j hj
  set mat₂ : FilterMatrix := { mat₁ with
    rows := update mat₁.rows i1 (some (xorMerge row1 row2))
    weight := mat₁.weight + ((xorMerge row1 row2).length + mat₁.wburied i1) } with hmat₂
  have hcols₂ : Columns mat₂ fun j => (mat.cells j).erase i1 := ⟨hcols₁.listed, hcols₁.lt_ncols,
    hcols₁.wt_eq, hcols₁.entries, hcols₁.inactive⟩
  obtain ⟨mat', hrun₂, hcols', hkind₂, honly₂⟩ := addCells_spec (i := i1)
    (L := xorMerge row1 row2) hcols₂ (nodup_of_pairwise hpairwise)
    (fun j hj => by
      have hkind : mat₂.kind j = mat.kind j := congrFun hkind₁ j
      rw [hkind]
      exact hsum j hj)
    fun j _ => Finset.notMem_erase i1 _
  have hkind : mat'.kind = mat.kind := hkind₂.trans hkind₁
  have honly : OnlyColumns { mat with
      rows := update mat.rows i1 (some (xorMerge row1 row2))
      weight := mat'.weight } mat' := by
    rw [OnlyColumns] at honly₁ honly₂ ⊢
    rw [honly₂, hmat₂, honly₁]
  have hrun : addRowsAndUpdate mat i1 i2 len = some mat' := by
    have hadd : addRows mat₁.rows i1 i2 len
        = some (update mat₁.rows i1 (some (xorMerge row1 row2))) := by
      simp only [addRows, hrows₁, h1, h2, some_bind]
      rw [if_neg (by omega)]
    simp only [addRowsAndUpdate, hrun₁, hadd, some_bind, addOneRowAndUpdate, update_self]
    exact hrun₂
  have hrows : mat'.rows = update mat.rows i1 (some (xorMerge row1 row2)) := by
    rw [honly]
  have hcells : mat'.cells = FilterMatrix.cells { mat with
      rows := update mat.rows i1 (some (xorMerge row1 row2)) } := by
    rw [honly]
    rfl
  refine ⟨mat', hrun, h.setRow hlt (hcols'.congr fun j _ => ?_) hrows (by rw [honly])
    (by rw [honly]) (by rw [honly]) (fun _ _ _ _ _ => by rw [hkind]) (fun row hrow => ?_) ?_,
    hkind, honly⟩
  · rw [hcells, FilterMatrix.cells_update hlt, getD_some]
  · obtain rfl := Option.some.inj hrow
    exact ⟨hpairwise, hsum, hheavy⟩
  · have hweight₁ : mat₁.weight = mat.weight - (row1.length + mat.wburied i1) := by rw [honly₁]
    have hburied₁ : mat₁.wburied = mat.wburied := by rw [honly₁]
    have hweight₂ : mat'.weight = mat₂.weight := by rw [honly₂]
    rw [hweight₂, hmat₂, h1]
    simp [hweight₁, hburied₁, rowWeight]

/-- A row is destroyed. -/
theorem removeRow_spec (hi : mat.rows i = some row) :
    ∃ mat', removeRowAndUpdate mat i = some mat' ∧ Inv dropped (destroyRow mat' i) ∧
      mat'.kind = mat.kind ∧ OnlyColumns { mat with weight := mat'.weight } mat' := by
  have hlt := h.lt_nrows i (by simp [hi])
  obtain ⟨mat', hrun, hcols, hkind, honly⟩ := removeRowAndUpdate_spec h hi
  have hrows : mat'.rows = mat.rows := by rw [honly]
  have hcells : (destroyRow mat' i).cells
      = FilterMatrix.cells { mat with rows := update mat.rows i none } := by
    rw [destroyRow, honly]
    rfl
  have hweight : mat'.weight = mat.weight - (row.length + mat.wburied i) := by rw [honly]
  have hrows' : (destroyRow mat' i).rows = update mat.rows i none := by
    rw [← hrows]
    rfl
  refine ⟨mat', hrun, h.setRow hlt ⟨hcols.listed, hcols.lt_ncols, fun j hj => ?_, fun j hj => ?_,
    hcols.inactive⟩ hrows' (by rw [destroyRow, honly]) (by rw [destroyRow, honly])
    (by rw [destroyRow, honly]) (fun _ _ _ j _ => congrFun hkind j) (by simp) ?_, hkind, ?_⟩
  · rw [hcells, FilterMatrix.cells_update hlt, getD_none, if_neg List.not_mem_nil]
    exact hcols.wt_eq j hj
  · rw [hcells, FilterMatrix.cells_update hlt, getD_none, if_neg List.not_mem_nil]
    exact hcols.entries j hj
  · rw [hi]
    simp only [destroyRow, hweight, rowWeight]
    ring
  · rw [OnlyColumns, honly]

end

theorem removeRowDefinitely_spec (rep : Report) (h : Inv dropped mat) (hi : mat.rows i = some row) :
    ∃ mat', removeRowDefinitely rep mat i = some (report1 rep i, mat') ∧ Inv dropped mat' ∧
      mat'.kind = mat.kind ∧
      OnlyColumns { mat with
        rows := update mat.rows i none
        remNrows := mat.remNrows - 1
        weight := mat'.weight } mat' := by
  obtain ⟨mat₁, hrun, hinv, hkind, honly⟩ := removeRow_spec h hi
  have hrem : mat₁.remNrows = mat.remNrows := by rw [honly]
  refine ⟨{ destroyRow mat₁ i with remNrows := mat₁.remNrows - 1 }, ?_, ⟨⟨hinv.columns.listed,
    hinv.columns.lt_ncols, hinv.columns.wt_eq, hinv.columns.entries, hinv.columns.inactive⟩,
    hinv.lt_nrows, hinv.increasing, hinv.kind_ne, hinv.not_active, hinv.weight_eq⟩, hkind, ?_⟩
  · simp only [removeRowDefinitely, hrun, some_bind]
    rfl
  · rw [OnlyColumns, destroyRow, hrem, honly]

end Rows

/-! ## Singletons -/

section Singletons

variable {dropped : ℤ} {mat mat' : FilterMatrix} {i j a : ℕ} {row : List ℕ}

theorem foldlM_of_forall_eq {σ : Type} {f : σ → ℕ → Option σ} {L : List ℕ} {st : σ}
    (h : ∀ k ∈ L, f st k = some st) : L.foldlM f st = some st := by
  induction L with
  | nil => rfl
  | cons k L ih =>
    obtain ⟨hk, h⟩ := List.forall_mem_cons.mp h
    rw [List.foldlM_cons, hk]
    exact ih h

theorem foldlM_range_single {σ : Type} {f : σ → ℕ → Option σ} {n k : ℕ} (st : σ) {st' : σ}
    (hk : k < n)
    (hbefore : ∀ l < k, f st l = some st) (hstep : f st k = some st')
    (hafter : ∀ l, k < l → l < n → f st' l = some st') :
    (List.range n).foldlM f st = some st' := by
  have hrange : List.range n = List.range k ++ k :: List.range' (k + 1) (n - (k + 1)) := by
    rw [List.range_eq_range', List.range_eq_range', ← List.range'_succ,
      show n = k + (n - (k + 1) + 1) by omega, ← List.range'_append]
    simp
    omega
  have hfirst : (List.range k).foldlM f st = some st :=
    foldlM_of_forall_eq fun l hl => hbefore l (List.mem_range.mp hl)
  have hlast : (List.range' (k + 1) (n - (k + 1))).foldlM f st' = some st' := by
    refine foldlM_of_forall_eq fun l hl => ?_
    rw [List.mem_range'_1] at hl
    exact hafter l (by omega) (by omega)
  rw [hrange, List.foldlM_append, hfirst, some_bind, List.foldlM_cons, hstep]
  exact hlast

theorem exists_of_liveRows_eq {entries : List (Option ℕ)} (h : liveRows entries = [i]) :
    ∃ k < entries.length, entries[k]? = some (some i) ∧
      ∀ l < entries.length, l ≠ k → entries[l]? = some none := by
  induction entries with
  | nil => simp [liveRows] at h
  | cons e entries ih =>
    cases e with
    | none =>
      rw [liveRows_cons_none] at h
      obtain ⟨k, hk, hki, hrest⟩ := ih h
      refine ⟨k + 1, by simpa using hk, by simpa using hki, fun l hl hlk => ?_⟩
      cases l with
      | zero => rfl
      | succ l => simpa using hrest l (by simpa using hl) (by omega)
    | some i' =>
      rw [liveRows_cons_some] at h
      obtain ⟨rfl, hnil⟩ := List.cons.inj h
      refine ⟨0, by simp, rfl, fun l hl hlk => ?_⟩
      obtain ⟨l, rfl⟩ := Nat.exists_eq_succ_of_ne_zero hlk
      rw [List.getElem?_cons_succ]
      have hl : l < entries.length := by simpa using hl
      rw [List.getElem?_eq_getElem hl]
      congr 1
      by_contra hne
      obtain ⟨i'', hi''⟩ := ne_none_iff_exists'.mp hne
      have hmem : i'' ∈ liveRows entries := by
        rw [liveRows, List.mem_filterMap]
        exact ⟨entries[l], List.getElem_mem hl, hi''⟩
      rw [hnil] at hmem
      simp at hmem

/-- A column of weight 1 lies in one row, and its list has one entry that is not -1. -/
theorem Inv.exists_singleton_row (h : Inv dropped mat) (hj : mat.A j = some a)
    (hwt : mat.wt j = 1) :
    ∃ entries i row k, mat.R j = some entries ∧ mat.cells j = {i} ∧ i < mat.nrows ∧
      mat.rows i = some row ∧ j ∈ row ∧ k < entries.length ∧ entries[k]? = some (some i) ∧
      ∀ l < entries.length, l ≠ k → entries[l]? = some none := by
  have hactive : mat.A j ≠ none := by simp [hj]
  obtain ⟨entries, hentries, hnodup, hmem⟩ := h.columns.entries j hactive
  have hcard : (mat.cells j).card = 1 := by
    have hwtj := h.columns.wt_eq j hactive
    omega
  obtain ⟨i, hi⟩ := Finset.card_eq_one.mp hcard
  have hlive : liveRows entries = [i] := by
    have hperm : (liveRows entries).Perm [i] := by
      refine (List.perm_ext_iff_of_nodup hnodup (List.nodup_singleton i)).mpr fun k => ?_
      rw [hmem, hi, Finset.mem_singleton, List.mem_singleton]
    exact List.perm_singleton.mp hperm
  obtain ⟨k, hk, hki, hrest⟩ := exists_of_liveRows_eq hlive
  have hicell : i < mat.nrows ∧ j ∈ mat.row i := by
    rw [← FilterMatrix.mem_cells, hi]
    exact Finset.mem_singleton_self i
  obtain ⟨row, hrow⟩ : ∃ row, mat.rows i = some row := by
    refine ne_none_iff_exists'.mp fun hnone => ?_
    have hmem := hicell.2
    rw [FilterMatrix.row, hnone] at hmem
    simp at hmem
  exact ⟨entries, i, row, k, hentries, hi, hicell.1, hrow,
    FilterMatrix.row_eq hrow ▸ hicell.2, hk, hki, hrest⟩

/-- The loop of `removeColDefinitely` stops at the entry that is not -1 and passes the others. -/
theorem removeColDefinitely_eq (rep : Report) {entries : List (Option ℕ)} {k : ℕ}
    {matA : FilterMatrix} (hentries : mat.R j = some entries) (hk : k < entries.length)
    (hki : entries[k]? = some (some i))
    (hrest : ∀ l < entries.length, l ≠ k → entries[l]? = some none)
    (hstep : removeJFromRow mat i j = some matA)
    (hremove : removeRowDefinitely rep matA i = some (report1 rep i, mat'))
    (hRj : mat'.R j = some entries) :
    removeColDefinitely rep mat j = some (report1 rep i,
      { mat' with remNcols := mat'.remNcols - 1, wt := update mat'.wt j 0 }) := by
  have hfold := foldlM_range_single (rep, mat)
    (f := fun (state : Report × FilterMatrix) k => do
      let (rep, mat) := state
      let entries ← mat.R j
      match ← entries[k]? with
      | none => some (rep, mat)
      | some i => do
        let mat ← removeJFromRow mat i j
        let (rep, mat) ← removeRowDefinitely rep mat i
        some (rep, { mat with remNcols := mat.remNcols - 1 })) hk
    (fun l hl => by
      simp only [hentries, some_bind, hrest l (by omega) (by omega)])
    (by simp only [hentries, some_bind, hki, hstep, hremove]; rfl)
    fun l hl hln => by
      simp [hRj, some_bind, hrest l hln (by omega)]
  simp only [removeColDefinitely, hentries, some_bind] at hfold ⊢
  rw [hfold]
  rfl

/-- One column of weight 1 is removed, together with its row. -/
theorem singleton_step (rep : Report) (h : Inv dropped mat) (hj : mat.A j = some a)
    (hwt : mat.wt j = 1) :
    ∃ i mat₁ mat₂ mat₃, mat.rows i ≠ none ∧
      removeColDefinitely rep mat j = some (report1 rep i, mat₁) ∧ mat₁.wt j = 0 ∧
      removeColumnAndUpdate mat₁ j = some mat₂ ∧
      mat₃ = { mat₂ with wt := update mat₂.wt j (-0) } ∧ Inv dropped mat₃ ∧
      mat₃.kind = update mat.kind j .removed ∧
      OnlyColumns { mat with
        rows := update mat.rows i none
        remNrows := mat.remNrows - 1
        remNcols := mat.remNcols - 1
        weight := mat₃.weight } mat₃ := by
  have hactive : mat.A j ≠ none := by simp [hj]
  obtain ⟨entries, i, row, k, hentries, hi, hin, hrow, hjrow, hk, hki, hrest⟩ :=
    h.exists_singleton_row hj hwt
  have hrownodup := nodup_of_pairwise (h.increasing i row hrow)
  -- the column leaves the row, then the row is removed
  set matA : FilterMatrix := { mat with
    rows := update mat.rows i (some (row.erase j))
    weight := mat.weight - 1 } with hmatA
  have hcolsA : Columns { matA with weight := matA.weight - ((row.erase j).length + matA.wburied i) }
      mat.cells := ⟨h.columns.listed, h.columns.lt_ncols, h.columns.wt_eq, h.columns.entries,
    h.columns.inactive⟩
  obtain ⟨matB, hrunB, hcolsB, hkindB, hRB, honlyB⟩ := removeCells_spec (i := i) (L := row.erase j)
    hcolsA (hrownodup.erase j) (fun l hl => h.kind_ne i row hrow l (List.mem_of_mem_erase hl))
    fun l hl _ => by
      rw [FilterMatrix.mem_cells, FilterMatrix.row_eq hrow]
      exact ⟨hin, List.mem_of_mem_erase hl⟩
  have hjerase : j ∉ row.erase j := hrownodup.not_mem_erase
  have hkindB : matB.kind = mat.kind := hkindB
  obtain ⟨b, hb⟩ : ∃ b, matB.A j = some b := by
    refine ne_none_iff_exists'.mp (kind_eq_active_iff.mp ?_)
    rw [hkindB]
    exact kind_eq_active_iff.mpr hactive
  set mat₁ : FilterMatrix := { destroyRow matB i with
    remNrows := matB.remNrows - 1
    remNcols := matB.remNcols - 1
    wt := update matB.wt j 0 } with hmat₁
  obtain ⟨heap, hheap, hretire⟩ := hcolsB.retire hb
  have hcolsC := hretire 0 le_rfl
  set mat₃ : FilterMatrix := { mat₁ with
    R := update mat₁.R j none
    heap := heap
    A := update mat₁.A j none } with hmat₃
  have hcol : removeColDefinitely rep mat j = some (report1 rep i, mat₁) := by
    have hstep : removeJFromRow mat i j = some matA := by
      simp only [removeJFromRow, hrow, some_bind, if_pos hjrow]
      rfl
    have hrowA : matA.rows i = some (row.erase j) := update_self _ _ _
    have hremove : removeRowDefinitely rep matA i
        = some (report1 rep i, { destroyRow matB i with remNrows := matB.remNrows - 1 }) := by
      simp only [removeRowDefinitely, removeRowAndUpdate, hrowA, some_bind, hrunB]
      rfl
    exact removeColDefinitely_eq rep hentries hk hki hrest hstep hremove
      ((hRB j hjerase).trans hentries)
  have hb₁ : mat₁.A j = some b := hb
  have hremoveCol : removeColumnAndUpdate mat₁ j
      = some { mat₃ with wt := update mat₁.wt j 0 } := by
    have hheap₁ : remove mat₁.heap b = some heap := hheap
    simp [removeColumnAndUpdate, removeJFromSWAR, removeJFromS, hb₁, hheap₁, freeRj, hmat₃]
  have hwt₃ : update mat₁.wt j 0 = mat₃.wt :=
    Function.update_eq_self_iff.mpr (update_self j 0 matB.wt).symm
  have hkind₃ : mat₃.kind = update mat.kind j .removed := by
    rw [← hkindB]
    exact kind_retire matB j heap 0
  have honly : OnlyColumns { mat with
      rows := update mat.rows i none
      remNrows := mat.remNrows - 1
      remNcols := mat.remNcols - 1
      weight := mat₃.weight } mat₃ := by
    rw [OnlyColumns, hmat₃, hmat₁, destroyRow, honlyB, hmatA]
    simp
  have hrows₃ : mat₃.rows = update mat.rows i none := by rw [honly]
  have hcells₃ : ∀ l, mat₃.cells l = (mat.cells l).erase i := by
    intro l
    have hcells : mat₃.cells = FilterMatrix.cells { mat with
        rows := update mat.rows i none } := by
      rw [honly]
      rfl
    rw [hcells, FilterMatrix.cells_update hin, getD_none, if_neg List.not_mem_nil]
  refine ⟨i, mat₁, { mat₃ with wt := update mat₁.wt j 0 }, mat₃, by simp [hrow], hcol,
    update_self _ _ _, hremoveCol, ?_, h.setRow hin ?_ hrows₃ (by rw [honly])
    (by rw [honly]) (by rw [honly]) (fun k row' hk l hl => ?_) (by simp) ?_, hkind₃, honly⟩
  · simp only [hwt₃, neg_zero]
    rw [Function.update_eq_self_iff.mpr]
    rw [← hwt₃, update_self]
  · refine Columns.congr ⟨hcolsC.listed, hcolsC.lt_ncols, hcolsC.wt_eq, hcolsC.entries,
        hcolsC.inactive⟩ fun l hl => ?_
    have hlj : l ≠ j := by
      rintro rfl
      exact hl (update_self _ _ _)
    rw [hcells₃]
    split_ifs with hmem
    · rfl
    · refine Finset.erase_eq_of_notMem fun hcell => hmem ?_
      rw [FilterMatrix.mem_cells, FilterMatrix.row_eq hrow] at hcell
      exact (List.mem_erase_of_ne hlj).mpr hcell.2
  · -- no other row has the column
    have hlj : l ≠ j := by
      rintro rfl
      have hki : k ≠ i := by
        rintro rfl
        rw [hrows₃, update_self] at hk
        exact absurd hk (by simp)
      rw [hrows₃, update_of_ne hki] at hk
      have hmem : k ∈ mat.cells l := by
        rw [FilterMatrix.mem_cells, FilterMatrix.row_eq hk]
        exact ⟨h.lt_nrows k (by simp [hk]), hl⟩
      rw [hi, Finset.mem_singleton] at hmem
      exact hki hmem
    rw [hkind₃, update_of_ne hlj]
  · have hweight : mat₃.weight
        = mat.weight - 1 - ((row.erase j).length + mat.wburied i) := by
      rw [hmat₃, hmat₁, destroyRow, honlyB, hmatA]
    have hlength : (row.erase j).length = row.length - 1 := List.length_erase_of_mem hjrow
    have hpos := List.length_pos_of_mem hjrow
    rw [hweight, hrow]
    simp only [rowWeight, hlength]
    omega

end Singletons

/-! ## Stacks of columns -/

/-- The number of active columns. -/
def FilterMatrix.activeCount (mat : FilterMatrix) : ℕ :=
  ((range mat.ncols).filter fun j => mat.kind j = .active).card

/-- The rows `is` were destroyed and reported, and as many columns `js` were
removed. -/
structure Singled (rep : Report) (mat : FilterMatrix) (is js : List ℕ) (rep' : Report)
    (mat' : FilterMatrix) : Prop where
  nodup_rows : is.Nodup
  row_ne : ∀ i ∈ is, mat.rows i ≠ none
  nodup_cols : js.Nodup
  active : ∀ j ∈ js, mat.kind j = .active
  length_eq : js.length = is.length
  report_eq : rep' = rep ++ is.map fun i : ℕ => reportLine [(i : ℤ)]
  kind_eq : ∀ j, mat'.kind j = if j ∈ js then .removed else mat.kind j
  onlyColumns : OnlyColumns { mat with
    rows := fun i => if i ∈ is then none else mat.rows i
    remNrows := mat.remNrows - is.length
    remNcols := mat.remNcols - js.length
    weight := mat'.weight } mat'

section Stacks

variable {dropped : ℤ} {mat mat' : FilterMatrix} {rep rep' : Report} {fuel j a : ℕ} {n : ℤ}
  {kind : Kind}

theorem activeCount_lt (h : Columns mat mat.cells) (hj : mat.kind j = .active)
    (hkind : mat'.kind = update mat.kind j kind) (hne : kind ≠ .active)
    (hncols : mat'.ncols = mat.ncols) : mat'.activeCount < mat.activeCount := by
  refine Finset.card_lt_card (Finset.ssubset_iff_subset_ne.mpr ⟨fun k hk => ?_, fun heq => ?_⟩)
  · rw [Finset.mem_filter, hkind, hncols] at hk
    have hkj : k ≠ j := by
      rintro rfl
      rw [update_self] at hk
      exact hne hk.2
    rw [update_of_ne hkj] at hk
    exact Finset.mem_filter.mpr hk
  · have hmem : j ∈ (range mat.ncols).filter fun j => mat.kind j = .active :=
      Finset.mem_filter.mpr
        ⟨mem_range.mpr (h.lt_ncols j (kind_eq_active_iff.mp hj)), hj⟩
    rw [← heq, Finset.mem_filter, hkind, update_self] at hmem
    exact hne hmem.2

theorem Inv.wt_eq_zero (h : Inv dropped mat) (hzero : mat.cwmax = 0) (hj : mat.A j ≠ none) :
    mat.wt j = 0 := by
  rw [h.columns.wt_eq j hj, Nat.cast_eq_zero, card_eq_zero]
  refine Finset.eq_empty_of_forall_notMem fun i hi => ?_
  obtain ⟨-, hjrow⟩ := FilterMatrix.mem_cells.mp hi
  cases hrow : mat.rows i with
  | none =>
    rw [FilterMatrix.row, hrow] at hjrow
    simp at hjrow
  | some row =>
    rw [FilterMatrix.row_eq hrow] at hjrow
    exact h.not_active hzero i row hrow j hjrow (kind_eq_active_iff.mpr hj)

theorem Singled.refl (rep : Report) (mat : FilterMatrix) : Singled rep mat [] [] rep mat where
  nodup_rows := List.nodup_nil
  row_ne := by simp
  nodup_cols := List.nodup_nil
  active := by simp
  length_eq := rfl
  report_eq := by simp
  kind_eq j := by simp
  onlyColumns := by simp [OnlyColumns]

/-- One more column of weight 1 before the others. -/
theorem Singled.cons {mat₁ : FilterMatrix} {is js : List ℕ} {i : ℕ}
    (h : Singled (report1 rep i) mat₁ is js rep' mat') (hi : mat.rows i ≠ none)
    (hj : mat.kind j = .active) (hkind : mat₁.kind = update mat.kind j .removed)
    (honly : OnlyColumns { mat with
      rows := update mat.rows i none
      remNrows := mat.remNrows - 1
      remNcols := mat.remNcols - 1
      weight := mat₁.weight } mat₁) :
    Singled rep mat (i :: is) (j :: js) rep' mat' := by
  have hrows : mat₁.rows = update mat.rows i none := by rw [honly]
  have hiis : i ∉ is := fun hmem => h.row_ne i hmem (by rw [hrows, update_self])
  have hjjs : j ∉ js := fun hmem => by
    have hactive := h.active j hmem
    rw [hkind, update_self] at hactive
    exact absurd hactive (by simp)
  refine ⟨List.nodup_cons.mpr ⟨hiis, h.nodup_rows⟩, ?_, List.nodup_cons.mpr ⟨hjjs, h.nodup_cols⟩,
    ?_, by rw [List.length_cons, List.length_cons, h.length_eq], ?_, fun k => ?_, ?_⟩
  · refine List.forall_mem_cons.mpr ⟨hi, fun k hk => ?_⟩
    have hki : k ≠ i := fun heq => hiis (heq ▸ hk)
    have hne := h.row_ne k hk
    rwa [hrows, update_of_ne hki] at hne
  · refine List.forall_mem_cons.mpr ⟨hj, fun k hk => ?_⟩
    have hkj : k ≠ j := fun heq => hjjs (heq ▸ hk)
    have hactive := h.active k hk
    rwa [hkind, update_of_ne hkj] at hactive
  · rw [h.report_eq, report1, reportn, List.map_cons, List.append_assoc, List.singleton_append]
  · rw [h.kind_eq, hkind]
    by_cases hkj : k = j
    · subst hkj
      simp
    · simp [hkj]
  · have honly' := h.onlyColumns
    rw [OnlyColumns] at honly honly' ⊢
    rw [honly', honly]
    have hrows' : (fun k => if k ∈ is then none else update mat.rows i none k)
        = fun k => if k ∈ i :: is then none else mat.rows k := by
      funext k
      by_cases hki : k = i
      · subst hki
        simp
      · simp [hki]
    simp only [hrows', List.length_cons]
    push_cast
    simp [sub_sub, add_comm (1 : ℤ)]

theorem deleteCols_singletons (rep : Report) (h : Inv dropped mat)
    (hfuel : mat.activeCount < fuel) :
    ∃ is js rep' mat', deleteCols 1 fuel rep mat n = some (rep', mat', n + is.length) ∧
      Inv dropped mat' ∧ Singled rep mat is js rep' mat' := by
  induction fuel generalizing rep mat n with
  | zero => omega
  | succ fuel ih =>
    obtain ⟨lists, hlisted⟩ := h.columns.listed
    have hone : 1 ≤ mat.cwmax + 1 := by omega
    have hstack := stack_natCast mat hone
    have hfirst := dclistFirst_stack hlisted hone
    cases hhead : (lists 1).head? with
    | none =>
      refine ⟨[], [], rep, mat, ?_, h, Singled.refl rep mat⟩
      simp only [deleteCols, hstack, some_bind, hfirst, hhead]
      simp
    | some a =>
      obtain ⟨j, hj, hstackj⟩ := hlisted.column 1 hone a (List.mem_of_head? hhead)
      have hactive : mat.A j ≠ none := by simp [hj]
      have hwt : mat.wt j = 1 := by
        rw [stackOf] at hstackj
        by_cases hzero : mat.cwmax = 0
        · have hwtj := h.wt_eq_zero hzero hactive
          rw [hwtj] at hstackj
          simp at hstackj
        · omega
      obtain ⟨i, mat₁, mat₂, mat₃, hi, hcol, hwt₁, hremove, hmat₃, hinv, hkind, honly⟩ :=
        singleton_step rep h hj hwt
      have hlt : mat₃.activeCount < mat.activeCount := activeCount_lt h.columns
        (kind_eq_active_iff.mpr hactive) hkind (by simp) (by rw [honly])
      obtain ⟨is, js, rep', mat', hrun, hinv', hsingled⟩ := ih (n := n + 1) (report1 rep i) hinv
        (by omega)
      refine ⟨i :: is, j :: js, rep', mat', ?_, hinv', hsingled.cons hi
        (kind_eq_active_iff.mpr hactive) hkind honly⟩
      simp only [deleteCols, hstack, some_bind, hfirst, hhead,
        columnAt_cell hlisted hj, hcol, hwt₁, hremove, one_ne_zero, if_false, if_true]
      rw [← hmat₃, hrun, List.length_cons]
      push_cast
      rw [add_assoc, add_comm (1 : ℤ)]

theorem activeCount_lt_fuel (mat : FilterMatrix) : mat.activeCount < mat.ncols + 1 :=
  Nat.lt_succ_of_le ((Finset.card_filter_le _ _).trans (Finset.card_range _).le)

/-- `removeSingletons` removes columns of weight 1 with their rows. -/
theorem removeSingletons_spec (rep : Report) (h : Inv dropped mat) :
    ∃ is js rep' mat', removeSingletons rep mat = some (rep', mat', (is.length : ℤ)) ∧
      Inv dropped mat' ∧ Singled rep mat is js rep' mat' := by
  obtain ⟨is, js, rep', mat', hrun, hrest⟩ :=
    deleteCols_singletons (n := 0) rep h (activeCount_lt_fuel mat)
  rw [zero_add] at hrun
  exact ⟨is, js, rep', mat', hrun, hrest⟩

theorem heavy_step (h : Inv dropped mat) (hj : mat.A j = some a) (hwt : 0 < mat.wt j)
    (hcwmax : mat.cwmax ≠ 0) :
    ∃ mat₂ mat₃, removeColumnAndUpdate mat j = some mat₂ ∧
      mat₃ = { mat₂ with wt := update mat₂.wt j (-mat.wt j) } ∧ Inv dropped mat₃ ∧
      mat₃.kind = update mat.kind j .heavy ∧ OnlyColumns mat mat₃ := by
  obtain ⟨heap, hcols, hrun⟩ := removeColumn_spec h.columns hj
  have hcols := hcols (-mat.wt j) (by omega)
  have hkind := kind_retire mat j heap (-mat.wt j)
  rw [if_pos (by omega)] at hkind
  have hkind' : ∀ k, update mat.kind j Kind.heavy k ≠ mat.kind k →
      update mat.kind j Kind.heavy k = .heavy := by
    intro k hk
    by_cases hkj : k = j
    · rw [hkj, update_self]
    · exact absurd (update_of_ne hkj _ _) hk
  refine ⟨_, _, hrun, rfl, ?_⟩
  simp only [update_idem]
  refine ⟨⟨hcols, h.lt_nrows, h.increasing, fun i row hi k hk => ?_, fun hzero => absurd hzero hcwmax,
    h.weight_eq⟩, hkind, rfl⟩
  rw [hkind]
  by_cases hne : update mat.kind j Kind.heavy k = mat.kind k
  · rw [hne]
    exact h.kind_ne i row hi k hk
  · rw [hkind' k hne]
    simp

/-- Columns above the bound become heavy, one after the other. -/
theorem deleteCols_heavy (rep : Report) (h : Inv dropped mat) (hfuel : mat.activeCount < fuel) :
    ∃ (js : List ℕ) (mat' : FilterMatrix),
      deleteCols (mat.cwmax + 1) fuel rep mat n = some (rep, mat', n + js.length) ∧
      Inv dropped mat' ∧ (∀ j ∈ js, mat.kind j = .active) ∧
      (∀ j, mat'.kind j = if j ∈ js then .heavy else mat.kind j) ∧ OnlyColumns mat mat' := by
  induction fuel generalizing mat n with
  | zero => omega
  | succ fuel ih =>
    obtain ⟨lists, hlisted⟩ := h.columns.listed
    have hstack := stack_natCast mat (le_refl (mat.cwmax + 1))
    have hfirst := dclistFirst_stack hlisted (le_refl (mat.cwmax + 1))
    cases hhead : (lists (mat.cwmax + 1)).head? with
    | none =>
      refine ⟨[], mat, ?_, h, by simp, by simp, OnlyColumns.refl mat⟩
      simp only [deleteCols, hstack, some_bind, hfirst, hhead]
      simp
    | some a =>
      obtain ⟨j, hj, hstackj⟩ := hlisted.column _ le_rfl a (List.mem_of_head? hhead)
      have hactive : mat.A j ≠ none := by simp [hj]
      have hwt : 0 < mat.wt j := by
        rw [stackOf] at hstackj
        omega
      have hcwmax : mat.cwmax ≠ 0 := fun hzero => by
        have hwtj := h.wt_eq_zero hzero hactive
        omega
      obtain ⟨mat₂, mat₃, hremove, hmat₃, hinv, hkind, honly⟩ := heavy_step h hj hwt hcwmax
      have hlt : mat₃.activeCount < mat.activeCount := activeCount_lt h.columns
        (kind_eq_active_iff.mpr hactive) hkind (by simp) (by rw [honly])
      have hcwmax₃ : mat₃.cwmax = mat.cwmax := by rw [honly]
      obtain ⟨js, mat', hrun, hinv', hactive', hkind', honly'⟩ := ih (n := n + 1) hinv (by omega)
      rw [hcwmax₃] at hrun
      have hne : ∀ k ∈ js, k ≠ j := by
        rintro k hk rfl
        have hactive := hactive' k hk
        rw [hkind, update_self] at hactive
        exact absurd hactive (by simp)
      refine ⟨j :: js, mat', ?_, hinv', List.forall_mem_cons.mpr
        ⟨kind_eq_active_iff.mpr hactive, fun k hk => ?_⟩, fun k => ?_, honly.trans honly'⟩
      · simp only [deleteCols, hstack, some_bind, hfirst, hhead,
          columnAt_cell hlisted hj, hremove, Nat.succ_ne_zero, if_false]
        rw [if_neg (by omega)]
        rw [← hmat₃, hrun, List.length_cons]
        push_cast
        rw [add_assoc, add_comm (1 : ℤ)]
      · have hactive := hactive' k hk
        rwa [hkind, update_of_ne (hne k hk)] at hactive
      · rw [hkind', hkind]
        by_cases hkj : k = j
        · subst hkj
          simp
        · simp [hkj]

/-- `deleteHeavyColumns` makes active columns heavy. -/
theorem deleteHeavyColumns_spec (rep : Report) (h : Inv dropped mat) :
    ∃ (js : List ℕ) (mat' : FilterMatrix),
      deleteHeavyColumns rep mat = some (rep, mat', (js.length : ℤ)) ∧ Inv dropped mat' ∧
      (∀ j ∈ js, mat.kind j = .active) ∧
      (∀ j, mat'.kind j = if j ∈ js then .heavy else mat.kind j) ∧ OnlyColumns mat mat' := by
  obtain ⟨js, mat', hrun, hrest⟩ := deleteCols_heavy (n := 0) rep h (activeCount_lt_fuel mat)
  rw [zero_add] at hrun
  exact ⟨js, mat', hrun, hrest⟩

end Stacks

/-! ## Empty columns -/

section Empty

variable {dropped : ℤ} {mat mat' : FilterMatrix} {i j a : ℕ} {row : List ℕ}

/-- Empty columns can be removed. -/
theorem Inv.retire (h : Inv dropped mat) (hcols : Columns mat' mat.cells)
    (honly : OnlyColumns mat mat') (js : ℕ → Prop) [DecidablePred js]
    (hkind : ∀ j, mat'.kind j = if js j then .removed else mat.kind j)
    (hempty : ∀ j, js j → mat.cells j = ∅) : Inv dropped mat' := by
  have hrows : mat'.rows = mat.rows := by rw [honly]
  have hcells : mat'.cells = mat.cells := by rw [honly]; rfl
  have hkept : ∀ i row, mat.rows i = some row → ∀ j ∈ row, mat'.kind j = mat.kind j := by
    intro i row hi j hj
    rw [hkind, if_neg]
    intro hjs
    have hmem : i ∈ mat.cells j := by
      rw [FilterMatrix.mem_cells, FilterMatrix.row_eq hi]
      exact ⟨h.lt_nrows i (by simp [hi]), hj⟩
    rw [hempty j hjs] at hmem
    simp at hmem
  refine ⟨hcells ▸ hcols, fun i hi => ?_, fun i row hi => ?_, fun i row hi j hj => ?_,
    fun hzero i row hi j hj => ?_, ?_⟩
  · rw [hrows] at hi
    rw [honly]
    exact h.lt_nrows i hi
  · rw [hrows] at hi
    exact h.increasing i row hi
  · rw [hrows] at hi
    rw [hkept i row hi j hj]
    exact h.kind_ne i row hi j hj
  · rw [hrows] at hi
    rw [hkept i row hi j hj]
    refine h.not_active ?_ i row hi j hj
    rw [honly] at hzero
    exact hzero
  · rw [honly]
    exact h.weight_eq

theorem removeEmptyColumn_spec (h : Inv dropped mat) (hj : mat.A j ≠ none)
    (hempty : mat.cells j = ∅) :
    ∃ mat', removeColumnAndUpdate mat j = some mat' ∧ Inv dropped mat' ∧
      mat'.kind = update mat.kind j .removed ∧ OnlyColumns mat mat' := by
  obtain ⟨a, ha⟩ := ne_none_iff_exists'.mp hj
  obtain ⟨heap, hcols, hrun⟩ := removeColumn_spec h.columns ha
  have hkind := kind_retire mat j heap 0
  rw [if_neg (lt_irrefl 0)] at hkind
  refine ⟨_, hrun, h.retire (hcols 0 le_rfl) rfl (fun k => k = j) (fun k => ?_) ?_, hkind,
    rfl⟩
  · rw [hkind, update_apply]
  · rintro k rfl
    exact hempty

theorem deleteEmptyColumns_spec (h : Inv dropped mat) :
    ∃ mat' njrem, deleteEmptyColumnsSWAR mat = some (mat', njrem) ∧ Inv dropped mat' ∧
      (∀ j, mat'.kind j = if mat.A j ≠ none ∧ mat.wt j = 0 then .removed else mat.kind j) ∧
      njrem = (((range mat.ncols).filter fun j => mat.A j ≠ none ∧ mat.wt j = 0).card : ℤ) ∧
      OnlyColumns { mat with remNcols := mat.remNcols - njrem } mat' := by
  obtain ⟨mat', njrem, hrun, hcols, hkind, -, -, hnjrem, honly⟩ :=
    deleteEmptyColumnsSWAR_spec h.columns
  have h' : Inv dropped { mat with remNcols := mat.remNcols - njrem } :=
    ⟨⟨h.columns.listed, h.columns.lt_ncols, h.columns.wt_eq, h.columns.entries,
      h.columns.inactive⟩, h.lt_nrows, h.increasing, h.kind_ne, h.not_active, h.weight_eq⟩
  refine ⟨mat', njrem, hrun, h'.retire hcols honly _ hkind fun j hj => ?_, hkind, hnjrem, honly⟩
  have hwt := h.columns.wt_eq j hj.1
  rw [hj.2] at hwt
  exact card_eq_zero.mp (by exact_mod_cast hwt.symm)

end Empty

end CadoNfs.Merge
