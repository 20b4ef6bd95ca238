import CadoNfs.Lib.DoublyLinked
import CadoNfs.Lib.SortedXor
import Mathlib.Tactic.IntervalCases
import Mathlib.Tactic.Linarith
import Mathlib.Tactic.Ring

/-!
# The matrix of merge

`merge` keeps the rows of the matrix, the weight of each column, for the light columns the
list of their rows, and the light columns in stacks by weight.  The weight of a heavy column is
stored with the opposite sign.

Main results:

- Theorem `removeCells_spec`: the columns after the cells of a row were removed.
- Theorem `addCells_spec`: the columns after the cells of a row were added.
- Theorem `removeColumn_spec`: the columns after one was taken off its stack.
-/

namespace CadoNfs.Merge

open Function (update update_apply update_idem update_of_ne update_self)
open DoublyLinked SortedXor
open List (forall_mem_cons mem_cons mem_cons_of_mem mem_cons_self mem_toFinset nodup_cons
  replace_cons)
open Option (bind_eq_bind bind_some getD_some map_some ne_none_iff_exists' pure_def)

/-! ## The matrix -/

/-- `filter_matrix_t` for the columns from 0 to `ncols - 1`.  `NULL` is
`none`, and so is -1 in the lists `R[j]` and in the first cell of a stack. -/
structure FilterMatrix where
  nrows : ℕ
  ncols : ℕ
  remNrows : ℤ
  remNcols : ℤ
  rows : ℕ → Option (List ℕ)
  wt : ℕ → ℤ
  wburied : ℕ → ℕ
  nburied : ℕ
  weight : ℤ
  cwmax : ℕ
  rwmax : ℤ
  keep : ℤ
  R : ℕ → Option (List (Option ℕ))
  heap : Heap (Option ℕ)
  S : ℕ → ℕ
  A : ℕ → Option ℕ

/-- `decrS`. -/
def decrS (w : ℤ) : ℤ :=
  if 0 ≤ w then w - 1 else w + 1

/-- `incrS`. -/
def incrS (w : ℤ) : ℤ :=
  if 0 ≤ w then w + 1 else w - 1

/-- The stack `S[ind]`, if there is one. -/
def FilterMatrix.stack (mat : FilterMatrix) (ind : ℤ) : Option ℕ :=
  if 0 ≤ ind ∧ ind ≤ mat.cwmax + 1 then some (mat.S ind.toNat) else none

/-- `dclistFirst`. -/
def dclistFirst (heap : Heap (Option ℕ)) (dcl : ℕ) : Option (Option ℕ) :=
  (heap.cells dcl).map fun c => if c.val = none then c.next else some dcl

/-- The column in a cell; -1 is no column. -/
def columnAt (heap : Heap (Option ℕ)) (dcl : ℕ) : Option ℕ := do
  let c ← heap.cells dcl
  c.val

/-! ## Lists of rows -/

/-- `freeRj`. -/
def freeRj (mat : FilterMatrix) (j : ℕ) : FilterMatrix :=
  { mat with R := update mat.R j none }

/-- `remove_i_from_Rj`. -/
def removeIFromRj (mat : FilterMatrix) (i j : ℕ) : FilterMatrix :=
  match mat.R j with
  | none => mat
  | some entries => { mat with R := update mat.R j (some (entries.replace (some i) none)) }

/-- `add_i_to_Rj`. -/
def addIToRj (mat : FilterMatrix) (i j : ℕ) : Option FilterMatrix :=
  (mat.R j).map fun entries =>
    let entries := if none ∈ entries then entries.replace none (some i) else entries ++ [some i]
    { mat with R := update mat.R j (some entries) }

/-- `remove_j_from_row`. -/
def removeJFromRow (mat : FilterMatrix) (i j : ℕ) : Option FilterMatrix := do
  let row ← mat.rows i
  if j ∈ row then
    return { mat with
      rows := update mat.rows i (some (row.erase j))
      weight := mat.weight - 1 }
  else none

/-- `destroyRow`. -/
def destroyRow (mat : FilterMatrix) (i : ℕ) : FilterMatrix :=
  { mat with rows := update mat.rows i none }

/-! ## Stacks -/

/-- `remove_j_from_S`. -/
def removeJFromS (mat : FilterMatrix) (j : ℕ) : Option FilterMatrix :=
  match mat.A j with
  | none => some mat
  | some dcl => (remove mat.heap dcl).map fun heap => { mat with heap := heap }

/-- `remove_j_from_SWAR`. -/
def removeJFromSWAR (mat : FilterMatrix) (j : ℕ) : Option FilterMatrix :=
  (removeJFromS mat j).map fun mat => { mat with A := update mat.A j none }

/-- `decreaseColWeightSWAR`. -/
def decreaseColWeightSWAR (mat : FilterMatrix) (j : ℕ) : Option FilterMatrix := do
  let ind := decrS (mat.wt j)
  let mat := { mat with wt := update mat.wt j ind }
  let mat ← removeJFromS mat j
  let ind := if mat.wt j > mat.cwmax then (mat.cwmax : ℤ) + 1 else ind
  let dcl ← mat.stack ind
  let (heap, cell) ← insertAfter mat.heap dcl (some j)
  return { mat with heap := heap, A := update mat.A j (some cell) }

/-- `addColSWAR`. -/
def addColSWAR (mat : FilterMatrix) (j : ℕ) : Option (FilterMatrix × ℤ) :=
  let ind := incrS (mat.wt j)
  let mat := { mat with wt := update mat.wt j ind }
  if ind < 0 then some (mat, ind)
  else do
    let mat ← removeJFromS mat j
    let ind := if mat.wt j > mat.cwmax then (mat.cwmax : ℤ) + 1 else ind
    let dcl ← mat.stack ind
    let (heap, cell) ← insertAfter mat.heap dcl (some j)
    return ({ mat with heap := heap, A := update mat.A j (some cell) }, ind)

/-- The loop of `deleteEmptyColumnsSWAR`, for at most `fuel` steps. -/
def emptyStack : ℕ → FilterMatrix → ℤ → Option (FilterMatrix × ℤ)
  | 0, _, _ => none
  | fuel + 1, mat, njrem => do
    let c ← mat.heap.cells (mat.S 0)
    match c.next with
    | none => some (mat, njrem)
    | some _ => do
      let (j, heap) ← removeNext mat.heap (mat.S 0)
      let j ← j
      let mat := { mat with
        heap := heap
        A := update mat.A j none
        wt := update mat.wt j 0 }
      emptyStack fuel (freeRj mat j) (njrem + 1)

/-- `deleteEmptyColumnsSWAR`.  A column is in one stack only. -/
def deleteEmptyColumnsSWAR (mat : FilterMatrix) : Option (FilterMatrix × ℤ) := do
  let (mat, njrem) ← emptyStack (mat.ncols + 1) mat 0
  return ({ mat with remNcols := mat.remNcols - njrem }, njrem)

/-! ## Cells -/

/-- `addCellAndUpdate`. -/
def addCellAndUpdate (mat : FilterMatrix) (i j : ℕ) : Option FilterMatrix := do
  let (mat, ind) ← addColSWAR mat j
  if 0 ≤ ind then addIToRj mat i j else some mat

/-- `removeCellAndUpdate`. -/
def removeCellAndUpdate (mat : FilterMatrix) (i j : ℕ) : Option FilterMatrix :=
  if mat.wt j < 0 then some mat
  else (decreaseColWeightSWAR mat j).map fun mat => removeIFromRj mat i j

/-- `removeColumnAndUpdate`. -/
def removeColumnAndUpdate (mat : FilterMatrix) (j : ℕ) : Option FilterMatrix :=
  (removeJFromSWAR mat j).map fun mat =>
    freeRj { mat with wt := update mat.wt j 0 } j

/-! ## The stacks -/

/-- The number of the stack for a weight. -/
def stackOf (cwmax : ℕ) (w : ℤ) : ℕ :=
  min w.toNat (cwmax + 1)

/-- The stacks hold the cells `A`, each in the stack for its weight. -/
structure Listed (cwmax : ℕ) (heap : Heap (Option ℕ)) (S : ℕ → ℕ) (A : ℕ → Option ℕ)
    (wt : ℕ → ℤ) (lists : ℕ → List ℕ) : Prop where
  family : Family heap (Set.Iic (cwmax + 1)) S lists
  head : ∀ w ≤ cwmax + 1, heap.val (S w) = some none
  cell : ∀ j a, A j = some a → a ∈ lists (stackOf cwmax (wt j)) ∧ heap.val a = some (some j)
  column : ∀ w ≤ cwmax + 1, ∀ a ∈ lists w, ∃ j, A j = some a ∧ w = stackOf cwmax (wt j)

section Listed

variable {cwmax : ℕ} {heap : Heap (Option ℕ)} {S : ℕ → ℕ} {A : ℕ → Option ℕ} {wt wt' : ℕ → ℤ}
  {lists : ℕ → List ℕ} {j a : ℕ}

theorem stackOf_le (cwmax : ℕ) (w : ℤ) : stackOf cwmax w ≤ cwmax + 1 :=
  min_le_right _ _

section

variable (h : Listed cwmax heap S A wt lists)
include h

theorem Listed.congr (hwt : ∀ j, A j ≠ none → wt' j = wt j) : Listed cwmax heap S A wt' lists where
  family := h.family
  head := h.head
  cell j a hj := by
    rw [hwt j (by simp [hj])]
    exact h.cell j a hj
  column w hw a ha := by
    obtain ⟨j, hj, hstack⟩ := h.column w hw a ha
    exact ⟨j, hj, by rw [hwt j (by simp [hj]), hstack]⟩

theorem Listed.injective {k : ℕ} (hj : A j = some a) (hk : A k = some a) : j = k := by
  have hval := (h.cell j a hj).2.symm.trans (h.cell k a hk).2
  simpa using hval

theorem Listed.head_not_mem {w w' : ℕ} (hw : w ≤ cwmax + 1)
    (hw' : w' ≤ cwmax + 1) : S w ∉ lists w' := by
  intro hmem
  obtain ⟨j, hj, -⟩ := h.column w' hw' _ hmem
  exact absurd ((h.head w hw).symm.trans (h.cell j _ hj).2) (by simp)

theorem Listed.val_fresh : heap.val heap.fresh = none := by
  have hnext := h.family.bounded.next_fresh
  rw [Heap.next, Option.map_eq_none_iff] at hnext
  rw [Heap.val, hnext]
  rfl

end

theorem Listed.remove (h : Listed cwmax heap S A wt lists) (hj : A j = some a) :
    ∃ heap' lists', DoublyLinked.remove heap a = some heap' ∧
      Listed cwmax heap' S (update A j none) wt lists' := by
  have hstack := stackOf_le cwmax (wt j)
  obtain ⟨ha, hval⟩ := h.cell j a hj
  obtain ⟨heap', hrun, hfamily, hval'⟩ := h.family.remove (Set.mem_Iic.mpr hstack) ha
  refine ⟨heap', _, hrun, hfamily, fun w hw => ?_, fun k b hk => ?_, fun w hw b hb => ?_⟩
  · have hne : S w ≠ a := fun heq => h.head_not_mem hw hstack (heq ▸ ha)
    rw [hval', if_neg hne, h.head w hw]
  · have hkj : k ≠ j := by
      rintro rfl
      rw [update_self] at hk
      exact absurd hk (by simp)
    rw [update_of_ne hkj] at hk
    have hba : b ≠ a := by
      rintro rfl
      exact hkj (h.injective hk hj)
    obtain ⟨hb, hvalb⟩ := h.cell k b hk
    refine ⟨?_, by rw [hval', if_neg hba, hvalb]⟩
    rw [update_apply]
    split_ifs with heq
    · rw [heq] at hb
      exact (List.mem_erase_of_ne hba).mpr hb
    · exact hb
  · have hbw : b ∈ lists w ∧ b ≠ a := by
      rw [update_apply] at hb
      split_ifs at hb with heq
      · rw [heq]
        have hnodup := (nodup_cons.mp (h.family.nodup _ (Set.mem_Iic.mpr hstack))).2
        exact (hnodup.mem_erase_iff.mp hb).symm
      · refine ⟨hb, fun hba => ?_⟩
        exact h.family.disjoint _ (Set.mem_Iic.mpr hw) _ (Set.mem_Iic.mpr hstack) heq b
          (mem_cons_of_mem _ hb) (mem_cons_of_mem _ (hba ▸ ha))
    obtain ⟨k, hk, hstackk⟩ := h.column w hw b hbw.1
    have hkj : k ≠ j := by
      rintro rfl
      exact hbw.2 (Option.some.inj (hk.symm.trans hj))
    exact ⟨k, by rw [update_of_ne hkj, hk], hstackk⟩

/-- A column enters the list of its weight. -/
theorem Listed.insert (h : Listed cwmax heap S A wt lists) (hj : A j = none) (w : ℤ) :
    ∃ heap' b lists', insertAfter heap (S (stackOf cwmax w)) (some j) = some (heap', b) ∧
      Listed cwmax heap' S (update A j (some b)) (update wt j w) lists' := by
  obtain ⟨heap', hrun, hfamily, hval⟩ :=
    h.family.insertAfter (Set.mem_Iic.mpr (stackOf_le cwmax w)) (some j)
  refine ⟨heap', heap.fresh, _, hrun, hfamily, fun w' hw' => ?_, fun k b hk => ?_,
    fun w' hw' b hb => ?_⟩
  · have hne : S w' ≠ heap.fresh := fun heq =>
      absurd ((h.head w' hw').symm.trans (heq ▸ h.val_fresh)) (by simp)
    rw [hval, if_neg hne, h.head w' hw']
  · by_cases hkj : k = j
    · subst hkj
      rw [update_self] at hk ⊢
      obtain rfl := Option.some.inj hk
      rw [update_self]
      exact ⟨mem_cons_self, by rw [hval, if_pos rfl]⟩
    · rw [update_of_ne hkj] at hk ⊢
      obtain ⟨hb, hvalb⟩ := h.cell k b hk
      have hne : b ≠ heap.fresh := fun heq =>
        absurd (hvalb.symm.trans (heq ▸ h.val_fresh)) (by simp)
      refine ⟨?_, by rw [hval, if_neg hne, hvalb]⟩
      rw [update_apply]
      split_ifs with heq
      · rw [heq] at hb
        exact mem_cons_of_mem _ hb
      · exact hb
  · by_cases hbf : b = heap.fresh
    · refine ⟨j, by rw [update_self, hbf], ?_⟩
      rw [update_self]
      by_contra hne
      rw [update_of_ne hne] at hb
      obtain ⟨k, hk, -⟩ := h.column w' hw' b hb
      exact absurd ((h.cell k b hk).2.symm.trans (hbf ▸ h.val_fresh)) (by simp)
    · have hb' : b ∈ lists w' := by
        rw [update_apply] at hb
        split_ifs at hb with heq
        · rw [heq]
          exact (mem_cons.mp hb).resolve_left hbf
        · exact hb
      obtain ⟨k, hk, hstack⟩ := h.column w' hw' b hb'
      have hkj : k ≠ j := by
        rintro rfl
        exact absurd (hk.symm.trans hj) (by simp)
      exact ⟨k, by rw [update_of_ne hkj, hk], by rw [update_of_ne hkj, hstack]⟩

end Listed

/-! ## The lists of rows -/

/-- The rows in a list `R[j]`. -/
def liveRows (entries : List (Option ℕ)) : List ℕ :=
  entries.filterMap id

section LiveRows

variable {entries : List (Option ℕ)} {i : ℕ}

theorem liveRows_cons_none : liveRows (none :: entries) = liveRows entries :=
  rfl

theorem liveRows_cons_some : liveRows (some i :: entries) = i :: liveRows entries :=
  rfl

theorem liveRows_replace_some : liveRows (entries.replace (some i) none)
    = (liveRows entries).erase i := by
  induction entries with
  | nil => rfl
  | cons e entries ih =>
    cases e with
    | none => simpa [replace_cons, liveRows_cons_none] using ih
    | some k =>
      by_cases hk : i = k
      · simp [liveRows_cons_none, liveRows_cons_some, hk]
      · have hne : (some i == some k) = false := by simpa using hk
        have hne' : (k == i) = false := by simpa using Ne.symm hk
        simp [replace_cons, hne, liveRows_cons_some, hne', ih]

theorem liveRows_replace_none (hnone : none ∈ entries) :
    (liveRows (entries.replace none (some i))).Perm (i :: liveRows entries) := by
  induction entries with
  | nil => simp at hnone
  | cons e entries ih =>
    cases e with
    | none => simp [liveRows_cons_none, liveRows_cons_some]
    | some k =>
      have hperm := ih (by simpa using hnone)
      have hcons : liveRows ((some k :: entries).replace none (some i))
          = k :: liveRows (entries.replace none (some i)) := by
        simp [replace_cons, liveRows_cons_some]
      rw [hcons, liveRows_cons_some]
      exact (hperm.cons k).trans (List.Perm.swap i k _)

end LiveRows

/-! ## The columns -/

/-- What has become of a column: heavy columns stay in the rows, removed ones do not. -/
inductive Kind
  | active
  | heavy
  | removed
  deriving DecidableEq

/-- The kind of a column. -/
def FilterMatrix.kind (mat : FilterMatrix) (j : ℕ) : Kind :=
  if mat.A j ≠ none then .active else if mat.wt j < 0 then .heavy else .removed

/-- The columns agree with the cells of the matrix, which `cells` gives column by
column. -/
structure Columns (mat : FilterMatrix) (cells : ℕ → Finset ℕ) : Prop where
  listed : ∃ lists, Listed mat.cwmax mat.heap mat.S mat.A mat.wt lists
  lt_ncols : ∀ j, mat.A j ≠ none → j < mat.ncols
  wt_eq : ∀ j, mat.A j ≠ none → mat.wt j = (cells j).card
  entries : ∀ j, mat.A j ≠ none → ∃ entries, mat.R j = some entries ∧
    (liveRows entries).Nodup ∧ ∀ i, i ∈ liveRows entries ↔ i ∈ cells j
  inactive : ∀ j, mat.A j = none → mat.wt j ≤ 0

/-- Only the columns have changed. -/
def OnlyColumns (mat mat' : FilterMatrix) : Prop :=
  mat' = { mat with wt := mat'.wt, R := mat'.R, heap := mat'.heap, A := mat'.A }

section Columns

variable {mat mat' mat'' : FilterMatrix} {cells cells' : ℕ → Finset ℕ} {i j a : ℕ}

theorem OnlyColumns.refl (mat : FilterMatrix) : OnlyColumns mat mat :=
  rfl

theorem OnlyColumns.trans (h : OnlyColumns mat mat') (h' : OnlyColumns mat' mat'') :
    OnlyColumns mat mat'' := by
  rw [OnlyColumns] at h h' ⊢
  rw [h', h]

theorem kind_eq_active_iff : mat.kind j = .active ↔ mat.A j ≠ none := by
  rw [FilterMatrix.kind]
  split_ifs <;> simp_all

theorem kind_eq_heavy_iff : mat.kind j = .heavy ↔ mat.A j = none ∧ mat.wt j < 0 := by
  rw [FilterMatrix.kind]
  split_ifs <;> simp_all

theorem kind_eq_removed_iff : mat.kind j = .removed ↔ mat.A j = none ∧ ¬ mat.wt j < 0 := by
  rw [FilterMatrix.kind]
  split_ifs <;> simp_all

theorem kind_congr (hA : mat'.A j ≠ none ↔ mat.A j ≠ none)
    (hwt : mat.A j = none → (mat'.wt j < 0 ↔ mat.wt j < 0)) : mat'.kind j = mat.kind j := by
  by_cases h : mat.A j = none
  · have h' : mat'.A j = none := by
      by_contra hne
      exact hA.mp hne h
    simp [FilterMatrix.kind, h, h', hwt h]
  · simp [FilterMatrix.kind, h, hA.mpr h]

theorem Columns.congr (h : Columns mat cells) (hcells : ∀ j, mat.A j ≠ none → cells' j = cells j) :
    Columns mat cells' where
  listed := h.listed
  lt_ncols := h.lt_ncols
  wt_eq j hj := by rw [hcells j hj, h.wt_eq j hj]
  entries j hj := by
    rw [hcells j hj]
    exact h.entries j hj
  inactive := h.inactive

theorem Columns.eq_none_of_neg (h : Columns mat cells) (hj : mat.wt j < 0) : mat.A j = none := by
  by_contra hne
  have hwt := h.wt_eq j hne
  omega

theorem stack_eq (mat : FilterMatrix) {w : ℤ} (hw : 0 ≤ w) :
    mat.stack (if w > mat.cwmax then (mat.cwmax : ℤ) + 1 else w)
      = some (mat.S (stackOf mat.cwmax w)) := by
  rw [FilterMatrix.stack, stackOf]
  split_ifs with hbig h h
  · congr 2
    omega
  · omega
  · congr 2
    omega
  · omega

theorem Columns.update (h : Columns mat cells) (hj : mat.A j ≠ none) {w : ℤ} {s : Finset ℕ}
    (entries : List (Option ℕ)) {heap : Heap (Option ℕ)} {b : ℕ} {lists : ℕ → List ℕ}
    (hw : w = s.card) (hnodup : (liveRows entries).Nodup) (hmem : ∀ i, i ∈ liveRows entries ↔ i ∈ s)
    (hlisted : Listed mat.cwmax heap mat.S (Function.update mat.A j (some b))
      (Function.update mat.wt j w) lists) :
    Columns { mat with
        wt := Function.update mat.wt j w
        R := Function.update mat.R j (some entries)
        heap := heap
        A := Function.update mat.A j (some b) } (Function.update cells j s) where
  listed := ⟨lists, hlisted⟩
  lt_ncols k hk := by
    by_cases hkj : k = j
    · rw [hkj]
      exact h.lt_ncols j hj
    · simp only [Function.update_of_ne hkj] at hk
      exact h.lt_ncols k hk
  wt_eq k hk := by
    by_cases hkj : k = j
    · subst hkj
      simp [hw]
    · simp only [Function.update_of_ne hkj] at hk ⊢
      exact h.wt_eq k hk
  entries k hk := by
    by_cases hkj : k = j
    · subst hkj
      simp only [Function.update_self]
      exact ⟨entries, rfl, hnodup, hmem⟩
    · simp only [Function.update_of_ne hkj] at hk ⊢
      exact h.entries k hk
  inactive k hk := by
    by_cases hkj : k = j
    · subst hkj
      simp only [Function.update_self] at hk
      exact absurd hk (by simp)
    · simp only [Function.update_of_ne hkj] at hk ⊢
      exact h.inactive k hk

theorem FilterMatrix.ne_none_of_wt_nonneg (hkind : mat.kind j ≠ .removed) (hwt : ¬ mat.wt j < 0) :
    mat.A j ≠ none := fun hnone => hkind (kind_eq_removed_iff.mpr ⟨hnone, hwt⟩)

/-- A lost cell moves its column one list down. -/
theorem removeCellAndUpdate_spec (h : Columns mat cells) (hkind : mat.kind j ≠ .removed)
    (hi : mat.A j ≠ none → i ∈ cells j) :
    ∃ mat', removeCellAndUpdate mat i j = some mat' ∧
      Columns mat' (update cells j ((cells j).erase i)) ∧
      mat'.kind = mat.kind ∧ (∀ k, k ≠ j → mat'.R k = mat.R k) ∧ OnlyColumns mat mat' := by
  rw [removeCellAndUpdate]
  split_ifs with hneg
  · have hnone := h.eq_none_of_neg hneg
    refine ⟨mat, rfl, h.congr fun k hk => ?_, rfl, fun _ _ => rfl, OnlyColumns.refl mat⟩
    rw [update_of_ne]
    rintro rfl
    exact hk hnone
  · have hactive := FilterMatrix.ne_none_of_wt_nonneg hkind hneg
    obtain ⟨a, ha⟩ := ne_none_iff_exists'.mp hactive
    obtain ⟨lists, hlisted⟩ := h.listed
    obtain ⟨entries, hentries, hnodup, hmem⟩ := h.entries j hactive
    have hcard : mat.wt j - 1 = ((cells j).erase i).card := by
      have hpos := Finset.card_pos.mpr ⟨i, hi hactive⟩
      rw [h.wt_eq j hactive, Finset.card_erase_of_mem (hi hactive)]
      omega
    have hdecr : decrS (mat.wt j) = mat.wt j - 1 := if_pos (not_lt.mp hneg)
    obtain ⟨heap₁, lists₁, hremove, hlisted₁⟩ := hlisted.remove ha
    obtain ⟨heap₂, b, lists₂, hinsert, hlisted₂⟩ :=
      hlisted₁.insert (update_self j none mat.A) (mat.wt j - 1)
    rw [update_idem] at hlisted₂
    refine ⟨_, ?_, h.update hactive (entries.replace (some i) none) hcard ?_
      (fun k => ?_) hlisted₂, funext fun k => kind_congr ?_ fun hk => ?_,
      fun k hk => update_of_ne hk _ _, rfl⟩
    · have hstack := stack_eq { mat with
        wt := update mat.wt j (mat.wt j - 1)
        heap := heap₁ } (w := mat.wt j - 1) (by omega)
      simp only [decreaseColWeightSWAR, hdecr, removeJFromS, ha, hremove, map_some,
        bind_eq_bind, bind_some, update_self]
      rw [hstack]
      simp [hinsert, removeIFromRj, hentries]
    · rw [liveRows_replace_some]
      exact hnodup.erase i
    · rw [liveRows_replace_some, hnodup.mem_erase_iff, Finset.mem_erase, hmem]
    · by_cases hkj : k = j
      · simp [hkj, ha]
      · simp [update_of_ne hkj]
    · have hkj : k ≠ j := by
        rintro rfl
        exact hactive hk
      simp [update_of_ne hkj]

/-- A new cell moves its column one list up and changes no other column. -/
theorem addCellAndUpdate_spec (h : Columns mat cells) (hkind : mat.kind j ≠ .removed)
    (hi : i ∉ cells j) :
    ∃ mat', addCellAndUpdate mat i j = some mat' ∧
      Columns mat' (update cells j (insert i (cells j))) ∧
      mat'.kind = mat.kind ∧ OnlyColumns mat mat' := by
  by_cases hneg : mat.wt j < 0
  · have hnone := h.eq_none_of_neg hneg
    have hincr : incrS (mat.wt j) = mat.wt j - 1 := if_neg (not_le.mpr hneg)
    have hadd : addCellAndUpdate mat i j
        = some { mat with wt := update mat.wt j (mat.wt j - 1) } := by
      simp only [addCellAndUpdate, addColSWAR, hincr]
      rw [if_pos (by omega), bind_eq_bind, bind_some, if_neg (by omega)]
    obtain ⟨lists, hlisted⟩ := h.listed
    have hsame : ∀ k, mat.A k ≠ none → update mat.wt j (mat.wt j - 1) k = mat.wt k := by
      intro k hk
      rw [update_of_ne]
      rintro rfl
      exact hk hnone
    refine ⟨_, hadd, ⟨⟨lists, hlisted.congr hsame⟩, h.lt_ncols, fun k hk => ?_, fun k hk => ?_,
      fun k hk => ?_⟩, funext fun k => kind_congr Iff.rfl fun _ => ?_, rfl⟩
    · have hkj : k ≠ j := by
        rintro rfl
        exact hk hnone
      simp only [update_of_ne hkj]
      exact h.wt_eq k hk
    · have hkj : k ≠ j := by
        rintro rfl
        exact hk hnone
      simp only [update_of_ne hkj]
      exact h.entries k hk
    · have hle := h.inactive k hk
      by_cases hkj : k = j
      · subst hkj
        simp only [update_self]
        omega
      · simp only [update_of_ne hkj]
        exact hle
    · by_cases hkj : k = j
      · subst hkj
        simp only [update_self]
        omega
      · simp [update_of_ne hkj]
  · have hactive := FilterMatrix.ne_none_of_wt_nonneg hkind hneg
    obtain ⟨a, ha⟩ := ne_none_iff_exists'.mp hactive
    obtain ⟨lists, hlisted⟩ := h.listed
    obtain ⟨entries, hentries, hnodup, hmem⟩ := h.entries j hactive
    have hcard : mat.wt j + 1 = (insert i (cells j)).card := by
      rw [h.wt_eq j hactive, Finset.card_insert_of_notMem hi]
      push_cast
      rfl
    have hincr : incrS (mat.wt j) = mat.wt j + 1 := if_pos (not_lt.mp hneg)
    obtain ⟨heap₁, lists₁, hremove, hlisted₁⟩ := hlisted.remove ha
    obtain ⟨heap₂, b, lists₂, hinsert, hlisted₂⟩ :=
      hlisted₁.insert (update_self j none mat.A) (mat.wt j + 1)
    rw [update_idem] at hlisted₂
    set entries' := if none ∈ entries then entries.replace none (some i) else entries ++ [some i]
      with hentries'
    have hperm : (liveRows entries').Perm (i :: liveRows entries) := by
      rw [hentries']
      split_ifs with hnone
      · exact liveRows_replace_none hnone
      · have happend : liveRows (entries ++ [some i]) = liveRows entries ++ [i] := by
          simp [liveRows]
        rw [happend]
        exact List.perm_append_singleton i (liveRows entries)
    have hnotmem : i ∉ liveRows entries := fun hmem' => hi ((hmem i).mp hmem')
    refine ⟨_, ?_, h.update hactive entries' hcard ?_ (fun k => ?_) hlisted₂,
      funext fun k => kind_congr ?_ fun hk => ?_, rfl⟩
    · have hstack := stack_eq { mat with
        wt := update mat.wt j (mat.wt j + 1)
        heap := heap₁ } (w := mat.wt j + 1) (by omega)
      simp only [addCellAndUpdate, addColSWAR, hincr]
      rw [if_neg (by omega)]
      simp only [removeJFromS, ha, hremove, map_some, bind_eq_bind, bind_some, update_self]
      rw [hstack]
      simp only [bind_some, hinsert, pure_def]
      rw [if_pos (by split_ifs <;> omega), addIToRj]
      simp [hentries, ← hentries']
    · exact hperm.nodup_iff.mpr (nodup_cons.mpr ⟨hnotmem, hnodup⟩)
    · rw [hperm.mem_iff, mem_cons, Finset.mem_insert, hmem]
    · by_cases hkj : k = j
      · simp [hkj, ha]
      · simp [update_of_ne hkj]
    · have hkj : k ≠ j := by
        rintro rfl
        exact hactive hk
      simp [update_of_ne hkj]

section

variable {L : List ℕ} (h : Columns mat cells) (hL : L.Nodup)
  (hkind : ∀ j ∈ L, mat.kind j ≠ .removed)
include h hL hkind

/-- The cells of a row are removed. -/
theorem removeCells_spec (hi : ∀ j ∈ L, mat.A j ≠ none → i ∈ cells j) :
    ∃ mat', L.foldlM (fun mat j => removeCellAndUpdate mat i j) mat = some mat' ∧
      Columns mat' (fun j => if j ∈ L then (cells j).erase i else cells j) ∧
      mat'.kind = mat.kind ∧ (∀ k, k ∉ L → mat'.R k = mat.R k) ∧ OnlyColumns mat mat' := by
  induction L generalizing mat cells with
  | nil => exact ⟨mat, rfl, by simpa using h, rfl, fun _ _ => rfl, OnlyColumns.refl mat⟩
  | cons a L ih =>
    obtain ⟨haL, hL⟩ := nodup_cons.mp hL
    obtain ⟨hkinda, hkind⟩ := forall_mem_cons.mp hkind
    obtain ⟨hia, hi⟩ := forall_mem_cons.mp hi
    obtain ⟨mat₁, hrun₁, hcols₁, hkind₁, hR₁, honly₁⟩ := removeCellAndUpdate_spec h hkinda hia
    obtain ⟨mat₂, hrun₂, hcols₂, hkind₂, hR₂, honly₂⟩ := ih hcols₁ hL
      (fun j hj => by rw [hkind₁]; exact hkind j hj) fun j hj hA => by
        have hja : j ≠ a := fun heq => haL (heq ▸ hj)
        rw [update_of_ne hja]
        refine hi j hj (kind_eq_active_iff.mp ?_)
        rw [← hkind₁]
        exact kind_eq_active_iff.mpr hA
    refine ⟨mat₂, by rw [List.foldlM_cons, hrun₁]; exact hrun₂, hcols₂.congr fun j _ => ?_,
      hkind₂.trans hkind₁, fun k hk => ?_, honly₁.trans honly₂⟩
    · by_cases hja : j = a
      · subst hja
        simp [haL]
      · simp [hja]
    · rw [mem_cons, not_or] at hk
      rw [hR₂ k hk.2, hR₁ k hk.1]

/-- The cells of a row are added. -/
theorem addCells_spec (hi : ∀ j ∈ L, i ∉ cells j) :
    ∃ mat', L.foldlM (fun mat j => addCellAndUpdate mat i j) mat = some mat' ∧
      Columns mat' (fun j => if j ∈ L then insert i (cells j) else cells j) ∧
      mat'.kind = mat.kind ∧ OnlyColumns mat mat' := by
  induction L generalizing mat cells with
  | nil => exact ⟨mat, rfl, by simpa using h, rfl, OnlyColumns.refl mat⟩
  | cons a L ih =>
    obtain ⟨haL, hL⟩ := nodup_cons.mp hL
    obtain ⟨hkinda, hkind⟩ := forall_mem_cons.mp hkind
    obtain ⟨hia, hi⟩ := forall_mem_cons.mp hi
    obtain ⟨mat₁, hrun₁, hcols₁, hkind₁, honly₁⟩ := addCellAndUpdate_spec h hkinda hia
    obtain ⟨mat₂, hrun₂, hcols₂, hkind₂, honly₂⟩ := ih hcols₁ hL
      (fun j hj => by rw [hkind₁]; exact hkind j hj) fun j hj => by
        have hja : j ≠ a := fun heq => haL (heq ▸ hj)
        rw [update_of_ne hja]
        exact hi j hj
    refine ⟨mat₂, by rw [List.foldlM_cons, hrun₁]; exact hrun₂, hcols₂.congr fun j _ => ?_,
      hkind₂.trans hkind₁, honly₁.trans honly₂⟩
    by_cases hja : j = a
    · subst hja
      simp [haL]
    · simp [hja]

end

theorem Columns.retire (h : Columns mat cells) (hj : mat.A j = some a) :
    ∃ heap, remove mat.heap a = some heap ∧ ∀ w ≤ 0,
      Columns { mat with
        wt := Function.update mat.wt j w
        R := Function.update mat.R j none
        heap := heap
        A := Function.update mat.A j none } cells := by
  obtain ⟨lists, hlisted⟩ := h.listed
  obtain ⟨heap, lists', hrun, hlisted'⟩ := hlisted.remove hj
  have hne : ∀ k, Function.update mat.A j none k ≠ none → k ≠ j ∧ mat.A k ≠ none := by
    intro k hk
    have hkj : k ≠ j := by
      rintro rfl
      exact hk (Function.update_self _ _ _)
    rw [Function.update_of_ne hkj] at hk
    exact ⟨hkj, hk⟩
  refine ⟨heap, hrun, fun w hw => ⟨⟨lists', hlisted'.congr fun k hk => ?_⟩, fun k hk => ?_,
    fun k hk => ?_, fun k hk => ?_, fun k hk => ?_⟩⟩
  · exact Function.update_of_ne (hne k hk).1 _ _
  · exact h.lt_ncols k (hne k hk).2
  · simp only [Function.update_of_ne (hne k hk).1]
    exact h.wt_eq k (hne k hk).2
  · simp only [Function.update_of_ne (hne k hk).1]
    exact h.entries k (hne k hk).2
  · by_cases hkj : k = j
    · subst hkj
      simpa using hw
    · simp only [Function.update_of_ne hkj] at hk ⊢
      exact h.inactive k hk

theorem kind_retire (mat : FilterMatrix) (j : ℕ) (heap : Heap (Option ℕ)) (w : ℤ) :
    FilterMatrix.kind { mat with
      wt := update mat.wt j w
      R := update mat.R j none
      heap := heap
      A := update mat.A j none }
    = update mat.kind j (if w < 0 then .heavy else .removed) := by
  funext k
  by_cases hkj : k = j
  · subst hkj
    simp [FilterMatrix.kind]
  · simp [FilterMatrix.kind, update_of_ne hkj]

/-- `removeColumnAndUpdate` gives the column weight 0. -/
theorem removeColumn_spec (h : Columns mat cells) (hj : mat.A j = some a) :
    ∃ heap, (∀ w ≤ 0, Columns { mat with
        wt := update mat.wt j w
        R := update mat.R j none
        heap := heap
        A := update mat.A j none } cells) ∧
      removeColumnAndUpdate mat j = some { mat with
        wt := update mat.wt j 0
        R := update mat.R j none
        heap := heap
        A := update mat.A j none } := by
  obtain ⟨heap, hrun, hcols⟩ := h.retire hj
  refine ⟨heap, hcols, ?_⟩
  simp [removeColumnAndUpdate, removeJFromSWAR, removeJFromS, hj, hrun, freeRj]

end Columns

/-! ## The first column of a stack -/

section Stack

variable {mat mat' : FilterMatrix} {cells : ℕ → Finset ℕ} {lists : ℕ → List ℕ} {j a w : ℕ}

theorem Heap.exists_cell_of_val {heap : Heap (Option ℕ)} {v : Option ℕ} (h : heap.val a = some v) :
    ∃ c, heap.cells a = some c ∧ c.val = v :=
  Option.map_eq_some_iff.mp h

section

variable (h : Listed mat.cwmax mat.heap mat.S mat.A mat.wt lists)
include h

theorem dclistFirst_stack (hw : w ≤ mat.cwmax + 1) :
    dclistFirst mat.heap (mat.S w) = some (lists w).head? := by
  obtain ⟨c, hc, hval⟩ := Heap.exists_cell_of_val (h.head w hw)
  have hnext := h.family.next_head (Set.mem_Iic.mpr hw)
  rw [Heap.next, hc, map_some] at hnext
  rw [dclistFirst, hc, map_some, if_pos hval, hnext]

theorem columnAt_cell (hj : mat.A j = some a) : columnAt mat.heap a = some j := by
  obtain ⟨c, hc, hval⟩ := Heap.exists_cell_of_val (h.cell j a hj).2
  simp [columnAt, hc, hval]

end

theorem stack_natCast (mat : FilterMatrix) (hw : w ≤ mat.cwmax + 1) :
    mat.stack w = some (mat.S w) := by
  rw [FilterMatrix.stack, if_pos (by omega), Int.toNat_natCast]

section

variable (h : Columns mat cells) (hlisted : Listed mat.cwmax mat.heap mat.S mat.A mat.wt lists)
include h hlisted

theorem mem_stack_zero :
    (∃ a ∈ lists 0, mat.heap.val a = some (some j)) ↔ mat.A j ≠ none ∧ mat.wt j = 0 := by
  constructor
  · rintro ⟨a, ha, hval⟩
    obtain ⟨k, hk, hstack⟩ := hlisted.column 0 (Nat.zero_le _) a ha
    obtain rfl : k = j := by simpa using (hlisted.cell k a hk).2.symm.trans hval
    have hactive : mat.A k ≠ none := by simp [hk]
    have hwt := h.wt_eq k hactive
    rw [stackOf] at hstack
    exact ⟨hactive, by omega⟩
  · rintro ⟨hactive, hwt⟩
    obtain ⟨a, ha⟩ := ne_none_iff_exists'.mp hactive
    obtain ⟨hmem, hval⟩ := hlisted.cell j a ha
    rw [hwt] at hmem
    exact ⟨a, by simpa [stackOf] using hmem, hval⟩

theorem length_stack_le (hw : w ≤ mat.cwmax + 1) : (lists w).length ≤ mat.ncols := by
  have hnodup := (nodup_cons.mp (hlisted.family.nodup w (Set.mem_Iic.mpr hw))).2
  have hsubset : (lists w).toFinset ⊆ (Finset.range mat.ncols).image fun j => (mat.A j).getD 0 := by
    intro a ha
    obtain ⟨j, hj, -⟩ := hlisted.column w hw a (mem_toFinset.mp ha)
    exact Finset.mem_image.mpr ⟨j, Finset.mem_range.mpr (h.lt_ncols j (by simp [hj])), by simp [hj]⟩
  calc (lists w).length = (lists w).toFinset.card := (List.toFinset_card_of_nodup hnodup).symm
    _ ≤ ((Finset.range mat.ncols).image fun j => (mat.A j).getD 0).card :=
      Finset.card_le_card hsubset
    _ ≤ mat.ncols := Finset.card_image_le.trans (Finset.card_range _).le

end

/-- Popping the stack deletes its columns one by one. -/
theorem emptyStack_run {heap₀ : Heap (Option ℕ)} {all L : List ℕ} {fuel : ℕ} {n : ℤ}
    (hfuel : L.length < fuel) (hE : Emptying heap₀ mat.heap (mat.S 0) all L)
    (hnodup : (mat.S 0 :: L).Nodup) (hsub : ∀ a ∈ L, a ∈ all)
    (hcolumn : ∀ a ∈ L, ∃ j, heap₀.val a = some (some j) ∧ mat.wt j = 0) :
    ∃ mat', emptyStack fuel mat n = some (mat', n + L.length) ∧
      Emptying heap₀ mat'.heap (mat.S 0) all [] ∧ mat'.wt = mat.wt ∧
      (∀ j, (∃ a ∈ L, heap₀.val a = some (some j)) → mat'.A j = none) ∧
      (∀ j, (¬ ∃ a ∈ L, heap₀.val a = some (some j)) →
        mat'.A j = mat.A j ∧ mat'.R j = mat.R j) ∧ OnlyColumns mat mat' := by
  induction fuel generalizing mat L n with
  | zero => omega
  | succ fuel ih =>
    cases L with
    | nil =>
      obtain ⟨c, hc, hnext⟩ := Heap.exists_cell_of_next hE.chain
      refine ⟨mat, ?_, hE, rfl, by simp, fun j _ => ⟨rfl, rfl⟩, OnlyColumns.refl mat⟩
      simp [emptyStack, hc, hnext]
    | cons a L =>
      obtain ⟨⟨j, hval, hwt⟩, hcolumn⟩ := forall_mem_cons.mp hcolumn
      obtain ⟨c, hc, hnext⟩ := Heap.exists_cell_of_next hE.chain.1
      obtain ⟨heap, hrun, hE'⟩ := hE.removeNext hnodup (hsub a mem_cons_self) hval
      set mat₁ : FilterMatrix := freeRj { mat with
        heap := heap
        A := update mat.A j none
        wt := update mat.wt j 0 } j with hmat₁
      have hwt₁ : mat₁.wt = mat.wt := Function.update_eq_self_iff.mpr hwt.symm
      have hnodup' : (mat.S 0 :: L).Nodup :=
        hnodup.sublist ((List.sublist_cons_self a L).cons_cons _)
      obtain ⟨mat', hloop, hE'', hwt', hgone, hkeep, honly⟩ := @ih mat₁ _ (n + 1)
        (by simpa using hfuel) hE' hnodup' (fun b hb => hsub b (mem_cons_of_mem a hb))
        fun b hb => by
          rw [hwt₁]
          exact hcolumn b hb
      have honly₁ : OnlyColumns mat mat₁ := rfl
      refine ⟨mat', ?_, hE'', hwt'.trans hwt₁, fun k hk => ?_, fun k hk => ?_, honly₁.trans honly⟩
      · simp only [emptyStack, hc, bind_eq_bind, bind_some, hnext, hrun]
        rw [← hmat₁, hloop, List.length_cons]
        push_cast
        rw [add_assoc, add_comm (1 : ℤ)]
      · by_cases hkL : ∃ b ∈ L, heap₀.val b = some (some k)
        · exact hgone k hkL
        · obtain ⟨b, hb, hvalb⟩ := hk
          rcases mem_cons.mp hb with rfl | hb
          · obtain rfl : j = k := by simpa using hval.symm.trans hvalb
            rw [(hkeep j hkL).1]
            exact update_self _ _ _
          · exact absurd ⟨b, hb, hvalb⟩ hkL
      · have hkL : ¬ ∃ b ∈ L, heap₀.val b = some (some k) := fun ⟨b, hb, hvalb⟩ =>
          hk ⟨b, mem_cons_of_mem a hb, hvalb⟩
        have hkj : k ≠ j := by
          rintro rfl
          exact hk ⟨a, mem_cons_self, hval⟩
        obtain ⟨hA, hR⟩ := hkeep k hkL
        rw [hA, hR]
        exact ⟨update_of_ne hkj _ _, update_of_ne hkj _ _⟩

/-- Emptying the list of weight zero deletes exactly the columns of weight zero. -/
theorem deleteEmptyColumnsSWAR_spec (h : Columns mat cells) :
    ∃ mat' njrem, deleteEmptyColumnsSWAR mat = some (mat', njrem) ∧ Columns mat' cells ∧
      (∀ j, mat'.kind j = if mat.A j ≠ none ∧ mat.wt j = 0 then .removed else mat.kind j) ∧
      mat'.wt = mat.wt ∧ (∀ j, mat'.A j ≠ none → mat.A j ≠ none ∧ mat.wt j ≠ 0) ∧
      njrem = (((Finset.range mat.ncols).filter fun j => mat.A j ≠ none ∧ mat.wt j = 0).card : ℤ) ∧
      OnlyColumns { mat with remNcols := mat.remNcols - njrem } mat' := by
  obtain ⟨lists, hlisted⟩ := h.listed
  have hI : (0 : ℕ) ∈ Set.Iic (mat.cwmax + 1) := Set.mem_Iic.mpr (Nat.zero_le _)
  have hcolumn : ∀ a ∈ lists 0, ∃ j, mat.heap.val a = some (some j) ∧ mat.wt j = 0 := by
    intro a ha
    obtain ⟨j, hj, -⟩ := hlisted.column 0 (Nat.zero_le _) a ha
    have hval := (hlisted.cell j a hj).2
    exact ⟨j, hval, ((mem_stack_zero h hlisted).mp ⟨a, ha, hval⟩).2⟩
  obtain ⟨mat', hloop, hE, hwt, hgone, hkeep, honly⟩ := emptyStack_run (n := 0)
    (Nat.lt_succ_of_le (length_stack_le h hlisted (Nat.zero_le _)))
    (Emptying.start (hlisted.family.segment 0 hI)) (hlisted.family.nodup 0 hI)
    (fun a ha => ha) hcolumn
  have hgone : ∀ j, mat.A j ≠ none ∧ mat.wt j = 0 → mat'.A j = none := fun j hj =>
    hgone j ((mem_stack_zero h hlisted).mpr hj)
  have hkeep : ∀ j, ¬ (mat.A j ≠ none ∧ mat.wt j = 0) → mat'.A j = mat.A j ∧ mat'.R j = mat.R j :=
    fun j hj => hkeep j fun hmem => hj ((mem_stack_zero h hlisted).mp hmem)
  have hactive : ∀ j, mat'.A j ≠ none → mat.A j ≠ none ∧ mat.wt j ≠ 0 := by
    intro j hj
    have hnot : ¬ (mat.A j ≠ none ∧ mat.wt j = 0) := fun hz => hj (hgone j hz)
    rw [(hkeep j hnot).1] at hj
    exact ⟨hj, fun hz => hnot ⟨hj, hz⟩⟩
  have hlisted' : Listed mat.cwmax mat'.heap mat.S mat'.A mat.wt (update lists 0 []) := by
    refine ⟨hE.finish hlisted.family hI, fun w hw => ?_, fun j a hj => ?_, fun w hw a ha => ?_⟩
    · by_cases hw0 : w = 0
      · rw [hw0, hE.val_head]
        exact hlisted.head 0 (Nat.zero_le _)
      · have hnot : mat.S w ∉ mat.S 0 :: lists 0 :=
          hlisted.family.disjoint w (Set.mem_Iic.mpr hw) 0 hI hw0 _ mem_cons_self
        rw [(hE.same _ hnot).2.2, hlisted.head w hw]
    · obtain ⟨hne, hwtne⟩ := hactive j (by simp [hj])
      rw [(hkeep j fun hz => hwtne hz.2).1] at hj
      obtain ⟨ha, hval⟩ := hlisted.cell j a hj
      have hpos : stackOf mat.cwmax (mat.wt j) ≠ 0 := by
        have hwtj := h.wt_eq j hne
        rw [stackOf]
        omega
      have hnot : a ∉ mat.S 0 :: lists 0 := hlisted.family.disjoint _
        (Set.mem_Iic.mpr (stackOf_le _ _)) 0 hI hpos a (mem_cons_of_mem _ ha)
      exact ⟨by rw [update_of_ne hpos]; exact ha, by rw [(hE.same a hnot).2.2, hval]⟩
    · have hw0 : w ≠ 0 := by
        rintro rfl
        rw [update_self] at ha
        simp at ha
      rw [update_of_ne hw0] at ha
      obtain ⟨j, hj, hstack⟩ := hlisted.column w hw a ha
      have hnot : ¬ (mat.A j ≠ none ∧ mat.wt j = 0) := fun hz => hw0 (by
        rw [hstack, hz.2]
        simp [stackOf])
      exact ⟨j, by rw [(hkeep j hnot).1, hj], hstack⟩
  have hlength : ((lists 0).length : ℤ)
      = ((Finset.range mat.ncols).filter fun j => mat.A j ≠ none ∧ mat.wt j = 0).card := by
    have hnodup := (nodup_cons.mp (hlisted.family.nodup 0 hI)).2
    rw [← List.toFinset_card_of_nodup hnodup]
    congr 1
    refine Finset.card_bij' (fun a _ => (columnAt mat.heap a).getD 0) (fun j _ => (mat.A j).getD 0)
      (fun a ha => ?_) (fun j hj => ?_) (fun a ha => ?_) fun j hj => ?_
    · obtain ⟨j, hj, -⟩ := hlisted.column 0 (Nat.zero_le _) a (mem_toFinset.mp ha)
      have hzero := (mem_stack_zero h hlisted).mp
        ⟨a, mem_toFinset.mp ha, (hlisted.cell j a hj).2⟩
      rw [columnAt_cell hlisted hj, getD_some, Finset.mem_filter, Finset.mem_range]
      exact ⟨h.lt_ncols j hzero.1, hzero⟩
    · obtain ⟨a, ha, hval⟩ := (mem_stack_zero h hlisted).mpr (Finset.mem_filter.mp hj).2
      obtain ⟨k, hk, -⟩ := hlisted.column 0 (Nat.zero_le _) a ha
      obtain rfl : k = j := by simpa using (hlisted.cell k a hk).2.symm.trans hval
      rw [hk, getD_some]
      exact mem_toFinset.mpr ha
    · obtain ⟨j, hj, -⟩ := hlisted.column 0 (Nat.zero_le _) a (mem_toFinset.mp ha)
      rw [columnAt_cell hlisted hj, getD_some, hj, getD_some]
    · obtain ⟨a, ha⟩ := ne_none_iff_exists'.mp (Finset.mem_filter.mp hj).2.1
      rw [ha, getD_some, columnAt_cell hlisted ha, getD_some]
  obtain ⟨hncols, hremNcols, hcwmax, hS⟩ : mat'.ncols = mat.ncols ∧ mat'.remNcols = mat.remNcols ∧
      mat'.cwmax = mat.cwmax ∧ mat'.S = mat.S := by
    rw [honly]
    exact ⟨rfl, rfl, rfl, rfl⟩
  refine ⟨{ mat' with remNcols := mat'.remNcols - (lists 0).length }, (lists 0).length, ?_,
    ⟨⟨update lists 0 [], ?_⟩, fun j hj => ?_, fun j hj => ?_, fun j hj => ?_,
      fun j hj => ?_⟩, fun j => ?_, hwt, hactive, hlength, ?_⟩
  · simp only [deleteEmptyColumnsSWAR, hloop, zero_add, bind_eq_bind, bind_some]
    rfl
  · simp only [hwt, hcwmax, hS]
    exact hlisted'
  · simp only [hncols]
    exact h.lt_ncols j (hactive j hj).1
  · simp only [hwt]
    exact h.wt_eq j (hactive j hj).1
  · obtain ⟨hne, hwtne⟩ := hactive j hj
    simp only [(hkeep j fun hz => hwtne hz.2).2]
    exact h.entries j hne
  · simp only [hwt]
    by_cases hz : mat.A j ≠ none ∧ mat.wt j = 0
    · exact hz.2.le
    · simp only [(hkeep j hz).1] at hj
      exact h.inactive j hj
  · split_ifs with hz
    · rw [kind_eq_removed_iff]
      simp only [hgone j hz, hwt, hz.2]
      simp
    · refine kind_congr ?_ fun _ => ?_
      · simp [(hkeep j hz).1]
      · simp [hwt]
  · rw [OnlyColumns, honly]

end Stack

end CadoNfs.Merge
