import CadoNfs.Filter.MergeMono
import CadoNfs.Filter.MergeRead

/-!
# Runs of merge

`merge` reads the matrix and then calls the operations in some order.

Main results:

- Theorem `step_spec`: each operation ends, and keeps the invariant.
- Theorem `consistent_of_run`: what holds between two operations.
-/

namespace CadoNfs.Merge

open DoublyLinked SortedXor

/-! ## Operations -/

/-- A call of an operation. -/
inductive Op
  | addRowsAndUpdate (i1 i2 : ℕ) (len : ℤ)
  | removeRowDefinitely (i : ℕ)
  | removeSingletons
  | mergeForColumn (j : ℕ) (useMST : Bool)
  | deleteHeavyColumns
  | deleteEmptyColumns

/-- The call.  `mergeForColumn` is given the weight of the column. -/
def Op.run (op : Op) (rep : Report) (mat : FilterMatrix) : Option (Report × FilterMatrix) :=
  match op with
  | addRowsAndUpdate i1 i2 len => (Merge.addRowsAndUpdate mat i1 i2 len).map fun mat => (rep, mat)
  | removeRowDefinitely i => Merge.removeRowDefinitely rep mat i
  | removeSingletons => (Merge.removeSingletons rep mat).map fun result => (result.1, result.2.1)
  | mergeForColumn j useMST => Merge.mergeForColumn rep mat (mat.wt j).toNat j useMST
  | deleteHeavyColumns => (Merge.deleteHeavyColumns rep mat).map fun result => (result.1, result.2.1)
  | deleteEmptyColumns => (deleteEmptyColumnsSWAR mat).map fun result => (rep, result.1)

/-- When `merge` may call an operation.  The length given to `addRowsAndUpdate` is that
of the sum, or -1. -/
def Op.Allowed (op : Op) (mat : FilterMatrix) : Prop :=
  match op with
  | addRowsAndUpdate i1 i2 len => ∃ row1 row2, mat.rows i1 = some row1 ∧ mat.rows i2 = some row2 ∧
      (len = -1 ∨ len = (xorMerge row1 row2).length)
  | removeRowDefinitely i => mat.rows i ≠ none
  | removeSingletons => True
  | mergeForColumn j _ => mat.A j ≠ none ∧ 0 < mat.wt j ∧ mat.wt j ≤ mergeLevelMax
  | deleteHeavyColumns => True
  | deleteEmptyColumns => True

/-- One operation. -/
def Step (st st' : Report × FilterMatrix) : Prop :=
  ∃ op : Op, op.Allowed st.2 ∧ op.run st.1 st.2 = some st'

/-- What holds between two operations, written out. -/
structure Consistent (dropped : ℤ) (mat : FilterMatrix) : Prop where
  increasing : ∀ i row, mat.rows i = some row → row.Pairwise (· < ·)
  wt_eq : ∀ j, mat.A j ≠ none → mat.wt j
    = ((Finset.range mat.nrows).filter fun i => ∃ row, mat.rows i = some row ∧ j ∈ row).card
  entries : ∀ j, mat.A j ≠ none → ∃ entries, mat.R j = some entries ∧
    (entries.filter (· ≠ none)).Nodup ∧
    ∀ i, some i ∈ entries ↔ ∃ row, mat.rows i = some row ∧ j ∈ row
  cells : ∃ lists : ℕ → List ℕ,
    (∀ w ≤ mat.cwmax + 1, Segment mat.heap (mat.S w) (lists w) ∧ (lists w).Nodup) ∧
    ∀ j a, mat.A j = some a → ∀ w ≤ mat.cwmax + 1, ∀ b,
      b ∈ lists w ∧ mat.heap.val b = some (some j)
        ↔ b = a ∧ (w : ℤ) = min (mat.wt j) (mat.cwmax + 1)
  weight_eq : mat.weight = dropped
    + ∑ i ∈ Finset.range mat.nrows, rowWeight (mat.rows i) (mat.wburied i)
  wt_ne_zero : ∀ i row, mat.rows i = some row → ∀ j ∈ row, mat.wt j ≠ 0

section Run

variable {dropped : ℤ} {mat mat' : FilterMatrix} {rep : Report} {st st' : Report × FilterMatrix}
  {op : Op}

theorem filter_ne_none (entries : List (Option ℕ)) :
    entries.filter (· ≠ none) = (liveRows entries).map some := by
  induction entries with
  | nil => rfl
  | cons e entries ih =>
    cases e with
    | none => rw [liveRows_cons_none, ← ih]; rfl
    | some i => rw [liveRows_cons_some, List.map_cons, ← ih]; rfl

/-- What the operations keep is what consistency asks for. -/
theorem Inv.consistent (h : Inv dropped mat) : Consistent dropped mat := by
  have hcells : ∀ i j, i ∈ mat.cells j ↔ ∃ row, mat.rows i = some row ∧ j ∈ row := by
    intro i j
    rw [FilterMatrix.mem_cells]
    constructor
    · rintro ⟨-, hj⟩
      cases hrow : mat.rows i with
      | none =>
        rw [FilterMatrix.row, hrow] at hj
        simp at hj
      | some row => exact ⟨row, rfl, FilterMatrix.row_eq hrow ▸ hj⟩
    · rintro ⟨row, hrow, hj⟩
      exact ⟨h.lt_nrows i (by simp [hrow]), by rwa [FilterMatrix.row_eq hrow]⟩
  refine ⟨h.increasing, fun j hj => ?_, fun j hj => ?_, ?_, h.weight_eq, fun i row hi j hj => ?_⟩
  · rw [h.columns.wt_eq j hj]
    congr 2
    ext i
    rw [hcells, Finset.mem_filter, Finset.mem_range]
    constructor
    · rintro ⟨row, hrow, hjrow⟩
      exact ⟨h.lt_nrows i (by simp [hrow]), row, hrow, hjrow⟩
    · rintro ⟨-, hmem⟩
      exact hmem
  · obtain ⟨entries, hentries, hnodup, hmem⟩ := h.columns.entries j hj
    refine ⟨entries, hentries, ?_, fun i => ?_⟩
    · rw [filter_ne_none]
      exact hnodup.map (Option.some_injective ℕ)
    · rw [← hcells, ← hmem, liveRows, List.mem_filterMap]
      constructor
      · exact fun hi => ⟨some i, hi, rfl⟩
      · rintro ⟨e, he, hei⟩
        obtain rfl : e = some i := hei
        exact he
  · obtain ⟨lists, hlisted⟩ := h.columns.listed
    refine ⟨lists, fun w hw => ⟨hlisted.family.segment w (Set.mem_Iic.mpr hw),
      (List.nodup_cons.mp (hlisted.family.nodup w (Set.mem_Iic.mpr hw))).2⟩, fun j a hj w hw b => ?_⟩
    have hwt := h.columns.wt_eq j (by simp [hj])
    have hstack : (w : ℤ) = min (mat.wt j) (mat.cwmax + 1) ↔ w = stackOf mat.cwmax (mat.wt j) := by
      rw [stackOf]
      omega
    rw [hstack]
    constructor
    · rintro ⟨hb, hval⟩
      obtain ⟨k, hk, hw⟩ := hlisted.column w hw b hb
      obtain rfl : k = j := by simpa using (hlisted.cell k b hk).2.symm.trans hval
      exact ⟨Option.some.inj (hk.symm.trans hj), hw⟩
    · rintro ⟨rfl, rfl⟩
      exact hlisted.cell j b hj
  · by_cases hA : mat.A j = none
    · have hkind := h.kind_ne i row hi j hj
      rw [Ne, kind_eq_removed_iff] at hkind
      intro hzero
      exact hkind ⟨hA, by omega⟩
    · rw [h.columns.wt_eq j hA]
      have hmem := (hcells i j).mpr ⟨row, hi, hj⟩
      exact_mod_cast (Finset.card_pos.mpr ⟨i, hmem⟩).ne'

/-- An allowed operation ends, and keeps the invariant. -/
theorem step_spec (h : Inv dropped mat) (hop : op.Allowed mat) :
    ∃ st', op.run rep mat = some st' ∧ Inv dropped st'.2 := by
  cases op with
  | addRowsAndUpdate i1 i2 len =>
    obtain ⟨row1, row2, h1, h2, hlen⟩ := hop
    obtain ⟨mat', hrun, hinv, -⟩ := addRowsAndUpdate_spec h h1 h2 hlen
    exact ⟨(rep, mat'), by rw [Op.run, hrun]; rfl, hinv⟩
  | removeRowDefinitely i =>
    obtain ⟨row, hrow⟩ := Option.ne_none_iff_exists'.mp hop
    obtain ⟨mat', hrun, hinv, -⟩ := removeRowDefinitely_spec rep h hrow
    exact ⟨_, hrun, hinv⟩
  | removeSingletons =>
    obtain ⟨is, js, rep', mat', hrun, hinv, -⟩ := removeSingletons_spec rep h
    exact ⟨(rep', mat'), by rw [Op.run, hrun]; rfl, hinv⟩
  | mergeForColumn j useMST =>
    obtain ⟨hj, hpos, hmax⟩ := hop
    obtain ⟨ind, pivot, kept, targets, rep', mat', hrun, hinv, -⟩ :=
      mergeForColumn_spec rep h hj (m := (mat.wt j).toNat) (by omega) (by omega) (by omega) useMST
    exact ⟨(rep', mat'), hrun, hinv⟩
  | deleteHeavyColumns =>
    obtain ⟨js, mat', hrun, hinv, -⟩ := deleteHeavyColumns_spec rep h
    exact ⟨(rep, mat'), by rw [Op.run, hrun]; rfl, hinv⟩
  | deleteEmptyColumns =>
    obtain ⟨mat', njrem, hrun, hinv, -⟩ := deleteEmptyColumns_spec h
    exact ⟨(rep, mat'), by rw [Op.run, hrun]; rfl, hinv⟩

theorem inv_of_run (h : Inv dropped st.2) (hrun : Relation.ReflTransGen Step st st') :
    Inv dropped st'.2 := by
  induction hrun with
  | refl => exact h
  | tail _ hstep ih =>
    obtain ⟨op, hop, hrun⟩ := hstep
    obtain ⟨st₂, hrun₂, hinv⟩ := step_spec ih hop
    obtain rfl := Option.some.inj (hrun.symm.trans hrun₂)
    exact hinv

/-- Rows, weights, lists of rows and stacks agree between two operations of a run, and any
allowed operation ends. -/
theorem consistent_of_run {purged : List (List ℕ)} {ncols cwmax : ℕ} {rwmax keep : ℤ}
    {mat₀ : FilterMatrix} (hpurged : ∀ cols ∈ purged, cols.Nodup ∧ ∀ j ∈ cols, j < ncols)
    (hread : readMatrix purged ncols cwmax rwmax keep = some mat₀)
    (hrun : Relation.ReflTransGen Step ([], mat₀) (rep, mat)) :
    Consistent (∑ i ∈ (Finset.range purged.length).filter fun i => mat₀.rows i = none,
        ((purged.getD i []).length : ℤ)) mat ∧
      ∀ op : Op, op.Allowed mat → ∃ st', op.run rep mat = some st' := by
  have hinv := inv_of_run (start_readMatrix hpurged hread).inv hrun
  refine ⟨hinv.consistent, fun op hop => ?_⟩
  obtain ⟨st', hrun', -⟩ : ∃ st', op.run rep mat = some st' ∧ _ := step_spec hinv hop
  exact ⟨st', hrun'⟩

/-- A column of weight 3 is merged. -/
theorem consistent_of_run_merge :
    ∃ mat₀ rep mat, readMatrix [[0, 1], [0, 1, 2], [1, 2]] 3 4 10 0 = some mat₀ ∧
      mergeForColumn [] mat₀ (mat₀.wt 1).toNat 1 true = some (rep, mat) ∧
      Consistent (∑ i ∈ (Finset.range 3).filter fun i => mat₀.rows i = none,
        (([[0, 1], [0, 1, 2], [1, 2]].getD i []).length : ℤ)) mat := by
  obtain ⟨mat₀, hread⟩ := Option.isSome_iff_exists.mp
    (show (readMatrix [[0, 1], [0, 1, 2], [1, 2]] 3 4 10 0).isSome by decide)
  have hpurged : ∀ cols ∈ [[0, 1], [0, 1, 2], [1, 2]], cols.Nodup ∧ ∀ j ∈ cols, j < 3 := by decide
  have hstart := start_readMatrix hpurged hread
  have hactive : mat₀.A 1 ≠ none := by
    rw [← kind_eq_active_iff, hstart.kind_eq]
    decide
  have hwt : mat₀.wt 1 = 3 := hstart.wt_eq 1 (by decide)
  have hallowed : (Op.mergeForColumn 1 true).Allowed mat₀ := by
    refine ⟨hactive, ?_, ?_⟩ <;> rw [hwt] <;> decide
  obtain ⟨⟨rep, mat⟩, hrun⟩ :=
    (consistent_of_run hpurged hread .refl).2 (Op.mergeForColumn 1 true) hallowed
  exact ⟨mat₀, rep, mat, hread, hrun,
    (consistent_of_run hpurged hread (.single ⟨_, hallowed, hrun⟩)).1⟩

end Run

end CadoNfs.Merge
