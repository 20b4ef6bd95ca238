import CadoNfs.Filter.MergeRead

/-!
# The buffers of the reader of merge

Three buffers are filled while the rows are read: `buf`, which a row longer than it doubles
once, the lists `R[j]` of the light columns, and the rows.  The lists always have room;
`buf` does not if a row is much longer than the ones before.

Main results:

- Theorem `readRows_isSome_iff`: the rows are read exactly if `buf` has room for each.
- Theorem `readMatrix_stores_iff`: so is the file, and then the rows are the lines without
  their buried columns.
-/

namespace CadoNfs.Merge

open Function (update update_of_ne update_self)
open SortedXor
open List (foldlM_cons length_append length_nil range)
open Option (bind_eq_bind bind_eq_some_iff bind_none bind_some isSome_none)

/-! ## The condition -/

/-- `buf` has room for the columns that are not buried, row after row. -/
def FitsScratch (tooheavy : ℕ → Bool) : ℕ → List (List ℕ) → Prop
  | _, [] => True
  | lbuf, cols :: rest =>
    match doubleLbuf lbuf cols.length with
    | none => False
    | some room => cols.countP (fun j => !tooheavy j) ≤ room ∧ FitsScratch tooheavy room rest

instance decidableFitsScratch (tooheavy : ℕ → Bool) :
    ∀ lbuf rows, Decidable (FitsScratch tooheavy lbuf rows)
  | _, [] => isTrue trivial
  | lbuf, cols :: rest => by
    unfold FitsScratch
    cases doubleLbuf lbuf cols.length with
    | none => exact isFalse id
    | some room =>
      have := decidableFitsScratch tooheavy room rest
      exact inferInstanceAs (Decidable (_ ∧ _))

/-- What is stored of a line: nothing if all its columns are heavy. -/
def storedRow (tooheavy heavy : ℕ → Bool) (cols : List ℕ) : Option (List ℕ) :=
  if cols.all heavy then none
  else some ((cols.filter fun j => !tooheavy j).insertionSort (· ≤ ·))

/-! ## One row -/

section Row

variable {cols buf : List ℕ} {mat mat' : FilterMatrix} {nbHeavy i lbuf lbuf' : ℕ}
  {tooheavy : ℕ → Bool}

/-- A light column is in `cols` only if its list has room. -/
def RoomInLists (mat : FilterMatrix) (cols : List ℕ) : Prop :=
  ∀ j ∈ cols, 0 < mat.wt j → ∃ entries, mat.R j = some entries ∧ (entries.length : ℤ) < mat.wt j

theorem readEntry_isSome_iff {a : ℕ} (ha : a < mat.ncols) (hroom : RoomInLists mat [a]) :
    (readEntry tooheavy i lbuf (mat, buf, nbHeavy) a).isSome ↔ tooheavy a ∨ buf.length < lbuf := by
  simp only [readEntry, Nat.not_le.mpr ha, if_false]
  by_cases hheavy : tooheavy a
  · simp [hheavy]
  by_cases hlbuf : lbuf ≤ buf.length
  · simp [hheavy, hlbuf]
  by_cases hpos : 0 < mat.wt a
  · obtain ⟨entries, hentries, hlt⟩ := hroom a (List.mem_singleton_self a) hpos
    simp [hheavy, hlbuf, hpos, hentries, not_le.mpr hlt]
    omega
  · simp [hheavy, hlbuf, hpos]
    omega

section

variable (hnodup : cols.Nodup) (htoo : ∀ j, tooheavy j → mat.wt j < 0)
include hnodup htoo

/-- The entries of a row are read as long as the buffer has room. -/
theorem readEntries_isSome_iff
    (hlt : ∀ j ∈ cols, j < mat.ncols) (hroom : RoomInLists mat cols) (hbuf : buf.length ≤ lbuf) :
    (cols.foldlM (readEntry tooheavy i lbuf) (mat, buf, nbHeavy)).isSome ↔
      buf.length + cols.countP (fun j => !tooheavy j) ≤ lbuf := by
  induction cols generalizing mat buf nbHeavy with
  | nil => simpa using hbuf
  | cons a cols ih =>
    obtain ⟨hacols, hnodup'⟩ := List.nodup_cons.mp hnodup
    obtain ⟨ha, hlt⟩ := List.forall_mem_cons.mp hlt
    obtain ⟨hrooma, hroom⟩ := List.forall_mem_cons.mp hroom
    have hone := @readEntry_isSome_iff buf mat nbHeavy i lbuf tooheavy a ha
      (by simpa [RoomInLists] using hrooma)
    rw [foldlM_cons, List.countP_cons]
    cases hstep : readEntry tooheavy i lbuf (mat, buf, nbHeavy) a with
    | none =>
      have hfull : ¬ (tooheavy a ∨ buf.length < lbuf) := by
        rw [← hone, hstep]
        simp
      obtain ⟨hstored, hlbuf⟩ := not_or.mp hfull
      simp only [bind_eq_bind, bind_none, isSome_none, hstored]
      simp only [Bool.false_eq_true, false_iff, Bool.not_false, if_true]
      omega
    | some next =>
      have hsome : tooheavy a ∨ buf.length < lbuf := by
        rw [← hone, hstep]
        rfl
      obtain ⟨mat₁, buf₁, nbHeavy₁⟩ := next
      -- the state is the one that the lemma about whole rows gives for the row of this entry
      obtain ⟨rfl, rfl, -, -⟩ := readEntries_spec (List.nodup_singleton a) htoo
        (show [a].foldlM (readEntry tooheavy i lbuf) (mat, buf, nbHeavy)
          = some (mat₁, buf₁, nbHeavy₁) by simp [hstep])
      have hroom₁ : RoomInLists (entered tooheavy i mat [a]) cols := by
        intro j hj hpos
        obtain ⟨entries, hentries, hlength⟩ := hroom j hj hpos
        have hja : j ∉ [a] := by
          rw [List.mem_singleton]
          rintro rfl
          exact hacols hj
        refine ⟨entries, ?_, hlength⟩
        simp only [entered, hja, false_and, if_false]
        exact hentries
      have hbuf₁ : (buf ++ [a].filter fun j => ¬ tooheavy j).length
          = buf.length + if !tooheavy a then 1 else 0 := by
        by_cases hheavy : tooheavy a <;> simp [hheavy]
      have hbuf₁' : (buf ++ [a].filter fun j => ¬ tooheavy j).length ≤ lbuf := by
        rw [hbuf₁]
        split_ifs with hheavy
        · rcases hsome with h | h
          · simp [h] at hheavy
          · omega
        · omega
      have htoo₁ : ∀ j, tooheavy j → (entered tooheavy i mat [a]).wt j < 0 := htoo
      rw [bind_eq_bind, bind_some, ih hnodup' htoo₁ hlt hroom₁ hbuf₁', hbuf₁]
      omega

theorem readRow_stored (hrun : readRow tooheavy (mat, lbuf) (cols, i) = some (mat', lbuf')) :
    mat'.wt = mat.wt ∧
      mat'.rows = update mat.rows i (storedRow tooheavy (fun j => mat.wt j < 0) cols) ∧
      mat'.wburied = update mat.wburied i (mat.wburied i + cols.countP tooheavy) ∧
      doubleLbuf lbuf cols.length = some lbuf' := by
  simp only [readRow] at hrun
  split_ifs at hrun with hnrows hempty
  · obtain ⟨rfl, rfl⟩ : _ = mat' ∧ _ = lbuf' := by simpa using hrun
    subst hempty
    simp [storedRow, doubleLbuf]
  · obtain ⟨room, hroom, hrun⟩ := bind_eq_some_iff.mp hrun
    obtain ⟨⟨mat₁, buf, nbHeavy⟩, hread, hrun⟩ := bind_eq_some_iff.mp hrun
    obtain ⟨rfl, rfl, rfl, -⟩ := readEntries_spec hnodup htoo hread
    split_ifs at hrun with hheavy hdup
    · obtain ⟨rfl, rfl⟩ : _ = mat' ∧ _ = lbuf' := by simpa using hrun
      rw [zero_add, List.countP_eq_length] at hheavy
      exact ⟨rfl, by simp [storedRow, entered, List.all_eq_true.mpr hheavy], rfl, hroom⟩
    · obtain ⟨rfl, rfl⟩ : _ = mat' ∧ _ = lbuf' := by simpa using hrun
      rw [zero_add, List.countP_eq_length] at hheavy
      have hall : ¬ cols.all fun j => decide (mat.wt j < 0) := fun h =>
        hheavy (List.all_eq_true.mp h)
      exact ⟨rfl, by simp [storedRow, entered, hall], rfl, hroom⟩

end

theorem ne_of_mem_zip_tail {row : List ℕ} (hrow : row.Pairwise (· < ·)) {pair : ℕ × ℕ}
    (hpair : pair ∈ row.zip row.tail) : pair.1 ≠ pair.2 := by
  induction row with
  | nil => simp at hpair
  | cons a row ih =>
    obtain ⟨ha, hrow⟩ := List.pairwise_cons.mp hrow
    cases row with
    | nil => simp at hpair
    | cons b row =>
      rw [List.tail_cons, List.zip_cons_cons, List.mem_cons] at hpair
      rcases hpair with rfl | hpair
      · exact (ha b List.mem_cons_self).ne
      · exact ih hrow hpair

variable (lbuf) in
/-- A row is read if the buffer is long enough. -/
theorem readRow_isSome_iff (hi : i < mat.nrows) (hnodup : cols.Nodup)
    (htoo : ∀ j, tooheavy j → mat.wt j < 0) (hlt : ∀ j ∈ cols, j < mat.ncols)
    (hroom : RoomInLists mat cols) :
    (readRow tooheavy (mat, lbuf) (cols, i)).isSome ↔
      ∃ room, doubleLbuf lbuf cols.length = some room ∧
        cols.countP (fun j => !tooheavy j) ≤ room := by
  simp only [readRow, Nat.not_le.mpr hi, if_false]
  by_cases hempty : cols = []
  · simp [hempty, doubleLbuf]
  rw [if_neg hempty]
  cases hdouble : doubleLbuf lbuf cols.length with
  | none => simp
  | some room =>
    have hentries : (cols.foldlM (readEntry tooheavy i room) (mat, [], 0)).isSome ↔
        ([] : List ℕ).length + cols.countP (fun j => !tooheavy j) ≤ room :=
      readEntries_isSome_iff hnodup htoo hlt hroom (Nat.zero_le room)
    rw [length_nil, zero_add] at hentries
    simp only [bind_eq_bind, bind_some, Option.some.injEq, exists_eq_left']
    rw [← hentries]
    cases hread : cols.foldlM (readEntry tooheavy i room) (mat, [], 0) with
    | none => simp
    | some next =>
      obtain ⟨mat₁, buf, nbHeavy⟩ := next
      obtain ⟨-, rfl, -, -⟩ := readEntries_spec hnodup htoo hread
      have hdup : ¬ (((([] ++ cols.filter fun j => ¬ tooheavy j).insertionSort (· ≤ ·)).zip
          (([] ++ cols.filter fun j => ¬ tooheavy j).insertionSort (· ≤ ·)).tail).any
            fun pair => pair.1 = pair.2) := by
        rw [List.any_eq_true]
        rintro ⟨pair, hpair, heq⟩
        exact ne_of_mem_zip_tail (pairwise_insertionSort (hnodup.filter _)) hpair
          (of_decide_eq_true heq)
      simp only [bind_some, Option.isSome_some, iff_true]
      split_ifs <;> rfl

end Row

/-! ## All rows -/

/-- The rows and the numbers of buried columns after the lines `done`. -/
structure StoredRows (tooheavy heavy : ℕ → Bool) (done : List (List ℕ)) (mat : FilterMatrix) :
    Prop where
  rows_eq : ∀ i < done.length, mat.rows i = storedRow tooheavy heavy (done.getD i [])
  wburied_eq : ∀ i < done.length, mat.wburied i = (done.getD i []).countP tooheavy

section Rows

variable {done rest : List (List ℕ)} {cols : List ℕ} {mat₀ mat mat' : FilterMatrix}
  {lbuf lbuf' : ℕ} {tooheavy heavy : ℕ → Bool}

theorem StoredRows.append (h : StoredRows tooheavy heavy done mat)
    (hrows : mat'.rows = update mat.rows done.length (storedRow tooheavy heavy cols))
    (hwburied : mat'.wburied = update mat.wburied done.length (cols.countP tooheavy)) :
    StoredRows tooheavy heavy (done ++ [cols]) mat' := by
  have hlength : (done ++ [cols]).length = done.length + 1 := length_append
  refine ⟨fun i hi => ?_, fun i hi => ?_⟩ <;> rw [hlength] at hi <;>
    by_cases hil : i = done.length
  · rw [hil, hrows, update_self, getD_append_singleton_length]
  · rw [hrows, update_of_ne hil, getD_append_singleton_of_lt (by omega)]
    exact h.rows_eq i (by omega)
  · rw [hil, hwburied, update_self, getD_append_singleton_length]
  · rw [hwburied, update_of_ne hil, getD_append_singleton_of_lt (by omega)]
    exact h.wburied_eq i (by omega)

/-- What `fillmat` allocates: a list for each light column, with room for the rows of the
file that have the column. -/
structure Allocated (mat₀ : FilterMatrix) (purged : List (List ℕ)) : Prop where
  nrows_eq : mat₀.nrows = purged.length
  columns : ∀ cols ∈ purged, cols.Nodup ∧ ∀ j ∈ cols, j < mat₀.ncols
  light : ∀ j < mat₀.ncols, 0 ≤ mat₀.wt j ↔ mat₀.A j ≠ none
  weight : ∀ j, 0 ≤ mat₀.wt j → mat₀.wt j = fileWeight purged j

theorem Allocated.roomInLists (h : Allocated mat₀ (done ++ cols :: rest))
    (hread : ReadRows tooheavy mat₀ done mat) : RoomInLists mat cols := by
  intro j hj hpos
  rw [hread.same] at hpos
  have hlt := (h.columns cols (by simp)).2 j hj
  refine ⟨_, hread.entries j ((h.light j hlt).mp hpos.le), ?_⟩
  have hentries : (((range done.length).filter
      fun i => j ∈ done.getD i []).map (some : ℕ → Option ℕ)).length = fileWeight done j := by
    rw [List.length_map, fileWeight_eq_card, ← List.toFinset_card_of_nodup
      (List.nodup_range.filter _)]
    congr 1
    ext i
    simp
  have hweight : fileWeight (done ++ cols :: rest) j
      = fileWeight done j + 1 + fileWeight rest j := by
    rw [fileWeight, List.countP_append, List.countP_cons, if_pos (by simpa using hj)]
    simp only [fileWeight]
    omega
  rw [hentries, hread.same]
  simp only
  rw [h.weight j hpos.le, hweight]
  push_cast
  omega

/-- The rows are read exactly if `buf` has room for each of them. -/
theorem readRows_isSome_iff (done : List (List ℕ)) (halloc : Allocated mat₀ (done ++ rest))
    (htoo : ∀ j, tooheavy j → mat₀.wt j < 0) (hread : ReadRows tooheavy mat₀ done mat) :
    ((rest.zipIdx done.length).foldlM (readRow tooheavy) (mat, lbuf)).isSome ↔
      FitsScratch tooheavy lbuf rest := by
  induction rest generalizing done mat lbuf with
  | nil => simp [FitsScratch]
  | cons cols rest ih =>
    obtain ⟨hnodup, hlt⟩ := halloc.columns cols (by simp)
    have hwt : mat.wt = mat₀.wt := by rw [hread.same]
    have hncols : mat.ncols = mat₀.ncols := by rw [hread.same]
    have hnrows : done.length < mat.nrows := by
      rw [hread.same]
      simp only
      rw [halloc.nrows_eq, length_append, List.length_cons]
      omega
    have hrow := readRow_isSome_iff lbuf hnrows hnodup (by rwa [hwt]) (by rwa [hncols])
      (halloc.roomInLists hread)
    rw [List.zipIdx_cons, foldlM_cons, FitsScratch]
    cases hstep : readRow tooheavy (mat, lbuf) (cols, done.length) with
    | none =>
      rw [hstep, isSome_none] at hrow
      simp only [bind_eq_bind, bind_none, isSome_none, Bool.false_eq_true, false_iff]
      intro hfits
      cases hdouble : doubleLbuf lbuf cols.length with
      | none => rw [hdouble] at hfits; exact hfits
      | some room =>
        rw [hdouble] at hfits
        exact Bool.false_ne_true (hrow.mpr ⟨room, hdouble, hfits.1⟩)
    | some next =>
      obtain ⟨mat₁, lbuf₁⟩ := next
      have hdouble := (readRow_stored hnodup (by rwa [hwt]) hstep).2.2.2
      obtain ⟨room, hroom, hcount⟩ := hrow.mp (by rw [hstep]; rfl)
      obtain rfl : lbuf₁ = room := by
        rw [hdouble] at hroom
        exact Option.some.inj hroom
      have hread₁ := readRow_spec hread hnodup htoo (fun j hj hA => ?_) hstep
      · rw [hdouble, bind_eq_bind, bind_some,
          show done.length + 1 = (done ++ [cols]).length by simp,
          ih (done ++ [cols]) (by rwa [List.append_assoc, List.singleton_append]) hread₁]
        exact ⟨fun hfits => ⟨hcount, hfits⟩, And.right⟩
      · have hnonneg := (halloc.light j (hlt j hj)).mpr hA
        rw [halloc.weight j hnonneg]
        exact_mod_cast fileWeight_pos (show cols ∈ done ++ cols :: rest by simp) hj

theorem readRows_stored (done : List (List ℕ)) (hnodup : ∀ cols ∈ rest, cols.Nodup)
    (htoo : ∀ j, tooheavy j → mat.wt j < 0) (hheavy : heavy = fun j => decide (mat.wt j < 0))
    (hstored : StoredRows tooheavy heavy done mat)
    (hwburied : ∀ i, done.length ≤ i → mat.wburied i = 0)
    (hrun : (rest.zipIdx done.length).foldlM (readRow tooheavy) (mat, lbuf) = some (mat', lbuf')) :
    StoredRows tooheavy heavy (done ++ rest) mat' := by
  induction rest generalizing done mat lbuf with
  | nil =>
    obtain ⟨rfl, -⟩ : mat = mat' ∧ lbuf = lbuf' := by simpa using hrun
    rwa [List.append_nil]
  | cons cols rest ih =>
    obtain ⟨hcols, hnodup⟩ := List.forall_mem_cons.mp hnodup
    rw [List.zipIdx_cons, foldlM_cons] at hrun
    obtain ⟨⟨mat₁, lbuf₁⟩, hstep, hrun⟩ := bind_eq_some_iff.mp hrun
    obtain ⟨hwt, hrows, hwburied₁, -⟩ := readRow_stored hcols htoo hstep
    rw [← hheavy] at hrows
    rw [hwburied _ le_rfl, zero_add] at hwburied₁
    have hlength : (done ++ [cols]).length = done.length + 1 := length_append
    rw [← hlength] at hrun
    have hall := ih (done ++ [cols]) hnodup (by rwa [hwt]) (by rwa [hwt]) (hstored.append hrows hwburied₁)
      (fun i hi => by
        rw [hwburied₁, update_of_ne (by omega)]
        exact hwburied i (by omega)) hrun
    rwa [List.append_assoc, List.singleton_append] at hall

end Rows

/-! ## The file -/

section File

variable {purged : List (List ℕ)} {ncols cwmax : ℕ} {rwmax keep : ℤ}

instance (purged : List (List ℕ)) (cwmax j : ℕ) : Decidable (Buried purged cwmax j) :=
  inferInstanceAs (Decidable (_ ∧ _))

/-- The rows are the lines without their buried columns, which are counted; a line with heavy
columns only has no row. -/
def StoresFile (purged : List (List ℕ)) (cwmax : ℕ) (mat : FilterMatrix) : Prop :=
  StoredRows (fun j => Buried purged cwmax j) (fun j => cwmax < fileWeight purged j) purged mat

theorem allocated_start {mat : FilterMatrix}
    (hpurged : ∀ cols ∈ purged, cols.Nodup ∧ ∀ j ∈ cols, j < ncols)
    (hfilled : Filled (fileWeight purged) ncols mat)
    (hwt : ∀ j, mat.wt j = if cwmax < fileWeight purged j then -(fileWeight purged j : ℤ)
      else fileWeight purged j)
    (hnrows : mat.nrows = purged.length) (hncols : mat.ncols = ncols)
    (hcwmax : mat.cwmax = cwmax) : Allocated mat purged := by
  refine ⟨hnrows, by rwa [hncols], fun j hj => ?_, fun j hj => ?_⟩
  · rw [hncols] at hj
    rw [hfilled.active j, hcwmax, hwt]
    split_ifs <;> omega
  · rw [hwt] at hj ⊢
    split_ifs at hj ⊢
    · omega
    · rfl

section

variable (hpurged : ∀ cols ∈ purged, cols.Nodup ∧ ∀ j ∈ cols, j < ncols)
include hpurged

variable (cwmax rwmax keep) in
theorem readMatrix_eq : ∃ mat₀ : FilterMatrix, Allocated mat₀ purged ∧
      ReadRows (fun j => Buried purged cwmax j) mat₀ [] mat₀ ∧
      (∀ j, decide (Buried purged cwmax j) → mat₀.wt j < 0) ∧
      (fun j => decide (cwmax < fileWeight purged j)) = (fun j => decide (mat₀.wt j < 0)) ∧
      readMatrix purged ncols cwmax rwmax keep
        = ((purged.zipIdx 0).foldlM (readRow fun j => Buried purged cwmax j) (mat₀, 100)).map
          fun state => { state.1 with remNcols := state.1.ncols } := by
  obtain ⟨mat, hfill, hfilled, honly⟩ := filled_start cwmax rwmax keep hpurged
  have hnrows : mat.nrows = purged.length := by rw [honly]; rfl
  have hncols : mat.ncols = ncols := by rw [honly]; rfl
  have hcwmax : mat.cwmax = cwmax := by rw [honly]; rfl
  have hwt : ∀ j, mat.wt j = if cwmax < fileWeight purged j then -(fileWeight purged j : ℤ)
      else fileWeight purged j := fun j =>
    hfilled.wt_file (fun cols hcols => (hpurged cols hcols).2) hcwmax
  have htooheavy : (fun j => decide (mat.wt j < -((mat.nrows / 2000 : ℕ) : ℤ)))
      = fun j => decide (Buried purged cwmax j) := by
    funext j
    rw [hwt, hnrows]
    exact decide_eq_decide.mpr lt_wmax_iff
  have halloc := allocated_start hpurged hfilled hwt hnrows hncols hcwmax
  refine ⟨{ mat with
      remNrows := mat.nrows
      weight := 0
      nburied := (range mat.ncols).countP fun j => Buried purged cwmax j },
    ⟨halloc.nrows_eq, halloc.columns, halloc.light, halloc.weight⟩,
    readRows_nil (fun j => Buried purged cwmax j) hfilled honly, fun j hj => ?_, ?_, ?_⟩
  · have hheavy := (of_decide_eq_true hj).1
    simp only [hwt, if_pos hheavy]
    omega
  · funext j
    simp only [hwt]
    refine decide_eq_decide.mpr ?_
    split_ifs <;> omega
  · simp only [readMatrix, hfill, bind_eq_bind, bind_some, filterMatrixRead, htooheavy]
    rw [Option.map_eq_bind]
    rfl

theorem exists_readMatrix_stores (hfits : FitsScratch (fun j => Buried purged cwmax j) 100 purged) :
    ∃ mat, readMatrix purged ncols cwmax rwmax keep = some mat ∧ StoresFile purged cwmax mat := by
  obtain ⟨mat₀, halloc, hnil, htoo, hheavy, hrun⟩ := readMatrix_eq cwmax rwmax keep hpurged
  obtain ⟨⟨mat, lbuf⟩, hread⟩ := Option.isSome_iff_exists.mp
    ((readRows_isSome_iff [] halloc htoo hnil).mpr hfits)
  rw [length_nil] at hread
  have hstored := readRows_stored [] (fun cols hcols => (hpurged cols hcols).1) htoo
    hheavy ⟨by simp, by simp⟩ hnil.wburied_eq hread
  rw [List.nil_append] at hstored
  refine ⟨{ mat with remNcols := mat.ncols }, ?_, hstored.rows_eq, hstored.wburied_eq⟩
  rw [hrun, hread]
  rfl

end

theorem fitsScratch_of_readMatrix {mat : FilterMatrix}
    (hpurged : ∀ cols ∈ purged, cols.Nodup ∧ ∀ j ∈ cols, j < ncols)
    (hread : readMatrix purged ncols cwmax rwmax keep = some mat) :
    FitsScratch (fun j => Buried purged cwmax j) 100 purged := by
  obtain ⟨mat₀, halloc, hnil, htoo, -, hrun⟩ := readMatrix_eq cwmax rwmax keep hpurged
  rw [hrun] at hread
  obtain ⟨state, hstate, -⟩ := Option.map_eq_some_iff.mp hread
  refine (readRows_isSome_iff [] halloc htoo hnil).mp ?_
  rw [length_nil, hstate]
  rfl

/-- The file is read and stored exactly if `buf`, of length 100 and doubled once by each row
that is longer, has room for every row. -/
theorem readMatrix_stores_iff (hpurged : ∀ cols ∈ purged, cols.Nodup ∧ ∀ j ∈ cols, j < ncols) :
    (∃ mat, readMatrix purged ncols cwmax rwmax keep = some mat ∧ StoresFile purged cwmax mat) ↔
      FitsScratch (fun j => Buried purged cwmax j) 100 purged :=
  ⟨fun ⟨_, hread, _⟩ => fitsScratch_of_readMatrix hpurged hread, exists_readMatrix_stores hpurged⟩

/-- With the three rows of a small file. -/
theorem readMatrix_stores_threeRows :
    (∃ mat, readMatrix [[2, 0], [], [1, 2, 0]] 3 4 10 0 = some mat ∧
        StoresFile [[2, 0], [], [1, 2, 0]] 4 mat) ↔
      FitsScratch (fun j => Buried [[2, 0], [], [1, 2, 0]] 4 j) 100 [[2, 0], [], [1, 2, 0]] :=
  readMatrix_stores_iff (by decide)

theorem columns_range (n : ℕ) : ∀ cols ∈ [range n], cols.Nodup ∧ ∀ j ∈ cols, j < n := by
  intro cols hcols
  rw [List.mem_singleton.mp hcols]
  exact ⟨List.nodup_range, fun j hj => List.mem_range.mp hj⟩

theorem not_fitsScratch_range {n : ℕ} (hn : 200 < n) :
    ¬ FitsScratch (fun j => Buried [range n] 1 j) 100 [range n] := by
  have hcount : (range n).countP (fun j => !decide (Buried [range n] 1 j)) = n := by
    rw [List.countP_eq_length.mpr, List.length_range]
    intro j _
    have hle : fileWeight [range n] j ≤ 1 := List.countP_le_length
    have hno : ¬ Buried [range n] 1 j := fun h => absurd h.1 (by omega)
    simp [hno]
  rw [FitsScratch, List.length_range, doubleLbuf, if_pos (by omega), if_pos (by omega)]
  simp only [hcount]
  omega

/-- A file with one row of 201 columns is not read. -/
theorem not_readMatrix_stores :
    ¬ ∀ (purged : List (List ℕ)) (ncols cwmax : ℕ) (rwmax keep : ℤ),
      (∀ cols ∈ purged, cols.Nodup ∧ ∀ j ∈ cols, j < ncols) →
      ∃ mat, readMatrix purged ncols cwmax rwmax keep = some mat ∧
        StoresFile purged cwmax mat := by
  intro h
  have hno : ∀ n, 200 < n → ¬ ∃ mat, readMatrix [range n] n 1 10 0 = some mat ∧
      StoresFile [range n] 1 mat := by
    rintro n hn ⟨mat, hread, -⟩
    exact not_fitsScratch_range hn (fitsScratch_of_readMatrix (columns_range n) hread)
  exact hno 201 (by omega) (h [range 201] 201 1 10 0 (columns_range 201))

end File

end CadoNfs.Merge
