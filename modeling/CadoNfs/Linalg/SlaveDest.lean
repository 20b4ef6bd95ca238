import CadoNfs.Lib.BucketScatter
import CadoNfs.Lib.FoldLoop
import CadoNfs.Lib.ForRange
import CadoNfs.Macros

/-!
# The local matrix of a thread

A thread reads the stream of its rows and column indices twice.  The first pass counts the
coefficients of every row and every column, the second one writes them to their places.
The counters that are only printed are left out.

Main results:

- Theorem `foldlM_slaveWord`: the parser.
- Theorem `slaveLoop_iff`: when the local matrix is built.
-/

namespace CadoNfs.Balancing

open BucketScatter FoldLoop ForRange Function
open Option (bind_eq_bind bind_some)

/-! ## Code -/

/-- `UINT32_MAX`, which announces the index of a row. -/
def uint32Max : ℕ :=
  2 ^ 32 - 1

/-- The fields of `slave_data_s` that are used, with `mat->transpose`. -/
structure SlaveData where
  trows : ℕ
  tcols : ℕ
  myNrows : ℕ
  myNcols : ℕ
  myRow0 : ℕ
  myCol0 : ℕ
  transpose : Bool

/-- The weights, the positions of the second pass and `mat`. -/
structure SlaveMatrix where
  rowWeights : ℕ → ℕ
  colWeights : ℕ → ℕ
  tw : ℕ
  fill : Option (ℕ → ℕ)
  size : ℕ
  p : ℕ → ℕ

/-- `slave_dest_s`. -/
structure SlaveDest extends SlaveMatrix where
  currentRow : ℕ
  incomingRowindex : Bool

/-- `slave_dest_alloc`. -/
def slaveDestAlloc : SlaveDest where
  rowWeights := fun _ => 0
  colWeights := fun _ => 0
  tw := 0
  fill := none
  size := 0
  p := fun _ => 0
  currentRow := 0
  incomingRowindex := false

/-- The number of rows of the local matrix, or of columns when it is transposed. -/
def SlaveData.count (s : SlaveData) : ℕ :=
  if s.transpose then s.myNcols else s.myNrows

/-- A coefficient is counted, or written to `mat->p`. -/
def slaveCoeff (s : SlaveData) (X : SlaveMatrix) (e : ℕ × ℕ) : Option SlaveMatrix :=
  let r := e.1
  let c := e.2
  match X.fill with
  | none => do
    assertAlways (r < s.myNrows ∧ c < s.myNcols)
    some { X with
      rowWeights := update X.rowWeights r ((X.rowWeights r + 1) % 2 ^ 32)
      colWeights := update X.colWeights c ((X.colWeights c + 1) % 2 ^ 32)
      tw := X.tw + 1 }
  | some fill => do
    let k := if s.transpose then c else r
    let v := if s.transpose then r else c
    assertAlways (k < s.count ∧ fill k < X.size)
    some { X with
      p := update X.p (fill k) v
      fill := some (update fill k (fill k + 1))
      tw := X.tw + 1 }

/-- One word of `slave_dest_put`. -/
def slaveWord (s : SlaveData) (R : SlaveDest) (x : ℕ) : Option SlaveDest :=
  if R.incomingRowindex then do
    assertAlways (x ≤ s.trows ∧ s.myRow0 ≤ x ∧ x < s.myRow0 + s.myNrows)
    some { R with currentRow := x, incomingRowindex := false }
  else if x = uint32Max then
    some { R with incomingRowindex := true }
  else do
    assertAlways (x ≤ s.tcols ∧ s.myCol0 ≤ x ∧ x < s.myCol0 + s.myNcols)
    let X ← slaveCoeff s R.toSlaveMatrix
      ((R.currentRow + 2 ^ 32 - s.myRow0) % 2 ^ 32, x - s.myCol0)
    some { R with toSlaveMatrix := X }

/-- `slave_dest_put`. -/
def slaveDestPut (s : SlaveData) (R : SlaveDest) (p : List ℕ) : Option SlaveDest :=
  p.foldlM (slaveWord s) R

/-- The pointer `lptr` with `fill` and `mat->p`. -/
structure Layout where
  lptr : ℕ
  fill : ℕ → ℕ
  p : ℕ → ℕ

/-- One pass of the loop of `slave_dest_engage_final_pass`. -/
def layoutPass (weights : ℕ → ℕ) (size u : ℕ) (l : Layout) : Option Layout := do
  assertAlways (l.lptr < size)
  let lptr := l.lptr + 1
  some ⟨lptr + weights u, update l.fill u lptr, update l.p l.lptr (weights u)⟩

/-- `slave_dest_engage_final_pass`. -/
def slaveDestEngageFinalPass (s : SlaveData) (D : SlaveDest) : Option SlaveDest := do
  let weights := if s.transpose then D.colWeights else D.rowWeights
  let size := s.count + D.tw
  let l ← forRangeM s.count (layoutPass weights size) ⟨0, fun _ => 0, fun _ => 0⟩
  assertAlways (l.lptr % 2 ^ 32 = s.count + D.tw)
  some { D with size := size, fill := some l.fill, p := l.p }

/-- `slave_loop`, with the pieces in which the stream is read in the two passes. -/
def slaveLoop (s : SlaveData) (chunks chunks' : List (List ℕ)) : Option SlaveDest := do
  let R ← chunks.foldlM (slaveDestPut s) slaveDestAlloc
  let R ← slaveDestEngageFinalPass s R
  chunks'.foldlM (slaveDestPut s) R

/-! ## The parser -/

section Parser

variable {s : SlaveData} {rows : List (ℕ × List ℕ)} {R : SlaveDest}

/-- The stream of rows, each given by its index and its columns. -/
def rowWords (rows : List (ℕ × List ℕ)) : List ℕ :=
  rows.flatMap fun row => uint32Max :: row.1 :: row.2

/-- The coefficients of these rows in the local matrix. -/
def localEntries (s : SlaveData) (rows : List (ℕ × List ℕ)) : List (ℕ × ℕ) :=
  rows.flatMap fun row => row.2.map fun c => (row.1 - s.myRow0, c - s.myCol0)

/-- The rows and columns of a stream belong to the block. -/
def InBlock (s : SlaveData) (rows : List (ℕ × List ℕ)) : Prop :=
  ∀ row ∈ rows, (s.myRow0 ≤ row.1 ∧ row.1 < s.myRow0 + s.myNrows) ∧
    ∀ c ∈ row.2, s.myCol0 ≤ c ∧ c < s.myCol0 + s.myNcols

/-- The block belongs to the matrix. -/
structure SlaveData.Fits (s : SlaveData) : Prop where
  rows : s.myRow0 + s.myNrows ≤ s.trows
  cols : s.myCol0 + s.myNcols ≤ s.tcols
  trows : s.trows < 2 ^ 32
  tcols : s.tcols < 2 ^ 32

theorem mem_localEntries (h : InBlock s rows) {e : ℕ × ℕ} (he : e ∈ localEntries s rows) :
    e.1 < s.myNrows ∧ e.2 < s.myNcols := by
  obtain ⟨row, hrow, hmem⟩ := List.mem_flatMap.mp he
  obtain ⟨c, hc, rfl⟩ := List.mem_map.mp hmem
  have hr := (h row hrow).1
  have hcol := (h row hrow).2 c hc
  exact ⟨by omega, by omega⟩

theorem foldlM_columns (hs : s.Fits) {row : ℕ} (hrow : s.myRow0 ≤ row ∧ row < s.myRow0 + s.myNrows)
    {cols : List ℕ} (hcols : ∀ c ∈ cols, s.myCol0 ≤ c ∧ c < s.myCol0 + s.myNcols)
    (X : SlaveMatrix) :
    cols.foldlM (slaveWord s) ⟨X, row, false⟩
      = ((cols.map fun c => (row - s.myRow0, c - s.myCol0)).foldlM (slaveCoeff s) X).map
        fun X => ⟨X, row, false⟩ := by
  have hfits := hs.rows
  have hfits' := hs.cols
  have htrows := hs.trows
  have htcols := hs.tcols
  induction cols generalizing X with
  | nil => rfl
  | cons c cols ih =>
    obtain ⟨hc, hcols⟩ := List.forall_mem_cons.mp hcols
    have hmax : c ≠ uint32Max := by
      rw [uint32Max]
      omega
    have hindex : (row + 2 ^ 32 - s.myRow0) % 2 ^ 32 = row - s.myRow0 := by omega
    have hassert : c ≤ s.tcols ∧ s.myCol0 ≤ c ∧ c < s.myCol0 + s.myNcols := ⟨by omega, hc⟩
    rw [List.foldlM_cons, List.map_cons, List.foldlM_cons, slaveWord, if_neg Bool.false_ne_true,
      if_neg hmax, assertAlways_of_true hassert, hindex]
    simp only [bind_eq_bind, bind_some]
    cases slaveCoeff s X (row - s.myRow0, c - s.myCol0) with
    | none => rfl
    | some X' => exact ih hcols X'

/-- Between the rows the state of the parser does not matter. -/
theorem foldlM_slaveWord (hs : s.Fits) (hrows : InBlock s rows)
    (hR : R.incomingRowindex = false) :
    ∃ row, (rowWords rows).foldlM (slaveWord s) R
      = ((localEntries s rows).foldlM (slaveCoeff s) R.toSlaveMatrix).map
        fun X => ⟨X, row, false⟩ := by
  induction rows generalizing R with
  | nil =>
    obtain ⟨X, row, incoming⟩ := R
    subst hR
    exact ⟨row, rfl⟩
  | cons row rows ih =>
    obtain ⟨⟨hrow, hcols⟩, hrest⟩ := List.forall_mem_cons.mp hrows
    have hassert : row.1 ≤ s.trows ∧ s.myRow0 ≤ row.1 ∧ row.1 < s.myRow0 + s.myNrows := by
      have := hs.rows
      exact ⟨by omega, hrow⟩
    have hmarker : slaveWord s R uint32Max = some { R with incomingRowindex := true } := by
      rw [slaveWord, hR, if_neg Bool.false_ne_true, if_pos rfl]
    have hindex : slaveWord s { R with incomingRowindex := true } row.1
        = some ⟨R.toSlaveMatrix, row.1, false⟩ := by
      rw [slaveWord, if_pos rfl, assertAlways_of_true hassert]
      rfl
    have hheader : (uint32Max :: row.1 :: row.2).foldlM (slaveWord s) R
        = row.2.foldlM (slaveWord s) ⟨R.toSlaveMatrix, row.1, false⟩ := by
      simp [hmarker, hindex]
    have hsplit : rowWords (row :: rows) = (uint32Max :: row.1 :: row.2) ++ rowWords rows := rfl
    have hentries : localEntries s (row :: rows)
        = (row.2.map fun c => (row.1 - s.myRow0, c - s.myCol0)) ++ localEntries s rows := rfl
    rw [hsplit, List.foldlM_append, hheader, foldlM_columns hs hrow hcols, hentries,
      List.foldlM_append]
    cases hX : (row.2.map fun c => (row.1 - s.myRow0, c - s.myCol0)).foldlM (slaveCoeff s)
        R.toSlaveMatrix with
    | none => exact ⟨0, rfl⟩
    | some X => exact ih (R := ⟨X, row.1, false⟩) hrest rfl

end Parser

/-! ## The two passes -/

section Passes

variable {s : SlaveData} {entries : List (ℕ × ℕ)} {w : ℕ → ℕ}

/-- A coefficient with its bucket first. -/
def SlaveData.orient (s : SlaveData) (e : ℕ × ℕ) : ℕ × ℕ :=
  if s.transpose then e.swap else e

/-- The values of the bucket `k`. -/
def bucket (s : SlaveData) (entries : List (ℕ × ℕ)) (k : ℕ) : List ℕ :=
  values (entries.map s.orient) k

/-- The coefficients are in the local matrix. -/
def InRange (s : SlaveData) (entries : List (ℕ × ℕ)) : Prop :=
  ∀ e ∈ entries, e.1 < s.myNrows ∧ e.2 < s.myNcols

theorem orient_fst_lt {e : ℕ × ℕ} (h : e.1 < s.myNrows ∧ e.2 < s.myNcols) :
    (s.orient e).1 < s.count := by
  rw [SlaveData.orient, SlaveData.count]
  split_ifs
  · exact h.2
  · exact h.1

theorem update_weight (done : List (ℕ × ℕ)) (e : ℕ × ℕ) {f : ℕ → ℕ}
    (hf : ∀ k, f k = (values done k).length % 2 ^ 32) (k : ℕ) :
    update f e.1 ((f e.1 + 1) % 2 ^ 32) k = (values (done ++ [e]) k).length % 2 ^ 32 := by
  rw [show e = (e.1, e.2) from rfl, values_append_singleton]
  by_cases hk : e.1 = k
  · subst hk
    rw [update_self, hf, if_pos rfl, List.length_append, List.length_singleton, Nat.mod_add_mod]
  · rw [update_of_ne (Ne.symm hk), hf, if_neg hk, List.append_nil]

theorem foldlM_count (h : InRange s entries) :
    ∃ X, entries.foldlM (slaveCoeff s) slaveDestAlloc.toSlaveMatrix = some X ∧
      X.tw = entries.length ∧
      ∀ k, (if s.transpose then X.colWeights else X.rowWeights) k
        = (bucket s entries k).length % 2 ^ 32 := by
  obtain ⟨X, hrun, -, htw, hrow, hcol⟩ := foldlM_induct (f := slaveCoeff s)
    (s := slaveDestAlloc.toSlaveMatrix) (motive := fun done X => X.fill = none ∧ X.tw = done.length ∧
      (∀ r, X.rowWeights r = (values done r).length % 2 ^ 32) ∧
      ∀ c, X.colWeights c = (values (done.map Prod.swap) c).length % 2 ^ 32)
    entries ⟨rfl, rfl, fun _ => rfl, fun _ => rfl⟩ (by
      rintro done e rest heq X ⟨hfill, htw, hrow, hcol⟩
      have hrange := h e (by rw [heq]; simp)
      refine ⟨_, by rw [slaveCoeff, hfill, assertAlways_of_true hrange]; rfl, rfl, ?_, ?_, ?_⟩
      · rw [List.length_append, List.length_singleton, ← htw]
      · exact update_weight done e hrow
      · rw [List.map_append]
        exact update_weight _ e.swap hcol)
  refine ⟨X, hrun, htw, fun k => ?_⟩
  rw [bucket]
  cases hs : s.transpose with
  | false =>
    have horient : s.orient = id := funext fun e => if_neg (by rw [hs]; exact Bool.false_ne_true)
    rw [if_neg Bool.false_ne_true, hrow, horient, List.map_id]
  | true =>
    have horient : s.orient = Prod.swap := funext fun e => if_pos hs
    rw [if_pos rfl, hcol, horient]

theorem forRangeM_layoutPass {n : ℕ} {weights : ℕ → ℕ} (hw : ∀ k, weights k = w k) :
    ∃ l, forRangeM n (layoutPass weights (offset w n)) ⟨0, fun _ => 0, fun _ => 0⟩ = some l ∧
      l.lptr = offset w n ∧ Filled w n [] l.fill l.p := by
  have hloop := forRangeM_induct
    (motive := fun u l => l.lptr = offset w u ∧ Filled w u [] l.fill l.p)
    (layoutPass weights (offset w n)) ⟨0, fun _ => 0, fun _ => 0⟩ n
    ⟨rfl, by constructor <;> intros <;> omega⟩ ?_
  · exact hloop
  · rintro u hu l ⟨hlptr, hfilled⟩
    have hend : offset w u + (1 + w u) ≤ offset w n := offset_add_le hu
    have hpass : layoutPass weights (offset w n) u l
        = some ⟨offset w u + 1 + w u, update l.fill u (offset w u + 1),
          update l.p (offset w u) (w u)⟩ := by
      rw [layoutPass, assertAlways_of_true (by omega), hlptr, hw]
      rfl
    exact ⟨_, hpass, by rw [offset, Nat.add_assoc], hfilled.header_step⟩

/-- The coefficients fill the buckets in order. -/
theorem foldlM_fill (h : InRange s entries)
    (hw : ∀ k, w k = (bucket s entries k).length) {X : SlaveMatrix} {fill : ℕ → ℕ}
    (hfill : X.fill = some fill) (hsize : X.size = offset w s.count)
    (hfilled : Filled w s.count [] fill X.p) :
    ∃ X' fill', entries.foldlM (slaveCoeff s) X = some X' ∧ X'.size = X.size ∧
      Filled w s.count (entries.map s.orient) fill' X'.p := by
  obtain ⟨X', hrun, hsize', fill', -, hfilled'⟩ := foldlM_induct (f := slaveCoeff s)
    (motive := fun done X' => X'.size = X.size ∧ ∃ fill', X'.fill = some fill' ∧
      Filled w s.count (done.map s.orient) fill' X'.p)
    entries ⟨rfl, fill, hfill, hfilled⟩ (by
      rintro done e rest heq Y ⟨hsizeY, fill', hfill', hfilled'⟩
      have hk := orient_fst_lt (h e (by rw [heq]; simp))
      have hlength : ∀ k, w k = (values (done.map s.orient) k).length
          + (values ((e :: rest).map s.orient) k).length := by
        intro k
        rw [hw, bucket, heq, List.map_append]
        simp [values]
      have hroom : (values (done.map s.orient) (s.orient e).1).length < w (s.orient e).1 := by
        rw [hlength, List.map_cons, length_values_cons, if_pos rfl]
        omega
      have hnext := hfilled'.step hk hroom (fun k _ => by rw [hlength k]; omega) (s.orient e).2
      have hend : offset w (s.orient e).1 + (1 + w (s.orient e).1) ≤ offset w s.count :=
        offset_add_le hk
      have hassert : (s.orient e).1 < s.count ∧ fill' (s.orient e).1 < Y.size := by
        rw [hsizeY, hsize, hfilled'.fill_eq _ hk]
        exact ⟨hk, by omega⟩
      have hkey : (if s.transpose then e.2 else e.1) = (s.orient e).1 := by
        rw [SlaveData.orient]
        split_ifs <;> rfl
      have hvalue : (if s.transpose then e.1 else e.2) = (s.orient e).2 := by
        rw [SlaveData.orient]
        split_ifs <;> rfl
      have hcoeff : slaveCoeff s Y e = some { Y with
          p := update Y.p (fill' (s.orient e).1) (s.orient e).2
          fill := some (update fill' (s.orient e).1 (fill' (s.orient e).1 + 1))
          tw := Y.tw + 1 } := by
        rw [slaveCoeff, hfill']
        simp only [hkey, hvalue, assertAlways_of_true hassert]
        rfl
      refine ⟨_, hcoeff, hsizeY, _, rfl, ?_⟩
      rw [List.map_append]
      exact hnext)
  exact ⟨X', fill', hrun, hsize', hfilled'⟩

variable {rows : List (ℕ × List ℕ)} {chunks chunks' : List (List ℕ)}

theorem InBlock.inRange (h : InBlock s rows) : InRange s (localEntries s rows) :=
  fun _ he => mem_localEntries h he

theorem offset_bucket (h : InRange s entries) :
    offset (fun k => (bucket s entries k).length) s.count = s.count + entries.length := by
  have hkeys : ∀ p ∈ entries.map s.orient, p.1 < s.count := by
    intro p hp
    obtain ⟨e, he, rfl⟩ := List.mem_map.mp hp
    exact orient_fst_lt (h e he)
  have := offset_length_values hkeys
  rwa [List.length_map] at this

theorem firstPass (hs : s.Fits) (hrows : InBlock s rows) (h : chunks.flatten = rowWords rows) :
    ∃ X row, chunks.foldlM (slaveDestPut s) slaveDestAlloc = some ⟨X, row, false⟩ ∧
      X.tw = (localEntries s rows).length ∧
      ∀ k, (if s.transpose then X.colWeights else X.rowWeights) k
        = (bucket s (localEntries s rows) k).length % 2 ^ 32 := by
  obtain ⟨X, hrun, htw, hweights⟩ := foldlM_count hrows.inRange
  obtain ⟨row, hwords⟩ := foldlM_slaveWord (R := slaveDestAlloc) hs hrows rfl
  refine ⟨X, row, ?_, htw, hweights⟩
  have hchunks : chunks.foldlM (slaveDestPut s) slaveDestAlloc
      = chunks.flatten.foldlM (slaveWord s) slaveDestAlloc := foldlM_chunks chunks _
  rw [hchunks, h, hwords, hrun]
  rfl

theorem slaveDestEngageFinalPass_none {D : SlaveDest} (hlarge : 2 ^ 32 ≤ s.count + D.tw) :
    slaveDestEngageFinalPass s D = none := by
  rw [slaveDestEngageFinalPass]
  simp only [bind_eq_bind]
  refine Option.bind_eq_none_iff.mpr fun l _ => ?_
  have hassert : ¬l.lptr % 2 ^ 32 = s.count + D.tw := by omega
  rw [assertAlways_of_false hassert]
  rfl

theorem slaveDestEngageFinalPass_eq {D : SlaveDest} (hsmall : s.count + D.tw < 2 ^ 32)
    (hoffset : offset w s.count = s.count + D.tw)
    (hweights : ∀ k, (if s.transpose then D.colWeights else D.rowWeights) k = w k) :
    ∃ fill p, slaveDestEngageFinalPass s D
        = some { D with size := s.count + D.tw, fill := some fill, p := p } ∧
      Filled w s.count [] fill p := by
  obtain ⟨l, hlayout, hlptr, hfilled⟩ := forRangeM_layoutPass hweights
  have hassert : l.lptr % 2 ^ 32 = s.count + D.tw := by
    rw [hlptr, hoffset]
    exact Nat.mod_eq_of_lt hsmall
  rw [hoffset] at hlayout
  refine ⟨l.fill, l.p, ?_, hfilled⟩
  rw [slaveDestEngageFinalPass]
  simp only [hlayout, bind_eq_bind, bind_some, assertAlways_of_true hassert]

section

variable (hs : s.Fits) (hrows : InBlock s rows) (h : chunks.flatten = rowWords rows)
include hs hrows h

theorem slaveLoop_none (hlarge : 2 ^ 32 ≤ s.count + (localEntries s rows).length) :
    slaveLoop s chunks chunks' = none := by
  obtain ⟨X, row, hrun, htw, -⟩ := firstPass hs hrows h
  have hengage := slaveDestEngageFinalPass_none (D := ⟨X, row, false⟩) (htw ▸ hlarge)
  rw [slaveLoop, hrun]
  simp [hengage]

/-- The words that arrive are put into the buckets of their columns. -/
theorem slaveLoop_spec (h' : chunks'.flatten = rowWords rows)
    (hsmall : s.count + (localEntries s rows).length < 2 ^ 32) :
    ∃ R, slaveLoop s chunks chunks' = some R ∧
      (List.range R.size).map R.p = (List.range s.count).flatMap fun k =>
        (bucket s (localEntries s rows) k).length :: bucket s (localEntries s rows) k := by
  obtain ⟨X, row, hrun, htw, hweights⟩ := firstPass hs hrows h
  obtain ⟨w, hw⟩ : ∃ w : ℕ → ℕ, ∀ k, w k = (bucket s (localEntries s rows) k).length :=
    ⟨_, fun _ => rfl⟩
  have hoffset : offset w s.count = s.count + X.tw := by
    rw [htw, ← offset_bucket hrows.inRange]
    exact offset_congr fun k _ => hw k
  -- the weights of a block of this size do not wrap
  have hweights' : ∀ k, (if s.transpose then X.colWeights else X.rowWeights) k = w k := by
    intro k
    have hle := length_values_le ((localEntries s rows).map s.orient) k
    rw [List.length_map] at hle
    rw [hweights, hw]
    exact Nat.mod_eq_of_lt (lt_of_le_of_lt hle (by omega))
  obtain ⟨fill, p, hengage, hfilled⟩ := slaveDestEngageFinalPass_eq (D := ⟨X, row, false⟩)
    (htw ▸ hsmall) hoffset hweights'
  obtain ⟨Y, hY⟩ : ∃ Y : SlaveMatrix,
      { X with size := s.count + X.tw, fill := some fill, p := p } = Y := ⟨_, rfl⟩
  obtain ⟨Z, fill', hfold, hsize, hfilled'⟩ := foldlM_fill (X := Y) hrows.inRange hw
    (by rw [← hY]) (by rw [← hY, hoffset]) (by rw [← hY]; exact hfilled)
  obtain ⟨row', hwords⟩ := foldlM_slaveWord (R := ⟨Y, row, false⟩) hs hrows rfl
  have hsecond : chunks'.foldlM (slaveDestPut s) ⟨Y, row, false⟩ = some ⟨Z, row', false⟩ := by
    have hchunks : chunks'.foldlM (slaveDestPut s) ⟨Y, row, false⟩
        = chunks'.flatten.foldlM (slaveWord s) ⟨Y, row, false⟩ := foldlM_chunks chunks' _
    rw [hchunks, h', hwords, hfold]
    rfl
  have hengage' : slaveDestEngageFinalPass s ⟨X, row, false⟩ = some ⟨Y, row, false⟩ := by
    rw [hengage, ← hY]
  refine ⟨⟨Z, row', false⟩, ?_, ?_⟩
  · rw [slaveLoop, hrun]
    simp [hengage', hsecond]
  · have hZ : Z.size = offset w s.count := by
      rw [hsize, ← hY, hoffset]
    rw [hZ]
    exact hfilled'.map_range fun k _ => hw k

end

end Passes

end CadoNfs.Balancing
