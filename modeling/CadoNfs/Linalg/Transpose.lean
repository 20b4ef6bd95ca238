import CadoNfs.Lib.Digits
import CadoNfs.Macros
import Mathlib.Data.List.Basic
import Mathlib.Data.List.GetD
import Mathlib.Data.List.Induction
import Mathlib.Tactic.Ring

/-!
# The transpose of a matrix by temporary files

`transpose.c` transposes a matrix that need not fit in memory: the transpose of each chunk
of rows is saved to a file of its own, and the files are then read side by side, twenty columns
at a time.

Main results:

- Theorem `scanUnsigned_printSigned`: a number is read back, also one that is printed with
  a sign.
- Theorem `saveChunks_spec`: the files, or the assertion that fails.
- Theorem `rebuildLoop_spec`: what is written of the columns, or the error.
- Theorem `transpose_correct_iff`: when exactly the transpose is written.
-/

namespace CadoNfs.Transpose

open Digits
open Nat (mod_eq_of_lt toDigits)
open List (append_assoc filter_append flatten_cons forall_mem_cons length_append length_cons
  length_nil map_cons mem_cons mem_cons_self mem_flatten mem_range not_mem_nil range range'
  range'_succ)

/-! ## Code -/

/-- How a run can fail: an assertion, the message that the rows are not in decreasing weight, and
a lack of fuel. -/
inductive Failure where
  | assertion
  | notDecreasing
  | fuel
  deriving DecidableEq, Repr

/-- `ASSERT` and `ASSERT_ALWAYS`. -/
def assert (q : Prop) [Decidable q] : Except Failure Unit :=
  if q then .ok () else .error .assertion

/-- `%d`, of an `unsigned int`. -/
def printSigned (n : ℕ) : List Char :=
  if n < 2 ^ 31 then toDigits 10 n else '-' :: toDigits 10 (2 ^ 32 - n)

/-- A sign, if there is one. -/
def scanSign : List Char → Bool × List Char
  | '-' :: text => (true, text)
  | '+' :: text => (false, text)
  | text => (false, text)

/-- `fscanf` with `%u`: white space is skipped, there may be a sign, then there must be
a digit. -/
def scanUnsigned (text : List Char) : Option (ℕ × List Char) :=
  let (neg, text) :=
    scanSign (text.dropWhile fun c => c = ' ' || c = '\n' || c = '\t' || c = '\r')
  let (n, rest) := readNumber (digitBelow 10) 10 (2 ^ 32) 0 text
  if rest.length = text.length then none
  else some (if neg = true then (2 ^ 32 - n) % 2 ^ 32 else n, rest)

/-- The loop of `transpose_and_save` over the entries of row `i`. -/
def pushEntries (ncols nrows i : ℕ) : List ℕ → (ℕ → List ℕ) → Except Failure (ℕ → List ℕ)
  | [], transposed => .ok transposed
  | c :: row, transposed => do
    assert (c < ncols)
    let transposed := Function.update transposed c (transposed c ++ [i])
    assert ((transposed c).length < nrows)
    pushEntries ncols nrows i row transposed

/-- The loop of `transpose_and_save` over the rows from `i` on. -/
def pushRows (ncols nrows : ℕ) :
    ℕ → List (List ℕ) → (ℕ → List ℕ) → Except Failure (ℕ → List ℕ)
  | _, [], transposed => .ok transposed
  | i, row :: rows, transposed => do
    let transposed ← pushEntries ncols nrows i row transposed
    pushRows ncols nrows (i + 1) rows transposed

/-- The line of a vector. -/
def vecLine (v : List ℕ) : List Char :=
  printSigned v.length ++ ((v.flatMap fun i => ' ' :: printSigned i) ++ ['\n'])

/-- `transpose_and_save`: the temporary file, and the vectors after it. -/
def transposeAndSave (ncols nrows i0 : ℕ) (chunk : List (List ℕ)) (transposed : ℕ → List ℕ) :
    Except Failure (List Char × (ℕ → List ℕ)) := do
  let transposed ← pushRows ncols nrows i0 chunk transposed
  -- the sizes are reset for the next chunk
  return ((range ncols).flatMap fun j => vecLine (transposed j),
    fun j => if j < ncols then [] else transposed j)

/-- The chunks of rows from `i0` on, one after the other. -/
def saveChunks (ncols nrows : ℕ) :
    ℕ → List (List (List ℕ)) → (ℕ → List ℕ) → Except Failure (List (List Char))
  | _, [], _ => .ok []
  | i0, chunk :: chunks, transposed => do
    let (file, transposed) ← transposeAndSave ncols nrows i0 chunk transposed
    let files ← saveChunks ncols nrows (i0 + chunk.length) chunks transposed
    return file :: files

/-- The loop of `rebuild` over the `nc` indices of a vector. -/
def scanIndices : ℕ → List Char → Except Failure (List ℕ × List Char)
  | 0, text => .ok ([], text)
  | nc + 1, text =>
    match scanUnsigned text with
    -- ret stays below nc
    | none => .error .assertion
    | some (idx, text) => do
      let (v, text) ← scanIndices nc text
      return (idx :: v, text)

/-- A vector of a temporary file. -/
def scanVec (text : List Char) : Except Failure (List ℕ × List Char) :=
  match scanUnsigned text with
  | none => .error .assertion
  | some (nc, text) => scanIndices nc text

/-- The loop of `rebuild` over the vectors `rows` of a block, for one file. -/
def readVecs : List (List ℕ) → List Char → Except Failure (List (List ℕ) × List Char)
  | [], text => .ok ([], text)
  | row :: rows, text => do
    let (v, text) ← scanVec text
    let (rows, text) ← readVecs rows text
    return ((row ++ v) :: rows, text)

/-- The loop of `rebuild` over the files. -/
def readFiles : List (List Char) → List (List ℕ) →
    Except Failure (List (List ℕ) × List (List Char))
  | [], rows => .ok (rows, [])
  | file :: files, rows => do
    let (rows, file) ← readVecs rows file
    let (rows, files) ← readFiles files rows
    return (rows, file :: files)

/-- The variables of `rebuild`. -/
structure RebuildState where
  skip : ℕ
  lastsize : ℕ
  minskip : ℕ
  maxskip : ℕ
  deriving DecidableEq, Repr

/-- The loop of `rebuild` that writes the rows of a block, from row `k` on. -/
def writeRows : ℕ → List (List ℕ) → RebuildState → Except Failure (List Char × RebuildState)
  | _, [], s => .ok ([], s)
  | k, row :: rows, s =>
    if 0 < k ∧ 0 < s.skip ∧ s.lastsize < row.length then .error .notDecreasing
    else if 0 < s.skip then
      writeRows (k + 1) rows
        { skip := s.skip - 1
          lastsize := row.length
          minskip := min row.length s.minskip
          maxskip := max row.length s.maxskip }
    else do
      let (text, s) ← writeRows (k + 1) rows { s with lastsize := row.length }
      return (vecLine row ++ text, s)

/-- `NROWS_CORE`. -/
def nrowsCore : ℕ := 20

/-- The loop of `rebuild` over the blocks. -/
def rebuildLoop (ncols : ℕ) :
    ℕ → ℕ → List (List Char) → RebuildState → Except Failure (List Char × RebuildState)
  | 0, _, _, _ => .error .fuel
  | fuel + 1, j, files, s =>
    if j < ncols then do
      let (rows, files) ← readFiles files (List.replicate (min nrowsCore (ncols - j)) [])
      let (text, s) ← writeRows 0 rows s
      let (rest, s) ← rebuildLoop ncols fuel (uint32Add j nrowsCore) files s
      return (text ++ rest, s)
    else .ok ([], s)

/-- The first line of the output. -/
def headerLine (ncols nrows : ℕ) : List Char :=
  toDigits 10 ncols ++ ' ' :: (toDigits 10 nrows ++ ['\n'])

/-- `rebuild`: the output, and the variables at the end, which are reported. -/
def rebuild (ncols nrows : ℕ) (files : List (List Char)) (skip : ℕ) :
    Except Failure (List Char × RebuildState) := do
  let (text, s) ← rebuildLoop ncols (ncols + 1) 0 files
    { skip := skip, lastsize := 0, minskip := 2 ^ 32 - 1, maxskip := 0 }
  return (headerLine ((ncols + 2 ^ 32 - skip) % 2 ^ 32) nrows ++ text, s)

/-- The part of `main` from the first chunk on, for rows that are split into chunks. -/
def transpose (ncols nrows : ℕ) (chunks : List (List (List ℕ))) (skip : ℕ) :
    Except Failure (List Char) := do
  let files ← saveChunks ncols nrows 0 chunks fun _ => []
  let (text, _) ← rebuild ncols nrows files skip
  return text

variable {α β : Type}

@[simp]
theorem ok_bind (a : α) (f : α → Except Failure β) : (Except.ok a >>= f) = f a :=
  rfl

@[simp]
theorem error_bind (e : Failure) (f : α → Except Failure β) : (Except.error e >>= f) = .error e :=
  rfl

theorem bind_eq_ok {x : Except Failure α} {f : α → Except Failure β} {b : β}
    (h : (x >>= f) = .ok b) : ∃ a, x = .ok a ∧ f a = .ok b := by
  cases x with
  | error e => exact nomatch h
  | ok a => exact ⟨a, rfl, h⟩

/-! ## Numbers -/

section Numbers

variable {n : ℕ} {rest : List Char}

theorem scanUnsigned_space {c : Char} (hc : c = ' ' ∨ c = '\n') (text : List Char) :
    scanUnsigned (c :: text) = scanUnsigned text := by
  rw [scanUnsigned, scanUnsigned]
  rcases hc with rfl | rfl <;> simp

theorem scanSign_toDigits (n : ℕ) (rest : List Char) :
    scanSign ((toDigits 10 n ++ rest).dropWhile
      fun c => c = ' ' || c = '\n' || c = '\t' || c = '\r')
        = (false, toDigits 10 n ++ rest) := by
  obtain ⟨c, cs, hcs⟩ := List.exists_cons_of_ne_nil (Nat.toDigits_ne_nil (n := n) (b := 10))
  obtain ⟨d, hd, rfl⟩ : ∃ d < 10, c = Nat.digitChar d :=
    mem_toDigits (by decide) (hcs ▸ mem_cons_self)
  rw [hcs]
  interval_cases d <;> rfl

theorem readNumber_toDigits_ten (hn : n < 2 ^ 32) (hrest : Stops (digitBelow 10) rest) :
    readNumber (digitBelow 10) 10 (2 ^ 32) 0 (toDigits 10 n ++ rest) = (n, rest) ∧
      rest.length ≠ (toDigits 10 n ++ rest).length := by
  refine ⟨readNumber_toDigits (fun d hd => digitBelow_digitChar (by decide) hd) (by decide) hn
    hrest, ?_⟩
  have hlen := List.length_pos_of_ne_nil (Nat.toDigits_ne_nil (n := n) (b := 10))
  rw [length_append]
  omega

/-- Every `unsigned int` is read back, with its sign if it has one. -/
theorem scanUnsigned_printSigned (hn : n < 2 ^ 32) (hrest : Stops (digitBelow 10) rest) :
    scanUnsigned (printSigned n ++ rest) = some (n, rest) := by
  rw [printSigned]
  split_ifs with hlt
  · obtain ⟨hread, hlen⟩ := readNumber_toDigits_ten hn hrest
    simp only [scanUnsigned, scanSign_toDigits, hread, if_neg hlen, Bool.false_eq_true, if_false]
  · obtain ⟨hread, hlen⟩ := readNumber_toDigits_ten (n := 2 ^ 32 - n) (by omega) hrest
    have hsign : scanSign (('-' :: toDigits 10 (2 ^ 32 - n) ++ rest).dropWhile
        fun c => c = ' ' || c = '\n' || c = '\t' || c = '\r')
          = (true, toDigits 10 (2 ^ 32 - n) ++ rest) := rfl
    simp only [scanUnsigned, hsign, hread, if_neg hlen, if_true]
    rw [Nat.sub_sub_self hn.le, mod_eq_of_lt hn]

theorem stops_space {c : Char} (hc : c = ' ' ∨ c = '\n') (text : List Char) :
    Stops (digitBelow 10) (c :: text) := by
  rw [stops_cons]
  rcases hc with rfl | rfl <;> rfl

theorem scanVec_vecLine {v : List ℕ} (hlen : v.length < 2 ^ 32) (hv : ∀ i ∈ v, i < 2 ^ 32)
    (rest : List Char) : scanVec (vecLine v ++ rest) = .ok (v, '\n' :: rest) := by
  have hindices : ∀ v : List ℕ, (∀ i ∈ v, i < 2 ^ 32) →
      Stops (digitBelow 10) ((v.flatMap fun i => ' ' :: printSigned i) ++ '\n' :: rest) ∧
      scanIndices v.length ((v.flatMap fun i => ' ' :: printSigned i) ++ '\n' :: rest)
        = .ok (v, '\n' :: rest) := by
    intro v hv
    induction v with
    | nil => exact ⟨stops_space (Or.inr rfl) rest, rfl⟩
    | cons i v ih =>
      obtain ⟨hi, hv⟩ := forall_mem_cons.mp hv
      obtain ⟨hstops, hscan⟩ := ih hv
      rw [List.flatMap_cons, append_assoc, List.cons_append]
      refine ⟨stops_space (Or.inl rfl) _, ?_⟩
      simp only [length_cons, scanIndices, scanUnsigned_space (Or.inl rfl),
        scanUnsigned_printSigned hi hstops, hscan]
      rfl
  obtain ⟨hstops, hscan⟩ := hindices v hv
  simp [vecLine, scanVec, scanUnsigned_printSigned hlen hstops, hscan]

end Numbers

/-! ## Saving -/

section Save

variable {ncols nrows i c : ℕ} {row : List ℕ} {rows : List (List ℕ)}

/-- The numbers, from `i` on, of the rows that contain `c`. -/
def columnFrom (c : ℕ) : ℕ → List (List ℕ) → List ℕ
  | _, [] => []
  | i, row :: rows => if c ∈ row then i :: columnFrom c (i + 1) rows else columnFrom c (i + 1) rows

theorem length_columnFrom (c i : ℕ) (rows : List (List ℕ)) :
    (columnFrom c i rows).length = rows.countP fun row => c ∈ row := by
  induction rows generalizing i with
  | nil => rfl
  | cons row rows ih =>
    rw [columnFrom, List.countP_cons]
    by_cases hc : c ∈ row <;> simp [hc, ih]

theorem columnFrom_append (c i : ℕ) (rows rows' : List (List ℕ)) :
    columnFrom c i (rows ++ rows')
      = columnFrom c i rows ++ columnFrom c (i + rows.length) rows' := by
  induction rows generalizing i with
  | nil => rfl
  | cons row rows ih =>
    rw [List.cons_append, columnFrom, columnFrom, ih, length_cons,
      show i + 1 + rows.length = i + (rows.length + 1) by omega]
    split_ifs <;> rfl

theorem lt_of_mem_columnFrom {k : ℕ} (hk : k ∈ columnFrom c i rows) : k < i + rows.length := by
  induction rows generalizing i with
  | nil => exact absurd hk not_mem_nil
  | cons row rows ih =>
    rw [length_cons]
    rw [columnFrom] at hk
    split_ifs at hk with hc
    · rcases mem_cons.mp hk with rfl | hk
      · omega
      · have := ih hk
        omega
    · have := ih hk
      omega

theorem columnFrom_eq_nil (hc : ∀ row ∈ rows, c ∉ row) : columnFrom c i rows = [] := by
  rw [← List.length_eq_zero_iff, length_columnFrom, List.countP_eq_zero]
  simpa using hc

/-- A row with distinct columns. -/
structure ValidRow (ncols : ℕ) (row : List ℕ) : Prop where
  nodup : row.Nodup
  lt : ∀ c ∈ row, c < ncols

/-- A row enters all its columns, or one of them is full. -/
theorem pushEntries_spec (hrow : ValidRow ncols row) (transposed : ℕ → List ℕ) :
    pushEntries ncols nrows i row transposed =
      if ∀ c ∈ row, (transposed c).length + 1 < nrows then
        .ok fun c => if c ∈ row then transposed c ++ [i] else transposed c
      else .error .assertion := by
  induction row generalizing transposed with
  | nil => simp [pushEntries]
  | cons c row ih =>
    obtain ⟨hnot, hnodup⟩ := List.nodup_cons.mp hrow.nodup
    have hlt := forall_mem_cons.mp hrow.lt
    have hsame : ∀ c' ∈ row,
        Function.update transposed c (transposed c ++ [i]) c' = transposed c' :=
      by
      intro c' hc'
      refine Function.update_of_ne ?_ _ _
      rintro rfl
      exact hnot hc'
    have hassert : assert (c < ncols) = .ok () := if_pos hlt.1
    simp only [pushEntries, hassert, Function.update_self, length_append, List.length_singleton]
    by_cases hlen : (transposed c).length + 1 < nrows
    · have hassert' : assert ((transposed c).length + 1 < nrows) = .ok () := if_pos hlen
      have hcond : (∀ c' ∈ row, (Function.update transposed c (transposed c ++ [i]) c').length + 1
          < nrows) ↔ ∀ c' ∈ c :: row, (transposed c').length + 1 < nrows := by
        rw [forall_mem_cons, and_iff_right hlen]
        exact forall₂_congr fun c' hc' => by rw [hsame c' hc']
      rw [hassert', ← if_congr hcond rfl rfl]
      refine (ih ⟨hnodup, hlt.2⟩ _).trans (if_congr Iff.rfl (congrArg _ (funext fun c' => ?_)) rfl)
      by_cases hc : c' = c
      · subst hc
        simp [hnot]
      · simp [hc]
    · have hassert' : assert ((transposed c).length + 1 < nrows) = .error .assertion := if_neg hlen
      rw [hassert', if_neg fun h => hlen (h c mem_cons_self)]
      rfl

/-- No vector gets too long. -/
def Fits (nrows : ℕ) (transposed : ℕ → List ℕ) (i : ℕ) (rows : List (List ℕ)) : Prop :=
  ∀ c, columnFrom c i rows ≠ [] → (transposed c).length + (columnFrom c i rows).length < nrows

theorem fits_cons_iff (transposed : ℕ → List ℕ) :
    Fits nrows transposed i (row :: rows) ↔ (∀ c ∈ row, (transposed c).length + 1 < nrows) ∧
      Fits nrows (fun c => if c ∈ row then transposed c ++ [i] else transposed c) (i + 1) rows := by
  constructor
  · refine fun h => ⟨fun c hc => ?_, fun c hne => ?_⟩
    · have hlt := h c
      rw [columnFrom, if_pos hc, length_cons] at hlt
      have := hlt (List.cons_ne_nil _ _)
      omega
    · have hlt := h c
      rw [columnFrom] at hlt
      by_cases hc : c ∈ row
      · simp only [if_pos hc, length_append, length_cons, length_nil] at hlt ⊢
        have := hlt (List.cons_ne_nil _ _)
        omega
      · simp only [if_neg hc] at hlt ⊢
        exact hlt hne
  · rintro ⟨hrow, hrows⟩ c hne
    have hlt := hrows c
    rw [columnFrom] at hne ⊢
    by_cases hc : c ∈ row
    · have := hrow c hc
      simp only [if_pos hc, length_append, length_cons, length_nil] at hlt ⊢
      by_cases hnil : columnFrom c (i + 1) rows = []
      · rw [hnil, length_nil]
        omega
      · have := hlt hnil
        omega
    · simp only [if_neg hc] at hlt hne ⊢
      exact hlt hne

theorem pushRows_spec (nrows i : ℕ) (hrows : ∀ row ∈ rows, ValidRow ncols row)
    (transposed : ℕ → List ℕ) :
    (Fits nrows transposed i rows →
      pushRows ncols nrows i rows transposed = .ok fun c => transposed c ++ columnFrom c i rows) ∧
    (¬Fits nrows transposed i rows →
      pushRows ncols nrows i rows transposed = .error .assertion) := by
  induction rows generalizing i transposed with
  | nil =>
    refine ⟨fun _ => ?_, fun h => absurd (fun c hne => absurd rfl hne) h⟩
    simp [pushRows, columnFrom]
  | cons row rows ih =>
    obtain ⟨hrow, hrows⟩ := forall_mem_cons.mp hrows
    rw [fits_cons_iff]
    simp only [pushRows, pushEntries_spec hrow]
    by_cases hlen : ∀ c ∈ row, (transposed c).length + 1 < nrows
    · obtain ⟨hfit, hnot⟩ := ih (i + 1) hrows
        fun c => if c ∈ row then transposed c ++ [i] else transposed c
      rw [if_pos hlen, and_iff_right hlen]
      refine ⟨fun h => (hfit h).trans (congrArg _ (funext fun c => ?_)), hnot⟩
      rw [columnFrom]
      split_ifs with hc
      · rw [append_assoc, List.singleton_append]
      · rfl
    · rw [if_neg hlen]
      exact ⟨fun h => absurd h.1 hlen, fun _ => rfl⟩

/-- The lines of a temporary file, from column `j` on. -/
def fileText (ncols j : ℕ) (column : ℕ → List ℕ) : List Char :=
  (range' j (ncols - j)).flatMap fun c => vecLine (column c)

/-- The columns of the chunks of rows from `i0` on. -/
def chunkColumns : ℕ → List (List (List ℕ)) → List (ℕ → List ℕ)
  | _, [] => []
  | i0, chunk :: chunks =>
    (fun c => columnFrom c i0 chunk) :: chunkColumns (i0 + chunk.length) chunks

/-- No column is in as many rows of a chunk as the matrix has. -/
def ChunksFit (nrows : ℕ) (chunks : List (List (List ℕ))) : Prop :=
  ∀ chunk ∈ chunks, ∀ c, 0 < chunk.countP (fun row => c ∈ row) →
    chunk.countP (fun row => c ∈ row) < nrows

theorem fits_iff (i : ℕ) (chunk : List (List ℕ)) :
    Fits nrows (fun _ => []) i chunk ↔ ∀ c, 0 < chunk.countP (fun row => c ∈ row) →
      chunk.countP (fun row => c ∈ row) < nrows := by
  refine forall_congr' fun c => ?_
  rw [← length_columnFrom c i, List.length_pos_iff, length_nil, zero_add]

/-- The temporary files, or the assertion that fails. -/
theorem saveChunks_spec (nrows i0 : ℕ) {chunks : List (List (List ℕ))}
    (hchunks : ∀ chunk ∈ chunks, ∀ row ∈ chunk, ValidRow ncols row) :
    (ChunksFit nrows chunks → saveChunks ncols nrows i0 chunks (fun _ => [])
      = .ok ((chunkColumns i0 chunks).map (fileText ncols 0))) ∧
    (¬ChunksFit nrows chunks → saveChunks ncols nrows i0 chunks (fun _ => [])
      = .error .assertion) := by
  induction chunks generalizing i0 with
  | nil => exact ⟨fun _ => rfl, fun h => absurd (fun _ hmem => absurd hmem not_mem_nil) h⟩
  | cons chunk chunks ih =>
    obtain ⟨hchunk, hchunks⟩ := forall_mem_cons.mp hchunks
    obtain ⟨hok, herror⟩ := pushRows_spec nrows i0 hchunk fun _ => []
    rw [fits_iff] at hok herror
    rw [ChunksFit, forall_mem_cons]
    by_cases hfit : ∀ c, 0 < chunk.countP (fun row => c ∈ row) →
        chunk.countP (fun row => c ∈ row) < nrows
    · obtain ⟨hok', herror'⟩ := ih (i0 + chunk.length) hchunks
      have hreset : (fun j => if j < ncols then []
          else (fun c => [] ++ columnFrom c i0 chunk) j) = fun _ => ([] : List ℕ) := by
        funext j
        split_ifs with hj
        · rfl
        · exact columnFrom_eq_nil fun row hrow hc => hj ((hchunk row hrow).lt j hc)
      have hfile : transposeAndSave ncols nrows i0 chunk (fun _ => [])
          = .ok (fileText ncols 0 fun c => columnFrom c i0 chunk, fun _ => []) := by
        rw [transposeAndSave, hok hfit, ← hreset, fileText, ← List.range_eq_range']
        rfl
      rw [and_iff_right hfit, saveChunks, hfile]
      refine ⟨fun h => ?_, fun h => ?_⟩
      · simp only [ok_bind, hok' h, chunkColumns, map_cons]
        rfl
      · simp [herror' h]
    · refine ⟨fun h => absurd h.1 hfit, fun _ => ?_⟩
      rw [saveChunks, transposeAndSave, herror hfit]
      rfl

theorem flatten_chunkColumns (i0 c : ℕ) (chunks : List (List (List ℕ))) :
    ((chunkColumns i0 chunks).map fun column => column c).flatten
      = columnFrom c i0 chunks.flatten := by
  induction chunks generalizing i0 with
  | nil => rfl
  | cons chunk chunks ih =>
    rw [chunkColumns, map_cons, flatten_cons, flatten_cons, ih, columnFrom_append]

end Save

/-! ## Reading the files -/

section Read

variable {ncols j n : ℕ}

/-- A file is read up to `rest`, or to the end of the line before it. -/
def AtLine (file rest : List Char) : Prop :=
  file = rest ∨ file = '\n' :: rest

/-- A vector that the files can hold. -/
def ValidVec (v : List ℕ) : Prop :=
  v.length < 2 ^ 32 ∧ ∀ i ∈ v, i < 2 ^ 32

theorem scanVec_atLine {file rest : List Char} {v : List ℕ} (hv : ValidVec v)
    (hfile : AtLine file (vecLine v ++ rest)) : scanVec file = .ok (v, '\n' :: rest) := by
  rcases hfile with rfl | rfl
  · exact scanVec_vecLine hv.1 hv.2 rest
  · rw [scanVec, scanUnsigned_space (Or.inr rfl)]
    exact scanVec_vecLine hv.1 hv.2 rest

theorem readVecs_spec {column : ℕ → List ℕ} (hcolumn : ∀ c, ValidVec (column c))
    (rows : ℕ → List ℕ) {file rest : List Char}
    (hfile : AtLine file (((range' j n).flatMap fun c => vecLine (column c)) ++ rest)) :
    ∃ file', readVecs ((range' j n).map rows) file
      = .ok ((range' j n).map fun c => rows c ++ column c, file') ∧ AtLine file' rest := by
  induction n generalizing j file with
  | zero => exact ⟨file, rfl, hfile⟩
  | succ n ih =>
    rw [range'_succ, List.flatMap_cons, append_assoc] at hfile
    obtain ⟨file', hrun, hrest⟩ := ih (j := j + 1) (Or.inr rfl)
    refine ⟨file', ?_, hrest⟩
    simp only [range'_succ, map_cons, readVecs, scanVec_atLine (hcolumn j) hfile, ok_bind, hrun]
    rfl

/-- The files are read up to column `j`. -/
def FilesAt (ncols j : ℕ) : List (List Char) → List (ℕ → List ℕ) → Prop :=
  List.Forall₂ fun file column => AtLine file (fileText ncols j column)

theorem fileText_split (hn : j + n ≤ ncols) (column : ℕ → List ℕ) :
    fileText ncols j column
      = ((range' j n).flatMap fun c => vecLine (column c))
        ++ fileText ncols (j + n) column := by
  have hsplit : range' j (ncols - j)
      = range' j n ++ range' (j + n) (ncols - (j + n)) := by
    rw [List.range'_append_1]
    congr 1
    omega
  rw [fileText, fileText, hsplit, List.flatMap_append]

theorem readFiles_spec {files : List (List Char)} {columns : List (ℕ → List ℕ)}
    (hcolumns : ∀ column ∈ columns, ∀ c, ValidVec (column c)) (hn : j + n ≤ ncols)
    (hfiles : FilesAt ncols j files columns) (rows : ℕ → List ℕ) :
    ∃ files', readFiles files ((range' j n).map rows)
      = .ok ((range' j n).map fun c => rows c ++ (columns.map fun column => column c).flatten,
        files') ∧ FilesAt ncols (j + n) files' columns := by
  induction hfiles generalizing rows with
  | nil => exact ⟨[], by simp [readFiles], .nil⟩
  | @cons file column files columns hfile _ ih =>
    obtain ⟨hcolumn, hcolumns⟩ := forall_mem_cons.mp hcolumns
    rw [fileText_split hn] at hfile
    obtain ⟨file', hrun, hrest⟩ := readVecs_spec hcolumn rows hfile
    obtain ⟨files', hruns, hrests⟩ := ih hcolumns fun c => rows c ++ column c
    refine ⟨file' :: files', ?_, .cons hrest hrests⟩
    simp only [readFiles, hrun, ok_bind, hruns, map_cons, flatten_cons, append_assoc]
    rfl

theorem readFiles_end {file : List Char} {files : List (List Char)} {row : List ℕ}
    {rows : List (List ℕ)} (hfile : AtLine file []) :
    readFiles (file :: files) (row :: rows) = .error .assertion := by
  have hscan : scanVec file = .error .assertion := by rcases hfile with rfl | rfl <;> rfl
  simp [readFiles, readVecs, hscan]

end Read

/-! ## Writing -/

section Write

variable {ncols skip0 : ℕ} {line : ℕ → List ℕ}

/-- A line that is heavier than the one before it, where the program looks at it. -/
def Heavier (line : ℕ → List ℕ) (skip0 c : ℕ) : Prop :=
  c % nrowsCore ≠ 0 ∧ c < skip0 ∧ (line (c - 1)).length < (line c).length

/-- The lines from `j` on that are not skipped. -/
def linesText (line : ℕ → List ℕ) (skip0 j n : ℕ) : List Char :=
  ((range' j n).filter fun c => skip0 ≤ c).flatMap fun c => vecLine (line c)

theorem linesText_append (line : ℕ → List ℕ) (skip0 j n m : ℕ) :
    linesText line skip0 j (n + m)
      = linesText line skip0 j n ++ linesText line skip0 (j + n) m := by
  rw [linesText, ← List.range'_append_1, filter_append, List.flatMap_append]
  rfl

/-- The rows of one block are written until one is heavier than the one before. -/
theorem writeRows_spec (line : ℕ → List ℕ) (skip0 : ℕ) {k c n : ℕ} {s : RebuildState}
    (hk : k + n ≤ nrowsCore)
    (hck : c % nrowsCore = k % nrowsCore) (hskip : s.skip = skip0 - c)
    (hlast : 0 < k → s.lastsize = (line (c - 1)).length) :
    ((∀ c', c ≤ c' → c' < c + n → ¬Heavier line skip0 c') → ∃ s',
      writeRows k ((range' c n).map line) s = .ok (linesText line skip0 c n, s') ∧
        s'.skip = skip0 - (c + n)) ∧
    ((∃ c', c ≤ c' ∧ c' < c + n ∧ Heavier line skip0 c') →
      writeRows k ((range' c n).map line) s = .error .notDecreasing) := by
  induction n generalizing k c s with
  | zero => exact ⟨fun _ => ⟨s, rfl, hskip⟩, fun ⟨c', hge, hlt, _⟩ => by omega⟩
  | succ n ih =>
    have hmod : 0 < k ↔ c % nrowsCore ≠ 0 := by
      rw [hck, mod_eq_of_lt (by omega)]
      omega
    have hcheck : 0 < k ∧ 0 < s.skip ∧ s.lastsize < (line c).length ↔ Heavier line skip0 c := by
      rw [Heavier, ← hmod]
      refine and_congr_right fun hpos => ?_
      rw [hlast hpos, hskip, Nat.sub_pos_iff_lt]
    have hck' : (c + 1) % nrowsCore = (k + 1) % nrowsCore := by
      rw [Nat.add_mod, hck, ← Nat.add_mod]
    have hone : linesText line skip0 c 1 = if skip0 ≤ c then vecLine (line c) else [] := by
      rw [linesText, List.range'_one]
      split_ifs with hle <;> simp [hle]
    have htext : linesText line skip0 c (n + 1)
        = (if skip0 ≤ c then vecLine (line c) else []) ++ linesText line skip0 (c + 1) n := by
      rw [add_comm n, linesText_append, hone]
    rw [range'_succ, map_cons, writeRows, htext]
    by_cases hheavy : Heavier line skip0 c
    · rw [if_pos (hcheck.mpr hheavy)]
      exact ⟨fun h => absurd hheavy (h c le_rfl (by omega)), fun _ => rfl⟩
    · rw [if_neg (mt hcheck.mp hheavy)]
      -- the other lines
      have hrest : (∃ c', c ≤ c' ∧ c' < c + (n + 1) ∧ Heavier line skip0 c') →
          ∃ c', c + 1 ≤ c' ∧ c' < c + 1 + n ∧ Heavier line skip0 c' := by
        rintro ⟨c', hge, hlt, h⟩
        have hne : c ≠ c' := fun heq => hheavy (heq ▸ h)
        exact ⟨c', by omega, by omega, h⟩
      have hrest' : (∀ c', c ≤ c' → c' < c + (n + 1) → ¬Heavier line skip0 c') →
          ∀ c', c + 1 ≤ c' → c' < c + 1 + n → ¬Heavier line skip0 c' :=
        fun h c' hge hlt => h c' (by omega) (by omega)
      by_cases hs : 0 < s.skip
      · obtain ⟨hok, herror⟩ := ih (k := k + 1) (c := c + 1)
          (s := ⟨s.skip - 1, (line c).length, min (line c).length s.minskip,
            max (line c).length s.maxskip⟩) (by omega) hck' (by dsimp only; omega) (fun _ => rfl)
        rw [if_pos hs, if_neg (by omega), List.nil_append]
        refine ⟨fun h => ?_, fun h => herror (hrest h)⟩
        obtain ⟨s', hrun, hskip'⟩ := hok (hrest' h)
        exact ⟨s', hrun, by omega⟩
      · obtain ⟨hok, herror⟩ := ih (k := k + 1) (c := c + 1)
          (s := { s with lastsize := (line c).length }) (by omega) hck' (by dsimp only; omega)
          (fun _ => rfl)
        rw [if_neg hs, if_pos (by omega)]
        refine ⟨fun h => ?_, fun h => ?_⟩
        · obtain ⟨s', hrun, hskip'⟩ := hok (hrest' h)
          refine ⟨s', ?_, by omega⟩
          rw [hrun]
          rfl
        · rw [herror (hrest h)]
          rfl

/-- A line of the transpose. -/
def joined (columns : List (ℕ → List ℕ)) (c : ℕ) : List ℕ :=
  (columns.map fun column => column c).flatten

variable {columns : List (ℕ → List ℕ)} {files : List (List Char)} {j : ℕ} {s : RebuildState}

theorem rebuildLoop_block (hcolumns : ∀ column ∈ columns, ∀ c, ValidVec (column c))
    (hj : j % nrowsCore = 0) (hjn : j < ncols) (hfiles : FilesAt ncols j files columns)
    (hskip : s.skip = skip0 - j) {n : ℕ} (hn : n = min nrowsCore (ncols - j)) :
    ((∀ c, j ≤ c → c < j + n → ¬Heavier (joined columns) skip0 c) → ∃ files' s',
      FilesAt ncols (j + n) files' columns ∧ s'.skip = skip0 - (j + n) ∧
        ∀ fuel, rebuildLoop ncols (fuel + 1) j files s = do
          let (rest, s'') ← rebuildLoop ncols fuel (uint32Add j nrowsCore) files' s'
          .ok (linesText (joined columns) skip0 j n ++ rest, s'')) ∧
    ((∃ c, j ≤ c ∧ c < j + n ∧ Heavier (joined columns) skip0 c) →
      ∀ fuel, rebuildLoop ncols (fuel + 1) j files s = .error .notDecreasing) := by
  obtain ⟨files', hread, hfiles'⟩ := readFiles_spec (n := n) hcolumns (by omega) hfiles fun _ => []
  have hreplicate : (range' j n).map (fun _ => ([] : List ℕ)) = List.replicate n [] := by
    rw [List.map_const', List.length_range']
  have hjoined : (fun c => [] ++ (columns.map fun column => column c).flatten)
      = joined columns := rfl
  rw [hreplicate, hjoined] at hread
  obtain ⟨hok, herror⟩ := writeRows_spec (joined columns) skip0 (k := 0) (c := j) (n := n)
    (s := s) (by omega) hj hskip (fun h => absurd h (lt_irrefl 0))
  refine ⟨fun h => ?_, fun h fuel => ?_⟩
  · obtain ⟨s', hwrite, hskip'⟩ := hok h
    refine ⟨files', s', hfiles', hskip', fun fuel => ?_⟩
    simp only [rebuildLoop, if_pos hjn, ← hn, hread, ok_bind, hwrite]
    rfl
  · simp [rebuildLoop, if_pos hjn, ← hn, hread, herror h]

/-- A run of blocks writes the lines of its columns, or stops at a heavier one. -/
theorem rebuildLoop_blocks (ncols skip0 : ℕ)
    (hcolumns : ∀ column ∈ columns, ∀ c, ValidVec (column c))
    (hncols : ncols < 2 ^ 32) {b : ℕ} (hj : j % nrowsCore = 0)
    (hb : j + nrowsCore * b < ncols + nrowsCore)
    (hfiles : FilesAt ncols (min j ncols) files columns)
    (hskip : s.skip = skip0 - min j ncols) {n : ℕ} (hn : n = min (nrowsCore * b) (ncols - j)) :
    ((∀ c, j ≤ c → c < j + n → ¬Heavier (joined columns) skip0 c) → ∃ files' s',
      FilesAt ncols (min (j + nrowsCore * b) ncols) files' columns ∧
        s'.skip = skip0 - min (j + nrowsCore * b) ncols ∧
        ∀ fuel, rebuildLoop ncols (fuel + b) (j % 2 ^ 32) files s = do
          let (rest, s'') ← rebuildLoop ncols fuel ((j + nrowsCore * b) % 2 ^ 32) files' s'
          .ok (linesText (joined columns) skip0 j n ++ rest, s'')) ∧
    ((∃ c, j ≤ c ∧ c < j + n ∧ Heavier (joined columns) skip0 c) →
      ∀ fuel, rebuildLoop ncols (fuel + b) (j % 2 ^ 32) files s = .error .notDecreasing) := by
  induction b generalizing j files s n with
  | zero =>
    obtain rfl : n = 0 := by omega
    refine ⟨fun _ => ⟨files, s, hfiles, hskip, fun fuel => ?_⟩, fun ⟨c, hge, hlt, _⟩ => by omega⟩
    show rebuildLoop ncols fuel (j % 2 ^ 32) files s = _
    cases rebuildLoop ncols fuel (j % 2 ^ 32) files s <;> rfl
  | succ b ih =>
    have hmul : nrowsCore * (b + 1) = nrowsCore * b + nrowsCore := by ring
    have hjn : j < ncols := by omega
    rw [min_eq_left hjn.le] at hfiles hskip
    rw [mod_eq_of_lt (show j < 2 ^ 32 by omega)]
    obtain ⟨n₁, hn₁⟩ : ∃ n₁, n₁ = min nrowsCore (ncols - j) := ⟨_, rfl⟩
    obtain ⟨hok, herror⟩ := rebuildLoop_block hcolumns hj hjn hfiles hskip hn₁
    have hend : j + n₁ = min (j + nrowsCore) ncols := by omega
    have hnext : j + nrowsCore * (b + 1) = j + nrowsCore + nrowsCore * b := by omega
    have hj' : (j + nrowsCore) % nrowsCore = 0 := by rw [Nat.add_mod_right, hj]
    obtain ⟨n₂, hn₂⟩ : ∃ n₂, n₂ = min (nrowsCore * b) (ncols - (j + nrowsCore)) := ⟨_, rfl⟩
    have hsum : n = n₁ + n₂ := by omega
    by_cases hfirst : ∃ c, j ≤ c ∧ c < j + n₁ ∧ Heavier (joined columns) skip0 c
    · obtain ⟨c, hge, hlt, hc⟩ := hfirst
      exact ⟨fun h => absurd hc (h c hge (by omega)), fun _ fuel => herror ⟨c, hge, hlt, hc⟩ _⟩
    · obtain ⟨files₁, s₁, hfiles₁, hskip₁, hrun₁⟩ :=
        hok fun c hge hlt hc => hfirst ⟨c, hge, hlt, hc⟩
      rw [hend] at hfiles₁ hskip₁
      obtain ⟨hok₂, herror₂⟩ := ih hj' (by omega) hfiles₁ hskip₁ hn₂
      refine ⟨fun h => ?_, fun h fuel => ?_⟩
      · obtain ⟨files', s', hfiles', hskip', hrun⟩ :=
          hok₂ fun c hge hlt => h c (by omega) (by omega)
        rw [hnext]
        refine ⟨files', s', hfiles', hskip', fun fuel => ?_⟩
        have htext : linesText (joined columns) skip0 j n = linesText (joined columns) skip0 j n₁
            ++ linesText (joined columns) skip0 (j + nrowsCore) n₂ := by
          rw [hsum, linesText_append]
          rcases Nat.eq_zero_or_pos n₂ with hzero | hpos
          · rw [hzero]
            rfl
          · rw [show n₁ = nrowsCore by omega]
        rw [← add_assoc, hrun₁, uint32Add, hrun, htext]
        cases rebuildLoop ncols fuel ((j + nrowsCore + nrowsCore * b) % 2 ^ 32) files' s' with
        | error e => rfl
        | ok p => simp
      · obtain ⟨c, hge, hlt, hc⟩ := h
        have hge' : j + n₁ ≤ c := by
          by_contra hlt'
          exact hfirst ⟨c, hge, by omega, hc⟩
        rw [← add_assoc, hrun₁, uint32Add, herror₂ ⟨c, by omega, by omega, hc⟩ fuel]
        rfl

theorem blocks_eq (ncols : ℕ) : nrowsCore * ((ncols + 19) / nrowsCore) < ncols + nrowsCore ∧
    ncols ≤ nrowsCore * ((ncols + 19) / nrowsCore) := by
  have hcore : nrowsCore = 20 := rfl
  rw [hcore]
  omega

/-- All lines are written, or the program stops, if `j` does not wrap. -/
theorem rebuildLoop_spec (skip0 : ℕ) (hcolumns : ∀ column ∈ columns, ∀ c, ValidVec (column c))
    (hncols : ncols ≤ 2 ^ 32 - 16) (hfiles : FilesAt ncols 0 files columns)
    (hskip : s.skip = skip0) :
    ((∀ c < ncols, ¬Heavier (joined columns) skip0 c) → ∃ s',
      rebuildLoop ncols (ncols + 1) 0 files s
        = .ok (linesText (joined columns) skip0 0 ncols, s')) ∧
    ((∃ c < ncols, Heavier (joined columns) skip0 c) →
      rebuildLoop ncols (ncols + 1) 0 files s = .error .notDecreasing) := by
  obtain ⟨hlt, hle⟩ := blocks_eq ncols
  have hcore : nrowsCore = 20 := rfl
  obtain ⟨b, hb⟩ : ∃ b, b = (ncols + 19) / nrowsCore := ⟨_, rfl⟩
  have hmul : nrowsCore * b = 20 * b := by rw [hcore]
  rw [← hb] at hlt hle
  obtain ⟨hok, herror⟩ := rebuildLoop_blocks ncols skip0 (s := s) (j := 0) (b := b)
    (n := ncols) hcolumns (by omega) rfl (by omega) (by rwa [Nat.zero_min])
    (by rw [Nat.zero_min, hskip]; rfl) (by omega)
  have hfuel : ncols + 1 = ncols + 1 - b + b := by omega
  rw [hfuel]
  refine ⟨fun h => ?_, fun ⟨c, hc, hheavy⟩ => herror ⟨c, Nat.zero_le c, by omega, hheavy⟩ _⟩
  obtain ⟨files', s', -, -, hrun⟩ := hok fun c _ hc => h c (by omega)
  refine ⟨s', (hrun _).trans ?_⟩
  have hstop : ¬(0 + nrowsCore * b) % 2 ^ 32 < ncols := by
    rw [mod_eq_of_lt (by omega)]
    omega
  obtain ⟨fuel, hfuel'⟩ : ∃ fuel, ncols + 1 - b = fuel + 1 := ⟨ncols - b, by omega⟩
  rw [hfuel', rebuildLoop, if_neg hstop, ok_bind]
  simp

/-- Near `2 ^ 32` the loop counter wraps. -/
theorem rebuildLoop_wrap (hcolumns : ∀ column ∈ columns, ∀ c, ValidVec (column c))
    (hncols : ncols < 2 ^ 32) (hwrap : 2 ^ 32 - 16 < ncols) (hfiles : FilesAt ncols 0 files columns)
    (hskip : s.skip = 0) {text : List Char} {s' : RebuildState}
    (hrun : rebuildLoop ncols (ncols + 1) 0 files s = .ok (text, s')) :
    columns = [] ∧ ∃ more, more ≠ [] ∧ text = linesText (joined columns) 0 0 ncols ++ more := by
  obtain ⟨hlt, hle⟩ := blocks_eq ncols
  have hcore : nrowsCore = 20 := rfl
  obtain ⟨b, hb⟩ : ∃ b, b = (ncols + 19) / nrowsCore := ⟨_, rfl⟩
  have hmul : nrowsCore * b = 20 * b := by rw [hcore]
  rw [← hb] at hlt hle
  obtain ⟨hok, -⟩ := rebuildLoop_blocks ncols 0 (s := s) (j := 0) (b := b) (n := ncols)
    hcolumns hncols rfl (by omega) (by rwa [Nat.zero_min]) (by rw [Nat.zero_min, hskip])
    (by omega)
  obtain ⟨files', s₁, hfiles', hskip', hpass⟩ :=
    hok fun c _ _ hheavy => Nat.not_lt_zero c hheavy.2.1
  have hfuel : ncols + 1 = ncols - b + 1 + b := by omega
  have hnext : (0 + nrowsCore * b) % 2 ^ 32 < ncols := by omega
  rw [hfuel] at hrun
  have hrest := (hpass _).symm.trans hrun
  -- the first row of one more block
  obtain ⟨m, hm⟩ : ∃ m, min nrowsCore (ncols - (0 + nrowsCore * b) % 2 ^ 32) = m + 1 :=
    ⟨min nrowsCore (ncols - (0 + nrowsCore * b) % 2 ^ 32) - 1, by omega⟩
  rw [rebuildLoop, if_pos hnext, hm, List.replicate_succ] at hrest
  obtain ⟨⟨rest, s₂⟩, hloop, hresult⟩ := bind_eq_ok hrest
  obtain ⟨⟨rows, files₂⟩, hread, hloop⟩ := bind_eq_ok hloop
  cases hfiles' with
  | nil =>
    obtain ⟨rfl, rfl⟩ := Prod.mk.inj (Except.ok.inj hread)
    obtain ⟨⟨block, s₃⟩, hwrite, hloop⟩ := bind_eq_ok hloop
    obtain ⟨⟨after, s₄⟩, -, hloop⟩ := bind_eq_ok hloop
    have hskip₁ : ¬0 < s₁.skip := by omega
    rw [writeRows, if_neg (fun h => absurd h.1 (lt_irrefl 0)), if_neg hskip₁] at hwrite
    obtain ⟨⟨block', s₅⟩, -, hblock⟩ := bind_eq_ok hwrite
    obtain ⟨rfl, -⟩ := Prod.mk.inj (Except.ok.inj hblock)
    obtain ⟨rfl, -⟩ := Prod.mk.inj (Except.ok.inj hloop)
    obtain ⟨rfl, -⟩ := Prod.mk.inj (Except.ok.inj hresult)
    exact ⟨rfl, _, by simp [vecLine], rfl⟩
  | @cons file column files columns hfile _ =>
    have hend : AtLine file [] := by
      rw [min_eq_right (by omega), fileText, Nat.sub_self] at hfile
      exact hfile
    rw [readFiles_end hend] at hread
    exact nomatch hread

end Write

/-! ## The transpose -/

section Transpose

variable {ncols skip : ℕ} {rows : List (List ℕ)} {chunks : List (List (List ℕ))}

/-- The rows that contain `c`, in increasing order. -/
def columnRows (rows : List (List ℕ)) (c : ℕ) : List ℕ :=
  (range rows.length).filter fun i => c ∈ rows.getD i []

/-- A line with the numbers of a column. -/
def plainLine (v : List ℕ) : List Char :=
  toDigits 10 v.length ++ ((v.flatMap fun i => ' ' :: toDigits 10 i) ++ ['\n'])

/-- The transpose without its first `skip` lines. -/
def transposeText (ncols : ℕ) (rows : List (List ℕ)) (skip : ℕ) : List Char :=
  headerLine (ncols - skip) rows.length
    ++ ((range ncols).drop skip).flatMap fun c => plainLine (columnRows rows c)

/-- The lines up to line `skip` are in non-increasing weight. -/
def Decreasing (ncols : ℕ) (rows : List (List ℕ)) (skip : ℕ) : Prop :=
  ∀ c, 1 ≤ c → c ≤ skip → c < ncols →
    (columnRows rows c).length ≤ (columnRows rows (c - 1)).length

/-- A matrix with distinct columns in each row, as large as `unsigned int` allows. -/
structure ValidMatrix (ncols : ℕ) (rows : List (List ℕ)) : Prop where
  valid : ∀ row ∈ rows, ValidRow ncols row
  nrows_lt : rows.length < 2 ^ 32
  ncols_lt : ncols < 2 ^ 32

/-- The transpose is written, without the lines that are skipped, or the error is reported. -/
structure TransposeCorrect (ncols : ℕ) (rows : List (List ℕ)) (chunks : List (List (List ℕ)))
    (skip : ℕ) : Prop where
  whole : transpose ncols rows.length chunks 0 = .ok (transposeText ncols rows 0)
  skipped : Decreasing ncols rows skip →
    transpose ncols rows.length chunks skip = .ok (transposeText ncols rows skip)
  error : ¬Decreasing ncols rows skip →
    transpose ncols rows.length chunks skip = .error .notDecreasing

/-- When the transpose is written: no index wraps, no column is in all rows of the matrix and
these in one chunk, all numbers fit `int`, and the lines are either in non-increasing weight
or in an order that the program notices. -/
structure TransposeFits (ncols : ℕ) (rows : List (List ℕ)) (chunks : List (List (List ℕ)))
    (skip : ℕ) : Prop where
  ncols_le : ncols ≤ 2 ^ 32 - 16
  chunks : ∀ chunk ∈ chunks, chunk.length = rows.length →
    ∀ c, chunk ≠ [] → ∃ row ∈ chunk, c ∉ row
  small : ∀ c < ncols, (columnRows rows c).length < 2 ^ 31 ∧ ∀ i ∈ columnRows rows c, i < 2 ^ 31
  skip : Decreasing ncols rows skip ∨ ∃ c < skip, c % nrowsCore ≠ 0 ∧
    (columnRows rows (c - 1)).length < (columnRows rows c).length

theorem columnFrom_zero (c : ℕ) (rows : List (List ℕ)) :
    columnFrom c 0 rows = columnRows rows c := by
  induction rows using List.reverseRecOn with
  | nil => rfl
  | append_singleton rows row ih =>
    have hfilter : (range rows.length).filter (fun i => c ∈ (rows ++ [row]).getD i [])
        = columnRows rows c := by
      refine List.filter_congr fun i hi => ?_
      rw [List.getD_append _ _ _ _ (mem_range.mp hi)]
    have hright : columnRows (rows ++ [row]) c
        = (range (rows ++ [row]).length).filter fun i => c ∈ (rows ++ [row]).getD i [] := rfl
    rw [columnFrom_append, ih, hright, length_append, List.length_singleton,
      List.range_succ, filter_append, hfilter, zero_add, List.filter_singleton,
      List.getD_append_right _ _ _ _ le_rfl, Nat.sub_self, columnFrom]
    by_cases hc : c ∈ row <;> simp [hc, columnFrom]

theorem chunksFit_iff (hvalid : chunks.flatten = rows) :
    ChunksFit rows.length chunks ↔ ∀ chunk ∈ chunks, chunk.length = rows.length →
      ∀ c, chunk ≠ [] → ∃ row ∈ chunk, c ∉ row := by
  refine forall₂_congr fun chunk hchunk => ?_
  have hle : chunk.length ≤ rows.length := by
    rw [← hvalid]
    exact (List.sublist_flatten_of_mem hchunk).length_le
  constructor
  · intro h hlen c hne
    by_contra hall
    have hall' : ∀ row ∈ chunk, c ∈ row := by simpa using hall
    have hcount : chunk.countP (fun row => c ∈ row) = chunk.length :=
      List.countP_eq_length.mpr (by simpa using hall')
    have hpos := List.length_pos_of_ne_nil hne
    have := h c (by omega)
    omega
  · intro h c hpos
    have hcount := List.countP_le_length (p := fun row => decide (c ∈ row)) (l := chunk)
    by_contra hge
    obtain ⟨row, hrow, hnot⟩ := h (by omega) c (by
      rintro rfl
      exact absurd hpos (lt_irrefl 0))
    have hall := List.countP_eq_length.mp (show chunk.countP (fun row => decide (c ∈ row))
      = chunk.length by omega) row hrow
    exact hnot (by simpa using hall)

/-- The numbers of a line fit `int`. -/
def SmallVec (v : List ℕ) : Prop :=
  v.length < 2 ^ 31 ∧ ∀ i ∈ v, i < 2 ^ 31

theorem vecLine_eq_plainLine {v : List ℕ} (hv : SmallVec v) : vecLine v = plainLine v := by
  rw [vecLine, plainLine, printSigned, if_pos hv.1]
  congr 2
  exact List.flatMap_congr fun i hi => by rw [printSigned, if_pos (hv.2 i hi)]

theorem minus_not_mem_toDigits (n : ℕ) : '-' ∉ toDigits 10 n := by
  intro h
  obtain ⟨d, hd, heq⟩ := mem_toDigits (by decide) h
  interval_cases d <;> exact absurd heq (by decide)

theorem lt_of_minus_not_mem {n : ℕ} (h : '-' ∉ printSigned n) : n < 2 ^ 31 := by
  by_contra hge
  rw [printSigned, if_neg hge] at h
  exact h mem_cons_self

theorem smallVec_of_minus_not_mem {v : List ℕ} (h : '-' ∉ vecLine v) : SmallVec v := by
  simp only [vecLine, List.mem_append, not_or, List.mem_flatMap, not_exists, not_and, mem_cons] at h
  exact ⟨lt_of_minus_not_mem h.1, fun i hi => lt_of_minus_not_mem (h.2.1 i hi).2⟩

theorem minus_not_mem_transposeText (ncols : ℕ) (rows : List (List ℕ)) (skip : ℕ) :
    '-' ∉ transposeText ncols rows skip := by
  simp [transposeText, headerLine, plainLine, minus_not_mem_toDigits]

theorem filesAt_chunkColumns (ncols : ℕ) (columns : List (ℕ → List ℕ)) :
    FilesAt ncols 0 (columns.map (fileText ncols 0)) columns := by
  induction columns with
  | nil => exact .nil
  | cons column columns ih => exact .cons (Or.inl rfl) ih

theorem validVec_chunkColumns (chunks : List (List (List ℕ))) (i0 : ℕ)
    (h : i0 + chunks.flatten.length < 2 ^ 32) :
    ∀ column ∈ chunkColumns i0 chunks, ∀ c, ValidVec (column c) := by
  induction chunks generalizing i0 with
  | nil => exact fun _ hmem => absurd hmem not_mem_nil
  | cons chunk chunks ih =>
    rw [flatten_cons, length_append] at h
    refine forall_mem_cons.mpr ⟨fun c => ⟨?_, fun i hi => ?_⟩, ih _ (by omega)⟩
    · rw [length_columnFrom]
      have := List.countP_le_length (p := fun row => decide (c ∈ row)) (l := chunk)
      omega
    · have := lt_of_mem_columnFrom hi
      omega

theorem joined_chunkColumns (hchunks : chunks.flatten = rows) :
    joined (chunkColumns 0 chunks) = columnRows rows := by
  funext c
  rw [joined, flatten_chunkColumns, hchunks, columnFrom_zero]

theorem filter_range'_eq_drop (ncols skip : ℕ) :
    (range' 0 ncols).filter (fun c => skip ≤ c) = (range ncols).drop skip := by
  induction ncols with
  | zero => simp
  | succ ncols ih =>
    rw [List.range'_1_concat, filter_append, ih, List.range_succ]
    by_cases hle : skip ≤ ncols
    · rw [List.drop_append_of_le_length (by simpa using hle)]
      simp [hle]
    · rw [List.drop_of_length_le (by simp; omega), List.drop_of_length_le (by simp; omega)]
      simp [hle]

theorem transpose_spec (hvalid : ValidMatrix ncols rows) (hchunks : chunks.flatten = rows)
    (hncols : ncols ≤ 2 ^ 32 - 16) (hfit : ChunksFit rows.length chunks) (hskip : skip ≤ ncols) :
    ((∀ c < ncols, ¬Heavier (columnRows rows) skip c) →
      transpose ncols rows.length chunks skip = .ok (headerLine (ncols - skip) rows.length
        ++ ((range ncols).drop skip).flatMap fun c => vecLine (columnRows rows c))) ∧
    ((∃ c < ncols, Heavier (columnRows rows) skip c) →
      transpose ncols rows.length chunks skip = .error .notDecreasing) := by
  have hrows : ∀ chunk ∈ chunks, ∀ row ∈ chunk, ValidRow ncols row := fun chunk hchunk row hrow =>
    hvalid.valid row (hchunks ▸ mem_flatten.mpr ⟨chunk, hchunk, hrow⟩)
  have hsave := (saveChunks_spec rows.length 0 hrows).1 hfit
  have hncols_lt := hvalid.ncols_lt
  have hheader : (ncols + 2 ^ 32 - skip) % 2 ^ 32 = ncols - skip := by omega
  obtain ⟨hok, herror⟩ := rebuildLoop_spec skip
    (s := { skip := skip, lastsize := 0, minskip := 2 ^ 32 - 1, maxskip := 0 })
    (validVec_chunkColumns chunks 0 (by
      rw [hchunks, zero_add]; exact hvalid.nrows_lt)) hncols
    (filesAt_chunkColumns ncols _) rfl
  rw [joined_chunkColumns hchunks] at hok herror
  refine ⟨fun h => ?_, fun h => ?_⟩
  · obtain ⟨s', hrun⟩ := hok h
    rw [linesText, filter_range'_eq_drop] at hrun
    simp only [transpose, hsave, rebuild, hrun, ok_bind, hheader]
    rfl
  · simp only [transpose, hsave, rebuild, herror h, ok_bind, error_bind]

theorem heavier_iff (hskip : skip ≤ ncols) :
    (∃ c < ncols, Heavier (columnRows rows) skip c) ↔ ∃ c < skip, c % nrowsCore ≠ 0 ∧
      (columnRows rows (c - 1)).length < (columnRows rows c).length :=
  ⟨fun ⟨c, _, hmod, hlt, hheavy⟩ => ⟨c, hlt, hmod, hheavy⟩,
    fun ⟨c, hlt, hmod, hheavy⟩ => ⟨c, by omega, hmod, hlt, hheavy⟩⟩

theorem Decreasing.not_heavier (h : Decreasing ncols rows skip) :
    ∀ c < ncols, ¬Heavier (columnRows rows) skip c := by
  rintro c hc ⟨hmod, hlt, hheavy⟩
  have hpos : c ≠ 0 := by
    rintro rfl
    exact hmod rfl
  have := h c (by omega) hlt.le hc
  omega

theorem flatMap_vecLine {cs : List ℕ} (h : ∀ c ∈ cs, SmallVec (columnRows rows c)) :
    (cs.flatMap fun c => vecLine (columnRows rows c))
      = cs.flatMap fun c => plainLine (columnRows rows c) :=
  List.flatMap_congr fun c hc => vecLine_eq_plainLine (h c hc)

section

variable (hvalid : ValidMatrix ncols rows) (hchunks : chunks.flatten = rows)
include hvalid hchunks

theorem ncols_le_of_whole (hfit : ChunksFit rows.length chunks)
    (hwhole : transpose ncols rows.length chunks 0 = .ok (transposeText ncols rows 0)) :
    ncols ≤ 2 ^ 32 - 16 := by
  by_contra hwrap
  have hrows : ∀ chunk ∈ chunks, ∀ row ∈ chunk, ValidRow ncols row := fun chunk hchunk row hrow =>
    hvalid.valid row (hchunks ▸ mem_flatten.mpr ⟨chunk, hchunk, hrow⟩)
  have hncols := hvalid.ncols_lt
  have hheader : (ncols + 2 ^ 32 - 0) % 2 ^ 32 = ncols := by omega
  simp only [transpose, (saveChunks_spec rows.length 0 hrows).1 hfit, ok_bind,
    rebuild, hheader] at hwhole
  obtain ⟨⟨text, s⟩, hrebuild, htext⟩ := bind_eq_ok hwhole
  obtain ⟨⟨text', s'⟩, hloop, htext'⟩ := bind_eq_ok hrebuild
  obtain ⟨rfl, -⟩ := Prod.mk.inj (Except.ok.inj htext')
  obtain ⟨hcolumns, more, hmore, rfl⟩ := rebuildLoop_wrap
    (validVec_chunkColumns chunks 0 (by
      rw [hchunks, zero_add]; exact hvalid.nrows_lt)) hncols (by omega)
    (filesAt_chunkColumns ncols _) rfl hloop
  have hnil : chunks = [] := by
    cases chunks with
    | nil => rfl
    | cons chunk chunks => exact nomatch hcolumns
  have hsmall : ∀ c ∈ (range ncols).drop 0, SmallVec (columnRows rows c) := fun c _ => by
    rw [← hchunks, hnil]
    exact ⟨by simp [columnRows], by simp [columnRows]⟩
  have heq := Except.ok.inj htext
  rw [joined_chunkColumns hchunks, linesText, filter_range'_eq_drop, flatMap_vecLine hsmall,
    transposeText, Nat.sub_zero, List.append_cancel_left_eq] at heq
  exact hmore (by simpa using heq)

/-- For every matrix and every split of its rows into chunks: when the transpose is written. -/
theorem transpose_correct_iff (hskip : skip ≤ ncols) :
    TransposeCorrect ncols rows chunks skip ↔ TransposeFits ncols rows chunks skip := by
  have hrows : ∀ chunk ∈ chunks, ∀ row ∈ chunk, ValidRow ncols row := fun chunk hchunk row hrow =>
    hvalid.valid row (hchunks ▸ mem_flatten.mpr ⟨chunk, hchunk, hrow⟩)
  constructor
  · intro h
    have hwhole := h.whole
    have hfit : ChunksFit rows.length chunks := by
      by_contra hnot
      rw [transpose, (saveChunks_spec rows.length 0 hrows).2 hnot] at hwhole
      exact nomatch hwhole
    have hncols := ncols_le_of_whole hvalid hchunks hfit hwhole
    refine ⟨hncols, (chunksFit_iff hchunks).mp hfit, fun c hc => ?_, ?_⟩
    · have hspec := (transpose_spec hvalid hchunks hncols hfit (Nat.zero_le _)).1
        fun c _ hheavy => Nat.not_lt_zero c hheavy.2.1
      have htext := Except.ok.inj (hspec.symm.trans hwhole)
      refine smallVec_of_minus_not_mem fun hmem => minus_not_mem_transposeText ncols rows 0 ?_
      rw [← htext]
      exact List.mem_append_right _ (List.mem_flatMap.mpr ⟨c, mem_range.mpr hc, hmem⟩)
    · by_cases hdec : Decreasing ncols rows skip
      · exact Or.inl hdec
      · right
        rw [← heavier_iff hskip]
        by_contra hnot
        have hspec := (transpose_spec hvalid hchunks hncols hfit hskip).1
          fun c hc hheavy => hnot ⟨c, hc, hheavy⟩
        exact nomatch hspec.symm.trans (h.error hdec)
  · intro h
    have hfit := (chunksFit_iff hchunks).mpr h.chunks
    have hsmall : ∀ skip, ∀ c ∈ (range ncols).drop skip, SmallVec (columnRows rows c) :=
      fun skip c hc => h.small c (mem_range.mp (List.mem_of_mem_drop hc))
    obtain ⟨hok, herror⟩ := transpose_spec hvalid hchunks h.ncols_le hfit hskip
    have hwhole := (transpose_spec hvalid hchunks h.ncols_le hfit (Nat.zero_le _)).1
      fun c _ hheavy => Nat.not_lt_zero c hheavy.2.1
    rw [flatMap_vecLine (hsmall 0)] at hwhole
    rw [flatMap_vecLine (hsmall skip)] at hok
    exact ⟨hwhole, fun hdec => hok hdec.not_heavier, fun hdec =>
      herror ((heavier_iff hskip).mpr (h.skip.resolve_left hdec))⟩

end

/-- Three rows in two chunks, with lines of the weights 2, 2 and 1. -/
def matrixRows : List (List ℕ) :=
  [[0, 1], [1], [0, 2]]

theorem validMatrix_matrixRows : ValidMatrix 3 matrixRows :=
  ⟨fun row hrow => by
    simp only [matrixRows, mem_cons, not_mem_nil, or_false] at hrow
    rcases hrow with rfl | rfl | rfl <;> exact ⟨by decide, by decide⟩, by decide, by decide⟩

theorem transpose_correct_iff_matrixRows :
    TransposeCorrect 3 matrixRows [[[0, 1], [1]], [[0, 2]]] 1 :=
  (transpose_correct_iff validMatrix_matrixRows rfl (by decide)).mpr
    { ncols_le := by decide
      chunks := fun chunk hchunk hlen => by
        simp only [mem_cons, not_mem_nil, or_false] at hchunk
        rcases hchunk with rfl | rfl <;> exact absurd hlen (by decide)
      small := by decide
      skip := Or.inl fun c hc hle _ => by
        obtain rfl : c = 1 := by omega
        decide }

/-- A column that is in every row fails an assertion. -/
theorem not_transpose_correct : ¬∀ ncols rows chunks skip, ValidMatrix ncols rows →
    chunks.flatten = rows → skip ≤ ncols → TransposeCorrect ncols rows chunks skip := by
  intro h
  have hvalid : ValidMatrix 1 [[0]] :=
    ⟨fun row hrow => by
      rw [List.mem_singleton.mp hrow]
      exact ⟨by decide, by decide⟩, by decide, by decide⟩
  exact absurd (h 1 [[0]] [[[0]]] 0 hvalid rfl (by decide)).whole (by decide)

end Transpose

end CadoNfs.Transpose
