import Mathlib.Data.List.GetD
import CadoNfs.Filter.IndexFile
import CadoNfs.Lib.Gf2
import CadoNfs.Macros
import CadoNfs.Utils.Relation

/-!
# Dependency files

The program `sqrt -ab` reads the index file and the kernel in step, keeps for each
relation a word with its parity in 64 dependencies, and writes the pairs `(a, b)` of
each dependency to a file.

Main results:

- Theorem `purgedfileStreamGet_relation`: a line of the purged file is read back.
- Theorem `addRows_spec`: the words hold the parities.
- Theorem `createDependencies_spec`: the files that are written.
-/

namespace CadoNfs.Sqrt

open ForRange Gf2 Digits
open Replay (indexRows scanInt)
open List (append_assoc cons_append flatMap_cons length_cons range)
open Option (bind_eq_bind bind_some)
open Nat (toDigits)
open Function (update)

/-! ## The purged file -/

/-- The rest of a line and its end. -/
def skipLine : List Char → List Char
  | [] => []
  | c :: text => if c = '\n' then text else skipLine text

/-- What `purgedfile_stream_get` reads. -/
inductive PurgedGet
  | eof
  | pair (a : ℤ) (b : ℕ) (rest : List Char)

theorem length_skipLine_le (text : List Char) : (skipLine text).length ≤ text.length := by
  induction text with
  | nil => exact le_rfl
  | cons c text ih =>
    rw [skipLine, length_cons]
    split_ifs <;> omega

/-- `purgedfile_stream_get` with `parse_only_ab` and without a line;
`none` is a failed assertion. -/
def purgedfileStreamGet : List Char → Option PurgedGet
  | [] => some .eof
  | c :: text =>
    if c = '#' then purgedfileStreamGet (skipLine text)
    else do
      let (_, text) := readNumber digitValue 10 (2 ^ 32) 0 (c :: text)
      let text ← expect ' ' text
      let minus := text.head? = some '-'
      let s : ℤ := if minus then -1 else 1
      let (a, text) := readNumber digitValue 10 (2 ^ 64) 0 (if minus then text.tail else text)
      let text ← expect ' ' text
      let (b, text) := readNumber digitValue 10 (2 ^ 64) 0 text
      let text ← expect ' ' text
      some (.pair ((s * a).bmod (2 ^ 64)) b (skipLine text))
termination_by text => text.length
decreasing_by
  have := length_skipLine_le text
  rw [length_cons]
  omega

/-- `purgedfile_stream_openfile`: the number of rows, and the text after the first
line. -/
def purgedfileStreamOpenfile (text : List Char) : Option (ℕ × List Char) := do
  let (nrows, text) ← scanInt 10 text
  let (_, text) ← scanInt 10 text
  some (nrows, text.dropWhile fun c => c = ' ' || c = '\n' || c = '\t' || c = '\r')

section Length

variable {value : Char → Option ℕ} {b M acc : ℕ} {text rest : List Char}

theorem length_readNumber_le :
    (readNumber value b M acc text).2.length ≤ text.length := by
  induction text generalizing acc with
  | nil => exact le_rfl
  | cons c text ih =>
    rw [readNumber]
    split
    · exact ih.trans (Nat.le_succ _)
    · exact le_rfl

theorem length_expect_lt {stop : Char} (h : expect stop text = some rest) :
    rest.length < text.length := by
  cases text with
  | nil => exact absurd h nofun
  | cons c text =>
    rw [expect] at h
    split_ifs at h with hc
    obtain rfl := Option.some.inj h
    exact Nat.lt_succ_self _

/-- Every read takes something off the text. -/
theorem length_purgedfileStreamGet {a : ℤ} {b : ℕ}
    (h : purgedfileStreamGet text = some (.pair a b rest)) : rest.length < text.length := by
  induction text using purgedfileStreamGet.induct with
  | case1 => simp [purgedfileStreamGet] at h
  | case2 text ih =>
    rw [purgedfileStreamGet, if_pos rfl] at h
    have := length_skipLine_le text
    rw [length_cons]
    have := ih h
    omega
  | case3 c text hc =>
    rw [purgedfileStreamGet, if_neg hc] at h
    simp only [bind_eq_bind, Option.bind_eq_some_iff, Option.some.injEq, PurgedGet.pair.injEq] at h
    obtain ⟨text₁, hfirst, text₂, hsecond, text₃, hthird, -, -, rfl⟩ := h
    have h₁ := length_expect_lt hfirst
    have h₂ := length_expect_lt hsecond
    have h₃ := length_expect_lt hthird
    have hindex : (readNumber digitValue 10 (2 ^ 32) 0 (c :: text)).2.length
        ≤ (c :: text).length := length_readNumber_le
    have hnumber : ∀ text, (readNumber digitValue 10 (2 ^ 64) 0 text).2.length ≤ text.length :=
      fun text => length_readNumber_le
    have hminus : (if text₁.head? = some '-' then text₁.tail else text₁).length
        ≤ text₁.length := by
      split_ifs
      · rw [List.length_tail]
        omega
      · exact le_rfl
    have hskip := length_skipLine_le text₃
    have h₄ := hnumber (if text₁.head? = some '-' then text₁.tail else text₁)
    have h₅ := hnumber text₂
    omega

end Length

/-! ## Code -/

/-- A file of bytes and its size. -/
structure ByteFile where
  size : ℕ
  bytes : ℕ → BitVec 8

/-- `fread` of a 64-bit number on a little-endian machine. -/
def ByteFile.freadU64 (ker : ByteFile) (pos : ℕ) : BitVec 64 :=
  forRange 8 (fun k v => v ||| ((ker.bytes (pos + k)).setWidth 64 <<< (8 * k))) 0#64

/-- One turn of the loop over the rows: `v` is read from the kernel, and added to the
words `abs` of the columns of the row.  `pos` is the place in the kernel. -/
def addRow (ker : ByteFile) (kerStride : ℤ) (nrows : ℕ) (s : (ℕ → BitVec 64) × ℕ) (nc : ℕ)
    (ix : List Char) : Option (((ℕ → BitVec 64) × ℕ) × List Char) := do
  let v := ker.freadU64 s.2
  let pos := s.2 + 8
  let pos := if kerStride ≠ 0 then (pos + kerStride).toNat else pos
  let (abs, ix) ← forRangeM nc (fun _ (abs, ix) => do
    let (col, ix) ← scanInt 16 ix
    assertAlways (col < nrows)
    some (update abs col (abs col ^^^ v), ix)) (s.1, ix)
  some ((abs, pos), ix)

/-- The name of a file: `%s.%03d`. -/
def depName (pre : List Char) (i : ℕ) : List Char :=
  pre ++ '.' :: (List.replicate (3 - (toDigits 10 i).length) '0' ++ toDigits 10 i)

/-- A line of a dependency file. -/
def pairLine (a : ℤ) (b : ℕ) : List Char :=
  printInt a ++ ' ' :: (toDigits 10 b ++ ['\n'])

/-- The loop over the purged file, from pair `i` on; `files` is what has been
written for each mask. -/
def writePairs (nrows : ℕ) (abs : ℕ → BitVec 64) (masks : List (BitVec 64)) (i : ℕ)
    (text : List Char) (files : List (List Char)) : Option (List (List Char)) :=
  match _h : purgedfileStreamGet text with
  | none => none
  | some .eof => some files
  | some (.pair a b rest) => do
    assertAlways (i < nrows)
    writePairs nrows abs masks (i + 1) rest (masks.zipWith
      (fun mask file => if abs i &&& mask ≠ 0#64 then file ++ pairLine a b else file) files)
termination_by text.length
decreasing_by exact length_purgedfileStreamGet (by assumption)

/-- `create_dependencies` on the index file `ix`, the purged file `purged`
and the kernel `ker`: the names and contents of the files. -/
def createDependencies (pre ix purged : List Char) (ker : ByteFile) :
    Option (List (List Char × List Char)) := do
  let (smallNrows, ix) ← scanInt 10 ix
  let (_, ix) ← scanInt 10 ix
  -- a division by zero without rows
  assertAlways (smallNrows ≠ 0)
  assertAlways (ker.size % smallNrows = 0)
  let ndepbytes : ℕ := ker.size / smallNrows % 2 ^ 32
  let kerStride : ℤ := ndepbytes - 8
  let (nrows, ps) ← purgedfileStreamOpenfile purged
  let r ← forRangeM smallNrows (fun _ (s, ix) => do
    let (nc, ix) ← scanInt 10 ix
    addRow ker kerStride nrows s nc ix) (((fun _ => 0#64), 0), ix)
  let abs := r.1.1
  let sanity := forRange nrows (fun i sanity => sanity ||| abs i) 0#64
  let masks := ((range 64).map fun i => 1#64 <<< i).filter fun m => sanity &&& m ≠ 0#64
  let files ← writePairs nrows abs masks 0 ps (masks.map fun _ => [])
  some (files.mapIdx fun i file => (depName pre i, file))

/-! ## Parities -/

/-- Bit `b` of row `r` of a kernel with rows of `n` bytes. -/
def kerBit (ker : ByteFile) (n r b : ℕ) : Bool :=
  (ker.bytes (r * n + b / 8)).getLsbD (b % 8)

/-- The number of pairs of an index row with bit `b` of its kernel row set and an
occurrence of `i` in it. -/
def hits (rows : List (List ℕ)) (ker : ByteFile) (n i b : ℕ) : ℕ :=
  (rows.zipIdx.map fun x => if kerBit ker n x.2 b then x.1.count i else 0).sum

section Parities

variable {ker : ByteFile} {rows : List (List ℕ)} {n nrows : ℕ}

theorem getLsbD_freadU64 (ker : ByteFile) (pos : ℕ) {b : ℕ} (hb : b < 64) :
    (ker.freadU64 pos).getLsbD b = (ker.bytes (pos + b / 8)).getLsbD (b % 8) := by
  have hloop := forRange_induct
    (motive := fun k (v : BitVec 64) => ∀ b < 64, v.getLsbD b
      = if b / 8 < k then (ker.bytes (pos + b / 8)).getLsbD (b % 8) else false)
    (fun k v => v ||| ((ker.bytes (pos + k)).setWidth 64 <<< (8 * k))) 0#64 8 ?_ ?_
  · exact (hloop b hb).trans (if_pos (by omega))
  · intro b _
    rw [BitVec.getLsbD_zero, if_neg (Nat.not_lt_zero _)]
  · intro k hk v hv b hb
    rw [BitVec.getLsbD_or, hv b hb, BitVec.getLsbD_shiftLeft, BitVec.getLsbD_setWidth]
    rcases Nat.lt_trichotomy (b / 8) k with hlt | rfl | hgt
    · rw [if_pos hlt, if_pos (by omega), decide_eq_true (show b < 8 * k by omega)]
      simp
    · rw [if_neg (lt_irrefl _), if_pos (Nat.lt_succ_self _),
        decide_eq_false (show ¬b < 8 * (b / 8) by omega), decide_eq_true hb,
        decide_eq_true (show b - 8 * (b / 8) < 64 by omega),
        show b - 8 * (b / 8) = b % 8 by omega]
      simp
    · rw [if_neg (by omega), if_neg (by omega),
        BitVec.getLsbD_of_ge _ (b - 8 * k) (show 8 ≤ b - 8 * k by omega)]
      simp

theorem hits_append (rows : List (List ℕ)) (row : List ℕ) (ker : ByteFile) (n i b : ℕ) :
    hits (rows ++ [row]) ker n i b
      = hits rows ker n i b + if kerBit ker n rows.length b then row.count i else 0 := by
  simp [hits, List.zipIdx_append]

theorem addColumns_spec {row : List ℕ} (hrow : ∀ col ∈ row, col < nrows) {nc : ℕ}
    {text rest : List Char} (hscan : Replay.scanRow nc text = some (row, rest))
    (abs : ℕ → BitVec 64) (v : BitVec 64) :
    ∃ abs', forRangeM nc (fun _ (abs, ix) => do
        let (col, ix) ← scanInt 16 ix
        assertAlways (col < nrows)
        some (update abs col (abs col ^^^ v), ix)) (abs, text) = some (abs', rest) ∧
      ∀ i b, bit (abs' i) b = bit (abs i) b + row.count i * bit v b := by
  refine Replay.scanRow_induct
    (motive := fun done (abs' : ℕ → BitVec 64) => ∀ i b,
      bit (abs' i) b = bit (abs i) b + done.count i * bit v b)
    (fun abs col ix => (assertAlways (col < nrows)).bind fun _ =>
      some (update abs col (abs col ^^^ v), ix))
    hscan (fun i b => by simp) ?_
  intro done col hcol abs₁ habs₁
  refine ⟨update abs₁ col (abs₁ col ^^^ v), fun text => ?_, fun i b => ?_⟩
  · rw [assertAlways_of_true (hrow col hcol)]
    rfl
  · rw [List.count_append, List.count_singleton]
    by_cases hi : i = col
    · rw [hi, Function.update_self, bit_xor, habs₁]
      simp [add_mul, add_assoc]
    · rw [Function.update_of_ne hi, habs₁]
      simp [Ne.symm hi]

/-- The words hold the parities of the hits. -/
theorem addRows_spec (hn : 8 ≤ n) (hrows : ∀ row ∈ rows, ∀ col ∈ row, col < nrows)
    {smallNrows : ℕ} {text : List Char} (hscan : Replay.scanRows smallNrows text = some rows) :
    ∃ r, forRangeM smallNrows (fun _ (s, ix) => do
        let (nc, ix) ← scanInt 10 ix
        addRow ker ((n : ℤ) - 8) nrows s nc ix) (((fun _ => 0#64 : ℕ → BitVec 64), 0), text)
        = some r ∧
      ∀ i, ∀ b < 64, bit (r.1.1 i) b = hits rows ker n i b := by
  have hloop := Replay.scanRows_induct
    (motive := fun done (s : (ℕ → BitVec 64) × ℕ) => s.2 = done.length * n ∧
      ∀ i, ∀ b < 64, bit (s.1 i) b = hits done ker n i b)
    (fun _ s nc ix => addRow ker ((n : ℤ) - 8) nrows s nc ix) hscan
    (show ((fun _ => 0#64 : ℕ → BitVec 64), 0).2 = 0 * n ∧ ∀ i, ∀ b < 64,
      bit 0#64 b = hits [] ker n i b from ⟨by simp, fun i b _ => by simp [hits]⟩) ?_
  · obtain ⟨r, hrun, -, hbits⟩ := hloop
    exact ⟨r, hrun, hbits⟩
  · rintro done - row hrow ⟨abs, pos⟩ nc text rest hline ⟨rfl, hbits⟩
    obtain ⟨abs', hrun, habs'⟩ := addColumns_spec (hrows row hrow) hline abs
      (ker.freadU64 (done.length * n))
    refine ⟨(abs', (done ++ [row]).length * n), ?_, rfl, fun i b hb => ?_⟩
    · have hpos : (if (n : ℤ) - 8 ≠ 0 then ((done.length * n + 8 : ℕ) + ((n : ℤ) - 8)).toNat
          else done.length * n + 8) = (done ++ [row]).length * n := by
        rw [List.length_append, List.length_singleton, Nat.succ_mul]
        split_ifs <;> omega
      refine Eq.trans (congrArg (Option.bind · _) hrun) ?_
      exact congrArg (fun pos => some ((abs', pos), rest)) hpos
    · rw [habs', hbits i b hb, hits_append, bit, getLsbD_freadU64 ker _ hb]
      rw [kerBit]
      cases (ker.bytes (done.length * n + b / 8)).getLsbD (b % 8) <;> simp

theorem bit_forRange_or (abs : ℕ → BitVec 64) (nrows b : ℕ) :
    bit (forRange nrows (fun i sanity => sanity ||| abs i) 0#64) b = 1
      ↔ ∃ i < nrows, bit (abs i) b = 1 := by
  simp only [bit, ofBool_eq_one_iff]
  induction nrows with
  | zero => simp
  | succ nrows ih =>
    rw [forRange_succ, BitVec.getLsbD_or, Bool.or_eq_true, ih]
    constructor
    · rintro (⟨i, hi, hbit⟩ | hbit)
      · exact ⟨i, Nat.lt_succ_of_lt hi, hbit⟩
      · exact ⟨nrows, Nat.lt_succ_self nrows, hbit⟩
    · rintro ⟨i, hi, hbit⟩
      rcases Nat.lt_succ_iff_lt_or_eq.mp hi with hlt | rfl
      · exact Or.inl ⟨i, hlt, hbit⟩
      · exact Or.inr hbit

end Parities

/-! ## Lines of the purged file -/

/-- A line of the purged file, after which there is an end of line. -/
inductive PurgedLine
  | comment (text : List Char)
  | relation (index : ℕ) (a : ℤ) (b : ℕ) (rest : List Char)

/-- The text of a line. -/
def PurgedLine.text : PurgedLine → List Char
  | comment text => '#' :: (text ++ ['\n'])
  | relation index a b rest =>
    toDigits 10 index ++ ' ' :: (printInt a ++ ' ' :: (toDigits 10 b ++ ' ' ::
      (rest ++ ['\n'])))

/-- Numbers of a line fit in their types, and it is one line. -/
def PurgedLine.Valid : PurgedLine → Prop
  | comment text => '\n' ∉ text
  | relation index a b rest =>
    index < 2 ^ 31 ∧ -2 ^ 63 ≤ a ∧ a < 2 ^ 63 ∧ b < 2 ^ 64 ∧ '\n' ∉ rest

/-- The pair of a line. -/
def PurgedLine.pair : PurgedLine → Option (ℤ × ℕ)
  | comment _ => none
  | relation _ a b _ => some (a, b)

/-- The purged file with these lines. -/
def purgedText (nrows ncols : ℕ) (lines : List PurgedLine) : List Char :=
  toDigits 10 nrows ++ ' ' :: (toDigits 10 ncols ++ '\n' ::
    lines.flatMap PurgedLine.text)

section Lines

variable {text : List Char} {nrows : ℕ} {abs : ℕ → BitVec 64} {masks : List (BitVec 64)}

section

variable {line : List Char} (hline : '\n' ∉ line) (text : List Char)
include hline

theorem skipLine_append : skipLine (line ++ '\n' :: text) = text := by
  induction line with
  | nil => rfl
  | cons c line ih =>
    rw [List.mem_cons, not_or] at hline
    rw [cons_append, skipLine, if_neg (Ne.symm hline.1), ih hline.2]

theorem purgedfileStreamGet_comment :
    purgedfileStreamGet ((PurgedLine.comment line).text ++ text) = purgedfileStreamGet text := by
  rw [PurgedLine.text, cons_append, append_assoc, List.singleton_append,
    purgedfileStreamGet, if_pos rfl, skipLine_append hline]

end

/-- A relation is read. -/
theorem purgedfileStreamGet_relation {index : ℕ} {a : ℤ} {b : ℕ} {rest : List Char}
    (hvalid : (PurgedLine.relation index a b rest).Valid) (text : List Char) :
    purgedfileStreamGet ((PurgedLine.relation index a b rest).text ++ text)
      = some (.pair a b text) := by
  obtain ⟨hindex, ha, ha', hb, hrest⟩ := hvalid
  have hspace : digitValue ' ' = none := by decide
  have hreadIndex := fun text => readNumber_toDigits (fun d hd => digitValue_digitChar
    (show d < 16 by omega)) (show 1 < 10 by decide) (show index < 2 ^ 32 by omega)
    (show Stops digitValue (' ' :: text) from stops_cons.mpr hspace)
  obtain ⟨d, ds, hds⟩ := List.exists_cons_of_ne_nil (Nat.toDigits_ne_nil (n := index) (b := 10))
  have hhash : d ≠ '#' := by
    obtain ⟨v, hv, rfl⟩ : ∃ v < 10, d = Nat.digitChar v :=
      mem_toDigits (by decide) (hds ▸ List.mem_cons_self)
    interval_cases v <;> decide
  obtain ⟨c, line, hline, -, m, hreadA, hm⟩ := readSigned ha ha' hspace
    (toDigits 10 b ++ ' ' :: (rest ++ '\n' :: text))
  have hreadB := readDecimal hb hspace (rest ++ '\n' :: text)
  have htext : (PurgedLine.relation index a b rest).text ++ text
      = d :: (ds ++ ' ' :: (c :: line)) := by
    rw [← hline, ← cons_append, ← hds]
    simp [PurgedLine.text, append_assoc]
  have hfirst := hreadIndex (c :: line)
  rw [hds, cons_append] at hfirst
  rw [htext, purgedfileStreamGet, if_neg hhash]
  simp only [hfirst, expect, if_true, bind_eq_bind, bind_some, List.head?_cons,
    Option.some.injEq, List.tail_cons, hreadA, hreadB, hm, skipLine_append hrest]

theorem writePairs_none (h : purgedfileStreamGet text = none) (i : ℕ)
    (files : List (List Char)) : writePairs nrows abs masks i text files = none := by
  rw [writePairs]
  split <;> simp_all

theorem writePairs_eof (h : purgedfileStreamGet text = some .eof) (i : ℕ)
    (files : List (List Char)) : writePairs nrows abs masks i text files = some files := by
  rw [writePairs]
  split <;> simp_all

theorem writePairs_pair {a : ℤ} {b : ℕ} {rest : List Char}
    (h : purgedfileStreamGet text = some (.pair a b rest)) (i : ℕ) (files : List (List Char)) :
    writePairs nrows abs masks i text files
      = (assertAlways (i < nrows)).bind fun _ => writePairs nrows abs masks (i + 1) rest
        (masks.zipWith (fun mask file =>
          if abs i &&& mask ≠ 0#64 then file ++ pairLine a b else file) files) := by
  rw [writePairs]
  split
  · simp_all
  · simp_all
  · rename_i heq
    rw [h] at heq
    cases heq
    rfl

theorem writePairs_congr {text' : List Char}
    (h : purgedfileStreamGet text = purgedfileStreamGet text') (i : ℕ)
    (files : List (List Char)) :
    writePairs nrows abs masks i text files = writePairs nrows abs masks i text' files := by
  rcases hread : purgedfileStreamGet text' with _ | _ | ⟨a, b, rest⟩
  · rw [writePairs_none (h.trans hread), writePairs_none hread]
  · rw [writePairs_eof (h.trans hread), writePairs_eof hread]
  · rw [writePairs_pair (h.trans hread), writePairs_pair hread]

theorem writePairs_spec {lines : List PurgedLine} (hlines : ∀ line ∈ lines, line.Valid) {i : ℕ}
    (hnrows : i + (lines.filterMap PurgedLine.pair).length ≤ nrows)
    (F : BitVec 64 → List Char) :
    writePairs nrows abs masks i (lines.flatMap PurgedLine.text) (masks.map F)
      = some (masks.map fun mask => F mask ++
        ((lines.filterMap PurgedLine.pair).zipIdx i).flatMap fun x =>
          if abs x.2 &&& mask ≠ 0#64 then pairLine x.1.1 x.1.2 else []) := by
  induction lines generalizing i F with
  | nil =>
    rw [List.flatMap_nil, writePairs_eof (by rw [purgedfileStreamGet])]
    simp
  | cons line lines ih =>
    obtain ⟨hline, hrest⟩ := List.forall_mem_cons.mp hlines
    rw [flatMap_cons]
    cases line with
    | comment line =>
      rw [writePairs_congr (purgedfileStreamGet_comment hline _), ih hrest hnrows]
      rfl
    | relation index a b rest =>
      have hpairs : List.filterMap PurgedLine.pair (PurgedLine.relation index a b rest :: lines)
          = (a, b) :: lines.filterMap PurgedLine.pair := rfl
      rw [hpairs, length_cons] at hnrows
      rw [writePairs_pair (purgedfileStreamGet_relation hline _),
        assertAlways_of_true (show i < nrows by omega), bind_some,
        List.zipWith_map_right, List.zipWith_self, ih hrest (show i + 1 + _ ≤ nrows by omega)]
      refine congrArg some (List.map_congr_left fun mask _ => ?_)
      rw [hpairs, List.zipIdx_cons, flatMap_cons, ← append_assoc]
      split_ifs <;> simp

theorem dropWhile_lines (lines : List PurgedLine) :
    (lines.flatMap PurgedLine.text).dropWhile
      (fun c => c = ' ' || c = '\n' || c = '\t' || c = '\r')
      = lines.flatMap PurgedLine.text := by
  rcases lines with _ | ⟨line, lines⟩
  · rfl
  rw [flatMap_cons]
  cases line with
  | comment line => rfl
  | relation index a b rest =>
    obtain ⟨d, ds, hds⟩ :=
      List.exists_cons_of_ne_nil (Nat.toDigits_ne_nil (n := index) (b := 10))
    obtain ⟨v, hv, rfl⟩ : ∃ v < 10, d = Nat.digitChar v :=
      mem_toDigits (by decide) (hds ▸ List.mem_cons_self)
    rw [PurgedLine.text, hds, cons_append, cons_append, List.dropWhile_cons,
      if_neg (by interval_cases v <;> decide)]

theorem purgedfileStreamOpenfile_purgedText {ncols : ℕ} (hnrows : nrows < 2 ^ 31)
    (hncols : ncols < 2 ^ 31) (lines : List PurgedLine) :
    purgedfileStreamOpenfile (purgedText nrows ncols lines)
      = some (nrows, lines.flatMap PurgedLine.text) := by
  have hrows := Replay.scanInt_toDigits (show 1 < 10 by decide) (by decide)
    (show nrows < 2 ^ 32 by omega) (Replay.stops_of_space (Or.inl rfl)
      (toDigits 10 ncols ++ '\n' :: lines.flatMap PurgedLine.text))
  have hcols := Replay.scanInt_toDigits (show 1 < 10 by decide) (by decide)
    (show ncols < 2 ^ 32 by omega) (Replay.stops_of_space (Or.inr rfl)
      (lines.flatMap PurgedLine.text))
  simp only [purgedfileStreamOpenfile, purgedText, hrows, bind_eq_bind, bind_some,
    Replay.scanInt_space 10 (Or.inl rfl), hcols, Option.some.injEq, Prod.mk.injEq, true_and]
  rw [List.dropWhile_cons, if_pos (by decide), dropWhile_lines]

end Lines

/-! ## Files -/

theorem flatMap_filter {α β : Type*} (p : α → Bool) (f : α → List β) (l : List α) :
    (l.filter p).flatMap f = l.flatMap fun x => if p x then f x else [] := by
  induction l with
  | nil => rfl
  | cons x l ih => cases hx : p x <;> simp [hx, ih]

theorem and_one_shift_ne_zero_iff_odd {v : BitVec 64} {b h : ℕ} (hb : b < 64)
    (hbit : bit v b = h) : v &&& 1#64 <<< b ≠ 0#64 ↔ Odd h := by
  rw [and_one_shift_ne_zero_iff v hb, hbit, ZMod.natCast_eq_one_iff_odd]

section Files

variable {pre ix : List Char} {ker : ByteFile} {rows : List (List ℕ)}
  {n nrows ncols : ℕ} {lines : List PurgedLine}

variable (hindex : indexRows ix = some rows) (hne : rows ≠ [])
  (hrows : ∀ row ∈ rows, ∀ col ∈ row, col < nrows) (hsize : ker.size = rows.length * n)
  (hn : 8 ≤ n) (hn' : n < 2 ^ 32) (hnrows : nrows < 2 ^ 31) (hncols : ncols < 2 ^ 31)
  (hlines : ∀ line ∈ lines, line.Valid)
  (hcount : (lines.filterMap PurgedLine.pair).length = nrows)
include hindex hne hrows hsize hn hn' hnrows hncols hlines hcount

/-- There is a file for each bit that is set somewhere. -/
theorem createDependencies_masks : ∃ abs : ℕ → BitVec 64,
    (∀ i, ∀ b < 64, bit (abs i) b = hits rows ker n i b) ∧
    createDependencies pre ix (purgedText nrows ncols lines) ker
      = some ((((range 64).filter fun b => ∃ i < nrows, Odd (hits rows ker n i b)).map
        fun b => (lines.filterMap PurgedLine.pair).zipIdx.flatMap fun x =>
          if abs x.2 &&& 1#64 <<< b ≠ 0#64 then pairLine x.1.1 x.1.2 else []).mapIdx
        fun k file => (depName pre k, file)) := by
  simp only [indexRows, bind_eq_bind, Option.bind_eq_some_iff, Prod.exists] at hindex
  obtain ⟨smallNrows, ix₁, hsmall, smallNcols, ix₂, hcols, hscan⟩ := hindex
  obtain rfl := Replay.length_of_scanRows hscan
  have hpos : 0 < rows.length := List.length_pos_iff.mpr hne
  have hmod : ker.size % rows.length = 0 := by rw [hsize, Nat.mul_mod_right]
  have hdiv : ker.size / rows.length % 2 ^ 32 = n := by
    rw [hsize, Nat.mul_div_cancel_left n hpos, Nat.mod_eq_of_lt hn']
  obtain ⟨r, hrun, hbits⟩ := @addRows_spec ker rows n nrows hn hrows _ _ hscan
  have hsanity : ∀ b < 64, forRange nrows (fun i sanity => sanity ||| r.1.1 i) 0#64
      &&& 1#64 <<< b ≠ 0#64 ↔ ∃ i < nrows, Odd (hits rows ker n i b) := by
    intro b hb
    rw [and_one_shift_ne_zero_iff _ hb, bit_forRange_or]
    refine exists_congr fun i => and_congr_right fun _ => ?_
    rw [hbits i b hb, ZMod.natCast_eq_one_iff_odd]
  have hmasks : ((range 64).map fun i => 1#64 <<< i).filter (fun m =>
        decide (forRange nrows (fun i sanity => sanity ||| r.1.1 i) 0#64 &&& m ≠ 0#64))
      = ((range 64).filter fun b => ∃ i < nrows, Odd (hits rows ker n i b)).map
        fun i => 1#64 <<< i := by
    rw [List.filter_map]
    refine congrArg (List.map _) (List.filter_congr fun b hb => ?_)
    exact decide_eq_decide.mpr (hsanity b (List.mem_range.mp hb))
  simp only [bind_eq_bind] at hrun
  refine ⟨r.1.1, hbits, ?_⟩
  simp only [createDependencies, hsmall, hcols, bind_eq_bind, bind_some,
    assertAlways_of_true hpos.ne', assertAlways_of_true hmod, hdiv,
    purgedfileStreamOpenfile_purgedText hnrows hncols, hrun, hmasks]
  rw [writePairs_spec hlines (by omega) fun _ => [], bind_some, List.map_map]
  rfl

/-- The files are those of the bits that are set somewhere, and have the pairs with an odd
number of hits. -/
theorem createDependencies_spec :
    createDependencies pre ix (purgedText nrows ncols lines) ker
      = some (((range 64).filter fun b => ∃ i < nrows, Odd (hits rows ker n i b)).mapIdx
        fun k b => (depName pre k, (((lines.filterMap PurgedLine.pair).zipIdx.filter fun x =>
            Odd (hits rows ker n x.2 b)).flatMap fun x => pairLine x.1.1 x.1.2))) := by
  obtain ⟨abs, hbits, hrun⟩ := @createDependencies_masks pre _ _ _ _ _ _ _ hindex hne hrows hsize
    hn hn' hnrows hncols hlines hcount
  rw [hrun]
  refine congrArg some (List.ext_getElem
    (by simp) fun k hk hk' => ?_)
  rw [List.getElem_mapIdx, List.getElem_mapIdx, List.getElem_map, flatMap_filter]
  rw [List.length_mapIdx] at hk'
  have hb := List.mem_range.mp (List.mem_of_mem_filter (List.getElem_mem hk'))
  refine congrArg (Prod.mk _) (congrArg (List.flatMap · _) (funext fun x => ?_))
  simp [and_one_shift_ne_zero_iff_odd hb (hbits x.2 _ hb)]

end Files

/-- Two rows, in which the hits of a pair cancel for one of the two dependencies. -/
theorem createDependencies_spec_two :
    createDependencies ['d'] ['2', ' ', '2', '\n', '2', ' ', '0', ' ', '1', '\n',
        '3', ' ', '1', ' ', '1', ' ', '0', '\n']
      (purgedText 2 3 [.relation 4 (-5) 3 [], .comment ['x'], .relation 7 8 9 ['1', ' ', 'a']])
      ⟨18, fun k => if k = 0 then 3#8 else if k = 9 then 1#8 else
        if k % 9 = 8 then 255#8 else 0#8⟩
      = some [(['d', '.', '0', '0', '0'], ['8', ' ', '9', '\n']),
          (['d', '.', '0', '0', '1'], ['-', '5', ' ', '3', '\n', '8', ' ', '9', '\n'])] := by
  have hfiles := @createDependencies_spec ['d']
    ['2', ' ', '2', '\n', '2', ' ', '0', ' ', '1', '\n', '3', ' ', '1', ' ', '1', ' ', '0', '\n']
    ⟨18, fun k => if k = 0 then 3#8 else if k = 9 then 1#8 else if k % 9 = 8 then 255#8 else 0#8⟩
    [[0, 1], [1, 1, 0]] 9 2 3
    [.relation 4 (-5) 3 [], .comment ['x'], .relation 7 8 9 ['1', ' ', 'a']]
    (by decide) (by decide) (by decide) rfl (by decide) (by decide) (by decide) (by decide)
    (by simp [PurgedLine.Valid]) rfl
  exact hfiles.trans (by decide)

/-- Without rows there is a division by zero. -/
theorem createDependencies_no_rows :
    indexRows ['0', ' ', '0', '\n'] = some [] ∧
      createDependencies ['d'] ['0', ' ', '0', '\n'] (purgedText 0 0 []) ⟨0, fun _ => 0#8⟩
        = none := by
  decide

end CadoNfs.Sqrt
