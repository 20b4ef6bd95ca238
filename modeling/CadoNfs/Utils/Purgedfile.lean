import CadoNfs.Macros
import CadoNfs.Utils.Relation

/-!
# The purged file

`purge` writes a line for each relation that is left, and `purgedfile_stream_get` reads
one line: numbers in base 10, then the columns in base 16.  The character that comes next has
always been read.

Main results:

- Theorem `purgedfileStreamGet_line`: a line is read back.
- Theorem `readRelRows_lines`: so are the lines of a file.
-/

namespace CadoNfs

open Digits
open Nat (toDigits)
open List (append_assoc cons_append forall_mem_cons length_append length_cons map_cons range)
open Option (bind_eq_bind bind_eq_some_iff bind_some pure_def)

/-! ## Writing -/

/-- What `fprint_rel_row` writes for a relation and the indices `table_ind`. -/
def fprintRelRowLine (irel : ℕ) (a : ℤ) (b : ℕ) (tableInd : List ℕ) : List Char :=
  toDigits 10 irel ++ ' ' :: (printInt a ++ ' ' :: (toDigits 10 b ++ ' ' ::
    (toDigits 10 tableInd.length ++
      ((tableInd.flatMap fun index => ' ' :: toDigits 16 (index - 1)) ++ ['\n']))))

/-! ## Reading -/

/-- What `purgedfile_stream_get` uses of `purgedfile_stream`.  The text is the part of
the file that has not been read; `cols` has `nc_alloc` entries. -/
structure PurgedfileStream where
  source : List Char
  nodupIndex : ℤ
  a : ℤ
  b : ℤ
  nc : ℤ
  cols : ℕ → ℤ
  ncAlloc : ℕ
  parseOnlyAb : Bool
  pos : ℕ
  rrows : ℕ
  lnum : ℕ

/-- The text from the last character read, `c`, on, empty at the end of the file, and the
number of characters read. -/
structure Cursor where
  text : List Char
  nread : ℕ

/-- The last character read. -/
def Cursor.c (cur : Cursor) : Option Char := cur.text.head?

@[simp]
theorem Cursor.c_cons (c : Char) (text : List Char) (nread : ℕ) :
    Cursor.c ⟨c :: text, nread⟩ = some c :=
  rfl

/-- `STORE`: one character more is read. -/
def Cursor.store (cur : Cursor) : Option Cursor :=
  if cur.nread + 1 < 2 ^ 31 then some ⟨cur.text.tail, cur.nread + 1⟩ else none

/-- A number in base `base`: `fits` is the arithmetic of its type. -/
def fieldLoop (base : ℕ) (fits : ℤ → Option ℤ) : ℤ → List Char → ℕ → Option (ℤ × Cursor)
  | w, [], nread => some (w, ⟨[], nread⟩)
  | w, c :: text, nread =>
    match digitValue c with
    | none => some (w, ⟨c :: text, nread⟩)
    | some v => do
      let w ← fits (w * base + v)
      let cur ← Cursor.store ⟨c :: text, nread⟩
      fieldLoop base fits w text cur.nread

/-- A number from the last character on. -/
def readField (base : ℕ) (fits : ℤ → Option ℤ) (cur : Cursor) : Option (ℤ × Cursor) :=
  fieldLoop base fits 0 cur.text cur.nread

/-- The arithmetic of `uint64_t`. -/
def toUInt64 (z : ℤ) : Option ℤ := some (z % 2 ^ 64)

/-- The sign of `a`. -/
def readSign (cur : Cursor) : Option (ℤ × Cursor) :=
  if cur.c = some '-' then cur.store.map fun cur => (-1, cur) else some (1, cur)

/-- `a`. -/
def readA (cur : Cursor) : Option (ℤ × Cursor) := do
  let (s, cur) ← readSign cur
  let (w, cur) ← readField 10 toInt64 cur
  let a ← toInt64 (w * s)
  return (a, cur)

/-- The characters up to the end of the line. -/
def skipLoop : List Char → ℕ → Option Cursor
  | [], nread => some ⟨[], nread⟩
  | c :: text, nread =>
    if c = '\n' then some ⟨c :: text, nread⟩
    else do
      let cur ← Cursor.store ⟨c :: text, nread⟩
      skipLoop text cur.nread

/-- From `another_line` past the comments: `lnum` and the first character of the line. -/
def anotherLine : ℕ → ℕ → List Char → Option (ℕ × Option Cursor)
  | 0, _, _ => none
  | fuel + 1, lnum, source =>
    let lnum := (lnum + 1) % 2 ^ 64
    match source with
    | [] => some (lnum, none)
    | c :: text =>
      if c = '#' then do
        let cur ← skipLoop (c :: text) 1
        anotherLine fuel lnum cur.text.tail
      else some (lnum, some ⟨c :: text, 1⟩)

/-- `purgedfile_stream_provision_for_primes`. -/
def provisionForPrimes (ps : PurgedfileStream) (nc : ℤ) : Option PurgedfileStream :=
  if 0 < nc ∧ ps.ncAlloc < nc then
    (toInt32 (nc + nc / 2)).map fun ncAlloc => { ps with ncAlloc := ncAlloc.toNat }
  else some ps

/-- The space after a number. -/
def readSpace (cur : Cursor) : Option Cursor := do
  assertAlways (cur.c = some ' ')
  cur.store

/-- The columns from index `i` on. -/
def readCols (ncAlloc : ℕ) : ℕ → ℕ → (ℕ → ℤ) → Cursor → Option ((ℕ → ℤ) × Cursor)
  | 0, _, cols, cur => some (cols, cur)
  | n + 1, i, cols, cur => do
    let cur ← readSpace cur
    if ncAlloc ≤ i then none
    else do
      let (w, cur) ← readField 16 toInt32 cur
      readCols ncAlloc n (i + 1) (Function.update cols i w) cur

/-- The index, `a` and `b`. -/
def readRelation (ps : PurgedfileStream) (cur : Cursor) : Option (PurgedfileStream × Cursor) := do
  let (nodupIndex, cur) ← readField 10 toInt32 cur
  let cur ← readSpace cur
  let (a, cur) ← readA cur
  let cur ← readSpace cur
  let (b, cur) ← readField 10 toUInt64 cur
  let cur ← readSpace cur
  return ({ ps with nodupIndex := nodupIndex, a := a, b := b }, cur)

/-- The number of columns and the columns. -/
def readColumns (ps : PurgedfileStream) (cur : Cursor) : Option (PurgedfileStream × Cursor) :=
  if ps.parseOnlyAb then some (ps, cur)
  else do
    let (nc, cur) ← readField 10 toInt32 cur
    let ps ← provisionForPrimes { ps with nc := nc } nc
    let (cols, cur) ← readCols ps.ncAlloc nc.toNat 0 ps.cols cur
    assertAlways (cur.c = some '\n')
    return ({ ps with cols := cols }, cur)

/-- `purgedfile_stream_get` from the first character of the line on. -/
def readLine (ps : PurgedfileStream) (cur : Cursor) : Option (PurgedfileStream × ℤ) := do
  let (ps, cur) ← readRelation ps cur
  let (ps, cur) ← readColumns ps cur
  let cur ← skipLoop cur.text cur.nread
  if 2 ^ 31 ≤ ps.rrows + 1 then none
  else some ({ ps with
    source := cur.text.tail
    pos := (ps.pos + cur.nread) % 2 ^ 64
    rrows := ps.rrows + 1 }, cur.nread)

/-- `purgedfile_stream_get` without a copy of the line. -/
def purgedfileStreamGet (ps : PurgedfileStream) : Option (PurgedfileStream × ℤ) := do
  let (lnum, first) ← anotherLine (ps.source.length + 1) ps.lnum ps.source
  match first with
  | none => some ({ ps with source := [], lnum := lnum }, -1)
  | some cur => readLine { ps with lnum := lnum } cur

/-! ## A number -/

section Field

variable {base n nread : ℕ} {fits : ℤ → Option ℤ} {text : List Char} {c : Char}

section

variable (hb : 1 < base) (hb16 : base ≤ 16) (hfits : ∀ m : ℕ, m ≤ n → fits m = some (m : ℤ))
include hb hb16 hfits

theorem fieldLoop_toDigits (hroom : nread + (toDigits base n).length < 2 ^ 31) :
    fieldLoop base fits 0 (toDigits base n ++ text) nread
      = fieldLoop base fits n text (nread + (toDigits base n).length) := by
  induction n using Nat.strong_induction_on generalizing text with
  | h n ih =>
    rw [Nat.toDigits_eq_if hb] at hroom ⊢
    split_ifs at hroom ⊢ with hlt
    · rw [List.length_singleton] at hroom
      simp only [List.singleton_append, fieldLoop, digitValue_digitChar (hlt.trans_le hb16),
        zero_mul, zero_add, hfits n le_rfl, Cursor.store, hroom, if_true, bind_eq_bind,
        bind_some, List.length_singleton]
    · have hdiv : n / base < n := Nat.div_lt_self (by omega) hb
      have hmod : n % base < 16 := (Nat.mod_lt n (by omega)).trans_le hb16
      have hvalue : ((n / base : ℕ) : ℤ) * base + (n % base : ℕ) = n := by
        exact_mod_cast Nat.div_add_mod' n base
      rw [length_append, List.length_singleton] at hroom ⊢
      rw [append_assoc, ih (n / base) hdiv (fun m hm => hfits m (by omega)) (by omega),
        List.singleton_append]
      simp only [fieldLoop, digitValue_digitChar hmod, hvalue, hfits n le_rfl, Cursor.store,
        add_assoc, hroom, if_true, bind_eq_bind, bind_some]

theorem readField_number (hc : digitValue c = none)
    (hroom : nread + (toDigits base n).length < 2 ^ 31) :
    readField base fits ⟨toDigits base n ++ c :: text, nread⟩
      = some ((n : ℤ), ⟨c :: text, nread + (toDigits base n).length⟩) := by
  rw [readField, fieldLoop_toDigits hb hb16 hfits hroom, fieldLoop, hc]

end

theorem readSpace_space (hroom : nread + 1 < 2 ^ 31) :
    readSpace ⟨' ' :: text, nread⟩ = some ⟨text, nread + 1⟩ := by
  rw [readSpace, assertAlways_of_true (Cursor.c_cons _ _ _), bind_eq_bind,
    bind_some, Cursor.store, if_pos hroom]
  rfl

theorem toInt32_natCast (hn : n < 2 ^ 31) (m : ℕ) (hm : m ≤ n) : toInt32 m = some (m : ℤ) :=
  toInt32_of (by omega) (by omega)

theorem toInt64_natCast (hn : n < 2 ^ 63) (m : ℕ) (hm : m ≤ n) : toInt64 m = some (m : ℤ) :=
  toInt64_of ⟨by omega, by omega⟩

theorem toUInt64_natCast (hn : n < 2 ^ 64) (m : ℕ) (hm : m ≤ n) : toUInt64 m = some (m : ℤ) := by
  rw [toUInt64, Int.emod_eq_of_lt (by omega) (by omega)]

end Field

/-! ## A line -/

section Line

variable {irel b nread i : ℕ} {a : ℤ} {cols : List ℕ} {text : List Char} {ps : PurgedfileStream}

/-- A printed `a` is read back. -/
theorem readA_printInt (ha : a.natAbs < 2 ^ 63) (hroom : nread + (printInt a).length < 2 ^ 31) :
    readA ⟨printInt a ++ ' ' :: text, nread⟩
      = some (a, ⟨' ' :: text, nread + (printInt a).length⟩) := by
  have hspace : digitValue ' ' = none := by decide
  rw [printInt] at hroom ⊢
  split_ifs at hroom ⊢ with hneg
  · rw [length_cons] at hroom ⊢
    have hsign : readSign ⟨'-' :: (toDigits 10 a.natAbs ++ ' ' :: text), nread⟩
        = some (-1, ⟨toDigits 10 a.natAbs ++ ' ' :: text, nread + 1⟩) := by
      rw [readSign, if_pos (Cursor.c_cons _ _ _), Cursor.store, if_pos (by simp only; omega)]
      rfl
    rw [cons_append]
    simp only [readA, hsign, bind_eq_bind, bind_some]
    rw [readField_number (by decide) (by decide) (toInt64_natCast ha) hspace (by omega), bind_some]
    simp only
    rw [show (a.natAbs : ℤ) * -1 = a by omega, toInt64_of ⟨by omega, by omega⟩, bind_some]
    simp only [pure_def, Option.some.injEq, Prod.mk.injEq, Cursor.mk.injEq, true_and]
    omega
  · have hsign : readSign ⟨toDigits 10 a.natAbs ++ ' ' :: text, nread⟩
        = some (1, ⟨toDigits 10 a.natAbs ++ ' ' :: text, nread⟩) := by
      refine if_neg ?_
      cases hdigits : toDigits 10 a.natAbs with
      | nil => exact absurd hdigits Nat.toDigits_ne_nil
      | cons c digits =>
        obtain ⟨d, hd, rfl⟩ := mem_toDigits (by decide : 1 < 10)
          (show c ∈ toDigits 10 a.natAbs by rw [hdigits]; exact List.mem_cons_self)
        have hminus : ∀ d < 10, Nat.digitChar d ≠ '-' := by decide
        simp [hminus d hd]
    simp only [readA, hsign, bind_eq_bind, bind_some]
    rw [readField_number (by decide) (by decide) (toInt64_natCast ha) hspace (by omega), bind_some]
    simp only
    rw [show (a.natAbs : ℤ) * 1 = a by omega, toInt64_of ⟨by omega, by omega⟩, bind_some]
    rfl

theorem readRelation_line (hirel : irel < 2 ^ 31) (ha : a.natAbs < 2 ^ 63) (hb : b < 2 ^ 64)
    (hroom : nread + (toDigits 10 irel).length + (printInt a).length
      + (toDigits 10 b).length + 3 < 2 ^ 31) :
    readRelation ps ⟨toDigits 10 irel ++ ' ' :: (printInt a ++ ' ' ::
        (toDigits 10 b ++ ' ' :: text)), nread⟩
      = some ({ ps with nodupIndex := irel, a := a, b := b },
        ⟨text, nread + (toDigits 10 irel).length + (printInt a).length
          + (toDigits 10 b).length + 3⟩) := by
  have hspace : digitValue ' ' = none := by decide
  simp only [readRelation, bind_eq_bind]
  rw [readField_number (by decide) (by decide) (toInt32_natCast hirel) hspace (by omega), bind_some]
  simp only
  rw [readSpace_space (by omega), bind_some, readA_printInt ha (by omega), bind_some]
  simp only
  rw [readSpace_space (by omega), bind_some,
    readField_number (by decide) (by decide) (toUInt64_natCast hb) hspace (by omega), bind_some]
  simp only
  rw [readSpace_space (by omega), bind_some]
  simp only [pure_def, Option.some.injEq, Prod.mk.injEq, Cursor.mk.injEq, true_and]
  omega

/-- The columns of a line. -/
def colsText (cols : List ℕ) : List Char :=
  cols.flatMap fun col => ' ' :: toDigits 16 col

/-- The entries from index `i` on are overwritten. -/
def storeCols (i : ℕ) (old : ℕ → ℤ) : List ℕ → ℕ → ℤ
  | [] => old
  | col :: cols => storeCols (i + 1) (Function.update old i col) cols

theorem storeCols_of_lt (old : ℕ → ℤ) (cols : List ℕ) {k : ℕ} (hk : k < i) :
    storeCols i old cols k = old k := by
  induction cols generalizing i old with
  | nil => rfl
  | cons col cols ih => rw [storeCols, ih _ (by omega), Function.update_of_ne (by omega)]

theorem map_storeCols (old : ℕ → ℤ) (cols : List ℕ) :
    (List.range' i cols.length).map (storeCols i old cols) = cols.map Nat.cast := by
  induction cols generalizing i old with
  | nil => rfl
  | cons col cols ih =>
    rw [length_cons, List.range'_succ, map_cons, map_cons, storeCols, ih,
      storeCols_of_lt _ _ (by omega), Function.update_self]

theorem colsText_append (cols : List ℕ) (text : List Char) :
    ∃ c rest, colsText cols ++ '\n' :: text = c :: rest ∧ digitValue c = none := by
  cases cols with
  | nil => exact ⟨'\n', text, rfl, by decide⟩
  | cons col cols => exact ⟨' ', _, rfl, by decide⟩

theorem readCols_line {ncAlloc : ℕ} {old : ℕ → ℤ} (hcols : ∀ col ∈ cols, col < 2 ^ 31)
    (hroom : nread + (colsText cols).length < 2 ^ 31) (halloc : i + cols.length ≤ ncAlloc) :
    readCols ncAlloc cols.length i old ⟨colsText cols ++ '\n' :: text, nread⟩
      = some (storeCols i old cols, ⟨'\n' :: text, nread + (colsText cols).length⟩) := by
  induction cols generalizing i old nread with
  | nil => rfl
  | cons col cols ih =>
    obtain ⟨hcol, hcols⟩ := forall_mem_cons.mp hcols
    have htext : colsText (col :: cols) = ' ' :: (toDigits 16 col ++ colsText cols) := rfl
    obtain ⟨c, rest, hrest, hc⟩ := colsText_append cols text
    rw [htext] at hroom ⊢
    rw [length_cons] at halloc
    simp only [length_cons, length_append] at hroom ⊢
    rw [cons_append, append_assoc, readCols]
    simp only [bind_eq_bind]
    rw [readSpace_space (by omega), bind_some, if_neg (by omega), hrest,
      readField_number (by decide) (by decide) (toInt32_natCast hcol) hc (by omega), bind_some]
    simp only
    rw [← hrest, ih hcols (by omega) (by omega), storeCols]
    congr 3
    omega

theorem two_mul_length_le_colsText (cols : List ℕ) : 2 * cols.length ≤ (colsText cols).length := by
  induction cols with
  | nil => rfl
  | cons col cols ih =>
    have hpos := Nat.length_toDigits_pos (b := 16) (n := col)
    have htext : colsText (col :: cols) = ' ' :: (toDigits 16 col ++ colsText cols) := rfl
    simp only [htext, length_cons, length_append]
    omega

theorem provisionForPrimes_spec (ps : PurgedfileStream) {k : ℕ} (hk : k ≤ 2 ^ 30) :
    ∃ ncAlloc, provisionForPrimes ps k = some { ps with ncAlloc := ncAlloc } ∧ k ≤ ncAlloc ∧
      ps.ncAlloc ≤ ncAlloc := by
  rw [provisionForPrimes]
  split_ifs with hmore
  · rw [toInt32_of (by omega) (by omega)]
    exact ⟨_, rfl, by omega, by omega⟩
  · exact ⟨ps.ncAlloc, rfl, by omega, le_rfl⟩

variable (nread text ps) in
theorem readColumns_line (hab : ps.parseOnlyAb = false) (hcols : ∀ col ∈ cols, col < 2 ^ 31)
    (hroom : nread + (toDigits 10 cols.length).length + (colsText cols).length < 2 ^ 31) :
    ∃ ncAlloc, cols.length ≤ ncAlloc ∧ ps.ncAlloc ≤ ncAlloc ∧
      readColumns ps ⟨toDigits 10 cols.length ++ (colsText cols ++ '\n' :: text), nread⟩
        = some ({ ps with
            nc := cols.length
            ncAlloc := ncAlloc
            cols := storeCols 0 ps.cols cols }, ⟨'\n' :: text,
            nread + (toDigits 10 cols.length).length + (colsText cols).length⟩) := by
  have hlength := two_mul_length_le_colsText cols
  obtain ⟨c, rest, hrest, hc⟩ := colsText_append cols text
  obtain ⟨ncAlloc, hprovision, hle, hgrow⟩ :=
    provisionForPrimes_spec { ps with nc := cols.length } (k := cols.length) (by omega)
  refine ⟨ncAlloc, hle, hgrow, ?_⟩
  rw [readColumns, if_neg (by simp [hab])]
  simp only [bind_eq_bind]
  rw [hrest, readField_number (by decide) (by decide)
    (toInt32_natCast (show cols.length < 2 ^ 31 by omega)) hc (by omega), bind_some]
  simp only
  rw [hprovision, bind_some, ← hrest]
  simp only [Int.toNat_natCast]
  rw [readCols_line hcols (by omega) (by omega), bind_some]
  simp only
  rw [assertAlways_of_true (Cursor.c_cons _ _ _), bind_some]
  rfl

end Line

/-! ## What is read is counted -/

/-- The characters between two positions are counted, and their number fits. -/
structure Cursor.Advances (cur cur' : Cursor) : Prop where
  le : cur.text.length + cur.nread ≤ cur'.text.length + cur'.nread
  lt : cur.nread < 2 ^ 31 → cur'.nread < 2 ^ 31

section Advances

variable {cur cur' cur'' : Cursor} {base : ℕ} {fits : ℤ → Option ℤ} {w s : ℤ}
  {ps ps' : PurgedfileStream}

theorem Cursor.Advances.refl (cur : Cursor) : cur.Advances cur := ⟨le_rfl, id⟩

theorem Cursor.Advances.trans (h : cur.Advances cur') (h' : cur'.Advances cur'') :
    cur.Advances cur'' :=
  ⟨h.le.trans h'.le, fun hlt => h'.lt (h.lt hlt)⟩

theorem store_cons {c : Char} {text : List Char} {nread : ℕ}
    (h : Cursor.store ⟨c :: text, nread⟩ = some cur') : cur' = ⟨text, nread + 1⟩ := by
  rw [Cursor.store] at h
  split_ifs at h
  exact (Option.some.inj h).symm

theorem store_advances (h : cur.store = some cur') : cur.Advances cur' := by
  rw [Cursor.store] at h
  split_ifs at h with hlt
  obtain rfl := Option.some.inj h
  refine ⟨?_, fun _ => hlt⟩
  simp only [List.length_tail]
  omega

theorem readSpace_advances (h : readSpace cur = some cur') : cur.Advances cur' := by
  obtain ⟨-, -, h⟩ := bind_eq_some_iff.mp h
  exact store_advances h

theorem readField_advances (h : readField base fits cur = some (w, cur')) : cur.Advances cur' := by
  have hloop : ∀ (text : List Char) (w₀ : ℤ) (nread : ℕ),
      fieldLoop base fits w₀ text nread = some (w, cur') →
        Cursor.Advances ⟨text, nread⟩ cur' := by
    intro text
    induction text with
    | nil =>
      intro w₀ nread h
      rw [fieldLoop, Option.some.injEq, Prod.mk.injEq] at h
      rw [← h.2]
      exact Cursor.Advances.refl _
    | cons c text ih =>
      intro w₀ nread h
      rw [fieldLoop] at h
      cases hc : digitValue c with
      | none =>
        rw [hc, Option.some.injEq, Prod.mk.injEq] at h
        rw [← h.2]
        exact Cursor.Advances.refl _
      | some v =>
        rw [hc] at h
        obtain ⟨w₁, -, h⟩ := bind_eq_some_iff.mp h
        obtain ⟨cur₁, hstore, h⟩ := bind_eq_some_iff.mp h
        obtain rfl := store_cons hstore
        exact (store_advances hstore).trans (ih _ _ h)
  exact hloop cur.text 0 cur.nread h

theorem readA_advances (h : readA cur = some (w, cur')) : cur.Advances cur' := by
  obtain ⟨⟨s, cur₁⟩, hsign, h⟩ := bind_eq_some_iff.mp h
  obtain ⟨⟨w₁, cur₂⟩, hfield, h⟩ := bind_eq_some_iff.mp h
  obtain ⟨a, -, h⟩ := bind_eq_some_iff.mp h
  obtain ⟨-, rfl⟩ := Prod.mk.inj (Option.some.inj h)
  refine Cursor.Advances.trans ?_ (readField_advances hfield)
  rw [readSign] at hsign
  split_ifs at hsign
  · obtain ⟨cur₃, hstore, hpair⟩ := Option.map_eq_some_iff.mp hsign
    obtain ⟨-, rfl⟩ := Prod.mk.inj hpair
    exact store_advances hstore
  · obtain ⟨-, rfl⟩ := Prod.mk.inj (Option.some.inj hsign)
    exact Cursor.Advances.refl _

theorem readCols_advances {ncAlloc n i : ℕ} {cols cols' : ℕ → ℤ}
    (h : readCols ncAlloc n i cols cur = some (cols', cur')) : cur.Advances cur' := by
  induction n generalizing i cols cur with
  | zero =>
    obtain ⟨-, rfl⟩ := Prod.mk.inj (Option.some.inj h)
    exact Cursor.Advances.refl _
  | succ n ih =>
    rw [readCols] at h
    obtain ⟨cur₁, hspace, h⟩ := bind_eq_some_iff.mp h
    split_ifs at h
    obtain ⟨⟨w, cur₂⟩, hfield, h⟩ := bind_eq_some_iff.mp h
    exact (readSpace_advances hspace).trans ((readField_advances hfield).trans (ih h))

theorem readRelation_advances (h : readRelation ps cur = some (ps', cur')) :
    cur.Advances cur' ∧ ps'.rrows = ps.rrows := by
  obtain ⟨⟨index, cur₁⟩, hindex, h⟩ := bind_eq_some_iff.mp h
  obtain ⟨cur₂, hspace₁, h⟩ := bind_eq_some_iff.mp h
  obtain ⟨⟨a, cur₃⟩, ha, h⟩ := bind_eq_some_iff.mp h
  obtain ⟨cur₄, hspace₂, h⟩ := bind_eq_some_iff.mp h
  obtain ⟨⟨b, cur₅⟩, hb, h⟩ := bind_eq_some_iff.mp h
  obtain ⟨cur₆, hspace₃, h⟩ := bind_eq_some_iff.mp h
  obtain ⟨rfl, rfl⟩ := Prod.mk.inj (Option.some.inj h)
  exact ⟨(readField_advances hindex).trans ((readSpace_advances hspace₁).trans
    ((readA_advances ha).trans ((readSpace_advances hspace₂).trans
      ((readField_advances hb).trans (readSpace_advances hspace₃))))), rfl⟩

theorem provisionForPrimes_rrows {nc : ℤ} (h : provisionForPrimes ps nc = some ps') :
    ps'.rrows = ps.rrows := by
  rw [provisionForPrimes] at h
  split_ifs at h
  · obtain ⟨n, -, rfl⟩ := Option.map_eq_some_iff.mp h
    rfl
  · rw [Option.some.inj h]

theorem readColumns_advances (h : readColumns ps cur = some (ps', cur')) :
    cur.Advances cur' ∧ ps'.rrows = ps.rrows := by
  rw [readColumns] at h
  split_ifs at h
  · obtain ⟨rfl, rfl⟩ := Prod.mk.inj (Option.some.inj h)
    exact ⟨Cursor.Advances.refl _, rfl⟩
  · obtain ⟨⟨nc, cur₁⟩, hnc, h⟩ := bind_eq_some_iff.mp h
    obtain ⟨ps₁, hprovision, h⟩ := bind_eq_some_iff.mp h
    obtain ⟨⟨cols, cur₂⟩, hcols, h⟩ := bind_eq_some_iff.mp h
    obtain ⟨-, -, h⟩ := bind_eq_some_iff.mp h
    obtain ⟨rfl, rfl⟩ := Prod.mk.inj (Option.some.inj h)
    have hrrows := provisionForPrimes_rrows hprovision
    exact ⟨(readField_advances hnc).trans (readCols_advances hcols), hrrows⟩

theorem skipLoop_advances {text : List Char} {nread : ℕ} (h : skipLoop text nread = some cur') :
    Cursor.Advances ⟨text, nread⟩ cur' := by
  induction text generalizing nread with
  | nil =>
    obtain rfl := Option.some.inj h
    exact Cursor.Advances.refl _
  | cons c text ih =>
    rw [skipLoop] at h
    split_ifs at h
    · obtain rfl := Option.some.inj h
      exact Cursor.Advances.refl _
    · obtain ⟨cur₁, hstore, h⟩ := bind_eq_some_iff.mp h
      obtain rfl := store_cons hstore
      exact (store_advances hstore).trans (ih h)

theorem readLine_counts {text : List Char} {nread : ℤ}
    (h : readLine ps ⟨text, 1⟩ = some (ps', nread)) :
    text.length < ps'.source.length + 2 ^ 31 ∧ ps'.rrows = ps.rrows + 1 ∧ ps'.rrows < 2 ^ 31 := by
  obtain ⟨⟨ps₁, cur₁⟩, hrelation, h⟩ := bind_eq_some_iff.mp h
  obtain ⟨⟨ps₂, cur₂⟩, hcolumns, h⟩ := bind_eq_some_iff.mp h
  obtain ⟨cur₃, hskip, h⟩ := bind_eq_some_iff.mp h
  obtain ⟨hadvances₁, hrrows₁⟩ := readRelation_advances hrelation
  obtain ⟨hadvances₂, hrrows₂⟩ := readColumns_advances hcolumns
  have hadvances := hadvances₁.trans (hadvances₂.trans (skipLoop_advances hskip))
  have hle := hadvances.le
  have hlt := hadvances.lt (by simp)
  simp only at hle h
  split_ifs at h with hrows
  obtain ⟨rfl, -⟩ := Prod.mk.inj (Option.some.inj h)
  simp only [List.length_tail]
  refine ⟨?_, ?_, ?_⟩ <;> omega

end Advances

/-! ## The lines of a file -/

/-- A relation of the purged file. -/
structure PurgedRow where
  irel : ℕ
  a : ℤ
  b : ℕ
  cols : List ℕ

/-- The numbers of a relation fit their types. -/
structure PurgedRow.Valid (row : PurgedRow) : Prop where
  irel_lt : row.irel < 2 ^ 31
  a_lt : |row.a| < 2 ^ 63
  b_lt : row.b < 2 ^ 64
  cols_lt : ∀ col ∈ row.cols, col < 2 ^ 31 - 1

/-- The line of a relation: the indices are one more than the columns. -/
def PurgedRow.line (row : PurgedRow) : List Char :=
  fprintRelRowLine row.irel row.a row.b (row.cols.map (· + 1))

/-- The stream has the relation that was read, and room for its columns. -/
structure PurgedfileStream.Holds (ps : PurgedfileStream) (row : PurgedRow) : Prop where
  nodupIndex_eq : ps.nodupIndex = row.irel
  a_eq : ps.a = row.a
  b_eq : ps.b = row.b
  nc_eq : ps.nc = row.cols.length
  cols_eq : (range row.cols.length).map ps.cols = row.cols.map Nat.cast
  le_ncAlloc : row.cols.length ≤ ps.ncAlloc

/-- `purgedfile_stream_get` reads the relations `rows`, one line after the other, and
leaves `text`. -/
def ReadsRows (text : List Char) : List PurgedRow → PurgedfileStream → Prop
  | [], ps => ps.source = text
  | row :: rows, ps => ∃ ps', purgedfileStreamGet ps = some (ps', (row.line.length : ℤ)) ∧
      ps'.source = rows.flatMap PurgedRow.line ++ text ∧ ps'.Holds row ∧
      ps.ncAlloc ≤ ps'.ncAlloc ∧ ReadsRows text rows ps'

section Rows

variable {row : PurgedRow} {rows : List PurgedRow} {text : List Char} {ps ps' : PurgedfileStream}

theorem PurgedRow.line_eq (row : PurgedRow) :
    row.line = toDigits 10 row.irel ++ ' ' :: (printInt row.a ++ ' ' ::
      (toDigits 10 row.b ++ ' ' :: (toDigits 10 row.cols.length ++
        (colsText row.cols ++ ['\n'])))) := by
  rw [PurgedRow.line, fprintRelRowLine, List.length_map, List.flatMap_map]
  rfl

theorem anotherLine_line (row : PurgedRow) (text : List Char) (fuel lnum : ℕ) :
    anotherLine (fuel + 1) lnum (row.line ++ text)
      = some ((lnum + 1) % 2 ^ 64, some ⟨row.line ++ text, 1⟩) := by
  cases hdigits : toDigits 10 row.irel with
  | nil => exact absurd hdigits Nat.toDigits_ne_nil
  | cons c digits =>
    obtain ⟨d, hd, rfl⟩ := mem_toDigits (by decide : 1 < 10)
      (show c ∈ toDigits 10 row.irel by rw [hdigits]; exact List.mem_cons_self)
    have hhash : ∀ d < 10, Nat.digitChar d ≠ '#' := by decide
    rw [row.line_eq, hdigits]
    simp [anotherLine, hhash d hd]

section

variable (hrow : row.Valid) (hline : row.line.length < 2 ^ 31) (hrrows : ps.rrows + 1 < 2 ^ 31)
  (hab : ps.parseOnlyAb = false)
include hrow hline hrrows hab

/-- A written row is read back. -/
theorem readLine_line :
    ∃ ps', readLine ps ⟨row.line ++ text, 1⟩ = some (ps', (row.line.length : ℤ)) ∧
      ps'.source = text ∧ ps'.Holds row ∧ ps.ncAlloc ≤ ps'.ncAlloc ∧ ps'.rrows = ps.rrows + 1 ∧
      ps'.parseOnlyAb = false := by
  have habs : row.a.natAbs < 2 ^ 63 := by
    have ha := abs_lt.mp hrow.a_lt
    omega
  have hcols : ∀ col ∈ row.cols, col < 2 ^ 31 := fun col hcol => by
    have hlt := hrow.cols_lt col hcol
    omega
  have htext : row.line ++ text = toDigits 10 row.irel ++ ' ' :: (printInt row.a ++ ' ' ::
      (toDigits 10 row.b ++ ' ' :: (toDigits 10 row.cols.length ++
        (colsText row.cols ++ '\n' :: text)))) := by
    rw [row.line_eq]
    simp
  have hlength : row.line.length = 1 + (toDigits 10 row.irel).length + (printInt row.a).length
      + (toDigits 10 row.b).length + 3 + (toDigits 10 row.cols.length).length
      + (colsText row.cols).length := by
    rw [row.line_eq]
    simp only [length_append, length_cons, List.length_nil]
    omega
  rw [htext, readLine, readRelation_line hrow.irel_lt habs hrow.b_lt (by omega),
    bind_eq_bind, bind_some]
  simp only
  obtain ⟨ncAlloc, hle, hgrow, hcolumns⟩ := readColumns_line
    (1 + (toDigits 10 row.irel).length + (printInt row.a).length
      + (toDigits 10 row.b).length + 3) text
    { ps with nodupIndex := row.irel, a := row.a, b := row.b } hab hcols (by omega)
  rw [hcolumns, bind_eq_bind, bind_some]
  simp only
  rw [skipLoop, if_pos rfl, bind_some, if_neg (by omega), ← hlength]
  refine ⟨_, rfl, rfl, ⟨rfl, rfl, rfl, rfl, ?_, hle⟩, hgrow, rfl, hab⟩
  rw [List.range_eq_range']
  exact map_storeCols ps.cols row.cols

/-- A line is read back. -/
theorem purgedfileStreamGet_line (hsource : ps.source = row.line ++ text) :
    ∃ ps', purgedfileStreamGet ps = some (ps', (row.line.length : ℤ)) ∧ ps'.source = text ∧
      ps'.Holds row ∧ ps.ncAlloc ≤ ps'.ncAlloc ∧ ps'.rrows = ps.rrows + 1 ∧
      ps'.parseOnlyAb = false := by
  rw [purgedfileStreamGet, hsource, anotherLine_line, bind_eq_bind, bind_some]
  exact readLine_line hrow hline hrrows hab

end

theorem readsRows_lines (hrows : ∀ row ∈ rows, row.Valid)
    (hlines : ∀ row ∈ rows, row.line.length < 2 ^ 31) (hrrows : ps.rrows + rows.length < 2 ^ 31)
    (hab : ps.parseOnlyAb = false) (hsource : ps.source = rows.flatMap PurgedRow.line ++ text) :
    ReadsRows text rows ps := by
  induction rows generalizing ps with
  | nil => exact hsource
  | cons row rows ih =>
    obtain ⟨hrow, hrows⟩ := forall_mem_cons.mp hrows
    obtain ⟨hline, hlines⟩ := forall_mem_cons.mp hlines
    rw [length_cons] at hrrows
    rw [List.flatMap_cons, append_assoc] at hsource
    obtain ⟨ps', hget, hsource', hholds, hgrow, hrrows', hab'⟩ :=
      purgedfileStreamGet_line hrow hline (by omega) hab hsource
    exact ⟨ps', hget, hsource', hholds, hgrow, ih hrows hlines (by omega) hab' hsource'⟩

theorem lines_lt_of_readsRows (hsource : ps.source = rows.flatMap PurgedRow.line ++ text)
    (h : ReadsRows text rows ps) :
    (∀ row ∈ rows, row.line.length < 2 ^ 31) ∧ (rows ≠ [] → ps.rrows + rows.length < 2 ^ 31) := by
  induction rows generalizing ps with
  | nil => simp
  | cons row rows ih =>
    obtain ⟨ps', hget, hsource', -, -, hrest⟩ := h
    rw [List.flatMap_cons, append_assoc] at hsource
    rw [purgedfileStreamGet, hsource, anotherLine_line, bind_eq_bind, bind_some] at hget
    obtain ⟨hlength, hrrows, hlt⟩ := readLine_counts hget
    obtain ⟨hlines, hrows⟩ := ih hsource' hrest
    rw [hsource', length_append] at hlength
    refine ⟨forall_mem_cons.mpr ⟨by omega, hlines⟩, fun _ => ?_⟩
    rw [length_cons]
    simp only at hrrows
    by_cases hempty : rows = []
    · rw [hempty, List.length_nil]
      omega
    · have hcount := hrows hempty
      omega

/-- The lines of a file are read back exactly if no line has `2 ^ 31` characters and fewer
than `2 ^ 31` lines are read in all. -/
theorem readsRows_iff (hrows : ∀ row ∈ rows, row.Valid) (hab : ps.parseOnlyAb = false)
    (hsource : ps.source = rows.flatMap PurgedRow.line ++ text) :
    ReadsRows text rows ps ↔ (∀ row ∈ rows, row.line.length < 2 ^ 31) ∧
      (rows ≠ [] → ps.rrows + rows.length < 2 ^ 31) := by
  refine ⟨lines_lt_of_readsRows hsource, fun ⟨hlines, hrrows⟩ => ?_⟩
  by_cases hempty : rows = []
  · subst hempty
    exact hsource
  · exact readsRows_lines hrows hlines (hrrows hempty) hab hsource

end Rows

/-- A stream before the first line. -/
def openStream (source : List Char) : PurgedfileStream where
  source := source
  nodupIndex := 0
  a := 0
  b := 0
  nc := 0
  cols := fun _ => 0
  ncAlloc := 0
  parseOnlyAb := false
  pos := 0
  rrows := 0
  lnum := 0

/-- Two relations, the second without columns. -/
def twoRows : List PurgedRow := [⟨0, -5, 3, [0, 255]⟩, ⟨1, 7, 2, []⟩]

/-- The lines of two relations. -/
theorem readsRows_twoRows :
    ReadsRows [] twoRows (openStream (twoRows.flatMap PurgedRow.line ++ [])) ↔
      (∀ row ∈ twoRows, row.line.length < 2 ^ 31) ∧
        (twoRows ≠ [] → (openStream (twoRows.flatMap PurgedRow.line ++ [])).rrows
          + twoRows.length < 2 ^ 31) :=
  readsRows_iff (forall_mem_cons.mpr ⟨⟨by decide, by decide, by decide, by decide⟩,
    List.forall_mem_singleton.mpr ⟨by decide, by decide, by decide, by decide⟩⟩) rfl rfl

theorem le_length_line {n : ℕ} (hn : 2 ^ 30 ≤ n) :
    2 ^ 31 ≤ (PurgedRow.line ⟨0, 1, 1, range n⟩).length := by
  have hlength := two_mul_length_le_colsText (range n)
  rw [List.length_range] at hlength
  rw [PurgedRow.line_eq]
  simp only [length_append, length_cons]
  omega

/-- The line of a relation with `2 ^ 30` columns is not read back. -/
theorem not_readsRows :
    ¬ ∀ (rows : List PurgedRow) (text : List Char) (ps : PurgedfileStream),
      (∀ row ∈ rows, row.Valid) → ps.parseOnlyAb = false →
      ps.source = rows.flatMap PurgedRow.line ++ text → ReadsRows text rows ps := by
  intro h
  have hno : ∀ n, 2 ^ 30 ≤ n → n < 2 ^ 31 - 1 → False := by
    intro n hn hlt
    have hvalid : ∀ row ∈ [(⟨0, 1, 1, range n⟩ : PurgedRow)], row.Valid := by
      refine List.forall_mem_singleton.mpr ⟨by simp, by norm_num, by simp, fun col hcol => ?_⟩
      have hcol := List.mem_range.mp hcol
      omega
    have hreads := h [⟨0, 1, 1, range n⟩] []
      (openStream ([(⟨0, 1, 1, range n⟩ : PurgedRow)].flatMap PurgedRow.line ++ [])) hvalid
      rfl rfl
    have hline := (lines_lt_of_readsRows rfl hreads).1 _ (List.mem_singleton_self _)
    have hle := le_length_line hn
    omega
  exact hno (2 ^ 30) le_rfl (by decide)

end CadoNfs
