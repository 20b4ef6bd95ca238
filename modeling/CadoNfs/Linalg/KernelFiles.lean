import CadoNfs.Linalg.CharacterMatrix

/-!
# Kernel files, and the count of the dependencies

The program `characters` reads its kernel vectors from several files into one block
matrix, and in the end counts the dependencies that are not zero.

Main results:

- Theorem `readFromFlatFile_spec`: what the matrix holds after a file was read.
- Theorem `readKernelFiles_join_iff`: when the matrix is the join of all files.
- Theorem `nonzeroDeps_eq`: the columns that are counted.
- Theorem `sanityCounts_iff`: when these are all the columns that are not zero.
-/

namespace CadoNfs.Characters

open ForRange Gf2 BlockMatrix Finset

/-! ## Code -/

/-- A kernel file: the number of columns that its size gives, and its words in turn, as
`u64_convert_from_little_endian` makes them of what `fread` reads. -/
structure KernelFile where
  ncols : ℕ
  words : List (BitVec 64)

/-- The words of a matrix, and the rest of the file. -/
structure FlatRead where
  mat : Words
  rest : List (BitVec 64)

/-- A word is read, and stored at row `r` and column `g` of the file;
`none` is a failed `fread`. -/
def readFlatWord (k : BlockMatrix) (i0 j0 r g : ℕ) (s : FlatRead) : Option FlatRead :=
  match s.rest with
  | [] => none
  | v :: rest =>
    some ⟨Function.update s.mat (k.block ((i0 + r) / 64) ((j0 + g) / 64) + (i0 + r) % 64) v, rest⟩

/-- `blockmatrix_read_from_flat_file`; `none` is a failed assertion. -/
def readFromFlatFile (k : BlockMatrix) (i0 j0 : ℕ) (file : List (BitVec 64))
    (fnrows fncols : ℕ) : Option BlockMatrix := do
  assertAlways (i0 + fnrows ≤ k.nrows)
  assertAlways (j0 + fncols ≤ k.ncols)
  assertAlways (j0 % 64 = 0)
  assertAlways (fncols % 64 = 0)
  let s ← forRangeM fnrows
    (fun r => forRangeM (fncols / 64) fun g => readFlatWord k i0 j0 r (64 * g))
    ⟨k.setZero.words, file⟩
  some { k with words := s.mat }

/-- The loop of `main` over the kernel files. -/
def readKernelLoop (smallNrows : ℕ) : BlockMatrix → ℕ → List KernelFile → Option BlockMatrix
  | k, _, [] => some k
  | k, j0, file :: files => do
    let k ← readFromFlatFile k 0 j0 file.words smallNrows file.ncols
    readKernelLoop smallNrows k (j0 + file.ncols) files

/-- The columns of some files. -/
def totalKernelCols (files : List KernelFile) : ℕ :=
  (files.map KernelFile.ncols).sum

/-- The matrix `k` of `main` after the loop. -/
def readKernelFiles (mem : Words) (smallNrows : ℕ) (files : List KernelFile) :
    Option BlockMatrix :=
  readKernelLoop smallNrows (alloc mem smallNrows (totalKernelCols files)) 0 files

/-- A read of a matrix with a storage of its own; `none` is one outside of it. -/
def loadWord (m : BlockMatrix) (y : ℕ) : Option (BitVec 64) := do
  assertAlways (64 * m.mb ≤ y ∧ y < 64 * (m.mb + m.nrblocks * m.ncblocks))
  some (m.words y)

/-- The word `sanity` of column block `j`; the rows are `i = 64 * t` and
`ii` after it. -/
def sanityWord (nk : BlockMatrix) (j : ℕ) : Option (BitVec 64) :=
  forRangeM ((nk.nrows + 63) / 64) (fun t sanity =>
    forRangeM (min 64 (nk.nrows - 64 * t)) (fun ii sanity => do
      let w ← loadWord nk (64 * (nk.mb + (j * nk.stride + ii / 64)) + 64 * t)
      some (sanity ||| w)) sanity) 0#64

/-- The loop that adds the bits of `sanity` to `nonzero_deps`. -/
def addOnes (sanity : BitVec 64) (nonzeroDeps : ℕ) : ℕ :=
  if sanity = 0#64 then nonzeroDeps
  else addOnes (sanity >>> 1) (nonzeroDeps + (sanity &&& 1#64).toNat)
termination_by sanity.toNat
decreasing_by
  have hne : sanity.toNat ≠ 0 := fun h => by
    have : ¬sanity = 0#64 := by assumption
    exact this (BitVec.eq_of_toNat_eq h)
  rw [BitVec.toNat_ushiftRight, Nat.shiftRight_eq_div_pow]
  omega

/-- The value of `nonzero_deps` after the loop of `main`, which stops at zero. -/
def nonzeroDeps (nk : BlockMatrix) : Option ℕ :=
  forRangeM nk.ncblocks (fun j deps => do
    let sanity ← sanityWord nk j
    some (addOnes sanity deps)) 0

/-! ## One file -/

/-- A file of `c` words in each of `n` rows. -/
structure KernelFile.HasSize (file : KernelFile) (n c : ℕ) : Prop where
  ncols : file.ncols = 64 * c
  length : file.words.length = n * c

/-- The word of row `r` and column block `g`. -/
def KernelFile.word (file : KernelFile) (c r g : ℕ) : BitVec 64 :=
  file.words.getD (r * c + g) 0#64

variable {k : BlockMatrix} {n N c j0 : ℕ} {file : KernelFile}

/-- The words of a column block at a row. -/
def rowWord (k : BlockMatrix) (r J : ℕ) : BitVec 64 :=
  k.words (k.block (r / 64) J + r % 64)

/-- The state of the loop when `g` words of row `r` were read, where the first of
the `c` column blocks of the file is `J0`. -/
structure FlatRead.Reached (s : FlatRead) (k : BlockMatrix) (file : KernelFile) (n c J0 r g : ℕ) :
    Prop where
  rest : s.rest = file.words.drop (r * c + g)
  mat : ∀ r' < n, ∀ J, s.mat (k.block (r' / 64) J + r' % 64)
    = if J0 ≤ J ∧ J < J0 + c ∧ (r' < r ∨ r' = r ∧ J < J0 + g) then file.word c r' (J - J0)
      else k.setZero.words (k.block (r' / 64) J + r' % 64)

variable {r g J0 : ℕ} {s : FlatRead}

theorem FlatRead.Reached.succ (h : s.Reached k file n c J0 r c) :
    s.Reached k file n c J0 (r + 1) 0 where
  rest := by rw [h.rest, Nat.succ_mul, add_zero]
  mat r' hr' J := by
    rw [h.mat r' hr' J]
    exact if_congr (by omega) rfl rfl

section

variable (hk : Allocated k n N) (hfile : file.HasSize n c) (hj0 : j0 % 64 = 0)
include hk hfile hj0

theorem readFlatWord_spec (hr : r < n) (hg : g < c) (h : s.Reached k file n c (j0 / 64) r g) :
    ∃ s', readFlatWord k 0 j0 r (64 * g) s = some s' ∧
      s'.Reached k file n c (j0 / 64) r (g + 1) := by
  have hlt : r * c + g < file.words.length := by
    rw [hfile.length]
    calc r * c + g < (r + 1) * c := by rw [Nat.succ_mul]; omega
      _ ≤ n * c := Nat.mul_le_mul_right c hr
  have hcons : s.rest = file.word c r g :: file.words.drop (r * c + (g + 1)) := by
    rw [h.rest, List.drop_eq_getElem_cons hlt, KernelFile.word, List.getD_eq_getElem _ _ hlt]
    rfl
  simp only [readFlatWord, hcons]
  refine ⟨_, rfl, rfl, fun r' hr' J => ?_⟩
  rw [zero_add, show (j0 + 64 * g) / 64 = j0 / 64 + g by omega]
  by_cases hat : r' = r ∧ J = j0 / 64 + g
  · obtain ⟨rfl, rfl⟩ := hat
    rw [if_pos (by omega), Nat.add_sub_cancel_left]
    exact Function.update_self _ _ _
  · have hne : k.block (r' / 64) J + r' % 64 ≠ k.block (r / 64) (j0 / 64 + g) + r % 64 :=
      fun heq => hat (hk.row_inj hr' hr heq)
    refine (Function.update_of_ne hne _ _).trans ?_
    rw [h.mat r' hr' J]
    exact if_congr (by omega) rfl rfl

/-- After a file was read its words are in its column blocks, and the other blocks are
zero. -/
theorem readFromFlatFile_spec (hN : j0 + 64 * c ≤ N) :
    ∃ k', readFromFlatFile k 0 j0 file.words n file.ncols = some k' ∧ Allocated k' n N ∧
      ∀ r < n, ∀ J < (N + 63) / 64, rowWord k' r J
        = if j0 / 64 ≤ J ∧ J < j0 / 64 + c then file.word c r (J - j0 / 64) else 0#64 := by
  have hstart : (⟨k.setZero.words, file.words⟩ : FlatRead).Reached k file n c (j0 / 64) 0 0 :=
    ⟨by rw [zero_mul]; rfl, fun r' _ J => (if_neg (by omega)).symm⟩
  have hloop := forRangeM_induct
    (motive := fun r (s : FlatRead) => s.Reached k file n c (j0 / 64) r 0)
    (fun r => forRangeM c fun g => readFlatWord k 0 j0 r (64 * g)) _ n hstart ?_
  · obtain ⟨s, hrun, hs⟩ := hloop
    refine ⟨{ k with words := s.mat }, ?_, hk.withWords _, fun r hr J hJ => ?_⟩
    · have hdiv : file.ncols / 64 = c := by rw [hfile.ncols]; omega
      simp only [readFromFlatFile, hdiv, Option.bind_eq_bind, zero_add]
      rw [assertAlways_of_true hk.size.nrows.ge, assertAlways_of_true
        (by rw [hfile.ncols, hk.size.ncols]; exact hN), assertAlways_of_true hj0,
        assertAlways_of_true (by rw [hfile.ncols]; omega), hrun]
      rfl
    · refine (hs.mat r hr J).trans ?_
      have hnc : J < k.ncblocks := by rw [k.ncblocks_eq, hk.size.ncols]; exact hJ
      rw [k.setZero_block (hk.size.div_lt_nrblocks hr) hnc (Nat.mod_lt _ (by decide))]
      exact if_congr (by omega) rfl rfl
  · intro r hr s hs
    obtain ⟨s', hrun, hs'⟩ := forRangeM_induct
      (motive := fun g (s : FlatRead) => s.Reached k file n c (j0 / 64) r g)
      (fun g => readFlatWord k 0 j0 r (64 * g)) s c hs
      (fun g hg s hs => readFlatWord_spec hk hfile hj0 hr hg hs)
    exact ⟨s', hrun, hs'.succ⟩

end

/-! ## All files -/

section Join

variable {files pre : List KernelFile} {last : KernelFile}

theorem totalKernelCols_append (pre post : List KernelFile) :
    totalKernelCols (pre ++ post) = totalKernelCols pre + totalKernelCols post := by
  rw [totalKernelCols, List.map_append, List.sum_append]
  rfl

theorem totalKernelCols_cons (file : KernelFile) (files : List KernelFile) :
    totalKernelCols (file :: files) = file.ncols + totalKernelCols files :=
  rfl

/-- Files with `n` rows. -/
def HaveRows (n : ℕ) (files : List KernelFile) : Prop :=
  ∀ file ∈ files, file.HasSize n (file.ncols / 64)

theorem HaveRows.mod_eq_zero (h : HaveRows n files) : totalKernelCols files % 64 = 0 := by
  induction files with
  | nil => rfl
  | cons file files ih =>
    have hfile := (h file List.mem_cons_self).ncols
    have hfiles := ih fun file' hmem => h file' (List.mem_cons_of_mem _ hmem)
    rw [totalKernelCols_cons]
    omega

theorem readKernelLoop_spec (hk : Allocated k n N) (hsize : HaveRows n (pre ++ [last]))
    (hj0 : j0 % 64 = 0) (hN : j0 + totalKernelCols (pre ++ [last]) ≤ N) :
    ∃ k', readKernelLoop n k j0 (pre ++ [last]) = some k' ∧
      ∀ r < n, ∀ J < (N + 63) / 64, rowWord k' r J
        = if (j0 + totalKernelCols pre) / 64 ≤ J ∧
              J < (j0 + totalKernelCols pre) / 64 + last.ncols / 64 then
            last.word (last.ncols / 64) r (J - (j0 + totalKernelCols pre) / 64)
          else 0#64 := by
  induction pre generalizing k j0 with
  | nil =>
    have hlast := hsize last List.mem_cons_self
    obtain ⟨k', hrun, -, hwords⟩ := readFromFlatFile_spec hk hlast hj0
      (by rw [← hlast.ncols]; exact hN)
    refine ⟨k', ?_, hwords⟩
    simp [readKernelLoop, hrun, some_bind]
  | cons file pre ih =>
    have hfile := hsize file List.mem_cons_self
    have hcols := hfile.ncols
    rw [List.cons_append, totalKernelCols_cons] at hN
    obtain ⟨k₁, hrun, hk₁, -⟩ := readFromFlatFile_spec hk hfile hj0 (by omega)
    have hstart : (j0 + file.ncols) % 64 = 0 := by omega
    obtain ⟨k', hrest, hwords⟩ := ih hk₁
      (fun file' hmem => hsize file' (List.mem_cons_of_mem _ hmem)) hstart (by omega)
    refine ⟨k', ?_, ?_⟩
    · simp [readKernelLoop, hrun, some_bind, hrest]
    · rw [totalKernelCols_cons, ← add_assoc]
      exact hwords

/-- The matrix is the join of the files: each has its column blocks after those of the
files before it. -/
def IsJoin (k : BlockMatrix) (n : ℕ) (files : List KernelFile) : Prop :=
  ∀ pre file post, files = pre ++ file :: post → ∀ g < file.ncols / 64, ∀ r < n,
    rowWord k r (totalKernelCols pre / 64 + g) = file.word (file.ncols / 64) r g

/-- The files are joined if and only if all but the last one are zero. -/
theorem readKernelFiles_join_iff (mem : Words) (hsize : HaveRows n files) :
    (∃ k, readKernelFiles mem n files = some k ∧ IsJoin k n files) ↔
      ∀ file ∈ files.dropLast, ∀ w ∈ file.words, w = 0#64 := by
  obtain rfl | ⟨pre, last, rfl⟩ := List.eq_nil_or_concat' files
  · refine iff_of_true ⟨_, rfl, fun pre file post h => ?_⟩ (by simp)
    exact absurd h.symm (by simp)
  obtain ⟨k, hrun, hwords⟩ := readKernelLoop_spec
    (allocated_alloc mem n (totalKernelCols (pre ++ [last]))) hsize (Nat.zero_mod 64)
    (by rw [zero_add])
  simp only [zero_add] at hwords
  have hpre : HaveRows n pre := fun file hmem => hsize file (List.mem_append_left _ hmem)
  have htotal : totalKernelCols (pre ++ [last]) = totalKernelCols pre + last.ncols := by
    rw [totalKernelCols_append]
    rfl
  have hlast := (hsize last (by simp)).ncols
  -- the column blocks of a file that is not the last
  have hearly : ∀ pre' file post, pre = pre' ++ file :: post → ∀ g < file.ncols / 64,
      ∀ r < n, rowWord k r (totalKernelCols pre' / 64 + g) = 0#64 := by
    rintro pre' file post rfl g hg r hr
    have hrows : HaveRows n pre' := fun file' hmem => hpre file' (List.mem_append_left _ hmem)
    have hmod := hrows.mod_eq_zero
    have hsplit := totalKernelCols_append pre' (file :: post)
    rw [totalKernelCols_cons] at hsplit
    rw [hwords r hr _ (by omega), if_neg (by omega)]
  rw [List.dropLast_concat]
  constructor
  · rintro ⟨k', hrun', hjoin⟩ file hmem w hw
    obtain rfl : k = k' := Option.some.inj (hrun.symm.trans hrun')
    obtain ⟨pre', post, hpost⟩ := List.append_of_mem hmem
    obtain ⟨x, hx, rfl⟩ := List.getElem_of_mem hw
    have hlength := (hpre file hmem).length
    obtain ⟨hr, hg⟩ : x / (file.ncols / 64) < n ∧ x % (file.ncols / 64) < file.ncols / 64 := by
      have hpos : 0 < file.ncols / 64 := Nat.pos_of_ne_zero fun h => by
        rw [hlength, h] at hx
        exact Nat.not_lt_zero _ hx
      exact ⟨(Nat.div_lt_iff_lt_mul hpos).mpr (hlength ▸ hx), Nat.mod_lt _ hpos⟩
    have hword := hjoin pre' file (post ++ [last]) (by rw [hpost]; simp) _ hg _ hr
    rw [hearly pre' file post hpost _ hg _ hr, KernelFile.word, Nat.div_add_mod',
      List.getD_eq_getElem _ _ hx] at hword
    exact hword.symm
  · intro hzero
    refine ⟨k, hrun, fun pre' file post heq g hg r hr => ?_⟩
    obtain rfl | ⟨post, last', rfl⟩ := List.eq_nil_or_concat' post
    · obtain ⟨rfl, hone⟩ := List.append_inj' heq rfl
      obtain rfl := List.cons.inj hone |>.1
      have hmod := hpre.mod_eq_zero
      rw [hwords r hr _ (by omega), if_pos (by omega), Nat.add_sub_cancel_left]
    · obtain ⟨rfl, -⟩ : pre = pre' ++ file :: post ∧ [last] = [last'] :=
        List.append_inj' (by rw [heq]; simp) rfl
      rw [hearly pre' file post rfl g hg r hr, KernelFile.word, List.getD_eq_getElem?_getD]
      rcases hget : file.words[r * (file.ncols / 64) + g]? with _ | w
      · rfl
      · exact (hzero file (by simp) w (List.mem_of_getElem? hget)).symm

/-- A row of ones in the first of two files is lost. -/
theorem readKernelFiles_lost :
    ¬∃ k, readKernelFiles (fun _ => 0#64) 1 [⟨64, [1#64]⟩, ⟨64, [1#64]⟩] = some k ∧
      IsJoin k 1 [⟨64, [1#64]⟩, ⟨64, [1#64]⟩] := by
  rintro ⟨k, hrun, hjoin⟩
  have hword := hjoin [] ⟨64, [1#64]⟩ [⟨64, [1#64]⟩] rfl 0 (by decide) 0 (by decide)
  have hzero : (readKernelFiles (fun _ => 0#64) 1 [⟨64, [1#64]⟩, ⟨64, [1#64]⟩]).map
      (fun k => rowWord k 0 0) = some 0#64 := by
    decide
  rw [hrun] at hzero
  exact absurd ((Option.some.inj hzero).symm.trans hword) (by decide)

/-- A file of zeros before another one. -/
theorem readKernelFiles_join_iff_zero :
    ∃ k, readKernelFiles (fun _ => 0#64) 1 [⟨64, [0#64]⟩, ⟨64, [1#64]⟩] = some k ∧
      IsJoin k 1 [⟨64, [0#64]⟩, ⟨64, [1#64]⟩] := by
  refine (readKernelFiles_join_iff (fun _ => 0#64) (fun file hmem => ?_)).mpr (by simp)
  simp only [List.mem_cons, List.not_mem_nil, or_false] at hmem
  rcases hmem with rfl | rfl <;> exact ⟨rfl, rfl⟩

end Join

/-! ## The dependencies that are counted -/

section Sanity

variable {nk : BlockMatrix}

theorem addOnes_eq (w : BitVec 64) (deps : ℕ) :
    addOnes w deps = deps + #{b ∈ range 64 | bit w b = 1} := by
  induction w, deps using addOnes.induct with
  | case1 deps =>
    rw [addOnes, if_pos rfl]
    simp
  | case2 w deps hne ih =>
    have hshift : ∀ b, bit (w >>> 1) b = bit w (b + 1) := fun b => by
      rw [bit, BitVec.getLsbD_ushiftRight, bit, add_comm]
    have hlow : (w &&& 1#64).toNat = if bit w 0 = 1 then 1 else 0 := by
      have hiff : bit w 0 = 1 ↔ w.toNat % 2 = 1 := by
        rw [bit, ofBool_eq_one_iff, BitVec.getLsbD, Nat.testBit_zero, decide_eq_true_iff]
      rw [if_congr hiff rfl rfl, BitVec.toNat_and, BitVec.toNat_ofNat, Nat.and_one_is_mod]
      split_ifs <;> omega
    have hlast : bit w 64 ≠ 1 := by
      rw [bit_of_le w le_rfl]
      exact zero_ne_one
    rw [addOnes, if_neg hne, ih, hlow]
    simp only [hshift, card_filter]
    have hfirst := sum_range_succ' (fun b => if bit w b = 1 then 1 else 0) 64
    rw [sum_range_succ, if_neg hlast] at hfirst
    omega

theorem bit_or_eq_one_iff (a b : BitVec 64) (t : ℕ) :
    bit (a ||| b) t = 1 ↔ bit a t = 1 ∨ bit b t = 1 := by
  simp [bit]

theorem entry_first_row (nk : BlockMatrix) (t j : ℕ) {b : ℕ} (hb : b < 64) :
    nk.entry (64 * t) (64 * j + b) = bit (nk.words (nk.block t j)) b := by
  rw [entry, show 64 * t / 64 = t by omega, show (64 * j + b) / 64 = j by omega,
    show 64 * t % 64 = 0 by omega, show (64 * j + b) % 64 = b by omega, add_zero]

theorem exists_first_row (nk : BlockMatrix) (p : ℕ → Prop) :
    (∃ i < nk.nrows, i % 64 = 0 ∧ p i) ↔ ∃ t < (nk.nrows + 63) / 64, p (64 * t) := by
  constructor
  · rintro ⟨i, hi, hmod, hp⟩
    refine ⟨i / 64, by omega, ?_⟩
    rwa [show 64 * (i / 64) = i by omega]
  · rintro ⟨t, ht, hp⟩
    exact ⟨64 * t, by omega, by omega, hp⟩

section

variable (hk : Allocated nk n N)
include hk

theorem loadWord_spec {t j : ℕ} (ht : t < nk.nrblocks)
    (hj : j < nk.ncblocks) : loadWord nk (nk.block t j) = some (nk.words (nk.block t j)) := by
  have hlast : t + j * nk.nrblocks < nk.nrblocks * nk.ncblocks :=
    calc t + j * nk.nrblocks < (j + 1) * nk.nrblocks := by rw [Nat.succ_mul]; omega
      _ ≤ nk.ncblocks * nk.nrblocks := Nat.mul_le_mul_right _ hj
      _ = nk.nrblocks * nk.ncblocks := mul_comm _ _
  rw [loadWord, assertAlways_of_true (by rw [hk.block_eq, hk.mb]; omega)]
  rfl

theorem sanityBlock_spec {t j : ℕ} (ht : 64 * t < n) (hj : j < nk.ncblocks) (sanity : BitVec 64) :
    ∃ w, forRangeM (min 64 (nk.nrows - 64 * t)) (fun ii sanity => do
        let w ← loadWord nk (64 * (nk.mb + (j * nk.stride + ii / 64)) + 64 * t)
        some (sanity ||| w)) sanity = some w ∧
      ∀ b < 64, bit w b = 1 ↔ bit sanity b = 1 ∨ nk.entry (64 * t) (64 * j + b) = 1 := by
  have hrows := hk.size.nrows
  have hpasses : 0 < min 64 (nk.nrows - 64 * t) := by omega
  have hloop := forRangeM_induct
    (motive := fun ii (w : BitVec 64) => ∀ b < 64, bit w b = 1 ↔
      bit sanity b = 1 ∨ 0 < ii ∧ nk.entry (64 * t) (64 * j + b) = 1)
    (fun ii sanity => do
      let w ← loadWord nk (64 * (nk.mb + (j * nk.stride + ii / 64)) + 64 * t)
      some (sanity ||| w)) sanity (min 64 (nk.nrows - 64 * t)) (fun b _ => by simp) ?_
  · obtain ⟨w, hrun, hw⟩ := hloop
    exact ⟨w, hrun, fun b hb => by rw [hw b hb, and_iff_right hpasses]⟩
  · intro ii hii w hw
    -- the address does not depend on `ii`
    have haddr : 64 * (nk.mb + (j * nk.stride + ii / 64)) + 64 * t = nk.block t j := by
      rw [Nat.div_eq_of_lt (by omega), block]
      omega
    have hblock : t < nk.nrblocks := by rw [nk.nrblocks_eq, hrows]; omega
    rw [haddr, loadWord_spec hk hblock hj]
    refine ⟨_, rfl, fun b hb => ?_⟩
    rw [bit_or_eq_one_iff, hw b hb, entry_first_row nk t j hb]
    simp only [Nat.zero_lt_succ, true_and]
    tauto

theorem sanityWord_spec {j : ℕ} (hj : j < nk.ncblocks) : ∃ w, sanityWord nk j = some w ∧ ∀ b < 64,
      bit w b = 1 ↔ ∃ i < nk.nrows, i % 64 = 0 ∧ nk.entry i (64 * j + b) = 1 := by
  have hrows := hk.size.nrows
  have hloop := forRangeM_induct
    (motive := fun t (w : BitVec 64) => ∀ b < 64, bit w b = 1 ↔
      ∃ t' < t, nk.entry (64 * t') (64 * j + b) = 1)
    (fun t sanity => forRangeM (min 64 (nk.nrows - 64 * t)) (fun ii sanity => do
      let w ← loadWord nk (64 * (nk.mb + (j * nk.stride + ii / 64)) + 64 * t)
      some (sanity ||| w)) sanity) 0#64 ((nk.nrows + 63) / 64) (fun b _ => by simp) ?_
  · obtain ⟨w, hrun, hw⟩ := hloop
    exact ⟨w, hrun, fun b hb =>
      (hw b hb).trans (exists_first_row nk fun i => nk.entry i (64 * j + b) = 1).symm⟩
  · intro t ht w hw
    obtain ⟨w', hpass, hw'⟩ := sanityBlock_spec hk (show 64 * t < n by omega) hj w
    refine ⟨w', hpass, fun b hb => ?_⟩
    rw [hw' b hb, hw b hb]
    simp only [Nat.lt_succ_iff_lt_or_eq, or_and_right, exists_or, exists_eq_left]

/-- The columns that are counted: those with a one in a row whose index is a multiple
of 64. -/
theorem nonzeroDeps_eq : nonzeroDeps nk = some #{c ∈ range (64 * nk.ncblocks) |
      ∃ i < nk.nrows, i % 64 = 0 ∧ nk.entry i c = 1} := by
  have hloop := forRangeM_induct
    (motive := fun j (deps : ℕ) => deps = #{c ∈ range (64 * j) |
      ∃ i < nk.nrows, i % 64 = 0 ∧ nk.entry i c = 1})
    (fun j deps => do
      let sanity ← sanityWord nk j
      some (addOnes sanity deps)) 0 nk.ncblocks rfl ?_
  · obtain ⟨deps, hrun, hdeps⟩ := hloop
    rw [nonzeroDeps, hrun, hdeps]
  · rintro j hj deps rfl
    obtain ⟨w, hword, hw⟩ := sanityWord_spec hk hj
    rw [hword]
    refine ⟨_, rfl, ?_⟩
    rw [addOnes_eq, card_filter, card_filter, card_filter, Nat.mul_succ, sum_range_add]
    refine congrArg _ (sum_congr rfl fun b hb => ?_)
    exact if_congr (hw b (mem_range.mp hb)) rfl rfl

end

/-- The loop is right: it reads the entries of the matrix alone, counts the columns that
are not zero, and the program stops only when there is none. -/
def SanityCounts (nk : BlockMatrix) : Prop :=
  ∃ deps, nonzeroDeps nk = some deps ∧
    deps = #{c ∈ range (64 * nk.ncblocks) | ∃ i < nk.nrows, nk.entry i c = 1} ∧
    (deps = 0 → ∀ c < 64 * nk.ncblocks, ∀ i < nk.nrows, nk.entry i c = 0)

/-- The loop is right if and only if every column that is not zero has a one in a row
whose index is a multiple of 64. -/
theorem sanityCounts_iff (hk : Allocated nk n N) :
    SanityCounts nk ↔ ∀ c < 64 * nk.ncblocks, ∀ i < nk.nrows, nk.entry i c = 1 →
      ∃ i' < nk.nrows, i' % 64 = 0 ∧ nk.entry i' c = 1 := by
  have hsub : ({c ∈ range (64 * nk.ncblocks) |
        ∃ i < nk.nrows, i % 64 = 0 ∧ nk.entry i c = 1} : Finset ℕ)
      ⊆ {c ∈ range (64 * nk.ncblocks) | ∃ i < nk.nrows, nk.entry i c = 1} := by
    intro c hc
    obtain ⟨hc, i, hi, -, hone⟩ := mem_filter.mp hc
    exact mem_filter.mpr ⟨hc, i, hi, hone⟩
  constructor
  · rintro ⟨deps, hrun, hcard, -⟩ c hc i hi hone
    obtain rfl := Option.some.inj (hrun.symm.trans (nonzeroDeps_eq hk))
    have hmem : c ∈ ({c ∈ range (64 * nk.ncblocks) |
        ∃ i < nk.nrows, i % 64 = 0 ∧ nk.entry i c = 1} : Finset ℕ) := by
      rw [eq_of_subset_of_card_le hsub hcard.ge]
      exact mem_filter.mpr ⟨mem_range.mpr hc, i, hi, hone⟩
    exact (mem_filter.mp hmem).2
  · intro hcover
    have heq : #{c ∈ range (64 * nk.ncblocks) |
          ∃ i < nk.nrows, i % 64 = 0 ∧ nk.entry i c = 1}
        = #{c ∈ range (64 * nk.ncblocks) | ∃ i < nk.nrows, nk.entry i c = 1} := by
      refine congrArg card (hsub.antisymm fun c hc => ?_)
      obtain ⟨hc, i, hi, hone⟩ := mem_filter.mp hc
      exact mem_filter.mpr ⟨hc, hcover c (mem_range.mp hc) i hi hone⟩
    refine ⟨_, nonzeroDeps_eq hk, heq, fun hzero c hc i hi => ?_⟩
    rw [heq, card_eq_zero, filter_eq_empty_iff] at hzero
    have hne := hzero (mem_range.mpr hc)
    exact (eq_zero_or_one _).resolve_right fun hone => hne ⟨i, hi, hone⟩

/-- Two rows, of which only the second is not zero: the program stops. -/
theorem sanityCounts_two_rows :
    let nk := alloc (fun y => if y = 1 then 1#64 else 0#64) 2 64
    nonzeroDeps nk = some 0 ∧ nk.entry 1 0 = 1 ∧ ¬SanityCounts nk := by
  intro nk
  have hzero : nonzeroDeps nk = some 0 := by
    rw [nonzeroDeps_eq (allocated_alloc _ 2 64)]
    decide
  have hone : nk.entry 1 0 = 1 := by decide
  refine ⟨hzero, hone, ?_⟩
  rintro ⟨deps, hrun, -, hstop⟩
  obtain rfl := Option.some.inj (hrun.symm.trans hzero)
  exact zero_ne_one ((hstop rfl 0 (by decide) 1 (by decide)).symm.trans hone)

/-- A matrix with 100 rows of which every sixth one, the row 64 among them, has two ones. -/
theorem sanityCounts_iff_first_row :
    SanityCounts (alloc (fun y => if y % 6 = 4 then 5#64 else 0#64) 100 64) := by
  refine (sanityCounts_iff (allocated_alloc _ 100 64)).mpr fun c hc i hi hone =>
    ⟨64, by decide, rfl, ?_⟩
  have hzero : c / 64 = 0 := Nat.div_eq_of_lt hc
  simp only [entry, block, alloc, hzero] at hone ⊢
  split_ifs at hone
  · exact hone
  · exact absurd (hone.symm.trans (bit_zero _)) (by decide)

end Sanity

end CadoNfs.Characters
