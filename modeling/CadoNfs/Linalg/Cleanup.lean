import CadoNfs.Lib.KernelChain
import CadoNfs.Macros
import CadoNfs.Linalg.MatrixOps

/-!
# Kernel vectors from the iterates of `cleanup`

The program `cleanup` reads blocks of vectors of which each is the matrix times the
one before, and collects vectors that the matrix sends to zero.

Main results:

- Theorem `processFile_spec`: what one file does to the variables, in terms of the
  abstract collection, unless an assertion of `gauss.c` fails.
- Theorem `cleanup_isKernelBasis_iff`: the file written is a basis of as many kernel
  vectors as promised exactly when the run is clean.
-/

namespace CadoNfs

open ForRange Gf2 ReducedColumns KernelChain
open Option (bind_eq_bind bind_none bind_some)
open Gauss (basisOf spannedBasis)

/-- A file of 64-bit words and its size in bytes. -/
structure FlatFile where
  size : ℕ
  words : ℕ → BitVec 64

namespace BlockMatrix

/-- The words of a file, row by row, stored in the blocks. -/
def storeFile (k : BlockMatrix) (i0 j0 : ℕ) (f : FlatFile) (fnrows fncols : ℕ) :
    BlockMatrix :=
  { k with
    words := forRange fnrows (fun r words => forRange (fncols / 64) (fun g words =>
      Function.update words
        (k.block ((i0 + r) / 64) ((j0 + 64 * g) / 64) + (i0 + r) % 64)
        (f.words (r * (fncols / 64) + g))) words) k.setZero.words }

/-- `blockmatrix_read_from_flat_file`. -/
def readFromFlatFile (k : BlockMatrix) (i0 j0 : ℕ) (f : FlatFile) (fnrows fncols : ℕ) :
    Option BlockMatrix := do
  assertAlways (i0 + fnrows ≤ k.nrows)
  assertAlways (j0 + fncols ≤ k.ncols)
  assertAlways (j0 % 64 = 0)
  assertAlways (fncols % 64 = 0)
  -- every `fread` returns a word
  assertAlways (8 * (fnrows * (fncols / 64)) ≤ f.size)
  some (k.storeFile i0 j0 f fnrows fncols)

/-- The words of the blocks, row by row, as a file. -/
def fileOf (k : BlockMatrix) (i0 j0 fnrows fncols : ℕ) : FlatFile where
  size := 8 * (fnrows * ((fncols + 63) / 64))
  words := fun x =>
    let r := x / ((fncols + 63) / 64)
    let g := 64 * (x % ((fncols + 63) / 64))
    k.words (k.block ((i0 + r) / 64) ((j0 + g) / 64) + (i0 + r) % 64)

/-- `blockmatrix_write_to_flat_file`. -/
def writeToFlatFile (k : BlockMatrix) (i0 j0 fnrows fncols : ℕ) : Option FlatFile := do
  assertAlways (i0 + fnrows ≤ k.nrows)
  assertAlways (j0 + fncols ≤ k.ncols)
  assertAlways (j0 % 64 = 0)
  some (k.fileOf i0 j0 fnrows fncols)

end BlockMatrix

namespace Cleanup

open BlockMatrix

/-! ## Code -/

/-- How `gauss.c` is compiled. -/
structure Build where
  multiRow : Gauss.MultiRow
  ndebug : Bool

/-- The arguments of `spanned_basis`. -/
def gaussParams (b : Build) (ncols nrows : ℕ) : Gauss.Params where
  nrows := ncols
  ncols := nrows
  limbsPerRow := (nrows + 63) / 64
  limbsPerCol := (ncols + 63) / 64
  multiRow := b.multiRow
  ndebug := b.ndebug

/-- The variables of `main`. -/
structure Vars where
  k : BlockMatrix
  kprev : BlockMatrix
  kS : BlockMatrix
  kfinal : BlockMatrix
  S : BlockMatrix
  ST : BlockMatrix
  T : BlockMatrix
  zone : Words
  kzone : Words
  prevrank : ℕ
  rank0 : ℕ

/-- The matrices that `main` allocates; `mem` is what `malloc` leaves in
each area. -/
def start (mem : ℕ → Words) (ncols nrows : ℕ) : Vars where
  k := alloc (mem 0) nrows ncols
  kprev := alloc (mem 1) nrows ncols
  kS := alloc (mem 2) nrows ncols
  kfinal := (alloc (mem 3) nrows ncols).setZero
  S := (alloc (mem 4) ncols ncols).setIdentity
  ST := alloc (mem 5) ncols ncols
  T := alloc (mem 6) ncols ncols
  zone := mem 7
  kzone := mem 8
  prevrank := ncols
  rank0 := 0

/-- The columns of `kprev` that are taken when the rank drops. -/
def addKernelVectors (kfinal kprev : BlockMatrix) (rank prevrank : ℕ) :
    Option BlockMatrix :=
  if rank < prevrank then copyColrange kfinal kprev rank prevrank else some kfinal

/-- One pass of the main loop; `blockmatrix_swap` exchanges two matrices, and `nrows` is an
`unsigned int`. -/
def processFile (b : Build) (ncols commonNrows i : ℕ) (f : FlatFile) (v : Vars) :
    Option Vars := do
  assertAlways (f.size % (ncols / 8) = 0)
  let nrows := f.size / (ncols / 8) % 2 ^ 32
  assertAlways (commonNrows = nrows)
  let k ← readFromFlatFile v.k 0 0 f nrows ncols
  let kS ← mulSmallb v.kS k v.S
  let (kS, k) := (k, kS)
  let G := gaussParams b ncols commonNrows
  let zone := copyTransposeToFlat v.zone G.limbsPerRow 0 0 k
  let (rank, kzone, zone) ← spannedBasis G v.kzone zone
  let T := copyTransposeFromFlat v.T kzone G.limbsPerCol 0 0
  let ST ← mulSmallb v.ST v.S T
  let (ST, S) := (v.S, ST)
  let kS ← mulSmallb kS k T
  let (kS, k) := (k, kS)
  if i = 0 then
    some ⟨v.kprev, k, kS, v.kfinal, S, ST, T, zone, kzone, rank, rank⟩
  else do
    let kS ← mulSmallb kS v.kprev T
    let (kS, kprev) := (v.kprev, kS)
    assertAlways (rank ≤ v.prevrank)
    let kfinal ← addKernelVectors v.kfinal kprev rank v.prevrank
    some ⟨kprev, k, kS, kfinal, S, ST, T, zone, kzone, rank, v.rank0⟩

/-- The first `i` passes of the main loop. -/
def passes (b : Build) (mem : ℕ → Words) (ncols nrows : ℕ) (files : List FlatFile) (i : ℕ) :
    Option Vars :=
  forRangeM i (fun i v => files[i]?.bind fun f => processFile b ncols nrows i f v)
    (start mem ncols nrows)

/-- `main` from the command line on: the number of columns and the files, in order.
Without files the matrices are `NULL`. -/
def cleanup (b : Build) (mem : ℕ → Words) (ncols : ℕ) (files : List FlatFile) :
    Option FlatFile := do
  assertAlways (ncols ≠ 0)
  assertAlways (ncols % 64 = 0)
  let f0 ← files.head?
  let nrows := f0.size / (ncols / 8) % 2 ^ 32
  let v ← passes b mem ncols nrows files files.length
  let kfinal ← copyColrange v.kfinal v.kprev 0 v.prevrank
  writeToFlatFile kfinal 0 0 nrows ncols

/-! ## Files as matrices -/

/-- The matrix in a file. -/
def fileMatrix (n N : ℕ) (f : FlatFile) : Matrix (Fin n) (Fin N) (ZMod 2) :=
  Matrix.of fun r c => bit (f.words (r * (N / 64) + c / 64)) (c % 64)

variable {n N : ℕ} {k : BlockMatrix} {f : FlatFile}

theorem toMatrix_readFromFlatFile (hk : k.HasSize n N) (hN : N % 64 = 0)
    (hsize : f.size = n * (N / 8)) :
    readFromFlatFile k 0 0 f n N = some (k.storeFile 0 0 f n N) ∧
      (k.storeFile 0 0 f n N).HasSize n N ∧
      (k.storeFile 0 0 f n N).toMatrix n N = fileMatrix n N f := by
  have hbytes : 8 * (n * (N / 64)) ≤ f.size := by
    rw [hsize, mul_left_comm]
    exact Nat.mul_le_mul_left n (by omega)
  refine ⟨?_, ⟨hk.nrows, hk.ncols⟩, ?_⟩
  · unfold readFromFlatFile
    rw [assertAlways_of_true (by rw [hk.nrows, zero_add]),
      assertAlways_of_true (by rw [hk.ncols, zero_add]),
      assertAlways_of_true (Nat.zero_mod 64), assertAlways_of_true hN, assertAlways_of_true hbytes]
    rfl
  · ext i j
    have hi := hk.div_lt_nrblocks i.isLt
    have hj := hk.div_lt_ncblocks j.isLt
    have hcols := hk.ncols
    have hblocks := k.ncblocks_eq
    have hword := forRange_nested_at_only
      (x := k.block ((i : ℕ) / 64) ((j : ℕ) / 64) + (i : ℕ) % 64)
      (fun r g words => Function.update words
        (k.block ((0 + r) / 64) ((0 + 64 * g) / 64) + (0 + r) % 64)
        (f.words (r * (N / 64) + g))) i.isLt (show (j : ℕ) / 64 < N / 64 by omega) ?_ ?_
      k.setZero.words
    · rw [zero_add, zero_add, Nat.mul_div_cancel_left _ (by decide), Function.update_self] at hword
      exact congrArg (bit · ((j : ℕ) % 64)) hword
    · intro r hr g hg hne words
      refine Function.update_of_ne (fun heq => hne ?_) _ _
      rw [zero_add, zero_add, Nat.mul_div_cancel_left _ (by decide)] at heq
      obtain ⟨hrow, hcol, hmod⟩ := k.block_add_inj hi (hk.div_lt_nrblocks hr)
        (Nat.mod_lt _ (by decide)) (Nat.mod_lt _ (by decide)) heq
      exact Prod.ext (by simp only; omega) hcol.symm
    · intro words words' _
      rw [zero_add, zero_add, Nat.mul_div_cancel_left _ (by decide),
        Function.update_self, Function.update_self]

theorem fileMatrix_writeToFlatFile (hk : k.HasSize n N) (hN : N % 64 = 0) :
    writeToFlatFile k 0 0 n N = some (k.fileOf 0 0 n N) ∧
      (k.fileOf 0 0 n N).size = n * (N / 8) ∧
      fileMatrix n N (k.fileOf 0 0 n N) = k.toMatrix n N := by
  refine ⟨?_, ?_, ?_⟩
  · unfold writeToFlatFile
    rw [assertAlways_of_true (by rw [hk.nrows, zero_add]),
      assertAlways_of_true (by rw [hk.ncols, zero_add]), assertAlways_of_true (Nat.zero_mod 64)]
    rfl
  · rw [fileOf, show (N + 63) / 64 = N / 64 by omega, mul_left_comm]
    exact congrArg (n * ·) (by omega)
  · ext i j
    have hj := j.isLt
    have hpos : 0 < N / 64 := by omega
    have hcol : (j : ℕ) / 64 < N / 64 := by omega
    have hdiv : ((i : ℕ) * (N / 64) + j / 64) / (N / 64) = i := by
      rw [mul_comm, Nat.mul_add_div hpos, Nat.div_eq_of_lt hcol, add_zero]
    have hmod : ((i : ℕ) * (N / 64) + j / 64) % (N / 64) = j / 64 := by
      rw [mul_comm, Nat.mul_add_mod, Nat.mod_eq_of_lt hcol]
    rw [fileMatrix, Matrix.of_apply]
    simp only [fileOf, show (N + 63) / 64 = N / 64 by omega, hdiv, hmod, zero_add,
      Nat.mul_div_cancel_left _ (show 0 < 64 by decide)]
    rfl

/-! ## One file -/

/-- The variables after some files: the matrices have their sizes, and what they hold is
the abstract collection. -/
structure Inv (M : Matrix (Fin n) (Fin n) (ZMod 2))
    (K : ℕ → Matrix (Fin n) (Fin N) (ZMod 2)) (i : ℕ) (v : Vars) : Prop where
  k : v.k.HasSize n N
  kprev : v.kprev.HasSize n N
  kS : v.kS.HasSize n N
  kfinal : v.kfinal.HasSize n N
  S : v.S.HasSize N N
  ST : v.ST.HasSize N N
  T : v.T.HasSize N N
  start : i = 0 → v.S.toMatrix N N = 1 ∧ v.kfinal.toMatrix n N = 0
  collected : ∀ j, i = j + 1 →
    Collected M K j (v.S.toMatrix N N) v.prevrank (v.kfinal.toMatrix n N) ∧
      v.kprev.toMatrix n N = K j * v.S.toMatrix N N

/-- The assertion of `check_soundness` holds for the matrix that a pass eliminates, which is the
block in the file times `S`. -/
def PassSound (b : Build) (n N : ℕ) (f : FlatFile) (v : Vars) : Prop :=
  ∀ k kS, readFromFlatFile v.k 0 0 f n N = some k → mulSmallb v.kS k v.S = some kS →
    Gauss.Sound (gaussParams b N n)
      (copyTransposeToFlat v.zone (gaussParams b N n).limbsPerRow 0 0 kS)

section Eliminate

variable (b : Build) {m T : BlockMatrix} (hm : m.HasSize n N) (hN : N % 64 = 0)
  (hcol : N * ((n + 63) / 64) ≤ 2 ^ 32) (zone kzone : Words)
  (hsound : Gauss.Sound (gaussParams b N n)
    (copyTransposeToFlat zone (gaussParams b N n).limbsPerRow 0 0 m))
include hm hN hcol hsound

theorem spannedBasis_block :
    ∃ rank kzone' zone', spannedBasis (gaussParams b N n) kzone
        (copyTransposeToFlat zone (gaussParams b N n).limbsPerRow 0 0 m)
          = some (rank, kzone', zone') ∧
      Reduces (m.toMatrix n N) (basisOf (gaussParams b N n) kzone') rank ∧
      ∀ c : Fin N, (c : ℕ) + 1 = N → (∀ x, m.toMatrix n N x c = 0) →
        ∀ p : Fin N, (p : ℕ) = rank → ∀ y : Fin N,
          basisOf (gaussParams b N n) kzone' y p = if y = c then 1 else 0 := by
  have hnr := m.nrblocks_eq
  have hnc := m.ncblocks_eq
  rw [hm.nrows] at hnr
  rw [hm.ncols] at hnc
  have hview := Gauss.transposed_copyTransposeToFlat (G := gaussParams b N n) zone hm hnr.symm
    (by rwa [hnr, hnc, show 64 * ((N + 63) / 64) = N by omega])
  have hcols : n ≤ (n + 63) / 64 * 64 := by omega
  have hrows : N ≤ (N + 63) / 64 * 64 := by omega
  obtain ⟨rank, kzone', zone', hrun, hreduces, hlast⟩ :=
    Gauss.spannedBasis_reduces kzone (by decide) hcols hrows hsound
  rw [hview] at hreduces hlast
  exact ⟨rank, kzone', zone', hrun, hreduces, hlast⟩

theorem spannedBasis_toMatrix (hT : T.HasSize N N) (hrow : N * (N / 64) ≤ 2 ^ 32) :
    ∃ rank kzone' zone', spannedBasis (gaussParams b N n) kzone
        (copyTransposeToFlat zone (gaussParams b N n).limbsPerRow 0 0 m)
          = some (rank, kzone', zone') ∧
      (copyTransposeFromFlat T kzone' (gaussParams b N n).limbsPerCol 0 0).HasSize N N ∧
      Reduces (m.toMatrix n N)
        ((copyTransposeFromFlat T kzone' (gaussParams b N n).limbsPerCol 0 0).toMatrix N N) rank ∧
      ∀ c : Fin N, (c : ℕ) + 1 = N → (∀ x, m.toMatrix n N x c = 0) →
        ∀ p : Fin N, (p : ℕ) = rank → ∀ y,
          (copyTransposeFromFlat T kzone' (gaussParams b N n).limbsPerCol 0 0).toMatrix N N y p
            = if y = c then 1 else 0 := by
  obtain ⟨rank, kzone', zone', hrun, hreduces, hlast⟩ :=
    spannedBasis_block b hm hN hcol zone kzone hsound
  have hback := Gauss.toMatrix_copyTransposeFromFlat (G := gaussParams b N n) kzone' hT le_rfl
    (by
      have hnc := T.ncblocks_eq
      rw [hT.ncols] at hnc
      rwa [hnc, show 64 * ((N + 63) / 64) = N by omega,
        show (gaussParams b N n).limbsPerCol = N / 64 by simp only [gaussParams]; omega])
  have hbasis : (copyTransposeFromFlat T kzone' (gaussParams b N n).limbsPerCol 0 0).toMatrix
      N N = basisOf (gaussParams b N n) kzone' := hback.2
  refine ⟨rank, kzone', zone', hrun, hback.1, ?_⟩
  rw [hbasis]
  exact ⟨hreduces, hlast⟩

end Eliminate

theorem toMatrix_addKernelVectors {kfinal kprev : BlockMatrix} (rank : ℕ) {prevrank : ℕ}
    (hfinal : kfinal.HasSize n N) (hprev : kprev.HasSize n N) (hle : prevrank ≤ N) :
    ∃ kfinal', addKernelVectors kfinal kprev rank prevrank = some kfinal' ∧
      kfinal'.HasSize n N ∧ kfinal'.toMatrix n N =
        if rank < prevrank then
          copyColumns (kfinal.toMatrix n N) (kprev.toMatrix n N) rank prevrank
        else kfinal.toMatrix n N := by
  unfold addKernelVectors
  by_cases hdrop : rank < prevrank
  · simp only [if_pos hdrop]
    exact toMatrix_copyColrange rank hfinal hprev hle
  · simp only [if_neg hdrop]
    exact ⟨kfinal, rfl, hfinal, rfl⟩

/-- One pass of the main loop adds one matrix to the collection. -/
theorem processFile_spec {b : Build} {M : Matrix (Fin n) (Fin n) (ZMod 2)}
    {K : ℕ → Matrix (Fin n) (Fin N) (ZMod 2)} {i : ℕ} {f : FlatFile} {v : Vars}
    (h : Inv M K i v) (hN : N % 64 = 0) (hpos : N ≠ 0) (hn : n < 2 ^ 32)
    (hcol : N * ((n + 63) / 64) ≤ 2 ^ 32) (hrow : N * (N / 64) ≤ 2 ^ 32)
    (hsize : f.size = n * (N / 8))
    (hf : fileMatrix n N f = K i) (hsucc : ∀ j, i = j + 1 → K (j + 1) = M * K j) :
    (PassSound b n N f v ∧ ∃ v', processFile b N n i f v = some v' ∧ Inv M K (i + 1) v') ∨
      ¬PassSound b n N f v ∧ processFile b N n i f v = none := by
  have hbytes : 0 < N / 8 := by omega
  have hdvd : f.size % (N / 8) = 0 := by rw [hsize, Nat.mul_mod_left]
  have hnrows : f.size / (N / 8) % 2 ^ 32 = n := by
    rw [hsize, Nat.mul_div_cancel n hbytes, Nat.mod_eq_of_lt hn]
  obtain ⟨hread, hkSize, hk⟩ := toMatrix_readFromFlatFile h.k hN hsize
  obtain ⟨k₁, hk₁, hk₁Size, hk₁Mat⟩ := toMatrix_mulSmallb h.kS hkSize h.S hN
  rw [hk, hf] at hk₁Mat
  have hpass : PassSound b n N f v ↔ Gauss.Sound (gaussParams b N n)
      (copyTransposeToFlat v.zone (gaussParams b N n).limbsPerRow 0 0 k₁) := by
    refine ⟨fun hpass => hpass _ k₁ hread hk₁, fun hsound k kS hk' hkS => ?_⟩
    rw [hread] at hk'
    cases hk'
    rw [hk₁] at hkS
    cases hkS
    exact hsound
  by_cases hsound : PassSound b n N f v
  · obtain ⟨rank, kzone', zone', hrun, hTSize, hreduces, hlast⟩ :=
      spannedBasis_toMatrix b hk₁Size hN hcol v.zone v.kzone (hpass.mp hsound) h.T hrow
    set T := copyTransposeFromFlat v.T kzone' (gaussParams b N n).limbsPerCol 0 0 with hT
    obtain ⟨ST, hST, hSTSize, hSTMat⟩ := toMatrix_mulSmallb h.ST h.S hTSize hN
    obtain ⟨k₂, hk₂, hk₂Size, hk₂Mat⟩ := toMatrix_mulSmallb hkSize hk₁Size hTSize hN
    rw [hk₁Mat] at hk₂Mat hreduces hlast
    have hk₂Mat : k₂.toMatrix n N = K i * ST.toMatrix N N := by
      rw [hk₂Mat, hSTMat, Matrix.mul_assoc]
    refine Or.inl ⟨hsound, ?_⟩
    cases i with
    | zero =>
      obtain ⟨hS, hfinal⟩ := h.start rfl
      rw [hS, Matrix.mul_one] at hreduces
      have hone : ST.toMatrix N N = T.toMatrix N N := by rw [hSTMat, hS, Matrix.one_mul]
      refine ⟨⟨v.kprev, k₂, k₁, v.kfinal, ST, v.S, T, zone', kzone', rank, rank⟩, ?_,
        h.kprev, hk₂Size, hk₁Size, h.kfinal, hSTSize, h.S, hTSize, nofun, ?_⟩
      · simp only [processFile, assertAlways_of_true hdvd, hnrows,
          assertAlways_true, hread, hk₁, hrun, ← hT, hST, hk₂, bind_eq_bind, bind_some, if_true]
      · rintro j hj
        obtain rfl : j = 0 := by omega
        rw [hone] at hk₂Mat ⊢
        rw [hfinal]
        exact ⟨collected_zero hreduces, hk₂Mat⟩
    | succ i =>
      obtain ⟨hcollected, hkprev⟩ := h.collected i rfl
      obtain ⟨k₃, hk₃, hk₃Size, hk₃Mat⟩ := toMatrix_mulSmallb hk₁Size h.kprev hTSize hN
      have hk₃Mat : k₃.toMatrix n N = K i * ST.toMatrix N N := by
        rw [hk₃Mat, hkprev, hSTMat, Matrix.mul_assoc]
      have hle := (hcollected.rank_le (hsucc i rfl) hreduces).2
      have hstep := hcollected.step (hsucc i rfl) hreduces hlast
      rw [← hSTMat, ← hk₃Mat] at hstep
      obtain ⟨kfinal, hkfinal, hkfinalSize, hkfinalMat⟩ :=
        toMatrix_addKernelVectors rank h.kfinal hk₃Size
          (hcollected.rank ▸ Matrix.rank_le_width (K i))
      rw [← hkfinalMat] at hstep
      refine ⟨⟨k₃, k₂, v.kprev, kfinal, ST, v.S, T, zone', kzone', rank, v.rank0⟩, ?_,
        hk₃Size, hk₂Size, h.kprev, hkfinalSize, hSTSize, h.S, hTSize, nofun, ?_⟩
      · simp only [processFile, assertAlways_of_true hdvd, hnrows, assertAlways_true, hread,
          hk₁, hrun, ← hT, hST, hk₂, hk₃, assertAlways_of_true hle, hkfinal,
          bind_eq_bind, bind_some, Nat.succ_ne_zero, if_false]
      · rintro j hj
        obtain rfl : j = i + 1 := by omega
        exact ⟨hstep, hk₂Mat⟩
  · have hrun := Gauss.spannedBasis_eq_none v.kzone fun h => hsound (hpass.mpr h)
    refine Or.inr ⟨hsound, ?_⟩
    simp only [processFile, assertAlways_of_true hdvd, hnrows, assertAlways_true,
      hread, hk₁, hrun, bind_eq_bind, bind_some, bind_none]

/-! ## The whole run -/

/-- The matrices in the files. -/
def inputs (n N : ℕ) (files : List FlatFile) (i : ℕ) : Matrix (Fin n) (Fin N) (ZMod 2) :=
  match files[i]? with
  | some f => fileMatrix n N f
  | none => 0

theorem inv_start (mem : ℕ → Words) (M : Matrix (Fin n) (Fin n) (ZMod 2))
    (K : ℕ → Matrix (Fin n) (Fin N) (ZMod 2)) : Inv M K 0 (start mem N n) where
  k := ⟨rfl, rfl⟩
  kprev := ⟨rfl, rfl⟩
  kS := ⟨rfl, rfl⟩
  kfinal := ⟨rfl, rfl⟩
  S := ⟨rfl, rfl⟩
  ST := ⟨rfl, rfl⟩
  T := ⟨rfl, rfl⟩
  start := fun _ => ⟨(toMatrix_setIdentity ⟨rfl, rfl⟩).2, (toMatrix_setZero ⟨rfl, rfl⟩).2⟩
  collected := fun j hj => by omega

/-- No assertion of `check_soundness` fails in any pass that is reached. -/
def RunSound (b : Build) (mem : ℕ → Words) (n N : ℕ) (files : List FlatFile) : Prop :=
  ∀ i f v, files[i]? = some f → passes b mem N n files i = some v → PassSound b n N f v

section Run

variable (b : Build) (mem : ℕ → Words) {files : List FlatFile}
  {M : Matrix (Fin n) (Fin n) (ZMod 2)} (hN : N % 64 = 0) (hpos : N ≠ 0) (hne : files ≠ [])
  (hn : n < 2 ^ 32) (hcol : N * ((n + 63) / 64) ≤ 2 ^ 32) (hrow : N * (N / 64) ≤ 2 ^ 32)
  (hsize : ∀ f ∈ files, f.size = n * (N / 8))
  (hchain : Chain M (inputs n N files) (files.length - 1))

include hN hpos hn hcol hrow hsize hchain

/-- All passes run, or the assertion fails in one of them. -/
theorem passes_spec :
    (RunSound b mem n N files ∧ ∃ v, passes b mem N n files files.length = some v ∧
      Inv M (inputs n N files) files.length v) ∨
    ¬RunSound b mem n N files ∧ passes b mem N n files files.length = none := by
  have hloop := forRangeM_induct_or
    (motive := fun i v => passes b mem N n files i = some v ∧ Inv M (inputs n N files) i v ∧
      ∀ j < i, ∀ f w, files[j]? = some f → passes b mem N n files j = some w →
        PassSound b n N f w)
    (q := ¬RunSound b mem n N files)
    (fun i v => files[i]?.bind fun f => processFile b N n i f v) (start mem N n) files.length
    ⟨rfl, inv_start mem M _, fun j hj => absurd hj (Nat.not_lt_zero j)⟩ ?_
  · refine hloop.imp_left ?_
    rintro ⟨v, hrun, -, hinv, hsound⟩
    refine ⟨fun i f w hf hw => ?_, v, hrun, hinv⟩
    exact hsound i (List.getElem?_eq_some_iff.mp hf).1 f w hf hw
  · rintro i hi v ⟨hrun, hinv, hsound⟩
    have hget : files[i]? = some files[i] := List.getElem?_eq_getElem hi
    have hinput : fileMatrix n N files[i] = inputs n N files i := by rw [inputs, hget]
    have hnext : passes b mem N n files (i + 1) = processFile b N n i files[i] v := by
      rw [passes, forRangeM, ← passes, hrun, bind_some, hget, bind_some]
    rw [hget]
    rcases processFile_spec hinv hN hpos hn hcol hrow (hsize _ (List.getElem_mem hi)) hinput
      fun j hj => hchain.succ j (by omega) with ⟨hpass, v', hv', hinv'⟩ | ⟨hpass, hnone⟩
    · refine Or.inl ⟨v', hv', hnext.trans hv', hinv', fun j hj f w hf hw => ?_⟩
      rcases Nat.lt_succ_iff_lt_or_eq.mp hj with hlt | rfl
      · exact hsound j hlt f w hf hw
      · rw [hget] at hf
        rw [hrun] at hw
        cases hf
        cases hw
        exact hpass
    · exact Or.inr ⟨fun hall => hpass (hall i _ v hget hrun), hnone⟩

include hne

theorem cleanup_spec :
    (RunSound b mem n N files ∧ ∃ out, cleanup b mem N files = some out ∧
      out.size = n * (N / 8) ∧
      (IsKernelBasis M (inputs n N files) (files.length - 1) (fileMatrix n N out) ↔
        Clean (inputs n N files) (files.length - 1))) ∨
    ¬RunSound b mem n N files ∧ cleanup b mem N files = none := by
  have hrun := passes_spec b mem hN hpos hn hcol hrow hsize hchain
  obtain ⟨f0, rest, rfl⟩ := List.exists_cons_of_ne_nil hne
  have hnrows : f0.size / (N / 8) % 2 ^ 32 = n := by
    rw [hsize f0 List.mem_cons_self, Nat.mul_div_cancel n (by omega), Nat.mod_eq_of_lt hn]
  rcases hrun with ⟨hsound, v, hrun, hv⟩ | ⟨hsound, hrun⟩
  · obtain ⟨hcollected, hkprev⟩ := hv.collected rest.length rfl
    obtain ⟨kfinal, hkfinal, hkfinalSize, hkfinalMat⟩ :=
      toMatrix_copyColrange 0 hv.kfinal hv.kprev
        (hcollected.rank ▸ Matrix.rank_le_width _)
    obtain ⟨hwrite, hwriteSize, hwriteMat⟩ := fileMatrix_writeToFlatFile hkfinalSize hN
    refine Or.inl ⟨hsound, kfinal.fileOf 0 0 n N, ?_, hwriteSize, ?_⟩
    · simp only [cleanup, assertAlways_of_true hpos, assertAlways_of_true hN,
        List.head?_cons, hnrows, bind_eq_bind, bind_some, hrun, hkfinal, hwrite]
    · have hlast : Chain M (inputs n N (f0 :: rest)) rest.length := hchain
      have hiff := hcollected.isKernelBasis_iff hlast
      rw [← hkprev] at hiff
      rw [hwriteMat, hkfinalMat]
      exact hiff
  · refine Or.inr ⟨hsound, ?_⟩
    simp only [cleanup, assertAlways_of_true hpos, assertAlways_of_true hN, List.head?_cons,
      hnrows, bind_eq_bind, bind_some, hrun, bind_none]

end Run

theorem runSound_of_ndebug {b : Build} (h : b.ndebug = true) (mem : ℕ → Words) (n N : ℕ)
    (files : List FlatFile) : RunSound b mem n N files :=
  fun _ _ _ _ _ _ _ _ _ => Or.inl h

/-- The unit vectors, and then zeros: the rank drops from 64 to 0. -/
def unitFiles : List FlatFile :=
  [⟨512, fun x => 1#64 <<< x⟩, ⟨512, fun _ => 0#64⟩]

/-- Three rows: the first two vectors, then the image of the second one. -/
def lostFiles : List FlatFile :=
  [⟨24, fun x => if x = 0 then 1#64 else if x = 1 then 2#64 else 0#64⟩,
    ⟨24, fun x => if x = 2 then 2#64 else 0#64⟩]

/-- The matrix that sends the second unit vector to the third one and the others to
zero. -/
def lostMatrix : Matrix (Fin 3) (Fin 3) (ZMod 2) :=
  Matrix.of fun i j => if i = 2 ∧ j = 1 then 1 else 0

theorem lostFiles_chain : Chain lostMatrix (inputs 3 64 lostFiles) 1 ∧
    Drop (inputs 3 64 lostFiles) 0 := by
  have hsucc : inputs 3 64 lostFiles 1 = lostMatrix * inputs 3 64 lostFiles 0 := by
    decide +kernel
  have hlast : lostMatrix * inputs 3 64 lostFiles 1 = 0 := by decide +kernel
  have hone : inputs 3 64 lostFiles 1 = Matrix.vecMulVec (fun i => if i = 2 then 1 else 0)
      fun j => if j = 1 then 1 else 0 := by
    decide +kernel
  have htwo : (inputs 3 64 lostFiles 0).submatrix (Fin.castLE (show 2 ≤ 3 by decide))
      (Fin.castLE (show 2 ≤ 64 by decide)) = 1 := by
    decide +kernel
  refine ⟨⟨fun i hi => ?_, hlast⟩, ?_⟩
  · obtain rfl : i = 0 := by omega
    exact hsucc
  · have hle : (inputs 3 64 lostFiles 1).rank ≤ 1 := by
      rw [hone]
      exact Matrix.rank_vecMulVec_le _ _
    have hge := Matrix.rank_submatrix_le (inputs 3 64 lostFiles 0)
      (Fin.castLE (show 2 ≤ 3 by decide)) (Fin.castLE (show 2 ≤ 64 by decide))
    rw [htwo, Matrix.rank_one, Fintype.card_fin] at hge
    exact lt_of_le_of_lt hle hge

end Cleanup

end CadoNfs
