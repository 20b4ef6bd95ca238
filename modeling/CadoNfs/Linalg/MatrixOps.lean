import CadoNfs.Lib.ColumnSpan
import CadoNfs.Linalg.BlockMatrix
import CadoNfs.Linalg.SpannedBasis

/-!
# Block matrices as matrices over GF(2)

The operations on block matrices in terms of the matrices that they hold, and the way of a
block matrix into `spanned_basis` and back.

Main results:

- Theorem `toMatrix_mulSmallb`: the product of block matrices, when the rows of the
  second factor fill its blocks.
- Theorem `transposed_copyTransposeToFlat`, `toMatrix_copyTransposeFromFlat`:
  what `spanned_basis` sees of a block matrix, and what comes back.
-/

namespace CadoNfs

open ForRange Gf2 Finset
open ColumnSpan (firstColumns)

namespace BlockMatrix

/-- The matrix that the first rows and columns hold. -/
def toMatrix (m : BlockMatrix) (n N : ℕ) : Matrix (Fin n) (Fin N) (ZMod 2) :=
  Matrix.of fun i j => m.entry i j

/-- The size of a matrix. -/
structure HasSize (m : BlockMatrix) (n N : ℕ) : Prop where
  nrows : m.nrows = n
  ncols : m.ncols = N

variable {a b c c' : BlockMatrix} {f : ℕ → ℕ → ZMod 2} {n N l : ℕ}

theorem HasSize.div_lt_nrblocks (h : a.HasSize n N) {i : ℕ} (hi : i < n) :
    i / 64 < a.nrblocks :=
  a.div_lt_nrblocks (by rwa [h.nrows])

theorem HasSize.div_lt_ncblocks (h : a.HasSize n N) {j : ℕ} (hj : j < N) :
    j / 64 < a.ncblocks :=
  a.div_lt_ncblocks (by rwa [h.ncols])

theorem Writes.hasSize (h : Writes c c' f) (hc : c.HasSize n N) : c'.HasSize n N := by
  rw [h.shape]
  exact ⟨hc.nrows, hc.ncols⟩

theorem Writes.toMatrix (h : Writes c c' f) (hc : c.HasSize n N) :
    c'.toMatrix n N = Matrix.of fun (i : Fin n) (j : Fin N) => f i j := by
  ext i j
  have hblocks := c.ncblocks_eq
  have hcols := hc.ncols
  have hj := j.isLt
  exact h.entry i (hc.nrows ▸ i.isLt) j (by omega)

/-- `blockmatrix_mul_smallb` when the rows of the second factor fill its blocks. -/
theorem toMatrix_mulSmallb (hc : c.HasSize n l) (ha : a.HasSize n N) (hb : b.HasSize N l)
    (hN : N % 64 = 0) :
    ∃ c', mulSmallb c a b = some c' ∧ c'.HasSize n l ∧
      c'.toMatrix n l = a.toMatrix n N * b.toMatrix N l := by
  obtain ⟨c', hrun, hwrites⟩ := mulSmallb_spec (hc.nrows.trans ha.nrows.symm)
    (hc.ncols.trans hb.ncols.symm) (ha.ncols.trans hb.nrows.symm) (fun k hk hlt => by
      have := b.nrblocks_eq
      have := hb.nrows
      omega)
  refine ⟨c', hrun, hwrites.hasSize hc, ?_⟩
  rw [hwrites.toMatrix hc, ha.ncols]
  ext i j
  exact Finset.sum_range fun k => a.entry i k * b.entry k j

theorem toMatrix_copyColrange (j0 : ℕ) {j1 : ℕ} (hb : b.HasSize n N) (ha : a.HasSize n N)
    (hj1 : j1 ≤ N) :
    ∃ b', copyColrange b a j0 j1 = some b' ∧ b'.HasSize n N ∧
      b'.toMatrix n N = Matrix.of fun (i : Fin n) (j : Fin N) =>
        if j0 ≤ (j : ℕ) ∧ (j : ℕ) < j1 then a.toMatrix n N i j else b.toMatrix n N i j := by
  obtain ⟨b', hrun, hwrites, -⟩ := copyColrange_spec (ha.nrows.trans hb.nrows.symm)
    (ha.ncols.trans hb.ncols.symm) (ha.ncols ▸ hj1)
  exact ⟨b', hrun, hwrites.hasSize hb, hwrites.toMatrix hb⟩

theorem toMatrix_setZero (ha : a.HasSize n N) :
    a.setZero.HasSize n N ∧ a.setZero.toMatrix n N = 0 := by
  refine ⟨⟨ha.nrows, ha.ncols⟩, ?_⟩
  ext i j
  have hword := a.setZero_block (ha.div_lt_nrblocks i.isLt) (ha.div_lt_ncblocks j.isLt)
    (Nat.mod_lt (i : ℕ) (by decide))
  exact (congrArg (bit · ((j : ℕ) % 64)) hword).trans (bit_zero _)

theorem toMatrix_setIdentity (ha : a.HasSize n n) :
    a.setIdentity.HasSize n n ∧ a.setIdentity.toMatrix n n = 1 := by
  refine ⟨⟨ha.nrows, ha.ncols⟩, ?_⟩
  have hzero := (toMatrix_setZero ha).2
  obtain rfl := ha.ncols
  have hloop := forRange_induct
    (motive := fun k (words : Words) => ∀ i < a.ncols, ∀ j < a.ncols,
      bit (words (a.block (i / 64) (j / 64) + i % 64)) (j % 64) = if i < k ∧ i = j then 1 else 0)
    (fun i (words : Words) => Function.update words (a.block (i / 64) (i / 64) + i % 64)
      (words (a.block (i / 64) (i / 64) + i % 64) ^^^ (1#64 <<< (i % 64))))
    a.setZero.words a.ncols ?_ ?_
  · ext i j
    have hbit := hloop i i.isLt j j.isLt
    rw [Matrix.one_apply]
    refine hbit.trans (if_congr ?_ rfl rfl)
    rw [and_iff_right i.isLt, Fin.ext_iff]
  · intro i hi j hj
    rw [if_neg (by omega)]
    exact congrFun (congrFun hzero ⟨i, hi⟩) ⟨j, hj⟩
  · intro k hk words hwords i hi j hj
    have hI := ha.div_lt_nrblocks hi
    have hK := ha.div_lt_nrblocks hk
    have hr : ∀ x : ℕ, x % 64 < 64 := fun x => Nat.mod_lt x (by decide)
    by_cases hcell : a.block (i / 64) (j / 64) + i % 64 = a.block (k / 64) (k / 64) + k % 64
    · obtain ⟨hdiv, hdiv', hmod⟩ := a.block_add_inj hI hK (hr i) (hr k) hcell
      have hik : i = k := by omega
      subst hik
      have hold := hwords i hi j hj
      rw [hdiv'] at hold ⊢
      rw [Function.update_self, bit_xor, hold, if_neg (by omega), zero_add, bit_one_shift (hr i)]
      exact if_congr (by omega) rfl rfl
    · have hne : i ≠ k ∨ j / 64 ≠ k / 64 := by
        by_contra hnot
        push Not at hnot
        exact hcell (by rw [hnot.1, hnot.2])
      rw [Function.update_of_ne hcell, hwords i hi j hj]
      exact if_congr (by omega) rfl rfl

end BlockMatrix

namespace Gauss

variable {G : Params} {m : BlockMatrix}

/-- `spanned_basis` sees the transpose of the block matrix that was copied. -/
theorem transposed_copyTransposeToFlat (tiny : Words) (hm : m.HasSize G.ncols G.nrows)
    (hstride : G.limbsPerRow = m.nrblocks) (hfits : 64 * m.ncblocks * m.nrblocks ≤ 2 ^ 32) :
    transposed G (BlockMatrix.copyTransposeToFlat tiny G.limbsPerRow 0 0 m)
      = m.toMatrix G.ncols G.nrows := by
  rw [hstride]
  have hkeeps : BlockMatrix.TransposeKeeps m.nrows m.ncols m.nrblocks 0 0 :=
    BlockMatrix.transposeKeeps_of_fits (by rw [← m.nrblocks_eq]; omega)
      (by rwa [← m.ncblocks_eq, zero_add])
  ext x c
  have hc := hm.div_lt_ncblocks c.isLt
  have hbit := BlockMatrix.bit_copyTransposeToFlat tiny hkeeps
    (hm.div_lt_nrblocks x.isLt) hc (Nat.mod_lt (c : ℕ) (by decide)) (Nat.mod_lt (x : ℕ) (by decide))
  rw [BlockMatrix.flatBlock_add (Nat.mod_lt _ (by decide)) ((Nat.mul_le_mul_right _
    (by omega)).trans hfits), Nat.div_add_mod, zero_add, Nat.zero_div, zero_add, mul_comm,
    ← hstride] at hbit
  rw [← hstride]
  exact hbit

/-- The first rows that `spanned_basis` leaves come back as the columns of a block
matrix. -/
theorem toMatrix_copyTransposeFromFlat {l : ℕ} (lmat : Words) (hm : m.HasSize G.nrows l)
    (hl : l ≤ G.nrows) (hfits : 64 * m.ncblocks * G.limbsPerCol ≤ 2 ^ 32) :
    (BlockMatrix.copyTransposeFromFlat m lmat G.limbsPerCol 0 0).HasSize G.nrows l ∧
      (BlockMatrix.copyTransposeFromFlat m lmat G.limbsPerCol 0 0).toMatrix G.nrows l
        = firstColumns (basisOf G lmat) hl := by
  refine ⟨⟨hm.nrows, hm.ncols⟩, ?_⟩
  ext y p
  have hrows := hm.div_lt_nrblocks y.isLt
  have hcols := hm.div_lt_ncblocks p.isLt
  have hentry := @BlockMatrix.entry_copyTransposeFromFlat m lmat G.limbsPerCol 0 0 y p (by omega)
    (by omega)
  rw [BlockMatrix.flatBlock_add (Nat.mod_lt _ (by decide)) ((Nat.mul_le_mul_right _
    (by omega)).trans hfits), Nat.div_add_mod, zero_add, Nat.zero_div, zero_add, mul_comm] at hentry
  exact hentry

end Gauss

end CadoNfs
