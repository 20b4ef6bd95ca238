import Mathlib.Data.List.GetD
import CadoNfs.Linalg.LingenSeries

/-!
# The output of `lingen_binary`

The function `bw_commit_f`: the interesting columns of the generator are written with their
coefficients in reverse, each column from its own degree.

Main results:

- Theorem `ReadsAt.advance`: a mask and an offset walk down a polynomial.
- Theorem `commitBlock_spec`: the bits of one block of the file.
- Theorem `bwCommitF_spec`: the blocks of the file.
-/

namespace CadoNfs.Lingen

open Function (update update_of_ne update_self)
open ForRange Gf2
open List (getElem_mem length_append length_map length_range range)

/-! ## Code -/

/-- The variables of the first loop of `bw_commit_f`. -/
structure PickState where
  pick : ℕ → ℕ
  nres : ℕ
  ncoef : ℕ

/-- The first loop of `bw_commit_f`. -/
def pickColumn (n : ℕ) (chanceList : ℕ → ℕ) (F : Polmat) (j : ℕ) (s : PickState) :
    Option PickState := do
  if chanceList j ≠ 0 then
    assertAlways (F.deg j ≠ -1)
    let ncoef := max s.ncoef ((1 + F.deg j) % 2 ^ 32).toNat
    assertAlways (s.nres < n)
    some ⟨update s.pick s.nres j, s.nres + 1, ncoef⟩
  else
    some s

/-- The arrays `fmasks` and `foffsets`. -/
structure Reading where
  fmasks : ℕ → BitVec 64
  foffsets : ℕ → ℕ

/-- Every column is read from its degree. -/
def startReading (pick delta : ℕ → ℕ) : Reading where
  fmasks := fun i => 1#64 <<< (delta (pick i) % 64)
  foffsets := fun i => delta (pick i) / 64

/-- The variables of the loops that fill `buf`. -/
structure BlockState where
  buf : Words
  v : ℕ
  lmask : BitVec 64

/-- One bit of a block, read from the polynomial `poly`; `none` stands for a word beyond
`buf`. -/
def commitBit (ulongsPerMat : ℕ) (poly : Words) (fmask : BitVec 64) (foffset : ℕ)
    (s : BlockState) : Option BlockState := do
  let buf ←
    if foffset ≠ 2 ^ 32 - 1 then
      if s.v < ulongsPerMat then
        some (update s.buf s.v (s.buf s.v |||
          (s.lmask &&& -(if poly foffset &&& fmask ≠ 0#64 then 1#64 else 0#64))))
      else none
    else some s.buf
  let lmask := s.lmask <<< 1
  let v := s.v + (if lmask = 0#64 then 1 else 0)
  let lmask := lmask + (if lmask = 0#64 then 1#64 else 0#64)
  some ⟨buf, v, lmask⟩

/-- The block that is written for one value of `k`. -/
def commitBlock (n ulongsPerMat nres : ℕ) (pick : ℕ → ℕ) (F : Polmat) (r : Reading) :
    Option (List (BitVec 64)) := do
  let s ← forRangeM nres (fun i s => forRangeM n (fun j s =>
    commitBit ulongsPerMat (fun l => F.x (F.poly j (pick i) + l)) (r.fmasks i) (r.foffsets i) s) s)
    ⟨fun _ => 0#64, 0, 1#64⟩
  some ((range ulongsPerMat).map s.buf)

/-- The mask and the offset of the column `i` after a block. -/
def advanceColumn (i : ℕ) (r : Reading) : Reading :=
  if r.foffsets i = 2 ^ 32 - 1 then r
  else
    let fmask := r.fmasks i >>> 1
    let foffset := (r.foffsets i + 2 ^ 32 - (if fmask = 0#64 then 1 else 0)) % 2 ^ 32
    let fmask := fmask + (if fmask = 0#64 then 1#64 else 0#64) <<< 63
    ⟨update r.fmasks i fmask, update r.foffsets i foffset⟩

/-- The masks and the offsets after a block. -/
def advance (nres : ℕ) (r : Reading) : Reading :=
  forRange nres advanceColumn r

/-- `bw_commit_f` for the globals `m`, `n`, `chance_list` and `delta`: the
blocks of the file. -/
def bwCommitF (m n : ℕ) (chanceList delta : ℕ → ℕ) (F : Polmat) :
    Option (List (List (BitVec 64))) := do
  let s ← forRangeM (m + n) (pickColumn n chanceList F) ⟨fun _ => 0, 0, 0⟩
  assertAlways (n % 64 = 0)
  let ulongsPerMat := n * n % 2 ^ 32 / 64
  let out ← forRangeM s.ncoef (fun _ (r, blocks) => do
    let block ← commitBlock n ulongsPerMat s.nres s.pick F r
    some (advance s.nres r, blocks ++ [block])) (startReading s.pick delta, [])
  some out.2

/-! ## The masks and the offsets -/

section Reading

variable {d k nres : ℕ} {pick delta : ℕ → ℕ} {r : Reading} {mask : BitVec 64} {offset : ℕ}

/-- A mask and an offset at the coefficient of degree `d - k`, or past the end. -/
def ReadsAt (d k : ℕ) (mask : BitVec 64) (offset : ℕ) : Prop :=
  if d < k then offset = 2 ^ 32 - 1
  else mask = 1#64 <<< ((d - k) % 64) ∧ offset = (d - k) / 64

/-- The arrays when `k` blocks have been written. -/
def Reading.At (r : Reading) (pick delta : ℕ → ℕ) (nres k : ℕ) : Prop :=
  ∀ i < nres, ReadsAt (delta (pick i)) k (r.fmasks i) (r.foffsets i)

theorem startReading_at (pick delta : ℕ → ℕ) (nres : ℕ) :
    (startReading pick delta).At pick delta nres 0 := by
  intro i _
  rw [ReadsAt, if_neg (Nat.not_lt_zero _), Nat.sub_zero]
  exact ⟨rfl, rfl⟩

theorem one_shift_down {t : ℕ} (ht : t < 64) :
    (1#64 <<< t) >>> 1 = if t = 0 then 0#64 else 1#64 <<< (t - 1) := by
  interval_cases t <;> decide

/-- The step from a coefficient to the one below. -/
theorem ReadsAt.advance (h : ReadsAt d k mask offset) (hd : d < 2 ^ 32)
    (hoffset : offset ≠ 2 ^ 32 - 1) :
    ReadsAt d (k + 1) (mask >>> 1 + (if mask >>> 1 = 0#64 then 1#64 else 0#64) <<< 63)
      ((offset + 2 ^ 32 - (if mask >>> 1 = 0#64 then 1 else 0)) % 2 ^ 32) := by
  unfold ReadsAt at h ⊢
  by_cases hk : d < k
  · rw [if_pos hk] at h
    exact absurd h hoffset
  rw [if_neg hk] at h
  obtain ⟨rfl, rfl⟩ := h
  have hlt := Nat.mod_lt (d - k) (show 0 < 64 by decide)
  rw [one_shift_down hlt]
  by_cases hzero : (d - k) % 64 = 0
  · rw [if_pos hzero, if_pos rfl, if_pos rfl]
    by_cases hlast : d < k + 1
    · rw [if_pos hlast]
      omega
    · rw [if_neg hlast]
      have hmod : (d - (k + 1)) % 64 = 63 := by omega
      rw [hmod]
      exact ⟨by decide, by omega⟩
  · have hmod : (d - (k + 1)) % 64 = (d - k) % 64 - 1 := by omega
    have hne : 1#64 <<< ((d - k) % 64 - 1) ≠ 0#64 := mt (one_shift_eq_zero_iff _).mp (by omega)
    rw [if_neg hzero, if_neg hne, if_neg hne, if_neg (by omega), hmod]
    refine ⟨?_, by omega⟩
    rw [BitVec.zero_shiftLeft, BitVec.add_zero]

theorem advanceColumn_at {i : ℕ} (h : ReadsAt d k (r.fmasks i) (r.foffsets i)) (hd : d < 2 ^ 32) :
    ReadsAt d (k + 1) ((advanceColumn i r).fmasks i) ((advanceColumn i r).foffsets i) := by
  unfold advanceColumn
  by_cases hend : r.foffsets i = 2 ^ 32 - 1
  · rw [if_pos hend]
    unfold ReadsAt at h ⊢
    by_cases hk : d < k
    · rw [if_pos (by omega)]
      exact hend
    · rw [if_neg hk] at h
      omega
  · rw [if_neg hend]
    dsimp only
    rw [update_self, update_self]
    exact h.advance hd hend

theorem advanceColumn_of_ne {i t : ℕ} (hne : i ≠ t) (r : Reading) :
    (advanceColumn t r).fmasks i = r.fmasks i ∧ (advanceColumn t r).foffsets i = r.foffsets i := by
  unfold advanceColumn
  split_ifs
  · exact ⟨rfl, rfl⟩
  · exact ⟨update_of_ne hne _ _, update_of_ne hne _ _⟩

theorem Reading.At.advance (h : r.At pick delta nres k)
    (hdelta : ∀ i < nres, delta (pick i) < 2 ^ 32) :
    (advance nres r).At pick delta nres (k + 1) := by
  have hloop := forRange_induct
    (motive := fun t (r : Reading) => ∀ i < nres,
      ReadsAt (delta (pick i)) (if i < t then k + 1 else k) (r.fmasks i) (r.foffsets i))
    advanceColumn r nres (fun i hi => h i hi) ?_
  · intro i hi
    have hat := hloop i hi
    rwa [if_pos hi] at hat
  · intro t ht r hr i hi
    have hold := hr i hi
    by_cases heq : i = t
    · subst heq
      rw [if_neg (lt_irrefl i)] at hold
      rw [if_pos (Nat.lt_succ_self i)]
      exact advanceColumn_at hold (hdelta i hi)
    · obtain ⟨hmask, hoffset⟩ := advanceColumn_of_ne heq r
      rw [hmask, hoffset]
      have hiff : i < t ↔ i < t + 1 := by omega
      simpa only [hiff] using hold

end Reading

/-! ## One block -/

section Block

variable {d k n p ulongsPerMat nres : ℕ} {pick delta : ℕ → ℕ} {s : BlockState} {F : Polmat}

/-- The place of the bit `p` of a block. -/
structure BlockState.At (s : BlockState) (p : ℕ) : Prop where
  v : s.v = p / 64
  lmask : s.lmask = 1#64 <<< (p % 64)

theorem and_neg_ite (w : BitVec 64) (c : Prop) [Decidable c] :
    w &&& -(if c then 1#64 else 0#64) = if c then w else 0#64 := by
  split_ifs
  · rw [BitVec.neg_one_eq_allOnes, BitVec.and_allOnes]
  · rw [BitVec.neg_zero, BitVec.and_zero]

theorem BlockState.At.next (h : s.At p) (buf : Words) :
    BlockState.At ⟨buf, s.v + (if s.lmask <<< 1 = 0#64 then 1 else 0),
      s.lmask <<< 1 + (if s.lmask <<< 1 = 0#64 then 1#64 else 0#64)⟩ (p + 1) := by
  have hnext := next_column (w := 64) (by decide) p
  rw [← h.v, ← h.lmask] at hnext
  by_cases hlast : s.lmask <<< 1 = 0#64
  · rw [if_pos hlast, Prod.mk.injEq] at hnext
    rw [if_pos hlast, if_pos hlast, hlast, BitVec.zero_add]
    exact ⟨hnext.1, hnext.2⟩
  · rw [if_neg hlast, Prod.mk.injEq] at hnext
    rw [if_neg hlast, if_neg hlast, Nat.add_zero, BitVec.add_zero]
    exact ⟨hnext.1, hnext.2⟩

/-- One bit is written and the place moves on. -/
theorem commitBit_spec {poly : Words} {fmask : BitVec 64} {foffset : ℕ} (hs : s.At p)
    (hp : p < 64 * ulongsPerMat) (hr : ReadsAt d k fmask foffset) (hd : d < 2 ^ 32)
    (hzero : arrayBit s.buf p = 0) :
    ∃ s', commitBit ulongsPerMat poly fmask foffset s = some s' ∧ s'.At (p + 1) ∧
      ∀ x, arrayBit s'.buf x =
        if x = p then (if d < k then 0 else arrayBit poly (d - k)) else arrayBit s.buf x := by
  unfold ReadsAt at hr
  by_cases hk : d < k
  · rw [if_pos hk] at hr
    refine ⟨_, by rw [commitBit, if_neg (not_not.mpr hr)]; rfl, hs.next _, fun x => ?_⟩
    dsimp only
    rw [if_pos hk]
    by_cases hx : x = p
    · rw [if_pos hx, hx, hzero]
    · rw [if_neg hx]
  · rw [if_neg hk] at hr
    obtain ⟨rfl, rfl⟩ := hr
    have hv : s.v < ulongsPerMat := hs.v ▸ Nat.div_lt_of_lt_mul hp
    refine ⟨_, by rw [commitBit, if_pos (by omega), if_pos hv]; rfl, hs.next _, fun x => ?_⟩
    dsimp only
    rw [if_neg hk, and_neg_ite, hs.v, hs.lmask]
    have htest := and_one_shift_ne_zero_iff (poly ((d - k) / 64))
      (Nat.mod_lt (d - k) (show 0 < 64 by decide))
    by_cases hbit : bit (poly ((d - k) / 64)) ((d - k) % 64) = 1
    · rw [if_pos (htest.mpr hbit), arrayBit_setBit (by decide)]
      rw [show arrayBit poly (d - k) = 1 from hbit]
    · have hbit' : arrayBit poly (d - k) = 0 := (eq_zero_or_one _).resolve_right hbit
      rw [if_neg (mt htest.mp hbit), BitVec.or_zero, Function.update_eq_self, hbit']
      by_cases hx : x = p
      · rw [if_pos hx, hx, hzero]
      · rw [if_neg hx]

/-- The bit of a block at the row `i` and the column `j`. -/
def reversedCoeff (F : Polmat) (pick delta : ℕ → ℕ) (k i j : ℕ) : ZMod 2 :=
  if delta (pick i) < k then 0 else F.coeff j (pick i) (delta (pick i) - k)

/-- The bits of a block up to the bit `p`. -/
def Filled (F : Polmat) (pick delta : ℕ → ℕ) (n k p : ℕ) (buf : Words) : Prop :=
  ∀ x, arrayBit buf x = if x < p then reversedCoeff F pick delta k (x / n) (x % n) else 0

/-- The bits of one block. -/
theorem commitBlock_spec {r : Reading} (hr : r.At pick delta nres k) (hnres : nres ≤ n)
    (hwords : n * n = 64 * ulongsPerMat) (hdelta : ∀ i < nres, delta (pick i) < 2 ^ 32) :
    ∃ buf, commitBlock n ulongsPerMat nres pick F r = some ((range ulongsPerMat).map buf) ∧
      Filled F pick delta n k (nres * n) buf := by
  have hrows := forRangeM_induct
    (motive := fun i (s : BlockState) => s.At (i * n) ∧ Filled F pick delta n k (i * n) s.buf)
    (fun i s => forRangeM n (fun j s =>
      commitBit ulongsPerMat (fun l => F.x (F.poly j (pick i) + l)) (r.fmasks i) (r.foffsets i) s)
      s) ⟨fun _ => 0#64, 0, 1#64⟩ nres ?_ ?_
  · obtain ⟨s, hrun, -, hfilled⟩ := hrows
    refine ⟨s.buf, ?_, hfilled⟩
    rw [commitBlock, hrun]
    rfl
  · refine ⟨⟨by rw [Nat.zero_mul], by rw [Nat.zero_mul]; rfl⟩, fun x => ?_⟩
    rw [Nat.zero_mul, if_neg (Nat.not_lt_zero x)]
    exact bit_zero _
  · rintro i hi s ⟨hs, hfilled⟩
    have hrow := forRangeM_induct
      (motive := fun j (s : BlockState) =>
        s.At (i * n + j) ∧ Filled F pick delta n k (i * n + j) s.buf)
      (fun j s => commitBit ulongsPerMat (fun l => F.x (F.poly j (pick i) + l)) (r.fmasks i)
        (r.foffsets i) s) s n ⟨hs, hfilled⟩ ?_
    · obtain ⟨s', hrun, hdone⟩ := hrow
      rw [← Nat.succ_mul] at hdone
      exact ⟨s', hrun, hdone⟩
    · rintro j hj s ⟨hs, hfilled⟩
      have hp : i * n + j < 64 * ulongsPerMat := by
        have hle : (i + 1) * n ≤ n * n := Nat.mul_le_mul_right n (by omega)
        rw [Nat.succ_mul] at hle
        omega
      have hzero : arrayBit s.buf (i * n + j) = 0 := by rw [hfilled, if_neg (lt_irrefl _)]
      obtain ⟨s', hrun, hs', hbits⟩ := commitBit_spec hs hp (hr i hi) (hdelta i hi) hzero
      refine ⟨s', hrun, hs', fun x => ?_⟩
      rw [hbits x]
      by_cases hx : x = i * n + j
      · have hdiv : x / n = i := by
          rw [hx, Nat.mul_comm, Nat.mul_add_div (by omega), Nat.div_eq_of_lt hj, Nat.add_zero]
        have hmod : x % n = j := by
          rw [hx, Nat.mul_comm, Nat.mul_add_mod, Nat.mod_eq_of_lt hj]
        rw [if_pos hx, if_pos (show x < i * n + (j + 1) by omega), hdiv, hmod]
        rfl
      · rw [if_neg hx, hfilled x]
        have hiff : x < i * n + j ↔ x < i * n + (j + 1) := by omega
        simp [hiff]

end Block

/-! ## The file -/

section File

/-- A generator: a matrix of `n` rows and `m + n` columns, with the degrees of its columns
below the number of coefficients and with addresses of 32 bits, as `poly` computes them. -/
structure Generator (m n : ℕ) extends Polmat where
  nrows_eq : nrows = n
  ncols_eq : ncols = m + n
  deg_lt : ∀ j < ncols, degs j < ncoef
  addressable : ncols * nrows * ((ncoef + 63) / 64) < 2 ^ 32

variable {m n : ℕ} {chanceList delta : ℕ → ℕ}

/-- The interesting columns among the first `t`. -/
def picked (chanceList : ℕ → ℕ) (t : ℕ) : List ℕ :=
  (range t).filter fun j => 0 < chanceList j

/-- The file of `bw_commit_f` for the columns of the list `cols`: the coefficients of
`F` in reverse. -/
structure IsReversal (n : ℕ) (cols : List ℕ) (delta : ℕ → ℕ) (F : Polmat)
    (blocks : List (List (BitVec 64))) : Prop where
  count : IsGreatest {d | ∃ j ∈ cols, d = 1 + delta j} blocks.length
  size : ∀ b ∈ blocks, 64 * b.length = n * n
  picked : ∀ k (hk : k < blocks.length), ∀ i (hi : i < cols.length), ∀ j < n,
    arrayBit (fun l => blocks[k].getD l 0#64) (i * n + j)
      = if delta cols[i] < k then 0 else (entryPoly F j cols[i]).coeff (delta cols[i] - k)
  padding : ∀ k (hk : k < blocks.length), ∀ i, cols.length ≤ i → i < n → ∀ j < n,
    arrayBit (fun l => blocks[k].getD l 0#64) (i * n + j) = 0
  once : ∀ i (hi : i < cols.length), Set.BijOn (fun k => delta cols[i] - k)
    {k | k < blocks.length ∧ k ≤ delta cols[i]} {d | d ≤ delta cols[i]}

/-- The variables after the first loop. -/
structure PickState.Done (s : PickState) (delta : ℕ → ℕ) (cols : List ℕ) : Prop where
  pick : (range s.nres).map s.pick = cols
  le : ∀ j ∈ cols, 1 + delta j ≤ s.ncoef
  mem : cols ≠ [] → ∃ j ∈ cols, s.ncoef = 1 + delta j
  empty : cols = [] → s.ncoef = 0

theorem picked_succ (chanceList : ℕ → ℕ) (t : ℕ) :
    picked chanceList (t + 1)
      = if chanceList t ≠ 0 then picked chanceList t ++ [t] else picked chanceList t := by
  unfold picked
  rw [List.range_succ, List.filter_append]
  by_cases ht : chanceList t = 0
  · rw [if_neg (not_not.mpr ht), List.filter_singleton, ht]
    exact List.append_nil _
  · rw [if_pos ht, List.filter_singleton]
    simp only [Nat.pos_of_ne_zero ht, decide_true]
    rfl

/-- The columns with a chance are picked in order. -/
theorem pickColumns_spec {F : Polmat} (hcount : (picked chanceList (m + n)).length ≤ n)
    (hdeg : ∀ j < m + n, 0 < chanceList j → F.deg j = delta j ∧ 1 + delta j < 2 ^ 32) :
    ∃ s, forRangeM (m + n) (pickColumn n chanceList F) ⟨fun _ => 0, 0, 0⟩ = some s ∧
      s.Done delta (picked chanceList (m + n)) := by
  refine forRangeM_induct (motive := fun t (s : PickState) => s.Done delta (picked chanceList t))
    _ _ (m + n) ⟨rfl, ?_, ?_, ?_⟩ ?_
  · exact fun j hj => absurd hj List.not_mem_nil
  · exact fun h => absurd rfl h
  · exact fun _ => rfl
  · intro t ht s hs
    rw [picked_succ, pickColumn]
    by_cases hzero : chanceList t = 0
    · rw [if_neg (not_not.mpr hzero), if_neg (not_not.mpr hzero)]
      exact ⟨s, rfl, hs⟩
    · obtain ⟨hd, hlt⟩ := hdeg t ht (Nat.pos_of_ne_zero hzero)
      have hnres : s.nres = (picked chanceList t).length := by
        rw [← hs.pick, length_map, length_range]
      have hlen : s.nres < n := by
        have hle := ((List.range_sublist.mpr (show t + 1 ≤ m + n from ht)).filter
          fun j => decide (0 < chanceList j)).length_le
        have hsucc := congrArg List.length (picked_succ chanceList t)
        rw [if_pos hzero, length_append, List.length_singleton] at hsucc
        unfold picked at hle hsucc hnres hcount
        omega
      have hcoef : ((1 + (delta t : ℤ)) % 2 ^ 32).toNat = 1 + delta t := by omega
      rw [if_pos hzero, if_pos hzero, hd, hcoef,
        assertAlways_of_true (show (delta t : ℤ) ≠ -1 by omega)]
      refine ⟨⟨update s.pick s.nres t, s.nres + 1, max s.ncoef (1 + delta t)⟩, ?_, ?_⟩
      · rw [some_bind, assertAlways_of_true hlen]
        rfl
      · refine ⟨?_, fun j hj => ?_, fun _ => ?_, fun h => absurd h (by simp)⟩
        · dsimp only
          rw [List.range_succ, List.map_append, List.map_singleton, update_self, ← hs.pick]
          congr 1
          refine List.map_congr_left fun i hi => ?_
          exact update_of_ne (Nat.ne_of_lt (List.mem_range.mp hi)) _ _
        · rcases List.mem_append.mp hj with hold | hnew
          · exact (hs.le j hold).trans (le_max_left _ _)
          · rw [List.mem_singleton.mp hnew]
            exact le_max_right _ _
        · dsimp only
          rcases le_total s.ncoef (1 + delta t) with hle | hle
          · exact ⟨t, List.mem_append_right _ (List.mem_singleton_self t), max_eq_right hle⟩
          · rw [max_eq_left hle]
            by_cases hempty : picked chanceList t = []
            · have hnil := hs.empty hempty
              omega
            · obtain ⟨j, hj, heq⟩ := hs.mem hempty
              exact ⟨j, List.mem_append_left _ hj, heq⟩

/-- One block is written for each degree. -/
theorem writeBlocks_spec {pick : ℕ → ℕ} {nres ulongsPerMat : ℕ} (F : Polmat) (hnres : nres ≤ n)
    (hwords : n * n = 64 * ulongsPerMat) (hdelta : ∀ i < nres, delta (pick i) < 2 ^ 32)
    (ncoef : ℕ) :
    ∃ r blocks, forRangeM ncoef (fun _ (r, blocks) => do
        let block ← commitBlock n ulongsPerMat nres pick F r
        some (advance nres r, blocks ++ [block])) (startReading pick delta, [])
          = some (r, blocks) ∧
      blocks.length = ncoef ∧ ∀ k (hk : k < blocks.length), ∃ buf,
        blocks[k] = (range ulongsPerMat).map buf ∧
          Filled F pick delta n k (nres * n) buf := by
  have hloop := forRangeM_induct
    (motive := fun k (s : Reading × List (List (BitVec 64))) => s.1.At pick delta nres k ∧
      s.2.length = k ∧ ∀ k' (hk' : k' < s.2.length), ∃ buf,
        s.2[k'] = (range ulongsPerMat).map buf ∧ Filled F pick delta n k' (nres * n) buf)
    (fun _ (r, blocks) => do
      let block ← commitBlock n ulongsPerMat nres pick F r
      some (advance nres r, blocks ++ [block])) (startReading pick delta, []) ncoef
    ⟨startReading_at _ _ _, rfl, fun k' hk' => absurd hk' (Nat.not_lt_zero k')⟩ ?_
  · obtain ⟨⟨r, blocks⟩, hrun, -, hblocks⟩ := hloop
    exact ⟨r, blocks, hrun, hblocks⟩
  · rintro k hk ⟨r, blocks⟩ ⟨hr, hlength, hold⟩
    dsimp only at hr hlength hold
    obtain ⟨buf, hblock, hbuf⟩ := commitBlock_spec (F := F) hr hnres hwords hdelta
    refine ⟨(advance nres r, blocks ++ [(range ulongsPerMat).map buf]), ?_,
      hr.advance hdelta, ?_, fun k' hk' => ?_⟩
    · dsimp only
      rw [hblock]
      rfl
    · rw [length_append, List.length_singleton, hlength]
    · dsimp only at hk' ⊢
      by_cases hlt : k' < blocks.length
      · rw [List.getElem_append_left hlt]
        exact hold k' hlt
      · have heq : k' = blocks.length := by
          rw [length_append, List.length_singleton] at hk'
          omega
        refine ⟨buf, List.getElem_concat_length heq _, ?_⟩
        rw [heq, hlength]
        exact hbuf

theorem Generator.small (F : Generator m n) (hn : 64 ≤ n) (hcoef : 0 < F.ncoef) :
    n * n < 2 ^ 32 ∧ F.ncoef < 2 ^ 31 := by
  have haddr := F.addressable
  rw [F.nrows_eq, F.ncols_eq] at haddr
  have hsq : n * n * ((F.ncoef + 63) / 64) < 2 ^ 32 :=
    lt_of_le_of_lt (Nat.mul_le_mul_right _ (Nat.mul_le_mul_right n (Nat.le_add_left n m))) haddr
  constructor
  · have hle := Nat.mul_le_mul_left (n * n) (show 1 ≤ (F.ncoef + 63) / 64 by omega)
    omega
  · have hle := Nat.mul_le_mul_right ((F.ncoef + 63) / 64) (Nat.mul_le_mul hn hn)
    omega

/-- The file has the coefficients of the picked columns in reverse, each of them once. -/
theorem bwCommitF_spec (F : Generator m n) (hn : n % 64 = 0)
    (hsome : picked chanceList (m + n) ≠ []) (hcount : (picked chanceList (m + n)).length ≤ n)
    (hdeg : ∀ j < m + n, 0 < chanceList j → F.deg j = delta j) :
    ∃ blocks, bwCommitF m n chanceList delta F.toPolmat = some blocks ∧
      IsReversal n (picked chanceList (m + n)) delta F.toPolmat blocks := by
  -- the degrees are those of coefficients that are stored
  have hlt : ∀ j < m + n, 0 < chanceList j → delta j < F.ncoef := by
    intro j hj hpos
    have hd := F.deg_lt (F.order j) (F.order_lt j (F.ncols_eq ▸ hj))
    have hdelta := hdeg j hj hpos
    unfold Polmat.deg at hdelta
    omega
  have hmem : ∀ j ∈ picked chanceList (m + n), delta j < F.ncoef := by
    intro j hj
    obtain ⟨hrange, hpos⟩ := List.mem_filter.mp hj
    exact hlt j (List.mem_range.mp hrange) (of_decide_eq_true hpos)
  obtain ⟨j₀, hj₀⟩ := List.exists_mem_of_ne_nil _ hsome
  have hpos : 0 < (picked chanceList (m + n)).length := List.length_pos_of_mem hj₀
  obtain ⟨hsmall, hncoef⟩ := F.small (by omega) (Nat.zero_lt_of_lt (hmem j₀ hj₀))
  obtain ⟨s, hpicks, hs⟩ := pickColumns_spec (F := F.toPolmat) hcount fun j hj hpos =>
    ⟨hdeg j hj hpos, by have := hlt j hj hpos; omega⟩
  generalize picked chanceList (m + n) = cols at *
  have hnres : s.nres = cols.length := by rw [← hs.pick, length_map, length_range]
  have hpick : ∀ i (hi : i < cols.length), s.pick i = cols[i] := by
    intro i hi
    have hget := List.getElem_of_eq hs.pick.symm hi
    rw [List.getElem_map, List.getElem_range] at hget
    exact hget.symm
  have hdelta : ∀ i < s.nres, delta (s.pick i) < 2 ^ 32 := by
    intro i hi
    have hd := hmem _ (getElem_mem (hnres ▸ hi))
    rw [← hpick i (hnres ▸ hi)] at hd
    omega
  have hwords : n * n = 64 * (n * n % 2 ^ 32 / 64) := by
    have hdvd : n * n % 64 = 0 := by rw [Nat.mul_mod, hn]
    rw [Nat.mod_eq_of_lt hsmall]
    omega
  obtain ⟨r, blocks, hrun, hlength, hblocks⟩ := writeBlocks_spec F.toPolmat (hnres ▸ hcount)
    hwords hdelta s.ncoef
  have hbits : ∀ k (hk : k < blocks.length), ∀ i < n, ∀ j < n,
      arrayBit (fun l => blocks[k].getD l 0#64) (i * n + j)
        = if i < cols.length then reversedCoeff F.toPolmat s.pick delta k i j else 0 := by
    intro k hk i hi j hj
    obtain ⟨buf, hbuf, hfilled⟩ := hblocks k hk
    have hle := Nat.mul_le_mul_right n (show i + 1 ≤ n from hi)
    rw [Nat.succ_mul] at hle
    have hword : (i * n + j) / 64 < n * n % 2 ^ 32 / 64 := Nat.div_lt_of_lt_mul (by omega)
    have hget : arrayBit (fun l => blocks[k].getD l 0#64) (i * n + j)
        = arrayBit buf (i * n + j) := by
      unfold arrayBit
      dsimp only
      rw [hbuf, List.getD_eq_getElem _ _ (by rwa [length_map, length_range]),
        List.getElem_map, List.getElem_range]
    have hdiv : (i * n + j) / n = i := by
      rw [Nat.mul_comm, Nat.mul_add_div (Nat.zero_lt_of_lt hj), Nat.div_eq_of_lt hj, Nat.add_zero]
    have hmod : (i * n + j) % n = j := by
      rw [Nat.mul_comm, Nat.mul_add_mod, Nat.mod_eq_of_lt hj]
    have hiff : i * n + j < s.nres * n ↔ i < cols.length := by
      rw [← Nat.div_lt_iff_lt_mul (Nat.zero_lt_of_lt hj), hdiv, hnres]
    rw [hget, hfilled, hdiv, hmod]
    simp [hiff]
  have hgreatest : IsGreatest {d | ∃ j ∈ cols, d = 1 + delta j} blocks.length := by
    rw [hlength]
    refine ⟨hs.mem hsome, ?_⟩
    rintro d ⟨j, hj, rfl⟩
    exact hs.le j hj
  refine ⟨blocks, ?_, hgreatest, ?_, ?_, ?_, ?_⟩
  · rw [bwCommitF, hpicks, some_bind, assertAlways_of_true hn, some_bind]
    dsimp only
    rw [hrun]
    rfl
  · intro b hb
    obtain ⟨k, hk, rfl⟩ := List.mem_iff_getElem.mp hb
    obtain ⟨buf, hbuf, -⟩ := hblocks k hk
    rw [hbuf, length_map, length_range]
    exact hwords.symm
  · intro k hk i hi j hj
    rw [hbits k hk i (by omega) j hj, if_pos hi, reversedCoeff, hpick i hi, coeff_entryPoly]
    have hd := hmem _ (getElem_mem hi)
    split_ifs
    · rfl
    · rfl
    · omega
  · intro k hk i hle hi j hj
    rw [hbits k hk i hi j hj, if_neg (not_lt.mpr hle)]
  · intro i hi
    have hd := hgreatest.2 ⟨cols[i], getElem_mem hi, rfl⟩
    refine ⟨fun k _ => Nat.sub_le _ _, fun k hk k' hk' heq => ?_, fun d hd => ?_⟩
    · have hle : k ≤ delta cols[i] := hk.2
      have hle' : k' ≤ delta cols[i] := hk'.2
      dsimp only at heq
      omega
    · have hle : d ≤ delta cols[i] := hd
      exact ⟨delta cols[i] - d, ⟨by omega, Nat.sub_le _ _⟩, Nat.sub_sub_self hle⟩

/-- A generator of 64 rows of which one column is picked. -/
def diagonal : Generator 1 64 where
  toPolmat := { Polmat.zeros 64 65 2 with
    x := fun _ => 1#64
    degs := fun _ => 1 }
  nrows_eq := rfl
  ncols_eq := rfl
  deg_lt := fun _ _ => show 1 < 2 by decide
  addressable := by decide

theorem bwCommitF_diagonal : ∃ blocks,
    bwCommitF 1 64 (fun j => if j = 3 then 1 else 0) (fun _ => 1) diagonal.toPolmat = some blocks ∧
      IsReversal 64 [3] (fun _ => 1) diagonal.toPolmat blocks := by
  have hpicked : picked (fun j => if j = 3 then 1 else 0) (1 + 64) = [3] := by decide
  have hspec := @bwCommitF_spec 1 64 (fun j => if j = 3 then 1 else 0) (fun _ => 1) diagonal
    (by decide) (by rw [hpicked]; decide) (by rw [hpicked]; decide) fun _ _ _ => rfl
  rwa [hpicked] at hspec

end File

end CadoNfs.Lingen