import CadoNfs.Lib.PivotRows
import CadoNfs.Linalg.SpannedBasis

/-!
# The projection table of `spanned_basis`

With a table for it, `spanned_basis` fills in the sums of the pivot rows of each four
columns, by a walk through the Gray code.

Main results:

- Theorem `fillElimTable_spec`: every entry is the sum that its index says.
- Theorem `spannedBasis_isRowBasis`: the change of basis.
- Theorem `spannedBasisElim_iff`: when an entry sets the bits of its index.
-/

namespace CadoNfs.Gauss

open ForRange Gf2 ReducedColumns
open Elimination (combine reduce HasPivot ExactBlock)
open Finset (mem_range range sum_congr univ)

variable {w : ℕ}

/-! ## Code -/

section Code

variable (G : Params)

/-- `memset` with 0 of `n` bytes from limb `base` on; a limb has `w / 8`
bytes. -/
def memsetZero (p : Limbs w) (base n : ℕ) : Limbs w := fun x =>
  if x < base then p x
  else p x &&& (BitVec.allOnes w <<< (8 * (n - (x - base) * (w / 8))))

/-- `killer[di]` for the column `c`: the row of its pivot, or `zcol`. -/
def killerRow (st : State w) (lmat2 : Limbs w) (c : ℕ) : Limbs w :=
  if c < G.ncols then
    match st.setPivot c with
    | none => fun _ => 0#w
    | some pivot => fun j => lmat2 (G.limbsPerCol * pivot + j)
  else fun _ => 0#w

/-- `DO_BIT(z)` on `d`, `ex` and the table, with the block at `e`. -/
def doBit (killer : ℕ → Limbs w) (e : ℕ) (s : ℕ × ℕ × Limbs w) (z : ℕ) : ℕ × ℕ × Limbs w :=
  let (d, ex, table) := s
  let d := d ^^^ (1 <<< z)
  let ey := e + d * G.limbsPerCol
  let table := forRange G.limbsPerCol (fun j (table : Limbs w) =>
    Function.update table (ey + j) (table (ex + j) ^^^ killer z j)) table
  (d, ey, table)

/-- "Do a gray code walk to fill in the table": the arguments of `DO_BIT`. -/
def grayWalk : List ℕ := [0, 1, 0, 2, 0, 1, 0, 3, 0, 1, 0, 2, 0, 1, 0]

/-- The entries of one block of four columns. -/
def fillBlock (st : State w) (lmat2 : Limbs w) (block : ℕ) (table : Limbs w) : Limbs w :=
  let e := block * (16 * G.limbsPerCol)
  let table := memsetZero table e (16 * G.limbsPerCol)
  let killer := fun di => killerRow G st lmat2 (4 * block + di)
  let table := memsetZero table e G.limbsPerCol
  (grayWalk.foldl (doBit G killer e) (0, e, table)).2.2

/-- The loop over the columns that fills `elim_table`. -/
def fillElimTable (st : State w) (lmat2 : Limbs w) (table : Limbs w) : Limbs w :=
  forRange ((G.ncols + 3) / 4) (fillBlock G st lmat2) table

/-- `spanned_basis`, where `elimTable` is `none` for a null pointer: the rank,
`lmat`, what is left in `mat`, and the table. -/
def spannedBasisElim (lmat mat : Limbs w) (elimTable : Option (Limbs w)) :
    Option (ℕ × Limbs w × Limbs w × Option (Limbs w)) := do
  let st ← gaussianElimination G mat (some (identityRows G))
  let lmat2 ← st.rows.lmat
  let r ← forRangeM G.nrows (spannedBasisPass G st lmat2) (0, G.nrows, lmat)
  some (r.1, r.2.2, st.rows.mat, elimTable.map (fillElimTable G st lmat2))

end Code

variable {G : Params}

/-! ## The walk -/

section Walk

variable {killer : ℕ → Limbs w} {block d z : ℕ} {table : Limbs w}

/-- The sum of the rows that belong to the bits of `d`. -/
def entrySum (killer : ℕ → Limbs w) (d j t : ℕ) : ZMod 2 :=
  ∑ z ∈ range 4, ofBool (d.testBit z) * bit (killer z j) t

/-- The entry `d` of a block is right. -/
def EntryRight (G : Params) (killer : ℕ → Limbs w) (block : ℕ) (table : Limbs w) (d : ℕ) : Prop :=
  ∀ j < G.limbsPerCol, ∀ t,
    bit (table (G.limbsPerCol * (16 * block + d) + j)) t = entrySum killer d j t

theorem entrySum_flip (hz : z < 4) (j t : ℕ) :
    entrySum killer (d ^^^ (1 <<< z)) j t = entrySum killer d j t + bit (killer z j) t := by
  have hbit : ∀ y, ofBool ((d ^^^ (1 <<< z)).testBit y)
      = ofBool (d.testBit y) + if y = z then 1 else 0 := by
    intro y
    rw [Nat.testBit_xor, ofBool_xor, Nat.one_shiftLeft, Nat.testBit_two_pow]
    by_cases hy : y = z
    · simp [hy]
    · simp [hy, Ne.symm hy]
  simp only [entrySum, hbit, add_mul, Finset.sum_add_distrib, ite_mul, one_mul, zero_mul,
    Finset.sum_ite_eq', mem_range, if_pos hz]

theorem entry_address (L block d : ℕ) : block * (16 * L) + d * L = L * (16 * block + d) := by
  ring

variable (killer block table) in
theorem doBit_apply {r j : ℕ} (hj : j < G.limbsPerCol) :
    (doBit G killer (block * (16 * G.limbsPerCol))
        (d, block * (16 * G.limbsPerCol) + d * G.limbsPerCol, table) z).2.2
        (G.limbsPerCol * r + j)
      = if r = 16 * block + (d ^^^ (1 <<< z)) then
          table (G.limbsPerCol * (16 * block + d) + j) ^^^ killer z j
        else table (G.limbsPerCol * r + j) := by
  have hflip : d ≠ d ^^^ (1 <<< z) := by
    intro heq
    have hbit := congrArg (·.testBit z) heq
    simp [Nat.one_shiftLeft] at hbit
  simp only [doBit, entry_address]
  split_ifs with hr
  · subst hr
    refine forRange_inPlace_apply
      (p := fun j => G.limbsPerCol * (16 * block + (d ^^^ (1 <<< z))) + j)
      (fun j table => table (G.limbsPerCol * (16 * block + d) + j) ^^^ killer z j)
      (fun _ _ _ _ heq => Nat.add_left_cancel heq) (fun i hi ws ws' hsame => ?_) hj table
    rw [hsame _ fun k hk heq => hflip ?_]
    have hcell := (cell_inj hi (hk.trans hi) heq).1
    omega
  · refine forRange_inPlace_of_ne
      (p := fun j => G.limbsPerCol * (16 * block + (d ^^^ (1 <<< z))) + j)
      (fun j table => table (G.limbsPerCol * (16 * block + d) + j) ^^^ killer z j)
      (fun i hi heq => hr (cell_inj hj hi heq).1) table

/-- An entry of the table is the sum of its rows. -/
theorem foldl_doBit_spec (zs : List ℕ) (hzs : ∀ z ∈ zs, z < 4) (hd : d < 16)
    (hright : EntryRight G killer block table d) :
    let res := zs.foldl (doBit G killer (block * (16 * G.limbsPerCol)))
      (d, block * (16 * G.limbsPerCol) + d * G.limbsPerCol, table)
    (∀ d', EntryRight G killer block table d' → EntryRight G killer block res.2.2 d') ∧
      (∀ d' ∈ zs.scanl (fun d z => d ^^^ (1 <<< z)) d, EntryRight G killer block res.2.2 d') ∧
      ∀ r, r < 16 * block ∨ 16 * block + 16 ≤ r → ∀ j < G.limbsPerCol,
        res.2.2 (G.limbsPerCol * r + j) = table (G.limbsPerCol * r + j) := by
  induction zs generalizing d table with
  | nil =>
    refine ⟨fun _ h => h, fun d' hd' => ?_, fun _ _ _ _ => rfl⟩
    rw [List.scanl_nil, List.mem_singleton] at hd'
    exact hd' ▸ hright
  | cons z zs ih =>
    obtain ⟨hz, hzs⟩ := List.forall_mem_cons.mp hzs
    have hflip : d ^^^ (1 <<< z) < 16 := by
      refine Nat.xor_lt_two_pow (n := 4) hd ?_
      rw [Nat.one_shiftLeft]
      exact Nat.pow_lt_pow_right (by decide) hz
    have happly := fun r j => doBit_apply (G := G) killer block table (d := d) (z := z) (r := r)
      (j := j)
    have hkeep : ∀ d', EntryRight G killer block table d' → EntryRight G killer block
        (doBit G killer (block * (16 * G.limbsPerCol))
          (d, block * (16 * G.limbsPerCol) + d * G.limbsPerCol, table) z).2.2 d' := by
      intro d' h' j hj t
      rw [happly _ j hj]
      split_ifs with heq
      · obtain rfl : d' = d ^^^ (1 <<< z) := by omega
        rw [bit_xor, hright j hj, entrySum_flip hz]
      · exact h' j hj t
    have hnew : EntryRight G killer block
        (doBit G killer (block * (16 * G.limbsPerCol))
          (d, block * (16 * G.limbsPerCol) + d * G.limbsPerCol, table) z).2.2
        (d ^^^ (1 <<< z)) := by
      intro j hj t
      rw [happly _ j hj, if_pos rfl, bit_xor, hright j hj, entrySum_flip hz]
    obtain ⟨hkeep', hvisit, houtside⟩ := ih hzs hflip hnew
    refine ⟨fun d' h' => hkeep' d' (hkeep d' h'), fun d' hd' => ?_, fun r hr j hj => ?_⟩
    · rw [List.scanl_cons, List.mem_cons] at hd'
      rcases hd' with rfl | hd'
      · exact hkeep' d' (hkeep d' hright)
      · exact hvisit d' hd'
    · refine (houtside r hr j hj).trans ?_
      rw [happly r j hj, if_neg (by omega)]

theorem memsetZero_apply (hw : w = 32 ∨ w = 64) {n : ℕ} (hn : n ≤ 16 * G.limbsPerCol) {r j : ℕ}
    (hj : j < G.limbsPerCol) (hr : r < 16 * block ∨ 16 * block + 16 ≤ r) :
    memsetZero table (block * (16 * G.limbsPerCol)) n (G.limbsPerCol * r + j)
      = table (G.limbsPerCol * r + j) := by
  have hstart : block * (16 * G.limbsPerCol) = G.limbsPerCol * (16 * block) := by ring
  rw [memsetZero, hstart]
  rcases hr with hr | hr
  · have hle : G.limbsPerCol * (r + 1) ≤ G.limbsPerCol * (16 * block) :=
      Nat.mul_le_mul_left _ hr
    rw [Nat.mul_succ] at hle
    rw [if_pos (by omega)]
  · have hle : G.limbsPerCol * (16 * block + 16) ≤ G.limbsPerCol * r := Nat.mul_le_mul_left _ hr
    rw [mul_add] at hle
    have hbytes : G.limbsPerCol * r + j - G.limbsPerCol * (16 * block)
        ≤ (G.limbsPerCol * r + j - G.limbsPerCol * (16 * block)) * (w / 8) :=
      Nat.le_mul_of_pos_right _ (by omega)
    rw [if_neg (by omega), show n - (G.limbsPerCol * r + j - G.limbsPerCol * (16 * block)) * (w / 8)
      = 0 by omega, mul_zero, BitVec.shiftLeft_zero, BitVec.and_allOnes]

theorem fillBlock_spec (hw : w = 32 ∨ w = 64) (st : State w) (lmat2 : Limbs w) (block : ℕ)
    (table : Limbs w) :
    (∀ d < 16, EntryRight G (fun di => killerRow G st lmat2 (4 * block + di)) block
      (fillBlock G st lmat2 block table) d) ∧
    ∀ r, r < 16 * block ∨ 16 * block + 16 ≤ r → ∀ j < G.limbsPerCol,
      fillBlock G st lmat2 block table (G.limbsPerCol * r + j)
        = table (G.limbsPerCol * r + j) := by
  have hzero : EntryRight G (fun di => killerRow G st lmat2 (4 * block + di)) block
      (memsetZero (memsetZero table (block * (16 * G.limbsPerCol)) (16 * G.limbsPerCol))
        (block * (16 * G.limbsPerCol)) G.limbsPerCol) 0 := by
    intro j hj t
    have hstart : block * (16 * G.limbsPerCol) = G.limbsPerCol * (16 * block) := by ring
    have hshift : w ≤ 8 * (16 * G.limbsPerCol - j * (w / 8)) := by
      rcases hw with rfl | rfl <;> omega
    have hcleared : BitVec.allOnes w <<< (8 * (16 * G.limbsPerCol - j * (w / 8))) = 0#w :=
      BitVec.shiftLeft_eq_zero hshift
    rw [add_zero, hstart, memsetZero, memsetZero, if_neg (by omega), if_neg (by omega),
      Nat.add_sub_cancel_left, hcleared, BitVec.and_zero, BitVec.zero_and, bit_zero]
    simp [entrySum]
  obtain ⟨-, hvisit, houtside⟩ := foldl_doBit_spec grayWalk (by decide) (by decide) hzero
  rw [zero_mul, add_zero] at hvisit houtside
  have hall : ∀ d < 16, d ∈ grayWalk.scanl (fun d z => d ^^^ (1 <<< z)) 0 := by decide
  refine ⟨fun d hd => hvisit d (hall d hd), fun r hr j hj => (houtside r hr j hj).trans ?_⟩
  rw [memsetZero_apply hw (by omega) hj hr, memsetZero_apply hw le_rfl hj hr]

/-- Every entry of the table is the sum that its index says. -/
theorem fillElimTable_spec (hw : w = 32 ∨ w = 64) (st : State w) (lmat2 table : Limbs w)
    {block : ℕ} (hblock : block < (G.ncols + 3) / 4) {d : ℕ} (hd : d < 16) :
    EntryRight G (fun di => killerRow G st lmat2 (4 * block + di)) block
      (fillElimTable G st lmat2 table) d := by
  refine forRange_induct (motive := fun m table => ∀ block < m, ∀ d < 16,
    EntryRight G (fun di => killerRow G st lmat2 (4 * block + di)) block table d)
    (fillBlock G st lmat2) table _ (by simp) (fun m _ table ih => ?_) block hblock d hd
  intro block hblock d hd
  obtain ⟨hright, houtside⟩ := fillBlock_spec (G := G) hw st lmat2 m table
  rcases Nat.lt_succ_iff_lt_or_eq.mp hblock with hlt | rfl
  · intro j hj t
    rw [houtside _ (by omega) j hj]
    exact ih block hlt d hd j hj t
  · exact hright d hd

end Walk

/-! ## The law of the table -/

section Law

variable {M : Fin G.nrows → ℕ → ZMod 2} {mat : Limbs w} {st : State w} {lmat2 table : Limbs w}
  {s : Elimination.State (Fin G.nrows)} {block : ℕ}

/-- The combination of index `i` of a block, as a row. -/
def tableRow (G : Params) (table : Limbs w) (block i : ℕ) (y : Fin G.nrows) : ZMod 2 :=
  flatBit G.limbsPerCol table (16 * block + i) y

/-- The four columns of the block all have pivots. -/
def FullBlock (M : Fin G.nrows → ℕ → ZMod 2) (C block : ℕ) : Prop :=
  4 * block + 4 ≤ C ∧ ∀ z < 4, HasPivot M (4 * block + z)

/-- The row of index `i` times the matrix has the bits of `i` in the columns of the
block. -/
def TableLaw (G : Params) (mat table : Limbs w) : Prop :=
  ∀ block, FullBlock (rowsOf G mat) G.ncols block → ∀ i < 16, ∀ z < 4,
    combine (rowsOf G mat) (tableRow G table block i) (4 * block + z) = ofBool (i.testBit z)

/-- In every full block the pivot rows are the unit rows. -/
def ExactTable (G : Params) (mat : Limbs w) : Prop :=
  ∀ block, FullBlock (rowsOf G mat) G.ncols block → ExactBlock (rowsOf G mat) (4 * block) 4

theorem killerRow_pivot (h : Represents G G.ncols st s) (hlmat2 : st.rows.lmat = some lmat2)
    (hrows : G.nrows ≤ G.limbsPerCol * w) {c : ℕ} (hc : c < G.ncols) {p : Fin G.nrows}
    (hp : s.piv c = some p) (y : Fin G.nrows) :
    bit (killerRow G st lmat2 c (y / w)) (y % w) = s.l p y := by
  have hpivot : st.setPivot c = some (p : ℕ) := by rw [h.pivot, hp, Option.map_some]
  have hcomb := h.combinations lmat2 hlmat2 p y (y.isLt.trans_le hrows)
  rw [extend, dif_pos y.isLt] at hcomb
  rw [killerRow, if_pos hc, hpivot, ← hcomb]
  rfl

theorem combine_sum (a : ℕ → ZMod 2) (v : ℕ → Fin G.nrows → ZMod 2) (n x : ℕ) :
    combine M (fun y => ∑ z ∈ range n, a z * v z y) x
      = ∑ z ∈ range n, a z * combine M (v z) x := by
  simp only [combine, Finset.sum_mul, Finset.mul_sum]
  rw [Finset.sum_comm]
  exact sum_congr rfl fun z _ => sum_congr rfl fun y _ => mul_assoc _ _ _

variable (table) in
theorem tableRow_combine (hw : w = 32 ∨ w = 64) (h : Represents G G.ncols st s)
    (hlmat2 : st.rows.lmat = some lmat2) (hrows : G.nrows ≤ G.limbsPerCol * w)
    (hblock : 4 * block + 4 ≤ G.ncols) {p : ℕ → Fin G.nrows}
    (hp : ∀ z < 4, s.piv (4 * block + z) = some (p z)) {i : ℕ} (hi : i < 16) (x : ℕ) :
    combine M (tableRow G (fillElimTable G st lmat2 table) block i) x
      = ∑ z ∈ range 4, ofBool (i.testBit z) * combine M (s.l (p z)) x := by
  rw [← combine_sum (fun z => ofBool (i.testBit z)) fun z => s.l (p z)]
  congr 1
  funext y
  have hy : (y : ℕ) < G.limbsPerCol * w := y.isLt.trans_le hrows
  rw [tableRow, flatBit, fillElimTable_spec hw st lmat2 table (by omega) hi _ (div_lt_stride hy),
    entrySum]
  refine sum_congr rfl fun z hz => ?_
  have hz4 := mem_range.mp hz
  rw [killerRow_pivot h hlmat2 hrows (by omega) (hp z hz4)]

/-- The table keeps its law exactly if the pivot rows of all full blocks are unit rows. -/
theorem tableLaw_iff (hw : w = 32 ∨ w = 64)
    (h : Represents G G.ncols st (reduce (rowsOf G mat) G.ncols))
    (hlmat2 : st.rows.lmat = some lmat2) (hrows : G.nrows ≤ G.limbsPerCol * w) :
    TableLaw G mat (fillElimTable G st lmat2 table) ↔ ExactTable G mat := by
  refine forall_congr' fun block => forall_congr' fun hfull => ?_
  obtain ⟨hblock, hpivots⟩ := hfull
  have hex : ∀ z, ∃ p, z < 4 → (reduce (rowsOf G mat) G.ncols).piv (4 * block + z) = some p := by
    intro z
    by_cases hz : z < 4
    · obtain ⟨p, hp⟩ := (Elimination.exists_piv_iff (show 4 * block + z < G.ncols by omega)).mpr
        (hpivots z hz)
      exact ⟨p, fun _ => hp⟩
    · obtain ⟨p, -⟩ := (Elimination.exists_piv_iff (show 4 * block + 0 < G.ncols by omega)).mpr
        (hpivots 0 (by decide))
      exact ⟨p, fun hlt => absurd hlt hz⟩
  choose p hp using hex
  rw [Elimination.exactBlock_iff hblock hp]
  have hrow := fun i hi x => tableRow_combine (M := rowsOf G mat) table hw h hlmat2
    hrows hblock hp (i := i) hi x
  constructor
  · intro hlaw z hz z' hz'
    have hpow : 1 <<< z < 16 := by
      rw [Nat.one_shiftLeft]
      exact Nat.pow_lt_pow_right (n := 4) (by decide) hz
    have hentry := hlaw (1 <<< z) hpow z' hz'
    rw [hrow _ hpow] at hentry
    simp only [Nat.one_shiftLeft, Nat.testBit_two_pow] at hentry
    rw [Finset.sum_eq_single z (fun y _ hy => by simp [Ne.symm hy])
      (fun hmem => absurd (mem_range.mpr hz) hmem)] at hentry
    rw [decide_eq_true rfl, ofBool_true, one_mul] at hentry
    rw [hentry]
    by_cases heq : z' = z
    · simp [heq]
    · simp [heq, Ne.symm heq]
  · intro hunit i hi z hz
    rw [hrow i hi, Finset.sum_eq_single z]
    · rw [hunit z hz z hz, if_pos rfl, mul_one]
    · intro y hy hne
      rw [hunit y (mem_range.mp hy) z hz, if_neg hne.symm, mul_zero]
    · exact fun hmem => absurd (mem_range.mpr hz) hmem

end Law

/-! ## The change of basis and the table -/

section Result

variable {mat : Limbs w}

/-- The matrix of an array of limbs. -/
def rowMatrix (G : Params) (mat : Limbs w) : Matrix (Fin G.nrows) (Fin G.ncols) (ZMod 2) :=
  Matrix.of fun i x => flatBit G.limbsPerRow mat i x

/-- `lmat` as a matrix. -/
def changeOf (G : Params) (lmat : Limbs w) : Matrix (Fin G.nrows) (Fin G.nrows) (ZMod 2) :=
  Matrix.of fun i y => flatBit G.limbsPerCol lmat i y

/-- An invertible matrix that turns the rows into a basis of their span and rows of zeros. -/
structure IsRowBasis {m n : ℕ} (M : Matrix (Fin m) (Fin n) (ZMod 2))
    (L : Matrix (Fin m) (Fin m) (ZMod 2)) (r : ℕ) : Prop where
  rank : r = M.rank
  isUnit : IsUnit L
  independent : LinearIndependent (ZMod 2) fun i : {i : Fin m // (i : ℕ) < r} => (L * M) i
  span : Submodule.span (ZMod 2) (Set.range fun i : {i : Fin m // (i : ℕ) < r} => (L * M) i)
    = Submodule.span (ZMod 2) (Set.range M.row)
  zero : ∀ i : Fin m, r ≤ (i : ℕ) → (L * M) i = 0

/-- A reduction of the transposed matrix gives a basis of the rows. -/
theorem isRowBasis_of_reduces {m n r : ℕ} {M : Matrix (Fin m) (Fin n) (ZMod 2)}
    {L : Matrix (Fin m) (Fin m) (ZMod 2)} (h : Reduces M.transpose L.transpose r) :
    IsRowBasis M L r := by
  have hunit : IsUnit L := by
    rw [Matrix.isUnit_iff_isUnit_det, ← Matrix.det_transpose]
    exact h.isUnit
  have hproduct : M.transpose * L.transpose = (L * M).transpose := (Matrix.transpose_mul L M).symm
  have hreduced := h.reduced
  rw [hproduct] at hreduced
  have hzero : ∀ i : Fin m, r ≤ (i : ℕ) → (L * M) i = 0 := fun i hi =>
    funext fun x => hreduced.zero x i hi
  refine ⟨by rw [← h.rank, Matrix.rank_transpose], hunit, ?_, le_antisymm ?_ ?_, hzero⟩
  · rw [Fintype.linearIndependent_iff]
    intro a ha i
    have hall := hreduced.indep (fun c => if hc : (c : ℕ) < r then a ⟨c, hc⟩ else 0)
      (fun c hc => dif_neg (not_lt.mpr hc)) ?_
    · have hi := congrFun hall i
      rwa [dif_pos i.2] at hi
    · funext x
      have hx := congrFun ha x
      rw [Finset.sum_apply] at hx
      change ∑ c, (L * M) c x * _ = 0
      rw [← Finset.sum_subset (Finset.subset_univ (univ.filter fun c : Fin m => (c : ℕ) < r))
        fun c _ hc => ?_]
      · refine (Finset.sum_subtype _ (fun c => by simp) _).trans
          ((sum_congr rfl fun c _ => ?_).trans hx)
        rw [dif_pos c.2, Pi.smul_apply, smul_eq_mul, mul_comm]
      · rw [dif_neg (by simpa using hc), mul_zero]
  · rw [Submodule.span_le]
    rintro _ ⟨i, rfl⟩
    rw [← range_vecMulLinear]
    exact ⟨L i, rfl⟩
  · rw [Submodule.span_le]
    rintro _ ⟨i, rfl⟩
    have hrow : M.row i = ∑ j, L⁻¹ i j • (L * M) j := by
      have hinv := Matrix.nonsing_inv_mul_cancel_left L M
        ((Matrix.isUnit_iff_isUnit_det L).mp hunit)
      funext x
      rw [Finset.sum_apply]
      exact (congrFun (congrFun hinv i) x).symm
    rw [hrow]
    refine Submodule.sum_mem _ fun j _ => Submodule.smul_mem _ _ ?_
    by_cases hj : (j : ℕ) < r
    · exact Submodule.subset_span ⟨⟨j, hj⟩, rfl⟩
    · rw [hzero j (not_lt.mp hj)]
      exact Submodule.zero_mem _

variable (lmat : Limbs w) (table : Option (Limbs w)) (hw : w = 32 ∨ w = 64)
  (hcols : G.ncols ≤ G.limbsPerRow * w) (hrows : G.nrows ≤ G.limbsPerCol * w)

theorem spannedBasisElim_eq_none (hsound : ¬Sound G mat) :
    spannedBasisElim G lmat mat table = none := by
  rw [spannedBasisElim, gaussianElimination_eq_none _ hsound]
  rfl

include hw hcols hrows

theorem spannedBasisElim_spec (hsound : Sound G mat) :
    ∃ r lmat' mat' fill, spannedBasisElim G lmat mat table = some (r, lmat', mat', table.map fill) ∧
      IsRowBasis (rowMatrix G mat) (changeOf G lmat') r ∧
      ∀ table, TableLaw G mat (fill table) ↔ ExactTable G mat := by
  obtain ⟨r, lmat', mat', hrun, hreduces, -⟩ := spannedBasis_reduces lmat (by omega) hcols hrows
    hsound
  obtain ⟨st, hst, hrep, hsome⟩ :=
    gaussianElimination_spec _ (by omega) hcols hsound (identityRows_spec (by omega) hrows)
  obtain ⟨lmat2, hlmat2⟩ := Option.isSome_iff_exists.mp hsome
  refine ⟨r, lmat', mat', fillElimTable G st lmat2, ?_, isRowBasis_of_reduces hreduces,
    fun table => tableLaw_iff hw hrep hlmat2 hrows⟩
  simp only [spannedBasis, hst, Option.bind_eq_bind, Option.bind_some, hlmat2] at hrun
  obtain ⟨res, hres, heq⟩ := Option.bind_eq_some_iff.mp hrun
  obtain ⟨rfl, rfl, rfl⟩ : res.1 = r ∧ res.2.2 = lmat' ∧ st.rows.mat = mat' := by
    simpa [Prod.ext_iff] using heq
  simp [spannedBasisElim, hst, hlmat2, hres]

/-- Without a table the rank and the change of basis are right, and with one the law of the table
holds as well, if and only if the assertion of `check_soundness` holds and, in every block of
four columns that have pivots, the pivot rows are the unit rows. -/
theorem spannedBasisElim_iff (table : Limbs w) :
    ((∃ r lmat' mat', spannedBasisElim G lmat mat none = some (r, lmat', mat', none) ∧
        IsRowBasis (rowMatrix G mat) (changeOf G lmat') r) ∧
      ∃ r lmat' mat' table',
        spannedBasisElim G lmat mat (some table) = some (r, lmat', mat', some table') ∧
        IsRowBasis (rowMatrix G mat) (changeOf G lmat') r ∧ TableLaw G mat table') ↔
      Sound G mat ∧ ExactTable G mat := by
  by_cases hsound : Sound G mat
  · obtain ⟨r, lmat₁, mat₁, fill, hrun, hbasis, -⟩ :=
      spannedBasisElim_spec lmat none hw hcols hrows hsound
    obtain ⟨r', lmat₂, mat₂, fill', hrun', hbasis', hlaw⟩ :=
      spannedBasisElim_spec lmat (some table) hw hcols hrows hsound
    constructor
    · rintro ⟨-, r₀, lmat₀, mat₀, table', hrun₀, -, hlaw₀⟩
      rw [hrun', Option.map_some] at hrun₀
      obtain ⟨-, -, -, rfl⟩ : r' = r₀ ∧ lmat₂ = lmat₀ ∧ mat₂ = mat₀ ∧ fill' table = table' := by
        simpa [Prod.ext_iff] using hrun₀
      exact ⟨hsound, (hlaw table).mp hlaw₀⟩
    · rintro ⟨-, hexact⟩
      exact ⟨⟨r, lmat₁, mat₁, hrun, hbasis⟩, r', lmat₂, mat₂, fill' table, hrun', hbasis',
        (hlaw table).mpr hexact⟩
  · refine iff_of_false ?_ fun h => hsound h.1
    rintro ⟨⟨r, lmat', mat', hrun, -⟩, -⟩
    rw [spannedBasisElim_eq_none _ _ hsound] at hrun
    cases hrun

end Result

/-! ## Two matrices with four rows and columns -/

section Four

/-- Four rows and columns in one limb each. -/
def fourParams : Params := ⟨4, 4, 1, 1, .two, false⟩

/-- The unit matrix. -/
def unitRows : Limbs 64 := fun i => if i < 4 then 1#64 <<< i else 0#64

/-- The unit matrix with one bit more, in row 0 and column 1. -/
def shearRows : Limbs 64 := fun i => if i = 0 then 3#64 else unitRows i

variable {M : Fin 4 → ℕ → ZMod 2}

section

variable (hM : ∀ i x : Fin 4, M i x = if x = i then 1 else 0)
include hM

theorem combine_of_unit (v : Fin 4 → ZMod 2) (x : Fin 4) : combine M v x = v x := by
  simp [combine, hM]

theorem exactBlock_of_unit : ExactBlock M 0 4 := by
  intro z hz
  refine ⟨fun y => if y = ⟨z, hz⟩ then 1 else 0, fun y hy v hv _ => ?_, fun x hx => ?_⟩
  · have hyz : y = ⟨z, hz⟩ := by
      by_contra hne
      exact hy (if_neg hne)
    refine ⟨z, by omega, ?_⟩
    rw [show combine M v z = v ⟨z, hz⟩ from combine_of_unit hM v ⟨z, hz⟩, ← hyz, hv]
    exact one_ne_zero
  · rw [show combine M _ x = _ from combine_of_unit hM _ ⟨x, by omega⟩]
    exact if_congr (by rw [Fin.ext_iff, zero_add]) rfl rfl

end

section

variable (hM : ∀ i x : Fin 4, M i x = if x = i ∨ (x = 1 ∧ i = 0) then 1 else 0)
include hM

theorem combine_of_shear (v : Fin 4 → ZMod 2) (x : Fin 4) :
    combine M v x = v x + if x = 1 then v 0 else 0 := by
  rw [combine, Fin.sum_univ_four]
  simp only [hM]
  fin_cases x
  · simp
  · simpa using add_comm (v 0) (v 1)
  · simp
  · simp

theorem hasPivot_of_shear (z : Fin 4) : HasPivot M z := by
  have hrow := combine_of_shear hM fun y => if y = z then 1 else 0
  refine ⟨fun y => if y = z then 1 else 0, fun x hx => ?_, ?_⟩
  · have hlt : x < 4 := by omega
    rw [show combine M _ x = _ from hrow ⟨x, hlt⟩, if_neg (Fin.ne_of_lt hx), zero_add]
    split_ifs with h1 h0
    · rw [Fin.ext_iff] at h1
      rw [← h0] at hx
      simp at hx
    · rfl
    · rfl
  · rw [hrow z, if_pos rfl]
    fin_cases z <;> simp

theorem not_exactBlock_of_shear : ¬ExactBlock M 0 4 := by
  intro hexact
  obtain ⟨v, hnew, hv⟩ := hexact 0 (by decide)
  have hrow := combine_of_shear hM
  have hzero : v 0 + 0 = 1 := (hrow v 0).symm.trans (hv 0 (by decide))
  have hone : v 1 + v 0 = 0 := (hrow v 1).symm.trans (hv 1 (by decide))
  have hv1 : v 1 ≠ 0 := by
    intro h1
    rw [h1, zero_add] at hone
    rw [hone] at hzero
    exact absurd hzero (by decide)
  obtain ⟨x, hx, hne⟩ := hnew 1 hv1 (fun y => if y = 1 then 1 else 0) (if_pos rfl) fun y hy => by
    by_contra hle
    exact hy (if_neg fun heq => hle heq.le)
  obtain rfl : x = 0 := by omega
  exact hne (hrow _ 0)

end

theorem rowsOf_unitRows : ∀ i x : Fin 4,
    rowsOf fourParams unitRows i x = if x = i then 1 else 0 := by
  decide

theorem rowsOf_shearRows : ∀ i x : Fin 4,
    rowsOf fourParams shearRows i x = if x = i ∨ (x = 1 ∧ i = 0) then 1 else 0 := by
  decide

theorem eq_zero_of_fullBlock {mat : Limbs 64} {block : ℕ}
    (h : FullBlock (rowsOf fourParams mat) fourParams.ncols block) : block = 0 := by
  have hle : 4 * block + 4 ≤ 4 := h.1
  omega

theorem exactTable_unitRows : ExactTable fourParams unitRows := by
  intro block hfull
  obtain rfl := eq_zero_of_fullBlock hfull
  exact exactBlock_of_unit rowsOf_unitRows

theorem not_exactTable_shearRows : ¬ExactTable fourParams shearRows := fun hexact =>
  not_exactBlock_of_shear rowsOf_shearRows (hexact 0 ⟨by decide, fun z hz => by
    rw [mul_zero, zero_add]
    exact hasPivot_of_shear rowsOf_shearRows ⟨z, hz⟩⟩)

theorem sound_unitRows : Sound fourParams unitRows := by
  refine .inr ?_
  decide +kernel

theorem spannedBasisElim_iff_unitRows :
    (∃ r lmat' mat', spannedBasisElim fourParams (fun _ => 0#64) unitRows none
        = some (r, lmat', mat', none) ∧
      IsRowBasis (rowMatrix fourParams unitRows) (changeOf fourParams lmat') r) ∧
    ∃ r lmat' mat' table', spannedBasisElim fourParams (fun _ => 0#64) unitRows
        (some fun _ => 0#64) = some (r, lmat', mat', some table') ∧
      IsRowBasis (rowMatrix fourParams unitRows) (changeOf fourParams lmat') r ∧
      TableLaw fourParams unitRows table' :=
  (spannedBasisElim_iff _ (.inr rfl) (by decide) (by decide) _).mpr
    ⟨sound_unitRows, exactTable_unitRows⟩

/-- The entry of index 1 of the second matrix is row 0, which has bits 0 and 1. -/
theorem not_spannedBasisElim : ¬∀ (G : Params) (lmat mat table : Limbs 64),
    G.ncols ≤ G.limbsPerRow * 64 → G.nrows ≤ G.limbsPerCol * 64 → Sound G mat →
    ∃ r lmat' mat' table', spannedBasisElim G lmat mat (some table)
        = some (r, lmat', mat', some table') ∧
      IsRowBasis (rowMatrix G mat) (changeOf G lmat') r ∧ TableLaw G mat table' := by
  intro hall
  have hsound : Sound fourParams shearRows := by
    refine .inr ?_
    decide +kernel
  obtain ⟨r, lmat', mat', table', hrun, -, hlaw⟩ := hall fourParams (fun _ => 0#64) shearRows
    (fun _ => 0#64) (by decide) (by decide) hsound
  obtain ⟨r', lmat₁, mat₁, fill, hrun₁, -, hiff⟩ := spannedBasisElim_spec (fun _ => 0#64)
    (some fun _ => 0#64) (.inr rfl) (by decide) (by decide) hsound
  rw [hrun₁, Option.map_some] at hrun
  obtain ⟨-, -, -, rfl⟩ : r' = r ∧ lmat₁ = lmat' ∧ mat₁ = mat' ∧ fill (fun _ => 0#64) = table' := by
    simpa [Prod.ext_iff] using hrun
  exact not_exactTable_shearRows ((hiff _).mp hlaw)

end Four

end CadoNfs.Gauss
