import CadoNfs.Lib.Gather
import CadoNfs.Macros

/-!
# The basic sparse matrix product

The rows of a matrix, or its columns when it is stored transposed, are kept as a weight and
the differences of the successive indices.  The same array serves for the product of the
matrix with a vector and for the product of a vector with the matrix.

Main results:

- Theorem `matmulBasicBuildCache_eq`: what is stored.
- Theorem `matmulBasicMul_eq`: both products as sums over the coefficients.
- Theorem `Stored.isProduct`: these sums are the product of a matrix and a vector.
-/

namespace CadoNfs.Matmul

open Finset Function Gather Gf2

/-! ## Code -/

/-- The fields of `matmul_public_s` that the products use. -/
structure MatmulPublic where
  dim : Bool → ℕ
  storeTransposed : Bool

/-- `matmul_basic_data_s`. -/
structure MatmulBasic extends MatmulPublic where
  ncoeffs : ℕ
  datasize : ℕ
  q : List ℕ

/-- A row of `weight` indices is replaced by the differences. -/
def diffRow (weight last : ℕ) (ptr : List ℕ) : Option (List ℕ × List ℕ) :=
  match weight, ptr with
  | 0, ptr => some ([], ptr)
  | _ + 1, [] => none
  | weight + 1, current :: ptr => do
    let (q, ptr) ← diffRow weight current ptr
    some ((current + 2 ^ 32 - last) % 2 ^ 32 :: q, ptr)

/-- The loop over the rows, with the number of coefficients and the end of the data. -/
def diffRows (nrows : ℕ) (ptr : List ℕ) : Option (List ℕ × ℕ × List ℕ) :=
  match nrows, ptr with
  | 0, ptr => some ([], 0, ptr)
  | _ + 1, [] => none
  | nrows + 1, weight :: ptr => do
    let (q, ptr) ← diffRow weight 0 ptr
    let (q', ncoeffs, ptr) ← diffRows nrows ptr
    some (weight :: q ++ q', weight + ncoeffs, ptr)

/-- `matmul_basic_build_cache`. -/
def matmulBasicBuildCache (mm : MatmulPublic) (data : List ℕ) : Option MatmulBasic := do
  let nrows := mm.dim mm.storeTransposed
  let (q, ncoeffs, ptr) ← diffRows nrows data
  let datasize := nrows + ncoeffs
  assertAlways (data.length - ptr.length = datasize)
  some { mm with ncoeffs := ncoeffs, datasize := datasize, q := q ++ ptr }

/-- `abzero`. -/
def abzero (dst : ℕ → BitVec 64) (n : ℕ) : ℕ → BitVec 64 :=
  fun x => if x < n then 0 else dst x

/-- `abadd`. -/
def abadd (dst : ℕ → BitVec 64) (i : ℕ) (v : BitVec 64) : ℕ → BitVec 64 :=
  update dst i (dst i ^^^ v)

/-- The loop over the `len` coefficients of a row. -/
def mulRow (bound : ℕ) (add : ℕ → (ℕ → BitVec 64) → ℕ → BitVec 64) (len j : ℕ) (q : List ℕ)
    (dst : ℕ → BitVec 64) : Option (List ℕ × (ℕ → BitVec 64)) :=
  match len, q with
  | 0, q => some (q, dst)
  | _ + 1, [] => none
  | len + 1, dj :: q => do
    let j := (j + dj) % 2 ^ 32
    assertAlways (j < bound)
    mulRow bound add len j q (add j dst)

/-- The loop over the rows. -/
def mulRows (bound : ℕ) (add : ℕ → ℕ → (ℕ → BitVec 64) → ℕ → BitVec 64) (n i : ℕ) (q : List ℕ)
    (dst : ℕ → BitVec 64) : Option (ℕ → BitVec 64) :=
  match n, q with
  | 0, _ => some dst
  | _ + 1, [] => none
  | n + 1, len :: q => do
    let (q, dst) ← mulRow bound (add i) len 0 q dst
    mulRows bound add n (i + 1) q dst

/-- `matmul_basic_mul`. -/
def matmulBasicMul (mm : MatmulBasic) (dst src : ℕ → BitVec 64) (d : Bool) :
    Option (ℕ → BitVec 64) :=
  if d = !mm.storeTransposed then
    mulRows (mm.dim d) (fun i j dst => abadd dst i (src j)) (mm.dim !d) 0 mm.q
      (abzero dst (mm.dim !d))
  else
    mulRows (mm.dim !d) (fun i j dst => abadd dst j (src i)) (mm.dim d) 0 mm.q
      (abzero dst (mm.dim !d))

/-! ## The matrix -/

section Matrix

variable {rows : List (List ℕ)} {row rest : List ℕ} {i j n b last : ℕ}

/-- The data of a list of rows. -/
def encodeRows (rows : List (List ℕ)) : List ℕ :=
  rows.flatMap fun row => row.length :: row

/-- The coefficients from row `i` on. -/
def entries (i : ℕ) (rows : List (List ℕ)) : List (ℕ × ℕ) :=
  match rows with
  | [] => []
  | row :: rows => row.map (i, ·) ++ entries (i + 1) rows

theorem mem_entries {p : ℕ × ℕ} (h : p ∈ entries i rows) :
    i ≤ p.1 ∧ p.1 < i + rows.length ∧ ∃ row ∈ rows, p.2 ∈ row := by
  induction rows generalizing i with
  | nil => exact absurd h List.not_mem_nil
  | cons row rows ih =>
    obtain h | h := List.mem_append.mp h
    · obtain ⟨c, hc, rfl⟩ := List.mem_map.mp h
      exact ⟨le_rfl, by simp, row, List.mem_cons_self, hc⟩
    · obtain ⟨hle, hlt, row', hmem, hc⟩ := ih h
      exact ⟨by omega, by rw [List.length_cons]; omega, row', List.mem_cons_of_mem _ hmem, hc⟩

theorem count_map_pair (i x y : ℕ) (row : List ℕ) :
    (row.map (i, ·)).count (x, y) = if i = x then row.count y else 0 := by
  induction row with
  | nil => simp
  | cons c row ih =>
    rw [List.map_cons, List.count_cons, ih, List.count_cons]
    by_cases hi : i = x <;> by_cases hc : c = y <;> simp [hi, hc]

theorem count_entries (i x y : ℕ) (rows : List (List ℕ)) :
    (entries i rows).count (i + x, y) = (rows.getD x []).count y := by
  induction rows generalizing i x with
  | nil => simp [entries]
  | cons row rows ih =>
    rw [entries, List.count_append, count_map_pair]
    cases x with
    | zero =>
      have hzero : (entries (i + 1) rows).count (i + 0, y) = 0 := by
        refine List.count_eq_zero.mpr fun hmem => ?_
        have := (mem_entries hmem).1
        omega
      rw [hzero]
      simp
    | succ x =>
      rw [if_neg (by omega), zero_add, show i + (x + 1) = i + 1 + x by omega, ih]
      simp

/-- The list `rows` is stored for the matrix `mm`. -/
structure Stored (mm : MatmulPublic) (rows : List (List ℕ)) : Prop where
  length : rows.length = mm.dim mm.storeTransposed
  weight : ∀ row ∈ rows, row.length < 2 ^ 32
  lt : ∀ row ∈ rows, ∀ c ∈ row, c < mm.dim !mm.storeTransposed
  dim : ∀ d, 1 ≤ mm.dim d ∧ mm.dim d < 2 ^ 32

/-- The coefficient of the matrix, with its multiplicity. -/
def coeff (mm : MatmulPublic) (rows : List (List ℕ)) (r c : ℕ) : ℕ :=
  if mm.storeTransposed then (rows.getD c []).count r else (rows.getD r []).count c

/-- Over GF(2), for each of the 64 bits, `dst` is the product of the matrix with
`src` for `d = 1` and the product of `src` with the matrix for `d = 0`. -/
def IsProduct (mm : MatmulPublic) (rows : List (List ℕ)) (dst src : ℕ → BitVec 64) (d : Bool) :
    Prop :=
  ∀ x < mm.dim !d, ∀ t, bit (dst x) t
    = ∑ y ∈ range (mm.dim d),
      ((if d then coeff mm rows x y else coeff mm rows y x : ℕ) : ZMod 2) * bit (src y) t

/-- The words that are added, as pairs of a cell of `dst` and a cell of `src`. -/
def terms (mm : MatmulPublic) (rows : List (List ℕ)) (d : Bool) : List (ℕ × ℕ) :=
  if d = !mm.storeTransposed then entries 0 rows else (entries 0 rows).map Prod.swap

/-- The vector to which the words have been added. -/
def product (mm : MatmulPublic) (rows : List (List ℕ)) (dst src : ℕ → BitVec 64) (d : Bool) :
    ℕ → BitVec 64 :=
  fun x => if x < mm.dim !d then gather (terms mm rows d) src x else dst x

variable {mm : MatmulPublic}

theorem Stored.mem_terms (h : Stored mm rows) (d : Bool) {p : ℕ × ℕ} (hp : p ∈ terms mm rows d) :
    p.1 < mm.dim !d ∧ p.2 < mm.dim d := by
  have hentry : ∀ q ∈ entries 0 rows,
      q.1 < mm.dim mm.storeTransposed ∧ q.2 < mm.dim !mm.storeTransposed := by
    intro q hq
    obtain ⟨-, hlt, row, hrow, hc⟩ := mem_entries hq
    exact ⟨by rw [← h.length]; omega, h.lt row hrow _ hc⟩
  rw [terms] at hp
  split_ifs at hp with hd
  · rw [hd, Bool.not_not]
    exact hentry p hp
  · obtain ⟨q, hq, rfl⟩ := List.mem_map.mp hp
    have hd' : d = mm.storeTransposed := by
      revert hd
      cases d <;> cases mm.storeTransposed <;> simp
    rw [hd']
    exact (hentry q hq).symm

theorem count_terms (rows : List (List ℕ)) (d : Bool) (x y : ℕ) :
    (terms mm rows d).count (x, y)
      = if d then coeff mm rows x y else coeff mm rows y x := by
  have hcount := fun a b => count_entries 0 a b rows
  simp only [zero_add] at hcount
  have hswap : ((entries 0 rows).map Prod.swap).count (x, y) = (entries 0 rows).count (y, x) :=
    List.count_map_of_injective _ _ Prod.swap_injective (y, x)
  rw [terms]
  cases d <;> cases hst : mm.storeTransposed <;> simp [coeff, hst, hcount, hswap]

/-- The sums over the coefficients are the product of a matrix and a vector. -/
theorem Stored.isProduct (h : Stored mm rows) (dst src : ℕ → BitVec 64) (d : Bool) :
    IsProduct mm rows (product mm rows dst src d) src d := by
  intro x hx t
  rw [product, if_pos hx, bit_gather fun p hp => (h.mem_terms d hp).2]
  exact sum_congr rfl fun y _ => by rw [count_terms]

end Matrix

/-! ## The stored differences -/

section Differences

variable {rows : List (List ℕ)} {row rest : List ℕ} {last : ℕ}

/-- The differences of the successive indices. -/
def diffs (last : ℕ) (row : List ℕ) : List ℕ :=
  match row with
  | [] => []
  | current :: row => (current + 2 ^ 32 - last) % 2 ^ 32 :: diffs current row

/-- The rows with their differences. -/
def encodeDiffs (rows : List (List ℕ)) : List ℕ :=
  rows.flatMap fun row => row.length :: diffs 0 row

theorem diffRow_eq (row rest : List ℕ) (last : ℕ) :
    diffRow row.length last (row ++ rest) = some (diffs last row, rest) := by
  induction row generalizing last with
  | nil => simp [diffRow, diffs]
  | cons c row ih => simp [diffRow, diffs, ih]

theorem diffRows_eq (rows : List (List ℕ)) (rest : List ℕ) :
    diffRows rows.length (encodeRows rows ++ rest)
      = some (encodeDiffs rows, (rows.map List.length).sum, rest) := by
  induction rows with
  | nil => simp [diffRows, encodeRows, encodeDiffs]
  | cons row rows ih =>
    have hrow := diffRow_eq row (encodeRows rows ++ rest) 0
    rw [encodeRows] at ih hrow
    simp [diffRows, encodeRows, encodeDiffs, hrow, ih]

theorem length_encodeRows (rows : List (List ℕ)) :
    (encodeRows rows).length = rows.length + (rows.map List.length).sum := by
  induction rows with
  | nil => rfl
  | cons row rows ih =>
    rw [encodeRows] at ih
    simp only [encodeRows, List.flatMap_cons, List.length_append, List.length_cons, List.map_cons,
      List.sum_cons, ih]
    omega

/-- The matrix that is kept. -/
def stored (mm : MatmulPublic) (rows : List (List ℕ)) : MatmulBasic :=
  { mm with
    ncoeffs := (rows.map List.length).sum
    datasize := rows.length + (rows.map List.length).sum
    q := encodeDiffs rows }

theorem matmulBasicBuildCache_eq {mm : MatmulPublic} (h : Stored mm rows) :
    matmulBasicBuildCache mm (encodeRows rows) = some (stored mm rows) := by
  have hrows := diffRows_eq rows []
  rw [List.append_nil] at hrows
  simp [matmulBasicBuildCache, ← h.length, hrows, length_encodeRows, assertAlways_of_true, stored]

end Differences

/-! ## The products -/

section Products

variable {rows : List (List ℕ)} {bound : ℕ} {dst src : ℕ → BitVec 64}

theorem abadd_apply (dst src : ℕ → BitVec 64) (p : ℕ × ℕ) (x : ℕ) :
    abadd dst p.1 (src p.2) x = dst x ^^^ gather [p] src x := by
  simp only [abadd, gather]
  by_cases hx : p.1 = x
  · subst hx
    simp
  · simp [hx, Ne.symm hx]

theorem foldl_abadd (pairs : List (ℕ × ℕ)) (dst src : ℕ → BitVec 64) (x : ℕ) :
    pairs.foldl (fun dst p => abadd dst p.1 (src p.2)) dst x = dst x ^^^ gather pairs src x := by
  induction pairs generalizing dst with
  | nil => simp
  | cons p pairs ih =>
    rw [List.foldl_cons, ih, abadd_apply, BitVec.xor_assoc, ← gather_append]
    rfl

theorem mulRow_eq (add : ℕ → (ℕ → BitVec 64) → ℕ → BitVec 64) (hbound : bound < 2 ^ 32)
    {row : List ℕ} (hrow : ∀ c ∈ row, c < bound) {last : ℕ} (hlast : last < 2 ^ 32)
    (q : List ℕ) (dst : ℕ → BitVec 64) :
    mulRow bound add row.length last (diffs last row ++ q) dst
      = some (q, row.foldl (fun dst j => add j dst) dst) := by
  induction row generalizing last dst with
  | nil => rw [List.length_nil, mulRow, diffs, List.nil_append, List.foldl_nil]
  | cons c row ih =>
    obtain ⟨hc, hrow⟩ := List.forall_mem_cons.mp hrow
    -- the difference modulo 2^32 gives the index back
    have hindex : (last + (c + 2 ^ 32 - last) % 2 ^ 32) % 2 ^ 32 = c := by omega
    rw [List.length_cons, diffs, List.cons_append, mulRow, List.foldl_cons]
    simp only [hindex, assertAlways_of_true hc, some_bind]
    exact ih hrow (hc.trans hbound) _

theorem mulRows_eq (add : ℕ → ℕ → (ℕ → BitVec 64) → ℕ → BitVec 64) (hbound : bound < 2 ^ 32)
    (hrows : ∀ row ∈ rows, ∀ c ∈ row, c < bound) (i : ℕ) (dst : ℕ → BitVec 64) :
    mulRows bound add rows.length i (encodeDiffs rows) dst
      = some ((entries i rows).foldl (fun dst p => add p.1 p.2 dst) dst) := by
  induction rows generalizing i dst with
  | nil => rfl
  | cons row rows ih =>
    obtain ⟨hrow, hrows⟩ := List.forall_mem_cons.mp hrows
    have hread := mulRow_eq (add i) hbound hrow (Nat.two_pow_pos 32)
      (encodeDiffs rows) dst
    have hcons : encodeDiffs (row :: rows) = row.length :: (diffs 0 row ++ encodeDiffs rows) := rfl
    rw [List.length_cons, hcons, mulRows, hread, entries, List.foldl_append, List.foldl_map]
    exact ih hrows _ _

/-- Both products add up the same terms. -/
theorem matmulBasicMul_eq {mm : MatmulPublic} (h : Stored mm rows) (dst src : ℕ → BitVec 64)
    (d : Bool) : matmulBasicMul (stored mm rows) dst src d = some (product mm rows dst src d) := by
  have hbound : mm.dim (!mm.storeTransposed) < 2 ^ 32 := (h.dim _).2
  have hvalue : ∀ pairs, terms mm rows d = pairs →
      pairs.foldl (fun dst p => abadd dst p.1 (src p.2)) (abzero dst (mm.dim !d))
        = product mm rows dst src d := by
    rintro pairs rfl
    funext x
    rw [foldl_abadd, product, abzero]
    split_ifs with hx
    · simp
    · have hzero : gather (terms mm rows d) src x = 0 := by
        refine gather_eq_zero fun p hp heq => hx ?_
        rw [← heq]
        exact (h.mem_terms d hp).1
      rw [hzero]
      simp
  by_cases hd : d = !mm.storeTransposed
  · have hdim : mm.dim (!d) = rows.length := by rw [hd, Bool.not_not, h.length]
    have hrun := mulRows_eq (fun i j dst => abadd dst i (src j)) hbound h.lt 0
      (abzero dst (mm.dim !d))
    rw [← hdim, ← hd] at hrun
    rw [matmulBasicMul, if_pos (show d = !(stored mm rows).storeTransposed from hd)]
    exact hrun.trans (congrArg some (hvalue _ (if_pos hd)))
  · have hd' : d = mm.storeTransposed := by
      revert hd
      cases d <;> cases mm.storeTransposed <;> simp
    have hdim : mm.dim d = rows.length := by rw [hd', h.length]
    have hrun := mulRows_eq (fun i j dst => abadd dst j (src i)) hbound h.lt 0
      (abzero dst (mm.dim !d))
    rw [← hdim, ← hd'] at hrun
    have hterms : terms mm rows d = (entries 0 rows).map Prod.swap := if_neg hd
    have hmap := hvalue _ hterms
    rw [List.foldl_map] at hmap
    rw [matmulBasicMul, if_neg (show ¬d = !(stored mm rows).storeTransposed from hd)]
    exact hrun.trans (congrArg some hmap)

end Products

end CadoNfs.Matmul
