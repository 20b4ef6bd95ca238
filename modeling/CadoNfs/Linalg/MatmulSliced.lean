import Mathlib.Tactic.Ring
import CadoNfs.Linalg.MatmulBasic

/-!
# The sliced sparse matrix product

The rows are cut into slices.  The coefficients of a slice are sorted by column and stored
in 16-bit words as the distance to the previous column and the row in the slice.

Main results:

- Theorem `buildSlices_spec`: the slices hold all coefficients.
- Theorem `mulSlices_direct`: the product in the direction of the storage.
- Theorem `mulSlices_transposed`: the product in the other direction.
- Theorem `matmulSlicedMul_iff`: when the products are those of the basic code.
-/

namespace CadoNfs.Matmul

open Function Gather
open List (Perm append_assoc append_nil cons_append flatMap_cons forall_mem_cons length_cons
  length_drop map_append map_map map_nil mem_map replicate)
open Option (bind_eq_bind bind_eq_some_iff bind_some)

/-! ## Code -/

/-- `matmul_sliced_data_s`. -/
structure MatmulSliced extends MatmulPublic where
  ncoeffs : ℕ
  npack : ℕ
  data : List ℕ

/-- `push`. -/
def push (data : List ℕ) (x : ℕ) : Option (List ℕ) := do
  assertAlways (x >>> 16 = 0)
  some (data ++ [x])

/-- `push32`. -/
def push32 (data : List ℕ) (x : ℕ) : Option (List ℕ) := do
  assertAlways (x >>> 32 = 0)
  some (data ++ [x % 2 ^ 16] ++ [(x >>> 16) % 2 ^ 16])

/-- `read32`. -/
def read32 (q : List ℕ) : Option (ℕ × List ℕ) :=
  match q with
  | lo :: hi :: q => some (lo ||| hi <<< 16, q)
  | _ => none

/-- The coefficients of `npack` rows as pairs of a column and a row, with their number. -/
def packRows (npack di : ℕ) (ptr : List ℕ) : Option (List (ℕ × ℕ) × ℕ × List ℕ) :=
  match npack, ptr with
  | 0, ptr => some ([], 0, ptr)
  | _ + 1, [] => none
  | npack + 1, weight :: ptr => do
    assertAlways (weight ≤ ptr.length)
    let (L, ncoeffs, ptr') ← packRows npack (di + 1) (ptr.drop weight)
    some ((ptr.take weight).map (·, di) ++ L, weight + ncoeffs, ptr')

/-- The order of pairs. -/
def PairLe (a b : ℕ × ℕ) : Prop :=
  a.1 < b.1 ∨ a.1 = b.1 ∧ a.2 ≤ b.2

instance : DecidableRel PairLe :=
  fun a b => inferInstanceAs (Decidable (a.1 < b.1 ∨ a.1 = b.1 ∧ a.2 ≤ b.2))

instance : IsTrans (ℕ × ℕ) PairLe :=
  ⟨fun a b c hab hbc => by unfold PairLe at *; omega⟩

instance : Std.Total PairLe :=
  ⟨fun a b => by unfold PairLe; omega⟩

/-- The loop that stores the sorted pairs. -/
def pushEntries (L : List (ℕ × ℕ)) (j i : ℕ) (data : List ℕ) : Option (List ℕ) :=
  match L with
  | [] => some data
  | lp :: L => do
    let dj := (lp.1 + 2 ^ 32 - j) % 2 ^ 32
    let j := (j + dj) % 2 ^ 32
    let di := (lp.2 + 2 ^ 32 - i) % 2 ^ 32
    let i := (i + di) % 2 ^ 32
    let data ← push data dj
    let data ← push data i
    pushEntries L j i data

/-- The loop over the slices from `s` on. -/
def buildSlices (packbase nslices1 n s : ℕ) (ptr data : List ℕ) (ncoeffs : ℕ) :
    Option (List ℕ × ℕ) :=
  match n with
  | 0 => some (data, ncoeffs)
  | n + 1 => do
    let npack := packbase + if s < nslices1 then 1 else 0
    let (L, weight, ptr) ← packRows npack 0 ptr
    let L := L.insertionSort PairLe
    let data ← push32 data npack
    let data ← push32 data L.length
    let data ← pushEntries L 0 0 data
    let data := data.modify 0 fun x => (x + 1) % 2 ^ 16
    buildSlices packbase nslices1 n (s + 1) ptr data (ncoeffs + weight)

/-- `matmul_sliced_build_cache`. -/
def matmulSlicedBuildCache (mm : MatmulPublic) (npack : ℕ) (data : List ℕ) :
    Option MatmulSliced := do
  let i1 := mm.dim mm.storeTransposed
  assertAlways (npack ≠ 0)
  let nslices := (i1 + npack - 1) % 2 ^ 32 / npack
  let d ← push [] 0
  let d ← push d 0
  assertAlways (nslices ≠ 0)
  let (d, ncoeffs) ← buildSlices (i1 / nslices) (i1 % nslices) nslices 0 data d 0
  some { mm with ncoeffs := ncoeffs, npack := npack, data := d }

/-- The loop over the `n` coefficients of a slice, from the column `j`. -/
def mulSlice (nrows ncols : ℕ) (add : ℕ → ℕ → (ℕ → BitVec 64) → ℕ → BitVec 64) (i n j : ℕ)
    (q : List ℕ) (dst : ℕ → BitVec 64) : Option (List ℕ × (ℕ → BitVec 64)) :=
  match n, q with
  | 0, q => some (q, dst)
  | n + 1, dj :: di :: q => do
    let j := (j + dj) % 2 ^ 32
    assertAlways (i + di < nrows ∧ j < ncols)
    mulSlice nrows ncols add i n j q (add (i + di) j dst)
  | _, _ => none

/-- The loop over the slices. -/
def mulSlices (nrows ncols : ℕ) (zero : ℕ → ℕ → (ℕ → BitVec 64) → Option (ℕ → BitVec 64))
    (add : ℕ → ℕ → (ℕ → BitVec 64) → ℕ → BitVec 64) (nhstrips i : ℕ) (q : List ℕ)
    (dst : ℕ → BitVec 64) : Option (ℕ → BitVec 64) :=
  match nhstrips with
  | 0 => some dst
  | nhstrips + 1 => do
    let (nrowsPacked, q) ← read32 q
    let dst ← zero i nrowsPacked dst
    let (ncoeffsSlice, q) ← read32 q
    let (q, dst) ← mulSlice nrows ncols add i ncoeffsSlice 0 q dst
    mulSlices nrows ncols zero add nhstrips ((i + nrowsPacked) % 2 ^ 32) q dst

/-- `abzero` on the rows of a slice. -/
def abzeroSlice (nrows i n : ℕ) (dst : ℕ → BitVec 64) : Option (ℕ → BitVec 64) := do
  assertAlways (i + n ≤ nrows)
  some fun x => if i ≤ x ∧ x < i + n then 0 else dst x

/-- `matmul_sliced_mul`. -/
def matmulSlicedMul (mm : MatmulSliced) (dst src : ℕ → BitVec 64) (d : Bool) :
    Option (ℕ → BitVec 64) :=
  match mm.data with
  | nhstrips :: _ :: q =>
    if d = !mm.storeTransposed then
      mulSlices (mm.dim !d) (mm.dim d) (abzeroSlice (mm.dim !d))
        (fun i j dst => abadd dst i (src j)) nhstrips 0 q dst
    else
      mulSlices (mm.dim d) (mm.dim !d) (fun _ _ dst => some dst)
        (fun i j dst => abadd dst j (src i)) nhstrips 0 q (abzero dst (mm.dim !d))
  | _ => none

/-! ## Slices -/

section Slices

variable {rows : List (List ℕ)} {L : List (ℕ × ℕ)} {i j n : ℕ} {data q : List ℕ}

/-- A slice with its pairs of a column and a row. -/
structure Slice where
  nrows : ℕ
  L : List (ℕ × ℕ)

/-- The words of sorted pairs after the column `j`. -/
def encodeEntries (j : ℕ) (L : List (ℕ × ℕ)) : List ℕ :=
  match L with
  | [] => []
  | p :: L => (p.1 - j) :: p.2 :: encodeEntries p.1 L

/-- A number in two words. -/
def encode32 (x : ℕ) : List ℕ :=
  [x % 2 ^ 16, (x >>> 16) % 2 ^ 16]

/-- The words of a slice. -/
def Slice.encode (s : Slice) : List ℕ :=
  encode32 s.nrows ++ encode32 s.L.length ++ encodeEntries 0 s.L

/-- The pairs are sorted by column, and in range. -/
structure Slice.Valid (ncols : ℕ) (s : Slice) : Prop where
  pos : 1 ≤ s.nrows
  sorted : s.L.Pairwise fun a b => a.1 ≤ b.1
  length : s.L.length < 2 ^ 32
  lt : ∀ p ∈ s.L, p.1 < ncols ∧ p.2 < s.nrows

/-- The coefficients of the slices from the row `i` on. -/
def sliceEntries (i : ℕ) (slices : List Slice) : List (ℕ × ℕ) :=
  match slices with
  | [] => []
  | s :: slices => s.L.map (fun p => (i + p.2, p.1)) ++ sliceEntries (i + s.nrows) slices

/-- The number of rows of the slices. -/
def totalRows (slices : List Slice) : ℕ :=
  (slices.map Slice.nrows).sum

theorem read32_encode32 {x : ℕ} (hx : x < 2 ^ 32) (q : List ℕ) :
    read32 (encode32 x ++ q) = some (x, q) := by
  have hor := Nat.shiftLeft_add_eq_or_of_lt (Nat.mod_lt x (Nat.two_pow_pos 16)) (x >>> 16)
  have hhigh : x >>> 16 % 2 ^ 16 = x >>> 16 := by
    rw [Nat.shiftRight_eq_div_pow]
    omega
  rw [encode32, hhigh, cons_append, cons_append, List.nil_append, read32, Nat.or_comm,
    ← hor, Nat.shiftLeft_eq, Nat.shiftRight_eq_div_pow]
  refine congrArg (fun y => some (y, q)) ?_
  omega

theorem push32_eq {x : ℕ} (hx : x < 2 ^ 32) (data : List ℕ) :
    push32 data x = some (data ++ encode32 x) := by
  have hshift : x >>> 32 = 0 := by
    rw [Nat.shiftRight_eq_div_pow]
    omega
  simp [push32, hshift, encode32]

theorem totalRows_cons (s : Slice) (slices : List Slice) :
    totalRows (s :: slices) = s.nrows + totalRows slices :=
  rfl

theorem mem_sliceEntries {ncols : ℕ} {slices : List Slice} (h : ∀ s ∈ slices, s.Valid ncols)
    {p : ℕ × ℕ} (hp : p ∈ sliceEntries i slices) :
    i ≤ p.1 ∧ p.1 < i + totalRows slices ∧ p.2 < ncols := by
  induction slices generalizing i with
  | nil => exact absurd hp List.not_mem_nil
  | cons s slices ih =>
    obtain ⟨hs, h⟩ := forall_mem_cons.mp h
    rw [totalRows_cons]
    obtain hp | hp := List.mem_append.mp hp
    · obtain ⟨r, hr, rfl⟩ := mem_map.mp hp
      have := hs.lt r hr
      exact ⟨by omega, by omega, this.1⟩
    · obtain ⟨hle, hlt, hcol⟩ := ih h hp
      exact ⟨by omega, by omega, hcol⟩

theorem entries_take_drop (i : ℕ) (rows : List (List ℕ)) (hn : n ≤ rows.length) :
    entries i rows = entries i (rows.take n) ++ entries (i + n) (rows.drop n) := by
  induction n generalizing i rows with
  | zero => simp [entries]
  | succ n ih =>
    cases rows with
    | nil => simp at hn
    | cons row rows =>
      have hrest := ih (i + 1) rows (by simpa using hn)
      rw [entries, hrest, List.take_succ_cons, List.drop_succ_cons, entries, append_assoc,
        show i + 1 + n = i + (n + 1) by omega]

theorem entries_add (i k : ℕ) (rows : List (List ℕ)) :
    entries (i + k) rows = (entries k rows).map fun p => (i + p.1, p.2) := by
  induction rows generalizing k with
  | nil => rfl
  | cons row rows ih =>
    rw [entries, entries, map_append, map_map, ← ih, add_assoc]
    rfl

theorem packRows_eq (rows : List (List ℕ)) (di : ℕ) (hn : n ≤ rows.length) :
    ∃ ncoeffs, packRows n di (encodeRows rows)
      = some ((entries di (rows.take n)).map Prod.swap, ncoeffs, encodeRows (rows.drop n)) := by
  induction n generalizing di rows with
  | zero => exact ⟨0, by simp [packRows, entries]⟩
  | succ n ih =>
    cases rows with
    | nil => simp at hn
    | cons row rows =>
      obtain ⟨ncoeffs, hrun⟩ := ih rows (di + 1) (by simpa using hn)
      have hcons : encodeRows (row :: rows) = row.length :: (row ++ encodeRows rows) := rfl
      have hle : row.length ≤ (row ++ encodeRows rows).length := by simp
      refine ⟨row.length + ncoeffs, ?_⟩
      rw [hcons, packRows, List.drop_left, List.take_left]
      simp only [assertAlways_of_true hle, hrun, bind_eq_bind, bind_some]
      simp [entries, Function.comp_def]

theorem pushEntries_eq {data' : List ℕ} (h : pushEntries L j i data = some data')
    (hsorted : L.Pairwise fun a b => a.1 ≤ b.1) (hle : ∀ p ∈ L, j ≤ p.1)
    (hlt : ∀ p ∈ L, p.1 < 2 ^ 32 ∧ p.2 < 2 ^ 32) (hj : j < 2 ^ 32) (hi : i < 2 ^ 32) :
    data' = data ++ encodeEntries j L := by
  induction L generalizing j i data with
  | nil =>
    rw [encodeEntries, append_nil]
    exact (Option.some.inj h).symm
  | cons p L ih =>
    obtain ⟨hp, hsorted⟩ := List.pairwise_cons.mp hsorted
    obtain ⟨hjp, -⟩ := forall_mem_cons.mp hle
    obtain ⟨hlt1, hlt⟩ := forall_mem_cons.mp hlt
    have hdj : (p.1 + 2 ^ 32 - j) % 2 ^ 32 = p.1 - j := by omega
    have hj' : (j + (p.1 - j)) % 2 ^ 32 = p.1 := by omega
    have hi' : (i + (p.2 + 2 ^ 32 - i) % 2 ^ 32) % 2 ^ 32 = p.2 := by omega
    rw [pushEntries] at h
    simp only [hdj, hj', hi', push, bind_eq_bind] at h
    by_cases hgap : (p.1 - j) >>> 16 = 0
    · by_cases hrow : p.2 >>> 16 = 0
      · simp only [assertAlways_of_true hgap, assertAlways_of_true hrow, bind_some] at h
        rw [ih h hsorted hp hlt hlt1.1 hlt1.2, encodeEntries]
        simp
      · simp [assertAlways_of_true hgap, assertAlways_of_false hrow] at h
    · simp [assertAlways_of_false hgap] at h

theorem valid_slice {ncols : ℕ} {rows : List (List ℕ)} (hpos : 1 ≤ rows.length)
    (hlt : ∀ row ∈ rows, ∀ c ∈ row, c < ncols)
    (hlength : (((entries 0 rows).map Prod.swap).insertionSort PairLe).length < 2 ^ 32) :
    Slice.Valid ncols ⟨rows.length, ((entries 0 rows).map Prod.swap).insertionSort PairLe⟩ := by
  refine ⟨hpos, ?_, hlength, fun p hp => ?_⟩
  · refine (List.pairwise_insertionSort PairLe _).imp fun {a b} hab => ?_
    obtain hlt | ⟨heq, -⟩ := hab
    · exact hlt.le
    · exact heq.le
  · obtain ⟨r, hr, rfl⟩ := mem_map.mp ((List.mem_insertionSort _).mp hp)
    obtain ⟨-, hrow, row, hmem, hc⟩ := mem_entries hr
    exact ⟨hlt row hmem _ hc, by simpa using hrow⟩

/-- The slices that are stored hold all coefficients. -/
theorem buildSlices_spec {ncols packbase nslices1 n s c ncoeffs : ℕ} {body : List ℕ}
    {res : List ℕ × ℕ} (hncols : ncols < 2 ^ 32)
    (hlt : ∀ row ∈ rows, ∀ c ∈ row, c < ncols) (hrows : rows.length < 2 ^ 32)
    (hpack : 1 ≤ packbase) (hlen : rows.length = n * packbase + (nslices1 - s))
    (hn : nslices1 - s ≤ n) (hc : c < 2 ^ 16)
    (h : buildSlices packbase nslices1 n s (encodeRows rows) (c :: body) ncoeffs = some res)
    (i : ℕ) :
    ∃ slices : List Slice, slices.length = n ∧
      res.1 = (c + n) % 2 ^ 16 :: (body ++ slices.flatMap Slice.encode) ∧
      (∀ s ∈ slices, s.Valid ncols) ∧ (sliceEntries i slices).Perm (entries i rows) ∧
      totalRows slices = rows.length := by
  induction n generalizing s c body ncoeffs rows i with
  | zero =>
    have hnil : rows = [] := List.length_eq_zero_iff.mp (by omega)
    subst hnil
    refine ⟨[], rfl, ?_, nofun, Perm.nil, rfl⟩
    rw [← Option.some.inj h, add_zero, Nat.mod_eq_of_lt hc]
    simp
  | succ n ih =>
    obtain ⟨npack, hnpack⟩ : ∃ npack, packbase + (if s < nslices1 then 1 else 0) = npack :=
      ⟨_, rfl⟩
    have hnext : nslices1 - s = (nslices1 - (s + 1)) + (npack - packbase) := by
      split_ifs at hnpack <;> omega
    have hmul : (n + 1) * packbase = n * packbase + packbase := Nat.succ_mul _ _
    have hle : npack ≤ rows.length := by
      split_ifs at hnpack <;> omega
    have hpos : 1 ≤ npack := by omega
    obtain ⟨weight, hpackRows⟩ := packRows_eq rows 0 hle
    obtain ⟨L, hL⟩ : ∃ L, ((entries 0 (rows.take npack)).map Prod.swap).insertionSort PairLe = L :=
      ⟨_, rfl⟩
    have htake : (rows.take npack).length = npack := by rw [List.length_take]; omega
    rw [buildSlices, hnpack, hpackRows] at h
    simp only [bind_eq_bind, bind_some, hL, push32_eq (hle.trans_lt hrows)] at h
    by_cases hlength : L.length < 2 ^ 32
    swap
    · have hshift : ¬L.length >>> 32 = 0 := by
        rw [Nat.shiftRight_eq_div_pow]
        omega
      simp [push32, assertAlways_of_false hshift] at h
    rw [push32_eq hlength, bind_some] at h
    obtain ⟨data', hpush, h⟩ := bind_eq_some_iff.mp h
    have hvalid : Slice.Valid ncols ⟨npack, L⟩ := by
      have := valid_slice (htake.symm ▸ hpos)
        (fun row hrow => hlt row (List.mem_of_mem_take hrow)) (by rwa [hL])
      rwa [htake, hL] at this
    have hdata := pushEntries_eq hpush hvalid.sorted (fun p _ => p.1.zero_le)
      (fun p hp => ⟨(hvalid.lt p hp).1.trans hncols,
        (show p.2 < npack from (hvalid.lt p hp).2).trans (hle.trans_lt hrows)⟩)
      (by omega) (by omega)
    have hmodify : data'.modify 0 (fun x => (x + 1) % 2 ^ 16)
        = (c + 1) % 2 ^ 16 :: (body ++ Slice.encode ⟨npack, L⟩) := by
      rw [hdata]
      simp [Slice.encode]
    rw [hmodify] at h
    obtain ⟨slices, hslices, hres, hall, hperm, htotal⟩ := ih
      (fun row hrow => hlt row (List.mem_of_mem_drop hrow))
      (by rw [length_drop]; omega) (by rw [length_drop]; omega) (by omega)
      (Nat.mod_lt _ (Nat.two_pow_pos 16)) h (i + npack)
    refine ⟨⟨npack, L⟩ :: slices, by rw [length_cons, hslices], ?_,
      forall_mem_cons.mpr ⟨hvalid, hall⟩, ?_, ?_⟩
    · rw [hres, flatMap_cons, append_assoc, Nat.mod_add_mod,
        show c + 1 + n = c + (n + 1) by omega]
    · rw [entries_take_drop i rows hle, sliceEntries]
      refine Perm.append ?_ hperm
      have hsort : L.Perm ((entries 0 (rows.take npack)).map Prod.swap) :=
        hL ▸ List.perm_insertionSort _ _
      refine (hsort.map _).trans (Perm.of_eq ?_)
      rw [map_map]
      exact (entries_add i 0 (rows.take npack)).symm
    · rw [totalRows_cons, htotal, length_drop]
      exact Nat.add_sub_cancel' hle

end Slices

/-! ## The products -/

section Products

variable {slices : List Slice} {nrows ncols i : ℕ}

theorem mulSlice_eq (add : ℕ → ℕ → (ℕ → BitVec 64) → ℕ → BitVec 64) (hncols : ncols < 2 ^ 32)
    {L : List (ℕ × ℕ)} (hsorted : L.Pairwise fun a b => a.1 ≤ b.1)
    (hlt : ∀ p ∈ L, p.1 < ncols ∧ i + p.2 < nrows) {j : ℕ} (hle : ∀ p ∈ L, j ≤ p.1)
    (q : List ℕ) (dst : ℕ → BitVec 64) :
    mulSlice nrows ncols add i L.length j (encodeEntries j L ++ q) dst
      = some (q, (L.map fun p => (i + p.2, p.1)).foldl (fun dst p => add p.1 p.2 dst) dst) := by
  induction L generalizing j dst with
  | nil => rw [List.length_nil, mulSlice, encodeEntries, List.nil_append, map_nil, List.foldl_nil]
  | cons p L ih =>
    obtain ⟨hp, hsorted⟩ := List.pairwise_cons.mp hsorted
    obtain ⟨hpl, hlt⟩ := forall_mem_cons.mp hlt
    obtain ⟨hjp, -⟩ := forall_mem_cons.mp hle
    have hj : (j + (p.1 - j)) % 2 ^ 32 = p.1 := by omega
    rw [length_cons, encodeEntries, cons_append, cons_append, mulSlice]
    simp only [hj, assertAlways_of_true (And.intro hpl.2 hpl.1), bind_eq_bind,
      bind_some, List.map_cons, List.foldl_cons]
    exact ih hsorted hlt hp _

theorem mulSlice_valid {s : Slice} (add : ℕ → ℕ → (ℕ → BitVec 64) → ℕ → BitVec 64)
    (hncols : ncols < 2 ^ 32) (hs : s.Valid ncols) (hi : i + s.nrows ≤ nrows) (q : List ℕ)
    (dst : ℕ → BitVec 64) :
    mulSlice nrows ncols add i s.L.length 0 (encodeEntries 0 s.L ++ q) dst
      = some (q, (s.L.map fun p => (i + p.2, p.1)).foldl (fun dst p => add p.1 p.2 dst) dst) := by
  refine mulSlice_eq add hncols hs.sorted (fun p hp => ?_) (fun p _ => p.1.zero_le) q dst
  have := hs.lt p hp
  exact ⟨this.1, by omega⟩

theorem mulSlices_cons {s : Slice} {n : ℕ}
    (zero : ℕ → ℕ → (ℕ → BitVec 64) → Option (ℕ → BitVec 64))
    (add : ℕ → ℕ → (ℕ → BitVec 64) → ℕ → BitVec 64) (hncols : ncols < 2 ^ 32)
    (hnrows : nrows < 2 ^ 32) (hs : s.Valid ncols) (hi : i + s.nrows ≤ nrows) (q : List ℕ)
    {dst dst' : ℕ → BitVec 64} (hzero : zero i s.nrows dst = some dst') :
    mulSlices nrows ncols zero add (n + 1) i (s.encode ++ q) dst
      = mulSlices nrows ncols zero add n (i + s.nrows) q
        ((s.L.map fun p => (i + p.2, p.1)).foldl (fun dst p => add p.1 p.2 dst) dst') := by
  rw [mulSlices, Slice.encode, append_assoc, append_assoc, read32_encode32 (by omega)]
  simp only [bind_eq_bind, bind_some, hzero, read32_encode32 hs.length,
    mulSlice_valid add hncols hs hi]
  rw [Nat.mod_eq_of_lt (by omega)]

section

variable (hncols : ncols < 2 ^ 32) (hnrows : nrows < 2 ^ 32) (hslices : ∀ s ∈ slices, s.Valid ncols)
  (hi : i + totalRows slices ≤ nrows) (q : List ℕ) (dst src : ℕ → BitVec 64)
include hncols hnrows hslices hi

/-- The product in the direction of the storage: the rows of the slices are overwritten and
the others stay. -/
theorem mulSlices_direct :
    mulSlices nrows ncols (abzeroSlice nrows) (fun i j dst => abadd dst i (src j)) slices.length i
        (slices.flatMap Slice.encode ++ q) dst
      = some fun x => if i ≤ x ∧ x < i + totalRows slices then
          gather (sliceEntries i slices) src x else dst x := by
  induction slices generalizing i dst with
  | nil =>
    have hnone : ∀ x, ¬(i ≤ x ∧ x < i + totalRows []) := fun x => by
      rw [totalRows, map_nil, List.sum_nil]
      omega
    simp only [hnone, if_false]
    rfl
  | cons s slices ih =>
    have htail := (forall_mem_cons.mp hslices).2
    have hs := (forall_mem_cons.mp hslices).1
    rw [totalRows_cons] at hi ⊢
    have hzero : abzeroSlice nrows i s.nrows dst
        = some fun x => if i ≤ x ∧ x < i + s.nrows then 0 else dst x := by
      rw [abzeroSlice, assertAlways_of_true (show i + s.nrows ≤ nrows by omega)]
      rfl
    rw [length_cons, flatMap_cons, append_assoc,
      mulSlices_cons _ _ hncols hnrows hs (by omega) _ hzero, ih htail (by omega)]
    refine congrArg some (funext fun x => ?_)
    rw [sliceEntries, gather_append, foldl_abadd]
    -- the slice with the cell is the first one, a later one or none
    have hfirst : ¬(i ≤ x ∧ x < i + s.nrows) →
        gather (s.L.map fun p => (i + p.2, p.1)) src x = 0 := by
      refine fun hx => gather_eq_zero fun p hp heq => hx ?_
      obtain ⟨r, hr, rfl⟩ := mem_map.mp hp
      have := hs.lt r hr
      omega
    have hlater : ¬i + s.nrows ≤ x → gather (sliceEntries (i + s.nrows) slices) src x = 0 := by
      refine fun hx => gather_eq_zero fun p hp heq => hx ?_
      have := mem_sliceEntries htail hp
      omega
    by_cases hx : i ≤ x ∧ x < i + s.nrows
    · rw [if_neg (by omega), if_pos hx, if_pos (by omega), hlater (by omega)]
      simp
    · rw [if_neg hx, hfirst hx]
      by_cases hx' : i + s.nrows ≤ x ∧ x < i + s.nrows + totalRows slices
      · rw [if_pos hx', if_pos (by omega)]
        simp
      · rw [if_neg hx', if_neg (by omega)]
        simp

/-- The product in the other direction. -/
theorem mulSlices_transposed :
    mulSlices nrows ncols (fun _ _ dst => some dst) (fun i j dst => abadd dst j (src i))
        slices.length i (slices.flatMap Slice.encode ++ q) dst
      = some fun x => dst x ^^^ gather ((sliceEntries i slices).map Prod.swap) src x := by
  induction slices generalizing i dst with
  | nil =>
    simp only [sliceEntries, map_nil, gather_nil]
    simp [mulSlices]
  | cons s slices ih =>
    have htail := (forall_mem_cons.mp hslices).2
    have hs := (forall_mem_cons.mp hslices).1
    rw [totalRows_cons] at hi
    rw [length_cons, flatMap_cons, append_assoc,
      mulSlices_cons _ _ hncols hnrows hs (by omega) _ rfl, ih htail (by omega)]
    refine congrArg some (funext fun x => ?_)
    have hfold := foldl_abadd ((s.L.map fun p => (i + p.2, p.1)).map Prod.swap) dst src x
    rw [List.foldl_map] at hfold
    rw [sliceEntries, map_append, gather_append, ← BitVec.xor_assoc, ← hfold]
    rfl

end

end Products

/-! ## Comparison with the basic code -/

section Comparison

variable {mm : MatmulPublic} {rows : List (List ℕ)} {npack : ℕ} {sl : MatmulSliced}

theorem nslices_eq {x : ℕ} (hx : 1 ≤ x) (hx32 : x < 2 ^ 32) (hpack32 : npack < 2 ^ 32)
    (hne : (x + npack - 1) % 2 ^ 32 / npack ≠ 0) :
    (x + npack - 1) % 2 ^ 32 / npack = (x + npack - 1) / npack := by
  by_cases hlt : x + npack - 1 < 2 ^ 32
  · rw [Nat.mod_eq_of_lt hlt]
  · -- after an overflow the quotient is zero
    have hsmall : (x + npack - 1) % 2 ^ 32 < npack := by omega
    exact absurd (Nat.div_eq_of_lt hsmall) hne

/-- The cache holds all entries in valid slices. -/
theorem matmulSlicedBuildCache_spec (h : Stored mm rows) (hpack32 : npack < 2 ^ 32)
    (hbuild : matmulSlicedBuildCache mm npack (encodeRows rows) = some sl) :
    ∃ slices : List Slice, slices.length = (rows.length + npack - 1) / npack ∧
      sl.toMatmulPublic = mm ∧
      sl.data = slices.length % 2 ^ 16 :: 0 :: slices.flatMap Slice.encode ∧
      (∀ s ∈ slices, s.Valid (mm.dim !mm.storeTransposed)) ∧
      (sliceEntries 0 slices).Perm (entries 0 rows) ∧ totalRows slices = rows.length := by
  have hdim := h.dim mm.storeTransposed
  rw [← h.length] at hdim
  rw [matmulSlicedBuildCache, ← h.length] at hbuild
  by_cases hpack : npack = 0
  · simp [assertAlways_of_false, hpack] at hbuild
  by_cases hzero : (rows.length + npack - 1) % 2 ^ 32 / npack = 0
  · simp only [hzero, push] at hbuild
    simp [assertAlways_of_false, assertAlways_of_true, hpack] at hbuild
  have hnslices := nslices_eq hdim.1 hdim.2 hpack32 hzero
  obtain ⟨nslices, hn⟩ : ∃ nslices, (rows.length + npack - 1) / npack = nslices := ⟨_, rfl⟩
  rw [hnslices, hn] at hzero hbuild
  have hpush : ∀ data, push data 0 = some (data ++ [0]) := fun data => by simp [push]
  simp only [assertAlways_of_true hpack, assertAlways_of_true hzero, hpush, bind_eq_bind,
    bind_some] at hbuild
  obtain ⟨⟨data, ncoeffs⟩, hrun, hres⟩ := bind_eq_some_iff.mp hbuild
  have hle : nslices ≤ rows.length := by
    rw [← hn]
    refine Nat.div_le_of_le_mul ?_
    obtain ⟨a, ha⟩ := Nat.exists_eq_add_of_le' (show 1 ≤ npack by omega)
    obtain ⟨b, hb⟩ := Nat.exists_eq_add_of_le' hdim.1
    have hmul : (a + 1) * (b + 1) = a * b + a + b + 1 := by ring
    rw [ha, hb]
    omega
  have hdiv := Nat.div_add_mod rows.length nslices
  have hmod := Nat.mod_lt rows.length (show 0 < nslices by omega)
  obtain ⟨slices, hlen, hdata, hvalid, hperm, htotal⟩ := buildSlices_spec
    (h.dim _).2 h.lt hdim.2 (Nat.div_pos hle (by omega)) (by omega) (by omega) (by omega) hrun 0
  obtain rfl := Option.some.inj hres
  refine ⟨slices, hlen.trans hn.symm, rfl, ?_, hvalid, hperm, htotal⟩
  rw [hlen]
  simpa using hdata

section

variable {slices : List Slice} (h : Stored mm rows) (hmm : sl.toMatmulPublic = mm)
include h hmm

theorem matmulSlicedMul_eq (hdata : sl.data = slices.length :: 0 :: slices.flatMap Slice.encode)
    (hvalid : ∀ s ∈ slices, s.Valid (mm.dim !mm.storeTransposed))
    (hperm : (sliceEntries 0 slices).Perm (entries 0 rows))
    (htotal : totalRows slices = rows.length) (dst src : ℕ → BitVec 64) (d : Bool) :
    matmulSlicedMul sl dst src d = some (product mm rows dst src d) := by
  subst hmm
  have hi : 0 + totalRows slices ≤ sl.dim sl.storeTransposed := by
    rw [zero_add, htotal, h.length]
  rw [matmulSlicedMul, hdata]
  by_cases hd : d = !sl.storeTransposed
  · have hnot : (!d) = sl.storeTransposed := by rw [hd, Bool.not_not]
    have hrun := mulSlices_direct (h.dim _).2 (h.dim _).2 hvalid hi [] dst src
    rw [append_nil] at hrun
    simp only [if_pos hd, hnot]
    rw [hd, hrun]
    refine congrArg some (funext fun x => ?_)
    have hterms : terms sl.toMatmulPublic rows (!sl.storeTransposed) = entries 0 rows := if_pos rfl
    rw [product, hterms, gather_perm hperm, Bool.not_not, zero_add, htotal, h.length]
    simp
  · have hd' : d = sl.storeTransposed := by
      revert hd
      cases d <;> cases sl.storeTransposed <;> simp
    have hrun := mulSlices_transposed (h.dim _).2 (h.dim _).2 hvalid hi []
      (abzero dst (sl.dim !sl.storeTransposed)) src
    rw [append_nil] at hrun
    simp only [if_neg hd]
    rw [hd', hrun]
    refine congrArg some (funext fun x => ?_)
    have hterms : terms sl.toMatmulPublic rows sl.storeTransposed
        = (entries 0 rows).map Prod.swap := if_neg (hd' ▸ hd)
    rw [product, abzero, hterms, gather_perm (hperm.map Prod.swap)]
    split_ifs with hx
    · simp
    · have hzero : gather ((entries 0 rows).map Prod.swap) src x = 0 := by
        refine gather_eq_zero fun p hp heq => hx ?_
        rw [← heq]
        exact (h.mem_terms sl.storeTransposed (hterms ▸ hp)).1
      rw [hzero]
      simp

/-- With `2 ^ 16` slices the product goes wrong. -/
theorem matmulSlicedMul_ne
    (hdata : sl.data = slices.length % 2 ^ 16 :: 0 :: slices.flatMap Slice.encode)
    (hvalid : ∀ s ∈ slices, s.Valid (mm.dim !mm.storeTransposed))
    (htotal : totalRows slices = rows.length) (hlarge : 2 ^ 16 ≤ slices.length) :
    matmulSlicedMul sl (fun _ => 1) (fun _ => 0) (!mm.storeTransposed)
      ≠ matmulBasicMul (stored mm rows) (fun _ => 1) (fun _ => 0) (!mm.storeTransposed) := by
  subst hmm
  obtain ⟨n, hn⟩ : ∃ n, slices.length % 2 ^ 16 = n := ⟨_, rfl⟩
  have hlt : n < slices.length := by omega
  obtain ⟨s, hs⟩ : ∃ s, s ∈ slices.drop n :=
    List.exists_mem_of_length_pos (by rw [length_drop]; omega)
  -- a row of a slice that is not reached
  have hrows : totalRows (slices.take n) + s.nrows ≤ totalRows slices := by
    have hsplit : totalRows slices = totalRows (slices.take n) + totalRows (slices.drop n) := by
      rw [totalRows, totalRows, totalRows, ← List.sum_append, ← map_append, List.take_append_drop]
    rw [hsplit]
    exact Nat.add_le_add_left (List.single_le_sum (by simp) _ (List.mem_map_of_mem hs)) _
  have hpos := (hvalid s (List.mem_of_mem_drop hs)).pos
  have hrun := mulSlices_direct (h.dim _).2 (h.dim _).2
    (fun s hs => hvalid s (List.mem_of_mem_take hs))
    (show 0 + totalRows (slices.take n) ≤ sl.dim sl.storeTransposed by rw [← h.length]; omega)
    ((slices.drop n).flatMap Slice.encode) (fun _ => 1) fun _ => 0
  rw [← List.flatMap_append, List.take_append_drop, List.length_take, min_eq_left hlt.le] at hrun
  rw [matmulBasicMul_eq h, matmulSlicedMul, hdata, hn]
  simp only [Bool.not_not, if_true]
  rw [hrun]
  intro heq
  have hlast := congrFun (Option.some.inj heq) (rows.length - 1)
  rw [if_neg (by omega), product, if_pos (by rw [Bool.not_not, ← h.length]; omega),
    gather_zero] at hlast
  exact absurd hlast (by decide)

end

/-- The basic code computes the products of the matrix and a vector.  The sliced code computes
the same if and only if there are less than `2 ^ 16` slices. -/
theorem matmulSlicedMul_iff (h : Stored mm rows) :
    (∃ b, matmulBasicBuildCache mm (encodeRows rows) = some b ∧
      (∀ dst src d, ∃ dst', matmulBasicMul b dst src d = some dst' ∧
        IsProduct mm rows dst' src d ∧ ∀ x, mm.dim (!d) ≤ x → dst' x = dst x) ∧
      ∀ npack sl, npack < 2 ^ 32 → matmulSlicedBuildCache mm npack (encodeRows rows) = some sl →
        ((∀ dst src d, matmulSlicedMul sl dst src d = matmulBasicMul b dst src d) ↔
          (mm.dim mm.storeTransposed + npack - 1) / npack < 2 ^ 16)) := by
  refine ⟨stored mm rows, matmulBasicBuildCache_eq h, fun dst src d => ?_,
    fun npack sl hpack32 hbuild => ?_⟩
  · refine ⟨_, matmulBasicMul_eq h dst src d, h.isProduct dst src d, fun x hx => ?_⟩
    rw [product, if_neg (by omega)]
  · obtain ⟨slices, hlen, hmm, hdata, hvalid, hperm, htotal⟩ :=
      matmulSlicedBuildCache_spec h hpack32 hbuild
    rw [← h.length, ← hlen]
    constructor
    · intro hall
      by_contra hlarge
      exact matmulSlicedMul_ne h hmm hdata hvalid htotal (by omega) (hall _ _ _)
    · intro hlt dst src d
      rw [Nat.mod_eq_of_lt hlt] at hdata
      rw [matmulBasicMul_eq h, matmulSlicedMul_eq h hmm hdata hvalid hperm htotal]

end Comparison

/-! ## Examples -/

section Examples

/-- The number of rows and the number of columns. -/
def dims (nrows ncols : ℕ) (d : Bool) : ℕ :=
  if d then ncols else nrows

theorem stored_two : Stored ⟨dims 2 3, false⟩ [[2, 0, 2], [1]] := by
  refine ⟨rfl, by decide, by decide, fun d => ?_⟩
  cases d <;> decide

/-- A matrix with a repeated coefficient. -/
theorem matmulSlicedMul_iff_two :
    ∃ b sl, matmulBasicBuildCache ⟨dims 2 3, false⟩ (encodeRows [[2, 0, 2], [1]]) = some b ∧
      matmulSlicedBuildCache ⟨dims 2 3, false⟩ 1 (encodeRows [[2, 0, 2], [1]]) = some sl ∧
      ∀ dst src d, matmulSlicedMul sl dst src d = matmulBasicMul b dst src d := by
  obtain ⟨b, hb, -, hsliced⟩ := matmulSlicedMul_iff stored_two
  obtain ⟨sl, hsl⟩ : ∃ sl, matmulSlicedBuildCache ⟨dims 2 3, false⟩ 1
      (encodeRows [[2, 0, 2], [1]]) = some sl := Option.ne_none_iff_exists'.mp (by decide +kernel)
  exact ⟨b, sl, hb, hsl, (hsliced 1 sl (by decide) hsl).mpr (by decide)⟩

theorem buildSlices_empty (n s ncoeffs : ℕ) (data : List ℕ) :
    ∃ res, buildSlices 1 0 n s (encodeRows (replicate n [])) data ncoeffs = some res := by
  induction n generalizing s ncoeffs data with
  | zero => exact ⟨_, rfl⟩
  | succ n ih =>
    have hrow : packRows 1 0 (encodeRows (replicate (n + 1) []))
        = some ([], 0, encodeRows (replicate n [])) := by
      simp [List.replicate_succ, encodeRows, packRows, assertAlways_of_true]
    have hone := push32_eq (show 1 < 2 ^ 32 by decide)
    have hzero := push32_eq (show 0 < 2 ^ 32 by decide)
    simpa [buildSlices, hrow, hone, hzero, pushEntries] using ih (s + 1) ncoeffs _

theorem stored_empty {n : ℕ} (hpos : 1 ≤ n) (hn : n < 2 ^ 32) :
    Stored ⟨dims n 1, false⟩ (replicate n []) := by
  refine ⟨List.length_replicate, ?_, ?_, fun d => ?_⟩
  · intro row hrow
    rw [List.eq_of_mem_replicate hrow]
    decide
  · intro row hrow
    rw [List.eq_of_mem_replicate hrow]
    exact fun c hc => absurd hc List.not_mem_nil
  · cases d
    · exact ⟨hpos, hn⟩
    · exact ⟨le_rfl, Nat.one_lt_two_pow (by omega)⟩

theorem matmulSlicedBuildCache_empty {n : ℕ} (hpos : 1 ≤ n) (hn : n < 2 ^ 32) :
    ∃ sl, matmulSlicedBuildCache ⟨dims n 1, false⟩ 1 (encodeRows (replicate n []))
      = some sl := by
  obtain ⟨res, hres⟩ := buildSlices_empty n 0 0 [0, 0]
  have hdim : (dims n 1 false + 1 - 1) % 2 ^ 32 / 1 = n := by
    rw [dims, Nat.div_one, Nat.add_sub_cancel]
    exact Nat.mod_eq_of_lt hn
  have hpush : ∀ data, push data 0 = some (data ++ [0]) := fun data => by simp [push]
  refine ⟨⟨⟨dims n 1, false⟩, res.2, 1, res.1⟩, ?_⟩
  simp only [matmulSlicedBuildCache, hdim, hpush, assertAlways_of_true Nat.one_ne_zero,
    assertAlways_of_true (show n ≠ 0 by omega), bind_eq_bind, bind_some]
  rw [show dims n 1 false = n from rfl, Nat.div_self (by omega), Nat.mod_self]
  exact bind_eq_some_iff.mpr ⟨res, hres, rfl⟩

/-- With 65536 slices their number is stored as 0, and nothing is computed. -/
theorem matmulSlicedMul_empty :
    ∃ b sl, matmulBasicBuildCache ⟨dims 65536 1, false⟩ (encodeRows (replicate 65536 []))
        = some b ∧
      matmulSlicedBuildCache ⟨dims 65536 1, false⟩ 1 (encodeRows (replicate 65536 []))
        = some sl ∧
      matmulSlicedMul sl (fun _ => 1) (fun _ => 0) true = some (fun _ => 1) ∧
      ∃ dst', matmulBasicMul b (fun _ => 1) (fun _ => 0) true = some dst' ∧ dst' 0 = 0 := by
  have hstored := stored_empty (show 1 ≤ 65536 by decide) (by decide)
  obtain ⟨sl, hsl⟩ := matmulSlicedBuildCache_empty (show 1 ≤ 65536 by decide) (by decide)
  obtain ⟨slices, hlen, hmm, hdata, -⟩ := matmulSlicedBuildCache_spec hstored (by decide) hsl
  have hcount : slices.length % 2 ^ 16 = 0 := by
    rw [hlen, List.length_replicate]
    rfl
  rw [hcount] at hdata
  refine ⟨_, sl, matmulBasicBuildCache_eq hstored, hsl, ?_, _, matmulBasicMul_eq hstored _ _ _, ?_⟩
  · have hd : true = !sl.storeTransposed := by rw [hmm]; rfl
    rw [matmulSlicedMul, hdata]
    exact if_pos hd
  · rw [product, if_pos (by decide), gather_zero]

end Examples

end CadoNfs.Matmul
