import CadoNfs.Filter.IndexFile
import CadoNfs.Linalg.CharacterBits

/-!
# The matrices of characters

The big matrix of the program `characters` has a row for each purged pair, filled
batch by batch; a row of the small matrix adds up the rows of a relation set of the index
file.

Main results:

- Theorem `bigCharacterMatrix_spec`: the bits of the big matrix.
- Theorem `addRows_spec`: the rows that the index file asks for are added up.
- Theorem `smallCharacterMatrix_iff`: when the bits of the small matrix are what the
  characters say about the products over the relation sets.
-/

namespace CadoNfs.Characters

open Function (update update_of_ne update_self)
open ForRange Gf2 WordArith BlockMatrix
open Replay (indexRows scanInt)
open Option (bind_eq_bind bind_some getD_some)

variable {w : ℕ}

/-! ## Code -/

/-- An assignment to the word that `blockmatrix_subrow_ptr` points to. -/
def setSubrow (res : BlockMatrix) (i j : ℕ) (v : BitVec 64) : Option BlockMatrix := do
  assertAlways (j % 64 = 0)
  some { res with words := update res.words (res.block (i / 64) (j / 64) + i % 64) v }

/-- The size of a batch in `big_character_matrix`. -/
def batchsize : ℕ := 16384

/-- The characters from `64 * cg` on at a batch of pairs, in the rows from `i`
on. -/
def storeBatch (build : UlarithBuild) (pol : CadoPoly) (chars : ℕ → AlgPrime w)
    (A B : ℕ → BitVec 64) (g i bs cg : ℕ) :
    BlockMatrix × (ℕ → BitVec 64) → Option (BlockMatrix × (ℕ → BitVec 64))
  | (res, W) => do
    let W ← eval64charsBatch build pol (fun j => chars (64 * cg + j)) A B bs g W
    let res ← forRangeM bs (fun z res => setSubrow res (i + z) (64 * cg) (W z)) res
    some (res, W)

/-- The loop of `big_character_matrix` over the pairs that are left in the file;
`W` is what the array holds at first. -/
def bigRows (build : UlarithBuild) (pol : CadoPoly) (chars : ℕ → AlgPrime w) (nchars2 g : ℕ)
    (W : ℕ → BitVec 64) (pairs : List (BitVec 64 × BitVec 64)) (i : ℕ) (res : BlockMatrix) :
    Option BlockMatrix := do
  let batch := pairs.take batchsize
  let bs := batch.length
  let A := fun z => (batch.getD z (0#64, 0#64)).1
  let B := fun z => (batch.getD z (0#64, 0#64)).2
  let r ← forRangeM ((nchars2 + 63) / 64) (storeBatch build pol chars A B g i bs) (res, W)
  if bs < batchsize then some r.1
  else bigRows build pol chars nchars2 g W (pairs.drop batchsize) (i + bs) r.1
termination_by pairs.length
decreasing_by
  have hbs : ¬(pairs.take batchsize).length < batchsize := by assumption
  rw [List.length_take, batchsize] at hbs
  rw [List.length_drop, batchsize]
  omega

/-- `big_character_matrix` on a file of `nrows` pairs; `mem` is what
`malloc` leaves in the area and `W` what the array holds. -/
def bigCharacterMatrix (build : UlarithBuild) (pol : CadoPoly) (chars : ℕ → AlgPrime w)
    (nchars2 g : ℕ) (mem : Words) (W : ℕ → BitVec 64) (nrows : ℕ)
    (pairs : List (BitVec 64 × BitVec 64)) : Option BlockMatrix :=
  bigRows build pol chars nchars2 g W pairs 0 (alloc mem nrows nchars2).setZero

/-- The words of row `i`, up to the column `nchars2`, are cleared. -/
def clearRow (res : BlockMatrix) (nchars2 i : ℕ) : BlockMatrix :=
  { res with
    words := forRange ((nchars2 + 63) / 64) (fun cg words =>
      update words (64 * (i / 64 + cg * res.nrblocks) + i % 64) 0#64) res.words }

/-- The words of row `col` of `bcmat` are added to those of row `i`. -/
def addRow (res bcmat : BlockMatrix) (nchars2 i col : ℕ) : BlockMatrix :=
  { res with
    words := forRange ((nchars2 + 63) / 64) (fun cg words =>
      let p := 64 * (i / 64 + cg * res.nrblocks) + i % 64
      update words p
        (words p ^^^ bcmat.words (64 * (col / 64 + cg * bcmat.nrblocks) + col % 64)))
      res.words }

/-- The rest of a line of the index file, `nc` numbers, in row `i`. -/
def addRelationSet (bcmat : BlockMatrix) (i nc : ℕ) (res : BlockMatrix) (text : List Char) :
    Option (BlockMatrix × List Char) :=
  forRangeM nc (fun _ (res, text) => do
    let (col, text) ← scanInt 16 text
    assertAlways (col < bcmat.nrows)
    some (addRow res bcmat bcmat.ncols i col, text)) (res, text)

/-- `small_character_matrix`. -/
def smallCharacterMatrix (bcmat : BlockMatrix) (mem : Words) (text : List Char) :
    Option BlockMatrix := do
  let (smallNrows, text) ← scanInt 10 text
  let (_, text) ← scanInt 10 text
  let r ← forRangeM smallNrows (fun i (res, text) => do
    let (nc, text) ← scanInt 10 text
    addRelationSet bcmat i nc (clearRow res bcmat.ncols i) text)
    (alloc mem smallNrows bcmat.ncols, text)
  some r.1

/-! ## Storage -/

/-- A matrix with a storage of its own. -/
structure Allocated (m : BlockMatrix) (n N : ℕ) : Prop where
  size : m.HasSize n N
  mb : m.mb = 0
  sub : m.sub = false

variable {m res bcmat : BlockMatrix} {n N l : ℕ}

theorem Allocated.withWords (h : Allocated m n N) (words : Words) :
    Allocated { m with words := words } n N :=
  ⟨⟨h.size.nrows, h.size.ncols⟩, h.mb, h.sub⟩

theorem allocated_alloc (mem : Words) (n N : ℕ) : Allocated (alloc mem n N) n N :=
  ⟨⟨rfl, rfl⟩, rfl, rfl⟩

theorem Allocated.block_eq (h : Allocated m n N) (i j : ℕ) :
    m.block i j = 64 * (i + j * m.nrblocks) := by
  rw [block, h.mb, m.stride_eq h.sub, zero_add]

theorem Allocated.row_inj (h : Allocated m n N) {i i' j j' : ℕ} (hi : i < n) (hi' : i' < n)
    (heq : m.block (i / 64) j + i % 64 = m.block (i' / 64) j' + i' % 64) :
    i = i' ∧ j = j' := by
  obtain ⟨hdiv, hcol, hmod⟩ := m.block_add_inj (h.size.div_lt_nrblocks hi)
    (h.size.div_lt_nrblocks hi') (Nat.mod_lt _ (by decide)) (Nat.mod_lt _ (by decide)) heq
  exact ⟨by omega, hcol⟩

theorem setSubrow_spec (h : Allocated m n N) {i : ℕ} (hi : i < n) (cg : ℕ) (v : BitVec 64) :
    ∃ m', setSubrow m i (64 * cg) v = some m' ∧ Allocated m' n N ∧
      ∀ i' < n, ∀ c, m'.entry i' c
        = if i' = i ∧ c / 64 = cg then bit v (c % 64) else m.entry i' c := by
  rw [setSubrow, assertAlways_of_true (Nat.mul_mod_right 64 cg)]
  refine ⟨_, rfl, h.withWords _, fun i' hi' c => ?_⟩
  rw [Nat.mul_div_cancel_left cg (by decide)]
  by_cases hat : i' = i ∧ c / 64 = cg
  · rw [if_pos hat, ← hat.1, ← hat.2]
    exact congrArg (bit · (c % 64)) (update_self _ _ _)
  · rw [if_neg hat]
    refine congrArg (bit · (c % 64)) (update_of_ne (fun heq => hat ?_) _ _)
    exact h.row_inj hi' hi heq

/-! ## The big matrix -/

section Big

variable {pol : CadoPoly} {chars : ℕ → AlgPrime w} {g : ℕ} (hw : w = 32 ∨ w = 64)
  (build : UlarithBuild)
include hw

/-- The characters from `64 * cg` on at a batch are stored, and nothing else
changes. -/
theorem storeBatch_spec {cg i bs : ℕ}
    (hchars : ∀ j < 64, Built pol (chars (64 * cg + j))) {A B : ℕ → BitVec 64}
    (hne : ∀ z < bs, (A z, B z) ≠ (0#64, 0#64)) (hg : 0 < g) (h : Allocated res n N)
    (hlast : i + bs ≤ n) (W : ℕ → BitVec 64) :
    ∃ res' W', storeBatch build pol chars A B g i bs cg (res, W) = some (res', W') ∧
      Allocated res' n N ∧ ∀ i' < n, ∀ c, res'.entry i' c
        = if i ≤ i' ∧ i' < i + bs ∧ c / 64 = cg then
            meaningBit pol (chars c) [readPair pol (chars c) (A (i' - i), B (i' - i))]
          else res.entry i' c := by
  obtain ⟨W', hbatch, hW'⟩ := eval64charsBatch_spec hw build hchars hne hg W
  have hloop := forRangeM_induct
    (motive := fun z (res' : BlockMatrix) => Allocated res' n N ∧ ∀ i' < n, ∀ c,
      res'.entry i' c = if i ≤ i' ∧ i' < i + z ∧ c / 64 = cg then bit (W' (i' - i)) (c % 64)
        else res.entry i' c)
    (fun z res => setSubrow res (i + z) (64 * cg) (W' z)) res bs ?_ ?_
  · obtain ⟨res', hrun, hres', hentry⟩ := hloop
    refine ⟨res', W', ?_, hres', fun i' hi' c => ?_⟩
    · simp [storeBatch, hbatch, hrun]
    · rw [hentry i' hi' c]
      split_ifs with hat
      · have hword := hW' (i' - i) (by omega) (c % 64) (Nat.mod_lt _ (by decide))
        simpa only [← hat.2.2, Nat.div_add_mod] using hword
      · rfl
  · exact ⟨h, fun i' _ c => (if_neg (by omega)).symm⟩
  · rintro z hz res₁ ⟨hres₁, hentry⟩
    obtain ⟨res₂, hrun, hres₂, hset⟩ := setSubrow_spec hres₁ (show i + z < n by omega) cg (W' z)
    refine ⟨res₂, hrun, hres₂, fun i' hi' c => ?_⟩
    rw [hset i' hi' c, hentry i' hi' c]
    by_cases hat : i' = i + z ∧ c / 64 = cg
    · rw [if_pos hat, if_pos (by omega), hat.1, Nat.add_sub_cancel_left]
    · rw [if_neg hat]
      exact if_congr (by omega) rfl rfl

theorem storeBatches_spec {i bs : ℕ} (hN : N % 64 = 0)
    (hchars : ∀ c < N, Built pol (chars c)) {A B : ℕ → BitVec 64}
    (hne : ∀ z < bs, (A z, B z) ≠ (0#64, 0#64)) (hg : 0 < g) (h : Allocated res n N)
    (hlast : i + bs ≤ n) (W : ℕ → BitVec 64) :
    ∃ r, forRangeM ((N + 63) / 64) (storeBatch build pol chars A B g i bs) (res, W) = some r ∧
      Allocated r.1 n N ∧ ∀ i' < n, ∀ c < N, r.1.entry i' c
        = if i ≤ i' ∧ i' < i + bs then
            meaningBit pol (chars c) [readPair pol (chars c) (A (i' - i), B (i' - i))]
          else res.entry i' c := by
  have hloop := forRangeM_induct
    (motive := fun cg (r : BlockMatrix × (ℕ → BitVec 64)) => Allocated r.1 n N ∧
      ∀ i' < n, ∀ c, r.1.entry i' c = if i ≤ i' ∧ i' < i + bs ∧ c / 64 < cg then
          meaningBit pol (chars c) [readPair pol (chars c) (A (i' - i), B (i' - i))]
        else res.entry i' c)
    (storeBatch build pol chars A B g i bs) (res, W) ((N + 63) / 64) ?_ ?_
  · obtain ⟨r, hrun, hr, hentry⟩ := hloop
    refine ⟨r, hrun, hr, fun i' hi' c hc => ?_⟩
    rw [hentry i' hi' c]
    exact if_congr (by omega) rfl rfl
  · exact ⟨h, fun i' _ c => (if_neg (by omega)).symm⟩
  · rintro cg hcg ⟨res₁, W₁⟩ ⟨hres₁, hentry⟩
    obtain ⟨res₂, W₂, hrun, hres₂, hstore⟩ := storeBatch_spec hw build
      (fun j hj => hchars (64 * cg + j) (by omega)) hne hg hres₁ hlast W₁
    refine ⟨(res₂, W₂), hrun, hres₂, fun i' hi' c => ?_⟩
    rw [hstore i' hi' c, hentry i' hi' c]
    by_cases hat : i ≤ i' ∧ i' < i + bs ∧ c / 64 = cg
    · rw [if_pos hat, if_pos (by omega)]
    · rw [if_neg hat]
      exact if_congr (by omega) rfl rfl

section

variable (hN : N % 64 = 0) (hchars : ∀ c < N, Built pol (chars c)) (hg : 0 < g)
include hN hchars hg

/-- A batch of pairs fills its rows with the meanings of the bits. -/
theorem bigRows_spec (W : ℕ → BitVec 64)
    (pairs : List (BitVec 64 × BitVec 64)) (hne : ∀ x ∈ pairs, x ≠ (0#64, 0#64)) {i : ℕ}
    (h : Allocated res n N) (hlast : i + pairs.length = n) :
    ∃ res', bigRows build pol chars N g W pairs i res = some res' ∧ Allocated res' n N ∧
      ∀ i' < n, ∀ c < N, res'.entry i' c
        = if i ≤ i' then
            meaningBit pol (chars c)
              [readPair pol (chars c) (pairs.getD (i' - i) (0#64, 0#64))]
          else res.entry i' c := by
  induction hlength : pairs.length using Nat.strong_induction_on generalizing pairs i res with
  | _ length ih =>
  subst hlength
  have htake : ∀ z < (pairs.take batchsize).length,
      (pairs.take batchsize).getD z (0#64, 0#64) = pairs.getD z (0#64, 0#64) := by
    intro z hz
    rw [List.length_take] at hz
    rw [List.getD_eq_getElem?_getD, List.getD_eq_getElem?_getD, List.getElem?_take_of_lt (by omega)]
  have hbatch : ∀ z < (pairs.take batchsize).length,
      (((pairs.take batchsize).getD z (0#64, 0#64)).1,
        ((pairs.take batchsize).getD z (0#64, 0#64)).2) ≠ (0#64, 0#64) := by
    intro z hz
    rw [Prod.mk.eta, List.getD_eq_getElem?_getD, List.getElem?_eq_getElem hz, getD_some]
    exact hne _ (List.mem_of_mem_take (List.getElem_mem hz))
  have hle : (pairs.take batchsize).length ≤ pairs.length := List.length_take_le' _ _
  obtain ⟨r, hrun, hr, hentry⟩ := storeBatches_spec hw build hN hchars hbatch hg h
    (show i + (pairs.take batchsize).length ≤ n by omega) W
  rw [bigRows]
  simp only [hrun, bind_eq_bind, bind_some]
  by_cases hshort : (pairs.take batchsize).length < batchsize
  · refine ⟨r.1, if_pos hshort, hr, fun i' hi' c hc => ?_⟩
    have hall : (pairs.take batchsize).length = pairs.length := by
      rw [List.length_take] at hshort ⊢
      omega
    rw [hentry i' hi' c hc]
    by_cases hi : i ≤ i'
    · rw [if_pos (by omega), if_pos hi, Prod.mk.eta, htake _ (by omega)]
    · rw [if_neg (by omega), if_neg hi]
  · have hfull : (pairs.take batchsize).length = batchsize := by
      rw [List.length_take] at hshort ⊢
      omega
    have hpos : 0 < batchsize := by decide
    obtain ⟨res', hrest, hres', hlater⟩ := ih (pairs.drop batchsize).length
      (by rw [List.length_drop]; omega) (pairs.drop batchsize)
      (fun x hx => hne x (List.mem_of_mem_drop hx)) hr
      (show i + (pairs.take batchsize).length + (pairs.drop batchsize).length = n by
        rw [List.length_drop]
        omega) rfl
    refine ⟨res', (if_neg hshort).trans hrest, hres', fun i' hi' c hc => ?_⟩
    rw [hlater i' hi' c hc, hentry i' hi' c hc]
    by_cases hi : i ≤ i'
    · by_cases hnow : i' < i + (pairs.take batchsize).length
      · rw [if_neg (by omega), if_pos ⟨hi, hnow⟩, if_pos hi, Prod.mk.eta, htake _ (by omega)]
      · rw [if_pos (by omega), if_pos hi, List.getD_eq_getElem?_getD, List.getElem?_drop,
          ← List.getD_eq_getElem?_getD, show batchsize + (i' - (i +
            (pairs.take batchsize).length)) = i' - i by omega]
    · rw [if_neg (by omega), if_neg (by omega), if_neg hi]

/-- The bits of the big matrix. -/
theorem bigCharacterMatrix_spec (mem : Words) (W : ℕ → BitVec 64)
    {pairs : List (BitVec 64 × BitVec 64)} (hne : ∀ x ∈ pairs, x ≠ (0#64, 0#64)) :
    ∃ res, bigCharacterMatrix build pol chars N g mem W pairs.length pairs = some res ∧
      Allocated res pairs.length N ∧ ∀ i < pairs.length, ∀ c < N,
        res.entry i c
          = meaningBit pol (chars c) [readPair pol (chars c) (pairs.getD i (0#64, 0#64))] := by
  obtain ⟨res, hrun, hres, hentry⟩ := bigRows_spec hw build hN hchars hg W pairs hne
    (i := 0) ((allocated_alloc mem pairs.length N).withWords _) (zero_add _)
  refine ⟨res, hrun, hres, fun i hi c hc => ?_⟩
  rw [hentry i hi c hc, if_pos (Nat.zero_le i), Nat.sub_zero]

end

end Big

/-! ## The small matrix -/

section Small

theorem entry_forRange_row (h : Allocated m n N) {i : ℕ} (hi : i < n)
    (f : ℕ → BitVec 64 → BitVec 64) {i' c : ℕ} (hi' : i' < n) (hc : c < N) :
    ({ m with
      words := forRange ((N + 63) / 64) (fun cg words =>
        update words (64 * (i / 64 + cg * m.nrblocks) + i % 64)
          (f cg (words (64 * (i / 64 + cg * m.nrblocks) + i % 64)))) m.words } :
        BlockMatrix).entry i' c
      = if i' = i then bit (f (c / 64) (m.words (m.block (i / 64) (c / 64) + i % 64))) (c % 64)
        else m.entry i' c := by
  simp only [← h.block_eq]
  have hcg : c / 64 < (N + 63) / 64 := by omega
  by_cases hat : i' = i
  · subst hat
    rw [if_pos rfl]
    refine congrArg (bit · (c % 64)) ?_
    have hother : ∀ cg < (N + 63) / 64, cg ≠ c / 64 → ∀ words : Words,
        update words (m.block (i' / 64) cg + i' % 64)
          (f cg (words (m.block (i' / 64) cg + i' % 64)))
          (m.block (i' / 64) (c / 64) + i' % 64)
          = words (m.block (i' / 64) (c / 64) + i' % 64) := fun cg _ hne words =>
      update_of_ne (fun heq => hne (h.row_inj hi hi heq).2.symm) _ _
    have hword := forRange_at_only hcg hother
      (fun words words' hw => by simp [hw]) m.words
    exact hword.trans (update_self _ _ _)
  · rw [if_neg hat]
    refine congrArg (bit · (c % 64)) (forRange_at_id (fun cg _ words => ?_) m.words)
    exact update_of_ne (fun heq => hat (h.row_inj hi' hi heq).1) _ _

theorem clearRow_entry (h : Allocated m n N) {i : ℕ} (hi : i < n) {i' c : ℕ} (hi' : i' < n)
    (hc : c < N) : (clearRow m N i).entry i' c = if i' = i then 0 else m.entry i' c := by
  refine (entry_forRange_row h hi (fun _ _ => 0#64) hi' hc).trans ?_
  rw [bit_zero]

theorem addRow_entry (h : Allocated m n N) (hbc : Allocated bcmat l N) {i : ℕ} (hi : i < n)
    (col : ℕ) {i' c : ℕ} (hi' : i' < n) (hc : c < N) :
    (addRow m bcmat N i col).entry i' c
      = if i' = i then m.entry i c + bcmat.entry col c else m.entry i' c := by
  refine (entry_forRange_row h hi (fun cg w => w ^^^ bcmat.words
    (64 * (col / 64 + cg * bcmat.nrblocks) + col % 64)) hi' hc).trans ?_
  rw [bit_xor, ← hbc.block_eq]
  rfl

theorem addRelationSet_spec (hbc : Allocated bcmat l N) {i : ℕ} (hi : i < n) {row : List ℕ}
    (hrow : ∀ col ∈ row, col < l) {text rest : List Char} {nc : ℕ}
    (hscan : Replay.scanRow nc text = some (row, rest)) (h : Allocated m n N) :
    ∃ m', addRelationSet bcmat i nc m text = some (m', rest) ∧ Allocated m' n N ∧
      ∀ i' < n, ∀ c < N, m'.entry i' c
        = if i' = i then m.entry i c + (row.map fun col => bcmat.entry col c).sum
          else m.entry i' c := by
  refine Replay.scanRow_induct
    (motive := fun done (m' : BlockMatrix) => Allocated m' n N ∧ ∀ i' < n, ∀ c < N,
      m'.entry i' c = if i' = i then m.entry i c + (done.map fun col => bcmat.entry col c).sum
        else m.entry i' c)
    (fun res col text => (assertAlways (col < bcmat.nrows)).bind fun _ =>
      some (addRow res bcmat bcmat.ncols i col, text))
    hscan ⟨h, fun i' _ c _ => ?_⟩ ?_
  · split_ifs with hat
    · simp [hat]
    · rfl
  · rintro done col hcol m₁ ⟨hm₁, hentry⟩
    have hlt : col < bcmat.nrows := hbc.size.nrows ▸ hrow col hcol
    refine ⟨addRow m₁ bcmat N i col, fun text => ?_, hm₁.withWords _, fun i' hi' c hc => ?_⟩
    · rw [assertAlways_of_true hlt, hbc.size.ncols]
      rfl
    · rw [addRow_entry hm₁ hbc hi col hi' hc, hentry i' hi' c hc, hentry i hi c hc, if_pos rfl]
      split_ifs with hat
      · rw [List.map_append, List.sum_append, List.map_singleton, List.sum_singleton, add_assoc]
      · rfl

/-- The rows of the small matrix. -/
theorem addRows_spec (hbc : Allocated bcmat l N) {rows : List (List ℕ)}
    (hrows : ∀ row ∈ rows, ∀ col ∈ row, col < l) {text : List Char}
    (hscan : Replay.scanRows n text = some rows) (h : Allocated m n N) :
    ∃ r, forRangeM n (fun i (res, text) => do
        let (nc, text) ← scanInt 10 text
        addRelationSet bcmat i nc (clearRow res bcmat.ncols i) text) (m, text) = some r ∧
      Allocated r.1 n N ∧ ∀ i < n, ∀ c < N,
        r.1.entry i c = ((rows.getD i []).map fun col => bcmat.entry col c).sum := by
  have hloop := Replay.scanRows_induct
    (motive := fun done (m' : BlockMatrix) => Allocated m' n N ∧ ∀ i < n, ∀ c < N,
      i < done.length → m'.entry i c = ((done.getD i []).map fun col => bcmat.entry col c).sum)
    (fun i res nc text => addRelationSet bcmat i nc (clearRow res bcmat.ncols i) text)
    hscan ⟨h, fun i _ c _ hi => absurd hi (Nat.not_lt_zero i)⟩ ?_
  · obtain ⟨r, hrun, hr, hentry⟩ := hloop
    have hlength := Replay.length_of_scanRows hscan
    exact ⟨r, hrun, hr, fun i hi c hc => hentry i hi c hc (by omega)⟩
  · rintro done hdone row hrow m₁ nc text rest hline ⟨hm₁, hentry⟩
    have hcleared : Allocated (clearRow m₁ bcmat.ncols done.length) n N := hm₁.withWords _
    obtain ⟨m₂, hrun, hm₂, hset⟩ := addRelationSet_spec hbc hdone (hrows row hrow) hline hcleared
    refine ⟨m₂, hrun, hm₂, fun i hi c hc hlt => ?_⟩
    rw [hset i hi c hc, hbc.size.ncols]
    by_cases hat : i = done.length
    · rw [if_pos hat, hat, List.getD_append_right _ _ _ _ le_rfl, Nat.sub_self,
        clearRow_entry hm₁ hdone hdone hc, if_pos rfl, zero_add]
      rfl
    · have hold : i < done.length := by
        rw [List.length_append, List.length_singleton] at hlt
        omega
      rw [if_neg hat, clearRow_entry hm₁ hdone hi hc, if_neg hat, hentry i hi c hc hold,
        List.getD_append _ _ _ _ hold]

variable {pol : CadoPoly} {chars : ℕ → AlgPrime w} {g : ℕ}

/-- The relations of a row of the index file, each pair read by `f`. -/
def relationSet (f : BitVec 64 × BitVec 64 → ℤ × ℕ) (pairs : List (BitVec 64 × BitVec 64))
    (row : List ℕ) : List (ℤ × ℕ) :=
  row.map fun col => f (pairs.getD col (0#64, 0#64))

theorem relationSet_congr {f f' : BitVec 64 × BitVec 64 → ℤ × ℕ}
    {pairs : List (BitVec 64 × BitVec 64)} (h : ∀ x ∈ pairs, f x = f' x) {row : List ℕ}
    (hrow : ∀ col ∈ row, col < pairs.length) :
    relationSet f pairs row = relationSet f' pairs row := by
  refine List.map_congr_left fun col hcol => ?_
  rw [List.getD_eq_getElem _ _ (hrow col hcol)]
  exact h _ (List.getElem_mem _)

section

variable (hw : w = 32 ∨ w = 64) (build : UlarithBuild) (hN : N % 64 = 0)
  (hchars : ∀ c < N, Built pol (chars c)) (hg : 0 < g) (mem mem' : Words)
  (W : ℕ → BitVec 64) {pairs : List (BitVec 64 × BitVec 64)}
  (hne : ∀ x ∈ pairs, x ≠ (0#64, 0#64)) {text : List Char} {rows : List (List ℕ)}
  (htext : indexRows text = some rows) (hrows : ∀ row ∈ rows, ∀ col ∈ row, col < pairs.length)
include hw hN hchars hg hne htext hrows

/-- The bits of the small matrix: what the characters say about the products over the
relations of the relation sets, as they read them. -/
theorem smallCharacterMatrix_spec :
    ∃ bcmat res, bigCharacterMatrix build pol chars N g mem W pairs.length pairs = some bcmat ∧
      smallCharacterMatrix bcmat mem' text = some res ∧ res.HasSize rows.length N ∧
      ∀ i < rows.length, ∀ c < N, res.entry i c = 1 ↔ Meaning pol (chars c)
        (relationSet (readPair pol (chars c)) pairs (rows.getD i [])) := by
  obtain ⟨bcmat, hbig, hbc, hbits⟩ := bigCharacterMatrix_spec hw build hN hchars hg mem W hne
  simp only [indexRows, bind_eq_bind, Option.bind_eq_some_iff, Prod.exists] at htext
  obtain ⟨smallNrows, text₁, hnrows, smallNcols, text₂, hncols, hscan⟩ := htext
  obtain rfl := Replay.length_of_scanRows hscan
  obtain ⟨r, hrun, hr, hentry⟩ := addRows_spec hbc hrows hscan
    (allocated_alloc mem' rows.length N)
  refine ⟨bcmat, r.1, hbig, ?_, hr.size, fun i hi c hc => ?_⟩
  · simp only [smallCharacterMatrix, hnrows, hncols, bind_eq_bind, bind_some,
      hbc.size.ncols] at hrun ⊢
    rw [hrun, bind_some]
  · have hsum : r.1.entry i c = meaningBit pol (chars c)
        (relationSet (readPair pol (chars c)) pairs (rows.getD i [])) := by
      rw [hentry i hi c hc, meaningBit_eq_sum hw (hchars c hc), relationSet, List.map_map]
      refine congrArg List.sum (List.map_congr_left fun col hcol => hbits col ?_ c hc)
      refine hrows (rows.getD i []) ?_ col hcol
      rw [List.getD_eq_getElem?_getD, List.getElem?_eq_getElem hi, getD_some]
      exact List.getElem_mem hi
    rw [hsum, meaningBit_eq_one_iff]

/-- A bit of the small matrix is what its character says about a relation set exactly if the
character says the same about the pairs as it reads them.  All pairs that fit in a `long` are read
as they are. -/
theorem smallCharacterMatrix_iff :
    ∃ bcmat res, bigCharacterMatrix build pol chars N g mem W pairs.length pairs = some bcmat ∧
      smallCharacterMatrix bcmat mem' text = some res ∧ res.HasSize rows.length N ∧
      (∀ i < rows.length, ∀ c < N,
        (res.entry i c = 1 ↔ Meaning pol (chars c) (relationSet relationOf pairs (rows.getD i [])))
          ↔ (Meaning pol (chars c) (relationSet (readPair pol (chars c)) pairs (rows.getD i []))
            ↔ Meaning pol (chars c) (relationSet relationOf pairs (rows.getD i [])))) ∧
      ((w = 64 ∨ ∀ x ∈ pairs, FitsLong w x) → ∀ i < rows.length, ∀ c < N,
        (res.entry i c = 1
          ↔ Meaning pol (chars c) (relationSet relationOf pairs (rows.getD i [])))) := by
  obtain ⟨bcmat, res, hbig, hsmall, hsize, hbits⟩ :=
    smallCharacterMatrix_spec hw build hN hchars hg mem mem' W hne htext hrows
  refine ⟨bcmat, res, hbig, hsmall, hsize, fun i hi c hc => ?_, fun hfits i hi c hc => ?_⟩
  · rw [hbits i hi c hc]
  · have hall : ∀ x ∈ pairs, FitsLong w x := fun x hx => by
      rcases hfits with rfl | hfits
      · exact fitsLong_of_wide x
      · exact hfits x hx
    rw [hbits i hi c hc, relationSet_congr fun x hx => readPair_of_fits hw _ (hall x hx)]
    refine hrows (rows.getD i []) ?_
    rw [List.getD_eq_getElem _ _ hi]
    exact List.getElem_mem hi

end

/-- A relation set of two relations, with the special characters and one of a prime. -/
theorem smallCharacterMatrix_iff_two :
    let pol : CadoPoly := ⟨fun i => if i = 0 then -5 else 2, 1⟩
    let chars : ℕ → AlgPrime 32 := fun c =>
      [(⟨0#32, 2#32⟩ : AlgPrime 32), ⟨0#32, 1#32⟩, ⟨0#32, 3#32⟩, ⟨7#32, 3#32⟩].getD c ⟨0#32, 0#32⟩
    ∃ bcmat res, bigCharacterMatrix .x86 pol chars 64 16 (fun _ => 0#64)
        (fun _ => 0#64) 2 [(1#64, 2#64), (6#64, 1#64)] = some bcmat ∧
      smallCharacterMatrix bcmat (fun _ => 0#64)
        ['1', ' ', '2', '\n', '2', ' ', '0', ' ', '1', '\n'] = some res ∧
      res.entry 0 0 = 1 ∧ res.entry 0 3 = 1 := by
  intro pol chars
  have hchars : ∀ c < 64, Built pol (chars c) := by
    intro c _
    match c with
    | 0 => exact Built.sign rfl
    | 1 => exact Built.parity
    | 2 => exact Built.free
    | 3 => exact Built.prime (by decide) (by decide)
    | _ + 4 => exact Built.trivial
  obtain ⟨bcmat, res, hbig, hsmall, -, -, hbits⟩ := smallCharacterMatrix_iff (.inl rfl) .x86
    (show 64 % 64 = 0 by decide) hchars (show 0 < 16 by decide) (fun _ => 0#64)
    (fun _ => 0#64) (fun _ => 0#64)
    (show ∀ x ∈ [(1#64, 2#64), (6#64, 1#64)], x ≠ (0#64, 0#64) by simp)
    (show indexRows ['1', ' ', '2', '\n', '2', ' ', '0', ' ', '1', '\n'] = some [[0, 1]] by
      decide)
    (by decide)
  have hfits : ∀ x ∈ [(1#64, 2#64), (6#64, 1#64)], FitsLong 32 x :=
    List.forall_mem_cons.mpr ⟨by decide, List.forall_mem_singleton.mpr (by decide)⟩
  refine ⟨bcmat, res, hbig, hsmall, ?_, ?_⟩
  · refine (hbits (.inr hfits) 0 (by decide) 0 (by decide)).mpr ?_
    show rationalProduct pol [(1, 2), (6, 1)] < 0
    decide
  · refine (hbits (.inr hfits) 0 (by decide) 3 (by decide)).mpr ?_
    show ¬IsSquare (rootProduct 7 3 [(1, 2), (6, 1)] : ZMod 7)
    decide

/-- Where an `unsigned long` has 32 bits, `2 ^ 32 + 1` is taken for 1. -/
theorem not_smallCharacterMatrix_word32 :
    let pol : CadoPoly := ⟨fun i => if i = 0 then -5 else 2, 1⟩
    let chars : ℕ → AlgPrime 32 := fun c => if c = 0 then ⟨7#32, 0#32⟩ else ⟨0#32, 0#32⟩
    ∃ bcmat res, bigCharacterMatrix .x86 pol chars 64 16 (fun _ => 0#64)
        (fun _ => 0#64) 1 [(4294967297#64, 1#64)] = some bcmat ∧
      smallCharacterMatrix bcmat (fun _ => 0#64) ['1', ' ', '1', '\n', '1', ' ', '0', '\n']
        = some res ∧
      ¬(res.entry 0 0 = 1 ↔ Meaning pol (chars 0) [(4294967297, 1)]) := by
  intro pol chars
  have hchars : ∀ c < 64, Built pol (chars c) := by
    intro c _
    match c with
    | 0 => exact Built.prime (by decide) (by decide)
    | _ + 1 => exact Built.trivial
  obtain ⟨bcmat, res, hbig, hsmall, -, hbits⟩ := smallCharacterMatrix_spec (.inl rfl) .x86
    (show 64 % 64 = 0 by decide) hchars (show 0 < 16 by decide) (fun _ => 0#64)
    (fun _ => 0#64) (fun _ => 0#64)
    (show ∀ x ∈ [(4294967297#64, 1#64)], x ≠ (0#64, 0#64) by simp)
    (show indexRows ['1', ' ', '1', '\n', '1', ' ', '0', '\n'] = some [[0]] by decide)
    (by decide)
  have hcut : ¬Meaning pol (chars 0) [(1, 1)] := by
    show ¬¬IsSquare (rootProduct 7 0 [(1, 1)] : ZMod 7)
    decide
  have hpair : Meaning pol (chars 0) [(4294967297, 1)] := by
    show ¬IsSquare (rootProduct 7 0 [(4294967297, 1)] : ZMod 7)
    decide
  refine ⟨bcmat, res, hbig, hsmall, fun hiff => hcut ?_⟩
  exact (hbits 0 (by decide) 0 (by decide)).mp (hiff.mpr hpair)

end Small

end CadoNfs.Characters
