import CadoNfs.Linalg.MasterDispatcher

/-!
# The blocks of a balanced matrix

The streams that the master sends are read by the threads, each of which builds its block of
the permuted matrix.

Main results:

- Theorem `count_localEntries`: the coefficients of a thread.
- Theorem `dispatch_spec`: what every thread receives.
- Theorem `balancing_iff`: when the threads build the blocks of the permuted matrix.
-/

namespace CadoNfs.Balancing

open BucketScatter EvenSplit Finset
open Matmul (encodeRows)

variable {bal : BalancingData} {fw : ℕ → ℕ} {i j : ℕ} {M : List (List ℕ)}

/-! ## The coefficients of a thread -/

section Coefficients

theorem inBlock_threadRows (transpose : Bool) (r : ℕ) (rows : List (List ℕ)) :
    InBlock (slaveData bal i j transpose) (threadRows bal fw i j r rows) := by
  induction rows generalizing r with
  | nil => exact fun _ h => absurd h List.not_mem_nil
  | cons row rows ih =>
    intro s hs
    rw [threadRows] at hs
    obtain hs | hs := List.mem_append.mp hs
    · split_ifs at hs with hin
      · obtain rfl := List.mem_singleton.mp hs
        refine ⟨hin, fun c hc => ?_⟩
        have := (List.mem_filter.mp hc).2
        exact of_decide_eq_true this
      · exact absurd hs List.not_mem_nil
    · exact ih (r + 1) s hs

theorem count_partColumns (h : IsInverse bal.colperm fw bal.trows) (hj : j < bal.nv) {c : ℕ}
    (hc : c < size bal.trows bal.nv j) {row : List ℕ} (hrow : ∀ k ∈ row, k < bal.trows) :
    ((partColumns bal fw j row).map (· - start bal.trows bal.nv j)).count c
      = row.count (bal.colperm (start bal.trows bal.nv j + c)) := by
  have hend : start bal.trows bal.nv j + size bal.trows bal.nv j ≤ bal.trows :=
    start_add_size_le hj
  obtain ⟨col0, hcol0⟩ : ∃ col0, start bal.trows bal.nv j = col0 := ⟨_, rfl⟩
  rw [hcol0] at hend ⊢
  have hfw : fw (bal.colperm (col0 + c)) = col0 + c := h.fw_x _ (by omega)
  induction row with
  | nil => rfl
  | cons k row ih =>
    obtain ⟨hk, hrow⟩ := List.forall_mem_cons.mp hrow
    have hiff : k = bal.colperm (col0 + c) ↔ fw k = col0 + c :=
      ⟨fun heq => heq ▸ hfw, fun heq => by rw [← heq, h.x_fw k hk]⟩
    rw [List.count_cons, ← ih hrow, partColumns, List.map_cons]
    by_cases hin : InPart bal.trows bal.nv j (fw k)
    · have hle : col0 ≤ fw k := hcol0 ▸ hin.1
      have hbeq : (fw k - col0 == c) = (k == bal.colperm (col0 + c)) := by
        rw [Bool.eq_iff_iff, beq_iff_eq, beq_iff_eq, hiff]
        omega
      rw [List.filter_cons_of_pos (by simpa using hin), List.map_cons, List.count_cons, hbeq]
      rfl
    · have hne : ¬k = bal.colperm (col0 + c) := by
        rw [hiff]
        intro heq
        exact hin ⟨by omega, by omega⟩
      rw [List.filter_cons_of_neg (by simpa using hin)]
      simp [hne, partColumns]

/-- The coefficients of the thread `(i, j)` are those of the permuted matrix. -/
theorem count_localEntries (h : IsInverse bal.colperm fw bal.trows) (hi : i < bal.nh)
    (hj : j < bal.nv) (transpose : Bool) {r₀ c₀ : ℕ} (hr₀ : r₀ < size bal.trows bal.nh i)
    (hc₀ : c₀ < size bal.trows bal.nv j) {r : ℕ} {rows : List (List ℕ)}
    (hr : r + rows.length ≤ bal.trows) (hrows : ∀ row ∈ rows, ∀ k ∈ row, k < bal.trows) :
    (localEntries (slaveData bal i j transpose) (threadRows bal fw i j r rows)).count (r₀, c₀)
      = if r ≤ bal.colperm (start bal.trows bal.nh i + r₀) then
          (rows.getD (bal.colperm (start bal.trows bal.nh i + r₀) - r) []).count
            (bal.colperm (start bal.trows bal.nv j + c₀))
        else 0 := by
  have hend : start bal.trows bal.nh i + size bal.trows bal.nh i ≤ bal.trows :=
    start_add_size_le hi
  obtain ⟨target, htarget⟩ :
    ∃ target, bal.colperm (start bal.trows bal.nh i + r₀) = target := ⟨_, rfl⟩
  have hfw : fw target = start bal.trows bal.nh i + r₀ := htarget ▸ h.fw_x _ (by omega)
  rw [htarget]
  induction rows generalizing r with
  | nil =>
    have hnil : localEntries (slaveData bal i j transpose) (threadRows bal fw i j r []) = [] := rfl
    rw [hnil]
    simp
  | cons row rows ih =>
    obtain ⟨hrow, hrows⟩ := List.forall_mem_cons.mp hrows
    rw [List.length_cons] at hr
    have hsplit : localEntries (slaveData bal i j transpose) (threadRows bal fw i j r (row :: rows))
        = (if InPart bal.trows bal.nh i (fw r) then
            ((partColumns bal fw j row).map (· - start bal.trows bal.nv j)).map
              (fw r - start bal.trows bal.nh i, ·) else [])
          ++ localEntries (slaveData bal i j transpose) (threadRows bal fw i j (r + 1) rows) := by
      rw [threadRows, localEntries, List.flatMap_append, List.map_map]
      split_ifs
      · rw [List.flatMap_singleton]
        rfl
      · rfl
    have hfirst : (if InPart bal.trows bal.nh i (fw r) then
        ((partColumns bal fw j row).map (· - start bal.trows bal.nv j)).map
          (fw r - start bal.trows bal.nh i, ·) else []).count (r₀, c₀)
        = if r = target then row.count (bal.colperm (start bal.trows bal.nv j + c₀)) else 0 := by
      have hiff : r = target ↔ fw r = start bal.trows bal.nh i + r₀ :=
        ⟨fun heq => heq ▸ hfw, fun heq => by rw [← h.x_fw r (by omega), heq, htarget]⟩
      split_ifs with hin heq heq
      · rw [Matmul.count_map_pair, if_pos (by rw [hiff.mp heq]; omega),
          count_partColumns h hj hc₀ hrow]
      · have hle : start bal.trows bal.nh i ≤ fw r := hin.1
        rw [Matmul.count_map_pair, if_neg fun hsub => heq (hiff.mpr (by omega))]
      · rw [hiff] at heq
        exact absurd ⟨by omega, by omega⟩ hin
      · rfl
    rw [hsplit, List.count_append, hfirst, ih (by omega) hrows]
    obtain hlt | rfl | hgt := lt_trichotomy r target
    · rw [if_neg hlt.ne, if_pos (by omega), if_pos hlt.le, zero_add,
        show target - r = target - (r + 1) + 1 by omega, List.getD_cons_succ]
    · rw [if_pos rfl, if_neg (by omega), if_pos le_rfl, Nat.sub_self, List.getD_cons_zero, add_zero]
    · rw [if_neg (by omega), if_neg (by omega), if_neg (by omega)]

theorem length_eq_sum_count {n m : ℕ} {entries : List (ℕ × ℕ)}
    (h : ∀ e ∈ entries, e.1 < n ∧ e.2 < m) :
    entries.length = ∑ r ∈ range n, ∑ c ∈ range m, entries.count (r, c) := by
  have hcard := Multiset.sum_count_eq_card (s := range n ×ˢ range m) (m := (entries : Multiset _))
    fun e he => mem_product.mpr ⟨mem_range.mpr (h e he).1, mem_range.mpr (h e he).2⟩
  rw [sum_product] at hcard
  rw [lawful_beq_subsingleton (instBEqProd : BEq (ℕ × ℕ)) instBEqOfDecidableEq]
  simpa using hcard.symm

end Coefficients

/-! ## The whole distribution -/

/-- The matrix that is distributed. -/
structure IsMatrix (bal : BalancingData) (M : List (List ℕ)) : Prop where
  length : M.length = bal.nrows
  weight : ∀ row ∈ M, row.length < 2 ^ 32
  lt : ∀ row ∈ M, ∀ c ∈ row, c < bal.ncols
  ncols_le : bal.ncols ≤ bal.nrows
  nrows_lt : bal.nrows < 2 ^ 32

/-- The coefficient `(r, c)` of a block of the permuted matrix, with its multiplicity. -/
def blockCoeff (bal : BalancingData) (M : List (List ℕ)) (s : SlaveData) (r c : ℕ) : ℕ :=
  (M.getD (bal.colperm (s.myRow0 + r)) []).count (bal.colperm (s.myCol0 + c))

/-- The number of words for a block: the weights and the indices. -/
def blockWords (bal : BalancingData) (M : List (List ℕ)) (s : SlaveData) : ℕ :=
  s.count + ∑ r ∈ range s.myNrows, ∑ c ∈ range s.myNcols, blockCoeff bal M s r c

/-- `mat->p` holds the rows of the block, or its columns. -/
def IsBlock (bal : BalancingData) (M : List (List ℕ)) (s : SlaveData) (R : SlaveDest) : Prop :=
  ∃ L : List (List ℕ), (List.range R.size).map R.p = encodeRows L ∧ L.length = s.count ∧
    (∀ l ∈ L, ∀ v ∈ l, v < if s.transpose then s.myNrows else s.myNcols) ∧
    ∀ r < s.myNrows, ∀ c < s.myNcols,
      (if s.transpose then (L.getD c []).count r else (L.getD r []).count c) = blockCoeff bal M s r c

section Distribution

variable {pieces : List (List ℕ)}

theorem IsMatrix.trows_eq (hM : IsMatrix bal M) : bal.nrows = bal.trows :=
  (max_eq_left hM.ncols_le).symm

theorem fits (hM : IsMatrix bal M) (hi : i < bal.nh) (hj : j < bal.nv) (transpose : Bool) :
    (slaveData bal i j transpose).Fits := by
  have hlt := hM.nrows_lt
  rw [hM.trows_eq] at hlt
  exact ⟨start_add_size_le hi, start_add_size_le hj, hlt, hlt⟩

/-- What every thread receives, whatever the pieces are in which the matrix is read. -/
theorem dispatch_spec (hM : IsMatrix bal M) (hperm : IsPerm bal.colperm bal.nrows)
    (hnh : 1 ≤ bal.nh) (hnv : 1 ≤ bal.nv) (hpieces : pieces.flatten = encodeRows M) :
    ∃ fw d, setMasterVariables bal = some (masterData bal fw) ∧
      IsInverse bal.colperm fw bal.trows ∧
      pieces.foldlM (masterDispatcherPut (masterData bal fw)) masterDispatcherAlloc = some d ∧
      ∀ i, ∀ j < bal.nv, d.x (i * bal.nv + j) = rowWords (threadRows bal fw i j 0 M) := by
  obtain ⟨fw, hset, hinverse⟩ :=
    setMasterVariables_spec (hM.trows_eq ▸ hperm) hnh hnv hM.trows_eq
  have halloc : BetweenRows bal fw 0 (fun _ _ => []) masterDispatcherAlloc :=
    ⟨rfl, rfl, fun _ _ _ => rfl, fun _ _ _ => rfl⟩
  obtain ⟨d, hrun, hd⟩ := halloc.rows hinverse hnh hnv
    (show 0 + M.length ≤ bal.trows by rw [hM.length, hM.trows_eq]; omega)
    (fun row hrow c hc => by
      have := hM.lt row hrow c hc
      have := hM.ncols_le
      rw [← hM.trows_eq]
      omega)
  refine ⟨fw, d, hset, hinverse, ?_, hd.x_eq⟩
  rw [← hrun, ← hpieces]
  exact FoldLoop.foldlM_chunks pieces _

section

variable (hM : IsMatrix bal M) (h : IsInverse bal.colperm fw bal.trows) (hi : i < bal.nh)
  (hj : j < bal.nv) (transpose : Bool)
include hM h hi hj

theorem count_block {r c : ℕ} (hr : r < (slaveData bal i j transpose).myNrows)
    (hc : c < (slaveData bal i j transpose).myNcols) :
    (localEntries (slaveData bal i j transpose) (threadRows bal fw i j 0 M)).count (r, c)
      = blockCoeff bal M (slaveData bal i j transpose) r c := by
  have hcount := count_localEntries h hi hj transpose hr hc
    (show 0 + M.length ≤ bal.trows by rw [hM.length, hM.trows_eq]; omega)
    (fun row hrow k hk => by
      have := hM.lt row hrow k hk
      have := hM.ncols_le
      rw [← hM.trows_eq]
      omega)
  rwa [if_pos (Nat.zero_le _), Nat.sub_zero] at hcount

theorem blockWords_eq : (slaveData bal i j transpose).count
        + (localEntries (slaveData bal i j transpose) (threadRows bal fw i j 0 M)).length
      = blockWords bal M (slaveData bal i j transpose) := by
  rw [blockWords, length_eq_sum_count fun e he =>
    mem_localEntries (inBlock_threadRows transpose 0 M) he]
  refine congrArg _ (sum_congr rfl fun r hr => sum_congr rfl fun c hc => ?_)
  exact count_block hM h hi hj transpose (mem_range.mp hr) (mem_range.mp hc)

/-- The buckets of a node are its block of the matrix. -/
theorem isBlock_of_buckets {R : SlaveDest} (hR : (List.range R.size).map R.p
      = (List.range (slaveData bal i j transpose).count).flatMap fun k =>
        (bucket (slaveData bal i j transpose) (localEntries (slaveData bal i j transpose)
            (threadRows bal fw i j 0 M)) k).length
          :: bucket (slaveData bal i j transpose) (localEntries (slaveData bal i j transpose)
            (threadRows bal fw i j 0 M)) k) :
    IsBlock bal M (slaveData bal i j transpose) R := by
  obtain ⟨entries, hentries⟩ : ∃ entries, localEntries (slaveData bal i j transpose)
    (threadRows bal fw i j 0 M) = entries := ⟨_, rfl⟩
  have hcount := fun r c hr hc => count_block hM h hi hj transpose (r := r) (c := c) hr hc
  have hrange : InRange (slaveData bal i j transpose) (localEntries (slaveData bal i j transpose)
      (threadRows bal fw i j 0 M)) := (inBlock_threadRows transpose 0 M).inRange
  rw [hentries] at hR hcount hrange
  obtain ⟨s, hs⟩ : ∃ s, slaveData bal i j transpose = s := ⟨_, rfl⟩
  rw [hs] at hR hcount hrange ⊢
  refine ⟨(List.range s.count).map (bucket s entries), ?_, by simp, ?_, ?_⟩
  · rw [hR, encodeRows, List.flatMap_map]
  · intro l hl v hv
    obtain ⟨k, -, rfl⟩ := List.mem_map.mp hl
    obtain ⟨e, he, heq⟩ := List.mem_map.mp (mem_values.mp hv)
    have hlt := hrange e he
    have hv' : v = (s.orient e).2 := by rw [heq]
    rw [hv', SlaveData.orient]
    split_ifs
    · exact hlt.1
    · exact hlt.2
  · intro r hr c hc
    rw [← hcount r c hr hc]
    have hget : ∀ k < s.count, ((List.range s.count).map (bucket s entries)).getD k []
        = bucket s entries k := by
      intro k hk
      rw [List.getD_eq_getElem _ _ (by simpa using hk), List.getElem_map, List.getElem_range]
    cases htr : s.transpose with
    | false =>
      have horient : s.orient = id :=
        funext fun e => if_neg (by rw [htr]; exact Bool.false_ne_true)
      have hk : r < s.count := by rw [SlaveData.count, htr]; exact hr
      rw [if_neg Bool.false_ne_true, hget r hk, bucket, count_values, horient, List.map_id]
    | true =>
      have horient : s.orient = Prod.swap := funext fun e => if_pos htr
      have hk : c < s.count := by rw [SlaveData.count, htr]; exact hc
      rw [if_pos rfl, hget c hk, bucket, count_values, horient]
      exact List.count_map_of_injective _ _ Prod.swap_injective (r, c)

end

theorem existsUnique_block (hnh : 1 ≤ bal.nh) (hnv : 1 ≤ bal.nv) {r c : ℕ} (hr : r < bal.trows)
    (hc : c < bal.trows) :
    ∃! t : ℕ × ℕ, (t.1 < bal.nh ∧ InPart bal.trows bal.nh t.1 r) ∧
      t.2 < bal.nv ∧ InPart bal.trows bal.nv t.2 c := by
  obtain ⟨hrow, hi⟩ := inPart_index hnh hr
  obtain ⟨hcol, hj⟩ := inPart_index hnv hc
  refine ⟨(index bal.trows bal.nh r, index bal.trows bal.nv c), ⟨⟨hi, hrow⟩, hj, hcol⟩, ?_⟩
  rintro ⟨i, j⟩ ⟨⟨-, hrow'⟩, -, hcol'⟩
  exact Prod.ext (part_unique hrow' hrow) (part_unique hcol' hcol)

/-- The master succeeds, and the blocks partition the matrix.  A thread builds its block of the
permuted matrix if and only if the block takes less than `2 ^ 32` words. -/
theorem balancing_iff (hM : IsMatrix bal M) (hperm : IsPerm bal.colperm bal.nrows)
    (hnh : 1 ≤ bal.nh) (hnv : 1 ≤ bal.nv) (hpieces : pieces.flatten = encodeRows M) :
    ∃ m d, setMasterVariables bal = some m ∧
      pieces.foldlM (masterDispatcherPut m) masterDispatcherAlloc = some d ∧
      (∀ r < bal.trows, ∀ c < bal.trows, ∃! t : ℕ × ℕ,
        (t.1 < bal.nh ∧ InPart bal.trows bal.nh t.1 r) ∧
          t.2 < bal.nv ∧ InPart bal.trows bal.nv t.2 c) ∧
      ∀ i < bal.nh, ∀ j < bal.nv, ∀ transpose : Bool, ∀ chunks chunks' : List (List ℕ),
        chunks.flatten = d.x (i * bal.nv + j) → chunks'.flatten = d.x (i * bal.nv + j) →
        ((∃ R, slaveLoop (slaveData bal i j transpose) chunks chunks' = some R ∧
            IsBlock bal M (slaveData bal i j transpose) R) ↔
          blockWords bal M (slaveData bal i j transpose) < 2 ^ 32) := by
  obtain ⟨fw, d, hset, hinverse, hrun, hx⟩ := dispatch_spec hM hperm hnh hnv hpieces
  refine ⟨masterData bal fw, d, hset, hrun, fun r hr c hc => existsUnique_block hnh hnv hr hc,
    fun i hi j hj transpose chunks chunks' hchunks hchunks' => ?_⟩
  rw [hx i j hj] at hchunks hchunks'
  have hrows : InBlock (slaveData bal i j transpose) (threadRows bal fw i j 0 M) :=
    inBlock_threadRows transpose 0 M
  rw [← blockWords_eq hM hinverse hi hj transpose]
  constructor
  · rintro ⟨R, hR, -⟩
    by_contra hlarge
    rw [slaveLoop_none (fits hM hi hj transpose) hrows hchunks (not_lt.mp hlarge)] at hR
    exact absurd hR (Option.some_ne_none _).symm
  · intro hsmall
    obtain ⟨R, hR, hp⟩ :=
      slaveLoop_spec (fits hM hi hj transpose) hrows hchunks hchunks' hsmall
    exact ⟨R, hR, isBlock_of_buckets hM hinverse hi hj transpose hp⟩

end Distribution

/-! ## Two matrices -/

section Examples

/-- Two rows of nodes, and the two rows and columns exchanged. -/
def balancingTwo : BalancingData where
  nh := 2
  nv := 1
  nrows := 2
  ncols := 2
  colperm := fun i => 1 - i

theorem isMatrix_two : IsMatrix balancingTwo [[0, 1], [1]] :=
  ⟨rfl, by decide, by decide, by decide, by decide⟩

/-- A matrix with two rows that is read in three pieces. -/
theorem balancing_iff_two :
    ∃ m d, setMasterVariables balancingTwo = some m ∧
      [[2, 0], [1], [1, 1]].foldlM (masterDispatcherPut m) masterDispatcherAlloc = some d ∧
      ∃ R, slaveLoop (slaveData balancingTwo 1 0 true) [d.x 1] [[], d.x 1] = some R ∧
        IsBlock balancingTwo [[0, 1], [1]] (slaveData balancingTwo 1 0 true) R := by
  obtain ⟨m, d, hset, hrun, -, hblock⟩ := balancing_iff isMatrix_two
    ⟨by decide, by decide⟩ (by decide) (by decide)
    (show [[2, 0], [1], [1, 1]].flatten = encodeRows [[0, 1], [1]] from rfl)
  exact ⟨m, d, hset, hrun, (hblock 1 (by decide) 0 (by decide) true [d.x 1] [[], d.x 1]
    (by simp [balancingTwo]) (by simp [balancingTwo])).mpr (by decide)⟩

/-- One thread. -/
def balancingOne (n : ℕ) : BalancingData where
  nh := 1
  nv := 1
  nrows := n
  ncols := n
  colperm := id

/-- A matrix without zeros. -/
def fullMatrix (n : ℕ) : List (List ℕ) :=
  List.replicate n (List.range n)

theorem isMatrix_full {n : ℕ} (hn : n < 2 ^ 32) : IsMatrix (balancingOne n) (fullMatrix n) := by
  refine ⟨List.length_replicate, ?_, ?_, le_rfl, hn⟩
  · intro row hrow
    rw [List.eq_of_mem_replicate hrow, List.length_range]
    exact hn
  · intro row hrow
    rw [List.eq_of_mem_replicate hrow]
    exact fun c hc => List.mem_range.mp hc

theorem blockWords_full (n : ℕ) :
    blockWords (balancingOne n) (fullMatrix n) (slaveData (balancingOne n) 0 0 false)
      = n + n * n := by
  have hsize : size (max n n) 1 0 = n := by simp [size, Nat.mod_one]
  have hstart : start (max n n) 1 0 = 0 := by simp [start]
  have hrows : (slaveData (balancingOne n) 0 0 false).myNrows = n := hsize
  have hcols : (slaveData (balancingOne n) 0 0 false).myNcols = n := hsize
  have hcount : (slaveData (balancingOne n) 0 0 false).count = n := hsize
  have hcoeff : ∀ r ∈ range n, ∀ c ∈ range n,
      blockCoeff (balancingOne n) (fullMatrix n) (slaveData (balancingOne n) 0 0 false) r c = 1 := by
    intro r hr c hc
    have hr0 : (slaveData (balancingOne n) 0 0 false).myRow0 = 0 := hstart
    have hc0 : (slaveData (balancingOne n) 0 0 false).myCol0 = 0 := hstart
    have hget : (fullMatrix n).getD r [] = List.range n := by
      rw [fullMatrix, List.getD_eq_getElem _ _ (by simpa using hr), List.getElem_replicate]
    rw [blockCoeff, hr0, hc0, zero_add, zero_add]
    show ((fullMatrix n).getD r []).count c = 1
    rw [hget]
    exact List.count_eq_one_of_mem List.nodup_range (List.mem_range.mpr (mem_range.mp hc))
  rw [blockWords, hrows, hcols, hcount]
  refine congrArg _ ((sum_congr rfl fun r hr => sum_congr rfl (hcoeff r hr)).trans ?_)
  simp

/-- The only thread does not build a full matrix with 65536 rows. -/
theorem balancing_full :
    ∃ m d, setMasterVariables (balancingOne 65536) = some m ∧
      [encodeRows (fullMatrix 65536)].foldlM (masterDispatcherPut m) masterDispatcherAlloc
        = some d ∧
      slaveLoop (slaveData (balancingOne 65536) 0 0 false) [d.x 0] [d.x 0] = none := by
  obtain ⟨n, hn⟩ : ∃ n, n = 65536 := ⟨_, rfl⟩
  rw [← hn]
  have hM := isMatrix_full (show n < 2 ^ 32 by omega)
  obtain ⟨fw, d, hset, hinverse, hrun, hx⟩ := dispatch_spec hM
    ⟨fun i hi => hi, fun i _ j _ h => h⟩ (le_refl 1) (le_refl 1)
    (List.flatten_singleton (l := encodeRows (fullMatrix n)))
  have hrows : InBlock (slaveData (balancingOne n) 0 0 false)
      (threadRows (balancingOne n) fw 0 0 0 (fullMatrix n)) := inBlock_threadRows false 0 _
  refine ⟨_, d, hset, hrun, slaveLoop_none (fits hM (Nat.lt_add_one 0) (Nat.lt_add_one 0) false)
    hrows ?_ ?_⟩
  · rw [List.flatten_singleton]
    exact hx 0 0 (Nat.lt_add_one 0)
  · rw [blockWords_eq hM hinverse (Nat.lt_add_one 0) (Nat.lt_add_one 0) false, blockWords_full, hn]
    exact Nat.le_of_ble_eq_true rfl

end Examples

end CadoNfs.Balancing
