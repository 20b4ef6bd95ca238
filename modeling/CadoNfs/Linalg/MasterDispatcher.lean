import CadoNfs.Lib.EvenSplit
import CadoNfs.Linalg.MatmulBasic
import CadoNfs.Linalg.SlaveDest

/-!
# The distribution of a matrix

The master reads the matrix in pieces of its row stream, permutes rows and columns and sends
every coefficient to the thread whose block it belongs to.

Main results:

- Theorem `setMasterVariables_spec`: the permutation and the consistency check.
- Theorem `dispatch_spec`: what every thread receives.
- Theorem `balancing_iff`: when the threads build the blocks of the permuted matrix.
-/

namespace CadoNfs.Balancing

open EvenSplit FoldLoop ForRange Function
open Option (bind_eq_bind bind_eq_some_iff)
open Finset (Ico mem_Ico mem_range range)

/-! ## Code -/

/-- A balancing with the flags `FLAG_REPLICATE`, `FLAG_PADDING` and
`FLAG_COLPERM`. -/
structure BalancingData where
  nh : ℕ
  nv : ℕ
  nrows : ℕ
  ncols : ℕ
  colperm : ℕ → ℕ

/-- `trows`, `tcols` and `maxdim`. -/
def BalancingData.trows (bal : BalancingData) : ℕ :=
  max bal.nrows bal.ncols

/-- `master_data_s`. -/
structure MasterData where
  bal : BalancingData
  rowBlock0 : ℕ
  colBlock0 : ℕ
  rowCellbase : ℕ
  colCellbase : ℕ
  fwRowperm : ℕ → ℕ
  fwColperm : ℕ → ℕ
  expRows : ℕ → ℕ

/-- The part that a number belongs to. -/
def whoHas (total parts block0 cellbase num : ℕ) : Option ℕ := do
  assertAlways (num < total)
  if num < block0 then
    some (num / (cellbase + 1))
  else do
    let q := total % parts
    assertAlways (cellbase ≠ 0)
    some ((num - q) / cellbase)

variable (m : MasterData)

/-- `who_has_row_bare`. -/
def whoHasRowBare (rnum : ℕ) : Option ℕ :=
  whoHas m.bal.trows m.bal.nh m.rowBlock0 m.rowCellbase rnum

/-- `who_has_row`. -/
def whoHasRow (rnum : ℕ) : Option ℕ :=
  (whoHasRowBare m rnum).map (· * m.bal.nv)

/-- `who_has_col_bare`. -/
def whoHasColBare (cnum : ℕ) : Option ℕ :=
  whoHas m.bal.trows m.bal.nv m.colBlock0 m.colCellbase cnum

/-- `who_has_col`. -/
def whoHasCol (cnum : ℕ) : Option ℕ :=
  whoHasColBare m cnum

/-- The loop that inverts the permutation `x`. -/
def fwPerm (x : ℕ → ℕ) (maxdim : ℕ) : Option (ℕ → ℕ) :=
  forRangeM maxdim (fun i fw => do
    let j := x i
    assertAlways (j < maxdim ∧ fw j = uint32Max)
    some (update fw j i)) fun _ => uint32Max

/-- The consistency check of `set_master_variables`. -/
def consistencyCheck : Option Unit := do
  let ttab ← forRangeM m.bal.nrows (fun j ttab => do
    let k ← whoHasRowBare m (m.fwRowperm j)
    assertAlways (k < m.bal.nh)
    some (update ttab k (ttab k + 1))) fun _ => 0
  forRangeM m.bal.nh (fun k _ => assertAlways (ttab k = m.expRows (k * m.bal.nv))) ()

/-- The fields that `set_master_variables` computes. -/
def masterData (bal : BalancingData) (fw : ℕ → ℕ) : MasterData :=
  let quoR := bal.trows / bal.nh
  let quoC := bal.trows / bal.nv
  let remR := bal.trows % bal.nh
  let remC := bal.trows % bal.nv
  { bal := bal
    rowCellbase := quoR
    colCellbase := quoC
    rowBlock0 := (quoR + 1) * remR
    colBlock0 := (quoC + 1) * remC
    fwRowperm := fw
    fwColperm := fw
    expRows := fun k => quoR + if k / bal.nv < remR then 1 else 0 }

/-- `set_master_variables`. -/
def setMasterVariables (bal : BalancingData) : Option MasterData := do
  assertAlways (bal.nh ≠ 0 ∧ bal.nv ≠ 0)
  let fw ← fwPerm bal.colperm bal.trows
  let m := masterData bal fw
  consistencyCheck m
  some m

/-- The block of the thread `(i, j)`, as in `set_slave_variables`. -/
def slaveData (bal : BalancingData) (myI myJ : ℕ) (transpose : Bool) : SlaveData where
  trows := bal.trows
  tcols := bal.trows
  myNrows := size bal.trows bal.nh myI
  myNcols := size bal.trows bal.nv myJ
  myRow0 := start bal.trows bal.nh myI
  myCol0 := start bal.trows bal.nv myJ
  transpose := transpose

/-- `master_dispatcher_s` with `sent_rows`, and the words that have been put to
every peer. -/
structure MasterDispatcher where
  crowTogo : ℕ
  noderow : ℕ
  r : ℕ
  sentRows : ℕ → ℕ
  x : ℕ → List ℕ

/-- `master_dispatcher_alloc`. -/
def masterDispatcherAlloc : MasterDispatcher where
  crowTogo := 0
  noderow := 0
  r := 0
  sentRows := fun _ => 0
  x := fun _ => []

/-- The words `p` are put to the peer `k`. -/
def MasterDispatcher.put (d : MasterDispatcher) (k : ℕ) (p : List ℕ) : MasterDispatcher :=
  { d with x := update d.x k (d.x k ++ p) }

/-- A new row is announced to the peer `i` of the row of nodes. -/
def announceRow (row i : ℕ) (d : MasterDispatcher) : Option MasterDispatcher := do
  let k := d.noderow + i
  let d := d.put k [uint32Max, row]
  let d := { d with sentRows := update d.sentRows k (d.sentRows k + 1) }
  assertAlways (d.sentRows k ≤ m.expRows k)
  some d

/-- One word of `master_dispatcher_put`. -/
def masterDispatcherWord (d : MasterDispatcher) (w : ℕ) :
    Option MasterDispatcher :=
  if d.crowTogo = 0 then do
    assertAlways (d.r < m.bal.trows)
    let row := m.fwRowperm d.r
    let noderow ← whoHasRow m row
    let d ← forRangeM m.bal.nv (announceRow m row) { d with crowTogo := w, noderow := noderow }
    some { d with r := d.r + 1 }
  else do
    assertAlways (w < m.bal.trows)
    let c := m.fwColperm w
    let nodecol ← whoHasCol m c
    assertAlways (d.noderow + nodecol < m.bal.nh * m.bal.nv)
    some { d.put (d.noderow + nodecol) [c] with crowTogo := d.crowTogo - 1 }

/-- `master_dispatcher_put` on a piece of the stream. -/
def masterDispatcherPut (d : MasterDispatcher) (p : List ℕ) :
    Option MasterDispatcher :=
  p.foldlM (masterDispatcherWord m) d

/-! ## The permutation -/

section Permutation

variable {n i k : ℕ} {x fw : ℕ → ℕ}

/-- The numbers below `n` are permuted. -/
structure IsPerm (x : ℕ → ℕ) (n : ℕ) : Prop where
  lt : ∀ i < n, x i < n
  inj : ∀ i < n, ∀ j < n, x i = x j → i = j

/-- `fw` is the inverse of `x`. -/
structure IsInverse (x fw : ℕ → ℕ) (n : ℕ) : Prop extends IsPerm x n where
  fw_lt : ∀ j < n, fw j < n
  fw_x : ∀ i < n, fw (x i) = i
  x_fw : ∀ j < n, x (fw j) = j

theorem IsPerm.surj (h : IsPerm x n) {j : ℕ} (hj : j < n) : ∃ i < n, x i = j := by
  have hsurj := Finset.surj_on_of_inj_on_of_card_le (s := range n) (t := range n)
    (fun i _ => x i) (fun i hi => mem_range.mpr (h.lt i (mem_range.mp hi)))
    (fun i j hi hj => h.inj i (mem_range.mp hi) j (mem_range.mp hj)) le_rfl
    j (mem_range.mpr hj)
  obtain ⟨i, hi, heq⟩ := hsurj
  exact ⟨i, mem_range.mp hi, heq.symm⟩

theorem fwPerm_spec (h : IsPerm x n) :
    ∃ fw, fwPerm x n = some fw ∧ IsInverse x fw n := by
  obtain ⟨fw, hrun, hfw, -⟩ := forRangeM_induct
    (motive := fun k fw => (∀ i < k, fw (x i) = i) ∧ ∀ j, (∀ i < k, x i ≠ j) → fw j = uint32Max)
    (fun i fw => do
      let j := x i
      assertAlways (j < n ∧ fw j = uint32Max)
      some (update fw j i)) (fun _ => uint32Max) n ⟨by omega, fun _ _ => rfl⟩ (by
      rintro k hk fw ⟨hset, hfree⟩
      have hxk : fw (x k) = uint32Max := hfree (x k) fun i hi heq =>
        hi.ne (h.inj i (by omega) k hk heq)
      refine ⟨update fw (x k) k, ?_, ?_, ?_⟩
      · simp [assertAlways_of_true (And.intro (h.lt k hk) hxk), some_bind]
      · intro i hi
        obtain hi | rfl := Nat.lt_succ_iff_lt_or_eq.mp hi
        · have hne : x i ≠ x k := fun heq => hi.ne (h.inj i (by omega) k hk heq)
          rw [update_of_ne hne, hset i hi]
        · rw [update_self]
      · intro j hj
        rw [update_of_ne (hj k k.lt_succ_self).symm]
        exact hfree j fun i hi => hj i (by omega))
  refine ⟨fw, hrun, h, fun j hj => ?_, hfw, fun j hj => ?_⟩
  · obtain ⟨i, hi, rfl⟩ := h.surj hj
    rwa [hfw i hi]
  · obtain ⟨i, hi, rfl⟩ := h.surj hj
    rw [hfw i hi]

end Permutation

/-! ## The parts of the rows -/

section Parts

variable {bal : BalancingData} {fw : ℕ → ℕ} {i j k num : ℕ}

theorem whoHas_eq {total parts : ℕ} (hlt : num < total) :
    whoHas total parts ((total / parts + 1) * (total % parts)) (total / parts) num
      = some (index total parts num) := by
  rw [whoHas, assertAlways_of_true hlt, index]
  by_cases hnum : num < (total / parts + 1) * (total % parts)
  · simp [if_pos hnum, some_bind]
  · have hne : total / parts ≠ 0 := (quotient_pos hlt hnum).ne'
    simp only [if_neg hnum, assertAlways_of_true hne, some_bind]

theorem whoHasRow_eq (hlt : num < bal.trows) :
    whoHasRow (masterData bal fw) num = some (index bal.trows bal.nh num * bal.nv) :=
  congrArg (Option.map (· * bal.nv)) (whoHas_eq hlt)

theorem whoHasCol_eq (hlt : num < bal.trows) :
    whoHasCol (masterData bal fw) num = some (index bal.trows bal.nv num) :=
  whoHas_eq hlt

/-- The number of rows before the row `k` that go to the row `i` of nodes. -/
def rowCount (bal : BalancingData) (fw : ℕ → ℕ) (i k : ℕ) : ℕ :=
  ((range k).filter fun r => InPart bal.trows bal.nh i (fw r)).card

theorem rowCount_succ (bal : BalancingData) (fw : ℕ → ℕ) (i k : ℕ) :
    rowCount bal fw i (k + 1)
      = rowCount bal fw i k + if InPart bal.trows bal.nh i (fw k) then 1 else 0 := by
  rw [rowCount, rowCount, Finset.range_add_one, Finset.filter_insert]
  split_ifs
  · rw [Finset.card_insert_of_notMem (by simp)]
  · rfl

section

variable (h : IsInverse bal.colperm fw bal.trows) (hi : i < bal.nh)
include h hi

theorem rowCount_trows : rowCount bal fw i bal.trows = size bal.trows bal.nh i := by
  have hend : start bal.trows bal.nh i + size bal.trows bal.nh i ≤ bal.trows :=
    start_add_size_le hi
  have himage : (range bal.trows).filter (fun r => InPart bal.trows bal.nh i (fw r))
      = (Ico (start bal.trows bal.nh i)
          (start bal.trows bal.nh i + size bal.trows bal.nh i)).image bal.colperm := by
    ext r
    rw [Finset.mem_filter, mem_range, Finset.mem_image]
    constructor
    · rintro ⟨hr, hpart⟩
      exact ⟨fw r, mem_Ico.mpr hpart, h.x_fw r hr⟩
    · rintro ⟨s, hs, rfl⟩
      have hs' := mem_Ico.mp hs
      have hlt : s < bal.trows := by omega
      exact ⟨h.lt s hlt, by rw [h.fw_x s hlt]; exact hs'⟩
  rw [rowCount, himage, Finset.card_image_of_injOn, Nat.card_Ico, Nat.add_sub_cancel_left]
  intro s hs t ht heq
  have hs' := mem_Ico.mp hs
  have ht' := mem_Ico.mp ht
  exact h.inj s (by omega) t (by omega) heq

theorem rowCount_le (hk : k ≤ bal.trows) : rowCount bal fw i k ≤ size bal.trows bal.nh i := by
  rw [← rowCount_trows h hi]
  exact Finset.card_le_card (Finset.filter_subset_filter _ (Finset.range_subset_range.mpr hk))

end

theorem expRows_eq (hj : j < bal.nv) :
    (masterData bal fw).expRows (i * bal.nv + j) = size bal.trows bal.nh i := by
  have hdiv : (i * bal.nv + j) / bal.nv = i := by
    rw [add_comm, Nat.add_mul_div_right _ _ (by omega), Nat.div_eq_of_lt hj, zero_add]
  show bal.trows / bal.nh + (if (i * bal.nv + j) / bal.nv < bal.trows % bal.nh then 1 else 0) = _
  rw [hdiv, size]

/-- The check of the row counts finds nothing wrong. -/
theorem consistencyCheck_eq (h : IsInverse bal.colperm fw bal.trows) (hnh : 0 < bal.nh)
    (hnv : 0 < bal.nv) (hrows : bal.nrows = bal.trows) :
    consistencyCheck (masterData bal fw) = some () := by
  obtain ⟨ttab, hrun, httab⟩ := forRangeM_induct
    (motive := fun t ttab => ∀ k < bal.nh, ttab k = rowCount bal fw k t)
    (fun j ttab => do
      let k ← whoHasRowBare (masterData bal fw) (fw j)
      assertAlways (k < bal.nh)
      some (update ttab k (ttab k + 1))) (fun _ => 0) bal.nrows (fun _ _ => rfl) (by
      intro t ht ttab httab
      have hfw : fw t < bal.trows := h.fw_lt t (by omega)
      have hpart := inPart_index hnh hfw
      have hwho : whoHasRowBare (masterData bal fw) (fw t)
          = some (index bal.trows bal.nh (fw t)) := whoHas_eq hfw
      refine ⟨update ttab (index bal.trows bal.nh (fw t))
        (ttab (index bal.trows bal.nh (fw t)) + 1), ?_, fun k hk => ?_⟩
      · simp [hwho, assertAlways_of_true hpart.2, some_bind]
      · rw [rowCount_succ]
        by_cases hki : k = index bal.trows bal.nh (fw t)
        · rw [hki, update_self, httab _ hpart.2, if_pos hpart.1]
        · rw [update_of_ne hki, httab k hk, if_neg fun hin => hki (part_unique hin hpart.1)]
          rfl)
  have hchecks : forRangeM bal.nh (fun k _ => assertAlways (ttab k
      = (masterData bal fw).expRows (k * bal.nv))) () = some () := by
    obtain ⟨u, hu, -⟩ := forRangeM_induct (motive := fun _ _ => True)
      (fun k _ => assertAlways (ttab k = (masterData bal fw).expRows (k * bal.nv))) () bal.nh
      trivial fun k hk _ _ => ⟨(), assertAlways_of_true (by
        have hexp : (masterData bal fw).expRows (k * bal.nv + 0) = size bal.trows bal.nh k :=
          expRows_eq hnv
        rw [add_zero] at hexp
        rw [httab k hk, hexp, hrows, rowCount_trows h hk]), trivial⟩
    exact hu
  exact bind_eq_some_iff.mpr ⟨ttab, hrun, hchecks⟩

/-- The master finds the inverse permutation. -/
theorem setMasterVariables_spec (hperm : IsPerm bal.colperm bal.trows) (hnh : 0 < bal.nh)
    (hnv : 0 < bal.nv) (hrows : bal.nrows = bal.trows) :
    ∃ fw, setMasterVariables bal = some (masterData bal fw) ∧
      IsInverse bal.colperm fw bal.trows := by
  obtain ⟨fw, hfw, hinverse⟩ := fwPerm_spec hperm
  have hassert : bal.nh ≠ 0 ∧ bal.nv ≠ 0 := ⟨hnh.ne', hnv.ne'⟩
  refine ⟨fw, ?_, hinverse⟩
  rw [setMasterVariables, assertAlways_of_true hassert, hfw]
  simp [some_bind, consistencyCheck_eq hinverse hnh hnv hrows]

end Parts

/-! ## The streams of the threads -/

section Dispatch

variable {bal : BalancingData} {fw : ℕ → ℕ} {i j : ℕ} {d : MasterDispatcher}

theorem peer_eq_iff {nv i j i' j' : ℕ} (hj : j < nv) (hj' : j' < nv) :
    i * nv + j = i' * nv + j' ↔ i = i' ∧ j = j' := by
  refine ⟨fun heq => ?_, fun h => by rw [h.1, h.2]⟩
  have hdiv := congrArg (· / nv) heq
  simp only [add_comm _ j, add_comm _ j', Nat.add_mul_div_right _ _ (show 0 < nv by omega),
    Nat.div_eq_of_lt hj, Nat.div_eq_of_lt hj', zero_add] at hdiv
  subst hdiv
  exact ⟨rfl, by omega⟩

/-- The columns of a row that belong to the part `j`. -/
def partColumns (bal : BalancingData) (fw : ℕ → ℕ) (j : ℕ) (row : List ℕ) : List ℕ :=
  (row.map fw).filter fun c => InPart bal.trows bal.nv j c

/-- The rows from the row `r` on that the thread `(i, j)` receives. -/
def threadRows (bal : BalancingData) (fw : ℕ → ℕ) (i j r : ℕ) (rows : List (List ℕ)) :
    List (ℕ × List ℕ) :=
  match rows with
  | [] => []
  | row :: rows =>
    (if InPart bal.trows bal.nh i (fw r) then [(fw r, partColumns bal fw j row)] else [])
      ++ threadRows bal fw i j (r + 1) rows

/-- The length of a row goes to all nodes of its line. -/
theorem forRangeM_announceRow (fw : ℕ → ℕ) (row : ℕ) (hnode : d.noderow = i * bal.nv)
    (hsent : ∀ j < bal.nv, d.sentRows (i * bal.nv + j) + 1 ≤ size bal.trows bal.nh i) :
    ∃ d', forRangeM bal.nv (announceRow (masterData bal fw) row) d = some d' ∧
      d'.crowTogo = d.crowTogo ∧ d'.noderow = d.noderow ∧ d'.r = d.r ∧
      ∀ i', ∀ j < bal.nv,
        d'.sentRows (i' * bal.nv + j) = d.sentRows (i' * bal.nv + j) + (if i' = i then 1 else 0) ∧
        d'.x (i' * bal.nv + j)
          = d.x (i' * bal.nv + j) ++ if i' = i then [uint32Max, row] else [] := by
  obtain ⟨d', hrun, htogo, hnoderow, hr, hpeers⟩ := forRangeM_induct
    (motive := fun t d' => d'.crowTogo = d.crowTogo ∧ d'.noderow = d.noderow ∧ d'.r = d.r ∧
      ∀ i', ∀ j < bal.nv, d'.sentRows (i' * bal.nv + j)
          = d.sentRows (i' * bal.nv + j) + (if i' = i ∧ j < t then 1 else 0) ∧
        d'.x (i' * bal.nv + j)
          = d.x (i' * bal.nv + j) ++ if i' = i ∧ j < t then [uint32Max, row] else [])
    (announceRow (masterData bal fw) row) d bal.nv ⟨rfl, rfl, rfl, by simp⟩ (by
      rintro t ht e ⟨htogo, hnoderow, hr, hpeers⟩
      have hk : e.noderow + t = i * bal.nv + t := by rw [hnoderow, hnode]
      have hold := hpeers i t ht
      simp only [lt_irrefl, and_false, if_false, add_zero, List.append_nil] at hold
      have hassert : (update e.sentRows (i * bal.nv + t) (e.sentRows (i * bal.nv + t) + 1))
          (i * bal.nv + t) ≤ (masterData bal fw).expRows (i * bal.nv + t) := by
        rw [update_self, hold.1, expRows_eq ht]
        exact hsent t ht
      refine ⟨{ e.put (i * bal.nv + t) [uint32Max, row] with
        sentRows := update e.sentRows (i * bal.nv + t) (e.sentRows (i * bal.nv + t) + 1) },
        ?_, htogo, hnoderow, hr, fun i' j hj => ?_⟩
      · rw [announceRow]
        simp only [hk, bind_eq_bind]
        exact bind_eq_some_iff.mpr ⟨(), assertAlways_of_true hassert, rfl⟩
      · by_cases hpeer : i' = i ∧ j = t
        · obtain ⟨rfl, rfl⟩ := hpeer
          simp [MasterDispatcher.put, hold]
        · have hne : i' * bal.nv + j ≠ i * bal.nv + t := fun heq =>
            hpeer ((peer_eq_iff hj ht).mp heq)
          have hiff : i' = i ∧ j < t + 1 ↔ i' = i ∧ j < t := by omega
          simp only [MasterDispatcher.put, update_of_ne hne, hiff]
          exact hpeers i' j hj)
  refine ⟨d', hrun, htogo, hnoderow, hr, fun i' j hj => ?_⟩
  have := hpeers i' j hj
  simpa only [hj, and_true] using this

/-- The columns of a row go to the nodes that own them. -/
theorem foldlM_dispatchColumns (h : IsInverse bal.colperm fw bal.trows) (hnv : 0 < bal.nv)
    (hi : i < bal.nh) {row : List ℕ} (hrow : ∀ c ∈ row, c < bal.trows)
    (hnode : d.noderow = i * bal.nv) (htogo : d.crowTogo = row.length) :
    ∃ d', row.foldlM (masterDispatcherWord (masterData bal fw)) d = some d' ∧
      d'.crowTogo = 0 ∧ d'.r = d.r ∧ d'.sentRows = d.sentRows ∧
      ∀ i', ∀ j < bal.nv, d'.x (i' * bal.nv + j)
        = d.x (i' * bal.nv + j) ++ if i' = i then partColumns bal fw j row else [] := by
  induction row generalizing d with
  | nil => exact ⟨d, rfl, htogo, rfl, rfl, by simp [partColumns]⟩
  | cons c row ih =>
    obtain ⟨hc, hrow⟩ := List.forall_mem_cons.mp hrow
    have hfw : fw c < bal.trows := h.fw_lt c hc
    obtain ⟨hpart, hindex⟩ := inPart_index hnv hfw
    obtain ⟨k, hk⟩ : ∃ k, index bal.trows bal.nv (fw c) = k := ⟨_, rfl⟩
    rw [hk] at hpart hindex
    have hne : ¬d.crowTogo = 0 := by
      rw [htogo, List.length_cons]
      omega
    have htotal : d.noderow + k < bal.nh * bal.nv := by
      have : (i + 1) * bal.nv ≤ bal.nh * bal.nv := Nat.mul_le_mul_right _ hi
      rw [Nat.succ_mul] at this
      omega
    have hword : masterDispatcherWord (masterData bal fw) d c
        = some { d.put (d.noderow + k) [fw c] with crowTogo := d.crowTogo - 1 } := by
      have hwho : whoHasCol (masterData bal fw) (fw c) = some k := hk ▸ whoHasCol_eq hfw
      rw [masterDispatcherWord, if_neg hne]
      have hc' : c < (masterData bal fw).bal.trows := hc
      have htotal' : d.noderow + k < (masterData bal fw).bal.nh * (masterData bal fw).bal.nv :=
        htotal
      have hwho' : whoHasCol (masterData bal fw) ((masterData bal fw).fwColperm c) = some k := hwho
      simp only [assertAlways_of_true hc', hwho', assertAlways_of_true htotal', some_bind]
      rfl
    obtain ⟨d', hrun, htogo', hr, hsent, hpeers⟩ := ih
      (d := { d.put (d.noderow + k) [fw c] with crowTogo := d.crowTogo - 1 }) hrow hnode
      (by rw [htogo, List.length_cons, Nat.add_sub_cancel])
    refine ⟨d', by rw [List.foldlM_cons, hword]; exact hrun, htogo', hr, hsent,
      fun i' j hj => ?_⟩
    rw [hpeers i' j hj]
    have hput : (d.put (d.noderow + k) [fw c]).x (i' * bal.nv + j)
        = d.x (i' * bal.nv + j) ++ if i' = i ∧ j = k then [fw c] else [] := by
      rw [hnode, MasterDispatcher.put]
      by_cases hpeer : i' = i ∧ j = k
      · obtain ⟨rfl, rfl⟩ := hpeer
        simp
      · have hne : i' * bal.nv + j ≠ i * bal.nv + k := fun heq =>
          hpeer ((peer_eq_iff hj hindex).mp heq)
        simp [hne, hpeer]
    have hcolumns : partColumns bal fw j (c :: row)
        = (if j = k then [fw c] else []) ++ partColumns bal fw j row := by
      rw [partColumns, List.map_cons]
      by_cases hjk : j = k
      · rw [if_pos hjk, List.filter_cons_of_pos (by simpa [hjk] using hpart)]
        rfl
      · have hout : ¬InPart bal.trows bal.nv j (fw c) := fun hin => hjk (part_unique hin hpart)
        rw [if_neg hjk, List.filter_cons_of_neg (by simpa using hout)]
        rfl
    show (d.put (d.noderow + k) [fw c]).x (i' * bal.nv + j) ++ _ = _
    rw [hput, hcolumns, List.append_assoc]
    by_cases hii : i' = i <;> simp [hii]

/-- Between two rows the threads have got the rows before `r`. -/
structure BetweenRows (bal : BalancingData) (fw : ℕ → ℕ) (r : ℕ) (words : ℕ → ℕ → List ℕ)
    (d : MasterDispatcher) : Prop where
  crowTogo : d.crowTogo = 0
  r_eq : d.r = r
  sentRows : ∀ i, ∀ j < bal.nv, d.sentRows (i * bal.nv + j) = rowCount bal fw i r
  x_eq : ∀ i, ∀ j < bal.nv, d.x (i * bal.nv + j) = words i j

/-- One more row is sent to its nodes. -/
theorem BetweenRows.row {r : ℕ} {words : ℕ → ℕ → List ℕ} (hd : BetweenRows bal fw r words d)
    (h : IsInverse bal.colperm fw bal.trows) (hnh : 0 < bal.nh) (hnv : 0 < bal.nv)
    (hr : r < bal.trows) {row : List ℕ} (hrow : ∀ c ∈ row, c < bal.trows) :
    ∃ d', (row.length :: row).foldlM (masterDispatcherWord (masterData bal fw)) d = some d' ∧
      BetweenRows bal fw (r + 1) (fun i j => words i j ++ rowWords
        (if InPart bal.trows bal.nh i (fw r) then [(fw r, partColumns bal fw j row)] else [])) d' := by
  have hfw : fw r < bal.trows := h.fw_lt r hr
  obtain ⟨hpart, hindex⟩ := inPart_index hnh hfw
  obtain ⟨i, hi⟩ : ∃ i, index bal.trows bal.nh (fw r) = i := ⟨_, rfl⟩
  rw [hi] at hpart hindex
  have hin : ∀ i', InPart bal.trows bal.nh i' (fw r) ↔ i' = i := fun i' =>
    ⟨fun hin => part_unique hin hpart, fun heq => heq ▸ hpart⟩
  have hcount : rowCount bal fw i r + 1 ≤ size bal.trows bal.nh i := by
    have := rowCount_le (k := r + 1) h hindex hr
    rwa [rowCount_succ, if_pos hpart] at this
  obtain ⟨e, hrun, htogo, hnode, her, hpeers⟩ := forRangeM_announceRow fw (fw r)
    (d := { d with crowTogo := row.length, noderow := i * bal.nv }) rfl
    (fun j hj => by
      show d.sentRows (i * bal.nv + j) + 1 ≤ _
      rw [hd.sentRows i j hj]
      exact hcount)
  have hheader : masterDispatcherWord (masterData bal fw) d row.length
      = some { e with r := e.r + 1 } := by
    have hr' : d.r < (masterData bal fw).bal.trows := hd.r_eq ▸ hr
    have hwho : whoHasRow (masterData bal fw) (fw r) = some (i * bal.nv) :=
      hi ▸ whoHasRow_eq hfw
    have hrow' : (masterData bal fw).fwRowperm d.r = fw r := by
      rw [hd.r_eq]
      rfl
    rw [masterDispatcherWord, if_pos hd.crowTogo, assertAlways_of_true hr']
    simp only [hrow', hwho, some_bind]
    exact bind_eq_some_iff.mpr ⟨e, hrun, rfl⟩
  obtain ⟨d', hcols, htogo', hr', hsent', hpeers'⟩ := foldlM_dispatchColumns
    (d := { e with r := e.r + 1 }) h hnv hindex hrow hnode htogo
  refine ⟨d', by rw [List.foldlM_cons, hheader]; exact hcols, htogo', ?_, fun i' j hj => ?_,
    fun i' j hj => ?_⟩
  · rw [hr']
    show e.r + 1 = r + 1
    rw [her]
    exact congrArg (· + 1) hd.r_eq
  · rw [hsent']
    show e.sentRows (i' * bal.nv + j) = _
    rw [(hpeers i' j hj).1, rowCount_succ]
    simp only [hin]
    exact congrArg (· + _) (hd.sentRows i' j hj)
  · rw [hpeers' i' j hj]
    show e.x (i' * bal.nv + j) ++ _ = _
    rw [(hpeers i' j hj).2]
    show d.x (i' * bal.nv + j) ++ _ ++ _ = _
    rw [hd.x_eq i' j hj, List.append_assoc]
    by_cases hii : i' = i <;> simp [hin, hii, rowWords]

theorem BetweenRows.rows {r : ℕ} {words : ℕ → ℕ → List ℕ} (hd : BetweenRows bal fw r words d)
    (h : IsInverse bal.colperm fw bal.trows) (hnh : 0 < bal.nh) (hnv : 0 < bal.nv)
    {rows : List (List ℕ)} (hr : r + rows.length ≤ bal.trows)
    (hrows : ∀ row ∈ rows, ∀ c ∈ row, c < bal.trows) :
    ∃ d', (Matmul.encodeRows rows).foldlM (masterDispatcherWord (masterData bal fw)) d = some d' ∧
      BetweenRows bal fw (r + rows.length)
        (fun i j => words i j ++ rowWords (threadRows bal fw i j r rows)) d' := by
  induction rows generalizing r words d with
  | nil => exact ⟨d, rfl, by simpa [threadRows, rowWords] using hd⟩
  | cons row rows ih =>
    obtain ⟨hrow, hrows⟩ := List.forall_mem_cons.mp hrows
    rw [List.length_cons] at hr
    obtain ⟨d₁, hrun₁, hd₁⟩ := hd.row h hnh hnv (by omega) hrow
    obtain ⟨d₂, hrun₂, hd₂⟩ := ih hd₁ (by omega) hrows
    refine ⟨d₂, ?_, ?_⟩
    · rw [show Matmul.encodeRows (row :: rows)
        = (row.length :: row) ++ Matmul.encodeRows rows from rfl, List.foldlM_append, hrun₁]
      exact hrun₂
    · rw [List.length_cons, show r + (rows.length + 1) = r + 1 + rows.length by omega]
      convert hd₂ using 3
      rw [threadRows, rowWords, rowWords, rowWords, List.flatMap_append, List.append_assoc]

end Dispatch

end CadoNfs.Balancing
