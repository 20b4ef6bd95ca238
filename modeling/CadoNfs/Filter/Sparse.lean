import CadoNfs.Filter.MergeMono

/-!
# Sums of rows

`addRows` writes the sum of two rows into an array that has been allocated before.  Along a
spanning tree its size comes from a matrix that was filled before the first sum.

Main results:

- Theorem `addRowsTmp_eq`: the loops of `addRows`, and when they stay in the array.
- Theorem `addRows_eq`: `addRows` is these loops.
- Theorem `SumCall.rows_eq`: a row has not been changed before it is used.
- Theorem `rowSums_exact`: the sum, its weight and the lengths along a tree.
-/

namespace CadoNfs.Merge

open SortedXor
open List (foldlM_cons map_cons mem_append mem_cons nodup_cons range)
open Option (bind_eq_bind bind_eq_some_iff map_eq_some_iff some_ne_none)
open Function (update)

/-! ## The loops of `addRows` -/

section Loops

variable {α : Type*}

/-- `tmp[k++] = x`, where `tmp` has room for `len` numbers and
`tmp[1], ..., tmp[k - 1]` have been written. -/
def writeTmp (len : ℤ) (tmp : List α) (x : α) : Option (List α) :=
  if ((tmp.length + 1 : ℕ) : ℤ) < len then some (tmp ++ [x]) else none

/-- The loop while there are cells of both rows, and the loops for the rest of one row. -/
def addRowsLoop [LinearOrder α] (len : ℤ) : List α → List α → List α → Option (List α)
  | [], row2, tmp => row2.foldlM (writeTmp len) tmp
  | a :: row1, [], tmp => (a :: row1).foldlM (writeTmp len) tmp
  | a :: row1, b :: row2, tmp =>
    if a < b then do addRowsLoop len row1 (b :: row2) (← writeTmp len tmp a)
    else if b < a then do addRowsLoop len (a :: row1) row2 (← writeTmp len tmp b)
    else addRowsLoop len row1 row2 tmp
termination_by row1 row2 => row1.length + row2.length

/-- `tmp` in `addRows`, with its assertions. -/
def addRowsTmp [LinearOrder α] (row1 row2 : List α) (len0 : ℤ) : Option (List α) := do
  let len := 1 + (if len0 ≠ -1 then len0 else row1.length + row2.length)
  let tmp ← addRowsLoop len row1 row2 []
  if ¬((tmp.length + 1 : ℕ) : ℤ) ≤ len then none
  else if len0 ≠ -1 ∧ (tmp.length : ℤ) ≠ len0 then none
  else some tmp

variable {len len0 : ℤ} {row row1 row2 tmp : List α}

theorem foldlM_writeTmp (len : ℤ) (row tmp : List α) : row.foldlM (writeTmp len) tmp
    = if row = [] ∨ ((tmp.length + row.length : ℕ) : ℤ) < len then some (tmp ++ row)
      else none := by
  induction row generalizing tmp with
  | nil => simp
  | cons a row ih =>
    rw [foldlM_cons, writeTmp]
    by_cases hroom : ((tmp.length + 1 : ℕ) : ℤ) < len
    · have hiff : (row = [] ∨ (((tmp ++ [a]).length + row.length : ℕ) : ℤ) < len)
          ↔ (a :: row = [] ∨ ((tmp.length + (a :: row).length : ℕ) : ℤ) < len) := by
        rw [← List.length_eq_zero_iff]
        simp only [List.length_append, List.length_cons, List.length_nil, List.cons_ne_nil,
          false_or]
        omega
      rw [if_pos hroom, some_bind, ih]
      simp only [hiff, List.append_assoc, List.singleton_append]
    · rw [if_neg hroom, if_neg]
      · rfl
      · simp only [List.cons_ne_nil, List.length_cons, false_or]
        omega

variable [LinearOrder α]

theorem addRowsLoop_eq (len : ℤ) (row1 row2 tmp : List α) :
    addRowsLoop len row1 row2 tmp = (xorMerge row1 row2).foldlM (writeTmp len) tmp := by
  fun_induction addRowsLoop len row1 row2 tmp with
  | case1 row2 tmp => rw [xorMerge_nil_left]
  | case2 a row1 tmp => rw [xorMerge_nil_right]
  | case3 a row1 b row2 tmp hlt ih =>
    rw [xorMerge_cons_of_lt hlt, foldlM_cons]
    exact bind_congr ih
  | case4 a row1 b row2 tmp _ hgt ih =>
    rw [xorMerge_cons_of_gt hgt, foldlM_cons]
    exact bind_congr ih
  | case5 a row1 b row2 tmp hlt hgt ih =>
    obtain rfl : a = b := le_antisymm (not_lt.mp hgt) (not_lt.mp hlt)
    rw [xorMerge_cons_self, ih]

/-- Without a length there is always enough room.  Else the length must be that of the sum. -/
theorem addRowsTmp_eq (row1 row2 : List α) (len0 : ℤ) : addRowsTmp row1 row2 len0
    = if len0 ≠ -1 ∧ len0 ≠ (xorMerge row1 row2).length then none
      else some (xorMerge row1 row2) := by
  have hle := length_xorMerge_le row1 row2
  rw [addRowsTmp, addRowsLoop_eq, foldlM_writeTmp]
  simp only [List.length_nil, List.nil_append, zero_add]
  by_cases hlen : len0 = -1
  · have hfits : ((xorMerge row1 row2).length : ℤ) < 1 + (row1.length + row2.length : ℕ) := by omega
    simp only [hlen, ne_eq, not_true_eq_false, if_false, false_and]
    rw [if_pos (Or.inr (by push_cast at hfits; exact hfits)), some_bind, if_neg]
    push_cast at hfits ⊢
    omega
  · simp only [hlen, ne_eq, not_false_eq_true, if_true, true_and]
    by_cases hexact : len0 = (xorMerge row1 row2).length
    · rw [if_pos (Or.inr (by omega)), some_bind,
        if_neg (by push_cast; omega), if_neg (by omega), if_neg (by omega)]
    · rw [if_pos hexact]
      split_ifs with hroom
      · rw [some_bind]
        split_ifs with hassert hlength
        · exact absurd hlength.symm hexact
        · rfl
        · rfl
      · rfl

/-- The loops do what `addRows` stands for. -/
theorem addRows_eq (rows : ℕ → Option (List ℕ)) (i1 i2 : ℕ) (len0 : ℤ) :
    addRows rows i1 i2 len0 = do
      let row1 ← rows i1
      let row2 ← rows i2
      let tmp ← addRowsTmp row1 row2 len0
      return update rows i1 (some tmp) := by
  refine bind_congr fun row1 => bind_congr fun row2 => ?_
  rw [addRowsTmp_eq]
  simp only
  split_ifs <;> rfl

end Loops

/-! ## What a sum leaves as it is -/

section Frame

variable {mat mat' : FilterMatrix} {i i1 i2 j : ℕ} {ind len : ℤ} {row1 row2 : List ℕ}

theorem onlyColumns_removeJFromS (h : removeJFromS mat j = some mat') : OnlyColumns mat mat' := by
  rw [removeJFromS] at h
  split at h
  · exact Option.some.inj h ▸ OnlyColumns.refl mat
  · obtain ⟨heap, -, rfl⟩ := map_eq_some_iff.mp h
    rfl

theorem onlyColumns_removeCellAndUpdate (h : removeCellAndUpdate mat i j = some mat') :
    OnlyColumns mat mat' := by
  rw [removeCellAndUpdate] at h
  split_ifs at h
  · exact Option.some.inj h ▸ OnlyColumns.refl mat
  · obtain ⟨mat₁, hdecrease, rfl⟩ := map_eq_some_iff.mp h
    simp only [decreaseColWeightSWAR, bind_eq_bind, bind_eq_some_iff] at hdecrease
    obtain ⟨mat₂, hremove, dcl, -, ⟨heap, cell⟩, -, hmat₁⟩ := hdecrease
    have honly := onlyColumns_removeJFromS hremove
    obtain rfl := Option.some.inj hmat₁
    rw [OnlyColumns] at honly
    rw [OnlyColumns, removeIFromRj]
    split <;> rw [honly]

theorem onlyColumns_addCellAndUpdate (h : addCellAndUpdate mat i j = some mat') :
    OnlyColumns mat mat' := by
  rw [addCellAndUpdate, bind_eq_bind, bind_eq_some_iff] at h
  obtain ⟨⟨mat₁, ind⟩, hcol, hrun⟩ := h
  have honly : OnlyColumns mat mat₁ := by
    rw [addColSWAR] at hcol
    split_ifs at hcol
    · obtain ⟨rfl, -⟩ := Prod.mk.inj (Option.some.inj hcol)
      rfl
    · simp only [bind_eq_bind, bind_eq_some_iff] at hcol
      obtain ⟨mat₂, hremove, dcl, -, ⟨heap, cell⟩, -, hmat₁⟩ := hcol
      have honly := onlyColumns_removeJFromS hremove
      obtain ⟨rfl, -⟩ := Prod.mk.inj (Option.some.inj hmat₁)
      rw [OnlyColumns] at honly ⊢
      rw [honly]
  simp only at hrun
  split_ifs at hrun
  · rw [addIToRj, map_eq_some_iff] at hrun
    obtain ⟨entries, -, rfl⟩ := hrun
    rw [OnlyColumns] at honly ⊢
    rw [honly]
  · exact Option.some.inj hrun ▸ honly

theorem onlyColumns_foldlM {f : FilterMatrix → ℕ → Option FilterMatrix}
    (hf : ∀ mat j mat', f mat j = some mat' → OnlyColumns mat mat') {js : List ℕ}
    (h : js.foldlM f mat = some mat') : OnlyColumns mat mat' := by
  induction js generalizing mat with
  | nil => exact Option.some.inj h ▸ OnlyColumns.refl mat
  | cons j js ih =>
    rw [foldlM_cons, bind_eq_bind, bind_eq_some_iff] at h
    obtain ⟨mat₁, hj, hjs⟩ := h
    exact (hf mat j mat₁ hj).trans (ih hjs)

/-- Only the rows `is` have changed, and the buried weights have not. -/
structure Keeps (is : List ℕ) (mat mat' : FilterMatrix) : Prop where
  rows_eq : ∀ i, i ∉ is → mat'.rows i = mat.rows i
  wburied_eq : mat'.wburied = mat.wburied
  nburied_eq : mat'.nburied = mat.nburied

theorem Keeps.refl (mat : FilterMatrix) : Keeps [] mat mat :=
  ⟨fun _ _ => rfl, rfl, rfl⟩

theorem Keeps.mono {is is' : List ℕ} (h : Keeps is mat mat') (hsub : ∀ i ∈ is, i ∈ is') :
    Keeps is' mat mat' :=
  ⟨fun i hi => h.rows_eq i fun hmem => hi (hsub i hmem), h.wburied_eq, h.nburied_eq⟩

theorem Keeps.append {is is' : List ℕ} {mat'' : FilterMatrix} (h : Keeps is mat mat')
    (h' : Keeps is' mat' mat'') : Keeps (is ++ is') mat mat'' := by
  refine ⟨fun i hi => ?_, h'.wburied_eq.trans h.wburied_eq, h'.nburied_eq.trans h.nburied_eq⟩
  rw [mem_append, not_or] at hi
  rw [h'.rows_eq i hi.2, h.rows_eq i hi.1]

theorem keeps_addRowsAndUpdate (h : addRowsAndUpdate mat i1 i2 len = some mat') :
    Keeps [i1] mat mat' := by
  simp only [addRowsAndUpdate, bind_eq_bind, bind_eq_some_iff, removeRowAndUpdate,
    addOneRowAndUpdate, addRows] at h
  obtain ⟨mat₁, ⟨row, -, hremove⟩, rows, ⟨row1, -, row2, -, hrows⟩, row', -, hadd⟩ := h
  have honly := onlyColumns_foldlM (fun mat j mat' => onlyColumns_removeCellAndUpdate) hremove
  have honly' := onlyColumns_foldlM (fun mat j mat' => onlyColumns_addCellAndUpdate) hadd
  split_ifs at hrows
  obtain rfl := Option.some.inj hrows
  rw [OnlyColumns] at honly honly'
  rw [honly', honly]
  exact ⟨fun i hi => Function.update_of_ne (fun heq => hi (List.mem_singleton.mpr heq)) _ _, rfl,
    rfl⟩

end Frame

/-! ## The sums along a tree -/

/-- The arguments of a call of `addRowsAndUpdate`. -/
structure AddCall where
  mat : FilterMatrix
  i1 : ℕ
  i2 : ℕ
  len : ℤ

/-- The call for the son `son` of `u`, with the matrix as the recursive call leaves it. -/
def addCall (ind : List ℕ) (A : ℕ → ℕ → ℤ) (u son : ℕ) (mat : FilterMatrix) : AddCall where
  mat := mat
  i1 := rowAt ind son
  i2 := rowAt ind u
  len := A son u
    - (min (mat.wburied (rowAt ind son) + mat.wburied (rowAt ind u)) mat.nburied : ℕ)

/-- The call that `addToSon` makes. -/
theorem addToSon_eq (ind : List ℕ) (A : ℕ → ℕ → ℤ)
    (rec : History → FilterMatrix → ℕ → ℕ → Option (Option ℕ × History × FilterMatrix))
    (u level0 level : ℕ) (history : History) (mat : FilterMatrix) (son : ℕ) :
    addToSon ind A rec u level0 (level, history, mat) son = (do
      let (i1, history, mat) ← rec history mat son (level + 1)
      let call := addCall ind A u son mat
      let mat ← addRowsAndUpdate call.mat call.i1 call.i2 call.len
      return (i1.getD level, update history level0 (history level0 ++ [(call.i1 : ℤ)]), mat)) :=
  rfl

/-- The loop of `addFatherToSonsRec` over the sons `us` of `u` reaches a call, or
one of the loops below it does. -/
inductive SumCall (ind : List ℕ) (A : ℕ → ℕ → ℤ) (father : ℕ → Option ℕ) (sons : ℕ → List ℕ) :
    ℕ → ℕ → ℕ → ℕ × History × FilterMatrix → List ℕ → AddCall → Prop where
  | here {fuel u level0 level history mat son us i1 history' mat'}
      (hrec : addFatherToSonsRec ind A father sons fuel history mat son (level + 1)
        = some (i1, history', mat')) :
      SumCall ind A father sons fuel u level0 (level, history, mat) (son :: us)
        (addCall ind A u son mat')
  | inside {fuel u level0 level history mat son us call}
      (h : SumCall ind A father sons fuel son (level + 1)
        (level + 1, update history (level + 1)
          [if father son = some son then (rowAt ind son : ℤ) else -((rowAt ind son : ℤ) + 1)], mat)
        (sons son) call) :
      SumCall ind A father sons (fuel + 1) u level0 (level, history, mat) (son :: us) call
  | later {fuel u level0 state state' son us call}
      (hstep : addToSon ind A (addFatherToSonsRec ind A father sons fuel) u level0 state son
        = some state')
      (h : SumCall ind A father sons fuel u level0 state' us call) :
      SumCall ind A father sons fuel u level0 state (son :: us) call

section Tree

variable {ind us : List ℕ} {A : ℕ → ℕ → ℤ} {father : ℕ → Option ℕ} {sons : ℕ → List ℕ}
  {F kids : Forest ℕ} {mat mat' : FilterMatrix} {history history' : History}
  {fuel u a level0 level level' m : ℕ} {i1 : Option ℕ} {call : AddCall}

theorem keeps_addFatherToSonsRec {is : List ℕ}
    (hsons : ∀ {fuel level level' : ℕ} {history history' : History}, (sons u).foldlM
      (addToSon ind A (addFatherToSonsRec ind A father sons fuel) u level0) (level, history, mat)
        = some (level', history', mat') → Keeps is mat mat')
    (h : addFatherToSonsRec ind A father sons fuel history mat u level0
      = some (i1, history', mat')) : Keeps is mat mat' := by
  cases fuel with
  | zero => cases h
  | succ fuel =>
    rw [addFatherToSonsRec] at h
    by_cases hnil : sons u = []
    · rw [if_pos hnil] at h
      obtain ⟨-, -, rfl⟩ := h
      exact (Keeps.refl mat).mono fun i hi => absurd hi List.not_mem_nil
    · rw [if_neg hnil] at h
      simp only [bind_eq_bind, bind_eq_some_iff] at h
      obtain ⟨⟨level', history₁, mat₁⟩, hrun, hrest⟩ := h
      obtain ⟨-, -, rfl⟩ := hrest
      exact hsons hrun

theorem keeps_addToSon (hof : F.Of sons us)
    (h : us.foldlM (addToSon ind A (addFatherToSonsRec ind A father sons fuel) u level0)
      (level, history, mat) = some (level', history', mat')) :
    Keeps (F.labels.map (rowAt ind)) mat mat' := by
  induction F generalizing us fuel u level0 level history mat level' history' mat' with
  | nil =>
    obtain rfl : us = [] := hof
    obtain ⟨-, -, rfl⟩ := h
    exact Keeps.refl mat
  | node a kids rest ihkids ihrest =>
    obtain ⟨us', rfl, hkids, hrest⟩ := hof
    rw [foldlM_cons, bind_eq_bind, bind_eq_some_iff] at h
    obtain ⟨⟨level₁, history₁, mat₁⟩, hstep, hrun⟩ := h
    simp only [addToSon_eq, bind_eq_bind, bind_eq_some_iff] at hstep
    obtain ⟨⟨i1, history₂, mat₂⟩, hrec, mat₃, hadd, hstep⟩ := hstep
    obtain ⟨-, -, rfl⟩ := hstep
    have hbelow := keeps_addFatherToSonsRec (fun hsons => ihkids hkids hsons) hrec
    refine ((hbelow.append (keeps_addRowsAndUpdate hadd)).append (ihrest hrest hrun)).mono
      fun i hi => ?_
    simp only [Forest.labels, map_cons, List.map_append, mem_append, mem_cons,
      List.not_mem_nil, or_false] at hi ⊢
    tauto

/-- When a row is used in a sum, it is as it was before the first sum. -/
theorem SumCall.rows_eq (h : SumCall ind A father sons fuel u level0 (level, history, mat) us call)
    (hof : F.Of sons us) (hnodup : ((u :: F.labels).map (rowAt ind)).Nodup) :
    ∃ p ∈ F.additions u, call.i1 = rowAt ind p.1 ∧ call.i2 = rowAt ind p.2 ∧
      call.len = A p.1 p.2 - (min (mat.wburied call.i1 + mat.wburied call.i2) mat.nburied : ℕ) ∧
      call.mat.rows call.i1 = mat.rows call.i1 ∧ call.mat.rows call.i2 = mat.rows call.i2 := by
  induction F generalizing us fuel u level0 level history mat with
  | nil =>
    obtain rfl : us = [] := hof
    cases h
  | node a kids rest ihkids ihrest =>
    obtain ⟨us', rfl, hkids, hrest⟩ := hof
    simp only [Forest.labels, map_cons, List.map_append, nodup_cons, mem_cons,
      mem_append, not_or, List.nodup_append] at hnodup
    obtain ⟨⟨hua, hukids, hurest⟩, ⟨hakids, harest⟩, hnkids, hnrest, hdisj⟩ := hnodup
    cases h with
    | here hrec =>
      have hkeeps := keeps_addFatherToSonsRec (fun hsons => keeps_addToSon hkids hsons) hrec
      refine ⟨(a, u), by simp [Forest.additions], rfl, rfl, ?_, hkeeps.rows_eq _ hakids,
        hkeeps.rows_eq _ hukids⟩
      simp only [addCall, hkeeps.wburied_eq, hkeeps.nburied_eq]
    | inside h =>
      obtain ⟨p, hp, hcall⟩ := ihkids h hkids (nodup_cons.mpr ⟨hakids, hnkids⟩)
      exact ⟨p, List.mem_append_left _ hp, hcall⟩
    | later hstep h =>
      rename_i state'
      obtain ⟨level₁, history₁, mat₁⟩ := state'
      have hone : [a].foldlM (addToSon ind A (addFatherToSonsRec ind A father sons fuel) u level0)
          (level, history, mat) = some (level₁, history₁, mat₁) := by
        rw [foldlM_cons, hstep]
        rfl
      have hkeeps : Keeps ((Forest.node a kids .nil).labels.map (rowAt ind)) mat mat₁ :=
        keeps_addToSon ⟨[], rfl, hkids, rfl⟩ hone
      obtain ⟨p, hp, h1, h2, hlen, hrow1, hrow2⟩ :=
        ihrest h hrest (nodup_cons.mpr ⟨hurest, hnrest⟩)
      obtain ⟨ht, hs⟩ := Forest.mem_of_mem_additions hp
      have hsame : ∀ x ∈ u :: rest.labels, mat₁.rows (rowAt ind x) = mat.rows (rowAt ind x) := by
        intro x hx
        refine hkeeps.rows_eq _ ?_
        simp only [Forest.labels, List.append_nil, map_cons, mem_cons, not_or]
        rcases mem_cons.mp hx with rfl | hx
        · exact ⟨hua, hukids⟩
        · have hx := List.mem_map_of_mem (f := rowAt ind) hx
          exact ⟨fun heq => harest (heq ▸ hx), fun hmem => hdisj _ hmem _ hx rfl⟩
      refine ⟨p, List.mem_append_right _ (List.mem_cons_of_mem _ hp), h1, h2, ?_, ?_, ?_⟩
      · rw [hlen, hkeeps.wburied_eq, hkeeps.nburied_eq]
      · rw [hrow1, h1]
        exact hsame _ (List.mem_cons_of_mem _ ht)
      · rw [hrow2, h2]
        exact hsame _ hs

/-- `addFatherToSons` reaches a call. -/
def TreeCall (mat : FilterMatrix) (m : ℕ) (ind : List ℕ) (A : ℕ → ℕ → ℤ) (father : ℕ → Option ℕ)
    (sons : ℕ → List ℕ) (call : AddCall) : Prop :=
  SumCall ind A father sons (m - 1) 0 0 (0, update (fun _ => []) 0
    [if father 0 = some 0 then (rowAt ind 0 : ℤ) else -((rowAt ind 0 : ℤ) + 1)], mat) (sons 0) call

theorem TreeCall.len_eq
    (h : TreeCall mat m ind (fillRowAddMatrix mat (rowAt ind)) father sons call)
    (hof : F.Of sons (sons 0)) (hperm : (0 :: F.labels).Perm (range m)) (hnodup : ind.Nodup)
    (hlength : ind.length = m)
    (hrows : ∀ i ∈ ind, ∃ row, mat.rows i = some row ∧ row.Pairwise (· < ·)) :
    ∃ row1 row2, call.mat.rows call.i1 = some row1 ∧ call.mat.rows call.i2 = some row2 ∧
      row1.Pairwise (· < ·) ∧ row2.Pairwise (· < ·) ∧ call.len = (xorMerge row1 row2).length := by
  have hpermind : ((0 :: F.labels).map (rowAt ind)).Perm ind := by
    have hmap := hperm.map (rowAt ind)
    rwa [map_rowAt_range hlength] at hmap
  obtain ⟨⟨t, s⟩, hp, h1, h2, hlen, hrow1, hrow2⟩ :=
    SumCall.rows_eq h hof (hpermind.nodup_iff.mpr hnodup)
  obtain ⟨ht, hs⟩ := Forest.mem_of_mem_additions hp
  have hrow : ∀ x ∈ 0 :: F.labels, ∃ row, mat.rows (rowAt ind x) = some row ∧
      row.Pairwise (· < ·) :=
    fun x hx => hrows _ (hpermind.mem_iff.mp (List.mem_map_of_mem hx))
  obtain ⟨row1, hmat1, hinc1⟩ := hrow t (List.mem_cons_of_mem _ ht)
  obtain ⟨row2, hmat2, hinc2⟩ := hrow s hs
  refine ⟨row1, row2, by rw [hrow1, h1, hmat1], by rw [hrow2, h2, hmat2], hinc1, hinc2, ?_⟩
  have hne : t ≠ s := Forest.ne_of_mem_additions (hperm.nodup_iff.mpr List.nodup_range) hp
  rw [hlen, h1, h2, fillRowAddMatrix_apply hne hmat1 hmat2]
  ring

end Tree

/-! ## The lengths are right -/

/-- `addRows` gives the symmetric difference, `weightSum` its size, and along a spanning
tree the lengths found beforehand are those of the sums at the moment they are taken. -/
theorem rowSums_exact :
    (∀ (rows : ℕ → Option (List ℕ)) (i1 i2 : ℕ) (row1 row2 : List ℕ) (len0 : ℤ),
      rows i1 = some row1 → rows i2 = some row2 → row1.Pairwise (· < ·) → row2.Pairwise (· < ·) →
      len0 = -1 ∨ len0 = (symmDiff row1.toFinset row2.toFinset).card →
      ∃ row, addRowsTmp row1 row2 len0 = some row ∧
        addRows rows i1 i2 len0 = some (update rows i1 (some row)) ∧
        row.Pairwise (· < ·) ∧ row.toFinset = symmDiff row1.toFinset row2.toFinset) ∧
    (∀ (mat : FilterMatrix) (i1 i2 : ℕ), (mat.row i1).Pairwise (· < ·) →
      (mat.row i2).Pairwise (· < ·) → weightSum mat i1 i2
        = (symmDiff (mat.row i1).toFinset (mat.row i2).toFinset).card
          + min (mat.wburied i1 + mat.wburied i2) mat.nburied) ∧
    ∀ (mat : FilterMatrix) (m : ℕ) (ind : List ℕ) (father : ℕ → Option ℕ) (sons : ℕ → List ℕ)
      (F : Forest ℕ), F.Of sons (sons 0) → (0 :: F.labels).Perm (range m) → ind.Nodup →
      ind.length = m → (∀ i ∈ ind, ∃ row, mat.rows i = some row ∧ row.Pairwise (· < ·)) →
      (∀ call, TreeCall mat m ind (fillRowAddMatrix mat (rowAt ind)) father sons call →
        ∃ row1 row2 row, call.mat.rows call.i1 = some row1 ∧ call.mat.rows call.i2 = some row2 ∧
          call.len = (symmDiff row1.toFinset row2.toFinset).card ∧
          addRowsTmp row1 row2 call.len = some row) ∧
      ∀ dropped, Inv dropped mat → F ≠ .nil →
        addFatherToSons mat m ind (fillRowAddMatrix mat (rowAt ind)) father sons ≠ none := by
  refine ⟨fun rows i1 i2 row1 row2 len0 h1 h2 hinc1 hinc2 hlen => ?_,
    fun mat i1 i2 hinc1 hinc2 => ?_,
    fun mat m ind father sons F hof hperm hnodup hlength hrows => ⟨fun call hcall => ?_,
      fun dropped hinv hF => ?_⟩⟩
  · rw [← length_xorMerge hinc1 hinc2] at hlen
    have htmp : addRowsTmp row1 row2 len0 = some (xorMerge row1 row2) := by
      rw [addRowsTmp_eq, if_neg (by omega)]
    refine ⟨_, htmp, ?_, pairwise_xorMerge hinc1 hinc2, toFinset_xorMerge hinc1 hinc2⟩
    rw [addRows_eq, h1, h2]
    simp only [some_bind, htmp]
    rfl
  · rw [weightSum, sumLength_eq, ← length_xorMerge hinc1 hinc2, add_comm]
    push_cast
    rfl
  · obtain ⟨row1, row2, h1, h2, hinc1, hinc2, hlen⟩ :=
      hcall.len_eq hof hperm hnodup hlength hrows
    refine ⟨row1, row2, xorMerge row1 row2, h1, h2, by rw [hlen, length_xorMerge hinc1 hinc2], ?_⟩
    rw [addRowsTmp_eq, if_neg fun hne => hne.2 hlen]
  · obtain ⟨hmax, history, mat', hrun, -⟩ := @addFatherToSons_spec _ _ _ father _ _ _ hinv hof hperm
      hnodup hlength (fun i hi => by
        obtain ⟨row, hrow, -⟩ := hrows i hi
        exact hrow ▸ some_ne_none row) hF
    rw [hrun]
    exact some_ne_none _

/-- Three rows. -/
def threeRows : FilterMatrix where
  nrows := 3
  ncols := 5
  remNrows := 3
  remNcols := 5
  rows := fun i => [[1, 3], [2, 3, 4], [1, 2]][i]?
  wt := fun _ => -1
  wburied := fun _ => 3
  nburied := 5
  weight := 16
  cwmax := 0
  rwmax := 10
  keep := 0
  R := fun _ => none
  heap := { cells := fun _ => none, fresh := 0 }
  S := fun _ => 0
  A := fun _ => none

/-- Along a path the row 1 is added to row 2, and then the row 0 to row 1. -/
theorem rowSums_exact_two :
    ∃ call, TreeCall threeRows 3 [0, 1, 2] (fillRowAddMatrix threeRows (rowAt [0, 1, 2]))
        (fun v => some (v - 1)) (fun v => if v < 2 then [v + 1] else []) call ∧
      call.i1 = 1 ∧ call.i2 = 0 ∧ call.mat.rows 2 = some [1, 3, 4] ∧
      ∃ row1 row2 row, call.mat.rows call.i1 = some row1 ∧ call.mat.rows call.i2 = some row2 ∧
        call.len = (symmDiff row1.toFinset row2.toFinset).card ∧
        addRowsTmp row1 row2 call.len = some row := by
  have hsum : (addFatherToSonsRec [0, 1, 2] (fillRowAddMatrix threeRows (rowAt [0, 1, 2]))
      (fun v => some (v - 1)) (fun v => if v < 2 then [v + 1] else []) 2
      (update (fun _ => []) 0 [0]) threeRows 1 1).map (fun r => r.2.2.rows 2)
        = some (some [1, 3, 4]) := by decide +kernel
  obtain ⟨⟨i1, history, mat⟩, hrec, hrow⟩ := Option.map_eq_some_iff.mp hsum
  have hcall : TreeCall threeRows 3 [0, 1, 2] (fillRowAddMatrix threeRows (rowAt [0, 1, 2]))
      (fun v => some (v - 1)) (fun v => if v < 2 then [v + 1] else []) _ := .here hrec
  refine ⟨_, hcall, rfl, rfl, hrow, ?_⟩
  have hrows : ∀ i ∈ [0, 1, 2], ∃ row, threeRows.rows i = some row ∧ row.Pairwise (· < ·) :=
    List.forall_mem_cons.mpr ⟨⟨[1, 3], rfl, by decide⟩, List.forall_mem_cons.mpr
      ⟨⟨[2, 3, 4], rfl, by decide⟩, List.forall_mem_singleton.mpr ⟨[1, 2], rfl, by decide⟩⟩⟩
  exact (rowSums_exact.2.2 threeRows 3 [0, 1, 2] _ (fun v => if v < 2 then [v + 1] else [])
    (.node 1 (.node 2 .nil .nil) .nil) ⟨[], rfl, ⟨[], rfl, rfl, rfl⟩, rfl⟩ (List.Perm.refl _)
    (by decide) rfl hrows).1 _ hcall

end CadoNfs.Merge
