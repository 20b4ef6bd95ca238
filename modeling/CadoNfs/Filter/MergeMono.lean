import CadoNfs.Filter.MergeRows
import CadoNfs.Filter.Mst

/-!
# Merges

The rows of a column are replaced by sums, so that one of them, the pivot, is the only one left
with the column.  It is destroyed, and the column is removed.

Main results:

- Theorem `addFatherToSons_spec`: the sums along a spanning tree, and their history.
- Theorem `mergeForColumn_spec`: a merge keeps the invariant, and what it reports is what it
  does.
-/

namespace CadoNfs.Merge

open Function (update update_of_ne update_self)
open SortedXor
open List (foldlM_cons length_append length_cons map_cons map_map map_reverse mem_append mem_cons
  mem_cons_self nodup_cons range)
open Option (map₂ ne_none_iff_exists')
open Forest (entry labels labels_map mem_of_mem_additions pairs roots)

/-! ## The code -/

/-- Row `k` of the column. -/
def rowAt (ind : List ℕ) (k : ℕ) : ℕ :=
  ind.getD k 0

/-- `findBestIndex`; no index is -1. -/
def findBestIndex (mat : FilterMatrix) (m : ℕ) (ind : List ℕ) : Option ℕ :=
  if m = 2 then some 0
  else
    let A := fillRowAddMatrix mat (rowAt ind)
    ((range m).foldl (fun (best : Option ℕ × ℤ) i =>
      let w := (range m).foldl (fun w j => w + A i j) 0
      if best.1 = none ∨ w < best.2 then (some i, w) else best) (none, 0)).1

variable (rep : Report)

/-- `tryAllCombinations`. -/
def tryAllCombinations (mat : FilterMatrix) (m : ℕ) (ind : List ℕ) :
    Option (Report × FilterMatrix) := do
  let i ← findBestIndex mat m ind
  let pivot ← ind[i]?
  let mat ← ind.zipIdx.foldlM (fun mat row =>
    if row.2 ≠ i then addRowsAndUpdate mat row.1 pivot (-1) else some mat) mat
  let ind := if 0 < i then pivot :: ind.eraseIdx i else ind
  let rep := reportn rep (ind.map Nat.cast)
  let i0 ← ind.head?
  let mat ← removeRowAndUpdate mat i0
  return (rep, destroyRow mat i0)

/-- `history`, by levels. -/
abbrev History := ℕ → List ℤ

/-- The loop of `addFatherToSonsRec` at one son of `u`, where `rec` is the
recursive call. -/
def addToSon (ind : List ℕ) (A : ℕ → ℕ → ℤ)
    (rec : History → FilterMatrix → ℕ → ℕ → Option (Option ℕ × History × FilterMatrix))
    (u level0 : ℕ) (state : ℕ × History × FilterMatrix) (son : ℕ) :
    Option (ℕ × History × FilterMatrix) := do
  let (level, history, mat) := state
  let (i1, history, mat) ← rec history mat son (level + 1)
  let level := i1.getD level
  let i1 := rowAt ind son
  let i2 := rowAt ind u
  let len := min (mat.wburied i1 + mat.wburied i2) mat.nburied
  let mat ← addRowsAndUpdate mat i1 i2 (A son u - len)
  return (level, update history level0 (history level0 ++ [(i1 : ℤ)]), mat)

/-- `addFatherToSonsRec`, for a tree of height at most `fuel`; no level is -1. -/
def addFatherToSonsRec (ind : List ℕ) (A : ℕ → ℕ → ℤ) (father : ℕ → Option ℕ)
    (sons : ℕ → List ℕ) :
    ℕ → History → FilterMatrix → ℕ → ℕ → Option (Option ℕ × History × FilterMatrix)
  | 0, _, _, _, _ => none
  | fuel + 1, history, mat, u, level0 =>
    if sons u = [] then some (none, history, mat)
    else do
      let i2 : ℤ := rowAt ind u
      let first := if father u = some u then i2 else -(i2 + 1)
      let (level, history, mat) ← (sons u).foldlM
        (addToSon ind A (addFatherToSonsRec ind A father sons fuel) u level0)
        (level0, update history level0 [first], mat)
      return (some level, history, mat)

/-- `addFatherToSons`. -/
def addFatherToSons (mat : FilterMatrix) (m : ℕ) (ind : List ℕ) (A : ℕ → ℕ → ℤ)
    (father : ℕ → Option ℕ) (sons : ℕ → List ℕ) :
    Option (Option ℕ × History × FilterMatrix) :=
  addFatherToSonsRec ind A father sons m (fun _ => []) mat 0 0

/-- `MSTWithA`. -/
def MSTWithA (mat : FilterMatrix) (m : ℕ) (ind : List ℕ) (A : ℕ → ℕ → ℤ) :
    Option (Report × FilterMatrix) := do
  let st ← minimalSpanningTreeWithPrim A m
  let (hmax, history, mat) ← addFatherToSons mat m ind A st.father st.sons
  let levels := match hmax with
    | none => []
    | some hmax => (range (hmax + 1)).reverse
  let rep := levels.foldl (fun rep i => reportn rep (history i)) rep
  let i0 ← ind.head?
  let mat ← removeRowAndUpdate mat i0
  return (rep, destroyRow mat i0)

/-- `useMinimalSpanningTree`. -/
def useMinimalSpanningTree (mat : FilterMatrix) (m : ℕ) (ind : List ℕ) :
    Option (Report × FilterMatrix) :=
  MSTWithA rep mat m ind (fillRowAddMatrix mat (rowAt ind))

/-- `findOptimalCombination`. -/
def findOptimalCombination (mat : FilterMatrix) (m : ℕ) (ind : List ℕ)
    (useMST : Bool) : Option (Report × FilterMatrix) :=
  if m ≤ 2 ∨ ¬ useMST then tryAllCombinations rep mat m ind
  else useMinimalSpanningTree rep mat m ind

/-- `mergeForColumn`.  There must be `m` rows. -/
def mergeForColumn (mat : FilterMatrix) (m j : ℕ) (useMST : Bool) :
    Option (Report × FilterMatrix) := do
  if mergeLevelMax < m then none
  let entries ← mat.R j
  let ind := (liveRows entries).take m
  if ind.length ≠ m then none
  let (rep, mat) ← findOptimalCombination rep mat m ind useMST
  let mat ← removeColumnAndUpdate
    { mat with remNrows := mat.remNrows - 1, remNcols := mat.remNcols - 1 } j
  return (rep, mat)

/-! ## Additions -/

/-- The additions `L` were made, in this order. -/
structure Added (dropped : ℤ) (mat : FilterMatrix) (L : List (ℕ × ℕ)) (mat' : FilterMatrix) :
    Prop where
  inv : Inv dropped mat'
  kind_eq : mat'.kind = mat.kind
  rows_eq : mat'.rows = addAll (map₂ xorMerge) L mat.rows
  onlyColumns : OnlyColumns { mat with rows := mat'.rows, weight := mat'.weight } mat'

section Added

variable {dropped : ℤ} {mat mat₁ mat₂ : FilterMatrix} {L L' : List (ℕ × ℕ)} {i1 i2 : ℕ}
  {row1 row2 : List ℕ} {len : ℤ}

theorem Added.refl (h : Inv dropped mat) : Added dropped mat [] mat :=
  ⟨h, rfl, rfl, rfl⟩

theorem Added.append (h : Added dropped mat L mat₁) (h' : Added dropped mat₁ L' mat₂) :
    Added dropped mat (L ++ L') mat₂ := by
  refine ⟨h'.inv, h'.kind_eq.trans h.kind_eq, ?_, ?_⟩
  · rw [h'.rows_eq, h.rows_eq, addAll_append]
  · have honly := h.onlyColumns
    have honly' := h'.onlyColumns
    rw [OnlyColumns] at honly honly' ⊢
    rw [honly', honly]

theorem added_addRowsAndUpdate (h : Inv dropped mat) (h1 : mat.rows i1 = some row1)
    (h2 : mat.rows i2 = some row2) (hlen : len = -1 ∨ len = (xorMerge row1 row2).length) :
    ∃ mat', addRowsAndUpdate mat i1 i2 len = some mat' ∧ Added dropped mat [(i1, i2)] mat' := by
  obtain ⟨mat', hrun, hinv, hkind, honly⟩ := addRowsAndUpdate_spec h h1 h2 hlen
  have hrows : mat'.rows = update mat.rows i1 (some (xorMerge row1 row2)) := by rw [honly]
  refine ⟨mat', hrun, hinv, hkind, ?_, hrows ▸ honly⟩
  rw [hrows, addAll_cons, addAll_nil, h1, h2]
  rfl

theorem Added.congr (h : Added dropped mat L mat₁) (hL : Independent L) (hL' : Independent L')
    (hmem : ∀ p, p ∈ L ↔ p ∈ L') : Added dropped mat L' mat₁ :=
  ⟨h.inv, h.kind_eq, h.rows_eq.trans (addAll_congr hL hL' hmem), h.onlyColumns⟩

theorem Added.rows_of_forall_ne (h : Added dropped mat L mat₁) {i : ℕ} (hi : ∀ p ∈ L, p.1 ≠ i) :
    mat₁.rows i = mat.rows i := by
  rw [h.rows_eq, addAll_of_forall_ne hi]

end Added

/-- What a combination of the rows `ind` adds: for each entry of `kept` its row to the
others, and last the pivot. -/
structure Combined (ind : List ℕ) (pivot : ℕ) (kept : List (ℕ × List ℕ)) (targets : List ℕ) :
    Prop where
  pivot_mem : pivot ∈ ind
  independent : Independent (pairs (kept ++ [(pivot, targets)]))
  target_iff : ∀ t, (∃ s, (t, s) ∈ pairs (kept ++ [(pivot, targets)])) ↔ t ∈ ind ∧ t ≠ pivot
  source_mem : ∀ t s, (t, s) ∈ pairs (kept ++ [(pivot, targets)]) → s ∈ ind

/-- The lines of the history.  The sign says which rows are kept. -/
def historyLines (pivot : ℕ) (kept : List (ℕ × List ℕ)) (targets : List ℕ) : List (List ℤ) :=
  kept.map (fun e => -((e.1 : ℤ) + 1) :: e.2.map Nat.cast) ++ [(pivot : ℤ) :: targets.map Nat.cast]

/-! ## One pivot for all rows -/

section Pivot

variable {dropped : ℤ} {mat mat₁ : FilterMatrix} {ind : List ℕ} {m i n pivot : ℕ}

theorem findBestIndex_spec (mat : FilterMatrix) (ind : List ℕ) (hm : 0 < m) :
    ∃ i < m, findBestIndex mat m ind = some i := by
  by_cases htwo : m = 2
  · exact ⟨0, hm, by rw [findBestIndex, if_pos htwo]⟩
  · rw [findBestIndex, if_neg htwo]
    have hfold : ∀ (A : ℕ → ℕ → ℤ) (L : List ℕ) (best : Option ℕ × ℤ), (∀ i ∈ L, i < m) →
        (best.1 = none → L ≠ []) → (∀ i, best.1 = some i → i < m) →
        ∃ i < m, (L.foldl (fun (best : Option ℕ × ℤ) i =>
          let w := (range m).foldl (fun w j => w + A i j) 0
          if best.1 = none ∨ w < best.2 then (some i, w) else best) best).1 = some i := by
      intro A L
      induction L with
      | nil =>
        intro best _ hnone hsome
        cases hbest : best.1 with
        | none => exact absurd rfl (hnone hbest)
        | some i => exact ⟨i, hsome i hbest, hbest⟩
      | cons a L ih =>
        intro best hL _ hsome
        obtain ⟨ha, hL⟩ := List.forall_mem_cons.mp hL
        rw [List.foldl_cons]
        simp only
        split_ifs with hbetter
        · refine ih _ hL (by simp) fun i hi => ?_
          obtain rfl := Option.some.inj hi
          exact ha
        · exact ih best hL (fun hnone => absurd (Or.inl hnone) hbetter) hsome
    refine hfold _ _ _ (fun i hi => List.mem_range.mp hi) (fun _ => ?_) (by simp)
    rw [Ne, List.range_eq_nil]
    omega

variable (ind) in
theorem foldlM_zipIdx_skip {σ : Type} (f : σ → ℕ → Option σ) (st : σ) :
    (ind.zipIdx n).foldlM (fun st row => if row.2 ≠ n + i then f st row.1 else some st) st
      = (ind.eraseIdx i).foldlM f st := by
  -- past the position nothing is skipped
  have hall : ∀ (ind : List ℕ) (n k : ℕ) (st : σ), k < n → (ind.zipIdx n).foldlM
      (fun st row => if row.2 ≠ k then f st row.1 else some st) st = ind.foldlM f st := by
    intro ind
    induction ind with
    | nil => intro n k st _; rfl
    | cons a ind ih =>
      intro n k st hk
      rw [List.zipIdx_cons, foldlM_cons, foldlM_cons, if_pos (by simp only; omega)]
      exact bind_congr fun st' => ih (n + 1) k st' (by omega)
  induction ind generalizing n i st with
  | nil => simp
  | cons a ind ih =>
    rw [List.zipIdx_cons, foldlM_cons]
    cases i with
    | zero =>
      rw [if_neg (by simp), List.eraseIdx_cons_zero]
      exact hall ind (n + 1) n st (Nat.lt_succ_self n)
    | succ i =>
      rw [if_pos (by simp), List.eraseIdx_cons_succ, foldlM_cons]
      refine bind_congr fun st' => ?_
      rw [← ih st', show n + (i + 1) = n + 1 + i by omega]

theorem addPivot_spec {rest : List ℕ} (h : Inv dropped mat) (hnodup : (pivot :: rest).Nodup)
    (hrows : ∀ i ∈ pivot :: rest, mat.rows i ≠ none) :
    ∃ mat', rest.foldlM (fun mat row => addRowsAndUpdate mat row pivot (-1)) mat = some mat' ∧
      Added dropped mat (pairs [(pivot, rest)]) mat' := by
  induction rest generalizing mat with
  | nil => exact ⟨mat, rfl, Added.refl h⟩
  | cons a rest ih =>
    obtain ⟨row1, h1⟩ := ne_none_iff_exists'.mp (hrows a (by simp))
    obtain ⟨row2, h2⟩ := ne_none_iff_exists'.mp (hrows pivot (by simp))
    obtain ⟨mat₁, hrun₁, hadded₁⟩ := added_addRowsAndUpdate h h1 h2 (Or.inl rfl)
    simp only [nodup_cons, mem_cons, not_or] at hnodup
    obtain ⟨⟨hpa, hprest⟩, harest, hrest⟩ := hnodup
    have hrows₁ : ∀ i ∈ pivot :: rest, mat₁.rows i ≠ none := by
      intro i hi
      rw [hadded₁.rows_of_forall_ne]
      · rcases mem_cons.mp hi with rfl | hi
        · exact hrows i (by simp)
        · exact hrows i (by simp [hi])
      · rintro p hp rfl
        obtain rfl := List.mem_singleton.mp hp
        rcases mem_cons.mp hi with hi | hi
        · exact hpa hi.symm
        · exact harest hi
    obtain ⟨mat', hrun, hadded⟩ := ih hadded₁.inv (nodup_cons.mpr ⟨hprest, hrest⟩) hrows₁
    refine ⟨mat', by rw [foldlM_cons, hrun₁]; exact hrun, ?_⟩
    exact hadded₁.append hadded

theorem Added.removePivot {L : List (ℕ × ℕ)} (h : Added dropped mat L mat₁)
    (hrow : mat₁.rows pivot ≠ none) :
    ∃ mat', removeRowAndUpdate mat₁ pivot = some mat' ∧ Inv dropped (destroyRow mat' pivot) ∧
      (destroyRow mat' pivot).kind = mat.kind ∧
      (destroyRow mat' pivot).rows
        = update (addAll (map₂ xorMerge) L mat.rows) pivot none ∧
      OnlyColumns { mat with
        rows := (destroyRow mat' pivot).rows
        weight := (destroyRow mat' pivot).weight } (destroyRow mat' pivot) := by
  obtain ⟨row, hrow⟩ := ne_none_iff_exists'.mp hrow
  obtain ⟨mat', hrun, hinv, hkind, honly⟩ := removeRow_spec h.inv hrow
  refine ⟨mat', hrun, hinv, hkind.trans h.kind_eq, ?_, ?_⟩
  · rw [← h.rows_eq, destroyRow, honly]
  · have honly₁ := h.onlyColumns
    rw [OnlyColumns] at honly honly₁ ⊢
    rw [destroyRow, honly, honly₁]

end Pivot

/-! ## Along a spanning tree -/

/-- The matrix `A` has the lengths of the sums `L`. -/
def Fits (ind : List ℕ) (A : ℕ → ℕ → ℤ) (mat : FilterMatrix) (L : List (ℕ × ℕ)) : Prop :=
  ∀ p ∈ L, ∀ row1 row2, mat.rows (rowAt ind p.1) = some row1 →
    mat.rows (rowAt ind p.2) = some row2 →
    A p.1 p.2 - (min (mat.wburied (rowAt ind p.1) + mat.wburied (rowAt ind p.2)) mat.nburied : ℕ)
      = (xorMerge row1 row2).length

/-- What `addFatherToSonsRec` writes for a vertex and its sons. -/
def historyEntry (ind : List ℕ) (father : ℕ → Option ℕ) (e : ℕ × List ℕ) : List ℤ :=
  (if father e.1 = some e.1 then (rowAt ind e.1 : ℤ) else -((rowAt ind e.1 : ℤ) + 1))
    :: e.2.map fun t => (rowAt ind t : ℤ)

/-- The levels of the history from `level` on. -/
def Written (ind : List ℕ) (father : ℕ → Option ℕ) (history : History) (level : ℕ)
    (entries : List (ℕ × List ℕ)) : Prop :=
  ∀ k e, entries[k]? = some e → history (level + k) = historyEntry ind father e

section Tree

variable {dropped : ℤ} {mat mat' : FilterMatrix} {ind us : List ℕ} {A : ℕ → ℕ → ℤ}
  {father : ℕ → Option ℕ} {sons : ℕ → List ℕ} {F : Forest ℕ} {L L' : List (ℕ × ℕ)}
  {fuel u level0 level m : ℕ} {history history' : History} {entries entries' : List (ℕ × List ℕ)}

theorem Fits.mono (h : Fits ind A mat L) (hL : ∀ p ∈ L', p ∈ L) : Fits ind A mat L' :=
  fun p hp => h p (hL p hp)

theorem Fits.of_added {L₁ : List (ℕ × ℕ)} (h : Fits ind A mat L) (hadded : Added dropped mat L₁ mat')
    (hrows : ∀ p ∈ L, mat'.rows (rowAt ind p.1) = mat.rows (rowAt ind p.1) ∧
      mat'.rows (rowAt ind p.2) = mat.rows (rowAt ind p.2)) : Fits ind A mat' L := by
  intro p hp row1 row2 h1 h2
  obtain ⟨hp1, hp2⟩ := hrows p hp
  rw [hadded.onlyColumns]
  exact h p hp row1 row2 (hp1 ▸ h1) (hp2 ▸ h2)

theorem Written.append (h : Written ind father history level entries)
    (h' : Written ind father history (level + entries.length) entries') :
    Written ind father history level (entries ++ entries') := by
  intro k e hk
  by_cases hlt : k < entries.length
  · rw [List.getElem?_append_left hlt] at hk
    exact h k e hk
  · rw [List.getElem?_append_right (by omega)] at hk
    have hlevel := h' _ e hk
    rwa [show level + entries.length + (k - entries.length) = level + k by omega] at hlevel

theorem Written.congr (h : Written ind father history level entries)
    (hhistory : ∀ l, level ≤ l → l < level + entries.length → history' l = history l) :
    Written ind father history' level entries := by
  intro k e hk
  have hlt := (List.getElem?_eq_some_iff.mp hk).1
  rw [hhistory _ (by omega) (by omega)]
  exact h k e hk

/-- What is known after the sums of the sons of `u` and everything below them, which is
the forest `F`. -/
structure Summed (dropped : ℤ) (ind : List ℕ) (father : ℕ → Option ℕ) (F : Forest ℕ)
    (u level0 level : ℕ) (history : History) (mat : FilterMatrix) (history' : History)
    (mat' : FilterMatrix) : Prop where
  added : Added dropped mat ((F.map (rowAt ind)).additions (rowAt ind u)) mat'
  line : history' level0 = history level0 ++ F.roots.map fun t => (rowAt ind t : ℤ)
  other : ∀ l ≤ level, l ≠ level0 → history' l = history l
  written : Written ind father history' (level + 1) F.inner

/-- The recursion over the sons of a row writes one line for each father. -/
theorem addFatherToSonsRec_spec (h : Inv dropped mat) (hof : F.Of sons us) (hus : sons u = us)
    (hsons : ∀ history, ∃ history' mat', us.foldlM
        (addToSon ind A (addFatherToSonsRec ind A father sons fuel) u level0)
        (level0, history, mat) = some (level0 + F.inner.length, history', mat') ∧
      Summed dropped ind father F u level0 level0 history mat history' mat') :
    ∃ i1 history' mat', addFatherToSonsRec ind A father sons (fuel + 1) history mat u level0
        = some (i1, history', mat') ∧
      i1 = (if F.entry u ++ F.inner = [] then none
        else some (level0 + (F.entry u ++ F.inner).length - 1)) ∧
      Added dropped mat ((F.map (rowAt ind)).additions (rowAt ind u)) mat' ∧
      (∀ l < level0, history' l = history l) ∧
      Written ind father history' level0 (F.entry u ++ F.inner) := by
  have hroots := Forest.of_eq_roots hof
  cases F with
  | nil =>
    obtain rfl : us = [] := hof
    refine ⟨none, history, mat, by rw [addFatherToSonsRec, if_pos hus], rfl,
      Added.refl h, fun _ _ => rfl, fun k e hk => by simp [entry, Forest.inner] at hk⟩
  | node a kids rest =>
    have hne : sons u ≠ [] := by
      rw [hus, hroots]
      exact List.cons_ne_nil _ _
    obtain ⟨history', mat', hrun, hsummed⟩ := hsons (update history level0
      [if father u = some u then (rowAt ind u : ℤ) else -((rowAt ind u : ℤ) + 1)])
    refine ⟨some (level0 + (Forest.node a kids rest).inner.length), history', mat', ?_, ?_,
      hsummed.added, fun l hl => ?_, ?_⟩
    · rw [addFatherToSonsRec, if_neg hne, hus]
      simp only [hrun, some_bind]
      rfl
    · rw [if_neg (by simp [entry]), length_append, entry, List.length_singleton]
      congr 1
      omega
    · rw [hsummed.other l hl.le hl.ne, update_of_ne hl.ne]
    · refine Written.append (fun k e hk => ?_) hsummed.written
      obtain ⟨rfl, rfl⟩ : k = 0 ∧ e = (u, (Forest.node a kids rest).roots) := by
        cases k with
        | zero => exact ⟨rfl, (Option.some.inj hk).symm⟩
        | succ k => simp [entry] at hk
      rw [add_zero, hsummed.line, update_self]
      rfl

/-- The sons of a row and all rows below them get the sums that the history writes down. -/
theorem addToSon_spec (h : Inv dropped mat) (hof : F.Of sons us) (hfuel : F.labels.length ≤ fuel)
    (hnodup : ((u :: F.labels).map (rowAt ind)).Nodup)
    (hrows : ∀ x ∈ u :: F.labels, mat.rows (rowAt ind x) ≠ none)
    (hfits : Fits ind A mat (F.additions u)) (hlevel : level0 ≤ level) :
    ∃ history' mat', us.foldlM
        (addToSon ind A (addFatherToSonsRec ind A father sons fuel) u level0)
        (level, history, mat) = some (level + F.inner.length, history', mat') ∧
      Summed dropped ind father F u level0 level history mat history' mat' := by
  induction F generalizing us fuel u level0 level history mat with
  | nil =>
    obtain rfl : us = [] := hof
    exact ⟨history, mat, rfl, Added.refl h, by simp [roots], fun _ _ _ => rfl,
      fun k e hk => by simp [Forest.inner] at hk⟩
  | node a kids rest ihkids ihrest =>
    obtain ⟨us', rfl, hkids, hrest⟩ := hof
    simp only [labels, length_cons, length_append] at hfuel
    obtain ⟨fuel, rfl⟩ : ∃ fuel', fuel = fuel' + 1 := ⟨fuel - 1, by omega⟩
    simp only [labels, map_cons, List.map_append, nodup_cons, mem_cons,
      mem_append, not_or, List.nodup_append] at hnodup
    obtain ⟨⟨hua, hukids, hurest⟩, ⟨hakids, harest⟩, hnkids, hnrest, hdisj⟩ := hnodup
    -- everything below the first son
    have hkidsfuel : kids.labels.length ≤ fuel := by omega
    have hrowskids : ∀ x ∈ a :: kids.labels, mat.rows (rowAt ind x) ≠ none := by
      intro x hx
      refine hrows x ?_
      simp only [labels, mem_cons, mem_append] at hx ⊢
      tauto
    have hsons : ∀ history, ∃ history' mat', (sons a).foldlM
          (addToSon ind A (addFatherToSonsRec ind A father sons fuel) a (level + 1))
          (level + 1, history, mat) = some (level + 1 + kids.inner.length, history', mat') ∧
        Summed dropped ind father kids a (level + 1) (level + 1) history mat history' mat' :=
      fun history => ihkids h hkids hkidsfuel (nodup_cons.mpr ⟨hakids, hnkids⟩) hrowskids
        (hfits.mono fun p hp => List.mem_append_left _ hp) le_rfl
    obtain ⟨i1, history₁, mat₁, hrun₁, hlevel₁, hadded₁, hother₁, hwritten₁⟩ :
        ∃ i1 history' mat', addFatherToSonsRec ind A father sons (fuel + 1) history mat a (level + 1)
            = some (i1, history', mat') ∧ _ :=
      addFatherToSonsRec_spec h hkids rfl hsons
    have hlevel₁ : i1.getD level = level + (kids.entry a ++ kids.inner).length := by
      rw [hlevel₁]
      split_ifs with hnil
      · rw [hnil]
        rfl
      · rw [Option.getD_some]
        omega
    have hrows₁ : ∀ i, i ∉ kids.labels.map (rowAt ind) → mat₁.rows i = mat.rows i := by
      intro i hi
      refine hadded₁.rows_of_forall_ne ?_
      rintro ⟨t, s⟩ hp rfl
      have ht := (mem_of_mem_additions hp).1
      rw [labels_map] at ht
      exact hi ht
    -- the son itself
    obtain ⟨row1, h1⟩ := ne_none_iff_exists'.mp (hrows a (by simp [labels]))
    obtain ⟨row2, h2⟩ := ne_none_iff_exists'.mp (hrows u (by simp))
    have hlen := hfits (a, u) (by simp [Forest.additions]) row1 row2 h1 h2
    obtain ⟨mat₂, hrun₂, hadded₂⟩ : ∃ mat₂, addRowsAndUpdate mat₁ (rowAt ind a) (rowAt ind u)
        (A a u - (min (mat₁.wburied (rowAt ind a) + mat₁.wburied (rowAt ind u))
          mat₁.nburied : ℕ)) = some mat₂ ∧
        Added dropped mat₁ [(rowAt ind a, rowAt ind u)] mat₂ :=
      added_addRowsAndUpdate hadded₁.inv ((hrows₁ _ hakids).trans h1) ((hrows₁ _ hukids).trans h2)
        (Or.inr (by rw [hadded₁.onlyColumns]; exact hlen))
    have hadded₁₂ := hadded₁.append hadded₂
    have hrows₂ : ∀ x ∈ u :: rest.labels, mat₂.rows (rowAt ind x) = mat.rows (rowAt ind x) := by
      intro x hx
      rw [hadded₂.rows_of_forall_ne, hrows₁]
      · rcases mem_cons.mp hx with rfl | hx
        · exact hukids
        · exact fun hmem => hdisj _ hmem _ (List.mem_map_of_mem hx) rfl
      · rintro p hp heq
        obtain rfl := List.mem_singleton.mp hp
        have heq : rowAt ind a = rowAt ind x := heq
        rcases mem_cons.mp hx with rfl | hx
        · exact hua heq.symm
        · exact harest (heq ▸ List.mem_map_of_mem hx)
    -- the other sons
    have hrestfuel : rest.labels.length ≤ fuel + 1 := by omega
    have hrowsrest : ∀ x ∈ u :: rest.labels, mat₂.rows (rowAt ind x) ≠ none := by
      intro x hx
      rw [hrows₂ x hx]
      refine hrows x ?_
      simp only [labels, mem_cons, mem_append] at hx ⊢
      tauto
    have hfitsrest : Fits ind A mat₂ (rest.additions u) := by
      refine Fits.of_added (hfits.mono fun p hp => List.mem_append_right _
        (List.mem_cons_of_mem _ hp)) hadded₁₂ fun p hp => ?_
      obtain ⟨ht, hs⟩ := mem_of_mem_additions hp
      exact ⟨hrows₂ _ (List.mem_cons_of_mem _ ht), hrows₂ _ hs⟩
    obtain ⟨history', mat', hrun, hsummed⟩ : ∃ history' mat', us'.foldlM
          (addToSon ind A (addFatherToSonsRec ind A father sons (fuel + 1)) u level0)
          (level + (kids.entry a ++ kids.inner).length,
            update history₁ level0 (history₁ level0 ++ [(rowAt ind a : ℤ)]), mat₂)
            = some (level + (kids.entry a ++ kids.inner).length + rest.inner.length, history',
              mat') ∧ _ :=
      ihrest hadded₂.inv hrest hrestfuel (nodup_cons.mpr ⟨hurest, hnrest⟩) hrowsrest hfitsrest
        (by omega)
    have hstep : addToSon ind A (addFatherToSonsRec ind A father sons (fuel + 1)) u level0
        (level, history, mat) a = some (level + (kids.entry a ++ kids.inner).length,
          update history₁ level0 (history₁ level0 ++ [(rowAt ind a : ℤ)]), mat₂) := by
      simp only [addToSon, hrun₁, some_bind, hrun₂, hlevel₁]
      rfl
    refine ⟨history', mat', ?_, ?_, ?_, fun l hl hne => ?_, ?_⟩
    · rw [foldlM_cons, hstep, some_bind, hrun]
      simp [Forest.inner, add_assoc]
    · have hadded := hadded₁₂.append hsummed.added
      rw [List.append_assoc] at hadded
      exact hadded
    · rw [hsummed.line, update_self, hother₁ level0 (by omega)]
      simp [roots]
    · rw [hsummed.other l (by omega) hne, update_of_ne hne, hother₁ l (by omega)]
    · refine Written.append (hwritten₁.congr fun l hl hl' => ?_) ?_
      · have hne : l ≠ level0 := by omega
        rw [hsummed.other l (by omega) hne, update_of_ne hne]
      · have hwritten := hsummed.written
        rwa [add_right_comm] at hwritten

theorem map_rowAt_range (hlength : ind.length = m) : (range m).map (rowAt ind) = ind := by
  refine List.ext_getElem (by simp [hlength]) fun k hk hk' => ?_
  simp [rowAt, hk']

/-- `addFatherToSons` takes the sums along the tree, and writes a line for each vertex with
sons. -/
theorem addFatherToSons_spec (h : Inv dropped mat) (hof : F.Of sons (sons 0))
    (hperm : (0 :: F.labels).Perm (range m)) (hnodup : ind.Nodup) (hlength : ind.length = m)
    (hrows : ∀ i ∈ ind, mat.rows i ≠ none) (hF : F ≠ .nil) :
    ∃ hmax history mat', addFatherToSons mat m ind (fillRowAddMatrix mat (rowAt ind)) father sons
        = some (some hmax, history, mat') ∧ hmax + 1 = (F.entry 0 ++ F.inner).length ∧
      Added dropped mat ((F.map (rowAt ind)).additions (rowAt ind 0)) mat' ∧
      Written ind father history 0 (F.entry 0 ++ F.inner) := by
  have hpermind : ((0 :: F.labels).map (rowAt ind)).Perm ind := by
    have hmap := hperm.map (rowAt ind)
    rwa [map_rowAt_range hlength] at hmap
  have hnodupF : (0 :: F.labels).Nodup := hperm.nodup_iff.mpr List.nodup_range
  have hcount := hperm.length_eq
  rw [length_cons, List.length_range] at hcount
  obtain ⟨fuel, rfl⟩ : ∃ fuel, m = fuel + 1 := ⟨m - 1, by omega⟩
  have hfuel : F.labels.length ≤ fuel := by omega
  have hfits : Fits ind (fillRowAddMatrix mat (rowAt ind)) mat (F.additions 0) := by
    rintro ⟨t, s⟩ hp row1 row2 h1 h2
    rw [fillRowAddMatrix_apply (Forest.ne_of_mem_additions hnodupF hp) h1 h2]
    ring
  obtain ⟨i1, history, mat', hrun, hlevel, hadded, -, hwritten⟩ :
      ∃ i1 history mat', addFatherToSonsRec ind (fillRowAddMatrix mat (rowAt ind)) father sons
          (fuel + 1) (fun _ => []) mat 0 0 = some (i1, history, mat') ∧ _ :=
    addFatherToSonsRec_spec h hof rfl fun history =>
      addToSon_spec h hof hfuel (hpermind.nodup_iff.mpr hnodup)
        (fun x hx => hrows _ (hpermind.mem_iff.mp (List.mem_map_of_mem hx))) hfits le_rfl
  have hne : F.entry 0 ++ F.inner ≠ [] := by
    cases F with
    | nil => exact absurd rfl hF
    | node a kids rest => simp [entry]
  rw [if_neg hne] at hlevel
  subst hlevel
  refine ⟨_, history, mat', hrun, ?_, hadded, hwritten⟩
  have hpos := List.length_pos_of_ne_nil hne
  omega

end Tree

/-! ## Merges -/

section Merge

variable {dropped : ℤ} {mat : FilterMatrix} {ind : List ℕ} {m j : ℕ}

theorem foldl_reportn (history : History) (levels : List ℕ) (rep : Report) :
    levels.foldl (fun rep i => reportn rep (history i)) rep
      = rep ++ levels.map fun i => reportLine (history i) := by
  induction levels generalizing rep with
  | nil => simp
  | cons l levels ih =>
    rw [List.foldl_cons, ih, reportn, List.append_assoc, List.singleton_append, map_cons]

/-- The lines of the history come from the edges of the tree. -/
theorem map_history_reverse {F : Forest ℕ} {father : ℕ → Option ℕ} {history : History} {hmax : ℕ}
    (hF : F ≠ .nil) (hzero : 0 ∉ F.labels) (hfather : ∀ v, father v = some v ↔ v = 0)
    (hlength : hmax + 1 = (F.entry 0 ++ F.inner).length)
    (h : Written ind father history 0 (F.entry 0 ++ F.inner)) :
    (range (hmax + 1)).reverse.map history
      = historyLines (rowAt ind 0) (F.map (rowAt ind)).inner.reverse (F.map (rowAt ind)).roots := by
  have hall : (range (hmax + 1)).map history
      = (F.entry 0 ++ F.inner).map (historyEntry ind father) := by
    refine List.ext_getElem (by simpa using hlength) fun k hk hk' => ?_
    rw [List.length_map] at hk'
    have hline := h k _ (List.getElem?_eq_getElem hk')
    rw [zero_add] at hline
    rw [List.getElem_map, List.getElem_map, List.getElem_range]
    exact hline
  have hentry : F.entry 0 = [(0, F.roots)] := by
    cases F with
    | nil => exact absurd rfl hF
    | node a kids rest => rfl
  rw [map_reverse, hall, ← map_reverse, List.reverse_append, hentry, List.map_append,
    historyLines, Forest.inner_map, Forest.roots_map, ← map_reverse, map_map]
  congr 1
  · refine List.map_congr_left fun e he => ?_
    have hne : father e.1 ≠ some e.1 := by
      rw [Ne, hfather]
      intro heq
      exact hzero (heq ▸ Forest.fst_mem_of_mem_inner (List.mem_reverse.mp he))
    simp only [historyEntry, if_neg hne, Function.comp_apply, Prod.map_fst, Prod.map_snd, map_map]
    rfl
  · simp only [List.reverse_singleton, List.map_singleton, historyEntry,
      if_pos ((hfather 0).mpr rfl), map_map]
    rfl

/-- The rows `ind` are combined, reported and left without their pivot. -/
abbrev Combines (dropped : ℤ) (rep : Report) (mat : FilterMatrix) (ind : List ℕ)
    (r : Option (Report × FilterMatrix)) : Prop :=
  ∃ pivot kept targets mat₁ mat',
    r = some (rep ++ (historyLines pivot kept targets).map reportLine, destroyRow mat' pivot) ∧
    Combined ind pivot kept targets ∧
    Added dropped mat (pairs (kept ++ [(pivot, targets)])) mat₁ ∧
    removeRowAndUpdate mat₁ pivot = some mat'

/-- A merge along a minimal spanning tree keeps the matrix consistent. -/
theorem useMinimalSpanningTree_spec (rep : Report) (h : Inv dropped mat) (hm : 2 ≤ m)
    (hnodup : ind.Nodup) (hlength : ind.length = m) (hrows : ∀ i ∈ ind, mat.rows i ≠ none) :
    Combines dropped rep mat ind (useMinimalSpanningTree rep mat m ind) := by
  obtain ⟨st, F, hprim, hof, hperm, hfather⟩ :=
    minimalSpanningTreeWithPrim_spec (fillRowAddMatrix mat (rowAt ind)) (show 0 < m by omega)
  have hcount := hperm.length_eq
  rw [length_cons, List.length_range] at hcount
  have hF : F ≠ .nil := by
    rintro rfl
    simp only [labels, List.length_nil] at hcount
    omega
  obtain ⟨hmax, history, mat₁, hrun, hhmax, hadded, hwritten⟩ :
      ∃ hmax history mat₁, addFatherToSons mat m ind (fillRowAddMatrix mat (rowAt ind)) st.father
          st.sons = some (some hmax, history, mat₁) ∧ _ :=
    addFatherToSons_spec h hof hperm hnodup hlength hrows hF
  have hpermind : (rowAt ind 0 :: (F.map (rowAt ind)).labels).Perm ind := by
    have hmap := hperm.map (rowAt ind)
    rw [map_rowAt_range hlength] at hmap
    rwa [labels_map]
  have hentry : (F.map (rowAt ind)).entry (rowAt ind 0)
      = [(rowAt ind 0, (F.map (rowAt ind)).roots)] := by
    cases F with
    | nil => exact absurd rfl hF
    | node a kids rest => rfl
  set G := F.map (rowAt ind) with hG
  set pivot := rowAt ind 0 with hpivot
  have hnodupG : (pivot :: G.labels).Nodup := hpermind.nodup_iff.mpr hnodup
  have hkept : (G.entry pivot ++ G.inner).reverse = G.inner.reverse ++ [(pivot, G.roots)] := by
    rw [List.reverse_append, hentry, List.reverse_singleton]
  have hindep := Forest.independent_entries hnodupG
  have hmem : ∀ t s, (t, s) ∈ G.additions pivot
      ↔ (t, s) ∈ pairs (G.inner.reverse ++ [(pivot, G.roots)]) := by
    intro t s
    rw [← hkept]
    exact Forest.mem_additions_iff_reverse
  rw [hkept] at hindep
  have hadded' := hadded.congr (Forest.independent_additions hnodupG) hindep
    fun p => hmem p.1 p.2
  have hpivotind : pivot ∈ ind := hpermind.mem_iff.mp mem_cons_self
  have hpivotG := (nodup_cons.mp hnodupG).1
  have hcombined : Combined ind pivot G.inner.reverse G.roots := by
    refine ⟨hpivotind, hindep, fun t => ?_, fun t s hts => ?_⟩
    · rw [← hpermind.mem_iff, mem_cons]
      constructor
      · rintro ⟨s, hs⟩
        have ht := (mem_of_mem_additions ((hmem t s).mpr hs)).1
        exact ⟨Or.inr ht, fun heq => hpivotG (heq ▸ ht)⟩
      · rintro ⟨ht, hne⟩
        obtain ⟨s, hs⟩ := Forest.exists_mem_additions (u := pivot) (ht.resolve_left hne)
        exact ⟨s, (hmem t s).mp hs⟩
    · exact hpermind.mem_iff.mp (mem_of_mem_additions ((hmem t s).mpr hts)).2
  -- the pivot is destroyed
  have hpivotrow : mat₁.rows pivot ≠ none := by
    rw [hadded.rows_of_forall_ne]
    · exact hrows pivot hpivotind
    · rintro ⟨t, s⟩ hp heq
      have heq : t = pivot := heq
      exact hpivotG (heq ▸ (mem_of_mem_additions hp).1)
  obtain ⟨mat', hremove, -⟩ := hadded.removePivot hpivotrow
  have hhead : ind.head? = some pivot := by
    cases ind with
    | nil => simp at hpivotind
    | cons i ind => rfl
  have hlines := map_history_reverse hF (nodup_cons.mp (hperm.nodup_iff.mpr List.nodup_range)).1
    hfather hhmax hwritten
  refine ⟨pivot, G.inner.reverse, G.roots, mat₁, mat', ?_, hcombined, hadded', hremove⟩
  simp only [useMinimalSpanningTree, MSTWithA, hprim, some_bind, hrun,
    hhead, hremove, foldl_reportn]
  rw [← hlines, map_map]
  rfl

/-- A merge by one pivot row keeps the matrix consistent. -/
theorem tryAllCombinations_spec (rep : Report) (h : Inv dropped mat) (hm : 0 < m)
    (hnodup : ind.Nodup) (hlength : ind.length = m) (hrows : ∀ i ∈ ind, mat.rows i ≠ none) :
    Combines dropped rep mat ind (tryAllCombinations rep mat m ind) := by
  obtain ⟨i, hi, hbest⟩ := findBestIndex_spec mat ind hm
  have hilt : i < ind.length := hlength ▸ hi
  have hperm : (ind[i] :: ind.eraseIdx i).Perm ind := List.getElem_cons_eraseIdx_perm hilt
  set pivot := ind[i] with hpivot
  set rest := ind.eraseIdx i with hrest
  have hnodup' : (pivot :: rest).Nodup := hperm.nodup_iff.mpr hnodup
  obtain ⟨hpivotrest, hnrest⟩ := nodup_cons.mp hnodup'
  obtain ⟨mat₁, hrun, hadded⟩ := addPivot_spec h hnodup' fun k hk => hrows k (hperm.mem_iff.mp hk)
  have hmem : ∀ t s, (t, s) ∈ pairs [(pivot, rest)] ↔ s = pivot ∧ t ∈ rest := by
    intro t s
    rw [Forest.mem_pairs]
    simp
  have hindep := Forest.independent_singleton hnodup'
  have hpivotrow : mat₁.rows pivot ≠ none := by
    rw [hadded.rows_of_forall_ne]
    · exact hrows pivot (hperm.mem_iff.mp mem_cons_self)
    · rintro ⟨t, s⟩ hp heq
      have heq : t = pivot := heq
      exact hpivotrest (heq ▸ ((hmem t s).mp hp).2)
  obtain ⟨mat', hremove, -⟩ := hadded.removePivot hpivotrow
  have hind : (if 0 < i then pivot :: rest else ind) = pivot :: rest := by
    split_ifs with hpos
    · rfl
    · obtain rfl : i = 0 := by omega
      rw [hpivot, hrest]
      cases ind with
      | nil => simp at hilt
      | cons a ind => rfl
  refine ⟨pivot, [], rest, mat₁, mat', ?_, ⟨hperm.mem_iff.mp mem_cons_self, hindep,
    fun t => ?_, fun t s hts => ?_⟩, hadded, hremove⟩
  · have hskip := foldlM_zipIdx_skip ind (n := 0) (i := i)
      (fun mat row => addRowsAndUpdate mat row pivot (-1)) mat
    simp only [zero_add] at hskip
    simp only [tryAllCombinations, hbest, some_bind,
      List.getElem?_eq_getElem hilt, ← hpivot, ← hrest, hskip, hrun, hind, List.head?_cons, hremove]
    rfl
  · rw [← hperm.mem_iff, mem_cons]
    constructor
    · rintro ⟨s, hs⟩
      have ht := ((hmem t s).mp hs).2
      exact ⟨Or.inr ht, fun heq => hpivotrest (heq ▸ ht)⟩
    · rintro ⟨ht, hne⟩
      exact ⟨pivot, (hmem t pivot).mpr ⟨rfl, ht.resolve_left hne⟩⟩
  · obtain ⟨rfl, -⟩ := (hmem t s).mp hts
    exact hperm.mem_iff.mp mem_cons_self

/-- A merge combines the rows of its column, reports how, and removes the column. -/
structure Merged (rep : Report) (mat : FilterMatrix) (j : ℕ) (ind : List ℕ) (pivot : ℕ)
    (kept : List (ℕ × List ℕ)) (targets : List ℕ) (rep' : Report) (mat' : FilterMatrix) :
    Prop where
  mem_ind : ∀ i, i ∈ ind ↔ i ∈ mat.cells j
  combined : Combined ind pivot kept targets
  report_eq : rep' = rep ++ (historyLines pivot kept targets).map reportLine
  rows_eq : mat'.rows = update (addAll (map₂ xorMerge)
    (pairs (kept ++ [(pivot, targets)])) mat.rows) pivot none
  kind_eq : mat'.kind = update mat.kind j .removed
  onlyColumns : OnlyColumns { mat with
    rows := mat'.rows
    remNrows := mat.remNrows - 1
    remNcols := mat.remNcols - 1
    weight := mat'.weight } mat'

theorem Combined.mem_row {mat₁ : FilterMatrix} {pivot : ℕ} {kept : List (ℕ × List ℕ)}
    {targets : List ℕ} (hcombined : Combined ind pivot kept targets) (h : Inv dropped mat)
    (hmem : ∀ i, i ∈ ind ↔ i ∈ mat.cells j)
    (hadded : Added dropped mat (pairs (kept ++ [(pivot, targets)])) mat₁) {i : ℕ}
    {row : List ℕ} (hi : mat₁.rows i = some row) (hij : j ∈ row) : i = pivot := by
  by_contra hne
  by_cases hind : i ∈ ind
  · -- the row is a sum of two rows that have the column
    have hrow : ∀ k ∈ ind, ∃ row, mat.rows k = some row ∧ j ∈ row := by
      intro k hk
      have hkrow := (FilterMatrix.mem_cells.mp ((hmem k).mp hk)).2
      cases hrowk : mat.rows k with
      | none =>
        rw [FilterMatrix.row, hrowk] at hkrow
        simp at hkrow
      | some row => exact ⟨row, rfl, FilterMatrix.row_eq hrowk ▸ hkrow⟩
    obtain ⟨s, hs⟩ := (hcombined.target_iff i).mpr ⟨hind, hne⟩
    obtain ⟨row1, h1, hj1⟩ := hrow i hind
    obtain ⟨row2, h2, hj2⟩ := hrow s (hcombined.source_mem i s hs)
    rw [hadded.rows_eq, addAll_of_mem hcombined.independent hs, h1, h2] at hi
    obtain rfl : xorMerge row1 row2 = row := Option.some.inj hi
    rw [mem_xorMerge (h.increasing i row1 h1) (h.increasing s row2 h2)] at hij
    exact hij.mp hj1 hj2
  · rw [hadded.rows_of_forall_ne] at hi
    · refine hind ((hmem i).mpr (FilterMatrix.mem_cells.mpr ⟨h.lt_nrows i (by simp [hi]), ?_⟩))
      rw [FilterMatrix.row_eq hi]
      exact hij
    · rintro ⟨t, s⟩ hp rfl
      exact hind ((hcombined.target_iff t).mp ⟨s, hp⟩).1

theorem findOptimalCombination_spec (rep : Report) (h : Inv dropped mat) (hm : 0 < m)
    (hnodup : ind.Nodup) (hlength : ind.length = m) (hrows : ∀ i ∈ ind, mat.rows i ≠ none)
    (useMST : Bool) :
    Combines dropped rep mat ind (findOptimalCombination rep mat m ind useMST) := by
  by_cases hfew : m ≤ 2 ∨ ¬ useMST
  · rw [findOptimalCombination, if_pos hfew]
    exact tryAllCombinations_spec rep h hm hnodup hlength hrows
  · rw [findOptimalCombination, if_neg hfew]
    exact useMinimalSpanningTree_spec rep h (by omega) hnodup hlength hrows

/-- `mergeForColumn` on an active column. -/
theorem mergeForColumn_spec (rep : Report) (h : Inv dropped mat) (hj : mat.A j ≠ none)
    (hwt : mat.wt j = m) (hm : 0 < m) (hmax : m ≤ mergeLevelMax) (useMST : Bool) :
    ∃ ind pivot kept targets rep' mat', mergeForColumn rep mat m j useMST = some (rep', mat') ∧
      Inv dropped mat' ∧ Merged rep mat j ind pivot kept targets rep' mat' := by
  obtain ⟨entries, hentries, hnodup, hmem⟩ := h.columns.entries j hj
  have hcard := h.columns.wt_eq j hj
  have hlength : (liveRows entries).length = m := by
    have hfinset : (liveRows entries).toFinset = mat.cells j := by
      ext i
      rw [List.mem_toFinset, hmem]
    rw [← List.toFinset_card_of_nodup hnodup, hfinset]
    omega
  set ind := liveRows entries with hind
  have hrows : ∀ i ∈ ind, mat.rows i ≠ none := by
    intro i hi hnone
    have hrow := (FilterMatrix.mem_cells.mp ((hmem i).mp hi)).2
    rw [FilterMatrix.row, hnone] at hrow
    simp at hrow
  obtain ⟨pivot, kept, targets, mat₁, mat₂, hrun, hcombined, hadded, hremove⟩ :=
    findOptimalCombination_spec rep h hm hnodup hlength hrows useMST
  -- the pivot is destroyed
  have hpivotrow : mat₁.rows pivot ≠ none := by
    intro hnone
    rw [removeRowAndUpdate, hnone] at hremove
    simp at hremove
  obtain ⟨mat₂', hremove', hinv, hkind, hrows₂, honly⟩ := hadded.removePivot hpivotrow
  obtain rfl := Option.some.inj (hremove.symm.trans hremove')
  set mat₃ : FilterMatrix := { destroyRow mat₂ pivot with
    remNrows := (destroyRow mat₂ pivot).remNrows - 1
    remNcols := (destroyRow mat₂ pivot).remNcols - 1 } with hmat₃
  have hinv₃ : Inv dropped mat₃ := ⟨⟨hinv.columns.listed, hinv.columns.lt_ncols,
    hinv.columns.wt_eq, hinv.columns.entries, hinv.columns.inactive⟩, hinv.lt_nrows,
    hinv.increasing, hinv.kind_ne, hinv.not_active, hinv.weight_eq⟩
  have hkind₃ : mat₃.kind = mat.kind := hkind
  have hrows₃ : mat₃.rows = update mat₁.rows pivot none := by
    rw [hadded.rows_eq, ← hrows₂]
  have hactive : mat₃.A j ≠ none := by
    rw [← kind_eq_active_iff, hkind₃]
    exact kind_eq_active_iff.mpr hj
  have hempty : mat₃.cells j = ∅ := by
    refine Finset.eq_empty_of_forall_notMem fun i hi => ?_
    obtain ⟨-, hij⟩ := FilterMatrix.mem_cells.mp hi
    cases hrow : mat₃.rows i with
    | none =>
      rw [FilterMatrix.row, hrow] at hij
      simp at hij
    | some row =>
      rw [FilterMatrix.row_eq hrow] at hij
      rw [hrows₃] at hrow
      have hne : i ≠ pivot := by
        rintro rfl
        simp at hrow
      rw [update_of_ne hne] at hrow
      exact hne (hcombined.mem_row h hmem hadded hrow hij)
  obtain ⟨mat₄, hrun₄, hinv₄, hkind₄, honly₄⟩ := removeEmptyColumn_spec hinv₃ hactive hempty
  refine ⟨ind, pivot, kept, targets, _, mat₄, ?_, hinv₄, hmem, hcombined, rfl, ?_, ?_, ?_⟩
  · have htake : ind.take m = ind := List.take_of_length_le hlength.le
    rw [mergeForColumn, if_neg (Nat.not_lt.mpr hmax)]
    simp only [hentries, ← hind, htake, hlength, ne_eq, not_true_eq_false, if_false,
      some_bind, hrun, ← hmat₃, hrun₄]
    rfl
  · rw [← hadded.rows_eq, ← hrows₃, honly₄]
  · rw [hkind₄, hkind₃]
  · have hrows₄ : mat₄.rows = mat₃.rows := by rw [honly₄]
    rw [OnlyColumns] at honly honly₄ ⊢
    rw [honly₄, hmat₃, honly]

end Merge

end CadoNfs.Merge
