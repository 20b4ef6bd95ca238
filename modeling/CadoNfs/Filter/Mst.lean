import CadoNfs.Filter.FilterMatrix
import CadoNfs.Lib.Forest

/-!
# Minimal spanning trees for merge

The rows of a column are added along a spanning tree, which Prim's algorithm finds.  The edges
wait in a heap.

Main results:

- Theorem `edges_popQueue`: the heap keeps its edges.
- Theorem `minimalSpanningTreeWithPrim_spec`: the sons are those of a tree on all vertices.
-/

namespace CadoNfs.Merge

open Function (update update_of_ne update_self)
open SortedXor
open List (length_cons mem_cons_self range)
open Forest (Of labels)

/-! ## Weights of sums -/

/-- The two loops of `weightSum`. -/
def sumLength : List ℕ → List ℕ → ℕ
  | [], row2 => row2.length
  | a :: row1, [] => (a :: row1).length
  | a :: row1, b :: row2 =>
    if a < b then sumLength row1 (b :: row2) + 1
    else if b < a then sumLength (a :: row1) row2 + 1
    else sumLength row1 row2
termination_by row1 row2 => row1.length + row2.length

/-- `weightSum`. -/
def weightSum (mat : FilterMatrix) (i1 i2 : ℕ) : ℤ :=
  let w := min (mat.wburied i1 + mat.wburied i2) mat.nburied
  w + sumLength ((mat.rows i1).getD []) ((mat.rows i2).getD [])

/-- `fillRowAddMatrix`. -/
def fillRowAddMatrix (mat : FilterMatrix) (ind : ℕ → ℕ) (i j : ℕ) : ℤ :=
  if i = j then 0 else weightSum mat (ind (min i j)) (ind (max i j))

/-! ## The queue -/

/-- `MERGE_LEVEL_MAX`. -/
def mergeLevelMax : ℕ := 256

/-- An edge: its ends and its weight. -/
abbrev Edge := ℕ × ℕ × ℤ

/-- `Q`; `size` is `Q[0][0]`. -/
structure Queue where
  size : ℕ
  edge : ℕ → Edge

/-- The loop of `upQueue`; `k` steps are enough. -/
def upLoop (v : ℤ) : ℕ → (ℕ → Edge) → ℕ → (ℕ → Edge) × ℕ
  | 0, edge, k => (edge, k)
  | fuel + 1, edge, k =>
    if 1 < k ∧ v ≤ (edge (k / 2)).2.2 then
      upLoop v fuel (update edge k (edge (k / 2))) (k / 2)
    else (edge, k)

/-- `upQueue`. -/
def upQueue (Q : Queue) (k : ℕ) : Queue :=
  let x := Q.edge k
  let (edge, k) := upLoop x.2.2 k Q.edge k
  { Q with edge := update edge k x }

/-- `addEdge`. -/
def addEdge (Q : Queue) (u v : ℕ) (Auv : ℤ) : Queue :=
  let size := Q.size + 1
  upQueue { size := size, edge := update Q.edge size (u, v, Auv) } size

/-- The loop of `downQueue`; `size` steps are enough. -/
def downLoop (size : ℕ) (v : ℤ) : ℕ → (ℕ → Edge) → ℕ → (ℕ → Edge) × ℕ
  | 0, edge, k => (edge, k)
  | fuel + 1, edge, k =>
    if k ≤ size / 2 then
      let j := 2 * k
      let j := if j < size ∧ (edge j).2.2 > (edge (j + 1)).2.2 then j + 1 else j
      if v ≤ (edge j).2.2 then (edge, k)
      else downLoop size v fuel (update edge k (edge j)) j
    else (edge, k)

/-- `downQueue`. -/
def downQueue (Q : Queue) (k : ℕ) : Queue :=
  let x := Q.edge k
  let (edge, k) := downLoop Q.size x.2.2 Q.size Q.edge k
  { Q with edge := update edge k x }

/-- `popQueue`. -/
def popQueue (Q : Queue) : (ℕ × ℕ) × Queue :=
  let (s, t, _) := Q.edge 1
  ((s, t), downQueue
    { size := Q.size - 1, edge := update Q.edge 1 (Q.edge Q.size) } 1)

/-! ## Prim's algorithm -/

/-- `addAllEdges`. -/
def addAllEdges (Q : Queue) (u : ℕ) (father : ℕ → Option ℕ) (A : ℕ → ℕ → ℤ) (m : ℕ) : Queue :=
  (range m).foldl (fun Q v =>
    if v ≠ u ∧ father v = none then addEdge Q u v (A u v) else Q) Q

/-- The variables of `minimalSpanningTreeWithPrim`; no father is -1. -/
structure Prim where
  w : ℤ
  father : ℕ → Option ℕ
  height : ℕ → ℕ
  sons : ℕ → List ℕ
  hmax : ℕ
  nV : ℤ
  Q : Queue

/-- The new edge `(s, t)` of the tree.  The total `w` is an `int`. -/
def Prim.addSon (st : Prim) (A : ℕ → ℕ → ℤ) (s t : ℕ) : Prim :=
  let height := st.height s + 1
  { st with
    w := (st.w + A s t).bmod (2 ^ 32)
    father := update st.father t (some s)
    sons := update st.sons s (st.sons s ++ [t])
    height := update st.height t height
    hmax := max st.hmax height
    nV := st.nV - 1 }

/-- The loop of `minimalSpanningTreeWithPrim`, for at most `fuel` edges. -/
def primLoop (A : ℕ → ℕ → ℤ) (m : ℕ) : ℕ → Prim → Option Prim
  | 0, _ => none
  | fuel + 1, st =>
    if st.Q.size = 0 then some st
    else
      let ((s, t), Q) := popQueue st.Q
      let st := { st with Q := Q }
      if st.father t = none then
        let st := st.addSon A s t
        if st.nV = 0 then some st
        else primLoop A m fuel { st with Q := addAllEdges st.Q t st.father A m }
      else primLoop A m fuel st

/-- `minimalSpanningTreeWithPrim`.  Each vertex brings at most `m` edges. -/
def minimalSpanningTreeWithPrim (A : ℕ → ℕ → ℤ) (m : ℕ) : Option Prim :=
  let father : ℕ → Option ℕ := update (fun _ => none) 0 (some 0)
  primLoop A m (m * m + 1) {
    w := 0
    father := father
    height := fun _ => 0
    sons := fun _ => []
    hmax := 0
    nV := m - 1
    Q := addAllEdges { size := 0, edge := fun _ => (0, 0, 0) } 0 father A m }

/-! ## Weights -/

section Weights

variable {mat : FilterMatrix} {ind : ℕ → ℕ} {i j : ℕ} {row1 row2 : List ℕ}

theorem sumLength_eq (row1 row2 : List ℕ) :
    sumLength row1 row2 = (xorMerge row1 row2).length := by
  fun_induction sumLength row1 row2 with
  | case1 row2 => rw [xorMerge_nil_left]
  | case2 a row1 => rw [xorMerge_nil_right]
  | case3 a row1 b row2 hlt ih => rw [xorMerge_cons_of_lt hlt, length_cons, ih]
  | case4 a row1 b row2 _ hgt ih => rw [xorMerge_cons_of_gt hgt, length_cons, ih]
  | case5 a row1 b row2 hlt hgt ih =>
    obtain rfl : a = b := by omega
    rw [xorMerge_cons_self, ih]

theorem weightSum_comm : weightSum mat i j = weightSum mat j i := by
  simp [weightSum, sumLength_eq, xorMerge_comm ((mat.rows i).getD []), add_comm (mat.wburied i)]

theorem fillRowAddMatrix_apply (hne : i ≠ j) (hi : mat.rows (ind i) = some row1)
    (hj : mat.rows (ind j) = some row2) :
    fillRowAddMatrix mat ind i j = (min (mat.wburied (ind i) + mat.wburied (ind j)) mat.nburied : ℕ)
      + (xorMerge row1 row2).length := by
  have hsum : fillRowAddMatrix mat ind i j = weightSum mat (ind i) (ind j) := by
    rw [fillRowAddMatrix, if_neg hne]
    rcases le_total i j with hij | hij
    · rw [min_eq_left hij, max_eq_right hij]
    · rw [min_eq_right hij, max_eq_left hij, weightSum_comm]
  rw [hsum, weightSum, hi, hj, Option.getD_some, Option.getD_some, sumLength_eq]

end Weights

/-! ## The edges in the queue -/

/-- The edges in the queue. -/
def Queue.edges (Q : Queue) : Set Edge :=
  {x | ∃ i, 1 ≤ i ∧ i ≤ Q.size ∧ Q.edge i = x}

/-- The edges outside of position `k`. -/
def outside (edge : ℕ → Edge) (size k : ℕ) : Set Edge :=
  {x | ∃ i, 1 ≤ i ∧ i ≤ size ∧ i ≠ k ∧ edge i = x}

section Queue

variable {Q : Queue} {edge : ℕ → Edge} {size fuel j k u v m : ℕ} {w : ℤ} {x : Edge}
  {father : ℕ → Option ℕ} {A : ℕ → ℕ → ℤ}

section

variable (hk : 1 ≤ k)
include hk

theorem outside_update (hksize : k ≤ size) (hj : 1 ≤ j) (hjsize : j ≤ size)
    (hne : j ≠ k) : outside (update edge k (edge j)) size j = outside edge size k := by
  ext x
  constructor
  · rintro ⟨i, hi, hisize, hij, hx⟩
    by_cases hik : i = k
    · rw [hik, update_self] at hx
      exact ⟨j, hj, hjsize, hne, hx⟩
    · rw [update_of_ne hik] at hx
      exact ⟨i, hi, hisize, hik, hx⟩
  · rintro ⟨i, hi, hisize, hik, hx⟩
    by_cases hij : i = j
    · exact ⟨k, hk, hksize, hne.symm, by rw [update_self, ← hij, hx]⟩
    · exact ⟨i, hi, hisize, hij, by rw [update_of_ne hik, hx]⟩

theorem edges_update (hksize : k ≤ size) : Queue.edges { size := size, edge := update edge k x }
      = insert x (outside edge size k) := by
  ext y
  constructor
  · rintro ⟨i, hi, hisize, hy⟩
    by_cases hik : i = k
    · subst hik
      exact Or.inl (hy.symm.trans (update_self _ _ _))
    · exact Or.inr ⟨i, hi, hisize, hik, (update_of_ne hik _ _).symm.trans hy⟩
  · rintro (rfl | ⟨i, hi, hisize, hik, hy⟩)
    · exact ⟨k, hk, hksize, update_self _ _ _⟩
    · exact ⟨i, hi, hisize, (update_of_ne hik _ _).trans hy⟩

theorem edges_eq_insert (hksize : k ≤ Q.size) :
    Q.edges = insert (Q.edge k) (outside Q.edge Q.size k) := by
  rw [← edges_update hk hksize, Function.update_eq_self]

theorem upLoop_spec (hksize : k ≤ size) :
    1 ≤ (upLoop w fuel edge k).2 ∧ (upLoop w fuel edge k).2 ≤ size ∧
      outside (upLoop w fuel edge k).1 size (upLoop w fuel edge k).2 = outside edge size k := by
  induction fuel generalizing edge k with
  | zero => exact ⟨hk, hksize, rfl⟩
  | succ fuel ih =>
    rw [upLoop]
    split_ifs with h
    · obtain ⟨hpos, hle, hout⟩ := ih (k := k / 2)
        (by omega) (by omega)
      exact ⟨hpos, hle, hout.trans
        (outside_update hk hksize (by omega) (by omega) (by omega))⟩
    · exact ⟨hk, hksize, rfl⟩

theorem edges_upQueue (hksize : k ≤ Q.size) : (upQueue Q k).edges = Q.edges := by
  obtain ⟨hpos, hle, hout⟩ := upLoop_spec (w := (Q.edge k).2.2) hk hksize
  exact (edges_update hpos hle).trans (by rw [hout, ← edges_eq_insert hk hksize])

end

theorem edges_addEdge : (addEdge Q u v w).edges = insert (u, v, w) Q.edges := by
  simp only [addEdge]
  rw [edges_upQueue (k := Q.size + 1) (by omega) le_rfl, edges_update (by omega) le_rfl]
  congr 1
  ext x
  constructor
  · rintro ⟨i, hi, hisize, hne, hx⟩
    exact ⟨i, hi, by omega, hx⟩
  · rintro ⟨i, hi, hisize, hx⟩
    exact ⟨i, hi, by omega, by omega, hx⟩

theorem size_addEdge : (addEdge Q u v w).size = Q.size + 1 :=
  rfl

theorem downLoop_spec (hk : 1 ≤ k) (hksize : k ≤ size) :
    1 ≤ (downLoop size w fuel edge k).2 ∧ (downLoop size w fuel edge k).2 ≤ size ∧
      outside (downLoop size w fuel edge k).1 size (downLoop size w fuel edge k).2
        = outside edge size k := by
  induction fuel generalizing edge k with
  | zero => exact ⟨hk, hksize, rfl⟩
  | succ fuel ih =>
    by_cases h : k ≤ size / 2
    · have hstep : ∀ j, 2 * k ≤ j → j ≤ size →
          let result := if w ≤ (edge j).2.2 then (edge, k)
            else downLoop size w fuel (update edge k (edge j)) j
          1 ≤ result.2 ∧ result.2 ≤ size ∧ outside result.1 size result.2 = outside edge size k := by
        intro j hkj hj
        simp only
        split_ifs
        · exact ⟨hk, hksize, rfl⟩
        · obtain ⟨hpos, hle, hout⟩ := ih (k := j)
            (by omega) hj
          exact ⟨hpos, hle, hout.trans (outside_update hk hksize (by omega) hj (by omega))⟩
      rw [downLoop, if_pos h]
      refine hstep _ ?_ ?_ <;> split_ifs <;> omega
    · rw [downLoop, if_neg h]
      exact ⟨hk, hksize, rfl⟩

theorem edges_downQueue (hk : 1 ≤ k) (hksize : k ≤ Q.size) : (downQueue Q k).edges = Q.edges := by
  obtain ⟨hpos, hle, hout⟩ :=
    downLoop_spec (w := (Q.edge k).2.2) hk hksize
  exact (edges_update hpos hle).trans (by rw [hout, ← edges_eq_insert hk hksize])

theorem size_popQueue : (popQueue Q).2.size = Q.size - 1 :=
  rfl

/-- One edge leaves the queue. -/
theorem edges_popQueue (hsize : Q.size ≠ 0) :
    ∃ w, insert ((popQueue Q).1.1, (popQueue Q).1.2, w) (popQueue Q).2.edges = Q.edges := by
  refine ⟨(Q.edge 1).2.2, ?_⟩
  have hrest : (popQueue Q).2.edges = {x | ∃ i, 2 ≤ i ∧ i ≤ Q.size ∧ Q.edge i = x} := by
    ext x
    by_cases hone : Q.size = 1
    · constructor
      · rintro ⟨i, hi, hisize, -⟩
        rw [size_popQueue] at hisize
        omega
      · rintro ⟨i, hi, hisize, -⟩
        omega
    · simp only [popQueue]
      rw [edges_downQueue le_rfl (by simp only; omega), edges_update le_rfl (by omega)]
      constructor
      · rintro (rfl | ⟨i, hi, hisize, hne, hx⟩)
        · exact ⟨Q.size, by omega, le_rfl, rfl⟩
        · exact ⟨i, by omega, by omega, hx⟩
      · rintro ⟨i, hi, hisize, hx⟩
        by_cases hlast : i = Q.size
        · exact Or.inl (by rw [← hx, hlast])
        · exact Or.inr ⟨i, by omega, by omega, by omega, hx⟩
  rw [hrest, edges_eq_insert (k := 1) le_rfl (by omega)]
  congr 1
  ext x
  constructor
  · rintro ⟨i, hi, hisize, hx⟩
    exact ⟨i, by omega, hisize, by omega, hx⟩
  · rintro ⟨i, hi, hisize, hne, hx⟩
    exact ⟨i, by omega, hisize, hx⟩

theorem mem_edges_addAllEdges :
    x ∈ (addAllEdges Q u father A m).edges
      ↔ x ∈ Q.edges ∨ ∃ v < m, v ≠ u ∧ father v = none ∧ x = (u, v, A u v) := by
  induction m with
  | zero => simp [addAllEdges]
  | succ m ih =>
    have hstep : addAllEdges Q u father A (m + 1) = if m ≠ u ∧ father m = none
        then addEdge (addAllEdges Q u father A m) u m (A u m) else addAllEdges Q u father A m := by
      rw [addAllEdges, List.range_succ, List.foldl_append]
      rfl
    rw [hstep]
    split_ifs with h
    · rw [edges_addEdge, Set.mem_insert_iff, ih]
      constructor
      · rintro (hx | hx | ⟨v, hv, hrest⟩)
        · exact Or.inr ⟨m, by omega, h.1, h.2, hx⟩
        · exact Or.inl hx
        · exact Or.inr ⟨v, by omega, hrest⟩
      · rintro (hx | ⟨v, hv, hvu, hfather, hx⟩)
        · exact Or.inr (Or.inl hx)
        · by_cases hvm : v = m
          · exact Or.inl (hvm ▸ hx)
          · exact Or.inr (Or.inr ⟨v, by omega, hvu, hfather, hx⟩)
    · rw [ih]
      refine or_congr_right ⟨fun ⟨v, hv, hrest⟩ => ⟨v, by omega, hrest⟩,
        fun ⟨v, hv, hvu, hfather, hx⟩ => ⟨v, ?_, hvu, hfather, hx⟩⟩
      have hvm : v ≠ m := by
        rintro rfl
        exact h ⟨hvu, hfather⟩
      omega

variable (father) in
theorem size_addAllEdges_le : (addAllEdges Q u father A m).size ≤ Q.size + m := by
  induction m with
  | zero => exact le_rfl
  | succ m ih =>
    rw [addAllEdges, List.range_succ, List.foldl_append, ← addAllEdges, List.foldl_cons,
      List.foldl_nil]
    split_ifs
    · rw [size_addEdge]
      omega
    · omega

end Queue

/-! ## The tree -/

/-- The vertices that have a father are those of the tree `F`. -/
structure Tree (m : ℕ) (st : Prim) (F : Forest ℕ) : Prop where
  of_sons : F.Of st.sons [0]
  nodup : F.labels.Nodup
  mem_iff : ∀ v, v ∈ F.labels ↔ st.father v ≠ none
  lt : ∀ v ∈ F.labels, v < m
  father_iff : ∀ v, st.father v = some v ↔ v = 0
  sons_eq : ∀ v, st.father v = none → st.sons v = []
  nV_eq : st.nV = m - F.labels.length

/-- The edges in the queue start in the tree, and some edge leads to each vertex outside. -/
structure Waiting (m : ℕ) (st : Prim) (F : Forest ℕ) : Prop where
  edge : ∀ x ∈ st.Q.edges, x.1 ∈ F.labels ∧ x.2.1 < m
  waiting : ∀ v < m, st.father v = none → ∃ x ∈ st.Q.edges, x.2.1 = v

section Tree

variable {m s t fuel : ℕ} {st : Prim} {F : Forest ℕ} {A : ℕ → ℕ → ℤ}

theorem Tree.setQueue (h : Tree m st F) (Q : Queue) : Tree m { st with Q := Q } F :=
  ⟨h.of_sons, h.nodup, h.mem_iff, h.lt, h.father_iff, h.sons_eq, h.nV_eq⟩

/-- An edge to a new vertex keeps a tree. -/
theorem Tree.addSon (h : Tree m st F) (hs : s ∈ F.labels) (ht : t < m)
    (hfather : st.father t = none) :
    Tree m (st.addSon A s t) (F.addSon s t) ∧ (F.addSon s t).labels.Perm (t :: F.labels) := by
  have htF : t ∉ F.labels := fun hmem => (h.mem_iff t).mp hmem hfather
  have hst : s ≠ t := fun heq => htF (heq ▸ hs)
  have hperm : (F.addSon s t).labels.Perm (t :: F.labels) := by
    have hlabels := Forest.labels_addSon s t F
    rwa [List.count_eq_one_of_mem h.nodup hs] at hlabels
  refine ⟨⟨Forest.addSon_spec h.of_sons htF hst (h.sons_eq t hfather), ?_, fun v => ?_,
    fun v hv => ?_, fun v => ?_, fun v hv => ?_, ?_⟩, hperm⟩
  · exact hperm.nodup_iff.mpr (List.nodup_cons.mpr ⟨htF, h.nodup⟩)
  · rw [hperm.mem_iff, List.mem_cons, h.mem_iff]
    simp only [Prim.addSon]
    by_cases hv : v = t
    · simp [hv]
    · simp [hv]
  · rcases List.mem_cons.mp (hperm.mem_iff.mp hv) with rfl | hv
    · exact ht
    · exact h.lt v hv
  · simp only [Prim.addSon]
    by_cases hv : v = t
    · subst hv
      have hzero : v ≠ 0 := by
        rintro rfl
        exact absurd ((h.father_iff 0).mpr rfl) (by simp [hfather])
      simp [hst, hzero]
    · rw [update_of_ne hv]
      exact h.father_iff v
  · simp only [Prim.addSon] at hv ⊢
    have hvt : v ≠ t := by
      rintro rfl
      simp at hv
    rw [update_of_ne hvt] at hv
    have hvs : v ≠ s := by
      rintro rfl
      exact (h.mem_iff v).mp hs hv
    rw [update_of_ne hvs]
    exact h.sons_eq v hv
  · simp only [Prim.addSon]
    rw [hperm.length_eq, length_cons, h.nV_eq]
    push_cast
    ring

theorem Tree.perm_of_length (h : Tree m st F) (hlength : m ≤ F.labels.length) :
    F.labels.Perm (range m) := by
  have hsub : F.labels ⊆ range m := fun v hv => List.mem_range.mpr (h.lt v hv)
  exact (h.nodup.subperm hsub).perm_of_length_le (by rwa [List.length_range])

theorem Tree.length_le (h : Tree m st F) : F.labels.length ≤ m := by
  have hsub : F.labels ⊆ range m := fun v hv => List.mem_range.mpr (h.lt v hv)
  simpa using (h.nodup.subperm hsub).length_le

/-- The loop ends with a tree that spans all the rows. -/
theorem primLoop_spec (h : Tree m st F) (hQ : Waiting m st F)
    (hfuel : st.Q.size + (m - F.labels.length) * m < fuel) :
    ∃ st' F', primLoop A m fuel st = some st' ∧ Tree m st' F' ∧
      F'.labels.Perm (range m) := by
  induction fuel generalizing st F with
  | zero => omega
  | succ fuel ih =>
    by_cases hsize : st.Q.size = 0
    · -- the queue is empty
      refine ⟨st, F, by rw [primLoop, if_pos hsize], h, ?_⟩
      refine (List.perm_ext_iff_of_nodup h.nodup List.nodup_range).mpr fun v => ?_
      rw [List.mem_range]
      refine ⟨h.lt v, fun hv => (h.mem_iff v).mpr fun hnone => ?_⟩
      obtain ⟨x, ⟨i, hi, hisize, -⟩, -⟩ := hQ.waiting v hv hnone
      omega
    · obtain ⟨w, hpop⟩ := edges_popQueue hsize
      have hsizepop := size_popQueue (Q := st.Q)
      set s := (popQueue st.Q).1.1 with hs
      set t := (popQueue st.Q).1.2 with ht
      set Q := (popQueue st.Q).2 with hQpop
      obtain ⟨hsF, htm⟩ : s ∈ F.labels ∧ t < m := hQ.edge (s, t, w) (hpop ▸ Set.mem_insert _ _)
      have hedge : ∀ x ∈ Q.edges, x.1 ∈ F.labels ∧ x.2.1 < m := fun x hx =>
        hQ.edge x (hpop ▸ Set.mem_insert_of_mem _ hx)
      have hrest : ∀ v < m, v ≠ t → st.father v = none → ∃ x ∈ Q.edges, x.2.1 = v := by
        intro v hv hvt hnone
        obtain ⟨x, hx, rfl⟩ := hQ.waiting v hv hnone
        rw [← hpop] at hx
        rcases hx with rfl | hx
        · exact absurd rfl hvt
        · exact ⟨x, hx, rfl⟩
      by_cases hfather : st.father t = none
      · -- the edge goes into the tree
        obtain ⟨htree, hperm⟩ := (h.setQueue Q).addSon (A := A) hsF htm hfather
        set st₁ := Prim.addSon { st with Q := Q } A s t with hst₁
        by_cases hnV : st₁.nV = 0
        · refine ⟨st₁, F.addSon s t, ?_, htree, htree.perm_of_length ?_⟩
          · simp [primLoop, if_neg hsize, ← hs, ← ht, ← hQpop, if_pos hfather, ← hst₁, if_pos hnV]
          · have hcount := htree.nV_eq
            omega
        · have hlength := hperm.length_eq
          have hle := htree.length_le
          rw [length_cons] at hlength
          have hsizeadd := size_addAllEdges_le st₁.father (Q := Q) (u := t) (A := A)
            (m := m)
          have hwaiting : Waiting m { st₁ with Q := addAllEdges Q t st₁.father A m }
              (F.addSon s t) := by
            refine ⟨fun x hx => ?_, fun v hv hnone => ?_⟩
            · rcases mem_edges_addAllEdges.mp hx with hx | ⟨v, hv, -, -, rfl⟩
              · obtain ⟨hx, hlt⟩ := hedge x hx
                exact ⟨hperm.mem_iff.mpr (List.mem_cons_of_mem _ hx), hlt⟩
              · exact ⟨hperm.mem_iff.mpr mem_cons_self, hv⟩
            · have hvt : v ≠ t := by
                rintro rfl
                exact (htree.mem_iff t).mp (hperm.mem_iff.mpr mem_cons_self) hnone
              exact ⟨_, mem_edges_addAllEdges.mpr (Or.inr ⟨v, hv, hvt, hnone, rfl⟩), rfl⟩
          have hm : m - F.labels.length = m - (F.addSon s t).labels.length + 1 := by omega
          rw [hm, Nat.succ_mul] at hfuel
          obtain ⟨st', F', hrun, hrest'⟩ := ih (htree.setQueue (addAllEdges Q t st₁.father A m))
            hwaiting (by simp only; omega)
          refine ⟨st', F', ?_, hrest'⟩
          simp only [primLoop, if_neg hsize, ← hs, ← ht, ← hQpop, if_pos hfather, ← hst₁,
            if_neg hnV]
          exact hrun
      · -- the edge closes a cycle
        have hwaiting : Waiting m { st with Q := Q } F := by
          refine ⟨hedge, fun v hv hnone => hrest v hv ?_ hnone⟩
          rintro rfl
          exact hfather hnone
        obtain ⟨st', F', hrun, hrest'⟩ := ih (h.setQueue Q) hwaiting (by simp only; omega)
        refine ⟨st', F', ?_, hrest'⟩
        simp only [primLoop, if_neg hsize, ← hs, ← ht, ← hQpop, if_neg hfather]
        exact hrun

/-- `minimalSpanningTreeWithPrim` gives the sons of a tree on all vertices, with root 0. -/
theorem minimalSpanningTreeWithPrim_spec (A : ℕ → ℕ → ℤ) (hm : 0 < m) :
    ∃ (st : Prim) (kids : Forest ℕ), minimalSpanningTreeWithPrim A m = some st ∧
      kids.Of st.sons (st.sons 0) ∧ (0 :: kids.labels).Perm (range m) ∧
      ∀ v, st.father v = some v ↔ v = 0 := by
  set father : ℕ → Option ℕ := update (fun _ => none) 0 (some 0) with hfather
  set st : Prim := {
    w := 0
    father := father
    height := fun _ => 0
    sons := fun _ => []
    hmax := 0
    nV := m - 1
    Q := addAllEdges { size := 0, edge := fun _ => (0, 0, 0) } 0 father A m } with hst
  have htree : Tree m st (.node 0 .nil .nil) := by
    refine ⟨⟨[], rfl, rfl, rfl⟩, by simp [labels], fun v => ?_, fun v hv => ?_, fun v => ?_,
      fun _ _ => rfl, rfl⟩
    · by_cases hv : v = 0 <;> simp [labels, hst, hfather, hv]
    · obtain rfl : v = 0 := by simpa [labels] using hv
      exact hm
    · by_cases hv : v = 0 <;> simp [hst, hfather, hv]
  have hempty : ∀ x, x ∉ Queue.edges { size := 0, edge := fun _ => (0, 0, 0) } := by
    rintro x ⟨i, hi, hisize, -⟩
    simp only at hisize
    omega
  have hsize := size_addAllEdges_le father (Q := { size := 0, edge := fun _ => (0, 0, 0) }) (u := 0)
    (A := A) (m := m)
  have hwaiting : Waiting m st (.node 0 .nil .nil) := by
    refine ⟨fun x hx => ?_, fun v hv hnone => ?_⟩
    · rcases mem_edges_addAllEdges.mp hx with hx | ⟨v, hv, -, -, rfl⟩
      · exact absurd hx (hempty x)
      · exact ⟨mem_cons_self, hv⟩
    · have hvzero : v ≠ 0 := by
        rintro rfl
        simp [hst, hfather] at hnone
      exact ⟨_, mem_edges_addAllEdges.mpr (Or.inr ⟨v, hv, hvzero, hnone, rfl⟩), rfl⟩
  have hfuel : st.Q.size + (m - (Forest.node 0 .nil .nil : Forest ℕ).labels.length) * m
      < m * m + 1 := by
    have hmul : m * m = (m - 1) * m + m := by
      rw [← Nat.succ_mul, Nat.succ_eq_add_one, Nat.sub_add_cancel hm]
    have hlabels : (Forest.node 0 .nil .nil : Forest ℕ).labels.length = 1 := rfl
    rw [hlabels]
    simp only [hst]
    simp only at hsize
    omega
  obtain ⟨st', F, hrun, htree', hperm⟩ := primLoop_spec htree hwaiting hfuel
  refine ⟨st', ?_⟩
  have hof := htree'.of_sons
  cases F with
  | nil => exact absurd hof (by simp [Of])
  | node a kids rest =>
    obtain ⟨us', hroot, hkids, hrest⟩ := hof
    obtain ⟨rfl, rfl⟩ := List.cons.inj hroot
    obtain rfl : rest = .nil := by
      cases rest with
      | nil => rfl
      | node b kids rest => exact absurd hrest (by simp [Of])
    refine ⟨kids, hrun, hkids, ?_, htree'.father_iff⟩
    simpa [labels] using hperm

end Tree

end CadoNfs.Merge
