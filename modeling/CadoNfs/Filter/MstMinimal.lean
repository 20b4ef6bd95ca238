import CadoNfs.Filter.Mst
import CadoNfs.Lib.BinaryHeap
import CadoNfs.Lib.SpanningTree

/-!
# The tree of Prim's algorithm is minimal

The queue of `minimalSpanningTreeWithPrim` is a heap that keeps the edges that have become
useless.  All edges from the tree to a vertex outside are in it, so that the edge that leaves the
queue next is a lightest one across the cut, if it leads outside at all.

Main results:

- Theorems `addEdge_ordered` and `popQueue_ordered`: the queue stays a heap.
- Theorem `PrimInv.pass`: what one pass of the loop does to the tree and the queue.
- Theorem `minimalSpanningTreeWithPrim_minimal`: the tree that is returned.
-/

namespace CadoNfs.Merge

open Function (update update_apply update_of_ne update_self)
open BinaryHeap SpanningTree

/-! ## The heap -/

/-- The weight of an edge. -/
def Edge.weight (x : Edge) : ℤ :=
  x.2.2

/-- The queue is a heap. -/
def Queue.IsHeap (Q : Queue) : Prop :=
  Ordered Edge.weight Q.edge Q.size

section Heap

variable {Q : Queue} {edge : ℕ → Edge} {size fuel k u v m : ℕ} {x : Edge}
  {father : ℕ → Option ℕ} {A : ℕ → ℕ → ℤ}

theorem upLoop_ordered (h : Hole Edge.weight edge size k) (hk : 1 ≤ k) (hsize : k ≤ size)
    (habove : FitsAbove Edge.weight edge size k x.weight) (hfuel : k ≤ fuel) :
    Ordered Edge.weight
      (update (upLoop x.weight fuel edge k).1 (upLoop x.weight fuel edge k).2 x) size := by
  induction fuel generalizing edge k with
  | zero => omega
  | succ fuel ih =>
    rw [upLoop]
    split_ifs with hcond
    · obtain ⟨htwo, hle⟩ := hcond
      exact ih (h.up htwo hsize) (by omega) (by omega) (FitsAbove.up h htwo hle) (by omega)
    · exact h.fill hk (fun htwo => (not_le.mp fun hle => hcond ⟨htwo, hle⟩).le) habove

theorem addEdge_ordered (h : Q.IsHeap) (u v : ℕ) (w : ℤ) : (addEdge Q u v w).IsHeap := by
  have hself : update Q.edge (Q.size + 1) (u, v, w) (Q.size + 1) = (u, v, w) :=
    update_self _ _ _
  simp only [addEdge, upQueue, hself]
  exact upLoop_ordered (x := (u, v, w)) (h.hole_succ.update _) (by omega) le_rfl
    (fitsAbove_last _) le_rfl

/-- Moving down restores the order of the heap. -/
theorem downLoop_ordered (h : Hole Edge.weight edge size k) (hk : 1 ≤ k)
    (hbelow : FitsBelow Edge.weight edge k x.weight) (hfuel : size < k + fuel) :
    Ordered Edge.weight
      (update (downLoop size x.weight fuel edge k).1
        (downLoop size x.weight fuel edge k).2 x) size := by
  induction fuel generalizing edge k with
  | zero => exact h.fill hk hbelow fun i hik hisize => by omega
  | succ fuel ih =>
    rw [downLoop]
    split_ifs with hson
    · set j := if 2 * k < size ∧ (edge (2 * k)).2.2 > (edge (2 * k + 1)).2.2 then 2 * k + 1
        else 2 * k with hj
      have hsons : ∀ i, i / 2 = k → i = 2 * k ∨ i = 2 * k + 1 := by omega
      obtain ⟨hfather, hjsize, hleast⟩ : j / 2 = k ∧ j ≤ size ∧
          ∀ i, i / 2 = k → i ≤ size → (edge j).weight ≤ (edge i).weight := by
        rw [hj]
        split_ifs with hright
        · refine ⟨by omega, by omega, fun i hik hisize => ?_⟩
          rcases hsons i hik with rfl | rfl
          · exact hright.2.le
          · exact le_rfl
        · refine ⟨by omega, by omega, fun i hik hisize => ?_⟩
          rcases hsons i hik with rfl | rfl
          · exact le_rfl
          · exact not_lt.mp fun hlt => hright ⟨by omega, hlt⟩
      simp only [← hj]
      split_ifs with hle
      · exact h.fill hk hbelow fun i hik hisize => hle.trans (hleast i hik hisize)
      · exact ih (h.down hk hfather hjsize hleast) (by omega)
          (FitsBelow.down hfather (not_le.mp hle).le) (by omega)
    · exact h.fill hk hbelow fun i hik hisize => by omega

theorem popQueue_ordered (h : Q.IsHeap) : (popQueue Q).2.IsHeap := by
  have hself : update Q.edge 1 (Q.edge Q.size) 1 = Q.edge Q.size :=
    update_self _ _ _
  simp only [popQueue, downQueue, hself]
  exact downLoop_ordered (((h.mono (Nat.sub_le _ 1)).hole 1).update _) le_rfl
    (fun htwo => by omega) (by omega)

theorem addAllEdges_ordered (h : Q.IsHeap) (u : ℕ) (father : ℕ → Option ℕ) (A : ℕ → ℕ → ℤ)
    (m : ℕ) : (addAllEdges Q u father A m).IsHeap := by
  unfold addAllEdges
  induction List.range m generalizing Q with
  | nil => exact h
  | cons v vs ih =>
    rw [List.foldl_cons]
    split_ifs
    · exact ih (addEdge_ordered h u v _)
    · exact ih h

theorem Queue.IsHeap.least (h : Q.IsHeap) (hx : x ∈ Q.edges) :
    (Q.edge 1).weight ≤ x.weight := by
  obtain ⟨i, hi, hisize, rfl⟩ := hx
  exact h.root_le hi hisize

theorem edge_one_mem (hsize : Q.size ≠ 0) : Q.edge 1 ∈ Q.edges :=
  ⟨1, le_rfl, by omega, rfl⟩

theorem mem_of_mem_popQueue (hsize : Q.size ≠ 0) (hx : x ∈ (popQueue Q).2.edges) :
    x ∈ Q.edges := by
  obtain ⟨w, hpop⟩ := edges_popQueue hsize
  exact hpop ▸ Set.mem_insert_of_mem _ hx

theorem mem_popQueue_of_ne (hsize : Q.size ≠ 0) (hx : x ∈ Q.edges)
    (hne : x.2.1 ≠ (popQueue Q).1.2) : x ∈ (popQueue Q).2.edges := by
  obtain ⟨w, hpop⟩ := edges_popQueue hsize
  rw [← hpop] at hx
  rcases hx with rfl | hx
  · exact absurd rfl hne
  · exact hx

end Heap

/-! ## One pass -/

/-- One pass of the loop of `minimalSpanningTreeWithPrim`, and whether the loop goes on. -/
def primPass (A : ℕ → ℕ → ℤ) (m : ℕ) (st : Prim) : Prim × Bool :=
  let ((s, t), Q) := popQueue st.Q
  let st := { st with Q := Q }
  if st.father t = none then
    let st := st.addSon A s t
    if st.nV = 0 then (st, false)
    else ({ st with Q := addAllEdges st.Q t st.father A m }, true)
  else (st, true)

/-- The variables before the loop. -/
def primStart (A : ℕ → ℕ → ℤ) (m : ℕ) : Prim :=
  let father : ℕ → Option ℕ := update (fun _ => none) 0 (some 0)
  { w := 0
    father := father
    height := fun _ => 0
    sons := fun _ => []
    hmax := 0
    nV := m - 1
    Q := addAllEdges { size := 0, edge := fun _ => (0, 0, 0) } 0 father A m }

/-- The variables each time the condition of the loop is tested. -/
inductive PrimVisits (A : ℕ → ℕ → ℤ) (m : ℕ) : Prim → Prop where
  | start : PrimVisits A m (primStart A m)
  | pass {st : Prim} (h : PrimVisits A m st) (hsize : st.Q.size ≠ 0)
      (hmore : (primPass A m st).2 = true) : PrimVisits A m (primPass A m st).1

section Pass

variable {A : ℕ → ℕ → ℤ} {m : ℕ} {st : Prim}

theorem primPass_useless (h : st.father (popQueue st.Q).1.2 ≠ none) :
    primPass A m st = ({ st with Q := (popQueue st.Q).2 }, true) := by
  simp [primPass, if_neg h]

theorem primPass_last (h : st.father (popQueue st.Q).1.2 = none) (hnV : st.nV = 1) :
    primPass A m st = (({ st with Q := (popQueue st.Q).2 } : Prim).addSon A (popQueue st.Q).1.1
      (popQueue st.Q).1.2, false) := by
  have hlast : (({ st with Q := (popQueue st.Q).2 } : Prim).addSon A (popQueue st.Q).1.1
      (popQueue st.Q).1.2).nV = 0 := sub_eq_zero.mpr hnV
  simp [primPass, if_pos h, if_pos hlast]

theorem primPass_more (h : st.father (popQueue st.Q).1.2 = none) (hnV : st.nV ≠ 1) :
    primPass A m st =
      let st₁ := ({ st with Q := (popQueue st.Q).2 } : Prim).addSon A (popQueue st.Q).1.1
        (popQueue st.Q).1.2
      ({ st₁ with Q := addAllEdges (popQueue st.Q).2 (popQueue st.Q).1.2 st₁.father A m },
        true) := by
  have hmore : (({ st with Q := (popQueue st.Q).2 } : Prim).addSon A (popQueue st.Q).1.1
      (popQueue st.Q).1.2).nV ≠ 0 := sub_ne_zero.mpr hnV
  simp only [primPass, if_pos h, if_neg hmore]
  rfl

theorem primLoop_succ (A : ℕ → ℕ → ℤ) (m fuel : ℕ) (st : Prim) :
    primLoop A m (fuel + 1) st = if st.Q.size = 0 then some st
      else if (primPass A m st).2 then primLoop A m fuel (primPass A m st).1
      else some (primPass A m st).1 := by
  by_cases hsize : st.Q.size = 0
  · rw [primLoop, if_pos hsize, if_pos hsize]
  · rw [primLoop, if_neg hsize, if_neg hsize]
    by_cases hfather : st.father (popQueue st.Q).1.2 = none
    · by_cases hnV : ({ st with Q := (popQueue st.Q).2 }.addSon A (popQueue st.Q).1.1
          (popQueue st.Q).1.2).nV = 0
      · simp [primPass, if_pos hfather, if_pos hnV]
      · simp [primPass, if_pos hfather, if_neg hnV]
    · simp [primPass, if_neg hfather]

end Pass

/-! ## The invariant -/

section Invariant

variable {A : ℕ → ℕ → ℤ} {m : ℕ}

/-- The weight of an edge between vertices of a symmetric matrix. -/
def edgeWeight (hA : ∀ i j : Fin m, A i j = A j i) : Sym2 (Fin m) → ℤ :=
  Sym2.lift ⟨fun i j => A i j, hA⟩

/-- The queue on the border of the tree `F`. -/
structure Frontier (A : ℕ → ℕ → ℤ) (m : ℕ) (st : Prim) (F : Forest ℕ) : Prop where
  heap : st.Q.IsHeap
  edge : ∀ x ∈ st.Q.edges, x.1 ∈ F.labels ∧ x.2.1 < m ∧ x.weight = A x.1 x.2.1
  crossing : ∀ u ∈ F.labels, ∀ v < m, st.father v = none → (u, v, A u v) ∈ st.Q.edges
  size_le : st.Q.size ≤ F.labels.length * m

/-- The edges `E` from the vertices of the tree `F` to their fathers. -/
structure LightEdges (hA : ∀ i j : Fin m, A i j = A j i) (st : Prim) (F : Forest ℕ)
    (E : Finset (Sym2 (Fin m))) : Prop where
  inside : ∀ e ∈ E, ∀ v ∈ e, v.1 ∈ F.labels
  promising : Promising (edgeWeight hA) E
  card : E.card + 1 = F.labels.length
  weight : st.w = (∑ e ∈ E, edgeWeight hA e).bmod (2 ^ 32)
  mem_iff : ∀ e, e ∈ E ↔ ∃ u v : Fin m, e = s(u, v) ∧ v.1 ≠ 0 ∧ st.father v = some u.1

/-- The sons and the heights in the tree `F` agree with the fathers. -/
structure Rooted (st : Prim) (F : Forest ℕ) : Prop where
  father_mem : ∀ u v, st.father v = some u → u ∈ F.labels
  sons_nodup : ∀ u, (st.sons u).Nodup
  mem_sons : ∀ u v, v ∈ st.sons u ↔ v ≠ 0 ∧ st.father v = some u
  height_zero : st.height 0 = 0
  height_son : ∀ u v, v ≠ 0 → st.father v = some u → st.height v = st.height u + 1
  height_le : ∀ v ∈ F.labels, st.height v ≤ st.hmax
  height_max : ∃ v ∈ F.labels, st.height v = st.hmax

variable {hA : ∀ i j : Fin m, A i j = A j i} {st : Prim} {F : Forest ℕ}
  {E : Finset (Sym2 (Fin m))} {s t : ℕ}

theorem Tree.zero_mem (h : Tree m st F) : 0 ∈ F.labels :=
  (h.mem_iff 0).mpr (by rw [(h.father_iff 0).mpr rfl]; exact Option.some_ne_none 0)

theorem Tree.not_mem (h : Tree m st F) (ht : st.father t = none) : t ∉ F.labels :=
  fun hmem => (h.mem_iff t).mp hmem ht

section

variable (st : Prim) (A : ℕ → ℕ → ℤ) (s t v : ℕ)

theorem addSon_father : (st.addSon A s t).father v = if v = t then some s else st.father v :=
  update_apply _ _ _ _

theorem addSon_height :
    (st.addSon A s t).height v = if v = t then st.height s + 1 else st.height v :=
  update_apply _ _ _ _

end

/-- A lightest crossing edge stays within a minimal tree. -/
theorem LightEdges.addSon (h : LightEdges hA st F E) (htree : Tree m st F) (hs : s ∈ F.labels)
    (ht : t < m) (hfather : st.father t = none)
    (hleast : ∀ u ∈ F.labels, ∀ v < m, st.father v = none → A s t ≤ A u v) :
    ∃ E', LightEdges hA (st.addSon A s t) (F.addSon s t) E' := by
  obtain ⟨-, hperm⟩ := htree.addSon (A := A) hs ht hfather
  have htF := htree.not_mem hfather
  have htzero : t ≠ 0 := fun h0 => htF (h0 ▸ htree.zero_mem)
  let e : Sym2 (Fin m) := s(⟨s, htree.lt s hs⟩, ⟨t, ht⟩)
  have hnew : e ∉ E := fun he => htF (h.inside e he ⟨t, ht⟩ (Sym2.mem_mk_right _ _))
  refine ⟨insert e E, ?_, ?_, ?_, ?_, ?_⟩
  · intro e' he' v hv
    rw [hperm.mem_iff, List.mem_cons]
    rcases Finset.mem_insert.mp he' with rfl | he'
    · rcases Sym2.mem_iff.mp hv with rfl | rfl
      · exact Or.inr hs
      · exact Or.inl rfl
    · exact Or.inr (h.inside e' he' v hv)
  · refine h.promising.insert_edge (S := {v : Fin m | v.1 ∈ F.labels}) h.inside hs htF ?_
    intro x hx y hy
    exact hleast x hx y y.2 (by_contra fun hne => hy ((htree.mem_iff y).mpr hne))
  · rw [Finset.card_insert_of_notMem hnew, hperm.length_eq, List.length_cons, h.card]
  · have hw : (st.addSon A s t).w = (st.w + A s t).bmod (2 ^ 32) := rfl
    rw [hw, h.weight, Int.bmod_add_bmod, Finset.sum_insert hnew, add_comm]
    rfl
  · intro e'
    simp only [Finset.mem_insert, h.mem_iff, addSon_father]
    constructor
    · rintro (rfl | ⟨u, v, rfl, hv, huv⟩)
      · exact ⟨⟨s, htree.lt s hs⟩, ⟨t, ht⟩, rfl, htzero, if_pos rfl⟩
      · refine ⟨u, v, rfl, hv, ?_⟩
        rw [if_neg, huv]
        rintro hvt
        rw [hvt, hfather] at huv
        cases huv
    · rintro ⟨u, v, rfl, hv, huv⟩
      by_cases hvt : v.1 = t
      · rw [if_pos hvt] at huv
        left
        have hu : u = ⟨s, htree.lt s hs⟩ := Fin.ext (Option.some.inj huv).symm
        have hv' : v = ⟨t, ht⟩ := Fin.ext hvt
        rw [hu, hv']
      · rw [if_neg hvt] at huv
        exact Or.inr ⟨u, v, rfl, hv, huv⟩

/-- Fathers and tree still agree when an edge is added. -/
theorem Rooted.addSon (h : Rooted st F) (htree : Tree m st F) (hs : s ∈ F.labels) (ht : t < m)
    (hfather : st.father t = none) : Rooted (st.addSon A s t) (F.addSon s t) := by
  obtain ⟨-, hperm⟩ := htree.addSon (A := A) hs ht hfather
  have htF := htree.not_mem hfather
  have htzero : t ≠ 0 := fun h0 => htF (h0 ▸ htree.zero_mem)
  have hst : s ≠ t := fun heq => htF (heq ▸ hs)
  have hmem : ∀ v, v ∈ (F.addSon s t).labels ↔ v = t ∨ v ∈ F.labels := fun v => by
    rw [hperm.mem_iff, List.mem_cons]
  have hsons : ∀ u, (st.addSon A s t).sons u
      = if u = s then st.sons s ++ [t] else st.sons u := fun u => update_apply _ _ _ _
  have hnot : ∀ u, t ∉ st.sons u := fun u htu => by
    have hson := ((h.mem_sons u t).mp htu).2
    rw [hfather] at hson
    cases hson
  refine ⟨fun u v huv => ?_, fun u => ?_, fun u v => ?_, ?_, fun u v hv huv => ?_, fun v hv => ?_,
    ?_⟩
  · rw [addSon_father] at huv
    rw [hmem]
    split_ifs at huv with hvt
    · exact Or.inr (Option.some.inj huv ▸ hs)
    · exact Or.inr (h.father_mem u v huv)
  · rw [hsons]
    split_ifs
    · rw [List.nodup_append]
      refine ⟨h.sons_nodup s, List.nodup_singleton t, fun a ha b hb => ?_⟩
      rw [List.mem_singleton.mp hb]
      rintro rfl
      exact hnot s ha
    · exact h.sons_nodup u
  · rw [hsons, addSon_father]
    by_cases hvt : v = t
    · subst hvt
      rw [if_pos rfl]
      split_ifs with hus
      · simp [hus, htzero]
      · simp only [hnot, false_iff, not_and, Option.some.injEq]
        exact fun _ heq => hus heq.symm
    · rw [if_neg hvt, ← h.mem_sons]
      split_ifs with hus
      · simp [hus, hvt]
      · rfl
  · rw [addSon_height, if_neg htzero.symm, h.height_zero]
  · rw [addSon_father] at huv
    rw [addSon_height, addSon_height]
    split_ifs at huv with hvt
    · obtain rfl := Option.some.inj huv
      rw [if_pos hvt, if_neg hst]
    · have hut : u ≠ t := fun hut => htF (hut ▸ h.father_mem u v huv)
      rw [if_neg hvt, if_neg hut, h.height_son u v hv huv]
  · have hmax : (st.addSon A s t).hmax = max st.hmax (st.height s + 1) := rfl
    rw [addSon_height, hmax]
    split_ifs with hvt
    · exact le_max_right _ _
    · exact (h.height_le v (((hmem v).mp hv).resolve_left hvt)).trans (le_max_left _ _)
  · have hmax : (st.addSon A s t).hmax = max st.hmax (st.height s + 1) := rfl
    obtain ⟨v, hv, hvmax⟩ := h.height_max
    rw [hmax]
    rcases le_total st.hmax (st.height s + 1) with hle | hle
    · exact ⟨t, (hmem t).mpr (Or.inl rfl), by rw [addSon_height, if_pos rfl, max_eq_right hle]⟩
    · refine ⟨v, (hmem v).mpr (Or.inr hv), ?_⟩
      rw [addSon_height, if_neg, hvmax, max_eq_left hle]
      rintro rfl
      exact htF hv

/-- What holds each time the condition of the loop is tested. -/
structure PrimInv (hA : ∀ i j : Fin m, A i j = A j i) (st : Prim) (F : Forest ℕ)
    (E : Finset (Sym2 (Fin m))) : Prop where
  tree : Tree m st F
  frontier : Frontier A m st F
  light : LightEdges hA st F E
  rooted : Rooted st F

theorem LightEdges.setQueue (h : LightEdges hA st F E) (Q : Queue) :
    LightEdges hA { st with Q := Q } F E :=
  ⟨h.inside, h.promising, h.card, h.weight, h.mem_iff⟩

theorem Rooted.setQueue (h : Rooted st F) (Q : Queue) : Rooted { st with Q := Q } F :=
  ⟨h.father_mem, h.sons_nodup, h.mem_sons, h.height_zero, h.height_son, h.height_le, h.height_max⟩

theorem Frontier.popped (h : Frontier A m st F) (hsize : st.Q.size ≠ 0) :
    (popQueue st.Q).1.1 ∈ F.labels ∧ (popQueue st.Q).1.2 < m ∧
      (st.Q.edge 1).weight = A (popQueue st.Q).1.1 (popQueue st.Q).1.2 :=
  h.edge _ (edge_one_mem hsize)

theorem Frontier.least (h : Frontier A m st F) (hsize : st.Q.size ≠ 0) :
    ∀ u ∈ F.labels, ∀ v < m, st.father v = none →
      A (popQueue st.Q).1.1 (popQueue st.Q).1.2 ≤ A u v := by
  intro u hu v hv hnone
  rw [← (h.popped hsize).2.2]
  exact h.heap.least (h.crossing u hu v hv hnone)

theorem Frontier.useless (h : Frontier A m st F) (hsize : st.Q.size ≠ 0)
    (hfather : st.father (popQueue st.Q).1.2 ≠ none) :
    Frontier A m { st with Q := (popQueue st.Q).2 } F := by
  refine ⟨popQueue_ordered h.heap, fun x hx => h.edge x (mem_of_mem_popQueue hsize hx),
    fun u hu v hv hnone => ?_, ?_⟩
  · refine mem_popQueue_of_ne hsize (h.crossing u hu v hv hnone) ?_
    rintro rfl
    exact hfather hnone
  · exact (Nat.sub_le _ 1).trans h.size_le

/-- The queue still holds all crossing edges. -/
theorem Frontier.addSon (h : Frontier A m st F) (htree : Tree m st F) (hsize : st.Q.size ≠ 0)
    (hs : (popQueue st.Q).1.1 = s) (ht : (popQueue st.Q).1.2 = t)
    (hfather : st.father t = none) {st' : Prim} (hst' : st'.father = (st.addSon A s t).father)
    (hQ : st'.Q = addAllEdges (popQueue st.Q).2 t st'.father A m) :
    Frontier A m st' (F.addSon s t) := by
  obtain ⟨hsF, htm, -⟩ := h.popped hsize
  rw [hs] at hsF
  rw [ht] at htm
  obtain ⟨htree', hperm⟩ := htree.addSon (A := A) hsF htm hfather
  have hnone : ∀ v, st'.father v = none → v ≠ t ∧ st.father v = none := fun v hv => by
    rw [hst', addSon_father] at hv
    split_ifs at hv with hvt
    exact ⟨hvt, hv⟩
  refine ⟨?_, fun x hx => ?_, fun u hu v hv hfree => ?_, ?_⟩
  · rw [hQ]
    exact addAllEdges_ordered (popQueue_ordered h.heap) t _ A m
  · rw [hQ, mem_edges_addAllEdges] at hx
    rcases hx with hx | ⟨v, hv, -, -, rfl⟩
    · obtain ⟨hx₁, hrest⟩ := h.edge x (mem_of_mem_popQueue hsize hx)
      exact ⟨hperm.mem_iff.mpr (List.mem_cons_of_mem _ hx₁), hrest⟩
    · exact ⟨hperm.mem_iff.mpr List.mem_cons_self, hv, rfl⟩
  · obtain ⟨hvt, hold⟩ := hnone v hfree
    rw [hQ, mem_edges_addAllEdges]
    rcases List.mem_cons.mp (hperm.mem_iff.mp hu) with rfl | hu
    · exact Or.inr ⟨v, hv, hvt, hfree, rfl⟩
    · exact Or.inl (mem_popQueue_of_ne hsize (h.crossing u hu v hv hold) (ht ▸ hvt))
  · have hadd := size_addAllEdges_le st'.father (Q := (popQueue st.Q).2) (u := t) (A := A) (m := m)
    rw [← hQ, size_popQueue] at hadd
    rw [hperm.length_eq, List.length_cons, Nat.succ_mul]
    have hle := h.size_le
    omega

/-- One pass: the tree is complete, or the loop goes on and comes nearer to its end. -/
theorem PrimInv.pass (h : PrimInv hA st F E) (hsize : st.Q.size ≠ 0) (hlt : F.labels.length < m) :
    ∃ F' E', Tree m (primPass A m st).1 F' ∧ LightEdges hA (primPass A m st).1 F' E' ∧
      Rooted (primPass A m st).1 F' ∧
      ((primPass A m st).2 = false → m ≤ F'.labels.length) ∧
      ((primPass A m st).2 = true → PrimInv hA (primPass A m st).1 F' E' ∧ F'.labels.length < m ∧
        (primPass A m st).1.Q.size + (m - F'.labels.length) * m
          < st.Q.size + (m - F.labels.length) * m) := by
  obtain ⟨hs, ht, -⟩ := h.frontier.popped hsize
  have hpop := size_popQueue (Q := st.Q)
  by_cases hfather : st.father (popQueue st.Q).1.2 = none
  · obtain ⟨htree, hperm⟩ := (h.tree.setQueue (popQueue st.Q).2).addSon (A := A) hs ht hfather
    obtain ⟨E', hlight⟩ :=
      h.light.addSon h.tree hs ht hfather (h.frontier.least hsize)
    have hlight := hlight.setQueue (popQueue st.Q).2
    have hrooted := (h.rooted.addSon (A := A) h.tree hs ht hfather).setQueue (popQueue st.Q).2
    have hlength := hperm.length_eq
    have hcount := h.tree.nV_eq
    rw [List.length_cons] at hlength
    refine ⟨F.addSon (popQueue st.Q).1.1 (popQueue st.Q).1.2, E', ?_⟩
    by_cases hnV : st.nV = 1
    · rw [primPass_last hfather hnV]
      exact ⟨htree, hlight, hrooted, fun _ => by omega, nofun⟩
    · have hle := htree.length_le
      have hadd := fun father => size_addAllEdges_le father (Q := (popQueue st.Q).2)
        (u := (popQueue st.Q).1.2) (A := A) (m := m)
      rw [primPass_more hfather hnV]
      refine ⟨htree.setQueue _, hlight.setQueue _, hrooted.setQueue _, nofun,
        fun _ => ⟨⟨htree.setQueue _, ?_, hlight.setQueue _, hrooted.setQueue _⟩, by omega, ?_⟩⟩
      · exact h.frontier.addSon h.tree hsize rfl rfl hfather rfl rfl
      · have hm : m - F.labels.length
            = m - (F.addSon (popQueue st.Q).1.1 (popQueue st.Q).1.2).labels.length + 1 := by omega
        rw [hm, Nat.succ_mul]
        refine lt_of_le_of_lt (Nat.add_le_add_right (hadd _) _) ?_
        omega
  · rw [primPass_useless hfather]
    refine ⟨F, E, h.tree.setQueue _, h.light.setQueue _, h.rooted.setQueue _,
      nofun, fun _ => ⟨⟨h.tree.setQueue _, ?_, h.light.setQueue _,
        h.rooted.setQueue _⟩, hlt, by simp only; omega⟩⟩
    exact h.frontier.useless hsize hfather

theorem PrimInv.size_ne_zero (h : PrimInv hA st F E) (hlt : F.labels.length < m) :
    st.Q.size ≠ 0 := by
  intro hsize
  have hall : List.range m ⊆ F.labels := fun v hv => by
    by_contra hout
    obtain ⟨i, hi, hisize, -⟩ := h.frontier.crossing 0 h.tree.zero_mem v (List.mem_range.mp hv)
      (by_contra fun hne => hout ((h.tree.mem_iff v).mpr hne))
    omega
  have hle := (List.nodup_range.subperm hall).length_le
  rw [List.length_range] at hle
  omega

theorem abs_sum_edgeWeight_le {B : ℤ} (hB : ∀ i j : Fin m, |A i j| ≤ B) :
    |∑ e ∈ E, edgeWeight hA e| ≤ E.card * B := by
  refine (Finset.abs_sum_le_sum_abs _ _).trans ((Finset.sum_le_card_nsmul E _ B ?_).trans_eq
    (nsmul_eq_mul _ _))
  intro e _
  induction e with
  | _ i j => exact hB i j

/-- The total of at most `m - 1` weights does not overflow. -/
theorem PrimInv.no_overflow {B : ℤ} (h : PrimInv hA st F E) (hsize : st.Q.size ≠ 0)
    (hlt : F.labels.length < m) (hB : ∀ i j : Fin m, |A i j| ≤ B) (hm : (m - 1) * B < 2 ^ 31) :
    |st.w + A (popQueue st.Q).1.1 (popQueue st.Q).1.2| < 2 ^ 31 := by
  obtain ⟨hs, ht, -⟩ := h.frontier.popped hsize
  have hnew := hB ⟨_, h.tree.lt _ hs⟩ ⟨_, ht⟩
  have hsum : |∑ e ∈ E, edgeWeight hA e| ≤ E.card * B := abs_sum_edgeWeight_le hB
  have hB0 : 0 ≤ B := (abs_nonneg _).trans hnew
  have hcard : (E.card : ℤ) * B + B ≤ (m - 1) * B := by
    have := h.light.card
    rw [← add_one_mul]
    exact mul_le_mul_of_nonneg_right (by omega) hB0
  have hw : st.w = ∑ e ∈ E, edgeWeight hA e := by
    rw [h.light.weight, Int.bmod_eq_of_le] <;> rw [abs_le] at hsum <;> omega
  rw [hw]
  exact (abs_add_le _ _).trans_lt ((add_le_add hsum hnew).trans_lt (hcard.trans_lt hm))

theorem PrimInv.primLoop {fuel : ℕ} (h : PrimInv hA st F E) (hlt : F.labels.length < m)
    (hfuel : st.Q.size + (m - F.labels.length) * m < fuel) :
    ∃ st' F' E', primLoop A m fuel st = some st' ∧ Tree m st' F' ∧ LightEdges hA st' F' E' ∧
      Rooted st' F' ∧ m ≤ F'.labels.length := by
  induction fuel generalizing st F E with
  | zero => omega
  | succ fuel ih =>
    have hsize := h.size_ne_zero hlt
    obtain ⟨F', E', htree, hlight, hrooted, hend, hmore⟩ := h.pass hsize hlt
    rw [primLoop_succ, if_neg hsize]
    cases hflag : (primPass A m st).2 with
    | false =>
      rw [if_neg Bool.false_ne_true]
      exact ⟨_, F', E', rfl, htree, hlight, hrooted, hend hflag⟩
    | true =>
      obtain ⟨hinv, hlt', hmeasure⟩ := hmore hflag
      rw [if_pos rfl]
      exact ih hinv hlt' (by omega)

/-- The invariant holds of the root alone. -/
theorem PrimInv.start (hA : ∀ i j : Fin m, A i j = A j i) (hm : 0 < m) :
    PrimInv hA (primStart A m) (.node 0 .nil .nil) ∅ := by
  have hlabels : (Forest.node 0 .nil .nil : Forest ℕ).labels = [0] := rfl
  have hfather : ∀ v, (primStart A m).father v = if v = 0 then some 0 else none := fun v =>
    update_apply (fun _ => none) 0 (some 0) v
  have hempty : ∀ x, x ∉ Queue.edges { size := 0, edge := fun _ => (0, 0, 0) } := by
    rintro x ⟨i, hi, hisize, -⟩
    simp only at hisize
    omega
  have hQ : (primStart A m).Q = addAllEdges { size := 0, edge := fun _ => (0, 0, 0) } 0
    (primStart A m).father A m := rfl
  have hson : ∀ u v, v ≠ 0 → (primStart A m).father v ≠ some u := fun u v hv => by
    rw [hfather, if_neg hv]
    exact (Option.some_ne_none u).symm
  refine ⟨⟨⟨[], rfl, rfl, rfl⟩, List.nodup_singleton 0, fun v => ?_, fun v hv => ?_, fun v => ?_,
    fun _ _ => rfl, rfl⟩, ⟨?_, fun x hx => ?_, fun u hu v hv hnone => ?_, ?_⟩,
    ⟨fun e he => absurd he (Finset.notMem_empty e), promising_empty _, rfl, rfl, fun e => ?_⟩,
    ⟨fun u v huv => ?_, fun u => List.nodup_nil, fun u v => ?_, rfl,
      fun u v hv huv => absurd huv (hson u v hv), fun v _ => Nat.zero_le _, ⟨0, ?_, rfl⟩⟩⟩
  · rw [hlabels, List.mem_singleton, hfather]
    split_ifs with hv <;> simp [hv]
  · rw [hlabels, List.mem_singleton] at hv
    omega
  · rw [hfather]
    split_ifs with hv <;> simp [hv]
  · rw [hQ]
    refine addAllEdges_ordered (fun i hi hisize => ?_) 0 _ A m
    simp only at hisize
    omega
  · rw [hQ, mem_edges_addAllEdges] at hx
    rcases hx with hx | ⟨v, hv, -, -, rfl⟩
    · exact absurd hx (hempty x)
    · exact ⟨List.mem_singleton.mpr rfl, hv, rfl⟩
  · obtain rfl := List.mem_singleton.mp hu
    rw [hQ, mem_edges_addAllEdges]
    refine Or.inr ⟨v, hv, ?_, hnone, rfl⟩
    rintro rfl
    rw [hfather, if_pos rfl] at hnone
    cases hnone
  · have hadd := size_addAllEdges_le (primStart A m).father
      (Q := { size := 0, edge := fun _ => (0, 0, 0) }) (u := 0) (A := A) (m := m)
    rw [← hQ] at hadd
    simpa [hlabels] using hadd
  · refine iff_of_false (Finset.notMem_empty e) ?_
    rintro ⟨u, v, -, hv, huv⟩
    exact hson _ _ hv huv
  · rw [hfather] at huv
    split_ifs at huv with hv
    rw [hlabels, ← Option.some.inj huv]
    exact List.mem_singleton.mpr rfl
  · refine iff_of_false List.not_mem_nil ?_
    rintro ⟨hv, huv⟩
    exact hson u v hv huv
  · exact List.mem_singleton.mpr rfl

theorem PrimVisits.inv (hA : ∀ i j : Fin m, A i j = A j i) (hm : 2 ≤ m) (h : PrimVisits A m st) :
    ∃ F E, PrimInv hA st F E ∧ F.labels.length < m := by
  induction h with
  | start => exact ⟨_, _, PrimInv.start hA (by omega), hm⟩
  | pass h hsize hmore ih =>
    obtain ⟨F, E, hinv, hlt⟩ := ih
    obtain ⟨F', E', -, -, -, -, hnext⟩ := hinv.pass hsize hlt
    exact ⟨F', E', (hnext hmore).1, (hnext hmore).2.1⟩

end Invariant

/-! ## The memory of the queue -/

/-- The entries from `N` on hold something else. -/
def overlay (N : ℕ) (junk edge : ℕ → Edge) : ℕ → Edge :=
  fun i => if i < N then edge i else junk i

/-- A queue in a memory where the entries from `N` on hold something else. -/
def Queue.overlay (N : ℕ) (junk : ℕ → Edge) (Q : Queue) : Queue :=
  { Q with edge := Merge.overlay N junk Q.edge }

section Overlay

variable {N k size fuel u v m : ℕ} {junk edge : ℕ → Edge} {x : Edge} {w : ℤ} {Q : Queue}
  {father : ℕ → Option ℕ} {A : ℕ → ℕ → ℤ}

theorem overlay_of_lt (h : k < N) : overlay N junk edge k = edge k :=
  if_pos h

theorem update_overlay (h : k < N) :
    update (overlay N junk edge) k x = overlay N junk (update edge k x) := by
  funext i
  by_cases hik : i = k
  · rw [hik, update_self, overlay_of_lt h, update_self]
  · rw [update_of_ne hik, overlay, overlay, update_of_ne hik]

theorem upLoop_overlay (w : ℤ) (fuel : ℕ) (junk edge : ℕ → Edge) (h : k < N) :
    upLoop w fuel (overlay N junk edge) k
    = (overlay N junk (upLoop w fuel edge k).1, (upLoop w fuel edge k).2) ∧
      (upLoop w fuel edge k).2 < N := by
  induction fuel generalizing edge k with
  | zero => exact ⟨rfl, h⟩
  | succ fuel ih =>
    have hhalf : k / 2 < N := by omega
    simp only [upLoop, overlay_of_lt hhalf, update_overlay h]
    split_ifs
    · exact ih _ hhalf
    · exact ⟨rfl, h⟩

theorem addEdge_overlay (h : Q.size + 1 < N) :
    addEdge (Q.overlay N junk) u v w = (addEdge Q u v w).overlay N junk := by
  have hup := upLoop_overlay w (Q.size + 1) junk (update Q.edge (Q.size + 1) (u, v, w)) h
  simp [addEdge, upQueue, Queue.overlay, update_overlay h, hup.1, update_overlay hup.2]

theorem downLoop_overlay (w : ℤ) (fuel : ℕ) (junk edge : ℕ → Edge) (hsize : size < N) (h : k < N) :
    downLoop size w fuel (overlay N junk edge) k
      = (overlay N junk (downLoop size w fuel edge k).1, (downLoop size w fuel edge k).2) ∧
        (downLoop size w fuel edge k).2 < N := by
  induction fuel generalizing edge k with
  | zero => exact ⟨rfl, h⟩
  | succ fuel ih =>
    rw [downLoop, downLoop]
    split_ifs with hson
    · have hleft : 2 * k < N := by omega
      have hcond : (2 * k < size ∧ (overlay N junk edge (2 * k)).2.2
            > (overlay N junk edge (2 * k + 1)).2.2)
          ↔ (2 * k < size ∧ (edge (2 * k)).2.2 > (edge (2 * k + 1)).2.2) := by
        refine and_congr_right fun hlt => ?_
        rw [overlay_of_lt hleft, overlay_of_lt (by omega)]
      simp only [hcond]
      have hj : (if 2 * k < size ∧ (edge (2 * k)).2.2 > (edge (2 * k + 1)).2.2 then 2 * k + 1
          else 2 * k) < N := by
        split_ifs <;> omega
      generalize (if 2 * k < size ∧ (edge (2 * k)).2.2 > (edge (2 * k + 1)).2.2 then 2 * k + 1
        else 2 * k) = j at hj ⊢
      simp only [overlay_of_lt hj, update_overlay h]
      split_ifs
      · exact ⟨rfl, h⟩
      · exact ih _ hj
    · exact ⟨rfl, h⟩

theorem popQueue_overlay (junk : ℕ → Edge) (h : Q.size < N) (hone : 1 < N) :
    popQueue (Q.overlay N junk) = ((popQueue Q).1, (popQueue Q).2.overlay N junk) := by
  have hdown := downLoop_overlay (Q.edge Q.size).2.2 (Q.size - 1) junk
    (update Q.edge 1 (Q.edge Q.size)) (by omega : Q.size - 1 < N) hone
  simp [popQueue, downQueue, Queue.overlay, overlay_of_lt h, overlay_of_lt hone,
    update_overlay hone, hdown.1, update_overlay hdown.2]

theorem addAllEdges_overlay (junk : ℕ → Edge) (h : (addAllEdges Q u father A m).size < N) :
    addAllEdges (Q.overlay N junk) u father A m
      = (addAllEdges Q u father A m).overlay N junk := by
  induction m with
  | zero => rfl
  | succ m ih =>
    have hstep : ∀ Q, addAllEdges Q u father A (m + 1) = if m ≠ u ∧ father m = none
        then addEdge (addAllEdges Q u father A m) u m (A u m) else addAllEdges Q u father A m :=
      fun Q => by
        rw [addAllEdges, List.range_succ, List.foldl_append]
        rfl
    rw [hstep] at h ⊢
    rw [hstep]
    split_ifs at h ⊢ with hcond
    · rw [size_addEdge] at h
      rw [ih (by omega), addEdge_overlay h]
    · exact ih h

theorem primPass_overlay {st : Prim} (hone : 1 < N) (h : st.Q.size < N)
    (hnext : (primPass A m st).2 = true → (primPass A m st).1.Q.size < N) :
    primPass A m { st with Q := st.Q.overlay N junk }
      = ({ (primPass A m st).1 with Q := (primPass A m st).1.Q.overlay N junk },
          (primPass A m st).2) := by
  have hpop := popQueue_overlay junk h hone
  set st' : Prim := { st with Q := st.Q.overlay N junk } with hst'
  have htarget : st'.father (popQueue st'.Q).1.2 = st.father (popQueue st.Q).1.2 := by
    rw [hst', hpop]
  by_cases hfather : st.father (popQueue st.Q).1.2 = none
  · have hfather' : st'.father (popQueue st'.Q).1.2 = none := htarget.trans hfather
    by_cases hnV : st.nV = 1
    · rw [primPass_last hfather hnV, primPass_last hfather' hnV]
      simp only [hst', hpop]
      rfl
    · rw [primPass_more hfather hnV] at hnext ⊢
      rw [primPass_more hfather' hnV]
      simp only [hst', hpop]
      have hadd := addAllEdges_overlay junk (hnext rfl)
      exact congrArg (fun Q => (({ st with Q := Q } : Prim).addSon A (popQueue st.Q).1.1
        (popQueue st.Q).1.2, true)) hadd
  · have hfather' : st'.father (popQueue st'.Q).1.2 ≠ none := htarget.trans_ne hfather
    rw [primPass_useless hfather, primPass_useless hfather']
    simp [hst', hpop]

end Overlay

/-! ## The tree -/

section Result

variable {A : ℕ → ℕ → ℤ} {m : ℕ}

/-- The edges between the vertices and their fathers. -/
def Prim.graph (st : Prim) (m : ℕ) : SimpleGraph (Fin m) :=
  SimpleGraph.fromEdgeSet {e | ∃ u v : Fin m, e = s(u, v) ∧ v.1 ≠ 0 ∧ st.father v = some u.1}

/-- The arrays describe a spanning tree with root 0 that is a lightest one, and `w` is its weight
as an `int`. -/
structure IsMinimalTree (hA : ∀ i j : Fin m, A i j = A j i) (st : Prim) : Prop where
  father : ∀ v < m, ∃ u < m, st.father v = some u
  root : ∀ v, st.father v = some v ↔ v = 0
  sons_nodup : ∀ u, (st.sons u).Nodup
  mem_sons : ∀ u v, v ∈ st.sons u ↔ v ≠ 0 ∧ st.father v = some u
  height_root : st.height 0 = 0
  height_son : ∀ u v, v ≠ 0 → st.father v = some u → st.height v = st.height u + 1
  height_le : ∀ v < m, st.height v ≤ st.hmax
  height_max : ∃ v < m, st.height v = st.hmax
  tree : (st.graph m).IsTree
  weight : st.w = (weight (edgeWeight hA) (st.graph m)).bmod (2 ^ 32)
  minimal : ∀ T : SimpleGraph (Fin m), T.IsTree →
    SpanningTree.weight (edgeWeight hA) (st.graph m) ≤ SpanningTree.weight (edgeWeight hA) T

theorem isMinimalTree {hA : ∀ i j : Fin m, A i j = A j i} {st : Prim} {F : Forest ℕ}
    {E : Finset (Sym2 (Fin m))} (hm : 0 < m) (htree : Tree m st F) (hlight : LightEdges hA st F E)
    (hrooted : Rooted st F) (hlength : m ≤ F.labels.length) : IsMinimalTree hA st := by
  have hmem : ∀ v, v ∈ F.labels ↔ v < m := fun v => by
    rw [(htree.perm_of_length hlength).mem_iff, List.mem_range]
  have : Nonempty (Fin m) := ⟨⟨0, hm⟩⟩
  have hcard : E.card + 1 = Nat.card (Fin m) := by
    rw [hlight.card, Nat.card_eq_fintype_card, Fintype.card_fin]
    exact htree.length_le.antisymm hlength
  obtain ⟨T, hT, hset, hweight, hminimal⟩ := hlight.promising.minimal hcard
  have hgraph : st.graph m = T := by
    have hedges : {e | ∃ u v : Fin m, e = s(u, v) ∧ v.1 ≠ 0 ∧ st.father v = some u.1}
        = T.edgeSet := by
      rw [hset]
      exact Set.ext fun e => (hlight.mem_iff e).symm
    rw [Prim.graph, hedges, SimpleGraph.fromEdgeSet_edgeSet]
  obtain ⟨top, htop, hmax⟩ := hrooted.height_max
  refine ⟨fun v hv => ?_, htree.father_iff, hrooted.sons_nodup, hrooted.mem_sons,
    hrooted.height_zero, hrooted.height_son, fun v hv => hrooted.height_le v ((hmem v).mpr hv),
    ⟨top, (hmem top).mp htop, hmax⟩, hgraph ▸ hT, by rw [hgraph, hweight, hlight.weight],
    fun T' hT' => ?_⟩
  · obtain ⟨u, hu⟩ := Option.ne_none_iff_exists'.mp ((htree.mem_iff v).mp ((hmem v).mpr hv))
    exact ⟨u, (hmem u).mp (hrooted.father_mem u v hu), hu⟩
  · rw [hgraph]
    exact hminimal T' hT'

/-- The loop ends with a lightest spanning tree, and `w` is its weight if that is an `int`.  In each
pass the queue fits in its memory, the pass does not use what lies behind it, a lightest edge leaves
the queue, and `w` does not overflow if `m - 1` weights never do. -/
theorem minimalSpanningTreeWithPrim_minimal (hm : 2 ≤ m) (hmax : m ≤ mergeLevelMax)
    (hA : ∀ i j : Fin m, A i j = A j i) :
    (∃ st, minimalSpanningTreeWithPrim A m = some st ∧ IsMinimalTree hA st ∧
        (st.w = weight (edgeWeight hA) (st.graph m) ↔
          -2 ^ 31 ≤ weight (edgeWeight hA) (st.graph m) ∧
            weight (edgeWeight hA) (st.graph m) < 2 ^ 31)) ∧
      ∀ st, PrimVisits A m st → st.Q.size < mergeLevelMax ^ 2 ∧
        (∀ junk, primPass A m { st with Q := st.Q.overlay (mergeLevelMax ^ 2) junk }
          = ({ (primPass A m st).1 with
                Q := (primPass A m st).1.Q.overlay (mergeLevelMax ^ 2) junk },
              (primPass A m st).2)) ∧
        (∃ w, ((popQueue st.Q).1.1, (popQueue st.Q).1.2, w) ∈ st.Q.edges ∧
          w = A (popQueue st.Q).1.1 (popQueue st.Q).1.2 ∧ ∀ x ∈ st.Q.edges, w ≤ x.weight) ∧
        ∀ B : ℤ, (∀ i j : Fin m, |A i j| ≤ B) → (m - 1) * B < 2 ^ 31 →
          |st.w + A (popQueue st.Q).1.1 (popQueue st.Q).1.2| < 2 ^ 31 := by
  constructor
  · have hstart := PrimInv.start hA (by omega : 0 < m)
    have hfuel : (primStart A m).Q.size
        + (m - (Forest.node 0 .nil .nil : Forest ℕ).labels.length) * m < m * m + 1 := by
      have hlabels : (Forest.node 0 .nil .nil : Forest ℕ).labels.length = 1 := rfl
      have hle := hstart.frontier.size_le
      have hmul : m * m = (m - 1) * m + m := by
        rw [← Nat.succ_mul, Nat.succ_eq_add_one, Nat.sub_add_cancel (by omega)]
      rw [hlabels] at hle ⊢
      omega
    obtain ⟨st, F, E, hrun, htree, hlight, hrooted, hlength⟩ := hstart.primLoop hm hfuel
    have hminimal := isMinimalTree (by omega) htree hlight hrooted hlength
    refine ⟨st, hrun, hminimal, ?_⟩
    rw [hminimal.weight]
    refine ⟨fun h => h ▸ ⟨Int.le_bmod (by decide), Int.bmod_lt (by decide)⟩,
      fun ⟨hlow, hhigh⟩ => Int.bmod_eq_of_le (by omega) (by omega)⟩
  · intro st hst
    have hsize : ∀ st, PrimVisits A m st → st.Q.size < mergeLevelMax ^ 2 := fun st hst => by
      obtain ⟨F, E, hinv, hlt⟩ := hst.inv hA hm
      calc st.Q.size ≤ F.labels.length * m := hinv.frontier.size_le
        _ < m * m := Nat.mul_lt_mul_of_pos_right hlt (by omega)
        _ ≤ mergeLevelMax ^ 2 := by rw [sq]; exact Nat.mul_le_mul hmax hmax
    obtain ⟨F, E, hinv, hlt⟩ := hst.inv hA hm
    have hne := hinv.size_ne_zero hlt
    refine ⟨hsize st hst, fun junk => ?_, ⟨_, edge_one_mem hne,
      (hinv.frontier.popped hne).2.2, fun x hx => hinv.frontier.heap.least hx⟩,
      fun B => hinv.no_overflow hne hlt⟩
    exact primPass_overlay (by decide) (hsize st hst) fun hmore => hsize _ (.pass hst hne hmore)

theorem minimalSpanningTreeWithPrim_minimal_three :
    2 ≤ 3 ∧ 3 ≤ mergeLevelMax ∧ ∃ (hA : ∀ i j : Fin 3, ((i : ℕ) + (j : ℕ) : ℤ) = (j : ℕ) + (i : ℕ))
      (st : Prim), minimalSpanningTreeWithPrim (fun i j => i + j) 3 = some st ∧
        IsMinimalTree (A := fun i j => i + j) hA st := by
  have hA : ∀ i j : Fin 3, ((i : ℕ) + (j : ℕ) : ℤ) = (j : ℕ) + (i : ℕ) := fun i j => add_comm _ _
  obtain ⟨⟨st, hrun, htree, -⟩, -⟩ := minimalSpanningTreeWithPrim_minimal
    (A := fun i j => (i : ℤ) + (j : ℤ)) (m := 3) (by decide) (by decide) hA
  exact ⟨by decide, by decide, hA, st, hrun, htree⟩

/-- With four vertices and weights `2 ^ 30`, the total overflows. -/
theorem not_minimalSpanningTreeWithPrim_weight :
    ¬∀ (A : ℕ → ℕ → ℤ) (m : ℕ) (hA : ∀ i j : Fin m, A i j = A j i), 2 ≤ m → m ≤ mergeLevelMax →
      (∀ i j, -2 ^ 31 ≤ A i j ∧ A i j < 2 ^ 31) →
      ∃ st, minimalSpanningTreeWithPrim A m = some st ∧
        st.w = weight (edgeWeight hA) (st.graph m) := by
  intro h
  let A : ℕ → ℕ → ℤ := fun i j => if i = j then 0 else 2 ^ 30
  have hA : ∀ i j : Fin 4, A i j = A j i := by decide
  have hbound : ∀ i j, 0 ≤ A i j ∧ A i j < 2 ^ 31 := fun i j => by
    simp only [A]
    split_ifs <;> omega
  obtain ⟨st, hrun, hw⟩ := h A 4 hA (by decide) (by decide) fun i j =>
    ⟨by have := hbound i j; omega, (hbound i j).2⟩
  have hneg : st.w = -2 ^ 30 := by
    have hrun' : (minimalSpanningTreeWithPrim A 4).map Prim.w = some (-2 ^ 30) := by decide
    rw [hrun] at hrun'
    exact Option.some.inj hrun'
  have hnonneg : 0 ≤ weight (edgeWeight hA) (st.graph 4) :=
    Finset.sum_nonneg fun e _ => by
      induction e with
      | _ i j => exact (hbound i j).1
  omega

example : (minimalSpanningTreeWithPrim (fun i j => i + j) 3).map (fun st => (st.w, st.sons 0))
    = some (3, [1, 2]) := by
  decide

end Result

end CadoNfs.Merge
