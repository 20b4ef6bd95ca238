import Mathlib.Combinatorics.SimpleGraph.Acyclic

/-!
# Light spanning trees

An algorithm that grows a tree edge by edge takes a lightest edge across a cut.  What it has
taken so far then lies in a tree that is no heavier than any given one.

Main results:

- Theorem `exists_exchange`: an edge across a cut replaces an edge of a tree across it.
- Theorem `Promising.insert_edge`: a lightest edge across a cut can be taken.
- Theorem `Promising.minimal`: enough edges are a lightest spanning tree.
-/

namespace SpanningTree

open SimpleGraph

variable {V R : Type*} [Finite V] [AddCommMonoid R]

/-- The sum of the weights of the edges. -/
noncomputable def weight (w : Sym2 V → R) (T : SimpleGraph V) : R :=
  ∑ e ∈ (Set.toFinite T.edgeSet).toFinset, w e

/-- For any spanning tree there is one that is no heavier and has the edges `E`. -/
def Promising [LE R] (w : Sym2 V → R) (E : Finset (Sym2 V)) : Prop :=
  ∀ T : SimpleGraph V, T.IsTree →
    ∃ T' : SimpleGraph V, T'.IsTree ∧ ↑E ⊆ T'.edgeSet ∧ weight w T' ≤ weight w T

variable {w : Sym2 V → R} {E : Finset (Sym2 V)} {T : SimpleGraph V} {S : Set V} {s t : V}

theorem weight_eq (h : T.edgeSet = ↑E) : weight w T = ∑ e ∈ E, w e := by
  refine Finset.sum_congr ?_ fun _ _ => rfl
  ext e
  rw [Set.Finite.mem_toFinset, h, Finset.mem_coe]

theorem promising_empty [Preorder R] (w : Sym2 V → R) : Promising w ∅ := fun T hT =>
  ⟨T, hT, by simp, le_rfl⟩

/-- The path of the tree between the ends of an edge across a cut crosses the cut.  The edge
there can be replaced. -/
theorem exists_exchange (hT : T.IsTree) (hs : s ∈ S) (ht : t ∉ S) :
    ∃ x ∈ S, ∃ y, y ∉ S ∧ s(x, y) ∈ T.edgeSet ∧ s(s, t) ∉ T.edgeSet \ {s(x, y)} ∧
      ∃ T' : SimpleGraph V, T'.IsTree ∧
        T'.edgeSet = insert s(s, t) (T.edgeSet \ {s(x, y)}) := by
  have hst : s ≠ t := by
    rintro rfl
    exact ht hs
  by_cases hadj : T.Adj s t
  · refine ⟨s, hs, t, ht, hadj, fun h => h.2 rfl, T, hT, ?_⟩
    rw [Set.insert_sdiff_singleton, Set.insert_eq_of_mem (T.mem_edgeSet.mpr hadj)]
  obtain ⟨p, hp, -⟩ := hT.existsUnique_path s t
  obtain ⟨d, hd, hx, hy⟩ := p.exists_boundary_dart S hs ht
  have hedge : s(d.fst, d.snd) ∈ p.edges := List.mem_map.mpr ⟨d, hd, rfl⟩
  have hold : s(d.fst, d.snd) ∈ T.edgeSet := p.edges_subset_edgeSet hedge
  refine ⟨d.fst, hx, d.snd, hy, hold, fun h => hadj h.1, ?_⟩
  -- with the new edge there is a cycle through the old one
  set G := T ⊔ edge s t with hG
  have hne : s(s, t) ≠ s(d.fst, d.snd) := fun h => hadj (h ▸ hold : s(s, t) ∈ T.edgeSet)
  have hbridge : ¬G.IsBridge s(d.fst, d.snd) := by
    intro h
    have hpath : (p.mapLe (le_sup_left : T ≤ G)).IsPath := hp.mapLe _
    have hback : G.Adj t s := (sup_adj ..).mpr (Or.inr (by simp [edge_adj, hst.symm]))
    have hnot : s(t, s) ∉ (p.mapLe (le_sup_left : T ≤ G)).edges := by
      rw [Walk.edges_mapLe_eq_edges]
      intro hmem
      exact hadj (T.mem_edgeSet.mp (p.edges_subset_edgeSet hmem)).symm
    have hcycle := Path.cons_isCycle ⟨_, hpath⟩ hback hnot
    refine h.notMem_edges_of_isCycle hcycle ?_
    rw [Walk.edges_cons, Walk.edges_mapLe_eq_edges]
    exact List.mem_cons_of_mem _ hedge
  have hconnected : (G.deleteEdges {s(d.fst, d.snd)}).Connected :=
    (hT.connected.mono le_sup_left).connected_delete_edge_of_not_isBridge hbridge
  have hset : (G.deleteEdges {s(d.fst, d.snd)}).edgeSet
      = insert s(s, t) (T.edgeSet \ {s(d.fst, d.snd)}) := by
    rw [edgeSet_deleteEdges, hG, edgeSet_sup, edgeSet_edge_of_ne hst, Set.union_singleton,
      Set.insert_sdiff_of_notMem _ (by simpa using hne)]
  refine ⟨_, isTree_iff_connected_and_card.mpr ⟨hconnected, ?_⟩, hset⟩
  rw [hset, ← (isTree_iff_connected_and_card.mp hT).2]
  exact congrArg (· + 1) (Set.ncard_exchange hadj hold)

/-- A lightest edge across a cut that no edge crosses so far. -/
theorem Promising.insert_edge [DecidableEq V] [PartialOrder R] [IsOrderedAddMonoid R]
    (h : Promising w E) (hE : ∀ e ∈ E, ∀ v ∈ e, v ∈ S) (hs : s ∈ S) (ht : t ∉ S)
    (hleast : ∀ x ∈ S, ∀ y, y ∉ S → w s(s, t) ≤ w s(x, y)) :
    Promising w (insert s(s, t) E) := by
  intro T hT
  obtain ⟨T₁, hT₁, hsub, hle⟩ := h T hT
  obtain ⟨x, hx, y, hy, hold, hnew, T₂, hT₂, hset⟩ := exists_exchange hT₁ hs ht
  refine ⟨T₂, hT₂, ?_, le_trans ?_ hle⟩
  · rw [hset, Finset.coe_insert]
    refine Set.insert_subset_insert fun e he => ⟨hsub he, ?_⟩
    rintro rfl
    exact hy (hE _ he y (Sym2.mem_mk_right x y))
  · set E₁ := (Set.toFinite T₁.edgeSet).toFinset with hE₁
    have hmem : s(x, y) ∈ E₁ := (Set.Finite.mem_toFinset _).mpr hold
    have hfin : T₂.edgeSet = ↑(insert s(s, t) (E₁.erase s(x, y))) := by
      rw [hset, Finset.coe_insert, Finset.coe_erase, hE₁, Set.Finite.coe_toFinset]
    have hnot : s(s, t) ∉ E₁.erase s(x, y) := by
      rw [← Finset.mem_coe, Finset.coe_erase, hE₁, Set.Finite.coe_toFinset]
      exact hnew
    rw [weight_eq hfin, Finset.sum_insert hnot, weight, ← hE₁, ← Finset.add_sum_erase E₁ w hmem]
    exact add_le_add_left (hleast x hx y hy) _

/-- One edge less than vertices: the edges are a spanning tree, and none is lighter. -/
theorem Promising.minimal [Nonempty V] [PartialOrder R] (h : Promising w E)
    (hcard : E.card + 1 = Nat.card V) : ∃ T : SimpleGraph V, T.IsTree ∧ T.edgeSet = ↑E ∧
      weight w T = ∑ e ∈ E, w e ∧ ∀ T' : SimpleGraph V, T'.IsTree → weight w T ≤ weight w T' := by
  have hunique : ∀ T' : SimpleGraph V, T'.IsTree → ↑E ⊆ T'.edgeSet → T'.edgeSet = ↑E := by
    intro T' hT' hsub
    have hcard' := (isTree_iff_connected_and_card.mp hT').2
    refine (Set.eq_of_subset_of_ncard_le hsub ?_ (Set.toFinite _)).symm
    rw [Set.ncard_coe_finset]
    exact Nat.le_of_add_le_add_right (hcard'.trans hcard.symm).le
  obtain ⟨T₀, -, hT₀⟩ := (connected_top (V := V)).exists_isTree_le
  obtain ⟨T, hT, hsub, -⟩ := h T₀ hT₀
  refine ⟨T, hT, hunique T hT hsub, weight_eq (hunique T hT hsub), fun T' hT' => ?_⟩
  obtain ⟨T'', hT'', hsub'', hle⟩ := h T' hT'
  rwa [weight_eq (hunique T hT hsub), ← weight_eq (hunique T'' hT'' hsub'')]

end SpanningTree
