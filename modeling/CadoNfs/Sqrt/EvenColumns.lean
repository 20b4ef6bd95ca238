import Mathlib.Algebra.BigOperators.Ring.Nat
import CadoNfs.Sqrt.Dependencies

/-!
# What a dependency is for

The kernel is that of the small matrix that `replay` made, while `sqrt` follows the index
file back to the pairs `(a, b)`.

Main results:

- Theorem `createDependencies_even`: the pairs of a kernel vector meet every column of the
  purged matrix an even number of times.
-/

namespace CadoNfs.Sqrt

open Replay
open Finset (mem_filter mem_range range)

section Hits

variable {rows purged : List (List ℕ)} {ker : ByteFile} {n nrows b j : ℕ} {small : ℕ → List ℕ}

theorem sum_count_mul_ite (p : ℕ → Prop) [DecidablePred p] {row : List ℕ}
    (hrow : ∀ i ∈ row, i < nrows) :
    ∑ i ∈ range nrows, row.count i * (if p i then 1 else 0) = row.countP p := by
  rw [sum_range_count_mul _ hrow]
  clear hrow
  induction row with
  | nil => rfl
  | cons a row ih => simp [List.countP_cons, ih, add_comm]

/-- Every hit comes from a row of the small matrix. -/
theorem sum_hits_mul (p : ℕ → Prop) [DecidablePred p] (hrows : ∀ row ∈ rows, ∀ i ∈ row, i < nrows) :
    ∑ i ∈ range nrows, hits rows ker n i b * (if p i then 1 else 0)
      = ∑ nb ∈ range rows.length, if kerBit ker n nb b then (rows.getD nb []).countP p else 0 := by
  induction rows using List.reverseRecOn with
  | nil => simp [hits]
  | append_singleton rows row ih =>
    obtain ⟨hrows, hrow⟩ := List.forall_mem_append.mp hrows
    have hsum := sum_count_mul_ite p (hrow row (List.mem_singleton_self row))
    simp only [hits_append, add_mul, Finset.sum_add_distrib, ih hrows]
    rw [List.length_append, List.length_singleton, Finset.sum_range_succ,
      List.getD_append_right _ _ _ _ le_rfl, Nat.sub_self, List.getD_cons_zero, ← hsum]
    congr 1
    · refine Finset.sum_congr rfl fun nb hnb => ?_
      rw [List.getD_append _ _ _ _ (mem_range.mp hnb)]
    · split_ifs <;> simp

/-- A column is met an even number of times by the rows with an odd number of hits, if this
is so for the chosen rows of the small matrix. -/
theorem even_hits (hrows : ∀ row ∈ rows, ∀ i ∈ row, i < nrows)
    (hsmall : ∀ nb, j ∈ small nb ↔ OddIn purged (rows.getD nb []) j)
    (hkernel : Even (Finset.card {nb ∈ range rows.length | kerBit ker n nb b ∧ j ∈ small nb})) :
    Even (Finset.card {i ∈ range nrows | Odd (hits rows ker n i b) ∧ j ∈ purged.getD i []}) := by
  have hbig := Finset.even_sum_iff_even_card_odd (s := range nrows)
    fun i => hits rows ker n i b * if j ∈ purged.getD i [] then 1 else 0
  rw [sum_hits_mul _ hrows, Finset.even_sum_iff_even_card_odd] at hbig
  have hchosen : ∀ nb, Odd (if kerBit ker n nb b then
      (rows.getD nb []).countP fun i => j ∈ purged.getD i [] else 0) ↔
        kerBit ker n nb b ∧ j ∈ small nb := by
    intro nb
    rw [hsmall, OddIn, ← Nat.odd_iff]
    split_ifs with h <;> simp [h]
  have hhit : ∀ i, Odd (hits rows ker n i b * if j ∈ purged.getD i [] then 1 else 0) ↔
      Odd (hits rows ker n i b) ∧ j ∈ purged.getD i [] := by
    intro i
    split_ifs with h <;> simp only [h, mul_one, mul_zero, Nat.not_odd_zero, and_true, and_false]
  simp only [hchosen, hhit] at hbig
  exact hbig.mp hkernel

end Hits

section Files

variable {pre : List Char} {ker : ByteFile} {purged : List (List ℕ)}
  {newrows : List (Option (List ℕ))} {n ncols smallNcols : ℕ} {lines : List PurgedLine}

theorem indexRows_makeIndexFile (hsize : (newRelations newrows).length < 2 ^ 32)
    (hncols : smallNcols < 2 ^ 32)
    (hrows : ∀ row ∈ newRelations newrows, row.length < 2 ^ 32 ∧ ∀ i ∈ row, i < 2 ^ 32) :
    indexRows (makeIndexFile newrows (newRelations newrows).length smallNcols)
      = some (newRelations newrows) := by
  rw [indexRows, makeIndexFile_eq, scanInt_toDigits (by decide) (by decide) hsize
    (stops_of_space (Or.inl rfl) _)]
  simp only [Option.bind_eq_bind, Option.bind_some]
  rw [scanInt_space 10 (Or.inl rfl), scanInt_toDigits (by decide) (by decide) hncols
    (stops_indexLines _)]
  exact scanRows_indexLines hrows

/-- For the small matrix and the index file of `replay`, and a kernel whose 64 columns are
dependencies of the small matrix: each file that `sqrt -ab` writes has the pairs of a set of rows
of the purged matrix, not empty, in which every column occurs an even number of times. -/
theorem createDependencies_even (hlength : newrows.length = purged.length)
    (hpurged : ∀ cols ∈ purged, cols.Nodup ∧ ∀ j ∈ cols, j < ncols)
    (hrows : ∀ row ∈ newRelations newrows, row.Nodup ∧ ∀ i ∈ row, i < purged.length)
    (hne : newRelations newrows ≠ []) (hnrows : purged.length < 2 ^ 31) (hncols : ncols < 2 ^ 31)
    (hsmall : smallNcols < 2 ^ 31) (hsize : ker.size = (newRelations newrows).length * n)
    (hn : 8 ≤ n) (hn' : n < 2 ^ 32) (hlines : ∀ line ∈ lines, line.Valid)
    (hcount : (lines.filterMap PurgedLine.pair).length = purged.length) :
    ∃ mat, replayMat purged ncols newrows = some mat ∧
      ((∀ b < 64, ∀ j, Even (Finset.card {nb ∈ range (newRelations newrows).length |
          kerBit ker n nb b ∧ j ∈ mat.row nb})) →
        ∃ deps : List (Finset ℕ), createDependencies pre
            (makeIndexFile newrows (newRelations newrows).length smallNcols)
            (purgedText purged.length ncols lines) ker
            = some (deps.mapIdx fun k dep => (depName pre k,
              ((lines.filterMap PurgedLine.pair).zipIdx.filter fun x => x.2 ∈ dep).flatMap fun x =>
                pairLine x.1.1 x.1.2)) ∧
          ∀ dep ∈ deps, dep.Nonempty ∧ dep ⊆ range purged.length ∧
            ∀ j, Even (Finset.card {i ∈ dep | j ∈ purged.getD i []})) := by
  have hbound : ∀ row ∈ newRelations newrows, ∀ i ∈ row, i < purged.length :=
    fun row hrow => (hrows row hrow).2
  obtain ⟨old, -, -, hreplay, hrow⟩ := replayMat_spec hlength hpurged hbound
  have hle : (newRelations newrows).length ≤ newrows.length := List.length_filterMap_le _ _
  have hshort : ∀ row ∈ newRelations newrows, row.length ≤ purged.length := fun row hrow => by
    have hsubset : row ⊆ List.range purged.length := fun i hi =>
      List.mem_range.mpr (hbound row hrow i hi)
    simpa using ((hrows row hrow).1.subperm hsubset).length_le
  have hindex := @indexRows_makeIndexFile newrows smallNcols (by omega) (by omega)
    fun row hrow => ⟨by have := hshort row hrow; omega,
      fun i hi => by have := hbound row hrow i hi; omega⟩
  refine ⟨_, hreplay, fun hkernel => ?_⟩
  obtain ⟨abs, hbits, hfiles⟩ := @createDependencies_masks pre _ _ _ _ _ _ _ hindex hne
    hbound hsize hn hn' hnrows hncols hlines hcount
  refine ⟨((List.range 64).filter fun b => ∃ i < purged.length,
    Odd (hits (newRelations newrows) ker n i b)).map fun b =>
      {i ∈ range purged.length | Odd (hits (newRelations newrows) ker n i b)}, ?_, ?_⟩
  · rw [hfiles]
    refine congrArg some (List.ext_getElem (by simp) fun k hk hk' => ?_)
    simp only [List.getElem_mapIdx, List.getElem_map, flatMap_filter]
    rw [List.length_mapIdx, List.length_map] at hk'
    have hb := List.mem_range.mp (List.mem_of_mem_filter (List.getElem_mem hk'))
    refine congrArg (Prod.mk _) (List.flatMap_congr fun x hx => ?_)
    have hlt := List.snd_lt_of_mem_zipIdx hx
    rw [hcount, add_zero] at hlt
    simp [and_one_shift_ne_zero_iff_odd hb (hbits x.2 _ hb), hlt]
  · intro dep hdep
    obtain ⟨b, hb, rfl⟩ := List.mem_map.mp hdep
    obtain ⟨hb, hset⟩ := List.mem_filter.mp hb
    obtain ⟨i, hi, hodd⟩ := of_decide_eq_true hset
    refine ⟨⟨i, mem_filter.mpr ⟨mem_range.mpr hi, hodd⟩⟩, Finset.filter_subset _ _, fun j => ?_⟩
    rw [Finset.filter_filter]
    exact even_hits hbound (fun nb => (hrow nb).2 j)
      (hkernel b (List.mem_range.mp hb) j)

/-- Two relations with the same column, whose sum is a row without columns. -/
theorem createDependencies_even_two : ∃ deps : List (Finset ℕ),
    createDependencies ['d'] (makeIndexFile [some [0, 1], none] 1 0)
      (purgedText 2 1 [.relation 0 (-5) 3 [], .relation 1 8 9 []])
      ⟨8, fun k => if k = 0 then 1#8 else 0#8⟩
      = some (deps.mapIdx fun k dep => (depName ['d'] k,
        ([((-5, 3), 0), ((8, 9), 1)].filter fun x => x.2 ∈ dep).flatMap fun x =>
          pairLine x.1.1 x.1.2)) ∧
      ∀ dep ∈ deps, dep.Nonempty ∧ dep ⊆ range 2 ∧
        ∀ j, Even (Finset.card {i ∈ dep | j ∈ [[0], [0]].getD i []}) := by
  obtain ⟨mat, hreplay, hdeps⟩ := @createDependencies_even ['d']
    ⟨8, fun k => if k = 0 then 1#8 else 0#8⟩ [[0], [0]] [some [0, 1], none] 8 1 0
    [.relation 0 (-5) 3 [], .relation 1 8 9 []] rfl (by decide) (by decide) (by decide)
    (by decide) (by decide) (by decide) rfl le_rfl (by decide) (by simp [PurgedLine.Valid]) rfl
  have hrow : (replayMat [[0], [0]] 1 [some [0, 1], none]).map (·.row 0) = some [] := by
    decide +kernel
  rw [hreplay, Option.map_some, Option.some.injEq] at hrow
  refine hdeps fun b _ j => ?_
  simp [newRelations, hrow, Finset.filter_singleton]

end Files

end CadoNfs.Sqrt
