import Mathlib.Algebra.BigOperators.Intervals
import Mathlib.Algebra.Order.BigOperators.Group.Finset
import Mathlib.Data.Set.Card

/-!
# Singleton removal

`purge` deletes relations that contain a prime no other relation contains, until there
is none left.  Relations are lists of addresses in the hash table; of the table only the
counters matter here.

Main results:

- Theorem `dropRelation_spec`: deleting a relation keeps the counters exact.
- Theorem `removeSingletons_rule`: what each deletion keeps, the loop keeps.
- Theorem `removeSingletons_greatest`: what is left is the largest set of relations in
  which each prime occurs twice.
-/

namespace CadoNfs.Purge

open Function (update update_apply update_self)

/-! ## The state -/

/-- The counters, the bits `rel_used`, the lists `rel_compact` (`none` for
`NULL`) and the two totals.  The `log`, which the source does not have, notes each
deleted relation with the excess after its deletion. -/
structure PurgeState where
  hashcount : ℕ → ℤ
  relUsed : ℕ → Bool
  relCompact : ℕ → Option (List ℕ)
  nrel : ℤ
  nprimes : ℤ
  log : List (ℕ × ℤ)

/-- `nrel - nprimes`. -/
def PurgeState.excess (state : PurgeState) : ℤ :=
  state.nrel - state.nprimes

/-- `has_singleton`. -/
def hasSingleton (tab : List ℕ) (hashcount : ℕ → ℤ) : Bool :=
  tab.any fun h => hashcount h = 1

/-- The loop of `delete_relation` over the primes of a relation. -/
def removeOccurrences (tab : List ℕ) (hashcount : ℕ → ℤ) (nprimes : ℤ) : (ℕ → ℤ) × ℤ :=
  match tab with
  | [] => (hashcount, nprimes)
  | h :: tab =>
    let hashcount := update hashcount h (hashcount h - 1)
    removeOccurrences tab hashcount (nprimes - if hashcount h = 0 then 1 else 0)

/-- `delete_relation`. -/
def deleteRelation (i : ℕ) (state : PurgeState) : Option PurgeState := do
  let tab ← state.relCompact i
  let (hashcount, nprimes) := removeOccurrences tab state.hashcount state.nprimes
  return { state with
    hashcount := hashcount, nprimes := nprimes,
    relCompact := update state.relCompact i none,
    relUsed := update state.relUsed i false }

/-- `delete_relation` and `*nrel -= 1`, which always follows. -/
def dropRelation (i : ℕ) (state : PurgeState) : Option PurgeState := do
  let state ← deleteRelation i state
  return { state with
    nrel := state.nrel - 1, log := state.log ++ [(i, state.nrel - 1 - state.nprimes)] }

/-- `onepass_singleton_removal` at relation `i`. -/
def onepassStep (state : PurgeState) (i : ℕ) : Option PurgeState :=
  if state.relUsed i then do
    let tab ← state.relCompact i
    if hasSingleton tab state.hashcount then dropRelation i state else some state
  else
    some state

/-- `onepass_singleton_removal`. -/
def onepassSingletonRemoval (nrelmax : ℕ) (state : PurgeState) : Option PurgeState :=
  (List.range nrelmax).foldlM onepassStep state

/-- What `compute_connected_component` reads and writes: the bits `T`, the number of
rows `n` and the weight `w` of the component.  The list `visits`, which the
source does not have, notes the rows in the order of the calls, the last one first. -/
structure Visit where
  T : ℕ → Bool
  n : ℕ
  w : ℕ
  visits : List ℕ

/-- `compute_connected_component` at row `i`.  The fuel is the depth of the
recursion; reading a bit of `T` past its end has no result. -/
def computeConnectedComponent (hashcount : ℕ → ℤ) (relCompact : ℕ → Option (List ℕ))
    (sum : ℕ → ℕ) (nrelmax : ℕ) : ℕ → (ℕ → Bool) → List ℕ → ℕ → Option Visit
  | 0, _, _, _ => none
  | fuel + 1, T, visits, i => do
    let tab ← relCompact i
    let visit ← tab.foldlM (fun (visit : Visit) h =>
      if hashcount h = 2 then
        let k := (sum h + 2 ^ 32 - i % 2 ^ 32) % 2 ^ 32
        if nrelmax ≤ k then none
        else if visit.T k then some visit
        else do
          let next ← computeConnectedComponent hashcount relCompact sum nrelmax fuel
            visit.T visit.visits k
          return { next with n := visit.n + next.n, w := visit.w + next.w }
      else some visit)
      { T := update T i true, n := 1, w := 0, visits := i :: visits }
    return { visit with w := visit.w + tab.length }

/-- An entry of the table `tmp`: the number of rows and the weight of a component, which
determine its cost, and its first row. -/
structure Comp where
  n : ℕ
  w : ℕ
  i : ℕ

/-- The first loop of `deleteHeavierRows`: the sums of row numbers, `N` and
`W`. -/
def collectSums (nrelmax : ℕ) (state : PurgeState) : Option ((ℕ → ℕ) × ℕ × ℕ) :=
  (List.range nrelmax).foldlM (fun (sum, N, W) i =>
    if state.relUsed i then do
      let tab ← state.relCompact i
      let sum := tab.foldl (fun sum h =>
        if state.hashcount h = 2 then update sum h ((sum h + i) % 2 ^ 32) else sum) sum
      return (sum, N + 1, W + tab.length)
    else some (sum, N, W)) (fun _ => 0, 0, 0)

/-- The second loop of `deleteHeavierRows` at row `i`: the bits `T`, with the
rows visited so far, and the table of the components. -/
def componentStep (nrelmax : ℕ) (state : PurgeState) (sum : ℕ → ℕ)
    (table : (ℕ → Bool) × List ℕ × List Comp) (i : ℕ) :
    Option ((ℕ → Bool) × List ℕ × List Comp) :=
  let (T, visits, tmp) := table
  if state.relUsed i && !T i then do
    let visit ← computeConnectedComponent state.hashcount state.relCompact sum nrelmax
      (nrelmax + 1) T visits i
    return (visit.T, visit.visits, tmp ++ [{ n := visit.n, w := visit.w, i := i }])
  else some table

/-- The second loop of `deleteHeavierRows`. -/
def collectComponents (nrelmax : ℕ) (state : PurgeState) (sum : ℕ → ℕ) :
    Option ((ℕ → Bool) × List ℕ × List Comp) :=
  (List.range nrelmax).foldlM (componentStep nrelmax state sum) (fun _ => false, [], [])

/-- The last loop of `deleteHeavierRows`. -/
def deleteDownTo (target : ℤ) (tmp : List Comp) (state : PurgeState) : Option PurgeState :=
  match tmp with
  | [] => some state
  | comp :: tmp =>
    if state.excess > target then do
      let state ← dropRelation comp.i state
      deleteDownTo target tmp state
    else some state

/-- `deleteHeavierRows`.  The function `qsort` orders the components, whose costs
depend on `N` and `W`; the sum of two `int` wraps. -/
def deleteHeavierRows (qsort : ℕ → ℕ → List Comp → List Comp) (nrelmax : ℕ) (keep : ℤ)
    (state : PurgeState) : Option PurgeState :=
  if state.excess ≤ keep then some state
  else do
    let (sum, N, W) ← collectSums nrelmax state
    if (N : ℤ) ≠ state.nrel then none
    else do
      let (_, _, tmp) ← collectComponents nrelmax state sum
      deleteDownTo (((state.excess + keep).bmod (2 ^ 32)).tdiv 2) (qsort N W tmp) state

/-- The loop of `remove_singletons`.  The fuel is the number of rounds. -/
def removeSingletons (qsort : ℕ → ℕ → List Comp → List Comp) (nrelmax : ℕ) (keep : ℤ)
    (final : Bool) (fuel : ℕ) (state : PurgeState) : Option PurgeState :=
  match fuel with
  | 0 => none
  | fuel + 1 => do
    let old := state.nrel
    let state ← (if final then deleteHeavierRows qsort nrelmax keep state else some state)
    let state ← onepassSingletonRemoval nrelmax state
    if state.nrel ≠ old then removeSingletons qsort nrelmax keep final fuel state else some state

/-! ## Exact counters -/

/-- The relations in use. -/
def usedSet (nrelmax : ℕ) (state : PurgeState) : Finset ℕ :=
  (Finset.range nrelmax).filter fun i => state.relUsed i = true

/-- How often a prime occurs in a set of relations. -/
def occurrences (rows : ℕ → List ℕ) (S : Finset ℕ) (h : ℕ) : ℕ :=
  ∑ i ∈ S, (rows i).count h

/-- The lists are those of the relations, and counters and totals are exact. -/
structure Exact (nrelmax : ℕ) (rows : ℕ → List ℕ) (state : PurgeState) : Prop where
  compact : ∀ i < nrelmax, state.relUsed i = true → state.relCompact i = some (rows i)
  hashcount_eq : ∀ h, state.hashcount h = occurrences rows (usedSet nrelmax state) h
  nprimes_eq : state.nprimes = {h | 0 < state.hashcount h}.ncard
  nrel_eq : state.nrel = (usedSet nrelmax state).card

/-- Every prime that occurs in the set occurs twice. -/
def Closed (rows : ℕ → List ℕ) (S : Finset ℕ) : Prop :=
  ∀ i ∈ S, ∀ h ∈ rows i, 2 ≤ occurrences rows S h

section Counters

variable {rows : ℕ → List ℕ} {S T : Finset ℕ} {nrelmax : ℕ} {state state' : PurgeState}

@[simp]
theorem mem_usedSet {i : ℕ} :
    i ∈ usedSet nrelmax state ↔ i < nrelmax ∧ state.relUsed i = true := by
  rw [usedSet, Finset.mem_filter, Finset.mem_range]

variable (rows) in
theorem occurrences_mono (h : S ⊆ T) (a : ℕ) : occurrences rows S a ≤ occurrences rows T a :=
  Finset.sum_le_sum_of_subset h

variable (rows) in
theorem occurrences_erase {i : ℕ} (hi : i ∈ S) (a : ℕ) :
    occurrences rows (S.erase i) a + (rows i).count a = occurrences rows S a :=
  Finset.sum_erase_add S _ hi

theorem occurrences_pos {a : ℕ} : 0 < occurrences rows S a ↔ ∃ i ∈ S, a ∈ rows i := by
  rw [occurrences, Finset.sum_pos_iff]
  simp

theorem finite_occurring (rows : ℕ → List ℕ) (S : Finset ℕ) :
    {h | 0 < occurrences rows S h}.Finite := by
  refine Set.Finite.subset (S.biUnion fun i => (rows i).toFinset).finite_toSet ?_
  intro h hh
  obtain ⟨i, hi, hmem⟩ := occurrences_pos.mp hh
  rw [Finset.mem_coe, Finset.mem_biUnion]
  exact ⟨i, hi, List.mem_toFinset.mpr hmem⟩

/-- What `delete_relation` does to the counters, as long as they cover the primes of
the relation. -/
theorem removeOccurrences_spec {tab : List ℕ} {hashcount : ℕ → ℤ} {nprimes : ℤ}
    (hfinite : {h | 0 < hashcount h}.Finite) (hle : ∀ h, (tab.count h : ℤ) ≤ hashcount h)
    (hnprimes : nprimes = {h | 0 < hashcount h}.ncard) :
    (∀ h, (removeOccurrences tab hashcount nprimes).1 h = hashcount h - tab.count h) ∧
      (removeOccurrences tab hashcount nprimes).2
        = {h | 0 < (removeOccurrences tab hashcount nprimes).1 h}.ncard := by
  induction tab generalizing hashcount nprimes with
  | nil => exact ⟨fun h => by simp [removeOccurrences], hnprimes⟩
  | cons a tab ih =>
    have hapos := hle a
    rw [List.count_cons_self] at hapos
    have hupdate : ∀ h, update hashcount a (hashcount a - 1) h
        = hashcount h - if h = a then 1 else 0 := by
      intro h
      rw [update_apply]
      split_ifs with heq
      · rw [heq]
      · omega
    have hcons : ∀ h, ((a :: tab).count h : ℤ) = tab.count h + if h = a then 1 else 0 := by
      intro h
      simp [List.count_cons, @eq_comm _ a]
    have hsubset : {h | 0 < update hashcount a (hashcount a - 1) h}
        ⊆ {h | 0 < hashcount h} := by
      intro h hh
      simp only [Set.mem_ofPred_eq, hupdate] at hh ⊢
      split_ifs at hh <;> omega
    have hstep := @ih _
      (nprimes - if update hashcount a (hashcount a - 1) a = 0 then 1 else 0)
      (hfinite.subset hsubset)
      (fun h => by
        have hh := hle h
        rw [hcons] at hh
        rw [hupdate]
        exact le_sub_right_of_add_le hh) ?_
    · obtain ⟨hcount, htotal⟩ := hstep
      refine ⟨fun h => ?_, htotal⟩
      rw [removeOccurrences, hcount h, hupdate, hcons, sub_sub, add_comm]
    · rw [update_self, hnprimes]
      by_cases hlast : hashcount a = 1
      · have hset : {h | 0 < update hashcount a (hashcount a - 1) h}
            = {h | 0 < hashcount h} \ {a} := by
          ext h
          simp only [Set.mem_ofPred_eq, hupdate, Set.mem_sdiff, Set.mem_singleton_iff]
          split_ifs with heq
          · rw [heq]
            omega
          · simp [heq]
        have hcard := Set.ncard_sdiff_singleton_add_one
          (show a ∈ {h | 0 < hashcount h} by simp only [Set.mem_ofPred_eq]; omega) hfinite
        rw [hset, if_pos (by omega)]
        omega
      · have hset : {h | 0 < update hashcount a (hashcount a - 1) h}
            = {h | 0 < hashcount h} := by
          ext h
          simp only [Set.mem_ofPred_eq, hupdate]
          split_ifs with heq
          · rw [heq]
            omega
          · simp
        rw [hset, if_neg (by omega)]
        omega

section

variable (hexact : Exact nrelmax rows state)
include hexact

theorem Exact.count_le {i : ℕ}
    (hi : i ∈ usedSet nrelmax state) (h : ℕ) : ((rows i).count h : ℤ) ≤ state.hashcount h := by
  have herase := occurrences_erase rows hi h
  rw [hexact.hashcount_eq]
  omega

theorem Exact.finite_counted : {h | 0 < state.hashcount h}.Finite := by
  refine (finite_occurring rows (usedSet nrelmax state)).subset fun h hh => ?_
  rw [Set.mem_ofPred_eq, hexact.hashcount_eq] at hh
  exact Int.natCast_pos.mp hh

/-- What `delete_relation` does: the bit of the relation is cleared, the counters stay
exact, and the totals follow. -/
theorem dropRelation_spec {i : ℕ} (hi : i ∈ usedSet nrelmax state) :
    ∃ state', dropRelation i state = some state' ∧ Exact nrelmax rows state' ∧
      usedSet nrelmax state' = (usedSet nrelmax state).erase i ∧
      state'.nrel = state.nrel - 1 ∧ state'.nprimes ≤ state.nprimes ∧
      (hasSingleton (rows i) state.hashcount = true → state'.nprimes < state.nprimes) ∧
      state'.log = state.log ++ [(i, state'.excess)] := by
  obtain ⟨hirange, hiused⟩ := mem_usedSet.mp hi
  have hcompact := hexact.compact i hirange hiused
  obtain ⟨hcount, htotal⟩ :=
    removeOccurrences_spec hexact.finite_counted (hexact.count_le hi) hexact.nprimes_eq
  set removed := removeOccurrences (rows i) state.hashcount state.nprimes with hremoved
  have hsubset : {h | 0 < removed.1 h} ⊆ {h | 0 < state.hashcount h} := by
    intro h hh
    simp only [Set.mem_ofPred_eq, hcount] at hh ⊢
    omega
  have husedErase : ((Finset.range nrelmax).filter fun j =>
      update state.relUsed i false j = true) = (usedSet nrelmax state).erase i := by
    ext j
    simp only [usedSet, Finset.mem_filter, Finset.mem_erase, update_apply]
    by_cases hj : j = i <;> simp [hj]
  refine ⟨{ hashcount := removed.1, relUsed := update state.relUsed i false,
            relCompact := update state.relCompact i none, nrel := state.nrel - 1,
            nprimes := removed.2, log := state.log ++ [(i, state.nrel - 1 - removed.2)] },
    by simp [dropRelation, deleteRelation, hcompact, ← hremoved], ?_, husedErase, rfl, ?_, ?_, rfl⟩
  · refine ⟨fun j hj hjused => ?_, fun h => ?_, htotal, ?_⟩
    · by_cases hji : j = i
      · simp [hji] at hjused
      · simp only [update_apply, hji, if_false] at hjused ⊢
        exact hexact.compact j hj hjused
    · have herase := occurrences_erase rows hi h
      simp only [usedSet, husedErase, hcount, hexact.hashcount_eq]
      rw [usedSet] at herase
      omega
    · have hcard := Finset.card_erase_add_one hi
      have hnrel := hexact.nrel_eq
      simp only [usedSet, husedErase]
      rw [usedSet] at hcard hnrel
      omega
  · show removed.2 ≤ state.nprimes
    rw [htotal, hexact.nprimes_eq]
    exact_mod_cast Set.ncard_le_ncard hsubset hexact.finite_counted
  · intro hsingle
    obtain ⟨h, hmem, hone⟩ := List.any_eq_true.mp hsingle
    have hpos := List.count_pos_iff.mpr hmem
    have hssubset : {h | 0 < removed.1 h} ⊂ {h | 0 < state.hashcount h} := by
      refine ⟨hsubset, fun hsup => ?_⟩
      have hh : 0 < removed.1 h := hsup (by simp only [Set.mem_ofPred_eq]; simp at hone; omega)
      rw [hcount] at hh
      simp only [decide_eq_true_eq] at hone
      omega
    show removed.2 < state.nprimes
    rw [htotal, hexact.nprimes_eq]
    exact_mod_cast Set.ncard_lt_ncard hssubset hexact.finite_counted

end

/-- A state with exact counters keeps them in a sweep, and so does anything that a deletion of
a relation with a singleton keeps.  A sweep that deletes nothing has found no singleton. -/
theorem onepassSingletonRemoval_rule {P : PurgeState → Prop}
    (hP : ∀ state i state', Exact nrelmax rows state → P state → i ∈ usedSet nrelmax state →
      hasSingleton (rows i) state.hashcount = true → dropRelation i state = some state' →
      P state')
    (hexact : Exact nrelmax rows state) (hstate : P state) :
    ∃ state', onepassSingletonRemoval nrelmax state = some state' ∧ Exact nrelmax rows state' ∧
      P state' ∧ state'.nrel ≤ state.nrel ∧ (state'.nrel = state.nrel →
        ∀ i ∈ usedSet nrelmax state', hasSingleton (rows i) state'.hashcount = false) := by
  have hlist : ∀ L : List ℕ, (∀ i ∈ L, i < nrelmax) → ∀ state, Exact nrelmax rows state →
      P state → ∃ state', L.foldlM onepassStep state = some state' ∧
        Exact nrelmax rows state' ∧ P state' ∧ state'.nrel ≤ state.nrel ∧
        (state'.nrel = state.nrel → state' = state ∧ ∀ i ∈ L, i ∈ usedSet nrelmax state' →
          hasSingleton (rows i) state'.hashcount = false) := by
    intro L hL
    induction L with
    | nil =>
      intro state hexact hstate
      exact ⟨state, rfl, hexact, hstate, le_rfl, fun _ => ⟨rfl, by simp⟩⟩
    | cons i L ih =>
      intro state hexact hstate
      have hi := hL i List.mem_cons_self
      have ih := ih fun j hj => hL j (List.mem_cons_of_mem i hj)
      by_cases hdrop : state.relUsed i = true ∧ hasSingleton (rows i) state.hashcount = true
      · obtain ⟨hused, hsingle⟩ := hdrop
        have hmem : i ∈ usedSet nrelmax state := mem_usedSet.mpr ⟨hi, hused⟩
        obtain ⟨state₁, hrun₁, hexact₁, -, hnrel₁, -⟩ := dropRelation_spec hexact hmem
        obtain ⟨state', hrun, hexact', hstate', hle, -⟩ :=
          ih state₁ hexact₁ (hP state i state₁ hexact hstate hmem hsingle hrun₁)
        refine ⟨state', ?_, hexact', hstate', by omega, fun heq => by omega⟩
        rw [List.foldlM_cons, onepassStep, if_pos hused, hexact.compact i hi hused]
        simpa [hsingle, hrun₁] using hrun
      · obtain ⟨state', hrun, hexact', hstate', hle, hclean⟩ := ih state hexact hstate
        have hstep : onepassStep state i = some state := by
          rw [onepassStep]
          split_ifs with hused
          · rw [hexact.compact i hi hused]
            simp only [hused, true_and, Bool.not_eq_true] at hdrop
            simp [hdrop]
          · rfl
        refine ⟨state', by rw [List.foldlM_cons, hstep]; exact hrun, hexact', hstate', hle,
          fun heq => ?_⟩
        obtain ⟨hsame, hclean⟩ := hclean heq
        refine ⟨hsame, fun j hj hjused => ?_⟩
        rcases List.mem_cons.mp hj with rfl | hj
        · subst hsame
          have hused := (mem_usedSet.mp hjused).2
          simpa [hused] using hdrop
        · exact hclean j hj hjused
  obtain ⟨state', hrun, hexact', hstate', hle, hclean⟩ :=
    hlist (List.range nrelmax) (fun i => List.mem_range.mp) state hexact hstate
  refine ⟨state', hrun, hexact', hstate', hle, fun heq i hi => ?_⟩
  exact (hclean heq).2 i (List.mem_range.mpr (mem_usedSet.mp hi).1) hi

/-- The loop ends, within as many rounds as there are relations and one more, without
singletons, if `deleteHeavierRows` keeps the invariant. -/
theorem removeSingletons_rule (P : PurgeState → Prop)
    (qsort : ℕ → ℕ → List Comp → List Comp) (keep : ℤ) (final : Bool)
    (hP : ∀ state i state', Exact nrelmax rows state → P state → i ∈ usedSet nrelmax state →
      hasSingleton (rows i) state.hashcount = true → dropRelation i state = some state' →
      P state')
    (hheavier : final = true → ∀ state, Exact nrelmax rows state → P state →
      ∃ state', deleteHeavierRows qsort nrelmax keep state = some state' ∧
        Exact nrelmax rows state' ∧ P state' ∧ state'.nrel ≤ state.nrel)
    {fuel : ℕ} (hfuel : state.nrel < fuel) (hexact : Exact nrelmax rows state)
    (hstate : P state) :
    ∃ state', removeSingletons qsort nrelmax keep final fuel state = some state' ∧
      Exact nrelmax rows state' ∧ P state' ∧
      ∀ i ∈ usedSet nrelmax state', hasSingleton (rows i) state'.hashcount = false := by
  induction fuel generalizing state with
  | zero =>
    have hnrel := hexact.nrel_eq
    omega
  | succ fuel ih =>
    obtain ⟨state₁, hrun₁, hexact₁, hstate₁, hle₁⟩ :
        ∃ state₁, (if final then deleteHeavierRows qsort nrelmax keep state else some state)
          = some state₁ ∧ Exact nrelmax rows state₁ ∧ P state₁ ∧ state₁.nrel ≤ state.nrel := by
      by_cases hfinal : final = true
      · simpa [hfinal] using hheavier hfinal state hexact hstate
      · exact ⟨state, by simp [hfinal], hexact, hstate, le_rfl⟩
    obtain ⟨state₂, hrun₂, hexact₂, hstate₂, hle₂, hclean⟩ :=
      onepassSingletonRemoval_rule hP hexact₁ hstate₁
    by_cases hagain : state₂.nrel = state.nrel
    · refine ⟨state₂, ?_, hexact₂, hstate₂, hclean (by omega)⟩
      simp [removeSingletons, hrun₁, hrun₂, hagain]
    · obtain ⟨state', hrun, hspec⟩ := ih (by omega) hexact₂ hstate₂
      exact ⟨state', by simp [removeSingletons, hrun₁, hrun₂, hagain, hrun], hspec⟩

end Counters

/-! ## The largest closed set -/

section Greatest

variable {rows : ℕ → List ℕ} {S : Finset ℕ} {nrelmax : ℕ} {state : PurgeState}

theorem closed_of_no_singleton (hexact : Exact nrelmax rows state)
    (hclean : ∀ i ∈ usedSet nrelmax state, hasSingleton (rows i) state.hashcount = false) :
    Closed rows (usedSet nrelmax state) := by
  intro i hi h hmem
  have hpos := occurrences_pos.mpr ⟨i, hi, hmem⟩
  have hne := hclean i hi
  simp only [hasSingleton, List.any_eq_false, decide_eq_true_eq, hexact.hashcount_eq] at hne
  have hone := hne h hmem
  omega

theorem not_mem_of_closed (hexact : Exact nrelmax rows state)
    (hsubset : S ⊆ usedSet nrelmax state) (hclosed : Closed rows S) {i : ℕ}
    (hsingle : hasSingleton (rows i) state.hashcount = true) : i ∉ S := by
  intro hi
  obtain ⟨h, hmem, hone⟩ := List.any_eq_true.mp hsingle
  rw [decide_eq_true_eq, hexact.hashcount_eq] at hone
  have hle := occurrences_mono rows hsubset h
  have htwo := hclosed i hi h hmem
  omega

theorem removeSingletons_used (qsort : ℕ → ℕ → List Comp → List Comp) (keep : ℤ) {fuel : ℕ}
    (hexact : Exact nrelmax rows state) (hfuel : state.nrel < fuel) :
    ∃ state', removeSingletons qsort nrelmax keep false fuel state = some state' ∧
      Exact nrelmax rows state' ∧
      IsGreatest {S | S ⊆ usedSet nrelmax state ∧ Closed rows S} (usedSet nrelmax state') := by
  obtain ⟨state', hrun, hexact', ⟨hsubset, hupper⟩, hclean⟩ := removeSingletons_rule
    (fun state' => usedSet nrelmax state' ⊆ usedSet nrelmax state ∧
      ∀ S, S ⊆ usedSet nrelmax state → Closed rows S → S ⊆ usedSet nrelmax state')
    qsort keep false
    (fun state₁ i state₂ hexact₁ hstate₁ hi hsingle hdrop => by
      obtain ⟨state₂', hdrop', -, hused, -⟩ := dropRelation_spec hexact₁ hi
      obtain rfl : state₂' = state₂ := Option.some.inj (hdrop'.symm.trans hdrop)
      rw [hused]
      refine ⟨(Finset.erase_subset i _).trans hstate₁.1, fun S hS hclosed => ?_⟩
      have hle := hstate₁.2 S hS hclosed
      exact Finset.subset_erase.mpr ⟨hle, not_mem_of_closed hexact₁ hle hclosed hsingle⟩)
    (fun h => by simp at h) hfuel hexact ⟨subset_rfl, fun S hS _ => hS⟩
  exact ⟨state', hrun, hexact', ⟨hsubset, closed_of_no_singleton hexact' hclean⟩,
    fun S hS => hupper S hS.1 hS.2⟩

theorem occurrences_comp (σ : Equiv.Perm ℕ) (h : ℕ) :
    occurrences (rows ∘ σ) S h = occurrences rows (S.map σ.toEmbedding) h := by
  simp [occurrences, Finset.sum_map]

theorem closed_comp (σ : Equiv.Perm ℕ) :
    Closed (rows ∘ σ) S ↔ Closed rows (S.map σ.toEmbedding) := by
  simp only [Closed, occurrences_comp, Finset.mem_map, Function.comp_apply,
    forall_exists_index, and_imp, Equiv.coe_toEmbedding, forall_apply_eq_imp_iff₂]

theorem usedSet_comp {σ : Equiv.Perm ℕ} (hσ : ∀ i, σ i < nrelmax ↔ i < nrelmax)
    {stateσ : PurgeState} (hused : ∀ i < nrelmax, stateσ.relUsed i = state.relUsed (σ i)) :
    (usedSet nrelmax stateσ).map σ.toEmbedding = usedSet nrelmax state := by
  ext j
  simp only [mem_usedSet, Finset.mem_map, Equiv.coe_toEmbedding]
  constructor
  · rintro ⟨i, ⟨hi, hiused⟩, rfl⟩
    exact ⟨(hσ i).mpr hi, by rwa [← hused i hi]⟩
  · rintro ⟨hj, hjused⟩
    have hi : σ.symm j < nrelmax := (hσ _).mp (by rwa [Equiv.apply_symm_apply])
    exact ⟨σ.symm j, ⟨hi, by rw [hused _ hi, Equiv.apply_symm_apply]; exact hjused⟩,
      Equiv.apply_symm_apply σ j⟩

/-- From exact counters and totals, `remove_singletons` without its final pass ends with
exact counters and totals; what is left is the largest set of relations in which each prime
that occurs, occurs twice, and with another numbering the same relations are left. -/
theorem removeSingletons_greatest (qsort : ℕ → ℕ → List Comp → List Comp) (keep : ℤ)
    (hexact : Exact nrelmax rows state) {fuel : ℕ} (hfuel : state.nrel < fuel) :
    ∃ state', removeSingletons qsort nrelmax keep false fuel state = some state' ∧
      Exact nrelmax rows state' ∧
      IsGreatest {S | S ⊆ usedSet nrelmax state ∧ Closed rows S} (usedSet nrelmax state') ∧
      ∀ (σ : Equiv.Perm ℕ) (stateσ : PurgeState), (∀ i, σ i < nrelmax ↔ i < nrelmax) →
        Exact nrelmax (rows ∘ σ) stateσ →
        (∀ i < nrelmax, stateσ.relUsed i = state.relUsed (σ i)) →
        ∃ stateσ', removeSingletons qsort nrelmax keep false fuel stateσ = some stateσ' ∧
          ∀ i < nrelmax, stateσ'.relUsed i = state'.relUsed (σ i) := by
  obtain ⟨state', hrun, hexact', hgreatest⟩ :=
    removeSingletons_used qsort keep hexact hfuel
  refine ⟨state', hrun, hexact', hgreatest, fun σ stateσ hσ hexactσ husedσ => ?_⟩
  have hmap := usedSet_comp hσ husedσ
  have hfuelσ : stateσ.nrel < fuel := by
    rw [hexactσ.nrel_eq, ← Finset.card_map σ.toEmbedding, hmap, ← hexact.nrel_eq]
    exact hfuel
  obtain ⟨stateσ', hrunσ, -, hgreatestσ⟩ :=
    removeSingletons_used qsort keep hexactσ hfuelσ
  have hgreatest' : IsGreatest {S | S ⊆ usedSet nrelmax state ∧ Closed rows S}
      ((usedSet nrelmax stateσ').map σ.toEmbedding) := by
    refine ⟨⟨?_, (closed_comp σ).mp hgreatestσ.1.2⟩, fun S hS => ?_⟩
    · rw [← hmap]
      exact Finset.map_subset_map.mpr hgreatestσ.1.1
    · -- a closed set in the first numbering is one in the second
      have hback : (S.map σ.symm.toEmbedding).map σ.toEmbedding = S := by
        ext j
        simp
      have hpull : S.map σ.symm.toEmbedding ⊆ usedSet nrelmax stateσ := by
        have himage : (S.map σ.symm.toEmbedding).map σ.toEmbedding
            ⊆ (usedSet nrelmax stateσ).map σ.toEmbedding := by
          rw [hback, hmap]
          exact hS.1
        exact Finset.map_subset_map.mp himage
      have hclosed : Closed (rows ∘ σ) (S.map σ.symm.toEmbedding) := by
        rw [closed_comp, hback]
        exact hS.2
      have hle : (S.map σ.symm.toEmbedding).map σ.toEmbedding
          ⊆ (usedSet nrelmax stateσ').map σ.toEmbedding :=
        Finset.map_subset_map.mpr (hgreatestσ.2 ⟨hpull, hclosed⟩)
      rwa [hback] at hle
  have hsame := hgreatest'.unique hgreatest
  refine ⟨stateσ', hrunσ, fun i hi => ?_⟩
  have hiff : i ∈ usedSet nrelmax stateσ' ↔ σ i ∈ usedSet nrelmax state' := by
    rw [← hsame]
    exact (Finset.mem_map' σ.toEmbedding).symm
  rw [mem_usedSet, mem_usedSet, hσ] at hiff
  simpa only [hi, true_and, ← Bool.eq_iff_iff] using hiff

/-- Three relations: the first has the only occurrence of the prime 1. -/
def threeRelations : ℕ → List ℕ
  | 0 => [1, 2]
  | _ => [2, 3]

/-- The state before `remove_singletons` for the three relations. -/
def threeRelationsState : PurgeState where
  hashcount h := if h = 1 then 1 else if h = 2 then 3 else if h = 3 then 2 else 0
  relUsed i := i < 3
  relCompact i := if i < 3 then some (threeRelations i) else none
  nrel := 3
  nprimes := 3
  log := []

theorem threeRelationsState_exact : Exact 3 threeRelations threeRelationsState where
  compact i hi _ := by simp [threeRelationsState, hi]
  hashcount_eq h := by
    have hused : usedSet 3 threeRelationsState = {0, 1, 2} := by decide
    rw [hused, occurrences, Finset.sum_insert (by decide), Finset.sum_insert (by decide),
      Finset.sum_singleton]
    simp only [threeRelationsState, threeRelations, List.count_cons, List.count_nil, beq_iff_eq]
    split_ifs <;> omega
  nprimes_eq := by
    have hset : {h | 0 < threeRelationsState.hashcount h} = ({1, 2, 3} : Finset ℕ) := by
      ext h
      simp only [threeRelationsState, Set.mem_ofPred_eq, Finset.coe_insert,
        Finset.coe_singleton, Set.mem_insert_iff, Set.mem_singleton_iff]
      split_ifs <;> omega
    rw [hset, Set.ncard_coe_finset]
    rfl
  nrel_eq := by decide

/-- What is left of the three relations. -/
theorem removeSingletons_greatest_three :
    ∃ state', removeSingletons (fun _ _ tmp => tmp) 3 0 false 4 threeRelationsState
      = some state' ∧ Exact 3 threeRelations state' ∧
      IsGreatest {S | S ⊆ usedSet 3 threeRelationsState ∧ Closed threeRelations S}
        (usedSet 3 state') :=
  have ⟨state', hrun, hexact', hgreatest, _⟩ := removeSingletons_greatest (fun _ _ tmp => tmp) 0
    threeRelationsState_exact (by decide : threeRelationsState.nrel < (4 : ℕ))
  ⟨state', hrun, hexact', hgreatest⟩

end Greatest

end CadoNfs.Purge
