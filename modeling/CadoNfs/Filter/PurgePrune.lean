import CadoNfs.Filter.Purge
import CadoNfs.Lib.DepthFirst

/-!
# Pruning by components

The final call of `remove_singletons` also deletes one relation of each of the heaviest
components for "share a prime of weight 2", until half of the excess over `keep` is gone.

Main results:

- Theorem `computeConnectedComponent_spec`: the recursion through the sums of row numbers
  visits the component of its row.
- Theorem `deleteHeavierRows_spec`: the excess stays at least `keep`.
- Theorem `removeSingletons_final`: so it does in all rounds, up to the last one.
-/

namespace CadoNfs.Purge

open Function (update update_apply update_of_ne update_self)
open DepthFirst
open List (Perm append_assoc map_append mem_append mem_cons_of_mem mem_cons_self mem_map
  mem_map_of_mem mem_singleton nodup_append)

/-! ## Rows that share a prime of weight 2 -/

/-- Two relations in use share a prime of weight 2. -/
def SharesPrime (nrelmax : ℕ) (rows : ℕ → List ℕ) (state : PurgeState) (i k : ℕ) : Prop :=
  i ≠ k ∧ i ∈ usedSet nrelmax state ∧ k ∈ usedSet nrelmax state ∧
    ∃ h, state.hashcount h = 2 ∧ h ∈ rows i ∧ h ∈ rows k

/-- For each prime of weight 2 the table holds the `uint32_t` sum of its two rows. -/
def RowSums (nrelmax : ℕ) (rows : ℕ → List ℕ) (state : PurgeState) (sum : ℕ → ℕ) : Prop :=
  ∀ h i k, i ≠ k → i ∈ usedSet nrelmax state → k ∈ usedSet nrelmax state →
    state.hashcount h = 2 → h ∈ rows i → h ∈ rows k → sum h = (i + k) % 2 ^ 32

/-- The other row of a prime: `sum[h] - i`. -/
def otherRow (sum : ℕ → ℕ) (i h : ℕ) : ℕ :=
  (sum h + 2 ^ 32 - i % 2 ^ 32) % 2 ^ 32

/-- The rows that the recursion tries from a row, in its order. -/
def neighbours (nrelmax : ℕ) (rows : ℕ → List ℕ) (state : PurgeState) (sum : ℕ → ℕ) (i : ℕ) :
    List ℕ :=
  if i ∈ usedSet nrelmax state then
    ((rows i).filter fun h => state.hashcount h = 2).map (otherRow sum i)
  else []

section Neighbours

variable {nrelmax : ℕ} {rows : ℕ → List ℕ} {state : PurgeState} {sum : ℕ → ℕ} {i k : ℕ}

theorem SharesPrime.symm (h : SharesPrime nrelmax rows state i k) :
    SharesPrime nrelmax rows state k i := by
  obtain ⟨hne, hi, hk, a, hcount, hai, hak⟩ := h
  exact ⟨hne.symm, hk, hi, a, hcount, hak, hai⟩

theorem exists_other (hexact : Exact nrelmax rows state)
    (hnodup : ∀ i ∈ usedSet nrelmax state, (rows i).Nodup) {h : ℕ}
    (hcount : state.hashcount h = 2) (hi : i ∈ usedSet nrelmax state) (hmem : h ∈ rows i) :
    ∃ k, i ≠ k ∧ k ∈ usedSet nrelmax state ∧ h ∈ rows k := by
  have herase := occurrences_erase rows hi h
  have hone := (List.nodup_iff_count_eq_one.mp (hnodup i hi)) h hmem
  rw [hexact.hashcount_eq] at hcount
  obtain ⟨k, hk, hmemk⟩ := occurrences_pos.mp
    (show 0 < occurrences rows ((usedSet nrelmax state).erase i) h by omega)
  exact ⟨k, (Finset.ne_of_mem_erase hk).symm, Finset.mem_of_mem_erase hk, hmemk⟩

theorem otherRow_eq {h : ℕ} (hk : k < 2 ^ 32) (hsum : sum h = (i + k) % 2 ^ 32) :
    otherRow sum i h = k := by
  rw [otherRow, hsum]
  omega

theorem mem_neighbours (hexact : Exact nrelmax rows state)
    (hnodup : ∀ i ∈ usedSet nrelmax state, (rows i).Nodup) (hmax : nrelmax < 2 ^ 31)
    (hsum : RowSums nrelmax rows state sum) :
    k ∈ neighbours nrelmax rows state sum i ↔ SharesPrime nrelmax rows state i k := by
  rw [neighbours]
  split_ifs with hi
  · simp only [mem_map, List.mem_filter, decide_eq_true_eq]
    constructor
    · rintro ⟨h, ⟨hmem, hcount⟩, rfl⟩
      obtain ⟨k, hne, hk, hmemk⟩ := exists_other hexact hnodup hcount hi hmem
      have hrange := (mem_usedSet.mp hk).1
      rw [otherRow_eq (by omega) (hsum h i k hne hi hk hcount hmem hmemk)]
      exact ⟨hne, hi, hk, h, hcount, hmem, hmemk⟩
    · rintro ⟨hne, -, hk, h, hcount, hmem, hmemk⟩
      have hrange := (mem_usedSet.mp hk).1
      exact ⟨h, ⟨hmem, hcount⟩, otherRow_eq (by omega) (hsum h i k hne hi hk hcount hmem hmemk)⟩
  · simp only [List.not_mem_nil, false_iff]
    exact fun h => hi h.2.1

end Neighbours

/-! ## The recursion -/

section Recursion

variable {nrelmax : ℕ} {rows : ℕ → List ℕ} {state : PurgeState} {sum : ℕ → ℕ}

/-- The visit that adds the rows `news` to `visits`. -/
def visitOf (rows : ℕ → List ℕ) (visits : List ℕ) (news : List ℕ) : Visit where
  T k := decide (k ∈ news ++ visits)
  n := news.length
  w := (news.map fun k => (rows k).length).sum
  visits := news ++ visits

/-- The loop of `compute_connected_component` over the primes of row `i`. -/
def visitPrimes (state : PurgeState) (sum : ℕ → ℕ) (nrelmax fuel i : ℕ) (tab : List ℕ)
    (visit : Visit) : Option Visit :=
  tab.foldlM (fun (visit : Visit) h =>
    if state.hashcount h = 2 then
      let k := otherRow sum i h
      if nrelmax ≤ k then none
      else if visit.T k then some visit
      else do
        let next ← computeConnectedComponent state.hashcount state.relCompact sum nrelmax fuel
          visit.T visit.visits k
        return { next with n := visit.n + next.n, w := visit.w + next.w }
    else some visit) visit

theorem computeConnectedComponent_succ (fuel : ℕ) (T : ℕ → Bool) (visits : List ℕ) (i : ℕ) :
    computeConnectedComponent state.hashcount state.relCompact sum nrelmax (fuel + 1) T visits i
      = (state.relCompact i).bind fun tab =>
          (visitPrimes state sum nrelmax fuel i tab
            { T := update T i true, n := 1, w := 0, visits := i :: visits }).bind
          fun visit => some { visit with w := visit.w + tab.length } :=
  rfl

/-- The recursion of the source is a depth-first search over the rows. -/
theorem computeConnectedComponent_of_dfs (hexact : Exact nrelmax rows state)
    (hneighbours : ∀ i k, k ∈ neighbours nrelmax rows state sum i → k ∈ usedSet nrelmax state)
    {fuel : ℕ} {visits news : List ℕ} {i : ℕ} (hi : i ∈ usedSet nrelmax state)
    (hdfs : dfs (neighbours nrelmax rows state sum) fuel visits i = some (news ++ visits)) :
    computeConnectedComponent state.hashcount state.relCompact sum nrelmax fuel
      (fun k => decide (k ∈ visits)) visits i = some (visitOf rows visits news) := by
  induction fuel generalizing visits news i with
  | zero => simp [dfs] at hdfs
  | succ fuel ih =>
    have hlist : ∀ tab : List ℕ, (∀ h ∈ tab, h ∈ rows i) → ∀ (visit : Visit) (news : List ℕ),
        (visit.T = fun k => decide (k ∈ visit.visits)) →
        dfsList (neighbours nrelmax rows state sum) fuel visit.visits
          ((tab.filter fun h => state.hashcount h = 2).map (otherRow sum i))
          = some (news ++ visit.visits) →
        visitPrimes state sum nrelmax fuel i tab visit
          = some { visitOf rows visit.visits news with
              n := visit.n + news.length
              w := visit.w + (news.map fun k => (rows k).length).sum } := by
      intro tab htab
      induction tab with
      | nil =>
        intro visit news hT hrun
        obtain rfl : news = [] := by simpa using hrun
        simp [visitPrimes, visitOf, ← hT]
      | cons h tab ihtab =>
        intro visit news hT hrun
        have ihtab := ihtab fun h hh => htab h (mem_cons_of_mem _ hh)
        by_cases hcount : state.hashcount h = 2
        · have hused : otherRow sum i h ∈ usedSet nrelmax state := by
            refine hneighbours i _ ?_
            rw [neighbours, if_pos hi]
            exact mem_map_of_mem
              (List.mem_filter.mpr ⟨htab h mem_cons_self, by simpa using hcount⟩)
          have hrange : ¬ nrelmax ≤ otherRow sum i h := not_le.mpr (mem_usedSet.mp hused).1
          rw [List.filter_cons_of_pos (by simpa using hcount), List.map_cons] at hrun
          by_cases hseen : otherRow sum i h ∈ visit.visits
          · rw [dfsList_cons_of_mem hseen] at hrun
            rw [← ihtab visit news hT hrun]
            simp [visitPrimes, hcount, hrange, hT, hseen]
          · rw [dfsList_cons_of_not_mem hseen] at hrun
            obtain ⟨seen₁, hrun₁, hrun⟩ := Option.bind_eq_some_iff.mp hrun
            obtain ⟨news₁, rfl⟩ := dfs_append hrun₁
            obtain ⟨news₂, hnews⟩ := dfsList_append hrun
            rw [← append_assoc, List.append_cancel_right_eq] at hnews
            subst hnews
            rw [append_assoc] at hrun
            have hnext := ih hused hrun₁
            rw [← hT] at hnext
            have hrest := ihtab { visitOf rows visit.visits news₁ with
              n := visit.n + news₁.length
              w := visit.w + (news₁.map fun k => (rows k).length).sum } news₂ rfl hrun
            rw [visitPrimes, List.foldlM_cons, if_pos hcount]
            simp only [hrange, if_false, hT, hseen, decide_false, Bool.false_eq_true]
            rw [hT] at hnext
            rw [hnext]
            refine hrest.trans ?_
            simp [visitOf, append_assoc, map_append, List.sum_append]
            omega
        · rw [List.filter_cons_of_neg (by simpa using hcount)] at hrun
          rw [← ihtab visit news hT hrun]
          simp [visitPrimes, hcount]
    have hcompact := hexact.compact i (mem_usedSet.mp hi).1 (mem_usedSet.mp hi).2
    rw [dfs_succ] at hdfs
    obtain ⟨news', hnews⟩ := dfsList_append hdfs
    have hsplit : news = news' ++ [i] := by
      rw [List.append_cons, List.append_cancel_right_eq] at hnews
      exact hnews
    subst hsplit
    rw [neighbours, if_pos hi, append_assoc] at hdfs
    rw [computeConnectedComponent_succ, hcompact, Option.bind_some,
      hlist (rows i) (fun _ h => h) _ news' ?_ hdfs, Option.bind_some]
    · simp [visitOf, append_assoc, add_comm]
    · funext k
      simp [update_apply]

/-- What has been visited so far: rows in use, with all they share a prime of weight 2 with. -/
structure Visited (nrelmax : ℕ) (rows : ℕ → List ℕ) (state : PurgeState) (visits : List ℕ) :
    Prop where
  nodup : visits.Nodup
  used : ∀ i ∈ visits, i ∈ usedSet nrelmax state
  shares : ∀ i ∈ visits, ∀ k, SharesPrime nrelmax rows state i k → k ∈ visits

/-- The recursion visits exactly the component of its row, each row once. -/
theorem computeConnectedComponent_spec (hexact : Exact nrelmax rows state)
    (hnodup : ∀ i ∈ usedSet nrelmax state, (rows i).Nodup) (hmax : nrelmax < 2 ^ 31)
    (hsum : RowSums nrelmax rows state sum) {visits : List ℕ}
    (hvisited : Visited nrelmax rows state visits) {i : ℕ} (hi : i ∈ usedSet nrelmax state)
    (hnot : i ∉ visits) {fuel : ℕ} (hfuel : (usedSet nrelmax state).card ≤ fuel) :
    ∃ news, computeConnectedComponent state.hashcount state.relCompact sum nrelmax fuel
        (fun k => decide (k ∈ visits)) visits i = some (visitOf rows visits news) ∧
      (∀ k, k ∈ news ↔ Relation.ReflTransGen (SharesPrime nrelmax rows state) i k) ∧
      Visited nrelmax rows state (news ++ visits) := by
  have hmem : ∀ i k, k ∈ neighbours nrelmax rows state sum i ↔
      SharesPrime nrelmax rows state i k := fun i k => mem_neighbours hexact hnodup hmax hsum
  have hreaches : Reaches (neighbours nrelmax rows state sum)
      = Relation.ReflTransGen (SharesPrime nrelmax rows state) := by
    rw [Reaches]
    congr
    funext i k
    exact propext (hmem i k)
  obtain ⟨news, hdfs, hsearch, hstart, hnews⟩ :=
    dfs_spec
      (fun a _ b hb => ((hmem a b).mp hb).2.2.1) hi hnot hvisited.nodup
      ((Finset.card_filter_le _ _).trans hfuel)
  have hseen : ∀ b ∈ visits, ∀ c ∈ neighbours nrelmax rows state sum b, c ∈ visits :=
    fun b hb c hc => hvisited.shares b hb c ((hmem b c).mp hc)
  refine ⟨news, computeConnectedComponent_of_dfs hexact
    (fun i k hk => ((hmem i k).mp hk).2.2.1) hi hdfs, fun k => ?_, hsearch.nodup, ?_, ?_⟩
  · rw [← hreaches]
    exact hsearch.mem_iff (fun a b hb => (hmem b a).mpr ((hmem a b).mp hb).symm) hseen hstart
      (fun b hb => (hnews b hb).2) k
  · exact fun k hk => (mem_append.mp hk).elim (fun hk => (hnews k hk).1) (hvisited.used k)
  · exact fun j hj k hk => hsearch.next_mem_append hseen j hj k ((hmem j k).mpr hk)

end Recursion

/-! ## The tables of `deleteHeavierRows` -/

section Tables

variable {nrelmax : ℕ} {rows : ℕ → List ℕ} {state : PurgeState} {sum : ℕ → ℕ}

/-- The loop over the primes of row `i`. -/
def addToSums (hashcount : ℕ → ℤ) (i : ℕ) (tab : List ℕ) (sum : ℕ → ℕ) : ℕ → ℕ :=
  tab.foldl (fun sum h =>
    if hashcount h = 2 then update sum h ((sum h + i) % 2 ^ 32) else sum) sum

theorem addToSums_apply {hashcount : ℕ → ℤ} {i : ℕ} {tab : List ℕ} {h : ℕ}
    (hcount : hashcount h = 2) (hlt : sum h < 2 ^ 32) :
    addToSums hashcount i tab sum h = (sum h + tab.count h * i) % 2 ^ 32 := by
  induction tab generalizing sum with
  | nil => rw [List.count_nil, zero_mul, add_zero, Nat.mod_eq_of_lt hlt]; rfl
  | cons a tab ih =>
    rw [addToSums, List.foldl_cons, ← addToSums]
    by_cases ha : h = a
    · subst ha
      rw [if_pos hcount, ih (by rw [update_self]; exact Nat.mod_lt _ (by decide)),
        update_self, List.count_cons_self, Nat.mod_add_mod, add_assoc, Nat.succ_mul, add_comm i]
    · have hsame : (if hashcount a = 2 then update sum a ((sum a + i) % 2 ^ 32) else sum) h
          = sum h := by
        split_ifs
        · rw [update_of_ne ha]
        · rfl
      rw [ih (by rw [hsame]; exact hlt), hsame, List.count_cons_of_ne (Ne.symm ha)]

/-- The sums of the rows of each ideal that occurs twice. -/
theorem collectSums_spec (hexact : Exact nrelmax rows state) :
    ∃ sum W, collectSums nrelmax state = some (sum, (usedSet nrelmax state).card, W) ∧
      ∀ h, state.hashcount h = 2 →
        sum h = (∑ i ∈ usedSet nrelmax state, (rows i).count h * i) % 2 ^ 32 := by
  have hprefix : ∀ n ≤ nrelmax, ∃ sum W, collectSums n state
      = some (sum, (usedSet n state).card, W) ∧ ∀ h, state.hashcount h = 2 →
        sum h = (∑ i ∈ usedSet n state, (rows i).count h * i) % 2 ^ 32 := by
    intro n hn
    induction n with
    | zero => exact ⟨fun _ => 0, 0, rfl, fun h _ => by simp [usedSet]⟩
    | succ n ih =>
      obtain ⟨sum, W, hrun, hsum⟩ := ih (by omega)
      rw [collectSums, List.range_succ, List.foldlM_append, ← collectSums, hrun]
      have hused : usedSet (n + 1) state
          = if state.relUsed n = true then insert n (usedSet n state) else usedSet n state := by
        rw [usedSet, Finset.range_add_one, Finset.filter_insert]
        rfl
      have hnot : n ∉ usedSet n state := fun h => absurd (mem_usedSet.mp h).1 (lt_irrefl n)
      by_cases hrel : state.relUsed n = true
      · rw [if_pos hrel] at hused
        refine ⟨addToSums state.hashcount n (rows n) sum, W + (rows n).length, ?_,
          fun h hcount => ?_⟩
        · rw [hused, Finset.card_insert_of_notMem hnot]
          simp [hrel, hexact.compact n (by omega) hrel, addToSums]
        · rw [addToSums_apply hcount (by rw [hsum h hcount]; exact Nat.mod_lt _ (by decide)),
            hsum h hcount, hused, Finset.sum_insert hnot, Nat.mod_add_mod, add_comm]
      · rw [if_neg hrel] at hused
        rw [hused]
        exact ⟨sum, W, by simp [hrel], hsum⟩
  exact hprefix nrelmax le_rfl

theorem rowSums_of_sum (hexact : Exact nrelmax rows state)
    (hnodup : ∀ i ∈ usedSet nrelmax state, (rows i).Nodup)
    (hsum : ∀ h, state.hashcount h = 2 →
      sum h = (∑ i ∈ usedSet nrelmax state, (rows i).count h * i) % 2 ^ 32) :
    RowSums nrelmax rows state sum := by
  intro h i k hne hi hk hcount hmemi hmemk
  have hkmem : k ∈ (usedSet nrelmax state).erase i := Finset.mem_erase.mpr ⟨hne.symm, hk⟩
  have honei := (List.nodup_iff_count_eq_one.mp (hnodup i hi)) h hmemi
  have honek := (List.nodup_iff_count_eq_one.mp (hnodup k hk)) h hmemk
  have herasei := occurrences_erase rows hi h
  have herasek := occurrences_erase rows hkmem h
  have hexacth := hexact.hashcount_eq h
  have hrest : ∑ j ∈ ((usedSet nrelmax state).erase i).erase k, (rows j).count h * j = 0 := by
    refine Finset.sum_eq_zero fun j hj => ?_
    have hzero : occurrences rows (((usedSet nrelmax state).erase i).erase k) h = 0 := by omega
    rw [Finset.sum_eq_zero_iff.mp hzero j hj, zero_mul]
  rw [hsum h hcount, ← Finset.add_sum_erase _ _ hi, ← Finset.add_sum_erase _ _ hkmem, hrest,
    honei, honek]
  congr 1
  omega

/-- What the second loop has so far: one row in use of each component it has visited. -/
structure Collected (nrelmax : ℕ) (rows : ℕ → List ℕ) (state : PurgeState) (visits : List ℕ)
    (tmp : List Comp) : Prop where
  visited : Visited nrelmax rows state visits
  nodup : (tmp.map Comp.i).Nodup
  mem : ∀ comp ∈ tmp, comp.i ∈ visits
  cover : ∀ k ∈ visits,
    ∃ comp ∈ tmp, Relation.ReflTransGen (SharesPrime nrelmax rows state) comp.i k

section

variable (hexact : Exact nrelmax rows state) (hnodup : ∀ i ∈ usedSet nrelmax state, (rows i).Nodup)
  (hmax : nrelmax < 2 ^ 31) (hsum : RowSums nrelmax rows state sum)
include hexact hnodup hmax hsum

/-- A row not yet visited adds its component. -/
theorem componentStep_spec {visits : List ℕ} {tmp : List Comp}
    (hcollected : Collected nrelmax rows state visits tmp) {i : ℕ} (hi : i < nrelmax) :
    ∃ visits' tmp', componentStep nrelmax state sum ((fun k => decide (k ∈ visits)), visits, tmp) i
        = some ((fun k => decide (k ∈ visits')), visits', tmp') ∧
      Collected nrelmax rows state visits' tmp' ∧ visits ⊆ visits' ∧
      (state.relUsed i = true → i ∈ visits') := by
  by_cases hnew : state.relUsed i = true ∧ i ∉ visits
  · obtain ⟨hused, hnot⟩ := hnew
    have hfuel : (usedSet nrelmax state).card ≤ nrelmax + 1 :=
      (Finset.card_filter_le _ _).trans (by rw [Finset.card_range]; omega)
    obtain ⟨news, hrun, hnews, hvisited⟩ := computeConnectedComponent_spec hexact hnodup hmax
      hsum hcollected.visited (mem_usedSet.mpr ⟨hi, hused⟩) hnot hfuel
    have hstart : i ∈ news := (hnews i).mpr Relation.ReflTransGen.refl
    refine ⟨news ++ visits, tmp ++ [⟨news.length, (news.map fun k => (rows k).length).sum, i⟩],
      ?_, ⟨hvisited, ?_, ?_, ?_⟩, List.subset_append_right news visits,
      fun _ => List.mem_append_left visits hstart⟩
    · simp [componentStep, hused, hnot, hrun, visitOf]
    · rw [map_append, nodup_append]
      refine ⟨hcollected.nodup, by simp, fun a ha b hb => ?_⟩
      obtain ⟨comp, hcomp, rfl⟩ := mem_map.mp ha
      rw [List.map_singleton, mem_singleton] at hb
      rw [hb]
      intro heq
      have hmem := hcollected.mem comp hcomp
      rw [heq] at hmem
      exact hnot hmem
    · intro comp hcomp
      rcases mem_append.mp hcomp with hcomp | hcomp
      · exact List.mem_append_right news (hcollected.mem comp hcomp)
      · rw [mem_singleton.mp hcomp]
        exact List.mem_append_left visits hstart
    · intro k hk
      rcases mem_append.mp hk with hk | hk
      · exact ⟨_, List.mem_append_right tmp (List.mem_singleton_self _), (hnews k).mp hk⟩
      · obtain ⟨comp, hcomp, hreach⟩ := hcollected.cover k hk
        exact ⟨comp, List.mem_append_left _ hcomp, hreach⟩
  · have hskip : ¬ (state.relUsed i && !decide (i ∈ visits)) = true := by
      simpa using hnew
    refine ⟨visits, tmp, by simp only [componentStep, hskip]; rfl, hcollected,
      fun _ hk => hk, fun hused => ?_⟩
    simpa [hused] using hnew

theorem collectComponents_spec :
    ∃ T visits tmp, collectComponents nrelmax state sum = some (T, visits, tmp) ∧
      Collected nrelmax rows state visits tmp ∧ ∀ k ∈ usedSet nrelmax state, k ∈ visits := by
  have hlist : ∀ L : List ℕ, (∀ i ∈ L, i < nrelmax) → ∀ (visits : List ℕ) (tmp : List Comp),
      Collected nrelmax rows state visits tmp →
      ∃ T visits' tmp', L.foldlM (componentStep nrelmax state sum)
          ((fun k => decide (k ∈ visits)), visits, tmp) = some (T, visits', tmp') ∧
        Collected nrelmax rows state visits' tmp' ∧ visits ⊆ visits' ∧
        ∀ i ∈ L, state.relUsed i = true → i ∈ visits' := by
    intro L hL
    induction L with
    | nil =>
      exact fun visits tmp hcollected =>
        ⟨_, visits, tmp, rfl, hcollected, fun _ hk => hk, by simp⟩
    | cons i L ih =>
      intro visits tmp hcollected
      obtain ⟨visits₁, tmp₁, hstep, hcollected₁, hsubset₁, hmem₁⟩ :=
        componentStep_spec hexact hnodup hmax hsum hcollected (hL i mem_cons_self)
      obtain ⟨T, visits', tmp', hrun, hcollected', hsubset, hmem⟩ :=
        ih (fun j hj => hL j (mem_cons_of_mem i hj)) visits₁ tmp₁ hcollected₁
      refine ⟨T, visits', tmp', ?_, hcollected', fun _ hk => hsubset (hsubset₁ hk),
        List.forall_mem_cons.mpr ⟨fun hused => hsubset (hmem₁ hused), hmem⟩⟩
      rw [List.foldlM_cons, hstep]
      exact hrun
  obtain ⟨T, visits, tmp, hrun, hcollected, -, hmem⟩ := hlist (List.range nrelmax)
    (fun i => List.mem_range.mp) [] [] ⟨⟨by simp, by simp, by simp⟩, by simp, by simp, by simp⟩
  refine ⟨T, visits, tmp, by simpa [collectComponents] using hrun, hcollected, fun k hk => ?_⟩
  exact hmem k (List.mem_range.mpr (mem_usedSet.mp hk).1) (mem_usedSet.mp hk).2

end

end Tables

/-! ## The excess -/

section Excess

variable {nrelmax : ℕ} {rows : ℕ → List ℕ} {state : PurgeState} {keep bound : ℤ}

/-- What the deletions keep: the excess is at least `keep`, and was so after each
deletion; no relation in the log is in use or listed twice. -/
structure Pruned (nrelmax : ℕ) (rows : ℕ → List ℕ) (keep bound : ℤ) (state : PurgeState) :
    Prop where
  nodup : ∀ i ∈ usedSet nrelmax state, (rows i).Nodup
  keep_le : keep ≤ state.excess
  log_keep : ∀ entry ∈ state.log, keep ≤ entry.2
  log_nodup : (state.log.map Prod.fst).Nodup
  log_unused : ∀ entry ∈ state.log, entry.1 ∉ usedSet nrelmax state
  nrel_le : state.nrel ≤ bound

theorem Pruned.dropRelation (hpruned : Pruned nrelmax rows keep bound state)
    (hexact : Exact nrelmax rows state) {i : ℕ} (hi : i ∈ usedSet nrelmax state)
    (hkeep : keep < state.excess ∨ hasSingleton (rows i) state.hashcount = true)
    {state' : PurgeState} (hdrop : dropRelation i state = some state') :
    Pruned nrelmax rows keep bound state' := by
  obtain ⟨state₁, hdrop₁, -, hused, hnrel, hnprimes, hsingle, hlog⟩ := dropRelation_spec hexact hi
  obtain rfl : state₁ = state' := Option.some.inj (hdrop₁.symm.trans hdrop)
  have hexcess : keep ≤ state₁.excess := by
    have hbefore := hpruned.keep_le
    rw [PurgeState.excess] at hbefore ⊢
    rcases hkeep with hkeep | hkeep
    · rw [PurgeState.excess] at hkeep
      omega
    · have hlt := hsingle hkeep
      omega
  have hbound := hpruned.nrel_le
  refine ⟨fun j hj => ?_, hexcess, ?_, ?_, ?_, by omega⟩
  · rw [hused] at hj
    exact hpruned.nodup j (Finset.mem_of_mem_erase hj)
  · intro entry hentry
    rw [hlog] at hentry
    rcases mem_append.mp hentry with hentry | hentry
    · exact hpruned.log_keep entry hentry
    · rw [mem_singleton.mp hentry]
      exact hexcess
  · rw [hlog, map_append, nodup_append]
    refine ⟨hpruned.log_nodup, by simp, fun a ha b hb => ?_⟩
    obtain ⟨entry, hentry, rfl⟩ := mem_map.mp ha
    rw [List.map_singleton, mem_singleton] at hb
    rw [hb]
    exact fun heq => hpruned.log_unused entry hentry (heq ▸ hi)
  · intro entry hentry
    rw [hlog] at hentry
    rw [hused]
    rcases mem_append.mp hentry with hentry | hentry
    · exact fun h => hpruned.log_unused entry hentry (Finset.mem_of_mem_erase h)
    · rw [mem_singleton.mp hentry]
      exact Finset.notMem_erase i _

theorem mem_erase_of_mem {comp : Comp} {tmp : List Comp} {s : Finset ℕ}
    (hnot : comp.i ∉ tmp.map Comp.i) (hmem : ∀ c ∈ comp :: tmp, c.i ∈ s) :
    ∀ c ∈ tmp, c.i ∈ s.erase comp.i := fun c hc =>
  Finset.mem_erase.mpr ⟨fun heq => hnot (heq ▸ mem_map_of_mem hc), hmem c (mem_cons_of_mem _ hc)⟩

theorem deleteDownTo_spec {target : ℤ} (htarget : keep ≤ target) {tmp : List Comp}
    (htmp : (tmp.map Comp.i).Nodup) (hmem : ∀ comp ∈ tmp, comp.i ∈ usedSet nrelmax state)
    (hexact : Exact nrelmax rows state) (hpruned : Pruned nrelmax rows keep bound state) :
    ∃ state', deleteDownTo target tmp state = some state' ∧ Exact nrelmax rows state' ∧
      Pruned nrelmax rows keep bound state' ∧ state'.nrel ≤ state.nrel := by
  induction tmp generalizing state with
  | nil => exact ⟨state, rfl, hexact, hpruned, le_rfl⟩
  | cons comp tmp ih =>
    rw [deleteDownTo]
    split_ifs with hexcess
    · have hi := hmem comp mem_cons_self
      obtain ⟨state₁, hdrop, hexact₁, hused, hnrel, -⟩ := dropRelation_spec hexact hi
      have hpruned₁ := hpruned.dropRelation hexact hi (Or.inl (by omega)) hdrop
      obtain ⟨hnot, htmp⟩ := List.nodup_cons.mp htmp
      obtain ⟨state', hrun, hexact', hpruned', hle⟩ := ih htmp
        (hused ▸ mem_erase_of_mem hnot hmem) hexact₁ hpruned₁
      exact ⟨state', by rw [hdrop]; exact hrun, hexact', hpruned', by omega⟩
    · exact ⟨state, rfl, hexact, hpruned, le_rfl⟩

theorem half_le_tdiv (a : ℤ) : a / 2 ≤ a.tdiv 2 := by
  rw [Int.tdiv_eq_ediv]
  split_ifs
  · exact (add_zero _).ge
  · exact Int.le_add_of_nonneg_right (by decide)

theorem keep_le_target {excess : ℤ} (hkeep : -2 ^ 31 ≤ keep) (hlt : keep < excess)
    (hfit : excess + keep < 2 ^ 31) : keep ≤ ((excess + keep).bmod (2 ^ 32)).tdiv 2 := by
  by_cases hlow : -2 ^ 31 ≤ excess + keep
  · have hhalf := half_le_tdiv (excess + keep)
    rw [Int.bmod_eq_of_le (by omega) (by omega)]
    omega
  · -- below the range the sum wraps to a positive number
    have hwrap : (excess + keep).bmod (2 ^ 32) = excess + keep + 2 ^ 32 := by
      rw [← Int.add_bmod_right, Int.bmod_eq_of_le (by omega) (by omega)]
      rfl
    have hhalf := half_le_tdiv (excess + keep + 2 ^ 32)
    rw [hwrap]
    omega

section

variable {qsort : ℕ → ℕ → List Comp → List Comp} (hqsort : ∀ N W tmp, (qsort N W tmp).Perm tmp)
include hqsort

/-- `deleteHeavierRows` keeps the counters exact and the excess at least
`keep`. -/
theorem deleteHeavierRows_spec (hmax : nrelmax < 2 ^ 31)
    (hkeep : -2 ^ 31 ≤ keep) (hfit : bound + keep < 2 ^ 31)
    (hexact : Exact nrelmax rows state) (hpruned : Pruned nrelmax rows keep bound state) :
    ∃ state', deleteHeavierRows qsort nrelmax keep state = some state' ∧
      Exact nrelmax rows state' ∧ Pruned nrelmax rows keep bound state' ∧
      state'.nrel ≤ state.nrel := by
  rw [deleteHeavierRows]
  split_ifs with hexcess
  · exact ⟨state, rfl, hexact, hpruned, le_rfl⟩
  · obtain ⟨sum, W, hrun, hsum⟩ := collectSums_spec hexact
    obtain ⟨T, visits, tmp, hcollect, hcollected, -⟩ :=
      collectComponents_spec hexact hpruned.nodup hmax (rowSums_of_sum hexact hpruned.nodup hsum)
    have hperm := hqsort (usedSet nrelmax state).card W tmp
    have htarget : keep ≤ ((state.excess + keep).bmod (2 ^ 32)).tdiv 2 := by
      refine keep_le_target hkeep (by omega) ?_
      have hnprimes := hexact.nprimes_eq
      have hnrel := hpruned.nrel_le
      rw [PurgeState.excess]
      omega
    obtain ⟨state', hdelete, hspec⟩ := deleteDownTo_spec htarget
      ((hperm.map Comp.i).nodup_iff.mpr hcollected.nodup)
      (fun comp hcomp =>
        hcollected.visited.used _ (hcollected.mem comp (hperm.mem_iff.mp hcomp))) hexact hpruned
    refine ⟨state', ?_, hspec⟩
    simpa [hrun, hexact.nrel_eq, hcollect] using hdelete

/-- From exact counters and an excess of at least `keep`, with primes distinct within
each relation and as long as the number of relations and `keep` add up to an
`int`, `remove_singletons` with its final pass ends; after each deletion the excess
is at least `keep`, no relation is deleted twice, and at the end each prime that occurs,
occurs twice.  From a row not visited yet, `compute_connected_component` visits each row
of its component once, and no other. -/
theorem removeSingletons_final (hexact : Exact nrelmax rows state)
    (hnodup : ∀ i ∈ usedSet nrelmax state, (rows i).Nodup) (hmax : nrelmax < 2 ^ 31)
    (hint : -2 ^ 31 ≤ keep) (hkeep : keep ≤ state.excess) (hfit : state.nrel + keep < 2 ^ 31)
    (hlog : state.log = []) {fuel : ℕ} (hfuel : state.nrel < fuel) :
    (∃ state', removeSingletons qsort nrelmax keep true fuel state = some state' ∧
      Exact nrelmax rows state' ∧ Closed rows (usedSet nrelmax state') ∧
      keep ≤ state'.excess ∧ (∀ entry ∈ state'.log, keep ≤ entry.2) ∧
      (state'.log.map Prod.fst).Nodup) ∧
    ∀ sum visits i, RowSums nrelmax rows state sum → Visited nrelmax rows state visits →
      i ∈ usedSet nrelmax state → i ∉ visits →
      ∃ news, computeConnectedComponent state.hashcount state.relCompact sum nrelmax
          (nrelmax + 1) (fun k => decide (k ∈ visits)) visits i
          = some (visitOf rows visits news) ∧
        news.Nodup ∧
        (∀ k, k ∈ news ↔ Relation.ReflTransGen (SharesPrime nrelmax rows state) i k) ∧
        Visited nrelmax rows state (news ++ visits) := by
  constructor
  · obtain ⟨state', hrun, hexact', hpruned, hclean⟩ := removeSingletons_rule
      (Pruned nrelmax rows keep state.nrel) qsort keep true
      (fun state₁ i state₂ hexact₁ hpruned₁ hi hsingle hdrop =>
        hpruned₁.dropRelation hexact₁ hi (Or.inr hsingle) hdrop)
      (fun _ state₁ hexact₁ hpruned₁ =>
        deleteHeavierRows_spec hqsort hmax hint hfit hexact₁ hpruned₁)
      hfuel hexact
      ⟨hnodup, hkeep, by simp [hlog], by simp [hlog], by simp [hlog], le_rfl⟩
    exact ⟨state', hrun, hexact', closed_of_no_singleton hexact' hclean, hpruned.keep_le,
      hpruned.log_keep, hpruned.log_nodup⟩
  · intro sum visits i hsum hvisited hi hnot
    have hcard : (usedSet nrelmax state).card ≤ nrelmax + 1 :=
      (Finset.card_filter_le _ _).trans (by rw [Finset.card_range]; omega)
    obtain ⟨news, hrun, hnews, hvisited'⟩ :=
      computeConnectedComponent_spec hexact hnodup hmax hsum hvisited hi hnot hcard
    exact ⟨news, hrun, (nodup_append.mp hvisited'.nodup).1, hnews, hvisited'⟩

end

/-- Pruning leaves at most the excess that is asked for. -/
theorem removeSingletons_final_three :
    ∃ state', removeSingletons (fun _ _ tmp => tmp) 3 (-2) true 4 threeRelationsState
      = some state' ∧ Closed threeRelations (usedSet 3 state') ∧ -2 ≤ state'.excess := by
  have hnodup : ∀ i ∈ usedSet 3 threeRelationsState, (threeRelations i).Nodup := by decide
  obtain ⟨⟨state', hrun, -, hclosed, hkeep, -⟩, -⟩ := removeSingletons_final
    (fun _ _ tmp => Perm.refl tmp) threeRelationsState_exact hnodup (by decide)
    (by decide : -2 ^ 31 ≤ (-2 : ℤ)) (by decide) (by decide) rfl
    (by decide : threeRelationsState.nrel < (4 : ℕ))
  exact ⟨state', hrun, hclosed, hkeep⟩

end Excess

/-! ## The range of an `int` -/

section Range

variable {nrelmax : ℕ} {state : PurgeState}

/-- `n` relations without primes. -/
def emptyRelations (n : ℕ) : PurgeState where
  hashcount _ := 0
  relUsed i := i < n
  relCompact i := if i < n then some [] else none
  nrel := n
  nprimes := 0
  log := []

theorem emptyRelations_exact (n : ℕ) : Exact n (fun _ => []) (emptyRelations n) where
  compact i hi _ := by simp [emptyRelations, hi]
  hashcount_eq h := by simp [emptyRelations, occurrences]
  nprimes_eq := by simp [emptyRelations]
  nrel_eq := by
    have hused : usedSet n (emptyRelations n) = Finset.range n := by
      ext i
      simp [emptyRelations]
    rw [hused, Finset.card_range]
    rfl

theorem excess_of_empty (hexact : Exact nrelmax (fun _ => []) state) :
    state.excess = state.nrel := by
  have hzero : {h | 0 < state.hashcount h} = ∅ := by
    ext h
    simp [hexact.hashcount_eq, occurrences]
  rw [PurgeState.excess, hexact.nprimes_eq, hzero, Set.ncard_empty]
  exact sub_zero _

theorem deleteDownTo_all {target : ℤ} (htarget : target < 0) {tmp : List Comp}
    (htmp : (tmp.map Comp.i).Nodup) (hmem : ∀ comp ∈ tmp, comp.i ∈ usedSet nrelmax state)
    (hexact : Exact nrelmax (fun _ => []) state) :
    ∃ state', deleteDownTo target tmp state = some state' ∧
      Exact nrelmax (fun _ => []) state' ∧ state'.nrel = state.nrel - tmp.length ∧
      ((∃ entry ∈ state.log, entry.2 = state.nrel) ∨ tmp ≠ [] →
        ∃ entry ∈ state'.log, entry.2 = state'.nrel) := by
  induction tmp generalizing state with
  | nil => exact ⟨state, rfl, hexact, by simp, by simp⟩
  | cons comp tmp ih =>
    have hi := hmem comp mem_cons_self
    obtain ⟨state₁, hdrop, hexact₁, hused, hnrel, -, -, hlog⟩ := dropRelation_spec hexact hi
    obtain ⟨hnot, htmp⟩ := List.nodup_cons.mp htmp
    obtain ⟨state', hrun, hexact', hlast, hentry⟩ := ih htmp
      (hused ▸ mem_erase_of_mem hnot hmem) hexact₁
    have hexcess := excess_of_empty hexact
    have hcard := hexact.nrel_eq
    refine ⟨state', ?_, hexact', by rw [hlast, List.length_cons]; omega, fun _ => hentry (Or.inl ?_)⟩
    · rw [deleteDownTo, if_pos (by omega), hdrop]
      exact hrun
    · refine ⟨(comp.i, state₁.excess), ?_, excess_of_empty hexact₁⟩
      rw [hlog]
      exact List.mem_append_right _ (List.mem_singleton_self _)

/-- Where the number of relations and `keep` do not add up to an `int`, the target
is negative and the excess is lost. -/
theorem removeSingletons_wraps {n : ℕ} {keep : ℤ} (hmax : n < 2 ^ 31) (hpos : 0 < keep)
    (hkeep : keep < n) (hwrap : 2 ^ 31 ≤ n + keep) :
    ∃ state', removeSingletons (fun _ _ tmp => tmp) n keep true (n + 1) (emptyRelations n)
      = some state' ∧ ∃ entry ∈ state'.log, entry.2 < keep := by
  have hexact := emptyRelations_exact n
  have hexcess : (emptyRelations n).excess = n := excess_of_empty hexact
  obtain ⟨sum, W, hrun, hsum⟩ := collectSums_spec hexact
  have hnodup : ∀ i ∈ usedSet n (emptyRelations n), ([] : List ℕ).Nodup := by simp
  obtain ⟨T, visits, tmp, hcollect, hcollected, hall⟩ :=
    collectComponents_spec hexact hnodup hmax (rowSums_of_sum hexact hnodup hsum)
  have hmem : ∀ comp ∈ tmp, comp.i ∈ usedSet n (emptyRelations n) := fun comp hcomp =>
    hcollected.visited.used _ (hcollected.mem comp hcomp)
  -- each relation is a component, so all are in the table
  have hlength : (n : ℤ) ≤ tmp.length := by
    have hsubset : usedSet n (emptyRelations n) ⊆ (tmp.map Comp.i).toFinset := by
      intro k hk
      obtain ⟨comp, hcomp, hreach⟩ := hcollected.cover k (hall k hk)
      have hsame : comp.i = k := by
        rcases hreach.cases_head with heq | ⟨j, hstep, -⟩
        · exact heq
        · obtain ⟨-, -, -, h, -, hh, -⟩ := hstep
          exact absurd hh List.not_mem_nil
      rw [List.mem_toFinset, ← hsame]
      exact mem_map_of_mem hcomp
    have hle := (Finset.card_le_card hsubset).trans (List.toFinset_card_le _)
    have hcard := hexact.nrel_eq
    rw [List.length_map] at hle
    have hnrel : (emptyRelations n).nrel = n := rfl
    omega
  have htarget : (((emptyRelations n).excess + keep).bmod (2 ^ 32)).tdiv 2 < 0 := by
    have hwrapped : ((n : ℤ) + keep).bmod (2 ^ 32) = n + keep - 2 ^ 32 := by
      rw [← Int.sub_bmod_right, Int.bmod_eq_of_le (by omega) (by omega)]
      rfl
    have hneg : (-((2 : ℤ) ^ 32 - n - keep)).tdiv 2 = -(((2 : ℤ) ^ 32 - n - keep).tdiv 2) :=
      Int.neg_tdiv _ _
    have hdiv := Int.tdiv_eq_ediv_of_nonneg (b := 2) (show 0 ≤ (2 : ℤ) ^ 32 - n - keep by omega)
    rw [hexcess, hwrapped, show (n : ℤ) + keep - 2 ^ 32 = -(2 ^ 32 - n - keep) by omega, hneg, hdiv]
    omega
  obtain ⟨state₁, hdelete, hexact₁, hnrel₁, hentry⟩ :=
    deleteDownTo_all htarget hcollected.nodup hmem hexact
  have hnrel : (emptyRelations n).nrel = n := rfl
  obtain ⟨entry, hentry, hvalue⟩ := hentry (Or.inr fun hnil => by
    rw [hnil, List.length_nil] at hlength
    omega)
  have hheavier : deleteHeavierRows (fun _ _ tmp => tmp) n keep (emptyRelations n)
      = some state₁ := by
    rw [deleteHeavierRows, if_neg (by omega)]
    simpa [hrun, hexact.nrel_eq, hcollect] using hdelete
  -- from here on nothing happens, and the log keeps the entry
  have hidle : ∀ (state : PurgeState) (i : ℕ) (state' : PurgeState),
      Exact n (fun _ => []) state →
      ((∃ entry ∈ state.log, entry.2 < keep) ∧ state.nrel ≤ keep) → i ∈ usedSet n state →
      hasSingleton [] state.hashcount = true → dropRelation i state = some state' →
      (∃ entry ∈ state'.log, entry.2 < keep) ∧ state'.nrel ≤ keep :=
    fun _ _ _ _ _ _ hsingle _ => absurd hsingle (by simp [hasSingleton])
  obtain ⟨state₂, honepass, hexact₂, hkept₂, hle₂, -⟩ := onepassSingletonRemoval_rule hidle
    hexact₁ ⟨⟨entry, hentry, by omega⟩, by omega⟩
  obtain ⟨state', hloop, -, ⟨hfinal, -⟩, -⟩ := removeSingletons_rule
    (fun state => (∃ entry ∈ state.log, entry.2 < keep) ∧ state.nrel ≤ keep)
    (fun _ _ tmp => tmp) keep true hidle
    (fun _ state hexact hkept => by
      have hidle := excess_of_empty hexact
      exact ⟨state, by rw [deleteHeavierRows, if_pos (by omega)], hexact, hkept, le_rfl⟩)
    (show state₂.nrel < n by omega) hexact₂ hkept₂
  refine ⟨state', ?_, hfinal⟩
  have hagain : state₂.nrel ≠ (emptyRelations n).nrel := by omega
  simp [removeSingletons, hheavier, honepass, hagain, hloop]

/-- With more than `2 ^ 30` relations and `keep` as large, the excess does fall below
`keep`. -/
theorem removeSingletons_int_limit :
    ¬ ∀ (qsort : ℕ → ℕ → List Comp → List Comp) (nrelmax : ℕ) (rows : ℕ → List ℕ)
      (state : PurgeState) (keep : ℤ) (fuel : ℕ), (∀ N W tmp, (qsort N W tmp).Perm tmp) →
      Exact nrelmax rows state → (∀ i ∈ usedSet nrelmax state, (rows i).Nodup) →
      nrelmax < 2 ^ 31 → -2 ^ 31 ≤ keep → keep < 2 ^ 31 → keep ≤ state.excess →
      state.log = [] → state.nrel < fuel →
      ∀ state', removeSingletons qsort nrelmax keep true fuel state = some state' →
        ∀ entry ∈ state'.log, keep ≤ entry.2 := by
  intro hsafe
  have hlimit : ∀ (n : ℕ) (keep : ℤ), n = 2 ^ 30 + 1 → keep = 2 ^ 30 → False := by
    intro n keep hn hkeep
    have hexact := emptyRelations_exact n
    have hexcess : (emptyRelations n).excess = n := excess_of_empty hexact
    have hnrel : (emptyRelations n).nrel = n := rfl
    obtain ⟨state', hrun, entry, hentry, hlt⟩ :=
      removeSingletons_wraps (by omega) (by omega) (by omega : keep < n) (by omega)
    have hle := hsafe (fun _ _ tmp => tmp) n (fun _ => []) (emptyRelations n) keep (n + 1)
      (fun _ _ tmp => Perm.refl tmp) hexact (by simp) (by omega) (by omega) (by omega)
      (by omega) rfl (by omega) state' hrun entry hentry
    omega
  exact hlimit _ _ rfl rfl

end Range

end CadoNfs.Purge
