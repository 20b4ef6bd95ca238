import Mathlib.Data.Finset.Card

/-!
# Depth-first search

A recursive search that marks a vertex, then searches from each neighbour not yet marked.
The fuel is the depth of the recursion.

Main results:

- Theorem `dfs_spec`: with fuel for the unmarked vertices the search ends; what it
  marks is reachable and has all its neighbours marked.
- Theorem `Search.mem_iff`: over a symmetric relation it marks a component.
-/

namespace CadoNfs.DepthFirst

open List (append_assoc mem_append mem_append_right)

variable {α : Type*} {next : α → List α} {seen : List α} {a : α}

/-! ## What a search adds -/

/-- One vertex is reached from another. -/
def Reaches (next : α → List α) : α → α → Prop :=
  Relation.ReflTransGen fun a b => b ∈ next a

/-- What a search adds to the marked vertices. -/
structure Search (next : α → List α) (seen news : List α) : Prop where
  nodup : (news ++ seen).Nodup
  next_mem : ∀ b ∈ news, ∀ c ∈ next b, c ∈ news ++ seen

theorem Search.append {news₁ news₂ : List α} (h₁ : Search next seen news₁)
    (h₂ : Search next (news₁ ++ seen) news₂) : Search next seen (news₂ ++ news₁) := by
  refine ⟨by rw [append_assoc]; exact h₂.nodup, fun b hb c hc => ?_⟩
  rw [append_assoc]
  rcases mem_append.mp hb with hb | hb
  · exact h₂.next_mem b hb c hc
  · exact mem_append_right news₂ (h₁.next_mem b hb c hc)

/-- If the relation is symmetric and nothing leads out of the marked vertices, the search
marks exactly what can be reached. -/
theorem Search.mem_iff {news : List α} (hsearch : Search next seen news)
    (hsymm : ∀ a b, b ∈ next a → a ∈ next b) (hseen : ∀ b ∈ seen, ∀ c ∈ next b, c ∈ seen)
    (ha : a ∈ news) (hreach : ∀ b ∈ news, Reaches next a b) (b : α) :
    b ∈ news ↔ Reaches next a b := by
  refine ⟨hreach b, fun h => ?_⟩
  induction h with
  | refl => exact ha
  | tail _ hstep ih =>
    rename_i b c _
    rcases mem_append.mp (hsearch.next_mem b ih c hstep) with hc | hc
    · exact hc
    · have hb := hseen c hc b (hsymm b c hstep)
      exact absurd hb (List.disjoint_of_nodup_append hsearch.nodup ih)

theorem Search.next_mem_append {news : List α} (hsearch : Search next seen news)
    (hseen : ∀ b ∈ seen, ∀ c ∈ next b, c ∈ seen) :
    ∀ b ∈ news ++ seen, ∀ c ∈ next b, c ∈ news ++ seen := by
  intro b hb c hc
  rcases mem_append.mp hb with hb | hb
  · exact hsearch.next_mem b hb c hc
  · exact mem_append_right news (hseen b hb c hc)

/-! ## The search -/

variable [DecidableEq α] {fuel : ℕ} {L : List α}

/-- The marked vertices, the last one first, after a search from `a`. -/
def dfs (next : α → List α) : ℕ → List α → α → Option (List α)
  | 0, _, _ => none
  | fuel + 1, seen, a =>
    (next a).foldlM (fun seen b => if b ∈ seen then some seen else dfs next fuel seen b)
      (a :: seen)

/-- The searches from the vertices of a list. -/
def dfsList (next : α → List α) (fuel : ℕ) (seen : List α) (L : List α) : Option (List α) :=
  L.foldlM (fun seen b => if b ∈ seen then some seen else dfs next fuel seen b) seen

theorem dfs_succ : dfs next (fuel + 1) seen a = dfsList next fuel (a :: seen) (next a) :=
  rfl

@[simp]
theorem dfsList_nil : dfsList next fuel seen [] = some seen :=
  rfl

theorem dfsList_cons_of_mem (ha : a ∈ seen) :
    dfsList next fuel seen (a :: L) = dfsList next fuel seen L := by
  rw [dfsList, List.foldlM_cons, if_pos ha]
  rfl

theorem dfsList_cons_of_not_mem (ha : a ∉ seen) :
    dfsList next fuel seen (a :: L)
      = (dfs next fuel seen a).bind fun seen => dfsList next fuel seen L := by
  rw [dfsList, List.foldlM_cons, if_neg ha]
  rfl

theorem dfsList_append_of
    (hdfs : ∀ {seen a seen'}, dfs next fuel seen a = some seen' → ∃ news, seen' = news ++ seen)
    {seen' : List α} (h : dfsList next fuel seen L = some seen') :
    ∃ news, seen' = news ++ seen := by
  induction L generalizing seen with
  | nil => exact ⟨[], (Option.some.inj h).symm⟩
  | cons b L ih =>
    by_cases hb : b ∈ seen
    · rw [dfsList_cons_of_mem hb] at h
      exact ih h
    · rw [dfsList_cons_of_not_mem hb] at h
      obtain ⟨seen₁, hrun₁, hrun⟩ := Option.bind_eq_some_iff.mp h
      obtain ⟨news₁, rfl⟩ := hdfs hrun₁
      obtain ⟨news, rfl⟩ := ih hrun
      exact ⟨news ++ news₁, by rw [append_assoc]⟩

theorem dfs_append {seen' : List α} (h : dfs next fuel seen a = some seen') :
    ∃ news, seen' = news ++ seen := by
  induction fuel generalizing seen a seen' with
  | zero => simp [dfs] at h
  | succ fuel ih =>
    obtain ⟨news, rfl⟩ := dfsList_append_of ih (dfs_succ.symm.trans h)
    exact ⟨news ++ [a], by rw [append_assoc]; rfl⟩

theorem dfsList_append {seen' : List α} (h : dfsList next fuel seen L = some seen') :
    ∃ news, seen' = news ++ seen :=
  dfsList_append_of dfs_append h

variable {U : Finset α}

theorem card_unmarked_append_le (news : List α) :
    (U.filter (· ∉ news ++ seen)).card ≤ (U.filter (· ∉ seen)).card := by
  refine Finset.card_le_card fun b hb => ?_
  rw [Finset.mem_filter, mem_append, not_or] at hb
  exact Finset.mem_filter.mpr ⟨hb.1, hb.2.2⟩

theorem card_unmarked_cons_lt (haU : a ∈ U) (ha : a ∉ seen) :
    (U.filter (· ∉ a :: seen)).card < (U.filter (· ∉ seen)).card := by
  refine Finset.card_lt_card ⟨fun b hb => ?_, fun hsup => ?_⟩
  · rw [Finset.mem_filter, List.mem_cons, not_or] at hb
    exact Finset.mem_filter.mpr ⟨hb.1, hb.2.2⟩
  · have hmem := hsup (Finset.mem_filter.mpr ⟨haU, ha⟩)
    simp at hmem

/-- With fuel for the unmarked vertices of a set closed under `next`, the search ends;
it marks its start, what it marks is reached from there, and all neighbours are marked. -/
theorem dfs_spec (hU : ∀ a ∈ U, ∀ b ∈ next a, b ∈ U) (haU : a ∈ U) (ha : a ∉ seen)
    (hnodup : seen.Nodup) (hfuel : (U.filter (· ∉ seen)).card ≤ fuel) :
    ∃ news, dfs next fuel seen a = some (news ++ seen) ∧ Search next seen news ∧
      a ∈ news ∧ ∀ b ∈ news, b ∈ U ∧ Reaches next a b := by
  induction fuel generalizing seen a with
  | zero =>
    have hlt := card_unmarked_cons_lt haU ha
    omega
  | succ fuel ih =>
    have hlist : ∀ L : List α, (∀ b ∈ L, b ∈ U) → ∀ seen : List α, seen.Nodup →
        (U.filter (· ∉ seen)).card ≤ fuel →
        ∃ news, dfsList next fuel seen L = some (news ++ seen) ∧ Search next seen news ∧
          (∀ b ∈ L, b ∈ news ++ seen) ∧ ∀ b ∈ news, b ∈ U ∧ ∃ c ∈ L, Reaches next c b := by
      intro L hL
      induction L with
      | nil =>
        intro seen hnodup _
        exact ⟨[], rfl, ⟨hnodup, by simp⟩, by simp, by simp⟩
      | cons c L ihL =>
        intro seen hnodup hfuel
        have ihL := ihL fun b hb => hL b (List.mem_cons_of_mem c hb)
        by_cases hc : c ∈ seen
        · obtain ⟨news, hrun, hsearch, hmem, hnews⟩ := ihL seen hnodup hfuel
          refine ⟨news, by rw [dfsList_cons_of_mem hc, hrun], hsearch, ?_, fun b hb => ?_⟩
          · exact List.forall_mem_cons.mpr ⟨mem_append_right news hc, hmem⟩
          · obtain ⟨hbU, d, hd, hreach⟩ := hnews b hb
            exact ⟨hbU, d, List.mem_cons_of_mem c hd, hreach⟩
        · obtain ⟨news₁, hrun₁, hsearch₁, hc₁, hnews₁⟩ :=
            ih (hL c List.mem_cons_self) hc hnodup hfuel
          obtain ⟨news₂, hrun₂, hsearch₂, hmem₂, hnews₂⟩ := ihL (news₁ ++ seen) hsearch₁.nodup
            ((card_unmarked_append_le news₁).trans hfuel)
          refine ⟨news₂ ++ news₁, ?_, hsearch₁.append hsearch₂, ?_, fun b hb => ?_⟩
          · rw [dfsList_cons_of_not_mem hc, hrun₁, Option.bind_some, hrun₂, append_assoc]
          · rw [append_assoc]
            exact List.forall_mem_cons.mpr
              ⟨mem_append_right _ (List.mem_append_left _ hc₁), hmem₂⟩
          · rcases mem_append.mp hb with hb | hb
            · obtain ⟨hbU, d, hd, hreach⟩ := hnews₂ b hb
              exact ⟨hbU, d, List.mem_cons_of_mem c hd, hreach⟩
            · exact ⟨(hnews₁ b hb).1, c, List.mem_cons_self, (hnews₁ b hb).2⟩
    have hlt := card_unmarked_cons_lt haU ha
    obtain ⟨news, hrun, hsearch, hmem, hnews⟩ := hlist (next a) (hU a haU) (a :: seen)
      (List.nodup_cons.mpr ⟨ha, hnodup⟩) (by omega)
    refine ⟨news ++ [a], by rw [dfs_succ, hrun, append_assoc]; rfl, ⟨?_, ?_⟩, by simp, ?_⟩
    · simpa [append_assoc] using hsearch.nodup
    · intro b hb c hc
      rw [append_assoc]
      rcases mem_append.mp hb with hb | hb
      · exact hsearch.next_mem b hb c hc
      · exact hmem c (by rwa [List.mem_singleton.mp hb] at hc)
    · intro b hb
      rcases mem_append.mp hb with hb | hb
      · obtain ⟨hbU, c, hc, hreach⟩ := hnews b hb
        exact ⟨hbU, Relation.ReflTransGen.head hc hreach⟩
      · rw [List.mem_singleton.mp hb]
        exact ⟨haU, Relation.ReflTransGen.refl⟩

end CadoNfs.DepthFirst
