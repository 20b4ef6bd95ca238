import Mathlib.Data.List.Basic

/-!
# Loops over lists

A loop over a list with a body that may fail.

Main results:

- Theorem `foldlM_induct`: an invariant on the part of the list that has been read.
- Theorem `foldlM_chunks`: a list that is read in pieces.
- Theorem `mapM_eq_some_map`: a loop that maps a list.
-/

namespace FoldLoop

variable {σ α : Type*} {f : σ → α → Option σ}

/-- An invariant under which every pass succeeds and which it carries to the next one. -/
theorem foldlM_induct {motive : List α → σ → Prop} {s : σ} (l : List α) (hnil : motive [] s)
    (hstep : ∀ done a rest, l = done ++ a :: rest → ∀ s, motive done s →
      ∃ s', f s a = some s' ∧ motive (done ++ [a]) s') :
    ∃ s', l.foldlM f s = some s' ∧ motive l s' := by
  have hrest : ∀ done rest, l = done ++ rest → ∀ s, motive done s →
      ∃ s', rest.foldlM f s = some s' ∧ motive l s' := by
    intro done rest
    induction rest generalizing done with
    | nil =>
      intro hl s hs
      rw [List.append_nil] at hl
      exact ⟨s, rfl, hl ▸ hs⟩
    | cons a rest ih =>
      intro hl s hs
      obtain ⟨s₁, hrun, hs₁⟩ := hstep done a rest hl s hs
      obtain ⟨s₂, hrun₂, hs₂⟩ := ih (done ++ [a]) (by simpa using hl) s₁ hs₁
      refine ⟨s₂, ?_, hs₂⟩
      rw [List.foldlM_cons, hrun]
      exact hrun₂
  exact hrest [] l rfl s hnil

/-- A list that is read in pieces. -/
theorem foldlM_chunks (chunks : List (List α)) (s : σ) :
    chunks.foldlM (fun s chunk => chunk.foldlM f s) s = chunks.flatten.foldlM f s := by
  induction chunks generalizing s with
  | nil => rfl
  | cons chunk chunks ih =>
    rw [List.foldlM_cons, List.flatten_cons, List.foldlM_append]
    exact congrArg _ (funext ih)

/-- A loop that maps a list, where the body succeeds at every element. -/
theorem mapM_eq_some_map {β : Type*} {f : α → Option β} {g : α → β} {l : List α}
    (h : ∀ a ∈ l, f a = some (g a)) : l.mapM f = some (l.map g) := by
  induction l with
  | nil => rfl
  | cons a l ih =>
    obtain ⟨ha, hl⟩ := List.forall_mem_cons.mp h
    rw [List.mapM_cons, ha, ih hl]
    rfl

end FoldLoop
