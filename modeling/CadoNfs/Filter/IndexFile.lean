import CadoNfs.Filter.Replay
import CadoNfs.Lib.ForRange

/-!
# Loops over the index file

Programs after `replay` read the rows of the index file one number after the other.
The rules here are those of counting loops, for bodies that read as they go.

Main results:

- Theorem `scanRow_induct`: an invariant of a loop over the numbers of a row.
- Theorem `scanRows_induct`: an invariant of a loop over the rows.
-/

namespace CadoNfs.Replay

open ForRange
open Option (bind_eq_bind bind_eq_some_iff bind_some pure_def)

/-- The rows of an index file. -/
def indexRows (text : List Char) : Option (List (List ℕ)) := do
  let (smallNrows, text) ← scanInt 10 text
  let (_, text) ← scanInt 10 text
  scanRows smallNrows text

variable {σ : Type*}

/-- An invariant that every number of a row carries to the next one. -/
theorem scanRow_induct {motive : List ℕ → σ → Prop}
    (body : σ → ℕ → List Char → Option (σ × List Char)) {nc : ℕ} {text rest : List Char}
    {row : List ℕ} (hscan : scanRow nc text = some (row, rest)) {s : σ} (hstart : motive [] s)
    (hstep : ∀ done, ∀ col ∈ row, ∀ s, motive done s →
      ∃ s', (∀ text, body s col text = some (s', text)) ∧ motive (done ++ [col]) s') :
    ∃ s', forRangeM nc (fun _ x => (scanInt 16 x.2).bind fun y => body x.1 y.1 y.2) (s, text)
        = some (s', rest) ∧ motive row s' := by
  suffices hloop : ∀ nc text row done s, scanRow nc text = some (row, rest) → motive done s →
      (∀ done, ∀ col ∈ row, ∀ s, motive done s →
        ∃ s', (∀ text, body s col text = some (s', text)) ∧ motive (done ++ [col]) s') →
      ∃ s', forRangeM nc (fun _ x => (scanInt 16 x.2).bind fun y => body x.1 y.1 y.2) (s, text)
        = some (s', rest) ∧ motive (done ++ row) s' from
    hloop nc text row [] s hscan hstart hstep
  intro nc
  induction nc with
  | zero =>
    intro text row done s hscan hs _
    obtain ⟨rfl, rfl⟩ : [] = row ∧ text = rest := by simpa [scanRow] using hscan
    exact ⟨s, rfl, by rwa [List.append_nil]⟩
  | succ nc ih =>
    intro text row done s hscan hs hstep
    simp only [scanRow, bind_eq_bind, bind_eq_some_iff, Option.some.injEq,
      pure_def, Prod.mk.injEq, Prod.exists] at hscan
    obtain ⟨col, text₁, hcol, row₁, text₂, hrest, rfl, rfl⟩ := hscan
    obtain ⟨s₁, hbody, hs₁⟩ := hstep done col List.mem_cons_self s hs
    obtain ⟨s₂, hrun, hs₂⟩ := ih text₁ row₁ (done ++ [col]) s₁ hrest hs₁
      fun done x hx => hstep done x (List.mem_cons_of_mem col hx)
    refine ⟨s₂, ?_, by rwa [List.append_assoc] at hs₂⟩
    rw [forRangeM_first, hcol, bind_some, hbody, bind_some]
    exact hrun

theorem length_of_scanRows {smallNrows : ℕ} {text : List Char} {rows : List (List ℕ)}
    (hscan : scanRows smallNrows text = some rows) : rows.length = smallNrows := by
  induction smallNrows generalizing text rows with
  | zero =>
    obtain rfl : [] = rows := by simpa [scanRows] using hscan
    rfl
  | succ smallNrows ih =>
    simp only [scanRows, bind_eq_bind, bind_eq_some_iff, Option.some.injEq,
      pure_def, Prod.exists] at hscan
    obtain ⟨nc, text₁, -, row, text₂, -, rows₁, hrest, rfl⟩ := hscan
    rw [List.length_cons, ih hrest]

/-- An invariant that every row carries to the next one. -/
theorem scanRows_induct {motive : List (List ℕ) → σ → Prop}
    (body : ℕ → σ → ℕ → List Char → Option (σ × List Char)) {smallNrows : ℕ}
    {text : List Char} {rows : List (List ℕ)} (hscan : scanRows smallNrows text = some rows)
    {s : σ} (hstart : motive [] s)
    (hstep : ∀ done, done.length < smallNrows → ∀ row ∈ rows, ∀ s nc text rest,
      scanRow nc text = some (row, rest) → motive done s →
      ∃ s', body done.length s nc text = some (s', rest) ∧ motive (done ++ [row]) s') :
    ∃ r, forRangeM smallNrows (fun i x =>
      (scanInt 10 x.2).bind fun y => body i x.1 y.1 y.2) (s, text) = some r ∧ motive rows r.1 := by
  suffices hloop : ∀ n text rows done s, scanRows n text = some rows → motive done s →
      (∀ done', done'.length < done.length + n → ∀ row ∈ rows, ∀ s nc text rest,
        scanRow nc text = some (row, rest) → motive done' s →
        ∃ s', body done'.length s nc text = some (s', rest) ∧ motive (done' ++ [row]) s') →
      ∃ r, forRangeM n (fun i x =>
        (scanInt 10 x.2).bind fun y => body (done.length + i) x.1 y.1 y.2) (s, text) = some r ∧
        motive (done ++ rows) r.1 by
    simpa using hloop smallNrows text rows [] s hscan hstart (by simpa using hstep)
  intro n
  induction n with
  | zero =>
    intro text rows done s hscan hs _
    obtain rfl : [] = rows := by simpa [scanRows] using hscan
    exact ⟨(s, text), rfl, by rwa [List.append_nil]⟩
  | succ n ih =>
    intro text rows done s hscan hs hstep
    simp only [scanRows, bind_eq_bind, bind_eq_some_iff, Option.some.injEq,
      pure_def, Prod.exists] at hscan
    obtain ⟨nc, text₁, hnc, row, text₂, hrow, rows₁, hrest, rfl⟩ := hscan
    obtain ⟨s₁, hbody, hs₁⟩ := hstep done (by omega) row List.mem_cons_self s nc text₁ text₂
      hrow hs
    obtain ⟨r, hrun, hr⟩ := ih text₂ rows₁ (done ++ [row]) s₁ hrest hs₁
      fun done' hdone' x hx => hstep done'
        (by rw [List.length_append, List.length_singleton] at hdone'; omega)
        x (List.mem_cons_of_mem row hx)
    refine ⟨r, ?_, by rwa [List.append_assoc] at hr⟩
    rw [forRangeM_first, hnc, bind_some]
    simp only [add_zero, hbody, bind_some]
    refine Eq.trans ?_ hrun
    refine congrArg (forRangeM n · (s₁, text₂)) (funext fun i => ?_)
    rw [List.length_append, List.length_singleton, add_assoc, add_comm 1 i]

end CadoNfs.Replay
