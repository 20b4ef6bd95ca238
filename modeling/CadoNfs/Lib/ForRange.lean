import Mathlib.Tactic.Common

/-!
# Counting loops

The loop `for (i = 0; i < n; i++)` over a state, the rule for its invariants, and
loops over a memory in which every pass changes each cell by itself: such a loop is a
loop over the value of each cell.

Main results:

- Theorem `forRange_induct`: an invariant that a pass carries from its index to the
  next one holds at the end.
- Theorem `forRange_pointwise`: a loop that changes each cell by itself, read at one
  cell.
- Theorem `forRange_only`: a loop in which only one pass does something.
- Theorem `forRange_at_only`: a cell that only one pass changes.
- Theorem `forRange_inPlace_apply`: a loop that works in place and reads ahead.
-/

namespace ForRange

open Function (update update_of_ne update_self)

variable {σ α κ : Type*}

/-- The passes `0`, ..., `n - 1` of a loop in turn. -/
def forRange (n : ℕ) (body : ℕ → σ → σ) (s : σ) : σ :=
  match n with
  | 0 => s
  | n + 1 => body n (forRange n body s)

@[simp]
theorem forRange_zero (body : ℕ → σ → σ) (s : σ) : forRange 0 body s = s :=
  rfl

theorem forRange_succ (n : ℕ) (body : ℕ → σ → σ) (s : σ) :
    forRange (n + 1) body s = body n (forRange n body s) :=
  rfl

theorem forRange_add (m n : ℕ) (body : ℕ → σ → σ) (s : σ) :
    forRange (m + n) body s = forRange n (fun i => body (m + i)) (forRange m body s) := by
  induction n with
  | zero => rfl
  | succ n ih => rw [← Nat.add_assoc, forRange_succ, forRange_succ, ih]

variable {motive : ℕ → σ → Prop}

/-- An invariant that every pass carries from its index to the next one. -/
theorem forRange_induct (body : ℕ → σ → σ) (s : σ) (n : ℕ)
    (hzero : motive 0 s) (hstep : ∀ i < n, ∀ s, motive i s → motive (i + 1) (body i s)) :
    motive n (forRange n body s) := by
  induction n with
  | zero => exact hzero
  | succ n ih =>
    exact hstep n n.lt_succ_self _ (ih fun i hi => hstep i (Nat.lt_succ_of_lt hi))

theorem forRange_congr {n : ℕ} {body body' : ℕ → σ → σ}
    (h : ∀ i < n, ∀ s, body i s = body' i s) (s : σ) :
    forRange n body s = forRange n body' s := by
  induction n with
  | zero => rfl
  | succ n ih =>
    rw [forRange_succ, forRange_succ, ih fun i hi => h i (Nat.lt_succ_of_lt hi), h n n.lt_succ_self]

theorem forRange_id {n : ℕ} {body : ℕ → σ → σ} (h : ∀ i < n, ∀ s, body i s = s) (s : σ) :
    forRange n body s = s := by
  induction n with
  | zero => rfl
  | succ n ih =>
    rw [forRange_succ, h n n.lt_succ_self, ih fun i hi => h i (Nat.lt_succ_of_lt hi)]

/-- A loop in which only one pass does something. -/
theorem forRange_only {n k : ℕ} {body : ℕ → σ → σ} (hk : k < n)
    (h : ∀ i < n, i ≠ k → ∀ s, body i s = s) (s : σ) :
    forRange n body s = body k s := by
  obtain ⟨rest, rfl⟩ := Nat.exists_eq_add_of_lt hk
  rw [Nat.add_assoc, forRange_add, Nat.add_comm rest 1, forRange_add]
  rw [forRange_id (n := rest) fun i hi s => h _ (by omega) (by omega) s]
  rw [forRange_id (n := k) fun i hi s => h i (by omega) (by omega) s]
  rfl

/-- Two nested loops as one. -/
theorem forRange_flatten (n l : ℕ) (body : ℕ → ℕ → σ → σ) (s : σ) :
    forRange n (fun i => forRange l (body i)) s
      = forRange (n * l) (fun x => body (x / l) (x % l)) s := by
  induction n with
  | zero => rw [Nat.zero_mul, forRange_zero, forRange_zero]
  | succ n ih =>
    rw [forRange_succ, ih, Nat.succ_mul, forRange_add]
    refine forRange_congr (fun j hj s => ?_) _
    rw [Nat.mul_comm n l, Nat.mul_add_div (by omega), Nat.mul_add_mod, Nat.div_eq_of_lt hj,
      Nat.mod_eq_of_lt hj, Nat.add_zero]

section

variable {n : ℕ} {body : ℕ → (κ → α) → κ → α}

/-- A loop over a memory that changes each cell by itself, read at one cell. -/
theorem forRange_pointwise (point : ℕ → κ → α → α)
    (h : ∀ i ws x, body i ws x = point i x (ws x)) (ws : κ → α) (x : κ) :
    forRange n body ws x = forRange n (fun i => point i x) (ws x) := by
  induction n with
  | zero => rfl
  | succ n ih => rw [forRange_succ, forRange_succ, h, ih]

theorem forRange_at_id {x : κ}
    (h : ∀ i < n, ∀ ws, body i ws x = ws x) (ws : κ → α) : forRange n body ws x = ws x := by
  induction n with
  | zero => rfl
  | succ n ih =>
    rw [forRange_succ, h n n.lt_succ_self, ih fun i hi => h i (Nat.lt_succ_of_lt hi)]

end

/-- A cell that only one pass changes, where that pass looks at no other cell. -/
theorem forRange_at_only {n k : ℕ} {body : ℕ → (κ → α) → κ → α} {x : κ} (hk : k < n)
    (h : ∀ i < n, i ≠ k → ∀ ws, body i ws x = ws x)
    (hlocal : ∀ ws ws', ws x = ws' x → body k ws x = body k ws' x) (ws : κ → α) :
    forRange n body ws x = body k ws x := by
  obtain ⟨rest, rfl⟩ := Nat.exists_eq_add_of_lt hk
  rw [Nat.add_assoc, forRange_add, Nat.add_comm rest 1, forRange_add]
  rw [forRange_at_id (n := rest) fun i hi ws => h _ (by omega) (by omega) ws]
  refine hlocal _ _ ?_
  exact forRange_at_id (fun i hi ws => h i (by omega) (by omega) ws) ws

theorem forRange_at_local {n : ℕ} {body : ℕ → (κ → α) → κ → α} {x : κ}
    (h : ∀ i < n, ∀ ws ws', ws x = ws' x → body i ws x = body i ws' x) {ws ws' : κ → α}
    (hws : ws x = ws' x) : forRange n body ws x = forRange n body ws' x := by
  induction n with
  | zero => exact hws
  | succ n ih => exact h n n.lt_succ_self _ _ (ih fun i hi => h i (Nat.lt_succ_of_lt hi))

section Nested

variable {n m k l : ℕ} {body : ℕ → ℕ → (κ → α) → κ → α} {x : κ}

theorem forRange_nested_at_id (h : ∀ i < n, ∀ j < m, ∀ ws, body i j ws x = ws x)
    (ws : κ → α) : forRange n (fun i => forRange m (body i)) ws x = ws x :=
  forRange_at_id (fun i hi ws => forRange_at_id (h i hi) ws) ws

variable (body) in
theorem forRange_nested_at_only (hk : k < n) (hl : l < m)
    (h : ∀ i < n, ∀ j < m, (i, j) ≠ (k, l) → ∀ ws, body i j ws x = ws x)
    (hlocal : ∀ ws ws', ws x = ws' x → body k l ws x = body k l ws' x) (ws : κ → α) :
    forRange n (fun i => forRange m (body i)) ws x = body k l ws x := by
  have hinner : ∀ ws, forRange m (body k) ws x = body k l ws x :=
    forRange_at_only hl (fun j hj hne ws => h k hk j hj (by simpa using hne) ws) hlocal
  rw [forRange_at_only hk (fun i hi hne ws => forRange_at_id
    (fun j hj ws => h i hi j hj (by simp [hne]) ws) ws), hinner]
  intro ws ws' hws
  rw [hinner, hinner]
  exact hlocal ws ws' hws

end Nested

theorem forRange_update_apply [DecidableEq κ] {n : ℕ} {p : ℕ → κ} (v : ℕ → α)
    (hp : ∀ i < n, ∀ j < n, p i = p j → i = j) {k : ℕ} (hk : k < n) (ws : κ → α) :
    forRange n (fun i ws => update ws (p i) (v i)) ws (p k) = v k := by
  rw [forRange_at_only hk (fun i hi hne ws =>
    update_of_ne (fun heq => hne (hp i hi k hk heq.symm)) _ _) (fun ws ws' _ => ?_)]
  · exact update_self _ _ _
  · rw [update_self, update_self]

/-- What a loop leaves in a cell that pass `k` writes, where every later write to the cell is of the
same value. -/
theorem forRange_update_last [DecidableEq κ] {n k : ℕ} {p : ℕ → κ} {v : ℕ → α} (hk : k < n)
    (hlater : ∀ i < n, k < i → p i = p k → v i = v k) (ws : κ → α) :
    forRange n (fun i ws => update ws (p i) (v i)) ws (p k) = v k := by
  induction n with
  | zero => exact absurd hk (Nat.not_lt_zero k)
  | succ n ih =>
    rw [forRange_succ]
    by_cases hcell : p n = p k
    · rw [hcell, update_self]
      rcases Nat.lt_succ_iff_lt_or_eq.mp hk with hlt | rfl
      · exact hlater n n.lt_succ_self hlt hcell
      · rfl
    · have hne : k ≠ n := fun h => hcell (h ▸ rfl)
      rw [update_of_ne (Ne.symm hcell)]
      exact ih (by omega) fun i hi => hlater i (Nat.lt_succ_of_lt hi)

theorem forRange_update_of_ne [DecidableEq κ] {n : ℕ} {p : ℕ → κ} (v : ℕ → α) {x : κ}
    (hx : ∀ i < n, x ≠ p i) (ws : κ → α) :
    forRange n (fun i ws => update ws (p i) (v i)) ws x = ws x :=
  forRange_at_id (fun i hi _ => update_of_ne (hx i hi) _ _) ws

/-- A loop that writes cell after cell, where a pass looks at no cell that has been written. -/
theorem forRange_inPlace_apply [DecidableEq κ] {n : ℕ} {p : ℕ → κ} (v : ℕ → (κ → α) → α)
    (hp : ∀ i < n, ∀ j < n, p i = p j → i = j)
    (hlocal : ∀ i < n, ∀ ws ws', (∀ x, (∀ j < i, x ≠ p j) → ws x = ws' x) → v i ws = v i ws')
    {k : ℕ} (hk : k < n) (ws : κ → α) :
    forRange n (fun i ws => update ws (p i) (v i ws)) ws (p k) = v k ws := by
  induction n with
  | zero => exact absurd hk (Nat.not_lt_zero k)
  | succ n ih =>
    rw [forRange_succ]
    rcases Nat.lt_succ_iff_lt_or_eq.mp hk with hlt | rfl
    · rw [update_of_ne fun heq => absurd (hp k hk n n.lt_succ_self heq) (by omega)]
      exact ih (fun i hi j hj => hp i (by omega) j (by omega))
        (fun i hi => hlocal i (by omega)) hlt
    · rw [update_self]
      exact hlocal k hk _ _ fun x hx =>
        forRange_at_id (fun i hi _ => update_of_ne (hx i hi) _ _) ws

theorem forRange_inPlace_of_ne [DecidableEq κ] {n : ℕ} {p : ℕ → κ} (v : ℕ → (κ → α) → α) {x : κ}
    (hx : ∀ i < n, x ≠ p i) (ws : κ → α) :
    forRange n (fun i ws => update ws (p i) (v i ws)) ws x = ws x :=
  forRange_at_id (fun i hi _ => update_of_ne (hx i hi) _ _) ws

theorem forRange_ite {n : ℕ} {c : Prop} [Decidable c] (body : ℕ → σ → σ) (s : σ) :
    forRange n (fun i s => if c then body i s else s) s
      = if c then forRange n body s else s := by
  by_cases hc : c
  · simp [if_pos hc]
  · simp only [if_neg hc]
    exact forRange_id (fun _ _ _ => rfl) s

/-- The passes of a loop that can fail. -/
def forRangeM (n : ℕ) (body : ℕ → σ → Option σ) (s : σ) : Option σ :=
  match n with
  | 0 => some s
  | n + 1 => (forRangeM n body s).bind (body n)

theorem forRangeM_first (n : ℕ) (body : ℕ → σ → Option σ) (s : σ) :
    forRangeM (n + 1) body s = (body 0 s).bind (forRangeM n fun i => body (i + 1)) := by
  induction n with
  | zero => exact (Option.bind_fun_some (body 0 s)).symm
  | succ n ih =>
    rw [forRangeM, ih, Option.bind_assoc]
    rfl

theorem forRangeM_induct (body : ℕ → σ → Option σ) (s : σ) (n : ℕ) (hzero : motive 0 s)
    (hstep : ∀ i < n, ∀ s, motive i s → ∃ s', body i s = some s' ∧ motive (i + 1) s') :
    ∃ s', forRangeM n body s = some s' ∧ motive n s' := by
  induction n with
  | zero => exact ⟨s, rfl, hzero⟩
  | succ n ih =>
    obtain ⟨s₁, hrun, hmotive⟩ := ih fun i hi => hstep i (Nat.lt_succ_of_lt hi)
    obtain ⟨s₂, hbody, hmotive⟩ := hstep n n.lt_succ_self s₁ hmotive
    exact ⟨s₂, by rw [forRangeM, hrun, Option.bind_some, hbody], hmotive⟩

theorem forRangeM_induct_or {q : Prop} (body : ℕ → σ → Option σ)
    (s : σ) (n : ℕ) (hzero : motive 0 s)
    (hstep : ∀ i < n, ∀ s, motive i s →
      (∃ s', body i s = some s' ∧ motive (i + 1) s') ∨ q ∧ body i s = none) :
    (∃ s', forRangeM n body s = some s' ∧ motive n s') ∨ q ∧ forRangeM n body s = none := by
  induction n with
  | zero => exact Or.inl ⟨s, rfl, hzero⟩
  | succ n ih =>
    rcases ih fun i hi => hstep i (Nat.lt_succ_of_lt hi) with ⟨s₁, hrun, hmotive⟩ | ⟨hq, hrun⟩
    · rcases hstep n n.lt_succ_self s₁ hmotive with ⟨s₂, hbody, hmotive⟩ | ⟨hq, hbody⟩
      · exact Or.inl ⟨s₂, by rw [forRangeM, hrun, Option.bind_some, hbody], hmotive⟩
      · exact Or.inr ⟨hq, by rw [forRangeM, hrun, Option.bind_some, hbody]⟩
    · exact Or.inr ⟨hq, by rw [forRangeM, hrun, Option.bind_none]⟩

theorem update_modify_apply [DecidableEq κ] (ws : κ → α) (p x : κ) (f : α → α) :
    update ws p (f (ws p)) x = if x = p then f (ws x) else ws x := by
  by_cases hx : x = p
  · subst hx
    rw [update_self, if_pos rfl]
  · rw [update_of_ne hx, if_neg hx]

theorem cell_inj {stride row col row' col' : ℕ} (hcol : col < stride) (hcol' : col' < stride)
    (h : stride * row + col = stride * row' + col') : row = row' ∧ col = col' := by
  have hmod := congrArg (· % stride) h
  simp only [Nat.mul_add_mod, Nat.mod_eq_of_lt hcol, Nat.mod_eq_of_lt hcol'] at hmod
  subst hmod
  exact ⟨Nat.eq_of_mul_eq_mul_left (by omega) (Nat.add_right_cancel h), rfl⟩

theorem ext_cells {stride : ℕ} (hstride : 0 < stride) {p q : ℕ → α}
    (h : ∀ row, ∀ col < stride, p (stride * row + col) = q (stride * row + col)) : p = q := by
  funext y
  have hy := h (y / stride) (y % stride) (Nat.mod_lt _ hstride)
  rwa [Nat.div_add_mod] at hy

theorem update_cell_apply {stride row col row' col' : ℕ} (hcol : col < stride)
    (hcol' : col' < stride) (p : ℕ → α) (v : α) :
    update p (stride * row + col) v (stride * row' + col')
      = if row' = row ∧ col' = col then v else p (stride * row' + col') := by
  by_cases h : row' = row ∧ col' = col
  · rw [if_pos h, h.1, h.2, update_self]
  · rw [if_neg h, update_of_ne]
    exact fun heq => h (cell_inj hcol' hcol heq)

end ForRange
