import CadoNfs.Lib.Elimination

/-!
# Which rows become pivots

The elimination over GF(2) chooses its pivot rows by their place.  The rows that have been chosen
in the first columns are those that are, in these columns, no sums of rows before them; a column
has a pivot if a sum of rows has its first one there.  The combination of a pivot row is the only
sum of rows chosen so far that has its first one in the column of the pivot.

Main results:

- Theorem `mem_used_iff`: the rows that are chosen.
- Theorem `exists_piv_iff`: the columns that have a pivot.
- Theorem `exactBlock_iff`: when the pivot rows of a block of columns are the unit rows there.
-/

namespace Elimination

open ForRange Gf2 Finset

variable {n : ℕ} {M : Fin n → ℕ → ZMod 2} {C c k b : ℕ} {s : State (Fin n)}

/-! ## Rows and columns by their place -/

/-- In the first columns the row is no sum of rows before it. -/
def NewRow (M : Fin n → ℕ → ZMod 2) (c : ℕ) (i : Fin n) : Prop :=
  ∀ v : Fin n → ZMod 2, v i = 1 → (∀ y, v y ≠ 0 → y ≤ i) → ∃ x < c, combine M v x ≠ 0

/-- A sum of rows has its first one in the column. -/
def HasPivot (M : Fin n → ℕ → ZMod 2) (c : ℕ) : Prop :=
  ∃ v : Fin n → ZMod 2, (∀ x < c, combine M v x = 0) ∧ combine M v c = 1

/-- For each column of a block there is a sum of rows, among those that are new up to that column,
that is the unit row there, in all columns up to the end of the block. -/
def ExactBlock (M : Fin n → ℕ → ZMod 2) (k b : ℕ) : Prop :=
  ∀ z < b, ∃ v : Fin n → ZMod 2, (∀ y, v y ≠ 0 → NewRow M (k + z + 1) y) ∧
    ∀ x < k + b, combine M v x = if x = k + z then 1 else 0

/-- Every row is combined with rows before it only. -/
structure Lower (s : State (Fin n)) : Prop where
  self : ∀ i, s.l i i = 1
  le : ∀ i y, s.l i y ≠ 0 → y ≤ i

theorem entry_before_firstRow {p : Fin n} (h : firstRow s c = some p) {i : Fin n} (hi : i < p) :
    s.e i c = 0 := by
  rw [firstRow, List.find?_eq_some_iff_getElem] at h
  obtain ⟨-, j, hj, hget, hbefore⟩ := h
  have hjp : j = p := by
    rw [← hget, List.getElem_finRange]
    rfl
  have hrow := hbefore i (hjp ▸ hi)
  rw [List.getElem_finRange] at hrow
  exact (eq_zero_or_one _).resolve_right fun hone => by simp [hone] at hrow

theorem Lower.step (h : Lower s) : Lower (step c s) := by
  unfold Elimination.step
  cases hrow : firstRow s c with
  | none => exact h
  | some p =>
    have hbehind : ∀ i, i ≠ p → s.e i c ≠ 0 → p < i := fun i hi he =>
      lt_of_le_of_ne (not_lt.mp fun hlt => he (entry_before_firstRow hrow hlt)) hi.symm
    refine ⟨fun i => ?_, fun i y hy => ?_⟩
    · by_cases hi : i = p
      · simp only [eliminate, if_pos hi]
        exact hi ▸ h.self i
      · simp only [eliminate, if_neg hi]
        by_cases he : s.e i c = 0
        · rw [he, zero_mul, add_zero, h.self]
        · have hlp : s.l p i = 0 := by
            by_contra hne
            exact absurd (h.le p i hne) (not_le.mpr (hbehind i hi he))
          rw [hlp, mul_zero, add_zero, h.self]
    · by_cases hi : i = p
      · simp only [eliminate, if_pos hi] at hy
        exact hi ▸ h.le p y hy
      · simp only [eliminate, if_neg hi] at hy
        by_cases hl : s.l i y = 0
        · rw [hl, zero_add] at hy
          exact (h.le p y (right_ne_zero_of_mul hy)).trans
            (hbehind i hi (left_ne_zero_of_mul hy)).le
        · exact h.le i y hl

section

variable (M : Fin n → ℕ → ZMod 2)

theorem lower_reduce (C : ℕ) : Lower (reduce M C) := by
  refine forRange_induct (motive := fun _ s => Lower s) step (start M) C ⟨?_, ?_⟩
    fun _ _ _ h => h.step
  · simp [start]
  · intro i y hy
    by_contra hle
    have hne : y ≠ i := fun heq => hle heq.le
    exact hy (by simp [start, hne])

/-! ## Runs of different lengths -/

theorem reduce_succ (c : ℕ) : reduce M (c + 1) = step c (reduce M c) :=
  forRange_succ c step (start M)

theorem inv_reduce_of_le (hc : c ≤ C) : Inv M C c (reduce M c) :=
  forRange_induct (motive := fun c s => Inv M C c s) step (start M) c (inv_start M C)
    fun _ hlt _ h => h.step (by omega)

end

theorem reduce_stable (hc : c ≤ C) :
    (reduce M c).used ⊆ (reduce M C).used ∧
    (∀ p ∈ (reduce M c).used, (reduce M C).l p = (reduce M c).l p) ∧
    ∀ j < c, (reduce M C).piv j = (reduce M c).piv j := by
  induction C, hc using Nat.le_induction with
  | base => exact ⟨Finset.Subset.refl _, fun _ _ => rfl, fun _ _ => rfl⟩
  | succ C hC ih =>
    obtain ⟨hused, hl, hpiv⟩ := ih
    have hinv := inv_reduce_of_le M (Nat.le_succ C)
    rw [reduce_succ, step]
    cases hrow : firstRow (reduce M C) C with
    | none => exact ⟨hused, hl, hpiv⟩
    | some q =>
      refine ⟨hused.trans (subset_insert _ _), fun p hp => ?_, fun j hj => ?_⟩
      · rw [(hinv.eliminate_used (entry_firstRow hrow) C.lt_succ_self (hused hp)).1, hl p hp]
      · simp [eliminate, if_neg (show j ≠ C by omega), hpiv j hj]

/-! ## The rows that are chosen -/

/-- The rows that have been chosen are those that are new in the columns treated. -/
theorem mem_used_iff (i : Fin n) : i ∈ (reduce M c).used ↔ NewRow M c i := by
  have hinv := inv_reduce M c
  have hlower := lower_reduce M c
  constructor
  · intro hi v hvi hle
    by_contra hzero
    push Not at hzero
    have hsum := congrFun (hinv.eq_sum_of_mem_ker ((mem_ker_iff v).mpr hzero)) i
    rw [Finset.sum_apply, hvi, sum_eq_zero fun q hq => ?_] at hsum
    · exact one_ne_zero hsum
    · by_contra hterm
      rw [Pi.smul_apply, smul_eq_mul] at hterm
      have hqi := hle q (left_ne_zero_of_mul hterm)
      have hiq := hlower.le q i (right_ne_zero_of_mul hterm)
      exact mem_compl.mp hq (le_antisymm hiq hqi ▸ hi)
  · intro hnew
    by_contra hi
    obtain ⟨x, hx, hne⟩ := hnew ((reduce M c).l i) (hlower.self i) (hlower.le i)
    exact hne (by rw [hinv.row i hi x hx, if_pos hx])

theorem reduce_pivot (hc : c < C) {p : Fin n} (hp : (reduce M C).piv c = some p) :
    ((∀ x < c, combine M ((reduce M C).l p) x = 0) ∧ combine M ((reduce M C).l p) c = 1) ∧
      ∀ y, (reduce M C).l p y ≠ 0 → NewRow M (c + 1) y := by
  obtain ⟨-, hl, hpiv⟩ := reduce_stable (M := M) (show c + 1 ≤ C from hc)
  have hinv := inv_reduce_of_le M (Nat.le_succ c)
  have hinv' := inv_reduce M (c + 1)
  rw [hpiv c c.lt_succ_self] at hp
  have hused := (hinv'.piv_used c p hp).2
  rw [hl p hused]
  refine ⟨?_, fun y hy => (mem_used_iff y).mp (hinv'.support p hused y hy)⟩
  rw [reduce_succ, step] at hp ⊢
  cases hrow : firstRow (reduce M c) c with
  | none =>
    rw [hrow] at hp
    exact absurd (hinv.piv_used c p hp).1 (lt_irrefl c)
  | some q =>
    rw [hrow] at hp
    simp only [eliminate, if_true, Option.some.injEq] at hp
    subst hp
    have hself : (eliminate (reduce M c) q c).l q = (reduce M c).l q := by
      funext y
      simp [eliminate]
    simp only [hself]
    exact hinv.combine_pivot (entry_firstRow hrow) c.lt_succ_self

/-- The columns that have a pivot. -/
theorem exists_piv_iff (hc : c < C) : (∃ p, (reduce M C).piv c = some p) ↔ HasPivot M c := by
  constructor
  · rintro ⟨p, hp⟩
    exact ⟨_, (reduce_pivot hc hp).1⟩
  · rintro ⟨v, hzero, hone⟩
    obtain ⟨-, -, hpiv⟩ := reduce_stable (M := M) (show c + 1 ≤ C from hc)
    rw [hpiv c c.lt_succ_self, reduce_succ, step]
    cases hrow : firstRow (reduce M c) c with
    | none =>
      -- the combination is one of rows that are zero in the column as well
      have hinv := inv_reduce M c
      have hinv' := inv_reduce_of_le M (Nat.le_succ c)
      have hsum := hinv.eq_sum_of_mem_ker ((mem_ker_iff v).mpr hzero)
      have hcombine : combine M v c
          = ∑ i ∈ (reduce M c).usedᶜ, v i * combine M ((reduce M c).l i) c := by
        conv_lhs => rw [hsum]
        simp only [combine, Finset.sum_apply, Pi.smul_apply, smul_eq_mul, sum_mul, mul_sum]
        rw [sum_comm]
        exact sum_congr rfl fun i _ => sum_congr rfl fun y _ => by ring
      rw [sum_eq_zero fun i hi => ?_] at hcombine
      · exact absurd (hone.symm.trans hcombine) one_ne_zero
      · rw [hinv'.row i (mem_compl.mp hi) c c.lt_succ_self, if_neg (lt_irrefl c),
          entry_of_firstRow_none hrow, mul_zero]
    | some p => exact ⟨p, by simp [eliminate]⟩

/-! ## Blocks of columns -/

theorem eq_of_leading {v v' : Fin n → ZMod 2} (hv : ∀ y, v y ≠ 0 → NewRow M (c + 1) y)
    (hv' : ∀ y, v' y ≠ 0 → NewRow M (c + 1) y)
    (h : ∀ x ≤ c, combine M v x = combine M v' x) : v = v' := by
  have hinv := inv_reduce M (c + 1)
  have hdiff : ∀ y, v y + 1 * v' y = 0 := by
    refine hinv.indep_rows _ (fun y hy => ?_) fun x hx => ?_
    · rw [mem_used_iff]
      by_contra hnew
      have hvy : v y = 0 := not_not.mp fun hne => hnew (hv y hne)
      have hvy' : v' y = 0 := not_not.mp fun hne => hnew (hv' y hne)
      exact hy (by rw [hvy, hvy', mul_zero, add_zero])
    · rw [combine_add_mul, h x (by omega), one_mul, add_self]
  funext y
  have hy := hdiff y
  rw [one_mul] at hy
  exact add_right_cancel (hy.trans (add_self (v' y)).symm)

/-- The pivot rows of a block are the unit rows in it if and only if there are such sums. -/
theorem exactBlock_iff (hk : k + b ≤ C) {p : ℕ → Fin n}
    (hp : ∀ z < b, (reduce M C).piv (k + z) = some (p z)) :
    ExactBlock M k b ↔ ∀ z < b, ∀ z' < b,
      combine M ((reduce M C).l (p z)) (k + z') = if z' = z then 1 else 0 := by
  constructor
  · intro hexact z hz z' hz'
    obtain ⟨v, hnew, hv⟩ := hexact z hz
    obtain ⟨⟨hzero, hone⟩, hnew'⟩ := reduce_pivot (show k + z < C by omega) (hp z hz)
    have heq : (reduce M C).l (p z) = v := eq_of_leading hnew' hnew fun x hx => by
      rw [hv x (by omega)]
      rcases eq_or_lt_of_le hx with rfl | hlt
      · rw [hone, if_pos rfl]
      · rw [hzero x hlt, if_neg hlt.ne]
    rw [heq, hv (k + z') (by omega)]
    exact if_congr (by omega) rfl rfl
  · intro hunit z hz
    obtain ⟨⟨hzero, -⟩, hnew⟩ := reduce_pivot (show k + z < C by omega) (hp z hz)
    refine ⟨_, hnew, fun x hx => ?_⟩
    rcases lt_or_ge x (k + z) with hlt | hge
    · rw [hzero x hlt, if_neg hlt.ne]
    · obtain ⟨z', rfl⟩ : ∃ z', x = k + z' := ⟨x - k, by omega⟩
      rw [hunit z hz z' (by omega)]
      exact if_congr (by omega) rfl rfl

end Elimination
