import Mathlib.LinearAlgebra.Matrix.Rank
import CadoNfs.Lib.Gf2

/-!
# Elimination over GF(2) with the multipliers in place

Gaussian elimination on the rows of a matrix over GF(2), column by column.  A row that is
chosen as the pivot of a column is added to every other row that has a one there, and the
one stays as a record of the addition.  The pivot row itself is cleared but for its own
mark and never chosen again.  Along with the entries goes a matrix `l` of the
combinations of rows made so far.

Main results:

- Theorem `Inv.pivot`: the elimination with one pivot keeps the invariant.
- Theorem `Inv.skip`: so does a column without a pivot.
- Theorem `reduce_agree`: columns that are not treated have no influence.
- Theorem `Inv.finrank_ker`: at the end the rows that were never chosen count the
  dimension of the left nullspace.
- Theorem `Inv.span_ker`: the combinations of these rows span it.
-/

namespace Elimination

open ForRange Gf2 Finset
open LinearMap (ker)

variable {ι : Type*} [Fintype ι] [DecidableEq ι]

/-! ## States -/

/-- The entries, the rows chosen so far, the pivot of each column, and the combinations of
rows. -/
structure State (ι : Type*) where
  e : ι → ℕ → ZMod 2
  used : Finset ι
  piv : ℕ → Option ι
  l : ι → ι → ZMod 2

/-- A combination of the rows of a matrix. -/
def combine (M : ι → ℕ → ZMod 2) (v : ι → ZMod 2) (x : ℕ) : ZMod 2 :=
  ∑ y, v y * M y x

/-- One if row `y` is the pivot of column `j`. -/
def mark (s : State ι) (j : ℕ) (y : ι) : ZMod 2 :=
  if s.piv j = some y then 1 else 0

/-- The start: nothing is chosen, every row is itself. -/
def start (M : ι → ℕ → ZMod 2) : State ι where
  e := M
  used := ∅
  piv := fun _ => none
  l := fun i y => if y = i then 1 else 0

/-- The elimination in column `c` with the pivot row `p`. -/
def eliminate (s : State ι) (p : ι) (c : ℕ) : State ι where
  e := fun i x =>
    if i = p then if x = c then 1 else 0
    else if x = c then s.e i c
    else s.e i x + s.e i c * s.e p x
  used := insert p s.used
  piv := fun j => if j = c then some p else s.piv j
  l := fun i y => if i = p then s.l p y else s.l i y + s.e i c * s.l p y

/-- What holds before column `c` is treated: a row that was not chosen has in
`l` the combination that its marks record, and that combination of the rows of
`M` is zero in the columns treated and the row itself in the others. -/
structure Inv (M : ι → ℕ → ZMod 2) (C c : ℕ) (s : State ι) : Prop where
  piv_used : ∀ j p, s.piv j = some p → j < c ∧ p ∈ s.used
  piv_inj : ∀ j j' p, s.piv j = some p → s.piv j' = some p → j = j'
  row : ∀ i ∉ s.used, ∀ x < C, combine M (s.l i) x = if x < c then 0 else s.e i x
  coeff : ∀ i ∉ s.used, ∀ y,
    s.l i y = (if y = i then 1 else 0) + ∑ j ∈ range c, s.e i j * mark s j y
  done : ∀ p ∈ s.used, ∀ x, c ≤ x → x < C → s.e p x = 0
  nopiv : ∀ j < c, s.piv j = none → ∀ i ∉ s.used, s.e i j = 0
  indep_rows : ∀ v : ι → ZMod 2, (∀ y, v y ≠ 0 → y ∈ s.used) →
    (∀ x < c, combine M v x = 0) → ∀ y, v y = 0
  indep : ∀ a : ι → ZMod 2, (∀ p, a p ≠ 0 → p ∈ s.used) →
    (∀ x < c, ∑ p, a p * combine M (s.l p) x = 0) → ∀ p, a p = 0
  support : ∀ p ∈ s.used, ∀ y, s.l p y ≠ 0 → y ∈ s.used

/-! ## Combinations -/

variable {M : ι → ℕ → ZMod 2} {C c : ℕ} {s : State ι} {p : ι}

omit [DecidableEq ι] in
theorem combine_add_mul (v v' : ι → ZMod 2) (z : ZMod 2) (x : ℕ) :
    combine M (fun y => v y + z * v' y) x = combine M v x + z * combine M v' x := by
  unfold combine
  rw [mul_sum, ← sum_add_distrib]
  exact sum_congr rfl fun y _ => by ring

theorem combine_single (i : ι) (x : ℕ) :
    combine M (fun y => if y = i then 1 else 0) x = M i x := by
  simp [combine]

theorem inv_start (M : ι → ℕ → ZMod 2) (C : ℕ) : Inv M C 0 (start M) where
  piv_used := by simp [start]
  piv_inj := by simp [start]
  row := fun i _ x _ => combine_single i x
  coeff := by simp [start]
  done := by simp [start]
  nopiv := by simp
  indep_rows := fun v hv _ y => by simpa [start] using hv y
  indep := fun a ha _ p => by simpa [start] using ha p
  support := by simp [start]

/-- A column in which no row has a one. -/
theorem Inv.skip (h : Inv M C c s) (hcol : ∀ i, s.e i c = 0) : Inv M C (c + 1) s where
  piv_used := fun j p hp => ⟨Nat.lt_succ_of_lt (h.piv_used j p hp).1, (h.piv_used j p hp).2⟩
  piv_inj := h.piv_inj
  row := by
    intro i hi x hx
    rw [h.row i hi x hx]
    rcases lt_trichotomy x c with hlt | rfl | hgt
    · rw [if_pos hlt, if_pos (Nat.lt_succ_of_lt hlt)]
    · rw [if_neg (lt_irrefl x), if_pos x.lt_succ_self, hcol]
    · rw [if_neg (by omega), if_neg (by omega)]
  coeff := by
    intro i hi y
    rw [h.coeff i hi y, sum_range_succ, hcol, zero_mul, add_zero]
  done := fun p hp x hx => h.done p hp x (by omega)
  nopiv := by
    intro j hj hnone i hi
    rcases Nat.lt_succ_iff_lt_or_eq.mp hj with hlt | rfl
    · exact h.nopiv j hlt hnone i hi
    · exact hcol i
  indep_rows := fun v hv hzero => h.indep_rows v hv fun x hx => hzero x (by omega)
  indep := fun a ha hzero => h.indep a ha fun x hx => hzero x (by omega)
  support := h.support

/-! ## One pivot -/

section Pivot

variable (h : Inv M C c s) (hp : s.e p c = 1) (hc : c < C)

include h hp hc

theorem Inv.not_used : p ∉ s.used := fun hused => by
  have hzero := h.done p hused c le_rfl hc
  rw [hp] at hzero
  exact one_ne_zero hzero

theorem Inv.combine_pivot : (∀ x < c, combine M (s.l p) x = 0) ∧ combine M (s.l p) c = 1 := by
  have hunused := h.not_used hp hc
  refine ⟨fun x hx => ?_, ?_⟩
  · rw [h.row p hunused x (hx.trans hc), if_pos hx]
  · rw [h.row p hunused c hc, if_neg (lt_irrefl c), hp]

theorem Inv.pivot_coeff : s.l p p = 1 ∧ ∀ y, s.l p y ≠ 0 → y = p ∨ y ∈ s.used := by
  have hunused := h.not_used hp hc
  have hmark : ∀ y ∉ s.used, ∑ j ∈ range c, s.e p j * mark s j y = 0 := by
    intro y hy
    refine sum_eq_zero fun j _ => ?_
    rw [mark, if_neg fun hpiv => hy (h.piv_used j y hpiv).2, mul_zero]
  refine ⟨?_, fun y hy => ?_⟩
  · rw [h.coeff p hunused p, hmark p hunused, if_pos rfl, add_zero]
  · by_contra hnot
    rw [not_or] at hnot
    rw [h.coeff p hunused y, hmark y hnot.2, if_neg hnot.1, add_zero] at hy
    exact hy rfl

theorem Inv.eliminate_used {q : ι} (hq : q ∈ s.used) :
    (eliminate s p c).l q = s.l q ∧ ∀ x < C, (eliminate s p c).e q x = s.e q x := by
  have hne : q ≠ p := fun heq => h.not_used hp hc (heq ▸ hq)
  have hzero := h.done q hq c le_rfl hc
  refine ⟨funext fun y => ?_, fun x _ => ?_⟩
  · simp [eliminate, if_neg hne, hzero]
  · simp only [eliminate, if_neg hne, hzero, zero_mul, add_zero]
    split_ifs with hx
    · rw [hx, hzero]
    · rfl

theorem Inv.indep_rows_pivot (v : ι → ZMod 2) (hv : ∀ y, v y ≠ 0 → y ∈ insert p s.used)
    (hzero : ∀ x < c + 1, combine M v x = 0) : ∀ y, v y = 0 := by
  obtain ⟨hbefore, hone⟩ := h.combine_pivot hp hc
  obtain ⟨hself, hsupport⟩ := h.pivot_coeff hp hc
  -- subtract the combination of the pivot row as often as the pivot row occurs
  have hrest : ∀ y, v y + v p * s.l p y = 0 := by
    refine h.indep_rows _ (fun y hy => ?_) fun x hx => ?_
    · by_contra hnot
      have hvy : v y + v p * s.l p y = 0 := by
        by_cases heq : y = p
        · rw [heq, hself, mul_one, add_self]
        · have hvy : v y = 0 := by
            by_contra hne
            exact (mem_insert.mp (hv y hne)).elim heq hnot
          have hly : s.l p y = 0 := by
            by_contra hne
            exact (hsupport y hne).elim heq hnot
          rw [hvy, hly, mul_zero, add_zero]
      exact hy hvy
    · rw [combine_add_mul, hzero x (Nat.lt_succ_of_lt hx), hbefore x hx, mul_zero, add_zero]
  have hvp : v p = 0 := by
    have hcol := combine_add_mul (M := M) v (s.l p) (v p) c
    simp only [hrest] at hcol
    rw [hzero c c.lt_succ_self, hone, mul_one, zero_add] at hcol
    rw [← hcol]
    simp [combine]
  intro y
  have hy := hrest y
  rwa [hvp, zero_mul, add_zero] at hy

/-- A pivot keeps the used rows independent. -/
theorem Inv.indep_pivot (a : ι → ZMod 2) (ha : ∀ q, a q ≠ 0 → q ∈ insert p s.used)
    (hzero : ∀ x < c + 1, ∑ q, a q * combine M ((eliminate s p c).l q) x = 0) :
    ∀ q, a q = 0 := by
  obtain ⟨hbefore, hone⟩ := h.combine_pivot hp hc
  have hlp : (eliminate s p c).l p = s.l p := by
    funext y
    simp [eliminate]
  have hother : ∀ q, q ≠ p → ∀ x,
      a q * combine M ((eliminate s p c).l q) x = a q * combine M (s.l q) x := by
    intro q hq x
    by_cases haq : a q = 0
    · rw [haq, zero_mul, zero_mul]
    · rw [(h.eliminate_used hp hc ((mem_insert.mp (ha q haq)).resolve_left hq)).1]
  have hsplit : ∀ x, ∑ q, a q * combine M ((eliminate s p c).l q) x
      = a p * combine M (s.l p) x
        + ∑ q, (if q = p then 0 else a q) * combine M (s.l q) x := by
    intro x
    rw [← add_sum_erase _ _ (mem_univ p), hlp]
    congr 1
    rw [← add_sum_erase univ (fun q => (if q = p then 0 else a q) * combine M (s.l q) x)
      (mem_univ p), if_pos rfl, zero_mul, zero_add]
    refine sum_congr rfl fun q hq => ?_
    rw [if_neg (ne_of_mem_erase hq), hother q (ne_of_mem_erase hq)]
  have hrest : ∀ q, (if q = p then 0 else a q) = 0 := by
    refine h.indep _ (fun q hq => ?_) fun x hx => ?_
    · by_cases heq : q = p
      · rw [if_pos heq] at hq
        exact absurd rfl hq
      · rw [if_neg heq] at hq
        exact (mem_insert.mp (ha q hq)).resolve_left heq
    · have hx' := hzero x (Nat.lt_succ_of_lt hx)
      rwa [hsplit, hbefore x hx, mul_zero, zero_add] at hx'
  intro q
  by_cases heq : q = p
  · have hcol := hzero c c.lt_succ_self
    rw [hsplit, hone, mul_one] at hcol
    simp only [hrest, zero_mul, sum_const_zero, add_zero] at hcol
    rw [heq, hcol]
  · have hq := hrest q
    rwa [if_neg heq] at hq

/-- The elimination with one pivot keeps the invariant. -/
theorem Inv.pivot : Inv M C (c + 1) (eliminate s p c) where
  piv_used := by
    intro j q hq
    simp only [eliminate] at hq ⊢
    by_cases hj : j = c
    · rw [if_pos hj, Option.some.injEq] at hq
      exact ⟨by omega, hq ▸ mem_insert_self _ _⟩
    · rw [if_neg hj] at hq
      obtain ⟨hlt, hused⟩ := h.piv_used j q hq
      exact ⟨Nat.lt_succ_of_lt hlt, mem_insert_of_mem hused⟩
  piv_inj := by
    have hne : ∀ j, s.piv j ≠ some p := fun j hj => h.not_used hp hc (h.piv_used j p hj).2
    intro j j' q hj hj'
    simp only [eliminate] at hj hj'
    split_ifs at hj hj' with hjc hjc' hjc'
    · rw [hjc, hjc']
    · exact absurd (hj'.trans hj.symm) (hne j')
    · exact absurd (hj.trans hj'.symm) (hne j)
    · exact h.piv_inj j j' q hj hj'
  row := by
    intro i hi x hx
    simp only [eliminate, mem_insert, not_or] at hi
    obtain ⟨hbefore, hone⟩ := h.combine_pivot hp hc
    have hrow : combine M ((eliminate s p c).l i) x
        = combine M (s.l i) x + s.e i c * combine M (s.l p) x := by
      rw [← combine_add_mul]
      congr 1
      funext y
      simp [eliminate, if_neg hi.1]
    rw [hrow, h.row i hi.2 x hx]
    simp only [eliminate, if_neg hi.1]
    rcases lt_trichotomy x c with hlt | rfl | hgt
    · rw [if_pos hlt, if_pos (Nat.lt_succ_of_lt hlt), hbefore x hlt, mul_zero, add_zero]
    · rw [if_neg (lt_irrefl x), if_pos x.lt_succ_self, hone, mul_one, add_self]
    · rw [if_neg (by omega), if_neg (by omega), if_neg (by omega),
        h.row p (h.not_used hp hc) x hx, if_neg (by omega)]
  coeff := by
    intro i hi y
    simp only [eliminate, mem_insert, not_or] at hi
    have hmark : ∀ j ∈ range c, (eliminate s p c).e i j * mark (eliminate s p c) j y
        = s.e i j * mark s j y + s.e i c * (s.e p j * mark s j y) := by
      intro j hj
      have hne : j ≠ c := (mem_range.mp hj).ne
      simp only [eliminate, mark, if_neg hi.1, if_neg hne]
      ring
    have hlast : (eliminate s p c).e i c * mark (eliminate s p c) c y
        = s.e i c * (if y = p then 1 else 0) := by
      simp [eliminate, mark, if_neg hi.1, @eq_comm _ p y]
    rw [sum_range_succ, sum_congr rfl hmark, sum_add_distrib, ← mul_sum, hlast]
    have hly : (eliminate s p c).l i y = s.l i y + s.e i c * s.l p y := by
      simp [eliminate, if_neg hi.1]
    rw [hly, h.coeff i hi.2 y, h.coeff p (h.not_used hp hc) y]
    ring
  done := by
    intro q hq x hx hxC
    rcases mem_insert.mp hq with rfl | hq
    · simp [eliminate, if_neg (show x ≠ c by omega)]
    · rw [(h.eliminate_used hp hc hq).2 x hxC]
      exact h.done q hq x (by omega) hxC
  nopiv := by
    intro j hj hnone i hi
    simp only [eliminate, mem_insert, not_or] at hnone hi ⊢
    have hjc : j ≠ c := by
      rintro rfl
      rw [if_pos rfl] at hnone
      exact absurd hnone (by simp)
    rw [if_neg hjc] at hnone
    rw [if_neg hi.1, if_neg hjc, h.nopiv j (by omega) hnone i hi.2,
      h.nopiv j (by omega) hnone p (h.not_used hp hc), mul_zero, add_zero]
  indep_rows := h.indep_rows_pivot hp hc
  indep := h.indep_pivot hp hc
  support := by
    intro q hq y hy
    rcases mem_insert.mp hq with rfl | hq
    · have hlq : s.l q y ≠ 0 := by
        simpa [eliminate] using hy
      exact mem_insert.mpr ((h.pivot_coeff hp hc).2 y hlq)
    · rw [(h.eliminate_used hp hc hq).1] at hy
      exact mem_insert_of_mem (h.support q hq y hy)

end Pivot

/-! ## The algorithm -/

section Algorithm

variable {n : ℕ} {M M' : Fin n → ℕ → ZMod 2} {s s' : State (Fin n)}

/-- The first row with a one in column `c`. -/
def firstRow (s : State (Fin n)) (c : ℕ) : Option (Fin n) :=
  (List.finRange n).find? fun i => decide (s.e i c = 1)

/-- The elimination in one column. -/
def step (c : ℕ) (s : State (Fin n)) : State (Fin n) :=
  match firstRow s c with
  | none => s
  | some p => eliminate s p c

/-- The elimination in the first columns. -/
def reduce (M : Fin n → ℕ → ZMod 2) (C : ℕ) : State (Fin n) :=
  forRange C step (start M)

theorem firstRow_eq_none (h : ∀ i, s.e i c = 0) : firstRow s c = none := by
  rw [firstRow, List.find?_eq_none]
  intro i _
  simp [h i]

theorem firstRow_eq_some {p : Fin n} (hp : s.e p c = 1) (hbefore : ∀ i < p, s.e i c = 0) :
    firstRow s c = some p := by
  rw [firstRow, List.find?_eq_some_iff_getElem]
  refine ⟨by simp [hp], p, by simp, by simp, fun j hj => ?_⟩
  simp [hbefore ⟨j, hj.trans p.isLt⟩ hj]

theorem entry_firstRow {p : Fin n} (h : firstRow s c = some p) : s.e p c = 1 := by
  have hfound := List.find?_some h
  exact of_decide_eq_true hfound

theorem entry_of_firstRow_none (h : firstRow s c = none) (i : Fin n) : s.e i c = 0 := by
  rw [firstRow, List.find?_eq_none] at h
  exact (eq_zero_or_one _).resolve_right fun hone =>
    h i (List.mem_finRange i) (decide_eq_true hone)

theorem step_of_zero (h : ∀ i, s.e i c = 0) : step c s = s := by
  rw [step, firstRow_eq_none h]

theorem step_of_pivot {p : Fin n} (hp : s.e p c = 1) (hbefore : ∀ i < p, s.e i c = 0) :
    step c s = eliminate s p c := by
  rw [step, firstRow_eq_some hp hbefore]

theorem Inv.step (h : Inv M C c s) (hc : c < C) : Inv M C (c + 1) (step c s) := by
  unfold Elimination.step
  cases hrow : firstRow s c with
  | none => exact h.skip (entry_of_firstRow_none hrow)
  | some p => exact h.pivot (entry_firstRow hrow) hc

theorem inv_reduce (M : Fin n → ℕ → ZMod 2) (C : ℕ) : Inv M C C (reduce M C) :=
  forRange_induct (motive := fun c s => Inv M C c s) step (start M) C (inv_start M C)
    fun _ hc _ h => h.step hc

/-- States that differ at most in the entries from column `C` on. -/
structure Agree (C : ℕ) (s s' : State (Fin n)) : Prop where
  e : ∀ i, ∀ x < C, s.e i x = s'.e i x
  used : s.used = s'.used
  piv : s.piv = s'.piv
  l : s.l = s'.l

theorem Agree.step (h : Agree C s s') (hc : c < C) : Agree C (step c s) (step c s') := by
  have hfirst : firstRow s' c = firstRow s c := by
    unfold firstRow
    simp [h.e _ c hc]
  unfold Elimination.step
  rw [hfirst]
  cases firstRow s c with
  | none => exact h
  | some p =>
    refine ⟨fun i x hx => ?_, ?_, ?_, ?_⟩
    · simp [eliminate, h.e i x hx, h.e i c hc, h.e p x hx]
    · simp [eliminate, h.used]
    · simp [eliminate, h.piv]
    · simp [eliminate, h.e _ c hc, h.l]

/-- What the elimination does depends on the first columns only. -/
theorem reduce_agree (h : ∀ i, ∀ x < C, M i x = M' i x) :
    Agree C (reduce M C) (reduce M' C) := by
  have hrun : ∀ k ≤ C, Agree C (forRange k step (start M)) (forRange k step (start M')) := by
    intro k
    induction k with
    | zero => exact fun _ => ⟨h, rfl, rfl, rfl⟩
    | succ k ih =>
      intro hk
      rw [forRange_succ, forRange_succ]
      exact (ih (by omega)).step (by omega)
  exact hrun C le_rfl

end Algorithm

/-! ## The left nullspace -/

section Nullspace

variable (h : Inv M C C s)

/-- The first columns of the rows as a matrix. -/
def toMatrix (M : ι → ℕ → ZMod 2) (C : ℕ) : Matrix ι (Fin C) (ZMod 2) :=
  Matrix.of fun i x => M i x

omit [DecidableEq ι] in
theorem mem_ker_iff (v : ι → ZMod 2) :
    v ∈ ker (toMatrix M C).vecMulLinear ↔ ∀ x < C, combine M v x = 0 := by
  rw [LinearMap.mem_ker]
  constructor
  · intro hv x hx
    exact congrFun hv ⟨x, hx⟩
  · intro hv
    funext x
    exact hv x x.isLt

include h

theorem Inv.mem_ker {i : ι} (hi : i ∉ s.used) :
    s.l i ∈ ker (toMatrix M C).vecMulLinear :=
  (mem_ker_iff _).mpr fun x hx => by rw [h.row i hi x hx, if_pos hx]

theorem Inv.coeff_unused {i y : ι} (hi : i ∉ s.used) (hy : y ∉ s.used) :
    s.l i y = if y = i then 1 else 0 := by
  rw [h.coeff i hi y]
  have hmark : ∑ j ∈ range C, s.e i j * mark s j y = 0 := by
    refine sum_eq_zero fun j _ => ?_
    rw [mark, if_neg fun hpiv => hy (h.piv_used j y hpiv).2, mul_zero]
  rw [hmark, add_zero]

theorem Inv.eq_sum_of_mem_ker {v : ι → ZMod 2}
    (hv : v ∈ ker (toMatrix M C).vecMulLinear) :
    v = ∑ i ∈ s.usedᶜ, v i • s.l i := by
  have hdiff : ∀ y, (v + ∑ i ∈ s.usedᶜ, v i • s.l i) y = 0 := by
    refine h.indep_rows _ (fun y hy => ?_) fun x hx => ?_
    · by_contra hnot
      refine hy ?_
      rw [Pi.add_apply, Finset.sum_apply, sum_eq_single y]
      · rw [Pi.smul_apply, h.coeff_unused hnot hnot, if_pos rfl, smul_eq_mul, mul_one, add_self]
      · intro i hi hne
        rw [Pi.smul_apply, h.coeff_unused (mem_compl.mp hi) hnot, if_neg hne.symm, smul_zero]
      · exact fun hy => absurd (mem_compl.mpr hnot) hy
    · have hker := (ker (toMatrix M C).vecMulLinear).add_mem hv
        (Submodule.sum_mem _ fun i hi =>
          Submodule.smul_mem _ (v i) (h.mem_ker (mem_compl.mp hi)))
      exact (mem_ker_iff _).mp hker x hx
  funext y
  have hy := hdiff y
  rw [Pi.add_apply] at hy
  have hself := add_self ((∑ i ∈ s.usedᶜ, v i • s.l i) y)
  exact add_right_cancel (hy.trans hself.symm)

theorem Inv.eq_zero_of_sum {a : ι → ZMod 2} (ha : ∀ y, ∑ q, a q * s.l q y = 0) (q : ι) :
    a q = 0 := by
  have hunused : ∀ y ∉ s.used, a y = 0 := by
    intro y hy
    rw [← ha y, sum_eq_single y]
    · rw [h.coeff_unused hy hy, if_pos rfl, mul_one]
    · intro q _ hne
      by_cases hq : q ∈ s.used
      · by_contra hterm
        exact hy (h.support q hq y (right_ne_zero_of_mul hterm))
      · rw [h.coeff_unused hq hy, if_neg hne.symm, mul_zero]
    · exact fun hnot => absurd (mem_univ y) hnot
  refine h.indep a (fun p hp => ?_) (fun x _ => ?_) q
  · by_contra hnot
    exact hp (hunused p hnot)
  · have hswap : ∑ p, a p * combine M (s.l p) x = ∑ y, (∑ p, a p * s.l p y) * M y x := by
      simp only [combine, mul_sum, sum_mul]
      rw [sum_comm]
      exact sum_congr rfl fun y _ => sum_congr rfl fun p _ => by ring
    rw [hswap]
    exact sum_eq_zero fun y _ => by rw [ha y, zero_mul]

theorem Inv.zero_row {i : ι} (hzero : ∀ x < C, M i x = 0) :
    i ∉ s.used ∧ ∀ y, s.l i y = if y = i then 1 else 0 := by
  have hker : (fun y => if y = i then 1 else 0) ∈
      ker (toMatrix M C).vecMulLinear :=
    (mem_ker_iff _).mpr fun x hx => (combine_single i x).trans (hzero x hx)
  have hsum := h.eq_sum_of_mem_ker hker
  have hunused : i ∉ s.used := by
    intro hused
    have hvalue := congrFun hsum i
    rw [if_pos rfl, sum_eq_zero fun q hq => ?_] at hvalue
    · exact one_ne_zero hvalue
    · have hne : q ≠ i := fun heq => mem_compl.mp hq (heq ▸ hused)
      rw [if_neg hne, zero_smul]
  refine ⟨hunused, fun y => ?_⟩
  have hvalue := congrFun hsum y
  rw [sum_eq_single i (fun q _ hq => by rw [if_neg hq, zero_smul])
    (fun hnot => absurd (mem_compl.mpr hunused) hnot), if_pos rfl, one_smul] at hvalue
  exact hvalue.symm

theorem Inv.linearIndependent :
    LinearIndependent (ZMod 2) fun i : {i // i ∉ s.used} => s.l i := by
  rw [Fintype.linearIndependent_iff]
  intro a ha i
  have hi := congrFun ha i.1
  rw [Finset.sum_apply, sum_eq_single i] at hi
  · rwa [Pi.smul_apply, h.coeff_unused i.2 i.2, if_pos rfl, smul_eq_mul, mul_one] at hi
  · intro j _ hne
    rw [Pi.smul_apply, h.coeff_unused j.2 i.2, if_neg (fun heq => hne (Subtype.ext heq.symm)),
      smul_zero]
  · exact fun hnot => absurd (mem_univ i) hnot

/-- The combinations of the rows that were never chosen span the left nullspace. -/
theorem Inv.span_ker :
    Submodule.span (ZMod 2) (Set.range fun i : {i // i ∉ s.used} => s.l i)
      = ker (toMatrix M C).vecMulLinear := by
  refine le_antisymm (Submodule.span_le.mpr ?_) fun v hv => ?_
  · rintro _ ⟨i, rfl⟩
    exact h.mem_ker i.2
  · rw [h.eq_sum_of_mem_ker hv]
    refine Submodule.sum_mem _ fun i hi => Submodule.smul_mem _ _ (Submodule.subset_span ?_)
    exact ⟨⟨i, mem_compl.mp hi⟩, rfl⟩

/-- The rows that were never chosen count the dimension of the left nullspace. -/
theorem Inv.finrank_ker :
    Module.finrank (ZMod 2) (ker (toMatrix M C).vecMulLinear) = s.usedᶜ.card := by
  rw [← h.span_ker, finrank_span_eq_card h.linearIndependent, Fintype.card_subtype]
  congr 1
  ext i
  simp

theorem Inv.rank_eq : (toMatrix M C).rank = s.used.card := by
  have hsum := LinearMap.finrank_range_add_finrank_ker (toMatrix M C).vecMulLinear
  rw [h.finrank_ker, Module.finrank_fintype_fun_eq_card, range_vecMulLinear,
    ← Matrix.rank_eq_finrank_span_row, card_compl] at hsum
  have hle := s.used.card_le_univ
  omega

end Nullspace

end Elimination
