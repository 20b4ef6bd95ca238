import Mathlib.Algebra.Algebra.Operations
import Mathlib.Algebra.Algebra.Pi
import Mathlib.LinearAlgebra.LinearIndependent.Lemmas
import CadoNfs.Lib.ForRange

/-!
# A basis that grows vector by vector

A vector is reduced by the vectors that have been kept, in the order in which they came, and is
kept itself when something is left.  Every vector that is kept is one at its own pivot and zero at
the pivots before it; nothing is required of it at the later ones.

Main results:

- Theorem `Stairs.reduce_eq_zero_iff`: nothing is left exactly of the vectors in the span.
- Theorem `Stairs.extend`: the vector that is left joins the others.
- Theorem `Stairs.mem_span_of_full`: as many vectors as places span everything.
- Theorem `span_update`: the span with one vector more.
- Theorem `linearIndependent_update`: when a vector is independent of the others.
-/

namespace GrowingBasis

open Function (update update_of_ne update_self)
open ForRange
open Finset (mem_range range sum_eq_zero)
open Submodule (mem_span_singleton_self mem_sup_left mem_sup_right smul_mem
  span_singleton_le_iff_mem subset_span)

variable {F ι : Type*} [Field F] {r : ℕ} {p : ℕ → ι → F} {u : ℕ → ι}

/-- The first `r` vectors are one at their own pivots and zero at the pivots before. -/
structure Stairs (r : ℕ) (p : ℕ → ι → F) (u : ℕ → ι) : Prop where
  one : ∀ v < r, p v (u v) = 1
  zero : ∀ v < r, ∀ w < v, p v (u w) = 0

/-- The span of the first `r` vectors. -/
def span (r : ℕ) (p : ℕ → ι → F) : Submodule F (ι → F) :=
  Submodule.span F {x | ∃ v < r, p v = x}

/-- The entries at the pivots are removed one after the other. -/
def reduce (r : ℕ) (p : ℕ → ι → F) (u : ℕ → ι) (x : ι → F) : ι → F :=
  forRange r (fun v x => x - x (u v) • p v) x

theorem mem_span {v : ℕ} (hv : v < r) : p v ∈ span r p :=
  subset_span ⟨v, hv, rfl⟩

theorem sub_reduce_mem (r : ℕ) (p : ℕ → ι → F) (u : ℕ → ι) (x : ι → F) :
    x - reduce r p u x ∈ span r p := by
  have hsteps : ∀ k ≤ r, x - reduce k p u x ∈ span r p := by
    intro k hk
    induction k with
    | zero => simp [reduce]
    | succ k ih =>
      have hstep : x - reduce (k + 1) p u x
          = (x - reduce k p u x) + reduce k p u x (u k) • p k := by
        rw [reduce, forRange_succ]
        exact (sub_sub_eq_add_sub _ _ _).trans (by rw [reduce]; abel)
      rw [hstep]
      exact Submodule.add_mem _ (ih (by omega)) (smul_mem _ _ (mem_span hk))
  exact hsteps r le_rfl

variable (h : Stairs r p u)

include h

theorem Stairs.reduce_pivot (x : ι → F) {v : ℕ} (hv : v < r) : reduce r p u x (u v) = 0 := by
  have hsteps : ∀ k ≤ r, ∀ v < k, reduce k p u x (u v) = 0 := by
    intro k hk
    induction k with
    | zero => exact fun v hv => absurd hv (Nat.not_lt_zero v)
    | succ k ih =>
      intro v hv
      rw [reduce, forRange_succ, Pi.sub_apply, Pi.smul_apply, smul_eq_mul]
      rcases Nat.lt_succ_iff_lt_or_eq.mp hv with hlt | rfl
      · have hold := ih (by omega) v hlt
        rw [reduce] at hold
        rw [h.zero k hk v hlt, mul_zero, sub_zero, hold]
      · rw [h.one v hk, mul_one, sub_self]
  exact hsteps r le_rfl v hv

theorem Stairs.coefficient_eq_zero {c : ℕ → F}
    (hc : ∀ v < r, (∑ w ∈ range r, c w • p w) (u v) = 0) : ∀ v < r, c v = 0 := by
  intro v
  induction v using Nat.strong_induction_on with
  | h v ih =>
    intro hv
    have hsum := hc v hv
    rw [Finset.sum_apply, Finset.sum_eq_single v] at hsum
    · rwa [Pi.smul_apply, h.one v hv, smul_eq_mul, mul_one] at hsum
    · intro w hw hne
      rw [Pi.smul_apply, smul_eq_mul]
      rcases Nat.lt_or_gt_of_ne hne with hlt | hgt
      · rw [ih w hlt (mem_range.mp hw), zero_mul]
      · rw [h.zero w (mem_range.mp hw) v hgt, mul_zero]
    · exact fun hout => absurd (mem_range.mpr hv) hout

variable {x : ι → F}

omit h in
theorem exists_combination (hx : x ∈ span r p) :
    ∃ c : ℕ → F, x = ∑ w ∈ range r, c w • p w := by
  induction hx using Submodule.span_induction with
  | mem y hy =>
    obtain ⟨v, hv, rfl⟩ := hy
    refine ⟨fun w => if w = v then 1 else 0, ?_⟩
    rw [Finset.sum_eq_single v]
    · simp
    · intro w _ hne
      simp [if_neg hne]
    · exact fun hout => absurd (mem_range.mpr hv) hout
  | zero => exact ⟨0, by simp⟩
  | add y z _ _ hy hz =>
    obtain ⟨c, rfl⟩ := hy
    obtain ⟨d, rfl⟩ := hz
    exact ⟨c + d, by simp [add_smul, Finset.sum_add_distrib]⟩
  | smul a y _ hy =>
    obtain ⟨c, rfl⟩ := hy
    exact ⟨a • c, by simp [Pi.smul_apply, smul_eq_mul, mul_smul, Finset.smul_sum]⟩

theorem Stairs.eq_zero_of_mem (hx : x ∈ span r p) (hzero : ∀ v < r, x (u v) = 0) : x = 0 := by
  obtain ⟨c, rfl⟩ := exists_combination hx
  have hc := h.coefficient_eq_zero hzero
  refine sum_eq_zero fun w hw => ?_
  rw [hc w (mem_range.mp hw), zero_smul]

/-- Nothing is left exactly of the vectors in the span. -/
theorem Stairs.reduce_eq_zero_iff (x : ι → F) : reduce r p u x = 0 ↔ x ∈ span r p := by
  have hdiff := sub_reduce_mem r p u x
  constructor
  · intro hzero
    rwa [hzero, sub_zero] at hdiff
  · intro hx
    have hmem := Submodule.sub_mem _ hx hdiff
    rw [sub_sub_cancel] at hmem
    exact h.eq_zero_of_mem hmem fun v hv => h.reduce_pivot x hv

/-- What is left of a vector joins the others, with a pivot where it is one. -/
theorem Stairs.extend {i : ι} (hone : reduce r p u x i = 1) :
    Stairs (r + 1) (update p r (reduce r p u x)) (update u r i) := by
  have hold : ∀ v < r, update p r (reduce r p u x) v = p v ∧
      update u r i v = u v := fun v hv =>
    ⟨update_of_ne (by omega) _ _, update_of_ne (by omega) _ _⟩
  refine ⟨fun v hv => ?_, fun v hv w hw => ?_⟩
  · rcases Nat.lt_succ_iff_lt_or_eq.mp hv with hlt | rfl
    · rw [(hold v hlt).1, (hold v hlt).2, h.one v hlt]
    · rw [update_self, update_self, hone]
  · rcases Nat.lt_succ_iff_lt_or_eq.mp hv with hlt | rfl
    · rw [(hold v hlt).1, (hold w (by omega)).2, h.zero v hlt w hw]
    · rw [update_self, (hold w hw).2, h.reduce_pivot x hw]

theorem Stairs.pivot_inj {v w : ℕ} (hv : v < r) (hw : w < r) (heq : u v = u w) : v = w := by
  rcases Nat.lt_trichotomy v w with hlt | hvw | hgt
  · have hzero := h.zero w hw v hlt
    rw [heq, h.one w hw] at hzero
    exact absurd hzero one_ne_zero
  · exact hvw
  · have hzero := h.zero v hv w hgt
    rw [← heq, h.one v hv] at hzero
    exact absurd hzero one_ne_zero

omit h in
/-- As many vectors as there are places: every vector is in the span. -/
theorem Stairs.mem_span_of_full {p : ℕ → ℕ → F} {u : ℕ → ℕ} (h : Stairs r p u)
    (hu : ∀ v < r, u v < r) (hp : ∀ v < r, ∀ i, r ≤ i → p v i = 0) {x : ℕ → F}
    (hx : ∀ i, r ≤ i → x i = 0) : x ∈ span r p := by
  have himage : (range r).image u = range r := by
    apply Finset.eq_of_subset_of_card_le
    · refine Finset.image_subset_iff.mpr fun v hv => ?_
      exact mem_range.mpr (hu v (mem_range.mp hv))
    · rw [Finset.card_image_of_injOn]
      intro v hv w hw heq
      exact h.pivot_inj (mem_range.mp hv) (mem_range.mp hw) heq
  have hbeyond : ∀ i, r ≤ i → ∀ y ∈ span r p, y i = 0 := by
    intro i hi y hy
    obtain ⟨c, rfl⟩ := exists_combination hy
    rw [Finset.sum_apply]
    refine sum_eq_zero fun w hw => ?_
    rw [Pi.smul_apply, hp w (mem_range.mp hw) i hi, smul_zero]
  refine (h.reduce_eq_zero_iff x).mp (funext fun i => ?_)
  rcases Nat.lt_or_ge i r with hi | hi
  · obtain ⟨v, hv, rfl⟩ := Finset.mem_image.mp (himage.symm ▸ mem_range.mpr hi)
    exact h.reduce_pivot x (mem_range.mp hv)
  · have hdiff := hbeyond i hi _ (sub_reduce_mem r p u x)
    rw [Pi.sub_apply, hx i hi, zero_sub, neg_eq_zero] at hdiff
    exact hdiff

omit h

section

variable (r : ℕ) (p : ℕ → ι → F)

/-- The span with one vector more. -/
theorem span_update (x : ι → F) :
    span (r + 1) (update p r x) = span r p ⊔ Submodule.span F {x} := by
  have hold : ∀ v < r, update p r x v = p v := fun v hv =>
    update_of_ne (Nat.ne_of_lt hv) _ _
  apply le_antisymm
  · refine Submodule.span_le.mpr ?_
    rintro y ⟨v, hv, rfl⟩
    rcases Nat.lt_succ_iff_lt_or_eq.mp hv with hlt | rfl
    · rw [hold v hlt]
      exact mem_sup_left (mem_span hlt)
    · rw [update_self]
      exact mem_sup_right (mem_span_singleton_self x)
  · apply sup_le
    · refine Submodule.span_le.mpr ?_
      rintro y ⟨v, hv, rfl⟩
      rw [← hold v hv]
      exact mem_span (by omega)
    · apply (span_singleton_le_iff_mem _ _).mpr
      exact subset_span ⟨r, r.lt_succ_self, update_self r x p⟩

theorem span_reduce (u : ℕ → ι) (x : ι → F) :
    span r p ⊔ Submodule.span F {reduce r p u x} = span r p ⊔ Submodule.span F {x} := by
  have hdiff := sub_reduce_mem r p u x
  apply le_antisymm
  · refine sup_le le_sup_left ((span_singleton_le_iff_mem _ _).mpr ?_)
    have hmem := Submodule.sub_mem _ (mem_sup_right (S := span r p)
      (mem_span_singleton_self x)) (mem_sup_left hdiff)
    rwa [sub_sub_cancel] at hmem
  · refine sup_le le_sup_left ((span_singleton_le_iff_mem _ _).mpr ?_)
    have hmem := Submodule.add_mem _ (mem_sup_left hdiff)
      (mem_sup_right (S := span r p) (mem_span_singleton_self (reduce r p u x)))
    rwa [sub_add_cancel] at hmem

/-- One vector more is independent of the others if it is not in their span. -/
theorem linearIndependent_update (x : ι → F) :
    LinearIndependent F (fun i : Fin (r + 1) => update p r x i) ↔
      LinearIndependent F (fun i : Fin r => p i) ∧ x ∉ span r p := by
  have hinit : Fin.init (fun i : Fin (r + 1) => update p r x i)
      = fun i : Fin r => p i := by
    funext i
    exact update_of_ne (Nat.ne_of_lt i.isLt) _ _
  have hrange : Set.range (fun i : Fin r => p i) = {x | ∃ v < r, p v = x} := by
    ext y
    constructor
    · rintro ⟨i, hi⟩
      exact ⟨i, i.isLt, hi⟩
    · rintro ⟨v, hv, hy⟩
      exact ⟨⟨v, hv⟩, hy⟩
  rw [linearIndependent_finSucc', hinit, hrange]
  simp only [Fin.val_last, update_self]
  exact Iff.rfl

end

end GrowingBasis
