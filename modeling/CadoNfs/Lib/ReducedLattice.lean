import Mathlib.Data.Int.ModEq
import Mathlib.LinearAlgebra.LinearIndependent.Lemmas
import Mathlib.Tactic.Linarith
import Mathlib.Tactic.LinearCombination

/-!
# Lattices of a root modulo p and their walk through a strip

The lattice of all pairs `(i, j)` with `i ≡ r j` modulo `p`, bases of
it that are reduced for a strip of given width, and the order in which the points
of the strip follow each other.

Main results:

- Theorem `span_eq_rootLattice`: two lattice vectors of determinant `p`
  are a basis.
- Theorem `IsReducedBasis.stripStep_minimal`: in a strip as wide as the basis
  is reduced for, one of the two basis vectors or their sum leads to the next point.
- Theorem `enumerateBelow_spec`: repeating a function that gives the next point
  lists all points below a bound in increasing order.
-/

namespace LatticeWalk

open Prod (fst_add smul_fst smul_snd snd_add)

/-! ## The lattice of a root -/

/-- All pairs `(i, j)` with `i ≡ r j` modulo `p`. -/
def rootLattice (p r : ℤ) : Submodule ℤ (ℤ × ℤ) where
  carrier := {x | x.1 ≡ r * x.2 [ZMOD p]}
  add_mem' := by
    intro x y hx hy
    simp only [Set.mem_ofPred_eq, fst_add, snd_add, mul_add] at *
    exact hx.add hy
  zero_mem' := by simp [Int.ModEq]
  smul_mem' := by
    intro c x hx
    simp only [Set.mem_ofPred_eq, smul_fst, smul_snd, smul_eq_mul] at *
    rw [mul_left_comm]
    exact hx.mul_left c

@[simp] theorem mem_rootLattice {p r : ℤ} {x : ℤ × ℤ} :
    x ∈ rootLattice p r ↔ x.1 ≡ r * x.2 [ZMOD p] := Iff.rfl

/-- Two lattice vectors of determinant `p` generate the lattice. -/
theorem span_eq_rootLattice {p r a₀ a₁ b₀ b₁ : ℤ} (hp : p ≠ 0)
    (ha : a₀ ≡ r * a₁ [ZMOD p]) (hb : b₀ ≡ r * b₁ [ZMOD p])
    (hdet : b₀ * a₁ - a₀ * b₁ = p) :
    Submodule.span ℤ {(a₀, a₁), (b₀, b₁)} = rootLattice p r := by
  apply le_antisymm
  · rw [Submodule.span_le]
    rintro x (rfl | rfl)
    · exact ha
    · exact hb
  · rintro ⟨i, j⟩ hx
    rw [mem_rootLattice] at hx
    -- Cramer's rule: both numerators vanish modulo p
    have hc : p ∣ b₀ * j - b₁ * i := by
      have hmod : b₁ * i ≡ b₀ * j [ZMOD p] :=
        calc b₁ * i ≡ b₁ * (r * j) [ZMOD p] := hx.mul_left b₁
          _ ≡ r * b₁ * j [ZMOD p] := by rw [show b₁ * (r * j) = r * b₁ * j by ring]
          _ ≡ b₀ * j [ZMOD p] := (hb.mul_right j).symm
      exact Int.modEq_iff_dvd.mp hmod
    have hd : p ∣ a₁ * i - a₀ * j := by
      have hmod : a₀ * j ≡ a₁ * i [ZMOD p] :=
        calc a₀ * j ≡ r * a₁ * j [ZMOD p] := ha.mul_right j
          _ ≡ a₁ * (r * j) [ZMOD p] := by rw [show a₁ * (r * j) = r * a₁ * j by ring]
          _ ≡ a₁ * i [ZMOD p] := (hx.mul_left a₁).symm
      exact Int.modEq_iff_dvd.mp hmod
    obtain ⟨c, hc⟩ := hc
    obtain ⟨d, hd⟩ := hd
    rw [Submodule.mem_span_pair]
    refine ⟨c, d, Prod.ext ?_ ?_⟩
    · apply mul_left_cancel₀ hp
      simp only [fst_add, smul_fst, smul_eq_mul]
      linear_combination -a₀ * hc - b₀ * hd + i * hdet
    · apply mul_left_cancel₀ hp
      simp only [snd_add, smul_snd, smul_eq_mul]
      linear_combination -a₁ * hc - b₁ * hd + j * hdet

/-! ## Reduced bases -/

/-- A basis `(α, β), (γ, δ)` of a lattice that is reduced for strips of width
`I`. -/
structure IsReducedBasis (L : Submodule ℤ (ℤ × ℤ)) (I α β γ δ : ℤ) : Prop where
  /-- The two vectors generate the lattice. -/
  span_eq : Submodule.span ℤ {(α, β), (γ, δ)} = L
  beta_pos : 0 < β
  delta_pos : 0 < δ
  alpha_gt : -I < α
  alpha_le : α ≤ 0
  gamma_ge : 0 ≤ γ
  gamma_lt : γ < I
  /-- No two rows apart do the vectors fit the strip together. -/
  width : I ≤ γ - α

/-- The vector to the next point of the strip, from column `k` of the strip
`0 ≤ k < I`. -/
def stripStep (I α β γ δ k : ℤ) : ℤ × ℤ :=
  (if I - γ ≤ k then (α, β) else 0) + (if k < -α then (γ, δ) else 0)

namespace IsReducedBasis

variable {L : Submodule ℤ (ℤ × ℤ)} {I α β γ δ : ℤ}

section

variable (h : IsReducedBasis L I α β γ δ)
include h

theorem mem_iff {x : ℤ × ℤ} : x ∈ L ↔ ∃ c d : ℤ, c * α + d * γ = x.1 ∧ c * β + d * δ = x.2 := by
  rw [← h.span_eq, Submodule.mem_span_pair]
  simp [Prod.ext_iff]

theorem linearIndependent : LinearIndependent ℤ ![(α, β), (γ, δ)] := by
  have hI : 0 < I := by linarith [h.gamma_ge, h.gamma_lt]
  have hdet : 0 < γ * β - α * δ := by
    have hγ : 0 ≤ γ * (β - 1) := mul_nonneg h.gamma_ge (by linarith [h.beta_pos])
    have hα : 0 ≤ -α * (δ - 1) :=
      mul_nonneg (by linarith [h.alpha_le]) (by linarith [h.delta_pos])
    nlinarith [h.width]
  rw [LinearIndependent.pair_iff]
  intro c d hcd
  simp only [Prod.ext_iff, fst_add, snd_add, smul_fst, smul_snd,
    smul_eq_mul, Prod.fst_zero, Prod.snd_zero] at hcd
  obtain ⟨hfst, hsnd⟩ := hcd
  have hc : c * (γ * β - α * δ) = 0 := by linear_combination γ * hsnd - δ * hfst
  have hd : d * (γ * β - α * δ) = 0 := by linear_combination β * hfst - α * hsnd
  exact ⟨(mul_eq_zero.mp hc).resolve_right hdet.ne', (mul_eq_zero.mp hd).resolve_right hdet.ne'⟩

theorem coefficients_nonneg {x : ℤ × ℤ} (hx : x ∈ L)
    (hleft : -I < x.1) (hright : x.1 < I) (hrow : 0 ≤ x.2) :
    ∃ c d : ℤ, 0 ≤ c ∧ 0 ≤ d ∧ c * α + d * γ = x.1 ∧ c * β + d * δ = x.2 := by
  obtain ⟨c, d, hfst, hsnd⟩ := h.mem_iff.mp hx
  refine ⟨c, d, ?_, ?_, hfst, hsnd⟩
  · by_contra hc
    have hc : c ≤ -1 := by omega
    have hd : 1 ≤ d := by
      by_contra hd
      have hcβ : c * β ≤ -1 * β := mul_le_mul_of_nonneg_right hc h.beta_pos.le
      have hdδ : d * δ ≤ 0 := mul_nonpos_of_nonpos_of_nonneg (by omega) h.delta_pos.le
      linarith [h.beta_pos]
    have hcα : -1 * α ≤ c * α := by nlinarith [h.alpha_le]
    have hdγ : 1 * γ ≤ d * γ := mul_le_mul_of_nonneg_right hd h.gamma_ge
    linarith [h.width]
  · by_contra hd
    have hd : d ≤ -1 := by omega
    have hc : 1 ≤ c := by
      by_contra hc
      have hdδ : d * δ ≤ -1 * δ := mul_le_mul_of_nonneg_right hd h.delta_pos.le
      have hcβ : c * β ≤ 0 := mul_nonpos_of_nonpos_of_nonneg (by omega) h.beta_pos.le
      linarith [h.delta_pos]
    have hcα : c * α ≤ 1 * α := by nlinarith [h.alpha_le]
    have hdγ : d * γ ≤ -1 * γ := mul_le_mul_of_nonneg_right hd h.gamma_ge
    linarith [h.width]

end

variable {k : ℤ}

section

variable (h : IsReducedBasis L I α β γ δ)
include h

theorem stripStep_mem : stripStep I α β γ δ k ∈ L := by
  have hu : (α, β) ∈ L := h.mem_iff.mpr ⟨1, 0, by simp, by simp⟩
  have hv : (γ, δ) ∈ L := h.mem_iff.mpr ⟨0, 1, by simp, by simp⟩
  unfold stripStep
  apply L.add_mem
  · split_ifs
    · exact hu
    · exact L.zero_mem
  · split_ifs
    · exact hv
    · exact L.zero_mem

theorem stripStep_cases : (-α ≤ k ∧ I - γ ≤ k ∧ stripStep I α β γ δ k = (α, β)) ∨
      (k < I - γ ∧ k < -α ∧ stripStep I α β γ δ k = (γ, δ)) ∨
      (I - γ ≤ k ∧ k < -α ∧ stripStep I α β γ δ k = (α + γ, β + δ)) := by
  have hwidth := h.width
  unfold stripStep
  rcases lt_or_ge k (I - γ) with hleft | hleft
  · right
    left
    refine ⟨hleft, by omega, ?_⟩
    rw [if_neg (by omega), if_pos (by omega), zero_add]
  · rcases lt_or_ge k (-α) with hright | hright
    · right
      right
      refine ⟨hleft, hright, ?_⟩
      rw [if_pos hleft, if_pos hright]
      rfl
    · left
      refine ⟨hright, hleft, ?_⟩
      rw [if_pos hleft, if_neg (by omega), add_zero]

theorem stripStep_strip (hk : 0 ≤ k) (hkI : k < I) :
    0 ≤ k + (stripStep I α β γ δ k).1 ∧ k + (stripStep I α β γ δ k).1 < I ∧
      0 < (stripStep I α β γ δ k).2 := by
  have := h.beta_pos
  have := h.delta_pos
  have := h.alpha_le
  have := h.alpha_gt
  have := h.gamma_ge
  have := h.gamma_lt
  rcases h.stripStep_cases (k := k) with ⟨h₁, h₂, hstep⟩ | ⟨h₁, h₂, hstep⟩ | ⟨h₁, h₂, hstep⟩ <;>
    rw [hstep] <;>
    simp only <;>
    omega

/-- Every other lattice vector that stays in the strip and does not lead backwards
leads to a later row than the step does. -/
theorem stripStep_minimal (hk : 0 ≤ k) (hkI : k < I)
    {x : ℤ × ℤ} (hx : x ∈ L) (hleft : 0 ≤ k + x.1) (hright : k + x.1 < I) (hrow : 0 ≤ x.2)
    (hne : x ≠ 0) :
    (stripStep I α β γ δ k).2 < x.2 ∨ x = stripStep I α β γ δ k := by
  obtain ⟨c, d, hc, hd, hfst, hsnd⟩ :=
    h.coefficients_nonneg hx (by omega) (by omega) hrow
  have hβ := h.beta_pos
  have hδ := h.delta_pos
  have hα := h.alpha_le
  have hγ := h.gamma_ge
  rcases hc.eq_or_lt with hc | hc
  · rcases hd.eq_or_lt with hd | hd
    · exact absurd (Prod.ext (by rw [← hfst, ← hc, ← hd]; simp)
        (by rw [← hsnd, ← hc, ← hd]; simp)) hne
    · -- only the second vector: it has to fit the strip
      have hdγ : 1 * γ ≤ d * γ := mul_le_mul_of_nonneg_right hd hγ
      rw [← hc, zero_mul, zero_add] at hfst hsnd
      rcases h.stripStep_cases (k := k) with ⟨h₁, h₂, hstep⟩ | ⟨h₁, h₂, hstep⟩ | ⟨h₁, h₂, hstep⟩
      · omega
      · rw [hstep]
        rcases (Int.add_one_le_iff.mpr hd).eq_or_lt with hone | hmore
        · right
          rw [zero_add] at hone
          exact Prod.ext (by rw [← hfst, ← hone, one_mul]) (by rw [← hsnd, ← hone, one_mul])
        · left
          rw [← hsnd]
          nlinarith
      · omega
  · rcases hd.eq_or_lt with hd | hd
    · have hcα : c * α ≤ 1 * α := by nlinarith
      rw [← hd, zero_mul, add_zero] at hfst hsnd
      rcases h.stripStep_cases (k := k) with ⟨h₁, h₂, hstep⟩ | ⟨h₁, h₂, hstep⟩ | ⟨h₁, h₂, hstep⟩
      · rw [hstep]
        rcases (Int.add_one_le_iff.mpr hc).eq_or_lt with hone | hmore
        · right
          rw [zero_add] at hone
          exact Prod.ext (by rw [← hfst, ← hone, one_mul]) (by rw [← hsnd, ← hone, one_mul])
        · left
          rw [← hsnd]
          nlinarith
      · omega
      · omega
    · have hcβ : 1 * β ≤ c * β := mul_le_mul_of_nonneg_right hc hβ.le
      have hdδ : 1 * δ ≤ d * δ := mul_le_mul_of_nonneg_right hd hδ.le
      rcases h.stripStep_cases (k := k) with ⟨h₁, h₂, hstep⟩ | ⟨h₁, h₂, hstep⟩ | ⟨h₁, h₂, hstep⟩
      · rw [hstep]
        left
        simp only
        omega
      · rw [hstep]
        left
        simp only
        omega
      · rw [hstep]
        rcases (Int.add_one_le_iff.mpr hc).eq_or_lt with hone | hmore
        · rcases (Int.add_one_le_iff.mpr hd).eq_or_lt with hone' | hmore'
          · right
            rw [zero_add] at hone hone'
            exact Prod.ext (by rw [← hfst, ← hone, ← hone']; ring)
              (by rw [← hsnd, ← hone, ← hone']; ring)
          · left
            simp only
            nlinarith
        · left
          simp only
          nlinarith

end

end IsReducedBasis

/-! ## Listing points in order -/

/-- List `x`, `next x` and so on while they are below `bound`;
`fuel` limits the length, and `none` says that it ran out. -/
def enumerateBelow (next : ℕ → ℕ) (bound : ℕ) (fuel x : ℕ) : Option (List ℕ) :=
  match fuel with
  | 0 => none
  | fuel + 1 =>
    if x < bound then
      (enumerateBelow next bound fuel (next x)).map (x :: ·)
    else
      some []

/-- What makes `y` the point that follows `x` below a bound: no point lies
between them, and `y` is a point unless it left the bound. -/
structure IsNextPoint (P : ℕ → Prop) (bound x y : ℕ) : Prop where
  lt : x < y
  point : y < bound → P y
  least : ∀ z, P z → x < z → z < bound → y ≤ z

/-- If `next` leads from each point to the following one, the list has exactly
the points from the start on, in strictly increasing order. -/
theorem enumerateBelow_spec {P : ℕ → Prop} {next : ℕ → ℕ} {bound : ℕ}
    (hnext : ∀ x, P x → x < bound → IsNextPoint P bound x (next x)) (fuel x : ℕ)
    (hfuel : bound < fuel + x) (hfuel0 : 0 < fuel) (hx : x < bound → P x) :
    ∃ xs, enumerateBelow next bound fuel x = some xs ∧ xs.Pairwise (· < ·) ∧
      ∀ y, y ∈ xs ↔ x ≤ y ∧ y < bound ∧ P y := by
  induction fuel generalizing x with
  | zero => omega
  | succ fuel ih =>
    by_cases hlt : x < bound
    · have hstep := hnext x (hx hlt) hlt
      obtain ⟨xs, hxs, hsorted, hmem⟩ :=
        ih (next x) (by have := hstep.lt; omega) (by omega) hstep.point
      refine ⟨x :: xs, by rw [enumerateBelow, if_pos hlt, hxs, Option.map_some], ?_, ?_⟩
      · rw [List.pairwise_cons]
        refine ⟨?_, hsorted⟩
        intro y hy
        exact hstep.lt.trans_le ((hmem y).mp hy).1
      · intro y
        rw [List.mem_cons, hmem y]
        constructor
        · rintro (rfl | ⟨hle, hy, hP⟩)
          · exact ⟨le_rfl, hlt, hx hlt⟩
          · exact ⟨hstep.lt.le.trans hle, hy, hP⟩
        · rintro ⟨hle, hy, hP⟩
          rcases hle.eq_or_lt with heq | hxy
          · exact Or.inl heq.symm
          · exact Or.inr ⟨hstep.least y hP hxy hy, hy, hP⟩
    · refine ⟨[], by rw [enumerateBelow, if_neg hlt], List.Pairwise.nil, ?_⟩
      intro y
      simp only [List.not_mem_nil, false_iff, not_and]
      intro hle hy
      omega

end LatticeWalk
