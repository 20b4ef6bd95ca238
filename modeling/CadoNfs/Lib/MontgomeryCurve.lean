import Mathlib.AlgebraicGeometry.EllipticCurve.Affine.Point

/-!
# Points of a curve in Montgomery form by their first coordinates

On `y^2 = x^3 + A*x^2 + x` the first coordinate of a sum follows from those of the two points
and of their difference, and that of a double from the one of the point.  A first coordinate is
given as a quotient `X : Z`.

Main results:

- Theorem `addX_mul_addX`: the first coordinates of a sum and a difference.
- Theorem `IsXZ.add`: the sum of two points with a known difference.
- Theorem `IsXZ.double`: the double of a point.
-/

namespace MontgomeryCurve

open WeierstrassCurve.Affine

variable {K : Type*} [Field K] {A : K}

/-- The curve `y^2 = x^3 + A*x^2 + x`. -/
def curve (A : K) : WeierstrassCurve.Affine K :=
  ⟨0, A, 0, 1, 0⟩

variable {W : WeierstrassCurve.Affine K}

/-- The quotient `X : Z` is the first coordinate of a point, up to a factor; the factor may be
zero, and `0 : 0` stands for any point. -/
def IsXZ : W.Point → K → K → Prop
  | .zero, _, Z => Z = 0
  | .some x _ _, X, Z => X = x * Z

theorem isXZ_zero_zero (P : W.Point) : IsXZ P 0 0 := by
  cases P with
  | zero => rfl
  | some x y hns => exact (mul_zero x).symm

theorem IsXZ.mul {P : W.Point} {X Z : K} (h : IsXZ P X Z) (c : K) : IsXZ P (c * X) (c * Z) := by
  cases P with
  | zero =>
    obtain rfl : Z = 0 := h
    exact mul_zero c
  | some x y hns =>
    obtain rfl : X = x * Z := h
    exact mul_left_comm c x Z

theorem isXZ_neg_iff {P : W.Point} {X Z : K} : IsXZ (-P) X Z ↔ IsXZ P X Z := by
  cases P with
  | zero => rfl
  | some x y hns => rfl

theorem curve_negY (x y : K) : (curve A).negY x y = -y := by
  simp [negY, curve]

theorem curve_addX (x₁ x₂ l : K) : (curve A).addX x₁ x₂ l = l ^ 2 - A - x₁ - x₂ := by
  simp [addX, curve]

theorem curve_equation_iff (x y : K) :
    (curve A).Equation x y ↔ y ^ 2 = x ^ 3 + A * x ^ 2 + x := by
  simp [equation_iff, curve]

/-- The product of the first coordinates of the sum and of the difference of two points. -/
theorem addX_mul_addX {x₁ x₂ y₁ y₂ : K} (h₁ : (curve A).Equation x₁ y₁)
    (h₂ : (curve A).Equation x₂ y₂) (hx : x₁ ≠ x₂) :
    (curve A).addX x₁ x₂ ((y₁ - y₂) / (x₁ - x₂)) * (curve A).addX x₁ x₂ ((y₁ + y₂) / (x₁ - x₂))
      * (x₁ - x₂) ^ 2 = (x₁ * x₂ - 1) ^ 2 := by
  rw [curve_equation_iff] at h₁ h₂
  have hu : x₁ - x₂ ≠ 0 := sub_ne_zero.mpr hx
  have hclear : ∀ y, (curve A).addX x₁ x₂ (y / (x₁ - x₂)) * (x₁ - x₂) ^ 2
      = y ^ 2 - (A + x₁ + x₂) * (x₁ - x₂) ^ 2 := by
    intro y
    rw [curve_addX]
    field_simp
    ring
  refine mul_right_cancel₀ (pow_ne_zero 2 hu) ?_
  calc _ = (curve A).addX x₁ x₂ ((y₁ - y₂) / (x₁ - x₂)) * (x₁ - x₂) ^ 2
        * ((curve A).addX x₁ x₂ ((y₁ + y₂) / (x₁ - x₂)) * (x₁ - x₂) ^ 2) := by ring
    _ = ((y₁ - y₂) ^ 2 - (A + x₁ + x₂) * (x₁ - x₂) ^ 2)
        * ((y₁ + y₂) ^ 2 - (A + x₁ + x₂) * (x₁ - x₂) ^ 2) := by rw [hclear, hclear]
    _ = (x₁ * x₂ - 1) ^ 2 * (x₁ - x₂) ^ 2 := by
      -- both sides are polynomials in the squares of `y₁` and `y₂`
      linear_combination
        (y₁ ^ 2 + (x₁ ^ 3 + A * x₁ ^ 2 + x₁) - 2 * y₂ ^ 2
            - 2 * ((A + x₁ + x₂) * (x₁ - x₂) ^ 2)) * h₁
          + (y₂ ^ 2 + (x₂ ^ 3 + A * x₂ ^ 2 + x₂) - 2 * (x₁ ^ 3 + A * x₁ ^ 2 + x₁)
            - 2 * ((A + x₁ + x₂) * (x₁ - x₂) ^ 2)) * h₂

theorem addX_self {x y : K} (h : (curve A).Equation x y) (hy : 2 * y ≠ 0) :
    (curve A).addX x x ((3 * x ^ 2 + 2 * A * x + 1) / (2 * y)) * (2 * y) ^ 2
      = (x ^ 2 - 1) ^ 2 := by
  rw [curve_equation_iff] at h
  have hclear : (curve A).addX x x ((3 * x ^ 2 + 2 * A * x + 1) / (2 * y)) * (2 * y) ^ 2
      = (3 * x ^ 2 + 2 * A * x + 1) ^ 2 - (A + 2 * x) * (2 * y) ^ 2 := by
    rw [curve_addX, sub_mul, sub_mul, sub_mul, div_pow, div_mul_cancel₀ _ (pow_ne_zero 2 hy)]
    ring
  rw [hclear]
  linear_combination (-4 * (A + 2 * x)) * h

section Group

variable [DecidableEq K]

/-- The sum of two points, given their difference. -/
theorem IsXZ.add {P Q : (curve A).Point} {X₁ Z₁ X₂ Z₂ X Z : K} (hP : IsXZ P X₁ Z₁)
    (hQ : IsXZ Q X₂ Z₂) (hD : IsXZ (P - Q) X Z) :
    IsXZ (P + Q) (Z * (X₁ * X₂ - Z₁ * Z₂) ^ 2) (X * (X₁ * Z₂ - Z₁ * X₂) ^ 2) := by
  rcases P with - | ⟨x₁, y₁, h₁⟩
  · obtain rfl : Z₁ = 0 := hP
    change IsXZ (0 - Q) X Z at hD
    rw [zero_sub, isXZ_neg_iff] at hD
    change IsXZ (0 + Q) _ _
    rw [zero_add]
    rcases Q with - | ⟨x₂, y₂, h₂⟩
    · obtain rfl : Z₂ = 0 := hQ
      change _ = (0 : K)
      ring
    · obtain rfl : X₂ = x₂ * Z₂ := hQ
      obtain rfl : X = x₂ * Z := hD
      change _ = x₂ * _
      ring
  rcases Q with - | ⟨x₂, y₂, h₂⟩
  · obtain rfl : Z₂ = 0 := hQ
    change IsXZ (Point.some x₁ y₁ h₁ - 0) X Z at hD
    rw [sub_zero] at hD
    change IsXZ (Point.some x₁ y₁ h₁ + 0) _ _
    rw [add_zero]
    obtain rfl : X₁ = x₁ * Z₁ := hP
    obtain rfl : X = x₁ * Z := hD
    change _ = x₁ * _
    ring
  obtain rfl : X₁ = x₁ * Z₁ := hP
  obtain rfl : X₂ = x₂ * Z₂ := hQ
  rw [sub_eq_add_neg, Point.neg_some] at hD
  by_cases hx : x₁ = x₂
  · subst hx
    -- the points are equal, or negatives of each other
    rcases Y_eq_of_X_eq h₁.1 h₂.1 rfl with hy | hy
    · subst hy
      rw [Point.add_of_Y_eq rfl (by rw [negY_negY])] at hD
      obtain rfl : Z = 0 := hD
      convert isXZ_zero_zero _ using 1 <;> ring
    · rw [Point.add_of_Y_eq rfl hy]
      change _ = (0 : K)
      ring
  · have hprod := addX_mul_addX h₁.1 h₂.1 hx
    rw [Point.add_of_X_ne hx] at hD
    rw [Point.add_of_X_ne hx]
    change X = (curve A).addX x₁ x₂ _ * Z at hD
    change _ = (curve A).addX x₁ x₂ _ * _
    rw [slope_of_X_ne hx, curve_negY, sub_neg_eq_add] at hD
    rw [slope_of_X_ne hx, hD]
    linear_combination (-(Z * Z₁ ^ 2 * Z₂ ^ 2)) * hprod

/-- The double of a point; the first factor of the second coordinate is `4*X*Z`, and `c`
is `(A + 2) / 4`. -/
theorem IsXZ.double {P : (curve A).Point} {X Z c : K} (hc : 4 * c = A + 2) (hP : IsXZ P X Z) :
    IsXZ (P + P) ((X + Z) ^ 2 * (X - Z) ^ 2)
      (((X + Z) ^ 2 - (X - Z) ^ 2) * (((X + Z) ^ 2 - (X - Z) ^ 2) * c + (X - Z) ^ 2)) := by
  rcases P with - | ⟨x, y, h⟩
  · obtain rfl : Z = 0 := hP
    change IsXZ (0 + 0) _ _
    rw [add_zero]
    change _ = (0 : K)
    ring
  obtain rfl : X = x * Z := hP
  have hsquare := (curve_equation_iff x y).mp h.1
  -- the second coordinate is the square of `2 * y`, up to a factor
  have hZ : ((x * Z + Z) ^ 2 - (x * Z - Z) ^ 2)
      * (((x * Z + Z) ^ 2 - (x * Z - Z) ^ 2) * c + (x * Z - Z) ^ 2) = Z ^ 4 * (2 * y) ^ 2 := by
    linear_combination 4 * x ^ 2 * Z ^ 4 * hc - 4 * Z ^ 4 * hsquare
  rw [hZ]
  by_cases hy : 2 * y = 0
  · rw [Point.add_self_of_Y_eq (by rw [curve_negY]; linear_combination hy), hy]
    change _ = (0 : K)
    ring
  · have hne : y ≠ (curve A).negY x y := by
      rw [curve_negY]
      intro heq
      exact hy (by linear_combination heq)
    have hslope : (curve A).slope x x y y = (3 * x ^ 2 + 2 * A * x + 1) / (2 * y) := by
      rw [slope_of_Y_ne rfl hne, curve_negY]
      simp only [curve]
      congr 1 <;> ring
    have hdouble := addX_self h.1 hy
    rw [Point.add_self_of_Y_ne hne]
    change _ = (curve A).addX x x _ * _
    rw [hslope]
    linear_combination (-(Z ^ 4)) * hdouble

end Group

end MontgomeryCurve
