import Mathlib.AlgebraicGeometry.EllipticCurve.Affine.Point
import CadoNfs.Lib.FieldOps

/-!
# Multiples of a point in Weierstrass coordinates

The functions `ellW_*` of `ecm.c` add points of a curve
`y^2 = x^3 + a*x + b` in affine coordinates; a return value of 0 stands for the point
at infinity.

Main results:

- Theorems `ellWDouble_spec`, `ellWAdd_spec`: the two operations are the group law.
- Theorem `ellWMulUi_spec`: the ladder gives the multiple, finite or not.
-/

namespace CadoNfs

open WordArith WeierstrassCurve.Affine
open BitVec (allOnes)

variable {ρ : Type} {w : ℕ}

/-! ## Code -/

/-- `ellW_point_t`. -/
structure EllWPoint (ρ : Type) where
  x : ρ
  y : ρ
  deriving DecidableEq, Repr

section Code

variable (ops : FieldOps ρ) (P : EllWPoint ρ)

/-- `ellW_double`; the inner `none` is the return value 0. -/
def ellWDouble (a : ρ) : Outcome (Option (EllWPoint ρ)) := do
  let u ← ops.sqr P.x
  let v ← ops.add u u
  let v ← ops.add v u
  let v ← ops.add v a
  let u ← ops.add P.y P.y
  match ← ops.inv u with
  | none => pure none
  | some u => do
    let lambda ← ops.mul u v
    let u ← ops.sqr lambda
    let u := ops.sub u P.x
    let u := ops.sub u P.x
    let v := ops.sub P.x u
    let v ← ops.mul v lambda
    pure (some ⟨u, ops.sub v P.y⟩)

variable [DecidableEq ρ]

/-- `ellW_add`; the inner `none` is the return value 0. -/
def ellWAdd (P Q : EllWPoint ρ) (a : ρ) : Outcome (Option (EllWPoint ρ)) := do
  let u := ops.sub Q.y P.y
  let v := ops.sub Q.x P.x
  match ← ops.inv v with
  | none =>
    if P.x = Q.x ∧ P.y = Q.y then ellWDouble ops P a
    -- both the negative of the point and a proper factor
    else pure none
  | some v => do
    let lambda ← ops.mul u v
    let u ← ops.sqr lambda
    let u := ops.sub u P.x
    let u := ops.sub u Q.x
    let v := ops.sub P.x u
    let v ← ops.mul v lambda
    pure (some ⟨u, ops.sub v P.y⟩)

/-- The doubling of `ellW_mul_ui`; `T` is `none` while `tfinite` is 0. -/
def ellWDoubleFinite (a : ρ) : Option (EllWPoint ρ) → Outcome (Option (EllWPoint ρ))
  | some T => ellWDouble ops T a
  | none => pure none

/-- The addition of `ellW_mul_ui`. -/
def ellWAddFinite (a : ρ) :
    Option (EllWPoint ρ) → Outcome (Option (EllWPoint ρ))
  | some T => ellWAdd ops T P a
  | none => pure (some P)

/-- One turn of the loop of `ellW_mul_ui`. -/
def ellWStep (a : ρ) (bit : Bool) (T : Option (EllWPoint ρ)) :
    Outcome (Option (EllWPoint ρ)) := do
  let T ← ellWDoubleFinite ops a T
  if bit then ellWAddFinite ops P a T else pure T

/-- The loop that moves `i` down to the first bit of `e`. -/
def ellWFirstBit (e : BitVec w) : ℕ → BitVec w → BitVec w
  | 0, i => i
  | fuel + 1, i => if i &&& e = 0#w then ellWFirstBit e fuel (i >>> 1) else i

/-- `ellW_mul_ui`: the point that `P` is replaced by; the inner `none` is the
return value 0, for which `P` is not written. -/
def ellWMulUi (e : BitVec w) (a : ρ) : Outcome (Option (EllWPoint ρ)) :=
  if e = 0#w then pure none
  else
    let i := ellWFirstBit e w (allOnes w - allOnes w >>> 1)
    maskLoop (ellWStep ops P a) e (w + 1) (i >>> 1) (some P)

end Code

/-! ## Points -/

section Points

variable {F : Type} [Field F] {Rep : F → ρ → Prop}

/-- The curve `y^2 = x^3 + a*x + b`. -/
def shortCurve (a b : F) : WeierstrassCurve.Affine F :=
  ⟨0, 0, 0, a, b⟩

/-- A finite point with its coordinates, or the point at infinity. -/
def RepPoint (Rep : F → ρ → Prop) {W : WeierstrassCurve.Affine F} :
    W.Point → Option (EllWPoint ρ) → Prop
  | .zero, none => True
  | .some x y _, some p => Rep x p.x ∧ Rep y p.y
  | _, _ => False

variable {ops : FieldOps ρ} {a b : F} {A : ρ}

section

variable {W : WeierstrassCurve.Affine F} {P : W.Point}

theorem repPoint_none_iff : RepPoint Rep P none ↔ P = 0 := by
  cases P with
  | zero => exact iff_of_true trivial rfl
  | some x y hns => exact iff_of_false id (Point.some_ne_zero hns)

theorem RepPoint.eq_none_iff
    {r : Option (EllWPoint ρ)} (h : RepPoint Rep P r) : r = none ↔ P = 0 := by
  cases P with
  | zero =>
    cases r with
    | none => exact iff_of_true rfl rfl
    | some r => exact h.elim
  | some x y hns =>
    refine iff_of_false ?_ (Point.some_ne_zero hns)
    rintro rfl
    exact h

end

theorem shortCurve_negY (x y : F) : (shortCurve a b).negY x y = -y := by
  simp [negY, shortCurve]

theorem ellWLine_spec (h : ops.Models Rep) {x₁ x₂ y₁ l : F} {X₁ X₂ Y₁ lambda : ρ}
    (hx₁ : Rep x₁ X₁) (hx₂ : Rep x₂ X₂) (hy₁ : Rep y₁ Y₁) (hl : Rep l lambda) :
    ∃ s t, ops.sqr lambda = pure s ∧
      ops.mul (ops.sub X₁ (ops.sub (ops.sub s X₁) X₂)) lambda = pure t ∧
      Rep ((shortCurve a b).addX x₁ x₂ l) (ops.sub (ops.sub s X₁) X₂) ∧
      Rep ((shortCurve a b).addY x₁ x₂ y₁ l) (ops.sub t Y₁) := by
  obtain ⟨s, hs, hs'⟩ := h.sqr hl
  have hx₃ := h.sub (h.sub hs' hx₁) hx₂
  obtain ⟨t, ht, ht'⟩ := h.mul (h.sub hx₁ hx₃) hl
  refine ⟨s, t, hs, ht, ?_, ?_⟩
  · convert hx₃ using 1
    simp only [addX, shortCurve]
    ring
  · convert h.sub ht' hy₁ using 1
    simp only [addY, shortCurve_negY, negAddY, addX]
    simp only [shortCurve]
    ring

variable [DecidableEq F]

/-- `ellW_double` doubles a point. -/
theorem ellWDouble_spec (h : ops.Models Rep) (htwo : (2 : F) ≠ 0) (hA : Rep a A)
    {P : (shortCurve a b).Point} {p : EllWPoint ρ} (hP : RepPoint Rep P (some p)) :
    ∃ r, ellWDouble ops p A = pure r ∧ RepPoint Rep (P + P) r := by
  rcases P with - | ⟨x, y, hns⟩
  · exact hP.elim
  obtain ⟨hx, hy⟩ : Rep x p.x ∧ Rep y p.y := hP
  obtain ⟨u, hu, hu'⟩ := h.sqr hx
  obtain ⟨v₁, hv₁, hv₁'⟩ := h.add hu' hu'
  obtain ⟨v₂, hv₂, hv₂'⟩ := h.add hv₁' hu'
  obtain ⟨v, hv, hv'⟩ := h.add hv₂' hA
  obtain ⟨d, hd, hd'⟩ := h.add hy hy
  by_cases hy0 : y = 0
  · have hd0 : Rep 0 d := by rwa [hy0, add_zero] at hd'
    refine ⟨none, ?_, ?_⟩
    · simp [ellWDouble, hu, hv₁, hv₂, hv, hd, h.inv_zero hd0]
    · rw [Point.add_self_of_Y_eq (by rw [shortCurve_negY, hy0, neg_zero])]
      trivial
  · have hd0 : y + y ≠ 0 := by
      rw [← two_mul]
      exact mul_ne_zero htwo hy0
    have hne : y ≠ (shortCurve a b).negY x y := by
      rw [shortCurve_negY]
      exact fun heq => hd0 (by nth_rewrite 1 [heq]; exact neg_add_cancel y)
    obtain ⟨e, he, he'⟩ := h.inv hd' hd0
    obtain ⟨lambda, hl, hl'⟩ := h.mul he' hv'
    have hslope : (y + y)⁻¹ * (x * x + x * x + x * x + a) = (shortCurve a b).slope x x y y := by
      rw [slope_of_Y_ne rfl hne, shortCurve_negY, sub_neg_eq_add, div_eq_inv_mul]
      simp only [shortCurve]
      ring
    rw [hslope] at hl'
    obtain ⟨s, t, hs, ht, hx₃, hy₃⟩ := ellWLine_spec h (b := b) hx hx hy hl'
    refine ⟨some ⟨ops.sub (ops.sub s p.x) p.x, ops.sub t p.y⟩, ?_, ?_⟩
    · simp [ellWDouble, hu, hv₁, hv₂, hv, hd, he, hl, hs, ht]
    · rw [Point.add_self_of_Y_ne hne]
      exact ⟨hx₃, hy₃⟩

variable [DecidableEq ρ]

/-- `ellW_add` adds two points. -/
theorem ellWAdd_spec (h : ops.Models Rep) (htwo : (2 : F) ≠ 0) (hA : Rep a A)
    {P Q : (shortCurve a b).Point} {p q : EllWPoint ρ} (hP : RepPoint Rep P (some p))
    (hQ : RepPoint Rep Q (some q)) :
    ∃ r, ellWAdd ops p q A = pure r ∧ RepPoint Rep (P + Q) r := by
  rcases P with - | ⟨x₁, y₁, hns₁⟩
  · exact hP.elim
  rcases Q with - | ⟨x₂, y₂, hns₂⟩
  · exact hQ.elim
  obtain ⟨hx₁, hy₁⟩ : Rep x₁ p.x ∧ Rep y₁ p.y := hP
  obtain ⟨hx₂, hy₂⟩ : Rep x₂ q.x ∧ Rep y₂ q.y := hQ
  have hu := h.sub hy₂ hy₁
  have hv := h.sub hx₂ hx₁
  by_cases hx : x₁ = x₂
  · have hv0 : Rep 0 (ops.sub q.x p.x) := by rwa [hx, sub_self] at hv
    have hequal : (p.x = q.x ∧ p.y = q.y) ↔ y₁ = y₂ := by
      rw [h.eq_iff hx₁ hx₂, h.eq_iff hy₁ hy₂, and_iff_right hx]
    by_cases hy : y₁ = y₂
    · obtain ⟨r, hr, hr'⟩ := ellWDouble_spec h htwo hA (P := .some x₁ y₁ hns₁) ⟨hx₁, hy₁⟩
      subst hx hy
      refine ⟨r, ?_, hr'⟩
      simp [ellWAdd, h.inv_zero hv0, if_pos (hequal.mpr rfl), hr]
    · -- points with one `x` and different `y` are negatives of each other
      have hneg : y₁ = (shortCurve a b).negY x₂ y₂ :=
        (Y_eq_of_X_eq hns₁.1 hns₂.1 hx).resolve_left hy
      refine ⟨none, ?_, ?_⟩
      · simp [ellWAdd, h.inv_zero hv0, if_neg (mt hequal.mp hy)]
      · rw [Point.add_of_Y_eq hx hneg]
        trivial
  · obtain ⟨e, he, he'⟩ := h.inv hv (sub_ne_zero.mpr (Ne.symm hx))
    obtain ⟨lambda, hl, hl'⟩ := h.mul hu he'
    have hslope : (y₂ - y₁) * (x₂ - x₁)⁻¹ = (shortCurve a b).slope x₁ x₂ y₁ y₂ := by
      rw [slope_of_X_ne hx, ← div_eq_mul_inv, ← neg_sub y₁, ← neg_sub x₁, neg_div_neg_eq]
    rw [hslope] at hl'
    obtain ⟨s, t, hs, ht, hx₃, hy₃⟩ := ellWLine_spec h (b := b) hx₁ hx₂ hy₁ hl'
    refine ⟨some ⟨ops.sub (ops.sub s p.x) q.x, ops.sub t p.y⟩, ?_, ?_⟩
    · simp [ellWAdd, he, hl, hs, ht]
    · rw [Point.add_of_X_ne hx]
      exact ⟨hx₃, hy₃⟩

theorem ellWStep_scans (h : ops.Models Rep) (htwo : (2 : F) ≠ 0) (hA : Rep a A)
    {P : (shortCurve a b).Point} {p : EllWPoint ρ} (hP : RepPoint Rep P (some p)) :
    ScansBits (ellWStep ops p A) fun n T => RepPoint Rep (n • P) T := by
  intro n bit T hT
  have hdouble : ∃ T', ellWDoubleFinite ops A T = pure T' ∧ RepPoint Rep ((2 * n) • P) T' := by
    rw [two_mul, add_smul]
    cases T with
    | none =>
      rw [repPoint_none_iff] at hT
      exact ⟨none, rfl, by rw [hT, add_zero]; trivial⟩
    | some T => exact ellWDouble_spec h htwo hA hT
  obtain ⟨T', hrun, hT'⟩ := hdouble
  rw [ellWStep, hrun, pure_bind]
  cases bit with
  | false => exact ⟨T', rfl, hT'⟩
  | true =>
    have hsum : (2 * n + true.toNat) • P = (2 * n) • P + P := succ_nsmul P (2 * n)
    rw [if_pos rfl]
    simp only [hsum]
    cases T' with
    | none =>
      rw [repPoint_none_iff] at hT'
      exact ⟨some p, rfl, by rwa [hT', zero_add]⟩
    | some T' => exact ellWAdd_spec h htwo hA hT' hP

/-- The mask ends at the highest bit. -/
theorem ellWFirstBit_spec {e : BitVec w} (he : e ≠ 0#w) {j fuel : ℕ} (hfuel : j ≤ fuel)
    {i : BitVec w} (hi : i.toNat = 2 ^ j) (hlt : e.toNat < 2 ^ (j + 1)) :
    ∃ k < w, (ellWFirstBit e fuel i).toNat = 2 ^ k ∧ e.toNat / 2 ^ k = 1 := by
  induction j generalizing fuel i with
  | zero =>
    have he1 : e.toNat = 1 := by
      have hne : e.toNat ≠ 0 := fun h => he (BitVec.eq_of_toNat_eq h)
      omega
    obtain ⟨-, hw⟩ := eq_shiftLeft_of_toNat hi
    have hbit := and_mask_toNat hi e
    rw [BitVec.and_comm, he1] at hbit
    have hset : i &&& e ≠ 0#w := fun h => by simp [h] at hbit
    refine ⟨0, hw, ?_, by rw [he1]; rfl⟩
    cases fuel with
    | zero => exact hi
    | succ fuel => rw [ellWFirstBit, if_neg hset, hi]
  | succ j ih =>
    obtain ⟨-, hw⟩ := eq_shiftLeft_of_toNat hi
    obtain ⟨fuel, rfl⟩ := Nat.exists_eq_add_one_of_ne_zero (by omega : fuel ≠ 0)
    have hbit := and_mask_toNat hi e
    rw [BitVec.and_comm] at hbit
    have hdigit : e.toNat / 2 ^ (j + 1) < 2 := by
      rw [Nat.div_lt_iff_lt_mul (Nat.two_pow_pos _), ← pow_succ']
      exact hlt
    by_cases hset : i &&& e = 0#w
    · have hnext : (i >>> 1).toNat = 2 ^ j := by
        rw [BitVec.toNat_ushiftRight, hi, Nat.shiftRight_eq_div_pow, pow_one, pow_succ,
          Nat.mul_div_cancel _ (by decide)]
      rw [ellWFirstBit, if_pos hset]
      refine ih (by omega) hnext ?_
      rw [decide_eq_false (not_not.mpr hset), Bool.toNat_false, Nat.mod_eq_of_lt hdigit] at hbit
      exact Nat.lt_of_div_eq_zero (Nat.two_pow_pos _) hbit.symm
    · refine ⟨j + 1, hw, by rw [ellWFirstBit, if_neg hset, hi], ?_⟩
      rw [decide_eq_true hset, Bool.toNat_true, Nat.mod_eq_of_lt hdigit] at hbit
      exact hbit.symm

/-- `ellW_mul_ui` multiplies a point, whether or not the multiples on the way are
finite. -/
theorem ellWMulUi_spec (h : ops.Models Rep) (htwo : (2 : F) ≠ 0) (hA : Rep a A) (hw : 0 < w)
    {P : (shortCurve a b).Point} {p : EllWPoint ρ} (hP : RepPoint Rep P (some p))
    (e : BitVec w) :
    ∃ r, ellWMulUi ops p e A = pure r ∧ RepPoint Rep (e.toNat • P) r := by
  by_cases he : e = 0#w
  · refine ⟨none, if_pos he, ?_⟩
    rw [he, BitVec.toNat_zero, zero_smul]
    trivial
  have htop : (allOnes w - allOnes w >>> 1).toNat = 2 ^ (w - 1) := by
    rw [topMask_toNat, ← Nat.two_pow_pred_add_two_pow_pred hw]
    omega
  obtain ⟨k, hk, hmask, hone⟩ := ellWFirstBit_spec he (Nat.sub_le w 1) htop
    (by rw [Nat.sub_add_cancel hw]; exact e.isLt)
  set i := ellWFirstBit e w (allOnes w - allOnes w >>> 1) with hi
  have hnext : (i >>> 1).toNat = 2 ^ k / 2 := by
    rw [BitVec.toNat_ushiftRight, hmask, Nat.shiftRight_eq_div_pow, pow_one]
  have hstart : RepPoint Rep (1 • P) (some p) := by rwa [one_smul]
  obtain ⟨r, hrun, hr⟩ := maskLoop_spec (ellWStep_scans h htwo hA hP) e
    (show k < w + 1 by omega) hnext hstart
  refine ⟨r, by rw [ellWMulUi, if_neg he, ← hi, hrun], ?_⟩
  rwa [show 1 * 2 ^ k + e.toNat % 2 ^ k = e.toNat by
    rw [← hone, Nat.div_add_mod']] at hr

end Points

end CadoNfs
