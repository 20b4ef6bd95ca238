import CadoNfs.Ecm.EllW
import CadoNfs.Utils.ModDiv

/-!
# Curves with torsion of order 12

`Montgomery12_curve_from_k` of `ecm.c` takes a multiple of the point
`(-2, 4)` on `y^2 = x^3 - 12*x` to the parameter of a curve in Montgomery form and
a point on it.  For two multiples the constants are built by hand.

Main results:

- Theorem `montgomery12Finish_spec`: the curve and the point from the constant.
- Theorem `montgomery12General_spec`: the constant from a multiple of the point.
- Theorem `montgomery12CurveFromK_spec`: all multiples, and the constants that are built
  by hand.
- Theorem `ellWMulUi_correct`: the multiples and the curves, for the headers that
  `ecm.c` is compiled for.
-/

namespace CadoNfs

open WordArith WeierstrassCurve.Affine

variable {ρ : Type} {w : ℕ}

/-! ## Code -/

section Code

variable (ops : FieldOps ρ)

/-- The constants `a` and `v = 1/a` for `k == 2`. -/
def montgomery12Two : Outcome (ρ × ρ) := do
  let v ← ops.add ops.one ops.one
  let v ← ops.add v ops.one
  let v ← ops.add v v
  let v ← ops.add v v
  let v ← ops.add v ops.one
  let v := ops.neg v
  let v ← ops.div3 v
  let a ← ops.add ops.one ops.one
  let a ← ops.add a ops.one
  let a := ops.neg a
  let a ← ops.div13 a
  pure (a, v)

/-- The constants for `k == 3`; an error is what `x` gets before the return with
0. -/
def montgomery12Three : Outcome (Except ρ (ρ × ρ)) := do
  let v ← ops.add ops.one ops.one
  let v ← ops.add v v
  let u ← ops.add v ops.one
  let v ← ops.add v v
  let v ← ops.add v v
  let v ← ops.add v v
  let v ← ops.add v u
  let v ← ops.div2 v
  let v ← ops.div2 v
  let v ← ops.div7 v
  match ← ops.inv v with
  | none => pure (.error v)
  | some a => pure (.ok (a, v))

/-- The end of the function: `A` and `x`. -/
def montgomery12Finish (a v : ρ) : Outcome (ρ × ρ) := do
  let u ← ops.sqr a
  let A ← ops.add u ops.one
  let A ← ops.add A ops.one
  let t2 ← ops.add A A
  let A ← ops.add A t2
  let t2 ← ops.mul A a
  let A := ops.sub v t2
  let v ← ops.div2 v
  let t2 ← ops.sqr v
  let A ← ops.mul A t2
  let x ← ops.add u u
  let x ← ops.add x u
  let x ← ops.add x ops.one
  let v ← ops.div2 v
  let x ← ops.mul x v
  pure (A, x)

/-- The constants from the coordinate `u` of the multiple. -/
def montgomery12Constants (u : ρ) : Outcome (Except ρ (ρ × ρ)) := do
  let t2 ← ops.sqr u
  let u := ops.sub u ops.one
  let u ← ops.add u u
  let u ← ops.add u u
  let v := ops.sub t2 u
  let t2 ← ops.add t2 u
  let t2 ← ops.add t2 u
  let u ← ops.add t2 u
  let t2 ← ops.add ops.one ops.one
  let t2 ← ops.add t2 t2
  let t2 ← ops.add t2 t2
  let t2 ← ops.add t2 t2
  let v := ops.sub v t2
  let t2 ← ops.mul u v
  match ← ops.inv t2 with
  | none => pure (.error t2)
  | some t2 => do
    let a ← ops.sqr v
    let a ← ops.mul a t2
    let v ← ops.sqr u
    let v ← ops.mul v t2
    pure (.ok (a, v))

variable [DecidableEq ρ]

/-- The branch for the other `k`. -/
def montgomery12General (k : BitVec w) : Outcome (Except ρ (ρ × ρ)) := do
  let v ← ops.add ops.one ops.one
  let u := ops.neg v
  let v ← ops.add v v
  let a ← ops.add v v
  let a ← ops.add a v
  let a := ops.neg a
  let T ← ellWMulUi ops ⟨u, v⟩ k a
  -- the return value is ignored
  montgomery12Constants ops (T.getD ⟨u, v⟩).x

/-- The curve from the constants, or the return with 0; `A` is what is there before. -/
def montgomery12Curve (A : ρ) : Except ρ (ρ × ρ) → Outcome (Bool × ρ × ρ)
  | .error x => pure (false, A, x)
  | .ok (a, v) => do
    let (A, x) ← montgomery12Finish ops a v
    pure (true, A, x)

/-- `Montgomery12_curve_from_k`: the return value, `A` and `x`. -/
def montgomery12CurveFromK (A : ρ) (k : BitVec w) : Outcome (Bool × ρ × ρ) :=
  if k = 2#w then do
    let (a, v) ← montgomery12Two ops
    montgomery12Curve ops A (.ok (a, v))
  else if k = 3#w then do
    let c ← montgomery12Three ops
    montgomery12Curve ops A c
  else do
    let c ← montgomery12General ops k
    montgomery12Curve ops A c

/-- What the function would give if no multiple were special. -/
def montgomery12FromGeneral (A : ρ) (k : BitVec w) : Outcome (Bool × ρ × ρ) := do
  let c ← montgomery12General ops k
  montgomery12Curve ops A c

end Code

/-! ## The constants -/

section Constants

variable {F : Type} [Field F] {Rep : F → ρ → Prop} {ops : FieldOps ρ}

/-- `a = (u^2 - 4*u - 12) / (u^2 + 12*u - 12)`. -/
def montgomery12A (u : F) : F :=
  (u ^ 2 - 4 * u - 12) / (u ^ 2 + 12 * u - 12)

/-- The parameter `A` of the curve. -/
def montgomery12CurveA (a : F) : F :=
  (1 / a - 3 * a * (a ^ 2 + 2)) / (2 * a) ^ 2

/-- The coordinate `x` of the point. -/
def montgomery12X (a : F) : F :=
  (3 * a ^ 2 + 1) / (4 * a)

/-- The curve and the point from the constant. -/
theorem montgomery12Finish_spec (h : ops.Models Rep) (htwo : (2 : F) ≠ 0) {a : F} {a' v' : ρ}
    (ha0 : a ≠ 0) (ha : Rep a a') (hv : Rep (1 / a) v') :
    ∃ A x, montgomery12Finish ops a' v' = pure (A, x) ∧ Rep (montgomery12CurveA a) A ∧
      Rep (montgomery12X a) x := by
  obtain ⟨u, hu, hu'⟩ := h.sqr ha
  obtain ⟨A₁, hA₁, hA₁'⟩ := h.add hu' h.one
  obtain ⟨A₂, hA₂, hA₂'⟩ := h.add hA₁' h.one
  obtain ⟨t₁, ht₁, ht₁'⟩ := h.add hA₂' hA₂'
  obtain ⟨A₃, hA₃, hA₃'⟩ := h.add hA₂' ht₁'
  obtain ⟨t₂, ht₂, ht₂'⟩ := h.mul hA₃' ha
  have hA₄ := h.sub hv ht₂'
  obtain ⟨v₁, hv₁, hv₁'⟩ := h.div2 hv
  obtain ⟨t₃, ht₃, ht₃'⟩ := h.sqr hv₁'
  obtain ⟨A, hA, hA'⟩ := h.mul hA₄ ht₃'
  obtain ⟨x₁, hx₁, hx₁'⟩ := h.add hu' hu'
  obtain ⟨x₂, hx₂, hx₂'⟩ := h.add hx₁' hu'
  obtain ⟨x₃, hx₃, hx₃'⟩ := h.add hx₂' h.one
  obtain ⟨v₂, hv₂, hv₂'⟩ := h.div2 hv₁'
  obtain ⟨x, hx, hx'⟩ := h.mul hx₃' hv₂'
  refine ⟨A, x, ?_, ?_, ?_⟩
  · simp [montgomery12Finish, hu, hA₁, hA₂, ht₁, hA₃, ht₂, hv₁, ht₃, hA, hx₁, hx₂, hx₃, hv₂, hx]
  · convert hA' using 1
    rw [montgomery12CurveA]
    push_cast
    field_simp
    ring
  · convert hx' using 1
    rw [montgomery12X]
    push_cast
    rw [show (4 : F) = 2 * 2 by norm_num]
    field_simp
    ring

/-- What the constants are: the parameter and its inverse, or zero if one of them does not
exist. -/
def RepConstants (Rep : F → ρ → Prop) (u : F) : Except ρ (ρ × ρ) → Prop
  | .error x => (u ^ 2 + 12 * u - 12) * (u ^ 2 - 4 * u - 12) = 0 ∧ Rep 0 x
  | .ok (a, v) => (u ^ 2 + 12 * u - 12) * (u ^ 2 - 4 * u - 12) ≠ 0 ∧
      Rep (montgomery12A u) a ∧ Rep (1 / montgomery12A u) v

/-- The constants from a coordinate in the field. -/
theorem montgomery12Constants_spec (h : ops.Models Rep) {u : F} {U : ρ} (hu : Rep u U) :
    ∃ c, montgomery12Constants ops U = pure c ∧ RepConstants Rep u c := by
  obtain ⟨s, hs, hs'⟩ := h.sqr hu
  have hu₁ := h.sub hu h.one
  obtain ⟨u₂, hu₂, hu₂'⟩ := h.add hu₁ hu₁
  obtain ⟨u₃, hu₃, hu₃'⟩ := h.add hu₂' hu₂'
  have hv₁ := h.sub hs' hu₃'
  obtain ⟨t₁, ht₁, ht₁'⟩ := h.add hs' hu₃'
  obtain ⟨t₂, ht₂, ht₂'⟩ := h.add ht₁' hu₃'
  obtain ⟨X, hX, hX'⟩ := h.add ht₂' hu₃'
  obtain ⟨c₁, hc₁, hc₁'⟩ := h.add h.one h.one
  obtain ⟨c₂, hc₂, hc₂'⟩ := h.add hc₁' hc₁'
  obtain ⟨c₃, hc₃, hc₃'⟩ := h.add hc₂' hc₂'
  obtain ⟨c₄, hc₄, hc₄'⟩ := h.add hc₃' hc₃'
  have hV' := h.sub hv₁ hc₄'
  set V := ops.sub (ops.sub s u₃) c₄
  have hXval : Rep (u ^ 2 + 12 * u - 12) X := by
    convert hX' using 1
    ring
  have hVval : Rep (u ^ 2 - 4 * u - 12) V := by
    convert hV' using 1
    ring
  obtain ⟨t, ht, ht'⟩ := h.mul hXval hVval
  by_cases hzero : (u ^ 2 + 12 * u - 12) * (u ^ 2 - 4 * u - 12) = 0
  · rw [hzero] at ht'
    refine ⟨.error t, ?_, hzero, ht'⟩
    simp [montgomery12Constants, hs, hu₂, hu₃, ht₁, ht₂, hX, hc₁, hc₂, hc₃, hc₄, ht, h.inv_zero ht',
      V]
  · obtain ⟨e, he, he'⟩ := h.inv ht' hzero
    obtain ⟨a₁, ha₁, ha₁'⟩ := h.sqr hVval
    obtain ⟨a, ha, ha'⟩ := h.mul ha₁' he'
    obtain ⟨v₁, hv₁, hv₁'⟩ := h.sqr hXval
    obtain ⟨v, hv, hv'⟩ := h.mul hv₁' he'
    obtain ⟨hX0, hV0⟩ := mul_ne_zero_iff.mp hzero
    refine ⟨.ok (a, v), ?_, hzero, ?_, ?_⟩
    · simp [montgomery12Constants, hs, hu₂, hu₃, ht₁, ht₂, hX, hc₁, hc₂, hc₃, hc₄, ht, he, ha₁, ha,
        hv₁, hv, V]
    · convert ha' using 1
      rw [montgomery12A]
      field_simp
    · convert hv' using 1
      rw [montgomery12A]
      field_simp

theorem nonsingular_start (htwo : (2 : F) ≠ 0) : (shortCurve (-12 : F) 0).Nonsingular (-2) 4 := by
  rw [nonsingular_iff, equation_iff]
  simp only [shortCurve]
  refine ⟨by norm_num, Or.inr fun heq => ?_⟩
  have hpow : (2 : F) ^ 3 = 0 := by linear_combination heq
  exact htwo (pow_eq_zero_iff (by decide) |>.mp hpow)

variable [DecidableEq F] [DecidableEq ρ]

/-- The point that is multiplied. -/
def montgomery12Start (htwo : (2 : F) ≠ 0) : (shortCurve (-12 : F) 0).Point :=
  .some (-2) 4 (nonsingular_start htwo)

/-- The constants from a multiple of the point that is finite. -/
theorem montgomery12General_spec (h : ops.Models Rep) (htwo : (2 : F) ≠ 0) (hw : 0 < w)
    (k : BitVec w) {u v : F} {hns} (hk : k.toNat • montgomery12Start htwo = .some u v hns) :
    ∃ c, montgomery12General ops k = pure c ∧ RepConstants Rep u c := by
  obtain ⟨t, ht, ht'⟩ := h.add h.one h.one
  have hx := h.neg ht'
  obtain ⟨y, hy, hy'⟩ := h.add ht' ht'
  obtain ⟨a₁, ha₁, ha₁'⟩ := h.add hy' hy'
  obtain ⟨a₂, ha₂, ha₂'⟩ := h.add ha₁' hy'
  have hA : Rep (-12 : F) (ops.neg a₂) := by
    convert h.neg ha₂' using 1
    norm_num
  have hstart : RepPoint Rep (montgomery12Start htwo) (some ⟨ops.neg t, y⟩) := by
    refine ⟨?_, ?_⟩
    · convert hx using 1
      norm_num
    · convert hy' using 1
      norm_num
  obtain ⟨T, hT, hT'⟩ := ellWMulUi_spec h htwo hA hw hstart k
  rw [hk] at hT'
  cases T with
  | none => exact hT'.elim
  | some T =>
    obtain ⟨c, hc, hc'⟩ := montgomery12Constants_spec h hT'.1
    refine ⟨c, ?_, hc'⟩
    simp [montgomery12General, ht, hy, ha₁, ha₂, hT, hc]

end Constants

/-! ## The curve -/

section Curve

variable {F : Type} [Field F] {Rep : F → ρ → Prop} {ops : FieldOps ρ}

/-- The value that is returned, and the curve and the point when it is 1. -/
structure Montgomery12Correct (Rep : F → ρ → Prop) (A : ρ) (u : F) (r : Bool × ρ × ρ) :
    Prop where
  returns : r.1 = true ↔ (u ^ 2 + 12 * u - 12) * (u ^ 2 - 4 * u - 12) ≠ 0
  curve : r.1 = true → Rep (montgomery12CurveA (montgomery12A u)) r.2.1
  point : r.1 = true → Rep (montgomery12X (montgomery12A u)) r.2.2
  unchanged : r.1 = false → r.2.1 = A

section

variable (h : ops.Models Rep)
include h

theorem montgomery12Curve_spec (htwo : (2 : F) ≠ 0) (A : ρ) {u : F}
    {c : Except ρ (ρ × ρ)} (hc : RepConstants Rep u c) :
    ∃ r, montgomery12Curve ops A c = pure r ∧ Montgomery12Correct Rep A u r := by
  rcases c with x | ⟨a, v⟩
  · exact ⟨_, rfl, iff_of_false Bool.false_ne_true (not_not.mpr hc.1), nofun, nofun, fun _ => rfl⟩
  · obtain ⟨hne, ha, hv⟩ := hc
    have ha0 : montgomery12A u ≠ 0 :=
      div_ne_zero (right_ne_zero_of_mul hne) (left_ne_zero_of_mul hne)
    obtain ⟨A', x, hrun, hA', hx⟩ := montgomery12Finish_spec h htwo ha0 ha hv
    refine ⟨(true, A', x), ?_, iff_of_true rfl hne, fun _ => hA', fun _ => hx, nofun⟩
    simp [montgomery12Curve, hrun]

theorem RepConstants.unique {u : F} {c c' : Except ρ (ρ × ρ)}
    (hc : RepConstants Rep u c) (hc' : RepConstants Rep u c') : c = c' := by
  rcases c with x | ⟨a, v⟩ <;> rcases c' with x' | ⟨a', v'⟩
  · rw [(h.eq_iff hc.2 hc'.2).mpr rfl]
  · exact absurd hc.1 hc'.1
  · exact absurd hc'.1 hc.1
  · rw [(h.eq_iff hc.2.1 hc'.2.1).mpr rfl, (h.eq_iff hc.2.2 hc'.2.2).mpr rfl]

theorem montgomery12Two_spec (htwo : (2 : F) ≠ 0) (hthree : (3 : F) ≠ 0) (h13 : (13 : F) ≠ 0) :
    ∃ c, montgomery12Two ops = pure c ∧ RepConstants Rep (4 : F) (.ok c) := by
  obtain ⟨v₁, hv₁, hv₁'⟩ := h.add h.one h.one
  obtain ⟨v₂, hv₂, hv₂'⟩ := h.add hv₁' h.one
  obtain ⟨v₃, hv₃, hv₃'⟩ := h.add hv₂' hv₂'
  obtain ⟨v₄, hv₄, hv₄'⟩ := h.add hv₃' hv₃'
  obtain ⟨v₅, hv₅, hv₅'⟩ := h.add hv₄' h.one
  obtain ⟨v, hv, hv'⟩ := h.div3 (h.neg hv₅')
  obtain ⟨a, ha, ha'⟩ := h.div13 (h.neg hv₂')
  have hX : (4 : F) ^ 2 + 12 * 4 - 12 = 2 * 2 * 13 := by norm_num
  have hV : (4 : F) ^ 2 - 4 * 4 - 12 = -(2 * 2 * 3) := by norm_num
  have hA : montgomery12A (4 : F) = -3 / 13 := by
    rw [montgomery12A, hX, hV]
    field_simp
  have hne : ((4 : F) ^ 2 + 12 * 4 - 12) * (4 ^ 2 - 4 * 4 - 12) ≠ 0 := by
    rw [hX, hV]
    exact mul_ne_zero (by simp [htwo, h13]) (by simp [htwo, hthree])
  refine ⟨(a, v), ?_, hne, ?_, ?_⟩
  · simp [montgomery12Two, hv₁, hv₂, hv₃, hv₄, hv₅, hv, ha]
  · convert ha' using 1
    rw [hA]
    norm_num
  · convert hv' using 1
    rw [hA, one_div_div, div_neg, ← neg_div]
    norm_num

/-- The constants for `k == 3` are those of the coordinate `-2 / 9`. -/
theorem montgomery12Three_spec (htwo : (2 : F) ≠ 0) (hthree : (3 : F) ≠ 0) (hseven : (7 : F) ≠ 0) :
    ∃ c, montgomery12Three ops = pure c ∧ RepConstants Rep (-2 / 9 : F) c := by
  obtain ⟨v₁, hv₁, hv₁'⟩ := h.add h.one h.one
  obtain ⟨v₂, hv₂, hv₂'⟩ := h.add hv₁' hv₁'
  obtain ⟨u, hu, hu'⟩ := h.add hv₂' h.one
  obtain ⟨v₃, hv₃, hv₃'⟩ := h.add hv₂' hv₂'
  obtain ⟨v₄, hv₄, hv₄'⟩ := h.add hv₃' hv₃'
  obtain ⟨v₅, hv₅, hv₅'⟩ := h.add hv₄' hv₄'
  obtain ⟨v₆, hv₆, hv₆'⟩ := h.add hv₅' hu'
  obtain ⟨v₇, hv₇, hv₇'⟩ := h.div2 hv₆'
  obtain ⟨v₈, hv₈, hv₈'⟩ := h.div2 hv₇'
  obtain ⟨v, hv, hv'⟩ := h.div7 hv₈'
  have hval : Rep (37 / 28 : F) v := by
    convert hv' using 1
    push_cast
    rw [div_div, div_div]
    norm_num
  have hnine : (9 : F) = 3 * 3 := by norm_num
  have hX : (-2 / 9 : F) ^ 2 + 12 * (-2 / 9) - 12 = -(2 ^ 5 * 37) / (3 * 3 * (3 * 3)) := by
    rw [hnine]
    field_simp
    norm_num
  have hV : (-2 / 9 : F) ^ 2 - 4 * (-2 / 9) - 12 = -(2 ^ 7 * 7) / (3 * 3 * (3 * 3)) := by
    rw [hnine]
    field_simp
    norm_num
  have hV0 : (-2 / 9 : F) ^ 2 - 4 * (-2 / 9) - 12 ≠ 0 := by
    rw [hV]
    simp [htwo, hthree, hseven]
  by_cases h37 : (37 : F) = 0
  · have hv0 : Rep 0 v := by rwa [h37, zero_div] at hval
    refine ⟨.error v, ?_, ?_, hv0⟩
    · simp [montgomery12Three, hv₁, hv₂, hu, hv₃, hv₄, hv₅, hv₆, hv₇, hv₈, hv, h.inv_zero hv0]
    · rw [hX, h37]
      simp
  · have h28 : (28 : F) = 2 * 2 * 7 := by norm_num
    have h28' : (28 : F) ≠ 0 := by
      rw [h28]
      simp [htwo, hseven]
    obtain ⟨a, ha, ha'⟩ := h.inv hval (div_ne_zero h37 h28')
    have hX0 : (-2 / 9 : F) ^ 2 + 12 * (-2 / 9) - 12 ≠ 0 := by
      rw [hX]
      simp [htwo, hthree, h37]
    have hA : montgomery12A (-2 / 9 : F) = 28 / 37 := by
      rw [montgomery12A, hX, hV, h28]
      field_simp
    refine ⟨.ok (a, v), ?_, mul_ne_zero hX0 hV0, ?_, ?_⟩
    · simp [montgomery12Three, hv₁, hv₂, hu, hv₃, hv₄, hv₅, hv₆, hv₇, hv₈, hv, ha]
    · rwa [hA, ← inv_div]
    · rwa [hA, one_div_div]

end

theorem exists_eq_some {W : WeierstrassCurve.Affine F} {P : W.Point} {x y x' y' : F} {hns}
    (hP : P = .some x y hns) (hx : x = x') (hy : y = y') : ∃ hns', P = .some x' y' hns' := by
  subst hx hy
  exact ⟨hns, hP⟩

variable [DecidableEq F]

theorem two_smul_start (htwo : (2 : F) ≠ 0) :
    ∃ hns, 2 • montgomery12Start htwo = .some 4 (-4) hns := by
  have hne : (4 : F) ≠ (shortCurve (-12 : F) 0).negY (-2) 4 := by
    rw [shortCurve_negY]
    intro heq
    have hpow : (2 : F) ^ 3 = 0 := by linear_combination heq
    exact htwo (pow_eq_zero_iff (by decide) |>.mp hpow)
  have hslope : (shortCurve (-12 : F) 0).slope (-2) (-2) 4 4 = 0 := by
    rw [slope_of_Y_ne rfl hne]
    simp only [shortCurve]
    norm_num
  rw [two_nsmul]
  refine exists_eq_some (Point.add_self_of_Y_ne hne) ?_ ?_
  · rw [hslope, addX]
    simp only [shortCurve]
    norm_num
  · rw [hslope, addY, shortCurve_negY, negAddY, addX]
    simp only [shortCurve]
    norm_num

theorem three_smul_start (htwo : (2 : F) ≠ 0) (hthree : (3 : F) ≠ 0) :
    ∃ hns, 3 • montgomery12Start htwo = .some (-2 / 9) (-44 / 27) hns := by
  obtain ⟨hns, hdouble⟩ := two_smul_start htwo
  have hne : (4 : F) ≠ -2 := by
    intro heq
    have hprod : (2 : F) * 3 = 0 := by linear_combination heq
    exact mul_ne_zero htwo hthree hprod
  have hslope : (shortCurve (-12 : F) 0).slope 4 (-2) (-4) 4 = -4 / 3 := by
    rw [slope_of_X_ne hne, div_eq_div_iff (sub_ne_zero.mpr hne) hthree]
    norm_num
  have h27 : (27 : F) = 3 * 3 * 3 := by norm_num
  have hnine : (9 : F) = 3 * 3 := by norm_num
  rw [succ_nsmul, hdouble]
  refine exists_eq_some (Point.add_of_X_ne hne) ?_ ?_
  · rw [hslope, addX, hnine]
    simp only [shortCurve]
    field_simp
    norm_num
  · rw [hslope, addY, shortCurve_negY, negAddY, addX, h27]
    simp only [shortCurve]
    field_simp
    norm_num

variable [DecidableEq ρ]

/-- `Montgomery12_curve_from_k` for a finite multiple: the return value, the curve and the
point are those of the formulas, and they are what the general branch gives. -/
theorem montgomery12CurveFromK_spec (h : ops.Models Rep) (htwo : (2 : F) ≠ 0)
    (hthree : (3 : F) ≠ 0) (hseven : (7 : F) ≠ 0) (h13 : (13 : F) ≠ 0) (hw : 2 ≤ w) (A : ρ)
    (k : BitVec w) {u v : F} {hns} (hk : k.toNat • montgomery12Start htwo = .some u v hns) :
    ∃ r, montgomery12CurveFromK ops A k = pure r ∧ montgomery12FromGeneral ops A k = pure r ∧
      Montgomery12Correct Rep A u r := by
  obtain ⟨c, hc, hc'⟩ := montgomery12General_spec h htwo (by omega) k hk
  obtain ⟨r, hr, hr'⟩ := montgomery12Curve_spec h htwo A hc'
  have hgeneral : montgomery12FromGeneral ops A k = pure r := by
    rw [montgomery12FromGeneral, hc, pure_bind, hr]
  refine ⟨r, ?_, hgeneral, hr'⟩
  rw [montgomery12CurveFromK]
  split_ifs with hk2 hk3
  · obtain ⟨hns₂, hdouble⟩ := two_smul_start htwo
    rw [hk2, toNat_const (lt_of_lt_of_le (by decide) (Nat.pow_le_pow_right (by decide) hw)),
      hdouble] at hk
    obtain ⟨rfl, -⟩ := Point.some.inj hk
    obtain ⟨c₂, hc₂, hc₂'⟩ := montgomery12Two_spec h htwo hthree h13
    rw [hc'.unique h hc₂'] at hr
    rw [hc₂, pure_bind]
    exact hr
  · obtain ⟨hns₃, htriple⟩ := three_smul_start htwo hthree
    rw [hk3, toNat_const (lt_of_lt_of_le (by decide) (Nat.pow_le_pow_right (by decide) hw)),
      htriple] at hk
    obtain ⟨rfl, -⟩ := Point.some.inj hk
    obtain ⟨c₃, hc₃, hc₃'⟩ := montgomery12Three_spec h htwo hthree hseven
    rw [hc'.unique h hc₃'] at hr
    rw [hc₃, pure_bind, hr]
  · rw [hc, pure_bind, hr]

end Curve

/-! ## The headers -/

section Headers

/-- The multiples of every finite point and the curves, with the arithmetic of one modulus. -/
structure EllWCorrect {F : Type} [Field F] [DecidableEq F] [DecidableEq ρ] (Rep : F → ρ → Prop)
    (ops : FieldOps ρ) (w : ℕ) : Prop where
  two_ne_zero : (2 : F) ≠ 0
  mulUi : ∀ {a b : F} {A : ρ} {P : (shortCurve a b).Point} {p}, Rep a A →
    RepPoint Rep P (some p) → ∀ k : BitVec w,
      ∃ r, ellWMulUi ops p k A = pure r ∧ RepPoint Rep (k.toNat • P) r ∧
        (r = none ↔ k.toNat • P = 0)
  curveFromK : ∀ (A : ρ) (k : BitVec w) {u v : F} {hns},
    k.toNat • montgomery12Start two_ne_zero = .some u v hns →
      ∃ r, montgomery12CurveFromK ops A k = pure r ∧ montgomery12FromGeneral ops A k = pure r ∧
        Montgomery12Correct Rep A u r

theorem EllWCorrect.of_models [DecidableEq ρ] {p : ℕ} [Fact p.Prime] (hp : 13 < p)
    {Rep : ZMod p → ρ → Prop} {ops : FieldOps ρ} (h : ops.Models Rep) (hw : 2 ≤ w) :
    EllWCorrect Rep ops w := by
  have htwo : (2 : ZMod p) ≠ 0 := FieldOps.natCast_ne_zero_of_lt (n := 2) (by decide) (by omega)
  have hthree : (3 : ZMod p) ≠ 0 := FieldOps.natCast_ne_zero_of_lt (n := 3) (by decide) (by omega)
  have hseven : (7 : ZMod p) ≠ 0 := FieldOps.natCast_ne_zero_of_lt (n := 7) (by decide) (by omega)
  have h13 : (13 : ZMod p) ≠ 0 := FieldOps.natCast_ne_zero_of_lt (n := 13) (by decide) hp
  refine ⟨htwo, fun hA hP k => ?_, fun A k _ _ _ hk => ?_⟩
  · obtain ⟨r, hr, hrep⟩ := ellWMulUi_spec h htwo hA (by omega) hP k
    exact ⟨r, hr, hrep, hrep.eq_none_iff⟩
  · exact montgomery12CurveFromK_spec h htwo hthree hseven h13 hw A k hk

/-- For every prime modulus above 13 that a header accepts. -/
theorem ellWMulUi_correct (build : UlarithBuild) (zeros : ZeroCount) (lookup : Bool)
    (hw : w = 32 ∨ w = 64) :
    (∀ s : BitVec w, 13 < s.toNat → ∀ _ : Fact s.toNat.Prime, ∃ m, modredculInitmodUl s = pure m ∧
        EllWCorrect (MontgomeryResidueUl s.toNat) (modredculFieldOps build zeros m) w) ∧
    ∀ (arith : RedcArith) (s : TwoWord w), 2 ^ w < s.value → s.value < 2 ^ arith.bits w →
      ∀ _ : Fact s.value.Prime, ∃ m, modInitmodUls arith build s = pure m ∧
        EllWCorrect (MontgomeryResidue s.value) (modredcFieldOps arith build lookup m) w := by
  have hw' : 2 ≤ w := by omega
  refine ⟨fun s hs hprime => ?_, fun arith s hlow hhigh hprime => ?_⟩
  · have hodd : s.toNat % 2 = 1 := hprime.out.eq_two_or_odd.resolve_left (by omega)
    obtain ⟨m, hinit, hms, hm⟩ := modredculInitmodUl_spec hw hodd
    exact ⟨m, hinit, .of_models hs (modredculFieldOps_models build zeros hw hm (by rw [hms]) hs)
      hw'⟩
  · have hpow : 2 ^ 32 ≤ 2 ^ w := Nat.pow_le_pow_right (by decide) (by omega)
    obtain ⟨m, hinit, hm⟩ := modredcFieldOps_models arith build lookup hw rfl hlow hhigh
    exact ⟨m, hinit, .of_models (by omega) hm hw'⟩

/-- The arithmetic modulo 17. -/
theorem ellWMulUi_correct_seventeen : ∃ m, modredculInitmodUl 17#64 = pure m ∧
    @EllWCorrect _ (ZMod 17) (@ZMod.instField 17 ⟨by norm_num⟩) _ _ (MontgomeryResidueUl 17)
      (modredculFieldOps .x86 .lookup m) 64 :=
  (ellWMulUi_correct .x86 .lookup true (.inr rfl)).1 17#64 (by decide) ⟨by norm_num⟩

end Headers

end CadoNfs
