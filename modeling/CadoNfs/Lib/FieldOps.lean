import Mathlib.Algebra.Field.ZMod
import CadoNfs.Lib.RingOps

/-!
# Operations on residues that may divide

An arithmetic for a prime modulus has, besides the operations of a ring, the divisions by
some small primes and the inverse.  A quotient that does not exist is left out of account
here: the functions then leave their operand as it is.

Main results:

- Structure `FieldOps.Models`: the operations compute in a field.
- Theorem `FieldOps.Scaled.models`: operations on scaled numbers compute in the field
  of residues.
-/

namespace WordArith

/-- The operations of an arithmetic, with the divisions that work in place and the inverse,
for which the inner `none` is the return value 0. -/
structure FieldOps (ρ : Type) extends RingOps ρ where
  div2 : ρ → Outcome ρ
  div3 : ρ → Outcome ρ
  div7 : ρ → Outcome ρ
  div13 : ρ → Outcome ρ
  inv : ρ → Outcome (Option ρ)

namespace FieldOps

variable {ρ : Type} {ops : FieldOps ρ}

/-- A division by `n` succeeds and computes in a field. -/
def Divides {F : Type*} [Field F] (Rep : F → ρ → Prop) (n : ℕ) (div : ρ → Outcome ρ) : Prop :=
  ∀ {x a}, Rep x a → ∃ r, div a = pure r ∧ Rep (x / n) r

/-- The operations succeed and compute in a field. -/
structure Models {F : Type*} [Field F] (ops : FieldOps ρ) (Rep : F → ρ → Prop) : Prop
    extends ops.toRingOps.Models Rep where
  div2 : Divides Rep 2 ops.div2
  div3 : Divides Rep 3 ops.div3
  div7 : Divides Rep 7 ops.div7
  div13 : Divides Rep 13 ops.div13
  inv : ∀ {x a}, Rep x a → x ≠ 0 → ∃ r, ops.inv a = pure (some r) ∧ Rep x⁻¹ r
  inv_zero : ∀ {a}, Rep 0 a → ops.inv a = pure none

/-! ## Numbers as residues -/

section Scaled

open RingOps

variable {p : ℕ} {c : ZMod p} {val : ρ → ℕ}

/-- A division by `n` of reduced numbers. -/
def DividesNumber (p : ℕ) (val : ρ → ℕ) (n : ℕ) (div : ρ → Outcome ρ) : Prop :=
  ∀ a, val a < p → ∃ r, div a = pure r ∧ val r < p ∧ n * val r ≡ val a [MOD p]

/-- What the operations do to the numbers, for an arithmetic that scales by `c`. -/
structure Scaled (ops : FieldOps ρ) (p : ℕ) (c : ZMod p) (val : ρ → ℕ) : Prop
    extends ops.toRingOps.Scaled p c val where
  div2 : DividesNumber p val 2 ops.div2
  div3 : DividesNumber p val 3 ops.div3
  div7 : DividesNumber p val 7 ops.div7
  div13 : DividesNumber p val 13 ops.div13
  inv : ∀ {a}, val a < p → val a ≠ 0 →
    ∃ r, ops.inv a = pure (some r) ∧ val r < p ∧ (val r : ZMod p) * val a = c * c
  inv_zero : ∀ {a}, val a = 0 → ops.inv a = pure none

theorem mul_eq_of_mul_eq_one {ops : RingOps ρ} (h : ops.Scaled p c val) {r a : ρ}
    (hr : val r < p) (ha : val a < p) (hmul : ops.mul r a = pure ops.one) :
    (val r : ZMod p) * val a = c * c := by
  obtain ⟨t, ht, -, hval⟩ := h.mul hr ha
  obtain rfl : ops.one = t := (Outcome.done.inj (hmul.symm.trans ht)).1
  rw [← hval, h.one.2]

variable [Fact p.Prime]

theorem natCast_ne_zero_of_lt {n : ℕ} (hn : 0 < n) (hlt : n < p) : (n : ZMod p) ≠ 0 := by
  rw [Ne, ZMod.natCast_eq_zero_iff]
  exact fun hdvd => (Nat.le_of_dvd hn hdvd).not_gt hlt

theorem DividesNumber.divides {n : ℕ} {div : ρ → Outcome ρ} (hn : (n : ZMod p) ≠ 0)
    (h : DividesNumber p val n div) :
    Divides (fun x a => ScaledResidue p c x (val a)) n div := by
  intro x a ha
  obtain ⟨r, hr, hlt, hmul⟩ := h a ha.lt
  refine ⟨r, hr, hlt, ?_⟩
  have hcast := (ZMod.natCast_eq_natCast_iff _ _ p).mpr hmul
  rw [Nat.cast_mul, ha.cast_eq] at hcast
  rw [div_mul_eq_mul_div, eq_div_iff hn, mul_comm, hcast]

theorem Scaled.models (h : ops.Scaled p c val) (hp : 13 < p) :
    ops.Models fun x a => ScaledResidue p c x (val a) where
  toModels := h.toScaled.models
  div2 := DividesNumber.divides (natCast_ne_zero_of_lt (by decide) (by omega)) h.div2
  div3 := DividesNumber.divides (natCast_ne_zero_of_lt (by decide) (by omega)) h.div3
  div7 := DividesNumber.divides (natCast_ne_zero_of_lt (by decide) (by omega)) h.div7
  div13 := DividesNumber.divides (natCast_ne_zero_of_lt (by decide) hp) h.div13
  inv := fun {x a} ha hx => by
    have hc := h.isUnit.ne_zero
    have hne : val a ≠ 0 := by
      intro hzero
      have hcast := ha.cast_eq
      rw [hzero, Nat.cast_zero] at hcast
      exact mul_ne_zero hx hc hcast.symm
    obtain ⟨r, hr, hlt, hmul⟩ := h.inv ha.lt hne
    refine ⟨r, hr, hlt, ?_⟩
    rw [ha.cast_eq] at hmul
    have hval : (val r : ZMod p) * x = c := mul_right_cancel₀ hc (by rw [mul_assoc, hmul])
    rw [← hval, mul_comm (val r : ZMod p), inv_mul_cancel_left₀ hx]
  inv_zero := fun {a} ha => by
    refine h.inv_zero ?_
    have hcast := ha.cast_eq
    rw [zero_mul, ZMod.natCast_eq_zero_iff] at hcast
    exact Nat.eq_zero_of_dvd_of_lt hcast ha.lt

end Scaled

end FieldOps

end WordArith
