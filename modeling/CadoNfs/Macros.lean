import Mathlib.Algebra.Group.Int.Defs
import Mathlib.Algebra.Group.Nat.Defs
import Mathlib.Tactic.SplitIfs

/-!
# Assertions and overflows

Main results:

- Definition `assertAlways`: an assertion that every build checks.
- Definitions `toInt32` and `toInt64`: a number that must fit `int` or
  `int64_t`.
- Definition `uint32Add`: an addition that wraps.
-/

namespace CadoNfs

/-- `ASSERT_ALWAYS`. -/
def assertAlways (q : Prop) [Decidable q] : Option Unit :=
  if q then some () else none

theorem assertAlways_of_true {q : Prop} [Decidable q] (h : q) : assertAlways q = some () :=
  if_pos h

theorem assertAlways_of_false {q : Prop} [Decidable q] (h : ¬q) : assertAlways q = none :=
  if_neg h

@[simp]
theorem assertAlways_true : assertAlways True = some () :=
  if_pos trivial

theorem some_bind.{u} {α β : Type u} (a : α) (f : α → Option β) : (some a >>= f) = f a :=
  rfl

/-- A result of `int`; `none` is an overflow. -/
def toInt32 (z : ℤ) : Option ℤ := if -2 ^ 31 ≤ z ∧ z < 2 ^ 31 then some z else none

theorem toInt32_of {z : ℤ} (hge : -2 ^ 31 ≤ z) (hlt : z < 2 ^ 31) : toInt32 z = some z :=
  if_pos ⟨hge, hlt⟩

/-- A number fits `int64_t`. -/
def FitsInt64 (z : ℤ) : Prop := -2 ^ 63 ≤ z ∧ z < 2 ^ 63

instance (z : ℤ) : Decidable (FitsInt64 z) := inferInstanceAs (Decidable (_ ∧ _))

/-- A result of `int64_t`; `none` is an overflow. -/
def toInt64 (z : ℤ) : Option ℤ := if FitsInt64 z then some z else none

theorem toInt64_of {z : ℤ} (h : FitsInt64 z) : toInt64 z = some z :=
  if_pos h

theorem toInt64_of_not {z : ℤ} (h : ¬FitsInt64 z) : toInt64 z = none :=
  if_neg h

theorem toInt64_eq_some {z z' : ℤ} (h : toInt64 z = some z') : z' = z := by
  unfold toInt64 at h
  split_ifs at h
  exact (Option.some_inj.mp h).symm

/-- Addition of `uint32_t`. -/
def uint32Add (x y : ℕ) : ℕ :=
  (x + y) % 2 ^ 32

end CadoNfs
