import Mathlib.NumberTheory.LegendreSymbol.QuadraticChar.Basic
import CadoNfs.Lib.Gf2

/-!
# Characters as sums over GF(2)

A multiplicative function that takes only the values one and minus one, but for zero at
zero.  Over a product of elements that are not zero, the number of times it is minus one
decides its value, so that a sum over GF(2) records it.

Main results:

- Theorem `charBit_prod`: the bit of a product is the sum of the bits.
- Theorems `charBit_quadratic_iff`, `charBit_sign_iff`: what the bit says for
  squares modulo a prime and for signs.
-/

namespace CharacterSum

variable {R : Type*} [CommMonoidWithZero R]

/-- A multiplicative function with values one and minus one away from zero. -/
structure SignCharacter (R : Type*) [CommMonoidWithZero R] where
  toHom : R →*₀ ℤ
  values : ∀ x, x ≠ 0 → toHom x = 1 ∨ toHom x = -1

variable (χ : SignCharacter R)

/-- One where the character is minus one. -/
def charBit (x : R) : ZMod 2 :=
  if χ.toHom x = -1 then 1 else 0

/-- The product of the elements of a list that are not zero. -/
def nonzeroProd [DecidableEq R] (xs : List R) : R :=
  (xs.filter fun x => decide (x ≠ 0)).prod

theorem charBit_mul {x y : R} (hx : x ≠ 0) (hy : y ≠ 0) :
    charBit χ (x * y) = charBit χ x + charBit χ y := by
  unfold charBit
  rw [map_mul]
  rcases χ.values x hx with hx | hx <;> rcases χ.values y hy with hy | hy <;>
    rw [hx, hy] <;> decide

theorem charBit_one : charBit χ 1 = 0 := by
  rw [charBit, map_one]
  decide

theorem charBit_zero : charBit χ 0 = 0 := by
  rw [charBit, map_zero]
  decide

section Product

variable [DecidableEq R] [NoZeroDivisors R] [Nontrivial R]

theorem nonzeroProd_ne_zero (xs : List R) : nonzeroProd xs ≠ 0 := by
  rw [nonzeroProd, Ne, List.prod_eq_zero_iff, List.mem_filter]
  simp

/-- The bit of the product is the sum of the bits. -/
theorem charBit_prod (χ : SignCharacter R) (xs : List R) :
    charBit χ (nonzeroProd xs) = (xs.map (charBit χ)).sum := by
  induction xs with
  | nil => exact charBit_one χ
  | cons x xs ih =>
    rw [List.map_cons, List.sum_cons, ← ih]
    by_cases hx : x = 0
    · rw [hx, charBit_zero, zero_add, nonzeroProd, List.filter_cons_of_neg (by simp)]
      rfl
    · rw [← charBit_mul χ hx (nonzeroProd_ne_zero xs), nonzeroProd,
        List.filter_cons_of_pos (by simpa using hx), List.prod_cons]
      rfl

end Product

/-! ## Squares -/

section Quadratic

variable (p : ℕ) [Fact p.Prime]

/-- The quadratic character modulo a prime. -/
def quadratic : SignCharacter (ZMod p) where
  toHom := (quadraticChar (ZMod p)).toMonoidWithZeroHom
  values := fun _ hx => quadraticChar_dichotomy hx

/-- The bit is one at the elements that are no squares. -/
theorem charBit_quadratic_iff (x : ZMod p) : charBit (quadratic p) x = 1 ↔ ¬IsSquare x := by
  have hvalue : (quadratic p).toHom x = quadraticChar (ZMod p) x := rfl
  rw [charBit, hvalue]
  by_cases hx : x = 0
  · rw [hx, quadraticChar_zero]
    exact iff_of_false (by decide) (not_not.mpr (IsSquare.zero))
  · by_cases hsquare : IsSquare x
    · rw [(quadraticChar_one_iff_isSquare hx).mpr hsquare]
      exact iff_of_false (by decide) (not_not.mpr hsquare)
    · rw [if_pos ((quadraticChar_eq_neg_one_iff_not_one hx).mpr fun hone =>
        hsquare ((quadraticChar_one_iff_isSquare hx).mp hone))]
      exact iff_of_true rfl hsquare

end Quadratic

/-! ## Signs -/

/-- The sign of an integer. -/
def sign : SignCharacter ℤ where
  toHom :=
    { toFun := Int.sign
      map_zero' := Int.sign_zero
      map_one' := Int.sign_one
      map_mul' := Int.sign_mul }
  values := fun x hx => by
    rcases lt_or_gt_of_ne hx with hneg | hpos
    · exact Or.inr (Int.sign_eq_neg_one_of_neg hneg)
    · exact Or.inl (Int.sign_eq_one_of_pos hpos)

/-- The bit is one at the negative integers. -/
theorem charBit_sign_iff (x : ℤ) : charBit sign x = 1 ↔ x < 0 := by
  have hvalue : sign.toHom x = Int.sign x := rfl
  have hiff : x.sign = -1 ↔ x < 0 := Int.sign_eq_neg_one_iff_neg
  rw [charBit, hvalue, ← hiff]
  split_ifs with hx
  · exact iff_of_true rfl hx
  · exact iff_of_false (by decide) hx

end CharacterSum
