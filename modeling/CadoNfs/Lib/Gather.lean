import CadoNfs.Lib.Gf2

/-!
# Words that are added up by address

A list of pairs says which word is added to which cell of a vector.  The order of the pairs
does not matter, and over GF(2) the vector that is added is the product of the matrix of
the multiplicities of the pairs with the vector of the words.

Main results:

- Theorem `gather_perm`: the order does not matter.
- Theorem `bit_gather`: the product of a matrix and a vector.
-/

namespace Gather

open Finset Gf2

variable {w : ℕ}

/-- The sum of the words that are added to the cell `x`. -/
def gather (pairs : List (ℕ × ℕ)) (src : ℕ → BitVec w) (x : ℕ) : BitVec w :=
  match pairs with
  | [] => 0
  | (i, j) :: rest => (if i = x then src j else 0) ^^^ gather rest src x

variable {pairs pairs' : List (ℕ × ℕ)} {src : ℕ → BitVec w} {n x t : ℕ}

@[simp]
theorem gather_nil : gather [] src x = 0 :=
  rfl

@[simp]
theorem gather_append :
    gather (pairs ++ pairs') src x = gather pairs src x ^^^ gather pairs' src x := by
  induction pairs with
  | nil => simp
  | cons p pairs ih =>
    rw [List.cons_append, gather, gather, ih, BitVec.xor_assoc]

theorem gather_perm (h : pairs.Perm pairs') : gather pairs src x = gather pairs' src x := by
  induction h with
  | nil => rfl
  | cons p _ ih => rw [gather, gather, ih]
  | swap p q _ =>
    simp only [gather]
    rw [← BitVec.xor_assoc, ← BitVec.xor_assoc, BitVec.xor_comm (if q.1 = x then _ else _)]
  | trans _ _ ih ih' => exact ih.trans ih'

theorem gather_eq_zero (h : ∀ p ∈ pairs, p.1 ≠ x) : gather pairs src x = 0 := by
  induction pairs with
  | nil => rfl
  | cons p pairs ih =>
    rw [gather, if_neg (h p List.mem_cons_self), ih fun q hq => h q (List.mem_cons_of_mem _ hq)]
    simp

theorem gather_zero (pairs : List (ℕ × ℕ)) (x : ℕ) :
    gather pairs (fun _ => (0 : BitVec w)) x = 0 := by
  induction pairs with
  | nil => rfl
  | cons p pairs ih =>
    rw [gather, ih, ite_self]
    simp

/-- The product with the matrix of the multiplicities, bit by bit. -/
theorem bit_gather (h : ∀ p ∈ pairs, p.2 < n) :
    bit (gather pairs src x) t = ∑ j ∈ range n, (pairs.count (x, j) : ZMod 2) * bit (src j) t := by
  induction pairs with
  | nil => simp
  | cons p pairs ih =>
    obtain ⟨i, k⟩ := p
    have hk : k < n := h (i, k) List.mem_cons_self
    have hsum : bit (if i = x then src k else 0) t
        = ∑ j ∈ range n, ((if (i, k) = (x, j) then 1 else 0 : ℕ) : ZMod 2) * bit (src j) t := by
      by_cases hi : i = x
      · subst hi
        simp [hk]
      · simp [hi]
    rw [gather, bit_xor, ih fun q hq => h q (List.mem_cons_of_mem _ hq), hsum, ← sum_add_distrib]
    refine sum_congr rfl fun j _ => ?_
    rw [List.count_cons, Nat.cast_add, ← add_mul, add_comm]
    simp

end Gather
