import Mathlib.Algebra.BigOperators.Fin
import Mathlib.Algebra.Order.BigOperators.Group.Finset

/-!
# Counting the parties that are in some state

Finitely many parties, each in a state of its own, and one of them moves at a time.

Main results:

- Theorem `sum_update_add`: a sum over the parties, when one of them moves.
- Theorem `tally_update`: how many have a property, when one of them moves.
-/

namespace Tally

open Finset Function

variable {α : Type} {n : ℕ}

/-- What a sum over the parties loses and gains. -/
theorem sum_update_add (f : α → ℕ) (w : Fin n → α) (i : Fin n) (x : α) :
    ∑ k, f (update w i x k) + f (w i) = ∑ k, f (w k) + f x := by
  rw [← add_sum_erase univ (fun k => f (update w i x k)) (mem_univ i),
    ← add_sum_erase univ (fun k => f (w k)) (mem_univ i), update_self]
  have hrest : ∑ k ∈ univ.erase i, f (update w i x k) = ∑ k ∈ univ.erase i, f (w k) :=
    sum_congr rfl fun k hk => by rw [update_of_ne (ne_of_mem_erase hk)]
  omega

/-- The number of the parties with a property. -/
def tally (p : α → Bool) (w : Fin n → α) : ℕ :=
  ∑ i, (p (w i)).toNat

variable {p : α → Bool} {w : Fin n → α}

theorem tally_update (p : α → Bool) (w : Fin n → α) (i : Fin n) (x : α) :
    tally p (update w i x) + (p (w i)).toNat = tally p w + (p x).toNat :=
  sum_update_add (fun a => (p a).toNat) w i x

theorem tally_le (p : α → Bool) (w : Fin n → α) : tally p w ≤ n :=
  (sum_le_sum fun i _ => Bool.toNat_le (p (w i))).trans (by simp)

theorem tally_eq_iff : tally p w = n ↔ ∀ i, p (w i) := by
  constructor
  · intro h i
    by_contra hne
    have hlt : tally p w < ∑ _i : Fin n, 1 :=
      sum_lt_sum (fun k _ => Bool.toNat_le _) ⟨i, mem_univ i, by simp [hne]⟩
    simp at hlt
    omega
  · intro h
    simp [tally, h]

theorem tally_eq_zero_iff : tally p w = 0 ↔ ∀ i, p (w i) = false := by
  simp [tally]

end Tally
