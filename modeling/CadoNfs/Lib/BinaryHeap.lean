import Mathlib.Algebra.Order.Ring.Nat

/-!
# Binary heaps in arrays

The entries 1 to `size` of an array, of which entry `k / 2` is the father of entry
`k`.  An entry that is being moved leaves a hole, and the neighbours of the hole move into
it until the entry fits.

Main results:

- Theorem `Ordered.root_le`: the first entry is the least one.
- Theorems `Hole.up` and `Hole.down`: the hole moves to the father, or to the lesser
  son.
- Theorem `Hole.fill`: an entry that fits into the hole makes a heap.
-/

namespace BinaryHeap

open Function (update_of_ne update_self)

variable {α β : Type*} [LinearOrder β] {key : α → β} {a : ℕ → α} {size j k : ℕ} {v : β} {x : α}

/-! ## Order -/

/-- No entry is less than its father. -/
def Ordered (key : α → β) (a : ℕ → α) (size : ℕ) : Prop :=
  ∀ k, 2 ≤ k → k ≤ size → key (a (k / 2)) ≤ key (a k)

/-- The order of the entries outside of the hole `k`. -/
structure Hole (key : α → β) (a : ℕ → α) (size k : ℕ) : Prop where
  away : ∀ i, 2 ≤ i → i ≤ size → i ≠ k → i / 2 ≠ k → key (a (i / 2)) ≤ key (a i)
  across : 2 ≤ k → ∀ i, i / 2 = k → i ≤ size → key (a (k / 2)) ≤ key (a i)

/-- The father of the hole is at most `v`. -/
def FitsBelow (key : α → β) (a : ℕ → α) (k : ℕ) (v : β) : Prop :=
  2 ≤ k → key (a (k / 2)) ≤ v

/-- The sons of the hole are at least `v`. -/
def FitsAbove (key : α → β) (a : ℕ → α) (size k : ℕ) (v : β) : Prop :=
  ∀ i, i / 2 = k → i ≤ size → v ≤ key (a i)

section

variable (h : Ordered key a size)
include h

/-- The first entry is the least one. -/
theorem Ordered.root_le (hk : 1 ≤ k) (hsize : k ≤ size) : key (a 1) ≤ key (a k) := by
  induction k using Nat.strong_induction_on with
  | h k ih =>
    by_cases hone : k = 1
    · rw [hone]
    · exact (ih (k / 2) (by omega) (by omega) (by omega)).trans (h k (by omega) hsize)

theorem Ordered.mono {size' : ℕ} (hle : size' ≤ size) : Ordered key a size' :=
  fun k hk hsize => h k hk (hsize.trans hle)

/-! ## Holes -/

theorem Ordered.hole (k : ℕ) : Hole key a size k where
  away i hi hsize _ _ := h i hi hsize
  across hk i hik hsize := by
    have hson := h i (by omega) hsize
    rw [hik] at hson
    exact (h k hk (by omega)).trans hson

theorem Ordered.hole_succ : Hole key a (size + 1) (size + 1) where
  away i hi hsize hne _ := h i hi (by omega)
  across hk i hik hsize := by omega

end

theorem Hole.update (h : Hole key a size k) (x : α) :
    Hole key (Function.update a k x) size k where
  away i hi hsize hne hfather := by
    rw [update_of_ne hne, update_of_ne hfather]
    exact h.away i hi hsize hne hfather
  across hk2 i hik hsize := by
    rw [update_of_ne (by omega : k / 2 ≠ k), update_of_ne (by omega : i ≠ k)]
    exact h.across hk2 i hik hsize

theorem fitsAbove_last (v : β) : FitsAbove key a (size + 1) (size + 1) v := by
  intro i hik hsize
  omega

section

variable (h : Hole key a size k)
include h

/-- An entry that fits makes a heap. -/
theorem Hole.fill (hk : 1 ≤ k) (hbelow : FitsBelow key a k (key x))
    (habove : FitsAbove key a size k (key x)) : Ordered key (Function.update a k x) size := by
  intro i hi hsize
  by_cases hik : i = k
  · subst hik
    rw [update_self, update_of_ne (by omega)]
    exact hbelow hi
  · rw [update_of_ne hik]
    by_cases hfather : i / 2 = k
    · rw [hfather, update_self]
      exact habove i hfather hsize
    · rw [update_of_ne hfather]
      exact h.away i hi hsize hik hfather

/-- The father moves into the hole. -/
theorem Hole.up (hk : 2 ≤ k) (hsize : k ≤ size) :
    Hole key (Function.update a k (a (k / 2))) size (k / 2) where
  away i hi hle hne hfather := by
    have hik : i ≠ k := by
      rintro rfl
      exact hfather rfl
    rw [update_of_ne hik]
    by_cases hson : i / 2 = k
    · rw [hson, update_self]
      exact h.across hk i hson hle
    · rw [update_of_ne hson]
      exact h.away i hi hle hik hson
  across hk2 i hi hle := by
    rw [update_of_ne (by omega : k / 2 / 2 ≠ k)]
    have hgrand := h.away (k / 2) hk2 (by omega) (by omega) (by omega)
    by_cases hik : i = k
    · rw [hik, update_self]
      exact hgrand
    · rw [update_of_ne hik]
      have hbrother := h.away i (by omega) hle hik (by omega)
      rw [hi] at hbrother
      exact hgrand.trans hbrother

theorem FitsAbove.up (hk : 2 ≤ k) (hle : v ≤ key (a (k / 2))) :
    FitsAbove key (Function.update a k (a (k / 2))) size (k / 2) v := by
  intro i hi hsize
  by_cases hik : i = k
  · rw [hik, update_self]
    exact hle
  · rw [update_of_ne hik]
    have hbrother := h.away i (by omega) hsize hik (by omega)
    rw [hi] at hbrother
    exact hle.trans hbrother

/-- The lesser son moves into the hole. -/
theorem Hole.down (hk : 1 ≤ k) (hj : j / 2 = k) (hsize : j ≤ size)
    (hleast : ∀ i, i / 2 = k → i ≤ size → key (a j) ≤ key (a i)) :
    Hole key (Function.update a k (a j)) size j where
  away i hi hle hne hfather := by
    by_cases hik : i = k
    · subst hik
      rw [update_self, update_of_ne (by omega)]
      exact h.across hi j hj hsize
    · rw [update_of_ne hik]
      by_cases hson : i / 2 = k
      · rw [hson, update_self]
        exact hleast i hson hle
      · rw [update_of_ne hson]
        exact h.away i hi hle hik hson
  across hj2 i hi hle := by
    rw [hj, update_self, update_of_ne (by omega : i ≠ k)]
    have hson := h.away i (by omega) hle (by omega) (by omega)
    rwa [hi] at hson

end

theorem FitsBelow.down (hj : j / 2 = k) (hle : key (a j) ≤ v) :
    FitsBelow key (Function.update a k (a j)) j v := by
  intro _
  rw [hj, update_self]
  exact hle

end BinaryHeap
