import Mathlib.Data.Finset.Card
import Mathlib.Data.Int.ModEq
import Mathlib.Data.Nat.Find

/-!
# Open addressing with linear probing

A table of `size` slots.  The search for a key starts at a slot that depends on the
key and goes on cyclically, slot by slot, until it meets a slot that is not used or holds
the key.  The table is chained if no search for a stored key meets an unused slot before
the key.

Main results:

- Theorem `Chained.key_injOn`: a chained table holds no key twice.
- Theorem `Chained.insert`: storing a key where its search ends keeps the table
  chained.
- Theorem `exists_stop`: the search ends if a slot is free or the key is stored.
- Theorem `Chained.exists_free`: a table with fewer keys than slots has a free slot.
-/

namespace LinearProbing

open Function (update update_of_ne update_self)
open Nat (add_mod find mod_eq_of_lt mod_lt)

variable {K : Type*}

/-! ## Slots and paths -/

section Paths

variable (size : ℕ) (start : K → ℕ) (used : Set ℕ) (key : ℕ → K) (k : K) (t : ℕ)

/-- The slot that the search for `k` looks at after `t` steps. -/
def slot : ℕ :=
  (start k + t) % size

/-- The first `t` slots of the search for `k` are used and do not hold it. -/
def Passes : Prop :=
  ∀ s < t, slot size start k s ∈ used ∧ key (slot size start k s) ≠ k

/-- The search for `k` can end at its slot number `t`. -/
def Stops : Prop :=
  slot size start k t ∉ used ∨ key (slot size start k t) = k

/-- Every stored key is found from its starting slot. -/
structure Chained : Prop where
  lt_size : ∀ h ∈ used, h < size
  path : ∀ h ∈ used, ∃ t < size, slot size start (key h) t = h ∧
    Passes size start used key (key h) t

end Paths

variable {size : ℕ} {start : K → ℕ} {used : Set ℕ} {key : ℕ → K}

theorem slot_lt (hsize : 0 < size) (k : K) (t : ℕ) : slot size start k t < size :=
  mod_lt _ hsize

theorem slot_succ (hsize : 0 < size) (k : K) (t : ℕ) :
    slot size start k (t + 1)
      = if slot size start k t + 1 ≥ size then 0 else slot size start k t + 1 := by
  unfold slot
  rw [← add_assoc, add_mod (start k + t) 1 size]
  have hlt := mod_lt (start k + t) hsize
  split_ifs with hlast
  · have hone : (start k + t) % size + 1 = size := by omega
    by_cases hsize' : size = 1
    · rw [hsize']
      omega
    · rw [mod_eq_of_lt (show 1 < size by omega), hone, Nat.mod_self]
  · rw [mod_eq_of_lt (show 1 < size by omega), mod_eq_of_lt (by omega)]

theorem exists_slot (k : K) {h : ℕ} (hh : h < size) : ∃ t < size, slot size start k t = h := by
  have hlt := mod_lt (start k) (show 0 < size by omega)
  refine ⟨(h + (size - start k % size)) % size, mod_lt _ (by omega), ?_⟩
  unfold slot
  rw [add_mod, Nat.mod_mod, ← add_mod, ← Nat.mod_add_mod,
    show start k % size + (h + (size - start k % size)) = h + size by omega,
    Nat.add_mod_right, mod_eq_of_lt hh]

/-! ## The search -/

theorem stop_unique {k : K} {t t' : ℕ} (ht : Passes size start used key k t)
    (ht' : Passes size start used key k t') (hstop : Stops size start used key k t)
    (hstop' : Stops size start used key k t') : t = t' := by
  have hnot : ∀ {a b}, Passes size start used key k b → Stops size start used key k a →
      ¬a < b := by
    intro a b hb ha hlt
    obtain ⟨hused, hne⟩ := hb a hlt
    rcases ha with ha | ha
    · exact ha hused
    · exact hne ha
  have h₁ := hnot ht' hstop
  have h₂ := hnot ht hstop'
  omega

/-- The search ends if a slot is free or holds the key. -/
theorem exists_stop {k : K} {h : ℕ} (hh : h < size) (hstop : h ∉ used ∨ key h = k) :
    ∃ t < size, Passes size start used key k t ∧ Stops size start used key k t := by
  classical
  obtain ⟨t, ht, hslot⟩ := exists_slot k hh
  have hexists : ∃ t, Stops size start used key k t := by
    refine ⟨t, ?_⟩
    unfold Stops
    rw [hslot]
    exact hstop
  refine ⟨find hexists, ?_, ?_, Nat.find_spec hexists⟩
  · have hle := Nat.find_le (h := hexists) (show Stops size start used key k t by
      unfold Stops
      rw [hslot]
      exact hstop)
    omega
  · intro s hs
    have hmin := Nat.find_min hexists hs
    unfold Stops at hmin
    rw [not_or, not_not] at hmin
    exact hmin

/-! ## Chained tables -/

theorem chained_empty : Chained size start ∅ key :=
  ⟨fun _ h => absurd h (Set.notMem_empty _), fun _ h => absurd h (Set.notMem_empty _)⟩

namespace Chained

theorem key_injOn (hchain : Chained size start used key) : Set.InjOn key used := by
  intro h hh h' hh' heq
  obtain ⟨t, -, hslot, hpass⟩ := hchain.path h hh
  obtain ⟨t', -, hslot', hpass'⟩ := hchain.path h' hh'
  rw [← heq] at hslot' hpass'
  have hstop : Stops size start used key (key h) t := Or.inr (by rw [hslot])
  have hstop' : Stops size start used key (key h) t' := Or.inr (by rw [hslot', heq])
  rw [← hslot, ← hslot', stop_unique hpass hpass' hstop hstop']

theorem insert (hchain : Chained size start used key) (hsize : 0 < size) {k : K} {t : ℕ}
    (ht : t < size) (hpass : Passes size start used key k t)
    (hfree : slot size start k t ∉ used) :
    Chained size start (Insert.insert (slot size start k t) used)
      (update key (slot size start k t) k) := by
  have hother : ∀ h ∈ used, update key (slot size start k t) k h = key h := by
    intro h hh
    refine update_of_ne (fun heq => hfree ?_) _ _
    rw [← heq]
    exact hh
  have hpasses : ∀ {k' t'}, Passes size start used key k' t' →
      Passes size start (Insert.insert (slot size start k t) used)
        (update key (slot size start k t) k) k' t' := by
    intro k' t' hpass' s hs
    obtain ⟨hused, hne⟩ := hpass' s hs
    exact ⟨Set.mem_insert_of_mem _ hused, by rwa [hother _ hused]⟩
  constructor
  · intro h hh
    rcases Set.mem_insert_iff.mp hh with rfl | hh
    · exact slot_lt hsize k t
    · exact hchain.lt_size h hh
  · intro h hh
    rcases Set.mem_insert_iff.mp hh with rfl | hh
    · rw [update_self]
      exact ⟨t, ht, rfl, hpasses hpass⟩
    · obtain ⟨t', ht', hslot, hpass'⟩ := hchain.path h hh
      rw [hother h hh]
      exact ⟨t', ht', hslot, hpasses hpass'⟩

section

variable (hchain : Chained size start used key)
include hchain

theorem exists_free {keys : Finset K}
    (hkeys : ∀ h ∈ used, key h ∈ keys) (hcard : keys.card < size) :
    ∃ h < size, h ∉ used := by
  classical
  by_contra hfull
  simp only [not_exists, not_and, not_not] at hfull
  have hle : (Finset.range size).card ≤ keys.card := by
    refine Finset.card_le_card_of_injOn key ?_ ?_
    · intro h hh
      exact hkeys h (hfull h (Finset.mem_range.mp hh))
    · intro h hh h' hh'
      exact hchain.key_injOn (hfull h (Finset.mem_range.mp hh))
        (hfull h' (Finset.mem_range.mp hh'))
  rw [Finset.card_range] at hle
  omega

theorem exists_path {h : ℕ} (hh : h ∈ used) :
    ∃ t < size, slot size start (key h) t = h ∧ Passes size start used key (key h) t ∧
      Stops size start used key (key h) t := by
  obtain ⟨t, ht, hslot, hpass⟩ := hchain.path h hh
  exact ⟨t, ht, hslot, hpass, Or.inr (by rw [hslot])⟩

end

end Chained

end LinearProbing
