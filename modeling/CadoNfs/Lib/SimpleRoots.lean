import Mathlib.Algebra.Field.ZMod
import Mathlib.Algebra.Polynomial.Identities
import Mathlib.Algebra.Polynomial.Roots
import Mathlib.RingTheory.Int.Basic

/-!
# Simple roots modulo prime powers

A root of a polynomial modulo a prime at which the derivative does not vanish has exactly
one root above it modulo every power of the prime, and one step of Newton's method gives
the next one.

Main results:

- Theorem `dvd_eval_newton`: a step gives a root modulo the next power.
- Theorem `modEq_of_dvd_eval`: there is only one root above a simple root.
- Theorem `length_le_of_roots`: the number of roots modulo a prime.
-/

namespace SimpleRoots

open Polynomial

variable {f : ℤ[X]} {p : ℕ} {k : ℕ} {r s v : ℤ}

theorem eval_emod_dvd (f : ℤ[X]) {m : ℤ} (h : m ∣ r - s) : m ∣ f.eval r - f.eval s :=
  h.trans (f.sub_dvd_eval_sub r s)

theorem dvd_eval_iff (f : ℤ[X]) {m : ℤ} (h : m ∣ r - s) : m ∣ f.eval r ↔ m ∣ f.eval s :=
  dvd_iff_dvd_of_dvd_sub (eval_emod_dvd f h)

theorem dvd_eval_newton_of_le {j : ℕ} (hjk : j ≤ k) (hr : (p : ℤ) ^ k ∣ f.eval r)
    (hv : (p : ℤ) ^ j ∣ f.derivative.eval r * v - 1) :
    (p : ℤ) ^ (k + j) ∣ f.eval (r - f.eval r * v) := by
  obtain ⟨c, hc⟩ := f.binomExpansion r (-(f.eval r * v))
  have hsquare : (p : ℤ) ^ (k + j) ∣ (-(f.eval r * v)) ^ 2 := by
    have hdvd : (p : ℤ) ^ k ∣ -(f.eval r * v) := (hr.mul_right v).neg_right
    calc (p : ℤ) ^ (k + j) ∣ ((p : ℤ) ^ k) ^ 2 := by
          rw [← pow_mul]
          exact pow_dvd_pow _ (by omega)
      _ ∣ (-(f.eval r * v)) ^ 2 := pow_dvd_pow_of_dvd hdvd 2
  rw [sub_eq_add_neg, hc]
  have heq : f.eval r + f.derivative.eval r * -(f.eval r * v) + c * (-(f.eval r * v)) ^ 2
      = -(f.eval r * (f.derivative.eval r * v - 1)) + c * (-(f.eval r * v)) ^ 2 := by ring
  rw [heq]
  refine dvd_add (dvd_neg.mpr ?_) (hsquare.mul_left _)
  rw [pow_add]
  exact mul_dvd_mul hr hv

/-- One step of Newton's method. -/
theorem dvd_eval_newton (hk : 1 ≤ k) (hr : (p : ℤ) ^ k ∣ f.eval r)
    (hv : (p : ℤ) ^ (k + 1) ∣ f.derivative.eval r * v - 1) :
    (p : ℤ) ^ (k + 1) ∣ f.eval (r - f.eval r * v) :=
  dvd_eval_newton_of_le hk hr ((pow_dvd_pow _ (by omega)).trans hv)

/-- There is only one root above a simple root. -/
theorem modEq_of_dvd_eval (hp : p.Prime) (hmod : (p : ℤ) ∣ s - r)
    (hsimple : ¬(p : ℤ) ∣ f.derivative.eval r) (hr : (p : ℤ) ^ k ∣ f.eval r)
    (hs : (p : ℤ) ^ k ∣ f.eval s) : (p : ℤ) ^ k ∣ s - r := by
  obtain ⟨c, hc⟩ := f.binomExpansion r (s - r)
  rw [add_sub_cancel] at hc
  have hfactor : (p : ℤ) ^ k ∣ (s - r) * (f.derivative.eval r + c * (s - r)) := by
    have heq : (s - r) * (f.derivative.eval r + c * (s - r)) = f.eval s - f.eval r := by
      rw [hc]
      ring
    rw [heq]
    exact dvd_sub hs hr
  have hcoprime : IsCoprime ((p : ℤ) ^ k) (f.derivative.eval r + c * (s - r)) := by
    refine IsCoprime.pow_left ((Nat.prime_iff_prime_int.mp hp).coprime_iff_not_dvd.mpr ?_)
    rwa [dvd_add_left (hmod.mul_left c)]
  exact hcoprime.dvd_of_dvd_mul_right hfactor

/-- The number of roots modulo a prime is at most the degree. -/
theorem length_le_of_roots [Fact p.Prime] (hf : f.map (Int.castRingHom (ZMod p)) ≠ 0)
    {roots : List ℕ} (hnodup : roots.Nodup) (hlt : ∀ r ∈ roots, r < p)
    (hroots : ∀ r ∈ roots, (p : ℤ) ∣ f.eval (r : ℤ)) : roots.length ≤ f.natDegree := by
  have hinj : (roots.map fun r : ℕ => (r : ZMod p)).Nodup := by
    refine (List.nodup_map_iff_inj_on hnodup).mpr fun r hr s hs heq => ?_
    have hmod := (ZMod.natCast_eq_natCast_iff' r s p).mp heq
    rwa [Nat.mod_eq_of_lt (hlt r hr), Nat.mod_eq_of_lt (hlt s hs)] at hmod
  have hsubset : (roots.map fun r : ℕ => (r : ZMod p)).toFinset.val
      ⊆ (f.map (Int.castRingHom (ZMod p))).roots := by
    intro z hz
    obtain ⟨r, hr, rfl⟩ := List.mem_map.mp (List.mem_toFinset.mp hz)
    rw [mem_roots hf, IsRoot.def, ← Int.cast_natCast, eval_intCast_map, eq_intCast,
      ZMod.intCast_zmod_eq_zero_iff_dvd]
    exact hroots r hr
  calc roots.length = (roots.map fun r : ℕ => (r : ZMod p)).toFinset.card := by
        rw [List.toFinset_card_of_nodup hinj, List.length_map]
    _ ≤ (f.map (Int.castRingHom (ZMod p))).natDegree := card_le_degree_of_subset_roots hsubset
    _ ≤ f.natDegree := natDegree_map_le

end SimpleRoots
