import CadoNfs.Lib.BinaryEuclid
import CadoNfs.Lib.Word

/-!
# Runs of the binary Euclidean algorithm

The loops of the algorithm over any type of bounded numbers, in pairs of passes: the second
number is reduced until it is not above the first one, then the first one until it is not above
the second one.  A failed assertion or a lost bit shows in the outcome.

Main results:

- Theorem `reduce_spec`: one pass keeps the pair and brings the second number down.
- Theorem `loop_spec`: the passes end with equal numbers.
- Theorem `unitLoop_spec`: with a test for one, they end with a one or a zero.
-/

namespace CadoNfs

open WordArith

variable {α : Type}

/-! ## Definitions -/

/-- What a run needs of its numbers. -/
structure EuclidOps (α : Type) where
  sub : α → α → α
  add : α → α → Outcome α
  lt : α → α → Bool
  /-- Divide the powers of two out of the first number, multiply the second one by them and add
  the exponent to the count. -/
  shiftOut : α → α → ℤ → Outcome (α × α × ℤ)

namespace EuclidOps

variable (ops : EuclidOps α)

/-- Subtract `a` from `b` and divide by powers of two, until `b` is not above
`a`.  The new `b`, `u`, `v` and count are returned. -/
def reduce : ℕ → α → α → α → α → ℤ → Outcome (α × α × α × ℤ)
  | 0, _, _, _, _, _ => .abort
  | fuel + 1, a, b, u, v, t => do
    let b := ops.sub b a
    let v ← ops.add v u
    let (b, u, t) ← ops.shiftOut b u t
    if ops.lt a b then reduce fuel a b u v t else pure (b, u, v, t)

/-- Reduce both numbers in turn, until `stop` holds of the other number and the one just
reduced.  The numbers, their coefficients and the count are returned. -/
def loop (stop : α → α → Bool) (passes : ℕ) : ℕ → α → α → α → α → ℤ →
    Outcome (α × α × α × α × ℤ)
  | 0, _, _, _, _, _ => .abort
  | fuel + 1, a, b, u, v, t => do
    let (b, u, v, t) ← ops.reduce passes a b u v t
    if stop a b then pure (a, b, u, v, t)
    else do
      let (a, v, u, t) ← ops.reduce passes b a v u t
      if stop b a then pure (a, b, u, v, t) else loop stop passes fuel a b u v t

/-- The operations are right for numbers that are not above `p`. -/
structure Lawful (value : α → ℕ) (p : ℕ) : Prop where
  sub_value : ∀ {b a}, value a ≤ value b → value (ops.sub b a) = value b - value a
  add_value : ∀ {v u}, value v + value u ≤ p →
    ∃ s, ops.add v u = pure s ∧ value s = value v + value u
  lt_iff : ∀ {a b}, value b ≤ p → (ops.lt a b = true ↔ value a < value b)
  shiftOut_value : ∀ {b u} (t : ℤ), 0 < value b → value b * value u ≤ p →
    ∃ l c d, ops.shiftOut b u t = pure (c, d, t + (l : ℕ)) ∧ value b = value c * 2 ^ l ∧
      value c % 2 = 1 ∧ value d = value u * 2 ^ l

end EuclidOps

/-! ## Correctness -/

namespace EuclidOps

variable {ops : EuclidOps α} {value : α → ℕ} {p n t fuel passes : ℕ} {x : ℤ} {a b u v : α}

/-- The pair of a state of the run. -/
def Pair (value : α → ℕ) (p : ℕ) (x : ℤ) (n : ℕ) (a b u v : α) (t : ℕ) : Prop :=
  OddPair p x n (value a) (value b) (value u) (value v) t

section

variable (hops : ops.Lawful value p)
include hops

section

variable (h : Pair value p x n a b u v t)
include h

theorem step_spec (hab : value a < value b) (off : ℤ) : ∃ v' c d, ∃ t' : ℕ, ops.add v u = pure v' ∧
      ops.shiftOut (ops.sub b a) u (t + off) = pure (c, d, t' + off) ∧
      Pair value p x n a c d v' t' ∧ t < t' := by
  have hsub := hops.sub_value hab.le
  obtain ⟨v', hv', hv'v⟩ := hops.add_value (h.add_le hab)
  obtain ⟨l, c, d, hrun, hc, hodd, hd⟩ := hops.shiftOut_value (b := ops.sub b a) (u := u)
    (t + off) (by omega) (by rw [hsub]; exact h.sub_mul_le hab.le)
  rw [hsub] at hc
  have hl := h.shift_pos hab.le hc hodd
  refine ⟨v', c, d, t + l, hv', ?_, ?_, by omega⟩
  · rw [hrun, Nat.cast_add, add_right_comm]
  · rw [Pair, hv'v, hd]
    exact h.reduce hab hc hodd

/-- One pass, from a number that is larger: the power of two grows, so the passes are
bounded. -/
theorem reduce_spec (hab : value a < value b) (hfuel : n < 2 ^ (t + fuel)) (off : ℤ) :
    ∃ b' u' v', ∃ t' : ℕ, ops.reduce fuel a b u v (t + off) = pure (b', u', v', t' + off) ∧
      Pair value p x n a b' u' v' t' ∧ value b' ≤ value a ∧ t < t' := by
  induction fuel generalizing b u v t with
  | zero => exact absurd hfuel (Nat.not_lt.mpr h.two_pow_le)
  | succ fuel ih =>
    obtain ⟨v', c, d, t', hv', hrun, h', ht⟩ := step_spec hops h hab off
    by_cases hlt : value a < value c
    · obtain ⟨b', u'', v'', t'', hrest, h'', hle, ht'⟩ := ih h' hlt (hfuel.trans_le
        (Nat.pow_le_pow_right two_pos (by omega)))
      refine ⟨b', u'', v'', t'', ?_, h'', hle, by omega⟩
      simp [reduce, hv', hrun, (hops.lt_iff h'.right_le_mod).mpr hlt, hrest]
    · refine ⟨c, d, v', t', ?_, h', by omega, ht⟩
      simp [reduce, hv', hrun, (hops.lt_iff h'.right_le_mod), hlt]

theorem reduce_swap_spec (hab : value b < value a) (hfuel : n < 2 ^ (t + fuel)) (off : ℤ) :
    ∃ a' u' v', ∃ t' : ℕ, ops.reduce fuel b a v u (t + off) = pure (a', v', u', t' + off) ∧
      Pair value p x n a' b u' v' t' ∧ value a' ≤ value b ∧ t < t' := by
  obtain ⟨a', v', u', t', hrun, h', hle, ht⟩ := reduce_spec hops h.swap hab hfuel off
  refine ⟨a', u', v', t', hrun, ?_, hle, ht⟩
  have hswap := h'.swap
  rwa [neg_neg] at hswap

end

/-- With the test for equal numbers the passes end with equal numbers. -/
theorem loop_spec {stop : α → α → Bool}
    (hstop : ∀ a b, stop a b = true ↔ value a = value b) (h : Pair value p x n a b u v t)
    (hab : value a < value b) (hpasses : n < 2 ^ passes) (hfuel : n < 2 ^ (t + fuel))
    (off : ℤ) :
    ∃ a' b' u' v', ∃ t' : ℕ, ops.loop stop passes fuel a b u v (t + off)
        = pure (a', b', u', v', t' + off) ∧
      Pair value p x n a' b' u' v' t' ∧ value a' = value b' := by
  have hpow : ∀ t : ℕ, n < 2 ^ (t + passes) := fun t =>
    hpasses.trans_le (Nat.pow_le_pow_right two_pos (Nat.le_add_left _ _))
  induction fuel generalizing a b u v t with
  | zero => exact absurd hfuel (Nat.not_lt.mpr h.two_pow_le)
  | succ fuel ih =>
    obtain ⟨b₁, u₁, v₁, t₁, hrun₁, h₁, hle₁, ht₁⟩ := reduce_spec hops h hab (hpow t) off
    by_cases heq₁ : value a = value b₁
    · refine ⟨a, b₁, u₁, v₁, t₁, ?_, h₁, heq₁⟩
      simp [loop, hrun₁, pure_bind, (hstop a b₁).mpr heq₁]
    · have hcont₁ := mt (hstop a b₁).mp heq₁
      obtain ⟨a₂, u₂, v₂, t₂, hrun₂, h₂, hle₂, ht₂⟩ :=
        reduce_swap_spec hops h₁ (by omega) (hpow t₁) off
      by_cases heq₂ : value b₁ = value a₂
      · refine ⟨a₂, b₁, u₂, v₂, t₂, ?_, h₂, heq₂.symm⟩
        simp only [loop, hrun₁, hrun₂, pure_bind, if_neg hcont₁, (hstop b₁ a₂).mpr heq₂, if_true]
      · obtain ⟨a', b', u', v', t', hrest, h', heq'⟩ := ih h₂ (by omega) (hfuel.trans_le
          (Nat.pow_le_pow_right two_pos (by omega)))
        refine ⟨a', b', u', v', t', ?_, h', heq'⟩
        simp only [loop, hrun₁, hrun₂, pure_bind, if_neg hcont₁,
          if_neg (mt (hstop b₁ a₂).mp heq₂), hrest]

/-! ## The test for one -/

section

variable (hzero : ∀ b u t, value b = 0 → ∃ c d s, ops.shiftOut b u t = pure (c, d, s) ∧ value c = 0)
include hzero

theorem reduce_equal (h : Pair value p x n a b u v t) (hab : value a = value b) (fuel : ℕ) (s : ℤ) :
    ∃ b' u' v' s', ops.reduce (fuel + 1) a b u v s = pure (b', u', v', s') ∧ value b' = 0 := by
  have hsub := hops.sub_value hab.le
  have hle : value v + value u ≤ p := by
    have ha := h.left_odd
    exact (h.toBinaryEuclid.subtract hab.le).right_le (by omega)
  obtain ⟨v', hv', -⟩ := hops.add_value hle
  obtain ⟨c, d, s', hrun, hc⟩ := hzero (ops.sub b a) u s (by omega)
  have hlt : ¬ ops.lt a c = true := by
    rw [hops.lt_iff (by omega)]
    omega
  refine ⟨c, d, v', s', ?_, hc⟩
  simp [reduce, hv', hrun, if_neg hlt]

/-- With the test whether the reduced number is at most one, the passes end with a one in an odd
pair, or with a zero when the numbers were not coprime. -/
theorem unitLoop_spec {stop : α → α → Bool} (hstop : ∀ a b, stop a b = true ↔ value b ≤ 1)
    (h : Pair value p x n a b u v t)
    (hab : value a < value b ∨ value a = value b ∧ value a ≠ 1) (hpasses : n < 2 ^ passes)
    (hfuel : n < 2 ^ (t + fuel)) (off : ℤ) :
    ∃ a' b' u' v' s', ops.loop stop passes fuel a b u v (t + off) = pure (a', b', u', v', s') ∧
      ((∃ t' : ℕ, s' = t' + off ∧ Pair value p x n a' b' u' v' t' ∧
          (value a' = 1 ∨ value b' = 1)) ∨
        ((value a' = 0 ∨ value b' = 0) ∧ Int.gcd x p ≠ 1)) := by
  have hpow : ∀ t : ℕ, n < 2 ^ (t + passes) := fun t =>
    hpasses.trans_le (Nat.pow_le_pow_right two_pos (Nat.le_add_left _ _))
  obtain ⟨k, rfl⟩ : ∃ k, passes = k + 1 := Nat.exists_eq_succ_of_ne_zero (by
    rintro rfl
    have := h.two_pow_le
    have := Nat.two_pow_pos t
    omega)
  induction fuel generalizing a b u v t with
  | zero => exact absurd hfuel (Nat.not_lt.mpr h.two_pow_le)
  | succ fuel ih =>
    rcases hab with hab | ⟨hab, hone⟩
    · obtain ⟨b₁, u₁, v₁, t₁, hrun₁, h₁, hle₁, ht₁⟩ := reduce_spec hops h hab (hpow t) off
      by_cases hb₁ : value b₁ ≤ 1
      · have hodd := h₁.right_odd
        refine ⟨a, b₁, u₁, v₁, t₁ + off, ?_, Or.inl ⟨t₁, rfl, h₁, Or.inr (by omega)⟩⟩
        simp [loop, hrun₁, pure_bind, if_pos ((hstop a b₁).mpr hb₁)]
      have hcont₁ := mt (hstop a b₁).mp hb₁
      by_cases heq : value b₁ = value a
      · obtain ⟨a₂, v₂, u₂, s₂, hrun₂, ha₂⟩ :=
          reduce_equal hops hzero h₁.swap heq k (t₁ + off)
        have hgcd : Int.gcd x p ≠ 1 := by
          have h₁ := h₁
          rw [Pair, heq] at h₁
          exact h₁.not_coprime (by omega)
        refine ⟨a₂, b₁, u₂, v₂, s₂, ?_, Or.inr ⟨Or.inl ha₂, hgcd⟩⟩
        simp only [loop, hrun₁, hrun₂, pure_bind, if_neg hcont₁,
          if_pos ((hstop b₁ a₂).mpr (by omega))]
      · obtain ⟨a₂, u₂, v₂, t₂, hrun₂, h₂, hle₂, ht₂⟩ :=
          reduce_swap_spec hops h₁ (by omega) (hpow t₁) off
        have hodd := h₂.left_odd
        by_cases ha₂ : value a₂ ≤ 1
        · refine ⟨a₂, b₁, u₂, v₂, t₂ + off, ?_, Or.inl ⟨t₂, rfl, h₂, Or.inl (by omega)⟩⟩
          simp only [loop, hrun₁, hrun₂, pure_bind, if_neg hcont₁, if_pos ((hstop b₁ a₂).mpr ha₂)]
        · obtain ⟨a', b', u', v', s', hrest, hrest'⟩ := ih h₂ (by omega) (hfuel.trans_le
            (Nat.pow_le_pow_right two_pos (by omega)))
          refine ⟨a', b', u', v', s', ?_, hrest'⟩
          simp only [loop, hrun₁, hrun₂, pure_bind, if_neg hcont₁,
            if_neg (mt (hstop b₁ a₂).mp ha₂), hrest]
    · obtain ⟨b₁, u₁, v₁, s₁, hrun₁, hb₁⟩ := reduce_equal hops hzero h hab k (t + off)
      have hgcd : Int.gcd x p ≠ 1 := by
        have h := h
        rw [Pair, ← hab] at h
        exact h.not_coprime hone
      refine ⟨a, b₁, u₁, v₁, s₁, ?_, Or.inr ⟨Or.inr hb₁, hgcd⟩⟩
      simp [loop, hrun₁, pure_bind, if_pos ((hstop a b₁).mpr (by omega))]

end

end

end EuclidOps

end CadoNfs
