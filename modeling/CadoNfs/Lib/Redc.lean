import Mathlib.Data.Int.ModEq
import Mathlib.Tactic.Ring
import Mathlib.Tactic.Linarith

/-!
# Montgomery reduction and quotient estimates on numbers

The arithmetic behind multi-word modular code, on natural numbers and for an
arbitrary word base: the Newton step for an inverse, the two reduction steps of a
Montgomery product, and the quotient of two numbers estimated from their leading
parts.

Main results:

- Theorem `newton_inverse_step`: a Newton step squares the modulus up to
  which an inverse is right.
- Theorem `redc_two_lt`: after two reduction steps a product of residues is
  below twice the modulus.
- Theorem `IsMontgomeryResidue.of_sub`: subtracting the modulus once if
  possible gives the unique reduced residue.
- Theorem `quotient_estimate`: dividing the leading parts gives the quotient
  or one more.
-/

namespace Redc

/-! ## Newton inversion -/

/-- A Newton step squares the modulus up to which the inverse is right. -/
theorem newton_inverse_step {r r' n m : ℤ} (h : r * n ≡ 1 [ZMOD m])
    (hstep : r' ≡ 2 * r - r * r * n [ZMOD m * m]) : r' * n ≡ 1 [ZMOD m * m] := by
  have herror : m * m ∣ (r * n - 1) * (r * n - 1) := by
    have hdvd : m ∣ r * n - 1 := (Int.modEq_iff_dvd.mp h.symm)
    exact mul_dvd_mul hdvd hdvd
  have hexpand : 1 - (2 * r - r * r * n) * n = (r * n - 1) * (r * n - 1) := by ring
  calc r' * n ≡ (2 * r - r * r * n) * n [ZMOD m * m] := hstep.mul_right n
    _ ≡ 1 [ZMOD m * m] := by
      rw [Int.modEq_iff_dvd, hexpand]
      exact herror

/-! ## Montgomery residues -/

/-- `r` is the one reduced residue with `r * R` congruent to
`x`. -/
structure IsMontgomeryResidue (R m x r : ℕ) : Prop where
  /-- The residue is reduced. -/
  lt : r < m
  /-- The residue represents `x / R`. -/
  congr : r * R ≡ x [MOD m]
  /-- No other reduced residue does. -/
  unique : ∀ r', r' < m → r' * R ≡ x [MOD m] → r' = r

theorem IsMontgomeryResidue.of_lt {R m x r : ℕ} (hcop : Nat.Coprime m R) (hlt : r < m)
    (hcongr : r * R ≡ x [MOD m]) : IsMontgomeryResidue R m x r := by
  refine ⟨hlt, hcongr, ?_⟩
  intro r' hlt' hcongr'
  have hcancel : r' ≡ r [MOD m] :=
    Nat.ModEq.cancel_right_of_coprime hcop (hcongr'.trans hcongr.symm)
  exact Nat.ModEq.eq_of_lt_of_lt hcancel hlt' hlt

/-- One conditional subtraction reduces a representative below `2 * m`. -/
theorem IsMontgomeryResidue.of_sub {R m x t r : ℕ} (hcop : Nat.Coprime m R)
    (ht : t < 2 * m) (hcongr : t * R ≡ x [MOD m])
    (hr : r = if m ≤ t then t - m else t) : IsMontgomeryResidue R m x r := by
  by_cases h : m ≤ t
  · rw [if_pos h] at hr
    apply IsMontgomeryResidue.of_lt hcop (by omega)
    have hshift : t * R = r * R + m * R := by
      rw [← add_mul]
      congr 1
      omega
    rw [hshift] at hcongr
    calc r * R ≡ r * R + m * R [MOD m] := by simp [Nat.ModEq]
      _ ≡ x [MOD m] := hcongr
  · rw [if_neg h] at hr
    apply IsMontgomeryResidue.of_lt hcop (by omega)
    rw [hr]
    exact hcongr

theorem congr_of_eq_add_mul {R m x t k : ℕ} (h : R * t = x + k * m) :
    t * R ≡ x [MOD m] := by
  rw [mul_comm, h]
  simp [Nat.ModEq]

theorem redc_lt {W m s k t : ℕ} (hs : s < m) (hk : k < W) (h : W * t = s + k * m) :
    t < m := by
  have hstep : W * t < W * m :=
    calc W * t = s + k * m := h
      _ < m + k * m := by omega
      _ = (k + 1) * m := by ring
      _ ≤ W * m := Nat.mul_le_mul_right m hk
  exact Nat.lt_of_mul_lt_mul_left hstep

theorem mul_modEq_of_inverse {m y u r A R c t : ℕ} (hcop : Nat.Coprime m (2 ^ t))
    (hinv : y * u ≡ 2 ^ t * c [MOD m]) (hr : r * 2 ^ t ≡ u [MOD m]) (hA : y * R ≡ A [MOD m]) :
    r * A ≡ R * c [MOD m] := by
  have hyr : y * r ≡ c [MOD m] := by
    refine Nat.ModEq.cancel_right_of_coprime hcop ?_
    rw [mul_assoc, mul_comm c]
    exact (hr.mul_left y).trans hinv
  calc r * A ≡ r * (y * R) [MOD m] := hA.symm.mul_left r
    _ = y * r * R := by ring
    _ ≡ c * R [MOD m] := hyr.mul_right R
    _ = R * c := mul_comm c R

/-- Two reduction steps of a product of residues stay below twice the
modulus. -/
theorem redc_two_lt {W m x k₀ k₁ t : ℕ} (hx : x < m * m) (hm : m < W * W)
    (hk₀ : k₀ < W) (hk₁ : k₁ < W) (h : W * W * t = x + (k₀ + W * k₁) * m) :
    t < 2 * m := by
  have hk : k₀ + W * k₁ + 1 ≤ W * W := by
    calc k₀ + W * k₁ + 1 ≤ W + W * k₁ := by omega
      _ = W * (k₁ + 1) := by ring
      _ ≤ W * W := Nat.mul_le_mul_left W hk₁
  have hmm : m * m ≤ W * W * m := Nat.mul_le_mul_right m hm.le
  have hkm : (k₀ + W * k₁) * m ≤ W * W * m := Nat.mul_le_mul_right m (by omega)
  have hstep : W * W * t < W * W * (2 * m) := by
    calc W * W * t = x + (k₀ + W * k₁) * m := h
      _ < W * W * m + W * W * m := by omega
      _ = W * W * (2 * m) := by ring
  exact Nat.lt_of_mul_lt_mul_left hstep

theorem word_sum_lt {W h s k m : ℕ} (hh : h < W) (hs : s < W) (hk : k < W) (hm : m < W) :
    h + s + k * m < W * W := by
  obtain ⟨V, rfl⟩ : ∃ V, W = V + 1 := ⟨W - 1, by omega⟩
  have hprod : k * m ≤ V * V := Nat.mul_le_mul (by omega) (by omega)
  calc h + s + k * m ≤ V + V + V * V := by omega
    _ < (V + 1) * (V + 1) := by ring_nf; omega

theorem cross_sum_lt {W m T a₀ a₁ b₀ b₁ k : ℕ} (hT : W * T = a₀ * b₀ + k * m)
    (ha₀ : a₀ < W) (hb₀ : b₀ < W) (hk : k < W) (hm : 4 * m ≤ W * W) (ha₁ : 4 * a₁ ≤ W)
    (hb₁ : 4 * b₁ ≤ W) (hW : 4 ≤ W) : T + a₁ * b₀ + a₀ * b₁ < W * W := by
  have hlow : a₀ * b₀ < W * W := Nat.mul_lt_mul'' ha₀ hb₀
  have hkm : k * m ≤ W * m := Nat.mul_le_mul_right m hk.le
  have hTlt : T < W + m := by
    have hstep : W * T < W * (W + m) := by rw [mul_add]; omega
    exact Nat.lt_of_mul_lt_mul_left hstep
  have hmid : 4 * a₁ * b₀ ≤ W * W := Nat.mul_le_mul ha₁ hb₀.le
  have hmid' : a₀ * (4 * b₁) ≤ W * W := Nat.mul_le_mul ha₀.le hb₁
  have hbase : 4 * W ≤ W * W := Nat.mul_le_mul_right W hW
  have hleft : 4 * (a₁ * b₀) = 4 * a₁ * b₀ := by ring
  have hright : 4 * (a₀ * b₁) = a₀ * (4 * b₁) := by ring
  omega

theorem redc_total {W m₀ m₁ a₀ a₁ b₀ b₁ T v₀ v₁ h k₀ k₁ : ℕ}
    (hT : W * T = a₀ * b₀ + k₀ * (m₀ + W * m₁))
    (hv : v₀ + W * v₁ = T + a₁ * b₀ + a₀ * b₁) (hh : W * h = v₀ + k₁ * m₀) :
    W * W * (v₁ + a₁ * b₁ + h + k₁ * m₁)
      = (a₀ + W * a₁) * (b₀ + W * b₁) + (k₀ + W * k₁) * (m₀ + W * m₁) := by
  calc W * W * (v₁ + a₁ * b₁ + h + k₁ * m₁)
      = W * (W * v₁ + W * h) + W * W * (a₁ * b₁ + k₁ * m₁) := by ring
    _ = W * (v₀ + W * v₁) + W * (k₁ * m₀) + W * W * (a₁ * b₁ + k₁ * m₁) := by
      rw [hh]; ring
    _ = W * T + W * (a₁ * b₀ + a₀ * b₁) + W * (k₁ * m₀) + W * W * (a₁ * b₁ + k₁ * m₁) := by
      rw [hv]; ring
    _ = _ := by rw [hT]; ring

/-! ## Quotients from leading parts -/

theorem div_le_leading_div {n d D : ℕ} (hD : 0 < D) (hx : 0 < d / D) :
    n / d ≤ n / D / (d / D) := by
  rw [Nat.le_div_iff_mul_le hx, Nat.le_div_iff_mul_le hD]
  calc n / d * (d / D) * D = n / d * (d / D * D) := by ring
    _ ≤ n / d * d := Nat.mul_le_mul_left _ (Nat.div_mul_le_self d D)
    _ ≤ n := Nat.div_mul_le_self n d

section

variable {n d D W : ℕ} (hn : n < W * W) (hD : D = 2 ∨ 4 ≤ D)
include hn hD

/-- Dividing the leading parts overshoots by less than one divisor: the divisor
keeps a full word of leading bits. -/
theorem leading_div_mul_lt (hx : W ≤ 2 * (d / D)) : n / D / (d / D) * d < n + d := by
  have hd := Nat.mod_add_div d D
  have hl : d % D < D := Nat.mod_lt _ (by omega)
  rcases Nat.eq_zero_or_pos (d / D) with hzero | hpos
  · have hW : W = 0 := by omega
    simp [hW] at hn
  generalize d / D = x at *
  generalize d % D = l at *
  have hqx : n / D / x * x ≤ n / D := Nat.div_mul_le_self _ _
  have hy : n / D * D ≤ n := Nat.div_mul_le_self n D
  generalize n / D / x = q at *
  generalize n / D = y at *
  have hqxD : q * x * D ≤ n := (Nat.mul_le_mul_right D hqx).trans hy
  have hsq : W * W ≤ 2 * x * (2 * x) := Nat.mul_le_mul hx hx
  -- the part of the divisor that was cut off adds less than a divisor
  have hcut : q * l < D * x := by
    rcases hD with rfl | hD
    · have hq : q < 2 * x := by
        by_contra hge
        have hmul : 2 * x * (x * 2) ≤ q * (x * 2) := Nat.mul_le_mul_right _ (by omega)
        nlinarith
      calc q * l ≤ q * 1 := Nat.mul_le_mul_left q (by omega)
        _ < 2 * x := by omega
    · have hqD : q * D < 4 * x := by
        by_contra hge
        have hmul : 4 * x * x ≤ q * D * x := Nat.mul_le_mul_right _ (by omega)
        nlinarith
      calc q * l ≤ q * D := Nat.mul_le_mul_left q hl.le
        _ < 4 * x := hqD
        _ ≤ D * x := Nat.mul_le_mul_right x hD
  calc q * d = q * (l + D * x) := by rw [hd]
    _ = q * x * D + q * l := by ring
    _ < n + D * x := by omega
    _ ≤ n + d := by omega

/-- Dividing the leading parts gives the quotient or one more. -/
theorem quotient_estimate (hW : 0 < W) (hx : W ≤ 2 * (d / D)) :
    n / D / (d / D) = n / d ∨ n / D / (d / D) = n / d + 1 := by
  have hx0 : 0 < d / D := by omega
  have hd0 : 0 < d := by
    rcases Nat.eq_zero_or_pos d with rfl | h
    · simp at hx0
    · exact h
  have hlow := div_le_leading_div (n := n) (show 0 < D by omega) hx0
  have hhigh : n / D / (d / D) < n / d + 2 := by
    have hover := leading_div_mul_lt hn hD hx
    have hn' := Nat.lt_div_mul_add (a := n) hd0
    have hmul : n / D / (d / D) * d < (n / d + 2) * d := by
      calc n / D / (d / D) * d < n + d := hover
        _ < n / d * d + d + d := by omega
        _ = (n / d + 2) * d := by ring
    exact Nat.lt_of_mul_lt_mul_right hmul
  omega

end

/-- When the estimate for `W * W - m` overshoots, the remainder of
`W * W` is at least the low word of the modulus: `m₁` is the high word,
of as many bits as were cut off. -/
theorem low_word_le_mod_of_overshoot {W m m₁ D : ℕ} (hmW : m ≤ W * W) (hm : 0 < m)
    (hm₁ : W * m₁ ≤ m) (hD : 0 < D) (hDm₁ : D ≤ 2 * m₁)
    (hover : (W * W - m) / D / (m / D) = W * W / m) : m - W * m₁ ≤ W * W % m := by
  by_contra hlt
  have hsplit := Nat.div_add_mod (W * W) m
  have hcut := Nat.mod_add_div m D
  have hl : m % D < D := Nat.mod_lt _ hD
  have hq : W * W / m * (m / D) * D ≤ W * W - m := by
    rw [← hover]
    exact (Nat.mul_le_mul_right D (Nat.div_mul_le_self _ _)).trans (Nat.div_mul_le_self _ _)
  have hQm : W * W / m * m ≤ W * W := Nat.div_mul_le_self _ _
  generalize W * W / m = Q at *
  generalize W * W % m = R at *
  generalize m % D = l at *
  generalize m / D = x at *
  -- the cut-off part times the quotient makes up for the high words of the modulus
  have hQl : W * m₁ < Q * l := by
    have hexpand : m * Q = Q * l + Q * x * D := by rw [← hcut]; ring
    omega
  have hlsq : l ≤ m₁ * m₁ := by
    have hsq : 2 * m₁ ≤ m₁ * m₁ + 1 := by nlinarith [sq_nonneg ((m₁ : ℤ) - 1)]
    omega
  have hstrict : W * W * (m₁ * m₁) < W * W * l :=
    calc W * W * (m₁ * m₁) = W * m₁ * (W * m₁) := by ring
      _ ≤ W * m₁ * m := Nat.mul_le_mul_left _ hm₁
      _ < Q * l * m := Nat.mul_lt_mul_of_pos_right hQl hm
      _ = Q * m * l := by ring
      _ ≤ W * W * l := Nat.mul_le_mul_right _ hQm
  exact absurd (Nat.lt_of_mul_lt_mul_left hstrict) (by omega)

end Redc
