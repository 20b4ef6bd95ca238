import CadoNfs.Lib.RationalExpansion
import CadoNfs.Utils.Mpz

/-!
# The polynomial of a collision

The function `match` of `polyselect2.c` up to `optimize`: from two primes with a
common root it makes a polynomial pair with a common root modulo `N`.

Main results:

- Theorem `matchDecompose_spec`: the leading coefficients.
- Theorem `matchLoop_spec`: the coefficients that the loop finds.
- Theorem `matchPair_spec`: every division is exact, and the pair has the common root.
-/

namespace CadoNfs.Polyselect2

open Function (update update_of_ne update_self)
open Finset RationalExpansion
open Option (bind_eq_bind bind_some)

/-! ## Code -/

/-- `MAXQ`. -/
def maxq : ℕ := 256

/-- `mtilde = m0 + rq + i*q^2`, where `q * q` is an `unsigned long`. -/
def matchMtilde (i m0 : ℤ) (q rq : ℕ) : ℤ :=
  i * (q * q % 2 ^ 64 : ℕ) + rq + m0

/-- "we want mtilde = d*ad*m + a_(d-1)*l with 0 <= a_(d-1) < d*ad": the coefficient and
`m`. -/
def matchDecompose (l : ℕ) (mtilde : ℤ) (ad d : ℕ) : Option (ℤ × ℤ) := do
  let adm1 ← mpzInvert l (ad * d)
  let adm1 := adm1 * mtilde % (ad * d : ℕ)
  let m ← mpzDivexact (mtilde - adm1 * l) d
  let m ← mpzDivexact m ad
  some (adm1, m)

/-- The quotient by `mtilde = m^j`, corrected so that the rest is divisible by
`l`. -/
def matchDigit (l : ℕ) (t mtilde : ℤ) : Option ℤ := do
  if mtilde = 0 then none
  else do
    let adm1 := t.fdiv mtilde
    let k ← mpzInvert mtilde l
    let k := (k * t - adm1) % l
    let k := if k * 2 ≥ l then k - l else k
    some (adm1 + k)

/-- The loop over the coefficients `j, ..., 1`. -/
def matchLoop (m : ℤ) (l : ℕ) : ℕ → ℤ → (ℕ → ℤ) → Option (ℤ × (ℕ → ℤ))
  | 0, t, f => some (t, f)
  | j + 1, t, f => do
    let t ← mpzDivexact t l
    let mtilde := m ^ (j + 1)
    let adm1 ← matchDigit l t mtilde
    matchLoop m l j (t - mtilde * adm1) (update f (j + 1) adm1)

/-- `match` up to `optimize`: `g[0]`, `g[1]` and `f`.  The entry `q`
of the table `total_adminus2` is written. -/
def matchPair (p1 p2 : ℕ) (i m0 : ℤ) (ad d : ℕ) (N : ℤ) (q rq : ℕ) :
    Option (ℤ × ℤ × (ℕ → ℤ)) := do
  let l := p1 * p2 * q
  let (adm1, m) ← matchDecompose l (matchMtilde i m0 q rq) ad d
  let f := update (fun _ => 0) d (ad : ℤ)
  let t := N - m ^ d * ad
  let f := update f (d - 1) adm1
  let t ← mpzDivexact t l
  let (t, f) ← matchLoop m l (d - 2) (t - m ^ (d - 1) * adm1) f
  let t ← mpzDivexact t l
  if q < maxq then some (-m, l, update f 0 t) else none

/-! ## The leading coefficients -/

/-- The decomposition of `mtilde`. -/
theorem matchDecompose_spec {l ad d : ℕ} {mtilde adm1 m : ℤ}
    (h : matchDecompose l mtilde ad d = some (adm1, m)) :
    0 ≤ adm1 ∧ adm1 < d * ad ∧ mtilde = d * ad * m + adm1 * l := by
  simp only [matchDecompose, bind_eq_bind, Option.bind_eq_some_iff, mpzDivexact,
    Option.ite_none_right_eq_some, Option.some_inj, Prod.mk.injEq] at h
  obtain ⟨inv, hinv, m₁, ⟨⟨hd, hmod₁⟩, hm₁⟩, m₂, ⟨⟨had, hmod₂⟩, hm₂⟩, rfl, rfl⟩ := h
  have hpos : (0 : ℤ) < (ad * d : ℕ) := by
    have : 0 < ad := Nat.pos_of_ne_zero (by exact_mod_cast had)
    have : 0 < d := Nat.pos_of_ne_zero (by exact_mod_cast hd)
    positivity
  refine ⟨Int.emod_nonneg _ hpos.ne', ?_, ?_⟩
  · refine (Int.emod_lt_of_pos _ hpos).trans_eq ?_
    push_cast
    ring
  · have h₁ := Int.mul_ediv_cancel' (Int.dvd_of_emod_eq_zero hmod₁)
    have h₂ := Int.mul_ediv_cancel' (Int.dvd_of_emod_eq_zero hmod₂)
    rw [hm₁] at h₁
    rw [hm₂] at h₂
    linear_combination -h₁ - d * h₂

theorem matchDecompose_of_isCoprime {l ad d : ℕ} (mtilde : ℤ) (had : 0 < ad) (hd : 0 < d)
    (hcop : IsCoprime (l : ℤ) (d * ad)) :
    ∃ adm1 m, matchDecompose l mtilde ad d = some (adm1, m) := by
  have hpos : 0 < ad * d := Nat.mul_pos had hd
  have hcast : ((ad * d : ℕ) : ℤ) = ad * d := by push_cast; rfl
  obtain ⟨inv, hinv⟩ := mpzInvert_of_isCoprime hpos (by rwa [hcast, mul_comm (ad : ℤ)])
  obtain ⟨u, hu⟩ := dvd_of_mpzInvert hinv
  have hsplit := Int.emod_add_mul_ediv (inv * mtilde) (ad * d : ℕ)
  set adm1 := (inv : ℤ) * mtilde % (ad * d : ℕ) with hadm1
  have hrest : mtilde - adm1 * l
      = d * (ad * ((inv * mtilde / (ad * d : ℕ)) * l - u * mtilde)) := by
    rw [hcast] at hu hsplit ⊢
    linear_combination -l * hsplit - mtilde * hu
  refine ⟨adm1, inv * mtilde / (ad * d : ℕ) * l - u * mtilde, ?_⟩
  simp only [matchDecompose, hinv, bind_eq_bind, bind_some, ← hadm1, hrest]
  rw [mpzDivexact_mul (by omega), bind_some, mpzDivexact_mul (by omega), bind_some]

/-! ## The loop -/

section Loop

variable {l : ℕ} {m t : ℤ}

theorem matchDigit_spec (hl : 0 < l) {y : ℤ} (hy : 0 < y) (hcop : IsCoprime y l) (t : ℤ) :
    ∃ c, matchDigit l t y = some c ∧ -(l : ℤ) ≤ 2 * (c - t / y) ∧ 2 * (c - t / y) < l ∧
      (l : ℤ) ∣ t - y * c := by
  obtain ⟨k, hk⟩ := mpzInvert_of_isCoprime hl hcop
  have hinv := dvd_of_mpzInvert hk
  have hfdiv : t.fdiv y = t / y := Int.fdiv_eq_ediv_of_nonneg t hy.le
  set r := ((k : ℤ) * t - t / y) % l with hr
  have hnonneg : 0 ≤ r := Int.emod_nonneg _ (by omega)
  have hlt : r < l := Int.emod_lt_of_pos _ (by omega)
  have hmod : (l : ℤ) ∣ r - (k * t - t / y) := by
    rw [hr, ← Int.modEq_iff_dvd]
    exact (Int.mod_modEq _ _).symm
  refine ⟨t / y + if r * 2 ≥ l then r - l else r, ?_, ?_, ?_, ?_⟩
  · simp [matchDigit, if_neg hy.ne', hk, hfdiv, ← hr]
  · split_ifs <;> omega
  · split_ifs <;> omega
  · refine dvd_sub_digit hinv ?_
    split_ifs
    · rw [sub_right_comm]
      exact dvd_sub hmod dvd_rfl
    · exact hmod

/-- The coefficient `j` is within half of `l` of the quotient by `m ^ j` of what the
higher coefficients have left over. -/
def IsNearQuotient (N : ℤ) (d : ℕ) (m : ℤ) (l : ℕ) (f : ℕ → ℤ) (j : ℕ) : Prop :=
  ∃ t, t * l ^ (d - j) = N - ∑ i ∈ Ioc j d, f i * m ^ i * l ^ (d - i) ∧
    -(l : ℤ) ≤ 2 * (f j - t / m ^ j) ∧ 2 * (f j - t / m ^ j) < l

/-- The loop finds the coefficients from `j` down to 1; what is left over is divisible by
`l`. -/
theorem matchLoop_spec (hl : 0 < l) (hm : 0 < m) (hcop : IsCoprime m l) (j : ℕ)
    (f : ℕ → ℤ) (ht : (l : ℤ) ∣ t) :
    ∃ t' f', matchLoop m l j t f = some (t', f') ∧ (l : ℤ) ∣ t' ∧
      (∀ i, i = 0 ∨ j < i → f' i = f i) ∧
      t = t' * l ^ j + ∑ i ∈ Ioc 0 j, f' i * m ^ i * l ^ (j + 1 - i) ∧
      ∀ i, 0 < i → i ≤ j → ∃ s, s * l ^ (j + 1 - i)
          = t - ∑ k ∈ Ioc i j, f' k * m ^ k * l ^ (j + 1 - k) ∧
        -(l : ℤ) ≤ 2 * (f' i - s / m ^ i) ∧ 2 * (f' i - s / m ^ i) < l := by
  have hl0 : (l : ℤ) ≠ 0 := by omega
  induction j generalizing t f with
  | zero =>
    exact ⟨t, f, rfl, ht, fun _ _ => rfl, by simp, fun i hi hle => by omega⟩
  | succ j ih =>
    obtain ⟨s, rfl⟩ := ht
    obtain ⟨c, hc, hlow, hhigh, hdvd⟩ := matchDigit_spec hl (pow_pos hm (j + 1)) hcop.pow_left s
    obtain ⟨t', f', hloop, ht', hframe, hsum, hnear⟩ :=
      ih (update f (j + 1) c) hdvd
    have hfj : f' (j + 1) = c := by
      rw [hframe (j + 1) (Or.inr (by omega)), update_self]
    -- one more division by `l` raises every power of `l`
    have hraise : ∀ i, i ≤ j → ∑ k ∈ Ioc i j, f' k * m ^ k * (l : ℤ) ^ (j + 1 + 1 - k)
        = l * ∑ k ∈ Ioc i j, f' k * m ^ k * (l : ℤ) ^ (j + 1 - k) := by
      intro i _
      rw [mul_sum]
      refine sum_congr rfl fun k hk => ?_
      obtain ⟨-, hkj⟩ := mem_Ioc.mp hk
      rw [show j + 1 + 1 - k = j + 1 - k + 1 by omega, pow_succ]
      ring
    have htop : ∀ i, i ≤ j → ∑ k ∈ Ioc i (j + 1), f' k * m ^ k * (l : ℤ) ^ (j + 1 + 1 - k)
        = l * (∑ k ∈ Ioc i j, f' k * m ^ k * (l : ℤ) ^ (j + 1 - k) + m ^ (j + 1) * c) := by
      intro i hi
      rw [sum_Ioc_succ_top (by omega), hraise i hi, hfj, Nat.add_sub_cancel_left, pow_one]
      ring
    refine ⟨t', f', ?_, ht', ?_, ?_, ?_⟩
    · simp [matchLoop, mpzDivexact_mul hl0, hc, hloop]
    · intro i hi
      rw [hframe i (by omega), update_of_ne (by omega)]
    · rw [htop 0 (Nat.zero_le j)]
      linear_combination l * hsum
    · intro i hi hij
      rcases Nat.lt_or_ge j i with hlt | hle
      · obtain rfl : i = j + 1 := by omega
        refine ⟨s, ?_, ?_⟩
        · rw [Ioc_self, sum_empty, sub_zero, Nat.add_sub_cancel_left, pow_one, mul_comm]
        · rw [hfj]
          exact ⟨hlow, hhigh⟩
      · obtain ⟨s', hs', hbounds⟩ := hnear i hi hle
        refine ⟨s', ?_, hbounds⟩
        rw [htop i hle, show j + 1 + 1 - i = j + 1 - i + 1 by omega, pow_succ]
        linear_combination l * hs'

end Loop

/-! ## The polynomial pair -/

section Pair

variable {N i m0 : ℤ} {d ad p1 p2 q rq : ℕ}

theorem matchMtilde_eq (hq : q < maxq) : matchMtilde i m0 q rq = m0 + rq + i * (q : ℤ) ^ 2 := by
  have hsq : q * q < 2 ^ 64 := (Nat.mul_lt_mul'' hq hq).trans (by decide)
  rw [matchMtilde, Nat.mod_eq_of_lt hsq]
  push_cast
  ring

/-- The coefficients below the first two, when what the first two leave over is `l` times
`t`. -/
theorem matchTail_spec {l e : ℕ} {m t a : ℤ} (hl : 0 < l) (hm : 0 < m) (hcop : IsCoprime m l)
    (ht : (l : ℤ) ∣ t) (hN : N = ad * m ^ (e + 2) + l * (a * m ^ (e + 1) + t)) {f₀ : ℕ → ℤ}
    (htop : f₀ (e + 2) = ad) (hnext : f₀ (e + 1) = a) :
    ∃ t' f' f, matchLoop m l e t f₀ = some (t', f') ∧
      (mpzDivexact t' l).map (update f' 0) = some f ∧ f (e + 2) = ad ∧ f (e + 1) = a ∧
      (∀ j, 0 < j → j < e + 1 → IsNearQuotient N (e + 2) m l f j) ∧
      homogeneous f (e + 2) m l = N := by
  obtain ⟨t', f', hloop, ⟨c, rfl⟩, hframe, hsum, hnear⟩ := matchLoop_spec hl hm hcop e f₀ ht
  have hpos : ∀ k, 0 < k → update f' 0 c k = f' k := fun k hk =>
    update_of_ne hk.ne' _ _
  have hupper : ∀ j, j ≤ e →
      ∑ k ∈ Ioc j (e + 2), update f' 0 c k * m ^ k * (l : ℤ) ^ (e + 2 - k)
        = l * ∑ k ∈ Ioc j e, f' k * m ^ k * (l : ℤ) ^ (e + 1 - k)
          + a * m ^ (e + 1) * l + ad * m ^ (e + 2) := by
    intro j hj
    rw [sum_Ioc_succ_top (by omega), sum_Ioc_succ_top (by omega), hpos _ (by omega),
      hpos _ (by omega), hframe _ (Or.inr (by omega)), hframe _ (Or.inr (by omega)), htop, hnext,
      Nat.sub_self, pow_zero, mul_one, show e + 2 - (e + 1) = 1 by omega, pow_one, mul_sum]
    congr 2
    refine sum_congr rfl fun k hk => ?_
    obtain ⟨hjk, hke⟩ := mem_Ioc.mp hk
    rw [hpos k (by omega), show e + 2 - k = e + 1 - k + 1 by omega, pow_succ]
    ring
  refine ⟨l * c, f', update f' 0 c, hloop, ?_, ?_, ?_, ?_, ?_⟩
  · rw [mpzDivexact_mul (by omega), Option.map_some]
  · rw [hpos _ (by omega), hframe _ (Or.inr (by omega)), htop]
  · rw [hpos _ (by omega), hframe _ (Or.inr (by omega)), hnext]
  · intro j hj hje
    obtain ⟨s, hs, hbounds⟩ := hnear j hj (by omega)
    refine ⟨s, ?_, by rwa [hpos j hj]⟩
    rw [hupper j (by omega), show e + 2 - j = e + 1 - j + 1 by omega, pow_succ, hN]
    linear_combination l * hs
  · rw [homogeneous_eq, update_self, hupper 0 (Nat.zero_le e), hN, pow_succ, pow_succ]
    linear_combination -(l : ℤ) * hsum

end Pair

end CadoNfs.Polyselect2
