import Mathlib.Data.Nat.Prime.Basic
import Mathlib.Tactic.Ring

/-!
# Trial division

What is known of a number when the primes up to a bound have been divided out, and of the
prime factors of the number that it comes from.

Main results:

- Theorems `Rough.prime`, `Rough.lt_sq`: what the size then says.
- Theorem `SplitOff.rough`: the next divisor.
- Theorem `SplitOff.dvd_iff`: the other prime factors stay.
-/

namespace CadoNfs

variable {B n d L p c c' : ℕ}

/-- All the prime factors of `n` exceed `B`. -/
def Rough (B n : ℕ) : Prop :=
  ∀ p, p.Prime → p ∣ n → B < p

theorem Rough.of_dvd (h : Rough B n) (hd : d ∣ n) : Rough B d :=
  fun p hp hdvd => h p hp (hdvd.trans hd)

section

variable (h : Rough B n) (hn : 1 < n)
include h hn

/-- Below the square of the next number there are only primes. -/
theorem Rough.prime (hlt : n < (B + 1) ^ 2) : n.Prime := by
  by_contra hnot
  have hmin := h n.minFac (Nat.minFac_prime (by omega)) n.minFac_dvd
  have hsq := Nat.minFac_sq_le_self (by omega) hnot
  have hpow := Nat.pow_le_pow_left (show B + 1 ≤ n.minFac from hmin) 2
  omega

theorem Rough.prime_of_lt_sq (hlt : n < B ^ 2) : n.Prime :=
  h.prime hn (hlt.trans_le (Nat.pow_le_pow_left (Nat.le_succ B) 2))

/-- Below the cube of the bound, a number whose prime factors are below `L` is below
the square of `L`, unless it is 1. -/
theorem Rough.lt_sq (hlt : n < B ^ 3) (hL : ∀ p, p.Prime → p ∣ n → p < L) : n < L ^ 2 := by
  have hp := Nat.minFac_prime (show n ≠ 1 by omega)
  obtain ⟨d, hd⟩ := n.minFac_dvd
  have hdvd : d ∣ n := ⟨n.minFac, by rw [mul_comm]; exact hd⟩
  have hBp := h _ hp n.minFac_dvd
  have hpL := hL _ hp n.minFac_dvd
  -- the cofactor of the least prime factor is 1 or prime
  have hdL : d < L := by
    by_contra hle
    have hd1 : 1 < d := by have := hp.two_le; omega
    have hsq : B ^ 2 ≤ d := by
      by_contra hsq
      exact hle (hL d ((h.of_dvd hdvd).prime_of_lt_sq hd1 (by omega)) hdvd)
    have hcube : B ^ 3 ≤ n :=
      calc B ^ 3 = B * B ^ 2 := by ring
        _ ≤ n.minFac * d := Nat.mul_le_mul hBp.le hsq
        _ = n := hd.symm
    omega
  calc n = n.minFac * d := hd
    _ < L * L := Nat.mul_lt_mul'' hpL hdL
    _ = L ^ 2 := (sq L).symm

end

theorem Rough.succ_of_odd (h : Rough p c) (hp : p % 2 = 1) (hone : 1 < p) : Rough (p + 1) c := by
  intro q hq hdvd
  have hlt := h q hq hdvd
  rcases hq.eq_two_or_odd with htwo | hodd <;> omega

/-! ## Dividing out -/

/-- `c'` is `c` without the factors `p`. -/
def SplitOff (p c c' : ℕ) : Prop :=
  ¬p ∣ c' ∧ ∃ k, c = p ^ k * c'

theorem SplitOff.dvd (h : SplitOff p c c') : c' ∣ c := by
  obtain ⟨-, k, hk⟩ := h
  exact ⟨p ^ k, by rw [hk, mul_comm]⟩

/-- The other prime factors stay. -/
theorem SplitOff.dvd_iff (h : SplitOff p c c') (hp : p.Prime) {q : ℕ} (hq : q.Prime) :
    q ∣ c' ↔ q ∣ c ∧ q ≠ p := by
  constructor
  · intro hdvd
    exact ⟨hdvd.trans h.dvd, fun heq => h.1 (heq ▸ hdvd)⟩
  · rintro ⟨hdvd, hne⟩
    obtain ⟨-, k, hk⟩ := h
    rw [hk] at hdvd
    exact (((Nat.coprime_primes hq hp).mpr hne).pow_right k).dvd_of_dvd_mul_left hdvd

/-- The divisor that was tried is passed. -/
theorem SplitOff.rough (h : SplitOff p c c') (hc : Rough (p - 1) c) : Rough p c' := by
  intro q hq hdvd
  have hlt := hc q hq (hdvd.trans h.dvd)
  have hne : q ≠ p := fun heq => h.1 (heq ▸ hdvd)
  omega

theorem Rough.prime_of_dvd (hc : Rough (p - 1) c) (hp : 1 < p) (hdvd : p ∣ c) : p.Prime := by
  have hmin := Nat.minFac_prime (show p ≠ 1 by omega)
  have hlt := hc _ hmin (p.minFac_dvd.trans hdvd)
  have hle := Nat.minFac_le (show 0 < p by omega)
  rwa [show p.minFac = p by omega] at hmin

/-! ## The largest prime factor -/

/-- `p` is the largest prime factor of `n`. -/
structure IsLargestPrimeFactor (p n : ℕ) : Prop where
  prime : p.Prime
  dvd : p ∣ n
  le : ∀ q, q.Prime → q ∣ n → q ≤ p

theorem IsLargestPrimeFactor.of_prime {p q : ℕ} (hp : p.Prime) (h : IsLargestPrimeFactor q p) :
    q = p :=
  (Nat.prime_dvd_prime_iff_eq h.prime hp).mp h.dvd

/-- What trial division by the numbers below `p` leaves of `n`. -/
structure TrialDivided (n p c : ℕ) : Prop where
  one_lt : 1 < c
  dvd : c ∣ n
  rough : Rough (p - 1) c
  split : ∀ q, q.Prime → q ∣ n → q ∣ c ∨ q < p

theorem TrialDivided.largest_of_one (h : TrialDivided n p c) (hp : 1 < p)
    (hsplit : SplitOff p c 1) : IsLargestPrimeFactor p n := by
  obtain ⟨-, k, hk⟩ := hsplit
  rw [mul_one] at hk
  have hk0 : k ≠ 0 := by
    rintro rfl
    have := h.one_lt
    rw [hk, pow_zero] at this
    omega
  have hdvd : p ∣ c := hk ▸ dvd_pow_self p hk0
  have hprime := h.rough.prime_of_dvd hp hdvd
  refine ⟨hprime, hdvd.trans h.dvd, fun q hq hqn => ?_⟩
  rcases h.split q hq hqn with hqc | hlt
  · rw [hk] at hqc
    exact Nat.le_of_dvd hprime.pos (hq.dvd_of_dvd_pow hqc)
  · exact hlt.le

theorem TrialDivided.largest_of_lt (h : TrialDivided n p c) (hp : 0 < p) (hlt : c < p ^ 2) :
    IsLargestPrimeFactor c n := by
  have hprime : c.Prime := h.rough.prime h.one_lt (by rwa [Nat.sub_add_cancel hp])
  refine ⟨hprime, h.dvd, fun q hq hqn => ?_⟩
  have hpc := h.rough c hprime dvd_rfl
  rcases h.split q hq hqn with hqc | hlt
  · exact Nat.le_of_dvd hprime.pos hqc
  · omega

theorem TrialDivided.next (h : TrialDivided n p c) (hp : 1 < p) (hsplit : SplitOff p c c')
    (hpos : 0 < c') (hne : c' ≠ 1) : TrialDivided n (p + 1 + p % 2) c' := by
  refine ⟨by omega, hsplit.dvd.trans h.dvd, ?_, fun q hq hqn => ?_⟩
  · have hrough := hsplit.rough h.rough
    rcases Nat.mod_two_eq_zero_or_one p with hmod | hmod
    · rwa [hmod]
    · rw [hmod]
      exact hrough.succ_of_odd hmod hp
  · rcases h.split q hq hqn with hqc | hlt
    · by_cases hdvd : p ∣ c
      · have hprime := h.rough.prime_of_dvd hp hdvd
        by_cases hqp : q = p
        · right
          omega
        · exact Or.inl ((hsplit.dvd_iff hprime hq).mpr ⟨hqc, hqp⟩)
      · left
        obtain ⟨-, k, hk⟩ := hsplit
        rcases k with _ | k
        · rwa [hk, pow_zero, one_mul] at hqc
        · exact absurd ⟨p ^ k * c', by rw [hk]; ring⟩ hdvd
    · right
      omega

end CadoNfs
