import Mathlib.Tactic.IntervalCases
import Mathlib.Tactic.Linarith
import CadoNfs.Ecm.Stage2Pairs

/-!
# The passes of the stage 2 plan

The passes over the array of flags drop divisors of the numbers of a pair.

Main results:

- Theorem `findPrimeDiv_mul`: the search finds a flagged prime with a smaller prime
  cofactor.
- Theorem `pass1Drop_spec`: what the first pass drops.
- Theorem `pass2Drops_divisors`: what the later passes drop.
-/

namespace CadoNfs

/-! ## The order of the steps -/

theorem mem_downFrom {high low x : ℕ} : x ∈ downFrom high low ↔ low ≤ x ∧ x ≤ high := by
  rw [downFrom, List.mem_reverse, List.mem_range'_1]
  omega

theorem downFrom_succ {high low : ℕ} (h : low ≤ high + 1) :
    downFrom (high + 1) low = (high + 1) :: downFrom high low := by
  have hlen : high + 1 + 1 - low = (high + 1 - low) + 1 := by omega
  rw [downFrom, downFrom, hlen, List.range'_concat, List.reverse_append, List.reverse_singleton,
    List.singleton_append]
  congr 1
  omega

theorem downFrom_of_lt {high low : ℕ} (h : high < low) : downFrom high low = [] := by
  rw [downFrom, Nat.sub_eq_zero_of_le h, List.range'_zero, List.reverse_nil]

theorem mem_passSteps {maxI minI : ℕ} {step : ℕ × ℕ} (h : step ∈ passSteps maxI minI) :
    minI ≤ step.1 ∧ 0 < step.1 ∧ step.1 ≤ maxI ∧ step.2 ∈ stage2S1 := by
  obtain ⟨i, hi, hstep⟩ := List.mem_flatMap.mp h
  obtain ⟨j, hj, rfl⟩ := List.mem_map.mp hstep
  rw [mem_downFrom] at hi
  exact ⟨by simp only; omega, by simp only; omega, hi.2, hj⟩

/-! ## What the search for a divisor finds -/

theorem divideOut_of_not_dvd (primes : Primes) {f p : ℕ} (fuel : ℕ) (h : ¬f ∣ p) :
    divideOut primes f fuel p = (p, false) := by
  cases fuel with
  | zero => rfl
  | succ fuel => rw [divideOut, if_neg fun hmod => h (Nat.dvd_of_mod_eq_zero hmod)]

theorem findPrimeDivLoop_skip (primes : Primes) {left fuel f p : ℕ} (hfuel : left ≤ fuel)
    (hsquare : ∀ k < left, (f + 2 * k) * (f + 2 * k) ≤ p) (hp : p < 2 ^ 32)
    (hskip : ∀ k < left, ¬f + 2 * k ∣ p) :
    findPrimeDivLoop primes fuel f p
      = findPrimeDivLoop primes (fuel - left) (f + 2 * left) p := by
  induction left generalizing fuel f with
  | zero => rfl
  | succ left ih =>
    obtain ⟨fuel, rfl⟩ := Nat.exists_eq_succ_of_ne_zero (by omega : fuel ≠ 0)
    have hfirst := hsquare 0 (by omega)
    have hnot := hskip 0 (by omega)
    rw [mul_zero, add_zero] at hfirst hnot
    rw [findPrimeDivLoop, Nat.mod_eq_of_lt (by omega), if_pos hfirst,
      divideOut_of_not_dvd primes p hnot]
    simp only [Bool.false_eq_true, if_false]
    have hshift : ∀ k, f + 2 + 2 * k = f + 2 * (k + 1) := by omega
    rw [ih (by omega) (fun k hk => ?_) (fun k hk => ?_), hshift, Nat.succ_sub_succ]
    · rw [hshift]
      exact hsquare (k + 1) (by omega)
    · rw [hshift]
      exact hskip (k + 1) (by omega)

variable {primes : Primes}

/-- The search finds a flagged prime with a smaller prime cofactor. -/
theorem findPrimeDiv_mul {t x : ℕ} (ht : t.Prime) (hx : x.Prime)
    (hle : t ≤ x) (hmin : notInD ≤ t) (hlt : t * x < 2 ^ 32) (hflag : primes x = true) :
    findPrimeDiv (t * x) notInD primes = x := by
  have hodd : t % 2 = 1 := ht.mod_two_eq_one_iff_ne_two.mpr (by unfold notInD at hmin; omega)
  obtain ⟨left, hleft⟩ : ∃ left, t = notInD + 2 * left := ⟨(t - notInD) / 2, by
    unfold notInD at *; omega⟩
  have hsmall : t < 2 ^ 16 := by nlinarith
  have hskip : ∀ k < left, ¬notInD + 2 * k ∣ t * x := by
    intro k hk hdvd
    have hcoprime := Nat.coprime_of_lt_prime (n := notInD + 2 * k) (by unfold notInD; omega)
      (by omega) ht
    rcases (Nat.dvd_prime hx).mp (hcoprime.symm.dvd_of_dvd_mul_left hdvd) with hone | heq
    · unfold notInD at hone
      omega
    · omega
  have hsquare : ∀ k < left, (notInD + 2 * k) * (notInD + 2 * k) ≤ t * x := fun k hk =>
    Nat.mul_le_mul (by omega) (by omega)
  have hlast : t * x ≥ t * t % 2 ^ 32 := (Nat.mod_le _ _).trans (Nat.mul_le_mul_left t hle)
  have hpos : 0 < t * x := Nat.mul_pos ht.pos hx.pos
  obtain ⟨n, hn⟩ := Nat.exists_eq_succ_of_ne_zero hpos.ne'
  obtain ⟨fuel, hfuel⟩ : ∃ fuel, 2 ^ 28 - left = fuel + 1 := ⟨2 ^ 28 - left - 1, by omega⟩
  have hdivide : divideOut primes t (n + 1) (t * x) = (x, true) := by
    rw [divideOut, if_pos (Nat.mul_mod_right t x)]
    simp [Nat.mul_div_cancel_left x ht.pos, hflag]
  rw [findPrimeDiv, findPrimeDivLoop_skip primes (by omega) hsquare hlt hskip, hfuel, ← hleft,
    findPrimeDivLoop, if_pos hlast]
  rw [← Nat.succ_eq_add_one, ← hn] at hdivide
  simp [hdivide]

theorem findPrimeDiv_prime {p : ℕ} (hp : p.Prime)
    (hlt : p < 2 ^ 31) (hflag : primes p = true) : findPrimeDiv p notInD primes = p := by
  have hexists : ∃ left, p < (notInD + 2 * left) * (notInD + 2 * left) :=
    ⟨p, by unfold notInD; nlinarith⟩
  obtain ⟨left, hleft, hsquare⟩ : ∃ left, p < (notInD + 2 * left) * (notInD + 2 * left) ∧
      ∀ k < left, (notInD + 2 * k) * (notInD + 2 * k) ≤ p :=
    ⟨Nat.find hexists, Nat.find_spec hexists, fun k hk => not_lt.mp (Nat.find_min hexists hk)⟩
  have hsmall : notInD + 2 * left < 2 ^ 16 := by
    by_contra hlarge
    obtain ⟨last, rfl⟩ : ∃ last, left = last + 1 := ⟨left - 1, by unfold notInD at *; omega⟩
    have hprev := hsquare last (by omega)
    have hbig : 65534 * 65534 ≤ (notInD + 2 * last) * (notInD + 2 * last) :=
      Nat.mul_le_mul (by omega) (by omega)
    omega
  have hskip : ∀ k < left, ¬notInD + 2 * k ∣ p := by
    intro k hk hdvd
    have hle := hsquare k hk
    rcases (Nat.dvd_prime hp).mp hdvd with hone | heq
    · unfold notInD at hone
      omega
    · rw [heq] at hle
      nlinarith [hp.two_le]
  have hbase : (notInD + 2 * left) * (notInD + 2 * left) < 2 ^ 32 := by nlinarith
  obtain ⟨fuel, hfuel⟩ : ∃ fuel, 2 ^ 28 - left = fuel + 1 := ⟨2 ^ 28 - left - 1, by omega⟩
  rw [findPrimeDiv, findPrimeDivLoop_skip primes (by omega) hsquare (by omega) hskip, hfuel,
    findPrimeDivLoop, Nat.mod_eq_of_lt hbase, if_neg (by omega), if_pos hflag]

/-! ## Numbers of pairs -/

/-- The number `x` belongs to a pair of the rows from `lo` to `hi`. -/
def ValidEntry (lo hi x : ℕ) : Prop :=
  ∃ i j, lo ≤ i ∧ i ≤ hi ∧ j ∈ stage2S1 ∧ RowEntry i j x

theorem prime_rowEntry {p : ℕ} (hp : p.Prime) (h : 7 < p) :
    ∃ j ∈ stage2S1, RowEntry ((p + stage2D / 2) / stage2D) j p := by
  have hcoprime : Nat.Coprime p 210 := by
    have htwo := (Nat.coprime_primes hp Nat.prime_two).mpr (by omega)
    have hthree := (Nat.coprime_primes hp Nat.prime_three).mpr (by omega)
    have hfive := (Nat.coprime_primes hp Nat.prime_five).mpr (by omega)
    have hseven := (Nat.coprime_primes hp (by decide : Nat.Prime 7)).mpr (by omega)
    exact ((htwo.mul_right hthree).mul_right hfive).mul_right hseven
  have htable : ∀ r < 210, Nat.gcd r 210 = 1 →
      (if r > 105 then 210 - r else r) ∈ stage2S1 ∧ r ≠ 105 := by
    decide +kernel
  have hgcd : Nat.gcd (p % 210) 210 = 1 := by
    rw [← Nat.gcd_rec, Nat.gcd_comm]
    exact hcoprime
  obtain ⟨hmem, hne⟩ := htable (p % 210) (Nat.mod_lt _ (by decide)) hgcd
  refine ⟨_, hmem, ?_⟩
  unfold RowEntry stage2D
  split_ifs <;> omega

theorem RowEntry.coprime {i j x : ℕ} (hj : j ∈ stage2S1) (hx : RowEntry i j x) :
    Nat.Coprime stage2D x := by
  have htable : ∀ j ∈ stage2S1, Nat.gcd j 210 = 1 ∧ Nat.gcd (210 - j) 210 = 1 := by decide
  have hbounds := stage2S1_bounds hj
  have hres : x % 210 = j ∨ x % 210 = 210 - j := by
    unfold RowEntry stage2D at hx
    omega
  unfold Nat.Coprime stage2D
  rw [Nat.gcd_rec]
  rcases hres with hres | hres
  · rw [hres]
    exact (htable j hj).1
  · rw [hres]
    exact (htable j hj).2

theorem RowEntry.partner_partner {i j x q : ℕ} (hj : j ∈ stage2S1) (hx : RowEntry i j x)
    (hq : (q : ℤ) = CadoNfs.partner x) : RowEntry i j q ∧ CadoNfs.partner q = x := by
  have hbounds := stage2S1_bounds hj
  have hentry : RowEntry i j q := by
    rcases hx.partner hj with ⟨-, hpartner⟩ | ⟨-, hpartner⟩
    · exact Or.inr (hq.trans hpartner)
    · exact Or.inl (hq.trans hpartner)
  refine ⟨hentry, ?_⟩
  rcases hx.partner hj with ⟨hxe, hpartner⟩ | ⟨hxe, hpartner⟩ <;>
    rcases hentry.partner hj with ⟨hqe, hpartner'⟩ | ⟨hqe, hpartner'⟩ <;> omega

theorem rowEntry_step {step : ℕ × ℕ} (hpos : 0 < step.1) (hj : step.2 ∈ stage2S1) :
    RowEntry step.1 step.2 (lowerOf step) ∧ RowEntry step.1 step.2 (upperOf step) ∧
      partner (lowerOf step) = upperOf step ∧ partner (upperOf step) = lowerOf step := by
  have hbounds := stage2S1_bounds hj
  unfold RowEntry lowerOf upperOf partner signedResidue stage2D
  simp only
  refine ⟨by omega, by omega, ?_, ?_⟩ <;> split_ifs <;> omega

theorem proper_divisor_le {i j q r : ℕ} (hj : j ∈ stage2S1) (hq : RowEntry i j q)
    (hr : r ∣ q) (hne : r ≠ q) : notInD * r ≤ q := by
  have htable : ∀ j ∈ stage2S1, j % 2 ≠ 0 ∧ j % 3 ≠ 0 ∧ j % 5 ≠ 0 ∧ j % 7 ≠ 0 := by decide
  obtain ⟨h₂, h₃, h₅, h₇⟩ := htable j hj
  have hbounds := stage2S1_bounds hj
  obtain ⟨t, rfl⟩ := hr
  unfold RowEntry stage2D at hq
  unfold notInD
  rw [mul_comm]
  apply Nat.mul_le_mul_left
  by_contra hlt
  have hlt' : t < 11 := by omega
  interval_cases t <;> omega

/-! ## What the passes drop -/

/-- The first pass drops a flagged divisor of a partner that is not flagged.  Numbers
from `2 ^ 31` on are negative as `int` and are passed over. -/
theorem pass1Drop_spec {p : ℕ} (hp : p ≤ 4294967144) (h : pass1Drop primes p ≠ 0) :
    primes p = true ∧ ∃ q : ℕ, (q : ℤ) = partner p ∧ primes q = false ∧
      pass1Drop primes p ∣ q ∧ primes (pass1Drop primes p) = true := by
  unfold pass1Drop at h ⊢
  by_cases hflag : primes p = true
  · simp only [if_pos hflag] at h ⊢
    by_cases hneg : asInt p < 2 * signedResidue p
    · exact absurd (if_pos hneg) h
    · have hq : (((asInt p - 2 * signedResidue p) % 2 ^ 32).toNat : ℤ) = partner p := by
        unfold asInt signedResidue stage2D at hneg
        unfold asInt partner signedResidue stage2D
        simp only at hneg ⊢
        split_ifs at hneg ⊢ <;> omega
      simp only [if_neg hneg] at h ⊢
      by_cases hpartner : primes ((asInt p - 2 * signedResidue p) % 2 ^ 32).toNat = true
      · simp only [hpartner, Bool.not_true, Bool.false_eq_true, if_false, ne_eq,
          not_true_eq_false] at h
      · rw [Bool.not_eq_true] at hpartner
        simp only [hpartner, Bool.not_false, if_true] at h ⊢
        obtain ⟨hdvd, hfound⟩ := findPrimeDiv_spec primes h
        exact ⟨hflag, _, hq, hpartner, hdvd, hfound⟩
  · exact absurd (if_neg hflag) h

theorem pass1Drop_eq {p q : ℕ} (hp : p < 2 ^ 31) (hflag : primes p = true)
    (hq : (q : ℤ) = partner p) (hfree : primes q = false) :
    pass1Drop primes p = findPrimeDiv q notInD primes := by
  unfold partner at hq
  have hneg : ¬asInt p < 2 * signedResidue p := by
    unfold asInt
    rw [if_pos hp]
    omega
  have hqe : ((asInt p - 2 * signedResidue p) % 2 ^ 32).toNat = q := by
    have hres : -105 ≤ signedResidue p := by
      unfold signedResidue stage2D
      simp only
      split_ifs <;> omega
    unfold asInt
    rw [if_pos hp]
    omega
  simp only [pass1Drop, if_pos hflag, if_neg hneg, hqe, hfree, Bool.not_false, if_true]

theorem pass1Step_mono {p x : ℕ} (h : pass1Step primes p x = true) : primes x = true := by
  unfold pass1Step at h
  dsimp only at h
  split_ifs at h
  · exact Primes.clear_mono h
  · exact h

variable {ps : List ℕ}

theorem foldl_pass1Step_mono {x : ℕ}
    (h : ps.foldl pass1Step primes x = true) : primes x = true := by
  induction ps generalizing primes with
  | nil => exact h
  | cons p ps ih => exact pass1Step_mono (ih h)

theorem foldl_pass1Step_keeps {x : ℕ} (hps : ∀ p ∈ ps, p ≤ 4294967144) (hx : primes x = true)
    (h : ∀ p ∈ ps, primes p = true → ∀ q : ℕ, (q : ℤ) = partner p → x ∣ q → x = q) :
    ps.foldl pass1Step primes x = true := by
  induction ps generalizing primes with
  | nil => exact hx
  | cons p ps ih =>
    obtain ⟨hp, hps⟩ := List.forall_mem_cons.mp hps
    obtain ⟨hfirst, hrest⟩ := List.forall_mem_cons.mp h
    refine ih hps ?_ fun p hp hflag => hrest p hp (pass1Step_mono hflag)
    unfold pass1Step
    by_cases hdrop : pass1Drop primes p = 0
    · simp only [hdrop, ne_eq, not_true_eq_false, if_false]
      exact hx
    · obtain ⟨hflag, q, hq, hfree, hdvd, -⟩ := pass1Drop_spec hp hdrop
      have hne : x ≠ pass1Drop primes p := by
        intro heq
        rw [← heq] at hdvd
        rw [← hfirst hflag q hq hdvd, hx] at hfree
        cases hfree
      simp only [ne_eq, hdrop, not_false_eq_true, if_true, Primes.clear_of_ne primes hne]
      exact hx

theorem foldl_pass1Step_clears {p t x : ℕ}
    (hprimes : ∀ y, primes y = true → y.Prime) (hps : ∀ p ∈ ps, p ≤ 4294967144)
    (hp : p ∈ ps) (hlt : p < 2 ^ 31) (hflag : primes p = true)
    (hkeep : ∀ p' ∈ ps, primes p' = true → ∀ q : ℕ, (q : ℤ) = partner p' → p ∣ q → p = q)
    (ht : t.Prime) (hx : x.Prime) (hle : t ≤ x) (hmin : notInD ≤ t)
    (hq : ((t * x : ℕ) : ℤ) = partner p) : ps.foldl pass1Step primes x = false := by
  obtain ⟨before, after, rfl⟩ := List.append_of_mem hp
  have hkept : before.foldl pass1Step primes p = true :=
    foldl_pass1Step_keeps (fun p hp => hps p (List.mem_append_left _ hp)) hflag
      fun p hp => hkeep p (List.mem_append_left _ hp)
  have hfree : before.foldl pass1Step primes (t * x) = false := by
    rw [← Bool.not_eq_true]
    intro hset
    exact Nat.not_prime_mul ht.ne_one hx.ne_one (hprimes _ (foldl_pass1Step_mono hset))
  have hbase : t * x < 2 ^ 32 := by
    unfold partner signedResidue stage2D at hq
    simp only at hq
    split_ifs at hq <;> omega
  rw [List.foldl_append, List.foldl_cons, ← Bool.not_eq_true]
  intro hset
  have hstep := foldl_pass1Step_mono hset
  have hxflag := pass1Step_mono hstep
  rw [pass1Step, pass1Drop_eq hlt hkept hq hfree,
    findPrimeDiv_mul ht hx hle hmin hbase hxflag] at hstep
  simp only [ne_eq, hx.ne_zero, not_false_eq_true, if_true, Primes.clear_self,
    Bool.false_eq_true] at hstep

/-- What a later pass drops: flagged divisors of the two numbers of the pair, at least
one of them. -/
def DropsDivisors (drops : Primes → ℕ × ℕ → Option (ℕ × ℕ)) : Prop :=
  ∀ primes step r1 r2, drops primes step = some (r1, r2) →
    (r1 ≠ 0 → r1 ∣ lowerOf step ∧ primes r1 = true) ∧
    (r2 ≠ 0 → r2 ∣ upperOf step ∧ primes r2 = true) ∧ (r1 ≠ 0 ∨ r2 ≠ 0)

/-- The second pass drops flagged divisors. -/
theorem pass2Drops_divisors : DropsDivisors pass2Drops := by
  intro primes step r1 r2 h
  unfold pass2Drops at h
  dsimp only at h
  split_ifs at h with hflags hfound
  obtain ⟨rfl, rfl⟩ := Prod.mk.inj (Option.some.inj h)
  exact ⟨fun h => findPrimeDiv_spec primes h, fun h => findPrimeDiv_spec primes h, Or.inl hfound.1⟩

theorem pass2Drops_both {step : ℕ × ℕ} {r1 r2 : ℕ}
    (h : pass2Drops primes step = some (r1, r2)) : r1 ≠ 0 ∧ r2 ≠ 0 := by
  unfold pass2Drops at h
  dsimp only at h
  split_ifs at h with hflags hfound
  obtain ⟨rfl, rfl⟩ := Prod.mk.inj (Option.some.inj h)
  exact hfound

theorem pass3Drops_divisors : DropsDivisors pass3Drops := by
  intro primes step r1 r2 h
  unfold pass3Drops at h
  dsimp only at h
  split_ifs at h with hflags hfound
  obtain ⟨rfl, rfl⟩ := Prod.mk.inj (Option.some.inj h)
  exact ⟨fun h => findPrimeDiv_spec primes h, fun h => findPrimeDiv_spec primes h, hfound⟩

theorem takePair_apply (primes : Primes) (step : ℕ × ℕ) (r1 r2 x : ℕ) :
    takePair primes step (some (r1, r2)) x
      = if x = r2 then false else if x = r1 then false
        else if x = lowerOf step then true else primes x := by
  simp [takePair, Primes.clear, Primes.set, Function.update_apply]

/-- A later pass does not flag numbers of a set that contains the divisors of the numbers
of each of its pairs, if none of them is flagged before. -/
theorem foldl_takePair_unflagged {drops : Primes → ℕ × ℕ → Option (ℕ × ℕ)}
    (hdrops : DropsDivisors drops) {S : Set ℕ} {primes : Primes} {steps : List (ℕ × ℕ)}
    (hS : ∀ step ∈ steps, lowerOf step ∈ S →
      (∀ r, r ∣ lowerOf step → r ∈ S) ∧ ∀ r, r ∣ upperOf step → r ∈ S)
    (hprimes : ∀ x ∈ S, primes x = false) :
    ∀ x ∈ S, steps.foldl (fun primes step => takePair primes step (drops primes step)) primes x
      = false := by
  induction steps generalizing primes with
  | nil => exact hprimes
  | cons step steps ih =>
    obtain ⟨hstep, hS⟩ := List.forall_mem_cons.mp hS
    refine ih hS fun x hx => ?_
    beta_reduce
    cases hcase : drops primes step with
    | none => exact hprimes x hx
    | some rs =>
      obtain ⟨r1, r2⟩ := rs
      obtain ⟨hr1, hr2, hfound⟩ := hdrops _ _ _ _ hcase
      have hne : x ≠ lowerOf step := by
        rintro rfl
        obtain ⟨hlower, hupper⟩ := hstep hx
        rcases hfound with hfound | hfound
        · obtain ⟨hdvd, hflag⟩ := hr1 hfound
          rw [hprimes r1 (hlower r1 hdvd)] at hflag
          cases hflag
        · obtain ⟨hdvd, hflag⟩ := hr2 hfound
          rw [hprimes r2 (hupper r2 hdvd)] at hflag
          cases hflag
      rw [takePair_apply, if_neg hne, hprimes x hx]
      split_ifs <;> rfl

end CadoNfs
