import CadoNfs.Lib.ForRange
import CadoNfs.Lib.SimpleRoots
import CadoNfs.Macros
import CadoNfs.Utils.Mpz

/-!
# Roots modulo prime powers

The program `makefb` lifts the roots of a polynomial from one power of a prime to the
next one, in place.

Main results:

- Theorem `mpPolyEval_eq`: evaluation.
- Theorem `liftRoot_of_simple`: a simple root is lifted.
- Theorem `liftRoots_spec`: what the roots of one power become.
-/

namespace CadoNfs.Makefb

open ForRange Finset SimpleRoots

/-! ## Code -/

/-- `mp_poly_eval`. -/
def mpPolyEval (poly : ℕ → ℤ) (deg : ℕ) (a : ℤ) : ℤ :=
  forRange deg (fun t r => r * a + poly (deg - 1 - t)) (poly deg)

/-- `mp_poly_eval_diff`. -/
def mpPolyEvalDiff (poly : ℕ → ℤ) (deg : ℕ) (a : ℤ) : ℤ :=
  forRange (deg - 1) (fun t r => r * a + poly (deg - 1 - t) * (deg - 1 - t : ℕ)) (poly deg * deg)

/-- `lift_root`, with `some none` for a multiple root; there is a division by zero
when `pk` is zero.  The root is an `unsigned long` that is passed as a
`long`. -/
def liftRoot (f : ℕ → ℤ) (d pk r : ℕ) : Option (Option ℕ) := do
  assertAlways (pk ≠ 0)
  let a : ℤ := (r : ℤ).bmod (2 ^ 64)
  match mpzInvert (mpPolyEvalDiff f d a % pk) pk with
  | none => some none
  | some aux =>
    let aux2 := mpPolyEval f d a % pk
    some (some ((-(aux2 * aux) + r) % pk).toNat)

/-- The loop over the roots, and those that are stored for the power. -/
def liftRoots (f : ℕ → ℤ) (d pk : ℕ) : List ℕ → Option (List ℕ × List ℕ)
  | [] => some ([], [])
  | r :: rest => do
    let lifted ← liftRoot f d pk r
    let (roots, ids) ← liftRoots f d pk rest
    match lifted with
    | none => some (r :: roots, ids)
    | some r' => some (r' :: roots, r' :: ids)

/-! ## Evaluation -/

/-- The polynomial with these coefficients. -/
noncomputable def toPolynomial (f : ℕ → ℤ) (d : ℕ) : Polynomial ℤ :=
  ∑ i ∈ range (d + 1), Polynomial.C (f i) * Polynomial.X ^ i

section Evaluation

variable (f : ℕ → ℤ) (d : ℕ) (a : ℤ)

theorem horner (c : ℕ → ℤ) (n : ℕ) (a : ℤ) :
    forRange n (fun t r => r * a + c (n - 1 - t)) (c n) = ∑ i ∈ range (n + 1), c i * a ^ i := by
  have hloop := forRange_induct
    (motive := fun t r => t ≤ n → r = ∑ j ∈ range (t + 1), c (n - t + j) * a ^ j)
    (fun t r => r * a + c (n - 1 - t)) (c n) n ?_ ?_
  · rw [hloop le_rfl, Nat.sub_self]
    simp
  · intro _
    simp
  · intro t ht r hr _
    rw [hr ht.le, sum_range_succ' _ (t + 1), sum_mul,
      show n - (t + 1) + 0 = n - 1 - t by omega, pow_zero, mul_one]
    refine congrArg (· + _) (sum_congr rfl fun j _ => ?_)
    rw [show n - (t + 1) + (j + 1) = n - t + j by omega, pow_succ, mul_assoc]

/-- The value of the polynomial. -/
theorem mpPolyEval_eq : mpPolyEval f d a = (toPolynomial f d).eval a := by
  rw [mpPolyEval, horner, toPolynomial, Polynomial.eval_finsetSum]
  simp

theorem mpPolyEvalDiff_eq (hd : 1 ≤ d) :
    mpPolyEvalDiff f d a = (toPolynomial f d).derivative.eval a := by
  obtain ⟨n, rfl⟩ := Nat.exists_eq_add_of_le' hd
  have hcode : mpPolyEvalDiff f (n + 1) a
      = forRange n (fun t r => r * a + (fun i => f (i + 1) * (i + 1 : ℕ)) (n - 1 - t))
        (f (n + 1) * (n + 1 : ℕ)) := by
    refine forRange_congr (fun t ht r => ?_) _
    simp only [Nat.add_sub_cancel]
    rw [show n - 1 - t + 1 = n - t by omega]
  rw [hcode, horner fun i => f (i + 1) * (i + 1 : ℕ), toPolynomial, Polynomial.derivative_sum,
    Polynomial.eval_finsetSum, sum_range_succ' _ (n + 1)]
  simp [mul_assoc]

end Evaluation

/-! ## One root -/

section Lift

variable {f : ℕ → ℤ} {d p k r : ℕ}

/-- The derivative does not vanish modulo `p`. -/
def Simple (f : ℕ → ℤ) (d p : ℕ) (r : ℤ) : Prop :=
  ¬(p : ℤ) ∣ (toPolynomial f d).derivative.eval r

theorem bmod_of_lt (hr : r < 2 ^ 63) : (r : ℤ).bmod (2 ^ 64) = r :=
  Int.bmod_eq_of_le (by omega) (by omega)

theorem liftRoot_of_not_simple (hd : 1 ≤ d) (hp : p.Prime) (hr : r < 2 ^ 63)
    (hmultiple : ¬Simple f d p r) : liftRoot f d (p ^ (k + 1)) r = some none := by
  rw [Simple, not_not] at hmultiple
  have hpk : p ∣ p ^ (k + 1) := dvd_pow_self p (Nat.succ_ne_zero k)
  have hinvert := mpzInvert_of_dvd (a := mpPolyEvalDiff f d r % (p ^ (k + 1) : ℕ)) hp
    (by
      rw [mpPolyEvalDiff_eq f d r hd, Int.emod_def]
      exact dvd_sub hmultiple ((Int.natCast_dvd_natCast.mpr hpk).mul_right _)) hpk
  simp only [liftRoot, assertAlways_of_true (pow_pos hp.pos (k + 1)).ne', some_bind, bmod_of_lt hr, hinvert]

/-- A simple root is lifted to the root above it. -/
theorem liftRoot_of_simple (hd : 1 ≤ d) (hp : p.Prime) (hk : 1 ≤ k) (hr : r < 2 ^ 63)
    (hsimple : Simple f d p r) (hroot : (p : ℤ) ^ k ∣ (toPolynomial f d).eval (r : ℤ)) :
    ∃ r', liftRoot f d (p ^ (k + 1)) r = some (some r') ∧ r' < p ^ (k + 1) ∧
      (p : ℤ) ^ (k + 1) ∣ (toPolynomial f d).eval (r' : ℤ) ∧ (p : ℤ) ∣ r' - r := by
  obtain ⟨F, hF⟩ : ∃ F, toPolynomial f d = F := ⟨_, rfl⟩
  obtain ⟨m, hm⟩ : ∃ m, p ^ (k + 1) = m := ⟨_, rfl⟩
  have hmpos : 0 < m := hm ▸ pow_pos hp.pos _
  have hmcast : (m : ℤ) = (p : ℤ) ^ (k + 1) := by rw [← hm, Nat.cast_pow]
  rw [Simple, hF] at hsimple
  rw [hF] at hroot ⊢
  have hcoprime : IsCoprime (F.derivative.eval (r : ℤ) % m) (m : ℤ) := by
    have h : IsCoprime (F.derivative.eval (r : ℤ)) (m : ℤ) := by
      rw [hmcast]
      exact (IsCoprime.pow_left
        ((Nat.prime_iff_prime_int.mp hp).coprime_iff_not_dvd.mpr hsimple)).symm
    rw [Int.emod_def, sub_eq_add_neg, ← mul_neg]
    exact h.add_mul_left_left _
  obtain ⟨v, hinvert⟩ := mpzInvert_of_isCoprime hmpos hcoprime
  have hv : (m : ℤ) ∣ F.derivative.eval (r : ℤ) * v - 1 := by
    have hmod := dvd_of_mpzInvert hinvert
    have hdvd : (m : ℤ) ∣ F.derivative.eval (r : ℤ) - F.derivative.eval (r : ℤ) % m :=
      Int.dvd_self_sub_emod
    have := dvd_add (hdvd.mul_right (v : ℤ)) hmod
    rwa [show (F.derivative.eval (r : ℤ) - F.derivative.eval (r : ℤ) % m) * v
        + (F.derivative.eval (r : ℤ) % m * v - 1) = F.derivative.eval (r : ℤ) * v - 1 by ring]
      at this
  have hmne : (m : ℤ) ≠ 0 := by omega
  obtain ⟨z, hz⟩ : ∃ z, -(F.eval (r : ℤ) % m * v) + r = z := ⟨_, rfl⟩
  have hnat : ((z % m).toNat : ℤ) = z % m := Int.toNat_of_nonneg (Int.emod_nonneg z hmne)
  have hnewton : (m : ℤ) ∣ z % m - (r - F.eval (r : ℤ) * v) := by
    have hz' : (m : ℤ) ∣ z - z % m := Int.dvd_self_sub_emod
    have hvalue : (m : ℤ) ∣ F.eval (r : ℤ) - F.eval (r : ℤ) % m := Int.dvd_self_sub_emod
    have := dvd_sub (hvalue.mul_right (v : ℤ)) hz'
    rwa [show (F.eval (r : ℤ) - F.eval (r : ℤ) % m) * v - (z - z % m)
      = z % m - (r - F.eval (r : ℤ) * v) by rw [← hz]; ring] at this
  refine ⟨(z % m).toNat, ?_, ?_, ?_, ?_⟩
  · simp only [liftRoot, assertAlways_of_true hmpos.ne', some_bind,
      bmod_of_lt hr, mpPolyEvalDiff_eq f d r hd, mpPolyEval_eq, hF, hm, hinvert, hz]
  · have := Int.emod_lt_of_pos z (show (0 : ℤ) < m by omega)
    omega
  · rw [hnat, ← hmcast, dvd_eval_iff F hnewton, hmcast]
    exact dvd_eval_newton hk hroot (hmcast ▸ hv)
  · have hpm : (p : ℤ) ∣ m := hmcast ▸ dvd_pow_self _ (Nat.succ_ne_zero k)
    have hpr : (p : ℤ) ∣ F.eval (r : ℤ) := (dvd_pow_self (p : ℤ) (by omega)).trans hroot
    have := dvd_sub (hpm.trans hnewton) (hpr.mul_right (v : ℤ))
    rw [hnat]
    rwa [show z % m - (r - F.eval (r : ℤ) * v) - F.eval (r : ℤ) * v = z % m - r by ring] at this

end Lift

/-! ## All roots -/

section Roots

open Classical

variable {f : ℕ → ℤ} {d p k : ℕ} {R roots : List ℕ}

/-- The roots of which the simple ones have been lifted to a power of `p`; they come
from the list `R` of all roots. -/
structure Lifted (f : ℕ → ℤ) (d p k : ℕ) (R roots : List ℕ) : Prop where
  map_mod : roots.map (· % p) = R
  lt : ∀ r ∈ roots, r < p ^ k
  dvd : ∀ r ∈ roots, Simple f d p r → (p : ℤ) ^ k ∣ (toPolynomial f d).eval (r : ℤ)

theorem simple_iff {r s : ℤ} (h : (p : ℤ) ∣ r - s) : Simple f d p r ↔ Simple f d p s :=
  not_congr (dvd_eval_iff _ h)

section

variable (hd : 1 ≤ d) (hp : p.Prime) (hk : 1 ≤ k) (hpk : p ^ k ≤ 2 ^ 63)
include hd hp hk hpk

theorem liftRoot_spec {r : ℕ} (hr : r < p ^ k)
    (hroot : Simple f d p r → (p : ℤ) ^ k ∣ (toPolynomial f d).eval (r : ℤ)) :
    ∃ r' : ℕ, liftRoot f d (p ^ (k + 1)) r = some (if Simple f d p r' then some r' else none) ∧
      (¬Simple f d p r' → r' = r) ∧ r' % p = r % p ∧ r' < p ^ (k + 1) ∧
      (Simple f d p r' → (p : ℤ) ^ (k + 1) ∣ (toPolynomial f d).eval (r' : ℤ)) := by
  by_cases hsimple : Simple f d p r
  · obtain ⟨r', hlift, hlt, hdvd, hmod⟩ :=
      liftRoot_of_simple hd hp hk (hr.trans_le hpk) hsimple (hroot hsimple)
    have hsimple' : Simple f d p r' := (simple_iff hmod).mpr hsimple
    exact ⟨r', by rw [hlift, if_pos hsimple'], fun h => absurd hsimple' h,
      (Nat.modEq_iff_dvd.mpr hmod).symm, hlt, fun _ => hdvd⟩
  · refine ⟨r, ?_, fun _ => rfl, rfl, hr.trans_le (Nat.pow_le_pow_right hp.pos k.le_succ),
      fun h => absurd h hsimple⟩
    rw [liftRoot_of_not_simple hd hp (hr.trans_le hpk) hsimple, if_neg hsimple]

/-- What the roots become modulo the next power. -/
theorem liftRoots_spec (h : Lifted f d p k R roots) :
    ∃ roots', liftRoots f d (p ^ (k + 1)) roots
        = some (roots', roots'.filter fun r => Simple f d p r) ∧
      Lifted f d p (k + 1) R roots' := by
  induction roots generalizing R with
  | nil => exact ⟨[], rfl, h.map_mod, nofun, nofun⟩
  | cons r roots ih =>
    obtain ⟨r', hlift, hsame, hmod, hlt, hdvd⟩ := liftRoot_spec hd hp hk hpk
      (h.lt r List.mem_cons_self) (h.dvd r List.mem_cons_self)
    obtain ⟨roots', hrest, hspec⟩ := ih (R := roots.map (· % p))
      ⟨rfl, fun s hs => h.lt s (List.mem_cons_of_mem _ hs),
        fun s hs => h.dvd s (List.mem_cons_of_mem _ hs)⟩
    refine ⟨r' :: roots', ?_, ?_, ?_, ?_⟩
    · by_cases hsimple : Simple f d p r'
      · simp [liftRoots, hlift, hrest, hsimple]
      · obtain rfl := hsame hsimple
        simp [liftRoots, hlift, hrest, hsimple]
    · rw [← h.map_mod, List.map_cons, List.map_cons, hmod, hspec.map_mod]
    · exact List.forall_mem_cons.mpr ⟨hlt, hspec.lt⟩
    · exact List.forall_mem_cons.mpr ⟨hdvd, hspec.dvd⟩

end

end Roots

end CadoNfs.Makefb
