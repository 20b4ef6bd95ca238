import CadoNfs.Lib.BinaryEuclid
import CadoNfs.Utils.UlarithWide
import Mathlib.Algebra.IsPrimePow
import Mathlib.RingTheory.Coprime.Lemmas
import CadoNfs.Macros

/-!
# Roots in the sieved lattice

`fb_root_in_qlattice` of `las.c` transforms a root of a factor base prime to the
coordinates of the lattice that is sieved.  A projective root is stored as its reciprocal, plus
the prime.

Main results:

- Theorem `invmodRedc_spec`: the binary algorithm inverts, up to a power of two.
- Theorem `fbRootInQlattice_spec`: the new root describes the same points.
-/

namespace CadoNfs

open Int (gcd_emod modEq_iff_dvd)

/-! ## Reduction -/

/-- `redc_u32`; `none` is a failed assertion. -/
def redcU32 (x p invp : ℕ) : Option ℕ :=
  let t := x * invp % 2 ^ 32
  let y := (x + t * p) % 2 ^ 64 / 2 ^ 32
  let y := if y ≥ p then y - p else y
  if y < p then some y else none

/-- `redc_32`.  The sum is one of unsigned numbers. -/
def redc32 (x : ℤ) (p invp : ℕ) : Option ℕ :=
  let t := (x * invp % 2 ^ 32).toNat
  let y := ((x + t * p) % 2 ^ 64).toNat / 2 ^ 32
  let y := if y ≥ 2 ^ 31 then (y + p) % 2 ^ 32 else if y ≥ p then y - p else y
  if y < p then some y else none

/-! ## Inversion -/

/-- The innermost loops of `invmod_REDC`: they divide `b` by powers of two and multiply
`u`, for at most `fuel` bytes. -/
def shiftOut : ℕ → ℕ → ℕ → ℕ → Option (ℕ × ℕ × ℕ)
  | 0, _, _, _ => none
  | fuel + 1, b, u, t =>
    let lsh := trailingZeros.getD (b % 256) 0
    let b := b >>> lsh
    let t := t + lsh
    let u := u <<< lsh % 2 ^ 64
    if lsh = 8 then shiftOut fuel b u t else some (b, u, t)

/-- The loop of `invmod_REDC` that subtracts `a` from `b`, and with the names
exchanged the one that subtracts `b` from `a`. -/
def subtractShift : ℕ → ℕ → ℕ → ℕ → ℕ → ℕ → Option (ℕ × ℕ × ℕ × ℕ)
  | 0, _, _, _, _, _ => none
  | fuel + 1, a, b, u, v, t => do
    let b := b - a
    let v := (v + u) % 2 ^ 64
    let (b, u, t) ← shiftOut 8 b u t
    if a < b then subtractShift fuel a b u v t else some (b, u, v, t)

/-- The outer loop of `invmod_REDC`.  The result is `a`, `u` and `t`. -/
def xgcdLoop : ℕ → ℕ → ℕ → ℕ → ℕ → ℕ → Option (ℕ × ℕ × ℕ)
  | 0, _, _, _, _, _ => none
  | fuel + 1, a, b, u, v, t => do
    let (b, u, v, t) ← subtractShift (b + 1) a b u v t
    if a = b then some (a, u, t)
    else do
      let (a, v, u, t) ← subtractShift (a + 1) b a v u t
      if a ≠ b then xgcdLoop fuel a b u v t else some (a, u, t)

/-- `while (t>32)`. -/
def halveTo32 (fix : ℕ) : ℕ → ℕ → ℕ
  | 0, u => u
  | n + 1, u => halveTo32 fix n (u / 2 + if u % 2 = 1 then fix else 0)

/-- `while (t < 32)`. -/
def doubleTo32 (p : ℕ) : ℕ → ℕ → ℕ
  | 0, u => u
  | n + 1, u =>
    let u := u * 2 % 2 ^ 64
    doubleTo32 p n (if p ≤ u then u - p else u)

/-- `invmod_REDC` for an odd `b`.  The inner `none` is the return value 0. -/
def invmodRedc (a b : ℕ) : Option (Option ℕ) :=
  if a = 0 then some none
  else do
    let p := b
    let fix := (b + 1) / 2
    let lsh := ctz 64 a
    let (a, u, t) ← xgcdLoop (a + b) (a >>> lsh) b 1 0 lsh
    if a ≠ 1 then some none
    else some (some (doubleTo32 p (32 - t) (halveTo32 fix (t - 32) u)))

/-- `invmod_po2`. -/
def invmodPo2 (n : BitVec 32) : BitVec 32 :=
  let r := (3#32 * n) ^^^ 2#32
  let r := newtonStepUlong r n
  let r := newtonStepUlong r n
  newtonStepUlong r n

/-! ## Roots -/

/-- The basis of the lattice, in `sieve_info_t`. -/
structure Qlattice where
  a0 : ℤ
  b0 : ℤ
  a1 : ℤ
  b1 : ℤ
  deriving DecidableEq, Repr

/-- `fb_root_in_qlattice` for a power of 2; `none` is a failed assertion. -/
def fbRootPo2 (p R : ℕ) (si : Qlattice) : Option ℕ :=
  let word : ℤ → BitVec 32 := BitVec.ofInt 32
  let (u, v) :=
    if R < p then (word R * word si.b1 - word si.a1, word si.a0 - word R * word si.b0)
    else (word si.b1 - word (R - p) * word si.a1, word (R - p) * word si.a0 - word si.b0)
  if BitVec.ofNat 32 p ≠ BitVec.ofNat 32 p &&& -BitVec.ofNat 32 p then none
  else if v.toNat % 2 ≠ 0 then
    let v := invmodPo2 v
    some ((u * v) &&& BitVec.ofNat 32 (p - 1)).toNat
  else if u.toNat % 2 = 0 then none
  else
    let u := invmodPo2 u
    some (p + ((u * v) &&& BitVec.ofNat 32 (p - 1)).toNat)

/-- `fb_root_in_qlattice`; `none` is a failed assertion or the call of
`exit`. -/
def fbRootInQlattice (p R invp : ℕ) (si : Qlattice) : Option ℕ :=
  if p % 2 = 0 then fbRootPo2 p R si
  else do
    let (aux1, aux2) :=
      if R < p then ((R : ℤ) * si.b1 - si.a1, si.a0 - R * si.b0)
      else (si.b1 - ((R : ℤ) - p) * si.a1, ((R : ℤ) - p) * si.a0 - si.b0)
    let u ← redc32 aux1 p invp
    let v ← redc32 aux2 p invp
    match ← invmodRedc v p with
    | some v => redcU32 (u * v) p invp
    | none =>
      match ← invmodRedc u p with
      | none => none
      | some u => (redcU32 (u * v) p invp).map (· + p)

/-! ## The inverse -/

section Inverse

variable {p a b u v t fuel : ℕ} {x : ℤ}

theorem shiftOut_spec (hb : 0 < b) (hfuel : b < 2 ^ (8 * fuel)) (hu : u * b < 2 ^ 64) :
    ∃ l c, shiftOut fuel b u t = some (c, u * 2 ^ l, t + l) ∧ b = c * 2 ^ l ∧ c % 2 = 1 := by
  induction fuel generalizing b u t with
  | zero => omega
  | succ fuel ih =>
    have hwrap : ∀ l, 2 ^ l ∣ b → u <<< l % 2 ^ 64 = u * 2 ^ l := by
      intro l hl
      rw [Nat.shiftLeft_eq]
      refine Nat.mod_eq_of_lt (lt_of_le_of_lt ?_ hu)
      exact Nat.mul_le_mul_left u (Nat.le_of_dvd hb hl)
    rcases trailingZeros_byte b with ⟨htz, hdvd⟩ | ⟨htz, q, hq⟩
    · have hdiv : b >>> 8 * 2 ^ 8 = b := by
        rw [Nat.shiftRight_eq_div_pow]
        exact Nat.div_mul_cancel hdvd
      have hmul : u * 2 ^ 8 * (b >>> 8) < 2 ^ 64 := by
        rwa [mul_assoc, mul_comm (2 ^ 8), hdiv]
      have hlt : b >>> 8 < 2 ^ (8 * fuel) := by
        rw [show 8 * (fuel + 1) = 8 * fuel + 8 by ring, pow_add] at hfuel
        omega
      obtain ⟨l, c, hrun, hc, hodd⟩ := ih (t := t + 8) (by omega) hlt hmul
      refine ⟨8 + l, c, ?_, ?_, hodd⟩
      · simp only [shiftOut, htz, if_true, hwrap 8 hdvd, hrun, pow_add, mul_assoc, add_assoc]
      · rw [← hdiv, hc, mul_assoc, ← pow_add, add_comm l]
    · set l := trailingZeros.getD (b % 256) 0 with hl
      have hshift : b >>> l = 2 * q + 1 := by
        rw [Nat.shiftRight_eq_div_pow, hq]
        exact Nat.mul_div_cancel _ (by positivity)
      refine ⟨l, 2 * q + 1, ?_, hq, by omega⟩
      simp only [shiftOut, ← hl, if_neg htz.ne, hshift, hwrap l (Dvd.intro_left _ hq.symm)]

section

variable (h : BinaryEuclid p x a b u v t) (hp : p < 2 ^ 63) (ha : a % 2 = 1)
include h hp ha

theorem subtractShift_spec (hab : a < b) (hb : b < 2 ^ 64) (hfuel : b < fuel) :
    ∃ b' u' v' t', subtractShift fuel a b u v t = some (b', u', v', t') ∧
      BinaryEuclid p x a b' u' v' t' ∧ b' % 2 = 1 ∧ b' ≤ a := by
  induction fuel generalizing b u v t with
  | zero => omega
  | succ fuel ih =>
    have hsub := h.subtract hab.le
    have hv := hsub.right_le (by omega)
    have hwrap : (v + u) % 2 ^ 64 = v + u := Nat.mod_eq_of_lt (by omega)
    have hmul : u * (b - a) < 2 ^ 64 := by
      have htotal := hsub.total
      rw [mul_comm (b - a)] at htotal
      omega
    obtain ⟨l, c, hrun, hc, hodd⟩ := shiftOut_spec (t := t) (show 0 < b - a by omega)
      (show b - a < 2 ^ (8 * 8) by omega) hmul
    rw [hc] at hsub
    have hshift := hsub.shift ha
    have hle : c ≤ b - a := by
      rw [hc]
      exact Nat.le_mul_of_pos_right c (by positivity)
    by_cases hac : a < c
    · obtain ⟨b', u', v', t', hrest, hrest'⟩ := ih hshift hac (by omega) (by omega)
      refine ⟨b', u', v', t', ?_, hrest'⟩
      simp only [subtractShift, hrun, hwrap, some_bind, if_pos hac, hrest]
    · refine ⟨c, _, _, _, ?_, hshift, hodd, by omega⟩
      simp only [subtractShift, hrun, hwrap, some_bind, if_neg hac]

theorem xgcdLoop_spec (hb : b % 2 = 1) (hab : a < b) (hb64 : b < 2 ^ 64) (hfuel : a < fuel) :
    ∃ a' u' v' t', xgcdLoop fuel a b u v t = some (a', u', t') ∧
      BinaryEuclid p x a' a' u' v' t' := by
  induction fuel generalizing a b u v t with
  | zero => omega
  | succ fuel ih =>
    obtain ⟨b₁, u₁, v₁, t₁, hrun₁, h₁, hodd₁, hle₁⟩ :=
      subtractShift_spec h hp ha hab hb64 (Nat.lt_succ_self b)
    by_cases heq : a = b₁
    · refine ⟨a, u₁, v₁, t₁, ?_, by rwa [← heq] at h₁⟩
      simp [xgcdLoop, hrun₁, some_bind, if_pos heq]
    · obtain ⟨a₂, v₂, u₂, t₂, hrun₂, h₂, hodd₂, hle₂⟩ :=
        subtractShift_spec h₁.swap hp hodd₁ (by omega) (by omega) (Nat.lt_succ_self a)
      have h₂ := h₂.swap
      rw [neg_neg] at h₂
      by_cases heq₂ : a₂ = b₁
      · refine ⟨a₂, u₂, v₂, t₂, ?_, by rwa [← heq₂] at h₂⟩
        simp [xgcdLoop, hrun₁, hrun₂, some_bind, if_neg heq, heq₂]
      · obtain ⟨a', u', v', t', hrest, hrest'⟩ := ih h₂ hodd₂ hodd₁ (by omega) (by omega) (by omega)
        refine ⟨a', u', v', t', ?_, hrest'⟩
        simp [xgcdLoop, hrun₁, hrun₂, some_bind, if_neg heq, heq₂, hrest]

end

theorem halveTo32_spec {n : ℕ} {c : ℤ} (hp : p % 2 = 1) (hu : u < p)
    (h : x * u ≡ 2 ^ n * c [ZMOD p]) :
    halveTo32 ((p + 1) / 2) n u < p ∧ x * halveTo32 ((p + 1) / 2) n u ≡ c [ZMOD p] := by
  induction n generalizing u with
  | zero => exact ⟨hu, by simpa [halveTo32] using h⟩
  | succ n ih =>
    refine ih ?_ (half_modEq hp ?_)
    · split_ifs <;> omega
    · rwa [pow_succ', mul_assoc] at h

theorem doubleTo32_spec {n : ℕ} {c : ℤ} (hp : p < 2 ^ 63) (hu : u < p)
    (h : x * u ≡ c [ZMOD p]) :
    doubleTo32 p n u < p ∧ x * doubleTo32 p n u ≡ 2 ^ n * c [ZMOD p] := by
  induction n generalizing u c with
  | zero => exact ⟨hu, by simpa [doubleTo32] using h⟩
  | succ n ih =>
    have hwrap : u * 2 % 2 ^ 64 = u * 2 := Nat.mod_eq_of_lt (by omega)
    rw [doubleTo32, hwrap, pow_succ, mul_assoc]
    refine ih ?_ (double_modEq h)
    split_ifs <;> omega

/-- `invmod_REDC` inverts, or says that there is no inverse. -/
theorem invmodRedc_spec (hodd : p % 2 = 1) (hone : 1 < p) (hp : p < 2 ^ 63) (ha : a < p) :
    (Int.gcd a p = 1 → ∃ r < p, invmodRedc a p = some (some r) ∧ (a : ℤ) * r ≡ 2 ^ 32 [ZMOD p]) ∧
      (Int.gcd a p ≠ 1 → invmodRedc a p = some none) := by
  by_cases hzero : a = 0
  · subst hzero
    have hgcd : Int.gcd ((0 : ℕ) : ℤ) p ≠ 1 := by simp; omega
    exact ⟨fun h => absurd h hgcd, fun _ => by simp [invmodRedc]⟩
  · obtain ⟨c, hc, hcodd⟩ := ctz_spec (show 0 < a by omega) (show a < 2 ^ 64 by omega)
    have hshift : a >>> ctz 64 a = c := by
      rw [Nat.shiftRight_eq_div_pow]
      nth_rewrite 1 [hc]
      exact Nat.mul_div_cancel _ (by positivity)
    have hle : c ≤ a := by
      conv_rhs => rw [hc]
      exact Nat.le_mul_of_pos_right c (by positivity)
    have hstart := (BinaryEuclid.start a p).swap
    nth_rewrite 2 [hc] at hstart
    have hstart := (hstart.shift hodd).swap
    rw [neg_neg, zero_mul, zero_add] at hstart
    obtain ⟨g, u, v, t, hrun, h⟩ :=
      xgcdLoop_spec hstart hp hcodd hodd (by omega) (by omega) (show c < a + p by omega)
    have hiff := h.coprime_iff
    refine ⟨fun hgcd => ?_, fun hgcd => ?_⟩
    · obtain rfl := hiff.mpr hgcd
      have hu : u < p := by
        have htotal := h.total
        by_contra hge
        obtain rfl : v = 0 := by omega
        have hright := h.right
        simp only [Nat.cast_zero, mul_zero, Nat.cast_one, one_mul] at hright
        have hdvd : (p : ℤ) ∣ 2 ^ t := by
          have hsub := modEq_iff_dvd.mp hright
          simpa using hsub
        have hdvd' : p ∣ 2 ^ t := by exact_mod_cast hdvd
        have hcop : Nat.Coprime p (2 ^ t) :=
          Nat.Coprime.pow_right t (Nat.odd_iff.mpr hodd).coprime_two_right
        have hpone := Nat.Coprime.eq_one_of_dvd hcop hdvd'
        omega
      have hleft := h.left
      rw [Nat.cast_one, one_mul] at hleft
      have hmain : doubleTo32 p (32 - t) (halveTo32 ((p + 1) / 2) (t - 32) u) < p ∧
          (a : ℤ) * doubleTo32 p (32 - t) (halveTo32 ((p + 1) / 2) (t - 32) u)
            ≡ 2 ^ 32 [ZMOD p] := by
        rcases Nat.le_total t 32 with ht | ht
        · have hdouble := doubleTo32_spec (n := 32 - t) hp hu hleft
          rw [← pow_add, Nat.sub_add_cancel ht] at hdouble
          rwa [Nat.sub_eq_zero_of_le ht]
        · rw [show t = t - 32 + 32 by omega, pow_add] at hleft
          rw [Nat.sub_eq_zero_of_le ht]
          exact halveTo32_spec hodd hu hleft
      refine ⟨_, hmain.1, ?_, hmain.2⟩
      simp [invmodRedc, if_neg hzero, hshift, hrun, some_bind]
    · have hg : g ≠ 1 := fun heq => hgcd (hiff.mp heq)
      simp [invmodRedc, hshift, hrun, some_bind, hg]

theorem invmodPo2_spec {n : BitVec 32} (hodd : n.toNat % 2 ≠ 0) : invmodPo2 n * n = 1#32 := by
  have hstart := start_value_modEq (by omega : 5 ≤ 32) hodd
  have hstep₁ := newtonStepUlong_modEq hstart (by omega)
  have hstep₂ := newtonStepUlong_modEq hstep₁ (by omega)
  have hweak := hstep₂.of_dvd (pow_dvd_pow (2 : ℤ) (by omega : 16 ≤ 5 + 5 + (5 + 5)))
  have hstep₃ := newtonStepUlong_modEq hweak (by omega)
  exact mul_eq_one_of_modEq (by omega) hstep₃

end Inverse

/-! ## The reduction -/

section Reduction

variable {p invp : ℕ}

theorem exists_quotient (hinvp : 2 ^ 32 ∣ invp * p + 1) (x : ℤ) :
    ∃ k : ℤ, x + x * invp % 2 ^ 32 * p = 2 ^ 32 * k := by
  have hdvd : (2 : ℤ) ^ 32 ∣ (invp : ℤ) * p + 1 := by exact_mod_cast hinvp
  have hmod := Int.emod_add_mul_ediv (x * invp) (2 ^ 32)
  obtain ⟨c, hc⟩ := hdvd
  refine ⟨x * c - x * invp / 2 ^ 32 * p, ?_⟩
  have hx : x * invp % 2 ^ 32 = x * invp - 2 ^ 32 * (x * invp / 2 ^ 32) := by omega
  rw [hx, mul_sub, ← mul_assoc, mul_comm _ x, mul_assoc x, ← hc]
  ring

theorem modEq_of_quotient {x k t y : ℤ} (h : x + t * p = 2 ^ 32 * k)
    (hy : y = k ∨ y = k + p ∨ y = k - p) : y * 2 ^ 32 ≡ x [ZMOD p] := by
  refine modEq_iff_dvd.mpr ?_
  rcases hy with rfl | rfl | rfl
  · exact ⟨-t, by linarith⟩
  · exact ⟨-t - 2 ^ 32, by linarith⟩
  · exact ⟨-t + 2 ^ 32, by linarith⟩

/-- One reduction of a signed sum, in its exact range. -/
theorem redc32_spec (hp : 0 < p) (hlt : p < 2 ^ 30) (hinvp : 2 ^ 32 ∣ invp * p + 1) {x : ℤ}
    (hlo : -(2 ^ 32 * p) < x) (hhi : x < 2 ^ 32 * p) :
    ∃ y < p, redc32 x p invp = some y ∧ (y : ℤ) * 2 ^ 32 ≡ x [ZMOD p] := by
  obtain ⟨k, hk⟩ := exists_quotient hinvp x
  have hpos : 0 ≤ x * invp % 2 ^ 32 := Int.emod_nonneg _ (by norm_num)
  have hbound : x * invp % 2 ^ 32 < 2 ^ 32 := Int.emod_lt_of_pos _ (by norm_num)
  set t := x * invp % 2 ^ 32 with ht
  have htp : 0 ≤ t * p := by positivity
  have htp' : t * p ≤ 2 ^ 32 * p - p := by nlinarith
  have htoNat : ((t.toNat : ℕ) : ℤ) = t := Int.toNat_of_nonneg hpos
  rcases lt_or_ge k 0 with hneg | hnonneg
  · have hy : ((x + t * p) % 2 ^ 64).toNat / 2 ^ 32 = (2 ^ 32 + k).toNat := by
      rw [hk]
      omega
    refine ⟨(k + p).toNat, by omega, ?_, ?_⟩
    · have hred : (if (2 ^ 32 + k).toNat ≥ 2 ^ 31 then ((2 ^ 32 + k).toNat + p) % 2 ^ 32
          else if (2 ^ 32 + k).toNat ≥ p then (2 ^ 32 + k).toNat - p else (2 ^ 32 + k).toNat)
          = (k + p).toNat := by
        rw [if_pos (by omega)]
        omega
      simp only [redc32, ← ht, htoNat, hy, hred]
      exact if_pos (by omega)
    · rw [Int.toNat_of_nonneg (by omega)]
      exact modEq_of_quotient hk (by simp)
  · have hy : ((x + t * p) % 2 ^ 64).toNat / 2 ^ 32 = k.toNat := by
      rw [hk]
      omega
    by_cases hge : k.toNat ≥ p
    · refine ⟨k.toNat - p, by omega, ?_, ?_⟩
      · have hred : (if k.toNat ≥ 2 ^ 31 then (k.toNat + p) % 2 ^ 32
            else if k.toNat ≥ p then k.toNat - p else k.toNat) = k.toNat - p := by
          rw [if_neg (by omega), if_pos hge]
        simp only [redc32, ← ht, htoNat, hy, hred]
        exact if_pos (by omega)
      · refine modEq_of_quotient hk ?_
        omega
    · refine ⟨k.toNat, by omega, ?_, ?_⟩
      · have hred : (if k.toNat ≥ 2 ^ 31 then (k.toNat + p) % 2 ^ 32
            else if k.toNat ≥ p then k.toNat - p else k.toNat) = k.toNat := by
          rw [if_neg (by omega), if_neg hge]
        simp only [redc32, ← ht, htoNat, hy, hred]
        exact if_pos (by omega)
      · refine modEq_of_quotient hk ?_
        omega

theorem redcU32_spec (hp : 0 < p) (hlt : p < 2 ^ 31) (hinvp : 2 ^ 32 ∣ invp * p + 1) {x : ℕ}
    (hx : x < 2 ^ 32 * p) :
    ∃ y < p, redcU32 x p invp = some y ∧ (y : ℤ) * 2 ^ 32 ≡ x [ZMOD p] := by
  obtain ⟨k, hk⟩ := exists_quotient hinvp x
  have ht : (x : ℤ) * invp % 2 ^ 32 = ((x * invp % 2 ^ 32 : ℕ) : ℤ) := by push_cast; rfl
  rw [ht] at hk
  have hbound : x * invp % 2 ^ 32 < 2 ^ 32 := Nat.mod_lt _ (by norm_num)
  set t := x * invp % 2 ^ 32 with ht'
  have htp : t * p ≤ 2 ^ 32 * p - p := by
    have hmul := Nat.mul_le_mul_right p (show t ≤ 2 ^ 32 - 1 by omega)
    rwa [Nat.sub_mul, one_mul] at hmul
  have hsum : ((x + t * p : ℕ) : ℤ) = 2 ^ 32 * k := by
    rw [← hk]
    push_cast
    rfl
  have hy : (x + t * p) % 2 ^ 64 / 2 ^ 32 = k.toNat := by omega
  by_cases hge : k.toNat ≥ p
  · refine ⟨k.toNat - p, by omega, ?_, ?_⟩
    · simp only [redcU32, ← ht', hy, if_pos hge]
      exact if_pos (by omega)
    · refine modEq_of_quotient hk ?_
      omega
  · refine ⟨k.toNat, by omega, ?_, ?_⟩
    · simp only [redcU32, ← ht', hy, if_neg hge]
      exact if_pos (by omega)
    · refine modEq_of_quotient hk ?_
      omega

end Reduction

/-! ## The root -/

/-- The points `(x, y)` for a root `R` of `p`, projective if it is at least
`p`. -/
def IsRoot (p R : ℕ) (x y : ℤ) : Prop :=
  if R < p then x ≡ R * y [ZMOD p] else y ≡ ((R : ℤ) - p) * x [ZMOD p]

/-- The numerator of the new root. -/
def Qlattice.num (si : Qlattice) (p R : ℕ) : ℤ :=
  if R < p then R * si.b1 - si.a1 else si.b1 - ((R : ℤ) - p) * si.a1

/-- The denominator of the new root. -/
def Qlattice.den (si : Qlattice) (p R : ℕ) : ℤ :=
  if R < p then si.a0 - R * si.b0 else ((R : ℤ) - p) * si.a0 - si.b0

section Root

variable {p R invp r : ℕ} {si : Qlattice}

theorem isRoot_iff (i j : ℤ) :
    IsRoot p R (i * si.a0 + j * si.a1) (i * si.b0 + j * si.b1)
      ↔ i * si.den p R ≡ j * si.num p R [ZMOD p] := by
  rw [IsRoot, Qlattice.num, Qlattice.den]
  split_ifs with hR
  · rw [modEq_iff_dvd, modEq_iff_dvd]
    rw [show (R : ℤ) * (i * si.b0 + j * si.b1) - (i * si.a0 + j * si.a1)
      = j * (R * si.b1 - si.a1) - i * (si.a0 - R * si.b0) by ring]
  · rw [Int.modEq_comm, modEq_iff_dvd, modEq_iff_dvd]
    rw [show i * si.b0 + j * si.b1 - ((R : ℤ) - p) * (i * si.a0 + j * si.a1)
      = j * (si.b1 - ((R : ℤ) - p) * si.a1) - i * (((R : ℤ) - p) * si.a0 - si.b0) by ring]

theorem Qlattice.dvd_det {q : ℤ} (hnum : q ∣ si.num p R) (hden : q ∣ si.den p R) :
    q ∣ si.a0 * si.b1 - si.a1 * si.b0 := by
  rw [Qlattice.num] at hnum
  rw [Qlattice.den] at hden
  split_ifs at hnum hden with hR
  · have hsum := dvd_add (hden.mul_right si.b1) (hnum.mul_right si.b0)
    rwa [show (si.a0 - R * si.b0) * si.b1 + (R * si.b1 - si.a1) * si.b0
      = si.a0 * si.b1 - si.a1 * si.b0 by ring] at hsum
  · have hsum := dvd_add (hnum.mul_right si.a0) (hden.mul_right si.a1)
    rwa [show (si.b1 - ((R : ℤ) - p) * si.a1) * si.a0 + (((R : ℤ) - p) * si.a0 - si.b0) * si.a1
      = si.a0 * si.b1 - si.a1 * si.b0 by ring] at hsum

theorem modEq_cancel {p x y c : ℤ} (hc : Int.gcd p c = 1) :
    x * c ≡ y * c [ZMOD p] ↔ x ≡ y [ZMOD p] := by
  rw [modEq_iff_dvd, modEq_iff_dvd, ← sub_mul]
  exact ⟨fun h => Int.dvd_of_dvd_mul_left_of_gcd_one h hc, fun h => h.mul_right c⟩

theorem isRoot_of_quotient (hr : r < p) (hgcd : Int.gcd p (si.den p R) = 1)
    (h : (r : ℤ) * si.den p R ≡ si.num p R [ZMOD p]) (i j : ℤ) :
    IsRoot p R (i * si.a0 + j * si.a1) (i * si.b0 + j * si.b1) ↔ IsRoot p r i j := by
  have hj : j * si.num p R ≡ r * j * si.den p R [ZMOD p] := by
    rw [mul_comm (r : ℤ) j, mul_assoc]
    exact (h.mul_left j).symm
  rw [isRoot_iff, IsRoot, if_pos hr, ← modEq_cancel (x := i) hgcd]
  exact ⟨fun hi => hi.trans hj, fun hi => hi.trans hj.symm⟩

theorem isRoot_of_reciprocal (hgcd : Int.gcd p (si.num p R) = 1)
    (h : (r : ℤ) * si.num p R ≡ si.den p R [ZMOD p]) (i j : ℤ) :
    IsRoot p R (i * si.a0 + j * si.a1) (i * si.b0 + j * si.b1) ↔ IsRoot p (r + p) i j := by
  have hi : i * si.den p R ≡ r * i * si.num p R [ZMOD p] := by
    rw [mul_comm (r : ℤ) i, mul_assoc]
    exact (h.mul_left i).symm
  have hsub : ((r + p : ℕ) : ℤ) - p = r := by push_cast; ring
  rw [isRoot_iff, IsRoot, if_neg (by omega), hsub, ← modEq_cancel (x := j) hgcd]
  exact ⟨fun hj => hj.symm.trans hi, fun hj => hi.trans hj.symm⟩

theorem redc_fraction {u v w y : ℕ} {num den : ℤ}
    (hu : (u : ℤ) * 2 ^ 32 ≡ num [ZMOD p]) (hv : (v : ℤ) * 2 ^ 32 ≡ den [ZMOD p])
    (hw : (v : ℤ) * w ≡ 2 ^ 32 [ZMOD p]) (hy : (y : ℤ) * 2 ^ 32 ≡ (u * w : ℕ) [ZMOD p]) :
    (y : ℤ) * den ≡ num [ZMOD p] := by
  calc (y : ℤ) * den ≡ y * (v * 2 ^ 32) [ZMOD p] := (hv.mul_left y).symm
    _ = y * 2 ^ 32 * v := by ring
    _ ≡ (u * w : ℕ) * v [ZMOD p] := hy.mul_right v
    _ = u * (v * w) := by push_cast; ring
    _ ≡ u * 2 ^ 32 [ZMOD p] := hw.mul_left u
    _ ≡ num [ZMOD p] := hu

theorem gcd_of_scaled {v : ℕ} {den : ℤ} (hodd : p % 2 = 1)
    (hv : (v : ℤ) * 2 ^ 32 ≡ den [ZMOD p]) : Int.gcd v p = 1 ↔ Int.gcd p den = 1 := by
  have htwo : IsCoprime ((2 : ℤ) ^ 32) p := by
    have hcop : Nat.Coprime 2 p := ((Nat.odd_iff.mpr hodd).coprime_two_right).symm
    exact (Nat.isCoprime_iff_coprime.mpr hcop).pow_left
  rw [Int.gcd_comm (p : ℤ), ← gcd_emod den, ← hv.eq, gcd_emod, ← Int.isCoprime_iff_gcd_eq_one,
    ← Int.isCoprime_iff_gcd_eq_one, IsCoprime.mul_left_iff]
  exact ⟨fun h => ⟨h, htwo⟩, fun h => h.1⟩

theorem exists_prime_dvd {x : ℤ} (hgcd : Int.gcd p x ≠ 1) :
    ∃ q : ℕ, q.Prime ∧ q ∣ p ∧ (q : ℤ) ∣ x := by
  obtain ⟨q, hq, hdvd⟩ := Nat.exists_prime_and_dvd hgcd
  refine ⟨q, hq, ?_, ?_⟩
  · exact_mod_cast (Int.natCast_dvd_natCast.mpr hdvd).trans (Int.gcd_dvd_left _ _)
  · exact (Int.natCast_dvd_natCast.mpr hdvd).trans (Int.gcd_dvd_right _ _)

theorem coprime_num_of_not_coprime_den (hpow : IsPrimePow p)
    (hdet : IsCoprime (p : ℤ) (si.a0 * si.b1 - si.a1 * si.b0))
    (hden : Int.gcd p (si.den p R) ≠ 1) : Int.gcd p (si.num p R) = 1 := by
  by_contra hnum
  obtain ⟨q, hq, hqp, hqden⟩ := exists_prime_dvd hden
  obtain ⟨q', hq', hqp', hqnum⟩ := exists_prime_dvd hnum
  obtain ⟨c, k, hc, -, rfl⟩ := (isPrimePow_nat_iff p).mp hpow
  obtain rfl := (Nat.prime_dvd_prime_iff_eq hq hc).mp (hq.dvd_of_dvd_pow hqp)
  obtain rfl := (Nat.prime_dvd_prime_iff_eq hq' hc).mp (hq'.dvd_of_dvd_pow hqp')
  have hdvd := hdet.isUnit_of_dvd' (Int.natCast_dvd_natCast.mpr hqp)
    (Qlattice.dvd_det hqnum hqden)
  exact hq.one_lt.ne' (by simpa [Int.isUnit_iff_natAbs_eq] using hdvd)

theorem Qlattice.num_den_bounds (hR : R < 2 * p)
    (hsi : ∀ x ∈ [si.a0, si.b0, si.a1, si.b1], -2 ^ 31 ≤ x ∧ x < 2 ^ 31) :
    ∀ x ∈ [si.num p R, si.den p R], -(2 ^ 31 * p) ≤ x ∧ x ≤ 2 ^ 31 * p := by
  simp only [List.forall_mem_cons, List.not_mem_nil, false_imp_iff, implies_true, and_true] at hsi ⊢
  obtain ⟨⟨ha0, ha0'⟩, ⟨hb0, hb0'⟩, ⟨ha1, ha1'⟩, ⟨hb1, hb1'⟩⟩ := hsi
  have key : ∀ s x y : ℤ, 0 ≤ s → s ≤ p - 1 → -2 ^ 31 ≤ x → x < 2 ^ 31 → -2 ^ 31 ≤ y → y < 2 ^ 31 →
      -(2 ^ 31 * (p : ℤ)) ≤ s * x - y ∧ s * x - y ≤ 2 ^ 31 * p := by
    intro s x y hs hs' hx hx' hy hy'
    have hlo : s * -2 ^ 31 ≤ s * x := mul_le_mul_of_nonneg_left hx hs
    have hhi : s * x ≤ s * (2 ^ 31) := mul_le_mul_of_nonneg_left hx'.le hs
    constructor <;> linarith
  rw [Qlattice.num, Qlattice.den]
  split_ifs with hRp
  · obtain ⟨h1, h2⟩ := key R si.b1 si.a1 (by omega) (by omega) hb1 hb1' ha1 ha1'
    obtain ⟨h3, h4⟩ := key R si.b0 si.a0 (by omega) (by omega) hb0 hb0' ha0 ha0'
    exact ⟨⟨h1, h2⟩, by linarith, by linarith⟩
  · obtain ⟨h1, h2⟩ := key (R - p) si.a1 si.b1 (by omega) (by omega) ha1 ha1' hb1 hb1'
    obtain ⟨h3, h4⟩ := key (R - p) si.a0 si.b0 (by omega) (by omega) ha0 ha0' hb0 hb0'
    exact ⟨⟨by linarith, by linarith⟩, h3, h4⟩

/-- The root in the coordinates of the lattice, for odd moduli. -/
theorem fbRootInQlattice_odd (hpow : IsPrimePow p) (hodd : p % 2 = 1) (hlt : p < 2 ^ 30)
    (hinvp : 2 ^ 32 ∣ invp * p + 1) (hR : R < 2 * p)
    (hsi : ∀ x ∈ [si.a0, si.b0, si.a1, si.b1], -2 ^ 31 ≤ x ∧ x < 2 ^ 31)
    (hdet : IsCoprime (p : ℤ) (si.a0 * si.b1 - si.a1 * si.b0)) :
    ∃ r, fbRootInQlattice p R invp si = some r ∧ r < 2 * p ∧
      ∀ i j : ℤ, IsRoot p R (i * si.a0 + j * si.a1) (i * si.b0 + j * si.b1) ↔ IsRoot p r i j := by
  have hone := hpow.one_lt
  have hbounds := Qlattice.num_den_bounds hR hsi
  simp only [List.forall_mem_cons, List.not_mem_nil, false_imp_iff, implies_true, and_true] at hbounds
  obtain ⟨⟨hnum, hnum'⟩, hden, hden'⟩ := hbounds
  obtain ⟨u, hu, hurun, hucongr⟩ :=
    redc32_spec (x := si.num p R) (by omega) hlt hinvp (by omega) (by omega)
  obtain ⟨v, hv, hvrun, hvcongr⟩ :=
    redc32_spec (x := si.den p R) (by omega) hlt hinvp (by omega) (by omega)
  obtain ⟨hvinv, hvnot⟩ := invmodRedc_spec hodd hone (by omega) hv
  obtain ⟨huinv, -⟩ := invmodRedc_spec hodd hone (by omega) hu
  have haux : (if R < p then ((R : ℤ) * si.b1 - si.a1, si.a0 - R * si.b0)
      else (si.b1 - ((R : ℤ) - p) * si.a1, ((R : ℤ) - p) * si.a0 - si.b0))
      = (si.num p R, si.den p R) := by
    rw [Qlattice.num, Qlattice.den]
    split_ifs <;> rfl
  have hprod : ∀ x < p, ∀ y < p, x * y < 2 ^ 32 * p := by
    intro x hx y hy
    calc x * y < p * p := Nat.mul_lt_mul'' hx hy
      _ ≤ 2 ^ 32 * p := Nat.mul_le_mul_right p (by omega)
  by_cases hgcd : Int.gcd v p = 1
  · obtain ⟨w, hw, hwrun, hwcongr⟩ := hvinv hgcd
    obtain ⟨y, hy, hyrun, hycongr⟩ := redcU32_spec (by omega) (by omega) hinvp (hprod u hu w hw)
    refine ⟨y, ?_, by omega, isRoot_of_quotient hy ((gcd_of_scaled hodd hvcongr).mp hgcd)
      (redc_fraction hucongr hvcongr hwcongr hycongr)⟩
    rw [fbRootInQlattice, if_neg (by omega), haux]
    simp [hurun, hvrun, hwrun, hyrun, some_bind]
  · have hnumgcd := coprime_num_of_not_coprime_den hpow hdet
      fun h => hgcd ((gcd_of_scaled hodd hvcongr).mpr h)
    obtain ⟨w, hw, hwrun, hwcongr⟩ := huinv ((gcd_of_scaled hodd hucongr).mpr hnumgcd)
    obtain ⟨y, hy, hyrun, hycongr⟩ := redcU32_spec (by omega) (by omega) hinvp (hprod w hw v hv)
    rw [mul_comm w v] at hycongr
    refine ⟨y + p, ?_, by omega, isRoot_of_reciprocal hnumgcd
      (redc_fraction hvcongr hucongr hwcongr hycongr)⟩
    rw [fbRootInQlattice, if_neg (by omega), haux]
    simp [hurun, hvrun, hvnot hgcd, hwrun, hyrun, some_bind]

theorem toNat_ofInt_modEq (x : ℤ) : ((BitVec.ofInt 32 x).toNat : ℤ) ≡ x [ZMOD 2 ^ 32] := by
  rw [BitVec.toNat_ofInt, Int.toNat_of_nonneg (Int.emod_nonneg _ (by norm_num))]
  exact Int.mod_modEq _ _

theorem po2_fraction {k : ℕ} (hk : k ≤ 32) {u v : BitVec 32} {num den : ℤ}
    (hu : (u.toNat : ℤ) ≡ num [ZMOD 2 ^ 32]) (hv : (v.toNat : ℤ) ≡ den [ZMOD 2 ^ 32])
    (hodd : v.toNat % 2 ≠ 0) :
    ((u * invmodPo2 v) &&& BitVec.ofNat 32 (2 ^ k - 1)).toNat < 2 ^ k ∧
      (((u * invmodPo2 v) &&& BitVec.ofNat 32 (2 ^ k - 1)).toNat : ℤ) * den
        ≡ num [ZMOD 2 ^ k] := by
  have hdvd : (2 : ℤ) ^ k ∣ 2 ^ 32 := pow_dvd_pow 2 hk
  have hmask : ((u * invmodPo2 v) &&& BitVec.ofNat 32 (2 ^ k - 1)).toNat
      = (u * invmodPo2 v).toNat % 2 ^ k := by
    have hle : 2 ^ k ≤ 2 ^ 32 := Nat.pow_le_pow_right (by norm_num) hk
    have hpos : 0 < 2 ^ k := by positivity
    rw [BitVec.toNat_and, BitVec.toNat_ofNat, Nat.mod_eq_of_lt (by omega),
      Nat.and_two_pow_sub_one_eq_mod]
  rw [hmask]
  refine ⟨Nat.mod_lt _ (by positivity), ?_⟩
  have hcancel : u * invmodPo2 v * v = u := by
    rw [BitVec.mul_assoc, invmodPo2_spec hodd, BitVec.mul_one]
  have hprod := toNat_mul_modEq (u * invmodPo2 v) v
  rw [hcancel] at hprod
  have hmod : (((u * invmodPo2 v).toNat % 2 ^ k : ℕ) : ℤ) ≡ (u * invmodPo2 v).toNat [ZMOD 2 ^ k] := by
    push_cast
    exact Int.mod_modEq _ _
  calc (((u * invmodPo2 v).toNat % 2 ^ k : ℕ) : ℤ) * den
      ≡ (u * invmodPo2 v).toNat * v.toNat [ZMOD 2 ^ k] := hmod.mul (hv.of_dvd hdvd).symm
    _ ≡ u.toNat [ZMOD 2 ^ k] := (hprod.of_dvd hdvd).symm
    _ ≡ num [ZMOD 2 ^ k] := hu.of_dvd hdvd

theorem gcd_two_pow {k : ℕ} (hk : 0 < k) {v : ℕ} {den : ℤ} (hv : (v : ℤ) ≡ den [ZMOD 2 ^ 32]) :
    v % 2 ≠ 0 ↔ Int.gcd (2 ^ k : ℕ) den = 1 := by
  have htwo : (v : ℤ) ≡ den [ZMOD 2] := hv.of_dvd (by norm_num)
  have hmod : (v : ℤ) % 2 = den % 2 := htwo
  rw [← Int.isCoprime_iff_gcd_eq_one, Nat.cast_pow, IsCoprime.pow_left_iff hk, Nat.cast_ofNat,
    Int.isCoprime_iff_gcd_eq_one, Int.gcd_comm, ← gcd_emod]
  rcases Int.emod_two_eq_zero_or_one den with h | h <;> rw [h]
  · simp
    omega
  · simp
    omega

/-- For a power of two the result is the root in the coordinates of the lattice. -/
theorem fbRootInQlattice_po2 (hpow : IsPrimePow p) (heven : p % 2 = 0) (hlt : p < 2 ^ 30)
    (hR : R < 2 * p) (hdet : IsCoprime (p : ℤ) (si.a0 * si.b1 - si.a1 * si.b0)) :
    ∃ r, fbRootInQlattice p R invp si = some r ∧ r < 2 * p ∧
      ∀ i j : ℤ, IsRoot p R (i * si.a0 + j * si.a1) (i * si.b0 + j * si.b1) ↔ IsRoot p r i j := by
  have hcoprime := coprime_num_of_not_coprime_den (R := R) hpow hdet
  obtain ⟨c, k, hc, hk, rfl⟩ := (isPrimePow_nat_iff p).mp hpow
  obtain rfl : 2 = c := by
    refine (Nat.prime_dvd_prime_iff_eq Nat.prime_two hc).mp ?_
    exact Nat.prime_two.dvd_of_dvd_pow (Nat.dvd_of_mod_eq_zero heven)
  have hk30 : k < 30 := (Nat.pow_lt_pow_iff_right (by norm_num)).mp hlt
  have hassert : BitVec.ofNat 32 (2 ^ k) = BitVec.ofNat 32 (2 ^ k) &&& -BitVec.ofNat 32 (2 ^ k) := by
    have htable : ∀ k < 30, BitVec.ofNat 32 (2 ^ k)
        = BitVec.ofNat 32 (2 ^ k) &&& -BitVec.ofNat 32 (2 ^ k) := by decide
    exact htable k hk30
  obtain ⟨u, v, huv, hu, hv⟩ : ∃ u v : BitVec 32,
      (let word : ℤ → BitVec 32 := BitVec.ofInt 32
        if R < 2 ^ k then (word R * word si.b1 - word si.a1, word si.a0 - word R * word si.b0)
        else (word si.b1 - word (R - (2 ^ k : ℕ)) * word si.a1,
          word (R - (2 ^ k : ℕ)) * word si.a0 - word si.b0)) = (u, v) ∧
      (u.toNat : ℤ) ≡ si.num (2 ^ k) R [ZMOD 2 ^ 32] ∧
      (v.toNat : ℤ) ≡ si.den (2 ^ k) R [ZMOD 2 ^ 32] := by
    have hmul : ∀ x y : ℤ, ((BitVec.ofInt 32 x * BitVec.ofInt 32 y).toNat : ℤ) ≡ x * y
        [ZMOD 2 ^ 32] := fun x y =>
      (toNat_mul_modEq _ _).trans ((toNat_ofInt_modEq x).mul (toNat_ofInt_modEq y))
    have hsub : ∀ a b : BitVec 32, ∀ x y : ℤ, (a.toNat : ℤ) ≡ x [ZMOD 2 ^ 32] →
        (b.toNat : ℤ) ≡ y [ZMOD 2 ^ 32] → ((a - b).toNat : ℤ) ≡ x - y [ZMOD 2 ^ 32] :=
      fun a b x y ha hb => (toNat_sub_modEq a b).trans (ha.sub hb)
    rw [Qlattice.num, Qlattice.den]
    split_ifs with hRp
    · exact ⟨_, _, rfl, hsub _ _ _ _ (hmul _ _) (toNat_ofInt_modEq _),
        hsub _ _ _ _ (toNat_ofInt_modEq _) (hmul _ _)⟩
    · exact ⟨_, _, rfl, hsub _ _ _ _ (toNat_ofInt_modEq _) (hmul _ _),
        hsub _ _ _ _ (hmul _ _) (toNat_ofInt_modEq _)⟩
  by_cases hodd : v.toNat % 2 ≠ 0
  · obtain ⟨hrlt, hr⟩ := po2_fraction (k := k) (by omega) hu hv hodd
    refine ⟨_, ?_, by omega, isRoot_of_quotient hrlt ((gcd_two_pow hk hv).mp hodd)
      (by exact_mod_cast hr)⟩
    rw [fbRootInQlattice, if_pos heven, fbRootPo2]
    simp only [huv, ← hassert, ne_eq, not_true_eq_false, if_false]
    rw [if_pos hodd]
  · have hnumgcd := hcoprime fun h => hodd ((gcd_two_pow hk hv).mpr h)
    have huodd := (gcd_two_pow hk hu).mpr hnumgcd
    obtain ⟨hrlt, hr⟩ := po2_fraction (k := k) (by omega) hv hu huodd
    rw [BitVec.mul_comm v] at hrlt hr
    refine ⟨_ + 2 ^ k, ?_, ?_, isRoot_of_reciprocal hnumgcd (by exact_mod_cast hr)⟩
    · rw [fbRootInQlattice, if_pos heven, fbRootPo2]
      simp only [huv, ← hassert, ne_eq, not_true_eq_false, if_false]
      rw [if_neg hodd, if_neg huodd, add_comm]
    · omega

/-- A root is transformed to the coordinates of the lattice, and the call of `exit` is never
reached. -/
theorem fbRootInQlattice_spec (hpow : IsPrimePow p) (hlt : p < 2 ^ 30)
    (hinvp : p % 2 = 1 → 2 ^ 32 ∣ invp * p + 1) (hR : R < 2 * p)
    (hsi : ∀ x ∈ [si.a0, si.b0, si.a1, si.b1], -2 ^ 31 ≤ x ∧ x < 2 ^ 31)
    (hdet : IsCoprime (p : ℤ) (si.a0 * si.b1 - si.a1 * si.b0)) :
    ∃ r, fbRootInQlattice p R invp si = some r ∧ r < 2 * p ∧
      ∀ i j : ℤ, IsRoot p R (i * si.a0 + j * si.a1) (i * si.b0 + j * si.b1) ↔ IsRoot p r i j := by
  rcases Nat.mod_two_eq_zero_or_one p with heven | hodd
  · exact fbRootInQlattice_po2 hpow heven hlt hR hdet
  · exact fbRootInQlattice_odd hpow hodd hlt (hinvp hodd) hR hsi hdet

/-- The root 5 of 7 in a skewed basis. -/
theorem fbRootInQlattice_spec_seven :
    ∃ r, fbRootInQlattice 7 5 1227133513 ⟨100, 3, -20, 7⟩ = some r ∧ r < 2 * 7 ∧
      ∀ i j : ℤ, IsRoot 7 5 (i * 100 + j * -20) (i * 3 + j * 7) ↔ IsRoot 7 r i j :=
  fbRootInQlattice_spec (Nat.Prime.isPrimePow (by decide)) (by decide) (fun _ => by decide)
    (by decide) (by decide) ⟨-217, 2, by norm_num⟩

end Root

end CadoNfs
