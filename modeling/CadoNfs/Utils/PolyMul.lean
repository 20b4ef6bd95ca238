import CadoNfs.Utils.PolyMulTc
import Mathlib.RingTheory.Ideal.Quotient.Operations

/-!
# Products of polynomials, and products modulo a polynomial

An element of the ring of the polynomials modulo `F` is a polynomial of smaller degree
with a power of the leading coefficient of `F` as its denominator.  The functions
`poly_mul` and `polymodF_mul` of `poly.c`.

Main results:

- Theorem `polyMul_spec`: the product of two polynomials.
- Theorem `polyReducemodF_spec`: the reduction keeps the element.
- Theorem `polymodFMul_spec`: the product of two elements, or what went wrong.
- Theorem `polymodFMul_iff`: the product over the integers.
-/

namespace CadoNfs.Poly

open Function (update update_of_ne update_self)
open ForRange Polynomial
open Int (eq_ofNat_of_zero_le toNat_add toNat_natCast)

/-! ## Code -/

/-- `poly_mul_mpz`. -/
def polyMulMpz (Q P : PolyT) (a : ℤ) : PolyT :=
  forRange (P.deg + 1).toNat (fun i Q => polySetcoeff Q i (P.coeff i * a)) { Q with deg := P.deg }

/-- `poly_mul`, with `unsigned long` of `w` bits. -/
def polyMul (w : ℕ) (f g h : PolyT) : Except PolyError PolyT :=
  if g.deg = -1 ∨ h.deg = -1 then .ok { f with deg := -1 }
  else if g.deg = 0 then .ok (polyMulMpz f h (g.coeff 0))
  else if h.deg = 0 then .ok (polyMulMpz f g (h.coeff 0))
  else if g.coeff g.deg.toNat = 0 ∨ h.coeff h.deg.toNat = 0 then .error .assertion
  else do
    let maxdeg := g.deg + h.deg
    let prd ← polyMulTc w (polyAlloc maxdeg).coeff g.coeff g.deg h.coeff h.deg
    let f := forRange (maxdeg.toNat + 1)
      (fun t f => polySetcoeff f (maxdeg.toNat - t) (prd.1 (maxdeg.toNat - t))) f
    let f := cleandeg f maxdeg
    if 0 ≤ f.deg ∧ f.coeff f.deg.toNat ≠ 0 then .ok f else .error .assertion

/-- `polymodF_t`: the polynomial `p` over the power `v` of the leading
coefficient. -/
structure PolymodF where
  p : PolyT
  v : ℤ

/-- `poly_normalized_p`. -/
def PolyT.normalizedP (f : PolyT) : Prop :=
  f.deg = -1 ∨ f.coeff f.deg.toNat ≠ 0

instance (f : PolyT) : Decidable f.normalizedP :=
  inferInstanceAs (Decidable (_ ∨ _))

/-- One pass of the loop of `poly_reducemodF`, which takes the last coefficient away. -/
def reduceStep (F : PolyT) (d : ℕ) (p : PolyT) : PolyT :=
  let k := p.deg.toNat
  let c : ℕ → ℤ := if F.coeff d ≠ 1 then
      forRange k (fun i c => update c i (c i * F.coeff d)) p.coeff
    else p.coeff
  let c := forRange d (fun i c => update c (k - d + i) (c (k - d + i) - c k * F.coeff i)) c
  cleandeg { p with coeff := c } (p.deg - 1)

/-- The loop of `poly_reducemodF`.  Every pass makes the degree smaller. -/
def reduceLoop (F : PolyT) (d : ℕ) : ℕ → PolyT → ℤ → PolyT × ℤ
  | 0, p, v => (p, v)
  | fuel + 1, p, v =>
    if p.deg ≥ d then
      reduceLoop F d fuel (reduceStep F d p) (if F.coeff d ≠ 1 then v + 1 else v)
    else (p, v)

/-- `poly_reducemodF`. -/
def polyReducemodF (P : PolymodF) (p F : PolyT) : PolymodF :=
  if p.deg < F.deg then ⟨polyCopy P.p p, 0⟩
  else
    let r := reduceLoop F F.deg.toNat (p.deg + 1).toNat p 0
    ⟨polyCopy P.p r.1, r.2⟩

/-- The sum of two `int`. -/
def addInt (a b : ℤ) : Except PolyError ℤ :=
  if -2 ^ 31 ≤ a + b ∧ a + b < 2 ^ 31 then .ok (a + b) else .error .overflow

/-- `polymodF_mul`.  An allocation of a negative number of bytes fails. -/
def polymodFMul (w : ℕ) (Q P1 P2 : PolymodF) (F : PolyT) : Except PolyError PolymodF :=
  if P1.p.deg + P2.p.deg + 1 < 0 then .error .alloc
  else if P1.p.normalizedP ∧ P2.p.normalizedP then do
    let prd ← polyMul w (polyAlloc (P1.p.deg + P2.p.deg)) P1.p P2.p
    let v ← addInt P1.v P2.v
    let Q := polyReducemodF Q prd F
    let v ← addInt Q.v v
    .ok { Q with v := v }
  else .error .assertion

/-! ## Products -/

/-- The degree is that of the last coefficient; there may be something after it. -/
structure PolyT.Normal (f : PolyT) : Prop where
  neg_one_le : -1 ≤ f.deg
  deg_lt : f.deg < f.alloc
  last_ne : ∀ i : ℕ, f.deg = i → f.coeff i ≠ 0

theorem PolyT.Normal.normalizedP {f : PolyT} (hf : f.Normal) : f.normalizedP := by
  rcases hf.neg_one_le.eq_or_lt with hneg | hpos
  · exact .inl hneg.symm
  · exact .inr (hf.last_ne _ (by omega))

theorem toPoly_eq_zero {f : PolyT} (hf : f.deg = -1) : f.toPoly = 0 := by
  ext i
  rw [coeff_toPoly, hf, if_neg (by omega), coeff_zero]

theorem PolyT.Normal.coeff_toPoly_deg {f : PolyT} {r : ℕ} (hf : f.Normal) (hr : f.deg = r) :
    f.toPoly.coeff r ≠ 0 := by
  rw [coeff_toPoly, if_pos hr.ge]
  exact hf.last_ne r hr

/-- The product with a nonzero integer. -/
theorem polyMulMpz_spec (Q : PolyT) {P : PolyT} (hP : P.Normal) {a : ℤ} (ha : a ≠ 0) :
    (polyMulMpz Q P a).Normal ∧ (polyMulMpz Q P a).deg = P.deg ∧
      (polyMulMpz Q P a).toPoly = P.toPoly * C a := by
  have hloop := forRange_induct
    (motive := fun u (s : PolyT) => s.deg = P.deg ∧ ((u : ℤ) ≤ s.alloc) ∧
      ∀ i < u, s.coeff i = P.coeff i * a)
    (fun i Q => polySetcoeff Q i (P.coeff i * a)) { Q with deg := P.deg } (P.deg + 1).toNat
    ⟨rfl, by simp, fun i hi => absurd hi (Nat.not_lt_zero i)⟩ ?_
  · obtain ⟨hdeg, halloc, hcoeff⟩ := hloop
    have hlt := hP.neg_one_le
    refine ⟨⟨?_, ?_, fun i hi => ?_⟩, hdeg, ?_⟩
    · rw [polyMulMpz, hdeg]
      exact hlt
    · rw [polyMulMpz, hdeg]
      omega
    · rw [polyMulMpz, hdeg] at hi
      rw [polyMulMpz, hcoeff i (by omega)]
      exact mul_ne_zero (hP.last_ne i hi) ha
    · ext i
      rw [coeff_mul_C, coeff_toPoly, coeff_toPoly, polyMulMpz, hdeg]
      split_ifs with hi
      · exact hcoeff i (by omega)
      · rw [zero_mul]
  · rintro u hu s ⟨hdeg, halloc, hcoeff⟩
    refine ⟨?_, ?_, fun i hi => ?_⟩
    · rcases (show (u : ℤ) ≤ P.deg by omega).eq_or_lt with heq | hlt
      · rw [deg_polySetcoeff_of_ne (by omega) (mul_ne_zero (hP.last_ne u heq.symm) ha), heq]
      · rw [deg_polySetcoeff_of_lt (by omega), hdeg]
    · rw [alloc_polySetcoeff]
      omega
    · rw [coeff_polySetcoeff]
      split_ifs with h₁ h₂
      · rw [h₁]
      · omega
      · exact hcoeff i (by omega)

/-- The product, unless it has too many coefficients. -/
theorem polyMul_spec {w : ℕ} (hw : 32 ≤ w) {f g h : PolyT} (hg : g.Normal) (hh : h.Normal)
    (hf : f.deg = -1) (hfits : ∀ t : ℕ, g.deg + h.deg = t → t ≤ maxT → TcFits w t) :
    Ends (fun r => r.Normal ∧ r.deg ≤ max (-1) (g.deg + h.deg) ∧
      r.toPoly = g.toPoly * h.toPoly)
      (fun e => e = .tooLong ∧ (maxT : ℤ) < g.deg + h.deg) (polyMul w f g h) := by
  rw [polyMul]
  by_cases hzero : g.deg = -1 ∨ h.deg = -1
  · rw [if_pos hzero]
    have hprod : g.toPoly * h.toPoly = 0 := by
      rcases hzero with h0 | h0
      · rw [toPoly_eq_zero h0, zero_mul]
      · rw [toPoly_eq_zero h0, mul_zero]
    refine .ok ?_
    refine ⟨⟨le_rfl, ?_, fun i hi => ?_⟩, le_max_left _ _, ?_⟩
    · change (-1 : ℤ) < f.alloc
      omega
    · change (-1 : ℤ) = i at hi
      omega
    · rw [hprod]
      exact toPoly_eq_zero rfl
  rw [if_neg hzero]
  obtain ⟨hgne, hhne⟩ := not_or.mp hzero
  obtain ⟨r, hr⟩ := eq_ofNat_of_zero_le (show 0 ≤ g.deg by have := hg.neg_one_le; omega)
  obtain ⟨s, hs⟩ := eq_ofNat_of_zero_le (show 0 ≤ h.deg by have := hh.neg_one_le; omega)
  have hconst : ∀ {p : PolyT}, p.deg = 0 → p.toPoly = C (p.coeff 0) := fun hp => by
    ext i
    rw [coeff_toPoly, hp, coeff_C]
    rcases Nat.eq_zero_or_pos i with rfl | hi
    · rfl
    · rw [if_neg (by omega), if_neg (by omega)]
  by_cases hg0 : g.deg = 0
  · obtain ⟨hnormal, hdeg, hpoly⟩ := polyMulMpz_spec f hh (hg.last_ne 0 hg0)
    rw [if_pos hg0]
    refine .ok ?_
    refine ⟨hnormal, ?_, ?_⟩
    · rw [hdeg, hg0, zero_add]
      exact le_max_right _ _
    · rw [hpoly, hconst hg0, mul_comm]
  rw [if_neg hg0]
  by_cases hh0 : h.deg = 0
  · obtain ⟨hnormal, hdeg, hpoly⟩ := polyMulMpz_spec f hg (hh.last_ne 0 hh0)
    rw [if_pos hh0]
    refine .ok ?_
    refine ⟨hnormal, ?_, ?_⟩
    · rw [hdeg, hh0, add_zero]
      exact le_max_right _ _
    · rw [hpoly, hconst hh0]
  rw [if_neg hh0, hr, hs, toNat_natCast, toNat_natCast,
    if_neg (not_or.mpr ⟨hg.last_ne r hr, hh.last_ne s hs⟩)]
  by_cases ht : r + s ≤ maxT
  · obtain ⟨c, hrun, hcoeff⟩ := polyMulTc_spec hw hr hs ht
      (hfits (r + s) (by rw [hr, hs]; push_cast; rfl) ht) (polyAlloc ((r : ℤ) + s)).coeff
    have hcast : (r : ℤ) + s = (r + s : ℕ) := (Nat.cast_add r s).symm
    rw [hr, hs, hcast] at hrun
    have htop : c (r + s) ≠ 0 := by
      rw [hcoeff _ le_rfl, coeff_mul_add_eq_of_natDegree_le (natDegree_toPoly_le hr.le)
        (natDegree_toPoly_le hs.le)]
      exact mul_ne_zero (hg.coeff_toPoly_deg hr) (hh.coeff_toPoly_deg hs)
    obtain ⟨q, hq⟩ : ∃ q, q = forRange (r + s + 1)
      (fun t f => polySetcoeff f (r + s - t) (c (r + s - t))) f := ⟨_, rfl⟩
    obtain ⟨hdeg, halloc, hset, -⟩ := setcoeffs_spec (by omega) htop hq
    have hclean : cleandeg q (r + s : ℕ) = q := by
      have hlast : lastNonzero q.coeff (((r + s : ℕ) : ℤ) + 1).toNat = q.deg := by
        rw [hdeg]
        exact lastNonzero_eq (by omega) (by rwa [hset _ le_rfl]) fun j _ _ => by omega
      rw [cleandeg, hlast]
    have hlast : 0 ≤ q.deg ∧ q.coeff q.deg.toNat ≠ 0 := by
      rw [hdeg, toNat_natCast, hset _ le_rfl]
      exact ⟨by omega, htop⟩
    have hpoly : q.toPoly = g.toPoly * h.toPoly := by
      ext i
      rw [coeff_toPoly, hdeg]
      split_ifs with hi
      · rw [hset i (by omega), hcoeff i (by omega)]
      · refine (coeff_eq_zero_of_natDegree_lt (natDegree_mul_le.trans_lt ?_)).symm
        have := natDegree_toPoly_le hr.le
        have := natDegree_toPoly_le hs.le
        omega
    dsimp only
    rw [hcast, hrun]
    change Ends _ _ (if 0 ≤ (cleandeg (forRange (((r + s : ℕ) : ℤ).toNat + 1) _ f) _).deg ∧ _
      then _ else _)
    rw [toNat_natCast, ← hq, hclean, if_pos hlast]
    exact .ok ⟨⟨by omega, by omega, fun i hi => by
      rw [hdeg] at hi; rw [← Int.natCast_inj.mp hi, hset _ le_rfl]; exact htop⟩,
      by rw [hdeg]; exact le_max_right _ _, hpoly⟩
  · have hlong : ¬(r : ℤ) + s ≤ maxT := by exact_mod_cast ht
    dsimp only
    rw [polyMulTc, if_neg (by omega)]
    dsimp only
    rw [if_neg hlong]
    exact .error ⟨rfl, not_le.mp hlong⟩

/-! ## The reduction -/

/-- A ring in which `F` is zero, and its last coefficient is invertible. -/
structure ModF (F : PolyT) (R : Type*) [CommRing R] where
  hom : ℤ[X] →+* R
  inv : R
  hom_eq_zero : hom F.toPoly = 0
  hom_mul_inv : hom (C (F.coeff F.deg.toNat)) * inv = 1

/-- The element that is meant. -/
noncomputable def ModF.value {F : PolyT} {R : Type*} [CommRing R] (m : ModF F R)
    (P : PolymodF) : R :=
  m.hom P.p.toPoly * m.inv ^ P.v.toNat

section Reduction

variable {F p : PolyT} {d k : ℕ}

/-- The coefficients after one step of the division. -/
theorem reduceStep_coeff (hk : p.deg = k) (hd : d ≤ k) (i : ℕ) :
    (reduceStep F d p).coeff i
      = (if F.coeff d ≠ 1 ∧ i < k then p.coeff i * F.coeff d else p.coeff i)
        - (if k - d ≤ i ∧ i < k then p.coeff k * F.coeff (i - (k - d)) else 0) := by
  obtain ⟨c, hc⟩ : ∃ c, c = (if F.coeff d ≠ 1 then
      forRange k (fun i c => update c i (c i * F.coeff d)) p.coeff else p.coeff) :=
    ⟨_, rfl⟩
  have hscale : ∀ i, c i = if F.coeff d ≠ 1 ∧ i < k then p.coeff i * F.coeff d
      else p.coeff i := by
    by_cases hone : F.coeff d ≠ 1
    · rw [if_pos hone] at hc
      have hloop := forRange_induct
        (motive := fun u (c : ℕ → ℤ) => ∀ i, c i = if i < u then p.coeff i * F.coeff d
          else p.coeff i)
        (fun i c => update c i (c i * F.coeff d)) p.coeff k (fun i => by simp) ?_
      · intro i
        rw [hc, hloop i]
        exact if_congr (by simp [hone]) rfl rfl
      · intro u _ c hc i
        by_cases hi : i = u
        · rw [hi, update_self, hc u, if_neg (lt_irrefl u), if_pos (Nat.lt_succ_self u)]
        · rw [update_of_ne hi, hc i]
          exact if_congr (by omega) rfl rfl
    · intro i
      rw [if_neg hone] at hc
      rw [hc, if_neg (fun h => hone h.1)]
  have hck : c k = p.coeff k := by rw [hscale k, if_neg (by omega)]
  have hsub := forRange_induct
    (motive := fun u (c' : ℕ → ℤ) => u ≤ d → ∀ i, c' i = c i
      - if k - d ≤ i ∧ i < k - d + u then p.coeff k * F.coeff (i - (k - d)) else 0)
    (fun i c => update c (k - d + i) (c (k - d + i) - c k * F.coeff i)) c d
    (fun _ i => by rw [if_neg (by omega), sub_zero]) ?_
  · have hrun := hsub le_rfl i
    rw [← hscale i, reduceStep, hk, toNat_natCast]
    dsimp only [cleandeg]
    rw [← hc, hrun]
    rw [show k - d + d = k by omega]
  · intro u hu c' hc' hud j
    have hk' : c' k = c k := by
      rw [hc' (by omega) k, if_neg (by omega), sub_zero]
    by_cases hj : j = k - d + u
    · rw [hj, update_self, hc' (by omega), if_neg (by omega), sub_zero, hk', hck,
        if_pos (by omega), Nat.add_sub_cancel_left]
    · rw [update_of_ne hj, hc' (by omega) j]
      exact congrArg (c j - ·) (if_congr (by omega) rfl rfl)

/-- One step of the division lowers the degree. -/
theorem reduceStep_spec (hp : p.Normal) (hk : p.deg = k) (hF : F.deg = d) (hd : d ≤ k) :
    (reduceStep F d p).Normal ∧ (reduceStep F d p).deg < k ∧
      (reduceStep F d p).toPoly
        = C (F.coeff d) * p.toPoly - C (p.coeff k) * (X ^ (k - d) * F.toPoly) := by
  have hlt : (reduceStep F d p).deg < k := by
    have := lastNonzero_lt (reduceStep F d p).coeff (p.deg - 1 + 1).toNat
    have hdeg : (reduceStep F d p).deg
        = lastNonzero (reduceStep F d p).coeff (p.deg - 1 + 1).toNat := rfl
    omega
  refine ⟨⟨neg_one_le_lastNonzero _ _, ?_, fun i hi => ne_zero_of_lastNonzero_eq hi⟩, hlt, ?_⟩
  · have halloc : (reduceStep F d p).alloc = p.alloc := rfl
    have := hp.deg_lt
    omega
  · ext i
    have hnew : (reduceStep F d p).toPoly.coeff i
        = if i < k then (reduceStep F d p).coeff i else 0 := by
      rw [coeff_toPoly]
      split_ifs with h₁ h₂ h₂
      · rfl
      · omega
      · exact (eq_zero_of_lastNonzero_lt (n := (p.deg - 1 + 1).toNat) (by omega)
          (not_le.mp h₁)).symm
      · rfl
    have hFcoeff : ∀ j, F.toPoly.coeff j = if j ≤ d then F.coeff j else 0 := fun j => by
      rw [coeff_toPoly, hF]
      exact if_congr (by omega) rfl rfl
    have hpcoeff : p.toPoly.coeff i = if i ≤ k then p.coeff i else 0 := by
      rw [coeff_toPoly, hk]
      exact if_congr (by omega) rfl rfl
    have hscale : ∀ x : ℤ, (if F.coeff d ≠ 1 then x * F.coeff d else x) = F.coeff d * x := by
      intro x
      split_ifs with hone
      · exact mul_comm _ _
      · rw [not_not.mp hone, one_mul]
    rw [coeff_sub, coeff_C_mul, coeff_C_mul, coeff_X_pow_mul', hnew, reduceStep_coeff hk hd,
      hFcoeff, hpcoeff]
    rcases lt_trichotomy i k with hi | rfl | hi
    · rw [if_pos hi, if_pos (by omega : i ≤ k), ← hscale]
      refine congrArg₂ (· - ·) (if_congr (by simp [hi]) rfl rfl) ?_
      by_cases hle : k - d ≤ i
      · rw [if_pos ⟨hle, hi⟩, if_pos hle, if_pos (by omega)]
      · rw [if_neg (fun h => hle h.1), if_neg hle, mul_zero]
    · rw [if_neg (lt_irrefl i), if_pos le_rfl, if_pos (Nat.sub_le i d), if_pos (by omega),
        show i - (i - d) = d by omega, mul_comm, sub_self]
    · rw [if_neg (by omega), if_neg (by omega), if_pos (by omega), if_neg (by omega), mul_zero,
        mul_zero, sub_zero]

/-- The loop divides until the degree is below that of `F`. -/
theorem reduceLoop_spec {R : Type*} [CommRing R] (m : ModF F R) (hF : F.deg = d) (hd : 0 < d)
    {fuel : ℕ} {v : ℤ} (hp : p.Normal) (hfuel : p.deg < d + fuel) (hv : 0 ≤ v) :
    ∃ p' v', reduceLoop F d fuel p v = (p', v') ∧ p'.Normal ∧ p'.deg < d ∧ 0 ≤ v' ∧
      m.value ⟨p', v'⟩ = m.value ⟨p, v⟩ ∧ p'.deg.toNat + v' ≤ p.deg.toNat + v := by
  induction fuel generalizing p v with
  | zero => exact ⟨p, v, rfl, hp, by omega, hv, rfl, le_rfl⟩
  | succ fuel ih =>
    rw [reduceLoop]
    split_ifs with hge hone
    · obtain ⟨k, hk⟩ := eq_ofNat_of_zero_le (show 0 ≤ p.deg by omega)
      obtain ⟨hnormal, hlt, hpoly⟩ := reduceStep_spec hp hk hF (by omega)
      have hinv := m.hom_mul_inv
      rw [hF, toNat_natCast] at hinv
      obtain ⟨p', v', hrun, hp', hdeg, hv', hval, hcost⟩ := ih (v := v + 1) hnormal (by omega)
        (by omega)
      refine ⟨p', v', hrun, hp', hdeg, hv', hval.trans ?_, by omega⟩
      -- one more power of the last coefficient in the numerator and in the denominator
      rw [ModF.value, ModF.value]
      dsimp only
      rw [hpoly, map_sub, map_mul, map_mul, map_mul, m.hom_eq_zero, mul_zero, mul_zero, sub_zero,
        toNat_add hv (by decide), Int.toNat_one, pow_succ]
      calc m.hom (C (F.coeff d)) * m.hom p.toPoly * (m.inv ^ v.toNat * m.inv)
          = m.hom p.toPoly * m.inv ^ v.toNat * (m.hom (C (F.coeff d)) * m.inv) := by ring
        _ = m.hom p.toPoly * m.inv ^ v.toNat := by rw [hinv, mul_one]
    · obtain ⟨k, hk⟩ := eq_ofNat_of_zero_le (show 0 ≤ p.deg by omega)
      obtain ⟨hnormal, hlt, hpoly⟩ := reduceStep_spec hp hk hF (by omega)
      obtain ⟨p', v', hrun, hp', hdeg, hv', hval, hcost⟩ := ih hnormal (by omega) hv
      refine ⟨p', v', hrun, hp', hdeg, hv', hval.trans ?_, by omega⟩
      rw [ModF.value, ModF.value]
      dsimp only
      rw [hpoly, not_not.mp hone, C_1, one_mul, map_sub, map_mul, map_mul, m.hom_eq_zero,
        mul_zero, mul_zero, sub_zero]
    · exact ⟨p, v, rfl, hp, by omega, hv, rfl, le_rfl⟩

theorem polyCopy_normal (g : PolyT) {f : PolyT} (hf : f.Normal) :
    (polyCopy g f).Normal ∧ (polyCopy g f).deg = f.deg ∧ g.alloc ≤ (polyCopy g f).alloc ∧
      (polyCopy g f).toPoly = f.toPoly := by
  obtain ⟨hdeg, halloc, hcoeff, -⟩ := polyCopy_spec g hf.neg_one_le hf.last_ne
  have hlow := hf.neg_one_le
  refine ⟨⟨by omega, by omega, fun i hi => ?_⟩, hdeg, by omega, ?_⟩
  · rw [hcoeff i (by omega)]
    exact hf.last_ne i (by omega)
  · ext i
    rw [coeff_toPoly, coeff_toPoly, hdeg]
    split_ifs with hi
    · exact hcoeff i hi
    · rfl

/-- The reduction keeps the element.  Every power in the denominator is paid for by the
degree. -/
theorem polyReducemodF_spec {R : Type*} [CommRing R] (m : ModF F R) (hF : F.deg = d) (hd : 0 < d)
    (P : PolymodF) (hp : p.Normal) :
    (polyReducemodF P p F).p.Normal ∧ (polyReducemodF P p F).p.deg < d ∧
      P.p.alloc ≤ (polyReducemodF P p F).p.alloc ∧ 0 ≤ (polyReducemodF P p F).v ∧
      m.value (polyReducemodF P p F) = m.hom p.toPoly ∧
      (polyReducemodF P p F).p.deg.toNat + (polyReducemodF P p F).v ≤ p.deg.toNat := by
  have hlow := hp.neg_one_le
  rw [polyReducemodF]
  split_ifs with hlt
  · obtain ⟨hnormal, hdeg, halloc, hpoly⟩ := polyCopy_normal P.p hp
    refine ⟨hnormal, by rw [hdeg, ← hF]; exact hlt, halloc, le_rfl, ?_, ?_⟩
    · rw [ModF.value]
      dsimp only
      rw [hpoly, Int.toNat_zero, pow_zero, mul_one]
    · dsimp only
      rw [hdeg, add_zero]
  · have hdNat : F.deg.toNat = d := by rw [hF, toNat_natCast]
    obtain ⟨p', v', hrun, hp', hlt', hv', hval, hcost⟩ := reduceLoop_spec m hF hd hp
      (show p.deg < d + ((p.deg + 1).toNat : ℕ) by omega) le_rfl
    obtain ⟨hnormal, hdeg, halloc, hpoly⟩ := polyCopy_normal P.p hp'
    dsimp only
    rw [hdNat, hrun]
    refine ⟨hnormal, by rw [hdeg]; exact hlt', halloc, hv', ?_, ?_⟩
    · rw [ModF.value] at hval ⊢
      dsimp only at hval ⊢
      rw [hpoly, hval, ModF.value]
      dsimp only
      rw [Int.toNat_zero, pow_zero, mul_one]
    · dsimp only
      rw [hdeg]
      omega

end Reduction

/-! ## Products of elements -/

/-- What `polymodF_mul` takes as the second operand. -/
structure PolymodF.Input (F : PolyT) (P : PolymodF) : Prop where
  normal : P.p.Normal
  deg_le : P.p.deg ≤ max (F.deg - 1) 1
  v_nonneg : 0 ≤ P.v

/-- A reduced element, with at least one coefficient. -/
structure PolymodF.Reduced (F : PolyT) (P : PolymodF) : Prop where
  normal : P.p.Normal
  deg_lt : P.p.deg < F.deg
  v_nonneg : 0 ≤ P.v
  alloc_pos : 0 < P.p.alloc

theorem PolymodF.Reduced.input {F : PolyT} {P : PolymodF} (h : P.Reduced F) : P.Input F :=
  ⟨h.normal, by have := h.deg_lt; omega, h.v_nonneg⟩

/-- The degree and the power in the denominator together. -/
def PolymodF.cost (P : PolymodF) : ℕ := P.p.deg.toNat + P.v.toNat

variable {R : Type*}

/-- When a product of two elements can stop with an error, `r` and `r'` being the
elements and `s` the sum of their costs: zero times zero, more than 14 coefficients, or a
power of `2 ^ 31` in the denominator. -/
def MulError [Zero R] (d : ℕ) (e : PolyError) (r r' : R) (s : ℕ) : Prop :=
  match e with
  | .alloc => r = 0 ∧ r' = 0
  | .tooLong => maxT < s ∧ 8 ≤ d
  | .overflow => 2 ^ 31 ≤ s
  | _ => False

theorem MulError.mono [Zero R] {d s s' : ℕ} {e : PolyError} {r r' : R}
    (h : MulError d e r r' s) (hle : s ≤ s') : MulError d e r r' s' := by
  cases e with
  | tooLong => exact ⟨h.1.trans_le hle, h.2⟩
  | overflow => exact le_trans h hle
  | _ => exact h

/-- The sizes for which the words of `poly_mul_tc_interpolate` are large enough. -/
def WordFits (w d : ℕ) : Prop :=
  w = 64 ∨ (w = 32 ∧ d ≤ 6)

theorem addInt_spec {a b : ℤ} (ha : 0 ≤ a) (hb : 0 ≤ b) :
    addInt a b = .ok (a + b) ∨ (addInt a b = .error .overflow ∧ 2 ^ 31 ≤ a + b) := by
  rw [addInt]
  split_ifs with h
  · exact .inl rfl
  · exact .inr ⟨rfl, by omega⟩

/-- The product is right and reduced, unless the run ends with a named error. -/
theorem polymodFMul_spec [CommRing R] {F : PolyT} (m : ModF F R) {w d : ℕ}
    (hw : WordFits w d) (hF : F.deg = d) (hd : 0 < d) {P1 P2 : PolymodF} (h1 : P1.Reduced F)
    (h2 : P2.Input F) :
    Ends (fun Q => Q.Reduced F ∧ m.value Q = m.value P1 * m.value P2 ∧
      Q.cost ≤ P1.cost + P2.cost)
      (MulError d · (m.value P1) (m.value P2) (P1.cost + P2.cost)) (polymodFMul w P1 P1 P2 F) := by
  have hlow1 := h1.normal.neg_one_le
  have hlow2 := h2.normal.neg_one_le
  have hdeg1 := h1.deg_lt
  have hdeg2 := h2.deg_le
  have hv1 := h1.v_nonneg
  have hv2 := h2.v_nonneg
  rw [polymodFMul]
  by_cases hneg : P1.p.deg + P2.p.deg + 1 < 0
  · rw [if_pos hneg]
    refine .error ?_
    have hzero : ∀ P : PolymodF, P.p.deg = -1 → m.value P = 0 := fun P hP => by
      rw [ModF.value, toPoly_eq_zero hP, map_zero, zero_mul]
    exact ⟨hzero P1 (by omega), hzero P2 (by omega)⟩
  rw [if_neg hneg, if_pos ⟨h1.normal.normalizedP, h2.normal.normalizedP⟩]
  have hfits : ∀ t : ℕ, P1.p.deg + P2.p.deg = t → t ≤ maxT → TcFits w t := by
    intro t ht htmax
    rcases hw with rfl | ⟨rfl, hd6⟩
    · exact tcFits_of_word64 htmax
    · exact tcFits_of_word32 (by omega)
  have hw32 : 32 ≤ w := by
    rcases hw with rfl | ⟨rfl, -⟩ <;> decide
  refine ((polyMul_spec hw32 h1.normal h2.normal (f := polyAlloc (P1.p.deg + P2.p.deg)) rfl
    hfits).mono (fun _ h => h) ?_).bind ?_
  · rintro e ⟨rfl, hlong⟩
    rw [maxT] at hlong
    refine ⟨?_, by omega⟩
    rw [maxT, PolymodF.cost, PolymodF.cost]
    omega
  rintro prd ⟨hnormal, hdeg, hpoly⟩
  obtain ⟨hQ, hQdeg, hQalloc, hQv, hQval, hQcost⟩ := polyReducemodF_spec m hF hd P1 hnormal
  rcases addInt_spec hv1 hv2 with hadd | ⟨hadd, hle⟩
  · rw [hadd]
    change Ends _ _ (addInt _ _ >>= _)
    rcases addInt_spec hQv (add_nonneg hv1 hv2) with hadd' | ⟨hadd', hle'⟩
    · rw [hadd']
      refine .ok ⟨⟨hQ, by rw [hF]; exact hQdeg, by dsimp only; omega,
        h1.alloc_pos.trans_le hQalloc⟩, ?_, ?_⟩
      · rw [ModF.value] at hQval ⊢
        dsimp only
        rw [toNat_add hQv (add_nonneg hv1 hv2), toNat_add hv1 hv2, pow_add, pow_add,
          ← mul_assoc, hQval, hpoly, map_mul, ModF.value, ModF.value]
        ring
      · rw [PolymodF.cost, PolymodF.cost, PolymodF.cost]
        dsimp only
        omega
    · rw [hadd']
      refine .error ?_
      change 2 ^ 31 ≤ P1.cost + P2.cost
      rw [PolymodF.cost, PolymodF.cost]
      omega
  · rw [hadd]
    refine .error ?_
    change 2 ^ 31 ≤ P1.cost + P2.cost
    rw [PolymodF.cost, PolymodF.cost]
    omega

/-! ## Products over the integers -/

section Integers

variable {F p : PolyT} {d w : ℕ}

/-- The loop divides: over the integers, what it leaves is a power of the last coefficient of
`F` times what there was, modulo `F`. -/
theorem reduceLoop_dvd (hF : F.deg = d) (hd : 0 < d) {fuel : ℕ} {v : ℤ} (hp : p.Normal)
    (hfuel : p.deg < d + fuel) :
    ∃ p', ∃ k : ℕ, reduceLoop F d fuel p v = (p', v + k) ∧ p'.Normal ∧ p'.deg < d ∧
      F.toPoly ∣ C (F.coeff d) ^ k * p.toPoly - p'.toPoly ∧ (F.coeff d = 1 → k = 0) ∧
      p'.deg.toNat + k ≤ p.deg.toNat := by
  induction fuel generalizing p v with
  | zero => exact ⟨p, 0, by simp [reduceLoop], hp, by omega, by simp, fun _ => rfl, by omega⟩
  | succ fuel ih =>
    rw [reduceLoop]
    split_ifs with hge hone
    · obtain ⟨n, hn⟩ := eq_ofNat_of_zero_le (show 0 ≤ p.deg by omega)
      obtain ⟨hnormal, hlt, hpoly⟩ := reduceStep_spec hp hn hF (by omega)
      obtain ⟨p', k, hrun, hp', hdeg, ⟨q, hq⟩, -, hcost⟩ := ih (v := v + 1) hnormal (by omega)
      refine ⟨p', k + 1, ?_, hp', hdeg, ?_, fun h => absurd h hone, by omega⟩
      · rw [hrun]
        push_cast
        rw [add_assoc, add_comm 1 (k : ℤ)]
      · refine ⟨q + C (F.coeff d) ^ k * (C (p.coeff n) * X ^ (n - d)), ?_⟩
        rw [mul_add, ← hq, hpoly]
        ring
    · obtain ⟨n, hn⟩ := eq_ofNat_of_zero_le (show 0 ≤ p.deg by omega)
      obtain ⟨hnormal, hlt, hpoly⟩ := reduceStep_spec hp hn hF (by omega)
      obtain ⟨p', k, hrun, hp', hdeg, ⟨q, hq⟩, hk, hcost⟩ := ih hnormal (by omega)
      refine ⟨p', k, hrun, hp', hdeg, ?_, hk, by omega⟩
      refine ⟨q + C (F.coeff d) ^ k * (C (p.coeff n) * X ^ (n - d)), ?_⟩
      rw [mul_add, ← hq, hpoly, not_not.mp hone, C_1]
      ring
    · exact ⟨p, 0, by simp, hp, by omega, by simp, fun _ => rfl, by omega⟩

theorem polyReducemodF_dvd (hF : F.deg = d) (hd : 0 < d) (P : PolymodF) (hp : p.Normal) :
    ∃ p', ∃ k : ℕ, polyReducemodF P p F = ⟨p', k⟩ ∧ p'.Normal ∧ p'.deg < d ∧
      F.toPoly ∣ C (F.coeff d) ^ k * p.toPoly - p'.toPoly ∧ (F.coeff d = 1 → k = 0) ∧
      k ≤ p.deg.toNat := by
  rw [polyReducemodF]
  split_ifs with hlt
  · obtain ⟨hnormal, hdeg, -, hpoly⟩ := polyCopy_normal P.p hp
    exact ⟨_, 0, rfl, hnormal, by omega, by simp [hpoly], fun _ => rfl, Nat.zero_le _⟩
  · have hdNat : F.deg.toNat = d := by rw [hF, toNat_natCast]
    obtain ⟨p', k, hrun, hp', hdeg, hdvd, hk, hcost⟩ := reduceLoop_dvd (v := 0) hF hd hp
      (show p.deg < d + ((p.deg + 1).toNat : ℕ) by omega)
    obtain ⟨hnormal, hdeg', -, hpoly⟩ := polyCopy_normal P.p hp'
    dsimp only
    rw [hdNat, hrun]
    refine ⟨_, k, by rw [zero_add], hnormal, by omega, by rwa [hpoly], hk, by omega⟩

/-- The product of two elements: reduced, and right over the integers, with the exact power of
the last coefficient of `F`. -/
structure MulExact (F : PolyT) (P1 P2 Q : PolymodF) : Prop where
  normal : Q.p.Normal
  deg_lt : Q.p.deg < F.deg
  v_le : P1.v + P2.v ≤ Q.v
  dvd : F.toPoly ∣ C (F.coeff F.deg.toNat) ^ (Q.v - P1.v - P2.v).toNat
    * (P1.p.toPoly * P2.p.toPoly) - Q.p.toPoly
  monic : F.coeff F.deg.toNat = 1 → Q.v = P1.v + P2.v

/-- The product of two elements of a ring modulo `F` is right unless both are zero. -/
theorem polymodFMul_iff {Q P1 P2 : PolymodF} (hF : F.deg = d) (hd : 0 < d) (h1 : P1.p.Normal)
    (h2 : P2.p.Normal) (ht : P1.p.deg + P2.p.deg ≤ maxT)
    (hw : w = 64 ∨ w = 32 ∧ P1.p.deg + P2.p.deg ≤ 11)
    (hv : -2 ^ 31 ≤ P1.v + P2.v ∧ P1.v + P2.v + maxT < 2 ^ 31) :
    (∃ Q', polymodFMul w Q P1 P2 F = .ok Q' ∧ MulExact F P1 P2 Q') ↔
      ¬(P1.p.deg = -1 ∧ P2.p.deg = -1) := by
  have hlow1 := h1.neg_one_le
  have hlow2 := h2.neg_one_le
  constructor
  · rintro ⟨Q', hrun, -⟩ ⟨hz1, hz2⟩
    rw [polymodFMul, if_pos (by omega)] at hrun
    exact absurd hrun (by simp)
  intro hne
  have hfits : ∀ t : ℕ, P1.p.deg + P2.p.deg = t → t ≤ maxT → TcFits w t := by
    intro t ht htmax
    rcases hw with rfl | ⟨rfl, hdeg⟩
    · exact tcFits_of_word64 htmax
    · exact tcFits_of_word32 (by omega)
  have hw32 : 32 ≤ w := by
    rcases hw with rfl | ⟨rfl, -⟩ <;> decide
  obtain ⟨prd, hprd, hnormal, hdeg, hpoly⟩ := (polyMul_spec hw32 h1 h2
    (f := polyAlloc (P1.p.deg + P2.p.deg)) rfl hfits).exists_ok fun e he => by omega
  obtain ⟨p', k, hrun, hp', hlt, hdvd, hk, hcost⟩ := polyReducemodF_dvd hF hd Q hnormal
  have hkmax : k ≤ maxT := by
    rw [maxT] at ht ⊢
    omega
  refine ⟨⟨p', k + (P1.v + P2.v)⟩, ?_, hp', by rw [hF]; exact hlt, by dsimp only; omega, ?_,
    fun hone => ?_⟩
  · rw [polymodFMul, if_neg (by omega), if_pos ⟨h1.normalizedP, h2.normalizedP⟩, hprd]
    have hadd : addInt P1.v P2.v = .ok (P1.v + P2.v) := if_pos (by rw [maxT] at hv; omega)
    have hadd' : addInt k (P1.v + P2.v) = .ok (k + (P1.v + P2.v)) :=
      if_pos (by rw [maxT] at hv hkmax; omega)
    change addInt P1.v P2.v >>= _ = _
    rw [hadd]
    change addInt (polyReducemodF Q prd F).v (P1.v + P2.v) >>= _ = _
    rw [hrun, hadd']
    rfl
  · have hpower : (k + (P1.v + P2.v) - P1.v - P2.v).toNat = k := by omega
    dsimp only
    rw [hpower, hF, toNat_natCast, ← hpoly]
    exact hdvd
  · rw [hF, toNat_natCast] at hone
    rw [hk hone, Nat.cast_zero, zero_add]

/-- The square of `x` modulo `2 * x ^ 2 + 1`. -/
theorem polymodFMul_iff_square :
    let F : PolyT := ⟨3, 2, fun i => if i = 2 then 2 else if i = 0 then 1 else 0⟩
    let x : PolymodF := ⟨⟨2, 1, fun i => if i = 1 then 1 else 0⟩, 0⟩
    (∃ Q', polymodFMul 64 x x x F = .ok Q' ∧ MulExact F x x Q') ↔ ¬((1 : ℤ) = -1 ∧ (1 : ℤ) = -1) :=
  have hx : PolyT.Normal ⟨2, 1, fun i => if i = 1 then 1 else 0⟩ :=
    ⟨by decide, by decide, fun i hi => by simp [← Int.natCast_inj.mp hi]⟩
  polymodFMul_iff (d := 2) rfl (by decide) hx hx (by decide) (.inl rfl) (by decide)

/-- Zero times zero: `poly_alloc` is called with the degree `-2`. -/
theorem not_mulExact_zero :
    let F : PolyT := ⟨3, 2, fun i => if i = 1 then 0 else 1⟩
    let zero : PolymodF := ⟨polyAlloc 1, 0⟩
    ¬∃ Q', polymodFMul 64 zero zero zero F = .ok Q' ∧ MulExact F zero zero Q' := by
  rintro F zero ⟨Q', hrun, -⟩
  have hfail : polymodFMul 64 zero zero zero F = .error .alloc := if_pos (by decide)
  rw [hfail] at hrun
  exact absurd hrun (by simp)

end Integers

end CadoNfs.Poly
