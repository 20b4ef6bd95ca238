import Mathlib.Algebra.Polynomial.Eval.Defs
import Mathlib.Algebra.Polynomial.Coeff
import CadoNfs.Lib.ForRange

/-!
# Polynomials

The type `poly_t` has an array of coefficients and a degree, which `-1` stands
for in the zero polynomial.

Main results:

- Theorem `coeff_toPoly`: the coefficients of the polynomial that is meant.
- Theorem `cleandeg_spec`: the degree that `cleandeg` sets.
- Theorem `setcoeffs_spec`: all coefficients are set, from the last one on.
- Theorem `polyCopy_spec`: a copy.
-/

namespace CadoNfs.Poly

open ForRange Finset

/-! ## Code -/

/-- `poly_t`. -/
structure PolyT where
  alloc : ℕ
  deg : ℤ
  coeff : ℕ → ℤ

/-- `poly_alloc`. -/
def polyAlloc (d : ℤ) : PolyT :=
  ⟨(d + 1).toNat, -1, fun _ => 0⟩

/-- The last of the first `n` coefficients that is not zero, or `-1`. -/
def lastNonzero (coeff : ℕ → ℤ) : ℕ → ℤ
  | 0 => -1
  | n + 1 => if coeff n = 0 then lastNonzero coeff n else n

variable (f : PolyT)

/-- `cleandeg`. -/
def cleandeg (deg : ℤ) : PolyT :=
  { f with deg := lastNonzero f.coeff (deg + 1).toNat }

variable (i : ℕ) (z : ℤ)

/-- `poly_setcoeff`. -/
def polySetcoeff : PolyT :=
  let f : PolyT := if f.alloc ≤ i then
      { f with alloc := i + 1, coeff := fun j => if j < f.alloc then f.coeff j else 0 }
    else f
  let f : PolyT := { f with coeff := Function.update f.coeff i z }
  if f.deg ≤ i then cleandeg f i else f

/-- `poly_copy`. -/
def polyCopy (g f : PolyT) : PolyT :=
  let n := (f.deg + 1).toNat
  forRange n (fun t g => polySetcoeff g (n - 1 - t) (f.coeff (n - 1 - t))) { g with deg := f.deg }

/-! ## Degrees -/

section Degrees

variable {c : ℕ → ℤ} {n : ℕ}

theorem lastNonzero_lt (c : ℕ → ℤ) (n : ℕ) : lastNonzero c n < n := by
  induction n with
  | zero => exact Int.negSucc_lt_zero 0
  | succ n ih =>
    rw [lastNonzero]
    split_ifs <;> push_cast <;> omega

theorem neg_one_le_lastNonzero (c : ℕ → ℤ) (n : ℕ) : -1 ≤ lastNonzero c n := by
  induction n with
  | zero => exact le_rfl
  | succ n ih =>
    rw [lastNonzero]
    split_ifs <;> omega

theorem eq_zero_of_lastNonzero_lt {i : ℕ} (hi : i < n) (h : lastNonzero c n < i) : c i = 0 := by
  induction n with
  | zero => exact absurd hi (Nat.not_lt_zero i)
  | succ n ih =>
    rw [lastNonzero] at h
    split_ifs at h with hn
    · rcases Nat.lt_succ_iff_lt_or_eq.mp hi with hlt | rfl
      · exact ih hlt h
      · exact hn
    · omega

theorem ne_zero_of_lastNonzero_eq {i : ℕ} (h : lastNonzero c n = i) : c i ≠ 0 := by
  induction n with
  | zero => exact absurd h (by rw [lastNonzero]; omega)
  | succ n ih =>
    rw [lastNonzero] at h
    split_ifs at h with hn
    · exact ih h
    · rwa [← Int.natCast_inj.mp h]

theorem lastNonzero_eq {i : ℕ} (hi : i < n) (hne : c i ≠ 0)
    (hzero : ∀ j, i < j → j < n → c j = 0) : lastNonzero c n = i := by
  induction n with
  | zero => exact absurd hi (Nat.not_lt_zero i)
  | succ n ih =>
    rw [lastNonzero]
    rcases Nat.lt_succ_iff_lt_or_eq.mp hi with hlt | rfl
    · rw [if_pos (hzero n hlt (Nat.lt_succ_self n))]
      exact ih hlt fun j hj hj' => hzero j hj (Nat.lt_succ_of_lt hj')
    · rw [if_neg hne]

theorem lastNonzero_eq_neg_one_iff : lastNonzero c n = -1 ↔ ∀ i < n, c i = 0 := by
  constructor
  · exact fun h i hi => eq_zero_of_lastNonzero_lt hi (by omega)
  · intro h
    have := neg_one_le_lastNonzero c n
    have hlt := lastNonzero_lt c n
    by_contra hne
    obtain ⟨i, hi⟩ := Int.eq_ofNat_of_zero_le (show 0 ≤ lastNonzero c n by omega)
    exact ne_zero_of_lastNonzero_eq hi (h i (by omega))

end Degrees

/-! ## Polynomials that are meant -/

/-- The polynomial that is meant. -/
noncomputable def PolyT.toPoly : Polynomial ℤ :=
  ∑ i ∈ range (f.deg + 1).toNat, Polynomial.monomial i (f.coeff i)

theorem coeff_toPoly : f.toPoly.coeff i = if (i : ℤ) ≤ f.deg then f.coeff i else 0 := by
  simp only [PolyT.toPoly, Polynomial.finsetSum_coeff, Polynomial.coeff_monomial,
    Finset.sum_ite_eq', mem_range]
  exact if_congr (by omega) rfl rfl

/-- The degree is that of the last coefficient, and no coefficient is after it. -/
structure PolyT.Clean (f : PolyT) : Prop where
  neg_one_le : -1 ≤ f.deg
  deg_lt : f.deg < f.alloc
  last_ne : ∀ i : ℕ, f.deg = i → f.coeff i ≠ 0
  after : ∀ i : ℕ, f.deg < i → f.coeff i = 0

theorem PolyT.Clean.coeff_toPoly {f : PolyT} (hf : f.Clean) (i : ℕ) :
    f.toPoly.coeff i = f.coeff i := by
  rw [Poly.coeff_toPoly]
  split_ifs with hi
  · rfl
  · exact (hf.after i (by omega)).symm

/-- A degree that bounds the coefficients is made the last one. -/
theorem cleandeg_spec {f : PolyT} {deg : ℤ} (hdeg : deg < f.alloc)
    (hafter : ∀ i : ℕ, deg < i → f.coeff i = 0) : (cleandeg f deg).Clean where
  neg_one_le := neg_one_le_lastNonzero f.coeff _
  deg_lt := by
    have := lastNonzero_lt f.coeff (deg + 1).toNat
    show lastNonzero f.coeff (deg + 1).toNat < (f.alloc : ℤ)
    omega
  last_ne := fun i hi => ne_zero_of_lastNonzero_eq hi
  after := fun i hi => by
    by_cases hle : (i : ℤ) ≤ deg
    · exact eq_zero_of_lastNonzero_lt (n := (deg + 1).toNat) (by omega) hi
    · exact hafter i (by omega)

/-! ## Copies -/

theorem alloc_polySetcoeff : (polySetcoeff f i z).alloc = max f.alloc (i + 1) := by
  simp only [polySetcoeff, cleandeg]
  split_ifs <;> simp only [] <;> omega

theorem coeff_polySetcoeff (j : ℕ) : (polySetcoeff f i z).coeff j
      = if j = i then z else if f.alloc ≤ i ∧ f.alloc ≤ j then 0 else f.coeff j := by
  simp only [polySetcoeff, cleandeg]
  split_ifs <;> simp_all

theorem deg_polySetcoeff_of_lt {f : PolyT} {i : ℕ} (hi : i < f.deg) (z : ℤ) :
    (polySetcoeff f i z).deg = f.deg := by
  simp only [polySetcoeff]
  split_ifs <;> simp_all <;> omega

theorem deg_polySetcoeff_of_ne {f : PolyT} {i : ℕ} (hi : f.deg ≤ i) {z : ℤ} (hz : z ≠ 0) :
    (polySetcoeff f i z).deg = i := by
  have hlast : ∀ c : ℕ → ℤ, lastNonzero (Function.update c i z) ((i : ℤ) + 1).toNat = i :=
    fun c => lastNonzero_eq (by omega) (by rwa [Function.update_self]) fun j _ _ => by omega
  simp only [polySetcoeff]
  split_ifs <;> simp_all [cleandeg]

/-- Coefficients that are set from the last one, which is not zero, to the first one. -/
theorem setcoeffs_spec {f : PolyT} {n : ℕ} {c : ℕ → ℤ} (hdeg : f.deg ≤ n) (hlast : c n ≠ 0)
    {g : PolyT} (hg : g = forRange (n + 1) (fun t g => polySetcoeff g (n - t) (c (n - t))) f) :
    g.deg = n ∧ g.alloc = max f.alloc (n + 1) ∧ (∀ i ≤ n, g.coeff i = c i) ∧
      ∀ i, n < i → g.coeff i = f.coeff i ∨ f.alloc ≤ i ∧ g.coeff i = 0 := by
  have hloop := forRange_induct
    (motive := fun t (s : PolyT) => s.deg = (if t = 0 then f.deg else n) ∧
      s.alloc = (if t = 0 then f.alloc else max f.alloc (n + 1)) ∧
      (∀ i ≤ n, n + 1 ≤ i + t → s.coeff i = c i) ∧
      ∀ i, n < i → s.coeff i = f.coeff i ∨ f.alloc ≤ i ∧ s.coeff i = 0)
    (fun t g => polySetcoeff g (n - t) (c (n - t))) f (n + 1)
    ⟨rfl, rfl, fun i hi hi' => by omega, fun i _ => Or.inl rfl⟩ ?_
  · obtain ⟨h₁, h₂, h₃, h₄⟩ := hloop
    rw [if_neg (Nat.succ_ne_zero n)] at h₁ h₂
    rw [hg]
    exact ⟨h₁, h₂, fun i hi => h₃ i hi (by omega), h₄⟩
  · rintro t ht s ⟨hs, halloc, hcoeff, hafter⟩
    refine ⟨?_, ?_, fun i hi hi' => ?_, fun i hi => ?_⟩
    · rw [if_neg (Nat.succ_ne_zero t)]
      rcases Nat.eq_zero_or_pos t with rfl | hpos
      · rw [deg_polySetcoeff_of_ne (by rw [hs, if_pos rfl, Nat.sub_zero]; exact hdeg)
          (by rwa [Nat.sub_zero]), Nat.sub_zero]
      · rw [if_neg (by omega)] at hs
        rw [deg_polySetcoeff_of_lt (by omega), hs]
    · rw [alloc_polySetcoeff, halloc, if_neg (Nat.succ_ne_zero t)]
      split_ifs <;> omega
    · rw [coeff_polySetcoeff]
      split_ifs with h₁ h₂
      · rw [h₁]
      · split_ifs at halloc <;> omega
      · exact hcoeff i hi (by omega)
    · rw [coeff_polySetcoeff, if_neg (by omega)]
      split_ifs with hnew
      · exact Or.inr ⟨by split_ifs at halloc <;> omega, rfl⟩
      · exact hafter i hi

/-- A copy has the coefficients up to the degree, and those that were there after it. -/
theorem polyCopy_spec (g : PolyT) {f : PolyT} (hdeg : -1 ≤ f.deg)
    (hlast : ∀ i : ℕ, f.deg = i → f.coeff i ≠ 0) :
    (polyCopy g f).deg = f.deg ∧ (polyCopy g f).alloc = max g.alloc (f.deg + 1).toNat ∧
      (∀ i : ℕ, i ≤ f.deg → (polyCopy g f).coeff i = f.coeff i) ∧
      ∀ i : ℕ, f.deg < i → (polyCopy g f).coeff i = g.coeff i ∨
        g.alloc ≤ i ∧ (polyCopy g f).coeff i = 0 := by
  rcases hdeg.eq_or_lt with hneg | hpos
  · have hn : (f.deg + 1).toNat = 0 := by omega
    have hcopy : polyCopy g f = { g with deg := f.deg } := by
      rw [polyCopy, hn]
      rfl
    rw [hcopy, hn, Nat.max_zero]
    exact ⟨rfl, rfl, fun i hi => by omega, fun i _ => Or.inl rfl⟩
  · obtain ⟨n, hn⟩ := Int.eq_ofNat_of_zero_le (show 0 ≤ f.deg by omega)
    have hn1 : (f.deg + 1).toNat = n + 1 := by omega
    obtain ⟨h₁, h₂, h₃, h₄⟩ := setcoeffs_spec (f := { g with deg := f.deg }) hn.le (hlast n hn)
      (g := polyCopy g f) (by rw [polyCopy, hn1]; rfl)
    rw [hn1, hn]
    exact ⟨h₁, h₂, fun i hi => h₃ i (by omega), fun i hi => h₄ i (by omega)⟩

end CadoNfs.Poly
