import Mathlib.Data.Int.ModEq
import Mathlib.Tactic.IntervalCases
import CadoNfs.Lib.MixedRadix
import CadoNfs.Macros
import CadoNfs.Utils.Poly

/-!
# Polynomials in base `p`

For a lifting modulo powers of `p`, the coefficients of a polynomial are written in a
mixed radix system, and the digits are added one at a time.

Main results:

- Theorem `polyBaseModpInit_spec`: the digits.
- Theorem `polyBaseModp_iff`: when the lifts give the polynomial back.
-/

namespace CadoNfs.Poly

open Function (update update_apply update_of_ne update_self)
open ForRange Finset MixedRadix

/-! ## Code -/

/-- The powers `p^K[l-i]`. -/
def initPk (p : ℕ) (K : ℕ → ℕ) (l : ℕ) : Option (ℕ → ℤ) :=
  forRangeM (l - 1) (fun n pk => do
    let i := n + 1
    let square := pk (i - 1) * pk (i - 1)
    if K (l - i) % 2 = 1 then do
      assertAlways (K (l - i) = 2 * K (l - i + 1) - 1)
      some (update pk i (square / p))
    else do
      assertAlways (K (l - i) = 2 * K (l - i + 1))
      some (update pk i square)) (update (fun _ => 0) 0 p)

/-- The loop of `mpz_tdiv_qr` over `n` coefficients. -/
def tdivQr (n : ℕ) (num : ℕ → ℤ) (m : ℤ) (q r : PolyT) : PolyT × PolyT :=
  forRange n (fun i s =>
    ({ s.1 with coeff := update s.1.coeff i ((num i).tdiv m) },
      { s.2 with coeff := update s.2.coeff i ((num i).tmod m) })) (q, r)

/-- The numbers `num` are divided by `m` into `P[j]` and `P[j-1]`. -/
def storeDigit (deg : ℤ) (num : ℕ → ℤ) (m : ℤ) (j : ℕ) (P : ℕ → PolyT) : ℕ → PolyT :=
  let qr := tdivQr (deg + 1).toNat num m (P j) (P (j - 1))
  update (update P j (cleandeg qr.1 deg)) (j - 1) qr.2

/-- `poly_base_modp_init`. -/
def polyBaseModpInit (P0 : PolyT) (p : ℕ) (K : ℕ → ℕ) (l : ℕ) : Option (ℕ → PolyT) := do
  assertAlways (K l = 1)
  let pk ← initPk p K l
  let P : ℕ → PolyT := fun _ => polyAlloc P0.deg
  let P := storeDigit P0.deg P0.coeff (pk (l - 1)) l P
  let P := forRange (l - 1) (fun t P =>
    let j := l - 1 - t
    storeDigit P0.deg (P j).coeff (pk (j - 1)) j P) P
  some (update P 0 (cleandeg (P 0) P0.deg))

/-- `poly_base_modp_lift`. -/
def polyBaseModpLift (a : PolyT) (P : ℕ → PolyT) (k : ℕ) (pk : ℤ) : Option PolyT :=
  -- any zero among the first digits counts as the end of the list
  if (List.range (k + 1)).any fun i => (P i).deg = -1 then some a
  else do
    let a ← forRangeM ((P k).deg + 1).toNat (fun i a => do
      -- a write in the array of `a`
      assertAlways (i < a.alloc)
      some { a with coeff := update a.coeff i (a.coeff i + (P k).coeff i * pk) }) a
    some (cleandeg a (if (P k).deg ≤ a.deg then a.deg else (P k).deg))

/-- The first lifts: lift `k` is made with `p^K[l+1-k]`. -/
def lifts (P : ℕ → PolyT) (p : ℕ) (K : ℕ → ℕ) (l : ℕ) (a : PolyT) (k : ℕ) : Option PolyT :=
  forRangeM k (fun i a => polyBaseModpLift a P (i + 1) (p ^ K (l + 1 - (i + 1)))) a

/-! ## Weights -/

/-- The exponents that the lifting goes through, from the end. -/
structure ExponentChain (K : ℕ → ℕ) (l : ℕ) : Prop where
  last : K l = 1
  lt : ∀ i < l, K (i + 1) < K i
  double : ∀ i < l, K i = 2 * K (i + 1) ∨ K i = 2 * K (i + 1) - 1

/-- The exponents from the first digit on. -/
def exponent (K : ℕ → ℕ) (l : ℕ) : ℕ → ℕ
  | 0 => 0
  | j + 1 => K (l - j)

section Weights

variable {p l : ℕ} {K : ℕ → ℕ}

theorem ExponentChain.exponent_le (hK : ExponentChain K l) :
    ∀ j, exponent K l j ≤ exponent K l (j + 1)
  | 0 => Nat.zero_le _
  | j + 1 => by
    rw [exponent, exponent]
    rcases Nat.lt_or_ge j l with hj | hj
    · have := hK.lt (l - (j + 1)) (by omega)
      rw [show l - (j + 1) + 1 = l - j by omega] at this
      exact this.le
    · rw [Nat.sub_eq_zero_of_le hj, Nat.sub_eq_zero_of_le (hj.trans (Nat.le_succ j))]

theorem ExponentChain.weights (hK : ExponentChain K l) (hp : 0 < p) :
    Weights fun j => (p : ℤ) ^ exponent K l j where
  zero := pow_zero _
  pos := fun _ => pow_pos (Int.natCast_pos.mpr hp) _
  dvd := fun j => pow_dvd_pow _ (hK.exponent_le j)

/-- The powers of `p` in the order of the lifts. -/
theorem initPk_spec (hK : ExponentChain K l) (hp : 0 < p) :
    ∃ pk, initPk p K l = some pk ∧
      ∀ j ≤ l - 1, pk j = (p : ℤ) ^ exponent K l (j + 1) := by
  refine forRangeM_induct
    (motive := fun t (pk : ℕ → ℤ) => ∀ j ≤ t, pk j = (p : ℤ) ^ exponent K l (j + 1)) _ _ _ ?_ ?_
  · intro j hj
    rw [Nat.le_zero.mp hj, update_self, exponent, Nat.sub_zero, hK.last, pow_one]
  · intro t ht pk hpk
    obtain ⟨i, hi⟩ : ∃ i, l - (t + 1) = i := ⟨_, rfl⟩
    have hpow : pk t = (p : ℤ) ^ K (i + 1) := by
      rw [hpk t le_rfl, exponent, show l - t = i + 1 by omega]
    have hlt := hK.lt i (by omega)
    have hdouble := hK.double i (by omega)
    have hp' : (p : ℤ) ≠ 0 := by exact_mod_cast hp.ne'
    have hnext : ∀ v : ℤ, v = (p : ℤ) ^ K i → ∀ j ≤ t + 1,
        update pk (t + 1) v j = (p : ℤ) ^ exponent K l (j + 1) := by
      intro v hv j hj
      rcases Nat.le_succ_iff.mp hj with hle | rfl
      · rw [update_of_ne (by omega), hpk j hle]
      · rw [update_self, hv, exponent, hi]
    simp only [hi, Nat.add_sub_cancel, hpow]
    split_ifs with hodd
    · have heq : K i = 2 * K (i + 1) - 1 := by omega
      refine ⟨_, by rw [assertAlways_of_true heq]; rfl, hnext _ ?_⟩
      have hsquare : (p : ℤ) ^ K (i + 1) * (p : ℤ) ^ K (i + 1) = (p : ℤ) ^ K i * p := by
        rw [← pow_add, ← pow_succ, heq]
        congr 1
        omega
      rw [hsquare, Int.mul_ediv_cancel _ hp']
    · have heq : K i = 2 * K (i + 1) := by omega
      refine ⟨_, by rw [assertAlways_of_true heq]; rfl, hnext _ ?_⟩
      rw [← pow_add, heq, two_mul]

end Weights

/-! ## Digits -/

section Digits

variable {P0 : PolyT} {p l : ℕ} {K : ℕ → ℕ}

/-- The digits of the coefficients; the last one is a quotient. -/
def digitCoeff (P0 : PolyT) (p : ℕ) (K : ℕ → ℕ) (l j i : ℕ) : ℤ :=
  if i < (P0.deg + 1).toNat then
    if j = l then P0.coeff i / p ^ exponent K l l
    else digit (fun j => (p : ℤ) ^ exponent K l j) (P0.coeff i) j
  else 0

/-- Allocated coefficients without a degree. -/
def ofCoeff (d : ℤ) (c : ℕ → ℤ) : PolyT :=
  ⟨(d + 1).toNat, -1, c⟩

/-- The polynomial of a digit. -/
def digitPoly (P0 : PolyT) (p : ℕ) (K : ℕ → ℕ) (l j : ℕ) : PolyT :=
  cleandeg (ofCoeff P0.deg (digitCoeff P0 p K l j)) P0.deg

/-- Coefficients of which the digits from `j` on have been taken. -/
def remainderPoly (P0 : PolyT) (p : ℕ) (K : ℕ → ℕ) (l j : ℕ) : PolyT :=
  ofCoeff P0.deg fun i =>
    if i < (P0.deg + 1).toNat then P0.coeff i % p ^ exponent K l j else 0

/-- The digits from `j` on are there, and what is left is in `P[j-1]`. -/
structure DigitsFrom (P0 : PolyT) (p : ℕ) (K : ℕ → ℕ) (l j : ℕ) (P : ℕ → PolyT) : Prop where
  digits : ∀ i, j ≤ i → i ≤ l → P i = digitPoly P0 p K l i
  remainder : P (j - 1) = remainderPoly P0 p K l j
  others : ∀ i, i < j - 1 ∨ l < i → P i = polyAlloc P0.deg

theorem update_if_lt (f g : ℕ → ℤ) (n : ℕ) :
    update (fun i => if i < n then f i else g i) n (f n)
      = fun i => if i < n + 1 then f i else g i := by
  funext i
  rw [update_apply]
  split_ifs with h₁ h₂ h₃ h₃ <;> first | rfl | omega | rw [h₁]

theorem tdivQr_eq (n : ℕ) (num : ℕ → ℤ) (m d : ℤ) (c c' : ℕ → ℤ) :
    tdivQr n num m (ofCoeff d c) (ofCoeff d c')
      = (ofCoeff d fun i => if i < n then (num i).tdiv m else c i,
        ofCoeff d fun i => if i < n then (num i).tmod m else c' i) := by
  induction n with
  | zero => simp [tdivQr]
  | succ n ih =>
    rw [tdivQr, forRange_succ, ← tdivQr, ih]
    simp [ofCoeff, update_if_lt (fun i => (num i).tdiv m), update_if_lt fun i => (num i).tmod m]

theorem digitsFrom_storeDigit {j : ℕ} (hj : 1 ≤ j) (hjl : j ≤ l) {P : ℕ → PolyT}
    {num c : ℕ → ℤ} {m : ℤ} (hc : P j = ofCoeff P0.deg c)
    (hothers : ∀ i, i < j ∨ l < i → P i = polyAlloc P0.deg)
    (hdigits : ∀ i, j < i → i ≤ l → P i = digitPoly P0 p K l i)
    (hquotient : ∀ i, (if i < (P0.deg + 1).toNat then (num i).tdiv m else c i)
      = digitCoeff P0 p K l j i)
    (hremainder : ∀ i < (P0.deg + 1).toNat, (num i).tmod m = P0.coeff i % p ^ exponent K l j) :
    DigitsFrom P0 p K l j (storeDigit P0.deg num m j P) := by
  have hqr : tdivQr (P0.deg + 1).toNat num m (P j) (P (j - 1))
      = (ofCoeff P0.deg (digitCoeff P0 p K l j), remainderPoly P0 p K l j) := by
    rw [hc, hothers (j - 1) (by omega)]
    refine (tdivQr_eq _ num m P0.deg c fun _ => 0).trans (Prod.ext ?_ ?_)
    · exact congrArg (ofCoeff P0.deg) (funext hquotient)
    · exact congrArg (ofCoeff P0.deg)
        (funext fun i => ite_congr rfl (hremainder i) fun _ => rfl)
  constructor
  · intro i hi hi'
    rw [storeDigit, hqr, update_of_ne (by omega)]
    rcases Nat.eq_or_lt_of_le hi with rfl | hlt
    · rw [update_self, digitPoly]
    · rw [update_of_ne (by omega), hdigits i hlt hi']
  · rw [storeDigit, hqr, update_self]
  · intro i hi
    rw [storeDigit, update_of_ne (by omega), update_of_ne (by omega), hothers i (by omega)]

theorem digitsFrom_last (hl : 1 ≤ l) (hnonneg : ∀ i : ℕ, i ≤ P0.deg → 0 ≤ P0.coeff i) :
    DigitsFrom P0 p K l l
      (storeDigit P0.deg P0.coeff (p ^ exponent K l l) l fun _ => polyAlloc P0.deg) := by
  refine digitsFrom_storeDigit (c := fun _ => 0) hl le_rfl rfl (fun _ _ => rfl)
    (fun i hi hi' => by omega) (fun i => ?_) fun i hi => ?_
  · rw [digitCoeff, if_pos rfl]
    refine ite_congr rfl (fun hi => ?_) fun _ => rfl
    exact Int.tdiv_eq_ediv_of_nonneg (hnonneg i (by omega))
  · exact Int.tmod_eq_emod_of_nonneg (hnonneg i (by omega))

theorem DigitsFrom.pred (hw : Weights fun j => (p : ℤ) ^ exponent K l j) {j : ℕ} (hj : 1 ≤ j)
    (hjl : j < l) {P : ℕ → PolyT} (hP : DigitsFrom P0 p K l (j + 1) P) :
    DigitsFrom P0 p K l j (storeDigit P0.deg (P j).coeff (p ^ exponent K l j) j P) := by
  have hPj : P j = remainderPoly P0 p K l (j + 1) := hP.remainder
  have hnonneg : ∀ i, 0 ≤ P0.coeff i % p ^ exponent K l (j + 1) := fun i =>
    Int.emod_nonneg _ (hw.pos (j + 1)).ne'
  have hcoeff : ∀ i, (P j).coeff i
      = if i < (P0.deg + 1).toNat then P0.coeff i % p ^ exponent K l (j + 1) else 0 :=
    fun i => by rw [hPj, remainderPoly, ofCoeff]
  refine digitsFrom_storeDigit hj hjl.le hPj (fun i hi => hP.others i (by omega))
    (fun i hi hi' => hP.digits i hi hi') (fun i => ?_) fun i hi => ?_
  · rw [digitCoeff, if_neg hjl.ne]
    split_ifs with hi
    · rw [hcoeff, if_pos hi]
      exact Int.tdiv_eq_ediv_of_nonneg (hnonneg i)
    · rfl
  · rw [hcoeff, if_pos hi, Int.tmod_eq_emod_of_nonneg (hnonneg i)]
    exact Int.emod_emod_of_dvd _ (hw.dvd j)

theorem polyBaseModpInit_eq (hK : ExponentChain K l) (hp : 0 < p) (hl : 1 ≤ l)
    (hnonneg : ∀ i : ℕ, i ≤ P0.deg → 0 ≤ P0.coeff i) :
    ∃ P, polyBaseModpInit P0 p K l = some P ∧ (∀ j ≤ l, P j = digitPoly P0 p K l j) ∧
      ∀ j, l < j → P j = polyAlloc P0.deg := by
  obtain ⟨pk, hpk, hpow⟩ := initPk_spec hK hp
  have hw := hK.weights hp
  have hpow' : ∀ j, 1 ≤ j → j ≤ l → pk (j - 1) = (p : ℤ) ^ exponent K l j := by
    intro j hj hjl
    rw [hpow (j - 1) (by omega), Nat.sub_add_cancel hj]
  have hloop := forRange_induct
    (motive := fun t (P : ℕ → PolyT) => DigitsFrom P0 p K l (l - t) P)
    (fun t P => storeDigit P0.deg (P (l - 1 - t)).coeff (pk (l - 1 - t - 1)) (l - 1 - t) P)
    (storeDigit P0.deg P0.coeff (pk (l - 1)) l fun _ => polyAlloc P0.deg) (l - 1) ?_ ?_
  · refine ⟨_, by simp only [polyBaseModpInit, assertAlways_of_true hK.last, hpk,
      some_bind]; rfl, fun j hj => ?_, fun j hj => ?_⟩
    · rcases Nat.eq_zero_or_pos j with rfl | hpos
      · have hzero := hloop.remainder
        rw [show l - (l - 1) = 1 by omega] at hzero
        rw [update_self, hzero, digitPoly]
        refine congrArg (fun c => cleandeg (ofCoeff P0.deg c) P0.deg) (funext fun i => ?_)
        rw [digitCoeff, if_neg (show 0 ≠ l by omega), digit, hw.zero, Int.ediv_one]
      · rw [update_of_ne hpos.ne']
        exact hloop.digits j (by omega) hj
    · rw [update_of_ne (by omega)]
      exact hloop.others j (Or.inr hj)
  · rw [hpow' l hl le_rfl]
    exact digitsFrom_last hl hnonneg
  · intro t ht P hP
    rw [hpow' (l - 1 - t) (by omega) (by omega)]
    rw [show l - t = l - 1 - t + 1 by omega] at hP
    rw [show l - (t + 1) = l - 1 - t by omega]
    exact hP.pred hw (by omega) (by omega)

section

variable (P0 : PolyT) (p : ℕ) (K : ℕ → ℕ) (l j : ℕ)

theorem clean_digitPoly : (digitPoly P0 p K l j).Clean := by
  refine cleandeg_spec (show P0.deg < ((P0.deg + 1).toNat : ℤ) by omega) fun i hi => ?_
  exact if_neg (by omega)

theorem deg_digitPoly_le : (digitPoly P0 p K l j).deg < (P0.deg + 1).toNat :=
  (clean_digitPoly P0 p K l j).deg_lt

end

theorem deg_digitPoly_eq_neg_one_iff {j : ℕ} :
    (digitPoly P0 p K l j).deg = -1 ↔ ∀ i, digitCoeff P0 p K l j i = 0 := by
  refine lastNonzero_eq_neg_one_iff.trans (forall_congr' fun i => ?_)
  refine ⟨fun h => ?_, fun h _ => h⟩
  by_cases hi : i < (P0.deg + 1).toNat
  · exact h hi
  · exact if_neg hi

section

variable (hw : Weights fun j => (p : ℤ) ^ exponent K l j)
include hw

theorem sum_digitCoeff {k i : ℕ} (hk : k ≤ l) (hi : i < (P0.deg + 1).toNat) :
    ∑ j ∈ range k, (p : ℤ) ^ exponent K l j * digitCoeff P0 p K l j i
      = P0.coeff i % p ^ exponent K l k := by
  rw [← sum_digit hw]
  refine sum_congr rfl fun j hj => ?_
  rw [mem_range] at hj
  rw [digitCoeff, if_pos hi, if_neg (by omega)]

theorem sum_digitCoeff_last {i : ℕ} (hi : i < (P0.deg + 1).toNat) :
    ∑ j ∈ range (l + 1), (p : ℤ) ^ exponent K l j * digitCoeff P0 p K l j i = P0.coeff i := by
  rw [sum_range_succ, sum_digitCoeff hw le_rfl hi, digitCoeff, if_pos hi, if_pos rfl,
    Int.emod_add_mul_ediv]

theorem digitCoeff_eq_zero_iff {j i : ℕ} (hj : j < l) (hi : i < (P0.deg + 1).toNat) :
    digitCoeff P0 p K l j i = 0
      ↔ P0.coeff i % p ^ exponent K l (j + 1) < p ^ exponent K l j := by
  rw [digitCoeff, if_pos hi, if_neg hj.ne]
  exact digit_eq_zero_iff hw _ j

end

end Digits

/-! ## Lifts -/

section Lifts

variable {P0 a : PolyT} {P : ℕ → PolyT} {p l k : ℕ} {K : ℕ → ℕ}

theorem polyBaseModpLift_of_zero {i : ℕ} (hi : i ≤ k) (hzero : (P i).deg = -1) (pk : ℤ) :
    polyBaseModpLift a P k pk = some a :=
  if_pos (List.any_eq_true.mpr ⟨i, List.mem_range.mpr (Nat.lt_succ_of_le hi), by simpa⟩)

/-- One lift adds the next digit polynomial. -/
theorem polyBaseModpLift_of_ne (ha : a.Clean) (hPk : (P k).Clean)
    (hroom : (P k).deg < a.alloc) (hne : ∀ i ≤ k, (P i).deg ≠ -1) (pk : ℤ) :
    ∃ a', polyBaseModpLift a P k pk = some a' ∧ a'.Clean ∧ a'.alloc = a.alloc ∧
      ∀ i, a'.coeff i = a.coeff i + pk * (P k).coeff i := by
  obtain ⟨n, hn⟩ : ∃ n, ((P k).deg + 1).toNat = n := ⟨_, rfl⟩
  have hloop := forRangeM_induct
    (motive := fun t (s : PolyT) => s.alloc = a.alloc ∧ s.deg = a.deg ∧
      ∀ i, s.coeff i = if i < t then a.coeff i + pk * (P k).coeff i else a.coeff i)
    (fun i a => do
      assertAlways (i < a.alloc)
      some { a with coeff := update a.coeff i (a.coeff i + (P k).coeff i * pk) })
    a n ⟨rfl, rfl, fun i => rfl⟩ ?_
  · obtain ⟨s, hrun, halloc, hdeg, hcoeff⟩ := hloop
    have hcoeff' : ∀ i, s.coeff i = a.coeff i + pk * (P k).coeff i := by
      intro i
      rw [hcoeff i]
      split_ifs with hi
      · rfl
      · rw [hPk.after i (by omega), mul_zero, add_zero]
    refine ⟨cleandeg s (if (P k).deg ≤ s.deg then s.deg else (P k).deg), ?_,
      cleandeg_spec ?_ fun i hi => ?_, halloc, hcoeff'⟩
    · rw [polyBaseModpLift, if_neg (by simpa [Nat.lt_succ_iff] using hne), hn, hrun]
      rfl
    · have := ha.deg_lt
      rw [halloc, hdeg]
      split_ifs <;> omega
    · rw [hdeg] at hi
      have hle : a.deg < i ∧ (P k).deg < i := by split_ifs at hi <;> omega
      rw [hcoeff', ha.after i hle.1, hPk.after i hle.2, mul_zero, add_zero]
  · rintro t ht s ⟨halloc, hdeg, hcoeff⟩
    refine ⟨{ s with coeff := update s.coeff t (s.coeff t + (P k).coeff t * pk) },
      by rw [assertAlways_of_true (by omega)]; rfl, halloc, hdeg, fun i => ?_⟩
    show update s.coeff t (s.coeff t + (P k).coeff t * pk) i = _
    rw [update_apply, hcoeff, hcoeff, if_neg (lt_irrefl t), mul_comm]
    split_ifs with h₁ h₂ h₃ h₃ <;> first | omega | rw [h₁]

/-- What a number of lifts gives: the sum of the digits up to the first zero. -/
structure Lifted (P0 : PolyT) (p : ℕ) (K : ℕ → ℕ) (l k n : ℕ) (a : PolyT) : Prop where
  clean : a.Clean
  room : P0.deg < a.alloc
  le : n ≤ k + 1
  coeff : ∀ i, a.coeff i = ∑ j ∈ range n, (p : ℤ) ^ exponent K l j * digitCoeff P0 p K l j i
  ne : ∀ j < n, (digitPoly P0 p K l j).deg ≠ -1
  zero : n ≤ k → (digitPoly P0 p K l n).deg = -1

theorem lifted_zero {d : ℤ} (hd : P0.deg ≤ d) :
    ∃ n, Lifted P0 p K l 0 n (polyCopy (polyAlloc d) (digitPoly P0 p K l 0)) := by
  have hclean := clean_digitPoly P0 p K l 0
  obtain ⟨hdeg, halloc, hcoeff, hafter⟩ :=
    polyCopy_spec (polyAlloc d) hclean.neg_one_le hclean.last_ne
  have hdeg_lt := hclean.deg_lt
  have hafter' : ∀ i : ℕ, (digitPoly P0 p K l 0).deg < i →
      (polyCopy (polyAlloc d) (digitPoly P0 p K l 0)).coeff i = 0 := by
    intro i hi
    rcases hafter i hi with h | ⟨-, h⟩ <;> exact h
  have hcopy : ∀ i, (polyCopy (polyAlloc d) (digitPoly P0 p K l 0)).coeff i
      = digitCoeff P0 p K l 0 i := by
    intro i
    by_cases hi : (i : ℤ) ≤ (digitPoly P0 p K l 0).deg
    · exact hcoeff i hi
    · exact (hafter' i (by omega)).trans (hclean.after i (by omega)).symm
  have hroom : (polyAlloc d).alloc = (d + 1).toNat := rfl
  have hcleanCopy : (polyCopy (polyAlloc d) (digitPoly P0 p K l 0)).Clean := by
    refine ⟨?_, ?_, fun i hi => ?_, fun i hi => hafter' i (by rwa [hdeg] at hi)⟩
    · exact hclean.neg_one_le.trans_eq hdeg.symm
    · rw [hdeg, halloc]
      omega
    · rw [hdeg] at hi
      rw [hcoeff i hi.ge]
      exact hclean.last_ne i hi
  by_cases hzero : (digitPoly P0 p K l 0).deg = -1
  · refine ⟨0, hcleanCopy, by rw [halloc]; omega, by omega, fun i => ?_, nofun, fun _ => hzero⟩
    rw [hcopy, deg_digitPoly_eq_neg_one_iff.mp hzero, range_zero, sum_empty]
  · refine ⟨1, hcleanCopy, by rw [halloc]; omega, le_rfl, fun i => ?_, ?_, by omega⟩
    · rw [hcopy, sum_range_one, exponent, pow_zero, one_mul]
    · intro j hj
      rwa [Nat.lt_one_iff.mp hj]

theorem Lifted.succ (hP : ∀ j ≤ l, P j = digitPoly P0 p K l j) {n : ℕ} (hk : k < l)
    (ha : Lifted P0 p K l k n a) :
    ∃ a' n', polyBaseModpLift a P (k + 1) (p ^ K (l + 1 - (k + 1))) = some a' ∧
      Lifted P0 p K l (k + 1) n' a' := by
  rcases Nat.lt_or_ge k n with hn | hn
  · obtain rfl : n = k + 1 := by have := ha.le; omega
    by_cases hzero : (P (k + 1)).deg = -1
    · refine ⟨a, k + 1, polyBaseModpLift_of_zero le_rfl hzero _, ha.clean, ha.room, by omega,
        ha.coeff, ha.ne, fun _ => ?_⟩
      rwa [hP _ (by omega)] at hzero
    · have hne : ∀ j ≤ k + 1, (P j).deg ≠ -1 := by
        intro j hj
        rcases Nat.le_succ_iff.mp hj with hle | rfl
        · rw [hP j (by omega)]
          exact ha.ne j (by omega)
        · exact hzero
      have hPk := hP (k + 1) (by omega)
      have hroom : (P (k + 1)).deg < a.alloc := by
        have := deg_digitPoly_le P0 p K l (k + 1)
        have := ha.room
        rw [hPk]
        omega
      obtain ⟨a', hrun, hclean, halloc, hcoeff⟩ := polyBaseModpLift_of_ne ha.clean
        (hPk ▸ clean_digitPoly P0 p K l (k + 1)) hroom hne (p ^ K (l + 1 - (k + 1)))
      refine ⟨a', k + 2, hrun, hclean, halloc ▸ ha.room, le_rfl, fun i => ?_, fun j hj => ?_,
        by omega⟩
      · rw [hcoeff, ha.coeff, sum_range_succ _ (k + 1), exponent, hPk, Nat.add_sub_add_right]
        rfl
      · rw [← hP j (by omega)]
        exact hne j (by omega)
  · refine ⟨a, n, polyBaseModpLift_of_zero (Nat.le_succ_of_le hn) ?_ _, ha.clean, ha.room,
      ha.le.trans (Nat.le_succ _), ha.coeff, ha.ne, fun _ => ha.zero hn⟩
    rw [hP n (by omega)]
    exact ha.zero hn

theorem lifts_spec (hP : ∀ j ≤ l, P j = digitPoly P0 p K l j) {d : ℤ} (hd : P0.deg ≤ d)
    (hk : k ≤ l) :
    ∃ a, lifts P p K l (polyCopy (polyAlloc d) (P 0)) k = some a ∧
      ∃ n, Lifted P0 p K l k n a := by
  refine forRangeM_induct (motive := fun k a => ∃ n, Lifted P0 p K l k n a) _ _ k ?_ ?_
  · rw [hP 0 (Nat.zero_le l)]
    exact lifted_zero hd
  · rintro i hi a ⟨n, ha⟩
    obtain ⟨a', n', hrun, ha'⟩ := ha.succ hP (hi.trans_le hk)
    exact ⟨a', hrun, n', ha'⟩

theorem Lifted.coeff_eq (hw : Weights fun j => (p : ℤ) ^ exponent K l j) {n : ℕ}
    (ha : Lifted P0 p K l k n a) (hn : n ≤ l) {i : ℕ} (hi : (i : ℤ) ≤ P0.deg) :
    a.coeff i = P0.coeff i % p ^ exponent K l n := by
  rw [ha.coeff, sum_digitCoeff hw hn (by omega)]

theorem Lifted.coeff_of_lt {n : ℕ} (ha : Lifted P0 p K l k n a) {i : ℕ} (hi : P0.deg < i) :
    a.coeff i = 0 := by
  rw [ha.coeff]
  refine sum_eq_zero fun j _ => ?_
  rw [digitCoeff, if_neg (by omega), mul_zero]

/-- Every zero digit is followed by zeros only. -/
def NoGap (P0 : PolyT) (p : ℕ) (K : ℕ → ℕ) (l : ℕ) : Prop :=
  ∀ j < l,
    (∀ i : ℕ, i ≤ P0.deg → P0.coeff i % p ^ exponent K l (j + 1) < p ^ exponent K l j) →
      ∀ i : ℕ, i ≤ P0.deg → P0.coeff i < p ^ exponent K l j

theorem Lifted.coeff_of_noGap (hw : Weights fun j => (p : ℤ) ^ exponent K l j)
    (hnonneg : ∀ i : ℕ, i ≤ P0.deg → 0 ≤ P0.coeff i) (hgap : NoGap P0 p K l) {n : ℕ}
    (hk : k ≤ l) (ha : Lifted P0 p K l k n a) {i : ℕ} (hi : (i : ℤ) ≤ P0.deg) :
    a.coeff i = if k = l then P0.coeff i else P0.coeff i % p ^ exponent K l (k + 1) := by
  have hlast := sum_digitCoeff_last hw (show i < (P0.deg + 1).toNat by omega)
  rcases Nat.lt_or_ge k n with hn | hn
  · obtain rfl : n = k + 1 := by have := ha.le; omega
    split_ifs with hkl
    · rw [ha.coeff, hkl, hlast]
    · exact ha.coeff_eq hw (by omega) hi
  · have hzero := deg_digitPoly_eq_neg_one_iff.mp (ha.zero hn)
    rcases Nat.lt_or_ge n l with hnl | hnl
    · -- the coefficients end before the zero digit
      have hlt : P0.coeff i < p ^ exponent K l n := hgap n hnl
        (fun i hi => (digitCoeff_eq_zero_iff hw hnl (by omega)).mp (hzero i)) i hi
      have hle : (p : ℤ) ^ exponent K l n ≤ p ^ exponent K l (k + 1) :=
        hw.le (show n ≤ k + 1 by omega)
      rw [ha.coeff_eq hw hnl.le hi, Int.emod_eq_of_lt (hnonneg i hi) hlt,
        Int.emod_eq_of_lt (hnonneg i hi) (hlt.trans_le hle), ite_self]
    · obtain rfl : n = l := by omega
      rw [if_pos (by omega), ha.coeff]
      rwa [sum_range_succ, hzero, mul_zero, add_zero] at hlast

theorem Lifted.noGap (hw : Weights fun j => (p : ℤ) ^ exponent K l j) {n : ℕ}
    (ha : Lifted P0 p K l l n a) (heq : ∀ i : ℕ, i ≤ P0.deg → a.coeff i = P0.coeff i) :
    NoGap P0 p K l := by
  intro j hj hsmall i hi
  have hzero : (digitPoly P0 p K l j).deg = -1 := by
    refine deg_digitPoly_eq_neg_one_iff.mpr fun i => ?_
    by_cases hi : i < (P0.deg + 1).toNat
    · exact (digitCoeff_eq_zero_iff hw hj hi).mpr (hsmall i (by omega))
    · exact if_neg hi
  have hn : n ≤ j := by
    by_contra hlt
    exact ha.ne j (by omega) hzero
  rw [← heq i hi, ha.coeff_eq hw (hn.trans hj.le) hi]
  exact (Int.emod_lt_of_pos _ (hw.pos n)).trans_le (hw.le hn)

end Lifts

/-! ## Decomposition and lifting -/

section Result

variable {P0 : PolyT} {p l : ℕ} {K : ℕ → ℕ}

theorem coeff_toPoly_digitPoly (P0 : PolyT) (p : ℕ) (K : ℕ → ℕ) (l j i : ℕ) :
    (digitPoly P0 p K l j).toPoly.coeff i = digitCoeff P0 p K l j i :=
  (clean_digitPoly P0 p K l j).coeff_toPoly i

theorem toPoly_eq_sum (hw : Weights fun j => (p : ℤ) ^ exponent K l j) :
    P0.toPoly = (digitPoly P0 p K l 0).toPoly
      + ∑ j ∈ range l, Polynomial.C ((p : ℤ) ^ K (l - j)) * (digitPoly P0 p K l (j + 1)).toPoly := by
  ext i
  simp only [Polynomial.coeff_add, Polynomial.finsetSum_coeff, Polynomial.coeff_C_mul,
    coeff_toPoly_digitPoly]
  rw [coeff_toPoly]
  split_ifs with hi
  · rw [← sum_digitCoeff_last hw (show i < (P0.deg + 1).toNat by omega), sum_range_succ',
      exponent, pow_zero, one_mul, add_comm]
    rfl
  · have hzero : ∀ j, digitCoeff P0 p K l j i = 0 := fun j => if_neg (by omega)
    simp [hzero]

theorem digitCoeff_bounds (hK : ExponentChain K l) (hp : 0 < p) {j : ℕ} (hj : j < l) (i : ℕ) :
    0 ≤ digitCoeff P0 p K l j i ∧
      digitCoeff P0 p K l j i < p ^ (exponent K l (j + 1) - exponent K l j) := by
  have hw := hK.weights hp
  rw [digitCoeff, if_neg hj.ne]
  split_ifs with hi
  · refine ⟨digit_nonneg hw _ j, (digit_lt hw _ j).trans_eq ?_⟩
    refine Int.ediv_eq_of_eq_mul_left (hw.pos j).ne' ?_
    rw [← pow_add, Nat.sub_add_cancel (hK.exponent_le j)]
  · exact ⟨le_rfl, pow_pos (Int.natCast_pos.mpr hp) _⟩

theorem digitCoeff_last_bounds (hK : ExponentChain K l) (hp : 0 < p) (hl : 1 ≤ l)
    (hnonneg : ∀ i : ℕ, i ≤ P0.deg → 0 ≤ P0.coeff i)
    (hlt : ∀ i : ℕ, i ≤ P0.deg → P0.coeff i < p ^ K 0) (i : ℕ) :
    0 ≤ digitCoeff P0 p K l l i ∧ digitCoeff P0 p K l l i < p ^ (K 0 - K 1) := by
  have hw := hK.weights hp
  have hp' : (0 : ℤ) < p := Int.natCast_pos.mpr hp
  rw [digitCoeff, if_pos rfl]
  split_ifs with hi
  · refine ⟨Int.ediv_nonneg (hnonneg i (by omega)) (hw.pos l).le, ?_⟩
    refine Int.ediv_lt_of_lt_mul (hw.pos l) ((hlt i (by omega)).trans_eq ?_)
    obtain ⟨l, rfl⟩ := Nat.exists_eq_add_of_le' hl
    rw [exponent, Nat.add_sub_cancel_left, ← pow_add, Nat.sub_add_cancel (hK.lt 0 hl).le]
  · exact ⟨le_rfl, pow_pos hp' _⟩

/-- The digits are those of the polynomial, and the lifts give it back exactly when no zero
digit is followed by another digit. -/
theorem polyBaseModp_iff {d : ℤ} (hp : 0 < p) (hl : 1 ≤ l) (hK : ExponentChain K l)
    (hnonneg : ∀ i : ℕ, i ≤ P0.deg → 0 ≤ P0.coeff i) (hd : P0.deg ≤ d) :
    ∃ P, polyBaseModpInit P0 p K l = some P ∧
      P0.toPoly = (P 0).toPoly
        + ∑ j ∈ range l, Polynomial.C ((p : ℤ) ^ K (l - j)) * (P (j + 1)).toPoly ∧
      (∀ i, 0 ≤ (P 0).toPoly.coeff i ∧ (P 0).toPoly.coeff i < p) ∧
      (∀ j, 1 ≤ j → j < l → ∀ i, 0 ≤ (P j).toPoly.coeff i ∧
        (P j).toPoly.coeff i < p ^ (K (l - j) - K (l - j + 1))) ∧
      ((∀ i : ℕ, i ≤ P0.deg → P0.coeff i < p ^ K 0) → ∀ i, 0 ≤ (P l).toPoly.coeff i ∧
        (P l).toPoly.coeff i < p ^ (K 0 - K 1)) ∧
      (P (l + 1)).toPoly = 0 ∧
      ((∀ k, 1 ≤ k → k ≤ l →
        ∃ a, lifts P p K l (polyCopy (polyAlloc d) (P 0)) k = some a ∧
          (k < l → ∀ i, a.toPoly.coeff i ≡ P0.toPoly.coeff i [ZMOD p ^ K (l - k)]) ∧
          (k = l → a.toPoly = P0.toPoly)) ↔ NoGap P0 p K l) := by
  have hw := hK.weights hp
  obtain ⟨P, hinit, hP, hP'⟩ := polyBaseModpInit_eq hK hp hl hnonneg
  have hcoeff : ∀ j ≤ l, ∀ i, (P j).toPoly.coeff i = digitCoeff P0 p K l j i := fun j hj i => by
    rw [hP j hj, coeff_toPoly_digitPoly]
  refine ⟨P, hinit, ?_, fun i => ?_, fun j hj hjl i => ?_, fun hlt i => ?_, ?_, ?_⟩
  · rw [toPoly_eq_sum hw, hP 0 (Nat.zero_le l)]
    refine congrArg _ (sum_congr rfl fun j hj => ?_)
    rw [hP (j + 1) (mem_range.mp hj)]
  · rw [hcoeff 0 (Nat.zero_le l)]
    have hbounds := @digitCoeff_bounds P0 p l K hK hp 0 hl i
    rwa [exponent, exponent, Nat.sub_zero, Nat.sub_zero, hK.last, pow_one] at hbounds
  · rw [hcoeff j hjl.le]
    have hbounds := @digitCoeff_bounds P0 p l K hK hp j hjl i
    obtain ⟨j, rfl⟩ := Nat.exists_eq_add_of_le' hj
    rwa [exponent, exponent, show l - j = l - (j + 1) + 1 by omega] at hbounds
  · rw [hcoeff l le_rfl]
    exact digitCoeff_last_bounds hK hp hl hnonneg hlt i
  · rw [hP' (l + 1) (Nat.lt_succ_self l)]
    rfl
  · constructor
    · intro hlift
      obtain ⟨a, hrun, -, heq⟩ := hlift l hl le_rfl
      obtain ⟨a', hrun', n, ha⟩ := lifts_spec hP hd (le_refl l)
      obtain rfl := Option.some.inj (hrun.symm.trans hrun')
      refine ha.noGap hw fun i hi => ?_
      rw [← ha.clean.coeff_toPoly, heq rfl, coeff_toPoly, if_pos hi]
    · intro hgap k hk hkl
      obtain ⟨a, hrun, n, ha⟩ := lifts_spec hP hd hkl
      refine ⟨a, hrun, fun hlt i => ?_, fun hkl' => ?_⟩
      · rw [ha.clean.coeff_toPoly, coeff_toPoly]
        split_ifs with hi
        · rw [ha.coeff_of_noGap hw hnonneg hgap hkl hi, if_neg hlt.ne]
          exact Int.mod_modEq _ _
        · rw [ha.coeff_of_lt (by omega)]
      · ext i
        rw [ha.clean.coeff_toPoly, coeff_toPoly]
        split_ifs with hi
        · rw [ha.coeff_of_noGap hw hnonneg hgap hkl hi, if_pos hkl']
        · rw [ha.coeff_of_lt (by omega)]

/-- The polynomial `7 * x + 13` is given back from its digits 3, 2 and 2, 1 in base 5. -/
theorem polyBaseModp_iff_five :
    ∃ P a, polyBaseModpInit ⟨2, 1, fun i => if i = 0 then 13 else 7⟩ 5 (3 - ·) 2 = some P ∧
      lifts P 5 (3 - ·) 2 (polyCopy (polyAlloc 1) (P 0)) 2 = some a ∧
      a.toPoly = PolyT.toPoly ⟨2, 1, fun i => if i = 0 then 13 else 7⟩ := by
  have hK : ExponentChain (3 - ·) 2 := ⟨rfl, by decide, by decide⟩
  obtain ⟨P, hinit, -, -, -, -, -, hiff⟩ :=
    @polyBaseModp_iff ⟨2, 1, fun i => if i = 0 then 13 else 7⟩ 5 2 (3 - ·) 1 (by decide)
      (by decide) hK (fun i _ => by dsimp only; split_ifs <;> decide) le_rfl
  obtain ⟨a, hrun, -, heq⟩ := hiff.mpr (by
    intro j hj hsmall
    have h := hsmall 0 (by decide)
    interval_cases j <;> exact absurd h (by decide)) 2 (by decide) le_rfl
  exact ⟨P, a, hinit, hrun, heq rfl⟩

/-- The polynomial 5 has the digits 0 and 1 in base 5, and is not given back. -/
theorem polyBaseModp_gap :
    ∃ P a, polyBaseModpInit ⟨1, 0, fun _ => 5⟩ 5 (2 - ·) 1 = some P ∧
      lifts P 5 (2 - ·) 1 (polyCopy (polyAlloc 0) (P 0)) 1 = some a ∧
      a.toPoly ≠ PolyT.toPoly ⟨1, 0, fun _ => 5⟩ := by
  have hK : ExponentChain (2 - ·) 1 := ⟨rfl, by decide, by decide⟩
  obtain ⟨P, hinit, hP, -⟩ := @polyBaseModpInit_eq ⟨1, 0, fun _ => 5⟩ 5 1 (2 - ·) hK (by decide)
    le_rfl fun _ _ => show (0 : ℤ) ≤ 5 by decide
  obtain ⟨a, hrun, n, ha⟩ := lifts_spec hP (le_refl 0) (le_refl 1)
  refine ⟨P, a, hinit, hrun, fun heq => ?_⟩
  have hgap := ha.noGap (hK.weights (by decide)) fun i hi => by
    rw [← ha.clean.coeff_toPoly, heq, coeff_toPoly, if_pos hi]
  have hcall := hgap 0 (by decide) (fun _ _ => show (5 : ℤ) % 5 ^ 1 < 5 ^ 0 by decide) 0 le_rfl
  exact absurd hcall (by decide)

end Result

end CadoNfs.Poly
