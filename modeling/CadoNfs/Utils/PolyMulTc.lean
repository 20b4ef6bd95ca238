import CadoNfs.Lib.FallibleRun
import CadoNfs.Lib.PowerRows
import CadoNfs.Utils.Poly
import Mathlib.Algebra.Polynomial.Degree.Lemmas
import Mathlib.Data.BitVec
import Mathlib.Data.Nat.Choose.Bounds

/-!
# Products by evaluation and interpolation

The product of two polynomials of `poly.c` is computed from its values at 0, 1, ...: the
matrix of the powers is made triangular with words of 64 bits, and then the coefficients are
found from the last one to the first one.

Main results:

- Theorem `tcForward_spec`: the rows of the matrix and the values after the elimination.
- Theorem `polyMulTcInterpolate_spec`: the coefficients of a polynomial from its values.
- Theorem `polyMulTc_spec`: the product of two polynomials.
- Theorem `polyMulTc_iff`: when every word on the way is the integer that is meant.
-/

namespace CadoNfs.Poly

open Function (update update_idem update_of_ne update_self)
open ForRange Finset PowerRows

/-! ## Code -/

/-- What can go wrong in a function of `poly.c` or `sqrt.c`: an assertion, more than
`MAX_T` values, an allocation of a negative number of coefficients, an overflow of an
`int`, or an entry beyond the end of an array. -/
inductive PolyError
  | assertion
  | tooLong
  | alloc
  | overflow
  | outOfBounds
deriving DecidableEq, Repr

/-- `MAX_T`. -/
def maxT : ℕ := 13

/-- The loop of `gcd_uint64`. -/
def gcdUint64Loop (a b : BitVec 64) : BitVec 64 :=
  if a.toNat > 0 then gcdUint64Loop (b % a) a else b
termination_by a.toNat
decreasing_by
  rw [BitVec.toNat_umod]
  exact Nat.mod_lt _ ‹a.toNat > 0›

variable (a b : BitVec 64)

/-- `gcd_uint64`. -/
def gcdUint64 : BitVec 64 :=
  gcdUint64Loop (if b ≤ a then a % b else a) b

/-- The entry `M[i][j]` at the beginning. -/
def powerEntry (i : ℕ) : ℕ → BitVec 64
  | 0 => 1
  | j + 1 => BitVec.ofNat 64 i * powerEntry i j

/-- The matrix and the values. -/
structure TcState where
  M : ℕ → ℕ → BitVec 64
  f : ℕ → ℤ

/-- A word of 64 bits as an `unsigned long` of `w` bits. -/
def toUlong (w : ℕ) (x : BitVec 64) : ℤ := (x.toNat % 2 ^ w : ℕ)

/-- Row `j` is subtracted from row `i`, to make `M[i][j]` zero. -/
def tcEliminate (w t i j : ℕ) (s : TcState) : TcState :=
  if s.M i j ≠ 0 then
    let g := gcdUint64 (s.M i j) (s.M j j)
    let h := s.M i j / g
    let g := s.M j j / g
    let f := update s.f i (s.f i * toUlong w g)
    let f := update f i (f i - f j * toUlong w h)
    let row := forRange (t + 1 - j)
      (fun k row => update row (j + k) (g * row (j + k) - h * s.M j (j + k))) (s.M i)
    ⟨update s.M i row, f⟩
  else s

/-- The elimination while going down. -/
def tcForward (w t : ℕ) (f : ℕ → ℤ) : TcState :=
  forRange t (fun u => forRange (u + 1) (tcEliminate w t (u + 1))) ⟨powerEntry, f⟩

/-- One pass while going up: `f[i]` from the coefficients after it. -/
def tcBack (w t : ℕ) (M : ℕ → ℕ → BitVec 64) (i : ℕ) (f : ℕ → ℤ) : Except PolyError (ℕ → ℤ) :=
  let f := forRange (t - i)
    (fun u f => update f i (f i - f (i + 1 + u) * toUlong w (M i (i + 1 + u)))) f
  if toUlong w (M i i) ∣ f i then .ok (update f i (f i / toUlong w (M i i)))
  else .error .assertion

/-- `poly_mul_tc_interpolate`. -/
def polyMulTcInterpolate (w : ℕ) (f : ℕ → ℤ) (t : ℕ) : Except PolyError (ℕ → ℤ) :=
  if t ≤ maxT then
    let s := tcForward w t f
    (List.range (t + 1)).foldlM (fun f u => tcBack w t s.M (t - u) f) s.f
  else .error .tooLong

/-- The value of the polynomial of degree `r` at `i`. -/
def hornerAt (g : ℕ → ℤ) (r i : ℕ) : ℤ :=
  forRange r (fun u y => y * i + g (r - 1 - u)) (g r)

/-- `poly_mul_tc`: the coefficients of the product and its degree. -/
def polyMulTc (w : ℕ) (f g : ℕ → ℤ) (r : ℤ) (h : ℕ → ℤ) (s : ℤ) :
    Except PolyError ((ℕ → ℤ) × ℤ) :=
  if r = -1 ∨ s = -1 then .ok (f, -1)
  else
    let t := r + s
    if t ≤ maxT then do
      let f := forRange (t.toNat + 1)
        (fun i f => update f i (hornerAt g r.toNat i * hornerAt h s.toNat i)) f
      let f ← polyMulTcInterpolate w f t.toNat
      .ok (f, t)
    else .error .tooLong

/-- `poly_sqr_tc`. -/
def polySqrTc (w : ℕ) (f g : ℕ → ℤ) (r : ℤ) : Except PolyError ((ℕ → ℤ) × ℤ) :=
  let t := 2 * r
  if r = -1 then .ok (f, -1)
  else if t ≤ maxT then do
    let f := forRange (t.toNat + 1)
      (fun i f => update f i (hornerAt g r.toNat i * hornerAt g r.toNat i)) f
    let f ← polyMulTcInterpolate w f t.toNat
    .ok (f, t)
  else .error .tooLong

/-! ## The matrix -/

theorem toNat_gcdUint64Loop : (gcdUint64Loop a b).toNat = Nat.gcd a.toNat b.toNat := by
  fun_induction gcdUint64Loop a b with
  | case1 a b h ih => rw [ih, BitVec.toNat_umod, ← Nat.gcd_rec]
  | case2 a b h => rw [Nat.eq_zero_of_not_pos h, Nat.gcd_zero_left]

theorem toNat_gcdUint64 : (gcdUint64 a b).toNat = Nat.gcd a.toNat b.toNat := by
  rw [gcdUint64, toNat_gcdUint64Loop]
  split_ifs
  · rw [BitVec.toNat_umod, ← Nat.gcd_rec, Nat.gcd_comm]
  · rfl

/-- The matrix and the values after some eliminations: in row `i` there have been
`st i` of them. -/
structure TcStage (t : ℕ) (c : ℕ → ℤ) (st : ℕ → ℕ) (s : TcState) : Prop where
  entry : ∀ i ≤ t, ∀ k ≤ t, (s.M i k).toNat = row (st i) i k
  value : ∀ i ≤ t, s.f i = ∑ k ∈ range (t + 1), c k * row (st i) i k

theorem pow_lt_of_le_maxT {t i k : ℕ} (ht : t ≤ maxT) (hi : i ≤ t) (hk : k ≤ t) :
    i ^ k < 2 ^ 64 := by
  have hi' : i ≤ 13 := hi.trans ht
  have hk' : k ≤ 13 := hk.trans ht
  calc i ^ k ≤ 13 ^ k := Nat.pow_le_pow_left hi' k
    _ ≤ 13 ^ 13 := Nat.pow_le_pow_right (by decide) hk'
    _ < 2 ^ 64 := by decide

theorem toNat_powerEntry {t i : ℕ} (ht : t ≤ maxT) (hi : i ≤ t) (k : ℕ) (hk : k ≤ t) :
    (powerEntry i k).toNat = i ^ k := by
  induction k with
  | zero => rfl
  | succ k ih =>
    have hlt := pow_lt_of_le_maxT ht hi hk
    have hi64 : i < 2 ^ 64 := (hi.trans ht).trans_lt (by decide)
    rw [powerEntry, BitVec.toNat_mul, BitVec.toNat_ofNat, Nat.mod_eq_of_lt hi64,
      ih (by omega), ← Nat.pow_succ', Nat.mod_eq_of_lt hlt]

theorem rowPass_apply (g h : BitVec 64) (above row : ℕ → BitVec 64) (j n k : ℕ) :
    forRange n (fun k row => update row (j + k) (g * row (j + k) - h * above (j + k)))
      row k = if j ≤ k ∧ k < j + n then g * row k - h * above k else row k := by
  induction n with
  | zero => rw [forRange_zero, if_neg (by omega)]
  | succ n ih =>
    rw [forRange_succ]
    by_cases hk : k = j + n
    · subst hk
      rw [update_self, ih, if_neg (by omega), if_pos (by omega)]
    · rw [update_of_ne hk, ih]
      exact if_congr (by omega) rfl rfl

theorem toUlong_of_lt {w : ℕ} {x : BitVec 64} (hx : x.toNat < 2 ^ w) :
    toUlong w x = x.toNat := by
  rw [toUlong, Nat.mod_eq_of_lt hx]

/-! ## Going down -/

section Forward

variable {w t i j : ℕ} {c : ℕ → ℤ} {st : ℕ → ℕ} {s : TcState}

theorem TcStage.factors (hs : TcStage t c st s) (hj : j < i) (hi : i ≤ t) (hsti : st i = j)
    (hstj : st j = j) :
    (s.M j j).toNat = j.factorial ∧ (s.M i j).toNat = i.choose j * j.factorial ∧
      (s.M i j / gcdUint64 (s.M i j) (s.M j j)).toNat = i.choose j ∧
      s.M j j / gcdUint64 (s.M i j) (s.M j j) = 1 := by
  have hfact : 0 < j.factorial := j.factorial_pos
  have hpivot : (s.M j j).toNat = j.factorial := by
    rw [hs.entry j (by omega) j (by omega), hstj, row_pivot]
  have hbelow : (s.M i j).toNat = i.choose j * j.factorial := by
    rw [hs.entry i hi j (by omega), hsti, row_below hj]
  have hgcd : (gcdUint64 (s.M i j) (s.M j j)).toNat = j.factorial := by
    rw [toNat_gcdUint64, hpivot, hbelow, Nat.gcd_mul_left_left]
  refine ⟨hpivot, hbelow, ?_, BitVec.eq_of_toNat_eq ?_⟩
  · rw [BitVec.toNat_udiv, hgcd, hbelow, Nat.mul_div_cancel _ hfact]
  · rw [BitVec.toNat_udiv, hgcd, hpivot, Nat.div_self hfact]
    rfl

theorem choose_lt (hw : 32 ≤ w) (ht : t ≤ maxT) (hi : i ≤ t) : i.choose j < 2 ^ w := by
  have hi' : i ≤ 13 := hi.trans ht
  calc i.choose j ≤ 2 ^ i := Nat.choose_le_two_pow i j
    _ ≤ 2 ^ 13 := Nat.pow_le_pow_right (by decide) hi'
    _ < 2 ^ 32 := by decide
    _ ≤ 2 ^ w := Nat.pow_le_pow_right (by decide) hw

theorem toUlong_one (hw : 32 ≤ w) : toUlong w 1 = 1 := by
  have h1 : (1 : BitVec 64).toNat = 1 := rfl
  rw [toUlong_of_lt (by rw [h1]; exact Nat.one_lt_two_pow (by omega)), h1, Nat.cast_one]

/-- One row operation of the interpolation. -/
theorem TcStage.eliminate (hw : 32 ≤ w) (ht : t ≤ maxT) (hs : TcStage t c st s) (hj : j < i)
    (hi : i ≤ t) (hsti : st i = j) (hstj : st j = j) :
    TcStage t c (update st i (j + 1)) (tcEliminate w t i j s) := by
  have hchoose : 0 < i.choose j := Nat.choose_pos hj.le
  obtain ⟨-, hbelow, hh, hg⟩ := hs.factors hj hi hsti hstj
  have hne : s.M i j ≠ 0 := by
    intro h0
    rw [h0] at hbelow
    have := Nat.mul_pos hchoose j.factorial_pos
    rw [← hbelow] at this
    exact absurd this (by decide)
  rw [tcEliminate, if_pos hne]
  dsimp only
  rw [hg, toUlong_one hw, mul_one, Function.update_eq_self,
    toUlong_of_lt (by rw [hh]; exact choose_lt hw ht hi), hh]
  refine ⟨fun i' hi' k hk => ?_, fun i' hi' => ?_⟩
  · dsimp only
    by_cases heq : i' = i
    · subst heq
      simp only [update_self]
      rw [rowPass_apply 1 _ (s.M j) (s.M i') j]
      have hM := hs.entry i' hi' k hk
      rw [hsti] at hM
      by_cases hkj : j ≤ k
      · rw [if_pos ⟨hkj, by omega⟩, one_mul]
        have hMj := hs.entry j (by omega) k hk
        rw [hstj] at hMj
        have hadd := row_eq_add hj k
        have hprod : (s.M i' j / gcdUint64 (s.M i' j) (s.M j j) * s.M j k).toNat
            = i'.choose j * row j j k := by
          rw [BitVec.toNat_mul, hh, hMj, Nat.mod_eq_of_lt]
          exact lt_of_le_of_lt (by omega) (s.M i' k).isLt
        rw [BitVec.toNat_sub_of_le (by rw [BitVec.le_def, hprod, hM]; omega), hprod, hM]
        omega
      · rw [if_neg (by omega), hM, row_of_lt (by omega), row_of_lt (by omega)]
    · rw [update_of_ne heq, update_of_ne heq]
      exact hs.entry i' hi' k hk
  · dsimp only
    by_cases heq : i' = i
    · subst heq
      rw [update_self, update_self, hs.value i' hi', hs.value j (by omega), hsti,
        hstj, sum_mul, ← sum_sub_distrib]
      refine sum_congr rfl fun k _ => ?_
      rw [row_eq_add hj k]
      push_cast
      ring
    · rw [update_of_ne heq, update_of_ne heq]
      exact hs.value i' hi'

theorem TcStage.rowPass {u : ℕ} (hw : 32 ≤ w) (ht : t ≤ maxT)
    (hs : TcStage t c (fun i => if i ≤ u then i else 0) s) (hu : u < t) (hj : j ≤ u + 1) :
    TcStage t c (update (fun i => if i ≤ u then i else 0) (u + 1) j)
      (forRange j (tcEliminate w t (u + 1)) s) := by
  refine forRange_induct (motive := fun j s => TcStage t c
    (update (fun i => if i ≤ u then i else 0) (u + 1) j) s) (tcEliminate w t (u + 1)) s j ?_ ?_
  · convert hs using 1
    funext i
    by_cases hi : i = u + 1
    · rw [hi, update_self, if_neg (by omega)]
    · rw [update_of_ne hi]
  · intro l hl s hs
    have := hs.eliminate hw ht (by omega) hu (update_self _ _ _)
      (by rw [update_of_ne (by omega), if_pos (by omega)])
    rwa [update_idem] at this

theorem rows_stage {u : ℕ} (hw : 32 ≤ w) (ht : t ≤ maxT) {f : ℕ → ℤ}
    (hf : ∀ i ≤ t, f i = ∑ k ∈ range (t + 1), c k * (i : ℤ) ^ k) (hu : u ≤ t) :
    TcStage t c (fun i => if i ≤ u then i else 0)
      (forRange u (fun u => forRange (u + 1) (tcEliminate w t (u + 1))) ⟨powerEntry, f⟩) := by
  refine forRange_induct (motive := fun u s => TcStage t c (fun i => if i ≤ u then i else 0) s)
    (fun u => forRange (u + 1) (tcEliminate w t (u + 1))) ⟨powerEntry, f⟩ u ?_ ?_
  · refine ⟨fun i hi k hk => ?_, fun i hi => ?_⟩
    · rw [toNat_powerEntry ht hi k hk, ← row_zero]
      split_ifs <;> congr 1; omega
    · dsimp only
      rw [hf i hi]
      refine sum_congr rfl fun k _ => ?_
      rw [← Nat.cast_pow, ← row_zero]
      split_ifs <;> congr 3; omega
  · intro v hv s hs
    convert hs.rowPass hw ht (by omega) le_rfl using 1
    funext i
    by_cases hi : i = v + 1
    · rw [hi, update_self, if_pos le_rfl]
    · rw [update_of_ne hi]
      exact if_congr (by omega) rfl rfl

/-- After the elimination row `i` has been changed `i` times. -/
theorem tcForward_spec (hw : 32 ≤ w) (ht : t ≤ maxT) {f : ℕ → ℤ}
    (hf : ∀ i ≤ t, f i = ∑ k ∈ range (t + 1), c k * (i : ℤ) ^ k) :
    TcStage t c id (tcForward w t f) := by
  have hrows := rows_stage hw ht hf le_rfl
  refine ⟨fun i hi k hk => ?_, fun i hi => ?_⟩
  · have := hrows.entry i hi k hk
    rwa [if_pos hi] at this
  · have := hrows.value i hi
    simp only [if_pos hi] at this
    exact this

end Forward

/-! ## Going up -/

/-- The entries of the matrix at the end fit in an `unsigned long`. -/
def TcFits (w t : ℕ) : Prop :=
  ∀ i ≤ t, ∀ k ≤ t, row i i k < 2 ^ w

theorem tcFits_of_word64 {t : ℕ} (ht : t ≤ maxT) : TcFits 64 t :=
  fun i hi k hk => (row_le_pow i i k).trans_lt (pow_lt_of_le_maxT ht hi hk)

theorem tcFits_of_word32 {t : ℕ} (ht : t ≤ 11) : TcFits 32 t := by
  have hall : ∀ i < 12, ∀ k < 12, i.factorial * Nat.stirlingSecond k i < 2 ^ 32 := by
    decide +kernel
  intro i hi k hk
  rw [row_self]
  exact hall i (by omega) k (by omega)

section Back

variable {w t i : ℕ} {c f : ℕ → ℤ} {M : ℕ → ℕ → BitVec 64}

theorem tcBack_spec (hfits : TcFits w t)
    (hM : ∀ i ≤ t, ∀ k ≤ t, (M i k).toNat = row i i k) (hi : i ≤ t)
    (hknown : ∀ k, i < k → k ≤ t → f k = c k)
    (hvalue : f i = ∑ k ∈ range (t + 1), c k * row i i k) :
    ∃ f', tcBack w t M i f = .ok f' ∧ f' i = c i ∧ ∀ k, k ≠ i → f' k = f k := by
  have hword : ∀ k ≤ t, toUlong w (M i k) = row i i k := fun k hk => by
    rw [toUlong_of_lt (by rw [hM i hi k hk]; exact hfits i hi k hk), hM i hi k hk]
  -- the known coefficients before `i + 1 + u` are gone
  have hloop := forRange_induct
    (motive := fun u g => g i = ∑ k ∈ range (i + 1), c k * row i i k
        + ∑ k ∈ Ico (i + 1 + u) (t + 1), c k * row i i k ∧ ∀ k, k ≠ i → g k = f k)
    (fun u g => update g i (g i - g (i + 1 + u) * toUlong w (M i (i + 1 + u)))) f (t - i)
    ⟨by rw [hvalue, sum_range_add_sum_Ico _ (by omega)], fun _ _ => rfl⟩ ?_
  · obtain ⟨hsum, hrest⟩ := hloop
    have hempty : Ico (i + 1 + (t - i)) (t + 1) = ∅ := Ico_eq_empty (by omega)
    have hlast : ∑ k ∈ range (i + 1), c k * row i i k = c i * (i.factorial : ℕ) := by
      rw [sum_range_succ, row_pivot, sum_eq_zero fun k hk => by
        rw [row_of_lt (mem_range.mp hk), Nat.cast_zero, mul_zero], zero_add]
    rw [hempty, sum_empty, add_zero, hlast] at hsum
    have hfact : (i.factorial : ℤ) ≠ 0 := by exact_mod_cast i.factorial_ne_zero
    rw [tcBack, hword i hi, row_pivot, if_pos (by rw [hsum]; exact Dvd.intro_left _ rfl)]
    refine ⟨_, rfl, ?_, fun k hk => ?_⟩
    · rw [update_self, hsum, Int.mul_ediv_cancel _ hfact]
    · rw [update_of_ne hk, hrest k hk]
  · rintro u hu g ⟨hsum, hrest⟩
    refine ⟨?_, fun k hk => by rw [update_of_ne hk, hrest k hk]⟩
    rw [update_self, hsum, hrest _ (by omega), hknown _ (by omega) (by omega),
      hword _ (by omega), sum_eq_sum_Ico_succ_bot (show i + 1 + u < t + 1 by omega),
      show i + 1 + (u + 1) = i + 1 + u + 1 by omega]
    ring

/-- The coefficients of the polynomial that has the given values. -/
theorem polyMulTcInterpolate_spec (hw : 32 ≤ w) (ht : t ≤ maxT) (hfits : TcFits w t)
    (hf : ∀ i ≤ t, f i = ∑ k ∈ range (t + 1), c k * (i : ℤ) ^ k) :
    ∃ f', polyMulTcInterpolate w f t = .ok f' ∧ ∀ i ≤ t, f' i = c i := by
  obtain ⟨hM, hvalue⟩ := tcForward_spec hw ht hf
  rw [polyMulTcInterpolate, if_pos ht]
  -- the coefficients from the last one on are known
  have hloop : Ends (fun g => ∀ k ≤ t, g k = c k) (fun _ => False)
      ((List.range (t + 1)).foldlM (fun g u => tcBack w t (tcForward w t f).M (t - u) g)
        (tcForward w t f).f) := by
    refine (Ends.foldlM_range (motive := fun u (g : ℕ → ℤ) =>
      (∀ k ≤ t, t + 1 ≤ k + u → g k = c k) ∧
      ∀ k ≤ t, k + u < t + 1 → g k = (tcForward w t f).f k)
      ⟨fun k hk hle => by omega, fun _ _ _ => rfl⟩ ?_).mono
      (fun g hg k hk => hg.1 k hk (by omega)) fun _ h => h
    rintro u hu g ⟨hknown, hrest⟩
    have hi : t - u ≤ t := t.sub_le u
    obtain ⟨g', hrun, hnew, hother⟩ := tcBack_spec hfits hM hi
      (fun k hk hkt => hknown k hkt (by omega)) ((hrest _ hi (by omega)).trans (hvalue _ hi))
    refine (congrArg (Ends _ _) hrun).mpr (.ok ⟨fun k hk hle => ?_, fun k hk hlt => ?_⟩)
    · by_cases hkeq : k = t - u
      · rw [hkeq, hnew]
      · rw [hother k hkeq, hknown k hk (by omega)]
    · rw [hother k (by omega), hrest k hk (by omega)]
  exact hloop.exists_ok fun _ h => h

end Back

/-! ## Products -/

section Products

variable {w : ℕ} {g h : PolyT} {r s : ℕ}

theorem hornerAt_eq (c : ℕ → ℤ) (r i : ℕ) :
    hornerAt c r i = ∑ k ∈ range (r + 1), c k * (i : ℤ) ^ k := by
  have hloop := forRange_induct
    (motive := fun u y => u ≤ r → y = ∑ k ∈ range (u + 1), c (r - u + k) * (i : ℤ) ^ k)
    (fun u y => y * i + c (r - 1 - u)) (c r) r (fun _ => by simp) ?_
  · rw [hornerAt, hloop le_rfl]
    exact sum_congr rfl fun k _ => by rw [Nat.sub_self, zero_add]
  · intro u hu y hy _
    rw [hy (by omega), sum_range_succ' _ (u + 1), sum_mul, pow_zero, mul_one]
    refine congrArg₂ (· + ·) (sum_congr rfl fun k _ => ?_) (congrArg c (by omega))
    rw [show r - (u + 1) + (k + 1) = r - u + k by omega, pow_succ, mul_assoc]

theorem eval_toPoly (hg : g.deg = r) (i : ℕ) : g.toPoly.eval (i : ℤ) = hornerAt g.coeff r i := by
  rw [hornerAt_eq, PolyT.toPoly, Polynomial.eval_finsetSum, hg]
  simp only [Polynomial.eval_monomial]
  rfl

theorem natDegree_toPoly_le (hg : g.deg ≤ r) : g.toPoly.natDegree ≤ r := by
  rw [Polynomial.natDegree_le_iff_coeff_eq_zero]
  intro i hi
  rw [coeff_toPoly, if_neg (by omega)]

/-- The values of a product at 0, ..., `r + s`. -/
def productValues (f g h : ℕ → ℤ) (r s : ℕ) : ℕ → ℤ :=
  forRange (r + s + 1) (fun i f => update f i (hornerAt g r i * hornerAt h s i)) f

theorem productValues_eq (hg : g.deg = r) (hh : h.deg = s) (f : ℕ → ℤ) (i : ℕ)
    (hi : i ≤ r + s) : productValues f g.coeff h.coeff r s i
      = ∑ k ∈ range (r + s + 1), (g.toPoly * h.toPoly).coeff k * (i : ℤ) ^ k := by
  have hdeg : (g.toPoly * h.toPoly).natDegree < r + s + 1 :=
    Nat.lt_succ_of_le (Polynomial.natDegree_mul_le.trans
      (add_le_add (natDegree_toPoly_le hg.le) (natDegree_toPoly_le hh.le)))
  rw [← Polynomial.eval_eq_sum_range' hdeg, Polynomial.eval_mul, eval_toPoly hg, eval_toPoly hh]
  exact forRange_update_apply (p := fun i : ℕ => i)
    (fun i => hornerAt g.coeff r i * hornerAt h.coeff s i) (fun _ _ _ _ heq => heq)
    (Nat.lt_succ_of_le hi) f

/-- The coefficients of the product, when there are not too many of them. -/
theorem polyMulTc_spec (hw : 32 ≤ w) (hg : g.deg = r) (hh : h.deg = s) (ht : r + s ≤ maxT)
    (hfits : TcFits w (r + s)) (f : ℕ → ℤ) :
    ∃ f', polyMulTc w f g.coeff g.deg h.coeff h.deg = .ok (f', ((r + s : ℕ) : ℤ)) ∧
      ∀ i ≤ r + s, f' i = (g.toPoly * h.toPoly).coeff i := by
  obtain ⟨f', hrun, hcoeff⟩ := polyMulTcInterpolate_spec hw ht hfits (productValues_eq hg hh f)
  refine ⟨f', ?_, hcoeff⟩
  rw [polyMulTc, if_neg (by omega), hg, hh, if_pos (by exact_mod_cast ht), ← Nat.cast_add]
  simp only [Int.toNat_natCast]
  rw [productValues] at hrun
  rw [hrun]
  rfl

/-! ## The words on the way -/

/-- The state before row `j` is subtracted from row `u + 1`. -/
def tcBefore (w t : ℕ) (f : ℕ → ℤ) (u j : ℕ) : TcState :=
  forRange j (tcEliminate w t (u + 1))
    (forRange u (fun u => forRange (u + 1) (tcEliminate w t (u + 1))) ⟨powerEntry, f⟩)

/-- An elimination whose multipliers are passed with their values to `mpz_mul_ui` and
`mpz_submul_ui`, and whose new entries are the integers that are meant. -/
structure StepExact (w t i j : ℕ) (s : TcState) : Prop where
  pivot : s.M j j ≠ 0
  factor : toUlong w (s.M j j / gcdUint64 (s.M i j) (s.M j j))
    = (s.M j j / gcdUint64 (s.M i j) (s.M j j)).toNat
  factor_above : toUlong w (s.M i j / gcdUint64 (s.M i j) (s.M j j))
    = (s.M i j / gcdUint64 (s.M i j) (s.M j j)).toNat
  nonneg : ∀ k, j ≤ k → k ≤ t →
    (s.M i j / gcdUint64 (s.M i j) (s.M j j)).toNat * (s.M j k).toNat
      ≤ (s.M j j / gcdUint64 (s.M i j) (s.M j j)).toNat * (s.M i k).toNat
  lt : ∀ k, j ≤ k → k ≤ t →
    (s.M j j / gcdUint64 (s.M i j) (s.M j j)).toNat * (s.M i k).toNat < 2 ^ 64

/-- The interpolation of `t + 1` values: every elimination, and then the multipliers and the
divisors while going up. -/
structure TcExact (w t : ℕ) (f : ℕ → ℤ) : Prop where
  steps : ∀ u < t, ∀ j ≤ u, StepExact w t (u + 1) j (tcBefore w t f u j)
  pivots : ∀ i ≤ t, (tcForward w t f).M i i ≠ 0
  multipliers : ∀ i ≤ t, ∀ k ≤ t, i ≤ k →
    toUlong w ((tcForward w t f).M i k) = ((tcForward w t f).M i k).toNat

theorem stepExact_tcBefore {t u j : ℕ} {c f : ℕ → ℤ} (hw : 32 ≤ w) (ht : t ≤ maxT)
    (hf : ∀ i ≤ t, f i = ∑ k ∈ range (t + 1), c k * (i : ℤ) ^ k) (hu : u < t) (hj : j ≤ u) :
    StepExact w t (u + 1) j (tcBefore w t f u j) := by
  have hs := (rows_stage hw ht hf hu.le).rowPass hw ht hu (show j ≤ u + 1 by omega)
  have hlt : j < u + 1 := by omega
  have hstj : update (fun i => if i ≤ u then i else 0) (u + 1) j j = j := by
    rw [update_of_ne (by omega), if_pos hj]
  obtain ⟨hpivot, -, hh, hg⟩ := hs.factors hlt hu (update_self _ _ _) hstj
  change (tcBefore w t f u j).M j j / gcdUint64 ((tcBefore w t f u j).M (u + 1) j)
    ((tcBefore w t f u j).M j j) = 1 at hg
  have hone : (1 : BitVec 64).toNat = 1 := rfl
  refine ⟨fun h0 => ?_, ?_, ?_, fun k hk hkt => ?_, fun k hk hkt => ?_⟩
  · have hzero : ((tcBefore w t f u j).M j j).toNat = 0 := by rw [h0]; rfl
    exact j.factorial_ne_zero (hpivot.symm.trans hzero)
  · rw [hg, toUlong_one hw, hone, Nat.cast_one]
  · exact toUlong_of_lt (hh.trans_lt (choose_lt hw ht hu))
  · have hMj := hs.entry j (by omega) k hkt
    have hMi := hs.entry (u + 1) hu k hkt
    rw [hstj] at hMj
    rw [update_self] at hMi
    rw [hg, hone, one_mul]
    refine (congrArg₂ (· * ·) hh hMj).trans_le ((?_ : _ ≤ _).trans_eq hMi.symm)
    have := row_eq_add hlt k
    omega
  · rw [hg, hone, one_mul]
    exact BitVec.isLt _

theorem tcExact_iff {t : ℕ} {c f : ℕ → ℤ} (hw : 32 ≤ w) (ht : t ≤ maxT)
    (hf : ∀ i ≤ t, f i = ∑ k ∈ range (t + 1), c k * (i : ℤ) ^ k) :
    TcExact w t f ↔ TcFits w t := by
  obtain ⟨hM, -⟩ := tcForward_spec hw ht hf
  constructor
  · intro h i hi k hk
    by_cases hik : i ≤ k
    · have hpass := h.multipliers i hi k hk hik
      rw [toUlong, hM i hi k hk, Nat.cast_inj] at hpass
      exact hpass ▸ Nat.mod_lt _ (Nat.two_pow_pos w)
    · rw [row_of_lt (by omega)]
      exact Nat.two_pow_pos w
  · refine fun hfits => ⟨fun u hu j hj => stepExact_tcBefore hw ht hf hu hj, fun i hi h0 => ?_,
      fun i hi k hk _ => toUlong_of_lt ((hM i hi k hk).trans_lt (hfits i hi k hk))⟩
    have hpivot := hM i hi i hi
    rw [h0, id, row_pivot] at hpivot
    exact i.factorial_ne_zero hpivot.symm

theorem tcFits_iff {t : ℕ} (hw : w = 32 ∨ w = 64) (ht : t ≤ maxT) :
    TcFits w t ↔ w = 64 ∨ t ≤ 11 := by
  obtain rfl | rfl := hw
  · refine ⟨fun h => .inr ?_, fun h => tcFits_of_word32 (h.resolve_left (by decide))⟩
    by_contra hlong
    have hlarge : ¬row 8 8 12 < 2 ^ 32 := by
      rw [row_self]
      decide +kernel
    exact hlarge (h 8 (by omega) 12 (by omega))
  · exact ⟨fun _ => .inl rfl, fun _ => tcFits_of_word64 ht⟩

theorem polySqrTc_eq (w : ℕ) (f g : ℕ → ℤ) (r : ℤ) :
    polySqrTc w f g r = polyMulTc w f g r g r := by
  simp [polySqrTc, polyMulTc, two_mul]

/-- Products and squares are right, with every word on the way, exactly if the words are those
of a 64-bit machine or there are at most 12 values. -/
theorem polyMulTc_iff (hw : w = 32 ∨ w = 64) (hg : g.deg = r) (hh : h.deg = s)
    (ht : r + s ≤ maxT) (f : ℕ → ℤ) :
    ((TcExact w (r + s) (productValues f g.coeff h.coeff r s) ∧
      ∃ f', polyMulTc w f g.coeff g.deg h.coeff h.deg = .ok (f', ((r + s : ℕ) : ℤ)) ∧
        ∀ i ≤ r + s, f' i = (g.toPoly * h.toPoly).coeff i) ↔ w = 64 ∨ r + s ≤ 11) ∧
    (2 * r ≤ maxT → ((TcExact w (2 * r) (productValues f g.coeff g.coeff r r) ∧
      ∃ f', polySqrTc w f g.coeff g.deg = .ok (f', ((2 * r : ℕ) : ℤ)) ∧
        ∀ i ≤ 2 * r, f' i = (g.toPoly ^ 2).coeff i) ↔ w = 64 ∨ 2 * r ≤ 11)) := by
  have hw32 : 32 ≤ w := by
    obtain rfl | rfl := hw <;> decide
  have hall : ∀ {h : PolyT} {s : ℕ}, h.deg = s → r + s ≤ maxT →
      ((TcExact w (r + s) (productValues f g.coeff h.coeff r s) ∧
        ∃ f', polyMulTc w f g.coeff g.deg h.coeff h.deg = .ok (f', ((r + s : ℕ) : ℤ)) ∧
          ∀ i ≤ r + s, f' i = (g.toPoly * h.toPoly).coeff i) ↔ w = 64 ∨ r + s ≤ 11) := by
    intro h s hh ht
    rw [tcExact_iff hw32 ht (productValues_eq hg hh f), ← tcFits_iff hw ht]
    exact ⟨And.left, fun hfits => ⟨hfits, polyMulTc_spec hw32 hg hh ht hfits f⟩⟩
  refine ⟨hall hh ht, fun ht => ?_⟩
  rw [two_mul, pow_two, polySqrTc_eq]
  exact hall hg (by rwa [two_mul] at ht)

/-- The polynomials `x ^ 6 + 1` and `x ^ 7`. -/
theorem polyMulTc_iff_thirteen :
    ((TcExact 64 (6 + 7) (productValues (fun _ => 0) (fun i => if i % 6 = 0 then 1 else 0)
        (fun i => if i = 7 then 1 else 0) 6 7) ∧
      ∃ f', polyMulTc 64 (fun _ => 0) (fun i => if i % 6 = 0 then 1 else 0) 6
          (fun i => if i = 7 then 1 else 0) 7 = .ok (f', 13) ∧
        ∀ i ≤ 13, f' i = (PolyT.toPoly ⟨7, 6, fun i => if i % 6 = 0 then 1 else 0⟩
          * PolyT.toPoly ⟨8, 7, fun i => if i = 7 then 1 else 0⟩).coeff i) ↔
      64 = 64 ∨ 6 + 7 ≤ 11) :=
  (polyMulTc_iff (.inr rfl) (g := ⟨7, 6, fun i => if i % 6 = 0 then 1 else 0⟩)
    (h := ⟨8, 7, fun i => if i = 7 then 1 else 0⟩) rfl rfl (by decide) _).1

/-- On a 32-bit machine a multiplier of the square of `x ^ 6` is truncated. -/
theorem not_tcExact_word32 :
    ¬TcExact 32 12 (productValues (fun _ => 0) (fun i => if i = 6 then 1 else 0)
      (fun i => if i = 6 then 1 else 0) 6 6) := by
  intro h
  have hg : (⟨7, 6, fun i => if i = 6 then 1 else 0⟩ : PolyT).deg = (6 : ℕ) := rfl
  have hfits := (tcExact_iff (by decide) (by decide) (productValues_eq hg hg _)).mp h
  have := (tcFits_iff (.inl rfl) (by decide)).mp hfits
  omega

end Products

end CadoNfs.Poly
