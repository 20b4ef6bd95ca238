import CadoNfs.Lib.SmallDivision
import CadoNfs.Utils.UlarithWide
import Mathlib.Data.Nat.Prime.Basic

/-!
# Trial division with precomputed tables

`trialdiv.c` divides a number of at most six words by the primes of a table.  The number
is first reduced to one word, with the residues of the powers of the word base; the product
with the inverse of the prime then tells whether the prime divides.

Main results:

- Theorem `trialdivInit_spec`: the table of a list of primes.
- Theorem `trialdivDivides_eq`: the test that `trialdiv` makes for a number of up to six
  words.
- Theorem `trialdiv_spec`: the factors that are found and the number that is left.
- Theorem `trialdiv_of_le`: longer numbers are refused.
- Theorem `trialdiv_correct`: tests and loop with the table of any list of odd primes.
-/

namespace CadoNfs

open WordArith
open BitVec (allOnes eq_of_toNat_eq lt_def ofNat toNat_mul)
open Outcome (assert assert_of)
open TwoWord (mulWide mulWide_value value)

variable {w : ℕ}

/-! ## The table -/

/-- `TRIALDIV_MAXLEN`. -/
def trialdivMaxlen : ℕ := 6

/-- `trialdiv_divisor_t`. -/
structure TrialdivDivisor (w : ℕ) where
  p : BitVec w
  wpow : List (BitVec w)
  pinv : BitVec w
  plim : BitVec w
deriving DecidableEq, Repr

/-- The entry `w[i]` of a divisor. -/
def TrialdivDivisor.word (d : TrialdivDivisor w) (i : ℕ) : BitVec w :=
  d.wpow.getD i 0#w

/-- The entry `w[0]`; for `p = 1` the division would overflow. -/
def trialdivFirstPower (p : BitVec w) : Outcome (BitVec w) :=
  if p = 1#w then pure 0#w else ularithDiv2ulUlUlR ⟨0#w, 1#w⟩ p

/-- The entries after `last`. -/
def trialdivPowers (p : BitVec w) : ℕ → BitVec w → Outcome (List (BitVec w))
  | 0, _ => pure []
  | n + 1, last => do
    let next ← ularithDiv2ulUlUlR ⟨0#w, last⟩ p
    let rest ← trialdivPowers p n next
    pure (next :: rest)

/-- `trialdiv_init_divisor`. -/
def trialdivInitDivisor (p : BitVec w) : Outcome (TrialdivDivisor w) := do
  assert (p % 2#w = 1#w)
  assert (p < 1#w <<< (w / 2))
  assert (p * p < allOnes w / ofNat w (trialdivMaxlen - 1))
  let w0 ← trialdivFirstPower p
  let rest ← trialdivPowers p (trialdivMaxlen - 2) w0
  let pinv ← ularithInvmod p
  pure ⟨p, w0 :: rest, pinv, allOnes w / p⟩

/-- The loop of `trialdiv_init`. -/
def trialdivInitLoop : List ℕ → Outcome (List (TrialdivDivisor w))
  | [] => do
    let d ← trialdivInitDivisor 1#w
    pure [d]
  | p :: f => do
    let d ← trialdivInitDivisor (ofNat w p)
    let ds ← trialdivInitLoop f
    pure (d :: ds)

/-- `trialdiv_init`: the table of the primes, with the sentinel at the end. -/
def trialdivInit (f : List ℕ) : Outcome (List (TrialdivDivisor w)) :=
  trialdivInitLoop f

/-! ## The tests -/

/-- Word `i` of a number. -/
def limb (w N i : ℕ) : BitVec w :=
  ofNat w (N / 2 ^ (w * i))

/-- `mpz_size`, with words of `w` bits. -/
def mpzSize (w N : ℕ) : ℕ :=
  (N.size + (w - 1)) / w

/-- The words after the second, each times its power, are added. -/
def trialdivAccumulate (build : UlarithBuild) (n : ℕ → BitVec w) (d : TrialdivDivisor w)
    (r : TwoWord w) : List ℕ → Outcome (TwoWord w)
  | [] => pure r
  | i :: rest => do
    let x ← ularithMulUlUl2ul build (n i) (d.word (i - 1))
    let r ← tracedAdd2ul2ul build r x
    trialdivAccumulate build n d r rest

/-- Two words to one, with a last correction for the carry. -/
def trialdivFold (d : TrialdivDivisor w) (r : TwoWord w) : BitVec w :=
  let x0 := r.hi * d.word 0
  let x0 := x0 + r.lo
  if x0 < r.lo then x0 + d.word 0 else x0

/-- `trialdiv_div1`. -/
def trialdivDiv1 (n : ℕ → BitVec w) (d : TrialdivDivisor w) : Bool :=
  n 0 * d.pinv ≤ d.plim

variable (build : UlarithBuild)

/-- The body that `trialdiv_div2` to `trialdiv_div6` share, with the places of the
words after the second. -/
def trialdivDivWords (rest : List ℕ) (n : ℕ → BitVec w)
    (d : TrialdivDivisor w) : Outcome Bool := do
  let x ← ularithMulUlUl2ul build (n 1) (d.word 0)
  let r ← tracedAddUl2ul build ⟨n 0, x.hi⟩ x.lo
  let r ← trialdivAccumulate build n d r rest
  pure (trialdivFold d r * d.pinv ≤ d.plim)

/-- `trialdiv_div2`. -/
def trialdivDiv2 : (ℕ → BitVec w) → TrialdivDivisor w → Outcome Bool :=
  trialdivDivWords build []

/-- `trialdiv_div3`. -/
def trialdivDiv3 : (ℕ → BitVec w) → TrialdivDivisor w → Outcome Bool :=
  trialdivDivWords build [2]

/-- `trialdiv_div4`. -/
def trialdivDiv4 : (ℕ → BitVec w) → TrialdivDivisor w → Outcome Bool :=
  trialdivDivWords build [2, 3]

/-- `trialdiv_div5`. -/
def trialdivDiv5 : (ℕ → BitVec w) → TrialdivDivisor w → Outcome Bool :=
  trialdivDivWords build [2, 3, 4]

/-- `trialdiv_div6`. -/
def trialdivDiv6 : (ℕ → BitVec w) → TrialdivDivisor w → Outcome Bool :=
  trialdivDivWords build [2, 3, 4, 5]

/-- The test for a number of `s` words; `trialdiv` has none for more than six. -/
def trialdivDivides (s : ℕ) (n : ℕ → BitVec w)
    (d : TrialdivDivisor w) : Outcome Bool :=
  match s with
  | 0 | 1 => pure (trialdivDiv1 n d)
  | 2 => trialdivDiv2 build n d
  | 3 => trialdivDiv3 build n d
  | 4 => trialdivDiv4 build n d
  | 5 => trialdivDiv5 build n d
  | 6 => trialdivDiv6 build n d
  | _ => .abort

/-! ## The loop -/

/-- The inner loop: the table from the next divisor on that passes the test.  There is none
beyond the end of the array. -/
def trialdivNext (build : UlarithBuild) (N : ℕ) :
    List (TrialdivDivisor w) → Outcome (List (TrialdivDivisor w))
  | [] => .abort
  | d :: ds => do
    let found ← trialdivDivides build (mpzSize w N) (limb w N) d
    if found then pure (d :: ds) else trialdivNext build N ds

/-- What `trialdiv` leaves: the array `f` as far as it is written, the number and
the return value. -/
structure TrialdivResult (w : ℕ) where
  f : List (BitVec w)
  N : ℕ
  n : ℕ
deriving DecidableEq, Repr

/-- One pass of the loop after the divisor has been found; `again` is the next pass. -/
def trialdivDivideOut (maxDiv : ℕ)
    (again : List (BitVec w) → ℕ → List (TrialdivDivisor w) → Outcome (TrialdivResult w))
    (f : List (BitVec w)) (N : ℕ) : List (TrialdivDivisor w) → Outcome (TrialdivResult w)
  | [] => .abort
  | d :: ds =>
    if d.p = 1#w then pure ⟨f, N, f.length⟩
    else do
      assert (d.p.toNat ∣ N)
      if f.length = maxDiv then pure ⟨f, N, maxDiv + 1⟩
      else again (f ++ [d.p]) (N / d.p.toNat) (d :: ds)

/-- The loop of `trialdiv`, for at most `fuel` passes. -/
def trialdivLoop (build : UlarithBuild) (maxDiv : ℕ) : ℕ → List (BitVec w) → ℕ →
    List (TrialdivDivisor w) → Outcome (TrialdivResult w)
  | 0, _, _, _ => .abort
  | fuel + 1, f, N, d =>
    if N > 1 then
      if mpzSize w N > trialdivMaxlen then .abort
      else do
        let d ← trialdivNext build N d
        trialdivDivideOut maxDiv (trialdivLoop build maxDiv fuel) f N d
    else pure ⟨f, N, f.length⟩

/-- `trialdiv`.  Every division makes the number smaller by a bit at least. -/
def trialdiv (N : ℕ) (d : List (TrialdivDivisor w)) (maxDiv : ℕ) :
    Outcome (TrialdivResult w) :=
  trialdivLoop build maxDiv (N.size + 1) [] N d

/-! ## The entries of the table -/

/-- The divisor of `p`. -/
structure TrialdivDivisor.Valid (d : TrialdivDivisor w) (p : ℕ) : Prop where
  toNat : d.p.toNat = p
  odd : p % 2 = 1
  small : 5 * (p * p) < 2 ^ w
  inv : d.pinv * d.p = 1#w
  lim : d.plim = allOnes w / d.p
  word : ∀ i < 5, (d.word i).toNat = 2 ^ (w * (i + 1)) % p

theorem trialdivFirstPower_eq {p : BitVec w} (hw : 0 < w) (hp : 0 < p.toNat) :
    ∃ r, trialdivFirstPower p = pure r ∧ r.toNat = 2 ^ w % p.toNat := by
  unfold trialdivFirstPower
  have hone : (1#w).toNat = 1 := toNat_const (Nat.one_lt_two_pow (by omega))
  split_ifs with h
  · refine ⟨0#w, rfl, ?_⟩
    rw [h, hone, Nat.mod_one]
    rfl
  · have hne : p.toNat ≠ 1 := fun h' => h (eq_of_toNat_eq (h'.trans hone.symm))
    obtain ⟨r, hr, hvalue⟩ := ularithDiv2ulUlUlR_eq (a := ⟨0#w, 1#w⟩) (b := p)
      (by change (1#w).toNat < p.toNat; omega)
    refine ⟨r, hr, hvalue.trans ?_⟩
    rw [value, hone]
    simp

theorem trialdivPowers_eq {p : BitVec w} (hp : 0 < p.toNat) (n : ℕ) {i : ℕ} {last : BitVec w}
    (hlast : last.toNat = 2 ^ (w * i) % p.toNat) :
    ∃ ws, trialdivPowers p n last = pure ws ∧
      ∀ j < n, (ws.getD j 0#w).toNat = 2 ^ (w * (i + 1 + j)) % p.toNat := by
  induction n generalizing i last with
  | zero => exact ⟨[], rfl, fun j hj => absurd hj (Nat.not_lt_zero j)⟩
  | succ n ih =>
    obtain ⟨next, hnext, hvalue⟩ := ularithDiv2ulUlUlR_eq (a := ⟨0#w, last⟩) (b := p)
      (by change last.toNat < p.toNat; rw [hlast]; exact Nat.mod_lt _ hp)
    have hpow : next.toNat = 2 ^ (w * (i + 1)) % p.toNat := by
      rw [hvalue, value, hlast, mul_add, mul_one, pow_add, mul_comm (2 ^ w)]
      simp
    obtain ⟨ws, hws, hword⟩ := ih hpow
    refine ⟨next :: ws, ?_, ?_⟩
    · rw [trialdivPowers, hnext, pure_bind, hws, pure_bind]
    · intro j hj
      cases j with
      | zero => exact hpow
      | succ j =>
        rw [List.getD_cons_succ, hword j (by omega)]
        congr 3
        omega

/-- The constants of a divisor recognise its multiples. -/
theorem trialdivInitDivisor_spec (hw : w = 32 ∨ w = 64) {p : ℕ} (hodd : p % 2 = 1)
    (hsmall : 5 * p ^ 2 < 2 ^ w - 1) :
    ∃ d : TrialdivDivisor w, trialdivInitDivisor (ofNat w p) = pure d ∧ d.Valid p := by
  have hhalf : p < 2 ^ (w / 2) := by
    refine lt_of_pow_lt_pow_left₀ 2 (Nat.zero_le _) ?_
    rw [← pow_mul, show w / 2 * 2 = w by omega]
    omega
  have hp : (ofNat w p).toNat = p :=
    toNat_const (hhalf.trans_le (Nat.pow_le_pow_right (by decide) (Nat.div_le_self w 2)))
  have hpos : 0 < p := by omega
  have hasserts : ofNat w p % 2#w = 1#w ∧ ofNat w p < 1#w <<< (w / 2) := by
    constructor
    · apply eq_of_toNat_eq
      rw [BitVec.toNat_umod, hp, toNat_const (by rcases hw with rfl | rfl <;> decide), hodd,
        toNat_const (by rcases hw with rfl | rfl <;> decide)]
    · rw [lt_def, hp]
      rcases hw with rfl | rfl <;> simpa using hhalf
  have hsquare : ofNat w p * ofNat w p
      < allOnes w / ofNat w (trialdivMaxlen - 1) := by
    rw [lt_def, toNat_mul, hp, ← pow_two, Nat.mod_eq_of_lt (by omega),
      BitVec.toNat_udiv, BitVec.toNat_allOnes, toNat_const (by rcases hw with rfl | rfl <;> decide)]
    rcases hw with rfl | rfl <;> simp only [trialdivMaxlen] <;> omega
  obtain ⟨w0, hw0, hfirst⟩ := trialdivFirstPower_eq (p := ofNat w p) (by omega)
    (by omega)
  have hlast : w0.toNat = 2 ^ (w * 1) % (ofNat w p).toNat := by
    rw [hfirst, mul_one]
  obtain ⟨ws, hws, hword⟩ := trialdivPowers_eq (by omega) 4 hlast
  obtain ⟨pinv, hpinv, hinv⟩ := ularithInvmod_spec hw (n := ofNat w p) (by omega)
  refine ⟨⟨ofNat w p, w0 :: ws, pinv, allOnes w / ofNat w p⟩, ?_, hp,
    hodd, by rw [← pow_two]; omega, hinv, rfl, ?_⟩
  · rw [trialdivInitDivisor, assert_of hasserts.1, pure_bind,
      assert_of hasserts.2, pure_bind, assert_of hsquare,
      pure_bind, hw0, pure_bind, show trialdivMaxlen - 2 = 4 from rfl, hws,
      pure_bind, hpinv, pure_bind]
  · rw [hp] at hfirst hword
    intro i hi
    cases i with
    | zero => rw [zero_add, mul_one]; exact hfirst
    | succ i =>
      rw [TrialdivDivisor.word, List.getD_cons_succ, hword i (by omega)]
      congr 3
      omega

/-! ## The tests are exact -/

section Test

variable {d : TrialdivDivisor w} {p : ℕ}

theorem TrialdivDivisor.Valid.pos (hd : d.Valid p) : 0 < p := by
  have := hd.odd
  omega

theorem TrialdivDivisor.Valid.word_lt (hd : d.Valid p) {i : ℕ} (hi : i < 5) :
    (d.word i).toNat < p := by
  rw [hd.word i hi]
  exact Nat.mod_lt _ hd.pos

theorem TrialdivDivisor.Valid.test_eq (hd : d.Valid p) (x : BitVec w) :
    decide (x * d.pinv ≤ d.plim) = decide (p ∣ x.toNat) := by
  have h := mul_inverse_le_iff hd.inv (by rw [hd.toNat]; exact hd.pos) x
  rw [hd.toNat, ← hd.lim] at h
  exact decide_eq_decide.mpr h

theorem trialdivDiv1_eq (hd : d.Valid p) (n : ℕ → BitVec w) :
    trialdivDiv1 n d = decide (p ∣ wordsValue n 1) := by
  rw [trialdivDiv1, hd.test_eq]
  simp [wordsValue]

theorem trialdivAccumulate_eq (build : UlarithBuild) (hpos : 0 < w) (heven : w % 2 = 0)
    (n : ℕ → BitVec w) (d : TrialdivDivisor w) (rest : List ℕ) {r : TwoWord w}
    (h : r.value + (rest.map fun i => (n i).toNat * (d.word (i - 1)).toNat).sum
      < 2 ^ w * 2 ^ w) :
    ∃ t, trialdivAccumulate build n d r rest = pure t ∧
      t.value = r.value + (rest.map fun i => (n i).toNat * (d.word (i - 1)).toNat).sum := by
  induction rest generalizing r with
  | nil => exact ⟨r, rfl, rfl⟩
  | cons i rest ih =>
    rw [List.map_cons, List.sum_cons, ← add_assoc] at h ⊢
    obtain ⟨t, ht, htvalue⟩ := tracedAdd2ul2ul_of_lt build (r := r)
      (a := mulWide (n i) (d.word (i - 1)))
      (by rw [mulWide_value]; omega)
    rw [mulWide_value] at htvalue
    rw [trialdivAccumulate, ularithMulUlUl2ul_eq build hpos heven, pure_bind, ht,
      pure_bind, ← htvalue]
    exact ih (by rw [htvalue]; exact h)

/-- Folding the high word keeps the residue. -/
theorem trialdivFold_modEq (hd : d.Valid p) {r : TwoWord w} (h : r.hi.toNat ≤ 5 * (p - 1)) :
    (trialdivFold d r).toNat ≡ r.value [MOD p] := by
  have hw0 : (d.word 0).toNat ≡ 2 ^ w [MOD p] := by
    rw [hd.word 0 (by decide), zero_add, mul_one]
    exact Nat.mod_modEq _ p
  have hlt := hd.word_lt (i := 0) (by decide)
  obtain ⟨q, rfl⟩ : ∃ q, p = q + 1 := ⟨p - 1, by omega⟩
  have hprod : (r.hi.toNat + 1) * (d.word 0).toNat < 2 ^ w := by
    refine lt_of_le_of_lt (Nat.mul_le_mul (Nat.succ_le_succ h) (Nat.le_of_lt_succ hlt)) ?_
    refine lt_of_le_of_lt ?_ hd.small
    rw [Nat.add_sub_cancel]
    nlinarith
  have hmul : (r.hi * d.word 0).toNat = r.hi.toNat * (d.word 0).toNat := by
    rw [toNat_mul, Nat.mod_eq_of_lt]
    rw [add_mul] at hprod
    omega
  have hvalue : r.hi.toNat * (d.word 0).toNat + r.lo.toNat ≡ r.value [MOD q + 1] := by
    rw [value, mul_comm, add_comm r.lo.toNat]
    exact (hw0.mul_right _).add_right _
  have hsum := addWord_value (r.hi * d.word 0) r.lo false
  rw [addWord_false, hmul, Bool.toNat_false, add_zero] at hsum
  unfold trialdivFold
  simp only [add_lt_right_iff]
  split_ifs with hcarry
  · -- the lost carry is put back as the residue of the word base
    rw [hcarry, Bool.toNat_true, mul_one] at hsum
    have hlo := r.lo.isLt
    rw [BitVec.toNat_add, Nat.mod_eq_of_lt (by rw [add_mul] at hprod; omega)]
    exact ((hw0.add_left _).trans (by rw [hsum])).trans hvalue
  · rw [Bool.not_eq_true] at hcarry
    rw [hcarry, Bool.toNat_false, mul_zero, add_zero] at hsum
    rw [hsum]
    exact hvalue

/-- The factor that comes with word `i`. -/
def TrialdivDivisor.power (d : TrialdivDivisor w) : ℕ → ℕ
  | 0 => 1
  | i + 1 => (d.word i).toNat

/-- The sum that the tests build in two words. -/
def TrialdivDivisor.total (d : TrialdivDivisor w) (n : ℕ → BitVec w) (m : ℕ) : ℕ :=
  ∑ i ∈ Finset.range m, (n i).toNat * d.power i

theorem TrialdivDivisor.Valid.power_modEq (hd : d.Valid p) {i : ℕ} (hi : i < 6) :
    d.power i ≡ 2 ^ (w * i) [MOD p] := by
  cases i with
  | zero => exact Nat.ModEq.refl _
  | succ i =>
    rw [TrialdivDivisor.power, hd.word i (by omega)]
    exact Nat.mod_modEq _ p

theorem TrialdivDivisor.Valid.total_modEq (hd : d.Valid p) (n : ℕ → BitVec w) {m : ℕ}
    (hm : m ≤ 6) : d.total n m ≡ wordsValue n m [MOD p] :=
  wordsValue_modEq n m fun _ hi => hd.power_modEq (by omega)

theorem TrialdivDivisor.Valid.total_succ_le (hd : d.Valid p) (n : ℕ → BitVec w) {m : ℕ}
    (hm : m ≤ 5) :
    d.total n (m + 1) ≤ (2 ^ w - 1) * (m * (p - 1) + 1) := by
  have hlimb : ∀ i, (n i).toNat ≤ 2 ^ w - 1 := fun i => by
    have := (n i).isLt
    omega
  induction m with
  | zero =>
    rw [TrialdivDivisor.total, Finset.sum_range_one, zero_mul, zero_add]
    exact Nat.mul_le_mul_right 1 (hlimb 0)
  | succ m ih =>
    have hword : d.power (m + 1) ≤ p - 1 := Nat.le_sub_one_of_lt (hd.word_lt (by omega))
    rw [TrialdivDivisor.total, Finset.sum_range_succ]
    calc d.total n (m + 1) + (n (m + 1)).toNat * d.power (m + 1)
        ≤ (2 ^ w - 1) * (m * (p - 1) + 1) + (2 ^ w - 1) * (p - 1) :=
          add_le_add (ih (by omega)) (Nat.mul_le_mul (hlimb _) hword)
      _ = (2 ^ w - 1) * ((m + 1) * (p - 1) + 1) := by ring

theorem TrialdivDivisor.total_eq (d : TrialdivDivisor w) (n : ℕ → BitVec w) (m : ℕ) :
    d.total n (m + 2) = (n 0).toNat + (n 1).toNat * (d.word 0).toNat
      + ((List.range' 2 m).map fun i => (n i).toNat * (d.word (i - 1)).toNat).sum := by
  induction m with
  | zero =>
    simp only [TrialdivDivisor.total, Finset.sum_range_succ, Finset.sum_range_zero,
      TrialdivDivisor.power]
    simp
  | succ m ih =>
    rw [TrialdivDivisor.total, Finset.sum_range_succ, ← TrialdivDivisor.total, ih,
      List.range'_1_concat, List.map_append, List.sum_append, List.map_singleton,
      List.sum_singleton, add_comm 2 m, add_assoc _ (List.sum _)]
    rfl

/-- The test of one divisor is exact. -/
theorem trialdivDivWords_eq (build : UlarithBuild) (hw : w = 32 ∨ w = 64) (hd : d.Valid p)
    {m : ℕ} (hm : m ≤ 4) (n : ℕ → BitVec w) :
    trialdivDivWords build (List.range' 2 m) n d
      = pure (decide (p ∣ wordsValue n (m + 2))) := by
  have hpos : 0 < w := by omega
  have heven : w % 2 = 0 := by omega
  have hle : d.total n (m + 2) ≤ (2 ^ w - 1) * (5 * (p - 1) + 1) :=
    (hd.total_succ_le n (by omega)).trans
      (Nat.mul_le_mul_left _ (Nat.succ_le_succ (Nat.mul_le_mul_right _ (by omega))))
  have hp : 5 * (p - 1) + 1 ≤ 2 ^ w := by
    have := hd.small
    have := Nat.le_mul_self p
    have := hd.pos
    omega
  have hlt : d.total n (m + 2) < 2 ^ w * (5 * (p - 1) + 1) :=
    lt_of_le_of_lt hle (Nat.mul_lt_mul_of_pos_right (by have := Nat.two_pow_pos w; omega)
      (by omega))
  have hfits := lt_of_lt_of_le hlt (Nat.mul_le_mul_left (2 ^ w) hp)
  rw [d.total_eq] at hfits
  -- the first product, split into its words
  have hfirst : (⟨n 0, (mulWide (n 1) (d.word 0)).hi⟩ : TwoWord w).value
      + (mulWide (n 1) (d.word 0)).lo.toNat
      = (n 0).toNat + (n 1).toNat * (d.word 0).toNat := by
    rw [← mulWide_value]
    dsimp only [value]
    omega
  obtain ⟨r, hr, hrvalue⟩ := tracedAddUl2ul_of_lt build (by rw [hfirst]; omega)
  rw [hfirst] at hrvalue
  obtain ⟨t, ht, htvalue⟩ := trialdivAccumulate_eq build hpos heven n d
    (List.range' 2 m) (r := r) (by rw [hrvalue]; exact hfits)
  rw [hrvalue, ← d.total_eq] at htvalue
  have hhi : t.hi.toNat ≤ 5 * (p - 1) := by
    rw [← TwoWord.value_div, htvalue]
    exact Nat.le_of_lt_succ (Nat.div_lt_of_lt_mul hlt)
  have hmod : (trialdivFold d t).toNat ≡ wordsValue n (m + 2) [MOD p] := by
    refine (trialdivFold_modEq hd hhi).trans ?_
    rw [htvalue]
    exact hd.total_modEq n (by omega)
  rw [trialdivDivWords, ularithMulUlUl2ul_eq build hpos heven, pure_bind, hr,
    pure_bind, ht, pure_bind, hd.test_eq]
  exact congrArg pure (decide_eq_decide.mpr (hmod.dvd_iff dvd_rfl))

theorem lt_two_pow_mpzSize (hw : 0 < w) (N : ℕ) : N < 2 ^ (w * mpzSize w N) := by
  refine lt_of_lt_of_le N.lt_size_self (Nat.pow_le_pow_right (by decide) ?_)
  have hdiv := Nat.div_add_mod (N.size + (w - 1)) w
  have hmod := Nat.mod_lt (N.size + (w - 1)) hw
  rw [mpzSize]
  omega

/-- The test for a number of up to six words is exact. -/
theorem trialdivDivides_eq (build : UlarithBuild) (hw : w = 32 ∨ w = 64) (hd : d.Valid p)
    {N : ℕ} (hpos : 0 < N) (hN : mpzSize w N ≤ 6) :
    trialdivDivides build (mpzSize w N) (limb w N) d = pure (decide (p ∣ N)) := by
  have hlt := lt_two_pow_mpzSize (w := w) (by omega) N
  have hvalue : wordsValue (limb w N) (mpzSize w N) = N :=
    (wordsValue_ofNat N _).trans (Nat.mod_eq_of_lt hlt)
  have hwords : ∀ m ≤ 4, mpzSize w N = m + 2 →
      trialdivDivWords build (List.range' 2 m) (limb w N) d = pure (decide (p ∣ N)) := by
    intro m hm hs
    rw [trialdivDivWords_eq build hw hd hm, ← hs, hvalue]
  have hone : mpzSize w N = 1 → trialdivDiv1 (limb w N) d = decide (p ∣ N) := by
    intro hs
    rw [trialdivDiv1_eq hd, ← hs, hvalue]
  generalize mpzSize w N = s at hN hlt hwords hone ⊢
  match s, hN with
  | 0, _ => rw [mul_zero, pow_zero] at hlt; omega
  | 1, _ => exact congrArg pure (hone rfl)
  | 2, _ => exact hwords 0 (by decide) rfl
  | 3, _ => exact hwords 1 (by decide) rfl
  | 4, _ => exact hwords 2 (by decide) rfl
  | 5, _ => exact hwords 3 (by decide) rfl
  | 6, _ => exact hwords 4 (by decide) rfl

end Test

/-! ## The loop -/

/-- The table of the primes `f`, or the end of one: the sentinel is the divisor of 1. -/
def IsTrialdivTable (f : List ℕ) (ds : List (TrialdivDivisor w)) : Prop :=
  List.Forall₂ (fun p d => d.Valid p) (f ++ [1]) ds

theorem trialdivInit_spec (hw : w = 32 ∨ w = 64) {f : List ℕ}
    (hf : ∀ p ∈ f, p % 2 = 1 ∧ 5 * p ^ 2 < 2 ^ w - 1) :
    ∃ ds : List (TrialdivDivisor w), trialdivInit f = pure ds ∧ IsTrialdivTable f ds := by
  unfold trialdivInit
  induction f with
  | nil =>
    obtain ⟨d, hd, hvalid⟩ := trialdivInitDivisor_spec hw (p := 1) rfl
      (by rcases hw with rfl | rfl <;> decide)
    exact ⟨[d], by rw [trialdivInitLoop, hd, pure_bind], .cons hvalid .nil⟩
  | cons p f ih =>
    obtain ⟨hodd, hsmall⟩ := hf p List.mem_cons_self
    obtain ⟨d, hd, hvalid⟩ := trialdivInitDivisor_spec hw hodd hsmall
    obtain ⟨ds, hds, htable⟩ := ih fun q hq => hf q (List.mem_cons_of_mem p hq)
    refine ⟨d :: ds, ?_, .cons hvalid htable⟩
    rw [trialdivInitLoop, hd, pure_bind, hds, pure_bind]

section Loop

variable {ps : List ℕ} {ds : List (TrialdivDivisor w)} {N : ℕ}

theorem trialdivNext_spec (build : UlarithBuild) (hw : w = 32 ∨ w = 64)
    (hpos : 0 < N) (hN : mpzSize w N ≤ 6) (htable : IsTrialdivTable ps ds) :
    ∃ ps' ds', trialdivNext build N ds = pure ds' ∧ IsTrialdivTable ps' ds' ∧
      (∀ q ∈ ps', q ∈ ps) ∧ (∀ q ∈ ps, q ∈ ps' ∨ ¬q ∣ N) ∧ ∀ q ∈ ps'.head?, q ∣ N := by
  induction ps generalizing ds with
  | nil =>
    cases htable with
    | cons hd hrest =>
      cases hrest
      refine ⟨[], _, ?_, .cons hd .nil, by simp, by simp, by simp⟩
      rw [trialdivNext, trialdivDivides_eq build hw hd hpos hN, pure_bind,
        if_pos (decide_eq_true (one_dvd N))]
  | cons p ps ih =>
    cases htable with
    | cons hd hrest =>
      by_cases hp : p ∣ N
      · refine ⟨p :: ps, _, ?_, .cons hd hrest, fun q hq => hq, fun q hq => .inl hq,
          by simpa using hp⟩
        rw [trialdivNext, trialdivDivides_eq build hw hd hpos hN, pure_bind,
          if_pos (decide_eq_true hp)]
      · obtain ⟨ps', ds', heq, htable', hsub, hpass, hhead⟩ := ih hrest
        refine ⟨ps', ds', ?_, htable', fun q hq => List.mem_cons_of_mem p (hsub q hq), ?_, hhead⟩
        · rw [trialdivNext, trialdivDivides_eq build hw hd hpos hN, pure_bind,
            if_neg (by simpa using hp), heq]
        · intro q hq
          rcases List.mem_cons.mp hq with rfl | hq
          · exact .inr hp
          · exact hpass q hq

/-- What `trialdiv` returns for `N`, with the primes `primes` in the table. -/
structure TrialdivOk (primes : List ℕ) (maxDiv N : ℕ) (res : TrialdivResult w) : Prop where
  prod : (res.f.map BitVec.toNat).prod * res.N = N
  mem : ∀ q ∈ res.f, q.toNat ∈ primes
  length_le : res.f.length ≤ maxDiv
  count : (res.n = res.f.length ∧ ∀ p ∈ primes, ¬p ∣ res.N) ∨
    (res.n = maxDiv + 1 ∧ res.f.length = maxDiv ∧ ∃ p ∈ primes, p ∣ res.N)

theorem mpzSize_le (hw : 0 < w) {s : ℕ} (hN : N < 2 ^ (w * s)) : mpzSize w N ≤ s := by
  have hsize : N.size ≤ w * s := Nat.size_le.mpr hN
  refine Nat.le_of_lt_succ (Nat.div_lt_of_lt_mul ?_)
  rw [Nat.mul_succ]
  omega

/-- Trial division keeps the product of the found primes and the rest. -/
theorem trialdivLoop_spec (build : UlarithBuild) (hw : w = 32 ∨ w = 64) {primes : List ℕ}
    (hprimes : ∀ p ∈ primes, p ≠ 1) {M maxDiv fuel : ℕ} (hN : 0 < N) (hfuel : N < 2 ^ fuel)
    (hlong : N < 2 ^ (w * 6)) (htable : IsTrialdivTable ps ds) (hsub : ∀ q ∈ ps, q ∈ primes)
    (hpass : ∀ q ∈ primes, q ∈ ps ∨ ¬q ∣ N) {f : List (BitVec w)}
    (hprod : (f.map BitVec.toNat).prod * N = M) (hmem : ∀ q ∈ f, q.toNat ∈ primes)
    (hlength : f.length ≤ maxDiv) :
    ∃ res, trialdivLoop build maxDiv (fuel + 1) f N ds = pure res ∧
      TrialdivOk primes maxDiv M res := by
  induction fuel generalizing N f ps ds with
  | zero => omega
  | succ fuel ih =>
    rw [trialdivLoop]
    by_cases hone : N > 1
    · have hs : mpzSize w N ≤ 6 := mpzSize_le (by omega) hlong
      obtain ⟨ps', ds', hnext, htable', hsub', hpass', hhead⟩ :=
        trialdivNext_spec build hw hN hs htable
      have hpass'' : ∀ q ∈ primes, q ∈ ps' ∨ ¬q ∣ N := fun q hq =>
        (hpass q hq).elim (hpass' q) .inr
      rw [if_pos hone, if_neg (by rw [trialdivMaxlen]; omega), hnext, pure_bind]
      have honeNat : (1#w).toNat = 1 := toNat_const (Nat.one_lt_two_pow (by omega))
      cases ps' with
      | nil =>
        -- the sentinel
        cases htable' with
        | @cons _ d _ _ hd _ =>
          have hp : d.p = 1#w := eq_of_toNat_eq (hd.toNat.trans honeNat.symm)
          rw [trialdivDivideOut, if_pos hp]
          exact ⟨_, rfl, hprod, hmem, hlength,
            .inl ⟨rfl, fun q hq => (hpass'' q hq).resolve_left List.not_mem_nil⟩⟩
      | cons p ps' =>
        have hdvd : p ∣ N := hhead p rfl
        have hpprime : p ∈ primes := hsub p (hsub' p List.mem_cons_self)
        cases htable' with
        | @cons _ d _ ds' hd hrest =>
          have hp : d.p ≠ 1#w := fun h => hprimes p hpprime
            (by rw [← hd.toNat, h, honeNat])
          rw [trialdivDivideOut, if_neg hp, hd.toNat, assert_of hdvd, pure_bind]
          by_cases hmax : f.length = maxDiv
          · rw [if_pos hmax]
            exact ⟨_, rfl, hprod, hmem, hlength, .inr ⟨rfl, hmax, p, hpprime, hdvd⟩⟩
          · rw [if_neg hmax]
            have hquot : p * (N / p) = N := Nat.mul_div_cancel' hdvd
            have hp2 : 2 ≤ p := by
              have := hd.pos
              have := hprimes p hpprime
              omega
            have hle : N / p ≤ N / 2 := Nat.div_le_div_left hp2 (by decide)
            have htable'' : IsTrialdivTable (p :: ps') (d :: ds') := .cons hd hrest
            refine ih (Nat.div_pos (Nat.le_of_dvd hN hdvd) hd.pos) ?_ (by omega) htable''
              (fun q hq => hsub q (hsub' q hq)) ?_ ?_ ?_ ?_
            · rw [Nat.pow_succ] at hfuel
              omega
            · intro q hq
              exact (hpass'' q hq).imp_right fun hnot h => hnot (h.trans ⟨p, by
                rw [mul_comm, hquot]⟩)
            · rw [List.map_append, List.prod_append, List.map_singleton, List.prod_singleton,
                hd.toNat, mul_assoc, hquot, hprod]
            · intro q hq
              rcases List.mem_append.mp hq with hq | hq
              · exact hmem q hq
              · rw [List.mem_singleton.mp hq, hd.toNat]
                exact hpprime
            · rw [List.length_append, List.length_singleton]
              omega
    · rw [if_neg hone]
      have hN1 : N = 1 := by omega
      refine ⟨_, rfl, hprod, hmem, hlength, .inl ⟨rfl, fun q hq h => ?_⟩⟩
      exact hprimes q hq (Nat.dvd_one.mp (hN1 ▸ h))

end Loop

/-- The factors that `trialdiv` finds in a number of at most six words. -/
theorem trialdiv_spec (hw : w = 32 ∨ w = 64) {primes : List ℕ}
    (hprimes : ∀ p ∈ primes, p ≠ 1) {ds : List (TrialdivDivisor w)}
    (htable : IsTrialdivTable primes ds) {N : ℕ} (hN : 0 < N) (hlong : N < 2 ^ (w * 6))
    (maxDiv : ℕ) :
    ∃ res, trialdiv build N ds maxDiv = pure res ∧ TrialdivOk primes maxDiv N res :=
  trialdivLoop_spec build hw hprimes hN N.lt_size_self hlong htable (fun _ hq => hq)
    (fun _ hq => .inl hq) (one_mul N) (by simp) (Nat.zero_le _)

/-- A longer number is refused. -/
theorem trialdiv_of_le (hw : 0 < w) {N : ℕ} (hlong : 2 ^ (w * 6) ≤ N)
    (ds : List (TrialdivDivisor w)) (maxDiv : ℕ) : trialdiv build N ds maxDiv = .abort := by
  have hs : mpzSize w N > 6 := by
    by_contra hle
    have := lt_two_pow_mpzSize hw N
    have := Nat.pow_le_pow_right (n := 2) (by decide) (Nat.mul_le_mul_left w (not_lt.mp hle))
    omega
  have hone : N > 1 := lt_of_lt_of_le (Nat.one_lt_two_pow (by omega)) hlong
  rw [trialdiv, trialdivLoop, if_pos hone, if_pos (by rw [trialdivMaxlen]; exact hs)]

/-- Every test of a divisor, on the words of any number, tells whether `p` divides it. -/
structure TrialdivExact (build : UlarithBuild) (p : ℕ) (d : TrialdivDivisor w) : Prop where
  div1 : ∀ n, trialdivDiv1 n d = decide (p ∣ wordsValue n 1)
  div2 : ∀ n, trialdivDiv2 build n d = pure (decide (p ∣ wordsValue n 2))
  div3 : ∀ n, trialdivDiv3 build n d = pure (decide (p ∣ wordsValue n 3))
  div4 : ∀ n, trialdivDiv4 build n d = pure (decide (p ∣ wordsValue n 4))
  div5 : ∀ n, trialdivDiv5 build n d = pure (decide (p ∣ wordsValue n 5))
  div6 : ∀ n, trialdivDiv6 build n d = pure (decide (p ∣ wordsValue n 6))

theorem TrialdivDivisor.Valid.exact (hw : w = 32 ∨ w = 64)
    {d : TrialdivDivisor w} {p : ℕ} (hd : d.Valid p) : TrialdivExact build p d where
  div1 := trialdivDiv1_eq hd
  div2 := trialdivDivWords_eq build hw hd (m := 0) (by decide)
  div3 := trialdivDivWords_eq build hw hd (m := 1) (by decide)
  div4 := trialdivDivWords_eq build hw hd (m := 2) (by decide)
  div5 := trialdivDivWords_eq build hw hd (m := 3) (by decide)
  div6 := trialdivDivWords_eq build hw hd (m := 4) (by decide)

/-- Trial division with the table that `trialdiv_init` makes of odd primes: the sentinel
is not passed, and every test is exact. -/
theorem trialdiv_correct (hw : w = 32 ∨ w = 64) {primes : List ℕ}
    (hprimes : ∀ p ∈ primes, p.Prime ∧ p % 2 = 1 ∧ 5 * p ^ 2 < 2 ^ w - 1) :
    ∃ ds : List (TrialdivDivisor w), trialdivInit primes = pure ds ∧
      List.Forall₂ (TrialdivExact build) (primes ++ [1]) ds ∧
      ∀ N, 1 ≤ N → mpzSize w N ≤ 6 → ∀ maxDiv, ∃ res, trialdiv build N ds maxDiv = pure res ∧
        TrialdivOk primes maxDiv N res := by
  obtain ⟨ds, hinit, htable⟩ := trialdivInit_spec hw fun p hp => (hprimes p hp).2
  refine ⟨ds, hinit, htable.imp fun _ _ hd => hd.exact build hw, fun N hN hs maxDiv => ?_⟩
  have hlong : N < 2 ^ (w * 6) := (lt_two_pow_mpzSize (by omega) N).trans_le
    (Nat.pow_le_pow_right (by decide) (Nat.mul_le_mul_left w hs))
  exact trialdiv_spec build hw (fun p hp => (hprimes p hp).1.ne_one) htable hN hlong maxDiv

theorem trialdiv_correct_word64 :
    ∃ ds : List (TrialdivDivisor 64), trialdivInit [3, 5] = pure ds ∧
      List.Forall₂ (TrialdivExact .noAsm) [3, 5, 1] ds ∧
      ∀ N, 1 ≤ N → mpzSize 64 N ≤ 6 → ∀ maxDiv, ∃ res,
        trialdiv .noAsm N ds maxDiv = pure res ∧ TrialdivOk [3, 5] maxDiv N res :=
  trialdiv_correct .noAsm (Or.inr rfl) (by
    intro p hp
    simp only [List.mem_cons, List.not_mem_nil, or_false] at hp
    rcases hp with rfl | rfl <;> exact ⟨by decide, by decide, by decide⟩)

end CadoNfs
