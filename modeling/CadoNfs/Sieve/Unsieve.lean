import CadoNfs.Lib.FoldLoop
import CadoNfs.Lib.ForRange
import CadoNfs.Lib.RoughNumber
import CadoNfs.Sieve.BadPrimes

/-!
# Locations with a common factor

With `UNSIEVE_NOT_COPRIME`, `las.c` sets the locations whose coordinates have an odd
common factor to 255, line after line.  The line is factored with a table of largest prime
factors and trial division; the multiples of 3 are set by a pattern of three words.

Main results:

- Theorem `initLpf_spec`: the table.
- Theorem `unsieveOnePrime_spec`: one prime and one line.
- Theorem `unsieveThree_spec`: what the pattern and its tail set.
- Theorem `unsieveNotCoprime_spec`: a region.
- Theorem `unsieveNotCoprime_iff`: when exactly the locations with an odd common factor
  are set.
-/

namespace CadoNfs.Unsieve

open ForRange SmallSieve
open Nat (dvd_of_mod_eq_zero dvd_one le_of_dvd mod_eq_of_lt mod_eq_zero_of_dvd mod_le mod_lt
  mod_mod prime_three sub_le)
open Option (bind_eq_some_iff map_some)

/-! ## Code -/

/-- `while (c % p == 0U) c /= p;` -/
def divideWhile (p : ℕ) : ℕ → ℕ → Option ℕ
  | 0, _ => none
  | fuel + 1, c => if c % p = 0 then divideWhile p fuel (c / p) else some c

/-- The loop over `p` of `sieve_info_init`, with `p` and `c` after it. -/
def lpfLoop : ℕ → ℕ → ℕ → Option (ℕ × ℕ)
  | 0, _, _ => none
  | fuel + 1, p, c =>
    if p * p % 2 ^ 32 ≤ c then do
      let c ← divideWhile p (c + 1) c
      if c = 1 then some (p, c) else lpfLoop fuel (p + 1 + p % 2) c
    else some (p, c)

/-- `si->lpf[k]`. -/
def lpfEntry (k : ℕ) : Option ℕ :=
  if k < 2 then some k
  else do
    let (p, c) ← lpfLoop (k + 1) 2 k
    some (if c = 1 then p else c)

/-- The table `si->lpf` of `sieve_info_init`. -/
def initLpf (I : ℕ) : Option (List ℕ) :=
  (List.range I).mapM lpfEntry

/-- `for ( ; x < I; x += np) line_start[x] = 255;`; `none` is a lack of fuel. -/
def setRow (I np lineStart : ℕ) : ℕ → ℕ → (ℕ → BitVec 8) → Option (ℕ → BitVec 8)
  | 0, _, _ => none
  | fuel + 1, x, S =>
    if x < I then
      setRow I np lineStart fuel (uint32Add x np) (Function.update S (lineStart + x) 255#8)
    else some S

/-- `unsieve_one_prime`. -/
def unsieveOnePrime (si : SieveInfo) (lineStart p y : ℕ) (S : ℕ → BitVec 8) :
    Option (ℕ → BitVec 8) :=
  let x := si.I / 2 % p
  if y % 2 = 0 then
    let x := if x % 2 = 0 then uint32Add x p else x
    setRow si.I (uint32Add p p) lineStart (si.I + 1) x S
  else setRow si.I p lineStart (si.I + 1) x S

/-- `|=` of the bytes from `address` on with the `n` bytes `s`. -/
def orBytes (n address : ℕ) (s : ℕ → BitVec 8) (S : ℕ → BitVec 8) : ℕ → BitVec 8 :=
  fun x => if address ≤ x ∧ x < address + n then S x ||| s (x - address) else S x

/-- The loop that applies the pattern to `I_ul` words of `b` bytes, with `i` after
it. -/
def patternLoop (b IUl lineStart : ℕ) (s : ℕ → BitVec 8) :
    ℕ → ℕ → (ℕ → BitVec 8) → Option (ℕ × (ℕ → BitVec 8))
  | 0, _, _ => none
  | fuel + 1, i, S =>
    if i < IUl - 2 then
      let S := orBytes b (lineStart + i * b) s S
      let S := orBytes b (lineStart + (i + 1) * b) (fun k => s (b + k)) S
      let S := orBytes b (lineStart + (i + 2) * b) (fun k => s (2 * b + k)) S
      patternLoop b IUl lineStart s fuel (i + 3) S
    else some (i, S)

/-- The multiples of 3, with `b` bytes in an `unsigned long`. -/
def unsieveThree (b : ℕ) (si : SieveInfo) (lineStart : ℕ) (S : ℕ → BitVec 8) :
    Option (ℕ → BitVec 8) := do
  let IUl := si.I / b
  let s ← setRow (3 * b) 3 0 (3 * b + 1) (si.I / 2 % 3) fun _ => 0#8
  let (i, S) ← patternLoop b IUl lineStart s (IUl + 1) 0 S
  -- the tail is written by bytes: the lowest ones of the words s[0] and s[1]
  let S := if i < IUl - 1 then orBytes 1 (lineStart + i) s S else S
  some (if i < IUl then orBytes 1 (lineStart + (i + 1)) (fun k => s (b + k)) S else S)

/-- The loop over the divisors from 5 on. -/
def unsieveTrial (si : SieveInfo) (lineStart y : ℕ) :
    ℕ → ℕ → ℕ → (ℕ → BitVec 8) → Option (ℕ × (ℕ → BitVec 8))
  | 0, _, _, _ => none
  | fuel + 1, p, c, S =>
    if p * p % 2 ^ 32 ≤ c then
      if c % p = 0 then do
        let S ← unsieveOnePrime si lineStart p y S
        let c ← divideWhile p (c + 1) (c / p)
        unsieveTrial si lineStart y fuel (p + 2) c S
      else unsieveTrial si lineStart y fuel (p + 2) c S
    else some (c, S)

/-- The largest prime factor, if it exceeds 3. -/
def unsieveLargest (si : SieveInfo) (lpf : List ℕ) (lineStart y c : ℕ) (S : ℕ → BitVec 8) :
    Option (ℕ × (ℕ → BitVec 8)) := do
  let p ← lpf[c]?
  if 3 < p then do
    assertAlways (c % p = 0)
    let S ← unsieveOnePrime si lineStart p y S
    let c ← divideWhile p (c + 1) (c / p)
    some (c, S)
  else some (c, S)

/-- The powers of 2 and 3. -/
def unsieveSmall (b : ℕ) (si : SieveInfo) (lineStart c : ℕ) (S : ℕ → BitVec 8) :
    Option (ℕ × (ℕ → BitVec 8)) := do
  let c ← divideWhile 2 (c + 1) c
  if c % 3 = 0 then do
    let S ← unsieveThree b si lineStart S
    let c ← divideWhile 3 (c + 1) (c / 3)
    some (c, S)
  else some (c, S)

/-- The body of the loop over `y`, for the line `c`. -/
def unsieveLine (b : ℕ) (si : SieveInfo) (lpf : List ℕ) (c y : ℕ) (S : ℕ → BitVec 8) :
    Option (ℕ → BitVec 8) := do
  let lineStart := y <<< si.logI
  let (c, S) ← unsieveLargest si lpf lineStart y c S
  let (c, S) ← unsieveSmall b si lineStart c S
  let (c, S) ← unsieveTrial si lineStart y (c + 1) 5 c S
  if c ≠ 1 then do
    assertAlways (3 < c ∧ lpf[c]? = some c)
    unsieveOnePrime si lineStart c y S
  else some S

/-- `unsieve_not_coprime`. -/
def unsieveNotCoprime (b : ℕ) (si : SieveInfo) (lpf : List ℕ) (N : ℕ) (S : ℕ → BitVec 8) :
    Option (ℕ → BitVec 8) :=
  let first := if N = 0 then 1 else 0
  forRangeM (linesPerRegion si - first)
    (fun k => unsieveLine b si lpf (N * linesPerRegion si + (first + k)) (first + k)) S

/-! ## The table -/

section Table

variable {p c fuel k I : ℕ}

theorem divideWhile_spec (hp : 1 < p) (hc : 0 < c) (hfuel : c < fuel) :
    ∃ c', divideWhile p fuel c = some c' ∧ 0 < c' ∧ SplitOff p c c' := by
  induction fuel generalizing c with
  | zero => omega
  | succ fuel ih =>
    rw [divideWhile]
    split_ifs with hmod
    · have hdvd := dvd_of_mod_eq_zero hmod
      have hdiv := Nat.div_mul_cancel hdvd
      have hlt := Nat.div_lt_self hc hp
      obtain ⟨c', hrun, hpos, hnot, j, hj⟩ :=
        ih (Nat.div_pos (le_of_dvd hc hdvd) (by omega)) (by omega)
      exact ⟨c', hrun, hpos, hnot, j + 1, by rw [← hdiv, hj]; ring⟩
    · exact ⟨c, rfl, hc, fun h => hmod (mod_eq_zero_of_dvd h), 0, by rw [pow_zero, one_mul]⟩

theorem divideWhile_div_spec (hp : 1 < p) (hc : 0 < c) (hdvd : p ∣ c) :
    ∃ c', divideWhile p (c + 1) (c / p) = some c' ∧ 0 < c' ∧ SplitOff p c c' := by
  have hdiv := Nat.div_mul_cancel hdvd
  have hlt := Nat.div_lt_self hc hp
  obtain ⟨c', hrun, hpos, hnot, j, hj⟩ :=
    divideWhile_spec hp (Nat.div_pos (le_of_dvd hc hdvd) (by omega))
      (show c / p < c + 1 by omega)
  exact ⟨c', hrun, hpos, hnot, j + 1, by rw [← hdiv, hj]; ring⟩

theorem mul_self_mod (hp : p < 2 ^ 16) : p * p % 2 ^ 32 = p * p :=
  mod_eq_of_lt ((Nat.mul_lt_mul'' hp hp).trans_eq (by norm_num))

theorem le_of_mul_self_le (hc : c < 2 ^ 16) (h : p * p ≤ c) : p ≤ 2 ^ 8 ∧ p ≤ c := by
  refine ⟨?_, (Nat.le_mul_self p).trans h⟩
  by_contra hlt
  have hmul : (2 ^ 8 + 1) * (2 ^ 8 + 1) ≤ p * p := Nat.mul_le_mul (by omega) (by omega)
  omega

theorem lpfLoop_spec (hk : 0 < k) (hk16 : k < 2 ^ 16) (hp : 1 < p) (hple : p ≤ 2 ^ 8 + 2)
    (hpk : p ≤ k + 2) (h : TrialDivided k p c) (hfuel : k + 2 < p + fuel) :
    ∃ p' c', lpfLoop fuel p c = some (p', c') ∧
      IsLargestPrimeFactor (if c' = 1 then p' else c') k := by
  induction fuel generalizing p c with
  | zero => omega
  | succ fuel ih =>
    have hck : c ≤ k := le_of_dvd hk h.dvd
    have hone := h.one_lt
    rw [lpfLoop, mul_self_mod (by omega)]
    split_ifs with hsq
    · obtain ⟨c', hrun, hpos, hsplit⟩ := divideWhile_spec hp (by omega : 0 < c) (Nat.lt_succ_self c)
      simp only [hrun, some_bind]
      split_ifs with hone
      · subst hone
        exact ⟨p, 1, rfl, by rw [if_pos rfl]; exact h.largest_of_one hp hsplit⟩
      · obtain ⟨hp8, hpc⟩ := le_of_mul_self_le (by omega) hsq
        exact ih (by omega) (by omega) (by omega) (h.next hp hsplit hpos hone) (by omega)
    · refine ⟨p, c, rfl, ?_⟩
      rw [if_neg (by omega)]
      exact h.largest_of_lt (by omega) (by rw [sq]; omega)

/-- What `si->lpf` holds. -/
structure LpfTable (I : ℕ) (lpf : List ℕ) : Prop where
  length_eq : lpf.length = I
  one : lpf[1]? = some 1
  largest : ∀ k, 2 ≤ k → k < I → ∃ p, lpf[k]? = some p ∧ IsLargestPrimeFactor p k

/-- `sieve_info_init` fills the table. -/
theorem initLpf_spec (hI : 1 < I) (hI16 : I ≤ 2 ^ 16) :
    ∃ lpf, initLpf I = some lpf ∧ LpfTable I lpf := by
  have hentry : ∀ k ∈ List.range I, ∃ p, lpfEntry k = some p ∧
      (k < 2 → p = k) ∧ (2 ≤ k → IsLargestPrimeFactor p k) := by
    intro k hk
    have hkI := List.mem_range.mp hk
    rw [lpfEntry]
    split_ifs with hk2
    · exact ⟨k, rfl, fun _ => rfl, fun hle => by omega⟩
    · obtain ⟨p, c, hrun, hlargest⟩ := lpfLoop_spec (p := 2) (c := k) (by omega)
        (by omega) (by omega) (by omega) (by omega)
        ⟨by omega, dvd_rfl, fun q hq _ => hq.one_lt, fun q _ hqk => Or.inl hqk⟩
        (show k + 2 < 2 + (k + 1) by omega)
      refine ⟨_, ?_, fun hlt => absurd hlt hk2, fun _ => hlargest⟩
      rw [hrun]
      rfl
  choose! f hf hsmall hlarge using hentry
  refine ⟨(List.range I).map f, FoldLoop.mapM_eq_some_map hf, by simp, ?_, fun k hk hkI => ?_⟩
  · rw [List.getElem?_map, List.getElem?_range hI, map_some,
      hsmall 1 (List.mem_range.mpr hI) (by decide)]
  · refine ⟨f k, ?_, hlarge k (List.mem_range.mpr hkI) hk⟩
    rw [List.getElem?_map, List.getElem?_range hkI, map_some]

end Table

/-! ## One line -/

/-- The bytes with `P` are set to 255, and the others are left. -/
def Marks (P : ℕ → Prop) (S S' : ℕ → BitVec 8) : Prop :=
  ∀ x, (P x → S' x = 255#8) ∧ (¬P x → S' x = S x)

section Marks

variable {P Q : ℕ → Prop} {S S' S'' : ℕ → BitVec 8}

theorem Marks.refl (hP : ∀ x, ¬P x) : Marks P S S :=
  fun x => ⟨fun h => absurd h (hP x), fun _ => rfl⟩

theorem Marks.congr (h : Marks P S S') (hPQ : ∀ x, P x ↔ Q x) : Marks Q S S' := fun x => by
  rw [← hPQ]
  exact h x

theorem Marks.trans (h : Marks P S S') (h' : Marks Q S' S'') :
    Marks (fun x => P x ∨ Q x) S S'' := by
  intro x
  by_cases hQ : Q x
  · exact ⟨fun _ => (h' x).1 hQ, fun hx => absurd (Or.inr hQ) hx⟩
  · rw [(h' x).2 hQ]
    exact ⟨fun hx => (h x).1 (hx.resolve_right hQ), fun hx => (h x).2 fun hP => hx (Or.inl hP)⟩

end Marks

/-- The coordinate `i` of the location `x`. -/
def column (si : SieveInfo) (x : ℕ) : ℤ :=
  (x % si.I : ℕ) - (si.I / 2 : ℕ)

section Line

variable {si : SieveInfo} {S : ℕ → BitVec 8} {t p : ℕ}

theorem setRow_spec {I step fuel i : ℕ} (hI : 0 < I) (hstep : 0 < step)
    (hfit : I + step ≤ 2 ^ 32) (hfuel : I - i < fuel) :
    ∃ S', setRow I step (t * I) fuel i S = some S' ∧
      Marks (fun x => x / I = t ∧ i ≤ x % I ∧ x % I % step = i % step) S S' := by
  induction fuel generalizing i S with
  | zero => omega
  | succ fuel ih =>
    rw [setRow]
    split_ifs with hi
    · rw [uint32Add, mod_eq_of_lt (by omega)]
      obtain ⟨S', hrun, hmarks⟩ := ih (S := Function.update S (t * I + i) 255#8) (i := i + step)
        (by omega)
      have hfirst : Marks (fun x => x / I = t ∧ x % I = i) S
          (Function.update S (t * I + i) 255#8) := by
        refine fun x => ⟨fun hx => ?_, fun hx => ?_⟩
        · rw [(eq_line_add_iff hi).mpr hx, Function.update_self]
        · exact Function.update_of_ne (mt (eq_line_add_iff hi).mp hx) _ _
      refine ⟨S', hrun, (hfirst.trans hmarks).congr fun x => ?_⟩
      rw [Nat.add_mod_right, ← and_or_left]
      exact and_congr_right fun _ => (offset_iff hstep).symm
    · refine ⟨S, rfl, .refl fun x hx => ?_⟩
      have hlt := mod_lt x hI
      omega

theorem dvd_column_iff (x : ℕ) : (p : ℤ) ∣ column si x ↔ x % si.I % p = si.I / 2 % p := by
  rw [column, ← Int.modEq_iff_dvd, Int.natCast_modEq_iff]
  exact eq_comm

/-- `unsieve_one_prime` sets the multiples of `p` whose coordinates are not both
even. -/
theorem unsieveOnePrime_spec (h : ValidRegion si) (hp : p % 2 = 1) (hp16 : p < 2 ^ 16) :
    ∃ S', unsieveOnePrime si (t * si.I) p t S = some S' ∧
      Marks (fun x => x / si.I = t ∧ ((p : ℤ) ∣ column si x ∧ ¬(2 ∣ column si x ∧ 2 ∣ t)))
        S S' := by
  have hI := h.I_pos
  have hI16 : si.I < 2 ^ 16 := by
    rw [h.I_eq]
    exact Nat.pow_lt_pow_right (by decide) h.logI_lt
  have hhalf : si.I / 2 % 2 = 0 := by
    rw [h.I_eq]
    obtain ⟨k, hk⟩ := Nat.exists_eq_add_of_le h.two_le_logI
    rw [hk, pow_add]
    omega
  have htwo : ∀ x, (2 : ℤ) ∣ column si x ↔ x % si.I % 2 = 0 := fun x => by
    have hiff : (2 : ℤ) ∣ column si x ↔ x % si.I % 2 = si.I / 2 % 2 := dvd_column_iff (p := 2) x
    rwa [hhalf] at hiff
  have hmodp : si.I / 2 % p < p := mod_lt _ (by omega)
  by_cases ht : t % 2 = 0
  · -- an even line: the odd offsets
    obtain ⟨x₀, hx₀, hlt, hodd, hmod⟩ : ∃ x₀,
        (if si.I / 2 % p % 2 = 0 then uint32Add (si.I / 2 % p) p else si.I / 2 % p) = x₀ ∧
          x₀ < p + p ∧ x₀ % 2 = 1 ∧ x₀ % p = si.I / 2 % p := by
      have hsum : uint32Add (si.I / 2 % p) p = si.I / 2 % p + p := mod_eq_of_lt (by omega)
      refine ⟨_, rfl, ?_⟩
      rw [hsum]
      split_ifs
      · exact ⟨by omega, by omega, by rw [Nat.add_mod_right, mod_mod]⟩
      · exact ⟨by omega, by omega, mod_mod _ _⟩
    obtain ⟨S', hrun, hmarks⟩ := setRow_spec (S := S) (t := t) (i := x₀) hI
      (show 0 < p + p by omega) (by omega) (Nat.lt_succ_of_le (sub_le _ _))
    refine ⟨S', ?_, hmarks.congr fun x => and_congr_right fun _ => ?_⟩
    · have hstep : uint32Add p p = p + p := mod_eq_of_lt (by omega)
      simp only [unsieveOnePrime, if_pos ht, hx₀, hstep]
      exact hrun
    · have hiff := mod_two_mul_iff (o := x % si.I) hp hodd
      rw [hmod, two_mul] at hiff
      have hle : x % si.I % (p + p) = x₀ % (p + p) → x₀ ≤ x % si.I := fun heq => by
        rw [mod_eq_of_lt hlt] at heq
        exact heq ▸ mod_le _ _
      rw [and_iff_right_of_imp hle, hiff, dvd_column_iff, htwo, and_comm]
      exact and_congr_right fun _ => by omega
  · obtain ⟨S', hrun, hmarks⟩ := setRow_spec (S := S) (t := t) (i := si.I / 2 % p) hI
      (show 0 < p by omega) (by omega) (Nat.lt_succ_of_le (sub_le _ _))
    refine ⟨S', ?_, hmarks.congr fun x => and_congr_right fun _ => ?_⟩
    · simp only [unsieveOnePrime, if_neg ht]
      exact hrun
    · have hle : x % si.I % p = si.I / 2 % p → si.I / 2 % p ≤ x % si.I := fun heq =>
        heq ▸ mod_le _ _
      rw [mod_mod, and_iff_right_of_imp hle, dvd_column_iff]
      exact (and_iff_left fun heven => ht (mod_eq_zero_of_dvd heven.2)).symm

theorem orBytes_marks (address : ℕ) {n : ℕ} {s : ℕ → BitVec 8} {Q : ℕ → Prop}
    (hs : ∀ k < n, (Q k → s k = 255#8) ∧ (¬Q k → s k = 0#8)) :
    Marks (fun x => address ≤ x ∧ x < address + n ∧ Q (x - address)) S
      (orBytes n address s S) := by
  intro x
  by_cases hx : address ≤ x ∧ x < address + n
  · obtain ⟨hset, hleft⟩ := hs (x - address) (by omega)
    refine ⟨fun h => ?_, fun h => ?_⟩
    · rw [orBytes, if_pos hx, hset h.2.2]
      exact BitVec.or_allOnes
    · rw [orBytes, if_pos hx, hleft fun hQ => h ⟨hx.1, hx.2, hQ⟩, BitVec.or_zero]
  · exact ⟨fun h => absurd ⟨h.1, h.2.1⟩ hx, fun _ => if_neg hx⟩

/-- The pattern of three words marks one residue. -/
theorem patternLoop_spec {b IUl L r fuel i : ℕ} {s : ℕ → BitVec 8} (hIUl : 2 ≤ IUl)
    (hs : ∀ k < 3 * b, (k % 3 = r → s k = 255#8) ∧ (k % 3 ≠ r → s k = 0#8)) (hi : i % 3 = 0)
    (hle : i ≤ 3 * (IUl / 3)) (hfuel : IUl < i + fuel) :
    ∃ S', patternLoop b IUl L s fuel i S = some (3 * (IUl / 3), S') ∧
      Marks (fun x => L + i * b ≤ x ∧ x < L + 3 * (IUl / 3) * b ∧ (x - L) % 3 = r) S S' := by
  induction fuel generalizing i S with
  | zero => omega
  | succ fuel ih =>
    rw [patternLoop]
    split_ifs with hlt
    · have hone : (i + 1) * b = i * b + b := by ring
      have htwo : (i + 2) * b = i * b + 2 * b := by ring
      have hthree : (i + 3) * b = i * b + 3 * b := by ring
      have hib : i * b % 3 = 0 := by rw [Nat.mul_mod, hi, Nat.zero_mul, Nat.zero_mod]
      have hend : (i + 3) * b ≤ 3 * (IUl / 3) * b := Nat.mul_le_mul_right b (by omega)
      have hword : ∀ j, j + b ≤ 3 * b → ∀ k < b,
          ((j + k) % 3 = r → s (j + k) = 255#8) ∧ (¬(j + k) % 3 = r → s (j + k) = 0#8) :=
        fun j hj k hk => hs (j + k) (by omega)
      have hfirst := orBytes_marks (L + i * b) (S := S) (n := b) (s := s)
        fun k hk => hs k (by omega)
      have hsecond := hfirst.trans (orBytes_marks (L + (i + 1) * b) (hword b (by omega)))
      have hthird := hsecond.trans
        (orBytes_marks (L + (i + 2) * b) (hword (2 * b) (by omega)))
      obtain ⟨S', hrun, hmarks⟩ := ih (i := i + 3) (by omega) (by omega) (by omega)
      refine ⟨S', hrun, (hthird.trans hmarks).congr fun x => ?_⟩
      rw [hone, htwo, hthree]
      rw [hthree] at hend
      generalize i * b = ib at *
      generalize 3 * (IUl / 3) * b = e at *
      omega
    · obtain rfl : i = 3 * (IUl / 3) := by omega
      exact ⟨S, rfl, .refl fun x hx => by omega⟩

/-- The sizes of `unsigned long`, and lines of at least 32 locations. -/
structure ValidLine (b : ℕ) (si : SieveInfo) : Prop extends ValidRegion si where
  wordBytes : b = 4 ∨ b = 8
  five_le_logI : 5 ≤ si.logI

theorem two_pow_mod_three (n : ℕ) : 2 ^ n % 3 ≠ 0 := by
  intro h
  have hdvd := prime_three.dvd_of_dvd_pow (dvd_of_mod_eq_zero h)
  omega

theorem ValidLine.words {b : ℕ} (h : ValidLine b si) :
    si.I / b * b = si.I ∧ 4 ≤ si.I / b ∧ si.I / b % 3 ≠ 0 := by
  have hfive := h.five_le_logI
  obtain ⟨m, hm⟩ : ∃ m, b = 2 ^ m ∧ m ≤ 3 ∧ 2 ≤ m := by
    rcases h.wordBytes with rfl | rfl
    · exact ⟨2, by decide⟩
    · exact ⟨3, by decide⟩
  rw [h.I_eq, hm.1, Nat.pow_div (by omega) (by decide), ← pow_add, Nat.sub_add_cancel (by omega)]
  refine ⟨rfl, ?_, two_pow_mod_three _⟩
  calc 4 = 2 ^ 2 := rfl
    _ ≤ 2 ^ (si.logI - m) := Nat.pow_le_pow_right (by decide) (by omega)

theorem ValidLine.half_mod_three {b : ℕ} (h : ValidLine b si) : si.I / 2 % 3 ≠ 0 := by
  have hfive := h.five_le_logI
  rw [h.I_eq, show si.logI = si.logI - 1 + 1 by omega, pow_succ, Nat.mul_div_cancel _ two_pos]
  exact two_pow_mod_three _

/-- The offset from which on the pattern is not applied. -/
def patternEnd (b : ℕ) (si : SieveInfo) : ℕ :=
  3 * (si.I / b / 3) * b

/-- The offset of the byte that is written for the tail. -/
def tailByte (b : ℕ) (si : SieveInfo) : ℕ :=
  3 * (si.I / b / 3) + 1

/-- The offsets that are set for a line that is divisible by 3. -/
def ThreeMark (b : ℕ) (si : SieveInfo) (x : ℕ) : Prop :=
  x % si.I < patternEnd b si ∧ 3 ∣ column si x ∨
    b % 3 = si.I / 2 % 3 ∧ x % si.I = tailByte b si

/-- The pattern is applied to whole groups of three words, and of the tail only one byte is
written. -/
theorem unsieveThree_spec {b : ℕ} (h : ValidLine b si) :
    ∃ S', unsieveThree b si (t * si.I) S = some S' ∧
      Marks (fun x => x / si.I = t ∧ ThreeMark b si x) S S' := by
  obtain ⟨hI, hfour, hmod⟩ := h.words
  have hr := h.half_mod_three
  have hIpos := h.I_pos
  have hb : 1 ≤ b ∧ b ≤ 8 ∧ 4 ≤ b := by rcases h.wordBytes with rfl | rfl <;> decide
  have hr3 : si.I / 2 % 3 < 3 := mod_lt _ (by decide)
  -- the pattern
  obtain ⟨s, hsrun, hsmarks⟩ := setRow_spec (I := 3 * b) (S := fun _ => 0#8) (t := 0)
    (i := si.I / 2 % 3) (by omega) (show 0 < 3 by decide) (by omega)
    (show 3 * b - si.I / 2 % 3 < 3 * b + 1 by omega)
  rw [Nat.zero_mul] at hsrun
  have hs : ∀ k < 3 * b, (k % 3 = si.I / 2 % 3 → s k = 255#8) ∧
      (k % 3 ≠ si.I / 2 % 3 → s k = 0#8) := by
    intro k hk
    obtain ⟨hset, hleft⟩ := hsmarks k
    simp only [Nat.div_eq_of_lt hk, mod_eq_of_lt hk, mod_mod] at hset hleft
    exact ⟨fun heq => hset ⟨trivial, heq ▸ mod_le _ _, heq⟩,
      fun hne => hleft fun hk => hne hk.2.2⟩
  -- the whole words
  obtain ⟨S₁, hrun, hmarks⟩ := patternLoop_spec (L := t * si.I) (S := S) (i := 0)
    (show 2 ≤ si.I / b by omega) hs rfl (Nat.zero_le _)
    (show si.I / b < 0 + (si.I / b + 1) by omega)
  -- the tail
  have hfirst : Marks (fun _ => False) S₁ (if 3 * (si.I / b / 3) < si.I / b - 1 then
      orBytes 1 (t * si.I + 3 * (si.I / b / 3)) s S₁ else S₁) := by
    split_ifs
    · refine (orBytes_marks _ (Q := fun _ => False) fun k hk => ⟨False.elim, fun _ => ?_⟩).congr
        fun x => by simp
      rw [show k = 0 by omega]
      exact (hs 0 (by omega)).2 (by omega)
    · exact .refl fun _ => id
  have hsecond := (hmarks.trans hfirst).trans (orBytes_marks (t * si.I + tailByte b si) (n := 1)
    (s := fun k => s (b + k)) (Q := fun _ => b % 3 = si.I / 2 % 3) fun k hk => by
      rw [show k = 0 by omega]
      exact hs b (by omega))
  refine ⟨_, ?_, hsecond.congr fun x => ?_⟩
  · simp only [unsieveThree, hsrun, hrun, some_bind]
    rw [if_pos (show 3 * (si.I / b / 3) < si.I / b by omega)]
    rfl
  · have hend : patternEnd b si ≤ si.I := by
      rw [patternEnd]
      calc 3 * (si.I / b / 3) * b ≤ si.I / b * b := Nat.mul_le_mul_right b (Nat.mul_div_le _ 3)
        _ = si.I := hI
    have htail : tailByte b si < si.I := by
      have hle := Nat.mul_le_mul_left (si.I / b) hb.2.2
      rw [tailByte]
      omega
    have hthree : (3 : ℤ) ∣ column si x ↔ x % si.I % 3 = si.I / 2 % 3 :=
      dvd_column_iff (p := 3) x
    rw [ThreeMark, hthree, ← patternEnd, Nat.zero_mul, add_zero]
    constructor
    · rintro ((⟨hle, hlt, hx⟩ | hx) | ⟨hle, hlt, hx⟩)
      · have hoff : x - t * si.I < si.I := by omega
        obtain ⟨hline, hmodI⟩ := (eq_line_add_iff (t := t) (x := x) hoff).mp (by omega)
        rw [hmodI]
        exact ⟨hline, Or.inl ⟨by omega, hx⟩⟩
      · exact hx.elim
      · have hoff : x - t * si.I < si.I := by omega
        obtain ⟨hline, hmodI⟩ := (eq_line_add_iff (t := t) (x := x) hoff).mp (by omega)
        rw [hmodI]
        exact ⟨hline, Or.inr ⟨hx, by omega⟩⟩
    · rintro ⟨hline, hx⟩
      have heq := (eq_line_add_iff (mod_lt x hIpos)).mpr ⟨hline, rfl⟩
      have hoff : x - t * si.I = x % si.I := by omega
      rw [hoff]
      rcases hx with ⟨hlt, hx⟩ | ⟨hx, htail⟩
      · exact Or.inl (Or.inl ⟨by omega, by omega, hx⟩)
      · exact Or.inr ⟨by omega, by omega, hx⟩

/-- The locations that are set for the prime `p`. -/
def PrimeMark (si : SieveInfo) (t p x : ℕ) : Prop :=
  (p : ℤ) ∣ column si x ∧ ¬(2 ∣ column si x ∧ 2 ∣ t)

/-- A line where the locations of the primes in `Q` are set. -/
def PrimesMarks (si : SieveInfo) (t : ℕ) (Q : ℕ → Prop) : (ℕ → BitVec 8) → (ℕ → BitVec 8) → Prop :=
  Marks fun x => x / si.I = t ∧ ∃ q, Q q ∧ PrimeMark si t q x

theorem PrimesMarks.congr {Q Q' : ℕ → Prop} {S' : ℕ → BitVec 8} (h : PrimesMarks si t Q S S')
    (hQ : ∀ q, Q q ↔ Q' q) : PrimesMarks si t Q' S S' :=
  Marks.congr h fun _ => and_congr_right fun _ => exists_congr fun q => and_congr_left' (hQ q)

theorem PrimesMarks.trans {Q Q' : ℕ → Prop} {S' S'' : ℕ → BitVec 8}
    (h : PrimesMarks si t Q S S') (h' : PrimesMarks si t Q' S' S'') :
    PrimesMarks si t (fun q => Q q ∨ Q' q) S S'' := by
  refine Marks.congr (Marks.trans h h') fun x => ?_
  simp [or_and_right, exists_or, and_or_left]

/-- The prime factors of `c` that `c'` does not have. -/
def Removed (c c' q : ℕ) : Prop :=
  q.Prime ∧ q ∣ c ∧ ¬q ∣ c'

theorem removed_trans {c c' c'' : ℕ} (h : c' ∣ c) (h' : c'' ∣ c') (q : ℕ) :
    Removed c c' q ∨ Removed c' c'' q ↔ Removed c c'' q := by
  constructor
  · rintro (⟨hq, hdvd, hnot⟩ | ⟨hq, hdvd, hnot⟩)
    · exact ⟨hq, hdvd, fun h => hnot (h.trans h')⟩
    · exact ⟨hq, hdvd.trans h, hnot⟩
  · rintro ⟨hq, hdvd, hnot⟩
    by_cases hmid : q ∣ c'
    · exact Or.inr ⟨hq, hmid, hnot⟩
    · exact Or.inl ⟨hq, hdvd, hmid⟩

theorem removed_iff {p c c' : ℕ} (h : SplitOff p c c') (hp : p.Prime) (hdvd : p ∣ c)
    (q : ℕ) : q = p ↔ Removed c c' q := by
  constructor
  · rintro rfl
    exact ⟨hp, hdvd, h.1⟩
  · rintro ⟨hq, hqc, hnot⟩
    by_contra hne
    exact hnot ((h.dvd_iff hp hq).mpr ⟨hqc, hne⟩)

theorem unsieveOnePrime_removed (h : ValidRegion si) {c : ℕ} (hp : p.Prime) (hp2 : 2 < p)
    (hc : 0 < c) (hc16 : c < 2 ^ 16) (hdvd : p ∣ c) :
    ∃ S' c', unsieveOnePrime si (t * si.I) p t S = some S' ∧
      divideWhile p (c + 1) (c / p) = some c' ∧ 0 < c' ∧ SplitOff p c c' ∧
        PrimesMarks si t (Removed c c') S S' := by
  have hodd : p % 2 = 1 := hp.eq_two_or_odd.resolve_left (by omega)
  have hle := le_of_dvd hc hdvd
  obtain ⟨S', hrun, hmarks⟩ := unsieveOnePrime_spec (t := t) (S := S) h hodd (by omega)
  obtain ⟨c', hdivide, hpos, hsplit⟩ := divideWhile_div_spec hp.one_lt hc hdvd
  refine ⟨S', c', hrun, hdivide, hpos, hsplit, ?_⟩
  have hone : PrimesMarks si t (fun q => q = p) S S' :=
    hmarks.congr fun x => and_congr_right fun _ => by rw [exists_eq_left, PrimeMark]
  exact hone.congr (removed_iff hsplit hp hdvd)

theorem PrimesMarks.refl (c : ℕ) : PrimesMarks si t (Removed c c) S S :=
  Marks.refl fun _ ⟨_, _, hq, _⟩ => hq.2.2 hq.2.1

/-- Trial division of a line number marks what its primes divide. -/
theorem unsieveTrial_spec (h : ValidRegion si) {k fuel c : ℕ} (hc : 0 < c) (hck : c ≤ k)
    (hk : k < 2 ^ 16) (hp : p % 2 = 1) (hp5 : 5 ≤ p) (hple : p ≤ 2 ^ 8 + 2) (hpk : p ≤ k + 5)
    (hrough : Rough (p - 1) c) (hfuel : k + 5 < p + fuel) :
    ∃ c' S', unsieveTrial si (t * si.I) t fuel p c S = some (c', S') ∧ (c' = 1 ∨ c'.Prime) ∧
      0 < c' ∧ c' ∣ c ∧ PrimesMarks si t (Removed c c') S S' := by
  induction fuel generalizing p c S with
  | zero => omega
  | succ fuel ih =>
    rw [unsieveTrial, mul_self_mod (by omega)]
    split_ifs with hsq hmod
    · have hdvd := dvd_of_mod_eq_zero hmod
      have hprime := hrough.prime_of_dvd (by omega) hdvd
      obtain ⟨S₁, c₁, hrun, hdivide, hpos, hsplit, hmarks⟩ :=
        unsieveOnePrime_removed (t := t) (S := S) h hprime (by omega) hc (by omega) hdvd
      have hle := le_of_dvd hc hsplit.dvd
      obtain ⟨hp8, hpc⟩ := le_of_mul_self_le (by omega) hsq
      obtain ⟨c', S', hrest, hend, hpos', hdvd', hmarks'⟩ := ih (p := p + 2) (c := c₁) (S := S₁)
        hpos (by omega) (by omega) (by omega) (by omega) (by omega)
        ((hsplit.rough hrough).succ_of_odd hp (by omega)) (by omega)
      refine ⟨c', S', ?_, hend, hpos', hdvd'.trans hsplit.dvd,
        (hmarks.trans hmarks').congr (removed_trans hsplit.dvd hdvd')⟩
      simp [hrun, hdivide, some_bind, hrest]
    · have hsplit : SplitOff p c c := ⟨fun hdvd => hmod (mod_eq_zero_of_dvd hdvd), 0, by simp⟩
      obtain ⟨hp8, hpc⟩ := le_of_mul_self_le (by omega) hsq
      exact ih hc hck (by omega) (by omega) (by omega) (by omega)
        ((hsplit.rough hrough).succ_of_odd hp (by omega)) (by omega)
    · refine ⟨c, S, rfl, ?_, hc, dvd_rfl, .refl c⟩
      by_cases hone : c = 1
      · exact Or.inl hone
      · refine Or.inr (hrough.prime (by omega) ?_)
        rw [Nat.sub_add_cancel (by omega), sq]
        omega

variable {b : ℕ} {lpf : List ℕ}

theorem unsieveLargest_spec (h : ValidRegion si) (hlpf : LpfTable si.I lpf) {c : ℕ} (hc : 0 < c)
    (hcI : c < si.I) (hI16 : si.I < 2 ^ 16) :
    ∃ c' S', unsieveLargest si lpf (t * si.I) t c S = some (c', S') ∧ 0 < c' ∧ c' ∣ c ∧
      (∀ q, Removed c c' q → 3 < q) ∧ PrimesMarks si t (Removed c c') S S' := by
  have hsame : ∀ q, Removed c c q → 3 < q := fun q hq => absurd hq.2.1 hq.2.2
  rcases Nat.lt_or_ge c 2 with hlt | hge
  · obtain rfl : c = 1 := by omega
    refine ⟨1, S, ?_, one_pos, dvd_rfl, hsame, .refl 1⟩
    rw [unsieveLargest, hlpf.one]
    rfl
  · obtain ⟨p, hp, hlargest⟩ := hlpf.largest c hge hcI
    by_cases hp3 : 3 < p
    · obtain ⟨S', c', hrun, hdivide, hpos, hsplit, hmarks⟩ := unsieveOnePrime_removed (t := t)
        (S := S) h hlargest.prime (by omega) hc (by omega) hlargest.dvd
      refine ⟨c', S', ?_, hpos, hsplit.dvd, fun q hq => ?_, hmarks⟩
      · simp [unsieveLargest, hp, some_bind, if_pos hp3,
          assertAlways_of_true (mod_eq_zero_of_dvd hlargest.dvd), hrun, hdivide]
      · rwa [(removed_iff hsplit hlargest.prime hlargest.dvd q).mpr hq]
    · refine ⟨c, S, ?_, hc, dvd_rfl, hsame, .refl c⟩
      simp [unsieveLargest, hp, some_bind, if_neg hp3]

theorem unsieveSmall_spec (h : ValidLine b si) {c : ℕ} (hc : 0 < c) :
    ∃ c' S', unsieveSmall b si (t * si.I) c S = some (c', S') ∧ 0 < c' ∧ c' ∣ c ∧
      Rough 4 c' ∧ (∀ q, Removed c c' q → q ≤ 3) ∧
        Marks (fun x => x / si.I = t ∧ 3 ∣ c ∧ ThreeMark b si x) S S' := by
  obtain ⟨c₁, htwo, hpos₁, hsplit₁⟩ := divideWhile_spec (p := 2) (by decide) hc (Nat.lt_succ_self c)
  have hrough₁ : Rough 2 c₁ := hsplit₁.rough fun q hq _ => hq.one_lt
  have hremoved₁ : ∀ q, Removed c c₁ q → q ≤ 3 := fun q hq => by
    by_contra hlt
    exact hq.2.2 ((hsplit₁.dvd_iff Nat.prime_two hq.1).mpr ⟨hq.2.1, by omega⟩)
  have hthree : 3 ∣ c₁ ↔ 3 ∣ c := by
    rw [hsplit₁.dvd_iff Nat.prime_two prime_three]
    exact and_iff_left (by decide)
  have hrough : ∀ {c'}, SplitOff 3 c₁ c' → Rough 4 c' := fun hsplit =>
    (hsplit.rough hrough₁).succ_of_odd (by decide) (by decide)
  rw [unsieveSmall, htwo, some_bind]
  by_cases hmod : c₁ % 3 = 0
  · obtain ⟨S', hrun, hmarks⟩ := unsieveThree_spec (t := t) (S := S) h
    obtain ⟨c', hdivide, hpos, hsplit⟩ :=
      divideWhile_div_spec (p := 3) (by decide) hpos₁ (dvd_of_mod_eq_zero hmod)
    refine ⟨c', S', ?_, hpos, hsplit.dvd.trans hsplit₁.dvd, hrough hsplit, fun q hq => ?_,
      hmarks.congr fun x => and_congr_right fun _ => ?_⟩
    · simp [if_pos hmod, hrun, hdivide, some_bind]
    · by_cases hqc : q ∣ c₁
      · exact ((removed_iff hsplit prime_three (dvd_of_mod_eq_zero hmod) q).mpr
          ⟨hq.1, hqc, hq.2.2⟩).le
      · exact hremoved₁ q ⟨hq.1, hq.2.1, hqc⟩
    · exact (and_iff_right (hthree.mp (dvd_of_mod_eq_zero hmod))).symm
  · have hnot : ¬3 ∣ c₁ := fun hdvd => hmod (mod_eq_zero_of_dvd hdvd)
    refine ⟨c₁, S, if_neg hmod, hpos₁, hsplit₁.dvd, hrough ⟨hnot, 0, by simp⟩, hremoved₁,
      .refl fun x hx => hnot (hthree.mpr hx.2.1)⟩

/-- What is set in the line `c`. -/
def LineMark (b : ℕ) (si : SieveInfo) (c x : ℕ) : Prop :=
  (∃ q, (q.Prime ∧ 5 ≤ q ∧ q ∣ c) ∧ PrimeMark si c q x) ∨ 3 ∣ c ∧ ThreeMark b si x

/-- One line loses exactly the places with a common factor. -/
theorem unsieveLine_spec (h : ValidLine b si) (hlpf : LpfTable si.I lpf) {c : ℕ} (hc : 0 < c)
    (hcI : c < si.I) (ht : 2 ∣ t ↔ 2 ∣ c) :
    ∃ S', unsieveLine b si lpf c t S = some S' ∧
      Marks (fun x => x / si.I = t ∧ LineMark b si c x) S S' := by
  have hI16 : si.I < 2 ^ 16 := by
    rw [h.I_eq]
    exact Nat.pow_lt_pow_right (by decide) h.logI_lt
  obtain ⟨c₁, S₁, hlargest, hpos₁, hdvd₁, hbig, hmarks₁⟩ :=
    unsieveLargest_spec (t := t) (S := S) h.toValidRegion hlpf hc hcI hI16
  obtain ⟨c₂, S₂, hsmall, hpos₂, hdvd₂, hrough, hlow, hmarks₂⟩ :=
    unsieveSmall_spec (t := t) (S := S₁) h hpos₁
  have hle₁ := le_of_dvd hc hdvd₁
  have hle₂ := le_of_dvd hpos₁ hdvd₂
  obtain ⟨c₃, S₃, htrial, hend, hpos₃, hdvd₃, hmarks₃⟩ := unsieveTrial_spec (t := t) (S := S₂)
    (p := 5) (k := c₂) h.toValidRegion hpos₂ le_rfl (by omega) (by decide)
    (by decide) (by decide) (by omega) hrough (show c₂ + 5 < 5 + (c₂ + 1) by omega)
  have hle₃ := le_of_dvd hpos₂ hdvd₃
  -- the last prime
  obtain ⟨S₄, hlast, hmarks₄⟩ : ∃ S₄, (if c₃ ≠ 1 then do
        assertAlways (3 < c₃ ∧ lpf[c₃]? = some c₃)
        unsieveOnePrime si (t * si.I) c₃ t S₃
      else some S₃) = some S₄ ∧ PrimesMarks si t (Removed c₃ 1) S₃ S₄ := by
    by_cases hone : c₃ = 1
    · subst hone
      exact ⟨S₃, rfl, .refl 1⟩
    · have hprime := hend.resolve_left hone
      have hfour := hrough c₃ hprime hdvd₃
      obtain ⟨p, hp, hpl⟩ := hlpf.largest c₃ hprime.two_le (by omega)
      rw [hpl.of_prime hprime] at hp
      obtain ⟨S₄, hrun, hmarks⟩ := unsieveOnePrime_spec (t := t) (S := S₃) h.toValidRegion
        (hprime.eq_two_or_odd.resolve_left (by omega)) (by omega)
      refine ⟨S₄, ?_, ?_⟩
      · rw [if_pos hone, assertAlways_of_true ⟨by omega, hp⟩]
        exact hrun
      · have hsplit : SplitOff c₃ c₃ 1 := ⟨fun hd => hone (dvd_one.mp hd), 1, by simp⟩
        have hset : PrimesMarks si t (fun q => q = c₃) S₃ S₄ :=
          hmarks.congr fun x => and_congr_right fun _ => by rw [exists_eq_left, PrimeMark]
        exact hset.congr (removed_iff hsplit hprime dvd_rfl)
  refine ⟨S₄, ?_, ?_⟩
  · simp only [unsieveLine, Nat.shiftLeft_eq, ← h.I_eq, hlargest, hsmall, htrial, some_bind]
    exact hlast
  · have hthree : 3 ∣ c₁ ↔ 3 ∣ c := by
      refine ⟨fun hd => hd.trans hdvd₁, fun hd => ?_⟩
      by_contra hnot
      exact absurd (hbig 3 ⟨prime_three, hd, hnot⟩) (lt_irrefl 3)
    have hprimes : ∀ q, Removed c c₁ q ∨ Removed c₂ 1 q ↔ q.Prime ∧ 5 ≤ q ∧ q ∣ c := by
      intro q
      constructor
      · rintro (hq | hq)
        · have hlt := hbig q hq
          have hodd := hq.1.eq_two_or_odd
          exact ⟨hq.1, by omega, hq.2.1⟩
        · exact ⟨hq.1, hrough q hq.1 hq.2.1, (hq.2.1.trans hdvd₂).trans hdvd₁⟩
      · rintro ⟨hq, hq5, hqc⟩
        by_cases hq₁ : q ∣ c₁
        · by_cases hq₂ : q ∣ c₂
          · exact Or.inr ⟨hq, hq₂, fun hone => hq.one_lt.ne' (dvd_one.mp hone)⟩
          · have := hlow q ⟨hq, hq₁, hq₂⟩
            omega
        · exact Or.inl ⟨hq, hqc, hq₁⟩
    have hrest : PrimesMarks si t (Removed c₂ 1) S₂ S₄ :=
      (hmarks₃.trans hmarks₄).congr (removed_trans hdvd₃ (one_dvd c₃))
    refine (Marks.trans (Marks.trans hmarks₁ hmarks₂) hrest).congr fun x => ?_
    rw [or_right_comm, ← and_or_left, ← and_or_left]
    refine and_congr_right fun _ => or_congr ?_ (and_congr_left' hthree)
    rw [← exists_or]
    refine exists_congr fun q => ?_
    rw [← or_and_right, hprimes, PrimeMark, PrimeMark, ht]

end Line

/-! ## A region -/

/-- The coordinate `j` of the location `x` of region `N`. -/
def line (si : SieveInfo) (N x : ℕ) : ℕ :=
  N * linesPerRegion si + x / si.I

section Region

variable {b : ℕ} {si : SieveInfo} {lpf : List ℕ} {N : ℕ} {S : ℕ → BitVec 8}

theorem two_le_linesPerRegion (h : ValidRegion si) : 2 ≤ linesPerRegion si := by
  obtain ⟨hmul, htwo⟩ := h.lines_mul
  refine le_of_dvd (Nat.pos_of_ne_zero fun hzero => ?_) htwo
  rw [hzero, Nat.zero_mul] at hmul
  exact absurd hmul (by decide)

/-- What is set in a region of which the table has all lines. -/
theorem unsieveNotCoprime_spec (h : ValidLine b si) (hlpf : LpfTable si.I lpf)
    (hlines : (N + 1) * linesPerRegion si ≤ si.I) :
    ∃ S', unsieveNotCoprime b si lpf N S = some S' ∧
      Marks (fun x => x < bucketRegion ∧ 1 ≤ line si N x ∧ LineMark b si (line si N x) x) S S' := by
  have hmul : (N + 1) * linesPerRegion si = N * linesPerRegion si + linesPerRegion si := by ring
  have htwo := two_le_linesPerRegion h.toValidRegion
  obtain ⟨m, hm⟩ := h.lines_mul.2
  set first := if N = 0 then 1 else 0 with hfirst
  obtain ⟨S', hrun, hmarks⟩ := forRangeM_induct
    (motive := fun k S₁ => Marks (fun x => (first ≤ x / si.I ∧ x / si.I < first + k) ∧
      LineMark b si (line si N x) x) S S₁)
    (fun k => unsieveLine b si lpf (N * linesPerRegion si + (first + k)) (first + k)) S
    (linesPerRegion si - first) (.refl fun x hx => by omega) fun k hk S₁ hmarks => by
      have hpos : 0 < N * linesPerRegion si + (first + k) := by
        rw [hfirst]
        split_ifs with hN
        · omega
        · have := Nat.mul_pos (Nat.pos_of_ne_zero hN) (show 0 < linesPerRegion si by omega)
          omega
      have hparity : 2 ∣ first + k ↔ 2 ∣ N * linesPerRegion si + (first + k) := by
        rw [hm]
        exact (Nat.dvd_add_right ⟨N * m, by ring⟩).symm
      obtain ⟨S₂, hline, hmarks₂⟩ := unsieveLine_spec (S := S₁) h hlpf hpos (by omega) hparity
      refine ⟨S₂, hline, (hmarks.trans hmarks₂).congr fun x => ?_⟩
      constructor
      · rintro (⟨hrange, hmark⟩ | ⟨hline, hmark⟩)
        · exact ⟨by omega, hmark⟩
        · rw [line, hline]
          exact ⟨by omega, hmark⟩
      · rintro ⟨hrange, hmark⟩
        by_cases hlast : x / si.I = first + k
        · right
          rw [line, hlast] at hmark
          exact ⟨hlast, hmark⟩
        · exact Or.inl ⟨by omega, hmark⟩
  refine ⟨S', hrun, hmarks.congr fun x => ?_⟩
  rw [← and_assoc, h.lt_lines_iff]
  refine and_congr_left fun _ => ?_
  rw [line, hfirst]
  split_ifs with hN
  · rw [hN]
    omega
  · have hpos := Nat.mul_pos (Nat.pos_of_ne_zero hN) (show 0 < linesPerRegion si by omega)
    have hline := Nat.zero_le (x / si.I)
    omega

theorem lines_le_of_run (h : ValidRegion si) (hlpf : LpfTable si.I lpf) {S' : ℕ → BitVec 8}
    (hrun : unsieveNotCoprime b si lpf N S = some S') : (N + 1) * linesPerRegion si ≤ si.I := by
  have hmul : (N + 1) * linesPerRegion si = N * linesPerRegion si + linesPerRegion si := by ring
  have htwo := two_le_linesPerRegion h
  rw [unsieveNotCoprime] at hrun
  obtain ⟨k, hk, hlast⟩ : ∃ k, linesPerRegion si - (if N = 0 then 1 else 0) = k + 1 ∧
      N * linesPerRegion si + ((if N = 0 then 1 else 0) + k) + 1 = (N + 1) * linesPerRegion si := by
    split_ifs
    · exact ⟨linesPerRegion si - 2, by omega, by omega⟩
    · exact ⟨linesPerRegion si - 1, by omega, by omega⟩
  simp only [hk, forRangeM] at hrun
  obtain ⟨S₁, -, hline⟩ := bind_eq_some_iff.mp hrun
  rw [unsieveLine] at hline
  obtain ⟨_, hlargest, -⟩ := bind_eq_some_iff.mp hline
  obtain ⟨p, hp, -⟩ := bind_eq_some_iff.mp hlargest
  have hlt := (List.getElem?_eq_some_iff.mp hp).1
  rw [hlpf.length_eq] at hlt
  omega

/-- The locations with an odd common factor are set, unless both coordinates are even, and the
others are left. -/
structure SetsCommon (si : SieveInfo) (N : ℕ) (S S' : ℕ → BitVec 8) : Prop where
  set : ∀ x < bucketRegion, 1 ≤ line si N x → ¬(2 ∣ column si x ∧ 2 ∣ line si N x) →
    (∃ p, p.Prime ∧ p ≠ 2 ∧ p ∣ Int.gcd (column si x) (line si N x)) → S' x = 255#8
  left : ∀ x < bucketRegion, line si N x = 0 ∨ Int.gcd (column si x) (line si N x) = 1 →
    S' x = S x

/-- The table has all lines, and the tail of each line that is divisible by 3 is right without
the pattern. -/
structure TailRight (b : ℕ) (si : SieveInfo) (N : ℕ) (S : ℕ → BitVec 8) : Prop where
  lines_le : (N + 1) * linesPerRegion si ≤ si.I
  tail : ∀ x < bucketRegion, 1 ≤ line si N x → 3 ∣ line si N x → 3 ∣ column si x →
    ¬(2 ∣ column si x ∧ 2 ∣ line si N x) → patternEnd b si ≤ x % si.I →
      S x = 255#8 ∨ ∃ p, p.Prime ∧ 5 ≤ p ∧ p ∣ line si N x ∧ (p : ℤ) ∣ column si x
  byte : ∀ x < bucketRegion, 1 ≤ line si N x → 3 ∣ line si N x → b % 3 = si.I / 2 % 3 →
    x % si.I = tailByte b si → S x = 255#8 ∨ Int.gcd (column si x) (line si N x) ≠ 1

theorem dvd_gcd_column_iff (p x : ℕ) :
    p ∣ Int.gcd (column si x) (line si N x) ↔ (p : ℤ) ∣ column si x ∧ p ∣ line si N x := by
  rw [Int.gcd, Nat.dvd_gcd_iff, Int.natCast_dvd, Int.natAbs_natCast]

theorem gcd_ne_one {p x : ℕ} (hp : p.Prime) (hcol : (p : ℤ) ∣ column si x)
    (hline : p ∣ line si N x) : Int.gcd (column si x) (line si N x) ≠ 1 := fun hone => by
  have hdvd := (dvd_gcd_column_iff p x).mpr ⟨hcol, hline⟩
  rw [hone] at hdvd
  exact hp.one_lt.ne' (dvd_one.mp hdvd)

theorem ValidLine.tailByte_lt (h : ValidLine b si) : tailByte b si < patternEnd b si := by
  obtain ⟨-, hfour, -⟩ := h.words
  have hb : 4 ≤ b := by rcases h.wordBytes with rfl | rfl <;> decide
  calc tailByte b si = 3 * (si.I / b / 3) + 1 := rfl
    _ < 3 * (si.I / b / 3) * 4 := by omega
    _ ≤ patternEnd b si := Nat.mul_le_mul_left _ hb

theorem SetsCommon.tailRight (h : ValidLine b si) (hlines : (N + 1) * linesPerRegion si ≤ si.I)
    {S' : ℕ → BitVec 8} (hmarks : Marks (fun x => x < bucketRegion ∧ 1 ≤ line si N x ∧
      LineMark b si (line si N x) x) S S') (hsets : SetsCommon si N S S') :
    TailRight b si N S := by
  refine ⟨hlines, fun x hx hpos hthree hcol hodd hend => ?_, fun x hx hpos hthree hmod hbyte => ?_⟩
  · by_cases hprime : ∃ p, p.Prime ∧ 5 ≤ p ∧ p ∣ line si N x ∧ (p : ℤ) ∣ column si x
    · exact Or.inr hprime
    · left
      have hset := hsets.set x hx hpos hodd
        ⟨3, prime_three, by decide, (dvd_gcd_column_iff 3 x).mpr ⟨hcol, hthree⟩⟩
      rw [← hset, (hmarks x).2]
      rintro ⟨-, -, ⟨q, ⟨hq, hq5, hql⟩, hqc, -⟩ | ⟨-, ⟨hlt, -⟩ | ⟨-, hbyte⟩⟩⟩
      · exact hprime ⟨q, hq, hq5, hql, hqc⟩
      · omega
      · have := h.tailByte_lt
        omega
  · by_cases hgcd : Int.gcd (column si x) (line si N x) = 1
    · left
      rw [← hsets.left x hx (Or.inr hgcd)]
      exact (hmarks x).1 ⟨hx, hpos, Or.inr ⟨hthree, Or.inr ⟨hmod, hbyte⟩⟩⟩
    · exact Or.inr hgcd

theorem TailRight.setsCommon (h : TailRight b si N S) {S' : ℕ → BitVec 8}
    (hmarks : Marks (fun x => x < bucketRegion ∧ 1 ≤ line si N x ∧
      LineMark b si (line si N x) x) S S') : SetsCommon si N S S' := by
  refine ⟨fun x hx hpos hodd ⟨p, hp, hp2, hdvd⟩ => ?_, fun x hx hleft => ?_⟩
  · obtain ⟨hcol, hline⟩ := (dvd_gcd_column_iff p x).mp hdvd
    have hmark : ∀ q, q.Prime → 5 ≤ q → q ∣ line si N x → (q : ℤ) ∣ column si x →
        S' x = 255#8 := fun q hq hq5 hql hqc =>
      (hmarks x).1 ⟨hx, hpos, Or.inl ⟨q, ⟨hq, hq5, hql⟩, hqc, hodd⟩⟩
    rcases Nat.lt_or_ge p 5 with hlt | hge
    · obtain rfl : p = 3 := by
        have := hp.eq_two_or_odd
        have := hp.two_le
        omega
      by_cases hend : x % si.I < patternEnd b si
      · exact (hmarks x).1 ⟨hx, hpos, Or.inr ⟨hline, Or.inl ⟨hend, hcol⟩⟩⟩
      · rcases h.tail x hx hpos hline hcol hodd (by omega) with hS | ⟨q, hq, hq5, hql, hqc⟩
        · by_cases hm : x < bucketRegion ∧ 1 ≤ line si N x ∧ LineMark b si (line si N x) x
          · exact (hmarks x).1 hm
          · rw [(hmarks x).2 hm, hS]
        · exact hmark q hq hq5 hql hqc
    · exact hmark p hp hge hline hcol
  · by_cases hm : x < bucketRegion ∧ 1 ≤ line si N x ∧ LineMark b si (line si N x) x
    · have hgcd := hleft.resolve_left (by omega)
      obtain ⟨-, hpos, ⟨q, ⟨hq, -, hql⟩, hqc, -⟩ | ⟨hthree, ⟨-, hcol⟩ | ⟨hmod, hbyte⟩⟩⟩ := hm
      · exact absurd hgcd (gcd_ne_one hq hqc hql)
      · exact absurd hgcd (gcd_ne_one prime_three hcol hthree)
      · rcases h.byte x hx hpos hthree hmod hbyte with hS | hne
        · rw [hS]
          exact (hmarks x).1 ⟨hx, hpos, Or.inr ⟨hthree, Or.inr ⟨hmod, hbyte⟩⟩⟩
        · exact absurd hgcd hne
    · exact (hmarks x).2 hm

/-- The table is right, and `unsieve_not_coprime` sets the locations with an odd common
factor exactly if the tails are right without the pattern. -/
theorem unsieveNotCoprime_iff (h : ValidLine b si) :
    (∃ lpf, initLpf si.I = some lpf ∧ LpfTable si.I lpf) ∧
      ∀ lpf, LpfTable si.I lpf → ∀ N S,
        ((∃ S', unsieveNotCoprime b si lpf N S = some S' ∧ SetsCommon si N S S') ↔
          TailRight b si N S) := by
  have hI16 : si.I < 2 ^ 16 := by
    rw [h.I_eq]
    exact Nat.pow_lt_pow_right (by decide) h.logI_lt
  have hI : 1 < si.I := by
    rw [h.I_eq]
    exact Nat.one_lt_two_pow (by have := h.five_le_logI; omega)
  refine ⟨initLpf_spec hI hI16.le, fun lpf hlpf N S => ⟨?_, fun hright => ?_⟩⟩
  · rintro ⟨S', hrun, hsets⟩
    have hlines := lines_le_of_run h.toValidRegion hlpf hrun
    obtain ⟨S₁, hrun₁, hmarks⟩ := unsieveNotCoprime_spec (S := S) h hlpf hlines
    obtain rfl : S' = S₁ := Option.some.inj (hrun.symm.trans hrun₁)
    exact hsets.tailRight h hlines hmarks
  · obtain ⟨S', hrun, hmarks⟩ := unsieveNotCoprime_spec (S := S) h hlpf hright.lines_le
    exact ⟨S', hrun, hright.setsCommon hmarks⟩

/-- Lines of `2 ^ 15` locations, two in a region. -/
def wideRegion : SieveInfo := ⟨15, 2 ^ 15, 4⟩

theorem validLine_wideRegion : ValidLine 8 wideRegion :=
  ⟨⟨rfl, by decide, by decide, by decide⟩, Or.inr rfl, by decide⟩

/-- The lines 2 and 3, when the last word of line 3 is set already: its location 3 is set. -/
theorem unsieveNotCoprime_iff_wideRegion :
    let S : ℕ → BitVec 8 := fun x => if 65528 ≤ x then 255#8 else 0#8
    ∃ lpf, initLpf wideRegion.I = some lpf ∧
      ∃ S', unsieveNotCoprime 8 wideRegion lpf 1 S = some S' ∧ SetsCommon wideRegion 1 S S' ∧
        column wideRegion 49155 = 3 ∧ line wideRegion 1 49155 = 3 ∧ S' 49155 = 255#8 := by
  intro S
  obtain ⟨⟨lpf, hlpf, htable⟩, hiff⟩ := unsieveNotCoprime_iff validLine_wideRegion
  have htail : TailRight 8 wideRegion 1 S := by
    refine ⟨by decide, fun x hx hpos hthree _ _ hend => .inl (if_pos ?_),
      fun x _ _ _ hmod _ => absurd hmod (by decide)⟩
    have hline : line wideRegion 1 x = 2 + x / 32768 :=
      congrArg (· + x / 32768) (show 1 * linesPerRegion wideRegion = 2 by decide)
    have hlast : 32760 ≤ x % 32768 := hend
    have hregion : x < 65536 := hx
    omega
  obtain ⟨S', hrun, hsets⟩ := (hiff lpf htable 1 S).mpr htail
  refine ⟨lpf, hlpf, S', hrun, hsets, by decide, by decide, ?_⟩
  exact hsets.set 49155 (by decide) (by decide) (by decide)
    ⟨3, Nat.prime_three, by decide, by decide⟩

/-- The last location of line 3 is left, although its coordinates are divisible by 3. -/
theorem not_unsieveNotCoprime : ¬∀ b si lpf N S, ValidLine b si → LpfTable si.I lpf →
    si.J ≤ si.I → N < nbBuckets si →
      ∃ S', unsieveNotCoprime b si lpf N S = some S' ∧ SetsCommon si N S S' := by
  intro h
  obtain ⟨lpf, -, htable⟩ := initLpf_spec (I := 2 ^ 15) (by decide) (by decide)
  obtain ⟨S', hrun, hsets⟩ := h 8 wideRegion lpf 1 (fun _ => 0#8) validLine_wideRegion htable
    (by decide) (by decide)
  obtain ⟨S₁, hrun₁, hmarks⟩ := unsieveNotCoprime_spec (S := fun _ => 0#8) validLine_wideRegion
    htable (N := 1) (by decide)
  obtain rfl : S' = S₁ := Option.some.inj (hrun.symm.trans hrun₁)
  rcases (hsets.tailRight validLine_wideRegion (by decide) hmarks).tail 65535 (by decide)
    (by decide) (by decide) (by decide) (by decide) (by decide) with hset | ⟨p, -, hp5, hdvd, -⟩
  · exact absurd hset (by decide)
  · have hle := le_of_dvd (show 0 < line wideRegion 1 65535 by decide) hdvd
    have hthree : line wideRegion 1 65535 = 3 := by decide
    omega

end Region

end CadoNfs.Unsieve
