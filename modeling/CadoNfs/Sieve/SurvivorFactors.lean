import CadoNfs.Sieve.BucketPrimes
import CadoNfs.Sieve.Trialdiv
import Mathlib.Algebra.Order.BigOperators.Group.List
import Mathlib.Data.List.Prime
import Mathlib.Tactic.NormNum.Prime

/-!
# The factors of a survivor

The norm of a location that survives the sieve is split in `trial_div` of `las.c`:
first the powers of two, then the primes that the buckets have recorded for the location, then
the primes of a table.

Main results:

- Theorem `trialDiv_returns`: what is left whenever the function returns.
- Theorem `trialDiv_factors`: when the recorded primes are the ones that are found.
-/

namespace CadoNfs

open WordArith
open List (mem_append mem_append_left mem_append_right mem_cons_self mem_replicate mem_singleton
  prod_append replicate)

variable {w : ℕ}

/-! ## Code -/

/-- `FB_END`. -/
def fbEnd : BitVec 32 := 1#32

/-- The loop that writes `bit` factors 2. -/
def pushTwos : ℕ → FactorList → Outcome FactorList
  | 0, fl => pure fl
  | bit + 1, fl => do
    let fl ← fl.push 2#64
    pushTwos bit fl

/-- The powers of two, if 2 is the first prime of the factor base. -/
def divideTwos (norm : ℕ) (fb : List (BitVec 32)) : Outcome Factored :=
  if fb.headD fbEnd = 2#32 then do
    let bit := ctz norm.size norm
    let fl ← pushTwos bit .empty
    pure ⟨fl, norm / 2 ^ bit⟩
  else pure ⟨.empty, norm⟩

/-- The loop that copies `n` factors from place `i` on; `mem` stands where nothing has been
written. -/
def copyFactors (mem : ℕ → BitVec w) (factors : List (BitVec w)) :
    ℕ → ℕ → FactorList → Outcome FactorList
  | 0, _, fl => pure fl
  | n + 1, i, fl => do
    let fl ← fl.push ((factors.getD i (mem i)).setWidth 64)
    copyFactors mem factors n (i + 1) fl

variable (build : UlarithBuild) (asserts : Bool)

/-- The division by the primes of the table, whose factors go to an array of 32 words. -/
def divideByTable (mem : ℕ → BitVec w) (s : Factored)
    (trialdivData : List (TrialdivDivisor w)) : Outcome Factored := do
  let res ← trialdiv build s.norm trialdivData 32
  Outcome.assert (asserts = true → res.n ≤ 32)
  let fl ← copyFactors mem res.f res.n 0 s.fl
  pure ⟨fl, res.N⟩

/-- `trial_div`; `mem` is what the array of 32 factors has before. -/
def trialDiv (mem : ℕ → BitVec w) (norm : ℕ) (x : ℤ) (fb : List (BitVec 32))
    (primes : BucketPrimes) (trialdivData : List (TrialdivDivisor w)) (fbb : BitVec w) :
    Outcome (Factored × BucketPrimes) := do
  let s ← divideTwos norm fb
  let t ← dividePrimesFromBucket s x primes fbb
  let s ← divideByTable build asserts mem t.1 trialdivData
  pure (s, t.2)

/-! ## The powers of two -/

/-- The state at the start. -/
def Factored.start (norm : ℕ) : Factored := ⟨.empty, norm⟩

/-- What the first stage does. -/
def TwosStep (fb : List (BitVec 32)) (s s' : Factored) : Prop :=
  ∃ l, s.Splits l s' ∧ (∀ q ∈ l, q = 2 ∧ 2#32 ∈ fb) ∧ (2#32 ∈ fb → ¬2 ∣ s'.norm)

/-- The powers of two do not fit in the list. -/
def TwosFull (fb : List (BitVec 32)) (s : Factored) : Prop :=
  ∃ l, s.Overfull l ∧ ∀ q ∈ l, q = 2 ∧ 2#32 ∈ fb

theorem pushTwos_spec (bit : ℕ) (fl : FactorList) :
    (∃ fl', pushTwos bit fl = pure fl' ∧ fl'.values = fl.values ++ replicate bit 2) ∨
    (pushTwos bit fl = .abort ∧ flMaxSize < fl.fac.length + bit) := by
  induction bit generalizing fl with
  | zero => exact .inl ⟨fl, rfl, by simp⟩
  | succ bit ih =>
    rw [pushTwos]
    rcases fl.push_spec le_rfl 2#64 with ⟨fl', hpush, hvalues, hlength⟩ | ⟨hpush, hfull⟩
    · rw [BitVec.setWidth_eq] at hpush
      rw [hpush, pure_bind]
      rcases ih fl' with ⟨fl'', hrun, hvalues'⟩ | ⟨hrun, hfull⟩
      · refine .inl ⟨fl'', hrun, ?_⟩
        rw [hvalues', hvalues, List.append_assoc, List.replicate_succ]
        rfl
      · exact .inr ⟨hrun, by omega⟩
    · rw [BitVec.setWidth_eq] at hpush
      rw [hpush]
      exact .inr ⟨rfl, by omega⟩

section

variable {fb : List (BitVec 32)} (hfb : 2#32 ∈ fb → fb.head? = some 2#32)
include hfb

theorem headD_eq_two_iff : fb.headD fbEnd = 2#32 ↔ 2#32 ∈ fb := by
  cases fb with
  | nil => simp [fbEnd]
  | cons p fb =>
    refine ⟨fun h => h ▸ mem_cons_self, fun h => ?_⟩
    simpa using hfb h

theorem divideTwos_spec {norm : ℕ} (hnorm : 0 < norm) :
    (∃ s, divideTwos norm fb = pure s ∧ TwosStep fb (.start norm) s) ∨
    (divideTwos norm fb = .abort ∧ TwosFull fb (.start norm)) := by
  rw [divideTwos]
  split_ifs with hhead
  · have h2 := (headD_eq_two_iff hfb).mp hhead
    obtain ⟨c, hc, hodd⟩ := ctz_spec hnorm norm.lt_size_self
    have hlisted : ∀ q ∈ replicate (ctz norm.size norm) 2, q = 2 ∧ 2#32 ∈ fb :=
      fun q hq => ⟨(mem_replicate.mp hq).2, h2⟩
    have hquot : norm / 2 ^ ctz norm.size norm = c :=
      Nat.div_eq_of_eq_mul_left (Nat.two_pow_pos _) hc
    have hprod : (replicate (ctz norm.size norm) 2).prod * c = norm := by
      rw [List.prod_replicate, mul_comm, ← hc]
    dsimp only
    rcases pushTwos_spec (ctz norm.size norm) .empty with ⟨fl, hrun, hvalues⟩ | ⟨hrun, hfull⟩
    · rw [hrun, pure_bind, hquot]
      refine .inl ⟨_, rfl, _, ⟨hvalues, hprod⟩, hlisted, fun _ hdvd => ?_⟩
      dsimp only at hdvd
      omega
    · rw [hrun]
      refine .inr ⟨rfl, _, ⟨⟨c, hprod.symm⟩, ?_⟩, hlisted⟩
      rw [List.length_replicate]
      exact hfull
  · exact .inl ⟨_, rfl, [], .refl _, by simp,
      fun h2 => absurd ((headD_eq_two_iff hfb).mpr h2) hhead⟩

end

/-! ## The table -/

/-- What the last stage does. -/
def TableStep (table : List ℕ) (s s' : Factored) : Prop :=
  ∃ l, s.Splits l s' ∧ (∀ q ∈ l, q ∈ table) ∧ ∀ p ∈ table, ¬p ∣ s'.norm

/-- The number is too long for the table, or has too many factors there. -/
def TableFull (w : ℕ) (table : List ℕ) (s : Factored) : Prop :=
  2 ^ (w * 6) ≤ s.norm ∨ ∃ l : List ℕ, (∀ q ∈ l, q ∈ table) ∧ l.prod ∣ s.norm ∧
    (32 < l.length ∨ flMaxSize < s.fl.fac.length + l.length)

theorem copyFactors_spec (hw : w ≤ 64) (factors : List (BitVec w)) {n i : ℕ} (fl : FactorList)
    (hn : i + n = factors.length) :
    (∃ fl', (∀ mem, copyFactors mem factors n i fl = pure fl') ∧
      fl'.values = fl.values ++ (factors.drop i).map BitVec.toNat) ∨
    ((∀ mem, copyFactors mem factors n i fl = .abort) ∧ flMaxSize < fl.fac.length + n) := by
  induction n generalizing i fl with
  | zero => exact .inl ⟨fl, fun _ => rfl, by rw [List.drop_of_length_le (by omega)]; simp⟩
  | succ n ih =>
    have hi : i < factors.length := by omega
    have hstep : ∀ mem, copyFactors mem factors (n + 1) i fl =
        fl.push (factors[i].setWidth 64) >>= copyFactors mem factors n (i + 1) := fun mem => by
      rw [copyFactors, List.getD_eq_getElem _ _ hi]
    rcases fl.push_spec hw factors[i] with ⟨fl', hpush, hvalues, hlength⟩ | ⟨hpush, hfull⟩
    · simp only [hstep, hpush, pure_bind]
      rcases ih (i := i + 1) fl' (by omega) with ⟨fl'', hrun, hvalues'⟩ | ⟨hrun, hfull⟩
      · refine .inl ⟨fl'', hrun, ?_⟩
        rw [hvalues', hvalues, List.append_assoc, List.drop_eq_getElem_cons hi, List.map_cons]
        rfl
      · exact .inr ⟨hrun, by omega⟩
    · exact .inr ⟨fun mem => by rw [hstep, hpush]; rfl, by omega⟩

/-- More than 32 factors of a number are in the table. -/
def TableCrowded (table : List ℕ) (norm : ℕ) : Prop :=
  ∃ l : List ℕ, (∀ q ∈ l, q ∈ table) ∧ l.prod ∣ norm ∧ 32 < l.length

/-- The last stage, whatever the array has before; without assertions it may go on with a factor
that has not been written. -/
theorem divideByTable_spec (hw : w = 32 ∨ w = 64) {table : List ℕ}
    (hprimes : ∀ p ∈ table, p ≠ 1) {ds : List (TrialdivDivisor w)}
    (htable : IsTrialdivTable table ds) {s : Factored} (hs : 0 < s.norm) :
    (∃ s', (∀ mem, divideByTable build asserts mem s ds = pure s') ∧ TableStep table s s') ∨
    ((∀ mem, divideByTable build asserts mem s ds = .abort) ∨
      asserts = false ∧ TableCrowded table s.norm) ∧ TableFull w table s := by
  rcases le_or_gt (2 ^ (w * 6)) s.norm with hlong | hlong
  · refine .inr ⟨.inl fun mem => ?_, .inl hlong⟩
    rw [divideByTable, trialdiv_of_le build (by omega) hlong]
    rfl
  · obtain ⟨res, hres, hok⟩ := trialdiv_spec build hw hprimes htable hs hlong 32
    have hmem : ∀ q ∈ res.f.map BitVec.toNat, q ∈ table := by
      intro q hq
      obtain ⟨d, hd, rfl⟩ := List.mem_map.mp hq
      exact hok.mem d hd
    have hrun : ∀ mem, divideByTable build asserts mem s ds =
        Outcome.assert (asserts = true → res.n ≤ 32) >>= fun _ =>
          copyFactors mem res.f res.n 0 s.fl >>= fun fl => pure ⟨fl, res.N⟩ := fun mem => by
      rw [divideByTable, hres, pure_bind]
    simp only [hrun]
    rcases hok.count with ⟨hn, hleft⟩ | ⟨hn, hlength, p, hp, hdvd⟩
    · rw [Outcome.assert_of (fun _ => by rw [hn]; exact hok.length_le)]
      simp only [pure_bind]
      rcases copyFactors_spec (by omega) res.f (n := res.n) s.fl (i := 0) (by omega) with
        ⟨fl, hcopy, hvalues⟩ | ⟨hcopy, hfull⟩
      · exact .inl ⟨_, fun mem => by rw [hcopy]; rfl, _, ⟨hvalues, hok.prod⟩, hmem, hleft⟩
      · refine .inr ⟨.inl fun mem => by rw [hcopy]; rfl, .inr ⟨_, hmem, ⟨res.N, hok.prod.symm⟩,
          .inr ?_⟩⟩
        rw [List.length_map]
        omega
    · -- the array of 32 factors is full, and another one is announced
      have hcrowded : TableCrowded table s.norm := by
        refine ⟨res.f.map BitVec.toNat ++ [p], fun q hq => ?_, ?_, ?_⟩
        · rcases mem_append.mp hq with hq | hq
          · exact hmem q hq
          · rw [mem_singleton.mp hq]
            exact hp
        · rw [prod_append, List.prod_singleton, ← hok.prod]
          exact mul_dvd_mul_left _ hdvd
        · rw [List.length_append, List.length_map, hlength, List.length_singleton]
          decide
      refine .inr ⟨?_, .inr (hcrowded.imp fun l hl => ⟨hl.1, hl.2.1, .inl hl.2.2⟩)⟩
      cases asserts with
      | false => exact .inr ⟨rfl, hcrowded⟩
      | true => exact .inl fun mem => by rw [Outcome.assert, if_neg (by simp [hn])]; rfl

/-! ## All stages -/

/-- The places where the function can stop. -/
inductive TrialDivStuck (w : ℕ) (fb : List (BitVec 32)) (es : List BucketPrime)
    (table : List ℕ) (fbb norm : ℕ) : Prop where
  | twos : TwosFull fb (.start norm) → TrialDivStuck w fb es table fbb norm
  | entries {s : Factored} : TwosStep fb (.start norm) s → EntriesFull fbb es s →
      TrialDivStuck w fb es table fbb norm
  | table {s t : Factored} : TwosStep fb (.start norm) s → EntrySteps fbb es s t →
      TableFull w table t → TrialDivStuck w fb es table fbb norm

section Stages

variable {table : List ℕ} {ds : List (TrialdivDivisor w)} {fb : List (BitVec 32)} {norm : ℕ}
  {x : ℤ} {BP : BucketPrimes} {fbb : BitVec w}

/-- The three stages, whatever the array has before. -/
theorem trialDiv_stages (hw : w = 32 ∨ w = 64)
    (hprimes : ∀ p ∈ table, p ≠ 1) (htable : IsTrialdivTable table ds)
    (hfb : 2#32 ∈ fb → fb.head? = some 2#32) (hnorm : 0 < norm) (hBP : BP.Before x)
    (hfbb : fbb.toNat + bucketPWrap < 2 ^ w) :
    (∃ s t u BP', (∀ mem, trialDiv build asserts mem norm x fb BP ds fbb = pure (u, BP')) ∧
      TwosStep fb (.start norm) s ∧ EntrySteps fbb.toNat (BP.recorded x) s t ∧
      TableStep table t u ∧ BP'.entries = BP.entries ∧ ∀ y > x, BP'.Before y) ∨
    ((∀ mem, trialDiv build asserts mem norm x fb BP ds fbb = .abort) ∨
      asserts = false ∧ TableCrowded table norm) ∧
      TrialDivStuck w fb (BP.recorded x) table fbb.toNat norm := by
  unfold trialDiv
  rcases divideTwos_spec hfb hnorm with ⟨s, hs, htwos⟩ | ⟨hs, hfull⟩
  · obtain ⟨l, hl, -⟩ := id htwos
    have hspos : 0 < s.norm := hl.norm_pos hnorm
    rw [hs]
    simp only [pure_bind]
    rcases dividePrimesFromBucket_spec hw hfbb hspos hBP with
      ⟨t, BP', ht, hsteps, hentries, hcursor⟩ | ⟨ht, hfull⟩
    · obtain ⟨l', hl', -⟩ := hsteps.splits
      rw [ht]
      simp only [pure_bind]
      rcases divideByTable_spec build asserts hw hprimes htable (hl'.norm_pos hspos) with
        ⟨u, hu, hstep⟩ | ⟨hu, hfull⟩
      · simp only [hu, pure_bind]
        exact .inl ⟨s, t, u, BP', fun _ => rfl, htwos, hsteps, hstep, hentries, hcursor⟩
      · refine .inr ⟨hu.imp (fun habort mem => by rw [habort]; rfl) fun hcrowded => ?_,
          .table htwos hsteps hfull⟩
        exact ⟨hcrowded.1, hcrowded.2.imp fun l'' h =>
          ⟨h.1, h.2.1.trans (hl'.norm_dvd.trans hl.norm_dvd), h.2.2⟩⟩
    · rw [ht]
      exact .inr ⟨.inl fun _ => rfl, .entries htwos hfull⟩
  · rw [hs]
    exact .inr ⟨.inl fun _ => rfl, .twos hfull⟩

/-- What `trial_div` leaves. -/
structure TrialDivOk (table : List ℕ) (norm : ℕ) (x : ℤ) (fb : List (BitVec 32))
    (BP : BucketPrimes) (fbb : ℕ) (s : Factored) (BP' : BucketPrimes) : Prop where
  prod : s.fl.values.prod * s.norm = norm
  listed : ∀ q ∈ s.fl.values, (q = 2 ∧ 2#32 ∈ fb) ∨
    (∃ e ∈ BP.recorded x, Candidate fbb e q) ∨ q ∈ table
  two : 2#32 ∈ fb → ¬2 ∣ s.norm
  table : ∀ p ∈ table, ¬p ∣ s.norm
  recorded : ∀ e ∈ BP.recorded x,
    (∃ q ∈ s.fl.values, Candidate fbb e q ∧ ¬q ∣ s.norm) ∨ ∀ q, Candidate fbb e q → ¬q ∣ s.norm
  entries : BP'.entries = BP.entries
  cursor : ∀ y > x, BP'.Before y

theorem TrialDivOk.of_stages {s t u : Factored} {BP' : BucketPrimes}
    (htwos : TwosStep fb (.start norm) s)
    (hsteps : EntrySteps fbb.toNat (BP.recorded x) s t) (htable : TableStep table t u)
    (hentries : BP'.entries = BP.entries) (hcursor : ∀ y > x, BP'.Before y) :
    TrialDivOk table norm x fb BP fbb.toNat u BP' := by
  obtain ⟨l, hl, htwo, hodd⟩ := htwos
  obtain ⟨l', hl', hcand, hleft⟩ := hsteps.splits
  obtain ⟨l'', hl'', hmem, hnone⟩ := htable
  have hall := (hl.trans hl').trans hl''
  have hvalues : u.fl.values = l ++ l' ++ l'' := hall.values
  refine ⟨by rw [hvalues]; exact hall.prod, fun q hq => ?_,
    fun h2 hdvd => hodd h2 (hdvd.trans (hl'.trans hl'').norm_dvd), hnone, fun e he => ?_,
    hentries, hcursor⟩
  · rw [hvalues] at hq
    rcases mem_append.mp hq with hq | hq
    · rcases mem_append.mp hq with hq | hq
      · exact .inl (htwo q hq)
      · exact .inr (.inl (hcand q hq))
    · exact .inr (.inr (hmem q hq))
  · rcases hleft e he with ⟨q, hq, hcandq, hnot⟩ | hnot
    · refine .inl ⟨q, ?_, hcandq, fun hdvd => hnot (hdvd.trans hl''.norm_dvd)⟩
      rw [hvalues]
      exact mem_append_left _ (mem_append_right _ hq)
    · exact .inr fun q hq hdvd => hnot q hq (hdvd.trans hl''.norm_dvd)

/-- Whenever the function returns, the norm is split, unless the array of the table's factors is too
short and nothing is asserted. -/
theorem trialDiv_returns (hw : w = 32 ∨ w = 64)
    (hprimes : ∀ p ∈ table, p ≠ 1) (htable : IsTrialdivTable table ds)
    (hfb : 2#32 ∈ fb → fb.head? = some 2#32) (hnorm : 0 < norm) (hBP : BP.Before x)
    (hfbb : fbb.toNat + bucketPWrap < 2 ^ w)
    (hread : asserts = true ∨ ¬TableCrowded table norm) {mem : ℕ → BitVec w} {u : Factored}
    {BP' : BucketPrimes} (hrun : trialDiv build asserts mem norm x fb BP ds fbb = pure (u, BP')) :
    TrialDivOk table norm x fb BP fbb.toNat u BP' := by
  rcases trialDiv_stages build asserts hw hprimes htable hfb hnorm hBP hfbb with
    ⟨s, t, u', BP'', hrun', htwos, hsteps, hstep, hentries, hcursor⟩ | ⟨hstuck, -⟩
  · have heq := hrun.symm.trans (hrun' mem)
    obtain ⟨rfl, rfl⟩ : u = u' ∧ BP' = BP'' := by
      simpa using congrArg Outcome.toOption heq
    exact .of_stages htwos hsteps hstep hentries hcursor
  · rcases hstuck with habort | ⟨rfl, hcrowded⟩
    · cases hrun.symm.trans (habort mem)
    · exact absurd hcrowded (hread.resolve_left Bool.false_ne_true)

end Stages

/-! ## The recorded primes are found -/

/-- The prime `rec e` has been recorded in the entry `e`.  It is the first of the
numbers that are tried that divides the norm, and the only one if an entry before records it
as well. -/
structure RecordedPrimes (fbb norm : ℕ) (record : BucketPrime → ℕ) (es : List BucketPrime) :
    Prop where
  prime : ∀ e ∈ es, (record e).Prime
  candidate : ∀ e ∈ es, Candidate fbb e (record e)
  dvd : ∀ e ∈ es, record e ∣ norm
  first : ∀ e ∈ es, ∀ q, Candidate fbb e q → q ∣ norm → record e ≤ q
  again : es.Pairwise fun e e' => record e = record e' →
    ∀ q, Candidate fbb e' q → q ∣ norm → q = record e'

theorem RecordedPrimes.of_prefix {fbb norm : ℕ} {record : BucketPrime → ℕ}
    {es es' : List BucketPrime} (h : RecordedPrimes fbb norm record es) (hes : es' <+: es) :
    RecordedPrimes fbb norm record es' where
  prime e he := h.prime e (hes.subset he)
  candidate e he := h.candidate e (hes.subset he)
  dvd e he := h.dvd e (hes.subset he)
  first e he := h.first e (hes.subset he)
  again := h.again.sublist hes.sublist

/-- The invariant of the entries: the primes that `seen` records have been found, and
perhaps the powers of two before. -/
structure RecordedFound (two : Prop) (record : BucketPrime → ℕ) (norm : ℕ)
    (seen : List BucketPrime) (s : Factored) : Prop where
  prod : s.fl.values.prod * s.norm = norm
  listed : ∀ q ∈ s.fl.values, (q = 2 ∧ two) ∨ ∃ e ∈ seen, record e = q
  odd : two → ¬2 ∣ s.norm
  left : ∀ e ∈ seen, ¬record e ∣ s.norm

section Recorded

variable {two : Prop} {fbb norm : ℕ} {record : BucketPrime → ℕ} {seen es : List BucketPrime}
  {e : BucketPrime} {s s' : Factored}

section

variable (h : RecordedFound two record norm seen s)
include h

theorem RecordedFound.norm_dvd : s.norm ∣ norm :=
  ⟨s.fl.values.prod, by rw [← h.prod, mul_comm]⟩

theorem RecordedFound.eq_record
    (hrec : RecordedPrimes fbb norm record (seen ++ [e])) {q : ℕ} (hq : Candidate fbb e q)
    (hdvd : q ∣ s.norm) (hfirst : ∀ r, Candidate fbb e r → r ∣ s.norm → q ≤ r) :
    q = record e := by
  have he : e ∈ seen ++ [e] := mem_append_right _ mem_cons_self
  have hnorm : q ∣ norm := hdvd.trans h.norm_dvd
  by_cases hleft : record e ∣ s.norm
  · exact le_antisymm (hfirst _ (hrec.candidate e he) hleft) (hrec.first e he q hq hnorm)
  · -- the recorded prime has been divided out before
    have hprime := hrec.prime e he
    have hlisted : record e ∈ s.fl.values := by
      have hdvdprod : record e ∣ s.fl.values.prod := by
        have := hrec.dvd e he
        rw [← h.prod] at this
        exact (hprime.dvd_mul.mp this).resolve_right hleft
      obtain ⟨v, hv, hdvdv⟩ := (Prime.dvd_prod_iff hprime.prime).mp hdvdprod
      have hvprime : v.Prime := by
        rcases h.listed v hv with ⟨rfl, -⟩ | ⟨e', he', rfl⟩
        · exact Nat.prime_two
        · exact hrec.prime e' (mem_append_left _ he')
      rwa [(Nat.prime_dvd_prime_iff_eq hprime hvprime).mp hdvdv]
    rcases h.listed _ hlisted with ⟨h2, htwo⟩ | ⟨e', he', heq⟩
    · -- all numbers that are tried for 2 are even
      have hmod : q ≡ 2 [MOD bucketPWrap] := by
        rw [← h2]
        exact hq.modEq.trans (hrec.candidate e he).modEq.symm
      have heven : 2 ∣ q := (hmod.dvd_iff (by decide)).mpr dvd_rfl
      exact absurd (heven.trans hdvd) (h.odd htwo)
    · exact (List.pairwise_append.mp hrec.again).2.2 e' he' e mem_cons_self heq q hq hnorm

theorem RecordedFound.step
    (hrec : RecordedPrimes fbb norm record (seen ++ [e])) (hstep : EntryStep fbb e s s') :
    RecordedFound two record norm (seen ++ [e]) s' := by
  have he : e ∈ seen ++ [e] := mem_append_right _ mem_cons_self
  cases hstep with
  | none hnone =>
    refine ⟨h.prod, fun q hq => (h.listed q hq).imp_right fun ⟨e', he', heq⟩ =>
      ⟨e', mem_append_left _ he', heq⟩, h.odd, fun e' he' => ?_⟩
    rcases mem_append.mp he' with he' | he'
    · exact h.left e' he'
    · rw [mem_singleton.mp he']
      exact hnone _ (hrec.candidate e he)
  | @found q k _ hq hdvd hfirst hk hsplit hnot =>
    have heq : q = record e := h.eq_record hrec hq hdvd hfirst
    refine ⟨?_, fun r hr => ?_, fun htwo h2 => h.odd htwo (h2.trans hsplit.norm_dvd),
      fun e' he' => ?_⟩
    · rw [hsplit.values, prod_append, mul_assoc, hsplit.prod, h.prod]
    · rw [hsplit.values] at hr
      rcases mem_append.mp hr with hr | hr
      · exact (h.listed r hr).imp_right fun ⟨e', he', heq'⟩ =>
          ⟨e', mem_append_left _ he', heq'⟩
      · exact .inr ⟨e, he, by rw [(mem_replicate.mp hr).2, heq]⟩
    · rcases mem_append.mp he' with he' | he'
      · exact fun hdvd' => h.left e' he' (hdvd'.trans hsplit.norm_dvd)
      · rw [mem_singleton.mp he', ← heq]
        exact hnot

theorem RecordedFound.steps
    (hrec : RecordedPrimes fbb norm record (seen ++ es)) (hsteps : EntrySteps fbb es s s') :
    RecordedFound two record norm (seen ++ es) s' := by
  induction hsteps generalizing seen with
  | nil s => rwa [List.append_nil]
  | @cons e es s t s' hstep _ ih =>
    rw [List.append_cons] at hrec ⊢
    exact ih (h.step (hrec.of_prefix (List.prefix_append _ _)) hstep) hrec

end

/-- The factors of the norm that the function can find, `es` being the entries that it
uses. -/
def Findable (fb : List (BitVec 32)) (record : BucketPrime → ℕ) (es : List BucketPrime)
    (table : List ℕ) (q : ℕ) : Prop :=
  (q = 2 ∧ 2#32 ∈ fb) ∨ (∃ e ∈ es, record e = q) ∨ q ∈ table

/-- What is left for the table has at most six words, and the findable factors fit in the
arrays. -/
structure TrialDivRoom (w : ℕ) (table : List ℕ) (norm : ℕ) (fb : List (BitVec 32))
    (record : BucketPrime → ℕ) (es : List BucketPrime) : Prop where
  words : ∀ m, m ∣ norm → (2#32 ∈ fb → ¬2 ∣ m) → (∀ e ∈ es, ¬record e ∣ m) → m < 2 ^ (w * 6)
  list : ∀ l : List ℕ, (∀ q ∈ l, Findable fb record es table q) → l.prod ∣ norm →
    l.length ≤ flMaxSize
  table : ∀ l : List ℕ, (∀ q ∈ l, q ∈ table ∧ ∀ e ∈ es, record e ≠ q) → l.prod ∣ norm →
    l.length ≤ 32

theorem RecordedFound.start {fb : List (BitVec 32)} (hstep : TwosStep fb (.start norm) s) :
    RecordedFound (2#32 ∈ fb) record norm [] s := by
  obtain ⟨l, hl, hlisted, hodd⟩ := hstep
  refine ⟨?_, fun q hq => ?_, hodd, by simp⟩
  · rw [hl.values]
    exact hl.prod
  · rw [hl.values] at hq
    exact .inl (hlisted q hq)

variable {fb : List (BitVec 32)}

theorem RecordedFound.of_stages (htwos : TwosStep fb (.start norm) s)
    (hrec : RecordedPrimes fbb norm record es) (hsteps : EntrySteps fbb es s s') :
    RecordedFound (2#32 ∈ fb) record norm es s' :=
  (RecordedFound.start htwos).steps hrec hsteps

variable {table : List ℕ}

section

variable (h : RecordedFound (2#32 ∈ fb) record norm seen s) (hseen : ∀ e ∈ seen, e ∈ es)
include h hseen

theorem RecordedFound.findable : ∀ q ∈ s.fl.values, Findable fb record es table q := by
  intro q hq
  rcases h.listed q hq with h2 | ⟨e, he, heq⟩
  · exact .inl h2
  · exact .inr (.inl ⟨e, hseen e he, heq⟩)

theorem RecordedFound.length_le (hroom : TrialDivRoom w table norm fb record es) {l : List ℕ}
    (hl : ∀ q ∈ l, Findable fb record es table q) (hdvd : l.prod ∣ s.norm) :
    s.fl.fac.length + l.length ≤ flMaxSize := by
  have hall := hroom.list (s.fl.values ++ l) (fun q hq => ?_) ?_
  · rwa [List.length_append, FactorList.length_values] at hall
  · rcases mem_append.mp hq with hq | hq
    · exact h.findable hseen q hq
    · exact hl q hq
  · rw [prod_append, ← h.prod]
    exact mul_dvd_mul_left _ hdvd

end

/-- With recorded primes and room the division does not get stuck. -/
theorem not_trialDivStuck (hrec : RecordedPrimes fbb norm record es)
    (hroom : TrialDivRoom w table norm fb record es) :
    ¬TrialDivStuck w fb es table fbb norm := by
  intro hstuck
  cases hstuck with
  | twos hfull =>
    obtain ⟨l, ⟨hdvd, hlength⟩, hl⟩ := hfull
    have := hroom.list l (fun q hq => .inl (hl q hq)) hdvd
    have hempty : (Factored.start norm).fl.fac.length = 0 := rfl
    omega
  | entries htwos hfull =>
    obtain ⟨seen, e, t, hes, hsteps, q, k, hq, hdvd, hfirst, hprod, hlength⟩ := hfull
    have hrec' := hrec.of_prefix hes
    have hfound := (RecordedFound.start htwos).steps
      (hrec'.of_prefix (List.prefix_append _ _)) hsteps
    have heq : q = record e := hfound.eq_record hrec' hq hdvd hfirst
    have he : e ∈ es := hes.subset (mem_append_right _ mem_cons_self)
    have := hfound.length_le (fun e' he' => hes.subset (mem_append_left _ he')) hroom
      (fun r hr => .inr (.inl ⟨e, he, by rw [(mem_replicate.mp hr).2, heq]⟩)) hprod
    omega
  | table htwos hsteps hfull =>
    have hfound := RecordedFound.of_stages htwos hrec hsteps
    rcases hfull with hlong | ⟨l, hl, hdvd, hlength | hlength⟩
    · exact absurd (hroom.words _ hfound.norm_dvd hfound.odd hfound.left) (not_lt.mpr hlong)
    · -- a recorded prime is not left for the table
      have hleft : ∀ q ∈ l, q ∈ table ∧ ∀ e ∈ es, record e ≠ q := fun q hq =>
        ⟨hl q hq, fun e he heq => hfound.left e he
          (heq ▸ (List.dvd_prod hq).trans hdvd)⟩
      have := hroom.table l hleft (hdvd.trans hfound.norm_dvd)
      omega
    · have := hfound.length_le (fun _ he => he) hroom (fun q hq => .inr (.inr (hl q hq))) hdvd
      omega

end Recorded

/-- Trial division of a survivor.  Whatever the bucket entries are, the norm is split when the
function returns, if assertions are compiled or the table has no more than 32 of its factors; if the
recorded primes are the numbers that are found and there is room, it returns and reads no factor
that has not been written, all factors are prime, and no recorded prime is left. -/
theorem trialDiv_factors (hw : w = 32 ∨ w = 64) {table : List ℕ}
    (htable : ∀ p ∈ table, p.Prime ∧ p % 2 = 1 ∧ 5 * p ^ 2 < 2 ^ w - 1)
    {fb : List (BitVec 32)} (hfb : 2#32 ∈ fb → fb.head? = some 2#32) {norm : ℕ}
    (hnorm : 0 < norm) {x : ℤ} {BP : BucketPrimes} (hBP : BP.Before x) {fbb : BitVec w}
    (hfbb : fbb.toNat + bucketPWrap < 2 ^ w) :
    ∃ ds : List (TrialdivDivisor w), trialdivInit table = pure ds ∧
      (asserts = true ∨ ¬TableCrowded table norm → ∀ mem s BP',
        trialDiv build asserts mem norm x fb BP ds fbb = pure (s, BP') →
        TrialDivOk table norm x fb BP fbb.toNat s BP') ∧
      ∀ record, RecordedPrimes fbb.toNat norm record (BP.recorded x) →
        TrialDivRoom w table norm fb record (BP.recorded x) →
        ∃ s BP', (∀ mem, trialDiv build asserts mem norm x fb BP ds fbb = pure (s, BP')) ∧
          TrialDivOk table norm x fb BP fbb.toNat s BP' ∧ (∀ q ∈ s.fl.values, q.Prime) ∧
          ∀ e ∈ BP.recorded x, ¬record e ∣ s.norm := by
  obtain ⟨ds, hinit, hds⟩ := trialdivInit_spec hw fun p hp => (htable p hp).2
  have hone : ∀ p ∈ table, p ≠ 1 := fun p hp => (htable p hp).1.ne_one
  refine ⟨ds, hinit, fun hread mem s BP' hrun => trialDiv_returns build asserts hw hone hds hfb
    hnorm hBP hfbb hread hrun, fun record hrec hroom => ?_⟩
  rcases trialDiv_stages build asserts hw hone hds hfb hnorm hBP hfbb with
    ⟨s, t, u, BP', hrun, htwos, hsteps, hstep, hentries, hcursor⟩ | ⟨-, hstuck⟩
  · have hfound := RecordedFound.of_stages htwos hrec hsteps
    refine ⟨u, BP', hrun, .of_stages htwos hsteps hstep hentries hcursor, fun q hq => ?_,
      fun e he hdvd => ?_⟩
    · obtain ⟨l, hl, hmem, -⟩ := hstep
      rw [hl.values] at hq
      rcases mem_append.mp hq with hq | hq
      · rcases hfound.listed q hq with ⟨rfl, -⟩ | ⟨e, he, rfl⟩
        · exact Nat.prime_two
        · exact hrec.prime e he
      · exact (htable q (hmem q hq)).1
    · obtain ⟨l, hl, -⟩ := hstep
      exact hfound.left e he (hdvd.trans hl.norm_dvd)
  · exact absurd hstuck (not_trialDivStuck hrec hroom)

theorem trialDiv_factors_lostBit :
    ∃ (ds : List (TrialdivDivisor 64)) (s : Factored) (BP' : BucketPrimes),
      trialdivInit [3] = pure ds ∧
      (∀ mem, trialDiv .noAsm false mem (2 * 3 * 131101) 5 [2#32, 3#32]
        ⟨65536, [⟨7#32, 1#16⟩], [⟨29#32, 5#16⟩, ⟨11#32, 9#16⟩]⟩ ds 140000#64 = pure (s, BP')) ∧
      s.fl.values.prod * s.norm = 2 * 3 * 131101 ∧ (∀ q ∈ s.fl.values, q.Prime) ∧
      ¬131101 ∣ s.norm := by
  have hsorted :
      (⟨65536, [⟨7#32, 1#16⟩], [⟨29#32, 5#16⟩, ⟨11#32, 9#16⟩]⟩ : BucketPrimes).Before 5 :=
    ⟨by decide, by decide⟩
  have htable : ∀ p ∈ [3], p.Prime ∧ p % 2 = 1 ∧ 5 * p ^ 2 < 2 ^ 64 - 1 := by
    simp [Nat.prime_three]
  have hfb : 2#32 ∈ [2#32, 3#32] → [2#32, 3#32].head? = some 2#32 := by decide
  have hnorm : 0 < 2 * 3 * 131101 := by decide
  have hfbb : (140000#64).toNat + bucketPWrap < 2 ^ 64 := by decide
  obtain ⟨ds, hds, -, h⟩ :=
    trialDiv_factors .noAsm false (.inr rfl) htable hfb hnorm hsorted hfbb
  have hrecorded : BucketPrimes.recorded
      ⟨65536, [⟨7#32, 1#16⟩], [⟨29#32, 5#16⟩, ⟨11#32, 9#16⟩]⟩ 5 = [⟨29#32, 5#16⟩] := by decide
  rw [hrecorded] at h
  have hsmall : ∀ l : List ℕ, (∀ q ∈ l, 2 ≤ q) → l.prod ∣ 2 * 3 * 131101 → l.length < 20 := by
    intro l hl hdvd
    refine (Nat.pow_lt_pow_iff_right (by decide : 1 < 2)).mp ?_
    exact ((List.pow_card_le_prod l 2 hl).trans (Nat.le_of_dvd (by decide) hdvd)).trans_lt
      (by decide)
  obtain ⟨s, BP', hrun, hok, hprime, hleft⟩ := h (fun _ => 131101)
    { prime := fun _ _ => by norm_num
      candidate := fun e he => by
        rw [mem_singleton.mp he]
        exact ⟨by decide, by decide, by decide⟩
      dvd := fun _ _ => by decide
      first := fun e he q hq hdvd => by
        rw [mem_singleton.mp he] at hq
        by_contra hlt
        have hge : 29 ≤ q := hq.ge
        have hmod : q % 131072 = 29 := hq.modEq
        have h29 : q = 29 := by omega
        rw [h29] at hdvd
        exact absurd hdvd (by decide)
      again := List.pairwise_singleton _ _ }
    { words := fun m hm _ _ => by
        have hle : m < 2 ^ 20 := (Nat.le_of_dvd (by decide) hm).trans_lt (by decide)
        have hwords : 20 ≤ 64 * 6 := by decide
        generalize 64 * 6 = bits at hwords ⊢
        exact hle.trans_le (Nat.pow_le_pow_right Nat.two_pos hwords)
      list := fun l hl hdvd => by
        refine (hsmall l (fun q hq => ?_) hdvd).le.trans (by decide)
        rcases hl q hq with ⟨rfl, -⟩ | ⟨e, -, hq⟩ | hq
        · decide
        · change 131101 = q at hq
          omega
        · rw [mem_singleton.mp hq]
          decide
      table := fun l hl hdvd => by
        refine (hsmall l (fun q hq => ?_) hdvd).le.trans (by decide)
        rw [mem_singleton.mp (hl q hq).1]
        decide }
  exact ⟨ds, s, BP', hds, hrun, hok.prod, hprime, hleft _ mem_cons_self⟩

/-- The prime 262153 is recorded with two bits lost, and 9 is found in its place; a norm of
seven words is refused. -/
theorem not_trialDiv_recorded :
    (Nat.Prime 262153 ∧ Candidate 262153 ⟨9#32, 0#16⟩ 262153 ∧ 262153 ∣ 9 * 262153) ∧
    ∃ (ds : List (TrialdivDivisor 64)) (s : Factored) (BP' : BucketPrimes),
      trialdivInit [3] = pure ds ∧
      trialDiv .noAsm true 0 (9 * 262153) 0 [3#32] ⟨65536, [], [⟨9#32, 0#16⟩]⟩ ds 262153#64
        = pure (s, BP') ∧
      9 ∈ s.fl.values ∧ ¬Nat.Prime 9 ∧ 262153 ∣ s.norm ∧
      trialDiv .noAsm true 0 (2 ^ 384) 0 [3#32] ⟨65536, [], []⟩ ds 262153#64 = .abort := by
  refine ⟨⟨by norm_num, ⟨by decide, le_rfl, by decide⟩, by decide⟩, ?_⟩
  obtain ⟨ds, hds, -⟩ := trialdivInit_spec (w := 64) (.inr rfl) (f := [3]) (by simp)
  have hrun : (trialdivInit [3] >>= fun ds => trialDiv (w := 64) .noAsm true 0 (9 * 262153) 0 [3#32]
      ⟨65536, [], [⟨9#32, 0#16⟩]⟩ ds 262153#64)
      = pure (⟨⟨[9#64], by decide⟩, 262153⟩, ⟨65536, [⟨9#32, 0#16⟩], []⟩) := by decide +kernel
  have hlong : (trialdivInit [3] >>= fun ds => trialDiv (w := 64) .noAsm true 0 (2 ^ 384) 0 [3#32]
      ⟨65536, [], []⟩ ds 262153#64) = .abort := by decide +kernel
  rw [hds, pure_bind] at hrun hlong
  exact ⟨ds, _, _, hds, hrun, by decide, by decide, dvd_rfl, hlong⟩

end CadoNfs
