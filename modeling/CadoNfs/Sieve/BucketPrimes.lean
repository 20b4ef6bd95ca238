import CadoNfs.Lib.Word
import Mathlib.Algebra.BigOperators.Group.List.Basic

/-!
# The bucket primes of a survivor

When the buckets of a region have been purged, the primes that they have recorded for the
survivors are in one array, sorted by location.  A cursor goes through the array with the
survivors; `divide_primes_from_bucket` of `las.c` divides the norm of a survivor by
the primes of its location.  The bits of a prime above the seventeenth may be lost, and the
first number that divides is taken for it.

Main results:

- Theorem `divideEntry_spec`: one entry of the bucket.
- Theorem `EntrySteps.splits`: what any entries leave of a norm.
- Theorem `dividePrimesFromBucket_spec`: the entries that are used, and the cursor after
  them.
-/

namespace CadoNfs

open WordArith

variable {w : ℕ}

/-! ## Code -/

/-- `BUCKET_P_WRAP`. -/
def bucketPWrap : ℕ := 2 ^ 17

/-- `FL_MAX_SIZE`. -/
def flMaxSize : ℕ := 200

/-- `bucket_prime_t`. -/
structure BucketPrime where
  p : BitVec 32
  x : BitVec 16
deriving DecidableEq, Repr

/-- `bucket_primes_t`: how many entries there is room for, the entries before `read`, and those from
there to `write`. -/
structure BucketPrimes where
  size : ℕ
  seen : List BucketPrime
  unread : List BucketPrime
deriving DecidableEq, Repr

variable (BP : BucketPrimes)

/-- `rewind_primes_by_1`. -/
def rewindPrimesBy1 : BucketPrimes :=
  match BP.seen.getLast? with
  | none => BP
  | some e => { BP with seen := BP.seen.dropLast, unread := e :: BP.unread }

/-- `factor_list_t`, with the entries that are written. -/
structure FactorList where
  fac : List (BitVec 64)
  room : fac.length ≤ flMaxSize
deriving DecidableEq, Repr

/-- The empty list. -/
def FactorList.empty : FactorList := ⟨[], Nat.zero_le _⟩

variable (fl : FactorList)

/-- One more factor; a factor beyond the end of the array is not written. -/
def FactorList.push (p : BitVec 64) : Outcome FactorList :=
  if h : fl.fac.length < flMaxSize then
    pure ⟨fl.fac ++ [p], by rw [List.length_append, List.length_singleton]; omega⟩
  else .abort

/-- The factors that are found, and what is left of the norm. -/
structure Factored where
  fl : FactorList
  norm : ℕ
deriving DecidableEq, Repr

/-- Bigger numbers are tried for `p` as long as none divides. -/
def tryBiggerPrimes (norm : ℕ) (fbb : BitVec w) : ℕ → BitVec w → Outcome (BitVec w)
  | 0, _ => .abort
  | fuel + 1, p =>
    if p ≤ fbb ∧ ¬p.toNat ∣ norm then
      tryBiggerPrimes norm fbb fuel (p + BitVec.ofNat w bucketPWrap)
    else pure p

/-- The loop that divides by `p` and looks only then whether it divides again. -/
def divideOutPrime (p : BitVec w) : ℕ → Factored → Outcome Factored
  | 0, _ => .abort
  | fuel + 1, s => do
    let fl ← s.fl.push (p.setWidth 64)
    Outcome.assert (fl.fac.length ≤ flMaxSize)
    let norm := s.norm / p.toNat
    if p.toNat ∣ norm then divideOutPrime p fuel ⟨fl, norm⟩ else pure ⟨fl, norm⟩

/-- The body of `divide_primes_from_bucket` for an entry at the location.  The numbers
that are tried repeat after `2 ^ w` steps, and every division needs room in the list. -/
def divideEntry (fbb : BitVec w) (s : Factored) (e : BucketPrime) : Outcome Factored := do
  let p ← tryBiggerPrimes s.norm fbb (2 ^ w + 1) (e.p.setWidth w)
  if p > fbb then pure s else divideOutPrime p (flMaxSize + 1) s

/-- The loop of `divide_primes_from_bucket`. -/
def dividePrimesLoop (size : ℕ) (x : ℤ) (fbb : BitVec w) (s : Factored) (seen : List BucketPrime) :
    List BucketPrime → Outcome (Factored × BucketPrimes)
  | [] => pure (s, ⟨size, seen, []⟩)
  | e :: unread =>
    if (e.x.toNat : ℤ) > x then pure (s, rewindPrimesBy1 ⟨size, seen ++ [e], unread⟩)
    else if (e.x.toNat : ℤ) = x then do
      let s ← divideEntry fbb s e
      dividePrimesLoop size x fbb s (seen ++ [e]) unread
    else dividePrimesLoop size x fbb s (seen ++ [e]) unread

/-- `divide_primes_from_bucket`. -/
def dividePrimesFromBucket (s : Factored) (x : ℤ) (BP : BucketPrimes) (fbb : BitVec w) :
    Outcome (Factored × BucketPrimes) :=
  dividePrimesLoop BP.size x fbb s BP.seen BP.unread

/-! ## Values -/

/-- The factors as numbers. -/
def FactorList.values : List ℕ := fl.fac.map BitVec.toNat

theorem FactorList.length_values : fl.values.length = fl.fac.length :=
  List.length_map _

theorem FactorList.push_spec (hw : w ≤ 64) (p : BitVec w) :
    (∃ fl', fl.push (p.setWidth 64) = pure fl' ∧ fl'.values = fl.values ++ [p.toNat] ∧
      fl'.fac.length = fl.fac.length + 1) ∨
    (fl.push (p.setWidth 64) = .abort ∧ flMaxSize ≤ fl.fac.length) := by
  unfold FactorList.push
  split_ifs with h
  · refine .inl ⟨_, rfl, ?_, by simp⟩
    rw [FactorList.values, List.map_append, List.map_singleton, BitVec.toNat_setWidth_of_le hw]
    rfl
  · exact .inr ⟨rfl, not_lt.mp h⟩

/-- The factors `l` have been divided out of what was left in `s`. -/
structure Factored.Splits (s : Factored) (l : List ℕ) (s' : Factored) : Prop where
  values : s'.fl.values = s.fl.values ++ l
  prod : l.prod * s'.norm = s.norm

theorem Factored.Splits.refl (s : Factored) : s.Splits [] s :=
  ⟨(List.append_nil _).symm, one_mul _⟩

theorem Factored.Splits.trans {s s' s'' : Factored} {l l' : List ℕ} (h : s.Splits l s')
    (h' : s'.Splits l' s'') : s.Splits (l ++ l') s'' where
  values := by rw [h'.values, h.values, List.append_assoc]
  prod := by rw [List.prod_append, mul_assoc, h'.prod, h.prod]

variable {s s' : Factored}

theorem Factored.Splits.norm_pos {l : List ℕ} (h : s.Splits l s') (hs : 0 < s.norm) : 0 < s'.norm :=
  Nat.pos_of_ne_zero fun h0 => by
    have := h.prod
    rw [h0, mul_zero] at this
    omega

theorem Factored.Splits.norm_dvd {l : List ℕ} (h : s.Splits l s') : s'.norm ∣ s.norm :=
  ⟨l.prod, by rw [← h.prod, mul_comm]⟩

/-- The factors `l` of what is left in `s` do not fit in the list. -/
def Factored.Overfull (s : Factored) (l : List ℕ) : Prop :=
  l.prod ∣ s.norm ∧ flMaxSize < s.fl.fac.length + l.length

theorem Factored.Splits.overfull {l l' : List ℕ} (h : s.Splits l s')
    (h' : s'.Overfull l') : s.Overfull (l ++ l') := by
  refine ⟨?_, ?_⟩
  · rw [List.prod_append, ← h.prod]
    exact mul_dvd_mul_left _ h'.1
  · have hlength := congrArg List.length h.values
    rw [List.length_append, FactorList.length_values, FactorList.length_values] at hlength
    rw [List.length_append]
    have := h'.2
    omega

/-! ## One entry of the bucket -/

/-- The numbers that `divide_primes_from_bucket` tries for an entry. -/
structure Candidate (fbb : ℕ) (e : BucketPrime) (q : ℕ) : Prop where
  ge : e.p.toNat ≤ q
  le_fbb : q ≤ fbb
  modEq : q ≡ e.p.toNat [MOD bucketPWrap]

/-- The number that is tried last is the first with its residue that divides, or above `fbb`. -/
theorem tryBiggerPrimes_spec (norm : ℕ) {fbb : BitVec w}
    (hfbb : fbb.toNat + bucketPWrap < 2 ^ w) {fuel : ℕ} {p : BitVec w}
    (hfuel : fbb.toNat < p.toNat + bucketPWrap * fuel) :
    ∃ r, tryBiggerPrimes norm fbb (fuel + 1) p = pure r ∧ p.toNat ≤ r.toNat ∧
      r.toNat ≡ p.toNat [MOD bucketPWrap] ∧ (r.toNat ≤ fbb.toNat → r.toNat ∣ norm) ∧
      ∀ q, p.toNat ≤ q → q < r.toNat → q ≡ p.toNat [MOD bucketPWrap] → ¬q ∣ norm := by
  induction fuel generalizing p with
  | zero =>
    rw [tryBiggerPrimes, if_neg (by rw [BitVec.le_def]; omega)]
    exact ⟨p, rfl, le_rfl, .refl _, fun h => by omega, fun q hq hlt => by omega⟩
  | succ fuel ih =>
    rw [tryBiggerPrimes]
    split_ifs with h
    · have hle : p.toNat ≤ fbb.toNat := h.1
      have hnext : (p + BitVec.ofNat w bucketPWrap).toNat = p.toNat + bucketPWrap := by
        rw [BitVec.toNat_add, toNat_const (by omega), Nat.mod_eq_of_lt (by omega)]
      obtain ⟨r, hr, hge, hmod, hdvd, hleast⟩ := ih (p := p + BitVec.ofNat w bucketPWrap)
        (by rw [hnext]; rw [Nat.mul_succ] at hfuel; omega)
      rw [hnext] at hge hmod hleast
      have hwrap : p.toNat + bucketPWrap ≡ p.toNat [MOD bucketPWrap] := Nat.add_mod_right _ _
      refine ⟨r, hr, by omega, hmod.trans hwrap, hdvd, fun q hq hlt hqmod => ?_⟩
      rcases Nat.eq_or_lt_of_le hq with rfl | hq
      · exact h.2
      · refine hleast q ?_ hlt (hqmod.trans hwrap.symm)
        -- the next number with this residue is a whole step away
        have hstep := (Nat.modEq_iff_dvd' hq.le).mp hqmod.symm
        have := Nat.le_of_dvd (by omega) hstep
        omega
    · refine ⟨p, rfl, le_rfl, .refl _, fun hle => ?_, fun q hq hlt => by omega⟩
      by_contra hnot
      exact h ⟨hle, hnot⟩

/-- A prime is divided out as often as it divides, if the list has room. -/
theorem divideOutPrime_spec (hw : w ≤ 64) {p : BitVec w} {fuel : ℕ} {s : Factored}
    (hs : 0 < s.norm) (hp : p.toNat ∣ s.norm) (hfuel : flMaxSize < s.fl.fac.length + fuel) :
    (∃ k s', divideOutPrime p fuel s = pure s' ∧ 0 < k ∧
      s.Splits (List.replicate k p.toNat) s' ∧ ¬p.toNat ∣ s'.norm) ∨
    (divideOutPrime p fuel s = .abort ∧ ∃ k, s.Overfull (List.replicate k p.toNat)) := by
  induction fuel generalizing s with
  | zero =>
    have := s.fl.room
    omega
  | succ fuel ih =>
    rw [divideOutPrime]
    rcases s.fl.push_spec hw p with ⟨fl, hpush, hvalues, hlength⟩ | ⟨hpush, hfull⟩
    · have hsplit : s.Splits (List.replicate 1 p.toNat) ⟨fl, s.norm / p.toNat⟩ :=
        ⟨hvalues, by rw [List.prod_replicate, pow_one]; exact Nat.mul_div_cancel' hp⟩
      rw [hpush, pure_bind, Outcome.assert_of fl.room, pure_bind]
      by_cases hagain : p.toNat ∣ s.norm / p.toNat
      · rw [if_pos hagain]
        rcases ih (s := ⟨fl, s.norm / p.toNat⟩) (hsplit.norm_pos hs) hagain
          (by rw [hlength]; omega) with ⟨k, s', hrun, hk, hsplit', hnot⟩ | ⟨hrun, k, hfull⟩
        · refine .inl ⟨1 + k, s', hrun, by omega, ?_, hnot⟩
          rw [List.replicate_add]
          exact hsplit.trans hsplit'
        · refine .inr ⟨hrun, 1 + k, ?_⟩
          rw [List.replicate_add]
          exact hsplit.overfull hfull
      · rw [if_neg hagain]
        exact .inl ⟨1, _, rfl, Nat.one_pos, hsplit, hagain⟩
    · rw [hpush]
      exact .inr ⟨rfl, 1, by simpa using hp, by simp; omega⟩

/-- What an entry does to the state: nothing divides, or the first number that divides is
divided out. -/
inductive EntryStep (fbb : ℕ) (e : BucketPrime) (s : Factored) : Factored → Prop where
  | none : (∀ q, Candidate fbb e q → ¬q ∣ s.norm) → EntryStep fbb e s s
  | found {q k : ℕ} {s' : Factored} : Candidate fbb e q → q ∣ s.norm →
      (∀ r, Candidate fbb e r → r ∣ s.norm → q ≤ r) → 0 < k →
      s.Splits (List.replicate k q) s' → ¬q ∣ s'.norm → EntryStep fbb e s s'

/-- An entry for which the list is too short. -/
def EntryFull (fbb : ℕ) (e : BucketPrime) (s : Factored) : Prop :=
  ∃ q k, Candidate fbb e q ∧ q ∣ s.norm ∧ (∀ r, Candidate fbb e r → r ∣ s.norm → q ≤ r) ∧
    s.Overfull (List.replicate k q)

/-- One entry: the state takes a step, or the list is too short for what is divided out. -/
theorem divideEntry_spec (hw : w = 32 ∨ w = 64) {fbb : BitVec w}
    (hfbb : fbb.toNat + bucketPWrap < 2 ^ w) {s : Factored} (hs : 0 < s.norm)
    (e : BucketPrime) :
    (∃ s', divideEntry fbb s e = pure s' ∧ EntryStep fbb.toNat e s s') ∨
    (divideEntry fbb s e = .abort ∧ EntryFull fbb.toNat e s) := by
  have hep : (e.p.setWidth w).toNat = e.p.toNat := BitVec.toNat_setWidth_of_le (by omega)
  have hfuel : fbb.toNat < (e.p.setWidth w).toNat + bucketPWrap * 2 ^ w := by
    rw [bucketPWrap] at hfbb ⊢
    omega
  obtain ⟨r, hr, hge, hmod, hdvd, hleast⟩ := tryBiggerPrimes_spec s.norm hfbb hfuel
  rw [hep] at hge hmod hleast
  have hmin : ∀ q, Candidate fbb.toNat e q → q ∣ s.norm → r.toNat ≤ q := fun q hq hqdvd => by
    by_contra hlt
    exact hleast q hq.ge (not_le.mp hlt) hq.modEq hqdvd
  rw [divideEntry, hr, pure_bind]
  by_cases hle : r.toNat ≤ fbb.toNat
  · have hcand : Candidate fbb.toNat e r.toNat := ⟨hge, hle, hmod⟩
    rw [if_neg (by simpa [BitVec.lt_def] using hle)]
    have hroom : flMaxSize < s.fl.fac.length + (flMaxSize + 1) := by omega
    rcases divideOutPrime_spec (by omega) hs (hdvd hle) hroom with
      ⟨k, s', hrun, hk, hsplit, hnot⟩ | ⟨hrun, k, hfull⟩
    · exact .inl ⟨s', hrun, .found hcand (hdvd hle) hmin hk hsplit hnot⟩
    · exact .inr ⟨hrun, r.toNat, k, hcand, hdvd hle, hmin, hfull⟩
  · rw [if_pos (by simpa [BitVec.lt_def] using hle)]
    refine .inl ⟨s, rfl, .none fun q hq hqdvd => hle ((hmin q hq hqdvd).trans hq.le_fbb)⟩

/-! ## All entries for a location -/

/-- All entries, before and after the cursor. -/
def BucketPrimes.entries : List BucketPrime := BP.seen ++ BP.unread

/-- The entries for the location `x`. -/
def BucketPrimes.recorded (x : ℤ) : List BucketPrime :=
  BP.entries.filter fun e => (e.x.toNat : ℤ) = x

/-- The entries are sorted, and none of those that have been read is for `x` or a later
location. -/
structure BucketPrimes.Before (BP : BucketPrimes) (x : ℤ) : Prop where
  sorted : BP.entries.Pairwise fun e e' => e.x.toNat ≤ e'.x.toNat
  seen_lt : ∀ e ∈ BP.seen, (e.x.toNat : ℤ) < x

@[simp] theorem rewindPrimesBy1_append (size : ℕ) (seen : List BucketPrime) (e : BucketPrime)
    (unread : List BucketPrime) :
    rewindPrimesBy1 ⟨size, seen ++ [e], unread⟩ = ⟨size, seen, e :: unread⟩ := by
  simp [rewindPrimesBy1]

/-- The entries `es` one after the other. -/
inductive EntrySteps (fbb : ℕ) : List BucketPrime → Factored → Factored → Prop where
  | nil (s : Factored) : EntrySteps fbb [] s s
  | cons {e : BucketPrime} {es : List BucketPrime} {s s' s'' : Factored} :
      EntryStep fbb e s s' → EntrySteps fbb es s' s'' → EntrySteps fbb (e :: es) s s''

theorem EntryStep.splits {fbb : ℕ} {e : BucketPrime} {s s' : Factored}
    (h : EntryStep fbb e s s') : ∃ l, s.Splits l s' ∧ ∀ q ∈ l, Candidate fbb e q := by
  cases h with
  | none _ => exact ⟨[], .refl s, by simp⟩
  | found hq _ _ _ hsplit _ =>
    exact ⟨_, hsplit, fun r hr => by rw [(List.mem_replicate.mp hr).2]; exact hq⟩

/-- What the entries have in common with any state they lead to: every factor is a candidate of
an entry, and of the candidates of an entry one has been divided out or none divides. -/
theorem EntrySteps.splits {fbb : ℕ} {es : List BucketPrime} {s s' : Factored}
    (h : EntrySteps fbb es s s') :
    ∃ l, s.Splits l s' ∧ (∀ q ∈ l, ∃ e ∈ es, Candidate fbb e q) ∧
      ∀ e ∈ es, (∃ q ∈ l, Candidate fbb e q ∧ ¬q ∣ s'.norm) ∨
        ∀ q, Candidate fbb e q → ¬q ∣ s'.norm := by
  induction h with
  | nil s => exact ⟨[], .refl s, by simp, by simp⟩
  | @cons e es s s' s'' hstep _ ih =>
    obtain ⟨l, hl, hcand⟩ := hstep.splits
    obtain ⟨l', hl', hcand', hleft⟩ := ih
    refine ⟨l ++ l', hl.trans hl', fun q hq => ?_, fun e' he' => ?_⟩
    · rcases List.mem_append.mp hq with hq | hq
      · exact ⟨e, List.mem_cons_self, hcand q hq⟩
      · obtain ⟨e', he', hq'⟩ := hcand' q hq
        exact ⟨e', List.mem_cons_of_mem e he', hq'⟩
    · rcases List.mem_cons.mp he' with rfl | he'
      · -- what has been divided out, or does not divide, stays so
        cases hstep with
        | none hnone => exact .inr fun q hq hdvd => hnone q hq (hdvd.trans hl'.norm_dvd)
        | @found q k _ hq _ _ hk hsplit hnot =>
          refine .inl ⟨q, List.mem_append_left _ ?_, hq, fun hdvd =>
            hnot (hdvd.trans hl'.norm_dvd)⟩
          rw [List.append_cancel_left (hl.values.symm.trans hsplit.values)]
          exact List.mem_replicate.mpr ⟨hk.ne', rfl⟩
      · refine (hleft e' he').imp_left fun hfound => ?_
        obtain ⟨q, hq, hrest⟩ := hfound
        exact ⟨q, List.mem_append_right l hq, hrest⟩

/-- The entries of an incomplete run: `e` does not fit any more. -/
def EntriesFull (fbb : ℕ) (es : List BucketPrime) (s : Factored) : Prop :=
  ∃ es' e s', es' ++ [e] <+: es ∧ EntrySteps fbb es' s s' ∧ EntryFull fbb e s'

theorem EntriesFull.cons {fbb : ℕ} {e : BucketPrime} {es : List BucketPrime} {s s' : Factored}
    (hstep : EntryStep fbb e s s') (h : EntriesFull fbb es s') :
    EntriesFull fbb (e :: es) s := by
  obtain ⟨es', e', t, hes, hsteps, hfull⟩ := h
  exact ⟨e :: es', e', t, List.cons_prefix_cons.mpr ⟨rfl, hes⟩, .cons hstep hsteps, hfull⟩

section

variable (hw : w = 32 ∨ w = 64) {fbb : BitVec w} (hfbb : fbb.toNat + bucketPWrap < 2 ^ w)
include hw hfbb

/-- The loop takes the steps of the entries for `x` and stops before the first entry for a
later location. -/
theorem dividePrimesLoop_spec (size : ℕ) (x : ℤ) {s : Factored} (hs : 0 < s.norm)
    (seen : List BucketPrime) {unread : List BucketPrime}
    (hsorted : unread.Pairwise fun e e' => e.x.toNat ≤ e'.x.toNat) :
    (∃ s' BP, dividePrimesLoop size x fbb s seen unread = pure (s', BP) ∧
      EntrySteps fbb.toNat (unread.filter fun e => (e.x.toNat : ℤ) = x) s s' ∧
      ∃ read, BP.seen = seen ++ read ∧ read ++ BP.unread = unread ∧
        ∀ e ∈ read, (e.x.toNat : ℤ) ≤ x) ∨
    (dividePrimesLoop size x fbb s seen unread = .abort ∧
      EntriesFull fbb.toNat (unread.filter fun e => (e.x.toNat : ℤ) = x) s) := by
  induction unread generalizing s seen with
  | nil => exact .inl ⟨s, _, rfl, .nil s, [], by simp, rfl, by simp⟩
  | cons e unread ih =>
    obtain ⟨hle, hsorted'⟩ := List.pairwise_cons.mp hsorted
    -- an entry that is read stays before the cursor
    have hread : ∀ {BP : BucketPrimes}, (e.x.toNat : ℤ) ≤ x →
        (∃ read, BP.seen = (seen ++ [e]) ++ read ∧ read ++ BP.unread = unread ∧
          ∀ e' ∈ read, (e'.x.toNat : ℤ) ≤ x) →
        ∃ read, BP.seen = seen ++ read ∧ read ++ BP.unread = e :: unread ∧
          ∀ e' ∈ read, (e'.x.toNat : ℤ) ≤ x := by
      rintro BP hex ⟨read, hseen, hunread, hreadle⟩
      refine ⟨e :: read, by rw [hseen, List.append_assoc]; rfl, by rw [← hunread]; rfl, ?_⟩
      intro e' he'
      rcases List.mem_cons.mp he' with rfl | he'
      · exact hex
      · exact hreadle e' he'
    rw [dividePrimesLoop]
    by_cases hgt : (e.x.toNat : ℤ) > x
    · have hnone : (e :: unread).filter (fun e => decide ((e.x.toNat : ℤ) = x)) = [] := by
        rw [List.filter_eq_nil_iff]
        intro e' he'
        have : e.x.toNat ≤ e'.x.toNat := by
          rcases List.mem_cons.mp he' with rfl | he'
          · exact le_rfl
          · exact hle e' he'
        simp
        omega
      rw [if_pos hgt, rewindPrimesBy1_append, hnone]
      exact .inl ⟨s, _, rfl, .nil s, [], by simp, rfl, by simp⟩
    · rw [if_neg hgt]
      by_cases heq : (e.x.toNat : ℤ) = x
      · rw [if_pos heq, List.filter_cons_of_pos (by simpa using heq)]
        rcases divideEntry_spec hw hfbb hs e with ⟨t, hrun, hstep⟩ | ⟨hrun, hfull⟩
        · obtain ⟨l, hl, -⟩ := hstep.splits
          rw [hrun, pure_bind]
          rcases ih (hl.norm_pos hs) (seen ++ [e]) hsorted' with
            ⟨s', BP, hloop, hsteps, hcursor⟩ | ⟨hloop, hfull⟩
          · exact .inl ⟨s', BP, hloop, .cons hstep hsteps, hread heq.le hcursor⟩
          · exact .inr ⟨hloop, hfull.cons hstep⟩
        · rw [hrun]
          exact .inr ⟨rfl, [], e, s, by simp, .nil s, hfull⟩
      · rw [if_neg heq, List.filter_cons_of_neg (by simpa using heq)]
        rcases ih hs (seen ++ [e]) hsorted' with
          ⟨s', BP, hloop, hsteps, hcursor⟩ | hfull
        · exact .inl ⟨s', BP, hloop, hsteps, hread (not_lt.mp hgt) hcursor⟩
        · exact .inr hfull

theorem dividePrimesFromBucket_spec {x : ℤ} {s : Factored} (hs : 0 < s.norm)
    {BP : BucketPrimes} (hBP : BP.Before x) :
    (∃ s' BP', dividePrimesFromBucket s x BP fbb = pure (s', BP') ∧
      EntrySteps fbb.toNat (BP.recorded x) s s' ∧ BP'.entries = BP.entries ∧
      ∀ y > x, BP'.Before y) ∨
    (dividePrimesFromBucket s x BP fbb = .abort ∧
      EntriesFull fbb.toNat (BP.recorded x) s) := by
  have hnone : BP.seen.filter (fun e => decide ((e.x.toNat : ℤ) = x)) = [] := by
    rw [List.filter_eq_nil_iff]
    intro e he
    have := hBP.seen_lt e he
    simp
    omega
  rw [BucketPrimes.recorded, BucketPrimes.entries, List.filter_append, hnone, List.nil_append]
  rcases dividePrimesLoop_spec hw hfbb BP.size x hs BP.seen
    (List.pairwise_append.mp hBP.sorted).2.1 with
    ⟨s', BP', hrun, hsteps, read, hseen, hunread, hle⟩ | hfull
  · have hentries : BP'.entries = BP.entries := by
      rw [BucketPrimes.entries, hseen, List.append_assoc, hunread, BucketPrimes.entries]
    refine .inl ⟨s', BP', hrun, hsteps, hentries, fun y hy => ⟨hentries ▸ hBP.sorted, ?_⟩⟩
    intro e he
    rw [hseen] at he
    rcases List.mem_append.mp he with he | he
    · exact (hBP.seen_lt e he).trans hy
    · exact (hle e he).trans_lt hy
  · exact .inr hfull

end

end CadoNfs
