import CadoNfs.Sieve.BucketArray
import CadoNfs.Sieve.BucketPrimes

/-!
# Purging a bucket

An update has room for sixteen bits of a prime only.  When a bucket is purged,
`purge_bucket` of `bucket.h` rebuilds the primes of the updates that are still of
interest: the primes of a bucket do not decrease, so that a smaller field means that the bits
above it have grown.

Main results:

- Theorem `purgeLoop_spec`: every prime is rebuilt up to a multiple of
  `BUCKET_P_WRAP`, and exactly if the primes are dense enough.
- Theorem `purgeBucket_iff`: purging a bucket of an array, into an array of a given size.
- Theorem `Purged.candidate`: the trial division tries the prime.
-/

namespace CadoNfs

open BitVec (ofNat toNat_add toNat_ofNat)

/-! ## Code -/

/-- The loop of `purge_bucket`. -/
def purgeLoop (S : ℕ → BitVec 8) (lastP : ℕ) (phigh : BitVec 32) :
    List BucketUpdate → List BucketPrime
  | [] => []
  | u :: updates =>
    let phigh := if u.p < lastP then phigh + ofNat 32 bucketPWrap else phigh
    if S u.x ≠ 255 then
      ⟨phigh + ofNat 32 u.p * 2 + 1, ofNat 16 u.x⟩ :: purgeLoop S u.p phigh updates
    else purgeLoop S u.p phigh updates

/-- `init_bucket_primes`. -/
def initBucketPrimes (size : ℕ) : BucketPrimes := ⟨size, [], []⟩

/-- `push_bucket_prime`, which has no test; past the end of the array nothing is said. -/
def pushBucketPrime (BP : BucketPrimes) (p : BucketPrime) : Option BucketPrimes :=
  if BP.entries.length < BP.size then some { BP with unread := BP.unread ++ [p] } else none

/-- `purge_bucket`, with the pushes of the loop in their order. -/
def purgeBucket (BP : BucketPrimes) (BA : BucketArray) (i : ℕ) (S : ℕ → BitVec 8) :
    Option BucketPrimes := do
  let b ← BA.buckets[i]?
  (purgeLoop S 0 0 b.updates).foldlM pushBucketPrime BP

/-! ## Rebuilding the primes -/

/-- The update that is pushed for a prime at a location. -/
def BucketPrime.update (u : BucketPrime) : BucketUpdate :=
  ⟨u.x.toNat, bucketEncodePrime u.p.toNat⟩

variable (S : ℕ → BitVec 8)

/-- The sieve has left something at the location. -/
def BucketPrime.Survives (u : BucketPrime) : Prop :=
  S u.x.toNat ≠ 255

instance (S : ℕ → BitVec 8) (u : BucketPrime) : Decidable (u.Survives S) :=
  inferInstanceAs (Decidable (S u.x.toNat ≠ 255))

/-- The entry `e` has been emitted for the update `u`. -/
structure Purged (u e : BucketPrime) : Prop where
  x : e.x = u.x
  le : e.p.toNat ≤ u.p.toNat
  modEq : e.p.toNat ≡ u.p.toNat [MOD bucketPWrap]
  reaches : ∃ k, u.p.toNat = e.p.toNat + k * bucketPWrap

theorem Purged.of_rebuilt {u e : BucketPrime} {k : ℕ} (hx : e.x = u.x)
    (hp : e.p.toNat = bucketPWrap * k + u.p.toNat % bucketPWrap)
    (hk : k ≤ u.p.toNat / bucketPWrap) : Purged u e := by
  have hsplit : u.p.toNat = e.p.toNat + (u.p.toNat / bucketPWrap - k) * bucketPWrap := by
    have hdiv := Nat.div_add_mod u.p.toNat bucketPWrap
    have hmul := Nat.mul_le_mul_right bucketPWrap hk
    rw [hp, Nat.sub_mul]
    rw [mul_comm] at hdiv
    rw [mul_comm bucketPWrap]
    omega
  refine ⟨hx, hsplit ▸ Nat.le_add_right _ _, ?_, _, hsplit⟩
  rw [hp, Nat.ModEq, Nat.mul_add_mod, Nat.mod_mod]

/-- The trial division tries the prime. -/
theorem Purged.candidate {u e : BucketPrime} (h : Purged u e) {fbb : ℕ}
    (hle : u.p.toNat ≤ fbb) : Candidate fbb e u.p.toNat :=
  ⟨h.le, hle, h.modEq.symm⟩

/-- The state of the loop after a prime `q`. -/
structure PurgeState (q lastP : ℕ) (phigh : BitVec 32) (k : ℕ) : Prop where
  lastP : lastP = bucketEncodePrime q
  phigh : phigh.toNat = bucketPWrap * k
  le : k ≤ q / bucketPWrap

theorem ofNat_toNat_location (x : BitVec 16) : ofNat 16 x.toNat = x := by
  rw [BitVec.ofNat_toNat, BitVec.setWidth_eq]

theorem rebuilt_eq {p k : ℕ} {phigh : BitVec 32} (hp : p < 2 ^ 32) (hodd : p % 2 = 1)
    (hphigh : phigh.toNat = bucketPWrap * k) (hk : k ≤ p / bucketPWrap) :
    (phigh + ofNat 32 (bucketEncodePrime p) * 2 + 1).toNat
      = bucketPWrap * k + p % bucketPWrap := by
  rw [toNat_add, toNat_add, BitVec.toNat_mul, hphigh, toNat_ofNat, bucketEncodePrime]
  rw [bucketPWrap] at hk ⊢
  simp
  omega

/-- The high bits grow when the field gets smaller, and never past those of the prime. -/
theorem PurgeState.step {q lastP k p : ℕ} {phigh : BitVec 32} (h : PurgeState q lastP phigh k)
    (hq : q ≤ p) (hp : p < 2 ^ 32) :
    PurgeState p (bucketEncodePrime p)
      (if bucketEncodePrime p < lastP then phigh + ofNat 32 bucketPWrap else phigh)
      (if bucketEncodePrime p < lastP then k + 1 else k) := by
  have hphigh := h.phigh
  have hle := h.le
  refine ⟨rfl, ?_, ?_⟩
  · split_ifs with hwrap
    · rw [h.lastP, bucketEncodePrime, bucketEncodePrime] at hwrap
      rw [toNat_add, hphigh, toNat_ofNat]
      rw [bucketPWrap] at hle ⊢
      omega
    · exact hphigh
  · rw [h.lastP, bucketEncodePrime, bucketEncodePrime]
    rw [bucketPWrap] at hle ⊢
    split_ifs
    · omega
    · omega

theorem wraps_exact {q p : ℕ} (hq : q ≤ p) (hodd : p % 2 = 1) (hnear : p < q + bucketPWrap) :
    (if bucketEncodePrime p < bucketEncodePrime q then q / bucketPWrap + 1 else q / bucketPWrap)
      = p / bucketPWrap := by
  rw [bucketEncodePrime, bucketEncodePrime]
  rw [bucketPWrap] at hnear ⊢
  split_ifs
  · omega
  · omega

/-- Every prime is rebuilt up to a multiple of `BUCKET_P_WRAP`. -/
theorem purgeLoop_spec {q lastP k : ℕ} {phigh : BitVec 32}
    (h : PurgeState q lastP phigh k) (us : List BucketPrime)
    (hodd : ∀ u ∈ us, u.p.toNat % 2 = 1) (hq : ∀ u ∈ us, q ≤ u.p.toNat)
    (hsorted : us.Pairwise fun u u' => u.p.toNat ≤ u'.p.toNat) :
    List.Forall₂ Purged (us.filter fun u => u.Survives S)
      (purgeLoop S lastP phigh (us.map BucketPrime.update)) := by
  induction us generalizing q lastP k phigh with
  | nil => exact .nil
  | cons u us ih =>
    obtain ⟨hle, hsorted⟩ := List.pairwise_cons.mp hsorted
    have hstep := h.step (hq u List.mem_cons_self) u.p.isLt
    have hrest := ih hstep (fun u' hu' => hodd u' (List.mem_cons_of_mem _ hu')) hle hsorted
    rw [List.map_cons, purgeLoop]
    by_cases hS : u.Survives S
    · rw [List.filter_cons_of_pos (by simpa using hS), if_pos (show S u.update.x ≠ 255 from hS)]
      refine .cons ?_ hrest
      have hrebuilt := rebuilt_eq u.p.isLt (hodd u List.mem_cons_self) hstep.phigh hstep.le
      exact .of_rebuilt (ofNat_toNat_location _) hrebuilt hstep.le
    · rw [List.filter_cons_of_neg (by simpa using hS), if_neg (show ¬S u.update.x ≠ 255 from hS)]
      exact hrest

/-- Primes that are dense enough are rebuilt as they were. -/
theorem purgeLoop_exact {q lastP : ℕ} {phigh : BitVec 32}
    (h : PurgeState q lastP phigh (q / bucketPWrap)) (us : List BucketPrime)
    (hodd : ∀ u ∈ us, u.p.toNat % 2 = 1)
    (hq : ∀ u ∈ us, q ≤ u.p.toNat) (hnear : ∀ u ∈ us.head?, u.p.toNat < q + bucketPWrap)
    (hsorted : us.Pairwise fun u u' => u.p.toNat ≤ u'.p.toNat)
    (hdense : us.IsChain fun u u' => u'.p.toNat < u.p.toNat + bucketPWrap) :
    purgeLoop S lastP phigh (us.map BucketPrime.update) = us.filter fun u => u.Survives S := by
  induction us generalizing q lastP phigh with
  | nil => rfl
  | cons u us ih =>
    obtain ⟨hle, hsorted⟩ := List.pairwise_cons.mp hsorted
    obtain ⟨hfirst, hdense⟩ := List.isChain_cons.mp hdense
    have hu := hodd u List.mem_cons_self
    have hstep := h.step (hq u List.mem_cons_self) u.p.isLt
    rw [h.lastP, wraps_exact (hq u List.mem_cons_self) hu (hnear u rfl), ← h.lastP] at hstep
    have hrest := ih hstep (fun u' hu' => hodd u' (List.mem_cons_of_mem _ hu')) hle
      hfirst hsorted hdense
    have hrebuilt := rebuilt_eq u.p.isLt hu hstep.phigh le_rfl
    rw [Nat.div_add_mod] at hrebuilt
    rw [List.map_cons, purgeLoop]
    by_cases hS : u.Survives S
    · rw [List.filter_cons_of_pos (by simpa using hS), if_pos (show S u.update.x ≠ 255 from hS)]
      refine List.cons_eq_cons.mpr ⟨?_, hrest⟩
      exact congrArg₂ BucketPrime.mk (BitVec.eq_of_toNat_eq hrebuilt) (ofNat_toNat_location _)
    · rw [List.filter_cons_of_neg (by simpa using hS), if_neg (show ¬S u.update.x ≠ 255 from hS)]
      exact hrest

/-! ## Purging a bucket of an array -/

section Room

variable {BP : BucketPrimes} {es : List BucketPrime}

theorem pushBucketPrimes_of_le (hle : BP.entries.length + es.length ≤ BP.size) :
    es.foldlM pushBucketPrime BP = some { BP with unread := BP.unread ++ es } := by
  induction es generalizing BP with
  | nil => rw [List.append_nil]; rfl
  | cons e es ih =>
    rw [List.length_cons] at hle
    have hrest := @ih { BP with unread := BP.unread ++ [e] } (by
      simp only [BucketPrimes.entries, List.length_append, List.length_singleton] at hle ⊢
      omega)
    rw [List.foldlM_cons, pushBucketPrime, if_pos (by omega)]
    exact hrest.trans (by rw [List.append_assoc]; rfl)

theorem pushBucketPrimes_of_lt (hBP : BP.entries.length ≤ BP.size)
    (hlt : BP.size < BP.entries.length + es.length) : es.foldlM pushBucketPrime BP = none := by
  induction es generalizing BP with
  | nil => exact absurd hBP hlt.not_ge
  | cons e es ih =>
    rw [List.foldlM_cons, pushBucketPrime]
    split_ifs with hroom
    · rw [List.length_cons] at hlt
      refine ih ?_ ?_ <;>
        simp only [BucketPrimes.entries, List.length_append, List.length_singleton] at * <;> omega
    · rfl

end Room

/-- For the updates of a bucket, in order, those that are of interest are emitted, if and only if
there is room for them. -/
theorem purgeBucket_iff {n size i : ℕ} (hi : i < n) {calls : List BucketCall}
    {BA : BucketArray} (hrun : runBucketCalls (initBucketArray n size) calls = some BA)
    {us : List BucketPrime} (hus : updatesOf i calls = us.map BucketPrime.update)
    (hodd : ∀ u ∈ us, u.p.toNat % 2 = 1)
    (hsorted : us.Pairwise fun u u' => u.p.toNat ≤ u'.p.toNat) {BP : BucketPrimes}
    (hBP : BP.entries.length ≤ BP.size) (S : ℕ → BitVec 8) :
    (∃ es, purgeBucket BP BA i S = some { BP with unread := BP.unread ++ es } ∧
      List.Forall₂ Purged (us.filter fun u => u.Survives S) es ∧
      ((∀ u ∈ us.head?, u.p.toNat < bucketPWrap) →
        (us.IsChain fun u u' => u'.p.toNat < u.p.toNat + bucketPWrap) →
        es = us.filter fun u => u.Survives S)) ↔
    BP.entries.length + (us.filter fun u => u.Survives S).length ≤ BP.size := by
  have hstart : PurgeState 0 0 0 (0 / bucketPWrap) := ⟨rfl, rfl, le_rfl⟩
  have hloop := purgeLoop_spec S hstart us hodd (fun _ _ => Nat.zero_le _) hsorted
  rw [purgeBucket, bucket_of_run hi hrun, hus, Option.bind_eq_bind, Option.bind_some]
  constructor
  · rintro ⟨es, hes, -⟩
    by_contra! hlt
    rw [pushBucketPrimes_of_lt hBP (by rwa [← hloop.length_eq])] at hes
    cases hes
  · intro hroom
    refine ⟨_, pushBucketPrimes_of_le (by rwa [← hloop.length_eq]), hloop,
      fun hfirst hdense => ?_⟩
    exact purgeLoop_exact S hstart us hodd (fun _ _ => Nat.zero_le _) (by simpa using hfirst)
      hsorted hdense

theorem purgeBucket_iff_wrap :
    (∃ es, purgeBucket ⟨2, [], []⟩ ⟨[⟨[⟨3, 65535⟩, ⟨4, 0⟩], 0⟩], 2, [], [], 0⟩ 0 (fun _ => 0)
        = some ⟨2, [], [] ++ es⟩ ∧
      List.Forall₂ Purged ([⟨131071, 3⟩, ⟨131073, 4⟩].filter fun u => u.Survives fun _ => 0) es ∧
      ((∀ u ∈ ([⟨131071, 3⟩, ⟨131073, 4⟩] : List BucketPrime).head?, u.p.toNat < bucketPWrap) →
        (([⟨131071, 3⟩, ⟨131073, 4⟩] : List BucketPrime).IsChain
          fun u u' => u'.p.toNat < u.p.toNat + bucketPWrap) →
        es = [⟨131071, 3⟩, ⟨131073, 4⟩].filter fun u => u.Survives fun _ => 0)) ↔
    0 + (([⟨131071, 3⟩, ⟨131073, 4⟩] : List BucketPrime).filter fun u => u.Survives
      fun _ => 0).length ≤ 2 :=
  @purgeBucket_iff 1 2 0 (by decide) [.push 0 ⟨3, 65535⟩, .push 0 ⟨4, 0⟩] _ rfl _ rfl (by decide)
    (by decide) ⟨2, [], []⟩ (by decide) fun _ => 0

/-- Updates for one bucket only. -/
theorem exists_runBucketCalls_push {size : ℕ} {updates : List BucketUpdate}
    (hroom : updates.length ≤ size) :
    ∃ BA, runBucketCalls (initBucketArray 1 size) (updates.map (.push 0)) = some BA ∧
      updatesOf 0 (updates.map (.push 0)) = updates := by
  have hpushed : updatesOf 0 (updates.map (.push 0)) = updates := by
    rw [updatesOf, List.filterMap_map]
    exact List.filterMap_some
  have hchanges : logpChanges 0 (updates.map (.push 0)) = 0 := by
    clear hroom hpushed
    induction updates with
    | nil => rfl
    | cons u updates ih => exact ih
  have hrun := (@runBucketCalls_isSome_iff (initBucketArray 1 size)
    (updates.map (.push 0)) (by simp [initBucketArray, BucketArray.nrLogp])
    (fun i u hu => ?_) (fun i b hb => ?_)).mpr ?_
  · exact hrun.imp fun BA hBA => ⟨hBA, hpushed⟩
  · simp at hu
    simp [← hu.2, initBucketArray, BucketArray.nBucket]
  · cases i with
    | zero =>
      obtain rfl : (⟨[], 0⟩ : Bucket) = b := by simpa [initBucketArray] using hb
      rw [hpushed]
      exact (Nat.zero_add _).trans_le hroom
    | succ i => simp [initBucketArray] at hb
  · rw [show (initBucketArray 1 size).lastLogp = 0 from rfl, hchanges]
    simp [initBucketArray, BucketArray.nrLogp]

/-- An update for every location of a region of 65536, and one more: the array that `las.c`
allocates is too short. -/
theorem not_purgeBucket_full :
    let us := (List.range 65537).map fun x => (⟨65537#32, ofNat 16 x⟩ : BucketPrime)
    ∃ BA, runBucketCalls (initBucketArray 1 65537)
        ((us.map BucketPrime.update).map (.push 0)) = some BA ∧
      purgeBucket (initBucketPrimes 65536) BA 0 (fun _ => 0) = none := by
  intro us
  have hlength : us.length = 65537 := by rw [List.length_map, List.length_range]
  obtain ⟨BA, hBA, hpushed⟩ := exists_runBucketCalls_push
    (show (us.map BucketPrime.update).length ≤ 65537 by rw [List.length_map, hlength])
  have hp : ∀ u ∈ us, u.p = 65537#32 := fun u hu => by
    obtain ⟨x, -, rfl⟩ := List.mem_map.mp hu
    rfl
  have hstart : PurgeState 0 0 0 0 := ⟨rfl, rfl, le_rfl⟩
  have hloop := purgeLoop_spec (fun _ => 0) hstart us (fun u hu => by rw [hp u hu]; rfl)
    (fun _ _ => Nat.zero_le _)
    (List.pairwise_of_forall_mem_list fun u hu u' hu' => by rw [hp u hu, hp u' hu'])
  have hall : us.filter (fun u => u.Survives fun _ => 0) = us :=
    List.filter_eq_self.mpr fun u _ => by simp [BucketPrime.Survives]
  rw [hall] at hloop
  refine ⟨BA, hBA, ?_⟩
  rw [purgeBucket, bucket_of_run Nat.one_pos hBA, hpushed, Option.bind_eq_bind, Option.bind_some]
  exact pushBucketPrimes_of_lt (Nat.zero_le _) (by rw [← hloop.length_eq, hlength]; decide)

end CadoNfs
