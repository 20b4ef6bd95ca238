import CadoNfs.Sieve.BucketFill

/-!
# Arrays of buckets

A bucket array of `bucket.h` stores updates for the bucket regions.  The logarithm of the
prime is not stored with an update: at each change of the logarithm the write positions of all
buckets are recorded, and `apply_one_bucket` of `las.c` finds the logarithms again
from these positions.  It goes past one position at most before an update, so that it falls
behind when the logarithm changes twice between two updates of a bucket.

Main results:

- Theorem `runBucketCalls_recorded`: what an array holds after any calls.
- Theorem `decrements_of_recorded`: what the reader subtracts.
- Theorem `decrements_eq_delivered`: the reader works like a queue of changes for every
  bucket, from which each update takes one.
- Theorem `decrements_eq_current_iff`: when every update gets the logarithm that was
  current when it was pushed.
-/

namespace CadoNfs

open List (foldl_cons getElem?_eq_getElem getElem?_eq_none length_append length_cons
  length_singleton)
open Option (some_inj)

/-! ## Code -/

/-- One bucket: the updates from `bucket_start` to `bucket_write`, and the number of
those before `bucket_read`. -/
structure Bucket where
  updates : List BucketUpdate
  read : ℕ
deriving DecidableEq, Repr

/-- `bucket_array_t`; a pointer into a bucket is the number of updates before it. -/
structure BucketArray where
  buckets : List Bucket
  bucketSize : ℕ
  logpVal : List (BitVec 8)
  logpIdx : List ℕ
  lastLogp : BitVec 8
deriving DecidableEq, Repr

/-- `n_bucket`. -/
def BucketArray.nBucket (BA : BucketArray) : ℕ := BA.buckets.length

/-- `nr_logp`. -/
def BucketArray.nrLogp (BA : BucketArray) : ℕ := BA.logpVal.length

/-- `init_bucket_array`. -/
def initBucketArray (nBucket bucketSize : ℕ) : BucketArray where
  buckets := List.replicate nBucket ⟨[], 0⟩
  bucketSize := bucketSize
  logpVal := []
  logpIdx := []
  lastLogp := 0

/-- `push_bucket_update`; there is no bucket or no room in it for `none`. -/
def pushBucketUpdate (BA : BucketArray) (i : ℕ) (update : BucketUpdate) :
    Option BucketArray := do
  let b ← BA.buckets[i]?
  assertAlways (b.updates.length < BA.bucketSize)
  some { BA with buckets := BA.buckets.set i { b with updates := b.updates ++ [update] } }

/-- `bucket_new_logp`; the number of pointers is an `int`. -/
def bucketNewLogp (BA : BucketArray) (logp : BitVec 8) : Option BucketArray :=
  if BA.lastLogp = logp then some BA
  else do
    assertAlways ((BA.nrLogp + 1) * BA.nBucket < 2 ^ 31)
    some { BA with
      lastLogp := logp
      logpVal := BA.logpVal ++ [logp]
      logpIdx := BA.logpIdx ++ BA.buckets.map fun b => b.updates.length }

/-- The locals of `apply_one_bucket`. -/
structure LogpReader where
  readPtr : ℕ
  nextLogpJ : ℕ
  nextLogpChange : ℕ
  logp : BitVec 8
deriving DecidableEq, Repr

/-- The pointer that tells when to fetch the next value. -/
def nextLogpPtr (BA : BucketArray) (i : ℕ) (b : Bucket) (j : ℕ) : Option ℕ :=
  if j < BA.nrLogp then BA.logpIdx[j * BA.nBucket + i]? else some b.updates.length

/-- The first part of the loop body: is a new value needed? -/
def fetchLogp (BA : BucketArray) (i : ℕ) (b : Bucket) (s : LogpReader) :
    Option LogpReader :=
  if s.readPtr ≥ s.nextLogpChange then do
    assertAlways (s.nextLogpJ < BA.nrLogp)
    let idx ← BA.logpIdx[s.nextLogpJ * BA.nBucket + i]?
    assertAlways (idx = s.nextLogpChange)
    let logp ← BA.logpVal[s.nextLogpJ]?
    let next ← nextLogpPtr BA i b (s.nextLogpJ + 1)
    some { s with logp := logp, nextLogpJ := s.nextLogpJ + 1, nextLogpChange := next }
  else some s

/-- The loop of `apply_one_bucket` with `j` updates to go: the calls of
`sieve_decrease`, as positions and what is subtracted there. -/
def applyLoop (BA : BucketArray) (i : ℕ) (b : Bucket) :
    ℕ → LogpReader → Option (List (ℕ × BitVec 8))
  | 0, _ => some []
  | j + 1, s => do
    let s ← fetchLogp BA i b s
    let u ← b.updates[s.readPtr]?
    let rest ← applyLoop BA i b j { s with readPtr := s.readPtr + 1 }
    some ((u.x, s.logp) :: rest)

/-- What `apply_one_bucket` subtracts, one entry a call of `sieve_decrease`. -/
def decrements (BA : BucketArray) (i : ℕ) : Option (List (ℕ × BitVec 8)) := do
  let b ← BA.buckets[i]?
  applyLoop BA i b b.updates.length ⟨b.read, 0, b.read, 0⟩

/-- `sieve_decrease`. -/
def sieveDecrease (S : ℕ → BitVec 8) (d : ℕ × BitVec 8) : ℕ → BitVec 8 :=
  Function.update S d.1 (S d.1 - d.2)

/-- `apply_one_bucket`. -/
def applyOneBucket (S : ℕ → BitVec 8) (BA : BucketArray) (i : ℕ) :
    Option (ℕ → BitVec 8) := do
  let ds ← decrements BA i
  some (ds.foldl sieveDecrease S)

/-! ## Calls -/

/-- A call that writes to a bucket array. -/
inductive BucketCall where
  | newLogp (logp : BitVec 8)
  | push (i : ℕ) (update : BucketUpdate)
deriving DecidableEq, Repr

/-- One call. -/
def BucketCall.run (BA : BucketArray) : BucketCall → Option BucketArray
  | .newLogp logp => bucketNewLogp BA logp
  | .push i update => pushBucketUpdate BA i update

/-- Calls one after the other. -/
def runBucketCalls (BA : BucketArray) (calls : List BucketCall) : Option BucketArray :=
  calls.foldlM BucketCall.run BA

/-- The updates that the calls push to bucket `i`. -/
def updatesOf (i : ℕ) (calls : List BucketCall) : List BucketUpdate :=
  calls.filterMap fun
    | .newLogp _ => none
    | .push k update => if k = i then some update else none

/-- The updates of bucket `i`, each with the value that is current when it is pushed. -/
def currentDecrements (i : ℕ) (logp : BitVec 8) : List BucketCall → List (ℕ × BitVec 8)
  | [] => []
  | .newLogp logp' :: calls => currentDecrements i logp' calls
  | .push k update :: calls =>
    if k = i then (update.x, logp) :: currentDecrements i logp calls
    else currentDecrements i logp calls

/-- The number of calls that change the value. -/
def logpChanges (logp : BitVec 8) : List BucketCall → ℕ
  | [] => 0
  | .newLogp logp' :: calls =>
    if logp = logp' then logpChanges logp calls else logpChanges logp' calls + 1
  | .push _ _ :: calls => logpChanges logp calls

/-! ## What one bucket has seen -/

/-- What a bucket has seen of the calls: the values, the numbers of updates before them, and
the updates. -/
structure BucketLog where
  vals : List (BitVec 8)
  bounds : List ℕ
  updates : List BucketUpdate

/-- A further call, as bucket `i` sees it. -/
def BucketLog.call (i : ℕ) (log : BucketLog) : BucketCall → BucketLog
  | .newLogp logp =>
    if log.vals.getLast?.getD 0 = logp then log
    else ⟨log.vals ++ [logp], log.bounds ++ [log.updates.length], log.updates⟩
  | .push k update =>
    if k = i then ⟨log.vals, log.bounds, log.updates ++ [update]⟩ else log

/-- The first value is there before the first update. -/
structure BucketLog.Valid (log : BucketLog) : Prop where
  length : log.bounds.length = log.vals.length
  first : log.bounds[0]? = some 0
  le : ∀ b ∈ log.bounds, b ≤ log.updates.length

theorem BucketLog.Valid.call {log : BucketLog} (h : log.Valid) (i : ℕ) (c : BucketCall) :
    (log.call i c).Valid := by
  have hpos : 0 < log.bounds.length := by
    have hfirst := h.first
    by_contra hnot
    rw [getElem?_eq_none (by omega)] at hfirst
    simp at hfirst
  cases c with
  | newLogp logp =>
    unfold BucketLog.call
    dsimp only
    split_ifs
    · exact h
    · refine ⟨by simp [h.length], ?_, ?_⟩
      · rw [List.getElem?_append_left hpos]
        exact h.first
      · intro b hb
        rcases List.mem_append.mp hb with hb | hb
        · exact h.le b hb
        · exact (List.mem_singleton.mp hb).le
  | push k update =>
    unfold BucketLog.call
    dsimp only
    split_ifs
    · refine ⟨h.length, h.first, fun b hb => ?_⟩
      have := h.le b hb
      simp
      omega
    · exact h

/-- The array holds what bucket `i` has seen. -/
structure BucketArray.Recorded (BA : BucketArray) (i : ℕ) (log : BucketLog) : Prop where
  bucket : BA.buckets[i]? = some ⟨log.updates, 0⟩
  val : BA.logpVal = log.vals
  last : BA.lastLogp = log.vals.getLast?.getD 0
  length : log.bounds.length = log.vals.length
  idx_length : BA.logpIdx.length = BA.nrLogp * BA.nBucket
  idx : ∀ k < BA.nrLogp, BA.logpIdx[k * BA.nBucket + i]? = log.bounds[k]?

theorem BucketArray.Recorded.lt_nBucket {BA : BucketArray} {i : ℕ} {log : BucketLog}
    (h : BA.Recorded i log) : i < BA.nBucket :=
  (List.getElem?_eq_some_iff.mp h.bucket).1

theorem recorded_init {n i : ℕ} (hi : i < n) (size : ℕ) :
    (initBucketArray n size).Recorded i ⟨[], [], []⟩ where
  bucket := by simp [initBucketArray, hi]
  val := rfl
  last := rfl
  length := rfl
  idx_length := by simp [initBucketArray, BucketArray.nrLogp]
  idx k hk := by simp [initBucketArray, BucketArray.nrLogp] at hk

/-- A new logarithm is recorded in every bucket. -/
theorem BucketArray.Recorded.newLogp {BA BA' : BucketArray} {i : ℕ} {log : BucketLog}
    (h : BA.Recorded i log) {logp : BitVec 8} (hrun : bucketNewLogp BA logp = some BA') :
    BA'.Recorded i (log.call i (.newLogp logp)) := by
  unfold bucketNewLogp at hrun
  rw [h.last] at hrun
  unfold BucketLog.call
  dsimp only
  split_ifs at hrun ⊢ with hlast
  · exact some_inj.mp hrun ▸ h
  · by_cases hfit : (BA.nrLogp + 1) * BA.nBucket < 2 ^ 31
    · rw [assertAlways_of_true hfit] at hrun
      obtain rfl := some_inj.mp hrun
      have hnr : BA.nrLogp = log.vals.length := congrArg List.length h.val
      refine ⟨h.bucket, by rw [← h.val], by simp, by simp [h.length], ?_, fun k hk => ?_⟩
      · simp only [nrLogp, nBucket, length_append, List.length_map, length_singleton]
        rw [h.idx_length, nrLogp, nBucket, add_mul, one_mul]
      · have hi := h.lt_nBucket
        have hk : k < BA.nrLogp + 1 := by simpa [nrLogp] using hk
        change (BA.logpIdx ++ _)[k * BA.nBucket + i]? = _
        rcases Nat.lt_succ_iff_lt_or_eq.mp hk with hlt | rfl
        · -- an earlier row
          have hrow : k * BA.nBucket + i < BA.nrLogp * BA.nBucket := by
            calc k * BA.nBucket + i < (k + 1) * BA.nBucket := by rw [Nat.succ_mul]; omega
              _ ≤ BA.nrLogp * BA.nBucket := Nat.mul_le_mul_right _ hlt
          rw [List.getElem?_append_left (by rw [h.idx_length]; exact hrow),
            List.getElem?_append_left (by rw [h.length, ← hnr]; exact hlt)]
          exact h.idx k hlt
        · -- the new row
          rw [← h.idx_length, List.getElem?_append_right (Nat.le_add_right _ _),
            Nat.add_sub_cancel_left, List.getElem?_map, h.bucket, hnr, ← h.length,
            List.getElem?_append_right le_rfl, Nat.sub_self]
          rfl
    · rw [assertAlways_of_false hfit] at hrun
      simp at hrun

/-- A push is recorded in its bucket. -/
theorem BucketArray.Recorded.push {BA BA' : BucketArray} {i : ℕ} {log : BucketLog}
    (h : BA.Recorded i log) {k : ℕ} {update : BucketUpdate}
    (hrun : pushBucketUpdate BA k update = some BA') :
    BA'.Recorded i (log.call i (.push k update)) := by
  unfold pushBucketUpdate at hrun
  cases hb : BA.buckets[k]? with
  | none => simp [hb] at hrun
  | some b =>
    rw [hb, some_bind] at hrun
    by_cases hroom : b.updates.length < BA.bucketSize
    · rw [assertAlways_of_true hroom] at hrun
      obtain rfl := some_inj.mp hrun
      have hset : ∀ b', (BA.buckets.set k b').length = BA.nBucket := fun b' =>
        List.length_set
      have hidx : (BA.buckets.set k ⟨b.updates ++ [update], b.read⟩)[i]?
          = some ⟨(log.call i (.push k update)).updates, 0⟩ := by
        unfold BucketLog.call
        dsimp only
        split_ifs with hk
        · subst hk
          obtain rfl : b = ⟨log.updates, 0⟩ := some_inj.mp (hb.symm.trans h.bucket)
          rw [List.getElem?_set_self h.lt_nBucket]
        · rw [List.getElem?_set_ne hk]
          exact h.bucket
      have hsame : (log.call i (.push k update)).vals = log.vals ∧
          (log.call i (.push k update)).bounds = log.bounds := by
        unfold BucketLog.call
        dsimp only
        split_ifs
        · exact ⟨rfl, rfl⟩
        · exact ⟨rfl, rfl⟩
      refine ⟨hidx, hsame.1 ▸ h.val, hsame.1 ▸ h.last, ?_, ?_, fun j hj => ?_⟩
      · rw [hsame.1, hsame.2]
        exact h.length
      · rw [nBucket, hset]
        exact h.idx_length
      · rw [nBucket, hset, hsame.2]
        exact h.idx j hj
    · rw [assertAlways_of_false hroom] at hrun
      simp at hrun

/-- What an array holds after any calls. -/
theorem runBucketCalls_recorded {BA BA' : BucketArray} {i : ℕ} {log : BucketLog}
    (h : BA.Recorded i log) {calls : List BucketCall}
    (hrun : runBucketCalls BA calls = some BA') :
    BA'.Recorded i (calls.foldl (BucketLog.call i) log) := by
  induction calls generalizing BA log with
  | nil =>
    obtain rfl := some_inj.mp hrun
    exact h
  | cons c calls ih =>
    unfold runBucketCalls at hrun
    rw [List.foldlM_cons] at hrun
    obtain ⟨BA₁, hstep, hrun⟩ := Option.bind_eq_some_iff.mp hrun
    refine ih ?_ hrun
    cases c with
    | newLogp logp => exact h.newLogp hstep
    | push k update => exact h.push hstep

theorem updates_foldl_call (i : ℕ) (calls : List BucketCall) (log : BucketLog) :
    (calls.foldl (BucketLog.call i) log).updates = log.updates ++ updatesOf i calls := by
  induction calls generalizing log with
  | nil => exact (List.append_nil _).symm
  | cons c calls ih =>
    rw [foldl_cons, ih]
    unfold BucketLog.call updatesOf
    cases c with
    | newLogp logp =>
      dsimp only
      split_ifs
      · rw [List.filterMap_cons_none rfl]
      · rw [List.filterMap_cons_none rfl]
    | push k update =>
      dsimp only
      split_ifs with hk
      · rw [List.filterMap_cons_some (by simp only [hk]; rfl), List.append_assoc]
        rfl
      · rw [List.filterMap_cons_none (by simp only [hk]; rfl)]

theorem bucket_of_run {n size i : ℕ} (hi : i < n) {calls : List BucketCall}
    {BA : BucketArray} (hrun : runBucketCalls (initBucketArray n size) calls = some BA) :
    BA.buckets[i]? = some ⟨updatesOf i calls, 0⟩ := by
  rw [(runBucketCalls_recorded (recorded_init hi size) hrun).bucket, updates_foldl_call]
  rfl

/-! ## The reader -/

/-- How many values the reader has fetched when `u` updates are read. -/
def BucketLog.fetched (log : BucketLog) : ℕ → ℕ
  | 0 => 0
  | u + 1 =>
    match log.bounds[log.fetched u]? with
    | none => log.fetched u
    | some b => if b ≤ u then log.fetched u + 1 else log.fetched u

variable (log : BucketLog)

/-- The value when `j` values have been fetched. -/
def BucketLog.valAt (j : ℕ) : BitVec 8 :=
  (log.vals.take j).getLast?.getD 0

/-- What the reader subtracts for the updates after the first `u`. -/
def BucketLog.readFrom (log : BucketLog) : ℕ → List BucketUpdate → List (ℕ × BitVec 8)
  | _, [] => []
  | u, update :: updates =>
    (update.x, log.valAt (log.fetched (u + 1))) :: log.readFrom (u + 1) updates

theorem BucketLog.readFrom_append (u : ℕ) (updates updates' : List BucketUpdate) :
    log.readFrom u (updates ++ updates')
      = log.readFrom u updates ++ log.readFrom (u + updates.length) updates' := by
  induction updates generalizing u with
  | nil => rfl
  | cons update updates ih =>
    rw [List.cons_append, readFrom, ih, readFrom, length_cons, List.cons_append]
    rw [add_assoc, add_comm 1]

theorem BucketLog.valAt_succ {j : ℕ} {logp : BitVec 8}
    (h : log.vals[j]? = some logp) : log.valAt (j + 1) = logp := by
  rw [valAt, List.take_add_one, h]
  simp

/-- Where the reader is when `u` updates are read. -/
def BucketLog.reader (u : ℕ) : LogpReader where
  readPtr := u
  nextLogpJ := log.fetched u
  nextLogpChange := (log.bounds[log.fetched u]?).getD log.updates.length
  logp := log.valAt (log.fetched u)

section

variable {BA : BucketArray} {i : ℕ} {log : BucketLog} (h : BA.Recorded i log)
include h

/-- The reader finds the logarithm of the next update. -/
theorem fetchLogp_of_recorded {u : ℕ} (hu : u < log.updates.length) :
    fetchLogp BA i ⟨log.updates, 0⟩ (log.reader u)
      = some { log.reader (u + 1) with readPtr := u } := by
  have hnr : BA.nrLogp = log.bounds.length := by
    rw [h.length, ← h.val]
    rfl
  cases hb : log.bounds[log.fetched u]? with
  | none =>
    have hnext : log.fetched (u + 1) = log.fetched u := by simp [BucketLog.fetched, hb]
    unfold fetchLogp BucketLog.reader
    rw [if_neg (by simp [hb, hu]), hnext]
  | some b =>
    obtain ⟨hlt, -⟩ := List.getElem?_eq_some_iff.mp hb
    by_cases hle : b ≤ u
    · have hnext : log.fetched (u + 1) = log.fetched u + 1 := by
        simp [BucketLog.fetched, hb, if_pos hle]
      obtain ⟨logp, hlogp⟩ : ∃ logp, log.vals[log.fetched u]? = some logp :=
        ⟨_, getElem?_eq_getElem (h.length ▸ hlt)⟩
      have hptr : nextLogpPtr BA i ⟨log.updates, 0⟩ (log.fetched u + 1)
          = some ((log.bounds[log.fetched u + 1]?).getD log.updates.length) := by
        unfold nextLogpPtr
        split_ifs with hmore
        · rw [h.idx _ hmore, getElem?_eq_getElem (hnr ▸ hmore)]
          rfl
        · rw [getElem?_eq_none (by omega)]
          rfl
      unfold fetchLogp BucketLog.reader
      simp only [hb, Option.getD_some, ge_iff_le, hle, if_true]
      rw [assertAlways_of_true (hnr ▸ hlt), h.idx _ (hnr ▸ hlt), hb, h.val, hlogp, hnext, hptr,
        log.valAt_succ hlogp]
      simp [some_bind]
    · have hnext : log.fetched (u + 1) = log.fetched u := by
        simp [BucketLog.fetched, hb, if_neg hle]
      unfold fetchLogp BucketLog.reader
      rw [if_neg (by simpa [hb] using hle), hnext]

theorem applyLoop_of_recorded (rest : List BucketUpdate) {u : ℕ}
    (hrest : log.updates.drop u = rest) (hu : u + rest.length = log.updates.length) :
    applyLoop BA i ⟨log.updates, 0⟩ rest.length (log.reader u)
      = some (log.readFrom u rest) := by
  induction rest generalizing u with
  | nil => rfl
  | cons update rest ih =>
    rw [length_cons] at hu
    have hget : log.updates[u]? = some update := by
      rw [← add_zero u, ← List.getElem?_drop, hrest]
      rfl
    have hdrop : log.updates.drop (u + 1) = rest := by
      rw [← List.drop_drop, hrest]
      rfl
    have hloop := ih hdrop (by omega)
    rw [length_cons, applyLoop, fetchLogp_of_recorded h (by omega)]
    simp only [some_bind, hget]
    rw [show ({ log.reader (u + 1) with readPtr := u + 1 } : LogpReader) = log.reader (u + 1)
      from rfl, hloop]
    rfl

/-- What the reader subtracts. -/
theorem decrements_of_recorded (hvalid : log.Valid) :
    decrements BA i = some (log.readFrom 0 log.updates) := by
  have hstart : (⟨0, 0, 0, 0⟩ : LogpReader) = log.reader 0 := by
    simp [BucketLog.reader, BucketLog.fetched, BucketLog.valAt, hvalid.first]
  have hloop := applyLoop_of_recorded h log.updates (u := 0) rfl (by simp)
  rw [decrements, h.bucket, some_bind, hstart, hloop]

end

/-! ## The changes as a queue -/

/-- The changes of the value that the updates of a bucket have not reached, and the last one
that they have reached. -/
structure LogpQueue where
  reached : BitVec 8
  pending : List (BitVec 8)
deriving DecidableEq, Repr

variable (q : LogpQueue)

/-- The current value. -/
def LogpQueue.current : BitVec 8 := q.pending.getLast?.getD q.reached

variable (logp : BitVec 8)

/-- The value changes, if it is a new one. -/
def LogpQueue.change : LogpQueue :=
  if q.current = logp then q else ⟨q.reached, q.pending ++ [logp]⟩

/-- An update takes the first change from the queue. -/
def LogpQueue.take : LogpQueue :=
  match q.pending with
  | [] => q
  | logp :: pending => ⟨logp, pending⟩

/-- A call, as the queue of bucket `i` sees it. -/
def LogpQueue.call (i : ℕ) (q : LogpQueue) : BucketCall → LogpQueue
  | .newLogp logp => q.change logp
  | .push k _ => if k = i then q.take else q

/-- The updates of bucket `i`, each with the change that it takes from the queue. -/
def LogpQueue.delivered (i : ℕ) (q : LogpQueue) : List BucketCall → List (ℕ × BitVec 8)
  | [] => []
  | .newLogp logp :: calls => (q.change logp).delivered i calls
  | .push k update :: calls =>
    if k = i then (update.x, q.take.reached) :: q.take.delivered i calls
    else q.delivered i calls

/-- Every update of bucket `i` takes a change to the current value. -/
def LogpQueue.Timely (i : ℕ) (q : LogpQueue) : List BucketCall → Prop
  | [] => True
  | .newLogp logp :: calls => (q.change logp).Timely i calls
  | .push k _ :: calls =>
    if k = i then q.take.reached = q.current ∧ q.take.Timely i calls else q.Timely i calls

instance LogpQueue.decidableTimely (i : ℕ) (q : LogpQueue) (calls : List BucketCall) :
    Decidable (q.Timely i calls) :=
  match calls with
  | [] => .isTrue trivial
  | .newLogp logp :: calls => (q.change logp).decidableTimely i calls
  | .push k _ :: calls =>
    if hk : k = i then
      have := q.take.decidableTimely i calls
      decidable_of_iff (q.take.reached = q.current ∧ q.take.Timely i calls)
        (by rw [LogpQueue.Timely, if_pos hk])
    else
      have := q.decidableTimely i calls
      decidable_of_iff (q.Timely i calls) (by rw [LogpQueue.Timely, if_neg hk])

@[simp] theorem LogpQueue.change_current : (q.change logp).current = logp := by
  unfold change
  split_ifs with h
  · exact h
  · simp [current]

@[simp] theorem LogpQueue.take_current : q.take.current = q.current := by
  obtain ⟨reached, pending⟩ := q
  cases pending with
  | nil => rfl
  | cons logp pending => simp [take, current, List.getLast?_cons]

theorem LogpQueue.delivered_eq_iff (i : ℕ) (q : LogpQueue) (calls : List BucketCall) :
    q.delivered i calls = currentDecrements i q.current calls ↔ q.Timely i calls := by
  induction calls generalizing q with
  | nil => exact iff_of_true rfl trivial
  | cons c calls ih =>
    cases c with
    | newLogp logp =>
      rw [delivered, currentDecrements, Timely, ← ih, change_current]
    | push k update =>
      rw [delivered, currentDecrements, Timely]
      split_ifs
      · rw [List.cons_eq_cons, Prod.mk.injEq, ← ih, take_current]
        exact and_congr_left' (and_iff_right rfl)
      · exact ih q

/-! ## The reader works like the queue -/

/-- The queue after the updates that are read. -/
def BucketLog.queue : LogpQueue :=
  ⟨log.valAt (log.fetched log.updates.length), log.vals.drop (log.fetched log.updates.length)⟩

theorem BucketLog.fetched_le (u : ℕ) : log.fetched u ≤ log.bounds.length := by
  induction u with
  | zero => exact Nat.zero_le _
  | succ u ih =>
    rw [fetched]
    split
    · exact ih
    · rename_i b hb
      split_ifs
      · exact (List.getElem?_eq_some_iff.mp hb).1
      · exact ih

theorem BucketLog.Valid.fetched_succ {log : BucketLog} (h : log.Valid) :
    log.fetched (log.updates.length + 1) =
      if log.fetched log.updates.length < log.bounds.length then
        log.fetched log.updates.length + 1
      else log.fetched log.updates.length := by
  rw [fetched]
  split_ifs with hlt
  · rw [getElem?_eq_getElem hlt]
    exact if_pos (h.le _ (List.getElem_mem hlt))
  · rw [getElem?_eq_none (not_lt.mp hlt)]

theorem BucketLog.queue_current : log.queue.current = log.vals.getLast?.getD 0 := by
  unfold queue LogpQueue.current valAt
  dsimp only
  conv_rhs => rw [← List.take_append_drop (log.fetched log.updates.length) log.vals]
  rw [List.getLast?_append]
  cases (log.vals.drop (log.fetched log.updates.length)).getLast? <;> rfl

theorem BucketLog.fetched_append {u : ℕ} (hu : u ≤ log.updates.length) :
    BucketLog.fetched ⟨log.vals ++ [logp], log.bounds ++ [log.updates.length], log.updates⟩ u
      = log.fetched u := by
  induction u with
  | zero => rfl
  | succ u ih =>
    rw [fetched, fetched, ih (by omega)]
    rcases Nat.lt_or_eq_of_le (log.fetched_le u) with hlt | heq
    · rw [List.getElem?_append_left hlt]
    · rw [List.getElem?_append_right heq.ge, getElem?_eq_none heq.ge, heq, Nat.sub_self]
      exact if_neg (by omega)

theorem BucketLog.fetched_updates (updates : List BucketUpdate) (u : ℕ) :
    BucketLog.fetched ⟨log.vals, log.bounds, updates⟩ u = log.fetched u := by
  induction u with
  | zero => rfl
  | succ u ih => rw [fetched, fetched, ih]

theorem BucketLog.readFrom_congr {log log' : BucketLog} (updates : List BucketUpdate) {u : ℕ}
    (h : ∀ v ≤ u + updates.length, log'.valAt (log'.fetched v) = log.valAt (log.fetched v)) :
    log'.readFrom u updates = log.readFrom u updates := by
  induction updates generalizing u with
  | nil => rfl
  | cons update updates ih =>
    rw [length_cons] at h
    rw [readFrom, readFrom, h (u + 1) (by omega), ih fun v hv => h v (by omega)]

section

variable {log : BucketLog} (h : log.Valid) (i : ℕ)
include h

theorem BucketLog.Valid.queue_newLogp (logp : BitVec 8) :
    (log.call i (.newLogp logp)).queue = log.queue.change logp ∧
      (log.call i (.newLogp logp)).readFrom 0 (log.call i (.newLogp logp)).updates
        = log.readFrom 0 log.updates := by
  unfold LogpQueue.change
  rw [log.queue_current]
  unfold BucketLog.call
  dsimp only
  split_ifs
  · exact ⟨rfl, rfl⟩
  · have hvals : ∀ u, log.fetched u ≤ log.vals.length := fun u =>
      h.length ▸ log.fetched_le u
    have hval : ∀ u, BucketLog.valAt
        ⟨log.vals ++ [logp], log.bounds ++ [log.updates.length], log.updates⟩ (log.fetched u)
          = log.valAt (log.fetched u) := fun u => by
      unfold valAt
      rw [List.take_append_of_le_length (hvals u)]
    refine ⟨?_, readFrom_congr _ fun v hv => ?_⟩
    · unfold queue
      dsimp only
      rw [log.fetched_append logp le_rfl, hval, List.drop_append_of_le_length (hvals _)]
    · rw [log.fetched_append logp (by simpa using hv), hval]

/-- A push delivers one more pair. -/
theorem BucketLog.Valid.queue_push (update : BucketUpdate) :
    (log.call i (.push i update)).queue = log.queue.take ∧
      (log.call i (.push i update)).readFrom 0 (log.call i (.push i update)).updates
        = log.readFrom 0 log.updates ++ [(update.x, log.queue.take.reached)] := by
  have hcall : log.call i (.push i update) = ⟨log.vals, log.bounds, log.updates ++ [update]⟩ :=
    if_pos rfl
  have hqueue : (log.call i (.push i update)).queue = log.queue.take := by
    rw [hcall]
    unfold queue
    rw [length_append, length_singleton, log.fetched_updates, h.fetched_succ]
    split_ifs with hlt
    · have hlt : log.fetched log.updates.length < log.vals.length := h.length ▸ hlt
      unfold LogpQueue.take
      dsimp only
      rw [List.drop_eq_getElem_cons hlt]
      exact congrArg (LogpQueue.mk · _)
        (log.valAt_succ (getElem?_eq_getElem hlt))
    · unfold LogpQueue.take
      dsimp only
      rw [List.drop_eq_nil_of_le (h.length ▸ not_lt.mp hlt)]
      rfl
  refine ⟨hqueue, ?_⟩
  have hreached : log.queue.take.reached = log.valAt (log.fetched (log.updates.length + 1)) := by
    rw [← hqueue, hcall]
    unfold queue
    rw [length_append, length_singleton, log.fetched_updates]
    rfl
  have hsame : ∀ updates u,
      BucketLog.readFrom ⟨log.vals, log.bounds, log.updates ++ [update]⟩ u updates
        = log.readFrom u updates := fun updates u =>
    readFrom_congr updates fun v _ => by rw [log.fetched_updates]; rfl
  rw [hcall, hsame, log.readFrom_append, hreached, zero_add]
  rfl

theorem BucketLog.Valid.readFrom_foldl (calls : List BucketCall) :
    (calls.foldl (BucketLog.call i) log).readFrom 0 (calls.foldl (BucketLog.call i) log).updates
      = log.readFrom 0 log.updates ++ log.queue.delivered i calls := by
  induction calls generalizing log with
  | nil => exact (List.append_nil _).symm
  | cons c calls ih =>
    rw [foldl_cons, ih (h.call i c)]
    cases c with
    | newLogp logp =>
      obtain ⟨hqueue, hread⟩ := h.queue_newLogp i logp
      rw [hqueue, hread, LogpQueue.delivered]
    | push k update =>
      rw [LogpQueue.delivered]
      split_ifs with hk
      · subst hk
        obtain ⟨hqueue, hread⟩ := h.queue_push k update
        rw [hqueue, hread, List.append_assoc, List.singleton_append]
      · rw [show log.call i (.push k update) = log from if_neg hk]

end

/-- What is subtracted after any calls, the first of which sets a value. -/
theorem decrements_eq_delivered {n size i : ℕ} (hi : i < n) {logp : BitVec 8} (hlogp : logp ≠ 0)
    {calls : List BucketCall} {BA : BucketArray}
    (hrun : runBucketCalls (initBucketArray n size) (.newLogp logp :: calls) = some BA) :
    decrements BA i = some (LogpQueue.delivered i ⟨0, [logp]⟩ calls) := by
  have hfirst : BucketLog.call i ⟨[], [], []⟩ (.newLogp logp) = ⟨[logp], [0], []⟩ :=
    if_neg fun h => hlogp h.symm
  have hvalid : BucketLog.Valid ⟨[logp], [0], []⟩ := ⟨rfl, rfl, by simp⟩
  have hrec := runBucketCalls_recorded (recorded_init hi size) hrun
  rw [foldl_cons, hfirst] at hrec
  have hvalid' : (calls.foldl (BucketLog.call i) ⟨[logp], [0], []⟩).Valid := by
    have : ∀ (calls : List BucketCall) (log : BucketLog), log.Valid →
        (calls.foldl (BucketLog.call i) log).Valid := fun calls => by
      induction calls with
      | nil => exact fun log h => h
      | cons c calls ih => exact fun log h => ih _ (h.call i c)
    exact this calls _ hvalid
  rw [decrements_of_recorded hrec hvalid', hvalid.readFrom_foldl]
  rfl

/-! ## Room for the calls -/

/-- The updates go to buckets of the array, and no bucket gets more than it has room for. -/
structure WithinBuckets (n size : ℕ) (calls : List BucketCall) : Prop where
  index : ∀ i update, .push i update ∈ calls → i < n
  room : ∀ i < n, (updatesOf i calls).length ≤ size

theorem updatesOf_push (i k : ℕ) (update : BucketUpdate) (calls : List BucketCall) :
    updatesOf i (.push k update :: calls)
      = if k = i then update :: updatesOf i calls else updatesOf i calls := by
  unfold updatesOf
  split_ifs with h
  · rw [List.filterMap_cons_some (by simp only [h]; rfl)]
  · rw [List.filterMap_cons_none (by simp only [h]; rfl)]

section Room

variable {BA : BucketArray} {calls : List BucketCall} {k : ℕ} {update : BucketUpdate}

theorem pushBucketUpdate_of_room (hk : k < BA.buckets.length)
    (hlt : BA.buckets[k].updates.length < BA.bucketSize) :
    pushBucketUpdate BA k update = some { BA with
      buckets := BA.buckets.set k
        { BA.buckets[k] with updates := BA.buckets[k].updates ++ [update] } } := by
  unfold pushBucketUpdate
  rw [getElem?_eq_getElem hk, some_bind, assertAlways_of_true hlt]
  rfl

theorem room_push
    (hroom : ∀ i b, BA.buckets[i]? = some b →
      b.updates.length + (updatesOf i (.push k update :: calls)).length ≤ BA.bucketSize)
    (hk : k < BA.buckets.length) :
    ∀ i b, (BA.buckets.set k
        { BA.buckets[k] with updates := BA.buckets[k].updates ++ [update] })[i]? = some b →
      b.updates.length + (updatesOf i calls).length ≤ BA.bucketSize := by
  intro i b hib
  by_cases hki : k = i
  · subst hki
    rw [List.getElem?_set_self hk] at hib
    obtain rfl := some_inj.mp hib
    have hleft := hroom k _ (getElem?_eq_getElem hk)
    rw [updatesOf_push, if_pos rfl, length_cons] at hleft
    simp only [length_append, length_singleton]
    omega
  · rw [List.getElem?_set_ne hki] at hib
    have hleft := hroom i b hib
    rwa [updatesOf_push, if_neg hki] at hleft

/-- The calls succeed as long as the table of logarithms has room. -/
theorem runBucketCalls_isSome_iff
    (hfits : BA.nrLogp * BA.nBucket < 2 ^ 31)
    (hindex : ∀ i update, .push i update ∈ calls → i < BA.nBucket)
    (hroom : ∀ i b, BA.buckets[i]? = some b →
      b.updates.length + (updatesOf i calls).length ≤ BA.bucketSize) :
    (∃ BA', runBucketCalls BA calls = some BA') ↔
      (BA.nrLogp + logpChanges BA.lastLogp calls) * BA.nBucket < 2 ^ 31 := by
  induction calls generalizing BA with
  | nil => exact iff_of_true ⟨BA, rfl⟩ hfits
  | cons c calls ih =>
    have hindex' : ∀ i update, .push i update ∈ calls → i < BA.nBucket :=
      fun i update h => hindex i update (List.mem_cons_of_mem _ h)
    unfold runBucketCalls
    rw [List.foldlM_cons]
    cases c with
    | newLogp logp =>
      rw [logpChanges]
      change (∃ BA', (bucketNewLogp BA logp >>= fun BA => runBucketCalls BA calls) = some BA') ↔ _
      unfold bucketNewLogp
      split_ifs with hlast
      · exact ih hfits hindex' hroom
      · by_cases hfit : (BA.nrLogp + 1) * BA.nBucket < 2 ^ 31
        · rw [assertAlways_of_true hfit]
          have hcalls := @ih { BA with
            lastLogp := logp
            logpVal := BA.logpVal ++ [logp]
            logpIdx := BA.logpIdx ++ BA.buckets.map fun b => b.updates.length }
            (by simpa [BucketArray.nrLogp, BucketArray.nBucket] using hfit) hindex' hroom
          rw [BucketArray.nrLogp, length_append, length_singleton, add_assoc, add_comm 1] at hcalls
          exact hcalls
        · rw [assertAlways_of_false hfit]
          refine iff_of_false (by simp) fun h => hfit (lt_of_le_of_lt ?_ h)
          exact Nat.mul_le_mul_right _ (by omega)
    | push k update =>
      rw [logpChanges]
      have hk : k < BA.buckets.length := hindex k update List.mem_cons_self
      have hlt : BA.buckets[k].updates.length < BA.bucketSize := by
        have hleft := hroom k _ (getElem?_eq_getElem hk)
        rw [updatesOf_push, if_pos rfl, length_cons] at hleft
        omega
      change (∃ BA', (pushBucketUpdate BA k update >>= fun BA => runBucketCalls BA calls)
        = some BA') ↔ _
      rw [pushBucketUpdate_of_room hk hlt]
      have hcalls := @ih { BA with
        buckets := BA.buckets.set k
          { BA.buckets[k] with updates := BA.buckets[k].updates ++ [update] } }
        (by simpa [BucketArray.nrLogp, BucketArray.nBucket] using hfits)
        (by simpa [BucketArray.nBucket] using hindex') (room_push hroom hk)
      rw [BucketArray.nBucket, List.length_set] at hcalls
      exact hcalls

end Room

/-! ## What is subtracted -/

/-- For the updates of a bucket, `apply_one_bucket` subtracts the values that were current
when they were pushed, if and only if there is room for the recorded pointers and every update
takes a change to the current value from the queue of changes. -/
theorem decrements_eq_current_iff {n size i : ℕ} (hi : i < n) {logp : BitVec 8}
    (hlogp : logp ≠ 0) {calls : List BucketCall}
    (hcalls : WithinBuckets n size (.newLogp logp :: calls)) :
    (∃ BA, runBucketCalls (initBucketArray n size) (.newLogp logp :: calls) = some BA ∧
      decrements BA i = some (currentDecrements i logp calls) ∧
      ∀ S, applyOneBucket S BA i = some ((currentDecrements i logp calls).foldl sieveDecrease S)) ↔
    logpChanges 0 (.newLogp logp :: calls) * n < 2 ^ 31 ∧ LogpQueue.Timely i ⟨0, [logp]⟩ calls := by
  have hsome := @runBucketCalls_isSome_iff (initBucketArray n size) (.newLogp logp :: calls)
    (by simp [initBucketArray, BucketArray.nrLogp])
    (by simpa [initBucketArray, BucketArray.nBucket] using hcalls.index) (by
      intro k b hb
      obtain ⟨hk, hb⟩ := List.getElem?_eq_some_iff.mp hb
      have hk : k < n := by simpa [initBucketArray] using hk
      have hb : (⟨[], 0⟩ : Bucket) = b := by simpa [initBucketArray] using hb
      subst hb
      simpa [initBucketArray] using hcalls.room k hk)
  have hn : (initBucketArray n size).nBucket = n := List.length_replicate
  rw [hn, show (initBucketArray n size).nrLogp = 0 from rfl, zero_add,
    show (initBucketArray n size).lastLogp = 0 from rfl] at hsome
  have hqueue : LogpQueue.delivered i ⟨0, [logp]⟩ calls = currentDecrements i logp calls ↔
      LogpQueue.Timely i ⟨0, [logp]⟩ calls := LogpQueue.delivered_eq_iff i ⟨0, [logp]⟩ calls
  rw [← hsome, ← hqueue]
  constructor
  · rintro ⟨BA, hrun, hdec, -⟩
    refine ⟨⟨BA, hrun⟩, ?_⟩
    rw [decrements_eq_delivered hi hlogp hrun] at hdec
    exact some_inj.mp hdec
  · rintro ⟨⟨BA, hrun⟩, hsame⟩
    have hdec := decrements_eq_delivered hi hlogp hrun
    rw [hsame] at hdec
    refine ⟨BA, hrun, hdec, fun S => ?_⟩
    rw [applyOneBucket, hdec]
    rfl

theorem decrements_eq_current_twoSteps :
    (∃ BA, runBucketCalls (initBucketArray 2 2)
        [.newLogp 7, .push 0 ⟨5, 50⟩, .newLogp 8, .push 0 ⟨6, 90⟩] = some BA ∧
      decrements BA 0 = some [(5, 7), (6, 8)] ∧
      ∀ S, applyOneBucket S BA 0 = some ([(5, 7), (6, 8)].foldl sieveDecrease S)) ↔
    logpChanges 0 [.newLogp 7, .push 0 ⟨5, 50⟩, .newLogp 8, .push 0 ⟨6, 90⟩] * 2 < 2 ^ 31 ∧
      LogpQueue.Timely 0 ⟨0, [7]⟩ [.push 0 ⟨5, 50⟩, .newLogp 8, .push 0 ⟨6, 90⟩] := by
  refine decrements_eq_current_iff (by decide) (by decide) ⟨?_, by decide⟩
  rintro i update h
  simp at h
  omega

/-- The value changes twice before the first update of the bucket. -/
theorem not_decrements_eq_current :
    ∃ BA, runBucketCalls (initBucketArray 2 2) [.newLogp 7, .newLogp 8, .push 0 ⟨5, 90⟩]
        = some BA ∧
      decrements BA 0 = some [(5, 7)] ∧
      currentDecrements 0 7 [.newLogp 8, .push 0 ⟨5, 90⟩] = [(5, 8)] ∧
      ∃ S S', applyOneBucket S BA 0 = some S' ∧ S 5 - S' 5 = 7 :=
  ⟨_, rfl, by decide, rfl, fun _ => 200, _, rfl, by decide⟩

end CadoNfs
