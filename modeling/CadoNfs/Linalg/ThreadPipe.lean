import Mathlib.Data.BitVec
import Mathlib.Data.List.GetD
import Mathlib.Data.List.Range
import CadoNfs.Linalg.EndpointLoop

/-!
# The pipe between two threads

`thread_dest_put` and `thread_source_get` of `balancing_workhorse.c`, step by step: what the two
threads do may happen in any order, with locked updates as single steps.

Main results:

- Theorem `Inv.step`: what every step of either thread keeps.
- Theorems `Inv.put_call` and `Inv.close_call`: the steps of a call are `threadDestPut` and
  `threadDestClose`.
- Theorem `threadPipe_spec`: the reader gets what the writer has put.
-/

namespace CadoNfs.ThreadPipe

open Balancing (batchsize threadDestPut threadDestClose)
open Function (iterate_add_apply iterate_one iterate_succ_apply iterate_succ_apply' update
  update_of_ne)

/-! ## Code -/

/-- The size of a pipe: its buffer has addresses of 64 bits. -/
structure Pipe where
  size : ℕ
  addressable : 4 * size < 2 ^ 64

/-- `SIZE_MAX`. -/
def sizeMax : ℕ := 2 ^ 64 - 1

/-- The difference of two values of type `size_t`. -/
def sizeSub (a b : ℕ) : ℕ := (a + 2 ^ 64 - b) % 2 ^ 64

/-- Where the writer is: between two calls, in the copy of the words `p` of which `k` are there,
in the tests after it, before one of the two locked updates, or past the last call. -/
inductive Writer where
  | ready
  | copying (p : List (BitVec 32)) (k : ℕ) (close : Bool)
  | checking (close : Bool)
  | publishing (more : ℕ)
  | closing
  | closed

/-- Where the reader is: between two calls, after the assertion, in the loop with the lock, or in
`pthread_cond_wait`. -/
inductive Reader where
  | ready
  | entered
  | locked
  | waiting

/-- The variables of the pipe and of its two ends.  The words put so far are `put`, and `chunks` has
the place and the length of what the calls of the reader have returned since the last rewind. -/
structure State where
  buf : ℕ → BitVec 32
  destPos : ℕ
  avail : ℕ
  total : ℕ
  srcPos : ℕ
  writer : Writer
  reader : Reader
  put : List (BitVec 32)
  chunks : List (ℕ × ℕ)
  failed : Bool

/-- `thread_pipe_alloc`; `mem` is what `malloc` leaves in the buffer. -/
def threadPipeAlloc (mem : ℕ → BitVec 32) : State :=
  ⟨mem, 0, 0, sizeMax, 0, .ready, .ready, [], [], false⟩

/-- A call of `thread_dest_put`, up to the copy; `close` is the test that `p` is `NULL`. -/
def State.callPut (s : State) (t : Pipe) (p : List (BitVec 32)) (close : Bool) : State :=
  if s.destPos + p.length > t.size then { s with failed := true }
  else { s with writer := .copying p 0 close }

/-- The next step of `thread_dest_put`. -/
def State.writerStep (s : State) : State :=
  match s.writer with
  | .ready | .closed => s
  | .copying p k close =>
    if k < p.length then
      { s with
        buf := update s.buf (s.destPos + k) (p.getD k 0#32)
        writer := .copying p (k + 1) close }
    else
      { s with destPos := s.destPos + p.length, put := s.put ++ p, writer := .checking close }
  | .checking close =>
    if s.avail % batchsize ≠ 0 then { s with failed := true }
    else if close then { s with writer := .closing }
    else if sizeSub s.destPos s.avail > batchsize then
      let more := sizeSub (sizeSub s.destPos (s.destPos % batchsize)) s.avail
      if more = 0 then { s with failed := true } else { s with writer := .publishing more }
    else { s with writer := .ready }
  | .publishing more => { s with avail := (s.avail + more) % 2 ^ 64, writer := .ready }
  | .closing => { s with avail := s.destPos, total := s.destPos, writer := .closed }

/-- `thread_source_get` returns. -/
def State.give (s : State) (n : ℕ) : State :=
  { s with srcPos := s.srcPos + n, chunks := s.chunks ++ [(s.srcPos, n)], reader := .ready }

/-- The next step of `thread_source_get`: between two calls it is the next call, with `avail` equal
to zero, and in a wait it is a wake-up. -/
def State.readerStep (s : State) : State :=
  let n := sizeSub s.avail s.srcPos
  match s.reader with
  | .ready =>
    if s.srcPos ≤ s.avail then { s with reader := .entered } else { s with failed := true }
  | .entered => if n ≠ 0 then s.give n else { s with reader := .locked }
  | .locked => if n = 0 ∧ s.avail < s.total then { s with reader := .waiting } else s.give n
  | .waiting =>
    if s.srcPos ≤ s.avail then { s with reader := .locked } else { s with failed := true }

/-- `thread_source_rewind`. -/
def State.rewind (s : State) : State := { s with srcPos := 0, chunks := [] }

/-- One step of either thread.  All the words fit in the pipe, one call closes it, and only then the
reader goes back to the start. -/
inductive Step (t : Pipe) (s : State) : State → Prop
  | put (p : List (BitVec 32)) (hw : s.writer = .ready) (hfit : s.destPos + p.length ≤ t.size) :
    Step t s (s.callPut t p false)
  | close (hw : s.writer = .ready) : Step t s (s.callPut t [] true)
  | writer : Step t s s.writerStep
  | reader : Step t s s.readerStep
  | rewind (hw : s.writer = .closed) (hr : s.reader = .ready) : Step t s s.rewind

/-- The words that have been returned. -/
def State.contents (s : State) : List (BitVec 32) :=
  s.chunks.flatMap fun c => (List.range' c.1 c.2).map s.buf

/-! ## What every step keeps -/

section Invariant

variable {t : Pipe} {s : State} {a b n : ℕ}

/-- What holds of the writer where it is. -/
def WriterInv (t : Pipe) (s : State) : Prop :=
  match s.writer with
  | .copying p k _ => s.destPos + p.length ≤ t.size ∧
      ∀ i < k, s.buf (s.destPos + i) = p.getD i 0#32
  | .publishing more => s.avail + more ≤ s.destPos ∧ (s.avail + more) % batchsize = 0
  | .closed => s.avail = s.destPos ∧ s.total = s.destPos
  | _ => True

/-- What holds after any steps of the two threads. -/
structure Inv (t : Pipe) (s : State) : Prop where
  failed : s.failed = false
  length : s.put.length = s.destPos
  fits : s.destPos ≤ t.size
  written : ∀ i < s.destPos, s.buf i = s.put.getD i 0#32
  avail_le : s.avail ≤ s.destPos
  src_le : s.srcPos ≤ s.avail
  writer : WriterInv t s
  batch : s.writer ≠ .closed → s.total = sizeMax ∧ s.avail % batchsize = 0
  chunks : (s.chunks.flatMap fun c => List.range' c.1 c.2) = List.range s.srcPos
  zero : ∀ c ∈ s.chunks, c.2 = 0 → s.writer = .closed ∧ s.srcPos = s.destPos

theorem sizeSub_of_le (h : b ≤ a) (ha : a < 2 ^ 64) : sizeSub a b = a - b := by
  unfold sizeSub
  omega

theorem Inv.lt (h : Inv t s) : s.destPos < 2 ^ 62 := by
  have hfits := h.fits
  have haddr := t.addressable
  omega

theorem inv_alloc (mem : ℕ → BitVec 32) : Inv t (threadPipeAlloc mem) where
  failed := rfl
  length := rfl
  fits := Nat.zero_le _
  written := nofun
  avail_le := le_rfl
  src_le := le_rfl
  writer := trivial
  batch := fun _ => ⟨rfl, rfl⟩
  chunks := rfl
  zero := nofun

theorem Inv.ne_zero (h : Inv t s) (hopen : s.writer ≠ .closed) {c : ℕ × ℕ} (hc : c ∈ s.chunks) :
    c.2 ≠ 0 := fun h0 => hopen (h.zero c hc h0).1

theorem Inv.callPut (h : Inv t s) (hw : s.writer = .ready) {p : List (BitVec 32)} (close : Bool)
    (hfit : s.destPos + p.length ≤ t.size) : Inv t (s.callPut t p close) := by
  have hopen : s.writer ≠ .closed := by rw [hw]; nofun
  rw [State.callPut, if_neg (not_lt.mpr hfit)]
  exact { h with
    writer := ⟨hfit, nofun⟩
    batch := fun _ => h.batch hopen
    zero := fun c hc h0 => absurd h0 (h.ne_zero hopen hc) }

/-- A step of the writer: what it copies is behind the words of the reader, and what it publishes
has been copied. -/
theorem Inv.writerStep (h : Inv t s) : Inv t s.writerStep := by
  have hlt := h.lt
  have hw := h.writer
  unfold WriterInv at hw
  unfold State.writerStep
  cases hwr : s.writer with
  | ready => exact h
  | closed => exact h
  | copying p k close =>
    have hopen : s.writer ≠ .closed := by rw [hwr]; nofun
    rw [hwr] at hw
    obtain ⟨hfit, hk⟩ := hw
    dsimp only
    split_ifs with hmore
    · refine { h with
        written := fun i hi => ?_
        writer := ⟨hfit, fun i hi => ?_⟩
        batch := fun _ => h.batch hopen
        zero := fun c hc h0 => absurd h0 (h.ne_zero hopen hc) }
      · dsimp only at hi ⊢
        rw [update_of_ne (by omega), h.written i hi]
      · dsimp only
        rcases Nat.lt_succ_iff_lt_or_eq.mp hi with hlt | rfl
        · rw [update_of_ne (by omega), hk i hlt]
        · exact Function.update_self _ _ _
    · refine { h with
        length := by rw [List.length_append, h.length]
        fits := hfit
        written := fun i hi => ?_
        avail_le := h.avail_le.trans (Nat.le_add_right _ _)
        writer := trivial
        batch := fun _ => h.batch hopen
        zero := fun c hc h0 => absurd h0 (h.ne_zero hopen hc) }
      dsimp only at hi ⊢
      rcases Nat.lt_or_ge i s.destPos with hold | hnew
      · rw [List.getD_append _ _ _ _ (h.length ▸ hold), h.written i hold]
      · rw [List.getD_append_right _ _ _ _ (h.length ▸ hnew), h.length, ← hk _ (by omega),
          Nat.add_sub_cancel' hnew]
  | checking close =>
    have hopen : s.writer ≠ .closed := by rw [hwr]; nofun
    obtain ⟨htotal, hbatch⟩ := h.batch hopen
    have havail := h.avail_le
    have hmod : s.destPos % batchsize ≤ s.destPos := Nat.mod_le _ _
    dsimp only
    rw [if_neg (not_not.mpr hbatch), sizeSub_of_le havail (by omega), sizeSub_of_le hmod (by omega)]
    split_ifs with hclose hmore hzero
    · exact { h with
        writer := trivial
        batch := fun _ => h.batch hopen
        zero := fun c hc h0 => absurd h0 (h.ne_zero hopen hc) }
    · unfold batchsize at hmore hzero hmod
      rw [sizeSub_of_le (by omega) (by omega)] at hzero
      omega
    · have hwhole : s.avail ≤ s.destPos - s.destPos % batchsize := by
        unfold batchsize at hmore hmod ⊢
        omega
      have hbatches : (s.destPos - s.destPos % batchsize) % batchsize = 0 := by
        unfold batchsize
        omega
      rw [sizeSub_of_le hwhole (by omega)]
      have hsum := Nat.add_sub_cancel' hwhole
      exact { h with
        writer := ⟨hsum.le.trans (Nat.sub_le _ _), by dsimp only; rw [hsum, hbatches]⟩
        batch := fun _ => h.batch hopen
        zero := fun c hc h0 => absurd h0 (h.ne_zero hopen hc) }
    · exact { h with
        writer := trivial
        batch := fun _ => h.batch hopen
        zero := fun c hc h0 => absurd h0 (h.ne_zero hopen hc) }
  | publishing more =>
    have hopen : s.writer ≠ .closed := by rw [hwr]; nofun
    rw [hwr] at hw
    obtain ⟨hle, hbatch⟩ := hw
    have hsum : (s.avail + more) % 2 ^ 64 = s.avail + more := Nat.mod_eq_of_lt (by omega)
    dsimp only
    rw [hsum]
    exact { h with
      avail_le := hle
      src_le := h.src_le.trans (Nat.le_add_right _ _)
      writer := trivial
      batch := fun _ => ⟨(h.batch hopen).1, hbatch⟩
      zero := fun c hc h0 => absurd h0 (h.ne_zero hopen hc) }
  | closing =>
    have hopen : s.writer ≠ .closed := by rw [hwr]; nofun
    exact { h with
      avail_le := le_rfl
      src_le := h.src_le.trans h.avail_le
      writer := ⟨rfl, rfl⟩
      batch := fun hne => absurd rfl hne
      zero := fun c hc h0 => absurd h0 (h.ne_zero hopen hc) }

/-- A call of the reader returns the words up to `avail`. -/
theorem Inv.give (h : Inv t s)
    (hz : s.avail - s.srcPos = 0 → s.writer = .closed ∧ s.srcPos = s.destPos) :
    Inv t (s.give (s.avail - s.srcPos)) := by
  have hsrc := h.src_le
  have havail := h.avail_le
  refine { h with
    src_le := (Nat.add_sub_cancel' hsrc).le
    chunks := ?_
    zero := fun c hc h0 => ?_ }
  · dsimp only [State.give]
    rw [List.flatMap_append, h.chunks, List.flatMap_singleton, List.range_eq_range',
      List.range_eq_range', ← List.range'_append_1, zero_add]
  · dsimp only [State.give] at hc ⊢
    rcases List.mem_append.mp hc with hold | hnew
    · obtain ⟨hclosed, heq⟩ := h.zero c hold h0
      exact ⟨hclosed, by omega⟩
    · rw [List.mem_singleton.mp hnew] at h0
      obtain ⟨hclosed, heq⟩ := hz h0
      exact ⟨hclosed, by omega⟩

/-- A step of the reader, which is told the end only when the pipe is closed. -/
theorem Inv.readerStep (h : Inv t s) : Inv t s.readerStep := by
  have hlt := h.lt
  have havail := h.avail_le
  unfold State.readerStep
  dsimp only
  rw [sizeSub_of_le h.src_le (by omega)]
  cases s.reader with
  | ready =>
    dsimp only
    rw [if_pos h.src_le]
    exact { h with }
  | entered =>
    dsimp only
    split_ifs with hn
    · exact h.give fun h0 => absurd h0 hn
    · exact { h with }
  | locked =>
    dsimp only
    split_ifs with hn
    · exact { h with }
    · refine h.give fun h0 => ?_
      have hclosed : s.writer = .closed := by
        by_contra hopen
        have htotal := (h.batch hopen).1
        unfold sizeMax at htotal
        exact hn ⟨h0, by omega⟩
      have hw := h.writer
      rw [WriterInv, hclosed] at hw
      have hsrc := h.src_le
      exact ⟨hclosed, by omega⟩
  | waiting =>
    dsimp only
    rw [if_pos h.src_le]
    exact { h with }

/-- One step of either thread. -/
theorem Inv.step {s' : State} (h : Inv t s) (hstep : Step t s s') : Inv t s' := by
  cases hstep with
  | put p hw hfit => exact h.callPut hw false hfit
  | close hw => exact h.callPut hw true h.fits
  | writer => exact h.writerStep
  | reader => exact h.readerStep
  | rewind =>
    exact { h with
      src_le := Nat.zero_le _
      chunks := rfl
      zero := nofun }

/-! ## Calls of the writer -/

/-- The pipe with its destination, without the reader. -/
def State.pipe (t : Pipe) (s : State) : Balancing.ThreadPipe :=
  ⟨t.size, s.put, s.avail, if s.total = sizeMax then none else some s.total⟩

/-- The copy of the words, one after the other. -/
theorem iterate_copying (s : State) (p : List (BitVec 32)) (close : Bool) (k : ℕ)
    (hk : k ≤ p.length) :
    ∃ buf, State.writerStep^[k] { s with writer := .copying p 0 close } =
      { s with buf := buf, writer := .copying p k close } := by
  induction k with
  | zero => exact ⟨s.buf, rfl⟩
  | succ k ih =>
    obtain ⟨buf, heq⟩ := ih (Nat.le_of_succ_le hk)
    rw [iterate_succ_apply', heq, State.writerStep]
    dsimp only
    rw [if_pos (show k < p.length from hk)]
    exact ⟨_, rfl⟩

/-- A call up to the tests after the copy. -/
theorem iterate_callPut (s : State) {p : List (BitVec 32)} (close : Bool)
    (hfit : s.destPos + p.length ≤ t.size) :
    ∃ buf, State.writerStep^[p.length + 1] (s.callPut t p close) =
      { s with
        buf := buf
        destPos := s.destPos + p.length
        put := s.put ++ p
        writer := .checking close } := by
  obtain ⟨buf, heq⟩ := iterate_copying s p close p.length le_rfl
  rw [State.callPut, if_neg (not_lt.mpr hfit), iterate_succ_apply', heq, State.writerStep]
  dsimp only
  rw [if_neg (lt_irrefl _)]
  exact ⟨buf, rfl⟩

/-- What the reader may have after a call: whole batches, once there are enough words. -/
def published (pos avail : ℕ) : ℕ :=
  if batchsize < pos - avail then pos - pos % batchsize else avail

/-- The tests after the copy, and the locked update. -/
theorem iterate_checking (hw : s.writer = .checking false) (hle : s.avail ≤ s.destPos)
    (hlt : s.destPos < 2 ^ 62) (hbatch : s.avail % batchsize = 0) :
    ∃ k, State.writerStep^[k] s =
      { s with avail := published s.destPos s.avail, writer := .ready } := by
  have hstep : s.writerStep = if s.destPos - s.avail > batchsize then
      let more := sizeSub (sizeSub s.destPos (s.destPos % batchsize)) s.avail
      if more = 0 then { s with failed := true } else { s with writer := .publishing more }
    else { s with writer := .ready } := by
    rw [State.writerStep, hw]
    dsimp only
    rw [if_neg (not_not.mpr hbatch), if_neg (by decide), sizeSub_of_le hle (by omega)]
  unfold published
  split_ifs at hstep ⊢ with hmore
  · have hmod : s.destPos % batchsize ≤ s.destPos := Nat.mod_le _ _
    have hwhole : s.avail < s.destPos - s.destPos % batchsize := by
      unfold batchsize at hmore hbatch ⊢
      omega
    dsimp only at hstep
    rw [sizeSub_of_le hmod (by omega), sizeSub_of_le hwhole.le (by omega), if_neg (by omega)]
      at hstep
    refine ⟨2, ?_⟩
    rw [iterate_succ_apply, iterate_one, hstep, State.writerStep]
    dsimp only
    rw [Nat.add_sub_cancel' hwhole.le, Nat.mod_eq_of_lt (by omega)]
  · exact ⟨1, hstep⟩

/-- `threadDestPut` of the pipe of a writer that is between two calls. -/
theorem Inv.threadDestPut_pipe (h : Inv t s) (hopen : s.writer ≠ .closed) {p : List (BitVec 32)}
    (hfit : s.destPos + p.length ≤ t.size) :
    threadDestPut (s.pipe t) p = some { s.pipe t with
      words := s.put ++ p, avail := published (s.destPos + p.length) s.avail } := by
  obtain ⟨-, hbatch⟩ := h.batch hopen
  have havail := h.avail_le
  rw [threadDestPut, assertAlways_of_true (by rw [State.pipe, h.length]; exact hfit)]
  dsimp only [State.pipe, Option.bind_eq_bind, Option.bind_some]
  rw [assertAlways_of_true hbatch, List.length_append, h.length]
  dsimp only [Option.bind_some]
  unfold published
  by_cases hmore : batchsize < s.destPos + p.length - s.avail
  · have hwhole : s.avail < s.destPos + p.length - (s.destPos + p.length) % batchsize := by
      unfold batchsize at hmore hbatch ⊢
      omega
    rw [if_pos hmore, if_pos hmore, assertAlways_of_true (by omega),
      Nat.add_sub_cancel' hwhole.le]
    rfl
  · rw [if_neg hmore, if_neg hmore]

/-- The steps of a call with words do what `thread_dest_put` does as a whole. -/
theorem Inv.put_call (h : Inv t s) (hw : s.writer = .ready) {p : List (BitVec 32)}
    (hfit : s.destPos + p.length ≤ t.size) :
    ∃ k, (State.writerStep^[k] (s.callPut t p false)).writer = .ready ∧
      (State.writerStep^[k] (s.callPut t p false)).put = s.put ++ p ∧
      threadDestPut (s.pipe t) p = some ((State.writerStep^[k] (s.callPut t p false)).pipe t) := by
  have hopen : s.writer ≠ .closed := by rw [hw]; nofun
  have haddr := t.addressable
  have havail := h.avail_le
  obtain ⟨buf, hcopy⟩ := iterate_callPut s false hfit
  obtain ⟨k, hcheck⟩ := iterate_checking (s := { s with
    buf := buf
    destPos := s.destPos + p.length
    put := s.put ++ p
    writer := .checking false }) rfl (by dsimp only; omega) (by dsimp only; omega)
    (h.batch hopen).2
  refine ⟨k + (p.length + 1), ?_⟩
  rw [iterate_add_apply, hcopy, hcheck, h.threadDestPut_pipe hopen hfit]
  exact ⟨rfl, rfl, rfl⟩

/-- The steps of the last call close the pipe. -/
theorem Inv.close_call (h : Inv t s) (hw : s.writer = .ready) :
    ∃ k, (State.writerStep^[k] (s.callPut t [] true)).writer = .closed ∧
      (State.writerStep^[k] (s.callPut t [] true)).put = s.put ∧
      threadDestClose (s.pipe t) = some ((State.writerStep^[k] (s.callPut t [] true)).pipe t) := by
  obtain ⟨-, hbatch⟩ := h.batch (by rw [hw]; nofun)
  have hlt := h.lt
  have hclose : threadDestClose (s.pipe t) =
      some { s.pipe t with avail := s.put.length, total := some s.put.length } := by
    rw [threadDestClose, assertAlways_of_true (by rw [State.pipe, h.length]; exact h.fits)]
    exact congrArg (Option.bind · _) (assertAlways_of_true hbatch)
  obtain ⟨buf, heq⟩ := iterate_callPut s (t := t) (p := []) true h.fits
  have hne : ¬s.destPos = sizeMax := by
    unfold sizeMax
    omega
  refine ⟨3, ?_⟩
  rw [iterate_succ_apply', iterate_succ_apply', show State.writerStep^[1] _ = _ from heq, hclose]
  simp [State.writerStep, State.pipe, hbatch, hne, h.length]

/-! ## Runs -/

theorem writer_run (s : State) (k : ℕ) :
    Relation.ReflTransGen (Step t) s (State.writerStep^[k] s) :=
  Function.Iterate.rec _ .refl (fun _ h => h.tail .writer) k

theorem reader_run (s : State) (k : ℕ) :
    Relation.ReflTransGen (Step t) s (State.readerStep^[k] s) :=
  Function.Iterate.rec _ .refl (fun _ h => h.tail .reader) k

theorem Inv.contents_eq (h : Inv t s) : s.contents = s.put.take s.srcPos := by
  have hsrc := h.src_le.trans h.avail_le
  have hmap : s.contents = (List.range s.srcPos).map s.buf := by
    rw [State.contents, ← h.chunks, List.map_flatMap]
  rw [hmap]
  apply List.ext_getElem
  · rw [List.length_map, List.length_range, List.length_take, h.length, min_eq_left hsrc]
  · intro i hi hi'
    rw [List.length_map, List.length_range] at hi
    rw [List.getElem_map, List.getElem_range, List.getElem_take, h.written i (by omega),
      List.getD_eq_getElem]

theorem readerStep_ready (hr : s.reader = .ready) (hle : s.srcPos ≤ s.avail) :
    s.readerStep = { s with reader := .entered } := by
  unfold State.readerStep
  rw [hr]
  exact if_pos hle

theorem readerStep_entered (hr : s.reader = .entered) :
    s.readerStep = if sizeSub s.avail s.srcPos ≠ 0 then s.give (sizeSub s.avail s.srcPos)
      else { s with reader := .locked } := by
  unfold State.readerStep
  rw [hr]

theorem readerStep_locked (hr : s.reader = .locked) (hle : s.total ≤ s.avail) :
    s.readerStep = s.give (sizeSub s.avail s.srcPos) := by
  unfold State.readerStep
  rw [hr]
  exact if_neg fun hwait => not_lt.mpr hle hwait.2

theorem Inv.get_rest (h : Inv t s) (hw : s.writer = .closed) (hr : s.reader = .ready) :
    ∃ k, (State.readerStep^[k] s).reader = .ready ∧ (State.readerStep^[k] s).contents = s.put := by
  have hlt := h.lt
  have hclosed := h.writer
  rw [WriterInv, hw] at hclosed
  obtain ⟨havail, htotal⟩ := hclosed
  have hsrc := h.src_le
  have hinv : ∀ k, Inv t (State.readerStep^[k] s) := fun k =>
    Function.Iterate.rec (Inv t) h (fun _ h => h.readerStep) k
  have hn : sizeSub s.avail s.srcPos = s.put.length - s.srcPos := by
    rw [sizeSub_of_le hsrc (by omega), h.length, havail]
  have hcall : ∃ k, (State.readerStep^[k] s).reader = .ready ∧
      (State.readerStep^[k] s).srcPos = s.put.length ∧ (State.readerStep^[k] s).put = s.put := by
    have hle : s.srcPos ≤ s.put.length := by rw [h.length, ← havail]; exact hsrc
    by_cases h0 : s.put.length - s.srcPos = 0
    · refine ⟨3, ?_⟩
      rw [iterate_succ_apply, readerStep_ready hr hsrc, iterate_succ_apply,
        readerStep_entered rfl, hn, if_neg (not_not.mpr h0), iterate_one,
        readerStep_locked (s := { s with reader := .locked }) rfl (htotal.le.trans havail.ge), hn]
      exact ⟨rfl, Nat.add_sub_cancel' hle, rfl⟩
    · refine ⟨2, ?_⟩
      rw [iterate_succ_apply, readerStep_ready hr hsrc, iterate_one,
        readerStep_entered rfl, hn, if_pos h0]
      exact ⟨rfl, Nat.add_sub_cancel' hle, rfl⟩
  obtain ⟨k, hready, hpos, hput⟩ := hcall
  refine ⟨k, hready, ?_⟩
  rw [(hinv k).contents_eq, hpos, hput, List.take_length]

/-- After any steps of the two threads no assertion has failed, the reader has the first of the
words that were put, it was told the end only after all of them, and a closed pipe can be read
again.  A call of the writer adds its words, and the last one closes the pipe. -/
theorem threadPipe_spec (t : Pipe) (mem : ℕ → BitVec 32)
    (h : Relation.ReflTransGen (Step t) (threadPipeAlloc mem) s) :
    s.failed = false ∧ s.contents <+: s.put ∧
      (∀ c ∈ s.chunks, c.2 = 0 → s.writer = .closed ∧ s.contents = s.put) ∧
      (s.writer = .closed → s.reader = .ready →
        ∃ k, (State.readerStep^[k] s.rewind).reader = .ready ∧
          (State.readerStep^[k] s.rewind).contents = s.put) ∧
      (s.writer = .ready →
        (∀ p : List (BitVec 32), s.destPos + p.length ≤ t.size →
          ∃ k, (State.writerStep^[k] (s.callPut t p false)).writer = .ready ∧
            (State.writerStep^[k] (s.callPut t p false)).put = s.put ++ p) ∧
        ∃ k, (State.writerStep^[k] (s.callPut t [] true)).writer = .closed ∧
          (State.writerStep^[k] (s.callPut t [] true)).put = s.put) := by
  have hinv : Inv t s := by
    induction h with
    | refl => exact inv_alloc mem
    | tail _ hstep ih => exact ih.step hstep
  refine ⟨hinv.failed, hinv.contents_eq ▸ List.take_prefix _ _, fun c hc h0 => ?_,
    fun hw hr => ?_, fun hw => ⟨fun p hfit => ?_, ?_⟩⟩
  · obtain ⟨hclosed, heq⟩ := hinv.zero c hc h0
    rw [hinv.contents_eq, heq, ← hinv.length, List.take_length]
    exact ⟨hclosed, rfl⟩
  · exact (hinv.step (.rewind hw hr)).get_rest hw hr
  · obtain ⟨k, hready, hput, -⟩ := hinv.put_call hw hfit
    exact ⟨k, hready, hput⟩
  · obtain ⟨k, hclosed, hput, -⟩ := hinv.close_call hw
    exact ⟨k, hclosed, hput⟩

/-- One word is put and the pipe is closed; the reader gets the word, then the end, goes back and
gets the word again. -/
theorem threadPipe_spec_two :
    let t : Pipe := ⟨2, by decide⟩
    let s := State.writerStep^[2] ((threadPipeAlloc 0).callPut t [7#32] false)
    let s := State.writerStep^[3] (s.writerStep.callPut t [] true)
    let r := State.readerStep^[3] (State.readerStep^[2] s)
    let s := State.readerStep^[2] r.rewind
    r.chunks = [(0, 1), (1, 0)] ∧ s.chunks = [(0, 1)] ∧ s.failed = false ∧ s.contents <+: s.put ∧
      (∀ c ∈ s.chunks, c.2 = 0 → s.writer = .closed ∧ s.contents = s.put) := by
  intro t s₁ s₂ r s
  have h₁ : s₁.writerStep =
      ⟨update 0 0 7#32, 1, 0, sizeMax, 0, .ready, .ready, [7#32], [], false⟩ := by
    simp [s₁, t, State.writerStep, State.callPut, threadPipeAlloc, sizeSub, batchsize]
  have h₂ : s₂ = ⟨update 0 0 7#32, 1, 1, 1, 0, .closed, .ready, [7#32], [], false⟩ := by
    simp only [s₂, h₁]
    simp [t, State.writerStep, State.callPut, batchsize]
  have hread : r =
      ⟨update 0 0 7#32, 1, 1, 1, 1, .closed, .ready, [7#32], [(0, 1), (1, 0)], false⟩ := by
    simp only [r, h₂]
    simp [State.readerStep, State.give, sizeSub]
  have hs : s = ⟨update 0 0 7#32, 1, 1, 1, 1, .closed, .ready, [7#32], [(0, 1)],
      false⟩ := by
    simp only [s, hread]
    simp [State.rewind, State.readerStep, State.give, sizeSub]
  have hput := ((Relation.ReflTransGen.single (.put (t := t) (s := threadPipeAlloc 0) [7#32] rfl
    (by decide))).trans (writer_run _ 2)).tail .writer
  have hclose := (hput.tail (.close (congrArg State.writer h₁))).trans (writer_run _ 3)
  have hrewind := ((hclose.trans (reader_run _ 2)).trans (reader_run _ 3)).tail
    (.rewind (congrArg State.writer hread) (congrArg State.reader hread))
  obtain ⟨hfailed, hprefix, hzero, -, -⟩ := threadPipe_spec t 0
    (hrewind.trans (reader_run _ 2))
  exact ⟨congrArg State.chunks hread, congrArg State.chunks hs, hfailed, hprefix, hzero⟩

end Invariant

end CadoNfs.ThreadPipe
