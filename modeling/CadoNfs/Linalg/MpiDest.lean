import Mathlib.Algebra.BigOperators.Group.List.Basic
import Mathlib.Algebra.Group.Action.Defs
import Mathlib.Algebra.Order.Ring.Nat
import Mathlib.Data.Finset.Basic
import CadoNfs.Macros

/-!
# Double buffers that are sent

The dispatcher pushes words to a queue for each thread of another job.  A queue has two
buffers, of which one is filled while the other one is being sent.  The last words of a
buffer say how many words it has, and whether it is the last one.

Main results:

- Theorem `mpiDestPush_spec`: what a push does to the words on their way.
- Theorem `mpiDestClose_spec`: what the closing message carries.
- Theorem `masterRun_spec`: the messages of each queue after a run of the master.
-/

namespace CadoNfs.Balancing

open Function (update update_of_ne update_self)
open List (append_assoc append_nil cons_ne_nil map_congr_left map_nil mem_range range)

/-! ## Code -/

/-- The words of a buffer. -/
abbrev Buffer := ℕ → BitVec 32

/-- `2*iceildiv(sizeof(size_t),sizeof(uint32_t))`. -/
def tailsize : ℕ := 4

/-- `memcpy` of a `size_t` to a buffer. -/
def storeSize (buf : Buffer) (i v : ℕ) : Buffer :=
  update (update buf i (BitVec.ofNat 32 v)) (i + 1) (BitVec.ofNat 32 (v / 2 ^ 32))

/-- `memcpy` of a `size_t` from a buffer. -/
def loadSize (buf : Buffer) (i : ℕ) : ℕ :=
  (buf i).toNat + 2 ^ 32 * (buf (i + 1)).toNat

/-- `mpi_dest`, of which `pending` is not zero while a buffer is being sent. -/
structure MpiDest where
  size : ℕ
  buf : Bool → Buffer
  cur : Bool
  pos : ℕ
  pending : Bool

/-- `mpi_dest_alloc_partial` and `mpi_dest_alloc_one_queue` on memory with
contents `pool`. -/
def mpiDestAlloc (queueSize : ℕ) (pool : Bool → Buffer) : MpiDest :=
  ⟨queueSize, pool, false, 0, false⟩

/-- `mpi_dest_complete_flush`. -/
def mpiDestCompleteFlush (M : MpiDest) : MpiDest :=
  { M with pending := false }

/-- `memset` of the last words of the current buffer. -/
def memsetTail (M : MpiDest) (w : BitVec 32) : MpiDest :=
  { M with buf := update M.buf M.cur fun i =>
      if M.size - tailsize ≤ i ∧ i < M.size then w else M.buf M.cur i }

/-- `mpi_dest_try_flush`: the queue and the buffers given to `MPI_Isend`. -/
def mpiDestTryFlush (M : MpiDest) : Option (MpiDest × List Buffer) :=
  if M.pending then some (M, [])
  else do
    assertAlways (M.pos ≤ M.size - tailsize)
    let buf := storeSize (M.buf M.cur) (M.size - tailsize) M.pos
    some ({ M with
      buf := update M.buf M.cur buf
      pending := true
      cur := !M.cur
      pos := 0 }, [buf])

/-- `mpi_dest_push`. -/
def mpiDestPush (C : MpiDest) (v : BitVec 32) : Option (MpiDest × List Buffer) := do
  let flushed :=
    if C.pos = C.size - tailsize then mpiDestTryFlush (memsetTail (mpiDestCompleteFlush C) 0)
    else some (C, [])
  let (C, sent) ← flushed
  assertAlways (C.pos < C.size - tailsize)
  let C := { C with
    buf := update C.buf C.cur (update (C.buf C.cur) C.pos v)
    pos := C.pos + 1 }
  let flushed :=
    if C.pos = C.size - tailsize then mpiDestTryFlush (memsetTail C 0) else some (C, [])
  let (C, sent') ← flushed
  some (C, sent ++ sent')

/-- `mpi_dest_put` without words, which closes the queue. -/
def mpiDestClose (C : MpiDest) : Option (MpiDest × List Buffer) := do
  let (C, sent) ← mpiDestTryFlush (memsetTail (mpiDestCompleteFlush C) (BitVec.allOnes 32))
  some (mpiDestCompleteFlush C, sent)

/-- What the master does to the queue of a tag. -/
inductive Op
  | push (tag : ℕ) (v : BitVec 32)
  | close (tag : ℕ)

def Op.tag : Op → ℕ
  | push tag _ => tag
  | close tag => tag

/-- What an action does to its queue. -/
def Op.run : Op → MpiDest → Option (MpiDest × List Buffer)
  | push _ v, M => mpiDestPush M v
  | close _, M => mpiDestClose M

/-- One action of the master; the messages that are sent have the tag of the queue. -/
def masterStep (x : ℕ → MpiDest) (op : Op) : Option ((ℕ → MpiDest) × List (ℕ × Buffer)) := do
  let (M, sent) ← op.run (x op.tag)
  some (update x op.tag M, sent.map (op.tag, ·))

/-- A run of the master: the messages that are sent, in order. -/
def masterRun : List Op → (ℕ → MpiDest) → Option (List (ℕ × Buffer))
  | [], _ => some []
  | op :: ops, x => do
    let (x, sent) ← masterStep x op
    let rest ← masterRun ops x
    some (sent ++ rest)

/-! ## Messages -/

/-- The words that a message of a queue carries. -/
def payload (size : ℕ) (buf : Buffer) : List (BitVec 32) :=
  (range (loadSize buf (size - tailsize))).map buf

/-- The mark of a closing message. -/
def isOver (size : ℕ) (buf : Buffer) : Bool :=
  loadSize buf (size - tailsize + 2) ≠ 0

section Messages

variable {size : ℕ} {buf : Buffer} {v i : ℕ}

theorem loadSize_storeSize (buf : Buffer) (i : ℕ) (hv : v < 2 ^ 64) :
    loadSize (storeSize buf i v) i = v := by
  simp only [loadSize, storeSize, update_self,
    update_of_ne (show i ≠ i + 1 by omega), BitVec.toNat_ofNat]
  omega

theorem loadSize_congr {buf' : Buffer} (h : ∀ j, i ≤ j → j < i + 2 → buf j = buf' j) :
    loadSize buf i = loadSize buf' i := by
  rw [loadSize, loadSize, h i (Nat.le_refl i) (by omega), h (i + 1) (by omega) (by omega)]

theorem storeSize_of_ne {j : ℕ} (h : j ≠ i) (h' : j ≠ i + 1) :
    storeSize buf i v j = buf j := by
  rw [storeSize, update_of_ne h', update_of_ne h]

theorem payload_storeSize (hv : v < 2 ^ 64)
    (hle : v ≤ size - tailsize) :
    payload size (storeSize buf (size - tailsize) v) = (range v).map buf := by
  rw [payload, loadSize_storeSize buf _ hv]
  refine map_congr_left fun j hj => ?_
  rw [mem_range] at hj
  exact storeSize_of_ne (by omega) (by omega)

end Messages

/-! ## Queues -/

section Queues

variable {size : ℕ} {M : MpiDest} {words : List (BitVec 32)} {sent : List Buffer} {w v : BitVec 32}

/-- The messages in `sent` are full and carry the first of the words, and the current
buffer has the others.  The buffer that is being sent is not written to. -/
structure Filling (size : ℕ) (words : List (BitVec 32)) (sent : List Buffer) (M : MpiDest) :
    Prop where
  size_eq : M.size = size
  pos_le : M.pos ≤ size - tailsize
  pending_iff : M.pending = true ↔ sent ≠ []
  full : ∀ buf ∈ sent, (payload size buf).length = size - tailsize ∧ isOver size buf = false
  content : sent.flatMap (payload size) ++ (range M.pos).map (M.buf M.cur) = words
  sending : M.pending = true → sent.getLast? = some (M.buf !M.cur)

/-- Between two pushes a full buffer waits for the other one. -/
structure Queued (size : ℕ) (words : List (BitVec 32)) (sent : List Buffer) (M : MpiDest) :
    Prop extends Filling size words sent M where
  pending_of_full : M.pos = size - tailsize → M.pending = true
  one_of_empty : M.pos = 0 → sent.length ≤ 1

theorem queued_alloc (hsize : tailsize < size) (pool : Bool → Buffer) :
    Queued size [] [] (mpiDestAlloc size pool) where
  size_eq := rfl
  pos_le := Nat.zero_le _
  pending_iff := by simp [mpiDestAlloc]
  full := nofun
  content := rfl
  sending := nofun
  pending_of_full := fun h => absurd h (show 0 ≠ size - tailsize by omega)
  one_of_empty := fun _ => Nat.zero_le _

theorem mpiDestTryFlush_memsetTail (hsize : tailsize < size) (hsize' : size < 2 ^ 64)
    (hM : M.size = size) (hpos : M.pos ≤ size - tailsize) (hpending : M.pending = false)
    (hw : w = 0 ∨ w = BitVec.allOnes 32) :
    ∃ M' buf, mpiDestTryFlush (memsetTail M w) = some (M', [buf]) ∧
      payload size buf = (range M.pos).map (M.buf M.cur) ∧
      isOver size buf = decide (w ≠ 0) ∧ M'.size = size ∧ M'.pos = 0 ∧ M'.pending = true ∧
      M'.buf (!M'.cur) = buf := by
  obtain ⟨f, hf⟩ : ∃ f : Buffer, f = fun i =>
    if M.size - tailsize ≤ i ∧ i < M.size then w else M.buf M.cur i := ⟨_, rfl⟩
  have htail : tailsize = 4 := rfl
  have hhead : ∀ i < size - tailsize, f i = M.buf M.cur i := fun i hi => by
    rw [hf, hM]
    exact if_neg (by omega)
  have hover : ∀ i, size - tailsize + 2 ≤ i → i < size → f i = w := fun i hi hi' => by
    rw [hf, hM]
    exact if_pos (by omega)
  have hload : isOver size (storeSize f (size - tailsize) M.pos) = decide (w ≠ 0) := by
    have hcongr : loadSize (storeSize f (size - tailsize) M.pos) (size - tailsize + 2)
        = loadSize (fun _ => w) (size - tailsize + 2) := loadSize_congr fun j hj hj' => by
      rw [storeSize_of_ne (by omega) (by omega), hover j hj (by omega)]
    rw [isOver, hcongr]
    rcases hw with rfl | rfl <;> rfl
  refine ⟨{ memsetTail M w with
    buf := update (memsetTail M w).buf M.cur (storeSize f (size - tailsize) M.pos)
    pending := true
    cur := !M.cur
    pos := 0 }, storeSize f (size - tailsize) M.pos, ?_, ?_, hload, hM, rfl, rfl, ?_⟩
  · have hbuf : (memsetTail M w).buf M.cur = f := (update_self ..).trans hf.symm
    have hpending₁ : ¬(memsetTail M w).pending = true := by
      rw [show (memsetTail M w).pending = M.pending from rfl, hpending]
      exact Bool.false_ne_true
    rw [mpiDestTryFlush, if_neg hpending₁, assertAlways_of_true (hM.symm ▸ hpos), ← hbuf, ← hM]
    rfl
  · rw [payload_storeSize (by omega) hpos]
    exact map_congr_left fun i hi => hhead i (by have := mem_range.mp hi; omega)
  · simp

theorem Filling.flush (hsize : tailsize < size) (hsize' : size < 2 ^ 64)
    (hM : Filling size words sent M) (hfull : M.pos = size - tailsize) :
    ∃ M' buf, mpiDestTryFlush (memsetTail (mpiDestCompleteFlush M) 0) = some (M', [buf]) ∧
      Filling size words (sent ++ [buf]) M' ∧ M'.pos = 0 ∧ M'.pending = true := by
  obtain ⟨M', buf, hrun, hpayload, hover, hM', hpos, hpending, hsending⟩ :=
    mpiDestTryFlush_memsetTail (M := mpiDestCompleteFlush M) hsize hsize' hM.size_eq hM.pos_le rfl
      (Or.inl (Eq.refl (0 : BitVec 32)))
  refine ⟨M', buf, hrun, ⟨hM', by omega, ?_, fun b hb => ?_, ?_, fun _ => ?_⟩, hpos, hpending⟩
  · exact ⟨fun _ => List.append_ne_nil_of_right_ne_nil sent (cons_ne_nil buf []),
      fun _ => hpending⟩
  · rcases List.mem_append.mp hb with hb | hb
    · exact hM.full b hb
    · rw [List.mem_singleton.mp hb, hpayload, List.length_map, List.length_range]
      exact ⟨hfull, hover⟩
  · rw [hpos, List.flatMap_append, List.flatMap_singleton, hpayload, List.range_zero,
      map_nil, append_nil]
    exact hM.content
  · rw [hsending, List.getLast?_concat]

theorem Filling.store (hM : Filling size words sent M) (hpos : M.pos < size - tailsize)
    (v : BitVec 32) :
    Filling size (words ++ [v]) sent { M with
      buf := update M.buf M.cur (update (M.buf M.cur) M.pos v)
      pos := M.pos + 1 } where
  size_eq := hM.size_eq
  pos_le := hpos
  pending_iff := hM.pending_iff
  full := hM.full
  content := by
    dsimp only
    rw [update_self, List.range_succ, List.map_append, List.map_singleton,
      update_self, ← append_assoc, ← hM.content]
    refine congrArg (fun l => sent.flatMap (payload size) ++ l ++ [v]) ?_
    refine map_congr_left fun i hi => ?_
    rw [update_of_ne (Nat.ne_of_lt (mem_range.mp hi))]
  sending := fun h => by
    dsimp only
    rw [update_of_ne (show (!M.cur) ≠ M.cur by simp)]
    exact hM.sending h

theorem Filling.memsetTail (hM : Filling size words sent M) (w : BitVec 32) :
    Filling size words sent (memsetTail M w) where
  size_eq := hM.size_eq
  pos_le := hM.pos_le
  pending_iff := hM.pending_iff
  full := hM.full
  content := by
    rw [← hM.content]
    refine congrArg (sent.flatMap (payload size) ++ ·) (map_congr_left fun i hi => ?_)
    have hi : i < M.pos := mem_range.mp hi
    have hpos := hM.pos_le
    simp only [Balancing.memsetTail]
    rw [update_self, if_neg (by rw [hM.size_eq]; omega)]
  sending := fun h => by
    simp only [Balancing.memsetTail]
    rw [update_of_ne (show (!M.cur) ≠ M.cur by simp)]
    exact hM.sending h

/-- The queue after a word has been stored. -/
def storeWord (C : MpiDest) (v : BitVec 32) : MpiDest :=
  { C with
    buf := update C.buf C.cur (update (C.buf C.cur) C.pos v)
    pos := C.pos + 1 }

theorem mpiDestPush_eq {C C₁ C₂ : MpiDest} {sent₁ sent₂ : List Buffer}
    (hfirst : (if C.pos = C.size - tailsize then
        mpiDestTryFlush (memsetTail (mpiDestCompleteFlush C) 0) else some (C, []))
      = some (C₁, sent₁))
    (hpos : C₁.pos < C₁.size - tailsize)
    (hsecond : (if (storeWord C₁ v).pos = (storeWord C₁ v).size - tailsize then
        mpiDestTryFlush (memsetTail (storeWord C₁ v) 0) else some (storeWord C₁ v, []))
      = some (C₂, sent₂)) :
    mpiDestPush C v = some (C₂, sent₁ ++ sent₂) := by
  unfold storeWord at hsecond
  simp only [mpiDestPush, hfirst, assertAlways_of_true hpos, hsecond, some_bind]

theorem Filling.afterStore (hsize : tailsize < size) (hsize' : size < 2 ^ 64)
    (hM : Filling size words sent M) (hpos : 0 < M.pos) (hsent : M.pending = false → sent = []) :
    ∃ M' sent', (if M.pos = M.size - tailsize then mpiDestTryFlush (Balancing.memsetTail M 0)
        else some (M, [])) = some (M', sent') ∧ Queued size words (sent ++ sent') M' := by
  rw [hM.size_eq]
  by_cases hfull : M.pos = size - tailsize
  · rw [if_pos hfull]
    cases hpending : M.pending with
    | true =>
      refine ⟨Balancing.memsetTail M 0, [], if_pos hpending, ?_⟩
      rw [append_nil]
      exact ⟨hM.memsetTail 0, fun _ => hpending, fun h => absurd h (show M.pos ≠ 0 by omega)⟩
    | false =>
      have hcomplete : mpiDestCompleteFlush M = M := by
        rw [mpiDestCompleteFlush, ← hpending]
      obtain ⟨M', buf, hrun, hM', -, hpending'⟩ := hM.flush hsize hsize' hfull
      rw [hcomplete] at hrun
      refine ⟨M', [buf], hrun, hM', fun _ => hpending', fun _ => ?_⟩
      rw [hsent hpending]
      exact le_refl 1
  · rw [if_neg hfull]
    refine ⟨M, [], rfl, ?_⟩
    rw [append_nil]
    exact ⟨hM, fun h => absurd h hfull, fun h => absurd h (by omega)⟩

/-- A push adds a word, and may send a message. -/
theorem mpiDestPush_spec (hsize : tailsize < size) (hsize' : size < 2 ^ 64)
    (hM : Queued size words sent M) (v : BitVec 32) :
    ∃ M' sent', mpiDestPush M v = some (M', sent') ∧
      Queued size (words ++ [v]) (sent ++ sent') M' := by
  by_cases hfull : M.pos = size - tailsize
  · obtain ⟨M₁, buf, hrun, hM₁, hpos, hpending⟩ := hM.flush hsize hsize' hfull
    have hroom : M₁.pos < size - tailsize := by omega
    obtain ⟨M₂, sent₂, hrun₂, hM₂⟩ := (hM₁.store hroom v).afterStore hsize hsize'
      (Nat.succ_pos _) fun h => absurd (hpending.symm.trans h) Bool.true_eq_false.mp
    refine ⟨M₂, [buf] ++ sent₂, mpiDestPush_eq ?_ ?_ hrun₂, ?_⟩
    · rw [hM.size_eq, if_pos hfull, hrun]
    · rwa [hM₁.size_eq]
    · rwa [← append_assoc]
  · have hroom : M.pos < size - tailsize := lt_of_le_of_ne hM.pos_le hfull
    obtain ⟨M₂, sent₂, hrun₂, hM₂⟩ := (hM.store hroom v).afterStore hsize hsize'
      (Nat.succ_pos _) fun h => by
        by_contra hne
        exact absurd (hM.pending_iff.mpr hne) (by rw [h]; exact Bool.false_ne_true)
    refine ⟨M₂, [] ++ sent₂, mpiDestPush_eq ?_ ?_ hrun₂, hM₂⟩
    · rw [hM.size_eq, if_neg hfull]
    · rwa [hM.size_eq]

theorem Filling.length_eq (hM : Filling size words sent M) :
    words.length = sent.length * (size - tailsize) + M.pos := by
  have hlength : (sent.flatMap (payload size)).length = sent.length * (size - tailsize) := by
    rw [List.length_flatMap, map_congr_left fun buf hbuf => (hM.full buf hbuf).1,
      List.map_const', List.sum_replicate, smul_eq_mul]
  rw [← hM.content, List.length_append, hlength, List.length_map, List.length_range]

/-- The closing message carries what is left. -/
theorem mpiDestClose_spec (hsize : tailsize < size) (hsize' : size < 2 ^ 64)
    (hM : Queued size words sent M) :
    ∃ M' buf, mpiDestClose M = some (M', [buf]) ∧
      (sent ++ [buf]).flatMap (payload size) = words ∧ isOver size buf = true ∧
      (payload size buf = [] ↔ words.length = 0 ∨ words.length = size - tailsize) := by
  obtain ⟨M', buf, hrun, hpayload, hover, -⟩ := mpiDestTryFlush_memsetTail
    (M := mpiDestCompleteFlush M) hsize hsize' hM.size_eq hM.pos_le rfl
    (Or.inr (Eq.refl (BitVec.allOnes 32)))
  refine ⟨mpiDestCompleteFlush M', buf, ?_, ?_, hover, ?_⟩
  · rw [mpiDestClose, hrun]
    rfl
  · rw [List.flatMap_append, List.flatMap_singleton, hpayload]
    exact hM.content
  · have hlength := hM.length_eq
    rw [hpayload, List.map_eq_nil_iff, List.range_eq_nil]
    show M.pos = 0 ↔ _
    constructor
    · intro hpos
      have hone := hM.one_of_empty hpos
      rcases Nat.le_one_iff_eq_zero_or_eq_one.mp hone with h | h
      · exact Or.inl (by rw [hlength, h, hpos, zero_mul])
      · exact Or.inr (by rw [hlength, h, hpos, one_mul, add_zero])
    · rintro (h | h)
      · omega
      · rcases hsent : sent.length with _ | k
        · have hfull := hM.pending_of_full (by rw [hsent] at hlength; omega)
          exact absurd (List.length_eq_zero_iff.mp hsent) (hM.pending_iff.mp hfull)
        · rw [hsent, Nat.succ_mul] at hlength
          omega

end Queues

/-! ## Runs of the master -/

section Runs

variable {size t : ℕ} {M : MpiDest} {words : List (BitVec 32)} {sent : List Buffer}

/-- The messages of a queue that has been closed: full ones, and `b` with the mark. -/
structure Closed (size : ℕ) (words : List (BitVec 32)) (init : List Buffer) (b : Buffer) :
    Prop where
  full : ∀ buf ∈ init, (payload size buf).length = size - tailsize ∧ isOver size buf = false
  marked : isOver size b = true
  content : (init ++ [b]).flatMap (payload size) = words
  empty_iff : payload size b = [] ↔ words.length = 0 ∨ words.length = size - tailsize

/-- A queue in the middle of a run, with the actions that are left for it. -/
inductive TagState (size t : ℕ) (words : List (BitVec 32)) :
    List Op → MpiDest → List Buffer → Prop
  | queued {pushed rest : List (BitVec 32)} {M : MpiDest} {sent : List Buffer}
      (hwords : pushed ++ rest = words) (hM : Queued size pushed sent M) :
      TagState size t words (rest.map (.push t) ++ [.close t]) M sent
  | closed {init : List Buffer} {b : Buffer} (M : MpiDest) (hclosed : Closed size words init b) :
      TagState size t words [] M (init ++ [b])

theorem TagState.step (hsize : tailsize < size) (hsize' : size < 2 ^ 64) {op : Op}
    {ops : List Op} (h : TagState size t words (op :: ops) M sent) :
    ∃ M' sent', op.run M = some (M', sent') ∧ TagState size t words ops M' (sent ++ sent') := by
  generalize hprog : op :: ops = prog at h
  cases h with
  | closed => exact absurd hprog (cons_ne_nil op ops)
  | @queued pushed rest M sent hwords hM =>
    rcases rest with _ | ⟨v, rest⟩
    · obtain ⟨rfl, rfl⟩ := List.cons.inj hprog
      rw [append_nil] at hwords
      obtain ⟨M', buf, hrun, hcontent, hover, hempty⟩ := mpiDestClose_spec hsize hsize' hM
      rw [← hwords]
      exact ⟨M', [buf], hrun, .closed M' ⟨hM.full, hover, hcontent, hempty⟩⟩
    · obtain ⟨rfl, rfl⟩ := List.cons.inj hprog
      obtain ⟨M', sent', hrun, hM'⟩ := mpiDestPush_spec hsize hsize' hM v
      refine ⟨M', sent', hrun, .queued ?_ hM'⟩
      rwa [append_assoc]

theorem TagState.closed_of_nil (h : TagState size t words [] M sent) :
    ∃ init b, Closed size words init b ∧ sent = init ++ [b] := by
  generalize hprog : [] = prog at h
  cases h with
  | queued => exact absurd hprog (List.append_ne_nil_of_right_ne_nil _ (cons_ne_nil _ [])).symm
  | @closed init b _ hclosed => exact ⟨init, b, hclosed, rfl⟩

section

variable (hsize : tailsize < size) (hsize' : size < 2 ^ 64) {tags : Finset ℕ}
  {words : ℕ → List (BitVec 32)} {ops : List Op}
include hsize hsize'

/-- What has been sent, tag by tag, at any moment. -/
theorem masterRun_of_tagState {x : ℕ → MpiDest}
    (past : ℕ → List Buffer) (hops : ∀ op ∈ ops, op.tag ∈ tags)
    (hstate : ∀ t ∈ tags,
      TagState size t (words t) (ops.filter fun op => op.tag = t) (x t) (past t)) :
    ∃ sent, masterRun ops x = some sent ∧ (∀ m ∈ sent, m.1 ∈ tags) ∧
      ∀ t ∈ tags, ∃ init b, Closed size (words t) init b ∧
        past t ++ (sent.filter fun m => m.1 = t).map Prod.snd = init ++ [b] := by
  induction ops generalizing x past with
  | nil =>
    refine ⟨[], rfl, nofun, fun t ht => ?_⟩
    obtain ⟨init, b, hclosed, hpast⟩ := (hstate t ht).closed_of_nil
    exact ⟨init, b, hclosed, by rw [List.filter_nil, map_nil, append_nil, hpast]⟩
  | cons op ops ih =>
    have hop := hops op List.mem_cons_self
    have hstep := hstate op.tag hop
    rw [List.filter_cons_of_pos (by simp)] at hstep
    obtain ⟨M', sent', hrun, hM'⟩ := hstep.step hsize hsize'
    have hstate' : ∀ t ∈ tags, TagState size t (words t) (ops.filter fun op => op.tag = t)
        (update x op.tag M' t)
        (update past op.tag (past op.tag ++ sent') t) := by
      intro t ht
      rcases eq_or_ne t op.tag with rfl | hne
      · rwa [update_self, update_self]
      · have h := hstate t ht
        rw [List.filter_cons_of_neg (by simpa using Ne.symm hne)] at h
        rwa [update_of_ne hne, update_of_ne hne]
    obtain ⟨sent, hruns, htags, hsent⟩ :=
      ih _ (fun o ho => hops o (List.mem_cons_of_mem op ho)) hstate'
    refine ⟨sent'.map (op.tag, ·) ++ sent, ?_, fun m hm => ?_, fun t ht => ?_⟩
    · simp [masterRun, masterStep, hrun, some_bind, hruns]
    · rcases List.mem_append.mp hm with hm | hm
      · obtain ⟨b, -, rfl⟩ := List.mem_map.mp hm
        exact hop
      · exact htags m hm
    · obtain ⟨init, b, hclosed, heq⟩ := hsent t ht
      refine ⟨init, b, hclosed, ?_⟩
      rw [← heq, List.filter_append, List.map_append, ← append_assoc]
      refine congrArg (· ++ _) ?_
      rcases eq_or_ne t op.tag with rfl | hne
      · rw [update_self, List.filter_eq_self.mpr (by simp)]
        simp
      · rw [update_of_ne hne, List.filter_eq_nil_iff.mpr (by simpa using fun _ _ => hne.symm)]
        simp

/-- The messages of each queue after a run of the master on new queues. -/
theorem masterRun_spec (hops : ∀ op ∈ ops, op.tag ∈ tags) (hprog : ∀ t ∈ tags,
      (ops.filter fun op => op.tag = t) = (words t).map (.push t) ++ [.close t])
    (pool : ℕ → Bool → Buffer) :
    ∃ sent, masterRun ops (fun t => mpiDestAlloc size (pool t)) = some sent ∧
      (∀ m ∈ sent, m.1 ∈ tags) ∧ ∀ t ∈ tags, ∃ init b, Closed size (words t) init b ∧
        (sent.filter fun m => m.1 = t).map Prod.snd = init ++ [b] := by
  obtain ⟨sent, hrun, htags, hsent⟩ := masterRun_of_tagState hsize hsize' (fun _ => []) hops
    fun t ht => by
      rw [hprog t ht]
      exact .queued (List.nil_append _) (queued_alloc hsize (pool t))
  exact ⟨sent, hrun, htags, fun t ht => by simpa using hsent t ht⟩

end

end Runs

end CadoNfs.Balancing
