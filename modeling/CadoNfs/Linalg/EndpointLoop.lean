import CadoNfs.Lib.ForRange
import CadoNfs.Lib.Multiplex
import CadoNfs.Linalg.MpiDest

/-!
# The endpoint of the dispatcher

The leader of a job receives the messages for all its threads, and puts the words of each
message into the pipe of the thread that its tag says.

Main results:

- Theorem `endpointRun_eq`: the loop is the receiver of multiplexed streams.
- Theorem `endpointLoop_iff`: when every thread gets its words.
-/

namespace CadoNfs.Balancing

open Function (update update_of_ne update_self)
open ForRange Multiplex
open Option (bind_eq_bind bind_some)

/-! ## Code -/

/-- `thread_pipe` with its destination: `words` are those put in the buffer, of
which `avail` are there for the reader; `total` is set on close. -/
structure ThreadPipe where
  size : ℕ
  words : List (BitVec 32)
  avail : ℕ
  total : Option ℕ

/-- `thread_pipe_alloc`. -/
def threadPipeAlloc (size : ℕ) : ThreadPipe :=
  ⟨size, [], 0, none⟩

def batchsize : ℕ := 65536

/-- `thread_dest_put` of words. -/
def threadDestPut (t : ThreadPipe) (p : List (BitVec 32)) : Option ThreadPipe := do
  -- an error in the estimation of the memory
  assertAlways (t.words.length + p.length ≤ t.size)
  let t : ThreadPipe := { t with words := t.words ++ p }
  assertAlways (t.avail % batchsize = 0)
  if batchsize < t.words.length - t.avail then do
    let more := t.words.length - t.words.length % batchsize - t.avail
    assertAlways (0 < more)
    some { t with avail := t.avail + more }
  else some t

/-- `thread_dest_put` without words, which closes the pipe. -/
def threadDestClose (t : ThreadPipe) : Option ThreadPipe := do
  assertAlways (t.words.length ≤ t.size)
  assertAlways (t.avail % batchsize = 0)
  some { t with avail := t.words.length, total := some t.words.length }

/-- The loop of `endpoint_loop` around `mpi_source_get`, with queues of
`size` words.  `messages` are those that arrive; without one it waits forever. -/
def endpointRun (size ncores : ℕ) (slaves : ℕ → Bool) :
    ℕ → (ℕ → ThreadPipe) → List (ℕ × Buffer) →
      Option ((ℕ → ThreadPipe) × List (ℕ × Buffer))
  | nover, tp, [] => if ncores ≤ nover then some (tp, []) else none
  | nover, tp, (tag, buf) :: messages =>
    if ncores ≤ nover then some (tp, (tag, buf) :: messages)
    else
      let sz := loadSize buf (size - tailsize)
      if sz = 0 then some (tp, messages)
      else do
        assertAlways (slaves tag)
        let t ← threadDestPut (tp tag) ((List.range sz).map buf)
        endpointRun size ncores slaves
          (nover + if loadSize buf (size - tailsize + 2) ≠ 0 then 1 else 0)
          (update tp tag t) messages

/-- `endpoint_loop`: the pipes, and the messages that have not been received. -/
def endpointLoop (size ncores nslaves : ℕ) (slaves : ℕ → Bool) (tp : ℕ → ThreadPipe)
    (messages : List (ℕ × Buffer)) : Option ((ℕ → ThreadPipe) × List (ℕ × Buffer)) := do
  let (tp, messages) ← endpointRun size ncores slaves 0 tp messages
  let tp ← forRangeM nslaves (fun tag tp =>
    if slaves tag then do
      let t ← threadDestClose (tp tag)
      some (update tp tag t)
    else some tp) tp
  some (tp, messages)

/-! ## Pipes -/

section Pipes

variable {t : ThreadPipe} {room : ℕ} {words p : List (BitVec 32)}

/-- A pipe with room for `room` words that has these words. -/
structure Holds (room : ℕ) (words : List (BitVec 32)) (t : ThreadPipe) : Prop where
  size_eq : t.size = room
  words_eq : t.words = words
  length_le : words.length ≤ room
  avail_mod : t.avail % batchsize = 0
  avail_le : t.avail ≤ words.length

theorem holds_alloc (room : ℕ) : Holds room [] (threadPipeAlloc room) :=
  ⟨rfl, rfl, Nat.zero_le _, rfl, Nat.zero_le _⟩

theorem threadDestPut_of_le (ht : Holds room words t) (hle : words.length + p.length ≤ room) :
    ∃ t', threadDestPut t p = some t' ∧ Holds room (words ++ p) t' := by
  have hlength : (words ++ p).length = words.length + p.length := List.length_append
  have havail := ht.avail_mod
  have havail' := ht.avail_le
  rw [threadDestPut, ht.size_eq, ht.words_eq, assertAlways_of_true hle]
  simp only [bind_eq_bind, bind_some, assertAlways_of_true ht.avail_mod]
  unfold batchsize at *
  split_ifs with hmore
  · rw [assertAlways_of_true (by omega), bind_some]
    exact ⟨_, rfl, rfl, rfl, by omega, by dsimp only [batchsize]; omega, by dsimp only; omega⟩
  · exact ⟨_, rfl, rfl, rfl, by omega, havail, by dsimp only; omega⟩

theorem threadDestPut_of_lt (ht : Holds room words t) (hlt : room < words.length + p.length) :
    threadDestPut t p = none := by
  rw [threadDestPut, assertAlways_of_false (by rw [ht.size_eq, ht.words_eq]; omega)]
  rfl

theorem threadDestClose_eq (ht : Holds room words t) :
    threadDestClose t = some { t with avail := words.length, total := some words.length } := by
  rw [threadDestClose, assertAlways_of_true (by rw [ht.size_eq, ht.words_eq]; exact ht.length_le),
    assertAlways_of_true ht.avail_mod, ← ht.words_eq]
  rfl

end Pipes

/-! ## Packets -/

/-- What a message is for its receiver. -/
def packet (size : ℕ) (m : ℕ × Buffer) : Packet ℕ (BitVec 32) :=
  ⟨m.1, payload size m.2, isOver size m.2⟩

section Packets

variable {size n nover : ℕ} {slaves : ℕ → Bool} {room : ℕ → ℕ}

/-- The loop is the receiver of multiplexed streams. -/
theorem endpointRun_eq {messages : List (ℕ × Buffer)} {tp : ℕ → ThreadPipe}
    {out : ℕ → List (BitVec 32)} (hslaves : ∀ m ∈ messages, slaves m.1 = true)
    (htp : ∀ t, Holds (room t) (out t) (tp t)) :
    match drain n room nover out (messages.map (packet size)) with
    | none => endpointRun size n slaves nover tp messages = none
    | some (out', rest') => ∃ tp' rest,
        endpointRun size n slaves nover tp messages = some (tp', rest) ∧
          rest.map (packet size) = rest' ∧ ∀ t, Holds (room t) (out' t) (tp' t) := by
  induction messages generalizing nover tp out with
  | nil =>
    rw [List.map_nil, drain, endpointRun]
    split_ifs
    · exact ⟨tp, [], rfl, rfl, htp⟩
    · rfl
  | cons m messages ih =>
    obtain ⟨tag, buf⟩ := m
    obtain ⟨hslave, hslaves⟩ := List.forall_mem_cons.mp hslaves
    rw [List.map_cons]
    by_cases hn : n ≤ nover
    · rw [drain, endpointRun, if_pos hn, if_pos hn]
      exact ⟨tp, _, rfl, rfl, htp⟩
    have hempty : (packet size (tag, buf)).payload = [] ↔ loadSize buf (size - tailsize) = 0 := by
      rw [packet, payload, List.map_eq_nil_iff, List.range_eq_nil]
    rw [drain_cons (by omega), endpointRun, if_neg hn]
    by_cases hsz : loadSize buf (size - tailsize) = 0
    · simp only [hsz, if_pos (hempty.mpr hsz), if_true]
      exact ⟨tp, messages, rfl, rfl, htp⟩
    have hnext : (if loadSize buf (size - tailsize + 2) ≠ 0 then 1 else 0)
        = (packet size (tag, buf)).last.toNat := by
      rw [packet, isOver]
      by_cases h : loadSize buf (size - tailsize + 2) = 0 <;> simp [h]
    simp only [hsz, if_neg (mt hempty.mp hsz), if_false, assertAlways_of_true hslave,
      bind_eq_bind, bind_some, hnext]
    rw [show (List.range (loadSize buf (size - tailsize))).map buf
      = (packet size (tag, buf)).payload from rfl, show (packet size (tag, buf)).tag = tag from rfl]
    by_cases hroom : room tag < (out tag).length + (packet size (tag, buf)).payload.length
    · rw [if_pos hroom, threadDestPut_of_lt (htp tag) hroom]
      rfl
    · obtain ⟨t, hput, ht⟩ := threadDestPut_of_le (htp tag) (Nat.le_of_not_lt hroom)
      rw [if_neg hroom, hput, bind_some]
      refine ih hslaves fun u => ?_
      rcases eq_or_ne u tag with rfl | hne
      · rwa [update_self, update_self]
      · rw [update_of_ne hne, update_of_ne hne]
        exact htp u

end Packets

/-! ## Results -/

section Results

variable {size nslaves : ℕ} {tags : Finset ℕ} {room : ℕ → ℕ} {ops : List Op}
  {words : ℕ → List (BitVec 32)} {sent delivered : List (ℕ × Buffer)}

/-- The loop is the run over the messages. -/
theorem endpointLoop_eq {tp : ℕ → ThreadPipe} {messages rest : List (ℕ × Buffer)}
    {slaves : ℕ → Bool} {ncores : ℕ} {out : ℕ → List (BitVec 32)}
    (hrun : endpointRun size ncores slaves 0 (fun t => threadPipeAlloc (room t)) messages
      = some (tp, rest)) (htp : ∀ t, Holds (room t) (out t) (tp t)) :
    ∃ tp', endpointLoop size ncores nslaves slaves (fun t => threadPipeAlloc (room t)) messages
        = some (tp', rest) ∧
      ∀ t, (tp' t).words = out t ∧
        (t < nslaves → slaves t = true → (tp' t).total = some (out t).length) := by
  have hloop := forRangeM_induct
    (motive := fun k (tp' : ℕ → ThreadPipe) => ∀ t,
      (k ≤ t → Holds (room t) (out t) (tp' t)) ∧ (tp' t).words = out t ∧
        (t < k → slaves t = true → (tp' t).total = some (out t).length))
    (fun tag tp => if slaves tag then do
        let t ← threadDestClose (tp tag)
        some (update tp tag t)
      else some tp) tp nslaves
    (fun t => ⟨fun _ => htp t, (htp t).words_eq, by omega⟩) ?_
  · obtain ⟨tp', hclose, htp'⟩ := hloop
    refine ⟨tp', ?_, fun t => (htp' t).2⟩
    simp only [bind_eq_bind] at hclose
    simp [endpointLoop, hrun, hclose]
  · intro k hk tp' htp'
    by_cases hslave : slaves k = true
    · refine ⟨_, by rw [if_pos hslave, threadDestClose_eq ((htp' k).1 le_rfl)]; rfl, fun t => ?_⟩
      rcases eq_or_ne t k with rfl | hne
      · rw [update_self]
        exact ⟨by omega, (htp' t).2.1, fun _ _ => rfl⟩
      · rw [update_of_ne hne]
        exact ⟨fun h => (htp' t).1 (by omega), (htp' t).2.1, fun h => (htp' t).2.2 (by omega)⟩
    · refine ⟨tp', if_neg hslave, fun t => ?_⟩
      refine ⟨fun h => (htp' t).1 (by omega), (htp' t).2.1, fun h hs => ?_⟩
      rcases Nat.lt_succ_iff_lt_or_eq.mp h with hlt | rfl
      · exact (htp' t).2.2 hlt hs
      · exact absurd hs hslave

/-- No message comes after an empty closing message: one of a tag with no words, or with as
many as there are in a message. -/
def NoneAfterEmptyClose (size : ℕ) (words : ℕ → List (BitVec 32))
    (delivered : List (ℕ × Buffer)) : Prop :=
  ∀ before m after, delivered = before ++ m :: after → (∀ m' ∈ after, m'.1 ≠ m.1) →
    (words m.1).length = 0 ∨ (words m.1).length = size - tailsize → after = []

/-- Messages that arrive for closed queues, in the order of each queue. -/
structure Delivered (size : ℕ) (tags : Finset ℕ) (words : ℕ → List (BitVec 32))
    (delivered : List (ℕ × Buffer)) : Prop where
  mem : ∀ m ∈ delivered, m.1 ∈ tags
  closed : ∀ t ∈ tags, ∃ init b, Closed size (words t) init b ∧
    (delivered.filter fun m => m.1 = t).map Prod.snd = init ++ [b]

theorem ofTag_map_packet (size t : ℕ) (messages : List (ℕ × Buffer)) :
    ofTag t (messages.map (packet size))
      = ((messages.filter fun m => m.1 = t).map Prod.snd).map fun b => packet size (t, b) := by
  rw [ofTag, List.filter_map, List.map_map]
  refine List.map_congr_left fun m hm => ?_
  have hm : m.1 = t := of_decide_eq_true (List.mem_filter.mp hm).2
  rw [Function.comp_apply, ← hm]

theorem Delivered.arriving (h : Delivered size tags words delivered) :
    Arriving tags (fun _ => []) (fun t => if t ∈ tags then words t else [])
      (delivered.map (packet size)) where
  ends := fun t ht => by
    obtain ⟨init, b, hclosed, heq⟩ := h.closed t ht
    rw [ofTag_map_packet, heq, List.map_append, List.map_singleton]
    refine ⟨_, _, rfl, hclosed.marked, fun p hp => ?_⟩
    obtain ⟨b, hb, rfl⟩ := List.mem_map.mp hp
    exact (hclosed.full b hb).2
  ended := fun t ht => by
    rw [ofTag_map_packet, List.map_eq_nil_iff, List.map_eq_nil_iff, List.filter_eq_nil_iff]
    intro m hm heq
    exact ht (of_decide_eq_true heq ▸ h.mem m hm)
  content := fun t => by
    rw [List.nil_append, ofTag_map_packet, List.flatMap_map]
    split_ifs with ht
    · obtain ⟨init, b, hclosed, heq⟩ := h.closed t ht
      rw [heq]
      exact hclosed.content
    · have hnil : (delivered.filter fun m => m.1 = t) = [] :=
        List.filter_eq_nil_iff.mpr fun m hm heq => ht (of_decide_eq_true heq ▸ h.mem m hm)
      rw [hnil]
      rfl

theorem Delivered.split (h : Delivered size tags words delivered) {before after : List (ℕ × Buffer)}
    {m : ℕ × Buffer} (heq : delivered = before ++ m :: after) :
    ((∀ m' ∈ after, m'.1 ≠ m.1) ∧ (payload size m.2 = [] ↔
        (words m.1).length = 0 ∨ (words m.1).length = size - tailsize)) ∨
      (¬∀ m' ∈ after, m'.1 ≠ m.1) ∧ (payload size m.2).length = size - tailsize := by
  obtain ⟨init, b, hclosed, hfilter⟩ := h.closed m.1 (h.mem m (by rw [heq]; simp))
  rw [heq, List.filter_append, List.filter_cons_of_pos (by simp), List.map_append,
    List.map_cons] at hfilter
  by_cases hlast : ∀ m' ∈ after, m'.1 ≠ m.1
  · rw [(List.filter_eq_nil_iff (l := after)).mpr fun m' hm' => by simpa using hlast m' hm',
      List.map_nil] at hfilter
    obtain ⟨-, hb⟩ := List.append_inj' hfilter rfl
    rw [(List.cons.inj hb).1]
    exact Or.inl ⟨hlast, hclosed.empty_iff⟩
  · refine Or.inr ⟨hlast, (hclosed.full m.2 ?_).1⟩
    have hne : (after.filter fun m' => m'.1 = m.1).map Prod.snd ≠ [] := by
      intro hnil
      refine hlast fun m' hm' => ?_
      have := List.filter_eq_nil_iff.mp (List.map_eq_nil_iff.mp hnil) m' hm'
      simpa using this
    have hinit := congrArg List.dropLast hfilter
    rw [List.dropLast_concat, List.dropLast_append_of_ne_nil (List.cons_ne_nil _ _),
      List.dropLast_cons_of_ne_nil hne] at hinit
    rw [← hinit]
    simp

theorem Delivered.noneAfterEmpty_iff (hsize : tailsize < size)
    (h : Delivered size tags words delivered) :
    NoneAfterEmpty (delivered.map (packet size)) ↔ NoneAfterEmptyClose size words delivered := by
  constructor
  · intro hnone before m after heq hlast hlength
    rcases h.split heq with ⟨-, hempty⟩ | ⟨hnot, -⟩
    · have := hnone (before.map (packet size)) (packet size m) (after.map (packet size))
        (by rw [heq, List.map_append, List.map_cons]) (hempty.mpr hlength)
      exact List.map_eq_nil_iff.mp this
    · exact absurd hlast hnot
  · intro hnone before p after heq hp
    obtain ⟨before, rest, hdelivered, rfl, hrest⟩ := List.map_eq_append_iff.mp heq
    obtain ⟨m, after, rfl, rfl, rfl⟩ := List.map_eq_cons_iff.mp hrest
    have hp : payload size m.2 = [] := hp
    rcases h.split hdelivered with ⟨hlast, hempty⟩ | ⟨-, hlength⟩
    · rw [hnone before m after hdelivered hlast (hempty.mp hp), List.map_nil]
    · rw [hp, List.length_nil] at hlength
      omega

/-- Every thread gets its words exactly when there is room for them, and no message comes
after an empty closing message. -/
theorem endpointLoop_iff (hsize : tailsize < size) (hsize' : size < 2 ^ 64)
    (htags : ∀ t ∈ tags, t < nslaves) (hops : ∀ op ∈ ops, op.tag ∈ tags)
    (hprog : ∀ t ∈ tags, (ops.filter fun op => op.tag = t) = (words t).map (.push t) ++ [.close t])
    (pool : ℕ → Bool → Buffer) :
    ∃ sent, masterRun ops (fun t => mpiDestAlloc size (pool t)) = some sent ∧
      ∀ delivered, (∀ t, (delivered.filter fun m => m.1 = t) = sent.filter fun m => m.1 = t) →
        ((∃ tp, endpointLoop size tags.card nslaves (fun t => decide (t ∈ tags))
            (fun t => threadPipeAlloc (room t)) delivered = some (tp, []) ∧
          ∀ t ∈ tags, (tp t).words = words t ∧ (tp t).total = some (words t).length) ↔
        (∀ t ∈ tags, (words t).length ≤ room t) ∧ NoneAfterEmptyClose size words delivered) := by
  obtain ⟨sent, hrun, hmem, hclosed⟩ := masterRun_spec hsize hsize' hops hprog pool
  refine ⟨sent, hrun, fun delivered horder => ?_⟩
  have h : Delivered size tags words delivered := by
    refine ⟨fun m hm => ?_, fun t ht => ?_⟩
    · have hm' : m ∈ sent.filter fun m' => m'.1 = m.1 := by
        rw [← horder]
        exact List.mem_filter.mpr ⟨hm, decide_eq_true rfl⟩
      exact hmem m (List.mem_of_mem_filter hm')
    · rw [horder]
      exact hclosed t ht
  have hslaves : ∀ m ∈ delivered, decide (m.1 ∈ tags) = true := fun m hm =>
    decide_eq_true (h.mem m hm)
  have hdrain : (∃ out, drain tags.card room 0 (fun _ => []) (delivered.map (packet size))
      = some (out, []) ∧ _) ↔ _ := drain_iff h.arriving
  rw [h.noneAfterEmpty_iff hsize] at hdrain
  have hroom : (∀ t ∈ tags, (if t ∈ tags then words t else []).length ≤ room t)
      ↔ ∀ t ∈ tags, (words t).length ≤ room t :=
    forall₂_congr fun t ht => by rw [if_pos ht]
  rw [hroom] at hdrain
  rw [← hdrain]
  have hloop := @endpointRun_eq size tags.card 0 (fun t => decide (t ∈ tags)) room delivered
    (fun t => threadPipeAlloc (room t)) (fun _ => []) hslaves fun t => holds_alloc (room t)
  rcases hresult : drain tags.card room 0 (fun _ => []) (delivered.map (packet size)) with
    _ | ⟨out, rest⟩
  · rw [hresult] at hloop
    constructor
    · rintro ⟨tp, hrun, -⟩
      rw [endpointLoop, hloop] at hrun
      exact absurd hrun nofun
    · rintro ⟨out, hout, -⟩
      exact absurd hout nofun
  · rw [hresult] at hloop
    obtain ⟨tp, rest', hrun', rfl, htp⟩ := hloop
    obtain ⟨tp', hloop, htp'⟩ := @endpointLoop_eq size nslaves _ _ _ _ _ _ _ hrun' htp
    rw [hloop]
    constructor
    · rintro ⟨tp'', heq, hwords⟩
      obtain ⟨rfl, rfl⟩ := Prod.mk.inj (Option.some.inj heq)
      refine ⟨out, rfl, fun t ht => ?_⟩
      rw [← (htp' t).1, (hwords t ht).1, if_pos ht]
    · rintro ⟨out', heq, hwords⟩
      obtain ⟨rfl, hrest⟩ := Prod.mk.inj (Option.some.inj heq)
      refine ⟨tp', by rw [List.map_eq_nil_iff.mp hrest], fun t ht => ?_⟩
      have hout := hwords t ht
      rw [if_pos ht] at hout
      obtain ⟨hw, htotal⟩ := htp' t
      rw [hout] at hw htotal
      exact ⟨hw, htotal (htags t ht) (decide_eq_true ht)⟩

end Results

/-- Two threads, of which the second one gets as many words as there are in a message; its
closing message comes last. -/
theorem endpointLoop_iff_two :
    ∃ sent tp, masterRun [.push 0 7, .push 1 9, .push 0 8, .close 0, .close 1]
        (fun _ => mpiDestAlloc 5 fun _ _ => 0) = some sent ∧
      endpointLoop 5 2 2 (fun t => decide (t ∈ ({0, 1} : Finset ℕ))) (fun _ => threadPipeAlloc 10)
        sent = some (tp, []) ∧
      (tp 0).words = [7, 8] ∧ (tp 1).words = [9] := by
  obtain ⟨sent, hrun, hiff⟩ := @endpointLoop_iff 5 2 {0, 1} (fun _ => 10)
    [.push 0 7, .push 1 9, .push 0 8, .close 0, .close 1]
    (fun t => if t = 0 then [7, 8] else [9]) (by decide) (by decide) (by decide) (by decide)
    (by simp [Op.tag]) fun _ _ _ => 0
  have htags : sent.map Prod.fst = [0, 1, 0] ++ [1] := by
    have hmap : (masterRun [.push 0 7, .push 1 9, .push 0 8, .close 0, .close 1]
      (fun _ => mpiDestAlloc 5 fun _ _ => 0)).map (List.map Prod.fst) = some [0, 1, 0, 1] := rfl
    rw [hrun] at hmap
    exact Option.some.inj hmap
  obtain ⟨tp, hloop, htp⟩ := (hiff sent fun _ => rfl).mpr ⟨by decide, by
    rintro before m after rfl hlast hlength
    rcases List.eq_nil_or_concat after with rfl | ⟨rest, m', rfl⟩
    · rfl
    · have hsplit : (before ++ m :: rest).map Prod.fst ++ [m'.1] = [0, 1, 0] ++ [1] := by
        rw [← htags]
        simp
      obtain ⟨hinit, hm'⟩ := List.append_inj' hsplit rfl
      have hm : m.1 ∈ [0, 1, 0] := by
        rw [← hinit]
        simp
      have hne : m'.1 ≠ m.1 := hlast m' (by simp)
      rw [(List.cons.inj hm').1] at hne
      have hzero : m.1 = 0 := by
        simp only [List.mem_cons, List.not_mem_nil, or_false] at hm
        omega
      rw [hzero] at hlength
      exact absurd hlength (by decide)⟩
  exact ⟨sent, tp, hrun, hloop, (htp 0 (by decide)).1, (htp 1 (by decide)).1⟩

/-- An empty closing message makes the endpoint leave the words of the other thread. -/
theorem endpointLoop_stops :
    ((masterRun [.push 1 7, .close 0, .close 1] fun _ => mpiDestAlloc 6 fun _ _ => 0).bind
      (endpointLoop 6 2 2 (fun t => decide (t < 2)) fun _ => threadPipeAlloc 10)).map
        (fun r => ((r.1 1).words, r.2.map Prod.fst)) = some ([], [1]) := by
  decide

end CadoNfs.Balancing
