import Mathlib.Data.BitVec
import Mathlib.Data.Nat.Bitwise
import CadoNfs.Lib.RingBuffer
import CadoNfs.Macros

/-!
# Rolling buffers

`rollbuf_put` and `rollbuf_get` of `balancing_rollbuf.c`, for one writer and one reader that take
turns in their critical sections.

Main results:

- Theorems `makeRoom_spec`, `write_spec` and `read_spec`: the ring holds the unread bytes.
- Theorem `rollbuf_correct`: the reader gets the bytes in order, in every run in which it does not
  wake up too early.
-/

namespace CadoNfs.RollingBuffer

open RingBuffer

/-! ## Code -/

/-- `rollbuf`: `rhead` and `whead` are places in the area `p`. -/
structure Rollbuf where
  p : ℕ → BitVec 8
  alloc : ℕ
  rhead : ℕ
  whead : ℕ
  availToRead : ℕ
  availToWrite : ℕ
  done : Bool

/-- The size of a page, and what `malloc` leaves in a new area. -/
structure Memory where
  page : ℕ
  mem : ℕ → BitVec 8

/-- `ROLLBUF_MAX_SIZE`. -/
def maxSize : ℕ := 2 ^ 26

/-- `rollbuf_grow__`. -/
def Rollbuf.grow (m : Memory) (r : Rollbuf) : Rollbuf :=
  let newalloc := r.alloc
  let newalloc := newalloc + newalloc / 2
  let newalloc := newalloc ||| (m.page - 1)
  let newalloc := newalloc + 1
  let availToWrite := r.availToWrite + (newalloc - r.alloc)
  if r.availToRead ≠ 0 then
    let tail := r.alloc - r.rhead
    let newp :=
      if tail < r.availToRead then
        memcpy (memcpy m.mem 0 (fun x => r.p (r.rhead + x)) tail) tail r.p (r.availToRead - tail)
      else memcpy m.mem 0 (fun x => r.p (r.rhead + x)) r.availToRead
    ⟨newp, newalloc, 0, r.availToRead, r.availToRead, availToWrite, r.done⟩
  else ⟨r.p, newalloc, 0, 0, r.availToRead, availToWrite, r.done⟩

theorem availToWrite_grow (m : Memory) (r : Rollbuf) :
    r.availToWrite < (r.grow m).availToWrite := by
  have hle : r.alloc + r.alloc / 2 ≤ (r.alloc + r.alloc / 2) ||| (m.page - 1) := Nat.left_le_or
  unfold Rollbuf.grow
  split_ifs <;> dsimp only <;> omega

/-- The loop of `rollbuf_put`, and whether it ends in `pthread_cond_wait`. -/
def Rollbuf.makeRoom (m : Memory) (r : Rollbuf) (s : ℕ) : Rollbuf × Bool :=
  if r.availToWrite < s then
    if maxSize ≤ r.alloc ∧ s < r.alloc then (r, true) else (r.grow m).makeRoom m s
  else (r, false)
termination_by s - r.availToWrite
decreasing_by
  have hgrow := availToWrite_grow m r
  omega

/-- `rollbuf_put` when there is room for the bytes `b`. -/
def Rollbuf.write (r : Rollbuf) (b : List (BitVec 8)) : Option Rollbuf := do
  let s := b.length
  let src := fun i => b.getD i 0#8
  let tail := r.alloc - r.whead
  let (p, whead) ←
    if r.availToWrite ≤ tail ∨ s ≤ tail then do
      assertAlways (s ≤ r.availToWrite)
      assertAlways (s ≤ tail)
      some (memcpy r.p r.whead src s, r.whead + s)
    else do
      assertAlways (tail > 0)
      assertAlways (s > tail)
      assertAlways (r.availToWrite > tail)
      assertAlways (s - tail ≤ r.availToWrite - tail)
      some (memcpy (memcpy r.p r.whead src tail) 0 (fun x => src (tail + x)) (s - tail), s - tail)
  let whead := if whead = r.alloc then 0 else whead
  some ⟨p, r.alloc, r.rhead, whead, r.availToRead + s, r.availToWrite - s, r.done⟩

/-- `rollbuf_get` from its first assertion on, with the bytes that are copied. -/
def Rollbuf.read (r : Rollbuf) (s : ℕ) : Option (Rollbuf × List (BitVec 8)) := do
  assertAlways (r.done ∨ 4 ≤ r.availToRead)
  if r.done ∧ r.availToRead = 0 then
    some (r, [])
  else
    assertAlways (r.availToRead < 4 → r.done)
    let tail := r.alloc - r.rhead
    assertAlways (4 ≤ s)
    let s := min r.availToRead s
    let s := if 4 ≤ s then s - s % 4 else s
    let (rhead, bytes) ←
      if r.availToRead ≤ tail ∨ s ≤ tail then do
        assertAlways (s ≤ tail)
        some (r.rhead + s, (List.range' r.rhead s).map r.p)
      else do
        assertAlways (tail > 0)
        assertAlways (s > tail)
        assertAlways (r.availToRead > tail)
        assertAlways (s - tail ≤ r.availToRead - tail)
        some (s - tail, (List.range' r.rhead tail).map r.p ++ (List.range (s - tail)).map r.p)
    let rhead := if rhead = r.alloc then 0 else rhead
    some (⟨r.p, r.alloc, rhead, r.whead, r.availToRead - s, r.availToWrite + s, r.done⟩, bytes)

/-- The writer is between two calls, waits for room, or has marked the end. -/
inductive Writer where
  | ready
  | waiting (b : List (BitVec 8))
  | finished

/-- The reader is between two calls or waits for bytes. -/
inductive Reader where
  | ready
  | waiting (s : ℕ)

/-- The buffer and the two parties, the bytes that have been put, and for each call of
`rollbuf_get` what it has returned and the bytes it has copied. -/
structure State where
  r : Rollbuf
  writer : Writer
  reader : Reader
  put : List (BitVec 8)
  gets : List (ℤ × List (BitVec 8))
  failed : Bool

/-- `rollbuf_init`; `mem` stands for the area that is not there yet. -/
def rollbufInit (mem : ℕ → BitVec 8) : State :=
  ⟨⟨mem, 0, 0, 0, 0, 0, false⟩, .ready, .ready, [], [], false⟩

/-- A critical section of `rollbuf_put`. -/
def State.putBytes (m : Memory) (st : State) (b : List (BitVec 8)) : State :=
  let (r, wait) := st.r.makeRoom m b.length
  if wait then { st with r := r, writer := .waiting b }
  else match r.write b with
    | none => { st with failed := true }
    | some r => { st with r := r, writer := .ready, put := st.put ++ b }

/-- The last critical section of `rollbuf_get`; the number of bytes is returned as an `int`. -/
def State.getBytes (st : State) (s : ℕ) : State :=
  match st.r.read s with
  | none => { st with failed := true }
  | some (r, bytes) =>
    { st with
      r := r
      reader := .ready
      gets := st.gets ++ [((bytes.length : ℤ).bmod (2 ^ 32), bytes)] }

/-- What may happen next: a call, or a wake-up of a party that waits. -/
inductive Label where
  | put (b : List (BitVec 8))
  | wakePut
  | markDone
  | get (s : ℕ)
  | wakeGet

/-- One critical section. -/
def State.step (m : Memory) (st : State) : Label → Option State
  | .put b => match st.writer with
    | .ready => some (st.putBytes m b)
    | _ => none
  | .wakePut => match st.writer with
    | .waiting b => some (st.putBytes m b)
    | _ => none
  | .markDone => match st.writer with
    | .ready =>
      if st.r.done then some { st with failed := true }
      else some { st with r := { st.r with done := true }, writer := .finished }
    | _ => none
  | .get s => match st.reader with
    | .ready =>
      if 4 ≤ s then
        if ¬st.r.done ∧ st.r.availToRead < 4 then some { st with reader := .waiting s }
        else some (st.getBytes s)
      else none
    | _ => none
  | .wakeGet => match st.reader with
    | .waiting s => some (st.getBytes s)
    | _ => none

/-- The states after the steps that are allowed. -/
inductive Run (m : Memory) (ok : State → Label → Prop) : State → Prop
  | start (mem : ℕ → BitVec 8) : Run m ok (rollbufInit mem)
  | step {st st' : State} {l : Label} (h : Run m ok st) (hok : ok st l)
    (hstep : st.step m l = some st') : Run m ok st'

/-! ## The buffer -/

section Buffer

variable {r : Rollbuf} {u : List (BitVec 8)} {s : ℕ} (m : Memory)

/-- The buffer holds the bytes `u`. -/
structure Rollbuf.Holds (r : Rollbuf) (u : List (BitVec 8)) : Prop where
  sum : r.availToRead + r.availToWrite = r.alloc
  rhead : r.rhead < r.alloc ∨ r.alloc = 0 ∧ r.rhead = 0
  whead : r.whead = wrap r.alloc (r.rhead + r.availToRead)
  window : window r.p r.alloc r.rhead r.availToRead = u

theorem Rollbuf.Holds.length (h : r.Holds u) : u.length = r.availToRead := by
  rw [← h.window, length_window]

/-- Growing keeps the bytes of the window. -/
theorem grow_spec (h : r.Holds u) : (r.grow m).Holds u ∧ (r.grow m).done = r.done := by
  have hsum := h.sum
  have hle : r.alloc + r.alloc / 2 ≤ (r.alloc + r.alloc / 2) ||| (m.page - 1) := Nat.left_le_or
  unfold Rollbuf.grow
  dsimp only
  set newalloc := (r.alloc + r.alloc / 2) ||| (m.page - 1)
  by_cases hread : r.availToRead = 0
  · rw [if_neg (not_not.mpr hread)]
    refine ⟨⟨?_, Or.inl (Nat.succ_pos _), ?_, ?_⟩, rfl⟩
    · dsimp only
      omega
    · dsimp only
      rw [wrap, if_pos (by omega), hread]
    · rw [← h.window, hread]
      rfl
  · rw [if_pos hread]
    refine ⟨⟨?_, Or.inl (Nat.succ_pos _), ?_, ?_⟩, rfl⟩
    · dsimp only
      omega
    · dsimp only
      rw [wrap, if_pos (by omega), zero_add]
    · rw [← h.window]
      refine window_congr fun i hi => ?_
      have hlt : i < r.availToRead := hi
      have hrhead := h.rhead
      have hnew : wrap (newalloc + 1) (0 + i) = i := by
        rw [wrap, if_pos (by omega), zero_add]
      dsimp only
      rw [hnew]
      by_cases hsplit : r.alloc - r.rhead < r.availToRead
      · rw [if_pos hsplit]
        unfold wrap memcpy
        dsimp only
        split_ifs <;> first | omega | exact congrArg r.p (by omega)
      · rw [if_neg hsplit]
        unfold wrap memcpy
        dsimp only
        split_ifs <;> first | omega | exact congrArg r.p (by omega)

/-- The loop makes room unless it waits. -/
theorem makeRoom_spec (h : r.Holds u) (s : ℕ) :
    (r.makeRoom m s).1.Holds u ∧ (r.makeRoom m s).1.done = r.done ∧
      ((r.makeRoom m s).2 = false → s ≤ (r.makeRoom m s).1.availToWrite) := by
  induction r using Rollbuf.makeRoom.induct (m := m) (s := s) with
  | case1 r hlt hwait =>
    rw [Rollbuf.makeRoom, if_pos hlt, if_pos hwait]
    exact ⟨h, rfl, nofun⟩
  | case2 r hlt hwait ih =>
    rw [Rollbuf.makeRoom, if_pos hlt, if_neg hwait]
    obtain ⟨hgrow, hdone⟩ := grow_spec m h
    obtain ⟨hheld, hdone', hroom⟩ := ih hgrow
    exact ⟨hheld, hdone'.trans hdone, hroom⟩
  | case3 r hlt =>
    rw [Rollbuf.makeRoom, if_neg hlt]
    exact ⟨h, rfl, fun _ => not_lt.mp hlt⟩

/-- The bytes are written behind those that are there. -/
theorem write_spec (h : r.Holds u) {b : List (BitVec 8)} (hroom : b.length ≤ r.availToWrite) :
    ∃ r', r.write b = some r' ∧ r'.Holds (u ++ b) ∧ r'.done = r.done := by
  have hsum := h.sum
  have hrhead := h.rhead
  have hwhead := h.whead
  have hlt : r.whead < r.alloc ∨ r.alloc = 0 ∧ r.whead = 0 := by
    unfold wrap at hwhead
    split_ifs at hwhead <;> omega
  have hsrc : (List.range b.length).map (fun i => b.getD i 0#8) = b := by
    apply List.ext_getElem
    · rw [List.length_map, List.length_range]
    · intro i _ hi
      rw [List.getElem_map, List.getElem_range, List.getD_eq_getElem]
  -- both ways to copy write the ring from `whead` on
  have hstore : ∀ p whead, (∀ i < r.alloc, p (wrap r.alloc (r.whead + i))
      = if i < b.length then b.getD i 0#8 else r.p (wrap r.alloc (r.whead + i))) →
      (if whead = r.alloc then 0 else whead) = wrap r.alloc (r.whead + b.length) →
      Rollbuf.Holds ⟨p, r.alloc, r.rhead, if whead = r.alloc then 0 else whead,
        r.availToRead + b.length, r.availToWrite - b.length, r.done⟩ (u ++ b) := by
    intro p whead hp hplace
    refine ⟨by dsimp only; omega, hrhead, ?_, ?_⟩
    · dsimp only
      rw [hplace, hwhead]
      unfold wrap
      split_ifs <;> omega
    · rw [hwhead] at hp
      have hwrite : window p r.alloc r.rhead (r.availToRead + b.length)
          = window r.p r.alloc r.rhead r.availToRead
            ++ (List.range b.length).map fun i => b.getD i 0#8 :=
        window_write (by omega) (by omega) hp
      rw [hsrc, h.window] at hwrite
      exact hwrite
  unfold Rollbuf.write
  dsimp only
  by_cases hone : r.availToWrite ≤ r.alloc - r.whead ∨ b.length ≤ r.alloc - r.whead
  · have htail : b.length ≤ r.alloc - r.whead := by omega
    rw [if_pos hone, assertAlways_of_true hroom, assertAlways_of_true htail]
    refine ⟨_, rfl, hstore _ _ (@memcpy_one _ r.p r.alloc b.length (fun i => b.getD i 0#8)
      r.whead (by omega)) ?_, rfl⟩
    unfold wrap
    split_ifs <;> omega
  · have htail : r.alloc - r.whead > 0 ∧ b.length > r.alloc - r.whead ∧
        r.availToWrite > r.alloc - r.whead := by omega
    rw [if_neg hone, assertAlways_of_true htail.1, assertAlways_of_true htail.2.1,
      assertAlways_of_true htail.2.2, assertAlways_of_true (Nat.sub_le_sub_right hroom _)]
    refine ⟨_, rfl, hstore _ _ (@memcpy_two _ r.p r.alloc b.length (fun i => b.getD i 0#8)
      r.whead (by omega) (by omega) (by omega)) ?_, rfl⟩
    unfold wrap
    split_ifs <;> omega

theorem count_spec (hs : 4 ≤ s) {avail n : ℕ}
    (hn : n = if 4 ≤ min avail s then min avail s - min avail s % 4 else min avail s) :
    n ≤ avail ∧ n ≤ s ∧ (4 ≤ avail → 0 < n ∧ 4 ∣ n) ∧ (avail < 4 → n = avail) := by
  rcases le_total avail s with hle | hle
  · rw [min_eq_left hle] at hn
    split_ifs at hn <;> omega
  · rw [min_eq_right hle, if_pos hs] at hn
    omega

/-- The first bytes are read, a multiple of four of them unless it is the end. -/
theorem read_spec (h : r.Holds u) (hs : 4 ≤ s) (hready : r.done = true ∨ 4 ≤ r.availToRead) :
    ∃ r' bytes, r.read s = some (r', bytes) ∧ bytes = u.take bytes.length ∧
      r'.Holds (u.drop bytes.length) ∧ r'.done = r.done ∧ bytes.length ≤ min r.availToRead s ∧
      (bytes ≠ [] ∧ 4 ∣ bytes.length ∨ r.done = true ∧ bytes.length = r.availToRead) := by
  have hsum := h.sum
  have hrhead := h.rhead
  unfold Rollbuf.read
  rw [assertAlways_of_true hready]
  by_cases hend : r.done = true ∧ r.availToRead = 0
  · rw [if_pos hend]
    exact ⟨r, [], rfl, rfl, h, rfl, Nat.zero_le _, Or.inr ⟨hend.1, hend.2.symm⟩⟩
  have hdone : r.availToRead < 4 → r.done = true := fun hlt => hready.resolve_right (by omega)
  dsimp only
  rw [if_neg hend, assertAlways_of_true hdone, assertAlways_of_true hs]
  set n := if 4 ≤ min r.availToRead s then min r.availToRead s - min r.availToRead s % 4
    else min r.availToRead s with hn
  obtain ⟨hle, hles, hlong, hshort⟩ := count_spec hs hn
  have hresult : ∀ rhead bytes, bytes = window r.p r.alloc r.rhead n →
      (if rhead = r.alloc then 0 else rhead) = wrap r.alloc (r.rhead + n) →
      bytes = u.take bytes.length ∧
      Rollbuf.Holds ⟨r.p, r.alloc, if rhead = r.alloc then 0 else rhead, r.whead,
        r.availToRead - n, r.availToWrite + n, r.done⟩ (u.drop bytes.length) ∧ r.done = r.done ∧
      bytes.length ≤ min r.availToRead s ∧
      (bytes ≠ [] ∧ 4 ∣ bytes.length ∨ r.done = true ∧ bytes.length = r.availToRead) := by
    rintro rhead bytes rfl hplace
    rw [length_window, ← h.window, window_take hle]
    refine ⟨rfl, ⟨by dsimp only; omega, ?_, ?_, ?_⟩, rfl, le_min hle hles, ?_⟩
    · dsimp only
      rw [hplace]
      unfold wrap
      split_ifs <;> omega
    · dsimp only
      rw [hplace, h.whead]
      unfold wrap
      split_ifs <;> omega
    · dsimp only
      rw [hplace, window_drop (by omega) (by omega) hle]
    · by_cases hlt : r.availToRead < 4
      · exact Or.inr ⟨hdone hlt, hshort hlt⟩
      · obtain ⟨hpos, hdvd⟩ := hlong (not_lt.mp hlt)
        refine Or.inl ⟨fun hnil => ?_, hdvd⟩
        have hlength := congrArg List.length hnil
        rw [length_window] at hlength
        exact hpos.ne' hlength
  by_cases hone : r.availToRead ≤ r.alloc - r.rhead ∨ n ≤ r.alloc - r.rhead
  · have htail : n ≤ r.alloc - r.rhead := by omega
    rw [if_pos hone, assertAlways_of_true htail]
    refine ⟨_, _, rfl, hresult (r.rhead + n) _ ?_ ?_⟩
    · exact (window_eq_range' (by omega)).symm
    · unfold wrap
      split_ifs <;> omega
  · have htail : r.alloc - r.rhead > 0 ∧ n > r.alloc - r.rhead ∧
        r.availToRead > r.alloc - r.rhead := by omega
    rw [if_neg hone, assertAlways_of_true htail.1, assertAlways_of_true htail.2.1,
      assertAlways_of_true htail.2.2, assertAlways_of_true (Nat.sub_le_sub_right hle _)]
    refine ⟨_, _, rfl, hresult (n - (r.alloc - r.rhead)) _ ?_ ?_⟩
    · have hwrap : wrap r.alloc (r.rhead + (r.alloc - r.rhead)) = 0 := by
        unfold wrap
        split_ifs <;> omega
      have hparts : window r.p r.alloc r.rhead (r.alloc - r.rhead + (n - (r.alloc - r.rhead))) = _ :=
        window_add (by omega) (by omega)
      have hfirst : window r.p r.alloc r.rhead (r.alloc - r.rhead) = _ :=
        window_eq_range' (by omega)
      have hrest : window r.p r.alloc 0 (n - (r.alloc - r.rhead)) = _ :=
        window_eq_range' (by omega)
      rw [Nat.add_sub_cancel' htail.2.1.le, hwrap, hfirst, hrest, ← List.range_eq_range'] at hparts
      exact hparts.symm
    · unfold wrap
      split_ifs <;> omega

end Buffer

/-! ## The two parties -/

section Parties

variable {m : Memory} {st st' : State} {b : List (BitVec 8)} {s : ℕ} {l : Label}

/-- The bytes that have been copied for the reader. -/
def State.got (st : State) : List (BitVec 8) := st.gets.flatMap Prod.snd

/-- The buffer has the unread bytes in order, and the reader has had the first ones: every call has
returned the number of bytes that it copied, a positive multiple of four until the end. -/
structure State.Correct (st : State) : Prop where
  failed : st.failed = false
  sum : st.r.availToRead + st.r.availToWrite = st.r.alloc
  whead : st.r.whead = wrap st.r.alloc (st.r.rhead + st.r.availToRead)
  unread : window st.r.p st.r.alloc st.r.rhead st.r.availToRead = st.put.drop st.got.length
  got : st.got <+: st.put
  returned : ∀ e ∈ st.gets, e.1 = e.2.length ∧
    (e.2 ≠ [] ∧ 4 ∣ e.2.length ∨ st.r.done = true ∧ st.got = st.put)

/-- The steps that go well: the reader wakes up when the end is marked or four bytes are there, and
what a call returns is below `2 ^ 31`. -/
def Allowed (st : State) : Label → Prop
  | .get s => min st.r.availToRead s < 2 ^ 31
  | .wakeGet => (st.r.done = true ∨ 4 ≤ st.r.availToRead) ∧
      ∀ s, st.reader = .waiting s → min st.r.availToRead s < 2 ^ 31
  | _ => True

/-- What all the allowed steps keep. -/
structure Inv (st : State) : Prop where
  failed : st.failed = false
  held : st.r.Holds (st.put.drop st.got.length)
  got : st.got <+: st.put
  returned : ∀ e ∈ st.gets, e.1 = e.2.length ∧
    (e.2 ≠ [] ∧ 4 ∣ e.2.length ∨ st.r.done = true ∧ st.got = st.put)
  writing : st.writer ≠ .finished → st.r.done = false
  waiting : ∀ s, st.reader = .waiting s → 4 ≤ s

theorem Inv.correct (h : Inv st) : st.Correct where
  failed := h.failed
  sum := h.held.sum
  whead := h.held.whead
  unread := h.held.window
  got := h.got
  returned := h.returned

theorem Inv.putBytes (h : Inv st) (hw : st.writer ≠ .finished) : Inv (st.putBytes m b) := by
  obtain ⟨hheld, hdone, hroom⟩ := makeRoom_spec m h.held b.length
  have hopen := h.writing hw
  rw [hopen] at hdone
  have hreturned : ∀ e ∈ st.gets, e.1 = e.2.length ∧ (e.2 ≠ [] ∧ 4 ∣ e.2.length) := by
    intro e he
    obtain ⟨heq, hdvd | hend⟩ := h.returned e he
    · exact ⟨heq, hdvd⟩
    · exact absurd hend.1 (by rw [hopen]; decide)
  unfold State.putBytes
  dsimp only
  by_cases hwait : (st.r.makeRoom m b.length).2 = true
  · rw [if_pos hwait]
    exact { h with
      held := hheld
      returned := fun e he => ⟨(hreturned e he).1, Or.inl (hreturned e he).2⟩
      writing := fun _ => hdone }
  · rw [if_neg hwait]
    obtain ⟨r', hwrite, hheld', hdone'⟩ :=
      write_spec hheld (hroom (Bool.eq_false_of_not_eq_true hwait))
    rw [hwrite]
    refine { h with
      held := ?_
      got := h.got.trans (List.prefix_append _ _)
      returned := fun e he => ⟨(hreturned e he).1, Or.inl (hreturned e he).2⟩
      writing := fun _ => hdone'.trans hdone }
    show r'.Holds ((st.put ++ b).drop st.got.length)
    rwa [List.drop_append_of_le_length h.got.length_le]

theorem bmod_of_lt {n : ℕ} (h : n < 2 ^ 31) : (n : ℤ).bmod (2 ^ 32) = n := by
  apply Int.bmod_eq_of_le_mul_two
  · simp only [Nat.cast_pow, Nat.cast_ofNat]
    omega
  · simp only [Nat.cast_pow, Nat.cast_ofNat]
    omega

/-- A get moves the start of the window. -/
theorem Inv.getBytes (h : Inv st) (hs : 4 ≤ s)
    (hready : st.r.done = true ∨ 4 ≤ st.r.availToRead) (hsmall : min st.r.availToRead s < 2 ^ 31) :
    Inv (st.getBytes s) := by
  obtain ⟨r', bytes, hread, htake, hheld, hdone, hle, hend⟩ := read_spec h.held hs hready
  obtain ⟨rest, hrest⟩ := h.got
  rw [← hrest, List.drop_left] at htake hheld
  have hrest' : rest = bytes ++ rest.drop bytes.length := by
    conv_lhs => rw [← List.take_append_drop bytes.length rest, ← htake]
  have hgot : (st.getBytes s).got = st.got ++ bytes := by
    rw [State.got, State.getBytes, hread]
    dsimp only
    rw [List.flatMap_append, List.flatMap_singleton]
    rfl
  have hput : (st.getBytes s).put = st.got ++ bytes ++ rest.drop bytes.length := by
    rw [List.append_assoc, ← hrest', hrest, State.getBytes, hread]
  have hall : rest.length ≤ bytes.length → (st.getBytes s).got = (st.getBytes s).put := by
    intro hlong
    rw [hgot, hput, List.drop_eq_nil_of_le hlong, List.append_nil]
  refine ⟨?_, ?_, ?_, fun e he => ?_, ?_, ?_⟩
  · rw [State.getBytes, hread]
    exact h.failed
  · rw [hgot, hput, List.drop_left, State.getBytes, hread]
    exact hheld
  · rw [hgot, hput]
    exact List.prefix_append _ _
  · have hgets : (st.getBytes s).gets
        = st.gets ++ [((bytes.length : ℤ).bmod (2 ^ 32), bytes)] := by rw [State.getBytes, hread]
    have hdone' : (st.getBytes s).r.done = st.r.done := by
      rw [State.getBytes, hread]
      exact hdone
    rw [hdone']
    rw [hgets] at he
    rcases List.mem_append.mp he with hold | hnew
    · obtain ⟨heq, hdvd | ⟨hmarked, hread⟩⟩ := h.returned e hold
      · exact ⟨heq, Or.inl hdvd⟩
      · refine ⟨heq, Or.inr ⟨hmarked, hall ?_⟩⟩
        have hlength := congrArg List.length hrest
        rw [List.length_append, hread] at hlength
        omega
    · rw [List.mem_singleton.mp hnew]
      dsimp only
      refine ⟨bmod_of_lt (lt_of_le_of_lt hle hsmall), hend.imp_right fun hlast => ⟨hlast.1, ?_⟩⟩
      have hlength := h.held.length
      rw [← hrest, List.drop_left] at hlength
      exact hall (hlength.trans hlast.2.symm).le
  · rw [State.getBytes, hread]
    exact fun hw => hdone.trans (h.writing hw)
  · rw [State.getBytes, hread]
    exact nofun

/-- Every allowed step keeps the window of the ring. -/
theorem Inv.step (h : Inv st) (hok : Allowed st l) (hstep : st.step m l = some st') : Inv st' := by
  unfold State.step at hstep
  cases l with
  | put b =>
    dsimp only at hstep
    cases hw : st.writer with
    | ready =>
      rw [hw] at hstep
      obtain rfl := Option.some.inj hstep
      exact h.putBytes (by rw [hw]; nofun)
    | waiting b' => rw [hw] at hstep; cases hstep
    | finished => rw [hw] at hstep; cases hstep
  | wakePut =>
    dsimp only at hstep
    cases hw : st.writer with
    | ready => rw [hw] at hstep; cases hstep
    | waiting b =>
      rw [hw] at hstep
      obtain rfl := Option.some.inj hstep
      exact h.putBytes (by rw [hw]; nofun)
    | finished => rw [hw] at hstep; cases hstep
  | markDone =>
    dsimp only at hstep
    cases hw : st.writer with
    | ready =>
      have hopen := h.writing (by rw [hw]; nofun)
      rw [hw, hopen] at hstep
      obtain rfl := Option.some.inj hstep
      exact { h with
        held := ⟨h.held.sum, h.held.rhead, h.held.whead, h.held.window⟩
        returned := fun e he =>
          ⟨(h.returned e he).1, (h.returned e he).2.imp_right fun hend => ⟨rfl, hend.2⟩⟩
        writing := fun hne => absurd rfl hne }
    | waiting b => rw [hw] at hstep; cases hstep
    | finished => rw [hw] at hstep; cases hstep
  | get s =>
    dsimp only at hstep
    cases hr : st.reader with
    | ready =>
      rw [hr] at hstep
      dsimp only at hstep
      split_ifs at hstep with hs hwait
      · obtain rfl := Option.some.inj hstep
        exact { h with waiting := fun s' heq => by cases heq; exact hs }
      · obtain rfl := Option.some.inj hstep
        refine h.getBytes hs ?_ hok
        by_contra hearly
        rw [not_or, not_le] at hearly
        exact hwait hearly
    | waiting s' => rw [hr] at hstep; cases hstep
  | wakeGet =>
    dsimp only at hstep
    cases hr : st.reader with
    | ready => rw [hr] at hstep; cases hstep
    | waiting s =>
      rw [hr] at hstep
      obtain rfl := Option.some.inj hstep
      exact h.getBytes (h.waiting s hr) hok.1 (hok.2 s hr)

/-- In every run of allowed steps the reader gets the bytes in order. -/
theorem rollbuf_correct (h : Run m Allowed st) : st.Correct := by
  have hinv : Inv st := by
    induction h with
    | start mem =>
      exact ⟨rfl, ⟨rfl, Or.inr ⟨rfl, rfl⟩, rfl, rfl⟩, List.nil_prefix, nofun, fun _ => rfl, nofun⟩
    | step _ hok hstep ih => exact ih.step hok hstep
  exact hinv.correct

/-- An empty buffer grows by a page. -/
theorem makeRoom_init {k : ℕ} (hk : 0 < k) (hle : k ≤ 4096) :
    (rollbufInit 0).r.makeRoom ⟨4096, 0⟩ k = ((rollbufInit 0).r.grow ⟨4096, 0⟩, false) := by
  have hroom : ((rollbufInit 0).r.grow ⟨4096, 0⟩).availToWrite = 4096 := rfl
  rw [Rollbuf.makeRoom, if_pos (by exact hk), if_neg (fun h => absurd h.1 (by decide)),
    Rollbuf.makeRoom, hroom,
    if_neg hle.not_gt]

/-- The reader waits, five bytes are put, the reader wakes up and gets four of them, the end is
marked, and the reader gets the last byte and then nothing. -/
theorem rollbuf_correct_five :
    let wait : State := { rollbufInit 0 with reader := .waiting 8 }
    let st := (wait.putBytes ⟨4096, 0⟩ [1#8, 2#8, 3#8, 4#8, 5#8]).getBytes 8
    let done : State := { st with r := { st.r with done := true }, writer := .finished }
    let last := (done.getBytes 8).getBytes 8
    last.gets = [(4, [1#8, 2#8, 3#8, 4#8]), (1, [5#8]), (0, [])] ∧ last.Correct := by
  intro wait st done last
  have hput : wait.putBytes ⟨4096, 0⟩ [1#8, 2#8, 3#8, 4#8, 5#8] =
      ⟨⟨memcpy 0 0 (fun i => [1#8, 2#8, 3#8, 4#8, 5#8].getD i 0#8) 5, 4096, 0, 5, 5, 4091, false⟩,
        .ready, .waiting 8, [1#8, 2#8, 3#8, 4#8, 5#8], [], false⟩ := by
    rw [State.putBytes, show wait.r.makeRoom _ _ = _ from makeRoom_init (by decide) (by decide)]
    rfl
  have hget : Run ⟨4096, 0⟩ Allowed wait :=
    .step (.start 0) (l := .get 8) (show (0 : ℕ) < 2 ^ 31 by decide) rfl
  have hfive := Run.step hget (l := .put [1#8, 2#8, 3#8, 4#8, 5#8]) trivial rfl
  have hwake : Run ⟨4096, 0⟩ Allowed st := .step hfive (l := .wakeGet)
    ⟨by rw [hput]; decide, by rw [hput]; rintro _ ⟨⟩; decide⟩
    (by simp only [st, hput]; rfl)
  have hdone : Run ⟨4096, 0⟩ Allowed done :=
    .step hwake (l := .markDone) trivial (by simp only [st, done, hput]; rfl)
  have hone : Run ⟨4096, 0⟩ Allowed (done.getBytes 8) :=
    .step hdone (l := .get 8) (by simp only [Allowed, st, done, hput]; decide)
      (by simp only [st, done, hput]; rfl)
  have hend : Run ⟨4096, 0⟩ Allowed last :=
    .step hone (l := .get 8) (by simp only [Allowed, st, done, hput]; decide)
      (by simp only [st, done, last, hput]; rfl)
  have hst : last.gets = [(4, [1#8, 2#8, 3#8, 4#8]), (1, [5#8]), (0, [])] := by
    simp only [last, done, st, hput]
    decide
  exact ⟨hst, rollbuf_correct hend⟩

/-- A reader that waits is woken up by a single byte, and an assertion fails. -/
theorem not_rollbuf_correct :
    ¬∀ (m : Memory) (st : State), Run m (fun _ _ => True) st → st.Correct := by
  intro hall
  set m : Memory := ⟨4096, 0⟩
  set st₁ : State := { rollbufInit 0 with reader := .waiting 4 }
  obtain ⟨hheld, hdone⟩ := grow_spec m (r := (rollbufInit 0).r) (u := [])
    ⟨rfl, Or.inr ⟨rfl, rfl⟩, rfl, rfl⟩
  obtain ⟨r, hwrite, hheld', hdone'⟩ := write_spec hheld (b := [1#8]) (by decide)
  have hput : st₁.putBytes m [1#8] = { st₁ with r := r, put := [1#8] } := by
    unfold State.putBytes
    rw [show st₁.r.makeRoom m [1#8].length = _ from makeRoom_init (by decide) (by decide)]
    dsimp only
    rw [if_neg (by decide), hwrite]
    rfl
  have hfail : r.read 4 = none := by
    rw [Rollbuf.read, assertAlways_of_false]
    · rfl
    · rw [← hheld'.length, hdone', hdone]
      decide
  have hget : Run m (fun _ _ => True) st₁ := .step (.start 0) (l := .get 4) trivial rfl
  have hone : Run m (fun _ _ => True) { st₁ with r := r, put := [1#8] } :=
    .step hget (l := .put [1#8]) trivial (congrArg some hput)
  have hfailed := (hall m _ (.step hone (l := .wakeGet) trivial rfl)).failed
  rw [State.getBytes] at hfailed
  dsimp only at hfailed
  rw [hfail] at hfailed
  cases hfailed

end Parties

end CadoNfs.RollingBuffer
