import CadoNfs.Lib.Tally
import Mathlib.Data.BitVec

/-!
# The barrier

`barrier_wait` of `barrier.c`, called again and again by `count` threads.  What a thread does with
the mutex is one step, and a thread in `pthread_cond_wait` may wake up at any time.

Main results:

- Theorem `leave_phase`: a thread leaves the barrier, perhaps as the last one.
- Theorem `Phase.step`: what every step keeps.
- Theorem `Phase.exists_step`: a round that all threads have entered goes on.
- Theorem `barrierWait_spec`: the rounds of a run.
-/

namespace CadoNfs.Barrier

open Function Tally
open List (append_assoc map_nil prefix_append range)

/-! ## Code -/

/-- Where a thread is: between two calls, before the first test of `barrier_wait` or in the wait
after it, or in the second wait, with its copy of `event`. -/
inductive Thread where
  | outside
  | gate
  | waiting (event : BitVec 32)

/-- The calls `(*in)(left, arg)` and `(*out)(left, arg)`. -/
inductive Callback where
  | arrive (left : ℤ)
  | depart (left : ℤ)

/-- `barrier_t`, and the threads.  The calls begun by every thread, what its calls have returned
(`true` for `BARRIER_SERIAL_THREAD`) and the callbacks are kept. -/
structure State (count : ℕ) where
  left : ℤ
  event : BitVec 32
  thread : Fin count → Thread
  entered : Fin count → ℕ
  rets : Fin count → List Bool
  log : List Callback

variable {count : ℕ}

/-- `barrier_init`. -/
def barrierInit (count : ℕ) : State count :=
  ⟨count, 0, fun _ => .outside, fun _ => 0, fun _ => [], []⟩

/-- A thread calls `barrier_wait`. -/
def State.call (s : State count) (t : Fin count) : State count :=
  { s with thread := update s.thread t .gate, entered := update s.entered t (s.entered t + 1) }

/-- The end of `barrier_wait`, from the call of `out` on. -/
def State.leave (s : State count) (t : Fin count) (serial : Bool) : State count :=
  let s := { s with
    log := s.log ++ [.depart s.left]
    left := s.left + 1
    thread := update s.thread t .outside
    rets := update s.rets t (s.rets t ++ [serial]) }
  if s.left = (count : ℤ) then { s with event := s.event + 1#32 } else s

/-- The test of the first loop, and what follows when it fails. -/
def State.pass (s : State count) (t : Fin count) : State count :=
  if s.event &&& 1#32 ≠ 0#32 then s
  else
    let s : State count := { s with left := s.left - 1, log := s.log ++ [.arrive (s.left - 1)] }
    if s.left ≠ 0 then { s with thread := update s.thread t (.waiting s.event) }
    else { s with event := s.event + 1#32 }.leave t true

/-- The test of the second loop, and what follows when it fails. -/
def State.wake (s : State count) (t : Fin count) (event : BitVec 32) : State count :=
  if event = s.event then s else s.leave t false

/-- One step of a thread. -/
inductive Step (s : State count) : State count → Prop
  | call (t : Fin count) (h : s.thread t = .outside) : Step s (s.call t)
  | pass (t : Fin count) (h : s.thread t = .gate) : Step s (s.pass t)
  | wake (t : Fin count) (event : BitVec 32) (h : s.thread t = .waiting event) :
    Step s (s.wake t event)

/-! ## Rounds -/

/-- The first `a` calls of `in` of a round. -/
def ins (count a : ℕ) : List Callback :=
  (range a).map fun i : ℕ => .arrive ((count : ℤ) - 1 - i)

/-- The first `b` calls of `out` of a round. -/
def outs (b : ℕ) : List Callback :=
  (range b).map fun i : ℕ => .depart i

/-- The callbacks of `R` rounds. -/
def rounds (count R : ℕ) : List Callback :=
  (List.replicate R (ins count count ++ outs count)).flatten

/-- One thread gets `BARRIER_SERIAL_THREAD` from its `k`-th call. -/
def OneSerial (rets : Fin count → List Bool) (k : ℕ) : Prop :=
  ∃! t, (rets t)[k]? = some true

/-- The even value of `event` in round `R`; the next one stands while the threads leave. -/
def arriveEvent (R : ℕ) : BitVec 32 :=
  BitVec.ofNat 32 (2 * R)

def Thread.isWaiting : Thread → Bool
  | .waiting _ => true
  | _ => false

/-- A thread in round `R`, while the threads arrive. -/
def Arriving (s : State count) (R : ℕ) (t : Fin count) : Prop :=
  (s.rets t).length = R ∧ (s.thread t = .outside ∧ s.entered t = R ∨
    (s.thread t = .gate ∨ s.thread t = .waiting (arriveEvent R)) ∧ s.entered t = R + 1)

/-- A thread in round `R`, while the threads leave: it waits, or has left and may have called
again. -/
def Leaving (s : State count) (R : ℕ) (t : Fin count) : Prop :=
  s.thread t = .waiting (arriveEvent R) ∧ (s.rets t).length = R ∧ s.entered t = R + 1 ∨
    (s.rets t).length = R + 1 ∧ (s.thread t = .outside ∧ s.entered t = R + 1 ∨
      s.thread t = .gate ∧ s.entered t = R + 2)

/-- Where a run is. -/
inductive Phase (s : State count) : Prop
  | arriving (R a : ℕ) (ha : a < count) (hleft : s.left = count - a)
      (hevent : s.event = arriveEvent R) (hlog : s.log = rounds count R ++ ins count a)
      (hwaiters : tally Thread.isWaiting s.thread = a) (hthread : ∀ t, Arriving s R t)
      (hserial : ∀ k < R, OneSerial s.rets k)
  | leaving (R b : ℕ) (hb : b < count) (hleft : s.left = b)
      (hevent : s.event = arriveEvent R + 1#32)
      (hlog : s.log = rounds count R ++ (ins count count ++ outs b))
      (hwaiters : tally Thread.isWaiting s.thread + b = count) (hthread : ∀ t, Leaving s R t)
      (hserial : ∀ k < R + 1, OneSerial s.rets k)

section Run

variable {s : State count} {R b : ℕ} {t : Fin count}

theorem arriveEvent_and (R : ℕ) : arriveEvent R &&& 1#32 = 0#32 := by
  apply BitVec.eq_of_toNat_eq
  rw [arriveEvent, BitVec.toNat_and, BitVec.toNat_ofNat]
  simp [Nat.and_one_is_mod]

theorem arriveEvent_add_and (R : ℕ) : (arriveEvent R + 1#32) &&& 1#32 ≠ 0#32 := by
  intro h
  have hnat := congrArg BitVec.toNat h
  rw [arriveEvent, BitVec.toNat_and, BitVec.toNat_add, BitVec.toNat_ofNat] at hnat
  simp [Nat.and_one_is_mod] at hnat

theorem arriveEvent_succ (R : ℕ) : arriveEvent R + 1#32 + 1#32 = arriveEvent (R + 1) := by
  apply BitVec.eq_of_toNat_eq
  simp only [arriveEvent, BitVec.toNat_add, BitVec.toNat_ofNat]
  omega

theorem rounds_succ (count R : ℕ) :
    rounds count R ++ (ins count count ++ outs count) = rounds count (R + 1) := by
  rw [rounds, rounds, List.replicate_succ', List.flatten_append, List.flatten_singleton]

theorem getElem?_rets (rets : Fin count → List Bool) (t u : Fin count) (serial : Bool) (k : ℕ) :
    (update rets t (rets t ++ [serial]) u)[k]? = some true ↔
      (rets u)[k]? = some true ∨ u = t ∧ k = (rets t).length ∧ serial = true := by
  by_cases hu : u = t
  · subst hu
    rw [update_self, List.getElem?_append]
    split_ifs with hk
    · simp [hk.ne]
    · rw [List.getElem?_eq_none (not_lt.mp hk), List.getElem?_singleton]
      split_ifs with h0
      · simp [show k = (rets u).length by omega]
      · simp [show k ≠ (rets u).length by omega]
  · simp [hu]

/-- The rounds before stay as they are. -/
theorem oneSerial_of_lt {serial : Bool} {k : ℕ} (hlen : (s.rets t).length = R) (hk : k < R)
    (h : OneSerial s.rets k) : OneSerial (update s.rets t (s.rets t ++ [serial])) k := by
  unfold OneSerial at h ⊢
  refine (existsUnique_congr fun u => ?_).mpr h
  rw [getElem?_rets]
  exact or_iff_left fun hu => hk.ne (hu.2.1.trans hlen)

/-- A thread leaves while the others wait or have left. -/
theorem leave_phase {serial : Bool} (hb : b < count) (hleft : s.left = b)
    (hevent : s.event = arriveEvent R + 1#32)
    (hlog : s.log = rounds count R ++ (ins count count ++ outs b))
    (hwaiters : tally Thread.isWaiting (update s.thread t .outside) + (b + 1) = count)
    (hlen : (s.rets t).length = R) (hentered : s.entered t = R + 1)
    (hrest : ∀ u ≠ t, Leaving s R u) (hserial : ∀ k < R, OneSerial s.rets k)
    (hlast : OneSerial (update s.rets t (s.rets t ++ [serial])) R) :
    Phase (s.leave t serial) := by
  have hlog' : s.log ++ [.depart s.left] = rounds count R ++ (ins count count ++ outs (b + 1)) := by
    rw [hlog, hleft, outs, outs, List.range_succ, List.map_append, append_assoc, append_assoc]
    rfl
  have hserial' : ∀ k < R + 1, OneSerial (update s.rets t (s.rets t ++ [serial])) k := by
    intro k hk
    obtain hk | rfl := Nat.lt_succ_iff_lt_or_eq.mp hk
    · exact oneSerial_of_lt hlen hk (hserial k hk)
    · exact hlast
  have hthread : ∀ s' : State count, s'.thread = update s.thread t .outside →
      s'.rets = update s.rets t (s.rets t ++ [serial]) → s'.entered = s.entered →
      ∀ u, Leaving s' R u := by
    intro s' hth hr he u
    unfold Leaving
    rw [hth, hr, he]
    by_cases hu : u = t
    · subst hu
      exact .inr ⟨by simp [hlen], .inl ⟨update_self _ _ _, hentered⟩⟩
    · rw [update_of_ne hu, update_of_ne hu]
      exact hrest u hu
  have hcast : s.left + 1 = ((b + 1 : ℕ) : ℤ) := by rw [hleft]; rfl
  unfold State.leave
  dsimp only
  split_ifs with hfull
  · -- the last thread: nobody waits any more, and the next round begins
    have hlastb : b + 1 = count := by exact_mod_cast hcast.symm.trans hfull
    have hzero := tally_eq_zero_iff.mp (show tally Thread.isWaiting
      (update s.thread t .outside) = 0 by omega)
    refine .arriving (R + 1) 0 (by omega) (by simpa using hfull) ?_ ?_ (by dsimp only; omega)
      (fun u => ?_) hserial'
    · rw [← arriveEvent_succ, ← hevent]
    · dsimp only
      rw [← rounds_succ, hlog', hlastb, ins, ins, List.range_zero, map_nil, List.append_nil]
    · obtain ⟨hw, -⟩ | ⟨hl, hw⟩ := hthread { s with
          log := s.log ++ [.depart s.left]
          left := s.left + 1
          thread := update s.thread t .outside
          rets := update s.rets t (s.rets t ++ [serial])
          event := s.event + 1#32 } rfl rfl rfl u
      · exact absurd ((congrArg Thread.isWaiting hw).symm.trans (hzero u)) nofun
      · exact ⟨hl, hw.imp id fun hg => ⟨.inl hg.1, hg.2⟩⟩
  · have hne : b + 1 ≠ count := fun heq => hfull (by rw [hcast, heq])
    exact .leaving R (b + 1) (by omega) hcast hevent hlog' hwaiters (hthread _ rfl rfl rfl) hserial'

theorem isWaiting_update {w : Thread} {x : Thread} (ht : s.thread t = w) (hw : w.isWaiting = false)
    (hx : x.isWaiting = false) :
    tally Thread.isWaiting (update s.thread t x) = tally Thread.isWaiting s.thread := by
  have := tally_update Thread.isWaiting s.thread t x
  rw [ht, hw, hx] at this
  exact Nat.add_right_cancel this

/-- Every step of a thread keeps the phase or leads to the next one. -/
theorem Phase.step {s' : State count} (h : Phase s) (hstep : Step s s') : Phase s' := by
  cases hstep with
  | call t ht =>
    have htally := isWaiting_update (x := .gate) ht rfl rfl
    cases h with
    | arriving R a ha hleft hevent hlog hwaiters hthread hserial =>
      refine .arriving R a ha hleft hevent hlog (htally.trans hwaiters) (fun u => ?_) hserial
      by_cases hu : u = t
      · subst hu
        obtain ⟨hl, ⟨-, he⟩ | ⟨hw | hw, -⟩⟩ := hthread u
        · exact ⟨hl, .inr ⟨.inl (update_self _ _ _), by simp [State.call, he]⟩⟩
        · exact absurd (hw.symm.trans ht) nofun
        · exact absurd (hw.symm.trans ht) nofun
      · simpa [Arriving, State.call, hu] using hthread u
    | leaving R b hb hleft hevent hlog hwaiters hthread hserial =>
      refine .leaving R b hb hleft hevent hlog ((congrArg (· + b) htally).trans hwaiters)
        (fun u => ?_) hserial
      by_cases hu : u = t
      · subst hu
        obtain ⟨hw, -⟩ | ⟨hl, ⟨-, he⟩ | ⟨hw, -⟩⟩ := hthread u
        · exact absurd (hw.symm.trans ht) nofun
        · exact .inr ⟨hl, .inr ⟨update_self _ _ _, by simp [State.call, he]⟩⟩
        · exact absurd (hw.symm.trans ht) nofun
      · simpa [Leaving, State.call, hu] using hthread u
  | pass t ht =>
    cases h with
    | arriving R a ha hleft hevent hlog hwaiters hthread hserial =>
      have hlog' : s.log ++ [.arrive (s.left - 1)] = rounds count R ++ ins count (a + 1) := by
        rw [hlog, hleft, ins, ins, List.range_succ, List.map_append, append_assoc]
        simp [sub_right_comm]
      obtain ⟨hlen, ⟨hw, -⟩ | ⟨-, hentered⟩⟩ := hthread t
      · exact absurd (hw.symm.trans ht) nofun
      have hwait := tally_update Thread.isWaiting s.thread t (.waiting (arriveEvent R))
      rw [ht] at hwait
      change _ + 0 = _ + 1 at hwait
      rw [State.pass, if_neg (by rw [hevent]; exact not_not.mpr (arriveEvent_and R))]
      dsimp only
      split_ifs with hlast
      · have hne : a + 1 ≠ count := fun heq => hlast (by rw [hleft]; omega)
        refine .arriving R (a + 1) (by omega) (by dsimp only; omega) hevent hlog' ?_ (fun u => ?_)
          hserial
        · dsimp only
          rw [hevent]
          omega
        · by_cases hu : u = t
          · subst hu
            exact ⟨hlen, .inr ⟨.inr (by simp [hevent]), hentered⟩⟩
          · simpa [Arriving, hu] using hthread u
      · -- the last thread arrives, all others wait, and it leaves at once
        have hcount : a + 1 = count := by omega
        have hall := tally_eq_iff.mp (show tally Thread.isWaiting
          (update s.thread t (.waiting (arriveEvent R))) = count by omega)
        refine leave_phase (b := 0) (by omega) (by dsimp only; omega) (by rw [← hevent]) ?_ ?_ hlen
          hentered (fun u hu => ?_) hserial ?_
        · dsimp only
          rw [hlog', hcount, outs, List.range_zero, map_nil, List.append_nil]
        · have := isWaiting_update (x := .outside) ht rfl rfl
          dsimp only
          omega
        · have hwu := hall u
          rw [update_of_ne hu] at hwu
          obtain ⟨hl, ⟨hw, -⟩ | ⟨hw | hw, he⟩⟩ := hthread u
          · simp [hw, Thread.isWaiting] at hwu
          · simp [hw, Thread.isWaiting] at hwu
          · exact .inl ⟨hw, hl, he⟩
        · refine ⟨t, (getElem?_rets _ _ _ _ _).mpr (.inr ⟨rfl, hlen.symm, rfl⟩), fun u hu => ?_⟩
          refine ((getElem?_rets _ _ _ _ _).mp hu).elim (fun h => ?_) And.left
          rw [List.getElem?_eq_none (hthread u).1.le] at h
          exact absurd h nofun
    | leaving R b hb hleft hevent hlog hwaiters hthread hserial =>
      rw [State.pass, if_pos (by rw [hevent]; exact arriveEvent_add_and R)]
      exact .leaving R b hb hleft hevent hlog hwaiters hthread hserial
  | wake t event ht =>
    cases h with
    | arriving R a ha hleft hevent hlog hwaiters hthread hserial =>
      obtain ⟨-, ⟨hw, -⟩ | ⟨hw | hw, -⟩⟩ := hthread t
      · exact absurd (hw.symm.trans ht) nofun
      · exact absurd (hw.symm.trans ht) nofun
      · rw [State.wake, if_pos (by rw [hevent, Thread.waiting.inj (hw.symm.trans ht)])]
        exact .arriving R a ha hleft hevent hlog hwaiters hthread hserial
    | leaving R b hb hleft hevent hlog hwaiters hthread hserial =>
      obtain ⟨hw, hlen, hentered⟩ | ⟨-, ⟨hw, -⟩ | ⟨hw, -⟩⟩ := hthread t
      · have hne : event ≠ s.event := by
          rw [← Thread.waiting.inj (hw.symm.trans ht), hevent]
          intro heq
          exact arriveEvent_add_and R (heq ▸ arriveEvent_and R)
        have hwait := tally_update Thread.isWaiting s.thread t .outside
        rw [ht] at hwait
        change _ + 1 = _ + 0 at hwait
        rw [State.wake, if_neg hne]
        refine leave_phase hb hleft hevent hlog (by omega) hlen hentered (fun u _ => hthread u)
          (fun k hk => hserial k (by omega)) ?_
        refine (existsUnique_congr fun u => ?_).mpr (hserial R R.lt_succ_self)
        rw [getElem?_rets]
        simp
      · exact absurd (hw.symm.trans ht) nofun
      · exact absurd (hw.symm.trans ht) nofun

theorem phase_init (hcount : 0 < count) : Phase (barrierInit count) :=
  .arriving 0 0 hcount (by simp [barrierInit]) rfl rfl
    (by simp [barrierInit, tally, Thread.isWaiting]) (fun _ => ⟨rfl, .inl ⟨rfl, rfl⟩⟩) nofun

/-! ## Progress -/

/-- How many steps a thread is away from having returned `k + 1` times. -/
def rank (s : State count) (k : ℕ) (t : Fin count) : ℕ :=
  if k < (s.rets t).length then 0 else if (s.thread t).isWaiting then 1 else 2

/-- `out` is called, and the thread has returned once more. -/
theorem leave_eq (s : State count) (t : Fin count) (serial : Bool) :
    (s.leave t serial).thread = update s.thread t .outside ∧
      (s.leave t serial).rets = update s.rets t (s.rets t ++ [serial]) ∧
      (s.leave t serial).entered = s.entered := by
  unfold State.leave
  dsimp only
  split_ifs <;> exact ⟨rfl, rfl, rfl⟩

/-- The thread that moves comes closer to its return, and the others stay. -/
theorem sum_rank_lt {s' : State count} {k : ℕ} {x : Thread} {r : List Bool}
    (hthread : s'.thread = update s.thread t x) (hrets : s'.rets = update s.rets t r)
    (hlt : rank s' k t < rank s k t) : ∑ u, rank s' k u < ∑ u, rank s k u := by
  refine Finset.sum_lt_sum (fun u _ => ?_) ⟨t, Finset.mem_univ t, hlt⟩
  by_cases hu : u = t
  · exact hu ▸ hlt.le
  · rw [rank, rank, hthread, hrets, update_of_ne hu, update_of_ne hu]

/-- A thread that leaves has no step left to take. -/
theorem sum_rank_leave_lt {s' : State count} {k : ℕ} {serial : Bool}
    (hthread : s'.thread = s.thread) (hrets : s'.rets = s.rets)
    (hlen : (s.rets t).length = k) :
    ∑ u, rank (s'.leave t serial) k u < ∑ u, rank s k u := by
  obtain ⟨hth, hr, -⟩ := leave_eq s' t serial
  rw [hthread] at hth
  rw [hrets] at hr
  refine sum_rank_lt hth hr ?_
  rw [rank, rank, hr, update_self, List.length_append, hlen, if_pos (by simp),
    if_neg (lt_irrefl k)]
  split_ifs <;> simp

/-- While the threads leave, one of them still waits. -/
theorem exists_waiting (hb : b < count)
    (hwaiters : tally Thread.isWaiting s.thread + b = count) (hthread : ∀ t, Leaving s R t) :
    ∃ u, s.thread u = .waiting (arriveEvent R) ∧ (s.rets u).length = R ∧ s.entered u = R + 1 := by
  by_contra hnone
  have hzero : tally Thread.isWaiting s.thread = 0 := by
    refine tally_eq_zero_iff.mpr fun u => ?_
    obtain hu | ⟨-, ⟨hw, -⟩ | ⟨hw, -⟩⟩ := hthread u
    · exact absurd ⟨u, hu⟩ hnone
    · simp [hw, Thread.isWaiting]
    · simp [hw, Thread.isWaiting]
  omega

/-- When all threads have begun their `k`-th call and one has not returned from it, some thread can
take a step towards its return. -/
theorem Phase.exists_step {k : ℕ} (h : Phase s) (hentered : ∀ t, k < s.entered t)
    (hnot : (s.rets t).length ≤ k) :
    ∃ s', Step s s' ∧ s'.entered = s.entered ∧ ∑ u, rank s' k u < ∑ u, rank s k u := by
  cases h with
  | arriving R a ha hleft hevent _ hwaiters hthread _ =>
    have hk : k = R := by
      obtain ⟨hl, ⟨-, he⟩ | ⟨-, he⟩⟩ := hthread t <;> have := hentered t <;> omega
    subst hk
    obtain ⟨v, hv⟩ : ∃ v, ¬(s.thread v).isWaiting := by
      by_contra hall
      have := tally_eq_iff.mpr (not_exists_not.mp hall)
      omega
    -- a thread that does not wait is before its first test, which fails
    have hgate : s.thread v = .gate := by
      obtain ⟨-, ⟨-, he⟩ | ⟨hw | hw, -⟩⟩ := hthread v
      · exact absurd (hentered v) he.not_gt
      · exact hw
      · simp [hw, Thread.isWaiting] at hv
    have hlen : (s.rets v).length = k := (hthread v).1
    refine ⟨s.pass v, .pass v hgate, ?_⟩
    rw [State.pass, if_neg (by rw [hevent]; exact not_not.mpr (arriveEvent_and k))]
    dsimp only
    split_ifs with hlast
    · refine ⟨rfl, sum_rank_lt (t := v) rfl (update_eq_self v s.rets).symm ?_⟩
      simp [rank, hlen, hgate, Thread.isWaiting]
    · exact ⟨(leave_eq _ v true).2.2, sum_rank_leave_lt rfl rfl hlen⟩
  | leaving R b hb hleft hevent _ hwaiters hthread _ =>
    obtain ⟨v, hw, hlen, he⟩ := exists_waiting hb hwaiters hthread
    have hk : k = R := by
      obtain ⟨-, hl, -⟩ | ⟨hl, -⟩ := hthread t <;> have := hentered v <;> omega
    subst hk
    have hne : arriveEvent k ≠ s.event := by
      rw [hevent]
      intro heq
      exact arriveEvent_add_and k (heq ▸ arriveEvent_and k)
    refine ⟨s.wake v _, .wake v _ hw, ?_⟩
    rw [State.wake, if_neg hne]
    exact ⟨(leave_eq s v false).2.2, sum_rank_leave_lt rfl rfl hlen⟩

/-- A round that all threads have entered can be finished without another call. -/
theorem Phase.exists_return {k : ℕ} (h : Phase s) (hentered : ∀ t, k < s.entered t) :
    ∃ s', Relation.ReflTransGen Step s s' ∧ s'.entered = s.entered ∧
      ∀ t, k < (s'.rets t).length := by
  induction hn : ∑ u, rank s k u using Nat.strong_induction_on generalizing s with
  | _ n ih =>
    by_cases hall : ∀ t, k < (s.rets t).length
    · exact ⟨s, .refl, rfl, hall⟩
    obtain ⟨t, ht⟩ := not_forall.mp hall
    obtain ⟨s₁, hstep, he, hlt⟩ := h.exists_step hentered (not_lt.mp ht)
    obtain ⟨s₂, hrun, he₂, hret⟩ := ih _ (hn ▸ hlt) (h.step hstep) (he ▸ hentered) rfl
    exact ⟨s₂, .head hstep hrun, he₂.trans he, hret⟩

/-! ## Runs -/

theorem rounds_isPrefix_of_le {k : ℕ} (hk : k ≤ R) : rounds count k <+: rounds count R := by
  obtain ⟨m, rfl⟩ := Nat.exists_eq_add_of_le hk
  rw [rounds, rounds, List.replicate_add, List.flatten_append]
  exact prefix_append _ _

/-- The calls of `in` of a round come before the next one. -/
theorem rounds_append_isPrefix_of_lt {k : ℕ} (hk : k < R) :
    rounds count k ++ ins count count <+: rounds count R := by
  refine List.IsPrefix.trans ?_ (rounds_isPrefix_of_le hk)
  rw [← rounds_succ, ← append_assoc]
  exact prefix_append _ _

theorem range_isPrefix_of_le {a b : ℕ} (h : a ≤ b) : range a <+: range b := by
  have := List.take_prefix a (range b)
  rwa [List.take_range, Nat.min_eq_left h] at this

/-- In every run no thread has returned more often than another has entered, the callbacks are
those of one round after the other, those before the end of a call are all there, and in every round
one thread is told that it is the serial one.  A round from which all have returned is complete, and
one that all have entered can always be brought to its end. -/
theorem barrierWait_spec (hcount : 0 < count)
    (hrun : Relation.ReflTransGen Step (barrierInit count) s) :
    (∀ t u, (s.rets t).length ≤ s.entered u) ∧ (∃ R, s.log <+: rounds count R) ∧
      (∀ k t, k < (s.rets t).length → rounds count k ++ ins count count <+: s.log) ∧
      (∀ k, (∀ t, k < (s.rets t).length) → rounds count (k + 1) <+: s.log) ∧
      (∀ k t, k < (s.rets t).length → OneSerial s.rets k) ∧
      ∀ k, (∀ t, k < s.entered t) → ∃ s', Relation.ReflTransGen Step s s' ∧
        s'.entered = s.entered ∧ ∀ t, k < (s'.rets t).length := by
  have hphase : Phase s := by
    induction hrun with
    | refl => exact phase_init hcount
    | tail _ hstep ih => exact ih.step hstep
  have hreturn := fun k => hphase.exists_return (k := k)
  cases hphase with
  | arriving R a ha _ _ hlog _ hthread hserial =>
    refine ⟨fun t u => ?_, ⟨R + 1, ?_⟩, fun k t hk => ?_, fun k hk => ?_,
      fun k t hk => hserial k ((hthread t).1 ▸ hk), hreturn⟩
    · obtain ⟨-, ⟨-, he⟩ | ⟨-, he⟩⟩ := hthread u
      · exact ((hthread t).1.trans he.symm).le
      · rw [(hthread t).1, he]
        exact R.le_succ
    · rw [hlog, ← rounds_succ, List.prefix_append_right_inj]
      refine List.IsPrefix.trans ?_ (prefix_append _ _)
      exact (range_isPrefix_of_le ha.le).map _
    · rw [hlog]
      exact (rounds_append_isPrefix_of_lt ((hthread t).1 ▸ hk)).trans (prefix_append _ _)
    · rw [hlog]
      have hle : k + 1 ≤ R := (hthread ⟨0, hcount⟩).1 ▸ hk ⟨0, hcount⟩
      exact (rounds_isPrefix_of_le hle).trans (prefix_append _ _)
  | leaving R b hb _ _ hlog hwaiters hthread hserial =>
    have hle : ∀ t, R ≤ (s.rets t).length ∧ (s.rets t).length ≤ R + 1 := fun t => by
      obtain ⟨-, ht, -⟩ | ⟨ht, -⟩ := hthread t <;> omega
    refine ⟨fun t u => ?_, ⟨R + 1, ?_⟩, fun k t hk => ?_, fun k hk => ?_,
      fun k t hk => hserial k (hk.trans_le (hle t).2), hreturn⟩
    · have := (hle t).2
      obtain ⟨-, -, he⟩ | ⟨-, ⟨-, he⟩ | ⟨-, he⟩⟩ := hthread u <;> omega
    · rw [hlog, ← rounds_succ, List.prefix_append_right_inj, List.prefix_append_right_inj]
      exact (range_isPrefix_of_le hb.le).map _
    · rw [hlog]
      obtain hk | rfl := Nat.lt_succ_iff_lt_or_eq.mp (hk.trans_le (hle t).2)
      · exact (rounds_append_isPrefix_of_lt hk).trans (prefix_append _ _)
      · rw [List.prefix_append_right_inj]
        exact prefix_append _ _
    · -- a thread that still waits has not returned from the round
      obtain ⟨u, -, hlen, -⟩ := exists_waiting hb hwaiters hthread
      rw [hlog]
      exact (rounds_isPrefix_of_le (hlen ▸ hk u)).trans (prefix_append _ _)

end Run

/-- Two threads: the first waits and wakes up too early, the second is the last to arrive, and the
first leaves. -/
theorem barrierWait_spec_two :
    let s := ((((((barrierInit 2).call 0).pass 0).wake 0 0#32).call 1).pass 1).wake 0 0#32
    (∀ t u, (s.rets t).length ≤ s.entered u) ∧ (∃ R, s.log <+: rounds 2 R) ∧
      (∀ k t, k < (s.rets t).length → rounds 2 k ++ ins 2 2 <+: s.log) ∧
      (∀ k, (∀ t, k < (s.rets t).length) → rounds 2 (k + 1) <+: s.log) ∧
      (∀ k t, k < (s.rets t).length → OneSerial s.rets k) ∧
      ∀ k, (∀ t, k < s.entered t) → ∃ s', Relation.ReflTransGen Step s s' ∧
        s'.entered = s.entered ∧ ∀ t, k < (s'.rets t).length :=
  barrierWait_spec (by decide) ((((((Relation.ReflTransGen.refl.tail (.call 0 rfl)).tail
    (.pass 0 rfl)).tail (.wake 0 0#32 rfl)).tail (.call 1 rfl)).tail (.pass 1 rfl)).tail
    (.wake 0 0#32 rfl))

end CadoNfs.Barrier
