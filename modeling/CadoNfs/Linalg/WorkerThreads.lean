import CadoNfs.Lib.Tally

/-!
# The worker threads

`worker-threads.c`: a caller hands a function to `n` threads and waits for the last of them.
Every section with the mutex is one step; only the wait of `worker_threads_init` is in a loop.

Main results:

- Theorem `Phase.step`: what every step keeps.
- Theorem `workerThreads_spec`: the calls of a run without spurious wake-ups.
-/

namespace CadoNfs.WorkerThreads

open Finset Function Tally

/-! ## Code -/

/-- Where a worker is: before its first section, in the wait for `cond_in`, woken and in need of
the mutex, about to read `tg->f` and `tg->arg`, or in the call of `f`. -/
inductive Worker (J : Type) where
  | starting
  | waiting
  | woken
  | released
  | running (job : Option J)

/-- Where the caller is: in the loop of `worker_threads_init` or in its wait, between two calls,
before the section of `worker_threads_do`, in its wait for `cond_out`, or woken. -/
inductive Caller where
  | starting
  | startWait
  | ready
  | called
  | waiting
  | woken
deriving DecidableEq

/-- `worker_threads_group`, with `f` and `arg` as one job, which nobody sets before the first call.
The calls and what every worker has run are kept. -/
structure State (J : Type) (n : ℕ) where
  job : Option J
  working : ℕ
  done : ℕ
  caller : Caller
  worker : Fin n → Worker J
  calls : List J
  ran : Fin n → List (Option J)

variable {J : Type} {n : ℕ}

/-- `worker_threads_init`, when the threads are there. -/
def State.init (J : Type) (n : ℕ) : State J n :=
  ⟨none, 0, 0, .starting, fun _ => .starting, [], fun _ => []⟩

/-- `pthread_cond_signal(&tg->cond_out)`. -/
def signalOut : Caller → Caller
  | .startWait => .starting
  | .waiting => .woken
  | c => c

/-- `pthread_cond_broadcast(&tg->cond_in)`, to one worker. -/
def broadcastIn : Worker J → Worker J
  | .waiting => .woken
  | w => w

/-- The first section of `thread_job`. -/
def State.start (s : State J n) (i : Fin n) : State J n :=
  { s with
    working := s.working + 1
    caller := signalOut s.caller
    worker := update s.worker i .waiting }

/-- One pass of the loop of `worker_threads_init`. -/
def State.checkStart (s : State J n) : State J n :=
  { s with caller := if s.working ≠ n then .startWait else .ready }

/-- The first two lines of `worker_threads_do`. -/
def State.call (s : State J n) (j : J) : State J n :=
  { s with job := some j, calls := s.calls ++ [j], caller := .called }

/-- The section of `worker_threads_do`, up to the wait. -/
def State.dispatch (s : State J n) : State J n :=
  { s with caller := .waiting, worker := fun i => broadcastIn (s.worker i) }

/-- A worker comes out of its wait. -/
def State.resume (s : State J n) (i : Fin n) : State J n :=
  { s with working := s.working + 1, worker := update s.worker i .released }

/-- A worker calls `tg->f`. -/
def State.begin (s : State J n) (i : Fin n) : State J n :=
  { s with worker := update s.worker i (.running s.job) }

/-- The section of `thread_job` after the call of `f`, up to the wait. -/
def State.finish (s : State J n) (i : Fin n) (job : Option J) : State J n :=
  let s := { s with
    ran := update s.ran i (s.ran i ++ [job])
    worker := update s.worker i .waiting }
  let res := s.done + 1
  if res = n then { s with done := 0, working := 0, caller := signalOut s.caller }
  else { s with done := res }

/-- One step of the caller or of a worker. -/
inductive Step (s : State J n) : State J n → Prop
  | start (i : Fin n) (h : s.worker i = .starting) : Step s (s.start i)
  | checkStart (h : s.caller = .starting) : Step s s.checkStart
  | call (j : J) (h : s.caller = .ready) : Step s (s.call j)
  | dispatch (h : s.caller = .called) : Step s s.dispatch
  | resume (i : Fin n) (h : s.worker i = .woken) : Step s (s.resume i)
  | begin (i : Fin n) (h : s.worker i = .released) : Step s (s.begin i)
  | finish (i : Fin n) (job : Option J) (h : s.worker i = .running job) : Step s (s.finish i job)
  | ret (h : s.caller = .woken) : Step s { s with caller := .ready }

/-- The wait of `worker_threads_init` ends without a signal. -/
inductive StartWakeup (s : State J n) : State J n → Prop
  | caller (h : s.caller = .startWait) : StartWakeup s { s with caller := .starting }

/-- A wait that is not in a loop ends without a signal. -/
inductive SpuriousWakeup (s : State J n) : State J n → Prop
  | worker (i : Fin n) (h : s.worker i = .waiting) :
    SpuriousWakeup s { s with worker := update s.worker i .woken }
  | caller (h : s.caller = .waiting) : SpuriousWakeup s { s with caller := .woken }

/-- What happens in a run whose waits outside loops all end with a signal. -/
def Allowed (s s' : State J n) : Prop :=
  Step s s' ∨ StartWakeup s s'

/-- What every call promises when it has returned. -/
def State.Returned (s : State J n) : Prop :=
  (∀ i, s.worker i = .waiting ∧ s.ran i = s.calls.map some) ∧ s.done = 0 ∧
    (s.calls ≠ [] → s.working = 0)

/-! ## Counting workers -/

def Worker.isWaiting : Worker J → Bool
  | .waiting => true
  | _ => false

/-- The steps that a worker still has before it waits. -/
def Worker.rank : Worker J → ℕ
  | .starting => 2
  | .waiting => 0
  | .woken => 4
  | .released => 3
  | .running _ => 2

/-- The steps that the caller still has, when it has `n` workers to wake. -/
def Caller.rank (n : ℕ) : Caller → ℕ
  | .starting => 1
  | .startWait => 0
  | .ready => 0
  | .called => 4 * n + 3
  | .waiting => 2
  | .woken => 1

/-- A bound of the steps before the next call. -/
def State.rank (s : State J n) : ℕ :=
  ∑ i, (s.worker i).rank + s.caller.rank n

/-- The workers in the wait for `cond_in`. -/
def State.waiters (s : State J n) : ℕ :=
  tally Worker.isWaiting s.worker

theorem isWaiting_iff {w : Worker J} : w.isWaiting ↔ w = .waiting := by
  cases w <;> simp [Worker.isWaiting]

theorem waiters_eq_iff {s : State J n} : s.waiters = n ↔ ∀ i, s.worker i = .waiting :=
  tally_eq_iff.trans (forall_congr' fun _ => isWaiting_iff)

/-! ## What every step keeps -/

/-- A worker during the call of `j` after the calls `before`: it has not run `j` yet, or it has
and waits again. -/
def AtWork (s : State J n) (before : List J) (j : J) (i : Fin n) : Prop :=
  s.worker i = .waiting ∧ s.ran i = (before ++ [j]).map some ∨
    (s.worker i = .woken ∨ s.worker i = .released ∨ s.worker i = .running (some j)) ∧
      s.ran i = before.map some

/-- Where such a run is. -/
inductive Phase (s : State J n) : Prop
  | starting (hcaller : s.caller = .starting ∨ s.caller = .startWait ∧ s.working < n)
      (hcalls : s.calls = []) (hdone : s.done = 0) (hran : ∀ i, s.ran i = [])
      (hworker : ∀ i, s.worker i = .starting ∨ s.worker i = .waiting)
      (hworking : s.working = s.waiters)
  | idle (hcaller : s.caller = .ready ∨ s.caller = .woken) (h : s.Returned)
  | called (hcaller : s.caller = .called) (before : List J) (j : J)
      (hcalls : s.calls = before ++ [j]) (hjob : s.job = some j) (hdone : s.done = 0)
      (hworker : ∀ i, s.worker i = .waiting) (hran : ∀ i, s.ran i = before.map some)
  | busy (hcaller : s.caller = .waiting) (before : List J) (j : J)
      (hcalls : s.calls = before ++ [j]) (hjob : s.job = some j)
      (hdone : s.done = s.waiters) (hlt : s.waiters < n) (hworker : ∀ i, AtWork s before j i)

theorem phase_init : Phase (State.init J n) :=
  .starting (.inl rfl) rfl rfl (fun _ => rfl) (fun _ => .inl rfl) (by
    simp [State.waiters, State.init, Worker.isWaiting, tally])

section Steps

variable {s : State J n} {i : Fin n}

/-- A worker that has been woken and does not wait yet is in a call. -/
theorem Phase.busy_of_worker (h : Phase s) (hstart : s.worker i ≠ .starting)
    (hwait : s.worker i ≠ .waiting) :
    ∃ before j, s.caller = .waiting ∧ s.calls = before ++ [j] ∧ s.job = some j ∧
      s.done = s.waiters ∧ s.waiters < n ∧ ∀ i, AtWork s before j i := by
  cases h with
  | starting _ _ _ _ hworker => exact absurd (hworker i) (not_or.mpr ⟨hstart, hwait⟩)
  | idle _ h => exact absurd (h.1 i).1 hwait
  | called _ _ _ _ _ _ hworker => exact absurd (hworker i) hwait
  | busy hcaller before j hcalls hjob hdone hlt hworker =>
    exact ⟨before, j, hcaller, hcalls, hjob, hdone, hlt, hworker⟩

/-- A worker on its way to the job has run nothing more. -/
theorem AtWork.update {before : List J} {j : J} {x : Worker J} {s' : State J n}
    (h : ∀ k, AtWork s before j k) (hi : s.worker i ≠ .waiting)
    (hx : x = .woken ∨ x = .released ∨ x = .running (some j))
    (hworker : s'.worker = Function.update s.worker i x) (hran : s'.ran = s.ran) (k : Fin n) :
    AtWork s' before j k := by
  unfold AtWork
  rw [hworker, hran]
  by_cases hk : k = i
  · subst hk
    rw [update_self]
    exact .inr ⟨hx, ((h k).resolve_left fun hw => hi hw.1).2⟩
  · rw [update_of_ne hk]
    exact h k

theorem waiters_update (s : State J n) (i : Fin n) (x : Worker J) (s' : State J n)
    (hworker : s'.worker = Function.update s.worker i x) :
    s'.waiters + (s.worker i).isWaiting.toNat = s.waiters + x.isWaiting.toNat := by
  rw [State.waiters, State.waiters, hworker]
  exact tally_update Worker.isWaiting s.worker i x

/-- Every step of the caller or of a worker keeps the phase or leads to the next one. -/
theorem Phase.step (hn : 0 < n) (h : Phase s) {s' : State J n} (hstep : Step s s') : Phase s' := by
  cases hstep with
  | start i hi =>
    cases h with
    | starting hcaller hcalls hdone hran hworker hworking =>
      have hcount := waiters_update s i .waiting (s.start i) rfl
      simp only [hi, Worker.isWaiting, Bool.toNat_true, Bool.toNat_false, add_zero] at hcount
      refine .starting (.inl ?_) hcalls hdone hran (fun k => ?_) ?_
      · obtain hc | ⟨hc, -⟩ := hcaller <;> simp [State.start, signalOut, hc]
      · by_cases hk : k = i
        · exact .inr (by simp [State.start, hk])
        · simpa [State.start, hk] using hworker k
      · rw [hcount, ← hworking]
        rfl
    | idle _ h => exact absurd ((h.1 i).1.symm.trans hi) nofun
    | called _ _ _ _ _ _ hworker => exact absurd ((hworker i).symm.trans hi) nofun
    | busy _ _ _ _ _ _ _ hworker =>
      obtain ⟨hw, -⟩ | ⟨hw | hw | hw, -⟩ := hworker i <;> exact absurd (hw.symm.trans hi) nofun
  | checkStart hc =>
    cases h with
    | starting _ hcalls hdone hran hworker hworking =>
      by_cases hall : s.working = n
      · refine .idle (.inl (by simp [State.checkStart, hall])) ⟨fun i => ⟨?_, ?_⟩, hdone, ?_⟩
        · exact waiters_eq_iff.mp (hworking.symm.trans hall) i
        · exact (hran i).trans (by simp [State.checkStart, hcalls])
        · exact fun hne => absurd hcalls hne
      · have hle : s.waiters ≤ n := tally_le _ _
        exact .starting (.inr ⟨by simp [State.checkStart, hall], by
          change s.working < n
          omega⟩) hcalls hdone hran hworker hworking
    | idle hcaller _ => obtain h | h := hcaller <;> exact absurd (hc.symm.trans h) nofun
    | called hcaller => exact absurd (hc.symm.trans hcaller) nofun
    | busy hcaller => exact absurd (hc.symm.trans hcaller) nofun
  | call j hc =>
    cases h with
    | starting hcaller => obtain h | ⟨h, -⟩ := hcaller <;> exact absurd (hc.symm.trans h) nofun
    | idle _ h => exact .called rfl s.calls j rfl rfl h.2.1 (fun i => (h.1 i).1) fun i => (h.1 i).2
    | called hcaller => exact absurd (hc.symm.trans hcaller) nofun
    | busy hcaller => exact absurd (hc.symm.trans hcaller) nofun
  | dispatch hc =>
    cases h with
    | starting hcaller => obtain h | ⟨h, -⟩ := hcaller <;> exact absurd (hc.symm.trans h) nofun
    | idle hcaller _ => obtain h | h := hcaller <;> exact absurd (hc.symm.trans h) nofun
    | called _ before j hcalls hjob hdone hworker hran =>
      have hwoken : ∀ i, s.dispatch.worker i = .woken := fun i => by
        simp [State.dispatch, hworker i, broadcastIn]
      have hzero : s.dispatch.waiters = 0 :=
        tally_eq_zero_iff.mpr fun i => by rw [hwoken i]; rfl
      exact .busy rfl before j hcalls hjob (hdone.trans hzero.symm) (hzero ▸ hn)
        fun i => .inr ⟨.inl (hwoken i), hran i⟩
    | busy hcaller => exact absurd (hc.symm.trans hcaller) nofun
  | resume i hi =>
    obtain ⟨before, j, hcaller, hcalls, hjob, hdone, hlt, hworker⟩ :=
      h.busy_of_worker (i := i) (by rw [hi]; nofun) (by rw [hi]; nofun)
    have hcount := waiters_update s i .released (s.resume i) rfl
    simp only [hi, Worker.isWaiting, Bool.toNat_false, add_zero] at hcount
    exact .busy hcaller before j hcalls hjob (hdone.trans hcount.symm) (hcount ▸ hlt)
      (AtWork.update hworker (by rw [hi]; nofun) (.inr (.inl rfl)) rfl rfl)
  | begin i hi =>
    obtain ⟨before, j, hcaller, hcalls, hjob, hdone, hlt, hworker⟩ :=
      h.busy_of_worker (i := i) (by rw [hi]; nofun) (by rw [hi]; nofun)
    have hcount := waiters_update s i (.running s.job) (s.begin i) rfl
    simp only [hi, Worker.isWaiting, Bool.toNat_false, add_zero] at hcount
    exact .busy hcaller before j hcalls hjob (hdone.trans hcount.symm) (hcount ▸ hlt)
      (AtWork.update hworker (by rw [hi]; nofun) (.inr (.inr (hjob ▸ rfl))) rfl rfl)
  | finish i job hi =>
    obtain ⟨before, j, hcaller, hcalls, hjob, hdone, hlt, hworker⟩ :=
      h.busy_of_worker (i := i) (by rw [hi]; nofun) (by rw [hi]; nofun)
    have hran : job = some j ∧ s.ran i = before.map some := by
      obtain ⟨hw, -⟩ | ⟨hw | hw | hw, hran⟩ := hworker i
      · exact absurd (hw.symm.trans hi) nofun
      · exact absurd (hw.symm.trans hi) nofun
      · exact absurd (hw.symm.trans hi) nofun
      · exact ⟨(Worker.running.inj (hw.symm.trans hi)).symm, hran⟩
    obtain ⟨rfl, hran⟩ := hran
    have hatWork : ∀ s' : State J n, s'.worker = update s.worker i .waiting →
        s'.ran = update s.ran i (s.ran i ++ [some j]) → ∀ k, AtWork s' before j k := by
      intro s' hw hr k
      unfold AtWork
      rw [hw, hr]
      by_cases hk : k = i
      · subst hk
        rw [update_self, update_self, hran]
        exact .inl ⟨rfl, by simp⟩
      · rw [update_of_ne hk, update_of_ne hk]
        exact hworker k
    unfold State.finish
    dsimp only
    split_ifs with hres
    · -- the last worker wakes the caller
      have hall := hatWork { s with
        ran := update s.ran i (s.ran i ++ [some j]), worker := update s.worker i .waiting } rfl rfl
      have hcount := waiters_update s i .waiting { s with
        ran := update s.ran i (s.ran i ++ [some j]), worker := update s.worker i .waiting } rfl
      simp only [hi, Worker.isWaiting, Bool.toNat_true, Bool.toNat_false, add_zero] at hcount
      have hwait := waiters_eq_iff.mp (hcount.trans (hdone ▸ hres))
      refine .idle (.inr (by simp [signalOut, hcaller])) ⟨fun k => ⟨hwait k, ?_⟩, rfl, fun _ => rfl⟩
      obtain ⟨-, hr⟩ | ⟨hw, -⟩ := hall k
      · exact hr.trans (by rw [hcalls])
      · rw [hwait k] at hw
        simp at hw
    · have hcount := waiters_update s i .waiting { s with
        ran := update s.ran i (s.ran i ++ [some j])
        worker := update s.worker i .waiting
        done := s.done + 1 } rfl
      simp only [hi, Worker.isWaiting, Bool.toNat_true, Bool.toNat_false, add_zero] at hcount
      exact .busy hcaller before j hcalls hjob (by rw [hcount, ← hdone])
        (by omega) (hatWork _ rfl rfl)
  | ret hc =>
    cases h with
    | starting hcaller => obtain h | ⟨h, -⟩ := hcaller <;> exact absurd (hc.symm.trans h) nofun
    | idle _ h => exact .idle (.inl rfl) h
    | called hcaller => exact absurd (hc.symm.trans hcaller) nofun
    | busy hcaller => exact absurd (hc.symm.trans hcaller) nofun

/-- `worker_threads_init` tests again what it waits for. -/
theorem Phase.startWakeup (h : Phase s) {s' : State J n} (hwake : StartWakeup s s') : Phase s' := by
  obtain ⟨hc⟩ := hwake
  cases h with
  | starting _ hcalls hdone hran hworker hworking =>
    exact .starting (.inl rfl) hcalls hdone hran hworker hworking
  | idle hcaller _ => obtain h | h := hcaller <;> exact absurd (hc.symm.trans h) nofun
  | called hcaller => exact absurd (hc.symm.trans hcaller) nofun
  | busy hcaller => exact absurd (hc.symm.trans hcaller) nofun

/-- Within a call somebody can go on. -/
theorem Phase.exists_step (h : Phase s) (hc : s.caller ≠ .ready) : ∃ s', Step s s' := by
  have hidle : s.waiters < n → ∃ i, s.worker i ≠ .waiting := fun hlt => by
    by_contra! hall
    exact hlt.ne (waiters_eq_iff.mpr hall)
  cases h with
  | starting hcaller _ _ _ hworker hworking =>
    obtain hcaller | ⟨-, hlt⟩ := hcaller
    · exact ⟨_, .checkStart hcaller⟩
    · obtain ⟨i, hi⟩ := hidle (hworking ▸ hlt)
      exact ⟨_, .start i ((hworker i).resolve_right hi)⟩
  | idle hcaller _ => exact ⟨_, .ret (hcaller.resolve_left hc)⟩
  | called hcaller => exact ⟨_, .dispatch hcaller⟩
  | busy _ before j _ _ _ hlt hworker =>
    obtain ⟨i, hi⟩ := hidle hlt
    obtain ⟨hw, -⟩ | ⟨hw | hw | hw, -⟩ := hworker i
    · exact absurd hw hi
    · exact ⟨_, .resume i hw⟩
    · exact ⟨_, .begin i hw⟩
    · exact ⟨_, .finish i _ hw⟩

theorem rank_signalOut (c : Caller) (n : ℕ) : (signalOut c).rank n ≤ c.rank n + 1 := by
  cases c <;> simp [signalOut, Caller.rank]

theorem rank_lt_of_worker {s' : State J n} (i : Fin n) (x : Worker J)
    (hworker : s'.worker = update s.worker i x)
    (hlt : x.rank + s'.caller.rank n < (s.worker i).rank + s.caller.rank n) :
    s'.rank < s.rank := by
  have hsum := sum_update_add Worker.rank s.worker i x
  rw [State.rank, State.rank, hworker]
  omega

/-- Every step but a new call lowers the rank. -/
theorem Step.rank_lt {s' : State J n} (hstep : Step s s') (hcalls : s'.calls = s.calls) :
    s'.rank < s.rank := by
  have hsignal := rank_signalOut s.caller n
  cases hstep with
  | start i hi =>
    refine rank_lt_of_worker i .waiting rfl ?_
    rw [hi]
    change 0 + (signalOut s.caller).rank n < 2 + s.caller.rank n
    omega
  | checkStart hc =>
    simp only [State.rank, State.checkStart, hc]
    split_ifs <;> simp [Caller.rank]
  | call j => simp [State.call] at hcalls
  | dispatch hc =>
    have hsum : ∑ i, (broadcastIn (s.worker i)).rank ≤ ∑ i, ((s.worker i).rank + 4) :=
      sum_le_sum fun i _ => by cases s.worker i <;> simp [broadcastIn, Worker.rank]
    have hfour : ∑ _i : Fin n, 4 = 4 * n := by simp [mul_comm]
    rw [sum_add_distrib, hfour] at hsum
    simp only [State.rank, State.dispatch, hc, Caller.rank]
    omega
  | resume i hi =>
    refine rank_lt_of_worker i .released rfl ?_
    rw [hi]
    exact Nat.add_lt_add_right (by decide : 3 < 4) _
  | begin i hi =>
    refine rank_lt_of_worker i (.running s.job) rfl ?_
    rw [hi]
    exact Nat.add_lt_add_right (by decide : 2 < 3) _
  | finish i job hi =>
    unfold State.finish
    dsimp only
    split_ifs
    · refine rank_lt_of_worker i .waiting rfl ?_
      rw [hi]
      change 0 + (signalOut s.caller).rank n < 2 + s.caller.rank n
      omega
    · refine rank_lt_of_worker i .waiting rfl ?_
      rw [hi]
      exact Nat.add_lt_add_right (by decide : 0 < 2) _
  | ret hc => simp [State.rank, hc, Caller.rank]

/-- When no wait outside a loop ends spuriously, every worker runs the jobs of the calls in order
and once; when a call returns all of them have done so and wait again, and every call does return. -/
theorem workerThreads_spec (hn : 0 < n)
    (hrun : Relation.ReflTransGen Allowed (State.init J n) s) :
    (s.caller = .ready → s.Returned) ∧ (∀ i, s.ran i <+: s.calls.map some) ∧
      (s.caller ≠ .ready → ∃ s', Step s s') ∧
      ∀ s', Step s s' → s'.calls = s.calls → s'.rank < s.rank := by
  have hphase : Phase s := by
    induction hrun with
    | refl => exact phase_init
    | tail _ hstep ih => exact hstep.elim (ih.step hn) ih.startWakeup
  refine ⟨fun hc => ?_, fun i => ?_, hphase.exists_step, fun s' => Step.rank_lt⟩
  · cases hphase with
    | starting hcaller => obtain h | ⟨h, -⟩ := hcaller <;> exact absurd (hc.symm.trans h) nofun
    | idle _ h => exact h
    | called hcaller => exact absurd (hc.symm.trans hcaller) nofun
    | busy hcaller => exact absurd (hc.symm.trans hcaller) nofun
  · cases hphase with
    | starting _ _ _ hran => simp [hran i]
    | idle _ h => rw [(h.1 i).2]
    | called _ before j hcalls _ _ _ hran => simp [hran i, hcalls]
    | busy _ before j hcalls _ _ _ hworker =>
      obtain ⟨-, hr⟩ | ⟨-, hr⟩ := hworker i <;> simp [hr, hcalls]

end Steps

/-- Two workers: the wait of `worker_threads_init` ends too early, the workers start, and the caller
hands them a job and gets back. -/
theorem workerThreads_spec_two :
    let s₀ := ({ (State.init ℕ 2).checkStart with caller := .starting }).checkStart
    let s₁ := (((((s₀.start 0).start 1).checkStart).call 7).dispatch.resume 0).begin 0
    let s₂ := ((((s₁.resume 1).finish 0 (some 7)).begin 1).finish 1 (some 7))
    let s := { s₂ with caller := .ready }
    (s.caller = .ready → s.Returned) ∧ (∀ i, s.ran i <+: s.calls.map some) ∧
      (s.caller ≠ .ready → ∃ s', Step s s') ∧
      ∀ s', Step s s' → s'.calls = s.calls → s'.rank < s.rank :=
  have hstart : Relation.ReflTransGen Allowed (State.init ℕ 2)
      ({ (State.init ℕ 2).checkStart with caller := .starting }).checkStart :=
    ((Relation.ReflTransGen.refl.tail (.inl (.checkStart rfl))).tail (.inr (.caller rfl))).tail
      (.inl (.checkStart rfl))
  have hcall := ((((((hstart.tail (.inl (.start 0 rfl))).tail (.inl (.start 1 rfl))).tail
    (.inl (.checkStart rfl))).tail (.inl (.call 7 rfl))).tail (.inl (.dispatch rfl))).tail
    (.inl (.resume 0 rfl))).tail (.inl (.begin 0 rfl))
  workerThreads_spec (by decide) (((((hcall.tail (.inl (.resume 1 rfl))).tail
    (.inl (.finish 0 (some 7) rfl))).tail (.inl (.begin 1 rfl))).tail
    (.inl (.finish 1 (some 7) rfl))).tail (.inl (.ret rfl)))

/-- The caller wakes up while its only worker has not run the job: the call returns. -/
theorem not_returned_spuriousWakeup :
    ∃ s : State Unit 1, Relation.ReflTransGen (fun a b => Step a b ∨ SpuriousWakeup a b)
      (State.init Unit 1) s ∧ s.caller = .ready ∧ s.calls = [()] ∧ s.ran 0 = [] ∧
        ¬s.Returned := by
  let s₁ := ((((State.init Unit 1).start 0).checkStart).call ()).dispatch
  refine ⟨{ s₁ with caller := .ready }, ?_, rfl, rfl, rfl, fun h => ?_⟩
  · have hrun : Relation.ReflTransGen (fun a b => Step a b ∨ SpuriousWakeup a b)
        (State.init Unit 1) s₁ :=
      (((Relation.ReflTransGen.refl.tail (.inl (.start 0 rfl))).tail
        (.inl (.checkStart rfl))).tail (.inl (.call () rfl))).tail (.inl (.dispatch rfl))
    have hwoken : SpuriousWakeup s₁ { s₁ with caller := .woken } := .caller rfl
    exact (hrun.tail (.inr hwoken)).tail (.inl (.ret rfl))
  · exact absurd (h.1 0).2 (by decide)

end CadoNfs.WorkerThreads
