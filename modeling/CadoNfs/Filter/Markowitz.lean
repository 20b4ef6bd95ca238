import CadoNfs.Lib.BinaryHeap

/-!
# The Markowitz queue

`markowitz.c` keeps the columns in a binary heap, by their Markowitz counts, and the
address of each column in the heap.

Main results:

- Theorem `mkzMoveUpOrDown_spec`: an entry in any place finds its place.
- Theorem `MkzOk.step`: what the operations do to a queue whose addresses are right.
- Theorem `mkzRun_spec`: the queue in any run, and the steps after which an address is
  wrong.
-/

namespace CadoNfs.Merge

open Function (update update_idem update_of_ne update_self)
open BinaryHeap

/-! ## Definitions -/

/-- `MKZ_INF`. -/
def mkzInf : ℤ := -1

/-- The arrays `Q` and `A`: `size` is `Q[0]`, and entry `k` is the
column `Q[2*k]` with its count `Q[2*k+1]`. -/
structure MkzQueue where
  size : ℕ
  entry : ℕ → ℕ × ℤ
  A : ℕ → ℤ

/-- `MkzAssign`. -/
def mkzAssign (Q : MkzQueue) (k1 k2 : ℕ) : MkzQueue :=
  let dj := (Q.entry k2).1
  { Q with
    entry := update Q.entry k1 (dj, (Q.entry k2).2)
    A := update Q.A dj k1 }

/-- The last lines of `MkzUpQueue` and `MkzDownQueue`: the place has been found. -/
def mkzPlace (Q : MkzQueue) (k : ℕ) (x : ℕ × ℤ) : MkzQueue :=
  { Q with entry := update Q.entry k x, A := update Q.A x.1 k }

/-- The loop of `MkzUpQueue`; `k` steps are enough. -/
def mkzUpLoop (count : ℤ) : ℕ → MkzQueue → ℕ → MkzQueue × ℕ
  | 0, Q, k => (Q, k)
  | fuel + 1, Q, k =>
    if 1 < k ∧ count ≤ (Q.entry (k / 2)).2 then
      mkzUpLoop count fuel (mkzAssign Q k (k / 2)) (k / 2)
    else (Q, k)

/-- `MkzUpQueue`. -/
def mkzUpQueue (Q : MkzQueue) (k : ℕ) : MkzQueue :=
  let x := Q.entry k
  let (Q, k) := mkzUpLoop x.2 k Q k
  mkzPlace Q k x

/-- `MkzInsert`. -/
def mkzInsert (Q : MkzQueue) (dj : ℕ) (count : ℤ) : MkzQueue :=
  let size := Q.size + 1
  mkzUpQueue {
    size := size
    entry := update Q.entry size (dj, count)
    A := update Q.A dj size } size

/-- The son of `k` with the lesser count. -/
def mkzSon (Q : MkzQueue) (k : ℕ) : ℕ :=
  let j := 2 * k
  if j < Q.size ∧ (Q.entry j).2 > (Q.entry (j + 1)).2 then j + 1 else j

/-- The loop of `MkzDownQueue`; `Q[0]` steps are enough. -/
def mkzDownLoop (count : ℤ) : ℕ → MkzQueue → ℕ → MkzQueue × ℕ
  | 0, Q, k => (Q, k)
  | fuel + 1, Q, k =>
    if k ≤ Q.size / 2 then
      let j := mkzSon Q k
      if count ≤ (Q.entry j).2 then (Q, k)
      else mkzDownLoop count fuel (mkzAssign Q k j) j
    else (Q, k)

/-- `MkzDownQueue`. -/
def mkzDownQueue (Q : MkzQueue) (k : ℕ) : MkzQueue :=
  let x := Q.entry k
  let (Q, k) := mkzDownLoop x.2 Q.size Q k
  mkzPlace Q k x

/-- The last entry is put in place of entry `k`. -/
def mkzTakeLast (Q : MkzQueue) (k : ℕ) : MkzQueue :=
  let Q := mkzAssign Q k Q.size
  { Q with size := Q.size - 1 }

/-- `MkzPopQueue`, with the column and the count that it returns. -/
def mkzPopQueue (Q : MkzQueue) : (ℕ × ℤ) × MkzQueue :=
  let x := Q.entry 1
  let Q := { Q with A := update Q.A x.1 mkzInf }
  (x, mkzDownQueue (mkzTakeLast Q 1) 1)

/-- `MkzMoveUpOrDown`. -/
def mkzMoveUpOrDown (Q : MkzQueue) (k : ℕ) : MkzQueue :=
  if k = 1 then mkzDownQueue Q 1
  else if (Q.entry (k / 2)).2 > (Q.entry k).2 then mkzUpQueue Q k
  else mkzDownQueue Q k

/-- `MkzDelete`. -/
def mkzDelete (Q : MkzQueue) (k : ℕ) : MkzQueue :=
  mkzMoveUpOrDown (mkzTakeLast Q k) k

/-- `MkzRemove`, with the column and the count that it returns. -/
def mkzRemove (Q : MkzQueue) (k : ℕ) : (ℕ × ℤ) × MkzQueue :=
  let x := Q.entry k
  let Q := { Q with A := update Q.A x.1 mkzInf }
  (x, mkzMoveUpOrDown (mkzTakeLast Q k) k)

/-- What `MkzRemoveJ` does to the queue. -/
def mkzRemoveJ (Q : MkzQueue) (dj : ℕ) : MkzQueue :=
  if Q.A dj = mkzInf then Q
  else
    let Q := mkzDelete Q (Q.A dj).toNat
    { Q with A := update Q.A dj mkzInf }

/-- The end of `MkzUpdate`: entry `k` gets a new count. -/
def mkzRecount (Q : MkzQueue) (k : ℕ) (mkz : ℤ) : MkzQueue :=
  mkzMoveUpOrDown { Q with entry := update Q.entry k ((Q.entry k).1, mkz) } k

/-! ## Runs -/

/-- What has become of a column: not inserted, in the queue with a count, or taken out. -/
inductive MkzStatus where
  | absent
  | queued (count : ℤ)
  | dropped
deriving DecidableEq, Repr

/-- The calls that change the queue. -/
inductive MkzOp where
  | insert (dj : ℕ) (count : ℤ)
  | pop
  | remove (k : ℕ)
  | removeJ (dj : ℕ)
  | recount (k : ℕ) (count : ℤ)
deriving DecidableEq, Repr

/-- The queue after a call. -/
def MkzOp.run (Q : MkzQueue) : MkzOp → MkzQueue
  | .insert dj count => mkzInsert Q dj count
  | .pop => (mkzPopQueue Q).2
  | .remove k => (mkzRemove Q k).2
  | .removeJ dj => mkzRemoveJ Q dj
  | .recount k count => mkzRecount Q k count

/-- What becomes of the columns. -/
def MkzOp.status (Q : MkzQueue) (status : ℕ → MkzStatus) : MkzOp → ℕ → MkzStatus
  | .insert dj count => update status dj (.queued count)
  | .pop => update status (Q.entry 1).1 .dropped
  | .remove k => update status (Q.entry k).1 .dropped
  | .removeJ dj => update status dj .dropped
  | .recount k count => update status (Q.entry k).1 (.queued count)

/-- The calls that make sense: columns are inserted once, and only entries of the queue are
taken out or changed. -/
def MkzOp.Allowed (Q : MkzQueue) (status : ℕ → MkzStatus) : MkzOp → Prop
  | .insert dj _ => status dj = .absent
  | .pop => 1 ≤ Q.size
  | .remove k => 1 ≤ k ∧ k ≤ Q.size
  | .removeJ dj => ∃ count, status dj = .queued count
  | .recount k _ => 1 ≤ k ∧ k ≤ Q.size

/-- The entry that `MkzPopQueue` or `MkzRemove` takes out is not the last one. -/
def MkzOp.NotLast (Q : MkzQueue) : MkzOp → Prop
  | .pop => Q.size ≠ 1
  | .remove k => k ≠ Q.size
  | _ => True

/-- The queues that sequences of calls lead to, from an empty queue. -/
inductive MkzRun : MkzQueue → (ℕ → MkzStatus) → Prop where
  | init {Q : MkzQueue} (hsize : Q.size = 0) : MkzRun Q fun _ => .absent
  | step {Q : MkzQueue} {status : ℕ → MkzStatus} {op : MkzOp} (hrun : MkzRun Q status)
      (hallowed : op.Allowed Q status) (hlast : op.NotLast Q) :
      MkzRun (op.run Q) (op.status Q status)

/-- The queue is a heap of the columns that are queued, once each, and the addresses are
right. -/
structure MkzOk (Q : MkzQueue) (status : ℕ → MkzStatus) : Prop where
  ordered : ∀ k, 2 ≤ k → k ≤ Q.size → (Q.entry (k / 2)).2 ≤ (Q.entry k).2
  address : ∀ k, 1 ≤ k → k ≤ Q.size → Q.A (Q.entry k).1 = k
  sound : ∀ k, 1 ≤ k → k ≤ Q.size → status (Q.entry k).1 = .queued (Q.entry k).2
  complete : ∀ dj count, status dj = .queued count →
    ∃ k, 1 ≤ k ∧ k ≤ Q.size ∧ Q.entry k = (dj, count)
  dropped : ∀ dj, status dj = .dropped → Q.A dj = mkzInf

/-! ## An entry on the move -/

/-- The entry `x` is on the move and has left the hole `k`; everything else is in
place. -/
structure MkzMoving (Q : MkzQueue) (status : ℕ → MkzStatus) (k : ℕ) (x : ℕ × ℤ) : Prop where
  pos : 1 ≤ k
  le : k ≤ Q.size
  hole : Hole Prod.snd Q.entry Q.size k
  address : ∀ i, 1 ≤ i → i ≤ Q.size → i ≠ k → Q.A (Q.entry i).1 = i
  sound : ∀ i, 1 ≤ i → i ≤ Q.size → i ≠ k → status (Q.entry i).1 = .queued (Q.entry i).2
  ne : ∀ i, 1 ≤ i → i ≤ Q.size → i ≠ k → (Q.entry i).1 ≠ x.1
  moving : status x.1 = .queued x.2
  complete : ∀ dj count, status dj = .queued count → dj ≠ x.1 →
    ∃ i, 1 ≤ i ∧ i ≤ Q.size ∧ i ≠ k ∧ Q.entry i = (dj, count)
  dropped : ∀ dj, status dj = .dropped → Q.A dj = mkzInf

section Moving

variable {Q : MkzQueue} {status : ℕ → MkzStatus} {fuel j k dj : ℕ} {count : ℤ} {x : ℕ × ℤ}

theorem MkzOk.isOrdered (h : MkzOk Q status) : Ordered Prod.snd Q.entry Q.size :=
  h.ordered

theorem MkzOk.ne (h : MkzOk Q status) {i : ℕ} (hi : 1 ≤ i) (hisize : i ≤ Q.size) (hk : 1 ≤ k)
    (hksize : k ≤ Q.size) (hik : i ≠ k) : (Q.entry i).1 ≠ (Q.entry k).1 := by
  intro heq
  have hA := h.address i hi hisize
  rw [heq, h.address k hk hksize] at hA
  exact hik (by exact_mod_cast hA.symm)

section

variable (h : MkzMoving Q status k x)
include h

/-- Moving an entry into the hole keeps the positions right. -/
theorem MkzMoving.assign (hj : 1 ≤ j) (hjsize : j ≤ Q.size) (hjk : j ≠ k)
    (hhole : Hole Prod.snd (update Q.entry k (Q.entry j)) Q.size j) :
    MkzMoving (mkzAssign Q k j) status j x where
  pos := hj
  le := hjsize
  hole := hhole
  address i hi hisize hij := by
    simp only [mkzAssign] at hisize ⊢
    by_cases hik : i = k
    · rw [hik, update_self, update_self]
    · rw [update_of_ne hik, update_of_ne, h.address i hi hisize hik]
      intro heq
      have hA := h.address i hi hisize hik
      rw [heq, h.address j hj hjsize hjk] at hA
      exact hij (by exact_mod_cast hA.symm)
  sound i hi hisize hij := by
    simp only [mkzAssign] at hisize ⊢
    by_cases hik : i = k
    · rw [hik, update_self]
      exact h.sound j hj hjsize hjk
    · rw [update_of_ne hik]
      exact h.sound i hi hisize hik
  ne i hi hisize hij := by
    simp only [mkzAssign] at hisize ⊢
    by_cases hik : i = k
    · rw [hik, update_self]
      exact h.ne j hj hjsize hjk
    · rw [update_of_ne hik]
      exact h.ne i hi hisize hik
  moving := h.moving
  complete dj count hdj hne := by
    obtain ⟨i, hi, hisize, hik, hentry⟩ := h.complete dj count hdj hne
    by_cases hij : i = j
    · refine ⟨k, h.pos, h.le, hjk.symm, ?_⟩
      simp only [mkzAssign]
      rw [update_self, ← hij, hentry]
    · refine ⟨i, hi, hisize, hij, ?_⟩
      simp only [mkzAssign]
      rw [update_of_ne hik, hentry]
  dropped dj hdj := by
    simp only [mkzAssign]
    rw [update_of_ne, h.dropped dj hdj]
    rintro rfl
    rw [h.sound j hj hjsize hjk] at hdj
    cases hdj

theorem MkzMoving.place (hbelow : FitsBelow Prod.snd Q.entry k x.2)
    (habove : FitsAbove Prod.snd Q.entry Q.size k x.2) : MkzOk (mkzPlace Q k x) status where
  ordered := h.hole.fill h.pos hbelow habove
  address i hi hisize := by
    simp only [mkzPlace] at hisize ⊢
    by_cases hik : i = k
    · rw [hik, update_self, update_self]
    · rw [update_of_ne hik, update_of_ne (h.ne i hi hisize hik), h.address i hi hisize hik]
  sound i hi hisize := by
    simp only [mkzPlace] at hisize ⊢
    by_cases hik : i = k
    · rw [hik, update_self]
      exact h.moving
    · rw [update_of_ne hik]
      exact h.sound i hi hisize hik
  complete dj count hdj := by
    simp only [mkzPlace]
    by_cases hne : dj = x.1
    · refine ⟨k, h.pos, h.le, ?_⟩
      have hcount := h.moving
      rw [← hne, hdj] at hcount
      rw [update_self, hne, MkzStatus.queued.inj hcount]
    · obtain ⟨i, hi, hisize, hik, hentry⟩ := h.complete dj count hdj hne
      exact ⟨i, hi, hisize, by rw [update_of_ne hik, hentry]⟩
  dropped dj hdj := by
    simp only [mkzPlace]
    rw [update_of_ne, h.dropped dj hdj]
    rintro rfl
    rw [h.moving] at hdj
    cases hdj

theorem mkzUpLoop_spec (habove : FitsAbove Prod.snd Q.entry Q.size k x.2) (hfuel : k ≤ fuel) :
    MkzOk (mkzPlace (mkzUpLoop x.2 fuel Q k).1 (mkzUpLoop x.2 fuel Q k).2 x) status := by
  induction fuel generalizing Q k with
  | zero => exact absurd h.pos (by omega)
  | succ fuel ih =>
    rw [mkzUpLoop]
    split_ifs with hcond
    · obtain ⟨hk, hle⟩ := hcond
      have hne : k / 2 ≠ k := by omega
      have hsize := h.le
      exact ih (h.assign (by omega) (by omega) hne (h.hole.up hk hsize))
        (FitsAbove.up h.hole hk hle) (by omega)
    · refine h.place (fun hk => ?_) habove
      exact le_of_lt (not_le.mp fun hle => hcond ⟨hk, hle⟩)

end

theorem mkzUpQueue_spec (h : MkzMoving Q status k (Q.entry k))
    (habove : FitsAbove Prod.snd Q.entry Q.size k (Q.entry k).2) :
    MkzOk (mkzUpQueue Q k) status :=
  mkzUpLoop_spec h habove le_rfl

theorem mkzSon_spec (hsize : k ≤ Q.size / 2) :
    mkzSon Q k / 2 = k ∧ mkzSon Q k ≤ Q.size ∧
      ∀ i, i / 2 = k → i ≤ Q.size → (Q.entry (mkzSon Q k)).2 ≤ (Q.entry i).2 := by
  unfold mkzSon
  have hson : ∀ i, i / 2 = k → i = 2 * k ∨ i = 2 * k + 1 := by omega
  simp only
  split_ifs with h
  · refine ⟨by omega, by omega, fun i hik hisize => ?_⟩
    rcases hson i hik with rfl | rfl
    · exact h.2.le
    · exact le_rfl
  · refine ⟨by omega, by omega, fun i hik hisize => ?_⟩
    rcases hson i hik with rfl | rfl
    · exact le_rfl
    · exact not_lt.mp fun hlt => h ⟨by omega, hlt⟩

theorem mkzDownLoop_spec (h : MkzMoving Q status k x)
    (hbelow : FitsBelow Prod.snd Q.entry k x.2) (hfuel : Q.size < k + fuel) :
    MkzOk (mkzPlace (mkzDownLoop x.2 fuel Q k).1 (mkzDownLoop x.2 fuel Q k).2 x) status := by
  induction fuel generalizing Q k with
  | zero => exact absurd h.le (by omega)
  | succ fuel ih =>
    rw [mkzDownLoop]
    have hpos := h.pos
    split_ifs with hk
    · obtain ⟨hfather, hsize, hleast⟩ := mkzSon_spec hk
      simp only
      split_ifs with hle
      · exact h.place hbelow fun i hik hisize => hle.trans (hleast i hik hisize)
      · exact ih (h.assign (by omega) hsize (by omega) (h.hole.down hpos hfather hsize hleast))
          (FitsBelow.down hfather (not_le.mp hle).le) (by simp only [mkzAssign]; omega)
    · exact h.place hbelow fun i hik hisize => absurd hisize (by omega)

theorem mkzDownQueue_spec (h : MkzMoving Q status k (Q.entry k))
    (hbelow : FitsBelow Prod.snd Q.entry k (Q.entry k).2) :
    MkzOk (mkzDownQueue Q k) status :=
  mkzDownLoop_spec h hbelow (by have := h.pos; omega)

/-- An entry in any place finds its place. -/
theorem mkzMoveUpOrDown_spec (h : MkzMoving Q status k (Q.entry k)) :
    MkzOk (mkzMoveUpOrDown Q k) status := by
  unfold mkzMoveUpOrDown
  split_ifs with hone hgt
  · subst hone
    exact mkzDownQueue_spec h fun _ => by omega
  · have hpos := h.pos
    refine mkzUpQueue_spec h fun i hik hisize => ?_
    exact hgt.le.trans (h.hole.across (by omega) i hik hisize)
  · exact mkzDownQueue_spec h fun _ => not_lt.mp hgt

end Moving

/-! ## The operations -/

section Operations

variable {Q : MkzQueue} {status : ℕ → MkzStatus} {k dj : ℕ} {count : ℤ}

theorem MkzOk.entry_ne (h : MkzOk Q status) (hdj : ∀ count, status dj ≠ .queued count) {i : ℕ}
    (hi : 1 ≤ i) (hisize : i ≤ Q.size) : (Q.entry i).1 ≠ dj := by
  rintro rfl
  exact hdj _ (h.sound i hi hisize)

/-- A new entry takes its place in the queue. -/
theorem mkzInsert_spec (h : MkzOk Q status) (hdj : status dj = .absent) (count : ℤ) :
    MkzOk (mkzInsert Q dj count) (update status dj (.queued count)) := by
  have hne : ∀ i, 1 ≤ i → i ≤ Q.size → (Q.entry i).1 ≠ dj := fun i hi hisize =>
    h.entry_ne (by simp [hdj]) hi hisize
  have hentry : update Q.entry (Q.size + 1) (dj, count) (Q.size + 1) = (dj, count) :=
    update_self _ _ _
  refine @mkzUpQueue_spec _ _ (Q.size + 1) ?_ (@fitsAbove_last _ _ _ _ _ Q.size _)
  simp only [hentry]
  refine ⟨by omega, le_rfl, h.isOrdered.hole_succ.update _, ?_, ?_, ?_, update_self _ _ _, ?_, ?_⟩
  · intro i hi hisize hik
    simp only at hisize ⊢
    rw [update_of_ne hik, update_of_ne (hne i hi (by omega)), h.address i hi (by omega)]
  · intro i hi hisize hik
    simp only at hisize ⊢
    rw [update_of_ne hik, update_of_ne (hne i hi (by omega)), h.sound i hi (by omega)]
  · intro i hi hisize hik
    simp only at hisize ⊢
    rw [update_of_ne hik]
    exact hne i hi (by omega)
  · intro d c hd hddj
    rw [update_of_ne hddj] at hd
    obtain ⟨i, hi, hisize, hi'⟩ := h.complete d c hd
    refine ⟨i, hi, by simp only; omega, by omega, ?_⟩
    simp only
    rw [update_of_ne (by omega), hi']
  · intro d hd
    by_cases hddj : d = dj
    · rw [hddj, update_self] at hd
      cases hd
    · simp only
      rw [update_of_ne hddj] at hd ⊢
      exact h.dropped d hd

/-- An entry is taken out and the last one, which is another, is on the move in its place;
`A` may be changed for the column that goes. -/
theorem MkzOk.takeLast (h : MkzOk Q status) (hk : 1 ≤ k) (hlast : k < Q.size) {A : ℕ → ℤ}
    (hA : ∀ d, d ≠ (Q.entry k).1 → A d = Q.A d) {s : MkzStatus} (hs : ∀ count, s ≠ .queued count)
    (hdrop : s = .dropped → A (Q.entry k).1 = mkzInf) :
    MkzMoving (mkzTakeLast { Q with A := A } k) (update status (Q.entry k).1 s) k
      ((mkzTakeLast { Q with A := A } k).entry k) := by
  have hx : (mkzTakeLast { Q with A := A } k).entry k = Q.entry Q.size :=
    update_self _ _ _
  have hne : ∀ i, 1 ≤ i → i ≤ Q.size → i ≠ k → (Q.entry i).1 ≠ (Q.entry k).1 :=
    fun i hi hisize hik => h.ne hi hisize hk hlast.le hik
  have hlastne := hne Q.size (by omega) le_rfl (by omega)
  rw [hx]
  simp only [mkzTakeLast, mkzAssign]
  refine ⟨hk, by simp only; omega, (h.isOrdered.mono (Nat.sub_le _ _)).hole k |>.update _, ?_, ?_,
    ?_, ?_, ?_, ?_⟩
  · intro i hi hisize hik
    simp only at hisize ⊢
    rw [update_of_ne hik, update_of_ne (h.ne hi (by omega) (by omega) le_rfl (by omega)),
      hA _ (hne i hi (by omega) hik), h.address i hi (by omega)]
  · intro i hi hisize hik
    simp only at hisize ⊢
    rw [update_of_ne hik, update_of_ne (hne i hi (by omega) hik), h.sound i hi (by omega)]
  · intro i hi hisize hik
    simp only at hisize ⊢
    rw [update_of_ne hik]
    exact h.ne hi (by omega) (by omega) le_rfl (by omega)
  · rw [update_of_ne hlastne]
    exact h.sound Q.size (by omega) le_rfl
  · intro d c hd hdne
    have hdk : d ≠ (Q.entry k).1 := by
      rintro rfl
      rw [update_self] at hd
      exact hs c hd
    rw [update_of_ne hdk] at hd
    obtain ⟨i, hi, hisize, hi'⟩ := h.complete d c hd
    have hik : i ≠ k := by
      rintro rfl
      exact hdk (by rw [hi'])
    have hil : i ≠ Q.size := by
      rintro rfl
      exact hdne (by rw [hi'])
    refine ⟨i, hi, by simp only; omega, hik, ?_⟩
    simp only
    rw [update_of_ne hik, hi']
  · intro d hd
    by_cases hdk : d = (Q.entry k).1
    · rw [hdk, update_self] at hd
      simp only
      rw [hdk, update_of_ne hlastne.symm]
      exact hdrop hd
    · rw [update_of_ne hdk] at hd
      simp only
      rw [update_of_ne, hA d hdk, h.dropped d hd]
      rintro rfl
      rw [h.sound Q.size (by omega) le_rfl] at hd
      cases hd

theorem mkzPopQueue_eq (Q : MkzQueue) : mkzPopQueue Q = mkzRemove Q 1 := by
  simp [mkzPopQueue, mkzRemove, mkzMoveUpOrDown]

theorem mkzRemove_spec (h : MkzOk Q status) (hk : 1 ≤ k) (hlast : k < Q.size) :
    MkzOk (mkzRemove Q k).2 (update status (Q.entry k).1 .dropped) :=
  mkzMoveUpOrDown_spec (h.takeLast hk hlast (fun _ hd => update_of_ne hd _ _)
    (fun _ hs => by cases hs) fun _ => update_self _ _ _)

theorem mkzMoveUpOrDown_beyond (hk : k = Q.size + 1)
    (hfather : 2 ≤ k → (Q.entry (k / 2)).2 ≤ (Q.entry k).2) :
    mkzMoveUpOrDown Q k = mkzPlace Q k (Q.entry k) := by
  have hdown : mkzDownQueue Q k = mkzPlace Q k (Q.entry k) := by
    have hloop : ∀ fuel, mkzDownLoop (Q.entry k).2 fuel Q k = (Q, k) := fun fuel => by
      cases fuel with
      | zero => rfl
      | succ fuel => rw [mkzDownLoop, if_neg (by omega)]
    simp [mkzDownQueue, hloop]
  unfold mkzMoveUpOrDown
  split_ifs with hone hgt
  · rw [← hone, hdown]
  · exact absurd (hfather (by omega)) (not_le.mpr hgt)
  · exact hdown

theorem mkzTakeLast_last (h : Ordered Prod.snd Q.entry Q.size) (hsize : 1 ≤ Q.size)
    (A : ℕ → ℤ) :
    mkzMoveUpOrDown (mkzTakeLast { Q with A := A } Q.size) Q.size
      = { Q with size := Q.size - 1, A := update A (Q.entry Q.size).1 Q.size } := by
  have htake : mkzTakeLast { Q with A := A } Q.size
      = { Q with size := Q.size - 1, A := update A (Q.entry Q.size).1 Q.size } := by
    simp [mkzTakeLast, mkzAssign]
  have hbeyond := mkzMoveUpOrDown_beyond (k := Q.size)
    (Q := { Q with size := Q.size - 1, A := update A (Q.entry Q.size).1 Q.size })
    (by simp only; omega) fun hk => h _ hk le_rfl
  rw [htake, hbeyond]
  simp [mkzPlace]

section

variable (h : MkzOk Q status)
include h

theorem mkzRemove_last (hsize : 1 ≤ Q.size) :
    (mkzRemove Q Q.size).2.A (Q.entry Q.size).1 = Q.size := by
  simp only [mkzRemove]
  rw [mkzTakeLast_last h.isOrdered hsize]
  exact update_self _ _ _

/-- Dropping a column leaves the queue in order. -/
theorem mkzRemoveJ_spec (hdj : status dj = .queued count) :
    MkzOk (mkzRemoveJ Q dj) (update status dj .dropped) := by
  obtain ⟨k, hk, hksize, hentry⟩ := h.complete dj count hdj
  have hkdj : (Q.entry k).1 = dj := by rw [hentry]
  have hA : Q.A dj = k := by rw [← hkdj, h.address k hk hksize]
  -- the column is reset after `MkzDelete`
  have hreset : ∀ Q', MkzOk Q' (update status dj .absent) →
      MkzOk { Q' with A := update Q'.A dj mkzInf }
        (update status dj .dropped) := by
    intro Q' h'
    have hne : ∀ i, 1 ≤ i → i ≤ Q'.size → (Q'.entry i).1 ≠ dj := fun i hi hisize =>
      h'.entry_ne (fun c => by simp) hi hisize
    refine ⟨h'.ordered, fun i hi hisize => ?_, fun i hi hisize => ?_, fun d c hd => ?_,
      fun d hd => ?_⟩
    · simp only at hisize ⊢
      rw [update_of_ne (hne i hi hisize), h'.address i hi hisize]
    · have hsound := h'.sound i hi hisize
      rw [update_of_ne (hne i hi hisize)] at hsound ⊢
      exact hsound
    · have hddj : d ≠ dj := by
        rintro rfl
        simp at hd
      rw [update_of_ne hddj] at hd
      exact h'.complete d c (by rw [update_of_ne hddj, hd])
    · by_cases hddj : d = dj
      · rw [hddj]
        exact update_self _ _ _
      · simp only
        rw [update_of_ne hddj] at hd ⊢
        exact h'.dropped d (by rw [update_of_ne hddj, hd])
  rw [mkzRemoveJ, if_neg (by rw [hA, mkzInf]; omega), hA, Int.toNat_natCast]
  rcases lt_or_eq_of_le hksize with hlast | rfl
  · subst hkdj
    exact hreset _ (mkzMoveUpOrDown_spec (h.takeLast (A := Q.A) hk hlast (fun _ _ => rfl)
      (fun _ hs => by cases hs) (fun hs => by cases hs)))
  · have hdelete : mkzDelete Q Q.size
        = { Q with size := Q.size - 1, A := update Q.A dj Q.size } := by
      rw [← hkdj]
      exact mkzTakeLast_last h.isOrdered hk Q.A
    have hne : ∀ i, 1 ≤ i → i ≤ Q.size - 1 → (Q.entry i).1 ≠ dj := fun i hi hisize =>
      hkdj ▸ h.ne hi (by omega) hk le_rfl (by omega)
    rw [hdelete]
    refine hreset _ ⟨fun i hi hisize => h.ordered i hi ?_, fun i hi hisize => ?_,
      fun i hi hisize => ?_, fun d c hd => ?_, fun d hd => ?_⟩
    · simp only at hisize
      omega
    · simp only at hisize ⊢
      rw [update_of_ne (hne i hi hisize), h.address i hi (by omega)]
    · simp only at hisize ⊢
      rw [update_of_ne (hne i hi hisize), h.sound i hi (by omega)]
    · have hddj : d ≠ dj := by
        rintro rfl
        simp at hd
      rw [update_of_ne hddj] at hd
      obtain ⟨i, hi, hisize, hi'⟩ := h.complete d c hd
      have hil : i ≠ Q.size := by
        rintro rfl
        exact hddj (by rw [← hkdj, hi'])
      exact ⟨i, hi, by simp only; omega, hi'⟩
    · have hddj : d ≠ dj := by
        rintro rfl
        simp at hd
      simp only
      rw [update_of_ne hddj] at hd ⊢
      exact h.dropped d hd

/-- A new count moves the entry to its place. -/
theorem mkzRecount_spec (hk : 1 ≤ k) (hksize : k ≤ Q.size) (count : ℤ) :
    MkzOk (mkzRecount Q k count) (update status (Q.entry k).1 (.queued count)) := by
  have hne : ∀ i, 1 ≤ i → i ≤ Q.size → i ≠ k → (Q.entry i).1 ≠ (Q.entry k).1 :=
    fun i hi hisize hik => h.ne hi hisize hk hksize hik
  have hentry : update Q.entry k ((Q.entry k).1, count) k = ((Q.entry k).1, count) :=
    update_self _ _ _
  refine mkzMoveUpOrDown_spec ?_
  simp only [hentry]
  refine ⟨hk, hksize, (h.isOrdered.hole k).update _, ?_, ?_, ?_, update_self _ _ _, ?_, ?_⟩
  · intro i hi hisize hik
    simp only at hisize ⊢
    rw [update_of_ne hik, h.address i hi hisize]
  · intro i hi hisize hik
    simp only at hisize ⊢
    rw [update_of_ne hik, update_of_ne (hne i hi hisize hik), h.sound i hi hisize]
  · intro i hi hisize hik
    simp only at hisize ⊢
    rw [update_of_ne hik]
    exact hne i hi hisize hik
  · intro d c hd hdk
    rw [update_of_ne hdk] at hd
    obtain ⟨i, hi, hisize, hi'⟩ := h.complete d c hd
    have hik : i ≠ k := by
      rintro rfl
      exact hdk (by rw [hi'])
    refine ⟨i, hi, hisize, hik, ?_⟩
    simp only
    rw [update_of_ne hik, hi']
  · intro d hd
    have hdk : d ≠ (Q.entry k).1 := by
      rintro rfl
      simp at hd
    rw [update_of_ne hdk] at hd
    exact h.dropped d hd

/-- A call keeps the queue right, unless it takes out the last entry. -/
theorem MkzOk.step {op : MkzOp} (hallowed : op.Allowed Q status)
    (hlast : op.NotLast Q) : MkzOk (op.run Q) (op.status Q status) := by
  cases op with
  | insert dj count => exact mkzInsert_spec h hallowed count
  | pop =>
    simp only [MkzOp.run, mkzPopQueue_eq]
    refine mkzRemove_spec h le_rfl ?_
    simp only [MkzOp.Allowed, MkzOp.NotLast] at hallowed hlast
    omega
  | remove k => exact mkzRemove_spec h hallowed.1 (lt_of_le_of_ne hallowed.2 hlast)
  | removeJ dj =>
    obtain ⟨count, hdj⟩ := hallowed
    exact mkzRemoveJ_spec h hdj
  | recount k count => exact mkzRecount_spec h hallowed.1 hallowed.2 count

theorem MkzOk.not_step {op : MkzOp} (hallowed : op.Allowed Q status)
    (hlast : ¬op.NotLast Q) : ¬MkzOk (op.run Q) (op.status Q status) := by
  have hwrong : ∀ Q' : MkzQueue, 1 ≤ Q.size → Q'.A (Q.entry Q.size).1 = Q.size →
      ¬MkzOk Q' (update status (Q.entry Q.size).1 .dropped) := by
    intro Q' hsize hA h'
    have hdrop := h'.dropped (Q.entry Q.size).1 (update_self _ _ _)
    rw [hA, mkzInf] at hdrop
    omega
  cases op with
  | insert dj count => exact absurd trivial hlast
  | pop =>
    have hone : 1 = Q.size := (not_not.mp hlast).symm
    have hremove := mkzRemove_last h hone.le
    rw [← hone] at hremove hwrong
    simp only [MkzOp.run, MkzOp.status, mkzPopQueue_eq]
    exact hwrong _ le_rfl hremove
  | remove k =>
    obtain rfl : k = Q.size := not_not.mp hlast
    exact hwrong _ hallowed.1 (mkzRemove_last h hallowed.1)
  | removeJ dj => exact absurd trivial hlast
  | recount k count => exact absurd trivial hlast

end

end Operations

/-! ## Runs -/

section

variable {Q : MkzQueue} {status : ℕ → MkzStatus} (h : MkzRun Q status)
include h

theorem MkzRun.ok : MkzOk Q status := by
  induction h with
  | init hsize =>
    exact ⟨fun k hk hksize => by omega, fun k hk hksize => by omega,
      fun k hk hksize => by omega, fun dj count hdj => MkzStatus.noConfusion hdj,
      fun dj hdj => MkzStatus.noConfusion hdj⟩
  | step _ hallowed hlast ih => exact ih.step hallowed hlast

/-- In every run in which no pop or removal takes out the last entry, the queue is a heap of
the queued columns with right addresses, and the entry that the next pop returns is a least one.
The next call keeps that if and only if it does not take out the last entry. -/
theorem mkzRun_spec : MkzOk Q status ∧
      (1 ≤ Q.size → status (mkzPopQueue Q).1.1 = .queued (mkzPopQueue Q).1.2 ∧
        ∀ dj count, status dj = .queued count → (mkzPopQueue Q).1.2 ≤ count) ∧
      ∀ op : MkzOp, op.Allowed Q status →
        (MkzOk (op.run Q) (op.status Q status) ↔ op.NotLast Q) := by
  have hok := h.ok
  refine ⟨hok, fun hsize => ⟨hok.sound 1 le_rfl hsize, fun dj count hdj => ?_⟩,
    fun op hallowed => ⟨?_, hok.step hallowed⟩⟩
  · obtain ⟨k, hk, hksize, hentry⟩ := hok.complete dj count hdj
    have hle := hok.isOrdered.root_le hk hksize
    rwa [hentry] at hle
  · contrapose
    exact hok.not_step hallowed

end

/-- The queue of columns 4 and 7, with counts 2 and 3. -/
def mkzTwo : MkzQueue :=
  mkzInsert (mkzInsert { size := 0, entry := fun _ => (0, 0), A := fun _ => mkzInf } 4 2) 7 3

/-- Both columns are queued. -/
def mkzTwoStatus : ℕ → MkzStatus :=
  update (update (fun _ => .absent) 4 (.queued 2)) 7 (.queued 3)

theorem mkzRun_two : MkzRun mkzTwo mkzTwoStatus := by
  have hnone : MkzRun { size := 0, entry := fun _ => (0, 0), A := fun _ => mkzInf }
      fun _ => .absent := .init (by rfl)
  have hone := @MkzRun.step _ _ (.insert 4 2) hnone (by rfl) trivial
  exact @MkzRun.step _ _ (.insert 7 3) hone (by rfl) trivial

theorem mkzRun_spec_two :
    (mkzPopQueue mkzTwo).1 = (4, 2) ∧
      MkzOk (mkzPopQueue mkzTwo).2 (MkzOp.status mkzTwo mkzTwoStatus .pop) ∧
      ¬MkzOk (mkzRemove mkzTwo 2).2 (MkzOp.status mkzTwo mkzTwoStatus (.remove 2)) := by
  obtain ⟨-, -, hstep⟩ := mkzRun_spec mkzRun_two
  exact ⟨by decide, (hstep .pop (show 1 ≤ 2 by decide)).mpr (show 2 ≠ 1 by decide),
    fun h => (hstep (.remove 2) (show 1 ≤ 2 ∧ 2 ≤ 2 by decide)).mp h rfl⟩

/-- Column 7 is the last entry; its address is still 2 after it has been removed. -/
theorem mkzRemove_keeps_address :
    MkzOp.Allowed mkzTwo mkzTwoStatus (.remove 2) ∧ (mkzRemove mkzTwo 2).1 = (7, 3) ∧
      MkzOp.status mkzTwo mkzTwoStatus (.remove 2) 7 = .dropped ∧
      (mkzRemove mkzTwo 2).2.A 7 = 2 ∧ (mkzRemove mkzTwo 2).2.A 7 ≠ mkzInf :=
  ⟨show 1 ≤ 2 ∧ 2 ≤ 2 by decide, by decide, by decide, by decide, by decide⟩

end CadoNfs.Merge
