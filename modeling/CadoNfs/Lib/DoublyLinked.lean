import Mathlib.Data.List.Basic
import Mathlib.Data.Set.Basic
import CadoNfs.Macros

/-!
# Doubly linked lists

A memory of cells with two pointers holds a family of lists, each behind a head of its own.

Main results:

- Theorem `Family.insertAfter`: a new cell comes first in one list.
- Theorem `Family.remove`: a cell leaves its list, whichever one it is in.
- Theorem `Emptying.removeNext`: a list that is emptied from the front.
-/

namespace CadoNfs.DoublyLinked

open List (Sublist head?_cons mem_cons mem_cons_of_mem mem_cons_self mem_of_head? nodup_cons)
open Function (update_of_ne update_self)

/-- A cell. -/
structure Cell (α : Type) where
  val : α
  prev : Option ℕ
  next : Option ℕ

/-- The cells in use.  New cells are at `fresh`. -/
structure Heap (α : Type) where
  cells : ℕ → Option (Cell α)
  fresh : ℕ

variable {α : Type} {ι : Type*}

/-! ## Operations -/

/-- Without cells. -/
def Heap.empty : Heap α where
  cells _ := none
  fresh := 0

/-- One cell is written. -/
def Heap.set (h : Heap α) (a : ℕ) (c : Cell α) : Heap α :=
  { h with cells := Function.update h.cells a (some c) }

/-- One cell is given back. -/
def Heap.free (h : Heap α) (a : ℕ) : Heap α :=
  { h with cells := Function.update h.cells a none }

/-- A new cell without neighbours. -/
def create (h : Heap α) (v : α) : Heap α × ℕ :=
  ({ cells := Function.update h.cells h.fresh (some { val := v, prev := none, next := none })
     fresh := h.fresh + 1 }, h.fresh)

/-- The pointer to the next cell is changed, if there is a cell to change. -/
def setNext (h : Heap α) (at? next : Option ℕ) : Option (Heap α) :=
  match at? with
  | none => some h
  | some a => (h.cells a).map fun c => h.set a { c with next := next }

/-- The pointer to the previous cell is changed, if there is a cell to change. -/
def setPrev (h : Heap α) (at? prev : Option ℕ) : Option (Heap α) :=
  match at? with
  | none => some h
  | some a => (h.cells a).map fun c => h.set a { c with prev := prev }

/-- A new cell behind the cell at `p`. -/
def insertAfter (h : Heap α) (p : ℕ) (v : α) : Option (Heap α × ℕ) := do
  let (h, a) := create h v
  let c ← h.cells p
  let h ← setNext h (some a) c.next
  let h ← setPrev h (some a) (some p)
  let h ← setPrev h c.next (some a)
  let h ← setNext h (some p) (some a)
  return (h, a)

/-- The neighbours of the cell at `a` are joined. -/
def remove (h : Heap α) (a : ℕ) : Option (Heap α) := do
  let c ← h.cells a
  let h ← setNext h c.prev c.next
  let h ← setPrev h c.next c.prev
  return h.free a

/-- The cell behind `p` is skipped; pointers back are left as they are. -/
def removeNext (h : Heap α) (p : ℕ) : Option (α × Heap α) := do
  let c ← h.cells p
  let a ← c.next
  let d ← h.cells a
  let h := h.free a
  let h ← setNext h (some p) d.next
  return (d.val, h)

/-! ## Fields -/

/-- The value of a cell. -/
def Heap.val (h : Heap α) (a : ℕ) : Option α :=
  (h.cells a).map Cell.val

/-- The next cell, if there is a cell. -/
def Heap.next (h : Heap α) (a : ℕ) : Option (Option ℕ) :=
  (h.cells a).map Cell.next

/-- The previous cell, if there is a cell. -/
def Heap.prev (h : Heap α) (a : ℕ) : Option (Option ℕ) :=
  (h.cells a).map Cell.prev

section Fields

variable {h h' : Heap α} {a p : ℕ} {v : α}

theorem Heap.exists_cell_of_next {x : Option ℕ} (hx : h.next a = some x) :
    ∃ c, h.cells a = some c ∧ c.next = x :=
  Option.map_eq_some_iff.mp hx

theorem Heap.exists_cell_of_prev {x : Option ℕ} (hx : h.prev a = some x) :
    ∃ c, h.cells a = some c ∧ c.prev = x :=
  Option.map_eq_some_iff.mp hx

theorem setNext_spec {at? x : Option ℕ} (hat : ∀ b, at? = some b → h.next b ≠ none) :
    ∃ h', setNext h at? x = some h' ∧ h'.fresh = h.fresh ∧
      (∀ b, h'.next b = if at? = some b then some x else h.next b) ∧
      (∀ b, h'.prev b = h.prev b) ∧ ∀ b, h'.val b = h.val b := by
  cases at? with
  | none => exact ⟨h, rfl, rfl, fun b => by simp, fun _ => rfl, fun _ => rfl⟩
  | some a =>
    obtain ⟨y, hy⟩ := Option.ne_none_iff_exists'.mp (hat a rfl)
    obtain ⟨c, hc, -⟩ := Heap.exists_cell_of_next hy
    refine ⟨h.set a { c with next := x }, by rw [setNext, hc, Option.map_some], rfl, fun b => ?_,
      fun b => ?_, fun b => ?_⟩
    all_goals
      by_cases hb : b = a
      · subst hb
        simp [Heap.set, Heap.next, Heap.prev, Heap.val, hc]
      · simp [Heap.set, Heap.next, Heap.prev, Heap.val, update_of_ne hb, Ne.symm hb]

theorem setPrev_spec {at? x : Option ℕ} (hat : ∀ b, at? = some b → h.next b ≠ none) :
    ∃ h', setPrev h at? x = some h' ∧ h'.fresh = h.fresh ∧ (∀ b, h'.next b = h.next b) ∧
      (∀ b, h'.prev b = if at? = some b then some x else h.prev b) ∧ ∀ b, h'.val b = h.val b := by
  cases at? with
  | none => exact ⟨h, rfl, rfl, fun _ => rfl, fun b => by simp, fun _ => rfl⟩
  | some a =>
    obtain ⟨y, hy⟩ := Option.ne_none_iff_exists'.mp (hat a rfl)
    obtain ⟨c, hc, -⟩ := Heap.exists_cell_of_next hy
    refine ⟨h.set a { c with prev := x }, by rw [setPrev, hc, Option.map_some], rfl, fun b => ?_,
      fun b => ?_, fun b => ?_⟩
    all_goals
      by_cases hb : b = a
      · subst hb
        simp [Heap.set, Heap.next, Heap.prev, Heap.val, hc]
      · simp [Heap.set, Heap.next, Heap.prev, Heap.val, update_of_ne hb, Ne.symm hb]

/-- All cells in use are below `fresh`. -/
def Heap.Bounded (h : Heap α) : Prop :=
  ∀ b, h.next b ≠ none → b < h.fresh

theorem Heap.Bounded.next_fresh (hb : h.Bounded) : h.next h.fresh = none := by
  by_contra hne
  exact absurd (hb _ hne) (lt_irrefl _)

theorem create_spec (h : Heap α) (v : α) :
    (create h v).2 = h.fresh ∧ (create h v).1.fresh = h.fresh + 1 ∧
      (∀ b, (create h v).1.next b = if b = h.fresh then some none else h.next b) ∧
      (∀ b, (create h v).1.prev b = if b = h.fresh then some none else h.prev b) ∧
      ∀ b, (create h v).1.val b = if b = h.fresh then some v else h.val b := by
  refine ⟨rfl, rfl, fun b => ?_, fun b => ?_, fun b => ?_⟩
  all_goals
    by_cases hb : b = h.fresh
    · simp [create, Heap.next, Heap.prev, Heap.val, hb]
    · simp [create, Heap.next, Heap.prev, Heap.val, hb]

/-- The insertion changes the two pointers around the new node. -/
theorem insertAfter_spec (hbound : h.Bounded) {nx : Option ℕ} (hp : h.next p = some nx)
    (hnx : ∀ n, nx = some n → h.next n ≠ none ∧ n ≠ p) (v : α) :
    ∃ h', insertAfter h p v = some (h', h.fresh) ∧ h'.fresh = h.fresh + 1 ∧
      (∀ b, h'.next b = if b = p then some (some h.fresh) else if b = h.fresh then some nx
        else h.next b) ∧
      (∀ b, h'.prev b = if b = h.fresh then some (some p) else if nx = some b then
        some (some h.fresh) else h.prev b) ∧
      ∀ b, h'.val b = if b = h.fresh then some v else h.val b := by
  have hpne : p ≠ h.fresh := by
    rintro rfl
    exact absurd (hp.symm.trans hbound.next_fresh) (by simp)
  have hnxne : nx ≠ some h.fresh := fun heq => (hnx _ heq).1 hbound.next_fresh
  obtain ⟨haddr, hfresh₀, hnext₀, hprev₀, hval₀⟩ := create_spec h v
  set h₀ := (create h v).1 with hh₀
  have hp₀ : h₀.next p = some nx := by rw [hnext₀, if_neg hpne, hp]
  obtain ⟨c, hc, hcnext⟩ := Heap.exists_cell_of_next hp₀
  obtain ⟨h₁, hrun₁, hfresh₁, hnext₁, hprev₁, hval₁⟩ := setNext_spec (h := h₀)
    (x := nx) fun b hb => by
      rw [← Option.some.inj hb, hnext₀, if_pos rfl]
      simp
  obtain ⟨h₂, hrun₂, hfresh₂, hnext₂, hprev₂, hval₂⟩ := setPrev_spec (h := h₁)
    (x := some p) fun b hb => by
      rw [← Option.some.inj hb, hnext₁, if_pos rfl]
      simp
  obtain ⟨h₃, hrun₃, hfresh₃, hnext₃, hprev₃, hval₃⟩ := setPrev_spec (h := h₂)
    (x := some h.fresh) fun b hb => by
      rw [hnext₂, hnext₁, hnext₀]
      split_ifs
      · simp
      · simp
      · exact (hnx b hb).1
  obtain ⟨h₄, hrun₄, hfresh₄, hnext₄, hprev₄, hval₄⟩ := setNext_spec (h := h₃)
    (x := some h.fresh) fun b hb => by
      rw [← Option.some.inj hb, hnext₃, hnext₂, hnext₁, hp₀]
      split_ifs <;> simp
  refine ⟨h₄, ?_, by rw [hfresh₄, hfresh₃, hfresh₂, hfresh₁, hfresh₀], fun b => ?_, fun b => ?_,
    fun b => ?_⟩
  · have hpair : create h v = (h₀, h.fresh) := Prod.ext rfl haddr
    simp only [insertAfter, hpair, hc, some_bind, hcnext, hrun₁, hrun₂, hrun₃, hrun₄]
    rfl
  · rw [hnext₄, hnext₃, hnext₂, hnext₁, hnext₀]
    simp only [Option.some.injEq]
    by_cases hbp : b = p
    · simp [hbp]
    · by_cases hba : b = h.fresh
      · simp [hba, hpne.symm, hpne]
      · simp [hbp, hba, Ne.symm hbp, Ne.symm hba]
  · rw [hprev₄, hprev₃, hprev₂, hprev₁, hprev₀]
    simp only [Option.some.injEq]
    by_cases hba : b = h.fresh
    · subst hba
      simp [hnxne]
    · simp [hba, Ne.symm hba]
  · rw [hval₄, hval₃, hval₂, hval₁, hval₀]

/-- The neighbours of the removed node are linked. -/
theorem remove_spec {q : ℕ} {nx : Option ℕ} (hprev : h.prev a = some (some q))
    (hnext : h.next a = some nx) (hq : h.next q ≠ none)
    (hnx : ∀ n, nx = some n → h.next n ≠ none ∧ n ≠ a) :
    ∃ h', remove h a = some h' ∧ h'.fresh = h.fresh ∧
      (∀ b, h'.next b = if b = a then none else if b = q then some nx else h.next b) ∧
      (∀ b, h'.prev b = if b = a then none else if nx = some b then some (some q) else h.prev b) ∧
      ∀ b, h'.val b = if b = a then none else h.val b := by
  obtain ⟨c, hc, hcnext⟩ := Heap.exists_cell_of_next hnext
  obtain ⟨c', hc', hcprev⟩ := Heap.exists_cell_of_prev hprev
  obtain rfl : c = c' := Option.some.inj (hc.symm.trans hc')
  obtain ⟨h₁, hrun₁, hfresh₁, hnext₁, hprev₁, hval₁⟩ := setNext_spec (h := h)
    (x := nx) fun b hb => Option.some.inj hb ▸ hq
  obtain ⟨h₂, hrun₂, hfresh₂, hnext₂, hprev₂, hval₂⟩ := setPrev_spec (h := h₁)
    (x := some q) fun b hb => by
      rw [hnext₁]
      split_ifs
      · simp
      · exact (hnx b hb).1
  refine ⟨h₂.free a, ?_, by rw [Heap.free, hfresh₂, hfresh₁], fun b => ?_, fun b => ?_, fun b => ?_⟩
  · simp only [remove, hc, some_bind, hcnext, hcprev, hrun₁, hrun₂]
    rfl
  all_goals
    by_cases hb : b = a
    · simp [Heap.free, Heap.next, Heap.prev, Heap.val, hb]
  · have hfree : (h₂.free a).next b = h₂.next b := by
      simp [Heap.free, Heap.next, update_of_ne hb]
    rw [hfree, hnext₂, hnext₁, if_neg hb]
    simp [eq_comm]
  · have hfree : (h₂.free a).prev b = h₂.prev b := by
      simp [Heap.free, Heap.prev, update_of_ne hb]
    rw [hfree, hprev₂, hprev₁, if_neg hb]
  · have hfree : (h₂.free a).val b = h₂.val b := by
      simp [Heap.free, Heap.val, update_of_ne hb]
    rw [hfree, hval₂, hval₁, if_neg hb]

/-- The node after `p` is taken out and its value returned. -/
theorem removeNext_spec {nx : Option ℕ} (hp : h.next p = some (some a)) (ha : h.next a = some nx)
    (hpa : p ≠ a) (hv : h.val a = some v) :
    ∃ h', removeNext h p = some (v, h') ∧ h'.fresh = h.fresh ∧
      (∀ b, h'.next b = if b = a then none else if b = p then some nx else h.next b) ∧
      (∀ b, b ≠ a → h'.prev b = h.prev b) ∧ ∀ b, h'.val b = if b = a then none else h.val b := by
  obtain ⟨c, hc, hcnext⟩ := Heap.exists_cell_of_next hp
  obtain ⟨d, hd, hdnext⟩ := Heap.exists_cell_of_next ha
  have hdval : d.val = v := by
    rw [Heap.val, hd] at hv
    exact Option.some.inj hv
  have hfree : ∀ b, b ≠ a → (h.free a).cells b = h.cells b := fun b hb =>
    update_of_ne hb _ _
  obtain ⟨h₁, hrun₁, hfresh₁, hnext₁, hprev₁, hval₁⟩ := setNext_spec (h := h.free a)
    (x := nx) fun b hb => by
      obtain rfl := Option.some.inj hb
      rw [Heap.next, hfree p hpa, hc]
      simp
  refine ⟨h₁, ?_, hfresh₁, fun b => ?_, fun b hb => ?_, fun b => ?_⟩
  · simp only [removeNext, hc, some_bind, hcnext, hd, hdnext, hrun₁, hdval]
    rfl
  · rw [hnext₁]
    by_cases hb : b = a
    · subst hb
      simp [Heap.next, Heap.free, hpa]
    · rw [Heap.next, hfree b hb, ← Heap.next]
      simp [hb, eq_comm]
  · rw [hprev₁, Heap.prev, hfree b hb, ← Heap.prev]
  · rw [hval₁]
    by_cases hb : b = a
    · subst hb
      simp [Heap.val, Heap.free]
    · rw [Heap.val, hfree b hb, ← Heap.val, if_neg hb]

end Fields

/-! ## Lists -/

/-- The cells behind `p`, with pointers in both directions. -/
def Segment (h : Heap α) : ℕ → List ℕ → Prop
  | p, [] => h.next p = some none
  | p, a :: L => h.next p = some (some a) ∧ h.prev a = some (some p) ∧ Segment h a L

section Segment

variable {h h' : Heap α} {a p : ℕ} {L : List ℕ}

theorem Segment.next_eq (hL : Segment h p L) : h.next p = some L.head? := by
  cases L with
  | nil => exact hL
  | cons a L => exact hL.1

theorem Segment.next_ne_none (hL : Segment h p L) : ∀ b ∈ p :: L, h.next b ≠ none := by
  induction L generalizing p with
  | nil =>
    intro b hb
    rw [List.mem_singleton.mp hb, hL.next_eq]
    simp
  | cons a L ih =>
    intro b hb
    rcases mem_cons.mp hb with rfl | hb
    · rw [hL.next_eq]
      simp
    · exact ih hL.2.2 b hb

theorem Segment.congr (hL : Segment h p L) (hnext : ∀ b ∈ p :: L, h'.next b = h.next b)
    (hprev : ∀ b ∈ L, h'.prev b = h.prev b) : Segment h' p L := by
  induction L generalizing p with
  | nil => exact (hnext p mem_cons_self).trans hL
  | cons a L ih =>
    obtain ⟨hp, ha, hL⟩ := hL
    obtain ⟨hpa, hprev⟩ := List.forall_mem_cons.mp hprev
    exact ⟨(hnext p mem_cons_self).trans hp, hpa.trans ha,
      ih hL (fun b hb => hnext b (mem_cons_of_mem p hb)) hprev⟩

theorem Segment.exists_prev {L₁ L₂ : List ℕ} (hL : Segment h p (L₁ ++ a :: L₂)) :
    ∃ q ∈ p :: L₁, h.prev a = some (some q) ∧ h.next q = some (some a) ∧ Segment h a L₂ := by
  induction L₁ generalizing p with
  | nil => exact ⟨p, mem_cons_self, hL.2.1, hL.1, hL.2.2⟩
  | cons b L₁ ih =>
    obtain ⟨q, hq, hrest⟩ := ih hL.2.2
    exact ⟨q, mem_cons_of_mem p hq, hrest⟩

/-- A segment without the removed node is linked through. -/
theorem Segment.of_remove {L₁ L₂ : List ℕ} {q : ℕ} {nx : Option ℕ}
    (hL : Segment h p (L₁ ++ a :: L₂)) (hnodup : (p :: (L₁ ++ a :: L₂)).Nodup)
    (hq : h.prev a = some (some q)) (hnx : h.next a = some nx)
    (hnext : ∀ b, h'.next b = if b = a then none else if b = q then some nx else h.next b)
    (hprev : ∀ b, h'.prev b
      = if b = a then none else if nx = some b then some (some q) else h.prev b) :
    Segment h' p (L₁ ++ L₂) := by
  induction L₁ generalizing p with
  | nil =>
    obtain ⟨-, hpa, hL⟩ := hL
    obtain rfl : p = q := by simpa using hpa.symm.trans hq
    obtain rfl : nx = L₂.head? := Option.some.inj (hnx.symm.trans hL.next_eq)
    simp only [List.nil_append, nodup_cons, mem_cons, not_or] at hnodup
    obtain ⟨⟨hpane, hpL⟩, haL, hnodup⟩ := hnodup
    have hp' : h'.next p = some L₂.head? := by rw [hnext, if_neg hpane, if_pos rfl]
    cases L₂ with
    | nil => exact hp'
    | cons b L₂ =>
      have hca : ∀ c ∈ b :: L₂, c ≠ a := fun c hc heq => haL (heq ▸ hc)
      have hcp : ∀ c ∈ b :: L₂, c ≠ p := fun c hc heq => hpL (heq ▸ hc)
      refine ⟨hp', ?_, hL.2.2.congr (fun c hc => ?_) fun c hc => ?_⟩
      · rw [hprev, if_neg (hca b mem_cons_self), if_pos head?_cons]
      · rw [hnext, if_neg (hca c hc), if_neg (hcp c hc)]
      · have hcb : (b :: L₂).head? ≠ some c := fun heq => by
          obtain rfl : b = c := by simpa using heq
          exact (nodup_cons.mp hnodup).1 hc
        rw [hprev, if_neg (hca c (mem_cons_of_mem b hc)), if_neg hcb]
  | cons b L₁ ih =>
    obtain ⟨hp, hb, hL⟩ := hL
    obtain ⟨hpL, hnodup⟩ := nodup_cons.mp hnodup
    obtain ⟨q', hqL, hq', -, hL₂⟩ := hL.exists_prev
    obtain rfl : q' = q := by simpa using hq'.symm.trans hq
    have hpa : p ≠ a := fun heq => hpL (by simp [heq])
    have hpq : p ≠ q' := by
      rintro rfl
      refine hpL ?_
      rcases mem_cons.mp hqL with rfl | hqL
      · exact mem_cons_self
      · exact mem_cons_of_mem _ (List.mem_append_left _ hqL)
    have hba : b ≠ a := fun heq => (nodup_cons.mp hnodup).1 (by simp [heq])
    have hbnx : nx ≠ some b := by
      intro heq
      have hhead : L₂.head? = some b := by
        rw [← heq]
        exact (Option.some.inj (hnx.symm.trans hL₂.next_eq)).symm
      exact (nodup_cons.mp hnodup).1 (List.mem_append_right _
        (mem_cons_of_mem _ (mem_of_head? hhead)))
    exact ⟨by rw [hnext, if_neg hpa, if_neg hpq, hp], by rw [hprev, if_neg hba, if_neg hbnx, hb],
      ih hL hnodup⟩

end Segment

/-! ## Families of lists -/

/-- The lists behind the heads, apart from each other. -/
structure Family (h : Heap α) (I : Set ι) (heads : ι → ℕ) (lists : ι → List ℕ) : Prop where
  bounded : h.Bounded
  segment : ∀ w ∈ I, Segment h (heads w) (lists w)
  nodup : ∀ w ∈ I, (heads w :: lists w).Nodup
  disjoint : ∀ w ∈ I, ∀ w' ∈ I, w ≠ w' → ∀ a ∈ heads w :: lists w, a ∉ heads w' :: lists w'

theorem Family.next_head {h : Heap α} {I : Set ι} {heads : ι → ℕ} {lists : ι → List ℕ} {w : ι}
    (hF : Family h I heads lists) (hw : w ∈ I) : h.next (heads w) = some (lists w).head? :=
  (hF.segment w hw).next_eq

section Family

variable [DecidableEq ι] {h : Heap α} {I : Set ι} {heads : ι → ℕ} {lists : ι → List ℕ} {w : ι}
  {a : ℕ}

/-- Changing one list leaves the others alone. -/
theorem Family.update {h' : Heap α} {L : List ℕ} (hF : Family h I heads lists)
    (hbounded : h'.Bounded) (hsegment : Segment h' (heads w) L)
    (hnodup : (heads w :: L).Nodup)
    (hL : ∀ a ∈ L, a ∈ lists w ∨ ∀ w' ∈ I, a ∉ heads w' :: lists w') (hw : w ∈ I)
    (hsame : ∀ w' ∈ I, w' ≠ w → ∀ b ∈ heads w' :: lists w',
      h'.next b = h.next b ∧ h'.prev b = h.prev b) :
    Family h' I heads (Function.update lists w L) where
  bounded := hbounded
  segment w' hw' := by
    by_cases hne : w' = w
    · subst hne
      rwa [update_self]
    · rw [update_of_ne hne]
      exact (hF.segment w' hw').congr (fun b hb => (hsame w' hw' hne b hb).1)
        fun b hb => (hsame w' hw' hne b (mem_cons_of_mem _ hb)).2
  nodup w' hw' := by
    by_cases hne : w' = w
    · subst hne
      rwa [update_self]
    · rw [update_of_ne hne]
      exact hF.nodup w' hw'
  disjoint w₁ hw₁ w₂ hw₂ hne b hb := by
    have hL' : ∀ w' ∈ I, w' ≠ w → ∀ b ∈ heads w :: L, b ∉ heads w' :: lists w' := by
      intro w' hw' hne b hb
      rcases mem_cons.mp hb with rfl | hb
      · exact hF.disjoint w hw w' hw' (Ne.symm hne) _ mem_cons_self
      · rcases hL b hb with hb | hb
        · exact hF.disjoint w hw w' hw' (Ne.symm hne) b (mem_cons_of_mem _ hb)
        · exact hb w' hw'
    by_cases h₁ : w₁ = w
    · subst h₁
      rw [update_self] at hb
      rw [update_of_ne (Ne.symm hne)]
      exact hL' w₂ hw₂ (Ne.symm hne) b hb
    · rw [update_of_ne h₁] at hb
      by_cases h₂ : w₂ = w
      · subst h₂
        rw [update_self]
        exact fun hb' => hL' w₁ hw₁ h₁ b hb' hb
      · rw [update_of_ne h₂]
        exact hF.disjoint w₁ hw₁ w₂ hw₂ hne b hb

/-- A new cell comes first in a list. -/
theorem Family.insertAfter (hF : Family h I heads lists) (hw : w ∈ I) (v : α) :
    ∃ h', insertAfter h (heads w) v = some (h', h.fresh) ∧
      Family h' I heads (Function.update lists w (h.fresh :: lists w)) ∧
      ∀ b, h'.val b = if b = h.fresh then some v else h.val b := by
  have hseg := hF.segment w hw
  have hnodup := hF.nodup w hw
  have hfresh : ∀ w' ∈ I, h.fresh ∉ heads w' :: lists w' := fun w' hw' hmem =>
    (hF.segment w' hw').next_ne_none _ hmem hF.bounded.next_fresh
  have hhead : ∀ n, (lists w).head? = some n → n ∈ lists w := fun n hn => mem_of_head? hn
  obtain ⟨h', hrun, hfresh', hnext, hprev, hval⟩ := insertAfter_spec hF.bounded hseg.next_eq
    (fun n hn => ⟨hseg.next_ne_none n (mem_cons_of_mem _ (hhead n hn)),
      fun heq => (nodup_cons.mp hnodup).1 (heq ▸ hhead n hn)⟩) v
  refine ⟨h', hrun, hF.update (fun b hb => ?_) ?_ ?_ (fun b hb => ?_) hw ?_, hval⟩
  · rw [hfresh']
    rw [hnext] at hb
    split_ifs at hb with hbw hbf
    · have hlt := hF.bounded b (by rw [hbw, hseg.next_eq]; simp)
      omega
    · omega
    · have hlt := hF.bounded b hb
      omega
  · have hne : heads w ≠ h.fresh := fun heq => hfresh w hw (heq ▸ mem_cons_self)
    have hLne : ∀ b ∈ lists w, b ≠ h.fresh := fun b hb heq =>
      hfresh w hw (mem_cons_of_mem _ (heq ▸ hb))
    refine ⟨by rw [hnext, if_pos rfl], by rw [hprev, if_pos rfl], ?_⟩
    cases hL : lists w with
    | nil =>
      rw [hL] at hnext
      rw [Segment, hnext, if_neg (Ne.symm hne), if_pos rfl, List.head?_nil]
    | cons b L =>
      rw [hL] at hseg hnodup hnext hprev hLne
      obtain ⟨hwL, hnodupL⟩ := nodup_cons.mp hnodup
      refine ⟨by rw [hnext, if_neg (Ne.symm hne), if_pos rfl, head?_cons], ?_,
        hseg.2.2.congr (fun c hc => ?_) fun c hc => ?_⟩
      · rw [hprev, if_neg (hLne b mem_cons_self), if_pos head?_cons]
      · have hcw : c ≠ heads w := fun heq => hwL (heq ▸ hc)
        rw [hnext, if_neg hcw, if_neg (hLne c hc)]
      · have hcb : (b :: L).head? ≠ some c := fun heq => by
          obtain rfl : b = c := by simpa using heq
          exact (nodup_cons.mp hnodupL).1 hc
        rw [hprev, if_neg (hLne c (mem_cons_of_mem b hc)), if_neg hcb]
  · have hw' := hfresh w hw
    rw [mem_cons, not_or] at hw'
    obtain ⟨hwL, hL⟩ := nodup_cons.mp hnodup
    refine nodup_cons.mpr ⟨?_, nodup_cons.mpr ⟨hw'.2, hL⟩⟩
    rw [mem_cons, not_or]
    exact ⟨Ne.symm hw'.1, hwL⟩
  · rcases mem_cons.mp hb with rfl | hb
    · exact Or.inr hfresh
    · exact Or.inl hb
  · intro w' hw' hne b hb
    have hbw : b ∉ heads w :: lists w := hF.disjoint w' hw' w hw hne b hb
    have hbf : b ≠ h.fresh := fun heq => hfresh w' hw' (heq ▸ hb)
    have hbn : (lists w).head? ≠ some b := fun heq => hbw (mem_cons_of_mem _ (hhead b heq))
    have hbh : b ≠ heads w := fun heq => hbw (heq ▸ mem_cons_self)
    exact ⟨by rw [hnext, if_neg hbh, if_neg hbf], by rw [hprev, if_neg hbf, if_neg hbn]⟩

/-- A cell leaves its list. -/
theorem Family.remove (hF : Family h I heads lists) (hw : w ∈ I) (ha : a ∈ lists w) :
    ∃ h', remove h a = some h' ∧
      Family h' I heads (Function.update lists w ((lists w).erase a)) ∧
      ∀ b, h'.val b = if b = a then none else h.val b := by
  have hseg := hF.segment w hw
  have hnodup := hF.nodup w hw
  obtain ⟨L₁, L₂, hL⟩ := List.append_of_mem ha
  rw [hL] at hseg hnodup
  have haL₁ : a ∉ L₁ := by
    have h' := (List.nodup_append.mp (nodup_cons.mp hnodup).2).2.2
    exact fun hmem => h' a hmem a mem_cons_self rfl
  have herase : (lists w).erase a = L₁ ++ L₂ := by
    rw [hL, List.erase_append_right _ haL₁, List.erase_cons_head]
  obtain ⟨q, hq, hprevq, hnextq, hseg₂⟩ := hseg.exists_prev
  have hqw : q ∈ heads w :: lists w := by
    rw [hL]
    rcases mem_cons.mp hq with rfl | hq
    · exact mem_cons_self
    · exact mem_cons_of_mem _ (List.mem_append_left _ hq)
  have hnx : ∀ n, L₂.head? = some n → n ∈ lists w := fun n hn => by
    rw [hL]
    exact List.mem_append_right _ (mem_cons_of_mem _ (mem_of_head? hn))
  obtain ⟨h', hrun, hfresh', hnext, hprev, hval⟩ := remove_spec hprevq hseg₂.next_eq
    (by rw [hnextq]; simp) fun n hn =>
      ⟨(hF.segment w hw).next_ne_none n (mem_cons_of_mem _ (hnx n hn)), fun heq => by
        have h' := (nodup_cons.mp (List.nodup_append.mp (nodup_cons.mp hnodup).2).2.1).1
        exact h' (heq ▸ mem_of_head? hn)⟩
  refine ⟨h', hrun, ?_, hval⟩
  rw [herase]
  refine hF.update (fun b hb => ?_) (hseg.of_remove hnodup hprevq hseg₂.next_eq hnext hprev) ?_
    (fun b hb => Or.inl ?_) hw fun w' hw' hne b hb => ?_
  · rw [hfresh']
    rw [hnext] at hb
    split_ifs at hb with hba hbq
    · exact absurd rfl hb
    · exact hF.bounded b (by rw [hbq, hnextq]; simp)
    · exact hF.bounded b hb
  · refine hnodup.sublist (Sublist.cons_cons _ ?_)
    exact Sublist.append_left (List.sublist_cons_self a L₂) L₁
  · rw [hL]
    rcases List.mem_append.mp hb with hb | hb
    · exact List.mem_append_left _ hb
    · exact List.mem_append_right _ (mem_cons_of_mem _ hb)
  · have hbw : b ∉ heads w :: lists w := hF.disjoint w' hw' w hw hne b hb
    have hba : b ≠ a := fun heq => hbw (mem_cons_of_mem _ (heq ▸ ha))
    have hbq : b ≠ q := fun heq => hbw (heq ▸ hqw)
    have hbn : L₂.head? ≠ some b := fun heq => hbw (mem_cons_of_mem _ (hnx b heq))
    exact ⟨by rw [hnext, if_neg hba, if_neg hbq], by rw [hprev, if_neg hba, if_neg hbn]⟩

/-- Pointers to the next cells only. -/
def NextChain (h : Heap α) : ℕ → List ℕ → Prop
  | p, [] => h.next p = some none
  | p, a :: L => h.next p = some (some a) ∧ NextChain h a L

omit [DecidableEq ι] in
theorem NextChain.congr {h' : Heap α} {p : ℕ} {L : List ℕ} (hL : NextChain h p L)
    (hnext : ∀ b ∈ p :: L, h'.next b = h.next b) : NextChain h' p L := by
  induction L generalizing p with
  | nil => exact (hnext p mem_cons_self).trans hL
  | cons a L ih =>
    exact ⟨(hnext p mem_cons_self).trans hL.1, ih hL.2 fun b hb => hnext b (mem_cons_of_mem p hb)⟩

/-- While the list `all` behind `p` is emptied from the front, `L` is left. -/
structure Emptying (h h' : Heap α) (p : ℕ) (all L : List ℕ) : Prop where
  fresh_eq : h'.fresh = h.fresh
  chain : NextChain h' p L
  val_head : h'.val p = h.val p
  val_eq : ∀ b ∈ L, h'.val b = h.val b
  gone : ∀ b ∈ all, b ∉ L → h'.val b = none
  same : ∀ b ∉ p :: all, h'.next b = h.next b ∧ h'.prev b = h.prev b ∧ h'.val b = h.val b

theorem Segment.nextChain {h : Heap α} {p : ℕ} {L : List ℕ} (hL : Segment h p L) :
    NextChain h p L := by
  induction L generalizing p with
  | nil => exact hL
  | cons a L ih => exact ⟨hL.1, ih hL.2.2⟩

theorem Emptying.start {h : Heap α} {p : ℕ} {L : List ℕ} (hL : Segment h p L) :
    Emptying h h p L L :=
  ⟨rfl, hL.nextChain, rfl, fun _ _ => rfl, fun _ hb hb' => absurd hb hb',
    fun _ _ => ⟨rfl, rfl, rfl⟩⟩

/-- One cell is skipped. -/
theorem Emptying.removeNext {h h' : Heap α} {p a : ℕ} {all L : List ℕ} {v : α}
    (hE : Emptying h h' p all (a :: L)) (hnodup : (p :: a :: L).Nodup) (ha : a ∈ all)
    (hv : h.val a = some v) :
    ∃ h'', removeNext h' p = some (v, h'') ∧ Emptying h h'' p all L := by
  obtain ⟨hp, hchain⟩ := hE.chain
  obtain ⟨hpL, hnodup⟩ := nodup_cons.mp hnodup
  have haL := (nodup_cons.mp hnodup).1
  have hpa : p ≠ a := fun heq => hpL (heq ▸ mem_cons_self)
  have hnx : ∃ nx, h'.next a = some nx ∧ (h'.next a = some nx → ∀ h'' : Heap α,
      h''.next p = some nx → (∀ b ∈ L, h''.next b = h'.next b) → NextChain h'' p L) := by
    cases L with
    | nil => exact ⟨none, hchain, fun _ h'' hp'' _ => hp''⟩
    | cons b L =>
      exact ⟨some b, hchain.1, fun _ h'' hp'' hsame => ⟨hp'', hchain.2.congr hsame⟩⟩
  obtain ⟨nx, hnx, hchain'⟩ := hnx
  obtain ⟨h'', hrun, hfresh, hnext, hprev, hval⟩ := removeNext_spec hp hnx hpa
    ((hE.val_eq a mem_cons_self).trans hv)
  refine ⟨h'', hrun, hfresh.trans hE.fresh_eq, hchain' hnx h'' ?_ fun b hb => ?_, ?_,
    fun b hb => ?_, fun b hb hbL => ?_, fun b hb => ?_⟩
  · rw [hnext, if_neg hpa, if_pos rfl]
  · have hba : b ≠ a := fun heq => haL (heq ▸ hb)
    have hbp : b ≠ p := fun heq => hpL (mem_cons_of_mem a (heq ▸ hb))
    rw [hnext, if_neg hba, if_neg hbp]
  · rw [hval, if_neg hpa, hE.val_head]
  · have hba : b ≠ a := fun heq => haL (heq ▸ hb)
    rw [hval, if_neg hba, hE.val_eq b (mem_cons_of_mem a hb)]
  · rw [hval]
    split_ifs with hba
    · rfl
    · exact hE.gone b hb fun hmem => (mem_cons.mp hmem).elim hba hbL
  · rw [mem_cons, not_or] at hb
    have hba : b ≠ a := fun heq => hb.2 (heq ▸ ha)
    obtain ⟨hsame₁, hsame₂, hsame₃⟩ := hE.same b (by simp [hb])
    exact ⟨by rw [hnext, if_neg hba, if_neg hb.1, hsame₁], by rw [hprev b hba, hsame₂],
      by rw [hval, if_neg hba, hsame₃]⟩

theorem Emptying.finish {h' : Heap α} (hF : Family h I heads lists) (hw : w ∈ I)
    (hE : Emptying h h' (heads w) (lists w) []) :
    Family h' I heads (Function.update lists w []) := by
  refine hF.update (fun b hb => ?_) hE.chain (by simp) (by simp) hw
    fun w' hw' hne b hb => ?_
  · rw [hE.fresh_eq]
    by_cases hbw : b ∈ heads w :: lists w
    · exact hF.bounded b ((hF.segment w hw).next_ne_none b hbw)
    · rw [(hE.same b hbw).1] at hb
      exact hF.bounded b hb
  · obtain ⟨hnext, hprev, -⟩ := hE.same b (hF.disjoint w' hw' w hw hne b hb)
    exact ⟨hnext, hprev⟩

end Family

end CadoNfs.DoublyLinked
