import CadoNfs.Lib.FallibleRun
import Mathlib.Algebra.BigOperators.Intervals

/-!
# Product trees

The product of a sequence is accumulated in a table whose entries are the digits of a
counter: entry `i` has the product of a block of `b ^ i` elements for each unit of
digit `i`, and a carry multiplies an entry into the next one.  The table gets a new
entry when a carry reaches it.

Main results:

- Theorem `Entries.Lawful.accumulate`: the entries are the products of the parts of what has
  been accumulated.
- Theorem `Entries.Lawful.accumulateAll`: so they are after a whole sequence.
- Theorem `Table.Holds.prod_eq`: the product of the entries is that of all parts.
- Theorem `Entries.Lawful.accumulateEnd`: at the end the product is in the first entry.
-/

namespace CadoNfs.ProductTree

open Finset Function

universe u v

/-! ## Tables -/

/-- The operations on the entries of a table, and the base and the successor of the counter, which
may be a word.  A multiplication stores the product in the first operand, and may change the second
one. -/
structure Entries (ε : Type u) (α : Type v) where
  base : ℕ
  one_lt : 1 < base
  next : ℕ → ℕ
  one : α
  reset : α → Except ε α
  mul : α → α → Except ε (α × α)
  outOfBounds : ε
  endless : ε

/-- A table that has `size` entries. -/
structure Table (α : Type v) where
  size : ℕ
  entry : ℕ → α

variable {ε : Type u} {α : Type v} {E : Entries ε α}

/-- An entry is written. -/
def Entries.set (E : Entries ε α) (t : Table α) (i : ℕ) (x : α) : Except ε (Table α) :=
  if i < t.size then .ok { t with entry := update t.entry i x } else .error E.outOfBounds

/-- An entry is read. -/
def Entries.get (E : Entries ε α) (t : Table α) (i : ℕ) : Except ε α :=
  if i < t.size then .ok (t.entry i) else .error E.outOfBounds

/-- Entry `i` is multiplied by entry `j`. -/
def Entries.mulEntry (E : Entries ε α) (t : Table α) (i j : ℕ) : Except ε (Table α) := do
  let x ← E.get t i
  let y ← E.get t j
  let z ← E.mul x y
  let t ← E.set t i z.1
  E.set t j z.2

/-- Entry `i` is made one. -/
def Entries.resetEntry (E : Entries ε α) (t : Table α) (i : ℕ) : Except ε (Table α) := do
  let x ← E.get t i
  let x ← E.reset x
  E.set t i x

/-- A new entry, if the table has no entry `i + 1`. -/
def Entries.grow (E : Entries ε α) (t : Table α) (i : ℕ) : Except ε (Table α) :=
  if i + 2 > t.size then E.set { t with size := t.size + 1 } (i + 1) E.one else .ok t

/-- The carries from entry `i` on, while the base divides what is left of the counter.  They
have no end if the counter is zero. -/
def Entries.carry (E : Entries ε α) (i n : ℕ) (t : Table α) : Except ε (Table α) :=
  if n = 0 then .error E.endless
  else if n % E.base = 0 then do
    let t ← E.grow t i
    let t ← E.mulEntry t (i + 1) i
    let t ← E.resetEntry t i
    E.carry (i + 1) (n / E.base) t
  else .ok t
termination_by n
decreasing_by exact Nat.div_lt_self (Nat.pos_of_ne_zero ‹n ≠ 0›) E.one_lt

/-- One more element after `n` others. -/
def Entries.accumulate (E : Entries ε α) (t : Table α) (a : α) (n : ℕ) :
    Except ε (Table α) := do
  let x ← E.get t 0
  let z ← E.mul x a
  let t ← E.set t 0 z.1
  E.carry 0 (E.next n) t

/-- The elements of a list, after `n` others. -/
def accumulateAll (accumulate : Table α → α → ℕ → Except ε (Table α)) (next : ℕ → ℕ)
    (t : Table α) : List α → ℕ → Except ε (Table α)
  | [], _ => .ok t
  | a :: as, n => do
    let t ← accumulate t a n
    accumulateAll accumulate next t as (next n)

/-- The other entries are multiplied into the first one. -/
def Entries.accumulateEnd (E : Entries ε α) (t : Table α) : Except ε (Table α) :=
  (List.range (t.size - 1)).foldlM (fun t i => E.mulEntry t 0 (i + 1)) t

/-- The table at the beginning. -/
def Entries.start (E : Entries ε α) : Table α :=
  ⟨1, fun _ => E.one⟩

/-! ## Laws -/

/-- What the operations do to elements that stand for the product of a part, parts being added.  A
multiplication may spoil the second operand, which can still be made one.  A part that makes it stop
does so with more elements as well. -/
structure Entries.Lawful {M : Type*} [AddCommMonoid M] (E : Entries ε α)
    (Rep Input : α → M → Prop) (Spent : α → Prop) (Bad : ε → M → Prop) : Prop where
  one : Rep E.one 0
  input : ∀ x s, Rep x s → Input x s
  reset : ∀ x, Spent x → ∃ y, E.reset x = .ok y ∧ Rep y 0
  mul : ∀ x y s u, Rep x s → Input y u →
    Ends (fun z => Rep z.1 (s + u) ∧ (Rep y u → Spent z.2)) (Bad · (s + u)) (E.mul x y)
  bad_add : ∀ e s u, Bad e s → Bad e (s + u)

/-- A table with a first entry, whose entries stand for the parts of `s`. -/
structure Table.Holds {M : Type*} [AddCommMonoid M] (Rep : α → M → Prop) (s : M)
    (t : Table α) : Prop where
  pos : 0 < t.size
  exists_parts : ∃ part : ℕ → M, (∀ k < t.size, Rep (t.entry k) (part k)) ∧
    ∑ k ∈ range t.size, part k = s

section Sums

variable {M : Type*} [AddCommMonoid M] {n i j : ℕ} (part : ℕ → M)

theorem sum_eq_add_add (hi : i < n) (hj : j < n) (hne : j ≠ i) :
    ∑ k ∈ range n, part k = part j + part i + ∑ k ∈ (range n \ {i}) \ {j}, part k := by
  have hmem : j ∈ range n \ {i} :=
    mem_sdiff.mpr ⟨mem_range.mpr hj, fun h => hne (mem_singleton.mp h)⟩
  rw [sum_eq_add_sum_sdiff_singleton_of_mem (mem_range.mpr hi),
    sum_eq_add_sum_sdiff_singleton_of_mem hmem, ← add_assoc, add_comm (part i)]

theorem sum_move (hi : i < n) (hj : j < n) (hne : j ≠ i) :
    ∑ k ∈ range n, update (update part j (part j + part i)) i 0 k = ∑ k ∈ range n, part k := by
  have hmem : j ∈ range n \ {i} :=
    mem_sdiff.mpr ⟨mem_range.mpr hj, fun h => hne (mem_singleton.mp h)⟩
  rw [sum_update_of_mem (mem_range.mpr hi), sum_update_of_mem hmem, zero_add,
    sum_eq_add_add part hi hj hne]

theorem sum_increase (hi : i < n) (u : M) :
    ∑ k ∈ range n, update part i (part i + u) k = (∑ k ∈ range n, part k) + u := by
  rw [sum_update_of_mem (mem_range.mpr hi),
    sum_eq_add_sum_sdiff_singleton_of_mem (mem_range.mpr hi) part, add_right_comm]

end Sums

/-- The product of the entries, for a product that is multiplicative in the parts. -/
theorem Table.Holds.prod_eq {M R : Type*} [AddCommMonoid M] [CommMonoid R] {Rep : α → M → Prop}
    {s : M} {t : Table α} (ht : t.Holds Rep s) (val : α → R) (prod : M → R)
    (hval : ∀ x s, Rep x s → val x = prod s) (hzero : prod 0 = 1)
    (hadd : ∀ s u, prod (s + u) = prod s * prod u) :
    ∏ k ∈ range t.size, val (t.entry k) = prod s := by
  obtain ⟨part, hpart, rfl⟩ := ht.exists_parts
  have hsum : ∀ n, prod (∑ k ∈ range n, part k) = ∏ k ∈ range n, prod (part k) := fun n => by
    induction n with
    | zero => exact hzero
    | succ n ih => rw [sum_range_succ, prod_range_succ, hadd, ih]
  rw [hsum]
  exact prod_congr rfl fun k hk => hval _ _ (hpart k (mem_range.mp hk))

section Spec

variable {M : Type*} [AddCommMonoid M] {Rep Input : α → M → Prop} {Spent : α → Prop}
  {Bad : ε → M → Prop} {s u : M} {t : Table α} {i n : ℕ} {a : α}

theorem Entries.set_of_lt (E : Entries ε α) (hi : i < t.size) (x : α) :
    E.set t i x = .ok { t with entry := update t.entry i x } :=
  if_pos hi

theorem Entries.get_of_lt (E : Entries ε α) (hi : i < t.size) : E.get t i = .ok (t.entry i) :=
  if_pos hi

theorem Entries.Lawful.start (hE : E.Lawful Rep Input Spent Bad) : E.start.Holds Rep 0 where
  pos := Nat.one_pos
  exists_parts := ⟨fun _ => 0, fun _ _ => hE.one, sum_const_zero⟩

theorem Entries.Lawful.grow (hE : E.Lawful Rep Input Spent Bad) (ht : t.Holds Rep s)
    (hi : i < t.size) :
    ∃ t', E.grow t i = .ok t' ∧ t'.Holds Rep s ∧ i + 1 < t'.size := by
  unfold Entries.grow
  split_ifs with hgrow
  · obtain ⟨part, hpart, hsum⟩ := ht.exists_parts
    have hrun : E.set { t with size := t.size + 1 } (i + 1) E.one
        = .ok ⟨t.size + 1, update t.entry (i + 1) E.one⟩ :=
      if_pos (show i + 1 < t.size + 1 by omega)
    refine ⟨_, hrun, ⟨t.size.succ_pos, update part (i + 1) 0, fun k hk => ?_, ?_⟩,
      show i + 1 < t.size + 1 by omega⟩
    · change Rep (update t.entry (i + 1) E.one k) _
      by_cases hki : k = i + 1
      · rw [hki, update_self, update_self]
        exact hE.one
      · rw [update_of_ne hki, update_of_ne hki]
        exact hpart k (by change k < t.size + 1 at hk; omega)
    · change ∑ k ∈ range (t.size + 1), update part (i + 1) 0 k = s
      have hlast : update part (i + 1) 0 t.size = 0 := by
        rw [show t.size = i + 1 by omega, update_self]
      rw [sum_range_succ, hlast, add_zero, ← hsum]
      refine sum_congr rfl fun k hk => update_of_ne ?_ _ _
      have := mem_range.mp hk
      omega
  · exact ⟨t, rfl, ht, by omega⟩

theorem Entries.mulEntry_of_mul {j : ℕ} (hi : i < t.size) (hj : j < t.size) {z : α × α}
    (hmul : E.mul (t.entry i) (t.entry j) = .ok z) :
    E.mulEntry t i j = .ok ⟨t.size, update (update t.entry i z.1) j z.2⟩ := by
  rw [Entries.mulEntry, E.get_of_lt hi, E.get_of_lt hj]
  change (E.mul (t.entry i) (t.entry j) >>= fun z => E.set t i z.1 >>= fun t => E.set t j z.2) = _
  rw [hmul]
  change (E.set t i z.1 >>= fun t => E.set t j z.2) = _
  rw [E.set_of_lt hi]
  exact E.set_of_lt (t := ⟨t.size, update t.entry i z.1⟩) hj z.2

theorem Entries.mulEntry_of_error {j : ℕ} (hi : i < t.size) (hj : j < t.size) {e : ε}
    (hmul : E.mul (t.entry i) (t.entry j) = .error e) : E.mulEntry t i j = .error e := by
  rw [Entries.mulEntry, E.get_of_lt hi, E.get_of_lt hj]
  change (E.mul (t.entry i) (t.entry j) >>= fun z => E.set t i z.1 >>= fun t => E.set t j z.2) = _
  rw [hmul]
  rfl

theorem Entries.resetEntry_of_reset (hi : i < t.size) {y : α}
    (hreset : E.reset (t.entry i) = .ok y) :
    E.resetEntry t i = .ok ⟨t.size, update t.entry i y⟩ := by
  rw [Entries.resetEntry, E.get_of_lt hi]
  change (E.reset (t.entry i) >>= fun x => E.set t i x) = _
  rw [hreset]
  exact E.set_of_lt hi y

/-- A carry multiplies one entry and resets the other. -/
theorem Entries.Lawful.mul_reset (hE : E.Lawful Rep Input Spent Bad) (ht : t.Holds Rep s) {j : ℕ}
    (hi : i < t.size) (hj : j < t.size) (hne : j ≠ i) :
    Ends (fun t' => t'.Holds Rep s ∧ t'.size = t.size) (Bad · s)
      (do
        let t ← E.mulEntry t j i
        E.resetEntry t i) := by
  obtain ⟨part, hpart, hsum⟩ := ht.exists_parts
  have hmul := hE.mul _ _ _ _ (hpart j hj) (hE.input _ _ (hpart i hi))
  cases hrun : E.mul (t.entry j) (t.entry i) with
  | error e =>
    rw [hrun] at hmul
    rw [E.mulEntry_of_error hj hi hrun]
    cases hmul with
    | error he =>
      rw [← hsum, sum_eq_add_add part hi hj hne]
      exact .error (hE.bad_add e _ _ he)
  | ok z =>
    rw [hrun] at hmul
    cases hmul with
    | ok hz =>
      obtain ⟨hx, hspent⟩ := hz
      obtain ⟨y, hreset, hy⟩ := hE.reset z.2 (hspent (hpart i hi))
      rw [E.mulEntry_of_mul hj hi hrun]
      have hrest : E.resetEntry ⟨t.size, update (update t.entry j z.1) i z.2⟩ i
          = .ok ⟨t.size, update (update t.entry j z.1) i y⟩ := by
        have hself : E.reset (update (update t.entry j z.1) i z.2 i) = .ok y := by
          rw [update_self, hreset]
        rw [Entries.resetEntry_of_reset (t := ⟨t.size, update (update t.entry j z.1) i z.2⟩) hi
          hself, update_idem]
      refine (congrArg (Ends _ _) hrest).mpr (.ok ⟨⟨ht.pos, ?_⟩, rfl⟩)
      refine ⟨update (update part j (part j + part i)) i 0, fun k hk => ?_, ?_⟩
      · change Rep (update (update t.entry j z.1) i y k) _
        by_cases hki : k = i
        · rwa [hki, update_self, update_self]
        rw [update_of_ne hki, update_of_ne hki]
        by_cases hkj : k = j
        · rwa [hkj, update_self, update_self]
        rw [update_of_ne hkj, update_of_ne hkj]
        exact hpart k hk
      · rw [← hsum]
        exact sum_move part hi hj hne

theorem Entries.Lawful.carry (hE : E.Lawful Rep Input Spent Bad) {n : ℕ} (hn : 0 < n)
    (ht : t.Holds Rep s) (hi : i < t.size) :
    Ends (fun t' => t'.Holds Rep s) (Bad · s) (E.carry i n t) := by
  induction n using Nat.strong_induction_on generalizing i t with
  | h n ih =>
    rw [Entries.carry, if_neg hn.ne']
    by_cases hdvd : n % E.base = 0
    · rw [if_pos hdvd]
      have hle : E.base ≤ n := Nat.le_of_dvd hn (Nat.dvd_of_mod_eq_zero hdvd)
      have hpos : 0 < n / E.base := Nat.div_pos hle (Nat.zero_lt_of_lt E.one_lt)
      obtain ⟨t₁, hgrow, ht₁, hi₁⟩ := hE.grow ht hi
      rw [hgrow]
      change Ends _ _ (E.mulEntry t₁ (i + 1) i >>= fun t => E.resetEntry t i >>= fun t =>
        E.carry (i + 1) (n / E.base) t)
      rw [← bind_assoc]
      refine (hE.mul_reset ht₁ (by omega) hi₁ (by omega)).bind fun t₂ ht₂ => ?_
      exact ih _ (Nat.div_lt_self hn E.one_lt) hpos ht₂.1 (by omega)
    · rw [if_neg hdvd]
      exact .ok ht

/-- One more element. -/
theorem Entries.Lawful.accumulate (hE : E.Lawful Rep Input Spent Bad) (ht : t.Holds Rep s)
    (ha : Input a u) (hn : 0 < E.next n) :
    Ends (fun t' => t'.Holds Rep (s + u)) (Bad · (s + u)) (E.accumulate t a n) := by
  have hpos := ht.pos
  obtain ⟨part, hpart, hsum⟩ := ht.exists_parts
  have hnew := sum_increase part hpos u
  rw [hsum] at hnew
  rw [Entries.accumulate, E.get_of_lt hpos]
  refine ((hE.mul _ _ _ _ (hpart 0 hpos) ha).mono (fun _ h => h) fun e he => ?_).bind ?_
  · rw [← hsum, sum_eq_add_sum_sdiff_singleton_of_mem (mem_range.mpr hpos) part, add_right_comm]
    exact hE.bad_add e _ _ he
  rintro ⟨x, y⟩ ⟨hx, -⟩
  rw [E.set_of_lt hpos]
  refine hE.carry (t := ⟨t.size, update t.entry 0 x⟩) hn ⟨hpos, ?_⟩ hpos
  refine ⟨update part 0 (part 0 + u), fun k hk => ?_, hnew⟩
  change Rep (update t.entry 0 x k) _
  by_cases hk0 : k = 0
  · rwa [hk0, update_self, update_self]
  · rw [update_of_ne hk0, update_of_ne hk0]
    exact hpart k hk

theorem next_of_cons {next : ℕ → ℕ} {a : α} {as : List α}
    (hnext : ∀ k < (a :: as).length, next (n + k) = n + k + 1) :
    next n = n + 1 ∧ ∀ k < as.length, next (n + 1 + k) = n + 1 + k + 1 := by
  refine ⟨hnext 0 (Nat.succ_pos _), fun k hk => ?_⟩
  have := hnext (k + 1) (by rw [List.length_cons]; omega)
  rwa [← add_assoc, add_right_comm] at this

/-- A sequence of elements. -/
theorem Entries.Lawful.accumulateAll (hE : E.Lawful Rep Input Spent Bad) (part : α → M)
    {as : List α} (has : ∀ a ∈ as, Input a (part a)) (ht : t.Holds Rep s)
    (hnext : ∀ k < as.length, E.next (n + k) = n + k + 1) :
    Ends (fun t' => t'.Holds Rep (s + (as.map part).sum)) (Bad · (s + (as.map part).sum))
      (accumulateAll E.accumulate E.next t as n) := by
  induction as generalizing t s n with
  | nil =>
    rw [ProductTree.accumulateAll, List.map_nil, List.sum_nil, add_zero]
    exact .ok ht
  | cons a as ih =>
    obtain ⟨ha, has⟩ := List.forall_mem_cons.mp has
    obtain ⟨hfirst, hrest⟩ := next_of_cons hnext
    rw [List.map_cons, List.sum_cons, ← add_assoc]
    refine ((hE.accumulate ht ha (by omega)).mono (fun _ h => h) fun e he =>
      hE.bad_add e _ _ he).bind fun t' ht' => ?_
    rw [hfirst]
    exact ih has ht' hrest

theorem accumulateAll_concat (E : Entries ε α) (as : List α) (a : α)
    (hnext : ∀ k < as.length, E.next (n + k) = n + k + 1) :
    accumulateAll E.accumulate E.next t (as ++ [a]) n
      = accumulateAll E.accumulate E.next t as n >>=
        fun t => E.accumulate t a (n + as.length) := by
  induction as generalizing t n with
  | nil =>
    rw [List.nil_append, accumulateAll]
    exact bind_pure _
  | cons b as ih =>
    obtain ⟨hfirst, hrest⟩ := next_of_cons hnext
    rw [List.cons_append, accumulateAll, accumulateAll, hfirst, bind_assoc]
    refine congrArg _ (funext fun t' => ?_)
    rw [ih hrest, List.length_cons, add_right_comm, add_assoc n]

/-- At the end the product is in the first entry. -/
theorem Entries.Lawful.accumulateEnd (hE : E.Lawful Rep Input Spent Bad) (ht : t.Holds Rep s) :
    Ends (fun t' => t'.size = t.size ∧ Rep (t'.entry 0) s) (Bad · s) (E.accumulateEnd t) := by
  have hpos := ht.pos
  obtain ⟨part, hpart, hsum⟩ := ht.exists_parts
  refine (Ends.foldlM_range (motive := fun i (t' : Table α) =>
    t'.size = t.size ∧ Rep (t'.entry 0) (∑ k ∈ range (i + 1), part k) ∧
    ∀ k, i < k → t'.entry k = t.entry k) ⟨rfl, ?_, fun _ _ => rfl⟩ ?_).mono ?_ fun _ h => h
  · rw [sum_range_one]
    exact hpart 0 hpos
  · rintro i hlt t' ⟨hsize, hrep, hrest⟩
    have hentry := hrest (i + 1) (by omega)
    have hmul := hE.mul _ _ _ _ hrep (hE.input _ _ (hpart (i + 1) (by omega)))
    rw [← hentry, ← sum_range_succ] at hmul
    cases hrun : E.mul (t'.entry 0) (t'.entry (i + 1)) with
    | error e =>
      rw [hrun] at hmul
      rw [E.mulEntry_of_error (by omega) (by omega) hrun]
      cases hmul with
      | error he =>
        rw [← hsum, ← sum_range_add_sum_Ico part (show i + 1 + 1 ≤ t.size by omega)]
        exact .error (hE.bad_add e _ _ he)
    | ok z =>
      rw [hrun] at hmul
      rw [E.mulEntry_of_mul (by omega) (by omega) hrun]
      cases hmul with
      | ok hz =>
        refine .ok ⟨hsize, ?_, fun k hk => ?_⟩
        · change Rep (update (update t'.entry 0 z.1) (i + 1) z.2 0) _
          rw [update_of_ne (by omega), update_self]
          exact hz.1
        · change update (update t'.entry 0 z.1) (i + 1) z.2 k = _
          rw [update_of_ne (by omega), update_of_ne (by omega)]
          exact hrest k (by omega)
  · rintro t' ⟨hsize, hrep, -⟩
    rw [Nat.sub_add_cancel hpos, hsum] at hrep
    exact ⟨hsize, hrep⟩

end Spec

end CadoNfs.ProductTree
