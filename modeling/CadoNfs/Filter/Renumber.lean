import Mathlib.Data.Int.ConditionallyCompleteOrder
import Mathlib.Order.Interval.Finset.Nat
import Mathlib.Tactic.NormNum
import CadoNfs.Lib.FoldLoop
import CadoNfs.Macros
import CadoNfs.Utils.Hashpair

/-!
# The columns of the purged file

When the relations to keep are known, `purge` replaces the counters of the hash table
by column numbers.  The lookups that follow must find every ideal that is left, although
counters in the middle of a path may have dropped to zero.

Main results:

- Theorem `renumber_spec`: the numbers that the slots get.
- Theorem `Counted.bijOn`: the numbers are those of the ideals that are left.
- Theorem `renumber_correct`: an ideal that is left is found where it was inserted,
  and the columns are one to one with these ideals.
-/

namespace CadoNfs.Purge

open FoldLoop LinearProbing

/-! ## Counting down -/

variable (H : Hashtable)

/-- One occurrence less, as in `delete_relation`. -/
def decrement (h : ℕ) : Hashtable :=
  H.setCount h (H.hashcount h - 1)

/-- Counters go down one after the other. -/
def decrements (hs : List ℕ) : Hashtable :=
  hs.foldl decrement H

/-! ## Renumbering -/

/-- The table, the next number and the lines of the `sos` file. -/
structure RenumberState where
  H : Hashtable
  nb : ℤ
  sos : List (ℤ × ℤ × ℕ)

/-- `renumber` at slot `i`. -/
def renumberStep (state : RenumberState) (i : ℕ) : RenumberState :=
  if state.H.hashcount i = 0 then
    { state with H := state.H.setCount i (-1) }
  else
    { H := state.H.setCount i state.nb, nb := (state.nb + 1).bmod (2 ^ 32),
      sos := state.sos ++ [(state.nb - 1, state.H.hashtabP i, state.H.hashtabR i)] }

/-- `renumber`: the new table, the number of primes and the `sos` file. -/
def renumber : Hashtable × ℤ × List (ℤ × ℤ × ℕ) :=
  let state := (List.range H.hashmod).foldl renumberStep ⟨H, 1, []⟩
  (state.H, (state.nb - 1).bmod (2 ^ 32), state.sos)

/-! ## The printed columns -/

/-- `fprint_rat`. -/
def fprintRat (minus2 : ℕ) (rp : List ℤ) : Option (List ℤ) :=
  rp.mapM fun p => (getHashAddr H p minus2).map H.hashcount

/-- `fprint_alg`. -/
def fprintAlg (ap : List (ℤ × ℕ)) : Option (List ℤ) :=
  ap.mapM fun x => (getHashAddr H x.1 x.2).map H.hashcount

/-- `fprint_free`: the roots of a free relation are where the primes of another one are. -/
def fprintFree (minus2 : ℕ) (p : ℤ) (ap : List (ℤ × ℕ)) : Option (List ℤ) :=
  ((p, minus2) :: ap.map fun x => (p, (x.1 % 2 ^ 64).toNat)).mapM fun x => do
    let index ← getHashAddr H x.1 x.2
    assertAlways (0 ≤ H.hashcount index)
    return H.hashcount index

/-- The columns that `fprint_rel_row` prints. -/
def fprintRelRow (minus2 : ℕ) (a : ℤ) (b : ℕ) (rp : List ℤ) (ap : List (ℤ × ℕ)) :
    Option (List ℤ) := do
  let tableInd ←
    if b = 0 then fprintFree H minus2 a ap
    else do
      let rat ← fprintRat H minus2 rp
      let alg ← fprintAlg H ap
      some (rat ++ alg)
  some (tableInd.map fun index => index - 1)

/-- The ideals of a relation, which is free for `b = 0`. -/
def rowIdeals (minus2 : ℕ) (a : ℤ) (b : ℕ) (rp : List ℤ) (ap : List (ℤ × ℕ)) : List (ℤ × ℕ) :=
  if b = 0 then (a, minus2) :: ap.map fun x => (a, (x.1 % 2 ^ 64).toNat)
  else rp.map (fun p => (p, minus2)) ++ ap

/-! ## What the functions change -/

/-- Every use of a hash lowers its count by one. -/
theorem decrements_spec {H : Hashtable} (hcount : ∀ h, H.hashcount h < 2 ^ 31) {hs : List ℕ}
    (hle : ∀ h, (hs.count h : ℤ) ≤ H.hashcount h) :
    (decrements H hs).need64 = H.need64 ∧ (decrements H hs).hashmod = H.hashmod ∧
      (decrements H hs).start = H.start ∧ (decrements H hs).key = H.key ∧
      ∀ h, (decrements H hs).hashcount h = H.hashcount h - hs.count h := by
  induction hs generalizing H with
  | nil => exact ⟨rfl, rfl, rfl, rfl, fun h => by simp [decrements]⟩
  | cons a hs ih =>
    have hpos := hle a
    have hlt := hcount a
    rw [List.count_cons_self] at hpos
    have hval : (H.hashcount a - 1).bmod (2 ^ 32) = H.hashcount a - 1 := by
      rw [Int.bmod_eq_of_le] <;> omega
    have hstep : ∀ h, (decrement H a).hashcount h
        = H.hashcount h - if h = a then 1 else 0 := by
      intro h
      by_cases heq : h = a
      · rw [heq, if_pos rfl]
        simp only [decrement, Hashtable.setCount, Function.update_self, hval]
      · rw [if_neg heq]
        simp [decrement, Hashtable.setCount, heq]
    have hcons : ∀ h, ((a :: hs).count h : ℤ) = hs.count h + if h = a then 1 else 0 := by
      intro h
      simp [List.count_cons, @eq_comm _ a]
    obtain ⟨hneed, hmod, hstart, hkey, hrest⟩ := ih (H := decrement H a)
      (fun h => by
        have := hcount h
        rw [hstep]
        split_ifs <;> omega)
      (fun h => by
        have hh := hle h
        rw [hcons] at hh
        rw [hstep]
        exact le_sub_right_of_add_le hh)
    refine ⟨hneed, hmod, hstart, hkey, fun h => ?_⟩
    rw [decrements, List.foldl_cons]
    have hfin := hrest h
    rw [decrements] at hfin
    rw [hfin, hstep, hcons, sub_sub, add_comm]

/-- The number of used slots below a bound. -/
def usedBelow (i : ℕ) : ℕ :=
  (List.range i).countP fun h => decide (H.hashcount h ≠ 0)

theorem usedBelow_succ (i : ℕ) :
    usedBelow H (i + 1) = usedBelow H i + if H.hashcount i = 0 then 0 else 1 := by
  rw [usedBelow, List.range_succ, List.countP_append, ← usedBelow, List.countP_singleton]
  split_ifs <;> simp_all

theorem usedBelow_le (i : ℕ) : usedBelow H i ≤ i :=
  List.countP_le_length.trans_eq List.length_range

theorem usedBelow_mono {i j : ℕ} (h : i ≤ j) : usedBelow H i ≤ usedBelow H j := by
  induction h with
  | refl => exact le_rfl
  | step _ ih => exact ih.trans (by rw [usedBelow_succ]; exact Nat.le_add_right _ _)

theorem usedBelow_lt {i j : ℕ} (h : i < j) (hi : H.hashcount i ≠ 0) :
    usedBelow H i < usedBelow H j := by
  have hle := usedBelow_mono H (show i + 1 ≤ j from h)
  rw [usedBelow_succ, if_neg hi] at hle
  omega

theorem exists_usedBelow {n m : ℕ} (h : m < usedBelow H n) :
    ∃ i < n, H.hashcount i ≠ 0 ∧ usedBelow H i = m := by
  induction n with
  | zero => simp [usedBelow] at h
  | succ n ih =>
    rw [usedBelow_succ] at h
    by_cases hm : m < usedBelow H n
    · obtain ⟨i, hi, hrest⟩ := ih hm
      exact ⟨i, by omega, hrest⟩
    · split_ifs at h with hcount
      · omega
      · exact ⟨n, by omega, hcount, by omega⟩

/-- What holds after the slots below `i` have been renumbered. -/
structure RenumberInv (H : Hashtable) (i : ℕ) (state : RenumberState) : Prop where
  need64_eq : state.H.need64 = H.need64
  hashmod_eq : state.H.hashmod = H.hashmod
  start_eq : state.H.start = H.start
  key_eq : state.H.key = H.key
  hashcount_eq : ∀ h, state.H.hashcount h
    = if h < i then (if H.hashcount h = 0 then -1 else (usedBelow H h : ℤ) + 1)
      else H.hashcount h
  nb_eq : state.nb = ((usedBelow H i : ℤ) + 1).bmod (2 ^ 32)

/-- One more entry of the table gets its new index. -/
theorem renumberStep_spec {H : Hashtable} {i : ℕ} (hi : i + 1 < 2 ^ 31) {state : RenumberState}
    (hstate : RenumberInv H i state) : RenumberInv H (i + 1) (renumberStep state i) := by
  have hle := usedBelow_le H i
  have hcounti : state.H.hashcount i = H.hashcount i := by
    rw [hstate.hashcount_eq, if_neg (lt_irrefl i)]
  have hnb : state.nb = usedBelow H i + 1 := by
    rw [hstate.nb_eq, Int.bmod_eq_of_le (by omega) (by omega)]
  unfold renumberStep
  rw [hcounti]
  have hset : ∀ v : ℤ, -2 ^ 31 ≤ v → v < 2 ^ 31 → ∀ h, (state.H.setCount i v).hashcount h
      = if h = i then v else state.H.hashcount h := by
    intro v hlo hhi h
    rw [Hashtable.setCount, Int.bmod_eq_of_le (by omega) (by omega)]
    exact Function.update_apply _ _ _ _
  by_cases hzero : H.hashcount i = 0
  · rw [if_pos hzero]
    refine ⟨hstate.need64_eq, hstate.hashmod_eq, hstate.start_eq, hstate.key_eq, ?_, ?_⟩
    · intro h
      rw [hset _ (by omega) (by omega), hstate.hashcount_eq]
      by_cases heq : h = i
      · rw [if_pos heq, if_pos (by omega), heq, if_pos hzero]
      · rw [if_neg heq]
        by_cases hlt : h < i
        · rw [if_pos hlt, if_pos (show h < i + 1 by omega)]
        · rw [if_neg hlt, if_neg (show ¬h < i + 1 by omega)]
    · rw [usedBelow_succ, if_pos hzero]
      exact hstate.nb_eq
  · rw [if_neg hzero]
    refine ⟨hstate.need64_eq, hstate.hashmod_eq, hstate.start_eq, hstate.key_eq, ?_, ?_⟩
    · intro h
      rw [hset _ (by omega) (by omega), hstate.hashcount_eq]
      by_cases heq : h = i
      · rw [if_pos heq, if_pos (by omega), heq, if_neg hzero, hnb]
      · rw [if_neg heq]
        by_cases hlt : h < i
        · rw [if_pos hlt, if_pos (show h < i + 1 by omega)]
        · rw [if_neg hlt, if_neg (show ¬h < i + 1 by omega)]
    · simp only [hnb]
      rw [usedBelow_succ, if_neg hzero]
      push_cast
      rfl

/-- The table after renumbering, and the number of primes. -/
theorem renumber_spec {H : Hashtable} (hmod : H.hashmod < 2 ^ 31) :
    (∃ nb sos, RenumberInv H H.hashmod ⟨(renumber H).1, nb, sos⟩) ∧
      (renumber H).2.1 = usedBelow H H.hashmod := by
  have hsteps : ∀ i ≤ H.hashmod,
      RenumberInv H i ((List.range i).foldl renumberStep ⟨H, 1, []⟩) := by
    intro i
    induction i with
    | zero =>
      intro _
      refine ⟨rfl, rfl, rfl, rfl, fun h => by rw [if_neg (Nat.not_lt_zero h)]; rfl, ?_⟩
      rw [Int.bmod_eq_of_le (by simp [usedBelow]) (by simp [usedBelow])]
      rfl
    | succ i ih =>
      intro hi
      rw [List.range_succ, List.foldl_append, List.foldl_cons, List.foldl_nil]
      exact renumberStep_spec (by omega) (ih (by omega))
  have hlast := hsteps H.hashmod le_rfl
  have hle := usedBelow_le H H.hashmod
  refine ⟨⟨_, _, hlast⟩, ?_⟩
  simp only [renumber]
  rw [hlast.nb_eq]
  by_cases hfull : usedBelow H H.hashmod + 1 < 2 ^ 31
  · have hval : ((usedBelow H H.hashmod : ℤ) + 1).bmod (2 ^ 32) = usedBelow H H.hashmod + 1 :=
      Int.bmod_eq_of_le (by omega) (by omega)
    rw [hval, Int.bmod_eq_of_le (by omega) (by omega)]
    omega
  · rw [show usedBelow H H.hashmod = 2 ^ 31 - 1 by omega]
    decide

/-! ## Looking up what is left -/

/-- The number at the address of a pair. -/
def indexOf (x : ℤ × ℕ) : ℤ :=
  (getHashAddr H x.1 x.2).elim 0 H.hashcount

/-- The pairs that were inserted and have a positive counter. -/
def surviving (calls : List (ℤ × ℕ)) (addrs : List ℕ) (H : Hashtable) : Set (ℤ × ℕ) :=
  {x | ∃ a, (x, a) ∈ calls.zip addrs ∧ 0 < H.hashcount a}

/-- A row has the numbers of its ideals less one. -/
theorem fprintRelRow_eq {H : Hashtable} {minus2 : ℕ} {a : ℤ} {b : ℕ} {rp : List ℤ}
    {ap : List (ℤ × ℕ)} (hfound : ∀ x ∈ rowIdeals minus2 a b rp ap,
      ∃ h, getHashAddr H x.1 x.2 = some h ∧ 0 ≤ H.hashcount h) :
    fprintRelRow H minus2 a b rp ap
      = some ((rowIdeals minus2 a b rp ap).map fun x => indexOf H x - 1) := by
  unfold rowIdeals at hfound ⊢
  unfold fprintRelRow
  split_ifs at hfound ⊢ with hb
  · have hfree : fprintFree H minus2 a ap = some
        (((a, minus2) :: ap.map fun x => (a, (x.1 % 2 ^ 64).toNat)).map (indexOf H)) := by
      refine mapM_eq_some_map fun x hx => ?_
      obtain ⟨h, hh, hpos⟩ := hfound x hx
      rw [indexOf, hh, Option.bind_eq_bind, Option.bind_some, assertAlways_of_true hpos]
      rfl
    rw [hfree]
    exact congrArg some List.map_map
  · have hlook : ∀ xs : List (ℤ × ℕ), (∀ x ∈ xs, x ∈ rp.map (fun p => (p, minus2)) ++ ap) →
        (xs.mapM fun x => (getHashAddr H x.1 x.2).map H.hashcount) = some (xs.map (indexOf H)) := by
      intro xs hxs
      refine mapM_eq_some_map fun x hx => ?_
      obtain ⟨h, hh, -⟩ := hfound x (hxs x hx)
      rw [indexOf, hh]
      rfl
    have hrat : fprintRat H minus2 rp = some ((rp.map fun p => (p, minus2)).map (indexOf H)) := by
      rw [← hlook _ fun x hx => List.mem_append_left _ hx, fprintRat, List.mapM_map]
      rfl
    have halg : fprintAlg H ap = some (ap.map (indexOf H)) :=
      hlook ap fun x hx => List.mem_append_right _ hx
    rw [hrat, halg]
    simp only [Option.bind_eq_bind, Option.bind_some, List.map_append, List.map_map]
    rfl

/-- The table `H` after insertions at these addresses, and `H₁` with counters that have gone
down. -/
structure Counted (calls : List (ℤ × ℕ)) (addrs : List ℕ) (H H₁ : Hashtable) : Prop where
  hashmod_lt : H.hashmod < 2 ^ 31
  chained : LinearProbing.Chained H.hashmod H.start H.used H.key
  stored : ∀ u ∈ calls.zip addrs, u.2 ∈ H.used ∧ H.key u.2 = H.keyOf u.1
  need64_eq : H₁.need64 = H.need64
  hashmod_eq : H₁.hashmod = H.hashmod
  start_eq : H₁.start = H.start
  key_eq : H₁.key = H.key
  nonneg : ∀ h, 0 ≤ H₁.hashcount h
  used : ∀ h, H₁.hashcount h ≠ 0 → ∃ x, (x, h) ∈ calls.zip addrs

section Counted

variable {calls : List (ℤ × ℕ)} {addrs : List ℕ} {H H₁ : Hashtable}
  (h : Counted calls addrs H H₁)
include h

/-- The numbers after renumbering. -/
theorem Counted.hashcount_eq {a : ℕ} (ha : a < H.hashmod) : (renumber H₁).1.hashcount a
    = if H₁.hashcount a = 0 then -1 else (usedBelow H₁ a : ℤ) + 1 := by
  obtain ⟨⟨nb, sos, hren⟩, -⟩ := renumber_spec (by rw [h.hashmod_eq]; exact h.hashmod_lt)
  rw [hren.hashcount_eq a, if_pos (by rwa [h.hashmod_eq])]

/-- No slot is free any more, so a search ends only at its key. -/
theorem Counted.getHashAddr_eq {u : (ℤ × ℕ) × ℕ} (hu : u ∈ calls.zip addrs) :
    getHashAddr (renumber H₁).1 u.1.1 u.1.2 = some u.2 := by
  obtain ⟨⟨nb, sos, hren⟩, -⟩ := renumber_spec (by rw [h.hashmod_eq]; exact h.hashmod_lt)
  have hkeyOf : (renumber H₁).1.keyOf = H.keyOf := by
    funext y
    unfold Hashtable.keyOf Hashtable.mask
    rw [show (renumber H₁).1.need64 = H.need64 from hren.need64_eq.trans h.need64_eq]
  have hmod : (renumber H₁).1.hashmod = H.hashmod := hren.hashmod_eq.trans h.hashmod_eq
  have hstart : (renumber H₁).1.start = H.start := hren.start_eq.trans h.start_eq
  have hkey : (renumber H₁).1.key = H.key := hren.key_eq.trans h.key_eq
  obtain ⟨hused, hkeyu⟩ := h.stored u hu
  obtain ⟨t, ht, hslot, hpass, -⟩ := h.chained.exists_path hused
  rw [hkeyu] at hslot hpass
  have hpass' : (renumber H₁).1.Passes ((renumber H₁).1.keyOf u.1) t := by
    intro s hs
    rw [hkeyOf, hstart, hmod, hkey]
    obtain ⟨husedS, hneS⟩ := hpass s hs
    refine ⟨?_, hneS⟩
    change (renumber H₁).1.hashcount _ ≠ 0
    rw [h.hashcount_eq (h.chained.lt_size _ husedS)]
    split_ifs <;> omega
  have hstop : (renumber H₁).1.Stops ((renumber H₁).1.keyOf u.1) t := by
    refine Or.inr ?_
    rw [hkeyOf, hstart, hmod, hkey, hslot, hkeyu]
  rw [CadoNfs.getHashAddr_eq (by rw [hmod]; exact h.hashmod_lt) (by rw [hmod]; exact ht) hpass'
    hstop]
  unfold Hashtable.slot
  rw [hkeyOf, hstart, hmod, hslot]

theorem Counted.indexOf_eq {x : ℤ × ℕ} {a : ℕ} (hu : (x, a) ∈ calls.zip addrs)
    (hpos : 0 < H₁.hashcount a) : indexOf (renumber H₁).1 x = (usedBelow H₁ a : ℤ) + 1 := by
  rw [indexOf, h.getHashAddr_eq hu, Option.elim_some,
    h.hashcount_eq (h.chained.lt_size _ (h.stored _ hu).1), if_neg hpos.ne']

/-- The numbers are one to one with the ideals that are left. -/
theorem Counted.bijOn (hinj : ∀ x ∈ calls, ∀ y ∈ calls, H.keyOf x = H.keyOf y → x = y) :
    Set.BijOn (indexOf (renumber H₁).1) (surviving calls addrs H₁)
      (Set.Icc 1 (renumber H₁).2.1) := by
  obtain ⟨-, hnb⟩ := renumber_spec (by rw [h.hashmod_eq]; exact h.hashmod_lt)
  rw [h.hashmod_eq] at hnb
  refine ⟨?_, ?_, ?_⟩
  · rintro x ⟨a, hu, hpos⟩
    have hlt : usedBelow H₁ a < usedBelow H₁ H.hashmod :=
      usedBelow_lt H₁ (h.chained.lt_size _ (h.stored _ hu).1) (by omega)
    rw [h.indexOf_eq hu hpos, hnb, Set.mem_Icc]
    omega
  · rintro x ⟨a, hu, hpos⟩ y ⟨b, hv, hpos'⟩ heq
    rw [h.indexOf_eq hu hpos, h.indexOf_eq hv hpos'] at heq
    have hab : a = b := by
      rcases lt_trichotomy a b with hlt | heq' | hlt
      · have := usedBelow_lt H₁ hlt (by omega)
        omega
      · exact heq'
      · have := usedBelow_lt H₁ hlt (by omega)
        omega
    have hx := (h.stored _ hu).2
    have hy := (h.stored _ hv).2
    simp only at hx hy
    exact hinj x (List.of_mem_zip hu).1 y (List.of_mem_zip hv).1 (by rw [← hx, ← hy, hab])
  · intro m hm
    rw [hnb, Set.mem_Icc] at hm
    obtain ⟨i, -, hcount, hbelow⟩ := exists_usedBelow H₁ (n := H.hashmod) (m := (m - 1).toNat)
      (by omega)
    obtain ⟨x, hu⟩ := h.used i hcount
    have hpos := (h.nonneg i).lt_of_ne' hcount
    refine ⟨x, ⟨i, hu, hpos⟩, ?_⟩
    rw [h.indexOf_eq hu hpos, hbelow]
    omega

end Counted

/-- After insertions, counting down and renumbering: an ideal that is left is found where
it was inserted, the numbers at these addresses are one to one with the ideals that are
left, and the purged file has these numbers less one. -/
theorem renumber_correct (ulongNextprime : ℕ → ℕ) (n : ℕ) (need64 : Bool) {minus1 minus2 : ℕ}
    (hroots : MinusRoots minus1 minus2)
    (hmod : (hashInit ulongNextprime n need64).hashmod < 2 ^ 31) (calls : List (ℤ × ℕ))
    (hvalid : ∀ x ∈ calls, ValidPair need64 minus1 minus2 x)
    (hcount : ∀ x, calls.count x < 2 ^ 31) {H : Hashtable} {addrs : List ℕ}
    (hres : hashInserts (hashInit ulongNextprime n need64) calls = some (H, addrs))
    (hs : List ℕ) (hle : ∀ h, (hs.count h : ℤ) ≤ H.hashcount h) :
    (∀ u ∈ calls.zip addrs, 0 < (decrements H hs).hashcount u.2 →
      getHashAddr (renumber (decrements H hs)).1 u.1.1 u.1.2 = some u.2) ∧
    Set.BijOn (indexOf (renumber (decrements H hs)).1) (surviving calls addrs (decrements H hs))
      (Set.Icc 1 (renumber (decrements H hs)).2.1) ∧
    ∀ r a b rp ap, (∀ x ∈ rowIdeals r a b rp ap, x ∈ surviving calls addrs (decrements H hs)) →
      fprintRelRow (renumber (decrements H hs)).1 r a b rp ap
        = some ((rowIdeals r a b rp ap).map
            fun x => indexOf (renumber (decrements H hs)).1 x - 1) := by
  have hkeys := fun k => count_keys_lt hroots
    (show ∀ x ∈ calls, ValidPair (hashInit ulongNextprime n need64).need64 minus1 minus2 x
      from hvalid) hcount k
  obtain ⟨hinv, hlen, -, hzip⟩ := hashInserts_spec (hashInit_inv _ _ _) hmod hvalid hkeys hres
  have hHmod : H.hashmod < 2 ^ 31 := by
    rw [hinv.hashmod_eq]
    exact hmod
  have hHlt : ∀ h, H.hashcount h < 2 ^ 31 := by
    intro h
    by_cases hused : h ∈ H.used
    · rw [hinv.count h hused, List.append_nil, List.count_reverse]
      have hlt := hkeys (H.key h)
      rw [List.count_nil, add_zero] at hlt
      exact_mod_cast hlt
    · rw [not_not.mp hused]
      decide
  obtain ⟨hneed, hmod₁, hstart, hkey, hcount₁⟩ := decrements_spec hHlt hle
  have hkeyOf : (hashInit ulongNextprime n need64).keyOf = H.keyOf := by
    funext y
    unfold Hashtable.keyOf Hashtable.mask
    rw [hinv.need64_eq]
  rw [hkeyOf] at hzip
  have hcounted : Counted calls addrs H (decrements H hs) := by
    refine ⟨hHmod, hinv.chained, hzip, hneed, hmod₁, hstart, hkey, fun i => ?_, fun i hi => ?_⟩
    · rw [hcount₁]
      exact sub_nonneg_of_le (hle i)
    · -- a slot in use has the key of a pair that was inserted
      have hused : i ∈ H.used := by
        intro hzero
        have hhs := hle i
        rw [hcount₁, hzero] at hi
        omega
      have hkeymem : H.key i ∈ calls.map (hashInit ulongNextprime n need64).keyOf := by
        by_contra hnot
        have hzero := hinv.count i hused
        rw [List.append_nil, List.count_reverse, List.count_eq_zero_of_not_mem hnot] at hzero
        exact hused hzero
      obtain ⟨x, hx, hkeyx⟩ := List.mem_map.mp hkeymem
      rw [← List.map_fst_zip hlen.ge] at hx
      obtain ⟨⟨x, a⟩, hu, rfl⟩ := List.mem_map.mp hx
      obtain ⟨haused, hakey⟩ := hzip (x, a) hu
      rw [hkeyOf] at hkeyx
      exact ⟨x, hinv.chained.key_injOn haused hused (hakey.trans hkeyx) ▸ hu⟩
  refine ⟨fun u hu _ => hcounted.getHashAddr_eq hu, hcounted.bijOn fun x hx y hy heq => ?_,
    fun r a b rp ap hrow => fprintRelRow_eq fun x hx => ?_⟩
  · rw [← hkeyOf] at heq
    exact ValidPair.key_injective hroots (hvalid x hx) (hvalid y hy) heq
  · obtain ⟨i, hu, hpos⟩ := hrow x hx
    refine ⟨i, hcounted.getHashAddr_eq hu, ?_⟩
    rw [hcounted.hashcount_eq (hinv.chained.lt_size _ (hzip _ hu).1), if_neg hpos.ne']
    exact Int.le_add_one (Int.natCast_nonneg _)

/-- Two ideals in a table with five slots, one of them counted down to zero. -/
theorem renumber_correct_five :
    ∃ H a b c, hashInserts (hashInit (fun _ => 5) 2 false)
        ([(2, 0), (2, 2 ^ 64 - 2), (2, 0)] : List (ℤ × ℕ)) = some (H, [a, b, c]) ∧
      (∀ u ∈ ([(2, 0), (2, 2 ^ 64 - 2), (2, 0)] : List (ℤ × ℕ)).zip [a, b, c],
        0 < (decrements H [b]).hashcount u.2 →
          getHashAddr (renumber (decrements H [b])).1 u.1.1 u.1.2 = some u.2) ∧
      Set.BijOn (indexOf (renumber (decrements H [b])).1)
        (surviving [(2, 0), (2, 2 ^ 64 - 2), (2, 0)] [a, b, c] (decrements H [b]))
        (Set.Icc 1 (renumber (decrements H [b])).2.1) ∧
      ∀ r p q rp ap,
        (∀ x ∈ rowIdeals r p q rp ap,
          x ∈ surviving [(2, 0), (2, 2 ^ 64 - 2), (2, 0)] [a, b, c] (decrements H [b])) →
        fprintRelRow (renumber (decrements H [b])).1 r p q rp ap
          = some ((rowIdeals r p q rp ap).map
              fun x => indexOf (renumber (decrements H [b])).1 x - 1) := by
  have hroots : MinusRoots (2 ^ 64 - 1) (2 ^ 64 - 2) := ⟨Or.inr rfl, Or.inr rfl⟩
  have hmod : (hashInit (fun _ => 5) 2 false).hashmod < 2 ^ 31 := by decide
  have hvalid : ∀ x ∈ ([(2, 0), (2, 2 ^ 64 - 2), (2, 0)] : List (ℤ × ℕ)),
      ValidPair (hashInit (fun _ => 5) 2 false).need64 (2 ^ 64 - 1) (2 ^ 64 - 2) x := by
    simp [ValidPair, hashInit]
  have hcount : ∀ x, ([(2, 0), (2, 2 ^ 64 - 2), (2, 0)] : List (ℤ × ℕ)).count x < 2 ^ 31 :=
    fun x => lt_of_le_of_lt List.count_le_length (by decide)
  have hkeys := count_keys_lt hroots hvalid hcount
  have hinv := hashInit_inv (fun _ => 5) 2 false
  obtain ⟨⟨H, addrs⟩, hres⟩ := Option.isSome_iff_exists.mp
    (hashInserts_isSome hinv hmod hvalid hkeys (by decide))
  obtain ⟨hinv', hlen, -, hzip⟩ := hashInserts_spec hinv hmod hvalid hkeys hres
  obtain ⟨a, b, c, rfl⟩ := List.length_eq_three.mp hlen
  refine ⟨H, a, b, c, hres, ?_⟩
  refine renumber_correct (fun _ => 5) 2 false hroots hmod _ hvalid hcount hres [b] fun h => ?_
  have hnonneg := hinv'.hashcount_nonneg h
  by_cases hb : h = b
  · obtain ⟨hused, -⟩ := hzip ((2, 2 ^ 64 - 2), b) (by simp)
    have hne : H.hashcount b ≠ 0 := hused
    rw [hb] at hnonneg ⊢
    rw [List.count_singleton_self]
    omega
  · rw [List.count_eq_zero_of_not_mem (by simpa using hb)]
    exact hnonneg

/-- A counter that has overflowed is not positive but gets a number. -/
theorem renumber_overflow :
    ∃ H addrs, hashInserts (hashInit (fun _ => 5) 2 false)
        (List.replicate (2 ^ 31) ((2, 0) : ℤ × ℕ)) = some (H, addrs) ∧
      ¬Set.BijOn (indexOf (renumber (decrements H [])).1)
        (surviving (List.replicate (2 ^ 31) ((2, 0) : ℤ × ℕ)) addrs (decrements H []))
        (Set.Icc 1 (renumber (decrements H [])).2.1) := by
  obtain ⟨N, hN⟩ : ∃ N, N + 1 = 2 ^ 31 := ⟨2 ^ 31 - 1, by omega⟩
  obtain ⟨H, addrs, hres, hmod, hlen, hcount⟩ := hashInserts_wraps_of hN
  rw [← hN]
  refine ⟨H, addrs, hres, fun hbij => ?_⟩
  rw [decrements, List.foldl_nil] at hbij
  obtain ⟨a, as, rfl⟩ := List.exists_cons_of_length_eq_add_one hlen
  obtain ⟨ha, hneg⟩ := hcount ((2, 0), a) (by rw [List.replicate_succ]; simp)
  have hlt : usedBelow H a < usedBelow H H.hashmod := usedBelow_lt H ha (by rw [hneg]; decide)
  obtain ⟨-, hnb⟩ := renumber_spec (H := H) (by rw [hmod]; decide)
  have hone : (1 : ℤ) ∈ Set.Icc 1 (renumber H).2.1 := by
    rw [hnb, Set.mem_Icc]
    omega
  obtain ⟨x, ⟨a', hu, hpos⟩, -⟩ := hbij.surjOn hone
  rw [(hcount (x, a') hu).2] at hpos
  omega

end CadoNfs.Purge
