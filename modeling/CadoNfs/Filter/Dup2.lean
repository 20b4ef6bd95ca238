import CadoNfs.Lib.LinearProbing
import Mathlib.Data.BitVec
import CadoNfs.Macros

/-!
# Removing duplicate relations

The second pass of `dup2.c`.  A relation is entered in a hash table by the 64-bit hash of its
pair `(a, b)`: the search starts at a cell that depends on the hash, the cell stores the high
half of the hash, and an empty cell stores 0.  A relation is dropped as a probable duplicate when
its search meets its own high half.

Main results:

- Theorem `dup2Probe_spec`: where a search ends.
- Theorem `dup2Step_spec`: what one relation does to the table.
- Theorem `removeDup_spec`: which relations are kept, for any sequence of relations.
-/

namespace CadoNfs

open LinearProbing

/-! ## Code -/

/-- `a` and `b` of a relation. -/
structure AbPair where
  a : BitVec 64
  b : BitVec 64
deriving DecidableEq, Repr

/-- `h = CA * (uint64_t) a + CB * b`. -/
def AbPair.hash (r : AbPair) : BitVec 64 :=
  271828182845904523#64 * r.a + 577215664901532889#64 * r.b

/-- `j = (uint32_t) (h >> 32)`. -/
def AbPair.high (r : AbPair) : BitVec 32 :=
  (r.hash >>> 32).setWidth 32

/-- The hash table and the counters of `remove_dup_in_files`. -/
structure Dup2State where
  H : ℕ → BitVec 32
  dupl : ℕ
  nodu : ℕ
  cost : ℕ
  factor : ℕ
  nrels : ℕ

/-- The state at the start. -/
def Dup2State.init : Dup2State := ⟨fun _ => 0, 0, 0, 0, 1, 0⟩

/-- The search loop from the cell `i` on, a `uint32_t`, with the cost.  The loop has
seen all cells and goes on forever for `none`. -/
def dup2Probe (K : ℕ) (H : ℕ → BitVec 32) (j : BitVec 32) : ℕ → ℕ → ℕ → Option (ℕ × ℕ)
  | 0, _, _ => none
  | fuel + 1, i, cost =>
    if H i ≠ 0 ∧ H i ≠ j then
      let i := (i + 1) % 2 ^ 32
      dup2Probe K H j fuel (if i = K then 0 else i) (cost + 1)
    else some (i, cost)

/-- What happens to a relation: `full` is the exit with "hash table is full". -/
inductive Dup2Step where
  | duplicate (s : Dup2State)
  | kept (s : Dup2State)
  | full

/-- The first cell of the search. -/
def dup2Start (K : ℕ) (r : AbPair) : ℕ := r.hash.toNat % K % 2 ^ 32

/-- The body of the loop over the relations; the percentages are exact here. -/
def dup2Step (K : ℕ) (s : Dup2State) (r : AbPair) : Option Dup2Step := do
  let s := { s with nrels := s.nrels + 1 }
  let j := r.high
  let (i, cost) ← dup2Probe K s.H j (min K (2 ^ 32)) (dup2Start K r) s.cost
  let s := { s with cost := cost }
  if s.H i = j then some (.duplicate { s with dupl := s.dupl + 1 })
  else
    let s := { s with nodu := s.nodu + 1 }
    let warn : Bool := decide (s.cost ≥ s.factor * s.nrels)
    if warn ∧ 100 * s.nodu ≥ 99 * K then some .full
    else some (.kept { s with
      factor := if warn then s.factor + 1 else s.factor
      H := Function.update s.H i j })

/-- How the loop over the relations ends. -/
inductive Dup2End where
  | finished (s : Dup2State)
  | full

/-- The loop of `remove_dup_in_files` over the relations of all files: for every relation,
whether it is kept. -/
def removeDup (K : ℕ) : Dup2State → List AbPair → Option (List Bool × Dup2End)
  | s, [] => some ([], .finished s)
  | s, r :: rels => do
    match ← dup2Step K s r with
    | .full => some ([], .full)
    | .duplicate s =>
      let (vs, e) ← removeDup K s rels
      some (false :: vs, e)
    | .kept s =>
      let (vs, e) ← removeDup K s rels
      some (true :: vs, e)

/-! ## Searches -/

/-- The cells that can be reached. -/
def dup2Cells (K : ℕ) : ℕ := min K (2 ^ 32)

/-- The `t`-th cell of the search that starts at `i`. -/
def dup2Slot (K i t : ℕ) : ℕ := slot (dup2Cells K) id i t

/-- The search from `i` for `j` goes past its first `t` cells. -/
def Passed (K : ℕ) (H : ℕ → BitVec 32) (j : BitVec 32) (i t : ℕ) : Prop :=
  ∀ s < t, H (dup2Slot K i s) ≠ 0 ∧ H (dup2Slot K i s) ≠ j

/-- The search for a relation meets its high half. -/
def Found (K : ℕ) (H : ℕ → BitVec 32) (r : AbPair) : Prop :=
  ∃ t < dup2Cells K, Passed K H r.high (dup2Start K r) t ∧
    H (dup2Slot K (dup2Start K r) t) = r.high

variable {K : ℕ} {H : ℕ → BitVec 32} {j : BitVec 32} {r : AbPair}

theorem dup2Cells_pos (hK : 0 < K) : 0 < dup2Cells K :=
  lt_min hK (by decide)

theorem dup2Start_lt (hK : 0 < K) (r : AbPair) : dup2Start K r < dup2Cells K := by
  have hmod := Nat.mod_lt r.hash.toNat hK
  have hle := Nat.mod_le (r.hash.toNat % K) (2 ^ 32)
  exact lt_min (by rw [dup2Start]; omega) (Nat.mod_lt _ (by decide))

theorem dup2Slot_lt (hK : 0 < K) (i t : ℕ) : dup2Slot K i t < dup2Cells K :=
  slot_lt (dup2Cells_pos hK) i t

theorem dup2Slot_zero {i : ℕ} (hi : i < dup2Cells K) : dup2Slot K i 0 = i :=
  Nat.mod_eq_of_lt hi

theorem dup2Slot_succ (hK : 0 < K) (i t : ℕ) :
    (if (dup2Slot K i t + 1) % 2 ^ 32 = K then 0 else (dup2Slot K i t + 1) % 2 ^ 32)
      = dup2Slot K i (t + 1) := by
  have hlt := dup2Slot_lt hK i t
  have hsucc : dup2Slot K i (t + 1)
      = if dup2Slot K i t + 1 ≥ dup2Cells K then 0 else dup2Slot K i t + 1 :=
    slot_succ (dup2Cells_pos hK) i t
  rw [hsucc]
  have hcells : dup2Cells K ≤ K ∧ dup2Cells K ≤ 2 ^ 32 ∧
      (dup2Cells K = K ∨ dup2Cells K = 2 ^ 32) :=
    ⟨min_le_left _ _, min_le_right _ _, min_choice _ _⟩
  generalize dup2Slot K i t = c at *
  split_ifs <;> omega

/-- Where a search ends. -/
theorem dup2Probe_spec (hK : 0 < K) {i t : ℕ} (hi : i < dup2Cells K) (hpass : Passed K H j i t)
    (hstop : H (dup2Slot K i t) = 0 ∨ H (dup2Slot K i t) = j) (fuel : ℕ) (hfuel : t < fuel)
    (cost : ℕ) : dup2Probe K H j fuel i cost = some (dup2Slot K i t, cost + t) := by
  have hrest : ∀ n u fuel, u + n = t → n < fuel →
      dup2Probe K H j fuel (dup2Slot K i u) (cost + u) = some (dup2Slot K i t, cost + t) := by
    intro n
    induction n with
    | zero =>
      intro u fuel hu hfuel
      obtain rfl : u = t := by omega
      obtain ⟨fuel, rfl⟩ := Nat.exists_eq_succ_of_ne_zero (show fuel ≠ 0 by omega)
      rw [dup2Probe, if_neg]
      rintro ⟨h₀, hj⟩
      exact hstop.elim h₀ hj
    | succ n ih =>
      intro u fuel hu hfuel
      obtain ⟨fuel, rfl⟩ := Nat.exists_eq_succ_of_ne_zero (show fuel ≠ 0 by omega)
      rw [dup2Probe, if_pos (hpass u (by omega))]
      dsimp only
      rw [dup2Slot_succ hK, add_assoc]
      exact ih (u + 1) fuel (by omega) (by omega)
  have hall := hrest t 0 fuel (by omega) hfuel
  rwa [dup2Slot_zero hi] at hall

theorem exists_passed (i : ℕ) {c : ℕ} (hc : c < dup2Cells K) (hstop : H c = 0 ∨ H c = j) :
    ∃ t < dup2Cells K, Passed K H j i t ∧ (H (dup2Slot K i t) = 0 ∨ H (dup2Slot K i t) = j) := by
  obtain ⟨t, ht, hpass, hend⟩ := @exists_stop _ (dup2Cells K) Prod.fst {c | H c ≠ 0}
    (fun c => (i, H c)) (i, j) c hc (hstop.imp (fun h => by simpa using h) fun h => by rw [h])
  refine ⟨t, ht, fun s hs => ?_, ?_⟩
  · obtain ⟨hused, hne⟩ := hpass s hs
    exact ⟨hused, fun h => hne (by rw [← h]; rfl)⟩
  · refine hend.imp (fun h => not_not.mp h) fun h => ?_
    exact (Prod.mk.inj h).2

theorem Found.update (h : Found K H r) {c : ℕ} (hc : H c = 0) (hr : r.high ≠ 0) (j : BitVec 32) :
    Found K (Function.update H c j) r := by
  obtain ⟨t, ht, hpass, hend⟩ := h
  have hother : ∀ {c'}, H c' ≠ 0 → Function.update H c j c' = H c' := fun {c'} hc' =>
    Function.update_of_ne (fun heq => hc' (by rw [heq, hc])) _ _
  refine ⟨t, ht, fun s hs => ?_, ?_⟩
  · obtain ⟨hne, hnej⟩ := hpass s hs
    rw [hother hne]
    exact ⟨hne, hnej⟩
  · rw [hother (by rw [hend]; exact hr), hend]

theorem Found.end_eq (h : Found K H r) {t : ℕ} (hpass : Passed K H r.high (dup2Start K r) t)
    (hstop : H (dup2Slot K (dup2Start K r) t) = 0 ∨ H (dup2Slot K (dup2Start K r) t) = r.high) :
    H (dup2Slot K (dup2Start K r) t) = r.high := by
  obtain ⟨t', -, hpass', hend⟩ := h
  rcases lt_trichotomy t t' with hlt | rfl | hgt
  · obtain ⟨hne, hnej⟩ := hpass' t hlt
    exact hstop.resolve_left hne
  · exact hend
  · exact absurd hend (hpass t' hgt).2

/-! ## One relation -/

/-- The class of a relation: `h mod K` and the high half. -/
def AbPair.cell (K : ℕ) (r : AbPair) : ℕ × BitVec 32 := (r.hash.toNat % K, r.high)

/-- The classes of some relations. -/
def classes (K : ℕ) (rels : List AbPair) : Finset (ℕ × BitVec 32) :=
  (rels.map (AbPair.cell K)).toFinset

theorem mem_classes {rels : List AbPair} {c : ℕ × BitVec 32} :
    c ∈ classes K rels ↔ ∃ r ∈ rels, r.cell K = c := by
  rw [classes, List.mem_toFinset, List.mem_map]

theorem classes_append_singleton (rels : List AbPair) (r : AbPair) :
    classes K (rels ++ [r]) = insert (r.cell K) (classes K rels) := by
  ext c
  simp [classes]

theorem Found.of_cell {r' : AbPair} (h : Found K H r') (hcell : r'.cell K = r.cell K) :
    Found K H r := by
  obtain ⟨hmod, hhigh⟩ := Prod.mk.inj hcell
  have hstart : dup2Start K r' = dup2Start K r := by rw [dup2Start, dup2Start, hmod]
  rwa [Found, hstart, hhigh] at h

/-- The cells in use. -/
def usedCells (K : ℕ) (H : ℕ → BitVec 32) : Finset ℕ :=
  (Finset.range (dup2Cells K)).filter fun c => H c ≠ 0

theorem usedCells_update {c : ℕ} (hc : c < dup2Cells K) (hj : j ≠ 0) :
    usedCells K (Function.update H c j) = insert c (usedCells K H) := by
  ext c'
  rw [Finset.mem_insert, usedCells, usedCells, Finset.mem_filter, Finset.mem_filter,
    Finset.mem_range]
  by_cases h : c' = c
  · rw [h, Function.update_self]
    exact iff_of_true ⟨hc, hj⟩ (.inl rfl)
  · rw [Function.update_of_ne h, or_iff_right h]

/-- A relation with the high half `j` has been kept. -/
def KeptHigh (rels : List AbPair) (vs : List Bool) (j : BitVec 32) : Prop :=
  ∃ (n : ℕ) (r : AbPair), vs[n]? = some true ∧ rels[n]? = some r ∧ r.high = j

theorem KeptHigh.append {rels : List AbPair} {vs : List Bool} (h : KeptHigh rels vs j) (v : Bool)
    (r' : AbPair) : KeptHigh (rels ++ [r']) (vs ++ [v]) j := by
  obtain ⟨n, r, hv, hr, hj⟩ := h
  obtain ⟨hn, -⟩ := List.getElem?_eq_some_iff.mp hv
  obtain ⟨hn', -⟩ := List.getElem?_eq_some_iff.mp hr
  exact ⟨n, r, by rw [List.getElem?_append_left hn, hv],
    by rw [List.getElem?_append_left hn', hr], hj⟩

/-- After the relations `rels`, of which `vs` says which were kept. -/
structure Dup2Inv (K : ℕ) (rels : List AbPair) (vs : List Bool) (s : Dup2State) : Prop where
  length : vs.length = rels.length
  found : ∀ r ∈ rels, Found K s.H r
  stored : ∀ c < dup2Cells K, s.H c ≠ 0 → KeptHigh rels vs (s.H c)
  card : (usedCells K s.H).card ≤ (classes K rels).card
  nodu : s.nodu = vs.count true

theorem dup2Inv_init (K : ℕ) : Dup2Inv K [] [] .init where
  length := rfl
  found _ h := absurd h List.not_mem_nil
  stored _ _ h := absurd rfl h
  card := by simp [usedCells, Dup2State.init]
  nodu := rfl

section Step

variable {rels : List AbPair} {vs : List Bool} {s s' : Dup2State} {i : ℕ}

theorem Dup2Inv.found_of_mem (h : Dup2Inv K rels vs s) (hmem : r.cell K ∈ classes K rels) :
    Found K s.H r := by
  obtain ⟨r', hr', hcell⟩ := mem_classes.mp hmem
  exact (h.found r' hr').of_cell hcell

theorem Dup2Inv.exists_end (hK : 0 < K) (h : Dup2Inv K rels vs s)
    (hcard : (classes K (rels ++ [r])).card ≤ dup2Cells K) :
    ∃ c < dup2Cells K, s.H c = 0 ∨ s.H c = r.high := by
  by_cases hmem : r.cell K ∈ classes K rels
  · obtain ⟨t, -, -, ht⟩ := h.found_of_mem hmem
    exact ⟨_, dup2Slot_lt hK _ _, .inr ht⟩
  · rw [classes_append_singleton, Finset.card_insert_of_notMem hmem] at hcard
    by_contra hfull
    simp only [not_exists, not_and, not_or] at hfull
    have hall : usedCells K s.H = Finset.range (dup2Cells K) :=
      Finset.filter_true_of_mem fun c hc => (hfull c (Finset.mem_range.mp hc)).1
    have hle := h.card
    rw [hall, Finset.card_range] at hle
    omega

theorem forall_found_append (hrels : ∀ r' ∈ rels, Found K H r') (hr : Found K H r) :
    ∀ r' ∈ rels ++ [r], Found K H r' := by
  intro r' hmem
  rcases List.mem_append.mp hmem with hmem | hmem
  · exact hrels r' hmem
  · rw [List.mem_singleton.mp hmem]
    exact hr

theorem Found.of_empty {t : ℕ} (ht : t < dup2Cells K) (hpass : Passed K H r.high (dup2Start K r) t)
    (hempty : H (dup2Slot K (dup2Start K r) t) = 0) :
    Found K (Function.update H (dup2Slot K (dup2Start K r) t) r.high) r := by
  refine ⟨t, ht, fun u hu => ?_, Function.update_self _ _ _⟩
  obtain ⟨hne, hnej⟩ := hpass u hu
  rw [Function.update_of_ne fun heq => hne (by rw [heq, hempty])]
  exact ⟨hne, hnej⟩

theorem Dup2Inv.duplicate (h : Dup2Inv K rels vs s) (hr : Found K s.H r) (hH : s'.H = s.H)
    (hnodu : s'.nodu = s.nodu) : Dup2Inv K (rels ++ [r]) (vs ++ [false]) s' where
  length := by rw [List.length_append, List.length_append, h.length]; rfl
  found := by
    rw [hH]
    exact forall_found_append h.found hr
  stored c hc hne := by
    rw [hH] at hne ⊢
    exact (h.stored c hc hne).append false r
  card := by
    rw [hH, classes_append_singleton]
    exact h.card.trans (Finset.card_le_card (Finset.subset_insert _ _))
  nodu := by
    rw [List.count_append, List.count_singleton, hnodu]
    exact h.nodu

theorem Dup2Inv.kept (h : Dup2Inv K rels vs s) (hi : i < dup2Cells K) (hempty : s.H i = 0)
    (hr : r.high ≠ 0) (hnew : r.cell K ∉ classes K rels) (hhigh : ∀ r' ∈ rels, r'.high ≠ 0)
    (hH : s'.H = Function.update s.H i r.high) (hfound : Found K s'.H r)
    (hnodu : s'.nodu = s.nodu + 1) : Dup2Inv K (rels ++ [r]) (vs ++ [true]) s' where
  length := by rw [List.length_append, List.length_append, h.length]; rfl
  found := by
    refine forall_found_append (fun r' hr' => ?_) hfound
    rw [hH]
    exact (h.found r' hr').update hempty (hhigh r' hr') _
  stored c hc hne := by
    rw [hH] at hne ⊢
    by_cases heq : c = i
    · rw [heq, Function.update_self]
      refine ⟨rels.length, r, ?_, ?_, rfl⟩
      · rw [← h.length, List.getElem?_append_right le_rfl, Nat.sub_self]
        rfl
      · rw [List.getElem?_append_right le_rfl, Nat.sub_self]
        rfl
    · rw [Function.update_of_ne heq] at hne ⊢
      exact (h.stored c hc hne).append true r
  card := by
    rw [hH, usedCells_update hi hr, classes_append_singleton, Finset.card_insert_of_notMem hnew]
    exact (Finset.card_insert_le _ _).trans (Nat.succ_le_succ h.card)
  nodu := by
    rw [List.count_append, List.count_singleton, hnodu]
    exact congrArg (· + 1) h.nodu

/-- What one relation does to the table. -/
theorem dup2Step_spec (hK : 0 < K) (h : Dup2Inv K rels vs s) (hhigh : ∀ r' ∈ rels, r'.high ≠ 0)
    (hr : r.high ≠ 0) (hcard : (classes K (rels ++ [r])).card ≤ dup2Cells K) :
    (∃ s', dup2Step K s r = some (.duplicate s') ∧ Dup2Inv K (rels ++ [r]) (vs ++ [false]) s' ∧
      KeptHigh rels vs r.high) ∨
    (∃ s', dup2Step K s r = some (.kept s') ∧ Dup2Inv K (rels ++ [r]) (vs ++ [true]) s' ∧
      r.cell K ∉ classes K rels) ∨
    (dup2Step K s r = some .full ∧ 99 * K ≤ 100 * (vs.count true + 1)) := by
  obtain ⟨c, hc, hcend⟩ := h.exists_end hK hcard
  obtain ⟨t, ht, hpass, hstop⟩ := exists_passed (dup2Start K r) hc hcend
  have hprobe := dup2Probe_spec hK (dup2Start_lt hK r) hpass hstop (min K (2 ^ 32)) ht s.cost
  have hcell := dup2Slot_lt hK (dup2Start K r) t
  unfold dup2Step
  dsimp only
  rw [hprobe, some_bind]
  dsimp only
  by_cases hdup : s.H (dup2Slot K (dup2Start K r) t) = r.high
  · rw [if_pos hdup]
    have hkept := h.stored _ hcell (by rw [hdup]; exact hr)
    exact .inl ⟨_, rfl, h.duplicate ⟨t, ht, hpass, hdup⟩ rfl rfl, hdup ▸ hkept⟩
  · have hempty : s.H (dup2Slot K (dup2Start K r) t) = 0 := hstop.resolve_right hdup
    have hnew : r.cell K ∉ classes K rels := fun hmem =>
      hdup ((h.found_of_mem hmem).end_eq hpass hstop)
    rw [if_neg hdup]
    by_cases hfull : decide (s.cost + t ≥ s.factor * (s.nrels + 1)) = true ∧
        100 * (s.nodu + 1) ≥ 99 * K
    · rw [if_pos hfull]
      refine .inr (.inr ⟨rfl, ?_⟩)
      rw [← h.nodu]
      exact hfull.2
    · rw [if_neg hfull]
      exact .inr (.inl ⟨_, rfl, h.kept hcell hempty hr hnew hhigh rfl (.of_empty ht hpass hempty) rfl,
        hnew⟩)

end Step

/-! ## All relations -/

/-- Which relations have been kept: one is kept only if none before it has the same hash, and
dropped only if one with the same high half has been kept before. -/
inductive Dup2Verdicts : List AbPair → List Bool → Prop where
  | nil : Dup2Verdicts [] []
  | kept {rels : List AbPair} {vs : List Bool} {r : AbPair} : Dup2Verdicts rels vs →
      (∀ r' ∈ rels, r'.hash ≠ r.hash) → Dup2Verdicts (rels ++ [r]) (vs ++ [true])
  | dropped {rels : List AbPair} {vs : List Bool} {r : AbPair} : Dup2Verdicts rels vs →
      KeptHigh rels vs r.high → Dup2Verdicts (rels ++ [r]) (vs ++ [false])

/-- How the loop may end after the verdicts `vs` about `rels`. -/
def Dup2Ends (K : ℕ) (rels : List AbPair) (vs : List Bool) : Dup2End → Prop
  | .finished _ => vs.length = rels.length
  | .full => vs.length < rels.length ∧ 99 * K ≤ 100 * (vs.count true + 1)

/-- A run of verdicts over the remaining relations. -/
theorem removeDup_run (hK : 0 < K) {done : List AbPair} {vs : List Bool} {s : Dup2State}
    (h : Dup2Inv K done vs s) (hvs : Dup2Verdicts done vs) (rels : List AbPair)
    (hhigh : ∀ r ∈ done ++ rels, r.high ≠ 0)
    (hcard : (classes K (done ++ rels)).card ≤ dup2Cells K) :
    ∃ vs' e, removeDup K s rels = some (vs', e) ∧
      Dup2Verdicts (done ++ rels.take vs'.length) (vs ++ vs') ∧
      Dup2Ends K (done ++ rels) (vs ++ vs') e := by
  induction rels generalizing done vs s with
  | nil =>
    refine ⟨[], .finished s, rfl, ?_, ?_⟩
    · simpa using hvs
    · simpa [Dup2Ends] using h.length
  | cons r rels ih =>
    have hsplit : done ++ r :: rels = (done ++ [r]) ++ rels := by simp
    have hsub : classes K (done ++ [r]) ⊆ classes K (done ++ r :: rels) := by
      intro c hc
      obtain ⟨r', hr', hcell⟩ := mem_classes.mp hc
      exact mem_classes.mpr ⟨r', by rw [hsplit]; exact List.mem_append_left _ hr', hcell⟩
    have hstep := dup2Step_spec hK h (fun r' hr' => hhigh r' (List.mem_append_left _ hr'))
      (hhigh r (List.mem_append_right _ List.mem_cons_self))
      ((Finset.card_le_card hsub).trans hcard)
    rw [hsplit] at hhigh hcard
    rw [removeDup, hsplit]
    rcases hstep with ⟨s', hrun, hinv, hkept⟩ | ⟨s', hrun, hinv, hnew⟩ | ⟨hrun, hfull⟩
    · obtain ⟨vs', e, hloop, hverdicts, hends⟩ := ih hinv (.dropped hvs hkept) hhigh hcard
      refine ⟨false :: vs', e, ?_, ?_, ?_⟩
      · rw [hrun, some_bind]
        dsimp only
        rw [hloop]
        rfl
      · simpa using hverdicts
      · simpa using hends
    · have hhash : ∀ r' ∈ done, r'.hash ≠ r.hash := fun r' hr' heq =>
        hnew (mem_classes.mpr ⟨r', hr', by rw [AbPair.cell, AbPair.cell, AbPair.high, AbPair.high,
          heq]⟩)
      obtain ⟨vs', e, hloop, hverdicts, hends⟩ := ih hinv (.kept hvs hhash) hhigh hcard
      refine ⟨true :: vs', e, ?_, ?_, ?_⟩
      · rw [hrun, some_bind]
        dsimp only
        rw [hloop]
        rfl
      · simpa using hverdicts
      · simpa using hends
    · refine ⟨[], .full, ?_, ?_, ?_⟩
      · rw [hrun]
        rfl
      · simpa using hvs
      · refine ⟨?_, by simpa using hfull⟩
        simp [h.length]

/-- For relations with nonzero high halves and fewer classes than cells, every search ends; what
is kept and dropped is as it should be up to high halves that agree by chance, unless the program
stops because the table is full. -/
theorem removeDup_spec (hK : 0 < K) {rels : List AbPair} (hhigh : ∀ r ∈ rels, r.high ≠ 0)
    (hclasses : (classes K rels).card < min K (2 ^ 32)) :
    ∃ vs e, removeDup K .init rels = some (vs, e) ∧ Dup2Verdicts (rels.take vs.length) vs ∧
      Dup2Ends K rels vs e := by
  obtain ⟨vs, e, hrun, hverdicts, hends⟩ :=
    removeDup_run hK (dup2Inv_init K) .nil rels (by simpa using hhigh)
      (by simpa [dup2Cells] using Nat.le_of_lt hclasses)
  exact ⟨vs, e, hrun, by simpa using hverdicts, by simpa using hends⟩

theorem removeDup_twoRelations :
    ∃ vs e, removeDup 4 .init [⟨1, 11952992241069371389⟩, ⟨1, 2593441469528997281⟩]
        = some (vs, e) ∧
      Dup2Verdicts
        (([⟨1, 11952992241069371389⟩, ⟨1, 2593441469528997281⟩] : List AbPair).take vs.length) vs ∧
      Dup2Ends 4 [⟨1, 11952992241069371389⟩, ⟨1, 2593441469528997281⟩] vs e :=
  removeDup_spec (by decide) (by decide) (by decide)

/-- Two relations with different hashes of which the second is dropped, and a relation that is
dropped although it is the first. -/
theorem not_removeDup_keepsFirst :
    ((removeDup 4 .init [⟨1, 11952992241069371389⟩, ⟨1, 2593441469528997281⟩]).map Prod.fst
        = some [true, false] ∧
      AbPair.hash ⟨1, 11952992241069371389⟩ ≠ AbPair.hash ⟨1, 2593441469528997281⟩ ∧
      (classes 4 [⟨1, 11952992241069371389⟩, ⟨1, 2593441469528997281⟩]).card < 4) ∧
    (removeDup 4 .init [⟨1, 15146174925475067868⟩]).map Prod.fst = some [false] := by
  refine ⟨⟨by decide +kernel, by decide, by decide⟩, by decide +kernel⟩

end CadoNfs
