import Mathlib.Data.List.Count
import CadoNfs.Ecm.Stage2

/-!
# The codes of the stage 2 plan

The last loop of `stage2_make_plan` writes the flagged pairs as codes and clears
their flags.

Main results:

- Theorem `emitStep_spec`: one pair keeps the invariant `EmitInv`.
- Theorem `emitRows_spec`: the codes stand for exactly the pairs with a flagged
  number, and no number up to `B2` keeps its flag.
-/

namespace CadoNfs

/-! ## Decoding -/

theorem decodePairs_append (S1 : List ℕ) (i : ℕ) {codes : List ℕ} (h : nextPass ∉ codes)
    (codes' : List ℕ) :
    decodePairs S1 i (codes ++ codes')
      = decodePairs S1 i codes ++ decodePairs S1 (i + codes.count nextD) codes' := by
  induction codes generalizing i with
  | nil => rfl
  | cons c codes ih =>
    obtain ⟨hc, hcodes⟩ := List.ne_and_not_mem_of_not_mem_cons h
    rw [List.cons_append, decodePairs, decodePairs, if_neg hc.symm, if_neg hc.symm]
    by_cases hd : c = nextD
    · rw [if_pos hd, if_pos hd, ih (i + 1) hcodes, hd, List.count_cons_self,
        add_right_comm, add_assoc i]
    · rw [if_neg hd, if_neg hd, ih i hcodes, List.count_cons_of_ne hd, List.cons_append]

theorem decodePairs_pair (S1 : List ℕ) (i n : ℕ) {m : ℕ} (hm : m < nextD) :
    decodePairs S1 i (List.replicate n nextD ++ [m]) = [(i + n, S1.getD m 0)] := by
  have hpass : m ≠ nextPass := by unfold nextD nextPass at *; omega
  induction n generalizing i with
  | zero => simp [decodePairs, hpass, hm.ne]
  | succ n ih =>
    rw [List.replicate_succ, List.cons_append, decodePairs, if_neg (by decide), if_pos rfl, ih,
      add_right_comm, add_assoc]

/-! ## The invariant -/

/-- The step `(i, m)` comes before the step `(row, code)`. -/
def StepBefore (i m row code : ℕ) : Prop :=
  i < row ∨ i = row ∧ m < code

/-- What holds before the step `(row, code)`, for an array `initial` and the
first row `minI`. -/
structure EmitInv (initial : Primes) (B2 minI row code : ℕ) (state : EmitState) : Prop where
  /-- Flags are only cleared. -/
  mono : ∀ x, state.primes x = true → initial x = true
  /-- The numbers of the steps to come are untouched. -/
  later : ∀ i m, m < stage2S1.length → ¬StepBefore i m row code →
    ∀ x, RowEntry i (stage2S1.getD m 0) x → state.primes x = initial x
  /-- The numbers of the steps done are cleared. -/
  gone : ∀ i m, m < stage2S1.length → minI ≤ i → StepBefore i m row code →
    ∀ x, RowEntry i (stage2S1.getD m 0) x → x ≤ B2 → state.primes x = false
  /-- The codes stand for the flagged pairs of the steps done. -/
  encoded : ∀ i j, (i, j) ∈ decodePairs stage2S1 minI state.pairs ↔
    ∃ m < stage2S1.length, j = stage2S1.getD m 0 ∧ minI ≤ i ∧ StepBefore i m row code ∧
      rowFlag initial i j = true
  /-- The codes written and due lead to the row. -/
  row_eq : minI + state.pairs.count nextD + state.needNextD = row
  /-- The end is not written yet. -/
  noPass : nextPass ∉ state.pairs

theorem stage2S1_length : stage2S1.length = 24 := by
  decide

theorem stage2S1_getD_mem {m : ℕ} (hm : m < stage2S1.length) :
    stage2S1.getD m 0 ∈ stage2S1 := by
  have htable : ∀ m < 24, stage2S1.getD m 0 ∈ stage2S1 := by decide
  rw [stage2S1_length] at hm
  exact htable m hm

theorem stage2S1_getD_injective {m m' : ℕ} (hm : m < stage2S1.length)
    (hm' : m' < stage2S1.length) (h : stage2S1.getD m 0 = stage2S1.getD m' 0) : m = m' := by
  have htable : ∀ m < 24, ∀ m' < 24, stage2S1.getD m 0 = stage2S1.getD m' 0 → m = m' := by
    decide
  rw [stage2S1_length] at hm hm'
  exact htable m hm m' hm' h

variable (primes : Primes)

theorem rowFlag_iff (i j : ℕ) :
    rowFlag primes i j = true ↔ ∃ x, RowEntry i j x ∧ primes x = true := by
  unfold rowFlag RowEntry
  simp only [ge_iff_le, Bool.or_eq_true, Bool.and_eq_true, decide_eq_true_eq]
  constructor
  · rintro (⟨hle, hflag⟩ | hflag)
    · exact ⟨_, Or.inl (by omega), hflag⟩
    · exact ⟨_, Or.inr (by push_cast; rfl), hflag⟩
  · rintro ⟨x, hx | hx, hflag⟩
    · have hxe : x = i * stage2D - j := by omega
      rw [hxe] at hflag
      exact Or.inl ⟨by omega, hflag⟩
    · have hxe : x = i * stage2D + j := by omega
      rw [hxe] at hflag
      exact Or.inr hflag

theorem Primes.clear_of_ne {r x : ℕ} (h : x ≠ r) : primes.clear r x = primes x := by
  simp [Primes.clear, h]

theorem Primes.clear_self (r : ℕ) : primes.clear r r = false := by
  simp [Primes.clear]

theorem Primes.clear_mono {primes : Primes} {r x : ℕ} (h : primes.clear r x = true) :
    primes x = true := by
  by_cases hx : x = r
  · rw [hx, Primes.clear_self] at h
    cases h
  · rwa [Primes.clear_of_ne primes hx] at h

theorem clear_if_spec (c : Prop) [Decidable c] (r x : ℕ) :
    ((if c then primes.clear r else primes) x = true → primes x = true) ∧
      ((c → x ≠ r) → (if c then primes.clear r else primes) x = primes x) ∧
      (c → x = r → (if c then primes.clear r else primes) x = false) := by
  by_cases hc : c
  · rw [if_pos hc]
    refine ⟨Primes.clear_mono, fun h => Primes.clear_of_ne primes (h hc), ?_⟩
    rintro - rfl
    exact Primes.clear_self primes x
  · rw [if_neg hc]
    exact ⟨id, fun _ => rfl, fun h => absurd h hc⟩

theorem clearPair_spec (B2 i j : ℕ) (primes : Primes) (x : ℕ) :
    (clearPair B2 i j primes x = true → primes x = true) ∧
      (¬RowEntry i j x → clearPair B2 i j primes x = primes x) ∧
      (RowEntry i j x → x ≤ B2 → clearPair B2 i j primes x = false) := by
  obtain ⟨hmono, hkeep, hclear⟩ :=
    clear_if_spec primes (i * stage2D ≥ j) (i * stage2D - j) x
  obtain ⟨hmono', hkeep', hclear'⟩ :=
    clear_if_spec (if i * stage2D ≥ j then primes.clear (i * stage2D - j) else primes)
      (i * stage2D + j ≤ B2) (i * stage2D + j) x
  unfold clearPair RowEntry
  refine ⟨fun h => hmono (hmono' h), fun hrow => ?_, fun hrow hx => ?_⟩
  · rw [hkeep' (by intro _ hx; exact hrow (Or.inr (by omega))),
      hkeep (by intro _ hx; exact hrow (Or.inl (by omega)))]
  · rcases hrow with hrow | hrow
    · have hlow := hclear (by omega) (by omega)
      cases hflag : (if i * stage2D + j ≤ B2 then
          (if i * stage2D ≥ j then primes.clear (i * stage2D - j) else primes).clear
            (i * stage2D + j)
          else if i * stage2D ≥ j then primes.clear (i * stage2D - j) else primes) x with
      | false => rfl
      | true => rw [hmono' hflag] at hlow; exact hlow
    · exact hclear' (by omega) (by omega)

/-! ## One step -/

theorem not_rowEntry_of_step {i m i' m' x : ℕ} (hm : m < stage2S1.length)
    (hm' : m' < stage2S1.length) (hne : ¬(i = i' ∧ m = m'))
    (hx : RowEntry i (stage2S1.getD m 0) x) : ¬RowEntry i' (stage2S1.getD m' 0) x := by
  intro hx'
  obtain ⟨hi, hj⟩ :=
    hx.unique (stage2S1_getD_mem hm) (stage2S1_getD_mem hm') hx'
  exact hne ⟨hi, stage2S1_getD_injective hm hm' hj⟩

/-- One pair keeps the invariant. -/
theorem emitStep_spec {initial : Primes} {B2 minI row code : ℕ} {state : EmitState}
    (hstate : EmitInv initial B2 minI row code state) (hcode : code < stage2S1.length)
    (hrow : minI ≤ row) :
    EmitInv initial B2 minI row (code + 1) (emitStep B2 row state code) := by
  have hlater := hstate.later row code hcode (by unfold StepBefore; omega)
  have hflag : rowFlag state.primes row (stage2S1.getD code 0)
      = rowFlag initial row (stage2S1.getD code 0) := by
    rw [Bool.eq_iff_iff, rowFlag_iff, rowFlag_iff]
    constructor
    · rintro ⟨x, hx, h⟩
      exact ⟨x, hx, by rw [← hlater x hx]; exact h⟩
    · rintro ⟨x, hx, h⟩
      exact ⟨x, hx, by rw [hlater x hx]; exact h⟩
  have hbefore : ∀ i m,
      StepBefore i m row (code + 1) ↔ StepBefore i m row code ∨ (i = row ∧ m = code) := by
    intro i m
    unfold StepBefore
    omega
  by_cases h : rowFlag initial row (stage2S1.getD code 0) = true
  · have hstep : emitStep B2 row state code
        = ⟨clearPair B2 row (stage2S1.getD code 0) state.primes, 0,
          state.pairs ++ (List.replicate state.needNextD nextD ++ [code])⟩ := by
      rw [emitStep, if_pos (by rw [hflag]; exact h), List.append_assoc]
    have hclear := clearPair_spec B2 row (stage2S1.getD code 0) state.primes
    have hcode' : code < nextD := by rw [stage2S1_length] at hcode; unfold nextD; omega
    rw [hstep]
    constructor
    · exact fun x hx => hstate.mono x ((hclear x).1 hx)
    · intro i m hm hnot x hx
      rw [hbefore, not_or] at hnot
      simp only
      rw [(hclear x).2.1 (not_rowEntry_of_step hm hcode hnot.2 hx)]
      exact hstate.later i m hm hnot.1 x hx
    · intro i m hm hi hdone x hx hle
      rcases (hbefore i m).mp hdone with hdone | ⟨rfl, rfl⟩
      · have hgone := hstate.gone i m hm hi hdone x hx hle
        rw [← Bool.not_eq_true] at hgone ⊢
        exact fun hx => hgone ((hclear x).1 hx)
      · exact (hclear x).2.2 hx hle
    · intro i j
      simp only
      rw [decodePairs_append _ _ hstate.noPass, decodePairs_pair _ _ _ hcode', hstate.row_eq,
        List.mem_append, List.mem_singleton, hstate.encoded]
      constructor
      · rintro (⟨m, hm, hj, hi, hdone, hrowflag⟩ | hlast)
        · exact ⟨m, hm, hj, hi, (hbefore i m).mpr (Or.inl hdone), hrowflag⟩
        · obtain ⟨rfl, rfl⟩ := Prod.mk.inj hlast
          exact ⟨code, hcode, rfl, hrow, (hbefore i code).mpr (Or.inr ⟨rfl, rfl⟩), h⟩
      · rintro ⟨m, hm, hj, hi, hdone, hrowflag⟩
        rcases (hbefore i m).mp hdone with hdone | ⟨rfl, rfl⟩
        · exact Or.inl ⟨m, hm, hj, hi, hdone, hrowflag⟩
        · exact Or.inr (by rw [hj])
    · have hne : code ≠ nextD := hcode'.ne
      have hrow_eq := hstate.row_eq
      simp only [List.count_append, List.count_replicate_self, List.count_singleton,
        beq_iff_eq, hne, if_false]
      omega
    · have hne : nextPass ≠ code := by unfold nextD nextPass at *; omega
      simp only [List.mem_append, List.mem_replicate, List.mem_singleton, not_or]
      exact ⟨hstate.noPass, fun hmem => absurd hmem.2 (by decide), hne⟩
  · have hstep : emitStep B2 row state code = state := by
      rw [emitStep, if_neg (by rw [hflag]; exact h)]
    rw [hstep]
    constructor
    · exact hstate.mono
    · intro i m hm hnot
      rw [hbefore, not_or] at hnot
      exact hstate.later i m hm hnot.1
    · intro i m hm hi hdone x hx hle
      rcases (hbefore i m).mp hdone with hdone | ⟨rfl, rfl⟩
      · exact hstate.gone i m hm hi hdone x hx hle
      · rw [← Bool.not_eq_true]
        intro hflagged
        exact h ((rowFlag_iff initial i _).mpr ⟨x, hx, hstate.mono x hflagged⟩)
    · intro i j
      rw [hstate.encoded]
      constructor
      · rintro ⟨m, hm, hj, hi, hdone, hrowflag⟩
        exact ⟨m, hm, hj, hi, (hbefore i m).mpr (Or.inl hdone), hrowflag⟩
      · rintro ⟨m, hm, hj, hi, hdone, hrowflag⟩
        rcases (hbefore i m).mp hdone with hdone | ⟨rfl, rfl⟩
        · exact ⟨m, hm, hj, hi, hdone, hrowflag⟩
        · rw [hj] at hrowflag
          exact absurd hrowflag h
    · exact hstate.row_eq
    · exact hstate.noPass

/-! ## All rows -/

/-- One row emits its pairs and no flag is lost. -/
theorem emitRow_spec {initial : Primes} {B2 minI row : ℕ} {state : EmitState}
    (hstate : EmitInv initial B2 minI row 0 state) (hrow : minI ≤ row) :
    EmitInv initial B2 minI (row + 1) 0 (emitRow B2 state row) := by
  have hcodes : ∀ n ≤ stage2S1.length,
      EmitInv initial B2 minI row n ((List.range n).foldl (emitStep B2 row) state) := by
    intro n
    induction n with
    | zero => exact fun _ => hstate
    | succ n ih =>
      intro hn
      rw [List.range_succ, List.foldl_append, List.foldl_cons, List.foldl_nil]
      exact emitStep_spec (ih (by omega)) (by omega) hrow
  have hlast := hcodes stage2S1.length le_rfl
  have hbefore : ∀ i m, m < stage2S1.length →
      (StepBefore i m (row + 1) 0 ↔ StepBefore i m row stage2S1.length) := by
    intro i m hm
    unfold StepBefore
    omega
  constructor
  · exact hlast.mono
  · intro i m hm hnot
    rw [hbefore i m hm] at hnot
    exact hlast.later i m hm hnot
  · intro i m hm hi hdone
    rw [hbefore i m hm] at hdone
    exact hlast.gone i m hm hi hdone
  · intro i j
    refine (hlast.encoded i j).trans (exists_congr fun m => ?_)
    constructor
    · rintro ⟨hm, hj, hi, hdone, hrowflag⟩
      exact ⟨hm, hj, hi, (hbefore i m hm).mpr hdone, hrowflag⟩
    · rintro ⟨hm, hj, hi, hdone, hrowflag⟩
      exact ⟨hm, hj, hi, (hbefore i m hm).mp hdone, hrowflag⟩
  · have hrow_eq := hlast.row_eq
    unfold emitRow
    simp only
    omega
  · exact hlast.noPass

theorem emitRows_inv (initial : Primes) (B2 minI rows : ℕ) :
    EmitInv initial B2 minI (minI + rows) 0
      ((List.range' minI rows).foldl (emitRow B2) ⟨initial, 0, []⟩) := by
  induction rows with
  | zero =>
    constructor
    · exact fun x hx => hx
    · exact fun _ _ _ _ _ _ => rfl
    · intro i m hm hi hdone
      unfold StepBefore at hdone
      omega
    · intro i j
      simp only [List.range'_zero, List.foldl_nil, decodePairs, List.not_mem_nil, false_iff]
      rintro ⟨m, -, -, hi, hdone, -⟩
      unfold StepBefore at hdone
      omega
    · rfl
    · simp
  | succ rows ih =>
    rw [List.range'_concat, List.foldl_append, List.foldl_cons, List.foldl_nil]
    simpa only [one_mul, add_assoc] using emitRow_spec ih (Nat.le_add_right _ _)

/-- The codes stand for exactly the pairs with a flagged number, and no number up to
`B2` in the rows keeps its flag. -/
theorem emitRows_spec (initial : Primes) (B2 minI rows : ℕ) :
    (∀ i j, (i, j) ∈ decodePairs stage2S1 minI
        ((emitRows B2 minI (minI + rows) initial).pairs ++ [nextPass]) ↔
      minI ≤ i ∧ i ≤ minI + rows ∧ j ∈ stage2S1 ∧ rowFlag initial i j = true) ∧
    (∀ x, (emitRows B2 minI (minI + rows) initial).primes x = true → initial x = true) ∧
    ∀ i j x, minI ≤ i → i ≤ minI + rows → j ∈ stage2S1 → RowEntry i j x → x ≤ B2 →
      (emitRows B2 minI (minI + rows) initial).primes x = false := by
  have hlast := emitRows_inv initial B2 minI (rows + 1)
  have hlen : minI + rows + 1 - minI = rows + 1 := by omega
  have hmem : ∀ j, j ∈ stage2S1 ↔ ∃ m < stage2S1.length, j = stage2S1.getD m 0 := by
    intro j
    constructor
    · intro hj
      obtain ⟨m, hm, hget⟩ := List.mem_iff_getElem.mp hj
      exact ⟨m, hm, by simp [hm, hget]⟩
    · rintro ⟨m, hm, rfl⟩
      exact stage2S1_getD_mem hm
  unfold emitRows
  rw [hlen]
  refine ⟨?_, hlast.mono, ?_⟩
  · intro i j
    rw [decodePairs_append _ _ hlast.noPass, List.mem_append, hlast.encoded]
    have hend : decodePairs stage2S1 (minI + List.count nextD
        ((List.range' minI (rows + 1)).foldl (emitRow B2) ⟨initial, 0, []⟩).pairs)
        [nextPass] = [] := by
      rw [decodePairs, if_pos rfl]
    rw [hend, hmem]
    constructor
    · rintro (⟨m, hm, hj, hi, hdone, hrowflag⟩ | hnil)
      · unfold StepBefore at hdone
        exact ⟨hi, by omega, ⟨m, hm, hj⟩, hrowflag⟩
      · cases hnil
    · rintro ⟨hi, hle, ⟨m, hm, hj⟩, hrowflag⟩
      exact Or.inl ⟨m, hm, hj, hi, Or.inl (by omega), hrowflag⟩
  · intro i j x hi hle hj hx hB2
    obtain ⟨m, hm, rfl⟩ := (hmem j).mp hj
    exact hlast.gone i m hm hi (Or.inl (by omega)) x hx hB2

end CadoNfs
