import CadoNfs.Ecm.Stage2Cover
import Mathlib.Algebra.BigOperators.Intervals
import Mathlib.Algebra.Order.BigOperators.Group.Finset

/-!
# The size of the stage 2 plan

`stage2_make_plan` allocates one code for each prime, one for each multiple of `d` in
the length of the interval, and one for the end.  It writes one code for each pair, one for each
row from the first that is used to the last, and one for the end.

Main results:

- Theorem `compositePairing_count`: the passes do not add flags.
- Theorem `emitRows_codes`: what the last loop writes.
- Theorem `stage2Plan_overlay`: the array is not used beyond its size.
- Theorem `stage2MakePlan_fits`: when the codes fit.
-/

namespace CadoNfs

open Finset
open List (any_eq_true foldl_cons forall_mem_cons length_append mem_range'_1 range')

/-! ## The number of flags -/

section Count

variable {primes : Primes} {N lo hi r : ℕ} {drops : Primes → ℕ × ℕ → Option (ℕ × ℕ)}
  {steps : List (ℕ × ℕ)}

/-- The flagged numbers below `N`. -/
def Primes.flagged (primes : Primes) (N : ℕ) : Finset ℕ :=
  (range N).filter fun x => primes x = true

theorem Primes.mem_flagged {x : ℕ} :
    x ∈ primes.flagged N ↔ x < N ∧ primes x = true := by
  rw [Primes.flagged, mem_filter, mem_range]

theorem flagged_pass1 (ps : List ℕ) :
    ((ps.foldl pass1Step primes).flagged N).card ≤ (primes.flagged N).card := by
  refine card_le_card fun x hx => ?_
  rw [Primes.mem_flagged] at hx ⊢
  exact ⟨hx.1, foldl_pass1Step_mono hx.2⟩

theorem flagged_takePair (hdrops : DropsDivisors drops)
    (hprimes : ∀ x, primes x = true → x < N) (step : ℕ × ℕ) :
    ((takePair primes step (drops primes step)).flagged N).card ≤ (primes.flagged N).card := by
  cases hcase : drops primes step with
  | none => exact le_rfl
  | some rs =>
    obtain ⟨r1, r2⟩ := rs
    obtain ⟨h1, h2, hne⟩ := hdrops primes step r1 r2 hcase
    obtain ⟨r, hr, hflag⟩ : ∃ r, (r = r1 ∨ r = r2) ∧ primes r = true := by
      rcases hne with hne | hne
      · exact ⟨r1, Or.inl rfl, (h1 hne).2⟩
      · exact ⟨r2, Or.inr rfl, (h2 hne).2⟩
    have hsub : (takePair primes step (some (r1, r2))).flagged N
        ⊆ (insert (lowerOf step) (primes.flagged N)).erase r := by
      intro x hx
      obtain ⟨hxN, hx⟩ := Primes.mem_flagged.mp hx
      rw [takePair_apply] at hx
      split_ifs at hx with hx2 hx1 hlower
      · refine mem_erase.mpr ⟨?_, mem_insert.mpr (Or.inl hlower)⟩
        rcases hr with rfl | rfl <;> assumption
      · refine mem_erase.mpr ⟨?_, mem_insert.mpr (Or.inr (Primes.mem_flagged.mpr ⟨hxN, hx⟩))⟩
        rcases hr with rfl | rfl <;> assumption
    have hmem : r ∈ insert (lowerOf step) (primes.flagged N) :=
      mem_insert.mpr (Or.inr (Primes.mem_flagged.mpr ⟨hprimes r hflag, hflag⟩))
    have hinsert := card_insert_le (lowerOf step) (primes.flagged N)
    have hcard := card_le_card hsub
    rw [card_erase_of_mem hmem] at hcard
    omega

theorem ValidEntry.lt {x : ℕ} (h : ValidEntry lo hi x) : x < hi * stage2D + stage2D / 2 := by
  obtain ⟨i, j, -, hi, hj, hx⟩ := h
  have hbounds := stage2S1_bounds hj
  have hmul := Nat.mul_le_mul_right stage2D hi
  unfold RowEntry stage2D at *
  omega

theorem flagged_foldl_takePair (hdrops : DropsDivisors drops)
    (hprimes : ∀ x, primes x = true → ValidEntry lo hi x)
    (hsteps : ∀ step ∈ steps, lo ≤ step.1 ∧ 0 < step.1 ∧ step.1 ≤ hi ∧ step.2 ∈ stage2S1)
    (hN : hi * stage2D + stage2D / 2 ≤ N) :
    ((steps.foldl (fun primes step => takePair primes step (drops primes step)) primes).flagged
      N).card ≤ (primes.flagged N).card := by
  induction steps generalizing primes with
  | nil => exact le_rfl
  | cons step steps ih =>
    obtain ⟨hstep, hsteps⟩ := forall_mem_cons.mp hsteps
    have hvalid : ∀ x, takePair primes step (drops primes step) x = true → ValidEntry lo hi x :=
      @takePair_valid _ _ drops primes hprimes [step] (by simpa using hstep)
    exact (ih hvalid hsteps).trans
      (flagged_takePair hdrops (fun x hx => (hprimes x hx).lt.trans_le hN) step)

/-- The passes do not add flags. -/
theorem compositePairing_count {B2 maxI minI : ℕ}
    (hprimes : ∀ x, primes x = true → ValidEntry minI maxI x)
    (hN : maxI * stage2D + stage2D / 2 ≤ N) :
    ((compositePairing B2 maxI minI primes).flagged N).card ≤ (primes.flagged N).card := by
  have hsteps : ∀ step ∈ passSteps maxI minI,
      minI ≤ step.1 ∧ 0 < step.1 ∧ step.1 ≤ maxI ∧ step.2 ∈ stage2S1 := fun _ h => mem_passSteps h
  have hpass1 : ∀ x, (downFrom B2 (pass1Bound maxI)).foldl pass1Step primes x = true →
      ValidEntry minI maxI x := fun x hx => hprimes x (foldl_pass1Step_mono hx)
  have hpass2 := @takePair_valid _ _ pass2Drops _ hpass1 _ hsteps
  exact (flagged_foldl_takePair pass3Drops_divisors hpass2 hsteps hN).trans
    ((flagged_foldl_takePair pass2Drops_divisors hpass1 hsteps hN).trans (flagged_pass1 _))

end Count

/-! ## The codes that are written -/

section Codes

variable {initial : Primes} {B2 minI row : ℕ} {state : EmitState}

/-- The codes of the pairs of row `i` that have a flagged number. -/
def rowCodes (primes : Primes) (i : ℕ) : List ℕ :=
  (List.range stage2S1.length).filter fun m => rowFlag primes i (stage2S1.getD m 0)

/-- The number of pairs with a flagged number in the rows from `lo` to `hi`. -/
def pairCount (primes : Primes) (lo hi : ℕ) : ℕ :=
  ∑ i ∈ Icc lo hi, (rowCodes primes i).length

theorem rowCodes_ne_nil {primes : Primes} {i : ℕ} :
    rowCodes primes i ≠ [] ↔ rowUsed primes i = true := by
  rw [rowCodes, Ne, List.filter_eq_nil_iff, rowUsed, any_eq_true]
  push Not
  constructor
  · rintro ⟨m, hm, hflag⟩
    exact ⟨_, stage2S1_getD_mem (List.mem_range.mp hm), hflag⟩
  · rintro ⟨j, hj, hflag⟩
    obtain ⟨m, hm, rfl⟩ := List.mem_iff_getElem.mp hj
    refine ⟨m, List.mem_range.mpr hm, ?_⟩
    simpa [List.getD, hm] using hflag

theorem EmitInv.rowFlag_eq {code : ℕ} (h : EmitInv initial B2 minI row code state)
    (hcode : code < stage2S1.length) :
    rowFlag state.primes row (stage2S1.getD code 0)
      = rowFlag initial row (stage2S1.getD code 0) := by
  have hlater := h.later row code hcode (by unfold StepBefore; omega)
  rw [Bool.eq_iff_iff, rowFlag_iff, rowFlag_iff]
  refine exists_congr fun x => and_congr_right fun hx => ?_
  rw [hlater x hx]

/-- The codes of one row, after the advances that were due. -/
theorem emitRow_codes (h : EmitInv initial B2 minI row 0 state) (hrow : minI ≤ row) :
    (emitRow B2 state row).pairs = (if rowCodes initial row = [] then state.pairs
      else state.pairs ++ List.replicate state.needNextD nextD ++ rowCodes initial row) ∧
    (emitRow B2 state row).needNextD
      = (if rowCodes initial row = [] then state.needNextD else 0) + 1 := by
  have hcodes : ∀ n ≤ stage2S1.length,
      let codes := (List.range n).filter fun m => rowFlag initial row (stage2S1.getD m 0)
      let state' := (List.range n).foldl (emitStep B2 row) state
      EmitInv initial B2 minI row n state' ∧
      state'.pairs = (if codes = [] then state.pairs
        else state.pairs ++ List.replicate state.needNextD nextD ++ codes) ∧
      state'.needNextD = if codes = [] then state.needNextD else 0 := by
    intro n
    induction n with
    | zero => exact fun _ => ⟨h, rfl, rfl⟩
    | succ n ih =>
      intro hn
      obtain ⟨hinv, hpairs, hneed⟩ := ih (by omega)
      simp only [List.range_succ, List.foldl_append, foldl_cons, List.foldl_nil, List.filter_append]
      refine ⟨emitStep_spec hinv (by omega) hrow, ?_⟩
      rw [emitStep, hinv.rowFlag_eq (by omega)]
      by_cases hflag : rowFlag initial row (stage2S1.getD n 0) = true
      · simp only [hflag, if_true, List.filter_cons_of_pos, List.filter_nil, hpairs, hneed]
        split_ifs with hnil hcons hcons
        · simp at hcons
        · rw [hnil]
          simp
        · simp at hcons
        · simp
      · simp only [hflag, Bool.false_eq_true, if_false, List.filter_cons_of_neg, not_false_eq_true,
          List.filter_nil, List.append_nil, hpairs, hneed, and_self]
  obtain ⟨-, hpairs, hneed⟩ := hcodes _ le_rfl
  exact ⟨hpairs, congrArg (· + 1) hneed⟩

/-- What is known of the codes before row `row`. -/
structure RowsCodes (initial : Primes) (minI row : ℕ) (state : EmitState) : Prop where
  length_eq : state.pairs.length
    = state.pairs.count nextD + ∑ i ∈ Ico minI row, (rowCodes initial i).length
  last : state.pairs ≠ [] → minI + state.pairs.count nextD < row ∧
    rowUsed initial (minI + state.pairs.count nextD) = true
  unused : ∀ i, minI ≤ i → i < row → minI + state.pairs.count nextD < i ∨ state.pairs = [] →
    rowUsed initial i = false

/-- One more row appends its codes. -/
theorem RowsCodes.emitRow (hcodes : RowsCodes initial minI row state)
    (h : EmitInv initial B2 minI row 0 state) (hrow : minI ≤ row) :
    RowsCodes initial minI (row + 1) (emitRow B2 state row) := by
  obtain ⟨hpairs, -⟩ := emitRow_codes h hrow
  have hsum := sum_Ico_succ_top hrow fun i => (rowCodes initial i).length
  by_cases hnil : rowCodes initial row = []
  · rw [if_pos hnil] at hpairs
    have hunused : rowUsed initial row = false := by
      rw [← Bool.not_eq_true, ← rowCodes_ne_nil]
      exact not_not.mpr hnil
    refine ⟨?_, fun hne => ?_, fun i hi hlt hlast => ?_⟩
    · rw [hpairs, hsum, hnil, hcodes.length_eq]
      rfl
    · rw [hpairs] at hne ⊢
      exact ⟨(hcodes.last hne).1.trans (Nat.lt_succ_self row), (hcodes.last hne).2⟩
    · rw [hpairs] at hlast
      rcases Nat.lt_succ_iff_lt_or_eq.mp hlt with hlt | rfl
      · exact hcodes.unused i hi hlt hlast
      · exact hunused
  · rw [if_neg hnil] at hpairs
    have hcount : (rowCodes initial row).count nextD = 0 := by
      refine List.count_eq_zero.mpr fun hmem => ?_
      have hlt := List.mem_range.mp (List.mem_of_mem_filter hmem)
      rw [stage2S1_length] at hlt
      exact absurd hlt (by decide)
    have hnext : minI + (state.pairs.count nextD + state.needNextD) = row := by
      have hrow_eq := h.row_eq
      omega
    have hcount' : (CadoNfs.emitRow B2 state row).pairs.count nextD
        = state.pairs.count nextD + state.needNextD := by
      rw [hpairs, List.count_append, List.count_append, List.count_replicate_self, hcount, add_zero]
    refine ⟨?_, fun _ => ?_, fun i hi hlt hlast => ?_⟩
    · rw [hcount', hsum, hpairs, length_append, length_append, List.length_replicate,
        hcodes.length_eq]
      omega
    · rw [hcount', hnext]
      exact ⟨Nat.lt_succ_self row, rowCodes_ne_nil.mp hnil⟩
    · rw [hcount', hnext] at hlast
      rcases hlast with hlast | hlast
      · omega
      · rw [hpairs] at hlast
        simp [hnil] at hlast

/-- The codes for all rows. -/
theorem emitRows_codes (initial : Primes) (B2 minI rows : ℕ) :
    RowsCodes initial minI (minI + rows)
      ((range' minI rows).foldl (CadoNfs.emitRow B2) ⟨initial, 0, []⟩) := by
  induction rows with
  | zero => exact ⟨by simp, fun hne => absurd rfl hne, fun i hi hlt => by omega⟩
  | succ rows ih =>
    rw [List.range'_concat, List.foldl_append, foldl_cons, List.foldl_nil]
    simpa only [one_mul, add_assoc] using
      ih.emitRow (emitRows_inv initial B2 minI rows) (Nat.le_add_right _ _)

theorem RowEntry.firstRow_eq {i j x : ℕ} (hj : j ∈ stage2S1) (hx : RowEntry i j x) :
    firstRow x = i := by
  have hbounds := stage2S1_bounds hj
  unfold RowEntry stage2D at hx
  unfold firstRow stage2D
  omega

theorem length_rowCodes_le {primes : Primes} {N i : ℕ}
    (hN : i * stage2D + stage2D / 2 ≤ N) :
    (rowCodes primes i).length ≤ ((primes.flagged N).filter fun x => firstRow x = i).card := by
  have hnodup : (rowCodes primes i).Nodup := List.nodup_range.filter _
  rw [← List.toFinset_card_of_nodup hnodup]
  have hchoice : ∀ m ∈ (rowCodes primes i).toFinset, ∃ x,
      RowEntry i (stage2S1.getD m 0) x ∧ primes x = true := fun m hm =>
    (rowFlag_iff primes i _).mp (List.mem_filter.mp (List.mem_toFinset.mp hm)).2
  have hcode : ∀ m ∈ (rowCodes primes i).toFinset, m < stage2S1.length := fun m hm =>
    List.mem_range.mp (List.mem_filter.mp (List.mem_toFinset.mp hm)).1
  choose! x hx hflag using hchoice
  refine card_le_card_of_injOn x (fun m hm => ?_) fun m hm m' hm' heq => ?_
  · have hj := stage2S1_getD_mem (hcode m hm)
    have hentry : ValidEntry 0 i (x m) := ⟨i, _, Nat.zero_le _, le_rfl, hj, hx m hm⟩
    exact mem_filter.mpr ⟨Primes.mem_flagged.mpr ⟨hentry.lt.trans_le hN, hflag m hm⟩,
      (hx m hm).firstRow_eq hj⟩
  · have hx' : RowEntry i (stage2S1.getD m' 0) (x m) := heq ▸ hx m' hm'
    obtain ⟨-, hj⟩ := (hx m hm).unique (stage2S1_getD_mem (hcode m hm))
      (stage2S1_getD_mem (hcode m' hm')) hx'
    exact stage2S1_getD_injective (hcode m hm) (hcode m' hm') hj

theorem pairCount_le {primes : Primes} {N lo hi : ℕ} (hN : hi * stage2D + stage2D / 2 ≤ N) :
    pairCount primes lo hi ≤ (primes.flagged N).card := by
  have hrow : ∀ i ∈ Icc lo hi, (rowCodes primes i).length
      ≤ ((primes.flagged N).filter fun x => firstRow x = i).card := fun i hi => by
    refine length_rowCodes_le (le_trans ?_ hN)
    exact Nat.add_le_add_right (Nat.mul_le_mul_right _ (mem_Icc.mp hi).2) _
  calc pairCount primes lo hi
      ≤ ∑ i ∈ Icc lo hi, ((primes.flagged N).filter fun x => firstRow x = i).card :=
        sum_le_sum hrow
    _ = ((primes.flagged N).filter fun x => firstRow x ∈ Icc lo hi).card :=
        sum_card_fiberwise_eq_card_filter _ _ _
    _ ≤ (primes.flagged N).card := card_filter_le _ _

end Codes

/-! ## The size of the array -/

/-- The array `primes` in a memory that holds `junk` from `N` on. -/
def Primes.overlay (N : ℕ) (junk : ℕ → Bool) (primes : Primes) : Primes :=
  ⟨fun x => if x < N then primes x else junk x⟩

section Overlay

variable {primes : Primes} {N f fuel p n minF i j r hi B2 : ℕ} {junk : ℕ → Bool}

theorem overlay_of_lt (h : p < N) : primes.overlay N junk p = primes p :=
  if_pos h

theorem clear_overlay (h : r < N) :
    (primes.overlay N junk).clear r = (primes.clear r).overlay N junk := by
  refine Primes.ext (funext fun x => ?_)
  simp only [Primes.clear, Primes.overlay, Function.update_apply]
  by_cases hx : x = r
  · simp [hx, h]
  · simp [hx]

theorem set_overlay (h : r < N) :
    (primes.overlay N junk).set r = (primes.set r).overlay N junk := by
  refine Primes.ext (funext fun x => ?_)
  simp only [Primes.set, Primes.overlay, Function.update_apply]
  by_cases hx : x = r
  · simp [hx, h]
  · simp [hx]

theorem divideOut_overlay (h : p < N) :
    divideOut (primes.overlay N junk) f fuel p = divideOut primes f fuel p := by
  induction fuel generalizing p with
  | zero => rfl
  | succ fuel ih =>
    have hdiv : p / f < N := (Nat.div_le_self p f).trans_lt h
    simp [divideOut, overlay_of_lt hdiv, ih hdiv]

theorem findPrimeDivLoop_overlay (junk : ℕ → Bool) (h : p < N) :
    findPrimeDivLoop (primes.overlay N junk) fuel f p = findPrimeDivLoop primes fuel f p ∧
      findPrimeDivLoop primes fuel f p ≤ p := by
  induction fuel generalizing f p with
  | zero => exact ⟨rfl, Nat.zero_le _⟩
  | succ fuel ih =>
    obtain ⟨-, hle, -⟩ := divideOut_spec primes f p p
    obtain ⟨heq, hle'⟩ := ih (f := f + 2) (hle.trans_lt h)
    simp only [findPrimeDivLoop, divideOut_overlay h, overlay_of_lt h, heq, true_and]
    split_ifs
    · exact hle
    · exact hle'.trans hle
    · exact le_rfl
    · exact Nat.zero_le _

theorem findPrimeDiv_overlay (minF : ℕ) (primes : Primes) (junk : ℕ → Bool) (h : n < N) :
    findPrimeDiv n minF (primes.overlay N junk) = findPrimeDiv n minF primes ∧
      findPrimeDiv n minF primes < N :=
  ⟨(findPrimeDivLoop_overlay junk h).1, (findPrimeDivLoop_overlay junk h).2.trans_lt h⟩

theorem pass1Step_overlay (hp : p ≤ B2) (hN : N = firstRow B2 * stage2D + stage2D / 2) :
    pass1Step (primes.overlay N junk) p = (pass1Step primes p).overlay N junk := by
  have hpN : p < N := by
    unfold firstRow stage2D at hN
    omega
  have hdrop : pass1Drop (primes.overlay N junk) p = pass1Drop primes p ∧
      pass1Drop primes p < N := by
    simp only [pass1Drop, overlay_of_lt hpN]
    by_cases hneg : asInt p < 2 * signedResidue p
    · simp only [if_pos hneg, true_and]
      split_ifs <;> omega
    · have hq : ((asInt p - 2 * signedResidue p) % 2 ^ 32).toNat < N := by
        unfold firstRow stage2D at hN
        unfold asInt signedResidue stage2D at hneg ⊢
        simp only at hneg ⊢
        split_ifs at hneg ⊢ <;> omega
      obtain ⟨hfind, hlt⟩ := findPrimeDiv_overlay notInD primes junk hq
      simp only [if_neg hneg, overlay_of_lt hq, hfind, true_and]
      split_ifs <;> omega
  simp only [pass1Step, hdrop.1]
  split_ifs
  · exact clear_overlay hdrop.2
  · rfl

variable {step : ℕ × ℕ}

theorem step_lt (hrow : step.1 ≤ hi) (hj : step.2 ∈ stage2S1)
    (hN : hi * stage2D + stage2D / 2 ≤ N) : lowerOf step < N ∧ upperOf step < N := by
  have hbounds := stage2S1_bounds hj
  have hmul := Nat.mul_le_mul_right stage2D hrow
  unfold lowerOf upperOf stage2D at *
  omega

theorem takePair_overlay {drops : Option (ℕ × ℕ)} (hlower : lowerOf step < N)
    (hdrops : ∀ r1 r2, drops = some (r1, r2) → r1 < N ∧ r2 < N) :
    takePair (primes.overlay N junk) step drops = (takePair primes step drops).overlay N junk := by
  cases drops with
  | none => rfl
  | some rs =>
    obtain ⟨h1, h2⟩ := hdrops rs.1 rs.2 rfl
    simp [takePair, set_overlay hlower, clear_overlay h1, clear_overlay h2]

section

variable (hrow : step.1 ≤ hi) (hj : step.2 ∈ stage2S1) (hN : hi * stage2D + stage2D / 2 ≤ N)
include hrow hj hN

theorem pass2Step_overlay :
    pass2Step (primes.overlay N junk) step = (pass2Step primes step).overlay N junk := by
  obtain ⟨hlower, hupper⟩ := step_lt hrow hj hN
  obtain ⟨hfind1, hlt1⟩ := findPrimeDiv_overlay notInD primes junk hlower
  obtain ⟨hfind2, hlt2⟩ := findPrimeDiv_overlay notInD primes junk hupper
  have hdrops : pass2Drops (primes.overlay N junk) step = pass2Drops primes step := by
    simp [pass2Drops, overlay_of_lt hupper, hfind1, hfind2]
  rw [pass2Step, hdrops]
  refine takePair_overlay hlower fun r1 r2 h => ?_
  unfold pass2Drops at h
  dsimp only at h
  split_ifs at h
  obtain ⟨rfl, rfl⟩ := Prod.mk.inj (Option.some.inj h)
  exact ⟨hlt1, hlt2⟩

theorem pass3Step_overlay :
    pass3Step (primes.overlay N junk) step = (pass3Step primes step).overlay N junk := by
  obtain ⟨hlower, hupper⟩ := step_lt hrow hj hN
  obtain ⟨hfind1, hlt1⟩ := findPrimeDiv_overlay notInD primes junk hlower
  obtain ⟨hfind2, hlt2⟩ := findPrimeDiv_overlay notInD primes junk hupper
  have hdrops : pass3Drops (primes.overlay N junk) step = pass3Drops primes step := by
    simp [pass3Drops, overlay_of_lt hlower, overlay_of_lt hupper, hfind1, hfind2]
  rw [pass3Step, hdrops]
  refine takePair_overlay hlower fun r1 r2 h => ?_
  unfold pass3Drops at h
  dsimp only at h
  split_ifs at h
  obtain ⟨rfl, rfl⟩ := Prod.mk.inj (Option.some.inj h)
  exact ⟨hlt1, hlt2⟩

end

theorem foldl_overlay {α : Type} {step : Primes → α → Primes} {L : List α}
    (hstep : ∀ a ∈ L, ∀ primes : Primes,
      step (primes.overlay N junk) a = (step primes a).overlay N junk) :
    L.foldl step (primes.overlay N junk) = (L.foldl step primes).overlay N junk := by
  induction L generalizing primes with
  | nil => rfl
  | cons a L ih =>
    obtain ⟨ha, hL⟩ := forall_mem_cons.mp hstep
    rw [foldl_cons, foldl_cons, ha, ih hL]

theorem compositePairing_overlay {maxI minI : ℕ} (hmaxI : maxI ≤ firstRow B2)
    (hN : N = firstRow B2 * stage2D + stage2D / 2) :
    compositePairing B2 maxI minI (primes.overlay N junk)
      = (compositePairing B2 maxI minI primes).overlay N junk := by
  have hrow : maxI * stage2D + stage2D / 2 ≤ N :=
    hN ▸ Nat.add_le_add_right (Nat.mul_le_mul_right _ hmaxI) _
  simp only [compositePairing]
  rw [foldl_overlay fun p hp primes => pass1Step_overlay (mem_downFrom.mp hp).2 hN,
    foldl_overlay fun step hstep primes =>
      pass2Step_overlay (mem_passSteps hstep).2.2.1 (mem_passSteps hstep).2.2.2 hrow,
    foldl_overlay fun step hstep primes =>
      pass3Step_overlay (mem_passSteps hstep).2.2.1 (mem_passSteps hstep).2.2.2 hrow]

theorem rowFlag_overlay (hj : j ∈ stage2S1) (hN : i * stage2D + stage2D / 2 ≤ N) :
    rowFlag (primes.overlay N junk) i j = rowFlag primes i j := by
  obtain ⟨hlower, hupper⟩ := @step_lt _ _ (i, j) le_rfl hj hN
  simp only [lowerOf, upperOf] at hlower hupper
  rw [rowFlag, rowFlag, overlay_of_lt hlower, overlay_of_lt hupper]

theorem rowUsed_overlay (hN : i * stage2D + stage2D / 2 ≤ N) :
    rowUsed (primes.overlay N junk) i = rowUsed primes i := by
  rw [Bool.eq_iff_iff, rowUsed, rowUsed, any_eq_true, any_eq_true]
  refine exists_congr fun j => and_congr_right fun hj => ?_
  rw [rowFlag_overlay hj hN]

theorem find_rowUsed_overlay {rows : List ℕ}
    (hN : ∀ i ∈ rows, i * stage2D + stage2D / 2 ≤ N) :
    rows.find? (rowUsed (primes.overlay N junk)) = rows.find? (rowUsed primes) := by
  induction rows with
  | nil => rfl
  | cons i rows ih =>
    obtain ⟨hi, hrows⟩ := forall_mem_cons.mp hN
    rw [List.find?_cons, List.find?_cons, rowUsed_overlay hi, ih hrows]

/-- The state of the last loop in a memory that holds `junk` from `N` on. -/
def EmitState.overlay (N : ℕ) (junk : ℕ → Bool) (state : EmitState) : EmitState :=
  { state with primes := state.primes.overlay N junk }

theorem emitRow_overlay {state : EmitState} (hN : i * stage2D + stage2D / 2 ≤ N) :
    emitRow B2 (state.overlay N junk) i = (emitRow B2 state i).overlay N junk := by
  have hstep : ∀ (codes : List ℕ) (state : EmitState), (∀ m ∈ codes, m < stage2S1.length) →
      codes.foldl (emitStep B2 i) (state.overlay N junk)
        = (codes.foldl (emitStep B2 i) state).overlay N junk := by
    intro codes
    induction codes with
    | nil => exact fun _ _ => rfl
    | cons m codes ih =>
      intro state hcodes
      obtain ⟨hm, hcodes⟩ := forall_mem_cons.mp hcodes
      have hj := stage2S1_getD_mem hm
      obtain ⟨hlower, hupper⟩ := @step_lt _ _ (i, stage2S1.getD m 0) le_rfl hj hN
      simp only [lowerOf, upperOf] at hlower hupper
      have hone : emitStep B2 i (state.overlay N junk) m
          = (emitStep B2 i state m).overlay N junk := by
        simp only [emitStep, EmitState.overlay, rowFlag_overlay hj hN, clearPair,
          clear_overlay hlower]
        split_ifs <;> simp only [clear_overlay hupper]
      rw [foldl_cons, foldl_cons, hone, ih _ hcodes]
  rw [emitRow, hstep _ _ fun m hm => List.mem_range.mp hm]
  rfl

theorem emitRows_overlay {minI maxI : ℕ} (hN : maxI * stage2D + stage2D / 2 ≤ N) :
    emitRows B2 minI maxI (primes.overlay N junk)
      = (emitRows B2 minI maxI primes).overlay N junk := by
  have hrows : ∀ (rows : List ℕ) (state : EmitState), (∀ i ∈ rows, i ≤ maxI) →
      rows.foldl (emitRow B2) (state.overlay N junk)
        = (rows.foldl (emitRow B2) state).overlay N junk := by
    intro rows
    induction rows with
    | nil => exact fun _ _ => rfl
    | cons i rows ih =>
      intro state hrows
      obtain ⟨hi, hrows⟩ := forall_mem_cons.mp hrows
      have hmul := Nat.mul_le_mul_right stage2D hi
      rw [foldl_cons, foldl_cons, emitRow_overlay (by omega), ih _ hrows]
  refine hrows _ ⟨primes, 0, []⟩ fun i hi => ?_
  rw [mem_range'_1] at hi
  omega

end Overlay

/-! ## The plan and its array -/

/-- `stage2_make_plan` once the primes have been flagged: the plan and the array at the
end. -/
def stage2Plan (B2min B2 : ℕ) (primes : Primes) : Option (Stage2Plan × Primes) :=
  let minI := firstRow B2min
  match (downFrom (firstRow B2) minI).find? (rowUsed primes) with
  | none => none
  | some maxI =>
    let primes := compositePairing B2 maxI minI primes
    let minI := ((range' minI (maxI + 1 - minI)).find? (rowUsed primes)).getD (maxI + 1)
    let state := emitRows B2 minI maxI primes
    if (range' (B2min + 1) (B2 - B2min)).any state.primes then
      none
    else
      some
        ({ B2 := B2, d := stage2D, s1 := stage2S1.length, i0 := minI, i1 := maxI + 1,
           S1 := stage2S1, pairs := state.pairs ++ [nextPass] }, state.primes)

/-- `max_i * d + d/2` for the initial `max_i`. -/
def primesSize (B2 : ℕ) : ℕ :=
  firstRow B2 * stage2D + stage2D / 2

/-- `nr_primes`. -/
def nrPrimes (B2min B2 : ℕ) : ℕ :=
  ((Ioc B2min B2).filter Nat.Prime).card

section Plan

variable {B2min B2 : ℕ}

theorem map_ite_none {α β : Type} (f : α → β) (c : Bool) (x : α) :
    (if c = true then none else some (f x)) = (if c = true then none else some x).map f := by
  cases c <;> rfl

theorem lt_primesSize (B2 : ℕ) : B2 < primesSize B2 := by
  unfold primesSize firstRow stage2D
  omega

/-- What lies behind the array is neither read nor written. -/
theorem stage2Plan_overlay (B2min B2 : ℕ) (primes : Primes) (junk : ℕ → Bool) :
    stage2Plan B2min B2 (primes.overlay (primesSize B2) junk)
      = (stage2Plan B2min B2 primes).map fun result =>
        (result.1, result.2.overlay (primesSize B2) junk) := by
  have hrow : ∀ i ≤ firstRow B2, i * stage2D + stage2D / 2 ≤ primesSize B2 := fun i hi =>
    Nat.add_le_add_right (Nat.mul_le_mul_right _ hi) _
  have hfind : (downFrom (firstRow B2) (firstRow B2min)).find?
      (rowUsed (primes.overlay (primesSize B2) junk))
      = (downFrom (firstRow B2) (firstRow B2min)).find? (rowUsed primes) :=
    find_rowUsed_overlay fun i hi => hrow i (mem_downFrom.mp hi).2
  unfold stage2Plan
  simp only [hfind]
  cases hmaxI : (downFrom (firstRow B2) (firstRow B2min)).find? (rowUsed primes) with
  | none => rfl
  | some maxI =>
    have hle : maxI ≤ firstRow B2 := (mem_downFrom.mp (List.mem_of_find?_eq_some hmaxI)).2
    have hfind' : ∀ primes : Primes, (range' (firstRow B2min)
        (maxI + 1 - firstRow B2min)).find? (rowUsed (primes.overlay (primesSize B2) junk))
        = (range' (firstRow B2min) (maxI + 1 - firstRow B2min)).find? (rowUsed primes) :=
      fun primes => find_rowUsed_overlay fun i hi => by
        rw [mem_range'_1] at hi
        exact hrow i (by omega)
    have hany : ∀ state : EmitState, (range' (B2min + 1) (B2 - B2min)).any
        (state.overlay (primesSize B2) junk).primes.flag
        = (range' (B2min + 1) (B2 - B2min)).any state.primes.flag := fun state => by
      have hlt := lt_primesSize B2
      rw [Bool.eq_iff_iff, any_eq_true, any_eq_true]
      refine exists_congr fun x => and_congr_right fun hx => ?_
      rw [mem_range'_1] at hx
      exact iff_of_eq (congrArg (· = true)
        (@overlay_of_lt state.primes _ _ _ (by omega : x < primesSize B2)))
    have hpairing : compositePairing B2 maxI (firstRow B2min)
        (primes.overlay (primesSize B2) junk)
        = (compositePairing B2 maxI (firstRow B2min) primes).overlay (primesSize B2) junk :=
      compositePairing_overlay hle rfl
    simp only [hpairing, hfind', emitRows_overlay (hrow maxI hle), hany]
    exact map_ite_none (fun result : Stage2Plan × Primes =>
      (result.1, result.2.overlay (primesSize B2) junk)) _ (_, _)

theorem card_flagged_initialPrimes (B2min B2 : ℕ) :
    ((initialPrimes B2min B2).flagged (primesSize B2)).card = nrPrimes B2min B2 := by
  congr 1
  ext x
  have hlt := lt_primesSize B2
  simp only [Primes.mem_flagged, initialPrimes, decide_eq_true_eq, mem_filter, mem_Ioc]
  exact ⟨fun h => ⟨⟨h.2.1, h.2.2.1⟩, h.2.2.2⟩, fun h => ⟨by omega, h.1.1, h.1.2, h.2⟩⟩

/-- Each code is written inside of `plan->pairs`, and each index of `primes` is inside of
the array. -/
def PlanFits (B2min B2 : ℕ) : Prop :=
  ∃ plan, stage2MakePlan B2min B2 = some plan ∧
    plan.pairs.length ≤ nrPrimes B2min B2 + (B2 - B2min) / stage2D + 1 ∧
    (∀ p, initialPrimes B2min B2 p = true → p < primesSize B2) ∧
    ∀ junk, stage2Plan B2min B2 ((initialPrimes B2min B2).overlay (primesSize B2) junk)
      = (stage2Plan B2min B2 (initialPrimes B2min B2)).map fun result =>
        (result.1, result.2.overlay (primesSize B2) junk)

/-- The rows with a flagged number are close to each other, or there are fewer pairs than
primes. -/
def FlagsFit (B2min B2 : ℕ) (primes : Primes) : Prop :=
  (∀ i i', rowUsed primes i = true → rowUsed primes i' = true →
    i' ≤ i + (B2 - B2min) / stage2D) ∨
  pairCount primes (firstRow B2min) (firstRow B2) < nrPrimes B2min B2

theorem foldl_fixed_of_mem {α β : Type} {step : β → α → β} {L : List α} {b : β}
    (h : ∀ a ∈ L, step b a = b) : L.foldl step b = b := by
  induction L with
  | nil => rfl
  | cons a L ih =>
    obtain ⟨ha, hL⟩ := forall_mem_cons.mp h
    rw [foldl_cons, ha, ih hL]

/-- For a short interval no prime is replaced by a composite. -/
theorem compositePairing_short {maxI : ℕ} (hB2min : 11 ≤ B2min) (hB2 : B2 ≤ 4294967144)
    (hshort : B2 + 209 < 11 * (B2min + 1)) (hmaxI : maxI ≤ firstRow B2) :
    compositePairing B2 maxI (firstRow B2min) (initialPrimes B2min B2)
      = initialPrimes B2min B2 := by
  have hprime : ∀ {r}, initialPrimes B2min B2 r = true → B2min < r ∧ r ≤ B2 ∧ r.Prime := fun h => by
    simpa [initialPrimes] using h
  -- a flagged divisor of a number that is not flagged is too small
  have hproper : ∀ {i j q r : ℕ}, j ∈ stage2S1 → RowEntry i j q → r ∣ q →
      initialPrimes B2min B2 r = true → initialPrimes B2min B2 q = false → B2 + 209 < q := by
    intro i j q r hj hq hr hflagr hflagq
    have hne : r ≠ q := by
      rintro rfl
      rw [hflagr] at hflagq
      cases hflagq
    have hle := proper_divisor_le hj hq hr hne
    have hlt := (hprime hflagr).1
    unfold notInD at hle
    omega
  have hpass1 : ∀ p ∈ downFrom B2 (pass1Bound maxI),
      pass1Step (initialPrimes B2min B2) p = initialPrimes B2min B2 := by
    intro p hp
    rw [pass1Step]
    refine if_neg (not_not.mpr ?_)
    by_contra hdrop
    have hpB2 := (mem_downFrom.mp hp).2
    obtain ⟨hflag, q, hq, hfree, hdvd, hfound⟩ := pass1Drop_spec (hpB2.trans hB2) hdrop
    obtain ⟨hlt, -, hpp⟩ := hprime hflag
    obtain ⟨j, hj, hx⟩ := prime_rowEntry hpp (by omega)
    have hlarge := hproper hj (hx.partner_partner hj hq).1 hdvd hfound hfree
    unfold partner signedResidue stage2D at hq
    simp only at hq
    split_ifs at hq <;> omega
  have hstep : ∀ step ∈ passSteps maxI (firstRow B2min), step.2 ∈ stage2S1 ∧
      RowEntry step.1 step.2 (lowerOf step) ∧ RowEntry step.1 step.2 (upperOf step) ∧
      lowerOf step ≤ B2 + 209 ∧ upperOf step ≤ B2 + 209 := by
    intro step hmem
    obtain ⟨-, hpos, hle, hj⟩ := mem_passSteps hmem
    obtain ⟨hlower, hupper, -⟩ := rowEntry_step hpos hj
    have hbounds := stage2S1_bounds hj
    have hmul := Nat.mul_le_mul_right stage2D (hle.trans hmaxI)
    refine ⟨hj, hlower, hupper, ?_⟩
    unfold lowerOf upperOf firstRow stage2D at *
    omega
  have hpass2 : ∀ step ∈ passSteps maxI (firstRow B2min),
      pass2Step (initialPrimes B2min B2) step = initialPrimes B2min B2 := by
    intro step hmem
    obtain ⟨hj, hlower, hupper, hlowerB2, hupperB2⟩ := hstep step hmem
    cases hdrops : pass2Drops (initialPrimes B2min B2) step with
    | none => rw [pass2Step, hdrops, takePair]
    | some rs =>
      obtain ⟨-, h2, -⟩ := pass2Drops_divisors _ step rs.1 rs.2 hdrops
      obtain ⟨hdvd, hfound⟩ := h2 (pass2Drops_both hdrops).2
      have hfree : initialPrimes B2min B2 (upperOf step) = false := by
        unfold pass2Drops at hdrops
        dsimp only at hdrops
        split_ifs at hdrops with hflags
        simpa using hflags
      exact absurd (hproper hj hupper hdvd hfound hfree) (Nat.not_lt.mpr hupperB2)
  have hpass3 : ∀ step ∈ passSteps maxI (firstRow B2min),
      pass3Step (initialPrimes B2min B2) step = initialPrimes B2min B2 := by
    intro step hmem
    obtain ⟨hj, hlower, hupper, hlowerB2, hupperB2⟩ := hstep step hmem
    cases hdrops : pass3Drops (initialPrimes B2min B2) step with
    | none => rw [pass3Step, hdrops, takePair]
    | some rs =>
      obtain ⟨h1, h2, hne⟩ := pass3Drops_divisors _ step rs.1 rs.2 hdrops
      obtain ⟨hfree1, hfree2⟩ : initialPrimes B2min B2 (lowerOf step) = false ∧
          initialPrimes B2min B2 (upperOf step) = false := by
        unfold pass3Drops at hdrops
        dsimp only at hdrops
        split_ifs at hdrops with hflags
        simpa using hflags
      rcases hne with hne | hne
      · obtain ⟨hdvd, hfound⟩ := h1 hne
        exact absurd (hproper hj hlower hdvd hfound hfree1) (Nat.not_lt.mpr hlowerB2)
      · obtain ⟨hdvd, hfound⟩ := h2 hne
        exact absurd (hproper hj hupper hdvd hfound hfree2) (Nat.not_lt.mpr hupperB2)
  simp only [compositePairing]
  rw [foldl_fixed_of_mem hpass1, foldl_fixed_of_mem hpass2, foldl_fixed_of_mem hpass3]

/-- The pairs of all rows, and the advances between them. -/
theorem length_emitRows {final : Primes} {lo hi maxI minI : ℕ}
    (hfinal : ∀ x, final x = true → ValidEntry lo maxI x) (hhi : maxI ≤ hi)
    (hminI : minI = ((range' lo (maxI + 1 - lo)).find? (rowUsed final)).getD (maxI + 1)) :
    ∃ n, (emitRows B2 minI maxI final).pairs.length = n + pairCount final lo hi ∧ n ≤ hi - lo ∧
      ∀ L, n ≤ L ↔ ∀ i i', rowUsed final i = true → rowUsed final i' = true → i' ≤ i + L := by
  -- the rows in use, and the first one
  have hused : ∀ i, rowUsed final i = true → lo ≤ i ∧ minI ≤ i ∧ i ≤ maxI ∧
      rowUsed final minI = true ∧ lo ≤ minI := by
    intro i hi
    obtain ⟨j, hj, hrowflag⟩ := any_eq_true.mp hi
    obtain ⟨x, hx, hflag⟩ := (rowFlag_iff final i j).mp hrowflag
    obtain ⟨i', j', hlo, hle, hj', hx'⟩ := hfinal x hflag
    obtain ⟨rfl, rfl⟩ := hx.unique hj hj' hx'
    have hfind := getD_find_range'_le hlo hi (show i < lo + (maxI + 1 - lo) by omega) (maxI + 1)
    rw [← hminI] at hfind
    have hsome : ((range' lo (maxI + 1 - lo)).find? (rowUsed final)).isSome = true := by
      rw [List.find?_isSome]
      exact ⟨i, mem_range'_1.mpr ⟨hlo, by omega⟩, hi⟩
    obtain ⟨first, hfirst⟩ := Option.isSome_iff_exists.mp hsome
    have hminfirst : minI = first := by rw [hminI, hfirst, Option.getD_some]
    exact ⟨hlo, hfind.2, hle, hminfirst ▸ List.find?_some hfirst, hfind.1⟩
  have hunused : ∀ i, rowUsed final i ≠ true → (rowCodes final i).length = 0 := fun i hi =>
    List.length_eq_zero_iff.mpr (not_not.mp fun hne => hi (rowCodes_ne_nil.mp hne))
  have hle : minI ≤ maxI + 1 := by
    by_cases hnone : ∃ i, rowUsed final i = true
    · obtain ⟨i, hi⟩ := hnone
      obtain ⟨-, hmin, hmax, -⟩ := hused i hi
      omega
    · have hfind : (range' lo (maxI + 1 - lo)).find? (rowUsed final) = none := by
        rw [List.find?_eq_none]
        exact fun i _ hi => hnone ⟨i, hi⟩
      rw [hminI, hfind, Option.getD_none]
  have hcodes := emitRows_codes final B2 minI (maxI + 1 - minI)
  rw [Nat.add_sub_cancel' hle, ← emitRows] at hcodes
  set state := emitRows B2 minI maxI final with hstate
  have hsum : ∑ i ∈ Ico minI (maxI + 1), (rowCodes final i).length = pairCount final lo hi := by
    rw [pairCount]
    by_cases hsome : ∃ i, rowUsed final i = true
    · obtain ⟨i, hi⟩ := hsome
      obtain ⟨-, -, -, -, hlo⟩ := hused i hi
      refine sum_subset (fun i hi => ?_) fun i _ hi => hunused i fun hrow => hi ?_
      · rw [mem_Ico] at hi
        exact mem_Icc.mpr ⟨by omega, by omega⟩
      · obtain ⟨-, hmin, hmax, -⟩ := hused i hrow
        exact mem_Ico.mpr ⟨hmin, by omega⟩
    · have hzero : ∀ s : Finset ℕ, ∑ i ∈ s, (rowCodes final i).length = 0 := fun s =>
        sum_eq_zero fun i _ => hunused i fun hi => hsome ⟨i, hi⟩
      rw [hzero, hzero]
  have hlength := hcodes.length_eq
  rw [hsum] at hlength
  refine ⟨state.pairs.count nextD, hlength, ?_⟩
  by_cases hnil : state.pairs = []
  · have hnone : ∀ i, rowUsed final i ≠ true := fun i hi => by
      obtain ⟨-, hmin, hmax, -⟩ := hused i hi
      have hfalse := hcodes.unused i hmin (by omega) (Or.inr hnil)
      rw [hi] at hfalse
      cases hfalse
    rw [hnil]
    exact ⟨Nat.zero_le _, fun L => iff_of_true (Nat.zero_le _) fun i _ hi => absurd hi (hnone i)⟩
  · obtain ⟨hlt, hlast⟩ := hcodes.last hnil
    obtain ⟨-, -, -, hfirst, hlo⟩ := hused _ hlast
    refine ⟨by omega, fun L => ⟨fun hL i i' hi hi' => ?_, fun h => ?_⟩⟩
    · obtain ⟨-, hmin, -⟩ := hused i hi
      obtain ⟨-, hmin', hmax', -⟩ := hused i' hi'
      by_contra hfar
      have hfalse := hcodes.unused i' hmin' (by omega) (Or.inl (by omega))
      rw [hi'] at hfalse
      cases hfalse
    · have hdist := h _ _ hfirst hlast
      omega

/-- When the size of the array does not wrap, the flags decide whether the plan fits; they are as
they should be if the interval has no more rows than multiples of 210 are counted. -/
theorem planFits_iff_flagsFit (hB2min : 11 ≤ B2min) {p : ℕ} (hp : Stage2Prime B2min B2 p)
    (hsize : SizeFits B2) :
    ∃ maxI, (downFrom (firstRow B2) (firstRow B2min)).find? (rowUsed (initialPrimes B2min B2))
        = some maxI ∧
      (PlanFits B2min B2 ↔ FlagsFit B2min B2
        (compositePairing B2 maxI (firstRow B2min) (initialPrimes B2min B2))) ∧
      (firstRow B2 ≤ firstRow B2min + (B2 - B2min) / stage2D → FlagsFit B2min B2
        (compositePairing B2 maxI (firstRow B2min) (initialPrimes B2min B2))) := by
  obtain ⟨maxI, minI, final, hmaxI, rfl, hminI, hvalid, hentry, -, hplan⟩ :=
    stage2MakePlan_eq hB2min hp hsize
  have hle := (mem_downFrom.mp (List.mem_of_find?_eq_some hmaxI)).2
  obtain ⟨n, hlength, hn, hspread⟩ := @length_emitRows B2 _ _ _ _ _ hentry hle hminI
  set final := compositePairing B2 maxI (firstRow B2min) (initialPrimes B2min B2) with hfinal
  have hpairs : pairCount final (firstRow B2min) (firstRow B2) ≤ nrPrimes B2min B2 := by
    rw [← card_flagged_initialPrimes, hfinal]
    refine (pairCount_le le_rfl).trans (compositePairing_count (fun x hx => ?_) ?_)
    · simp only [initialPrimes, decide_eq_true_eq] at hx
      exact hvalid x ⟨hx.2.2, hx.1, hx.2.1⟩
    · exact Nat.add_le_add_right (Nat.mul_le_mul_right _ hle) _
  have hrows : n ≤ (B2 - B2min) / stage2D + 1 := by
    unfold firstRow stage2D at *
    omega
  have hflags : (∃ plan, stage2MakePlan B2min B2 = some plan ∧
      plan.pairs.length ≤ nrPrimes B2min B2 + (B2 - B2min) / stage2D + 1) ↔
      FlagsFit B2min B2 final := by
    rw [hplan, FlagsFit, ← hspread]
    simp only [Option.some.injEq, exists_eq_left', length_append, List.length_singleton, hlength]
    omega
  have hindex : ∀ p, initialPrimes B2min B2 p = true → p < primesSize B2 := fun p hp => by
    have hlt := lt_primesSize B2
    simp only [initialPrimes, decide_eq_true_eq] at hp
    omega
  refine ⟨maxI, hmaxI, ⟨?_, fun h => ?_⟩, fun hfew => Or.inl ((hspread _).mp (hn.trans ?_))⟩
  · rintro ⟨plan, hsome, hfits, -⟩
    exact hflags.mp ⟨plan, hsome, hfits⟩
  · obtain ⟨plan, hsome, hfits⟩ := hflags.mpr h
    exact ⟨plan, hsome, hfits, hindex, stage2Plan_overlay B2min B2 _⟩
  · exact Nat.sub_le_iff_le_add'.mpr hfew

/-- The plan fits if and only if the size of the array does not wrap and the flags before the
last loop are as they should be.  In a short interval these are the initial flags.  The plan fits
whenever the interval meets no more rows than its length tells. -/
theorem stage2MakePlan_fits (hB2min : 11 ≤ B2min) (hprime : ∃ p, Stage2Prime B2min B2 p) :
    (PlanFits B2min B2 ↔ SizeFits B2 ∧ ∀ maxI,
      (downFrom (firstRow B2) (firstRow B2min)).find? (rowUsed (initialPrimes B2min B2))
        = some maxI →
      FlagsFit B2min B2
        (compositePairing B2 maxI (firstRow B2min) (initialPrimes B2min B2))) ∧
    (SizeFits B2 → B2 + 209 < 11 * (B2min + 1) → ∀ maxI,
      (downFrom (firstRow B2) (firstRow B2min)).find? (rowUsed (initialPrimes B2min B2))
        = some maxI →
      compositePairing B2 maxI (firstRow B2min) (initialPrimes B2min B2)
        = initialPrimes B2min B2) ∧
    (SizeFits B2 → (B2 + 105) / 210 ≤ (B2min + 105) / 210 + (B2 - B2min) / 210 →
      PlanFits B2min B2) := by
  have hshort : SizeFits B2 → B2 ≤ 4294967144 := fun hsize => by
    unfold SizeFits firstRow stage2D at hsize
    omega
  obtain ⟨p, hp⟩ := hprime
  refine ⟨?_, fun hsize hlt maxI hmaxI => ?_, fun hsize hrows => ?_⟩
  · by_cases hsize : SizeFits B2
    · obtain ⟨maxI, hmaxI, hiff, -⟩ := planFits_iff_flagsFit hB2min hp hsize
      rw [hiff]
      constructor
      · refine fun h => ⟨hsize, fun maxI' hmaxI' => ?_⟩
        obtain rfl := Option.some.inj (hmaxI'.symm.trans hmaxI)
        exact h
      · exact fun h => h.2 maxI hmaxI
    · refine iff_of_false (fun hfits => ?_) fun h => hsize h.1
      obtain ⟨plan, hplan, -⟩ := hfits
      have hlt : ¬B2 ≤ B2min := by
        have hbounds := hp.2
        omega
      have hwrap : B2 + stage2D / 2 ≥ 2 ^ 32 ∨ firstRow B2 * stage2D + stage2D / 2 ≥ 2 ^ 32 := by
        unfold SizeFits at hsize
        omega
      unfold firstRow at hwrap
      simp only [stage2MakePlan, if_neg hlt, if_pos hwrap, reduceCtorEq] at hplan
  · have hle := (mem_downFrom.mp (List.mem_of_find?_eq_some hmaxI)).2
    exact compositePairing_short hB2min (hshort hsize) hlt hle
  · obtain ⟨maxI, -, hiff, hfew⟩ := planFits_iff_flagsFit hB2min hp hsize
    exact hiff.mpr (hfew hrows)

end Plan

/-- Between 105 and 230 there is one row, and one pair includes 193 and 227. -/
theorem stage2MakePlan_fits_230 : PlanFits 105 230 := by
  obtain ⟨hfits, hshort, -⟩ :=
    @stage2MakePlan_fits 105 230 (by decide) ⟨107, by norm_num, by decide, by decide⟩
  have hsize : SizeFits 230 := by
    unfold SizeFits
    decide
  refine hfits.mpr ⟨hsize, fun maxI hmaxI => ?_⟩
  rw [hshort hsize (by decide) maxI hmaxI]
  exact Or.inr (by decide +kernel)

/-- Between 100 and 110 there are four primes in two rows, with a pair each.  Six codes are
written, and there is room for five. -/
theorem not_planFits_110 : Stage2Prime 100 110 101 ∧ ¬PlanFits 100 110 ∧
    (stage2MakePlan 100 110).map Stage2Plan.pairs = some [22, 23, nextD, 22, 23, nextPass] ∧
    nrPrimes 100 110 + (110 - 100) / stage2D + 1 = 5 := by
  have hpairs : (stage2MakePlan 100 110).map Stage2Plan.pairs
      = some [22, 23, nextD, 22, 23, nextPass] := by
    decide +kernel
  have hroom : nrPrimes 100 110 + (110 - 100) / stage2D + 1 = 5 := by
    decide +kernel
  refine ⟨⟨by norm_num, by decide, by decide⟩, ?_, hpairs, hroom⟩
  rintro ⟨plan, hplan, hlength, -⟩
  rw [hplan, Option.map_some, Option.some.injEq] at hpairs
  rw [hpairs, hroom] at hlength
  exact absurd hlength (by decide)

end CadoNfs
