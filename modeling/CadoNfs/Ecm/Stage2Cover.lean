import Mathlib.Data.List.Prime
import Mathlib.Tactic.NormNum.Prime
import CadoNfs.Ecm.Stage2Passes

/-!
# What the stage 2 plan covers

A plan covers a prime if the prime divides a number of a pair that it encodes.  The
passes of `stage2_make_plan` drop a prime only for a pair that covers it; they are
right as long as that pair stays flagged.

Main results:

- Theorem `pass1_inv`: the first pass never clears a number it has kept.
- Theorem `passRun_inv`: a step of the later passes that clears no kept number
  keeps every prime covered.
- Theorem `stage2MakePlan_covers`: the plan covers every prime if no step clears a
  kept number.
- Theorem `stage2MakePlan_gap`: bounds for which the second pass clears the number
  that it flags.
-/

namespace CadoNfs

open Nat (Coprime dvd_prime le_of_dvd)
open List (any_eq_true forall_mem_cons mem_cons mem_cons_self mem_map not_mem_nil range')

/-! ## Runs that note what they keep -/

/-- The pair of `x` covers `p`. -/
def PairCovers (x p : ℕ) : Prop :=
  (p : ℤ) ∣ x ∨ (p : ℤ) ∣ partner x

/-- The array, and the numbers that have been kept or flagged because their pair covers
a prime that was dropped. -/
structure PassRun where
  primes : Primes
  kept : List ℕ

/-- The first pass at `p` keeps `p` if it drops a prime. -/
def pass1Run (run : PassRun) (p : ℕ) : PassRun :=
  { primes := pass1Step run.primes p
    kept := if pass1Drop run.primes p ≠ 0 then p :: run.kept else run.kept }

variable (drops : Primes → ℕ × ℕ → Option (ℕ × ℕ))

/-- A later pass keeps the number that it flags. -/
def passRun (run : PassRun) (step : ℕ × ℕ) :
    PassRun :=
  { primes := takePair run.primes step (drops run.primes step)
    kept := if (drops run.primes step).isSome then lowerOf step :: run.kept else run.kept }

/-- A step of a later pass that does not flag a number already flagged, and clears no
number that has been kept. -/
def CleanStep (run : PassRun) (step : ℕ × ℕ) :
    Prop :=
  ∀ r1 r2, drops run.primes step = some (r1, r2) →
    run.primes (lowerOf step) = false ∧ r1 ∉ run.kept ∧ r2 ∉ run.kept

/-- All steps of a later pass are clean. -/
def CleanSteps (drops : Primes → ℕ × ℕ → Option (ℕ × ℕ)) (run : PassRun)
    (steps : List (ℕ × ℕ)) : Prop :=
  match steps with
  | [] => True
  | step :: steps => CleanStep drops run step ∧ CleanSteps drops (passRun drops run step) steps

/-- The first pass, with what it keeps. -/
def pass1Runs (B2 maxI : ℕ) (primes : Primes) : PassRun :=
  (downFrom B2 (pass1Bound maxI)).foldl pass1Run ⟨primes, []⟩

/-- The composite pairing takes only clean steps. -/
def CleanPairing (B2 maxI minI : ℕ) (primes : Primes) : Prop :=
  CleanSteps pass2Drops (pass1Runs B2 maxI primes) (passSteps maxI minI) ∧
    CleanSteps pass3Drops
      ((passSteps maxI minI).foldl (passRun pass2Drops) (pass1Runs B2 maxI primes))
      (passSteps maxI minI)

theorem foldl_pass1Run_primes (ps : List ℕ) (run : PassRun) :
    (ps.foldl pass1Run run).primes = ps.foldl pass1Step run.primes := by
  induction ps generalizing run with
  | nil => rfl
  | cons p ps ih => exact ih _

theorem foldl_passRun_primes (steps : List (ℕ × ℕ)) (run : PassRun) :
    (steps.foldl (passRun drops) run).primes
      = steps.foldl (fun primes step => takePair primes step (drops primes step))
          run.primes := by
  induction steps generalizing run with
  | nil => rfl
  | cons step steps ih => exact ih _

/-! ## The invariant -/

/-- The primes that the plan is to cover. -/
def Stage2Prime (B2min B2 p : ℕ) : Prop :=
  p.Prime ∧ B2min < p ∧ p ≤ B2

/-- What holds throughout the passes: flagged numbers belong to the rows, kept numbers
are flagged, and every prime is flagged or covered by a kept number. -/
structure CoverInv (B2min B2 lo hi : ℕ) (run : PassRun) : Prop where
  valid : ∀ x, run.primes x = true → ValidEntry lo hi x
  kept : ∀ x ∈ run.kept, run.primes x = true
  cover : ∀ p, Stage2Prime B2min B2 p →
    run.primes p = true ∨ ∃ x ∈ run.kept, PairCovers x p

variable {B2min B2 lo hi : ℕ}

theorem ValidEntry.pos {x : ℕ} (h : ValidEntry lo hi x) : 0 < x := by
  obtain ⟨i, j, -, -, hj, hx⟩ := h
  have hbounds := stage2S1_bounds hj
  unfold RowEntry stage2D at hx
  omega

section

variable {drops : Primes → ℕ × ℕ → Option (ℕ × ℕ)} (hdrops : DropsDivisors drops) {run : PassRun}
  (hrun : CoverInv B2min B2 lo hi run)
include hdrops hrun

/-- A clean step keeps every prime covered. -/
theorem passRun_inv {step : ℕ × ℕ}
    (hlo : lo ≤ step.1) (hpos : 0 < step.1) (hhi : step.1 ≤ hi) (hj : step.2 ∈ stage2S1)
    (hclean : CleanStep drops run step) :
    CoverInv B2min B2 lo hi (passRun drops run step) := by
  obtain ⟨hlower, -, hpartner, -⟩ := rowEntry_step hpos hj
  unfold passRun
  cases hcase : drops run.primes step with
  | none => simpa [takePair] using hrun
  | some rs =>
    obtain ⟨r1, r2⟩ := rs
    obtain ⟨hfree, hr1, hr2⟩ := hclean r1 r2 hcase
    obtain ⟨hdvd1, hdvd2, -⟩ := hdrops _ _ _ _ hcase
    have hentry : ValidEntry lo hi (lowerOf step) := ⟨step.1, step.2, hlo, hhi, hj, hlower⟩
    have hne1 : lowerOf step ≠ r1 := by
      rintro heq
      have hflag := (hdvd1 (by rw [← heq]; exact hentry.pos.ne')).2
      rw [← heq, hfree] at hflag
      cases hflag
    have hne2 : lowerOf step ≠ r2 := by
      rintro heq
      have hflag := (hdvd2 (by rw [← heq]; exact hentry.pos.ne')).2
      rw [← heq, hfree] at hflag
      cases hflag
    simp only [Option.isSome_some, if_true]
    constructor
    · intro x hx
      simp only [takePair_apply] at hx
      split_ifs at hx with h₁ h₂ h₃
      · rw [h₃]
        exact hentry
      · exact hrun.valid x hx
    · intro x hx
      simp only [takePair_apply]
      rcases mem_cons.mp hx with rfl | hx
      · rw [if_neg hne2, if_neg hne1, if_pos rfl]
      · rw [if_neg (fun h : x = r2 => hr2 (h ▸ hx)), if_neg (fun h : x = r1 => hr1 (h ▸ hx)),
          hrun.kept x hx]
        exact ite_self _
    · intro p hp
      simp only [takePair_apply]
      rcases hrun.cover p hp with hflag | ⟨x, hx, hcover⟩
      · by_cases h₂ : p = r2
        · refine Or.inr ⟨lowerOf step, mem_cons_self, Or.inr ?_⟩
          rw [hpartner, Int.natCast_dvd_natCast, h₂]
          exact (hdvd2 (h₂ ▸ hp.1.ne_zero)).1
        · by_cases h₁ : p = r1
          · refine Or.inr ⟨lowerOf step, mem_cons_self, Or.inl ?_⟩
            rw [Int.natCast_dvd_natCast, h₁]
            exact (hdvd1 (h₁ ▸ hp.1.ne_zero)).1
          · rw [if_neg h₂, if_neg h₁, hflag]
            exact Or.inl (ite_self _)
      · exact Or.inr ⟨x, List.mem_cons_of_mem _ hx, hcover⟩

theorem foldl_passRun_inv {steps : List (ℕ × ℕ)}
    (hsteps : ∀ step ∈ steps, lo ≤ step.1 ∧ 0 < step.1 ∧ step.1 ≤ hi ∧ step.2 ∈ stage2S1)
    (hclean : CleanSteps drops run steps) :
    CoverInv B2min B2 lo hi (steps.foldl (passRun drops) run) := by
  induction steps generalizing run with
  | nil => exact hrun
  | cons step steps ih =>
    obtain ⟨hstep, hclean⟩ := hclean
    obtain ⟨⟨hlo, hpos, hhi, hj⟩, hsteps⟩ := forall_mem_cons.mp hsteps
    exact ih (passRun_inv hdrops hrun hlo hpos hhi hj hstep) hsteps hclean

end

/-! ## The first pass -/

theorem pass1Drop_lt {primes : Primes} {p : ℕ} (hp : p ≤ 4294967144)
    (hentry : ValidEntry lo hi p) (h : pass1Drop primes p ≠ 0) : pass1Drop primes p < p := by
  obtain ⟨-, q, hq, hqflag, hdvd, hflag⟩ := pass1Drop_spec hp h
  obtain ⟨i, j, -, -, hj, hx⟩ := hentry
  have hbounds := stage2S1_bounds hj
  have hpartner := hx.partner hj
  have hqentry : RowEntry i j q := by
    rcases hpartner with ⟨-, hpartner⟩ | ⟨-, hpartner⟩
    · exact Or.inr (hq.trans hpartner)
    · exact Or.inl (hq.trans hpartner)
  have hne : pass1Drop primes p ≠ q := by
    intro heq
    rw [heq, hqflag] at hflag
    cases hflag
  have hle := proper_divisor_le hj hqentry hdvd hne
  rw [← hq] at hpartner
  unfold notInD at hle
  unfold stage2D at hpartner
  omega

/-- What holds before the first pass visits `next`. -/
structure Pass1Inv (B2min B2 next : ℕ) (run : PassRun) : Prop where
  prime : ∀ x, run.primes x = true → Stage2Prime B2min B2 x
  kept : ∀ x ∈ run.kept, run.primes x = true ∧ next < x
  cover : ∀ p, Stage2Prime B2min B2 p →
    run.primes p = true ∨ ∃ x ∈ run.kept, PairCovers x p

/-- One number of the first pass keeps the invariant. -/
theorem pass1Run_inv {next : ℕ} {run : PassRun} (hB2 : B2 ≤ 4294967144)
    (hvalid : ∀ p, Stage2Prime B2min B2 p → ValidEntry lo hi p)
    (hrun : Pass1Inv B2min B2 (next + 1) run) :
    Pass1Inv B2min B2 next (pass1Run run (next + 1)) := by
  unfold pass1Run pass1Step
  by_cases hdrop : pass1Drop run.primes (next + 1) = 0
  · simp only [hdrop, ne_eq, not_true_eq_false, if_false]
    exact ⟨hrun.prime, fun x hx => ⟨(hrun.kept x hx).1, by have := (hrun.kept x hx).2; omega⟩,
      hrun.cover⟩
  · simp only [ne_eq, hdrop, not_false_eq_true, if_true]
    by_cases hle : next + 1 ≤ 4294967144
    · obtain ⟨hflag, q, hq, -, hdvd, -⟩ := pass1Drop_spec hle hdrop
      have hlt := pass1Drop_lt hle (hvalid _ (hrun.prime _ hflag)) hdrop
      constructor
      · exact fun x hx => hrun.prime x (Primes.clear_mono hx)
      · intro x hx
        rcases mem_cons.mp hx with rfl | hx
        · exact ⟨by rw [Primes.clear_of_ne _ (by omega)]; exact hflag, by omega⟩
        · obtain ⟨hxflag, hxlt⟩ := hrun.kept x hx
          exact ⟨by rw [Primes.clear_of_ne _ (by omega)]; exact hxflag, by omega⟩
      · intro p hp
        rcases hrun.cover p hp with hpflag | ⟨x, hx, hcover⟩
        · by_cases hpr : p = pass1Drop run.primes (next + 1)
          · refine Or.inr ⟨next + 1, mem_cons_self, Or.inr ?_⟩
            rw [← hq, hpr]
            exact Int.natCast_dvd_natCast.mpr hdvd
          · exact Or.inl (by rw [Primes.clear_of_ne _ hpr]; exact hpflag)
        · exact Or.inr ⟨x, List.mem_cons_of_mem _ hx, hcover⟩
    · have hflag : run.primes (next + 1) = true := by
        by_contra hflag
        exact hdrop (if_neg hflag)
      have hprime := hrun.prime _ hflag
      have := hprime.2.2
      omega

/-- The first pass never clears a number it has kept. -/
theorem pass1_inv {next low : ℕ} {run : PassRun} (hB2 : B2 ≤ 4294967144)
    (hvalid : ∀ p, Stage2Prime B2min B2 p → ValidEntry lo hi p) (hlow : 0 < low)
    (hrun : Pass1Inv B2min B2 next run) :
    ∃ last, Pass1Inv B2min B2 last ((downFrom next low).foldl pass1Run run) := by
  induction next generalizing run with
  | zero =>
    rw [downFrom_of_lt hlow]
    exact ⟨0, hrun⟩
  | succ next ih =>
    by_cases hlast : low ≤ next + 1
    · rw [downFrom_succ (by omega), List.foldl_cons]
      exact ih (pass1Run_inv hB2 hvalid hrun)
    · rw [downFrom_of_lt (by omega)]
      exact ⟨next + 1, hrun⟩

theorem pass1Runs_inv {maxI : ℕ} (hB2 : B2 ≤ 4294967144)
    (hvalid : ∀ p, Stage2Prime B2min B2 p → ValidEntry lo hi p) :
    CoverInv B2min B2 lo hi (pass1Runs B2 maxI (initialPrimes B2min B2)) := by
  have hinit : ∀ x, initialPrimes B2min B2 x = true ↔ Stage2Prime B2min B2 x := by
    intro x
    simp only [initialPrimes, Stage2Prime, decide_eq_true_eq]
    tauto
  have hstart : Pass1Inv B2min B2 B2 ⟨initialPrimes B2min B2, []⟩ :=
    ⟨fun x hx => (hinit x).mp hx, by simp, fun p hp => Or.inl ((hinit p).mpr hp)⟩
  have hlow : 0 < pass1Bound maxI := by
    unfold pass1Bound stage2D notInD
    omega
  obtain ⟨last, hlast⟩ := pass1_inv hB2 hvalid hlow hstart
  exact ⟨fun x hx => hvalid x (hlast.prime x hx), fun x hx => (hlast.kept x hx).1, hlast.cover⟩

/-! ## The plan -/

theorem takePair_valid {drops : Primes → ℕ × ℕ → Option (ℕ × ℕ)} {primes : Primes}
    (hprimes : ∀ x, primes x = true → ValidEntry lo hi x) {steps : List (ℕ × ℕ)}
    (hsteps : ∀ step ∈ steps, lo ≤ step.1 ∧ 0 < step.1 ∧ step.1 ≤ hi ∧ step.2 ∈ stage2S1) :
    ∀ x, steps.foldl (fun primes step => takePair primes step (drops primes step)) primes x
      = true → ValidEntry lo hi x := by
  induction steps generalizing primes with
  | nil => exact hprimes
  | cons step steps ih =>
    obtain ⟨⟨hlo, hpos, hhi, hj⟩, hsteps⟩ := forall_mem_cons.mp hsteps
    refine ih ?_ hsteps
    intro x hx
    simp only at hx
    cases hcase : drops primes step with
    | none =>
      rw [hcase] at hx
      exact hprimes x hx
    | some rs =>
      have hbounds := stage2S1_bounds hj
      rw [hcase, takePair_apply] at hx
      split_ifs at hx with h₁ h₂ h₃
      · refine ⟨step.1, step.2, hlo, hhi, hj, Or.inl ?_⟩
        rw [h₃]
        unfold lowerOf stage2D
        omega
      · exact hprimes x hx

theorem le_of_find_downFrom {used : ℕ → Bool} {high low m : ℕ}
    (h : (downFrom high low).find? used = some m) {i : ℕ} (hlo : low ≤ i) (hhi : i ≤ high)
    (hi : used i = true) : i ≤ m := by
  induction high with
  | zero =>
    have hzero : i = 0 := by omega
    omega
  | succ high ih =>
    rw [downFrom_succ (by omega)] at h
    by_cases hused : used (high + 1) = true
    · rw [List.find?_cons_of_pos hused] at h
      have hm := Option.some.inj h
      omega
    · rw [List.find?_cons_of_neg hused] at h
      have hne : i ≠ high + 1 := by
        rintro rfl
        exact hused hi
      exact ih h (by omega)

theorem getD_find_range'_le {used : ℕ → Bool} {low len i : ℕ} (hlo : low ≤ i)
    (hi : used i = true) (hlen : i < low + len) (other : ℕ) :
    low ≤ ((range' low len).find? used).getD other ∧
      ((range' low len).find? used).getD other ≤ i := by
  induction len generalizing low with
  | zero => omega
  | succ len ih =>
    rw [List.range'_succ]
    by_cases hused : used low = true
    · rw [List.find?_cons_of_pos hused]
      exact ⟨le_rfl, hlo⟩
    · rw [List.find?_cons_of_neg hused]
      have hne : low ≠ i := by
        rintro rfl
        exact hused hi
      obtain ⟨h₁, h₂⟩ := @ih (low + 1) (by omega) (by omega)
      exact ⟨by omega, h₂⟩

theorem rowUsed_of_flag {primes : Primes} {i j x : ℕ} (hj : j ∈ stage2S1)
    (hx : RowEntry i j x) (hflag : primes x = true) : rowUsed primes i = true :=
  any_eq_true.mpr ⟨j, hj, (rowFlag_iff primes i j).mpr ⟨x, hx, hflag⟩⟩

/-- The first row that may be needed. -/
def firstRow (B2min : ℕ) : ℕ :=
  (B2min + stage2D / 2) / stage2D

/-- The search for the last row finds one if there is a prime, and all primes belong to
the rows up to it. -/
theorem find_lastRow (hB2min : 11 ≤ B2min) {p : ℕ} (hp : Stage2Prime B2min B2 p) :
    ∃ maxI, (downFrom (firstRow B2) (firstRow B2min)).find?
        (rowUsed (initialPrimes B2min B2)) = some maxI ∧
      ∀ p, Stage2Prime B2min B2 p → ValidEntry (firstRow B2min) maxI p := by
  have hused : ∀ p, Stage2Prime B2min B2 p → ∃ j ∈ stage2S1, RowEntry (firstRow p) j p ∧
      firstRow B2min ≤ firstRow p ∧ firstRow p ≤ firstRow B2 ∧
      rowUsed (initialPrimes B2min B2) (firstRow p) = true := by
    intro p hp
    obtain ⟨j, hj, hx⟩ := prime_rowEntry hp.1 (by have := hp.2.1; omega)
    have hflag : initialPrimes B2min B2 p = true :=
      decide_eq_true ⟨hp.2.1, hp.2.2, hp.1⟩
    refine ⟨j, hj, hx, ?_, ?_, rowUsed_of_flag hj hx hflag⟩
    · exact Nat.div_le_div_right (Nat.add_le_add_right hp.2.1.le _)
    · exact Nat.div_le_div_right (Nat.add_le_add_right hp.2.2 _)
  have hsome : ((downFrom (firstRow B2) (firstRow B2min)).find?
      (rowUsed (initialPrimes B2min B2))).isSome = true := by
    obtain ⟨j, hj, hx, hlo, hhi, hrow⟩ := hused p hp
    rw [List.find?_isSome]
    exact ⟨firstRow p, mem_downFrom.mpr ⟨hlo, hhi⟩, hrow⟩
  obtain ⟨maxI, hmaxI⟩ := Option.isSome_iff_exists.mp hsome
  refine ⟨maxI, hmaxI, fun p hp => ?_⟩
  obtain ⟨j, hj, hx, hlo, hhi, hrow⟩ := hused p hp
  exact ⟨firstRow p, j, hlo, le_of_find_downFrom hmaxI hlo hhi hrow, hj, hx⟩

variable (B2) in
theorem compositePairing_valid {maxI minI : ℕ} (primes : Primes)
    (hprimes : ∀ x, primes x = true → ValidEntry minI maxI x) :
    ∀ x, compositePairing B2 maxI minI primes x = true → ValidEntry minI maxI x := by
  have hpass1 : ∀ x, (downFrom B2 (pass1Bound maxI)).foldl pass1Step primes x = true →
      ValidEntry minI maxI x := fun x hx => hprimes x (foldl_pass1Step_mono hx)
  exact takePair_valid (takePair_valid hpass1 fun _ h => mem_passSteps h)
    fun _ h => mem_passSteps h

/-- The codes stand for exactly the pairs with a flagged number, and all flags are
cleared. -/
theorem emitRows_final {lo maxI minI : ℕ} {final : Primes}
    (hfinal : ∀ x, final x = true → ValidEntry lo maxI x)
    (hminI : minI = ((range' lo (maxI + 1 - lo)).find? (rowUsed final)).getD (maxI + 1)) :
    (∀ i j, (i, j) ∈ decodePairs stage2S1 minI
        ((emitRows B2 minI maxI final).pairs ++ [nextPass]) ↔
      j ∈ stage2S1 ∧ rowFlag final i j = true) ∧
    ∀ x ≤ B2, (emitRows B2 minI maxI final).primes x = false := by
  have hrow : ∀ i j x, j ∈ stage2S1 → RowEntry i j x → final x = true →
      minI ≤ i ∧ i ≤ maxI := by
    intro i j x hj hx hflag
    obtain ⟨i', j', hlo, hhi, hj', hx'⟩ := hfinal x hflag
    obtain ⟨rfl, rfl⟩ := hx.unique hj hj' hx'
    have hfind := getD_find_range'_le hlo (rowUsed_of_flag hj hx hflag)
      (show i < lo + (maxI + 1 - lo) by omega) (maxI + 1)
    rw [← hminI] at hfind
    exact ⟨hfind.2, hhi⟩
  by_cases hempty : ∃ x, final x = true
  · obtain ⟨x, hflag⟩ := hempty
    obtain ⟨i, j, -, -, hj, hx⟩ := hfinal x hflag
    obtain ⟨hmin, hmax⟩ := hrow i j x hj hx hflag
    obtain ⟨rows, rfl⟩ := Nat.exists_eq_add_of_le (hmin.trans hmax)
    obtain ⟨hencoded, hmono, hgone⟩ := emitRows_spec final B2 minI rows
    refine ⟨fun i j => (hencoded i j).trans ?_, fun x hx => ?_⟩
    · constructor
      · rintro ⟨-, -, hj, hrowflag⟩
        exact ⟨hj, hrowflag⟩
      · rintro ⟨hj, hrowflag⟩
        obtain ⟨x, hx, hflag⟩ := (rowFlag_iff final i j).mp hrowflag
        obtain ⟨hmin, hmax⟩ := hrow i j x hj hx hflag
        exact ⟨hmin, hmax, hj, hrowflag⟩
    · rw [← Bool.not_eq_true]
      intro hset
      obtain ⟨i, j, -, -, hj, hrowx⟩ := hfinal x (hmono x hset)
      obtain ⟨hmin, hmax⟩ := hrow i j x hj hrowx (hmono x hset)
      rw [hgone i j x hmin hmax hj hrowx hx] at hset
      cases hset
  · rw [not_exists] at hempty
    have hnone : minI = maxI + 1 := by
      rw [hminI]
      have hunused : (range' lo (maxI + 1 - lo)).find? (rowUsed final) = none := by
        rw [List.find?_eq_none]
        intro i _ hused
        obtain ⟨j, hj, hrowflag⟩ := any_eq_true.mp hused
        obtain ⟨x, -, hflag⟩ := (rowFlag_iff final i j).mp hrowflag
        exact hempty x hflag
      rw [hunused, Option.getD_none]
    have hstate : emitRows B2 minI maxI final = ⟨final, 0, []⟩ := by
      rw [hnone, emitRows, Nat.sub_self, List.range'_zero, List.foldl_nil]
    rw [hstate]
    refine ⟨fun i j => ?_, fun x _ => Bool.eq_false_iff.mpr (hempty x)⟩
    simp only [List.nil_append, decodePairs, if_true, not_mem_nil, false_iff, not_and]
    intro hj hrowflag
    obtain ⟨x, -, hflag⟩ := (rowFlag_iff final i j).mp hrowflag
    exact hempty x hflag

/-- The size of the array does not wrap. -/
def SizeFits (B2 : ℕ) : Prop :=
  B2 + stage2D / 2 < 2 ^ 32 ∧ firstRow B2 * stage2D + stage2D / 2 < 2 ^ 32

section

variable (hB2min : 11 ≤ B2min) {p : ℕ} (hp : Stage2Prime B2min B2 p) (hsize : SizeFits B2)
include hB2min hp hsize

theorem stage2MakePlan_eq : ∃ maxI minI final, (downFrom (firstRow B2) (firstRow B2min)).find?
        (rowUsed (initialPrimes B2min B2)) = some maxI ∧
      final = compositePairing B2 maxI (firstRow B2min) (initialPrimes B2min B2) ∧
      minI = ((range' (firstRow B2min) (maxI + 1 - firstRow B2min)).find?
        (rowUsed final)).getD (maxI + 1) ∧
      (∀ p, Stage2Prime B2min B2 p → ValidEntry (firstRow B2min) maxI p) ∧
      (∀ x, final x = true → ValidEntry (firstRow B2min) maxI x) ∧
      (∀ x ≤ B2, (emitRows B2 minI maxI final).primes x = false) ∧
      stage2MakePlan B2min B2 = some
        { B2 := B2, d := stage2D, s1 := stage2S1.length, i0 := minI, i1 := maxI + 1,
          S1 := stage2S1, pairs := (emitRows B2 minI maxI final).pairs ++ [nextPass] } := by
  obtain ⟨maxI, hmaxI, hvalid⟩ := find_lastRow hB2min hp
  obtain ⟨hsize₁, hsize₂⟩ := hsize
  have hlt : ¬B2 ≤ B2min := by have := hp.2; omega
  have hwrap : ¬(B2 + stage2D / 2 ≥ 2 ^ 32 ∨
      firstRow B2 * stage2D + stage2D / 2 ≥ 2 ^ 32) := by
    omega
  have hfinal := compositePairing_valid B2 (initialPrimes B2min B2)
    fun x hx => hvalid x (by
      simp only [initialPrimes, decide_eq_true_eq] at hx
      exact ⟨hx.2.2, hx.1, hx.2.1⟩)
  obtain ⟨minI, hminI⟩ : ∃ minI, minI = ((range' (firstRow B2min)
      (maxI + 1 - firstRow B2min)).find? (rowUsed (compositePairing B2 maxI (firstRow B2min)
        (initialPrimes B2min B2)))).getD (maxI + 1) := ⟨_, rfl⟩
  obtain ⟨-, hclear⟩ := @emitRows_final B2 _ _ _ _ hfinal hminI
  refine ⟨maxI, minI, _, hmaxI, rfl, hminI, hvalid, hfinal, hclear, ?_⟩
  have hcheck : ¬(range' (B2min + 1) (B2 - B2min)).any
      (emitRows B2 minI maxI (compositePairing B2 maxI (firstRow B2min)
        (initialPrimes B2min B2))).primes.flag = true := by
    rw [any_eq_true]
    rintro ⟨x, hx, hset⟩
    rw [List.mem_range'_1] at hx
    rw [hclear x (by omega)] at hset
    cases hset
  unfold firstRow at *
  simp only [stage2MakePlan, if_neg hlt, if_neg hwrap, hmaxI, ← hminI, if_neg hcheck]

theorem stage2MakePlan_spec : ∃ maxI plan, (downFrom (firstRow B2) (firstRow B2min)).find?
        (rowUsed (initialPrimes B2min B2)) = some maxI ∧
      (∀ p, Stage2Prime B2min B2 p → ValidEntry (firstRow B2min) maxI p) ∧
      stage2MakePlan B2min B2 = some plan ∧
      ∀ i j, (i, j) ∈ plan.encoded ↔ j ∈ stage2S1 ∧
        rowFlag (compositePairing B2 maxI (firstRow B2min) (initialPrimes B2min B2)) i j
          = true := by
  obtain ⟨maxI, minI, final, hmaxI, rfl, hminI, hvalid, hfinal, -, hplan⟩ :=
    stage2MakePlan_eq hB2min hp hsize
  exact ⟨maxI, _, hmaxI, hvalid, hplan, (emitRows_final hfinal hminI).1⟩

end

/-- The plan covers every prime between the bounds, if the size of the array does not
wrap and no step of the later passes flags a number already flagged or clears a number
kept for the primes that its pair covers. -/
theorem stage2MakePlan_covers (hB2min : 11 ≤ B2min) (hprime : ∃ p, Stage2Prime B2min B2 p)
    (hsize : SizeFits B2)
    (hclean : ∀ maxI, (downFrom (firstRow B2) (firstRow B2min)).find?
        (rowUsed (initialPrimes B2min B2)) = some maxI →
      CleanPairing B2 maxI (firstRow B2min) (initialPrimes B2min B2)) :
    ∃ plan, stage2MakePlan B2min B2 = some plan ∧
      ∀ p, Stage2Prime B2min B2 p → ∃ i j, (i, j) ∈ plan.encoded ∧
        ((p : ℤ) ∣ i * stage2D - j ∨ (p : ℤ) ∣ i * stage2D + j) := by
  obtain ⟨p, hp⟩ := hprime
  obtain ⟨maxI, plan, hmaxI, hvalid, hplan, hencoded⟩ := stage2MakePlan_spec hB2min hp hsize
  obtain ⟨hclean₂, hclean₃⟩ := hclean maxI hmaxI
  have hB2 : B2 ≤ 4294967144 := by
    unfold SizeFits firstRow stage2D at hsize
    omega
  have hrun := foldl_passRun_inv pass3Drops_divisors
    (foldl_passRun_inv pass2Drops_divisors (pass1Runs_inv hB2 hvalid)
      (fun _ h => mem_passSteps h) hclean₂)
    (fun _ h => mem_passSteps h) hclean₃
  have hprimes : ((passSteps maxI (firstRow B2min)).foldl (passRun pass3Drops)
      ((passSteps maxI (firstRow B2min)).foldl (passRun pass2Drops)
        (pass1Runs B2 maxI (initialPrimes B2min B2)))).primes
      = compositePairing B2 maxI (firstRow B2min) (initialPrimes B2min B2) := by
    rw [foldl_passRun_primes, foldl_passRun_primes, pass1Runs, foldl_pass1Run_primes]
    rfl
  refine ⟨plan, hplan, fun p hp => ?_⟩
  obtain ⟨x, hflag, hcover⟩ : ∃ x, compositePairing B2 maxI (firstRow B2min)
      (initialPrimes B2min B2) x = true ∧ PairCovers x p := by
    rw [← hprimes]
    rcases hrun.cover p hp with hflag | ⟨x, hx, hcover⟩
    · exact ⟨p, hflag, Or.inl dvd_rfl⟩
    · exact ⟨x, hrun.kept x hx, hcover⟩
  obtain ⟨i, j, -, -, hj, hx⟩ := hrun.valid x (by rw [hprimes]; exact hflag)
  refine ⟨i, j, (hencoded i j).mpr ⟨hj, (rowFlag_iff _ i j).mpr ⟨x, hx, hflag⟩⟩, ?_⟩
  unfold PairCovers at hcover
  rcases hx.partner hj with ⟨hxe, hpartner⟩ | ⟨hxe, hpartner⟩
  · rwa [hxe, hpartner] at hcover
  · rw [hxe, hpartner] at hcover
    exact hcover.symm

/-- A step is clean or not by what it drops. -/
instance (drops : Primes → ℕ × ℕ → Option (ℕ × ℕ)) (run : PassRun) (step : ℕ × ℕ) :
    Decidable (CleanStep drops run step) :=
  match hcase : drops run.primes step with
  | none => .isTrue fun r1 r2 h => by rw [hcase] at h; cases h
  | some (r1, r2) =>
    decidable_of_iff (run.primes (lowerOf step) = false ∧ r1 ∉ run.kept ∧ r2 ∉ run.kept)
      ⟨fun h r1' r2' heq => by
        rw [hcase] at heq
        obtain ⟨rfl, rfl⟩ := Prod.mk.inj (Option.some.inj heq)
        exact h, fun h => h r1 r2 hcase⟩

instance decidableCleanSteps (drops : Primes → ℕ × ℕ → Option (ℕ × ℕ)) :
    (run : PassRun) → (steps : List (ℕ × ℕ)) → Decidable (CleanSteps drops run steps)
  | _, [] => .isTrue trivial
  | run, step :: steps =>
    have := decidableCleanSteps drops (passRun drops run step) steps
    inferInstanceAs (Decidable (_ ∧ _))

instance (B2 maxI minI : ℕ) (primes : Primes) :
    Decidable (CleanPairing B2 maxI minI primes) :=
  inferInstanceAs (Decidable (_ ∧ _))

/-- The plan for the primes between 100 and 130. -/
theorem stage2MakePlan_covers_130 : ∃ plan, stage2MakePlan 100 130 = some plan ∧
    ∀ p, Stage2Prime 100 130 p → ∃ i j, (i, j) ∈ plan.encoded ∧
      ((p : ℤ) ∣ i * stage2D - j ∨ (p : ℤ) ∣ i * stage2D + j) := by
  refine stage2MakePlan_covers (by decide) ⟨101, by norm_num, by decide, by decide⟩
    (by unfold SizeFits; decide) fun maxI hmaxI => ?_
  have hlast : (downFrom (firstRow 130) (firstRow 100)).find? (rowUsed (initialPrimes 100 130))
      = some 1 := by
    decide +kernel
  obtain rfl : 1 = maxI := Option.some.inj (hlast.symm.trans hmaxI)
  decide +kernel

/-! ## Bounds with a gap

For the bounds 78582 and 9507241 the second pass reaches the pair of 864307 and
864413 = 11 * 78583 with both primes 864307 and 78583 flagged.  It flags 864307 and clears
it again, since 864307 is its own flagged divisor.  No other pair covers it. -/

/-- The array after the first pass. -/
def gapPrimes (B2min B2 maxI : ℕ) : Primes :=
  (downFrom B2 (pass1Bound maxI)).foldl pass1Step (initialPrimes B2min B2)

/-- Numbers `(p, t, x)` such that the first pass drops `x` at `p`. -/
def gapDropped : List (ℕ × ℕ × ℕ) :=
  [(2927599, 17, 172213), (9380029, 13, 721547), (7587089, 41, 185051),
    (7458643, 37, 201581), (3560059, 19, 187379), (2793383, 17, 164321)]

/-- The factors of the partners of the multiples of 78583. -/
def gapFactors : List (List ℕ) :=
  [[78497], [991, 1031], [43, 31063], [29, 51487], [11, 164321], [499, 4567],
    [13, 187379], [13, 47, 4759], [31, 103, 1009], [857, 3943], [1151, 3209], [661, 6301],
    [23, 201581], [317, 15121], [41, 53, 2423], [13, 17, 25247], [31, 185051],
    [251, 24733], [59, 227, 487], [167, 41879], [401, 19009], [11, 721547], [47, 172213],
    [521, 16139], [367, 23339], [19, 41, 11399]]

/-- Each factor is below the bounds or dropped by the first pass, and the product is not a
prime that the first pass visits. -/
def GapBarren (factors : List ℕ) : Prop :=
  (∀ f ∈ factors, 0 < f ∧ f ≤ 78582 ∨ f ∈ gapDropped.map fun c => c.2.2) ∧
    (factors.prod ≤ 864311 ∨ ∃ f ∈ factors, f ≠ 1 ∧ f ≠ factors.prod)

instance (factors : List ℕ) : Decidable (GapBarren factors) :=
  inferInstanceAs (Decidable (_ ∧ _))

/-- The numbers that stay unflagged once the pair has been taken. -/
def gapSet : Set ℕ :=
  {x | 0 < x ∧ x ≤ 4139 ∨ x ∈ [864307, 864413, 78583, 9507377, 9507283]}

theorem prime_864307 : Nat.Prime 864307 := by norm_num

theorem prime_78583 : Nat.Prime 78583 := by norm_num

theorem gapDropped_spec : ∀ c ∈ gapDropped, c.1.Prime ∧ c.2.1.Prime ∧ c.2.2.Prime ∧
    864312 < c.1 ∧ c.1 ≤ 9507241 ∧ 11 ≤ c.2.1 ∧ c.2.1 ≤ c.2.2 ∧
    ((c.2.1 * c.2.2 : ℕ) : ℤ) = partner c.1 := by
  have hpartner : ∀ c ∈ gapDropped, 864312 < c.1 ∧ c.1 ≤ 9507241 ∧ 11 ≤ c.2.1 ∧
      c.2.1 ≤ c.2.2 ∧ ((c.2.1 * c.2.2 : ℕ) : ℤ) = partner c.1 := by decide +kernel
  have hprime : ∀ c ∈ gapDropped, c.1.Prime ∧ c.2.1.Prime ∧ c.2.2.Prime := by
    simp only [gapDropped, forall_mem_cons]
    norm_num
  intro c hc
  obtain ⟨hp, ht, hx⟩ := hprime c hc
  exact ⟨hp, ht, hx, hpartner c hc⟩

theorem gap_partner {n : ℕ} (hn : Coprime stage2D n) (hle : n ≤ 9507434)
    (hdvd : 864307 ∣ n ∨ 78583 ∣ n) (hne : n ≠ 864307) (hne' : n ≠ 864413) :
    ∃ factors : List ℕ, partner n = (factors.prod : ℕ) ∧ GapBarren factors := by
  have hcoprime : ∀ {x s}, n = x * s → Coprime 210 s := by
    rintro x s rfl
    exact Coprime.coprime_mul_left_right hn
  rcases hdvd with ⟨s, hs⟩ | ⟨s, hs⟩
  · have htable : ∀ s < 12, Coprime 210 s → s = 1 ∨ s = 11 := by decide
    rcases htable s (by omega) (hcoprime hs) with rfl | rfl
    · omega
    · refine ⟨[2297, 4139], ?_⟩
      rw [hs]
      decide +kernel
  · have htable : ∀ s < 121, Coprime 210 s → s ≠ 11 →
        ∃ factors ∈ gapFactors, partner (78583 * s : ℕ) = (factors.prod : ℕ) ∧
          GapBarren factors := by
      decide +kernel
    obtain ⟨factors, -, hfactors⟩ := htable s (by omega) (hcoprime hs) (by omega)
    rw [hs]
    exact ⟨factors, hfactors⟩

/-- The bounds, and the last row for them. -/
structure GapBounds (B2min B2 maxI : ℕ) : Prop where
  min_eq : B2min = 78582
  max_eq : B2 = 9507241
  row_eq : maxI = 45273

section Gap

variable {maxI : ℕ}

theorem gapPrimes_prime {y : ℕ} (h : gapPrimes B2min B2 maxI y = true) :
    Stage2Prime B2min B2 y := by
  have hinit := foldl_pass1Step_mono h
  simp only [initialPrimes, decide_eq_true_eq] at hinit
  exact ⟨hinit.2.2, hinit.1, hinit.2.1⟩

section

variable (h : GapBounds B2min B2 maxI)
include h

theorem GapBounds.pass1Bound_eq : pass1Bound maxI = 864312 := by
  rw [h.row_eq]
  decide

theorem GapBounds.visited {p q : ℕ}
    (hp : p ∈ downFrom B2 (pass1Bound maxI)) (hflag : initialPrimes B2min B2 p = true)
    (hq : (q : ℤ) = partner p) :
    p.Prime ∧ 864312 ≤ p ∧ Coprime stage2D q ∧ q ≤ 9507434 ∧ partner q = p := by
  obtain ⟨hlow, hhigh⟩ := mem_downFrom.mp hp
  rw [h.pass1Bound_eq] at hlow
  rw [h.max_eq] at hhigh
  simp only [initialPrimes, decide_eq_true_eq] at hflag
  obtain ⟨j, hj, hx⟩ := prime_rowEntry hflag.2.2 (by omega)
  obtain ⟨hentry, hpartner⟩ := hx.partner_partner hj hq
  have hbounds := stage2S1_bounds hj
  refine ⟨hflag.2.2, hlow, hentry.coprime hj, ?_, hpartner⟩
  unfold RowEntry stage2D at hentry
  omega

theorem gapPrimes_keeps {x : ℕ} (hx : x = 864307 ∨ x = 78583) :
    gapPrimes B2min B2 maxI x = true := by
  have hprime : x.Prime := by
    rcases hx with rfl | rfl
    · exact prime_864307
    · exact prime_78583
  have hmin := h.min_eq
  have hmax := h.max_eq
  refine foldl_pass1Step_keeps ?_ (decide_eq_true ⟨by omega, by omega, hprime⟩) ?_
  · intro p hp
    have hle := (mem_downFrom.mp hp).2
    omega
  · intro p hp hflag q hq hdvd
    obtain ⟨hpprime, hlow, hcoprime, hqle, hpartner⟩ := h.visited hp hflag hq
    by_contra hne
    have hdvd' : 864307 ∣ q ∨ 78583 ∣ q := by
      rcases hx with rfl | rfl
      · exact Or.inl hdvd
      · exact Or.inr hdvd
    have hne₁ : q ≠ 864307 := by
      rintro rfl
      rcases hx with rfl | rfl
      · exact hne rfl
      · omega
    have hne₂ : q ≠ 864413 := by
      rintro rfl
      have heval : partner 864413 = 864307 := by decide +kernel
      rw [heval] at hpartner
      omega
    obtain ⟨factors, hprod, -, hsmall⟩ := gap_partner hcoprime hqle hdvd' hne₁ hne₂
    have hpe : p = factors.prod := by
      rw [hpartner] at hprod
      exact Int.natCast_inj.mp hprod
    rcases hsmall with hsmall | ⟨f, hf, hone, hprodne⟩
    · omega
    · rw [hpe] at hpprime
      rcases (dvd_prime hpprime).mp (List.dvd_prod hf) with hf | hf
      · exact hone hf
      · exact hprodne hf

theorem gapPrimes_dropped {x : ℕ}
    (hx : x ∈ gapDropped.map fun c => c.2.2) : gapPrimes B2min B2 maxI x = false := by
  obtain ⟨⟨p, t, x⟩, hc, rfl⟩ := mem_map.mp hx
  obtain ⟨hp, ht, hxprime, hlow, hhigh, hmin, hle, hpartner⟩ := gapDropped_spec _ hc
  simp only at hp ht hxprime hlow hhigh hmin hle hpartner
  have hB2min := h.min_eq
  have hB2 := h.max_eq
  refine foldl_pass1Step_clears ?_ ?_
    (mem_downFrom.mpr ⟨by rw [h.pass1Bound_eq]; omega, by omega⟩) (by omega)
    (decide_eq_true ⟨by omega, by omega, hp⟩) ?_ ht hxprime hle hmin hpartner
  · intro y hy
    simp only [initialPrimes, decide_eq_true_eq] at hy
    exact hy.2.2
  · intro p hp
    have hle := (mem_downFrom.mp hp).2
    omega
  · intro p' hp' hflag q hq hdvd
    obtain ⟨-, -, hcoprime, hqle, -⟩ := h.visited hp' hflag hq
    obtain ⟨s, rfl⟩ := hdvd
    have htable : ∀ s < 11, Coprime 210 s → s = 1 := by decide
    have hs : s < 11 := by
      by_contra hlarge
      have : 864313 * 11 ≤ p * s := Nat.mul_le_mul hlow (not_lt.mp hlarge)
      omega
    rw [htable s hs (Coprime.coprime_mul_left_right hcoprime), mul_one]

theorem GapBarren.unflagged {factors : List ℕ}
    (hfactors : GapBarren factors) {P : ℕ} (hP : P.Prime) (hdvd : P ∣ factors.prod) :
    gapPrimes B2min B2 maxI P = false := by
  obtain ⟨f, hf, hPf⟩ := (Prime.dvd_prod_iff hP.prime).mp hdvd
  rcases hfactors.1 f hf with hsmall | hdropped
  · rw [← Bool.not_eq_true]
    intro hflag
    have hlow := (gapPrimes_prime hflag).2.1
    have hle := le_of_dvd hsmall.1 hPf
    rw [h.min_eq] at hlow
    omega
  · obtain ⟨c, hc, rfl⟩ := mem_map.mp hdropped
    have hPe : P = c.2.2 :=
      (Nat.prime_dvd_prime_iff_eq hP (gapDropped_spec c hc).2.2.1).mp hPf
    rw [hPe]
    exact gapPrimes_dropped h hdropped

end

/-- What holds in the second pass until it reaches the pair `(4116, 53)`. -/
structure GapOpen (base primes : Primes) : Prop where
  first : primes 864307 = true
  second : primes 78583 = true
  /-- Every flagged number has a prime factor that the first pass left flagged. -/
  divisor : ∀ y, primes y = true → ∃ P, P.Prime ∧ P ∣ y ∧ base P = true
  free : primes 864413 = false ∧ primes 9507377 = false

/-- The steps of the later passes for the bounds. -/
def GapStep (step : ℕ × ℕ) : Prop :=
  374 ≤ step.1 ∧ step.1 ≤ 45273 ∧ step.2 ∈ stage2S1

theorem GapStep.eq_of_entry {step : ℕ × ℕ} (hstep : GapStep step) {i j x : ℕ}
    (hj : j ∈ stage2S1) (hx : RowEntry i j x) (h : lowerOf step = x ∨ upperOf step = x) :
    step = (i, j) := by
  obtain ⟨hlower, hupper, -, -⟩ := rowEntry_step (by have := hstep.1; omega) hstep.2.2
  rcases h with rfl | rfl
  · obtain ⟨hi, hj⟩ := hlower.unique hstep.2.2 hj hx
    exact Prod.ext hi hj
  · obtain ⟨hi, hj⟩ := hupper.unique hstep.2.2 hj hx
    exact Prod.ext hi hj

/-- The partner of a multiple of one of the two primes has no flagged divisor, apart from
the pair `(4116, 53)`. -/
theorem GapOpen.barren (h : GapBounds B2min B2 maxI) {primes : Primes}
    (hopen : GapOpen (gapPrimes B2min B2 maxI) primes) {step : ℕ × ℕ} (hstep : GapStep step)
    (hne : step ≠ (4116, 53)) {n m : ℕ}
    (hnm : n = lowerOf step ∧ m = upperOf step ∨ n = upperOf step ∧ m = lowerOf step)
    (hdvd : 864307 ∣ n ∨ 78583 ∣ n) {r : ℕ} (hr : r ∣ m) : primes r = false := by
  have hj : (53 : ℕ) ∈ stage2S1 := by decide
  obtain ⟨hlo, hhi, hj'⟩ := hstep
  have hbounds := stage2S1_bounds hj'
  obtain ⟨hlower, hupper, hpartner, hpartner'⟩ := rowEntry_step (by omega) hj'
  have hentry : RowEntry step.1 step.2 n ∧ partner n = m := by
    rcases hnm with ⟨rfl, rfl⟩ | ⟨rfl, rfl⟩
    · exact ⟨hlower, hpartner⟩
    · exact ⟨hupper, hpartner'⟩
  have hnstep : lowerOf step = n ∨ upperOf step = n := by
    rcases hnm with ⟨hn, -⟩ | ⟨hn, -⟩
    · exact Or.inl hn.symm
    · exact Or.inr hn.symm
  have hne₁ : n ≠ 864307 := fun hn =>
    hne (GapStep.eq_of_entry ⟨hlo, hhi, hj'⟩ hj (by unfold RowEntry stage2D; omega) (hn ▸ hnstep))
  have hne₂ : n ≠ 864413 := fun hn =>
    hne (GapStep.eq_of_entry ⟨hlo, hhi, hj'⟩ hj (by unfold RowEntry stage2D; omega) (hn ▸ hnstep))
  have hle : n ≤ 9507434 := by
    have hrow := hentry.1
    unfold RowEntry stage2D at hrow
    omega
  obtain ⟨factors, hprod, hfactors⟩ := gap_partner (hentry.1.coprime hj') hle hdvd hne₁ hne₂
  have hm : m = factors.prod := by
    rw [hentry.2] at hprod
    exact Int.natCast_inj.mp hprod
  rw [← Bool.not_eq_true]
  intro hflag
  obtain ⟨P, hP, hPr, hbase⟩ := hopen.divisor r hflag
  rw [hfactors.unflagged h hP (by rw [← hm]; exact hPr.trans hr)] at hbase
  cases hbase

/-- Another pair of the second pass leaves the gap open. -/
theorem GapOpen.pass2Step (h : GapBounds B2min B2 maxI) {primes : Primes}
    (hopen : GapOpen (gapPrimes B2min B2 maxI) primes) {step : ℕ × ℕ} (hstep : GapStep step)
    (hne : step ≠ (4116, 53)) :
    GapOpen (gapPrimes B2min B2 maxI) (CadoNfs.pass2Step primes step) := by
  unfold CadoNfs.pass2Step
  cases hcase : pass2Drops primes step with
  | none => exact hopen
  | some rs =>
    obtain ⟨r1, r2⟩ := rs
    obtain ⟨hr1, hr2⟩ := pass2Drops_both hcase
    obtain ⟨hdrop1, hdrop2, -⟩ := pass2Drops_divisors _ _ _ _ hcase
    obtain ⟨hdvd1, hflag1⟩ := hdrop1 hr1
    obtain ⟨hdvd2, hflag2⟩ := hdrop2 hr2
    have hlower : ∀ x, x = 864307 ∨ x = 78583 → x ≠ r1 := by
      rintro x hx rfl
      have hdvd : 864307 ∣ lowerOf step ∨ 78583 ∣ lowerOf step := by
        rcases hx with rfl | rfl
        · exact Or.inl hdvd1
        · exact Or.inr hdvd1
      rw [hopen.barren h hstep hne (Or.inl ⟨rfl, rfl⟩) hdvd hdvd2] at hflag2
      cases hflag2
    have hupper : ∀ x, x = 864307 ∨ x = 78583 → x ≠ r2 := by
      rintro x hx rfl
      have hdvd : 864307 ∣ upperOf step ∨ 78583 ∣ upperOf step := by
        rcases hx with rfl | rfl
        · exact Or.inl hdvd2
        · exact Or.inr hdvd2
      rw [hopen.barren h hstep hne (Or.inr ⟨rfl, rfl⟩) hdvd hdvd1] at hflag1
      cases hflag1
    constructor
    · rw [takePair_apply, if_neg (hupper _ (Or.inl rfl)), if_neg (hlower _ (Or.inl rfl)),
        hopen.first, ite_self]
    · rw [takePair_apply, if_neg (hupper _ (Or.inr rfl)), if_neg (hlower _ (Or.inr rfl)),
        hopen.second, ite_self]
    · intro y hy
      rw [takePair_apply] at hy
      split_ifs at hy with h₁ h₂ h₃
      · obtain ⟨P, hP, hPr, hbase⟩ := hopen.divisor r1 hflag1
        exact ⟨P, hP, h₃ ▸ hPr.trans hdvd1, hbase⟩
      · exact hopen.divisor y hy
    · have hne₁ : 864413 ≠ lowerOf step := fun heq => hne (hstep.eq_of_entry (by decide)
        (by unfold RowEntry stage2D; omega) (Or.inl heq.symm))
      have hne₂ : 9507377 ≠ lowerOf step := by
        intro heq
        have hrow : RowEntry 45273 47 9507377 := by unfold RowEntry stage2D; omega
        rw [hstep.eq_of_entry (by decide) hrow (Or.inl heq.symm)] at heq
        exact absurd heq (by decide)
      rw [takePair_apply, takePair_apply, if_neg hne₁, if_neg hne₂, hopen.free.1, hopen.free.2]
      simp

/-- One pair of the second pass clears the whole gap. -/
theorem GapOpen.pass2Step_gap (h : GapBounds B2min B2 maxI) {primes : Primes}
    (hopen : GapOpen (gapPrimes B2min B2 maxI) primes) :
    ∀ x ∈ gapSet, CadoNfs.pass2Step primes (4116, 53) x = false := by
  have hfirst : findPrimeDiv 864307 notInD primes = 864307 :=
    findPrimeDiv_prime prime_864307 (by omega) hopen.first
  have hsecond : findPrimeDiv (11 * 78583) notInD primes = 78583 :=
    findPrimeDiv_mul (by decide) prime_78583 (by omega) (by decide) (by omega) hopen.second
  have hlower : lowerOf (4116, 53) = 864307 := by decide
  have hupper : upperOf (4116, 53) = 864413 := by decide
  have hdrops : pass2Drops primes (4116, 53) = some (864307, 78583) := by
    rw [show 11 * 78583 = 864413 by omega] at hsecond
    simp only [pass2Drops, hlower, hupper, hopen.free.1, hfirst, hsecond]
    rfl
  intro x hx
  rw [CadoNfs.pass2Step, hdrops, takePair_apply, hlower]
  split_ifs with h₁ h₂
  · rfl
  · rfl
  · rw [← Bool.not_eq_true]
    intro hflag
    obtain ⟨P, hP, hdvd, hbase⟩ := hopen.divisor x hflag
    have hlow := (gapPrimes_prime hbase).2.1
    rw [h.min_eq] at hlow
    rcases hx with ⟨hpos, hx⟩ | hx
    · have hle := le_of_dvd hpos hdvd
      omega
    · simp only [mem_cons, not_mem_nil, or_false] at hx
      rcases hx with rfl | rfl | rfl | rfl | rfl
      · exact h₂ rfl
      · rw [hopen.free.1] at hflag
        cases hflag
      · exact h₁ rfl
      · rw [hopen.free.2] at hflag
        cases hflag
      · rw [show 9507283 = 2297 * 4139 by omega, hP.dvd_mul] at hdvd
        rcases hdvd with hdvd | hdvd
        · have hle := le_of_dvd (by omega) hdvd
          omega
        · have hle := le_of_dvd (by omega) hdvd
          omega

theorem dvd_mul_primes {a b r : ℕ} (ha : a.Prime) (hb : b.Prime) (h : r ∣ a * b) :
    r = 1 ∨ r = a ∨ r = b ∨ r = a * b := by
  obtain ⟨k₁, k₂, h₁, h₂, rfl⟩ := Nat.dvd_mul.mp h
  rcases (dvd_prime ha).mp h₁ with rfl | rfl <;>
    rcases (dvd_prime hb).mp h₂ with rfl | rfl <;> simp

/-- The numbers of a step that could flag a member of the set have their divisors in the
set. -/
theorem gapSet_closed {step : ℕ × ℕ} (hstep : GapStep step) (h : lowerOf step ∈ gapSet) :
    (∀ r, r ∣ lowerOf step → r ∈ gapSet) ∧ ∀ r, r ∣ upperOf step → r ∈ gapSet := by
  have hbounds := stage2S1_bounds hstep.2.2
  have hnot : ∀ {i j x}, j ∈ stage2S1 → RowEntry i j x → lowerOf (i, j) ≠ x →
      lowerOf step ≠ x := by
    intro i j x hj hx hne heq
    rw [hstep.eq_of_entry hj hx (Or.inl heq)] at heq
    exact hne heq
  rcases h with ⟨-, h⟩ | h
  · have hlow := hstep.1
    unfold lowerOf stage2D at h
    omega
  · simp only [mem_cons, not_mem_nil, or_false] at h
    have hprime : Nat.Prime 2297 ∧ Nat.Prime 4139 ∧ Nat.Prime 11 := by norm_num
    rcases h with h | h | h | h | h
    · have hrow : RowEntry 4116 53 864307 := by unfold RowEntry stage2D; omega
      rw [hstep.eq_of_entry (by decide) hrow (Or.inl h)]
      refine ⟨fun r hr => ?_, fun r hr => ?_⟩
      · rcases (dvd_prime prime_864307).mp hr with rfl | rfl <;> simp [gapSet]
      · rcases dvd_mul_primes hprime.2.2 prime_78583 hr with rfl | rfl | rfl | rfl <;>
          simp [gapSet]
    · have hrow : RowEntry 4116 53 864413 := by unfold RowEntry stage2D; omega
      exact absurd h (hnot (by decide) hrow (by decide))
    · have hrow : RowEntry 374 43 78583 := by unfold RowEntry stage2D; omega
      exact absurd h (hnot (by decide) hrow (by decide))
    · have hrow : RowEntry 45273 47 9507377 := by unfold RowEntry stage2D; omega
      exact absurd h (hnot (by decide) hrow (by decide))
    · have hrow : RowEntry 45273 47 9507283 := by unfold RowEntry stage2D; omega
      rw [hstep.eq_of_entry (by decide) hrow (Or.inl h)]
      refine ⟨fun r hr => ?_, fun r hr => ?_⟩
      · rcases dvd_mul_primes hprime.1 hprime.2.1 hr with rfl | rfl | rfl | rfl <;>
          simp [gapSet]
      · rcases dvd_mul_primes hprime.2.2 prime_864307 hr with rfl | rfl | rfl | rfl <;>
          simp [gapSet]

theorem GapOpen.foldl_pass2Step (h : GapBounds B2min B2 maxI) {primes : Primes}
    {steps : List (ℕ × ℕ)} (hopen : GapOpen (gapPrimes B2min B2 maxI) primes)
    (hsteps : ∀ step ∈ steps, GapStep step) (hmem : (4116, 53) ∈ steps) :
    ∀ x ∈ gapSet, steps.foldl CadoNfs.pass2Step primes x = false := by
  induction steps generalizing primes with
  | nil => exact absurd hmem not_mem_nil
  | cons step steps ih =>
    obtain ⟨hstep, hsteps⟩ := forall_mem_cons.mp hsteps
    by_cases hgap : step = (4116, 53)
    · rw [List.foldl_cons, hgap]
      exact foldl_takePair_unflagged pass2Drops_divisors
        (fun step hmem => gapSet_closed (hsteps step hmem)) (hopen.pass2Step_gap h)
    · rw [mem_cons] at hmem
      exact ih (hopen.pass2Step h hstep hgap) hsteps
        (hmem.resolve_left fun heq => hgap heq.symm)

/-- The pairing clears the whole gap. -/
theorem compositePairing_gap (h : GapBounds B2min B2 maxI) :
    ∀ x ∈ gapSet,
      compositePairing B2 maxI (firstRow B2min) (initialPrimes B2min B2) x = false := by
  have hfirst : firstRow B2min = 374 := by
    rw [h.min_eq]
    decide
  have hsteps : ∀ step ∈ passSteps maxI (firstRow B2min), GapStep step := by
    intro step hmem
    obtain ⟨hlo, -, hhi, hj⟩ := mem_passSteps hmem
    exact ⟨by omega, by rw [← h.row_eq]; exact hhi, hj⟩
  have hmem : (4116, 53) ∈ passSteps maxI (firstRow B2min) := by
    refine List.mem_flatMap.mpr ⟨4116, mem_downFrom.mpr ⟨?_, ?_⟩, mem_map.mpr
      ⟨53, by decide, rfl⟩⟩
    · rw [hfirst]
      decide
    · rw [h.row_eq]
      omega
  have hopen : GapOpen (gapPrimes B2min B2 maxI) (gapPrimes B2min B2 maxI) := by
    refine ⟨gapPrimes_keeps h (Or.inl rfl), gapPrimes_keeps h (Or.inr rfl),
      fun y hy => ⟨y, (gapPrimes_prime hy).1, dvd_rfl, hy⟩, ?_, ?_⟩
    · rw [← Bool.not_eq_true]
      intro hflag
      have hprime := (gapPrimes_prime hflag).1
      norm_num at hprime
    · rw [← Bool.not_eq_true]
      intro hflag
      have hprime := (gapPrimes_prime hflag).1
      norm_num at hprime
  exact foldl_takePair_unflagged pass3Drops_divisors
    (fun step hmem => gapSet_closed (hsteps step hmem)) (hopen.foldl_pass2Step h hsteps hmem)

/-- A prime of the interval that no pair of the plan covers. -/
theorem gap_not_covered (hmin : B2min = 78582) (hmax : B2 = 9507241) :
    ∃ plan, stage2MakePlan B2min B2 = some plan ∧
      ¬∃ i j, (i, j) ∈ plan.encoded ∧
        ((864307 : ℤ) ∣ i * stage2D - j ∨ (864307 : ℤ) ∣ i * stage2D + j) := by
  have hp : Stage2Prime B2min B2 864307 := ⟨prime_864307, by omega, by omega⟩
  have hsize : SizeFits B2 := by
    unfold SizeFits firstRow stage2D
    omega
  obtain ⟨maxI, plan, hmaxI, hvalid, hplan, hencoded⟩ :=
    stage2MakePlan_spec (by omega) hp hsize
  have hrow : maxI = 45273 := by
    have hlast : Stage2Prime B2min B2 9507241 := ⟨by norm_num, by omega, by omega⟩
    obtain ⟨i, j, -, hi, hj, hx⟩ := hvalid 9507241 hlast
    have hrow : RowEntry 45273 89 9507241 := by unfold RowEntry stage2D; omega
    obtain ⟨rfl, -⟩ := hx.unique hj (by decide) hrow
    have hhigh := (mem_downFrom.mp (List.mem_of_find?_eq_some hmaxI)).2
    unfold firstRow stage2D at hhigh
    omega
  have hbounds : GapBounds B2min B2 maxI := ⟨hmin, hmax, hrow⟩
  have hgap := compositePairing_gap hbounds
  refine ⟨plan, hplan, ?_⟩
  rintro ⟨i, j, hmem, hdvd⟩
  obtain ⟨hj, hrowflag⟩ := (hencoded i j).mp hmem
  obtain ⟨x, hx, hflag⟩ := (rowFlag_iff _ i j).mp hrowflag
  obtain ⟨i', j', hlo, hhi, hj', hx'⟩ := compositePairing_valid _ _
    (fun y hy => hvalid y (by
      simp only [initialPrimes, decide_eq_true_eq] at hy
      exact ⟨hy.2.2, hy.1, hy.2.1⟩)) x hflag
  obtain ⟨rfl, rfl⟩ := hx'.unique hj' hj hx
  have hlow : 374 ≤ i' := by
    rw [hmin] at hlo
    exact hlo
  have hjb := stage2S1_bounds hj
  obtain ⟨n, hn, hdvd⟩ : ∃ n, RowEntry i' j' n ∧ 864307 ∣ n := by
    rcases hdvd with hdvd | hdvd
    · refine ⟨i' * stage2D - j', Or.inl ?_, ?_⟩
      · unfold stage2D
        omega
      · unfold stage2D at *
        omega
    · exact ⟨i' * stage2D + j', Or.inr (by push_cast; rfl), by exact_mod_cast hdvd⟩
  obtain ⟨s, rfl⟩ := hdvd
  have htable : ∀ s < 12, Coprime 210 s → s = 1 ∨ s = 11 := by decide
  have hs : s < 12 := by
    unfold RowEntry stage2D at hn
    omega
  have hnot : x ∈ gapSet → False := by
    intro hset
    rw [hgap x hset] at hflag
    cases hflag
  rcases htable s hs (Coprime.coprime_mul_left_right (hn.coprime hj)) with rfl | rfl
  · have hrow : RowEntry 4116 53 (864307 * 1) := by unfold RowEntry stage2D; omega
    obtain ⟨rfl, rfl⟩ := hn.unique hj (by decide) hrow
    unfold RowEntry stage2D at hx
    refine hnot (Or.inr ?_)
    simp only [mem_cons, not_mem_nil, or_false]
    omega
  · have hrow : RowEntry 45273 47 (864307 * 11) := by unfold RowEntry stage2D; omega
    obtain ⟨rfl, rfl⟩ := hn.unique hj (by decide) hrow
    unfold RowEntry stage2D at hx
    refine hnot (Or.inr ?_)
    simp only [mem_cons, not_mem_nil, or_false]
    omega

end Gap

/-- The plan for these bounds does not cover every prime. -/
theorem stage2MakePlan_gap :
    ∃ plan, stage2MakePlan 78582 9507241 = some plan ∧ Stage2Prime 78582 9507241 864307 ∧
      ¬∃ i j, (i, j) ∈ plan.encoded ∧
        ((864307 : ℤ) ∣ i * stage2D - j ∨ (864307 : ℤ) ∣ i * stage2D + j) := by
  obtain ⟨plan, hplan, hnot⟩ := gap_not_covered rfl rfl
  exact ⟨plan, hplan, ⟨prime_864307, by omega, by omega⟩, hnot⟩

end CadoNfs
