import CadoNfs.Filter.MergeRun
import CadoNfs.Filter.Replay

/-!
# The history of merge

`merge` reports its additions in a history file, and `replay` makes them again, on the
sets of the rows that were added.

Main results:

- Theorem `doAllAdds_reportLine`: a line is read as it was meant.
- Theorem `replay_of_run`: `replay` follows a run of `merge`.
-/

namespace CadoNfs.Merge

open Function (update update_apply update_of_ne update_self)
open SortedXor Digits
open Nat (digitChar toDigits)
open List (append_nil cons_append foldlM_cons map_cons map_nil nil_append)
open Option (bind_eq_bind bind_some map₂ ne_none_iff_exists')
open Forest (pairs)

/-! ## The code of replay -/

/-- The rows of `replay`. -/
abbrev NewRows := ℕ → Option (List ℕ)

/-- A row of `replay`, by a number that may be negative. -/
def rowIndex (i : ℤ) : Option ℕ :=
  if 0 ≤ i then some i.toNat else none

/-- The first loop of `doAllAdds`. -/
def readFirst : ℤ → List Char → Option (ℤ × List Char)
  | _, [] => none
  | i, c :: t =>
    if c ≠ ' ' ∧ c ≠ '\n' then readFirst (10 * i + (c.toNat - 48 : ℤ)) t else some (i, c :: t)

/-- The second loop of `doAllAdds`. -/
def addLoop (i : ℤ) : NewRows → ℤ → List Char → Option NewRows
  | _, _, [] => none
  | newrows, ii, c :: t =>
    if c = '\n' ∨ c = ' ' then do
      let newrows ← addRows newrows (← rowIndex ii) (← rowIndex i) (-1)
      if c = '\n' then some newrows else addLoop i newrows 0 t
    else addLoop i newrows (10 * ii + (c.toNat - 48 : ℤ)) t

/-- The rows after the first one in `doAllAdds`. -/
def doAdds (newrows : NewRows) (i : ℤ) (t : List Char) : Option NewRows :=
  if t.head? ≠ some '\n' then addLoop i newrows 0 t.tail else some newrows

/-- `doAllAdds`. -/
def doAllAdds (newrows : NewRows) (str : List Char) : Option NewRows := do
  let (destroy, t) := if str.head? = some '-' then (false, str.tail) else (true, str)
  let (i, t) ← readFirst 0 t
  let i := if destroy then i else i - 1
  let newrows ← doAdds newrows i t
  if destroy then return update newrows (← rowIndex i) none
  else return newrows

/-- The rows before the first line of the history. -/
def initialRows (nrows : ℕ) : NewRows := fun i =>
  if i < nrows then some [i] else none

/-- `build_newrows_from_file`, on the lines of additions. -/
def buildNewrows (nrows : ℕ) (lines : Report) : Option NewRows :=
  lines.foldlM doAllAdds (initialRows nrows)

/-! ## Reading a line -/

section Line

variable {newrows newrows' : NewRows} {i n : ℕ} {text : List Char} {targets : List ℕ}

theorem digit_ne {d : ℕ} (hd : d < 10) :
    digitChar d ≠ ' ' ∧ digitChar d ≠ '\n' ∧ digitChar d ≠ '-' ∧
      ((digitChar d).toNat - 48 : ℤ) = d := by
  interval_cases d <;> decide

theorem readFirst_toDigits {c : Char} (hc : c = ' ' ∨ c = '\n') :
    readFirst 0 (toDigits 10 n ++ c :: text) = some ((n : ℤ), c :: text) := by
  have hstep : ∀ acc d text, d < 10 →
      readFirst acc (digitChar d :: text) = readFirst ((10 : ℕ) * acc + d) text := by
    intro acc d text hd
    obtain ⟨hspace, hend, -, hvalue⟩ := digit_ne hd
    rw [readFirst, if_pos ⟨hspace, hend⟩, hvalue]
    rfl
  rw [apply_toDigits (by decide) hstep, readFirst, if_neg]
  rcases hc with rfl | rfl <;> simp

theorem addLoop_toDigits {i : ℤ} :
    addLoop i newrows 0 (toDigits 10 n ++ text) = addLoop i newrows n text := by
  have hstep : ∀ acc d text, d < 10 →
      addLoop i newrows acc (digitChar d :: text)
        = addLoop i newrows ((10 : ℕ) * acc + d) text := by
    intro acc d text hd
    obtain ⟨hspace, hend, -, hvalue⟩ := digit_ne hd
    rw [addLoop, if_neg (by simp [hspace, hend]), hvalue]
    rfl
  exact apply_toDigits (by decide) hstep n text

/-- The row `i` is added to the rows `targets`. -/
def addTargets (newrows : NewRows) (i : ℕ) (targets : List ℕ) : Option NewRows :=
  targets.foldlM (fun newrows t => addRows newrows t i (-1)) newrows

theorem printInt_natCast (n : ℕ) : printInt n = toDigits 10 n := by
  rw [printInt, if_neg (by omega), Int.toNat_natCast]

theorem addLoop_reportLine (hne : targets ≠ []) :
    addLoop i newrows 0 (reportLine (targets.map Nat.cast)) = addTargets newrows i targets := by
  induction targets generalizing newrows with
  | nil => exact absurd rfl hne
  | cons a targets ih =>
    have hindex : ∀ k : ℕ, rowIndex k = some k := fun k => by simp [rowIndex]
    cases targets with
    | nil =>
      rw [List.map_singleton, reportLine, printInt_natCast, addLoop_toDigits, addLoop,
        if_pos (Or.inl rfl), hindex, hindex]
      simp [addTargets]
    | cons b targets =>
      have hline : reportLine ((a :: b :: targets).map Nat.cast)
          = toDigits 10 a ++ ' ' :: reportLine ((b :: targets).map Nat.cast) := by
        rw [map_cons, map_cons, reportLine, printInt_natCast]
        simp
      rw [hline, addLoop_toDigits, addLoop, if_pos (Or.inr rfl), hindex, hindex, addTargets,
        foldlM_cons]
      simp only [bind_eq_bind, bind_some]
      cases addRows newrows a i (-1) with
      | none => rfl
      | some newrows' =>
        rw [bind_some, bind_some, if_neg (by simp)]
        exact ih (by simp)

variable (newrows targets) in
/-- A line is read as it was meant. -/
theorem doAllAdds_reportLine (keep : Bool) :
    doAllAdds newrows (reportLine ((if keep then -((i : ℤ) + 1) else i) :: targets.map Nat.cast))
      = (addTargets newrows i targets).map fun newrows =>
        if keep then newrows else update newrows i none := by
  have hindex : ∀ k : ℕ, rowIndex k = some k := fun k => by simp [rowIndex]
  -- the sign, the number, and what follows
  set k := if keep then i + 1 else i with hk
  have hprint : printInt (if keep then -((i : ℤ) + 1) else i)
      = (if keep then ['-'] else []) ++ toDigits 10 k := by
    cases keep with
    | false => exact printInt_natCast i
    | true =>
      have hneg : printInt (-((i : ℤ) + 1)) = '-' :: toDigits 10 (i + 1) := by
        rw [printInt, if_pos (by omega)]
        congr 2
      exact hneg
  obtain ⟨rest, hline, hread, hadds⟩ : ∃ rest,
      reportLine ((if keep then -((i : ℤ) + 1) else i) :: targets.map Nat.cast)
        = (if keep then ['-'] else []) ++ toDigits 10 k ++ rest ∧
      readFirst 0 (toDigits 10 k ++ rest) = some ((k : ℤ), rest) ∧
      doAdds newrows i rest = addTargets newrows i targets := by
    cases targets with
    | nil =>
      refine ⟨['\n'], ?_, readFirst_toDigits (Or.inr rfl), rfl⟩
      rw [map_nil, reportLine, hprint]
    | cons a targets =>
      refine ⟨' ' :: reportLine ((a :: targets).map Nat.cast), ?_, readFirst_toDigits (Or.inl rfl),
        addLoop_reportLine (by simp)⟩
      rw [← hprint, map_cons, reportLine]
      simp
  have hhead : (toDigits 10 k ++ rest).head? ≠ some '-' := by
    intro hhead
    cases hdigits : toDigits 10 k with
    | nil => exact absurd hdigits Nat.toDigits_ne_nil
    | cons c text =>
      rw [hdigits, cons_append, List.head?_cons] at hhead
      obtain ⟨d, hd, hc⟩ := mem_toDigits (by decide : 1 < 10)
        (show c ∈ toDigits 10 k by rw [hdigits]; exact List.mem_cons_self)
      exact (digit_ne hd).2.2.1 (hc ▸ Option.some.inj hhead)
  rw [hline]
  cases keep with
  | false =>
    have hki : k = i := rfl
    rw [hki] at hread hhead
    simp only [doAllAdds, Bool.false_eq_true, if_false, nil_append, hhead, hread, if_true,
      bind_eq_bind, bind_some, hki, hadds, hindex]
    cases addTargets newrows i targets <;> rfl
  | true =>
    have hpred : (k : ℤ) - 1 = i := by
      simp only [hk, if_true]
      omega
    simp only [doAllAdds, if_true, cons_append, nil_append, List.head?_cons,
      List.tail_cons, hread, bind_eq_bind, bind_some, Bool.false_eq_true, if_false, hpred, hadds]
    cases addTargets newrows i targets <;> rfl

end Line

/-! ## Reading the lines of an operation -/

section Lines

variable {newrows : NewRows} {L : List (ℕ × ℕ)} {kept : List (ℕ × List ℕ)} {pivot i : ℕ}
  {targets : List ℕ}

/-- The rows of the additions are there. -/
def Present (newrows : NewRows) (L : List (ℕ × ℕ)) : Prop :=
  ∀ p ∈ L, newrows p.1 ≠ none ∧ newrows p.2 ≠ none

theorem addRows_of_ne_none {i1 i2 : ℕ} (h1 : newrows i1 ≠ none) (h2 : newrows i2 ≠ none) :
    addRows newrows i1 i2 (-1)
      = some (addAll (map₂ xorMerge) [(i1, i2)] newrows) ∧
    ∀ i, newrows i ≠ none → addAll (map₂ xorMerge) [(i1, i2)] newrows i ≠ none := by
  obtain ⟨row1, h1⟩ := ne_none_iff_exists'.mp h1
  obtain ⟨row2, h2⟩ := ne_none_iff_exists'.mp h2
  refine ⟨by simp [addRows, h1, h2], fun i hi => ?_⟩
  rw [addAll_cons, addAll_nil, h1, h2, update_apply]
  split_ifs
  · simp
  · exact hi

theorem foldlM_addRows (h : Present newrows L) :
    L.foldlM (fun newrows p => addRows newrows p.1 p.2 (-1)) newrows
      = some (addAll (map₂ xorMerge) L newrows) ∧
    ∀ i, newrows i ≠ none → addAll (map₂ xorMerge) L newrows i ≠ none := by
  induction L generalizing newrows with
  | nil => exact ⟨rfl, fun _ hi => hi⟩
  | cons p L ih =>
    obtain ⟨⟨h1, h2⟩, hL⟩ := List.forall_mem_cons.mp h
    obtain ⟨hrun, hne⟩ := addRows_of_ne_none h1 h2
    obtain ⟨hrun', hne'⟩ := ih fun q hq => ⟨hne _ (hL q hq).1, hne _ (hL q hq).2⟩
    refine ⟨?_, fun i hi => hne' i (hne i hi)⟩
    rw [foldlM_cons, hrun]
    exact hrun'

theorem addTargets_eq (newrows : NewRows) (i : ℕ) (targets : List ℕ) :
    addTargets newrows i targets = (pairs [(i, targets)]).foldlM
      (fun newrows p => addRows newrows p.1 p.2 (-1)) newrows := by
  have hpairs : pairs [(i, targets)] = targets.map fun t => (t, i) := append_nil _
  rw [hpairs, List.foldlM_map]
  rfl

theorem doAllAdds_keep (h : Present newrows (pairs [(i, targets)])) :
    doAllAdds newrows (reportLine (-((i : ℤ) + 1) :: targets.map Nat.cast))
      = some (addAll (map₂ xorMerge) (pairs [(i, targets)]) newrows) := by
  have hline := doAllAdds_reportLine newrows targets (i := i) true
  rw [addTargets_eq, (foldlM_addRows h).1] at hline
  exact hline

variable (targets) in
theorem doAllAdds_destroy (h : Present newrows (pairs [(i, targets)])) :
    doAllAdds newrows (reportLine ((i : ℤ) :: targets.map Nat.cast))
      = some (update
          (addAll (map₂ xorMerge) (pairs [(i, targets)]) newrows) i none) := by
  have hline := doAllAdds_reportLine newrows targets (i := i) false
  rw [addTargets_eq, (foldlM_addRows h).1] at hline
  exact hline

theorem foldlM_historyLines (h : Present newrows (pairs (kept ++ [(pivot, targets)]))) :
    ((historyLines pivot kept targets).map reportLine).foldlM doAllAdds newrows
      = some (update (addAll (map₂ xorMerge)
          (pairs (kept ++ [(pivot, targets)])) newrows) pivot none) := by
  induction kept generalizing newrows with
  | nil =>
    rw [nil_append] at h ⊢
    have hline := doAllAdds_destroy _ h
    simp only [historyLines, map_nil, nil_append, List.map_singleton, foldlM_cons,
      List.foldlM_nil, hline, bind_eq_bind, bind_some]
    rfl
  | cons e kept ih =>
    have hpairs : pairs (e :: kept ++ [(pivot, targets)])
        = pairs [(e.1, e.2)] ++ pairs (kept ++ [(pivot, targets)]) := by
      rw [← Forest.pairs_append]
      rfl
    rw [hpairs] at h ⊢
    obtain ⟨h₁, h₂⟩ := List.forall_mem_append.mp h
    have hne := (foldlM_addRows h₁).2
    have hrest := ih fun p hp => ⟨hne _ (h₂ p hp).1, hne _ (h₂ p hp).2⟩
    rw [addAll_append, ← hrest]
    simp only [historyLines, map_cons, cons_append, foldlM_cons,
      doAllAdds_keep h₁, bind_eq_bind, bind_some]

theorem foldlM_destroy (is : List ℕ) (newrows : NewRows) :
    (is.map fun i : ℕ => reportLine [(i : ℤ)]).foldlM doAllAdds newrows
      = some fun k => if k ∈ is then none else newrows k := by
  induction is generalizing newrows with
  | nil => simp
  | cons i is ih =>
    have hline : doAllAdds newrows (reportLine [(i : ℤ)]) = some (update newrows i none) :=
      doAllAdds_destroy [] fun p hp => by simp [pairs] at hp
    rw [map_cons, foldlM_cons, hline, bind_eq_bind, bind_some, ih]
    congr 1
    funext k
    by_cases hki : k = i
    · subst hki
      simp
    · simp [hki]

end Lines

/-! ## Following a run -/

/-- The operations that report what they do.  Only they are called by themselves. -/
def Op.Reported : Op → Prop
  | addRowsAndUpdate _ _ _ => False
  | _ => True

/-- One operation that reports what it does. -/
def ReportedStep (st st' : Report × FilterMatrix) : Prop :=
  ∃ op : Op, op.Reported ∧ op.Allowed st.2 ∧ op.run st.1 st.2 = some st'

/-- Outside of the buried columns, `row` is the sum of the rows `nr` of the file. -/
structure SumOf (purged : List (List ℕ)) (cwmax : ℕ) (nr row : List ℕ) : Prop where
  increasing : nr.Pairwise (· < ·)
  lt : ∀ k ∈ nr, k < purged.length
  mem_iff : ∀ j, j ∈ row ↔ Replay.OddIn purged nr j ∧ ¬ Buried purged cwmax j

/-- `replay` has a sum for each row, and has destroyed what `merge` has. -/
structure Follows (purged : List (List ℕ)) (cwmax : ℕ) (mat₀ mat : FilterMatrix)
    (newrows : NewRows) : Prop where
  row : ∀ i row, mat.rows i = some row → ∃ nr, newrows i = some nr ∧ SumOf purged cwmax nr row
  destroyed : ∀ i, mat₀.rows i ≠ none → mat.rows i = none → newrows i = none

section Follows

variable {purged : List (List ℕ)} {cwmax ncols : ℕ} {dropped : ℤ} {mat₀ mat mat' : FilterMatrix}
  {newrows : NewRows} {nr1 nr2 row1 row2 : List ℕ} {rep : Report} {st st' : Report × FilterMatrix}
  {op : Op}

theorem SumOf.xorMerge (h1 : SumOf purged cwmax nr1 row1) (h2 : SumOf purged cwmax nr2 row2)
    (hrow1 : row1.Pairwise (· < ·)) (hrow2 : row2.Pairwise (· < ·)) :
    SumOf purged cwmax (SortedXor.xorMerge nr1 nr2) (SortedXor.xorMerge row1 row2) := by
  refine ⟨pairwise_xorMerge h1.increasing h2.increasing, fun k hk => ?_, fun j => ?_⟩
  · rcases mem_of_mem_xorMerge hk with hk | hk
    · exact h1.lt k hk
    · exact h2.lt k hk
  · have hcount := countP_xorMerge (l := nr1) (m := nr2) fun i => j ∈ purged.getD i []
    rw [mem_xorMerge hrow1 hrow2, h1.mem_iff, h2.mem_iff]
    simp only [Replay.OddIn]
    by_cases hburied : Buried purged cwmax j
    · simp [hburied]
    · simp only [hburied, not_false_eq_true, and_true]
      omega

theorem follows_start (hstart : Start purged ncols cwmax mat) :
    Follows purged cwmax mat mat (initialRows purged.length) := by
  refine ⟨fun i row hi => ?_, fun i hi hnone => absurd hnone hi⟩
  have hlt : i < purged.length := by
    rw [← hstart.nrows_eq]
    exact hstart.inv.lt_nrows i (by simp [hi])
  refine ⟨[i], by rw [initialRows, if_pos hlt], List.pairwise_singleton _ _, by simpa using hlt,
    fun j => ?_⟩
  rw [hstart.row i row hi j, Replay.OddIn, List.countP_singleton]
  refine and_congr_left fun _ => ?_
  by_cases hj : j ∈ purged.getD i []
  · simp only [hj, decide_true, if_true, Nat.reduceMod]
  · simp only [hj, decide_false, Bool.false_eq_true, if_false, Nat.reduceMod]
    simp

/-- The replayed history follows a merge. -/
theorem Follows.combined (h : Follows purged cwmax mat₀ mat newrows) (hinv : Inv dropped mat)
    {ind : List ℕ} {pivot : ℕ} {kept : List (ℕ × List ℕ)} {targets : List ℕ}
    (hind : ∀ i ∈ ind, mat.rows i ≠ none) (hcombined : Combined ind pivot kept targets)
    (hrows : mat'.rows = update (addAll (map₂ SortedXor.xorMerge)
      (pairs (kept ++ [(pivot, targets)])) mat.rows) pivot none) :
    ∃ newrows', ((historyLines pivot kept targets).map reportLine).foldlM doAllAdds newrows
        = some newrows' ∧ Follows purged cwmax mat₀ mat' newrows' := by
  have hrow : ∀ i ∈ ind, ∃ row nr, mat.rows i = some row ∧ newrows i = some nr ∧
      SumOf purged cwmax nr row := by
    intro i hi
    obtain ⟨row, hrow⟩ := ne_none_iff_exists'.mp (hind i hi)
    obtain ⟨nr, hnr, hsum⟩ := h.row i row hrow
    exact ⟨row, nr, hrow, hnr, hsum⟩
  have hpresent : Present newrows (pairs (kept ++ [(pivot, targets)])) := by
    rintro ⟨t, s⟩ hp
    obtain ⟨row1, nr1, -, h1, -⟩ := hrow t ((hcombined.target_iff t).mp ⟨s, hp⟩).1
    obtain ⟨row2, nr2, -, h2, -⟩ := hrow s (hcombined.source_mem t s hp)
    exact ⟨by simp [h1], by simp [h2]⟩
  -- a row takes no sum, or one, in both
  have hkept : ∀ i, (¬ ∃ s, (i, s) ∈ pairs (kept ++ [(pivot, targets)])) →
      ∀ p ∈ pairs (kept ++ [(pivot, targets)]), p.1 ≠ i := by
    rintro i hi ⟨t, s⟩ hp rfl
    exact hi ⟨s, hp⟩
  refine ⟨_, foldlM_historyLines hpresent, fun i row hi => ?_, fun i hi hnone => ?_⟩
  · rw [hrows] at hi
    have hne : i ≠ pivot := by
      rintro rfl
      simp at hi
    rw [update_of_ne hne] at hi ⊢
    by_cases htarget : ∃ s, (i, s) ∈ pairs (kept ++ [(pivot, targets)])
    · obtain ⟨s, hs⟩ := htarget
      obtain ⟨row1, nr1, h1, hnr1, hsum1⟩ := hrow i ((hcombined.target_iff i).mp ⟨s, hs⟩).1
      obtain ⟨row2, nr2, h2, hnr2, hsum2⟩ := hrow s (hcombined.source_mem i s hs)
      rw [addAll_of_mem hcombined.independent hs] at hi ⊢
      rw [h1, h2] at hi
      obtain rfl : SortedXor.xorMerge row1 row2 = row := Option.some.inj hi
      exact ⟨SortedXor.xorMerge nr1 nr2, by rw [hnr1, hnr2]; rfl,
        hsum1.xorMerge hsum2 (hinv.increasing i row1 h1) (hinv.increasing s row2 h2)⟩
    · rw [addAll_of_forall_ne (hkept i htarget)] at hi ⊢
      exact h.row i row hi
  · by_cases hne : i = pivot
    · rw [hne, update_self]
    · rw [hrows, update_of_ne hne] at hnone
      rw [update_of_ne hne]
      by_cases htarget : ∃ s, (i, s) ∈ pairs (kept ++ [(pivot, targets)])
      · obtain ⟨s, hs⟩ := htarget
        obtain ⟨row1, nr1, h1, -⟩ := hrow i ((hcombined.target_iff i).mp ⟨s, hs⟩).1
        obtain ⟨row2, nr2, h2, -⟩ := hrow s (hcombined.source_mem i s hs)
        rw [addAll_of_mem hcombined.independent hs, h1, h2] at hnone
        exact absurd hnone (by simp)
      · rw [addAll_of_forall_ne (hkept i htarget)] at hnone ⊢
        exact h.destroyed i hi hnone

theorem Follows.destroy (h : Follows purged cwmax mat₀ mat newrows) {is : List ℕ}
    (hrows : mat'.rows = fun i => if i ∈ is then none else mat.rows i) :
    Follows purged cwmax mat₀ mat' fun i => if i ∈ is then none else newrows i := by
  refine ⟨fun i row hi => ?_, fun i hi hnone => ?_⟩
  · rw [hrows] at hi
    by_cases his : i ∈ is
    · simp [his] at hi
    · simp only [his, if_false] at hi ⊢
      exact h.row i row hi
  · rw [hrows] at hnone
    by_cases his : i ∈ is
    · simp [his]
    · simp only [his, if_false] at hnone ⊢
      exact h.destroyed i hi hnone

/-- The replayed history follows every reported operation. -/
theorem follows_step (hinv : Inv dropped mat) (h : Follows purged cwmax mat₀ mat newrows)
    (hreported : op.Reported) (hop : op.Allowed mat) (hrun : op.run rep mat = some st') :
    ∃ lines newrows', st'.1 = rep ++ lines ∧ lines.foldlM doAllAdds newrows = some newrows' ∧
      Follows purged cwmax mat₀ st'.2 newrows' := by
  cases op with
  | addRowsAndUpdate i1 i2 len => exact hreported.elim
  | removeRowDefinitely i =>
    obtain ⟨row, hrow⟩ := ne_none_iff_exists'.mp hop
    obtain ⟨mat', hrun', -, -, honly⟩ := removeRowDefinitely_spec rep hinv hrow
    obtain rfl := Option.some.inj (hrun.symm.trans hrun')
    refine ⟨[i].map fun i : ℕ => reportLine [(i : ℤ)], _, rfl, foldlM_destroy [i] newrows,
      h.destroy ?_⟩
    rw [honly]
    funext k
    simp [update_apply]
  | removeSingletons =>
    obtain ⟨is, js, rep', mat', hrun', -, hsingled⟩ := removeSingletons_spec rep hinv
    rw [Op.run, hrun'] at hrun
    obtain rfl := Option.some.inj hrun
    refine ⟨_, _, hsingled.report_eq, foldlM_destroy is newrows, h.destroy ?_⟩
    rw [hsingled.onlyColumns]
  | mergeForColumn j useMST =>
    obtain ⟨hj, hpos, hmax⟩ := hop
    obtain ⟨ind, pivot, kept, targets, rep', mat', hrun', -, hmerged⟩ :=
      mergeForColumn_spec rep hinv hj (m := (mat.wt j).toNat) (by omega) (by omega) (by omega) useMST
    obtain rfl := Option.some.inj (hrun.symm.trans hrun')
    have hind : ∀ i ∈ ind, mat.rows i ≠ none := by
      intro i hi hnone
      have hrow := (FilterMatrix.mem_cells.mp ((hmerged.mem_ind i).mp hi)).2
      rw [FilterMatrix.row, hnone] at hrow
      simp at hrow
    obtain ⟨newrows', hlines, hfollows⟩ := h.combined hinv hind hmerged.combined hmerged.rows_eq
    exact ⟨_, newrows', hmerged.report_eq, hlines, hfollows⟩
  | deleteHeavyColumns =>
    obtain ⟨js, mat', hrun', -, -, -, honly⟩ := deleteHeavyColumns_spec rep hinv
    rw [Op.run, hrun'] at hrun
    obtain rfl := Option.some.inj hrun
    have hrows : mat'.rows = mat.rows := by rw [honly]
    refine ⟨[], newrows, (append_nil _).symm, rfl, ?_⟩
    exact ⟨hrows ▸ h.row, hrows ▸ h.destroyed⟩
  | deleteEmptyColumns =>
    obtain ⟨mat', njrem, hrun', -, -, -, honly⟩ := deleteEmptyColumns_spec hinv
    rw [Op.run, hrun'] at hrun
    obtain rfl := Option.some.inj hrun
    have hrows : mat'.rows = mat.rows := by rw [honly]
    refine ⟨[], newrows, (append_nil _).symm, rfl, ?_⟩
    exact ⟨hrows ▸ h.row, hrows ▸ h.destroyed⟩

/-- `replay` follows a run of `merge`: no line fails, each row of `merge` is the sum
of the rows that `replay` has for it, and what was destroyed is `NULL`. -/
theorem replay_of_run (hpurged : ∀ cols ∈ purged, cols.Nodup ∧ ∀ j ∈ cols, j < ncols)
    {rwmax keep : ℤ} (hread : readMatrix purged ncols cwmax rwmax keep = some mat₀)
    (hrun : Relation.ReflTransGen ReportedStep ([], mat₀) (rep, mat)) :
    ∃ newrows, buildNewrows purged.length rep = some newrows ∧
      Follows purged cwmax mat₀ mat newrows := by
  have hstart := start_readMatrix hpurged hread
  suffices hall : ∀ st, Relation.ReflTransGen ReportedStep ([], mat₀) st →
      (∃ dropped, Inv dropped st.2) ∧ ∃ newrows, buildNewrows purged.length st.1 = some newrows ∧
        Follows purged cwmax mat₀ st.2 newrows from (hall _ hrun).2
  intro st hrun
  induction hrun with
  | refl => exact ⟨⟨_, hstart.inv⟩, _, rfl, follows_start hstart⟩
  | tail _ hstep ih =>
    obtain ⟨⟨dropped, hinv⟩, newrows, hbuild, hfollows⟩ := ih
    obtain ⟨op, hreported, hop, hrun⟩ := hstep
    obtain ⟨st', hrun', hinv'⟩ := step_spec hinv hop
    obtain rfl := Option.some.inj (hrun.symm.trans hrun')
    obtain ⟨lines, newrows', hrep, hlines, hfollows'⟩ :=
      follows_step hinv hfollows hreported hop hrun
    refine ⟨⟨dropped, hinv'⟩, newrows', ?_, hfollows'⟩
    rw [buildNewrows] at hbuild ⊢
    rw [hrep, List.foldlM_append, hbuild]
    exact hlines

/-- A column of weight 3 is merged along a spanning tree. -/
theorem replay_of_run_merge :
    ∃ mat₀ rep mat newrows, readMatrix [[0, 1], [0, 1, 2], [1, 2]] 3 4 10 0 = some mat₀ ∧
      mergeForColumn [] mat₀ (mat₀.wt 1).toNat 1 true = some (rep, mat) ∧
      buildNewrows 3 rep = some newrows ∧
      Follows [[0, 1], [0, 1, 2], [1, 2]] 4 mat₀ mat newrows := by
  obtain ⟨mat₀, hread⟩ := Option.isSome_iff_exists.mp
    (show (readMatrix [[0, 1], [0, 1, 2], [1, 2]] 3 4 10 0).isSome by decide)
  have hpurged : ∀ cols ∈ [[0, 1], [0, 1, 2], [1, 2]], cols.Nodup ∧ ∀ j ∈ cols, j < 3 := by decide
  have hstart := start_readMatrix hpurged hread
  have hactive : mat₀.A 1 ≠ none := by
    rw [← kind_eq_active_iff, hstart.kind_eq]
    decide
  have hwt : mat₀.wt 1 = 3 := hstart.wt_eq 1 (by decide)
  have hallowed : (Op.mergeForColumn 1 true).Allowed mat₀ := by
    refine ⟨hactive, ?_, ?_⟩ <;> rw [hwt] <;> decide
  obtain ⟨⟨rep, mat⟩, hrun, -⟩ : ∃ st, (Op.mergeForColumn 1 true).run [] mat₀ = some st ∧ _ :=
    step_spec hstart.inv hallowed
  obtain ⟨newrows, hbuild, hfollows⟩ :=
    replay_of_run hpurged hread (.single ⟨.mergeForColumn 1 true, trivial, hallowed, hrun⟩)
  exact ⟨mat₀, rep, mat, newrows, hread, hrun, hbuild, hfollows⟩

end Follows

end CadoNfs.Merge
