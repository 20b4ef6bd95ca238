import CadoNfs.Linalg.Gauss

/-!
# The elimination of `gauss.c` and the left nullspace

The state of `gaussian_elimination` before each column represents a state of the
abstract elimination: its limbs hold the entries, the marks of the rows added included,
and `lmat` the combinations of rows.

Main results:

- Theorem `gaussianElimination_spec`: the elimination refines the abstract one.
- Theorem `kernel_basis`: `kernel` returns a basis of the left nullspace.
-/

namespace CadoNfs.Gauss

open Function (update update_of_ne update_self)
open ForRange Gf2
open Elimination (eliminate inv_reduce inv_start mark reduce start step toMatrix)

variable {w : ℕ} {G : Params}

/-! ## Entries -/

section Entries

variable {mat₀ mat : Limbs w} {pivot i c x : ℕ} {D : Finset ℕ}

theorem testBit_iff (hw : 0 < w) :
    testBit G mat i (1#w <<< (c % w)) (c / w) ↔ flatBit G.limbsPerRow mat i c = 1 :=
  and_one_shift_ne_zero_iff _ (Nat.mod_lt c hw)

theorem mem_todo_iff (hw : 0 < w) :
    i ∈ todo G mat pivot (1#w <<< (c % w)) (c / w) (G.nrows - (pivot + 1)) ↔
      pivot < i ∧ i < G.nrows ∧ flatBit G.limbsPerRow mat i c = 1 := by
  rw [mem_todo, testBit_iff hw]
  exact ⟨fun h => ⟨h.1, by omega, h.2.2⟩, fun h => ⟨h.1, by omega, h.2.2⟩⟩

theorem AddedMat.flatBit (h : AddedMat G mat₀ pivot (c / w) (1#w <<< (c % w)) D mat)
    (hw : 0 < w) (hx : x < G.limbsPerRow * w) :
    flatBit G.limbsPerRow mat i x
      = if i ∈ D then
          if x = c then 1
          else flatBit G.limbsPerRow mat₀ i x + flatBit G.limbsPerRow mat₀ pivot x
        else flatBit G.limbsPerRow mat₀ i x := by
  unfold Gf2.flatBit
  rw [h i _ (div_lt_stride hx)]
  by_cases hi : i ∈ D
  · rw [if_pos hi, if_pos hi]
    by_cases hdiv : x / w = c / w
    · rw [if_pos hdiv, bit_or_one_shift _ (Nat.mod_lt c hw), bit_xor]
      exact if_congr (mod_eq_mod_iff hdiv) rfl rfl
    · rw [if_neg hdiv, bit_xor, if_neg (mt (congrArg (· / w)) hdiv)]
  · rw [if_neg hi, if_neg hi]

theorem flatBit_addRows (hw : 0 < w) (hc : c < G.limbsPerRow * w)
    (hx : x < G.limbsPerRow * w) :
    flatBit G.limbsPerRow (addRows G mat pivot pivot (1#w <<< (c % w)) (c / w)) i x
      = if i = pivot then if x = c then 1 else 0 else flatBit G.limbsPerRow mat i x := by
  unfold Gf2.flatBit
  rw [addRows_apply (div_lt_stride hc) (div_lt_stride hx)]
  by_cases hi : i = pivot
  · rw [if_pos hi, if_pos hi, BitVec.xor_self]
    by_cases hdiv : x / w = c / w
    · rw [if_pos hdiv, bit_or_one_shift _ (Nat.mod_lt c hw), bit_zero]
      exact if_congr (mod_eq_mod_iff hdiv) rfl rfl
    · rw [if_neg hdiv, bit_zero, if_neg (mt (congrArg (· / w)) hdiv)]
  · rw [if_neg hi, if_neg hi]

theorem getPivot_eq_none (hw : 0 < w)
    (h : getPivot G mat (1#w <<< (c % w)) (c / w) = none) (hi : i < G.nrows) :
    flatBit G.limbsPerRow mat i c = 0 := by
  rw [getPivot, List.find?_eq_none] at h
  have hrow := h i (List.mem_range.mpr hi)
  rw [decide_eq_true_eq, testBit_iff hw] at hrow
  exact (eq_zero_or_one _).resolve_right hrow

theorem getPivot_eq_some (h : getPivot G mat (1#w <<< (c % w)) (c / w) = some pivot) :
    pivot < G.nrows ∧ testBit G mat pivot (1#w <<< (c % w)) (c / w) ∧
      ∀ i < pivot, ¬testBit G mat i (1#w <<< (c % w)) (c / w) := by
  rw [getPivot, List.find?_range_eq_some] at h
  simpa [and_comm, and_left_comm] using h

end Entries

/-! ## Refinement -/

/-- A vector over the rows, with zeros beyond them. -/
def extend {n : ℕ} (v : Fin n → ZMod 2) (y : ℕ) : ZMod 2 :=
  if h : y < n then v ⟨y, h⟩ else 0

/-- The state of the code before column `c` holds the abstract state. -/
structure Represents (G : Params) (c : ℕ) (st : State w)
    (s : Elimination.State (Fin G.nrows)) : Prop where
  column : st.jCurrent = c / w
  mask : st.mask1 = 1#w <<< (c % w)
  pivot : ∀ j, st.setPivot j = (s.piv j).map Fin.val
  used : ∀ i : Fin G.nrows, st.setUsed i = decide (i ∈ s.used)
  entries : ∀ i : Fin G.nrows, ∀ x < G.ncols,
    flatBit G.limbsPerRow st.rows.mat i x = s.e i x
  combinations : ∀ lmat, st.rows.lmat = some lmat → ∀ i : Fin G.nrows,
    ∀ y < G.limbsPerCol * w, flatBit G.limbsPerCol lmat i y = extend (s.l i) y

/-- The rows of the matrix that the elimination starts from. -/
def rowsOf (G : Params) (mat : Limbs w) (i : Fin G.nrows) (x : ℕ) : ZMod 2 :=
  flatBit G.limbsPerRow mat i x

section Iteration

variable {M : Fin G.nrows → ℕ → ZMod 2} {c : ℕ} {st : State w}
  {s : Elimination.State (Fin G.nrows)}

theorem extend_add_mul {n : ℕ} (v v' : Fin n → ZMod 2) (z : ZMod 2) (y : ℕ) :
    extend (fun y => v y + z * v' y) y = extend v y + z * extend v' y := by
  unfold extend
  split_ifs <;> simp

theorem assert_of_true {q : Prop} [Decidable q] (h : q) : assert G q = some () :=
  if_pos (Or.inr h)

theorem Represents.advance (h : Represents G c st s) (hw : 0 < w)
    (hc : c < G.limbsPerRow * w) :
    ∃ st', advance G st = some st' ∧ Represents G (c + 1) st' s ∧ st'.rows = st.rows := by
  have hnext := next_column hw c
  rw [← h.mask, ← h.column] at hnext
  unfold Gauss.advance
  by_cases hzero : st.mask1 <<< 1 = 0#w
  · have hassert : st.jCurrent + 1 ≤ G.limbsPerRow := h.column ▸ div_lt_stride hc
    rw [if_pos hzero, Prod.mk.injEq] at hnext
    refine ⟨{ st with mask1 := 1#w, jCurrent := st.jCurrent + 1 }, ?_, ?_, rfl⟩
    · simp only [if_pos hzero, assert_of_true hassert]
      rfl
    · exact { h with column := hnext.1, mask := hnext.2 }
  · rw [if_neg hzero, Prod.mk.injEq] at hnext
    refine ⟨{ st with mask1 := st.mask1 <<< 1 }, by simp [if_neg hzero], ?_, rfl⟩
    exact { h with column := hnext.1, mask := hnext.2 }

section Pivot

variable {pivot : ℕ} (h : Represents G c st s) (hw : 0 < w) (hc : c < G.ncols)
  (hcols : G.ncols ≤ G.limbsPerRow * w)
  (hpivot : getPivot G st.rows.mat st.mask1 st.jCurrent = some pivot)

include h hw hc hpivot

theorem Represents.pivot_row : ∃ hlt : pivot < G.nrows, s.e ⟨pivot, hlt⟩ c = 1 ∧
    ∀ i : Fin G.nrows, i < pivot → s.e i c = 0 := by
  rw [h.mask, h.column] at hpivot
  obtain ⟨hlt, htest, hbefore⟩ := getPivot_eq_some hpivot
  refine ⟨hlt, ?_, fun i hi => ?_⟩
  · rw [← h.entries ⟨pivot, hlt⟩ c hc]
    exact (testBit_iff hw).mp htest
  · have hi' := hbefore i hi
    rw [testBit_iff hw, h.entries i c hc] at hi'
    exact (eq_zero_or_one _).resolve_right hi'

theorem Represents.mem_todo_iff (i : Fin G.nrows) :
    (i : ℕ) ∈ todo G st.rows.mat pivot st.mask1 st.jCurrent (G.nrows - (pivot + 1)) ↔
      (i : ℕ) ≠ pivot ∧ s.e i c = 1 := by
  obtain ⟨-, -, hbefore⟩ := h.pivot_row hw hc hpivot
  rw [h.mask, h.column, Gauss.mem_todo_iff hw, h.entries i c hc]
  constructor
  · rintro ⟨hlt, -, hone⟩
    exact ⟨hlt.ne', hone⟩
  · rintro ⟨hne, hone⟩
    refine ⟨lt_of_le_of_ne (not_lt.mp fun hlt => ?_) hne.symm, i.isLt, hone⟩
    rw [hbefore i hlt] at hone
    exact zero_ne_one hone

include hcols

/-- One pivot on the stored words is one step of the elimination. -/
theorem Represents.eliminated {p : Fin G.nrows} (hp : (p : ℕ) = pivot) :
    let rows := eliminateRows G st.rows pivot st.mask1 st.jCurrent
    Represents G c { st with
      setPivot := update st.setPivot c (some pivot)
      setUsed := update st.setUsed pivot true
      rows := { rows with mat := addRows G rows.mat pivot pivot st.mask1 st.jCurrent } }
      (eliminate s p c) := by
  intro rows
  have hadded : Added G st.rows pivot st.jCurrent st.mask1
      (todo G st.rows.mat pivot st.mask1 st.jCurrent (G.nrows - (pivot + 1))) rows :=
    eliminateRows_spec (h.column ▸ div_lt_stride (hc.trans_le hcols)) st.rows
  have hmem := h.mem_todo_iff hw hc hpivot
  have heq : ∀ i : Fin G.nrows, (i : ℕ) = pivot ↔ i = p := fun i => by
    rw [← hp, Fin.ext_iff]
  refine ⟨h.column, h.mask, fun j => ?_, fun i => ?_, fun i x hx => ?_, ?_⟩
  · by_cases hj : j = c
    · simp [Elimination.eliminate, hj, hp]
    · simp [Elimination.eliminate, hj, h.pivot j]
  · by_cases hi : i = p
    · simp [Elimination.eliminate, hi, hp]
    · have hne := mt (heq i).mp hi
      simp [Elimination.eliminate, hi, hne, h.used i]
  · have hmat := hadded.mat
    rw [h.column, h.mask] at hmat
    rw [h.column, h.mask] at hmem ⊢
    rw [flatBit_addRows hw (hc.trans_le hcols) (hx.trans_le hcols),
      hmat.flatBit hw (hx.trans_le hcols), h.entries i x hx]
    have hpx := h.entries p x hx
    rw [hp] at hpx
    rw [hpx]
    by_cases hi : i = p
    · rw [if_pos ((heq i).mpr hi)]
      simp [Elimination.eliminate, if_pos hi]
    · rw [if_neg (mt (heq i).mp hi)]
      simp only [Elimination.eliminate, if_neg hi]
      by_cases hone : s.e i c = 1
      · rw [if_pos ((hmem i).mpr ⟨mt (heq i).mp hi, hone⟩), hone, one_mul]
      · rw [if_neg fun hin => hone ((hmem i).mp hin).2,
          (eq_zero_or_one _).resolve_right hone, zero_mul, add_zero]
        split_ifs with hxc
        · rw [hxc, (eq_zero_or_one _).resolve_right hone]
        · rfl
  · intro lmat hlmat i y hy
    obtain ⟨lmat₀, hlmat₀⟩ : ∃ lmat₀, st.rows.lmat = some lmat₀ := by
      cases hcase : st.rows.lmat with
      | none => simpa [hcase, AddedLmat, show rows.lmat = some lmat from hlmat] using hadded.lmat
      | some lmat₀ => exact ⟨lmat₀, rfl⟩
    have hcells := hadded.lmat
    rw [hlmat₀, show rows.lmat = some lmat from hlmat] at hcells
    have hcell := hcells i _ (div_lt_stride hy)
    have hrow := h.combinations lmat₀ hlmat₀ i y hy
    have hprow := h.combinations lmat₀ hlmat₀ p y hy
    rw [hp] at hprow
    unfold flatBit at hrow hprow ⊢
    rw [hcell]
    by_cases hin : i ≠ p ∧ s.e i c = 1
    · rw [if_pos ((hmem i).mpr ⟨mt (heq i).mp hin.1, hin.2⟩), bit_xor, hrow, hprow]
      simp only [Elimination.eliminate, if_neg hin.1, hin.2]
      rw [extend_add_mul, one_mul]
    · rw [if_neg fun hmemi => hin ⟨mt (heq i).mpr ((hmem i).mp hmemi).1, ((hmem i).mp hmemi).2⟩,
        hrow]
      by_cases hi : i = p
      · simp [Elimination.eliminate, hi]
      · have hzero : s.e i c = 0 :=
          (eq_zero_or_one _).resolve_right fun hone => hin ⟨hi, hone⟩
        simp [Elimination.eliminate, if_neg hi, hzero]

end Pivot

theorem iteration_spec (h : Represents G c st s) (hinv : Elimination.Inv M G.ncols c s)
    (hw : 0 < w) (hc : c < G.ncols) (hcols : G.ncols ≤ G.limbsPerRow * w) :
    ∃ st', iteration G c st = some st' ∧ Represents G (c + 1) st' (step c s) ∧
      st'.rows.lmat.isSome = st.rows.lmat.isSome := by
  unfold iteration
  cases hpivot : getPivot G st.rows.mat st.mask1 st.jCurrent with
  | none =>
    obtain ⟨st', hst', hrep, hrows⟩ := h.advance hw (hc.trans_le hcols)
    refine ⟨st', hst', ?_, by rw [hrows]⟩
    rw [h.mask, h.column] at hpivot
    rwa [Elimination.step_of_zero fun i => ?_]
    rw [← h.entries i c hc]
    exact getPivot_eq_none hw hpivot i.isLt
  | some pivot =>
    obtain ⟨hlt, hone, hbefore⟩ := h.pivot_row hw hc hpivot
    have hunused : st.setUsed pivot = false := by
      rw [h.used ⟨pivot, hlt⟩, decide_eq_false (hinv.not_used hone hc)]
    have hassert := getPivot_eq_some (by rwa [h.mask, h.column] at hpivot)
    rw [← h.mask, ← h.column] at hassert
    obtain ⟨st', hst', hrep, hrows⟩ := (h.eliminated hw hc hcols hpivot
      (p := ⟨pivot, hlt⟩) rfl).advance hw (hc.trans_le hcols)
    refine ⟨st', ?_, ?_, ?_⟩
    · have hall := And.intro hassert.2.2 (And.intro hassert.2.1 hunused)
      simp only [assert_of_true hall]
      exact hst'
    · rwa [Elimination.step_of_pivot hone hbefore]
    · rw [hrows]
      exact (eliminateRows_spec (h.column ▸ div_lt_stride (hc.trans_le hcols))
        st.rows).lmat.isSome_eq

end Iteration

/-! ## Whole runs -/

/-- The assertion of `check_soundness` that is very unlikely to fail does not fail,
or is not compiled. -/
def Sound (G : Params) (mat : Limbs w) : Prop :=
  G.ndebug = true ∨ soundnessProbe G mat ≠ mat (G.limbsPerRow * G.nrows - 1)

/-- `lmat`, if there is one, is large enough and the identity matrix. -/
def StartsAtIdentity (G : Params) (lmat : Option (Limbs w)) : Prop :=
  ∀ p, lmat = some p → G.nrows ≤ G.limbsPerCol * w ∧
    ∀ i < G.nrows, ∀ y < G.limbsPerCol * w,
      flatBit G.limbsPerCol p i y = if y = i then 1 else 0

theorem checkSoundness_eq_some {mat : Limbs w} (hcols : G.ncols ≤ G.limbsPerRow * w)
    (hsound : Sound G mat) : checkSoundness G mat = some () := by
  unfold checkSoundness
  rw [assert_of_true hcols]
  exact if_pos hsound

/-- The elimination refines the abstract elimination of all the columns. -/
theorem gaussianElimination_spec {mat : Limbs w} (lmat : Option (Limbs w)) (hw : 0 < w)
    (hcols : G.ncols ≤ G.limbsPerRow * w) (hsound : Sound G mat)
    (hlmat : StartsAtIdentity G lmat) :
    ∃ st, gaussianElimination G mat lmat = some st ∧
      Represents G G.ncols st (reduce (rowsOf G mat) G.ncols) ∧
      st.rows.lmat.isSome = lmat.isSome := by
  have hassert : lmat.isNone = true ∨ G.nrows ≤ G.limbsPerCol * w := by
    cases lmat with
    | none => exact Or.inl rfl
    | some p => exact Or.inr (hlmat p rfl).1
  have hrun := forRangeM_induct
    (motive := fun c (st : State w) => Elimination.Inv (rowsOf G mat) G.ncols c
        (reduce (rowsOf G mat) c) ∧
      Represents G c st (reduce (rowsOf G mat) c) ∧ st.rows.lmat.isSome = lmat.isSome)
    (iteration G)
    { rows := ⟨mat, lmat⟩, setPivot := fun _ => none, setUsed := fun _ => false,
      jCurrent := 0, mask1 := 1#w }
    G.ncols ?_ ?_
  · obtain ⟨st, hst, -, hrep, hsome⟩ := hrun
    refine ⟨st, ?_, hrep, hsome⟩
    unfold gaussianElimination
    rw [assert_of_true hassert, checkSoundness_eq_some hcols hsound, ← hst]
    rfl
  · refine ⟨inv_start _ _, ?_, rfl⟩
    refine ⟨(Nat.zero_div w).symm, ?_, fun _ => rfl, fun _ => rfl, fun _ _ _ => rfl, ?_⟩
    · rw [Nat.zero_mod, BitVec.shiftLeft_zero]
    · intro p hp i y hy
      rw [(hlmat p hp).2 i i.isLt y hy]
      change _ = extend ((start (rowsOf G mat)).l i) y
      unfold extend start
      by_cases hlt : y < G.nrows
      · simp [dif_pos hlt, Fin.ext_iff]
      · rw [dif_neg hlt, if_neg (by omega)]
  · rintro c hc st ⟨hinv, hrep, hsome⟩
    obtain ⟨st', hst', hrep', hsome'⟩ := iteration_spec hrep hinv hw hc hcols
    exact ⟨st', hst', hinv.step hc, hrep', hsome'.trans hsome⟩

theorem gaussianElimination_eq_none {mat : Limbs w} (lmat : Option (Limbs w))
    (hsound : ¬Sound G mat) : gaussianElimination G mat lmat = none := by
  have hassert : assert G (soundnessProbe G mat ≠ mat (G.limbsPerRow * G.nrows - 1)) = none :=
    if_neg hsound
  have hcheck : checkSoundness G mat = none := by
    unfold checkSoundness
    rw [hassert]
    exact Option.bind_fun_none _
  unfold gaussianElimination
  rw [hcheck]
  exact Option.bind_fun_none _

/-! ## The recovery of the pivots -/

section Recovery

variable {M : Fin G.nrows → ℕ → ZMod 2} {st : State w} {s : Elimination.State (Fin G.nrows)}

/-- The vector that the marks of a row record up to a column. -/
def recovered (s : Elimination.State (Fin G.nrows)) (i : Fin G.nrows) (j : ℕ)
    (y : Fin G.nrows) : ZMod 2 :=
  (if y = i then 1 else 0) + ∑ k ∈ Finset.range j, s.e i k * mark s k y

theorem recovered_succ_of_zero {i : Fin G.nrows} {j : ℕ} (hzero : s.e i j = 0) :
    recovered s i (j + 1) = recovered s i j := by
  funext y
  rw [recovered, recovered, Finset.sum_range_succ, hzero, zero_mul, add_zero]

theorem recovered_succ_of_one (hinv : Elimination.Inv M G.ncols G.ncols s)
    {i p : Fin G.nrows} {j : ℕ} (hi : i ∉ s.used) (hone : s.e i j = 1)
    (hpiv : s.piv j = some p) (y : Fin G.nrows) :
    recovered s i (j + 1) y = if y = p then 1 else recovered s i j y := by
  have hother : ∀ k ∈ Finset.range j, s.e i k * mark s k p = 0 := by
    intro k hk
    have hne : s.piv k ≠ some p := fun hpk =>
      (Finset.mem_range.mp hk).ne (hinv.piv_inj k j p hpk hpiv)
    rw [mark, if_neg hne, mul_zero]
  have hpi : p ≠ i := by
    rintro rfl
    exact hi (hinv.piv_used j p hpiv).2
  rw [recovered, Finset.sum_range_succ, ← add_assoc, hone, one_mul]
  by_cases hy : y = p
  · subst hy
    rw [Finset.sum_eq_zero hother, if_neg hpi, mark, if_pos hpiv, if_pos rfl]
    decide
  · have hmark : s.piv j ≠ some y := by
      rw [hpiv]
      exact fun heq => hy (Option.some.inj heq).symm
    rw [mark, if_neg hmark, add_zero, if_neg hy]
    rfl

/-- The recovery of the pivoting of a row that was not used turns its marks into its
combination of rows; every pivot that it looks up was set. -/
theorem recoverPivots_spec (h : Represents G G.ncols st s)
    (hinv : Elimination.Inv M G.ncols G.ncols s) (hw : 0 < w) {i : Fin G.nrows}
    (hi : i ∉ s.used) {v : Limbs w}
    (hv : ∀ y < G.limbsPerCol * w, arrayBit v y = if y = i then 1 else 0)
    (hrows : G.nrows ≤ G.limbsPerCol * w) :
    ∃ v', recoverPivots G st i v = some v' ∧
      (∀ y < G.limbsPerCol * w, arrayBit v' y = extend (s.l i) y) ∧
      ∀ l, G.limbsPerCol ≤ l → v' l = v l := by
  have hl : s.l i = recovered s i G.ncols := funext (hinv.coeff i hi)
  have hloop := forRangeM_induct
    (motive := fun j (r : ℕ × BitVec w × Limbs w) =>
      (r.1, r.2.1) = (G.limbsPerRow * i + j / w, 1#w <<< (j % w)) ∧
        (∀ y < G.limbsPerCol * w, arrayBit r.2.2 y = extend (recovered s i j) y) ∧
        ∀ l, G.limbsPerCol ≤ l → r.2.2 l = v l)
    (recoverPass st) (G.limbsPerRow * i, 1#w, v) G.ncols ?_ ?_
  · obtain ⟨⟨ptr, mask1, u⟩, hrun, -, hbits, hframe⟩ := hloop
    rw [hl]
    exact ⟨u, by rw [recoverPivots, hrun]; rfl, hbits, hframe⟩
  · refine ⟨by simp, fun y hy => ?_, fun _ _ => rfl⟩
    rw [hv y hy]
    unfold extend recovered
    by_cases hlt : y < G.nrows
    · simp [dif_pos hlt, Fin.ext_iff]
    · rw [dif_neg hlt, if_neg (by omega)]
  · rintro j hj ⟨ptr, mask1, u⟩ ⟨hcolumn, hbits, hframe⟩
    rw [Prod.mk.injEq] at hcolumn
    obtain ⟨rfl, rfl⟩ := hcolumn
    have hnext : (if (1#w <<< (j % w)) <<< 1 = 0#w then (G.limbsPerRow * i + j / w + 1, 1#w)
        else (G.limbsPerRow * i + j / w, (1#w <<< (j % w)) <<< 1))
        = (G.limbsPerRow * i + (j + 1) / w, 1#w <<< ((j + 1) % w)) := by
      have hpair := congrArg (fun r : ℕ × BitVec w => (G.limbsPerRow * (i : ℕ) + r.1, r.2))
        (next_column hw j)
      rw [← hpair]
      split_ifs <;> rfl
    have htest : st.rows.mat (G.limbsPerRow * i + j / w) &&& 1#w <<< (j % w) ≠ 0#w ↔
        s.e i j = 1 := by
      rw [← h.entries i j hj]
      exact and_one_shift_ne_zero_iff _ (Nat.mod_lt j hw)
    simp only [recoverPass, hnext]
    by_cases hone : s.e i j = 1
    · obtain ⟨p, hpiv⟩ : ∃ p, s.piv j = some p := by
        refine Option.ne_none_iff_exists'.mp fun hnone => ?_
        rw [hinv.nopiv j hj hnone i hi] at hone
        exact zero_ne_one hone
      rw [if_pos (htest.mpr hone), h.pivot j, hpiv]
      refine ⟨_, rfl, rfl, fun y hy => ?_, fun l hl => ?_⟩
      · rw [arrayBit_setBit hw, hbits y hy]
        unfold extend
        by_cases hlt : y < G.nrows
        · rw [dif_pos hlt, dif_pos hlt, recovered_succ_of_one hinv hi hone hpiv]
          exact if_congr (by rw [Fin.ext_iff]) rfl rfl
        · rw [dif_neg hlt, dif_neg hlt, if_neg (by omega)]
      · have hlt : (p : ℕ) / w < G.limbsPerCol := div_lt_stride (p.isLt.trans_le hrows)
        rw [← hframe l hl]
        exact update_of_ne (by omega) _ _
    · rw [if_neg (mt htest.mp hone)]
      refine ⟨_, rfl, rfl, fun y hy => ?_, hframe⟩
      rw [recovered_succ_of_zero ((eq_zero_or_one _).resolve_right hone)]
      exact hbits y hy

end Recovery

/-! ## The left nullspace -/

section Kernel

variable {st : State w} {s : Elimination.State (Fin G.nrows)}

/-- The vector that an array of limbs holds. -/
def vectorOf (G : Params) (v : Limbs w) (y : Fin G.nrows) : ZMod 2 :=
  arrayBit v y

theorem vectorOf_of_extend {v : Limbs w} {u : Fin G.nrows → ZMod 2}
    (h : ∀ y < G.limbsPerCol * w, arrayBit v y = extend u y)
    (hrows : G.nrows ≤ G.limbsPerCol * w) : vectorOf G v = u := by
  funext y
  rw [vectorOf, h y (y.isLt.trans_le hrows), extend, dif_pos y.isLt]

theorem kernelVector_spec {M : Fin G.nrows → ℕ → ZMod 2} (h : Represents G G.ncols st s)
    (hinv : Elimination.Inv M G.ncols G.ncols s) (hw : 0 < w) {i : Fin G.nrows}
    (hi : i ∉ s.used) (v : Limbs w) (hrows : G.nrows ≤ G.limbsPerCol * w) :
    ∃ v', kernelVector G st i v = some v' ∧
      (∀ y < G.limbsPerCol * w, arrayBit v' y = extend (s.l i) y) ∧
      ∀ l, G.limbsPerCol ≤ l → v' l = v l := by
  have hidiv : (i : ℕ) / w < G.limbsPerCol := div_lt_stride (i.isLt.trans_le hrows)
  have hstart : ∀ y < G.limbsPerCol * w, arrayBit (update
      (forRange G.limbsPerCol (fun j v => update v j 0#w) v) (i / w)
      (1#w <<< ((i : ℕ) % w))) y = if y = i then 1 else 0 := by
    intro y hy
    have hcell := forRange_update_apply (p := fun j => j) (fun _ => 0#w)
      (fun _ _ _ _ heq => heq) (div_lt_stride hy) v
    unfold arrayBit
    by_cases hdiv : y / w = i / w
    · rw [hdiv, update_self, bit_one_shift (Nat.mod_lt _ hw)]
      exact if_congr (mod_eq_mod_iff hdiv) rfl rfl
    · rw [update_of_ne hdiv, hcell, bit_zero, if_neg (mt (congrArg (· / w)) hdiv)]
  obtain ⟨v', hrun, hbits, hframe⟩ := recoverPivots_spec h hinv hw hi hstart hrows
  refine ⟨v', hrun, hbits, fun l hl => ?_⟩
  rw [hframe l hl, update_of_ne (by omega)]
  exact forRange_update_of_ne (p := fun j => j) _ (fun j hj => by omega) v

/-- The rows before `i` with some property, in their order. -/
structure RowsBefore {n : ℕ} (P : Fin n → Prop) (i : ℕ) (l : List (Fin n)) : Prop where
  ascending : l.Pairwise (· < ·)
  mem : ∀ y, y ∈ l ↔ P y ∧ (y : ℕ) < i

section RowsBefore

variable {n i : ℕ} {P : Fin n → Prop} {l : List (Fin n)}

theorem rowsBefore_zero : RowsBefore P 0 [] where
  ascending := List.Pairwise.nil
  mem := by simp

theorem RowsBefore.nodup (h : RowsBefore P i l) : l.Nodup :=
  h.ascending.imp fun hlt => hlt.ne

theorem RowsBefore.push (h : RowsBefore P i l) (hi : i < n) (hP : P ⟨i, hi⟩) :
    RowsBefore P (i + 1) (l ++ [⟨i, hi⟩]) := by
  refine ⟨List.pairwise_append.mpr ⟨h.ascending, List.pairwise_singleton _ _, ?_⟩,
    fun y => ?_⟩
  · intro y hy z hz
    rw [List.mem_singleton.mp hz]
    exact ((h.mem y).mp hy).2
  · rw [List.mem_append, h.mem y, List.mem_singleton]
    constructor
    · rintro (⟨hy, hlt⟩ | rfl)
      · exact ⟨hy, by omega⟩
      · exact ⟨hP, Nat.lt_succ_self i⟩
    · rintro ⟨hy, hlt⟩
      rcases Nat.lt_succ_iff_lt_or_eq.mp hlt with hlt | heq
      · exact Or.inl ⟨hy, hlt⟩
      · exact Or.inr (Fin.ext heq)

theorem RowsBefore.skip (h : RowsBefore P i l) (hi : i < n) (hP : ¬P ⟨i, hi⟩) :
    RowsBefore P (i + 1) l := by
  refine ⟨h.ascending, fun y => ?_⟩
  rw [h.mem y]
  refine and_congr_right fun hy => ⟨fun hlt => by omega, fun hlt => ?_⟩
  have hne : (y : ℕ) ≠ i := fun heq => hP (by rwa [show y = ⟨i, hi⟩ from Fin.ext heq] at hy)
  omega

theorem RowsBefore.mem_iff (h : RowsBefore P n l) (y : Fin n) : y ∈ l ↔ P y := by
  rw [h.mem y, and_iff_left y.isLt]

theorem RowsBefore.unique {l' : List (Fin n)} (h : RowsBefore P i l)
    (h' : RowsBefore P i l') : l = l' := by
  have hperm : l.Perm l' := (List.perm_ext_iff_of_nodup h.nodup h'.nodup).mpr fun y =>
    (h.mem y).trans (h'.mem y).symm
  exact hperm.eq_of_pairwise (fun _ _ _ _ hab hba => absurd hba hab.asymm) h.ascending
    h'.ascending

end RowsBefore

/-- The rows before `i` that were not used, in the order in which `kernel` finds
them, and the rank it counts down. -/
structure Found (s : Elimination.State (Fin G.nrows)) (i : ℕ) (us : List (Fin G.nrows))
    (rank : ℕ) : Prop where
  rows : RowsBefore (· ∉ s.used) i us
  rank : rank + us.length = G.nrows

theorem found_zero : Found s 0 [] G.nrows where
  rows := rowsBefore_zero
  rank := rfl

variable {i rank : ℕ} {us : List (Fin G.nrows)}

theorem Found.skip (h : Found s i us rank) (hi : i < G.nrows)
    (hused : (⟨i, hi⟩ : Fin G.nrows) ∈ s.used) : Found s (i + 1) us rank where
  rows := h.rows.skip hi (not_not.mpr hused)
  rank := h.rank

theorem Found.push (h : Found s i us rank) (hi : i < G.nrows)
    (hunused : (⟨i, hi⟩ : Fin G.nrows) ∉ s.used) :
    Found s (i + 1) (us ++ [⟨i, hi⟩]) (rank - 1) := by
  have hrows := h.rows.push hi hunused
  refine ⟨hrows, ?_⟩
  have hle := hrows.nodup.length_le_card
  have hrank := h.rank
  rw [List.length_append, List.length_singleton, Fintype.card_fin] at hle
  rw [List.length_append, List.length_singleton]
  omega

theorem Found.dim_eq {M : Fin G.nrows → ℕ → ZMod 2} (h : Found s G.nrows us rank)
    (hinv : Elimination.Inv M G.ncols G.ncols s) :
    G.nrows - rank = us.length ∧
      G.nrows - rank = G.nrows - (toMatrix M G.ncols).rank := by
  have hcard : us.toFinset = s.usedᶜ := by
    ext y
    rw [List.mem_toFinset, h.rows.mem_iff, Finset.mem_compl]
  have hlength := List.toFinset_card_of_nodup h.rows.nodup
  rw [hcard, Finset.card_compl, Fintype.card_fin] at hlength
  have hrank := h.rank
  rw [hinv.rank_eq]
  omega

theorem kernelPass_null (h : Represents G G.ncols st s) :
    ∃ r, forRangeM G.nrows (kernelPass G st) (G.nrows, 0, none) = some r ∧ r.2.2 = none ∧
      ∃ us, Found s G.nrows us r.1 := by
  refine forRangeM_induct (motive := fun i r => r.2.2 = none ∧ ∃ us, Found s i us r.1)
    (kernelPass G st) (G.nrows, 0, none) G.nrows ⟨rfl, [], found_zero⟩ ?_
  rintro i hi ⟨rank, k, ker⟩ ⟨rfl, us, hfound⟩
  have hused := h.used ⟨i, hi⟩
  by_cases hmem : (⟨i, hi⟩ : Fin G.nrows) ∈ s.used
  · rw [decide_eq_true hmem] at hused
    exact ⟨_, if_neg (by simp [hused]), rfl, us, hfound.skip hi hmem⟩
  · rw [decide_eq_false hmem] at hused
    exact ⟨_, if_pos hused, rfl, _, hfound.push hi hmem⟩

/-- The loop of `kernel` over the rows fills the table with the combinations of the
rows that were not used. -/
theorem kernelPass_spec {M : Fin G.nrows → ℕ → ZMod 2} (h : Represents G G.ncols st s)
    (hinv : Elimination.Inv M G.ncols G.ncols s) (hw : 0 < w)
    (hrows : G.nrows ≤ G.limbsPerCol * w) (ker : ℕ → Limbs w) :
    ∃ r, forRangeM G.nrows (kernelPass G st) (G.nrows, 0, some ker) = some r ∧
      ∃ us table, Found s G.nrows us r.1 ∧ r.2 = (us.length, some table) ∧
        (∀ k (hk : k < us.length), (∀ y < G.limbsPerCol * w,
            arrayBit (table k) y = extend (s.l us[k]) y) ∧
          ∀ l, G.limbsPerCol ≤ l → table k l = ker k l) ∧
        ∀ k, us.length ≤ k → table k = ker k := by
  refine forRangeM_induct (motive := fun i r => ∃ us table, Found s i us r.1 ∧
      r.2 = (us.length, some table) ∧
      (∀ k (hk : k < us.length), (∀ y < G.limbsPerCol * w,
          arrayBit (table k) y = extend (s.l us[k]) y) ∧
        ∀ l, G.limbsPerCol ≤ l → table k l = ker k l) ∧
      ∀ k, us.length ≤ k → table k = ker k)
    (kernelPass G st) (G.nrows, 0, some ker) G.nrows
    ⟨[], ker, found_zero, rfl, by simp, fun _ _ => rfl⟩ ?_
  rintro i hi ⟨rank, k, ker'⟩ ⟨us, table, hfound, hr, hrow, hrest⟩
  rw [Prod.mk.injEq] at hr
  obtain ⟨rfl, rfl⟩ := hr
  have hused := h.used ⟨i, hi⟩
  by_cases hmem : (⟨i, hi⟩ : Fin G.nrows) ∈ s.used
  · rw [decide_eq_true hmem] at hused
    exact ⟨_, if_neg (by simp [hused]), us, table, hfound.skip hi hmem, rfl, hrow, hrest⟩
  · rw [decide_eq_false hmem] at hused
    obtain ⟨v, hv, hbits, hframe⟩ :=
      kernelVector_spec h hinv hw hmem (table us.length) hrows
    refine ⟨(rank - 1, us.length + 1, some (update table us.length v)), ?_,
      us ++ [⟨i, hi⟩], update table us.length v, hfound.push hi hmem, ?_, ?_, ?_⟩
    · simp only [kernelPass, if_pos hused]
      rw [hv]
      rfl
    · rw [List.length_append, List.length_singleton]
    · intro k hk
      rw [List.length_append, List.length_singleton] at hk
      by_cases hlast : k = us.length
      · subst hlast
        rw [update_self, List.getElem_concat_length rfl]
        exact ⟨hbits, fun l hl => (hframe l hl).trans (by rw [hrest _ le_rfl])⟩
      · rw [update_of_ne hlast, List.getElem_append_left (by omega)]
        exact hrow k (by omega)
    · intro k hk
      rw [List.length_append, List.length_singleton] at hk
      rw [update_of_ne (by omega)]
      exact hrest k (by omega)

theorem kernel_eq_some {mat : Limbs w} {ker : Option (ℕ → Limbs w)}
    {r : ℕ × ℕ × Option (ℕ → Limbs w)} (hst : gaussianElimination G mat none = some st)
    (hassert : ker.isNone = true ∨ G.nrows ≤ G.limbsPerCol * w)
    (hrun : forRangeM G.nrows (kernelPass G st) (G.nrows, 0, ker) = some r) :
    kernel G mat ker = some (G.nrows - r.1, r.2.2) := by
  simp only [kernel, hst, assert_of_true hassert, Option.bind_eq_bind, Option.bind_some, hrun]

theorem kernel_null {mat : Limbs w} (hw : 0 < w) (hcols : G.ncols ≤ G.limbsPerRow * w)
    (hsound : Sound G mat) :
    kernel G mat none
      = some (G.nrows - (toMatrix (rowsOf G mat) G.ncols).rank, none) := by
  obtain ⟨st, hst, hrep, -⟩ := gaussianElimination_spec none hw hcols hsound nofun
  obtain ⟨r, hrun, hnone, us, hfound⟩ := kernelPass_null hrep
  rw [kernel_eq_some hst (Or.inl rfl) hrun, hnone, (hfound.dim_eq (inv_reduce _ _)).2]

section Table

/-- The table holds the combinations of the rows `us` that were not used, the bits
beyond the rows zero, and `ker` elsewhere. -/
structure Filled (s : Elimination.State (Fin G.nrows)) (ker : ℕ → Limbs w)
    (us : List (Fin G.nrows)) (table : ℕ → Limbs w) : Prop where
  rows : RowsBefore (· ∉ s.used) G.nrows us
  bits : ∀ k (hk : k < us.length), ∀ y < G.limbsPerCol * w,
    arrayBit (table k) y = extend (s.l us[k]) y
  frame : ∀ k < us.length, ∀ l, G.limbsPerCol ≤ l → table k l = ker k l
  rest : ∀ k, us.length ≤ k → table k = ker k

section Filled

variable {ker table : ℕ → Limbs w} {us : List (Fin G.nrows)} {M : Fin G.nrows → ℕ → ZMod 2}
  (h : Filled s ker us table)

include h

theorem Filled.padding (k : ℕ) (hk : k < us.length) (y : ℕ) (hy : G.nrows ≤ y)
    (hlt : y < G.limbsPerCol * w) : arrayBit (table k) y = 0 := by
  rw [h.bits k hk y hlt, extend, dif_neg (by omega)]

variable (hinv : Elimination.Inv M G.ncols G.ncols s) (hrows : G.nrows ≤ G.limbsPerCol * w)

include hrows

theorem Filled.vectorOf_eq :
    (fun k : Fin us.length => vectorOf G (table k)) = fun k => s.l us[k] :=
  funext fun k => vectorOf_of_extend (h.bits k k.isLt) hrows

include hinv

theorem Filled.linearIndependent :
    LinearIndependent (ZMod 2) fun k : Fin us.length => vectorOf G (table k) := by
  have hunused : ∀ k : Fin us.length, us[k] ∉ s.used := fun k =>
    (h.rows.mem_iff _).mp (List.getElem_mem k.isLt)
  rw [h.vectorOf_eq hrows]
  refine hinv.linearIndependent.comp (fun k : Fin us.length => ⟨us[k], hunused k⟩) ?_
  intro k k' heq
  exact Fin.ext ((h.rows.nodup.getElem_inj_iff).mp (congrArg Subtype.val heq))

theorem Filled.span_eq :
    Submodule.span (ZMod 2) (Set.range fun k : Fin us.length => vectorOf G (table k))
      = LinearMap.ker (toMatrix M G.ncols).vecMulLinear := by
  rw [← hinv.span_ker, h.vectorOf_eq hrows]
  congr 1
  ext v
  constructor
  · rintro ⟨k, rfl⟩
    exact ⟨⟨us[k], (h.rows.mem_iff _).mp (List.getElem_mem k.isLt)⟩, rfl⟩
  · rintro ⟨⟨i, hi⟩, rfl⟩
    obtain ⟨k, hk, heq⟩ := List.getElem_of_mem ((h.rows.mem_iff i).mpr hi)
    exact ⟨⟨k, hk⟩, congrArg s.l heq⟩

end Filled

variable {mat : Limbs w} (ker : ℕ → Limbs w) (hw : 0 < w)
  (hcols : G.ncols ≤ G.limbsPerRow * w) (hrows : G.nrows ≤ G.limbsPerCol * w)

include hw hcols hrows

theorem kernel_spec (hsound : Sound G mat) :
    ∃ us table, kernel G mat (some ker) = some (us.length, some table) ∧
      us.length = G.nrows - (toMatrix (rowsOf G mat) G.ncols).rank ∧
      Filled (reduce (rowsOf G mat) G.ncols) ker us table := by
  have hinv := inv_reduce (rowsOf G mat) G.ncols
  obtain ⟨st, hst, hrep, -⟩ := gaussianElimination_spec none hw hcols hsound nofun
  obtain ⟨r, hrun, us, table, hfound, hr, hrow, hrest⟩ :=
    kernelPass_spec hrep hinv hw hrows ker
  obtain ⟨hlength, hdim⟩ := hfound.dim_eq hinv
  refine ⟨us, table, ?_, hlength ▸ hdim, hfound.rows, fun k hk => (hrow k hk).1,
    fun k hk => (hrow k hk).2, hrest⟩
  rw [kernel_eq_some hst (Or.inr hrows) hrun, hlength, hr]

omit hw hcols hrows in
theorem kernel_eq_none (hsound : ¬Sound G mat) : kernel G mat (some ker) = none := by
  rw [kernel, gaussianElimination_eq_none none hsound]
  rfl

theorem kernel_congr {mat' : Limbs w} {ker' table table' : ℕ → Limbs w} {d d' : ℕ}
    (hmat : ∀ i, ∀ x < G.ncols, rowsOf G mat i x = rowsOf G mat' i x)
    (hrun : kernel G mat (some ker) = some (d, some table))
    (hrun' : kernel G mat' (some ker') = some (d', some table')) :
    d = d' ∧ ∀ k < d, ∀ y < G.limbsPerCol * w,
      arrayBit (table k) y = arrayBit (table' k) y := by
  have hfilled : ∀ {mat : Limbs w} {ker table d}, kernel G mat (some ker) = some (d, some table) →
      ∃ us, d = us.length ∧ Filled (reduce (rowsOf G mat) G.ncols) ker us table := by
    intro mat ker table d hrun
    have hsound : Sound G mat := by
      by_contra hnot
      rw [kernel_eq_none ker hnot] at hrun
      exact absurd hrun nofun
    obtain ⟨us, table₀, hrun₀, -, hfilled⟩ := kernel_spec ker hw hcols hrows hsound
    rw [hrun₀] at hrun
    cases hrun
    exact ⟨us, rfl, hfilled⟩
  have hagree := Elimination.reduce_agree hmat
  obtain ⟨us, rfl, h⟩ := hfilled hrun
  obtain ⟨us', rfl, h'⟩ := hfilled hrun'
  have hus : us = us' := h.rows.unique (by rw [hagree.used]; exact h'.rows)
  subst hus
  refine ⟨rfl, fun k hk y hy => ?_⟩
  rw [h.bits k hk y hy, h'.bits k hk y hy, hagree.l]

end Table

/-- `kernel` returns the dimension of the left nullspace and fills that many vectors of
the table with a basis of it, the bits beyond the rows zero. -/
theorem kernel_basis (G : Params) (mat : Limbs w) (ker : ℕ → Limbs w) (hw : 0 < w)
    (hcols : G.ncols ≤ G.limbsPerRow * w) (hrows : G.nrows ≤ G.limbsPerCol * w)
    (hsound : Sound G mat) :
    ∃ d table, kernel G mat (some ker) = some (d, some table) ∧
      d = G.nrows - (toMatrix (rowsOf G mat) G.ncols).rank ∧
      LinearIndependent (ZMod 2) (fun k : Fin d => vectorOf G (table k)) ∧
      Submodule.span (ZMod 2) (Set.range fun k : Fin d => vectorOf G (table k))
        = LinearMap.ker (toMatrix (rowsOf G mat) G.ncols).vecMulLinear ∧
      (∀ k < d, (∀ y, G.nrows ≤ y → y < G.limbsPerCol * w → arrayBit (table k) y = 0) ∧
        ∀ l, G.limbsPerCol ≤ l → table k l = ker k l) ∧
      ∀ k, d ≤ k → table k = ker k := by
  have hinv := inv_reduce (rowsOf G mat) G.ncols
  obtain ⟨us, table, hrun, hdim, hfilled⟩ := kernel_spec ker hw hcols hrows hsound
  exact ⟨us.length, table, hrun, hdim, hfilled.linearIndependent hinv hrows,
    hfilled.span_eq hinv hrows, fun k hk => ⟨hfilled.padding k hk, hfilled.frame k hk⟩,
    hfilled.rest⟩

end Kernel

/-- One row `1` and one row `0`: the second one spans the left nullspace. -/
theorem kernel_basis_two :
    ∃ d table, kernel ⟨2, 1, 1, 1, .two, false⟩ (fun l => if l = 0 then 1#64 else 0#64)
        (some fun _ _ => 7#64) = some (d, some table) ∧
      d = 2 - (toMatrix (rowsOf ⟨2, 1, 1, 1, .two, false⟩
        (fun l => if l = 0 then 1#64 else 0#64)) 1).rank := by
  obtain ⟨d, table, hrun, hdim, -⟩ := kernel_basis ⟨2, 1, 1, 1, .two, false⟩
    (fun l => if l = 0 then 1#64 else 0#64) (fun _ _ => 7#64) (by decide) (by decide)
    (by decide) (Or.inr (by decide))
  exact ⟨d, table, hrun, hdim⟩

/-- The assertion that forces no optimizations fails on some matrices. -/
theorem kernel_aborts :
    ¬∀ (G : Params) (mat : Limbs 64) (ker : ℕ → Limbs 64), 1 ≤ G.nrows → 1 ≤ G.ncols →
      G.ncols ≤ G.limbsPerRow * 64 → G.nrows ≤ G.limbsPerCol * 64 →
      (kernel G mat (some ker)).isSome := by
  intro hall
  have hsome := hall ⟨2, 1, 1, 1, .two, false⟩
    (fun l => if l = 0 then -2342326#64 else 0#64) (fun _ _ => 0#64) (by decide) (by decide)
    (by decide) (by decide)
  exact absurd hsome (by decide)

end CadoNfs.Gauss
