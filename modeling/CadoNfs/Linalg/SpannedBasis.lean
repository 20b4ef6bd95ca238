import CadoNfs.Lib.ReducedColumns
import CadoNfs.Linalg.GaussKernel

/-!
# The change of basis of `spanned_basis`

The elimination along with the identity matrix, whose rows are then put in order: the rows
that were used come first, the others last, the first of them at the very end.

Main results:

- Theorem `spannedBasis_spec`: the rows of `lmat` are the combinations of the
  elimination, in that order.
- Theorem `spannedBasis_reduces`: as a change of basis it reduces the transpose of the
  matrix.
-/

namespace CadoNfs.Gauss

open ForRange Gf2 ReducedColumns
open Elimination (combine reduce)

variable {w : ℕ} (G : Params)

/-! ## Code -/

/-- `lmat2` with the bits that `ADDBIT_SLOW` sets. -/
def identityRows : Limbs w :=
  forRange G.nrows (fun i lmat2 =>
    Function.update lmat2 (G.limbsPerCol * i + i / w)
      (lmat2 (G.limbsPerCol * i + i / w) ^^^ (1#w <<< (i % w)))) fun _ => 0#w

/-- `memcpy` of row `s` of `src` to row `d`. -/
def copyLimbs (dst : Limbs w) (d : ℕ) (src : Limbs w) (s stride : ℕ) : Limbs w :=
  forRange stride (fun j dst => Function.update dst (stride * d + j) (src (stride * s + j)))
    dst

/-- One pass of the loop that puts the rows in order, over `r`, `h` and
`lmat`. -/
def spannedBasisPass (st : State w) (lmat2 : Limbs w) (i : ℕ) :
    ℕ × ℕ × Limbs w → Option (ℕ × ℕ × Limbs w)
  | (r, h, lmat) => do
    assert G (r < h)
    if st.setUsed i = true then some (r + 1, h, copyLimbs lmat r lmat2 i G.limbsPerCol)
    else some (r, h - 1, copyLimbs lmat (h - 1) lmat2 i G.limbsPerCol)

/-- `spanned_basis` without `elim_table`: the rank, `lmat`, and what is left
in `mat`. -/
def spannedBasis (lmat mat : Limbs w) : Option (ℕ × Limbs w × Limbs w) := do
  let st ← gaussianElimination G mat (some (identityRows G))
  let lmat2 ← st.rows.lmat
  let r ← forRangeM G.nrows (spannedBasisPass G st lmat2) (0, G.nrows, lmat)
  some (r.1, r.2.2, st.rows.mat)

/-! ## The rows in order -/

variable {G} {i r x : ℕ}

theorem flatBit_copyLimbs (dst : Limbs w) (d : ℕ) (src : Limbs w) (s : ℕ) {stride : ℕ}
    (hx : x < stride * w) :
    flatBit stride (copyLimbs dst d src s stride) r x
      = if r = d then flatBit stride src s x else flatBit stride dst r x := by
  have hlt : x / w < stride := div_lt_stride hx
  unfold flatBit copyLimbs
  by_cases hr : r = d
  · rw [if_pos hr, hr, forRange_update_apply (p := fun j => stride * d + j)
      (fun j => src (stride * s + j)) (fun _ _ _ _ heq => Nat.add_left_cancel heq) hlt]
  · rw [if_neg hr, forRange_update_of_ne (p := fun j => stride * d + j)
      (fun j => src (stride * s + j))]
    exact fun j hj heq => hr (cell_inj hlt hj heq).1

/-- The identity is a start. -/
theorem identityRows_spec (hw : 0 < w) (hrows : G.nrows ≤ G.limbsPerCol * w) :
    StartsAtIdentity G (some (identityRows G : Limbs w)) := by
  rintro p ⟨⟩
  refine ⟨hrows, fun i hi y hy => ?_⟩
  have hloop := forRange_induct
    (motive := fun k (q : Limbs w) => ∀ r, ∀ y < G.limbsPerCol * w,
      flatBit G.limbsPerCol q r y = if r < k ∧ y = r then 1 else 0)
    (fun i (lmat2 : Limbs w) => Function.update lmat2 (G.limbsPerCol * i + i / w)
      (lmat2 (G.limbsPerCol * i + i / w) ^^^ (1#w <<< (i % w)))) (fun _ => 0#w) G.nrows ?_ ?_
  · rw [identityRows, hloop i y hy]
    simp [hi]
  · intro r y _
    simp [flatBit]
  · intro k hk q hq r y hy
    have hkdiv : k / w < G.limbsPerCol := div_lt_stride (hk.trans_le hrows)
    have hold := hq r y hy
    unfold flatBit at hold ⊢
    rw [update_cell_apply hkdiv (div_lt_stride hy)]
    by_cases hcell : r = k ∧ y / w = k / w
    · obtain ⟨rfl, hdiv⟩ := hcell
      rw [hdiv] at hold
      rw [if_pos ⟨rfl, hdiv⟩, bit_xor, hold, bit_one_shift (Nat.mod_lt r hw),
        if_neg (by omega), zero_add]
      refine if_congr ((mod_eq_mod_iff hdiv).trans ?_) rfl rfl
      omega
    · rw [if_neg hcell, hold]
      refine if_congr ?_ rfl rfl
      constructor
      · rintro ⟨hlt, heq⟩
        exact ⟨by omega, heq⟩
      · rintro ⟨hlt, heq⟩
        refine ⟨?_, heq⟩
        by_contra hge
        exact hcell ⟨by omega, by rw [heq, show r = k by omega]⟩

section Order

variable {M : Fin G.nrows → ℕ → ZMod 2} {st : State w} {s : Elimination.State (Fin G.nrows)}
  {lmat lmat2 : Limbs w} {us vs : List (Fin G.nrows)}

/-- The rows before `i` in two lists, the rows that were used and the others, and where
`spanned_basis` put their combinations. -/
structure Ordered (s : Elimination.State (Fin G.nrows)) (i : ℕ) (us vs : List (Fin G.nrows))
    (lmat : Limbs w) : Prop where
  used : RowsBefore (· ∈ s.used) i us
  rest : RowsBefore (· ∉ s.used) i vs
  length : us.length + vs.length = i
  front : ∀ k (hk : k < us.length), ∀ y < G.limbsPerCol * w,
    flatBit G.limbsPerCol lmat k y = extend (s.l us[k]) y
  back : ∀ k (hk : k < vs.length), ∀ y < G.limbsPerCol * w,
    flatBit G.limbsPerCol lmat (G.nrows - 1 - k) y = extend (s.l vs[k]) y

theorem ordered_zero (lmat : Limbs w) : Ordered (G := G) s 0 [] [] lmat where
  used := rowsBefore_zero
  rest := rowsBefore_zero
  length := rfl
  front := by simp
  back := by simp

section Push

variable (h : Ordered s i us vs lmat) (hi : i < G.nrows)
  (hrow : ∀ y < G.limbsPerCol * w, flatBit G.limbsPerCol lmat2 i y = extend (s.l ⟨i, hi⟩) y)

include h hrow

theorem Ordered.push_used (hused : (⟨i, hi⟩ : Fin G.nrows) ∈ s.used) :
    Ordered s (i + 1) (us ++ [⟨i, hi⟩]) vs
      (copyLimbs lmat us.length lmat2 i G.limbsPerCol) := by
  have hlength := h.length
  refine ⟨h.used.push hi hused, h.rest.skip hi (not_not.mpr hused), ?_, fun k hk y hy => ?_,
    fun k hk y hy => ?_⟩
  · rw [List.length_append, List.length_singleton]
    omega
  · rw [List.length_append, List.length_singleton] at hk
    rw [flatBit_copyLimbs _ _ _ _ hy]
    by_cases hlast : k = us.length
    · subst hlast
      rw [if_pos rfl, List.getElem_concat_length rfl, hrow y hy]
    · rw [if_neg hlast, List.getElem_append_left (by omega)]
      exact h.front k (by omega) y hy
  · rw [flatBit_copyLimbs _ _ _ _ hy, if_neg (by omega)]
    exact h.back k hk y hy

theorem Ordered.push_rest (hunused : (⟨i, hi⟩ : Fin G.nrows) ∉ s.used) :
    Ordered s (i + 1) us (vs ++ [⟨i, hi⟩])
      (copyLimbs lmat (G.nrows - vs.length - 1) lmat2 i G.limbsPerCol) := by
  have hlength := h.length
  refine ⟨h.used.skip hi hunused, h.rest.push hi hunused, ?_, fun k hk y hy => ?_,
    fun k hk y hy => ?_⟩
  · rw [List.length_append, List.length_singleton]
    omega
  · rw [flatBit_copyLimbs _ _ _ _ hy, if_neg (by omega)]
    exact h.front k hk y hy
  · rw [List.length_append, List.length_singleton] at hk
    rw [flatBit_copyLimbs _ _ _ _ hy]
    by_cases hlast : k = vs.length
    · subst hlast
      rw [if_pos (by omega), List.getElem_concat_length rfl, hrow y hy]
    · rw [if_neg (by omega), List.getElem_append_left (by omega)]
      exact h.back k (by omega) y hy

end Push

/-- The order in which rows became pivots is a permutation of the rows. -/
theorem Ordered.exists_order (h : Ordered s G.nrows us vs lmat) :
    us.length = s.used.card ∧ ∃ order : Fin G.nrows → Fin G.nrows,
      Function.Injective order ∧ (∀ p : Fin G.nrows, order p ∈ s.used ↔ (p : ℕ) < us.length) ∧
      (∀ p : Fin G.nrows, (p : ℕ) = us.length → ∀ j ∉ s.used, j ≤ order p) ∧
      ∀ p : Fin G.nrows, ∀ y < G.limbsPerCol * w,
        flatBit G.limbsPerCol lmat p y = extend (s.l (order p)) y := by
  have hlength := h.length
  have hcard : us.length = s.used.card := by
    rw [← List.toFinset_card_of_nodup h.used.nodup]
    congr 1
    ext y
    rw [List.mem_toFinset, h.used.mem_iff]
  have hvs : ∀ p : Fin G.nrows, ¬(p : ℕ) < us.length → G.nrows - 1 - p < vs.length := by
    intro p hp
    have := p.isLt
    omega
  let order : Fin G.nrows → Fin G.nrows := fun p =>
    if hp : (p : ℕ) < us.length then us[(p : ℕ)] else vs.get ⟨G.nrows - 1 - p, hvs p hp⟩
  have hfront : ∀ p : Fin G.nrows, ∀ hp : (p : ℕ) < us.length, order p = us[(p : ℕ)] :=
    fun p hp => dif_pos hp
  have hback : ∀ p : Fin G.nrows, ∀ hp : ¬(p : ℕ) < us.length,
      order p = vs.get ⟨G.nrows - 1 - p, hvs p hp⟩ := fun p hp => dif_neg hp
  have hused : ∀ p, order p ∈ s.used ↔ (p : ℕ) < us.length := by
    intro p
    by_cases hp : (p : ℕ) < us.length
    · rw [hfront p hp]
      exact iff_of_true ((h.used.mem_iff _).mp (List.getElem_mem hp)) hp
    · rw [hback p hp]
      exact iff_of_false ((h.rest.mem_iff _).mp (List.get_mem _ _)) hp
  refine ⟨hcard, order, fun p q heq => ?_, hused, fun p hp j hj => ?_, fun p y hy => ?_⟩
  · have hiff : (p : ℕ) < us.length ↔ (q : ℕ) < us.length := by rw [← hused, ← hused, heq]
    by_cases hp : (p : ℕ) < us.length
    · rw [hfront p hp, hfront q (hiff.mp hp)] at heq
      exact Fin.ext (h.used.nodup.getElem_inj_iff.mp heq)
    · rw [hback p hp, hback q (mt hiff.mpr hp)] at heq
      have hpos := congrArg Fin.val ((h.rest.nodup.get_inj_iff).mp heq)
      have := p.isLt
      have := q.isLt
      exact Fin.ext (by simp only at hpos; omega)
  · obtain ⟨k, hk, rfl⟩ := List.getElem_of_mem ((h.rest.mem_iff j).mpr hj)
    have hlast : vs.length - 1 < vs.length := by omega
    have horder : order p = vs[vs.length - 1] := by
      rw [hback p (by omega), List.get_eq_getElem]
      congr 1
      simp only
      omega
    rw [horder]
    rcases Nat.lt_or_eq_of_le (Nat.le_sub_one_of_lt hk) with hlt | heq
    · exact (List.pairwise_iff_getElem.mp h.rest.ascending k _ hk hlast hlt).le
    · exact le_of_eq (by simp [heq])
  · by_cases hp : (p : ℕ) < us.length
    · rw [hfront p hp]
      exact h.front p hp y hy
    · rw [hback p hp]
      have hbits := h.back _ (hvs p hp) y hy
      have hpos : G.nrows - 1 - (G.nrows - 1 - p) = p := by
        have := p.isLt
        omega
      rwa [hpos] at hbits

/-- The passes put the pivot rows in order. -/
theorem spannedBasisPass_spec (h : Represents G G.ncols st s)
    (hlmat2 : st.rows.lmat = some lmat2) (lmat : Limbs w) :
    ∃ r, forRangeM G.nrows (spannedBasisPass G st lmat2) (0, G.nrows, lmat) = some r ∧
      ∃ us vs, Ordered s G.nrows us vs r.2.2 ∧ r.1 = us.length := by
  have hloop := forRangeM_induct
    (motive := fun i (r : ℕ × ℕ × Limbs w) => ∃ us vs, Ordered s i us vs r.2.2 ∧
      r.1 = us.length ∧ r.2.1 = G.nrows - vs.length)
    (spannedBasisPass G st lmat2) (0, G.nrows, lmat) G.nrows ?_ ?_
  · obtain ⟨r, hrun, us, vs, hordered, hr, -⟩ := hloop
    exact ⟨r, hrun, us, vs, hordered, hr⟩
  · exact ⟨[], [], ordered_zero lmat, rfl, rfl⟩
  · rintro i hi ⟨r, h', lmat'⟩ ⟨us, vs, hordered, rfl, rfl⟩
    have hlength := hordered.length
    have hassert : us.length < G.nrows - vs.length := by omega
    have hused := h.used ⟨i, hi⟩
    have hrow := h.combinations lmat2 hlmat2 ⟨i, hi⟩
    by_cases hmem : (⟨i, hi⟩ : Fin G.nrows) ∈ s.used
    · rw [decide_eq_true hmem] at hused
      refine ⟨(us.length + 1, G.nrows - vs.length,
        copyLimbs lmat' us.length lmat2 i G.limbsPerCol), ?_, _, vs,
        hordered.push_used hi hrow hmem, by simp, rfl⟩
      simp only [spannedBasisPass, assert_of_true hassert, if_pos hused]
      rfl
    · rw [decide_eq_false hmem] at hused
      refine ⟨(us.length, G.nrows - vs.length - 1,
        copyLimbs lmat' (G.nrows - vs.length - 1) lmat2 i G.limbsPerCol), ?_, us, _,
        hordered.push_rest hi hrow hmem, rfl, ?_⟩
      · have hfalse : ¬st.setUsed i = true := by simp [hused]
        simp only [spannedBasisPass, assert_of_true hassert, if_neg hfalse]
        rfl
      · rw [List.length_append, List.length_singleton]
        simp only
        omega

theorem spannedBasis_eq_none {mat : Limbs w} (lmat : Limbs w)
    (hsound : ¬Sound G mat) : spannedBasis G lmat mat = none := by
  rw [spannedBasis, gaussianElimination_eq_none _ hsound]
  rfl

section Rows

variable {mat : Limbs w} (lmat) (hw : 0 < w) (hcols : G.ncols ≤ G.limbsPerRow * w)
  (hrows : G.nrows ≤ G.limbsPerCol * w)

include hw hcols hrows

theorem spannedBasis_ordered (hsound : Sound G mat) :
    ∃ us vs lmat' mat', spannedBasis G lmat mat = some (us.length, lmat', mat') ∧
      Ordered (reduce (rowsOf G mat) G.ncols) G.nrows us vs lmat' := by
  obtain ⟨st, hst, hrep, hsome⟩ :=
    gaussianElimination_spec _ hw hcols hsound (identityRows_spec hw hrows)
  obtain ⟨lmat2, hlmat2⟩ := Option.isSome_iff_exists.mp hsome
  obtain ⟨r, hrun, us, vs, hordered, hr⟩ := spannedBasisPass_spec hrep hlmat2 lmat
  refine ⟨us, vs, r.2.2, st.rows.mat, ?_, hordered⟩
  simp [spannedBasis, hst, hlmat2, hrun, hr]

/-- The rows of `lmat` are the combinations of the elimination, put in order. -/
theorem spannedBasis_spec (hsound : Sound G mat) :
    ∃ lmat' mat' s order, spannedBasis G lmat mat = some (s.used.card, lmat', mat') ∧
      Elimination.Inv (rowsOf G mat) G.ncols G.ncols s ∧ Function.Injective order ∧
      (∀ p : Fin G.nrows, order p ∈ s.used ↔ (p : ℕ) < s.used.card) ∧
      (∀ p : Fin G.nrows, (p : ℕ) = s.used.card → ∀ j ∉ s.used, j ≤ order p) ∧
      ∀ p : Fin G.nrows, ∀ y < G.limbsPerCol * w,
        flatBit G.limbsPerCol lmat' p y = extend (s.l (order p)) y := by
  obtain ⟨us, vs, lmat', mat', hrun, hordered⟩ :=
    spannedBasis_ordered lmat hw hcols hrows hsound
  obtain ⟨hcard, order, hinj, hused, hmax, hbits⟩ := hordered.exists_order
  rw [hcard] at hrun hused hmax
  exact ⟨lmat', mat', reduce (rowsOf G mat) G.ncols, order, hrun,
    Elimination.inv_reduce _ _, hinj, hused, hmax, hbits⟩

/-- Padding bits do not reach the basis. -/
theorem spannedBasis_congr {mat' lmat' res res' left left' : Limbs w} {r r' : ℕ}
    (hmat : ∀ i, ∀ x < G.ncols, rowsOf G mat i x = rowsOf G mat' i x)
    (hrun : spannedBasis G lmat mat = some (r, res, left))
    (hrun' : spannedBasis G lmat' mat' = some (r', res', left')) :
    r = r' ∧ ∀ p < G.nrows, ∀ y < G.limbsPerCol * w,
      flatBit G.limbsPerCol res p y = flatBit G.limbsPerCol res' p y := by
  have hordered : ∀ {mat lmat res left : Limbs w} {r},
      spannedBasis G lmat mat = some (r, res, left) →
      ∃ us vs, r = us.length ∧ Ordered (reduce (rowsOf G mat) G.ncols) G.nrows us vs res := by
    intro mat lmat res left r hrun
    have hsound : Sound G mat := by
      by_contra hnot
      rw [spannedBasis_eq_none lmat hnot] at hrun
      exact absurd hrun nofun
    obtain ⟨us, vs, res₀, left₀, hrun₀, hordered⟩ :=
      spannedBasis_ordered lmat hw hcols hrows hsound
    rw [hrun₀] at hrun
    cases hrun
    exact ⟨us, vs, rfl, hordered⟩
  have hagree := Elimination.reduce_agree hmat
  obtain ⟨us, vs, rfl, h⟩ := hordered hrun
  obtain ⟨us', vs', rfl, h'⟩ := hordered hrun'
  have hus : us = us' := h.used.unique (by rw [hagree.used]; exact h'.used)
  have hvs : vs = vs' := h.rest.unique (by rw [hagree.used]; exact h'.rest)
  subst hus hvs
  refine ⟨rfl, fun p hp y hy => ?_⟩
  have hlength := h.length
  by_cases hfront : p < us.length
  · rw [h.front p hfront y hy, h'.front p hfront y hy, hagree.l]
  · have hback : G.nrows - 1 - p < vs.length := by omega
    have hpos : G.nrows - 1 - (G.nrows - 1 - p) = p := by omega
    rw [← hpos, h.back _ hback y hy, h'.back _ hback y hy, hagree.l]

end Rows

/-- The transpose of a matrix of limbs. -/
def transposed (G : Params) (mat : Limbs w) :
    Matrix (Fin G.ncols) (Fin G.nrows) (ZMod 2) :=
  Matrix.of fun x c => flatBit G.limbsPerRow mat c x

/-- The transpose of the change of basis. -/
def basisOf (G : Params) (lmat : Limbs w) : Matrix (Fin G.nrows) (Fin G.nrows) (ZMod 2) :=
  Matrix.of fun y p => flatBit G.limbsPerCol lmat p y

/-- `spanned_basis` finds a change of basis that reduces the columns of the transpose
and returns the rank.  When the last column is zero, it comes right after the columns that
are not zero. -/
theorem spannedBasis_reduces {mat : Limbs w} (lmat : Limbs w) (hw : 0 < w)
    (hcols : G.ncols ≤ G.limbsPerRow * w) (hrows : G.nrows ≤ G.limbsPerCol * w)
    (hsound : Sound G mat) :
    ∃ r lmat' mat', spannedBasis G lmat mat = some (r, lmat', mat') ∧
      Reduces (transposed G mat) (basisOf G lmat') r ∧
      ∀ c : Fin G.nrows, (c : ℕ) + 1 = G.nrows → (∀ x, transposed G mat x c = 0) →
        ∀ p : Fin G.nrows, (p : ℕ) = r → ∀ y, basisOf G lmat' y p = if y = c then 1 else 0 := by
  obtain ⟨lmat', mat', s, order, hrun, hinv, hinj, hused, hmax, hbits⟩ :=
    spannedBasis_spec lmat hw hcols hrows hsound
  have hentry : ∀ y p, basisOf G lmat' y p = s.l (order p) y := by
    intro y p
    rw [basisOf, Matrix.of_apply, hbits p y (y.isLt.trans_le hrows), extend, dif_pos y.isLt]
  have hproduct : ∀ (x : Fin G.ncols) p, (transposed G mat * basisOf G lmat') x p
      = combine (rowsOf G mat) (s.l (order p)) x := by
    intro x p
    rw [Matrix.mul_apply, combine]
    refine Finset.sum_congr rfl fun y _ => ?_
    rw [hentry, mul_comm]
    rfl
  let e : Fin G.nrows ≃ Fin G.nrows :=
    Equiv.ofBijective order (Finite.injective_iff_bijective.mp hinj)
  have hsum : ∀ (a : Fin G.nrows → ZMod 2) (f : Fin G.nrows → ZMod 2),
      ∑ q, a (e.symm q) * f q = ∑ p, a p * f (order p) := by
    intro a f
    rw [← Equiv.sum_comp e]
    exact Finset.sum_congr rfl fun p _ => by rw [Equiv.symm_apply_apply]; rfl
  refine ⟨s.used.card, lmat', mat', hrun, ⟨?_, ⟨fun x p hp => ?_, fun a ha hzero => ?_⟩, ?_⟩,
    fun c hc hzero p hp y => ?_⟩
  · rw [← Matrix.isUnit_iff_isUnit_det, ← Matrix.mulVec_injective_iff_isUnit]
    refine (injective_iff_map_eq_zero (basisOf G lmat').mulVecLin).mpr fun a ha => ?_
    have hcombination := hinv.eq_zero_of_sum (a := fun q => a (e.symm q)) fun y => by
      have hy : ∑ p, basisOf G lmat' y p * a p = 0 := congrFun ha y
      rw [hsum a fun q => s.l q y]
      exact (Finset.sum_congr rfl fun p _ => by rw [hentry, mul_comm]).trans hy
    funext p
    have hvalue := hcombination (e p)
    rwa [Equiv.symm_apply_apply] at hvalue
  · rw [hproduct, hinv.row _ (fun hmem => not_lt.mpr hp ((hused p).mp hmem)) x x.isLt,
      if_pos x.isLt]
  · have hcombination := hinv.indep (fun q => a (e.symm q)) (fun q hq => ?_) fun x hx => ?_
    · funext p
      have hvalue := hcombination (e p)
      rwa [Equiv.symm_apply_apply] at hvalue
    · by_contra hnot
      refine hq (ha _ (not_lt.mp fun hlt => hnot ?_))
      have hmem := (hused (e.symm q)).mpr hlt
      rwa [show order (e.symm q) = q from e.apply_symm_apply q] at hmem
    · have hx' : ∑ p, (transposed G mat * basisOf G lmat') ⟨x, hx⟩ p * a p = 0 :=
        congrFun hzero ⟨x, hx⟩
      rw [hsum a fun q => combine (rowsOf G mat) (s.l q) x]
      exact (Finset.sum_congr rfl fun p _ => by rw [hproduct, mul_comm]).trans hx'
  · rw [← hinv.rank_eq, ← Matrix.rank_transpose]
    rfl
  · obtain ⟨hunused, hl⟩ := hinv.zero_row (i := c) fun x hx => hzero ⟨x, hx⟩
    have horder : order p = c :=
      le_antisymm (Fin.le_def.mpr (by have := (order p).isLt; omega)) (hmax p hp c hunused)
    rw [hentry, horder, hl]

end Order

end CadoNfs.Gauss
