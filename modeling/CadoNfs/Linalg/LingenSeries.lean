import CadoNfs.Linalg.Polmat

/-!
# First and last steps of `lingen_binary`

The series `E` that is made of the input, and the generator `F` that is made of
the matrix `pi`.  Both are products with the matrix `F0`, which is the identity
followed by columns with a single power of `X`.

Main results:

- Theorem `computeEFromA_iff`: the series is the product when the input has as many
  columns as rows, and an assertion fails otherwise.
- Theorem `computeFinalFFromPi_iff`: the generator is the product, and only words of
  the polynomials are read, when the coefficients of both fit in as many limbs.
-/

namespace CadoNfs.Lingen

open ForRange Gf2 LimbArray
open List (map_congr_left map_cons mem_append mem_cons_of_mem mem_cons_self mem_map sum_cons)
open Polmat (zeros)
open Shifts (standard)

/-! ## Code -/

/-- `compute_E_from_A`, for the globals `m`, `n`, `t0` and
`f0_data`; `tmp` is what an array of `import_col_shift` holds at first. -/
def computeEFromA (gmp : Shifts) (tmp : Limbs) (m n t0 : ℕ) (f0 : ℕ → ℕ × ℕ) (a : Polmat) :
    Option Polmat := do
  let E := zeros n (m + n) (a.ncoef - t0)
  let E ← forRangeM n (fun j E => E.importColShift gmp tmp j a j (-(t0 : ℤ))) E
  let E ← forRangeM m (fun j E =>
    E.importColShift gmp tmp (n + j) a (f0 j).1 (-((f0 j).2 : ℤ))) E
  some E.clearHighbits

/-- A polynomial where it is stored: its limbs and the number of them. -/
structure Stored where
  limbs : Limbs
  size : ℕ

/-- The polynomial that `poly` points to. -/
def stored (m : Polmat) (i j : ℕ) : Stored :=
  ⟨from_ m.x (m.poly i j), m.stride⟩

/-- The variables `tmpmat` and `tmp_F` of `compute_final_F_from_PI`, and
for each word that `addpoly` has read its position and the number of words of the
polynomial. -/
structure FinalState where
  tmpmat : Polmat
  F : Polmat
  reads : List (ℕ × ℕ)

/-- The words that `addpoly` reads. -/
def addpolyReads (m : Polmat) (src : Stored) : List (ℕ × ℕ) :=
  (List.range m.stride).map fun k => (k, src.size)

/-- `addpoly` on a row of `tmpmat`. -/
def FinalState.addTmp (s : FinalState) (i : ℕ) (src : Stored) : FinalState :=
  { s with
    tmpmat := s.tmpmat.addpoly i 0 src.limbs
    reads := s.reads ++ addpolyReads s.tmpmat src }

/-- `addpoly` on an entry of `tmp_F`. -/
def FinalState.addF (s : FinalState) (i j : ℕ) (src : Stored) : FinalState :=
  { s with
    F := s.F.addpoly i j src.limbs
    reads := s.reads ++ addpolyReads s.F src }

/-- The vector `l` of a row. -/
def rowTerms (m n : ℕ) (f0 : ℕ → ℕ × ℕ) (i : ℕ) : List (ℕ × ℕ) :=
  ((List.range m).filter fun j => (f0 j).1 = i).map fun j => (n + j, (f0 j).2)

/-- The vector `exps` of a row: the set of the exponents in order. -/
def rowExps (l : List (ℕ × ℕ)) : List ℕ :=
  (l.map Prod.snd).dedup.insertionSort (· ≤ ·)

/-- One entry of `tmp_F`. -/
def fillEntry (gmp : Shifts) (t0 : ℕ) (pi : Polmat) (i : ℕ) (l : List (ℕ × ℕ)) (j : ℕ)
    (s : FinalState) : FinalState :=
  let s := { s with tmpmat := s.tmpmat.zcol 0 }
  let s := l.foldl (fun s e => s.addTmp e.2 (stored pi e.1 j)) s
  let s := s.addF i j (stored pi i j)
  (rowExps l).foldl (fun s e =>
    let s := { s with tmpmat := s.tmpmat.xmulPoly gmp e 0 (t0 - e) }
    s.addF i j (stored s.tmpmat e 0)) s

/-- `compute_final_F_from_PI`, with the words that are read. -/
def computeFinalFFromPi (gmp : Shifts) (m n t0 : ℕ) (f0 : ℕ → ℕ × ℕ) (pi : Polmat) :
    Polmat × List (ℕ × ℕ) :=
  let s : FinalState :=
    ⟨zeros t0 1 pi.ncoef, zeros n (m + n) (t0 + pi.ncoef), []⟩
  let s := forRange n (fun i s =>
    forRange (m + n) (fillEntry gmp t0 pi i (rowTerms m n f0 i)) s) s
  let F := forRange (m + n) (fun j (F : Polmat) =>
    { F with
      degs := Function.update F.degs (F.order j)
        (if pi.deg j = -1 then -1 else t0 + pi.deg j) }) s.F
  (F, s.reads)

/-! ## The series -/

section Series

variable {m n t0 : ℕ} {f0 : ℕ → ℕ × ℕ} {a : Polmat}

/-- The product of the input with `F0`, divided by `X ^ t0`. -/
structure IsSeries (m n t0 : ℕ) (f0 : ℕ → ℕ × ℕ) (a E : Polmat) : Prop where
  nrows : E.nrows = m
  ncols : E.ncols = m + n
  ncoef : E.ncoef = a.ncoef - t0
  left : ∀ i < m, ∀ j < n, ∀ k < E.ncoef, E.coeff i j k = a.coeff i j (k + t0)
  right : ∀ i < m, ∀ j < m, ∀ k < E.ncoef,
    E.coeff i (n + j) k = a.coeff i (f0 j).1 (k + (f0 j).2)
  unused : ∀ i < m, ∀ j < m + n, ∀ k, E.ncoef ≤ k → k < 64 * E.stride → E.coeff i j k = 0

section

variable (gmp : Shifts) (tmp : Limbs)

/-- Columns are copied with a shift of their own. -/
theorem importColumns_spec {E : Polmat} {count first : ℕ}
    {source shift : ℕ → ℕ} (hlast : first + count ≤ E.ncols)
    (hsource : ∀ j < count, source j < a.ncols) (hrows : a.nrows = E.nrows)
    (hpos : 0 < count → 0 < E.nrows) (hstride : E.stride ≤ a.stride)
    (hshift : ∀ j < count, shift j < 64 * a.stride) :
    ∃ E', forRangeM count (fun j E =>
        E.importColShift gmp tmp (first + j) a (source j) (-(shift j : ℤ))) E = some E' ∧
      E' = { E with x := E'.x } ∧
      (∀ j < count, ∀ i < E.nrows, ∀ k < 64 * E.stride, k + shift j < 64 * a.stride →
        E'.coeff i (first + j) k = a.coeff i (source j) (k + shift j)) ∧
      ∀ c < E.ncols, c < first ∨ first + count ≤ c → ∀ i < E.nrows, ∀ k < 64 * E.stride,
        E'.coeff i c k = E.coeff i c k := by
  refine forRangeM_induct (motive := fun count (E' : Polmat) =>
      E' = { E with x := E'.x } ∧
      (∀ j < count, ∀ i < E.nrows, ∀ k < 64 * E.stride, k + shift j < 64 * a.stride →
        E'.coeff i (first + j) k = a.coeff i (source j) (k + shift j)) ∧
      ∀ c < E.ncols, c < first ∨ first + count ≤ c → ∀ i < E.nrows, ∀ k < 64 * E.stride,
        E'.coeff i c k = E.coeff i c k) _ E count ?_ ?_
  · exact ⟨rfl, fun j hj => absurd hj (Nat.not_lt_zero j), fun c _ _ i _ k _ => rfl⟩
  · rintro j hj E₁ ⟨hshape, hdone, hrest⟩
    have hE₁ : E₁.nrows = E.nrows ∧ E₁.ncols = E.ncols ∧ E₁.stride = E.stride := by
      rw [hshape]
      exact ⟨rfl, rfl, rfl⟩
    obtain ⟨hnrows, hncols, hstride₁⟩ := hE₁
    obtain ⟨E₂, hrun, himport⟩ := Polmat.importColShift_spec gmp tmp
      (show first + j < E₁.ncols by omega) (hsource j hj) (hrows.trans hnrows.symm)
      (hnrows ▸ hpos (by omega)) (by omega) (hshift j hj)
    refine ⟨E₂, hrun, ?_, ?_, ?_⟩
    · rw [himport.shape, hshape]
    · intro j' hj' i hi k hk hka
      rcases Nat.lt_succ_iff_lt_or_eq.mp hj' with hlt | rfl
      · rw [himport.other (first + j') (by omega) (by omega) i (by omega) k (by omega)]
        exact hdone j' hlt i hi k hk hka
      · exact himport.column i (by omega) k (by omega) hka
    · intro c hc hout i hi k hk
      rw [himport.other c (by omega) (by omega) i (by omega) k (by omega)]
      exact hrest c hc (by omega) i hi k hk

/-- The square case gives the series that is meant. -/
theorem computeEFromA_spec (hrows : a.nrows = n)
    (hcols : a.ncols = n) (ht0 : t0 < a.ncoef) (hf0 : ∀ j < n, (f0 j).1 < n ∧ (f0 j).2 < t0) :
    ∃ E, computeEFromA gmp tmp n n t0 f0 a = some E ∧ IsSeries n n t0 f0 a E := by
  have hlong : a.ncoef ≤ 64 * a.stride := by
    unfold Polmat.stride
    omega
  have hstride : (zeros n (n + n) (a.ncoef - t0)).stride ≤ a.stride := by
    show (a.ncoef - t0 + 63) / 64 ≤ (a.ncoef + 63) / 64
    omega
  obtain ⟨E₁, hrun₁, hshape₁, hleft, -⟩ := importColumns_spec gmp tmp
    (show 0 + n ≤ (zeros n (n + n) (a.ncoef - t0)).ncols from
      (zero_add n).symm ▸ Nat.le_add_right n n)
    (show ∀ j < n, j < a.ncols from fun j hj => hcols.symm ▸ hj) hrows (fun hpos => hpos) hstride
    (show ∀ j < n, t0 < 64 * a.stride from fun _ _ => by omega)
  have hE₁ : E₁.nrows = n ∧ E₁.ncols = n + n ∧
      E₁.stride = (zeros n (n + n) (a.ncoef - t0)).stride := by
    rw [hshape₁]
    exact ⟨rfl, rfl, rfl⟩
  obtain ⟨hnrows₁, hncols₁, hstride₁⟩ := hE₁
  obtain ⟨E₂, hrun₂, hshape₂, hright, hkept⟩ := importColumns_spec gmp tmp
    (show n + n ≤ E₁.ncols from hncols₁.ge)
    (show ∀ j < n, (f0 j).1 < a.ncols from fun j hj => hcols.symm ▸ (hf0 j hj).1)
    (hrows.trans hnrows₁.symm) (fun hpos => hnrows₁.symm ▸ hpos) (hstride₁ ▸ hstride)
    (show ∀ j < n, (f0 j).2 < 64 * a.stride from fun j hj => by
      have := (hf0 j hj).2
      omega)
  have hE₂ : E₂.nrows = n ∧ E₂.ncols = n + n ∧ E₂.ncoef = a.ncoef - t0 := by
    rw [hshape₂, hshape₁]
    exact ⟨rfl, rfl, rfl⟩
  obtain ⟨hnrows₂, hncols₂, hncoef₂⟩ := hE₂
  have hstride₂ : E₂.stride = E₁.stride := by
    rw [hshape₂]
    rfl
  have hshort : E₂.ncoef ≤ 64 * E₂.stride := by
    unfold Polmat.stride
    omega
  have hclear := E₂.clearHighbits_shape
  have hE : E₂.clearHighbits.nrows = n ∧ E₂.clearHighbits.ncols = n + n ∧
      E₂.clearHighbits.ncoef = E₂.ncoef ∧ E₂.clearHighbits.stride = E₂.stride := by
    rw [hclear]
    exact ⟨hnrows₂, hncols₂, rfl, rfl⟩
  obtain ⟨hnrows, hncols, hncoef, hwords⟩ := hE
  refine ⟨E₂.clearHighbits, ?_, hnrows, hncols, hncoef.trans hncoef₂, ?_, ?_, ?_⟩
  · simp only [zero_add] at hrun₁
    simp [computeEFromA, hrun₁, hrun₂, some_bind]
  · intro i hi j hj k hk
    have hfirst := hleft j hj i hi k (by omega) (by omega)
    rw [zero_add] at hfirst
    rw [E₂.coeff_clearHighbits (by omega) (by omega) (by omega), if_pos (by omega),
      hkept j (by omega) (Or.inl hj) i (by omega) k (by omega), hfirst]
  · intro i hi j hj k hk
    have := (hf0 j hj).2
    rw [E₂.coeff_clearHighbits (by omega) (by omega) (by omega), if_pos (by omega),
      hright j hj i (by omega) k (by omega) (by omega)]
  · intro i hi j hj k hle hk
    rw [E₂.coeff_clearHighbits (by omega) (by omega) (by omega), if_neg (by omega)]

/-- The series is computed exactly when the input has as many columns as rows. -/
theorem computeEFromA_iff (hrows : a.nrows = m)
    (hcols : a.ncols = n) (ht0 : t0 < a.ncoef) (hf0 : ∀ j < m, (f0 j).1 < n ∧ (f0 j).2 < t0) :
    (∃ E, computeEFromA gmp tmp m n t0 f0 a = some E ∧ IsSeries m n t0 f0 a E) ↔ m = n := by
  constructor
  · rintro ⟨E, hrun, -⟩
    by_contra hne
    obtain ⟨n, rfl⟩ : ∃ k, n = k + 1 := by
      refine Nat.exists_eq_succ_of_ne_zero fun hzero => ?_
      have := (hf0 0 (by omega)).1
      omega
    rw [computeEFromA, forRangeM_first, Polmat.importColShift_eq_none gmp tmp _ (hrows.trans_ne hne)]
      at hrun
    exact absurd hrun nofun
  · rintro rfl
    exact computeEFromA_spec gmp tmp hrows hcols ht0 hf0

end

/-- A series of two coefficients. -/
theorem computeEFromA_iff_two :
    ∃ E, computeEFromA standard (fun _ => 0#64) 64 64 1 (fun j => (63 - j, 0))
        { zeros 64 64 2 with x := fun y => 1#64 + BitVec.ofNat 64 y } = some E ∧
      IsSeries 64 64 1 (fun j => (63 - j, 0))
        { zeros 64 64 2 with x := fun y => 1#64 + BitVec.ofNat 64 y } E := by
  refine (computeEFromA_iff standard (fun _ => 0#64) ?_ ?_ ?_ fun j _ => ?_).mpr rfl
  · rfl
  · rfl
  · exact Nat.one_lt_two
  · exact ⟨show 63 - j < 64 by omega, Nat.one_pos⟩

/-- With twice as many columns as rows an assertion fails. -/
theorem computeEFromA_wide :
    ¬∃ E, computeEFromA standard (fun _ => 0#64) 64 128 1 (fun j => (j, 0))
        (zeros 64 128 2) = some E ∧
      IsSeries 64 128 1 (fun j => (j, 0)) (zeros 64 128 2) E := by
  rintro ⟨E, hrun, -⟩
  have hrows : (zeros 64 128 2).nrows
      ≠ (zeros 128 (64 + 128) ((zeros 64 128 2).ncoef - 1)).nrows := by decide
  rw [computeEFromA, forRangeM_first, Polmat.importColShift_eq_none _ _ _ hrows] at hrun
  exact absurd hrun nofun

end Series

/-! ## One entry of the generator -/

section Entry

variable {gmp : Shifts} {t0 n N c d : ℕ} {pi : Polmat} {s : FinalState}

/-- The sizes of the variables, where both matrices have `c` limbs for each
polynomial, and the reads that the polynomials allow. -/
structure Shaped (t0 n N c d : ℕ) (s : FinalState) : Prop where
  tmpRows : s.tmpmat.nrows = t0
  tmpCols : s.tmpmat.ncols = 1
  tmpStride : s.tmpmat.stride = c
  rows : s.F.nrows = n
  cols : s.F.ncols = N
  stride : s.F.stride = c
  ncoef : s.F.ncoef = d
  inBounds : ∀ r ∈ s.reads, r.1 < r.2

theorem Shaped.addTmp (h : Shaped t0 n N c d s) (i : ℕ) (src : Stored) (hsrc : src.size = c) :
    Shaped t0 n N c d (s.addTmp i src) where
  __ := h
  inBounds := by
    intro r hr
    rcases mem_append.mp hr with hr | hr
    · exact h.inBounds r hr
    · obtain ⟨k, hk, rfl⟩ := mem_map.mp hr
      rw [List.mem_range, h.tmpStride] at hk
      exact hk.trans_eq hsrc.symm

theorem Shaped.addF (h : Shaped t0 n N c d s) (i j : ℕ) (src : Stored) (hsrc : src.size = c) :
    Shaped t0 n N c d (s.addF i j src) where
  __ := h
  inBounds := by
    intro r hr
    rcases mem_append.mp hr with hr | hr
    · exact h.inBounds r hr
    · obtain ⟨k, hk, rfl⟩ := mem_map.mp hr
      rw [List.mem_range, h.stride] at hk
      exact hk.trans_eq hsrc.symm

theorem bitAt_stored (m : Polmat) (i j q : ℕ) : bitAt (stored m i j).limbs q = m.coeff i j q := by
  rw [stored, bitAt_from, Polmat.coeff_eq]

theorem foldl_addTmp_spec (hpi : pi.stride = c) {l : List (ℕ × ℕ)} (hl : ∀ e ∈ l, e.2 < t0)
    (j : ℕ) (h : Shaped t0 n N c d s) :
    let s' := l.foldl (fun s e => s.addTmp e.2 (stored pi e.1 j)) s
    Shaped t0 n N c d s' ∧ s'.F = s.F ∧ ∀ i < t0, ∀ q < 64 * c,
      s'.tmpmat.coeff i 0 q = s.tmpmat.coeff i 0 q
        + (l.map fun e => if e.2 = i then pi.coeff e.1 j q else 0).sum := by
  induction l generalizing s with
  | nil => exact ⟨h, rfl, fun i _ q _ => (add_zero _).symm⟩
  | cons e l ih =>
    obtain ⟨hshaped, hF, hcoeff⟩ := ih (fun x hx => hl x (mem_cons_of_mem e hx))
      (h.addTmp e.2 (stored pi e.1 j) hpi)
    refine ⟨hshaped, hF, fun i hi q hq => ?_⟩
    have he := hl e mem_cons_self
    have hadd := s.tmpmat.coeff_addpoly (stored pi e.1 j).limbs (h.tmpRows ▸ he)
      (h.tmpCols ▸ Nat.one_pos) (h.tmpRows ▸ hi) (h.tmpCols ▸ Nat.one_pos) (h.tmpStride ▸ hq)
    rw [List.foldl_cons, hcoeff i hi q hq, map_cons, sum_cons, ← add_assoc]
    refine congrArg (· + _) (hadd.trans ?_)
    rw [bitAt_stored]
    by_cases hei : i = e.2
    · rw [if_pos ⟨hei, rfl⟩, if_pos hei.symm]
    · rw [if_neg fun hat => hei hat.1, if_neg (Ne.symm hei), add_zero]

theorem foldl_addF_spec (gmp : Shifts) (ht0 : t0 ≤ 63) {exps : List ℕ} (hexps : exps.Nodup)
    (hlt : ∀ e ∈ exps, e < t0) {i j : ℕ} (hi : i < n) (hj : j < N) (h : Shaped t0 n N c d s) :
    let s' := exps.foldl (fun s e =>
      let s := { s with tmpmat := s.tmpmat.xmulPoly gmp e 0 (t0 - e) }
      s.addF i j (stored s.tmpmat e 0)) s
    Shaped t0 n N c d s' ∧ ∀ i' < n, ∀ j' < N, ∀ q < 64 * c,
      s'.F.coeff i' j' q = if i' = i ∧ j' = j then s.F.coeff i' j' q + (exps.map fun e =>
          if t0 - e ≤ q then s.tmpmat.coeff e 0 (q - (t0 - e)) else 0).sum
        else s.F.coeff i' j' q := by
  induction exps generalizing s with
  | nil =>
    refine ⟨h, fun i' _ j' _ q _ => ?_⟩
    split_ifs
    · exact (add_zero _).symm
    · rfl
  | cons e exps ih =>
    have he := hlt e mem_cons_self
    have hshift : ∀ e' < t0, ∀ q < 64 * c, (s.tmpmat.xmulPoly gmp e 0 (t0 - e)).coeff e' 0 q
        = if e' = e then if t0 - e ≤ q then s.tmpmat.coeff e' 0 (q - (t0 - e)) else 0
          else s.tmpmat.coeff e' 0 q := by
      intro e' he' q hq
      rw [s.tmpmat.coeff_xmulPoly gmp (by omega) (by omega) (h.tmpRows ▸ he)
        (h.tmpCols ▸ Nat.one_pos) (h.tmpRows ▸ he') (h.tmpCols ▸ Nat.one_pos) (h.tmpStride ▸ hq)]
      exact if_congr (and_iff_left rfl) rfl rfl
    have hshaped : Shaped t0 n N c d
        { s with tmpmat := s.tmpmat.xmulPoly gmp e 0 (t0 - e) } :=
      ⟨h.tmpRows, h.tmpCols, h.tmpStride, h.rows, h.cols, h.stride, h.ncoef, h.inBounds⟩
    obtain ⟨hresult, hcoeff⟩ := ih (List.Nodup.of_cons hexps)
      (fun x hx => hlt x (mem_cons_of_mem e hx))
      (hshaped.addF i j (stored (s.tmpmat.xmulPoly gmp e 0 (t0 - e)) e 0) h.tmpStride)
    refine ⟨hresult, fun i' hi' j' hj' q hq => ?_⟩
    have hadd := s.F.coeff_addpoly (stored (s.tmpmat.xmulPoly gmp e 0 (t0 - e)) e 0).limbs
      (h.rows ▸ hi) (h.cols ▸ hj) (h.rows ▸ hi') (h.cols ▸ hj') (h.stride ▸ hq)
    refine (hcoeff i' hi' j' hj' q hq).trans ?_
    by_cases hat : i' = i ∧ j' = j
    · rw [if_pos hat, if_pos hat, map_cons, sum_cons, ← add_assoc]
      have hothers : ∀ e' ∈ exps, (if t0 - e' ≤ q then
            (s.tmpmat.xmulPoly gmp e 0 (t0 - e)).coeff e' 0 (q - (t0 - e')) else 0)
          = if t0 - e' ≤ q then s.tmpmat.coeff e' 0 (q - (t0 - e')) else 0 := by
        intro e' he'
        have hne : e' ≠ e := fun heq => (List.nodup_cons.mp hexps).1 (heq ▸ he')
        rw [hshift e' (hlt e' (mem_cons_of_mem e he')) _ (by omega), if_neg hne]
      refine congrArg₂ (· + ·) (hadd.trans ?_) (congrArg List.sum (map_congr_left hothers))
      rw [if_pos hat, bitAt_stored, hshift e he q hq, if_pos rfl]
    · rw [if_neg hat, if_neg hat]
      exact hadd.trans (if_neg hat)

theorem sum_by_exponent {M : Type*} [AddCommMonoid M] (f : ℕ × ℕ → M) (l : List (ℕ × ℕ)) :
    ((rowExps l).map fun e => (l.map fun x => if x.2 = e then f x else 0).sum).sum
      = (l.map f).sum := by
  have hnodup : (rowExps l).Nodup :=
    (List.perm_insertionSort _ _).nodup_iff.mpr (List.nodup_dedup _)
  have hmem : ∀ x ∈ l, x.2 ∈ (rowExps l).toFinset := by
    intro x hx
    rw [List.mem_toFinset, rowExps, List.mem_insertionSort, List.mem_dedup]
    exact List.mem_map_of_mem hx
  rw [← List.sum_toFinset _ hnodup]
  clear hnodup
  generalize (rowExps l).toFinset = exps at hmem
  induction l with
  | nil => simp
  | cons x l ih =>
    simp only [map_cons, sum_cons]
    rw [Finset.sum_add_distrib, ih fun y hy => hmem y (mem_cons_of_mem x hy),
      Finset.sum_ite_eq, if_pos (hmem x mem_cons_self)]

/-- One entry is multiplied and added to its coefficient. -/
theorem fillEntry_spec (gmp : Shifts) (ht0 : t0 ≤ 63) (hpi : pi.stride = c)
    {l : List (ℕ × ℕ)} (hl : ∀ e ∈ l, e.2 < t0) {i j : ℕ} (hi : i < n) (hj : j < N)
    (h : Shaped t0 n N c d s) :
    Shaped t0 n N c d (fillEntry gmp t0 pi i l j s) ∧ ∀ i' < n, ∀ j' < N, ∀ q < 64 * c,
      (fillEntry gmp t0 pi i l j s).F.coeff i' j' q
        = if i' = i ∧ j' = j then s.F.coeff i' j' q + pi.coeff i' j' q
            + (l.map fun e =>
              if t0 - e.2 ≤ q then pi.coeff e.1 j' (q - (t0 - e.2)) else 0).sum
          else s.F.coeff i' j' q := by
  have hcleared : Shaped t0 n N c d { s with tmpmat := s.tmpmat.zcol 0 } :=
    ⟨h.tmpRows, h.tmpCols, h.tmpStride, h.rows, h.cols, h.stride, h.ncoef, h.inBounds⟩
  obtain ⟨hsums, hF, htmp⟩ := foldl_addTmp_spec hpi hl j hcleared
  have hdirect := hsums.addF i j (stored pi i j) hpi
  have hexps : (rowExps l).Nodup :=
    (List.perm_insertionSort _ _).nodup_iff.mpr (List.nodup_dedup _)
  have hlt : ∀ e ∈ rowExps l, e < t0 := by
    intro e he
    rw [rowExps, List.mem_insertionSort, List.mem_dedup] at he
    obtain ⟨x, hx, rfl⟩ := mem_map.mp he
    exact hl x hx
  obtain ⟨hresult, hcoeff⟩ := foldl_addF_spec gmp ht0 hexps hlt hi hj hdirect
  refine ⟨hresult, fun i' hi' j' hj' q hq => ?_⟩
  refine (hcoeff i' hi' j' hj' q hq).trans ?_
  have hadd := s.F.coeff_addpoly (stored pi i j).limbs (h.rows ▸ hi) (h.cols ▸ hj)
    (h.rows ▸ hi') (h.cols ▸ hj') (h.stride ▸ hq)
  simp only [FinalState.addF, hF]
  by_cases hat : i' = i ∧ j' = j
  · obtain ⟨rfl, rfl⟩ := hat
    have hterm : ∀ e ∈ rowExps l,
        (if t0 - e ≤ q then (l.foldl (fun (s : FinalState) e => s.addTmp e.2 (stored pi e.1 j'))
          { s with tmpmat := s.tmpmat.zcol 0 }).tmpmat.coeff e 0 (q - (t0 - e)) else 0)
        = (l.map fun x => if x.2 = e then
            if t0 - x.2 ≤ q then pi.coeff x.1 j' (q - (t0 - x.2)) else 0 else 0).sum := by
      intro e he
      split_ifs with hle
      · have hzero : (s.tmpmat.zcol 0).coeff e 0 (q - (t0 - e)) = 0 :=
          s.tmpmat.coeff_zcol (h.tmpRows ▸ hlt e he) (by rw [h.tmpStride]; omega)
        refine ((htmp e (hlt e he) _ (by omega)).trans (congrArg (· + _) hzero)).trans ?_
        rw [zero_add]
        refine congrArg List.sum (map_congr_left fun x _ => ?_)
        by_cases hx : x.2 = e
        · rw [if_pos hx, if_pos hx, hx, if_pos hle]
        · rw [if_neg hx, if_neg hx]
      · rw [eq_comm]
        refine List.sum_eq_zero fun y hy => ?_
        obtain ⟨x, -, rfl⟩ := mem_map.mp hy
        by_cases hx : x.2 = e
        · rw [if_pos hx, hx, if_neg hle]
        · rw [if_neg hx]
    rw [if_pos ⟨rfl, rfl⟩, if_pos ⟨rfl, rfl⟩, hadd, if_pos ⟨rfl, rfl⟩, bitAt_stored,
      map_congr_left hterm, sum_by_exponent]
  · rw [if_neg hat, if_neg hat, hadd, if_neg hat]

theorem reads_fillEntry (gmp : Shifts) (t0 : ℕ) (pi : Polmat) (i : ℕ) (l : List (ℕ × ℕ)) (j : ℕ)
    (s : FinalState) :
    (fillEntry gmp t0 pi i l j s).F.stride = s.F.stride ∧
      ∀ r, r ∈ s.reads ∨ r ∈ addpolyReads s.F (stored pi i j) →
        r ∈ (fillEntry gmp t0 pi i l j s).reads := by
  have htmp : ∀ (l : List (ℕ × ℕ)) (s : FinalState),
      (l.foldl (fun (s : FinalState) e => s.addTmp e.2 (stored pi e.1 j)) s).F = s.F ∧
      ∀ r ∈ s.reads,
        r ∈ (l.foldl (fun (s : FinalState) e => s.addTmp e.2 (stored pi e.1 j)) s).reads := by
    intro l
    induction l with
    | nil => exact fun s => ⟨rfl, fun r hr => hr⟩
    | cons e l ih =>
      intro s
      obtain ⟨hF, hreads⟩ := ih (s.addTmp e.2 (stored pi e.1 j))
      exact ⟨hF, fun r hr => hreads r (List.mem_append_left _ hr)⟩
  have hshifts : ∀ (exps : List ℕ) (s : FinalState),
      (exps.foldl (fun (s : FinalState) e =>
        let s := { s with tmpmat := s.tmpmat.xmulPoly gmp e 0 (t0 - e) }
        s.addF i j (stored s.tmpmat e 0)) s).F.stride = s.F.stride ∧
      ∀ r ∈ s.reads, r ∈ (exps.foldl (fun (s : FinalState) e =>
        let s := { s with tmpmat := s.tmpmat.xmulPoly gmp e 0 (t0 - e) }
        s.addF i j (stored s.tmpmat e 0)) s).reads := by
    intro exps
    induction exps with
    | nil => exact fun s => ⟨rfl, fun r hr => hr⟩
    | cons e exps ih =>
      intro s
      obtain ⟨hF, hreads⟩ := ih (FinalState.addF
        { s with tmpmat := s.tmpmat.xmulPoly gmp e 0 (t0 - e) } i j
        (stored (s.tmpmat.xmulPoly gmp e 0 (t0 - e)) e 0))
      exact ⟨hF, fun r hr => hreads r (List.mem_append_left _ hr)⟩
  obtain ⟨hF, hkept⟩ := htmp l { s with tmpmat := s.tmpmat.zcol 0 }
  obtain ⟨hstride, hall⟩ := hshifts (rowExps l) (FinalState.addF (l.foldl
    (fun (s : FinalState) e => s.addTmp e.2 (stored pi e.1 j))
    { s with tmpmat := s.tmpmat.zcol 0 }) i j (stored pi i j))
  refine ⟨hstride.trans (congrArg Polmat.stride hF :), fun r hr => hall r ?_⟩
  refine mem_append.mpr (hr.imp (hkept r) fun hr => ?_)
  rw [hF]
  exact hr

end Entry

/-! ## The generator -/

section Generator

open Finset Polynomial

variable {m n t0 : ℕ} {f0 : ℕ → ℕ × ℕ} {pi : Polmat}

/-- An entry as a polynomial. -/
noncomputable def entryPoly (M : Polmat) (i j : ℕ) : (ZMod 2)[X] :=
  ∑ k ∈ range M.ncoef, monomial k (M.coeff i j k)

/-- An entry of `F0`. -/
noncomputable def f0Entry (n t0 : ℕ) (f0 : ℕ → ℕ × ℕ) (i c : ℕ) : (ZMod 2)[X] :=
  if c < n then if c = i then 1 else 0
  else if (f0 (c - n)).1 = i then X ^ (t0 - (f0 (c - n)).2) else 0

/-- The product of `F0` and `pi`. -/
structure IsGenerator (m n t0 : ℕ) (f0 : ℕ → ℕ × ℕ) (pi F : Polmat) : Prop where
  nrows : F.nrows = n
  ncols : F.ncols = m + n
  ncoef : F.ncoef = t0 + pi.ncoef
  product : ∀ i < n, ∀ j < m + n,
    entryPoly F i j = ∑ c ∈ range (m + n), f0Entry n t0 f0 i c * entryPoly pi c j

theorem coeff_entryPoly (M : Polmat) (i j k : ℕ) :
    (entryPoly M i j).coeff k = if k < M.ncoef then M.coeff i j k else 0 := by
  rw [entryPoly, finsetSum_coeff]
  simp [coeff_monomial, Finset.sum_ite_eq', mem_range]

theorem sum_rowTerms (m n : ℕ) (f0 : ℕ → ℕ × ℕ) (i : ℕ) (g : ℕ × ℕ → ZMod 2) :
    ((rowTerms m n f0 i).map g).sum
      = ∑ l ∈ range m, if (f0 l).1 = i then g (n + l, (f0 l).2) else 0 := by
  induction m with
  | zero => rfl
  | succ m ih =>
    rw [sum_range_succ, ← ih, rowTerms, rowTerms, List.range_succ, List.filter_append,
      List.map_append, List.map_append, List.sum_append]
    by_cases hm : (f0 m).1 = i
    · simp [hm]
    · simp [hm]

theorem coeff_product (m n t0 : ℕ) (f0 : ℕ → ℕ × ℕ) {i : ℕ} (hi : i < n) (p : ℕ → (ZMod 2)[X])
    (k : ℕ) :
    (∑ c ∈ range (m + n), f0Entry n t0 f0 i c * p c).coeff k
      = (p i).coeff k + ((rowTerms m n f0 i).map fun e =>
          if t0 - e.2 ≤ k then (p e.1).coeff (k - (t0 - e.2)) else 0).sum := by
  rw [sum_rowTerms, add_comm m n, Finset.sum_range_add, coeff_add, finsetSum_coeff]
  congr 1
  · rw [Finset.sum_eq_single i]
    · rw [f0Entry, if_pos hi, if_pos rfl, one_mul]
    · intro c hc hne
      rw [f0Entry, if_pos (mem_range.mp hc), if_neg hne, zero_mul, coeff_zero]
    · exact fun h => absurd (mem_range.mpr hi) h
  · rw [finsetSum_coeff]
    refine Finset.sum_congr rfl fun l _ => ?_
    rw [f0Entry, if_neg (by omega), Nat.add_sub_cancel_left]
    by_cases hl : (f0 l).1 = i
    · rw [if_pos hl, if_pos hl, coeff_X_pow_mul']
    · rw [if_neg hl, if_neg hl, zero_mul, coeff_zero]

/-- The matrix after all the entries, where both matrices have as many limbs for each
polynomial. -/
theorem fillEntries_spec (gmp : Shifts) (ht0 : t0 ≤ 63)
    (hf0 : ∀ j < m, (f0 j).1 < n ∧ (f0 j).2 < t0) {c d : ℕ} (hpi : pi.stride = c)
    {s : FinalState} (h : Shaped t0 n (m + n) c d s) :
    let s' := forRange n (fun i s =>
      forRange (m + n) (fillEntry gmp t0 pi i (rowTerms m n f0 i)) s) s
    Shaped t0 n (m + n) c d s' ∧ ∀ i < n, ∀ j < m + n, ∀ q < 64 * c,
      s'.F.coeff i j q = s.F.coeff i j q + pi.coeff i j q
        + ((rowTerms m n f0 i).map fun e =>
          if t0 - e.2 ≤ q then pi.coeff e.1 j (q - (t0 - e.2)) else 0).sum := by
  have hterms : ∀ i, ∀ e ∈ rowTerms m n f0 i, e.2 < t0 := by
    intro i e he
    obtain ⟨j, hj, rfl⟩ := mem_map.mp he
    exact (hf0 j (List.mem_range.mp (List.mem_filter.mp hj).1)).2
  set value : ℕ → ℕ → ℕ → ZMod 2 := fun i j q => s.F.coeff i j q + pi.coeff i j q
    + ((rowTerms m n f0 i).map fun e =>
      if t0 - e.2 ≤ q then pi.coeff e.1 j (q - (t0 - e.2)) else 0).sum with hvalue
  have hrows := forRange_induct
    (motive := fun i (s' : FinalState) => Shaped t0 n (m + n) c d s' ∧
      ∀ i' < n, ∀ j' < m + n, ∀ q < 64 * c,
        s'.F.coeff i' j' q = if i' < i then value i' j' q else s.F.coeff i' j' q)
    (fun i s => forRange (m + n) (fillEntry gmp t0 pi i (rowTerms m n f0 i)) s) s n
    ⟨h, fun i' _ j' _ q _ => (if_neg (Nat.not_lt_zero i')).symm⟩ ?_
  · exact ⟨hrows.1, fun i hi j hj q hq => (hrows.2 i hi j hj q hq).trans (if_pos hi)⟩
  · rintro i hi s₁ ⟨h₁, hbefore⟩
    have hrow := forRange_induct
      (motive := fun j (s' : FinalState) => Shaped t0 n (m + n) c d s' ∧
        ∀ i' < n, ∀ j' < m + n, ∀ q < 64 * c,
          s'.F.coeff i' j' q = if i' = i ∧ j' < j then value i' j' q else s₁.F.coeff i' j' q)
      (fillEntry gmp t0 pi i (rowTerms m n f0 i)) s₁ (m + n)
      ⟨h₁, fun i' _ j' _ q _ => (if_neg (by omega)).symm⟩ ?_
    · refine ⟨hrow.1, fun i' hi' j' hj' q hq => ?_⟩
      rw [hrow.2 i' hi' j' hj' q hq, hbefore i' hi' j' hj' q hq]
      by_cases hat : i' = i
      · rw [if_pos ⟨hat, hj'⟩, if_pos (by omega)]
      · rw [if_neg fun hand => hat hand.1]
        exact if_congr (by omega) rfl rfl
    · rintro j hj s₂ ⟨h₂, hnow⟩
      obtain ⟨h₃, hfill⟩ := fillEntry_spec gmp ht0 hpi (hterms i) hi hj h₂
      refine ⟨h₃, fun i' hi' j' hj' q hq => ?_⟩
      rw [hfill i' hi' j' hj' q hq, hnow i' hi' j' hj' q hq]
      by_cases hat : i' = i ∧ j' = j
      · obtain ⟨rfl, rfl⟩ := hat
        rw [if_pos ⟨rfl, rfl⟩, if_neg (by omega), if_pos ⟨rfl, j'.lt_succ_self⟩,
          hbefore i' hi' j' hj' q hq, if_neg (lt_irrefl i'), hvalue]
      · rw [if_neg hat]
        exact if_congr (by omega) rfl rfl

theorem setDegs_shape (pi : Polmat) (t0 count : ℕ) (F : Polmat) :
    let F' := forRange count (fun j (F : Polmat) =>
      { F with
        degs := Function.update F.degs (F.order j)
          (if pi.deg j = -1 then -1 else t0 + pi.deg j) }) F
    F' = { F with degs := F'.degs } := by
  refine forRange_induct (motive := fun _ (F' : Polmat) => F' = { F with degs := F'.degs })
    _ F count rfl fun j _ F' hF' => ?_
  rw [hF']

variable (gmp : Shifts)

/-- When the coefficients fit in as many limbs, the generator is right and the reads are in
bounds. -/
theorem computeFinalFFromPi_spec (ht0 : t0 ≤ 63) (hf0 : ∀ j < m, (f0 j).1 < n ∧ (f0 j).2 < t0)
    (hpi : ∀ i < m + n, ∀ j < m + n, ∀ k, pi.ncoef ≤ k → k < 64 * pi.stride →
      pi.coeff i j k = 0) (hfit : (t0 + pi.ncoef + 63) / 64 = (pi.ncoef + 63) / 64) :
    IsGenerator m n t0 f0 pi (computeFinalFFromPi gmp m n t0 f0 pi).1 ∧
      ∀ r ∈ (computeFinalFFromPi gmp m n t0 f0 pi).2, r.1 < r.2 := by
  obtain ⟨hshaped, hcoeff⟩ := fillEntries_spec gmp ht0 hf0
    (show pi.stride = pi.stride from rfl)
    (s := ⟨zeros t0 1 pi.ncoef, zeros n (m + n) (t0 + pi.ncoef), []⟩)
    ⟨rfl, rfl, rfl, rfl, rfl, hfit, rfl, fun r hr => absurd hr List.not_mem_nil⟩
  have hshape := setDegs_shape pi t0 (m + n) (forRange n (fun i s =>
    forRange (m + n) (fillEntry gmp t0 pi i (rowTerms m n f0 i)) s)
    ⟨zeros t0 1 pi.ncoef, zeros n (m + n) (t0 + pi.ncoef), []⟩).F
  set F := (computeFinalFFromPi gmp m n t0 f0 pi).1 with hF
  have hncoef : F.ncoef = t0 + pi.ncoef := (congrArg Polmat.ncoef hshape).trans hshaped.ncoef
  have hentry : ∀ i j q, F.coeff i j q = _ := fun i j q =>
    congrArg (fun F : Polmat => F.coeff i j q) hshape
  have hlong : t0 + pi.ncoef ≤ 64 * pi.stride := by
    unfold Polmat.stride
    omega
  refine ⟨⟨(congrArg Polmat.nrows hshape).trans hshaped.rows,
    (congrArg Polmat.ncols hshape).trans hshaped.cols, hncoef, fun i hi j hj => ?_⟩,
    hshaped.inBounds⟩
  ext k
  rw [coeff_entryPoly, coeff_product m n t0 f0 hi, hncoef]
  have hcoeffPi : ∀ c < m + n, ∀ q < 64 * pi.stride,
      (entryPoly pi c j).coeff q = pi.coeff c j q := by
    intro c hc q hq
    rw [coeff_entryPoly]
    split_ifs with hlt
    · rfl
    · exact (hpi c hc j hj q (by omega) hq).symm
  have hrow : ∀ e ∈ rowTerms m n f0 i, e.1 < m + n := by
    intro e he
    obtain ⟨l, hl, rfl⟩ := mem_map.mp he
    have := List.mem_range.mp (List.mem_filter.mp hl).1
    omega
  by_cases hk : k < t0 + pi.ncoef
  · rw [if_pos hk, hentry]
    refine (hcoeff i hi j hj k (by omega)).trans ?_
    have hzero : (zeros n (m + n) (t0 + pi.ncoef)).coeff i j k = 0 := bit_zero _
    rw [hzero, zero_add, hcoeffPi i (by omega) k (by omega)]
    refine congrArg (_ + List.sum ·) (map_congr_left fun e he => ?_)
    split_ifs with hle
    · rw [hcoeffPi e.1 (hrow e he) _ (by omega)]
    · rfl
  · rw [if_neg hk, coeff_entryPoly, if_neg (by omega), zero_add, eq_comm]
    refine List.sum_eq_zero fun y hy => ?_
    obtain ⟨e, he, rfl⟩ := mem_map.mp hy
    split_ifs with hle
    · rw [coeff_entryPoly, if_neg (by omega)]
    · rfl

theorem mem_reads (hn : 0 < n) (hfit : (pi.ncoef + 63) / 64 < (t0 + pi.ncoef + 63) / 64) :
    (pi.stride, pi.stride) ∈ (computeFinalFFromPi gmp m n t0 f0 pi).2 := by
  have hread : ∀ F : Polmat, F.stride = (t0 + pi.ncoef + 63) / 64 → ∀ i j,
      (pi.stride, pi.stride) ∈ addpolyReads F (stored pi i j) := by
    intro F hF i j
    refine mem_map.mpr ⟨pi.stride, List.mem_range.mpr ?_, rfl⟩
    rw [hF]
    exact hfit
  have hrow : ∀ i (s : FinalState), s.F.stride = (t0 + pi.ncoef + 63) / 64 →
      (forRange (m + n) (fillEntry gmp t0 pi i (rowTerms m n f0 i)) s).F.stride
        = (t0 + pi.ncoef + 63) / 64 ∧
      (0 < m + n → (pi.stride, pi.stride)
        ∈ (forRange (m + n) (fillEntry gmp t0 pi i (rowTerms m n f0 i)) s).reads) := by
    intro i s hs
    refine forRange_induct (motive := fun j (s' : FinalState) =>
      s'.F.stride = (t0 + pi.ncoef + 63) / 64 ∧ (0 < j → (pi.stride, pi.stride) ∈ s'.reads))
      _ s (m + n) ⟨hs, fun h => absurd h (lt_irrefl 0)⟩ ?_
    rintro j _ s' ⟨hs', -⟩
    obtain ⟨hstride, hmem⟩ := reads_fillEntry gmp t0 pi i (rowTerms m n f0 i) j s'
    exact ⟨hstride.trans hs', fun _ => hmem _ (Or.inr (hread s'.F hs' i j))⟩
  have hall := forRange_induct
    (motive := fun i (s' : FinalState) => s'.F.stride = (t0 + pi.ncoef + 63) / 64 ∧
      (0 < i → (pi.stride, pi.stride) ∈ s'.reads))
    (fun i s => forRange (m + n) (fillEntry gmp t0 pi i (rowTerms m n f0 i)) s)
    ⟨zeros t0 1 pi.ncoef, zeros n (m + n) (t0 + pi.ncoef), []⟩ n
    ⟨rfl, fun h => absurd h (lt_irrefl 0)⟩
    (fun i _ s hs => ⟨(hrow i s hs.1).1, fun _ => (hrow i s hs.1).2 (by omega)⟩)
  exact hall.2 hn

/-- The generator is the product, and no word beyond a polynomial is read, exactly when the
coefficients of the generator fit in as many limbs as those of `pi`. -/
theorem computeFinalFFromPi_iff (hn : 0 < n) (ht0 : t0 ≤ 63)
    (hf0 : ∀ j < m, (f0 j).1 < n ∧ (f0 j).2 < t0)
    (hpi : ∀ i < m + n, ∀ j < m + n, ∀ k, pi.ncoef ≤ k → k < 64 * pi.stride →
      pi.coeff i j k = 0) :
    (IsGenerator m n t0 f0 pi (computeFinalFFromPi gmp m n t0 f0 pi).1 ∧
      ∀ r ∈ (computeFinalFFromPi gmp m n t0 f0 pi).2, r.1 < r.2) ↔
    (t0 + pi.ncoef + 63) / 64 = (pi.ncoef + 63) / 64 := by
  constructor
  · rintro ⟨-, hreads⟩
    by_contra hne
    exact absurd (hreads _ (mem_reads gmp hn (by omega))) (lt_irrefl _)
  · exact computeFinalFFromPi_spec gmp ht0 hf0 hpi

/-- A generator from a matrix of constants. -/
theorem computeFinalFFromPi_iff_one :
    IsGenerator 1 1 1 (fun _ => (0, 0)) { zeros 2 2 1 with x := fun _ => 1#64 }
        (computeFinalFFromPi standard 1 1 1 (fun _ => (0, 0))
          { zeros 2 2 1 with x := fun _ => 1#64 }).1 ∧
      ∀ r ∈ (computeFinalFFromPi standard 1 1 1 (fun _ => (0, 0))
        { zeros 2 2 1 with x := fun _ => 1#64 }).2, r.1 < r.2 := by
  refine (computeFinalFFromPi_iff standard (by decide) (by decide)
    (fun j _ => ⟨show 0 < 1 by decide, show 0 < 1 by decide⟩) fun i _ j _ k hle hlt => ?_).mpr rfl
  have hk : k % 64 ≠ 0 := by
    have hcoef : 1 ≤ k := hle
    have hword : k < 64 * 1 := hlt
    omega
  show bit 1#64 (k % 64) = 0
  rw [bit, BitVec.getLsbD_one]
  simp [hk]

/-- With 64 coefficients in `pi` the generator needs a second limb. -/
theorem computeFinalFFromPi_overrun :
    ¬(IsGenerator 1 1 1 (fun _ => (0, 0)) (zeros 2 2 64)
        (computeFinalFFromPi standard 1 1 1 (fun _ => (0, 0)) (zeros 2 2 64)).1 ∧
      ∀ r ∈ (computeFinalFFromPi standard 1 1 1 (fun _ => (0, 0))
        (zeros 2 2 64)).2, r.1 < r.2) := by
  rintro ⟨-, hreads⟩
  have hread : ((zeros 2 2 64).stride, (zeros 2 2 64).stride)
      ∈ (computeFinalFFromPi standard 1 1 1 (fun _ => (0, 0)) (zeros 2 2 64)).2 :=
    mem_reads standard (by decide) (by decide)
  exact absurd (hreads _ hread) (lt_irrefl _)

end Generator

end CadoNfs.Lingen
