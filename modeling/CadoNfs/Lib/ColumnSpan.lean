import CadoNfs.Lib.ReducedColumns

/-!
# Vectors of a column span that a matrix annihilates

The vectors of the column span of a matrix `K` that give zero as row vectors times
another matrix `C`.  They are found by choosing independent columns and taking the
left kernel of the product of their transpose with `C`.

Main results:

- Theorem `isAnnihilatorBasis_mul`: a basis of the left kernel gives a basis of the
  vectors.
- Theorem `span_firstColumns`: a change of basis found on some rows chooses
  columns with the same span when these rows have the same rank.
-/

namespace ColumnSpan

open Matrix ReducedColumns
open LinearMap (ker range)

variable {F n m l d q : Type*} [Field F] [Fintype m]

/-- The column span of a matrix. -/
def columnSpan (K : Matrix n m F) : Submodule F (n → F) :=
  Submodule.span F (Set.range K.col)

/-- The columns of `D` are a basis of the vectors in the column span of `K` that
`C` annihilates. -/
structure IsAnnihilatorBasis [Fintype n] (K : Matrix n m F) (C : Matrix n q F) (D : Matrix n d F) :
    Prop where
  indep : LinearIndependent F D.col
  span : columnSpan D = columnSpan K ⊓ ker C.vecMulLinear

/-! ## Products -/

variable {K : Matrix n m F} {C : Matrix n q F} {V : Matrix m d F}

theorem columnSpan_eq_range (K : Matrix n m F) :
    columnSpan K = range K.mulVecLin :=
  (range_mulVecLin K).symm

theorem columnSpan_mul_le [Fintype d] (K : Matrix n m F) (X : Matrix m d F) :
    columnSpan (K * X) ≤ columnSpan K := by
  rw [columnSpan_eq_range, columnSpan_eq_range, mulVecLin_mul]
  exact LinearMap.range_comp_le_range _ _

theorem transpose_mul_eq_zero [Fintype n]
    (hV : ∀ j, V.col j ∈ ker (Kᵀ * C).vecMulLinear) : (K * V)ᵀ * C = 0 := by
  ext j x
  have hj := congrFun (LinearMap.mem_ker.mp (hV j)) x
  rw [transpose_mul, Matrix.mul_assoc]
  exact hj

theorem columnSpan_mul [Fintype d] (K : Matrix n m F) (V : Matrix m d F) :
    columnSpan (K * V) = (columnSpan V).map K.mulVecLin := by
  rw [columnSpan_eq_range, columnSpan_eq_range, mulVecLin_mul, LinearMap.range_comp]

/-- A basis of the left kernel of `Kᵀ * C` gives a basis of the vectors that
`C` annihilates when the columns of `K` are independent. -/
theorem isAnnihilatorBasis_mul [Fintype n] [Fintype d] (hK : ∀ a, K *ᵥ a = 0 → a = 0)
    (hindep : LinearIndependent F V.col)
    (hspan : columnSpan V = ker (Kᵀ * C).vecMulLinear) :
    IsAnnihilatorBasis K C (K * V) where
  indep := hindep.map' K.mulVecLin (LinearMap.ker_eq_bot'.mpr hK)
  span := by
    rw [columnSpan_mul, hspan, columnSpan_eq_range]
    ext v
    constructor
    · rintro ⟨a, ha, rfl⟩
      refine ⟨⟨a, rfl⟩, ?_⟩
      exact LinearMap.mem_ker.mpr ((vecMul_mulVec K C a).trans (LinearMap.mem_ker.mp ha))
    · rintro ⟨⟨a, rfl⟩, ha⟩
      refine ⟨a, ?_, rfl⟩
      exact LinearMap.mem_ker.mpr
        ((vecMul_mulVec K C a).symm.trans (LinearMap.mem_ker.mp ha))

/-! ## Chosen columns -/

section FirstColumns

variable {N r : ℕ} {K : Matrix n (Fin N) F} {f : l → n} {T : Matrix (Fin N) (Fin N) F}

/-- The first columns of a matrix. -/
def firstColumns (T : Matrix m (Fin N) F) (hr : r ≤ N) : Matrix m (Fin r) F :=
  T.submatrix id (Fin.castLE hr)

variable (h : Reduces (K.submatrix f id) T r) (hr : r ≤ N)

include h

theorem firstColumns_injective (a : Fin r → F)
    (ha : (K * firstColumns T hr) *ᵥ a = 0) : a = 0 := by
  let ext (c : Fin N) : F := if hc : (c : ℕ) < r then a ⟨c, hc⟩ else 0
  have hoff : ∀ c : Fin N, r ≤ (c : ℕ) → ext c = 0 := fun c hc => dif_neg (by omega)
  have hext : T *ᵥ ext = firstColumns T hr *ᵥ a := by
    funext y
    change ∑ c, T y c * ext c = ∑ c, T y (Fin.castLE hr c) * a c
    refine (Fintype.sum_of_injective (Fin.castLE hr) (Fin.castLE_injective hr) _ _ ?_ ?_).symm
    · intro c hc
      rw [hoff c (not_lt.mp fun hlt => hc ⟨⟨c, hlt⟩, rfl⟩), mul_zero]
    · intro c
      have hvalue : ext (Fin.castLE hr c) = a c := dif_pos c.isLt
      rw [hvalue]
  have hzero : (K.submatrix f id * T) *ᵥ ext = 0 := by
    rw [← mulVec_mulVec, hext]
    funext x
    rw [← mulVec_mulVec] at ha
    exact congrFun ha (f x)
  have hall := h.reduced.indep ext hoff hzero
  funext c
  have hvalue := congrFun hall (Fin.castLE hr c)
  have hself : ext (Fin.castLE hr c) = a c := dif_pos c.isLt
  exact hself.symm.trans hvalue

/-- The first columns after the change of basis span all the columns when the rows looked at
have the same rank. -/
theorem span_firstColumns (hrank : (K.submatrix f id).rank = K.rank) :
    columnSpan (K * firstColumns T hr) = columnSpan K := by
  have hle := columnSpan_mul_le K (firstColumns T hr)
  rw [columnSpan_eq_range, columnSpan_eq_range] at hle ⊢
  refine Submodule.eq_of_le_of_finrank_eq hle ?_
  have hker : ker (K * firstColumns T hr).mulVecLin = ⊥ :=
    LinearMap.ker_eq_bot'.mpr (firstColumns_injective h hr)
  have hinj := LinearMap.finrank_range_of_inj (LinearMap.ker_eq_bot.mp hker)
  rw [Module.finrank_fintype_fun_eq_card, Fintype.card_fin] at hinj
  exact hinj.trans (h.rank.symm.trans hrank)

end FirstColumns

end ColumnSpan
