import CadoNfs.Lib.ReducedColumns

/-!
# Kernel vectors from a chain of iterates

A sequence of matrices of which each is `M` times the one before and `M` times
the last one is zero.  Reducing the columns of one after the other with a common change of
basis, the columns that vanish from one matrix to the next are kernel vectors of `M`.
The collection studied here takes, when the rank drops from `r` to `r'`, the
columns `r'`, ..., `r - 1` of the matrix before, wherever the change of basis put
the columns that vanish.

Main results:

- Theorem `Collected.step`: what one more matrix does to the collection.
- Theorem `Collected.isKernelBasis_iff`: when the vectors collected are as many
  independent kernel vectors as the rank of the first matrix.
-/

namespace KernelChain

open Matrix ReducedColumns
open LinearMap (range)

variable {F m : Type*} [Field F] [Fintype m] {N : ℕ}

/-- The matrices `K 0`, ..., `K n` are a chain of iterates that ends. -/
structure Chain (M : Matrix m m F) (K : ℕ → Matrix m (Fin N) F) (n : ℕ) : Prop where
  succ : ∀ i < n, K (i + 1) = M * K i
  last : M * K n = 0

/-- As many independent kernel vectors as the rank of the first matrix, in the first
columns, and zeros in the others; all of them are combinations of columns of the chain. -/
structure IsKernelBasis (M : Matrix m m F) (K : ℕ → Matrix m (Fin N) F) (n : ℕ)
    (final : Matrix m (Fin N) F) : Prop where
  nonzero : ∀ c : Fin N, (∃ x, final x c ≠ 0) ↔ (c : ℕ) < (K 0).rank
  independent :
    LinearIndependent F (fun (c : {c : Fin N // (c : ℕ) < (K 0).rank}) x => final x c)
  source : ∀ c : Fin N, (fun x => final x c) ∈
    Submodule.span F {v | ∃ i ≤ n, ∃ c : Fin N, v = fun x => K i x c}
  killed : M * final = 0

/-- The rank drops after the matrix `i`. -/
def Drop (K : ℕ → Matrix m (Fin N) F) (i : ℕ) : Prop :=
  (K (i + 1)).rank < (K i).rank

/-- The columns `lo`, ..., `hi - 1` of `A`, and the others of
`B`. -/
def copyColumns (B A : Matrix m (Fin N) F) (lo hi : ℕ) : Matrix m (Fin N) F :=
  of fun x c => if lo ≤ (c : ℕ) ∧ (c : ℕ) < hi then A x c else B x c

/-- The collection after matrix `i`: what changes of basis made of it, the rank, and
what the vectors collected so far are. -/
structure Collected (M : Matrix m m F) (K : ℕ → Matrix m (Fin N) F) (i : ℕ)
    (S : Matrix (Fin N) (Fin N) F) (r : ℕ) (final : Matrix m (Fin N) F) : Prop where
  isUnit : IsUnit S.det
  reduced : Reduced (K i * S) r
  rank : (K i).rank = r
  le : r ≤ (K 0).rank
  killed : M * final = 0
  beyond : ∀ x (c : Fin N), (K 0).rank ≤ (c : ℕ) → final x c = 0
  source : ∀ c : Fin N, ∃ j ≤ i, ∃ a, (fun x => final x c) = K j *ᵥ a
  lost : ∀ j < i, Drop K j → (K j).rank < N →
    ∃ c : Fin N, r ≤ (c : ℕ) ∧ (c : ℕ) < (K 0).rank ∧ ∀ x, final x c = 0
  kept : (∀ j < i, Drop K j → (K j).rank = N) →
    (∀ j < i, ¬Drop K j) ∨
      ∃ j < i, r < N ∧ Drop K j ∧ (K j).rank = N ∧ (∀ j' < i, Drop K j' → j' = j) ∧
        ∃ U : Matrix (Fin N) (Fin N) F, IsUnit U.det ∧ Reduced (K (j + 1) * U) r ∧
          ∀ x (c : Fin N), r ≤ (c : ℕ) → final x c = (K j * U) x c

variable {M : Matrix m m F} {K : ℕ → Matrix m (Fin N) F} {n i r r' : ℕ}
  {S T : Matrix (Fin N) (Fin N) F} {final : Matrix m (Fin N) F}

theorem collected_zero (h : Reduces (K 0) T r) : Collected M K 0 T r 0 where
  isUnit := h.isUnit
  reduced := h.reduced
  rank := h.rank
  le := h.rank.ge
  killed := Matrix.mul_zero M
  beyond := fun _ _ _ => rfl
  source := fun _ => ⟨0, le_rfl, 0, (mulVec_zero _).symm⟩
  lost := nofun
  kept := fun _ => Or.inl nofun

theorem mul_copyColumns (B A : Matrix m (Fin N) F) (lo hi : ℕ) :
    M * copyColumns B A lo hi = copyColumns (M * B) (M * A) lo hi := by
  ext x c
  by_cases hc : lo ≤ (c : ℕ) ∧ (c : ℕ) < hi
  · simp [mul_apply, copyColumns, of_apply, if_pos hc]
  · simp [mul_apply, copyColumns, of_apply, if_neg hc]

section Step

variable (h : Collected M K i S r final) (hsucc : K (i + 1) = M * K i)
  (hT : Reduces (K (i + 1) * S) T r')
  (hlast : ∀ c : Fin N, (c : ℕ) + 1 = N → (∀ x, (K (i + 1) * S) x c = 0) →
    ∀ p : Fin N, (p : ℕ) = r' → ∀ y, T y p = if y = c then 1 else 0)

include h hsucc hT

theorem Collected.rank_le : (K (i + 1)).rank = r' ∧ r' ≤ r := by
  have hrank : (K (i + 1)).rank = r' := by
    rw [← hT.rank, rank_mul_eq_left_of_isUnit_det _ _ h.isUnit]
  refine ⟨hrank, ?_⟩
  rw [← hrank, hsucc, ← h.rank]
  exact rank_mul_le_right M (K i)

theorem Collected.killed_step : M * copyColumns final (K i * (S * T)) r' r = 0 := by
  rw [mul_copyColumns, h.killed, ← Matrix.mul_assoc, ← hsucc, ← Matrix.mul_assoc]
  ext x c
  rw [copyColumns, of_apply]
  split_ifs with hc
  · exact hT.reduced.zero x c hc.1
  · rfl

include hlast

omit hT in
theorem Collected.lost_step (hdrop : r' < r) (hr : r < N) :
    ∃ c : Fin N, (c : ℕ) = r' ∧ ∀ x, (K i * (S * T)) x c = 0 := by
  refine ⟨⟨r', hdrop.trans hr⟩, rfl, fun x => ?_⟩
  have hNpos : N - 1 < N := by omega
  have hzero : ∀ x, (K i * S) x ⟨N - 1, hNpos⟩ = 0 := fun x =>
    h.reduced.zero x _ (show r ≤ N - 1 by omega)
  have hnext : ∀ x, (K (i + 1) * S) x ⟨N - 1, hNpos⟩ = 0 := by
    intro x
    rw [hsucc, Matrix.mul_assoc, mul_apply]
    exact Finset.sum_eq_zero fun y _ => by rw [hzero y, mul_zero]
  have hcolumn := hlast ⟨N - 1, hNpos⟩ (Nat.sub_add_cancel (by omega)) hnext
    ⟨r', hdrop.trans hr⟩ rfl
  rw [← Matrix.mul_assoc]
  change ∑ y, (K i * S) x y * T y ⟨r', hdrop.trans hr⟩ = 0
  rw [Finset.sum_eq_single ⟨N - 1, hNpos⟩ (fun y _ hy => by rw [hcolumn, if_neg hy, mul_zero])
    (fun hnot => absurd (Finset.mem_univ _) hnot), hzero x, zero_mul]

/-- One more matrix. -/
theorem Collected.step :
    Collected M K (i + 1) (S * T) r'
      (if r' < r then copyColumns final (K i * (S * T)) r' r else final) := by
  obtain ⟨hrank, hle⟩ := h.rank_le hsucc hT
  have hdrop : Drop K i ↔ r' < r := by rw [Drop, hrank, h.rank]
  -- columns from the old rank on are left as they are
  have hkeep : ∀ x (c : Fin N), r ≤ (c : ℕ) →
      (if r' < r then copyColumns final (K i * (S * T)) r' r else final) x c = final x c := by
    intro x c hc
    split_ifs
    · rw [copyColumns, of_apply, if_neg (by omega)]
    · rfl
  refine ⟨?_, ?_, hrank, hle.trans h.le, ?_, ?_, ?_, ?_, ?_⟩
  · rw [det_mul]
    exact h.isUnit.mul hT.isUnit
  · rw [← Matrix.mul_assoc]
    exact hT.reduced
  · split_ifs
    · exact h.killed_step hsucc hT
    · exact h.killed
  · intro x c hc
    rw [hkeep x c (h.le.trans hc)]
    exact h.beyond x c hc
  · intro c
    by_cases hc : r' < r ∧ r' ≤ (c : ℕ) ∧ (c : ℕ) < r
    · refine ⟨i, i.le_succ, fun y => (S * T) y c, funext fun x => ?_⟩
      rw [if_pos hc.1, copyColumns, of_apply, if_pos hc.2]
      rfl
    · obtain ⟨j, hj, a, ha⟩ := h.source c
      refine ⟨j, hj.trans i.le_succ, a, (funext fun x => ?_).trans ha⟩
      split_ifs with hlt
      · rw [copyColumns, of_apply, if_neg fun hcol => hc ⟨hlt, hcol⟩]
      · rfl
  · intro j hj hj' hN
    rcases Nat.lt_succ_iff_lt_or_eq.mp hj with hj | rfl
    · obtain ⟨c, hrc, hc, hzero⟩ := h.lost j hj hj' hN
      exact ⟨c, hle.trans hrc, hc, fun x => (hkeep x c hrc).trans (hzero x)⟩
    · rw [hdrop] at hj'
      rw [h.rank] at hN
      obtain ⟨c, hc, hzero⟩ := h.lost_step hsucc hlast hj' hN
      refine ⟨c, hc.ge, by have := h.le; omega, fun x => ?_⟩
      rw [if_pos hj', copyColumns, of_apply, if_pos (by omega), hzero x]
  · intro hall
    by_cases hlt : r' < r
    · have hN : r = N := h.rank ▸ hall i i.lt_succ_self (hdrop.mpr hlt)
      rcases h.kept fun j hj => hall j (Nat.lt_succ_of_lt hj) with hnone | ⟨_, _, hr, _⟩
      · refine Or.inr ⟨i, i.lt_succ_self, by omega, hdrop.mpr hlt, h.rank.trans hN, ?_, S * T,
          ?_, ?_, ?_⟩
        · intro j' hj' hdrop'
          rcases Nat.lt_succ_iff_lt_or_eq.mp hj' with hj' | heq
          · exact absurd hdrop' (hnone j' hj')
          · exact heq
        · rw [det_mul]
          exact h.isUnit.mul hT.isUnit
        · rw [← Matrix.mul_assoc]
          exact hT.reduced
        · intro x c hc
          rw [if_pos hlt, copyColumns, of_apply, if_pos (by omega)]
      · omega
    · have hsame : r' = r := by omega
      rw [if_neg hlt, hsame]
      have hnot : ∀ P : ℕ → Prop, (∀ j < i, Drop K j → P j) → ∀ j < i + 1, Drop K j → P j := by
        intro P hP j hj hdropj
        rcases Nat.lt_succ_iff_lt_or_eq.mp hj with hj | rfl
        · exact hP j hj hdropj
        · exact absurd (hdrop.mp hdropj) hlt
      rcases h.kept fun j hj => hall j (Nat.lt_succ_of_lt hj) with
        hnone | ⟨j, hj, hr, hdropj, hjN, honly, hrest⟩
      · exact Or.inl (hnot (fun _ => False) hnone)
      · exact Or.inr ⟨j, Nat.lt_succ_of_lt hj, hr, hdropj, hjN, hnot (· = j) honly, hrest⟩

end Step

/-! ## The whole collection -/

/-- The rank only drops from full rank, and after it dropped the last matrix has no column
combination in common with the one before the drop. -/
def Clean (K : ℕ → Matrix m (Fin N) F) (n : ℕ) : Prop :=
  ∀ i < n, Drop K i → (K i).rank = N ∧
    Disjoint (range (K i).mulVecLin) (range (K n).mulVecLin)

section Final

variable (hchain : Chain M K n) (h : Collected M K n S r final)

section Columns

include h

theorem Collected.mulVec_below (a : Fin N → F) :
    copyColumns final (K n * S) 0 r *ᵥ below r a = (K n * S) *ᵥ a := by
  rw [← h.reduced.mulVec_below]
  refine mulVec_congr fun x c hc => ?_
  have hlt : (c : ℕ) < r := by
    by_contra hge
    exact hc (below_of_le a (not_lt.mp hge))
  rw [copyColumns, of_apply, if_pos ⟨Nat.zero_le _, hlt⟩]

theorem Collected.zero_column {j : ℕ} (hj : j < n) (hdrop : Drop K j)
    (hN : (K j).rank < N) : ∃ c : Fin N, (c : ℕ) < (K 0).rank ∧
      ∀ x, copyColumns final (K n * S) 0 r x c = 0 := by
  obtain ⟨c, hrc, hc, hzero⟩ := h.lost j hj hdrop hN
  refine ⟨c, hc, fun x => ?_⟩
  rw [copyColumns, of_apply, if_neg (by omega), hzero x]

end Columns

include hchain

theorem Chain.rank_antitone {i j : ℕ} (hij : i ≤ j) (hj : j ≤ n) :
    (K j).rank ≤ (K i).rank := by
  induction j, hij using Nat.le_induction with
  | base => exact le_rfl
  | succ j _ ih =>
    rw [hchain.succ j (by omega)]
    exact (rank_mul_le_right M (K j)).trans (ih (by omega))

include h

theorem Collected.final_parts :
    M * copyColumns final (K n * S) 0 r = 0 ∧
      (∀ c : Fin N, ∃ j ≤ n, ∃ a, (fun x => copyColumns final (K n * S) 0 r x c) = K j *ᵥ a) ∧
      ∀ x (c : Fin N), (K 0).rank ≤ (c : ℕ) → copyColumns final (K n * S) 0 r x c = 0 := by
  refine ⟨?_, fun c => ?_, fun x c hc => ?_⟩
  · rw [mul_copyColumns, h.killed, ← Matrix.mul_assoc, hchain.last, Matrix.zero_mul]
    ext x c
    rw [copyColumns, of_apply]
    split_ifs <;> rfl
  · by_cases hc : (c : ℕ) < r
    · refine ⟨n, le_rfl, fun y => S y c, funext fun x => ?_⟩
      rw [copyColumns, of_apply, if_pos ⟨Nat.zero_le _, hc⟩]
      rfl
    · obtain ⟨j, hj, a, ha⟩ := h.source c
      refine ⟨j, hj, a, (funext fun x => ?_).trans ha⟩
      rw [copyColumns, of_apply, if_neg (by omega)]
  · have hle := h.le
    rw [copyColumns, of_apply, if_neg (by omega), h.beyond x c hc]

/-- A clean chain leaves its final columns independent. -/
theorem Collected.independent_of_clean (hclean : Clean K n) (a : Fin N → F)
    (ha : ∀ c : Fin N, (K 0).rank ≤ (c : ℕ) → a c = 0)
    (hzero : copyColumns final (K n * S) 0 r *ᵥ a = 0) : a = 0 := by
  rcases h.kept fun j hj hdrop => (hclean j hj hdrop).1 with
    hnone | ⟨j, hj, -, hdrop, hjN, -, U, hU, -, hcolumns⟩
  · -- the rank never dropped: all columns are those of the last matrix
    have hsame : ∀ i ≤ n, (K i).rank = (K 0).rank := by
      intro i hi
      induction i with
      | zero => rfl
      | succ i ih =>
        rw [← ih (by omega)]
        exact le_antisymm (hchain.rank_antitone i.le_succ hi)
          (not_lt.mp (hnone i (by omega)))
    have hr0 : r = (K 0).rank := h.rank ▸ hsame n le_rfl
    have hbelow : below r a = a := by
      have habove : above r a = 0 := by
        funext c
        by_cases hc : (c : ℕ) < r
        · exact above_of_lt a hc
        · exact (if_neg hc).trans (ha c (by omega))
      have hsum := below_add_above r a
      rwa [habove, add_zero] at hsum
    rw [← hbelow, h.mulVec_below] at hzero
    rw [← hbelow]
    exact h.reduced.indep _ (fun c => below_of_le a) ((h.reduced.mulVec_below a).trans hzero)
  · -- the two parts of the combination are in spaces that meet trivially
    have hab : copyColumns final (K n * S) 0 r *ᵥ above r a = (K j * U) *ᵥ above r a := by
      refine mulVec_congr fun x c hc => ?_
      have hge : r ≤ (c : ℕ) := by
        by_contra hlt
        exact hc (above_of_lt a (not_le.mp hlt))
      rw [copyColumns, of_apply, if_neg (by omega), hcolumns x c hge]
    have hsum : (K n * S) *ᵥ a + (K j * U) *ᵥ above r a = 0 := by
      rw [← h.mulVec_below, ← hab, ← mulVec_add, below_add_above, hzero]
    have hmem : (K n * S) *ᵥ a ∈ range (K n).mulVecLin :=
      ⟨S *ᵥ a, by rw [mulVecLin_apply, mulVec_mulVec]⟩
    have hmem' : (K n * S) *ᵥ a ∈ range (K j).mulVecLin := by
      rw [eq_neg_of_add_eq_zero_left hsum]
      exact Submodule.neg_mem _ ⟨U *ᵥ above r a, by rw [mulVecLin_apply, mulVec_mulVec]⟩
    have hnzero := Submodule.disjoint_def.mp (hclean j hj hdrop).2 _ hmem' hmem
    have habove : above r a = 0 := by
      rw [hnzero, zero_add] at hsum
      refine mulVec_injective_of_rank ?_ hsum
      rw [rank_mul_eq_left_of_isUnit_det _ _ hU, hjN]
    have hbelow : below r a = 0 := by
      funext c
      by_cases hc : (c : ℕ) < r
      · rw [below, if_pos hc, h.reduced.eq_zero_of_mulVec hnzero hc]
        rfl
      · exact below_of_le a (not_lt.mp hc)
    rw [← below_add_above r a, hbelow, habove, add_zero]

/-- Independent final columns come from a clean chain. -/
theorem Collected.clean_of_independent
    (hindep : ∀ a : Fin N → F, (∀ c : Fin N, (K 0).rank ≤ (c : ℕ) → a c = 0) →
      copyColumns final (K n * S) 0 r *ᵥ a = 0 → a = 0) : Clean K n := by
  have hfull : ∀ j < n, Drop K j → (K j).rank = N := by
    intro j hj hdrop
    have hleN : (K j).rank ≤ N := (K j).rank_le_card_width.trans (Fintype.card_fin N).le
    by_contra hne
    obtain ⟨c, hc, hzero⟩ := h.zero_column hj hdrop (lt_of_le_of_ne hleN hne)
    have hsingle := hindep (Pi.single c 1) (fun c' hc' => ?_) ?_
    · have hone := congrFun hsingle c
      rw [Pi.single_eq_same] at hone
      exact one_ne_zero hone
    · exact Pi.single_eq_of_ne (by rintro rfl; omega) _
    · rw [mulVec_single_one]
      exact funext hzero
  intro j hj hdrop
  refine ⟨hfull j hj hdrop, Submodule.disjoint_def.mpr ?_⟩
  rcases h.kept hfull with hnone | ⟨j', hj', -, -, hjN, honly, U, hU, hred, hcolumns⟩
  · exact absurd hdrop (hnone j hj)
  obtain rfl := honly j hj hdrop
  rintro x ⟨b, rfl⟩ ⟨b', hb'⟩
  simp only [mulVecLin_apply] at hb' ⊢
  -- the vector as a combination of columns after the changes of basis
  obtain ⟨a, ha⟩ : ∃ a, (K j * U) *ᵥ a = K j *ᵥ b := by
    refine ⟨U⁻¹ *ᵥ b, ?_⟩
    rw [mulVec_mulVec, Matrix.mul_assoc, mul_nonsing_inv U hU, Matrix.mul_one]
  obtain ⟨a', ha'⟩ : ∃ a', (K n * S) *ᵥ a' = K n *ᵥ b' := by
    refine ⟨S⁻¹ *ᵥ b', ?_⟩
    rw [mulVec_mulVec, Matrix.mul_assoc, mul_nonsing_inv S h.isUnit, Matrix.mul_one]
  have hkilled : (K (j + 1) * U) *ᵥ a = 0 := by
    rw [hchain.succ j hj, Matrix.mul_assoc, ← mulVec_mulVec, ha, ← hb', mulVec_mulVec,
      hchain.last, zero_mulVec]
  have habove : above r a = a := by
    funext c
    by_cases hc : (c : ℕ) < r
    · rw [above_of_lt a hc, hred.eq_zero_of_mulVec hkilled hc]
    · exact if_neg hc
  have hab : copyColumns final (K n * S) 0 r *ᵥ a = (K j * U) *ᵥ a := by
    refine mulVec_congr fun x c hc => ?_
    have hge : r ≤ (c : ℕ) := by
      by_contra hlt
      exact hc (hred.eq_zero_of_mulVec hkilled (not_le.mp hlt))
    rw [copyColumns, of_apply, if_neg (by omega), hcolumns x c hge]
  have hdiff : a - below r a' = 0 := by
    refine hindep _ (fun c hc => ?_) ?_
    · have hle := hchain.rank_antitone (Nat.zero_le j) hj.le
      rw [hjN] at hle
      exact absurd c.isLt (by omega)
    · rw [mulVec_sub, hab, h.mulVec_below, ha, ha', hb', sub_self]
  have hzero : a = 0 := by
    funext c
    by_cases hc : (c : ℕ) < r
    · exact hred.eq_zero_of_mulVec hkilled hc
    · rw [sub_eq_zero.mp hdiff, below_of_le a' (not_lt.mp hc)]
      rfl
  rw [← ha, hzero, mulVec_zero]

/-- The vectors collected are as many independent kernel vectors as the rank of the first
matrix exactly when the run was clean. -/
theorem Collected.isKernelBasis_iff :
    IsKernelBasis M K n (copyColumns final (K n * S) 0 r) ↔ Clean K n := by
  obtain ⟨hkilled, hsource, hbeyond⟩ := h.final_parts hchain
  constructor
  · intro hbasis
    exact h.clean_of_independent hchain (linearIndependent_columns_iff.mp hbasis.independent)
  · intro hclean
    have hindep := linearIndependent_columns_iff.mpr (h.independent_of_clean hchain hclean)
    refine ⟨fun c => ⟨fun ⟨x, hx⟩ => ?_, fun hc => ?_⟩, hindep, fun c => ?_, hkilled⟩
    · by_contra hge
      exact hx (hbeyond x c (not_lt.mp hge))
    · by_contra hnone
      push Not at hnone
      exact hindep.ne_zero ⟨c, hc⟩ (funext hnone)
    · obtain ⟨j, hj, a, ha⟩ := hsource c
      have hsum : K j *ᵥ a = ∑ c, a c • fun x => K j x c := by
        funext x
        rw [Finset.sum_apply]
        change ∑ c, K j x c * a c = ∑ c, a c * K j x c
        exact Finset.sum_congr rfl fun c _ => mul_comm _ _
      rw [ha, hsum]
      exact Submodule.sum_mem _ fun c _ =>
        Submodule.smul_mem _ _ (Submodule.subset_span ⟨j, hj, c, rfl⟩)

end Final

end KernelChain
