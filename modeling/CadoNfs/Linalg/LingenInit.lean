import CadoNfs.Lib.FallibleRun
import CadoNfs.Lib.GrowingBasis
import CadoNfs.Linalg.LingenSeries
import CadoNfs.Utils.ModredcUlInv

/-!
# The start of `lingen_binary`

The function `compute_f_init`: columns of the coefficients of the input are chosen that make
a matrix of full rank.

Main results:

- Theorem `ffs_spec`: the first bit of a column.
- Theorem `killCoeffs_spec`: a column is reduced by those that have been chosen.
- Theorem `computeFInit_spec`: which columns are chosen, unless the program gives up.
-/

namespace CadoNfs.Lingen

open Function (update update_of_ne update_self)
open ForRange Gf2 GrowingBasis

/-! ## Code -/

/-- `bcol`. -/
structure Bcol where
  nrows : ℕ
  x : Words

/-- `bmat`; the columns of the matrices here are stored in order. -/
structure Bmat where
  nrows : ℕ
  ncols : ℕ
  x : Words

/-- How `compute_f_init` may stop: with `exit (1)` or in a failed assertion. -/
inductive Stop where
  | exit
  | assertion
  deriving DecidableEq, Repr

/-- `ASSERT`. -/
def Stop.assert (q : Prop) [Decidable q] : Except Stop Unit :=
  if q then .ok () else .error .assertion

/-- `bcol::stride`. -/
def Bcol.stride (c : Bcol) : ℕ := (c.nrows + 63) / 64

/-- `bmat::stride`. -/
def Bmat.stride (a : Bmat) : ℕ := (a.nrows + 63) / 64

/-- `bcol::coeff`. -/
def Bcol.coeff (c : Bcol) (i : ℕ) : Except Stop (BitVec 64) := do
  Stop.assert (i < c.nrows)
  let offset := i / 64
  let shift := i % 64
  .ok ((c.x offset >>> shift) &&& 1#64)

/-- The loop of `bcol::ffs`; `none` is `UINT_MAX`. -/
def ffsLoop (src : Words) : ℕ → ℕ → ℕ → Option ℕ
  | 0, _, _ => none
  | k + 1, p, z =>
    let w := src p
    if w = 0#64 then ffsLoop src k (p + 1) (z + 64) else some (z + ctzl 0 w)

/-- `bcol::ffs`. -/
def Bcol.ffs (c : Bcol) : Option ℕ :=
  ffsLoop c.x c.stride 0 0

/-- `bcol::add`. -/
def Bcol.add (c a : Bcol) (mask : BitVec 64) : Bcol :=
  { c with x := forRange c.stride (fun l x => update x l (x l ^^^ (a.x l &&& -mask))) c.x }

variable (x : Words)

/-- `bmat::extract_col`; `x` is what the new column holds at first. -/
def Bmat.extractCol (a : Bmat) (j : ℕ) : Except Stop Bcol := do
  Stop.assert (j < a.ncols)
  .ok ⟨a.nrows, forRange a.stride (fun l y => update y l (a.x (j * a.stride + l))) x⟩

/-- `polmat::extract_coeff`. -/
def extractCoeff (A : Polmat) (k : ℕ) : Except Stop Bmat := do
  Stop.assert (k < A.ncoef)
  let stride := (A.nrows + 63) / 64
  .ok ⟨A.nrows, A.ncols, forRange A.ncols (fun j => forRange A.nrows fun i x =>
    let boffset := i / 64
    let bmask := 1#64 <<< (i % 64)
    let coeff := (A.x (A.poly i j + k / 64) >>> (k % 64)) &&& 1#64
    update x (j * stride + boffset) (x (j * stride + boffset) ^^^ (bmask &&& -coeff)))
    fun _ => 0#64⟩

/-- The variables of `compute_f_init`, with the global `f0_data`. -/
structure InitState where
  r : ℕ
  pcols : ℕ → Bcol
  pivots : ℕ → ℕ
  exponent : ℕ → ℕ
  cnum : ℕ → ℕ
  f0Data : List (ℕ × ℕ)

/-- "kill as many coeffs as we can". -/
def killCoeffs (s : InitState) (acol : Bcol) : Except Stop Bcol :=
  (List.range s.r).foldlM (fun acol v => do
    let u := s.pivots v
    let c ← acol.coeff u
    .ok (acol.add (s.pcols v) c)) acol

/-- The column `j` of the coefficient `k`. -/
def initColumn (m n k : ℕ) (amat : Bmat) (s : InitState) (j : ℕ) :
    Except Stop InitState := do
  let acol ← amat.extractCol x j
  let acol ← killCoeffs s acol
  match acol.ffs with
  | none => if k * n % 2 ^ 32 > (m + 40) % 2 ^ 32 then .error .exit else .ok s
  | some u => .ok {
      r := s.r + 1
      pcols := update s.pcols s.r acol
      pivots := update s.pivots s.r u
      exponent := update s.exponent s.r k
      cnum := update s.cnum s.r j
      f0Data := s.f0Data ++ [(j, k)] }

/-- The columns of the coefficient `k`; the loop ends when `r` is `m`. -/
def initCoeff (m n : ℕ) (A : Polmat) (s : InitState) (k : ℕ) :
    Except Stop InitState := do
  if s.r < m then
    let amat ← extractCoeff A k
    (List.range n).foldlM
      (fun s j => if s.r < m then initColumn x m n k amat s j else .ok s) s
  else
    .ok s

/-- `compute_f_init` for the globals `m` and `n`: the globals `f0_data` and
`t0`.  What the variables hold at first is `s`, of which only the number of columns and
the columns themselves are set, and `x`. -/
def computeFInit (s : InitState) (m n : ℕ) (A : Polmat) :
    Except Stop (List (ℕ × ℕ) × ℕ) := do
  let s ← (List.range A.ncoef).foldlM (initCoeff x m n A) { s with r := 0, f0Data := [] }
  let t0 := s.exponent (if s.r = 0 then 2 ^ 32 - 1 else s.r - 1) + 1
  if s.r ≠ m then .error .exit
  .ok (s.f0Data, t0)

/-! ## Columns as vectors -/

section Vectors

variable {c a : Bcol} {m : ℕ}

/-- A column as a vector, with zeros beyond its rows. -/
def Bcol.vec (c : Bcol) (i : ℕ) : ZMod 2 :=
  if i < c.nrows then bit (c.x (i / 64)) (i % 64) else 0

/-- A column of `m` rows without bits beyond them. -/
structure Bcol.Clean (c : Bcol) (m : ℕ) : Prop where
  nrows : c.nrows = m
  beyond : ∀ t, m ≤ t → t < 64 * c.stride → bit (c.x (t / 64)) (t % 64) = 0

theorem bit_ctzl {w : BitVec 64} (hw : w ≠ 0#64) : ctzl 0 w < 64 ∧ bit w (ctzl 0 w) = 1 := by
  have hpos : 0 < w.toNat := Nat.pos_of_ne_zero fun h => hw (BitVec.eq_of_toNat_eq h)
  obtain ⟨c, hc, hodd⟩ := ctzl_spec 0 hpos
  set t := ctzl 0 w
  have hle : 2 ^ t ≤ w.toNat := by
    rw [hc]
    exact Nat.le_mul_of_pos_left _ (by omega)
  refine ⟨(Nat.pow_lt_pow_iff_right (by decide)).mp (hle.trans_lt w.isLt), ?_⟩
  rw [bit, ofBool_eq_one_iff, BitVec.getLsbD, hc, Nat.testBit_eq_decide_div_mod_eq,
    Nat.mul_div_cancel _ (Nat.two_pow_pos t)]
  exact decide_eq_true hodd

theorem ffsLoop_spec (src : Words) (k p z : ℕ) :
    (ffsLoop src k p z = none ∧ ∀ l < k, src (p + l) = 0#64) ∨
      ∃ l < k, ∃ t < 64, ffsLoop src k p z = some (z + 64 * l + t) ∧ bit (src (p + l)) t = 1 := by
  induction k generalizing p z with
  | zero => exact Or.inl ⟨rfl, fun l hl => absurd hl (Nat.not_lt_zero l)⟩
  | succ k ih =>
    by_cases hw : src p = 0#64
    · rw [ffsLoop, if_pos hw]
      rcases ih (p + 1) (z + 64) with ⟨hnone, hzero⟩ | ⟨l, hl, t, ht, hsome, hbit⟩
      · refine Or.inl ⟨hnone, fun l hl => ?_⟩
        cases l with
        | zero => exact hw
        | succ l => rw [← hzero l (by omega), add_assoc, add_comm 1]
      · refine Or.inr ⟨l + 1, by omega, t, ht, hsome.trans (congrArg some (by omega)), ?_⟩
        rw [← hbit, add_assoc, add_comm 1]
    · rw [ffsLoop, if_neg hw]
      obtain ⟨hlt, hbit⟩ := bit_ctzl hw
      exact Or.inr ⟨0, k.succ_pos, ctzl 0 (src p), hlt, rfl, hbit⟩

/-- The first bit of a column: none if the column is zero. -/
theorem ffs_spec (hc : c.Clean m) :
    (c.ffs = none ∧ c.vec = 0) ∨ ∃ u < m, c.ffs = some u ∧ c.vec u = 1 := by
  have hstride : c.stride = (m + 63) / 64 := by rw [Bcol.stride, hc.nrows]
  rcases ffsLoop_spec c.x c.stride 0 0 with ⟨hnone, hzero⟩ | ⟨l, hl, t, ht, hsome, hbit⟩
  · refine Or.inl ⟨hnone, funext fun i => ?_⟩
    rw [Bcol.vec, hc.nrows, Pi.zero_apply]
    split_ifs with hi
    · have hword := hzero (i / 64) (by omega)
      rw [zero_add] at hword
      rw [hword, bit_zero]
    · rfl
  · rw [zero_add] at hsome hbit
    have hdiv : (64 * l + t) / 64 = l := by omega
    have hmod : (64 * l + t) % 64 = t := by omega
    have hlt : 64 * l + t < m := by
      by_contra hle
      have hout := hc.beyond (64 * l + t) (not_lt.mp hle) (by omega)
      rw [hdiv, hmod, hbit] at hout
      exact absurd hout (by decide)
    refine Or.inr ⟨64 * l + t, hlt, hsome, ?_⟩
    rw [Bcol.vec, if_pos (hc.nrows ▸ hlt), hdiv, hmod, hbit]

theorem add_x (c a : Bcol) (w : BitVec 64) (s : ℕ) {l : ℕ} (hl : l < c.stride) (t : ℕ) :
    bit ((c.add a ((w >>> s) &&& 1#64)).x l) t = bit (c.x l) t + bit w s * bit (a.x l) t := by
  dsimp only [Bcol.add]
  rw [forRange_at_only hl (fun _ _ hne _ => update_of_ne (Ne.symm hne) _ _)
    (fun ws ws' h => by rw [update_self, update_self, h]), update_self, and_neg_bit, bit_xor]
  congr 1
  unfold bit
  cases w.getLsbD s <;> simp

theorem kill_spec {u : ℕ} (hc : c.Clean m) (ha : a.Clean m) (hu : u < m) :
    ∃ w, c.coeff u = .ok w ∧ (c.add a w).Clean m ∧ (c.add a w).vec = c.vec - c.vec u • a.vec := by
  have hstride : a.stride = c.stride := by rw [Bcol.stride, Bcol.stride, hc.nrows, ha.nrows]
  have hrow : ∀ t, t < m → t / 64 < c.stride := fun t ht => by
    rw [Bcol.stride, hc.nrows]
    omega
  refine ⟨(c.x (u / 64) >>> (u % 64)) &&& 1#64, ?_, ⟨hc.nrows, fun t hm ht => ?_⟩,
    funext fun i => ?_⟩
  · rw [Bcol.coeff, Stop.assert, if_pos (hc.nrows ▸ hu)]
    rfl
  · have hword : t / 64 < c.stride := Nat.div_lt_of_lt_mul ht
    rw [add_x c a _ _ hword, hc.beyond t hm ht, ha.beyond t hm (hstride ▸ ht), mul_zero, add_zero]
  · have hvec : (c.add a ((c.x (u / 64) >>> (u % 64)) &&& 1#64)).nrows = m := hc.nrows
    rw [Pi.sub_apply, Pi.smul_apply, smul_eq_mul, Bcol.vec, hvec, Bcol.vec, Bcol.vec, Bcol.vec,
      hc.nrows, ha.nrows, if_pos hu]
    split_ifs with hi
    · rw [add_x c a _ _ (hrow i hi), CharTwo.sub_eq_add]
    · rw [mul_zero, sub_zero]

end Vectors

/-! ## Coefficients of the input -/

section Input

variable {A : Polmat} {j k : ℕ}

/-- A column of a coefficient of `A` as a vector, with zeros beyond the rows. -/
def column (A : Polmat) (e : ℕ × ℕ) (i : ℕ) : ZMod 2 :=
  if i < A.nrows then A.coeff i e.1 e.2 else 0

/-- The extracted words are the coefficients of one degree. -/
theorem extractCoeff_spec (hk : k < A.ncoef) :
    ∃ amat, extractCoeff A k = .ok amat ∧ amat.nrows = A.nrows ∧ amat.ncols = A.ncols ∧
      ∀ j < A.ncols, ∀ t < 64 * amat.stride,
        bit (amat.x (j * amat.stride + t / 64)) (t % 64)
          = if t < A.nrows then A.coeff t j k else 0 := by
  refine ⟨_, by rw [extractCoeff, Stop.assert, if_pos hk]; rfl, rfl, rfl, fun j hj t ht => ?_⟩
  set stride := (A.nrows + 63) / 64 with hstride
  change t < 64 * stride at ht
  set flag : ℕ → ℕ → Bool := fun i j => (A.x (A.poly i j + k / 64)).getLsbD (k % 64)
  -- the words of the column that are changed when the row `i` is read
  have hcell : forRange A.ncols (fun j => forRange A.nrows fun i x =>
      update x (j * stride + i / 64) (x (j * stride + i / 64) ^^^
        ((1#64 <<< (i % 64)) &&& -((A.x (A.poly i j + k / 64) >>> (k % 64)) &&& 1#64))))
      (fun _ => 0#64) (j * stride + t / 64)
      = forRange A.nrows (fun i v => v ^^^
          (if t / 64 = i / 64 ∧ flag i j then 1#64 <<< (i % 64) else 0#64)) 0#64 := by
    have hpoint : ∀ j ws y, forRange A.nrows (fun i x =>
        update x (j * stride + i / 64) (x (j * stride + i / 64) ^^^
          ((1#64 <<< (i % 64)) &&& -((A.x (A.poly i j + k / 64) >>> (k % 64)) &&& 1#64)))) ws y
        = forRange A.nrows (fun i v => if y = j * stride + i / 64 then
            v ^^^ (if flag i j then 1#64 <<< (i % 64) else 0#64) else v) (ws y) :=
      fun j => forRange_pointwise _ fun i x y => by
        rw [and_neg_bit]
        exact update_modify_apply x (j * stride + i / 64) y fun v => v ^^^ _
    rw [forRange_at_only hj (fun j' _ hne x => ?_) (fun x x' h => ?_), hpoint]
    · refine forRange_congr (fun i _ v => ?_) _
      by_cases hword : t / 64 = i / 64
      · rw [if_pos (by rw [hword])]
        simp [hword]
      · rw [if_neg (fun h => hword (by omega)), if_neg (fun h => hword h.1), BitVec.xor_zero]
    · rw [hpoint]
      refine forRange_id (fun i hi v => if_neg fun h => hne ?_) _
      have hcol : stride * j + t / 64 = stride * j' + i / 64 := by
        rw [mul_comm, h, mul_comm]
      exact (cell_inj (by omega) (by omega) hcol).1.symm
    · rw [hpoint, hpoint, h]
  refine (congrArg (fun w => bit w (t % 64)) hcell).trans ?_
  rw [bit_forRange_xor, bit_zero, zero_add]
  have hterm : ∀ i, bit (if t / 64 = i / 64 ∧ flag i j then 1#64 <<< (i % 64) else 0#64) (t % 64)
      = if i = t then A.coeff i j k else 0 := by
    intro i
    by_cases hi : i = t
    · subst hi
      have hcoeff : A.coeff i j k = ofBool (flag i j) := rfl
      rw [if_pos rfl, hcoeff]
      by_cases hflag : flag i j
      · rw [if_pos ⟨rfl, hflag⟩, bit_one_shift (Nat.mod_lt i (by decide)), if_pos rfl, hflag]
        rfl
      · rw [if_neg fun h => hflag h.2, bit_zero, Bool.eq_false_of_not_eq_true hflag]
        rfl
    · rw [if_neg hi]
      split_ifs with hflag
      · rw [bit_one_shift (Nat.mod_lt i (by decide)), if_neg]
        omega
      · exact bit_zero _
  rw [Finset.sum_congr rfl fun i _ => hterm i, Finset.sum_ite_eq']
  simp

theorem extractCol_spec (x : Words) {amat : Bmat} (hj : j < A.ncols) (hnrows : amat.nrows = A.nrows)
    (hncols : amat.ncols = A.ncols)
    (hbits : ∀ j < A.ncols, ∀ t < 64 * amat.stride,
      bit (amat.x (j * amat.stride + t / 64)) (t % 64) = if t < A.nrows then A.coeff t j k else 0) :
    ∃ acol, amat.extractCol x j = .ok acol ∧ acol.Clean A.nrows ∧ acol.vec = column A (j, k) := by
  have hword : ∀ l < amat.stride, forRange amat.stride (fun l y =>
      update y l (amat.x (j * amat.stride + l))) x l = amat.x (j * amat.stride + l) :=
    fun l hl => forRange_update_apply (fun l => amat.x (j * amat.stride + l))
      (fun _ _ _ _ h => h) hl x
  have hrun : amat.extractCol x j = Except.ok ⟨amat.nrows, forRange amat.stride (fun l y =>
      update y l (amat.x (j * amat.stride + l))) x⟩ := by
    rw [Bmat.extractCol, Stop.assert, if_pos (hncols ▸ hj)]
    rfl
  refine ⟨_, hrun, ⟨hnrows, fun t hm ht => ?_⟩, funext fun i => ?_⟩
  · change t < 64 * amat.stride at ht
    dsimp only
    rw [hword _ (Nat.div_lt_of_lt_mul ht), hbits j hj t ht, if_neg (not_lt.mpr hm)]
  · dsimp only [Bcol.vec, column]
    rw [hnrows]
    split_ifs with hi
    · have hstride : amat.stride = (A.nrows + 63) / 64 := by rw [Bmat.stride, hnrows]
      rw [hword _ (by omega), hbits j hj i (by omega), if_pos hi]
    · rfl

end Input

/-! ## The columns that are chosen -/

section Chosen

variable {A : Polmat} {s : InitState} {e e' : ℕ × ℕ} {r k j : ℕ} {f0 : ℕ → ℕ × ℕ}

/-- The order in which the columns are read: a pair is a column and a coefficient. -/
def Before (e e' : ℕ × ℕ) : Prop := e.2 < e'.2 ∨ e.2 = e'.2 ∧ e.1 < e'.1

/-- The column that is recorded with the index `i`. -/
def InitState.recorded (s : InitState) (i : ℕ) : ℕ × ℕ := (s.cnum i, s.exponent i)

/-- The span of the first `r` recorded columns that come before `e`. -/
def earlier (A : Polmat) (r : ℕ) (f0 : ℕ → ℕ × ℕ) (e : ℕ × ℕ) : Submodule (ZMod 2) (ℕ → ZMod 2) :=
  Submodule.span (ZMod 2) {x | ∃ i < r, Before (f0 i) e ∧ column A (f0 i) = x}

/-- What `compute_f_init` has when the columns before `e` are read. -/
structure InitInv (A : Polmat) (e : ℕ × ℕ) (s : InitState) : Prop where
  le : s.r ≤ A.nrows
  data : s.f0Data = (List.range s.r).map s.recorded
  clean : ∀ v < s.r, (s.pcols v).Clean A.nrows
  pivots : ∀ v < s.r, s.pivots v < A.nrows
  stairs : Stairs s.r (fun v => (s.pcols v).vec) s.pivots
  span_eq : span s.r (fun v => (s.pcols v).vec) = span s.r fun v => column A (s.recorded v)
  indep : LinearIndependent (ZMod 2) fun i : Fin s.r => column A (s.recorded i)
  member : ∀ i < s.r, (s.recorded i).1 < A.ncols ∧ (s.recorded i).2 < A.ncoef ∧
    Before (s.recorded i) e
  sorted : ∀ i j, i < j → j < s.r → Before (s.recorded i) (s.recorded j)
  skipped : ∀ e', e'.1 < A.ncols → e'.2 < A.ncoef → Before e' e →
    ((∀ i < s.r, s.recorded i ≠ e') ↔ column A e' ∈ earlier A s.r s.recorded e')

theorem Before.irrefl (e : ℕ × ℕ) : ¬Before e e := fun h =>
  h.elim (lt_irrefl _) fun h => lt_irrefl _ h.2

theorem Before.asymm (h : Before e e') : ¬Before e' e := by
  intro h'
  unfold Before at h h'
  omega

theorem earlier_eq (h : ∀ i < r, Before (f0 i) e) :
    earlier A r f0 e = span r fun v => column A (f0 v) := by
  unfold earlier span
  congr 1
  ext x
  constructor
  · rintro ⟨i, hi, -, hx⟩
    exact ⟨i, hi, hx⟩
  · rintro ⟨i, hi, hx⟩
    exact ⟨i, hi, h i hi, hx⟩

theorem earlier_update (h : ¬Before e e') :
    earlier A (r + 1) (update f0 r e) e' = earlier A r f0 e' := by
  unfold earlier
  congr 1
  ext x
  constructor
  · rintro ⟨i, hi, hbefore, hx⟩
    rcases Nat.lt_succ_iff_lt_or_eq.mp hi with hlt | rfl
    · rw [update_of_ne (Nat.ne_of_lt hlt)] at hbefore hx
      exact ⟨i, hlt, hbefore, hx⟩
    · rw [update_self] at hbefore
      exact absurd hbefore h
  · rintro ⟨i, hi, hbefore, hx⟩
    refine ⟨i, by omega, ?_, ?_⟩ <;> rw [update_of_ne (Nat.ne_of_lt hi)]
    · exact hbefore
    · exact hx

theorem InitInv.move (h : InitInv A e s)
    (heq : ∀ e₁ : ℕ × ℕ, e₁.1 < A.ncols → (Before e₁ e' ↔ Before e₁ e)) : InitInv A e' s where
  le := h.le
  data := h.data
  clean := h.clean
  pivots := h.pivots
  stairs := h.stairs
  span_eq := h.span_eq
  indep := h.indep
  member := fun i hi => by
    obtain ⟨hcol, hcoef, hbefore⟩ := h.member i hi
    exact ⟨hcol, hcoef, (heq _ hcol).mpr hbefore⟩
  sorted := h.sorted
  skipped := fun e₁ hcol hcoef hbefore => h.skipped e₁ hcol hcoef ((heq e₁ hcol).mp hbefore)

theorem before_next (e : ℕ × ℕ) : Before e (j + 1, k) ↔ Before e (j, k) ∨ e = (j, k) := by
  unfold Before
  rw [Prod.ext_iff]
  dsimp only
  omega

theorem InitInv.skip (h : InitInv A (j, k) s)
    (hmem : column A (j, k) ∈ span s.r fun v => column A (s.recorded v)) :
    InitInv A (j + 1, k) s where
  le := h.le
  data := h.data
  clean := h.clean
  pivots := h.pivots
  stairs := h.stairs
  span_eq := h.span_eq
  indep := h.indep
  member := fun i hi => by
    obtain ⟨hcol, hcoef, hbefore⟩ := h.member i hi
    exact ⟨hcol, hcoef, (before_next _).mpr (Or.inl hbefore)⟩
  sorted := h.sorted
  skipped := fun e hcol hcoef hbefore => by
    rcases (before_next e).mp hbefore with hold | rfl
    · exact h.skipped e hcol hcoef hold
    · rw [earlier_eq fun i hi => (h.member i hi).2.2]
      refine iff_of_true (fun i hi heq => ?_) hmem
      exact Before.irrefl _ (heq ▸ (h.member i hi).2.2)

/-- What is recorded with a new column. -/
def InitState.record (s : InitState) (acol : Bcol) (u k j : ℕ) : InitState where
  r := s.r + 1
  pcols := update s.pcols s.r acol
  pivots := update s.pivots s.r u
  exponent := update s.exponent s.r k
  cnum := update s.cnum s.r j
  f0Data := s.f0Data ++ [(j, k)]

theorem recorded_record (s : InitState) (acol : Bcol) (u k j : ℕ) :
    (s.record acol u k j).recorded = update s.recorded s.r (j, k) := by
  funext i
  by_cases hi : i = s.r
  · subst hi
    simp [InitState.record, InitState.recorded]
  · simp [InitState.record, InitState.recorded, update_of_ne hi]

/-- A column that is not reduced to zero becomes the next pivot. -/
theorem InitInv.record (h : InitInv A (j, k) s) (hr : s.r < A.nrows) (hj : j < A.ncols)
    (hk : k < A.ncoef) {acol : Bcol} {u : ℕ} (hclean : acol.Clean A.nrows)
    (hvec : acol.vec = reduce s.r (fun v => (s.pcols v).vec) s.pivots (column A (j, k)))
    (hu : u < A.nrows) (hone : acol.vec u = 1) : InitInv A (j + 1, k) (s.record acol u k j) := by
  have hold : ∀ {α : Type} (f : ℕ → α) (a : α), ∀ v < s.r, update f s.r a v = f v :=
    fun f a v hv => update_of_ne (Nat.ne_of_lt hv) a f
  have hpcols : (fun v => (update s.pcols s.r acol v).vec)
      = update (fun v => (s.pcols v).vec) s.r acol.vec := by
    funext v
    exact Function.apply_update (fun _ => Bcol.vec) s.pcols s.r acol v
  have hcolumns : (fun v => column A (update s.recorded s.r (j, k) v))
      = update (fun v => column A (s.recorded v)) s.r (column A (j, k)) := by
    funext v
    exact Function.apply_update (fun _ => column A) s.recorded s.r (j, k) v
  -- the column is not in the span, as something is left of it
  have hout : column A (j, k) ∉ span s.r fun v => column A (s.recorded v) := by
    intro hmem
    rw [← h.span_eq] at hmem
    rw [hvec, (h.stairs.reduce_eq_zero_iff _).mpr hmem] at hone
    exact zero_ne_one hone
  refine ⟨hr, ?_, ?_, ?_, ?_, ?_, ?_, ?_, ?_, ?_⟩
  · rw [recorded_record]
    show s.f0Data ++ [(j, k)] = (List.range (s.r + 1)).map _
    rw [List.range_succ, List.map_append, List.map_singleton, update_self, h.data,
      List.map_congr_left fun v hv => hold s.recorded (j, k) v (List.mem_range.mp hv)]
  · intro v hv
    show (update s.pcols s.r acol v).Clean A.nrows
    rcases Nat.lt_succ_iff_lt_or_eq.mp hv with hlt | rfl
    · rw [hold _ _ v hlt]
      exact h.clean v hlt
    · rw [update_self]
      exact hclean
  · intro v hv
    show update s.pivots s.r u v < A.nrows
    rcases Nat.lt_succ_iff_lt_or_eq.mp hv with hlt | rfl
    · rw [hold _ _ v hlt]
      exact h.pivots v hlt
    · rw [update_self]
      exact hu
  · show Stairs (s.r + 1) (fun v => (update s.pcols s.r acol v).vec) _
    rw [hpcols, hvec]
    exact h.stairs.extend (hvec ▸ hone)
  · rw [recorded_record]
    show span (s.r + 1) (fun v => (update s.pcols s.r acol v).vec) = _
    rw [hpcols, span_update, hvec, span_reduce, h.span_eq, hcolumns]
    exact (span_update _ _ _).symm
  · rw [recorded_record]
    have hindep := (linearIndependent_update s.r (fun v => column A (s.recorded v))
      (column A (j, k))).mpr ⟨h.indep, hout⟩
    rw [← hcolumns] at hindep
    exact hindep
  · rw [recorded_record]
    intro i hi
    rcases Nat.lt_succ_iff_lt_or_eq.mp hi with hlt | rfl
    · rw [hold _ _ i hlt]
      obtain ⟨hcol, hcoef, hbefore⟩ := h.member i hlt
      exact ⟨hcol, hcoef, (before_next _).mpr (Or.inl hbefore)⟩
    · rw [update_self]
      exact ⟨hj, hk, (before_next _).mpr (Or.inr rfl)⟩
  · rw [recorded_record]
    intro i i' hlt hi'
    rcases Nat.lt_succ_iff_lt_or_eq.mp hi' with hlt' | rfl
    · rw [hold _ _ i (by omega), hold _ _ i' hlt']
      exact h.sorted i i' hlt hlt'
    · rw [hold _ _ i hlt, update_self]
      exact (h.member i hlt).2.2
  · rw [recorded_record]
    intro e hcol hcoef hbefore
    show (∀ i < s.r + 1, _) ↔ column A e ∈ earlier A (s.r + 1) _ e
    rcases (before_next e).mp hbefore with hearly | rfl
    · rw [earlier_update hearly.asymm, ← h.skipped e hcol hcoef hearly]
      constructor
      · intro hne i hi
        rw [← hold s.recorded (j, k) i hi]
        exact hne i (by omega)
      · intro hne i hi
        rcases Nat.lt_succ_iff_lt_or_eq.mp hi with hlt | rfl
        · rw [hold _ _ i hlt]
          exact hne i hlt
        · rw [update_self]
          exact fun heq => Before.irrefl e (heq ▸ hearly)
    · rw [earlier_update (Before.irrefl _), earlier_eq fun i hi => (h.member i hi).2.2]
      refine iff_of_false (fun hne => ?_) hout
      exact hne s.r s.r.lt_succ_self (update_self _ _ _)

/-- The coefficients at the pivots are killed. -/
theorem killCoeffs_spec {m : ℕ} {acol : Bcol} (hacol : acol.Clean m)
    (hclean : ∀ v < s.r, (s.pcols v).Clean m) (hpivots : ∀ v < s.r, s.pivots v < m) :
    ∃ acol', killCoeffs s acol = .ok acol' ∧ acol'.Clean m ∧
      acol'.vec = reduce s.r (fun v => (s.pcols v).vec) s.pivots acol.vec := by
  have hloop : Ends (fun c : Bcol => c.Clean m ∧
      c.vec = reduce s.r (fun v => (s.pcols v).vec) s.pivots acol.vec) (fun _ => False)
      (killCoeffs s acol) := by
    refine Ends.foldlM_range (motive := fun v (c : Bcol) => c.Clean m ∧
      c.vec = reduce v (fun v => (s.pcols v).vec) s.pivots acol.vec) ⟨hacol, rfl⟩ ?_
    rintro v hv c ⟨hc, hvec⟩
    obtain ⟨w, hw, hsum, hvec'⟩ := kill_spec hc (hclean v hv) (hpivots v hv)
    dsimp only
    rw [hw]
    refine .ok ⟨hsum, ?_⟩
    rw [hvec', hvec, reduce, reduce, forRange_succ]
  exact hloop.exists_ok fun _ h => h

theorem initColumn_spec (x : Words) (n : ℕ) {amat : Bmat} (h : InitInv A (j, k) s)
    (hr : s.r < A.nrows) (hj : j < A.ncols) (hk : k < A.ncoef) (hnrows : amat.nrows = A.nrows)
    (hncols : amat.ncols = A.ncols)
    (hbits : ∀ j < A.ncols, ∀ t < 64 * amat.stride,
      bit (amat.x (j * amat.stride + t / 64)) (t % 64) = if t < A.nrows then A.coeff t j k else 0) :
    Ends (InitInv A (j + 1, k)) (· = .exit) (initColumn x A.nrows n k amat s j) := by
  obtain ⟨acol, hcopy, hclean, hvec⟩ := extractCol_spec x hj hnrows hncols hbits
  obtain ⟨acol', hkill, hclean', hvec'⟩ := killCoeffs_spec hclean h.clean h.pivots
  rw [hvec] at hvec'
  have hrun : initColumn x A.nrows n k amat s j = match acol'.ffs with
      | none => if k * n % 2 ^ 32 > (A.nrows + 40) % 2 ^ 32 then .error .exit else .ok s
      | some u => .ok (s.record acol' u k j) := by
    rw [initColumn, hcopy]
    show (killCoeffs s acol >>= _) = _
    rw [hkill]
    rfl
  rw [hrun]
  rcases ffs_spec hclean' with ⟨hnone, hzero⟩ | ⟨u, hu, hsome, hone⟩
  · rw [hnone]
    dsimp only
    split_ifs
    · exact .error rfl
    · rw [hvec', h.stairs.reduce_eq_zero_iff, h.span_eq] at hzero
      exact .ok (h.skip hzero)
  · rw [hsome]
    exact .ok (h.record hr hj hk hclean' hvec' hu hone)

theorem InitInv.full (h : InitInv A e s) (hr : s.r = A.nrows) (e' : ℕ × ℕ) :
    column A e' ∈ span s.r fun v => column A (s.recorded v) := by
  rw [← h.span_eq]
  refine h.stairs.mem_span_of_full (fun v hv => hr ▸ h.pivots v hv) (fun v hv i hi => ?_)
    fun i hi => if_neg (by omega)
  show (if i < (s.pcols v).nrows then _ else 0) = (0 : ZMod 2)
  rw [(h.clean v hv).nrows, if_neg (by omega)]

theorem initCoeff_spec (x : Words) (h : InitInv A (0, k) s) (hk : k < A.ncoef) :
    Ends (InitInv A (0, k + 1)) (· = .exit) (initCoeff x A.nrows A.ncols A s k) := by
  have hnext : ∀ {s}, InitInv A (A.ncols, k) s → InitInv A (0, k + 1) s := fun h =>
    h.move fun e₁ hcol => by
      unfold Before
      dsimp only
      omega
  unfold initCoeff
  split_ifs with hr
  · obtain ⟨amat, hamat, hnrows, hncols, hbits⟩ := extractCoeff_spec hk
    rw [hamat]
    refine (Ends.foldlM_range (motive := fun j s => InitInv A (j, k) s) h ?_).mono
      (fun s hs => hnext hs) fun _ he => he
    intro j hj s hs
    split_ifs with hr
    · exact initColumn_spec x A.ncols hs hr hj hk hnrows hncols hbits
    · exact .ok (hs.skip (hs.full (le_antisymm hs.le (not_lt.mp hr)) _))
  · have hfull : s.r = A.nrows := le_antisymm h.le (not_lt.mp hr)
    have hall : ∀ j, InitInv A (j, k) s := by
      intro j
      induction j with
      | zero => exact h
      | succ j ih => exact ih.skip (ih.full hfull _)
    exact .ok (hnext (hall A.ncols))

end Chosen

/-! ## The result -/

section Result

open Finset Polynomial

/-- The coefficient of `X ^ t0` in the product of `A` and `F0`. -/
noncomputable def startMatrix (A : Polmat) (f0 : ℕ → ℕ × ℕ) (t0 : ℕ) :
    Matrix (Fin A.nrows) (Fin (A.nrows + A.ncols)) (ZMod 2) :=
  fun i c => (∑ l ∈ range A.ncols, entryPoly A i l * f0Entry A.ncols t0 f0 l c).coeff t0

/-- The columns that are chosen. -/
structure IsFInit (A : Polmat) (f0 : ℕ → ℕ × ℕ) (t0 : ℕ) : Prop where
  entry : ∀ i < A.nrows, (f0 i).1 < A.ncols ∧ (f0 i).2 < A.ncoef
  indep : LinearIndependent (ZMod 2) fun i : Fin A.nrows => column A (f0 i)
  exponent_le : ∀ i j, i ≤ j → j < A.nrows → (f0 i).2 ≤ (f0 j).2
  exponent_lt : ∀ i < A.nrows, (f0 i).2 < t0
  t0_eq : 0 < A.nrows → t0 = (f0 (A.nrows - 1)).2 + 1
  skipped : ∀ e, e.1 < A.ncols → e.2 < A.ncoef →
    ((∀ i < A.nrows, f0 i ≠ e) ↔ column A e ∈ earlier A A.nrows f0 e)
  rank : (startMatrix A f0 t0).rank = A.nrows

variable {A : Polmat} {s : InitState} {f0 : ℕ → ℕ × ℕ} {t0 : ℕ}

section

variable (hentry : ∀ i < A.nrows, (f0 i).1 < A.ncols ∧ (f0 i).2 < A.ncoef)
include hentry

theorem startMatrix_recorded
    (hlt : ∀ i < A.nrows, (f0 i).2 < t0) (i l : Fin A.nrows) {c : Fin (A.nrows + A.ncols)}
    (hc : (c : ℕ) = A.ncols + l) : startMatrix A f0 t0 i c = column A (f0 l) i := by
  obtain ⟨hcol, hcoef⟩ := hentry l l.isLt
  have hexp := hlt l l.isLt
  rw [startMatrix, finsetSum_coeff, sum_eq_single (f0 l).1]
  · rw [f0Entry, if_neg (by omega), hc, Nat.add_sub_cancel_left, if_pos rfl, coeff_mul_X_pow',
      if_pos (Nat.sub_le _ _), Nat.sub_sub_self hexp.le, coeff_entryPoly, if_pos hcoef, column,
      if_pos i.isLt]
  · intro b _ hne
    rw [f0Entry, if_neg (by omega), hc, Nat.add_sub_cancel_left, if_neg (Ne.symm hne), mul_zero,
      coeff_zero]
  · exact fun hout => absurd (mem_range.mpr hcol) hout

theorem startMatrix_rank
    (hindep : LinearIndependent (ZMod 2) fun i : Fin A.nrows => column A (f0 i))
    (hlt : ∀ i < A.nrows, (f0 i).2 < t0) : (startMatrix A f0 t0).rank = A.nrows := by
  let place : Fin A.nrows → Fin (A.nrows + A.ncols) := fun l => ⟨A.ncols + l, by omega⟩
  have hcols : ((startMatrix A f0 t0).submatrix id place).transpose.row
      = fun (l : Fin A.nrows) (i : Fin A.nrows) => column A (f0 l) i := by
    funext l i
    exact startMatrix_recorded hentry hlt i l rfl
  have hrows : LinearIndependent (ZMod 2)
      ((startMatrix A f0 t0).submatrix id place).transpose.row := by
    rw [hcols]
    apply LinearIndependent.of_comp
      (Function.ExtendByZero.linearMap (ZMod 2) (Fin.val : Fin A.nrows → ℕ))
    convert hindep using 1
    funext l t
    show Function.extend Fin.val (fun i : Fin A.nrows => column A (f0 l) i) 0 t = _
    by_cases ht : t < A.nrows
    · exact Fin.val_injective.extend_apply (fun i : Fin A.nrows => column A (f0 l) i) 0 ⟨t, ht⟩
    · rw [column, if_neg ht]
      exact Function.extend_apply' _ _ t fun h => ht (h.elim fun i hi => hi ▸ i.isLt)
  apply le_antisymm (Matrix.rank_le_height _)
  calc A.nrows = ((startMatrix A f0 t0).submatrix id place).rank := by
        rw [← Matrix.rank_transpose, hrows.rank_matrix, Fintype.card_fin]
    _ ≤ (startMatrix A f0 t0).rank := Matrix.rank_submatrix_le _ _ _

end

/-- Which columns `compute_f_init` chooses: they make a matrix of full rank, and what is
not chosen is in the span of what was chosen before.  The function may also exit, but no assertion
fails. -/
theorem computeFInit_spec (x : Words) (s : InitState) (A : Polmat) :
    Ends (fun d => ∃ f0, d.1 = (List.range A.nrows).map f0 ∧ IsFInit A f0 d.2) (· = .exit)
      (computeFInit x s A.nrows A.ncols A) := by
  have hstart : InitInv A (0, 0) { s with r := 0, f0Data := [] } := by
    refine ⟨Nat.zero_le _, rfl, ?_, ?_, ?_, ?_, linearIndependent_empty_type, ?_, ?_, ?_⟩
    · exact fun v hv => absurd hv (Nat.not_lt_zero v)
    · exact fun v hv => absurd hv (Nat.not_lt_zero v)
    · exact ⟨fun v hv => absurd hv (Nat.not_lt_zero v), fun v hv => absurd hv (Nat.not_lt_zero v)⟩
    · unfold span
      congr 1
      ext y
      exact ⟨fun ⟨v, hv, _⟩ => absurd hv (Nat.not_lt_zero v),
        fun ⟨v, hv, _⟩ => absurd hv (Nat.not_lt_zero v)⟩
    · exact fun v hv => absurd hv (Nat.not_lt_zero v)
    · exact fun i j _ hj => absurd hj (Nat.not_lt_zero j)
    · intro e _ _ hbefore
      unfold Before at hbefore
      dsimp only at hbefore
      omega
  have hloop : Ends (InitInv A (0, A.ncoef)) (· = .exit) ((List.range A.ncoef).foldlM
      (initCoeff x A.nrows A.ncols A) { s with r := 0, f0Data := [] }) :=
    Ends.foldlM_range (motive := fun k s => InitInv A (0, k) s) hstart
      fun k hk s hs => initCoeff_spec x hs hk
  refine hloop.bind fun s' h => ?_
  by_cases hr : s'.r = A.nrows
  · rw [if_neg (not_not.mpr hr)]
    have hentry : ∀ i < A.nrows, (s'.recorded i).1 < A.ncols ∧ (s'.recorded i).2 < A.ncoef :=
      fun i hi => ⟨(h.member i (hr ▸ hi)).1, (h.member i (hr ▸ hi)).2.1⟩
    have hindep : LinearIndependent (ZMod 2) fun i : Fin A.nrows => column A (s'.recorded i) := by
      rw [← hr]
      exact h.indep
    have hle : ∀ i j, i ≤ j → j < A.nrows → (s'.recorded i).2 ≤ (s'.recorded j).2 := by
      intro i j hij hj
      rcases Nat.eq_or_lt_of_le hij with rfl | hlt
      · exact le_rfl
      · rcases h.sorted i j hlt (hr ▸ hj) with hexp | hexp
        · exact hexp.le
        · exact hexp.1.le
    have hlt : ∀ i < A.nrows, (s'.recorded i).2 <
        s'.exponent (if s'.r = 0 then 2 ^ 32 - 1 else s'.r - 1) + 1 := by
      intro i hi
      rw [hr, if_neg (by omega)]
      exact Nat.lt_succ_of_le (hle i (A.nrows - 1) (by omega) (by omega))
    refine .ok ⟨s'.recorded, hr ▸ h.data, hentry, hindep, hle, hlt, fun hpos => ?_, ?_,
      startMatrix_rank hentry hindep hlt⟩
    · dsimp only
      rw [hr, if_neg (by omega)]
      rfl
    · intro e hcol hcoef
      rw [← hr]
      refine h.skipped e hcol hcoef (Or.inl hcoef)
  · rw [if_pos hr]
    exact .error rfl

end Result

end CadoNfs.Lingen
