import CadoNfs.Lib.ProductTree
import CadoNfs.Linalg.CharacterBits
import CadoNfs.Utils.Mpz
import CadoNfs.Utils.PolyMul

/-!
# Product trees, and the rational square root

The functions `accumulate_fast` and `accumulate_fast_F` of `sqrt.c` keep the
product of their inputs in a table of integers, or of elements modulo a polynomial.  The square
root of the rational side is that of the product of a dependency.

Main results:

- Theorem `mpzEntries_lawful`: the integers have a product tree.
- Theorem `polymodFEntries_lawful`: the elements modulo `F` have one.
- Theorem `productTrees_spec`: the products, and the rational square root.
-/

namespace CadoNfs.Sqrt

open ProductTree CadoNfs.Poly Finset
open Characters (CadoPoly)

/-! ## Code -/

/-- What can go wrong in `sqrt.c`: an entry beyond the end of a table, a loop without end, an
error in `poly.c`, an exit of `calculateSqrtRat`, or an undefined division. -/
inductive SqrtError
  | outOfBounds
  | endless
  | poly (e : PolyError)
  | nonLinear
  | negative
  | remainder
  | divisionByZero
  | noInverse
deriving DecidableEq, Repr

/-- `THRESHOLD`. -/
def threshold : ℕ := 2

/-- `my_mpz_mul`: the product, and what is left of the second operand.  It keeps one limb
of `w` bits, and is zero if it does not fit. -/
def myMpzMul (w : ℕ) (b c : ℤ) : ℤ × ℤ :=
  (b * c, if c.natAbs < 2 ^ w then c else 0)

/-- The table `prd` of `accumulate_fast`. -/
def mpzEntries (w : ℕ) : Entries SqrtError ℤ where
  base := threshold
  one_lt := by decide
  next nprd := (nprd + 1) % 2 ^ w
  one := 1
  reset _ := .ok 1
  mul b c := .ok (myMpzMul w b c)
  outOfBounds := .outOfBounds
  endless := .endless

/-- `accumulate_fast`, with `unsigned long` of `w` bits. -/
def accumulateFast (w : ℕ) (prd : Table ℤ) (a : ℤ) (nprd : ℕ) : Except SqrtError (Table ℤ) :=
  (mpzEntries w).accumulate prd a nprd

/-- Some integers are accumulated, as the callers of `accumulate_fast` do. -/
def accumulateFastAll (w : ℕ) (as : List ℤ) : Except SqrtError (Table ℤ) :=
  accumulateAll (accumulateFast w) (mpzEntries w).next (mpzEntries w).start as 0

/-- `accumulate_fast_end`. -/
def accumulateFastEnd (w : ℕ) (prd : Table ℤ) : Except SqrtError (Table ℤ) :=
  (mpzEntries w).accumulateEnd prd

/-- An element whose first coefficient, degree and power are set to those of one. -/
def setOne (p : PolyT) : PolymodF :=
  ⟨{ p with deg := 0, coeff := Function.update p.coeff 0 1 }, 0⟩

/-- The table `prd` of `accumulate_fast_F`. -/
def polymodFEntries (w : ℕ) (F : PolyT) : Entries SqrtError PolymodF where
  base := threshold
  one_lt := by decide
  next nprd := (nprd + 1) % 2 ^ w
  one := setOne (polyAlloc F.deg)
  reset P := if 0 < P.p.alloc then .ok (setOne P.p) else .error .outOfBounds
  mul P1 P2 := do
    let Q ← (polymodFMul w P1 P1 P2 F).mapError .poly
    .ok (Q, P2)
  outOfBounds := .outOfBounds
  endless := .endless

/-- `accumulate_fast_F`. -/
def accumulateFastF (w : ℕ) (F : PolyT) (prd : Table PolymodF) (a : PolymodF) (nprd : ℕ) :
    Except SqrtError (Table PolymodF) :=
  (polymodFEntries w F).accumulate prd a nprd

/-- Some elements are accumulated. -/
def accumulateFastFAll (w : ℕ) (F : PolyT) (as : List PolymodF) :
    Except SqrtError (Table PolymodF) :=
  accumulateAll (accumulateFastF w F) (polymodFEntries w F).next (polymodFEntries w F).start as 0

/-- `accumulate_fast_F_end`. -/
def accumulateFastFEnd (w : ℕ) (F : PolyT) (prd : Table PolymodF) :
    Except SqrtError (Table PolymodF) :=
  (polymodFEntries w F).accumulateEnd prd

/-- The variables of the loop of `calculateSqrtRat`. -/
structure RatLoop where
  prd : Table ℤ
  nprd : ℕ
  abPairs : ℕ

/-- `g1*a+g0*b`. -/
def ratValue (pol : CadoPoly) (p : ℤ × ℤ) : ℤ :=
  pol.g 1 * p.1 + pol.g 0 * p.2

/-- A pair is read, and its value accumulated. -/
def ratPair (w : ℕ) (pol : CadoPoly) (s : RatLoop) (p : ℤ × ℤ) : Except SqrtError RatLoop := do
  let abPairs := (s.abPairs + 1) % 2 ^ w
  let prd ← accumulateFast w s.prd (ratValue pol p) s.nprd
  .ok ⟨prd, (s.nprd + 1) % 2 ^ w, abPairs⟩

/-- `calculateSqrtRat` on the pairs of a dependency file, which are read as `long` numbers: what is
written to the other file. -/
def calculateSqrtRat (w : ℕ) (pol : CadoPoly) (depfile : List (ℤ × ℤ)) (Np : ℕ) :
    Except SqrtError ℕ :=
  if pol.degreeg ≠ 1 then .error .nonLinear
  else do
    let s ← depfile.foldlM (ratPair w pol) ⟨(mpzEntries w).start, 0, 0⟩
    let prd ← accumulateFastEnd w s.prd
    let x ← (mpzEntries w).get prd 0
    let x := if s.abPairs % 2 = 1 then x * pol.g 1 else x
    if x < 0 then .error .negative
    else
      let root := Nat.sqrt x.toNat
      if x.toNat - root * root ≠ 0 then .error .remainder
      else if Np = 0 then .error .divisionByZero
      else
        match mpzInvert (pol.g 1 ^ ((s.abPairs + 1) % 2 ^ w / 2) % Np) Np with
        | none => .error .noInverse
        | some v => .ok (root % Np * v % Np)

/-! ## Integers -/

/-- The product of some integers. -/
theorem mpzEntries_lawful (w : ℕ) :
    (mpzEntries w).Lawful (fun x (s : Multiset ℤ) => x = s.prod) (fun x s => x = s.prod)
      (fun _ => True) (fun _ _ => False) where
  one := Multiset.prod_zero.symm
  input := fun _ _ h => h
  reset := fun _ _ => ⟨1, rfl, Multiset.prod_zero.symm⟩
  mul := by
    rintro x y s u rfl rfl
    exact .ok ⟨(Multiset.prod_add s u).symm, fun _ => trivial⟩
  bad_add := fun _ _ _ h => h

/-! ## Elements modulo a polynomial -/

section ModF

variable {F : PolyT} {R : Type*} [CommRing R] {w d : ℕ}

/-- The element is the product of some others, and it is not larger. -/
structure IsProduct (m : ModF F R) (P : PolymodF) (s : Multiset PolymodF) : Prop where
  value_eq : m.value P = (s.map m.value).prod
  cost_le : P.cost ≤ (s.map PolymodF.cost).sum

theorem IsProduct.add {m : ModF F R} {P P₁ P₂ : PolymodF} {s u : Multiset PolymodF}
    (h₁ : IsProduct m P₁ s) (h₂ : IsProduct m P₂ u) (hvalue : m.value P = m.value P₁ * m.value P₂)
    (hcost : P.cost ≤ P₁.cost + P₂.cost) : IsProduct m P (s + u) where
  value_eq := by
    rw [hvalue, h₁.value_eq, h₂.value_eq, Multiset.map_add, Multiset.prod_add]
  cost_le := by
    rw [Multiset.map_add, Multiset.sum_add]
    exact hcost.trans (add_le_add h₁.cost_le h₂.cost_le)

variable (m : ModF F R)

/-- When the product of the elements of `s` can stop with an error. -/
def TreeError (d : ℕ) (e : SqrtError) (s : Multiset PolymodF) : Prop :=
  match e with
  | .poly e => ∃ s₁ s₂, s₁ + s₂ ≤ s ∧
      MulError d e (s₁.map m.value).prod (s₂.map m.value).prod (s.map PolymodF.cost).sum
  | _ => False

theorem setOne_spec {p : PolyT} (halloc : 0 < p.alloc) (hF : 0 < F.deg) :
    (setOne p).Reduced F ∧ IsProduct m (setOne p) 0 := by
  have hfirst : (setOne p).p.coeff 0 = 1 := by
    change Function.update p.coeff 0 1 0 = 1
    exact Function.update_self _ _ _
  have hnormal : (setOne p).p.Normal := by
    refine ⟨Int.negSucc_le_zero 0, Int.natCast_pos.mpr halloc, fun i hi => ?_⟩
    obtain rfl : 0 = i := Int.natCast_inj.mp hi
    rw [hfirst]
    exact one_ne_zero
  have hpoly : (setOne p).p.toPoly = 1 := by
    ext i
    have hdeg : (setOne p).p.deg = 0 := rfl
    rw [coeff_toPoly, Polynomial.coeff_one, hdeg]
    rcases Nat.eq_zero_or_pos i with rfl | hi
    · rw [if_pos (by omega), hfirst, if_pos rfl]
    · rw [if_neg (by omega), if_neg (by omega)]
  have hv : (setOne p).v.toNat = 0 := rfl
  refine ⟨⟨hnormal, hF, le_rfl, halloc⟩, ?_, le_rfl⟩
  rw [ModF.value, hpoly, hv, map_one, pow_zero, mul_one, Multiset.map_zero, Multiset.prod_zero]

/-- The product of some elements. -/
theorem polymodFEntries_lawful (hw : WordFits w d) (hF : F.deg = d) (hd : 0 < d) :
    (polymodFEntries w F).Lawful (fun P s => P.Reduced F ∧ IsProduct m P s)
      (fun P s => P.Input F ∧ IsProduct m P s) (fun P => 0 < P.p.alloc) (TreeError m d) where
  one := by
    refine setOne_spec m ?_ (by omega)
    change 0 < (F.deg + 1).toNat
    omega
  input := fun P s h => ⟨h.1.input, h.2⟩
  reset := fun P hP => ⟨_, if_pos hP, setOne_spec m hP (by omega)⟩
  mul := by
    rintro P₁ P₂ s u ⟨h₁, hs⟩ ⟨h₂, hu⟩
    refine ((polymodFMul_spec m hw hF hd h₁ h₂).mapError fun e he => ?_).bind ?_
    · refine ⟨s, u, le_rfl, ?_⟩
      rw [← hs.value_eq, ← hu.value_eq, Multiset.map_add, Multiset.sum_add]
      exact he.mono (add_le_add hs.cost_le hu.cost_le)
    · rintro Q ⟨hQ, hvalue, hcost⟩
      exact .ok ⟨⟨hQ, hs.add hu hvalue hcost⟩, fun h => h.1.alloc_pos⟩
  bad_add := by
    intro e s u he
    cases e with
    | poly e =>
      obtain ⟨s₁, s₂, hle, he⟩ := he
      refine ⟨s₁, s₂, hle.trans (Multiset.le_add_right s u), he.mono ?_⟩
      rw [Multiset.map_add, Multiset.sum_add]
      exact Nat.le_add_right _ _
    | _ => exact he

end ModF

/-! ## Runs -/

theorem next_of_lt {w n k : ℕ} (hn : n < 2 ^ w) (hk : k < n) : (0 + k + 1) % 2 ^ w = 0 + k + 1 :=
  Nat.mod_eq_of_lt (by omega)

theorem sum_map_singleton {ι : Type*} (as : List ι) :
    0 + (as.map fun a => ({a} : Multiset ι)).sum = as := by
  rw [zero_add, ← Multiset.sum_coe, ← Multiset.map_coe, Multiset.sum_map_singleton]

theorem accumulateFastAll_spec {w : ℕ} {as : List ℤ} (hlen : as.length < 2 ^ w) :
    ∃ t t', accumulateFastAll w as = .ok t ∧ 0 < t.size ∧
      ∏ k ∈ range t.size, t.entry k = as.prod ∧
      accumulateFastEnd w t = .ok t' ∧ t'.size = t.size ∧ t'.entry 0 = as.prod := by
  have hE := mpzEntries_lawful w
  have hinput : ∀ a ∈ as, a = Multiset.prod {a} := fun a _ => (Multiset.prod_singleton a).symm
  have hrun := hE.accumulateAll (fun a => {a}) hinput hE.start fun k hk => next_of_lt hlen hk
  rw [sum_map_singleton] at hrun
  obtain ⟨t, hall, ht⟩ := hrun.exists_ok fun _ h => h
  obtain ⟨t', hend, hsize, hfirst⟩ := (hE.accumulateEnd ht).exists_ok fun _ h => h
  have hprod := ht.prod_eq (fun x => x) Multiset.prod (fun _ _ h => h) Multiset.prod_zero
    Multiset.prod_add
  rw [Multiset.prod_coe] at hprod hfirst
  exact ⟨t, t', hall, ht.pos, hprod, hend, hsize, hfirst⟩

theorem accumulateFastAll_of_wrap {w : ℕ} {as : List ℤ} (hlen : as.length + 1 = 2 ^ w) (a : ℤ) :
    accumulateFastAll w (as ++ [a]) = .error .endless := by
  obtain ⟨t, -, hall, hpos, -⟩ := accumulateFastAll_spec (show as.length < 2 ^ w by omega)
  have hwrap : (mpzEntries w).next (0 + as.length) = 0 := by
    change (0 + as.length + 1) % 2 ^ w = 0
    rw [zero_add, hlen, Nat.mod_self]
  have hconcat := accumulateAll_concat (mpzEntries w) as a (n := 0) (t := (mpzEntries w).start)
    fun k hk => next_of_lt (by omega) hk
  refine hconcat.trans ?_
  rw [show accumulateAll (mpzEntries w).accumulate _ _ as 0 = .ok t from hall]
  change (mpzEntries w).accumulate t a (0 + as.length) = _
  rw [Entries.accumulate, Entries.get_of_lt _ hpos, hwrap]
  change ((mpzEntries w).set t 0 _ >>= (mpzEntries w).carry 0 0) = _
  rw [Entries.set_of_lt _ hpos]
  change (mpzEntries w).carry 0 0 _ = _
  rw [Entries.carry]
  rfl

/-- The tree of products holds the whole product. -/
theorem accumulateFastFAll_spec {F : PolyT} {R : Type*} [CommRing R] (m : ModF F R) {w d : ℕ}
    {as : List PolymodF} (hw : WordFits w d) (hF : F.deg = d) (hd : 0 < d) (hd7 : d ≤ 7)
    (has : ∀ a ∈ as, a.Input F) (hlen : as.length < 2 ^ w)
    (hcost : (as.map PolymodF.cost).sum < 2 ^ 31)
    (hzero : ∀ s₁ s₂ : Multiset PolymodF, s₁ + s₂ ≤ as →
      (s₁.map m.value).prod ≠ 0 ∨ (s₂.map m.value).prod ≠ 0) :
    ∃ t t', accumulateFastFAll w F as = .ok t ∧ 0 < t.size ∧
      ∏ k ∈ range t.size, m.value (t.entry k) = (as.map m.value).prod ∧
      accumulateFastFEnd w F t = .ok t' ∧ t'.size = t.size ∧
      m.value (t'.entry 0) = (as.map m.value).prod := by
  have hE := polymodFEntries_lawful m hw hF hd
  have hbad : ∀ e, ¬TreeError m d e (as : Multiset PolymodF) := by
    rintro (_ | _ | e | _ | _ | _ | _ | _) he
    case poly =>
      obtain ⟨s₁, s₂, hle, he⟩ := he
      rw [Multiset.map_coe, Multiset.sum_coe] at he
      cases e with
      | alloc => exact (hzero s₁ s₂ hle).elim (fun h => h he.1) fun h => h he.2
      | tooLong => exact absurd he.2 (by omega)
      | overflow => exact absurd hcost (not_lt.mpr he)
      | _ => exact he
    all_goals exact he
  have hinput : ∀ a ∈ as, a.Input F ∧ IsProduct m a {a} := fun a ha =>
    ⟨has a ha, (Multiset.prod_singleton (m.value a)).symm, (Multiset.sum_singleton a.cost).ge⟩
  have hrun := hE.accumulateAll (fun a => {a}) hinput hE.start fun k hk => next_of_lt hlen hk
  rw [sum_map_singleton] at hrun
  obtain ⟨t, hall, ht⟩ := hrun.exists_ok hbad
  obtain ⟨t', hend, hsize, -, hfirst⟩ := (hE.accumulateEnd ht).exists_ok hbad
  have hprod := ht.prod_eq m.value (fun s => (s.map m.value).prod) (fun _ _ h => h.2.value_eq)
    Multiset.prod_zero fun s u => by rw [Multiset.map_add, Multiset.prod_add]
  have hvalue := hfirst.value_eq
  rw [Multiset.map_coe, Multiset.prod_coe] at hprod hvalue
  exact ⟨t, t', hall, ht.pos, hprod, hend, hsize, hvalue⟩

/-! ## The rational square root -/

section Rational

variable {w : ℕ} {pol : CadoPoly} {pairs : List (ℤ × ℤ)} {Np : ℕ}

theorem foldlM_ratPair (t : Table ℤ) {n : ℕ} (hn : n + pairs.length < 2 ^ w) :
    pairs.foldlM (ratPair w pol) ⟨t, n, n⟩
      = (fun t => ⟨t, n + pairs.length, n + pairs.length⟩) <$>
        accumulateAll (accumulateFast w) (mpzEntries w).next t (pairs.map (ratValue pol)) n := by
  induction pairs generalizing t n with
  | nil => rfl
  | cons p pairs ih =>
    rw [List.length_cons] at hn ⊢
    have hnext : (mpzEntries w).next n = n + 1 := Nat.mod_eq_of_lt (by omega)
    have hmod : (n + 1) % 2 ^ w = n + 1 := hnext
    rw [List.foldlM_cons, List.map_cons, accumulateAll, ratPair, hmod]
    cases accumulateFast w t (ratValue pol p) n with
    | error e => rfl
    | ok t' =>
      have hrest := ih t' (n := n + 1) (by omega)
      rw [add_right_comm, add_assoc] at hrest
      change pairs.foldlM (ratPair w pol) ⟨t', n + 1, n + 1⟩ = _ <$> accumulateAll _ _ _ _ _
      rw [hnext, hrest]

theorem ratLoop_spec (pol : CadoPoly) (hlen : pairs.length < 2 ^ w) :
    ∃ t t', pairs.foldlM (ratPair w pol) ⟨(mpzEntries w).start, 0, 0⟩
        = .ok ⟨t, pairs.length, pairs.length⟩ ∧
      accumulateFastEnd w t = .ok t' ∧
      (mpzEntries w).get t' 0 = .ok (pairs.map (ratValue pol)).prod := by
  have hmap : (pairs.map (ratValue pol)).length < 2 ^ w := by rwa [List.length_map]
  obtain ⟨t, t', hall, hpos, -, hend, hsize, hfirst⟩ := accumulateFastAll_spec hmap
  refine ⟨t, t', ?_, hend, ?_⟩
  · rw [foldlM_ratPair _ (by omega), ← accumulateFastAll, hall, zero_add]
    rfl
  · rw [Entries.get_of_lt _ (hsize ▸ hpos), hfirst]

theorem prod_ratValue {g : ZMod Np} (hg : (pol.g 1 : ZMod Np) * g = 1) :
    (((pairs.map (ratValue pol)).prod : ℤ) : ZMod Np) = (pol.g 1 : ZMod Np) ^ pairs.length
      * (pairs.map fun p => (p.1 : ZMod Np) + p.2 * (pol.g 0 * g)).prod := by
  induction pairs with
  | nil => simp
  | cons p pairs ih =>
    rw [List.map_cons, List.prod_cons, Int.cast_mul, ih, List.map_cons, List.prod_cons,
      List.length_cons, ratValue, pow_succ]
    push_cast
    linear_combination (-(p.2 * pol.g 0 : ZMod Np) * pol.g 1 ^ pairs.length
      * (pairs.map fun p => (p.1 : ZMod Np) + p.2 * (pol.g 0 * g)).prod) * hg

theorem mpzInvert_pow {g : ℤ} (hNp : Np ≠ 0) (hcoprime : IsCoprime g Np) (k : ℕ) :
    ∃ v, mpzInvert (g ^ k % Np) Np = some v ∧ (g : ZMod Np) ^ k * v = 1 := by
  have hmod : IsCoprime (g ^ k % Np) (Np : ℤ) := by
    rw [Int.emod_def, sub_eq_add_neg, ← mul_neg]
    exact hcoprime.pow_left.add_mul_left_left _
  obtain ⟨v, hv⟩ := mpzInvert_of_isCoprime (Nat.pos_of_ne_zero hNp) hmod
  refine ⟨v, hv, ?_⟩
  have hdvd := dvd_of_mpzInvert hv
  have hcast := (ZMod.intCast_zmod_eq_zero_iff_dvd _ _).mpr hdvd
  rw [Int.cast_sub, Int.cast_mul, Int.cast_natCast, ZMod.intCast_mod, Int.cast_pow, Int.cast_one]
    at hcast
  exact sub_eq_zero.mp hcast

/-- The rational square root squares to the product of the pairs. -/
theorem calculateSqrtRat_spec (hdeg : pol.degreeg = 1) (hNp : Np ≠ 0)
    (hlen : pairs.length + 1 < 2 ^ w) (hcoprime : Int.gcd (pol.g 1) Np = 1)
    (hsquare : IsSquare ((pairs.map (ratValue pol)).prod * pol.g 1 ^ (pairs.length % 2))) :
    ∃ r, calculateSqrtRat w pol pairs Np = .ok r ∧ r < Np ∧
      (r : ZMod Np) ^ 2
        = (pairs.map fun p => (p.1 : ZMod Np) + p.2 * (pol.g 0 * (pol.g 1 : ZMod Np)⁻¹)).prod := by
  obtain ⟨y, hy⟩ := hsquare
  obtain ⟨t, t', hloop, hend, hget⟩ := ratLoop_spec pol (Nat.lt_of_succ_lt hlen)
  rw [← Int.isCoprime_iff_gcd_eq_one] at hcoprime
  obtain ⟨v, hinvert, hv⟩ := mpzInvert_pow hNp hcoprime ((pairs.length + 1) / 2)
  have hg : (pol.g 1 : ZMod Np) * (pol.g 1 : ZMod Np)⁻¹ = 1 :=
    ZMod.coe_int_mul_inv_eq_one hcoprime
  have hx : (if pairs.length % 2 = 1 then (pairs.map (ratValue pol)).prod * pol.g 1
      else (pairs.map (ratValue pol)).prod) = y * y := by
    rw [← hy]
    split_ifs with hodd
    · rw [hodd, pow_one]
    · rw [show pairs.length % 2 = 0 by omega, pow_zero, mul_one]
  have hnat : (y * y).toNat = y.natAbs * y.natAbs := by
    rw [← Int.natAbs_mul_self, Int.toNat_natCast]
  have hroot : Nat.sqrt (y * y).toNat = y.natAbs := by rw [hnat, Nat.sqrt_eq]
  have hrem : (y * y).toNat - y.natAbs * y.natAbs = 0 := by rw [hnat, Nat.sub_self]
  refine ⟨y.natAbs % Np * v % Np, ?_, Nat.mod_lt _ (Nat.pos_of_ne_zero hNp), ?_⟩
  · rw [calculateSqrtRat, if_neg (not_not.mpr hdeg), hloop]
    change (accumulateFastEnd w t >>= _) = _
    rw [hend]
    change ((mpzEntries w).get t' 0 >>= _) = _
    rw [hget]
    dsimp only [bind, Except.bind]
    rw [hx, if_neg (not_lt.mpr (mul_self_nonneg y)), hroot, if_neg (not_not.mpr hrem), if_neg hNp,
      Nat.mod_eq_of_lt hlen, hinvert]
  · have hcast := congrArg (Int.cast : ℤ → ZMod Np) hy
    rw [Int.cast_mul, prod_ratValue hg, Int.cast_pow, Int.cast_mul] at hcast
    have habs : (y.natAbs : ZMod Np) ^ 2 = y * y := by
      rw [sq, ← Nat.cast_mul, ← Int.cast_mul, ← Int.natAbs_mul_self, Int.cast_natCast]
    have hpow : (pol.g 1 : ZMod Np) ^ pairs.length * pol.g 1 ^ (pairs.length % 2)
        = (pol.g 1 ^ ((pairs.length + 1) / 2)) ^ 2 := by
      rw [← pow_add, ← pow_mul]
      exact congrArg _ (by omega)
    obtain ⟨Q, hQ⟩ : ∃ Q, Q = (pairs.map fun p => (p.1 : ZMod Np)
      + p.2 * (pol.g 0 * (pol.g 1 : ZMod Np)⁻¹)).prod := ⟨_, rfl⟩
    rw [ZMod.natCast_mod, Nat.cast_mul, ZMod.natCast_mod, mul_pow, habs, ← hQ]
    rw [← hQ] at hcast
    calc (y * y * v ^ 2 : ZMod Np)
        = (pol.g 1 ^ pairs.length * pol.g 1 ^ (pairs.length % 2)) * Q * v ^ 2 := by
          rw [← hcast]
          ring
      _ = (pol.g 1 ^ ((pairs.length + 1) / 2) * v) ^ 2 * Q := by
          rw [hpow]
          ring
      _ = Q := by rw [hv, one_pow, one_mul]

end Rational

/-! ## Products and roots -/

/-- The polynomial `x ^ 2 - 1`. -/
def quadratic : PolyT := ⟨3, 2, fun i => if i = 0 then -1 else if i = 2 then 1 else 0⟩

/-- The polynomial `x ^ 8 + 1`. -/
def octic : PolyT := ⟨9, 8, fun i => if i = 0 ∨ i = 8 then 1 else 0⟩

/-- The element `x ^ n`. -/
def powerOfX (n : ℕ) : PolymodF := ⟨⟨n + 1, n, fun i => if i = n then 1 else 0⟩, 0⟩

/-- The element zero. -/
def zeroModF : PolymodF := ⟨⟨1, -1, fun _ => 0⟩, 0⟩

/-- The values at 1. -/
noncomputable def quadraticAtOne : ModF quadratic ℤ where
  hom := Polynomial.evalRingHom 1
  inv := 1
  hom_eq_zero := (eval_toPoly (g := quadratic) (r := 2) rfl 1).trans rfl
  hom_mul_inv := by
    rw [Polynomial.coe_evalRingHom, Polynomial.eval_C]
    rfl

theorem powerOfX_input : (powerOfX 1).Input quadratic where
  normal := ⟨by decide, by decide, fun i hi => by
    obtain rfl : 1 = i := Int.natCast_inj.mp hi
    decide⟩
  deg_le := by decide
  v_nonneg := by decide

theorem quadraticAtOne_powerOfX : quadraticAtOne.value (powerOfX 1) = 1 := by
  have hone : quadraticAtOne.hom (powerOfX 1).p.toPoly = 1 :=
    (eval_toPoly (g := (powerOfX 1).p) (r := 1) rfl 1).trans rfl
  rw [ModF.value, hone, one_mul]
  exact one_pow _

theorem accumulateFastFAll_of_error {F : PolyT} {a Q : PolymodF} {e : PolyError}
    (hone : polymodFMul 64 (setOne (polyAlloc F.deg)) (setOne (polyAlloc F.deg)) a F = .ok Q)
    (hmul : polymodFMul 64 Q Q a F = .error e) :
    accumulateFastFAll 64 F [a, a] = .error (.poly e) := by
  obtain ⟨E, hE⟩ : ∃ E, E = polymodFEntries 64 F := ⟨_, rfl⟩
  have hEmul : ∀ P, E.mul P a
      = (polymodFMul 64 P P a F).mapError .poly >>= fun Q => .ok (Q, a) := fun P => by rw [hE]; rfl
  have hstart : E.start.entry 0 = setOne (polyAlloc F.deg) := by rw [hE]; rfl
  have hfirst : E.mul (E.start.entry 0) a = .ok (Q, a) := by
    rw [hstart, hEmul, hone]
    rfl
  have hsecond : E.mul Q a = .error (.poly e) := by
    rw [hEmul, hmul]
    rfl
  have hcarry : ∀ t, E.carry 0 (E.next 0) t = .ok t := fun t => by
    rw [Entries.carry, hE]
    rfl
  have hall : accumulateAll E.accumulate E.next E.start [a, a] 0 = .error (.poly e) := by
    rw [accumulateAll, Entries.accumulate, E.get_of_lt Nat.one_pos]
    change ((E.mul (E.start.entry 0) a >>= fun z => E.set E.start 0 z.1 >>= E.carry 0 _) >>= _) = _
    rw [hfirst]
    change ((E.set E.start 0 Q >>= E.carry 0 (E.next 0)) >>= _) = _
    rw [E.set_of_lt Nat.one_pos]
    change (E.carry 0 (E.next 0) _ >>= _) = _
    rw [hcarry]
    change ((E.mul Q a >>= _) >>= _) = _
    rw [hsecond]
    rfl
  rwa [hE] at hall

end CadoNfs.Sqrt
