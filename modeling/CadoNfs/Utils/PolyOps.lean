import CadoNfs.Utils.PolyMul
import CadoNfs.Macros

/-!
# Operations on polynomials that may share their result

The arithmetic of `poly.c` writes the result while the operands are read, and one of the
operands may be the result.  The degree is set first and every coefficient that is set
may change it.

Main results:

- Theorem `setDown_spec`: coefficients that are set from the last one to the first one.
- Theorem `combine_spec`: the loop of `poly_add` and `poly_sub`.
- Theorem `mapDown_spec`: the loop of the functions with one operand.
- Theorem `polyCall_iff`: when a call returns the polynomial that its name says.
-/

namespace CadoNfs.Poly

open Function (update update_of_ne update_self)
open ForRange Polynomial

/-! ## Code -/

/-- An operand: the polynomial `f` that is the result, or another one. -/
inductive Operand where
  | same
  | other (p : PolyT)

/-- The operand when `f` is the result. -/
def Operand.poly (f : PolyT) : Operand → PolyT
  | same => f
  | other p => p

/-- A coefficient of an operand in a call with `f`, which has become `s`.  A read outside the
array is refused, and one after the degree at the call too. -/
def Operand.read (f s : PolyT) (o : Operand) (i : ℕ) : Option ℤ :=
  if i ≤ (o.poly f).deg ∧ i < (o.poly s).alloc then some ((o.poly s).coeff i) else none

/-- The coefficient `i`, which is not read after `deg`. -/
def Operand.term (f s : PolyT) (o : Operand) (deg : ℤ) (i : ℕ) : Option ℤ :=
  if i ≤ deg then o.read f s i else some 0

/-- `cleandeg`, which reads the coefficient `deg` first. -/
def cleandegRead (f : PolyT) (deg : ℤ) : Option PolyT := do
  assertAlways (deg < f.alloc)
  some (cleandeg f deg)

/-- The loop `for (i = deg; i >= 0; --i) poly_setcoeff (f, i, z)`. -/
def setDown (deg : ℤ) (z : PolyT → ℕ → Option ℤ) (s : PolyT) : Option PolyT :=
  let n := (deg + 1).toNat
  forRangeM n (fun t s => (z s (n - 1 - t)).map (polySetcoeff s (n - 1 - t))) s

/-- The coefficients of `g` and `h` are combined; `gdeg` and `hdeg` are what a pass compares
its index with. -/
def combine (op : ℤ → ℤ → ℤ) (f : PolyT) (g h : Operand) (gdeg hdeg : PolyT → ℤ) :
    Option PolyT := do
  let maxdeg := max (g.poly f).deg (h.poly f).deg
  let f' ← setDown maxdeg (fun s i => do
    let x ← g.term f s (gdeg s) i
    let y ← h.term f s (hdeg s) i
    some (op x y)) { f with deg := maxdeg }
  cleandegRead f' maxdeg

/-- `poly_sub`. -/
def polySub (f : PolyT) (g h : Operand) : Option PolyT :=
  combine (· - ·) f g h (fun s => (g.poly s).deg) fun s => (h.poly s).deg

/-- `poly_sub_mod_mpz`, which keeps the degrees of the operands. -/
def polySubModMpz (f : PolyT) (g h : Operand) (m : ℤ) : Option PolyT := do
  let f' ← combine (· - ·) f g h (fun _ => (g.poly f).deg) fun _ => (h.poly f).deg
  let f' ← forRangeM (f'.deg + 1).toNat (fun i s => do
    assertAlways (i < s.alloc)
    some { s with coeff := update s.coeff i (s.coeff i % m) }) f'
  cleandegRead f' f'.deg

/-- The coefficients of `g` are mapped from the last one to the first one. -/
def mapDown (f : PolyT) (g : Operand) (v : ℤ → ℤ) (s : PolyT) : Option PolyT :=
  setDown (g.poly s).deg (fun s i => (g.read f s i).map v) s

/-- `poly_copy`. -/
def polyCopyTo (f : PolyT) (g : Operand) : Option PolyT :=
  mapDown f g id { f with deg := (g.poly f).deg }

/-- `poly_add` with a result that is no operand. -/
def polyAddApart (f : PolyT) (g h : Operand) : Option PolyT :=
  combine (· + ·) f g h (fun s => (g.poly s).deg) fun s => (h.poly s).deg

/-- `poly_add`. -/
def polyAdd (f : PolyT) : Operand → Operand → Option PolyT
  | .other g, .other h => polyAddApart f (.other g) (.other h)
  | g, h => do
    let aux ← polyAddApart (polyAlloc (-1)) (.other (g.poly f)) (.other (h.poly f))
    polyCopyTo f (.other aux)

/-- `poly_mul_mpz`; the condition of the loop reads the degree again. -/
def polyMulMpzTo (Q : PolyT) (P : Operand) (a : ℤ) : Option PolyT :=
  forRangeM ((P.poly Q).deg + 1).toNat (fun i s =>
    if i ≤ (P.poly s).deg then (P.read Q s i).map fun x => polySetcoeff s i (x * a) else some s)
    { Q with deg := (P.poly Q).deg }

/-- `poly_mul_ui`. -/
def polyMulUi (f : PolyT) (g : Operand) (a : ℕ) : Option PolyT := do
  let f' ← cleandegRead f (g.poly f).deg
  mapDown f g (· * (a : ℤ)) f'

/-- `poly_div_ui`, where `a` divides every coefficient. -/
def polyDivUi (f : PolyT) (g : Operand) (a : ℕ) : Option PolyT :=
  mapDown f g (· / (a : ℤ)) f

/-- `poly_div_2_mod_mpz`. -/
def polyDiv2ModMpz (f : PolyT) (g : Operand) (m : ℤ) : Option PolyT :=
  mapDown f g (fun x => (if x % 2 = 1 then (x + m) / 2 else x / 2) % m) f

/-- `poly_sub_ui`. -/
def polySubUi (f : PolyT) (a : ℕ) : Option PolyT :=
  (Operand.same.read f f 0).map fun x => polySetcoeff f 0 (x - a)

/-- A call whose result is `f`. -/
inductive PolyCall where
  | sub (g h : Operand)
  | subModMpz (g h : Operand) (m : ℤ)
  | add (g h : Operand)
  | mulMpz (P : Operand) (a : ℤ)
  | mulUi (g : Operand) (a : ℕ)
  | divUi (g : Operand) (a : ℕ)
  | div2ModMpz (g : Operand) (m : ℤ)
  | copy (g : Operand)
  | subUi (a : ℕ)

/-- What the call leaves in `f`; `none` is a refused read. -/
def PolyCall.run (f : PolyT) : PolyCall → Option PolyT
  | sub g h => polySub f g h
  | subModMpz g h m => polySubModMpz f g h m
  | add g h => polyAdd f g h
  | mulMpz P a => polyMulMpzTo f P a
  | mulUi g a => polyMulUi f g a
  | divUi g a => polyDivUi f g a
  | div2ModMpz g m => polyDiv2ModMpz f g m
  | copy g => polyCopyTo f g
  | subUi a => polySubUi f a

/-! ## Coefficients from the last one on -/

section Down

variable {s₀ s f : PolyT} {n i : ℕ} {c : ℕ → ℤ}

theorem lastNonzero_eq_of_zero {m : ℕ} (hm : m ≤ n) (hzero : ∀ j, m ≤ j → j < n → c j = 0) :
    lastNonzero c n = lastNonzero c m := by
  induction n, hm using Nat.le_induction with
  | base => rfl
  | succ n hm ih =>
    rw [lastNonzero, if_pos (hzero n hm n.lt_succ_self)]
    exact ih fun j hj hj' => hzero j hj (Nat.lt_succ_of_lt hj')

/-- The first `n` coefficients are those of `c`, and the degree is that of the last of them. -/
structure Trimmed (n : ℕ) (c : ℕ → ℤ) (f : PolyT) : Prop where
  deg : f.deg = lastNonzero f.coeff n
  alloc : n ≤ f.alloc
  coeff : ∀ i < n, f.coeff i = c i

theorem Trimmed.normal (h : Trimmed n c f) : f.Normal where
  neg_one_le := h.deg ▸ neg_one_le_lastNonzero _ _
  deg_lt := by
    have := lastNonzero_lt f.coeff n
    have := h.alloc
    rw [h.deg]
    omega
  last_ne i hi := ne_zero_of_lastNonzero_eq (h.deg.symm.trans hi)

theorem Trimmed.coeff_toPoly (h : Trimmed n c f) (i : ℕ) :
    f.toPoly.coeff i = if i < n then c i else 0 := by
  have hlt := lastNonzero_lt f.coeff n
  have hdeg := h.deg
  rw [Poly.coeff_toPoly]
  split_ifs with h₁ h₂ h₂
  · exact h.coeff i h₂
  · omega
  · rw [← h.coeff i h₂]
    exact (eq_zero_of_lastNonzero_lt h₂ (by omega)).symm
  · rfl

theorem trimmed_cleandeg (f : PolyT) (deg : ℤ) (halloc : (deg + 1).toNat ≤ f.alloc)
    (hcoeff : ∀ i < (deg + 1).toNat, f.coeff i = c i) :
    ∃ f', cleandegRead f deg = some f' ∧ Trimmed (deg + 1).toNat c f' :=
  ⟨cleandeg f deg, by rw [cleandegRead, assertAlways_of_true (by omega)]; rfl, rfl, halloc, hcoeff⟩

/-- The coefficients from `i` on are set, and those before are as in `s₀`. -/
structure Going (s₀ : PolyT) (n : ℕ) (c : ℕ → ℤ) (i : ℕ) (s : PolyT) : Prop where
  start : i = n → s = s₀
  deg : i < n → s.deg = lastNonzero s.coeff n
  alloc : i < n → n ≤ s.alloc
  alloc_le : s₀.alloc ≤ s.alloc
  coeff : ∀ j < n, i ≤ j → s.coeff j = c j
  below : ∀ j < i, j < s₀.alloc → s.coeff j = s₀.coeff j

theorem deg_polySetcoeff_of_le (hi : f.deg ≤ i) (z : ℤ) :
    (polySetcoeff f i z).deg = lastNonzero (polySetcoeff f i z).coeff (i + 1) := by
  simp only [polySetcoeff]
  split_ifs <;> simp_all [cleandeg]

/-- One more coefficient is stored, from the top down. -/
theorem Going.step (h : Going s₀ n c (i + 1) s) (hi : i < n) (hdeg : s₀.deg < n) :
    Going s₀ n c i (polySetcoeff s i (c i)) := by
  have hother : ∀ j < n, j ≠ i → i + 1 < n ∨ j < s₀.alloc →
      (polySetcoeff s i (c i)).coeff j = s.coeff j := by
    intro j hj hne hor
    rw [coeff_polySetcoeff, if_neg hne, if_neg]
    have := h.alloc_le
    have := h.alloc
    omega
  constructor
  · exact fun heq => absurd heq hi.ne
  · intro _
    by_cases hle : s.deg ≤ i
    · rw [deg_polySetcoeff_of_le hle]
      -- what is after `i` was found to be zero
      refine (lastNonzero_eq_of_zero hi fun j hj hj' => ?_).symm
      rw [hother j hj' (by omega) (by omega)]
      exact eq_zero_of_lastNonzero_lt hj' (by rw [← h.deg (by omega)]; omega)
    · have hlt : i + 1 < n := by
        by_contra hnot
        rw [h.start (by omega)] at hle
        omega
      have hold := h.deg hlt
      have hn := lastNonzero_lt s.coeff n
      obtain ⟨d, hd⟩ := Int.eq_ofNat_of_zero_le (show 0 ≤ s.deg by omega)
      rw [deg_polySetcoeff_of_lt (not_le.mp hle), hd, eq_comm]
      refine lastNonzero_eq (by omega) ?_ fun j hj hj' => ?_
      · rw [hother d (by omega) (by omega) (Or.inl hlt)]
        exact ne_zero_of_lastNonzero_eq (hold.symm.trans hd)
      · rw [hother j hj' (by omega) (Or.inl hlt)]
        exact eq_zero_of_lastNonzero_lt hj' (by omega)
  · intro _
    have := h.alloc
    rw [alloc_polySetcoeff]
    omega
  · have := h.alloc_le
    rw [alloc_polySetcoeff]
    omega
  · intro j hj hij
    rcases hij.eq_or_lt with rfl | hlt
    · rw [coeff_polySetcoeff, if_pos rfl]
    · rw [hother j hj hlt.ne' (by omega), h.coeff j hj hlt]
  · intro j hj hj'
    rw [hother j (hj.trans hi) hj.ne (Or.inr hj'), h.below j (by omega) hj']

theorem Going.trimmed (h : Going s₀ n c 0 s) (hpos : 0 < n) : Trimmed n c s :=
  ⟨h.deg hpos, h.alloc hpos, fun i hi => h.coeff i hi i.zero_le⟩

/-- Coefficients that are set from the last one to the first one. -/
theorem setDown_spec (s₀ : PolyT) (deg : ℤ) {z : PolyT → ℕ → Option ℤ} (hlow : -1 ≤ s₀.deg)
    (hdeg : s₀.deg ≤ deg)
    (hz : ∀ i : ℕ, i ≤ deg → ∀ s, Going s₀ (deg + 1).toNat c (i + 1) s → z s i = some (c i)) :
    ∃ s, setDown deg z s₀ = some s ∧ Trimmed (deg + 1).toNat c s := by
  obtain ⟨n, hn⟩ : ∃ n, n = (deg + 1).toNat := ⟨_, rfl⟩
  rw [← hn] at hz ⊢
  obtain ⟨s, hrun, hs⟩ := forRangeM_induct
    (motive := fun t s => Going s₀ n c (n - t) s)
    (fun t s => (z s (n - 1 - t)).map (polySetcoeff s (n - 1 - t))) s₀ n
    ⟨fun _ => rfl, fun h => by omega, fun h => by omega, le_rfl, fun j hj hj' => by omega,
      fun _ _ _ => rfl⟩ fun t ht s hs => by
      obtain ⟨i, hi⟩ : ∃ i, n - 1 - t = i := ⟨_, rfl⟩
      rw [show n - t = i + 1 by omega] at hs
      rw [show n - (t + 1) = i by omega, hi, hz i (by omega) s hs]
      exact ⟨_, rfl, hs.step (by omega) (by omega)⟩
  rw [Nat.sub_self] at hs
  refine ⟨s, by rw [setDown, ← hn]; exact hrun, ?_⟩
  rcases n.eq_zero_or_pos with rfl | hpos
  · rw [hs.start rfl]
    exact ⟨by rw [lastNonzero]; omega, Nat.zero_le _, fun i hi => absurd hi i.not_lt_zero⟩
  · exact hs.trimmed hpos

theorem setDown_eq_none {k : ℕ} {z : PolyT → ℕ → Option ℤ} (hz : z s k = none) :
    setDown k z s = none := by
  rw [setDown, show ((k : ℤ) + 1).toNat = k + 1 by omega]
  simp [forRangeM_first, hz]

theorem PolyT.Normal.deg_eq (hf : f.Normal) : f.deg = lastNonzero f.coeff (f.deg + 1).toNat := by
  rcases hf.neg_one_le.eq_or_lt with hneg | hpos
  · rw [← hneg]
    rfl
  · obtain ⟨k, hk⟩ := Int.eq_ofNat_of_zero_le (show 0 ≤ f.deg by omega)
    rw [lastNonzero_eq (i := k) (by omega) (hf.last_ne k hk) fun j hj hj' => by omega, hk]

end Down

/-! ## Operands -/

section Operands

variable {f s : PolyT} {d : ℤ} {n i : ℕ} {c : ℕ → ℤ} {g h : Operand}

/-- What a coefficient is for the caller. -/
noncomputable abbrev Operand.value (f : PolyT) (o : Operand) (i : ℕ) : ℤ :=
  (o.poly f).toPoly.coeff i

theorem value_of_le (hi : i ≤ (g.poly f).deg) : g.value f i = (g.poly f).coeff i := by
  rw [Operand.value, coeff_toPoly, if_pos hi]

theorem value_of_lt (hi : (g.poly f).deg < i) : g.value f i = 0 := by
  rw [Operand.value, coeff_toPoly, if_neg (not_le.mpr hi)]

theorem read_of_lt (hi : (g.poly f).deg < i) : g.read f s i = none :=
  if_neg fun h => absurd h.1 (not_le.mpr hi)

section

variable (hg : (g.poly f).Normal)
include hg

theorem read_of_keep (hi : i ≤ (g.poly f).deg)
    (halloc : f.alloc ≤ s.alloc) (hkeep : i < f.alloc → s.coeff i = f.coeff i) :
    g.read f s i = some (g.value f i) := by
  have hlt := hg.deg_lt
  rw [value_of_le hi]
  cases g with
  | other p => exact if_pos ⟨hi, show i < p.alloc by simp only [Operand.poly] at hi hlt; omega⟩
  | same =>
    have hif : i < f.alloc := by simp only [Operand.poly] at hi hlt; omega
    exact (if_pos ⟨hi, hif.trans_le halloc⟩).trans (congrArg some (hkeep hif))

/-- What has not been set yet is read as it was at the call. -/
theorem read_spec (hs : Going { f with deg := d } n c (i + 1) s)
    (hi : i ≤ (g.poly f).deg) : g.read f s i = some (g.value f i) :=
  read_of_keep hg hi hs.alloc_le (hs.below i i.lt_succ_self)

theorem term_spec (hs : Going { f with deg := d } n c (i + 1) s) :
    g.term f s (g.poly f).deg i = some (g.value f i) := by
  rw [Operand.term]
  split_ifs with hi
  · exact read_spec hg hs hi
  · rw [value_of_lt (not_le.mp hi)]

/-- The degree of a result that is an operand of this degree only passes zeros by. -/
theorem term_changing (hin : i < n) (hn : d + 1 = n)
    (hs : Going { f with deg := d } n c (i + 1) s) (hsame : g = .same → f.deg = d) :
    g.term f s (g.poly s).deg i = some (g.value f i) := by
  cases g with
  | other p => exact term_spec (g := .other p) hg hs
  | same =>
    have hd := hsame rfl
    have hi : (i : ℤ) ≤ f.deg := by omega
    have hdeg : f.deg < f.alloc := hg.deg_lt
    rw [Operand.term]
    split_ifs with hle
    · exact read_spec hg hs hi
    · change ¬(i : ℤ) ≤ s.deg at hle
      have hlt : i + 1 < n := by
        by_contra hnot
        rw [hs.start (by omega)] at hle
        exact hle (show (i : ℤ) ≤ d by omega)
      have hzero := eq_zero_of_lastNonzero_lt hin (by rw [← hs.deg hlt]; omega)
      have hbelow : s.coeff i = f.coeff i := hs.below i i.lt_succ_self (show i < f.alloc by omega)
      rw [value_of_le (g := .same) hi]
      exact congrArg some (hzero.symm.trans hbelow)

end

/-- The loop of `poly_add` and `poly_sub`. -/
theorem combine_spec {op : ℤ → ℤ → ℤ} (hop : op 0 0 = 0) (gdeg hdeg : PolyT → ℤ)
    (hg : (g.poly f).Normal) (hmax : d = max (g.poly f).deg (h.poly f).deg)
    (hz : ∀ i s, i < (d + 1).toNat →
      (∃ c, Going { f with deg := d } (d + 1).toNat c (i + 1) s) →
        g.term f s (gdeg s) i = some (g.value f i) ∧
          h.term f s (hdeg s) i = some (h.value f i)) :
    ∃ f', combine op f g h gdeg hdeg = some f' ∧ f'.Normal ∧
      ∀ i, f'.toPoly.coeff i = op (g.value f i) (h.value f i) := by
  have hlow := hg.neg_one_le
  obtain ⟨s, hrun, hs⟩ := setDown_spec { f with deg := d } d
    (c := fun i => op (g.value f i) (h.value f i)) (z := fun s i => do
      let x ← g.term f s (gdeg s) i
      let y ← h.term f s (hdeg s) i
      some (op x y)) (show -1 ≤ d by omega) le_rfl fun i hi s hs => by
        obtain ⟨hgi, hhi⟩ := hz i s (by omega) ⟨_, hs⟩
        simp [hgi, hhi, some_bind]
  obtain ⟨f', hclean, hf'⟩ := trimmed_cleandeg s d hs.alloc hs.coeff
  refine ⟨f', ?_, hf'.normal, fun i => ?_⟩
  · rw [combine, ← hmax]
    exact (congrArg (·.bind fun s => cleandegRead s d) hrun).trans hclean
  · rw [hf'.coeff_toPoly]
    split_ifs with hi
    · rfl
    · rw [value_of_lt (by omega), value_of_lt (by omega), hop]

/-- The loop of the functions with one operand. -/
theorem mapDown_spec {v : ℤ → ℤ} (hv : v 0 = 0) (hg : (g.poly f).Normal) (hlow : -1 ≤ d)
    (hdeg : d ≤ (g.poly f).deg) (hsame : g = .same → d = f.deg) :
    ∃ f', mapDown f g v { f with deg := d } = some f' ∧ f'.Normal ∧
      ∀ i, f'.toPoly.coeff i = v (g.value f i) := by
  obtain ⟨f', hrun, hf'⟩ := setDown_spec { f with deg := d } (g.poly f).deg
    (c := fun i => v (g.value f i)) (z := fun s i => (g.read f s i).map v) hlow hdeg
    fun i hi s hs => by rw [read_spec hg hs hi, Option.map_some]
  refine ⟨f', ?_, hf'.normal, fun i => ?_⟩
  · rw [mapDown, ← hrun]
    cases g with
    | other p => rfl
    | same => rw [show (Operand.same.poly { f with deg := d }).deg = f.deg from hsame rfl]; rfl
  · rw [hf'.coeff_toPoly]
    split_ifs with hi
    · rfl
    · rw [value_of_lt (by omega), hv]

/-- A result of larger degree keeps its last coefficient. -/
theorem mapDown_stale {p : PolyT} {v : ℤ → ℤ} (hp : p.Normal) (hf : f.Normal)
    (hlt : p.deg < f.deg) {f' : PolyT} (hrun : mapDown f (.other p) v f = some f') :
    ∃ i : ℕ, p.deg < i ∧ f'.toPoly.coeff i ≠ 0 := by
  have hplow := hp.neg_one_le
  have hplt := hp.deg_lt
  have hflt := hf.deg_lt
  obtain ⟨k, hk⟩ := Int.eq_ofNat_of_zero_le (show 0 ≤ f.deg by omega)
  obtain ⟨s, hs, hdeg, -, hlast⟩ := forRangeM_induct
    (motive := fun _ (s : PolyT) => s.deg = k ∧ f.alloc ≤ s.alloc ∧ s.coeff k = f.coeff k)
    (fun t s => (((Operand.other p).read f s ((p.deg + 1).toNat - 1 - t)).map v).map
      (polySetcoeff s ((p.deg + 1).toNat - 1 - t))) f (p.deg + 1).toNat ⟨hk, le_rfl, rfl⟩
    fun t ht s ⟨hdeg, halloc, hlast⟩ => by
      obtain ⟨i, hi⟩ : ∃ i, (p.deg + 1).toNat - 1 - t = i := ⟨_, rfl⟩
      have hread : (Operand.other p).read f s i = some (p.coeff i) :=
        if_pos ⟨by simp only [Operand.poly]; omega, by simp only [Operand.poly]; omega⟩
      rw [hi, hread]
      refine ⟨_, rfl, ?_, ?_, ?_⟩
      · rw [deg_polySetcoeff_of_lt (by omega), hdeg]
      · rw [alloc_polySetcoeff]
        omega
      · rw [coeff_polySetcoeff, if_neg (by omega), if_neg (by omega), hlast]
  obtain rfl : s = f' := Option.some_inj.mp (hs.symm.trans hrun)
  refine ⟨k, by omega, ?_⟩
  rw [coeff_toPoly, if_pos hdeg.ge, hlast]
  exact hf.last_ne k hk

end Operands

/-! ## Calls -/

section Calls

variable {f : PolyT} {g h : Operand}

/-- The operands are normal, no modulus is zero, and a division is possible. -/
def PolyCall.Valid (f : PolyT) : PolyCall → Prop
  | sub g h | add g h => (g.poly f).Normal ∧ (h.poly f).Normal
  | subModMpz g h m => (g.poly f).Normal ∧ (h.poly f).Normal ∧ m ≠ 0
  | mulMpz g _ | mulUi g _ | copy g => (g.poly f).Normal
  | divUi g a => (g.poly f).Normal ∧ a ≠ 0 ∧ ∀ i, (a : ℤ) ∣ g.value f i
  | div2ModMpz g m => (g.poly f).Normal ∧ m % 2 = 1
  | subUi _ => True

/-- The polynomial is what the name of the call says. -/
def PolyCall.IsResult (f : PolyT) (p : ℤ[X]) : PolyCall → Prop
  | sub g h => p = (g.poly f).toPoly - (h.poly f).toPoly
  | subModMpz g h m => ∀ i, p.coeff i = (g.value f i - h.value f i) % m
  | add g h => p = (g.poly f).toPoly + (h.poly f).toPoly
  | mulMpz P a => p = (P.poly f).toPoly * C a
  | mulUi g a => p = (g.poly f).toPoly * C (a : ℤ)
  | divUi g a => p * C (a : ℤ) = (g.poly f).toPoly
  | div2ModMpz g m => ∀ i, 0 ≤ p.coeff i ∧ p.coeff i < |m| ∧ m ∣ 2 * p.coeff i - g.value f i
  | copy g => p = (g.poly f).toPoly
  | subUi a => p = f.toPoly - C (a : ℤ)

/-- No read is refused, and the normal polynomial that the name says is returned. -/
def PolyCall.Meets (f : PolyT) (call : PolyCall) : Prop :=
  ∃ f', call.run f = some f' ∧ f'.Normal ∧ call.IsResult f f'.toPoly

/-- The cases that the functions provide for. -/
def PolyCall.Safe (f : PolyT) : PolyCall → Prop
  | sub g h => (g = .same → (h.poly f).deg ≤ f.deg) ∧ (h = .same → (g.poly f).deg ≤ f.deg)
  | mulUi g _ => (g.poly f).deg < f.alloc
  | divUi g _ | div2ModMpz g _ => f.deg ≤ (g.poly f).deg
  | subUi _ => 0 ≤ f.deg
  | subModMpz .. | add .. | mulMpz .. | copy _ => True

theorem polySub_spec (hg : (g.poly f).Normal) (hsameg : g = .same → (h.poly f).deg ≤ f.deg)
    (hh : (h.poly f).Normal) (hsameh : h = .same → (g.poly f).deg ≤ f.deg) :
    ∃ f', polySub f g h = some f' ∧ f'.Normal ∧
      ∀ i, f'.toPoly.coeff i = g.value f i - h.value f i := by
  refine combine_spec (sub_zero 0) _ _ hg rfl fun i s hi ⟨c, hs⟩ =>
    ⟨term_changing hg hi (by omega) hs fun heq => ?_,
      term_changing hh hi (by omega) hs fun heq => ?_⟩
  · subst heq
    exact (max_eq_left (hsameg rfl)).symm
  · subst heq
    exact (max_eq_right (hsameh rfl)).symm

theorem polySub_eq_none (hf : -1 ≤ f.deg) (hshared : g = .same ∧ f.deg < (h.poly f).deg ∨
    h = .same ∧ f.deg < (g.poly f).deg) : polySub f g h = none := by
  obtain ⟨k, hk⟩ := Int.eq_ofNat_of_zero_le
    (show 0 ≤ max (g.poly f).deg (h.poly f).deg by omega)
  have hread : ∀ o : Operand, o = .same → f.deg < k →
      o.term f { f with deg := k } (o.poly { f with deg := k }).deg k = none := by
    rintro o rfl hlt
    exact (if_pos le_rfl).trans (read_of_lt hlt)
  rw [polySub, combine, hk]
  refine (congrArg (·.bind fun s => cleandegRead s k) (setDown_eq_none ?_)).trans rfl
  rcases hshared with ⟨rfl, hlt⟩ | ⟨rfl, hlt⟩
  · have hmax : max f.deg (h.poly f).deg = k := hk
    rw [hread .same rfl (by omega)]
    rfl
  · have hmax : max (g.poly f).deg f.deg = k := hk
    simp [hread .same rfl (by omega)]

/-- The difference is reduced coefficient by coefficient. -/
theorem polySubModMpz_spec (m : ℤ) (hg : (g.poly f).Normal) (hh : (h.poly f).Normal) :
    ∃ f', polySubModMpz f g h m = some f' ∧ f'.Normal ∧
      ∀ i, f'.toPoly.coeff i = (g.value f i - h.value f i) % m := by
  obtain ⟨r, hrun, hr, hcoeff⟩ := combine_spec (f := f) (h := h) (sub_zero 0)
    (fun _ => (g.poly f).deg) (fun _ => (h.poly f).deg) hg rfl
    fun i s hi ⟨c, hs⟩ => ⟨term_spec hg hs, term_spec hh hs⟩
  have hlt := hr.deg_lt
  obtain ⟨s, hloop, halloc, hdeg, hs, -⟩ := forRangeM_induct
    (motive := fun t (s : PolyT) => s.alloc = r.alloc ∧ s.deg = r.deg ∧
      (∀ i < t, s.coeff i = r.coeff i % m) ∧ ∀ i, t ≤ i → s.coeff i = r.coeff i)
    (fun i s => do
      assertAlways (i < s.alloc)
      some { s with coeff := update s.coeff i (s.coeff i % m) }) r (r.deg + 1).toNat
    ⟨rfl, rfl, fun i hi => absurd hi i.not_lt_zero, fun _ _ => rfl⟩
    fun t ht s ⟨halloc, hdeg, hbefore, hafter⟩ => by
      rw [assertAlways_of_true (by omega)]
      refine ⟨_, rfl, halloc, hdeg, fun i hi => ?_, fun i hi => ?_⟩
      · obtain hi | rfl := Nat.lt_succ_iff_lt_or_eq.mp hi
        · exact (update_of_ne hi.ne _ _).trans (hbefore i hi)
        · exact (update_self _ _ _).trans (by rw [hafter i le_rfl])
      · exact (update_of_ne (by omega) _ _).trans (hafter i (by omega))
  obtain ⟨f', hclean, hf'⟩ := trimmed_cleandeg s s.deg (by omega)
    (hdeg ▸ hs)
  refine ⟨f', ?_, hf'.normal, fun i => ?_⟩
  · rw [polySubModMpz, Option.bind_eq_bind]
    refine (congrArg (Option.bind · _) hrun).trans ?_
    exact (congrArg (Option.bind · _) hloop).trans hclean
  · rw [hf'.coeff_toPoly, ← hcoeff, coeff_toPoly]
    split_ifs with h₁ h₂ h₂
    · rfl
    · omega
    · omega
    · exact (Int.zero_emod m).symm

theorem polyCopyTo_spec (hg : (g.poly f).Normal) :
    ∃ f', polyCopyTo f g = some f' ∧ f'.Normal ∧ ∀ i, f'.toPoly.coeff i = g.value f i :=
  mapDown_spec rfl hg hg.neg_one_le le_rfl fun heq => by rw [heq]; rfl

theorem polyAdd_spec (hg : (g.poly f).Normal) (hh : (h.poly f).Normal) :
    ∃ f', polyAdd f g h = some f' ∧ f'.Normal ∧
      ∀ i, f'.toPoly.coeff i = g.value f i + h.value f i := by
  have hapart : ∀ (f : PolyT) {p q : PolyT}, p.Normal → q.Normal →
      ∃ f', polyAddApart f (.other p) (.other q) = some f' ∧ f'.Normal ∧
        ∀ i, f'.toPoly.coeff i = p.toPoly.coeff i + q.toPoly.coeff i := fun f p q hp hq =>
    combine_spec (g := .other p) (h := .other q) (add_zero 0) _ _ hp rfl
      fun i s hi ⟨c, hs⟩ => ⟨term_spec (g := .other p) hp hs, term_spec (g := .other q) hq hs⟩
  obtain ⟨aux, hrun, haux, hvalue⟩ := hapart (polyAlloc (-1)) hg hh
  obtain ⟨f', hcopy, hf', hcoeff⟩ := polyCopyTo_spec (f := f) (g := .other aux) haux
  have hshared : ∃ f', (do
      let aux ← polyAddApart (polyAlloc (-1)) (.other (g.poly f)) (.other (h.poly f))
      polyCopyTo f (.other aux)) = some f' ∧ f'.Normal ∧
      ∀ i, f'.toPoly.coeff i = g.value f i + h.value f i :=
    ⟨f', by rw [hrun]; exact hcopy, hf', fun i => (hcoeff i).trans (hvalue i)⟩
  cases g with
  | same => exact hshared
  | other p =>
    cases h with
    | same => exact hshared
    | other q => exact hapart f hg hh

/-- Every coefficient is multiplied, also in place. -/
theorem polyMulMpzTo_spec (a : ℤ) (hg : (g.poly f).Normal) :
    ∃ f', polyMulMpzTo f g a = some f' ∧ f'.Normal ∧
      ∀ i, f'.toPoly.coeff i = g.value f i * a := by
  obtain ⟨n, hn⟩ : ∃ n, n = ((g.poly f).deg + 1).toNat := ⟨_, rfl⟩
  have hlow := hg.neg_one_le
  obtain ⟨s, hrun, -, hdeg, halloc, -, hcoeff, -⟩ := forRangeM_induct
    (motive := fun t (s : PolyT) => (t < n → s.deg = (g.poly f).deg) ∧
      (t = n → s.deg = lastNonzero s.coeff n) ∧ t ≤ s.alloc ∧ f.alloc ≤ s.alloc ∧
      (∀ i < t, s.coeff i = g.value f i * a) ∧ ∀ i, t ≤ i → i < f.alloc → s.coeff i = f.coeff i)
    (fun i s => if i ≤ (g.poly s).deg then (g.read f s i).map fun x => polySetcoeff s i (x * a)
      else some s) { f with deg := (g.poly f).deg } n
    ⟨fun _ => rfl, fun h0 => by rw [← h0, lastNonzero]; show (g.poly f).deg = -1; omega,
      Nat.zero_le _, le_rfl, fun i hi => absurd hi i.not_lt_zero, fun _ _ _ => rfl⟩
    fun t ht s ⟨hdeg, _, halloc, hle, hbefore, hafter⟩ => by
      have hs : (g.poly s).deg = (g.poly f).deg := by
        cases g with
        | same => exact hdeg ht
        | other p => rfl
      have hd := hdeg ht
      rw [if_pos (by omega), read_of_keep hg (by omega) hle (hafter t le_rfl)]
      refine ⟨_, rfl, fun hlt => ?_, fun heq => ?_, ?_, ?_, fun i hi => ?_, fun i hi hi' => ?_⟩
      · rw [deg_polySetcoeff_of_lt (by omega), hd]
      · rw [deg_polySetcoeff_of_le (by omega), heq]
      · rw [alloc_polySetcoeff]
        omega
      · rw [alloc_polySetcoeff]
        omega
      · rw [coeff_polySetcoeff]
        split_ifs with h₁ h₂
        · rw [h₁]
        · omega
        · exact hbefore i (by omega)
      · rw [coeff_polySetcoeff, if_neg (by omega), if_neg (by omega)]
        exact hafter i (by omega) hi'
  have htrim : Trimmed n (fun i => g.value f i * a) s := ⟨hdeg rfl, halloc, hcoeff⟩
  refine ⟨s, by rw [polyMulMpzTo, ← hn]; exact hrun, htrim.normal, fun i => ?_⟩
  rw [htrim.coeff_toPoly]
  split_ifs with hi
  · rfl
  · rw [value_of_lt (by omega), zero_mul]

theorem polyMulUi_spec (a : ℕ) (hg : (g.poly f).Normal) (halloc : (g.poly f).deg < f.alloc) :
    ∃ f', polyMulUi f g a = some f' ∧ f'.Normal ∧
      ∀ i, f'.toPoly.coeff i = g.value f i * a := by
  have hlow := hg.neg_one_le
  have hlt := lastNonzero_lt f.coeff ((g.poly f).deg + 1).toNat
  obtain ⟨f', hrun, hf'⟩ := mapDown_spec (f := f) (v := (· * (a : ℤ))) (zero_mul _) hg
    (neg_one_le_lastNonzero f.coeff ((g.poly f).deg + 1).toNat) (by omega) fun heq => by
      subst heq
      exact hg.deg_eq.symm
  exact ⟨f', by rw [polyMulUi, cleandegRead, assertAlways_of_true halloc]; exact hrun, hf'⟩

theorem polySubUi_spec (a : ℕ) (hf : f.Normal) (hdeg : 0 ≤ f.deg) :
    ∃ f', polySubUi f a = some f' ∧ f'.Normal ∧ f'.toPoly = f.toPoly - C (a : ℤ) := by
  obtain ⟨n, hn⟩ : ∃ n, n = (f.deg + 1).toNat := ⟨_, rfl⟩
  have hlt := hf.deg_lt
  have hgoing : Going f n (fun i => f.coeff i - if i = 0 then (a : ℤ) else 0) 1 f :=
    ⟨fun _ => rfl, fun _ => hn ▸ hf.deg_eq, fun _ => by omega, le_rfl,
      fun j _ hj => by rw [if_neg (by omega), sub_zero], fun _ _ _ => rfl⟩
  have htrim := (hgoing.step (i := 0) (by omega) (by omega)).trimmed (by omega)
  refine ⟨_, ?_, htrim.normal, ?_⟩
  · rw [polySubUi, Operand.read, if_pos ⟨hdeg, by simp only [Operand.poly]; omega⟩]
    rfl
  · ext i
    rw [htrim.coeff_toPoly, coeff_sub, coeff_C, coeff_toPoly]
    split_ifs <;> omega

/-- A division is right when no coefficient of the result is left over. -/
theorem mapDown_iff {v : ℤ → ℤ} {W : ℕ → ℤ → Prop} (hv : v 0 = 0) (hf : f.Normal)
    (hg : (g.poly f).Normal) (hW : ∀ i, W i (v (g.value f i)))
    (hzero : ∀ i z, g.value f i = 0 → W i z → z = 0) :
    (∃ f', mapDown f g v f = some f' ∧ f'.Normal ∧ ∀ i, W i (f'.toPoly.coeff i)) ↔
      f.deg ≤ (g.poly f).deg := by
  constructor
  · rintro ⟨f', hrun, -, hf'⟩
    by_contra hlt
    cases g with
    | same => exact hlt le_rfl
    | other p =>
      obtain ⟨i, hi, hne⟩ := mapDown_stale hg hf (not_le.mp hlt) hrun
      exact hne (hzero i _ (value_of_lt (g := .other p) hi) (hf' i))
  · intro hle
    obtain ⟨f', hrun, hf', hcoeff⟩ := mapDown_spec hv hg hf.neg_one_le hle fun _ => rfl
    exact ⟨f', hrun, hf', fun i => hcoeff i ▸ hW i⟩

theorem half_spec {m : ℤ} (hm : m % 2 = 1) (x : ℤ) :
    m ∣ 2 * ((if x % 2 = 1 then (x + m) / 2 else x / 2) % m) - x := by
  have hhalf : m ∣ 2 * (if x % 2 = 1 then (x + m) / 2 else x / 2) - x := by
    split_ifs with hx
    · rw [show 2 * ((x + m) / 2) - x = m by omega]
    · rw [show 2 * (x / 2) - x = 0 by omega]
      exact dvd_zero m
  rw [Int.emod_def, mul_sub, sub_right_comm, mul_left_comm]
  exact dvd_sub hhalf (dvd_mul_right m _)

/-- When a call returns the polynomial that its name says. -/
theorem polyCall_iff {call : PolyCall} (hf : f.Normal) (hvalid : call.Valid f) :
    call.Meets f ↔ call.Safe f := by
  cases call with
  | sub g h =>
    refine ⟨fun ⟨f', hrun, _⟩ => ?_, fun ⟨hsameg, hsameh⟩ => ?_⟩
    · by_contra hnot
      have hnone : polySub f g h = none := polySub_eq_none hf.neg_one_le (by
        simpa only [PolyCall.Safe, not_and_or, Classical.not_imp, not_le] using hnot)
      exact Option.some_ne_none _ (hrun.symm.trans hnone)
    · obtain ⟨f', hrun, hf', hcoeff⟩ := polySub_spec hvalid.1 hsameg hvalid.2 hsameh
      exact ⟨f', hrun, hf', Polynomial.ext fun i => (hcoeff i).trans (coeff_sub ..).symm⟩
  | subModMpz g h m => exact iff_of_true (polySubModMpz_spec m hvalid.1 hvalid.2.1) trivial
  | add g h =>
    obtain ⟨f', hrun, hf', hcoeff⟩ := polyAdd_spec hvalid.1 hvalid.2
    exact iff_of_true
      ⟨f', hrun, hf', Polynomial.ext fun i => (hcoeff i).trans (coeff_add ..).symm⟩ trivial
  | mulMpz P a =>
    obtain ⟨f', hrun, hf', hcoeff⟩ := polyMulMpzTo_spec a hvalid
    exact iff_of_true
      ⟨f', hrun, hf', Polynomial.ext fun i => (hcoeff i).trans (coeff_mul_C ..).symm⟩ trivial
  | mulUi g a =>
    refine ⟨fun ⟨f', hrun, _⟩ => ?_, fun hsafe => ?_⟩
    · by_contra hnot
      change ¬(g.poly f).deg < f.alloc at hnot
      rw [PolyCall.run, polyMulUi, cleandegRead, assertAlways_of_false hnot] at hrun
      cases hrun
    · obtain ⟨f', hrun, hf', hcoeff⟩ := polyMulUi_spec a hvalid hsafe
      exact ⟨f', hrun, hf', Polynomial.ext fun i => (hcoeff i).trans (coeff_mul_C ..).symm⟩
  | divUi g a =>
    obtain ⟨hg, ha, hdvd⟩ := hvalid
    have ha' : (a : ℤ) ≠ 0 := Int.natCast_ne_zero.mpr ha
    simp only [PolyCall.Meets, PolyCall.IsResult, Polynomial.ext_iff, coeff_mul_C]
    exact mapDown_iff (W := fun i z => z * a = g.value f i) (Int.zero_ediv _) hf hg
      (fun i => Int.ediv_mul_cancel (hdvd i))
      fun i z hi hz => (mul_eq_zero.mp (hz.trans hi)).resolve_right ha'
  | div2ModMpz g m =>
    obtain ⟨hg, hm⟩ := hvalid
    have hm' : m ≠ 0 := by rintro rfl; cases hm
    refine mapDown_iff (W := fun i z => 0 ≤ z ∧ z < |m| ∧ m ∣ 2 * z - g.value f i)
      (Int.zero_emod m) hf hg
      (fun i => ⟨Int.emod_nonneg _ hm', Int.emod_lt_abs _ hm', half_spec hm _⟩) ?_
    rintro i z hi ⟨hz, hlt, hmod⟩
    rw [hi, sub_zero] at hmod
    have hcop : IsCoprime m 2 := ⟨1, -(m / 2), by omega⟩
    exact Int.eq_zero_of_abs_lt_dvd ((abs_dvd m z).mpr (hcop.dvd_of_dvd_mul_left hmod))
      ((abs_of_nonneg hz).trans_lt hlt)
  | copy g =>
    obtain ⟨f', hrun, hf', hcoeff⟩ := polyCopyTo_spec hvalid
    exact iff_of_true ⟨f', hrun, hf', Polynomial.ext hcoeff⟩ trivial
  | subUi a =>
    refine ⟨fun ⟨f', hrun, _⟩ => ?_, fun hsafe => polySubUi_spec a hf hsafe⟩
    by_contra hnot
    have hlt : f.deg < 0 := not_le.mp hnot
    rw [PolyCall.run, polySubUi, read_of_lt (g := .same) hlt] at hrun
    cases hrun

/-- The polynomial `1` with another coefficient in the array. -/
def polyOne : PolyT := ⟨2, 0, fun i => if i = 0 then 1 else 5⟩

/-- The polynomial `X`. -/
def polyX : PolyT := ⟨2, 1, fun i => if i = 1 then 1 else 0⟩

theorem normal_polyX : polyX.Normal :=
  ⟨by decide, by decide, fun i hi => by rw [← Int.natCast_inj.mp hi]; decide⟩

theorem polyCall_iff_sub :
    (PolyCall.sub (.other polyX) .same).Meets polyX ↔
      (PolyCall.sub (.other polyX) .same).Safe polyX :=
  polyCall_iff normal_polyX ⟨normal_polyX, normal_polyX⟩

/-- The difference `1 - X` is not computed in the place of `1`. -/
theorem not_meets_sub :
    polyOne.Normal ∧ (PolyCall.sub .same (.other polyX)).Valid polyOne ∧
      ¬(PolyCall.sub .same (.other polyX)).Meets polyOne := by
  have hone : polyOne.Normal :=
    ⟨by decide, by decide, fun i hi => by rw [← Int.natCast_inj.mp hi]; decide⟩
  exact ⟨hone, ⟨hone, normal_polyX⟩, fun ⟨f', hrun, _⟩ => nomatch hrun⟩

end Calls

end CadoNfs.Poly
