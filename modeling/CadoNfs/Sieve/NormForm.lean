import CadoNfs.Lib.BinaryForm
import CadoNfs.Lib.ForRange
import CadoNfs.Sieve.BinGcd
import CadoNfs.Sieve.Plattice
import CadoNfs.Sieve.Qlattice

/-!
# Norms in the coordinates of the sieve

`fij_from_f` of `las.c` substitutes the basis of the sieved lattice in the homogeneous
form of a polynomial, in place and one coefficient after the other; `eval_fij` evaluates
the absolute value of a form, and `xToAB` goes from a position of the sieve region to the
point of the lattice.

Main results:

- Theorem `fijPass_translated`: one coefficient is taken in.
- Theorem `form_fijFromF`: the form after the substitution.
- Theorem `fijFromF_spec`: norms may be computed in either coordinates.
- Theorem `xToAB_spec`: the point for a position.
-/

namespace CadoNfs

open Function (update update_of_ne update_self)
open ForRange BinaryForm

/-! ## Code -/

/-- The locals of `fij_from_f`. -/
structure FijState where
  fij : ℕ → ℤ
  g : ℕ → ℤ
  f0 : ℤ

/-- The first part of a pass of `fij_from_f`: the translated coefficients are multiplied by
`a0*i+a1`. -/
def translateFij (si : Qlattice) (d k : ℕ) (fij : ℕ → ℤ) : ℕ → ℤ :=
  let fij := update fij k (fij (k + 1) * si.a1)
  let fij := forRange (d - 1 - k) (fun t fij => update fij (k + 1 + t)
    (fij (k + 1 + t) * si.a0 + fij (k + 1 + t + 1) * si.a1)) fij
  update fij d (fij d * si.a0)

/-- The second part of a pass: the next power of `b0*i+b1`. -/
def raiseG (si : Qlattice) (m : ℕ) (g : ℕ → ℤ) : ℕ → ℤ :=
  let g := update g m (g (m - 1) * si.b0)
  let g := forRange (m - 1) (fun t g => update g (m - 1 - t)
    (g (m - 1 - t) * si.b1 + g (m - 1 - t - 1) * si.b0)) g
  update g 0 (g 0 * si.b1)

/-- The pass of `fij_from_f` for `k`. -/
def fijPass (si : Qlattice) (d k : ℕ) (s : FijState) : FijState :=
  let f0 := s.fij k
  let fij := translateFij si d k (update s.fij k s.f0)
  let g := raiseG si (d - k) s.g
  let fij := forRange (d + 1 - k) (fun t fij => update fij (k + t)
    (fij (k + t) + g t * f0)) fij
  ⟨fij, g, f0⟩

/-- `fij_from_f`. -/
def fijFromF (fij : ℕ → ℤ) (si : Qlattice) (f : ℕ → ℤ) (d : ℕ) : ℕ → ℤ :=
  let fij := forRange (d + 1) (fun k fij => update fij k (f k)) fij
  let g := update (fun _ => 0) 0 1
  (forRange d (fun t => fijPass si d (d - 1 - t)) ⟨fij, g, 0⟩).fij

/-- `eval_fij`; the state of its loop is `v` and `jpow`. -/
def evalFij (f : ℕ → ℤ) (d : ℕ) (i : ℤ) (j : ℕ) : ℤ :=
  let s := forRange d (fun t (s : ℤ × ℤ) =>
    let jpow := s.2 * j
    (s.1 * i + f (d - 1 - t) * jpow, jpow)) (f d, 1)
  |s.1|

/-- `xToAB`. -/
def xToAB (x : ℕ) (si : SieveInfo) (basis : Qlattice) : Option (ℤ × ℕ) := do
  let i : ℤ := ((x &&& (si.I - 1) : ℕ) : ℤ) - (si.I >>> 1 : ℕ)
  let j : ℤ := (x >>> si.logI : ℕ)
  let ia ← toInt64 (i * basis.a0)
  let ja ← toInt64 (j * basis.a1)
  let a ← toInt64 (ia + ja)
  let ib ← toInt64 (i * basis.b0)
  let jb ← toInt64 (j * basis.b1)
  let c ← toInt64 (ib + jb)
  if c ≥ 0 then some (a, c.toNat)
  else do
    let a ← toInt64 (-a)
    some (a, (-c).toNat)

/-! ## One pass -/

variable {si : Qlattice} {d k m : ℕ}

/-- The point of the lattice at `(i, j)`. -/
def Qlattice.pointA (si : Qlattice) (i j : ℤ) : ℤ := si.a0 * i + si.a1 * j

/-- The point of the lattice at `(i, j)`. -/
def Qlattice.pointB (si : Qlattice) (i j : ℤ) : ℤ := si.b0 * i + si.b1 * j

variable (fij : ℕ → ℤ)

variable (si) in
theorem translateFij_apply (hk : k < d) : translateFij si d k fij k = fij (k + 1) * si.a1 ∧
      (∀ l, k < l → l < d → translateFij si d k fij l = fij l * si.a0 + fij (l + 1) * si.a1) ∧
      translateFij si d k fij d = fij d * si.a0 ∧
      ∀ l < k, translateFij si d k fij l = fij l := by
  have houter : ∀ {l} (fij : ℕ → ℤ), l ≤ k ∨ d ≤ l →
      forRange (d - 1 - k) (fun t fij => update fij (k + 1 + t)
        (fij (k + 1 + t) * si.a0 + fij (k + 1 + t + 1) * si.a1)) fij l = fij l :=
    fun fij hl => forRange_inPlace_of_ne _ (fun t ht => by omega) fij
  refine ⟨?_, fun l hkl hld => ?_, ?_, fun l hl => ?_⟩
  · rw [translateFij, update_of_ne hk.ne, houter _ (.inl le_rfl), update_self]
  · obtain ⟨t, rfl⟩ := Nat.exists_eq_add_of_le (show k + 1 ≤ l from hkl)
    rw [translateFij, update_of_ne hld.ne]
    rw [forRange_inPlace_apply
      (fun t (fij : ℕ → ℤ) => fij (k + 1 + t) * si.a0 + fij (k + 1 + t + 1) * si.a1)
      (fun _ _ _ _ heq => by omega) (fun u _ ws ws' hws => by
        rw [hws _ fun v hv => by omega, hws _ fun v hv => by omega]) (show t < d - 1 - k by omega)]
    rw [update_of_ne (by omega), update_of_ne (by omega)]
  · rw [translateFij, update_self, houter _ (.inr le_rfl), update_of_ne hk.ne']
  · rw [translateFij, update_of_ne (by omega), houter _ (.inl hl.le), update_of_ne hl.ne]

variable (si m) in
theorem raiseG_apply (g : ℕ → ℤ) :
    raiseG si (m + 1) g 0 = si.b1 * g 0 ∧
      (∀ l < m, raiseG si (m + 1) g (l + 1) = si.b0 * g l + si.b1 * g (l + 1)) ∧
      raiseG si (m + 1) g (m + 1) = si.b0 * g m := by
  have houter : ∀ {l} (g : ℕ → ℤ), l = 0 ∨ m < l →
      forRange m (fun t g => update g (m - t)
        (g (m - t) * si.b1 + g (m - t - 1) * si.b0)) g l = g l :=
    fun g hl => forRange_inPlace_of_ne _ (fun t ht => by omega) g
  refine ⟨?_, fun l hl => ?_, ?_⟩
  · rw [raiseG, update_self, Nat.add_sub_cancel, houter _ (.inl rfl),
      update_of_ne (by omega), mul_comm]
  · obtain ⟨t, ht, hlt⟩ : ∃ t < m, l + 1 = m - t := ⟨m - 1 - l, by omega, by omega⟩
    have hcell := forRange_inPlace_apply (p := fun t => m - t)
      (fun t (g : ℕ → ℤ) => g (m - t) * si.b1 + g (m - t - 1) * si.b0)
      (fun _ _ _ _ heq => by omega)
      (fun u _ ws ws' hws => by
        rw [hws _ fun v hv => by omega, hws _ fun v hv => by omega])
      ht (update g (m + 1) (g m * si.b0))
    rw [raiseG, update_of_ne (by omega), Nat.add_sub_cancel, hlt, hcell, ← hlt,
      update_of_ne (by omega), Nat.add_sub_cancel, update_of_ne (by omega)]
    ring
  · rw [raiseG, update_of_ne (by omega), Nat.add_sub_cancel, houter _ (.inr (by omega)),
      update_self, mul_comm]

/-- After the passes down to `k`, the coefficients from there on are those of the
translated form, and `g` is a power. -/
structure Translated (si : Qlattice) (f : ℕ → ℤ) (d k : ℕ) (s : FijState) : Prop where
  form : ∀ x y : ℤ, form (d - k) (fun l => s.fij (k + l)) x y
    = form (d - k) (fun l => f (k + l)) (si.pointA x y) (si.pointB x y)
  power : ∀ x y : ℤ, BinaryForm.form (d - k) s.g x y = si.pointB x y ^ (d - k)
  rest : ∀ l < k, s.fij l = f l

/-- One coefficient is taken in. -/
theorem fijPass_translated {f : ℕ → ℤ} {s : FijState} (hk : k < d)
    (h : Translated si f d (k + 1) s) : Translated si f d k (fijPass si d k s) := by
  obtain ⟨n, rfl⟩ := Nat.exists_eq_add_of_lt hk
  have hn : k + n + 1 - (k + 1) = n := by omega
  have hn' : k + n + 1 - k = n + 1 := by omega
  have hform := h.form
  have hpower := h.power
  rw [hn] at hform hpower
  obtain ⟨hfirst, hmid, hlast, hrest⟩ :=
    translateFij_apply si (update s.fij k s.f0) hk
  obtain ⟨gfirst, gmid, glast⟩ := raiseG_apply si n s.g
  set fij := translateFij si (k + n + 1) k (update s.fij k s.f0)
  set g := raiseG si (n + 1) s.g
  -- the two products
  have hproduct : ∀ x y : ℤ, BinaryForm.form (n + 1) (fun l => fij (k + l)) x y
      = si.pointA x y * BinaryForm.form n (fun l => s.fij (k + 1 + l)) x y := by
    refine fun x y => form_linear_mul ?_ (fun l hl => ?_) ?_ x y
    · rw [add_zero, hfirst, update_of_ne (by omega), mul_comm]
    · rw [hmid _ (by omega) (by omega), update_of_ne (by omega), update_of_ne (by omega)]
      rw [show k + (l + 1) = k + 1 + l by omega, mul_comm si.a0, mul_comm si.a1]
      rfl
    · rw [show k + (n + 1) = k + n + 1 by omega, hlast, update_of_ne (by omega),
        show k + 1 + n = k + n + 1 by omega, mul_comm]
  have hraise : ∀ x y : ℤ, BinaryForm.form (n + 1) g x y = si.pointB x y ^ (n + 1) := by
    intro x y
    rw [form_linear_mul gfirst gmid glast, hpower, pow_succ, mul_comm]
    rfl
  -- the last loop of the pass
  have hadd : ∀ l ≤ n + 1, (fijPass si (k + n + 1) k s).fij (k + l)
      = fij (k + l) + g l * f k := by
    intro l hl
    have hcell := forRange_inPlace_apply (p := fun t => k + t)
      (fun t (fij : ℕ → ℤ) => fij (k + t) + g t * s.fij k)
      (fun _ _ _ _ heq => by omega)
      (fun u _ ws ws' hws => by rw [hws _ fun v hv => by omega])
      (show l < k + n + 1 + 1 - k by omega) fij
    rw [← h.rest k (Nat.lt_succ_self k), ← hcell, fijPass, hn']
  constructor
  · intro x y
    have hscale : form (n + 1) (fun l => g l * f k) x y = f k * si.pointB x y ^ (n + 1) := by
      rw [← hraise, ← form_const_mul]
      exact form_congr (fun l _ => mul_comm _ _) x y
    have hshift : (fun l => f (k + (l + 1))) = fun l => f (k + 1 + l) :=
      funext fun l => congrArg f (by omega)
    rw [hn', form_congr hadd, form_add, hproduct, hform, hscale, form_succ, hshift]
    rfl
  · rw [hn', fijPass, hn']
    exact hraise
  · intro l hl
    rw [fijPass]
    dsimp only
    rw [forRange_inPlace_of_ne (fun t (fij : ℕ → ℤ) => fij (k + t) + raiseG si (k + n + 1 - k) s.g t
      * s.fij k) (fun t _ => by omega)]
    exact (hrest l hl).trans ((update_of_ne hl.ne _ _).trans (h.rest l (by omega)))

/-! ## The whole substitution -/

section

variable (si : Qlattice) (f : ℕ → ℤ) (d : ℕ)

theorem translated_start : Translated si f d d
      ⟨forRange (d + 1) (fun k fij => update fij k (f k)) fij,
        update (fun _ => 0) 0 1, 0⟩ := by
  have hcopy : ∀ l ≤ d, forRange (d + 1) (fun k fij => update fij k (f k)) fij l = f l :=
    fun l hl => forRange_update_apply f (p := fun k => k) (fun _ _ _ _ h => h)
      (Nat.lt_succ_iff.mpr hl) fij
  constructor
  · intro x y
    rw [Nat.sub_self, form_zero, form_zero]
    exact hcopy _ le_rfl
  · intro x y
    rw [Nat.sub_self, form_zero, pow_zero]
    rfl
  · exact fun l hl => hcopy l hl.le

/-- The form after the substitution. -/
theorem form_fijFromF (x y : ℤ) :
    form d (fijFromF fij si f d) x y = form d f (si.pointA x y) (si.pointB x y) := by
  have hrun := forRange_induct (motive := fun t s => Translated si f d (d - t) s)
    (fun t => fijPass si d (d - 1 - t)) _ d (translated_start fij si f d)
    (fun t ht s hs => ?_)
  · have hform := hrun.form x y
    simp only [Nat.sub_self, Nat.sub_zero, zero_add] at hform
    exact hform
  · have hk : d - t = d - 1 - t + 1 := by omega
    rw [hk] at hs
    rw [show d - (t + 1) = d - 1 - t by omega]
    exact fijPass_translated (by omega) hs

end

variable (f : ℕ → ℤ)

theorem evalFij_eq (d : ℕ) (i : ℤ) (j : ℕ) : evalFij f d i j = |form d f i j| := by
  have hrun := forRange_induct
    (motive := fun t (s : ℤ × ℤ) => s.1 = form t (fun l => f (d - t + l)) i j ∧ s.2 = (j : ℤ) ^ t)
    (fun t (s : ℤ × ℤ) => (s.1 * i + f (d - 1 - t) * (s.2 * j), s.2 * j)) (f d, 1) d
    (by simp) (fun t ht s hs => ?_)
  · rw [evalFij, hrun.1]
    simp
  · refine ⟨?_, ?_⟩
    · dsimp only
      have hshift : (fun l => f (d - 1 - t + (l + 1))) = fun l => f (d - t + l) :=
        funext fun l => congrArg f (by omega)
      rw [hs.1, hs.2, form_succ, ← pow_succ, mul_comm i, show d - (t + 1) = d - 1 - t by omega,
        hshift]
      rfl
    · rw [hs.2, pow_succ]

theorem abs_form_neg (d : ℕ) (x y : ℤ) : |form d f (-x) (-y)| = |form d f x y| := by
  rw [form_neg, abs_mul, abs_pow, abs_neg, abs_one, one_pow, one_mul]

section

variable (si : Qlattice) (f : ℕ → ℤ) (d : ℕ)

theorem evalFij_fijFromF {i a : ℤ} {j b : ℕ} (h : a = si.pointA i j ∧ (b : ℤ) = si.pointB i j ∨
      a = -si.pointA i j ∧ (b : ℤ) = -si.pointB i j) :
    evalFij (fijFromF fij si f d) d i j = evalFij f d a b := by
  rw [evalFij_eq, evalFij_eq, form_fijFromF]
  rcases h with ⟨ha, hb⟩ | ⟨ha, hb⟩
  · rw [ha, hb]
  · rw [ha, hb, abs_form_neg]

/-- The form after the substitution, and the norms. -/
theorem fijFromF_spec :
    (∀ i j : ℤ, ∑ k ∈ Finset.range (d + 1), fijFromF fij si f d k * i ^ k * j ^ (d - k)
      = ∑ k ∈ Finset.range (d + 1),
        f k * (si.a0 * i + si.a1 * j) ^ k * (si.b0 * i + si.b1 * j) ^ (d - k)) ∧
    ∀ (i a : ℤ) (j b : ℕ),
      (a = si.a0 * i + si.a1 * j ∧ (b : ℤ) = si.b0 * i + si.b1 * j ∨
        a = -(si.a0 * i + si.a1 * j) ∧ (b : ℤ) = -(si.b0 * i + si.b1 * j)) →
      evalFij (fijFromF fij si f d) d i j = evalFij f d a b :=
  ⟨form_fijFromF fij si f d, fun _ _ _ _ h => evalFij_fijFromF fij si f d h⟩

end

/-- The point `(-4, 1)` is the opposite of a pair with positive `b`. -/
theorem fijFromF_spec_opposite :
    evalFij (fijFromF (fun _ => 0) ⟨1, 2, 3, 5⟩ (fun k => 5 + k) 2) 2 (-4) 1
      = evalFij (fun k => 5 + k) 2 1 3 :=
  (fijFromF_spec (fun _ => 0) ⟨1, 2, 3, 5⟩ (fun k => 5 + k) 2).2 (-4) 1 1 3 (by decide)

example : (List.range 3).map (fijFromF (fun _ => 0) ⟨1, 2, 3, 4⟩ (fun k => 5 + k) 2)
    = [215, 182, 39] := by
  decide

/-! ## The point for a position -/

/-- The column of a position. -/
def SieveInfo.column (si : SieveInfo) (x : ℕ) : ℤ :=
  ((x &&& (si.I - 1) : ℕ) : ℤ) - (si.I >>> 1 : ℕ)

/-- The line of a position. -/
def SieveInfo.line (si : SieveInfo) (x : ℕ) : ℕ := x >>> si.logI

/-- The point, or the opposite one. -/
theorem xToAB_spec {x : ℕ} {si : SieveInfo} {basis : Qlattice} {a : ℤ} {b : ℕ}
    (h : xToAB x si basis = some (a, b)) :
    a = basis.pointA (si.column x) (si.line x) ∧
        (b : ℤ) = basis.pointB (si.column x) (si.line x) ∨
      a = -basis.pointA (si.column x) (si.line x) ∧
        (b : ℤ) = -basis.pointB (si.column x) (si.line x) := by
  unfold xToAB at h
  simp only [Option.bind_eq_bind, Option.bind_eq_some_iff] at h
  obtain ⟨ia, hia, ja, hja, a', ha', ib, hib, jb, hjb, c, hc, h⟩ := h
  obtain rfl := toInt64_eq_some hia
  obtain rfl := toInt64_eq_some hja
  obtain rfl := toInt64_eq_some ha'
  obtain rfl := toInt64_eq_some hib
  obtain rfl := toInt64_eq_some hjb
  obtain rfl := toInt64_eq_some hc
  unfold Qlattice.pointA Qlattice.pointB SieveInfo.column SieveInfo.line
  rw [mul_comm basis.a0, mul_comm basis.a1, mul_comm basis.b0, mul_comm basis.b1]
  split_ifs at h with hsign
  · obtain ⟨rfl, rfl⟩ := Prod.mk.inj (Option.some_inj.mp h)
    exact .inl ⟨rfl, Int.toNat_of_nonneg hsign⟩
  · obtain ⟨a'', ha'', h⟩ := Option.bind_eq_some_iff.mp h
    obtain rfl := toInt64_eq_some ha''
    obtain ⟨rfl, rfl⟩ := Prod.mk.inj (Option.some_inj.mp h)
    exact .inr ⟨rfl, Int.toNat_of_nonneg (by omega)⟩

theorem evalFij_xToAB (d : ℕ) {x : ℕ} {si : SieveInfo}
    {basis : Qlattice} {a : ℤ} {b : ℕ} (h : xToAB x si basis = some (a, b)) :
    evalFij (fijFromF fij basis f d) d (si.column x) (si.line x) = evalFij f d a b :=
  evalFij_fijFromF fij basis f d (xToAB_spec h)

end CadoNfs
