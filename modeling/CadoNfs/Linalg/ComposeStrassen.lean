import Mathlib.Algebra.Field.ZMod
import Mathlib.Algebra.Module.ZMod
import Mathlib.Algebra.Algebra.Bilinear
import CadoNfs.Lib.ForRange
import CadoNfs.Lib.Strassen
import CadoNfs.Macros

/-!
# Products of matrices of transforms

The function `compose` of `lingen_mat_types.hpp`: the product of two matrices whose
entries are transforms of polynomials over GF(2), with three loops or with the recursion of
Strassen.

Main results:

- Theorem `composeInner_spec`: what `compose_inner` returns is the product.
- Theorem `composeInner_isSome_iff`: no assertion fails exactly when the dimensions are
  even wherever the recursion halves them.
- Theorem `compose_iff`: the products of `lingen` are right exactly when the entries
  are short or the odd parts of the dimensions are less than four.
-/

namespace CadoNfs.Lingen

open Function (update update_of_ne update_self)
open ForRange Finset

/-! ## Code -/

/-- A transform: `size` objects of `sizeofT` bytes, with `o.compose`. -/
structure FftType (T : Type) [AddCommGroup T] [Module (ZMod 2) T] where
  size : ℕ
  sizeofT : ℕ
  compose : T →ₗ[ZMod 2] T →ₗ[ZMod 2] T

/-- `tpolmat` with its dimensions; `poly` is read within these only. -/
structure TPolmat (T : Type) (nrows ncols : ℕ) where
  poly : ℕ × ℕ → T

/-- The four matrices that `splitin4` fills. -/
structure Quarters (T : Type) (nrows ncols : ℕ) where
  dst00 : TPolmat T nrows ncols
  dst01 : TPolmat T nrows ncols
  dst10 : TPolmat T nrows ncols
  dst11 : TPolmat T nrows ncols

section Code

variable {T : Type} {m k n : ℕ}

/-- `nbits`, an `unsigned int`. -/
def FftType.nbits [AddCommGroup T] [Module (ZMod 2) T] (o : FftType T) : ℕ :=
  o.size * o.sizeofT * 8 % 2 ^ 32

/-- The copies of `glue4` and `splitin4` from one matrix to another one, between
corners; the copies into other matrices or corners are loops of their own. -/
def cpyLoop (nr nc i0 j0 : ℕ) (src : ℕ × ℕ → T) (i1 j1 : ℕ) (dst : ℕ × ℕ → T) : ℕ × ℕ → T :=
  forRange nr (fun i => forRange nc fun j dst =>
    update dst (i + i1, j + j1) (src (i + i0, j + j0))) dst

/-- `glue4`. -/
def glue4 (dst : TPolmat T m n) (s00 s01 s10 s11 : TPolmat T (m / 2) (n / 2)) : TPolmat T m n :=
  let nr2 := m / 2
  let nc2 := n / 2
  let x := cpyLoop nr2 nc2 0 0 s00.poly 0 0 dst.poly
  let x := cpyLoop nr2 nc2 0 0 s01.poly 0 nc2 x
  let x := cpyLoop nr2 nc2 0 0 s10.poly nr2 0 x
  ⟨cpyLoop nr2 nc2 0 0 s11.poly nr2 nc2 x⟩

/-- `splitin4`, into new matrices; `x` is what their storage holds at first. -/
def splitin4 (x : ℕ × ℕ → T) (s : TPolmat T m n) : Option (Quarters T (m / 2) (n / 2)) := do
  assertAlways (m % 2 = 0)
  assertAlways (n % 2 = 0)
  let nr2 := m / 2
  let nc2 := n / 2
  some {
    dst00 := ⟨cpyLoop nr2 nc2 0 0 s.poly 0 0 x⟩
    dst01 := ⟨cpyLoop nr2 nc2 0 nc2 s.poly 0 0 x⟩
    dst10 := ⟨cpyLoop nr2 nc2 nr2 0 s.poly 0 0 x⟩
    dst11 := ⟨cpyLoop nr2 nc2 nr2 nc2 s.poly 0 0 x⟩ }

/-- `strassen_default_selector`. -/
def strassenDefaultSelector (m n p nbits : ℕ) : Bool :=
  let minsize := 4
  let minbits := 12800
  !(m < minsize || n < minsize || p < minsize || nbits < minbits)

variable [AddCommGroup T]

/-- `add`.  A pass reads the cell that it writes and no other one of `dst`, which may be
one of the sources. -/
def add (dst s1 s2 : TPolmat T m n) : TPolmat T m n :=
  ⟨forRange m (fun i => forRange n fun j dst =>
    update dst (i, j) (s1.poly (i, j) + s2.poly (i, j))) dst.poly⟩

/-- `compose_strassen` into a new matrix, where `composeInner` is
`compose_inner` on the halves and `x` is what new matrices hold at first. -/
def composeStrassen (x : ℕ × ℕ → T)
    (composeInner : TPolmat T (m / 2) (k / 2) → TPolmat T (k / 2) (n / 2) →
      Option (TPolmat T (m / 2) (n / 2)))
    (s1 : TPolmat T m k) (s2 : TPolmat T k n) : Option (TPolmat T m n) := do
  let A ← splitin4 x s1
  let tmpA : TPolmat T (m / 2) (k / 2) := ⟨x⟩
  let B ← splitin4 x s2
  let tmpB : TPolmat T (k / 2) (n / 2) := ⟨x⟩
  let tmpA := add tmpA A.dst00 A.dst11
  let tmpB := add tmpB B.dst00 B.dst11
  let M1 ← composeInner tmpA tmpB
  let tmpA := add tmpA A.dst10 A.dst11
  let M2 ← composeInner tmpA B.dst00
  let tmpB := add tmpB B.dst01 B.dst11
  let M3 ← composeInner A.dst00 tmpB
  let tmpB := add tmpB B.dst10 B.dst00
  let M4 ← composeInner A.dst11 tmpB
  let tmpA := add tmpA A.dst00 A.dst01
  let M5 ← composeInner tmpA B.dst11
  let tmpA := add tmpA A.dst10 A.dst00
  let tmpB := add tmpB B.dst00 B.dst01
  let M6 ← composeInner tmpA tmpB
  let tmpA := add tmpA A.dst01 A.dst11
  let tmpB := add tmpB B.dst10 B.dst11
  let M7 ← composeInner tmpA tmpB
  let M7 := add M7 M7 M1
  let M7 := add M7 M7 M4
  let M7 := add M7 M7 M5
  let M5 := add M5 M5 M3
  let M4 := add M4 M4 M2
  let M6 := add M6 M6 M1
  let M6 := add M6 M6 M2
  let M6 := add M6 M6 M3
  some (glue4 ⟨x⟩ M7 M5 M4 M6)

variable [Module (ZMod 2) T]

/-- The three loops of `compose_inner`, on a matrix that is zero. -/
def composeLoops (o : FftType T) (s1 : TPolmat T m k) (s2 : TPolmat T k n) : TPolmat T m n :=
  ⟨forRange n (fun j => forRange k fun l => forRange m fun i tmp =>
    update tmp (i, j)
      (tmp (i, j) + o.compose (s1.poly (i, l)) (s2.poly (l, j)))) 0⟩

/-- `compose_inner` with the default selector; `none` is a failed assertion. -/
def composeInner (o : FftType T) (x : ℕ × ℕ → T) {m k n : ℕ} (s1 : TPolmat T m k)
    (s2 : TPolmat T k n) : Option (TPolmat T m n) :=
  if _h : strassenDefaultSelector m k n o.nbits then
    composeStrassen x (composeInner o x) s1 s2
  else
    some (composeLoops o s1 s2)
termination_by m
decreasing_by
  simp only [strassenDefaultSelector, Bool.not_eq_true', Bool.or_eq_false_iff,
    decide_eq_false_iff_not] at _h
  omega

/-- `compose`. -/
def compose (o : FftType T) (x : ℕ × ℕ → T) (s1 : TPolmat T m k) (s2 : TPolmat T k n) :
    Option (TPolmat T m n) :=
  composeInner o x s1 s2

end Code

/-! ## Loops -/

section Loops

variable {T : Type} {m k n : ℕ}

section

variable {nr nc i0 j0 i1 j1 : ℕ} (src dst : ℕ × ℕ → T)

theorem cpyLoop_apply {i j : ℕ} (hi : i < nr) (hj : j < nc) :
    cpyLoop nr nc i0 j0 src i1 j1 dst (i + i1, j + j1) = src (i + i0, j + j0) := by
  rw [cpyLoop, forRange_nested_at_only
    (fun i j dst => update dst (i + i1, j + j1) (src (i + i0, j + j0))) hi hj]
  · exact update_self _ _ _
  · intro i' _ j' _ hne ws
    refine update_of_ne (fun h => hne ?_) _ _
    obtain ⟨hrow, hcol⟩ := Prod.mk.inj h
    exact Prod.ext (by simp only; omega) (by simp only; omega)
  · intro ws ws' _
    rw [update_self, update_self]

theorem cpyLoop_of_ne {p : ℕ × ℕ} (hp : ∀ i < nr, ∀ j < nc, p ≠ (i + i1, j + j1)) :
    cpyLoop nr nc i0 j0 src i1 j1 dst p = dst p :=
  forRange_nested_at_id (fun i hi j hj _ => update_of_ne (hp i hi j hj) _ _) dst

end

theorem glue4_poly (dst : TPolmat T m n) (s00 s01 s10 s11 : TPolmat T (m / 2) (n / 2)) {i j : ℕ}
    (hi : i < m / 2) (hj : j < n / 2) :
    (glue4 dst s00 s01 s10 s11).poly (i, j) = s00.poly (i, j) ∧
      (glue4 dst s00 s01 s10 s11).poly (i, j + n / 2) = s01.poly (i, j) ∧
      (glue4 dst s00 s01 s10 s11).poly (i + m / 2, j) = s10.poly (i, j) ∧
      (glue4 dst s00 s01 s10 s11).poly (i + m / 2, j + n / 2) = s11.poly (i, j) := by
  refine ⟨?_, ?_, ?_, ?_⟩
  · dsimp only [glue4]
    rw [cpyLoop_of_ne _ _ fun i' _ j' _ h => ?_, cpyLoop_of_ne _ _ fun i' _ j' _ h => ?_,
      cpyLoop_of_ne _ _ fun i' _ j' _ h => ?_]
    · exact cpyLoop_apply s00.poly dst.poly hi hj
    all_goals
      obtain ⟨hrow, hcol⟩ := Prod.mk.inj h
      omega
  · dsimp only [glue4]
    rw [cpyLoop_of_ne _ _ fun i' _ j' _ h => ?_, cpyLoop_of_ne _ _ fun i' _ j' _ h => ?_]
    · exact cpyLoop_apply s01.poly _ hi hj
    all_goals
      obtain ⟨hrow, hcol⟩ := Prod.mk.inj h
      omega
  · dsimp only [glue4]
    rw [cpyLoop_of_ne _ _ fun i' _ j' _ h => ?_]
    · exact cpyLoop_apply s10.poly _ hi hj
    · obtain ⟨hrow, hcol⟩ := Prod.mk.inj h
      omega
  · exact cpyLoop_apply s11.poly _ hi hj

variable (x : ℕ × ℕ → T) (s : TPolmat T m n)

theorem splitin4_spec (hm : m % 2 = 0) (hn : n % 2 = 0) :
    ∃ A, splitin4 x s = some A ∧ ∀ i < m / 2, ∀ j < n / 2,
      A.dst00.poly (i, j) = s.poly (i, j) ∧ A.dst01.poly (i, j) = s.poly (i, j + n / 2) ∧
        A.dst10.poly (i, j) = s.poly (i + m / 2, j) ∧
        A.dst11.poly (i, j) = s.poly (i + m / 2, j + n / 2) := by
  refine ⟨_, by simp only [splitin4, assertAlways_of_true hm, assertAlways_of_true hn]; rfl,
    fun i hi j hj => ?_⟩
  exact ⟨cpyLoop_apply s.poly x hi hj, cpyLoop_apply s.poly x hi hj,
    cpyLoop_apply s.poly x hi hj, cpyLoop_apply s.poly x hi hj⟩

theorem splitin4_eq_none (h : m % 2 ≠ 0 ∨ n % 2 ≠ 0) : splitin4 x s = none := by
  unfold splitin4
  by_cases hm : m % 2 = 0
  · rw [assertAlways_of_true hm, assertAlways_of_false (h.resolve_left (not_not.mpr hm))]
    rfl
  · rw [assertAlways_of_false hm]
    rfl

/-- The entries of a matrix within its dimensions. -/
def Holds (f : ℕ × ℕ → T) : Prop :=
  ∀ i < m, ∀ j < n, s.poly (i, j) = f (i, j)

/-- The quarter of `s` in which `i` rows and `j` columns of quarters are left out. -/
def quarter (i j : ℕ) : ℕ × ℕ → T :=
  Strassen.corner (i * (m / 2)) (j * (n / 2)) s.poly

theorem splitin4_quarter (hm : m % 2 = 0) (hn : n % 2 = 0) :
    ∃ A, splitin4 x s = some A ∧ Holds A.dst00 (quarter s 0 0) ∧ Holds A.dst01 (quarter s 0 1) ∧
      Holds A.dst10 (quarter s 1 0) ∧ Holds A.dst11 (quarter s 1 1) := by
  obtain ⟨A, hrun, hA⟩ := splitin4_spec x s hm hn
  simp only [quarter, Strassen.corner, Holds, zero_mul, one_mul, add_zero]
  exact ⟨A, hrun, fun i hi j hj => (hA i hi j hj).1, fun i hi j hj => (hA i hi j hj).2.1,
    fun i hi j hj => (hA i hi j hj).2.2.1, fun i hi j hj => (hA i hi j hj).2.2.2⟩

variable [AddCommGroup T]

theorem add_poly (dst s1 s2 : TPolmat T m n) {i j : ℕ} (hi : i < m) (hj : j < n) :
    (add dst s1 s2).poly (i, j) = s1.poly (i, j) + s2.poly (i, j) := by
  dsimp only [add]
  rw [forRange_nested_at_only
    (fun i j dst => update dst (i, j) (s1.poly (i, j) + s2.poly (i, j))) hi hj]
  · exact update_self _ _ _
  · exact fun i' _ j' _ hne ws => update_of_ne (fun h => hne h.symm) _ _
  · intro ws ws' _
    rw [update_self, update_self]

theorem add_spec {s1 s2 : TPolmat T m n} {f1 f2 : ℕ × ℕ → T} (dst : TPolmat T m n)
    (h1 : ∀ i < m, ∀ j < n, s1.poly (i, j) = f1 (i, j))
    (h2 : ∀ i < m, ∀ j < n, s2.poly (i, j) = f2 (i, j)) :
    ∀ i < m, ∀ j < n, (add dst s1 s2).poly (i, j) = (f1 + f2) (i, j) := by
  intro i hi j hj
  rw [add_poly dst s1 s2 hi hj, h1 i hi j hj, h2 i hi j hj, Pi.add_apply]

theorem Holds.add {s1 s2 : TPolmat T m n} {f1 f2 : ℕ × ℕ → T} (h1 : Holds s1 f1)
    (h2 : Holds s2 f2) (dst : TPolmat T m n) : Holds (add dst s1 s2) (f1 + f2) :=
  add_spec dst h1 h2

theorem composeStrassen_eq_none (mul : TPolmat T (m / 2) (k / 2) → TPolmat T (k / 2) (n / 2) →
      Option (TPolmat T (m / 2) (n / 2)))
    (h : m % 2 ≠ 0 ∨ k % 2 ≠ 0 ∨ n % 2 ≠ 0) (s1 : TPolmat T m k) (s2 : TPolmat T k n) :
    composeStrassen x mul s1 s2 = none := by
  unfold composeStrassen
  by_cases hleft : m % 2 ≠ 0 ∨ k % 2 ≠ 0
  · rw [splitin4_eq_none x s1 hleft]
    rfl
  · obtain ⟨A, hsplit, -⟩ := splitin4_spec x s1 (by omega) (by omega)
    rw [hsplit, splitin4_eq_none x s2 (by omega)]
    rfl

theorem composeStrassen_eq_none_of {mul : TPolmat T (m / 2) (k / 2) → TPolmat T (k / 2) (n / 2) →
      Option (TPolmat T (m / 2) (n / 2))}
    (h : ∀ s1 s2, mul s1 s2 = none) (s1 : TPolmat T m k) (s2 : TPolmat T k n) :
    composeStrassen x mul s1 s2 = none := by
  unfold composeStrassen
  simp [h, Option.bind_eq_bind, Option.bind_none, Option.bind_fun_none]

variable [Module (ZMod 2) T]

/-- `o.compose` as a map that is additive in both arguments. -/
def FftType.composeHom (o : FftType T) : T →+ T →+ T :=
  AddMonoidHom.mk' (fun a => (o.compose a).toAddMonoidHom) fun a b => by
    ext c
    exact LinearMap.map_add₂ o.compose a b c

/-- The product of the entries. -/
def entryProd (o : FftType T) (k : ℕ) (s1 s2 : ℕ × ℕ → T) : ℕ × ℕ → T :=
  Strassen.prod o.composeHom k s1 s2

theorem entryProd_apply (o : FftType T) (k : ℕ) (s1 s2 : ℕ × ℕ → T) (i j : ℕ) :
    entryProd o k s1 s2 (i, j) = ∑ l ∈ range k, o.compose (s1 (i, l)) (s2 (l, j)) :=
  rfl

theorem composeLoops_poly (o : FftType T) (s1 : TPolmat T m k) (s2 : TPolmat T k n) {i j : ℕ}
    (hi : i < m) (hj : j < n) :
    (composeLoops o s1 s2).poly (i, j) = entryProd o k s1.poly s2.poly (i, j) := by
  -- the passes of the inner loop that reach the cell
  have hinner : ∀ l (tmp : ℕ × ℕ → T), forRange m (fun i tmp => update tmp (i, j)
      (tmp (i, j) + o.compose (s1.poly (i, l)) (s2.poly (l, j)))) tmp (i, j)
        = tmp (i, j) + o.compose (s1.poly (i, l)) (s2.poly (l, j)) := by
    intro l tmp
    rw [forRange_at_only hi, update_self]
    · exact fun i' _ hne ws => update_of_ne (fun h => hne (Prod.mk.inj h).1.symm) _ _
    · intro ws ws' h
      rw [update_self, update_self, h]
  have hcolumn : ∀ count (tmp : ℕ × ℕ → T), forRange count (fun l => forRange m fun i tmp =>
      update tmp (i, j) (tmp (i, j) + o.compose (s1.poly (i, l)) (s2.poly (l, j))))
        tmp (i, j) = tmp (i, j) + entryProd o count s1.poly s2.poly (i, j) := by
    intro count tmp
    induction count with
    | zero => rw [entryProd_apply, sum_range_zero, add_zero, forRange_zero]
    | succ count ih =>
      rw [forRange_succ, hinner, ih, entryProd_apply, entryProd_apply, sum_range_succ, add_assoc]
  dsimp only [composeLoops]
  rw [forRange_at_only hj, hcolumn, Pi.zero_apply, zero_add]
  · intro j' _ hne ws
    exact forRange_nested_at_id (fun _ _ _ _ _ =>
      update_of_ne (fun h => hne (Prod.mk.inj h).2.symm) _ _) ws
  · intro ws ws' h
    rw [hcolumn, hcolumn, h]

end Loops

/-! ## The recursion -/

section Recursion

variable {T : Type} [AddCommGroup T] [Module (ZMod 2) T] {m k n : ℕ} (o : FftType T)

/-- The product of two matrices. -/
def IsProduct (s1 : TPolmat T m k) (s2 : TPolmat T k n) (dst : TPolmat T m n) :
    Prop :=
  ∀ i < m, ∀ j < n, dst.poly (i, j) = ∑ l ∈ range k, o.compose (s1.poly (i, l)) (s2.poly (l, j))

theorem exists_product {o : FftType T} {mul : TPolmat T m k → TPolmat T k n → Option (TPolmat T m n)}
    (hmul : ∀ s1 s2, ∃ dst, mul s1 s2 = some dst ∧ IsProduct o s1 s2 dst)
    {s1 : TPolmat T m k} {s2 : TPolmat T k n} {f1 f2 : ℕ × ℕ → T} (h1 : Holds s1 f1)
    (h2 : Holds s2 f2) : ∃ dst, mul s1 s2 = some dst ∧ Holds dst (entryProd o k f1 f2) := by
  obtain ⟨dst, hrun, hdst⟩ := hmul s1 s2
  refine ⟨dst, hrun, fun i hi j hj => (hdst i hi j hj).trans ?_⟩
  exact Strassen.prod_congr o.composeHom k h1 h2 hi hj

theorem isProduct_glue4 {s1 : TPolmat T m k} {s2 : TPolmat T k n}
    (hm : m % 2 = 0) (hk : k % 2 = 0) (hn : n % 2 = 0) (dst : TPolmat T m n)
    {C00 C01 C10 C11 : TPolmat T (m / 2) (n / 2)}
    (h00 : Holds C00 (entryProd o (k / 2) (quarter s1 0 0) (quarter s2 0 0)
      + entryProd o (k / 2) (quarter s1 0 1) (quarter s2 1 0)))
    (h01 : Holds C01 (entryProd o (k / 2) (quarter s1 0 0) (quarter s2 0 1)
      + entryProd o (k / 2) (quarter s1 0 1) (quarter s2 1 1)))
    (h10 : Holds C10 (entryProd o (k / 2) (quarter s1 1 0) (quarter s2 0 0)
      + entryProd o (k / 2) (quarter s1 1 1) (quarter s2 1 0)))
    (h11 : Holds C11 (entryProd o (k / 2) (quarter s1 1 0) (quarter s2 0 1)
      + entryProd o (k / 2) (quarter s1 1 1) (quarter s2 1 1))) :
    IsProduct o s1 s2 (glue4 dst C00 C01 C10 C11) := by
  -- an entry of the product in the quarter with the numbers `r` and `c`
  have hentry : ∀ r c i j, entryProd o k s1.poly s2.poly (i + r * (m / 2), j + c * (n / 2))
      = (entryProd o (k / 2) (quarter s1 r 0) (quarter s2 0 c)
        + entryProd o (k / 2) (quarter s1 r 1) (quarter s2 1 c)) (i, j) := by
    intro r c i j
    have hhalves := congrFun (Strassen.prod_halves o.composeHom (k / 2) s1.poly s2.poly
      (r * (m / 2)) (c * (n / 2))) (i, j)
    simp only [quarter, zero_mul, one_mul]
    rw [show k / 2 + k / 2 = k by omega] at hhalves
    exact hhalves
  intro i hi j hj
  rw [← entryProd_apply]
  obtain ⟨r, hr, i', hi', rfl⟩ : ∃ r < 2, ∃ i' < m / 2, i = i' + r * (m / 2) := by
    by_cases hlow : i < m / 2
    · exact ⟨0, by omega, i, hlow, by omega⟩
    · exact ⟨1, by omega, i - m / 2, by omega, by omega⟩
  obtain ⟨c, hc, j', hj', rfl⟩ : ∃ c < 2, ∃ j' < n / 2, j = j' + c * (n / 2) := by
    by_cases hlow : j < n / 2
    · exact ⟨0, by omega, j, hlow, by omega⟩
    · exact ⟨1, by omega, j - n / 2, by omega, by omega⟩
  rw [hentry]
  obtain ⟨hglue00, hglue01, hglue10, hglue11⟩ := glue4_poly dst C00 C01 C10 C11 hi' hj'
  interval_cases r <;> interval_cases c <;> simp only [zero_mul, one_mul, add_zero]
  · rw [hglue00, h00 i' hi' j' hj']
  · rw [hglue01, h01 i' hi' j' hj']
  · rw [hglue10, h10 i' hi' j' hj']
  · rw [hglue11, h11 i' hi' j' hj']

variable (x : ℕ × ℕ → T)

/-- Seven products of the halves give the product. -/
theorem composeStrassen_spec {mul : TPolmat T (m / 2) (k / 2) → TPolmat T (k / 2) (n / 2) →
      Option (TPolmat T (m / 2) (n / 2))}
    (hmul : ∀ s1 s2, ∃ dst, mul s1 s2 = some dst ∧ IsProduct o s1 s2 dst)
    (hm : m % 2 = 0) (hk : k % 2 = 0) (hn : n % 2 = 0) (s1 : TPolmat T m k)
    (s2 : TPolmat T k n) :
    ∃ dst, composeStrassen x mul s1 s2 = some dst ∧ IsProduct o s1 s2 dst := by
  obtain ⟨A, hsplitA, hA00, hA01, hA10, hA11⟩ := splitin4_quarter x s1 hm hk
  obtain ⟨B, hsplitB, hB00, hB01, hB10, hB11⟩ := splitin4_quarter x s2 hk hn
  -- the temporary matrices, one after the other
  let tmpA1 := add ⟨x⟩ A.dst00 A.dst11
  let tmpB1 := add ⟨x⟩ B.dst00 B.dst11
  let tmpA2 := add tmpA1 A.dst10 A.dst11
  let tmpB3 := add tmpB1 B.dst01 B.dst11
  let tmpB4 := add tmpB3 B.dst10 B.dst00
  let tmpA5 := add tmpA2 A.dst00 A.dst01
  let tmpA6 := add tmpA5 A.dst10 A.dst00
  let tmpB6 := add tmpB4 B.dst00 B.dst01
  obtain ⟨M1, hrun1, hM1⟩ := exists_product hmul (hA00.add hA11 ⟨x⟩) (hB00.add hB11 ⟨x⟩)
  obtain ⟨M2, hrun2, hM2⟩ := exists_product hmul (hA10.add hA11 tmpA1) hB00
  obtain ⟨M3, hrun3, hM3⟩ := exists_product hmul hA00 (hB01.add hB11 tmpB1)
  obtain ⟨M4, hrun4, hM4⟩ := exists_product hmul hA11 (hB10.add hB00 tmpB3)
  obtain ⟨M5, hrun5, hM5⟩ := exists_product hmul (hA00.add hA01 tmpA2) hB11
  obtain ⟨M6, hrun6, hM6⟩ := exists_product hmul (hA10.add hA00 tmpA5) (hB00.add hB01 tmpB4)
  obtain ⟨M7, hrun7, hM7⟩ := exists_product hmul (hA01.add hA11 tmpA6) (hB10.add hB11 tmpB6)
  let M71 := add M7 M7 M1
  let M714 := add M71 M71 M4
  let M61 := add M6 M6 M1
  let M612 := add M61 M61 M2
  have h11 := ((hM7.add hM1 M7).add hM4 M71).add hM5 M714
  have h12 := hM5.add hM3 M5
  have h21 := hM4.add hM2 M4
  have h22 := ((hM6.add hM1 M6).add hM2 M61).add hM3 M612
  have hrun : composeStrassen x mul s1 s2 = some (glue4 ⟨x⟩ (add M714 M714 M5) (add M5 M5 M3)
      (add M4 M4 M2) (add M612 M612 M3)) := by
    simp only [composeStrassen, hsplitA, hsplitB, some_bind]
    exact Option.bind_eq_some_iff.mpr ⟨M1, hrun1, Option.bind_eq_some_iff.mpr ⟨M2, hrun2,
      Option.bind_eq_some_iff.mpr ⟨M3, hrun3, Option.bind_eq_some_iff.mpr ⟨M4, hrun4,
      Option.bind_eq_some_iff.mpr ⟨M5, hrun5, Option.bind_eq_some_iff.mpr ⟨M6, hrun6,
      Option.bind_eq_some_iff.mpr ⟨M7, hrun7, rfl⟩⟩⟩⟩⟩⟩⟩
  -- over GF(2) a difference is a sum
  have hchar : ∀ u v : ℕ × ℕ → T, u - v = u + v := ZModModule.sub_eq_add
  refine ⟨_, hrun, isProduct_glue4 o hm hk hn ⟨x⟩ ?_ ?_ ?_ ?_⟩ <;> unfold entryProd at *
  · rw [Strassen.quarter11 o.composeHom (k / 2) _ _ (quarter s1 1 1) _ _ (quarter s2 1 1)]
    simpa only [hchar] using h11
  · rw [Strassen.quarter12]
    simpa only [hchar] using h12
  · rw [Strassen.quarter21]
    simpa only [hchar] using h21
  · rw [Strassen.quarter22 o.composeHom (k / 2) (quarter s1 0 0) _ _ (quarter s2 0 0)]
    simpa only [hchar] using h22

/-- The dimensions are even wherever the recursion halves them. -/
def HalvesEven (nbits m k n : ℕ) : Prop :=
  ∀ t, strassenDefaultSelector (m / 2 ^ t) (k / 2 ^ t) (n / 2 ^ t) nbits →
    m / 2 ^ t % 2 = 0 ∧ k / 2 ^ t % 2 = 0 ∧ n / 2 ^ t % 2 = 0

theorem strassenDefaultSelector_iff (m n p nbits : ℕ) :
    strassenDefaultSelector m n p nbits ↔ 4 ≤ m ∧ 4 ≤ n ∧ 4 ≤ p ∧ 12800 ≤ nbits := by
  simp [strassenDefaultSelector, and_assoc]

theorem halvesEven_of_not {nbits : ℕ} (h : ¬strassenDefaultSelector m k n nbits) :
    HalvesEven nbits m k n := by
  intro t ht
  rw [strassenDefaultSelector_iff] at h ht
  have hm := Nat.div_le_self m (2 ^ t)
  have hk := Nat.div_le_self k (2 ^ t)
  have hn := Nat.div_le_self n (2 ^ t)
  omega

theorem halvesEven_iff {nbits : ℕ} (h : strassenDefaultSelector m k n nbits) :
    HalvesEven nbits m k n ↔ (m % 2 = 0 ∧ k % 2 = 0 ∧ n % 2 = 0) ∧
      HalvesEven nbits (m / 2) (k / 2) (n / 2) := by
  have hhalf : ∀ d t, d / 2 / 2 ^ t = d / 2 ^ (t + 1) := fun d t => by
    rw [Nat.div_div_eq_div_mul, pow_succ']
  simp only [HalvesEven, hhalf]
  constructor
  · intro hall
    refine ⟨?_, fun t => hall (t + 1)⟩
    have hzero := hall 0
    rw [pow_zero, Nat.div_one, Nat.div_one, Nat.div_one] at hzero
    exact hzero h
  · rintro ⟨hzero, hall⟩ t ht
    cases t with
    | zero => simpa only [pow_zero, Nat.div_one] using hzero
    | succ t => exact hall t ht

/-- When only even dimensions are halved, the product is returned. -/
theorem composeInner_spec {m k n : ℕ}
    (h : HalvesEven o.nbits m k n) (s1 : TPolmat T m k) (s2 : TPolmat T k n) :
    ∃ dst, composeInner o x s1 s2 = some dst ∧ IsProduct o s1 s2 dst := by
  induction m using Nat.strong_induction_on generalizing k n with
  | h m ih =>
    rw [composeInner]
    by_cases hsel : strassenDefaultSelector m k n o.nbits
    · obtain ⟨⟨hm, hk, hn⟩, hhalves⟩ := (halvesEven_iff hsel).mp h
      have hlt : m / 2 < m := by
        have := ((strassenDefaultSelector_iff _ _ _ _).mp hsel).1
        omega
      rw [dif_pos hsel]
      exact composeStrassen_spec o x (ih (m / 2) hlt hhalves) hm hk hn s1 s2
    · rw [dif_neg hsel]
      exact ⟨_, rfl, fun i hi j hj => composeLoops_poly o s1 s2 hi hj⟩

theorem composeInner_eq_none {m k n : ℕ}
    (h : ¬HalvesEven o.nbits m k n) (s1 : TPolmat T m k) (s2 : TPolmat T k n) :
    composeInner o x s1 s2 = none := by
  induction m using Nat.strong_induction_on generalizing k n with
  | h m ih =>
    have hsel : strassenDefaultSelector m k n o.nbits :=
      not_not.mp fun hnot => h (halvesEven_of_not hnot)
    have hlt : m / 2 < m := by
      have := ((strassenDefaultSelector_iff _ _ _ _).mp hsel).1
      omega
    rw [composeInner, dif_pos hsel]
    by_cases heven : m % 2 = 0 ∧ k % 2 = 0 ∧ n % 2 = 0
    · have hhalves : ¬HalvesEven o.nbits (m / 2) (k / 2) (n / 2) := fun hhalves =>
        h ((halvesEven_iff hsel).mpr ⟨heven, hhalves⟩)
      exact composeStrassen_eq_none_of x (ih (m / 2) hlt hhalves) s1 s2
    · exact composeStrassen_eq_none x _ (by omega) s1 s2

end Recursion

/-! ## The dimensions of `lingen` -/

section Dimensions

variable {T : Type} [AddCommGroup T] [Module (ZMod 2) T]

theorem halved_even_iff (d : ℕ) :
    (∀ t, 4 ≤ d / 2 ^ t → d / 2 ^ t % 2 = 0) ↔ ordCompl[2] d < 4 := by
  constructor
  · intro heven
    by_contra hodd
    have hd : d ≠ 0 := by
      rintro rfl
      rw [Nat.zero_div] at hodd
      omega
    have hnot := Nat.not_dvd_ordCompl Nat.prime_two hd
    exact hnot (Nat.dvd_of_mod_eq_zero (heven _ (not_lt.mp hodd)))
  · intro hlt t ht
    have hsplit := Nat.ordProj_mul_ordCompl_eq_self d 2
    set a := d.factorization 2
    set q := d / 2 ^ a
    by_cases hta : t < a
    · obtain ⟨e, he⟩ := Nat.exists_eq_add_of_lt hta
      have hd : d = 2 ^ t * (2 * (2 ^ e * q)) := by
        rw [← hsplit, he]
        ring
      rw [hd, Nat.mul_div_cancel_left _ (Nat.two_pow_pos t), Nat.mul_mod_right]
    · have hle : d / 2 ^ t ≤ q := Nat.div_le_div_left
        (Nat.pow_le_pow_right (by decide) (not_lt.mp hta)) (Nat.two_pow_pos a)
      omega

theorem halvesEven_square_iff {nbits : ℕ} (hbits : 12800 ≤ nbits) (d : ℕ) :
    HalvesEven nbits d d d ↔ ordCompl[2] d < 4 := by
  rw [← halved_even_iff]
  simp only [HalvesEven, strassenDefaultSelector_iff]
  constructor
  · exact fun h t ht => (h t ⟨ht, ht, ht, hbits⟩).1
  · exact fun h t ht => ⟨h t ht.1, h t ht.1, h t ht.1⟩

theorem halvesEven_wide_iff {nbits m d : ℕ} (hbits : 12800 ≤ nbits) (hmd : m ≤ d)
    (hd : ordCompl[2] d < 4) : HalvesEven nbits m d d ↔ ordCompl[2] m < 4 := by
  have heven := (halved_even_iff d).mpr hd
  rw [← halved_even_iff]
  simp only [HalvesEven, strassenDefaultSelector_iff]
  constructor
  · intro h t ht
    have hle : m / 2 ^ t ≤ d / 2 ^ t := Nat.div_le_div_right hmd
    exact (h t ⟨ht, ht.trans hle, ht.trans hle, hbits⟩).1
  · exact fun h t ht => ⟨h t ht.1, heven t ht.2.1, heven t ht.2.1⟩

variable (o : FftType T)

/-- `compose` returns the product of all matrices with these dimensions. -/
def ComposesAll (m k n : ℕ) : Prop :=
  ∀ (x : ℕ × ℕ → T) (s1 : TPolmat T m k) (s2 : TPolmat T k n),
    ∃ dst, compose o x s1 s2 = some dst ∧ IsProduct o s1 s2 dst

theorem composesAll_iff (m k n : ℕ) : ComposesAll o m k n ↔ HalvesEven o.nbits m k n := by
  constructor
  · intro hall
    by_contra hodd
    obtain ⟨dst, hrun, -⟩ := hall 0 ⟨0⟩ ⟨0⟩
    rw [compose, composeInner_eq_none o 0 hodd] at hrun
    exact absurd hrun nofun
  · exact fun heven x s1 s2 => composeInner_spec o x heven s1 s2

/-- The products of `lingen` are right exactly when the entries are short or the odd parts of
both dimensions are less than four. -/
theorem compose_iff (m n : ℕ) :
    ComposesAll o m (m + n) (m + n) ∧ ComposesAll o (m + n) (m + n) (m + n) ↔
      o.nbits < 12800 ∨ ordCompl[2] m < 4 ∧ ordCompl[2] (m + n) < 4 := by
  rw [composesAll_iff, composesAll_iff]
  by_cases hbits : o.nbits < 12800
  · have hshort : ∀ m k n, HalvesEven o.nbits m k n := by
      intro m k n
      apply halvesEven_of_not
      rw [strassenDefaultSelector_iff]
      omega
    exact iff_of_true ⟨hshort _ _ _, hshort _ _ _⟩ (Or.inl hbits)
  · rw [halvesEven_square_iff (not_lt.mp hbits)]
    constructor
    · rintro ⟨hwide, hsquare⟩
      rw [halvesEven_wide_iff (not_lt.mp hbits) (Nat.le_add_right m n) hsquare] at hwide
      exact Or.inr ⟨hwide, hsquare⟩
    · intro hor
      obtain ⟨hm, hsum⟩ := hor.resolve_left hbits
      rw [halvesEven_wide_iff (not_lt.mp hbits) (Nat.le_add_right m n) hsum]
      exact ⟨hm, hsum⟩

/-- Transforms of 200 words over GF(2), with the product of one bit. -/
def bitTransform : FftType (ZMod 2) where
  size := 200
  sizeofT := 8
  compose := LinearMap.mul (ZMod 2) (ZMod 2)

/-- With 64 rows and 256 more columns the recursion comes to five rows and columns. -/
theorem not_compose_five :
    ¬(ComposesAll bitTransform 64 (64 + 256) (64 + 256) ∧
      ComposesAll bitTransform (64 + 256) (64 + 256) (64 + 256)) := by
  rintro ⟨-, hsquare⟩
  have heven := (composesAll_iff bitTransform (64 + 256) (64 + 256) (64 + 256)).mp hsquare
  have hfive := (heven 6 (by decide)).1
  exact absurd hfive (by decide)

end Dimensions

end CadoNfs.Lingen
