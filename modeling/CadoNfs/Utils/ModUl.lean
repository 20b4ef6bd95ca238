import Mathlib.NumberTheory.LegendreSymbol.JacobiSymbol
import CadoNfs.Utils.UlarithWide

/-!
# Arithmetic modulo a word

The functions of `mod_ul.h` on residues that are words, without Montgomery form, and
the Jacobi symbol of `mod_ul_common.c`.

Main results:

- Theorems `modulAdd_spec`, `modulSub_spec`, `modulNeg_spec`,
  `modulMul_spec`: the operations on reduced residues.
- Theorem `modulJacobi_neg_iff`: modulo a prime the symbol is negative exactly at the
  residues that are no squares.
-/

namespace CadoNfs

open WordArith
open Nat (mod_eq_of_lt mod_lt)
open BitVec (le_def lt_def toNat_add toNat_sub toNat_sub_of_le)

variable {w : ℕ}

/-! ## Code -/

/-- `modul_add`. -/
def modulAdd (build : UlarithBuild) (a b m : BitVec w) : BitVec w :=
  match build with
  | .x86 =>
    let t := a - m
    let tr := a + b
    -- add, cmovc
    if addFlag t b false = true then t + b else tr
  | .noAsm => if a ≥ m - b then a - (m - b) else a + b

/-- `modul_sub`. -/
def modulSub (build : UlarithBuild) (a b m : BitVec w) : BitVec w :=
  match build with
  | .x86 =>
    let t := a - b
    let tr := t + m
    -- sub, cmovnc
    if subFlag a b false = false then t else tr
  | .noAsm =>
    let tr := a - b
    let t := if tr > a then m else 0#w
    tr + t

/-- `modul_neg`. -/
def modulNeg (a m : BitVec w) : BitVec w :=
  if a = 0#w then a else m - a

/-- `modul_mul`. -/
def modulMul (build : UlarithBuild) (a b m : BitVec w) : Outcome (BitVec w) := do
  let t ← ularithMulUlUl2ul build a b
  ularithDiv2ulUlUlR t m

/-- The inner loop of `mod_jacobi`; `a` is not zero. -/
def jacobiTwos (m a : ℕ) (t : ℤ) : ℕ × ℤ :=
  if a % 2 = 0 ∧ a ≠ 0 then
    jacobiTwos m (a / 2) (if m % 8 = 3 ∨ m % 8 = 5 then -t else t)
  else (a, t)
termination_by a

theorem jacobiTwos_le (m a : ℕ) (t : ℤ) :
    (jacobiTwos m a t).1 ≤ a ∧ (a ≠ 0 → (jacobiTwos m a t).1 ≠ 0) := by
  induction a using Nat.strong_induction_on generalizing t with
  | h a ih =>
    rw [jacobiTwos]
    split_ifs with heven hsign
    · obtain ⟨hle, hne⟩ := ih (a / 2) (by omega) (-t)
      exact ⟨by omega, fun _ => hne (by omega)⟩
    · obtain ⟨hle, hne⟩ := ih (a / 2) (by omega) t
      exact ⟨by omega, fun _ => hne (by omega)⟩
    · exact ⟨le_rfl, id⟩

/-- The loop of `mod_jacobi` and what follows it. -/
def jacobiLoop (a m : ℕ) (t : ℤ) : ℤ :=
  if a ≠ 0 then
    let r := jacobiTwos m a t
    -- swap
    let t := if m % 4 = 3 ∧ r.1 % 4 = 3 then -r.2 else r.2
    jacobiLoop (m % r.1) r.1 t
  else if m ≠ 1 then 0 else t
termination_by a
decreasing_by
  obtain ⟨hle, hne⟩ := jacobiTwos_le m a _
  exact (mod_lt m (Nat.pos_of_ne_zero (hne (by assumption)))).trans_le hle

/-- `mod_jacobi`. -/
def modulJacobi (a m : BitVec w) : Outcome ℤ := do
  Outcome.assert (a < m)
  pure (jacobiLoop a.toNat m.toNat 1)

/-! ## Residues -/

section Residues

variable {a b m : BitVec w} (build : UlarithBuild)

/-- The sum of reduced residues. -/
theorem modulAdd_spec (ha : a.toNat < m.toNat) (hb : b.toNat < m.toNat) :
    (modulAdd build a b m).toNat = (a.toNat + b.toNat) % m.toNat := by
  have hm := m.isLt
  have hmod : (a.toNat + b.toNat) % m.toNat
      = if m.toNat ≤ a.toNat + b.toNat then a.toNat + b.toNat - m.toNat
        else a.toNat + b.toNat := by
    split_ifs with hle
    · rw [Nat.mod_eq_sub_mod hle, mod_eq_of_lt (by omega)]
    · exact mod_eq_of_lt (by omega)
  have hsub : (a - m).toNat = 2 ^ w + a.toNat - m.toNat := by
    rw [toNat_sub, mod_eq_of_lt (by omega)]
    omega
  have hneg : (m - b).toNat = m.toNat - b.toNat := by
    rw [toNat_sub_of_le (le_def.mpr hb.le)]
  rw [hmod]
  cases build with
  | x86 =>
    have hflag : addFlag (a - m) b false = true ↔ m.toNat ≤ a.toNat + b.toNat := by
      rw [addFlag, hsub, decide_eq_true_eq, Bool.toNat_false]
      omega
    simp only [modulAdd, hflag]
    split_ifs with hle
    · rw [toNat_add, hsub, show 2 ^ w + a.toNat - m.toNat + b.toNat
        = a.toNat + b.toNat - m.toNat + 2 ^ w by omega, Nat.add_mod_right, mod_eq_of_lt (by omega)]
    · rw [toNat_add, mod_eq_of_lt (by omega)]
  | noAsm =>
    have hge : a ≥ m - b ↔ m.toNat ≤ a.toNat + b.toNat := by
      rw [ge_iff_le, le_def, hneg]
      omega
    simp only [modulAdd, hge]
    split_ifs with hle
    · rw [toNat_sub_of_le (le_def.mpr (by omega)), hneg]
      omega
    · rw [toNat_add, mod_eq_of_lt (by omega)]

/-- The difference of reduced residues. -/
theorem modulSub_spec (ha : a.toNat < m.toNat) (hb : b.toNat < m.toNat) :
    (modulSub build a b m).toNat = (a.toNat + (m.toNat - b.toNat)) % m.toNat := by
  have hm := m.isLt
  have hmod : (a.toNat + (m.toNat - b.toNat)) % m.toNat
      = if b.toNat ≤ a.toNat then a.toNat - b.toNat else a.toNat + (m.toNat - b.toNat) := by
    split_ifs with hle
    · rw [show a.toNat + (m.toNat - b.toNat) = a.toNat - b.toNat + m.toNat by omega,
        Nat.add_mod_right, mod_eq_of_lt (by omega)]
    · exact mod_eq_of_lt (by omega)
  have hwrap : ¬b.toNat ≤ a.toNat → (a - b + m).toNat = a.toNat + (m.toNat - b.toNat) := by
    intro hlt
    have hsub : (a - b).toNat = 2 ^ w - b.toNat + a.toNat := by
      rw [toNat_sub, mod_eq_of_lt (by omega)]
    rw [toNat_add, hsub,
      show 2 ^ w - b.toNat + a.toNat + m.toNat = a.toNat + (m.toNat - b.toNat) + 2 ^ w by omega,
      Nat.add_mod_right, mod_eq_of_lt (by omega)]
  rw [hmod]
  cases build with
  | x86 =>
    have hflag : subFlag a b false = false ↔ b.toNat ≤ a.toNat := by
      rw [subFlag, decide_eq_false_iff_not, Bool.toNat_false]
      omega
    simp only [modulSub, hflag]
    split_ifs with hle
    · exact toNat_sub_of_le (le_def.mpr hle)
    · exact hwrap hle
  | noAsm =>
    by_cases hle : b.toNat ≤ a.toNat
    · have hsub := toNat_sub_of_le (le_def.mpr hle)
      have hgt : ¬a - b > a := by
        rw [gt_iff_lt, lt_def, hsub]
        omega
      simp only [modulSub, if_neg hgt, if_pos hle, BitVec.add_zero]
      exact hsub
    · have hgt : a - b > a := by
        rw [gt_iff_lt, lt_def, toNat_sub, mod_eq_of_lt (by omega)]
        omega
      simp only [modulSub, if_pos hgt, if_neg hle]
      exact hwrap hle

/-- The negative of a reduced residue. -/
theorem modulNeg_spec (ha : a.toNat < m.toNat) :
    (modulNeg a m).toNat = (m.toNat - a.toNat) % m.toNat := by
  unfold modulNeg
  split_ifs with hzero
  · rw [hzero, BitVec.toNat_zero, Nat.sub_zero, Nat.mod_self]
  · have hpos : a.toNat ≠ 0 := fun h => hzero (BitVec.eq_of_toNat_eq (by simpa using h))
    rw [toNat_sub_of_le (le_def.mpr ha.le), mod_eq_of_lt (by omega)]

/-- The product of reduced residues. -/
theorem modulMul_spec (hpos : 0 < w) (heven : w % 2 = 0)
    (ha : a.toNat < m.toNat) (hb : b.toNat < m.toNat) :
    ∃ r, modulMul build a b m = pure r ∧ r.toNat = a.toNat * b.toNat % m.toNat := by
  have hhi : (TwoWord.mulWide a b).hi.toNat < m.toNat := by
    have hvalue := TwoWord.mulWide_value a b
    have hm := m.isLt
    rw [TwoWord.value] at hvalue
    have hprod : a.toNat * b.toNat < m.toNat * 2 ^ w :=
      Nat.mul_lt_mul_of_lt_of_lt ha (hb.trans hm)
    refine Nat.lt_of_mul_lt_mul_left (a := 2 ^ w) ?_
    rw [mul_comm m.toNat] at hprod
    omega
  have hlt : (TwoWord.mulWide a b).value % m.toNat < 2 ^ w :=
    (mod_lt _ (by omega)).trans m.isLt
  refine ⟨BitVec.ofNat w ((TwoWord.mulWide a b).value % m.toNat), ?_, ?_⟩
  · rw [modulMul, ularithMulUlUl2ul_eq build hpos heven, pure_bind, ularithDiv2ulUlUlR,
      Outcome.assert_of (lt_def.mpr hhi), pure_bind]
  · rw [BitVec.toNat_ofNat, mod_eq_of_lt hlt, TwoWord.mulWide_value]

end Residues

/-! ## The Jacobi symbol -/

section Jacobi

open scoped NumberTheorySymbols

variable {a m : ℕ} {t : ℤ}

theorem jacobiTwos_spec (hm : m % 2 = 1) (ha : a ≠ 0) :
    (jacobiTwos m a t).1 % 2 = 1 ∧
      (jacobiTwos m a t).2 * J((jacobiTwos m a t).1 | m) = t * J(a | m) := by
  induction a using Nat.strong_induction_on generalizing t with
  | h a ih =>
    rw [jacobiTwos]
    by_cases heven : a % 2 = 0
    · rw [if_pos ⟨heven, ha⟩]
      obtain ⟨hodd, hvalue⟩ := ih (a / 2) (by omega)
        (t := if m % 8 = 3 ∨ m % 8 = 5 then -t else t) (by omega)
      refine ⟨hodd, hvalue.trans ?_⟩
      have hhalf := jacobiSym.even_odd (a := a) (by omega) hm
      rw [← hhalf, Int.natCast_div, Nat.cast_ofNat]
      split_ifs
      · rw [neg_mul, mul_neg]
      · rfl
    · rw [if_neg (fun h => heven h.1)]
      exact ⟨by omega, rfl⟩

theorem jacobiLoop_spec (hm : m % 2 = 1) : jacobiLoop a m t = t * J(a | m) := by
  induction a using Nat.strong_induction_on generalizing m t with
  | h a ih =>
    rw [jacobiLoop]
    by_cases ha : a = 0
    · rw [if_neg (not_not.mpr ha), ha]
      by_cases hone : m = 1
      · rw [if_neg (not_not.mpr hone), hone, jacobiSym.one_right, mul_one]
      · rw [if_pos hone, Nat.cast_zero, jacobiSym.zero_left (by omega), mul_zero]
    · rw [if_pos ha]
      obtain ⟨hodd, hvalue⟩ := jacobiTwos_spec (t := t) hm ha
      obtain ⟨hle, hne⟩ := jacobiTwos_le m a t
      have hlt := (mod_lt m (Nat.pos_of_ne_zero (hne ha))).trans_le hle
      rw [ih _ hlt hodd, ← hvalue, ← jacobiSym.quadratic_reciprocity_if hodd hm,
        Int.natCast_mod, ← jacobiSym.mod_left]
      simp only [and_comm (a := m % 4 = 3)]
      split_ifs
      · rw [neg_mul, mul_neg]
      · rfl

theorem jacobiLoop_two (ha : a < 2) : 0 ≤ jacobiLoop a 2 1 := by
  interval_cases a
  · rw [jacobiLoop]
    decide
  · rw [jacobiLoop, if_pos one_ne_zero, jacobiTwos, if_neg (by decide)]
    simp only [Nat.mod_one]
    rw [jacobiLoop]
    decide

/-- Modulo a prime the symbol is negative exactly at the residues that are no squares. -/
theorem modulJacobi_neg_iff {a m : BitVec w} (hprime : m.toNat.Prime)
    (ha : a.toNat < m.toNat) :
    ∃ t, modulJacobi a m = pure t ∧ (t < 0 ↔ ¬IsSquare (a.toNat : ZMod m.toNat)) := by
  refine ⟨jacobiLoop a.toNat m.toNat 1, ?_, ?_⟩
  · rw [modulJacobi, Outcome.assert_of (lt_def.mpr ha), pure_bind]
  · have : Fact m.toNat.Prime := ⟨hprime⟩
    rcases hprime.eq_two_or_odd with htwo | hodd
    · refine iff_of_false ?_ (not_not.mpr ?_)
      · rw [htwo]
        exact not_lt.mpr (jacobiLoop_two (htwo ▸ ha))
      · refine FiniteField.isSquare_of_char_two ?_ _
        rw [ZMod.ringChar_zmod_n, htwo]
    · rw [jacobiLoop_spec hodd, one_mul]
      have hnonsquare := ZMod.nonsquare_iff_jacobiSym_eq_neg_one (p := m.toNat)
        (a := (a.toNat : ℤ))
      rw [Int.cast_natCast] at hnonsquare
      rw [← hnonsquare]
      rcases jacobiSym.trichotomy (a.toNat : ℤ) m.toNat with h | h | h <;> rw [h] <;> decide

end Jacobi

end CadoNfs
