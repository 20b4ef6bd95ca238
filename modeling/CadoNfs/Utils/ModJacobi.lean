import CadoNfs.Utils.ModredcInv
import CadoNfs.Utils.ModredcResidue
import CadoNfs.Utils.ModredcUl

/-!
# The Jacobi symbol of a residue

`mod_jacobi` of `mod_ul_common.c` reduces with a division, that of
`modredc_2ul_common.c` shifts the smaller number up to the larger one and subtracts it on
the way down.

Main results:

- Theorem `jacobiReduce_spec`: the shifted subtractions leave the remainder, and no bit is
  shifted out.
- Theorem `modJacobiLoop_eq`: the loop on two words computes what the loop with divisions
  does.
- Theorem `modJacobi_spec`: all versions return the Jacobi symbol.
-/

namespace CadoNfs

open WordArith

variable {w : ℕ}

/-! ## Definitions -/

section Definitions

variable (build : UlarithBuild)

/-- `mod_jacobi` of `mod_ul_common.c` for `modredc_ul.h`. -/
def modredculJacobi (a : BitVec w) (m : Modulusredcul w) : Outcome ℤ := do
  let a ← modredculGetUl build a m
  Outcome.assert (a < m.m)
  pure (jacobiLoop a.toNat m.m.toNat 1)

/-- The loop of `mod_jacobi` that halves `a`. -/
def jacobiHalve (m : TwoWord w) : ℕ → TwoWord w → ℤ → Outcome (TwoWord w × ℤ)
  | 0, _, _ => .abort
  | fuel + 1, a, t =>
    if a.lo.toNat % 2 = 0 then
      jacobiHalve m fuel (modredcIntshr build a 1)
        (if m.lo.toNat % 8 = 3 ∨ m.lo.toNat % 8 = 5 then -t else t)
    else pure (a, t)

/-- The loop that shifts `t` up to `a`; a lost bit stays on record. -/
def jacobiShift (a : TwoWord w) : ℕ → TwoWord w → Outcome (TwoWord w)
  | 0, _ => .abort
  | fuel + 1, t =>
    if modIntcmp .modredc2ul2 t a < 0 then do
      let t ← tracedIntshl build t 1
      jacobiShift a fuel t
    else pure t

/-- The loop that subtracts `t` and shifts it down. -/
def jacobiSubtract (m : TwoWord w) : ℕ → TwoWord w → TwoWord w → Outcome (TwoWord w)
  | 0, _, _ => .abort
  | fuel + 1, a, t =>
    if modIntcmp .modredc2ul2 a m ≥ 0 then
      jacobiSubtract m fuel (ularithSub2ul2ulGe build a t) (modredcIntshr build t 1)
    else pure a

/-- The reduction of `a` by `m`. -/
def jacobiReduce (a m : TwoWord w) : Outcome (TwoWord w) :=
  if modIntcmp .modredc2ul2 a m ≥ 0 then
    if a.hi = 0#w then pure ⟨a.lo % m.lo, a.hi⟩
    else do
      let t ← jacobiShift build a (2 * w + 1) m
      jacobiSubtract build m (2 * w + 2) a t
  else pure a

/-- The loop of `mod_jacobi` of `modredc_2ul_common.c` and what follows it. -/
def modJacobiLoop : ℕ → TwoWord w → TwoWord w → ℤ → Outcome ℤ
  | 0, _, _, _ => .abort
  | fuel + 1, a, m, t =>
    if modIntequalUl .modredc2ul2 a 0#w then
      pure (if m.hi ≠ 0#w ∨ m.lo ≠ 1#w then 0 else t)
    else do
      let (a, t) ← jacobiHalve build m (2 * w + 1) a t
      -- swap
      let (a, m) := (m, a)
      let t := if a.lo.toNat % 4 = 3 ∧ m.lo.toNat % 4 = 3 then -t else t
      let a ← jacobiReduce build a m
      modJacobiLoop fuel a m t

/-- `mod_jacobi` of `modredc_2ul_common.c`. -/
def modJacobi (arith : RedcArith) (a : TwoWord w) (m : Modulusredc w) : Outcome ℤ := do
  let a ← modGetUls arith build a m
  modJacobiLoop build (a.value + 1) a m.m 1

end Definitions

/-! ## The reduction -/

section Reduction

variable {a m t : TwoWord w} {fuel k : ℕ}

theorem modIntcmp_neg_iff (a b : TwoWord w) :
    modIntcmp .modredc2ul2 a b < 0 ↔ a.value < b.value := by
  rw [TwoWord.value_lt_iff]
  simp only [modIntcmp, wordCmp, BitVec.lt_def, gt_iff_lt, ← BitVec.toNat_inj]
  split_ifs <;> omega

variable (build : UlarithBuild)

theorem jacobiShift_spec (hw : 2 ≤ w) (ha : 4 * a.value ≤ 2 ^ w * 2 ^ w)
    (ht : t.value = m.value * 2 ^ k) (hlt : 2 * t.value < 2 ^ w * 2 ^ w)
    (hfuel : a.value < t.value * 2 ^ fuel) :
    ∃ t' k', jacobiShift build a (fuel + 1) t = pure t' ∧ t'.value = m.value * 2 ^ k' ∧
      a.value ≤ t'.value ∧ 2 * t'.value < 2 ^ w * 2 ^ w := by
  induction fuel generalizing t k with
  | zero =>
    rw [pow_zero, mul_one] at hfuel
    refine ⟨t, k, ?_, ht, hfuel.le, hlt⟩
    rw [jacobiShift, if_neg (by rw [modIntcmp_neg_iff]; omega)]
  | succ fuel ih =>
    rw [jacobiShift]
    by_cases hcmp : modIntcmp .modredc2ul2 t a < 0
    · rw [if_pos hcmp]
      rw [modIntcmp_neg_iff] at hcmp
      obtain ⟨s, hs, hsv⟩ := tracedIntshl_of_lt build (l := 1) (by omega : 1 < w)
        (by omega : t.value * 2 ^ 1 < 2 ^ w * 2 ^ w)
      rw [pow_one] at hsv
      obtain ⟨t', k', hrun, ht', hle, hlt'⟩ := ih (t := s) (k := k + 1)
        (by rw [hsv, ht, pow_succ, mul_assoc]) (by omega)
        (by rw [hsv, mul_assoc, ← pow_succ']; exact hfuel)
      exact ⟨t', k', by rw [hs, pure_bind, hrun], ht', hle, hlt'⟩
    · rw [if_neg hcmp]
      rw [modIntcmp_neg_iff] at hcmp
      exact ⟨t, k, rfl, ht, by omega, hlt⟩

/-- Subtracting shifted moduli leaves the remainder. -/
theorem jacobiSubtract_spec (hw : 2 ≤ w) (hm : 0 < m.value)
    (ht : t.value = m.value * 2 ^ k) (hlt : 2 * t.value < 2 ^ w * 2 ^ w)
    (ha : a.value < 2 * t.value) (hfuel : k + 2 ≤ fuel) :
    ∃ r, jacobiSubtract build m fuel a t = pure r ∧ r.value = a.value % m.value := by
  have hstop : ∀ {fuel : ℕ} {a t : TwoWord w}, 1 ≤ fuel → a.value < m.value →
      jacobiSubtract build m fuel a t = pure a := by
    intro fuel a t hfuel hlt
    obtain ⟨fuel, rfl⟩ := Nat.exists_eq_add_of_le' hfuel
    rw [jacobiSubtract, if_neg (by rw [ge_iff_le, not_le, modIntcmp_neg_iff]; exact hlt)]
  -- one turn: the subtraction, for which no borrow is missed
  have hstep : ∀ {a t : TwoWord w}, 2 * t.value < 2 ^ w * 2 ^ w →
      (ularithSub2ul2ulGe build a t).value
        = if t.value ≤ a.value then a.value - t.value else a.value := by
    intro a t hlt
    refine ularithSub2ul2ulGe_value build fun hmissed => ?_
    have hhigh := ((borrowMissed_iff a t).mp hmissed).1
    have hbase : 2 ^ w ≤ 2 * (2 ^ w - 1) := by
      have htwo : 2 ≤ 2 ^ w := Nat.le_self_pow (by omega) 2
      omega
    have hmul := Nat.mul_le_mul_left (2 ^ w) hbase
    rw [mul_left_comm] at hmul
    omega
  induction k generalizing a t fuel with
  | zero =>
    rw [pow_zero, mul_one] at ht
    by_cases hcmp : a.value < m.value
    · exact ⟨a, hstop (by omega) hcmp, (Nat.mod_eq_of_lt hcmp).symm⟩
    · obtain ⟨fuel, rfl⟩ := Nat.exists_eq_add_of_le' (show 1 ≤ fuel by omega)
      have hvalue := hstep (a := a) hlt
      rw [if_pos (by omega)] at hvalue
      refine ⟨ularithSub2ul2ulGe build a t, ?_, ?_⟩
      · rw [jacobiSubtract, if_pos (by rw [ge_iff_le, ← not_lt, modIntcmp_neg_iff]; exact hcmp),
          hstop (by omega) (by omega)]
      · rw [hvalue, ht, Nat.mod_eq_sub_mod (by omega), Nat.mod_eq_of_lt (by omega)]
  | succ k ih =>
    by_cases hcmp : a.value < m.value
    · exact ⟨a, hstop (by omega) hcmp, (Nat.mod_eq_of_lt hcmp).symm⟩
    · obtain ⟨fuel, rfl⟩ := Nat.exists_eq_add_of_le' (show 1 ≤ fuel by omega)
      have hvalue := hstep (a := a) hlt
      have hhalf : (modredcIntshr build t 1).value = m.value * 2 ^ k := by
        rw [modredcIntshr_value build t (by omega), ht, pow_one, pow_succ, ← mul_assoc,
          Nat.mul_div_cancel _ (by decide)]
      have ht' : t.value = 2 * (modredcIntshr build t 1).value := by
        rw [hhalf, ht, pow_succ]
        ring
      obtain ⟨r, hrun, hr⟩ := @ih (ularithSub2ul2ulGe build a t) _ fuel hhalf (by omega)
        (by rw [hvalue]; split_ifs <;> omega) (by omega)
      refine ⟨r, ?_, ?_⟩
      · rw [jacobiSubtract, if_pos (by rw [ge_iff_le, ← not_lt, modIntcmp_neg_iff]; exact hcmp),
          hrun]
      · rw [hr, hvalue]
        split_ifs with hle
        · rw [ht, ← Nat.sub_mul_mod (x := a.value) (by rw [← ht]; exact hle)]
        · rfl

/-- The reduction leaves the remainder. -/
theorem jacobiReduce_spec (hw : 2 ≤ w) (ha : 4 * a.value ≤ 2 ^ w * 2 ^ w) (hm : 0 < m.value) :
    ∃ r, jacobiReduce build a m = pure r ∧ r.value = a.value % m.value := by
  have hwide : 2 ^ w * 2 ^ w = 2 ^ (2 * w) := by rw [← pow_add, two_mul]
  rw [jacobiReduce]
  by_cases hcmp : a.value < m.value
  · refine ⟨a, if_neg ?_, (Nat.mod_eq_of_lt hcmp).symm⟩
    rw [ge_iff_le, not_le, modIntcmp_neg_iff]
    exact hcmp
  rw [if_pos (by rw [ge_iff_le, ← not_lt, modIntcmp_neg_iff]; exact hcmp)]
  by_cases hhi : a.hi = 0#w
  · have hmhi : m.hi = 0#w := hi_eq_zero_iff.mpr (by
      have := hi_eq_zero_iff.mp hhi
      omega)
    refine ⟨_, if_pos hhi, ?_⟩
    rw [value_of_hi_zero (a := ⟨a.lo % m.lo, a.hi⟩) hhi, value_of_hi_zero hmhi,
      value_of_hi_zero hhi, BitVec.toNat_umod]
  · obtain ⟨t, k, hshift, ht, hle, hlt⟩ := @jacobiShift_spec _ a m m (2 * w) 0 build hw ha (by simp)
      (by omega)
      (by rw [← hwide]; exact a.value_lt.trans_le (Nat.le_mul_of_pos_left _ hm))
    have hk : k < 2 * w := by
      refine (Nat.pow_lt_pow_iff_right (a := 2) (by decide)).mp ?_
      calc 2 ^ k ≤ m.value * 2 ^ k := Nat.le_mul_of_pos_left _ hm
        _ = t.value := ht.symm
        _ < 2 ^ (2 * w) := by omega
    obtain ⟨r, hrun, hr⟩ := @jacobiSubtract_spec _ a m t (2 * w + 2) k build hw hm ht hlt
      (by omega) (by omega)
    exact ⟨r, by rw [if_neg hhi, hshift, pure_bind, hrun], hr⟩

end Reduction

/-! ## The symbol -/

section Symbol

open scoped NumberTheorySymbols

variable {a m : TwoWord w} {fuel : ℕ} {t : ℤ}

theorem lo_mod_two_pow {k : ℕ} (hk : k ≤ w) (s : TwoWord w) :
    s.lo.toNat % 2 ^ k = s.value % 2 ^ k := by
  rw [← TwoWord.value_mod, Nat.mod_mod_of_dvd _ (pow_dvd_pow 2 hk)]

variable (build : UlarithBuild)

theorem jacobiHalve_spec (hw : 3 ≤ w) (ha : a.value ≠ 0) (hfuel : a.value < 2 ^ fuel) :
    ∃ r, jacobiHalve build m (fuel + 1) a t = pure (r, (jacobiTwos m.value a.value t).2) ∧
      r.value = (jacobiTwos m.value a.value t).1 := by
  have hlo : ∀ s : TwoWord w, s.lo.toNat % 2 = s.value % 2 := fun s =>
    lo_mod_two_pow (k := 1) (by omega) s
  have height : m.lo.toNat % 8 = m.value % 8 := lo_mod_two_pow (k := 3) hw m
  induction fuel generalizing a t with
  | zero => omega
  | succ fuel ih =>
    rw [jacobiHalve, jacobiTwos, hlo, height]
    by_cases heven : a.value % 2 = 0
    · have hhalf := modredcIntshr_value build a (by omega : 1 < w)
      rw [pow_one] at hhalf
      obtain ⟨r, hrun, hr⟩ := ih (a := modredcIntshr build a 1)
        (t := if m.value % 8 = 3 ∨ m.value % 8 = 5 then -t else t) (by omega)
        (by rw [hhalf, Nat.div_lt_iff_lt_mul (by decide), ← pow_succ]; exact hfuel)
      rw [hhalf] at hrun hr
      have hboth : a.value % 2 = 0 ∧ a.value ≠ 0 := ⟨heven, ha⟩
      rw [if_pos heven, if_pos hboth]
      exact ⟨r, hrun, hr⟩
    · rw [if_neg heven, if_neg fun h => heven h.1]
      exact ⟨a, rfl, rfl⟩

/-- The loop on two words computes what the loop with divisions does. -/
theorem modJacobiLoop_eq (hw : 3 ≤ w) (ha : 4 * a.value ≤ 2 ^ w * 2 ^ w)
    (hm : 4 * m.value ≤ 2 ^ w * 2 ^ w) (hfuel : a.value < fuel) :
    modJacobiLoop build fuel a m t = pure (jacobiLoop a.value m.value t) := by
  have hwide : 2 ^ w * 2 ^ w = 2 ^ (2 * w) := by rw [← pow_add, two_mul]
  have hfour : ∀ s : TwoWord w, s.lo.toNat % 4 = s.value % 4 := fun s =>
    lo_mod_two_pow (k := 2) (by omega) s
  induction fuel generalizing a m t with
  | zero => omega
  | succ fuel ih =>
    rw [modJacobiLoop, jacobiLoop]
    have hequal : ∀ (s : TwoWord w) (b : BitVec w),
        modIntequalUl .modredc2ul2 s b = true ↔ s.value = b.toNat := fun _ =>
      modIntequalUl_iff (by rintro ⟨⟩)
    have hend : modIntequalUl .modredc2ul2 a 0#w = true ↔ a.value = 0 := by
      rw [hequal, BitVec.toNat_zero]
    by_cases hzero : a.value = 0
    · have hone : m.hi ≠ 0#w ∨ m.lo ≠ 1#w ↔ m.value ≠ 1 := by
        have hone := hequal m 1#w
        rw [toNat_const (Nat.one_lt_two_pow (by omega))] at hone
        rw [← not_iff_not, not_not, ← hone, not_or, not_not, not_not, and_comm]
        simp [modIntequalUl]
      rw [if_pos (hend.mpr hzero), if_neg (not_not.mpr hzero)]
      simp [hone]
    · rw [if_neg fun h => hzero (hend.mp h), if_pos hzero]
      obtain ⟨r, hrun, hr⟩ := @jacobiHalve_spec _ a m (2 * w) t build hw hzero
        (by rw [← hwide]; exact a.value_lt)
      obtain ⟨hle, hne⟩ := jacobiTwos_le m.value a.value t
      rw [← hr] at hle hne
      have hpos := Nat.pos_of_ne_zero (hne hzero)
      obtain ⟨s, hreduce, hs⟩ := jacobiReduce_spec build (by omega) (a := m) (m := r) hm hpos
      have hlt := Nat.mod_lt m.value hpos
      rw [← hs] at hlt
      rw [hrun, pure_bind]
      simp only [hreduce, pure_bind, hfour, ← hr]
      rw [ih (by omega) (by omega) (by omega), hs]

/-- The versions for both headers of one word and for both headers of two words return the Jacobi
symbol, for every odd modulus that the header accepts. -/
theorem modJacobi_spec (hw : w = 32 ∨ w = 64) :
    (∀ a m : BitVec w, m.toNat % 2 = 1 → a.toNat < m.toNat →
      modulJacobi a m = pure J((a.toNat : ℤ) | m.toNat)) ∧
    (∀ s : BitVec w, s.toNat % 2 = 1 → ∃ m, modredculInitmodUl s = pure m ∧
      ∀ (x : ℕ) (a : BitVec w), a.toNat < s.toNat → a.toNat ≡ x * 2 ^ w [MOD s.toNat] →
        modredculJacobi build a m = pure J((x : ℤ) | s.toNat)) ∧
    ∀ (arith : RedcArith) (s : TwoWord w), s.value % 2 = 1 → 2 ^ w ≤ s.value →
      s.value < 2 ^ arith.bits w → ∃ m, modInitmodUls arith build s = pure m ∧
        ∀ (x : ℕ) (a : TwoWord w), IsResidueOf m x a →
          modJacobi build arith a m = pure J((x : ℤ) | s.value) := by
  have hpos : 0 < w := by omega
  have heven : w % 2 = 0 := by omega
  -- the number that is read is congruent to that of the residue
  have hsymbol : ∀ {R n x y a : ℕ}, n % 2 = 1 → Nat.Coprime n R → y * R ≡ a [MOD n] →
      a ≡ x * R [MOD n] → jacobiLoop y n 1 = J((x : ℤ) | n) := by
    intro R n x y a hodd hcop hy ha
    have hxy : y ≡ x [MOD n] := Nat.ModEq.cancel_right_of_coprime hcop (hy.trans ha)
    rw [jacobiLoop_spec hodd, one_mul, jacobiSym.mod_left, jacobiSym.mod_left (x : ℤ)]
    exact congrArg (fun z : ℤ => J(z | n)) ((Int.natCast_modEq_iff.mpr hxy).eq)
  refine ⟨fun a m hodd ha => ?_, fun s hodd => ?_, fun arith s hodd hlow hhigh => ?_⟩
  · rw [modulJacobi, Outcome.assert_of (BitVec.lt_def.mpr ha), pure_bind,
      jacobiLoop_spec hodd, one_mul]
  · obtain ⟨m, hinit, rfl, hm⟩ := modredculInitmodUl_spec hw hodd
    refine ⟨m, hinit, fun x a ha hx => ?_⟩
    obtain ⟨y, hy, hres⟩ := modredculGetUl_spec build hpos heven hm ha
    rw [modredculJacobi, hy, pure_bind, Outcome.assert_of (BitVec.lt_def.mpr hres.lt),
      pure_bind, hsymbol hodd hm.coprime hres.congr hx]
  · obtain ⟨m, hinit, rfl, hm⟩ := modInitmodUls_spec build hw hodd hlow hhigh
    refine ⟨m, hinit, fun x a ha => ?_⟩
    obtain ⟨y, hy, hres⟩ := modGetUls_spec build hpos heven hm ha.lt
    have hfour := hm.four_mul_le
    have hlt := hres.lt
    rw [modJacobi, hy, pure_bind, modJacobiLoop_eq build (by omega) (by omega) hfour
      (Nat.lt_succ_self _), hsymbol hodd hm.coprime hres.congr ha.congr]

/-- The symbols of 2 modulo 15 and modulo `2 ^ 32 + 15`. -/
theorem modJacobi_spec_word32 : modulJacobi 2#32 15#32 = pure J(2 | 15) ∧
    ∃ m a, modInitmodUls .modredc15ul .x86 (⟨15#32, 1#32⟩ : TwoWord 32) = pure m ∧
      IsResidueOf m 2 a ∧ modJacobi .x86 .modredc15ul a m = pure J(2 | 4294967311) := by
  obtain ⟨hplain, -, htwo⟩ := modJacobi_spec .x86 (w := 32) (.inl rfl)
  refine ⟨hplain 2#32 15#32 (by decide) (by decide), ?_⟩
  obtain ⟨m, hinit, hsymbol⟩ := htwo .modredc15ul ⟨15#32, 1#32⟩ (by decide) (by decide) (by decide)
  obtain ⟨m', hinit', -, hm⟩ := @modInitmodUls_spec 32 .modredc15ul ⟨15#32, 1#32⟩ .x86
    (.inl rfl) (by decide) (by decide) (by decide)
  have hsame := hinit'.symm.trans hinit
  injection hsame with hsame
  subst hsame
  obtain ⟨a, ha⟩ := IsResidueOf.exists_residue hm.toValidModulus 2
  exact ⟨m', a, hinit, ha, hsymbol 2 a ha⟩

end Symbol

end CadoNfs
