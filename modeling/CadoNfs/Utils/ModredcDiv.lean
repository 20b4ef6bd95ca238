import CadoNfs.Lib.SmallDivision
import CadoNfs.Utils.ModredcArith
import Mathlib.Tactic.NormNum.Prime

/-!
# Division of a residue by a small constant

`mod_div3`, `mod_div5`, `mod_div7`, `mod_div11` and `mod_div13` of
`modredc_2ul_common.c`, with the `divn` of both headers.  The residues are words in
memory, and the result may be written over the argument.

Main results:

- Definition `DivnConstants`: what `divn` needs of its constants.
- Theorem `modDivn_spec`: the division of either header.
- Theorem `modDivSmall_spec`: the five divisions, in either header and at either word size.
-/

namespace CadoNfs

open Function (update update_of_ne update_self)
open WordArith
open Nat (Coprime mod_eq_of_lt mod_lt)
open BitVec (allOnes toNat_add toNat_inj toNat_mul toNat_ofNat toNat_umod toNat_zero)
open TwoWord (divide_exact mulWide mulWide_value value)

variable {w : ℕ}

/-! ## Definitions -/

/-- The residue at an address. -/
def loadWords (memory : ℕ → BitVec w) (p : ℕ) : TwoWord w :=
  ⟨memory p, memory (p + 1)⟩

/-- A constant that is chosen by `LONG_BIT`. -/
def longBit (at32 at64 : ℕ) : BitVec w :=
  if w = 32 then BitVec.ofNat w at32 else BitVec.ofNat w at64

section Definitions

variable (build : UlarithBuild) (memory : ℕ → BitVec w) (r a : ℕ)

/-- `modredc2ul2_divn`: the sum `a + k * m` may wrap. -/
def modredc2ul2Divn (n wModN : BitVec w) (invN : List (BitVec w)) (c : BitVec w)
    (m : Modulusredc w) : Outcome (Bool × (ℕ → BitVec w)) :=
  let an := (memory (a + 1) % n * wModN + memory a % n) % n
  let mn := (m.m.hi % n * wModN + m.m.lo % n) % n
  match invN[mn.toNat]? with
  | none => .abort
  | some inv =>
    if inv = 0#w then pure (false, memory)
    else do
      let k := inv * an % n
      let t ← ularithMulUlUl2ul build m.m.lo k
      let t := ularithAdd2ul2ul build ⟨t.lo, t.hi + m.m.hi * k⟩ (loadWords memory a)
      let memory := update memory r (t.lo * c)
      let t2 ← ularithMulUlUl2ul build (memory r) n
      let t := ularithSub2ul2ul build t t2
      pure (true, update memory (r + 1) (t.hi * c))

/-- `modredc15ul_divn`: the sum `a + k * m` must not wrap. -/
def modredc15ulDivn (n wModN : BitVec w) (invN : List (BitVec w)) (c : BitVec w)
    (m : Modulusredc w) : Outcome (Bool × (ℕ → BitVec w)) :=
  let an := (memory (a + 1) % n * wModN + memory a % n) % n
  let mn := (m.m.hi % n * wModN + m.m.lo % n) % n
  match invN[mn.toNat]? with
  | none => .abort
  | some inv =>
    if inv = 0#w then pure (false, memory)
    else do
      let k := inv * an % n
      let t ← ularithMulUlUl2ul build m.m.lo k
      let t1 ← tracedAddUl t.hi (m.m.hi * k)
      let t ← tracedAdd2ul2ul build ⟨t.lo, t1⟩ (loadWords memory a)
      let memory := update memory (r + 1) (t.hi / n)
      pure (true, update memory r (t.lo * c))

/-- `mod_divn`. -/
def modDivn (arith : RedcArith) (n wModN : BitVec w) (invN : List (BitVec w)) (c : BitVec w)
    (m : Modulusredc w) : Outcome (Bool × (ℕ → BitVec w)) :=
  match arith with
  | .modredc15ul => modredc15ulDivn build memory r a n wModN invN c m
  | .modredc2ul2 => modredc2ul2Divn build memory r a n wModN invN c m

/-- "Make t[1]:t[0] divisible by 3". -/
def makeDivisibleBy3 (a3 m3 : BitVec w) (t : TwoWord w) (m : Modulusredc w) :
    Outcome (TwoWord w) :=
  if a3 ≠ 0#w then
    if a3 + m3 = 3#w then tracedAdd2ul2ul build t m.m
    else do
      let t ← tracedAdd2ul2ul build t m.m
      tracedAdd2ul2ul build t m.m
  else pure t

/-- `mod_div3`. -/
def modDiv3 (m : Modulusredc w) : Outcome (Bool × (ℕ → BitVec w)) :=
  let a3 := (memory (a + 1) % 256#w + memory (a + 1) / 256#w + memory a % 256#w
    + memory a / 256#w) % 3#w
  let m3 := (m.m.lo % 256#w + m.m.lo / 256#w + m.m.hi % 256#w + m.m.hi / 256#w) % 3#w
  if m3 = 0#w then pure (false, memory)
  else do
    let t ← makeDivisibleBy3 build a3 m3 (loadWords memory a) m
    let memory := update memory (r + 1) (t.hi / 3#w)
    pure (true, update memory r (t.lo * longBit 0xaaaaaaab 0xaaaaaaaaaaaaaaab))

variable (arith : RedcArith) (m : Modulusredc w)

/-- `mod_div5`. -/
def modDiv5 : Outcome (Bool × (ℕ → BitVec w)) :=
  modDivn build memory r a arith 5#w 1#w [0#w, 4#w, 2#w, 3#w, 1#w]
    (longBit 0xcccccccd 0xcccccccccccccccd) m

/-- `mod_div7`. -/
def modDiv7 : Outcome (Bool × (ℕ → BitVec w)) :=
  modDivn build memory r a arith 7#w (longBit 4 2) [0#w, 6#w, 3#w, 2#w, 5#w, 4#w, 1#w]
    (longBit 0xb6db6db7 0x6db6db6db6db6db7) m

/-- `mod_div11`. -/
def modDiv11 : Outcome (Bool × (ℕ → BitVec w)) :=
  modDivn build memory r a arith 11#w (longBit 4 5)
    [0#w, 10#w, 5#w, 7#w, 8#w, 2#w, 9#w, 3#w, 4#w, 6#w, 1#w]
    (longBit 0xba2e8ba3 0x2e8ba2e8ba2e8ba3) m

/-- `mod_div13`. -/
def modDiv13 : Outcome (Bool × (ℕ → BitVec w)) :=
  modDivn build memory r a arith 13#w (longBit 9 3)
    [0#w, 12#w, 6#w, 4#w, 3#w, 5#w, 2#w, 11#w, 8#w, 10#w, 9#w, 7#w, 1#w]
    (longBit 0xc4ec4ec5 0x4ec4ec4ec4ec4ec5) m

end Definitions

/-! ## The constants -/

/-- "w_mod_n is word base mod n; inv_n contains -1/i (mod n) if i is coprime to n, or 0 if i is
not coprime to n, for 0 <= i < n; c = n^(-1) (mod word base)". -/
structure DivnConstants (n wModN : BitVec w) (invN : List (BitVec w)) (c : BitVec w) :
    Prop where
  /-- Products of residues modulo `n` fit one word. -/
  small : n.toNat * n.toNat ≤ 2 ^ w
  wModN_eq : wModN.toNat = 2 ^ w % n.toNat
  length : invN.length = n.toNat
  inv_lt : ∀ i < n.toNat, (invN.getD i 0#w).toNat < n.toNat
  inv_zero : ∀ i < n.toNat, invN.getD i 0#w = 0#w ↔ ¬Coprime i n.toNat
  inv_mul : ∀ i < n.toNat, Coprime i n.toNat →
    ((invN.getD i 0#w).toNat * i + 1) % n.toNat = 0
  mul_c : n * c = 1#w

section

variable (hw : w = 32 ∨ w = 64)
include hw

theorem divnConstants_five : DivnConstants (5#w) 1#w [0#w, 4#w, 2#w, 3#w, 1#w]
      (longBit 0xcccccccd 0xcccccccccccccccd) := by
  rcases hw with rfl | rfl <;> constructor <;> decide

theorem divnConstants_seven : DivnConstants (7#w) (longBit 4 2) [0#w, 6#w, 3#w, 2#w, 5#w, 4#w, 1#w]
      (longBit 0xb6db6db7 0x6db6db6db6db6db7) := by
  rcases hw with rfl | rfl <;> constructor <;> decide

theorem divnConstants_eleven : DivnConstants (11#w) (longBit 4 5)
      [0#w, 10#w, 5#w, 7#w, 8#w, 2#w, 9#w, 3#w, 4#w, 6#w, 1#w]
      (longBit 0xba2e8ba3 0x2e8ba2e8ba2e8ba3) := by
  rcases hw with rfl | rfl <;> constructor <;> decide

theorem divnConstants_thirteen : DivnConstants (13#w) (longBit 9 3)
      [0#w, 12#w, 6#w, 4#w, 3#w, 5#w, 2#w, 11#w, 8#w, 10#w, 9#w, 7#w, 1#w]
      (longBit 0xc4ec4ec5 0x4ec4ec4ec4ec4ec5) := by
  rcases hw with rfl | rfl <;> constructor <;> decide

end

namespace DivnConstants

variable {n wModN c : BitVec w} {invN : List (BitVec w)}

section

variable (h : DivnConstants n wModN invN c)
include h

theorem pos : 0 < n.toNat := by
  have hw := wModN.isLt
  rw [h.wModN_eq] at hw
  refine Nat.pos_of_ne_zero fun hn => ?_
  rw [hn, Nat.mod_zero] at hw
  exact hw.false

theorem coprime : Coprime (2 ^ w * 2 ^ w) n.toNat := by
  have hmul : n.toNat * c.toNat ≡ 1 [MOD 2 ^ w] := by
    have hc := congrArg BitVec.toNat h.mul_c
    rwa [toNat_mul, toNat_ofNat] at hc
  have hcop := (Nat.coprime_of_mul_modEq_one _ hmul).symm
  exact hcop.mul_left hcop

theorem residue (t : TwoWord w) :
    ((t.hi % n * wModN + t.lo % n) % n).toNat = t.value % n.toNat := by
  have hlo := mod_lt t.lo.toNat h.pos
  have hle : t.hi.toNat % n.toNat * wModN.toNat ≤ (n.toNat - 1) * n.toNat := by
    apply Nat.mul_le_mul
    · have := mod_lt t.hi.toNat h.pos
      omega
    · rw [h.wModN_eq]
      exact (mod_lt _ h.pos).le
  have hsum : (n.toNat - 1) * n.toNat + n.toNat = n.toNat * n.toNat := by
    rw [← Nat.succ_mul, Nat.succ_eq_add_one, Nat.sub_add_cancel h.pos]
  have hsmall := h.small
  rw [← TwoWord.residue_eq, ← h.wModN_eq, toNat_umod, toNat_add,
    toNat_mul, toNat_umod, toNat_umod, Nat.mod_add_mod, mod_eq_of_lt (by omega : _ + _ < 2 ^ w)]

theorem multiple (m t : TwoWord w) :
    ∃ inv, invN[((m.hi % n * wModN + m.lo % n) % n).toNat]? = some inv ∧
      (inv = 0#w ↔ ¬Coprime m.value n.toNat) ∧
      (Coprime m.value n.toNat → ∃ k : BitVec w, k.toNat < n.toNat ∧
        inv * ((t.hi % n * wModN + t.lo % n) % n) % n = k ∧
        n.toNat ∣ t.value + k.toNat * m.value) := by
  have hmn := mod_lt m.value h.pos
  have hcop : Coprime (m.value % n.toNat) n.toNat ↔ Coprime m.value n.toNat := by
    rw [Coprime, ← Nat.gcd_rec, Nat.gcd_comm, ← Coprime]
  rw [h.residue m]
  refine ⟨invN.getD (m.value % n.toNat) 0#w, ?_, ?_, fun hm => ⟨_, ?_, rfl, ?_⟩⟩
  · have hlen : m.value % n.toNat < invN.length := h.length.symm ▸ hmn
    simp [List.getElem?_eq_getElem hlen]
  · rw [h.inv_zero _ hmn, hcop]
  · rw [toNat_umod]
    exact mod_lt _ h.pos
  · have hlt : (invN.getD (m.value % n.toNat) 0#w).toNat * (t.value % n.toNat) < 2 ^ w :=
      (Nat.mul_lt_mul'' (h.inv_lt _ hmn) (mod_lt _ h.pos)).trans_le h.small
    rw [toNat_umod, toNat_mul, h.residue t, mod_eq_of_lt hlt]
    exact dvd_add_mul_of_neg_inv (h.inv_mul _ hmn (hcop.mpr hm))

end

end DivnConstants

/-! ## What a division leaves in memory -/

/-- The words at `r` are the quotient modulo `m` of the residue that was at `a`,
and nothing else has changed. -/
structure IsQuotient (n m : ℕ) (memory memory' : ℕ → BitVec w) (r a : ℕ) : Prop where
  lt : (loadWords memory' r).value < m
  congr : n * (loadWords memory' r).value ≡ (loadWords memory a).value [MOD m]
  frame : ∀ p, p ≠ r → p ≠ r + 1 → memory' p = memory p

theorem IsQuotient.of_store {n m k q : ℕ} {memory : ℕ → BitVec w} {r a : ℕ} {x : TwoWord w}
    (hk : k < n) (ha : (loadWords memory a).value < m)
    (h : (loadWords memory a).value + k * m = n * q) (hx : x.value = q) :
    IsQuotient n m memory (update (update memory (r + 1) x.hi) r x.lo) r a where
  lt := by
    have hq := quotient_lt hk ha h
    rw [← hx] at hq
    simpa [loadWords] using hq
  congr := by
    have hload : loadWords (update (update memory (r + 1) x.hi) r x.lo) r
        = x := by
      simp [loadWords]
    rw [hload, hx, ← h]
    exact Nat.add_mul_mod_self_right _ _ _
  frame p hr hr' := by
    rw [update_of_ne hr, update_of_ne hr']

/-! ## The division of either header -/

section Divn

variable {n wModN c : BitVec w} {invN : List (BitVec w)} {m : Modulusredc w}
  {memory : ℕ → BitVec w} {r a : ℕ}

theorem mulWide_add_modEq (s : TwoWord w) (k : BitVec w) :
    (⟨(mulWide s.lo k).lo, (mulWide s.lo k).hi + s.hi * k⟩ : TwoWord w).value
      ≡ k.toNat * s.value [MOD 2 ^ w * 2 ^ w] := by
  have hlow := mulWide_value s.lo k
  generalize mulWide s.lo k = p at hlow ⊢
  have hhigh : (p.hi + s.hi * k).toNat ≡ p.hi.toNat + s.hi.toNat * k.toNat [MOD 2 ^ w] := by
    rw [toNat_add, toNat_mul, Nat.add_mod_mod]
    exact Nat.mod_modEq _ _
  calc p.lo.toNat + 2 ^ w * (p.hi + s.hi * k).toNat
      ≡ p.lo.toNat + 2 ^ w * (p.hi.toNat + s.hi.toNat * k.toNat) [MOD 2 ^ w * 2 ^ w] :=
        (hhigh.mul_left' (2 ^ w)).add_left _
    _ = p.value + 2 ^ w * (s.hi.toNat * k.toNat) := by rw [value]; ring
    _ = k.toNat * s.value := by rw [hlow, value]; ring

section

variable (build : UlarithBuild) (hpos : 0 < w) (heven : w % 2 = 0)
  (h : DivnConstants n wModN invN c)
include hpos heven h

/-- `modredc2ul2_divn`: the wrapped sum has the right quotient modulo the square of the
word base, and the quotient is a residue. -/
theorem modredc2ul2Divn_spec (ha : (loadWords memory a).value < m.m.value) :
    (¬Coprime m.m.value n.toNat →
      modredc2ul2Divn build memory r a n wModN invN c m = pure (false, memory)) ∧
    (Coprime m.m.value n.toNat → ∃ memory',
      modredc2ul2Divn build memory r a n wModN invN c m = pure (true, memory') ∧
        IsQuotient n.toNat m.m.value memory memory' r a) := by
  obtain ⟨inv, hget, hzero, hmul⟩ := h.multiple m.m (loadWords memory a)
  constructor
  · intro hm
    simp only [modredc2ul2Divn, hget, if_pos (hzero.mpr hm)]
  · intro hm
    obtain ⟨k, hk, hkdef, q, hq⟩ := hmul hm
    have hkdef' : inv * ((memory (a + 1) % n * wModN + memory a % n) % n) % n = k := hkdef
    have hne : inv ≠ 0#w := fun hinv => hzero.mp hinv hm
    set p := mulWide m.m.lo k with hp
    set t := ((⟨p.lo, p.hi + m.m.hi * k⟩ : TwoWord w).add (loadWords memory a)).1 with ht
    refine ⟨update (update memory r (t.lo * c)) (r + 1)
      ((t.sub (mulWide (t.lo * c) n)).1.hi * c), ?_, ?_⟩
    · simp only [modredc2ul2Divn, hget, if_neg hne, hkdef', ularithMulUlUl2ul_eq build hpos heven,
        ularithAdd2ul2ul_eq, ularithSub2ul2ul_eq, pure_bind, update_self, ← hp, ← ht]
    · rw [Function.update_comm (Nat.succ_ne_self r).symm]
      refine IsQuotient.of_store (x := ⟨t.lo * c, _⟩) hk ha hq ?_
      have hsum : t.value ≡ n.toNat * q [MOD 2 ^ w * 2 ^ w] := by
        have hadd := TwoWord.add_value ⟨p.lo, p.hi + m.m.hi * k⟩ (loadWords memory a)
        rw [← ht] at hadd
        rw [← hq, add_comm (loadWords memory a).value]
        refine Nat.ModEq.trans ?_ ((mulWide_add_modEq m.m k).add_right _)
        rw [← hp, ← hadd]
        exact (Nat.add_mul_mod_self_left _ _ _).symm
      have hquot := (TwoWord.divide_modEq t h.mul_c).trans hsum
      exact (hquot.cancel_left_of_coprime h.coprime).eq_of_lt_of_lt (TwoWord.value_lt _)
        ((quotient_lt hk ha hq).trans m.m.value_lt)

/-- The quotient by a small constant, where the divisor is invertible. -/
theorem modredc15ulDivn_spec (hm : m.m.value < 2 ^ (w + w / 2))
    (ha : (loadWords memory a).value < m.m.value) :
    (¬Coprime m.m.value n.toNat →
      modredc15ulDivn build memory r a n wModN invN c m = pure (false, memory)) ∧
    (Coprime m.m.value n.toNat → ∃ memory',
      modredc15ulDivn build memory r a n wModN invN c m = pure (true, memory') ∧
        IsQuotient n.toNat m.m.value memory memory' r a) := by
  obtain ⟨inv, hget, hzero, hmul⟩ := h.multiple m.m (loadWords memory a)
  constructor
  · intro hm
    simp only [modredc15ulDivn, hget, if_pos (hzero.mpr hm)]
  · intro hcop
    obtain ⟨k, hk, hkdef, q, hq⟩ := hmul hcop
    have hkdef' : inv * ((memory (a + 1) % n * wModN + memory a % n) % n) % n = k := hkdef
    have hne : inv ≠ 0#w := fun hinv => hzero.mp hinv hcop
    -- n has at most half a word, so n * m has at most two words
    have hfit : n.toNat * m.m.value < 2 ^ w * 2 ^ w := by
      have hhalf : 2 ^ (w / 2) * 2 ^ (w / 2) = 2 ^ w := by
        rw [← pow_add]
        congr 1
        omega
      have hn : n.toNat ≤ 2 ^ (w / 2) := Nat.mul_self_le_mul_self_iff.mp (hhalf ▸ h.small)
      calc n.toNat * m.m.value < n.toNat * 2 ^ (w + w / 2) := Nat.mul_lt_mul_of_pos_left hm h.pos
        _ ≤ 2 ^ (w / 2) * 2 ^ (w + w / 2) := Nat.mul_le_mul_right _ hn
        _ = 2 ^ w * 2 ^ w := by rw [pow_add, mul_left_comm, hhalf]
    have hkm : (k.toNat + 1) * m.m.value ≤ n.toNat * m.m.value := Nat.mul_le_mul_right _ hk
    rw [Nat.succ_mul] at hkm
    set p := mulWide m.m.lo k with hp
    have hpvalue := mulWide_value m.m.lo k
    rw [← hp] at hpvalue
    have hsplit : p.lo.toNat + 2 ^ w * (p.hi.toNat + m.m.hi.toNat * k.toNat)
        = k.toNat * m.m.value := by
      rw [mul_add, ← add_assoc, ← value, hpvalue, value]
      ring
    have hhigh : p.hi.toNat + m.m.hi.toNat * k.toNat < 2 ^ w := by
      apply Nat.lt_of_mul_lt_mul_left (a := 2 ^ w)
      omega
    have hword : (m.m.hi * k).toNat = m.m.hi.toNat * k.toNat := by
      rw [toNat_mul, mod_eq_of_lt (by omega)]
    obtain ⟨t1, ht1, ht1v⟩ := tracedAddUl_of_lt (r := p.hi) (a := m.m.hi * k) (by rwa [hword])
    have hvalue : (⟨p.lo, t1⟩ : TwoWord w).value = k.toNat * m.m.value := by
      rw [value, ht1v, hword, hsplit]
    obtain ⟨t, ht, htv⟩ := tracedAdd2ul2ul_of_lt build (r := ⟨p.lo, t1⟩)
      (a := loadWords memory a) (by omega)
    refine ⟨update (update memory (r + 1) (t.hi / n)) r (t.lo * c), ?_, ?_⟩
    · simp only [modredc15ulDivn, hget, if_neg hne, hkdef',
        ularithMulUlUl2ul_eq build hpos heven, ← hp, pure_bind, ht1, ht]
    · refine IsQuotient.of_store (x := ⟨t.lo * c, t.hi / n⟩) hk ha hq ?_
      exact divide_exact h.mul_c h.pos (by rw [htv, hvalue, add_comm, hq])

end

/-- `mod_divn`: the division is refused exactly if the divisor and the modulus have a
common factor. -/
theorem modDivn_spec {arith : RedcArith} (build : UlarithBuild) (hpos : 0 < w)
    (heven : w % 2 = 0) (h : DivnConstants n wModN invN c) (hm : ValidRedc arith m)
    (ha : (loadWords memory a).value < m.m.value) :
    (¬Coprime m.m.value n.toNat →
      modDivn build memory r a arith n wModN invN c m = pure (false, memory)) ∧
    (Coprime m.m.value n.toNat → ∃ memory',
      modDivn build memory r a arith n wModN invN c m = pure (true, memory') ∧
        IsQuotient n.toNat m.m.value memory memory' r a) := by
  cases arith with
  | modredc15ul => exact modredc15ulDivn_spec build hpos heven h hm.lt_bits ha
  | modredc2ul2 => exact modredc2ul2Divn_spec build hpos heven h ha

end Divn

/-! ## Division by three -/

section Div3

variable {m : Modulusredc w} {memory : ℕ → BitVec w} {r a : ℕ}

theorem digitSum_mod_three (hw : w = 32 ∨ w = 64) (t : TwoWord w) :
    ((t.hi % 256#w + t.hi / 256#w + t.lo % 256#w + t.lo / 256#w) % 3#w).toNat
      = t.value % 3 := by
  have hlo := t.lo.isLt
  have hhi := t.hi.isLt
  -- the quotients by 256 leave room for the sum in one word
  rcases hw with rfl | rfl <;>
  · simp only [toNat_umod, toNat_add, BitVec.toNat_udiv, toNat_ofNat,
      Nat.reducePow, Nat.reduceMod, Nat.mod_add_mod, value] at hlo hhi ⊢
    rw [mod_eq_of_lt (by omega : _ + _ < _)]
    omega

/-- The multiple of the modulus that is added makes the number divisible by three, and the
additions fit. -/
theorem makeDivisibleBy3_spec (build : UlarithBuild) (hw : w = 32 ∨ w = 64) {a3 m3 : BitVec w}
    {t : TwoWord w} (ha3 : a3.toNat = t.value % 3) (hm3 : m3.toNat = m.m.value % 3)
    (hne : m3 ≠ 0#w) (hfit : t.value + 2 * m.m.value < 2 ^ w * 2 ^ w) :
    ∃ k q t', makeDivisibleBy3 build a3 m3 t m = pure t' ∧ k < 3 ∧
      t.value + k * m.m.value = 3 * q ∧ t'.value = 3 * q := by
  have hm : m.m.value % 3 ≠ 0 := by
    intro h
    exact hne (BitVec.eq_of_toNat_eq (by rw [hm3, h, toNat_zero]))
  have hsum : a3 + m3 = 3#w ↔ t.value % 3 + m.m.value % 3 = 3 := by
    rw [← toNat_inj, toNat_add, ha3, hm3, toNat_ofNat]
    rcases hw with rfl | rfl <;> omega
  have hzero : a3 = 0#w ↔ t.value % 3 = 0 := by
    rw [← toNat_inj, ha3, toNat_zero]
  obtain ⟨t₁, ht₁, ht₁v⟩ := tracedAdd2ul2ul_of_lt build (r := t) (a := m.m) (by omega)
  obtain ⟨t₂, ht₂, ht₂v⟩ := tracedAdd2ul2ul_of_lt build (r := t₁) (a := m.m) (by omega)
  unfold makeDivisibleBy3
  by_cases ha : a3 = 0#w
  · refine ⟨0, t.value / 3, t, by rw [if_neg (not_not.mpr ha)], by omega, ?_, ?_⟩ <;>
      have := hzero.mp ha <;> omega
  · have ha' := (not_congr hzero).mp ha
    rw [if_pos ha]
    by_cases hs : a3 + m3 = 3#w
    · have hs' := hsum.mp hs
      exact ⟨1, (t.value + m.m.value) / 3, t₁, by rw [if_pos hs, ht₁], by omega, by omega,
        by omega⟩
    · have hs' := (not_congr hsum).mp hs
      have hmod : t.value % 3 = m.m.value % 3 := by omega
      exact ⟨2, (t.value + 2 * m.m.value) / 3, t₂, by rw [if_neg hs, ht₁, pure_bind, ht₂],
        by omega, by omega, by omega⟩

/-- The quotient by three, where it exists. -/
theorem modDiv3_spec {arith : RedcArith} (build : UlarithBuild) (hw : w = 32 ∨ w = 64)
    (hm : ValidRedc arith m) (ha : (loadWords memory a).value < m.m.value) :
    (3 ∣ m.m.value → modDiv3 build memory r a m = pure (false, memory)) ∧
    (¬3 ∣ m.m.value → ∃ memory', modDiv3 build memory r a m = pure (true, memory') ∧
      IsQuotient 3 m.m.value memory memory' r a) := by
  have hm3 : ((m.m.lo % 256#w + m.m.lo / 256#w + m.m.hi % 256#w + m.m.hi / 256#w) % 3#w).toNat
      = m.m.value % 3 := by
    rw [← digitSum_mod_three hw m.m]
    congr 2
    ac_rfl
  unfold modDiv3
  set a3 := (memory (a + 1) % 256#w + memory (a + 1) / 256#w + memory a % 256#w
    + memory a / 256#w) % 3#w
  have ha3 : a3.toNat = (loadWords memory a).value % 3 :=
    digitSum_mod_three hw (loadWords memory a)
  set m3 := (m.m.lo % 256#w + m.m.lo / 256#w + m.m.hi % 256#w + m.m.hi / 256#w) % 3#w
  have hzero : m3 = 0#w ↔ 3 ∣ m.m.value := by
    rw [← toNat_inj, hm3, toNat_zero, Nat.dvd_iff_mod_eq_zero]
  constructor
  · intro h
    simp [if_pos (hzero.mpr h)]
  · intro h
    have hne := (not_congr hzero).mpr h
    have hfit : (loadWords memory a).value + 2 * m.m.value < 2 ^ w * 2 ^ w := by
      have hbits : 4 * 2 ^ arith.bits w ≤ 2 ^ w * 2 ^ w := by
        rw [show 4 = 2 ^ 2 from rfl, ← pow_add, ← pow_add]
        apply Nat.pow_le_pow_right (by omega)
        cases arith <;> simp only [RedcArith.bits] <;> omega
      have hlt := hm.lt_bits
      omega
    obtain ⟨k, q, t, ht, hk, hq, htv⟩ := makeDivisibleBy3_spec build hw ha3 hm3 hne hfit
    have hinv : 3#w * longBit 0xaaaaaaab 0xaaaaaaaaaaaaaaab = 1#w := by
      rcases hw with rfl | rfl <;> decide
    have hthree : (3#w).toNat = 3 := by rcases hw with rfl | rfl <;> rfl
    refine ⟨update (update memory (r + 1) (t.hi / 3#w)) r
      (t.lo * longBit 0xaaaaaaab 0xaaaaaaaaaaaaaaab),
      by simp [if_neg hne, ht], ?_⟩
    refine IsQuotient.of_store (x := ⟨_, _⟩) hk ha hq ?_
    exact divide_exact hinv (by omega) (by rw [hthree, htv])

end Div3

/-! ## The five divisions -/

/-- The outcome of the division of the residue at `a` by `n`, modulo `m`: 0 and no
change, or 1 and the quotient at `r`. -/
def DividesBy (n m : ℕ) (memory : ℕ → BitVec w) (r a : ℕ)
    (outcome : Outcome (Bool × (ℕ → BitVec w))) : Prop :=
  (n ∣ m → outcome = pure (false, memory)) ∧
    (¬n ∣ m → ∃ memory', outcome = pure (true, memory') ∧ IsQuotient n m memory memory' r a)

theorem modDivn_dividesBy {arith : RedcArith} (build : UlarithBuild) (hw : w = 32 ∨ w = 64)
    {n wModN c : BitVec w} {invN : List (BitVec w)} {p : ℕ} (hp : p.Prime) (hn : n.toNat = p)
    (h : DivnConstants n wModN invN c) {m : Modulusredc w} (hm : ValidRedc arith m)
    {memory : ℕ → BitVec w} {r a : ℕ} (ha : (loadWords memory a).value < m.m.value) :
    DividesBy p m.m.value memory r a (modDivn build memory r a arith n wModN invN c m) := by
  have hcop : Coprime m.m.value n.toNat ↔ ¬p ∣ m.m.value := by
    rw [hn, Nat.coprime_comm, hp.coprime_iff_not_dvd]
  have hspec := modDivn_spec (r := r) build (by omega) (by omega) h hm ha
  rw [hcop, not_not, hn] at hspec
  exact hspec

/-- The divisions by 3, 5, 7, 11 and 13 return 0 if the constant divides the modulus, and else
1 with the quotient modulo the modulus, wherever result and argument are. -/
theorem modDivSmall_spec (arith : RedcArith) (build : UlarithBuild) (hw : w = 32 ∨ w = 64)
    {s : TwoWord w} (hodd : s.value % 2 = 1) (hlow : 2 ^ w < s.value)
    (hhigh : s.value < 2 ^ arith.bits w) :
    ∃ m, modInitmodUls arith build s = pure m ∧ m.m = s ∧
      ∀ (memory : ℕ → BitVec w) (r a : ℕ), (loadWords memory a).value < s.value →
        DividesBy 3 s.value memory r a (modDiv3 build memory r a m) ∧
        DividesBy 5 s.value memory r a (modDiv5 build memory r a arith m) ∧
        DividesBy 7 s.value memory r a (modDiv7 build memory r a arith m) ∧
        DividesBy 11 s.value memory r a (modDiv11 build memory r a arith m) ∧
        DividesBy 13 s.value memory r a (modDiv13 build memory r a arith m) := by
  obtain ⟨m, hinit, rfl, hm⟩ := modInitmodUls_spec build hw hodd hlow.le hhigh
  refine ⟨m, hinit, rfl, fun memory r a ha => ⟨modDiv3_spec build hw hm ha, ?_, ?_, ?_, ?_⟩⟩
  · exact modDivn_dividesBy build hw (by norm_num) (by rcases hw with rfl | rfl <;> rfl)
      (divnConstants_five hw) hm ha
  · exact modDivn_dividesBy build hw (by norm_num) (by rcases hw with rfl | rfl <;> rfl)
      (divnConstants_seven hw) hm ha
  · exact modDivn_dividesBy build hw (by norm_num) (by rcases hw with rfl | rfl <;> rfl)
      (divnConstants_eleven hw) hm ha
  · exact modDivn_dividesBy build hw (by norm_num) (by rcases hw with rfl | rfl <;> rfl)
      (divnConstants_thirteen hw) hm ha

/-- The residue 5 modulo `2 ^ 126 - 1`, divided in place by 13: the multiple of the modulus
that is added exceeds two words. -/
theorem modDivSmall_spec_inPlace :
    ∃ m, modInitmodUls .modredc2ul2 .noAsm
        (⟨allOnes 64, 0x3fffffffffffffff#64⟩ : TwoWord 64) = pure m ∧
      DividesBy 13 (2 ^ 126 - 1) (fun p => if p = 0 then 5#64 else 0#64) 0 0
        (modDiv13 .noAsm (fun p => if p = 0 then 5#64 else 0#64) 0 0 .modredc2ul2 m) := by
  obtain ⟨m, hinit, -, hdiv⟩ := modDivSmall_spec .modredc2ul2 .noAsm (Or.inr rfl)
    (s := (⟨allOnes 64, 0x3fffffffffffffff#64⟩ : TwoWord 64)) (by decide) (by decide)
    (by decide)
  exact ⟨m, hinit, (hdiv _ 0 0 (by decide)).2.2.2.2⟩

end CadoNfs
