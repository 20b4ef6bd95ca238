import CadoNfs.Lib.BitScan
import CadoNfs.Lib.Redc
import CadoNfs.Lib.TrailingZeros
import CadoNfs.Utils.Ularith
import Mathlib.Data.Nat.Size

/-!
# Products, division, shifts and inverses of ularith.h

The primitives of `ularith.h` beyond the carry chains: the widening product
and square, the two-word division, the double-word shift, the leading zero count
and the inverse modulo the word base.

Main results:

- Theorems `ularithMulUlUl2ul_eq` and `ularithSqrUl2ul_eq`: in either
  build the product is exact and no addition drops a carry.
- Theorem `ularithDiv2ulUlUl_eq`: quotient and remainder of a two-word number.
- Theorem `ularithShrd_value`: the double-word shift divides by a power of two.
- Theorem `ularithClz_eq`: the leading zeros complement the bit length.
- Theorem `ularithInvmod_spec`: the Newton iteration inverts every odd word.
-/

namespace CadoNfs

open WordArith
open Nat (cast_ofNat cast_pow mod_add_div mod_eq_of_lt mod_lt shiftLeft_eq shiftRight_eq_div_pow
  two_pow_pos)
open BitVec (lt_def ofNat setWidth_mul toNat_and toNat_mul toNat_ofNat toNat_or toNat_shiftLeft
  toNat_sub toNat_ushiftRight)
open Outcome (assert assert_of dropCarry_of)
open TwoWord (mulWide value)

variable {w : ℕ}

/-! ## Additions whose carry is dropped -/

variable (build : UlarithBuild)

/-- `ularith_add_ul_2ul`, with its dropped carry on record. -/
def tracedAddUl2ul (r : TwoWord w) (a : BitVec w) :
    Outcome (TwoWord w) :=
  .dropCarry (ularithAddUl2ul build r a, (r.add ⟨a, 0⟩).2)

/-- `ularith_add_2ul_2ul`, with its dropped carry on record. -/
def tracedAdd2ul2ul (r a : TwoWord w) : Outcome (TwoWord w) :=
  .dropCarry (ularithAdd2ul2ul build r a, (r.add a).2)

/-- The C operator `+=` on one word, with its dropped carry on record. -/
def tracedAddUl (r a : BitVec w) : Outcome (BitVec w) :=
  .dropCarry (r + a, addFlag r a false)

/-- The C statement `if (c) h++`, with its dropped carry on record. -/
def tracedIncIf (c : Prop) [Decidable c] (h : BitVec w) : Outcome (BitVec w) :=
  if c then tracedAddUl h 1#w else pure h

theorem tracedAdd2ul2ul_of_lt {r a : TwoWord w} (h : r.value + a.value < 2 ^ w * 2 ^ w) :
    ∃ t, tracedAdd2ul2ul build r a = pure t ∧ t.value = r.value + a.value := by
  obtain ⟨hvalue, hflag⟩ := TwoWord.add_value_of_lt h
  refine ⟨(r.add a).1, ?_, hvalue⟩
  rw [tracedAdd2ul2ul, dropCarry_of (by exact hflag), ularithAdd2ul2ul_eq]

theorem tracedAddUl2ul_of_lt {r : TwoWord w} {a : BitVec w}
    (h : r.value + a.toNat < 2 ^ w * 2 ^ w) :
    ∃ t, tracedAddUl2ul build r a = pure t ∧ t.value = r.value + a.toNat := by
  have ha : (⟨a, 0⟩ : TwoWord w).value = a.toNat := by simp [value]
  rw [← ha] at h ⊢
  obtain ⟨hvalue, hflag⟩ := TwoWord.add_value_of_lt h
  refine ⟨(r.add ⟨a, 0⟩).1, ?_, hvalue⟩
  rw [tracedAddUl2ul, dropCarry_of (by exact hflag), ularithAddUl2ul_eq]

theorem tracedAddUl_of_lt {r a : BitVec w} (h : r.toNat + a.toNat < 2 ^ w) :
    ∃ t, tracedAddUl r a = pure t ∧ t.toNat = r.toNat + a.toNat := by
  refine ⟨r + a, ?_, by rw [BitVec.toNat_add, mod_eq_of_lt h]⟩
  apply dropCarry_of
  simp only [addFlag, Bool.toNat_false, decide_eq_false_iff_not]
  omega

/-! ## Widening product and square -/

/-- `ularith_mul_ul_ul_2ul`: the x86 `mul` instruction, or four half
word products. -/
def ularithMulUlUl2ul (a b : BitVec w) : Outcome (TwoWord w) :=
  match build with
  | .x86 => pure (mulWide a b)
  | .noAsm => do
    let half := w / 2
    let mask := (1#w <<< half) - 1#w
    let t1 := (a &&& mask) * (b &&& mask)
    let t2 := 0#w
    let p1 := (a >>> half) * (b &&& mask)
    let p2 := p1 >>> half
    let p1 := (p1 &&& mask) <<< half
    let t ← tracedAdd2ul2ul .noAsm ⟨t1, t2⟩ ⟨p1, p2⟩
    let p1 := (a &&& mask) * (b >>> half)
    let p2 := p1 >>> half
    let p1 := (p1 &&& mask) <<< half
    let t ← tracedAdd2ul2ul .noAsm t ⟨p1, p2⟩
    let t2 ← tracedAddUl t.hi ((a >>> half) * (b >>> half))
    pure ⟨t.lo, t2⟩

variable (a : BitVec w)

/-- `ularith_sqr_ul_2ul`: the x86 `mul` instruction, or three half word
products, the mixed one added twice. -/
def ularithSqrUl2ul : Outcome (TwoWord w) :=
  match build with
  | .x86 => pure (mulWide a a)
  | .noAsm => do
    let half := w / 2
    let mask := (1#w <<< half) - 1#w
    let t1 := (a &&& mask) * (a &&& mask)
    let t2 := 0#w
    let p1 := (a >>> half) * (a &&& mask)
    let p2 := p1 >>> half
    let p1 := (p1 &&& mask) <<< half
    let t ← tracedAdd2ul2ul .noAsm ⟨t1, t2⟩ ⟨p1, p2⟩
    let t ← tracedAdd2ul2ul .noAsm t ⟨p1, p2⟩
    let t2 ← tracedAddUl t.hi ((a >>> half) * (a >>> half))
    pure ⟨t.lo, t2⟩

theorem toNat_and_halfMask {half : ℕ} (h : half < w) :
    (a &&& ((1#w <<< half) - 1#w)).toNat = a.toNat % 2 ^ half := by
  have hw : 1 < 2 ^ w := Nat.one_lt_two_pow (by omega)
  have hpow : 2 ^ half < 2 ^ w := Nat.pow_lt_pow_right (by omega) h
  have hshift : (1#w <<< half).toNat = 2 ^ half := by
    rw [toNat_shiftLeft, toNat_ofNat, mod_eq_of_lt hw, shiftLeft_eq, one_mul, mod_eq_of_lt hpow]
  have hmask : ((1#w <<< half) - 1#w).toNat = 2 ^ half - 1 := by
    have hpos := two_pow_pos half
    rw [toNat_sub, hshift, toNat_ofNat, mod_eq_of_lt hw,
      show 2 ^ w - 1 + 2 ^ half = (2 ^ half - 1) + 2 ^ w by omega, Nat.add_mod_right,
      mod_eq_of_lt (by omega)]
  rw [toNat_and, hmask, Nat.and_two_pow_sub_one_eq_mod]

theorem toNat_shiftRight_half (half : ℕ) : (a >>> half).toNat = a.toNat / 2 ^ half := by
  rw [toNat_ushiftRight, shiftRight_eq_div_pow]

section HalfWords

variable {half : ℕ}

theorem toNat_mul_of_half (hw : w = half + half) {x y : BitVec w}
    (hx : x.toNat < 2 ^ half) (hy : y.toNat < 2 ^ half) :
    (x * y).toNat = x.toNat * y.toNat := by
  rw [toNat_mul, mod_eq_of_lt]
  calc x.toNat * y.toNat < 2 ^ half * 2 ^ half := Nat.mul_lt_mul'' hx hy
    _ = 2 ^ w := by rw [hw, pow_add]

theorem shifted_half_value (hw : w = half + half) (hpos : 0 < half) (p : BitVec w) :
    (⟨(p &&& ((1#w <<< half) - 1#w)) <<< half, p >>> half⟩ : TwoWord w).value
      = 2 ^ half * p.toNat := by
  have hpow : (2 : ℕ) ^ w = 2 ^ half * 2 ^ half := by rw [hw, pow_add]
  have hlow : p.toNat % 2 ^ half < 2 ^ half := mod_lt _ (two_pow_pos _)
  have hfits : p.toNat % 2 ^ half * 2 ^ half < 2 ^ w := by
    rw [hpow]
    exact Nat.mul_lt_mul_of_pos_right hlow (two_pow_pos _)
  simp only [value]
  rw [toNat_shiftLeft, toNat_and_halfMask p (by omega), shiftLeft_eq,
    mod_eq_of_lt hfits, toNat_shiftRight_half, hpow]
  calc p.toNat % 2 ^ half * 2 ^ half + 2 ^ half * 2 ^ half * (p.toNat / 2 ^ half)
      = 2 ^ half * (p.toNat % 2 ^ half + 2 ^ half * (p.toNat / 2 ^ half)) := by ring
    _ = 2 ^ half * p.toNat := by rw [mod_add_div]

/-- The three additions of the half word product, with the partial products
given as numbers. -/
theorem halfProduct_chain (hw : w = half + half) (hpos : 0 < half)
    {low mid mid' high : BitVec w} {a b : BitVec w}
    (hsum : low.toNat + 2 ^ half * mid.toNat + 2 ^ half * mid'.toNat
      + 2 ^ w * high.toNat = a.toNat * b.toNat) :
    (do
      let t ← tracedAdd2ul2ul .noAsm ⟨low, 0#w⟩
        ⟨(mid &&& ((1#w <<< half) - 1#w)) <<< half, mid >>> half⟩
      let t ← tracedAdd2ul2ul .noAsm t
        ⟨(mid' &&& ((1#w <<< half) - 1#w)) <<< half, mid' >>> half⟩
      let t2 ← tracedAddUl t.hi high
      pure (⟨t.lo, t2⟩ : TwoWord w))
      = pure (mulWide a b) := by
  have htotal : a.toNat * b.toNat < 2 ^ w * 2 ^ w := Nat.mul_lt_mul'' a.isLt b.isLt
  have hlow : (⟨low, 0#w⟩ : TwoWord w).value = low.toNat := by simp [value]
  have hmid := shifted_half_value hw hpos mid
  have hmid' := shifted_half_value hw hpos mid'
  obtain ⟨t, ht, htv⟩ := tracedAdd2ul2ul_of_lt .noAsm
    (show (⟨low, 0#w⟩ : TwoWord w).value
      + (⟨(mid &&& ((1#w <<< half) - 1#w)) <<< half, mid >>> half⟩ : TwoWord w).value
        < 2 ^ w * 2 ^ w by omega)
  obtain ⟨u, hu, huv⟩ := tracedAdd2ul2ul_of_lt .noAsm
    (show t.value
      + (⟨(mid' &&& ((1#w <<< half) - 1#w)) <<< half, mid' >>> half⟩ : TwoWord w).value
        < 2 ^ w * 2 ^ w by omega)
  have huvalue : u.lo.toNat + 2 ^ w * (u.hi.toNat + high.toNat) = a.toNat * b.toNat := by
    have hdef : u.value = u.lo.toNat + 2 ^ w * u.hi.toNat := rfl
    rw [mul_add]
    omega
  have hhigh : u.hi.toNat + high.toNat < 2 ^ w := by
    by_contra hge
    have hmul := Nat.mul_le_mul_left (2 ^ w) (Nat.le_of_not_lt hge)
    omega
  obtain ⟨v, hv, hvv⟩ := tracedAddUl_of_lt hhigh
  rw [ht, pure_bind, hu, pure_bind, hv, pure_bind]
  congr 1
  apply TwoWord.value_injective
  rw [TwoWord.mulWide_value, value, hvv]
  exact huvalue

end HalfWords

/-- Both builds of the widening product are exact and drop no carry. -/
theorem ularithMulUlUl2ul_eq (hpos : 0 < w) (heven : w % 2 = 0)
    (a b : BitVec w) : ularithMulUlUl2ul build a b = pure (mulWide a b) := by
  cases build with
  | x86 => rfl
  | noAsm =>
    have hw : w = w / 2 + w / 2 := by omega
    have hlt : w / 2 < w := by omega
    have hmask := fun c : BitVec w => toNat_and_halfMask c hlt
    have hhigh : ∀ c : BitVec w, (c >>> (w / 2)).toNat < 2 ^ (w / 2) := by
      intro c
      rw [toNat_shiftRight_half]
      apply Nat.div_lt_of_lt_mul
      rw [← pow_add, ← hw]
      exact c.isLt
    have hlow : ∀ c : BitVec w, (c &&& ((1#w <<< (w / 2)) - 1#w)).toNat < 2 ^ (w / 2) := by
      intro c
      rw [hmask]
      exact mod_lt _ (two_pow_pos _)
    apply halfProduct_chain hw (by omega)
    rw [toNat_mul_of_half hw (hlow a) (hlow b), toNat_mul_of_half hw (hhigh a) (hlow b),
      toNat_mul_of_half hw (hlow a) (hhigh b), toNat_mul_of_half hw (hhigh a) (hhigh b)]
    simp only [hmask, toNat_shiftRight_half]
    have ha := mod_add_div a.toNat (2 ^ (w / 2))
    have hb := mod_add_div b.toNat (2 ^ (w / 2))
    have hpow : (2 : ℕ) ^ w = 2 ^ (w / 2) * 2 ^ (w / 2) := by rw [← pow_add, ← hw]
    calc _ = (a.toNat % 2 ^ (w / 2) + 2 ^ (w / 2) * (a.toNat / 2 ^ (w / 2)))
          * (b.toNat % 2 ^ (w / 2) + 2 ^ (w / 2) * (b.toNat / 2 ^ (w / 2))) := by
          rw [hpow]; ring
      _ = a.toNat * b.toNat := by rw [ha, hb]

theorem ularithSqrUl2ul_eq_mul : ularithSqrUl2ul build a = ularithMulUlUl2ul build a a := by
  cases build with
  | x86 => rfl
  | noAsm =>
    simp [ularithSqrUl2ul, ularithMulUlUl2ul,
    mul_comm (a &&& ((1#w <<< (w / 2)) - 1#w)) (a >>> (w / 2))]

/-! ## Division, shifts and leading zeros -/

/-- `ularith_div_2ul_ul_ul`: quotient and remainder, under the assertion that
the quotient fits one word. -/
def ularithDiv2ulUlUl (a : TwoWord w) (b : BitVec w) : Outcome (BitVec w × BitVec w) := do
  assert (a.hi < b)
  pure (ofNat w (a.value / b.toNat), ofNat w (a.value % b.toNat))

/-- `ularith_div_2ul_ul_ul_r`: the remainder only. -/
def ularithDiv2ulUlUlR (a : TwoWord w) (b : BitVec w) : Outcome (BitVec w) := do
  assert (a.hi < b)
  pure (ofNat w (a.value % b.toNat))

/-- `ularith_shrd`: shift right, filling in the low bits of `a`. -/
def ularithShrd (r a : BitVec w) (i : ℕ) : BitVec w :=
  match build with
  | .x86 =>
    -- shrd takes its count modulo the operand size
    let i := i % w
    if i = 0 then r else (r >>> i) ||| (a <<< (w - i))
  | .noAsm => if i > 0 then (r >>> i) ||| (a <<< (w - i)) else r

/-- `ularith_shld`: shift left, filling in the high bits of `a`. -/
def ularithShld (r a : BitVec w) (i : ℕ) : BitVec w :=
  match build with
  | .x86 =>
    -- shld takes its count modulo the operand size
    let i := i % w
    if i = 0 then r else (r <<< i) ||| (a >>> (w - i))
  | .noAsm => if i > 0 then (r <<< i) ||| (a >>> (w - i)) else r

/-- The loop of the portable `ularith_ctz`; `fuel` bounds the bits left. -/
def ularithCtzLoop (fuel : ℕ) (t : BitVec w) : ℕ :=
  match fuel with
  | 0 => 0
  | fuel + 1 => if t &&& 1#w = 0#w then ularithCtzLoop fuel (t >>> 1) + 1 else 0

/-- `ularith_ctz` of a word that is not zero: the compiler builtin, or a scan from the
lowest bit. -/
def ularithCtz : ℕ :=
  match build with
  | .x86 => ctz w a.toNat
  | .noAsm => ularithCtzLoop w a

/-- The loop of the portable `ularith_clz`; `fuel` bounds the bits
left. -/
def ularithClzLoop (a : BitVec w) (fuel : ℕ) (t : BitVec w) (i : ℕ) : ℕ :=
  match fuel with
  | 0 => i
  | fuel + 1 => if a &&& t = 0#w then ularithClzLoop a fuel (t >>> 1) (i + 1) else i

/-- `ularith_clz`: the compiler builtin, or a scan from the top bit. -/
def ularithClz : ℕ :=
  match build with
  | .x86 => w - a.toNat.size
  | .noAsm => ularithClzLoop a w (1#w <<< (w - 1)) 0

section

variable {a : TwoWord w} {b : BitVec w} (h : a.hi.toNat < b.toNat)
include h

/-- Quotient and remainder of the division whose assertion holds. -/
theorem ularithDiv2ulUlUl_eq :
    ∃ q r, ularithDiv2ulUlUl a b = pure (q, r) ∧ q.toNat = a.value / b.toNat ∧
      r.toNat = a.value % b.toNat := by
  have hb := b.isLt
  have hq : a.value / b.toNat < 2 ^ w := by
    apply Nat.div_lt_of_lt_mul
    calc a.value = a.lo.toNat + 2 ^ w * a.hi.toNat := rfl
      _ < 2 ^ w + 2 ^ w * a.hi.toNat := by have := a.lo.isLt; omega
      _ = (a.hi.toNat + 1) * 2 ^ w := by ring
      _ ≤ b.toNat * 2 ^ w := Nat.mul_le_mul_right _ h
  have hr : a.value % b.toNat < 2 ^ w := (mod_lt _ (by omega)).trans hb
  refine ⟨ofNat w (a.value / b.toNat), ofNat w (a.value % b.toNat), ?_, ?_, ?_⟩
  · rw [ularithDiv2ulUlUl, assert_of (lt_def.mpr h), pure_bind]
  · rw [toNat_ofNat, mod_eq_of_lt hq]
  · rw [toNat_ofNat, mod_eq_of_lt hr]

theorem ularithDiv2ulUlUlR_eq :
    ∃ r, ularithDiv2ulUlUlR a b = pure r ∧ r.toNat = a.value % b.toNat := by
  have hr : a.value % b.toNat < 2 ^ w := (mod_lt _ (by omega)).trans b.isLt
  refine ⟨ofNat w (a.value % b.toNat), ?_, ?_⟩
  · rw [ularithDiv2ulUlUlR, assert_of (lt_def.mpr h), pure_bind]
  · rw [toNat_ofNat, mod_eq_of_lt hr]

end

/-- A double-word shift and the shifted high word are the quotient by the power
of two. -/
theorem ularithShrd_value (s : TwoWord w) {i : ℕ} (hi : i < w) :
    (⟨ularithShrd build s.lo s.hi i, s.hi >>> i⟩ : TwoWord w).value
      = s.value / 2 ^ i := by
  have hbuild : ularithShrd build s.lo s.hi i
      = if i = 0 then s.lo else (s.lo >>> i) ||| (s.hi <<< (w - i)) := by
    cases build with
    | x86 => simp [ularithShrd, mod_eq_of_lt hi]
    | noAsm =>
      by_cases h : i = 0
      · simp [ularithShrd, h]
      · simp [ularithShrd, h, Nat.pos_of_ne_zero h]
  have hpow : (2 : ℕ) ^ w = 2 ^ i * 2 ^ (w - i) := by rw [← pow_add]; congr 1; omega
  have hlo : (if i = 0 then s.lo else (s.lo >>> i) ||| (s.hi <<< (w - i))).toNat
      = s.lo.toNat / 2 ^ i + 2 ^ (w - i) * (s.hi.toNat % 2 ^ i) := by
    by_cases h : i = 0
    · simp [h, Nat.mod_one]
    · have hfill : (s.hi <<< (w - i)).toNat = 2 ^ (w - i) * (s.hi.toNat % 2 ^ i) := by
        rw [toNat_shiftLeft, shiftLeft_eq, hpow, Nat.mul_mod_mul_right, mul_comm]
      have hsmall : s.lo.toNat / 2 ^ i < 2 ^ (w - i) := by
        apply Nat.div_lt_of_lt_mul
        rw [← hpow]
        exact s.lo.isLt
      rw [if_neg h, toNat_or, hfill, toNat_ushiftRight,
        shiftRight_eq_div_pow, Nat.or_comm, ← Nat.two_pow_add_eq_or_of_lt hsmall, add_comm]
  have hsplit := mod_add_div s.hi.toNat (2 ^ i)
  rw [hbuild, value, hlo, toNat_ushiftRight, shiftRight_eq_div_pow, value, hpow]
  have hdiv : (s.lo.toNat + 2 ^ i * 2 ^ (w - i) * s.hi.toNat) / 2 ^ i
      = s.lo.toNat / 2 ^ i + 2 ^ (w - i) * s.hi.toNat := by
    rw [mul_assoc, Nat.add_mul_div_left _ _ (two_pow_pos i)]
  rw [hdiv]
  calc _ = s.lo.toNat / 2 ^ i
        + 2 ^ (w - i) * (s.hi.toNat % 2 ^ i + 2 ^ i * (s.hi.toNat / 2 ^ i)) := by ring
    _ = _ := by rw [hsplit]

/-- A double-word shift and the shifted low word are the product with the power of two, when it
fits. -/
theorem ularithShld_value (s : TwoWord w) {i : ℕ} (hi : i < w)
    (hfit : s.value * 2 ^ i < 2 ^ w * 2 ^ w) :
    (⟨s.lo <<< i, ularithShld build s.hi s.lo i⟩ : TwoWord w).value = s.value * 2 ^ i := by
  have hbuild : ularithShld build s.hi s.lo i
      = if i = 0 then s.hi else (s.hi <<< i) ||| (s.lo >>> (w - i)) := by
    cases build with
    | x86 => simp [ularithShld, mod_eq_of_lt hi]
    | noAsm =>
      by_cases h : i = 0
      · simp [ularithShld, h]
      · simp [ularithShld, h, Nat.pos_of_ne_zero h]
  have hpow : (2 : ℕ) ^ w = 2 ^ (w - i) * 2 ^ i := by rw [← pow_add]; congr 1; omega
  have hhigh : s.hi.toNat * 2 ^ i < 2 ^ w := by
    have hle : 2 ^ w * (s.hi.toNat * 2 ^ i) ≤ s.value * 2 ^ i := by
      rw [← mul_assoc]
      exact Nat.mul_le_mul_right _ (Nat.le_add_left _ _)
    exact Nat.lt_of_mul_lt_mul_left (hle.trans_lt hfit)
  have hcarry : s.lo.toNat * 2 ^ i / 2 ^ w = s.lo.toNat / 2 ^ (w - i) := by
    rw [hpow, Nat.mul_div_mul_right _ _ (two_pow_pos i)]
  have hhi : (if i = 0 then s.hi else (s.hi <<< i) ||| (s.lo >>> (w - i))).toNat
      = s.hi.toNat * 2 ^ i + s.lo.toNat * 2 ^ i / 2 ^ w := by
    by_cases h : i = 0
    · rw [if_pos h, h, pow_zero, mul_one, mul_one, Nat.div_eq_of_lt s.lo.isLt, add_zero]
    · have hsmall : s.lo.toNat / 2 ^ (w - i) < 2 ^ i := by
        apply Nat.div_lt_of_lt_mul
        rw [← hpow]
        exact s.lo.isLt
      rw [if_neg h, hcarry, toNat_or, toNat_shiftLeft, shiftLeft_eq,
        mod_eq_of_lt hhigh, toNat_ushiftRight, shiftRight_eq_div_pow,
        mul_comm s.hi.toNat, ← Nat.two_pow_add_eq_or_of_lt hsmall]
  rw [hbuild, value, hhi, toNat_shiftLeft, shiftLeft_eq, value]
  have hsplit := mod_add_div (s.lo.toNat * 2 ^ i) (2 ^ w)
  calc s.lo.toNat * 2 ^ i % 2 ^ w
        + 2 ^ w * (s.hi.toNat * 2 ^ i + s.lo.toNat * 2 ^ i / 2 ^ w)
      = s.lo.toNat * 2 ^ i % 2 ^ w + 2 ^ w * (s.lo.toNat * 2 ^ i / 2 ^ w)
        + 2 ^ w * s.hi.toNat * 2 ^ i := by ring
    _ = (s.lo.toNat + 2 ^ w * s.hi.toNat) * 2 ^ i := by rw [hsplit]; ring

theorem ularithCtzLoop_eq (fuel : ℕ) (t : BitVec w) (hw : 0 < w) :
    ularithCtzLoop fuel t = ctz fuel t.toNat := by
  induction fuel generalizing t with
  | zero => rfl
  | succ fuel ih =>
    have hone : (1#w).toNat = 1 := toNat_const (Nat.one_lt_two_pow (by omega))
    have hbit : t &&& 1#w = 0#w ↔ ¬ t.toNat % 2 = 1 := by
      rw [← BitVec.toNat_inj, toNat_and, hone, Nat.and_one_is_mod, BitVec.toNat_zero]
      omega
    rw [ularithCtzLoop, ctz, ih]
    simp only [hbit, ite_not, toNat_ushiftRight, shiftRight_eq_div_pow, pow_one]

theorem ularithCtz_spec (hw : 0 < w) {a : BitVec w} (ha : 0 < a.toNat) :
    ∃ c, a.toNat = c * 2 ^ ularithCtz build a ∧ c % 2 = 1 := by
  have hbuild : ularithCtz build a = ctz w a.toNat := by
    cases build with
    | x86 => rfl
    | noAsm => exact ularithCtzLoop_eq w a hw
  rw [hbuild]
  exact ctz_spec ha a.isLt

/-- The loop counts the leading zeros. -/
theorem ularithClzLoop_eq (k : ℕ) (hk : k < w)
    (hsize : a.toNat < 2 ^ (k + 1)) (hpos : 0 < a.toNat) :
    ularithClzLoop a (k + 1) (1#w <<< k) (w - (k + 1)) = w - a.toNat.size := by
  induction k with
  | zero =>
    have hone : a.toNat = 1 := by omega
    have hset : ¬ (a &&& (1#w <<< 0) = 0#w) := by
      rw [and_bit_eq_zero_iff a hk, hone]
      decide
    rw [ularithClzLoop, if_neg hset, hone, Nat.size_one]
  | succ k ih =>
    by_cases hbit : a.toNat.testBit (k + 1)
    · have hset : ¬ (a &&& (1#w <<< (k + 1)) = 0#w) := by
        rw [and_bit_eq_zero_iff a hk, hbit]
        decide
      have hge : 2 ^ (k + 1) ≤ a.toNat := Nat.ge_two_pow_of_testBit hbit
      have hsz : a.toNat.size = k + 2 :=
        le_antisymm (Nat.size_le.mpr hsize) (Nat.lt_size.mpr hge)
      rw [ularithClzLoop, if_neg hset, hsz]
    · have hclear : a &&& (1#w <<< (k + 1)) = 0#w := by
        rw [and_bit_eq_zero_iff a hk]
        simpa using hbit
      have hlt : a.toNat < 2 ^ (k + 1) := by
        by_contra hge
        have hge := Nat.le_of_not_lt hge
        apply hbit
        rw [Nat.testBit_eq_decide_div_mod_eq]
        have hone : a.toNat / 2 ^ (k + 1) = 1 := by
          apply Nat.div_eq_of_lt_le
          · simpa using hge
          · calc a.toNat < 2 ^ (k + 1 + 1) := hsize
              _ = (1 + 1) * 2 ^ (k + 1) := by ring
        simp [hone]
      have hnext : (1#w <<< (k + 1)) >>> 1 = 1#w <<< k := by
        apply BitVec.eq_of_toNat_eq
        have hw : (1 : ℕ) < 2 ^ w := Nat.one_lt_two_pow (by omega)
        have hk1 : 2 ^ (k + 1) < 2 ^ w := Nat.pow_lt_pow_right (by omega) hk
        have hk0 : 2 ^ k < 2 ^ w := Nat.pow_lt_pow_right (by omega) (by omega)
        rw [toNat_ushiftRight, toNat_shiftLeft, toNat_shiftLeft,
          toNat_ofNat, mod_eq_of_lt hw, shiftLeft_eq, shiftLeft_eq, one_mul,
          one_mul, mod_eq_of_lt hk1, mod_eq_of_lt hk0, shiftRight_eq_div_pow,
          pow_succ, pow_one, Nat.mul_div_cancel _ (by omega)]
      rw [ularithClzLoop, if_pos hclear, hnext,
        show w - (k + 1 + 1) + 1 = w - (k + 1) by omega]
      exact ih (by omega) hlt

/-- Both builds count the leading zeros of a nonzero word. -/
theorem ularithClz_eq {a : BitVec w} (h : 0 < a.toNat) : ularithClz build a = w - a.toNat.size := by
  cases build with
  | x86 => rfl
  | noAsm =>
    have hw : 0 < w := by
      rcases w with - | w
      · simp [BitVec.eq_nil a] at h
      · omega
    have hlt : a.toNat < 2 ^ (w - 1 + 1) := by
      rw [Nat.sub_add_cancel hw]
      exact a.isLt
    have hloop := ularithClzLoop_eq a (w - 1) (by omega) hlt h
    rw [Nat.sub_add_cancel hw, Nat.sub_self] at hloop
    exact hloop

/-! ## Inverse modulo the word base -/

/-- A Newton step that computes its cubic term in `unsigned int`. -/
def newtonStepUint (r n : BitVec w) : BitVec w :=
  2#w * r - (r.setWidth 32 * r.setWidth 32 * n.setWidth 32).setWidth w

/-- A Newton step at the full width of `unsigned long`. -/
def newtonStepUlong (r n : BitVec w) : BitVec w :=
  2#w * r - r * r * n

/-- `ularith_invmod`: the inverse of an odd word modulo the word base. -/
def ularithInvmod (n : BitVec w) : Outcome (BitVec w) := do
  assert (n.toNat % 2 ≠ 0)
  let r := (3#w * n) ^^^ 2#w
  let r := newtonStepUint r n
  let r := newtonStepUint r n
  -- sizeof (unsigned long) == 4
  if w = 32 then
    pure (newtonStepUlong r n)
  else
    let r := newtonStepUint r n
    pure (newtonStepUlong r n)

theorem toNat_sub_modEq (a b : BitVec w) :
    ((a - b).toNat : ℤ) ≡ a.toNat - b.toNat [ZMOD 2 ^ w] := by
  have hb := b.isLt
  rw [toNat_sub, Int.natCast_mod, cast_pow, cast_ofNat]
  refine (Int.mod_modEq _ _).trans ?_
  rw [Nat.cast_add, Nat.cast_sub hb.le, cast_pow, cast_ofNat]
  exact (Int.modEq_iff_dvd.mpr ⟨-1, by ring⟩)

theorem toNat_mul_modEq (a b : BitVec w) :
    ((a * b).toNat : ℤ) ≡ a.toNat * b.toNat [ZMOD 2 ^ w] := by
  rw [toNat_mul, Int.natCast_mod, cast_pow, cast_ofNat, Nat.cast_mul]
  exact Int.mod_modEq _ _

theorem toNat_setWidth_modEq (v : ℕ) : ((a.setWidth v).toNat : ℤ) ≡ a.toNat [ZMOD 2 ^ v] := by
  rw [BitVec.toNat_setWidth, Int.natCast_mod, cast_pow, cast_ofNat]
  exact Int.mod_modEq _ _

theorem toNat_two_modEq : (((2#w).toNat : ℕ) : ℤ) ≡ 2 [ZMOD 2 ^ w] := by
  rw [toNat_ofNat, Int.natCast_mod, cast_pow, cast_ofNat]
  exact Int.mod_modEq _ _

theorem start_value_modEq (hw : 5 ≤ w) {n : BitVec w} (hodd : n.toNat % 2 ≠ 0) :
    ((((3#w * n) ^^^ 2#w).toNat : ℕ) : ℤ) * n.toNat ≡ 1 [ZMOD 2 ^ 5] := by
  have htable : ∀ x : BitVec 5, x.toNat % 2 ≠ 0 → ((3#5 * x) ^^^ 2#5) * x = 1#5 := by
    decide
  have hlow : (n.setWidth 5).toNat % 2 ≠ 0 := by
    rw [BitVec.toNat_setWidth]
    omega
  have hwidth : (((3#w * n) ^^^ 2#w) * n).setWidth 5 = 1#5 := by
    rw [setWidth_mul _ _ hw, BitVec.setWidth_xor, setWidth_mul _ _ hw,
      BitVec.setWidth_ofNat_of_le hw, BitVec.setWidth_ofNat_of_le hw]
    exact htable _ hlow
  have hmod := toNat_setWidth_modEq (((3#w * n) ^^^ 2#w) * n) 5
  rw [hwidth] at hmod
  have hdvd : (2 : ℤ) ^ 5 ∣ 2 ^ w := pow_dvd_pow 2 hw
  exact ((toNat_mul_modEq _ n).of_dvd hdvd).symm.trans hmod.symm

variable {r n : BitVec w} {k : ℕ}

theorem newtonStepUlong_modEq (h : (r.toNat : ℤ) * n.toNat ≡ 1 [ZMOD 2 ^ k]) (hk : k + k ≤ w) :
    ((newtonStepUlong r n).toNat : ℤ) * n.toNat ≡ 1 [ZMOD 2 ^ (k + k)] := by
  have hdvd : (2 : ℤ) ^ (k + k) ∣ 2 ^ w := pow_dvd_pow 2 hk
  have hcube := (toNat_mul_modEq (r * r) n).trans ((toNat_mul_modEq r r).mul_right _)
  have hdouble := (toNat_mul_modEq 2#w r).trans (toNat_two_modEq.mul_right _)
  have hstep := ((toNat_sub_modEq (2#w * r) (r * r * n)).trans
    (hdouble.sub hcube)).of_dvd hdvd
  rw [pow_add] at hstep ⊢
  exact Redc.newton_inverse_step h hstep

theorem newtonStepUint_modEq
    (h : (r.toNat : ℤ) * n.toNat ≡ 1 [ZMOD 2 ^ k]) (hk : k + k ≤ 32) (hw : 32 ≤ w) :
    ((newtonStepUint r n).toNat : ℤ) * n.toNat ≡ 1 [ZMOD 2 ^ (k + k)] := by
  have hdvd32 : (2 : ℤ) ^ (k + k) ∣ 2 ^ 32 := pow_dvd_pow 2 hk
  have hdvd : (2 : ℤ) ^ (k + k) ∣ 2 ^ w := pow_dvd_pow 2 (hk.trans hw)
  have hr := (toNat_setWidth_modEq r 32).of_dvd hdvd32
  have hn := (toNat_setWidth_modEq n 32).of_dvd hdvd32
  have hcube : (((r.setWidth 32 * r.setWidth 32 * n.setWidth 32).setWidth w).toNat : ℤ)
      ≡ r.toNat * r.toNat * n.toNat [ZMOD 2 ^ (k + k)] := by
    refine ((toNat_setWidth_modEq _ w).of_dvd hdvd).trans ?_
    refine ((toNat_mul_modEq _ _).of_dvd hdvd32).trans (Int.ModEq.mul ?_ hn)
    exact ((toNat_mul_modEq _ _).of_dvd hdvd32).trans (hr.mul hr)
  have hdouble := ((toNat_mul_modEq 2#w r).trans (toNat_two_modEq.mul_right _)).of_dvd hdvd
  have hstep := ((toNat_sub_modEq (2#w * r) _).of_dvd hdvd).trans (hdouble.sub hcube)
  rw [pow_add] at hstep ⊢
  exact Redc.newton_inverse_step h hstep

theorem mul_eq_one_of_modEq (hk : w ≤ k)
    (h : (r.toNat : ℤ) * n.toNat ≡ 1 [ZMOD 2 ^ k]) : r * n = 1#w := by
  apply BitVec.eq_of_toNat_eq
  have hnat : r.toNat * n.toNat ≡ 1 [MOD 2 ^ w] := by
    rw [← Int.natCast_modEq_iff]
    push_cast
    exact h.of_dvd (pow_dvd_pow 2 hk)
  rw [toNat_mul, toNat_ofNat]
  exact hnat

/-- `ularith_invmod` inverts every odd word. -/
theorem ularithInvmod_spec (hw : w = 32 ∨ w = 64) {n : BitVec w}
    (hodd : n.toNat % 2 ≠ 0) : ∃ r, ularithInvmod n = pure r ∧ r * n = 1#w := by
  have h32 : 32 ≤ w := by omega
  have hstart := start_value_modEq (by omega : 5 ≤ w) hodd
  have hstep₁ := newtonStepUint_modEq hstart (by omega) h32
  have hstep₂ := newtonStepUint_modEq hstep₁ (by omega) h32
  rcases hw with hw | hw
  · have hweak := hstep₂.of_dvd (pow_dvd_pow (2 : ℤ) (by omega : 16 ≤ 5 + 5 + (5 + 5)))
    have hlast := newtonStepUlong_modEq hweak (by omega)
    refine ⟨_, ?_, mul_eq_one_of_modEq (by omega) hlast⟩
    rw [ularithInvmod, assert_of hodd, pure_bind, if_pos hw]
  · have hweak := hstep₂.of_dvd (pow_dvd_pow (2 : ℤ) (by omega : 16 ≤ 5 + 5 + (5 + 5)))
    have hstep₃ := newtonStepUint_modEq hweak (by omega) h32
    have hlast := newtonStepUlong_modEq hstep₃ (by omega)
    refine ⟨_, ?_, mul_eq_one_of_modEq (by omega) hlast⟩
    rw [ularithInvmod, assert_of hodd, pure_bind, if_neg (by omega)]

end CadoNfs
