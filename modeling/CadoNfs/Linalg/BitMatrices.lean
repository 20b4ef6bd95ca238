import Mathlib.Tactic.IntervalCases
import CadoNfs.Lib.Gf2

/-!
# The 64 by 64 kernels of bit_matrices.c

Products and transposes of bit matrices whose rows are words of 64 bits.  A memory is a
function from word addresses to words; a source operand is a memory and a position in it.

Main results:

- Theorem `bit_addmulTN64N64`: `addmul_TN64_N64` adds the transposed product.
- Theorem `bit_transp6464`: `transp_6464` transposes.
- Theorem `nibbleTable_eq`: the Gray code walk fills the table of the combinations
  of four rows.
- Theorem `bit_addmulN646464`: `addmul_N64_6464` adds the product.
-/

namespace CadoNfs

open ForRange Gf2 Finset
open Function (update)

/-- A memory of words of 64 bits. -/
abbrev Words := ℕ → BitVec 64

/-! ## Code -/

variable (b : Words) (pb : ℕ) (A : Words) (pA : ℕ) (x : Words) (px : ℕ)

/-- `addmul_TN64_N64` on the memory of `b`. -/
def addmulTN64N64 (ncol : ℕ) : Words :=
  forRange ncol (fun idx b =>
    let rA := A (pA + idx)
    let rx := x (px + idx)
    forRange 64 (fun i b =>
      update b (pb + i) (b (pb + i) ^^^ (rx &&& -((rA >>> i) &&& 1#64)))) b) b

variable (dst : Words) (pdst : ℕ) (src : Words)

/-- `transp_6464` on the memory of `dst`. -/
def transp6464 (psrc : ℕ) : Words :=
  forRange 64 (fun i dst =>
    forRange 64 (fun j dst =>
      update dst (pdst + i)
        (dst (pdst + i) ^^^ (((src (psrc + j) >>> i) &&& 1#64) <<< j)))
      (update dst (pdst + i) 0#64)) dst

/-- The row `Bx[j]` of the table in `addmul_N64_6464`, filled along a Gray code
from the four rows `bb`. -/
def nibbleTable (bb : ℕ → BitVec 64) (v : ℕ) : BitVec 64 :=
  let w0 := 0#64
  let w1 := w0 ^^^ bb 0
  let w3 := w1 ^^^ bb 1
  let w2 := w3 ^^^ bb 0
  let w6 := w2 ^^^ bb 2
  let w7 := w6 ^^^ bb 0
  let w5 := w7 ^^^ bb 1
  let w4 := w5 ^^^ bb 0
  let w12 := w4 ^^^ bb 3
  let w13 := w12 ^^^ bb 0
  let w15 := w13 ^^^ bb 1
  let w14 := w15 ^^^ bb 0
  let w10 := w14 ^^^ bb 2
  let w11 := w10 ^^^ bb 0
  let w9 := w11 ^^^ bb 1
  let w8 := w9 ^^^ bb 0
  match v with
  | 0 => w0
  | 1 => w1
  | 2 => w2
  | 3 => w3
  | 4 => w4
  | 5 => w5
  | 6 => w6
  | 7 => w7
  | 8 => w8
  | 9 => w9
  | 10 => w10
  | 11 => w11
  | 12 => w12
  | 13 => w13
  | 14 => w14
  | _ => w15

/-- The sixteen table look-ups of one row in `addmul_N64_6464`. -/
def addmulRow (Bx : ℕ → ℕ → BitVec 64) (c aa : BitVec 64) : BitVec 64 :=
  let (c, aa) := forRange 15 (fun j (c, aa) => (c ^^^ Bx j (aa &&& 15#64).toNat, aa >>> 4))
    (c, aa)
  c ^^^ Bx 15 aa.toNat

variable (C : Words) (pC : ℕ)

/-- `addmul_N64_6464` on the memory of `C`. -/
def addmulN646464 (A : Words) (pA : ℕ) (B : Words) (pB : ℕ) (m : ℕ) :
    Words :=
  let Bx := fun j => nibbleTable fun s => B (pB + 4 * j + s)
  forRange m (fun i C => update C (pC + i) (addmulRow Bx (C (pC + i)) (A (pA + i)))) C

/-! ## Bits of the results -/

theorem and_neg_bit (x a : BitVec 64) (i : ℕ) :
    x &&& -((a >>> i) &&& 1#64) = if a.getLsbD i then x else 0#64 := by
  have hbit : (a >>> i) &&& 1#64 = if a.getLsbD i then 1#64 else 0#64 := by
    refine BitVec.eq_of_getLsbD_eq fun t ht => ?_
    rcases Nat.eq_zero_or_pos t with rfl | hpos
    · cases h : a.getLsbD i <;> simp [h]
    · have hne : t ≠ 0 := Nat.pos_iff_ne_zero.mp hpos
      cases h : a.getLsbD i <;> simp [BitVec.getLsbD_one, hne]
  rw [hbit]
  by_cases h : a.getLsbD i = true
  · rw [if_pos h, if_pos h]
    exact BitVec.and_allOnes
  · rw [if_neg h, if_neg h]
    simp

theorem bit_shift_bit (a : BitVec 64) (i j t : ℕ) (ht : t < 64) :
    bit (((a >>> i) &&& 1#64) <<< j) t = if t = j then bit a i else 0 := by
  unfold bit
  rw [BitVec.getLsbD_shiftLeft, BitVec.getLsbD_and, BitVec.getLsbD_ushiftRight, BitVec.getLsbD_one]
  rcases lt_trichotomy t j with h | rfl | h
  · simp [h, Nat.ne_of_lt h]
  · simp [ht]
  · have hne : t ≠ j := Nat.ne_of_gt h
    have hsub : t - j ≠ 0 := by omega
    simp [hne, hsub]

theorem addmulTN64N64_apply (ncol y : ℕ) : addmulTN64N64 b pb A pA x px ncol y
      = forRange ncol (fun idx => forRange 64 fun i v =>
          if y = pb + i then v ^^^ (if (A (pA + idx)).getLsbD i then x (px + idx) else 0#64)
          else v) (b y) := by
  refine forRange_pointwise (fun idx y => forRange 64 fun i v =>
    if y = pb + i then v ^^^ (if (A (pA + idx)).getLsbD i then x (px + idx) else 0#64)
    else v) (fun idx b y => ?_) b y
  refine forRange_pointwise (fun i y v =>
    if y = pb + i then v ^^^ (if (A (pA + idx)).getLsbD i then x (px + idx) else 0#64)
    else v) (fun i b y => ?_) b y
  rw [and_neg_bit]
  exact update_modify_apply b (pb + i) y fun v => v ^^^ _

theorem addmulTN64N64_frame {pb y : ℕ} (A : Words) (pA : ℕ) (x : Words) (px : ℕ)
    (ncol : ℕ) (hy : ∀ i < 64, y ≠ pb + i) :
    addmulTN64N64 b pb A pA x px ncol y = b y := by
  rw [addmulTN64N64_apply]
  refine forRange_id (fun idx _ v => ?_) (b y)
  exact forRange_id (fun i hi v => if_neg (hy i hi)) v

/-- `addmul_TN64_N64` adds the product of the transpose of `A` with `x`. -/
theorem bit_addmulTN64N64 (ncol : ℕ) {i : ℕ} (hi : i < 64) (t : ℕ) :
    bit (addmulTN64N64 b pb A pA x px ncol (pb + i)) t
      = bit (b (pb + i)) t
        + ∑ idx ∈ range ncol, bit (A (pA + idx)) i * bit (x (px + idx)) t := by
  have hinner : ∀ idx < ncol, ∀ v,
      forRange 64 (fun i' v =>
        if pb + i = pb + i' then
          v ^^^ (if (A (pA + idx)).getLsbD i' then x (px + idx) else 0#64)
        else v) v
        = v ^^^ (if (A (pA + idx)).getLsbD i then x (px + idx) else 0#64) := by
    intro idx _ v
    rw [forRange_only hi (fun i' _ hne v => if_neg (by omega)), if_pos rfl]
  rw [addmulTN64N64_apply, forRange_congr hinner, bit_forRange_xor]
  congr 1
  refine sum_congr rfl fun idx _ => ?_
  unfold bit
  cases (A (pA + idx)).getLsbD i <;> simp

theorem transp6464_apply (psrc y : ℕ) : transp6464 dst pdst src psrc y = forRange 64 (fun i v =>
          if y = pdst + i then
            forRange 64 (fun j v => v ^^^ (((src (psrc + j) >>> i) &&& 1#64) <<< j)) 0#64
          else v) (dst y) := by
  refine forRange_pointwise (fun i y v => if y = pdst + i then
    forRange 64 (fun j v => v ^^^ (((src (psrc + j) >>> i) &&& 1#64) <<< j)) 0#64 else v)
    (fun i dst y => ?_) dst y
  refine (forRange_pointwise (fun j y v => if y = pdst + i then
    v ^^^ (((src (psrc + j) >>> i) &&& 1#64) <<< j) else v)
    (fun j dst y => update_modify_apply dst (pdst + i) y
      fun v => v ^^^ (((src (psrc + j) >>> i) &&& 1#64) <<< j)) _ y).trans ?_
  rw [forRange_ite]
  by_cases hy : y = pdst + i
  · subst hy
    rw [if_pos rfl, if_pos rfl, Function.update_self]
  · rw [if_neg hy, if_neg hy, Function.update_of_ne hy]

theorem transp6464_frame {pdst y : ℕ} (src : Words) (psrc : ℕ)
    (hy : ∀ i < 64, y ≠ pdst + i) : transp6464 dst pdst src psrc y = dst y := by
  rw [transp6464_apply]
  exact forRange_id (fun i hi v => if_neg (hy i hi)) (dst y)

/-- `transp_6464` transposes. -/
theorem bit_transp6464 (psrc : ℕ) {i t : ℕ} (hi : i < 64) (ht : t < 64) :
    bit (transp6464 dst pdst src psrc (pdst + i)) t = bit (src (psrc + t)) i := by
  rw [transp6464_apply,
    forRange_only hi (fun i' _ hne v => if_neg (by omega)), if_pos rfl, bit_forRange_xor,
    bit_zero, zero_add]
  simp only [bit_shift_bit _ _ _ _ ht]
  rw [sum_ite_eq, if_pos (mem_range.mpr ht)]

/-! ## The table of row combinations -/

/-- The Gray code walk fills the table of the combinations of four rows. -/
theorem nibbleTable_eq (bb : ℕ → BitVec 64) {v : ℕ} (hv : v < 16) (t : ℕ) :
    bit (nibbleTable bb v) t
      = ∑ s ∈ range 4, ofBool (v.testBit s) * bit (bb s) t := by
  simp only [sum_range_succ, sum_range_zero, zero_add]
  have hentry : bit (nibbleTable bb v) t
      = ofBool (v.testBit 0) * bit (bb 0) t + ofBool (v.testBit 1) * bit (bb 1) t
        + ofBool (v.testBit 2) * bit (bb 2) t + ofBool (v.testBit 3) * bit (bb 3) t := by
    interval_cases v <;> simp only [nibbleTable, bit_xor, bit_zero] <;>
      generalize bit (bb 0) t = b0 <;> generalize bit (bb 1) t = b1 <;>
      generalize bit (bb 2) t = b2 <;> generalize bit (bb 3) t = b3 <;>
      revert b0 b1 b2 b3 <;> decide
  exact hentry

theorem sum_range_four_mul {M : Type*} [AddCommMonoid M] (n : ℕ) (f : ℕ → M) :
    ∑ k ∈ range (4 * n), f k = ∑ j ∈ range n, ∑ s ∈ range 4, f (4 * j + s) := by
  induction n with
  | zero => rfl
  | succ n ih => rw [Nat.mul_succ, sum_range_add, ih, sum_range_succ _ n]

/-- Sixteen table look-ups add up a row of a product. -/
theorem bit_addmulRow (B : Words) (pB : ℕ) (c aa : BitVec 64) (t : ℕ) :
    bit (addmulRow (fun j => nibbleTable fun s => B (pB + 4 * j + s)) c aa) t
      = bit c t + ∑ k ∈ range 64, bit aa k * bit (B (pB + k)) t := by
  let Bx := fun j => nibbleTable fun s => B (pB + 4 * j + s)
  have hnibble : ∀ j, bit (Bx j ((aa >>> (4 * j)) &&& 15#64).toNat) t
      = ∑ s ∈ range 4, bit aa (4 * j + s) * bit (B (pB + (4 * j + s))) t := by
    intro j
    have hlt : ((aa >>> (4 * j)) &&& 15#64).toNat < 16 := by
      rw [BitVec.toNat_and]
      exact Nat.lt_of_le_of_lt Nat.and_le_right (by decide)
    rw [nibbleTable_eq _ hlt]
    refine sum_congr rfl fun s hs => ?_
    have hmask : (15#64).getLsbD s = true := by
      have hs4 := mem_range.mp hs
      interval_cases s <;> rfl
    have hbit : ((aa >>> (4 * j)) &&& 15#64).toNat.testBit s = aa.getLsbD (4 * j + s) := by
      rw [BitVec.testBit_toNat, BitVec.getLsbD_and, BitVec.getLsbD_ushiftRight, hmask,
        Bool.and_true]
    rw [hbit, add_assoc]
    rfl
  have hloop : ∀ n, forRange n
      (fun j (p : BitVec 64 × BitVec 64) => (p.1 ^^^ Bx j (p.2 &&& 15#64).toNat, p.2 >>> 4))
        (c, aa)
      = (forRange n (fun j v => v ^^^ Bx j ((aa >>> (4 * j)) &&& 15#64).toNat) c,
        aa >>> (4 * n)) := by
    intro n
    induction n with
    | zero => simp
    | succ n ih => rw [forRange_succ, ih, forRange_succ, ← BitVec.shiftRight_add, Nat.mul_succ]
  have hlast : aa >>> 60 = (aa >>> 60) &&& 15#64 := by
    refine BitVec.eq_of_toNat_eq ?_
    have hlt : (aa >>> 60).toNat < 2 ^ 4 := by
      rw [BitVec.toNat_ushiftRight, Nat.shiftRight_eq_div_pow]
      exact Nat.div_lt_of_lt_mul (by have := aa.isLt; omega)
    rw [BitVec.toNat_and]
    exact (Nat.and_two_pow_sub_one_of_lt_two_pow hlt).symm
  have hrow : addmulRow Bx c aa
      = forRange 16 (fun j v => v ^^^ Bx j ((aa >>> (4 * j)) &&& 15#64).toNat) c := by
    have h15 := hloop 15
    rw [forRange_succ 15]
    unfold addmulRow
    rw [h15]
    simp only
    rw [← hlast]
  have hsum := sum_range_four_mul 16 fun k => bit aa k * bit (B (pB + k)) t
  rw [hrow, bit_forRange_xor, sum_congr rfl fun j _ => hnibble j, ← hsum]

theorem addmulN646464_apply (A : Words) (pA : ℕ) (B : Words) (pB m y : ℕ) :
    addmulN646464 C pC A pA B pB m y
      = forRange m (fun i v =>
          if y = pC + i then
            addmulRow (fun j => nibbleTable fun s => B (pB + 4 * j + s)) v (A (pA + i))
          else v) (C y) :=
  forRange_pointwise (fun i y v => if y = pC + i then
      addmulRow (fun j => nibbleTable fun s => B (pB + 4 * j + s)) v (A (pA + i)) else v)
    (fun i C y => update_modify_apply C (pC + i) y fun v =>
      addmulRow (fun j => nibbleTable fun s => B (pB + 4 * j + s)) v (A (pA + i))) C y

theorem addmulN646464_frame {pC y : ℕ} (A : Words) (pA : ℕ) (B : Words)
    (pB : ℕ) {m : ℕ} (hy : ∀ i < m, y ≠ pC + i) :
    addmulN646464 C pC A pA B pB m y = C y := by
  rw [addmulN646464_apply]
  exact forRange_id (fun i hi v => if_neg (hy i hi)) (C y)

/-- `addmul_N64_6464` adds the product of `A` and `B`. -/
theorem bit_addmulN646464 (A : Words) (pA : ℕ) (B : Words) (pB : ℕ) {m i : ℕ} (hi : i < m) (t : ℕ) :
    bit (addmulN646464 C pC A pA B pB m (pC + i)) t
      = bit (C (pC + i)) t + ∑ k ∈ range 64, bit (A (pA + i)) k * bit (B (pB + k)) t := by
  rw [addmulN646464_apply, forRange_only hi (fun i' _ hne v => if_neg (by omega)), if_pos rfl,
    bit_addmulRow]

end CadoNfs
