import CadoNfs.Lib.Word

/-!
# The carry primitives of ularith.h

Each primitive on `unsigned long` has an x86 instruction sequence and a
portable C fallback.  Both are modelled: the x86 text through the carry flag of
each instruction, the fallback with the comparisons that the C text makes.

Main results:

- Theorems `ularithAddUl2ul_eq`, `ularithAdd2ul2ul_eq`,
  `ularithSubUl2ul_eq` and `ularithSub2ul2ul_eq`: the primitives that
  drop the final carry compute the same words in both builds.
- Theorems `ularithAdd2ul2ulCy_noAsm_eq_iff`,
  `ularithSub2ul2ulCy_noAsm_eq_iff` and `ularithSub2ul2ulGe_noAsm_eq_iff`:
  a fallback that compares for the carry is right exactly when no all-ones high
  word takes a carry from below.
- Theorem `ularithIncNz_noAsm_eq_iff`: the fallback of the conditional
  increment is right exactly when there is nothing to add.
-/

namespace CadoNfs

open WordArith
open BitVec (allOnes eq_nil lt_def toNat_allOnes toNat_inj)
open Bool (toNat_false toNat_true)
open TwoWord (add lo sub sub_flag_iff)

variable {w : ℕ}

/-- Which text of `ularith.h` the preprocessor keeps. -/
inductive UlarithBuild where
  /-- The inline assembly for x86. -/
  | x86
  /-- The C fallback, `ULARITH_NO_ASM`. -/
  | noAsm
  deriving DecidableEq, Repr

/-! ## Increment, addition and subtraction -/

variable (build : UlarithBuild)

/-- `ularith_inc_nz (r, a)` on the memory that `r` points into. -/
def ularithIncNz (memory : ℕ → BitVec w) (r : ℕ) (a : BitVec w) :
    ℕ → BitVec w :=
  match build with
  | .x86 =>
    -- cmpq $1, a; sbbq $-1, *r
    let cf := subFlag a 1#w false
    Function.update memory r (subWord (memory r) (-1#w) cf)
  | .noAsm =>
    -- `r += 1` moves the local pointer, no word is written
    let _r := if a ≠ 0#w then r + 1 else r
    memory

/-- `ularith_add_ul_2ul`. -/
def ularithAddUl2ul (r : TwoWord w) (a : BitVec w) : TwoWord w :=
  match build with
  | .x86 =>
    -- addq a, r1; adcq $0, r2
    let cf := addFlag r.lo a false
    ⟨addWord r.lo a false, addWord r.hi 0 cf⟩
  | .noAsm =>
    let r1 := r.lo + a
    let r2 := if r1 < a then r.hi + 1#w else r.hi
    ⟨r1, r2⟩

variable (r a : TwoWord w)

/-- `ularith_add_2ul_2ul`. -/
def ularithAdd2ul2ul : TwoWord w :=
  match build with
  | .x86 =>
    -- addq a1, r1; adcq a2, r2
    let cf := addFlag r.lo a.lo false
    ⟨addWord r.lo a.lo false, addWord r.hi a.hi cf⟩
  | .noAsm =>
    let r1 := r.lo + a.lo
    let r2 := r.hi + (a.hi + (if r1 < a.lo then 1#w else 0#w))
    ⟨r1, r2⟩

/-- `ularith_add_2ul_2ul_cy`: the sum and the returned carry. -/
def ularithAdd2ul2ulCy : TwoWord w × Bool :=
  match build with
  | .x86 =>
    -- addq a1, r1; adcq a2, r2; setc cy
    let cf := addFlag r.lo a.lo false
    (⟨addWord r.lo a.lo false, addWord r.hi a.hi cf⟩, addFlag r.hi a.hi cf)
  | .noAsm =>
    let u1 := r.lo + a.lo
    let u2 := r.hi + a.hi
    let u2 := if u1 < r.lo then u2 + 1#w else u2
    let cy := decide (u2 < r.hi)
    (⟨u1, u2⟩, cy)

/-- `ularith_sub_ul_2ul`. -/
def ularithSubUl2ul (r : TwoWord w) (a : BitVec w) : TwoWord w :=
  match build with
  | .x86 =>
    -- subq a, r1; sbbq $0, r2
    let cf := subFlag r.lo a false
    ⟨subWord r.lo a false, subWord r.hi 0 cf⟩
  | .noAsm =>
    let u := r.lo
    let r1 := r.lo - a
    let r2 := if r1 > u then r.hi - 1#w else r.hi
    ⟨r1, r2⟩

/-- `ularith_sub_2ul_2ul`. -/
def ularithSub2ul2ul : TwoWord w :=
  match build with
  | .x86 =>
    -- subq a1, r1; sbbq a2, r2
    let cf := subFlag r.lo a.lo false
    ⟨subWord r.lo a.lo false, subWord r.hi a.hi cf⟩
  | .noAsm =>
    let u := r.lo
    let r1 := r.lo - a.lo
    let r2 := r.hi - a.hi
    let r2 := if r1 > u then r2 - 1#w else r2
    ⟨r1, r2⟩

/-- `ularith_sub_2ul_2ul_cy`: the difference and the returned borrow. -/
def ularithSub2ul2ulCy : TwoWord w × Bool :=
  match build with
  | .x86 =>
    -- subq a1, r1; sbbq a2, r2; setc cy
    let cf := subFlag r.lo a.lo false
    (⟨subWord r.lo a.lo false, subWord r.hi a.hi cf⟩, subFlag r.hi a.hi cf)
  | .noAsm =>
    let u1 := r.lo - a.lo
    let u2 := r.hi - a.hi
    let u2 := if u1 > r.lo then u2 - 1#w else u2
    let cy := decide (u2 > r.hi)
    (⟨u1, u2⟩, cy)

/-- `ularith_sub_2ul_2ul_ge`: subtract only if the result is
non-negative. -/
def ularithSub2ul2ulGe : TwoWord w :=
  let t1 := r.lo
  let t2 := r.hi
  match build with
  | .x86 =>
    -- subq a1, r1; sbbq a2, r2; cmovc t1, r1; cmovc t2, r2
    let cf := subFlag r.lo a.lo false
    let r1 := subWord r.lo a.lo false
    let r2 := subWord r.hi a.hi cf
    let cf := subFlag r.hi a.hi cf
    ⟨if cf then t1 else r1, if cf then t2 else r2⟩
  | .noAsm =>
    let t1 := t1 - a.lo
    let t2 := t2 - (a.hi + (if t1 > r.lo then 1#w else 0#w))
    if t2 ≤ r.hi then ⟨t1, t2⟩ else r

/-! ## The x86 sequences are exact -/

@[simp] theorem ularithAdd2ul2ul_x86 : ularithAdd2ul2ul .x86 r a = (r.add a).1 := rfl

@[simp] theorem ularithAdd2ul2ulCy_x86 : ularithAdd2ul2ulCy .x86 r a = r.add a := rfl

@[simp] theorem ularithSub2ul2ul_x86 : ularithSub2ul2ul .x86 r a = (r.sub a).1 := rfl

@[simp] theorem ularithSub2ul2ulCy_x86 : ularithSub2ul2ulCy .x86 r a = r.sub a := rfl

@[simp] theorem ularithAddUl2ul_x86 (r : TwoWord w) (a : BitVec w) :
    ularithAddUl2ul .x86 r a = (r.add ⟨a, 0⟩).1 := rfl

@[simp] theorem ularithSubUl2ul_x86 (r : TwoWord w) (a : BitVec w) :
    ularithSubUl2ul .x86 r a = (r.sub ⟨a, 0⟩).1 := rfl

theorem ularithSub2ul2ulGe_x86 :
    ularithSub2ul2ulGe .x86 r a = if a.value ≤ r.value then (r.sub a).1 else r := by
  have hflag := sub_flag_iff r a
  by_cases h : a.value ≤ r.value
  · have hcf : (r.sub a).2 = false := (TwoWord.sub_value_of_le h).2
    simp only [sub] at hcf
    simp [ularithSub2ul2ulGe, sub, hcf, h]
  · have hcf : (r.sub a).2 = true := hflag.mpr (Nat.lt_of_not_le h)
    simp only [sub] at hcf
    simp [ularithSub2ul2ulGe, hcf, h]

/-! ## What the comparisons of the fallback detect -/

theorem eq_allOnes_iff (a : BitVec w) : a = allOnes w ↔ a.toNat + 1 = 2 ^ w := by
  have ha := a.isLt
  rw [← toNat_inj, toNat_allOnes]
  omega

section

variable (r a : BitVec w)

theorem add_lt_left_iff : r + a < r ↔ addFlag r a false = true := by
  have hvalue := addWord_value r a false
  have hr := r.isLt
  have ha := a.isLt
  rw [← addWord_false, lt_def]
  cases h : addFlag r a false <;>
    simp only [h, toNat_false, toNat_true, iff_true] at hvalue ⊢ <;>
    simp <;> omega

theorem add_lt_right_iff : r + a < a ↔ addFlag r a false = true := by
  rw [BitVec.add_comm, add_lt_left_iff, addFlag, addFlag, Nat.add_comm a.toNat]

theorem lt_sub_iff : r < r - a ↔ subFlag r a false = true := by
  have hvalue := subWord_value r a false
  have hr := r.isLt
  have ha := a.isLt
  rw [← subWord_false, lt_def]
  cases h : subFlag r a false <;>
    simp only [h, toNat_false, toNat_true, iff_true] at hvalue ⊢ <;>
    simp <;> omega

theorem add_carry_lt_left_iff :
    r + a + 1#w < r ↔ addFlag r a true = true ∧ a ≠ allOnes w := by
  have hvalue := addWord_value r a true
  have hr := r.isLt
  have ha := a.isLt
  have hones := eq_allOnes_iff a
  rw [← addWord_true, lt_def]
  cases h : addFlag r a true <;>
    simp only [h, toNat_false, toNat_true, ne_eq, hones] at hvalue ⊢ <;>
    simp <;> omega

theorem lt_sub_borrow_iff : r < r - (a + 1#w) ↔ subFlag r a true = true ∧ a ≠ allOnes w := by
  have hvalue := subWord_value r a true
  have hr := r.isLt
  have ha := a.isLt
  have hones := eq_allOnes_iff a
  rw [← subWord_true, lt_def]
  cases h : subFlag r a true <;>
    simp only [h, toNat_false, toNat_true, ne_eq, hones] at hvalue ⊢ <;>
    simp <;> omega

end

theorem subFlag_allOnes (r : BitVec w) : subFlag r (allOnes w) true = true := by
  have hr := r.isLt
  simp only [subFlag, toNat_allOnes, toNat_true, decide_eq_true_eq]
  omega

theorem addFlag_allOnes (r : BitVec w) : addFlag r (allOnes w) true = true := by
  simp only [addFlag, toNat_allOnes, toNat_true, decide_eq_true_eq]
  omega

/-! ## The fallback computes the same words -/

theorem ularithAdd2ul2ulCy_fst : (ularithAdd2ul2ulCy build r a).1 = (r.add a).1 := by
  cases build with
  | x86 => rfl
  | noAsm =>
    cases h : addFlag r.lo a.lo false <;>
      simp [ularithAdd2ul2ulCy, add, add_lt_left_iff, h, addWord_false, addWord_true]

theorem ularithSub2ul2ulCy_fst : (ularithSub2ul2ulCy build r a).1 = (r.sub a).1 := by
  cases build with
  | x86 => rfl
  | noAsm =>
    cases h : subFlag r.lo a.lo false <;>
      simp [ularithSub2ul2ulCy, sub, lt_sub_iff, h, subWord_false, subWord_true, sub_sub]

/-- `ularith_add_ul_2ul` agrees in both builds. -/
theorem ularithAddUl2ul_eq (r : TwoWord w) (a : BitVec w) :
    ularithAddUl2ul build r a = (r.add ⟨a, 0⟩).1 := by
  cases build with
  | x86 => rfl
  | noAsm =>
    cases h : addFlag r.lo a false <;>
      simp [ularithAddUl2ul, add, add_lt_right_iff, h, addWord_false, addWord_true]

/-- `ularith_add_2ul_2ul` agrees in both builds. -/
theorem ularithAdd2ul2ul_eq : ularithAdd2ul2ul build r a = (r.add a).1 := by
  cases build with
  | x86 => rfl
  | noAsm =>
    cases h : addFlag r.lo a.lo false <;>
      simp [ularithAdd2ul2ul, add, add_lt_right_iff, h, addWord_false, addWord_true, add_assoc]

/-- `ularith_sub_ul_2ul` agrees in both builds. -/
theorem ularithSubUl2ul_eq (r : TwoWord w) (a : BitVec w) :
    ularithSubUl2ul build r a = (r.sub ⟨a, 0⟩).1 := by
  cases build with
  | x86 => rfl
  | noAsm =>
    cases h : subFlag r.lo a false <;>
      simp [ularithSubUl2ul, sub, lt_sub_iff, h, subWord_false, subWord_true]

/-- `ularith_sub_2ul_2ul` agrees in both builds. -/
theorem ularithSub2ul2ul_eq : ularithSub2ul2ul build r a = (r.sub a).1 := by
  cases build with
  | x86 => rfl
  | noAsm =>
    cases h : subFlag r.lo a.lo false <;>
      simp [ularithSub2ul2ul, sub, lt_sub_iff, h, subWord_false, subWord_true, sub_sub]

/-! ## Where the fallback returns the wrong flag -/

/-- The carry into an all-ones high summand, which the comparison misses. -/
def CarryMissed : Prop :=
  a.hi = allOnes w ∧ addFlag r.lo a.lo false = true

instance (r a : TwoWord w) : Decidable (CarryMissed r a) := by
  unfold CarryMissed
  infer_instance

/-- The borrow from an all-ones high subtrahend, which the comparison misses. -/
def BorrowMissed : Prop :=
  a.hi = allOnes w ∧ subFlag r.lo a.lo false = true

instance (r a : TwoWord w) : Decidable (BorrowMissed r a) := by
  unfold BorrowMissed
  infer_instance

theorem ularithAdd2ul2ulCy_noAsm_snd : (ularithAdd2ul2ulCy .noAsm r a).2
      = ((r.add a).2 && !decide (CarryMissed r a)) := by
  have hlow := add_lt_left_iff r.lo a.lo
  cases h : addFlag r.lo a.lo false with
  | false => simp [ularithAdd2ul2ulCy, add, CarryMissed, h, add_lt_left_iff]
  | true =>
    have hhigh := add_carry_lt_left_iff r.hi a.hi
    simp [ularithAdd2ul2ulCy, add, CarryMissed, h, hlow, hhigh]

theorem ularithSub2ul2ulCy_noAsm_snd : (ularithSub2ul2ulCy .noAsm r a).2
      = ((r.sub a).2 && !decide (BorrowMissed r a)) := by
  have hlow := lt_sub_iff r.lo a.lo
  cases h : subFlag r.lo a.lo false with
  | false => simp [ularithSub2ul2ulCy, sub, BorrowMissed, h, lt_sub_iff]
  | true =>
    have hhigh := lt_sub_borrow_iff r.hi a.hi
    simp [ularithSub2ul2ulCy, sub, BorrowMissed, h, hlow, hhigh, sub_sub]

theorem ularithSub2ul2ulGe_noAsm : ularithSub2ul2ulGe .noAsm r a
      = if (r.sub a).2 = false ∨ BorrowMissed r a then (r.sub a).1 else r := by
  have hlow := lt_sub_iff r.lo a.lo
  cases h : subFlag r.lo a.lo false with
  | false =>
    have hhigh := lt_sub_iff r.hi a.hi
    simp [ularithSub2ul2ulGe, sub, BorrowMissed, h, hlow, subWord_false, ← BitVec.not_lt, hhigh]
  | true =>
    have hhigh := lt_sub_borrow_iff r.hi a.hi
    simp [ularithSub2ul2ulGe, sub, BorrowMissed, h, hlow, subWord_false,
      subWord_true, ← BitVec.not_lt, hhigh, imp_iff_not_or]

theorem CarryMissed.carry {r a : TwoWord w} (h : CarryMissed r a) :
    (r.add a).2 = true := by
  simp [add, h.2, h.1, addFlag_allOnes]

/-- The fallback of the carry-returning sum agrees with the assembly exactly
when no carry is missed. -/
theorem ularithAdd2ul2ulCy_noAsm_eq_iff :
    ularithAdd2ul2ulCy .noAsm r a = ularithAdd2ul2ulCy .x86 r a ↔ ¬ CarryMissed r a := by
  have hwords := ularithAdd2ul2ulCy_fst .noAsm r a
  rw [Prod.ext_iff, ularithAdd2ul2ulCy_noAsm_snd]
  by_cases h : CarryMissed r a
  · simp [h, h.carry]
  · simp [h, hwords]

theorem BorrowMissed.borrow {r a : TwoWord w} (h : BorrowMissed r a) :
    (r.sub a).2 = true := by
  simp [sub, h.2, h.1, subFlag_allOnes]

/-- The fallback of the borrow-returning difference agrees with the assembly
exactly when no borrow is missed. -/
theorem ularithSub2ul2ulCy_noAsm_eq_iff :
    ularithSub2ul2ulCy .noAsm r a = ularithSub2ul2ulCy .x86 r a ↔ ¬ BorrowMissed r a := by
  have hwords := ularithSub2ul2ulCy_fst .noAsm r a
  rw [Prod.ext_iff, ularithSub2ul2ulCy_noAsm_snd]
  by_cases h : BorrowMissed r a
  · simp [h, h.borrow]
  · simp [h, hwords]

/-- The fallback of the conditional subtraction agrees with the assembly exactly
when no borrow is missed. -/
theorem ularithSub2ul2ulGe_noAsm_eq_iff :
    ularithSub2ul2ulGe .noAsm r a = ularithSub2ul2ulGe .x86 r a ↔ ¬ BorrowMissed r a := by
  rw [ularithSub2ul2ulGe_noAsm, ularithSub2ul2ulGe_x86]
  have hflag := sub_flag_iff r a
  by_cases h : BorrowMissed r a
  · -- the low words differ: a borrow leaves the low word only if it changes it
    have hlt : r.value < a.value := hflag.mp h.borrow
    have hne : (r.sub a).1 ≠ r := by
      intro heq
      have hvalue := TwoWord.sub_value r a
      have hlow : (subWord r.lo a.lo false).toNat = r.lo.toNat := by
        have hlo := congrArg lo heq
        simp only [sub] at hlo
        rw [hlo]
      have hword := subWord_value r.lo a.lo false
      have ha := a.lo.isLt
      simp only [h.2, hlow, toNat_false, toNat_true] at hword
      omega
    simp [h, Nat.not_le.mpr hlt, hne]
  · by_cases hle : a.value ≤ r.value
    · simp [h, hle, (TwoWord.sub_value_of_le hle).2]
    · simp [h, hle, hflag.mpr (Nat.lt_of_not_le hle)]

theorem ularithSub2ul2ulGe_noAsm_ite_iff :
    ularithSub2ul2ulGe .noAsm r a = (if a.value ≤ r.value then (r.sub a).1 else r)
      ↔ ¬ BorrowMissed r a := by
  rw [← ularithSub2ul2ulGe_noAsm_eq_iff, ularithSub2ul2ulGe_x86]

theorem ularithAdd2ul2ulCy_noAsm_carry_iff :
    ((ularithAdd2ul2ulCy .noAsm r a).2 = true ↔ 2 ^ w * 2 ^ w ≤ r.value + a.value)
      ↔ ¬ CarryMissed r a := by
  have hmissed : CarryMissed r a → (r.add a).2 = true := CarryMissed.carry
  rw [ularithAdd2ul2ulCy_noAsm_snd, ← TwoWord.add_flag_iff]
  simp only [Bool.and_eq_true, Bool.not_eq_true', decide_eq_false_iff_not]
  tauto

theorem ularithSub2ul2ulCy_noAsm_borrow_iff :
    ((ularithSub2ul2ulCy .noAsm r a).2 = true ↔ r.value < a.value)
      ↔ ¬ BorrowMissed r a := by
  have hmissed : BorrowMissed r a → (r.sub a).2 = true := BorrowMissed.borrow
  rw [ularithSub2ul2ulCy_noAsm_snd, ← sub_flag_iff]
  simp only [Bool.and_eq_true, Bool.not_eq_true', decide_eq_false_iff_not]
  tauto

variable (memory : ℕ → BitVec w)

section

variable (r : ℕ) (a : BitVec w)

theorem ularithIncNz_x86 : ularithIncNz .x86 memory r a
      = Function.update memory r (if a = 0#w then memory r else memory r + 1#w) := by
  rcases w with - | w
  · funext i
    rw [eq_nil (ularithIncNz .x86 memory r a i)]
    exact (eq_nil _).symm
  · have hflag : subFlag a 1#(w + 1) false = decide (a = 0#(w + 1)) := by
      simp [subFlag, ← toNat_inj]
    simp only [ularithIncNz, hflag]
    by_cases h : a = 0#(w + 1)
    · simp [h, subWord_true]
    · simp [h, subWord_false]

theorem ularithIncNz_noAsm_word_iff :
    (ularithIncNz .noAsm memory r a) r = (if a = 0#w then memory r else memory r + 1#w)
      ↔ a = 0#w := by
  simp only [ularithIncNz]
  by_cases h : a = 0#w
  · simp [h]
  · have hne : memory r ≠ memory r + 1#w := by
      rcases w with - | w
      · exact absurd (eq_nil a) h
      · simp
    simp [h, hne]

/-- The fallback of the conditional increment agrees with the assembly exactly
when there is nothing to add. -/
theorem ularithIncNz_noAsm_eq_iff :
    ularithIncNz .noAsm memory r a = ularithIncNz .x86 memory r a ↔ a = 0#w := by
  rw [ularithIncNz_x86]
  constructor
  · intro heq
    rw [← ularithIncNz_noAsm_word_iff memory r a, heq, Function.update_self]
  · intro h
    simp [ularithIncNz, h]

end

end CadoNfs
