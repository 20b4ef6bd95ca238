import Mathlib.Data.BitVec
import Mathlib.Tactic.Ring
import Mathlib.Tactic.Linarith

/-!
# Machine words with carry flags

This module fixes the word-level arithmetic that multi-word code is made of:
one-word additions and subtractions with an incoming and an outgoing carry, and
the numbers that a low and a high word denote together.

Main results:

- Theorems `addWord_value` and `subWord_value`: the result word and
  the flag together are the exact sum or difference.
- Theorems `TwoWord.add_value` and `TwoWord.sub_value`: rippling the
  flag through two words is exact as well.
- Theorem `TwoWord.value_lt_iff`: the order of the numbers is the
  lexicographic order of the words, high word first.
- Definition `Outcome`: straight-line word code that may fail an assertion
  and that records whether the carry out of an addition was dropped.
-/

namespace WordArith

open BitVec (eq_of_toNat_eq ofNat toNat_add toNat_ofNat)
open Bool (toNat_false toNat_le toNat_true)

variable {w : ℕ}

/-! ## One word -/

theorem toNat_const {k : ℕ} (hk : k < 2 ^ w) : (ofNat w k).toNat = k := by
  rw [toNat_ofNat, Nat.mod_eq_of_lt hk]

variable (a b : BitVec w) (c : Bool)

/-- The sum word of `a`, `b` and an incoming carry. -/
def addWord : BitVec w :=
  ofNat w (a.toNat + b.toNat + c.toNat)

/-- The carry out of `a + b + c`. -/
def addFlag : Bool :=
  decide (2 ^ w ≤ a.toNat + b.toNat + c.toNat)

/-- The difference word of `a`, `b` and an incoming borrow. -/
def subWord : BitVec w :=
  ofNat w (2 ^ w + a.toNat - (b.toNat + c.toNat))

/-- The borrow out of `a - b - c`. -/
def subFlag : Bool :=
  decide (a.toNat < b.toNat + c.toNat)

/-- Sum word and carry together are the exact sum. -/
theorem addWord_value : (addWord a b c).toNat + 2 ^ w * (addFlag a b c).toNat
      = a.toNat + b.toNat + c.toNat := by
  have ha := a.isLt
  have hb := b.isLt
  have hc := toNat_le c
  by_cases h : 2 ^ w ≤ a.toNat + b.toNat + c.toNat
  · have hmod : (a.toNat + b.toNat + c.toNat) % 2 ^ w
        = a.toNat + b.toNat + c.toNat - 2 ^ w := by
      rw [Nat.mod_eq_sub_mod h, Nat.mod_eq_of_lt (by omega)]
    simp only [addWord, addFlag, h, toNat_ofNat, hmod, decide_true, toNat_true]
    omega
  · simp [addWord, addFlag, h, Nat.mod_eq_of_lt (Nat.lt_of_not_le h)]

/-- Difference word and borrow together are the exact difference. -/
theorem subWord_value : (subWord a b c).toNat + b.toNat + c.toNat
      = a.toNat + 2 ^ w * (subFlag a b c).toNat := by
  have ha := a.isLt
  have hb := b.isLt
  have hc := toNat_le c
  by_cases h : a.toNat < b.toNat + c.toNat
  · have hmod : (2 ^ w + a.toNat - (b.toNat + c.toNat)) % 2 ^ w
        = 2 ^ w + a.toNat - (b.toNat + c.toNat) := Nat.mod_eq_of_lt (by omega)
    simp only [subWord, subFlag, h, toNat_ofNat, hmod, decide_true, toNat_true]
    omega
  · have hmod : (2 ^ w + a.toNat - (b.toNat + c.toNat)) % 2 ^ w
        = a.toNat - (b.toNat + c.toNat) := by
      rw [Nat.mod_eq_sub_mod (by omega), Nat.mod_eq_of_lt (by omega)]
      omega
    simp only [subWord, subFlag, h, toNat_ofNat, hmod, decide_false, toNat_false]
    omega

theorem addWord_false : addWord a b false = a + b := by
  apply eq_of_toNat_eq
  simp [addWord, toNat_add]

theorem addWord_true : addWord a b true = a + b + 1#w := by
  apply eq_of_toNat_eq
  simp [addWord, toNat_add]

theorem subWord_add_cancel : subWord a b c + b + ofNat w c.toNat = a := by
  have hvalue := subWord_value a b c
  apply eq_of_toNat_eq
  simp only [toNat_add, toNat_ofNat, Nat.add_mod_mod, Nat.mod_add_mod]
  rw [hvalue, Nat.add_mul_mod_self_left, Nat.mod_eq_of_lt a.isLt]

theorem subWord_false : subWord a b false = a - b := by
  have hcancel := subWord_add_cancel a b false
  simp only [toNat_false, BitVec.add_zero] at hcancel
  rw [← hcancel, BitVec.add_sub_cancel, hcancel]

theorem subWord_true : subWord a b true = a - (b + 1#w) := by
  have hcancel := subWord_add_cancel a b true
  simp only [toNat_true, BitVec.add_assoc] at hcancel
  rw [eq_sub_iff_add_eq]
  exact hcancel

/-! ## Two words -/

/-- A low and a high word. -/
structure TwoWord (w : ℕ) where
  /-- Word of weight one. -/
  lo : BitVec w
  /-- Word of weight `2 ^ w`. -/
  hi : BitVec w
  deriving DecidableEq, Repr

namespace TwoWord

variable (t : TwoWord w)

/-- The number that the two words denote. -/
def value : ℕ :=
  t.lo.toNat + 2 ^ w * t.hi.toNat

/-- Exact two-word sum: result words and the carry out of the high word. -/
def add (r a : TwoWord w) : TwoWord w × Bool :=
  let c := addFlag r.lo a.lo false
  (⟨addWord r.lo a.lo false, addWord r.hi a.hi c⟩, addFlag r.hi a.hi c)

/-- Exact two-word difference: result words and the borrow out of the high
word. -/
def sub (r a : TwoWord w) : TwoWord w × Bool :=
  let c := subFlag r.lo a.lo false
  (⟨subWord r.lo a.lo false, subWord r.hi a.hi c⟩, subFlag r.hi a.hi c)

theorem value_lt : t.value < 2 ^ w * 2 ^ w := by
  have hlo := t.lo.isLt
  have hhi := t.hi.isLt
  calc t.lo.toNat + 2 ^ w * t.hi.toNat
      < 2 ^ w + 2 ^ w * t.hi.toNat := by omega
    _ = 2 ^ w * (t.hi.toNat + 1) := by ring
    _ ≤ 2 ^ w * 2 ^ w := Nat.mul_le_mul_left _ hhi

theorem value_mod : t.value % 2 ^ w = t.lo.toNat := by
  rw [value, Nat.add_mul_mod_self_left, Nat.mod_eq_of_lt t.lo.isLt]

theorem value_div : t.value / 2 ^ w = t.hi.toNat := by
  rw [value, Nat.add_mul_div_left _ _ (Nat.two_pow_pos w), Nat.div_eq_of_lt t.lo.isLt, zero_add]

theorem value_mod_two (hw : 0 < w) (t : TwoWord w) : t.value % 2 = t.lo.toNat % 2 := by
  have hdvd : 2 ∣ 2 ^ w * t.hi.toNat := (dvd_pow_self 2 (by omega)).mul_right _
  unfold value
  omega

theorem value_injective : Function.Injective (value : TwoWord w → ℕ) := by
  intro s t h
  have hlo : s.lo = t.lo := eq_of_toNat_eq (by rw [← value_mod, h, value_mod])
  have hhi : s.hi = t.hi := eq_of_toNat_eq (by rw [← value_div, h, value_div])
  cases s
  cases t
  simp_all

theorem value_lt_iff (s t : TwoWord w) :
    s.value < t.value ↔
      s.hi.toNat < t.hi.toNat ∨ (s.hi.toNat = t.hi.toNat ∧ s.lo.toNat < t.lo.toNat) := by
  have hs := s.lo.isLt
  have ht := t.lo.isLt
  unfold value
  rcases Nat.lt_trichotomy s.hi.toNat t.hi.toNat with h | h | h
  · have hstep : 2 ^ w * (s.hi.toNat + 1) ≤ 2 ^ w * t.hi.toNat :=
      Nat.mul_le_mul_left _ h
    rw [mul_add] at hstep
    constructor <;> intro <;> omega
  · rw [h]
    omega
  · have hstep : 2 ^ w * (t.hi.toNat + 1) ≤ 2 ^ w * s.hi.toNat :=
      Nat.mul_le_mul_left _ h
    rw [mul_add] at hstep
    constructor <;> intro <;> omega

section

variable (r a : TwoWord w)

theorem add_value : (r.add a).1.value + 2 ^ w * 2 ^ w * (r.add a).2.toNat = r.value + a.value := by
  have hlo := addWord_value r.lo a.lo false
  have hhi := addWord_value r.hi a.hi (addFlag r.lo a.lo false)
  simp only [add, value, toNat_false] at *
  calc _ = (addWord r.lo a.lo false).toNat + 2 ^ w *
          ((addWord r.hi a.hi (addFlag r.lo a.lo false)).toNat
            + 2 ^ w * (addFlag r.hi a.hi (addFlag r.lo a.lo false)).toNat) := by ring
    _ = ((addWord r.lo a.lo false).toNat + 2 ^ w * (addFlag r.lo a.lo false).toNat)
          + 2 ^ w * (r.hi.toNat + a.hi.toNat) := by rw [hhi]; ring
    _ = _ := by rw [hlo]; ring

theorem sub_value : (r.sub a).1.value + a.value = r.value + 2 ^ w * 2 ^ w * (r.sub a).2.toNat := by
  have hlo := subWord_value r.lo a.lo false
  have hhi := subWord_value r.hi a.hi (subFlag r.lo a.lo false)
  simp only [sub, value, toNat_false] at *
  calc _ = ((subWord r.lo a.lo false).toNat + a.lo.toNat + 0)
          + 2 ^ w * ((subWord r.hi a.hi (subFlag r.lo a.lo false)).toNat + a.hi.toNat) := by
        ring
    _ = r.lo.toNat + 2 ^ w *
          ((subWord r.hi a.hi (subFlag r.lo a.lo false)).toNat + a.hi.toNat
            + (subFlag r.lo a.lo false).toNat) := by rw [hlo]; ring
    _ = _ := by rw [hhi]; ring

theorem add_flag_iff : (r.add a).2 = true ↔ 2 ^ w * 2 ^ w ≤ r.value + a.value := by
  have hvalue := add_value r a
  have hlt := value_lt (r.add a).1
  cases h : (r.add a).2 <;> simp only [h, toNat_false, toNat_true] at hvalue
  · simp only [Bool.false_eq_true, false_iff]
    omega
  · simp only [true_iff]
    omega

theorem sub_flag_iff : (r.sub a).2 = true ↔ r.value < a.value := by
  have hvalue := sub_value r a
  have hlt := value_lt (r.sub a).1
  cases h : (r.sub a).2 <;> simp only [h, toNat_false, toNat_true] at hvalue
  · simp only [Bool.false_eq_true, false_iff]
    omega
  · simp only [true_iff]
    omega

end

theorem add_value_of_lt {r a : TwoWord w} (h : r.value + a.value < 2 ^ w * 2 ^ w) :
    (r.add a).1.value = r.value + a.value ∧ (r.add a).2 = false := by
  have hflag : (r.add a).2 = false := by
    rw [← Bool.not_eq_true, add_flag_iff]
    omega
  have hvalue := add_value r a
  simp only [hflag, toNat_false] at hvalue
  exact ⟨by omega, hflag⟩

theorem sub_value_of_le {r a : TwoWord w} (h : a.value ≤ r.value) :
    (r.sub a).1.value = r.value - a.value ∧ (r.sub a).2 = false := by
  have hflag : (r.sub a).2 = false := by
    rw [← Bool.not_eq_true, sub_flag_iff]
    omega
  have hvalue := sub_value r a
  simp only [hflag, toNat_false] at hvalue
  exact ⟨by omega, hflag⟩

/-- The exact product of two words. -/
def mulWide (a b : BitVec w) : TwoWord w :=
  ⟨ofNat w (a.toNat * b.toNat), ofNat w (a.toNat * b.toNat / 2 ^ w)⟩

theorem mulWide_value (a b : BitVec w) : (mulWide a b).value = a.toNat * b.toNat := by
  have hlt : a.toNat * b.toNat < 2 ^ w * 2 ^ w := Nat.mul_lt_mul'' a.isLt b.isLt
  have hdiv : a.toNat * b.toNat / 2 ^ w < 2 ^ w := Nat.div_lt_of_lt_mul hlt
  simp only [value, mulWide, toNat_ofNat, Nat.mod_eq_of_lt hdiv]
  exact Nat.mod_add_div _ _

end TwoWord

/-! ## Runs that may fail an assertion or drop a carry -/

/-- What a run of word code ends in: a failed assertion, or a value together
with the note whether the carry out of some addition was dropped on the way. -/
inductive Outcome (α : Type) where
  | abort
  | done (value : α) (carryLost : Bool)
  deriving DecidableEq, Repr

namespace Outcome

variable {α β γ : Type} (x : Outcome α)

/-- Run `f` on the value; a dropped carry stays on record. -/
def andThen (f : α → Outcome β) : Outcome β :=
  match x with
  | .abort => .abort
  | .done a lost =>
    match f a with
    | .abort => .abort
    | .done b lost' => .done b (lost || lost')

instance : Monad Outcome where
  pure a := .done a false
  bind := andThen

/-- The value, unless an assertion failed. -/
def toOption : Outcome α → Option α
  | .abort => none
  | .done a _ => some a

@[simp] theorem toOption_pure (a : α) : toOption (pure a) = some a :=
  rfl

/-- Continue only if the asserted condition holds. -/
def assert (p : Prop) [Decidable p] : Outcome Unit :=
  if p then pure () else .abort

/-- An addition whose final carry is dropped. -/
def dropCarry (result : α × Bool) : Outcome α :=
  .done result.1 result.2

@[simp] theorem pure_bind (a : α) (f : α → Outcome β) : (pure a >>= f) = f a := by
  change andThen (.done a false) f = f a
  cases h : f a <;> simp [andThen, h]

@[simp] theorem bind_pure : (x >>= pure) = x := by
  change andThen x (fun a => .done a false) = x
  cases x <;> simp [andThen]

theorem bind_assoc (f : α → Outcome β) (g : β → Outcome γ) :
    ((x >>= f) >>= g) = (x >>= fun a => f a >>= g) := by
  change andThen (andThen x f) g = andThen x (fun a => andThen (f a) g)
  cases x with
  | abort => rfl
  | done a lost =>
    cases hf : f a with
    | abort => simp [andThen, hf]
    | done b lost' => cases hg : g b <;> simp [andThen, hf, hg, Bool.or_assoc]

instance : LawfulMonad Outcome :=
  LawfulMonad.mk' Outcome bind_pure pure_bind bind_assoc

theorem exists_of_bind_eq_pure {x : Outcome α} {f : α → Outcome β} {b : β}
    (h : (x >>= f) = pure b) : ∃ a, x = pure a ∧ f a = pure b := by
  change andThen x f = .done b false at h
  cases x with
  | abort => exact absurd h (by simp [andThen])
  | done a lost =>
    cases hf : f a with
    | abort => exact absurd h (by simp [andThen, hf])
    | done b' lost' =>
      simp only [andThen, hf, Outcome.done.injEq, Bool.or_eq_false_iff] at h
      obtain ⟨rfl, rfl, rfl⟩ := h
      exact ⟨a, rfl, hf⟩

theorem assert_of {p : Prop} [Decidable p] (h : p) : assert p = pure () := by
  simp [assert, h]

theorem dropCarry_of {result : α × Bool} (h : result.2 = false) :
    dropCarry result = pure result.1 := by
  simp only [dropCarry, h]
  rfl

end Outcome

end WordArith
