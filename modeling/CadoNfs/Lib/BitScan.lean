import CadoNfs.Lib.Word
import Mathlib.Data.Nat.Bitwise

/-!
# Scanning the bits of a number from the top

A number of one or more words is scanned bit by bit, the highest bit first: a mask with one bit
moves down through a word, and starts again at the top bit of the next word.  What is
computed on the way is described by an invariant about the bits that have been scanned, taken
as a number.

Main results:

- Theorem `and_bit_eq_zero_iff`: the test of a bit.
- Theorem `maskLoop_spec`: the scan of the lower bits of a word.
- Theorem `wordsLoop_spec`: the scan of an array of words.
-/

namespace WordArith

open BitVec (allOnes getLsbD)

variable {w : ℕ}

/-! ## The test of a bit -/

/-- Testing the bit at position `k` against the scanned single-bit word. -/
theorem and_bit_eq_zero_iff (a : BitVec w) {k : ℕ} (hk : k < w) :
    a &&& (1#w <<< k) = 0#w ↔ a.toNat.testBit k = false := by
  have hw : 0 < w := by omega
  constructor
  · intro h
    have hbit := congrArg (fun x : BitVec w => x.getLsbD k) h
    simpa [hk, hw.ne', getLsbD] using hbit
  · intro h
    apply BitVec.eq_of_getLsbD_eq
    intro i hi
    by_cases hik : i = k
    · subst hik
      simp [getLsbD, h]
    · simp only [BitVec.getLsbD_and, BitVec.getLsbD_shiftLeft, BitVec.getLsbD_one,
        BitVec.getLsbD_zero]
      by_cases hlt : i < k
      · simp [hlt]
      · simp [show ¬ (i - k = 0) by omega]

theorem eq_shiftLeft_of_toNat {mask : BitVec w} {k : ℕ} (hmask : mask.toNat = 2 ^ k) :
    mask = 1#w <<< k ∧ k < w := by
  have hk : k < w := (Nat.pow_lt_pow_iff_right (by omega)).mp (hmask ▸ mask.isLt)
  refine ⟨BitVec.eq_of_toNat_eq ?_, hk⟩
  rw [hmask, BitVec.toNat_shiftLeft, BitVec.toNat_ofNat, Nat.shiftLeft_eq,
    Nat.mod_eq_of_lt (Nat.one_lt_two_pow (by omega)), one_mul,
    Nat.mod_eq_of_lt (Nat.pow_lt_pow_right (by omega) hk)]

theorem topMask_toNat : (allOnes w - allOnes w >>> 1).toNat = 2 ^ w / 2 := by
  have hpos := Nat.two_pow_pos w
  have heven : 2 ^ w % 2 = 0 ∨ 2 ^ w = 1 := by
    rcases w with - | w
    · exact Or.inr rfl
    · exact Or.inl (by rw [pow_succ, Nat.mul_mod_left])
  rw [BitVec.toNat_sub, BitVec.toNat_ushiftRight, BitVec.toNat_allOnes,
    Nat.shiftRight_eq_div_pow, pow_one]
  rw [show 2 ^ w - (2 ^ w - 1) / 2 + (2 ^ w - 1)
    = (2 ^ w - 1 - (2 ^ w - 1) / 2) + 2 ^ w by omega, Nat.add_mod_right,
    Nat.mod_eq_of_lt (by omega)]
  omega

theorem and_mask_toNat {mask : BitVec w} {k : ℕ} (hmask : mask.toNat = 2 ^ k) (e : BitVec w) :
    (decide (e &&& mask ≠ 0#w)).toNat = e.toNat / 2 ^ k % 2 := by
  obtain ⟨rfl, hk⟩ := eq_shiftLeft_of_toNat hmask
  simp [and_bit_eq_zero_iff e hk, Nat.toNat_testBit]

/-! ## One word -/

section Loops

variable {σ : Type} (step : Bool → σ → Outcome σ)

/-- The loop over the bits of a word from the mask on. -/
def maskLoop (e : BitVec w) : ℕ → BitVec w → σ → Outcome σ
  | 0, _, _ => .abort
  | fuel + 1, mask, s =>
    if mask > 0#w then do
      let s ← step (decide (e &&& mask ≠ 0#w)) s
      maskLoop e fuel (mask >>> 1) s
    else pure s

/-- The number that an array of words denotes, least significant word first. -/
def wordsValue (e : ℕ → BitVec w) : ℕ → ℕ
  | 0 => 0
  | n + 1 => (e n).toNat * 2 ^ (w * n) + wordsValue e n

/-- The loop over an array of words, from a mask in the last of them. -/
def wordsLoop (e : ℕ → BitVec w) : ℕ → BitVec w → σ → Outcome σ
  | 0, _, s => pure s
  | i + 1, mask, s => do
    let s ← maskLoop step (e i) (w + 1) mask s
    wordsLoop e i (allOnes w - allOnes w >>> 1) s

variable {step} {Inv : ℕ → σ → Prop}

/-- What a step does to the invariant: the scanned number gets one more binary digit. -/
def ScansBits (step : Bool → σ → Outcome σ) (Inv : ℕ → σ → Prop) : Prop :=
  ∀ n bit s, Inv n s → ∃ s', step bit s = pure s' ∧ Inv (2 * n + bit.toNat) s'

section

variable (hstep : ScansBits step Inv)
include hstep

/-- The scan appends the lower bits of the word to the number that has been scanned. -/
theorem maskLoop_spec (e : BitVec w) {j fuel n : ℕ}
    (hfuel : j < fuel) {mask : BitVec w} (hmask : mask.toNat = 2 ^ j / 2) {s : σ} (h : Inv n s) :
    ∃ s', maskLoop step e fuel mask s = pure s' ∧ Inv (n * 2 ^ j + e.toNat % 2 ^ j) s' := by
  induction j generalizing fuel n mask s with
  | zero =>
    obtain ⟨fuel, rfl⟩ := Nat.exists_eq_add_one_of_ne_zero hfuel.ne'
    have hzero : mask = 0#w := BitVec.eq_of_toNat_eq (by rw [hmask]; rfl)
    refine ⟨s, ?_, by simpa [Nat.mod_one] using h⟩
    simp [maskLoop, hzero]
  | succ j ih =>
    obtain ⟨fuel, rfl⟩ := Nat.exists_eq_add_one_of_ne_zero (by omega : fuel ≠ 0)
    have hbit : mask.toNat = 2 ^ j := by
      rw [hmask, pow_succ, Nat.mul_div_cancel _ (by omega)]
    have hpos : mask > 0#w := by
      rw [gt_iff_lt, BitVec.lt_def, BitVec.toNat_zero, hbit]
      exact Nat.two_pow_pos j
    obtain ⟨s₁, hs₁, h₁⟩ := hstep n (decide (e &&& mask ≠ 0#w)) s h
    have hnext : (mask >>> 1).toNat = 2 ^ j / 2 := by
      rw [BitVec.toNat_ushiftRight, hbit, Nat.shiftRight_eq_div_pow, pow_one]
    obtain ⟨s', hs', h'⟩ := ih (Nat.lt_of_succ_lt_succ hfuel) hnext h₁
    refine ⟨s', ?_, ?_⟩
    · rw [maskLoop, if_pos hpos, hs₁, pure_bind, hs']
    · convert h' using 1
      rw [and_mask_toNat hbit, pow_succ, Nat.mod_mul]
      ring

theorem wordsLoop_spec_full (e : ℕ → BitVec w) (i : ℕ) {n : ℕ} {s : σ} (h : Inv n s) :
    ∃ s', wordsLoop step e i (allOnes w - allOnes w >>> 1) s = pure s' ∧
      Inv (n * 2 ^ (w * i) + wordsValue e i) s' := by
  induction i generalizing n s with
  | zero => exact ⟨s, rfl, by simpa [wordsValue] using h⟩
  | succ i ih =>
    obtain ⟨s₁, hs₁, h₁⟩ := maskLoop_spec hstep (e i) (Nat.lt_succ_self w) topMask_toNat h
    obtain ⟨s', hs', h'⟩ := ih h₁
    refine ⟨s', by rw [wordsLoop, hs₁, pure_bind, hs'], ?_⟩
    convert h' using 1
    rw [Nat.mod_eq_of_lt (e i).isLt, wordsValue, Nat.mul_succ, pow_add]
    ring

/-- The scan of an array of words from a mask in the last of them. -/
theorem wordsLoop_spec (e : ℕ → BitVec w) {i j n : ℕ} (hj : j ≤ w)
    {mask : BitVec w} (hmask : mask.toNat = 2 ^ j / 2) {s : σ}
    (h : Inv ((e i).toNat / 2 ^ j) s) (hn : n = wordsValue e (i + 1)) :
    ∃ s', wordsLoop step e (i + 1) mask s = pure s' ∧ Inv n s' := by
  obtain ⟨s₁, hs₁, h₁⟩ := maskLoop_spec hstep (e i) (Nat.lt_succ_of_le hj) hmask h
  obtain ⟨s', hs', h'⟩ := wordsLoop_spec_full hstep e i h₁
  refine ⟨s', by rw [wordsLoop, hs₁, pure_bind, hs'], ?_⟩
  rwa [hn, wordsValue, ← Nat.div_add_mod' (e i).toNat (2 ^ j)]

end

end Loops

end WordArith
