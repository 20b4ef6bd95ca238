import Mathlib.Data.Nat.ModEq
import Mathlib.Tactic.Ring

/-!
# Bytes of a word

A word of `n` bytes in memory, the least significant one first.  The difference of two words
is the word of the differences if no byte borrows from the next one.

Main results:

- Theorem `word_div_mod`: the bytes of a word.
- Theorem `subWord_apply`: a word is subtracted in memory.
- Theorem `subWord_subBytes`: one aligned word after the other.
-/

namespace CadoNfs.ByteWord

variable {n k : ℕ} {f h : ℕ → ℕ}

/-- The word of the bytes `f 0`, `f 1`, ... -/
def word : ℕ → (ℕ → ℕ) → ℕ
  | 0, _ => 0
  | n + 1, f => f 0 + 256 * word n fun k => f (k + 1)

theorem word_lt (hf : ∀ k < n, f k < 256) : word n f < 256 ^ n := by
  induction n generalizing f with
  | zero => simp [word]
  | succ n ih =>
    have hrest := ih (f := fun k => f (k + 1)) fun k hk => hf (k + 1) (by omega)
    have hfirst := hf 0 (by omega)
    rw [word, pow_succ]
    omega

/-- The bytes of a word. -/
theorem word_div_mod (hf : ∀ k < n, f k < 256) (hk : k < n) : word n f / 256 ^ k % 256 = f k := by
  induction n generalizing f k with
  | zero => omega
  | succ n ih =>
    have hfirst := hf 0 (by omega)
    cases k with
    | zero =>
      rw [word, pow_zero, Nat.div_one]
      omega
    | succ k =>
      have hdiv : (f 0 + 256 * word n fun k => f (k + 1)) / 256 = word n fun k => f (k + 1) := by
        omega
      rw [word, pow_succ', ← Nat.div_div_eq_div_mul, hdiv]
      exact ih (fun k hk => hf (k + 1) (by omega)) (by omega)

theorem word_succ_last (n : ℕ) (f : ℕ → ℕ) : word (n + 1) f = word n f + 256 ^ n * f n := by
  induction n generalizing f with
  | zero => simp [word]
  | succ n ih =>
    rw [word, ih, word, pow_succ]
    ring

theorem word_sub (hle : ∀ k < n, h k ≤ f k) :
    word n (fun k => f k - h k) + word n h = word n f := by
  induction n generalizing f h with
  | zero => rfl
  | succ n ih =>
    have hrest := ih (f := fun k => f (k + 1)) (h := fun k => h (k + 1))
      fun k hk => hle (k + 1) (by omega)
    have hfirst := hle 0 (by omega)
    simp only [word] at hrest ⊢
    omega

theorem word_sub_mod (hf : f 7 < 256) (hh : h 7 < 256) (hlt : ∀ k < 7, f k < 256)
    (hle : ∀ k < 7, h k ≤ f k) :
    (word 8 f + 2 ^ 64 - word 8 h) % 2 ^ 64
      = word 8 fun k => if k < 7 then f k - h k else (f k + 256 - h k) % 256 := by
  have hlow : (word 7 fun k => if k < 7 then f k - h k else (f k + 256 - h k) % 256)
      = word 7 fun k => f k - h k := by
    simp [word]
  have hsub := word_sub hle
  have hbound := word_lt (f := fun k => f k - h k) fun k hk => by
    have := hlt k hk
    omega
  rw [word_succ_last 7, word_succ_last 7, word_succ_last 7, hlow, if_neg (by omega)]
  omega

variable (S : ℕ → BitVec 8)

/-- The word `w` is subtracted from the 8 bytes from `x` on, modulo `2 ^ 64`. -/
def subWord (x : ℕ) (w : ℕ → ℕ) : ℕ → BitVec 8 :=
  let value := (word 8 (fun k => (S (x + k)).toNat) + 2 ^ 64 - word 8 w) % 2 ^ 64
  fun y => if x ≤ y ∧ y < x + 8 then BitVec.ofNat 8 (value / 256 ^ (y - x)) else S y

/-- A word is subtracted in memory. -/
theorem subWord_apply {S : ℕ → BitVec 8} {x : ℕ} {w : ℕ → ℕ} (hw : w 7 < 256)
    (hle : ∀ k < 7, w k ≤ (S (x + k)).toNat) (y : ℕ) :
    subWord S x w y
      = if x ≤ y ∧ y < x + 8 then S y - BitVec.ofNat 8 (w (y - x)) else S y := by
  have hbyte : ∀ k, (S (x + k)).toNat < 256 := fun k => (S (x + k)).isLt
  have hvalue := word_sub_mod (hbyte 7) hw (fun k _ => hbyte k) hle
  simp only [subWord, hvalue]
  split_ifs with hy
  · have hdigit := word_div_mod (n := 8) (k := y - x)
      (f := fun k => if k < 7 then (S (x + k)).toNat - w k
        else ((S (x + k)).toNat + 256 - w k) % 256) (fun k _ => by
          have := hbyte k
          split_ifs <;> omega) (by omega)
    refine BitVec.eq_of_toNat_eq ?_
    rw [BitVec.toNat_ofNat, hdigit, BitVec.toNat_sub, BitVec.toNat_ofNat, Nat.add_sub_cancel' hy.1]
    have hlt := (S y).isLt
    split_ifs with hlast
    · have hle' := hle (y - x) hlast
      rw [Nat.add_sub_cancel' hy.1] at hle'
      omega
    · obtain hlast : y - x = 7 := by omega
      rw [hlast]
      omega
  · rfl

/-! ## Aligned words -/

/-- From `lo` to `hi` the bytes of the word `w` are subtracted, one word after the
other. -/
def subBytes (w : ℕ → ℕ) (lo hi : ℕ) : ℕ → BitVec 8 :=
  fun y => if lo ≤ y ∧ y < hi then S y - BitVec.ofNat 8 (w (y % 8)) else S y

theorem subBytes_self (w : ℕ → ℕ) (lo : ℕ) : subBytes S w lo lo = S := by
  funext y
  exact if_neg (by omega)

/-- The next aligned word. -/
theorem subWord_subBytes {S : ℕ → BitVec 8} {w : ℕ → ℕ} {lo hi : ℕ} (hw : w 7 < 256)
    (hlo : lo ≤ hi) (halign : hi % 8 = 0)
    (hle : ∀ y, hi ≤ y → y < hi + 8 → y % 8 ≠ 7 → w (y % 8) ≤ (S y).toNat) :
    subWord (subBytes S w lo hi) hi w = subBytes S w lo (hi + 8) := by
  have hsame : ∀ y, hi ≤ y → subBytes S w lo hi y = S y := fun y hy => if_neg (by omega)
  have hbytes : ∀ k < 7, w k ≤ (subBytes S w lo hi (hi + k)).toNat := fun k hk => by
    have hmod : (hi + k) % 8 = k := by omega
    have hk' := hle (hi + k) (by omega) (by omega) (by omega)
    rwa [hmod, ← hsame (hi + k) (by omega)] at hk'
  funext y
  rw [subWord_apply hw hbytes]
  split_ifs with hy
  · have hmod : y - hi = y % 8 := by omega
    rw [hsame y hy.1, hmod]
    exact (if_pos (by omega)).symm
  · simp only [subBytes]
    exact if_congr (by omega) rfl rfl

end CadoNfs.ByteWord
