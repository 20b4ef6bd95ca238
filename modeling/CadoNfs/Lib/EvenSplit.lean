import Mathlib.Tactic.Ring

/-!
# An interval that is cut into equal parts

The first `total` numbers are cut into consecutive parts, whose sizes differ by at most
one: the remainder is given to the first parts.

Main results:

- Theorem `exists_mem_part`: every number is in a part.
- Theorem `part_unique`: no number is in two parts.
-/

namespace EvenSplit

variable {total parts i j x : ℕ}

/-- The size of a part. -/
def size (total parts i : ℕ) : ℕ :=
  total / parts + if i < total % parts then 1 else 0

/-- The start of a part. -/
def start (total parts i : ℕ) : ℕ :=
  i * (total / parts) + min (total % parts) i

theorem start_succ (total parts i : ℕ) :
    start total parts (i + 1) = start total parts i + size total parts i := by
  rw [start, start, size, Nat.succ_mul]
  split_ifs <;> omega

theorem start_parts (hparts : 0 < parts) : start total parts parts = total := by
  have := Nat.mod_lt total hparts
  rw [start, min_eq_left this.le]
  exact Nat.div_add_mod total parts

theorem start_le_start (h : i ≤ j) : start total parts i ≤ start total parts j := by
  induction h with
  | refl => exact le_rfl
  | step _ ih => exact ih.trans (by rw [start_succ]; exact Nat.le_add_right _ _)

theorem start_add_size_le (hi : i < parts) :
    start total parts i + size total parts i ≤ total := by
  rw [← start_succ]
  calc start total parts (i + 1) ≤ start total parts parts := start_le_start hi
    _ = total := start_parts (by omega)

/-- The number `x` is in the part `i`. -/
def InPart (total parts i x : ℕ) : Prop :=
  start total parts i ≤ x ∧ x < start total parts i + size total parts i

instance (total parts i x : ℕ) : Decidable (InPart total parts i x) :=
  inferInstanceAs (Decidable (_ ∧ _))

/-- No number is in two parts. -/
theorem part_unique (hi : InPart total parts i x) (hj : InPart total parts j x) : i = j := by
  have hle : ∀ {i j}, InPart total parts i x → InPart total parts j x → i ≤ j := by
    intro i j hi hj
    by_contra hlt
    have : start total parts (j + 1) ≤ start total parts i := start_le_start (by omega)
    rw [start_succ] at this
    have h := hi.1
    have h' := hj.2
    omega
  exact le_antisymm (hle hi hj) (hle hj hi)

/-- The index of the part of a number, as a quotient. -/
def index (total parts x : ℕ) : ℕ :=
  if x < (total / parts + 1) * (total % parts) then x / (total / parts + 1)
  else (x - total % parts) / (total / parts)

theorem remainder_le (hx : ¬x < (total / parts + 1) * (total % parts)) : total % parts ≤ x := by
  rw [Nat.succ_mul] at hx
  omega

theorem quotient_pos (hlt : x < total)
    (hx : ¬x < (total / parts + 1) * (total % parts)) : 0 < total / parts := by
  by_contra hzero
  have hq : total / parts = 0 := Nat.eq_zero_of_not_pos hzero
  have hdiv := Nat.div_add_mod total parts
  rw [hq] at hx hdiv
  omega

/-- Every number lies in the part of its index. -/
theorem inPart_index (hparts : 0 < parts) (hlt : x < total) :
    InPart total parts (index total parts x) x ∧ index total parts x < parts := by
  have hdiv := Nat.div_add_mod total parts
  have hmod := Nat.mod_lt total hparts
  have hpos : ¬x < (total / parts + 1) * (total % parts) → 0 < total / parts := quotient_pos hlt
  have hrem : ¬x < (total / parts + 1) * (total % parts) → total % parts ≤ x := remainder_le
  rw [InPart, start, size, index]
  obtain ⟨q, hq⟩ : ∃ q, total / parts = q := ⟨_, rfl⟩
  obtain ⟨r, hr⟩ : ∃ r, total % parts = r := ⟨_, rfl⟩
  rw [hq, hr] at hdiv hpos hrem ⊢
  rw [hr] at hmod
  by_cases hx : x < (q + 1) * r
  · rw [if_pos hx]
    have hk : x / (q + 1) < r := Nat.div_lt_of_lt_mul hx
    have hspec := Nat.div_add_mod x (q + 1)
    have hxmod := Nat.mod_lt x (show 0 < q + 1 by omega)
    obtain ⟨k, hkdef⟩ : ∃ k, x / (q + 1) = k := ⟨_, rfl⟩
    rw [hkdef] at hk hspec ⊢
    rw [if_pos hk, min_eq_right hk.le]
    have hexpand : (q + 1) * k = k * q + k := by ring
    omega
  · rw [if_neg hx]
    have hq0 := hpos hx
    have hrx := hrem hx
    have hspec := Nat.div_add_mod (x - r) q
    have hxmod := Nat.mod_lt (x - r) hq0
    obtain ⟨k, hkdef⟩ : ∃ k, (x - r) / q = k := ⟨_, rfl⟩
    rw [hkdef] at hspec ⊢
    have hrk : r ≤ k := by
      rw [← hkdef, Nat.le_div_iff_mul_le hq0]
      have hexpand : (q + 1) * r = r * q + r := by ring
      omega
    have hkparts : k < parts := by
      rw [← hkdef, Nat.div_lt_iff_lt_mul hq0]
      have hcomm : parts * q = q * parts := mul_comm _ _
      rw [mul_comm] at hdiv
      omega
    rw [if_neg (by omega), min_eq_left hrk]
    have hcomm : q * k = k * q := mul_comm _ _
    omega

end EvenSplit
