import Mathlib.Tactic.IntervalCases

/-!
# Numbers in text

A number is written with `Nat.toDigits` and read digit by digit, in arithmetic modulo a
power of two, up to the first character that is no digit.

Main results:

- Theorem `readNumber_toDigits`: a number that is small enough is read back.
-/

namespace CadoNfs.Digits

open Nat (digitChar mod_lt toDigits)

/-- The loop that reads a number: `acc = acc * b + v` modulo `M` for each digit
`v`.  It gives the number and the text that is left. -/
def readNumber (value : Char → Option ℕ) (b M : ℕ) : ℕ → List Char → ℕ × List Char
  | acc, [] => (acc, [])
  | acc, c :: text =>
    match value c with
    | some v => readNumber value b M ((acc * b + v) % M) text
    | none => (acc, c :: text)

/-- The text does not start with a digit. -/
def Stops (value : Char → Option ℕ) (text : List Char) : Prop :=
  ∀ c ∈ text.head?, value c = none

section ReadNumber

variable {value : Char → Option ℕ} {b M acc : ℕ} {text : List Char}

theorem readNumber_of_stops (h : Stops value text) :
    readNumber value b M acc text = (acc, text) := by
  cases text with
  | nil => rfl
  | cons c text => rw [readNumber, h c rfl]

theorem stops_cons {c : Char} : Stops value (c :: text) ↔ value c = none := by
  simp [Stops]

section

variable (hvalue : ∀ d < b, value (digitChar d) = some d) (hb : 1 < b) {n : ℕ} (hn : n < M)
include hvalue hb hn

theorem readNumber_digits :
    readNumber value b M 0 (toDigits b n ++ text) = readNumber value b M n text := by
  induction n using Nat.strong_induction_on generalizing text with
  | h n ih =>
    rw [Nat.toDigits_eq_if hb]
    split_ifs with hlt
    · rw [List.singleton_append, readNumber, hvalue n hlt]
      simp [Nat.mod_eq_of_lt hn]
    · have hdiv : n / b < n := Nat.div_lt_self (by omega) hb
      rw [List.append_assoc, ih (n / b) hdiv (by omega), List.singleton_append, readNumber,
        hvalue (n % b) (mod_lt n (by omega))]
      simp [Nat.div_add_mod', Nat.mod_eq_of_lt hn]

/-- A number that is small enough is read back. -/
theorem readNumber_toDigits (hstops : Stops value text) :
    readNumber value b M 0 (toDigits b n ++ text) = (n, text) := by
  rw [readNumber_digits hvalue hb hn, readNumber_of_stops hstops]

end

section

variable {β : Type*} {f : ℤ → List Char → β}

theorem apply_toDigits_of_lt {m : ℤ} (hb : 1 < b)
    (hf : ∀ acc d text, 0 ≤ acc → d < b → b * acc + d < m →
      f acc (digitChar d :: text) = f (b * acc + d) text) {n : ℕ} (hn : n < m)
    (text : List Char) : f 0 (toDigits b n ++ text) = f n text := by
  induction n using Nat.strong_induction_on generalizing text with
  | h n ih =>
    rw [Nat.toDigits_eq_if hb]
    split_ifs with hlt
    · rw [List.singleton_append, hf 0 n text le_rfl hlt (by rwa [mul_zero, zero_add]), mul_zero,
        zero_add]
    · have hdiv : n / b < n := Nat.div_lt_self (by omega) hb
      have hvalue : (b : ℤ) * (n / b : ℕ) + (n % b : ℕ) = n := by exact_mod_cast Nat.div_add_mod n b
      rw [List.append_assoc, ih (n / b) hdiv (by omega), List.singleton_append,
        hf _ _ _ (Int.natCast_nonneg _) (mod_lt n (by omega)) (by rwa [hvalue]), hvalue]

theorem apply_toDigits (hb : 1 < b)
    (hf : ∀ acc d text, d < b → f acc (digitChar d :: text) = f (b * acc + d) text) (n : ℕ)
    (text : List Char) : f 0 (toDigits b n ++ text) = f n text :=
  apply_toDigits_of_lt hb (fun acc d text _ hd _ => hf acc d text hd) (Int.lt_succ n) text

end

theorem mem_toDigits (hb : 1 < b) {n : ℕ} {c : Char} (hc : c ∈ toDigits b n) :
    ∃ d < b, c = digitChar d := by
  induction n using Nat.strong_induction_on with
  | h n ih =>
    rw [Nat.toDigits_eq_if hb] at hc
    split_ifs at hc with hlt
    · exact ⟨n, hlt, List.mem_singleton.mp hc⟩
    · rcases List.mem_append.mp hc with hc | hc
      · exact ih (n / b) (Nat.div_lt_self (by omega) hb) hc
      · exact ⟨n % b, mod_lt n (by omega), List.mem_singleton.mp hc⟩

end ReadNumber

/-- The value of a digit in a base up to 16, with letters of both cases. -/
def digitValue (c : Char) : Option ℕ :=
  if '0' ≤ c ∧ c ≤ '9' then some (c.toNat - 48)
  else if 'A' ≤ c ∧ c ≤ 'F' then some (c.toNat - 55)
  else if 'a' ≤ c ∧ c ≤ 'f' then some (c.toNat - 87)
  else none

theorem digitValue_digitChar {d : ℕ} (hd : d < 16) :
    digitValue (digitChar d) = some d := by
  interval_cases d <;> decide

/-- The digits below the base `b`. -/
def digitBelow (b : ℕ) (c : Char) : Option ℕ :=
  (digitValue c).filter fun v => v < b

theorem digitBelow_digitChar {b d : ℕ} (hb : b ≤ 16) (hd : d < b) :
    digitBelow b (digitChar d) = some d := by
  simp [digitBelow, digitValue_digitChar (hd.trans_le hb), hd]

end CadoNfs.Digits
