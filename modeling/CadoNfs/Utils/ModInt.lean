import CadoNfs.Utils.Modredc

/-!
# Integers of the three arithmetics

The functions `mod_int*` that code uses when it is compiled once for each of
`modredc_ul.h`, `modredc_15ul.h` and `modredc_2ul2.h`.  An integer is
kept as two words; at the width of one word the high word is absent, that is, zero.

Main results:

- Theorems `modIntequal_iff`, `modIntcmpUl_pos_iff`: equality and the
  comparison with a word are exact.
- Theorem `modIntcmp_le`: at the width of one word the comparison sees only the
  low word of its second operand, and still never reports too small a number.
- Theorem `modIntdivexact_spec`: the exact quotient by an odd divisor.
-/

namespace CadoNfs

open WordArith
open BitVec (eq_of_toNat_eq isLt lt_def ofNat toNat_inj toNat_mul toNat_ofNat)
open TwoWord (mulWide value value_div value_mod value_mod_two)

variable {w : ℕ}

/-! ## Definitions -/

/-- The arithmetic a source file is compiled for. -/
inductive ModArith where
  /-- `modredc_ul.h`, one word. -/
  | modredcul
  /-- `modredc_15ul.h`, a word and a half. -/
  | modredc15ul
  /-- `modredc_2ul2.h`, two words less two bits. -/
  | modredc2ul2
  deriving DecidableEq, Repr

/-- `MOD_SIZE`. -/
def ModArith.size (arith : ModArith) : ℕ :=
  match arith with
  | .modredcul => 1
  | .modredc15ul => 2
  | .modredc2ul2 => 2

/-- The integer has `MOD_SIZE` words. -/
def ModArith.Fits (arith : ModArith) (a : TwoWord w) : Prop :=
  arith = .modredcul → a.hi = 0#w

section Definitions

variable (build : UlarithBuild) (arith : ModArith)

/-- `mod_intequal`. -/
def modIntequal (a b : TwoWord w) : Bool :=
  match arith with
  | .modredcul => a.lo == b.lo
  | _ => a.lo == b.lo && a.hi == b.hi

/-- `mod_intequal_ul`. -/
def modIntequalUl (a : TwoWord w) (b : BitVec w) : Bool :=
  match arith with
  | .modredcul => a.lo == b
  | _ => a.lo == b && a.hi == 0#w

/-- The comparison of two words. -/
def wordCmp (a b : BitVec w) : ℤ :=
  if a < b then -1 else if a = b then 0 else 1

/-- `mod_intcmp`. -/
def modIntcmp (a b : TwoWord w) : ℤ :=
  match arith with
  | .modredcul => wordCmp a.lo b.lo
  | _ => if a.hi < b.hi then -1 else if a.hi > b.hi then 1 else wordCmp a.lo b.lo

/-- `mod_intcmp_ul`. -/
def modIntcmpUl (a : TwoWord w) (b : BitVec w) : ℤ :=
  match arith with
  | .modredcul => wordCmp a.lo b
  | _ => if a.hi > 0#w then 1 else wordCmp a.lo b

/-- `mod_intbits`. -/
def modIntbits (a : TwoWord w) : ℕ :=
  match arith with
  | .modredcul => if a.lo = 0#w then 0 else w - ularithClz build a.lo
  | _ =>
    if a.hi > 0#w then 2 * w - ularithClz build a.hi
    else if a.lo > 0#w then w - ularithClz build a.lo
    else 0

/-- The loop of `modredc*_intdivexact` that makes the divisor odd. -/
def modredcIntdivexactLoop (fuel : ℕ) (n d : TwoWord w) : TwoWord w × TwoWord w :=
  match fuel with
  | 0 => (n, d)
  | fuel + 1 =>
    if d.lo.toNat % 2 = 0 then
      modredcIntdivexactLoop fuel (modredcIntshr build n 1) (modredcIntshr build d 1)
    else
      (n, d)

/-- `modredc2ul2_intdivexact` and `modredc15ul_intdivexact`; the loop needs
no more turns than the divisor has bits. -/
def modredcIntdivexact (n d : TwoWord w) : Outcome (TwoWord w) := do
  let (n1, d1) := modredcIntdivexactLoop build (2 * w) n d
  let invf ← ularithInvmod d1.lo
  let r0 := invf * n1.lo
  let k ← ularithMulUlUl2ul build r0 d1.lo
  let n1 := ularithSub2ul2ul build n1 k
  let n1 : TwoWord w := ⟨n1.lo, n1.hi - r0 * d1.hi⟩
  Outcome.assert (n1.lo = 0#w)
  pure ⟨r0, invf * n1.hi⟩

/-- `mod_intdivexact`. -/
def modIntdivexact (n d : TwoWord w) : Outcome (TwoWord w) :=
  match arith with
  | .modredcul => do
    let invf ← ularithInvmod d.lo
    pure ⟨n.lo * invf, 0#w⟩
  | _ => modredcIntdivexact build n d

end Definitions

/-! ## Comparisons -/

section Comparisons

variable {arith : ModArith} {a b : TwoWord w}

theorem value_of_hi_zero (h : a.hi = 0#w) : a.value = a.lo.toNat := by
  simp [value, h]

theorem hi_eq_zero_iff : a.hi = 0#w ↔ a.value < 2 ^ w := by
  constructor
  · intro h
    rw [value_of_hi_zero h]
    exact a.lo.isLt
  · intro h
    apply eq_of_toNat_eq
    rw [← value_div, Nat.div_eq_of_lt h]
    simp

/-- Equality is exact. -/
theorem modIntequal_iff (ha : arith.Fits a) (hb : arith.Fits b) :
    modIntequal arith a b = true ↔ a.value = b.value := by
  constructor
  · cases arith with
    | modredcul =>
      intro h
      rw [value_of_hi_zero (ha rfl), value_of_hi_zero (hb rfl), eq_of_beq h]
    | modredc15ul | modredc2ul2 =>
      intro h
      obtain ⟨hlo, hhi⟩ := Bool.and_eq_true_iff.mp h
      rw [value, value, eq_of_beq hlo, eq_of_beq hhi]
  · intro h
    rw [TwoWord.value_injective h]
    cases arith <;> simp [modIntequal]

theorem modIntequalUl_iff (ha : arith.Fits a) (b : BitVec w) :
    modIntequalUl arith a b = true ↔ a.value = b.toNat := by
  have hword : modIntequalUl arith a b = modIntequal arith a ⟨b, 0#w⟩ := by
    cases arith <;> rfl
  rw [hword, modIntequal_iff ha (fun _ => rfl), value_of_hi_zero (a := ⟨b, 0#w⟩) rfl]

theorem wordCmp_pos_iff (a b : BitVec w) : 0 < wordCmp a b ↔ b.toNat < a.toNat := by
  unfold wordCmp
  simp only [lt_def, ← toNat_inj]
  split_ifs <;> omega

/-- The comparison with a word is exact. -/
theorem modIntcmpUl_pos_iff (ha : arith.Fits a) (b : BitVec w) :
    modIntcmpUl arith a b > 0 ↔ b.toNat < a.value := by
  have hword : a.hi = 0#w → (wordCmp a.lo b > 0 ↔ b.toNat < a.value) := by
    intro h
    rw [value_of_hi_zero h]
    exact wordCmp_pos_iff a.lo b
  cases arith with
  | modredcul => exact hword (ha rfl)
  | modredc15ul | modredc2ul2 =>
    unfold modIntcmpUl
    by_cases h : a.hi > 0#w
    · have hbase : 2 ^ w ≤ a.value := by
        rw [← not_lt, ← hi_eq_zero_iff]
        rintro heq
        simp [heq] at h
      have hb := b.isLt
      simp only [if_pos h]
      exact ⟨fun _ => by omega, fun _ => by decide⟩
    · have hzero : a.hi = 0#w := by
        rw [gt_iff_lt, lt_def] at h
        apply eq_of_toNat_eq
        simp only [toNat_ofNat, Nat.zero_mod] at h ⊢
        omega
      simp only [if_neg h]
      exact hword hzero

theorem modIntcmpUl_eq_zero_iff (ha : arith.Fits a) (b : BitVec w) :
    modIntcmpUl arith a b = 0 ↔ a.value = b.toNat := by
  have hcmp : wordCmp a.lo b = 0 ↔ a.lo.toNat = b.toNat := by
    unfold wordCmp
    simp only [lt_def, ← toNat_inj]
    split_ifs with hlt heq
    · exact ⟨fun h => absurd h (by decide), fun h => by omega⟩
    · exact ⟨fun _ => heq, fun _ => rfl⟩
    · exact ⟨fun h => absurd h (by decide), fun h => absurd h heq⟩
  have hword : a.hi = 0#w → (wordCmp a.lo b = 0 ↔ a.value = b.toNat) := by
    intro h
    rw [value_of_hi_zero h]
    exact hcmp
  cases arith with
  | modredcul => exact hword (ha rfl)
  | modredc15ul | modredc2ul2 =>
    unfold modIntcmpUl
    by_cases h : a.hi = 0#w
    · simp only [h, gt_iff_lt, BitVec.lt_irrefl, if_false]
      exact hword h
    · have hbase : 2 ^ w ≤ a.value := by
        rw [← not_lt, ← hi_eq_zero_iff]
        exact h
      have hpos : a.hi > 0#w := by
        rw [gt_iff_lt, lt_def, BitVec.toNat_zero, Nat.pos_iff_ne_zero]
        exact fun hz => h (eq_of_toNat_eq (by simpa using hz))
      have hb := b.isLt
      simp only [if_pos hpos]
      exact ⟨fun h => absurd h (by decide), fun h => by omega⟩

/-- At the width of one word the comparison sees only the low word of its second
operand; it still never reports too small a number. -/
theorem modIntcmp_le (ha : arith.Fits a) (b : TwoWord w) (h : modIntcmp arith a b ≤ 0) :
    a.value ≤ b.value := by
  have hword : wordCmp a.lo b.lo ≤ 0 → a.lo.toNat ≤ b.lo.toNat := by
    intro hcmp
    by_contra hlt
    have hpos := (wordCmp_pos_iff a.lo b.lo).mpr (by omega)
    omega
  cases arith with
  | modredcul =>
    rw [value_of_hi_zero (ha rfl)]
    exact (hword h).trans (Nat.le_add_right _ _)
  | modredc15ul | modredc2ul2 =>
    by_contra hlt
    rw [not_le, TwoWord.value_lt_iff] at hlt
    unfold modIntcmp at h
    simp only [gt_iff_lt, lt_def] at h
    split_ifs at h with h₁ h₂
    · omega
    · omega
    · have := hword h
      omega

theorem size_value (h : 0 < a.hi.toNat) : a.value.size = w + a.hi.toNat.size := by
  have hlo := a.lo.isLt
  apply le_antisymm
  · rw [Nat.size_le, pow_add]
    have hhi := Nat.mul_le_mul_left (2 ^ w) (Nat.lt_size_self a.hi.toNat)
    rw [Nat.mul_succ] at hhi
    unfold value
    omega
  · obtain ⟨s, hs⟩ : ∃ s, a.hi.toNat.size = s + 1 :=
      Nat.exists_eq_succ_of_ne_zero (Nat.size_pos.mpr h).ne'
    have hlow : 2 ^ s ≤ a.hi.toNat := Nat.lt_size.mp (by omega)
    rw [hs, ← add_assoc, Nat.succ_le_iff, Nat.lt_size, pow_add]
    exact (Nat.mul_le_mul_left _ hlow).trans (Nat.le_add_left _ _)

theorem modIntbits_eq (build : UlarithBuild) (ha : arith.Fits a) :
    modIntbits build arith a = a.value.size := by
  have hlow : a.hi = 0#w → 0 < a.lo.toNat →
      w - ularithClz build a.lo = a.value.size := by
    intro hhi hpos
    have hsize : a.lo.toNat.size ≤ w := Nat.size_le.mpr a.lo.isLt
    rw [ularithClz_eq build hpos, value_of_hi_zero hhi]
    omega
  have hnone : a.hi = 0#w → a.lo = 0#w → a.value.size = 0 := by
    intro hhi hlo
    rw [value_of_hi_zero hhi, hlo]
    simp
  have hzero : ∀ x : BitVec w, ¬x > 0#w ↔ x = 0#w := by
    intro x
    rw [gt_iff_lt, lt_def, ← toNat_inj]
    simp
  unfold modIntbits
  cases arith with
  | modredcul =>
    by_cases hlo : a.lo = 0#w
    · simp [if_pos hlo, hnone (ha rfl) hlo]
    · simp only [if_neg hlo]
      rw [← hzero, not_not, gt_iff_lt, lt_def] at hlo
      exact hlow (ha rfl) (by simpa using hlo)
  | modredc15ul | modredc2ul2 =>
    by_cases hhi : a.hi > 0#w
    · simp only [if_pos hhi]
      rw [gt_iff_lt, lt_def] at hhi
      have hpos : 0 < a.hi.toNat := by simpa using hhi
      have hsize : a.hi.toNat.size ≤ w := Nat.size_le.mpr a.hi.isLt
      rw [ularithClz_eq build hpos, size_value hpos]
      omega
    · simp only [if_neg hhi]
      by_cases hlo : a.lo > 0#w
      · simp only [if_pos hlo]
        rw [gt_iff_lt, lt_def] at hlo
        exact hlow ((hzero _).mp hhi) (by simpa using hlo)
      · simp [if_neg hlo, hnone ((hzero _).mp hhi) ((hzero _).mp hlo)]

end Comparisons

/-! ## Exact division -/

theorem invmod_mul_cancel {invf d : BitVec w} (h : invf * d = 1#w) (q : BitVec w) :
    invf * (q * d) = q := by
  rw [mul_comm q d, ← mul_assoc, h]
  exact BitVec.one_mul q

section

variable {n d : TwoWord w} {q : ℕ} (h : n.value = q * d.value)
include h

theorem lo_of_value_mul : n.lo = ofNat w q * d.lo := by
  apply eq_of_toNat_eq
  rw [toNat_mul, toNat_ofNat, ← value_mod, ← value_mod d, h, Nat.mod_mul_mod, Nat.mul_mod_mod]

/-- Taking off the product of the low quotient word and the low divisor word leaves
the word base times the rest of the product. -/
theorem sub_low_product : (n.sub (mulWide (ofNat w q) d.lo)).1.lo = 0#w ∧
      (n.sub (mulWide (ofNat w q) d.lo)).1.hi
        = ofNat w q * d.hi + ofNat w (q / 2 ^ w) * d.lo := by
  have hq := Nat.mod_add_div q (2 ^ w)
  have hsplit : n.value = q % 2 ^ w * d.lo.toNat + 2 ^ w * (q % 2 ^ w * d.hi.toNat
      + q / 2 ^ w * d.lo.toNat + 2 ^ w * (q / 2 ^ w * d.hi.toNat)) := by
    calc n.value = (q % 2 ^ w + 2 ^ w * (q / 2 ^ w)) * (d.lo.toNat + 2 ^ w * d.hi.toNat) := by
          rw [hq, h, value]
      _ = _ := by ring
  have hk : (mulWide (ofNat w q) d.lo).value = q % 2 ^ w * d.lo.toNat := by
    rw [TwoWord.mulWide_value, toNat_ofNat]
  have hrest : (n.sub (mulWide (ofNat w q) d.lo)).1.value
      = 2 ^ w * (q % 2 ^ w * d.hi.toNat + q / 2 ^ w * d.lo.toNat
          + 2 ^ w * (q / 2 ^ w * d.hi.toNat)) := by
    rw [(TwoWord.sub_value_of_le (by omega)).1]
    omega
  constructor
  · apply eq_of_toNat_eq
    rw [← value_mod, hrest, Nat.mul_mod_right]
    simp
  · apply eq_of_toNat_eq
    rw [← value_div, hrest, Nat.mul_div_cancel_left _ (Nat.two_pow_pos w)]
    have hlt : (n.sub (mulWide (ofNat w q) d.lo)).1.value / 2 ^ w < 2 ^ w := by
      rw [value_div]
      exact isLt _
    rw [hrest, Nat.mul_div_cancel_left _ (Nat.two_pow_pos w)] at hlt
    rw [← Nat.mod_eq_of_lt hlt, Nat.add_mul_mod_self_left, BitVec.toNat_add,
      toNat_mul, toNat_mul, toNat_ofNat, toNat_ofNat, Nat.mod_mul_mod (q / 2 ^ w), ← Nat.add_mod]

end

theorem modredcIntdivexact_spec (build : UlarithBuild) (hw : w = 32 ∨ w = 64)
    {n d : TwoWord w} (hodd : d.value % 2 = 1) (hdvd : d.value ∣ n.value) :
    ∃ r, modredcIntdivexact build n d = pure r ∧ r.value = n.value / d.value := by
  have hpos : 0 < w := by omega
  obtain ⟨q, hq⟩ := hdvd
  rw [mul_comm] at hq
  have hdpos : 0 < d.value := by omega
  have hquot : n.value / d.value = q := by rw [hq, Nat.mul_div_cancel _ hdpos]
  have hqlt : q / 2 ^ w < 2 ^ w := by
    apply Nat.div_lt_of_lt_mul
    exact (hquot ▸ Nat.div_le_self n.value d.value).trans_lt n.value_lt
  have hloodd : d.lo.toNat % 2 ≠ 0 := by
    rw [← value_mod_two hpos]
    omega
  have hloop : modredcIntdivexactLoop build (2 * w) n d = (n, d) := by
    obtain ⟨fuel, hfuel⟩ : ∃ fuel, 2 * w = fuel + 1 := ⟨2 * w - 1, by omega⟩
    rw [hfuel, modredcIntdivexactLoop, if_neg hloodd]
  obtain ⟨invf, hinvf, hmul⟩ := ularithInvmod_spec hw hloodd
  have hr0 : invf * n.lo = ofNat w q := by
    rw [lo_of_value_mul hq, invmod_mul_cancel hmul]
  obtain ⟨hlo, hhi⟩ := sub_low_product hq
  refine ⟨⟨ofNat w q, ofNat w (q / 2 ^ w)⟩, ?_, ?_⟩
  · have hlast : invf * (ofNat w q * d.hi + ofNat w (q / 2 ^ w) * d.lo
        - ofNat w q * d.hi) = ofNat w (q / 2 ^ w) := by
      rw [BitVec.add_comm, BitVec.add_sub_cancel, invmod_mul_cancel hmul]
    simp only [modredcIntdivexact, hloop, hinvf, pure_bind, hr0,
      ularithMulUlUl2ul_eq build hpos (by omega), ularithSub2ul2ul_eq, hlo, hhi, hlast,
      Outcome.assert_of]
  · rw [hquot, value, toNat_ofNat, toNat_ofNat, Nat.mod_eq_of_lt hqlt]
    exact Nat.mod_add_div q (2 ^ w)

/-- The exact quotient by an odd divisor, in each arithmetic. -/
theorem modIntdivexact_spec (build : UlarithBuild) (hw : w = 32 ∨ w = 64) {arith : ModArith}
    {n d : TwoWord w} (hn : arith.Fits n) (hodd : d.value % 2 = 1)
    (hdvd : d.value ∣ n.value) :
    ∃ r, modIntdivexact build arith n d = pure r ∧ r.value = n.value / d.value ∧
      arith.Fits r := by
  cases arith with
  | modredcul =>
    have hloodd : d.lo.toNat % 2 ≠ 0 := by
      rw [← value_mod_two (by omega)]
      omega
    obtain ⟨invf, hinvf, hmul⟩ := ularithInvmod_spec hw hloodd
    obtain ⟨q, hq⟩ := hdvd
    rw [mul_comm] at hq
    have hquot : n.value / d.value = q := by rw [hq, Nat.mul_div_cancel _ (by omega)]
    have hqlt : q < 2 ^ w :=
      (hquot ▸ Nat.div_le_self n.value d.value).trans_lt (hi_eq_zero_iff.mp (hn rfl))
    refine ⟨⟨ofNat w q, 0#w⟩, ?_, ?_, fun _ => rfl⟩
    · simp only [modIntdivexact, hinvf, pure_bind]
      rw [lo_of_value_mul hq, mul_comm, invmod_mul_cancel hmul]
    · rw [hquot, value_of_hi_zero rfl, toNat_ofNat, Nat.mod_eq_of_lt hqlt]
  | modredc15ul | modredc2ul2 =>
    obtain ⟨r, hr, hvalue⟩ := modredcIntdivexact_spec build hw hodd hdvd
    exact ⟨r, hr, hvalue, fun h => by cases h⟩

end CadoNfs
