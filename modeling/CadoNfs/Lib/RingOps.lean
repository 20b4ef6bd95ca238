import CadoNfs.Lib.BitScan
import CadoNfs.Lib.LucasSequence

/-!
# The operations of a modular arithmetic

Code that is written once for several arithmetics uses their operations by name.  Here the
operations are a record, and a relation says which elements of a ring its values stand for.

Main results:

- Theorem `RingOps.Scaled.models`: an arithmetic on numbers that are multiples of the elements
  by a fixed unit models the ring of residues.
- Theorems `RingOps.powStep_scans`, `RingOps.powLoop_spec`: the bits of an exponent, for
  a power.
- Theorem `RingOps.lucasStep_scans`: one bit of an index, for two terms of a Lucas sequence.
- Theorem `RingOps.findMinusOne_spec`: the search for minus one among the repeated squares.
-/

namespace WordArith

open LucasSequence

/-- The operations of a modular arithmetic. -/
structure RingOps (ρ : Type) where
  one : ρ
  neg : ρ → ρ
  add : ρ → ρ → Outcome ρ
  sub : ρ → ρ → ρ
  mul : ρ → ρ → Outcome ρ
  sqr : ρ → Outcome ρ

namespace RingOps

variable {ρ : Type} {ops : RingOps ρ}

/-- The operations succeed and compute in a ring, in which every element that is represented is
represented once. -/
structure Models {R : Type*} [CommRing R] (ops : RingOps ρ) (Rep : R → ρ → Prop) : Prop where
  one : Rep 1 ops.one
  neg : ∀ {x a}, Rep x a → Rep (-x) (ops.neg a)
  add : ∀ {x y a b}, Rep x a → Rep y b → ∃ r, ops.add a b = pure r ∧ Rep (x + y) r
  sub : ∀ {x y a b}, Rep x a → Rep y b → Rep (x - y) (ops.sub a b)
  mul : ∀ {x y a b}, Rep x a → Rep y b → ∃ r, ops.mul a b = pure r ∧ Rep (x * y) r
  sqr : ∀ {x a}, Rep x a → ∃ r, ops.sqr a = pure r ∧ Rep (x * x) r
  eq_iff : ∀ {x y a b}, Rep x a → Rep y b → (a = b ↔ x = y)

/-! ## Numbers as residues -/

section Scaled

variable {N : ℕ} {c : ZMod N} {val : ρ → ℕ}

/-- A reduced number stands for the element of which it is the multiple by `c`. -/
structure ScaledResidue (N : ℕ) (c x : ZMod N) (v : ℕ) : Prop where
  lt : v < N
  cast_eq : (v : ZMod N) = x * c

/-- What the operations do to the numbers, for an arithmetic that scales by `c`. -/
structure Scaled (ops : RingOps ρ) (N : ℕ) (c : ZMod N) (val : ρ → ℕ) : Prop where
  isUnit : IsUnit c
  injective : Function.Injective val
  one : val ops.one < N ∧ (val ops.one : ZMod N) = c
  neg : ∀ {a}, val a < N → val (ops.neg a) < N ∧ (val (ops.neg a) : ZMod N) = -(val a : ZMod N)
  add : ∀ {a b}, val a < N → val b < N →
    ∃ r, ops.add a b = pure r ∧ val r < N ∧ (val r : ZMod N) = val a + val b
  sub : ∀ {a b}, val a < N → val b < N →
    val (ops.sub a b) < N ∧ (val (ops.sub a b) : ZMod N) = val a - val b
  mul : ∀ {a b}, val a < N → val b < N →
    ∃ r, ops.mul a b = pure r ∧ val r < N ∧ (val r : ZMod N) * c = val a * val b
  sqr : ∀ {a}, val a < N →
    ∃ r, ops.sqr a = pure r ∧ val r < N ∧ (val r : ZMod N) * c = val a * val a

theorem natCast_inj_of_lt {a b : ℕ} (ha : a < N) (hb : b < N) (h : (a : ZMod N) = b) : a = b :=
  ((ZMod.natCast_eq_natCast_iff a b N).mp h).eq_of_lt_of_lt ha hb

theorem Scaled.models (h : ops.Scaled N c val) :
    ops.Models fun x a => ScaledResidue N c x (val a) where
  one := ⟨h.one.1, by rw [h.one.2, one_mul]⟩
  neg := fun {x a} ha => by
    obtain ⟨hlt, hval⟩ := h.neg ha.lt
    exact ⟨hlt, by rw [hval, ha.cast_eq, neg_mul]⟩
  add := fun {x y a b} ha hb => by
    obtain ⟨r, hr, hlt, hval⟩ := h.add ha.lt hb.lt
    exact ⟨r, hr, hlt, by rw [hval, ha.cast_eq, hb.cast_eq, add_mul]⟩
  sub := fun {x y a b} ha hb => by
    obtain ⟨hlt, hval⟩ := h.sub ha.lt hb.lt
    exact ⟨hlt, by rw [hval, ha.cast_eq, hb.cast_eq, sub_mul]⟩
  mul := fun {x y a b} ha hb => by
    obtain ⟨r, hr, hlt, hval⟩ := h.mul ha.lt hb.lt
    refine ⟨r, hr, hlt, h.isUnit.mul_right_cancel ?_⟩
    rw [hval, ha.cast_eq, hb.cast_eq]
    ring
  sqr := fun {x a} ha => by
    obtain ⟨r, hr, hlt, hval⟩ := h.sqr ha.lt
    refine ⟨r, hr, hlt, h.isUnit.mul_right_cancel ?_⟩
    rw [hval, ha.cast_eq]
    ring
  eq_iff := fun {x y a b} ha hb => by
    constructor
    · rintro rfl
      exact h.isUnit.mul_right_cancel (ha.cast_eq.symm.trans hb.cast_eq)
    · rintro rfl
      exact h.injective (natCast_inj_of_lt ha.lt hb.lt (ha.cast_eq.trans hb.cast_eq.symm))

end Scaled

/-! ## One bit of an exponent -/

section Steps

variable {R : Type*} [CommRing R] {Rep : R → ρ → Prop} {x : R} {b two : ρ}

/-- The power is squared, and multiplied by the base for a one. -/
def powStep (ops : RingOps ρ) (b : ρ) (bit : Bool) (t : ρ) : Outcome ρ := do
  let t ← ops.sqr t
  if bit then ops.mul t b else pure t

theorem powStep_scans (h : ops.Models Rep) (hb : Rep x b) :
    ScansBits (ops.powStep b) fun n t => Rep (x ^ n) t := by
  intro n bit t ht
  obtain ⟨s, hs, hsres⟩ := h.sqr ht
  rw [← pow_add, ← two_mul] at hsres
  cases bit with
  | false => exact ⟨s, by simp [powStep, hs], by simpa using hsres⟩
  | true =>
    obtain ⟨r, hr, hres⟩ := h.mul hsres hb
    rw [← pow_succ] at hres
    exact ⟨r, by simp [powStep, hs, hr], by simpa using hres⟩

/-- The powering loop that keeps its mask at the last bit seen, and the part of the exponent that
is still to be seen in `e1`. -/
def powLoop (ops : RingOps ρ) (b : ρ) {w : ℕ} (e : BitVec w) :
    ℕ → ρ → BitVec w → BitVec w → Outcome (ρ × BitVec w × BitVec w)
  | 0, _, _, _ => .abort
  | fuel + 1, t, mask, e1 =>
    if mask > 1#w then do
      let t ← ops.sqr t
      let mask := mask >>> 1
      if e &&& mask ≠ 0#w then do
        let t ← ops.mul t b
        powLoop ops b e fuel t mask (e1 - mask)
      else powLoop ops b e fuel t mask e1
    else pure (t, mask, e1)

/-- With the mask at bit `j`: from the power of the bits above, and the rest of the exponent,
the loop comes to the whole power and to no rest. -/
theorem powLoop_spec (h : ops.Models Rep) (hb : Rep x b) {w : ℕ} (hw : 0 < w) (e : BitVec w)
    {j fuel : ℕ} (hfuel : j < fuel) {t : ρ} {mask e1 : BitVec w} (hmask : mask.toNat = 2 ^ j)
    (ht : Rep (x ^ (e.toNat / 2 ^ j)) t) (he1 : e1.toNat = e.toNat % 2 ^ j) :
    ∃ t', ops.powLoop b e fuel t mask e1 = pure (t', 1#w, 0#w) ∧ Rep (x ^ e.toNat) t' := by
  have hone : (1#w).toNat = 1 := toNat_const (Nat.one_lt_two_pow (by omega))
  induction j generalizing fuel t mask e1 with
  | zero =>
    obtain ⟨fuel, rfl⟩ := Nat.exists_eq_add_one_of_ne_zero hfuel.ne'
    have hm1 : mask = 1#w := BitVec.eq_of_toNat_eq (by rw [hmask, hone, pow_zero])
    have he0 : e1 = 0#w := BitVec.eq_of_toNat_eq (by rw [he1, pow_zero, Nat.mod_one]; rfl)
    refine ⟨t, ?_, by simpa using ht⟩
    simp [powLoop, hm1, he0]
  | succ j ih =>
    obtain ⟨fuel, rfl⟩ := Nat.exists_eq_add_one_of_ne_zero (by omega : fuel ≠ 0)
    have hgt : mask > 1#w := by
      rw [gt_iff_lt, BitVec.lt_def, hone, hmask]
      exact Nat.one_lt_two_pow (by omega)
    have hnext : (mask >>> 1).toNat = 2 ^ j := by
      rw [BitVec.toNat_ushiftRight, hmask, Nat.shiftRight_eq_div_pow, pow_one, pow_succ,
        Nat.mul_div_cancel _ (by omega)]
    have hbit := and_mask_toNat hnext e
    have hsplit : e.toNat / 2 ^ j = 2 * (e.toNat / 2 ^ (j + 1)) + e.toNat / 2 ^ j % 2 := by
      rw [pow_succ, ← Nat.div_div_eq_div_mul]
      omega
    have hlow : e.toNat % 2 ^ (j + 1) = e.toNat % 2 ^ j + 2 ^ j * (e.toNat / 2 ^ j % 2) := by
      rw [pow_succ, Nat.mod_mul]
    obtain ⟨s, hs, hsres⟩ := h.sqr ht
    rw [← pow_add, ← two_mul] at hsres
    by_cases hset : e &&& mask >>> 1 ≠ 0#w
    · rw [decide_eq_true hset, Bool.toNat_true] at hbit
      rw [← hbit] at hsplit hlow
      obtain ⟨r, hr, hrres⟩ := h.mul hsres hb
      rw [← pow_succ, ← hsplit] at hrres
      have hsub : (e1 - mask >>> 1).toNat = e.toNat % 2 ^ j := by
        rw [BitVec.toNat_sub_of_le (by rw [BitVec.le_def, hnext, he1, hlow]; omega), he1, hnext,
          hlow]
        omega
      obtain ⟨t', ht', hres⟩ := ih (Nat.lt_of_succ_lt_succ hfuel) hnext hrres hsub
      exact ⟨t', by rw [powLoop, if_pos hgt, hs, pure_bind, if_pos hset, hr, pure_bind, ht'], hres⟩
    · rw [decide_eq_false hset, Bool.toNat_false] at hbit
      rw [← hbit] at hsplit hlow
      rw [add_zero] at hsplit
      rw [← hsplit] at hsres
      obtain ⟨t', ht', hres⟩ := ih (Nat.lt_of_succ_lt_succ hfuel) hnext hsres
        (by rw [he1, hlow, mul_zero, add_zero])
      exact ⟨t', by rw [powLoop, if_pos hgt, hs, pure_bind, if_neg hset, ht'], hres⟩

/-- Two neighbouring terms become those at twice the index, or at twice the index plus one. -/
def lucasStep (ops : RingOps ρ) (b two : ρ) (bit : Bool) (s : ρ × ρ) : Outcome (ρ × ρ) :=
  let (t, t1) := s
  if bit then do
    let t ← ops.mul t t1
    let t := ops.sub t b
    let t1 ← ops.sqr t1
    pure (t, ops.sub t1 two)
  else do
    let t1 ← ops.mul t1 t
    let t1 := ops.sub t1 b
    let t ← ops.sqr t
    pure (ops.sub t two, t1)

theorem lucasStep_scans (h : ops.Models Rep) (hb : Rep x b) (htwo : Rep 2 two) :
    ScansBits (ops.lucasStep b two) fun n s =>
      Rep (lucasV x n) s.1 ∧ Rep (lucasV x (n + 1)) s.2 := by
  rintro n bit ⟨t, t1⟩ ⟨ht, ht1⟩
  cases bit with
  | false =>
    obtain ⟨p, hp, hpres⟩ := h.mul ht1 ht
    obtain ⟨q, hq, hqres⟩ := h.sqr ht
    have hodd := h.sub hpres hb
    have heven := h.sub hqres htwo
    rw [mul_comm, lucasV_mul_succ] at hodd
    rw [lucasV_mul_self] at heven
    exact ⟨_, by simp [lucasStep, hp, hq]; rfl, by simpa using heven, by simpa using hodd⟩
  | true =>
    obtain ⟨p, hp, hpres⟩ := h.mul ht ht1
    obtain ⟨q, hq, hqres⟩ := h.sqr ht1
    have hodd := h.sub hpres hb
    have heven := h.sub hqres htwo
    rw [lucasV_mul_succ] at hodd
    rw [lucasV_mul_self, Nat.mul_succ] at heven
    exact ⟨_, by simp [lucasStep, hp, hq]; rfl, by simpa using hodd, by simpa using heven⟩

end Steps

/-! ## The search for minus one -/

section MinusOne

/-- The residue is squared until it is `minusone`, with the number of squarings that are
left. -/
def findMinusOneLoop (ops : RingOps ρ) (equal : ρ → ρ → Bool) (minusone : ρ) :
    ℕ → ρ → Outcome Bool
  | 0, _ => pure false
  | n + 1, r => do
    let r ← ops.sqr r
    if equal r minusone then pure true else findMinusOneLoop ops equal minusone n r

/-- The residue is one or `minusone`, or becomes `minusone` by fewer than `po2`
squarings. -/
def findMinusOne (ops : RingOps ρ) (equal : ρ → ρ → Bool) (is1 : ρ → Bool) (r minusone : ρ)
    (po2 : ℕ) : Outcome Bool :=
  if is1 r || equal r minusone then pure true
  else findMinusOneLoop ops equal minusone (po2 - 1) r

variable {R : Type*} [CommRing R] {Rep : R → ρ → Prop} {x z : R} {r minusone : ρ}
  {equal : ρ → ρ → Bool}

theorem findMinusOneLoop_spec (h : ops.Models Rep) (hequal : ∀ a b, equal a b = true ↔ a = b)
    (hminus : Rep z minusone) (n : ℕ) (hr : Rep x r) :
    ∃ res, ops.findMinusOneLoop equal minusone n r = pure res ∧
      (res = true ↔ ∃ j < n, x ^ 2 ^ (j + 1) = z) := by
  induction n generalizing x r with
  | zero => exact ⟨false, rfl, by simp⟩
  | succ n ih =>
    obtain ⟨s, hs, hsres⟩ := h.sqr hr
    have heq : equal s minusone = true ↔ x * x = z :=
      (hequal _ _).trans (h.eq_iff hsres hminus)
    have hsq : x * x = x ^ 2 ^ (0 + 1) := by rw [zero_add, pow_one, sq]
    by_cases hfound : equal s minusone = true
    · refine ⟨true, by rw [findMinusOneLoop, hs, pure_bind, if_pos hfound], ?_⟩
      exact iff_of_true rfl ⟨0, by omega, hsq ▸ heq.mp hfound⟩
    · obtain ⟨res, hres, hiff⟩ := ih hsres
      refine ⟨res, by rw [findMinusOneLoop, hs, pure_bind, if_neg hfound, hres], ?_⟩
      rw [hiff]
      have hnext : ∀ j, (x * x) ^ 2 ^ (j + 1) = x ^ 2 ^ (j + 1 + 1) := by
        intro j
        rw [← sq, ← pow_mul, ← pow_succ']
      constructor
      · rintro ⟨j, hj, hz⟩
        exact ⟨j + 1, by omega, hnext j ▸ hz⟩
      · rintro ⟨j, hj, hz⟩
        cases j with
        | zero => exact absurd (heq.mpr (hsq ▸ hz)) hfound
        | succ j => exact ⟨j, by omega, (hnext j).symm ▸ hz⟩

theorem findMinusOne_spec (is1 : ρ → Bool) (h : ops.Models Rep)
    (hequal : ∀ a b, equal a b = true ↔ a = b)
    (hminus : Rep z minusone) (po2 : ℕ) (hr : Rep x r) (hone : is1 r = true ↔ x = 1) :
    ∃ res, ops.findMinusOne equal is1 r minusone po2 = pure res ∧
      (res = true ↔ x = 1 ∨ ∃ j < max 1 po2, x ^ 2 ^ j = z) := by
  have heq : equal r minusone = true ↔ x = z := (hequal _ _).trans (h.eq_iff hr hminus)
  unfold findMinusOne
  by_cases hfound : (is1 r || equal r minusone) = true
  · refine ⟨true, by rw [if_pos hfound], iff_of_true rfl ?_⟩
    rw [Bool.or_eq_true, hone, heq] at hfound
    rcases hfound with hfound | hfound
    · exact Or.inl hfound
    · exact Or.inr ⟨0, by omega, by rwa [pow_zero, pow_one]⟩
  · obtain ⟨res, hres, hiff⟩ := findMinusOneLoop_spec h hequal hminus (po2 - 1) hr
    refine ⟨res, by rw [if_neg hfound, hres], ?_⟩
    rw [Bool.or_eq_true, hone, heq, not_or] at hfound
    rw [hiff]
    constructor
    · rintro ⟨j, hj, hz⟩
      exact Or.inr ⟨j + 1, by omega, hz⟩
    · rintro (hx | ⟨j, hj, hz⟩)
      · exact absurd hx hfound.1
      · cases j with
        | zero => exact absurd (by rwa [pow_zero, pow_one] at hz) hfound.2
        | succ j => exact ⟨j, by omega, hz⟩

end MinusOne

end RingOps

end WordArith
