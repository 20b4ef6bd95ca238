import CadoNfs.Lib.FieldOps
import CadoNfs.Utils.ModredcDiv
import CadoNfs.Utils.ModredcInv
import CadoNfs.Utils.ModredcOps
import CadoNfs.Utils.ModredcUlInv
import CadoNfs.Utils.ModUlOps

/-!
# Divisions of residues by small primes

The divisions of `mod_ul_common.c` and the halving of the Montgomery headers.  Together
with the inverse they make each arithmetic the arithmetic of a field when the modulus is
prime.

Main results:

- Theorem `modulDivn_spec`: the division of one word by a small prime.
- Theorems `modredculDiv2_spec`, `modredcDiv2_spec`: the halving.
- Theorems `modredculFieldOps_models`, `modredcFieldOps_models`: the operations
  model the field of residues.
-/

namespace CadoNfs

open WordArith FieldOps RingOps
open BitVec (toNat_add toNat_inj toNat_mul toNat_ofNat toNat_umod toNat_zero)
open TwoWord (value)

variable {w : ℕ}

/-! ## Code -/

variable (build : UlarithBuild)

/-- `modredcul_div2`. -/
def modredculDiv2 (a : BitVec w) (m : Modulusredcul w) : BitVec w :=
  match build with
  | .x86 =>
    -- add, rcr, shr, cmovnc
    let cf := if addFlag m.m a false = true then 1#w else 0#w
    let t := (m.m + a) >>> 1 ||| cf <<< (w - 1)
    if a &&& 1#w = 0#w then a >>> 1 else t
  | .noAsm => if a % 2#w = 0#w then a / 2#w else a / 2#w + m.m / 2#w + 1#w

/-- `mod_div3` of `mod_ul_common.c`; `none` is the return value 0, for which
`r` is not written. -/
def modulDiv3 (a m : BitVec w) : Option (BitVec w) :=
  let a3 := a % 3#w
  let m3 := m % 3#w
  if m3 = 0#w then none
  else
    let t := if a3 ≠ 0#w then if a3 + m3 = 3#w then a + m else a + 2#w * m else a
    some (t * longBit 0xaaaaaaab 0xaaaaaaaaaaaaaaab)

/-- `mod_div7` and its like: `invN` holds the negative inverses modulo `n`, and
`c` is the inverse of `n` modulo the word base. -/
def modulDivn (n : BitVec w) (invN : List (BitVec w)) (c a m : BitVec w) : Option (BitVec w) :=
  let an := a % n
  let mn := m % n
  if mn = 0#w then none
  else
    let t := if an ≠ 0#w then a + an * invN.getD mn.toNat 0#w % n * m else a
    some (t * c)

/-- `mod_div7` of `mod_ul_common.c`. -/
def modulDiv7 (a m : BitVec w) : Option (BitVec w) :=
  modulDivn 7#w [0#w, 6#w, 3#w, 2#w, 5#w, 4#w, 1#w] (longBit 0xb6db6db7 0x6db6db6db6db6db7) a m

/-- `mod_div13` of `mod_ul_common.c`. -/
def modulDiv13 (a m : BitVec w) : Option (BitVec w) :=
  modulDivn 13#w [0#w, 12#w, 6#w, 4#w, 3#w, 5#w, 2#w, 11#w, 8#w, 10#w, 9#w, 7#w, 1#w]
    (longBit 0xc4ec4ec5 0x4ec4ec4ec4ec4ec5) a m

/-- The functions of `modredc_ul.h` for a modulus, in place. -/
def modredculFieldOps (zeros : ZeroCount) (m : Modulusredcul w) :
    FieldOps (BitVec w) where
  toRingOps := modredculOps build m
  div2 a := pure (modredculDiv2 build a m)
  div3 a := pure ((modulDiv3 a m.m).getD a)
  div7 a := pure ((modulDiv7 a m.m).getD a)
  div13 a := pure ((modulDiv13 a m.m).getD a)
  inv a := modredculInv build zeros a m

/-- `modredc15ul_div2` and `modredc2ul2_div2`. -/
def modredcDiv2 (a : TwoWord w) (m : Modulusredc w) :
    Outcome (TwoWord w) := do
  let r ← if a.lo % 2#w = 1#w then tracedAdd2ul2ul build a m.m else pure a
  pure ⟨ularithShrd build r.lo r.hi 1, r.hi >>> 1⟩

/-- A division of the residue at address 0, in place. -/
def divInPlace (div : (ℕ → BitVec w) → Outcome (Bool × (ℕ → BitVec w))) (a : TwoWord w) :
    Outcome (TwoWord w) := do
  let (_, memory) ← div fun i => if i = 0 then a.lo else a.hi
  pure (loadWords memory 0)

/-- The functions of a two-word header for a modulus, in place. -/
def modredcFieldOps (arith : RedcArith) (build : UlarithBuild) (lookup : Bool)
    (m : Modulusredc w) : FieldOps (TwoWord w) where
  toRingOps := modredcOps arith build m
  div2 a := modredcDiv2 build a m
  div3 := divInPlace fun memory => modDiv3 build memory 0 0 m
  div7 := divInPlace fun memory => modDiv7 build memory 0 0 arith m
  div13 := divInPlace fun memory => modDiv13 build memory 0 0 arith m
  inv a := modInv arith build lookup a m

/-! ## Halving -/

section Halving

theorem half_spec {a m r : ℕ} (hm : m % 2 = 1) (ha : a < m)
    (hr : r = if a % 2 = 0 then a / 2 else (a + m) / 2) : r < m ∧ 2 * r ≡ a [MOD m] := by
  subst hr
  split_ifs with heven
  · exact ⟨by omega, by rw [show 2 * (a / 2) = a by omega]⟩
  · refine ⟨by omega, ?_⟩
    rw [show 2 * ((a + m) / 2) = a + m by omega]
    exact Nat.add_mod_right a m

theorem rcr_toNat (hw : 1 < w) (a b : BitVec w) :
    ((a + b) >>> 1 ||| (if addFlag a b false = true then 1#w else 0#w) <<< (w - 1)).toNat
      = (a.toNat + b.toNat) / 2 := by
  set cf : BitVec w := if addFlag a b false = true then 1#w else 0#w with hcf
  have hone : (1#w).toNat = 1 := toNat_const (Nat.one_lt_two_pow (by omega))
  have hcarry : cf.toNat = (addFlag a b false).toNat := by
    rw [hcf]
    cases addFlag a b false <;> simp [hone]
  have hsum := addWord_value a b false
  rw [addWord_false, Bool.toNat_false, add_zero, ← hcarry] at hsum
  have hshift := ularithShrd_value .noAsm ⟨a + b, cf⟩ hw
  have hvalue : (⟨a + b, cf⟩ : TwoWord w).value = a.toNat + b.toNat := hsum
  have hhigh : (cf >>> 1).toNat = 0 := by
    rw [BitVec.toNat_ushiftRight, hcarry, Nat.shiftRight_eq_div_pow]
    cases addFlag a b false <;> rfl
  rw [hvalue, value, hhigh, mul_zero, add_zero] at hshift
  exact hshift

/-- `modredcul_div2` halves a residue. -/
theorem modredculDiv2_spec (build : UlarithBuild) (hw : 1 < w) {m : Modulusredcul w}
    (hm : m.m.toNat % 2 = 1) {a : BitVec w} (ha : a.toNat < m.m.toNat) :
    (modredculDiv2 build a m).toNat < m.m.toNat ∧
      2 * (modredculDiv2 build a m).toNat ≡ a.toNat [MOD m.m.toNat] := by
  refine half_spec hm ha ?_
  have hmlt := m.m.isLt
  have hfour : 4 ≤ 2 ^ w := Nat.pow_le_pow_right (show 0 < 2 by decide) hw
  have hone : (1#w).toNat = 1 := toNat_const (by omega)
  have htwo : (2#w).toNat = 2 := toNat_const (by omega)
  cases build with
  | x86 =>
    have heven : a &&& 1#w = 0#w ↔ a.toNat % 2 = 0 := by
      rw [← toNat_inj, BitVec.toNat_and, hone, Nat.and_one_is_mod, toNat_zero]
    simp [modredculDiv2, apply_ite BitVec.toNat, rcr_toNat hw, if_congr heven rfl rfl,
      Nat.shiftRight_eq_div_pow, add_comm m.m.toNat]
  | noAsm =>
    have heven : a % 2#w = 0#w ↔ a.toNat % 2 = 0 := by
      rw [← toNat_inj, toNat_umod, htwo, toNat_zero]
    simp only [modredculDiv2, apply_ite BitVec.toNat, if_congr heven rfl rfl, BitVec.toNat_udiv,
      toNat_add, htwo, hone, Nat.mod_add_mod]
    split_ifs with h
    · rfl
    · rw [Nat.mod_eq_of_lt (by omega)]
      omega

/-- `modredc15ul_div2` and `modredc2ul2_div2` halve a residue. -/
theorem modredcDiv2_spec (build : UlarithBuild) (hw : 2 ≤ w) {arith : RedcArith}
    {m : Modulusredc w} (hm : ValidRedc arith m) {a : TwoWord w} (ha : a.value < m.m.value) :
    ∃ r, modredcDiv2 build a m = pure r ∧ r.value < m.m.value ∧
      2 * r.value ≡ a.value [MOD m.m.value] := by
  have hfour : 4 ≤ 2 ^ w := Nat.pow_le_pow_right (show 0 < 2 by decide) hw
  have hone : (1#w).toNat = 1 := toNat_const (by omega)
  have htwo : (2#w).toNat = 2 := toNat_const (by omega)
  have hodd : a.lo % 2#w = 1#w ↔ a.value % 2 = 1 := by
    rw [← toNat_inj, toNat_umod, htwo, hone, value]
    have hpow : 2 ^ w % 2 = 0 := Nat.mod_eq_zero_of_dvd (dvd_pow_self 2 (by omega))
    rw [Nat.add_mod, Nat.mul_mod, hpow, zero_mul, Nat.zero_mod, add_zero, Nat.mod_mod]
  have hhalf : ∀ t : TwoWord w, (⟨ularithShrd build t.lo t.hi 1, t.hi >>> 1⟩ : TwoWord w).value
      = t.value / 2 := fun t => by
    rw [ularithShrd_value build t (by omega), pow_one]
  rw [modredcDiv2]
  by_cases hlow : a.lo % 2#w = 1#w
  · have hbound := hm.four_mul_le
    obtain ⟨t, ht, htv⟩ := tracedAdd2ul2ul_of_lt build (r := a) (a := m.m) (by omega)
    have hodd' := hodd.mp hlow
    refine ⟨⟨ularithShrd build t.lo t.hi 1, t.hi >>> 1⟩, ?_, half_spec hm.odd ha ?_⟩
    · rw [if_pos hlow, ht, pure_bind]
    · rw [hhalf, htv, if_neg (by omega)]
  · have heven := mt hodd.mpr hlow
    refine ⟨⟨ularithShrd build a.lo a.hi 1, a.hi >>> 1⟩, ?_, half_spec hm.odd ha ?_⟩
    · rw [if_neg hlow, pure_bind]
    · rw [hhalf, if_pos (by omega)]

end Halving

/-! ## Division of one word -/

section OneWord

variable {n c a m : BitVec w} {k : ℕ}

theorem divide_word (hc : n * c = 1#w) {t : BitVec w} {q : ℕ} (hq : q < 2 ^ w)
    (ht : t.toNat = n.toNat * q % 2 ^ w) : (t * c).toNat = q := by
  have hn : t = n * BitVec.ofNat w q := by
    apply BitVec.eq_of_toNat_eq
    rw [ht, toNat_mul, toNat_ofNat, Nat.mul_mod_mod]
  rw [hn, BitVec.mul_assoc, BitVec.mul_comm _ c, ← BitVec.mul_assoc, hc, BitVec.one_mul,
    toNat_ofNat, Nat.mod_eq_of_lt hq]

theorem divide_residue (hc : n * c = 1#w) (ha : a.toNat < m.toNat) (hk : k < n.toNat)
    (hdvd : n.toNat ∣ a.toNat + k * m.toNat) {t : BitVec w}
    (ht : t.toNat = (a.toNat + k * m.toNat) % 2 ^ w) :
    (t * c).toNat < m.toNat ∧ n.toNat * (t * c).toNat ≡ a.toNat [MOD m.toNat] := by
  obtain ⟨q, hq⟩ := hdvd
  have hlt := quotient_lt hk ha hq
  rw [divide_word hc (hlt.trans m.isLt) (by rw [ht, hq])]
  refine ⟨hlt, ?_⟩
  rw [← hq]
  exact Nat.add_mul_mod_self_right _ _ _

/-- `mod_div7` and its like. -/
theorem modulDivn_spec {wModN : BitVec w} {invN : List (BitVec w)}
    (h : DivnConstants n wModN invN c) (ha : a.toNat < m.toNat)
    (hcop : Nat.Coprime m.toNat n.toNat) (hn : 1 < n.toNat) :
    ∃ r, modulDivn n invN c a m = some r ∧ r.toNat < m.toNat ∧
      n.toNat * r.toNat ≡ a.toNat [MOD m.toNat] := by
  have hmn : (m % n).toNat = m.toNat % n.toNat := toNat_umod
  have hmlt : m.toNat % n.toNat < n.toNat := Nat.mod_lt _ h.pos
  have hcop' : Nat.Coprime (m.toNat % n.toNat) n.toNat := by
    rw [Nat.Coprime, ← Nat.gcd_rec, Nat.gcd_comm]
    exact hcop
  have hne : m % n ≠ 0#w := by
    intro hzero
    rw [← toNat_inj, hmn, toNat_zero] at hzero
    rw [hzero, Nat.coprime_zero_left] at hcop'
    omega
  set inv := invN.getD (m.toNat % n.toNat) 0#w with hinv
  have hprod : (a % n * inv % n).toNat = inv.toNat * (a.toNat % n.toNat) % n.toNat := by
    have hfit : inv.toNat * (a.toNat % n.toNat) < 2 ^ w :=
      (Nat.mul_lt_mul'' (h.inv_lt _ hmlt) (Nat.mod_lt _ h.pos)).trans_le h.small
    rw [toNat_umod, toNat_mul, toNat_umod, mul_comm, Nat.mod_eq_of_lt hfit]
  have hdvd := dvd_add_mul_of_neg_inv (a := a.toNat) (h.inv_mul _ hmlt hcop')
  rw [← hprod] at hdvd
  have hk : (a % n * inv % n).toNat < n.toNat := by
    rw [toNat_umod]
    exact Nat.mod_lt _ h.pos
  have ht : (if a % n ≠ 0#w then a + a % n * inv % n * m else a).toNat
      = (a.toNat + (a % n * inv % n).toNat * m.toNat) % 2 ^ w := by
    split_ifs with han
    · rw [toNat_add, toNat_mul, Nat.add_mod_mod]
    · have hzero : (a % n * inv % n).toNat = 0 := by
        rw [not_not.mp han, BitVec.zero_mul, BitVec.zero_umod, toNat_zero]
      rw [hzero, zero_mul, add_zero, Nat.mod_eq_of_lt a.isLt]
  refine ⟨_, ?_, divide_residue h.mul_c ha hk hdvd ht⟩
  simp only [modulDivn, if_neg hne, hmn, ← hinv]

/-- The quotient by three modulo `m`. -/
theorem modulDiv3_spec (hw : w = 32 ∨ w = 64) (ha : a.toNat < m.toNat) (hm : ¬3 ∣ m.toNat) :
    ∃ r, modulDiv3 a m = some r ∧ r.toNat < m.toNat ∧ 3 * r.toNat ≡ a.toNat [MOD m.toNat] := by
  have hthree : (3#w).toNat = 3 := by rcases hw with rfl | rfl <;> rfl
  have ha3 : (a % 3#w).toNat = a.toNat % 3 := by rw [toNat_umod, hthree]
  have hm3 : (m % 3#w).toNat = m.toNat % 3 := by rw [toNat_umod, hthree]
  have hc : 3#w * longBit 0xaaaaaaab 0xaaaaaaaaaaaaaaab = 1#w := by
    rcases hw with rfl | rfl <;> decide
  have hne : m % 3#w ≠ 0#w := by
    rw [Ne, ← toNat_inj, hm3, toNat_zero]
    omega
  have hsum : a % 3#w + m % 3#w = 3#w ↔ a.toNat % 3 + m.toNat % 3 = 3 := by
    rw [← toNat_inj, toNat_add, ha3, hm3, hthree]
    rcases hw with rfl | rfl <;> omega
  have hzero : a % 3#w = 0#w ↔ a.toNat % 3 = 0 := by
    rw [← toNat_inj, ha3, toNat_zero]
  -- the multiple of the modulus that is added
  obtain ⟨k, hk, hdvd, ht⟩ : ∃ k < 3, 3 ∣ a.toNat + k * m.toNat ∧
      (if a % 3#w ≠ 0#w then if a % 3#w + m % 3#w = 3#w then a + m else a + 2#w * m else a).toNat
        = (a.toNat + k * m.toNat) % 2 ^ w := by
    by_cases ha0 : a % 3#w = 0#w
    · have hmod := hzero.mp ha0
      refine ⟨0, by decide, by omega, ?_⟩
      rw [if_neg (not_not.mpr ha0), zero_mul, add_zero, Nat.mod_eq_of_lt a.isLt]
    · have hmod := mt hzero.mpr ha0
      rw [if_pos ha0]
      by_cases hs : a % 3#w + m % 3#w = 3#w
      · have hs' := hsum.mp hs
        refine ⟨1, by decide, by omega, ?_⟩
        rw [if_pos hs, toNat_add, one_mul]
      · have hs' := mt hsum.mpr hs
        refine ⟨2, by decide, by omega, ?_⟩
        have htwo : (2#w).toNat = 2 := by rcases hw with rfl | rfl <;> rfl
        rw [if_neg hs, toNat_add, toNat_mul, htwo, Nat.add_mod_mod]
  have hspec := divide_residue hc ha (by rwa [hthree]) (by rwa [hthree]) ht
  rw [hthree] at hspec
  exact ⟨_, by simp [modulDiv3, if_neg hne], hspec⟩

end OneWord

/-! ## The operations of a field -/

section Field

variable {p : ℕ} [Fact p.Prime]

theorem not_dvd_of_lt {n : ℕ} (hn : n.Prime) (hlt : n < p) : ¬n ∣ p := fun hdvd =>
  hlt.ne ((Nat.prime_dvd_prime_iff_eq hn Fact.out).mp hdvd)

/-- `modredc_ul.h` for a prime modulus. -/
theorem modredculFieldOps_models (build : UlarithBuild) (zeros : ZeroCount)
    (hw : w = 32 ∨ w = 64) {m : Modulusredcul w} (hm : ValidModulusUl m) (hmp : m.m.toNat = p)
    (hp : 13 < p) :
    (modredculFieldOps build zeros m).Models (MontgomeryResidueUl p) := by
  subst hmp
  have hpos : 0 < w := by omega
  have heven : w % 2 = 0 := by omega
  have hprime : m.m.toNat.Prime := Fact.out
  have hscaled := modredculOps_scaled build hpos heven hm
  have hdivn : ∀ {n wModN c : BitVec w} {invN : List (BitVec w)},
      DivnConstants n wModN invN c → n.toNat.Prime → n.toNat < m.m.toNat →
      DividesNumber m.m.toNat BitVec.toNat n.toNat
        fun a => pure ((modulDivn n invN c a m.m).getD a) := by
    intro n wModN c invN h hn hlt a ha
    have hcop : Nat.Coprime m.m.toNat n.toNat := (Nat.coprime_primes hprime hn).mpr hlt.ne'
    obtain ⟨r, hr, hspec⟩ := modulDivn_spec h ha hcop hn.one_lt
    exact ⟨r, by simp [hr], hspec⟩
  have hfield : (modredculFieldOps build zeros m).Scaled m.m.toNat
      ((2 ^ w : ℕ) : ZMod m.m.toNat) BitVec.toNat := by
    refine ⟨hscaled, fun a ha => ⟨_, rfl, modredculDiv2_spec build (by omega) hm.odd ha⟩,
      fun a ha => ?_, ?_, ?_, fun {a} ha hne => ?_, fun {a} ha => ?_⟩
    · obtain ⟨r, hr, hspec⟩ := modulDiv3_spec hw ha (not_dvd_of_lt Nat.prime_three (by omega))
      exact ⟨r, by simp [modredculFieldOps, hr], hspec⟩
    · have hseven : (7#w).toNat = 7 := by rcases hw with rfl | rfl <;> rfl
      have hspec := hdivn (divnConstants_seven hw)
      rw [hseven] at hspec
      exact hspec Nat.prime_seven (by omega)
    · have hthirteen : (13#w).toNat = 13 := by rcases hw with rfl | rfl <;> rfl
      have hspec := hdivn (divnConstants_thirteen hw)
      rw [hthirteen] at hspec
      exact hspec (by norm_num) hp
    · have hgcd : Nat.gcd a.toNat m.m.toNat = 1 :=
        (Nat.coprime_of_lt_prime hne ha hprime).symm
      obtain ⟨r, hr, hlt, hmul⟩ := (modredculInv_spec build zeros hw hm (by omega) ha).1 hgcd
      obtain ⟨one, hone, hres⟩ := modredculMul_spec build hpos heven hm r ha
      obtain rfl := (Outcome.done.inj (hmul.symm.trans hone)).1
      refine ⟨r, hr, hlt, ?_⟩
      have hcast := (ZMod.natCast_eq_natCast_iff _ _ _).mpr hres.congr
      have hmone : (m.one.toNat : ZMod m.m.toNat) = ((2 ^ w : ℕ) : ZMod m.m.toNat) :=
        hscaled.one.2
      rw [Nat.cast_mul, Nat.cast_mul r.toNat, hmone] at hcast
      exact hcast.symm
    · refine (modredculInv_spec build zeros hw hm (by omega) (A := a) ?_).2 ?_
      · omega
      · rw [ha, Nat.gcd_zero_left]
        omega
  exact hfield.models hp

theorem divInPlace_spec {n N : ℕ} {div : (ℕ → BitVec w) → Outcome (Bool × (ℕ → BitVec w))}
    (h : ∀ memory, (loadWords memory 0).value < N →
      ∃ memory', div memory = pure (true, memory') ∧ IsQuotient n N memory memory' 0 0) :
    DividesNumber N value n (divInPlace div) := by
  intro a ha
  obtain ⟨memory', hdiv, hquot⟩ := h (fun i => if i = 0 then a.lo else a.hi) ha
  refine ⟨loadWords memory' 0, ?_, hquot.lt, hquot.congr⟩
  rw [divInPlace, hdiv, pure_bind]

/-- The two-word headers for a prime modulus. -/
theorem modredcFieldOps_models (arith : RedcArith) (build : UlarithBuild) (lookup : Bool)
    (hw : w = 32 ∨ w = 64) {s : TwoWord w} (hsp : s.value = p) (hlow : 2 ^ w < s.value)
    (hhigh : s.value < 2 ^ arith.bits w) :
    ∃ m, modInitmodUls arith build s = pure m ∧
      (modredcFieldOps arith build lookup m).Models (MontgomeryResidue p) := by
  subst hsp
  have hpos : 0 < w := by omega
  have heven : w % 2 = 0 := by omega
  have hprime : s.value.Prime := Fact.out
  have hp : 13 < s.value := by
    have hpow : 2 ^ 32 ≤ 2 ^ w := Nat.pow_le_pow_right (by decide) (by omega)
    omega
  have hodd : s.value % 2 = 1 := hprime.eq_two_or_odd.resolve_left (by omega)
  obtain ⟨m, hinit, hms, hinv⟩ := modInv_spec arith build lookup hw hodd hlow hhigh
  obtain ⟨m', hinit', -, hm⟩ := modInitmodUls_spec build hw hodd hlow.le hhigh
  obtain rfl : m = m' := (Outcome.done.inj (hinit.symm.trans hinit')).1
  refine ⟨m, hinit, ?_⟩
  subst hms
  have hscaled := modredcOps_scaled build (by omega) heven hm
  have hdivn : ∀ {n wModN c : BitVec w} {invN : List (BitVec w)},
      DivnConstants n wModN invN c → n.toNat.Prime → n.toNat < m.m.value →
      DividesNumber m.m.value value n.toNat
        (divInPlace fun memory => modDivn build memory 0 0 arith n wModN invN c m) :=
    fun h hn hlt => divInPlace_spec fun _ ha =>
      (modDivn_spec build hpos heven h hm ha).2 ((Nat.coprime_primes hprime hn).mpr hlt.ne')
  have hfield : (modredcFieldOps arith build lookup m).Scaled m.m.value
      ((2 ^ w * 2 ^ w : ℕ) : ZMod m.m.value) value := by
    refine ⟨hscaled, fun a ha => modredcDiv2_spec build (by omega) hm ha, ?_, ?_, ?_,
      fun {a} ha hne => ?_, fun {a} ha => ?_⟩
    · exact divInPlace_spec fun _ ha =>
        (modDiv3_spec build hw hm ha).2 (not_dvd_of_lt Nat.prime_three (by omega))
    · have hseven : (7#w).toNat = 7 := by rcases hw with rfl | rfl <;> rfl
      have hspec := hdivn (divnConstants_seven hw)
      rw [hseven] at hspec
      exact hspec Nat.prime_seven (by omega)
    · have hthirteen : (13#w).toNat = 13 := by rcases hw with rfl | rfl <;> rfl
      have hspec := hdivn (divnConstants_thirteen hw)
      rw [hthirteen] at hspec
      exact hspec (by norm_num) hp
    · have hgcd : Nat.gcd a.value m.m.value = 1 :=
        (Nat.coprime_of_lt_prime hne ha hprime).symm
      obtain ⟨r, hr, hlt, hmul⟩ := (hinv a ha).1 hgcd
      exact ⟨r, hr, hlt, mul_eq_of_mul_eq_one hscaled hlt ha hmul⟩
    · refine (hinv a (by omega)).2 ?_
      rw [ha, Nat.gcd_zero_left]
      omega
  exact hfield.models hp

end Field

end CadoNfs
