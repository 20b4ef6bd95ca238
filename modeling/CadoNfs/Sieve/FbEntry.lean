import CadoNfs.Utils.ModUlInv

/-!
# Factor base entries

The entries of `fb.h`, and `fb_make_linear1` of `fb.c`, which makes the entry of
a linear polynomial for a prime power.

Main results:

- Theorem `fbMakeLinear1_affine`: a prime power that is coprime to the leading coefficient.
- Theorem `fbMakeLinear1_projective`: a prime power that is not.
-/

namespace CadoNfs.Fb

open WordArith
open BitVec (ofNat)
open Outcome (assert assert_of exists_of_bind_eq_pure)

variable {w : ℕ}

/-! ## Code -/

/-- `factorbase_degn_t`; `nr_roots` is the length of the list. -/
structure FbEntry (w : ℕ) where
  p : ℕ
  invp : BitVec w
  plog : BitVec 8
  roots : List ℕ
deriving DecidableEq, Repr

/-- `FB_END`. -/
def fbEnd : ℕ := 1

/-- `fb_add_to`, when the memory suffices. -/
def fbAddTo (fb : List (FbEntry w)) (add : FbEntry w) : List (FbEntry w) :=
  fb ++ [add]

/-- The entry at the end of a factor base. -/
def endMark (cur : FbEntry w) : FbEntry w :=
  { cur with p := fbEnd, invp := BitVec.allOnes w, roots := [] }

/-- `mpz_fdiv_ui`. -/
def mpzFdivUi (n : ℤ) (d : ℕ) : ℕ :=
  (n % d).toNat

/-- `fb_make_linear1` on the entry `cur`: the return value and the entry after it.  For
an even `p` the field `invp` keeps what it had. -/
def fbMakeLinear1 (build : UlarithBuild) (cur : FbEntry w) (g0 g1 : ℤ) (p : ℕ)
    (logp : BitVec 8) (doProjective : Bool) : Outcome (Bool × FbEntry w) := do
  let cur := { cur with p := p, plog := logp }
  let m := ofNat w p
  let r0 := ofNat w (mpzFdivUi g0 p)
  let r1 := ofNat w (mpzFdivUi g1 p)
  assert (r0 < m)
  assert (r1 < m)
  let gcd ← modulGcd r1 m
  let isProjective := decide (gcd > 1#w)
  if isProjective && !doProjective then pure (false, cur)
  else do
    let (r0, r1) := if isProjective then (r1, r0) else (r0, r1)
    let (rc, r1) ← modulInv build r1 m
    assert (rc ≠ 0)
    let r1 ← modulMul build r0 r1 m
    let r1 := modulNeg r1 m
    let root := (r1 + if isProjective then m else 0#w).toNat % 2 ^ 32
    let cur := { cur with roots := [root] }
    if p % 2 ≠ 0 then do
      let inv ← modulInvmodlong m
      pure (true, { cur with invp := -inv })
    else pure (true, cur)

/-! ## The entry of a linear polynomial -/

section Entry

variable {p : ℕ} {g0 g1 : ℤ}

/-- What an entry holds besides its roots. -/
structure EntryFor (p : ℕ) (logp : BitVec 8) (e : FbEntry w) : Prop where
  p_eq : e.p = p
  plog_eq : e.plog = logp
  invp_mul : p % 2 ≠ 0 → e.invp * ofNat w p = -1#w

theorem natCast_mpzFdivUi (hp : 0 < p) (n : ℤ) : (mpzFdivUi n p : ℤ) = n % p :=
  Int.toNat_of_nonneg (Int.emod_nonneg n (by omega))

theorem mpzFdivUi_lt (hp : 0 < p) (n : ℤ) : mpzFdivUi n p < p := by
  have hlt := Int.emod_lt_of_pos n (show (0 : ℤ) < p by omega)
  rw [← natCast_mpzFdivUi hp] at hlt
  omega

theorem gcd_mpzFdivUi (hp : 0 < p) (n : ℤ) : Nat.gcd (mpzFdivUi n p) p = Int.gcd n p := by
  rw [← Int.gcd_natCast_natCast, natCast_mpzFdivUi hp, Int.gcd_emod]

variable (build : UlarithBuild)

theorem modulNeg_quotient (hpos : 0 < w) (heven : w % 2 = 0)
    {a s m : BitVec w} (ha : a.toNat < m.toNat) (hs : s.toNat < m.toNat) (hm : 1 < m.toNat)
    (hcop : Nat.gcd s.toNat m.toNat = 1) :
    ∃ inv prod, modulInv build s m = pure (1, inv) ∧ modulMul build a inv m = pure prod ∧
      (modulNeg prod m).toNat < m.toNat ∧
      (m.toNat : ℤ) ∣ s.toNat * (modulNeg prod m).toNat + a.toNat := by
  obtain ⟨inv, hinv, hlt, hunit⟩ := (modulInv_spec build hpos heven hs hm).1 hcop
  obtain ⟨prod, hmul, hprod⟩ := modulMul_spec build hpos heven ha hlt
  have hprodLt : prod.toNat < m.toNat := hprod ▸ Nat.mod_lt _ (by omega)
  have hneg := modulNeg_spec hprodLt
  refine ⟨inv, prod, hinv, hmul, hneg ▸ Nat.mod_lt _ (by omega), ?_⟩
  have hnegMod : ((modulNeg prod m).toNat : ℤ) ≡ -(a.toNat * inv.toNat) [ZMOD m.toNat] := by
    have hprodMod : (prod.toNat : ℤ) ≡ a.toNat * inv.toNat [ZMOD m.toNat] := by
      rw [hprod, Int.natCast_mod, Nat.cast_mul]
      exact Int.mod_modEq _ _
    rw [hneg, Int.natCast_mod, Nat.cast_sub hprodLt.le]
    refine (Int.mod_modEq _ _).trans ?_
    have hsub := (Int.modEq_zero_iff_dvd.mpr (dvd_refl (m.toNat : ℤ))).sub hprodMod
    rwa [zero_sub] at hsub
  have hunitMod : (inv.toNat : ℤ) * s.toNat ≡ 1 [ZMOD m.toNat] := by
    have := Int.natCast_modEq_iff.mpr hunit
    rwa [Nat.cast_mul, Nat.cast_one] at this
  rw [← Int.modEq_zero_iff_dvd]
  calc (s.toNat : ℤ) * (modulNeg prod m).toNat + a.toNat
      ≡ s.toNat * -(a.toNat * inv.toNat) + a.toNat [ZMOD m.toNat] :=
        (hnegMod.mul_left _).add_right _
    _ = a.toNat - a.toNat * (inv.toNat * s.toNat) := by ring
    _ ≡ a.toNat - a.toNat * 1 [ZMOD m.toNat] := (Int.ModEq.refl _).sub (hunitMod.mul_left _)
    _ = 0 := by ring

section

variable (hw : w = 32 ∨ w = 64) (cur : FbEntry w) (logp : BitVec 8)
include hw

/-- The run for both kinds of roots: `a` and `s` are the coefficients after the
swap. -/
theorem fbMakeLinear1_run (doProjective proj : Bool) {a s : ℤ} (hp : 1 < p) (hp32 : p < 2 ^ 32)
    (hproj : proj = true ↔ Int.gcd g1 p ≠ 1)
    (hswap : (a, s) = if proj then (g1, g0) else (g0, g1)) (hcop : Int.gcd s p = 1)
    (hdo : proj = true → doProjective = true) :
    ∃ cur' R, fbMakeLinear1 build cur g0 g1 p logp doProjective = pure (true, cur') ∧
      EntryFor p logp cur' ∧ R < p ∧ (p : ℤ) ∣ s * R + a ∧
      cur'.roots = [(R + if proj then p else 0) % 2 ^ 32] := by
  have hpw : p < 2 ^ w := hp32.trans_le (Nat.pow_le_pow_right (by omega) (by omega))
  have hm : (ofNat w p).toNat = p := WordArith.toNat_const hpw
  have hres : ∀ n, (ofNat w (mpzFdivUi n p)).toNat = mpzFdivUi n p := fun n =>
    WordArith.toNat_const ((mpzFdivUi_lt (by omega) n).trans hpw)
  have hlt : ∀ n, (ofNat w (mpzFdivUi n p)).toNat < (ofNat w p).toNat := fun n => by
    rw [hres, hm]
    exact mpzFdivUi_lt (by omega) n
  obtain ⟨g, hgcd, hg⟩ := modulGcd_spec (hlt g1)
  rw [hres, hm, gcd_mpzFdivUi (by omega)] at hg
  have hflag : decide (g > 1#w) = proj := by
    rw [Bool.eq_iff_iff, hproj, decide_eq_true_iff, gt_iff_lt, BitVec.lt_def, hg,
      WordArith.toNat_const (by omega)]
    have hpos : 0 < Int.gcd g1 p := Int.gcd_pos_of_ne_zero_right _ (by omega)
    omega
  obtain ⟨inv, prod, hinv, hmul, hnegLt, hdvd⟩ := modulNeg_quotient build (by omega) (by omega)
    (hlt a) (hlt s) (by omega) (by rw [hres, hm, gcd_mpzFdivUi (by omega), hcop])
  have hstop : ¬(proj && !doProjective) = true := by
    cases proj with
    | true => simp [hdo rfl]
    | false => simp
  have hpair : (if proj then (ofNat w (mpzFdivUi g1 p), ofNat w (mpzFdivUi g0 p))
      else (ofNat w (mpzFdivUi g0 p), ofNat w (mpzFdivUi g1 p)))
      = (ofNat w (mpzFdivUi a p), ofNat w (mpzFdivUi s p)) := by
    cases proj with
    | true =>
      obtain ⟨rfl, rfl⟩ := Prod.mk.inj hswap
      rfl
    | false =>
      obtain ⟨rfl, rfl⟩ := Prod.mk.inj hswap
      rfl
  simp only [fbMakeLinear1, assert_of (BitVec.lt_def.mpr (hlt _)), pure_bind, hgcd,
    hflag, if_neg hstop, hpair, hinv, hmul, assert_of (show (1 : ℤ) ≠ 0 by decide)]
  have hroot : (modulNeg prod (ofNat w p) + if proj then ofNat w p else 0#w).toNat
      % 2 ^ 32 = ((modulNeg prod (ofNat w p)).toNat + if proj then p else 0) % 2 ^ 32 := by
    rw [BitVec.toNat_add, Nat.mod_mod_of_dvd _ (pow_dvd_pow 2 (show 32 ≤ w by omega)), apply_ite
      BitVec.toNat, hm, BitVec.toNat_zero]
  have hR : (p : ℤ) ∣ s * (modulNeg prod (ofNat w p)).toNat + a := by
    rw [hm, hres, hres, natCast_mpzFdivUi (by omega), natCast_mpzFdivUi (by omega)] at hdvd
    rw [← Int.modEq_zero_iff_dvd] at hdvd ⊢
    exact (((Int.mod_modEq s p).mul_right _).add (Int.mod_modEq a p)).symm.trans hdvd
  by_cases hodd : p % 2 ≠ 0
  · obtain ⟨invp, hrun, hinvp⟩ := modulInvmodlong_spec hw (by rwa [hm])
    refine ⟨_, _, by rw [if_pos hodd, hrun, pure_bind], ⟨rfl, rfl, fun _ => ?_⟩,
      hnegLt.trans_eq hm, hR, congrArg (fun x => [x]) hroot⟩
    rw [BitVec.neg_mul, hinvp]
  · exact ⟨_, _, if_neg hodd, ⟨rfl, rfl, fun h => absurd h hodd⟩, hnegLt.trans_eq hm, hR,
      congrArg (fun x => [x]) hroot⟩

/-- The entry of a prime power that is coprime to the leading coefficient: the root. -/
theorem fbMakeLinear1_affine (doProjective : Bool) (hp : 1 < p) (hp32 : p < 2 ^ 32)
    (hcop : Int.gcd g1 p = 1) :
    ∃ cur' R, fbMakeLinear1 build cur g0 g1 p logp doProjective = pure (true, cur') ∧
      EntryFor p logp cur' ∧ R < p ∧ (p : ℤ) ∣ g1 * R + g0 ∧ cur'.roots = [R] := by
  obtain ⟨cur', R, hrun, hentry, hlt, hdvd, hroots⟩ := fbMakeLinear1_run build hw cur logp
    doProjective false (a := g0) (s := g1) hp hp32 (by simp [hcop])
    rfl hcop (by simp)
  refine ⟨cur', R, hrun, hentry, hlt, hdvd, hroots.trans ?_⟩
  rw [if_neg Bool.false_ne_true, add_zero, Nat.mod_eq_of_lt (hlt.trans hp32)]

/-- The entry of any other prime power: the reciprocal of the root plus the prime power, in 32
bits. -/
theorem fbMakeLinear1_projective (hp : 1 < p) (hp32 : p < 2 ^ 32) (hproj : Int.gcd g1 p ≠ 1)
    (hcop : Int.gcd g0 p = 1) :
    ∃ cur' R, fbMakeLinear1 build cur g0 g1 p logp true = pure (true, cur') ∧
      EntryFor p logp cur' ∧ R < p ∧ (p : ℤ) ∣ g0 * R + g1 ∧
      cur'.roots = [(p + R) % 2 ^ 32] := by
  obtain ⟨cur', R, hrun, hentry, hlt, hdvd, hroots⟩ := fbMakeLinear1_run build hw cur logp
    true true (a := g1) (s := g0) hp hp32 (by simp [hproj])
    rfl hcop (fun _ => rfl)
  refine ⟨cur', R, hrun, hentry, hlt, hdvd, hroots.trans ?_⟩
  rw [if_pos rfl, add_comm]

end

theorem fbMakeLinear1_made {build : UlarithBuild} {cur cur' : FbEntry w} {logp : BitVec 8}
    {made : Bool} (h : fbMakeLinear1 build cur g0 g1 p logp true = pure (made, cur')) :
    made = true ∧ cur'.p = p := by
  rw [fbMakeLinear1] at h
  obtain ⟨_, -, h⟩ := exists_of_bind_eq_pure h
  obtain ⟨_, -, h⟩ := exists_of_bind_eq_pure h
  obtain ⟨gcd, -, h⟩ := exists_of_bind_eq_pure h
  simp only [Bool.not_true, Bool.and_false, if_neg Bool.false_ne_true] at h
  obtain ⟨⟨rc, r1⟩, -, h⟩ := exists_of_bind_eq_pure h
  obtain ⟨_, -, h⟩ := exists_of_bind_eq_pure h
  obtain ⟨prod, -, h⟩ := exists_of_bind_eq_pure h
  by_cases hodd : p % 2 ≠ 0
  · rw [if_pos hodd] at h
    obtain ⟨inv, -, h⟩ := exists_of_bind_eq_pure h
    obtain ⟨rfl, rfl⟩ := Prod.mk.inj (Outcome.done.inj h).1
    exact ⟨rfl, rfl⟩
  · rw [if_neg hodd] at h
    obtain ⟨rfl, rfl⟩ := Prod.mk.inj (Outcome.done.inj h).1
    exact ⟨rfl, rfl⟩

end Entry

end CadoNfs.Fb
