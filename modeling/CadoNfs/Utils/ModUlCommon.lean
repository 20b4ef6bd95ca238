import CadoNfs.Utils.ModUlOps
import CadoNfs.Utils.ModredcPow

/-!
# Powers and Lucas sequences of residues

The powering functions of `mod_ul_common.c` and the functions `mod_V_ul` and
`mod_V_mp`, which `modredc_2ul_common.c` has with the same text, over the operations of
the header that they are compiled for.

Main results:

- Theorems `modulPowUl_spec`, `modulPowMp_spec`: powers of an arbitrary base.
- Theorems `modul2powUl_spec`, `modul2powMp_spec`, `modul3powUl_spec`: powers of 2
  and 3.
- Theorems `modVUl_spec`, `modVMp_spec`: terms of a Lucas sequence.
-/

namespace CadoNfs

open WordArith LucasSequence
open BitVec (ofNat toNat_pos_of_ne_zero toNat_zero)

variable {w : ℕ} {ρ : Type}

/-! ## Definitions -/

section Definitions

variable (build : UlarithBuild) (ops : RingOps ρ)

/-- `mod_pow_ul`. -/
def modulPowUl (b : ρ) (e : BitVec w) : Outcome ρ :=
  if e = 0#w then pure ops.one
  else do
    let mask := highestBit build e
    let (t, mask, e1) ← ops.powLoop b e (w + 1) b mask (e - mask)
    Outcome.assert (e1 = 0#w ∧ mask = 1#w)
    pure t

/-- One turn of `mod_2pow_ul` and `mod_2pow_mp`. -/
def modul2powStep (bit : Bool) (t : ρ) : Outcome ρ := do
  let t ← ops.sqr t
  let u ← ops.add t t
  pure (if bit then u else t)

/-- `mod_2pow_ul`. -/
def modul2powUl (e : BitVec w) : Outcome ρ :=
  if e = 0#w then pure ops.one
  else do
    let mask := highestBit build e
    let t ← ops.add ops.one ops.one
    maskLoop (modul2powStep ops) e (w + 1) (mask >>> 1) t

/-- One turn of `mod_3pow_ul`. -/
def modul3powStep (bit : Bool) (t : ρ) : Outcome ρ := do
  let t ← ops.sqr t
  let u ← ops.add t t
  let u ← ops.add u t
  pure (if bit then u else t)

/-- `mod_3pow_ul`. -/
def modul3powUl (e : BitVec w) : Outcome ρ :=
  if e = 0#w then pure ops.one
  else do
    let mask := highestBit build e
    let t ← ops.add ops.one ops.one
    let t ← ops.add t ops.one
    maskLoop (modul3powStep ops) e (w + 1) (mask >>> 1) t

/-- `mod_pow_mp`. -/
def modulPowMp (b : ρ) (e : ℕ → BitVec w) (nrwords : ℕ) : Outcome ρ :=
  if nrwords = 0 ∨ e (nrwords - 1) = 0#w then pure ops.one
  else
    wordsLoop (ops.powStep b) e nrwords (highestBit build (e (nrwords - 1)) >>> 1) b

/-- `mod_2pow_mp`, which requires an exponent that is not zero. -/
def modul2powMp (e : ℕ → BitVec w) (nrwords : ℕ) : Outcome ρ := do
  Outcome.assert (nrwords ≠ 0 ∧ e (nrwords - 1) ≠ 0#w)
  let mask := highestBit build (e (nrwords - 1))
  let t ← ops.add ops.one ops.one
  wordsLoop (modul2powStep ops) e nrwords (mask >>> 1) t

/-- The values `two`, `t` and `t1` with which `mod_V_ul` and `mod_V_mp`
start. -/
def modVStart (b : ρ) : Outcome (ρ × ρ × ρ) := do
  let two ← ops.add ops.one ops.one
  let t1 ← ops.sqr b
  pure (two, b, ops.sub t1 two)

/-- `mod_V_ul`. -/
def modVUl (b : ρ) (e : BitVec w) : Outcome ρ :=
  if e = 0#w then ops.add ops.one ops.one
  else do
    let mask := highestBit build e
    let (two, t, t1) ← modVStart ops b
    let (t, _) ← maskLoop (ops.lucasStep b two) e (w + 1) (mask >>> 1) (t, t1)
    pure t

/-- `mod_V_mp`. -/
def modVMp (b : ρ) (e : ℕ → BitVec w) (nrwords : ℕ) : Outcome ρ :=
  if nrwords = 0 ∨ e (nrwords - 1) = 0#w then ops.add ops.one ops.one
  else do
    let mask := highestBit build (e (nrwords - 1))
    let (two, t, t1) ← modVStart ops b
    let (t, _) ← wordsLoop (ops.lucasStep b two) e nrwords (mask >>> 1) (t, t1)
    pure t

end Definitions

/-! ## Powers -/

section Powers

variable {ops : RingOps ρ} {R : Type*} [CommRing R] {Rep : R → ρ → Prop} {x : R} {b : ρ}

variable (build : UlarithBuild)

/-- `mod_pow_ul` computes the power, and its assertion holds. -/
theorem modulPowUl_spec (hw : 0 < w) (h : ops.Models Rep) (hb : Rep x b)
    (e : BitVec w) : ∃ r, modulPowUl build ops b e = pure r ∧ Rep (x ^ e.toNat) r := by
  by_cases hzero : e = 0#w
  · refine ⟨ops.one, if_pos hzero, ?_⟩
    rw [hzero, toNat_zero, pow_zero]
    exact h.one
  obtain ⟨r, hr, hres⟩ := powLoop_highestBit h hb build hw hzero
  refine ⟨r, ?_, hres⟩
  simp [modulPowUl, if_neg hzero, hr, Outcome.assert_of]

section

variable (h : ops.Models Rep)
include h

/-- `mod_pow_mp` computes the power. -/
theorem modulPowMp_spec (hb : Rep x b) (e : ℕ → BitVec w) (nrwords : ℕ) :
    ∃ r, modulPowMp build ops b e nrwords = pure r ∧ Rep (x ^ mpExponent e nrwords) r := by
  unfold modulPowMp
  by_cases hzero : nrwords = 0 ∨ e (nrwords - 1) = 0#w
  · rw [if_pos hzero, mpExponent, if_pos hzero, pow_zero]
    exact ⟨ops.one, rfl, h.one⟩
  · rw [if_neg hzero]
    exact wordsLoop_highestBit build (RingOps.powStep_scans h hb) hzero (by rwa [pow_one])

theorem models_two : ∃ t, ops.add ops.one ops.one = pure t ∧ Rep 2 t := by
  obtain ⟨t, ht, hres⟩ := h.add h.one h.one
  rw [one_add_one_eq_two] at hres
  exact ⟨t, ht, hres⟩

theorem modul2powStep_scans : ScansBits (modul2powStep ops) fun n t => Rep (2 ^ n) t := by
  intro n bit t ht
  obtain ⟨s, hs, hsres⟩ := h.sqr ht
  rw [← pow_add, ← two_mul] at hsres
  obtain ⟨u, hu, hures⟩ := h.add hsres hsres
  rw [← mul_two, ← pow_succ] at hures
  refine ⟨if bit then u else s, by rw [modul2powStep, hs, pure_bind, hu, pure_bind], ?_⟩
  cases bit with
  | false => simpa using hsres
  | true => simpa using hures

theorem modul3powStep_scans : ScansBits (modul3powStep ops) fun n t => Rep (3 ^ n) t := by
  intro n bit t ht
  obtain ⟨s, hs, hsres⟩ := h.sqr ht
  rw [← pow_add, ← two_mul] at hsres
  obtain ⟨u, hu, hures⟩ := h.add hsres hsres
  obtain ⟨v, hv, hvres⟩ := h.add hures hsres
  rw [← mul_two, ← mul_add_one, two_add_one_eq_three, ← pow_succ] at hvres
  refine ⟨if bit then v else s, by rw [modul3powStep, hs, pure_bind, hu,
    pure_bind, hv, pure_bind], ?_⟩
  cases bit with
  | false => simpa using hsres
  | true => simpa using hvres

/-- `mod_2pow_ul` computes the power of 2. -/
theorem modul2powUl_spec (e : BitVec w) :
    ∃ r, modul2powUl build ops e = pure r ∧ Rep (2 ^ e.toNat) r := by
  unfold modul2powUl
  by_cases hzero : e = 0#w
  · rw [if_pos hzero, hzero, toNat_zero, pow_zero]
    exact ⟨ops.one, rfl, h.one⟩
  · obtain ⟨t, ht, hres⟩ := models_two h
    rw [if_neg hzero, ht, pure_bind]
    exact maskLoop_highestBit build (modul2powStep_scans h) (toNat_pos_of_ne_zero hzero)
      (by rwa [pow_one])

/-- `mod_3pow_ul` computes the power of 3. -/
theorem modul3powUl_spec (e : BitVec w) :
    ∃ r, modul3powUl build ops e = pure r ∧ Rep (3 ^ e.toNat) r := by
  unfold modul3powUl
  by_cases hzero : e = 0#w
  · rw [if_pos hzero, hzero, toNat_zero, pow_zero]
    exact ⟨ops.one, rfl, h.one⟩
  · obtain ⟨t, ht, hres⟩ := models_two h
    obtain ⟨u, hu, hures⟩ := h.add hres h.one
    rw [two_add_one_eq_three] at hures
    rw [if_neg hzero, ht, pure_bind, hu, pure_bind]
    exact maskLoop_highestBit build (modul3powStep_scans h) (toNat_pos_of_ne_zero hzero)
      (by rwa [pow_one])

/-- `mod_2pow_mp` computes the power of 2 if the exponent is not zero, and fails its assertion
otherwise. -/
theorem modul2powMp_spec (e : ℕ → BitVec w) (nrwords : ℕ) :
    if nrwords = 0 ∨ e (nrwords - 1) = 0#w then modul2powMp build ops e nrwords = .abort
    else ∃ r, modul2powMp build ops e nrwords = pure r ∧ Rep (2 ^ mpExponent e nrwords) r := by
  unfold modul2powMp
  split_ifs with hzero
  · rw [Outcome.assert, if_neg fun hne => by tauto]
    rfl
  · obtain ⟨t, ht, hres⟩ := models_two h
    rw [Outcome.assert_of (by tauto), pure_bind, ht]
    simp only [pure_bind]
    exact wordsLoop_highestBit build (modul2powStep_scans h) hzero (by rwa [pow_one])

end

end Powers

/-! ## Lucas sequences -/

section Lucas

variable {ops : RingOps ρ} {R : Type*} [CommRing R] {Rep : R → ρ → Prop} {x : R} {b : ρ}

theorem modVStart_spec (h : ops.Models Rep) (hb : Rep x b) :
    ∃ two t1, modVStart ops b = pure (two, b, t1) ∧ Rep 2 two ∧
      Rep (lucasV x 1) b ∧ Rep (lucasV x (1 + 1)) t1 := by
  obtain ⟨two, htwo, htwores⟩ := models_two h
  obtain ⟨s, hs, hsres⟩ := h.sqr hb
  refine ⟨two, ops.sub s two, ?_, htwores, hb, ?_⟩
  · rw [modVStart, htwo, pure_bind, hs, pure_bind]
  · exact h.sub hsres htwores

section

variable (build : UlarithBuild) (h : ops.Models Rep) (hb : Rep x b)
include h hb

/-- `mod_V_ul` computes the term. -/
theorem modVUl_spec (e : BitVec w) :
    ∃ r, modVUl build ops b e = pure r ∧ Rep (lucasV x e.toNat) r := by
  unfold modVUl
  by_cases hzero : e = 0#w
  · rw [if_pos hzero, hzero, toNat_zero]
    exact models_two h
  · obtain ⟨two, t1, hstart, htwo, hres⟩ := modVStart_spec h hb
    obtain ⟨s, hs, hsres⟩ := maskLoop_highestBit build (RingOps.lucasStep_scans h hb htwo)
      (s := (b, t1)) (toNat_pos_of_ne_zero hzero) hres
    refine ⟨s.1, ?_, hsres.1⟩
    simp [if_neg hzero, hstart, hs]

/-- `mod_V_mp` computes the term. -/
theorem modVMp_spec (e : ℕ → BitVec w) (nrwords : ℕ) :
    ∃ r, modVMp build ops b e nrwords = pure r ∧ Rep (lucasV x (mpExponent e nrwords)) r := by
  unfold modVMp
  by_cases hzero : nrwords = 0 ∨ e (nrwords - 1) = 0#w
  · rw [if_pos hzero, mpExponent, if_pos hzero]
    exact models_two h
  · obtain ⟨two, t1, hstart, htwo, hres⟩ := modVStart_spec h hb
    obtain ⟨s, hs, hsres⟩ := wordsLoop_highestBit build (RingOps.lucasStep_scans h hb htwo)
      (s := (b, t1)) hzero hres
    refine ⟨s.1, ?_, hsres.1⟩
    simp [if_neg hzero, hstart, hs]

end

end Lucas

/-! ## Exponents of several words -/

section Memory

variable {R : Type*} {Rep : R → ρ → Prop}

/-- The functions write to local residues until `mod_set (r, t, m)` at their end. -/
def storeResult (mem : ℕ → ρ) (r : ℕ) (t : Outcome ρ) : Outcome (ℕ → ρ) := do
  let t ← t
  pure (Function.update mem r t)

/-- For a base that stands for `x`, a residue that stands for `y` is stored in `r`,
also where `r` is the base. -/
def Computes (Rep : R → ρ → Prop) (f : ρ → Outcome ρ) (x y : R) : Prop :=
  ∀ (mem : ℕ → ρ) (r b : ℕ), Rep x (mem b) → ∃ mem', storeResult mem r (f (mem b)) = pure mem' ∧
    Rep y (mem' r) ∧ ∀ i, i ≠ r → mem' i = mem i

theorem computes_of_returns {f : ρ → Outcome ρ} {x y : R}
    (h : ∀ b, Rep x b → ∃ t, f b = pure t ∧ Rep y t) : Computes Rep f x y := by
  intro mem r b hb
  obtain ⟨t, ht, hres⟩ := h (mem b) hb
  refine ⟨Function.update mem r t, by rw [storeResult, ht, pure_bind], ?_, fun i hi => ?_⟩
  · rwa [Function.update_self]
  · exact Function.update_of_ne hi t mem

end Memory

section Words

variable {ops : RingOps ρ} {R : Type*} [CommRing R] {Rep : R → ρ → Prop} {x : R} {b : ρ}
  {e : ℕ → BitVec w} {nrwords : ℕ}

theorem mpExponent_eq (htop : nrwords = 0 ∨ e (nrwords - 1) ≠ 0#w) :
    mpExponent e nrwords = wordsValue e nrwords := by
  unfold mpExponent
  split_ifs with hzero
  · rcases hzero with rfl | hzero
    · rfl
    · rcases htop with rfl | htop
      · rfl
      · exact absurd hzero htop
  · rfl

theorem returns_unique (h : ops.Models Rep) {s t : Outcome ρ} (hs : ∃ r, s = pure r ∧ Rep x r)
    (ht : ∃ r, t = pure r ∧ Rep x r) : s = t := by
  obtain ⟨r, rfl, hr⟩ := hs
  obtain ⟨r', rfl, hr'⟩ := ht
  rw [(h.eq_iff hr hr').mpr rfl]

/-- What `mod_pow_mp` and `mod_V_mp` do for the exponent `E`, in place or not, and
that they agree with `mod_pow_ul` and `mod_V_ul`. -/
structure MpCorrect (Rep : R → ρ → Prop) (w E : ℕ) (powMp VMp : ρ → Outcome ρ)
    (powUl VUl : ρ → BitVec w → Outcome ρ) : Prop where
  pow : ∀ x, Computes Rep powMp x (x ^ E)
  V : ∀ x, Computes Rep VMp x (lucasV x E)
  pow_ul : E < 2 ^ w → ∀ x b, Rep x b → powMp b = powUl b (ofNat w E)
  V_ul : E < 2 ^ w → ∀ x b, Rep x b → VMp b = VUl b (ofNat w E)

/-- What `mod_npow_mp` or `mod_2pow_mp` does for the base `p` and the exponent
`E`, and that it agrees with `mod_npow_ul` or `mod_2pow_ul`. -/
structure SmallBaseCorrect (Rep : R → ρ → Prop) (w p E : ℕ) (npowMp : Outcome ρ)
    (npowUl : BitVec w → Outcome ρ) : Prop where
  pow : ∃ r, npowMp = pure r ∧ Rep ((p : R) ^ E) r
  pow_ul : E < 2 ^ w → npowMp = npowUl (ofNat w E)

theorem MpCorrect.of_returns (h : ops.Models Rep) {E : ℕ} {powMp VMp : ρ → Outcome ρ}
    {powUl VUl : ρ → BitVec w → Outcome ρ}
    (hpow : ∀ x b, Rep x b → ∃ r, powMp b = pure r ∧ Rep (x ^ E) r)
    (hV : ∀ x b, Rep x b → ∃ r, VMp b = pure r ∧ Rep (lucasV x E) r)
    (hpowUl : ∀ x b (e : BitVec w), Rep x b → ∃ r, powUl b e = pure r ∧ Rep (x ^ e.toNat) r)
    (hVUl : ∀ x b (e : BitVec w), Rep x b → ∃ r, VUl b e = pure r ∧ Rep (lucasV x e.toNat) r) :
    MpCorrect Rep w E powMp VMp powUl VUl where
  pow x := computes_of_returns (hpow x)
  V x := computes_of_returns (hV x)
  pow_ul hE x b hb := by
    have hword := hpowUl x b (ofNat w E) hb
    rw [toNat_const hE] at hword
    exact returns_unique h (hpow x b hb) hword
  V_ul hE x b hb := by
    have hword := hVUl x b (ofNat w E) hb
    rw [toNat_const hE] at hword
    exact returns_unique h (hV x b hb) hword

theorem SmallBaseCorrect.of_returns (h : ops.Models Rep) {p E : ℕ} {npowMp : Outcome ρ}
    {npowUl : BitVec w → Outcome ρ} (hpow : ∃ r, npowMp = pure r ∧ Rep ((p : R) ^ E) r)
    (hpowUl : ∀ e, ∃ r, npowUl e = pure r ∧ Rep ((p : R) ^ e.toNat) r) :
    SmallBaseCorrect Rep w p E npowMp npowUl where
  pow := hpow
  pow_ul hE := by
    have hword := hpowUl (ofNat w E)
    rw [toNat_const hE] at hword
    exact returns_unique h hpow hword

theorem modulMp_correct (build : UlarithBuild) (hw : 0 < w) (h : ops.Models Rep)
    (htop : nrwords = 0 ∨ e (nrwords - 1) ≠ 0#w) :
    MpCorrect Rep w (wordsValue e nrwords) (fun b => modulPowMp build ops b e nrwords)
      (fun b => modVMp build ops b e nrwords) (modulPowUl build ops) (modVUl build ops) ∧
    (0 < wordsValue e nrwords → SmallBaseCorrect Rep w 2 (wordsValue e nrwords)
      (modul2powMp build ops e nrwords) (modul2powUl build ops)) := by
  have hexp := mpExponent_eq htop
  refine ⟨.of_returns h (fun x b hb => ?_) (fun x b hb => ?_)
    (fun x b e hb => modulPowUl_spec build hw h hb e) (fun x b e hb => modVUl_spec build h hb e),
    fun hpos => .of_returns h ?_ fun e => by exact_mod_cast modul2powUl_spec build h e⟩
  · rw [← hexp]
    exact modulPowMp_spec build h hb e nrwords
  · rw [← hexp]
    exact modVMp_spec build h hb e nrwords
  · have hspec := modul2powMp_spec build h e nrwords
    have hzero : ¬(nrwords = 0 ∨ e (nrwords - 1) = 0#w) := fun hzero => by
      rw [← hexp, mpExponent, if_pos hzero] at hpos
      exact absurd hpos (lt_irrefl 0)
    rw [if_neg hzero, hexp] at hspec
    exact_mod_cast hspec

end Words

section Headers

variable {arith : RedcArith} {e : ℕ → BitVec w} {nrwords : ℕ}

theorem modPowUl_eq (build : UlarithBuild) (b : TwoWord w) (e : BitVec w) (m : Modulusredc w) :
    modPowUl arith build b e m = modulPowUl build (modredcOps arith build m) b e := by
  simp only [modPowUl, modulPowUl, modPowUlLoop_eq]
  rfl

/-- Powers with an exponent of several words. -/
theorem modredcMp_correct (build : UlarithBuild) (hw : 3 ≤ w) (heven : w % 2 = 0)
    {m : Modulusredc w} (hm : ValidRedc arith m) (htop : nrwords = 0 ∨ e (nrwords - 1) ≠ 0#w) :
    MpCorrect (MontgomeryResidue m.m.value)
      w (wordsValue e nrwords) (fun b => modPowMp arith build b e nrwords m)
      (fun b => modVMp build (modredcOps arith build m) b e nrwords)
      (fun b e => modPowUl arith build b e m) (modVUl build (modredcOps arith build m)) ∧
    (∀ p, p = 2 ∨ p = 3 ∨ p = 5 ∨ p = 7 → SmallBaseCorrect
      (MontgomeryResidue m.m.value)
      w p (wordsValue e nrwords) (modNpowMp arith build (ofNat w p) e nrwords m)
      (fun e => modNpowUl arith build (ofNat w p) e m)) ∧
    SmallBaseCorrect
      (MontgomeryResidue m.m.value)
      w 2 (wordsValue e nrwords) (mod2powMp arith build e nrwords m)
      (fun e => mod2powUl arith build e m) := by
  have hexp := mpExponent_eq htop
  have hops := modredcOps_models build (by omega : 2 ≤ w) heven hm
  have hsmall : ∀ p, p = 2 ∨ p = 3 ∨ p = 5 ∨ p = 7 → SmallBaseCorrect
      (MontgomeryResidue m.m.value)
      w p (wordsValue e nrwords) (modNpowMp arith build (ofNat w p) e nrwords m)
      (fun e => modNpowUl arith build (ofNat w p) e m) := by
    intro p hp
    have hbase : ofNat w p = 2#w ∨ ofNat w p = 3#w ∨ ofNat w p = 5#w ∨
        ofNat w p = 7#w := by
      rcases hp with rfl | rfl | rfl | rfl <;> simp
    have hbound : 2 ^ 3 ≤ 2 ^ w := Nat.pow_le_pow_right (by decide) hw
    have htoNat : (ofNat w p).toNat = p := toNat_const (by omega)
    have hcast : ∀ {k : ℕ} {r : TwoWord w}, IsResidueOf m ((ofNat w p).toNat ^ k) r →
        MontgomeryResidue m.m.value ((p : ZMod m.m.value) ^ k) r := by
      intro k r hr
      rwa [htoNat, isResidueOf_iff, Nat.cast_pow] at hr
    refine .of_returns hops ?_ fun e => ?_
    · obtain ⟨r, hr, hres⟩ := modNpowMp_spec build hw heven hm hbase e nrwords
      exact ⟨r, hr, hcast (hexp ▸ hres)⟩
    · obtain ⟨r, hr, hres⟩ := modNpowUl_spec build hw heven hm hbase e
      exact ⟨r, hr, hcast hres⟩
  refine ⟨.of_returns hops (fun x b hb => ?_) (fun x b hb => ?_) (fun x b e hb => ?_)
    (fun x b e hb => modVUl_spec build hops hb e), hsmall, hsmall 2 (.inl rfl)⟩
  · rw [← hexp]
    exact modulPowMp_spec build hops hb e nrwords
  · rw [← hexp]
    exact modVMp_spec build hops hb e nrwords
  · rw [modPowUl_eq]
    exact modulPowUl_spec build (by omega) hops hb e

/-- For every modulus that a header accepts and every array of words without a zero on top, the
functions return the powers and the terms, in place or not, and agree with the functions for one
word.  The exponent of `mod_2pow_mp` of `mod_ul_common.c` must not be zero. -/
theorem modMp_correct (build : UlarithBuild) (hw : w = 32 ∨ w = 64)
    (htop : nrwords = 0 ∨ e (nrwords - 1) ≠ 0#w) :
    (∀ m : BitVec w, 0 < m.toNat →
      MpCorrect (PlainResidue m.toNat) w (wordsValue e nrwords)
        (fun b => modulPowMp build (modulOps build m) b e nrwords)
        (fun b => modVMp build (modulOps build m) b e nrwords)
        (modulPowUl build (modulOps build m)) (modVUl build (modulOps build m)) ∧
      (0 < wordsValue e nrwords →
        SmallBaseCorrect (PlainResidue m.toNat) w 2
          (wordsValue e nrwords) (modul2powMp build (modulOps build m) e nrwords)
          (modul2powUl build (modulOps build m)))) ∧
    (∀ s : BitVec w, s.toNat % 2 = 1 → ∃ m, modredculInitmodUl s = pure m ∧
      MpCorrect (MontgomeryResidueUl s.toNat) w
        (wordsValue e nrwords) (fun b => modulPowMp build (modredculOps build m) b e nrwords)
        (fun b => modVMp build (modredculOps build m) b e nrwords)
        (modulPowUl build (modredculOps build m)) (modVUl build (modredculOps build m)) ∧
      (0 < wordsValue e nrwords → SmallBaseCorrect
        (MontgomeryResidueUl s.toNat) w 2
        (wordsValue e nrwords) (modul2powMp build (modredculOps build m) e nrwords)
        (modul2powUl build (modredculOps build m)))) ∧
    ∀ (arith : RedcArith) (s : TwoWord w), s.value % 2 = 1 → 2 ^ w ≤ s.value →
      s.value < 2 ^ arith.bits w → ∃ m, modInitmodUls arith build s = pure m ∧
        MpCorrect (MontgomeryResidue s.value)
          w (wordsValue e nrwords) (fun b => modPowMp arith build b e nrwords m)
          (fun b => modVMp build (modredcOps arith build m) b e nrwords)
          (fun b e => modPowUl arith build b e m) (modVUl build (modredcOps arith build m)) ∧
        (∀ p, p = 2 ∨ p = 3 ∨ p = 5 ∨ p = 7 → SmallBaseCorrect
          (MontgomeryResidue s.value)
          w p (wordsValue e nrwords) (modNpowMp arith build (ofNat w p) e nrwords m)
          (fun e => modNpowUl arith build (ofNat w p) e m)) ∧
        SmallBaseCorrect
          (MontgomeryResidue s.value)
          w 2 (wordsValue e nrwords) (mod2powMp arith build e nrwords m)
          (fun e => mod2powUl arith build e m) := by
  have hpos : 0 < w := by omega
  have heven : w % 2 = 0 := by omega
  refine ⟨fun m hm => ?_, fun s hodd => ?_, fun arith s hodd hlow hhigh => ?_⟩
  · exact modulMp_correct build hpos (modulOps_models build hpos heven hm) htop
  · obtain ⟨m, hinit, rfl, hm⟩ := modredculInitmodUl_spec hw hodd
    exact ⟨m, hinit, modulMp_correct build hpos (modredculOps_models build hpos heven hm) htop⟩
  · obtain ⟨m, hinit, rfl, hm⟩ := modInitmodUls_spec build hw hodd hlow hhigh
    exact ⟨m, hinit, modredcMp_correct build (by omega) heven hm htop⟩

/-- The words of `2 ^ 32 + 5`. -/
def twoWordExponent (i : ℕ) : BitVec 32 :=
  if i = 0 then 5#32 else 1#32

theorem modMp_correct_word32 : wordsValue twoWordExponent 2 = 4294967301 ∧
    ∃ r, modul2powMp .x86 (modulOps .x86 15#32) twoWordExponent 2 = pure r ∧
      PlainResidue 15 (((2 : ℕ) : ZMod 15) ^ wordsValue twoWordExponent 2) r :=
  ⟨by decide, (((modMp_correct .x86 (.inl rfl) (.inr (by decide))).1 15#32 (by decide)).2
    (by decide)).pow⟩

/-- Without a word the assertion of `mod_2pow_mp` fails. -/
theorem not_modul2powMp_empty :
    ¬∃ r, modul2powMp .x86 (modulOps .x86 15#32) (fun _ => 0#32) 0 = pure r := by
  rintro ⟨r, hr⟩
  exact absurd hr nofun

end Headers

end CadoNfs
