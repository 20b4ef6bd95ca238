import CadoNfs.Ecm.CommonZ
import CadoNfs.Ecm.EllmPoint

/-!
# Stage 2 of ECM

`ecm_stage2` computes the multiples of a point by the indices of `S1` and by the
multiples of `d`, gives them a common denominator, and multiplies the differences of their
first coordinates as the codes of a plan say.

Main results:

- Theorem `ecmPjLoop_spec`: the two arithmetic progressions meet every index of `S1`,
  and stop at a place that `d` determines.
- Theorems `ecmPjTable_spec`, `ecmPid_spec`: the two tables.
- Theorem `ecmStage2Loop_spec`: the product up to the first block that makes it zero.
- Theorem `ecmStage2_iff`: all of it, unless the only row is the point at infinity.
-/

namespace CadoNfs

open WordArith MontgomeryCurve
open List (getD_eq_getElem getElem?_map length_cons range replicate)
open Outcome (assert assert_of exists_of_bind_eq_pure)
open EllMPoint (OnCurve Stands)

variable {ρ : Type}

/-! ## Tables of points -/

section Points

variable {α : Type} (ell : EllM α) (plan : Stage2Plan)

/-- Two neighbouring points of either arithmetic progression, `2P` and `6P`, and the
indices of the later points. -/
structure EcmProgressions (α : Type) where
  ap1_0 : α
  ap1_1 : α
  ap5_0 : α
  ap5_1 : α
  P2 : α
  P6 : α
  i1 : ℕ
  i5 : ℕ

/-- "Init ap1_0 = 1P, ap1_1 = 7P, ap5_0 = 5P, ap5_1 = 11P and P6 = 6P". -/
def ecmProgressions (P : α) : Outcome (EcmProgressions α) := do
  let P2 ← ofOption (ell.double P)
  let P6 ← ofOption (ell.add P2 P P)
  let ap5_0 ← ofOption (ell.add P6 P2 P)
  let P6 ← ofOption (ell.double P6)
  let ap1_1 ← ofOption (ell.add P6 P ap5_0)
  let ap5_1 ← ofOption (ell.add P6 ap5_0 P)
  pure ⟨P, ap1_1, ap5_0, ap5_1, P2, P6, 7, 11⟩

/-- The first progression advances; the indices are of type `int`, and an overflow is taken
for a failed assertion. -/
def ecmAdvance1 (p : EcmProgressions α) : Outcome (EcmProgressions α) := do
  let Pt ← ofOption (ell.add p.ap1_1 p.P6 p.ap1_0)
  assert (p.i1 + 6 < 2 ^ 31)
  pure { p with ap1_0 := p.ap1_1, ap1_1 := Pt, i1 := p.i1 + 6 }

/-- The second progression advances. -/
def ecmAdvance5 (p : EcmProgressions α) : Outcome (EcmProgressions α) := do
  let Pt ← ofOption (ell.add p.ap5_1 p.P6 p.ap5_0)
  assert (p.i5 + 6 < 2 ^ 31)
  pure { p with ap5_0 := p.ap5_1, ap5_1 := Pt, i5 := p.i5 + 6 }

/-- "We treat the first two manually": the point of index `j`, if that is the next entry. -/
def ecmPjManual (j : ℕ) (point : α) (Pj : List α) (k : ℕ) : Outcome (List α × ℕ) :=
  if k < plan.s1 then do
    let i ← readAt plan.S1 k
    if i = j then do
      let Pj ← writeAt Pj k point
      pure (Pj, k + 1)
    else pure (Pj, k)
  else pure (Pj, k)

/-- The loop that fills the table, of which `k` entries are set. -/
def ecmPjLoop : ℕ → EcmProgressions α → List α → ℕ → Outcome (EcmProgressions α × List α)
  | 0, _, _, _ => .abort
  | fuel + 1, p, Pj, k =>
    if k < plan.s1 then do
      let j ← readAt plan.S1 k
      if j = p.i1 then do
        let Pj ← writeAt Pj k p.ap1_1
        ecmPjLoop fuel p Pj (k + 1)
      else if j = p.i5 then do
        let Pj ← writeAt Pj k p.ap5_1
        ecmPjLoop fuel p Pj (k + 1)
      else do
        let p ← ecmAdvance1 ell p
        let p ← ecmAdvance5 ell p
        ecmPjLoop fuel p Pj k
    else pure (p, Pj)

/-- The progressions are brought to a place where their indices sum to `d`. -/
def ecmMeet (p : EcmProgressions α) : Outcome (EcmProgressions α) := do
  assert (p.i1 + p.i5 < 2 ^ 31)
  if p.i1 + p.i5 < plan.d then
    if p.i1 < p.i5 then ecmAdvance1 ell p else ecmAdvance5 ell p
  else pure p

/-- The point `Pd`, with `ASSERT ((unsigned) (i1 + i5) == plan->d)`. -/
def ecmPd (p : EcmProgressions α) : Outcome α := do
  assert (p.i1 + p.i5 < 2 ^ 31)
  assert (p.i1 + p.i5 = plan.d)
  if p.i1 + 4 = p.i5 then do
    let P4 ← ofOption (ell.double p.P2)
    ofOption (ell.add p.ap1_1 p.ap5_1 P4)
  else if p.i5 + 2 = p.i1 then ofOption (ell.add p.ap1_1 p.ap5_1 p.P2)
  else .abort

/-- The table `Pj`, of entries `garbage`, and `Pd`. -/
def ecmPjTable (garbage P : α) : Outcome (List α × α) := do
  assert (plan.d % 6 = 0)
  let p ← ecmProgressions ell P
  let (Pj, k) ← ecmPjManual plan 1 p.ap1_0 (replicate plan.s1 garbage) 0
  let (Pj, k) ← ecmPjManual plan 5 p.ap5_0 Pj k
  let (p, Pj) ← ecmPjLoop ell plan (plan.s1 + plan.d + 1) p Pj k
  let p ← ecmMeet ell plan p
  let Pd ← ecmPd ell plan p
  pure (Pj, Pd)

/-- The loop over the later rows. -/
def ecmPidLoop (Pd : α) : ℕ → α → α → List α → ℕ → ℕ → Outcome (List α)
  | 0, _, _, _, _, _ => .abort
  | fuel + 1, Pid, Pid1, table, k, i =>
    if i < plan.i1 then do
      let Pt ← ofOption (ell.add Pid1 Pd Pid)
      let table ← writeAt table k Pt
      ecmPidLoop Pd fuel Pid1 Pt table (k + 1) (i + 1)
    else pure table

/-- The rows from `i` on, for the entries from `k` on: the first one is written without
a test. -/
def ecmPidFrom (infinity Pd : α) (table : List α) (k i : ℕ) : Outcome (List α) := do
  let Pid ← ellMMulUl ell infinity Pd i
  let table ← writeAt table k Pid
  if i + 1 < plan.i1 then do
    let Pid1 ← ellMMulUl ell infinity Pd (i + 1)
    let table ← writeAt table (k + 1) Pid1
    ecmPidLoop ell plan Pd (plan.i1 + 1) Pid Pid1 table (k + 2) (i + 2)
  else pure table

/-- The table `Pid`; "If i0 == 0, we simply leave the first point at (0::0) which is the point
at infinity". -/
def ecmPid (infinity garbage Pd : α) : Outcome (List α) := do
  let table := replicate (plan.i1 - plan.i0) garbage
  if plan.i0 = 0 then do
    let table ← writeAt table 0 infinity
    ecmPidFrom ell plan infinity Pd table 1 1
  else ecmPidFrom ell plan infinity Pd table 0 plan.i0

/-- Both tables of `ecm_stage2`. -/
def ecmStage2Tables (infinity garbage P : α) : Outcome (List α × List α) := do
  assert (plan.i0 < plan.i1)
  let (Pj, Pd) ← ecmPjTable ell plan garbage P
  let Pid ← ecmPid ell plan infinity garbage Pd
  pure (Pj, Pid)

end Points

/-! ## Stage 2 -/

section Stage2

variable (ops : RingOps ρ) (is0 : ρ → Bool) (plan : Stage2Plan)

/-- `skip`. -/
def Stage2Plan.skip (plan : Stage2Plan) : ℕ :=
  if plan.i0 = 0 then 1 else 0

/-- The call of `common_z`: what becomes of `Pj_x` and `Pid_x`. -/
def ecmStage2CommonZ (zero : ρ) (Pj Pid : List (EllMPoint ρ)) : Outcome (List ρ × List ρ) := do
  let Pid_x := Pid.map EllMPoint.x
  let (xj, xid) ← commonZ ops zero plan.s1 (Pj.map EllMPoint.x) (Pj.map EllMPoint.z)
    (plan.i1 - plan.i0 - plan.skip) (Pid_x.drop plan.skip)
    ((Pid.map EllMPoint.z).drop plan.skip)
  pure (xj, Pid_x.take plan.skip ++ xid)

/-- The variables of the loop over the codes. -/
structure EcmStage2State (ρ : Type) where
  i : ℕ
  a : ρ
  a_bk : ρ
  l : ℕ

/-- One turn of the loop over the codes, which goes on with a state or ends with a result. -/
def ecmStage2Step (xj xid : List ρ) (st : EcmStage2State ρ) :
    Outcome (EcmStage2State ρ ⊕ ρ) := do
  let c ← readAt plan.pairs st.l
  if c = nextPass then pure (.inr st.a)
  else do
    let row ← readAt xid st.i
    let (l, a) ← pp1Block ops plan xj row (plan.pairs.length + 1) st.l st.a
    if is0 a then pure (.inr st.a_bk)
    else do
      let c ← readAt plan.pairs l
      if c = nextD then do
        assert (st.i + 1 < plan.i1 - plan.i0)
        pure (.inl ⟨st.i + 1, a, a, nextIndex l⟩)
      else pure (.inl ⟨st.i, a, a, l⟩)

/-- The loop over the codes. -/
def ecmStage2Loop (xj xid : List ρ) : ℕ → EcmStage2State ρ → Outcome ρ
  | 0, _ => .abort
  | fuel + 1, st => do
    let next ← ecmStage2Step ops is0 plan xj xid st
    match next with
    | .inl st => ecmStage2Loop xj xid fuel st
    | .inr r => pure r

/-- `ecm_stage2`; the entries of the tables are `garbage` before they are set. -/
def ecmStage2 (zero : ρ) (garbage : EllMPoint ρ) (b : ρ) (P : EllMPoint ρ) : Outcome ρ := do
  let (Pj, Pid) ← ecmStage2Tables (ellMCoords ops zero b) plan ⟨zero, zero⟩ garbage P
  let (xj, xid) ← ecmStage2CommonZ ops plan zero Pj Pid
  let a ← readAt xj 0
  ecmStage2Loop ops is0 plan xj xid (plan.pairs.length + 1) ⟨0, a, a, 0⟩

end Stage2

/-! ## The indices of the first table -/

section Indices

variable {plan : Stage2Plan}

theorem Stage2Plan.ListsS1.readAt (hplan : plan.ListsS1) {k : ℕ} (hk : k < plan.s1) :
    readAt plan.S1 k = pure (plan.S1.getD k 0) := by
  have hlt : k < plan.S1.length := hplan.s1_eq ▸ hk
  rw [CadoNfs.readAt, List.getElem?_eq_getElem hlt, getD_eq_getElem _ _ hlt]

section

variable (hplan : plan.ListsS1)
include hplan

theorem Stage2Plan.ListsS1.getD_lt {i k : ℕ} (hik : i < k)
    (hk : k < plan.s1) : plan.S1.getD i 0 < plan.S1.getD k 0 := by
  have hlt : k < plan.S1.length := hplan.s1_eq ▸ hk
  rw [getD_eq_getElem _ _ hlt, getD_eq_getElem _ _ (hik.trans hlt)]
  exact List.pairwise_iff_getElem.mp hplan.sorted i k (hik.trans hlt) hlt hik

theorem Stage2Plan.ListsS1.getD_mod {k : ℕ} (hk : k < plan.s1) :
    2 * plan.S1.getD k 0 < plan.d ∧ (plan.S1.getD k 0 % 6 = 1 ∨ plan.S1.getD k 0 % 6 = 5) := by
  have hlt : k < plan.S1.length := hplan.s1_eq ▸ hk
  rw [getD_eq_getElem _ _ hlt]
  exact hplan.mod_six (List.getElem_mem hlt)

theorem Stage2Plan.ListsS1.exists_getD {j : ℕ} (hj : j < plan.d / 2)
    (hcoprime : j.Coprime plan.d) : ∃ k < plan.s1, plan.S1.getD k 0 = j := by
  obtain ⟨k, hk, hkj⟩ := List.getElem_of_mem ((hplan.mem_iff j).mpr ⟨hj, hcoprime⟩)
  exact ⟨k, hplan.s1_eq ▸ hk, by rw [getD_eq_getElem _ _ hk, hkj]⟩

theorem Stage2Plan.ListsS1.exists_last (hd : 18 ≤ plan.d) :
    ∃ k < plan.s1, plan.d ≤ 2 * plan.S1.getD k 0 + 4 := by
  have hmod := hplan.d_mod
  have hsplit : ∃ j, j % 2 = 1 ∧ j < plan.d / 2 ∧ (plan.d = j * 2 + 2 ∨ plan.d = j * 2 + 4) := by
    by_cases heven : plan.d % 12 = 0
    · exact ⟨plan.d / 2 - 1, by omega, by omega, by omega⟩
    · exact ⟨plan.d / 2 - 2, by omega, by omega, by omega⟩
  obtain ⟨j, hodd, hlt, hj⟩ := hsplit
  have htwo : j.Coprime 2 := Nat.coprime_two_right.mpr (Nat.odd_iff.mpr hodd)
  have hcoprime : j.Coprime plan.d := by
    rcases hj with hj | hj
    · rw [hj, Nat.coprime_mul_left_add_right]
      exact htwo
    · rw [hj, Nat.coprime_mul_left_add_right]
      exact Nat.Coprime.mul_right htwo htwo
  obtain ⟨k, hk, hkj⟩ := hplan.exists_getD hlt hcoprime
  exact ⟨k, hk, by omega⟩

theorem Stage2Plan.ListsS1.two_le (hd : 18 ≤ plan.d) : 2 ≤ plan.s1 := by
  obtain ⟨k, hk, hlast⟩ := hplan.exists_last hd
  obtain ⟨i, hi, hone⟩ := hplan.exists_getD (by omega : 1 < plan.d / 2) (Nat.coprime_one_left _)
  have hne : i ≠ k := by
    rintro rfl
    omega
  omega

end

end Indices

/-! ## The first table -/

section FirstTable

variable {α : Type} {ell : EllM α} {plan : Stage2Plan} {rep : ℤ → α → Prop}

/-- The progressions are at the indices `6 * c1 + 1` and `6 * c5 + 5`. -/
structure EcmProgressions.Holds (rep : ℤ → α → Prop) (c1 c5 : ℕ) (p : EcmProgressions α) :
    Prop where
  ap1_0 : rep (6 * c1 + 1) p.ap1_0
  ap1_1 : rep (6 * c1 + 7) p.ap1_1
  ap5_0 : rep (6 * c5 + 5) p.ap5_0
  ap5_1 : rep (6 * c5 + 11) p.ap5_1
  P2 : rep 2 p.P2
  P6 : rep 6 p.P6
  i1 : p.i1 = 6 * c1 + 7
  i5 : p.i5 = 6 * c5 + 11

theorem ecmProgressions_spec (hell : ell.Represents rep) {P : α} (hP : rep 1 P) :
    ∃ p, ecmProgressions ell P = pure p ∧ p.Holds rep 0 0 := by
  obtain ⟨P2, h2, hP2⟩ := hell.double hP
  obtain ⟨P3, h3, hP3⟩ := hell.sum hP2 hP hP (by omega)
  obtain ⟨P5, h5, hP5⟩ := hell.sum hP3 hP2 hP (by omega)
  obtain ⟨P6, h6, hP6⟩ := hell.double hP3
  obtain ⟨P7, h7, hP7⟩ := hell.sum hP6 hP hP5 (by omega)
  obtain ⟨P11, h11, hP11⟩ := hell.sum hP6 hP5 hP (by omega)
  refine ⟨⟨P, P7, P5, P11, P2, P6, 7, 11⟩, ?_, hP, hP7, hP5, hP11, hP2, hP6, rfl, rfl⟩
  simp [ecmProgressions, h2, h3, h5, h6, h7, h11]

variable {p : EcmProgressions α} {c1 c5 : ℕ}

section

variable (hell : ell.Represents rep) (hp : p.Holds rep c1 c5)
include hell hp

theorem ecmAdvance1_spec (hfit : 6 * c1 + 13 < 2 ^ 31) :
    ∃ p', ecmAdvance1 ell p = pure p' ∧ p'.Holds rep (c1 + 1) c5 := by
  obtain ⟨Pt, ht, hPt⟩ := hell.sum hp.ap1_1 hp.P6 hp.ap1_0 (by omega)
  have hi1 := hp.i1
  refine ⟨{ p with ap1_0 := p.ap1_1, ap1_1 := Pt, i1 := p.i1 + 6 }, ?_, ?_, ?_, hp.ap5_0, hp.ap5_1,
    hp.P2, hp.P6, ?_, hp.i5⟩
  · simp only [ecmAdvance1, ht, ofOption_some, pure_bind, assert_of (by omega : p.i1 + 6 < 2 ^ 31)]
  · convert hp.ap1_1 using 1
    push_cast
    ring
  · convert hPt using 1
    push_cast
    ring
  · change p.i1 + 6 = _
    omega

theorem ecmAdvance5_spec (hfit : 6 * c5 + 17 < 2 ^ 31) :
    ∃ p', ecmAdvance5 ell p = pure p' ∧ p'.Holds rep c1 (c5 + 1) := by
  obtain ⟨Pt, ht, hPt⟩ := hell.sum hp.ap5_1 hp.P6 hp.ap5_0 (by omega)
  have hi5 := hp.i5
  refine ⟨{ p with ap5_0 := p.ap5_1, ap5_1 := Pt, i5 := p.i5 + 6 }, ?_, hp.ap1_0, hp.ap1_1, ?_, ?_,
    hp.P2, hp.P6, hp.i1, ?_⟩
  · simp only [ecmAdvance5, ht, ofOption_some, pure_bind, assert_of (by omega : p.i5 + 6 < 2 ^ 31)]
  · convert hp.ap5_1 using 1
    push_cast
    ring
  · convert hPt using 1
    push_cast
    ring
  · change p.i5 + 6 = _
    omega

theorem ecmAdvance1_abort (hbig : 2 ^ 31 ≤ 6 * c1 + 13) : ecmAdvance1 ell p = .abort := by
  obtain ⟨Pt, ht, -⟩ := hell.sum hp.ap1_1 hp.P6 hp.ap1_0 (by omega)
  have hi1 := hp.i1
  rw [ecmAdvance1, ht, ofOption_some, pure_bind, assert, if_neg (by omega)]
  rfl

theorem ecmAdvance5_abort (hbig : 2 ^ 31 ≤ 6 * c5 + 17) : ecmAdvance5 ell p = .abort := by
  obtain ⟨Pt, ht, -⟩ := hell.sum hp.ap5_1 hp.P6 hp.ap5_0 (by omega)
  have hi5 := hp.i5
  rw [ecmAdvance5, ht, ofOption_some, pure_bind, assert, if_neg (by omega)]
  rfl

end

/-- The entries that are set stand for the multiples by the indices of `S1`. -/
def HoldsS1 (rep : ℤ → α → Prop) (plan : Stage2Plan) (k : ℕ) (Pj : List α) : Prop :=
  Pj.length = plan.s1 ∧ StandsFor rep (fun i => (plan.S1.getD i 0 : ℤ)) k Pj

theorem HoldsS1.writeAt {k : ℕ} {Pj : List α} (hPj : HoldsS1 rep plan k Pj) (hk : k < plan.s1)
    {j : ℕ} (hj : plan.S1.getD k 0 = j) {a : α} (ha : rep j a) :
    ∃ Pj', writeAt Pj k a = pure Pj' ∧ HoldsS1 rep plan (k + 1) Pj' := by
  obtain ⟨Pj', hwrite, hlen, hstands⟩ := hPj.2.extend (hPj.1 ▸ hk) (by rwa [hj])
  exact ⟨Pj', hwrite, hlen.trans hPj.1, hstands⟩

/-- The first `k` indices are met when the progressions are at the place `c`, and the
others are not beyond its later terms. -/
structure S1Met (plan : Stage2Plan) (k c : ℕ) : Prop where
  le : k ≤ plan.s1
  before : ∀ i < k, plan.S1.getD i 0 ≤ 6 * c + 11
  after : ∀ i, k ≤ i → i < plan.s1 → 6 * c + 7 ≤ plan.S1.getD i 0

theorem ecmPjManual_spec (hplan : plan.ListsS1) {j k : ℕ} {a : α} {Pj : List α} (ha : rep j a)
    (hPj : HoldsS1 rep plan k Pj) (hk : k ≤ plan.s1)
    (hlow : ∀ i, k ≤ i → i < plan.s1 → j ≤ plan.S1.getD i 0) :
    ∃ Pj' k', ecmPjManual plan j a Pj k = pure (Pj', k') ∧ HoldsS1 rep plan k' Pj' ∧
      k' ≤ plan.s1 ∧ (∀ i, k' ≤ i → i < plan.s1 → j < plan.S1.getD i 0) ∧
      ∀ i, k ≤ i → i < k' → plan.S1.getD i 0 = j := by
  rw [ecmPjManual]
  by_cases hlt : k < plan.s1
  · rw [if_pos hlt, hplan.readAt hlt, pure_bind]
    have hfirst := hlow k le_rfl hlt
    by_cases hj : plan.S1.getD k 0 = j
    · obtain ⟨Pj', hwrite, hPj'⟩ := hPj.writeAt hlt hj ha
      refine ⟨Pj', k + 1, by rw [if_pos hj, hwrite, pure_bind], hPj', hlt,
        fun i hi his => hj ▸ hplan.getD_lt hi his, fun i hi hik => ?_⟩
      obtain rfl : i = k := by omega
      exact hj
    · refine ⟨Pj, k, by rw [if_neg hj], hPj, hk, fun i hi his => ?_, fun i hi hik => by omega⟩
      rcases hi.eq_or_lt with rfl | hki
      · omega
      · have := hplan.getD_lt hki his
        omega
  · exact ⟨Pj, k, if_neg hlt, hPj, hk, fun i hi his => by omega, fun i hi hik => by omega⟩

theorem ecmPjStart_spec (hplan : plan.ListsS1) {p : EcmProgressions α} (hp : p.Holds rep 0 0)
    (garbage : α) :
    ∃ Pj₁ k₁ Pj k, ecmPjManual plan 1 p.ap1_0 (replicate plan.s1 garbage) 0 = pure (Pj₁, k₁) ∧
      ecmPjManual plan 5 p.ap5_0 Pj₁ k₁ = pure (Pj, k) ∧ HoldsS1 rep plan k Pj ∧
      S1Met plan k 0 := by
  have hempty : HoldsS1 rep plan 0 (replicate plan.s1 garbage) :=
    ⟨List.length_replicate, nofun⟩
  obtain ⟨Pj₁, k₁, hrun₁, hPj₁, hk₁, hafter₁, hbefore₁⟩ := ecmPjManual_spec hplan (j := 1)
    (a := p.ap1_0) (by simpa using hp.ap1_0) hempty (Nat.zero_le _) fun i _ hi => by
      have := (hplan.getD_mod hi).2
      omega
  obtain ⟨Pj, k, hrun, hPj, hk, hafter, hbefore⟩ := ecmPjManual_spec hplan (j := 5)
    (a := p.ap5_0) (by simpa using hp.ap5_0) hPj₁ hk₁ fun i hki hi => by
      have := (hplan.getD_mod hi).2
      have := hafter₁ i hki hi
      omega
  refine ⟨Pj₁, k₁, Pj, k, hrun₁, hrun, hPj, hk, fun i hi => ?_, fun i hki hi => ?_⟩
  · by_cases hik : i < k₁
    · have := hbefore₁ i (Nat.zero_le i) hik
      omega
    · have := hbefore i (by omega) hi
      omega
  · have := (hplan.getD_mod hi).2
    have := hafter i hki hi
    omega

/-- The place where the progressions stop. -/
def Stage2Plan.lastPlace (plan : Stage2Plan) : ℕ :=
  (plan.d - 18) / 12

theorem S1Met.lastPlace_le (hplan : plan.ListsS1) (hd : 18 ≤ plan.d) {c : ℕ}
    (h : S1Met plan plan.s1 c) : plan.lastPlace ≤ c := by
  obtain ⟨k, hk, hlast⟩ := hplan.exists_last hd
  have hle := h.before k hk
  rw [Stage2Plan.lastPlace]
  omega

section

variable (hell : ell.Represents rep)
include hell

/-- The loop meets every index that is left and stops at the last place, unless an index overflows
on the way. -/
theorem ecmPjLoop_spec (hplan : plan.ListsS1) (hd : 18 ≤ plan.d)
    {fuel c k : ℕ} {p : EcmProgressions α} {Pj : List α} (hp : p.Holds rep c c)
    (hPj : HoldsS1 rep plan k Pj) (hmet : S1Met plan k c) (hc : c ≤ plan.lastPlace)
    (hfuel : plan.s1 - k + (plan.d - c) < fuel) :
    (∃ p' Pj', ecmPjLoop ell plan fuel p Pj k = pure (p', Pj') ∧
      p'.Holds rep plan.lastPlace plan.lastPlace ∧ HoldsS1 rep plan plan.s1 Pj') ∨
    2 ^ 31 ≤ plan.d ∧ ecmPjLoop ell plan fuel p Pj k = .abort := by
  induction fuel generalizing c k p Pj with
  | zero => omega
  | succ fuel ih =>
    rw [ecmPjLoop]
    by_cases hlt : k < plan.s1
    · rw [if_pos hlt, hplan.readAt hlt, pure_bind]
      obtain ⟨hhigh, hmod⟩ := hplan.getD_mod hlt
      have hfirst := hmet.after k le_rfl hlt
      -- the next index is a term of a progression
      have hnext : ∀ {a : α}, plan.S1.getD k 0 ≤ 6 * c + 11 → rep (plan.S1.getD k 0 : ℕ) a →
          ∃ Pj', writeAt Pj k a = pure Pj' ∧ HoldsS1 rep plan (k + 1) Pj' ∧
            S1Met plan (k + 1) c := by
        intro a hle ha
        obtain ⟨Pj', hwrite, hPj'⟩ := hPj.writeAt hlt rfl ha
        refine ⟨Pj', hwrite, hPj', hlt, fun i hi => ?_, fun i hi his => hmet.after i (by omega) his⟩
        rcases Nat.lt_succ_iff_lt_or_eq.mp hi with hi | rfl
        · exact hmet.before i hi
        · exact hle
      by_cases hi1 : plan.S1.getD k 0 = p.i1
      · obtain ⟨Pj', hwrite, hPj', hmet'⟩ := hnext (a := p.ap1_1) (by rw [hi1, hp.i1]; omega)
          (by rw [hi1, hp.i1]; exact_mod_cast hp.ap1_1)
        rw [if_pos hi1, hwrite, pure_bind]
        exact ih hp hPj' hmet' hc (by omega)
      rw [if_neg hi1]
      by_cases hi5 : plan.S1.getD k 0 = p.i5
      · obtain ⟨Pj', hwrite, hPj', hmet'⟩ := hnext (a := p.ap5_1) (by rw [hi5, hp.i5])
          (by rw [hi5, hp.i5]; exact_mod_cast hp.ap5_1)
        rw [if_pos hi5, hwrite, pure_bind]
        exact ih hp hPj' hmet' hc (by omega)
      rw [if_neg hi5]
      -- it is neither, so it is beyond both
      have hd6 := hplan.d_mod
      rw [hp.i1] at hi1
      rw [hp.i5] at hi5
      have hc' : c + 1 ≤ plan.lastPlace := by
        rw [Stage2Plan.lastPlace]
        omega
      have hmet' : S1Met plan k (c + 1) := by
        refine ⟨hmet.le, fun i hi => (hmet.before i hi).trans (by omega), fun i hi his => ?_⟩
        rcases hi.eq_or_lt with rfl | hki
        · omega
        · have := hplan.getD_lt hki his
          omega
      by_cases hfit : 6 * c + 17 < 2 ^ 31
      · obtain ⟨p₁, hp₁, hholds₁⟩ := ecmAdvance1_spec hell hp (by omega)
        obtain ⟨p₂, hp₂, hholds₂⟩ := ecmAdvance5_spec hell hholds₁ hfit
        rw [hp₁, pure_bind, hp₂, pure_bind]
        exact ih hholds₂ hPj hmet' hc' (by omega)
      · refine .inr ⟨?_, ?_⟩
        · rw [Stage2Plan.lastPlace] at hc'
          omega
        · by_cases hfit1 : 6 * c + 13 < 2 ^ 31
          · obtain ⟨p₁, hp₁, hholds₁⟩ := ecmAdvance1_spec hell hp hfit1
            rw [hp₁, pure_bind, ecmAdvance5_abort hell hholds₁ (by omega)]
            rfl
          · rw [ecmAdvance1_abort hell hp (by omega)]
            rfl
    · obtain rfl : k = plan.s1 := by
        have := hmet.le
        omega
      obtain rfl : c = plan.lastPlace := hc.antisymm (hmet.lastPlace_le hplan hd)
      exact .inl ⟨p, Pj, if_neg hlt, hp, hPj⟩

theorem ecmMeet_spec (hplan : plan.ListsS1) (hd : 18 ≤ plan.d)
    (hfit : plan.d < 2 ^ 31) {p : EcmProgressions α}
    (hp : p.Holds rep plan.lastPlace plan.lastPlace) :
    ∃ p' c1, ecmMeet ell plan p = pure p' ∧ p'.Holds rep c1 plan.lastPlace ∧
      6 * c1 + 7 + (6 * plan.lastPlace + 11) = plan.d ∧
      (c1 = plan.lastPlace ∨ c1 = plan.lastPlace + 1) := by
  have hi1 := hp.i1
  have hi5 := hp.i5
  have hd6 := hplan.d_mod
  have hlast : plan.lastPlace = (plan.d - 18) / 12 := rfl
  rw [ecmMeet, assert_of (by omega), pure_bind]
  by_cases hlt : p.i1 + p.i5 < plan.d
  · obtain ⟨p', hp', hholds⟩ := ecmAdvance1_spec hell hp (by omega)
    exact ⟨p', _, by rw [if_pos hlt, if_pos (by omega), hp'], hholds, by omega, .inr rfl⟩
  · exact ⟨p, _, if_neg hlt, hp, by omega, .inl rfl⟩

theorem ecmPd_spec (hfit : plan.d < 2 ^ 31) {p : EcmProgressions α}
    {c1 c5 : ℕ} (hp : p.Holds rep c1 c5) (hsum : 6 * c1 + 7 + (6 * c5 + 11) = plan.d)
    (hc : c1 = c5 ∨ c1 = c5 + 1) :
    ∃ Pd, ecmPd ell plan p = pure Pd ∧ rep plan.d Pd := by
  have hi1 := hp.i1
  have hi5 := hp.i5
  have hd : ((6 * c1 + 7 : ℤ)) + (6 * c5 + 11) = plan.d := by exact_mod_cast hsum
  rw [ecmPd, assert_of (by omega), pure_bind, assert_of (by omega), pure_bind]
  rcases hc with rfl | rfl
  · obtain ⟨P4, h4, hP4⟩ := hell.double hp.P2
    obtain ⟨Pd, hPd, hrep⟩ := hell.sum hp.ap1_1 hp.ap5_1 hP4 (by omega)
    rw [hd] at hrep
    refine ⟨Pd, ?_, hrep⟩
    rw [if_pos (by omega), h4, ofOption_some, pure_bind, hPd, ofOption_some]
  · obtain ⟨Pd, hPd, hrep⟩ := hell.sum hp.ap1_1 hp.ap5_1 hp.P2 (by push_cast; omega)
    rw [hd] at hrep
    exact ⟨Pd, by rw [if_neg (by omega), if_pos (by omega), hPd, ofOption_some], hrep⟩

/-- The table stands for the multiples by the indices of `S1`, and `Pd` for that by
`d`. -/
theorem ecmPjTable_spec (hplan : plan.ListsS1) (hd : 18 ≤ plan.d)
    (hfit : plan.d < 2 ^ 31) {P : α} (hP : rep 1 P) (garbage : α) :
    ∃ Pj Pd, ecmPjTable ell plan garbage P = pure (Pj, Pd) ∧ HoldsS1 rep plan plan.s1 Pj ∧
      rep plan.d Pd := by
  obtain ⟨p, hp, hholds⟩ := ecmProgressions_spec hell hP
  obtain ⟨Pj₁, k₁, Pj, k, hrun₁, hrun, hPj, hmet⟩ := ecmPjStart_spec hplan hholds garbage
  obtain ⟨p', Pj', hloop, hholds', hPj'⟩ := (ecmPjLoop_spec hell hplan hd hholds hPj hmet
    (Nat.zero_le _) (by omega : plan.s1 - k + (plan.d - 0) < plan.s1 + plan.d + 1)).resolve_right
      fun h => by omega
  obtain ⟨p'', c1, hmeet, hholds'', hsum, hc⟩ := ecmMeet_spec hell hplan hd hfit hholds'
  obtain ⟨Pd, hPd, hrep⟩ := ecmPd_spec hell hfit hholds'' hsum hc
  refine ⟨Pj', Pd, ?_, hPj', hrep⟩
  simp [ecmPjTable, assert_of hplan.d_mod, hp, hrun₁, hrun, hloop, hmeet, hPd]

/-- From `2 ^ 31` on the table stops with an assertion. -/
theorem ecmPjTable_abort (hplan : plan.ListsS1) (hbig : 2 ^ 31 ≤ plan.d)
    {P : α} (hP : rep 1 P) (garbage : α) : ecmPjTable ell plan garbage P = .abort := by
  obtain ⟨p, hp, hholds⟩ := ecmProgressions_spec hell hP
  obtain ⟨Pj₁, k₁, Pj, k, hrun₁, hrun, hPj, hmet⟩ := ecmPjStart_spec hplan hholds garbage
  simp only [ecmPjTable, assert_of hplan.d_mod, hp, hrun₁, hrun, pure_bind]
  rcases ecmPjLoop_spec hell hplan (by omega) hholds hPj hmet (Nat.zero_le _)
    (by omega : plan.s1 - k + (plan.d - 0) < plan.s1 + plan.d + 1) with
    ⟨p', Pj', hloop, hholds', -⟩ | ⟨-, hloop⟩
  · rw [hloop, pure_bind]
    have hi1 := hholds'.i1
    have hi5 := hholds'.i5
    have hd6 := hplan.d_mod
    have hlast : plan.lastPlace = (plan.d - 18) / 12 := rfl
    by_cases hsum : p'.i1 + p'.i5 < 2 ^ 31
    · obtain ⟨p'', hp'', hholds''⟩ := ecmAdvance1_spec hell hholds' (by omega)
      have hi1' := hholds''.i1
      have hi5' := hholds''.i5
      have hlt : p'.i1 + p'.i5 < plan.d := by omega
      have hlt' : p'.i1 < p'.i5 := by omega
      have hover : ¬p''.i1 + p''.i5 < 2 ^ 31 := by omega
      have hmeet : ecmMeet ell plan p' = pure p'' := by
        rw [ecmMeet, assert_of hsum, pure_bind, if_pos hlt, if_pos hlt', hp'']
      have hPd : ecmPd ell plan p'' = .abort := by
        rw [ecmPd, assert, if_neg hover]
        rfl
      simp only [hmeet, pure_bind, hPd]
      rfl
    · rw [ecmMeet, assert, if_neg hsum]
      rfl
  · rw [hloop]
    rfl

end

end FirstTable

/-! ## The second table -/

section SecondTable

variable {α : Type} {ell : EllM α} {plan : Stage2Plan} {rep : ℤ → α → Prop} {infinity Pd : α}

/-- The entries that are set stand for the multiples by the rows times `d`. -/
def HoldsRows (rep : ℤ → α → Prop) (plan : Stage2Plan) (k : ℕ) (table : List α) : Prop :=
  table.length = plan.i1 - plan.i0 ∧
    StandsFor rep (fun k => ((plan.i0 + k : ℕ) : ℤ) * plan.d) k table

theorem HoldsRows.writeAt {k : ℕ} {table : List α} (htable : HoldsRows rep plan k table)
    (hk : plan.i0 + k < plan.i1) {a : α} (ha : rep ((plan.i0 + k : ℕ) * plan.d) a) :
    ∃ table', writeAt table k a = pure table' ∧ HoldsRows rep plan (k + 1) table' := by
  obtain ⟨table', hwrite, hlen, hstands⟩ := htable.2.extend
    (by rw [htable.1]; omega) ha
  exact ⟨table', hwrite, hlen.trans htable.1, hstands⟩

theorem ecmPidLoop_spec (hell : ell.Represents rep) (hPd : rep plan.d Pd) {fuel k : ℕ}
    {Pid Pid1 : α} {table : List α} (htable : HoldsRows rep plan (k + 2) table)
    (hk : plan.i0 + (k + 2) ≤ plan.i1) (hPid : rep ((plan.i0 + k : ℕ) * plan.d) Pid)
    (hPid1 : rep ((plan.i0 + (k + 1) : ℕ) * plan.d) Pid1)
    (hfuel : plan.i1 - (plan.i0 + (k + 2)) < fuel) :
    ∃ table', ecmPidLoop ell plan Pd fuel Pid Pid1 table (k + 2) (plan.i0 + (k + 2)) = pure table' ∧
      HoldsRows rep plan (plan.i1 - plan.i0) table' := by
  induction fuel generalizing k Pid Pid1 table with
  | zero => omega
  | succ fuel ih =>
    rw [ecmPidLoop]
    by_cases hlt : plan.i0 + (k + 2) < plan.i1
    · obtain ⟨Pt, ht, hPt⟩ := hell.sum hPid1 hPd hPid (Or.inl (by push_cast; ring))
      rw [show ((plan.i0 + (k + 1) : ℕ) : ℤ) * plan.d + plan.d
        = (plan.i0 + (k + 2) : ℕ) * plan.d by push_cast; ring] at hPt
      obtain ⟨table₁, hwrite, htable₁⟩ := htable.writeAt hlt hPt
      obtain ⟨table', hrun, htable'⟩ := ih htable₁ (by omega) hPid1 hPt (by omega)
      refine ⟨table', ?_, htable'⟩
      rw [if_pos hlt, ht, ofOption_some, pure_bind, hwrite, pure_bind]
      exact hrun
    · exact ⟨table, if_neg hlt, by rwa [show plan.i1 - plan.i0 = k + 2 by omega]⟩

section

variable (hell : ell.Represents rep) (hzero : rep 0 infinity) (hPd : rep plan.d Pd)
include hell hzero hPd

theorem ecmPidFrom_spec
    {k : ℕ} {table : List α} (htable : HoldsRows rep plan k table) (hk : plan.i0 + k < plan.i1) :
    ∃ table', ecmPidFrom ell plan infinity Pd table k (plan.i0 + k) = pure table' ∧
      HoldsRows rep plan (plan.i1 - plan.i0) table' := by
  obtain ⟨Pid, hrun, hPid⟩ := ellMMulUl_spec hell hzero hPd (plan.i0 + k)
  obtain ⟨table₁, hwrite, htable₁⟩ := htable.writeAt hk hPid
  rw [ecmPidFrom, hrun, pure_bind, hwrite, pure_bind]
  by_cases hlt : plan.i0 + k + 1 < plan.i1
  · obtain ⟨Pid1, hrun1, hPid1⟩ := ellMMulUl_spec hell hzero hPd (plan.i0 + k + 1)
    obtain ⟨table₂, hwrite₂, htable₂⟩ := htable₁.writeAt hlt hPid1
    obtain ⟨table', hloop, htable'⟩ := ecmPidLoop_spec hell hPd htable₂ hlt hPid hPid1
      (by omega : plan.i1 - (plan.i0 + (k + 2)) < plan.i1 + 1)
    refine ⟨table', ?_, htable'⟩
    rw [if_pos hlt, hrun1, pure_bind, hwrite₂, pure_bind]
    exact hloop
  · exact ⟨table₁, if_neg hlt, by rwa [show plan.i1 - plan.i0 = k + 1 by omega]⟩

/-- The table stands for the multiples of `Pd` by the rows. -/
theorem ecmPid_spec (hi : plan.i0 < plan.i1) (hrow : plan.i0 = 0 → plan.i1 ≠ 1) (garbage : α) :
    ∃ table, ecmPid ell plan infinity garbage Pd = pure table ∧
      HoldsRows rep plan (plan.i1 - plan.i0) table := by
  have hempty : HoldsRows rep plan 0 (replicate (plan.i1 - plan.i0) garbage) :=
    ⟨List.length_replicate, nofun⟩
  rw [ecmPid]
  by_cases h0 : plan.i0 = 0
  · have hne := hrow h0
    obtain ⟨table, hwrite, htable⟩ := hempty.writeAt (by omega) (a := infinity)
      (by simpa [h0] using hzero)
    obtain ⟨table', hrun, htable'⟩ := ecmPidFrom_spec hell hzero hPd htable (by omega)
    rw [show plan.i0 + (0 + 1) = 1 by omega] at hrun
    exact ⟨table', by rw [if_pos h0, hwrite, pure_bind, hrun], htable'⟩
  · obtain ⟨table', hrun, htable'⟩ := ecmPidFrom_spec hell hzero hPd hempty hi
    exact ⟨table', by rw [if_neg h0]; exact hrun, htable'⟩

theorem ecmPid_abort (h0 : plan.i0 = 0) (h1 : plan.i1 = 1) (garbage : α) :
    ecmPid ell plan infinity garbage Pd = .abort := by
  obtain ⟨Pid, hrun, -⟩ := ellMMulUl_spec hell hzero hPd 1
  rw [ecmPid, if_pos h0, h0, h1, writeAt, if_pos (by simp), pure_bind, ecmPidFrom, hrun,
    pure_bind, writeAt, if_neg (by simp)]
  rfl

end

end SecondTable

/-! ## Both tables -/

section Tables

variable {α : Type} {ell : EllM α} {plan : Stage2Plan} {rep : ℤ → α → Prop} {infinity P : α}

section

variable (hell : ell.Represents rep) (hplan : plan.ListsS1) (hd : 18 ≤ plan.d)
include hell hplan hd

theorem ecmStage2Tables_spec
    (hi : plan.i0 < plan.i1) (hrow : plan.i0 = 0 → plan.i1 ≠ 1) (hfit : plan.d < 2 ^ 31)
    (hzero : rep 0 infinity) (hP : rep 1 P) (garbage : α) :
    ∃ Pj Pid, ecmStage2Tables ell plan infinity garbage P = pure (Pj, Pid) ∧
      HoldsS1 rep plan plan.s1 Pj ∧ HoldsRows rep plan (plan.i1 - plan.i0) Pid := by
  obtain ⟨Pj, Pd, htable, hPj, hPd⟩ := ecmPjTable_spec hell hplan hd hfit hP garbage
  obtain ⟨Pid, hrows, hPid⟩ := ecmPid_spec hell hzero hPd hi hrow garbage
  refine ⟨Pj, Pid, ?_, hPj, hPid⟩
  simp [ecmStage2Tables, assert_of hi, htable, hrows]

theorem ecmStage2Tables_abort
    (hfit : plan.d < 2 ^ 31) (hzero : rep 0 infinity) (hP : rep 1 P) (h0 : plan.i0 = 0)
    (h1 : plan.i1 = 1) (garbage : α) : ecmStage2Tables ell plan infinity garbage P = .abort := by
  obtain ⟨Pj, Pd, htable, -, hPd⟩ := ecmPjTable_spec hell hplan hd hfit hP garbage
  simp only [ecmStage2Tables, assert_of (by omega : plan.i0 < plan.i1), htable,
    ecmPid_abort hell hzero hPd h0 h1, pure_bind]
  rfl

theorem ecmStage2Tables_only
    (hzero : rep 0 infinity) (hP : rep 1 P) {garbage : α} {tables : List α × List α}
    (hrun : ecmStage2Tables ell plan infinity garbage P = pure tables) :
    (plan.i0 = 0 → plan.i1 ≠ 1) ∧ plan.d < 2 ^ 31 := by
  have hfit : plan.d < 2 ^ 31 := by
    by_contra hbig
    obtain ⟨_, -, hrest⟩ := exists_of_bind_eq_pure hrun
    obtain ⟨_, htable, -⟩ := exists_of_bind_eq_pure hrest
    rw [ecmPjTable_abort hell hplan (by omega) hP] at htable
    exact absurd htable nofun
  refine ⟨fun h0 h1 => ?_, hfit⟩
  rw [ecmStage2Tables_abort hell hplan hd hfit hzero hP h0 h1] at hrun
  cases hrun

end

end Tables

/-! ## The common denominator -/

section Coordinates

variable {ops : RingOps ρ} {R : Type*} [CommRing R] {Rep : R → ρ → Prop} {plan : Stage2Plan}

/-- The elements that the coordinates of the points of both tables stand for. -/
structure EcmCoordinates (R : Type*) where
  Xj : ℕ → R
  Zj : ℕ → R
  Xid : ℕ → R
  Zid : ℕ → R

namespace EcmCoordinates

variable (v : EcmCoordinates R) (plan : Stage2Plan)

/-- The denominators of the points that `common_z` is called with. -/
def denominator (i : ℕ) : R :=
  if i < plan.s1 then v.Zj i else v.Zid (i - plan.s1 + plan.skip)

/-- The entries of `Pj_x` after `common_z`. -/
def xj (k : ℕ) : R :=
  v.Xj k * othersProduct (v.denominator plan)
    (plan.s1 + (plan.i1 - plan.i0 - plan.skip)) k

/-- The entries of `Pid_x` after `common_z`, which leaves out the point at infinity. -/
def xid (i : ℕ) : R :=
  if i < plan.skip then v.Xid i
  else v.Xid i * othersProduct (v.denominator plan)
    (plan.s1 + (plan.i1 - plan.i0 - plan.skip)) (i - plan.skip + plan.s1)

/-- The tables hold points with these coordinates. -/
structure Of (Rep : R → ρ → Prop) (Pj Pid : List (EllMPoint ρ)) : Prop where
  Xj : StandsFor Rep v.Xj plan.s1 (Pj.map EllMPoint.x)
  Zj : StandsFor Rep v.Zj plan.s1 (Pj.map EllMPoint.z)
  Xid : StandsFor Rep v.Xid (plan.i1 - plan.i0) (Pid.map EllMPoint.x)
  Zid : StandsFor Rep v.Zid (plan.i1 - plan.i0) (Pid.map EllMPoint.z)

end EcmCoordinates

theorem exists_coordinates {f : ℕ → ℤ} {n : ℕ} {Ps : List (EllMPoint ρ)}
    (h : StandsFor (fun _ => Stands Rep fun _ _ => True) f n Ps) :
    ∃ X Z : ℕ → R, StandsFor Rep X n (Ps.map EllMPoint.x) ∧
      StandsFor Rep Z n (Ps.map EllMPoint.z) := by
  have hpoint : ∀ i, ∃ X Z : R, i < n → ∃ p, Ps[i]? = some p ∧ Rep X p.x ∧ Rep Z p.z := by
    intro i
    by_cases hi : i < n
    · obtain ⟨p, hp, X, Z, hX, hZ, -⟩ := h i hi
      exact ⟨X, Z, fun _ => ⟨p, hp, hX, hZ⟩⟩
    · exact ⟨0, 0, fun hlt => absurd hlt hi⟩
  choose X Z hXZ using hpoint
  refine ⟨X, Z, fun i hi => ?_, fun i hi => ?_⟩
  · obtain ⟨p, hp, hX, -⟩ := hXZ i hi
    exact ⟨p.x, by rw [getElem?_map, hp, Option.map_some], hX⟩
  · obtain ⟨p, hp, -, hZ⟩ := hXZ i hi
    exact ⟨p.z, by rw [getElem?_map, hp, Option.map_some], hZ⟩

theorem ecmStage2CommonZ_spec (zero : ρ) (h : ops.Models Rep) (hi : plan.i0 < plan.i1)
    (hs1 : 2 ≤ plan.s1) (hfit : plan.s1 + (plan.i1 - plan.i0 - plan.skip) < 2 ^ 31)
    {v : EcmCoordinates R} {Pj Pid : List (EllMPoint ρ)} (hv : v.Of plan Rep Pj Pid) :
    ∃ xj xid, ecmStage2CommonZ ops plan zero Pj Pid = pure (xj, xid) ∧
      StandsFor Rep (v.xj plan) plan.s1 xj ∧
      StandsFor Rep (v.xid plan) (plan.i1 - plan.i0) xid := by
  have hskip : plan.skip ≤ plan.i1 - plan.i0 := by
    rw [Stage2Plan.skip]
    split_ifs <;> omega
  have hZ1 : StandsFor Rep (v.denominator plan) plan.s1 (Pj.map EllMPoint.z) :=
    hv.Zj.congr fun i hi => (if_pos hi).symm
  have hZ2 : StandsFor Rep (fun i => v.denominator plan (i + plan.s1))
      (plan.i1 - plan.i0 - plan.skip) ((Pid.map EllMPoint.z).drop plan.skip) := by
    refine (hv.Zid.drop plan.skip).congr fun i _ => ?_
    rw [EcmCoordinates.denominator, if_neg (by omega), Nat.add_sub_cancel]
  obtain ⟨xj, xid, hrun, hcommon⟩ := commonZ_spec zero h hv.Xj hZ1
    (hv.Xid.drop plan.skip) hZ2 (by omega) hfit
  refine ⟨xj, (Pid.map EllMPoint.x).take plan.skip ++ xid, ?_, hcommon.first, ?_⟩
  · simp [ecmStage2CommonZ, hrun]
  · have hfirst : StandsFor Rep v.Xid plan.skip (Pid.map EllMPoint.x) :=
      fun i hi => hv.Xid i (by omega)
    have hall := hfirst.take_append hcommon.second
    rw [Nat.add_sub_cancel' hskip] at hall
    refine hall.congr fun i _ => ?_
    rw [EcmCoordinates.xid]
    split_ifs with hlt
    · rfl
    · rw [Nat.sub_add_cancel (by omega)]

end Coordinates

/-! ## The loop over the codes -/

section Codes

variable {ops : RingOps ρ} {is0 : ρ → Bool} {R : Type*} [CommRing R] {Rep : R → ρ → Prop}
  {plan : Stage2Plan} {u v : ℕ → R} {xj xid : List ρ} {y : R} {i : ℕ} {b : List ℕ}
  {bs : List (List ℕ)} {rest : List ℕ} {st : EcmStage2State ρ}

/-- For each block of codes, the product of the differences between its row and the entries that
the codes name. -/
def ecmFactors (u v : ℕ → R) : ℕ → List (List ℕ) → List R
  | _, [] => []
  | i, b :: bs => (b.map fun j => v i - u j).prod :: ecmFactors u v (i + 1) bs

/-- The loop is at the row `i` with the product `y`, the blocks `bs` are left and
`rest` follows after them. -/
structure EcmStage2Inv (Rep : R → ρ → Prop) (plan : Stage2Plan) (rest : List ℕ) (i : ℕ) (y : R)
    (bs : List (List ℕ)) (st : EcmStage2State ρ) : Prop where
  row : st.i = i
  a : Rep y st.a
  a_bk : Rep y st.a_bk
  codes : plan.pairs.drop st.l = [nextD].intercalate bs ++ nextPass :: rest
  fits : st.l + ([nextD].intercalate bs).length < 2 ^ 32
  rows : i + bs.length ≤ plan.i1 - plan.i0
  valid : ∀ b ∈ bs, ∀ c ∈ b, c < nextD ∧ c < plan.s1

omit [CommRing R] in
theorem ecmStage2Step_end (hbs : [nextD].intercalate bs = [])
    (hst : EcmStage2Inv Rep plan rest i y bs st) :
    ecmStage2Step ops is0 plan xj xid st = pure (.inr st.a) := by
  have hcodes := hst.codes
  rw [hbs, List.nil_append] at hcodes
  rw [ecmStage2Step, (readAt_of_drop hcodes).1, pure_bind, if_pos rfl]

/-- One turn of the loop: the product of the next block is zero and the loop ends, or the product
grows by it. -/
theorem ecmStage2Step_spec (h : ops.Models Rep) (his0 : ∀ y a, Rep y a → (is0 a = true ↔ y = 0))
    (hxj : StandsFor Rep u plan.s1 xj) (hxid : StandsFor Rep v (plan.i1 - plan.i0) xid)
    (hne : [nextD].intercalate (b :: bs) ≠ [])
    (hst : EcmStage2Inv Rep plan rest i y (b :: bs) st) {f : R}
    (hf : f = (b.map fun j => v i - u j).prod) :
    (y * f = 0 ∧ ecmStage2Step ops is0 plan xj xid st = pure (.inr st.a_bk)) ∨
      y * f ≠ 0 ∧ ∃ st', ecmStage2Step ops is0 plan xj xid st = pure (.inl st') ∧
        (bs = [] ∧ EcmStage2Inv Rep plan rest i (y * f) [] st' ∨
          EcmStage2Inv Rep plan rest (i + 1) (y * f) bs st') := by
  have hb := hst.valid b (by simp)
  have hfits := hst.fits
  have hrows := hst.rows
  rw [length_cons] at hrows
  have hvalid : ∀ b ∈ bs, ∀ c ∈ b, c < nextD ∧ c < plan.s1 :=
    fun b hb => hst.valid b (by simp [hb])
  obtain ⟨c₀, c, cs, hat⟩ := exists_atBlock hst.codes hne fun c hc => (hb c hc).1
  have hlen := hat.length_le
  obtain ⟨row, hrow, hrowrep⟩ := hxid.readAt (i := i) (by omega)
  obtain ⟨a', ha', hres⟩ := pp1Block_product h hrowrep
    (fun c hc => ⟨(hb c hc).1, hxj.readAt (hb c hc).2⟩) hat.codes hat.stop (by omega) hst.a
    hat.length_lt
  rw [← hf] at hres
  obtain ⟨hread, hdrop⟩ := readAt_of_drop hat.after
  simp only [ecmStage2Step, hat.head, if_neg hat.head_ne, hst.row, hrow, ha', hread, pure_bind]
  by_cases hzero : y * f = 0
  · exact .inl ⟨hzero, by rw [if_pos ((his0 _ _ hres).mpr hzero)]⟩
  refine .inr ⟨hzero, ?_⟩
  rw [if_neg fun htrue => hzero ((his0 _ _ hres).mp htrue)]
  have hafter := hat.after
  rcases hat.next with ⟨rfl, rfl, rfl⟩ | ⟨hbs, rfl, rfl, hnextlen⟩
  · refine ⟨⟨i, a', a', st.l + b.length⟩, by rw [if_neg (by decide)], .inl ⟨rfl, ?_⟩⟩
    exact ⟨rfl, hres, hres, hafter, by simpa using (by omega : st.l + b.length < 2 ^ 32),
      by simp only [List.length_nil]; omega, List.forall_mem_nil _⟩
  · have hl : nextIndex (st.l + b.length) = st.l + b.length + 1 := nextIndex_of_lt (by omega)
    have hpos : 0 < bs.length := List.length_pos_of_ne_nil hbs
    refine ⟨⟨i + 1, a', a', st.l + b.length + 1⟩, ?_, .inr ?_⟩
    · rw [if_pos rfl, assert_of (by omega), pure_bind, hl]
    · have hfits' : st.l + b.length + 1 + ([nextD].intercalate bs).length < 2 ^ 32 := by omega
      exact ⟨rfl, hres, hres, hdrop, hfits', by omega, hvalid⟩

/-- The loop returns the product up to the first block that makes it zero. -/
theorem ecmStage2Loop_spec [DecidableEq R] (h : ops.Models Rep)
    (his0 : ∀ y a, Rep y a → (is0 a = true ↔ y = 0)) (hxj : StandsFor Rep u plan.s1 xj)
    (hxid : StandsFor Rep v (plan.i1 - plan.i0) xid) {fuel : ℕ}
    (hst : EcmStage2Inv Rep plan rest i y bs st) (hfuel : bs.length < fuel) :
    ∃ r, ecmStage2Loop ops is0 plan xj xid fuel st = pure r ∧
      Rep (productUntilZero (ecmFactors u v i bs) y) r := by
  induction fuel generalizing i y bs st with
  | zero => omega
  | succ fuel ih =>
    rw [ecmStage2Loop]
    by_cases hend : [nextD].intercalate bs = []
    · refine ⟨st.a, by rw [ecmStage2Step_end hend hst, pure_bind], ?_⟩
      suffices hvalue : productUntilZero (ecmFactors u v i bs) y = y by
        rw [hvalue]
        exact hst.a
      rcases eq_of_intercalate_eq_nil hend with rfl | rfl
      · rfl
      · simp [ecmFactors, productUntilZero]
    · cases bs with
      | nil => exact absurd List.intercalate_nil hend
      | cons b bs =>
        rw [ecmFactors, productUntilZero]
        rcases ecmStage2Step_spec h his0 hxj hxid hend hst rfl with
          ⟨hzero, hstep⟩ | ⟨hne, st', hstep, hst'⟩
        · rw [if_pos hzero, hstep, pure_bind]
          exact ⟨st.a_bk, rfl, hst.a_bk⟩
        · rw [if_neg hne, hstep, pure_bind]
          rw [length_cons] at hfuel
          rcases hst' with ⟨rfl, hst'⟩ | hst'
          · have hrest := ih hst' (by simpa using hfuel)
            exact hrest
          · exact ih hst' (by omega)

end Codes

/-! ## Stage 2 -/

section Correct

variable {ops : RingOps ρ} {is0 : ρ → Bool} {R : Type*} [CommRing R] {Rep : R → ρ → Prop}
  {plan : Stage2Plan} {codes : List ℕ} {zero : ρ}

/-- What `ecm_stage2` does for a plan whose codes before `NEXT_PASS` are `codes`:
the tables of points, their first coordinates after `common_z`, and the result. -/
structure EcmStage2Correct (ops : RingOps ρ) (is0 : ρ → Bool) (Rep : R → ρ → Prop)
    (plan : Stage2Plan) (codes : List ℕ) (zero : ρ) (garbage P : EllMPoint ρ) (c : R) (b : ρ)
    (Pj Pid : List (EllMPoint ρ)) (xj xid : List ρ) (r : ρ) : Prop where
  tables : ecmStage2Tables (ellMCoords ops zero b) plan ⟨zero, zero⟩ garbage P = pure (Pj, Pid)
  common : ecmStage2CommonZ ops plan zero Pj Pid = pure (xj, xid)
  returns : ecmStage2 ops is0 plan zero garbage b P = pure r
  /-- Every addition is given the difference of its operands, and with this the tables hold the
  multiples by `S1` and by the rows times `d`. -/
  multiples : ecmStage2Tables ellMMultiples plan (some 0) none (some 1)
    = pure (plan.S1.map some, (range (plan.i1 - plan.i0)).map fun k =>
      some ((plan.i0 + k) * plan.d))
  /-- The coordinates are those of the multiples, on the curve over any field that the residues map
  to. -/
  onCurve : ∀ (K : Type) [Field K] [DecidableEq K] (φ : R →+* K)
    (Q : (curve (4 * φ c - 2)).Point), P.OnCurve Rep φ Q →
    StandsFor (fun n => OnCurve Rep φ (n • Q)) (fun k => (plan.S1.getD k 0 : ℤ)) plan.s1
      Pj ∧
    StandsFor (fun n => OnCurve Rep φ (n • Q))
      (fun k => ((plan.i0 + k : ℕ) : ℤ) * plan.d) (plan.i1 - plan.i0) Pid
  /-- The result is the first entry of `Pj_x` times the product of all blocks, or of those
  before the first product that is zero. -/
  result : ∃ v : EcmCoordinates R, v.Of plan Rep Pj Pid ∧ StandsFor Rep (v.xj plan) plan.s1 xj ∧
    StandsFor Rep (v.xid plan) (plan.i1 - plan.i0) xid ∧
    ∃ n, IsPrefixBeforeZero (ecmFactors (v.xj plan) (v.xid plan) 0 (codes.splitOn nextD))
        (v.xj plan 0) n ∧
      Rep (v.xj plan 0 *
        ((ecmFactors (v.xj plan) (v.xid plan) 0 (codes.splitOn nextD)).take n).prod) r

/-- The point at infinity is not the only row, and `d` and the number of points are of type
`int`. -/
def Stage2Plan.EcmFits (plan : Stage2Plan) : Prop :=
  (plan.i0 = 0 → plan.i1 ≠ 1) ∧ plan.d < 2 ^ 31 ∧
    plan.s1 + (plan.i1 - plan.i0 - plan.skip) < 2 ^ 31

theorem eq_map_of_standsFor {f : ℕ → ℤ} {g : ℕ → ℕ} {n : ℕ} {xs : List (Option ℕ)}
    (h : StandsFor (fun n P => P = some n.natAbs) f n xs) (hlen : xs.length = n)
    (hfg : ∀ i < n, (f i).natAbs = g i) : xs = (range n).map fun i => some (g i) := by
  refine List.ext_getElem? fun i => ?_
  by_cases hi : i < n
  · obtain ⟨a, ha, hvalue⟩ := h i hi
    rw [ha, hvalue, getElem?_map, List.getElem?_range hi, Option.map_some, hfg i hi]
  · rw [List.getElem?_eq_none (by omega), List.getElem?_eq_none (by simpa using hi)]

theorem ecmStage2Tables_multiples (hplan : plan.ListsS1) (hd : 18 ≤ plan.d)
    (hi : plan.i0 < plan.i1) (hrow : plan.i0 = 0 → plan.i1 ≠ 1) (hfit : plan.d < 2 ^ 31) :
    ecmStage2Tables ellMMultiples plan (some 0) none (some 1)
      = pure (plan.S1.map some, (range (plan.i1 - plan.i0)).map fun k =>
        some ((plan.i0 + k) * plan.d)) := by
  have hzero : (some 0 : Option ℕ) = some (0 : ℤ).natAbs := rfl
  have hone : (some 1 : Option ℕ) = some (1 : ℤ).natAbs := rfl
  obtain ⟨Pj, Pid, hrun, hPj, hPid⟩ := ecmStage2Tables_spec ellMMultiples_represents hplan hd hi
    hrow hfit hzero hone none
  rw [hrun]
  have hS1 : Pj = (range plan.s1).map fun k => some (plan.S1.getD k 0) :=
    eq_map_of_standsFor hPj.2 hPj.1 fun k _ => Int.natAbs_natCast _
  have hrows := eq_map_of_standsFor hPid.2 hPid.1
    (g := fun k => (plan.i0 + k) * plan.d) fun k _ => by
      rw [Int.natAbs_mul, Int.natAbs_natCast, Int.natAbs_natCast]
  have hlist : (range plan.s1).map (fun k => some (plan.S1.getD k 0)) = plan.S1.map some := by
    refine List.ext_getElem (by simp [hplan.s1_eq]) fun k hk hk' => ?_
    rw [List.getElem_map, List.getElem_map, List.getElem_range,
      getD_eq_getElem _ _ (by simpa using hk')]
  rw [hS1, hlist, hrows]

/-- Stage 2 is right over any ring that the operations model. -/
theorem ecmStage2_iff_of_models [DecidableEq R] (h : ops.Models Rep)
    (his0 : ∀ y a, Rep y a → (is0 a = true ↔ y = 0)) (hzero : Rep 0 zero) (hplan : plan.ListsS1)
    (hd : 18 ≤ plan.d) (hi : plan.i0 < plan.i1) {rest : List ℕ}
    (hcodes : plan.pairs = codes ++ nextPass :: rest) (hlength : codes.length < 2 ^ 32)
    (hvalid : ∀ c ∈ codes, c = nextD ∨ c < nextD ∧ c < plan.s1)
    (hcount : codes.count nextD < plan.i1 - plan.i0) (garbage : EllMPoint ρ) {c : R} {b : ρ}
    (hb : Rep c b) {P : EllMPoint ρ} (hP : P.Stands Rep fun _ _ => True) :
    (∃ Pj Pid xj xid r,
      EcmStage2Correct ops is0 Rep plan codes zero garbage P c b Pj Pid xj xid r) ↔
      plan.EcmFits := by
  have hres := ellMCoords_represents_residues zero h hb
  have hinf : (⟨zero, zero⟩ : EllMPoint ρ).Stands Rep fun _ _ => True :=
    ⟨0, 0, hzero, hzero, trivial⟩
  constructor
  · rintro ⟨Pj, Pid, xj, xid, r, hcorrect⟩
    obtain ⟨hrow, hfit⟩ := ecmStage2Tables_only hres hplan hd hinf hP hcorrect.tables
    obtain ⟨xs, hcommon, -⟩ := exists_of_bind_eq_pure hcorrect.common
    refine ⟨hrow, hfit, ?_⟩
    by_contra hbig
    rw [commonZ, assert, if_neg hbig] at hcommon
    cases hcommon
  · rintro ⟨hrow, hfit, hpoints⟩
    obtain ⟨Pj, Pid, htables, hPj, hPid⟩ := ecmStage2Tables_spec hres hplan hd hi hrow hfit hinf hP
      garbage
    obtain ⟨Xj, Zj, hXj, hZj⟩ := exists_coordinates hPj.2
    obtain ⟨Xid, Zid, hXid, hZid⟩ := exists_coordinates hPid.2
    set v : EcmCoordinates R := ⟨Xj, Zj, Xid, Zid⟩ with hv
    have hof : v.Of plan Rep Pj Pid := ⟨hXj, hZj, hXid, hZid⟩
    have htwo := hplan.two_le hd
    obtain ⟨xj, xid, hcommon, hxj, hxid⟩ := ecmStage2CommonZ_spec zero h hi htwo hpoints hof
    obtain ⟨a, ha, harep⟩ := hxj.readAt (i := 0) (by omega)
    have hblocks : ∀ b ∈ codes.splitOn nextD, ∀ c ∈ b, c < nextD ∧ c < plan.s1 := by
      intro b hb c hc
      obtain ⟨hmem, hne⟩ := mem_of_mem_splitOn hb hc
      exact (hvalid c hmem).resolve_left hne
    have hinv : EcmStage2Inv Rep plan rest 0 (v.xj plan 0) (codes.splitOn nextD) ⟨0, a, a, 0⟩ := by
      refine ⟨rfl, harep, harep, ?_, ?_, by rw [length_splitOn]; omega, hblocks⟩
      · rw [List.drop_zero, hcodes, List.intercalate_splitOn]
      · rwa [zero_add, List.intercalate_splitOn]
    have hfuel : (codes.splitOn nextD).length < plan.pairs.length + 1 := by
      have hle := length_splitOn_le nextD codes
      rw [hcodes, List.length_append, length_cons]
      omega
    obtain ⟨r, hr, hrep⟩ := ecmStage2Loop_spec h his0 hxj hxid hinv hfuel
    obtain ⟨n, hn, hvalue⟩ := productUntilZero_spec
      (ecmFactors (v.xj plan) (v.xid plan) 0 (codes.splitOn nextD)) (v.xj plan 0)
    rw [hvalue] at hrep
    refine ⟨Pj, Pid, xj, xid, r, htables, hcommon, ?_,
      ecmStage2Tables_multiples hplan hd hi hrow hfit, ?_, v, hof, hxj, hxid, n, hn, hrep⟩
    · simp [ecmStage2, htables, hcommon, ha, hr]
    · intro K _ _ φ Q hPQ
      have hcurve := ellMCoords_represents zero h hb φ (by ring) Q
      have hzeroQ : IsXZ ((0 : ℤ) • Q) (φ 0) (φ 0) := by
        rw [map_zero]
        exact isXZ_zero_zero _
      have hinfQ : (⟨zero, zero⟩ : EllMPoint ρ).OnCurve Rep φ ((0 : ℤ) • Q) :=
        ⟨0, 0, hzero, hzero, hzeroQ⟩
      obtain ⟨Pj', Pid', htables', hPj', hPid'⟩ := ecmStage2Tables_spec hcurve hplan hd hi hrow hfit
        hinfQ (by rwa [one_smul]) garbage
      rw [htables] at htables'
      obtain ⟨rfl, rfl⟩ := Prod.mk.inj (Outcome.done.inj htables').1
      exact ⟨hPj'.2, hPid'.2⟩

/-- `common_z` and `ecm_stage2` in one arithmetic, for all points and all counts. -/
structure EcmStage2Holds (ops : RingOps ρ) (is0 : ρ → Bool) (Rep : R → ρ → Prop)
    (plan : Stage2Plan) (codes : List ℕ) (zero : ρ) : Prop where
  commonZ : ∀ {f₁ f₂ g : ℕ → R} {n1 n2 : ℕ} {x1 z1 x2 z2 : List ρ}, StandsFor Rep f₁ n1 x1 →
    StandsFor Rep g n1 z1 → StandsFor Rep f₂ n2 x2 →
    StandsFor Rep (fun i => g (i + n1)) n2 z2 → 2 ≤ n1 + n2 →
    ((∃ x1' x2', commonZ ops zero n1 x1 z1 n2 x2 z2 = pure (x1', x2') ∧
      CommonZCorrect Rep f₁ f₂ g n1 n2 x1 x2 x1' x2') ↔ n1 + n2 < 2 ^ 31)
  stage2 : ∀ (garbage : EllMPoint ρ) {c : R} {b : ρ} {P : EllMPoint ρ}, Rep c b →
    (P.Stands Rep fun _ _ => True) →
    ((∃ Pj Pid xj xid r,
      EcmStage2Correct ops is0 Rep plan codes zero garbage P c b Pj Pid xj xid r) ↔ plan.EcmFits)

theorem commonZ_iff (h : ops.Models Rep) {f₁ f₂ g : ℕ → R} {n1 n2 : ℕ} {x1 z1 x2 z2 : List ρ}
    (hx1 : StandsFor Rep f₁ n1 x1) (hz1 : StandsFor Rep g n1 z1) (hx2 : StandsFor Rep f₂ n2 x2)
    (hz2 : StandsFor Rep (fun i => g (i + n1)) n2 z2) (hn : 2 ≤ n1 + n2) :
    (∃ x1' x2', commonZ ops zero n1 x1 z1 n2 x2 z2 = pure (x1', x2') ∧
      CommonZCorrect Rep f₁ f₂ g n1 n2 x1 x2 x1' x2') ↔ n1 + n2 < 2 ^ 31 := by
  refine ⟨?_, fun hfit => commonZ_spec zero h hx1 hz1 hx2 hz2 hn hfit⟩
  rintro ⟨x1', x2', hrun, -⟩
  by_contra hbig
  rw [commonZ, assert, if_neg hbig] at hrun
  cases hrun

/-- In the arithmetics that `ecm.c` is compiled for. -/
theorem ecmStage2_iff {w : ℕ} (build : UlarithBuild) (hw : w = 32 ∨ w = 64)
    (hplan : plan.ListsS1) (hd : 18 ≤ plan.d) (hi : plan.i0 < plan.i1) {rest : List ℕ}
    (hcodes : plan.pairs = codes ++ nextPass :: rest) (hlength : codes.length < 2 ^ 32)
    (hvalid : ∀ c ∈ codes, c = nextD ∨ c < nextD ∧ c < plan.s1)
    (hcount : codes.count nextD < plan.i1 - plan.i0) :
    (∀ s : BitVec w, s.toNat % 2 = 1 → ∃ m, modredculInitmodUl s = pure m ∧
      EcmStage2Holds (modredculOps build m) modredculIs0 (MontgomeryResidueUl s.toNat) plan codes
        (0#w)) ∧
    ∀ (arith : RedcArith) (s : TwoWord w), s.value % 2 = 1 → 2 ^ w ≤ s.value →
      s.value < 2 ^ arith.bits w → ∃ m, modInitmodUls arith build s = pure m ∧
        EcmStage2Holds (modredcOps arith build m) modredcIs0 (MontgomeryResidue s.value) plan codes
          ⟨0#w, 0#w⟩ := by
  have hpos : 0 < w := by omega
  have heven : w % 2 = 0 := by omega
  refine ⟨fun s hodd => ?_, fun arith s hodd hlow hhigh => ?_⟩
  · obtain ⟨m, hinit, rfl, hm⟩ := modredculInitmodUl_spec hw hodd
    have hmodels := modredculOps_models build hpos heven hm
    have hzero : MontgomeryResidueUl m.m.toNat 0 (0#w) := ⟨by simpa using hm.pos, by simp⟩
    refine ⟨m, hinit, commonZ_iff hmodels, fun garbage {c b P} hb hP => ?_⟩
    exact ecmStage2_iff_of_models hmodels
      (fun y a ha => beq_iff_eq.trans (hmodels.eq_iff ha hzero)) hzero hplan hd hi hcodes hlength
      hvalid hcount garbage hb hP
  · obtain ⟨m, hinit, rfl, hm⟩ := modInitmodUls_spec build hw hodd hlow hhigh
    have hmodels := modredcOps_models build (by omega) heven hm
    have hvalue : (⟨0#w, 0#w⟩ : TwoWord w).value = 0 := by simp [TwoWord.value]
    have hzero : MontgomeryResidue m.m.value 0 ⟨0#w, 0#w⟩ :=
      ⟨by rw [hvalue]; exact hm.pos, by rw [hvalue, Nat.cast_zero, zero_mul]⟩
    refine ⟨m, hinit, commonZ_iff hmodels, fun garbage {c b P} hb hP => ?_⟩
    exact ecmStage2_iff_of_models hmodels
      (fun y a ha => (modredcEqual_iff a _).trans (hmodels.eq_iff ha hzero)) hzero hplan hd hi
      hcodes hlength hvalid hcount garbage hb hP

/-- A plan with the rows 1 and 2. -/
def ecmPlan18 : Stage2Plan :=
  { B2 := 50, d := 18, s1 := 3, i0 := 1, i1 := 3, S1 := [1, 5, 7], pairs := [0, 254, 2, 255] }

theorem ecmPlan18_listsS1 : ecmPlan18.ListsS1 :=
  .of_small (by decide) (by decide) rfl (by decide) (by decide) (by decide)

theorem ecmStage2_iff_plan18 : ∃ m, modredculInitmodUl 17#64 = pure m ∧
    EcmStage2Holds (modredculOps .x86 m) modredculIs0 (MontgomeryResidueUl 17) ecmPlan18 [0, 254, 2]
      (0#64) :=
  (ecmStage2_iff .x86 (.inr rfl) ecmPlan18_listsS1 (by decide) (by decide)
    (show ecmPlan18.pairs = [0, 254, 2] ++ nextPass :: [] from rfl) (by decide) (by decide)
    (by decide)).1 17#64 (by decide)

/-- A plan whose only row is the point at infinity. -/
def ecmPlanInfinity : Stage2Plan :=
  { B2 := 7, d := 18, s1 := 3, i0 := 0, i1 := 1, S1 := [1, 5, 7], pairs := [0, 255] }

theorem ecmPlanInfinity_listsS1 : ecmPlanInfinity.ListsS1 :=
  .of_small (by decide) (by decide) rfl (by decide) (by decide) (by decide)

/-- With the point at infinity as the only row an entry is written past the end of the table. -/
theorem not_ecmStage2_infinity : ecmPlanInfinity.ListsS1 ∧
    ecmPlanInfinity.i0 < ecmPlanInfinity.i1 ∧
    ecmPlanInfinity.pairs = [0] ++ nextPass :: [] ∧
    ∃ m, modredculInitmodUl 17#64 = pure m ∧ ∃ P : EllMPoint (BitVec 64),
      (P.Stands (MontgomeryResidueUl 17) fun _ _ => True) ∧
      MontgomeryResidueUl 17 3 (3#64) ∧
      ecmStage2 (modredculOps .x86 m) modredculIs0 ecmPlanInfinity (0#64) ⟨0#64, 0#64⟩ (3#64) P
        = .abort ∧
      ¬∃ Pj Pid xj xid r, EcmStage2Correct (modredculOps .x86 m) modredculIs0
        (MontgomeryResidueUl 17) ecmPlanInfinity [0] (0#64) ⟨0#64, 0#64⟩ P 3 (3#64) Pj Pid xj xid
        r := by
  refine ⟨ecmPlanInfinity_listsS1, by decide, rfl, ?_⟩
  obtain ⟨m, hinit, hm17, hm⟩ := modredculInitmodUl_spec (.inr rfl) (s := 17#64) (by decide)
  have hmodels := modredculOps_models .x86 (by decide) (by decide) hm
  rw [hm17] at hmodels
  have hthree : MontgomeryResidueUl 17 3 (3#64) := ⟨by decide, by decide⟩
  have hzero : MontgomeryResidueUl 17 0 (0#64) := ⟨by decide, by decide⟩
  have hP : Stands (MontgomeryResidueUl 17) (fun _ _ => True) ⟨3#64, 3#64⟩ :=
    ⟨3, 3, hthree, hthree, trivial⟩
  have hinf : Stands (MontgomeryResidueUl 17) (fun _ _ => True) ⟨0#64, 0#64⟩ :=
    ⟨0, 0, hzero, hzero, trivial⟩
  have htables := ecmStage2Tables_abort (ellMCoords_represents_residues (0#64) hmodels hthree)
    ecmPlanInfinity_listsS1 (by decide) (by decide) hinf hP rfl rfl ⟨0#64, 0#64⟩
  have habort : ecmStage2 (modredculOps .x86 m) modredculIs0 ecmPlanInfinity (0#64)
      ⟨0#64, 0#64⟩ (3#64) ⟨3#64, 3#64⟩ = .abort := by
    rw [ecmStage2, htables]
    rfl
  refine ⟨m, hinit, ⟨3#64, 3#64⟩, hP, hthree, habort, ?_⟩
  rintro ⟨Pj, Pid, xj, xid, r, hcorrect⟩
  exact absurd (habort.symm.trans hcorrect.returns) nofun

end Correct

end CadoNfs
