import CadoNfs.Ecm.Pp1
import CadoNfs.Ecm.Stage2
import CadoNfs.Utils.ModUlCommon

/-!
# Stage 2 of P+1

`pp1_stage2` computes the terms of a Lucas sequence at the indices of `S1` and at the
multiples of `d`, and multiplies their differences as the codes of a plan say.  It is compiled
for the arithmetics of one and of two words, and written here over the operations of a header.

Main results:

- Theorem `pp1XjLoop_spec`: the two arithmetic progressions meet every index of `S1`.
- Theorem `pp1Stage2Step_spec`: one block of codes.
- Theorem `pp1Stage2Loop_spec`: the product up to the first block that makes it zero.
- Theorem `pp1Stage2_correct`: the table, the rows and the result.
-/

namespace CadoNfs

open WordArith LucasSequence
open List (append_assoc intercalate_cons_cons length_append length_cons map_map mem_cons nil_append
  prod_cons take_zero)
open BitVec (ofNat)

variable {ρ : Type}

/-! ## Definitions -/

section Definitions

variable (build : UlarithBuild) (ops : RingOps ρ) (is0 : ρ → Bool) (plan : Stage2Plan)

/-- `pp1_add`, of residues. -/
def pp1AddRes (a b d : ρ) : Outcome ρ := do
  let r ← ops.mul a b
  pure (ops.sub r d)

/-- `pp1_double`, of residues. -/
def pp1DoubleRes (a two : ρ) : Outcome ρ := do
  let r ← ops.mul a a
  pure (ops.sub r two)

/-- Two neighbouring terms of either arithmetic progression of indices, `V_6(X)`, and the
indices of the later terms. -/
structure Pp1Progressions (ρ : Type) where
  ap1_0 : ρ
  ap1_1 : ρ
  ap5_0 : ρ
  ap5_1 : ρ
  X6 : ρ
  i1 : ℕ
  i5 : ℕ

/-- "Init ap1_0 = V_1(X), ap1_1 = V_7(X), ap5_0 = V_5(X), ap5_1 = V_11(X) and X6 = V_6(X)". -/
def pp1Progressions (X two : ρ) : Outcome (Pp1Progressions ρ) := do
  let X2 ← pp1DoubleRes ops X two
  let X6 ← pp1AddRes ops X2 X X
  let ap5_0 ← pp1AddRes ops X6 X2 X
  let X6 ← pp1DoubleRes ops X6 two
  let ap1_1 ← pp1AddRes ops X6 X ap5_0
  let ap5_1 ← pp1AddRes ops X6 ap5_0 X
  pure ⟨X, ap1_1, ap5_0, ap5_1, X6, 7, 11⟩

/-- Both progressions advance; the indices are of type `int`, and an overflow is taken for a
failed assertion. -/
def pp1Advance (p : Pp1Progressions ρ) : Outcome (Pp1Progressions ρ) := do
  let t ← pp1AddRes ops p.ap1_1 p.X6 p.ap1_0
  let u ← pp1AddRes ops p.ap5_1 p.X6 p.ap5_0
  Outcome.assert (p.i1 + 6 < 2 ^ 31 ∧ p.i5 + 6 < 2 ^ 31)
  pure ⟨p.ap1_1, t, p.ap5_1, u, p.X6, p.i1 + 6, p.i5 + 6⟩

/-- "We treat the first two manually". -/
def pp1XjStart (p : Pp1Progressions ρ) : List ρ :=
  let Xj := if plan.s1 > 0 ∧ plan.S1[0]? = some 1 then [p.ap1_0] else []
  if plan.s1 > Xj.length ∧ plan.S1[Xj.length]? = some 5 then Xj ++ [p.ap5_0] else Xj

/-- The loop that fills `Xj`, of which `k` entries are set; a read past the end of
`S1` is taken for a failed assertion. -/
def pp1XjLoop : ℕ → Pp1Progressions ρ → List ρ → Outcome (List ρ)
  | 0, _, _ => .abort
  | fuel + 1, p, Xj =>
    let k := Xj.length
    if k < plan.s1 then
      match plan.S1[k]? with
      | none => .abort
      | some j =>
        if j = p.i1 then pp1XjLoop fuel p (Xj ++ [p.ap1_1])
        else if j = p.i5 then pp1XjLoop fuel p (Xj ++ [p.ap5_1])
        else do
          let p ← pp1Advance ops p
          pp1XjLoop fuel p Xj
    else pure Xj

/-- The table `Xj`, and `Xd`. -/
def pp1Stage2Table (w : ℕ) (X two : ρ) : Outcome (List ρ × ρ) := do
  Outcome.assert (plan.d % 6 = 0)
  let p ← pp1Progressions ops X two
  let Xj ← pp1XjLoop ops plan (plan.s1 + plan.d + 1) p (pp1XjStart plan p)
  let Xd ← modVUl build ops p.X6 (ofNat w (plan.d / 6))
  pure (Xj, Xd)

/-- The variables of the loop over the codes. -/
structure Pp1Stage2State (ρ : Type) where
  Xid : ρ
  Xid1 : ρ
  a : ρ
  a_bk : ρ
  l : ℕ

/-- The values before the loop; `plan->i0 + 1` is of type `unsigned int`. -/
def pp1Stage2Start (w : ℕ) (Xd : ρ) : Outcome (Pp1Stage2State ρ) := do
  let Xid ← modVUl build ops Xd (ofNat w plan.i0)
  let Xid1 ← modVUl build ops Xd (ofNat w ((plan.i0 + 1) % 2 ^ 32))
  pure ⟨Xid, Xid1, ops.one, ops.one, 0⟩

/-- An entry of an array; a read past its end is taken for a failed assertion. -/
def readAt {α : Type} (xs : List α) (i : ℕ) : Outcome α :=
  match xs[i]? with
  | some x => pure x
  | none => .abort

/-- `l++`. -/
def nextIndex (l : ℕ) : ℕ :=
  (l + 1) % 2 ^ 32

/-- The inner loop: the codes before the next `NEXT_D` or `NEXT_PASS`. -/
def pp1Block (Xj : List ρ) (Xid : ρ) : ℕ → ℕ → ρ → Outcome (ℕ × ρ)
  | 0, _, _ => .abort
  | fuel + 1, l, a => do
    let c ← readAt plan.pairs l
    if c < nextD ∧ c < nextPass then do
      let b ← readAt Xj c
      let t := ops.sub Xid b
      let a ← ops.mul a t
      pp1Block Xj Xid fuel (nextIndex l) a
    else pure (l, a)

/-- One turn of the loop over the codes, which goes on with a state or ends with a result. -/
def pp1Stage2Step (Xj : List ρ) (Xd : ρ) (st : Pp1Stage2State ρ) :
    Outcome (Pp1Stage2State ρ ⊕ ρ) := do
  let c ← readAt plan.pairs st.l
  if c = nextPass then pure (.inr st.a)
  else do
    let (l, a) ← pp1Block ops plan Xj st.Xid (plan.pairs.length + 1) st.l st.a
    if is0 a then pure (.inr st.a_bk)
    else do
      let c ← readAt plan.pairs l
      if c = nextD then do
        let t ← pp1AddRes ops st.Xid1 Xd st.Xid
        pure (.inl ⟨st.Xid1, t, a, a, nextIndex l⟩)
      else pure (.inl ⟨st.Xid, st.Xid1, a, a, l⟩)

/-- The loop over the codes. -/
def pp1Stage2Loop (Xj : List ρ) (Xd : ρ) : ℕ → Pp1Stage2State ρ → Outcome ρ
  | 0, _ => .abort
  | fuel + 1, st => do
    let next ← pp1Stage2Step ops is0 plan Xj Xd st
    match next with
    | .inl st => pp1Stage2Loop Xj Xd fuel st
    | .inr r => pure r

/-- `pp1_stage2`. -/
def pp1Stage2 (w : ℕ) (X two : ρ) : Outcome ρ := do
  let (Xj, Xd) ← pp1Stage2Table build ops plan w X two
  let st ← pp1Stage2Start build ops plan w Xd
  pp1Stage2Loop ops is0 plan Xj Xd (plan.pairs.length + 1) st

/-- The states that the loop goes through. -/
inductive Pp1Stage2Reaches (Xj : List ρ) (Xd : ρ) (start : Pp1Stage2State ρ) :
    Pp1Stage2State ρ → Prop
  | start : Pp1Stage2Reaches Xj Xd start start
  | step {st st' : Pp1Stage2State ρ} : Pp1Stage2Reaches Xj Xd start st →
      pp1Stage2Step ops is0 plan Xj Xd st = pure (.inl st') →
      Pp1Stage2Reaches Xj Xd start st'

end Definitions

/-! ## Terms -/

section Terms

variable {ops : RingOps ρ} {R : Type*} [CommRing R] {Rep : R → ρ → Prop} {x : R}

theorem pp1AddRes_term (h : ops.Models Rep) {m n l : ℕ} {a b d : ρ} (ha : Rep (lucasV x m) a)
    (hb : Rep (lucasV x n) b) (hd : Rep (lucasV x l) d) (hl : l + n = m) :
    ∃ r, pp1AddRes ops a b d = pure r ∧ Rep (lucasV x (m + n)) r := by
  obtain ⟨r, hr, hres⟩ := h.mul ha hb
  have hsub := h.sub hres hd
  rw [lucasV_progression x hl] at hsub
  exact ⟨_, by rw [pp1AddRes, hr, pure_bind], hsub⟩

theorem pp1DoubleRes_term (h : ops.Models Rep) {n : ℕ} {a two : ρ} (ha : Rep (lucasV x n) a)
    (htwo : Rep 2 two) : ∃ r, pp1DoubleRes ops a two = pure r ∧ Rep (lucasV x (2 * n)) r := by
  obtain ⟨r, hr, hres⟩ := h.mul ha ha
  have hsub := h.sub hres htwo
  rw [lucasV_mul_self] at hsub
  exact ⟨_, by rw [pp1DoubleRes, hr, pure_bind], hsub⟩

/-- The progressions at the indices `6 * c + 1` and `6 * c + 5`, and at the next ones. -/
structure Pp1Progressions.Holds (Rep : R → ρ → Prop) (x : R) (c : ℕ) (p : Pp1Progressions ρ) :
    Prop where
  ap1_0 : Rep (lucasV x (6 * c + 1)) p.ap1_0
  ap1_1 : Rep (lucasV x (6 * c + 7)) p.ap1_1
  ap5_0 : Rep (lucasV x (6 * c + 5)) p.ap5_0
  ap5_1 : Rep (lucasV x (6 * c + 11)) p.ap5_1
  X6 : Rep (lucasV x 6) p.X6
  i1 : p.i1 = 6 * c + 7
  i5 : p.i5 = 6 * c + 11

theorem pp1Progressions_spec (h : ops.Models Rep) {X two : ρ} (hX : Rep x X) (htwo : Rep 2 two) :
    ∃ p, pp1Progressions ops X two = pure p ∧ p.Holds Rep x 0 := by
  have h₁ : Rep (lucasV x 1) X := hX
  obtain ⟨X2, hX2, h₂⟩ := pp1DoubleRes_term h h₁ htwo
  obtain ⟨X3, hX3, h₃⟩ := pp1AddRes_term h h₂ h₁ h₁ rfl
  obtain ⟨X5, hX5, h₅⟩ := pp1AddRes_term h h₃ h₂ h₁ rfl
  obtain ⟨X6, hX6, h₆⟩ := pp1DoubleRes_term h h₃ htwo
  obtain ⟨X7, hX7, h₇⟩ := pp1AddRes_term h h₆ h₁ h₅ rfl
  obtain ⟨X11, hX11, h₁₁⟩ := pp1AddRes_term h h₆ h₅ h₁ rfl
  refine ⟨⟨X, X7, X5, X11, X6, 7, 11⟩, ?_, h₁, h₇, h₅, h₁₁, h₆, rfl, rfl⟩
  simp [pp1Progressions, hX2, hX3, hX5, hX6, hX7, hX11]

theorem pp1Advance_spec (h : ops.Models Rep) {p : Pp1Progressions ρ} {c : ℕ}
    (hp : p.Holds Rep x c) (hfit : 6 * c + 17 < 2 ^ 31) :
    ∃ p', pp1Advance ops p = pure p' ∧ p'.Holds Rep x (c + 1) := by
  obtain ⟨t, ht, h₁⟩ := pp1AddRes_term h hp.ap1_1 hp.X6 hp.ap1_0 rfl
  obtain ⟨u, hu, h₅⟩ := pp1AddRes_term h hp.ap5_1 hp.X6 hp.ap5_0 rfl
  have hi1 := hp.i1
  have hi5 := hp.i5
  have hint : p.i1 + 6 < 2 ^ 31 ∧ p.i5 + 6 < 2 ^ 31 := by omega
  refine ⟨⟨p.ap1_1, t, p.ap5_1, u, p.X6, p.i1 + 6, p.i5 + 6⟩, ?_, hp.ap1_1, h₁, hp.ap5_1, h₅,
    hp.X6, ?_, ?_⟩
  · simp only [pp1Advance, ht, hu, pure_bind, Outcome.assert_of hint]
  · rw [hi1, Nat.mul_succ, add_right_comm]
  · rw [hi5, Nat.mul_succ, add_right_comm]

end Terms

/-! ## The table of terms -/

section Table

variable {build : UlarithBuild} {ops : RingOps ρ} {R : Type*} [CommRing R]
  {Rep : R → ρ → Prop} {x : R} {plan : Stage2Plan}

/-- The entries of `S1` are the integers below `d / 2` that are coprime to `d`, in
increasing order, for a `d` that six divides. -/
structure Stage2Plan.ListsS1 (plan : Stage2Plan) : Prop where
  d_lt : plan.d < 2 ^ 32
  d_mod : plan.d % 6 = 0
  s1_eq : plan.s1 = plan.S1.length
  sorted : plan.S1.Pairwise (· < ·)
  mem_iff : ∀ j, j ∈ plan.S1 ↔ j < plan.d / 2 ∧ j.Coprime plan.d

theorem Stage2Plan.ListsS1.of_small (hd : plan.d < 2 ^ 32) (hmod : plan.d % 6 = 0)
    (hs1 : plan.s1 = plan.S1.length) (hsorted : plan.S1.Pairwise (· < ·))
    (hlt : ∀ j ∈ plan.S1, j < plan.d / 2)
    (hmem : ∀ j < plan.d / 2, j ∈ plan.S1 ↔ j.Coprime plan.d) : plan.ListsS1 :=
  ⟨hd, hmod, hs1, hsorted, fun j =>
    ⟨fun hj => ⟨hlt j hj, (hmem j (hlt j hj)).mp hj⟩, fun h => (hmem j h.1).mpr h.2⟩⟩

theorem Stage2Plan.ListsS1.mod_six (hplan : plan.ListsS1) {j : ℕ} (hj : j ∈ plan.S1) :
    2 * j < plan.d ∧ (j % 6 = 1 ∨ j % 6 = 5) := by
  obtain ⟨hlt, hcoprime⟩ := (hplan.mem_iff j).mp hj
  have hsix : 6 ∣ plan.d := Nat.dvd_of_mod_eq_zero hplan.d_mod
  have htwo := Nat.Coprime.coprime_dvd_right ((by decide : 2 ∣ 6).trans hsix) hcoprime
  have hthree := Nat.Coprime.coprime_dvd_right ((by decide : 3 ∣ 6).trans hsix) hcoprime
  rw [Nat.coprime_comm, Nat.Prime.coprime_iff_not_dvd Nat.prime_two] at htwo
  rw [Nat.coprime_comm, Nat.Prime.coprime_iff_not_dvd Nat.prime_three] at hthree
  omega

/-- The entries of a table stand for the terms at the indices of a list. -/
def IsTermTable (Rep : R → ρ → Prop) (x : R) (js : List ℕ) (Xj : List ρ) : Prop :=
  List.Forall₂ (fun j a => Rep (lucasV x j) a) js Xj

theorem IsTermTable.append {js : List ℕ} {Xj : List ρ} (hXj : IsTermTable Rep x js Xj) {j : ℕ}
    {a : ρ} (ha : Rep (lucasV x j) a) : IsTermTable Rep x (js ++ [j]) (Xj ++ [a]) :=
  List.rel_append hXj (.cons ha .nil)

/-- The loop meets every index that is left, if the later terms of the progressions are not
beyond the next one. -/
theorem pp1XjLoop_spec (h : ops.Models Rep) (hplan : plan.ListsS1) {fuel c : ℕ}
    {p : Pp1Progressions ρ} {done js : List ℕ} {Xj : List ρ} (hS1 : plan.S1 = done ++ js)
    (hlow : ∀ j ∈ js, 6 * c + 7 ≤ j) (hp : p.Holds Rep x c) (hXj : IsTermTable Rep x done Xj)
    (hfuel : js.length + (plan.d - c) < fuel) :
    ∃ Xj', pp1XjLoop ops plan fuel p Xj = pure Xj' ∧ IsTermTable Rep x plan.S1 Xj' := by
  induction fuel generalizing c p done js Xj with
  | zero => omega
  | succ fuel ih =>
    have hlen : Xj.length = done.length := hXj.length_eq.symm
    rw [pp1XjLoop]
    cases js with
    | nil =>
      rw [List.append_nil] at hS1
      rw [if_neg (by rw [hplan.s1_eq, hS1, hlen]; omega), hS1]
      exact ⟨Xj, rfl, hXj⟩
    | cons j js =>
      have hlt : Xj.length < plan.s1 := by
        rw [hplan.s1_eq, hS1, hlen, length_append, length_cons]
        omega
      have hread : plan.S1[Xj.length]? = some j := by
        rw [hS1, hlen, List.getElem?_append_right le_rfl, Nat.sub_self, List.getElem?_cons_zero]
      obtain ⟨hhigh, hmod⟩ := hplan.mod_six (j := j) (by simp [hS1])
      have hsorted := hplan.sorted
      rw [hS1, List.pairwise_append] at hsorted
      have hnext := (List.pairwise_cons.mp hsorted.2.1).1
      have hjlow := hlow j (by simp)
      have hrest : plan.S1 = (done ++ [j]) ++ js := by rw [hS1, append_assoc]; rfl
      have hlow' : ∀ i ∈ js, 6 * c + 7 ≤ i := fun i hi => hjlow.trans (hnext i hi).le
      rw [length_cons] at hfuel
      simp only [if_pos hlt, hread]
      by_cases hi1 : j = p.i1
      · -- the next index is the next term of the first progression
        rw [if_pos hi1]
        refine ih hrest hlow' hp (hXj.append ?_) (by omega)
        rw [hi1, hp.i1]
        exact hp.ap1_1
      rw [if_neg hi1]
      by_cases hi5 : j = p.i5
      · rw [if_pos hi5]
        refine ih hrest hlow' hp (hXj.append ?_) (by omega)
        rw [hi5, hp.i5]
        exact hp.ap5_1
      · -- it is neither, so it is beyond both
        rw [hp.i1] at hi1
        rw [hp.i5] at hi5
        have hd := hplan.d_lt
        have hd6 := hplan.d_mod
        obtain ⟨p', hp', hholds⟩ := pp1Advance_spec h hp (by omega)
        rw [if_neg (by rwa [hp.i5]), hp', pure_bind]
        refine ih hS1 (fun i hi => ?_) hholds hXj (by rw [length_cons]; omega)
        rcases mem_cons.mp hi with rfl | hi
        · omega
        · have := hnext i hi
          omega

/-- The table gets its next entry when the index comes up. -/
theorem table_meet (hplan : plan.ListsS1) {done js : List ℕ} {Xj : List ρ} {i : ℕ} {a : ρ}
    (hS1 : plan.S1 = done ++ js) (hXj : IsTermTable Rep x done Xj) (ha : Rep (lucasV x i) a)
    (hlow : ∀ j ∈ js, i ≤ j) :
    ∃ done' js', plan.S1 = done' ++ js' ∧ IsTermTable Rep x done'
        (if plan.s1 > Xj.length ∧ plan.S1[Xj.length]? = some i then Xj ++ [a] else Xj) ∧
      ∀ j ∈ js', i < j := by
  have hlen : Xj.length = done.length := hXj.length_eq.symm
  have hs1 : plan.s1 = done.length + js.length := by
    rw [hplan.s1_eq, hS1, length_append]
  have hread : plan.S1[Xj.length]? = js[0]? := by
    rw [hS1, hlen, List.getElem?_append_right le_rfl, Nat.sub_self]
  have hsorted := hplan.sorted
  rw [hS1, List.pairwise_append] at hsorted
  rw [hread]
  cases js with
  | nil => exact ⟨done, [], hS1, by rwa [if_neg (by simp)], by simp⟩
  | cons j js =>
    have hnext := (List.pairwise_cons.mp hsorted.2.1).1
    have hj := hlow j (by simp)
    rw [length_cons] at hs1
    by_cases hji : j = i
    · subst hji
      refine ⟨done ++ [j], js, by rw [hS1, append_assoc]; rfl, ?_, hnext⟩
      rw [if_pos ⟨by omega, rfl⟩]
      exact hXj.append ha
    · refine ⟨done, j :: js, hS1, ?_, fun k hk => ?_⟩
      · rwa [if_neg (by simp [hji])]
      · rcases mem_cons.mp hk with rfl | hk
        · omega
        · have := hnext k hk
          omega

theorem pp1XjStart_spec (hplan : plan.ListsS1) {p : Pp1Progressions ρ} (hp : p.Holds Rep x 0) :
    ∃ done js, plan.S1 = done ++ js ∧ IsTermTable Rep x done (pp1XjStart plan p) ∧
      ∀ j ∈ js, 6 * 0 + 7 ≤ j := by
  have hmod : ∀ {done js}, plan.S1 = done ++ js → ∀ j ∈ js, j % 6 = 1 ∨ j % 6 = 5 :=
    fun hS1 j hj => (hplan.mod_six (hS1 ▸ List.mem_append_right _ hj)).2
  obtain ⟨done, js, hS1, hXj, hlow⟩ := table_meet (i := 1) hplan (nil_append _).symm .nil
    hp.ap1_0 fun j hj => by have := hmod (nil_append _).symm j hj; omega
  obtain ⟨done', js', hS1', hXj', hlow'⟩ := table_meet (i := 5) hplan hS1 hXj hp.ap5_0
    fun j hj => by
      have := hmod hS1 j hj
      have := hlow j hj
      omega
  refine ⟨done', js', hS1', hXj', fun j hj => ?_⟩
  have := hmod hS1' j hj
  have := hlow' j hj
  omega

theorem pp1Stage2Table_spec (build : UlarithBuild) (h : ops.Models Rep) (hplan : plan.ListsS1)
    {w : ℕ} (hw : 32 ≤ w) {X two : ρ} (hX : Rep x X) (htwo : Rep 2 two) :
    ∃ Xj Xd, pp1Stage2Table build ops plan w X two = pure (Xj, Xd) ∧
      IsTermTable Rep x plan.S1 Xj ∧ Rep (lucasV x plan.d) Xd := by
  obtain ⟨p, hp, hholds⟩ := pp1Progressions_spec h hX htwo
  obtain ⟨done, js, hS1, hstart, hlow⟩ := pp1XjStart_spec hplan hholds
  have hlen : js.length ≤ plan.s1 := by
    rw [hplan.s1_eq, hS1, length_append]
    omega
  obtain ⟨Xj, hXj, htable⟩ := pp1XjLoop_spec h hplan hS1 hlow hholds hstart
    (by omega : js.length + (plan.d - 0) < plan.s1 + plan.d + 1)
  have hpow : 2 ^ 32 ≤ 2 ^ w := Nat.pow_le_pow_right (by omega) hw
  have hd := hplan.d_lt
  obtain ⟨Xd, hXd, hres⟩ := modVUl_spec build h hholds.X6 (ofNat w (plan.d / 6))
  rw [toNat_const (by omega), lucasV_comp,
    Nat.mul_div_cancel' (Nat.dvd_of_mod_eq_zero hplan.d_mod)] at hres
  refine ⟨Xj, Xd, ?_, htable, hres⟩
  simp [pp1Stage2Table, Outcome.assert_of hplan.d_mod, hp, hXj, hXd]

end Table

/-! ## Products up to a zero -/

section Products

variable {R : Type*} [CommRing R]

/-- The product of the factors up to the first one that makes it zero. -/
def productUntilZero [DecidableEq R] : List R → R → R
  | [], y => y
  | f :: fs, y => if y * f = 0 then y else productUntilZero fs (y * f)

/-- The first `n` factors, where no product on the way is zero: they are all factors, or the
next one makes the product zero. -/
structure IsPrefixBeforeZero (fs : List R) (y : R) (n : ℕ) : Prop where
  le : n ≤ fs.length
  ne : ∀ m, 0 < m → m ≤ n → y * (fs.take m).prod ≠ 0
  stop : n = fs.length ∨ n < fs.length ∧ y * (fs.take (n + 1)).prod = 0

theorem productUntilZero_spec [DecidableEq R] (fs : List R) (y : R) :
    ∃ n, IsPrefixBeforeZero fs y n ∧ productUntilZero fs y = y * (fs.take n).prod := by
  induction fs generalizing y with
  | nil => exact ⟨0, ⟨le_rfl, fun m hm hm0 => by omega, .inl rfl⟩, by simp [productUntilZero]⟩
  | cons f fs ih =>
    rw [productUntilZero]
    by_cases hzero : y * f = 0
    · refine ⟨0, ⟨by simp, fun m hm hm0 => by omega, .inr ⟨by simp, by simpa using hzero⟩⟩, ?_⟩
      rw [if_pos hzero, take_zero, List.prod_nil, mul_one]
    · have hassoc : ∀ m, y * f * (fs.take m).prod = y * ((f :: fs).take (m + 1)).prod := by
        intro m
        rw [List.take_succ_cons, prod_cons, mul_assoc]
      obtain ⟨n, hn, hvalue⟩ := ih (y * f)
      refine ⟨n + 1, ⟨by simpa using hn.le, fun m hm hmn => ?_, ?_⟩, by
        rw [if_neg hzero, hvalue, hassoc]⟩
      · cases m with
        | zero => omega
        | succ m =>
          rw [← hassoc]
          cases m with
          | zero => simpa using hzero
          | succ m => exact hn.ne (m + 1) (by omega) (by omega)
      · rw [← hassoc, length_cons]
        exact hn.stop.imp (by omega) fun h => ⟨by omega, h.2⟩

/-- The product of the differences that a block of codes stands for, for each block. -/
def blockFactors (x : R) (plan : Stage2Plan) : ℕ → List (List ℕ) → List R
  | _, [] => []
  | i, b :: bs =>
    (b.map fun c => lucasV x (i * plan.d) - lucasV x (plan.S1.getD c 0)).prod ::
      blockFactors x plan (i + 1) bs

end Products

section Encoded

variable {R : Type*} [CommRing R] {x : R} {plan : Stage2Plan}

theorem decodePairs_block (S1 : List ℕ) (i : ℕ) {b : List ℕ} (hb : ∀ c ∈ b, c < nextD)
    (cs : List ℕ) :
    decodePairs S1 i (b ++ cs) = (b.map fun c => (i, S1.getD c 0)) ++ decodePairs S1 i cs := by
  induction b with
  | nil => rfl
  | cons e b ih =>
    have he := hb e (by simp)
    have hpass : e ≠ nextPass := (he.trans (by decide : nextD < nextPass)).ne
    rw [List.cons_append, decodePairs, if_neg hpass, if_neg he.ne,
      ih fun c hc => hb c (by simp [hc])]
    rfl

theorem blockFactors_prod (i : ℕ) {bs : List (List ℕ)} (hbs : ∀ b ∈ bs, ∀ c ∈ b, c < nextD)
    (rest : List ℕ) :
    (blockFactors x plan i bs).prod
      = ((decodePairs plan.S1 i ([nextD].intercalate bs ++ nextPass :: rest)).map fun p =>
          lucasV x (p.1 * plan.d) - lucasV x p.2).prod := by
  induction bs generalizing i with
  | nil => simp [blockFactors, decodePairs]
  | cons b bs ih =>
    have hb := hbs b (by simp)
    have ih := ih (i + 1) fun b' hb' => hbs b' (by simp [hb'])
    rw [blockFactors, prod_cons, ih]
    cases bs with
    | nil =>
      rw [List.intercalate_singleton, decodePairs_block _ _ hb, List.map_append, List.prod_append,
        map_map]
      simp [decodePairs, Function.comp_def]
    | cons b' bs =>
      rw [intercalate_cons_cons, append_assoc, append_assoc,
        decodePairs_block _ _ hb, List.map_append, List.prod_append, map_map]
      rw [List.singleton_append, decodePairs, if_neg (by decide), if_pos rfl]
      rfl

theorem mem_of_mem_splitOn {a : ℕ} {codes : List ℕ} {b : List ℕ} (hb : b ∈ codes.splitOn a) {c : ℕ}
    (hc : c ∈ b) : c ∈ codes ∧ c ≠ a := by
  induction codes generalizing b with
  | nil =>
    rw [List.splitOn_nil, List.mem_singleton] at hb
    simp [hb] at hc
  | cons e codes ih =>
    have ih' : ∀ {b}, b ∈ codes.splitOn a → c ∈ b → c ∈ e :: codes ∧ c ≠ a := fun hb hc =>
      ⟨List.mem_cons_of_mem _ (ih hb hc).1, (ih hb hc).2⟩
    rw [List.splitOn_cons_eq_if_modifyHead] at hb
    split_ifs at hb with hea
    · rcases mem_cons.mp hb with rfl | hb
      · simp at hc
      · exact ih' hb hc
    · -- the code is put in front of the first block
      obtain ⟨b₀, bs, hsplit⟩ := List.exists_cons_of_ne_nil (List.splitOn_ne_nil a codes)
      rw [hsplit, List.modifyHead_cons] at hb
      rcases mem_cons.mp hb with rfl | hb
      · rcases mem_cons.mp hc with rfl | hc
        · exact ⟨by simp, by simpa using hea⟩
        · exact ih' (by simp [hsplit]) hc
      · exact ih' (by simp [hsplit, hb]) hc

theorem length_splitOn (a : ℕ) (codes : List ℕ) :
    (codes.splitOn a).length = codes.count a + 1 := by
  induction codes with
  | nil => simp
  | cons e codes ih =>
    rw [List.splitOn_cons_eq_if_modifyHead, List.count_cons]
    split_ifs with hea
    · rw [length_cons, ih]
    · rw [List.length_modifyHead, ih, add_zero]

theorem length_splitOn_le (a : ℕ) (codes : List ℕ) :
    (codes.splitOn a).length ≤ codes.length + 1 := by
  rw [length_splitOn]
  exact Nat.succ_le_succ List.count_le_length

end Encoded

/-! ## The loop over the codes -/

section Codes

variable {ops : RingOps ρ} {is0 : ρ → Bool} {R : Type*} [CommRing R] {Rep : R → ρ → Prop}
  {x y : R} {plan : Stage2Plan} {Xj : List ρ} {Xd Xid a : ρ} {st : Pp1Stage2State ρ}

theorem readAt_of_drop {α : Type} {xs : List α} {l : ℕ} {c : α} {cs : List α}
    (h : xs.drop l = c :: cs) : readAt xs l = pure c ∧ xs.drop (l + 1) = cs := by
  have hread : xs[l]? = some c := by rw [← List.head?_drop, h, List.head?_cons]
  refine ⟨by rw [readAt, hread], ?_⟩
  rw [List.drop_add_one_eq_tail_drop, h, List.tail_cons]

theorem IsTermTable.readAt (hXj : IsTermTable Rep x plan.S1 Xj) {c : ℕ}
    (hc : c < plan.S1.length) :
    ∃ b, readAt Xj c = pure b ∧ Rep (lucasV x (plan.S1.getD c 0)) b := by
  have hlen : c < Xj.length := hXj.length_eq ▸ hc
  refine ⟨Xj[c], by rw [CadoNfs.readAt, List.getElem?_eq_getElem hlen], ?_⟩
  rw [List.getD_eq_getElem _ _ hc]
  exact hXj.get hc hlen

theorem nextIndex_of_lt {l : ℕ} (h : l + 1 < 2 ^ 32) : nextIndex l = l + 1 :=
  Nat.mod_eq_of_lt h

theorem pp1Block_product (h : ops.Models Rep) {row : R} {col : ℕ → R} (hXid : Rep row Xid)
    {b : List ℕ} (hb : ∀ c ∈ b, c < nextD ∧ ∃ u, readAt Xj c = pure u ∧ Rep (col c) u)
    {l c fuel : ℕ} {cs : List ℕ} (hcodes : plan.pairs.drop l = b ++ c :: cs)
    (hc : ¬(c < nextD ∧ c < nextPass)) (hfit : l + b.length < 2 ^ 32) (ha : Rep y a)
    (hfuel : b.length < fuel) :
    ∃ a', pp1Block ops plan Xj Xid fuel l a = pure (l + b.length, a') ∧
      Rep (y * (b.map fun c => row - col c).prod) a' := by
  induction b generalizing l a y fuel with
  | nil =>
    obtain ⟨fuel, rfl⟩ := Nat.exists_eq_add_one_of_ne_zero (Nat.ne_of_gt (by simpa using hfuel))
    refine ⟨a, ?_, by simpa using ha⟩
    rw [pp1Block, (readAt_of_drop hcodes).1, pure_bind, if_neg hc]
    rfl
  | cons e b ih =>
    obtain ⟨fuel, rfl⟩ := Nat.exists_eq_add_one_of_ne_zero (by omega : fuel ≠ 0)
    rw [length_cons] at hfit hfuel
    obtain ⟨hread, hdrop⟩ := readAt_of_drop (by simpa using hcodes)
    obtain ⟨heD, u, hu, hures⟩ := hb e (by simp)
    obtain ⟨a₁, ha₁, ha₁res⟩ := h.mul ha (h.sub hXid hures)
    obtain ⟨a', ha', hres⟩ := ih (fun c hc => hb c (by simp [hc])) hdrop (by omega) ha₁res
      (by omega : b.length < fuel)
    refine ⟨a', ?_, by rwa [List.map_cons, prod_cons, ← mul_assoc]⟩
    have hpass : e < nextD ∧ e < nextPass := ⟨heD, heD.trans (by decide)⟩
    simp [pp1Block, hread, if_pos hpass, hu, ha₁, nextIndex_of_lt (by omega : l + 1 < 2 ^ 32), ha',
      add_comm b.length, add_assoc]

theorem pp1Block_spec (h : ops.Models Rep) (hXj : IsTermTable Rep x plan.S1 Xj) {i : ℕ}
    (hXid : Rep (lucasV x (i * plan.d)) Xid) {b : List ℕ}
    (hb : ∀ c ∈ b, c < nextD ∧ c < plan.S1.length) {l c fuel : ℕ} {cs : List ℕ}
    (hcodes : plan.pairs.drop l = b ++ c :: cs) (hc : ¬(c < nextD ∧ c < nextPass))
    (hfit : l + b.length < 2 ^ 32) (ha : Rep y a) (hfuel : b.length < fuel) :
    ∃ a', pp1Block ops plan Xj Xid fuel l a = pure (l + b.length, a') ∧
      Rep (y * (b.map fun c => lucasV x (i * plan.d) - lucasV x (plan.S1.getD c 0)).prod) a' :=
  pp1Block_product h hXid (fun c hc => ⟨(hb c hc).1, hXj.readAt (hb c hc).2⟩) hcodes hc hfit ha
    hfuel

/-- The loop is at the row `i` with the product `y`, the blocks `bs` are left and
`rest` follows after them. -/
structure Pp1Stage2Inv (Rep : R → ρ → Prop) (x : R) (plan : Stage2Plan) (rest : List ℕ) (i : ℕ)
    (y : R) (bs : List (List ℕ)) (st : Pp1Stage2State ρ) : Prop where
  Xid : Rep (lucasV x (i * plan.d)) st.Xid
  Xid1 : Rep (lucasV x ((i + 1) * plan.d)) st.Xid1
  a : Rep y st.a
  a_bk : Rep y st.a_bk
  row : i = plan.i0 + (plan.pairs.take st.l).count nextD
  codes : plan.pairs.drop st.l = [nextD].intercalate bs ++ nextPass :: rest
  fits : st.l + ([nextD].intercalate bs).length < 2 ^ 32
  valid : ∀ b ∈ bs, ∀ c ∈ b, c < nextD ∧ c < plan.S1.length

variable {rest : List ℕ} {i : ℕ} {b : List ℕ} {bs : List (List ℕ)}

theorem pp1Stage2Step_end (hbs : [nextD].intercalate bs = [])
    (hst : Pp1Stage2Inv Rep x plan rest i y bs st) :
    pp1Stage2Step ops is0 plan Xj Xd st = pure (.inr st.a) := by
  have hcodes := hst.codes
  rw [hbs, nil_append] at hcodes
  rw [pp1Stage2Step, (readAt_of_drop hcodes).1, pure_bind, if_pos rfl]

theorem count_take_block {pairs tail : List ℕ} {l : ℕ} (hb : ∀ c ∈ b, c < nextD)
    (hcodes : pairs.drop l = b ++ tail) :
    (pairs.take (l + b.length)).count nextD = (pairs.take l).count nextD ∧
      pairs.drop (l + b.length) = tail := by
  have hnone : b.count nextD = 0 :=
    List.count_eq_zero.mpr fun hmem => absurd (hb _ hmem) (Nat.lt_irrefl _)
  refine ⟨?_, ?_⟩
  · rw [List.take_add, hcodes, List.take_left, List.count_append, hnone, add_zero]
  · rw [← List.drop_drop, hcodes, List.drop_left]

theorem codes_after_block (b : List ℕ) (bs : List (List ℕ)) (rest : List ℕ) :
    ∃ c cs, [nextD].intercalate (b :: bs) ++ nextPass :: rest = b ++ c :: cs ∧
      b.length ≤ ([nextD].intercalate (b :: bs)).length ∧
      (bs = [] ∧ c = nextPass ∧ cs = rest ∨
        bs ≠ [] ∧ c = nextD ∧ cs = [nextD].intercalate bs ++ nextPass :: rest ∧
          ([nextD].intercalate (b :: bs)).length
            = b.length + 1 + ([nextD].intercalate bs).length) := by
  cases bs with
  | nil =>
    rw [List.intercalate_singleton]
    exact ⟨nextPass, rest, rfl, le_rfl, .inl ⟨rfl, rfl, rfl⟩⟩
  | cons b' bs =>
    refine ⟨nextD, [nextD].intercalate (b' :: bs) ++ nextPass :: rest, ?_, ?_,
      .inr ⟨by simp, rfl, rfl, ?_⟩⟩
    · rw [intercalate_cons_cons, append_assoc, append_assoc]
      rfl
    · rw [intercalate_cons_cons, append_assoc, length_append]
      exact Nat.le_add_right _ _
    · rw [intercalate_cons_cons, length_append, length_append, List.length_singleton]

theorem eq_of_intercalate_eq_nil {bs : List (List ℕ)} (h : [nextD].intercalate bs = []) :
    bs = [] ∨ bs = [[]] := by
  cases bs with
  | nil => exact .inl rfl
  | cons b bs =>
    cases bs with
    | nil => exact .inr (by rw [List.intercalate_singleton.symm.trans h])
    | cons b' bs => simp [intercalate_cons_cons] at h

/-- The codes from `l` on are a block and then `c`, and are not at their end. -/
structure AtBlock (pairs : List ℕ) (l : ℕ) (b : List ℕ) (bs : List (List ℕ)) (rest : List ℕ)
    (c₀ c : ℕ) (cs : List ℕ) : Prop where
  head : readAt pairs l = pure c₀
  head_ne : c₀ ≠ nextPass
  codes : pairs.drop l = b ++ c :: cs
  stop : ¬(c < nextD ∧ c < nextPass)
  length_lt : b.length < pairs.length + 1
  length_le : b.length ≤ ([nextD].intercalate (b :: bs)).length
  after : pairs.drop (l + b.length) = c :: cs
  next : bs = [] ∧ c = nextPass ∧ cs = rest ∨
    bs ≠ [] ∧ c = nextD ∧ cs = [nextD].intercalate bs ++ nextPass :: rest ∧
      ([nextD].intercalate (b :: bs)).length = b.length + 1 + ([nextD].intercalate bs).length

theorem exists_atBlock {pairs : List ℕ} {l : ℕ}
    (hcodes : pairs.drop l = [nextD].intercalate (b :: bs) ++ nextPass :: rest)
    (hne : [nextD].intercalate (b :: bs) ≠ []) (hb : ∀ c ∈ b, c < nextD) :
    ∃ c₀ c cs, AtBlock pairs l b bs rest c₀ c cs := by
  obtain ⟨c, cs, hsplit, hlen, hnext⟩ := codes_after_block b bs rest
  rw [hsplit] at hcodes
  have hlength : b.length < pairs.length + 1 := by
    have := congrArg List.length hcodes
    rw [List.length_drop, length_append] at this
    omega
  have hc : ¬(c < nextD ∧ c < nextPass) := by
    rcases hnext with ⟨-, rfl, -⟩ | ⟨-, rfl, -⟩ <;> decide
  obtain ⟨c₀, cs₀, hhead, hc₀⟩ : ∃ c₀ cs₀, pairs.drop l = c₀ :: cs₀ ∧ c₀ ≠ nextPass := by
    cases b with
    | nil =>
      rcases hnext with ⟨rfl, -, -⟩ | ⟨-, rfl, -⟩
      · exact absurd List.intercalate_singleton hne
      · exact ⟨nextD, cs, hcodes, by decide⟩
    | cons e b =>
      have he := hb e (by simp)
      exact ⟨e, b ++ c :: cs, hcodes, (he.trans (by decide : nextD < nextPass)).ne⟩
  exact ⟨c₀, c, cs, (readAt_of_drop hhead).1, hc₀, hcodes, hc, hlength, hlen,
    (count_take_block hb hcodes).2, hnext⟩

/-- One turn of the loop: the product of the next block is zero and the loop ends, or the product
grows by it. -/
theorem pp1Stage2Step_spec (h : ops.Models Rep) (his0 : ∀ y a, Rep y a → (is0 a = true ↔ y = 0))
    (hXj : IsTermTable Rep x plan.S1 Xj) (hXd : Rep (lucasV x plan.d) Xd)
    (hne : [nextD].intercalate (b :: bs) ≠ [])
    (hst : Pp1Stage2Inv Rep x plan rest i y (b :: bs) st) {f : R}
    (hf : f = (b.map fun c => lucasV x (i * plan.d) - lucasV x (plan.S1.getD c 0)).prod) :
    (y * f = 0 ∧ pp1Stage2Step ops is0 plan Xj Xd st = pure (.inr st.a_bk)) ∨
      y * f ≠ 0 ∧ ∃ st' i', pp1Stage2Step ops is0 plan Xj Xd st = pure (.inl st') ∧
        Pp1Stage2Inv Rep x plan rest i' (y * f) bs st' ∧ (bs ≠ [] → i' = i + 1) := by
  have hb := hst.valid b (by simp)
  have hfits := hst.fits
  have hvalid : ∀ b ∈ bs, ∀ c ∈ b, c < nextD ∧ c < plan.S1.length :=
    fun b hb => hst.valid b (by simp [hb])
  have hbD : ∀ c ∈ b, c < nextD := fun c hc => (hb c hc).1
  obtain ⟨c₀, c, cs, hat⟩ := exists_atBlock hst.codes hne hbD
  have hlen := hat.length_le
  obtain ⟨a', ha', hres⟩ := pp1Block_spec h hXj hst.Xid hb hat.codes hat.stop (by omega) hst.a
    hat.length_lt
  rw [← hf] at hres
  have hcount := (count_take_block hbD hat.codes).1
  obtain ⟨hread, hdrop'⟩ := readAt_of_drop hat.after
  simp only [pp1Stage2Step, hat.head, if_neg hat.head_ne, ha', hread, pure_bind]
  by_cases hzero : y * f = 0
  · exact .inl ⟨hzero, by rw [if_pos ((his0 _ _ hres).mpr hzero)]⟩
  refine .inr ⟨hzero, ?_⟩
  rw [if_neg fun htrue => hzero ((his0 _ _ hres).mp htrue)]
  have hdrop := hat.after
  rcases hat.next with ⟨rfl, rfl, rfl⟩ | ⟨hbs, rfl, rfl, hnextlen⟩
  · refine ⟨⟨st.Xid, st.Xid1, a', a', st.l + b.length⟩, i, by rw [if_neg (by decide)], ?_,
      fun hbs => absurd rfl hbs⟩
    exact ⟨hst.Xid, hst.Xid1, hres, hres, by rw [hcount]; exact hst.row, hdrop,
      by simpa using (by omega : st.l + b.length < 2 ^ 32), hvalid⟩
  · obtain ⟨t, ht, htres⟩ := pp1AddRes_term h hst.Xid1 hXd hst.Xid (Nat.succ_mul i plan.d).symm
    rw [← Nat.succ_mul] at htres
    have hl : nextIndex (st.l + b.length) = st.l + b.length + 1 := nextIndex_of_lt (by omega)
    refine ⟨⟨st.Xid1, t, a', a', st.l + b.length + 1⟩, i + 1, ?_, ?_, fun _ => rfl⟩
    · rw [if_pos rfl, ht, pure_bind, hl]
    · have hfits' : st.l + b.length + 1 + ([nextD].intercalate bs).length < 2 ^ 32 := by omega
      refine ⟨hst.Xid1, htres, hres, hres, ?_, hdrop', hfits', hvalid⟩
      have hget : plan.pairs[st.l + b.length]? = some nextD := by
        rw [← List.head?_drop, hdrop, List.head?_cons]
      rw [List.take_add_one, hget, List.count_append, hcount, hst.row]
      simp [add_assoc]

/-- The loop returns the product up to the first block that makes it zero. -/
theorem pp1Stage2Loop_spec [DecidableEq R] (h : ops.Models Rep)
    (his0 : ∀ y a, Rep y a → (is0 a = true ↔ y = 0)) (hXj : IsTermTable Rep x plan.S1 Xj)
    (hXd : Rep (lucasV x plan.d) Xd) {fuel : ℕ} (hst : Pp1Stage2Inv Rep x plan rest i y bs st)
    (hfuel : bs.length < fuel) :
    ∃ r, pp1Stage2Loop ops is0 plan Xj Xd fuel st = pure r ∧
      Rep (productUntilZero (blockFactors x plan i bs) y) r := by
  induction fuel generalizing i y bs st with
  | zero => omega
  | succ fuel ih =>
    rw [pp1Stage2Loop]
    by_cases hend : [nextD].intercalate bs = []
    · refine ⟨st.a, by rw [pp1Stage2Step_end hend hst, pure_bind], ?_⟩
      -- nothing is left, or one block without codes
      suffices hvalue : productUntilZero (blockFactors x plan i bs) y = y by
        rw [hvalue]
        exact hst.a
      rcases eq_of_intercalate_eq_nil hend with rfl | rfl
      · rfl
      · simp [blockFactors, productUntilZero]
    · cases bs with
      | nil => exact absurd List.intercalate_nil hend
      | cons b bs =>
        rw [blockFactors, productUntilZero]
        rcases pp1Stage2Step_spec h his0 hXj hXd hend hst rfl with
          ⟨hzero, hstep⟩ | ⟨hne, st', i', hstep, hst', hi'⟩
        · rw [if_pos hzero, hstep, pure_bind]
          exact ⟨st.a_bk, rfl, hst.a_bk⟩
        · rw [if_neg hne, hstep, pure_bind]
          have hrest := ih hst' (Nat.lt_of_succ_lt_succ hfuel)
          cases bs with
          | nil => exact hrest
          | cons b' bs => rwa [hi' (by simp)] at hrest

theorem pp1Stage2Reaches_inv (h : ops.Models Rep)
    (his0 : ∀ y a, Rep y a → (is0 a = true ↔ y = 0)) (hXj : IsTermTable Rep x plan.S1 Xj)
    (hXd : Rep (lucasV x plan.d) Xd) {start : Pp1Stage2State ρ}
    (hstart : Pp1Stage2Inv Rep x plan rest i y bs start)
    (hreach : Pp1Stage2Reaches ops is0 plan Xj Xd start st) :
    ∃ i y bs, Pp1Stage2Inv Rep x plan rest i y bs st := by
  induction hreach with
  | start => exact ⟨i, y, bs, hstart⟩
  | step _ hstep ih =>
    obtain ⟨i, y, bs, hst⟩ := ih
    by_cases hend : [nextD].intercalate bs = []
    · rw [pp1Stage2Step_end hend hst] at hstep
      injection hstep with hstep
      exact absurd hstep nofun
    · cases bs with
      | nil => exact absurd List.intercalate_nil hend
      | cons b bs =>
        rcases pp1Stage2Step_spec h his0 hXj hXd hend hst rfl with
          ⟨-, hstop⟩ | ⟨-, st', i', hnext, hst', -⟩
        · rw [hstop] at hstep
          injection hstep with hstep
          exact absurd hstep nofun
        · rw [hnext] at hstep
          injection hstep with hstep
          injection hstep with hstep
          exact ⟨i', _, bs, hstep ▸ hst'⟩

end Codes

/-! ## Stage 2 -/

section Stage2

/-- `modredcul_is0`. -/
def modredculIs0 {w : ℕ} (a : BitVec w) : Bool :=
  a == 0#w

/-- `modredc*_is0`. -/
def modredcIs0 {w : ℕ} (a : TwoWord w) : Bool :=
  a.lo == 0#w && a.hi == 0#w

variable {build : UlarithBuild} {ops : RingOps ρ} {is0 : ρ → Bool} {R : Type*} [CommRing R]
  {Rep : R → ρ → Prop} {plan : Stage2Plan} {w : ℕ}

/-- What `pp1_stage2` does for a plan whose codes before `NEXT_PASS` are `codes`. -/
structure Pp1Stage2Correct (build : UlarithBuild) (ops : RingOps ρ) (is0 : ρ → Bool)
    (Rep : R → ρ → Prop) (plan : Stage2Plan) (w : ℕ) (codes : List ℕ) (x : R) (X two : ρ)
    (Xj : List ρ) (Xd : ρ) (start : Pp1Stage2State ρ) (r : ρ) : Prop where
  table : pp1Stage2Table build ops plan w X two = pure (Xj, Xd)
  begins : pp1Stage2Start build ops plan w Xd = pure start
  returns : pp1Stage2 build ops is0 plan w X two = pure r
  /-- The table holds the terms at the entries of `S1`. -/
  terms : plan.s1 = Xj.length ∧ ∀ k (hk : k < plan.S1.length) (hk' : k < Xj.length),
    Rep (lucasV x plan.S1[k]) Xj[k]
  /-- At every step the row is the first one and the `NEXT_D` before. -/
  row : ∀ st, Pp1Stage2Reaches ops is0 plan Xj Xd start st →
    ∃ i, i = plan.i0 + (plan.pairs.take st.l).count nextD ∧
      Rep (lucasV x (i * plan.d)) st.Xid ∧ Rep (lucasV x ((i + 1) * plan.d)) st.Xid1
  /-- All blocks together are the pairs of the plan. -/
  all : (blockFactors x plan plan.i0 (codes.splitOn nextD)).prod
    = (plan.encoded.map fun p => lucasV x (p.1 * plan.d) - lucasV x p.2).prod
  /-- The result is the product of all blocks, or of those before the first product that is
  zero. -/
  result : ∃ n, IsPrefixBeforeZero (blockFactors x plan plan.i0 (codes.splitOn nextD)) 1 n ∧
    Rep ((blockFactors x plan plan.i0 (codes.splitOn nextD)).take n).prod r

theorem pp1Stage2Start_spec (build : UlarithBuild) (h : ops.Models Rep) {x : R} {Xd : ρ}
    (hXd : Rep (lucasV x plan.d) Xd) (hw : 32 ≤ w) (hi0 : plan.i0 < 2 ^ 32) :
    ∃ start, pp1Stage2Start build ops plan w Xd = pure start ∧
      Rep (lucasV x (plan.i0 * plan.d)) start.Xid ∧
      Rep (lucasV x ((plan.i0 + 1) % 2 ^ 32 * plan.d)) start.Xid1 ∧
      Rep 1 start.a ∧ Rep 1 start.a_bk ∧ start.l = 0 := by
  have hpow : 2 ^ 32 ≤ 2 ^ w := Nat.pow_le_pow_right (by omega) hw
  obtain ⟨Xid, hXid, hid⟩ := modVUl_spec build h hXd (ofNat w plan.i0)
  obtain ⟨Xid1, hXid1, hid1⟩ := modVUl_spec build h hXd (ofNat w ((plan.i0 + 1) % 2 ^ 32))
  rw [toNat_const (by omega), lucasV_comp, mul_comm] at hid hid1
  refine ⟨⟨Xid, Xid1, ops.one, ops.one, 0⟩, ?_, hid, hid1, h.one, h.one, rfl⟩
  simp only [pp1Stage2Start, hXid, hXid1, pure_bind]

/-- Stage 2 of P+1 over any ring that the operations model. -/
theorem pp1Stage2_spec [DecidableEq R] (build : UlarithBuild) (h : ops.Models Rep)
    (his0 : ∀ y a, Rep y a → (is0 a = true ↔ y = 0)) (hw : 32 ≤ w) (hplan : plan.ListsS1)
    (hi0 : plan.i0 + 1 < 2 ^ 32) {codes rest : List ℕ}
    (hcodes : plan.pairs = codes ++ nextPass :: rest) (hlength : codes.length < 2 ^ 32)
    (hvalid : ∀ c ∈ codes, c = nextD ∨ c < nextD ∧ c < plan.s1) {x : R} {X two : ρ}
    (hX : Rep x X) (htwo : Rep 2 two) :
    ∃ Xj Xd start r, Pp1Stage2Correct build ops is0 Rep plan w codes x X two Xj Xd start r := by
  obtain ⟨Xj, Xd, htable, hXj, hXd⟩ := pp1Stage2Table_spec build h hplan hw hX htwo
  obtain ⟨start, hstart, hid, hid1, ha, ha_bk, hl⟩ :=
    pp1Stage2Start_spec build h hXd hw (by omega)
  rw [Nat.mod_eq_of_lt hi0] at hid1
  have hblocks : ∀ b ∈ codes.splitOn nextD, ∀ c ∈ b, c < nextD ∧ c < plan.S1.length := by
    intro b hb c hc
    obtain ⟨hmem, hne⟩ := mem_of_mem_splitOn hb hc
    rw [← hplan.s1_eq]
    exact (hvalid c hmem).resolve_left hne
  have hinv : Pp1Stage2Inv Rep x plan rest plan.i0 1 (codes.splitOn nextD) start := by
    refine ⟨hid, hid1, ha, ha_bk, ?_, ?_, ?_, hblocks⟩
    · rw [hl, take_zero, List.count_nil, add_zero]
    · rw [hl, List.drop_zero, hcodes, List.intercalate_splitOn]
    · rwa [hl, zero_add, List.intercalate_splitOn]
  have hfuel : (codes.splitOn nextD).length < plan.pairs.length + 1 := by
    have hle := length_splitOn_le nextD codes
    rw [hcodes, length_append, length_cons]
    omega
  obtain ⟨r, hr, hres⟩ := pp1Stage2Loop_spec h his0 hXj hXd hinv hfuel
  obtain ⟨n, hn, hvalue⟩ := productUntilZero_spec
    (blockFactors x plan plan.i0 (codes.splitOn nextD)) (1 : R)
  rw [hvalue, one_mul] at hres
  refine ⟨Xj, Xd, start, r, htable, hstart, ?_, ⟨?_, fun k hk hk' => hXj.get hk hk'⟩, ?_, ?_,
    n, hn, hres⟩
  · simp [pp1Stage2, htable, hstart, hr]
  · rw [hplan.s1_eq, hXj.length_eq]
  · intro st hreach
    obtain ⟨i, y, bs, hst⟩ := pp1Stage2Reaches_inv h his0 hXj hXd hinv hreach
    exact ⟨i, hst.row, hst.Xid, hst.Xid1⟩
  · rw [blockFactors_prod plan.i0 (fun b hb c hc => (hblocks b hb c hc).1) rest,
      List.intercalate_splitOn, ← hcodes]
    rfl

/-- `pp1_stage2` for the headers that it is compiled for. -/
theorem pp1Stage2_correct (build : UlarithBuild) (hw : w = 32 ∨ w = 64) (hplan : plan.ListsS1)
    (hi0 : plan.i0 + 1 < 2 ^ 32) {codes rest : List ℕ}
    (hcodes : plan.pairs = codes ++ nextPass :: rest) (hlength : codes.length < 2 ^ 32)
    (hvalid : ∀ c ∈ codes, c = nextD ∨ c < nextD ∧ c < plan.s1) :
    (∀ s : BitVec w, s.toNat % 2 = 1 → ∃ m, modredculInitmodUl s = pure m ∧ ∀ x X two,
      MontgomeryResidueUl s.toNat x X → MontgomeryResidueUl s.toNat 2 two →
      ∃ Xj Xd start r, Pp1Stage2Correct build (modredculOps build m) modredculIs0
        (MontgomeryResidueUl s.toNat) plan w codes x X two Xj Xd start r) ∧
    ∀ (arith : RedcArith) (s : TwoWord w), s.value % 2 = 1 → 2 ^ w ≤ s.value →
      s.value < 2 ^ arith.bits w → ∃ m, modInitmodUls arith build s = pure m ∧ ∀ x X two,
        MontgomeryResidue s.value x X → MontgomeryResidue s.value 2 two →
        ∃ Xj Xd start r, Pp1Stage2Correct build (modredcOps arith build m) modredcIs0
          (MontgomeryResidue s.value) plan w codes x X two Xj Xd start r := by
  have hpos : 0 < w := by omega
  have heven : w % 2 = 0 := by omega
  refine ⟨fun s hodd => ?_, fun arith s hodd hlow hhigh => ?_⟩
  · obtain ⟨m, hinit, rfl, hm⟩ := modredculInitmodUl_spec hw hodd
    refine ⟨m, hinit, fun x X two hX htwo => ?_⟩
    have hmodels := modredculOps_models build hpos heven hm
    have hzero : MontgomeryResidueUl m.m.toNat 0 (0#w) := ⟨by simpa using hm.pos, by simp⟩
    exact pp1Stage2_spec build hmodels
      (fun y a ha => beq_iff_eq.trans (hmodels.eq_iff ha hzero)) (by omega) hplan hi0 hcodes
      hlength hvalid hX htwo
  · obtain ⟨m, hinit, rfl, hm⟩ := modInitmodUls_spec build hw hodd hlow hhigh
    refine ⟨m, hinit, fun x X two hX htwo => ?_⟩
    have hmodels := modredcOps_models build (by omega) heven hm
    have hvalue : (⟨0#w, 0#w⟩ : TwoWord w).value = 0 := by simp [TwoWord.value]
    have hzero : MontgomeryResidue m.m.value 0 ⟨0#w, 0#w⟩ :=
      ⟨by rw [hvalue]; exact hm.pos, by rw [hvalue, Nat.cast_zero, zero_mul]⟩
    exact pp1Stage2_spec build hmodels
      (fun y a ha => (modredcEqual_iff a _).trans (hmodels.eq_iff ha hzero)) (by omega) hplan hi0
      hcodes hlength hvalid hX htwo

/-- A plan with the rows 1 and 2. -/
def pp1Plan12 : Stage2Plan :=
  { B2 := 30, d := 12, s1 := 2, i0 := 1, i1 := 3, S1 := [1, 5], pairs := [0, 254, 1, 255] }

theorem pp1Plan12_listsS1 : pp1Plan12.ListsS1 :=
  .of_small (by decide) (by decide) rfl (by decide) (by decide) (by decide)

theorem pp1Stage2_correct_plan12 : ∃ m, modredculInitmodUl 17#64 = pure m ∧ ∀ x X two,
    MontgomeryResidueUl 17 x X → MontgomeryResidueUl 17 2 two →
    ∃ Xj Xd start r, Pp1Stage2Correct .x86 (modredculOps .x86 m) modredculIs0
      (MontgomeryResidueUl 17) pp1Plan12 64 [0, 254, 1] x X two Xj Xd start r :=
  (pp1Stage2_correct .x86 (.inr rfl) pp1Plan12_listsS1 (by decide)
    (show pp1Plan12.pairs = [0, 254, 1] ++ nextPass :: [] from rfl) (by decide) (by decide)).1
    17#64 (by decide)

/-- A plan whose first row is the largest `unsigned int`. -/
def pp1PlanWrap : Stage2Plan :=
  { B2 := 0, d := 6, s1 := 1, i0 := 2 ^ 32 - 1, i1 := 2 ^ 32 - 1, S1 := [1],
    pairs := [254, 0, 255] }

theorem pp1PlanWrap_listsS1 : pp1PlanWrap.ListsS1 :=
  .of_small (by decide) (by decide) rfl (by decide) (by decide) (by decide)

theorem lucasV_neg_one_two_pow {S : Type*} [CommRing S] (n : ℕ) : lucasV (-1 : S) (2 ^ n) = -1 := by
  induction n with
  | zero => rfl
  | succ n ih =>
    rw [pow_succ', ← lucasV_mul_self, ih]
    norm_num

/-- Where `i0 + 1` wraps, the second value is `V_0`. -/
theorem not_pp1Stage2_wrap : pp1PlanWrap.ListsS1 ∧ pp1PlanWrap.i0 < 2 ^ 32 ∧
    pp1PlanWrap.pairs = [254, 0] ++ nextPass :: [] ∧
    ∃ m, modredculInitmodUl 17#64 = pure m ∧ ∃ x X two, MontgomeryResidueUl 17 x X ∧
      MontgomeryResidueUl 17 2 two ∧ ¬∃ Xj Xd start r, Pp1Stage2Correct .x86
        (modredculOps .x86 m) modredculIs0 (MontgomeryResidueUl 17) pp1PlanWrap 64 [254, 0]
        x X two Xj Xd start r := by
  refine ⟨pp1PlanWrap_listsS1, by decide, rfl, ?_⟩
  obtain ⟨m, hinit, hm17, hm⟩ := modredculInitmodUl_spec (.inr rfl) (s := 17#64) (by decide)
  have hmodels := modredculOps_models .x86 (by decide) (by decide) hm
  rw [hm17] at hmodels
  have hX : MontgomeryResidueUl 17 3 (3#64) := ⟨by decide, by decide⟩
  have htwo : MontgomeryResidueUl 17 2 (2#64) := ⟨by decide, by decide⟩
  refine ⟨m, hinit, 3, 3#64, 2#64, hX, htwo, ?_⟩
  rintro ⟨Xj, Xd, start, r, hcorrect⟩
  obtain ⟨Xj', Xd', htable, -, hXd⟩ := pp1Stage2Table_spec .x86 hmodels pp1PlanWrap_listsS1
    (by decide : 32 ≤ 64) hX htwo
  have hpair := hcorrect.table
  rw [htable] at hpair
  injection hpair with hpair
  rw [(Prod.mk.inj hpair).2] at hXd
  obtain ⟨start', hstart, -, hid1, -, -, hl⟩ := pp1Stage2Start_spec .x86 hmodels hXd
    (by decide : 32 ≤ 64) (by decide)
  have hbegins := hcorrect.begins
  rw [hstart] at hbegins
  injection hbegins with hbegins
  rw [hbegins] at hid1 hl
  obtain ⟨i, hi, -, hrow⟩ := hcorrect.row start .start
  rw [hl, take_zero, List.count_nil, add_zero] at hi
  have hindex : (i + 1) * pp1PlanWrap.d = 6 * 2 ^ 32 := by rw [hi]; rfl
  have hsix : lucasV (3 : ZMod 17) 6 = -1 := by decide
  rw [hindex, ← lucasV_comp, hsix, lucasV_neg_one_two_pow] at hrow
  have heq : (2 : ZMod 17) = -1 := (hmodels.eq_iff hid1 hrow).mp rfl
  exact absurd heq (by decide)

end Stage2

end CadoNfs
