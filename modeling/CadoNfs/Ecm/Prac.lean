import CadoNfs.Lib.Word
import CadoNfs.Ecm.Bytecoder

/-!
# Lucas chains of prac_bc.c

`prac_chain` reduces a pair of numbers by ten rules until they are equal, and
emits one literal for each rule.  Read from the end, the literals say how the pair was
built up; read from the start, they say how a multiplier is.

Main results:

- Theorem `pracRule_spec`: as long as nothing wraps, one rule undoes a step with
  the coefficients of its literal, and the pair gets smaller and stays positive.
- Theorem `pracLoop_spec`: the loop ends with the greatest common divisor twice,
  and its literals carry the invariant `d * a + e * b`.
- Theorem `pracChain_spec`: the chain of `n` ends with `d = e = 1` and
  its literals multiply by `n`.
-/

namespace CadoNfs

open WordArith
open BitVec (le_def ofNat toNat_mul toNat_ofNat toNat_sub_of_le)

/-! ## The chain -/

variable {w : ℕ}

/-- The variables `d` and `e` of `prac_chain`. -/
structure PracState (w : ℕ) where
  d : BitVec w
  e : BitVec w
  deriving DecidableEq, Repr

variable (state : PracState w)

/-- The exchange at the start of an iteration. -/
def pracSwap : PracState w × List Literal :=
  if state.d < state.e then (⟨state.e, state.d⟩, [0]) else (state, [])

/-- The conditions 1 to 9 of one iteration. -/
def pracRule : PracState w × Literal :=
  let d := state.d
  let e := state.e
  if 4#w * d ≤ 5#w * e ∧ (d + e) % 3#w = 0#w then
    let d := (2#w * d - e) / 3#w
    let e := (e - d) / 2#w
    (⟨d, e⟩, 1)
  else if 4#w * d ≤ 5#w * e ∧ (d - e) % 6#w = 0#w then
    (⟨(d - e) / 2#w, e⟩, 2)
  else if d ≤ 4#w * e then
    (⟨d - e, e⟩, 3)
  else if (d + e) % 2#w = 0#w then
    (⟨(d - e) / 2#w, e⟩, 4)
  else if d % 2#w = 0#w then
    (⟨d / 2#w, e⟩, 5)
  else if d % 3#w = 0#w then
    (⟨d / 3#w - e, e⟩, 6)
  else if (d + e) % 3#w = 0#w then
    (⟨(d - 2#w * e) / 3#w, e⟩, 7)
  else if (d - e) % 3#w = 0#w then
    (⟨(d - e) / 3#w, e⟩, 8)
  else
    (⟨d, e / 2#w⟩, 9)

/-- The loop of `prac_chain`: the last state and the literals. -/
def pracLoop (fuel : ℕ) (state : PracState w) : Option (PracState w × List Literal) :=
  match fuel with
  | 0 => none
  | fuel + 1 =>
    if state.d = state.e then
      some (state, [])
    else do
      let (state, swapped) := pracSwap state
      let (state, rule) := pracRule state
      let (last, literals) ← pracLoop fuel state
      some (last, swapped ++ rule :: literals)

/-- `prac_chain` for the starting value `r`, which the source rounds from
`n / v`: the state in which the loop ends, if it is entered, and the literals. -/
def pracChain (fuel : ℕ) (n r : BitVec w) :
    Option (Option (PracState w) × List Literal) :=
  if r ≥ n then
    some (none, [])
  else do
    let (last, literals) ← pracLoop fuel ⟨n - r, 2#w * r - n⟩
    some (some last, 10 :: literals ++ [11])

theorem pracLoop_unique {fuel fuel' : ℕ} {state : PracState w}
    {result result' : PracState w × List Literal} (h : pracLoop fuel state = some result)
    (h' : pracLoop fuel' state = some result') : result = result' := by
  induction fuel generalizing fuel' state result result' with
  | zero => cases h
  | succ fuel ih =>
    cases fuel' with
    | zero => cases h'
    | succ fuel' =>
      unfold pracLoop at h h'
      by_cases heq : state.d = state.e
      · rw [if_pos heq] at h h'
        exact Option.some.inj (h.symm.trans h')
      · rw [if_neg heq] at h h'
        obtain ⟨rest, hrest, hresult⟩ := Option.bind_eq_some_iff.mp h
        obtain ⟨rest', hrest', hresult'⟩ := Option.bind_eq_some_iff.mp h'
        rw [ih hrest hrest'] at hresult
        exact Option.some.inj (hresult.symm.trans hresult')

theorem pracChain_unique {fuel fuel' : ℕ} {n r : BitVec w}
    {result result' : Option (PracState w) × List Literal}
    (h : pracChain fuel n r = some result) (h' : pracChain fuel' n r = some result') :
    result = result' := by
  unfold pracChain at h h'
  by_cases hge : r ≥ n
  · rw [if_pos hge] at h h'
    exact Option.some.inj (h.symm.trans h')
  · rw [if_neg hge] at h h'
    obtain ⟨rest, hrest, hresult⟩ := Option.bind_eq_some_iff.mp h
    obtain ⟨rest', hrest', hresult'⟩ := Option.bind_eq_some_iff.mp h'
    rw [pracLoop_unique hrest hrest'] at hresult
    exact Option.some.inj (hresult.symm.trans hresult')

/-! ## Steps without wrapping -/

/-- No product that `prac_chain` compares wraps. -/
def PracFits (w d e : ℕ) : Prop :=
  4 * max d e < 2 ^ w ∧ 5 * min d e < 2 ^ w

instance (w d e : ℕ) : Decidable (PracFits w d e) := by
  unfold PracFits
  infer_instance

/-- The coefficients of a literal: the old pair in terms of the new one, row by row. -/
def litCoeffs (c : Literal) : (ℕ × ℕ) × (ℕ × ℕ) :=
  match c with
  | 0 => ((0, 1), (1, 0))
  | 1 => ((2, 1), (1, 2))
  | 2 => ((2, 1), (0, 1))
  | 3 => ((1, 1), (0, 1))
  | 4 => ((2, 1), (0, 1))
  | 5 => ((2, 0), (0, 1))
  | 6 => ((3, 3), (0, 1))
  | 7 => ((3, 2), (0, 1))
  | 8 => ((3, 1), (0, 1))
  | 9 => ((1, 0), (0, 2))
  | _ => ((1, 0), (0, 1))

/-- A pair `(d, e)` is reduced to `(d', e')` with the coefficients of a
literal. -/
structure PracReduces (c : Literal) (d e d' e' : ℕ) : Prop where
  d_eq : d = (litCoeffs c).1.1 * d' + (litCoeffs c).1.2 * e'
  e_eq : e = (litCoeffs c).2.1 * d' + (litCoeffs c).2.2 * e'

section Words

variable {d e : BitVec w} {k : ℕ}

theorem toNat_const_mul (hk : k < 2 ^ w) (h : k * d.toNat < 2 ^ w) :
    (ofNat w k * d).toNat = k * d.toNat := by
  rw [toNat_mul, toNat_const hk, Nat.mod_eq_of_lt h]

theorem umod_const_eq_zero_iff (hk : k < 2 ^ w) : d % ofNat w k = 0#w ↔ d.toNat % k = 0 := by
  rw [← BitVec.toNat_inj, BitVec.toNat_umod, toNat_const hk, toNat_ofNat, Nat.zero_mod]

theorem toNat_udiv_const (hk : k < 2 ^ w) : (d / ofNat w k).toNat = d.toNat / k := by
  rw [BitVec.toNat_udiv, toNat_const hk]

end Words

/-- The pair of natural numbers that a state stands for and its rule: the rules of
`prac_chain` without wrapping. -/
def exactRule (d e : ℕ) : (ℕ × ℕ) × Literal :=
  if 4 * d ≤ 5 * e ∧ (d + e) % 3 = 0 then
    (((2 * d - e) / 3, (e - (2 * d - e) / 3) / 2), 1)
  else if 4 * d ≤ 5 * e ∧ (d - e) % 6 = 0 then
    (((d - e) / 2, e), 2)
  else if d ≤ 4 * e then
    ((d - e, e), 3)
  else if (d + e) % 2 = 0 then
    (((d - e) / 2, e), 4)
  else if d % 2 = 0 then
    ((d / 2, e), 5)
  else if d % 3 = 0 then
    ((d / 3 - e, e), 6)
  else if (d + e) % 3 = 0 then
    (((d - 2 * e) / 3, e), 7)
  else if (d - e) % 3 = 0 then
    (((d - e) / 3, e), 8)
  else
    ((d, e / 2), 9)

theorem pracRule_exact {state : PracState w} (hlt : state.e < state.d)
    (hpos : 0 < state.e.toNat) (hfits : PracFits w state.d.toNat state.e.toNat) :
    (((pracRule state).1.d.toNat, (pracRule state).1.e.toNat), (pracRule state).2)
      = exactRule state.d.toNat state.e.toNat := by
  obtain ⟨d, e⟩ := state
  simp only at hlt hpos hfits ⊢
  have hlt' : e.toNat < d.toNat := hlt
  obtain ⟨hfour, hfive⟩ := hfits
  rw [max_eq_left hlt'.le] at hfour
  rw [min_eq_right hlt'.le] at hfive
  have hfourd : (4#w * d).toNat = 4 * d.toNat := toNat_const_mul (by omega) hfour
  have hfoure : (4#w * e).toNat = 4 * e.toNat := toNat_const_mul (by omega) (by omega)
  have hfivee : (5#w * e).toNat = 5 * e.toNat := toNat_const_mul (by omega) hfive
  have htwod : (2#w * d).toNat = 2 * d.toNat := toNat_const_mul (by omega) (by omega)
  have htwoe : (2#w * e).toNat = 2 * e.toNat := toNat_const_mul (by omega) (by omega)
  have hsum : (d + e).toNat = d.toNat + e.toNat := BitVec.toNat_add_of_lt (by omega)
  have hsub : (d - e).toNat = d.toNat - e.toNat := toNat_sub_of_le (le_def.mpr hlt'.le)
  have htwo : 2 < 2 ^ w := by omega
  have hthree : 3 < 2 ^ w := by omega
  have hsix : 6 < 2 ^ w := by omega
  simp only [pracRule, exactRule, le_def, umod_const_eq_zero_iff htwo,
    umod_const_eq_zero_iff hthree, umod_const_eq_zero_iff hsix, hfourd, hfoure, hfivee, hsum, hsub]
  split_ifs with h₁ h₂ h₃ h₄ h₅ h₆ h₇ h₈
  · have hd : ((2#w * d - e) / 3#w).toNat = (2 * d.toNat - e.toNat) / 3 := by
      rw [toNat_udiv_const hthree, toNat_sub_of_le (le_def.mpr (by omega)), htwod]
    have he : (e - (2#w * d - e) / 3#w).toNat = e.toNat - (2 * d.toNat - e.toNat) / 3 := by
      rw [toNat_sub_of_le (le_def.mpr (by omega)), hd]
    simp [toNat_udiv_const htwo, hd, he]
  · simp [toNat_udiv_const htwo, hsub]
  · simp [hsub]
  · simp [toNat_udiv_const htwo, hsub]
  · simp [toNat_udiv_const htwo]
  · have hd : (d / 3#w).toNat = d.toNat / 3 := toNat_udiv_const hthree
    simp [toNat_sub_of_le (le_def.mpr (by omega : e.toNat ≤ (d / 3#w).toNat)), hd]
  · have hd : (d - 2#w * e).toNat = d.toNat - 2 * e.toNat := by
      rw [toNat_sub_of_le (le_def.mpr (by omega)), htwoe]
    simp [toNat_udiv_const hthree, hd]
  · simp [toNat_udiv_const hthree, hsub]
  · simp [toNat_udiv_const htwo]

theorem exactRule_reduces {d e : ℕ} (hlt : e < d) :
    PracReduces (exactRule d e).2 d e (exactRule d e).1.1 (exactRule d e).1.2 := by
  unfold exactRule
  split_ifs with h₁ h₂ h₃ h₄ h₅ h₆ h₇ h₈ <;>
    exact ⟨by simp only [litCoeffs]; omega, by simp only [litCoeffs]; omega⟩

theorem exactRule_bounds {d e : ℕ} (hlt : e < d) (hpos : 0 < e) (hfits : PracFits w d e) :
    0 < (exactRule d e).1.1 ∧ 0 < (exactRule d e).1.2 ∧
      (exactRule d e).1.1 + (exactRule d e).1.2 < d + e ∧
      PracFits w (exactRule d e).1.1 (exactRule d e).1.2 := by
  obtain ⟨hfour, hfive⟩ := hfits
  rw [max_eq_left hlt.le] at hfour
  rw [min_eq_right hlt.le] at hfive
  unfold exactRule PracFits
  split_ifs with h₁ h₂ h₃ h₄ h₅ h₆ h₇ h₈ <;> simp only <;> omega

theorem exactRule_lit (d e : ℕ) : 0 ≤ (exactRule d e).2 ∧ (exactRule d e).2 < 10 := by
  unfold exactRule
  split_ifs <;> simp only <;> decide

/-! ## What literals do to multipliers -/

/-- The action of a literal on a pair of multipliers.  The literals `11` and
`10` close a chain with the sum and open the next one at the result. -/
def litIndex (index : ℤ × ℤ) (c : Literal) : ℤ × ℤ :=
  if c = 10 then (2 * index.1, index.1)
  else if c = 11 then (index.1 + index.2, 0)
  else
    ((litCoeffs c).1.1 * index.1 + (litCoeffs c).2.1 * index.2,
      (litCoeffs c).1.2 * index.1 + (litCoeffs c).2.2 * index.2)

/-- A reduction from one state to another, with its literals. -/
structure PracRun (state last : PracState w) (literals : List Literal) : Prop where
  lit_lt : ∀ c ∈ literals, 0 ≤ c ∧ c < 10
  dvd : ∀ g, g ∣ last.d.toNat → g ∣ last.e.toNat → g ∣ state.d.toNat ∧ g ∣ state.e.toNat
  dot : ∀ index : ℤ × ℤ,
    last.d.toNat * (literals.foldl litIndex index).1
        + last.e.toNat * (literals.foldl litIndex index).2
      = state.d.toNat * index.1 + state.e.toNat * index.2

theorem PracRun.refl : PracRun state state [] where
  lit_lt := by simp
  dvd := fun _ hd he => ⟨hd, he⟩
  dot := fun _ => rfl

theorem PracRun.trans {state middle last : PracState w} {literals literals' : List Literal}
    (h : PracRun state middle literals) (h' : PracRun middle last literals') :
    PracRun state last (literals ++ literals') where
  lit_lt := by
    intro c hc
    rcases List.mem_append.mp hc with hc | hc
    · exact h.lit_lt c hc
    · exact h'.lit_lt c hc
  dvd := by
    intro g hd he
    obtain ⟨hd, he⟩ := h'.dvd g hd he
    exact h.dvd g hd he
  dot := by
    intro index
    rw [List.foldl_append, h'.dot, h.dot]

theorem PracRun.single {state last : PracState w} {c : Literal} (hc : 0 ≤ c ∧ c < 10)
    (h : PracReduces c state.d.toNat state.e.toNat last.d.toNat last.e.toNat) :
    PracRun state last [c] where
  lit_lt := by simpa using hc
  dvd := by
    intro g hd he
    rw [h.d_eq, h.e_eq]
    exact ⟨Nat.dvd_add (hd.mul_left _) (he.mul_left _), Nat.dvd_add (hd.mul_left _) (he.mul_left _)⟩
  dot := by
    intro index
    have h10 : c ≠ 10 := fun heq => absurd hc (by rw [heq]; decide)
    have h11 : c ≠ 11 := fun heq => absurd hc (by rw [heq]; decide)
    rw [List.foldl_cons, List.foldl_nil, litIndex, if_neg h10, if_neg h11, h.d_eq, h.e_eq]
    push_cast
    ring

theorem pracSwap_spec {state : PracState w} (hne : state.d ≠ state.e)
    (hd : 0 < state.d.toNat) (he : 0 < state.e.toNat)
    (hfits : PracFits w state.d.toNat state.e.toNat) :
    PracRun state (pracSwap state).1 (pracSwap state).2 ∧
      (pracSwap state).1.e < (pracSwap state).1.d ∧ 0 < (pracSwap state).1.e.toNat ∧
      (pracSwap state).1.d.toNat + (pracSwap state).1.e.toNat
        = state.d.toNat + state.e.toNat ∧
      PracFits w (pracSwap state).1.d.toNat (pracSwap state).1.e.toNat := by
  unfold pracSwap
  by_cases h : state.d < state.e
  · simp only [if_pos h]
    refine ⟨PracRun.single (by decide) ⟨by simp [litCoeffs], by simp [litCoeffs]⟩, h, hd,
      by omega, ?_⟩
    rw [PracFits, max_comm, min_comm]
    exact hfits
  · simp only [if_neg h]
    refine ⟨PracRun.refl state, ?_, he, trivial, hfits⟩
    rw [BitVec.lt_def] at h ⊢
    have hne' : state.d.toNat ≠ state.e.toNat := fun heq => hne (BitVec.eq_of_toNat_eq heq)
    omega

/-- As long as nothing wraps, one rule is a run and leaves a smaller positive pair. -/
theorem pracRule_spec {state : PracState w} (hlt : state.e < state.d)
    (hpos : 0 < state.e.toNat) (hfits : PracFits w state.d.toNat state.e.toNat) :
    PracRun state (pracRule state).1 [(pracRule state).2] ∧
      0 < (pracRule state).1.d.toNat ∧ 0 < (pracRule state).1.e.toNat ∧
      (pracRule state).1.d.toNat + (pracRule state).1.e.toNat
        < state.d.toNat + state.e.toNat ∧
      PracFits w (pracRule state).1.d.toNat (pracRule state).1.e.toNat := by
  have hexact := pracRule_exact hlt hpos hfits
  have hd : (pracRule state).1.d.toNat = (exactRule state.d.toNat state.e.toNat).1.1 := by
    rw [← hexact]
  have he : (pracRule state).1.e.toNat = (exactRule state.d.toNat state.e.toNat).1.2 := by
    rw [← hexact]
  have hlit : (pracRule state).2 = (exactRule state.d.toNat state.e.toNat).2 := by
    rw [← hexact]
  have hbounds := exactRule_bounds hlt hpos hfits
  rw [← hd, ← he] at hbounds
  refine ⟨PracRun.single ?_ ?_, hbounds⟩
  · rw [hlit]
    exact exactRule_lit _ _
  · rw [hlit, hd, he]
    exact exactRule_reduces hlt

/-- The loop ends with a common divisor twice. -/
theorem pracLoop_spec (fuel : ℕ) (state : PracState w) (hd : 0 < state.d.toNat)
    (he : 0 < state.e.toNat) (hfits : PracFits w state.d.toNat state.e.toNat)
    (hfuel : state.d.toNat + state.e.toNat ≤ fuel) :
    ∃ last literals, pracLoop fuel state = some (last, literals) ∧ last.d = last.e ∧
      PracRun state last literals := by
  induction fuel generalizing state with
  | zero => omega
  | succ fuel ih =>
    unfold pracLoop
    by_cases heq : state.d = state.e
    · exact ⟨state, [], if_pos heq, heq, PracRun.refl state⟩
    · rw [if_neg heq]
      obtain ⟨hswap, hlt, hpos, hsum, hfits⟩ := pracSwap_spec heq hd he hfits
      obtain ⟨hrule, hd', he', hless, hfits'⟩ := pracRule_spec hlt hpos hfits
      obtain ⟨last, literals, hloop, hend, hrun⟩ := ih _ hd' he' hfits' (by omega)
      refine ⟨last, (pracSwap state).2 ++ (pracRule (pracSwap state).1).2 :: literals,
        ?_, hend, hswap.trans (hrule.trans hrun)⟩
      simp [hloop]

/-! ## Chains -/

/-- A multiplier `n` with an admissible starting value `r`. -/
structure PracStart (w : ℕ) where
  n : BitVec w
  r : BitVec w
  lt_two_mul : n.toNat < 2 * r.toNat
  lt_n : r.toNat < n.toNat
  coprime : Nat.Coprime r.toNat n.toNat

/-- No product that `prac_chain` compares in its first iteration wraps. -/
def PracStart.Fits (start : PracStart w) : Prop :=
  PracFits w (start.n.toNat - start.r.toNat) (2 * start.r.toNat - start.n.toNat)

instance (start : PracStart w) : Decidable start.Fits := by
  unfold PracStart.Fits
  infer_instance

theorem PracStart.init_toNat (start : PracStart w) :
    (start.n - start.r).toNat = start.n.toNat - start.r.toNat ∧
      (2#w * start.r - start.n).toNat = 2 * start.r.toNat - start.n.toNat := by
  have hlt := start.lt_n
  have hlt' := start.lt_two_mul
  refine ⟨toNat_sub_of_le (le_def.mpr hlt.le), ?_⟩
  have hn := start.n.isLt
  have hmul : (2#w * start.r).toNat = 2 * start.r.toNat % 2 ^ w := by
    rw [toNat_mul, toNat_ofNat, Nat.mod_mul_mod]
  rw [BitVec.toNat_sub, hmul, Nat.add_mod_mod]
  have hshift : 2 ^ w - start.n.toNat + 2 * start.r.toNat
      = 2 ^ w + (2 * start.r.toNat - start.n.toNat) := by omega
  rw [hshift, Nat.add_mod_left, Nat.mod_eq_of_lt (by omega)]

/-- The chain of `n` ends with `d = e = 1` and its literals multiply by
`n`. -/
theorem pracChain_spec {fuel : ℕ} (start : PracStart w) (hfits : start.Fits)
    (hfuel : start.n.toNat ≤ fuel) :
    ∃ literals, pracChain fuel start.n start.r
        = some (some ⟨1#w, 1#w⟩, 10 :: literals ++ [11]) ∧
      (∀ c ∈ literals, 0 ≤ c ∧ c < 10) ∧
      ∀ m : ℤ, (literals.foldl litIndex (2 * m, m)).1 + (literals.foldl litIndex (2 * m, m)).2
        = m * start.n.toNat := by
  obtain ⟨hd, he⟩ := start.init_toNat
  have hlt := start.lt_n
  have hlt' := start.lt_two_mul
  rw [PracStart.Fits, ← hd, ← he] at hfits
  obtain ⟨last, literals, hloop, hend, hrun⟩ :=
    pracLoop_spec fuel ⟨start.n - start.r, 2#w * start.r - start.n⟩
      (by simp only [hd]; omega) (by simp only [he]; omega) hfits
      (by simp only [hd, he]; omega)
  have hone : last.d.toNat = 1 := by
    obtain ⟨hdvd, hdvd'⟩ := hrun.dvd last.d.toNat dvd_rfl (by rw [hend])
    simp only [hd, he] at hdvd hdvd'
    have hr : last.d.toNat ∣ start.r.toNat := by
      have hsum : start.n.toNat - start.r.toNat + (2 * start.r.toNat - start.n.toNat)
          = start.r.toNat := by omega
      rw [← hsum]
      exact Nat.dvd_add hdvd hdvd'
    have hn : last.d.toNat ∣ start.n.toNat := by
      rw [← Nat.sub_add_cancel hlt.le]
      exact Nat.dvd_add hdvd hr
    exact Nat.eq_one_of_dvd_coprimes start.coprime hr hn
  have hw : 1 < 2 ^ w := by
    have := start.n.isLt
    omega
  have hlast : last = ⟨1#w, 1#w⟩ := by
    obtain ⟨d, e⟩ := last
    simp only at hend hone
    subst hend
    have hd1 : d = 1#w := BitVec.eq_of_toNat_eq (by rw [hone, toNat_const hw])
    rw [hd1]
  have hge : ¬start.r ≥ start.n := by
    rw [ge_iff_le, le_def]
    omega
  refine ⟨literals, ?_, hrun.lit_lt, ?_⟩
  · rw [pracChain, if_neg hge, hloop, hlast]
    rfl
  · intro m
    have hdot := hrun.dot (2 * m, m)
    rw [← hend, hone] at hdot
    simp only [hd, he] at hdot
    push_cast [hlt.le, hlt'.le] at hdot
    linarith

end CadoNfs
