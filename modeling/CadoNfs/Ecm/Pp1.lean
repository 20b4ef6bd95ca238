import CadoNfs.Lib.LucasSequence
import CadoNfs.Ecm.Prac
import CadoNfs.Macros

/-!
# Stage 1 of P+1

The interpreter `pp1_stage1` of the byte code that `pp1_make_plan` assembles
from one Lucas chain after another.

Main results:

- Theorem `pp1Code_spec`: a code keeps the registers a Lucas triple and moves its
  indices as the literals do that it stands for.
- Theorem `pp1Literals_spec`: the literals of a sequence of chains multiply by the
  product of the multipliers.
- Theorem `pp1Stage1_bytecode`: the interpreter computes the term of the Lucas
  sequence at that product.
-/

namespace CadoNfs

open LucasSequence

/-! ## The interpreter -/

section Interpreter

variable {R : Type*} [CommRing R]

/-- The residues `A`, `B` and `C` of `pp1_stage1`. -/
structure Pp1Regs (R : Type*) where
  A : R
  B : R
  C : R

/-- `pp1_add`. -/
def pp1Add (a b d : R) : R :=
  a * b - d

/-- `pp1_double`. -/
def pp1Double (a two : R) : R :=
  a * a - two

/-- The cases of `pp1_stage1` other than the end of the byte code; `none` is
the call of `abort`. -/
def pp1Code (two : R) (code : Code) (regs : Pp1Regs R) : Option (Pp1Regs R) :=
  let A := regs.A
  let B := regs.B
  let C := regs.C
  match code with
  | 0 => some ⟨B, A, C⟩
  | 1 =>
    let t := pp1Add A B C
    let t2 := pp1Add t A B
    let B := pp1Add B t A
    some ⟨t2, B, C⟩
  | 2 =>
    let B := pp1Add A B C
    some ⟨pp1Double A two, B, C⟩
  | 3 =>
    let t := pp1Add B A C
    some ⟨A, t, B⟩
  | 4 =>
    let B := pp1Add B A C
    some ⟨pp1Double A two, B, C⟩
  | 5 =>
    let C := pp1Add C A B
    some ⟨pp1Double A two, B, C⟩
  | 6 =>
    let t := pp1Double A two
    let t2 := pp1Add A B C
    let t2 := pp1Add t t2 C
    let C := t2
    let t2 := pp1Add t A A
    some ⟨t2, C, B⟩
  | 7 =>
    let t := pp1Add A B C
    let t2 := pp1Add t A B
    let B := t2
    let t := pp1Double A two
    let t2 := A
    some ⟨pp1Add A t t2, B, C⟩
  | 8 =>
    let t := pp1Add A B C
    let C := pp1Add C A B
    let B := t
    let t := pp1Double A two
    let t2 := pp1Add A t A
    some ⟨t2, B, C⟩
  | 9 =>
    let C := pp1Add C B A
    some ⟨A, pp1Double B two, C⟩
  | 10 =>
    let B := pp1Add A B C
    some ⟨pp1Double B two, B, B⟩
  | 11 =>
    let t := A
    let A := pp1Add B A C
    some ⟨A, t, B⟩
  | 13 =>
    let t := pp1Add B A C
    let C := pp1Add A t B
    some ⟨pp1Double C two, C, C⟩
  | 14 =>
    let t := B
    let B := pp1Add B A C
    some ⟨pp1Add A B t, B, A⟩
  | _ => none

/-- The loop of `pp1_stage1` up to the end of the byte code; `none` is also
the read past the last code. -/
def pp1Loop (two : R) (code : List Code) (regs : Pp1Regs R) : Option (Pp1Regs R) :=
  match code with
  | [] => none
  | c :: code =>
    if c = 12 then
      some regs
    else do
      let regs ← pp1Code two c regs
      pp1Loop two code regs

/-- `pp1_stage1`. -/
def pp1Stage1 (X : R) (code : List Code) (two : R) : Option R := do
  let regs ← pp1Loop two code ⟨pp1Double X two, X, X⟩
  some (pp1Add regs.A regs.B regs.C)

/-! ## Codes and Lucas triples -/

/-- The registers hold the terms of a Lucas triple. -/
def Pp1Regs.Holds (X : R) (index : ℤ × ℤ) (regs : Pp1Regs R) : Prop :=
  IsLucasTriple X index regs.A regs.B regs.C

variable {X : R} {index : ℤ × ℤ} {regs : Pp1Regs R}

theorem holds_of_index {m n difference : ℤ} (hm : index.1 = m) (hn : index.2 = n)
    (hdifference : difference = m - n ∨ difference = n - m) :
    Pp1Regs.Holds X index
      ⟨lucasTerm X m, lucasTerm X n, lucasTerm X difference⟩ := by
  subst hm hn
  refine ⟨rfl, rfl, ?_⟩
  rcases hdifference with rfl | rfl
  · rfl
  · rw [← neg_sub index.1 index.2, lucasTerm_neg]

theorem pp1Add_sum {m n : ℤ} (difference total : ℤ)
    (hdifference : difference = m - n ∨ difference = n - m) (htotal : total = m + n) :
    pp1Add (lucasTerm X m) (lucasTerm X n) (lucasTerm X difference)
      = lucasTerm X total :=
  lucasTerm_product X hdifference htotal

theorem pp1Add_diff {m n difference total : ℤ}
    (htotal : total = m + n) (hdifference : difference = m - n) :
    pp1Add (lucasTerm X m) (lucasTerm X n) (lucasTerm X total)
      = lucasTerm X difference := by
  have hsum := pp1Add_sum (X := X) (m := m) (n := -n) total difference (Or.inl (by omega))
    (by omega)
  rwa [lucasTerm_neg] at hsum

theorem pp1Double_term (n : ℤ) : pp1Double (lucasTerm X n) 2 = lucasTerm X (2 * n) :=
  lucasTerm_square X rfl

/-- A code keeps the registers a Lucas triple and moves its indices as the literals do
that it stands for. -/
theorem pp1Code_spec {c : Code} (hc : c ∈ pp1Codes) (hregs : regs.Holds X index) :
    ∃ regs', pp1Code 2 c regs = some regs' ∧
      regs'.Holds X ((pp1Expand c).foldl litIndex index) := by
  obtain ⟨a, b⟩ := index
  obtain ⟨A, B, C⟩ := regs
  obtain ⟨rfl, rfl, rfl⟩ := hregs
  have hsum : pp1Add (lucasTerm X a) (lucasTerm X b) (lucasTerm X (a - b))
      = lucasTerm X (a + b) := pp1Add_sum _ _ (by omega) rfl
  have hsum' : pp1Add (lucasTerm X b) (lucasTerm X a) (lucasTerm X (a - b))
      = lucasTerm X (a + b) := pp1Add_sum _ _ (by omega) (by omega)
  have hsum₂ : pp1Add (lucasTerm X (a + b)) (lucasTerm X a) (lucasTerm X b)
      = lucasTerm X (2 * a + b) := pp1Add_sum _ _ (by omega) (by omega)
  have hsum₂' : pp1Add (lucasTerm X a) (lucasTerm X (a + b)) (lucasTerm X b)
      = lucasTerm X (2 * a + b) := pp1Add_sum _ _ (by omega) (by omega)
  have hsum₃ : pp1Add (lucasTerm X b) (lucasTerm X (a + b)) (lucasTerm X a)
      = lucasTerm X (a + 2 * b) := pp1Add_sum _ _ (by omega) (by omega)
  have hback : pp1Add (lucasTerm X (a - b)) (lucasTerm X a) (lucasTerm X b)
      = lucasTerm X (2 * a - b) := pp1Add_sum _ _ (by omega) (by omega)
  have hback' : pp1Add (lucasTerm X (a - b)) (lucasTerm X b) (lucasTerm X a)
      = lucasTerm X (a - 2 * b) := pp1Add_diff (by omega) (by omega)
  have htriple : pp1Add (lucasTerm X (2 * a)) (lucasTerm X a) (lucasTerm X a)
      = lucasTerm X (3 * a) := pp1Add_sum _ _ (by omega) (by omega)
  have htriple' : pp1Add (lucasTerm X a) (lucasTerm X (2 * a)) (lucasTerm X a)
      = lucasTerm X (3 * a) := pp1Add_sum _ _ (by omega) (by omega)
  have hfour : pp1Add (lucasTerm X (2 * a)) (lucasTerm X (a + b)) (lucasTerm X (a - b))
      = lucasTerm X (3 * a + b) := pp1Add_sum _ _ (by omega) (by omega)
  simp only [pp1Codes, List.mem_cons, List.not_mem_nil, or_false] at hc
  rcases hc with rfl | rfl | rfl | rfl | rfl | rfl | rfl | rfl | rfl | rfl | rfl | rfl | rfl | rfl <;>
    refine ⟨_, rfl, ?_⟩ <;>
    simp only [hsum, hsum', hsum₂, hsum₂', hsum₃, hback, hback', htriple, htriple', hfour,
      pp1Double_term] <;>
    refine holds_of_index ?_ ?_ (by omega) <;>
    simp [pp1Expand, litIndex, litCoeffs] <;> omega

section

variable (codes : List Code) (hcodes : ∀ c ∈ codes, c ∈ pp1Codes)
include hcodes

theorem pp1Loop_spec (hregs : regs.Holds X index) :
    ∃ regs', pp1Loop 2 (codes ++ [12]) regs = some regs' ∧
      regs'.Holds X ((codes.flatMap pp1Expand).foldl litIndex index) := by
  induction codes generalizing index regs with
  | nil => exact ⟨regs, rfl, hregs⟩
  | cons c codes ih =>
    obtain ⟨hc, hcodes⟩ := List.forall_mem_cons.mp hcodes
    have hne : c ≠ 12 := fun heq => absurd hc (by rw [heq]; decide)
    obtain ⟨regs₁, hcode, hregs₁⟩ := pp1Code_spec hc hregs
    obtain ⟨regs₂, hloop, hregs₂⟩ := ih hcodes hregs₁
    refine ⟨regs₂, ?_, ?_⟩
    · rw [List.cons_append, pp1Loop, if_neg hne, hcode, some_bind, hloop]
    · rwa [List.flatMap_cons, List.foldl_append]

theorem pp1Stage1_spec : pp1Stage1 X (codes ++ [12]) 2
      = some (lucasTerm X (((codes.flatMap pp1Expand).foldl litIndex (2, 1)).1
          + ((codes.flatMap pp1Expand).foldl litIndex (2, 1)).2)) := by
  have hinit : Pp1Regs.Holds X (2, 1) ⟨pp1Double X 2, X, X⟩ := by
    have hdouble := pp1Double_term (X := X) 1
    rw [lucasTerm_one] at hdouble
    exact ⟨hdouble, (lucasTerm_one X).symm, (lucasTerm_one X).symm⟩
  obtain ⟨regs, hloop, hregs⟩ := pp1Loop_spec codes hcodes hinit
  rw [pp1Stage1, hloop, some_bind, pp1Add, hregs.sum]

end

end Interpreter

/-! ## The byte code of a sequence of chains -/

variable {w : ℕ}

/-- The literals of `pp1_make_plan`: one chain after another, then the end of the
byte code. -/
def pp1Literals (fuel : ℕ) (starts : List (PracStart w)) : Option (List Literal) :=
  match starts with
  | [] => some [12]
  | start :: starts => do
    let (_, chain) ← pracChain fuel start.n start.r
    let literals ← pp1Literals fuel starts
    some (chain ++ literals)

/-- The byte code of `pp1_make_plan`. -/
def pp1Bytecode (fuel : ℕ) (starts : List (PracStart w)) : Option (List Code) := do
  let literals ← pp1Literals fuel starts
  bytecoderCompress pp1Dict literals

/-- The product of the multipliers. -/
def pracProduct (starts : List (PracStart w)) : ℕ :=
  (starts.map fun start => start.n.toNat).prod

theorem isChainLiterals_append {literals : List Literal} (hlt : ∀ c ∈ literals, 0 ≤ c ∧ c < 10)
    (rest : List Literal) (hrest : IsChainLiterals false rest) :
    IsChainLiterals false (literals ++ rest) := by
  induction literals with
  | nil => exact hrest
  | cons c literals ih =>
    obtain ⟨hc, hlt⟩ := List.forall_mem_cons.mp hlt
    have h10 : c ≠ 10 := fun heq => absurd hc.2 (by rw [heq]; decide)
    have h11 : (c == 11) = false := beq_eq_false_iff_ne.mpr
      fun heq => absurd hc.2 (by rw [heq]; decide)
    refine ⟨⟨hc.1, lt_trans hc.2 (by decide)⟩, by simp [h10], ?_⟩
    rw [h11]
    exact ih hlt

/-- The literals of a sequence of chains, each of which multiplies by some number,
multiply by the product of these numbers. -/
theorem pp1Literals_chains (fuel : ℕ) {starts : List (PracStart w)} (hne : starts ≠ [])
    (multiplier : PracStart w → ℤ)
    (hchains : ∀ start ∈ starts, ∃ last rules,
      pracChain fuel start.n start.r = some (last, 10 :: rules ++ [11]) ∧
      (∀ c ∈ rules, 0 ≤ c ∧ c < 10) ∧
      ∀ m : ℤ, (rules.foldl litIndex (2 * m, m)).1 + (rules.foldl litIndex (2 * m, m)).2
        = m * multiplier start) :
    ∃ inner, pp1Literals fuel starts = some (10 :: inner ++ [11, 12]) ∧
      inner.head? ≠ some 10 ∧ IsChainLiterals false inner ∧
      ∀ m : ℤ, (inner.foldl litIndex (2 * m, m)).1 + (inner.foldl litIndex (2 * m, m)).2
        = m * (starts.map multiplier).prod := by
  induction starts with
  | nil => exact absurd rfl hne
  | cons start starts ih =>
    obtain ⟨⟨last, chain, hchain, hlt, hindex⟩, hchains⟩ := List.forall_mem_cons.mp hchains
    by_cases hempty : starts = []
    · subst hempty
      refine ⟨chain, ?_, ?_, ?_, ?_⟩
      · rw [pp1Literals, hchain]
        simp [pp1Literals]
      · cases chain with
        | nil => simp
        | cons c chain =>
          have hc := hlt c (by simp)
          simp only [List.head?_cons, ne_eq, Option.some.injEq]
          exact fun heq => absurd hc (by rw [heq]; decide)
      · have happend := isChainLiterals_append hlt [] rfl
        rwa [List.append_nil] at happend
      · intro m
        rw [hindex, List.map_cons, List.map_nil, List.prod_singleton]
    · obtain ⟨inner, hinner, hhead, hliterals, hindex'⟩ := ih hempty hchains
      refine ⟨chain ++ 11 :: 10 :: inner, ?_, ?_, ?_, ?_⟩
      · rw [pp1Literals, hchain, hinner]
        simp
      · cases chain with
        | nil => simp
        | cons c chain =>
          have hc := hlt c (by simp)
          simp only [List.cons_append, List.head?_cons, ne_eq, Option.some.injEq]
          exact fun heq => absurd hc (by rw [heq]; decide)
      · refine isChainLiterals_append hlt _ ?_
        exact ⟨by decide, by decide, by decide, by decide, hliterals⟩
      · intro m
        have hjoin : (chain ++ 11 :: 10 :: inner).foldl litIndex (2 * m, m)
            = inner.foldl litIndex (2 * (m * multiplier start), m * multiplier start) := by
          rw [List.foldl_append, List.foldl_cons, List.foldl_cons, ← hindex m]
          rfl
        rw [hjoin, hindex', List.map_cons, List.prod_cons, mul_assoc]

/-- The literals of a sequence of chains multiply by the product of the multipliers. -/
theorem pp1Literals_spec {fuel : ℕ} {starts : List (PracStart w)} (hne : starts ≠ [])
    (hfits : ∀ start ∈ starts, start.Fits)
    (hfuel : ∀ start ∈ starts, start.n.toNat ≤ fuel) :
    ∃ inner, pp1Literals fuel starts = some (10 :: inner ++ [11, 12]) ∧
      inner.head? ≠ some 10 ∧ IsChainLiterals false inner ∧
      ∀ m : ℤ, (inner.foldl litIndex (2 * m, m)).1 + (inner.foldl litIndex (2 * m, m)).2
        = m * pracProduct starts := by
  obtain ⟨inner, hinner, hhead, hliterals, hindex⟩ :=
    pp1Literals_chains fuel hne (fun start => (start.n.toNat : ℤ)) (by
      intro start hstart
      obtain ⟨chain, hchain, hlt, hindex⟩ :=
        pracChain_spec start (hfits start hstart) (hfuel start hstart)
      exact ⟨_, chain, hchain, hlt, hindex⟩)
  refine ⟨inner, hinner, hhead, hliterals, fun m => ?_⟩
  rw [hindex, pracProduct, Nat.cast_list_prod, List.map_map]
  rfl

/-- For a nonempty sequence of chains in which nothing wraps, every chain ends with
`d = e = 1`, and stage 1 computes the term at the product of the multipliers. -/
theorem pp1Stage1_bytecode {R : Type*} [CommRing R] (X : R) {fuel : ℕ}
    {starts : List (PracStart w)} (hne : starts ≠ [])
    (hfits : ∀ start ∈ starts, start.Fits)
    (hfuel : ∀ start ∈ starts, start.n.toNat ≤ fuel) :
    (∀ start ∈ starts, ∃ literals,
      pracChain fuel start.n start.r = some (some ⟨1#w, 1#w⟩, literals)) ∧
    ∃ codes, pp1Bytecode fuel starts = some codes ∧
      pp1Stage1 X codes 2 = some (lucasV X (pracProduct starts)) := by
  refine ⟨fun start hstart => ?_, ?_⟩
  · obtain ⟨chain, hchain, -, -⟩ :=
      pracChain_spec start (hfits start hstart) (hfuel start hstart)
    exact ⟨_, hchain⟩
  · obtain ⟨inner, hinner, hhead, hliterals, hindex⟩ := pp1Literals_spec hne hfits hfuel
    obtain ⟨codes, hcompress, hexpand, hcodes⟩ := pp1Table_lawful.compress hhead hliterals
    refine ⟨codes ++ [12], ?_, ?_⟩
    · rw [pp1Bytecode, hinner]
      exact hcompress
    · have hproduct := hindex 1
      rw [mul_one, one_mul] at hproduct
      have hexpand : codes.flatMap pp1Expand = inner := hexpand
      rw [pp1Stage1_spec codes hcodes, hexpand, hproduct, ← lucasV_eq_eval]

/-- Chains of 3 and 5 on words of 64 bits. -/
theorem pp1Stage1_bytecode_width64 :
    pracProduct [PracStart.mk 3#64 2#64 (by decide) (by decide) (by decide),
      PracStart.mk 5#64 3#64 (by decide) (by decide) (by decide)] = 15 ∧
    ∃ codes, pp1Bytecode 5 [PracStart.mk 3#64 2#64 (by decide) (by decide) (by decide),
        PracStart.mk 5#64 3#64 (by decide) (by decide) (by decide)] = some codes ∧
      pp1Stage1 (7 : ℤ) codes 2 = some (lucasV 7 15) :=
  ⟨by decide, (pp1Stage1_bytecode 7 (by simp) (by decide) (by decide)).2⟩

/-- The chain of an odd multiplier above `2 ^ 62`, at the starting value that
`prac_mul[2]` gives, in which `4 * d` wraps. -/
def pracStartWrap : PracStart 64 :=
  ⟨16596390890387213503#64, 9628872961079279616#64, by decide, by decide, by decide⟩

/-- The chain in which a product wraps ends with `d = e = 5`, and the byte code of
no chain at all stands for the multiplier 3. -/
theorem pracChain_wraps :
    pracStartWrap.n.toNat % 2 = 1 ∧ 3 ≤ pracStartWrap.n.toNat ∧
      (∀ fuel literals, pracChain fuel pracStartWrap.n pracStartWrap.r
        ≠ some (some ⟨1#64, 1#64⟩, literals)) ∧
      ∀ fuel codes, pp1Bytecode fuel ([] : List (PracStart 64)) = some codes →
        pp1Stage1 (7 : ℤ) codes 2 ≠ some (lucasV 7 (pracProduct ([] : List (PracStart 64)))) := by
  refine ⟨by decide, by decide, ?_, ?_⟩
  · intro fuel literals hchain
    have hend : (pracChain 200 pracStartWrap.n pracStartWrap.r).map Prod.fst
        = some (some ⟨5#64, 5#64⟩) := by
      decide +kernel
    obtain ⟨result, hresult, hfst⟩ := Option.map_eq_some_iff.mp hend
    rw [← pracChain_unique hchain hresult] at hfst
    simp at hfst
  · intro fuel codes hcodes
    have hcompress : pp1Bytecode fuel ([] : List (PracStart 64)) = some [12] := rfl
    rw [hcompress, Option.some.injEq] at hcodes
    rw [← hcodes]
    decide

end CadoNfs
