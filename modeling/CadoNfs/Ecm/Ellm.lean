import CadoNfs.Ecm.Pp1

/-!
# Stage 1 of ECM

The interpreter `ellM_interpret_bytecode` over any arithmetic of points, and over
multiples of the starting point up to sign, where an addition is refused unless its
third operand is the difference of the other two.

Main results:

- Theorem `ellMCode_spec`: a code finds the difference of `A` and `B`
  in `C`, keeps it there, and moves the multiples as the literals do that it
  stands for.
- Theorem `ellMInterpretBytecode_spec`: the interpreter computes the multiple that
  the codes stand for, in any arithmetic that represents multiples.
- Theorem `ellMInterpretBytecode_chains`: on the byte code of a sequence of chains
  no addition is refused, and the result is the product of what the chains multiply by.
-/

namespace CadoNfs

/-! ## The interpreter -/

/-- The operations that `ellM_interpret_bytecode` calls on points; `none` is a
call that the arithmetic refuses.  `unset` is what `ellM_init` leaves. -/
structure EllM (α : Type*) where
  add : α → α → α → Option α
  double : α → Option α
  unset : α

/-- The points of `ellM_interpret_bytecode`. -/
structure EllMRegs (α : Type*) where
  A : α
  B : α
  C : α
  t : α
  t2 : α

section Interpreter

variable {α : Type*} (ell : EllM α)

/-- The cases of `ellM_interpret_bytecode` other than the end of the byte code;
`none` is the call of `abort` or an operation that is refused. -/
def ellMCode (code : Code) (regs : EllMRegs α) : Option (EllMRegs α) :=
  let ⟨A, B, C, t, t2⟩ := regs
  match code with
  | 0 => some ⟨B, A, C, t, t2⟩
  | 1 => do
    let t ← ell.add A B C
    let t2 ← ell.add t A B
    let B ← ell.add B t A
    let A := t2
    some ⟨A, B, C, t, t2⟩
  | 2 => do
    let B ← ell.add A B C
    let A ← ell.double A
    some ⟨A, B, C, t, t2⟩
  | 3 => do
    let C ← ell.add B A C
    some ⟨A, C, B, t, t2⟩
  | 4 => do
    let B ← ell.add B A C
    let A ← ell.double A
    some ⟨A, B, C, t, t2⟩
  | 5 => do
    let C ← ell.add C A B
    let A ← ell.double A
    some ⟨A, B, C, t, t2⟩
  | 6 => do
    let t ← ell.double A
    let t2 ← ell.add A B C
    let A ← ell.add t A A
    let C ← ell.add t t2 C
    some ⟨A, C, B, t, t2⟩
  | 7 => do
    let t ← ell.add A B C
    let B ← ell.add t A B
    let t ← ell.double A
    let A ← ell.add A t A
    some ⟨A, B, C, t, t2⟩
  | 8 => do
    let t ← ell.add A B C
    let C ← ell.add C A B
    let B := t
    let t ← ell.double A
    let A ← ell.add A t A
    some ⟨A, B, C, t, t2⟩
  | 9 => do
    let C ← ell.add C B A
    let B ← ell.double B
    some ⟨A, B, C, t, t2⟩
  | 10 => do
    let A ← ell.add A B C
    let B := A
    let C := A
    let A ← ell.double A
    some ⟨A, B, C, t, t2⟩
  | 11 => do
    let C ← ell.add B A C
    some ⟨C, A, B, t, t2⟩
  | _ => none

/-- Codes in turn, none of them the end of the byte code. -/
def ellMCodes (code : List Code) (regs : EllMRegs α) : Option (EllMRegs α) :=
  code.foldlM (fun regs c => ellMCode ell c regs) regs

/-- The loop of `ellM_interpret_bytecode` up to the end of the byte code;
`none` is also the read past the last code. -/
def ellMLoop (code : List Code) (regs : EllMRegs α) : Option (EllMRegs α) :=
  match code with
  | [] => none
  | c :: code =>
    if c = 12 then
      some regs
    else do
      let regs ← ellMCode ell c regs
      ellMLoop code regs

/-- The initialisation of the first chain. -/
def ellMInit (P : α) : Option (EllMRegs α) := do
  let A ← ell.double P
  some ⟨A, P, P, ell.unset, ell.unset⟩

/-- `ellM_interpret_bytecode`. -/
def ellMInterpretBytecode (P : α) (code : List Code) : Option α := do
  let regs ← ellMInit ell P
  let regs ← ellMLoop ell code regs
  ell.add regs.A regs.B regs.C

theorem ellMLoop_append (codes : List Code) (hcodes : ∀ c ∈ codes, c ≠ 12)
    (regs : EllMRegs α) : ellMLoop ell (codes ++ [12]) regs = ellMCodes ell codes regs := by
  induction codes generalizing regs with
  | nil => rfl
  | cons c codes ih =>
    obtain ⟨hc, hcodes⟩ := List.forall_mem_cons.mp hcodes
    rw [List.cons_append, ellMLoop, if_neg hc, ellMCodes, List.foldlM_cons]
    congr 1
    funext regs
    exact ih hcodes regs

end Interpreter

/-! ## Multiples of a point -/

section Multiples

variable {α : Type*} {ell : EllM α} {rep : ℤ → α → Prop}

/-- The arithmetic represents multiples of a point: `rep n p` says that `p` is
`n` times the point up to sign, and an addition asks for the difference. -/
structure EllM.Represents (ell : EllM α) (rep : ℤ → α → Prop) : Prop where
  neg : ∀ {n p}, rep n p → rep (-n) p
  add : ∀ {m n p q d}, rep m p → rep n q → rep (m - n) d →
    ∃ r, ell.add p q d = some r ∧ rep (m + n) r
  double : ∀ {n p}, rep n p → ∃ r, ell.double p = some r ∧ rep (2 * n) r

/-- The points hold two multiples and their difference up to sign. -/
structure EllMRegs.Holds (rep : ℤ → α → Prop) (index : ℤ × ℤ) (regs : EllMRegs α) : Prop where
  fst : rep index.1 regs.A
  snd : rep index.2 regs.B
  diff : rep (index.1 - index.2) regs.C

section

variable (hell : ell.Represents rep)
include hell

theorem EllM.Represents.sum {m n d : ℤ} {p q s : α}
    (hp : rep m p) (hq : rep n q) (hs : rep d s) (hd : d = m - n ∨ d = n - m) :
    ∃ r, ell.add p q s = some r ∧ rep (m + n) r := by
  rcases hd with rfl | rfl
  · exact hell.add hp hq hs
  · have hneg := hell.neg hs
    rw [neg_sub] at hneg
    exact hell.add hp hq hneg

theorem holds_of_rep {index : ℤ × ℤ} {A B C t t2 : α}
    {m n d : ℤ} (hA : rep m A) (hB : rep n B) (hC : rep d C) (hm : index.1 = m)
    (hn : index.2 = n) (hd : d = m - n ∨ d = n - m) :
    EllMRegs.Holds rep index ⟨A, B, C, t, t2⟩ := by
  subst hm hn
  refine ⟨hA, hB, ?_⟩
  rcases hd with rfl | rfl
  · exact hC
  · have hneg := hell.neg hC
    rwa [neg_sub] at hneg

/-- A code finds the difference in `C`, keeps it there, and moves the multiples as
the literals do that it stands for. -/
theorem ellMCode_spec {c : Code} (hc : c ∈ ecmCodes)
    {index : ℤ × ℤ} {regs : EllMRegs α} (hregs : regs.Holds rep index) :
    ∃ regs', ellMCode ell c regs = some regs' ∧
      regs'.Holds rep ((ecmExpand c).foldl litIndex index) := by
  obtain ⟨a, b⟩ := index
  obtain ⟨A, B, C, t₀, t2₀⟩ := regs
  obtain ⟨hA, hB, hC⟩ := hregs
  simp only at hA hB hC
  -- the sums and doubles that several codes begin with
  obtain ⟨AB, hAB, rAB⟩ := hell.sum hA hB hC (Or.inl rfl)
  obtain ⟨BA, hBA, rBA⟩ := hell.sum hB hA hC (Or.inr rfl)
  obtain ⟨A2, hA2, rA2⟩ := hell.double hA
  obtain ⟨CA, hCA, rCA⟩ := hell.sum hC hA hB (by omega)
  simp only [ecmCodes, List.mem_cons, List.not_mem_nil, or_false] at hc
  rcases hc with rfl | rfl | rfl | rfl | rfl | rfl | rfl | rfl | rfl | rfl | rfl | rfl
  · exact ⟨_, rfl, holds_of_rep hell hB hA hC (by simp [ecmExpand, litIndex, litCoeffs])
      (by simp [ecmExpand, litIndex, litCoeffs]) (by omega)⟩
  · obtain ⟨t2, ht2, rt2⟩ := hell.sum rAB hA hB (by omega)
    obtain ⟨B', hB', rB'⟩ := hell.sum hB rAB hA (by omega)
    refine ⟨⟨t2, B', C, AB, t2⟩, by simp [ellMCode, hAB, ht2, hB'], ?_⟩
    refine holds_of_rep hell rt2 rB' hC ?_ ?_ (by omega) <;>
      simp [ecmExpand, litIndex, litCoeffs] <;> ring
  · refine ⟨⟨A2, AB, C, t₀, t2₀⟩, by simp [ellMCode, hAB, hA2], ?_⟩
    refine holds_of_rep hell rA2 rAB hC ?_ ?_ (by omega) <;>
      simp [ecmExpand, litIndex, litCoeffs]
  · refine ⟨⟨A, BA, B, t₀, t2₀⟩, by simp [ellMCode, hBA], ?_⟩
    exact holds_of_rep hell hA rBA hB (by simp [ecmExpand, litIndex, litCoeffs])
      (by simp [ecmExpand, litIndex, litCoeffs]; ring) (by omega)
  · refine ⟨⟨A2, BA, C, t₀, t2₀⟩, by simp [ellMCode, hBA, hA2], ?_⟩
    exact holds_of_rep hell rA2 rBA hC (by simp [ecmExpand, litIndex, litCoeffs])
      (by simp [ecmExpand, litIndex, litCoeffs]; ring) (by omega)
  · refine ⟨⟨A2, B, CA, t₀, t2₀⟩, by simp [ellMCode, hCA, hA2], ?_⟩
    refine holds_of_rep hell rA2 hB rCA ?_ ?_ (by omega) <;>
      simp [ecmExpand, litIndex, litCoeffs]
  · obtain ⟨A', hA', rA'⟩ := hell.sum rA2 hA hA (by omega)
    obtain ⟨C', hC', rC'⟩ := hell.sum rA2 rAB hC (by omega)
    refine ⟨⟨A', C', B, A2, AB⟩, by simp [ellMCode, hA2, hAB, hA', hC'], ?_⟩
    refine holds_of_rep hell rA' rC' hB ?_ ?_ (by omega) <;>
      simp [ecmExpand, litIndex, litCoeffs] <;> ring
  · obtain ⟨B', hB', rB'⟩ := hell.sum rAB hA hB (by omega)
    obtain ⟨A', hA', rA'⟩ := hell.sum hA rA2 hA (by omega)
    refine ⟨⟨A', B', C, A2, t2₀⟩, by simp [ellMCode, hAB, hB', hA2, hA'], ?_⟩
    refine holds_of_rep hell rA' rB' hC ?_ ?_ (by omega) <;>
      simp [ecmExpand, litIndex, litCoeffs] <;> ring
  · obtain ⟨A', hA', rA'⟩ := hell.sum hA rA2 hA (by omega)
    refine ⟨⟨A', AB, CA, A2, t2₀⟩, by simp [ellMCode, hAB, hCA, hA2, hA'], ?_⟩
    exact holds_of_rep hell rA' rAB rCA (by simp [ecmExpand, litIndex, litCoeffs]; ring)
      (by simp [ecmExpand, litIndex, litCoeffs]) (by omega)
  · obtain ⟨C', hC', rC'⟩ := hell.sum (hell.neg hC) hB hA (by omega)
    obtain ⟨B', hB', rB'⟩ := hell.double hB
    refine ⟨⟨A, B', C', t₀, t2₀⟩, by simp [ellMCode, hC', hB'], ?_⟩
    refine holds_of_rep hell hA rB' rC' ?_ ?_ (by omega) <;>
      simp [ecmExpand, litIndex, litCoeffs]
  · obtain ⟨A', hA', rA'⟩ := hell.double rAB
    refine ⟨⟨A', AB, AB, t₀, t2₀⟩, by simp [ellMCode, hAB, hA'], ?_⟩
    refine holds_of_rep hell rA' rAB rAB ?_ ?_ (by omega) <;>
      simp [ecmExpand, litIndex]
  · refine ⟨⟨BA, A, B, t₀, t2₀⟩, by simp [ellMCode, hBA], ?_⟩
    exact holds_of_rep hell rBA hA hB (by simp [ecmExpand, litIndex, litCoeffs]; ring)
      (by simp [ecmExpand, litIndex, litCoeffs]) (by omega)

theorem ellMCodes_spec (codes : List Code)
    (hcodes : ∀ c ∈ codes, c ∈ ecmCodes) {index : ℤ × ℤ} {regs : EllMRegs α}
    (hregs : regs.Holds rep index) :
    ∃ regs', ellMCodes ell codes regs = some regs' ∧
      regs'.Holds rep ((codes.flatMap ecmExpand).foldl litIndex index) := by
  induction codes generalizing index regs with
  | nil => exact ⟨regs, rfl, hregs⟩
  | cons c codes ih =>
    obtain ⟨hc, hcodes⟩ := List.forall_mem_cons.mp hcodes
    obtain ⟨regs₁, hcode, hregs₁⟩ := ellMCode_spec hell hc hregs
    obtain ⟨regs₂, hrun, hregs₂⟩ := ih hcodes hregs₁
    refine ⟨regs₂, ?_, ?_⟩
    · rw [ellMCodes, List.foldlM_cons, hcode]
      exact hrun
    · rwa [List.flatMap_cons, List.foldl_append]

theorem ellMInit_spec {P : α} (hP : rep 1 P) :
    ∃ regs, ellMInit ell P = some regs ∧ regs.Holds rep (2, 1) := by
  obtain ⟨A, hA, rA⟩ := hell.double hP
  exact ⟨⟨A, P, P, ell.unset, ell.unset⟩, by rw [ellMInit, hA]; rfl, rA, hP, hP⟩

/-- The interpreter reaches the end of the byte code and computes the multiple that the
codes stand for. -/
theorem ellMInterpretBytecode_spec {P : α} (hP : rep 1 P)
    (codes : List Code) (hcodes : ∀ c ∈ codes, c ∈ ecmCodes) :
    ∃ Q, ellMInterpretBytecode ell P (codes ++ [12]) = some Q ∧
      rep (((codes.flatMap ecmExpand).foldl litIndex (2, 1)).1
        + ((codes.flatMap ecmExpand).foldl litIndex (2, 1)).2) Q := by
  have hne : ∀ c ∈ codes, c ≠ 12 := fun c hc heq =>
    absurd (hcodes c hc) (by rw [heq]; decide)
  obtain ⟨regs, hinit, hregs⟩ := ellMInit_spec hell hP
  obtain ⟨regs', hrun, hregs'⟩ := ellMCodes_spec hell codes hcodes hregs
  obtain ⟨Q, hQ, rQ⟩ := hell.add hregs'.fst hregs'.snd hregs'.diff
  refine ⟨Q, ?_, rQ⟩
  rw [ellMInterpretBytecode, hinit, Option.bind_eq_bind, Option.bind_some,
    ellMLoop_append ell codes hne, hrun]
  exact hQ

end

end Multiples

/-! ## Multiples up to sign -/

/-- Multiples of a point up to sign: a point that was never computed is `none`.  An
addition is refused unless its third operand is the difference of the other two up to
the signs. -/
def ellMMultiples : EllM (Option ℕ) where
  add := fun P Q D => do
    let p ← P
    let q ← Q
    let d ← D
    if d = max p q - min p q then some (some (p + q))
    else if d = p + q then some (some (max p q - min p q))
    else none
  double := fun P => do
    let p ← P
    some (some (2 * p))
  unset := none

theorem ellMMultiples_represents :
    ellMMultiples.Represents fun n P => P = some n.natAbs where
  neg := by
    rintro n P rfl
    rw [Int.natAbs_neg]
  add := by
    rintro m n P Q D rfl rfl rfl
    simp only [ellMMultiples, Option.bind_eq_bind, Option.bind_some]
    split_ifs with hdiff hsum
    · exact ⟨_, rfl, by rw [Option.some.injEq]; omega⟩
    · exact ⟨_, rfl, by rw [Option.some.injEq]; omega⟩
    · omega
  double := by
    rintro n P rfl
    exact ⟨_, rfl, by rw [Option.some.injEq]; omega⟩

/-! ## The byte code of a sequence of chains -/

variable {w : ℕ}

/-- The byte code of `ecm_make_plan`, whose literals are put together as those of
P+1. -/
def ecmBytecode (fuel : ℕ) (starts : List (PracStart w)) : Option (List Code) := do
  let literals ← pp1Literals fuel starts
  bytecoderCompress ecmDict literals

/-- What the literals of a chain multiply by. -/
def chainMultiplier (fuel : ℕ) (start : PracStart w) : ℤ :=
  match pracChain fuel start.n start.r with
  | some (_, literals) => (literals.foldl litIndex (1, 0)).1
  | none => 0

theorem litIndex_mul (m x y : ℤ) (c : Literal) :
    litIndex (m * x, m * y) c = (m * (litIndex (x, y) c).1, m * (litIndex (x, y) c).2) := by
  unfold litIndex
  split_ifs <;> exact Prod.ext (by ring) (by ring)

theorem foldl_litIndex_mul (m : ℤ) (literals : List Literal) (index : ℤ × ℤ) :
    literals.foldl litIndex (m * index.1, m * index.2)
      = (m * (literals.foldl litIndex index).1, m * (literals.foldl litIndex index).2) := by
  induction literals generalizing index with
  | nil => rfl
  | cons c literals ih => rw [List.foldl_cons, litIndex_mul, ih, List.foldl_cons]

theorem pracRule_lit (state : PracState w) : 0 ≤ (pracRule state).2 ∧ (pracRule state).2 < 10 := by
  unfold pracRule
  simp only
  split_ifs <;> simp only <;> decide

variable {fuel : ℕ}

theorem pracLoop_lit {state last : PracState w} {literals : List Literal}
    (h : pracLoop fuel state = some (last, literals)) : ∀ c ∈ literals, 0 ≤ c ∧ c < 10 := by
  induction fuel generalizing state last literals with
  | zero => cases h
  | succ fuel ih =>
    unfold pracLoop at h
    by_cases heq : state.d = state.e
    · rw [if_pos heq] at h
      obtain ⟨rfl, rfl⟩ := Prod.mk.inj (Option.some.inj h)
      simp
    · rw [if_neg heq] at h
      obtain ⟨⟨last', rest⟩, hrest, hresult⟩ := Option.bind_eq_some_iff.mp h
      obtain ⟨rfl, rfl⟩ := Prod.mk.inj (Option.some.inj hresult)
      have hswap : ∀ c ∈ (pracSwap state).2, 0 ≤ c ∧ c < 10 := by
        unfold pracSwap
        split_ifs <;> simp
      intro c hc
      rcases List.mem_append.mp hc with hc | hc
      · exact hswap c hc
      · rcases List.mem_cons.mp hc with rfl | hc
        · exact pracRule_lit _
        · exact ih hrest c hc

theorem pracChain_multiplier {start : PracStart w} {last : PracState w} {literals : List Literal}
    (h : pracChain fuel start.n start.r = some (some last, literals)) :
    ∃ rules, literals = 10 :: rules ++ [11] ∧ (∀ c ∈ rules, 0 ≤ c ∧ c < 10) ∧
      ∀ m : ℤ, (rules.foldl litIndex (2 * m, m)).1 + (rules.foldl litIndex (2 * m, m)).2
        = m * chainMultiplier fuel start := by
  have hchain := h
  unfold pracChain at h
  by_cases hge : start.r ≥ start.n
  · rw [if_pos hge] at h
    simp at h
  · rw [if_neg hge] at h
    obtain ⟨⟨last', rules⟩, hloop, hresult⟩ := Option.bind_eq_some_iff.mp h
    obtain ⟨-, rfl⟩ := Prod.mk.inj (Option.some.inj hresult)
    refine ⟨rules, rfl, pracLoop_lit hloop, fun m => ?_⟩
    have hmul : chainMultiplier fuel start
        = (rules.foldl litIndex (2, 1)).1 + (rules.foldl litIndex (2, 1)).2 := by
      rw [chainMultiplier, hchain]
      simp only [List.cons_append, List.foldl_cons, List.foldl_append, List.foldl_nil]
      rfl
    have hlinear := foldl_litIndex_mul m rules (2, 1)
    rw [mul_one, mul_comm m 2] at hlinear
    rw [hmul, hlinear, mul_add]

theorem chainMultiplier_of_fits {start : PracStart w} (hfits : start.Fits)
    {last : PracState w} {literals : List Literal}
    (h : pracChain fuel start.n start.r = some (some last, literals)) :
    chainMultiplier fuel start = start.n.toNat := by
  obtain ⟨rules, hrules, -, hindex⟩ := pracChain_spec start hfits le_rfl
  obtain ⟨-, hliterals⟩ := Prod.mk.inj (pracChain_unique h hrules)
  obtain ⟨rules', hrules', -, hindex'⟩ := pracChain_multiplier h
  have heq : rules' = rules := by
    rw [hliterals] at hrules'
    simpa using hrules'.symm
  have hone := hindex' 1
  rw [heq, hindex 1, one_mul, one_mul] at hone
  exact hone.symm

/-- For a nonempty sequence of chains that end with `d = e = 1`, no addition is
refused on the byte code, after each of its codes the points are the multiples that the
literals so far ask for, and the result is the product of what the chains multiply by:
the product of the multipliers as long as nothing wraps. -/
theorem ellMInterpretBytecode_chains {starts : List (PracStart w)} (hne : starts ≠ [])
    (hends : ∀ start ∈ starts, ∃ literals,
      pracChain fuel start.n start.r = some (some ⟨1#w, 1#w⟩, literals)) :
    ∃ inner codes, pp1Literals fuel starts = some (10 :: inner ++ [11, 12]) ∧
      ecmBytecode fuel starts = some (codes ++ [12]) ∧ codes.flatMap ecmExpand = inner ∧
      (∀ front rest, codes = front ++ rest → ∃ regs,
        (ellMInit ellMMultiples (some 1)).bind (ellMCodes ellMMultiples front) = some regs ∧
        regs.Holds (fun n P => P = some n.natAbs)
          ((front.flatMap ecmExpand).foldl litIndex (2, 1))) ∧
      ∃ N : ℕ, ellMInterpretBytecode ellMMultiples (some 1) (codes ++ [12])
          = some (some N) ∧
        N = (starts.map (chainMultiplier fuel)).prod.natAbs ∧
        ((∀ start ∈ starts, start.Fits) → N = pracProduct starts) := by
  have hrep := ellMMultiples_represents
  obtain ⟨inner, hinner, hhead, hliterals, hindex⟩ :=
    pp1Literals_chains fuel hne (chainMultiplier fuel) (by
      intro start hstart
      obtain ⟨literals, hchain⟩ := hends start hstart
      obtain ⟨rules, rfl, hlt, hmul⟩ := pracChain_multiplier hchain
      exact ⟨_, rules, hchain, hlt, hmul⟩)
  obtain ⟨codes, hcompress, hexpand, hcodes⟩ := ecmTable_lawful.compress hhead hliterals
  have hexpand : codes.flatMap ecmExpand = inner := hexpand
  have hbytecode : ecmBytecode fuel starts = some (codes ++ [12]) := by
    rw [ecmBytecode, hinner]
    exact hcompress
  refine ⟨inner, codes, hinner, hbytecode, hexpand, ?_, ?_⟩
  · rintro front rest rfl
    obtain ⟨regs, hinit, hregs⟩ := ellMInit_spec hrep (P := some 1) rfl
    obtain ⟨regs', hrun, hregs'⟩ := ellMCodes_spec hrep front
      (fun c hc => hcodes c (List.mem_append_left rest hc)) hregs
    exact ⟨regs', by rw [hinit]; exact hrun, hregs'⟩
  · obtain ⟨Q, hQ, hmultiple⟩ := ellMInterpretBytecode_spec hrep (P := some 1) rfl codes hcodes
    have hproduct := hindex 1
    rw [mul_one, one_mul] at hproduct
    rw [hexpand, hproduct] at hmultiple
    refine ⟨_, by rw [hQ, hmultiple], rfl, fun hfits => ?_⟩
    have hmap : starts.map (chainMultiplier fuel)
        = starts.map fun start => (start.n.toNat : ℤ) := by
      refine List.map_congr_left fun start hstart => ?_
      obtain ⟨literals, hchain⟩ := hends start hstart
      exact chainMultiplier_of_fits (hfits start hstart) hchain
    have hcast : (starts.map fun start => (start.n.toNat : ℤ)).prod = pracProduct starts := by
      rw [pracProduct, Nat.cast_list_prod, List.map_map]
      rfl
    rw [hmap, hcast, Int.natAbs_natCast]

/-- Chains of 3 and 5 on words of 64 bits. -/
theorem ellMInterpretBytecode_chains_width64 :
    ∃ codes, ecmBytecode 5 [PracStart.mk 3#64 2#64 (by decide) (by decide) (by decide),
        PracStart.mk 5#64 3#64 (by decide) (by decide) (by decide)] = some (codes ++ [12]) ∧
      ellMInterpretBytecode ellMMultiples (some 1) (codes ++ [12]) = some (some 15) := by
  obtain ⟨inner, codes, -, hcodes, -, -, N, hN, -, hfits⟩ :=
    @ellMInterpretBytecode_chains 64 5
      [PracStart.mk 3#64 2#64 (by decide) (by decide) (by decide),
        PracStart.mk 5#64 3#64 (by decide) (by decide) (by decide)]
      (by simp) (by
        intro start hstart
        simp only [List.mem_cons, List.not_mem_nil, or_false] at hstart
        rcases hstart with rfl | rfl
        · exact ⟨[10, 11], by decide⟩
        · exact ⟨[10, 3, 11], by decide⟩)
  refine ⟨codes, hcodes, ?_⟩
  rw [hN, hfits (by decide)]
  decide

/-- The chain of an odd multiplier above `2 ^ 62` in which `4 * d` wraps and
that nevertheless ends with `d = e = 1`. -/
def pracStartWrapOne : PracStart 64 :=
  ⟨13323073083373901987#64, 10162868973097957485#64, by decide, by decide, by decide⟩

/-- The chain in which a product wraps ends with `d = e = 1`, and its byte code does
not multiply by its number. -/
theorem ellMInterpretBytecode_wraps :
    pracStartWrapOne.n.toNat % 2 = 1 ∧ 3 ≤ pracStartWrapOne.n.toNat ∧
      (∃ literals, pracChain 200 pracStartWrapOne.n pracStartWrapOne.r
        = some (some ⟨1#64, 1#64⟩, literals)) ∧
      ∃ codes, ecmBytecode 200 [pracStartWrapOne] = some codes ∧
        ellMInterpretBytecode ellMMultiples (some 1) codes = some (some 59439933267647781027) ∧
        59439933267647781027 ≠ pracProduct [pracStartWrapOne] := by
  refine ⟨by decide, by decide, ?_, ?_⟩
  · have hend : (pracChain 200 pracStartWrapOne.n pracStartWrapOne.r).map Prod.fst
        = some (some ⟨1#64, 1#64⟩) := by
      decide +kernel
    obtain ⟨⟨last, literals⟩, hchain, hlast⟩ := Option.map_eq_some_iff.mp hend
    exact ⟨literals, by rw [hchain, ← hlast]⟩
  · have hrun : (ecmBytecode 200 [pracStartWrapOne]).bind
        (ellMInterpretBytecode ellMMultiples (some 1)) = some (some 59439933267647781027) := by
      decide +kernel
    obtain ⟨codes, hcodes, hresult⟩ := Option.bind_eq_some_iff.mp hrun
    exact ⟨codes, hcodes, hresult, by decide⟩

end CadoNfs
