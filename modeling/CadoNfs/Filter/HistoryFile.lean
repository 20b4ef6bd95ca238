import CadoNfs.Filter.MergeHistory
import CadoNfs.Lib.LineReader
import Mathlib.Data.List.TakeWhile

/-!
# Reading the history file

`replay` and `merge` read the lines of the history, each with a loop and a buffer of its
own.  Both take a line as it was meant, if it fits into the buffer.

Main results:

- Theorem `readBack_iff`: a line is read back exactly if it fits into the smaller buffer.
-/

namespace CadoNfs.Merge

open SortedXor Digits LineReader
open Nat (digitChar toDigits)
open List (append_assoc cons_append forall_mem_cons length_append length_cons length_singleton
  map_cons mem_append mem_cons_self mem_map nil_append singleton_append)
open Option (bind_eq_bind bind_some)

/-- `STRLENMAX`, the size of the buffer of `replay`. -/
abbrev strlenMax : ℕ := 2048

/-- `RELATION_MAX_BYTES`, the size of the buffer of `merge`. -/
abbrev relationMaxBytes : ℕ := 4096

/-! ## The loops of replay -/

/-- The numbers that the loops of `doAllAdds` build up fit `int`. -/
def numbersFit : ℤ → List Char → Bool
  | _, [] => true
  | i, c :: t =>
    if c = ' ' ∨ c = '\n' then numbersFit 0 t
    else match (toInt32 (10 * i)).bind fun i => toInt32 (i + (c.toNat - 48 : ℤ)) with
      | none => false
      | some i => numbersFit i t

/-- `doAllAdds` of `replay`, where an overflow has no result. -/
def doAllAddsInt (newrows : NewRows) (str : List Char) : Option NewRows :=
  if numbersFit 0 (if str.head? = some '-' then str.tail else str) then doAllAdds newrows str
  else none

/-- `isspace`. -/
def isSpace (c : Char) : Bool := c = ' ' ∨ '\t' ≤ c ∧ c ≤ '\r'

/-- `sscanf` of a `uint64_t`; `none` if there is no number. -/
def sscanfU64 (str : List Char) : Option ℕ :=
  let scan := fun (minus : Bool) (str : List Char) =>
    let digits := str.takeWhile Char.isDigit
    if digits = [] then none
    else
      let n := (digits.foldl (fun n c => 10 * n + (c.toNat - 48)) 0 : ℕ)
      if 2 ^ 64 ≤ n then some (2 ^ 64 - 1)
      else if minus then some ((2 ^ 64 - n) % 2 ^ 64) else some n
  match str.dropWhile isSpace with
  | '-' :: str => scan true str
  | '+' :: str => scan false str
  | str => scan false str

/-- One line in `build_newrows_from_file`: the rows, `bwcost`, and whether the reading
stops. -/
def buildLine (bwcostmin : ℕ) (state : NewRows × ℕ) (str : List Char) :
    Option ((NewRows × ℕ) × Bool) :=
  if ¬ "BWCOST".toList.isPrefixOf str then
    (doAllAddsInt state.1 str).map fun newrows => ((newrows, state.2), false)
  else if ¬ "BWCOSTMIN".toList.isPrefixOf str then
    if str.length < 8 then none
    else
      let bwcost := (sscanfU64 (str.drop 8)).getD state.2
      some ((state.1, bwcost), bwcostmin ≠ 0 ∧ bwcost = bwcostmin)
  else some (state, false)

/-- The loop of `build_newrows_from_file`. -/
def buildNewrowsFromFile (bwcostmin : ℕ) (state : NewRows × ℕ) (hisfile : List Char) :
    Option (NewRows × ℕ) :=
  readLines (strlenMax - 1) (buildLine bwcostmin) state hisfile

/-! ## The loops of merge -/

/-- `strtok` at the space: the token, empty for `NULL`, and what is left. -/
def strtok (str : List Char) : List Char × List Char :=
  let str := str.dropWhile (· = ' ')
  (str.takeWhile (· ≠ ' '), (str.dropWhile (· ≠ ' ')).tail)

/-- The digits of `atoi`. -/
def digitsLoop : ℤ → List Char → ℤ
  | acc, [] => acc
  | acc, c :: str => if c.isDigit then digitsLoop (10 * acc + (c.toNat - 48 : ℤ)) str else acc

/-- `atoi`, where the number must fit. -/
def atoi (str : List Char) : Option ℤ :=
  match str.dropWhile isSpace with
  | '-' :: str => toInt32 (-digitsLoop 0 str)
  | '+' :: str => toInt32 (digitsLoop 0 str)
  | str => toInt32 (digitsLoop 0 str)

/-- The loop of `indicesFromString`, for at most `fuel` tokens. -/
def indicesLoop : ℕ → List ℤ → List Char → Option (List ℤ)
  | 0, _, _ => none
  | fuel + 1, ind, str =>
    let (tok, str) := strtok str
    if tok = [] then some ind
    else if mergeLevelMax ≤ ind.length then none
    else do
      let x ← atoi tok
      indicesLoop fuel (ind ++ [x]) str

/-- `indicesFromString`. -/
def indicesFromString (str : List Char) : Option (List ℤ) :=
  indicesLoop (str.length + 1) [] str

/-- `doAllAdds` of `merge`. -/
def resumeAdds (rep : Report) (mat : FilterMatrix) (str : List Char) :
    Option (Report × FilterMatrix) := do
  match ← indicesFromString str with
  | [] => none
  | i :: targets => do
    let (i0, sg) ← if i < 0 then (toInt32 (-i)).map fun i => (i - 1, -1) else some (i, (1 : ℤ))
    let i0 ← rowIndex i0
    let mat ← targets.foldlM (fun mat t => do addRowsAndUpdate mat (← rowIndex t) i0 (-1)) mat
    let rep := reportn rep (i :: targets)
    if 0 < sg then do
      let mat ← removeRowAndUpdate mat i0
      return (rep, { destroyRow mat i0 with remNrows := mat.remNrows - 1 })
    else return (rep, mat)

/-- One line in `resume`. -/
def resumeLine (state : Report × FilterMatrix) (str : List Char) :
    Option ((Report × FilterMatrix) × Bool) :=
  if ¬ "BWCOST".toList.isPrefixOf str then
    (resumeAdds state.1 state.2 str).map fun state => (state, false)
  else some (state, false)

/-- The loop of `resume`. -/
def resumeLoop (state : Report × FilterMatrix) (resumefile : List Char) :
    Option (Report × FilterMatrix) :=
  readLines (relationMaxBytes - 1) resumeLine state resumefile

/-! ## The text of a line -/

section Line

variable {x : ℤ} {ind : List ℤ} {i : ℕ} {targets : List ℕ} {tok str : List Char}

/-- The number of characters of a line. -/
def lineLength (ind : List ℤ) : ℕ :=
  (ind.map fun x => (toDigits 10 x.natAbs).length + (if x < 0 then 1 else 0) + 1).sum

theorem printInt_eq (x : ℤ) :
    printInt x = (if x < 0 then ['-'] else []) ++ toDigits 10 x.natAbs := by
  rw [printInt]
  split_ifs with hneg
  · rw [show (-x).toNat = x.natAbs by omega]
    rfl
  · rw [show x.toNat = x.natAbs by omega]
    rfl

theorem ne_of_mem_printInt {c : Char} (hc : c ∈ printInt x) : c ≠ ' ' ∧ c ≠ '\n' := by
  rw [printInt_eq, mem_append] at hc
  rcases hc with hc | hc
  · split_ifs at hc
    · rw [List.mem_singleton.mp hc]
      decide
    · simp at hc
  · obtain ⟨d, hd, rfl⟩ := mem_toDigits (by decide) hc
    exact ⟨(digit_ne hd).1, (digit_ne hd).2.1⟩

theorem printInt_ne_nil (x : ℤ) : printInt x ≠ [] := by
  rw [printInt_eq]
  exact List.append_ne_nil_of_right_ne_nil _ Nat.toDigits_ne_nil

theorem reportLine_cons (hne : ind ≠ []) :
    reportLine (x :: ind) = printInt x ++ ' ' :: reportLine ind := by
  cases ind with
  | nil => exact absurd rfl hne
  | cons y ind => rfl

theorem lineLength_cons (x : ℤ) (ind : List ℤ) : lineLength (x :: ind)
    = (toDigits 10 x.natAbs).length + (if x < 0 then 1 else 0) + 1 + lineLength ind := by
  rw [lineLength, map_cons, List.sum_cons, lineLength]

theorem length_le_lineLength (ind : List ℤ) : ind.length ≤ lineLength ind := by
  induction ind with
  | nil => rfl
  | cons x ind ih =>
    rw [length_cons, lineLength_cons]
    omega

theorem lineLength_le (hind : ∀ x ∈ ind, x.natAbs < 10 ^ 10) :
    lineLength ind ≤ 12 * ind.length := by
  induction ind with
  | nil => rfl
  | cons x ind ih =>
    obtain ⟨hx, hind⟩ := forall_mem_cons.mp hind
    have hdigits := (Nat.length_toDigits_le_iff (by decide) (by decide)).mpr hx
    have hrest := ih hind
    rw [length_cons, lineLength_cons]
    split_ifs <;> omega

theorem length_reportLine (hne : ind ≠ []) : (reportLine ind).length = lineLength ind := by
  have hprint : ∀ x : ℤ, (printInt x).length
      = (toDigits 10 x.natAbs).length + if x < 0 then 1 else 0 := by
    intro x
    rw [printInt_eq, length_append]
    split_ifs <;> simp [add_comm]
  induction ind with
  | nil => exact absurd rfl hne
  | cons x ind ih =>
    by_cases hind : ind = []
    · simp [hind, reportLine, lineLength, hprint]
    · rw [reportLine_cons hind, length_append, length_cons, ih hind, hprint, lineLength_cons]
      omega

theorem reportLine_newline (ind : List ℤ) :
    ∃ body, reportLine ind = body ++ ['\n'] ∧ '\n' ∉ body := by
  induction ind with
  | nil => exact ⟨[], rfl, by simp⟩
  | cons x ind ih =>
    have hx : '\n' ∉ printInt x := fun h => (ne_of_mem_printInt h).2 rfl
    by_cases hind : ind = []
    · rw [hind, reportLine]
      exact ⟨printInt x, rfl, hx⟩
    · obtain ⟨body, hline, hbody⟩ := ih
      rw [reportLine_cons hind, hline]
      refine ⟨printInt x ++ ' ' :: body, by simp, ?_⟩
      simp only [mem_append, List.mem_cons, not_or]
      exact ⟨hx, by decide, hbody⟩

/-! ## The decoding of replay -/

theorem numbersFit_toDigits {n : ℕ} (hn : (n : ℤ) < 2 ^ 31) :
    numbersFit 0 (toDigits 10 n ++ str) = numbersFit n str := by
  refine apply_toDigits_of_lt (by decide) (fun acc d text hacc hd hlt => ?_) hn str
  obtain ⟨hspace, hend, -, hvalue⟩ := digit_ne hd
  push_cast at hlt
  rw [numbersFit, if_neg (by simp [hspace, hend]), hvalue, toInt32_of (by omega) (by omega),
    bind_some, toInt32_of (by omega) (by omega)]
  rfl

theorem numbersFit_reportLine (hind : ∀ n ∈ targets, (n : ℤ) < 2 ^ 31) :
    numbersFit 0 (reportLine (targets.map Nat.cast)) := by
  induction targets with
  | nil => rfl
  | cons n targets ih =>
    obtain ⟨hn, htargets⟩ := forall_mem_cons.mp hind
    by_cases hempty : targets = []
    · rw [hempty, List.map_singleton, reportLine, printInt_natCast, numbersFit_toDigits hn]
      rfl
    · rw [map_cons, reportLine_cons (by simpa using hempty), printInt_natCast,
        numbersFit_toDigits hn, numbersFit, if_pos (Or.inl rfl)]
      exact ih htargets

/-- The index of a pivot: a negative one is kept. -/
def pivotIndex (keep : Bool) (i : ℕ) : ℤ := if keep then -((i : ℤ) + 1) else i

theorem reportLine_pivotIndex (keep : Bool) (i : ℕ) (targets : List ℕ) :
    reportLine (pivotIndex keep i :: targets.map Nat.cast)
      = (if keep then ['-'] else [])
        ++ reportLine (((if keep then i + 1 else i) :: targets).map Nat.cast) := by
  cases keep with
  | false => rfl
  | true =>
    have hprint : printInt (pivotIndex true i) = '-' :: printInt ((i + 1 : ℕ) : ℤ) := by
      rw [pivotIndex, if_pos rfl, printInt, if_pos (by omega), printInt_natCast]
      congr 2
    by_cases htargets : targets = []
    · rw [htargets, List.map_nil, reportLine, hprint]
      rfl
    · have hne : targets.map (Nat.cast : ℕ → ℤ) ≠ [] := by simpa using htargets
      rw [reportLine_cons hne, hprint, map_cons, reportLine_cons hne]
      rfl

theorem head_reportLine (n : ℕ) (targets : List ℕ) :
    ∃ d < 10, (reportLine ((n :: targets).map Nat.cast)).head? = some (digitChar d) := by
  obtain ⟨rest, hline⟩ : ∃ rest,
      reportLine ((n :: targets).map Nat.cast) = toDigits 10 n ++ rest := by
    by_cases htargets : targets = []
    · exact ⟨['\n'], by rw [htargets, List.map_singleton, reportLine, printInt_natCast]⟩
    · exact ⟨_, by rw [map_cons, reportLine_cons (by simpa using htargets), printInt_natCast]⟩
  cases hdigits : toDigits 10 n with
  | nil => exact absurd hdigits Nat.toDigits_ne_nil
  | cons c text =>
    obtain ⟨d, hd, rfl⟩ := mem_toDigits (by decide : 1 < 10)
      (show c ∈ toDigits 10 n by rw [hdigits]; exact mem_cons_self)
    exact ⟨d, hd, by rw [hline, hdigits]; rfl⟩

theorem not_isPrefixOf_reportLine (keep : Bool) (i : ℕ) (targets : List ℕ) :
    ¬ "BWCOST".toList.isPrefixOf (reportLine (pivotIndex keep i :: targets.map Nat.cast)) := by
  have hB : ∀ d < 10, digitChar d ≠ 'B' := by decide
  rw [reportLine_pivotIndex]
  cases keep with
  | true => simp
  | false =>
    obtain ⟨d, hd, hhead⟩ := head_reportLine i targets
    simp only [Bool.false_eq_true, if_false, nil_append]
    cases hline : reportLine ((i :: targets).map Nat.cast) with
    | nil => simp
    | cons c text =>
      rw [hline, List.head?_cons, Option.some.injEq] at hhead
      rw [hhead]
      simp [(hB d hd).symm]

theorem doAllAddsInt_reportLine (newrows : NewRows) (keep : Bool) (hi : (i : ℤ) < 2 ^ 31 - 1)
    (htargets : ∀ t ∈ targets, (t : ℤ) < 2 ^ 31 - 1) :
    doAllAddsInt newrows (reportLine (pivotIndex keep i :: targets.map Nat.cast))
      = (addTargets newrows i targets).map fun newrows =>
        if keep then newrows else Function.update newrows i none := by
  have hfit : numbersFit 0
      (reportLine (((if keep then i + 1 else i) :: targets).map Nat.cast)) := by
    refine numbersFit_reportLine (forall_mem_cons.mpr ⟨?_, fun t ht => ?_⟩)
    · split_ifs <;> push_cast <;> omega
    · have hlt := htargets t ht
      omega
  have hstrip : (if (reportLine (pivotIndex keep i :: targets.map Nat.cast)).head? = some '-'
      then (reportLine (pivotIndex keep i :: targets.map Nat.cast)).tail
      else reportLine (pivotIndex keep i :: targets.map Nat.cast))
        = reportLine (((if keep then i + 1 else i) :: targets).map Nat.cast) := by
    rw [reportLine_pivotIndex]
    cases keep with
    | true => rfl
    | false =>
      obtain ⟨d, hd, hhead⟩ := head_reportLine i targets
      simp only [Bool.false_eq_true, if_false, nil_append]
      rw [if_neg]
      rw [hhead, Option.some.injEq]
      exact (digit_ne hd).2.2.1
  rw [doAllAddsInt, hstrip, if_pos hfit]
  exact doAllAdds_reportLine newrows targets keep

/-! ## The decoding of merge -/

theorem strtok_space (htok : ∀ c ∈ tok, c ≠ ' ') (hne : tok ≠ []) :
    strtok (tok ++ ' ' :: str) = (tok, str) := by
  have hdrop : (tok ++ ' ' :: str).dropWhile (· = ' ') = tok ++ ' ' :: str := by
    obtain ⟨c, tok, rfl⟩ := List.exists_cons_of_ne_nil hne
    rw [cons_append, List.dropWhile_cons_of_neg]
    simpa using htok c mem_cons_self
  have hall : ∀ c ∈ tok, decide (c ≠ ' ') = true := fun c hc => decide_eq_true (htok c hc)
  simp only [strtok, hdrop]
  rw [List.takeWhile_append_of_pos hall, List.dropWhile_append_of_pos hall]
  simp

theorem strtok_last (htok : ∀ c ∈ tok, c ≠ ' ') : strtok tok = (tok, []) := by
  have hdrop : tok.dropWhile (· = ' ') = tok := by
    cases tok with
    | nil => rfl
    | cons c tok =>
      rw [List.dropWhile_cons_of_neg]
      simpa using htok c mem_cons_self
  have hall : ∀ c ∈ tok, decide (c ≠ ' ') = true := fun c hc => decide_eq_true (htok c hc)
  simp only [strtok, hdrop]
  rw [List.takeWhile_eq_self_iff.mpr hall, List.dropWhile_eq_nil_iff.mpr hall, List.tail_nil]

theorem digitsLoop_toDigits (n : ℕ) (hstr : str = [] ∨ str = ['\n']) :
    digitsLoop 0 (toDigits 10 n ++ str) = n := by
  have hdigit : ∀ d < 10, (digitChar d).isDigit = true := by decide
  have hstep : ∀ acc d text, d < 10 →
      digitsLoop acc (digitChar d :: text) = digitsLoop ((10 : ℕ) * acc + d) text := by
    intro acc d text hd
    rw [digitsLoop, if_pos (hdigit d hd), (digit_ne hd).2.2.2]
    rfl
  rw [apply_toDigits (by decide) hstep]
  rcases hstr with rfl | rfl
  · rfl
  · exact if_neg (by decide)

theorem atoi_printInt (hge : -2 ^ 31 ≤ x) (hlt : x < 2 ^ 31) (hstr : str = [] ∨ str = ['\n']) :
    atoi (printInt x ++ str) = some x := by
  have hloop := digitsLoop_toDigits x.natAbs hstr
  rw [printInt_eq]
  by_cases hneg : x < 0
  · simp only [hneg, if_true, atoi, cons_append, nil_append]
    rw [List.dropWhile_cons_of_neg (by decide)]
    simp only [hloop]
    rw [show -(x.natAbs : ℤ) = x by omega, toInt32_of hge hlt]
  · simp only [hneg, if_false, nil_append]
    cases hdigits : toDigits 10 x.natAbs with
    | nil => exact absurd hdigits Nat.toDigits_ne_nil
    | cons c text =>
      obtain ⟨d, hd, rfl⟩ := mem_toDigits (by decide : 1 < 10)
        (show c ∈ toDigits 10 x.natAbs by rw [hdigits]; exact mem_cons_self)
      have hspace : ∀ d < 10, ¬ isSpace (digitChar d) := by decide
      have hsign : ∀ d < 10, digitChar d ≠ '-' ∧ digitChar d ≠ '+' := by decide
      rw [hdigits] at hloop
      rw [cons_append] at hloop ⊢
      rw [atoi, List.dropWhile_cons_of_neg (hspace d hd)]
      split
      · next h => exact absurd (List.cons.inj h).1 (hsign d hd).1
      · next h => exact absurd (List.cons.inj h).1 (hsign d hd).2
      · rw [hloop, show (x.natAbs : ℤ) = x by omega, toInt32_of hge hlt]

theorem indicesLoop_reportLine {fuel : ℕ} {done : List ℤ} (hne : ind ≠ [])
    (hfit : ∀ x ∈ ind, -2 ^ 31 ≤ x ∧ x < 2 ^ 31)
    (hroom : done.length + ind.length ≤ mergeLevelMax) (hfuel : ind.length < fuel) :
    indicesLoop fuel done (reportLine ind) = some (done ++ ind) := by
  induction ind generalizing fuel done with
  | nil => exact absurd rfl hne
  | cons x ind ih =>
    obtain ⟨⟨hge, hlt⟩, hfit⟩ := forall_mem_cons.mp hfit
    rw [length_cons] at hroom hfuel
    obtain ⟨fuel, rfl⟩ : ∃ m, fuel = m + 1 := ⟨fuel - 1, by omega⟩
    have hspace : ∀ c ∈ printInt x, c ≠ ' ' := fun c hc => (ne_of_mem_printInt hc).1
    by_cases hind : ind = []
    · subst hind
      obtain ⟨fuel, rfl⟩ : ∃ m, fuel = m + 1 := ⟨fuel - 1, by rw [List.length_nil] at hfuel; omega⟩
      have htok : ∀ c ∈ printInt x ++ ['\n'], c ≠ ' ' := by
        intro c hc
        rcases mem_append.mp hc with hc | hc
        · exact hspace c hc
        · rw [List.mem_singleton.mp hc]
          decide
      simp only [reportLine, indicesLoop, strtok_last htok]
      rw [if_neg (by simp), if_neg (by omega), atoi_printInt hge hlt (Or.inr rfl)]
      rfl
    · rw [reportLine_cons hind]
      simp only [indicesLoop, strtok_space hspace (printInt_ne_nil x)]
      have hread : atoi (printInt x ++ []) = some x := atoi_printInt hge hlt (Or.inl rfl)
      rw [List.append_nil] at hread
      rw [if_neg (printInt_ne_nil x), if_neg (by omega), hread, bind_eq_bind,
        bind_some, ih hind hfit (by rw [length_append, length_singleton]; omega)
          (by omega), append_assoc, singleton_append]

theorem resumeAdds_reportLine (rep : Report) (mat : FilterMatrix) (keep : Bool)
    (hi : (i : ℤ) < 2 ^ 31 - 1) (htargets : ∀ t ∈ targets, (t : ℤ) < 2 ^ 31 - 1)
    (hn : targets.length + 1 ≤ mergeLevelMax) :
    resumeAdds rep mat (reportLine (pivotIndex keep i :: targets.map Nat.cast))
      = (targets.foldlM (fun mat t => addRowsAndUpdate mat t i (-1)) mat).bind fun mat =>
        (if keep then some mat else (removeRowAndUpdate mat i).map fun mat =>
          { destroyRow mat i with remNrows := mat.remNrows - 1 }).map fun mat =>
        (rep ++ [reportLine (pivotIndex keep i :: targets.map Nat.cast)], mat) := by
  have hindex : ∀ k : ℕ, rowIndex k = some k := fun k => by simp [rowIndex]
  have hind : indicesFromString (reportLine (pivotIndex keep i :: targets.map Nat.cast))
      = some (pivotIndex keep i :: targets.map Nat.cast) := by
    refine indicesLoop_reportLine (by simp) (forall_mem_cons.mpr ⟨?_, fun x hx => ?_⟩)
      (by simpa using hn) ?_
    · rw [pivotIndex]
      split_ifs <;> omega
    · obtain ⟨t, ht, rfl⟩ := mem_map.mp hx
      have hlt := htargets t ht
      omega
    · rw [length_reportLine (by simp)]
      exact Nat.lt_succ_of_le (length_le_lineLength _)
  have hadds : ((targets.map Nat.cast).foldlM
      (fun mat t => (rowIndex t).bind fun t => addRowsAndUpdate mat t i (-1)) mat)
        = targets.foldlM (fun mat t => addRowsAndUpdate mat t i (-1)) mat := by
    rw [List.foldlM_map]
    simp [hindex]
  cases keep with
  | true =>
    have hneg : (pivotIndex true i) < 0 := by
      rw [pivotIndex, if_pos rfl]
      omega
    have hi0 : (toInt32 (-pivotIndex true i)).map (fun i => (i - 1, (-1 : ℤ)))
        = some ((i : ℤ), -1) := by
      rw [pivotIndex, if_pos rfl, neg_neg, toInt32_of (by omega) (by omega), Option.map_some]
      congr 2
      omega
    simp only [resumeAdds, hind, bind_eq_bind, bind_some, hneg, if_true, hi0]
    rw [hindex, bind_some, hadds]
    rfl
  | false =>
    have hnonneg : ¬ pivotIndex false i < 0 := by
      rw [pivotIndex, if_neg (by simp)]
      omega
    simp only [resumeAdds, hind, bind_eq_bind, bind_some, hnonneg, if_false,
      show rowIndex (pivotIndex false i) = some i from hindex i, hadds]
    refine Option.bind_congr fun mat _ => ?_
    cases hremove : removeRowAndUpdate mat i with
    | none => simp
    | some mat' => simp [reportn]

/-! ## Reading back -/

/-- `replay` reads the line `line` completely and takes it as it was meant. -/
def ReplayReads (line : List Char) (keep : Bool) (i : ℕ) (targets : List ℕ) : Prop :=
  ∀ (bwcostmin : ℕ) (newrows : NewRows) (bwcost : ℕ) (text : List Char),
    fgets (strlenMax - 1) (line ++ text) = (line, text) ∧
    buildNewrowsFromFile bwcostmin (newrows, bwcost) (line ++ text)
      = (addTargets newrows i targets).bind fun newrows => buildNewrowsFromFile bwcostmin
        (if keep then newrows else Function.update newrows i none, bwcost) text

/-- `merge` reads the line `line` completely and takes it as it was meant. -/
def ResumeReads (line : List Char) (keep : Bool) (i : ℕ) (targets : List ℕ) : Prop :=
  ∀ (rep : Report) (mat : FilterMatrix) (text : List Char),
    fgets (relationMaxBytes - 1) (line ++ text) = (line, text) ∧
    resumeLoop (rep, mat) (line ++ text)
      = (targets.foldlM (fun mat t => addRowsAndUpdate mat t i (-1)) mat).bind fun mat =>
        (if keep then some mat else (removeRowAndUpdate mat i).map fun mat =>
          { destroyRow mat i with remNrows := mat.remNrows - 1 }).bind fun mat =>
        resumeLoop (rep ++ [line], mat) text

section

variable (keep : Bool) (hi : (i : ℤ) < 2 ^ 31 - 1) (htargets : ∀ t ∈ targets, (t : ℤ) < 2 ^ 31 - 1)
include hi htargets

theorem replayReads_of_lt
    (hlength : lineLength (pivotIndex keep i :: targets.map Nat.cast) < strlenMax) :
    ReplayReads (reportLine (pivotIndex keep i :: targets.map Nat.cast)) keep i targets := by
  intro bwcostmin newrows bwcost text
  have hline := length_reportLine (show pivotIndex keep i :: targets.map Nat.cast ≠ [] by simp)
  have hprefix := not_isPrefixOf_reportLine keep i targets
  have hadds := doAllAddsInt_reportLine newrows keep hi htargets
  obtain ⟨body, hbody, hnewline⟩ :=
    reportLine_newline (pivotIndex keep i :: targets.map Nat.cast)
  rw [hbody] at hline hprefix hadds ⊢
  rw [length_append, length_singleton] at hline
  rw [append_assoc, singleton_append]
  refine ⟨fgets_line hnewline (by omega), ?_⟩
  rw [buildNewrowsFromFile, readLines_line hnewline (by omega), buildLine, if_pos hprefix, hadds]
  cases addTargets newrows i targets <;> rfl

theorem resumeReads (hn : targets.length + 1 ≤ mergeLevelMax) :
    ResumeReads (reportLine (pivotIndex keep i :: targets.map Nat.cast)) keep i targets := by
  intro rep mat text
  have hline := length_reportLine (show pivotIndex keep i :: targets.map Nat.cast ≠ [] by simp)
  have hshort : lineLength (pivotIndex keep i :: targets.map Nat.cast) ≤ 12 * mergeLevelMax := by
    have hle := @lineLength_le (pivotIndex keep i :: targets.map Nat.cast)
      (forall_mem_cons.mpr ⟨?_, fun x hx => ?_⟩)
    · rw [length_cons, List.length_map] at hle
      omega
    · rw [pivotIndex]
      split_ifs <;> omega
    · obtain ⟨t, ht, rfl⟩ := mem_map.mp hx
      have hlt := htargets t ht
      omega
  have hroom : 12 * mergeLevelMax < relationMaxBytes := by decide
  have hprefix := not_isPrefixOf_reportLine keep i targets
  have hadds := resumeAdds_reportLine rep mat keep hi htargets hn
  obtain ⟨body, hbody, hnewline⟩ :=
    reportLine_newline (pivotIndex keep i :: targets.map Nat.cast)
  rw [hbody] at hline hprefix hadds ⊢
  rw [length_append, length_singleton] at hline
  rw [append_assoc, singleton_append]
  refine ⟨fgets_line hnewline (by omega), ?_⟩
  rw [resumeLoop, readLines_line hnewline (by omega), resumeLine, if_pos hprefix, hadds]
  cases targets.foldlM (fun mat t => addRowsAndUpdate mat t i (-1)) mat with
  | none => rfl
  | some mat' =>
    rw [bind_some, bind_some]
    cases (if keep then some mat' else (removeRowAndUpdate mat' i).map fun mat =>
      { destroyRow mat i with remNrows := mat.remNrows - 1 }) <;> rfl

end

theorem lineLength_lt_of_replayReads {keep : Bool}
    (h : ReplayReads (reportLine (pivotIndex keep i :: targets.map Nat.cast)) keep i targets) :
    lineLength (pivotIndex keep i :: targets.map Nat.cast) < strlenMax := by
  rw [← length_reportLine (by simp)]
  obtain ⟨body, hbody, hnewline⟩ :=
    reportLine_newline (pivotIndex keep i :: targets.map Nat.cast)
  have hread := (h 0 (fun _ => none) 0 []).1
  rw [hbody] at hread ⊢
  rw [append_assoc, singleton_append] at hread
  rw [length_append, length_singleton]
  by_contra hlong
  rw [fgets_long hnewline (by omega), Prod.mk.injEq] at hread
  have hlength := congrArg List.length hread.1
  rw [List.length_take, length_append, length_singleton] at hlength
  omega

variable (keep : Bool)

/-- A line is read back, by both programs, exactly if it fits into the buffer of `replay`. -/
theorem readBack_iff (hi : (i : ℤ) < 2 ^ 31 - 1) (htargets : ∀ t ∈ targets, (t : ℤ) < 2 ^ 31 - 1)
    (hn : targets.length + 1 ≤ mergeLevelMax) :
    (ReplayReads (reportLine (pivotIndex keep i :: targets.map Nat.cast)) keep i targets ∧
        ResumeReads (reportLine (pivotIndex keep i :: targets.map Nat.cast)) keep i targets) ↔
      lineLength (pivotIndex keep i :: targets.map Nat.cast) < strlenMax :=
  ⟨fun h => lineLength_lt_of_replayReads h.1, fun hlength =>
    ⟨replayReads_of_lt keep hi htargets hlength, resumeReads keep hi htargets hn⟩⟩

end Line

/-- With a kept pivot and two targets. -/
theorem readBack_threeRows :
    (ReplayReads (reportLine (pivotIndex true 7 :: [12, 2147483646].map Nat.cast)) true 7
          [12, 2147483646] ∧
        ResumeReads (reportLine (pivotIndex true 7 :: [12, 2147483646].map Nat.cast)) true 7
          [12, 2147483646]) ↔
      lineLength (pivotIndex true 7 :: [12, 2147483646].map Nat.cast) < strlenMax :=
  readBack_iff true (by decide) (by decide) (by decide)

/-- A line with 256 numbers of 8 digits is not read back by `replay`. -/
theorem not_readBack :
    ¬ ∀ (keep : Bool) (i : ℕ) (targets : List ℕ), (i : ℤ) < 2 ^ 31 - 1 →
      (∀ t ∈ targets, (t : ℤ) < 2 ^ 31 - 1) → targets.length + 1 ≤ mergeLevelMax →
      ReplayReads (reportLine (pivotIndex keep i :: targets.map Nat.cast)) keep i targets ∧
        ResumeReads (reportLine (pivotIndex keep i :: targets.map Nat.cast)) keep i targets := by
  intro h
  have hshort := lineLength_lt_of_replayReads
    (h false 10000000 ((List.range 255).map fun k => 10000001 + k) (by decide) ?_ ?_).1
  · revert hshort
    decide +kernel
  · intro t ht
    obtain ⟨k, hk, rfl⟩ := mem_map.mp ht
    rw [List.mem_range] at hk
    omega
  · simp [mergeLevelMax]

end CadoNfs.Merge
