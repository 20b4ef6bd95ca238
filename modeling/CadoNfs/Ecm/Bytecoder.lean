import Mathlib.Data.Int.Range
import Mathlib.Data.List.Basic

/-!
# The dictionary coder of prac_bc.c

`bytecoder` turns a sequence of literals into codes: it keeps a window of
literals that match the beginning of some dictionary key and, when a new literal no
longer fits, writes the code of the longest key that the window starts with.  Code
zero in the dictionary writes nothing.

Main results:

- Theorem `bytecoder_prepend`: the coder only appends to its output.
- Theorem `CoderTable.Lawful.compress`: the output for a sequence of Lucas chains
  stands for the literals without the first chain start and the last chain end.
- Theorems `pp1Table_lawful` and `ecmTable_lawful`: with the dictionaries of
  P+1 and ECM one literal of a chain moves the coder between a few windows, and the
  codes written stand for the literals that left the window.
-/

namespace CadoNfs

open Option (any_eq_true bind_eq_bind bind_map bind_some)
open List (append_assoc foldlM_cons)

/-! ## Data -/

/-- `literal_t`, a `char`. -/
abbrev Literal := ℤ

/-- `code_t`, a `char`. -/
abbrev Code := ℤ

/-- One entry of a dictionary: a key of literals and its code. -/
structure BcEntry where
  key : List Literal
  code : Code
  deriving DecidableEq, Repr

/-- `bc_dict_t`. -/
abbrev BcDict := List BcEntry

/-- `bc_state_t`: the window of the last literals, the codes written so far and
the dictionary, if there is one. -/
structure BcState where
  histlen : ℕ
  history : List Literal
  buffer : List Code
  dict : Option BcDict
  deriving DecidableEq, Repr

/-- `BC_MAXCODE`. -/
def bcMaxcode : ℤ := 32

/-! ## The coder -/

variable (c : Code)

/-- `bytecoder_output`; `none` is a failed assertion. -/
def bytecoderOutput (state : BcState) : Option BcState :=
  if c < bcMaxcode then some { state with buffer := state.buffer ++ [c] } else none

/-- `dict_matchlen`: the length of the common beginning of window and key. -/
def dictMatchlen (history key : List Literal) : ℕ :=
  match history, key with
  | h :: history, k :: key => if h ≠ k then 0 else dictMatchlen history key + 1
  | _, _ => 0

/-- The loop of `dict_longestmatch` over the remaining entries. -/
def dictLongestmatchLoop (history : List Literal) (allowPartial : Bool) (entries : BcDict)
    (best : Option BcEntry) (matchlen : ℕ) : Option BcEntry × ℕ :=
  match entries with
  | [] => (best, matchlen)
  | entry :: entries =>
    let t := dictMatchlen history entry.key
    if t > matchlen ∧ (allowPartial ∨ t = entry.key.length) then
      dictLongestmatchLoop history allowPartial entries (some entry) t
    else
      dictLongestmatchLoop history allowPartial entries best matchlen

/-- `dict_longestmatch`: the first entry with the longest match and the length of
the match; `none` is the index -1. -/
def dictLongestmatch (dict : BcDict) (history : List Literal) (allowPartial : Bool) :
    Option BcEntry × ℕ :=
  dictLongestmatchLoop history allowPartial dict none 0

/-- `coder_histadd`; `none` is a failed assertion. -/
def coderHistadd (c : Literal) (state : BcState) : Option BcState :=
  if state.history.length + 1 ≤ state.histlen then
    some { state with history := state.history ++ [c] }
  else
    none

/-- `coder_histremove`; `none` is the call of `abort`. -/
def coderHistremove (n : ℕ) (state : BcState) : Option BcState :=
  if n > state.history.length then none
  else some { state with history := state.history.drop n }

/-- `coder_outputbest`: write the best complete match, or else the first literal
of the window. -/
def coderOutputbest (dict : BcDict) (state : BcState) : Option BcState :=
  match state.history with
  | [] => none
  | first :: _ =>
    match dictLongestmatch dict state.history false with
    | (some entry, bestlen) => do
      let state ← if entry.code ≠ 0 then bytecoderOutput entry.code state else some state
      coderHistremove bestlen state
    | (none, _) => do
      let state ← bytecoderOutput first state
      coderHistremove 1 state

/-- `bytecoder_init`. -/
def bytecoderInit (dict : Option BcDict) : BcState :=
  match dict with
  | some entries =>
    { histlen := (entries.map fun entry => entry.key.length + 1).foldl max 1
      history := [], buffer := [], dict := dict }
  | none => { histlen := 0, history := [], buffer := [], dict := dict }

/-- The loop of `bytecoder`: write until the whole window matches some key. -/
def bytecoderLoop (dict : BcDict) (fuel : ℕ) (state : BcState) : Option BcState :=
  match fuel with
  | 0 => none
  | fuel + 1 =>
    if (dictLongestmatch dict state.history true).2 = state.history.length then
      some state
    else do
      let state ← coderOutputbest dict state
      bytecoderLoop dict fuel state

/-- `bytecoder`: take one literal. -/
def bytecoder (c : Literal) (state : BcState) : Option BcState :=
  match state.dict with
  | some dict => do
    let state ← coderHistadd c state
    bytecoderLoop dict (state.history.length + 1) state
  | none => bytecoderOutput c state

/-- The loop of `bytecoder_flush`. -/
def bytecoderFlushLoop (dict : BcDict) (fuel : ℕ) (state : BcState) : Option BcState :=
  match fuel with
  | 0 => none
  | fuel + 1 =>
    if state.history.length > 0 then do
      let state ← coderOutputbest dict state
      bytecoderFlushLoop dict fuel state
    else
      some state

/-- `bytecoder_flush`. -/
def bytecoderFlush (state : BcState) : Option BcState :=
  match state.dict with
  | some dict => bytecoderFlushLoop dict (state.history.length + 1) state
  | none => some state

/-- The codes for a sequence of literals: initialise, take each literal, flush. -/
def bytecoderCompress (dict : BcDict) (literals : List Literal) : Option (List Code) := do
  let state ← literals.foldlM (fun state c => bytecoder c state) (bytecoderInit (some dict))
  let state ← bytecoderFlush state
  some state.buffer

/-! ## The coder only appends -/

/-- The state with codes put before its output. -/
def BcState.prepend (front : List Code) (state : BcState) : BcState :=
  { state with buffer := front ++ state.buffer }

section Prepend

variable (front : List Code) (dict : BcDict)

theorem bytecoderOutput_prepend (c : Code) (state : BcState) :
    bytecoderOutput c (state.prepend front)
      = (bytecoderOutput c state).map (BcState.prepend front) := by
  by_cases h : c < bcMaxcode <;> simp [bytecoderOutput, BcState.prepend, h]

theorem coderHistremove_prepend (n : ℕ) (state : BcState) :
    coderHistremove n (state.prepend front)
      = (coderHistremove n state).map (BcState.prepend front) := by
  by_cases h : n > state.history.length <;> simp [coderHistremove, BcState.prepend, h]

theorem coderOutputbest_prepend (state : BcState) :
    coderOutputbest dict (state.prepend front)
      = (coderOutputbest dict state).map (BcState.prepend front) := by
  have hhist : (state.prepend front).history = state.history := rfl
  unfold coderOutputbest
  rw [hhist]
  cases state.history with
  | nil => rfl
  | cons first rest =>
    simp only
    rcases dictLongestmatch dict (first :: rest) false with ⟨_ | entry, bestlen⟩
    · simp only [bytecoderOutput_prepend, bind_eq_bind, bind_map,
        Option.map_bind, Function.comp_def, coderHistremove_prepend]
    · by_cases hcode : entry.code ≠ 0
      · simp only [if_pos hcode, bytecoderOutput_prepend, bind_eq_bind,
          bind_map, Option.map_bind, Function.comp_def, coderHistremove_prepend]
      · simp [if_neg hcode, coderHistremove_prepend]

theorem bytecoderLoop_prepend (fuel : ℕ) (state : BcState) :
    bytecoderLoop dict fuel (state.prepend front)
      = (bytecoderLoop dict fuel state).map (BcState.prepend front) := by
  induction fuel generalizing state with
  | zero => rfl
  | succ fuel ih =>
    have hhist : (state.prepend front).history = state.history := rfl
    unfold bytecoderLoop
    rw [hhist]
    by_cases h : (dictLongestmatch dict state.history true).2 = state.history.length
    · rw [if_pos h, if_pos h]
      rfl
    · simp only [if_neg h, coderOutputbest_prepend, bind_eq_bind, bind_map,
        Option.map_bind, Function.comp_def, ih]

/-- The coder only appends to its output. -/
theorem bytecoder_prepend (c : Literal) (state : BcState) :
    bytecoder c (state.prepend front) = (bytecoder c state).map (BcState.prepend front) := by
  have hdict : (state.prepend front).dict = state.dict := rfl
  unfold bytecoder
  rw [hdict]
  cases state.dict with
  | none => exact bytecoderOutput_prepend front c state
  | some dict =>
    have hadd : coderHistadd c (state.prepend front)
        = (coderHistadd c state).map (BcState.prepend front) := by
      by_cases h : state.history.length + 1 ≤ state.histlen <;>
        simp [coderHistadd, BcState.prepend, h]
    simp only [hadd, bind_eq_bind, bind_map, Option.map_bind, Function.comp_def]
    congr 1
    funext s
    exact bytecoderLoop_prepend front dict _ s

theorem foldlM_bytecoder_prepend (literals : List Literal) (state : BcState) :
    literals.foldlM (fun state c => bytecoder c state) (state.prepend front)
      = (literals.foldlM (fun state c => bytecoder c state) state).map
          (BcState.prepend front) := by
  induction literals generalizing state with
  | nil => rfl
  | cons c literals ih =>
    simp only [foldlM_cons, bytecoder_prepend, bind_eq_bind, bind_map,
      Option.map_bind, Function.comp_def, ih]

theorem bytecoderFlush_prepend (state : BcState) :
    bytecoderFlush (state.prepend front)
      = (bytecoderFlush state).map (BcState.prepend front) := by
  have hloop : ∀ (dict : BcDict) (fuel : ℕ) (state : BcState),
      bytecoderFlushLoop dict fuel (state.prepend front)
        = (bytecoderFlushLoop dict fuel state).map (BcState.prepend front) := by
    intro dict fuel
    induction fuel with
    | zero => exact fun _ => rfl
    | succ fuel ih =>
      intro state
      have hhist : (state.prepend front).history = state.history := rfl
      unfold bytecoderFlushLoop
      rw [hhist]
      by_cases h : state.history.length > 0
      · simp only [if_pos h, coderOutputbest_prepend, bind_eq_bind,
          bind_map, Option.map_bind, Function.comp_def, ih]
      · rw [if_neg h, if_neg h]
        rfl
  have hdict : (state.prepend front).dict = state.dict := rfl
  unfold bytecoderFlush
  rw [hdict]
  cases state.dict with
  | none => rfl
  | some dict => exact hloop dict _ state

end Prepend

/-! ## Coding a sequence of chains -/

/-- The literals between the first chain start and the last chain end of a sequence of
chains: a chain start `10` stands exactly after a chain end `11`. -/
def IsChainLiterals (afterEnd : Bool) (literals : List Literal) : Prop :=
  match literals with
  | [] => afterEnd = false
  | c :: literals =>
    (0 ≤ c ∧ c < 12) ∧ (c = 10 ↔ afterEnd = true) ∧ IsChainLiterals (c == 11) literals

/-- The window ends with a chain end. -/
def endsChain (history : List Literal) : Bool :=
  history.getLast? == some 11

/-- A dictionary with the literals that each code stands for, the codes that the coder
writes before the end of the byte code, and the windows that occur between two literals
of a sequence of chains. -/
structure CoderTable where
  dict : BcDict
  histlen : ℕ
  expand : Code → List Literal
  codes : List Code
  windows : List (List Literal)

namespace CoderTable

variable (table : CoderTable)

/-- The coder with a given window and nothing written. -/
def state (history : List Literal) : BcState :=
  { histlen := table.histlen, history := history, buffer := [], dict := some table.dict }

/-- What holds of the coder after one literal: the codes written and the window stand
for the old window and the literal. -/
def StepOk (history : List Literal) (c : Literal) (state : BcState) : Prop :=
  state = (table.state state.history).prepend state.buffer ∧ state.history ∈ table.windows ∧
    state.buffer.flatMap table.expand ++ state.history = history ++ [c] ∧
    endsChain state.history = (c == 11) ∧ ∀ c ∈ state.buffer, c ∈ table.codes

instance (history : List Literal) (c : Literal) (state : BcState) :
    Decidable (table.StepOk history c state) := by
  unfold StepOk
  infer_instance

/-- The output at the end: all of the window but the chain end, and the end of the byte
code. -/
def LastOk (history : List Literal) (state : BcState) : Prop :=
  state = (table.state []).prepend (state.buffer.dropLast ++ [12]) ∧
    state.buffer.dropLast.flatMap table.expand = history ∧
    ∀ c ∈ state.buffer.dropLast, c ∈ table.codes

instance (history : List Literal) (state : BcState) :
    Decidable (table.LastOk history state) := by
  unfold LastOk
  infer_instance

/-- The table describes the coder: every literal moves it from window to window, the
first chain start is dropped by the literal that follows it, and the last chain end is
dropped by the end of the byte code. -/
structure Lawful : Prop where
  init : bytecoder 10 (bytecoderInit (some table.dict)) = some (table.state [10])
  empty : [] ∈ table.windows
  step : ∀ history ∈ table.windows, ∀ c, 0 ≤ c → c < 12 → (c = 10 ↔ endsChain history = true) →
    (bytecoder c (table.state history)).any (fun state => decide (table.StepOk history c state))
      = true
  first : ∀ c, 0 ≤ c → c < 12 → c ≠ 10 →
    bytecoder c (table.state [10]) = bytecoder c (table.state [])
  last : ∀ history ∈ table.windows, endsChain history = false →
    ([11, 12].foldlM (fun state c => bytecoder c state) (table.state history)
      >>= bytecoderFlush).any (fun state => decide (table.LastOk history state)) = true

variable {table}

/-- Taking the literals of a sequence of chains: codes and window stand for the old
window and the literals taken. -/
theorem Lawful.run (hlawful : table.Lawful) (literals history : List Literal)
    (hhistory : history ∈ table.windows)
    (hliterals : IsChainLiterals (endsChain history) literals) :
    ∃ codes window, literals.foldlM (fun state c => bytecoder c state) (table.state history)
        = some ((table.state window).prepend codes) ∧
      window ∈ table.windows ∧ endsChain window = false ∧
      codes.flatMap table.expand ++ window = history ++ literals ∧
      ∀ c ∈ codes, c ∈ table.codes := by
  induction literals generalizing history with
  | nil => exact ⟨[], history, rfl, hhistory, hliterals, by simp, by simp⟩
  | cons c literals ih =>
    obtain ⟨hc, hstart, hrest⟩ := hliterals
    have hrow := hlawful.step history hhistory c hc.1 hc.2 hstart
    rw [any_eq_true] at hrow
    obtain ⟨state, hstate, hok⟩ := hrow
    obtain ⟨hshape, hwindow, hexpand, hend, hcodes⟩ := of_decide_eq_true hok
    rw [← hend] at hrest
    obtain ⟨codes, window, hrun, hmem, hlast, hexpand', hcodes'⟩ := ih _ hwindow hrest
    refine ⟨state.buffer ++ codes, window, ?_, hmem, hlast, ?_, ?_⟩
    · rw [foldlM_cons, hstate, bind_eq_bind, bind_some, hshape, foldlM_bytecoder_prepend]
      simp only [BcState.prepend, CoderTable.state, List.append_nil] at hrun ⊢
      rw [hrun]
      rfl
    · rw [List.flatMap_append, append_assoc, hexpand', ← append_assoc, hexpand,
        append_assoc, List.singleton_append]
    · intro x hx
      rcases List.mem_append.mp hx with hx | hx
      · exact hcodes x hx
      · exact hcodes' x hx

/-- The output for a sequence of chains: the codes stand for the literals without the
first chain start and the last chain end, and the end of byte code follows them. -/
theorem Lawful.compress (hlawful : table.Lawful) {literals : List Literal}
    (hne : literals.head? ≠ some 10) (hliterals : IsChainLiterals false literals) :
    ∃ codes, bytecoderCompress table.dict (10 :: literals ++ [11, 12])
        = some (codes ++ [12]) ∧
      codes.flatMap table.expand = literals ∧ ∀ c ∈ codes, c ∈ table.codes := by
  have hfirst : (literals ++ [11, 12]).foldlM (fun state c => bytecoder c state)
        (table.state [10])
      = (literals ++ [11, 12]).foldlM (fun state c => bytecoder c state) (table.state []) := by
    cases literals with
    | nil => rw [List.nil_append, foldlM_cons, foldlM_cons,
        hlawful.first 11 (by decide) (by decide) (by decide)]
    | cons c literals =>
      have hc : c ≠ 10 := by simpa using hne
      rw [List.cons_append, foldlM_cons, foldlM_cons,
        hlawful.first c hliterals.1.1 hliterals.1.2 hc]
  obtain ⟨codes, window, hrun, hwindow, hend, hexpand, hcodes⟩ :=
    hlawful.run literals [] hlawful.empty hliterals
  have hrow := hlawful.last window hwindow hend
  rw [any_eq_true] at hrow
  obtain ⟨state, hlast, hok⟩ := hrow
  obtain ⟨hshape, hexpand', hcodes'⟩ := of_decide_eq_true hok
  refine ⟨codes ++ state.buffer.dropLast, ?_, ?_, ?_⟩
  · rw [hshape] at hlast
    have htail := congrArg (Option.map (BcState.prepend codes)) hlast
    simp only [bind_eq_bind, Option.map_bind, Option.map_some, Function.comp_def,
      ← bytecoderFlush_prepend] at htail
    have htake : (10 :: literals ++ [11, 12]).foldlM (fun state c => bytecoder c state)
        (bytecoderInit (some table.dict))
        = ([11, 12].foldlM (fun state c => bytecoder c state) (table.state window)).map
            (BcState.prepend codes) := by
      rw [List.cons_append, foldlM_cons, hlawful.init]
      exact hfirst.trans (by
        rw [List.foldlM_append, hrun]
        exact foldlM_bytecoder_prepend codes [11, 12] (table.state window))
    rw [bytecoderCompress, htake]
    simp only [bind_eq_bind, bind_map, Function.comp_def]
    rw [← Option.bind_assoc, htail]
    simp [BcState.prepend, CoderTable.state]
  · rw [List.flatMap_append, hexpand', hexpand, List.nil_append]
  · intro x hx
    rcases List.mem_append.mp hx with hx | hx
    · exact hcodes x hx
    · exact hcodes' x hx

end CoderTable

/-! ## The dictionary of P+1 -/

/-- `pp1_dict` of `makeplan.c`. -/
def pp1Dict : BcDict :=
  [⟨[11], 0⟩, ⟨[10], 0⟩, ⟨[11, 10], 10⟩, ⟨[3, 0], 11⟩, ⟨[3, 11, 10], 13⟩, ⟨[3, 0, 3, 0], 14⟩]

/-- The literals that a code of P+1 stands for. -/
def pp1Expand : List Literal :=
  if c = 10 then [11, 10]
  else if c = 11 then [3, 0]
  else if c = 13 then [3, 11, 10]
  else if c = 14 then [3, 0, 3, 0]
  else [c]

/-- The codes that the coder writes before the end of the byte code. -/
def pp1Codes : List Code := [0, 1, 2, 3, 4, 5, 6, 7, 8, 9, 10, 11, 13, 14]

/-- The windows that occur between two literals of a sequence of chains: beginnings
of keys. -/
def pp1Windows : List (List Literal) :=
  [[], [11], [11, 10], [3], [3, 0], [3, 11], [3, 11, 10], [3, 0, 3], [3, 0, 3, 0]]

/-- The coder with the dictionary of P+1. -/
def pp1Table : CoderTable := ⟨pp1Dict, 5, pp1Expand, pp1Codes, pp1Windows⟩

/-- The table of P+1 describes the coder. -/
theorem pp1Table_lawful : pp1Table.Lawful where
  init := by decide
  empty := by decide
  step := by decide
  first := by decide
  last := by decide

/-! ## The dictionary of ECM -/

/-- `ecm_dict` of `makeplan.c`. -/
def ecmDict : BcDict :=
  [⟨[11], 0⟩, ⟨[10], 0⟩, ⟨[11, 10], 10⟩, ⟨[3, 0], 11⟩]

/-- The literals that a code of ECM stands for. -/
def ecmExpand : List Literal :=
  if c = 10 then [11, 10]
  else if c = 11 then [3, 0]
  else [c]

/-- The codes that the coder writes before the end of the byte code. -/
def ecmCodes : List Code := [0, 1, 2, 3, 4, 5, 6, 7, 8, 9, 10, 11]

/-- The windows that occur between two literals of a sequence of chains. -/
def ecmWindows : List (List Literal) :=
  [[], [11], [11, 10], [3], [3, 0]]

/-- The coder with the dictionary of ECM. -/
def ecmTable : CoderTable := ⟨ecmDict, 3, ecmExpand, ecmCodes, ecmWindows⟩

/-- The table of ECM describes the coder. -/
theorem ecmTable_lawful : ecmTable.Lawful where
  init := by decide
  empty := by decide
  step := by decide
  first := by decide
  last := by decide

end CadoNfs
