import CadoNfs.Ecm.Bytecoder
import Mathlib.Algebra.Order.Ring.Nat

/-!
# What leaves the window of the coder

A literal that enters the window of `bytecoder` leaves it again with a complete key of the
dictionary, or alone if the window starts with none.  The window always fits.

Main results:

- Theorem `dictLongestmatch_complete`: the longest key that the window starts with.
- Theorem `coderOutputbest_spec`: what leaves the window and what is written.
- Theorem `BcVisits.inv`: what holds at each step for any dictionary.
- Theorem `bytecoder_stream`: a run ends, and what has left the window is the input.
-/

namespace CadoNfs

open Option (bind_eq_bind bind_none bind_some)

/-! ## Matches -/

section Match

variable {history key : List Literal} {dict entries : BcDict} {best : Option BcEntry}
  {matchlen : ℕ} {allowPartial : Bool}

theorem dictMatchlen_le : dictMatchlen history key ≤ history.length := by
  fun_induction dictMatchlen history key with
  | case1 h history k key hne => exact Nat.zero_le _
  | case2 h history k key heq ih => exact Nat.succ_le_succ ih
  | case3 => exact Nat.zero_le _

theorem dictMatchlen_eq_key : dictMatchlen history key = key.length ↔ key <+: history := by
  fun_induction dictMatchlen history key with
  | case1 h history k key hne =>
    simp [List.cons_prefix_cons, Ne.symm hne]
  | case2 h history k key heq ih =>
    obtain rfl := not_not.mp heq
    simp [List.cons_prefix_cons, ih]
  | case3 history key hnil =>
    cases key with
    | nil => simp
    | cons k key =>
      cases history with
      | nil => simp
      | cons h history => exact absurd rfl (hnil h history k key rfl)

theorem dictMatchlen_eq_window : dictMatchlen history key = history.length ↔ history <+: key := by
  fun_induction dictMatchlen history key with
  | case1 h history k key hne =>
    simp [List.cons_prefix_cons, hne]
  | case2 h history k key heq ih =>
    obtain rfl := not_not.mp heq
    simp [List.cons_prefix_cons, ih]
  | case3 history key hnil =>
    cases history with
    | nil => simp
    | cons h history =>
      cases key with
      | nil => simp
      | cons k key => exact absurd rfl (hnil h history k key rfl)

theorem dictLongestmatchLoop_spec (history : List Literal) (allowPartial : Bool) (entries : BcDict)
    (best : Option BcEntry) (matchlen : ℕ) :
    let result := dictLongestmatchLoop history allowPartial entries best matchlen
    matchlen ≤ result.2 ∧
      (result = (best, matchlen) ∨ ∃ entry ∈ entries, result.1 = some entry ∧
        result.2 = dictMatchlen history entry.key ∧ matchlen < result.2 ∧
        (allowPartial = true ∨ result.2 = entry.key.length)) ∧
      ∀ entry ∈ entries, allowPartial = true ∨ dictMatchlen history entry.key = entry.key.length →
        dictMatchlen history entry.key ≤ result.2 := by
  induction entries generalizing best matchlen with
  | nil => exact ⟨le_rfl, Or.inl rfl, by simp⟩
  | cons entry entries ih =>
    simp only [dictLongestmatchLoop]
    split_ifs with hbetter
    · obtain ⟨hle, hresult, hmax⟩ :=
        ih (some entry) (dictMatchlen history entry.key)
      refine ⟨hbetter.1.le.trans hle, Or.inr ?_, List.forall_mem_cons.mpr ⟨fun _ => hle, hmax⟩⟩
      rcases hresult with hresult | ⟨entry', hentry', hsome, hlen, hlt, hkind⟩
      · refine ⟨entry, List.mem_cons_self, ?_, ?_, ?_, ?_⟩ <;> rw [hresult]
        · exact hbetter.1
        · exact hbetter.2
      · exact ⟨entry', List.mem_cons_of_mem _ hentry', hsome, hlen, hbetter.1.trans hlt, hkind⟩
    · obtain ⟨hle, hresult, hmax⟩ := ih best matchlen
      refine ⟨hle, hresult.imp_right ?_, List.forall_mem_cons.mpr ⟨fun hkind => ?_, hmax⟩⟩
      · rintro ⟨entry', hentry', hrest⟩
        exact ⟨entry', List.mem_cons_of_mem _ hentry', hrest⟩
      · exact (not_lt.mp fun hlt => hbetter ⟨hlt, hkind⟩).trans hle

/-- The longest key that the window starts with. -/
theorem dictLongestmatch_complete (dict : BcDict) (history : List Literal) :
    (∃ entry ∈ dict, dictLongestmatch dict history false = (some entry, entry.key.length) ∧
      entry.key <+: history ∧ entry.key ≠ [] ∧
      ∀ entry' ∈ dict, entry'.key <+: history → entry'.key.length ≤ entry.key.length) ∨
    (dictLongestmatch dict history false = (none, 0) ∧
      ∀ entry ∈ dict, entry.key ≠ [] → ¬entry.key <+: history) := by
  obtain ⟨-, hresult, hmax⟩ := dictLongestmatchLoop_spec history false dict none 0
  rw [← dictLongestmatch] at hresult hmax
  have hlongest : ∀ entry ∈ dict, entry.key <+: history →
      entry.key.length ≤ (dictLongestmatch dict history false).2 := fun entry hentry hleads => by
    rw [← dictMatchlen_eq_key.mpr hleads]
    exact hmax entry hentry (Or.inr (dictMatchlen_eq_key.mpr hleads))
  rcases hresult with hnone | ⟨entry, hentry, hsome, hlen, hpos, hkind⟩
  · refine Or.inr ⟨hnone, fun entry hentry hne hleads => hne ?_⟩
    have hle := hlongest entry hentry hleads
    rw [hnone] at hle
    exact List.length_eq_zero_iff.mp (Nat.le_zero.mp hle)
  · have hkey := hkind.resolve_left Bool.false_ne_true
    refine Or.inl ⟨entry, hentry, Prod.ext hsome hkey, ?_, ?_, ?_⟩
    · exact dictMatchlen_eq_key.mp (hlen.symm.trans hkey)
    · rintro hnil
      rw [hkey, hnil] at hpos
      exact absurd hpos (lt_irrefl 0)
    · rw [← hkey]
      exact hlongest

theorem dictLongestmatch_whole_iff :
    (dictLongestmatch dict history true).2 = history.length
      ↔ history = [] ∨ ∃ entry ∈ dict, history <+: entry.key := by
  obtain ⟨-, hresult, hmax⟩ := dictLongestmatchLoop_spec history true dict none 0
  rw [← dictLongestmatch] at hresult hmax
  constructor
  · intro hfull
    rcases hresult with hnone | ⟨entry, hentry, -, hlen, -⟩
    · rw [hnone] at hfull
      exact Or.inl (List.length_eq_zero_iff.mp hfull.symm)
    · exact Or.inr ⟨entry, hentry, dictMatchlen_eq_window.mp (hlen.symm.trans hfull)⟩
  · have hle : (dictLongestmatch dict history true).2 ≤ history.length := by
      rcases hresult with hnone | ⟨entry, hentry, -, hlen, -⟩
      · rw [hnone]
        exact Nat.zero_le _
      · rw [hlen]
        exact dictMatchlen_le
    rintro (rfl | ⟨entry, hentry, hleads⟩)
    · exact Nat.le_zero.mp hle
    · exact le_antisymm hle
        ((dictMatchlen_eq_window.mpr hleads).ge.trans (hmax entry hentry (Or.inl rfl)))

end Match

/-! ## One removal -/

/-- A call of `coder_outputbest`: the window before it, what leaves the window and what is
written. -/
structure Removal where
  window : List Literal
  piece : List Literal
  codes : List Code

/-- The window loses a longest complete key, whose code is written unless it is 0, or a literal
where no key is complete. -/
inductive Removal.Ok (dict : BcDict) : Removal → Prop where
  | key {entry : BcEntry} {window : List Literal} (hentry : entry ∈ dict)
      (hleads : entry.key <+: window) (hne : entry.key ≠ [])
      (hlongest : ∀ entry' ∈ dict, entry'.key <+: window →
        entry'.key.length ≤ entry.key.length) :
      Removal.Ok dict
        { window := window
          piece := entry.key
          codes := if entry.code ≠ 0 then [entry.code] else [] }
  | literal {c : Literal} {window : List Literal}
      (hnone : ∀ entry ∈ dict, entry.key ≠ [] → ¬entry.key <+: c :: window) :
      Removal.Ok dict { window := c :: window, piece := [c], codes := [c] }

section Step

variable {dict : BcDict} {state : BcState} {r : Removal}

theorem Removal.Ok.prefix (h : r.Ok dict) : r.piece <+: r.window := by
  cases h with
  | key _ hleads => exact hleads
  | literal => exact ⟨_, rfl⟩

theorem Removal.Ok.ne_nil (h : r.Ok dict) : r.piece ≠ [] := by
  cases h with
  | key _ _ hne => exact hne
  | literal => exact List.cons_ne_nil _ _

/-- The state after a removal. -/
def BcState.remove (state : BcState) (r : Removal) : BcState :=
  { state with
    history := state.history.drop r.piece.length
    buffer := state.buffer ++ r.codes }

/-- A removal, unless its code is too large to be written. -/
theorem coderOutputbest_spec (dict : BcDict) (hne : state.history ≠ []) :
    ∃ r : Removal, r.Ok dict ∧ r.window = state.history ∧ coderOutputbest dict state
      = if ∀ c ∈ r.codes, c < bcMaxcode then some (state.remove r) else none := by
  obtain ⟨histlen, history, buffer, dict'⟩ := state
  cases history with
  | nil => exact absurd rfl hne
  | cons first rest =>
    rcases dictLongestmatch_complete dict (first :: rest) with
      ⟨entry, hentry, hbest, hleads, hkey, hlongest⟩ | ⟨hbest, hnone⟩
    · refine ⟨_, .key hentry hleads hkey hlongest, rfl, ?_⟩
      have hle : entry.key.length ≤ rest.length + 1 := hleads.length_le
      simp only [coderOutputbest, hbest]
      by_cases hcode : entry.code ≠ 0
      · by_cases hmax : entry.code < bcMaxcode
        · simp [hcode, bytecoderOutput, hmax, coderHistremove, hle, BcState.remove]
        · simp [hcode, bytecoderOutput, hmax]
      · simp [hcode, coderHistremove, hle, BcState.remove]
    · refine ⟨_, .literal hnone, rfl, ?_⟩
      simp only [coderOutputbest, hbest]
      by_cases hmax : first < bcMaxcode
      · simp [bytecoderOutput, hmax, coderHistremove, BcState.remove]
      · simp [bytecoderOutput, hmax]

/-- What happens between two states. -/
def removal (state state' : BcState) : Removal :=
  { window := state.history
    piece := state.history.take (state.history.length - state'.history.length)
    codes := state'.buffer.drop state.buffer.length }

theorem removal_remove (hok : r.Ok dict) (hwindow : r.window = state.history) :
    removal state (state.remove r) = r := by
  have hleads := hwindow ▸ hok.prefix
  have hlen : state.history.length - (state.history.length - r.piece.length) = r.piece.length :=
    Nat.sub_sub_self hleads.length_le
  obtain ⟨window, piece, codes⟩ := r
  simp only [removal, BcState.remove, List.length_drop, List.drop_left', hlen,
    ← List.prefix_iff_eq_take.mp hleads]
  exact congrArg (fun window => Removal.mk window piece codes) hwindow.symm

end Step

/-! ## The steps of a run -/

theorem bytecoderInit_histlen (dict : BcDict) : (bytecoderInit (some dict)).histlen
    = (dict.map fun entry => entry.key.length).foldl max 0 + 1 := by
  have hfold : ∀ (dict : BcDict) (n : ℕ), (dict.map fun entry => entry.key.length + 1).foldl max
      (n + 1) = (dict.map fun entry => entry.key.length).foldl max n + 1 := by
    intro dict
    induction dict with
    | nil => exact fun _ => rfl
    | cons entry dict ih =>
      intro n
      simp [Nat.succ_max_succ, ih]
  exact hfold dict 0

theorem lt_histlen {dict : BcDict} {entry : BcEntry} (h : entry ∈ dict) :
    entry.key.length < (bytecoderInit (some dict)).histlen := by
  have hfold : ∀ (lengths : List ℕ) (n l : ℕ), l ≤ n ∨ l ∈ lengths →
      l ≤ lengths.foldl max n := by
    intro lengths
    induction lengths with
    | nil => exact fun n l hl => hl.resolve_right List.not_mem_nil
    | cons l' lengths ih =>
      intro n l hl
      refine ih _ _ ?_
      rcases hl with hl | hl
      · exact Or.inl (le_max_of_le_left hl)
      · rcases List.mem_cons.mp hl with rfl | hl
        · exact Or.inl (le_max_right _ _)
        · exact Or.inr hl
  rw [bytecoderInit_histlen]
  exact Nat.lt_succ_of_le (hfold _ _ _ (Or.inr (List.mem_map_of_mem h)))

/-- `bytecoder` does not take the next literal yet, or `bytecoder_flush` is not done. -/
def NeedsOutput (dict : BcDict) (rest history : List Literal) : Prop :=
  (dictLongestmatch dict history true).2 ≠ history.length ∨ rest = [] ∧ history ≠ []

/-- The literals that `bytecoder` has not been called for, what has left the window and the
state, after each step of the calls for `literals` and of `bytecoder_flush`. -/
inductive BcVisits (dict : BcDict) (literals : List Literal) :
    List Literal → List Removal → BcState → Prop where
  | init : BcVisits dict literals literals [] (bytecoderInit (some dict))
  | histadd {c rest rs state state'} (h : BcVisits dict literals (c :: rest) rs state)
      (hmatch : (dictLongestmatch dict state.history true).2 = state.history.length)
      (hstep : coderHistadd c state = some state') : BcVisits dict literals rest rs state'
  | output {rest rs state state'} (h : BcVisits dict literals rest rs state)
      (hneeds : NeedsOutput dict rest state.history)
      (hstep : coderOutputbest dict state = some state') :
      BcVisits dict literals rest (rs ++ [removal state state']) state'

/-- What holds at each step. -/
structure BcInv (dict : BcDict) (literals rest : List Literal) (rs : List Removal)
    (state : BcState) : Prop where
  dict_eq : state.dict = some dict
  histlen_eq : state.histlen = (dict.map fun entry => entry.key.length).foldl max 0 + 1
  length_le : state.history.length ≤ state.histlen
  ok : ∀ r ∈ rs, r.Ok dict
  flatMap_eq : rs.flatMap Removal.piece ++ state.history ++ rest = literals
  buffer_eq : state.buffer = rs.flatMap Removal.codes

section Visits

variable {dict : BcDict} {literals rest : List Literal} {rs : List Removal} {state state' : BcState}
  {c : Literal} {fuel : ℕ}

theorem coderHistadd_of_match (hlen : state.histlen = (bytecoderInit (some dict)).histlen)
    (hmatch : (dictLongestmatch dict state.history true).2 = state.history.length) :
    coderHistadd c state = some { state with history := state.history ++ [c] } := by
  rw [coderHistadd, if_pos]
  rw [hlen]
  rcases dictLongestmatch_whole_iff.mp hmatch with hnil | ⟨entry, hentry, hleads⟩
  · rw [hnil, bytecoderInit_histlen]
    exact Nat.succ_le_succ (Nat.zero_le _)
  · exact (Nat.succ_le_succ hleads.length_le).trans (lt_histlen hentry)

theorem NeedsOutput.ne_nil (h : NeedsOutput dict rest state.history) : state.history ≠ [] := by
  rcases h with h | ⟨-, h⟩
  · intro hnil
    exact h (dictLongestmatch_whole_iff.mpr (Or.inl hnil))
  · exact h

/-- Nothing is lost, duplicated or reordered, and the window fits. -/
theorem BcVisits.inv (h : BcVisits dict literals rest rs state) :
    BcInv dict literals rest rs state := by
  induction h with
  | init => exact ⟨rfl, bytecoderInit_histlen dict, Nat.zero_le _, by simp, rfl, rfl⟩
  | @histadd c rest rs state state' h hmatch hstep ih =>
    have hroom := coderHistadd_of_match (c := c)
      (ih.histlen_eq.trans (bytecoderInit_histlen dict).symm) hmatch
    obtain rfl := Option.some.inj (hroom.symm.trans hstep)
    refine ⟨ih.dict_eq, ih.histlen_eq, ?_, ih.ok, ?_, ih.buffer_eq⟩
    · rw [coderHistadd] at hstep
      split_ifs at hstep with hle
      simpa using hle
    · rw [← ih.flatMap_eq]
      simp
  | output h hneeds hstep ih =>
    obtain ⟨r, hok, hwindow, hbest⟩ := coderOutputbest_spec dict hneeds.ne_nil
    rw [hbest] at hstep
    split_ifs at hstep
    obtain rfl := Option.some.inj hstep
    rw [removal_remove hok hwindow]
    have hleads := hwindow ▸ hok.prefix
    refine ⟨ih.dict_eq, ih.histlen_eq, ?_, ?_, ?_, ?_⟩
    · simp only [BcState.remove, List.length_drop]
      exact (Nat.sub_le _ _).trans ih.length_le
    · intro r' hr'
      rcases List.mem_append.mp hr' with hr' | hr'
      · exact ih.ok r' hr'
      · exact List.mem_singleton.mp hr' ▸ hok
    · rw [← ih.flatMap_eq]
      obtain ⟨tail, htail⟩ := hleads
      simp [BcState.remove, ← htail]
    · rw [BcState.remove, ih.buffer_eq]
      simp

/-! ## Whole runs -/

/-- A code is too large for `bytecoder_output`, whose assertion fails. -/
def Stopped (dict : BcDict) (literals : List Literal) : Prop :=
  ∃ rest rs state r, BcVisits dict literals rest rs state ∧ NeedsOutput dict rest state.history ∧
    Removal.Ok dict r ∧ r.window = state.history ∧ (∃ c ∈ r.codes, bcMaxcode ≤ c) ∧
    coderOutputbest dict state = none

theorem BcVisits.outputbest (h : BcVisits dict literals rest rs state)
    (hneeds : NeedsOutput dict rest state.history) :
    (∃ rs' state', coderOutputbest dict state = some state' ∧
      BcVisits dict literals rest rs' state' ∧
      state'.history.length < state.history.length) ∨
    (coderOutputbest dict state = none ∧ Stopped dict literals) := by
  obtain ⟨r, hok, hwindow, hbest⟩ := coderOutputbest_spec dict hneeds.ne_nil
  by_cases hcodes : ∀ c ∈ r.codes, c < bcMaxcode
  · rw [if_pos hcodes] at hbest
    refine Or.inl ⟨_, _, hbest, h.output hneeds hbest, ?_⟩
    have hpos := List.length_pos_of_ne_nil hok.ne_nil
    have hpos' := List.length_pos_of_ne_nil hneeds.ne_nil
    simp only [BcState.remove, List.length_drop]
    exact Nat.sub_lt hpos' hpos
  · rw [if_neg hcodes] at hbest
    push Not at hcodes
    exact Or.inr ⟨hbest, rest, rs, state, r, h, hneeds, hok, hwindow, hcodes, hbest⟩

theorem bytecoderLoop_visits (h : BcVisits dict literals rest rs state)
    (hfuel : state.history.length < fuel) :
    (∃ rs' state', bytecoderLoop dict fuel state = some state' ∧
      BcVisits dict literals rest rs' state' ∧
      (dictLongestmatch dict state'.history true).2 = state'.history.length) ∨
    (bytecoderLoop dict fuel state = none ∧ Stopped dict literals) := by
  induction fuel generalizing rs state with
  | zero => exact absurd hfuel (Nat.not_lt_zero _)
  | succ fuel ih =>
    rw [bytecoderLoop]
    split_ifs with hmatch
    · exact Or.inl ⟨rs, state, rfl, h, hmatch⟩
    · rcases h.outputbest (Or.inl hmatch) with ⟨rs', state', hrun, h', hlt⟩ | ⟨hrun, hstopped⟩
      · rw [hrun]
        exact ih h' (by omega)
      · rw [hrun]
        exact Or.inr ⟨rfl, hstopped⟩

theorem bytecoderFlushLoop_visits (h : BcVisits dict literals [] rs state)
    (hfuel : state.history.length < fuel) :
    (∃ rs' state', bytecoderFlushLoop dict fuel state = some state' ∧
      BcVisits dict literals [] rs' state' ∧ state'.history = []) ∨
    (bytecoderFlushLoop dict fuel state = none ∧ Stopped dict literals) := by
  induction fuel generalizing rs state with
  | zero => exact absurd hfuel (Nat.not_lt_zero _)
  | succ fuel ih =>
    rw [bytecoderFlushLoop]
    split_ifs with hpos
    · have hneeds : NeedsOutput dict [] state.history :=
        Or.inr ⟨rfl, List.ne_nil_of_length_pos hpos⟩
      rcases h.outputbest hneeds with ⟨rs', state', hrun, h', hlt⟩ | ⟨hrun, hstopped⟩
      · rw [hrun]
        exact ih h' (by omega)
      · rw [hrun]
        exact Or.inr ⟨rfl, hstopped⟩
    · exact Or.inl ⟨rs, state, rfl, h, List.length_eq_zero_iff.mp (by omega)⟩

theorem foldlM_bytecoder_visits (h : BcVisits dict literals rest rs state)
    (hmatch : (dictLongestmatch dict state.history true).2 = state.history.length) :
    (∃ rs' state', rest.foldlM (fun state c => bytecoder c state) state = some state' ∧
      BcVisits dict literals [] rs' state') ∨
    (rest.foldlM (fun state c => bytecoder c state) state = none ∧ Stopped dict literals) := by
  induction rest generalizing rs state with
  | nil => exact Or.inl ⟨rs, state, rfl, h⟩
  | cons c rest ih =>
    have hinv := h.inv
    have hroom := coderHistadd_of_match (c := c)
      (hinv.histlen_eq.trans (bytecoderInit_histlen dict).symm) hmatch
    rw [List.foldlM_cons, bytecoder, hinv.dict_eq]
    simp only [hroom, bind_eq_bind, bind_some]
    rcases bytecoderLoop_visits (h.histadd hmatch hroom) (Nat.lt_succ_self _) with
      ⟨rs', state', hrun, h', hmatch'⟩ | ⟨hrun, hstopped⟩
    · simp only at hrun
      rw [hrun]
      exact ih h' hmatch'
    · simp only at hrun
      rw [hrun]
      exact Or.inr ⟨rfl, hstopped⟩

theorem not_stopped (hliterals : ∀ c ∈ literals, c < bcMaxcode)
    (hdict : ∀ entry ∈ dict, entry.code < bcMaxcode) : ¬Stopped dict literals := by
  rintro ⟨rest, rs, state, r, h, -, hok, hwindow, ⟨c, hc, hlarge⟩, -⟩
  refine not_lt.mpr hlarge ?_
  cases hok with
  | @key entry window hentry hleads hne hlongest =>
    simp only at hc
    split_ifs at hc
    · exact List.mem_singleton.mp hc ▸ hdict entry hentry
    · exact absurd hc List.not_mem_nil
  | @literal c' window hnone =>
    obtain rfl := List.mem_singleton.mp hc
    refine hliterals c ?_
    rw [← h.inv.flatMap_eq, ← hwindow]
    simp

end Visits

/-- At each step the window fits, and what has left it, what is in it and what follows are the
input.  The calls end with an empty window, or at an assertion when a code is too large, which
needs a large literal or a large code in the dictionary. -/
theorem bytecoder_stream (dict : BcDict) (literals : List Literal) :
    (∀ rest rs state, BcVisits dict literals rest rs state →
      BcInv dict literals rest rs state) ∧
    ((∃ rs state, BcVisits dict literals [] rs state ∧ state.history = [] ∧
        bytecoderCompress dict literals = some state.buffer ∧
        rs.flatMap Removal.piece = literals ∧ ∀ r ∈ rs, r.Ok dict) ∨
      (bytecoderCompress dict literals = none ∧ Stopped dict literals)) ∧
    ((∀ c ∈ literals, c < bcMaxcode) → (∀ entry ∈ dict, entry.code < bcMaxcode) →
      ¬Stopped dict literals) := by
  refine ⟨fun rest rs state h => h.inv, ?_, not_stopped⟩
  have hmatch : (dictLongestmatch dict (bytecoderInit (some dict)).history true).2
      = (bytecoderInit (some dict)).history.length := dictLongestmatch_whole_iff.mpr (Or.inl rfl)
  have hinit : BcVisits dict literals literals [] (bytecoderInit (some dict)) := .init
  rcases foldlM_bytecoder_visits hinit hmatch with
    ⟨rs, state, hrun, h⟩ | ⟨hrun, hstopped⟩
  · have hdict := h.inv.dict_eq
    rcases bytecoderFlushLoop_visits h (Nat.lt_succ_self _) with
      ⟨rs', state', hrun', h', hnil⟩ | ⟨hrun', hstopped⟩
    · have hinv := h'.inv
      have hconcat := hinv.flatMap_eq
      rw [hnil, List.append_nil, List.append_nil] at hconcat
      refine Or.inl ⟨rs', state', h', hnil, ?_, hconcat, hinv.ok⟩
      simp [bytecoderCompress, hrun, bytecoderFlush, hdict, hrun']
    · refine Or.inr ⟨?_, hstopped⟩
      simp [bytecoderCompress, hrun, bytecoderFlush, hdict, hrun']
  · refine Or.inr ⟨?_, hstopped⟩
    simp [bytecoderCompress, hrun]

theorem bytecoder_stream_ecm : ∃ rs state, BcVisits ecmDict [3, 0, 5, 11] [] rs state ∧
    state.history = [] ∧ bytecoderCompress ecmDict [3, 0, 5, 11] = some state.buffer ∧
    rs.flatMap Removal.piece = [3, 0, 5, 11] ∧ ∀ r ∈ rs, r.Ok ecmDict := by
  obtain ⟨-, hrun, hstopped⟩ := bytecoder_stream ecmDict [3, 0, 5, 11]
  exact hrun.resolve_right fun h => hstopped (by decide) (by decide) h.2

/-- The assertion fails on the literal 32. -/
theorem bytecoder_asserts : (∀ entry ∈ ecmDict, entry.key ≠ []) ∧
    coderOutputbest ecmDict
      { histlen := 3, history := [32], buffer := [], dict := some ecmDict } = none ∧
    bytecoderOutput 32 { histlen := 3, history := [32], buffer := [], dict := some ecmDict }
      = none ∧
    bytecoderCompress ecmDict [32] = none := by
  decide

end CadoNfs
