import CadoNfs.Linalg.MasterDispatcher

/-!
# The flags of a balancing

A balancing file stores one permutation, or one for the rows and one for the columns.
`set_master_variables` tests `flags && FLAG_REPLICATE`, which holds of every balancing that
has a flag, so it always inverts one array for both.

Main results:

- Theorem `masterPerms_of_flags`: the branch that is taken.
- Theorem `setMasterVariables_eq`: for a padded file it is the dispatcher's function.
- Theorem `masterVariablesSet_iff`: when that array serves rows and columns.
-/

namespace CadoNfs.Balancing

open EvenSplit ForRange Function
open List (getD_eq_getElem length_range range)
open Option (bind_eq_bind bind_eq_some_iff bind_none bind_some getD_some isSome_none map map_some)

/-! ## Code -/

/-- `FLAG_COLPERM`. -/
def flagColperm : ℕ := 1

/-- `FLAG_ROWPERM`. -/
def flagRowperm : ℕ := 2

/-- `FLAG_PADDING`. -/
def flagPadding : ℕ := 4

/-- `FLAG_REPLICATE`. -/
def flagReplicate : ℕ := 8

/-- The test `flags & flag`. -/
def flagSet (flags flag : ℕ) : Bool :=
  flags &&& flag != 0

/-- `balancing_s`; a permutation that is not stored is `none`. -/
structure BalancingFile where
  nh : ℕ
  nv : ℕ
  nrows : ℕ
  ncols : ℕ
  flags : ℕ
  rowperm : Option (List ℕ)
  colperm : Option (List ℕ)

namespace BalancingFile

variable (bal : BalancingFile)

/-- A dimension, padded if the balancing says so. -/
def target (n : ℕ) : ℕ :=
  if flagSet bal.flags flagPadding then max bal.nrows bal.ncols else n

def trows : ℕ :=
  bal.target bal.nrows

def tcols : ℕ :=
  bal.target bal.ncols

/-- `maxdim`. -/
def maxdim : ℕ :=
  max bal.nrows bal.ncols

/-- The array `x` of `set_master_variables`. -/
def stored : Option (List ℕ) :=
  bal.colperm <|> bal.rowperm

end BalancingFile

/-- One permutation of a balancing file. -/
def readPerm (set : Bool) (n : ℕ) (words : List ℕ) : Option (Option (List ℕ) × List ℕ) :=
  if set then do
    assertAlways (n ≤ words.length)
    some (some (words.take n), words.drop n)
  else some (none, words)

/-- `balancing_read`: the header has the 64-bit `ncoeffs` and the checksum before the flags. -/
def balancingRead : List ℕ → Option BalancingFile
  | nh :: nv :: nrows :: ncols :: _ :: _ :: _ :: flags :: words => do
    let bal : BalancingFile := ⟨nh, nv, nrows, ncols, flags, none, none⟩
    let (rowperm, words) ← readPerm (flagSet flags flagRowperm) bal.trows words
    let (colperm, _) ← readPerm (flagSet flags flagColperm) bal.tcols words
    some { bal with rowperm := rowperm, colperm := colperm }
  | _ => none

/-- A loop that inverts `x` into an array of `dim` entries; its assertion looks at the entry
that `checked` names. -/
def invertLoop (steps dim : ℕ) (checked x : List ℕ) : Option (ℕ → ℕ) :=
  forRangeM steps (fun i fw => do
    let c ← checked[i]?
    assertAlways (c < dim ∧ fw c = uint32Max)
    let j ← x[i]?
    assertAlways (j < dim)
    some (update fw j i)) fun _ => uint32Max

/-- The arrays `fw_rowperm` and `fw_colperm`. -/
def masterPerms (bal : BalancingFile) : Option ((ℕ → ℕ) × (ℕ → ℕ)) :=
  -- the operator is the logical one
  if bal.flags ≠ 0 ∧ flagReplicate ≠ 0 then do
    let x := bal.stored.getD []
    let fw ← invertLoop bal.maxdim bal.maxdim x x
    some (fw, fw)
  else do
    assertAlways (flagSet bal.flags flagColperm)
    let colperm := bal.colperm.getD []
    let fwColperm ← invertLoop bal.trows bal.tcols colperm colperm
    assertAlways (flagSet bal.flags flagRowperm)
    let fwRowperm ← invertLoop bal.tcols bal.trows colperm (bal.rowperm.getD [])
    some (fwRowperm, fwColperm)

/-- `exp_rows`. -/
def BalancingFile.expRows (bal : BalancingFile) (k : ℕ) : ℕ :=
  bal.trows / bal.nh + if k / bal.nv < bal.trows % bal.nh then 1 else 0

/-- The counts `ttab` of the consistency check. -/
def rowCounts (bal : BalancingFile) (fwRowperm : ℕ → ℕ) : Option (ℕ → ℕ) :=
  forRangeM bal.nrows (fun j ttab => do
    let k ← whoHas bal.trows bal.nh ((bal.trows / bal.nh + 1) * (bal.trows % bal.nh))
      (bal.trows / bal.nh) (fwRowperm j)
    assertAlways (k < bal.nh)
    some (update ttab k (ttab k + 1))) fun _ => 0

/-- `set_master_variables`: the two arrays, once the check has passed. -/
def BalancingFile.setMasterVariables (bal : BalancingFile) : Option ((ℕ → ℕ) × (ℕ → ℕ)) := do
  assertAlways (bal.nh ≠ 0 ∧ bal.nv ≠ 0)
  let (fwRowperm, fwColperm) ← masterPerms bal
  let ttab ← rowCounts bal fwRowperm
  forRangeM bal.nh (fun k _ => assertAlways (ttab k = bal.expRows (k * bal.nv))) ()
  some (fwRowperm, fwColperm)

/-! ## What the arrays are for -/

/-- A balancing whose arrays are permutations, with one of them replicated or with both. -/
structure BalancingFile.Valid (bal : BalancingFile) : Prop where
  nh_pos : 0 < bal.nh
  nv_pos : 0 < bal.nv
  rowperm : ∀ x, bal.rowperm = some x → x.Perm (range bal.trows)
  colperm : ∀ x, bal.colperm = some x → x.Perm (range bal.tcols)
  flags : flagSet bal.flags flagReplicate ∧
      (flagSet bal.flags flagRowperm ∨ flagSet bal.flags flagColperm) ∨
    flagSet bal.flags flagRowperm ∧ flagSet bal.flags flagColperm

/-- `fw` is the inverse of a stored permutation. -/
def Inverts (fw : ℕ → ℕ) (x : List ℕ) : Prop :=
  ∀ i < x.length, fw (x.getD i 0) = i

/-- The arrays are the inverses that the flags ask for. -/
def InverseSet (bal : BalancingFile) (fwRowperm fwColperm : ℕ → ℕ) : Prop :=
  if flagSet bal.flags flagReplicate then
    fwRowperm = fwColperm ∧ ∀ x, bal.stored = some x → Inverts fwColperm x
  else
    (∀ x, bal.rowperm = some x → Inverts fwRowperm x) ∧
      ∀ x, bal.colperm = some x → Inverts fwColperm x

/-- Nothing outside the arrays is touched and no assertion fails, the arrays are the inverses,
and without padded rows the counts are the expected ones. -/
def MasterVariablesSet (bal : BalancingFile) : Prop :=
  ∃ fwRowperm fwColperm ttab, masterPerms bal = some (fwRowperm, fwColperm) ∧
    InverseSet bal fwRowperm fwColperm ∧ rowCounts bal fwRowperm = some ttab ∧
    (bal.nrows = bal.trows → (∀ k < bal.nh, ttab k = bal.expRows (k * bal.nv)) ∧
      bal.setMasterVariables = some (fwRowperm, fwColperm))

/-- The array that is inverted has all `maxdim` entries; it keeps the rows apart when it is
replicated, and starts with the row permutation otherwise. -/
def OneInverse (bal : BalancingFile) : Prop :=
  ∃ x, bal.stored = some x ∧ x.length = bal.maxdim ∧
    if flagSet bal.flags flagReplicate then
      bal.nrows = bal.trows → ∀ i < bal.trows, x.getD i 0 < bal.trows
    else ∀ y, bal.rowperm = some y → y <+: x

/-! ## Loops -/

section Loops

variable {n m : ℕ} {x : List ℕ} {fw : ℕ → ℕ} {bal : BalancingFile}

theorem forRangeM_assertAlways (q : ℕ → Prop) [DecidablePred q] (n : ℕ) :
    forRangeM n (fun k _ => assertAlways (q k)) () = some () ↔ ∀ k < n, q k := by
  induction n with
  | zero => exact ⟨fun _ k hk => absurd hk k.not_lt_zero, fun _ => rfl⟩
  | succ n ih =>
    rw [forRangeM, bind_eq_some_iff]
    constructor
    · rintro ⟨u, hrun, hq⟩ k hk
      obtain hk | rfl := Nat.lt_succ_iff_lt_or_eq.mp hk
      · exact ih.mp hrun k hk
      · by_contra hnot
        simp [assertAlways_of_false hnot] at hq
    · intro h
      exact ⟨(), ih.mpr fun k hk => h k (by omega), assertAlways_of_true (h n n.lt_succ_self)⟩

theorem forRangeM_eq_none {σ : Type} {body : ℕ → σ → Option σ} {s : σ} {k : ℕ} (hk : k < n)
    (hbody : ∀ s, body k s = none) : forRangeM n body s = none := by
  induction n with
  | zero => exact absurd hk k.not_lt_zero
  | succ n ih =>
    obtain hk | rfl := Nat.lt_succ_iff_lt_or_eq.mp hk
    · rw [forRangeM, ih hk, bind_none]
    · rw [forRangeM, Option.bind_eq_none_iff]
      exact fun s _ => hbody s

theorem forRangeM_congr {σ : Type} {body body' : ℕ → σ → Option σ} {s : σ}
    (h : ∀ i < n, ∀ s, body i s = body' i s) : forRangeM n body s = forRangeM n body' s := by
  induction n with
  | zero => rfl
  | succ n ih =>
    rw [forRangeM, forRangeM, ih fun i hi => h i (by omega), funext (h n n.lt_succ_self)]

theorem isPerm_getD (hx : x.Perm (range n)) : IsPerm (fun i => x.getD i 0) n where
  lt i hi := by
    have hlen : i < x.length := by rwa [hx.length_eq, length_range]
    rw [getD_eq_getElem _ _ hlen]
    exact List.mem_range.mp (hx.mem_iff.mp (List.getElem_mem hlen))
  inj i hi j hj heq := by
    have hi' : i < x.length := by rwa [hx.length_eq, length_range]
    have hj' : j < x.length := by rwa [hx.length_eq, length_range]
    rw [getD_eq_getElem _ _ hi', getD_eq_getElem _ _ hj'] at heq
    exact (hx.nodup_iff.mpr List.nodup_range).getElem_inj_iff.mp heq

theorem invertLoop_eq_fwPerm (hlen : x.length = n) :
    invertLoop n n x x = fwPerm (fun i => x.getD i 0) n := by
  refine forRangeM_congr fun i hi fw => ?_
  have hlt : i < x.length := by rwa [hlen]
  simp only [List.getElem?_eq_getElem hlt, getD_eq_getElem _ _ hlt, bind_eq_bind, bind_some]
  by_cases hassert : x[i] < n ∧ fw x[i] = uint32Max
  · simp only [assertAlways_of_true hassert, assertAlways_of_true hassert.1, bind_some]
  · simp only [assertAlways_of_false hassert, bind_none]

theorem invertLoop_perm (hx : x.Perm (range n)) :
    ∃ fw, invertLoop n n x x = some fw ∧ IsInverse (fun i => x.getD i 0) fw n := by
  rw [invertLoop_eq_fwPerm (by rw [hx.length_eq, length_range])]
  exact fwPerm_spec (isPerm_getD hx)

theorem invertLoop_short (hlen : x.length < n) : invertLoop n m x x = none :=
  forRangeM_eq_none hlen fun s => by
    rw [List.getElem?_eq_none le_rfl]
    rfl

theorem IsInverse.restrict {x : ℕ → ℕ} (h : IsInverse x fw n) (hm : m ≤ n)
    (hlt : ∀ i < m, x i < m) : IsInverse x fw m := by
  have hperm : IsPerm x m := ⟨hlt, fun i hi j hj => h.inj i (by omega) j (by omega)⟩
  refine ⟨hperm, fun j hj => ?_, fun i hi => h.fw_x i (by omega), fun j hj => h.x_fw j (by omega)⟩
  obtain ⟨i, hi, rfl⟩ := hperm.surj hj
  rwa [h.fw_x i (by omega)]

/-! ## The counts -/

theorem rowCounts_eq_none {j : ℕ} (hj : j < bal.nrows) (hfw : ¬fw j < bal.trows) :
    rowCounts bal fw = none :=
  forRangeM_eq_none hj fun ttab => by
    rw [whoHas, assertAlways_of_false hfw]
    rfl

theorem rowCounts_some (hnh : 0 < bal.nh) (hfw : ∀ j < bal.nrows, fw j < bal.trows) :
    ∃ ttab, rowCounts bal fw = some ttab := by
  obtain ⟨ttab, hrun, -⟩ := forRangeM_induct (motive := fun _ _ => True)
    (fun j ttab => do
      let k ← whoHas bal.trows bal.nh ((bal.trows / bal.nh + 1) * (bal.trows % bal.nh))
        (bal.trows / bal.nh) (fw j)
      assertAlways (k < bal.nh)
      some (update ttab k (ttab k + 1))) (fun _ => 0) bal.nrows trivial (by
    intro j hj ttab _
    simp only [whoHas_eq (hfw j hj), assertAlways_of_true (inPart_index hnh (hfw j hj)).2,
      bind_eq_bind, bind_some]
    exact ⟨_, rfl, trivial⟩)
  exact ⟨ttab, hrun⟩

theorem rowCounts_spec {x : ℕ → ℕ} {ttab : ℕ → ℕ} (hnh : 0 < bal.nh) (hnv : 0 < bal.nv)
    (hrows : bal.nrows = bal.trows) (h : IsInverse x fw bal.trows)
    (hcounts : rowCounts bal fw = some ttab) (k : ℕ) (hk : k < bal.nh) :
    ttab k = bal.expRows (k * bal.nv) := by
  let square : BalancingData := ⟨bal.nh, bal.nv, bal.trows, bal.trows, x⟩
  have hsquare : square.trows = bal.trows := max_self _
  have hcheck : consistencyCheck (masterData square fw) = some () :=
    consistencyCheck_eq (by rwa [hsquare]) hnh hnv hsquare.symm
  have hloop : rowCounts bal fw = forRangeM square.nrows (fun j ttab => do
      let k ← whoHasRowBare (masterData square fw) (fw j)
      assertAlways (k < square.nh)
      some (update ttab k (ttab k + 1))) fun _ => 0 := by
    simp only [rowCounts, whoHasRowBare, masterData, hsquare, hrows]
    rfl
  obtain ⟨ttab', hrun, hchecks⟩ := bind_eq_some_iff.mp hcheck
  have httab : ttab' = ttab := Option.some.inj (hrun.symm.trans (hloop.symm.trans hcounts))
  have hk' := (forRangeM_assertAlways _ _).mp hchecks k hk
  rw [httab] at hk'
  rw [hk', masterData, BalancingFile.expRows]
  simp only [hsquare]
  rfl

end Loops

/-! ## The flags -/

section Flags

variable {bal : BalancingFile} {file : List ℕ}

theorem readPerm_isSome {set : Bool} {n : ℕ} {words rest : List ℕ} {x : Option (List ℕ)}
    (h : readPerm set n words = some (x, rest)) : x.isSome = set := by
  cases set with
  | false => simp_all [readPerm]
  | true =>
    simp only [readPerm, if_true, bind_eq_bind, bind_eq_some_iff] at h
    obtain ⟨-, -, h⟩ := h
    rw [← (Prod.mk.inj (Option.some.inj h)).1]
    rfl

theorem balancingRead_isSome (h : balancingRead file = some bal) :
    bal.rowperm.isSome = flagSet bal.flags flagRowperm ∧
      bal.colperm.isSome = flagSet bal.flags flagColperm := by
  unfold balancingRead at h
  split at h
  · simp only [bind_eq_bind, bind_eq_some_iff] at h
    obtain ⟨⟨rowperm, words⟩, hrow, ⟨colperm, rest⟩, hcol, h⟩ := h
    obtain rfl := Option.some.inj h
    exact ⟨readPerm_isSome hrow, readPerm_isSome hcol⟩
  · exact absurd h (by simp)

theorem flags_ne_zero {flag : ℕ} (h : flagSet bal.flags flag) : bal.flags ≠ 0 := by
  intro hzero
  simp [flagSet, hzero] at h

/-- A balancing with any flag is taken for a replicated one. -/
theorem masterPerms_of_flags (h : bal.flags ≠ 0) :
    masterPerms bal = (invertLoop bal.maxdim bal.maxdim (bal.stored.getD [])
      (bal.stored.getD [])).map fun fw => (fw, fw) := by
  rw [masterPerms, if_pos ⟨h, by decide⟩]
  exact Option.map_eq_bind.symm

/-- The balancing of a padded file, with the array that is inverted. -/
def BalancingFile.data (bal : BalancingFile) (x : List ℕ) : BalancingData :=
  ⟨bal.nh, bal.nv, bal.nrows, bal.ncols, fun i => x.getD i 0⟩

/-- For a padded file, `set_master_variables` does what the dispatcher's model of it does. -/
theorem setMasterVariables_eq {x : List ℕ} (hpad : flagSet bal.flags flagPadding)
    (hx : bal.stored = some x) (hlen : x.length = bal.maxdim) :
    setMasterVariables (bal.data x)
      = bal.setMasterVariables.map fun fw => masterData (bal.data x) fw.1 := by
  have htrows : bal.trows = (bal.data x).trows := if_pos hpad
  rw [setMasterVariables, BalancingFile.setMasterVariables,
    masterPerms_of_flags (flags_ne_zero hpad), hx, getD_some, invertLoop_eq_fwPerm hlen]
  change _ = map _ (do
    assertAlways ((bal.data x).nh ≠ 0 ∧ (bal.data x).nv ≠ 0)
    let fw ← (fwPerm (bal.data x).colperm (bal.data x).trows).map fun fw => (fw, fw)
    let ttab ← rowCounts bal fw.1
    forRangeM bal.nh (fun k _ => assertAlways (ttab k = bal.expRows (k * bal.nv))) ()
    some (fw.1, fw.2))
  cases assertAlways ((bal.data x).nh ≠ 0 ∧ (bal.data x).nv ≠ 0) with
  | none => rfl
  | some _ =>
    cases fwPerm (bal.data x).colperm (bal.data x).trows with
    | none => rfl
    | some fw =>
      have hcheck : consistencyCheck (masterData (bal.data x) fw) = (do
          let ttab ← rowCounts bal fw
          forRangeM bal.nh (fun k _ => assertAlways (ttab k = bal.expRows (k * bal.nv))) ()) := by
        unfold rowCounts BalancingFile.expRows
        rw [htrows]
        rfl
      simp only [some_bind, map_some, hcheck]
      cases rowCounts bal fw with
      | none => rfl
      | some ttab =>
        simp only [some_bind]
        cases forRangeM bal.nh (fun k _ => assertAlways (ttab k = bal.expRows (k * bal.nv))) () <;>
          rfl

theorem BalancingFile.target_le {n : ℕ} (hn : n ≤ bal.maxdim) : bal.target n ≤ bal.maxdim := by
  unfold BalancingFile.target
  split
  · exact le_rfl
  · exact hn

theorem BalancingFile.trows_cases : bal.trows = bal.nrows ∨ bal.trows = bal.maxdim := by
  unfold BalancingFile.trows BalancingFile.target BalancingFile.maxdim
  split <;> simp

theorem BalancingFile.Valid.flags_ne_zero (hbal : bal.Valid) : bal.flags ≠ 0 := by
  obtain ⟨h, -⟩ | ⟨h, -⟩ := hbal.flags <;> exact Balancing.flags_ne_zero h

theorem stored_spec (hread : balancingRead file = some bal) (hbal : bal.Valid) :
    ∃ x n, bal.stored = some x ∧ x.Perm (range n) ∧ n ≤ bal.maxdim := by
  obtain ⟨hrow, hcol⟩ := balancingRead_isSome hread
  unfold BalancingFile.stored
  cases hc : bal.colperm with
  | some x => exact ⟨x, _, rfl, hbal.colperm x hc, BalancingFile.target_le (le_max_right ..)⟩
  | none =>
    cases hr : bal.rowperm with
    | some x => exact ⟨x, _, rfl, hbal.rowperm x hr, BalancingFile.target_le (le_max_left ..)⟩
    | none =>
      rw [hr, isSome_none] at hrow
      rw [hc, isSome_none] at hcol
      have hflags := hbal.flags
      simp [← hrow, ← hcol] at hflags

variable {x y : List ℕ} {fw : ℕ → ℕ}

theorem masterVariablesSet_of (hbal : bal.Valid) (hperms : masterPerms bal = some (fw, fw))
    (hset : InverseSet bal fw fw) (h : IsInverse (fun i => x.getD i 0) fw bal.maxdim)
    (hkeep : bal.nrows = bal.trows → ∀ i < bal.trows, x.getD i 0 < bal.trows) :
    MasterVariablesSet bal := by
  have htrows : bal.trows ≤ bal.maxdim := BalancingFile.target_le (le_max_left ..)
  have hfw : ∀ j < bal.nrows, fw j < bal.trows := by
    obtain heq | heq := bal.trows_cases
    · intro j hj
      exact (h.restrict htrows (hkeep heq.symm)).fw_lt j (by omega)
    · intro j hj
      have hj' : j < bal.maxdim := hj.trans_le (le_max_left ..)
      exact heq ▸ h.fw_lt j hj'
  obtain ⟨ttab, hcounts⟩ := rowCounts_some hbal.nh_pos hfw
  refine ⟨fw, fw, ttab, hperms, hset, hcounts, fun hrows => ?_⟩
  have hexp : ∀ k < bal.nh, ttab k = bal.expRows (k * bal.nv) :=
    rowCounts_spec hbal.nh_pos hbal.nv_pos hrows (h.restrict htrows (hkeep hrows)) hcounts
  refine ⟨hexp, ?_⟩
  rw [BalancingFile.setMasterVariables,
    assertAlways_of_true ⟨hbal.nh_pos.ne', hbal.nv_pos.ne'⟩, hperms]
  simp [hcounts, (forRangeM_assertAlways _ _).mpr hexp]

theorem keeps_of_rowCounts {ttab : ℕ → ℕ} (h : IsInverse (fun i => x.getD i 0) fw bal.maxdim)
    (hcounts : rowCounts bal fw = some ttab) (hrows : bal.nrows = bal.trows) :
    ∀ i < bal.trows, x.getD i 0 < bal.trows := by
  have htrows : bal.trows ≤ bal.maxdim := BalancingFile.target_le (le_max_left ..)
  have hlt : ∀ j < bal.trows, fw j < bal.trows := fun j hj => by
    by_contra hnot
    simp [rowCounts_eq_none (hrows ▸ hj) hnot] at hcounts
  have hperm : IsPerm fw bal.trows := ⟨hlt, fun i hi j hj heq => by
    rw [← h.x_fw i (by omega), ← h.x_fw j (by omega), heq]⟩
  intro i hi
  obtain ⟨j, hj, rfl⟩ := hperm.surj hi
  exact (h.x_fw j (by omega)).trans_lt hj

theorem inverts_iff_prefix {n : ℕ} (h : IsInverse (fun i => x.getD i 0) fw x.length)
    (hy : y.Perm (range n)) (hn : n ≤ x.length) : Inverts fw y ↔ y <+: x := by
  have hlen : y.length = n := by rw [hy.length_eq, length_range]
  rw [List.prefix_iff_getElem]
  constructor
  · refine fun hfw => ⟨by omega, fun i hi => ?_⟩
    have hyi : y.getD i 0 < x.length := ((isPerm_getD hy).lt i (by omega)).trans_le hn
    have hxi := h.x_fw _ hyi
    rw [hfw i hi] at hxi
    rw [← getD_eq_getElem y 0 hi, ← hxi, getD_eq_getElem]
  · rintro ⟨hle, heq⟩ i hi
    rw [getD_eq_getElem _ _ hi, heq i hi, ← getD_eq_getElem x 0]
    exact h.fw_x i (by omega)

/-- The arrays are right if and only if one array serves for rows and columns. -/
theorem masterVariablesSet_iff (hread : balancingRead file = some bal) (hbal : bal.Valid) :
    MasterVariablesSet bal ↔ OneInverse bal := by
  obtain ⟨x, n, hx, hperm, hn⟩ := stored_spec hread hbal
  have hperms := masterPerms_of_flags hbal.flags_ne_zero
  rw [hx, getD_some] at hperms
  have hlen : x.length = n := by rw [hperm.length_eq, length_range]
  obtain hlt | rfl := hn.lt_or_eq
  · -- the array ends before the loop does
    rw [invertLoop_short (hlen.trans_lt hlt)] at hperms
    constructor
    · rintro ⟨r, c, -, hrun, -⟩
      simp [hperms] at hrun
    · rintro ⟨x', hx', hlen', -⟩
      obtain rfl : x = x' := Option.some.inj (hx.symm.trans hx')
      exact absurd hlen' (hlen.trans_ne hlt.ne)
  obtain ⟨fw, hrun, hinverse⟩ := invertLoop_perm hperm
  rw [hrun, map_some] at hperms
  have hfw : Inverts fw x := fun i hi => hinverse.fw_x i (hlen ▸ hi)
  have hone : OneInverse bal ↔ if flagSet bal.flags flagReplicate then
      bal.nrows = bal.trows → ∀ i < bal.trows, x.getD i 0 < bal.trows
      else ∀ y, bal.rowperm = some y → y <+: x := by
    rw [OneInverse, hx]
    constructor
    · rintro ⟨x', hx', -, h⟩
      rwa [Option.some.inj hx']
    · exact fun h => ⟨x, rfl, hlen, h⟩
  rw [hone]
  by_cases hrep : flagSet bal.flags flagReplicate = true
  · rw [if_pos hrep]
    constructor
    · rintro ⟨r, c, ttab, hperms', -, hcounts, -⟩ hrows
      obtain ⟨rfl, rfl⟩ := Prod.mk.inj (Option.some.inj (hperms.symm.trans hperms'))
      exact keeps_of_rowCounts hinverse hcounts hrows
    · refine fun hkeep => masterVariablesSet_of hbal hperms ?_ hinverse hkeep
      rw [InverseSet, if_pos hrep]
      exact ⟨rfl, fun x' hx' => by rwa [← Option.some.inj (hx.symm.trans hx')]⟩
  · -- both permutations are stored, and `x` is that of the columns
    rw [if_neg hrep]
    obtain ⟨hrow, hcol⟩ := balancingRead_isSome hread
    obtain ⟨hr, hc⟩ := hbal.flags.resolve_left fun h => hrep h.1
    obtain ⟨y, hy⟩ := Option.isSome_iff_exists.mp (hrow.trans hr)
    obtain ⟨x', hx'⟩ := Option.isSome_iff_exists.mp (hcol.trans hc)
    obtain rfl : x' = x := by
      rw [BalancingFile.stored, hx'] at hx
      exact Option.some.inj hx
    have hprefix : Inverts fw y ↔ y <+: x' := inverts_iff_prefix (hlen ▸ hinverse)
      (hbal.rowperm y hy) (hlen ▸ BalancingFile.target_le (le_max_left ..))
    constructor
    · rintro ⟨r, c, ttab, hperms', hset, -⟩ y' hy'
      obtain ⟨rfl, rfl⟩ := Prod.mk.inj (Option.some.inj (hperms.symm.trans hperms'))
      obtain rfl : y = y' := Option.some.inj (hy.symm.trans hy')
      rw [InverseSet, if_neg hrep] at hset
      exact hprefix.mp (hset.1 y hy)
    · intro h
      obtain ⟨hle, heq⟩ := List.prefix_iff_getElem.mp (h y hy)
      have hylen : y.length = bal.trows := by
        rw [(hbal.rowperm y hy).length_eq, length_range]
      refine masterVariablesSet_of hbal hperms ?_ hinverse fun _ i hi => ?_
      · rw [InverseSet, if_neg hrep]
        refine ⟨fun y' hy' => ?_, fun x'' hx'' => ?_⟩
        · rw [← Option.some.inj (hy.symm.trans hy')]
          exact hprefix.mpr (h y hy)
        · rwa [← Option.some.inj (hx'.symm.trans hx'')]
      · have hlt := (isPerm_getD (hbal.rowperm y hy)).lt i hi
        rwa [getD_eq_getElem _ _ (by omega), heq i (by omega), ← getD_eq_getElem x' 0] at hlt

theorem masterVariablesSet_iff_swap :
    MasterVariablesSet ⟨1, 1, 2, 2, 3, some [1, 0], some [1, 0]⟩ ↔
      OneInverse ⟨1, 1, 2, 2, 3, some [1, 0], some [1, 0]⟩ :=
  masterVariablesSet_iff (show balancingRead [1, 1, 2, 2, 0, 0, 0, 3, 1, 0, 1, 0] = _ from rfl)
    { nh_pos := by decide
      nv_pos := by decide
      rowperm := by decide
      colperm := by decide
      flags := by decide }

/-- Rows that are swapped with columns that are not: the rows get the inverse of the
permutation of the columns. -/
theorem not_masterVariablesSet :
    ∃ file bal, balancingRead file = some bal ∧ bal.Valid ∧ bal.flags = 3 ∧
      bal.rowperm = some [1, 0] ∧ bal.colperm = some [0, 1] ∧ ¬MasterVariablesSet bal := by
  refine ⟨[1, 1, 2, 2, 0, 0, 0, 3, 1, 0, 0, 1], ⟨1, 1, 2, 2, 3, some [1, 0], some [0, 1]⟩,
    rfl, ⟨by decide, by decide, by decide, by decide, by decide⟩, rfl, rfl, rfl, ?_⟩
  rintro ⟨r, c, ttab, hperms, hset, -⟩
  have hinverse : r 1 = 0 := hset.1 [1, 0] rfl 0 (by decide)
  have hrun : some 1 = some (r 1) :=
    congrArg (map fun q : (ℕ → ℕ) × (ℕ → ℕ) => q.1 1) hperms
  rw [hinverse] at hrun
  exact absurd hrun (by decide)

end Flags

end CadoNfs.Balancing
