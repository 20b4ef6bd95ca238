import Mathlib.Algebra.Order.Ring.Int
import CadoNfs.Lib.LinearProbing

/-!
# The hash table of prime ideals

`hashpair.c` stores pairs `(p, r)` with a counter each, in a table with open
addressing.  Addresses are the columns of the relations, so no two pairs may share one.

Main results:

- Theorem `hashInsert_spec`: one insertion keeps the invariant `HashInv`.
- Theorem `hashInserts_correct`: different pairs get different addresses, and the
  counters count.
-/

namespace CadoNfs

open Function (update update_of_ne update_self)
open LinearProbing
open List (append_nil count_cons count_cons_self map_cons mem_cons mem_toFinset of_mem_zip
  replicate)
open Option (bind_eq_bind bind_eq_some_iff bind_some isSome_iff_exists pure_def)

/-! ## The table -/

/-- `hashtable_t`.  Of the tables in two widths only the ones in use are kept; the
counters are `int32_t`. -/
structure Hashtable where
  need64 : Bool
  hashmod : ℕ
  HC0 : ℕ
  HC1 : ℕ
  hashcount : ℕ → ℤ
  hashtabP : ℕ → ℤ
  hashtabR : ℕ → ℕ

/-- `MAGIC_HC0`. -/
def magicHC0 : ℕ := 314159265358979323

/-- `MAGIC_HC1`. -/
def magicHC1 : ℕ := 271828182845904523

/-- `getHashMod`, for a function `ulong_nextprime`. -/
def getHashMod (ulongNextprime : ℕ → ℕ) (n : ℕ) : ℕ :=
  ulongNextprime n

/-- `hashInit`, with eight bytes in an `unsigned long`; `3 * n` is an
`unsigned int`. -/
def hashInit (ulongNextprime : ℕ → ℕ) (n : ℕ) (need64 : Bool) : Hashtable :=
  { need64 := need64, hashmod := getHashMod ulongNextprime (3 * n % 2 ^ 32 / 2),
    HC0 := magicHC0, HC1 := magicHC1,
    hashcount := fun _ => 0, hashtabP := fun _ => 0, hashtabR := fun _ => 0 }

/-- `SET_HASH_P`. -/
def Hashtable.setHashP (H : Hashtable) (h : ℕ) (v : ℤ) : Hashtable :=
  { H with hashtabP := update H.hashtabP h (if H.need64 then v else v.bmod (2 ^ 32)) }

/-- `SET_HASH_R`. -/
def Hashtable.setHashR (H : Hashtable) (h : ℕ) (v : ℕ) : Hashtable :=
  { H with hashtabR := update H.hashtabR h (if H.need64 then v else v % 2 ^ 32) }

/-- Set a counter. -/
def Hashtable.setCount (H : Hashtable) (h : ℕ) (v : ℤ) : Hashtable :=
  { H with hashcount := update H.hashcount h (v.bmod (2 ^ 32)) }

/-- `getInitialAddressMod`. -/
def getInitialAddressMod (a b HC0 HC1 M : ℕ) : ℕ :=
  (HC0 * a + HC1 * b) % 2 ^ 64 % M

/-- `getHashAddrAux`: from `h` on, the first slot that is free or holds the
pair.  The fuel is the number of slots to look at. -/
def getHashAddrAux (H : Hashtable) (p : ℤ) (r fuel h : ℕ) : Option ℕ :=
  match fuel with
  | 0 => none
  | fuel + 1 =>
    if H.hashcount h = 0 then some h
    else if H.hashtabP h = p ∧ H.hashtabR h = r then some h
    else
      let h := (h + 1) % 2 ^ 32
      getHashAddrAux H p r fuel (if h ≥ H.hashmod then 0 else h)

/-- The mask of `getHashAddr`. -/
def Hashtable.mask (H : Hashtable) : ℕ :=
  if H.need64 then 2 ^ 64 - 1 else 2 ^ 32 - 1

/-- `getHashAddr`.  It gives `none` where the search does not end, and where the
address is negative as an `int`. -/
def getHashAddr (H : Hashtable) (p : ℤ) (r : ℕ) : Option ℕ :=
  let r := r &&& H.mask
  let h := getInitialAddressMod (p % 2 ^ 64).toNat r H.HC0 H.HC1 H.hashmod
  (getHashAddrAux H p r H.hashmod h).filter fun h => decide (h < 2 ^ 31)

/-- `hashInsert`. -/
def hashInsert (H : Hashtable) (p : ℤ) (r : ℕ) : Option (Hashtable × ℕ) := do
  let h ← getHashAddr H p r
  let H := if H.hashcount h = 0 then (H.setHashP h p).setHashR h r else H
  return (H.setCount h (H.hashcount h + 1), h)

/-- Calls of `hashInsert` one after the other, with the addresses that they
return. -/
def hashInserts (H : Hashtable) (calls : List (ℤ × ℕ)) : Option (Hashtable × List ℕ) :=
  match calls with
  | [] => some (H, [])
  | (p, r) :: calls => do
    let (H, h) ← hashInsert H p r
    let (H, hs) ← hashInserts H calls
    return (H, h :: hs)

/-! ## Pairs and keys -/

/-- What the table holds of a pair. -/
def Hashtable.keyOf (H : Hashtable) (x : ℤ × ℕ) : ℤ × ℕ :=
  (x.1, x.2 &&& H.mask)

/-- The key in a slot. -/
def Hashtable.key (H : Hashtable) (h : ℕ) : ℤ × ℕ :=
  (H.hashtabP h, H.hashtabR h)

/-- The slot where the search for a key starts. -/
def Hashtable.start (H : Hashtable) (k : ℤ × ℕ) : ℕ :=
  getInitialAddressMod (k.1 % 2 ^ 64).toNat k.2 H.HC0 H.HC1 H.hashmod

/-- The slots with a counter that is not zero. -/
def Hashtable.used (H : Hashtable) : Set ℕ :=
  {h | H.hashcount h ≠ 0}

/-- The pairs that the table can hold, where `minus1` and `minus2` are the
unsigned values of -1 and -2. -/
def ValidPair (need64 : Bool) (minus1 minus2 : ℕ) (x : ℤ × ℕ) : Prop :=
  if need64 then -2 ^ 63 ≤ x.1 ∧ x.1 < 2 ^ 63 ∧ x.2 < 2 ^ 64
  else 0 ≤ x.1 ∧ x.1 < 2 ^ 31 ∧ (x.2 < 2 ^ 32 - 2 ∨ x.2 = minus1 ∨ x.2 = minus2)

/-- The unsigned values of -1 and -2, in 32 or in 64 bits. -/
def MinusRoots (minus1 minus2 : ℕ) : Prop :=
  (minus1 = 2 ^ 32 - 1 ∨ minus1 = 2 ^ 64 - 1) ∧ (minus2 = 2 ^ 32 - 2 ∨ minus2 = 2 ^ 64 - 2)

theorem Hashtable.land_mask (H : Hashtable) (r : ℕ) :
    r &&& H.mask = r % 2 ^ (if H.need64 then 64 else 32) := by
  unfold mask
  split_ifs <;> exact Nat.and_two_pow_sub_one_eq_mod r _

theorem ValidPair.key_injective {H : Hashtable} {minus1 minus2 : ℕ}
    (hroots : MinusRoots minus1 minus2) {x y : ℤ × ℕ}
    (hx : ValidPair H.need64 minus1 minus2 x) (hy : ValidPair H.need64 minus1 minus2 y)
    (h : H.keyOf x = H.keyOf y) : x = y := by
  obtain ⟨hp, hr⟩ := Prod.mk.inj h
  rw [H.land_mask, H.land_mask] at hr
  unfold ValidPair at hx hy
  unfold MinusRoots at hroots
  refine Prod.ext hp ?_
  split_ifs at hx hy hr <;> omega

theorem ValidPair.stored {H : Hashtable} {minus1 minus2 : ℕ} {x : ℤ × ℕ}
    (hx : ValidPair H.need64 minus1 minus2 x) :
    (if H.need64 then x.1 else x.1.bmod (2 ^ 32)) = (H.keyOf x).1 ∧
      (if H.need64 then x.2 else x.2 % 2 ^ 32) = (H.keyOf x).2 := by
  unfold Hashtable.keyOf
  rw [H.land_mask]
  unfold ValidPair at hx
  split_ifs at hx ⊢ with hneed
  · exact ⟨rfl, (Nat.mod_eq_of_lt hx.2.2).symm⟩
  · refine ⟨?_, rfl⟩
    rw [Int.bmod_eq_of_le] <;> simp <;> omega

/-! ## The search -/

/-- The counters of the path of a key. -/
abbrev Hashtable.Passes (H : Hashtable) (k : ℤ × ℕ) (t : ℕ) : Prop :=
  LinearProbing.Passes H.hashmod H.start H.used H.key k t

/-- The search for a key ends at a slot of its path. -/
abbrev Hashtable.Stops (H : Hashtable) (k : ℤ × ℕ) (t : ℕ) : Prop :=
  LinearProbing.Stops H.hashmod H.start H.used H.key k t

/-- The slots on the path of a key. -/
abbrev Hashtable.slot (H : Hashtable) (k : ℤ × ℕ) (t : ℕ) : ℕ :=
  LinearProbing.slot H.hashmod H.start k t

section Search

variable {H : Hashtable} {k : ℤ × ℕ}

theorem getHashAddrAux_stop {s : ℕ} (fuel : ℕ) (h : H.Stops k s) :
    getHashAddrAux H k.1 k.2 (fuel + 1) (H.slot k s) = some (H.slot k s) := by
  rw [getHashAddrAux]
  by_cases hfree : H.hashcount (H.slot k s) = 0
  · rw [if_pos hfree]
  · rw [if_neg hfree, if_pos]
    rcases h with h | h
    · exact absurd hfree h
    · exact Prod.mk.inj h

theorem getHashAddrAux_step {s : ℕ} (fuel : ℕ) (hsize : 0 < H.hashmod)
    (hmod : H.hashmod < 2 ^ 31) (h : ¬H.Stops k s) :
    getHashAddrAux H k.1 k.2 (fuel + 1) (H.slot k s)
      = getHashAddrAux H k.1 k.2 fuel (H.slot k (s + 1)) := by
  have hlt : H.slot k s < H.hashmod := slot_lt hsize k s
  have hsucc : H.slot k (s + 1) = if H.slot k s + 1 ≥ H.hashmod then 0 else H.slot k s + 1 :=
    slot_succ hsize k s
  unfold Hashtable.Stops LinearProbing.Stops at h
  rw [not_or, not_not] at h
  rw [getHashAddrAux, if_neg h.1, if_neg fun heq => h.2 (Prod.ext heq.1 heq.2), hsucc]
  simp only [Nat.mod_eq_of_lt (show H.slot k s + 1 < 2 ^ 32 by omega)]

theorem getHashAddrAux_eq {s t fuel : ℕ} (hsize : 0 < H.hashmod) (hmod : H.hashmod < 2 ^ 31)
    (hpass : H.Passes k t) (hstop : H.Stops k t) (hst : s ≤ t) (hfuel : t < s + fuel) :
    getHashAddrAux H k.1 k.2 fuel (H.slot k s) = some (H.slot k t) := by
  induction fuel generalizing s with
  | zero => omega
  | succ fuel ih =>
    by_cases hs : s = t
    · rw [hs]
      exact getHashAddrAux_stop fuel hstop
    · obtain ⟨hused, hne⟩ := hpass s (by omega)
      have hnot : ¬H.Stops k s := by
        rintro (h | h)
        · exact h hused
        · exact hne h
      rw [getHashAddrAux_step fuel hsize hmod hnot]
      exact ih (by omega) (by omega)

theorem getHashAddrAux_some {s fuel h : ℕ} (hsize : 0 < H.hashmod) (hmod : H.hashmod < 2 ^ 31)
    (hpass : H.Passes k s) (hres : getHashAddrAux H k.1 k.2 fuel (H.slot k s) = some h) :
    ∃ t < s + fuel, h = H.slot k t ∧ H.Passes k t ∧ H.Stops k t := by
  induction fuel generalizing s with
  | zero => cases hres
  | succ fuel ih =>
    by_cases hstop : H.Stops k s
    · rw [getHashAddrAux_stop fuel hstop] at hres
      exact ⟨s, by omega, (Option.some.inj hres).symm, hpass, hstop⟩
    · have hpass' : H.Passes k (s + 1) := by
        intro s' hs'
        rcases Nat.lt_succ_iff_lt_or_eq.mp hs' with hlt | rfl
        · exact hpass s' hlt
        · unfold Hashtable.Stops LinearProbing.Stops at hstop
          rw [not_or, not_not] at hstop
          exact hstop
      rw [getHashAddrAux_step fuel hsize hmod hstop] at hres
      obtain ⟨t, ht, hrest⟩ := ih hpass' hres
      exact ⟨t, by omega, hrest⟩

theorem getHashAddr_def (hmod : H.hashmod < 2 ^ 31) (x : ℤ × ℕ) :
    getHashAddr H x.1 x.2
      = getHashAddrAux H (H.keyOf x).1 (H.keyOf x).2 H.hashmod (H.slot (H.keyOf x) 0) := by
  by_cases hsize : 0 < H.hashmod
  · have hstart : H.slot (H.keyOf x) 0
        = getInitialAddressMod (x.1 % 2 ^ 64).toNat (x.2 &&& H.mask) H.HC0 H.HC1 H.hashmod := by
      unfold Hashtable.slot LinearProbing.slot Hashtable.start Hashtable.keyOf
        getInitialAddressMod
      rw [add_zero, Nat.mod_mod]
    have hdef : getHashAddr H x.1 x.2 = (getHashAddrAux H (H.keyOf x).1 (H.keyOf x).2 H.hashmod
        (H.slot (H.keyOf x) 0)).filter fun h => decide (h < 2 ^ 31) := by
      rw [hstart]
      rfl
    rw [hdef]
    cases hres : getHashAddrAux H (H.keyOf x).1 (H.keyOf x).2 H.hashmod
        (H.slot (H.keyOf x) 0) with
    | none => rfl
    | some h =>
      obtain ⟨t, -, rfl, -⟩ := getHashAddrAux_some hsize hmod
        (fun s hs => absurd hs (Nat.not_lt_zero s)) hres
      have hlt : H.slot (H.keyOf x) t < H.hashmod := slot_lt hsize (H.keyOf x) t
      rw [Option.filter_some, if_pos]
      exact decide_eq_true (by omega)
  · have hzero : H.hashmod = 0 := by omega
    rw [getHashAddr, hzero]
    rfl

theorem getHashAddr_eq (hmod : H.hashmod < 2 ^ 31) {x : ℤ × ℕ} {t : ℕ} (ht : t < H.hashmod)
    (hpass : H.Passes (H.keyOf x) t) (hstop : H.Stops (H.keyOf x) t) :
    getHashAddr H x.1 x.2 = some (H.slot (H.keyOf x) t) := by
  rw [getHashAddr_def hmod]
  exact getHashAddrAux_eq (by omega) hmod hpass hstop (by omega) (by omega)

theorem getHashAddr_some (hmod : H.hashmod < 2 ^ 31) {x : ℤ × ℕ} {h : ℕ}
    (hres : getHashAddr H x.1 x.2 = some h) :
    ∃ t < H.hashmod, h = H.slot (H.keyOf x) t ∧ H.Passes (H.keyOf x) t ∧
      H.Stops (H.keyOf x) t := by
  by_cases hsize : 0 < H.hashmod
  · rw [getHashAddr_def hmod] at hres
    obtain ⟨t, ht, hrest⟩ := getHashAddrAux_some hsize hmod
      (fun s hs => absurd hs (Nat.not_lt_zero s)) hres
    exact ⟨t, by omega, hrest⟩
  · have hzero : H.hashmod = 0 := by omega
    rw [getHashAddr_def hmod, hzero] at hres
    cases hres

end Search

/-! ## The invariant -/

/-- The table `H` after keys have been inserted into the table `H₀`. -/
structure HashInv (H₀ H : Hashtable) (keys : List (ℤ × ℕ)) : Prop where
  need64_eq : H.need64 = H₀.need64
  hashmod_eq : H.hashmod = H₀.hashmod
  start_eq : H.start = H₀.start
  chained : Chained H.hashmod H.start H.used H.key
  count : ∀ h ∈ H.used, H.hashcount h = keys.count (H.key h)
  stored : ∀ k ∈ keys, ∃ h ∈ H.used, H.key h = k

variable {H₀ H : Hashtable} {keys : List (ℤ × ℕ)}

theorem HashInv.hashcount_nonneg (hinv : HashInv H₀ H keys) (h : ℕ) : 0 ≤ H.hashcount h := by
  by_cases hused : h ∈ H.used
  · rw [hinv.count h hused]
    exact Int.natCast_nonneg _
  · exact (not_not.mp hused).ge

theorem hashInit_inv (ulongNextprime : ℕ → ℕ) (n : ℕ) (need64 : Bool) :
    HashInv (hashInit ulongNextprime n need64) (hashInit ulongNextprime n need64) [] := by
  have hused : (hashInit ulongNextprime n need64).used = ∅ := by
    ext h
    simp [Hashtable.used, hashInit]
  refine ⟨rfl, rfl, rfl, ?_, ?_, by simp⟩
  · rw [hused]
    exact chained_empty
  · rw [hused]
    simp

theorem hashInsert_fields {H : Hashtable} {minus1 minus2 : ℕ} {x : ℤ × ℕ}
    (hx : ValidPair H.need64 minus1 minus2 x) {H' : Hashtable} {h : ℕ}
    (hres : hashInsert H x.1 x.2 = some (H', h)) :
    getHashAddr H x.1 x.2 = some h ∧ H'.need64 = H.need64 ∧ H'.hashmod = H.hashmod ∧
      H'.start = H.start ∧
      H'.hashcount = update H.hashcount h ((H.hashcount h + 1).bmod (2 ^ 32)) ∧
      H'.key = if H.hashcount h = 0 then update H.key h (H.keyOf x) else H.key := by
  obtain ⟨a, haddr, hrest⟩ := bind_eq_some_iff.mp hres
  obtain ⟨rfl, rfl⟩ := Prod.mk.inj (Option.some.inj hrest)
  refine ⟨haddr, ?_⟩
  by_cases hfree : H.hashcount a = 0
  · simp only [if_pos hfree]
    refine ⟨rfl, rfl, rfl, rfl, ?_⟩
    funext h
    by_cases heq : h = a
    · rw [heq, update_self]
      obtain ⟨hp, hr⟩ := hx.stored
      exact Prod.ext (by simpa [Hashtable.key, Hashtable.setCount, Hashtable.setHashR,
        Hashtable.setHashP] using hp) (by simpa [Hashtable.key, Hashtable.setCount,
        Hashtable.setHashR, Hashtable.setHashP] using hr)
    · rw [update_of_ne heq]
      simp [Hashtable.key, Hashtable.setCount, Hashtable.setHashR, Hashtable.setHashP, heq]
  · simp only [if_neg hfree]
    exact ⟨rfl, rfl, rfl, rfl, rfl⟩

section

variable (hinv : HashInv H₀ H keys) (hmod : H.hashmod < 2 ^ 31)
include hinv hmod

/-- One insertion keeps the invariant. -/
theorem hashInsert_spec {minus1 minus2 : ℕ} {x : ℤ × ℕ}
    (hx : ValidPair H.need64 minus1 minus2 x) (hcount : keys.count (H.keyOf x) + 1 < 2 ^ 31)
    {H' : Hashtable} {h : ℕ} (hres : hashInsert H x.1 x.2 = some (H', h)) :
    HashInv H₀ H' (H.keyOf x :: keys) ∧ h ∈ H'.used ∧ H'.key h = H.keyOf x ∧
      ∀ a ∈ H.used, a ∈ H'.used ∧ H'.key a = H.key a := by
  classical
  obtain ⟨haddr, hneed, hmodeq, hstart, hcounteq, hkey⟩ := hashInsert_fields hx hres
  obtain ⟨t, ht, hslot, hpass, hstop⟩ := getHashAddr_some hmod haddr
  have hend : h ∉ H.used ∨ H.key h = H.keyOf x := by
    rw [hslot]
    exact hstop
  have hfound : ∀ a ∈ H.used, H.key a = H.keyOf x → a = h := by
    intro a ha hakey
    obtain ⟨t', -, hslot', hpass', hstop'⟩ := hinv.chained.exists_path ha
    rw [hakey] at hslot' hpass' hstop'
    rw [← hslot', hslot, stop_unique hpass hpass' hstop hstop']
  have hbefore : H.hashcount h = keys.count (H.keyOf x) := by
    by_cases hused : h ∈ H.used
    · rw [hinv.count h hused, hend.resolve_left (not_not.mpr hused)]
    · rw [List.count_eq_zero_of_not_mem]
      · exact not_not.mp hused
      · intro hmem
        obtain ⟨a, ha, hakey⟩ := hinv.stored _ hmem
        exact hused (hfound a ha hakey ▸ ha)
  have hafter : H'.hashcount h = keys.count (H.keyOf x) + 1 := by
    rw [hcounteq, update_self, hbefore, Int.bmod_eq_of_le] <;> omega
  have hkeyh : H'.key h = H.keyOf x := by
    rw [hkey]
    split_ifs with hfree
    · rw [update_self]
    · exact hend.resolve_left (not_not.mpr hfree)
  have hkeyother : ∀ a, a ≠ h → H'.key a = H.key a := by
    intro a hne
    rw [hkey]
    split_ifs
    · exact update_of_ne hne _ _
    · rfl
  have hcountother : ∀ a, a ≠ h → H'.hashcount a = H.hashcount a := by
    intro a hne
    rw [hcounteq, update_of_ne hne]
  have hused : H'.used = insert h H.used := by
    ext a
    by_cases heq : a = h
    · rw [heq]
      simp only [Hashtable.used, Set.mem_ofPred_eq, Set.mem_insert_iff, true_or, iff_true]
      omega
    · simp [Hashtable.used, heq, hcountother a heq]
  have hkeep : ∀ a ∈ H.used, H'.key a = H.key a := by
    intro a ha
    by_cases heq : a = h
    · rw [hkey, if_neg (heq ▸ ha)]
    · exact hkeyother a heq
  refine ⟨⟨hneed.trans hinv.need64_eq, hmodeq.trans hinv.hashmod_eq,
    hstart.trans hinv.start_eq, ?_, ?_, ?_⟩, ?_, hkeyh, ?_⟩
  · rw [hmodeq, hstart, hused]
    by_cases hfree : H.hashcount h = 0
    · rw [hkey, if_pos hfree]
      have hnot : H.slot (H.keyOf x) t ∉ H.used := by
        rw [← hslot]
        exact not_not.mpr hfree
      have hinsert := hinv.chained.insert (by omega) ht hpass hnot
      rw [hslot]
      exact hinsert
    · rw [Set.insert_eq_of_mem (show h ∈ H.used from hfree), hkey, if_neg hfree]
      exact hinv.chained
  · intro a ha
    by_cases heq : a = h
    · rw [heq, hafter, hkeyh, count_cons_self]
      push_cast
      rfl
    · have ha' : a ∈ H.used := by
        rw [hused] at ha
        exact Set.mem_of_mem_insert_of_ne ha heq
      have hne : H.key a ≠ H.keyOf x := fun hakey => heq (hfound a ha' hakey)
      rw [hcountother a heq, hkeyother a heq, List.count_cons_of_ne hne.symm]
      exact hinv.count a ha'
  · intro k hk
    rcases mem_cons.mp hk with rfl | hk
    · exact ⟨h, by rw [hused]; exact Set.mem_insert h _, hkeyh⟩
    · obtain ⟨a, ha, hakey⟩ := hinv.stored k hk
      exact ⟨a, by rw [hused]; exact Set.mem_insert_of_mem h ha, (hkeep a ha).trans hakey⟩
  · rw [hused]
    exact Set.mem_insert h _
  · intro a ha
    exact ⟨by rw [hused]; exact Set.mem_insert_of_mem h ha, hkeep a ha⟩

theorem hashInsert_isSome {x : ℤ × ℕ} (hcard : (H.keyOf x :: keys).toFinset.card ≤ H.hashmod) :
    (hashInsert H x.1 x.2).isSome = true := by
  have hstop : ∃ h < H.hashmod, h ∉ H.used ∨ H.key h = H.keyOf x := by
    by_cases hmem : H.keyOf x ∈ keys
    · obtain ⟨h, hh, hkey⟩ := hinv.stored _ hmem
      exact ⟨h, hinv.chained.lt_size h hh, Or.inr hkey⟩
    · have hkeys : ∀ h ∈ H.used, H.key h ∈ keys.toFinset := by
        intro h hh
        rw [mem_toFinset]
        by_contra hnot
        have hzero := hinv.count h hh
        rw [List.count_eq_zero_of_not_mem hnot] at hzero
        exact hh hzero
      rw [List.toFinset_cons, Finset.card_insert_of_notMem (by simpa using hmem)] at hcard
      obtain ⟨h, hh, hfree⟩ := hinv.chained.exists_free hkeys (by omega)
      exact ⟨h, hh, Or.inl hfree⟩
  obtain ⟨h, hh, hstop⟩ := hstop
  obtain ⟨t, ht, hpass, hstop⟩ := exists_stop hh hstop
  rw [hashInsert, getHashAddr_eq hmod ht hpass hstop]
  rfl

section

variable {minus1 minus2 : ℕ} {calls : List (ℤ × ℕ)}
  (hvalid : ∀ x ∈ calls, ValidPair H.need64 minus1 minus2 x)
  (hcount : ∀ k, (calls.map H.keyOf).count k + keys.count k < 2 ^ 31)
include hvalid hcount

/-- Every pair gets an address with its key, and no entry is lost. -/
theorem hashInserts_spec
    {H' : Hashtable} {addrs : List ℕ} (hres : hashInserts H calls = some (H', addrs)) :
    HashInv H₀ H' ((calls.map H.keyOf).reverse ++ keys) ∧ addrs.length = calls.length ∧
      (∀ a ∈ H.used, a ∈ H'.used ∧ H'.key a = H.key a) ∧
      ∀ u ∈ calls.zip addrs, u.2 ∈ H'.used ∧ H'.key u.2 = H.keyOf u.1 := by
  induction calls generalizing H keys addrs with
  | nil =>
    obtain ⟨rfl, rfl⟩ := Prod.mk.inj (Option.some.inj hres)
    exact ⟨hinv, rfl, fun a ha => ⟨ha, rfl⟩, by simp⟩
  | cons x calls ih =>
    obtain ⟨⟨H₁, h⟩, hfirst, hrest⟩ := bind_eq_some_iff.mp hres
    obtain ⟨⟨H₂, hs⟩, hcalls, hlast⟩ := bind_eq_some_iff.mp hrest
    obtain ⟨rfl, rfl⟩ := Prod.mk.inj (Option.some.inj hlast)
    obtain ⟨hx, hvalid⟩ := List.forall_mem_cons.mp hvalid
    have hx1 : keys.count (H.keyOf x) + 1 < 2 ^ 31 := by
      have hle := hcount (H.keyOf x)
      rw [map_cons, count_cons_self] at hle
      omega
    obtain ⟨hinv₁, hused, hkey, hkeep⟩ := hashInsert_spec hinv hmod hx hx1 hfirst
    obtain ⟨-, hneed, hmodeq, -⟩ := hashInsert_fields hx hfirst
    have hkeyOf : H₁.keyOf = H.keyOf := by
      funext y
      unfold Hashtable.keyOf Hashtable.mask
      rw [hneed]
    obtain ⟨hinv₂, hlen, hkeep₂, hzip⟩ := ih hinv₁ (by rw [hmodeq]; exact hmod)
      (by rw [hneed]; exact hvalid) (fun k => by
        have hle := hcount k
        rw [hkeyOf]
        rw [map_cons, count_cons] at hle
        rw [count_cons]
        omega) hcalls
    rw [hkeyOf] at hinv₂ hzip
    refine ⟨?_, by rw [List.length_cons, List.length_cons, hlen], ?_, ?_⟩
    · rw [map_cons, List.reverse_cons, List.append_assoc]
      exact hinv₂
    · intro a ha
      obtain ⟨ha₁, hkey₁⟩ := hkeep a ha
      obtain ⟨ha₂, hkey₂⟩ := hkeep₂ a ha₁
      exact ⟨ha₂, hkey₂.trans hkey₁⟩
    · intro u hu
      rw [List.zip_cons_cons, mem_cons] at hu
      rcases hu with rfl | hu
      · obtain ⟨ha₂, hkey₂⟩ := hkeep₂ h hused
        exact ⟨ha₂, hkey₂.trans hkey⟩
      · exact hzip u hu

theorem hashInserts_isSome
    (hcard : ((calls.map H.keyOf).reverse ++ keys).toFinset.card ≤ H.hashmod) :
    (hashInserts H calls).isSome = true := by
  induction calls generalizing H keys with
  | nil => rfl
  | cons x calls ih =>
    obtain ⟨hx, hvalid⟩ := List.forall_mem_cons.mp hvalid
    rw [map_cons, List.reverse_cons, List.append_assoc, List.singleton_append] at hcard
    have hfirst : (hashInsert H x.1 x.2).isSome = true := by
      refine hashInsert_isSome hinv hmod (le_trans (Finset.card_le_card ?_) hcard)
      intro k hk
      rw [mem_toFinset] at hk ⊢
      exact List.mem_append_right _ hk
    obtain ⟨⟨H₁, h⟩, hfirst⟩ := isSome_iff_exists.mp hfirst
    have hx1 : keys.count (H.keyOf x) + 1 < 2 ^ 31 := by
      have hle := hcount (H.keyOf x)
      rw [map_cons, count_cons_self] at hle
      omega
    obtain ⟨hinv₁, -, -, -⟩ := hashInsert_spec hinv hmod hx hx1 hfirst
    obtain ⟨-, hneed, hmodeq, -⟩ := hashInsert_fields hx hfirst
    have hkeyOf : H₁.keyOf = H.keyOf := by
      funext y
      unfold Hashtable.keyOf Hashtable.mask
      rw [hneed]
    have hrest := ih hinv₁ (by rw [hmodeq]; exact hmod) (by rw [hneed]; exact hvalid)
      (fun k => by
        have hle := hcount k
        rw [hkeyOf]
        rw [map_cons, count_cons] at hle
        rw [count_cons]
        omega) (by rw [hkeyOf, hmodeq]; exact hcard)
    obtain ⟨⟨H₂, hs⟩, hcalls⟩ := isSome_iff_exists.mp hrest
    rw [hashInserts, hfirst]
    simp [hcalls]

end

end

theorem count_keyOf {H : Hashtable} {minus1 minus2 : ℕ} (hroots : MinusRoots minus1 minus2)
    {calls : List (ℤ × ℕ)} (hvalid : ∀ x ∈ calls, ValidPair H.need64 minus1 minus2 x)
    {x : ℤ × ℕ} (hx : ValidPair H.need64 minus1 minus2 x) :
    (calls.map H.keyOf).count (H.keyOf x) = calls.count x := by
  induction calls with
  | nil => rfl
  | cons y calls ih =>
    obtain ⟨hy, hvalid⟩ := List.forall_mem_cons.mp hvalid
    rw [map_cons]
    by_cases heq : y = x
    · rw [heq, count_cons_self, count_cons_self, ih hvalid]
    · rw [List.count_cons_of_ne heq,
        List.count_cons_of_ne (fun h => heq (ValidPair.key_injective hroots hy hx h)), ih hvalid]

theorem getHashAddr_stored {H : Hashtable} (hchain : Chained H.hashmod H.start H.used H.key)
    (hmod : H.hashmod < 2 ^ 31) {x : ℤ × ℕ} {a : ℕ} (ha : a ∈ H.used)
    (hkey : H.key a = H.keyOf x) : getHashAddr H x.1 x.2 = some a := by
  obtain ⟨t, ht, hslot, hpass, hstop⟩ := hchain.exists_path ha
  rw [hkey] at hslot hpass hstop
  rw [getHashAddr_eq hmod ht hpass hstop]
  exact congrArg some hslot

theorem hashInserts_append (H : Hashtable) (calls calls' : List (ℤ × ℕ)) :
    hashInserts H (calls ++ calls') = (hashInserts H calls).bind fun res =>
      (hashInserts res.1 calls').map fun res' => (res'.1, res.2 ++ res'.2) := by
  induction calls generalizing H with
  | nil =>
    simp only [List.nil_append, hashInserts, bind_some]
    cases hashInserts H calls' <;> rfl
  | cons x calls ih =>
    obtain ⟨p, r⟩ := x
    simp only [List.cons_append, hashInserts]
    cases hashInsert H p r with
    | none => rfl
    | some res =>
      simp only [bind_eq_bind, bind_some, ih]
      cases hashInserts res.1 calls with
      | none => rfl
      | some res' =>
        simp only [bind_some, pure_def]
        cases hashInserts res'.1 calls' <;> rfl

/-! ## Runs from a fresh table -/

section Fresh

variable (ulongNextprime : ℕ → ℕ) (n : ℕ) (need64 : Bool) {minus1 minus2 : ℕ}

theorem count_keys_lt {H : Hashtable} (hroots : MinusRoots minus1 minus2)
    {calls : List (ℤ × ℕ)} (hvalid : ∀ x ∈ calls, ValidPair H.need64 minus1 minus2 x)
    (hcount : ∀ x, calls.count x < 2 ^ 31) (k : ℤ × ℕ) :
    (calls.map H.keyOf).count k + ([] : List (ℤ × ℕ)).count k < 2 ^ 31 := by
  rw [List.count_nil, add_zero]
  by_cases hk : k ∈ calls.map H.keyOf
  · obtain ⟨x, hx, rfl⟩ := List.mem_map.mp hk
    rw [count_keyOf hroots hvalid (hvalid x hx)]
    exact hcount x
  · rw [List.count_eq_zero_of_not_mem hk]
    omega

/-- Insertions into a fresh table with fewer pairs than slots: every search ends,
different pairs get different addresses, and the counters count.  The number of slots and
the number of insertions of one pair fit an `int`. -/
theorem hashInserts_correct (hroots : MinusRoots minus1 minus2)
    (hmod : (hashInit ulongNextprime n need64).hashmod < 2 ^ 31) (calls : List (ℤ × ℕ))
    (hvalid : ∀ x ∈ calls, ValidPair need64 minus1 minus2 x)
    (hdistinct : calls.toFinset.card < (hashInit ulongNextprime n need64).hashmod)
    (hcount : ∀ x, calls.count x < 2 ^ 31) :
    ∃ H addrs, hashInserts (hashInit ulongNextprime n need64) calls = some (H, addrs) ∧
      addrs.length = calls.length ∧
      (∀ u ∈ calls.zip addrs, ∀ v ∈ calls.zip addrs, u.2 = v.2 ↔ u.1 = v.1) ∧
      ∀ u ∈ calls.zip addrs, H.hashcount u.2 = calls.count u.1 := by
  have hinv := hashInit_inv ulongNextprime n need64
  have hkeys := count_keys_lt (H := hashInit ulongNextprime n need64) hroots hvalid hcount
  have hcard : ((calls.map (hashInit ulongNextprime n need64).keyOf).reverse ++ []).toFinset.card
      ≤ (hashInit ulongNextprime n need64).hashmod := by
    have hsubset : ((calls.map (hashInit ulongNextprime n need64).keyOf).reverse ++ []).toFinset
        ⊆ calls.toFinset.image (hashInit ulongNextprime n need64).keyOf := by
      intro k hk
      simpa [mem_toFinset] using hk
    exact (Finset.card_le_card hsubset).trans (Finset.card_image_le.trans hdistinct.le)
  obtain ⟨⟨H, addrs⟩, hres⟩ :=
    isSome_iff_exists.mp (hashInserts_isSome hinv hmod hvalid hkeys hcard)
  obtain ⟨hinv', hlen, -, hzip⟩ := hashInserts_spec hinv hmod hvalid hkeys hres
  refine ⟨H, addrs, hres, hlen, ?_, ?_⟩
  · intro u hu v hv
    obtain ⟨huused, hukey⟩ := hzip u hu
    obtain ⟨hvused, hvkey⟩ := hzip v hv
    constructor
    · intro heq
      rw [heq, hvkey] at hukey
      exact (ValidPair.key_injective hroots (hvalid v.1 (of_mem_zip hv).1)
        (hvalid u.1 (of_mem_zip hu).1) hukey).symm
    · intro heq
      rw [heq, ← hvkey] at hukey
      exact hinv'.chained.key_injOn huused hvused hukey
  · intro u hu
    obtain ⟨huused, hukey⟩ := hzip u hu
    rw [hinv'.count _ huused, hukey, append_nil, List.count_reverse,
      count_keyOf hroots hvalid (hvalid u.1 (of_mem_zip hu).1)]

/-- Three insertions into a table with five slots. -/
theorem hashInserts_correct_five :
    ∃ H addrs, hashInserts (hashInit (fun _ => 5) 2 false)
        ([(2, 0), (2, 2 ^ 64 - 2), (2, 0)] : List (ℤ × ℕ)) = some (H, addrs) ∧
      addrs.length = ([(2, 0), (2, 2 ^ 64 - 2), (2, 0)] : List (ℤ × ℕ)).length ∧
      (∀ u ∈ ([(2, 0), (2, 2 ^ 64 - 2), (2, 0)] : List (ℤ × ℕ)).zip addrs,
        ∀ v ∈ ([(2, 0), (2, 2 ^ 64 - 2), (2, 0)] : List (ℤ × ℕ)).zip addrs, u.2 = v.2 ↔ u.1 = v.1) ∧
      ∀ u ∈ ([(2, 0), (2, 2 ^ 64 - 2), (2, 0)] : List (ℤ × ℕ)).zip addrs,
        H.hashcount u.2 = ([(2, 0), (2, 2 ^ 64 - 2), (2, 0)] : List (ℤ × ℕ)).count u.1 := by
  have hroots : MinusRoots (2 ^ 64 - 1) (2 ^ 64 - 2) := ⟨Or.inr rfl, Or.inr rfl⟩
  exact hashInserts_correct (fun _ => 5) 2 false hroots (by decide) _ (by simp [ValidPair])
    (by decide) fun x => lt_of_le_of_lt List.count_le_length (by decide)

theorem hashInserts_wraps_of {N : ℕ} (hN : N + 1 = 2 ^ 31) :
    ∃ H addrs, hashInserts (hashInit (fun _ => 5) 2 false)
        (replicate (N + 1) ((2, 0) : ℤ × ℕ)) = some (H, addrs) ∧
      H.hashmod = 5 ∧ addrs.length = N + 1 ∧
      ∀ u ∈ (replicate (N + 1) ((2, 0) : ℤ × ℕ)).zip addrs,
        u.2 < H.hashmod ∧ H.hashcount u.2 = -2 ^ 31 := by
  have hroots : MinusRoots (2 ^ 64 - 1) (2 ^ 64 - 2) := ⟨Or.inr rfl, Or.inr rfl⟩
  have hx : ValidPair false (2 ^ 64 - 1) (2 ^ 64 - 2) (2, 0) := by simp [ValidPair]
  have hvalid : ∀ x ∈ replicate N ((2, 0) : ℤ × ℕ),
      ValidPair false (2 ^ 64 - 1) (2 ^ 64 - 2) x := by
    intro x hmem
    rw [List.eq_of_mem_replicate hmem]
    exact hx
  have hcount : ∀ x, (replicate N ((2, 0) : ℤ × ℕ)).count x < 2 ^ 31 := by
    intro x
    refine lt_of_le_of_lt List.count_le_length ?_
    rw [List.length_replicate]
    omega
  have hdistinct : (replicate N ((2, 0) : ℤ × ℕ)).toFinset.card
      < (hashInit (fun _ => 5) 2 false).hashmod := by
    refine lt_of_le_of_lt (Finset.card_le_one.mpr ?_) (by decide)
    intro a ha b hb
    rw [mem_toFinset] at ha hb
    rw [List.eq_of_mem_replicate ha, List.eq_of_mem_replicate hb]
  have hmod : (hashInit (fun _ => 5) 2 false).hashmod < 2 ^ 31 := by decide
  obtain ⟨H, addrs, hres, hlen, -, -⟩ :=
    hashInserts_correct (fun _ => 5) 2 false hroots hmod _ hvalid hdistinct hcount
  obtain ⟨hinv, -, -, hzip⟩ := hashInserts_spec (hashInit_inv _ _ _) hmod hvalid
    (count_keys_lt hroots hvalid hcount) hres
  have hpos : 0 < N := by omega
  have hmem : (hashInit (fun _ => 5) 2 false).keyOf (2, 0) ∈
      ((replicate N ((2, 0) : ℤ × ℕ)).map (hashInit (fun _ => 5) 2 false).keyOf).reverse
        ++ [] := by
    rw [append_nil, List.mem_reverse]
    exact List.mem_map_of_mem (List.mem_replicate.mpr ⟨hpos.ne', rfl⟩)
  obtain ⟨a, ha, hkey⟩ := hinv.stored _ hmem
  have hkeyOf : H.keyOf = (hashInit (fun _ => 5) 2 false).keyOf := by
    funext y
    unfold Hashtable.keyOf Hashtable.mask
    rw [hinv.need64_eq]
  have haddr := getHashAddr_stored hinv.chained (by rw [hinv.hashmod_eq]; exact hmod) ha
    (hkey.trans (congrFun hkeyOf.symm _))
  have hbefore : H.hashcount a = N := by
    rw [hinv.count a ha, hkey, append_nil, List.count_reverse,
      count_keyOf hroots hvalid hx, List.count_replicate_self]
  have hlast : hashInsert H 2 0 = some (H.setCount a (H.hashcount a + 1), a) := by
    rw [hashInsert, haddr]
    simp only [bind_eq_bind, bind_some, if_neg (show ¬H.hashcount a = 0 from ha)]
    rfl
  have hafter : (H.setCount a (H.hashcount a + 1)).hashcount a = -2 ^ 31 := by
    simp only [Hashtable.setCount, update_self, hbefore]
    rw [show (N : ℤ) + 1 = 2 ^ 31 by exact_mod_cast hN]
    decide
  refine ⟨H.setCount a (H.hashcount a + 1), addrs ++ [a], ?_, hinv.hashmod_eq, ?_, ?_⟩
  · rw [List.replicate_succ', hashInserts_append, hres]
    simp [hashInserts, hlast]
  · rw [List.length_append, hlen, List.length_replicate, List.length_singleton]
  · intro u hu
    have hua : u.2 = a := by
      rw [List.replicate_succ', List.zip_append (by rw [hlen]), List.mem_append] at hu
      rcases hu with hu | hu
      · obtain ⟨huused, hukey⟩ := hzip u hu
        rw [List.eq_of_mem_replicate (of_mem_zip hu).1] at hukey
        exact hinv.chained.key_injOn huused ha (hukey.trans hkey.symm)
      · rw [List.zip_cons_cons, List.zip_nil_left, List.mem_singleton] at hu
        rw [hu]
    rw [hua]
    exact ⟨hinv.chained.lt_size a ha, hafter⟩

/-- Two runs beyond the limits of `int`: a pair that is inserted too often has a
negative counter, and in a table with more than `2 ^ 31` slots an address can be
negative. -/
theorem hashInserts_int_limits :
    (∃ H addrs, hashInserts (hashInit (fun _ => 5) 2 false)
        (replicate (2 ^ 31) ((2, 0) : ℤ × ℕ)) = some (H, addrs) ∧
      H.hashmod = 5 ∧ addrs.length = 2 ^ 31 ∧
      ∀ u ∈ (replicate (2 ^ 31) ((2, 0) : ℤ × ℕ)).zip addrs,
        u.2 < H.hashmod ∧ H.hashcount u.2 = -2 ^ 31) ∧
      hashInserts (hashInit (fun _ => 2147483659) 1431655765 false) [(70379, 27794)] = none := by
  constructor
  · obtain ⟨N, hN⟩ : ∃ N, N + 1 = 2 ^ 31 := ⟨2 ^ 31 - 1, by omega⟩
    have hwraps := hashInserts_wraps_of hN
    rw [← hN]
    exact hwraps
  · have hnone : hashInsert (hashInit (fun _ => 2147483659) 1431655765 false) 70379 27794
        = none :=
      Option.isNone_iff_eq_none.mp (by decide +kernel)
    rw [hashInserts, hnone]
    rfl

end Fresh

end CadoNfs
