import Mathlib.NumberTheory.LucasPrimality
import Mathlib.Tactic.NormNum.Prime
import Mathlib.Tactic.ReduceModChar
import CadoNfs.Sieve.FbEntry

/-!
# The factor base of a linear polynomial

`fb_make_linear` of `fb.c`.  The primes come from `getprime`.  The powers of the
primes wait in an unordered list, one for each prime, and the smallest goes into the factor base
when the next prime is larger.

Main results:

- Theorem `nextEntry_spec`: one step of the merge.
- Theorem `mem_fbMakeLinear`: what is listed below the bound at which the primes wrap.
- Theorem `fbMakeLinear_iff`: when the factor base is complete and right.
-/

namespace CadoNfs.Fb

open WordArith
open List (getElem_idxOf mem_append mem_append_left mem_append_right mem_cons mem_cons_of_mem
  mem_cons_self mem_map mem_singleton not_mem_nil)
open Outcome (assert assert_of exists_of_bind_eq_pure)

variable {w : ℕ}

/-! ## Code -/

/-- The primes and the prime powers that are still to come: the last number that
`getprime` returned, `p`, `powers` and `min_pow`. -/
structure Pending where
  prime : ℕ
  p : ℕ
  powers : List ℕ
  minPow : ℕ
deriving DecidableEq, Repr

/-- "Find new minimum among the prime powers". -/
def findMinimum (powers : List ℕ) (minPow : ℕ) : ℕ :=
  match powers with
  | [] => minPow
  | x :: powers => powers.foldl (fun m y => if y < m then y else m) x

/-- The prime power `min_pow` is replaced by the next power of the prime `q`, or
removed. -/
def replacePower (powers : List ℕ) (i q powbound : ℕ) : List ℕ :=
  if powers.getD i 0 ≤ powbound / q then powers.set i (powers.getD i 0 * q % 2 ^ 32)
  else powers.eraseIdx i

/-- The first part of a pass of the loop: the next prime or prime power and its logarithm. -/
def nextEntry (getprime isPrimePower : ℕ → ℕ) (fbLog : ℕ → BitVec 8) (powbound : ℕ)
    (s : Pending) : Outcome (ℕ × BitVec 8 × Pending) :=
  if s.powers ≠ [] ∧ s.minPow < s.p then do
    let i := s.powers.idxOf s.minPow
    assert (i < s.powers.length)
    let q := isPrimePower s.minPow
    assert (s.minPow / q ≥ q ∧ s.minPow % (q * q % 2 ^ 32) = 0)
    let logp := fbLog s.minPow - fbLog (s.minPow / q)
    let powers := replacePower s.powers i q powbound
    pure (s.minPow, logp, { s with powers := powers, minPow := findMinimum powers s.minPow })
  else
    let q := s.p
    let logp := fbLog q
    let s :=
      if q ≤ powbound / q then
        let powers := s.powers ++ [q * q % 2 ^ 32]
        { s with powers := powers, minPow := findMinimum powers s.minPow }
      else s
    let prime := getprime s.prime
    pure (q, logp, { s with prime := prime, p := prime % 2 ^ 32 })

/-- What `fb_make_linear` is called with. -/
structure LinearInput where
  g0 : ℤ
  g1 : ℤ
  bound : ℕ
  powbound : ℕ
  projective : Bool
deriving DecidableEq, Repr

/-- The variables of `fb_make_linear`. -/
structure LinearState (w : ℕ) where
  pending : Pending
  cur : FbEntry w
  fb : List (FbEntry w)
deriving DecidableEq, Repr

section Loop

variable (build : UlarithBuild) (getprime isPrimePower : ℕ → ℕ) (fbLog : ℕ → BitVec 8)
  (inp : LinearInput)

/-- One pass of the loop of `fb_make_linear`. -/
def linearPass (s : LinearState w) : Outcome (LinearState w) := do
  let (q, logp, pending) ← nextEntry getprime isPrimePower fbLog inp.powbound s.pending
  let (made, cur) ← fbMakeLinear1 build s.cur inp.g0 inp.g1 q logp inp.projective
  pure { pending := pending, cur := cur, fb := if made then fbAddTo s.fb cur else s.fb }

/-- The loop of `fb_make_linear`, with at most `fuel` passes. -/
def linearLoop : ℕ → LinearState w → Outcome (LinearState w)
  | 0, _ => .abort
  | fuel + 1, s =>
    if s.pending.p ≤ inp.bound then do
      let s ← linearPass build getprime isPrimePower fbLog inp s
      linearLoop fuel s
    else pure s

/-- `fb_make_linear`, where `cur` is the memory that is allocated for an entry.  The
result is `none` for a null pointer. -/
def fbMakeLinear (cur : FbEntry w) (fuel : ℕ) : Outcome (Option (List (FbEntry w))) := do
  let s ← linearLoop build getprime isPrimePower fbLog inp fuel ⟨⟨2, 2, [], 0⟩, cur, []⟩
  pure (if s.fb = [] then none else some (fbAddTo s.fb (endMark s.cur)))

end Loop

/-! ## The list of prime powers -/

section Powers

variable {x y l k powbound : ℕ} {powers : List ℕ}

/-- The prime powers that are no primes. -/
def IsProperPower (x : ℕ) : Prop :=
  ∃ l k, l.Prime ∧ 2 ≤ k ∧ x = l ^ k

theorem minFac_pow (hl : l.Prime) (hk : 2 ≤ k) : (l ^ k).minFac = l :=
  hl.pow_minFac (by omega)

theorem IsProperPower.not_prime (h : IsProperPower x) : ¬x.Prime := by
  obtain ⟨l, k, -, hk, rfl⟩ := h
  exact Nat.Prime.not_prime_pow hk

theorem IsProperPower.lt_mul_minFac (h : IsProperPower x) : x < x * x.minFac := by
  obtain ⟨l, k, hl, hk, rfl⟩ := h
  rw [minFac_pow hl hk]
  exact lt_mul_of_one_lt_right (pow_pos hl.pos k) hl.one_lt

theorem IsProperPower.mul_minFac (h : IsProperPower x) :
    IsProperPower (x * x.minFac) ∧ (x * x.minFac).minFac = x.minFac := by
  obtain ⟨l, k, hl, hk, rfl⟩ := h
  rw [minFac_pow hl hk, ← pow_succ]
  exact ⟨⟨l, k + 1, hl, by omega, rfl⟩, minFac_pow hl (by omega)⟩

theorem findMinimum_spec (hne : powers ≠ []) (minPow : ℕ) :
    findMinimum powers minPow ∈ powers ∧ ∀ y ∈ powers, findMinimum powers minPow ≤ y := by
  have hfold : ∀ (l : List ℕ) (x : ℕ), l.foldl (fun m y => if y < m then y else m) x ∈ x :: l ∧
      ∀ y ∈ x :: l, l.foldl (fun m y => if y < m then y else m) x ≤ y := by
    intro l
    induction l with
    | nil => simp
    | cons z l ih =>
      intro x
      obtain ⟨hmem, hle⟩ := ih (if z < x then z else x)
      rw [List.foldl_cons]
      split_ifs at hmem hle ⊢ with hlt
      · refine ⟨mem_cons_of_mem _ hmem, fun y hy => ?_⟩
        have hz := hle z mem_cons_self
        rcases mem_cons.mp hy with rfl | hy
        · exact hz.trans hlt.le
        · exact hle y hy
      · refine ⟨?_, fun y hy => ?_⟩
        · rcases mem_cons.mp hmem with h | h
          · exact mem_cons.mpr (.inl h)
          · exact mem_cons_of_mem _ (mem_cons_of_mem _ h)
        · have hx := hle x mem_cons_self
          rcases mem_cons.mp hy with rfl | hy
          · exact hx
          rcases mem_cons.mp hy with rfl | hy
          · exact hx.trans (not_lt.mp hlt)
          · exact hle y (mem_cons_of_mem _ hy)
  obtain ⟨x, l, rfl⟩ := List.exists_cons_of_ne_nil hne
  exact hfold l x

theorem mem_set_iff (hnodup : powers.Nodup) (hx : x ∈ powers) (a : ℕ) :
    y ∈ powers.set (powers.idxOf x) a ↔ (y ∈ powers ∧ y ≠ x) ∨ y = a := by
  have hi : powers.idxOf x < powers.length := List.idxOf_lt_length_of_mem hx
  constructor
  · intro hy
    obtain ⟨j, hj, rfl⟩ := List.mem_iff_getElem.mp hy
    rw [List.length_set] at hj
    rw [List.getElem_set]
    split_ifs with hij
    · exact .inr rfl
    · refine .inl ⟨List.getElem_mem hj, fun h => hij ?_⟩
      have hget : powers[powers.idxOf x] = powers[j] := (getElem_idxOf hi).trans h.symm
      exact hnodup.getElem_inj_iff.mp hget
  · rintro (⟨hy, hne⟩ | rfl)
    · obtain ⟨j, hj, rfl⟩ := List.mem_iff_getElem.mp hy
      refine List.mem_iff_getElem.mpr ⟨j, by rwa [List.length_set], ?_⟩
      rw [List.getElem_set, if_neg]
      rintro rfl
      exact hne (getElem_idxOf hi)
    · exact List.mem_set hi _

/-- A power is replaced by the next power of its prime. -/
theorem replacePower_spec (hpow32 : powbound < 2 ^ 32) (hbases : (powers.map Nat.minFac).Nodup)
    (hx : x ∈ powers) (hproper : IsProperPower x) :
    (∀ y, y ∈ replacePower powers (powers.idxOf x) x.minFac powbound ↔
      (y ∈ powers ∧ y ≠ x) ∨ (y = x * x.minFac ∧ y ≤ powbound)) ∧
    ((replacePower powers (powers.idxOf x) x.minFac powbound).map Nat.minFac).Nodup := by
  have hnodup : powers.Nodup := hbases.of_map
  have hi : powers.idxOf x < powers.length := List.idxOf_lt_length_of_mem hx
  have hget : powers.getD (powers.idxOf x) 0 = x := by
    rw [List.getD_eq_getElem _ _ hi, getElem_idxOf hi]
  have hle_iff : x ≤ powbound / x.minFac ↔ x * x.minFac ≤ powbound :=
    Nat.le_div_iff_mul_le (Nat.minFac_pos x)
  rw [replacePower, hget]
  split_ifs with hle
  · have hle' := hle_iff.mp hle
    rw [Nat.mod_eq_of_lt (by omega)]
    refine ⟨fun y => ?_, ?_⟩
    · rw [mem_set_iff hnodup hx]
      constructor
      · rintro (h | rfl)
        · exact .inl h
        · exact .inr ⟨rfl, hle'⟩
      · rintro (h | ⟨rfl, -⟩)
        · exact .inl h
        · exact .inr rfl
    · have hi' : powers.idxOf x < (powers.map Nat.minFac).length := by
        rwa [List.length_map]
      have hsame : (x * x.minFac).minFac = (powers.map Nat.minFac)[powers.idxOf x] := by
        rw [List.getElem_map, getElem_idxOf hi, hproper.mul_minFac.2]
      rwa [List.map_set, hsame, List.set_getElem_self]
  · rw [List.eraseIdx_idxOf_eq_erase]
    refine ⟨fun y => ?_, hbases.sublist (List.erase_sublist.map _)⟩
    rw [hnodup.mem_erase_iff, and_comm]
    constructor
    · exact .inl
    · rintro (h | ⟨rfl, h⟩)
      · exact h
      · exact absurd (hle_iff.mpr h) hle

end Powers

/-! ## The merge -/

section Merge

variable {B powbound : ℕ} {getprime isPrimePower : ℕ → ℕ} {fbLog : ℕ → BitVec 8} {s : Pending}
  {E : List ℕ}

/-- `getprime` enumerates the primes, and `is_prime_power` is exact. -/
structure Exact (getprime isPrimePower : ℕ → ℕ) : Prop where
  next : ∀ p, p.Prime → IsLeast {l | l.Prime ∧ p < l} (getprime p)
  power : ∀ l k, l.Prime → 2 ≤ k → l ^ k < 2 ^ 32 → isPrimePower (l ^ k) = l

/-- The prime powers are pending, one for each prime.  The primes in the list `E` of what
has been taken, and those that follow a prime power in it, are at most `B`. -/
structure Progress (B powbound : ℕ) (s : Pending) (E : List ℕ) : Prop where
  prime : s.prime.Prime
  p_eq : s.p = s.prime % 2 ^ 32
  increasing : E.Pairwise (· < ·)
  below : ∀ x ∈ E, x < s.prime
  pending : ∀ x ∈ E, ∀ y ∈ s.powers, x < y
  bases : (s.powers.map Nat.minFac).Nodup
  power : ∀ y ∈ s.powers, IsProperPower y ∧ y ≤ powbound ∧ y.minFac < s.prime
  minimum : s.powers ≠ [] → s.minPow ∈ s.powers ∧ ∀ y ∈ s.powers, s.minPow ≤ y
  sound : ∀ x ∈ E, (x.Prime ∧ x ≤ B) ∨
    (IsProperPower x ∧ x ≤ powbound ∧ ∃ r, r.Prime ∧ r ≤ B ∧ x < r)
  primes : ∀ r, r.Prime → r < s.prime → r ∈ E
  complete : ∀ l k, l.Prime → l < s.prime → 2 ≤ k → l ^ k ≤ powbound →
    l ^ k ∈ E ∨ ∃ j, 2 ≤ j ∧ j ≤ k ∧ l ^ j ∈ s.powers

theorem Progress.start (B powbound : ℕ) : Progress B powbound ⟨2, 2, [], 0⟩ [] where
  prime := Nat.prime_two
  p_eq := rfl
  increasing := .nil
  below _ h := absurd h not_mem_nil
  pending _ h := absurd h not_mem_nil
  bases := .nil
  power _ h := absurd h not_mem_nil
  minimum h := absurd rfl h
  sound _ h := absurd h not_mem_nil
  primes _ hr hlt := absurd hr.two_le (not_le.mpr hlt)
  complete _ _ hl hlt := absurd hl.two_le (not_le.mpr hlt)

/-- The merge of primes and powers goes on with the next power. -/
theorem Progress.takePower (h : Progress B powbound s E) (hprimeB : s.prime ≤ B)
    (hpow32 : powbound < 2 ^ 32) (hne : s.powers ≠ []) (hlt : s.minPow < s.prime) (minPow : ℕ) :
    let powers := replacePower s.powers (s.powers.idxOf s.minPow) s.minPow.minFac powbound
    Progress B powbound { s with powers := powers, minPow := findMinimum powers minPow }
      (E ++ [s.minPow]) := by
  obtain ⟨hmem, hmin⟩ := h.minimum hne
  obtain ⟨hproper, hle, hbase⟩ := h.power _ hmem
  obtain ⟨hpowers, hbases⟩ := replacePower_spec hpow32 h.bases hmem hproper
  have hgrow := hproper.lt_mul_minFac
  have hforall : ∀ {P : ℕ → Prop}, (∀ x ∈ E, P x) → P s.minPow → ∀ x ∈ E ++ [s.minPow], P x := by
    intro P hE hlast x hx
    rcases mem_append.mp hx with hx | hx
    · exact hE x hx
    · exact mem_singleton.mp hx ▸ hlast
  intro powers
  refine ⟨h.prime, h.p_eq, ?_, hforall h.below hlt, ?_, hbases, ?_, ?_, ?_, ?_, ?_⟩
  · refine List.pairwise_append.mpr ⟨h.increasing, List.pairwise_singleton _ _, ?_⟩
    intro x hx y hy
    exact mem_singleton.mp hy ▸ h.pending x hx _ hmem
  · refine hforall (fun x hx y hy => ?_) fun y hy => ?_
    · rcases (hpowers y).mp hy with ⟨hy, -⟩ | ⟨rfl, -⟩
      · exact h.pending x hx y hy
      · exact (h.pending x hx _ hmem).trans hgrow
    · rcases (hpowers y).mp hy with ⟨hy, hyne⟩ | ⟨rfl, -⟩
      · exact lt_of_le_of_ne (hmin y hy) hyne.symm
      · exact hgrow
  · intro y hy
    rcases (hpowers y).mp hy with ⟨hy, -⟩ | ⟨rfl, hyle⟩
    · exact h.power y hy
    · exact ⟨hproper.mul_minFac.1, hyle, by rwa [hproper.mul_minFac.2]⟩
  · exact fun hne' => findMinimum_spec hne' minPow
  · exact hforall h.sound (.inr ⟨hproper, hle, s.prime, h.prime, hprimeB, hlt⟩)
  · exact fun r hr hlt => mem_append_left _ (h.primes r hr hlt)
  · intro l k hl hlp hk hpow
    rcases h.complete l k hl hlp hk hpow with hE | ⟨j, hj, hjk, hjmem⟩
    · exact .inl (mem_append_left _ hE)
    by_cases hjm : l ^ j = s.minPow
    · rcases eq_or_lt_of_le hjk with rfl | hjk
      · exact .inl (mem_append_right _ (mem_singleton.mpr hjm))
      · -- the next power of the same prime is pending now
        have hnext : s.minPow * s.minPow.minFac = l ^ (j + 1) := by
          rw [← hjm, minFac_pow hl hj, pow_succ]
        have hjpow : l ^ (j + 1) ≤ l ^ k := Nat.pow_le_pow_right hl.pos hjk
        exact .inr ⟨j + 1, by omega, hjk, (hpowers _).mpr (.inr ⟨hnext.symm, hjpow.trans hpow⟩)⟩
    · exact .inr ⟨j, hj, hjk, (hpowers _).mpr (.inl ⟨hjmem, hjm⟩)⟩

/-- The merge of primes and powers goes on with the next prime. -/
theorem Progress.takePrime (h : Progress B powbound s E) (hprimeB : s.prime ≤ B) {next : ℕ}
    (hnext : IsLeast {l | l.Prime ∧ s.prime < l} next) (hall : ∀ y ∈ s.powers, s.prime ≤ y)
    {powers : List ℕ} {minPow : ℕ}
    (hpowers : powers = if s.prime * s.prime ≤ powbound then s.powers ++ [s.prime * s.prime]
      else s.powers)
    (hmin : powers ≠ [] → minPow ∈ powers ∧ ∀ y ∈ powers, minPow ≤ y) :
    Progress B powbound ⟨next, next % 2 ^ 32, powers, minPow⟩ (E ++ [s.prime]) := by
  obtain ⟨hnextPrime, hlt⟩ := hnext.1
  have hsquare : IsProperPower (s.prime * s.prime) :=
    ⟨s.prime, 2, h.prime, le_rfl, (sq s.prime).symm⟩
  have hminFac : (s.prime * s.prime).minFac = s.prime := by
    rw [← sq, minFac_pow h.prime le_rfl]
  have hself : s.prime < s.prime * s.prime := lt_mul_of_one_lt_right h.prime.pos h.prime.one_lt
  have hmem : ∀ y, y ∈ powers ↔ y ∈ s.powers ∨ (y = s.prime * s.prime ∧ y ≤ powbound) := by
    intro y
    rw [hpowers]
    split_ifs with hle
    · rw [mem_append, mem_singleton]
      exact or_congr Iff.rfl ⟨fun hy => ⟨hy, hy ▸ hle⟩, And.left⟩
    · exact ⟨.inl, fun hy => hy.resolve_right fun hy => hle (hy.1 ▸ hy.2)⟩
  have hforall : ∀ {P : ℕ → Prop}, (∀ x ∈ E, P x) → P s.prime → ∀ x ∈ E ++ [s.prime], P x := by
    intro P hE hlast x hx
    rcases mem_append.mp hx with hx | hx
    · exact hE x hx
    · exact mem_singleton.mp hx ▸ hlast
  refine ⟨hnextPrime, rfl, ?_, ?_, ?_, ?_, ?_, hmin, ?_, ?_, ?_⟩
  · refine List.pairwise_append.mpr ⟨h.increasing, List.pairwise_singleton _ _, ?_⟩
    intro x hx y hy
    exact mem_singleton.mp hy ▸ h.below x hx
  · exact hforall (fun x hx => (h.below x hx).trans hlt) hlt
  · refine hforall (fun x hx y hy => ?_) fun y hy => ?_
    · rcases (hmem y).mp hy with hy | ⟨rfl, -⟩
      · exact h.pending x hx y hy
      · exact (h.below x hx).trans hself
    · rcases (hmem y).mp hy with hy | ⟨rfl, -⟩
      · refine lt_of_le_of_ne (hall y hy) fun heq => ?_
        exact (h.power y hy).1.not_prime (heq ▸ h.prime)
      · exact hself
  · show (powers.map Nat.minFac).Nodup
    rw [hpowers]
    split_ifs
    · rw [List.map_append, List.nodup_append]
      refine ⟨h.bases, List.nodup_singleton _, fun a ha b hb => ?_⟩
      obtain ⟨y, hy, rfl⟩ := mem_map.mp ha
      rw [List.map_singleton, mem_singleton, hminFac] at hb
      exact hb ▸ (h.power y hy).2.2.ne
    · exact h.bases
  · intro y hy
    rcases (hmem y).mp hy with hy | ⟨rfl, hle⟩
    · obtain ⟨hproper, hle, hbase⟩ := h.power y hy
      exact ⟨hproper, hle, hbase.trans hlt⟩
    · exact ⟨hsquare, hle, hminFac.symm ▸ hlt⟩
  · exact hforall h.sound (.inl ⟨h.prime, hprimeB⟩)
  · intro r hr hrnext
    rcases lt_trichotomy r s.prime with hrp | rfl | hrp
    · exact mem_append_left _ (h.primes r hr hrp)
    · exact mem_append_right _ mem_cons_self
    · exact absurd (hnext.2 ⟨hr, hrp⟩) (not_le.mpr hrnext)
  · intro l k hl hlnext hk hpow
    rcases lt_trichotomy l s.prime with hlp | rfl | hlp
    · rcases h.complete l k hl hlp hk hpow with hE | ⟨j, hj, hjk, hjmem⟩
      · exact .inl (mem_append_left _ hE)
      · exact .inr ⟨j, hj, hjk, (hmem _).mpr (.inl hjmem)⟩
    · have hsq : s.prime ^ 2 ≤ s.prime ^ k := Nat.pow_le_pow_right hl.pos hk
      exact .inr ⟨2, le_rfl, hk, (hmem _).mpr (.inr ⟨sq s.prime, hsq.trans hpow⟩)⟩
    · exact absurd (hnext.2 ⟨hl, hlp⟩) (not_le.mpr hlnext)

variable (fbLog) in
/-- One step takes the smallest number that is pending. -/
theorem nextEntry_spec (hexact : Exact getprime isPrimePower) (h : Progress B powbound s E)
    (hprimeB : s.prime ≤ B) (hB : B < 2 ^ 32) (hpow32 : powbound < 2 ^ 32) :
    ∃ q logp s', nextEntry getprime isPrimePower fbLog powbound s = pure (q, logp, s') ∧
      Progress B powbound s' (E ++ [q]) := by
  obtain ⟨prime, p, powers, minPow⟩ := s
  have hp : p = prime := h.p_eq.trans (Nat.mod_eq_of_lt (hprimeB.trans_lt hB))
  subst hp
  rw [nextEntry]
  by_cases hcond : powers ≠ [] ∧ minPow < p
  · obtain ⟨hne, hlt⟩ := hcond
    obtain ⟨hmem, -⟩ := h.minimum hne
    obtain ⟨⟨l, k, hl, hk, hpow⟩, hle, -⟩ := h.power minPow hmem
    have hq : isPrimePower minPow = minPow.minFac := by
      rw [hpow, hexact.power l k hl hk (hpow ▸ hle.trans_lt hpow32), minFac_pow hl hk]
    have hassert : minPow / minPow.minFac ≥ minPow.minFac ∧
        minPow % (minPow.minFac * minPow.minFac % 2 ^ 32) = 0 := by
      have hsq : l ^ 2 ≤ l ^ k := Nat.pow_le_pow_right hl.pos hk
      have hsq32 : l * l % 2 ^ 32 = l ^ 2 := by
        rw [← sq, Nat.mod_eq_of_lt (hsq.trans_lt (hpow ▸ hle.trans_lt hpow32))]
      rw [hpow, minFac_pow hl hk, hsq32, ge_iff_le, Nat.le_div_iff_mul_le hl.pos, ← sq]
      exact ⟨hsq, Nat.mod_eq_zero_of_dvd (pow_dvd_pow l hk)⟩
    refine ⟨minPow, fbLog minPow - fbLog (minPow / minPow.minFac), _, ?_,
      h.takePower hprimeB hpow32 hne hlt minPow⟩
    rw [if_pos ⟨hne, hlt⟩]
    simp only [assert_of (List.idxOf_lt_length_of_mem hmem), pure_bind, hq,
      assert_of hassert]
  · have hall : ∀ y ∈ powers, p ≤ y := fun y hy => by
      have hne := List.ne_nil_of_mem hy
      have hmin := (h.minimum hne).2 y hy
      exact (not_lt.mp fun hlt => hcond ⟨hne, hlt⟩).trans hmin
    have hpush : p ≤ powbound / p ↔ p * p ≤ powbound := Nat.le_div_iff_mul_le h.prime.pos
    have hnext := hexact.next p h.prime
    rw [if_neg hcond]
    refine ⟨p, _, _, rfl, ?_⟩
    split_ifs with hle
    · refine h.takePrime hprimeB hnext hall ?_ fun hne => findMinimum_spec hne _
      have hsquare := hpush.mp hle
      rw [if_pos hsquare, Nat.mod_eq_of_lt (hsquare.trans_lt hpow32)]
    · refine h.takePrime hprimeB hnext hall ?_ h.minimum
      rw [if_neg fun hsquare => hle (hpush.mpr hsquare)]

end Merge

/-! ## The loop -/

section Loop

variable {build : UlarithBuild} {getprime isPrimePower : ℕ → ℕ} {fbLog : ℕ → BitVec 8}
  {inp : LinearInput} {B : ℕ} {s t : LinearState w}

/-- What is to be listed. -/
def Wanted (inp : LinearInput) (q : ℕ) : Prop :=
  (q.Prime ∧ q ≤ inp.bound) ∨ (IsProperPower q ∧ q ≤ inp.powbound)

/-- The root of an entry, as it is stored. -/
structure HasRoot (g0 g1 : ℤ) (e : FbEntry w) : Prop where
  affine : Int.gcd g1 e.p = 1 → ∃ R, R < e.p ∧ (e.p : ℤ) ∣ g1 * R + g0 ∧ e.roots = [R]
  projective : Int.gcd g1 e.p ≠ 1 →
    ∃ R, R < e.p ∧ (e.p : ℤ) ∣ g0 * R + g1 ∧ e.roots = [(e.p + R) % 2 ^ 32]

/-- Before a pass. -/
structure LoopInvariant (inp : LinearInput) (B : ℕ) (s : LinearState w) : Prop where
  progress : Progress B inp.powbound s.pending (s.fb.map FbEntry.p)
  root : ∀ e ∈ s.fb, HasRoot inp.g0 inp.g1 e

theorem gcd_eq_one_of_gcd_ne_one {g0 g1 : ℤ} (hgcd : Int.gcd g0 g1 = 1) {l k : ℕ} (hl : l.Prime)
    (h : Int.gcd g1 (l ^ k : ℕ) ≠ 1) : Int.gcd g0 (l ^ k : ℕ) = 1 := by
  rw [Nat.cast_pow] at h ⊢
  have hdvd1 : (l : ℤ) ∣ g1 := by
    by_contra hndvd
    exact h (Int.isCoprime_iff_gcd_eq_one.mp
      ((Int.isCoprime_iff_gcd_eq_one.mpr (by
        rw [Int.gcd_comm]
        exact (Nat.Prime.coprime_iff_not_dvd hl).mpr fun hd => hndvd
          (Int.natCast_dvd.mpr hd))).pow_right))
  refine Int.isCoprime_iff_gcd_eq_one.mp (IsCoprime.pow_right ?_)
  exact (Int.isCoprime_iff_gcd_eq_one.mpr hgcd).of_isCoprime_of_dvd_right hdvd1

theorem Progress.prime_pow {powbound : ℕ} {pending : Pending} {E : List ℕ}
    (h : Progress B powbound pending E) (hB : B < 2 ^ 32) (hpow32 : powbound < 2 ^ 32) {q : ℕ}
    (hq : q ∈ E) : 1 < q ∧ q < 2 ^ 32 ∧ ∃ l k, l.Prime ∧ q = l ^ k := by
  rcases h.sound q hq with ⟨hprime, hle⟩ | ⟨⟨l, k, hl, hk, rfl⟩, hle, -⟩
  · exact ⟨hprime.one_lt, by omega, q, 1, hprime, (pow_one q).symm⟩
  · exact ⟨Nat.one_lt_pow (by omega) hl.one_lt, by omega, l, k, hl, rfl⟩

variable (build fbLog) in
/-- One pass adds one entry to the factor base. -/
theorem linearPass_spec (hw : w = 32 ∨ w = 64) (hexact : Exact getprime isPrimePower)
    (hgcd : Int.gcd inp.g0 inp.g1 = 1) (hproj : inp.projective = true)
    (h : LoopInvariant inp B s) (hprimeB : s.pending.prime ≤ B) (hB : B < 2 ^ 32)
    (hpow32 : inp.powbound < 2 ^ 32) :
    ∃ s', linearPass build getprime isPrimePower fbLog inp s = pure s' ∧
      LoopInvariant inp B s' ∧ s'.fb.length = s.fb.length + 1 := by
  obtain ⟨q, logp, pending, hrun, hprogress⟩ :=
    nextEntry_spec fbLog hexact h.progress hprimeB hB hpow32
  obtain ⟨hq1, hq32, l, k, hl, hqpow⟩ :=
    hprogress.prime_pow hB hpow32 (mem_append_right _ (List.mem_singleton_self q))
  have hentry : ∃ cur, fbMakeLinear1 build s.cur inp.g0 inp.g1 q logp inp.projective
      = pure (true, cur) ∧ cur.p = q ∧ HasRoot inp.g0 inp.g1 cur := by
    rw [hproj]
    by_cases hcop : Int.gcd inp.g1 q = 1
    · obtain ⟨cur, R, hmake, hfor, hlt, hdvd, hroots⟩ :=
        fbMakeLinear1_affine build hw s.cur logp true hq1 hq32 hcop
      exact ⟨cur, hmake, hfor.p_eq,
        fun _ => ⟨R, hfor.p_eq.symm ▸ hlt, hfor.p_eq.symm ▸ hdvd, hroots⟩,
        fun hne => absurd (hfor.p_eq ▸ hcop) hne⟩
    · have hcop0 : Int.gcd inp.g0 q = 1 := by
        rw [hqpow] at hcop ⊢
        exact gcd_eq_one_of_gcd_ne_one hgcd hl hcop
      obtain ⟨cur, R, hmake, hfor, hlt, hdvd, hroots⟩ :=
        fbMakeLinear1_projective build hw s.cur logp hq1 hq32 hcop hcop0
      exact ⟨cur, hmake, hfor.p_eq, fun heq => absurd (hfor.p_eq ▸ heq) hcop,
        fun _ => ⟨R, hfor.p_eq.symm ▸ hlt, hfor.p_eq.symm ▸ hdvd, hfor.p_eq.symm ▸ hroots⟩⟩
  obtain ⟨cur, hmake, hp, hroot⟩ := hentry
  refine ⟨⟨pending, cur, fbAddTo s.fb cur⟩, ?_, ⟨?_, ?_⟩, ?_⟩
  · simp [linearPass, hrun, hmake]
  · rw [fbAddTo, List.map_append, List.map_singleton, hp]
    exact hprogress
  · intro e he
    rcases mem_append.mp he with he | he
    · exact h.root e he
    · exact mem_singleton.mp he ▸ hroot
  · rw [fbAddTo, List.length_append, List.length_singleton]

theorem Progress.length_le {powbound : ℕ} {pending : Pending} {E : List ℕ}
    (h : Progress B powbound pending E) : E.length ≤ pending.prime := by
  have hnodup : E.Nodup := h.increasing.imp fun hlt => hlt.ne
  have hsub : E.toFinset ⊆ Finset.range pending.prime := fun x hx =>
    Finset.mem_range.mpr (h.below x (List.mem_toFinset.mp hx))
  have hcard := Finset.card_le_card hsub
  rwa [List.toFinset_card_of_nodup hnodup, Finset.card_range] at hcard

variable (build fbLog) in
theorem linearLoop_reach (hw : w = 32 ∨ w = 64) (hexact : Exact getprime isPrimePower)
    (hgcd : Int.gcd inp.g0 inp.g1 = 1) (hproj : inp.projective = true)
    (h : LoopInvariant inp B s) (hB : B < 2 ^ 32) (hBbound : B ≤ inp.bound)
    (hpow32 : inp.powbound < 2 ^ 32) :
    ∃ n s', (∀ fuel, linearLoop build getprime isPrimePower fbLog inp (n + fuel) s
        = linearLoop build getprime isPrimePower fbLog inp fuel s') ∧
      LoopInvariant inp B s' ∧ B < s'.pending.prime := by
  obtain ⟨k, hk⟩ : ∃ k, B < s.fb.length + k := ⟨B + 1, by omega⟩
  induction k generalizing s with
  | zero =>
    have hlen := h.progress.length_le
    rw [List.length_map] at hlen
    exact ⟨0, s, fun fuel => by rw [zero_add], h, by omega⟩
  | succ k ih =>
    by_cases hprimeB : s.pending.prime ≤ B
    · obtain ⟨s₁, hpass, hs₁, hlen⟩ := linearPass_spec build fbLog hw hexact
        hgcd hproj h hprimeB hB hpow32
      obtain ⟨n, s', hrun, hs', hlt⟩ := ih hs₁ (by omega)
      have hp : s.pending.p ≤ inp.bound := by
        rw [h.progress.p_eq]
        exact (Nat.mod_le _ _).trans (hprimeB.trans hBbound)
      refine ⟨n + 1, s', fun fuel => ?_, hs', hlt⟩
      rw [add_right_comm, linearLoop, if_pos hp, hpass, pure_bind, hrun]
    · exact ⟨0, s, fun fuel => by rw [zero_add], h, not_le.mp hprimeB⟩

theorem linearLoop_mono {fuel k : ℕ}
    (h : linearLoop build getprime isPrimePower fbLog inp fuel s = pure t) :
    linearLoop build getprime isPrimePower fbLog inp (fuel + k) s = pure t := by
  induction fuel generalizing s with
  | zero => cases h
  | succ fuel ih =>
    rw [linearLoop] at h
    rw [add_right_comm, linearLoop]
    split_ifs at h ⊢ with hp
    · obtain ⟨s₁, hpass, hrest⟩ := exists_of_bind_eq_pure h
      rw [hpass, pure_bind, ih hrest]
    · exact h

theorem linearLoop_subset {fuel : ℕ}
    (h : linearLoop build getprime isPrimePower fbLog inp fuel s = pure t) : s.fb ⊆ t.fb := by
  induction fuel generalizing s with
  | zero => cases h
  | succ fuel ih =>
    rw [linearLoop] at h
    split_ifs at h with hp
    · obtain ⟨s₁, hpass, hrest⟩ := exists_of_bind_eq_pure h
      refine List.Subset.trans ?_ (ih hrest)
      rw [linearPass] at hpass
      obtain ⟨⟨q, logp, pending⟩, -, hpass⟩ := exists_of_bind_eq_pure hpass
      obtain ⟨⟨made, cur⟩, -, hpass⟩ := exists_of_bind_eq_pure hpass
      rw [← (Outcome.done.inj hpass).1]
      cases made with
      | true => exact List.subset_append_left _ _
      | false => exact List.Subset.refl _
    · rw [(Outcome.done.inj h).1]
      exact List.Subset.refl _

theorem LoopInvariant.mem_iff (h : LoopInvariant inp inp.bound s)
    (hlt : inp.bound < s.pending.prime) (q : ℕ) :
    (∃ e ∈ s.fb, e.p = q) ↔ (q.Prime ∧ q ≤ inp.bound) ∨
      (IsProperPower q ∧ q ≤ inp.powbound ∧ ∃ r, r.Prime ∧ q < r ∧ r ≤ inp.bound) := by
  rw [← mem_map]
  constructor
  · intro hq
    rcases h.progress.sound q hq with hprime | ⟨hproper, hle, r, hr, hrB, hqr⟩
    · exact .inl hprime
    · exact .inr ⟨hproper, hle, r, hr, hqr, hrB⟩
  · rintro (⟨hprime, hle⟩ | ⟨⟨l, k, hl, hk, rfl⟩, hle, r, hr, hqr, hrB⟩)
    · exact h.progress.primes q hprime (by omega)
    · have hlk : l ≤ l ^ k := Nat.le_self_pow (by omega) l
      rcases h.progress.complete l k hl (by omega) hk hle with hE | ⟨j, -, hjk, hjmem⟩
      · exact hE
      · -- nothing below a prime that has been taken is pending
        have hrj := h.progress.pending r (h.progress.primes r hr (by omega)) _ hjmem
        have hjle : l ^ j ≤ l ^ k := Nat.pow_le_pow_right hl.pos hjk
        omega

end Loop

/-! ## The end of the 32-bit primes -/

/-- The largest prime of 32 bits. -/
def lastPrime : ℕ := 4294967291

/-- The prime `getprime` returns after it; `p` is 15 then. -/
def wrappedPrime : ℕ := 4294967311

theorem prime_lastPrime : lastPrime.Prime := by
  rw [lastPrime]
  apply lucas_primality 4294967291 2
  · reduce_mod_char
  · intro q hq hdvd
    have hmem : q ∈ [2, 5, 19, 22605091] := mem_list_primes_of_dvd_prod hq.prime
      (by norm_num [← Nat.prime_iff]) (by simpa using hdvd)
    fin_cases hmem
    all_goals
      reduce_mod_char
      decide

theorem prime_wrappedPrime : wrappedPrime.Prime := by
  rw [wrappedPrime]
  apply lucas_primality 4294967311 3
  · reduce_mod_char
  · intro q hq hdvd
    have hmem : q ∈ [2, 3, 3, 5, 131, 364289] := mem_list_primes_of_dvd_prod hq.prime
      (by norm_num [← Nat.prime_iff]) (by simpa using hdvd)
    fin_cases hmem
    all_goals
      reduce_mod_char
      decide

theorem eq_wrappedPrime {r : ℕ} (hr : r.Prime) (hlow : lastPrime < r) (hhigh : r ≤ wrappedPrime) :
    r = wrappedPrime := by
  rw [lastPrime] at hlow
  rw [wrappedPrime] at hhigh ⊢
  by_contra hne
  have hlt : r < 4294967311 := lt_of_le_of_ne hhigh hne
  interval_cases r <;> norm_num at hr

theorem not_isProperPower_fifteen : ¬IsProperPower 15 := by
  rintro ⟨l, k, hl, hk, hpow⟩
  have hsq : l ^ 2 ∣ 15 := hpow ▸ pow_dvd_pow l hk
  have hle : l < 4 := by
    by_contra hle
    have := Nat.le_of_dvd (by decide) hsq
    nlinarith
  have htwo := hl.two_le
  interval_cases l <;> revert hsq <;> decide

/-! ## The factor base -/

section FactorBase

variable {build : UlarithBuild} {getprime isPrimePower : ℕ → ℕ} {fbLog : ℕ → BitVec 8}
  {inp : LinearInput} {cur : FbEntry w}

/-- The entries of a factor base; a null pointer has none. -/
def IsListing (res : Option (List (FbEntry w))) (out : List (FbEntry w)) : Prop :=
  (res = none ∧ out = []) ∨ ∃ mark, res = some (out ++ [mark]) ∧ mark.p = fbEnd

theorem IsListing.unique {res : Option (List (FbEntry w))} {out out' : List (FbEntry w)}
    (h : IsListing res out) (h' : IsListing res out') : out = out' := by
  rcases h with ⟨rfl, rfl⟩ | ⟨mark, rfl, -⟩ <;> rcases h' with ⟨hnone, rfl⟩ | ⟨mark', hsome, -⟩
  · rfl
  · cases hsome
  · cases hnone
  · exact (List.append_inj' (Option.some.inj hsome) rfl).1

theorem fbMakeLinear_of_loop {fuel : ℕ} {s : LinearState w}
    (h : linearLoop build getprime isPrimePower fbLog inp fuel ⟨⟨2, 2, [], 0⟩, cur, []⟩ = pure s) :
    ∃ res, fbMakeLinear build getprime isPrimePower fbLog inp cur fuel = pure res ∧
      IsListing res s.fb := by
  refine ⟨_, by rw [fbMakeLinear, h, pure_bind], ?_⟩
  split_ifs with hnil
  · exact .inl ⟨rfl, hnil⟩
  · exact .inr ⟨_, rfl, rfl⟩

theorem LoopInvariant.start (inp : LinearInput) (B : ℕ) (cur : FbEntry w) :
    LoopInvariant inp B ⟨⟨2, 2, [], 0⟩, cur, []⟩ :=
  ⟨Progress.start B inp.powbound, fun _ h => absurd h not_mem_nil⟩

section

variable (hw : w = 32 ∨ w = 64) (hexact : Exact getprime isPrimePower)
  (hgcd : Int.gcd inp.g0 inp.g1 = 1) (hproj : inp.projective = true)
include hw hexact hgcd hproj

variable (build fbLog cur) in
theorem linearLoop_ends (hle : inp.powbound ≤ inp.bound) (hbound : inp.bound < lastPrime) :
    ∃ n s, (∀ k, linearLoop build getprime isPrimePower fbLog inp (n + k) ⟨⟨2, 2, [], 0⟩, cur, []⟩
        = pure s) ∧ LoopInvariant inp inp.bound s ∧ inp.bound < s.pending.prime := by
  have hlast : lastPrime < 2 ^ 32 := by decide
  obtain ⟨n, s, hrun, hs, hlt⟩ := linearLoop_reach build fbLog hw hexact
    hgcd hproj (LoopInvariant.start inp inp.bound cur) (by omega) le_rfl (by omega)
  have hprime : s.pending.prime ≤ lastPrime := by
    by_contra hgt
    have hmem := hs.progress.primes lastPrime prime_lastPrime (not_le.mp hgt)
    rcases hs.progress.sound _ hmem with ⟨-, hB⟩ | ⟨hproper, -⟩
    · omega
    · exact hproper.not_prime prime_lastPrime
  have hp : ¬s.pending.p ≤ inp.bound := by
    rw [hs.progress.p_eq, Nat.mod_eq_of_lt (by omega)]
    omega
  refine ⟨n + 1, s, fun k => ?_, hs, hlt⟩
  rw [add_right_comm, add_assoc, hrun, linearLoop, if_neg hp]

/-- After the last prime below `2 ^ 32` the next one wraps to 15. -/
theorem mem_fifteen_of_ends
    (hpow32 : inp.powbound < 2 ^ 32) (hbound : lastPrime ≤ inp.bound) {fuel : ℕ}
    {t : LinearState w}
    (hends : linearLoop build getprime isPrimePower fbLog inp fuel ⟨⟨2, 2, [], 0⟩, cur, []⟩
      = pure t) : ∃ e ∈ t.fb, e.p = 15 := by
  obtain ⟨n, s, hrun, hs, hlt⟩ := linearLoop_reach build fbLog hw hexact
    hgcd hproj (LoopInvariant.start inp lastPrime cur) (by decide) hbound hpow32
  have hprime : s.pending.prime = wrappedPrime := by
    refine eq_wrappedPrime hs.progress.prime hlt (not_lt.mp fun hgt => ?_)
    have hmem := hs.progress.primes wrappedPrime prime_wrappedPrime hgt
    rcases hs.progress.sound _ hmem with ⟨-, hB⟩ | ⟨hproper, -⟩
    · exact absurd hB (by decide)
    · exact hproper.not_prime prime_wrappedPrime
  have hp : s.pending.p = 15 := by
    rw [hs.progress.p_eq, hprime]
    rfl
  have hnone : ¬(s.pending.powers ≠ [] ∧ s.pending.minPow < s.pending.p) := by
    rintro ⟨hne, hmin⟩
    have hpending := hs.progress.pending lastPrime
      (hs.progress.primes lastPrime prime_lastPrime hlt) _ (hs.progress.minimum hne).1
    rw [hp] at hmin
    exact absurd (hpending.trans hmin) (by decide)
  have hmono := linearLoop_mono (k := n) hends
  rw [add_comm, hrun] at hmono
  cases fuel with
  | zero => cases hends
  | succ fuel =>
    have hle : s.pending.p ≤ inp.bound := by
      rw [hp]
      exact (show 15 ≤ lastPrime by decide).trans hbound
    rw [linearLoop, if_pos hle] at hmono
    obtain ⟨s₁, hpass, hrest⟩ := exists_of_bind_eq_pure hmono
    have hsub := linearLoop_subset hrest
    rw [linearPass, nextEntry, if_neg hnone] at hpass
    simp only [pure_bind] at hpass
    obtain ⟨⟨made, cur'⟩, hmake, hpass⟩ := exists_of_bind_eq_pure hpass
    rw [hproj] at hmake
    obtain ⟨rfl, hcur⟩ := fbMakeLinear1_made hmake
    rw [← (Outcome.done.inj hpass).1] at hsub
    exact ⟨cur', hsub (mem_append_right _ mem_cons_self), hcur.trans hp⟩

end

theorem exists_loop_of_result {fuel : ℕ} {res : Option (List (FbEntry w))}
    {out : List (FbEntry w)}
    (h : fbMakeLinear build getprime isPrimePower fbLog inp cur fuel = pure res)
    (hout : IsListing res out) :
    ∃ s, linearLoop build getprime isPrimePower fbLog inp fuel ⟨⟨2, 2, [], 0⟩, cur, []⟩ = pure s ∧
      out = s.fb := by
  obtain ⟨s, hrun, -⟩ := exists_of_bind_eq_pure (fbMakeLinear.eq_1 (w := w) .. ▸ h)
  obtain ⟨res', hres', hout'⟩ := fbMakeLinear_of_loop hrun
  obtain rfl : res = res' := (Outcome.done.inj (h.symm.trans hres')).1
  exact ⟨s, hrun, hout.unique hout'⟩

theorem listed_of_result (hw : w = 32 ∨ w = 64) (hexact : Exact getprime isPrimePower)
    (hgcd : Int.gcd inp.g0 inp.g1 = 1) (hproj : inp.projective = true)
    (hle : inp.powbound ≤ inp.bound) (hbound : inp.bound < lastPrime) {fuel : ℕ}
    {res : Option (List (FbEntry w))} {out : List (FbEntry w)}
    (h : fbMakeLinear build getprime isPrimePower fbLog inp cur fuel = pure res)
    (hout : IsListing res out) :
    (∀ q, (∃ e ∈ out, e.p = q) ↔ (q.Prime ∧ q ≤ inp.bound) ∨
      (IsProperPower q ∧ q ≤ inp.powbound ∧ ∃ r, r.Prime ∧ q < r ∧ r ≤ inp.bound)) ∧
    ∀ e ∈ out, HasRoot inp.g0 inp.g1 e := by
  obtain ⟨t, hloop, rfl⟩ := exists_loop_of_result h hout
  obtain ⟨n, s, hrun, hs, hlt⟩ := linearLoop_ends build fbLog cur
    hw hexact hgcd hproj hle hbound
  have hmono := linearLoop_mono (k := n) hloop
  rw [add_comm, hrun] at hmono
  rw [← (Outcome.done.inj hmono).1]
  exact ⟨hs.mem_iff hlt, hs.root⟩

/-- All primes up to the bound and all proper prime powers up to the other bound, in increasing
order and once each, with their roots. -/
structure LinearFactorBase (inp : LinearInput) (out : List (FbEntry w)) : Prop where
  increasing : out.Pairwise fun a b => a.p < b.p
  listed : ∀ q, (∃ e ∈ out, e.p = q) ↔ Wanted inp q
  affine : ∀ e ∈ out, Int.gcd inp.g1 e.p = 1 →
    ∃ R, R < e.p ∧ (e.p : ℤ) ∣ inp.g1 * R + inp.g0 ∧ e.roots = [R]
  projective : ∀ e ∈ out, Int.gcd inp.g1 e.p ≠ 1 →
    ∃ R, R < e.p ∧ (e.p : ℤ) ∣ inp.g0 * R + inp.g1 ∧ e.roots = [e.p + R]

/-- Every prime power is followed by a prime, the primes do not wrap, and the projective roots fit
32 bits. -/
structure LinearCondition (inp : LinearInput) : Prop where
  followed : ∀ q, IsProperPower q → q ≤ inp.powbound → ∃ r, r.Prime ∧ q < r ∧ r ≤ inp.bound
  primesFit : inp.bound < lastPrime
  rootsFit : ∀ q R, Wanted inp q → Int.gcd inp.g1 q ≠ 1 → R < q →
    (q : ℤ) ∣ inp.g0 * R + inp.g1 → q + R < 2 ^ 32

theorem root_unique {g0 g1 : ℤ} {q R R' : ℕ} (hcop : Int.gcd g0 q = 1) (hR : R < q) (hR' : R' < q)
    (h : (q : ℤ) ∣ g0 * R + g1) (h' : (q : ℤ) ∣ g0 * R' + g1) : R = R' := by
  have hdvd : (q : ℤ) ∣ g0 * (R - R') := by
    have hsub := dvd_sub h h'
    rwa [add_sub_add_right_eq_sub, ← mul_sub] at hsub
  have hmod : (q : ℤ) ∣ R - R' :=
    (Int.isCoprime_iff_gcd_eq_one.mpr hcop).symm.dvd_of_dvd_mul_left hdvd
  have hmodEq : R' ≡ R [MOD q] := (Nat.modEq_iff_dvd).mpr hmod
  exact (Nat.ModEq.eq_of_lt_of_lt hmodEq hR' hR).symm

theorem Wanted.gcd_eq_one {q : ℕ} (hq : Wanted inp q) (hgcd : Int.gcd inp.g0 inp.g1 = 1)
    (h : Int.gcd inp.g1 q ≠ 1) : Int.gcd inp.g0 q = 1 := by
  rcases hq with ⟨hprime, -⟩ | ⟨⟨l, k, hl, -, rfl⟩, -⟩
  · have hpow := gcd_eq_one_of_gcd_ne_one (k := 1) hgcd hprime (by rwa [pow_one])
    rwa [pow_one] at hpow
  · exact gcd_eq_one_of_gcd_ne_one hgcd hl h

/-- The factor base of a linear polynomial is complete and right if and only if every prime power
is followed by a prime, the bound is below the last prime of 32 bits and the projective roots
fit. -/
theorem fbMakeLinear_iff (hw : w = 32 ∨ w = 64) (hexact : Exact getprime isPrimePower)
    (hgcd : Int.gcd inp.g0 inp.g1 = 1) (hproj : inp.projective = true)
    (hle : inp.powbound ≤ inp.bound) (hbound32 : inp.bound < 2 ^ 32) :
    (∃ fuel res out, fbMakeLinear build getprime isPrimePower fbLog inp cur fuel = pure res ∧
      IsListing res out ∧ LinearFactorBase inp out) ↔ LinearCondition inp := by
  constructor
  · rintro ⟨fuel, res, out, hrun, hout, hbase⟩
    have hbound : inp.bound < lastPrime := by
      by_contra hge
      obtain ⟨t, hloop, rfl⟩ := exists_loop_of_result hrun hout
      have hmem := mem_fifteen_of_ends hw hexact hgcd hproj (by omega) (not_lt.mp hge) hloop
      rcases (hbase.listed 15).mp hmem with ⟨hprime, -⟩ | ⟨hproper, -⟩
      · exact absurd hprime (by norm_num)
      · exact not_isProperPower_fifteen hproper
    obtain ⟨hlisted, hroots⟩ := listed_of_result hw hexact hgcd hproj hle hbound hrun hout
    refine ⟨fun q hproper hqle => ?_, hbound, fun q R hq hne hR hdvd => ?_⟩
    · rcases (hlisted q).mp ((hbase.listed q).mpr (.inr ⟨hproper, hqle⟩)) with
        ⟨hprime, -⟩ | ⟨-, -, hfollowed⟩
      · exact absurd hprime hproper.not_prime
      · exact hfollowed
    · obtain ⟨e, he, rfl⟩ := (hbase.listed q).mpr hq
      obtain ⟨R₁, hR₁, hdvd₁, hroots₁⟩ := hbase.projective e he hne
      obtain ⟨R₂, -, -, hroots₂⟩ := (hroots e he).projective hne
      obtain rfl := root_unique (hq.gcd_eq_one hgcd hne) hR hR₁ hdvd hdvd₁
      have hwrap := (List.cons.inj (hroots₁.symm.trans hroots₂)).1
      exact hwrap ▸ Nat.mod_lt _ (by norm_num)
  · rintro ⟨hfollowed, hbound, hfit⟩
    obtain ⟨n, s, hrun, hs, hlt⟩ := linearLoop_ends build fbLog cur
      hw hexact hgcd hproj hle hbound
    obtain ⟨res, hres, hout⟩ := fbMakeLinear_of_loop (hrun 0)
    have hlisted : ∀ q, (∃ e ∈ s.fb, e.p = q) ↔ Wanted inp q := fun q =>
      (hs.mem_iff hlt q).trans (or_congr Iff.rfl
        ⟨fun hq => ⟨hq.1, hq.2.1⟩, fun hq => ⟨hq.1, hq.2, hfollowed q hq.1 hq.2⟩⟩)
    refine ⟨n + 0, res, s.fb, hres, hout, List.pairwise_map.mp hs.progress.increasing, hlisted,
      fun e he => (hs.root e he).affine, fun e he hne => ?_⟩
    obtain ⟨R, hR, hdvd, hroots⟩ := (hs.root e he).projective hne
    have hqfit := hfit e.p R ((hlisted e.p).mp ⟨e, he, rfl⟩) hne hR hdvd
    exact ⟨R, hR, hdvd, hroots.trans (by rw [Nat.mod_eq_of_lt hqfit])⟩

end FactorBase

/-! ## The polynomial `6 x + 1` -/

/-- The least prime above a number. -/
def nextPrime (p : ℕ) : ℕ :=
  Nat.find (Nat.exists_infinite_primes (p + 1))

/-- The base of a prime power, and 0 for a prime. -/
def powerBase (q : ℕ) : ℕ :=
  if q.minFac = q then 0 else q.minFac

theorem exact_nextPrime : Exact nextPrime powerBase where
  next p _ := by
    obtain ⟨hlt, hprime⟩ := Nat.find_spec (Nat.exists_infinite_primes (p + 1))
    refine ⟨⟨hprime, hlt⟩, fun l hl => ?_⟩
    exact Nat.find_min' (Nat.exists_infinite_primes (p + 1)) ⟨hl.2, hl.1⟩
  power l k hl hk _ := by
    have hlt : l ^ 1 < l ^ k := Nat.pow_lt_pow_right hl.one_lt hk
    rw [pow_one] at hlt
    rw [powerBase, minFac_pow hl hk, if_neg hlt.ne]

/-- Up to 11, with powers up to 9. -/
def sixInput : LinearInput := ⟨1, 6, 11, 9, true⟩

theorem linearCondition_sixInput : LinearCondition sixInput where
  followed q _ hle := ⟨11, by norm_num, lt_of_le_of_lt hle (by decide), le_rfl⟩
  primesFit := by decide
  rootsFit q R hq _ hR _ := by
    have hle : q ≤ 11 := hq.elim And.right fun h => h.2.trans (by decide)
    omega

theorem fbMakeLinear_iff_sixInput : ∃ fuel res out,
    fbMakeLinear .noAsm nextPrime powerBase (fun _ => 0#8) sixInput ⟨0, 0#64, 0#8, []⟩ fuel
      = pure res ∧ IsListing res out ∧ LinearFactorBase sixInput out :=
  (fbMakeLinear_iff (.inr rfl) exact_nextPrime (by decide) rfl (by decide) (by decide)).mpr
    linearCondition_sixInput

/-- With both bounds 10 the entry 9 is not made: 11 is above the bound. -/
theorem not_fbMakeLinear : ¬∀ (build : UlarithBuild) (getprime isPrimePower : ℕ → ℕ)
    (fbLog : ℕ → BitVec 8) (inp : LinearInput) (cur : FbEntry 64), Exact getprime isPrimePower →
    Int.gcd inp.g0 inp.g1 = 1 → inp.projective = true → inp.powbound ≤ inp.bound →
    inp.bound < 2 ^ 32 →
    ∃ fuel res out, fbMakeLinear build getprime isPrimePower fbLog inp cur fuel = pure res ∧
      IsListing res out ∧ LinearFactorBase inp out := by
  intro hall
  obtain ⟨fuel, res, out, hrun, hout, hbase⟩ := hall .noAsm nextPrime powerBase (fun _ => 0#8)
    ⟨1, 6, 10, 10, true⟩ ⟨0, 0#64, 0#8, []⟩ exact_nextPrime (by decide) rfl (by decide) (by decide)
  have hnine : IsProperPower 9 := ⟨3, 2, Nat.prime_three, le_rfl, rfl⟩
  have hmem := (hbase.listed 9).mpr (.inr ⟨hnine, by decide⟩)
  have hlisted := (listed_of_result (.inr rfl) exact_nextPrime (by decide) rfl (by decide)
    (by decide) hrun hout).1 9
  rcases hlisted.mp hmem with ⟨hprime, -⟩ | ⟨-, -, r, hr, hlow, hhigh⟩
  · exact hnine.not_prime hprime
  · obtain rfl : r = 10 := by
      have hhigh' : r ≤ 10 := hhigh
      omega
    exact absurd hr (by norm_num)

end CadoNfs.Fb
