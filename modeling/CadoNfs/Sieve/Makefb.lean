import CadoNfs.Lib.DoubleSqrt
import CadoNfs.Sieve.LiftRoot

/-!
# The factor base with prime powers

The program `makefb` prints the primes up to `alim` with their roots in increasing
order.  The powers of a prime are computed with the prime, wait in a list that is in
decreasing order, and are printed before the first prime that is larger.

Main results:

- Theorem `powersLoop_spec`: the powers of one prime.
- Theorem `progress_step`: what is printed and what is pending after a prime.
- Theorem `makefbWithPowers_iff`: when the output is the factor base.
-/

namespace CadoNfs.Makefb

open SimpleRoots

/-! ## Code -/

/-- `power_ideal_t`.  A line of the output has the same data. -/
structure PowerIdeal where
  pk : ℕ
  r : List ℕ
deriving DecidableEq, Repr

/-- `include_power_ideal`. -/
def includePowerIdeal (ideal : PowerIdeal) : List PowerIdeal → List PowerIdeal
  | [] => [ideal]
  | x :: idList =>
    if ideal.pk < x.pk then x :: includePowerIdeal ideal idList else ideal :: x :: idList

/-- `get_min_power_ideal`. -/
def getMinPowerIdeal (idList : List PowerIdeal) : ℕ :=
  match idList.getLast? with
  | none => 0
  | some id => id.pk

/-- The loop that prints the power ideals before the prime `p`; there are at most
`n` passes. -/
def flushBelow (p n : ℕ) (idList out : List PowerIdeal) : List PowerIdeal × List PowerIdeal :=
  match n with
  | 0 => (idList, out)
  | n + 1 =>
    let q := getMinPowerIdeal idList
    if q ≠ 0 ∧ q < p then
      flushBelow p n idList.dropLast (out ++ idList.getLast?.toList)
    else (idList, out)

/-- The loop over the powers of `p`, with at most `fuel` passes.  A power ideal has
room for 10 roots. -/
def powersLoop (f : ℕ → ℤ) (d alim p fuel pk : ℕ) (roots : List ℕ) (idList : List PowerIdeal) :
    Option (List PowerIdeal) :=
  match fuel with
  | 0 => none
  | fuel + 1 => do
    let (roots, ids) ← liftRoots f d pk roots
    assertAlways (ids.length ≤ 10)
    if ids = [] then
      some idList
    else
      let idList := includePowerIdeal ⟨pk, ids⟩ idList
      let pk := pk * p % 2 ^ 64
      if pk ≤ alim then powersLoop f d alim p fuel pk roots idList else some idList

/-- `power_lim`. -/
def powerLim (alim : ℕ) : ℕ :=
  DoubleSqrt.floorSqrt (DoubleSqrt.ofNat alim)

/-- One pass of the loop over the primes.  There is room for `d` roots. -/
def primePass (f : ℕ → ℤ) (d : ℕ) (polyRoots : ℕ → List ℕ) (alim fuel : ℕ)
    (s : List PowerIdeal × List PowerIdeal) (p : ℕ) :
    Option (List PowerIdeal × List PowerIdeal) := do
  let (idList, out) := flushBelow p s.1.length s.1 s.2
  let roots := polyRoots p
  assertAlways (roots.length ≤ d)
  let out := if roots ≠ [] then out ++ [⟨p, roots⟩] else out
  if roots ≠ [] ∧ p ≤ powerLim alim then do
    let idList ← powersLoop f d alim p fuel (p * p % 2 ^ 64) roots idList
    some (idList, out)
  else some (idList, out)

/-- The primes below `n` in the order of `getprime`. -/
def primesBelow (n : ℕ) : List ℕ :=
  (List.range n).filter Nat.Prime

/-- `makefb_with_powers`, with the lines that are printed. -/
def makefbWithPowers (f : ℕ → ℤ) (d : ℕ) (polyRoots : ℕ → List ℕ) (alim fuel : ℕ) :
    Option (List PowerIdeal) := do
  let s ← (primesBelow (alim + 1)).foldlM (primePass f d polyRoots alim fuel) ([], [])
  some s.2

/-! ## The list of power ideals -/

section Pending

variable {x y : PowerIdeal} {l : List PowerIdeal}

/-- The list is in decreasing order. -/
def Decreasing (l : List PowerIdeal) : Prop :=
  l.Pairwise fun a b => b.pk < a.pk

@[simp]
theorem mem_includePowerIdeal : y ∈ includePowerIdeal x l ↔ y = x ∨ y ∈ l := by
  induction l with
  | nil => simp [includePowerIdeal]
  | cons z l ih =>
    rw [includePowerIdeal]
    split_ifs
    · rw [List.mem_cons, ih, List.mem_cons]
      tauto
    · rw [List.mem_cons]

theorem Decreasing.include (h : Decreasing l) (hnew : ∀ y ∈ l, y.pk ≠ x.pk) :
    Decreasing (includePowerIdeal x l) := by
  induction l with
  | nil => exact List.pairwise_singleton _ _
  | cons z l ih =>
    obtain ⟨hz, hl⟩ := List.pairwise_cons.mp h
    have hnewz := hnew z List.mem_cons_self
    rw [includePowerIdeal]
    split_ifs with hlt
    · refine List.pairwise_cons.mpr ⟨fun y hy => ?_, ih hl fun y hy =>
        hnew y (List.mem_cons_of_mem _ hy)⟩
      obtain rfl | hy := mem_includePowerIdeal.mp hy
      · exact hlt
      · exact hz y hy
    · have hzx : z.pk < x.pk := by omega
      refine List.pairwise_cons.mpr ⟨fun y hy => ?_, h⟩
      obtain rfl | hy := List.mem_cons.mp hy
      · exact hzx
      · exact (hz y hy).trans hzx

@[simp]
theorem getMinPowerIdeal_append : getMinPowerIdeal (l ++ [x]) = x.pk := by
  simp [getMinPowerIdeal]

theorem flushBelow_spec (p : ℕ) (h : Decreasing l) (hpos : ∀ y ∈ l, 0 < y.pk)
    (out : List PowerIdeal) :
    ∃ kept moved, flushBelow p l.length l out = (kept, out ++ moved) ∧
      l = kept ++ moved.reverse ∧ (∀ y ∈ moved, y.pk < p) ∧ ∀ y ∈ kept, p ≤ y.pk := by
  induction l using List.reverseRecOn generalizing out with
  | nil => exact ⟨[], [], by simp [flushBelow], rfl, nofun, nofun⟩
  | append_singleton l x ih =>
    obtain ⟨hl, -, hlx⟩ := List.pairwise_append.mp h
    have hx : 0 < x.pk := hpos x (by simp)
    rw [List.length_append, List.length_singleton, flushBelow, getMinPowerIdeal_append]
    by_cases hlt : x.pk < p
    · obtain ⟨kept, moved, hrun, hsplit, hmoved, hkept⟩ :=
        ih hl (fun y hy => hpos y (List.mem_append_left _ hy)) (out ++ [x])
      refine ⟨kept, x :: moved, ?_, ?_, List.forall_mem_cons.mpr ⟨hlt, hmoved⟩, hkept⟩
      · rw [if_pos ⟨hx.ne', hlt⟩, List.dropLast_concat, List.getLast?_concat, Option.toList_some,
          hrun, List.append_assoc]
        rfl
      · rw [List.reverse_cons, ← List.append_assoc, ← hsplit]
    · refine ⟨l ++ [x], [], ?_, by simp, nofun, fun y hy => ?_⟩
      · rw [if_neg fun h => hlt h.2, List.append_nil]
      · obtain hy | hy := List.mem_append.mp hy
        · have := hlx y hy x List.mem_cons_self
          omega
        · obtain rfl := List.mem_singleton.mp hy
          omega

end Pending

/-! ## Lines -/

section Lines

variable {f : ℕ → ℤ} {d p k j r alim fuel : ℕ} {x : PowerIdeal} {R roots : List ℕ}
  {idList idList' : List PowerIdeal}

/-- The roots that are printed for `p ^ k`, which are only the simple ones for a power. -/
structure IsRoot (f : ℕ → ℤ) (d p k r : ℕ) : Prop where
  lt : r < p ^ k
  dvd : (p : ℤ) ^ k ∣ (toPolynomial f d).eval (r : ℤ)
  simple : 2 ≤ k → Simple f d p r

/-- The line of `p ^ k`. -/
structure IsLine (f : ℕ → ℤ) (d p k : ℕ) (x : PowerIdeal) : Prop where
  pk : x.pk = p ^ k
  ne_nil : x.r ≠ []
  nodup : x.r.Nodup
  mem : ∀ r, r ∈ x.r ↔ IsRoot f d p k r

/-- All roots modulo `p`. -/
structure RootList (f : ℕ → ℤ) (d p : ℕ) (R : List ℕ) : Prop where
  nodup : R.Nodup
  mem : ∀ r, r ∈ R ↔ r < p ∧ (p : ℤ) ∣ (toPolynomial f d).eval (r : ℤ)

theorem dvd_mod_sub (m r : ℕ) : (m : ℤ) ∣ ((r % m : ℕ) : ℤ) - r := by
  rw [Int.natCast_mod, ← neg_sub]
  exact (Int.dvd_self_sub_emod).neg_right

theorem IsRoot.mod (hp : p.Prime) (h : IsRoot f d p j r) (hkj : k ≤ j) :
    IsRoot f d p k (r % p ^ k) := by
  have hmod : (p : ℤ) ^ k ∣ ((r % p ^ k : ℕ) : ℤ) - r := by
    have := dvd_mod_sub (p ^ k) r
    rwa [Nat.cast_pow] at this
  refine ⟨Nat.mod_lt _ (pow_pos hp.pos k), ?_, fun h2 => ?_⟩
  · exact (dvd_eval_iff _ hmod).mpr ((pow_dvd_pow _ hkj).trans h.dvd)
  · exact (simple_iff ((dvd_pow_self _ (by omega)).trans hmod)).mpr (h.simple (by omega))

theorem RootList.isLine (h : RootList f d p R) (hne : R ≠ []) : IsLine f d p 1 ⟨p, R⟩ := by
  refine ⟨(pow_one p).symm, hne, h.nodup, fun r => ?_⟩
  rw [h.mem]
  refine ⟨fun hr => ⟨by simpa using hr.1, by simpa using hr.2, by omega⟩, fun hr => ?_⟩
  exact ⟨by simpa using hr.lt, by simpa using hr.dvd⟩

theorem RootList.lifted (h : RootList f d p R) : Lifted f d p 1 R R := by
  refine ⟨?_, fun r hr => by simpa using ((h.mem r).mp hr).1,
    fun r hr _ => by simpa using ((h.mem r).mp hr).2⟩
  calc R.map (· % p) = R.map id :=
        List.map_congr_left fun r hr => Nat.mod_eq_of_lt ((h.mem r).mp hr).1
    _ = R := List.map_id R

open Classical in
theorem Lifted.mem_filter (h : Lifted f d p k R roots) (hR : RootList f d p R) (hp : p.Prime)
    (hk : 2 ≤ k) : r ∈ roots.filter (fun r : ℕ => Simple f d p r) ↔ IsRoot f d p k r := by
  rw [List.mem_filter, decide_eq_true_iff]
  refine ⟨fun hr => ⟨h.lt r hr.1, h.dvd r hr.1 hr.2, fun _ => hr.2⟩, fun hr => ?_⟩
  have hsimple := hr.simple hk
  have hroot := hr.mod hp (show 1 ≤ k by omega)
  have hmem : r % p ∈ R :=
    (hR.mem _).mpr ⟨by simpa using hroot.lt, by simpa using hroot.dvd⟩
  rw [← h.map_mod] at hmem
  obtain ⟨s, hs, hmod⟩ := List.mem_map.mp hmem
  -- the root with the same remainder is the same root
  have hsr : (p : ℤ) ∣ s - r := Nat.modEq_iff_dvd.mp (Nat.ModEq.symm hmod)
  have hsimple' : Simple f d p s := (simple_iff hsr).mpr hsimple
  have hdvd := modEq_of_dvd_eval hp hsr hsimple hr.dvd (h.dvd s hs hsimple')
  have heq : s = r := by
    have hmodEq : r ≡ s [MOD p ^ k] := Nat.modEq_iff_dvd.mpr (by rwa [Nat.cast_pow])
    exact (Nat.ModEq.eq_of_lt_of_lt hmodEq hr.lt (h.lt s hs)).symm
  exact ⟨heq ▸ hs, hsimple⟩

open Classical in
theorem Lifted.isLine (h : Lifted f d p k R roots) (hR : RootList f d p R) (hp : p.Prime)
    (hk : 2 ≤ k) (hne : roots.filter (fun r : ℕ => Simple f d p r) ≠ []) :
    IsLine f d p k ⟨p ^ k, roots.filter fun r : ℕ => Simple f d p r⟩ := by
  refine ⟨rfl, hne, List.Nodup.filter _ (List.Nodup.of_map (· % p) ?_), fun r =>
    h.mem_filter hR hp hk⟩
  rw [h.map_mod]
  exact hR.nodup

/-! ## The powers of one prime -/

/-- From `p ^ 2` on, the powers up to `alim` are computed modulo `2 ^ 64`
without one that wraps to a value up to `alim`. -/
def NoWrap (alim : ℕ) : Prop :=
  ∀ p k, p.Prime → p ≤ powerLim alim → 2 ≤ k → k = 2 ∨ p ^ k ≤ alim →
    p ^ (k + 1) ≤ alim ∨ alim < p ^ (k + 1) % 2 ^ 64

/-- The powers of `p` above the `k`-th have been added. -/
structure Added (f : ℕ → ℤ) (d alim p k : ℕ) (idList idList' : List PowerIdeal) : Prop where
  decreasing : Decreasing idList'
  subset : ∀ x ∈ idList, x ∈ idList'
  mem : ∀ x ∈ idList', x ∈ idList ∨ ∃ j, k < j ∧ (j = 2 ∨ p ^ j ≤ alim) ∧ IsLine f d p j x
  complete : ∀ j r, k < j → p ^ j ≤ alim → IsRoot f d p j r → ∃ x ∈ idList', IsLine f d p j x

theorem Added.refl (h : Decreasing idList)
    (hroot : ∀ j r, k < j → p ^ j ≤ alim → ¬IsRoot f d p j r) :
    Added f d alim p k idList idList :=
  ⟨h, fun _ hx => hx, fun _ hx => .inl hx, fun j r hkj hj hr => absurd hr (hroot j r hkj hj)⟩

theorem Added.cons (hpk : k + 1 = 2 ∨ p ^ (k + 1) ≤ alim) (hline : IsLine f d p (k + 1) x)
    (h : Added f d alim p (k + 1) (includePowerIdeal x idList) idList') :
    Added f d alim p k idList idList' := by
  refine ⟨h.decreasing, fun y hy => h.subset y (mem_includePowerIdeal.mpr (.inr hy)),
    fun y hy => ?_, fun j r hkj hj hr => ?_⟩
  · obtain hy | ⟨j, hkj, hj, hy⟩ := h.mem y hy
    · obtain rfl | hy := mem_includePowerIdeal.mp hy
      · exact .inr ⟨k + 1, k.lt_succ_self, hpk, hline⟩
      · exact .inl hy
    · exact .inr ⟨j, by omega, hj, hy⟩
  · obtain rfl | hlt := eq_or_lt_of_le (Nat.succ_le_of_lt hkj)
    · exact ⟨x, h.subset x (mem_includePowerIdeal.mpr (.inl rfl)), hline⟩
    · exact h.complete j r hlt hj hr

theorem pow_le_of_powerLim (hp : p.Prime) (hlim : p ≤ powerLim alim) (halim : alim < 2 ^ 64)
    (hpk : k = 1 ∨ p ^ (k + 1) ≤ alim) : p ^ k ≤ 2 ^ 63 := by
  obtain rfl | hpk := hpk
  · rw [pow_one]
    exact hlim.trans ((DoubleSqrt.floorSqrt_le halim).trans (by norm_num))
  · have hdouble : p ^ k * 2 ≤ p ^ (k + 1) := Nat.mul_le_mul_left _ hp.two_le
    omega

theorem lt_of_pow_le (hp : p.Prime) (halim : alim < 2 ^ 64) (hpk : k = 1 ∨ p ^ (k + 1) ≤ alim) :
    k < 63 := by
  obtain rfl | hpk := hpk
  · omega
  · have hlt : 2 ^ (k + 1) < 2 ^ 64 :=
      (Nat.pow_le_pow_left hp.two_le _).trans_lt (hpk.trans_lt halim)
    have := (Nat.pow_lt_pow_iff_right (by omega)).mp hlt
    omega

/-- The powers of `p` are added until one is above `alim`. -/
theorem powersLoop_spec (hd : 1 ≤ d) (hp : p.Prime) (hlim : p ≤ powerLim alim)
    (halim : alim < 2 ^ 64) (hwrap : NoWrap alim) (hR : RootList f d p R) (hlen : R.length ≤ 10)
    (hfuel : 64 ≤ k + fuel) (hk : 1 ≤ k) (hpk : k = 1 ∨ p ^ (k + 1) ≤ alim)
    (hroots : Lifted f d p k R roots) (hdec : Decreasing idList)
    (hfresh : ∀ x ∈ idList, ∀ j, k < j → x.pk ≠ p ^ j) :
    ∃ idList', powersLoop f d alim p fuel (p ^ (k + 1)) roots idList = some idList' ∧
      Added f d alim p k idList idList' := by
  classical
  induction fuel generalizing k roots idList with
  | zero =>
    have := lt_of_pow_le hp halim hpk
    omega
  | succ fuel ih =>
    obtain ⟨roots', hlift, hroots'⟩ :=
      liftRoots_spec hd hp hk (pow_le_of_powerLim hp hlim halim hpk) hroots
    have hmem := fun r => hroots'.mem_filter (r := r) hR hp (show 2 ≤ k + 1 by omega)
    obtain ⟨ids, hids⟩ : ∃ ids, (roots'.filter fun r : ℕ => Simple f d p r) = ids := ⟨_, rfl⟩
    have hlen' : ids.length ≤ 10 := by
      refine (hids ▸ List.length_filter_le _ _).trans ?_
      rw [← List.length_map (· % p), hroots'.map_mod]
      exact hlen
    rw [powersLoop, hlift]
    simp only [some_bind, hids, assertAlways_of_true hlen']
    by_cases hempty : ids = []
    · rw [if_pos hempty]
      refine ⟨idList, rfl, Added.refl hdec fun j r hkj _ hr => ?_⟩
      have := (hmem _).mpr (hr.mod hp hkj)
      rw [hids, hempty] at this
      exact List.not_mem_nil this
    rw [if_neg hempty]
    have hline : IsLine f d p (k + 1) ⟨p ^ (k + 1), ids⟩ := by
      rw [← hids]
      exact hroots'.isLine hR hp (by omega) (hids ▸ hempty)
    have hpk' : k + 1 = 2 ∨ p ^ (k + 1) ≤ alim := hpk.imp (by omega) id
    have hdec' : Decreasing (includePowerIdeal ⟨p ^ (k + 1), ids⟩ idList) :=
      hdec.include fun x hx => hfresh x hx _ k.lt_succ_self
    by_cases hnext : p ^ (k + 1 + 1) ≤ alim
    · -- the next power
      rw [← pow_succ, Nat.mod_eq_of_lt (hnext.trans_lt halim), if_pos hnext]
      obtain ⟨idList', hrun, hadded⟩ := ih (by omega) (by omega) (.inr hnext) hroots' hdec' (by
        intro x hx j hkj
        obtain rfl | hx := mem_includePowerIdeal.mp hx
        · exact fun heq => hkj.ne (Nat.pow_right_injective hp.two_le heq)
        · exact hfresh x hx j (by omega))
      exact ⟨idList', hrun, hadded.cons hpk' hline⟩
    · -- the next power is above alim
      have hstop : ¬p ^ (k + 1) * p % 2 ^ 64 ≤ alim := by
        have := hwrap p (k + 1) hp hlim (by omega) hpk'
        rw [← pow_succ]
        omega
      rw [if_neg hstop]
      refine ⟨_, rfl, Added.cons hpk' hline (Added.refl hdec' fun j r hkj hj _ => hnext ?_)⟩
      exact (Nat.pow_le_pow_right hp.pos hkj).trans hj

end Lines

/-! ## The loop over the primes -/

section Primes

variable {f : ℕ → ℤ} {d alim fuel n p : ℕ} {polyRoots : ℕ → List ℕ}
  {idList out : List PowerIdeal}

theorem RootList.length_le {R : List ℕ} (h : RootList f d p R) (hp : p.Prime)
    (hf : ∃ i ≤ d, ¬(p : ℤ) ∣ f i) : R.length ≤ d := by
  have : Fact p.Prime := ⟨hp⟩
  have hcoeff : ∀ i ≤ d, (toPolynomial f d).coeff i = f i := by
    intro i hi
    rw [toPolynomial, Polynomial.finsetSum_coeff]
    simp [Polynomial.coeff_X_pow, Nat.lt_succ_of_le hi]
  have hne : (toPolynomial f d).map (Int.castRingHom (ZMod p)) ≠ 0 := by
    obtain ⟨i, hi, hdvd⟩ := hf
    intro hzero
    have := congrArg (Polynomial.coeff · i) hzero
    simp only [Polynomial.coeff_map, hcoeff i hi, Polynomial.coeff_zero, eq_intCast] at this
    exact hdvd ((ZMod.intCast_zmod_eq_zero_iff_dvd _ _).mp this)
  have hdegree : (toPolynomial f d).natDegree ≤ d := by
    refine Polynomial.natDegree_sum_le_of_forall_le _ _ fun i hi => ?_
    exact (Polynomial.natDegree_C_mul_X_pow_le _ _).trans
      (Nat.lt_succ_iff.mp (Finset.mem_range.mp hi))
  exact (length_le_of_roots hne h.nodup (fun r hr => ((h.mem r).mp hr).1)
    fun r hr => ((h.mem r).mp hr).2).trans hdegree

/-- What the loop has printed and what is pending when the primes below `n` are done. -/
structure Progress (f : ℕ → ℤ) (d alim n : ℕ) (idList out : List PowerIdeal) : Prop where
  increasing : out.Pairwise fun a b => a.pk < b.pk
  decreasing : Decreasing idList
  line : ∀ x, x ∈ out ∨ x ∈ idList →
    ∃ p k, p.Prime ∧ p < n ∧ 1 ≤ k ∧ (k = 2 ∨ p ^ k ≤ alim) ∧ IsLine f d p k x
  printed : ∀ x ∈ out, ∃ q, q.Prime ∧ q < n ∧ x.pk ≤ q
  pending : ∀ x ∈ idList, ∀ q, q.Prime → q < n → q < x.pk
  complete : ∀ p k r, p.Prime → p < n → 1 ≤ k → p ^ k ≤ alim → IsRoot f d p k r →
    ∃ x, (x ∈ out ∨ x ∈ idList) ∧ IsLine f d p k x

theorem Progress.of_not_prime (h : Progress f d alim n idList out) (hn : ¬n.Prime) :
    Progress f d alim (n + 1) idList out := by
  have hlt : ∀ q, q.Prime → q < n + 1 → q < n := fun q hq hqn =>
    lt_of_le_of_ne (Nat.lt_succ_iff.mp hqn) fun heq => hn (heq ▸ hq)
  refine ⟨h.increasing, h.decreasing, fun x hx => ?_, fun x hx => ?_,
    fun x hx q hq hqn => h.pending x hx q hq (hlt q hq hqn),
    fun p k r hp hpn => h.complete p k r hp (hlt p hp hpn)⟩
  · obtain ⟨p, k, hp, hpn, hk⟩ := h.line x hx
    exact ⟨p, k, hp, by omega, hk⟩
  · obtain ⟨q, hq, hqn, hle⟩ := h.printed x hx
    exact ⟨q, hq, by omega, hle⟩

/-- The state between the power ideals before `p` and the line of `p`. -/
structure Flushed (f : ℕ → ℤ) (d alim p : ℕ) (idList out : List PowerIdeal) : Prop where
  increasing : out.Pairwise fun a b => a.pk < b.pk
  decreasing : Decreasing idList
  line : ∀ x, x ∈ out ∨ x ∈ idList →
    ∃ q k, q.Prime ∧ q < p ∧ 1 ≤ k ∧ (k = 2 ∨ q ^ k ≤ alim) ∧ IsLine f d q k x
  below : ∀ x ∈ out, x.pk < p
  above : ∀ x ∈ idList, p < x.pk
  complete : ∀ q k r, q.Prime → q < p → 1 ≤ k → q ^ k ≤ alim → IsRoot f d q k r →
    ∃ x, (x ∈ out ∨ x ∈ idList) ∧ IsLine f d q k x

theorem pk_ne_pow {x : PowerIdeal} {q k : ℕ} (hp : p.Prime) (hq : q.Prime) (hqp : q < p)
    (hk : 1 ≤ k) (hx : IsLine f d q k x) (j : ℕ) : x.pk ≠ p ^ j := by
  rw [hx.pk]
  intro heq
  have hdvd : q ∣ p ^ j := heq ▸ dvd_pow_self q (by omega)
  exact hqp.ne ((Nat.prime_dvd_prime_iff_eq hq hp).mp (hq.dvd_of_dvd_pow hdvd))

theorem Progress.flush (h : Progress f d alim p idList out) (hp : p.Prime) :
    ∃ kept printed, flushBelow p idList.length idList out = (kept, printed) ∧
      Flushed f d alim p kept printed := by
  have hpos : ∀ x ∈ idList, 0 < x.pk := by
    intro x hx
    obtain ⟨q, k, hq, -, -, -, hline⟩ := h.line x (.inr hx)
    rw [hline.pk]
    exact pow_pos hq.pos k
  obtain ⟨kept, moved, hrun, hsplit, hmoved, hkept⟩ := flushBelow_spec p h.decreasing hpos out
  have hmem : ∀ x, x ∈ out ++ moved ∨ x ∈ kept ↔ x ∈ out ∨ x ∈ idList := by
    intro x
    rw [hsplit, List.mem_append, List.mem_append, List.mem_reverse]
    tauto
  obtain ⟨hdec, hrev, -⟩ := List.pairwise_append.mp (hsplit ▸ h.decreasing)
  refine ⟨kept, out ++ moved, hrun, ?_, hdec, fun x hx => h.line x ((hmem x).mp hx), ?_, ?_, ?_⟩
  · refine List.pairwise_append.mpr ⟨h.increasing, List.pairwise_reverse.mp hrev, ?_⟩
    intro x hx y hy
    obtain ⟨q, hq, hqp, hle⟩ := h.printed x hx
    exact hle.trans_lt (h.pending y (by simp [hsplit, hy]) q hq hqp)
  · intro x hx
    obtain hx | hx := List.mem_append.mp hx
    · obtain ⟨q, hq, hqp, hle⟩ := h.printed x hx
      omega
    · exact hmoved x hx
  · intro x hx
    obtain ⟨q, k, hq, hqp, hk, -, hline⟩ := h.line x ((hmem x).mp (.inr hx))
    have hne := pk_ne_pow hp hq hqp hk hline 1
    rw [pow_one] at hne
    exact lt_of_le_of_ne (hkept x hx) hne.symm
  · intro q k r hq hqp hk hqk hr
    obtain ⟨x, hx, hline⟩ := h.complete q k r hq hqp hk hqk hr
    exact ⟨x, (hmem x).mpr hx, hline⟩

/-- The line of `p` and its powers complete the turn of `p`. -/
theorem Flushed.progress {R : List ℕ} {idList' : List PowerIdeal}
    (h : Flushed f d alim p idList out) (hp : p.Prime) (hpa : p ≤ alim) (hR : RootList f d p R)
    (hadded : Added f d alim p 1 idList idList') :
    Progress f d alim (p + 1) idList' (if R ≠ [] then out ++ [⟨p, R⟩] else out) := by
  obtain ⟨out', hout⟩ : ∃ out', (if R ≠ [] then out ++ [⟨p, R⟩] else out) = out' := ⟨_, rfl⟩
  have hmem : ∀ x, x ∈ out' ↔ x ∈ out ∨ R ≠ [] ∧ x = ⟨p, R⟩ := by
    intro x
    rw [← hout]
    split_ifs with hne <;> simp [hne]
  rw [hout]
  refine ⟨?_, hadded.decreasing, ?_, ?_, ?_, ?_⟩
  · rw [← hout]
    split_ifs
    · refine List.pairwise_append.mpr ⟨h.increasing, List.pairwise_singleton _ _, ?_⟩
      intro x hx y hy
      obtain rfl := List.mem_singleton.mp hy
      exact h.below x hx
    · exact h.increasing
  · rintro x (hx | hx)
    · obtain hx | ⟨hne, rfl⟩ := (hmem x).mp hx
      · obtain ⟨q, k, hq, hqp, hk⟩ := h.line x (.inl hx)
        exact ⟨q, k, hq, by omega, hk⟩
      · exact ⟨p, 1, hp, p.lt_succ_self, le_rfl, .inr (by rwa [pow_one]), hR.isLine hne⟩
    · obtain hx | ⟨j, hj, hja, hline⟩ := hadded.mem x hx
      · obtain ⟨q, k, hq, hqp, hk⟩ := h.line x (.inr hx)
        exact ⟨q, k, hq, by omega, hk⟩
      · exact ⟨p, j, hp, p.lt_succ_self, hj.le, hja, hline⟩
  · intro x hx
    refine ⟨p, hp, p.lt_succ_self, ?_⟩
    obtain hx | ⟨-, rfl⟩ := (hmem x).mp hx
    · exact (h.below x hx).le
    · exact le_rfl
  · intro x hx q _ hqp
    refine (Nat.lt_succ_iff.mp hqp).trans_lt ?_
    obtain hx | ⟨j, hj, -, hline⟩ := hadded.mem x hx
    · exact h.above x hx
    · rw [hline.pk]
      exact lt_self_pow₀ hp.one_lt hj
  · intro q k r hq hqp hk hqk hr
    obtain hqp | rfl := Nat.lt_succ_iff_lt_or_eq.mp hqp
    · obtain ⟨x, hx, hline⟩ := h.complete q k r hq hqp hk hqk hr
      exact ⟨x, hx.imp (fun hx => (hmem x).mpr (.inl hx)) (hadded.subset x), hline⟩
    · obtain rfl | hk := eq_or_lt_of_le hk
      · have hrR : r ∈ R := (hR.mem r).mpr ⟨by simpa using hr.lt, by simpa using hr.dvd⟩
        have hne : R ≠ [] := List.ne_nil_of_mem hrR
        exact ⟨⟨q, R⟩, .inl ((hmem _).mpr (.inr ⟨hne, rfl⟩)), hR.isLine hne⟩
      · obtain ⟨x, hx, hline⟩ := hadded.complete k r hk hqk hr
        exact ⟨x, .inr hx, hline⟩

theorem le_powerLim {j : ℕ} (hp : p.Prime) (halim : alim < 2 ^ 64) (hj : 2 ≤ j)
    (h : p ^ j ≤ alim) : p ≤ powerLim alim := by
  refine le_trans (Nat.le_sqrt'.mpr ?_) (DoubleSqrt.le_floorSqrt halim)
  exact (Nat.pow_le_pow_right hp.pos hj).trans h

/-- One pass of the loop. -/
theorem progress_step (hd : 1 ≤ d) (hd10 : d ≤ 10) (hf : ∃ i ≤ d, ¬(p : ℤ) ∣ f i)
    (hR : RootList f d p (polyRoots p)) (halim : alim < 2 ^ 64) (hwrap : NoWrap alim)
    (hfuel : 63 ≤ fuel) (hp : p.Prime) (hpa : p ≤ alim)
    (h : Progress f d alim p idList out) :
    ∃ idList' out', primePass f d polyRoots alim fuel (idList, out) p = some (idList', out') ∧
      Progress f d alim (p + 1) idList' out' := by
  obtain ⟨kept, printed, hflush, hflushed⟩ := h.flush hp
  have hlen := hR.length_le hp hf
  simp only [primePass, hflush, assertAlways_of_true hlen, some_bind]
  by_cases hpowers : polyRoots p ≠ [] ∧ p ≤ powerLim alim
  · have hsquare : p * p % 2 ^ 64 = p ^ (1 + 1) := by
      have hle : p ≤ 2 ^ 32 := hpowers.2.trans (DoubleSqrt.floorSqrt_le halim)
      have hne : p ≠ 2 ^ 32 := fun heq => by
        subst heq
        exact absurd hp (Nat.Prime.not_prime_pow (by norm_num))
      have hlt : p * p < 2 ^ 32 * 2 ^ 32 :=
        Nat.mul_lt_mul'' (lt_of_le_of_ne hle hne) (lt_of_le_of_ne hle hne)
      rw [Nat.mod_eq_of_lt (by omega), pow_succ, pow_one]
    obtain ⟨idList', hrun, hadded⟩ := powersLoop_spec hd hp hpowers.2 halim hwrap hR
      (hlen.trans hd10) (show 64 ≤ 1 + fuel by omega) le_rfl (.inl rfl) hR.lifted
      hflushed.decreasing (fun x hx j _ => by
        obtain ⟨q, k, hq, hqp, hk, -, hline⟩ := hflushed.line x (.inr hx)
        exact pk_ne_pow hp hq hqp hk hline j)
    rw [if_pos hpowers, hsquare, hrun]
    exact ⟨idList', _, rfl, hflushed.progress hp hpa hR hadded⟩
  · rw [if_neg hpowers]
    refine ⟨kept, _, rfl, hflushed.progress hp hpa hR (Added.refl hflushed.decreasing ?_)⟩
    -- there is no root, or the square is above alim
    intro j r hj hja hr
    refine hpowers ⟨?_, le_powerLim hp halim hj hja⟩
    have hroot := hr.mod hp hj.le
    exact List.ne_nil_of_mem ((hR.mem _).mpr ⟨by simpa using hroot.lt, by simpa using hroot.dvd⟩)

theorem progress_run (hd : 1 ≤ d) (hd10 : d ≤ 10) (hf : ∀ p : ℕ, p.Prime → ∃ i ≤ d, ¬(p : ℤ) ∣ f i)
    (hR : ∀ p, p.Prime → RootList f d p (polyRoots p)) (halim : alim < 2 ^ 64)
    (hwrap : NoWrap alim) (hfuel : 63 ≤ fuel) (hn : n ≤ alim + 1) :
    ∃ idList out, (primesBelow n).foldlM (primePass f d polyRoots alim fuel) ([], [])
        = some (idList, out) ∧ Progress f d alim n idList out := by
  induction n with
  | zero =>
    exact ⟨[], [], rfl, List.Pairwise.nil, List.Pairwise.nil, by simp, nofun, nofun, by simp⟩
  | succ n ih =>
    obtain ⟨idList, out, hrun, hprogress⟩ := ih (by omega)
    by_cases hprime : n.Prime
    · have hprimes : primesBelow (n + 1) = primesBelow n ++ [n] := by
        simp [primesBelow, List.range_succ, hprime]
      obtain ⟨idList', out', hpass, hprogress'⟩ := progress_step hd hd10 (hf n hprime)
        (hR n hprime) halim hwrap hfuel hprime (by omega) hprogress
      refine ⟨idList', out', ?_, hprogress'⟩
      rw [hprimes, List.foldlM_append, hrun]
      simpa using hpass
    · have hprimes : primesBelow (n + 1) = primesBelow n := by
        simp [primesBelow, List.range_succ, hprime]
      exact ⟨idList, out, hprimes ▸ hrun, hprogress.of_not_prime hprime⟩

end Primes

/-! ## The factor base -/

section FactorBase

variable {f : ℕ → ℤ} {d alim fuel : ℕ} {polyRoots : ℕ → List ℕ} {out idList : List PowerIdeal}

/-- The lines of all primes and all powers with a root up to `alim`, in increasing
order and once each. -/
structure FactorBase (f : ℕ → ℤ) (d alim : ℕ) (out : List PowerIdeal) : Prop where
  increasing : out.Pairwise fun a b => a.pk < b.pk
  line : ∀ x ∈ out, ∃ p k, p.Prime ∧ 1 ≤ k ∧ p ^ k ≤ alim ∧ IsLine f d p k x
  complete : ∀ p k r, p.Prime → 1 ≤ k → p ^ k ≤ alim → IsRoot f d p k r →
    ∃ x ∈ out, IsLine f d p k x

/-- Every power with a root is followed by a prime. -/
def Followed (f : ℕ → ℤ) (d alim : ℕ) : Prop :=
  ∀ p k r, p.Prime → 2 ≤ k → p ^ k ≤ alim → IsRoot f d p k r →
    ∃ q, q.Prime ∧ p ^ k < q ∧ q ≤ alim

theorem Progress.followed (h : Progress f d alim (alim + 1) idList out)
    (hout : FactorBase f d alim out) : Followed f d alim := by
  intro p k r hp hk hpk hr
  obtain ⟨x, hx, hline⟩ := hout.complete p k r hp (by omega) hpk hr
  obtain ⟨q, hq, hqa, hle⟩ := h.printed x hx
  rw [hline.pk] at hle
  refine ⟨q, hq, lt_of_le_of_ne hle fun heq => ?_, by omega⟩
  exact Nat.Prime.not_prime_pow hk (heq ▸ hq)

theorem Progress.factorBase (h : Progress f d alim (alim + 1) idList out)
    (hfollowed : Followed f d alim) : FactorBase f d alim out := by
  refine ⟨h.increasing, fun x hx => ?_, fun p k r hp hk hpk hr => ?_⟩
  · obtain ⟨p, k, hp, hpa, hk, -, hline⟩ := h.line x (.inl hx)
    obtain ⟨q, hq, hqa, hle⟩ := h.printed x hx
    rw [hline.pk] at hle
    exact ⟨p, k, hp, hk, by omega, hline⟩
  · have hpa : p < alim + 1 := by
      have := Nat.le_self_pow (show k ≠ 0 by omega) p
      omega
    obtain ⟨x, hx | hx, hline⟩ := h.complete p k r hp hpa hk hpk hr
    · exact ⟨x, hx, hline⟩
    · have hpending := h.pending x hx
      rw [hline.pk] at hpending
      obtain rfl | hk := eq_or_lt_of_le hk
      · have := hpending p hp hpa
        simp at this
      · obtain ⟨q, hq, hlt, hqa⟩ := hfollowed p k r hp hk hpk hr
        have := hpending q hq (by omega)
        omega

/-- The output is the factor base if and only if every power is followed by a prime. -/
theorem makefbWithPowers_iff (hd : 1 ≤ d) (hd10 : d ≤ 10)
    (hf : ∀ p : ℕ, p.Prime → ∃ i ≤ d, ¬(p : ℤ) ∣ f i)
    (hroots : ∀ p, p.Prime → RootList f d p (polyRoots p)) (halim : alim < 2 ^ 64)
    (hwrap : NoWrap alim) (hfuel : 63 ≤ fuel) :
    (∃ out, makefbWithPowers f d polyRoots alim fuel = some out ∧ FactorBase f d alim out) ↔
      Followed f d alim := by
  obtain ⟨idList, out, hrun, hprogress⟩ :=
    progress_run hd hd10 hf hroots halim hwrap hfuel le_rfl
  have hout : makefbWithPowers f d polyRoots alim fuel = some out := by
    rw [makefbWithPowers, hrun]
    rfl
  constructor
  · rintro ⟨out', hout', hbase⟩
    obtain rfl := Option.some.inj (hout.symm.trans hout')
    exact hprogress.followed hbase
  · intro hfollowed
    exact ⟨out, hout, hprogress.factorBase hfollowed⟩

theorem noWrap_of_lt (halim : alim < 2 ^ 42) : NoWrap alim := by
  intro p k _ hlim _ hpk
  have hp : p ≤ 2 ^ 21 := by
    refine hlim.trans (DoubleSqrt.floorSqrt_le_of_le_sq ?_)
    rw [DoubleSqrt.ofNat_eq (by omega)]
    omega
  have hle : p ^ (k + 1) ≤ 2 ^ 63 := by
    calc p ^ (k + 1) = p ^ k * p := pow_succ p k
      _ ≤ 2 ^ 42 * 2 ^ 21 := by
        refine Nat.mul_le_mul ?_ hp
        obtain rfl | hpk := hpk
        · exact (Nat.pow_le_pow_left hp 2).trans (by norm_num)
        · omega
      _ = 2 ^ 63 := by norm_num
  omega

end FactorBase

/-! ## The polynomial `x` -/

section Linear

/-- The polynomial `x`, which has the root 0 modulo every prime power. -/
def linear (i : ℕ) : ℤ :=
  if i = 1 then 1 else 0

theorem eval_linear (r : ℕ) : (toPolynomial linear 1).eval (r : ℤ) = r := by
  simp [toPolynomial, linear]

theorem rootList_linear {p : ℕ} (hp : p.Prime) : RootList linear 1 p [0] := by
  refine ⟨List.nodup_singleton 0, fun r => ?_⟩
  rw [List.mem_singleton, eval_linear, Int.natCast_dvd_natCast]
  refine ⟨fun hr => ⟨hr ▸ hp.pos, hr ▸ dvd_zero p⟩, fun hr => ?_⟩
  exact Nat.eq_zero_of_dvd_of_lt hr.2 hr.1

theorem exists_not_dvd_linear {p : ℕ} (hp : p.Prime) : ∃ i ≤ 1, ¬(p : ℤ) ∣ linear i :=
  ⟨1, le_rfl, fun h => hp.one_lt.ne'
    (Nat.dvd_one.mp (Int.natCast_dvd_natCast.mp (show (p : ℤ) ∣ (1 : ℕ) from h)))⟩

/-- Up to 5 the factor base is complete, since the prime 5 follows 4. -/
theorem makefbWithPowers_five :
    ∃ out, makefbWithPowers linear 1 (fun _ => [0]) 5 63 = some out ∧
      FactorBase linear 1 5 out := by
  refine (makefbWithPowers_iff le_rfl (by norm_num) (fun p => exists_not_dvd_linear)
    (fun p => rootList_linear) (by norm_num) (noWrap_of_lt (by norm_num)) le_rfl).mpr ?_
  intro p k r _ hk hpk _
  refine ⟨5, Nat.prime_five, lt_of_le_of_ne hpk fun heq => ?_, le_rfl⟩
  exact Nat.Prime.not_prime_pow hk (heq ▸ Nat.prime_five)

/-- Up to 4 the line of 4 is not printed. -/
theorem makefbWithPowers_four :
    makefbWithPowers linear 1 (fun _ => [0]) 4 63 = some [⟨2, [0]⟩, ⟨3, [0]⟩] ∧
      ¬FactorBase linear 1 4 [⟨2, [0]⟩, ⟨3, [0]⟩] := by
  refine ⟨by decide +kernel, fun h => ?_⟩
  have hroot : IsRoot linear 1 2 2 0 := by
    refine ⟨by norm_num, by rw [eval_linear]; norm_num, fun _ => ?_⟩
    simp [Simple, toPolynomial, linear]
  obtain ⟨x, hx, hline⟩ := h.complete 2 2 0 Nat.prime_two (by norm_num) (by norm_num) hroot
  have hpk := hline.pk
  simp only [List.mem_cons, List.not_mem_nil, or_false] at hx
  obtain rfl | rfl := hx <;> simp at hpk

end Linear

end CadoNfs.Makefb
