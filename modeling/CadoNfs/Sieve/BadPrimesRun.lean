import CadoNfs.Sieve.BadPrimes
import Mathlib.Data.List.TakeWhile

/-!
# The small sieve at projective roots

The runs of `init_small_sieve`, the set-up of a thread and its calls of
`sieve_small_bucket_region`, for the primes with a projective root.  The position that an entry
keeps between two regions packs a line and an offset below `q` into one number; it is read back
as a line and an offset below `I`.  The two agree if the first line that is sieved in a region
has a location of the root.

Main results:

- Theorem `initBadPrimes_spec`: the entries of the bad roots.
- Theorem `sieveBadPrime_ready`: one root and one region.
- Theorem `processRegions_decrease`: the sieve of a thread.
-/

namespace CadoNfs.SmallSieve

open List (Forall₂ map_cons mem_cons_of_mem mem_cons_self range')
open Option (bind_some map_some some_inj)

variable {si : SieveInfo} {b : SmallBadPrime} {f : FactorBaseRoot} {p r N m : ℕ}
  {S : ℕ → BitVec 8}

/-! ## Conditions -/

/-- The first line of region `N` that is a multiple of `g`, line zero apart, has a
location of the root, if there is such a line. -/
def FirstLineHit (si : SieveInfo) (p r N : ℕ) : Prop :=
  ∀ j, 1 ≤ j → N * linesPerRegion si ≤ j → j < (N + 1) * linesPerRegion si → Nat.gcd p r ∣ j →
    (∀ j', 1 ≤ j' → N * linesPerRegion si ≤ j' → Nat.gcd p r ∣ j' → j ≤ j') →
    ∃ i : ℤ, -(si.I / 2 : ℕ) ≤ i ∧ i < (si.I / 2 : ℕ) ∧ (j : ℤ) ≡ r * i [ZMOD p]

/-- The number of the first line from line `nj` on, in units of `g` lines and without
line zero. -/
def firstLine (nj g : ℕ) : ℕ := max 1 ((nj + g - 1) / g)

/-- The 32-bit sum of the set-up of a thread has the residue of the sum. -/
def StartExact (si : SieveInfo) (p r nj : ℕ) : Prop :=
  ∀ U < p / Nat.gcd p r, U * (r / Nat.gcd p r) ≡ 1 [MOD p / Nat.gcd p r] →
    uint32Add (si.I / 2) (firstLine nj (Nat.gcd p r) * U)
      ≡ si.I / 2 + firstLine nj (Nat.gcd p r) * U [MOD p / Nat.gcd p r]

/-- At the roots that are sieved by words, a line has whole turns of four words and no byte of a
word but the last one borrows from the next one. -/
def WordsFit (si : SieveInfo) (N : ℕ) : List FactorBaseRoot → (ℕ → BitVec 8) → Prop
  | [], _ => True
  | f :: fb, S =>
    (f.r = f.p → 32 ∣ si.I ∧ ∀ x, Hits si f.p (f.r - f.p) N x → x % 8 ≠ 7 → f.plog ≤ S x) ∧
      WordsFit si N fb (decrease si N S f)

/-- The roots that `init_small_sieve` adds to the bad primes. -/
def badRoots (si : SieveInfo) (thresh : ℕ) (fb : List FactorBaseRoot) : List FactorBaseRoot :=
  (fb.takeWhile fun f => f.p < thresh).filter fun f => IsBad si f

/-! ## Entries -/

variable (build : UlarithBuild)

theorem invmod_of_coprime {s q : ℕ} (hs : s < q) (hq : 1 < q)
    (hq64 : q < 2 ^ 64) (hcop : Nat.gcd s q = 1) :
    ∃ U, invmod build s q = some (1, U) ∧ U < q ∧ U * s ≡ 1 [MOD q] := by
  have hs' : (BitVec.ofNat 64 (s % q)).toNat = s := by
    rw [BitVec.toNat_ofNat, Nat.mod_eq_of_lt hs, Nat.mod_eq_of_lt (hs.trans hq64)]
  have hq' : (BitVec.ofNat 64 q).toNat = q := by
    rw [BitVec.toNat_ofNat, Nat.mod_eq_of_lt hq64]
  obtain ⟨U, hrun, hlt, hunit⟩ := modulInv_of_coprime build (by decide) (by decide)
    (s := BitVec.ofNat 64 (s % q)) (m := BitVec.ofNat 64 q) (by rwa [hs', hq']) (by rwa [hq'])
    (by rwa [hs', hq'])
  rw [hq'] at hlt hunit
  rw [hs'] at hunit
  refine ⟨U.toNat, ?_, hlt, hunit⟩
  rw [invmod, hrun]
  rfl

/-- The entry `b` of the root `f`. -/
structure Entry (si : SieveInfo) (f : FactorBaseRoot) (b : SmallBadPrime) : Prop where
  represents : b.Represents f.p (f.r - f.p)
  valid : b.Valid si
  logp_eq : b.logp = f.plog

section

variable (h : ValidRegion si)
include h

/-- The prepared prime stands for its root. -/
theorem initBadPrime_spec (plog : BitVec 8)
    (hp : p < 2 ^ 31) (hr : r < p) (hproj : 1 < Nat.gcd p r) (hJ : Nat.gcd p r < si.J) :
    ∃ b, initBadPrime build si p r plog = some b ∧ b.Represents p r ∧ b.Valid si ∧
      b.logp = plog := by
  have hgp := Nat.gcd_dvd_left p r
  have hpq : Nat.gcd p r * (p / Nat.gcd p r) = p := Nat.mul_div_cancel' hgp
  have hgI : Nat.gcd p r * si.I < 2 ^ 31 :=
    (Nat.mul_lt_mul_of_pos_right hJ h.I_pos).trans (by rw [mul_comm]; exact h.size_lt)
  have hqpos : 0 < p / Nat.gcd p r := Nat.div_pos (Nat.le_of_dvd (by omega) hgp) (by omega)
  have hqle : p / Nat.gcd p r ≤ 2 ^ 30 := by
    have hle := Nat.mul_le_mul_right (p / Nat.gcd p r) hproj
    omega
  rw [initBadPrime]
  split_ifs with hq
  · have hr0 : r = 0 := by
      rw [hq, mul_one] at hpq
      have hdvd := Nat.gcd_dvd_right p r
      rw [hpq] at hdvd
      exact Nat.eq_zero_of_dvd_of_lt hdvd hr
    rw [assertAlways_of_true hr0]
    refine ⟨_, rfl, ⟨rfl, rfl, hqpos, ?_⟩, ⟨zero_lt_one.trans hproj, hgI, hqle, hqpos⟩, rfl⟩
    dsimp only
    rw [hq]
    exact Nat.modEq_one
  · have hs : r / Nat.gcd p r < p / Nat.gcd p r :=
      Nat.div_lt_div_of_lt_of_dvd hgp hr
    have hcop : Nat.gcd (r / Nat.gcd p r) (p / Nat.gcd p r) = 1 := by
      rw [Nat.gcd_comm]
      exact Nat.coprime_div_gcd_div_gcd (by omega)
    obtain ⟨U, hrun, hlt, hunit⟩ := invmod_of_coprime build hs (by omega) (by omega) hcop
    have hU : U % 2 ^ 32 = U := Nat.mod_eq_of_lt (by omega)
    simp only [hrun, some_bind, assertAlways_of_true one_ne_zero, hU]
    exact ⟨_, rfl, ⟨rfl, rfl, hlt, hunit⟩, ⟨zero_lt_one.trans hproj, hgI, hqle, hlt⟩, rfl⟩

/-- The entries of the bad roots. -/
theorem initBadPrimes_spec {fb : List FactorBaseRoot} (hp : ∀ f ∈ fb, f.p < 2 ^ 31)
    (hproj : ∀ f ∈ fb, f.p ≤ f.r → f.r < 2 * f.p ∧ 1 < Nat.gcd f.p (f.r - f.p)) :
    ∃ bad, initBadPrimes build si fb = some bad ∧
      Forall₂ (Entry si) (fb.filter fun f => IsBad si f) bad := by
  induction fb with
  | nil => exact ⟨[], rfl, Forall₂.nil⟩
  | cons f fb ih =>
    obtain ⟨bad, hrun, hbad⟩ := ih (fun f' hf' => hp f' (mem_cons_of_mem _ hf'))
      fun f' hf' => hproj f' (mem_cons_of_mem _ hf')
    rw [initBadPrimes, List.filter_cons]
    by_cases hf : IsBad si f
    · obtain ⟨hlt, hg⟩ := hproj f mem_cons_self hf.1
      obtain ⟨b, hb, hrest⟩ := initBadPrime_spec build h f.plog
        (hp f mem_cons_self) (r := f.r - f.p) (by omega) hg hf.2
      rw [if_pos hf, if_pos (decide_eq_true hf), hb, hrun]
      exact ⟨b :: bad, rfl, Forall₂.cons ⟨hrest.1, hrest.2.1, hrest.2.2⟩ hbad⟩
    · rw [if_neg hf, if_neg (by simpa using hf)]
      exact ⟨bad, hrun, hbad⟩

/-! ## Locations of a root -/

theorem hits_iff (hb : b.Represents p r) (x : ℕ) :
    Hits si p r N x ↔ x < bucketRegion ∧ 1 ≤ N * linesPerRegion si + x / si.I ∧
      Mark si b (N * linesPerRegion si + x / si.I) (x % si.I) := by
  have hfour := h.four_dvd
  have hcolumn : ∀ k, ((x % si.I : ℕ) : ℤ) - (si.I / 2 : ℕ) ≡ (k : ℕ) * b.U [ZMOD b.q]
      ↔ x % si.I % b.q = offset si b k := fun k => by
    rw [offset, ← Nat.ModEq, ← Int.natCast_modEq_iff, Nat.cast_add, Nat.cast_mul]
    constructor
    · intro hi
      simpa [add_comm] using hi.add_right ((si.I / 2 : ℕ) : ℤ)
    · intro hi
      simpa using hi.sub_right ((si.I / 2 : ℕ) : ℤ)
  have hparity : (2 : ℤ) ∣ ((x % si.I : ℕ) : ℤ) - (si.I / 2 : ℕ) ↔ 2 ∣ x % si.I := by
    omega
  simp only [Hits, Mark, hb.modEq_iff, hcolumn, hparity]
  tauto

theorem decrease_eq (hb : b.Represents f.p (f.r - f.p))
    (hlogp : b.logp = f.plog) (hm : IsNextLine b (N * linesPerRegion si) m) :
    decrease si N S f = markedFrom si b (N * linesPerRegion si) m S := by
  funext x
  rw [decrease, markedFrom, hlogp]
  refine if_congr ?_ rfl rfl
  rw [hits_iff h hb]
  refine and_congr_right fun _ => and_congr_left fun hmark => ?_
  obtain ⟨k, hk⟩ := hmark.1
  have hle : N * linesPerRegion si ≤ k * b.g := by
    rw [mul_comm k, ← hk]
    exact Nat.le_add_right _ _
  rw [hk, mul_comm b.g k, Nat.mul_le_mul_right_iff hb.g_pos]
  constructor
  · intro hpos
    exact hm.first k (Nat.pos_of_mul_pos_right hpos) hle
  · intro hmk
    exact Nat.mul_pos (hm.pos.trans_le hmk) hb.g_pos

end

/-! ## Regions -/

/-- The entry `b` of the root `f` before the region from line `L` on. -/
structure Ready (si : SieveInfo) (L : ℕ) (f : FactorBaseRoot) (b : SmallBadPrime) : Prop
    extends Entry si f b where
  position : IsPosition si b L b.nextPosition

theorem Entry.ready {L position : ℕ} (hb : Entry si f b) (hnext : IsPosition si b L position) :
    Ready si L f { b with nextPosition := position } := by
  obtain ⟨⟨h1, h2, h3, h4⟩, ⟨h5, h6, h7, h8⟩, h9⟩ := hb
  obtain ⟨k, ⟨h10, h11, h12⟩, h13⟩ := hnext
  exact ⟨⟨⟨h1, h2, h3, h4⟩, ⟨h5, h6, h7, h8⟩, h9⟩, k, ⟨h10, h11, h12⟩, h13⟩

theorem offset_lt_of_firstLineHit (h : ValidRegion si) (hb : b.Represents p r)
    (hfirst : FirstLineHit si p r N) (hm : IsNextLine b (N * linesPerRegion si) m)
    (hlt : m * b.g < N * linesPerRegion si + linesPerRegion si) : offset si b m < si.I := by
  have hfour := h.four_dvd
  obtain ⟨i, hlow, hhigh, hi⟩ := hfirst (m * b.g) (Nat.mul_pos hm.pos hb.g_pos) hm.le
    (by rwa [add_one_mul]) (hb.g_eq ▸ dvd_mul_left _ _) fun j hj hLj hgj => by
      rw [← hb.g_eq] at hgj
      obtain ⟨k, rfl⟩ := hgj
      rw [mul_comm b.g k] at hj hLj ⊢
      exact Nat.mul_le_mul_right _ (hm.first k (Nat.pos_of_mul_pos_right hj) hLj)
  have hcolumn := ((hb.modEq_iff i (m * b.g)).mp hi).2
  rw [Nat.mul_div_cancel _ hb.g_pos] at hcolumn
  obtain ⟨o, ho⟩ : ∃ o : ℕ, (o : ℤ) = i + (si.I / 2 : ℕ) :=
    ⟨(i + (si.I / 2 : ℕ)).toNat, Int.toNat_of_nonneg (by omega)⟩
  have hmod : o % b.q = offset si b m := by
    rw [offset, ← Nat.ModEq, ← Int.natCast_modEq_iff, Nat.cast_add, Nat.cast_mul, ho, add_comm i]
    exact hcolumn.add_left _
  have hle := Nat.mod_le o b.q
  omega

/-- One root and one region. -/
theorem sieveBadPrime_ready (h : ValidRegion si) (hb : Ready si (N * linesPerRegion si) f b)
    (hfirst : FirstLineHit si f.p (f.r - f.p) N) (hroot : f.p ≤ f.r ∧ f.r < 2 * f.p)
    (hwords : f.r = f.p →
      32 ∣ si.I ∧ ∀ x, Hits si f.p (f.r - f.p) N x → x % 8 ≠ 7 → f.plog ≤ S x) :
    ∃ b', sieveBadPrime si b S = some (b', decrease si N S f) ∧
      Ready si ((N + 1) * linesPerRegion si) f b' := by
  obtain ⟨hentry, m, hm, hposition⟩ := hb
  obtain ⟨hrep, hvalid, hlogp⟩ := hentry
  have hL : 2 ∣ N * linesPerRegion si := dvd_mul_of_dvd_right h.lines_mul.2 N
  have hzero : b.q = 1 → f.r = f.p := fun hq => by
    have hgp := hrep.mul_eq
    rw [hq, mul_one] at hgp
    have hdvd := Nat.gcd_dvd_right f.p (f.r - f.p)
    rw [← hrep.g_eq, hgp] at hdvd
    have hsub := Nat.eq_zero_of_dvd_of_lt hdvd (by omega)
    omega
  obtain ⟨position, hrun, hnext⟩ := sieveBadPrime_spec (S := S) h hvalid hL hm hposition
    (offset_lt_of_firstLineHit h hrep hfirst hm) fun hq => by
      obtain ⟨hI, hS⟩ := hwords (hzero hq)
      refine ⟨hI, fun x hx hmx hmark hlast => hlogp ▸ hS x ?_ hlast⟩
      exact (hits_iff h hrep x).mpr
        ⟨hx, (Nat.mul_pos hm.pos hrep.g_pos).trans_le hmx, hmark⟩
  rw [← add_one_mul] at hnext
  rw [decrease_eq h hrep hlogp hm]
  exact ⟨_, hrun, Entry.ready ⟨hrep, hvalid, hlogp⟩ hnext⟩

section Run

variable {fb : List FactorBaseRoot} {bad : List SmallBadPrime}

theorem sieveBadPrimes_spec (h : ValidRegion si)
    (hbad : Forall₂ (Ready si (N * linesPerRegion si)) fb bad)
    (hroots : ∀ f ∈ fb, f.p ≤ f.r ∧ f.r < 2 * f.p)
    (hfirst : ∀ f ∈ fb, FirstLineHit si f.p (f.r - f.p) N) (hwords : WordsFit si N fb S) :
    ∃ bad', sieveBadPrimes si bad S = some (bad', fb.foldl (decrease si N) S) ∧
      Forall₂ (Ready si ((N + 1) * linesPerRegion si)) fb bad' := by
  induction hbad generalizing S with
  | nil => exact ⟨[], rfl, Forall₂.nil⟩
  | @cons f b fb bad hb _ ih =>
    obtain ⟨hword, hwords⟩ := hwords
    obtain ⟨b', hrun, hb'⟩ := sieveBadPrime_ready h hb (hfirst f mem_cons_self)
      (hroots f mem_cons_self) hword
    obtain ⟨bad', hrun', hbad'⟩ := ih (fun f' hf' => hroots f' (mem_cons_of_mem _ hf'))
      (fun f' hf' => hfirst f' (mem_cons_of_mem _ hf')) hwords
    refine ⟨b' :: bad', ?_, Forall₂.cons hb' hbad'⟩
    simp [sieveBadPrimes, hrun, hrun', some_bind]

theorem sieveRegions_spec (h : ValidRegion si) {A : ℕ → ℕ → BitVec 8} {n : ℕ}
    (hbad : Forall₂ (Ready si (N * linesPerRegion si)) fb bad)
    (hroots : ∀ f ∈ fb, f.p ≤ f.r ∧ f.r < 2 * f.p)
    (hregions : ∀ M ∈ range' N n,
      (∀ f ∈ fb, FirstLineHit si f.p (f.r - f.p) M) ∧ WordsFit si M fb (A M)) :
    sieveRegions si bad ((range' N n).map A)
      = some ((range' N n).map fun M => fb.foldl (decrease si M) (A M)) := by
  induction n generalizing N bad with
  | zero => rfl
  | succ n ih =>
    rw [List.range'_succ] at hregions ⊢
    obtain ⟨hfirst, hwords⟩ := hregions N mem_cons_self
    obtain ⟨bad', hrun, hbad'⟩ := sieveBadPrimes_spec h hbad hroots hfirst hwords
    have hrest := ih hbad' fun M hM => hregions M (mem_cons_of_mem _ hM)
    simp [sieveRegions, hrun, hrest, some_bind]

end Run

/-! ## The set-up of a thread -/

theorem isNextLine_firstLine (hg : 0 < b.g) (nj : ℕ) : IsNextLine b nj (firstLine nj b.g) := by
  have hceil : ∀ n, (nj + b.g - 1) / b.g ≤ n ↔ nj ≤ n * b.g := fun n => by
    rw [← Nat.lt_add_one_iff, Nat.div_lt_iff_lt_mul hg, add_one_mul]
    omega
  refine ⟨by simp [firstLine], ?_, fun n hn hle => ?_⟩
  · exact (hceil _).mp (le_max_right _ _)
  · exact max_le hn ((hceil n).mpr hle)

/-- The position is that of the first line of the region. -/
theorem startBadPrime_spec (h : ValidRegion si) (hb : b.Valid si) {nj : ℕ}
    (hnj : nj * si.I < 2 ^ 31)
    (hexact : uint32Add (si.I / 2) (firstLine nj b.g * b.U)
      ≡ si.I / 2 + firstLine nj b.g * b.U [MOD b.q]) :
    ∃ position, startBadPrime si nj b = { b with nextPosition := position } ∧
      IsPosition si b nj position := by
  have hm := isNextLine_firstLine hb.g_pos nj
  have hadd := hm.le_add
  have hle := hm.le
  have hIge : 4 ≤ si.I := Nat.le_of_dvd h.I_pos h.four_dvd
  have hgI := hb.g_mul_lt
  have hnj' := Nat.mul_le_mul_left nj hIge
  have hg' := Nat.mul_le_mul_left b.g hIge
  have hceil : (nj + b.g - 1) / b.g % 2 ^ 32 = (nj + b.g - 1) / b.g := by
    have hdiv := Nat.div_le_self (nj + b.g - 1) b.g
    exact Nat.mod_eq_of_lt (by omega)
  have hline : (if (nj + b.g - 1) / b.g = 0 then (nj + b.g - 1) / b.g + 1
      else (nj + b.g - 1) / b.g) = firstLine nj b.g := by
    rw [firstLine]
    split_ifs <;> omega
  have hx : uint32Add (si.I / 2) (firstLine nj b.g * b.U) % b.q = offset si b (firstLine nj b.g) :=
    hexact
  have hj : firstLine nj b.g * b.g % 2 ^ 32 = firstLine nj b.g * b.g := Nat.mod_eq_of_lt (by omega)
  have hsub : (firstLine nj b.g * b.g + 2 ^ 64 - nj) % 2 ^ 64 = firstLine nj b.g * b.g - nj := by
    omega
  have hoff := hb.offset_lt (firstLine nj b.g)
  have hq := hb.q_le
  have hmul := Nat.mul_le_mul_right si.I hadd
  refine ⟨_, rfl, firstLine nj b.g, hm, ?_⟩
  simp only [hceil, hline, hx, hj, hsub]
  exact Nat.mod_eq_of_lt (by omega)

theorem start_lines (nbThreads id : ℕ) :
    linesPerRegion si * (nbBuckets si / nbThreads) * id
      = nbBuckets si / nbThreads * id * linesPerRegion si := by
  rw [mul_assoc, mul_comm]

theorem start_lt (h : ValidRegion si) (hJ : 0 < si.J) {nbThreads id : ℕ} (hid : id < nbThreads) :
    nbBuckets si / nbThreads * id * linesPerRegion si * si.I < 2 ^ 31 := by
  have hpos : 0 < si.I * si.J := Nat.mul_pos h.I_pos hJ
  have hsize := h.size_lt
  have hpred : uint32Add (si.I * si.J) (2 ^ 32 - 1) = si.I * si.J - 1 := by
    rw [uint32Add]
    omega
  have hthreads : nbBuckets si / nbThreads * id ≤ (si.I * si.J - 1) / bucketRegion := by
    have hle := Nat.div_mul_le_self (nbBuckets si) nbThreads
    have hmul := Nat.mul_le_mul_left (nbBuckets si / nbThreads) (Nat.succ_le_of_lt hid)
    rw [Nat.mul_succ] at hmul
    rcases Nat.eq_zero_or_pos (nbBuckets si / nbThreads) with h0 | h0
    · rw [h0, zero_mul]
      exact Nat.zero_le _
    · have hbuckets : nbBuckets si = 1 + (si.I * si.J - 1) / bucketRegion := by
        rw [nbBuckets, hpred]
      omega
  have hregions := Nat.mul_le_mul_right bucketRegion hthreads
  have hdiv := Nat.div_mul_le_self (si.I * si.J - 1) bucketRegion
  rw [mul_assoc, h.lines_mul.1]
  omega

theorem forall₂_start (h : ValidRegion si) {nj : ℕ} (hnj : nj * si.I < 2 ^ 31)
    {fb : List FactorBaseRoot} {bad : List SmallBadPrime} (hbad : Forall₂ (Entry si) fb bad)
    (hstart : ∀ f ∈ fb, StartExact si f.p (f.r - f.p) nj) :
    Forall₂ (Ready si nj) fb (bad.map (startBadPrime si nj)) := by
  induction hbad with
  | nil => exact Forall₂.nil
  | @cons f b fb bad hb _ ih =>
    have hexact := hstart f mem_cons_self
    obtain ⟨hg, hq, hU, hunit⟩ := hb.represents
    rw [hg] at hq hunit
    rw [hq] at hU hunit
    obtain ⟨position, hrun, hposition⟩ := startBadPrime_spec h hb.valid hnj
      (by rw [hg, hq]; exact hexact b.U hU hunit)
    rw [map_cons, hrun]
    exact Forall₂.cons (hb.ready hposition)
      (ih fun f' hf' => hstart f' (mem_cons_of_mem _ hf'))

theorem startExact_of_lt {nj : ℕ}
    (hlt : si.I / 2 + firstLine nj (Nat.gcd p r) * (p / Nat.gcd p r) < 2 ^ 32) :
    StartExact si p r nj := by
  intro U hU _
  have hle := Nat.mul_le_mul_left (firstLine nj (Nat.gcd p r)) hU.le
  rw [uint32Add, Nat.mod_eq_of_lt (by omega)]

theorem firstLineHit_of_le (h : ValidRegion si) (hp : p < 2 ^ 31) (hr : r < p)
    (hproj : 1 < Nat.gcd p r) (hJ : Nat.gcd p r < si.J) (hq : p / Nat.gcd p r ≤ si.I) :
    FirstLineHit si p r N := by
  obtain ⟨b, -, hrep, hvalid, -⟩ := initBadPrime_spec .noAsm h 0 hp hr hproj hJ
  rw [← hrep.g_eq, ← hrep.q_eq] at hq
  intro j _ _ _ hdvd _
  rw [← hrep.g_eq] at hdvd
  have hoff := hvalid.offset_lt (j / b.g)
  have hfour := h.four_dvd
  refine ⟨(offset si b (j / b.g) : ℤ) - (si.I / 2 : ℕ), by omega, by omega, ?_⟩
  refine (hrep.modEq_iff _ j).mpr ⟨hdvd, ?_⟩
  have hmod : (offset si b (j / b.g) : ℤ) ≡ (si.I / 2 : ℕ) + (j / b.g : ℕ) * b.U [ZMOD b.q] := by
    exact_mod_cast Int.natCast_modEq_iff.mpr (Nat.mod_modEq _ _)
  simpa using hmod.sub_right ((si.I / 2 : ℕ) : ℤ)

/-! ## A thread -/

/-- For every list of roots below the bound, whatever the bound and the width of a line: if in every
region of the thread the first line that is sieved for a root has a location of the root, the 32-bit
sum of the set-up has the right residue, and the words of the roots with `q = 1` do not borrow,
then the thread decreases the arrays of its regions by the logarithms of the bad roots, each exactly
at its locations. -/
theorem processRegions_decrease (h : ValidRegion si) {thresh : ℕ}
    (hthresh : thresh ≤ 2 ^ 31) {fb : List FactorBaseRoot}
    (hproj : ∀ f ∈ fb, f.p ≤ f.r → f.r < 2 * f.p ∧ 1 < Nat.gcd f.p (f.r - f.p))
    {nbThreads id : ℕ} (hid : id < nbThreads) (hdvd : nbThreads ∣ nbBuckets si)
    (A : ℕ → ℕ → BitVec 8)
    (hstart : ∀ f ∈ badRoots si thresh fb,
      StartExact si f.p (f.r - f.p) (nbBuckets si / nbThreads * id * linesPerRegion si))
    (hregions : ∀ N ∈ range' (nbBuckets si / nbThreads * id) (nbBuckets si / nbThreads),
      (∀ f ∈ badRoots si thresh fb, FirstLineHit si f.p (f.r - f.p) N) ∧
        WordsFit si N (badRoots si thresh fb) (A N)) :
    ∃ bad, initSmallSieve build si thresh fb = some bad ∧
      processRegionsOneThread si nbThreads id bad A
        = some ((range' (nbBuckets si / nbThreads * id) (nbBuckets si / nbThreads)).map
          fun N => (badRoots si thresh fb).foldl (decrease si N) (A N)) ∧
      Forall₂ (fun f b => b.g = Nat.gcd f.p (f.r - f.p) ∧ b.q = f.p / b.g ∧ b.logp = f.plog ∧
          ∀ (i : ℤ) (j : ℕ), (j : ℤ) ≡ (f.r - f.p : ℕ) * i [ZMOD f.p]
            ↔ b.g ∣ j ∧ i ≡ (j / b.g : ℕ) * b.U [ZMOD b.q])
        (badRoots si thresh fb) bad := by
  have hmem : ∀ f ∈ fb.takeWhile fun f => f.p < thresh, f ∈ fb ∧ f.p < thresh := fun f hf =>
    ⟨(List.takeWhile_prefix _).subset hf, by simpa using List.mem_takeWhile_imp hf⟩
  obtain ⟨bad, hrun, hbad⟩ := initBadPrimes_spec build h
    (fun f hf => (hmem f hf).2.trans_le hthresh) fun f hf => hproj f (hmem f hf).1
  have hroots : ∀ f ∈ badRoots si thresh fb, f.p ≤ f.r ∧ f.r < 2 * f.p ∧ 0 < si.J := fun f hf => by
    obtain ⟨hf1, hf2⟩ := List.mem_filter.mp hf
    obtain ⟨hle, hJ⟩ := of_decide_eq_true hf2
    exact ⟨hle, (hproj f (hmem f hf1).1 hle).1, Nat.zero_lt_of_lt hJ⟩
  refine ⟨bad, hrun, ?_, hbad.imp fun f b hb =>
    ⟨hb.represents.g_eq, hb.represents.q_eq, hb.logp_eq, hb.represents.modEq_iff⟩⟩
  have hready : Forall₂ (Ready si (nbBuckets si / nbThreads * id * linesPerRegion si))
      (badRoots si thresh fb)
      (bad.map (startBadPrime si (nbBuckets si / nbThreads * id * linesPerRegion si))) := by
    rcases Nat.eq_zero_or_pos si.J with hJ | hJ
    · have hnil : badRoots si thresh fb = [] := List.eq_nil_iff_forall_not_mem.mpr fun f hf =>
        absurd (hroots f hf).2.2 (by omega)
      rw [badRoots] at hnil
      rw [hnil] at hbad
      rw [badRoots, hnil, List.forall₂_nil_left_iff.mp hbad]
      exact Forall₂.nil
    · exact forall₂_start h (start_lt h hJ hid) hbad hstart
  rw [processRegionsOneThread, assertAlways_of_true (Nat.mod_eq_zero_of_dvd hdvd),
    some_bind, start_lines]
  exact sieveRegions_spec h hready (fun f hf => ⟨(hroots f hf).1, (hroots f hf).2.1⟩) hregions

/-- The roots at infinity modulo 3 and modulo 9, with lines of 32 locations. -/
theorem processRegions_decrease_threes :
    let si : SieveInfo := { logI := 5, I := 32, J := 2048 }
    let fb : List FactorBaseRoot :=
      [{ p := 3, r := 3, plog := 3 }, { p := 9, r := 12, plog := 4 }]
    ∃ bad, initSmallSieve .noAsm si 32 fb = some bad ∧
      processRegionsOneThread si 1 0 bad (fun _ _ => 100#8)
        = some [fb.foldl (decrease si 0) fun _ => 100#8] := by
  intro si fb
  have hvalid : ValidRegion si := ⟨rfl, by decide, by decide, by decide⟩
  have hbad : badRoots si 32 fb = fb := by decide
  have hregion : range' (nbBuckets si / 1 * 0) (nbBuckets si / 1) = [0] := by decide
  have hsum : ∀ f ∈ fb, si.I / 2 + firstLine (nbBuckets si / 1 * 0 * linesPerRegion si)
      (Nat.gcd f.p (f.r - f.p)) * (f.p / Nat.gcd f.p (f.r - f.p)) < 2 ^ 32 := by decide
  have hsizes : ∀ f ∈ fb, f.p < 2 ^ 31 ∧ f.r - f.p < f.p ∧ 1 < Nat.gcd f.p (f.r - f.p) ∧
      Nat.gcd f.p (f.r - f.p) < si.J ∧ f.p / Nat.gcd f.p (f.r - f.p) ≤ si.I := by decide
  have hfirst : ∀ N, ∀ f ∈ fb, FirstLineHit si f.p (f.r - f.p) N := fun N f hf => by
    obtain ⟨h1, h2, h3, h4, h5⟩ := hsizes f hf
    exact firstLineHit_of_le hvalid h1 h2 h3 h4 h5
  have hwords : WordsFit si 0 fb fun _ => 100#8 :=
    ⟨fun _ => ⟨by decide, fun _ _ _ => (by decide : (3 : BitVec 8) ≤ 100#8)⟩,
      fun h => absurd h (by decide), trivial⟩
  have hstart : ∀ f ∈ badRoots si 32 fb, StartExact si f.p (f.r - f.p)
      (nbBuckets si / 1 * 0 * linesPerRegion si) := fun f hf =>
    startExact_of_lt (hsum f (hbad ▸ hf))
  have hregions : ∀ N ∈ range' (nbBuckets si / 1 * 0) (nbBuckets si / 1),
      (∀ f ∈ badRoots si 32 fb, FirstLineHit si f.p (f.r - f.p) N) ∧
        WordsFit si N (badRoots si 32 fb) fun _ => 100#8 := fun N hN => by
    rw [hregion, List.mem_singleton] at hN
    rw [hbad, hN]
    exact ⟨hfirst 0, hwords⟩
  obtain ⟨bad, hrun, hthread, -⟩ := processRegions_decrease .noAsm hvalid (by decide) (by decide)
    zero_lt_one (one_dvd _) (fun _ _ => 100#8) hstart hregions
  rw [hbad, hregion] at hthread
  exact ⟨bad, hrun, hthread⟩

/-- Where the first line has no location: with lines of `2 ^ 15` locations and the root 68829
modulo `3 ^ 11` the first offset 36387 of line 3 is beyond the line.  It is read as the offset
3619 of line 4, which is not a multiple of 3. -/
theorem not_processRegions_decrease :
    let si : SieveInfo := { logI := 15, I := 32768, J := 8 }
    let f : FactorBaseRoot := { p := 3 ^ 11, r := 3 ^ 11 + 68829, plog := 5 }
    (ValidRegion si ∧ IsBad si f ∧ ¬Hits si f.p (f.r - f.p) 2 3619) ∧
      ((initSmallSieve .noAsm si 200000 [f]).bind fun bad =>
        (processRegionsOneThread si 1 0 bad fun _ _ => 100#8).map fun arrays =>
          arrays.map fun S => S 3619) = some [100#8, 100#8, 95#8, 100#8] ∧
      ¬∃ bad, initSmallSieve .noAsm si 200000 [f] = some bad ∧
        processRegionsOneThread si 1 0 bad (fun _ _ => 100#8)
          = some ((range' 0 4).map fun N => [f].foldl (decrease si N) fun _ => 100#8) := by
  intro si f
  have hmiss : ¬Hits si f.p (f.r - f.p) 2 3619 := by decide +kernel
  have hrun : ((initSmallSieve .noAsm si 200000 [f]).bind fun bad =>
      (processRegionsOneThread si 1 0 bad fun _ _ => 100#8).map fun arrays =>
        arrays.map fun S => S 3619) = some [100#8, 100#8, 95#8, 100#8] := by decide +kernel
  refine ⟨⟨⟨rfl, by decide, by decide, by decide⟩, by decide +kernel, hmiss⟩, hrun, ?_⟩
  rintro ⟨bad, hbad, hthread⟩
  rw [hbad, bind_some, hthread, map_some, List.map_map] at hrun
  have hthird := congrArg (fun l => l[2]?) (some_inj.mp hrun)
  rw [List.getElem?_map, List.getElem?_range' (by decide), map_some] at hthird
  have hvalue : decrease si 2 (fun _ => 100#8) f 3619 = 95#8 := some_inj.mp hthird
  rw [decrease, if_neg hmiss] at hvalue
  exact absurd hvalue (by decide)

end CadoNfs.SmallSieve
