import CadoNfs.Lib.Digits
import Mathlib.Data.List.Sort

/-!
# Relations in text files

A relation is written as `a,b:p,...,p:p,...,p`, with `a` and `b` in decimal and
the primes in hexadecimal, each as often as its exponent says.

Main results:

- Theorem `scanPrimes_writeTokens`: the scan of a list of primes gives them back.
- Theorem `mergeEqual_spec`: the merge loop adds up the exponents.
- Theorem `relationStreamGet_fprintRelationRaw`: when a relation is read back.
-/

namespace CadoNfs

open Digits
open Nat (digitChar toDigits)
open List (length_cons map_cons map_map map_nil mem_cons mem_cons_of_mem mem_cons_self mem_map
  pairwise_cons range replicate)
open Option (bind_some)

/-! ## Relations -/

structure RatPrime where
  p : ℕ
  e : ℕ
deriving DecidableEq

structure AlgPrime where
  p : ℕ
  r : ℕ
  e : ℕ
deriving DecidableEq

/-- `relation_t`; the numbers of primes are the lengths of the lists. -/
structure Relation where
  a : ℤ
  b : ℕ
  rp : List RatPrime
  ap : List AlgPrime
  nbRpAlloc : ℕ
  nbApAlloc : ℕ

/-- The primes of the rational side with their exponents. -/
def Relation.rational (rel : Relation) : List (ℕ × ℕ) :=
  rel.rp.map fun q => (q.p, q.e)

/-- The primes of the algebraic side with their exponents. -/
def Relation.algebraic (rel : Relation) : List (ℕ × ℕ) :=
  rel.ap.map fun q => (q.p, q.e)

/-! ## Writing -/

/-- The loops of `fprint_relation_raw` over one side: a comma after each prime but the
last one. -/
def fprintPrimes (stop : Char) (primes : List (ℕ × ℕ)) : List Char :=
  primes.zipIdx.flatMap fun ((p, e), i) => (range e).flatMap fun j =>
    toDigits 16 p ++ [if i + 1 ≠ primes.length ∨ j + 1 ≠ e then ',' else stop]

/-- The format `PRId64`. -/
def printInt (a : ℤ) : List Char :=
  if a < 0 then '-' :: toDigits 10 a.natAbs else toDigits 10 a.natAbs

/-- `fprint_relation_raw`. -/
def fprintRelationRaw (rel : Relation) : List Char :=
  printInt rel.a ++ ',' :: (toDigits 10 rel.b ++ ':' ::
    (fprintPrimes ':' rel.rational ++ fprintPrimes '\n' rel.algebraic))

/-! ## Sorting and merging -/

/-- `rat_prime_cmp`. -/
def ratPrimeCmp (a b : RatPrime) : ℤ :=
  (if b.p < a.p then 1 else 0) - if a.p < b.p then 1 else 0

/-- `alg_prime_cmp`. -/
def algPrimeCmp (a b : AlgPrime) : ℤ :=
  let r : ℤ := (if b.p < a.p then 1 else 0) - if a.p < b.p then 1 else 0
  if r ≠ 0 then r else (if b.r < a.r then 1 else 0) - if a.r < b.r then 1 else 0

/-- The loop that merges equal neighbours, with entry `j` in `cur`. -/
def mergeEqual {α : Type} (cmp : α → α → ℤ) (addE : α → α → α) (cur : α) : List α → List α
  | [] => [cur]
  | x :: rest =>
    if cmp x cur = 0 then mergeEqual cmp addE (addE cur x) rest
    else cur :: mergeEqual cmp addE x rest

/-- `qsort` and the merge. -/
def compressPrimes {α : Type} (cmp : α → α → ℤ) (addE : α → α → α) (primes : List α) : List α :=
  match primes.mergeSort fun x y => cmp x y ≤ 0 with
  | [] => []
  | x :: rest => mergeEqual cmp addE x rest

/-- `relation_compress_rat_primes`. -/
def relationCompressRatPrimes (rp : List RatPrime) : List RatPrime :=
  compressPrimes ratPrimeCmp (fun x y => { x with e := x.e + y.e }) rp

/-- `relation_compress_alg_primes`. -/
def relationCompressAlgPrimes (ap : List AlgPrime) : List AlgPrime :=
  compressPrimes algPrimeCmp (fun x y => { x with e := x.e + y.e }) ap

/-! ## Reading -/

/-- The parts of `relation_stream` that `relation_stream_get` uses; the source is
the text that is left of the file. -/
structure RelationStream where
  source : List Char
  rel : Relation
  parseOnlyAb : Bool
  pos : ℕ
  nrels : ℕ
  lnum : ℕ

/-- Lines that start with `#` are skipped.  In such a line the last argument counts its
characters, all of which are stored in a buffer of `size` characters.  At the end of the
file no text is left. -/
def skipComments (size : ℕ) : List Char → ℕ → Option ℕ → Option (ℕ × List Char)
  | [], lnum, none => some (lnum, [])
  | c :: source, lnum, none =>
    if c = '#' then skipComments size source lnum (some 1) else some (lnum, c :: source)
  | [], lnum, some k => if size ≤ k then none else some (lnum + 1, [])
  | c :: source, lnum, some k =>
    if size ≤ k then none
    else if c = '\n' then skipComments size source (lnum + 1) none
    else skipComments size source lnum (some (k + 1))

/-- `ASSERT_ALWAYS(c == stop)` for the character that was just read. -/
def expect (stop : Char) : List Char → Option (List Char)
  | [] => none
  | c :: source => if c = stop then some source else none

/-- The text up to a character, that character if it is not the end of the file, and what is
left. -/
def readUntil (stop : Char → Bool) : List Char → List Char × Option Char × List Char
  | [] => ([], none, [])
  | c :: source =>
    if stop c then ([], some c, source)
    else ((c :: (readUntil stop source).1), (readUntil stop source).2)

/-- The second pass over a list of primes, which ends with its stop character: tokens without
digits are dropped.  An unsigned long has `w` bits.  Running past the end has no result. -/
def scanPrimes (w : ℕ) : ℕ → List Char → Option (List ℕ)
  | _, [] => some []
  | 0, _ :: _ => none
  | fuel + 1, c :: text =>
    match readNumber digitValue 16 (2 ^ w) 0 (c :: text) with
    | (_, []) => none
    | (pr, _ :: rest) => do
      let primes ← scanPrimes w fuel rest
      return if rest.length < text.length then pr :: primes else primes

/-- One list of primes: the number of commas and one, the primes, and the text left. -/
def readPrimes (w : ℕ) (stop : Char) (source : List Char) : Option (ℕ × List ℕ × List Char) :=
  let (base, c, rest) := readUntil (fun c => c = '\n' || c = ':') source
  if c ≠ some stop then none
  else do
    let primes ← scanPrimes w (base.length + 1) (base ++ [stop])
    return (1 + base.count ',', primes, rest)

/-- `relation_provision_for_primes` for one list. -/
def provision (n alloc : ℕ) : ℕ :=
  if 0 < n ∧ alloc < n then n + n / 2 else alloc

/-- The primes of both sides; there must be room for them. -/
def readSides (w : ℕ) (rel : Relation) (source : List Char) : Option (Relation × List Char) := do
  let (n, primes, source) ← readPrimes w ':' source
  let nbRpAlloc := provision n rel.nbRpAlloc
  if nbRpAlloc < primes.length then none
  else do
    let rp := relationCompressRatPrimes (primes.map fun pr => { p := pr, e := 1 })
    let (n, primes, source) ← readPrimes w '\n' source
    let nbApAlloc := provision n rel.nbApAlloc
    if nbApAlloc < primes.length then none
    else
      let ap := relationCompressAlgPrimes
        (primes.map fun pr => { p := pr, r := 2 ^ w - 1, e := 1 })
      return ({ rel with rp, ap, nbRpAlloc, nbApAlloc }, source)

/-- What follows `a,b:` on the line: the relation, how much more of the line is stored,
and the text left. -/
def readRest (w : ℕ) (parseOnlyAb : Bool) (rel : Relation) (source : List Char) :
    Option (Relation × ℕ × List Char) :=
  if parseOnlyAb then
    let (base, _, rest) := readUntil (fun c => c = '\n') source
    some (rel, base.length + 1, rest)
  else do
    let (rel, rest) ← readSides w rel source
    return (rel, source.length - rest.length, rest)

/-- `relation_stream_get`, with a line buffer of `size` characters.  The result is
-1 at the end of the file, else the number of characters read; a failed assertion, or a line
that does not fit in the buffer with its final `NUL`, has no result. -/
def relationStreamGet (size w : ℕ) (rs : RelationStream) : Option (ℤ × RelationStream) := do
  let (lnum, line) ← skipComments size rs.source (rs.lnum + 1) none
  match line with
  | [] => return (-1, { rs with source := [], lnum := lnum })
  | c :: text =>
    let s : ℤ := if c = '-' then -1 else 1
    let (a, source) := readNumber digitValue 10 (2 ^ 64) 0 (if c = '-' then text else c :: text)
    let source ← expect ',' source
    let (b, source) := readNumber digitValue 10 (2 ^ 64) 0 source
    let source ← expect ':' source
    let rel := { rs.rel with a := (s * a).bmod (2 ^ 64), b := b }
    let (rel, more, rest) ← readRest w rs.parseOnlyAb rel source
    let nread := line.length - source.length + more
    if size < nread + 1 then none
    else
      return (nread, { rs with
        source := rest, rel := rel, pos := rs.pos + nread, nrels := rs.nrels + 1,
        lnum := lnum })

/-! ## The text of a list of primes -/

/-- The primes of one side, each as often as its exponent says. -/
def tokens (primes : List (ℕ × ℕ)) : List ℕ :=
  primes.flatMap fun (p, e) => replicate e p

/-- Hexadecimal numbers with commas between them. -/
def writeTokens (stop : Char) : List ℕ → List Char
  | [] => []
  | [t] => toDigits 16 t ++ [stop]
  | t :: u :: ts => toDigits 16 t ++ ',' :: writeTokens stop (u :: ts)

section Tokens

variable {stop : Char} {primes : List (ℕ × ℕ)} {ts : List ℕ}

@[simp]
theorem tokens_cons {x : ℕ × ℕ} : tokens (x :: primes) = replicate x.2 x.1 ++ tokens primes :=
  rfl

theorem writeTokens_cons {t : ℕ} (hts : ts ≠ []) :
    writeTokens stop (t :: ts) = toDigits 16 t ++ ',' :: writeTokens stop ts := by
  cases ts with
  | nil => exact absurd rfl hts
  | cons u ts => rfl

theorem writeTokens_replicate_append {e p : ℕ} (hts : ts ≠ []) :
    writeTokens stop (replicate e p ++ ts)
      = (range e).flatMap (fun _ => toDigits 16 p ++ [',']) ++ writeTokens stop ts := by
  induction e with
  | zero => rfl
  | succ e ih =>
    rw [List.replicate_succ, List.cons_append, writeTokens_cons (by simp [hts]), ih,
      List.range_succ_eq_map, List.flatMap_cons, List.flatMap_map]
    simp

theorem writeTokens_replicate {e p : ℕ} :
    writeTokens stop (replicate (e + 1) p)
      = (range (e + 1)).flatMap fun j =>
          toDigits 16 p ++ [if j + 1 ≠ e + 1 then ',' else stop] := by
  rw [← List.replicate_append_replicate, List.replicate_one,
    writeTokens_replicate_append (by simp), List.range_succ, List.flatMap_append]
  congr 1
  · refine List.flatMap_congr fun j hj => ?_
    rw [if_pos (by have := List.mem_range.mp hj; omega)]
  · simp [writeTokens]

theorem fprintPrimes_eq (hpos : ∀ x ∈ primes, 1 ≤ x.2) :
    fprintPrimes stop primes = writeTokens stop (tokens primes) := by
  suffices h : ∀ i, (primes.zipIdx i).flatMap (fun ((p, e), k) => (range e).flatMap fun j =>
      toDigits 16 p ++ [if k + 1 ≠ i + primes.length ∨ j + 1 ≠ e then ',' else stop])
      = writeTokens stop (tokens primes) by
    have h0 := h 0
    rwa [zero_add] at h0
  induction primes with
  | nil => exact fun i => rfl
  | cons x primes ih =>
    intro i
    obtain ⟨p, e⟩ := x
    have he : 1 ≤ e := hpos (p, e) mem_cons_self
    have ih := ih (fun y hy => hpos y (mem_cons_of_mem _ hy)) (i + 1)
    have hlength : i + ((p, e) :: primes).length = i + 1 + primes.length := by
      rw [length_cons]
      omega
    simp only [List.zipIdx_cons, List.flatMap_cons, hlength, ih, tokens_cons]
    cases primes with
    | nil =>
      obtain ⟨e, rfl⟩ := Nat.exists_eq_add_of_le' he
      simp [writeTokens_replicate, tokens, writeTokens]
    | cons y primes =>
      have hy : 1 ≤ y.2 := hpos y (by simp)
      have hne : tokens (y :: primes) ≠ [] := by
        rw [tokens_cons, ne_eq, List.append_eq_nil_iff, List.replicate_eq_nil_iff, not_and]
        omega
      rw [writeTokens_replicate_append hne]
      congr 1
      refine List.flatMap_congr fun j hj => ?_
      rw [if_pos (Or.inl (by rw [length_cons]; omega))]

end Tokens

/-! ## Reading the primes back -/

section Scan

variable {stop : Char} {ts : List ℕ} {w fuel : ℕ}

theorem digitValue_colon : digitValue ':' = none := by
  decide

theorem digitValue_newline : digitValue '\n' = none := by
  decide

theorem digitValue_comma : digitValue ',' = none := by
  decide

theorem scanPrimes_token {t : ℕ} (ht : t < 2 ^ w) {c : Char} (hc : digitValue c = none)
    {rest : List Char} {primes : List ℕ} (hrest : scanPrimes w fuel rest = some primes) :
    scanPrimes w (fuel + 1) (toDigits 16 t ++ c :: rest) = some (t :: primes) := by
  have hread : readNumber digitValue 16 (2 ^ w) 0 (toDigits 16 t ++ c :: rest)
      = (t, c :: rest) :=
    readNumber_toDigits (fun d hd => digitValue_digitChar hd) (by decide) ht (stops_cons.mpr hc)
  obtain ⟨d, ds, hds⟩ := List.exists_cons_of_ne_nil (Nat.toDigits_ne_nil (n := t) (b := 16))
  rw [hds, List.cons_append] at hread ⊢
  simp [scanPrimes, hread, hrest]
  omega

variable (fuel) in
/-- The scan of a list of primes gives them back. -/
theorem scanPrimes_writeTokens (hts : ∀ t ∈ ts, t < 2 ^ w) (hstop : digitValue stop = none)
    (hfuel : ts.length ≤ fuel) : scanPrimes w fuel (writeTokens stop ts) = some ts := by
  induction ts generalizing fuel with
  | nil => cases fuel <;> rfl
  | cons t ts ih =>
    obtain ⟨fuel, rfl⟩ := Nat.exists_eq_add_of_le' (show 1 ≤ fuel by simp at hfuel; omega)
    have ht := hts t mem_cons_self
    have ih := ih _ (fun u hu => hts u (mem_cons_of_mem t hu))
      (show ts.length ≤ fuel by simpa using hfuel)
    cases ts with
    | nil => exact scanPrimes_token ht hstop ih
    | cons u ts => exact scanPrimes_token ht digitValue_comma ih

theorem readUntil_append {stops : Char → Bool} {base rest : List Char} {c : Char}
    (hbase : ∀ d ∈ base, stops d = false) (hc : stops c = true) :
    readUntil stops (base ++ c :: rest) = (base, some c, rest) := by
  induction base with
  | nil => simp [readUntil, hc]
  | cons d base ih =>
    have ih := ih fun d' hd' => hbase d' (mem_cons_of_mem d hd')
    simp [readUntil, hbase d mem_cons_self, ih]

variable (stop) in
theorem writeTokens_split (hts : ts ≠ []) :
    ∃ base, writeTokens stop ts = base ++ [stop] ∧
      (∀ c ∈ base, c = ',' ∨ ∃ d < 16, c = digitChar d) ∧ 1 + base.count ',' = ts.length := by
  have hdigits : ∀ t c, c ∈ toDigits 16 t → ∃ d < 16, c = digitChar d :=
    fun t c hc => mem_toDigits (by decide) hc
  have hcount : ∀ t, (toDigits 16 t).count ',' = 0 := by
    intro t
    refine List.count_eq_zero.mpr fun hmem => ?_
    obtain ⟨d, hd, hc⟩ := hdigits t ',' hmem
    have hvalue := digitValue_digitChar hd
    rw [← hc, digitValue_comma] at hvalue
    exact absurd hvalue (by simp)
  induction ts with
  | nil => exact absurd rfl hts
  | cons t ts ih =>
    cases ts with
    | nil =>
      exact ⟨toDigits 16 t, rfl, fun c hc => Or.inr (hdigits t c hc), by simp [hcount]⟩
    | cons u ts =>
      obtain ⟨base, hbase, hchars, hlength⟩ := ih (List.cons_ne_nil u ts)
      refine ⟨toDigits 16 t ++ ',' :: base, ?_, fun c hc => ?_, ?_⟩
      · rw [writeTokens_cons (List.cons_ne_nil u ts), hbase]
        simp
      · rcases List.mem_append.mp hc with hc | hc
        · exact Or.inr (hdigits t c hc)
        · exact (mem_cons.mp hc).elim Or.inl (hchars c)
      · rw [List.count_append, hcount, List.count_cons_self, length_cons]
        omega

theorem not_stops_of_digit {c : Char} (hc : c = ',' ∨ ∃ d < 16, c = digitChar d) :
    decide (c = '\n' ∨ c = ':') = false := by
  rcases hc with rfl | ⟨d, hd, rfl⟩
  · decide
  · have hvalue := digitValue_digitChar hd
    rw [decide_eq_false_iff_not, not_or]
    constructor
    · intro heq
      rw [heq, digitValue_newline] at hvalue
      exact absurd hvalue (by simp)
    · intro heq
      rw [heq, digitValue_colon] at hvalue
      exact absurd hvalue (by simp)

theorem readPrimes_writeTokens (hts : ts ≠ []) (hlt : ∀ t ∈ ts, t < 2 ^ w)
    (hstop : stop = '\n' ∨ stop = ':') (rest : List Char) :
    readPrimes w stop (writeTokens stop ts ++ rest) = some (ts.length, ts, rest) := by
  obtain ⟨base, hbase, hchars, hlength⟩ := writeTokens_split stop hts
  have hvalue : digitValue stop = none := by
    rcases hstop with rfl | rfl
    · exact digitValue_newline
    · exact digitValue_colon
  have hread : readUntil (fun c => c = '\n' || c = ':') (base ++ stop :: rest)
      = (base, some stop, rest) := by
    refine readUntil_append (fun d hd => ?_) (by simpa using hstop)
    simpa using not_stops_of_digit (hchars d hd)
  have hscan := scanPrimes_writeTokens (base.length + 1) hlt hvalue (by
    have hle := List.count_le_length (a := ',') (l := base)
    omega)
  rw [hbase] at hscan
  rw [hbase, List.append_assoc, List.singleton_append, readPrimes, hread]
  simp [hscan, hlength]

end Scan

/-! ## The merged list -/

/-- How often a prime was written. -/
def multiplicity (written : List (ℕ × ℕ)) (p : ℕ) : ℕ :=
  ((written.filter fun x => x.1 = p).map Prod.snd).sum

/-- The primes in increasing order, each with its multiplicity. -/
def Merged (written read : List (ℕ × ℕ)) : Prop :=
  read.Pairwise (fun x y => x.1 < y.1) ∧
    ∀ p e, (p, e) ∈ read ↔ 0 < e ∧ e = multiplicity written p

section Merge

variable {rp : List RatPrime} {cur : RatPrime}

/-- The multiplicity of a prime in a list of `rat_prime_t`. -/
def total (rp : List RatPrime) (p : ℕ) : ℕ :=
  multiplicity (rp.map fun q => (q.p, q.e)) p

@[simp]
theorem total_cons (q : RatPrime) (p : ℕ) :
    total (q :: rp) p = (if q.p = p then q.e else 0) + total rp p := by
  by_cases h : q.p = p <;> simp [total, multiplicity, h]

theorem ratPrimeCmp_eq_zero {a b : RatPrime} : ratPrimeCmp a b = 0 ↔ a.p = b.p := by
  rw [ratPrimeCmp]
  split_ifs <;> omega

theorem ratPrimeCmp_nonpos {a b : RatPrime} : ratPrimeCmp a b ≤ 0 ↔ a.p ≤ b.p := by
  rw [ratPrimeCmp]
  split_ifs <;> omega

/-- The loop over a sorted list: the result is strictly sorted, with the same primes and the
same multiplicities. -/
theorem mergeEqual_spec (hsorted : (cur :: rp).Pairwise fun x y => x.p ≤ y.p)
    (hpos : ∀ q ∈ cur :: rp, 0 < q.e) :
    let read := mergeEqual ratPrimeCmp (fun x y => { x with e := x.e + y.e }) cur rp
    read.Pairwise (fun x y => x.p < y.p) ∧ (∀ q ∈ read, cur.p ≤ q.p ∧ 0 < q.e) ∧
      ∀ p, total read p = total (cur :: rp) p := by
  induction rp generalizing cur with
  | nil => exact ⟨List.pairwise_singleton _ _, by simpa [mergeEqual] using hpos, fun p => rfl⟩
  | cons x rp ih =>
    obtain ⟨hcur, hrest⟩ := pairwise_cons.mp hsorted
    obtain ⟨hx, hrp⟩ := pairwise_cons.mp hrest
    have hcure := hpos cur mem_cons_self
    have hrpe : ∀ q ∈ rp, 0 < q.e := fun q hq => hpos q (by simp [hq])
    simp only [mergeEqual, ratPrimeCmp_eq_zero]
    split_ifs with hsame
    · obtain ⟨hpairwise, hmem, htotal⟩ := @ih { cur with e := cur.e + x.e }
        (pairwise_cons.mpr ⟨fun q hq => hcur q (mem_cons_of_mem x hq), hrp⟩)
        (List.forall_mem_cons.mpr ⟨by show 0 < cur.e + x.e; omega, hrpe⟩)
      refine ⟨hpairwise, hmem, fun p => ?_⟩
      simp only [htotal, total_cons, hsame]
      split_ifs <;> omega
    · obtain ⟨hpairwise, hmem, htotal⟩ := ih hrest fun q hq => hpos q (mem_cons_of_mem cur hq)
      have hlt : cur.p < x.p := lt_of_le_of_ne (hcur x mem_cons_self) (Ne.symm hsame)
      refine ⟨pairwise_cons.mpr ⟨fun q hq => ?_, hpairwise⟩,
        List.forall_mem_cons.mpr ⟨⟨le_rfl, hcure⟩, fun q hq => ⟨?_, (hmem q hq).2⟩⟩, fun p => ?_⟩
      · exact hlt.trans_le (hmem q hq).1
      · exact hlt.le.trans (hmem q hq).1
      · rw [total_cons, htotal, ← total_cons]

theorem mem_iff_total (hsorted : rp.Pairwise fun x y => x.p < y.p) (hpos : ∀ q ∈ rp, 0 < q.e)
    (p e : ℕ) : (⟨p, e⟩ : RatPrime) ∈ rp ↔ 0 < e ∧ e = total rp p := by
  induction rp generalizing e with
  | nil =>
    simp only [List.not_mem_nil, false_iff, total, multiplicity, map_nil, List.filter_nil,
      List.sum_nil]
    omega
  | cons q rp ih =>
    obtain ⟨hq, hrp⟩ := pairwise_cons.mp hsorted
    have ih' := fun e => ih hrp (fun q hq => hpos q (mem_cons_of_mem _ hq)) e
    have hqe := hpos q mem_cons_self
    rw [mem_cons, ih', total_cons]
    by_cases hp : q.p = p
    · have hzero : total rp p = 0 := by
        refine Nat.eq_zero_of_not_pos fun h => ?_
        have hmem := (ih' (total rp p)).mpr ⟨h, rfl⟩
        exact absurd (hq _ hmem) (by simp [hp])
      rw [if_pos hp, hzero, add_zero]
      constructor
      · rintro (h | ⟨h, h'⟩)
        · obtain rfl : e = q.e := by rw [← h]
          exact ⟨hqe, rfl⟩
        · omega
      · rintro ⟨-, rfl⟩
        exact Or.inl (by rw [← hp])
    · rw [if_neg hp, zero_add]
      refine or_iff_right fun h => hp ?_
      rw [← h]

theorem total_perm {rp' : List RatPrime} (h : rp.Perm rp') (p : ℕ) : total rp p = total rp' p :=
  (((h.map _).filter _).map _).sum_nat

theorem multiplicity_eq_count (written : List (ℕ × ℕ)) (p : ℕ) :
    multiplicity written p = (tokens written).count p := by
  induction written with
  | nil => rfl
  | cons x written ih =>
    rw [tokens_cons, List.count_append, ← ih, List.count_replicate]
    by_cases h : x.1 = p <;> simp [multiplicity, h]

theorem total_map_tokens (ts : List ℕ) (p : ℕ) :
    total (ts.map fun pr => { p := pr, e := 1 }) p = ts.count p := by
  induction ts with
  | nil => rfl
  | cons t ts ih =>
    rw [map_cons, total_cons, ih, List.count_cons]
    by_cases h : t = p <;> simp [h, add_comm]

/-- Equal primes are merged and their exponents added. -/
theorem relationCompressRatPrimes_spec (written : List (ℕ × ℕ)) :
    Merged written ((relationCompressRatPrimes
      ((tokens written).map fun pr => { p := pr, e := 1 })).map fun q => (q.p, q.e)) := by
  set ones : List RatPrime := (tokens written).map fun pr => { p := pr, e := 1 } with hones
  have htotal : ∀ p, total ones p = multiplicity written p := fun p => by
    rw [hones, total_map_tokens, multiplicity_eq_count]
  have hperm := List.mergeSort_perm ones fun x y => ratPrimeCmp x y ≤ 0
  have hsorted : (ones.mergeSort fun x y => ratPrimeCmp x y ≤ 0).Pairwise
      fun x y => x.p ≤ y.p := by
    refine (List.pairwise_mergeSort (fun a b c => ?_) (fun a b => ?_) ones).imp fun h => ?_
    · simp only [decide_eq_true_eq, ratPrimeCmp_nonpos]
      exact le_trans
    · simp only [Bool.or_eq_true, decide_eq_true_eq, ratPrimeCmp_nonpos]
      exact le_total a.p b.p
    · exact ratPrimeCmp_nonpos.mp (of_decide_eq_true h)
  obtain ⟨read, hread, hpairwise, hpos, hsum⟩ : ∃ read, relationCompressRatPrimes ones = read ∧
      read.Pairwise (fun x y => x.p < y.p) ∧ (∀ q ∈ read, 0 < q.e) ∧
      ∀ p, total read p = total ones p := by
    refine ⟨_, rfl, ?_⟩
    rw [relationCompressRatPrimes, compressPrimes]
    cases hlist : ones.mergeSort fun x y => ratPrimeCmp x y ≤ 0 with
    | nil =>
      rw [hlist] at hperm
      exact ⟨List.Pairwise.nil, by simp, fun p => total_perm hperm p⟩
    | cons x rest =>
      rw [hlist] at hperm hsorted
      have hone : ∀ q ∈ x :: rest, 0 < q.e := by
        intro q hq
        obtain ⟨t, -, rfl⟩ := mem_map.mp (hperm.mem_iff.mp hq)
        exact Nat.one_pos
      obtain ⟨hpairwise, hmem, hsum⟩ := mergeEqual_spec hsorted hone
      exact ⟨hpairwise, fun q hq => (hmem q hq).2, fun p => (hsum p).trans (total_perm hperm p)⟩
  rw [hread]
  refine ⟨List.pairwise_map.mpr hpairwise, fun p e => ?_⟩
  rw [← htotal, ← hsum, ← mem_iff_total hpairwise hpos, mem_map]
  constructor
  · rintro ⟨q, hq, heq⟩
    obtain ⟨rfl, rfl⟩ := Prod.mk.inj heq
    exact hq
  · exact fun h => ⟨_, h, rfl⟩

/-- The entry of the algebraic side, where the root is not computed. -/
def withRoot (w : ℕ) (q : RatPrime) : AlgPrime where
  p := q.p
  r := 2 ^ w - 1
  e := q.e

theorem algPrimeCmp_withRoot (w : ℕ) (a b : RatPrime) :
    algPrimeCmp (withRoot w a) (withRoot w b) = ratPrimeCmp a b := by
  unfold algPrimeCmp
  simp only [withRoot, lt_self_iff_false, if_false, sub_zero]
  change (if ratPrimeCmp a b ≠ 0 then ratPrimeCmp a b else 0) = ratPrimeCmp a b
  split_ifs with h
  · rfl
  · exact (not_not.mp h).symm

theorem mergeEqual_withRoot (w : ℕ) :
    mergeEqual algPrimeCmp (fun x y => { x with e := x.e + y.e }) (withRoot w cur)
        (rp.map (withRoot w))
      = (mergeEqual ratPrimeCmp (fun x y => { x with e := x.e + y.e }) cur rp).map
          (withRoot w) := by
  induction rp generalizing cur with
  | nil => rfl
  | cons x rp ih =>
    simp only [map_cons, mergeEqual, algPrimeCmp_withRoot]
    split_ifs
    · exact @ih { cur with e := cur.e + x.e }
    · rw [map_cons, ih]

theorem relationCompressAlgPrimes_withRoot (w : ℕ) :
    relationCompressAlgPrimes (rp.map (withRoot w))
      = (relationCompressRatPrimes rp).map (withRoot w) := by
  have hsort : (rp.map (withRoot w)).mergeSort (fun x y => algPrimeCmp x y ≤ 0)
      = (rp.mergeSort fun x y => ratPrimeCmp x y ≤ 0).map (withRoot w) :=
    (List.map_mergeSort fun a _ b _ => by rw [algPrimeCmp_withRoot]).symm
  rw [relationCompressAlgPrimes, relationCompressRatPrimes, compressPrimes, compressPrimes, hsort]
  cases rp.mergeSort fun x y => ratPrimeCmp x y ≤ 0 with
  | nil => rfl
  | cons x rest => exact mergeEqual_withRoot w

end Merge

/-! ## The round trip -/

/-- What the types of `relation_t` promise, for an unsigned long of `w` bits, and
exponents that are at least one. -/
structure Relation.Valid (w : ℕ) (rel : Relation) : Prop where
  lt_a : -2 ^ 63 < rel.a
  a_lt : rel.a < 2 ^ 63
  b_lt : rel.b < 2 ^ 64
  rational_lt : ∀ x ∈ rel.rational, x.1 < 2 ^ w
  rational_pos : ∀ x ∈ rel.rational, 1 ≤ x.2
  algebraic_lt : ∀ x ∈ rel.algebraic, x.1 < 2 ^ w
  algebraic_pos : ∀ x ∈ rel.algebraic, 1 ≤ x.2

/-- The written line, followed by `rest` in the file, gives the relation back. -/
def ReadsBack (size w : ℕ) (rs : RelationStream) (rel : Relation) (rest : List Char) : Prop :=
  ∃ nread rs', relationStreamGet size w { rs with source := fprintRelationRaw rel ++ rest }
      = some (nread, rs') ∧
    0 ≤ nread ∧ rs'.rel.a = rel.a ∧ rs'.rel.b = rel.b ∧
    Merged rel.rational rs'.rel.rational ∧ Merged rel.algebraic rs'.rel.algebraic ∧
    rs'.source = rest

section RoundTrip

variable {size w : ℕ} {rs : RelationStream} {rel : Relation}

theorem readDecimal {n : ℕ} (hn : n < 2 ^ 64) {c : Char} (hc : digitValue c = none)
    (text : List Char) :
    readNumber digitValue 10 (2 ^ 64) 0 (toDigits 10 n ++ c :: text) = (n, c :: text) :=
  readNumber_toDigits (fun d hd => digitValue_digitChar (by omega)) (by decide) hn
    (stops_cons.mpr hc)

/-- A signed number is read back modulo `2 ^ 64`. -/
theorem readSigned {a : ℤ} (hlt : -2 ^ 63 ≤ a) (hlt' : a < 2 ^ 63) {stop : Char}
    (hstop : digitValue stop = none) (text : List Char) :
    ∃ c line, printInt a ++ stop :: text = c :: line ∧ c ≠ '#' ∧
      ∃ n, readNumber digitValue 10 (2 ^ 64) 0 (if c = '-' then line else c :: line)
          = (n, stop :: text) ∧
        ((if c = '-' then (-1 : ℤ) else 1) * n).bmod (2 ^ 64) = a := by
  have habs : a.natAbs < 2 ^ 64 := by omega
  have hread := readDecimal habs hstop text
  obtain ⟨d, ds, hds⟩ := List.exists_cons_of_ne_nil
    (Nat.toDigits_ne_nil (n := a.natAbs) (b := 10))
  have hdigit : ∃ v < 10, d = digitChar v :=
    mem_toDigits (by decide) (hds ▸ mem_cons_self)
  rw [printInt]
  split_ifs with hneg
  · refine ⟨'-', _, rfl, by decide, a.natAbs, by simpa using hread, ?_⟩
    rw [if_pos rfl, Int.bmod_eq_of_le (by omega) (by omega)]
    omega
  · obtain ⟨v, hv, rfl⟩ := hdigit
    have hvalue := digitValue_digitChar (show v < 16 by omega)
    have hminus : digitChar v ≠ '-' := by
      intro heq
      rw [heq, show digitValue '-' = none by decide] at hvalue
      exact absurd hvalue (by simp)
    have hhash : digitChar v ≠ '#' := by
      intro heq
      rw [heq, show digitValue '#' = none by decide] at hvalue
      exact absurd hvalue (by simp)
    rw [hds] at hread ⊢
    refine ⟨digitChar v, _, rfl, hhash, a.natAbs, by simpa [hminus] using hread, ?_⟩
    rw [if_neg hminus, Int.bmod_eq_of_le (by omega) (by omega)]
    omega

variable (size) in
/-- A relation that was written is read back. -/
theorem relationStreamGet_line (hrel : rel.Valid w) (hrs : rs.parseOnlyAb = false)
    (primes : List Char) :
    ∃ nhead : ℕ, nhead = (printInt rel.a ++ ',' :: (toDigits 10 rel.b ++ [':'])).length ∧
      relationStreamGet size w { rs with
          source := printInt rel.a ++ ',' :: (toDigits 10 rel.b ++ ':' :: primes) }
        = (readSides w { rs.rel with a := rel.a, b := rel.b } primes).bind fun side =>
            if size < nhead + (primes.length - side.2.length) + 1 then none
            else some (((nhead + (primes.length - side.2.length) : ℕ) : ℤ), { rs with
              source := side.2, rel := side.1,
              pos := rs.pos + (nhead + (primes.length - side.2.length)),
              nrels := rs.nrels + 1, lnum := rs.lnum + 1 }) := by
  obtain ⟨c, line, hline, hhash, a, hread, ha⟩ :=
    readSigned hrel.lt_a.le hrel.a_lt digitValue_comma (toDigits 10 rel.b ++ ':' :: primes)
  refine ⟨_, rfl, ?_⟩
  have hlength := congrArg List.length hline
  have hb := readDecimal hrel.b_lt digitValue_colon primes
  rw [hline, relationStreamGet]
  simp only [skipComments, hhash, if_false, bind, bind_some, hread, expect, if_true, hb, ha,
    readRest, hrs, Bool.false_eq_true]
  rw [← hline]
  cases readSides w { rs.rel with a := rel.a, b := rel.b } primes with
  | none => rfl
  | some side =>
    obtain ⟨side, rest⟩ := side
    have hnread : (printInt rel.a ++ ',' :: (toDigits 10 rel.b ++ ':' :: primes)).length
        - primes.length + (primes.length - rest.length)
        = (printInt rel.a ++ ',' :: (toDigits 10 rel.b ++ [':'])).length
          + (primes.length - rest.length) := by
      simp only [List.length_append, length_cons, List.length_nil]
      omega
    simp only [bind_some, pure]
    rw [hnread]

theorem le_provision (n alloc : ℕ) : n ≤ provision n alloc := by
  rw [provision]
  split_ifs <;> omega

variable {primes : List (ℕ × ℕ)}

theorem tokens_ne_nil (hpos : ∀ x ∈ primes, 1 ≤ x.2) (hne : primes ≠ []) : tokens primes ≠ [] := by
  cases primes with
  | nil => exact absurd rfl hne
  | cons x primes =>
    have hx := hpos x mem_cons_self
    rw [tokens_cons, ne_eq, List.append_eq_nil_iff, List.replicate_eq_nil_iff, not_and]
    omega

theorem mem_tokens {t : ℕ} (ht : t ∈ tokens primes) : ∃ x ∈ primes, t = x.1 := by
  obtain ⟨x, hx, hmem⟩ := List.mem_flatMap.mp ht
  exact ⟨x, hx, List.eq_of_mem_replicate hmem⟩

theorem readPrimes_fprintPrimes {stop : Char} (hstop : stop = '\n' ∨ stop = ':')
    {primes : List (ℕ × ℕ)} (hlt : ∀ x ∈ primes, x.1 < 2 ^ w) (hpos : ∀ x ∈ primes, 1 ≤ x.2)
    (hne : primes ≠ []) (rest : List Char) :
    readPrimes w stop (fprintPrimes stop primes ++ rest)
      = some ((tokens primes).length, tokens primes, rest) := by
  rw [fprintPrimes_eq hpos]
  refine readPrimes_writeTokens (tokens_ne_nil hpos hne) (fun t ht => ?_) hstop rest
  obtain ⟨x, hx, rfl⟩ := mem_tokens ht
  exact hlt x hx

theorem readPrimes_colon_of_newline (hpos : ∀ x ∈ primes, 1 ≤ x.2) :
    readPrimes w ':' (fprintPrimes '\n' primes) = none := by
  rw [fprintPrimes_eq hpos]
  by_cases hts : tokens primes = []
  · rw [hts]
    rfl
  · obtain ⟨base, hbase, hchars, -⟩ := writeTokens_split _ hts
    have hread : readUntil (fun c => c = '\n' || c = ':') (base ++ '\n' :: [])
        = (base, some '\n', []) := by
      refine readUntil_append (fun d hd => ?_) (by decide)
      simpa using not_stops_of_digit (hchars d hd)
    rw [hbase, readPrimes, hread]
    rfl

theorem readSides_of_ne_nil (hrel : rel.Valid w) (hrp : rel.rp ≠ []) (hap : rel.ap ≠ [])
    (rel₀ : Relation) (rest : List Char) :
    ∃ side, readSides w rel₀
        (fprintPrimes ':' rel.rational ++ (fprintPrimes '\n' rel.algebraic ++ rest))
        = some (side, rest) ∧
      side.a = rel₀.a ∧ side.b = rel₀.b ∧ Merged rel.rational side.rational ∧
      Merged rel.algebraic side.algebraic := by
  have hrational := readPrimes_fprintPrimes (Or.inr rfl) hrel.rational_lt hrel.rational_pos
    (by simpa [Relation.rational] using hrp) (fprintPrimes '\n' rel.algebraic ++ rest)
  have halgebraic := readPrimes_fprintPrimes (Or.inl rfl) hrel.algebraic_lt hrel.algebraic_pos
    (by simpa [Relation.algebraic] using hap) rest
  rw [readSides, hrational]
  simp only [bind, bind_some, not_lt.mpr (le_provision _ _), if_false, halgebraic]
  refine ⟨_, rfl, rfl, rfl, relationCompressRatPrimes_spec rel.rational, ?_⟩
  have hmap : (tokens rel.algebraic).map (fun pr => ({ p := pr, r := 2 ^ w - 1, e := 1 } : AlgPrime))
      = ((tokens rel.algebraic).map fun pr => ({ p := pr, e := 1 } : RatPrime)).map
        (withRoot w) := by
    rw [map_map]
    rfl
  have hmerged := relationCompressRatPrimes_spec rel.algebraic
  show Merged rel.algebraic (List.map _ (relationCompressAlgPrimes _))
  rw [hmap, relationCompressAlgPrimes_withRoot, map_map]
  exact hmerged

theorem readSides_of_nil (hrel : rel.Valid w) (hempty : rel.rp = [] ∨ rel.ap = [])
    (rel₀ : Relation) :
    readSides w rel₀ (fprintPrimes ':' rel.rational ++ fprintPrimes '\n' rel.algebraic) = none := by
  by_cases hrp : rel.rp = []
  · have hnone := readPrimes_colon_of_newline (w := w) hrel.algebraic_pos
    rw [readSides]
    simp only [Relation.rational, hrp, map_nil, fprintPrimes, List.zipIdx_nil,
      List.flatMap_nil, List.nil_append]
    rw [fprintPrimes] at hnone
    simp [hnone]
  · have hap := hempty.resolve_left hrp
    have hrational := readPrimes_fprintPrimes (Or.inr rfl) hrel.rational_lt hrel.rational_pos
      (by simpa [Relation.rational] using hrp) (fprintPrimes '\n' rel.algebraic)
    rw [readSides, hrational]
    simp only [bind, bind_some, not_lt.mpr (le_provision _ _), if_false]
    rw [Relation.algebraic, hap]
    rfl

/-- The line of a relation is read back exactly if both sides have a prime and the line fits
in the buffer with its final `NUL`; then it is read back whatever follows it. -/
theorem relationStreamGet_fprintRelationRaw (hrel : rel.Valid w) (hrs : rs.parseOnlyAb = false) :
    (ReadsBack size w rs rel [] ↔
      rel.rp ≠ [] ∧ rel.ap ≠ [] ∧ (fprintRelationRaw rel).length < size) ∧
    (rel.rp ≠ [] → rel.ap ≠ [] → (fprintRelationRaw rel).length < size →
      ∀ rest, ReadsBack size w rs rel rest) := by
  have hsource : ∀ rest, fprintRelationRaw rel ++ rest
      = printInt rel.a ++ ',' :: (toDigits 10 rel.b ++ ':' ::
        (fprintPrimes ':' rel.rational ++ (fprintPrimes '\n' rel.algebraic ++ rest))) := by
    intro rest
    simp [fprintRelationRaw, List.append_assoc]
  have hlength : ∀ rest : List Char,
      (printInt rel.a ++ ',' :: (toDigits 10 rel.b ++ [':'])).length
        + ((fprintPrimes ':' rel.rational ++ (fprintPrimes '\n' rel.algebraic ++ rest)).length
          - rest.length) = (fprintRelationRaw rel).length := by
    intro rest
    simp only [fprintRelationRaw, List.length_append, length_cons, List.length_nil]
    omega
  have hgood : rel.rp ≠ [] → rel.ap ≠ [] → (fprintRelationRaw rel).length < size →
      ∀ rest, ReadsBack size w rs rel rest := by
    intro hrp hap hsize rest
    obtain ⟨nhead, rfl, hget⟩ := relationStreamGet_line size hrel hrs
      (fprintPrimes ':' rel.rational ++ (fprintPrimes '\n' rel.algebraic ++ rest))
    obtain ⟨side, hside, ha, hb, hrational, halgebraic⟩ :=
      readSides_of_ne_nil hrel hrp hap { rs.rel with a := rel.a, b := rel.b } rest
    simp only [hside, bind_some, hlength] at hget
    rw [if_neg (by omega), ← hsource] at hget
    exact ⟨_, _, hget, Int.natCast_nonneg _, ha, hb, hrational, halgebraic, rfl⟩
  refine ⟨⟨fun hreads => ?_, fun h => hgood h.1 h.2.1 h.2.2 []⟩, hgood⟩
  obtain ⟨nread, rs', hrun, -⟩ := hreads
  obtain ⟨nhead, rfl, hget⟩ := relationStreamGet_line _ hrel hrs
    (fprintPrimes ':' rel.rational ++ (fprintPrimes '\n' rel.algebraic ++ []))
  rw [← hsource, hrun] at hget
  by_cases hempty : rel.rp = [] ∨ rel.ap = []
  · rw [List.append_nil, readSides_of_nil hrel hempty] at hget
    exact absurd hget (by simp)
  · obtain ⟨hrp, hap⟩ := not_or.mp hempty
    obtain ⟨side, hside, -⟩ :=
      readSides_of_ne_nil hrel hrp hap { rs.rel with a := rel.a, b := rel.b } []
    simp only [hside, bind_some, hlength] at hget
    refine ⟨hrp, hap, ?_⟩
    by_contra hlong
    rw [if_pos (by omega)] at hget
    exact absurd hget (by simp)

/-- A stream after `relation_stream_init`, with nothing to read yet. -/
def relationStreamInit : RelationStream where
  source := []
  rel := { a := 0, b := 0, rp := [], ap := [], nbRpAlloc := 0, nbApAlloc := 0 }
  parseOnlyAb := false
  pos := 0
  nrels := 0
  lnum := 0

/-- A relation with a prime that is written twice. -/
def smallRelation : Relation where
  a := -5
  b := 3
  rp := [{ p := 11, e := 2 }, { p := 2, e := 1 }]
  ap := [{ p := 7, r := 4, e := 1 }]
  nbRpAlloc := 2
  nbApAlloc := 1

/-- It is read back. -/
theorem relationStreamGet_fprintRelationRaw_small :
    ReadsBack 4096 64 relationStreamInit smallRelation [] :=
  (relationStreamGet_fprintRelationRaw
    ⟨by decide, by decide, by decide, by decide, by decide, by decide, by decide⟩ rfl).1.mpr
    ⟨by decide, by decide, by decide⟩

/-- The line of a relation without rational primes is not. -/
theorem not_readsBack_of_nil :
    ¬ ReadsBack 4096 64 relationStreamInit { smallRelation with rp := [] } [] := by
  rintro ⟨nread, rs', hrun, -⟩
  have hnone : relationStreamGet 4096 64 { relationStreamInit with
      source := fprintRelationRaw { smallRelation with rp := [] } ++ [] } = none := rfl
  rw [hnone] at hrun
  exact absurd hrun (by simp)

end RoundTrip

end CadoNfs
