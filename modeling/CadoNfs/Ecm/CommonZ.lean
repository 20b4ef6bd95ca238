import CadoNfs.Ecm.Pp1Stage2

/-!
# Points with one common denominator

`common_z` multiplies the first coordinate of every point of two tables by the second
coordinates of all the others, with products from the front in an array and one from the back.

Main results:

- Theorem `commonZPrefix_spec`: the products from the front.
- Theorem `commonZLoop_spec`: the loop from the back, over either table.
- Theorem `commonZ_spec`: both tables, of which one may be empty.
-/

namespace CadoNfs

open Function (update update_idem update_of_ne update_self)
open WordArith
open Finset (Ico mem_Ico mem_range prod_empty range)

variable {ρ : Type}

/-! ## Code -/

/-- A write to an array; one past its end is taken for a failed assertion. -/
def writeAt {α : Type} (xs : List α) (i : ℕ) (a : α) : Outcome (List α) :=
  if i < xs.length then pure (xs.set i a) else .abort

section Code

variable (ops : RingOps ρ)

/-- `mod_mul (x[i], x[i], a, m)`. -/
def mulAt (x : List ρ) (i : ℕ) (a : ρ) : Outcome (List ρ) := do
  let b ← readAt x i
  let b ← ops.mul b a
  writeAt x i b

/-- The loop that sets `t[i + off]` to `t[i + off - 1] * z[i]` for `i < n`. -/
def commonZPrefix (z : List ρ) (off n : ℕ) : ℕ → ℕ → List ρ → Outcome (List ρ)
  | 0, _, _ => .abort
  | fuel + 1, i, t =>
    if i < n then do
      let a ← readAt t (i + off - 1)
      let b ← readAt z i
      let a ← ops.mul a b
      let t ← writeAt t (i + off) a
      commonZPrefix z off n fuel (i + 1) t
    else pure t

/-- The loop from the back over a table whose entries follow `off` others, as long as
`go` holds of the counter. -/
def commonZLoop (go : ℤ → Bool) (t z : List ρ) (off : ℕ) :
    ℕ → ℤ → List ρ → ρ → Outcome (ℤ × List ρ × ρ)
  | 0, _, _, _ => .abort
  | fuel + 1, i, x, p =>
    if go i then do
      let x ← mulAt ops x i.toNat p
      let a ← readAt t (i.toNat + off - 1)
      let x ← mulAt ops x i.toNat a
      let b ← readAt z i.toNat
      let p ← ops.mul p b
      commonZLoop go t z off fuel (i - 1) x p
    else pure (i, x, p)

/-- One of two tables is multiplied at an entry. -/
def mulAtEither (first : Bool) (x1 x2 : List ρ) (i : ℕ) (a : ρ) :
    Outcome (List ρ × List ρ) :=
  if first then do
    let x1 ← mulAt ops x1 i a
    pure (x1, x2)
  else do
    let x2 ← mulAt ops x2 i a
    pure (x1, x2)

/-- The first half of `common_z`: "Set t[i] = z_0 * z_1 * ... * z_n, where the z_i are taken
from the two lists z1 and z2". -/
def commonZFront (zero : ρ) (n1 : ℕ) (z1 : List ρ) (n2 : ℕ) (z2 : List ρ) : Outcome (List ρ) := do
  let a ← if n1 = 0 then readAt z2 0 else readAt z1 0
  let t ← writeAt (List.replicate (n1 + n2) zero) 0 a
  let t ← commonZPrefix ops z1 0 n1 (n1 + 1) (if n1 = 0 then 0 else 1) t
  commonZPrefix ops z2 n1 n2 (n2 + 1) (if n1 = 0 then 1 else 0) t

/-- The second half of `common_z`. -/
def commonZBack (n1 : ℕ) (x1 z1 : List ρ) (n2 : ℕ) (x2 z2 t : List ρ) :
    Outcome (List ρ × List ρ) := do
  let n := n1 + n2
  let a ← readAt t (n - 2)
  let (x1, x2) ← if n - 1 < n1 then mulAtEither ops true x1 x2 (n - 1) a
    else mulAtEither ops false x1 x2 (n - 1 - n1) a
  let p ← if n2 > 0 then readAt z2 (n2 - 1) else readAt z1 (n1 - 1)
  let (i, x2, p) ← commonZLoop ops (fun i => decide (i > -n1 ∧ i ≥ 0)) t z2 n1 (n2 + 1)
    (n2 - 2) x2 p
  let (_, x1, p) ← commonZLoop ops (fun i => decide (i > 0)) t z1 0 (n1 + 1) (i + n1) x1 p
  mulAtEither ops (decide (n1 > 0)) x1 x2 0 p

/-- `common_z`; the counts are of type `int`, and a sum that overflows is taken for a
failed assertion. -/
def commonZ (zero : ρ) (n1 : ℕ) (x1 z1 : List ρ) (n2 : ℕ) (x2 z2 : List ρ) :
    Outcome (List ρ × List ρ) := do
  Outcome.assert (n1 + n2 < 2 ^ 31)
  if n1 + n2 < 2 then pure (x1, x2)
  else do
    let t ← commonZFront ops zero n1 z1 n2 z2
    commonZBack ops n1 x1 z1 n2 x2 z2 t

end Code

/-! ## Arrays that stand for sequences -/

section Arrays

variable {R : Type*} {Rep : R → ρ → Prop} {f : ℕ → R} {n i : ℕ} {xs : List ρ} {y : R} {a : ρ}

/-- The first `n` entries of an array stand for the terms of a sequence. -/
def StandsFor (Rep : R → ρ → Prop) (f : ℕ → R) (n : ℕ) (xs : List ρ) : Prop :=
  ∀ i < n, ∃ a, xs[i]? = some a ∧ Rep (f i) a

theorem StandsFor.le_length (h : StandsFor Rep f n xs) : n ≤ xs.length := by
  cases n with
  | zero => exact Nat.zero_le _
  | succ n =>
    obtain ⟨a, ha, -⟩ := h n n.lt_succ_self
    exact (List.getElem?_eq_some_iff.mp ha).1

theorem StandsFor.readAt (h : StandsFor Rep f n xs) (hi : i < n) :
    ∃ a, readAt xs i = pure a ∧ Rep (f i) a := by
  obtain ⟨a, ha, hrep⟩ := h i hi
  exact ⟨a, by rw [CadoNfs.readAt, ha], hrep⟩

theorem StandsFor.congr {g : ℕ → R} (h : StandsFor Rep f n xs) (hfg : ∀ i < n, f i = g i) :
    StandsFor Rep g n xs := by
  intro i hi
  rw [← hfg i hi]
  exact h i hi

theorem StandsFor.writeAt (h : StandsFor Rep f n xs) (hi : i < xs.length) (ha : Rep y a) :
    ∃ xs', writeAt xs i a = pure xs' ∧ xs'.length = xs.length ∧
      StandsFor Rep (update f i y) n xs' := by
  refine ⟨xs.set i a, by rw [CadoNfs.writeAt, if_pos hi], List.length_set, fun j hj => ?_⟩
  by_cases hji : j = i
  · subst hji
    exact ⟨a, List.getElem?_set_self hi, by rwa [update_self]⟩
  · rw [List.getElem?_set_ne (Ne.symm hji), update_of_ne hji]
    exact h j hj

theorem StandsFor.extend (h : StandsFor Rep f n xs) (hn : n < xs.length) (ha : Rep (f n) a) :
    ∃ xs', CadoNfs.writeAt xs n a = pure xs' ∧ xs'.length = xs.length ∧
      StandsFor Rep f (n + 1) xs' := by
  refine ⟨xs.set n a, by rw [CadoNfs.writeAt, if_pos hn], List.length_set, fun j hj => ?_⟩
  by_cases hjn : j = n
  · subst hjn
    exact ⟨a, List.getElem?_set_self hn, ha⟩
  · rw [List.getElem?_set_ne (Ne.symm hjn)]
    exact h j (by omega)

theorem StandsFor.drop (h : StandsFor Rep f n xs) (k : ℕ) :
    StandsFor Rep (fun i => f (i + k)) (n - k) (xs.drop k) := by
  intro i hi
  rw [List.getElem?_drop, add_comm k]
  exact h (i + k) (by omega)

theorem StandsFor.take_append {g : ℕ → R} {k m : ℕ} {ys : List ρ}
    (hxs : StandsFor Rep f k xs) (hys : StandsFor Rep g m ys) :
    StandsFor Rep (fun i => if i < k then f i else g (i - k)) (k + m) (xs.take k ++ ys) := by
  intro i hi
  have hlen : (xs.take k).length = k := List.length_take_of_le hxs.le_length
  by_cases hik : i < k
  · rw [List.getElem?_append_left (by omega), List.getElem?_take_of_lt hik]
    simpa only [if_pos hik] using hxs i hik
  · rw [List.getElem?_append_right (by omega), hlen]
    simpa only [if_neg hik] using hys (i - k) (by omega)

end Arrays

/-! ## Products from the front and from the back -/

section Products

variable {ops : RingOps ρ} {R : Type*} [CommRing R] {Rep : R → ρ → Prop} {f g : ℕ → R}
  {n N off i : ℕ} {x z t : List ρ} {y : R} {a p : ρ}

theorem mulAt_spec (h : ops.Models Rep) (hx : StandsFor Rep f n x) (hi : i < n) (ha : Rep y a) :
    ∃ x', mulAt ops x i a = pure x' ∧ x'.length = x.length ∧
      StandsFor Rep (update f i (f i * y)) n x' := by
  obtain ⟨b, hb, hbrep⟩ := hx.readAt hi
  obtain ⟨c, hc, hcrep⟩ := h.mul hbrep ha
  obtain ⟨x', hx', hlen, hstands⟩ := hx.writeAt (hi.trans_le hx.le_length) hcrep
  exact ⟨x', by simp [mulAt, hb, hc, hx'], hlen, hstands⟩

/-- The products from the front. -/
def frontProduct (g : ℕ → R) (i : ℕ) : R :=
  ∏ j ∈ range (i + 1), g j

/-- The loop appends products to those that are there. -/
theorem commonZPrefix_spec (off : ℕ) (h : ops.Models Rep) (hz : StandsFor Rep (fun i => g (i + off)) n z)
    (hin : i ≤ n) (hpos : 0 < i + off) (ht : StandsFor Rep (frontProduct g) (i + off) t)
    (hlen : n + off ≤ t.length) {fuel : ℕ} (hfuel : n - i < fuel) :
    ∃ t', commonZPrefix ops z off n fuel i t = pure t' ∧ t'.length = t.length ∧
      StandsFor Rep (frontProduct g) (n + off) t' := by
  induction fuel generalizing i t with
  | zero => omega
  | succ fuel ih =>
    rw [commonZPrefix]
    by_cases hlt : i < n
    · obtain ⟨a, ha, harep⟩ := ht.readAt (i := i + off - 1) (by omega)
      obtain ⟨b, hb, hbrep⟩ := hz.readAt hlt
      obtain ⟨c, hc, hcrep⟩ := h.mul harep hbrep
      have hnext : frontProduct g (i + off - 1) * g (i + off) = frontProduct g (i + off) := by
        rw [frontProduct, frontProduct, Nat.sub_add_cancel hpos, Finset.prod_range_succ]
      rw [hnext] at hcrep
      obtain ⟨t₁, ht₁, hlen₁, hstands⟩ := ht.extend (by omega) hcrep
      obtain ⟨t', ht', hlen', hall⟩ := ih (i := i + 1) (by omega) (by omega)
        (by rwa [add_right_comm]) (by omega) (by omega)
      refine ⟨t', ?_, hlen'.trans hlen₁, hall⟩
      simp [if_pos hlt, ha, hb, hc, ht₁, ht']
    · obtain rfl : i = n := by omega
      exact ⟨t, if_neg hlt, rfl, ht⟩

theorem commonZPrefix_empty (z : List ρ) (off fuel i : ℕ) (t : List ρ) :
    commonZPrefix ops z off 0 (fuel + 1) i t = pure t :=
  if_neg (Nat.not_lt_zero i)

/-- The product of all the other denominators. -/
def othersProduct (g : ℕ → R) (N i : ℕ) : R :=
  ∏ j ∈ (range N).erase i, g j

theorem othersProduct_eq (hi : i < N) :
    othersProduct g N i = (∏ j ∈ Ico (i + 1) N, g j) * ∏ j ∈ range i, g j := by
  have hdisjoint : Disjoint (Ico (i + 1) N) (range i) := by
    rw [Finset.disjoint_left]
    intro j hj hj'
    rw [mem_Ico] at hj
    rw [mem_range] at hj'
    omega
  rw [othersProduct, ← Finset.prod_union hdisjoint]
  congr 1
  ext j
  simp only [Finset.mem_erase, mem_range, Finset.mem_union, mem_Ico]
  omega

/-- A table whose entries follow `off` others, when the entries from the place `m` on are
multiplied. -/
def commonFrom (f g : ℕ → R) (N off m : ℕ) (i : ℕ) : R :=
  if m ≤ i + off then f i * othersProduct g N (i + off) else f i

theorem commonFrom_update {q : R} (hq : q = othersProduct g N (i + off)) :
    update (commonFrom f g N off (i + off + 1)) i
      (commonFrom f g N off (i + off + 1) i * q) = commonFrom f g N off (i + off) := by
  funext j
  by_cases hji : j = i
  · subst hji
    rw [update_self, commonFrom, commonFrom, if_neg (by omega), if_pos le_rfl, hq]
  · rw [update_of_ne hji, commonFrom, commonFrom]
    congr 1
    rw [eq_iff_iff]
    omega

theorem mulAt_twice (h : ops.Models Rep)
    (hx : StandsFor Rep (commonFrom f g N off (i + off + 1)) n x) (hi : i < n)
    (hN : i + off < N) (hpos : 0 < i + off) (ht : StandsFor Rep (frontProduct g) N t)
    (hp : Rep (∏ j ∈ Ico (i + off + 1) N, g j) p) :
    ∃ x₁ a x₂, mulAt ops x i p = pure x₁ ∧ readAt t (i + off - 1) = pure a ∧
      mulAt ops x₁ i a = pure x₂ ∧ x₂.length = x.length ∧
      StandsFor Rep (commonFrom f g N off (i + off)) n x₂ := by
  obtain ⟨x₁, hx₁, hlen₁, hstands₁⟩ := mulAt_spec h hx hi hp
  obtain ⟨a, ha, harep⟩ := ht.readAt (i := i + off - 1) (by omega)
  obtain ⟨x₂, hx₂, hlen₂, hstands₂⟩ := mulAt_spec h hstands₁ hi harep
  refine ⟨x₁, a, x₂, hx₁, ha, hx₂, hlen₂.trans hlen₁, ?_⟩
  rwa [update_idem, update_self, mul_assoc, commonFrom_update] at hstands₂
  rw [othersProduct_eq hN, frontProduct, Nat.sub_add_cancel hpos]

theorem commonZLoop_stop {go : ℤ → Bool} {fuel : ℕ} {i : ℤ} (hi : go i = false) :
    commonZLoop ops go t z off (fuel + 1) i x p = pure (i, x, p) := by
  rw [commonZLoop, hi, if_neg Bool.false_ne_true]

/-- From the entry `k` down to `low`: the counter is one less. -/
theorem commonZLoop_spec (off low : ℕ) (go : ℤ → Bool) (h : ops.Models Rep) {k : ℕ}
    (hgo : ∀ j : ℤ, -1 ≤ j → (go j = true ↔ low ≤ j)) (hlow : low ≤ k) (hk : k ≤ n)
    (hN : n + off ≤ N) (hpos : 0 < low + off) (ht : StandsFor Rep (frontProduct g) N t)
    (hz : StandsFor Rep (fun i => g (i + off)) n z)
    (hx : StandsFor Rep (commonFrom f g N off (k + off)) n x)
    (hp : Rep (∏ j ∈ Ico (k + off) N, g j) p) {fuel : ℕ} (hfuel : k < fuel) :
    ∃ x' p', commonZLoop ops go t z off fuel (k - 1) x p = pure ((low : ℤ) - 1, x', p') ∧
      x'.length = x.length ∧ StandsFor Rep (commonFrom f g N off (low + off)) n x' ∧
      Rep (∏ j ∈ Ico (low + off) N, g j) p' := by
  induction fuel generalizing k x p with
  | zero => omega
  | succ fuel ih =>
    rw [commonZLoop]
    by_cases hlt : low < k
    · obtain ⟨k, rfl⟩ := Nat.exists_eq_add_one_of_ne_zero (by omega : k ≠ 0)
      have hcount : ((k + 1 : ℕ) : ℤ) - 1 = k := by omega
      rw [hcount, if_pos ((hgo k (by omega)).mpr (by omega)), Int.toNat_natCast]
      rw [add_right_comm] at hx hp
      obtain ⟨x₁, a, x₂, hx₁, ha, hx₂, hlen, hstands⟩ :=
        mulAt_twice h hx (by omega) (by omega) (by omega) ht hp
      obtain ⟨b, hb, hbrep⟩ := hz.readAt (i := k) (by omega)
      obtain ⟨q, hq, hqrep⟩ := h.mul hp hbrep
      rw [mul_comm, ← Finset.prod_eq_prod_Ico_succ_bot (by omega)] at hqrep
      obtain ⟨x', p', hrun, hlen', hstands', hp'⟩ :=
        ih (by omega) (by omega) hstands hqrep (by omega)
      refine ⟨x', p', ?_, hlen'.trans hlen, hstands', hp'⟩
      simp [hx₁, ha, hx₂, hb, hq, hrun]
    · obtain rfl : k = low := by omega
      have hstop : ¬go ((k : ℤ) - 1) = true := by
        rw [hgo _ (by omega)]
        omega
      exact ⟨x, p, by rw [if_neg hstop], rfl, hx, hp⟩

theorem StandsFor.start {m : ℕ} (hx : StandsFor Rep f n x) (hm : n + off ≤ m) :
    StandsFor Rep (commonFrom f g N off m) n x :=
  hx.congr fun i hi => (if_neg (by omega)).symm

theorem mulAt_others (off : ℕ) (h : ops.Models Rep)
    (hx : StandsFor Rep (commonFrom f g N off (i + off + 1)) n x) (hi : i < n)
    (ha : Rep (othersProduct g N (i + off)) a) :
    ∃ x', mulAt ops x i a = pure x' ∧ x'.length = x.length ∧
      StandsFor Rep (commonFrom f g N off (i + off)) n x' := by
  obtain ⟨x', hx', hlen, hstands⟩ := mulAt_spec h hx hi ha
  exact ⟨x', hx', hlen, by rwa [commonFrom_update rfl] at hstands⟩

theorem frontProduct_eq_others (hN : 2 ≤ N) (hi : i + 1 = N) :
    frontProduct g (N - 2) = othersProduct g N i := by
  rw [othersProduct_eq (by omega), hi, Finset.Ico_self, prod_empty, one_mul, frontProduct,
    show N - 2 + 1 = i by omega]

theorem prod_Ico_eq_others (hN : 0 < N) :
    ∏ j ∈ Ico 1 N, g j = othersProduct g N 0 := by
  rw [othersProduct_eq hN, Finset.range_zero, prod_empty, mul_one]

end Products

/-! ## The two tables -/

section Tables

variable {ops : RingOps ρ} {R : Type*} [CommRing R] {Rep : R → ρ → Prop} {f₁ f₂ g : ℕ → R}
  {n1 n2 : ℕ} {x1 z1 x2 z2 t : List ρ}

theorem commonZFront_spec (zero : ρ) (h : ops.Models Rep) (hz1 : StandsFor Rep g n1 z1)
    (hz2 : StandsFor Rep (fun i => g (i + n1)) n2 z2) (hn : 0 < n1 + n2) :
    ∃ t, commonZFront ops zero n1 z1 n2 z2 = pure t ∧ t.length = n1 + n2 ∧
      StandsFor Rep (frontProduct g) (n1 + n2) t := by
  have hempty : StandsFor Rep (frontProduct g) 0 (List.replicate (n1 + n2) zero) := nofun
  have hfront : frontProduct g 0 = g 0 := by simp [frontProduct]
  cases n1 with
  | zero =>
    obtain ⟨a, ha, harep⟩ := hz2.readAt (i := 0) (by omega)
    obtain ⟨t, ht, hlen, hstands⟩ := hempty.extend (by simpa using hn) (by rwa [hfront])
    rw [List.length_replicate] at hlen
    obtain ⟨t', ht', hlen', hall⟩ := commonZPrefix_spec 0 h hz2 (i := 1) (by omega) (by omega)
      (by simpa using hstands) (by omega) (by omega : n2 - 1 < n2 + 1)
    refine ⟨t', ?_, hlen'.trans hlen, by rwa [zero_add, ← add_zero n2]⟩
    simp only [commonZFront, if_pos, ha, ht, commonZPrefix_empty, ht', pure_bind]
  | succ n1 =>
    obtain ⟨a, ha, harep⟩ := hz1.readAt (i := 0) (by omega)
    obtain ⟨t, ht, hlen, hstands⟩ := hempty.extend (by simp) (by rwa [hfront])
    rw [List.length_replicate] at hlen
    obtain ⟨t₁, ht₁, hlen₁, hstands₁⟩ := commonZPrefix_spec 0 h hz1 (i := 1) (by omega)
      (by omega) (by simpa using hstands) (by omega) (by omega : n1 + 1 - 1 < n1 + 1 + 1)
    obtain ⟨t', ht', hlen', hall⟩ := commonZPrefix_spec (n1 + 1) h hz2 (i := 0) (by omega) (by omega)
      (by simpa using hstands₁) (by omega) (by omega : n2 - 0 < n2 + 1)
    refine ⟨t', ?_, (hlen'.trans hlen₁).trans hlen, by rwa [add_comm]⟩
    simp [commonZFront, ha, ht, ht₁, ht']

/-- What `common_z` does to two tables: every entry is multiplied by the denominators of all
the other entries of both. -/
structure CommonZCorrect (Rep : R → ρ → Prop) (f₁ f₂ g : ℕ → R) (n1 n2 : ℕ)
    (x1 x2 x1' x2' : List ρ) : Prop where
  length_first : x1'.length = x1.length
  length_second : x2'.length = x2.length
  first : StandsFor Rep (fun i => f₁ i * othersProduct g (n1 + n2) i) n1 x1'
  second : StandsFor Rep (fun i => f₂ i * othersProduct g (n1 + n2) (i + n1)) n2 x2'

theorem StandsFor.of_commonFrom {f : ℕ → R} {N n : ℕ} {x : List ρ} (off : ℕ)
    (hx : StandsFor Rep (commonFrom f g N off off) n x) :
    StandsFor Rep (fun i => f i * othersProduct g N (i + off)) n x :=
  hx.congr fun i _ => if_pos (by omega)

theorem commonZBack_first (x2 z2 : List ρ) (h : ops.Models Rep) (hx1 : StandsFor Rep f₁ n1 x1)
    (hz1 : StandsFor Rep g n1 z1) (hn : 2 ≤ n1) (ht : StandsFor Rep (frontProduct g) n1 t) :
    ∃ x1', commonZBack ops n1 x1 z1 0 x2 z2 t = pure (x1', x2) ∧ x1'.length = x1.length ∧
      StandsFor Rep (fun i => f₁ i * othersProduct g n1 i) n1 x1' := by
  obtain ⟨n, rfl⟩ : ∃ n, n1 = n + 1 := ⟨n1 - 1, by omega⟩
  obtain ⟨a, ha, harep⟩ := ht.readAt (i := n + 1 - 2) (by omega)
  rw [frontProduct_eq_others hn rfl] at harep
  obtain ⟨y, hy, hylen, hystands⟩ := mulAt_others 0 h
    (hx1.start (by omega : n + 1 + 0 ≤ n + 0 + 1)) (by omega) harep
  obtain ⟨p, hp, hprep⟩ := hz1.readAt (i := n) (by omega)
  have hIco : ∏ j ∈ Ico (n + 0) (n + 1), g j = g n := by simp
  rw [← hIco] at hprep
  obtain ⟨y', p', hloop, hlen', hstands', hp'⟩ := commonZLoop_spec 0 1
    (fun i => decide (i > 0)) h (by intro j hj; simp; omega) (by omega) (by omega) (by omega)
    (by omega) ht hz1 hystands hprep (by omega : n < n + 1 + 1)
  rw [add_zero, prod_Ico_eq_others (by omega)] at hp'
  obtain ⟨y'', hy'', hlen'', hstands''⟩ := mulAt_others 0 h hstands' (by omega) hp'
  refine ⟨y'', ?_, hlen''.trans (hlen'.trans hylen), hstands''.of_commonFrom 0⟩
  have hcount : ((0 : ℕ) : ℤ) - 2 + ((n + 1 : ℕ) : ℤ) = (n : ℤ) - 1 := by omega
  simp only [commonZBack, add_zero, ha, mulAtEither, Nat.add_sub_cancel, hy, hp,
    if_pos n.lt_succ_self, lt_irrefl, if_true, if_false, pure_bind]
  rw [commonZLoop_stop (by simp), pure_bind]
  simp only [hcount, hloop, pure_bind, hy'', Nat.succ_pos, gt_iff_lt, decide_true, if_true]

theorem commonZ_last (h : ops.Models Rep) (hx2 : StandsFor Rep f₂ (n2 + 1) x2)
    (hz2 : StandsFor Rep (fun i => g (i + n1)) (n2 + 1) z2) (hn : 1 ≤ n1 + n2)
    (ht : StandsFor Rep (frontProduct g) (n1 + (n2 + 1)) t) :
    ∃ a y p, readAt t (n1 + (n2 + 1) - 2) = pure a ∧ mulAt ops x2 n2 a = pure y ∧
      readAt z2 n2 = pure p ∧ y.length = x2.length ∧
      StandsFor Rep (commonFrom f₂ g (n1 + (n2 + 1)) n1 (n2 + n1)) (n2 + 1) y ∧
      Rep (∏ j ∈ Ico (n2 + n1) (n1 + (n2 + 1)), g j) p := by
  obtain ⟨a, ha, harep⟩ := ht.readAt (i := n1 + (n2 + 1) - 2) (by omega)
  rw [frontProduct_eq_others (i := n2 + n1) (by omega) (by omega)] at harep
  obtain ⟨y, hy, hylen, hystands⟩ := mulAt_others n1 h
    (hx2.start (by omega : n2 + 1 + n1 ≤ n2 + n1 + 1)) (by omega) harep
  obtain ⟨p, hp, hprep⟩ := hz2.readAt (i := n2) (by omega)
  have hIco : ∏ j ∈ Ico (n2 + n1) (n1 + (n2 + 1)), g j = g (n2 + n1) := by
    rw [show n1 + (n2 + 1) = n2 + n1 + 1 by omega, Nat.Ico_succ_singleton, Finset.prod_singleton]
  exact ⟨a, y, p, ha, hy, hp, hylen, hystands, by rwa [hIco]⟩

theorem commonZBack_second (x1 z1 : List ρ) (h : ops.Models Rep) (hx2 : StandsFor Rep f₂ (n2 + 1) x2)
    (hz2 : StandsFor Rep (fun i => g (i + 0)) (n2 + 1) z2) (hn : 1 ≤ n2)
    (ht : StandsFor Rep (frontProduct g) (0 + (n2 + 1)) t) :
    ∃ x2', commonZBack ops 0 x1 z1 (n2 + 1) x2 z2 t = pure (x1, x2') ∧ x2'.length = x2.length ∧
      StandsFor Rep (fun i => f₂ i * othersProduct g (0 + (n2 + 1)) (i + 0)) (n2 + 1) x2' := by
  obtain ⟨a, y, p, ha, hy, hp, hylen, hystands, hprep⟩ :=
    commonZ_last h hx2 hz2 (by omega) ht
  obtain ⟨y', p', hloop, hlen', hstands', hp'⟩ := commonZLoop_spec 0 1
    (fun i => decide (i > -(0 : ℕ) ∧ i ≥ 0)) h
    (by intro j hj; simp; omega) hn (by omega) (by omega) (by omega) ht hz2 hystands hprep
    (by omega : n2 < n2 + 1 + 1)
  rw [add_zero, prod_Ico_eq_others (by omega)] at hp'
  obtain ⟨y'', hy'', hlen'', hstands''⟩ := mulAt_others 0 h hstands' (by omega) hp'
  refine ⟨y'', ?_, hlen''.trans (hlen'.trans hylen), ?_⟩
  · have hcount : ((n2 + 1 : ℕ) : ℤ) - 2 = (n2 : ℤ) - 1 := by omega
    have hindex : 0 + (n2 + 1) - 1 - 0 = n2 := by omega
    simp only [commonZBack, ha, mulAtEither, Nat.not_lt_zero, if_false, hindex, Bool.false_eq_true,
      Nat.add_sub_cancel, hy, gt_iff_lt, Nat.succ_pos, if_true, hp, hcount, pure_bind]
    simp only [gt_iff_lt] at hloop
    rw [hloop, pure_bind, commonZLoop_stop (by simp), pure_bind]
    simp [hy'']
  · exact (by simpa using hstands'' : StandsFor Rep _ _ _).of_commonFrom 0

theorem commonZBack_both (h : ops.Models Rep) (hx1 : StandsFor Rep f₁ (n1 + 1) x1)
    (hz1 : StandsFor Rep g (n1 + 1) z1) (hx2 : StandsFor Rep f₂ (n2 + 1) x2)
    (hz2 : StandsFor Rep (fun i => g (i + (n1 + 1))) (n2 + 1) z2)
    (ht : StandsFor Rep (frontProduct g) (n1 + 1 + (n2 + 1)) t) :
    ∃ x1' x2', commonZBack ops (n1 + 1) x1 z1 (n2 + 1) x2 z2 t = pure (x1', x2') ∧
      CommonZCorrect Rep f₁ f₂ g (n1 + 1) (n2 + 1) x1 x2 x1' x2' := by
  obtain ⟨a, y, p, ha, hy, hp, hylen, hystands, hprep⟩ :=
    commonZ_last h hx2 hz2 (by omega) ht
  obtain ⟨y', p', hloop, hlen', hstands', hp'⟩ := commonZLoop_spec (n1 + 1) 0
    (fun i => decide (i > -((n1 + 1 : ℕ) : ℤ) ∧ i ≥ 0)) h
    (by intro j hj; simp; omega) (by omega) (by omega) (by omega) (by omega) ht hz2 hystands hprep
    (by omega : n2 < n2 + 1 + 1)
  rw [zero_add] at hp' hstands'
  obtain ⟨u, q, hloop₁, hulen, hustands, hq⟩ := commonZLoop_spec 0 1
    (fun i => decide (i > 0)) h (k := n1 + 1) (by intro j hj; simp; omega)
    (by omega) le_rfl (by omega) (by omega) ht hz1 (hx1.start le_rfl) hp'
    (by omega : n1 + 1 < n1 + 1 + 1)
  rw [add_zero, prod_Ico_eq_others (by omega)] at hq
  obtain ⟨u', hu', hulen', hustands'⟩ := mulAt_others 0 h hustands (by omega) hq
  refine ⟨u', y', ?_, hulen'.trans hulen, hlen'.trans hylen,
    hustands'.of_commonFrom 0, hstands'.of_commonFrom _⟩
  have hcount : ((n2 + 1 : ℕ) : ℤ) - 2 = (n2 : ℤ) - 1 := by omega
  have hcount₁ : (0 : ℤ) - 1 + ((n1 + 1 : ℕ) : ℤ) = ((n1 + 1 : ℕ) : ℤ) - 1 := by omega
  have hlast : ¬n1 + 1 + (n2 + 1) - 1 < n1 + 1 := by omega
  have hindex : n1 + 1 + (n2 + 1) - 1 - (n1 + 1) = n2 := by omega
  simp only [commonZBack, ha, mulAtEither, if_neg hlast, hindex, hy, hp, hcount, hloop,
    Nat.cast_zero, hcount₁, hloop₁, hu', gt_iff_lt, Nat.succ_pos, Nat.add_sub_cancel, if_true,
    Bool.false_eq_true, if_false, decide_true, pure_bind]

/-- `common_z` for at least two points in one or two tables. -/
theorem commonZ_spec (zero : ρ) (h : ops.Models Rep) (hx1 : StandsFor Rep f₁ n1 x1)
    (hz1 : StandsFor Rep g n1 z1) (hx2 : StandsFor Rep f₂ n2 x2)
    (hz2 : StandsFor Rep (fun i => g (i + n1)) n2 z2) (hn : 2 ≤ n1 + n2)
    (hfit : n1 + n2 < 2 ^ 31) :
    ∃ x1' x2', commonZ ops zero n1 x1 z1 n2 x2 z2 = pure (x1', x2') ∧
      CommonZCorrect Rep f₁ f₂ g n1 n2 x1 x2 x1' x2' := by
  obtain ⟨t, ht, -, htstands⟩ := commonZFront_spec zero h hz1 hz2 (by omega)
  simp only [commonZ, Outcome.assert_of hfit, if_neg (by omega : ¬n1 + n2 < 2), ht, pure_bind]
  cases n2 with
  | zero =>
    obtain ⟨x1', hrun, hlen, hstands⟩ := commonZBack_first x2 z2 h hx1 hz1 hn
      htstands
    exact ⟨x1', x2, hrun, hlen, rfl, hstands, fun i hi => absurd hi i.not_lt_zero⟩
  | succ n2 =>
    cases n1 with
    | zero =>
      obtain ⟨x2', hrun, hlen, hstands⟩ := commonZBack_second x1 z1 h hx2 hz2
        (by omega) htstands
      exact ⟨x1, x2', hrun, rfl, hlen, fun i hi => absurd hi i.not_lt_zero, hstands⟩
    | succ n1 => exact commonZBack_both h hx1 hz1 hx2 hz2 htstands

end Tables

end CadoNfs
