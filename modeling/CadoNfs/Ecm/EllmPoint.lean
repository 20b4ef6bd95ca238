import CadoNfs.Ecm.Ellm
import CadoNfs.Lib.MontgomeryCurve
import CadoNfs.Lib.RingOps

/-!
# Points of a curve in Montgomery form

The functions `ellM_double`, `ellM_add` and `ellM_mul_ul` of `ecm.c`.  The
first two are written out in coordinates; over any field that the residues map to they are the
group law of a curve, up to a common factor of the coordinates.

Main results:

- Theorem `ellMCoords_represents`: the coordinates represent the multiples of a point.
- Theorem `ellMMulUl_spec`: the ladder computes the multiple, in any arithmetic that
  represents multiples.
-/

namespace CadoNfs

open WordArith MontgomeryCurve

variable {ρ : Type}

/-! ## Coordinates -/

/-- `ellM_point_t`. -/
structure EllMPoint (ρ : Type) where
  x : ρ
  z : ρ
  deriving DecidableEq, Repr

section Code

variable (ops : RingOps ρ)

/-- `ellM_double`; `b` is `(a+2)/4`. -/
def ellMDouble (b : ρ) (P : EllMPoint ρ) : Outcome (EllMPoint ρ) := do
  let u ← ops.add P.x P.z
  let u ← ops.sqr u
  let v := ops.sub P.x P.z
  let v ← ops.sqr v
  let x ← ops.mul u v
  let w := ops.sub u v
  let u ← ops.mul w b
  let u ← ops.add u v
  let z ← ops.mul w u
  pure ⟨x, z⟩

/-- `ellM_add`; `D` is the difference of `P` and `Q`. -/
def ellMAdd (P Q D : EllMPoint ρ) : Outcome (EllMPoint ρ) := do
  let u := ops.sub P.x P.z
  let v ← ops.add Q.x Q.z
  let u ← ops.mul u v
  let w ← ops.add P.x P.z
  let v := ops.sub Q.x Q.z
  let v ← ops.mul w v
  let w ← ops.add u v
  let v := ops.sub u v
  let w ← ops.sqr w
  let v ← ops.sqr v
  let x ← ops.mul w D.z
  let z ← ops.mul D.x v
  pure ⟨x, z⟩

/-- The arithmetic of points in coordinates. -/
def ellMCoords (zero b : ρ) : EllM (EllMPoint ρ) where
  add := fun P Q D => (ellMAdd ops P Q D).toOption
  double := fun P => (ellMDouble ops b P).toOption
  unset := ⟨zero, zero⟩

end Code

section Coordinates

variable {ops : RingOps ρ} {R : Type*} [CommRing R] {Rep : R → ρ → Prop} {zero b : ρ} {c : R}

/-- The coordinates of a point stand for two elements with some property. -/
def EllMPoint.Stands (Rep : R → ρ → Prop) (good : R → R → Prop) (p : EllMPoint ρ) : Prop :=
  ∃ X Z, Rep X p.x ∧ Rep Z p.z ∧ good X Z

theorem ellMDouble_coords (h : ops.Models Rep) (hb : Rep c b) {p : EllMPoint ρ} {X Z : R}
    (hX : Rep X p.x) (hZ : Rep Z p.z) :
    ∃ r, ellMDouble ops b p = pure r ∧ Rep ((X + Z) ^ 2 * (X - Z) ^ 2) r.x ∧
      Rep (((X + Z) ^ 2 - (X - Z) ^ 2) * (((X + Z) ^ 2 - (X - Z) ^ 2) * c + (X - Z) ^ 2)) r.z := by
  obtain ⟨s, hs, hsrep⟩ := h.add hX hZ
  obtain ⟨u, hu, hurep⟩ := h.sqr hsrep
  obtain ⟨v, hv, hvrep⟩ := h.sqr (h.sub hX hZ)
  rw [← sq] at hurep hvrep
  have hwrep := h.sub hurep hvrep
  obtain ⟨x, hx, hxrep⟩ := h.mul hurep hvrep
  obtain ⟨t, ht, htrep⟩ := h.mul hwrep hb
  obtain ⟨t', ht', htrep'⟩ := h.add htrep hvrep
  obtain ⟨z, hz, hzrep⟩ := h.mul hwrep htrep'
  refine ⟨⟨x, z⟩, ?_, hxrep, hzrep⟩
  simp [ellMDouble, hs, hu, hv, hx, ht, ht', hz]

theorem ellMAdd_coords (h : ops.Models Rep) {p q d : EllMPoint ρ} {X₁ Z₁ X₂ Z₂ X Z : R}
    (hX₁ : Rep X₁ p.x) (hZ₁ : Rep Z₁ p.z) (hX₂ : Rep X₂ q.x) (hZ₂ : Rep Z₂ q.z)
    (hX : Rep X d.x) (hZ : Rep Z d.z) :
    ∃ r, ellMAdd ops p q d = pure r ∧ Rep (4 * (Z * (X₁ * X₂ - Z₁ * Z₂) ^ 2)) r.x ∧
      Rep (4 * (X * (X₁ * Z₂ - Z₁ * X₂) ^ 2)) r.z := by
  obtain ⟨v₁, hv₁, hv₁rep⟩ := h.add hX₂ hZ₂
  obtain ⟨u, hu, hurep⟩ := h.mul (h.sub hX₁ hZ₁) hv₁rep
  obtain ⟨w₁, hw₁, hw₁rep⟩ := h.add hX₁ hZ₁
  obtain ⟨v, hv, hvrep⟩ := h.mul hw₁rep (h.sub hX₂ hZ₂)
  obtain ⟨w, hw, hwrep⟩ := h.add hurep hvrep
  obtain ⟨w₂, hw₂, hw₂rep⟩ := h.sqr hwrep
  obtain ⟨v₂, hv₂, hv₂rep⟩ := h.sqr (h.sub hurep hvrep)
  obtain ⟨x, hx, hxrep⟩ := h.mul hw₂rep hZ
  obtain ⟨z, hz, hzrep⟩ := h.mul hX hv₂rep
  refine ⟨⟨x, z⟩, ?_, ?_, ?_⟩
  · simp [ellMAdd, hv₁, hu, hw₁, hv, hw, hw₂, hv₂, hx, hz]
  · convert hxrep using 1
    ring
  · convert hzrep using 1
    ring

variable (zero) in
theorem ellMCoords_represents_residues (h : ops.Models Rep) (hb : Rep c b) :
    (ellMCoords ops zero b).Represents fun _ => EllMPoint.Stands Rep fun _ _ => True where
  neg := id
  add := by
    rintro _ _ p q d ⟨X₁, Z₁, hX₁, hZ₁, -⟩ ⟨X₂, Z₂, hX₂, hZ₂, -⟩ ⟨X, Z, hX, hZ, -⟩
    obtain ⟨r, hr, hrx, hrz⟩ := ellMAdd_coords h hX₁ hZ₁ hX₂ hZ₂ hX hZ
    exact ⟨r, by simp [ellMCoords, hr], _, _, hrx, hrz, trivial⟩
  double := by
    rintro _ p ⟨X, Z, hX, hZ, -⟩
    obtain ⟨r, hr, hrx, hrz⟩ := ellMDouble_coords h hb hX hZ
    exact ⟨r, by simp [ellMCoords, hr], _, _, hrx, hrz, trivial⟩

variable {K : Type*} [Field K] [DecidableEq K]

/-- The coordinates stand for the first coordinate of a point, over a field that the residues map
to. -/
def EllMPoint.OnCurve (Rep : R → ρ → Prop) (φ : R →+* K) {A : K} (Q : (curve A).Point)
    (p : EllMPoint ρ) : Prop :=
  p.Stands Rep fun X Z => IsXZ Q (φ X) (φ Z)

variable (zero) in
/-- The arithmetic in coordinates represents the multiples of a point of a curve. -/
theorem ellMCoords_represents (h : ops.Models Rep) (hb : Rep c b) (φ : R →+* K) {A : K}
    (hA : 4 * φ c = A + 2) (Q : (curve A).Point) :
    (ellMCoords ops zero b).Represents fun n => EllMPoint.OnCurve Rep φ (n • Q) where
  neg := by
    rintro n p ⟨X, Z, hX, hZ, hQ⟩
    have hneg : IsXZ (-n • Q) (φ X) (φ Z) := by rwa [neg_smul, isXZ_neg_iff]
    exact ⟨X, Z, hX, hZ, hneg⟩
  add := by
    rintro m n p q d ⟨X₁, Z₁, hX₁, hZ₁, hp⟩ ⟨X₂, Z₂, hX₂, hZ₂, hq⟩ ⟨X, Z, hX, hZ, hd⟩
    obtain ⟨r, hr, hrx, hrz⟩ := ellMAdd_coords h hX₁ hZ₁ hX₂ hZ₂ hX hZ
    refine ⟨r, by simp [ellMCoords, hr], _, _, hrx, hrz, ?_⟩
    rw [sub_smul] at hd
    rw [add_smul]
    simpa only [map_mul, map_pow, map_sub, map_ofNat] using (hp.add hq hd).mul (4 : K)
  double := by
    rintro n p ⟨X, Z, hX, hZ, hp⟩
    obtain ⟨r, hr, hrx, hrz⟩ := ellMDouble_coords h hb hX hZ
    refine ⟨r, by simp [ellMCoords, hr], _, _, hrx, hrz, ?_⟩
    rw [two_mul, add_smul]
    simpa only [map_mul, map_pow, map_sub, map_add] using hp.double hA

end Coordinates

/-! ## The ladder -/

section Ladder

variable {α : Type} (ell : EllM α)

/-- The value, where `none` is an operation that is refused. -/
def ofOption : Option α → Outcome α
  | some a => pure a
  | none => .abort

@[simp] theorem ofOption_some (a : α) : ofOption (some a) = pure a :=
  rfl

/-- `for (l = e, n = 0; l > 1; n ++, l /= 2)`. -/
def ladderSteps : ℕ → ℕ → ℕ
  | 0, _ => 0
  | fuel + 1, l => if l > 1 then ladderSteps fuel (l / 2) + 1 else 0

/-- One turn of the loop of `ellM_mul_ul`: from the multiples by `i` and `i + 1` to
those by `2 * i` and `2 * i + 1`, or to the next two. -/
def ellMMulUlStep (P : α) (bit : Bool) (t : α × α) : Outcome (α × α) := do
  let (t1, t2) := t
  if bit then do
    let t1 ← ofOption (ell.add t1 t2 P)
    let t2 ← ofOption (ell.double t2)
    pure (t1, t2)
  else do
    let t2 ← ofOption (ell.add t1 t2 P)
    let t1 ← ofOption (ell.double t1)
    pure (t1, t2)

/-- `while (n--)`. -/
def ellMMulUlLoop (P : α) (e : ℕ) : ℕ → α × α → Outcome (α × α)
  | 0, t => pure t
  | n + 1, t => do
    let t ← ellMMulUlStep ell P (e >>> n % 2 == 1) t
    ellMMulUlLoop P e n t

/-- `ellM_mul_ul`; `infinity` is the point with both coordinates zero. -/
def ellMMulUl (infinity P : α) (e : ℕ) : Outcome α :=
  if e = 0 then pure infinity
  else if e = 1 then pure P
  else if e = 2 then ofOption (ell.double P)
  else if e = 4 then do
    let R ← ofOption (ell.double P)
    ofOption (ell.double R)
  else if e = 3 then do
    let t1 ← ofOption (ell.double P)
    ofOption (ell.add t1 P P)
  else do
    let e := e - 1
    let t2 ← ofOption (ell.double P)
    let (_, t2) ← ellMMulUlLoop ell P e (ladderSteps e e) (P, t2)
    pure t2

variable {ell} {rep : ℤ → α → Prop} {infinity P : α}

theorem ladderSteps_spec {fuel l : ℕ} (hl : 0 < l) (hfuel : l ≤ fuel) :
    l / 2 ^ ladderSteps fuel l = 1 := by
  induction fuel generalizing l with
  | zero => omega
  | succ fuel ih =>
    rw [ladderSteps]
    split_ifs with h
    · rw [pow_succ', ← Nat.div_div_eq_div_mul]
      exact ih (by omega) (by omega)
    · rw [pow_zero, Nat.div_one]
      omega

theorem ellMMulUlStep_spec (hell : ell.Represents rep) {m : ℤ} (hP : rep m P) {i : ℕ} {t : α × α}
    (ht1 : rep (i * m) t.1) (ht2 : rep ((i + 1) * m) t.2) (bit : Bool) :
    ∃ t', ellMMulUlStep ell P bit t = pure t' ∧
      rep ((2 * i + bit.toNat : ℕ) * m) t'.1 ∧ rep (((2 * i + bit.toNat : ℕ) + 1) * m) t'.2 := by
  obtain ⟨t1, t2⟩ := t
  obtain ⟨s, hs, hsrep⟩ := hell.sum ht1 ht2 hP (Or.inr (by ring))
  rw [show (i : ℤ) * m + (i + 1) * m = (2 * i + 1) * m by ring] at hsrep
  cases bit with
  | true =>
    obtain ⟨d, hd, hdrep⟩ := hell.double ht2
    rw [show 2 * (((i : ℤ) + 1) * m) = (2 * i + 1 + 1) * m by ring] at hdrep
    exact ⟨(s, d), by simp [ellMMulUlStep, hs, hd],
      by simpa using hsrep, by simpa using hdrep⟩
  | false =>
    obtain ⟨d, hd, hdrep⟩ := hell.double ht1
    rw [← mul_assoc] at hdrep
    exact ⟨(d, s), by simp [ellMMulUlStep, hs, hd], by simpa using hdrep, by simpa using hsrep⟩

theorem ellMMulUlLoop_spec (hell : ell.Represents rep) {m : ℤ} (hP : rep m P) (e : ℕ) {n : ℕ}
    {t : α × α} (ht1 : rep ((e / 2 ^ n : ℕ) * m) t.1)
    (ht2 : rep (((e / 2 ^ n : ℕ) + 1) * m) t.2) :
    ∃ t', ellMMulUlLoop ell P e n t = pure t' ∧ rep (e * m) t'.1 ∧ rep ((e + 1) * m) t'.2 := by
  induction n generalizing t with
  | zero => exact ⟨t, rfl, by simpa using ht1, by simpa using ht2⟩
  | succ n ih =>
    have hbit : 2 * (e / 2 ^ (n + 1)) + (e >>> n % 2 == 1).toNat = e / 2 ^ n := by
      rw [pow_succ, ← Nat.div_div_eq_div_mul, Nat.shiftRight_eq_div_pow]
      rcases Nat.mod_two_eq_zero_or_one (e / 2 ^ n) with h | h
      · simp only [h, Nat.reduceBEq, Bool.toNat_false]
        omega
      · simp only [h, Nat.reduceBEq, Bool.toNat_true]
        omega
    obtain ⟨t', ht', h1, h2⟩ := ellMMulUlStep_spec hell hP ht1 ht2 (e >>> n % 2 == 1)
    rw [hbit] at h1 h2
    obtain ⟨t'', ht'', hres⟩ := ih h1 h2
    exact ⟨t'', by rw [ellMMulUlLoop, ht', pure_bind, ht''], hres⟩

/-- `ellM_mul_ul` computes the multiple. -/
theorem ellMMulUl_spec (hell : ell.Represents rep) (hzero : rep 0 infinity) {m : ℤ}
    (hP : rep m P) (e : ℕ) : ∃ r, ellMMulUl ell infinity P e = pure r ∧ rep (e * m) r := by
  obtain ⟨d, hd, hdrep⟩ := hell.double hP
  rw [ellMMulUl]
  split_ifs with h0 h1 h2 h4 h3
  · exact ⟨infinity, rfl, by simpa [h0] using hzero⟩
  · exact ⟨P, rfl, by simpa [h1] using hP⟩
  · exact ⟨d, by rw [hd, ofOption_some], by simpa [h2] using hdrep⟩
  · obtain ⟨r, hr, hrrep⟩ := hell.double hdrep
    refine ⟨r, by rw [hd, ofOption_some, pure_bind, hr, ofOption_some], ?_⟩
    rwa [h4, Nat.cast_ofNat, show (4 : ℤ) * m = 2 * (2 * m) by ring]
  · obtain ⟨r, hr, hrrep⟩ := hell.sum hdrep hP hP (Or.inl (by ring))
    refine ⟨r, by rw [hd, ofOption_some, pure_bind, hr, ofOption_some], ?_⟩
    rwa [h3, Nat.cast_ofNat, show (3 : ℤ) * m = 2 * m + m by ring]
  · have hone := ladderSteps_spec (by omega : 0 < e - 1) le_rfl
    obtain ⟨t, ht, -, hres⟩ := ellMMulUlLoop_spec hell hP (e - 1) (n := ladderSteps (e - 1) (e - 1))
      (t := (P, d)) (by simpa [hone] using hP) (by simpa [hone, one_add_one_eq_two] using hdrep)
    refine ⟨t.2, by simp [hd, ht], ?_⟩
    rwa [show ((e - 1 : ℕ) : ℤ) + 1 = e by omega] at hres

end Ladder

end CadoNfs
