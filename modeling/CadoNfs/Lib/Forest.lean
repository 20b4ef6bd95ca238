import Mathlib.Data.List.Nodup
import Mathlib.Data.List.Perm.Subperm

/-!
# Sums along a forest

Each vertex of a forest is to be replaced by its sum with its father.  This can be done in
place, as long as a vertex is changed after its sons.

Main results:

- Theorem `addAll_congr`: two orders of the additions have the same effect.
- Theorem `independent_additions`: depth first, a vertex is changed after its sons.
- Theorem `independent_entries`: the same holds vertex by vertex, the last vertex first.
- Theorem `addSon_spec`: a new leaf.
-/

namespace CadoNfs

open Function (update update_of_ne update_self)
open List (count_append mem_append mem_cons nodup_append nodup_cons)

/-! ## Additions -/

section Additions

variable {ι α : Type*} [DecidableEq ι] {add : α → α → α} {L L' : List (ι × ι)} {r : ι → α}
  {x s : ι}

/-- The values after the additions `L`: the second entry is added to the first one. -/
def addAll (add : α → α → α) (L : List (ι × ι)) (r : ι → α) : ι → α :=
  L.foldl (fun r a => update r a.1 (add (r a.1) (r a.2))) r

/-- What was changed is not used again. -/
def Independent (L : List (ι × ι)) : Prop :=
  L.Pairwise fun a b => a.1 ≠ b.1 ∧ a.1 ≠ b.2

@[simp]
theorem addAll_nil : addAll add [] r = r :=
  rfl

@[simp]
theorem addAll_cons (a : ι × ι) :
    addAll add (a :: L) r = addAll add L (update r a.1 (add (r a.1) (r a.2))) :=
  rfl

theorem addAll_append : addAll add (L ++ L') r = addAll add L' (addAll add L r) :=
  List.foldl_append

theorem addAll_of_forall_ne (h : ∀ a ∈ L, a.1 ≠ x) : addAll add L r x = r x := by
  induction L generalizing r with
  | nil => rfl
  | cons a L ih =>
    obtain ⟨ha, h⟩ := List.forall_mem_cons.mp h
    rw [addAll_cons, ih h, update_of_ne ha.symm]

theorem addAll_of_mem (h : Independent L) (hx : (x, s) ∈ L) :
    addAll add L r x = add (r x) (r s) := by
  induction L generalizing r with
  | nil => simp at hx
  | cons a L ih =>
    obtain ⟨ha, h⟩ := List.pairwise_cons.mp h
    rw [addAll_cons]
    rcases mem_cons.mp hx with rfl | hx
    · rw [addAll_of_forall_ne fun b hb => (ha b hb).1.symm, update_self]
    · obtain ⟨hne, hne'⟩ := ha _ hx
      rw [ih h hx, update_of_ne hne.symm, update_of_ne hne'.symm]

/-- Two orders of the same additions. -/
theorem addAll_congr (h : Independent L) (h' : Independent L') (hmem : ∀ a, a ∈ L ↔ a ∈ L') :
    addAll add L r = addAll add L' r := by
  funext x
  by_cases hx : ∃ s, (x, s) ∈ L
  · obtain ⟨s, hs⟩ := hx
    rw [addAll_of_mem h hs, addAll_of_mem h' ((hmem _).mp hs)]
  · have hne : ∀ a ∈ L, a.1 ≠ x := by
      rintro a ha rfl
      exact hx ⟨a.2, ha⟩
    rw [addAll_of_forall_ne hne, addAll_of_forall_ne fun a ha => hne a ((hmem a).mpr ha)]

end Additions

/-! ## Forests -/

/-- A forest: the first tree with its sons, and the other trees. -/
inductive Forest (α : Type*)
  | nil : Forest α
  | node (a : α) (kids rest : Forest α) : Forest α

namespace Forest

variable {α : Type*}

/-- The vertices, from the left. -/
def labels : Forest α → List α
  | nil => []
  | node a kids rest => a :: (kids.labels ++ rest.labels)

/-- The roots, from the left. -/
def roots : Forest α → List α
  | nil => []
  | node a _ rest => a :: rest.roots

/-- The additions of the sons `F` of `u`, depth first. -/
def additions (u : α) : Forest α → List (α × α)
  | nil => []
  | node a kids rest => kids.additions a ++ (a, u) :: rest.additions u

/-- A vertex with its sons, if it has any. -/
def entry (u : α) (F : Forest α) : List (α × List α) :=
  match F with
  | nil => []
  | node _ _ _ => [(u, F.roots)]

/-- The vertices that have sons, each with its sons. -/
def inner : Forest α → List (α × List α)
  | nil => []
  | node a kids rest => kids.entry a ++ kids.inner ++ rest.inner

/-- The additions of a list of vertices with their sons. -/
def pairs (L : List (α × List α)) : List (α × α) :=
  L.flatMap fun e => e.2.map fun t => (t, e.1)

/-- `F` has the roots `us`, and `sons` are the sons of each vertex. -/
def Of (sons : α → List α) : List α → Forest α → Prop
  | us, nil => us = []
  | us, node a kids rest => ∃ us', us = a :: us' ∧ Of sons (sons a) kids ∧ Of sons us' rest

/-- The trees of two forests. -/
def append : Forest α → Forest α → Forest α
  | nil, G => G
  | node a kids rest, G => node a kids (rest.append G)

/-- The vertices are renamed. -/
def map {β : Type*} (f : α → β) : Forest α → Forest β
  | nil => nil
  | node a kids rest => node (f a) (kids.map f) (rest.map f)

/-- A new leaf `t`, the last son of `s`. -/
def addSon [DecidableEq α] (s t : α) : Forest α → Forest α
  | nil => nil
  | node a kids rest =>
    let kids := kids.addSon s t
    node a (if a = s then kids.append (node t nil nil) else kids) (rest.addSon s t)

section Lemmas

variable {F G : Forest α} {u a t s : α} {us vs : List α} {sons : α → List α}

theorem of_eq_roots (h : Of sons us F) : us = F.roots := by
  induction F generalizing us with
  | nil => exact h
  | node a kids rest _ ihrest =>
    obtain ⟨us', rfl, -, hrest⟩ := h
    rw [roots, ← ihrest hrest]

@[simp]
theorem pairs_append (L L' : List (α × List α)) : pairs (L ++ L') = pairs L ++ pairs L' :=
  List.flatMap_append

theorem mem_pairs {L : List (α × List α)} :
    (t, s) ∈ pairs L ↔ ∃ ts, (s, ts) ∈ L ∧ t ∈ ts := by
  simp only [pairs, List.mem_flatMap, List.mem_map, Prod.mk.injEq]
  constructor
  · rintro ⟨e, he, t', ht', rfl, rfl⟩
    exact ⟨e.2, he, ht'⟩
  · rintro ⟨ts, hts, ht⟩
    exact ⟨(s, ts), hts, t, ht, rfl, rfl⟩

theorem mem_pairs_entry : (t, s) ∈ pairs (F.entry u) ↔ s = u ∧ t ∈ F.roots := by
  cases F with
  | nil => simp [entry, pairs, roots]
  | node a kids rest =>
    rw [mem_pairs, entry]
    simp

theorem mem_of_mem_additions (h : (t, s) ∈ F.additions u) :
    t ∈ F.labels ∧ s ∈ u :: F.labels := by
  induction F generalizing u with
  | nil => simp [additions] at h
  | node a kids rest ihkids ihrest =>
    rw [additions, mem_append, mem_cons] at h
    rcases h with h | h | h
    · obtain ⟨ht, hs⟩ := ihkids h
      simp only [labels, mem_cons, mem_append] at hs ⊢
      tauto
    · obtain ⟨rfl, rfl⟩ := Prod.mk.inj h
      simp [labels]
    · obtain ⟨ht, hs⟩ := ihrest h
      simp only [labels, mem_cons, mem_append] at hs ⊢
      tauto

theorem ne_of_mem_additions (hnodup : (u :: F.labels).Nodup) (h : (t, s) ∈ F.additions u) :
    t ≠ s := by
  induction F generalizing u with
  | nil => simp [additions] at h
  | node a kids rest ihkids ihrest =>
    simp only [labels, nodup_cons, mem_cons, mem_append, not_or, nodup_append] at hnodup
    obtain ⟨⟨hua, -, hurest⟩, ⟨hakids, -⟩, hkids, hrest, -⟩ := hnodup
    rw [additions, mem_append, mem_cons] at h
    rcases h with h | h | h
    · exact ihkids (nodup_cons.mpr ⟨hakids, hkids⟩) h
    · obtain ⟨rfl, rfl⟩ := Prod.mk.inj h
      exact fun heq => hua heq.symm
    · exact ihrest (nodup_cons.mpr ⟨hurest, hrest⟩) h

theorem fst_mem_of_mem_inner {e : α × List α} (h : e ∈ F.inner) : e.1 ∈ F.labels := by
  induction F with
  | nil => simp [inner] at h
  | node a kids rest ihkids ihrest =>
    simp only [labels, mem_cons, mem_append]
    rw [inner, mem_append, mem_append] at h
    rcases h with (h | h) | h
    · cases kids with
      | nil => simp [entry] at h
      | node b kids' rest' =>
        obtain rfl := List.mem_singleton.mp h
        exact Or.inl rfl
    · exact Or.inr (Or.inl (ihkids h))
    · exact Or.inr (Or.inr (ihrest h))

theorem exists_mem_additions (h : t ∈ F.labels) : ∃ s, (t, s) ∈ F.additions u := by
  induction F generalizing u with
  | nil => simp [labels] at h
  | node a kids rest ihkids ihrest =>
    simp only [labels, mem_cons, mem_append] at h
    simp only [additions, mem_append, mem_cons]
    rcases h with rfl | h | h
    · exact ⟨u, Or.inr (Or.inl rfl)⟩
    · obtain ⟨s, hs⟩ := ihkids h (u := a)
      exact ⟨s, Or.inl hs⟩
    · obtain ⟨s, hs⟩ := ihrest h (u := u)
      exact ⟨s, Or.inr (Or.inr hs)⟩

theorem mem_additions_iff :
    (t, s) ∈ F.additions u ↔ s = u ∧ t ∈ F.roots ∨ (t, s) ∈ pairs F.inner := by
  induction F generalizing u with
  | nil => simp [additions, roots, inner, pairs]
  | node a kids rest ihkids ihrest =>
    rw [additions, mem_append, mem_cons, ihkids, ihrest, inner, pairs_append, pairs_append,
      mem_append, mem_append, mem_pairs_entry, roots, mem_cons, Prod.mk.injEq]
    tauto

/-- Depth first, a vertex is changed after its sons. -/
theorem independent_additions (h : (u :: F.labels).Nodup) : Independent (F.additions u) := by
  induction F generalizing u with
  | nil => exact List.Pairwise.nil
  | node a kids rest ihkids ihrest =>
    simp only [labels, nodup_cons, mem_cons, mem_append, not_or, nodup_append] at h
    obtain ⟨⟨hua, hukids, hurest⟩, ⟨hakids, harest⟩, hkids, hrest, hdisj⟩ := h
    refine List.pairwise_append.mpr ⟨ihkids (nodup_cons.mpr ⟨hakids, hkids⟩),
      List.pairwise_cons.mpr ⟨fun b hb => ?_, ihrest (nodup_cons.mpr ⟨hurest, hrest⟩)⟩,
      fun b hb c hc => ?_⟩
    · obtain ⟨t, s⟩ := b
      obtain ⟨ht, hs⟩ := mem_of_mem_additions hb
      refine ⟨fun heq : a = t => harest (heq ▸ ht), fun heq : a = s => ?_⟩
      rcases mem_cons.mp hs with hs | hs
      · exact hua (hs.symm.trans heq.symm)
      · exact harest (heq ▸ hs)
    · obtain ⟨t, s⟩ := b
      obtain ⟨t', s'⟩ := c
      obtain ⟨ht, -⟩ := mem_of_mem_additions hb
      rcases mem_cons.mp hc with hc | hc
      · obtain ⟨rfl, rfl⟩ := Prod.mk.inj hc
        exact ⟨fun heq : t = t' => hakids (heq ▸ ht), fun heq : t = s' => hukids (heq ▸ ht)⟩
      · obtain ⟨ht', hs'⟩ := mem_of_mem_additions hc
        refine ⟨hdisj _ ht _ ht', fun heq : t = s' => ?_⟩
        rcases mem_cons.mp hs' with hs' | hs'
        · exact hukids (hs' ▸ heq ▸ ht)
        · exact hdisj _ ht _ hs' heq

theorem roots_sublist : F.roots.Sublist F.labels := by
  induction F with
  | nil => exact List.Sublist.slnil
  | node a kids rest _ ihrest =>
    exact (ihrest.trans (List.sublist_append_right _ _)).cons_cons a

theorem independent_singleton {ts : List α} (h : (u :: ts).Nodup) :
    Independent (pairs [(u, ts)]) := by
  obtain ⟨hu, hts⟩ := nodup_cons.mp h
  have hpairs : pairs [(u, ts)] = ts.map fun t => (t, u) := List.append_nil _
  rw [hpairs, Independent, List.pairwise_map]
  exact hts.imp_of_mem fun {t t'} ht _ hne => ⟨hne, fun heq : t = u => hu (heq ▸ ht)⟩

theorem independent_entry (h : (u :: F.labels).Nodup) : Independent (pairs (F.entry u)) := by
  cases F with
  | nil => exact List.Pairwise.nil
  | node a kids rest => exact independent_singleton (h.sublist (roots_sublist.cons_cons u))

theorem mem_of_mem_inner (hF : F.labels.Nodup) (h : (t, s) ∈ pairs F.inner) :
    t ∈ F.labels ∧ s ∈ F.labels ∧ t ∉ F.roots := by
  induction F with
  | nil => simp [inner, pairs] at h
  | node a kids rest ihkids ihrest =>
    simp only [labels, nodup_cons, mem_append, not_or, nodup_append] at hF
    obtain ⟨⟨hakids, harest⟩, hkids, hrest, hdisj⟩ := hF
    have hroot : ∀ t ∈ kids.labels, t ∉ a :: rest.roots := by
      intro t ht hmem
      rcases mem_cons.mp hmem with rfl | hmem
      · exact hakids ht
      · exact hdisj _ ht _ (roots_sublist.subset hmem) rfl
    simp only [labels, mem_cons, mem_append]
    rw [inner, pairs_append, pairs_append, mem_append, mem_append, mem_pairs_entry] at h
    rcases h with (⟨rfl, ht⟩ | h) | h
    · have ht := roots_sublist.subset ht
      exact ⟨Or.inr (Or.inl ht), Or.inl rfl, hroot t ht⟩
    · obtain ⟨ht, hs, -⟩ := ihkids hkids h
      exact ⟨Or.inr (Or.inl ht), Or.inr (Or.inl hs), hroot t ht⟩
    · obtain ⟨ht, hs, htroot⟩ := ihrest hrest h
      refine ⟨Or.inr (Or.inr ht), Or.inr (Or.inr hs), fun hmem => ?_⟩
      rcases mem_cons.mp hmem with rfl | hmem
      · exact harest ht
      · exact htroot hmem

theorem mem_pairs_reverse {L : List (α × List α)} :
    (t, s) ∈ pairs L.reverse ↔ (t, s) ∈ pairs L := by
  simp [mem_pairs]

theorem independent_entry_inner (h : (u :: F.labels).Nodup)
    (hinner : Independent (pairs F.inner.reverse)) :
    Independent (pairs (F.entry u ++ F.inner).reverse) := by
  obtain ⟨hu, hF⟩ := nodup_cons.mp h
  have hentry : (F.entry u).reverse = F.entry u := by
    cases F <;> rfl
  rw [List.reverse_append, pairs_append, hentry]
  refine List.pairwise_append.mpr ⟨hinner, independent_entry h, ?_⟩
  rintro ⟨t, s⟩ hb ⟨t', s'⟩ hc
  rw [mem_pairs_reverse] at hb
  obtain ⟨ht, -, htroot⟩ := mem_of_mem_inner hF hb
  obtain ⟨rfl, ht'⟩ := mem_pairs_entry.mp hc
  exact ⟨fun heq : t = t' => htroot (heq ▸ ht'), fun heq : t = s' => hu (heq ▸ ht)⟩

theorem independent_inner (hF : F.labels.Nodup) : Independent (pairs F.inner.reverse) := by
  induction F with
  | nil => exact List.Pairwise.nil
  | node a kids rest ihkids ihrest =>
    simp only [labels, nodup_cons, mem_append, not_or, nodup_append] at hF
    obtain ⟨⟨hakids, harest⟩, hkids, hrest, hdisj⟩ := hF
    have htree := independent_entry_inner (nodup_cons.mpr ⟨hakids, hkids⟩) (ihkids hkids)
    rw [inner, List.reverse_append, pairs_append]
    refine List.pairwise_append.mpr ⟨ihrest hrest, htree, ?_⟩
    rintro ⟨t, s⟩ hb ⟨t', s'⟩ hc
    rw [mem_pairs_reverse] at hb hc
    obtain ⟨ht, -, -⟩ := mem_of_mem_inner hrest hb
    rw [pairs_append, mem_append, mem_pairs_entry] at hc
    rcases hc with ⟨rfl, ht'⟩ | hc
    · have ht' := roots_sublist.subset ht'
      exact ⟨fun heq : t = t' => hdisj _ ht' _ ht heq.symm,
        fun heq : t = s' => harest (heq ▸ ht)⟩
    · obtain ⟨ht', hs', -⟩ := mem_of_mem_inner hkids hc
      exact ⟨fun heq : t = t' => hdisj _ ht' _ ht heq.symm,
        fun heq : t = s' => hdisj _ hs' _ ht heq.symm⟩

/-- Vertex by vertex, the last one first, a vertex is changed after its sons. -/
theorem independent_entries (h : (u :: F.labels).Nodup) :
    Independent (pairs (F.entry u ++ F.inner).reverse) :=
  independent_entry_inner h (independent_inner (nodup_cons.mp h).2)

theorem mem_additions_iff_reverse :
    (t, s) ∈ F.additions u ↔ (t, s) ∈ pairs (F.entry u ++ F.inner).reverse := by
  rw [mem_pairs_reverse, pairs_append, mem_append, mem_pairs_entry, mem_additions_iff]

/-! ### Renaming -/

section Map

variable {β : Type*} {f : α → β}

theorem labels_map : (F.map f).labels = F.labels.map f := by
  induction F with
  | nil => rfl
  | node a kids rest ihkids ihrest => simp [map, labels, ihkids, ihrest]

theorem roots_map : (F.map f).roots = F.roots.map f := by
  induction F with
  | nil => rfl
  | node a kids rest _ ihrest => simp [map, roots, ihrest]

theorem entry_map : (F.map f).entry (f u) = (F.entry u).map (Prod.map f (List.map f)) := by
  cases F with
  | nil => rfl
  | node a kids rest => simp [map, entry, roots, roots_map]

theorem inner_map : (F.map f).inner = F.inner.map (Prod.map f (List.map f)) := by
  induction F with
  | nil => rfl
  | node a kids rest ihkids ihrest => simp [map, inner, entry_map, ihkids, ihrest]

end Map

/-! ### A new leaf -/

theorem Of.append (hF : Of sons us F) (hG : Of sons vs G) : Of sons (us ++ vs) (F.append G) := by
  induction F generalizing us with
  | nil =>
    obtain rfl : us = [] := hF
    exact hG
  | node a kids rest _ ihrest =>
    obtain ⟨us', rfl, hkids, hrest⟩ := hF
    exact ⟨us' ++ vs, rfl, hkids, ihrest hrest⟩

theorem labels_append : (F.append G).labels = F.labels ++ G.labels := by
  induction F with
  | nil => rfl
  | node a kids rest _ ihrest => simp [append, labels, ihrest]

variable [DecidableEq α]

theorem labels_addSon (s t : α) (F : Forest α) :
    (F.addSon s t).labels.Perm (List.replicate (F.labels.count s) t ++ F.labels) := by
  induction F with
  | nil => rfl
  | node a kids rest ihkids ihrest =>
    refine List.perm_iff_count.mpr fun x => ?_
    have hkids := ihkids.count_eq x
    have hrest := ihrest.count_eq x
    rw [count_append, List.count_replicate] at hkids hrest
    simp only [addSon, labels, List.count_cons, count_append, List.count_replicate]
    by_cases has : a = s
    · rw [if_pos has, labels_append, count_append, hkids, hrest]
      by_cases htx : t = x
      · simp [labels, has, htx]
        omega
      · simp [labels, has, htx]
    · rw [if_neg has, hkids, hrest]
      by_cases htx : t = x
      · simp [has, htx]
        omega
      · simp [htx]

/-- A vertex that has no sons becomes a son. -/
theorem addSon_spec (h : Of sons us F) (ht : t ∉ F.labels) (hst : s ≠ t) (hsons : sons t = []) :
    Of (update sons s (sons s ++ [t])) us (F.addSon s t) := by
  have hleaf : Of (update sons s (sons s ++ [t])) [t] (node t nil nil) :=
    ⟨[], rfl, by rw [update_of_ne hst.symm]; exact hsons, rfl⟩
  induction F generalizing us with
  | nil => exact h
  | node a kids rest ihkids ihrest =>
    obtain ⟨us', rfl, hkids, hrest⟩ := h
    simp only [labels, mem_cons, mem_append, not_or] at ht
    refine ⟨us', rfl, ?_, ihrest hrest ht.2.2⟩
    have hkids' := ihkids hkids ht.2.1
    by_cases has : a = s
    · subst has
      rw [if_pos rfl, update_self]
      exact hkids'.append hleaf
    · rw [if_neg has, update_of_ne has]
      exact hkids'

end Lemmas

end Forest

end CadoNfs
