import Mathlib.Data.List.GetD
import Mathlib.Data.List.Range

/-!
# Values written into buckets

The values of a list of pairs of a key and a value are written into one array, where every
key has a header with the number of its values and room for them.  A table of write
positions, one for each key, advances with each value.

Main results:

- Theorem `Filled.step`: one value is written.
- Theorem `Filled.map_range`: the array when all values have been written.
-/

namespace BucketScatter

open Function

/-- The values with the key `k`, in the order of the list. -/
def values (pairs : List (ℕ × ℕ)) (k : ℕ) : List ℕ :=
  (pairs.filter fun p => p.1 = k).map Prod.snd

/-- The start of the bucket `k` when there are `w` values in the buckets. -/
def offset (w : ℕ → ℕ) (k : ℕ) : ℕ :=
  match k with
  | 0 => 0
  | k + 1 => offset w k + (1 + w k)

variable {w w' fill p : ℕ → ℕ} {pairs : List (ℕ × ℕ)} {k k' v n : ℕ}

theorem values_append_singleton (pairs : List (ℕ × ℕ)) (k v k' : ℕ) :
    values (pairs ++ [(k, v)]) k' = values pairs k' ++ if k = k' then [v] else [] := by
  by_cases hk : k = k' <;> simp [values, hk]

theorem length_values_cons (p : ℕ × ℕ) (pairs : List (ℕ × ℕ)) (k : ℕ) :
    (values (p :: pairs) k).length = (values pairs k).length + if p.1 = k then 1 else 0 := by
  by_cases hk : p.1 = k <;> simp [values, hk]

theorem length_values_le (pairs : List (ℕ × ℕ)) (k : ℕ) :
    (values pairs k).length ≤ pairs.length := by
  rw [values, List.length_map]
  exact List.length_filter_le _ _

theorem mem_values : v ∈ values pairs k ↔ (k, v) ∈ pairs := by
  simp [values]

theorem count_values (pairs : List (ℕ × ℕ)) (k v : ℕ) :
    (values pairs k).count v = pairs.count (k, v) := by
  induction pairs with
  | nil => rfl
  | cons p pairs ih =>
    obtain ⟨a, b⟩ := p
    rw [List.count_cons, ← ih]
    by_cases ha : a = k <;> by_cases hb : b = v <;> simp [values, ha, hb]

theorem offset_congr (h : ∀ k < n, w k = w' k) : offset w n = offset w' n := by
  induction n with
  | zero => rfl
  | succ n ih =>
    rw [offset, offset, ih fun k hk => h k (by omega), h n n.lt_succ_self]

theorem offset_add_le (h : k < k') : offset w k + (1 + w k) ≤ offset w k' := by
  induction k' with
  | zero => omega
  | succ k' ih =>
    rw [offset]
    obtain rfl | hlt := Nat.lt_succ_iff_lt_or_eq.mp h |>.symm
    · exact le_rfl
    · have := ih hlt
      omega

theorem offset_length_values (h : ∀ p ∈ pairs, p.1 < n) :
    offset (fun k => (values pairs k).length) n = n + pairs.length := by
  induction pairs with
  | nil =>
    have hoffset : ∀ n, offset (fun k => (values [] k).length) n = n := by
      intro n
      induction n with
      | zero => rfl
      | succ n ih => rw [offset, ih]; rfl
    exact hoffset n
  | cons p pairs ih =>
    obtain ⟨hp, h⟩ := List.forall_mem_cons.mp h
    have hadd : ∀ n, offset (fun k => (values (p :: pairs) k).length) n
        = offset (fun k => (values pairs k).length) n + if p.1 < n then 1 else 0 := by
      intro n
      induction n with
      | zero => rfl
      | succ n ih =>
        rw [offset, offset, ih, length_values_cons]
        split_ifs <;> omega
    rw [hadd, ih h, if_pos hp, List.length_cons]
    omega

/-- The values of the list `done` have been written, where `w` are the numbers of
values that there will be. -/
structure Filled (w : ℕ → ℕ) (n : ℕ) (done : List (ℕ × ℕ)) (fill p : ℕ → ℕ) : Prop where
  fill_eq : ∀ k < n, fill k = offset w k + 1 + (values done k).length
  header : ∀ k < n, p (offset w k) = w k
  value : ∀ k < n, ∀ t < (values done k).length,
    p (offset w k + 1 + t) = (values done k).getD t 0

variable {done : List (ℕ × ℕ)}

theorem Filled.header_step (h : Filled w n [] fill p) :
    Filled w (n + 1) [] (update fill n (offset w n + 1)) (update p (offset w n) (w n)) := by
  refine ⟨fun k hk => ?_, fun k hk => ?_, fun k _ t ht => absurd ht (Nat.not_lt_zero t)⟩
  · obtain hk | rfl := Nat.lt_succ_iff_lt_or_eq.mp hk
    · rw [update_of_ne hk.ne, h.fill_eq k hk]
    · rw [update_self]
      rfl
  · obtain hk | rfl := Nat.lt_succ_iff_lt_or_eq.mp hk
    · have hend : offset w k + (1 + w k) ≤ offset w n := offset_add_le hk
      rw [update_of_ne (by omega), h.header k hk]
    · rw [update_self]

/-- The next value is written where no header and no other value is. -/
theorem Filled.step (h : Filled w n done fill p) (hk : k < n)
    (hroom : (values done k).length < w k) (hle : ∀ k' < n, (values done k').length ≤ w k') (v : ℕ) :
    Filled w n (done ++ [(k, v)]) (update fill k (fill k + 1)) (update p (fill k) v) := by
  have hfill := h.fill_eq k hk
  have hbefore : ∀ {a b : ℕ}, a < b → offset w a + (1 + w a) ≤ offset w b := offset_add_le
  refine ⟨fun k' hk' => ?_, fun k' hk' => ?_, fun k' hk' t ht => ?_⟩
  · rw [values_append_singleton]
    by_cases hkk : k = k'
    · subst hkk
      rw [update_self, if_pos rfl, List.length_append, List.length_singleton]
      omega
    · rw [update_of_ne (Ne.symm hkk), if_neg hkk, List.append_nil]
      exact h.fill_eq k' hk'
  · have hne : offset w k' ≠ fill k := by
      obtain hlt | hge := lt_or_ge k k'
      · have := hbefore hlt
        omega
      · have : offset w k' ≤ offset w k := by
          obtain rfl | hlt := eq_or_lt_of_le hge
          · exact le_rfl
          · have := hbefore hlt
            omega
        omega
    rw [update_of_ne hne]
    exact h.header k' hk'
  · rw [values_append_singleton] at ht ⊢
    by_cases hkk : k = k'
    · subst hkk
      rw [if_pos rfl, List.length_append, List.length_singleton] at ht
      rw [if_pos rfl]
      obtain hlt | rfl := Nat.lt_succ_iff_lt_or_eq.mp ht
      · rw [update_of_ne (by omega), h.value k hk t hlt, List.getD_append _ _ _ _ hlt]
      · rw [← hfill, update_self, List.getD_append_right _ _ _ _ le_rfl]
        simp
    · rw [if_neg hkk, List.append_nil] at ht ⊢
      have hroom' := hle k' hk'
      have hne : offset w k' + 1 + t ≠ fill k := by
        obtain hlt | hlt := lt_or_gt_of_ne hkk
        · have := hbefore hlt
          omega
        · have := hbefore hlt
          omega
      rw [update_of_ne hne]
      exact h.value k' hk' t ht

/-- The array when all values have been written. -/
theorem Filled.map_range (h : Filled w n pairs fill p)
    (hw : ∀ k < n, w k = (values pairs k).length) :
    (List.range (offset w n)).map p
      = (List.range n).flatMap fun k => (values pairs k).length :: values pairs k := by
  have hbucket : ∀ k < n, (List.range' (offset w k) (1 + w k)).map p
      = (values pairs k).length :: values pairs k := by
    intro k hk
    rw [Nat.add_comm, List.range'_succ, List.map_cons, h.header k hk, hw k hk]
    congr 1
    refine List.ext_getElem (by simp) fun t ht ht' => ?_
    rw [List.getElem_map, List.getElem_range', Nat.one_mul]
    have hvalue := h.value k hk t ht'
    rw [List.getD_eq_getElem _ _ ht'] at hvalue
    exact hvalue
  clear hw
  induction n with
  | zero => rfl
  | succ n ih =>
    have hn : Filled w n pairs fill p :=
      ⟨fun k hk => h.fill_eq k (by omega), fun k hk => h.header k (by omega),
        fun k hk => h.value k (by omega)⟩
    rw [offset, List.range_add, List.map_append, ih hn fun k hk => hbucket k (by omega),
      List.range_succ, List.flatMap_append, List.flatMap_singleton,
      ← hbucket n n.lt_succ_self, List.range'_eq_map_range]

end BucketScatter
