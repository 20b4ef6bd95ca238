import Mathlib.Data.Finset.Card
import Mathlib.Data.Finset.SymmDiff
import Mathlib.Data.List.Sort

/-!
# Sums of sorted lists over GF(2)

A vector over GF(2) is the increasing list of its nonzero positions.  The sum of two vectors
is a merge that drops the positions both have.

Main results:

- Theorem `count_xorMerge`: what is in the sum, modulo two.
- Theorem `pairwise_xorMerge`: the sum is increasing.
-/

namespace CadoNfs.SortedXor

open List (countP_cons length_cons mem_cons_of_mem mem_toFinset)

variable {α : Type*} [LinearOrder α]

/-- The sum of two increasing lists. -/
def xorMerge : List α → List α → List α
  | [], m => m
  | a :: l, [] => a :: l
  | a :: l, b :: m =>
    if a < b then a :: xorMerge l (b :: m)
    else if b < a then b :: xorMerge (a :: l) m
    else xorMerge l m
termination_by l m => l.length + m.length

section XorMerge

variable {a b c : α} {l m : List α}

@[simp]
theorem xorMerge_nil_left : xorMerge [] m = m := by
  rw [xorMerge]

@[simp]
theorem xorMerge_nil_right : xorMerge l [] = l := by
  cases l <;> rw [xorMerge]

theorem xorMerge_cons_of_lt (h : a < b) :
    xorMerge (a :: l) (b :: m) = a :: xorMerge l (b :: m) := by
  rw [xorMerge, if_pos h]

theorem xorMerge_cons_of_gt (h : b < a) :
    xorMerge (a :: l) (b :: m) = b :: xorMerge (a :: l) m := by
  rw [xorMerge, if_neg h.asymm, if_pos h]

theorem xorMerge_cons_self : xorMerge (a :: l) (a :: m) = xorMerge l m := by
  rw [xorMerge, if_neg (lt_irrefl a), if_neg (lt_irrefl a)]

theorem xorMerge_comm (l m : List α) : xorMerge l m = xorMerge m l := by
  fun_induction xorMerge l m with
  | case1 m => rw [xorMerge_nil_right]
  | case2 a l => rw [xorMerge_nil_left]
  | case3 a l b m hab ih => rw [xorMerge_cons_of_gt hab, ih]
  | case4 a l b m _ hba ih => rw [xorMerge_cons_of_lt hba, ih]
  | case5 a l b m hab hba ih =>
    obtain rfl : a = b := le_antisymm (not_lt.mp hba) (not_lt.mp hab)
    rw [xorMerge_cons_self, ih]

theorem mem_of_mem_xorMerge (h : c ∈ xorMerge l m) : c ∈ l ∨ c ∈ m := by
  fun_induction xorMerge l m with
  | case1 m => exact Or.inr h
  | case2 a l => exact Or.inl h
  | case3 a l b m hab ih =>
    rcases List.mem_cons.mp h with rfl | h
    · exact Or.inl List.mem_cons_self
    · exact (ih h).imp_left (mem_cons_of_mem a)
  | case4 a l b m hab hba ih =>
    rcases List.mem_cons.mp h with rfl | h
    · exact Or.inr List.mem_cons_self
    · exact (ih h).imp_right (mem_cons_of_mem b)
  | case5 a l b m hab hba ih =>
    exact (ih h).imp (mem_cons_of_mem a) (mem_cons_of_mem b)

theorem countP_xorMerge (p : α → Bool) :
    (xorMerge l m).countP p % 2 = (l.countP p + m.countP p) % 2 := by
  fun_induction xorMerge l m with
  | case1 m => simp
  | case2 a l => simp
  | case3 a l b m hab ih =>
    rw [countP_cons, countP_cons (l := l)]
    omega
  | case4 a l b m hab hba ih =>
    rw [countP_cons, countP_cons (l := m)]
    omega
  | case5 a l b m hab hba ih =>
    obtain rfl : a = b := le_antisymm (not_lt.mp hba) (not_lt.mp hab)
    rw [ih, countP_cons, countP_cons]
    omega

theorem length_xorMerge_le (l m : List α) : (xorMerge l m).length ≤ l.length + m.length := by
  fun_induction xorMerge l m with
  | case1 m => simp
  | case2 a l => simp
  | case3 a l b m hab ih =>
    simp only [length_cons] at ih ⊢
    omega
  | case4 a l b m hab hba ih =>
    simp only [length_cons] at ih ⊢
    omega
  | case5 a l b m hab hba ih =>
    simp only [length_cons]
    omega

/-- Positions are dropped in pairs. -/
theorem count_xorMerge (c : α) :
    (xorMerge l m).count c % 2 = (l.count c + m.count c) % 2 :=
  countP_xorMerge (· == c)

section

variable (hl : l.Pairwise (· < ·))
include hl

/-- The sum is increasing. -/
theorem pairwise_xorMerge (hm : m.Pairwise (· < ·)) : (xorMerge l m).Pairwise (· < ·) := by
  fun_induction xorMerge l m with
  | case1 m => exact hm
  | case2 a l => exact hl
  | case3 a l b m hab ih =>
    refine List.pairwise_cons.mpr ⟨fun c hc => ?_, ih hl.of_cons hm⟩
    rcases mem_of_mem_xorMerge hc with hc | hc
    · exact List.rel_of_pairwise_cons hl hc
    · rcases List.mem_cons.mp hc with rfl | hc
      · exact hab
      · exact hab.trans (List.rel_of_pairwise_cons hm hc)
  | case4 a l b m hab hba ih =>
    refine List.pairwise_cons.mpr ⟨fun c hc => ?_, ih hl hm.of_cons⟩
    rcases mem_of_mem_xorMerge hc with hc | hc
    · rcases List.mem_cons.mp hc with rfl | hc
      · exact hba
      · exact hba.trans (List.rel_of_pairwise_cons hl hc)
    · exact List.rel_of_pairwise_cons hm hc
  | case5 a l b m hab hba ih => exact ih hl.of_cons hm.of_cons

theorem nodup_of_pairwise : l.Nodup :=
  hl.imp ne_of_lt

theorem count_of_pairwise (c : α) : l.count c = if c ∈ l then 1 else 0 :=
  (nodup_of_pairwise hl).count

theorem mem_iff_count_odd : c ∈ l ↔ l.count c % 2 = 1 := by
  rw [count_of_pairwise hl]
  split_ifs with h <;> simp [h]

section

variable (hm : m.Pairwise (· < ·))
include hm

theorem mem_xorMerge : c ∈ xorMerge l m ↔ (c ∈ l ↔ c ∉ m) := by
  rw [mem_iff_count_odd (pairwise_xorMerge hl hm), count_xorMerge, count_of_pairwise hl,
    count_of_pairwise hm]
  by_cases hcl : c ∈ l <;> by_cases hcm : c ∈ m <;> simp [hcl, hcm]

theorem toFinset_xorMerge : (xorMerge l m).toFinset = symmDiff l.toFinset m.toFinset := by
  ext c
  rw [mem_toFinset, mem_xorMerge hl hm, Finset.mem_symmDiff, mem_toFinset, mem_toFinset]
  tauto

theorem length_xorMerge : (xorMerge l m).length = (symmDiff l.toFinset m.toFinset).card := by
  rw [← toFinset_xorMerge hl hm,
    List.toFinset_card_of_nodup (nodup_of_pairwise (pairwise_xorMerge hl hm))]

end

end

theorem pairwise_insertionSort (hl : l.Nodup) : (l.insertionSort (· ≤ ·)).Pairwise (· < ·) := by
  have hsorted := List.pairwise_insertionSort (· ≤ ·) l
  have hnodup := (List.perm_insertionSort (· ≤ ·) l).nodup_iff.mpr hl
  exact (hsorted.and hnodup).imp fun h => lt_of_le_of_ne h.1 h.2

end XorMerge

end CadoNfs.SortedXor
