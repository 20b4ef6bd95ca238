import Mathlib.Data.List.GetD
import Mathlib.Data.List.Range

/-!
# A ring of cells

A window of the cells of a ring, from a place on and around the end, and copies into the ring that
are made in one part or in two.

Main results:

- Theorem `window_write`: what is written behind a window is appended to it.
- Theorem `window_drop`: what is read at the front of a window is taken off.
-/

namespace RingBuffer

variable {α : Type*} {mem : ℕ → α} {alloc head n k : ℕ}

/-- The place that is reached when the end of the ring is passed at most once. -/
def wrap (alloc x : ℕ) : ℕ := if x < alloc then x else x - alloc

/-- The contents of `n` cells of a ring. -/
def window (mem : ℕ → α) (alloc head n : ℕ) : List α :=
  (List.range n).map fun i => mem (wrap alloc (head + i))

/-- `memcpy`. -/
def memcpy (dst : ℕ → α) (start : ℕ) (src : ℕ → α) (n : ℕ) : ℕ → α := fun x =>
  if start ≤ x ∧ x < start + n then src (x - start) else dst x

@[simp]
theorem length_window : (window mem alloc head n).length = n := by
  rw [window, List.length_map, List.length_range]

theorem window_congr {mem' : ℕ → α} {alloc' head' : ℕ}
    (h : ∀ i < n, mem (wrap alloc (head + i)) = mem' (wrap alloc' (head' + i))) :
    window mem alloc head n = window mem' alloc' head' n :=
  List.map_congr_left fun i hi => h i (List.mem_range.mp hi)

theorem window_add (hhead : head < alloc ∨ alloc = 0) (hn : n + k ≤ alloc) :
    window mem alloc head (n + k)
      = window mem alloc head n ++ window mem alloc (wrap alloc (head + n)) k := by
  unfold window
  rw [List.range_add, List.map_append, List.map_map]
  congr 1
  refine List.map_congr_left fun i hi => congrArg mem ?_
  have hik := List.mem_range.mp hi
  show wrap alloc (head + (n + i)) = wrap alloc (wrap alloc (head + n) + i)
  unfold wrap
  split_ifs <;> omega

/-- The front of a window is taken off. -/
theorem window_drop (hhead : head < alloc ∨ alloc = 0) (hn : n ≤ alloc) (hk : k ≤ n) :
    (window mem alloc head n).drop k = window mem alloc (wrap alloc (head + k)) (n - k) := by
  obtain ⟨m, rfl⟩ := Nat.exists_eq_add_of_le hk
  rw [window_add hhead hn, Nat.add_sub_cancel_left, List.drop_left' length_window]

theorem window_take (hk : k ≤ n) :
    (window mem alloc head n).take k = window mem alloc head k := by
  unfold window
  rw [← List.map_take, List.take_range, min_eq_left hk]

theorem window_eq_range' (hn : head + n ≤ alloc) :
    window mem alloc head n = (List.range' head n).map mem := by
  rw [window, List.range'_eq_map_range, List.map_map]
  refine List.map_congr_left fun i hi => congrArg mem ?_
  have hin := List.mem_range.mp hi
  exact if_pos (by omega)

/-- Cells behind a window are written: the window is longer. -/
theorem window_write {mem' : ℕ → α} {src : ℕ → α} (hhead : head < alloc ∨ alloc = 0)
    (hn : n + k ≤ alloc)
    (hmem : ∀ i < alloc, mem' (wrap alloc (wrap alloc (head + n) + i))
      = if i < k then src i else mem (wrap alloc (wrap alloc (head + n) + i))) :
    window mem' alloc head (n + k) = window mem alloc head n ++ (List.range k).map src := by
  rw [window_add hhead hn]
  congr 1
  · refine window_congr fun i hi => ?_
    -- seen from behind the window, a cell of the window comes after the free ones
    have hplace : wrap alloc (wrap alloc (head + n) + (i + (alloc - n)))
        = wrap alloc (head + i) := by
      unfold wrap
      split_ifs <;> omega
    rw [← hplace, hmem _ (by omega), if_neg (by omega)]
  · refine List.map_congr_left fun i hi => ?_
    have hik := List.mem_range.mp hi
    rw [hmem i (by omega), if_pos hik]

theorem memcpy_one {src : ℕ → α} {start : ℕ} (hk : start + k ≤ alloc) {i : ℕ} (hi : i < alloc) :
    memcpy mem start src k (wrap alloc (start + i))
      = if i < k then src i else mem (wrap alloc (start + i)) := by
  unfold memcpy
  by_cases hik : i < k
  · have hwrap : wrap alloc (start + i) = start + i := if_pos (by omega)
    rw [if_pos hik, hwrap, if_pos (by omega), Nat.add_sub_cancel_left]
  · rw [if_neg hik, if_neg]
    unfold wrap
    split_ifs <;> omega

theorem memcpy_two {src : ℕ → α} {start : ℕ} (hstart : start < alloc) (hk : k ≤ alloc)
    (hlong : alloc - start < k) {i : ℕ} (hi : i < alloc) :
    memcpy (memcpy mem start src (alloc - start)) 0 (fun x => src (alloc - start + x))
        (k - (alloc - start)) (wrap alloc (start + i))
      = if i < k then src i else mem (wrap alloc (start + i)) := by
  unfold memcpy
  by_cases htail : i < alloc - start
  · have hwrap : wrap alloc (start + i) = start + i := if_pos (by omega)
    rw [hwrap, if_neg (by omega), if_pos (by omega), if_pos (by omega), Nat.add_sub_cancel_left]
  · have hwrap : wrap alloc (start + i) = start + i - alloc := if_neg (by omega)
    rw [hwrap]
    by_cases hik : i < k
    · rw [if_pos hik, if_pos (by omega)]
      exact congrArg src (by omega)
    · rw [if_neg hik, if_neg (by omega), if_neg (by omega)]

end RingBuffer
