/-
  Circular buffers as lists.

  A memory `d : ℕ → α` is used as a ring of `cap` cells: `slot cap head i` is the
  cell `i` places after `head`, and `contents` lists the elements of `count` cells
  from `head` on.  Writing behind the last element appends, moving `head` removes
  the first element, and shifting the cells behind `i` down by one deletes the
  `i`-th element.
-/
import Mathlib.Data.List.Basic
import Mathlib.Logic.Function.Basic
import Mathlib.Order.Basic
import Mathlib.Data.Nat.Basic
import Mathlib.Tactic.SplitIfs

namespace Ring

variable {α : Type} {cap head count i j : ℕ} {d : ℕ → α}

/-- The cell `i` places after `head`. -/
def slot (cap head i : ℕ) : ℕ := (head + i) % cap

theorem slot_lt (h : head < cap) (i : ℕ) : slot cap head i < cap := Nat.mod_lt _ (by omega)

theorem slot_eq (hh : head < cap) (hi : i ≤ cap) :
    slot cap head i = if head + i < cap then head + i else head + i - cap := by
  unfold slot
  split_ifs with h
  · exact Nat.mod_eq_of_lt h
  · rw [Nat.mod_eq_sub_mod (by omega), Nat.mod_eq_of_lt (by omega)]

theorem slot_zero (hh : head < cap) : slot cap head 0 = head := by
  rw [slot_eq hh (by omega)]; simp [hh]

/-- Different places below the capacity are different cells. -/
theorem slot_inj (hh : head < cap) (hi : i < cap) (hj : j < cap) :
    slot cap head i = slot cap head j ↔ i = j := by
  rw [slot_eq hh (Nat.le_of_lt hi), slot_eq hh (Nat.le_of_lt hj)]
  split_ifs <;> omega

theorem slot_succ (i : ℕ) : slot cap head (i + 1) = slot cap (slot cap head 1) i := by
  simp only [slot, Nat.mod_add_mod]; congr 1; omega

/-- The elements of `count` cells from `head` on. -/
def contents (cap : ℕ) (d : ℕ → α) (head count : ℕ) : List α :=
  (List.range count).map fun i => d (slot cap head i)

@[simp] theorem contents_length : (contents cap d head count).length = count := by
  simp [contents]

theorem contents_getElem (h : i < (contents cap d head count).length) :
    (contents cap d head count)[i] = d (slot cap head i) := by
  simp [contents]

theorem contents_push (hh : head < cap) (hc : count < cap) (x : α) :
    contents cap (Function.update d (slot cap head count) x) head (count + 1) =
      contents cap d head count ++ [x] := by
  rw [contents, List.range_succ, List.map_append, List.map_singleton, Function.update_self]
  congr 1
  refine List.map_congr_left fun i hi => Function.update_of_ne ?_ _ _
  rw [Ne, slot_inj hh (by simp at hi; omega) hc]
  simp at hi; omega

theorem contents_pop (hh : head < cap) :
    contents cap d head (count + 1) = d head :: contents cap d (slot cap head 1) count := by
  rw [contents, List.range_succ_eq_map, List.map_cons, slot_zero hh, List.map_map]
  congr 1
  exact List.map_congr_left fun i _ => congrArg d (slot_succ i)

theorem contents_set (hh : head < cap) (hc : count ≤ cap) (hi : i < count) (x : α) :
    contents cap (Function.update d (slot cap head i) x) head count =
      (contents cap d head count).set i x := by
  refine List.ext_getElem (by simp) fun j h1 h2 => ?_
  simp only [contents_length] at h1
  rw [contents_getElem, List.getElem_set, contents_getElem]
  split_ifs with hij
  · rw [hij, Function.update_self]
  · rw [Function.update_of_ne]
    rw [Ne, slot_inj hh (by omega) (by omega)]; exact fun e => hij e.symm

/-- A memory whose cells behind `i` moved down by one holds the list without its `i`-th
    element. -/
theorem contents_delete {d' : ℕ → α} (hi : i < count)
    (hlow : ∀ j < i, d' (slot cap head j) = d (slot cap head j))
    (hhigh : ∀ j, i ≤ j → j < count - 1 → d' (slot cap head j) = d (slot cap head (j + 1))) :
    contents cap d' head (count - 1) = (contents cap d head count).eraseIdx i := by
  refine List.ext_getElem (by simp [List.length_eraseIdx, hi]) fun j h1 h2 => ?_
  simp only [contents_length] at h1
  rw [contents_getElem, List.getElem_eraseIdx]
  split_ifs with hj
  · rw [contents_getElem, hlow j hj]
  · rw [contents_getElem, hhigh j (by omega) h1]

end Ring
