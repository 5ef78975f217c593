/-
  Register renaming.

  A map `M : R → P` sends names to places.  A window `ws` is the list of writes in
  progress, oldest first; a write gives its name `reg` the place `new` and remembers
  the place `old` that it replaces.  `after M ws` is the map that the youngest writes
  leave behind, `before N ws` undoes the writes youngest first, and `Linked M ws` says
  that every write remembers the place its name had.  A window is committed from its
  head, which moves `M`, and undone from its tail, which moves `after M ws`.
-/
import Mathlib.Data.List.Basic
import Mathlib.Data.List.Induction
import Mathlib.Data.List.Nodup
import Mathlib.Data.List.Perm.Basic
import Mathlib.Logic.Function.Basic

namespace Renaming

variable {R P : Type}

/-- A write in progress. -/
structure Write (R P : Type) where
  reg : R
  old : P
  new : P

variable [DecidableEq R]

/-- The map after the writes of a window. -/
def after (M : R → P) : List (Write R P) → R → P
  | [] => M
  | w :: ws => after (Function.update M w.reg w.new) ws

/-- The map before the writes of a window. -/
def before (N : R → P) : List (Write R P) → R → P
  | [] => N
  | w :: ws => Function.update (before N ws) w.reg w.old

/-- Every write of the window remembers the place that its name had. -/
def Linked (M : R → P) : List (Write R P) → Prop
  | [] => True
  | w :: ws => w.old = M w.reg ∧ Linked (Function.update M w.reg w.new) ws

variable {M N : R → P} {w : Write R P}

@[simp] theorem after_nil : after M [] = M := rfl

theorem after_append (ws vs : List (Write R P)) :
    after M (ws ++ vs) = after (after M ws) vs := by
  induction ws generalizing M with
  | nil => rfl
  | cons w ws ih => exact ih

theorem after_concat (ws : List (Write R P)) (w : Write R P) :
    after M (ws ++ [w]) = Function.update (after M ws) w.reg w.new := by
  rw [after_append]; rfl

theorem linked_append (ws vs : List (Write R P)) :
    Linked M (ws ++ vs) ↔ Linked M ws ∧ Linked (after M ws) vs := by
  induction ws generalizing M with
  | nil => simp [Linked]
  | cons w ws ih => simp only [List.cons_append, Linked, ih, after, and_assoc]

theorem linked_concat (ws : List (Write R P)) (w : Write R P) :
    Linked M (ws ++ [w]) ↔ Linked M ws ∧ w.old = after M ws w.reg := by
  rw [linked_append]
  simp [Linked]

theorem before_concat (N : R → P) (ws : List (Write R P)) (w : Write R P) :
    before N (ws ++ [w]) = before (Function.update N w.reg w.old) ws := by
  induction ws with
  | nil => rfl
  | cons v ws ih => rw [List.cons_append, before, ih]; rfl

/-- Undoing a linked window gives its map back. -/
theorem before_after {ws : List (Write R P)} (h : Linked M ws) : before (after M ws) ws = M := by
  induction ws generalizing M with
  | nil => rfl
  | cons w ws ih =>
    obtain ⟨h1, h2⟩ := h
    have hb : before (after M (w :: ws)) ws = Function.update M w.reg w.new := ih h2
    rw [before, hb, Function.update_idem, h1, Function.update_eq_self]

/-- The oldest write of a name remembers its place before the window. -/
theorem before_eq (N : R → P) (ws : List (Write R P)) (r : R) :
    before N ws r = ((ws.find? fun w => w.reg = r).map Write.old).getD (N r) := by
  induction ws with
  | nil => rfl
  | cons w ws ih =>
    rw [before, List.find?_cons]
    by_cases hr : w.reg = r
    · subst hr; simp
    · rw [Function.update_of_ne (Ne.symm hr), ih]
      simp [hr]

/-- The youngest write of a name says its place after the window. -/
theorem after_eq (M : R → P) (ws : List (Write R P)) (r : R) :
    after M ws r = (((ws.filter fun w => w.reg = r).getLast?).map Write.new).getD (M r) := by
  induction ws using List.reverseRecOn with
  | nil => rfl
  | append_singleton ws w ih =>
    rw [after_concat, List.filter_append]
    by_cases hr : w.reg = r
    · subst hr; simp
    · rw [Function.update_of_ne (Ne.symm hr), ih]
      simp [hr]

theorem after_mem (M : R → P) (ws : List (Write R P)) (r : R) :
    (∃ w ∈ ws, w.reg = r ∧ after M ws r = w.new) ∨
      (∀ w ∈ ws, w.reg ≠ r) ∧ after M ws r = M r := by
  induction ws using List.reverseRecOn with
  | nil => exact .inr ⟨by simp, rfl⟩
  | append_singleton ws w ih =>
    rw [after_concat]
    by_cases hr : w.reg = r
    · exact .inl ⟨w, by simp, hr, by rw [← hr, Function.update_self]⟩
    · rw [Function.update_of_ne (Ne.symm hr)]
      rcases ih with ⟨v, hv, h1, h2⟩ | ⟨h1, h2⟩
      · exact .inl ⟨v, List.mem_append_left _ hv, h1, h2⟩
      · refine .inr ⟨fun v hv => ?_, h2⟩
        rcases List.mem_append.1 hv with hv | hv
        · exact h1 v hv
        · rw [List.mem_singleton.1 hv]; exact hr

/-! ## Places -/

theorem map_update_perm {rs : List R} (hn : rs.Nodup) {r : R} (hr : r ∈ rs) (q : P) :
    (M r :: rs.map (Function.update M r q)).Perm (q :: rs.map M) := by
  induction rs with
  | nil => cases hr
  | cons s rs ih =>
    obtain ⟨hs, hn⟩ := List.nodup_cons.1 hn
    rw [List.map_cons, List.map_cons]
    by_cases hrs : s = r
    · subst hrs
      have : rs.map (Function.update M s q) = rs.map M :=
        List.map_congr_left fun x hx => Function.update_of_ne (fun e => hs (by rwa [← e])) _ _
      rw [Function.update_self, this]
      exact .swap _ _ _
    · have hr' : r ∈ rs := by simpa [Ne.symm hrs] using hr
      rw [Function.update_of_ne hrs]
      calc (M r :: M s :: rs.map (Function.update M r q))
          _ |>.Perm (M s :: M r :: rs.map (Function.update M r q)) := .swap _ _ _
          _ |>.Perm (M s :: q :: rs.map M) := (ih hn hr').cons _
          _ |>.Perm (q :: M s :: rs.map M) := .swap _ _ _

/-- A linked window exchanges the places it remembers for the ones it gives. -/
theorem places_perm {rs : List R} (hn : rs.Nodup) {ws : List (Write R P)} (h : Linked M ws)
    (hr : ∀ w ∈ ws, w.reg ∈ rs) :
    (rs.map (after M ws) ++ ws.map Write.old).Perm (rs.map M ++ ws.map Write.new) := by
  induction ws generalizing M with
  | nil => exact .refl _
  | cons w ws ih =>
    obtain ⟨h1, h2⟩ := h
    have hw := map_update_perm (M := M) hn (hr w List.mem_cons_self) w.new
    have hws := ih h2 fun v hv => hr v (List.mem_cons_of_mem _ hv)
    rw [List.map_cons, List.map_cons, h1, after]
    calc rs.map (after (Function.update M w.reg w.new) ws) ++ M w.reg :: ws.map Write.old
        _ |>.Perm (M w.reg :: (rs.map (after (Function.update M w.reg w.new) ws) ++
            ws.map Write.old)) := List.perm_middle
        _ |>.Perm (M w.reg :: (rs.map (Function.update M w.reg w.new) ++ ws.map Write.new)) :=
          hws.cons _
        _ |>.Perm (w.new :: (rs.map M ++ ws.map Write.new)) := hw.append_right _
        _ |>.Perm (rs.map M ++ w.new :: ws.map Write.new) := List.perm_middle.symm

end Renaming
