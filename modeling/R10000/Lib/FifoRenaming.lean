/-
  Renaming from a queue of free places.

  A renamer works in program order: a name takes the place at the front of the pool, and the
  place that it had goes to the back at once.  A window of writes in progress lags behind: the
  old place of a write is free only when the write is committed.  As places are freed in the
  order of the writes, the free places followed by the old places of the window are still the
  pool of the renamer, whenever writes begin and are committed.
-/
import R10000.Lib.Renaming

namespace Renaming

/-- The place of each name, and the free places in the order in which they will be taken. -/
structure Renamer (R P : Type) where
  map : R → P
  pool : List P

namespace Renamer

variable {R P : Type} [DecidableEq R]

/-- Rename one name, unless there is no place left. -/
def rename (s : Renamer R P) (r : R) : Renamer R P :=
  match s.pool with
  | [] => s
  | q :: pool => ⟨Function.update s.map r q, pool ++ [s.map r]⟩

/-- Rename some names, one after the other. -/
def renames (s : Renamer R P) (rs : List R) : Renamer R P := rs.foldl rename s

/-- The window consists of the writes that the renamer makes. -/
def Makes : Renamer R P → List (Write R P) → Prop
  | _, [] => True
  | s, w :: ws => s.pool.head? = some w.new ∧ w.old = s.map w.reg ∧ (s.rename w.reg).Makes ws

/-- The window consists of writes of the renamer, which lead to its map `N`. -/
structure Follows (s : Renamer R P) (N : R → P) (ws : List (Write R P)) : Prop where
  makes : s.Makes ws
  map : N = (s.renames (ws.map Write.reg)).map

/-- The free places and the window have the places of the pool, in order. -/
structure Matches (s : Renamer R P) (N : R → P) (free : List P) (ws : List (Write R P)) : Prop
    extends s.Follows N ws where
  pool : free ++ ws.map Write.old = (s.renames (ws.map Write.reg)).pool

variable {s : Renamer R P} {N : R → P} {free : List P} {w : Write R P} {ws vs : List (Write R P)}

theorem rename_of_head {r : R} {q : P} {pool : List P} (h : s.pool = q :: pool) :
    s.rename r = ⟨Function.update s.map r q, pool ++ [s.map r]⟩ := by
  rw [rename, h]

theorem renames_append (rs rs' : List R) :
    s.renames (rs ++ rs') = (s.renames rs).renames rs' := List.foldl_append

theorem renames_concat (rs : List R) (r : R) : s.renames (rs ++ [r]) = (s.renames rs).rename r :=
  renames_append rs [r]

theorem makes_append : s.Makes (ws ++ vs) ↔
    s.Makes ws ∧ (s.renames (ws.map Write.reg)).Makes vs := by
  induction ws generalizing s with
  | nil => exact (iff_of_eq (true_and _)).symm
  | cons w ws ih =>
    rw [List.cons_append, Makes, Makes, ih, and_assoc, and_assoc]
    rfl

theorem makes_singleton : s.Makes [w] ↔ s.pool.head? = some w.new ∧ w.old = s.map w.reg := by
  simp only [Makes, and_true]

/-! ## The pool -/

theorem length_renames (h : s.pool ≠ []) (rs : List R) :
    (s.renames rs).pool.length = s.pool.length := by
  induction rs generalizing s with
  | nil => rfl
  | cons r rs ih =>
    obtain ⟨q, pool, hpool⟩ := List.exists_cons_of_ne_nil h
    have hstep := rename_of_head (r := r) hpool
    refine (ih (s := s.rename r) (by simp [hstep])).trans ?_
    simp [hstep, hpool]

/-- The places are taken in the order of the pool. -/
theorem head_renames {pre post : List P} {q : P} {rs : List R} (h : s.pool = pre ++ q :: post)
    (hlen : rs.length = pre.length) : (s.renames rs).pool.head? = some q := by
  induction rs generalizing s pre post with
  | nil =>
    rw [List.length_eq_zero_iff.1 hlen.symm] at h
    exact congrArg List.head? h
  | cons r rs ih =>
    obtain ⟨p, pre, rfl⟩ := List.exists_cons_of_length_pos (show 0 < pre.length by
      rw [← hlen]
      exact Nat.succ_pos _)
    have hpool : s.pool = p :: (pre ++ q :: post) := h
    have hstep : (s.rename r).pool = pre ++ q :: (post ++ [s.map r]) := by
      rw [rename_of_head hpool, List.append_assoc, List.cons_append]
    exact ih hstep (Nat.succ.inj hlen)

/-- A replaced place is taken again after as many names as there are places. -/
theorem head_recycled {r : R} {rs : List R} (h : rs.length + 1 = s.pool.length) :
    (s.renames (r :: rs)).pool.head? = some (s.map r) := by
  obtain ⟨q, pool, hpool⟩ := List.exists_cons_of_length_pos (show 0 < s.pool.length by
    rw [← h]
    exact Nat.succ_pos _)
  rw [hpool, List.length_cons] at h
  exact head_renames (s := s.rename r) (congrArg Renamer.pool (rename_of_head hpool))
    (Nat.succ.inj h)

/-! ## Windows -/

/-- The writes of a renamer are linked and lead to its map. -/
theorem Makes.after (h : s.Makes ws) : Linked s.map ws ∧
    Renaming.after s.map ws = (s.renames (ws.map Write.reg)).map := by
  induction ws generalizing s with
  | nil => exact ⟨trivial, rfl⟩
  | cons w ws ih =>
    obtain ⟨hnew, hold, hrest⟩ := h
    obtain ⟨pool, hpool⟩ := List.head?_eq_some_iff.1 hnew
    obtain ⟨hlinked, hafter⟩ := ih hrest
    rw [rename_of_head hpool] at hlinked hafter
    refine ⟨⟨hold, hlinked⟩, hafter.trans ?_⟩
    rw [List.map_cons, ← rename_of_head hpool]
    rfl

theorem Follows.before (h : s.Follows N ws) : Renaming.before N ws = s.map := by
  obtain ⟨hlinked, hafter⟩ := h.makes.after
  rw [h.map, ← hafter, before_after hlinked]

theorem Follows.write (h : s.Follows N (ws ++ w :: vs)) :
    (s.renames (ws.map Write.reg)).pool.head? = some w.new ∧
      w.old = (s.renames (ws.map Write.reg)).map w.reg := by
  obtain ⟨hnew, hold, -⟩ := (makes_append.1 h.makes).2
  exact ⟨hnew, hold⟩

/-- A rollback gives the map before the write back. -/
theorem Follows.rollback (h : s.Follows N (ws ++ [w])) :
    s.Follows (Function.update N w.reg w.old) ws := by
  obtain ⟨hmakes, hlast⟩ := makes_append.1 h.makes
  obtain ⟨hnew, hold⟩ := makes_singleton.1 hlast
  obtain ⟨pool, hpool⟩ := List.head?_eq_some_iff.1 hnew
  refine ⟨hmakes, ?_⟩
  rw [h.map, List.map_append, List.map_singleton, renames_concat, rename_of_head hpool,
    Function.update_idem, hold, Function.update_eq_self]

theorem Matches.commit (h : s.Matches N free (w :: ws)) :
    (s.rename w.reg).Matches N (free ++ [w.old]) ws where
  makes := h.makes.2.2
  map := h.map
  pool := by
    rw [List.append_assoc]
    exact h.pool

theorem Matches.allocate {q : P} (h : s.Matches N (q :: free) ws) (r : R) :
    s.Matches (Function.update N r q) free (ws ++ [⟨r, N r, q⟩]) := by
  have hpool : (s.renames (ws.map Write.reg)).pool = q :: (free ++ ws.map Write.old) := h.pool.symm
  have hstep := rename_of_head (r := r) hpool
  rw [← h.map] at hstep
  refine ⟨⟨makes_append.2 ⟨h.makes, makes_singleton.2 ⟨?_, ?_⟩⟩, ?_⟩, ?_⟩
  · rw [hpool]
    rfl
  · exact congrFun h.map r
  · rw [List.map_append, List.map_singleton, renames_concat, hstep]
  · rw [List.map_append, List.map_append, List.map_singleton, List.map_singleton, renames_concat,
      hstep, ← List.append_assoc]

end Renamer

end Renaming
