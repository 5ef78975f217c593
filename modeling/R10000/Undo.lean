/-
  Recovery as the inverse of dispatch.

  A rollback needs only that the Active List is chained: it gives the youngest renamed
  register its old mapping back, which undoes the youngest write.  So `n` rollbacks undo
  the `n` youngest writes, and a full recovery leaves the committed map behind, the map
  that dispatch does not touch.
-/
import R10000.Invariant

namespace R10000

open Renaming

/-! ## The recovery loop -/

namespace Machine

variable {m : Machine}

theorem recover_nil (h : m.activeList = []) : ∀ n, m.recover n = m
  | 0 => rfl
  | n + 1 => by
    unfold recover
    rw [h]; rfl

theorem recover_concat {e : ActiveListEntry} {rest : List ActiveListEntry}
    (h : m.activeList = rest ++ [e]) (n : ℕ) :
    m.recover (n + 1) = (m.rollback e rest).recover n := by
  rw [recover, h]
  simp only [List.getLast?_concat, List.dropLast_concat]

theorem recover_add (b : ℕ) : ∀ (a : ℕ) (m : Machine), m.recover (a + b) = (m.recover a).recover b
  | 0, m => by rw [Nat.zero_add]; rfl
  | a + 1, m => by
    rw [Nat.add_right_comm]
    rcases List.eq_nil_or_concat m.activeList with hl | ⟨rest, e, hl⟩
    · rw [recover_nil hl, recover_nil hl, recover_nil hl]
    · rw [List.concat_eq_append] at hl
      rw [recover_concat hl, recover_concat hl, recover_add b a]

theorem recover_of_length_le {n : ℕ} (h : m.activeList.length ≤ n) :
    m.recover n = m.recover m.activeList.length := by
  obtain ⟨k, rfl⟩ := Nat.exists_eq_add_of_le h
  rw [recover_add, recover_nil]
  rw [recover_activeList, Nat.sub_self, List.take_zero]

end Machine

/-! ## What recovery undoes -/

/-- `m'` is `m` with the renamings of the youngest entries `undone` undone, and `rest` left. -/
structure Undone (m m' : Machine) (rest undone : List ActiveListEntry) : Prop where
  activeList : m'.activeList = rest
  logical : rd m'.logical = before (rd m.logical) (writes undone)
  freeList : m'.freeList = m.freeList ++ (undone.map (·.currPhyDest)).reverse
  isBusy : ∀ q : UInt8, q.toNat < 64 → rd m'.isBusy q =
    if q ∈ undone.map (·.currPhyDest) then false else rd m.isBusy q
  physical : m'.physical = m.physical
  chained : Chained m'.logical m'.activeList
  safe : Safe m'

/-- **Recovery undoes the youngest writes**, youngest first. -/
theorem recover_undone : ∀ (undone : List ActiveListEntry) {rest : List ActiveListEntry}
    {m : Machine}, Safe m → Chained m.logical m.activeList → m.activeList = rest ++ undone →
    Undone m (m.recover undone.length) rest undone := by
  intro undone
  induction undone using List.reverseRecOn with
  | nil =>
    intro rest m hs hc hl
    rw [List.append_nil] at hl
    exact ⟨hl, rfl, by simp [Machine.recover], fun _ _ => by simp [Machine.recover], rfl, hc, hs⟩
  | append_singleton undone e ih =>
    intro rest m hs hc hl
    rw [← List.append_assoc] at hl
    have hr : e.logDest.toNat < 32 := hs.logDest_lt e (by simp [hl])
    rw [hl] at hc
    have hcur : rd m.logical e.logDest = e.currPhyDest := (rollback_map hc).2.2.symm
    have hlt : e.currPhyDest.toNat < 64 := hcur ▸ hs.logical_lt hr
    have h := ih (m := m.rollback e (rest ++ undone)) (hs.rollback hl) (hc.rollback hr) rfl
    rw [List.length_append, List.length_singleton, Machine.recover_concat hl]
    refine ⟨h.activeList, ?_, ?_, fun q hq => ?_, h.physical, h.chained, h.safe⟩
    · rw [h.logical, writes_append, writes_cons, writes_nil, before_concat]
      simp only [Machine.rollback]
      rw [rd_wr_update hr]; rfl
    · rw [h.freeList]
      simp [Machine.rollback, hcur]
    · rw [h.isBusy q hq]
      simp only [Machine.rollback, hcur, rd_wr hlt, List.map_append, List.map_cons, List.map_nil,
        List.mem_append, List.mem_singleton]
      by_cases h1 : q ∈ undone.map (·.currPhyDest)
      · rw [if_pos h1, if_pos (.inl h1)]
      · rw [if_neg h1]
        by_cases h2 : q = e.currPhyDest
        · rw [if_pos h2, if_pos (.inr h2)]
        · rw [if_neg h2, if_neg (not_or.2 ⟨h1, h2⟩)]

/-- A full recovery leaves the committed map behind. -/
theorem recover_all {m : Machine} (hs : Safe m) (hc : Chained m.logical m.activeList) :
    Undone m (m.recover m.activeList.length) [] m.activeList :=
  recover_undone m.activeList hs hc rfl

/-! ## What dispatch leaves to recovery -/

/-- A full recovery finds the same in `m'` as in `m`: the committed map and, together, the
    free registers and the ones that it frees. -/
structure SameCommitted (m m' : Machine) : Prop where
  chained : Chained m'.logical m'.activeList
  map : archMap m'.logical m'.activeList = archMap m.logical m.activeList
  regs : (m'.freeList ++ m'.activeList.map (·.currPhyDest)).Perm
    (m.freeList ++ m.activeList.map (·.currPhyDest))

section
variable {m m' : Machine}

theorem SameCommitted.dispatch (hs : Safe m') (h : SameCommitted m m') {x : Instruction}
    {dir : List Instruction} {p : UInt8} {freeList : List UInt8} (hd : m'.dir = x :: dir)
    (hf : m'.freeList = p :: freeList) : SameCommitted m (m'.dispatch x dir p freeList) := by
  have hr : x.dest.logId.toNat < 32 := (hs.dir_ok x (by simp [hd])).fit.dest.2
  have hc := h.chained
  have hold : (⟨false, false, x.dest.logId, rd m'.logical x.dest.logId, p, x.pc⟩ :
      ActiveListEntry).oldPhyDest = rd m'.logical x.dest.logId := rfl
  refine ⟨hc.allocate hold hr, (archMap_allocate hc hold hr).trans h.map, ?_⟩
  refine .trans ?_ h.regs
  simp only [Machine.dispatch, Machine.allocate, List.map_append, List.map_cons, List.map_nil, hf]
  calc freeList ++ (m'.activeList.map (·.currPhyDest) ++ [p])
      _ = (freeList ++ m'.activeList.map (·.currPhyDest)) ++ [p] := (List.append_assoc ..).symm
      _ |>.Perm (p :: (freeList ++ m'.activeList.map (·.currPhyDest))) :=
        List.perm_append_singleton _ _

theorem SameCommitted.dispatchStage (uninit : ℕ → UInt8) (hs : Safe m)
    (hc : Chained m.logical m.activeList) : SameCommitted m (m.dispatchStage uninit).1 := by
  unfold Machine.dispatchStage
  split_ifs with hst
  · exact ⟨hc, rfl, .refl _⟩
  · refine Machine.dispatchLoop_induction
      (I := fun n m' => Safe m' ∧ m'.iq.length + n ≤ 32 ∧ SameCommitted m m')
      (J := fun r => SameCommitted m r.1) uninit ?_ ?_ ?_ ?_ _ _ _
      ⟨hs.setBackpressure false, (hs.room (by simpa using hst)).2.2, ⟨hc, rfl, .refl _⟩⟩
    · rintro n m' x dir p freeList hd hf ⟨hs', hn, h⟩
      refine ⟨hs'.dispatch hd hf (by omega), ?_, h.dispatch hs' hd hf⟩
      rw [Machine.length_dispatch_iq]
      omega
    · exact fun m' h => h.2.2
    · exact fun n m' x dir hd h => { h.2.2 with }
    · exact fun n m' h => h.2.2

theorem rd_ext {v w : Vector UInt8 regLogFileSize} (h : rd v = rd w) : v = w := by
  refine Vector.ext fun i hi => ?_
  have := congrFun h (UInt8.ofNat i)
  rw [rd, rd, toNat_ofNat (by simp only [regLogFileSize] at hi; omega)] at this
  simpa [hi] using this

/-- **A full recovery gives back the same map table and the same free registers.** -/
theorem SameCommitted.recover (hs : Safe m) (hs' : Safe m') (hc : Chained m.logical m.activeList)
    (h : SameCommitted m m') :
    (m'.recover m'.activeList.length).logical = (m.recover m.activeList.length).logical ∧
      (m'.recover m'.activeList.length).freeList.Perm
        (m.recover m.activeList.length).freeList := by
  have h1 := recover_all hs hc
  have h2 := recover_all hs' h.chained
  constructor
  · apply rd_ext
    rw [h1.logical, h2.logical]
    exact h.map
  · rw [h1.freeList, h2.freeList]
    calc m'.freeList ++ (m'.activeList.map (·.currPhyDest)).reverse
        _ |>.Perm (m'.freeList ++ m'.activeList.map (·.currPhyDest)) :=
          (List.reverse_perm _).append_left _
        _ |>.Perm (m.freeList ++ m.activeList.map (·.currPhyDest)) := h.regs
        _ |>.Perm (m.freeList ++ (m.activeList.map (·.currPhyDest)).reverse) :=
          (List.reverse_perm _).symm.append_left _

end

end R10000
