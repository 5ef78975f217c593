/-
  Recovery undoes dispatch: successive calls of `commit_exception_mode` give back the map
  table and the free registers as they were before the entries of the Active List were
  dispatched.
-/
import R10000.Undo
import R10000.Results.LifeCycle

namespace R10000

open Fallible

/-- `k` successive calls of `commit_exception_mode`. -/
def recoveries : (k : ℕ) → ProcM Unit
  | 0 => pure ()
  | k + 1 => do
    recoveries k
    commitExceptionMode

/-- The calls that a full recovery takes: a fourth of the entries, rounded up. -/
def rounds (p : Processor) : ℕ := (p.activeList.count + 3) / 4

/-- A call of `commit_exception_mode` takes the four youngest entries off the Active List, or
    all if there are fewer.  It goes from the youngest entry on, and before each iteration of
    its loop the youngest entry finds its own register in the map table. -/
structure RollsBack (q : Processor) : Prop where
  removes : ∃ q', commitExceptionMode q = .ok () q' ∧
    q'.activeList.toList = q.activeList.toList.take (q.activeList.count - 4)
  finds : ∀ t < 4, ∀ rest e, q.activeList.toList.take (q.activeList.count - t) = rest ++ [e] →
    ∃ q', recoverLoop t q.activeList.count q = .ok () q' ∧
      commitExceptionMode q = recoverLoop (4 - t) q'.activeList.count q' ∧
      q'.activeList.toList = rest ++ [e] ∧ tableGet q'.logical e.logDest = .ok e.currPhyDest

/-- `q` is `p` after a full recovery. -/
structure Recovered (p q : Processor) : Prop where
  activeList : q.activeList.toList = []
  logical : ∀ r : UInt8, r.toNat < 32 → rd q.logical r = committedReg p r
  freeList : q.freeList.toList =
    p.freeList.toList ++ (p.activeList.toList.map (·.currPhyDest)).reverse
  isBusy : ∀ x : UInt8, x.toNat < 64 → rd q.isBusy x =
    if x ∈ p.activeList.toList.map (·.currPhyDest) then false else rd p.isBusy x
  physical : q.physical = p.physical

/-- From `p`, `rounds p` calls undo the Active List; whatever is dispatched first, the map
    table and the set of the free registers are the same after a full recovery. -/
structure RecoveryUndoes (p : Processor) : Prop where
  calls : ∀ j < rounds p, ∃ q, recoveries j p = .ok () q ∧
    q.activeList.toList = p.activeList.toList.take (p.activeList.count - 4 * j) ∧ RollsBack q
  done : ∃ q, recoveries (rounds p) p = .ok () q ∧ Recovered p q
  dispatch : ∀ (dir : Fifo Instruction instructionsPerCycle) (uninit : ℕ → UInt8),
    (∀ x ∈ dir.toList, x.WellFormed) →
    let p' := endState (renameDispatchCycle uninit { p with dir })
    ∃ q q', recoveries (rounds p) p = .ok () q ∧ recoveries (rounds p') p' = .ok () q' ∧
      q.activeList.toList = [] ∧ q'.activeList.toList = [] ∧ q'.logical = q.logical ∧
      q'.freeList.toList.Perm q.freeList.toList

/-! ## The calls -/

theorem recoverLoop_zero (n : ℕ) : recoverLoop n 0 = pure () := by
  cases n <;> rfl

/-- The loop in two parts. -/
theorem recoverLoop_add (b : ℕ) : ∀ a count : ℕ, recoverLoop (a + b) count = (do
    recoverLoop a count
    recoverLoop b (count - a))
  | 0, count => by rw [Nat.zero_add]; rfl
  | a + 1, 0 => by
    rw [recoverLoop_zero, recoverLoop_zero, Nat.zero_sub, recoverLoop_zero]
    rfl
  | a + 1, count + 1 => by
    rw [Nat.add_right_comm, recoverLoop, recoverLoop_add b a, recoverLoop, bind_assoc,
      Nat.add_sub_add_right]

section
variable {p q : Processor}

theorem commitExceptionMode_eq (h : q.activeList.count ≠ 0) :
    commitExceptionMode q = recoverLoop 4 q.activeList.count q := by
  simp [commitExceptionMode, h]

theorem view_count (p : Processor) : p.activeList.count = (view p).activeList.length :=
  (Fifo.length_toList _).symm

/-- The state of the machine after `k` rollbacks. -/
theorem recover_take (hs : Safe (view p)) (hc : Chained (view p).logical (view p).activeList)
    {k : ℕ} (hk : k ≤ p.activeList.count) :
    Undone (view p) ((view p).recover k)
      ((view p).activeList.take (p.activeList.count - k))
      ((view p).activeList.drop (p.activeList.count - k)) := by
  have h := recover_undone ((view p).activeList.drop (p.activeList.count - k)) hs hc
    (List.take_append_drop _ _).symm
  rwa [List.length_drop, ← view_count, Nat.sub_sub_self hk] at h

theorem rollsBack (hs : Safe (view q)) (hc : Chained (view q).logical (view q).activeList)
    (h0 : q.activeList.count ≠ 0) : RollsBack q where
  removes := by
    obtain ⟨q', h1, h2⟩ := commitExceptionMode_sim hs
    have hl : (view q).activeList ≠ [] := by
      rwa [view_count, Ne, List.length_eq_zero_iff] at h0
    rw [Machine.endException, if_neg hl] at h2
    refine ⟨q', h1, ?_⟩
    have h := recover_activeList instructionsPerCycle (view q)
    rw [← h2, ← view_count] at h
    exact h
  finds := by
    intro t ht rest e hl
    have htc : t < q.activeList.count := by
      by_contra hle
      rw [Nat.sub_eq_zero_of_le (Nat.le_of_not_lt hle), List.take_zero] at hl
      exact List.append_ne_nil_of_right_ne_nil _ (List.cons_ne_nil e []) hl.symm
    obtain ⟨q', h1, h2⟩ := recoverLoop_sim t q hs
    rw [Fifo.length_toList] at h1
    have hu := recover_take hs hc htc.le
    rw [← h2] at hu
    have hal : q'.activeList.toList = rest ++ [e] := hu.activeList.trans hl
    have hchain := hu.chained
    rw [show (view q').activeList = rest ++ [e] from hal] at hchain
    have hr : e.logDest.toNat < 32 := hu.safe.logDest_lt e (by
      rw [show (view q').activeList = rest ++ [e] from hal]; simp)
    refine ⟨q', h1, ?_, hal, ?_⟩
    · have hcount : q'.activeList.count = q.activeList.count - t := by
        rw [view_count, hu.activeList, List.length_take, ← view_count]
        omega
      rw [commitExceptionMode_eq h0, show 4 = t + (4 - t) by omega, recoverLoop_add, bind_ok h1,
        hcount]
      congr 1
      omega
    · rw [tableGet_eq hr, (rollback_map hchain).2.2]
      rfl

/-- Calls that start with entries left only roll back. -/
theorem recoveries_sim (hs : Safe (view p)) (hc : Chained (view p).logical (view p).activeList) :
    ∀ j ≤ rounds p, Sim view (recoveries j) p () ((view p).recover (4 * j))
  | 0, _ => ⟨p, rfl, rfl⟩
  | j + 1, hj => by
    unfold rounds at hj
    have hlt : 4 * j < p.activeList.count := by omega
    refine (recoveries_sim hs hc j (by unfold rounds; omega)).bind fun q hq => ?_
    have hu := recover_take hs hc hlt.le
    rw [← hq] at hu
    have hne : (view q).activeList ≠ [] := by
      rw [hu.activeList, ← List.length_pos_iff, List.length_take, ← view_count]
      omega
    have h := commitExceptionMode_sim hu.safe
    rw [Machine.endException, if_neg hne, hq, ← Machine.recover_add] at h
    exact h

theorem recoveries_done (hs : Safe (view p))
    (hc : Chained (view p).logical (view p).activeList) :
    Sim view (recoveries (rounds p)) p () ((view p).recover (view p).activeList.length) := by
  have h := recoveries_sim hs hc (rounds p) le_rfl
  rwa [Machine.recover_of_length_le (by rw [← view_count, rounds]; omega)] at h

end

/-! ## Recovery and dispatch -/

theorem recoveryUndoes {p : Processor} (hs : Safe (view p))
    (hc : Chained (view p).logical (view p).activeList) : RecoveryUndoes p where
  calls := by
    intro j hj
    obtain ⟨q, h1, h2⟩ := recoveries_sim hs hc j hj.le
    unfold rounds at hj
    have hu := recover_take hs hc (k := 4 * j) (by omega)
    rw [← h2] at hu
    refine ⟨q, h1, hu.activeList, rollsBack hu.safe hu.chained ?_⟩
    rw [view_count, hu.activeList, List.length_take, ← view_count]
    omega
  done := by
    obtain ⟨q, h1, h2⟩ := recoveries_done hs hc
    have hu := recover_all hs hc
    rw [← h2] at hu
    refine ⟨q, h1, hu.activeList, fun r _ => ?_, hu.freeList, hu.isBusy, hu.physical⟩
    rw [← archMap_eq_committedReg]
    exact congrFun hu.logical r
  dispatch := by
    intro dir uninit hdir p'
    -- the state with the other DIR recovers as `p` does
    let pd : Processor := { p with dir }
    have hsd : Safe (view pd) := { hs with
      dir_le := by
        simp only [pd, view, Fifo.length_toList]
        exact dir.ok.count_le.trans dir.capacity_eq.le
      dir_ok := hdir }
    have hview : view p' = ((view pd).dispatchStage uninit).1 := by
      have h := renameDispatchCycle_ends hsd uninit
      unfold Ends at h
      split_ifs at h
      · exact h.endState
      · exact h.endState
    have hsame : SameCommitted (view p) (view p') :=
      { hview ▸ SameCommitted.dispatchStage uninit hsd hc with }
    have hs' : Safe (view p') := hview ▸ hsd.dispatchStage uninit
    obtain ⟨q, h1, h2⟩ := recoveries_done hs hc
    obtain ⟨q', h3, h4⟩ := recoveries_done hs' hsame.chained
    have hq := (recover_all hs hc).activeList
    have hq' := (recover_all hs' hsame.chained).activeList
    obtain ⟨hlogical, hfree⟩ := hsame.recover hs hs' hc
    rw [← h2, ← h4] at hlogical hfree
    rw [← h2] at hq
    rw [← h4] at hq'
    exact ⟨q, q', h1, h3, hq, hq', hlogical, hfree⟩

/-- **Recovery undoes dispatch exactly**, from every state of a run and from every state in
    which a cycle comes to dispatch. -/
theorem recovery_undoes_dispatch {P : Program} (hP : P.WellFormed) (hshort : P.Short)
    (ready : Bool) (uninit : ℕ → ℕ → UInt8) (n : ℕ) :
    ∃ p, runFrom ready P uninit n = some p ∧ RecoveryUndoes p ∧
      RecoveryUndoes (atDispatch p) := by
  obtain ⟨p, h1, -⟩ := runFrom_ok hP ready uninit n
  have hs := safe_runFrom hP h1
  have hlive := live_runFrom hP hshort h1
  have hview := view_atDispatch hs
  refine ⟨p, h1, recoveryUndoes hs hlive.window.chained, recoveryUndoes (hview ▸ hs.backEnd) ?_⟩
  rw [hview]
  -- issue leaves the Active List and the map table alone
  rcases (hlive.commitStage hs).executeStage.writeBackStage hs.commitStage.executeStage
    with hn | hr
  · exact hn.window.chained
  · exact hr.window.chained

theorem recovery_undoes_dispatch_small : ∃ p,
    runFrom false smallProgram (fun _ _ => 0) 6 = some p ∧ RecoveryUndoes p ∧
      RecoveryUndoes (atDispatch p) :=
  recovery_undoes_dispatch smallProgram_wellFormed smallProgram_short false _ 6

end R10000
