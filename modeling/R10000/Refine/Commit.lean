/-
  The processor refines the abstract machine.

  From a processor whose machine is safe, every stage of the source returns and does
  what the stage of the machine does (`Sim view`); the one failure is that of
  `free_list_pop` on an uninitialised byte that is out of range, and it too is the
  machine's.
-/
import R10000.Lib.Fallible
import R10000.Safe

namespace R10000

open Fallible

/-! ## The Active List and the Free List -/

section
variable {q : ActiveList} {i : ℕ}

theorem activeListPush_ok (h : q.toList.length < 32) (e : ActiveListEntry) :
    ∃ q', activeListPush q e = .ok q' ∧ q'.toList = q.toList ++ [e] := by
  obtain ⟨q', h1, h2⟩ := Fifo.push_ok h e
  exact ⟨q', by rw [activeListPush, h1]; rfl, h2⟩

theorem activeListPeekLogical_ok (h : i < q.toList.length) :
    activeListPeekLogical q i = .ok q.toList[i] := by
  rw [activeListPeekLogical, if_neg (by rw [Fifo.length_toList] at h; omega),
    Fifo.peekLogical_ok h]

theorem activeListPeekLogical_head {e : ActiveListEntry} {rest : List ActiveListEntry}
    (hl : q.toList = e :: rest) : activeListPeekLogical q 0 = .ok e := by
  rw [activeListPeekLogical_ok (by simp [hl])]
  simp [hl]

theorem isEmpty_cons {e : ActiveListEntry} {rest : List ActiveListEntry}
    (hl : q.toList = e :: rest) : q.isEmpty = false := by
  rw [Bool.eq_false_iff, Ne, Fifo.isEmpty_iff, hl]
  exact List.cons_ne_nil e rest

theorem activeListPopLogical_ok (h : i < q.toList.length) : ∃ q',
    activeListPopLogical q i = .ok (q.toList[i], q') ∧ q'.toList = q.toList.eraseIdx i := by
  rw [activeListPopLogical, if_neg (by rw [Fifo.length_toList] at h; omega)]
  exact Fifo.popLogical_ok h

theorem markLoop_ok (update : ActiveListEntry → ActiveListEntry) (pc : ℕ) :
    ∀ (n i : ℕ) (q : ActiveList), i + n = q.toList.length → ∃ q',
      markLoop update pc n i q = .ok q' ∧
        q'.toList = q.toList.take i ++ markFirst update pc (q.toList.drop i)
  | 0, i, q, h => ⟨q, rfl, by
      rw [Nat.add_zero] at h
      rw [h, List.take_length, List.drop_length]; simp [markFirst]⟩
  | n + 1, i, q, h => by
    have hi : i < q.toList.length := by omega
    rw [List.drop_eq_getElem_cons hi]
    simp only [markLoop, Fifo.peekLogical_ok hi, bind, Except.bind, markFirst]
    split_ifs with hpc
    · obtain ⟨q', h1, h2⟩ := Fifo.updateLogical_ok hi (update q.toList[i])
      refine ⟨q', by rw [h1]; rfl, ?_⟩
      rw [h2, List.set_eq_take_append_cons_drop, if_pos hi]
    · obtain ⟨q', h1, h2⟩ := markLoop_ok update pc n (i + 1) q (by omega)
      refine ⟨q', h1, ?_⟩
      rw [h2, List.take_add_one, List.getElem?_eq_getElem hi, List.append_assoc]; rfl

theorem activeListMarkDone_ok (pc : ℕ) : ∃ q', activeListMarkDone q pc true = .ok q' ∧
    q'.toList = markFirst (fun e => { e with isDone := true }) pc q.toList := by
  obtain ⟨q', h1, h2⟩ := markLoop_ok (fun e => { e with isDone := true }) pc q.count 0 q (by simp)
  exact ⟨q', h1, by simpa using h2⟩

theorem activeListMarkException_ok (pc : ℕ) : ∃ q', activeListMarkException q pc true = .ok q' ∧
    q'.toList = markFirst (fun e => { e with isException := true }) pc q.toList := by
  obtain ⟨q', h1, h2⟩ :=
    markLoop_ok (fun e => { e with isException := true }) pc q.count 0 q (by simp)
  exact ⟨q', h1, by simpa using h2⟩

theorem scanException_ok (phyId : UInt8) : ∀ (n i : ℕ), i + n = q.toList.length →
    scanException q phyId n i = .ok ((q.toList.drop i).any fun e =>
      e.currPhyDest = phyId ∧ e.isException)
  | 0, i, h => by rw [Nat.add_zero] at h; rw [h, List.drop_length]; rfl
  | n + 1, i, h => by
    have hi : i < q.toList.length := by omega
    rw [List.drop_eq_getElem_cons hi]
    simp only [scanException, Fifo.peekLogical_ok hi, bind, Except.bind, List.any_cons]
    split_ifs with hx
    · simp [hx]; rfl
    · rw [scanException_ok phyId n (i + 1) (by omega)]
      simp [hx]

end

section
variable {q : FreeList} {p : UInt8}

theorem freeListPush_ok (hp : p.toNat < 64) (h : q.toList.length < 32) :
    ∃ q', freeListPush q p = .ok q' ∧ q'.toList = q.toList ++ [p] := by
  obtain ⟨q', h1, h2⟩ := Fifo.push_ok h p
  exact ⟨q', by rw [freeListPush, if_neg (by simp only [regPhyFileSize]; omega), h1]; rfl, h2⟩

theorem freeListPop_ok {free : List UInt8} (hl : q.toList = p :: free) {uninit : UInt8}
    (hu : uninit.toNat < 64) : ∃ q', freeListPop q uninit = .ok (p, q') ∧ q'.toList = free := by
  rw [freeListPop, if_neg (by simp only [regPhyFileSize]; omega)]
  exact Fifo.pop_ok hl

theorem freeListPop_uninit {uninit : UInt8} (hu : ¬ uninit.toNat < 64) :
    freeListPop q uninit = .error (.err .invalidPhyReg) :=
  if_pos (by simp only [regPhyFileSize]; omega)

end

/-! ## Commit -/

theorem inStage_bubble {alus : Vector Alu numAlus} {stage : Alu → Instruction}
    (h : ∀ a, stage (aluFlush a) = bubble) : inStage stage (alus.map aluFlush) = [] := by
  simp only [inStage, Vector.toList_map, List.map_map, List.filter_eq_nil_iff, List.mem_map,
    Function.comp]
  rintro _ ⟨a, -, rfl⟩
  rw [h a]; decide

section
variable {p : Processor} {e : ActiveListEntry} {rest : List ActiveListEntry}

/-- The state after `commit_set_exception` on the entry `e`. -/
def raiseException (p : Processor) (e : ActiveListEntry) : Processor :=
  { p with
    exceptionMode := true
    exceptionStatus := ⟨true, e.pc⟩
    backpressure := true
    pc := pcException
    dir := p.dir.flush
    iq := p.iq.flush
    alus := p.alus.map aluFlush }

theorem view_raiseException : view (raiseException p e) = (view p).raise e := by
  simp only [view, raiseException, Machine.raise, Fifo.toList_flush]
  rw [inStage_bubble (fun _ => rfl), inStage_bubble (fun _ => rfl)]

theorem commitSetException_ok (hl : p.activeList.toList = e :: rest) :
    (do modify fun p => { p with exceptionMode := true }; commitSetException : ProcM Unit) p =
      .ok () (raiseException p e) := by
  have h0 := activeListPeekLogical_head hl
  simp [commitSetException, h0, raiseException]

theorem commitIteration_empty (hl : p.activeList.toList = []) :
    commitIteration p = .ok false p := by
  simp [commitIteration, Fifo.isEmpty_iff.2 hl]

theorem commitIteration_wait (hl : p.activeList.toList = e :: rest) (hd : e.isDone = false) :
    commitIteration p = .ok false p := by
  have h0 := activeListPeekLogical_head hl
  have hne := isEmpty_cons hl
  simp [commitIteration, hne, h0, hd]

theorem commitIteration_raise_ok (hl : p.activeList.toList = e :: rest) (hd : e.isDone = true)
    (he : e.isException = true) : commitIteration p = .ok false (raiseException p e) := by
  have h0 := activeListPeekLogical_head hl
  have hne := isEmpty_cons hl
  have hset := commitSetException_ok hl
  simp only [modify_bind] at hset
  simp only [commitIteration, get_bind, hne, Bool.false_eq_true, if_false, h0, orReturn_ok,
    pure_bind_run, hd, Bool.not_true, he, if_true, modify_bind]
  rw [bind_ok hset]
  rfl

theorem commitIteration_raise (hl : p.activeList.toList = e :: rest) (hd : e.isDone = true)
    (he : e.isException = true) : Sim view commitIteration p false ((view p).raise e) :=
  ⟨raiseException p e, commitIteration_raise_ok hl hd he, view_raiseException⟩

theorem commitIteration_retire_ok (hl : p.activeList.toList = e :: rest) (hd : e.isDone = true)
    (he : e.isException = false) (hold : e.oldPhyDest.toNat < 64)
    (hroom : p.freeList.toList.length < 32) : ∃ freeList activeList,
      commitIteration p = .ok true { p with freeList, activeList } ∧
      freeList.toList = p.freeList.toList ++ [e.oldPhyDest] ∧ activeList.toList = rest := by
  have h0 := activeListPeekLogical_head hl
  have hne := isEmpty_cons hl
  obtain ⟨q, hq1, hq2⟩ := freeListPush_ok hold hroom
  obtain ⟨l, hl1, hl2⟩ := activeListPopLogical_ok (q := p.activeList) (i := 0) (by simp [hl])
  refine ⟨q, l, ?_, hq2, by rw [hl2, hl, List.eraseIdx_cons_zero]⟩
  simp [commitIteration, hne, h0, hd, he, hq1, hl1]

theorem commitIteration_retire (hs : Safe (view p)) (hl : p.activeList.toList = e :: rest)
    (hd : e.isDone = true) (he : e.isException = false) :
    Sim view commitIteration p true ((view p).retire e rest) := by
  have hlen := hs.length_eq
  simp only [view, hl, List.length_cons] at hlen
  obtain ⟨q, l, h, hq, hrest⟩ := commitIteration_retire_ok hl hd he
    (hs.old_lt (by simp [view, hl])) (by omega)
  exact ⟨_, h, by simp only [view, Machine.retire, hq, hrest]⟩

end

theorem commitLoop_sim : ∀ (n : ℕ) (p : Processor), Safe (view p) →
    Sim view (commitLoop n) p () ((view p).commit n)
  | 0, p, _ => ⟨p, rfl, rfl⟩
  | n + 1, p, hs => by
    unfold Machine.commit
    rw [commitLoop]
    rcases hl : p.activeList.toList with _ | ⟨e, rest⟩
    · refine ⟨p, by rw [bind_ok (commitIteration_empty hl)]; rfl, ?_⟩
      simp [view, hl]
    · have hl' : (view p).activeList = e :: rest := hl
      simp only [hl']
      cases hd : e.isDone with
      | false =>
        exact ⟨p, by rw [bind_ok (commitIteration_wait hl hd)]; rfl, by simp⟩
      | true =>
        cases he : e.isException with
        | true =>
          simp only [Bool.not_true, Bool.false_eq_true, if_false, if_true]
          exact (commitIteration_raise hl hd he).bind fun p' hp' => ⟨p', rfl, hp'⟩
        | false =>
          simp only [Bool.not_true, Bool.false_eq_true, if_false]
          refine (commitIteration_retire hs hl hd he).bind fun p' hp' => ?_
          rw [← hp']
          exact commitLoop_sim n p' (hp' ▸ hs.retire hl')

theorem recoverIteration_sim {p : Processor} (hs : Safe (view p)) {e : ActiveListEntry}
    {rest : List ActiveListEntry} (hl : p.activeList.toList = rest ++ [e]) {count : ℕ}
    (hc : count = p.activeList.toList.length) :
    Sim view (recoverIteration count) p () ((view p).rollback e rest) := by
  have hi : count - 1 < p.activeList.toList.length := by rw [hc, hl]; simp
  have hcount : count - 1 = rest.length := by rw [hc, hl]; simp
  have hr : e.logDest.toNat < 32 := hs.logDest_lt e (by simp [view, hl])
  have hlen := hs.length_eq
  simp only [view, hl, List.length_append, List.length_singleton] at hlen
  have hcur : (rd p.logical e.logDest).toNat < 64 := hs.logical_lt hr
  obtain ⟨l, hl1, hl2⟩ := activeListPopLogical_ok hi
  have hget : p.activeList.toList[count - 1] = e := by simp [hl, hcount]
  obtain ⟨q, hq1, hq2⟩ := freeListPush_ok (q := p.freeList) hcur (by omega)
  refine ⟨{ p with
    activeList := l
    logical := wr p.logical e.logDest e.oldPhyDest
    freeList := q
    isBusy := wr p.isBusy (rd p.logical e.logDest) false }, ?_, ?_⟩
  · simp [recoverIteration, hl1, hget, tableGet_eq hr, tableSet_eq hr, hq1, tableSet_eq hcur]
  · have : l.toList = rest := by
      rw [hl2, hl, hcount, List.eraseIdx_append_of_length_le (le_refl _)]; simp
    simp only [view, Machine.rollback, hq2, this]

theorem recoverLoop_sim : ∀ (n : ℕ) (p : Processor), Safe (view p) →
    Sim view (recoverLoop n p.activeList.toList.length) p () ((view p).recover n)
  | 0, p, _ => ⟨p, rfl, rfl⟩
  | n + 1, p, hs => by
    unfold Machine.recover
    rcases List.eq_nil_or_concat p.activeList.toList with hl | ⟨rest, e, hl⟩
    · refine ⟨p, by rw [hl]; rfl, ?_⟩
      simp [view, hl]
    · have hl' : (view p).activeList = rest ++ [e] := by simpa [view] using hl
      rw [List.concat_eq_append] at hl
      have hlen : p.activeList.toList.length = rest.length + 1 := by simp [hl]
      simp only [hl', List.getLast?_concat, List.dropLast_concat]
      rw [hlen, recoverLoop, ← hlen]
      refine (recoverIteration_sim hs hl rfl).bind fun p' hp' => ?_
      have hrest : rest.length = p'.activeList.toList.length := by
        have := congrArg (fun m => m.activeList.length) hp'
        simpa [view, Machine.rollback] using this.symm
      rw [← hp', hrest]
      exact recoverLoop_sim n p' (hp' ▸ hs.rollback hl')

theorem commitExceptionMode_sim {p : Processor} (hs : Safe (view p)) :
    Sim view commitExceptionMode p ()
      ((view p).endException.recover instructionsPerCycle) := by
  by_cases hc : p.activeList.count = 0
  · have hl : (view p).activeList = [] := by
      simpa [view, ← List.length_eq_zero_iff] using hc
    have hv : (view p).endException = view (clearException p) := by
      rw [Machine.endException, if_pos hl]; rfl
    have hl0 : (clearException p).activeList.toList.length = 0 := (Fifo.length_toList _).trans hc
    obtain ⟨p', h1, h2⟩ := recoverLoop_sim instructionsPerCycle (clearException p)
      (hv ▸ hs.endException)
    rw [hl0] at h1
    exact ⟨p', by simp [commitExceptionMode, hc, h1], by rw [hv, h2]⟩
  · have hl : (view p).activeList ≠ [] := by
      simpa [view, ← List.length_eq_zero_iff] using hc
    obtain ⟨p', h1, h2⟩ := recoverLoop_sim instructionsPerCycle p hs
    rw [Fifo.length_toList] at h1
    refine ⟨p', ?_, by rw [Machine.endException, if_neg hl]; exact h2⟩
    simp [commitExceptionMode, hc, h1]

theorem commitCycle_sim {p : Processor} (hs : Safe (view p)) :
    Sim view commitCycle p () (view p).commitStage := by
  unfold Machine.commitStage
  cases hm : p.exceptionMode with
  | false =>
    have : (view p).exceptionMode = false := hm
    simp only [this, Bool.false_eq_true, if_false]
    obtain ⟨p', h1, h2⟩ := commitLoop_sim instructionsPerCycle p hs
    exact ⟨p', by simp [commitCycle, hm, h1], h2⟩
  | true =>
    have : (view p).exceptionMode = true := hm
    simp only [this, if_true]
    obtain ⟨p', h1, h2⟩ := commitExceptionMode_sim hs
    exact ⟨p', by simp [commitCycle, hm, h1], h2⟩

end R10000
