/-
  The life cycle of the physical registers over whole runs: every run is a chain of calls
  of the source that move the registers as documented.
-/
import R10000.Calls
import R10000.LifeCycle
import R10000.Results.Refinement

namespace R10000

open Calls Fallible

/-- Available, pending, finished or architectural: the Free List, the destinations of the
    entries that are not done and that are done, and the committed registers. -/
def InState (p : Processor) (q : UInt8) : RegState → Prop
  | .available => q ∈ p.freeList.toList
  | .pending => ∃ e ∈ p.activeList.toList, e.isDone = false ∧ e.currPhyDest = q
  | .finished => ∃ e ∈ p.activeList.toList, e.isDone = true ∧ e.currPhyDest = q
  | .architectural => ∃ r : UInt8, r.toNat < 32 ∧ committedReg p r = q

/-- Every physical register is in exactly one state. -/
def OneState (p : Processor) : Prop := ∀ q : UInt8, q.toNat < 64 → ∃! s, InState p q s

/-- The registers that a call moves in the state `p`: those of the entry or the instruction that
    it handles, if it gets so far. -/
def Call.changes (p : Processor) : Call → List Change
  | .commitIteration => match p.activeList.toList with
    | [] => []
    | e :: _ => if e.isDone ∧ e.isException = false then commitChanges e else []
  | .recoverIteration _ => match p.activeList.toList.getLast? with
    | none => []
    | some e => recoverChanges e
  | .updateIteration i =>
    if (p.alus.get i).forwardingPath.type = .unknownType then []
    else writeBackChanges (p.alus.get i).forwardingPath
  | .dispatchIteration uninit => match p.freeList.toList with
    | [] => []
    | q :: _ => if uninit.toNat < 64 then dispatchChanges q else []
  | _ => []

/-- The edges of the documented life cycle. -/
inductive Edge : RegState → RegState → Prop
  | dispatch : Edge .available .pending
  | writeBack : Edge .pending .finished
  | commit : Edge .finished .architectural
  | free : Edge .architectural .available
  | cancel : Edge .pending .available
  | undo : Edge .finished .available

/-- From `p` to `p'` the registers of `changes` move as told, along edges of the life cycle,
    and the others stay; only a register that goes from pending to finished is written. -/
structure Obeys (p p' : Processor) (changes : List Change) : Prop where
  edges : ∀ c ∈ changes, Edge c.before c.after
  moved : ∀ c ∈ changes, InState p c.reg c.before ∧ InState p' c.reg c.after
  kept : ∀ q s, q ∉ changes.map (·.reg) → InState p q s → InState p' q s
  written : ∀ q, rd p'.physical q ≠ rd p.physical q → ⟨q, .pending, .finished⟩ ∈ changes

/-- The call moves the registers as told, from a state in which every register is in exactly one
    state. -/
def MovesRegisters (st : Step Call Processor) : Prop :=
  OneState st.before ∧ Obeys st.before st.after (st.call.changes st.before)

theorem Call.changes_edge (p : Processor) (c : Call) :
    ∀ ch ∈ c.changes p, Edge ch.before ch.after := by
  intro ch h
  cases c with
  | commitIteration =>
    rw [changes] at h
    split at h
    · cases h
    · split_ifs at h
      · simp only [commitChanges, List.mem_cons, List.not_mem_nil, or_false] at h
        rcases h with rfl | rfl
        · exact .commit
        · exact .free
      · cases h
  | recoverIteration count =>
    rw [changes] at h
    split at h
    · cases h
    · next e _ =>
      rw [List.mem_singleton.1 h]
      cases e.isDone with
      | false => exact .cancel
      | true => exact .undo
  | updateIteration i =>
    rw [changes] at h
    split_ifs at h
    · cases h
    · rw [List.mem_singleton.1 h]
      exact .writeBack
  | dispatchIteration uninit =>
    rw [changes] at h
    split at h
    · cases h
    · split_ifs at h
      · rw [List.mem_singleton.1 h]
        exact .dispatch
      · cases h
  | _ => cases h

/-- No call but a write-back finishes a register. -/
theorem Call.finishes_iff {p : Processor} {c : Call} {q : UInt8} :
    ⟨q, .pending, .finished⟩ ∈ c.changes p ↔ ∃ i, c = .updateIteration i ∧
      (p.alus.get i).forwardingPath.type ≠ .unknownType ∧
      (p.alus.get i).forwardingPath.dest.phyId = q := by
  constructor
  · intro h
    cases c with
    | commitIteration =>
      rw [changes] at h
      split at h
      · cases h
      · split_ifs at h
        · simp [commitChanges] at h
        · cases h
    | recoverIteration count =>
      rw [changes] at h
      split at h
      · cases h
      · simp [recoverChanges] at h
    | updateIteration i =>
      rw [changes] at h
      split_ifs at h with ht
      · cases h
      · rw [writeBackChanges, List.mem_singleton, Change.mk.injEq] at h
        exact ⟨i, rfl, ht, h.1.symm⟩
    | dispatchIteration uninit =>
      rw [changes] at h
      split at h
      · cases h
      · split_ifs at h
        · simp [dispatchChanges] at h
        · cases h
    | _ => cases h
  · rintro ⟨i, rfl, ht, rfl⟩
    rw [changes, if_neg ht, writeBackChanges]
    exact List.mem_singleton_self _

/-! ## One call -/

theorem inState_view (p : Processor) (q : UInt8) (s : RegState) :
    (view p).InState q s ↔ InState p q s := by
  cases s with
  | architectural =>
    have h : ∀ r, archMap (view p).logical (view p).activeList r = committedReg p r :=
      archMap_eq_committedReg p
    simp only [Machine.InState, InState, h]
  | _ => exact Iff.rfl

theorem oneState {p : Processor} (hs : Safe (view p))
    (hw : Window (view p).program (view p).logical (view p).isBusy (view p).activeList) :
    OneState p := by
  intro q hq
  simp only [← inState_view]
  exact Machine.inState_unique hs hw hq

section
variable {p : Processor} {c : Call}

theorem run_call_ok {a : c.Res} {p' : Processor} (h : c.exec p = .ok a p') :
    (call c).run Call.exec p = .ok a p' := (congrFun (run_call c) p).trans h

theorem sim_call {a : c.Res} {t : Machine} (h : Sim view c.exec p a t) :
    Sim view ((call c).run Call.exec) p a t := by
  rw [run_call]
  exact h

theorem fails_call {e : Fault} {t : Machine} (h : Fails view c.exec p e t) :
    Fails view ((call c).run Call.exec) p e t := by
  rw [run_call]
  exact h

/-- A call whose machine moves the registers as told. -/
theorem every_call (ho : OneState p) {t : Machine} (ht : view (endState (c.exec p)) = t)
    (hm : (view p).Moves t (c.changes p)) : (call c).Every Call.exec MovesRegisters p := by
  refine Tree.every_one.2 ⟨ho, c.changes_edge p, fun ch hc => ?_, fun q s hq hin => ?_, ?_⟩
  · rw [← inState_view, ← inState_view, ht]
    exact hm.moved ch hc
  · rw [← inState_view] at hin ⊢
    rw [ht]
    exact hm.kept q s hq hin
  · rw [← ht] at hm
    exact hm.written

/-- A call that leaves the register file and its bookkeeping alone. -/
theorem every_other (ho : OneState p) (hc : c.changes p = []) {t : Machine}
    (ht : view (endState (c.exec p)) = t) (hf : t.freeList = (view p).freeList)
    (hl : t.logical = (view p).logical) (ha : t.activeList = (view p).activeList)
    (hp : t.physical = (view p).physical) : (call c).Every Call.exec MovesRegisters p :=
  every_call ho ht (hc ▸ .refl hf hl ha hp)

end

/-! ## The stages -/

/-- The normal mode, or an exception was raised. -/
def Live (m : Machine) : Prop := Normal m.stage1 m ∨ Raised m

section
variable {m : Machine}

theorem Live.window (h : Live m) : Window m.program m.logical m.isBusy m.activeList := by
  rcases h with hn | hr
  · exact hn.window
  · exact hr.window

theorem Live.commitStage (hs : Safe m) (h : Live m) : Live m.commitStage := by
  rcases h with hn | hr
  · obtain ⟨c, -, -, -, hc, ⟨hq, -⟩ | ⟨-, e, -, -, -, -, hr⟩⟩ := hn.commitStage
    · rw [hq]
      exact .inl hc
    · exact .inr hr
  · exact .inr (hr.commitStage hs)

theorem Live.executeStage (h : Live m) : Live m.executeStage := by
  rcases h with hn | hr
  · exact .inl hn.executeStage
  · exact .inr { hr with stage1 := by rw [Machine.executeStage, hr.stage1]; rfl }

theorem Live.writeBackStage (hs : Safe m) (h : Live m) :
    Normal [] m.writeBackStage ∨ Raised m.writeBackStage := by
  rcases h with hn | hr
  · exact .inl (Normal.foldl_writeBack _ hs hn)
  · right
    rw [Machine.writeBackStage, hr.stage1]
    exact hr

theorem Live.window_writeBackStage (hs : Safe m) (h : Live m) :
    Window m.writeBackStage.program m.writeBackStage.logical m.writeBackStage.isBusy
      m.writeBackStage.activeList := by
  rcases h.writeBackStage hs with hn | hr
  · exact hn.window
  · exact hr.window

theorem Raised.issueStage (h : Raised m) : Raised m.issueStage := by
  have hsel : select numAlus (m.iq.map m.refresh) = ([], []) := by rw [h.iq]; rfl
  exact { h with
    iq := by rw [Machine.issueStage, hsel]
    stage0 := by rw [Machine.issueStage, hsel]; rfl
    stage1 := h.stage0 }

theorem Live.dispatchStage (uninit : ℕ → UInt8) (hs : Safe m) (h : Live m) :
    Live (m.dispatchStage uninit).1 := by
  rcases h with hn | hr
  · left
    obtain ⟨d, f, al, lo, b, q, hframe⟩ := dispatchStage_frame uninit m
    have hst : (m.dispatchStage uninit).1.stage1 = m.stage1 := by rw [hframe]
    rw [hst]
    exact hn.dispatchStage uninit hs hs.stage1_ok
  · right
    rw [hr.dispatchStage]
    exact { hr with }

end

theorem commitLoop_moves : ∀ (n : ℕ) (p : Processor) {todo : List Instruction},
    Safe (view p) → Normal todo (view p) →
    (commitLoopCalls n).Every Call.exec MovesRegisters p
  | 0, _, _, _, _ => .pure ()
  | n + 1, p, todo, hs, hn => by
    have ho := oneState hs hn.window
    rw [commitLoopCalls]
    rcases hl : p.activeList.toList with _ | ⟨e, rest⟩
    · have hit := commitIteration_empty hl
      have hcall : (call .commitIteration).Every Call.exec MovesRegisters p :=
        every_other ho (by simp only [Call.changes, hl]) (congrArg (view ∘ endState) hit)
          rfl rfl rfl rfl
      exact hcall.bind_ok (run_call_ok hit) (.pure ())
    · have hl' : (view p).activeList = e :: rest := hl
      cases hd : e.isDone with
      | false =>
        have hit := commitIteration_wait hl hd
        have hcall : (call .commitIteration).Every Call.exec MovesRegisters p :=
          every_other ho (by simp [Call.changes, hl, hd]) (congrArg (view ∘ endState) hit)
            rfl rfl rfl rfl
        exact hcall.bind_ok (run_call_ok hit) (.pure ())
      | true =>
        cases he : e.isException with
        | true =>
          have hit := commitIteration_raise hl hd he
          have hcall : (call .commitIteration).Every Call.exec MovesRegisters p :=
            every_other ho (by simp [Call.changes, hl, he]) hit.endState rfl rfl rfl rfl
          exact hcall.bind_sim (sim_call hit) fun _ _ => .pure ()
        | false =>
          have hit := commitIteration_retire hs hl hd he
          have hcall : (call .commitIteration).Every Call.exec MovesRegisters p := by
            refine every_call ho hit.endState ?_
            simp only [Call.changes, hl, hd, he, and_self, if_true]
            exact Machine.moves_retire hs hn.window hl' hd
          refine hcall.bind_sim (sim_call hit) fun s' hv => ?_
          exact commitLoop_moves n s' (hv ▸ hs.retire hl') (hv ▸ hn.retire hl' hd he)

theorem recoverLoop_moves : ∀ (n : ℕ) (p : Processor), Safe (view p) → Raised (view p) →
    (recoverLoopCalls n p.activeList.toList.length).Every Call.exec MovesRegisters p
  | 0, _, _, _ => .pure ()
  | n + 1, p, hs, hr => by
    rcases List.eq_nil_or_concat p.activeList.toList with hl | ⟨rest, e, hl⟩
    · rw [hl]
      exact .pure ()
    · rw [List.concat_eq_append] at hl
      have hl' : (view p).activeList = rest ++ [e] := hl
      have hlen : p.activeList.toList.length = rest.length + 1 := by simp [hl]
      have hit := recoverIteration_sim hs hl hlen.symm
      have hcall : (call (.recoverIteration (rest.length + 1))).Every Call.exec
          MovesRegisters p := by
        refine every_call (oneState hs hr.window) hit.endState ?_
        simp only [Call.changes, hl, List.getLast?_concat]
        exact Machine.moves_rollback hs hr.window hl'
      rw [hlen, recoverLoopCalls]
      refine hcall.bind_sim (sim_call hit) fun s' hv => ?_
      have hrest : rest.length = s'.activeList.toList.length := by
        have := congrArg (fun m => m.activeList.length) hv
        simpa [view, Machine.rollback] using this.symm
      rw [hrest]
      exact recoverLoop_moves n s' (hv ▸ hs.rollback hl') (hv ▸ hr.rollback hs hl')

theorem commitCycle_moves {p : Processor} (hs : Safe (view p)) (h : Live (view p)) :
    commitCycleCalls.Every Call.exec MovesRegisters p := by
  refine .state ?_
  rcases h with hn | hr
  · have hm : p.exceptionMode = false := hn.mode
    rw [hm]
    exact commitLoop_moves _ p hs hn
  · have hm : p.exceptionMode = true := hr.mode
    rw [hm]
    refine .state ?_
    have hcount : p.activeList.count = p.activeList.toList.length := (Fifo.length_toList _).symm
    by_cases hc : p.activeList.count = 0
    · have hv : view (clearException p) = (view p).endException := by
        rw [Machine.endException, if_pos]
        · rfl
        · simpa [view, ← List.length_eq_zero_iff] using hc
      have hcall : (call .clearException).Every Call.exec MovesRegisters p :=
        every_other (oneState hs hr.window) rfl rfl rfl rfl rfl rfl
      rw [if_pos hc]
      refine hcall.bind_ok (run_call_ok rfl) ?_
      rw [hcount]
      exact recoverLoop_moves _ (clearException p) (hv ▸ hs.endException) (hv ▸ hr.endException)
    · rw [if_neg hc]
      show (recoverLoopCalls instructionsPerCycle p.activeList.count).Every _ _ p
      rw [hcount]
      exact recoverLoop_moves _ _ hs hr

theorem aluCycles_moves (l : List (Fin numAlus)) {p : Processor} (ho : OneState p)
    (hok : StageOk p.alus) :
    (forM l fun i => call (.aluCycle i)).Every Call.exec MovesRegisters p := by
  refine .forM (I := fun p => OneState p ∧ StageOk p.alus) (fun i p h => ?_) l p ⟨ho, hok⟩
  obtain ⟨ho, hok⟩ := h
  have hit : Call.exec (.aluCycle i) p = _ := aluCycle_ok hok i
  constructor
  · refine every_other ho rfl rfl ?_ ?_ ?_ ?_
    · rw [hit]; rfl
    · rw [hit]; rfl
    · rw [hit]; rfl
    · rw [hit]; rfl
  · intro p' hp'
    cases (run_call_ok hit).symm.trans hp'
    exact ⟨ho, hok.set i⟩

/-- The instructions in the last stage of some of the ALUs. -/
def results (alus : Vector Alu numAlus) (l : List (Fin numAlus)) : List Instruction :=
  (l.map fun i => (alus.get i).stage1).filter (·.type ≠ .unknownType)

theorem results_finRange (alus : Vector Alu numAlus) :
    results alus (List.finRange numAlus) = inStage Alu.stage1 alus := by
  obtain ⟨a, b, c, d, h⟩ := exists_alus alus
  rw [h, results, inStage, finRange_numAlus]
  rfl

/-- The ALU `i` has no result to write back. -/
theorem bubble_moves {p : Processor} {i : Fin numAlus} (ho : OneState p)
    (ht : (p.alus.get i).stage1.type = .unknownType) :
    (call (.updateIteration i)).Every Call.exec MovesRegisters p :=
  every_other ho (if_pos ht) (congrArg (view ∘ endState) (updateIteration_bubble ht))
    rfl rfl rfl rfl

theorem updateIterations_moves (alus : Vector Alu numAlus) (hok : StageOk alus) :
    ∀ (l : List (Fin numAlus)) (p : Processor), p.alus = alus → Safe (view p) →
      Normal (results alus l) (view p) →
      (forM l fun i => call (.updateIteration i)).Every Call.exec MovesRegisters p
  | [], _, _, _, _ => .pure ()
  | i :: l, p, hp, hs, hn => by
    have ho := oneState hs hn.window
    rw [results, List.map_cons, List.filter_cons] at hn
    rw [List.forM_cons]
    subst hp
    by_cases ht : (p.alus.get i).stage1.type = .unknownType
    · rw [if_neg (by simpa using ht)] at hn
      exact (bubble_moves ho ht).bind_ok (run_call_ok (updateIteration_bubble ht))
        (updateIterations_moves p.alus hok l p rfl hs hn)
    · have hit := updateIteration_sim ht (hok i ht).dest_lt
      rw [if_pos (by simpa using ht)] at hn
      have hcall : (call (.updateIteration i)).Every Call.exec MovesRegisters p := by
        refine every_call ho (congrArg Prod.snd hit.endState) ?_
        rw [Call.changes, Alu.forwardingPath, if_neg ht]
        exact Machine.moves_writeBack hs hn
      obtain ⟨p', hp', hv⟩ := hit
      rw [Prod.mk.injEq] at hv
      refine hcall.bind_ok (run_call_ok hp') ?_
      exact updateIterations_moves p.alus hok l p' hv.1 (hv.2 ▸ hs.writeBack _)
        (hv.2 ▸ hn.writeBack hs)

/-- Without instructions in the last stage, write-back does nothing. -/
theorem updateIterations_idle (l : List (Fin numAlus)) {p : Processor} (ho : OneState p)
    (ht : ∀ i : Fin numAlus, (p.alus.get i).stage1.type = .unknownType) :
    (forM l fun i => call (.updateIteration i)).Every Call.exec MovesRegisters p := by
  refine .forM (I := fun p' => p' = p) (fun i p' h => ?_) l p rfl
  subst h
  refine ⟨bubble_moves ho (ht i), fun p'' hp'' => ?_⟩
  cases (run_call_ok (c := .updateIteration i) (updateIteration_bubble (ht i))).symm.trans hp''
  rfl

theorem dispatchLoop_moves (uninit : ℕ → UInt8) : ∀ (n i : ℕ) (p : Processor)
    {todo : List Instruction}, Safe (view p) → (∀ x ∈ todo, x.InFlight) → Normal todo (view p) →
    n ≤ p.dir.toList.length → n ≤ p.freeList.toList.length → p.iq.toList.length + n ≤ 32 →
    (dispatchLoopCalls uninit n i).Every Call.exec MovesRegisters p
  | 0, _, _, _, _, _, _, _, _, _ => .pure ()
  | n + 1, i, p, todo, hs, htodo, hn, hd, hf, hq => by
    have ho := oneState hs hn.window
    obtain ⟨x, dir, hx⟩ := List.exists_cons_of_length_pos (Nat.zero_lt_of_lt hd)
    obtain ⟨q, freeList, hfr⟩ := List.exists_cons_of_length_pos (Nat.zero_lt_of_lt hf)
    have hx' : (view p).dir = x :: dir := hx
    have hfr' : (view p).freeList = q :: freeList := hfr
    rw [dispatchLoopCalls]
    by_cases hu : (uninit i).toNat < 64
    · have hit := dispatchIteration_sim hs hx hfr (by omega) hu
      have hcall : (call (.dispatchIteration (uninit i))).Every Call.exec MovesRegisters p := by
        refine every_call ho hit.endState ?_
        simp only [Call.changes, hfr, hu, if_true]
        exact Machine.moves_dispatch hs hn.window hx' hfr'
      refine hcall.bind_sim (sim_call hit) fun s' hv => ?_
      have hs' : Safe (view s') := hv ▸ hs.dispatch hx' hfr' (by simp only [view]; omega)
      have h1 := congrArg (·.dir.length) hv
      have h2 := congrArg (·.freeList.length) hv
      have h3 := congrArg (·.iq.length) hv
      simp only [view, Machine.dispatch, Machine.allocate, List.length_append,
        List.length_singleton] at h1 h2 h3
      rw [hx, List.length_cons] at hd
      rw [hfr, List.length_cons] at hf
      exact dispatchLoop_moves uninit n (i + 1) s' hs' htodo
        (hv ▸ hn.dispatch hs htodo hx' hfr') (by omega) (by omega) (by omega)
    · have hit := dispatchIteration_fails hs hx hu
      have hcall : (call (.dispatchIteration (uninit i))).Every Call.exec MovesRegisters p :=
        every_other ho (by simp only [Call.changes, hfr, hu, if_false]) hit.endState
          rfl rfl rfl rfl
      exact hcall.bind_fails (fails_call hit)

/-! ## A cycle and a run -/

section
variable {p : Processor}

theorem writeBackStage_moves (hs : Safe (view p)) (h : Live (view p)) :
    (forM (List.finRange numAlus) fun i => call (.updateIteration i)).Every Call.exec
      MovesRegisters p := by
  rcases h with hn | hr
  · refine updateIterations_moves p.alus (stageOk_of_safe hs) _ p rfl hs ?_
    rw [results_finRange]
    exact hn
  · exact updateIterations_idle _ (oneState hs hr.window) (inStage_nil.1 hr.stage1)

theorem renameDispatchCycle_moves (uninit : ℕ → UInt8) (hs : Safe (view p)) (h : Live (view p)) :
    (renameDispatchCycleCalls uninit).Every Call.exec MovesRegisters p := by
  have hcall : (call (.setBackpressure (applyBackpressure p))).Every Call.exec
      MovesRegisters p := every_other (oneState hs h.window) rfl rfl rfl rfl rfl rfl
  refine .state (hcall.bind_ok (run_call_ok rfl) ?_)
  cases hst : applyBackpressure p with
  | true => exact .pure ()
  | false =>
    rw [view_stalled] at hst
    obtain ⟨h1, -, h3⟩ := hs.room hst
    rcases h with hn | hr
    · refine dispatchLoop_moves uninit _ 0 { p with backpressure := false }
        (hs.setBackpressure false) hs.stage1_ok (hn.setBackpressure false) ?_ ?_ ?_
      · rw [← Fifo.length_toList p.dir]
      · rw [← Fifo.length_toList p.dir]; exact h1
      · rw [← Fifo.length_toList p.dir]; exact h3
    · have hdir : p.dir.count = 0 := by
        rw [← Fifo.length_toList, show p.dir.toList = [] from hr.dir, List.length_nil]
      rw [hdir]
      exact .pure ()

theorem frontEnd_moves (hs : Safe (view p))
    (hw : Window (view p).program (view p).logical (view p).isBusy (view p).activeList)
    (hd : p.backpressure = true ∨ p.dir.toList = []) :
    (do
      let fetchedInstr ← call .fetchDecodeCycle
      call (.checkFinished fetchedInstr)).Every Call.exec MovesRegisters p := by
  have hit := fetchDecodeCycle_sim hs hd
  have hcall : (call .fetchDecodeCycle).Every Call.exec MovesRegisters p :=
    every_other (oneState hs hw) rfl hit.endState rfl rfl rfl rfl
  refine hcall.bind_sim (sim_call hit) fun s' hv => ?_
  have ho : OneState s' := by
    have hs' := hs.fetchStage hd
    rw [← hv] at hs'
    refine oneState hs' ?_
    rw [hv]
    exact hw
  exact every_other ho rfl rfl rfl rfl rfl rfl

theorem backEnd_moves (hs : Safe (view p)) (h : Live (view p)) :
    backEndCalls.Every Call.exec MovesRegisters p := by
  have hcommit := commitCycle_sim hs
  rw [← run_commitCycleCalls] at hcommit
  refine (commitCycle_moves hs h).bind_sim hcommit fun p₁ v₁ => ?_
  have hs₁ : Safe (view p₁) := v₁ ▸ hs.commitStage
  have hl₁ : Live (view p₁) := v₁ ▸ h.commitStage hs
  have hexecute := executeStage_sim hs₁
  rw [← run_executeCalls] at hexecute
  refine (aluCycles_moves _ (oneState hs₁ hl₁.window) (stageOk_of_safe hs₁)).bind_sim hexecute
    fun p₂ v₂ => ?_
  have hs₂ : Safe (view p₂) := v₂ ▸ hs₁.executeStage
  have hl₂ : Live (view p₂) := v₂ ▸ hl₁.executeStage
  have hupdate := writeBackStage_sim hs₂
  rw [renameDispatchUpdateStructures, ← run_updateCalls] at hupdate
  refine (writeBackStage_moves hs₂ hl₂).bind_sim hupdate fun p₃ v₃ => ?_
  have hs₃ : Safe (view p₃) := v₃ ▸ hs₂.writeBackStage
  have ho₃ : OneState p₃ := oneState hs₃ (v₃ ▸ hl₂.window_writeBackStage hs₂)
  have hissue : (call .issueCycle).Every Call.exec MovesRegisters p₃ :=
    every_other ho₃ rfl (issueCycle_sim hs₃).endState rfl rfl rfl rfl
  exact hissue.bind fun _ _ _ => .pure ()

/-- **Every call of a cycle moves the registers as documented.** -/
theorem cycleSteps_move (uninit : ℕ → UInt8) (hs : Safe (view p)) (h : Live (view p)) :
    ∀ st ∈ cycleSteps uninit p, MovesRegisters st := by
  have hback := backEnd_sim hs
  rw [← run_backEndCalls] at hback
  refine (backEnd_moves hs h).bind_sim hback fun p₄ v₄ => ?_
  have hs₄ : Safe (view p₄) := v₄ ▸ hs.backEnd
  have hl₄ : Live (view p₄) := by
    rw [v₄, Machine.backEnd]
    have hl₂ := (h.commitStage hs).executeStage
    rcases hl₂.writeBackStage hs.commitStage.executeStage with hn | hr
    · exact .inl hn.issueStage
    · exact .inr hr.issueStage
  have hdispatch := renameDispatchCycle_moves uninit hs₄ hl₄
  have hends := renameDispatchCycle_ends hs₄ uninit
  rw [← run_renameDispatchCycleCalls] at hends
  unfold Ends at hends
  split_ifs at hends with hok
  · refine hdispatch.bind_sim hends fun p₅ v₅ => ?_
    have hs₅ : Safe (view p₅) := v₅ ▸ hs₄.dispatchStage uninit
    have hl₅ : Live (view p₅) := v₅ ▸ hl₄.dispatchStage uninit hs₄
    refine frontEnd_moves hs₅ hl₅.window ?_
    have hdir := Machine.dispatchStage_dir uninit hok
    rw [← v₅] at hdir
    exact hdir
  · exact hdispatch.bind_fails hends

end

section
variable {P : Program} {ready : Bool} {uninit : ℕ → ℕ → UInt8}

theorem live_runFrom (hP : P.WellFormed) (hshort : P.Short) {n : ℕ} {p : Processor}
    (h : runFrom ready P uninit n = some p) : Live (view p) := by
  have hinv := inv_runFrom hP h
  have hprog : (view p).program = P := program_runFrom hP h
  cases hm : p.exceptionMode with
  | true => exact .inr (hinv.raised (hprog.symm ▸ hshort) hm)
  | false => exact .inl (hinv.normal hm)

theorem runSteps_move (hP : P.WellFormed) (hshort : P.Short) : ∀ n,
    ∀ st ∈ runSteps ready P uninit n, MovesRegisters st
  | 0, _, h => by cases h
  | n + 1, st, h => by
    obtain ⟨p, hp, -⟩ := runFrom_ok hP ready uninit n
    rw [runSteps_succ hp, List.mem_append] at h
    rcases h with h | h
    · exact runSteps_move hP hshort n st h
    · exact cycleSteps_move (uninit n) (safe_runFrom hP hp) (live_runFrom hP hshort hp) st h

end

/-! ## Writes to a register -/

/-- The call writes the register: it is the write-back of an instruction with this destination. -/
def Writes (st : Step Call Processor) (q : UInt8) : Prop :=
  ∃ i, st.call = .updateIteration i ∧
    (st.before.alus.get i).forwardingPath.type ≠ .unknownType ∧
    (st.before.alus.get i).forwardingPath.dest.phyId = q

section
variable {q : UInt8} {st : Step Call Processor} {p p' : Processor}

theorem writes_iff : Writes st q ↔ ⟨q, .pending, .finished⟩ ∈ st.call.changes st.before :=
  Call.finishes_iff.symm

/-- A register is written when it goes from pending to finished. -/
theorem MovesRegisters.written (h : MovesRegisters st) (hw : Writes st q) :
    InState st.before q .pending ∧ InState st.after q .finished :=
  h.2.moved _ (writes_iff.1 hw)

/-- A register that is not written keeps its value. -/
theorem MovesRegisters.value (h : MovesRegisters st) (hw : ¬ Writes st q) :
    rd st.after.physical q = rd st.before.physical q := by
  by_contra hne
  exact hw (writes_iff.2 (h.2.written q hne))

/-- A register that is not available does not become pending. -/
theorem MovesRegisters.not_pending (h : MovesRegisters st) (ho : OneState st.after)
    (hq : q.toNat < 64) (hav : ¬ InState st.before q .available)
    (hp : ¬ InState st.before q .pending) : ¬ InState st.after q .pending := by
  obtain ⟨hone, hob⟩ := h
  intro hpend
  obtain ⟨s, hs, -⟩ := hone q hq
  by_cases hc : q ∈ (st.call.changes st.before).map (·.reg)
  · obtain ⟨c, hmem, rfl⟩ := List.mem_map.1 hc
    obtain ⟨h1, h2⟩ := hob.moved c hmem
    have hafter : c.after = .pending := (ho c.reg hq).unique h2 hpend
    have hedge := hob.edges c hmem
    rw [hafter] at hedge
    cases hbefore : c.before with
    | available => rw [hbefore] at h1; exact hav h1
    | _ => rw [hbefore] at hedge; cases hedge
  · have hkept := hob.kept q s hc hs
    have hst : s = .pending := (ho q hq).unique hkept hpend
    rw [hst] at hs
    exact hp hs

variable {seg : List (Step Call Processor)} (hpath : Path p seg p')
  (hmoves : ∀ st ∈ seg, MovesRegisters st ∧ OneState st.after) (hq : q.toNat < 64)
  (hav : ∀ st ∈ seg, ¬ InState st.before q .available)
include hpath hmoves hq hav

/-- A register that is finished or architectural is not written until it is available again. -/
theorem not_written (hp : ¬ InState p q .pending) : ∀ st ∈ seg, ¬ Writes st q := by
  induction seg generalizing p with
  | nil => exact fun st h => by cases h
  | cons st seg ih =>
    obtain ⟨rfl, hpath⟩ := hpath
    obtain ⟨hm, ho⟩ := hmoves st List.mem_cons_self
    have hrest := ih hpath (fun st' h => hmoves st' (List.mem_cons_of_mem _ h))
      (fun st' h => hav st' (List.mem_cons_of_mem _ h))
      (hm.not_pending ho hq (hav st List.mem_cons_self) hp)
    intro st' hst'
    rcases List.mem_cons.1 hst' with rfl | hst'
    · exact fun hw => hp (hm.written hw).1
    · exact hrest st' hst'

/-- Until it is available again a register is written once at most. -/
theorem written_once : seg.Pairwise fun st st' => ¬ (Writes st q ∧ Writes st' q) := by
  induction seg generalizing p with
  | nil => exact .nil
  | cons st seg ih =>
    obtain ⟨rfl, hpath⟩ := hpath
    obtain ⟨hm, ho⟩ := hmoves st List.mem_cons_self
    have hmoves' := fun st' h => hmoves st' (List.mem_cons_of_mem _ h)
    have hav' := fun st' h => hav st' (List.mem_cons_of_mem _ h)
    refine .cons (fun st' hst' hww => ?_) (ih hpath hmoves' hav')
    have hfinished := (hm.written hww.1).2
    have hnp : ¬ InState st.after q .pending := by
      intro hp
      cases (ho q hq).unique hp hfinished
    exact not_written hpath hmoves' hq hav' hnp st' hst' hww.2

end

/-- **The life cycle of the physical registers.**  In every state that a run passes through,
    between any two of the calls that its cycles make, every register is in exactly one state.
    Each of these calls moves the registers of the instruction that it handles along the
    documented edges and no others, and changes a register only when it writes it, which moves it
    from pending to finished.  So a register is written once at most until it is available again,
    and not at all from a state on in which it is finished or architectural. -/
theorem register_life_cycle {P : Program} (hP : P.WellFormed) (hshort : P.Short) (ready : Bool)
    (uninit : ℕ → ℕ → UInt8) (n : ℕ) :
    ∃ p₀ p, initProcessor P ready = .ok p₀ ∧ runFrom ready P uninit n = some p ∧
      (∀ k, (processorCycleCalls (uninit k)).run Call.exec = processorCycle (uninit k)) ∧
      Path p₀ (runSteps ready P uninit n) p ∧ OneState p ∧
      (∀ st ∈ runSteps ready P uninit n, st.after = endState (st.call.exec st.before) ∧
        OneState st.before ∧ OneState st.after ∧
        Obeys st.before st.after (st.call.changes st.before) ∧
        ∀ q, ¬ Writes st q → rd st.after.physical q = rd st.before.physical q) ∧
      ∀ seg q, seg <:+: runSteps ready P uninit n → q.toNat < 64 →
        (∀ st ∈ seg, ¬ InState st.before q .available) →
        (seg.Pairwise fun st st' => ¬ (Writes st q ∧ Writes st' q)) ∧
        ((∀ st ∈ seg.head?, ¬ InState st.before q .pending) → ∀ st ∈ seg, ¬ Writes st q) := by
  obtain ⟨p₀, h₀, -⟩ := initProcessor_ok P ready
  obtain ⟨p, hp, -⟩ := runFrom_ok hP ready uninit n
  have hpath : Path p₀ (runSteps ready P uninit n) p :=
    runSteps_path (by rw [runFrom, h₀]; rfl) hp
  have hmoves : ∀ st ∈ runSteps ready P uninit n, MovesRegisters st :=
    runSteps_move hP hshort n
  have ho : OneState p := oneState (safe_runFrom hP hp) (live_runFrom hP hshort hp).window
  have hafter := hpath.after (fun st hst => (hmoves st hst).1) ho
  refine ⟨p₀, p, h₀, hp, fun k => run_processorCycleCalls (uninit k), hpath, ho,
    fun st hst => ?_, fun seg q hseg hq hav => ?_⟩
  · have hm := hmoves st hst
    exact ⟨runSteps_after n st hst, hm.1, hafter st hst, hm.2, fun q hw => hm.value hw⟩
  · obtain ⟨pre, post, hl⟩ := hseg
    rw [← hl, path_append] at hpath
    obtain ⟨p₂, hpath, -⟩ := hpath
    obtain ⟨p₁, -, hpath⟩ := path_append.1 hpath
    have hseg : ∀ st ∈ seg, MovesRegisters st ∧ OneState st.after := by
      intro st hst
      have hmem : st ∈ runSteps ready P uninit n := by
        rw [← hl]
        simp [hst]
      exact ⟨hmoves st hmem, hafter st hmem⟩
    refine ⟨written_once hpath hseg hq hav, fun hhead => ?_⟩
    cases seg with
    | nil => exact fun st h => by cases h
    | cons st seg =>
      obtain ⟨rfl, -⟩ := id hpath
      exact not_written hpath hseg hq hav (hhead st rfl)

theorem register_life_cycle_small : ∃ p₀ p, initProcessor smallProgram false = .ok p₀ ∧
    runFrom false smallProgram (fun _ _ => 0) 10 = some p ∧
    (∀ _ : ℕ, (processorCycleCalls fun _ => 0).run Call.exec = processorCycle fun _ => 0) ∧
    Path p₀ (runSteps false smallProgram (fun _ _ => 0) 10) p ∧ OneState p ∧
    (∀ st ∈ runSteps false smallProgram (fun _ _ => 0) 10,
      st.after = endState (st.call.exec st.before) ∧ OneState st.before ∧ OneState st.after ∧
      Obeys st.before st.after (st.call.changes st.before) ∧
      ∀ q, ¬ Writes st q → rd st.after.physical q = rd st.before.physical q) ∧
    ∀ seg q, seg <:+: runSteps false smallProgram (fun _ _ => 0) 10 → q.toNat < 64 →
      (∀ st ∈ seg, ¬ InState st.before q .available) →
      (seg.Pairwise fun st st' => ¬ (Writes st q ∧ Writes st' q)) ∧
      ((∀ st ∈ seg.head?, ¬ InState st.before q .pending) → ∀ st ∈ seg, ¬ Writes st q) :=
  register_life_cycle smallProgram_wellFormed smallProgram_short false _ 10

end R10000
