/-
  The calls that a cycle makes.

  `processorCycleCalls` is the control flow of `processorCycle` over the bodies of its loops, each
  of which handles one instruction, and the statements outside of them; `run_processorCycleCalls`
  says that it is the same program.  So the calls of a cycle, and those of a run, are lists that
  can be computed, and so are the states between them.
-/
import R10000.Cycle
import R10000.Lib.Calls

namespace R10000

open Calls Fallible

/-- What a cycle calls. -/
inductive Call where
  | commitIteration
  | clearException
  | recoverIteration (count : ℕ)
  | aluCycle (i : Fin numAlus)
  | updateIteration (i : Fin numAlus)
  | issueCycle
  | setBackpressure (stall : Bool)
  | dispatchIteration (uninit : UInt8)
  | fetchDecodeCycle
  | checkFinished (fetchedInstr : ℕ)

/-- The result of a call. -/
@[reducible] def Call.Res : Call → Type
  | .commitIteration => Bool
  | .issueCycle => ℕ
  | .fetchDecodeCycle => ℕ
  | _ => Unit

/-- The function or the statement of the source that is called. -/
def Call.exec : (c : Call) → ProcM c.Res
  | .commitIteration => R10000.commitIteration
  | .clearException => modify R10000.clearException
  | .recoverIteration count => R10000.recoverIteration count
  | .aluCycle i => R10000.aluCycle i
  | .updateIteration i => R10000.updateIteration i
  | .issueCycle => R10000.issueCycle
  | .setBackpressure stall => modify fun p => { p with backpressure := stall }
  | .dispatchIteration uninit => R10000.dispatchIteration uninit
  | .fetchDecodeCycle => R10000.fetchDecodeCycle
  | .checkFinished fetchedInstr => modify (R10000.checkFinished fetchedInstr)

/-- A program over the calls. -/
abbrev CallTree := Tree Call.Res Processor

/-- Make one call. -/
def call (c : Call) : CallTree c.Res := .one c

/-! ## The stages -/

/-- The calls of `commitLoop`. -/
def commitLoopCalls : (n : ℕ) → CallTree Unit
  | 0 => pure ()
  | n + 1 => do
    if ← call .commitIteration then
      commitLoopCalls n

/-- The calls of `recoverLoop`. -/
def recoverLoopCalls : (n count : ℕ) → CallTree Unit
  | 0, _ => pure ()
  | _ + 1, 0 => pure ()
  | n + 1, count + 1 => do
    call (.recoverIteration (count + 1))
    recoverLoopCalls n count

/-- The calls of `commitExceptionMode`. -/
def commitExceptionModeCalls : CallTree Unit := do
  let p ← Tree.state
  let count := p.activeList.count
  if count = 0 then
    call .clearException
  recoverLoopCalls instructionsPerCycle count

/-- The calls of `commitCycle`. -/
def commitCycleCalls : CallTree Unit := do
  let p ← Tree.state
  if p.exceptionMode then
    commitExceptionModeCalls
  else
    commitLoopCalls instructionsPerCycle

/-- The calls of `backEnd`. -/
def backEndCalls : CallTree Unit := do
  commitCycleCalls
  forM (List.finRange numAlus) fun i => call (.aluCycle i)
  forM (List.finRange numAlus) fun i => call (.updateIteration i)
  let _ ← call .issueCycle
  pure ()

/-- The calls of `dispatchLoop`. -/
def dispatchLoopCalls (uninit : ℕ → UInt8) : (n i : ℕ) → CallTree Unit
  | 0, _ => pure ()
  | n + 1, i => do
    call (.dispatchIteration (uninit i))
    dispatchLoopCalls uninit n (i + 1)

/-- The calls of `renameDispatchCycle`. -/
def renameDispatchCycleCalls (uninit : ℕ → UInt8) : CallTree Unit := do
  let p ← Tree.state
  let stall := applyBackpressure p
  call (.setBackpressure stall)
  if stall then
    pure ()
  else
    dispatchLoopCalls uninit p.dir.count 0

/-- The calls of `processorCycle`. -/
def processorCycleCalls (uninit : ℕ → UInt8) : CallTree Unit := do
  backEndCalls
  renameDispatchCycleCalls uninit
  let fetchedInstr ← call .fetchDecodeCycle
  call (.checkFinished fetchedInstr)

/-! ## They are the stages -/

@[simp] theorem run_call (c : Call) : (call c).run Call.exec = c.exec := Tree.run_one c

@[simp] theorem run_commitLoopCalls : ∀ n, (commitLoopCalls n).run Call.exec = commitLoop n
  | 0 => rfl
  | n + 1 => by
    rw [commitLoopCalls, commitLoop, Tree.run_bind, run_call]
    refine congrArg (commitIteration >>= ·) (funext fun more => ?_)
    cases more with
    | true => exact run_commitLoopCalls n
    | false => rfl

@[simp] theorem run_recoverLoopCalls :
    ∀ n count, (recoverLoopCalls n count).run Call.exec = recoverLoop n count
  | 0, _ => rfl
  | _ + 1, 0 => rfl
  | n + 1, count + 1 => by
    rw [recoverLoopCalls, recoverLoop, Tree.run_bind, run_call]
    exact congrArg (recoverIteration (count + 1) >>= ·)
      (funext fun _ => run_recoverLoopCalls n count)

@[simp] theorem run_commitExceptionModeCalls :
    commitExceptionModeCalls.run Call.exec = commitExceptionMode := by
  rw [commitExceptionModeCalls, commitExceptionMode, Tree.run_bind, Tree.run_state]
  refine congrArg (get >>= ·) (funext fun p => ?_)
  simp only []
  split_ifs
  · rw [Tree.run_bind, run_call]
    exact congrArg (modify clearException >>= ·) (funext fun _ => run_recoverLoopCalls _ _)
  · exact run_recoverLoopCalls _ _

@[simp] theorem run_commitCycleCalls : commitCycleCalls.run Call.exec = commitCycle := by
  rw [commitCycleCalls, commitCycle, Tree.run_bind, Tree.run_state]
  refine congrArg (get >>= ·) (funext fun p => ?_)
  split_ifs
  · exact run_commitExceptionModeCalls
  · exact run_commitLoopCalls _

@[simp] theorem run_executeCalls (l : List (Fin numAlus)) :
    (forM l fun i => call (.aluCycle i)).run Call.exec = forM l aluCycle :=
  (Tree.run_forM l _).trans (congrArg (forM l) (funext fun i => run_call (.aluCycle i)))

@[simp] theorem run_updateCalls (l : List (Fin numAlus)) :
    (forM l fun i => call (.updateIteration i)).run Call.exec = forM l updateIteration :=
  (Tree.run_forM l _).trans (congrArg (forM l) (funext fun i => run_call (.updateIteration i)))

@[simp] theorem run_backEndCalls : backEndCalls.run Call.exec = backEnd := by
  have hissue : (call .issueCycle).run Call.exec = issueCycle := run_call .issueCycle
  simp only [backEndCalls, backEnd, Tree.run_bind, run_commitCycleCalls, run_executeCalls,
    run_updateCalls, hissue]
  rfl

@[simp] theorem run_dispatchLoopCalls (uninit : ℕ → UInt8) :
    ∀ n i, (dispatchLoopCalls uninit n i).run Call.exec = dispatchLoop uninit n i
  | 0, _ => rfl
  | n + 1, i => by
    rw [dispatchLoopCalls, dispatchLoop, Tree.run_bind, run_call]
    exact congrArg (dispatchIteration (uninit i) >>= ·)
      (funext fun _ => run_dispatchLoopCalls uninit n (i + 1))

@[simp] theorem run_renameDispatchCycleCalls (uninit : ℕ → UInt8) :
    (renameDispatchCycleCalls uninit).run Call.exec = renameDispatchCycle uninit := by
  rw [renameDispatchCycleCalls, renameDispatchCycle, Tree.run_bind, Tree.run_state]
  refine congrArg (get >>= ·) (funext fun p => ?_)
  rw [Tree.run_bind, run_call]
  refine congrArg (Call.exec _ >>= ·) (funext fun _ => ?_)
  split_ifs
  · rfl
  · exact run_dispatchLoopCalls uninit _ _

/-- **The calls are those of the cycle.** -/
theorem run_processorCycleCalls (uninit : ℕ → UInt8) :
    (processorCycleCalls uninit).run Call.exec = processorCycle uninit := by
  have hfetch : (call .fetchDecodeCycle).run Call.exec = fetchDecodeCycle :=
    run_call .fetchDecodeCycle
  have hcheck : ∀ n, (call (.checkFinished n)).run Call.exec = modify (checkFinished n) :=
    fun n => run_call (.checkFinished n)
  simp only [processorCycleCalls, processorCycle, Tree.run_bind, run_backEndCalls,
    run_renameDispatchCycleCalls, hfetch, hcheck]

/-! ## Runs -/

/-- The calls that a cycle makes from `p`, with the states between them. -/
def cycleSteps (uninit : ℕ → UInt8) (p : Processor) : List (Step Call Processor) :=
  (processorCycleCalls uninit).steps Call.exec p

/-- The calls of the first `n` cycles. -/
def runSteps (ready : Bool) (P : Program) (uninit : ℕ → ℕ → UInt8) : ℕ → List (Step Call Processor)
  | 0 => []
  | n + 1 => runSteps ready P uninit n ++
    ((runFrom ready P uninit n).map (cycleSteps (uninit n))).getD []

/-- The state that a cycle returns in is the one that it ends in. -/
theorem endState_of_returned {α : Type} {r : EStateM.Result Fault Processor α} {p : Processor}
    (h : returned r = some p) : endState r = p := by
  unfold returned at h
  split at h
  · exact Option.some.inj h
  · exact Option.some.inj h
  · cases h

section
variable {ready : Bool} {P : Program} {uninit : ℕ → ℕ → UInt8}

theorem runSteps_succ {n : ℕ} {p : Processor} (h : runFrom ready P uninit n = some p) :
    runSteps ready P uninit (n + 1) = runSteps ready P uninit n ++ cycleSteps (uninit n) p := by
  rw [runSteps, h]
  rfl

/-- **The calls of a run lead from the initial state to the state of the run.** -/
theorem runSteps_path {p₀ : Processor} (h₀ : runFrom ready P uninit 0 = some p₀) :
    ∀ {n : ℕ} {p : Processor}, runFrom ready P uninit n = some p →
      Path p₀ (runSteps ready P uninit n) p
  | 0, _, h => Option.some.inj (h₀.symm.trans h)
  | n + 1, p, h => by
    obtain ⟨q, hq, hret⟩ := Option.bind_eq_some_iff.1 h
    rw [runSteps_succ hq, path_append]
    refine ⟨q, runSteps_path h₀ hq, ?_⟩
    have hpath := (processorCycleCalls (uninit n)).path Call.exec q
    rw [run_processorCycleCalls, endState_of_returned hret] at hpath
    exact hpath

/-- Each step of a run is the execution of its call. -/
theorem runSteps_after : ∀ n, ∀ st ∈ runSteps ready P uninit n,
    st.after = endState (st.call.exec st.before)
  | 0, _, h => by cases h
  | n + 1, st, h => by
    rcases List.mem_append.1 h with h | h
    · exact runSteps_after n st h
    · cases hr : runFrom ready P uninit n with
      | none =>
        rw [hr] at h
        cases h
      | some p =>
        rw [hr] at h
        exact Tree.steps_after Call.exec _ p st h

end

end R10000
