/-
  The commit stage (`commit.c`).
-/
import R10000.ActiveList

namespace R10000

/-- `alu_flush` -/
def aluFlush (_ : Alu) : Alu := ⟨bubble, bubble⟩

/-- `commit_set_exception`: the state of the exception at the head of the Active List. -/
def commitSetException : ProcM Unit := do
  let p ← get
  let entry ← orReturn (activeListPeekLogical p.activeList 0)
  modify fun p => { p with
    exceptionStatus := ⟨true, entry.pc⟩
    backpressure := true
    pc := pcException
    dir := p.dir.flush
    iq := p.iq.flush
    alus := p.alus.map aluFlush }

/-- One iteration of the loop of `commit_cycle`; the result tells whether the loop goes on. -/
def commitIteration : ProcM Bool := do
  let p ← get
  if p.activeList.isEmpty then
    return false
  else
    let entry ← orReturn (activeListPeekLogical p.activeList 0)
    if !entry.isDone then
      return false
    else if entry.isException then
      modify fun p => { p with exceptionMode := true }
      commitSetException
      return false
    else
      let freeList ← orReturn (freeListPush p.freeList entry.oldPhyDest)
      modify fun p => { p with freeList }
      let (_, activeList) ← orReturn (activeListPopLogical p.activeList 0)
      modify fun p => { p with activeList }
      return true

/-- The loop of `commit_cycle`, with `n` commits to go. -/
def commitLoop : (n : ℕ) → ProcM Unit
  | 0 => pure ()
  | n + 1 => do
    if ← commitIteration then
      commitLoop n

/-- One iteration of the loop of `commit_exception_mode`, on `count` entries. -/
def recoverIteration (count : ℕ) : ProcM Unit := do
  let p ← get
  let (entry, activeList) ← orReturn (activeListPopLogical p.activeList (count - 1))
  modify fun p => { p with activeList }
  let currentPhyReg ← orReturn (tableGet p.logical entry.logDest)
  let logical ← orReturn (tableSet p.logical entry.logDest entry.oldPhyDest)
  modify fun p => { p with logical }
  let freeList ← orReturn (freeListPush p.freeList currentPhyReg)
  modify fun p => { p with freeList }
  let isBusy ← orReturn (tableSet p.isBusy currentPhyReg false)
  modify fun p => { p with isBusy }

/-- The loop of `commit_exception_mode`, with `n` recoveries to go and `count` entries left. -/
def recoverLoop : (n count : ℕ) → ProcM Unit
  | 0, _ => pure ()
  | _ + 1, 0 => pure ()
  | n + 1, count + 1 => do
    recoverIteration (count + 1)
    recoverLoop n count

/-- The end of the exception mode; `commit->exception_mode` keeps its value. -/
def clearException (p : Processor) : Processor :=
  { p with
    exceptionStatus := { p.exceptionStatus with isException := false }
    backpressure := false }

/-- `commit_exception_mode` -/
def commitExceptionMode : ProcM Unit := do
  let p ← get
  let count := p.activeList.count
  if count = 0 then
    modify clearException
  recoverLoop instructionsPerCycle count

/-- `commit_cycle` -/
def commitCycle : ProcM Unit := do
  let p ← get
  if p.exceptionMode then
    commitExceptionMode
  else
    commitLoop instructionsPerCycle

end R10000
