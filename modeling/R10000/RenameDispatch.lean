/-
  The rename and dispatch stage (`rename_dispatch.c`).
-/
import R10000.Issue

namespace R10000

/-- The renaming of an operand of `rename_dispatch_cycle`: an immediate stays as it is. -/
def renameOperand (logical : Vector UInt8 regLogFileSize) (operand : Operand) :
    Except Fault Operand :=
  if operand.type ≠ .reg then .ok operand
  else do
    let phyId ← tableGet logical operand.logId
    return { operand with phyId }

/-! ## Results of the ALUs -/

/-- One iteration of the loop of `rename_dispatch_update_structures`: the forwarding path of
    the ALU `i`. -/
def updateIteration (i : Fin numAlus) : ProcM Unit := do
  let p ← get
  let instr := (p.alus.get i).forwardingPath
  if instr.type = .unknownType then
    return ()
  else
    let phyRegDestIdx := instr.dest.phyId
    let physical ← orReturn (tableSet p.physical phyRegDestIdx instr.dest.value)
    let isBusy ← orReturn (tableSet p.isBusy phyRegDestIdx instr.isException)
    modify fun p => { p with physical, isBusy }
    let activeList ← orReturn (activeListMarkDone p.activeList instr.pc true)
    modify fun p => { p with activeList }
    if instr.isException then
      let activeList ← orReturn (activeListMarkException activeList instr.pc true)
      modify fun p => { p with activeList }

/-- `rename_dispatch_update_structures` -/
def renameDispatchUpdateStructures : ProcM Unit :=
  forM (List.finRange numAlus) updateIteration

/-! ## Dispatch -/

/-- One iteration of the loop of `rename_dispatch_cycle`; `uninit` is what the uninitialised
    local `phy_reg_dest_idx` holds when `free_list_pop` is called. -/
def dispatchIteration (uninit : UInt8) : ProcM Unit := do
  let p ← get
  let (entry, dir) ← orReturn p.dir.pop
  modify fun p => { p with dir }
  let opA ← orReturn (renameOperand p.logical entry.opA)
  let opB ← orReturn (renameOperand p.logical entry.opB)
  let oldPhyDest ← orReturn (tableGet p.logical entry.dest.logId)
  let (phyRegDestIdx, freeList) ← orReturn (freeListPop p.freeList uninit)
  modify fun p => { p with freeList }
  let activeList ← orReturn (activeListPush p.activeList {
    isDone := false
    isException := false
    logDest := entry.dest.logId
    oldPhyDest
    currPhyDest := phyRegDestIdx
    pc := entry.pc })
  modify fun p => { p with activeList }
  let logical ← orReturn (tableSet p.logical entry.dest.logId phyRegDestIdx)
  let isBusy ← orReturn (tableSet p.isBusy phyRegDestIdx true)
  modify fun p => { p with logical, isBusy }
  let isOpAReady ← orReturn (isOperandReady opA isBusy activeList)
  let isOpBReady ← orReturn (isOperandReady opB isBusy activeList)
  let opA ← orReturn (captureOperand opA isOpAReady p.physical)
  let opB ← orReturn (captureOperand opB isOpBReady p.physical)
  let iq ← orReturn (iqEnqueue p.iq { entry with
    dest := { entry.dest with phyId := phyRegDestIdx }
    opA
    opB } isOpAReady isOpBReady)
  modify fun p => { p with iq }

/-- The loop of `rename_dispatch_cycle` at iteration `i`, with `n` instructions to go;
    `uninit i` is the value of the uninitialised local in iteration `i`. -/
def dispatchLoop (uninit : ℕ → UInt8) : (n i : ℕ) → ProcM Unit
  | 0, _ => pure ()
  | n + 1, i => do
    dispatchIteration (uninit i)
    dispatchLoop uninit n (i + 1)

/-- The resource checks of `rename_dispatch_cycle`. -/
def applyBackpressure (p : Processor) : Bool :=
  p.freeList.count < instructionsPerCycle ||
    regLogFileSize - p.activeList.count < instructionsPerCycle ||
    iqCapacity - p.iq.count < instructionsPerCycle

/-- `rename_dispatch_cycle`; a stalled cycle only sets the backpressure. -/
def renameDispatchCycle (uninit : ℕ → UInt8) : ProcM Unit := do
  let p ← get
  let stall := applyBackpressure p
  modify fun p => { p with backpressure := stall }
  if stall then
    return ()
  else
    dispatchLoop uninit p.dir.count 0

end R10000
