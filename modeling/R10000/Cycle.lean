/-
  Fetch and decode (`fetch_decode.c`), one cycle of the processor and the simulation
  loop (`processor.c`).
-/
import R10000.Commit
import R10000.RenameDispatch

namespace R10000

/-! ## Fetch and decode -/

/-- The loop of `fetch_decode_cycle` at iteration `i`, with `n` instructions to go; the
    result is the number of instructions fetched. -/
def fetchLoop (currentPc : ℕ) : (n i : ℕ) → ProcM ℕ
  | 0, i => return i
  | n + 1, i => do
    let p ← get
    match p.program.instructions[sizeAdd currentPc i]? with
    | none => throw .undefined
    | some instr =>
      match p.dir.push instr with
      | .ok (_, dir) =>
        modify fun p => { p with dir }
        fetchLoop currentPc n (i + 1)
      | .error e => if e = .err .queueFull then return i else throw e

/-- `fetch_decode_cycle`; the result is the number of instructions fetched. -/
def fetchDecodeCycle : ProcM ℕ := do
  let p ← get
  if p.exceptionDetected then
    modify fun p => { p with pc := pcException }
    return 0
  else if p.backpressure then
    return 0
  else
    let currentPc := p.pc
    let remainingInstructions :=
      if currentPc < p.program.count then p.program.count - currentPc else 0
    let instructionsToFetch := min instructionsPerCycle remainingInstructions
    let fetched ← fetchLoop currentPc instructionsToFetch 0
    if fetched > 0 then
      modify fun p => { p with pc := sizeAdd currentPc fetched }
    return fetched

/-! ## One cycle -/

/-- The end test of `processor_cycle`. -/
def checkFinished (fetchedInstr : ℕ) (p : Processor) : Processor :=
  { p with
    finished := p.finished || p.readyToFinish
    readyToFinish := p.readyToFinish ||
      (fetchedInstr = 0 && p.activeList.isEmpty && !p.exceptionStatus.isException) }

/-- The stages of `processor_cycle` before rename and dispatch. -/
def backEnd : ProcM Unit := do
  commitCycle
  forM (List.finRange numAlus) aluCycle
  renameDispatchUpdateStructures
  discard issueCycle

/-- `processor_cycle`; a failing stage ends the cycle.  `uninit` is what the uninitialised
    local of `rename_dispatch_cycle` holds in each iteration of its loop. -/
def processorCycle (uninit : ℕ → UInt8) : ProcM Unit := do
  backEnd
  renameDispatchCycle uninit
  let fetchedInstr ← fetchDecodeCycle
  modify (checkFinished fetchedInstr)

/-! ## Runs -/

/-- The state in which a stage or a cycle returns, normally or with an error code; there is
    none after a failed assertion or an undefined access. -/
def returned {α : Type} : EStateM.Result Fault Processor α → Option Processor
  | .ok _ p => some p
  | .error (.err _) p => some p
  | .error _ _ => none

/-- The state after `n` calls of `processor_cycle`, from `init_processor` in a process whose
    `ready_to_finish` is `ready`; `uninit n i` is what the uninitialised local holds in
    iteration `i` of cycle `n`. -/
def runFrom (ready : Bool) (P : Program) (uninit : ℕ → ℕ → UInt8) : ℕ → Option Processor
  | 0 => (initProcessor P ready).toOption
  | n + 1 => do
    let p ← runFrom ready P uninit n
    returned (processorCycle (uninit n) p)

/-- The state after `n` calls of `processor_cycle` in a fresh process. -/
def run (P : Program) (uninit : ℕ → ℕ → UInt8) (n : ℕ) : Option Processor :=
  runFrom false P uninit n

/-- The loop of `run_simulation` at `cycle`: the states that it writes, one before each cycle,
    and the state that it ends in; there is none if the `fuel` is used up. -/
def simulationLoop (uninit : ℕ → ℕ → UInt8) :
    (fuel cycle : ℕ) → Processor → Option (List Processor × Processor)
  | 0, _, _ => none
  | fuel + 1, cycle, p => do
    let p' ← returned (processorCycle (uninit cycle) p)
    if p'.finished then
      return ([p], p')
    else
      let (states, last) ← simulationLoop uninit fuel (cycle + 1) p'
      return (p :: states, last)

/-- `run_simulation` from the state `p` on: the states that it writes and the one it ends in. -/
def runSimulation (uninit : ℕ → ℕ → UInt8) (fuel : ℕ) (p : Processor) :
    Option (List Processor × Processor) :=
  simulationLoop uninit fuel 0 p

/-- Every value of the uninitialised local is below 64. -/
def Benign (uninit : ℕ → ℕ → UInt8) : Prop := ∀ n i, (uninit n i).toNat < regPhyFileSize

end R10000
