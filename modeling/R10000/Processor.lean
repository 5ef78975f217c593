/-
  The state of the simulator: `processor_t` with the stages and queues its pointers
  lead to (`processor.h`, `active_list.h`, `iq.h`, `alu.h`, `fetch_decode.h`,
  `commit.h`), and its initialisation.
-/
import R10000.Queue
import R10000.Program

namespace R10000

/-- `INSTRUCTIONS_PER_CYCLE` -/
abbrev instructionsPerCycle : ℕ := 4

/-- `NUM_ALUS` -/
abbrev numAlus : ℕ := 4

/-- `IQ_CAPACITY` -/
abbrev iqCapacity : ℕ := 32

/-- `FREE_LIST_SIZE` -/
abbrev freeListSize : ℕ := regPhyFileSize - regLogFileSize

/-- `exception_status_t` -/
structure ExceptionStatus where
  isException : Bool
  exceptionPc : ℕ
  deriving DecidableEq, Repr, Inhabited

/-- `active_list_entry_t` -/
structure ActiveListEntry where
  isDone : Bool
  isException : Bool
  logDest : UInt8
  oldPhyDest : UInt8
  currPhyDest : UInt8
  pc : ℕ
  deriving DecidableEq, Repr, Inhabited

/-- `iq_entry_t` -/
structure IqEntry where
  instr : Instruction
  isOpAReady : Bool
  isOpBReady : Bool
  deriving DecidableEq, Repr, Inhabited

/-- `alu_t`: the two elements of `instr_at_stage`; `forwarding_path` points to the last. -/
structure Alu where
  stage0 : Instruction
  stage1 : Instruction
  deriving DecidableEq, Repr, Inhabited

/-- The instruction on the forwarding path. -/
def Alu.forwardingPath (a : Alu) : Instruction := a.stage1

/-- `processor_t`.  The pipeline stages share its fields through their pointers, so each
    field is here once: `exceptionDetected` and `backpressure` are those of
    `fetch_decode_t`, `exceptionMode` is the one of `commit_t`.  The file-level variable
    `ready_to_finish` of `processor.c` is kept along. -/
structure Processor where
  pc : ℕ
  program : Program
  finished : Bool
  exceptionStatus : ExceptionStatus
  physical : Vector UInt64 regPhyFileSize
  logical : Vector UInt8 regLogFileSize
  freeList : Fifo UInt8 freeListSize
  isBusy : Vector Bool regPhyFileSize
  activeList : Fifo ActiveListEntry regLogFileSize
  dir : Fifo Instruction instructionsPerCycle
  exceptionDetected : Bool
  backpressure : Bool
  iq : Fifo IqEntry iqCapacity
  alus : Vector Alu numAlus
  exceptionMode : Bool
  readyToFinish : Bool

/-- A function of the simulator on its state. -/
abbrev ProcM := EStateM Fault Processor

/-! ## Initialisation -/

/-- An empty ALU stage. -/
def bubble : Instruction := { (default : Instruction) with type := .unknownType }

/-- An iteration of the loop of `init_free_list`, which ignores the result of
    `queue_push`. -/
def initFreeListStep (list : Fifo UInt8 freeListSize) (i : ℕ) : Fifo UInt8 freeListSize :=
  match list.push (UInt8.ofNat i) with
  | .ok (_, list) => list
  | .error _ => list

/-- `init_free_list`: the loop pushes the ids from `REG_LOG_FILE_SIZE` on. -/
def initFreeList : Except Fault (Fifo UInt8 freeListSize) := do
  let list ← Fifo.init freeListSize 1
  return (List.range' regLogFileSize freeListSize).foldl initFreeListStep list

/-- `init_processor`; it does not touch `ready_to_finish`, whose value it finds.  The sizes
    of the elements are those of `active_list_entry_t`, `instruction_t` and `iq_entry_t`. -/
def initProcessor (program : Program) (readyToFinish : Bool) : Except Fault Processor := do
  let freeList ← initFreeList
  let activeList ← Fifo.init regLogFileSize 16
  let dir ← Fifo.init instructionsPerCycle 120
  let iq ← Fifo.init iqCapacity 128
  return {
    pc := 0
    program
    finished := false
    exceptionStatus := ⟨false, 0⟩
    physical := Vector.replicate _ 0
    logical := Vector.ofFn fun i => UInt8.ofNat i
    freeList
    isBusy := Vector.replicate _ false
    activeList
    dir
    exceptionDetected := false
    backpressure := false
    iq
    alus := Vector.replicate _ ⟨bubble, bubble⟩
    exceptionMode := false
    readyToFinish }

end R10000
