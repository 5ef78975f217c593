/-
  What a simulation records (`processor_get_json` of `processor.c` and the `get_json`
  functions that it calls): the JSON object of a state, with its fields in order.
-/
import R10000.Cycle

namespace R10000

/-- The object of `active_list_entry_to_json`. -/
structure ActiveListEntryJson where
  done : Bool
  exception : Bool
  logicalDestination : UInt8
  oldDestination : UInt8
  pc : ℕ
  deriving DecidableEq, Repr

/-- The object that `iq_get_json` appends for an entry. -/
structure IqEntryJson where
  destRegister : UInt8
  opAIsReady : Bool
  opARegTag : UInt8
  opAValue : UInt64
  opBIsReady : Bool
  opBRegTag : UInt8
  opBValue : UInt64
  opCode : List Char
  pc : ℕ
  deriving DecidableEq, Repr

/-- The object of `processor_get_json`. -/
structure StateJson where
  pc : ℕ
  exceptionPc : ℕ
  exception : Bool
  physicalRegisterFile : Vector UInt64 regPhyFileSize
  registerMapTable : Vector UInt8 regLogFileSize
  freeList : List UInt8
  busyBitTable : Vector Bool regPhyFileSize
  activeList : List ActiveListEntryJson
  decodedPcs : List ℕ
  integerQueue : List IqEntryJson
  deriving DecidableEq, Repr

/-- `queue_get_json` -/
def queueGetJson {α β : Type} [Inhabited α] {cap : ℕ} (queue : Fifo α cap)
    (elementToJson : α → β) : List β :=
  queue.toList.map elementToJson

/-- `active_list_entry_to_json` -/
def activeListEntryToJson (entry : ActiveListEntry) : ActiveListEntryJson where
  done := entry.isDone
  exception := entry.isException
  logicalDestination := entry.logDest
  oldDestination := entry.oldPhyDest
  pc := entry.pc

/-- `DEFAULT_TAG` -/
def defaultTag : UInt8 := 0

/-- The body of the loop of `iq_get_json`: the tag of a ready operand is not written, and an
    `addi` is written as an `add`. -/
def iqEntryToJson (entry : IqEntry) : IqEntryJson where
  destRegister := entry.instr.dest.phyId
  opAIsReady := entry.isOpAReady
  opARegTag := if entry.isOpAReady then defaultTag else entry.instr.opA.phyId
  opAValue := entry.instr.opA.value
  opBIsReady := entry.isOpBReady
  opBRegTag := if entry.isOpBReady then defaultTag else entry.instr.opB.phyId
  opBValue :=
    match entry.instr.opB.type with
    | .imm => entry.instr.opB.imm
    | .reg => entry.instr.opB.value
  opCode := if entry.instr.type = .addi then ['a', 'd', 'd'] else entry.instr.name.take 15
  pc := entry.instr.pc

/-- `processor_get_json` -/
def processorGetJson (p : Processor) : StateJson where
  pc := p.pc
  exceptionPc := p.exceptionStatus.exceptionPc
  exception := p.exceptionStatus.isException
  physicalRegisterFile := p.physical
  registerMapTable := p.logical
  freeList := queueGetJson p.freeList id
  busyBitTable := p.isBusy
  activeList := queueGetJson p.activeList activeListEntryToJson
  decodedPcs := queueGetJson p.dir (·.pc)
  integerQueue := queueGetJson p.iq iqEntryToJson

/-- The states that `run_simulation` appends to the output, from `init_processor` in a process
    whose `ready_to_finish` is `ready`, and the `ready_to_finish` that it leaves behind. -/
def Records (ready : Bool) (P : Program) (uninit : ℕ → ℕ → UInt8) (trace : List StateJson)
    (ready' : Bool) : Prop :=
  ∃ fuel p₀ states p, initProcessor P ready = .ok p₀ ∧
    runSimulation uninit fuel p₀ = some (states, p) ∧
    states.map processorGetJson = trace ∧ p.readyToFinish = ready'

end R10000
