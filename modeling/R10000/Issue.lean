/-
  The ALUs (`alu.c`), the Integer Queue (`iq.c`) and the issue stage (`issue.c`).
-/
import R10000.ActiveList

namespace R10000

/-! ## The ALUs -/

/-- `alu_push_instruction`: the instruction enters the first stage, and what was there moves on. -/
def aluPushInstruction (alu : Alu) (instr : Instruction) : Alu := ⟨instr, alu.stage0⟩

/-- `alu_cycle` on the ALU `i`. -/
def aluCycle (i : Fin numAlus) : ProcM Unit := do
  let p ← get
  let instr := (p.alus.get i).forwardingPath
  if instr.type = .unknownType then
    return ()
  else
    let (value, isException) ← orReturn (instr.function.call instr.opA instr.opB)
    let instr := { instr with dest := { instr.dest with value }, isException }
    modify fun p => { p with alus := p.alus.set i ⟨(p.alus.get i).stage0, instr⟩ i.isLt }

/-! ## The Integer Queue -/

/-- `iq_enqueue` -/
def iqEnqueue (iq : Fifo IqEntry iqCapacity) (instr : Instruction) (isOpAReady isOpBReady : Bool) :
    Except Fault (Fifo IqEntry iqCapacity) :=
  (iq.push ⟨instr, isOpAReady, isOpBReady⟩).map (·.2)

/-- `iq_entry_is_ready` -/
def iqEntryIsReady (entry : IqEntry) : Bool := entry.isOpAReady && entry.isOpBReady

/-- The value of a ready operand is read from the register file. -/
def captureOperand (operand : Operand) (isReady : Bool) (physical : Vector UInt64 regPhyFileSize) :
    Except Fault Operand :=
  if isReady ∧ operand.type = .reg then do
    let value ← tableGet physical operand.phyId
    return { operand with value }
  else
    .ok operand

/-- The body of the loop of `iq_refresh_ready`. -/
def refreshEntry (p : Processor) (entry : IqEntry) : Except Fault IqEntry := do
  let isOpAReady ← isOperandReady entry.instr.opA p.isBusy p.activeList
  let isOpBReady ← isOperandReady entry.instr.opB p.isBusy p.activeList
  let opA ← captureOperand entry.instr.opA isOpAReady p.physical
  let opB ← captureOperand entry.instr.opB isOpBReady p.physical
  return ⟨{ entry.instr with opA, opB }, isOpAReady, isOpBReady⟩

/-- The loop of `iq_refresh_ready`, with `n` entries from index `i` on to go. -/
def refreshLoop : (n i : ℕ) → ProcM Unit
  | 0, _ => pure ()
  | n + 1, i => do
    let p ← get
    let entry ← orReturn (p.iq.peekLogical i)
    let entry ← orReturn (refreshEntry p entry)
    let (_, iq) ← orReturn (p.iq.updateLogical i entry)
    modify fun p => { p with iq }
    refreshLoop n (i + 1)

/-- `iq_refresh_ready` -/
def iqRefreshReady : ProcM Unit := do
  let p ← get
  refreshLoop p.iq.count 0

/-- The loop of `iq_get_first_n_ready` at index `i`, with the entries found so far.  An
    iteration removes an entry or moves to the next one, so `fuel` entries are left to look
    at. -/
def getFirstNReadyLoop (n : ℕ) : (fuel i : ℕ) → Fifo IqEntry iqCapacity → List IqEntry →
    Except Fault (List IqEntry × Fifo IqEntry iqCapacity)
  | 0, _, iq, entries => .ok (entries, iq)
  | fuel + 1, i, iq, entries =>
    if i < iq.count ∧ entries.length < n then do
      let entry ← iq.peekLogical i
      if entry.instr.isException then
        return (entries, iq)
      else if iqEntryIsReady entry then
        let (_, iq) ← iq.popLogical i
        getFirstNReadyLoop n fuel i iq (entries ++ [entry])
      else
        getFirstNReadyLoop n fuel (i + 1) iq entries
    else
      .ok (entries, iq)

/-- `iq_get_first_n_ready`: the entries that it takes, and the queue that it leaves. -/
def iqGetFirstNReady (iq : Fifo IqEntry iqCapacity) (n : ℕ) :
    Except Fault (List IqEntry × Fifo IqEntry iqCapacity) :=
  getFirstNReadyLoop n iq.count 0 iq []

/-- An operand after the broadcast of a result: the tags are compared whatever the operand is. -/
def setFwOperand (instr : Instruction) (operand : Operand) (isReady : Bool) : Operand × Bool :=
  if instr.dest.phyId = operand.phyId then ({ operand with value := instr.dest.value }, true)
  else (operand, isReady)

/-- The body of the loop of `iq_set_fw`. -/
def setFwEntry (instr : Instruction) (entry : IqEntry) : IqEntry :=
  ⟨{ entry.instr with
      opA := (setFwOperand instr entry.instr.opA entry.isOpAReady).1
      opB := (setFwOperand instr entry.instr.opB entry.isOpBReady).1 },
    (setFwOperand instr entry.instr.opA entry.isOpAReady).2,
    (setFwOperand instr entry.instr.opB entry.isOpBReady).2⟩

/-- The loop of `iq_set_fw`, with `n` entries from index `i` on to go. -/
def setFwLoop (instr : Instruction) : (n i : ℕ) → Fifo IqEntry iqCapacity →
    Except Fault (Fifo IqEntry iqCapacity)
  | 0, _, iq => .ok iq
  | n + 1, i, iq => do
    let entry ← iq.peekLogical i
    if instr.dest.phyId = entry.instr.opA.phyId ∨ instr.dest.phyId = entry.instr.opB.phyId then
      let (_, iq) ← iq.updateLogical i (setFwEntry instr entry)
      setFwLoop instr n (i + 1) iq
    else
      setFwLoop instr n (i + 1) iq

/-- `iq_set_fw` with the instruction at the forwarding path -/
def iqSetFw (iq : Fifo IqEntry iqCapacity) (instr : Instruction) :
    Except Fault (Fifo IqEntry iqCapacity) :=
  setFwLoop instr iq.count 0 iq

/-! ## The issue stage -/

/-- `issue_cycle`; the result is the number of instructions issued. -/
def issueCycle : ProcM ℕ := do
  iqRefreshReady
  let p ← get
  let (entries, iq) ← orReturn (iqGetFirstNReady p.iq numAlus)
  modify fun p => { p with
    iq
    alus := Vector.ofFn fun i : Fin numAlus =>
      aluPushInstruction (p.alus.get i)
        (if h : i < entries.length then entries[i].instr else bubble) }
  return entries.length

end R10000
