/-
  The abstract machine: the processor with lists for queues and with total functions.

  A `Machine` is what a processor holds, without rotations, capacities and bubbles:
  each queue is the list of its elements and an ALU stage is the list of the
  instructions in it.  The stages of a cycle act on it without error codes, except that
  dispatch stops where an uninitialised byte is out of range.  `view` reads a machine
  off a processor; `R10000.Refine` shows that the processor does what the machine does.
-/
import R10000.Cycle

namespace R10000

/-- The state of the machine. -/
structure Machine where
  pc : ℕ
  program : Program
  finished : Bool
  exceptionStatus : ExceptionStatus
  physical : Vector UInt64 regPhyFileSize
  logical : Vector UInt8 regLogFileSize
  freeList : List UInt8
  isBusy : Vector Bool regPhyFileSize
  activeList : List ActiveListEntry
  dir : List Instruction
  exceptionDetected : Bool
  backpressure : Bool
  iq : List IqEntry
  stage0 : List Instruction
  stage1 : List Instruction
  exceptionMode : Bool
  readyToFinish : Bool

/-- The instructions in a stage of the ALUs. -/
def inStage (stage : Alu → Instruction) (alus : Vector Alu numAlus) : List Instruction :=
  (alus.toList.map stage).filter (·.type ≠ .unknownType)

/-- The machine that a processor is. -/
def view (p : Processor) : Machine where
  pc := p.pc
  program := p.program
  finished := p.finished
  exceptionStatus := p.exceptionStatus
  physical := p.physical
  logical := p.logical
  freeList := p.freeList.toList
  isBusy := p.isBusy
  activeList := p.activeList.toList
  dir := p.dir.toList
  exceptionDetected := p.exceptionDetected
  backpressure := p.backpressure
  iq := p.iq.toList
  stage0 := inStage Alu.stage0 p.alus
  stage1 := inStage Alu.stage1 p.alus
  exceptionMode := p.exceptionMode
  readyToFinish := p.readyToFinish

/-- An executed instruction carries its result and its exception flag. -/
def Instruction.execute (x : Instruction) : Instruction :=
  match x.function.call x.opA x.opB with
  | .ok (value, isException) => { x with dest := { x.dest with value }, isException }
  | .error _ => x

/-- Update the first entry with the given pc. -/
def markFirst (update : ActiveListEntry → ActiveListEntry) (pc : ℕ) :
    List ActiveListEntry → List ActiveListEntry
  | [] => []
  | e :: list => if e.pc = pc then update e :: list else e :: markFirst update pc list

/-- The Active List after the completion of an executed instruction. -/
def complete (x : Instruction) (list : List ActiveListEntry) : List ActiveListEntry :=
  let done := markFirst (fun e => { e with isDone := true }) x.pc list
  if x.isException then markFirst (fun e => { e with isException := true }) x.pc done else done

/-- The first `n` ready entries, up to the first one that is an exception, and the rest. -/
def select : ℕ → List IqEntry → List IqEntry × List IqEntry
  | 0, iq => ([], iq)
  | _ + 1, [] => ([], [])
  | n + 1, entry :: iq =>
    if entry.instr.isException then ([], entry :: iq)
    else if iqEntryIsReady entry then
      (entry :: (select n iq).1, (select n iq).2)
    else
      ((select (n + 1) iq).1, entry :: (select (n + 1) iq).2)

namespace Machine

/-! ## Commit -/

/-- Commit the oldest entry: its old register becomes free. -/
def retire (m : Machine) (e : ActiveListEntry) (rest : List ActiveListEntry) : Machine :=
  { m with activeList := rest, freeList := m.freeList ++ [e.oldPhyDest] }

/-- Raise the exception of the oldest entry. -/
def raise (m : Machine) (e : ActiveListEntry) : Machine :=
  { m with
    exceptionMode := true
    exceptionStatus := ⟨true, e.pc⟩
    backpressure := true
    pc := pcException
    dir := []
    iq := []
    stage0 := []
    stage1 := [] }

/-- Commit at most `n` entries, up to one that is not done or is an exception. -/
def commit : ℕ → Machine → Machine
  | 0, m => m
  | n + 1, m => match m.activeList with
    | [] => m
    | e :: rest =>
      if !e.isDone then m else if e.isException then m.raise e else commit n (m.retire e rest)

/-- Undo the renaming of the youngest entry. -/
def rollback (m : Machine) (e : ActiveListEntry) (rest : List ActiveListEntry) : Machine :=
  { m with
    activeList := rest
    logical := wr m.logical e.logDest e.oldPhyDest
    freeList := m.freeList ++ [rd m.logical e.logDest]
    isBusy := wr m.isBusy (rd m.logical e.logDest) false }

/-- Undo the renamings of at most `n` entries, youngest first. -/
def recover : ℕ → Machine → Machine
  | 0, m => m
  | n + 1, m => match m.activeList.getLast? with
    | none => m
    | some e => recover n (m.rollback e m.activeList.dropLast)

/-- The recovery is over once the Active List is empty. -/
def endException (m : Machine) : Machine :=
  if m.activeList = [] then
    { m with
      exceptionStatus := { m.exceptionStatus with isException := false }
      backpressure := false }
  else m

/-- Recover in the exception mode, commit otherwise. -/
def commitStage (m : Machine) : Machine :=
  if m.exceptionMode then m.endException.recover instructionsPerCycle
  else m.commit instructionsPerCycle

/-! ## Execution and write-back -/

/-- Execute the instructions in the last stage of the ALUs. -/
def executeStage (m : Machine) : Machine :=
  { m with stage1 := m.stage1.map Instruction.execute }

/-- Write the result of an executed instruction back. -/
def writeBack (m : Machine) (x : Instruction) : Machine :=
  { m with
    physical := wr m.physical x.dest.phyId x.dest.value
    isBusy := wr m.isBusy x.dest.phyId x.isException
    activeList := complete x m.activeList }

/-- Write the results back, one ALU after the other. -/
def writeBackStage (m : Machine) : Machine := m.stage1.foldl writeBack m

/-! ## Issue -/

/-- The operand has its value: its register is not busy, and no exception will write it. -/
def ready (m : Machine) (o : Operand) : Bool :=
  match o.type with
  | .imm => true
  | .reg => !rd m.isBusy o.phyId &&
      !m.activeList.any fun e => e.currPhyDest = o.phyId ∧ e.isException

/-- The operand with the value of its register, if it is ready. -/
def capture (m : Machine) (o : Operand) : Operand :=
  if m.ready o ∧ o.type = .reg then { o with value := rd m.physical o.phyId } else o

/-- The entry with its operands captured and flagged. -/
def refresh (m : Machine) (entry : IqEntry) : IqEntry :=
  ⟨{ entry.instr with opA := m.capture entry.instr.opA, opB := m.capture entry.instr.opB },
    m.ready entry.instr.opA, m.ready entry.instr.opB⟩

/-- Issue the selected instructions, and pass on those that were issued before. -/
def issueStage (m : Machine) : Machine :=
  let iq := m.iq.map m.refresh
  { m with
    iq := (select numAlus iq).2
    stage0 := (select numAlus iq).1.map IqEntry.instr
    stage1 := m.stage0 }

/-! ## Rename and dispatch -/

/-- The operand with the register that its logical register is mapped to. -/
def rename (m : Machine) (o : Operand) : Operand :=
  if o.type = .reg then { o with phyId := rd m.logical o.logId } else o

/-- Allocate the register `p` for the destination of `x`. -/
def allocate (m : Machine) (x : Instruction) (dir : List Instruction) (p : UInt8)
    (freeList : List UInt8) : Machine :=
  { m with
    dir
    freeList
    activeList := m.activeList ++
      [⟨false, false, x.dest.logId, rd m.logical x.dest.logId, p, x.pc⟩]
    logical := wr m.logical x.dest.logId p
    isBusy := wr m.isBusy p true }

/-- Dispatch `x` with the destination register `p`. -/
def dispatch (m : Machine) (x : Instruction) (dir : List Instruction) (p : UInt8)
    (freeList : List UInt8) : Machine :=
  let m' := m.allocate x dir p freeList
  { m' with iq := m'.iq ++ [m'.refresh ⟨{ x with
      dest := { x.dest with phyId := p }
      opA := m.rename x.opA
      opB := m.rename x.opB }, false, false⟩] }

/-- Dispatch `n` instructions; the result tells whether no uninitialised byte stopped it. -/
def dispatchLoop (uninit : ℕ → UInt8) : ℕ → ℕ → Machine → Machine × Bool
  | 0, _, m => (m, true)
  | n + 1, i, m => match m.dir, m.freeList with
    | x :: dir, p :: freeList =>
      if (uninit i).toNat < regPhyFileSize then
        dispatchLoop uninit n (i + 1) (m.dispatch x dir p freeList)
      else
        ({ m with dir }, false)
    | _, _ => (m, false)

/-- Less than four places are left in the Free List, the Active List or the queue. -/
def stalled (m : Machine) : Bool :=
  m.freeList.length < instructionsPerCycle ||
    regLogFileSize - m.activeList.length < instructionsPerCycle ||
    iqCapacity - m.iq.length < instructionsPerCycle

/-- Dispatch the whole DIR, unless resources are short. -/
def dispatchStage (uninit : ℕ → UInt8) (m : Machine) : Machine × Bool :=
  if m.stalled then ({ m with backpressure := true }, true)
  else dispatchLoop uninit m.dir.length 0 { m with backpressure := false }

/-! ## Fetch and the end of the cycle -/

/-- The number of instructions that are fetched. -/
def fetched (m : Machine) : ℕ :=
  if m.backpressure then 0 else min instructionsPerCycle (m.program.count - m.pc)

/-- Fetch the next instructions of the program. -/
def fetchStage (m : Machine) : Machine :=
  { m with
    dir := m.dir ++ (m.program.instructions.drop m.pc).take m.fetched
    pc := m.pc + m.fetched }

/-- The end test of a cycle, which takes two cycles to finish the run. -/
def checkFinished (m : Machine) (fetchedInstr : ℕ) : Machine :=
  { m with
    finished := m.finished || m.readyToFinish
    readyToFinish := m.readyToFinish ||
      (fetchedInstr = 0 && m.activeList.isEmpty && !m.exceptionStatus.isException) }

/-! ## One cycle -/

/-- The stages up to issue. -/
def backEnd (m : Machine) : Machine := m.commitStage.executeStage.writeBackStage.issueStage

/-- Fetch, and the end of the cycle. -/
def frontEnd (m : Machine) : Machine := m.fetchStage.checkFinished m.fetched

/-- One cycle: if dispatch fails, what comes after it is left out. -/
def cycle (uninit : ℕ → UInt8) (m : Machine) : Machine :=
  let r := m.backEnd.dispatchStage uninit
  if r.2 then r.1.frontEnd else r.1

/-- The stages of a cycle after issue. -/
def afterIssue (uninit : ℕ → UInt8) (m : Machine) : Machine :=
  let r := m.dispatchStage uninit
  if r.2 then r.1.frontEnd else r.1

theorem cycle_afterIssue (uninit : ℕ → UInt8) (m : Machine) :
    m.cycle uninit = m.backEnd.afterIssue uninit := rfl

/-- Whether dispatch goes through in a cycle. -/
def dispatches (uninit : ℕ → UInt8) (m : Machine) : Bool := (m.backEnd.dispatchStage uninit).2

/-- The number of instructions committed in a cycle. -/
def commits (m : Machine) : ℕ :=
  if m.exceptionMode then 0 else m.activeList.length - m.commitStage.activeList.length

/-! ## Runs -/

/-- The machine after `init_processor`. -/
def initial (P : Program) (ready : Bool) : Machine where
  pc := 0
  program := P
  finished := false
  exceptionStatus := ⟨false, 0⟩
  physical := Vector.replicate _ 0
  logical := Vector.ofFn fun i => UInt8.ofNat i
  freeList := (List.range' regLogFileSize freeListSize).map UInt8.ofNat
  isBusy := Vector.replicate _ false
  activeList := []
  dir := []
  exceptionDetected := false
  backpressure := false
  iq := []
  stage0 := []
  stage1 := []
  exceptionMode := false
  readyToFinish := ready

/-- The machine after `n` cycles. -/
def runFrom (ready : Bool) (P : Program) (uninit : ℕ → ℕ → UInt8) : ℕ → Machine
  | 0 => initial P ready
  | n + 1 => (runFrom ready P uninit n).cycle (uninit n)

/-! ## The rules of the loops -/

/-- **Recovery rule.**  What a rollback of the youngest entry keeps, recovery keeps. -/
theorem recover_induction {I : Machine → Prop}
    (hrollback : ∀ m e rest, m.activeList = rest ++ [e] → I m → I (m.rollback e rest)) :
    ∀ (n : ℕ) (m : Machine), I m → I (m.recover n)
  | 0, _, h => h
  | n + 1, m, h => by
    unfold recover
    split
    · exact h
    · next e he =>
      have hl := (List.dropLast_append_getLast? e he).symm
      exact recover_induction hrollback n _ (hrollback m e _ hl h)

/-- **Dispatch rule.**  `I n` holds with `n` instructions to go, and each dispatch keeps it.
    Then `J` holds of the result: after the last instruction, when the instruction at the
    head of the DIR is dropped, and when the DIR or the Free List is empty too early. -/
theorem dispatchLoop_induction {I : ℕ → Machine → Prop} {J : Machine × Bool → Prop}
    (uninit : ℕ → UInt8)
    (hdispatch : ∀ n m x dir p freeList, m.dir = x :: dir → m.freeList = p :: freeList →
      I (n + 1) m → I n (m.dispatch x dir p freeList))
    (hdone : ∀ m, I 0 m → J (m, true))
    (hdrop : ∀ n m x dir, m.dir = x :: dir → I (n + 1) m → J ({ m with dir }, false))
    (hstop : ∀ n m, I (n + 1) m → J (m, false)) :
    ∀ (n i : ℕ) (m : Machine), I n m → J (m.dispatchLoop uninit n i)
  | 0, _, m, h => hdone m h
  | n + 1, i, m, h => by
    unfold dispatchLoop
    split
    · next x dir p freeList hd hf =>
      split_ifs
      · exact dispatchLoop_induction uninit hdispatch hdone hdrop hstop n (i + 1) _
          (hdispatch n m x dir p freeList hd hf h)
      · exact hdrop n m x dir hd h
    · exact hstop n m h

/-- A dispatch puts one entry into the queue. -/
theorem length_dispatch_iq (m : Machine) (x : Instruction) (dir : List Instruction) (p : UInt8)
    (freeList : List UInt8) : (m.dispatch x dir p freeList).iq.length = m.iq.length + 1 :=
  List.length_append

end Machine

end R10000
