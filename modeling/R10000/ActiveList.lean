/-
  The Active List (`active_list.c`), the Free List (`free_list.c`) and the readiness
  test of operands (`instruction.c`).
-/
import R10000.Processor

namespace R10000

/-- The Active List of a processor. -/
abbrev ActiveList := Fifo ActiveListEntry regLogFileSize

/-- The Free List of a processor. -/
abbrev FreeList := Fifo UInt8 freeListSize

/-- `active_list_push` -/
def activeListPush (list : ActiveList) (entry : ActiveListEntry) : Except Fault ActiveList :=
  (list.push entry).map (·.2)

/-- `active_list_peek_logical`, which checks the index before the queue does -/
def activeListPeekLogical (list : ActiveList) (index : ℕ) : Except Fault ActiveListEntry :=
  if index ≥ list.count then .error (.err .queueInvalidIndex) else list.peekLogical index

/-- `active_list_pop_logical`, which checks the index before the queue does -/
def activeListPopLogical (list : ActiveList) (index : ℕ) :
    Except Fault (ActiveListEntry × ActiveList) :=
  if index ≥ list.count then .error (.err .queueInvalidIndex) else list.popLogical index

/-- The loop of `active_list_mark_done` and `active_list_mark_exception`, with `n` entries
    from index `i` on to go: the first entry with the given pc is updated. -/
def markLoop (update : ActiveListEntry → ActiveListEntry) (pc : ℕ) :
    (n i : ℕ) → ActiveList → Except Fault ActiveList
  | 0, _, list => .ok list
  | n + 1, i, list => do
    let entry ← list.peekLogical i
    if entry.pc = pc then
      (list.updateLogical i (update entry)).map (·.2)
    else
      markLoop update pc n (i + 1) list

/-- `active_list_mark_done` -/
def activeListMarkDone (list : ActiveList) (pc : ℕ) (isDone : Bool) : Except Fault ActiveList :=
  markLoop (fun entry => { entry with isDone := isDone }) pc list.count 0 list

/-- `active_list_mark_exception` -/
def activeListMarkException (list : ActiveList) (pc : ℕ) (isException : Bool) :
    Except Fault ActiveList :=
  markLoop (fun entry => { entry with isException := isException }) pc list.count 0 list

/-! ## The Free List -/

/-- `free_list_push` -/
def freeListPush (list : FreeList) (regIdx : UInt8) : Except Fault FreeList :=
  if regIdx.toNat ≥ regPhyFileSize then .error (.err .invalidPhyReg)
  else (list.push regIdx).map (·.2)

/-- `free_list_pop`; it checks what its output parameter holds before the call. -/
def freeListPop (list : FreeList) (regIdx : UInt8) : Except Fault (UInt8 × FreeList) :=
  if regIdx.toNat ≥ regPhyFileSize then .error (.err .invalidPhyReg) else list.pop

/-! ## Readiness of operands -/

/-- The scan of `is_operand_ready`, with `n` entries from index `i` on to go: whether some
    entry writes the register and is an exception. -/
def scanException (list : ActiveList) (phyId : UInt8) : (n i : ℕ) → Except Fault Bool
  | 0, _ => .ok false
  | n + 1, i => do
    let entry ← list.peekLogical i
    if entry.currPhyDest = phyId ∧ entry.isException then
      return true
    else
      scanException list phyId n (i + 1)

/-- `is_operand_ready`: an immediate, or a register that is not busy and whose writer in the Active
    List, if any, is no exception. -/
def isOperandReady (operand : Operand) (isBusy : Vector Bool regPhyFileSize)
    (list : ActiveList) : Except Fault Bool :=
  match operand.type with
  | .imm => .ok true
  | .reg => do
    let busy ← tableGet isBusy operand.phyId
    if busy then
      return false
    else
      let exception ← scanException list operand.phyId list.count 0
      return !exception

end R10000
