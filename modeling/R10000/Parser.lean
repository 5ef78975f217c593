/-
  The parser (`parser.c`).
-/
import R10000.Lib.Scan
import R10000.Program

namespace R10000

open Scan

/-- The types that have a name, in the order of `type_t`. -/
def namedTypes : List InstructionType := [.add, .addi, .sub, .mulu, .divu, .remu]

/-- `get_instruction_type`: the type of that name. -/
def getInstructionType (name : List Char) : Except Fault InstructionType :=
  match (namedTypes.zip typeNames).find? fun entry => entry.2 = name with
  | some (type, _) => .ok type
  | none => .error (.err .invalidName)

/-- `(reg_t) atoi(s)` -/
def atoiReg (s : List Char) : UInt64 := (atoi s).toInt64.toUInt64

/-- `parse_operand` on the operand `op`; a negative id is a large `reg_t`. -/
def parseOperand (opStr : List Char) (op : Operand) : Except Fault Operand :=
  if opStr.head? ≠ some 'x' then
    .ok ({ op with type := .imm }.setImm (atoiReg opStr))
  else
    let res := atoiReg opStr.tail
    if res.toNat ≥ regLogFileSize then .error (.err .invalidLogReg)
    else .ok { op with type := .reg, logId := res.toUInt8, phyId := 0, value := 0 }

/-- `MAX_TYPE_NAME_LENGTH` -/
def maxTypeNameLength : ℕ := 16

/-- `MAX_OPERAND_NAME_LENGTH` -/
def maxOperandNameLength : ℕ := 16

/-- `"%s %[^,], %[^,], %s"` -/
def instructionFormat : List Directive :=
  [.string maxTypeNameLength, .space, .until ',' maxOperandNameLength, .literal ',', .space,
    .until ',' maxOperandNameLength, .literal ',', .space, .string maxOperandNameLength]

/-- `parse_instruction` on the instruction `instr`. -/
def parseInstruction (instrStr : List Char) (pc : ℕ) (instr : Instruction) :
    Except Fault Instruction :=
  match scan instructionFormat instrStr with
  | none => .error .undefined
  | some [name, dest, opA, opB] => do
    let type ← getInstructionType name
    let dest ← parseOperand dest instr.dest
    let opA ← parseOperand opA instr.opA
    let opB ← parseOperand opB instr.opB
    return { instr with
      pc
      name := name.take (maxTypeNameLength - 1)
      type
      dest
      opA
      opB
      function := instructionFunctions type }
  | some _ => .error (.err .invalidFormat)

/-- The loop of `parse_instructions` from the index `idx` on, over zeroed instructions; an
    item that is not a string is `none`. -/
def parseItems : (idx : ℕ) → List (Option (List Char)) → Except Fault (List Instruction)
  | _, [] => .ok []
  | _, none :: _ => .error (.err .invalidFormat)
  | idx, some instrStr :: items => do
    let instr ← parseInstruction instrStr idx default
    let instructions ← parseItems (idx + 1) items
    return instr :: instructions

/-- `parse_instructions` on the items of the array; an instruction has 120 bytes. -/
def parseInstructions (items : List (Option (List Char))) : Except Fault (List Instruction) :=
  if items.length * 120 ≥ 2 ^ 63 then .error (.err .memAlloc)
  else parseItems 0 items

end R10000
