/-
  Instructions (`instruction.h`, `instruction.c`): operands, the instruction record
  and the six functions that the ALUs call.
-/
import R10000.RegisterTable

namespace R10000

/-- `type_t` -/
inductive InstructionType where
  | add | addi | sub | mulu | divu | remu | unknownType
  deriving DecidableEq, Repr, Inhabited

/-- `operand_type_t` -/
inductive OperandType where
  | reg | imm
  deriving DecidableEq, Repr, Inhabited

/-- `operand_t`.  The union of the source overlays `imm` on the first eight bytes of `reg`:
    `log_id`, `phy_id` and six bytes of padding (little-endian). -/
structure Operand where
  type : OperandType
  logId : UInt8
  phyId : UInt8
  pad : BitVec 48
  value : UInt64
  deriving DecidableEq, Repr, Inhabited

/-- The member `imm` of the union. -/
def Operand.imm (o : Operand) : UInt64 :=
  ⟨(o.pad ++ o.phyId.toBitVec : BitVec 56) ++ o.logId.toBitVec⟩

/-- Assignment to the member `imm` of the union. -/
def Operand.setImm (o : Operand) (v : UInt64) : Operand :=
  { o with
    logId := ⟨v.toBitVec.extractLsb' 0 8⟩
    phyId := ⟨v.toBitVec.extractLsb' 8 8⟩
    pad := v.toBitVec.extractLsb' 16 48 }

theorem Operand.imm_setImm (o : Operand) (v : UInt64) : (o.setImm v).imm = v := by
  refine UInt64.toBitVec_inj.1 (BitVec.eq_of_getLsbD_eq fun i hi => ?_)
  simp only [Operand.imm, Operand.setImm, BitVec.getLsbD_append, BitVec.getLsbD_extractLsb']
  by_cases h1 : i < 8
  · simp [h1]
  · by_cases h2 : i - 8 < 8
    · simp [h1, h2, show 8 + (i - 8) = i by omega]
    · simp [h1, h2, show 16 + (i - 8 - 8) = i by omega, show i - 8 - 8 < 48 by omega]

/-- `instruction_func_t`: a pointer to one of the functions below. -/
inductive InstructionFunc where
  | null | addFunc | addiFunc | subFunc | muluFunc | divuFunc | remuFunc
  deriving DecidableEq, Repr, Inhabited

/-- `instruction_t` -/
structure Instruction where
  type : InstructionType
  name : List Char
  dest : Operand
  opA : Operand
  opB : Operand
  function : InstructionFunc
  isException : Bool
  pc : ℕ
  deriving DecidableEq, Repr, Inhabited

/-- `type_names` -/
def typeNames : List (List Char) :=
  [['a', 'd', 'd'], ['a', 'd', 'd', 'i'], ['s', 'u', 'b'], ['m', 'u', 'l', 'u'],
    ['d', 'i', 'v', 'u'], ['r', 'e', 'm', 'u']]

/-- `instruction_functions`; the table has no entry for `UNKNOWN_TYPE`. -/
def instructionFunctions : InstructionType → InstructionFunc
  | .add => .addFunc
  | .addi => .addiFunc
  | .sub => .subFunc
  | .mulu => .muluFunc
  | .divu => .divuFunc
  | .remu => .remuFunc
  | .unknownType => .null

/-! ## The functions of the ALUs -/

/-- `assert(o.type == t)` -/
def assertType (o : Operand) (t : OperandType) : Except Fault Unit :=
  if o.type = t then .ok () else .error .assertion

/-- A function of two registers whose result never faults. -/
def regFunc (op : UInt64 → UInt64 → UInt64) (a b : Operand) : Except Fault (UInt64 × Bool) := do
  assertType a .reg
  assertType b .reg
  return (op a.value b.value, false)

/-- A function of two registers that faults, with result `0`, if the second one is zero. -/
def divFunc (op : UInt64 → UInt64 → UInt64) (a b : Operand) : Except Fault (UInt64 × Bool) := do
  assertType a .reg
  assertType b .reg
  return if b.value = 0 then (0, true) else (op a.value b.value, false)

/-- `add_func`: the signed addition, as the two's complement machine does it. -/
def addFunc : Operand → Operand → Except Fault (UInt64 × Bool) := regFunc (· + ·)

/-- `addi_func` -/
def addiFunc (a b : Operand) : Except Fault (UInt64 × Bool) := do
  assertType a .reg
  assertType b .imm
  return (a.value + b.imm, false)

/-- `sub_func` -/
def subFunc : Operand → Operand → Except Fault (UInt64 × Bool) := regFunc (· - ·)

/-- `mulu_func` -/
def muluFunc : Operand → Operand → Except Fault (UInt64 × Bool) := regFunc (· * ·)

/-- `divu_func` -/
def divuFunc : Operand → Operand → Except Fault (UInt64 × Bool) := divFunc (· / ·)

/-- `remu_func` -/
def remuFunc : Operand → Operand → Except Fault (UInt64 × Bool) := divFunc (· % ·)

/-- A call through an `instruction_func_t`: the result and the exception flag. -/
def InstructionFunc.call : InstructionFunc → Operand → Operand → Except Fault (UInt64 × Bool)
  | .null, _, _ => .error .undefined
  | .addFunc, a, b => R10000.addFunc a b
  | .addiFunc, a, b => R10000.addiFunc a b
  | .subFunc, a, b => R10000.subFunc a b
  | .muluFunc, a, b => R10000.muluFunc a b
  | .divuFunc, a, b => R10000.divuFunc a b
  | .remuFunc, a, b => R10000.remuFunc a b

section
variable {op : UInt64 → UInt64 → UInt64} {a b : Operand}

theorem regFunc_ok (ha : a.type = .reg) (hb : b.type = .reg) :
    regFunc op a b = .ok (op a.value b.value, false) := by
  simp only [regFunc, assertType, ha, hb, if_true]; rfl

theorem divFunc_ok (ha : a.type = .reg) (hb : b.type = .reg) :
    divFunc op a b = .ok (if b.value = 0 then (0, true) else (op a.value b.value, false)) := by
  simp only [divFunc, assertType, ha, hb, if_true]; rfl

theorem addiFunc_ok (ha : a.type = .reg) (hb : b.type = .imm) :
    addiFunc a b = .ok (a.value + b.imm, false) := by
  simp only [addiFunc, assertType, ha, hb, if_true]; rfl

end

/-! ## Well-formed instructions -/

/-- A register operand with an id below 32. -/
def Operand.IsReg (o : Operand) : Prop := o.type = .reg ∧ o.logId.toNat < regLogFileSize

instance (o : Operand) : Decidable o.IsReg := inferInstanceAs (Decidable (_ ∧ _))

/-- The operands of an instruction are of the kinds that its function asserts, and its
    registers are below 32. -/
structure Instruction.OperandsFit (x : Instruction) : Prop where
  dest : x.dest.IsReg
  opA : x.opA.IsReg
  opB : if x.type = .addi then x.opB.type = .imm else x.opB.IsReg

instance (x : Instruction) : Decidable x.OperandsFit :=
  decidable_of_iff (x.dest.IsReg ∧ x.opA.IsReg ∧
      if x.type = .addi then x.opB.type = .imm else x.opB.IsReg)
    ⟨fun ⟨h1, h2, h3⟩ => ⟨h1, h2, h3⟩, fun ⟨h1, h2, h3⟩ => ⟨h1, h2, h3⟩⟩

/-- The function pointer of an instruction is the one of its type. -/
def Instruction.Typed (x : Instruction) : Prop :=
  x.type ≠ .unknownType ∧ x.function = instructionFunctions x.type

instance (x : Instruction) : Decidable x.Typed := inferInstanceAs (Decidable (_ ∧ _))

/-- A well-formed instruction, as `parse_instruction` and `init_instruction` are meant to
    build it. -/
structure Instruction.WellFormed (x : Instruction) : Prop where
  typed : x.Typed
  fit : x.OperandsFit
  fresh : x.isException = false

instance (x : Instruction) : Decidable x.WellFormed :=
  decidable_of_iff (x.Typed ∧ x.OperandsFit ∧ x.isException = false)
    ⟨fun ⟨h1, h2, h3⟩ => ⟨h1, h2, h3⟩, fun ⟨h1, h2, h3⟩ => ⟨h1, h2, h3⟩⟩

end R10000
