/-
  Programs (`program_t`).
-/
import R10000.Instruction
import Mathlib.Data.List.Basic

namespace R10000

/-- `program_t`: `count` instructions in an array.  An array of the source has fewer than
    `2 ^ 64` elements. -/
structure Program where
  instructions : List Instruction
  count_lt : instructions.length < 2 ^ 64

/-- `program.count` -/
def Program.count (P : Program) : ℕ := P.instructions.length

/-- Every instruction of the program is well formed and its pc is its index. -/
def Program.WellFormed (P : Program) : Prop :=
  ∀ (i : ℕ) (x : Instruction), P.instructions[i]? = some x → x.WellFormed ∧ x.pc = i

instance (P : Program) : Decidable P.WellFormed :=
  decidable_of_iff (∀ i (h : i < P.instructions.length),
      P.instructions[i].WellFormed ∧ P.instructions[i].pc = i)
    ⟨fun h i x hx => by
      obtain ⟨hi, rfl⟩ := List.getElem?_eq_some_iff.1 hx
      exact h i hi,
    fun h i hi => h i _ (List.getElem?_eq_getElem hi)⟩

/-- `PC_EXCEPTION` -/
def pcException : ℕ := 0x10000

/-- The program ends before `PC_EXCEPTION`. -/
def Program.Short (P : Program) : Prop := P.count ≤ pcException

instance (P : Program) : Decidable P.Short := inferInstanceAs (Decidable (_ ≤ _))

/-! ## Programs by hand -/

/-- The operand `xN`. -/
def regOperand (n : UInt8) : Operand := ⟨.reg, n, 0, 0, 0⟩

/-- An immediate operand. -/
def immOperand (v : UInt64) : Operand := Operand.setImm ⟨.imm, 0, 0, 0, 0⟩ v

/-- The program of some types, register destinations and operands. -/
def Program.ofList (l : List (InstructionType × UInt8 × UInt8 × Operand))
    (h : l.length < 2 ^ 64) : Program where
  instructions := l.mapIdx fun pc (type, dest, opA, opB) =>
    ⟨type, [], regOperand dest, regOperand opA, opB, instructionFunctions type, false, pc⟩
  count_lt := by simpa using h

end R10000
