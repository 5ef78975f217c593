/-
  The program (`main.c`): the input file, the simulation and the value that `main` returns.
-/
import R10000.Record
import R10000.Results.Parser

namespace R10000

/-- The values of the error codes in `error.h`. -/
def ErrorCode.value : ErrorCode → ℤ
  | .invalidFormat => -124
  | .invalidName => -123
  | .queueInit => -121
  | .queueFull => -120
  | .queueEmpty => -119
  | .queueInvalidIndex => -118
  | .bufferOverflow => -115
  | .memAlloc => -114
  | .invalidLogReg => -113
  | .invalidPhyReg => -112

/-- `ERR_ARGS_NUM` -/
def errArgsNum : ℤ := -127

/-- `ERR_FILE_PARSE` -/
def errFileParse : ℤ := -126

/-- What `yyjson_read_file` finds: no JSON document, one whose root is no array, or the items of
    the array, of which one that is not a string is `none`. -/
inductive InputFile where
  | unreadable
  | noArray
  | array (items : List (Option (List Char)))

/-- How `main` ends: the value that it returns, and the states that it has written. -/
structure Exit where
  value : ℤ
  output : Option (List StateJson)
  deriving DecidableEq, Repr

/-- `return res;`, unless the function that fails does not return. -/
def Fault.exit : Fault → Option Exit
  | .err e => some ⟨e.value, none⟩
  | .assertion | .undefined => none

theorem parseInstructions_lt {items : List (Option (List Char))} {instructions : List Instruction}
    (h : parseInstructions items = .ok instructions) : instructions.length < 2 ^ 64 := by
  unfold parseInstructions at h
  split_ifs at h with hlen
  rw [(parseItems_getElem h).1]
  omega

/-- The program that `main` makes of the parsed instructions. -/
def parseProgram (items : List (Option (List Char))) : Except Fault Program :=
  match h : parseInstructions items with
  | .ok instructions => .ok ⟨instructions, parseInstructions_lt h⟩
  | .error f => .error f

/-- `main` after the parser: `writable` tells whether `yyjson_mut_write_file` succeeds.  There is
    no end if the simulation does not end within the `fuel`. -/
def simulate (P : Program) (writable : Bool) (uninit : ℕ → ℕ → UInt8) (fuel : ℕ) : Option Exit :=
  match initProcessor P false with
  | .error f => f.exit
  | .ok p => do
    let (states, _) ← runSimulation uninit fuel p
    if writable then
      return ⟨0, some (states.map processorGetJson)⟩
    else
      return ⟨errFileParse, none⟩

/-- `main` in a fresh process, with `argc` arguments. -/
def main (argc : ℕ) (input : InputFile) (writable : Bool) (uninit : ℕ → ℕ → UInt8) (fuel : ℕ) :
    Option Exit :=
  if argc ≠ 3 then some ⟨errArgsNum, none⟩
  else
    match input with
    | .unreadable => some ⟨errFileParse, none⟩
    | .noArray => some ⟨ErrorCode.invalidFormat.value, none⟩
    | .array items =>
      match parseProgram items with
      | .error f => f.exit
      | .ok P => simulate P writable uninit fuel

/-! ## The parser as `main` uses it -/

theorem parseProgram_ok {items : List (Option (List Char))} {P : Program} :
    parseProgram items = .ok P ↔ parseInstructions items = .ok P.instructions := by
  unfold parseProgram
  split
  · next instructions h =>
    constructor
    · rintro ⟨⟩
      exact h
    · intro hP
      obtain rfl : instructions = P.instructions := Except.ok.inj (h.symm.trans hP)
      rfl
  · next f h => exact iff_of_false (fun hP => by cases hP) (fun hP => by cases h.symm.trans hP)

theorem parseProgram_error {items : List (Option (List Char))} {f : Fault} :
    parseProgram items = .error f ↔ parseInstructions items = .error f := by
  unfold parseProgram
  split
  · next instructions h =>
    exact iff_of_false (fun hf => by cases hf) (fun hf => by cases h.symm.trans hf)
  · next f' h =>
    constructor
    · rintro ⟨⟩
      exact h
    · intro hf
      rw [Except.error.inj (h.symm.trans hf)]

/-- Why an item of the array is rejected. -/
def itemError : Option (List Char) → Option Fault
  | none => some (.err .invalidFormat)
  | some instrStr =>
    match parseInstruction instrStr 0 default with
    | .ok _ => none
    | .error f => some f

/-- The pc is not looked at. -/
theorem parseInstruction_pc (s : List Char) (pc : ℕ) (instr : Instruction) :
    parseInstruction s pc instr =
      (parseInstruction s 0 instr).map fun x => { x with pc } := by
  unfold parseInstruction
  split
  · rfl
  · next name dest opA opB _ =>
    cases getInstructionType name with
    | error f => rfl
    | ok type =>
      cases parseOperand dest instr.dest with
      | error f => rfl
      | ok d =>
        cases parseOperand opA instr.opA with
        | error f => rfl
        | ok a =>
          cases parseOperand opB instr.opB with
          | error f => rfl
          | ok b => rfl
  · rfl

/-- **The first item that is rejected decides.** -/
theorem parseItems_error : ∀ (items : List (Option (List Char))) (idx : ℕ) (f : Fault),
    parseItems idx items = .error f ↔ items.findSome? itemError = some f
  | [], _, _ => by simp [parseItems]
  | none :: _, _, _ => by
    rw [parseItems, Except.error.injEq, List.findSome?_cons, itemError, Option.some.injEq]
  | some s :: items, idx, f => by
    have hpc := parseInstruction_pc s idx default
    have ih := parseItems_error items (idx + 1) f
    rw [parseItems, List.findSome?_cons]
    cases hp : parseInstruction s 0 default with
    | error e =>
      have hitem : itemError (some s) = some e := by
        rw [itemError, hp]
      rw [hpc, hp, hitem, Option.some.injEq]
      exact Except.error.injEq e f ▸ Iff.rfl
    | ok x =>
      have hitem : itemError (some s) = none := by
        rw [itemError, hp]
      rw [hpc, hp, hitem, ← ih]
      cases parseItems (idx + 1) items with
      | error e => rfl
      | ok l => exact iff_of_false (fun h => by cases h) (fun h => by cases h)

theorem parseProgram_error_iff {items : List (Option (List Char))}
    (hlen : items.length * 120 < 2 ^ 63) {f : Fault} :
    parseProgram items = .error f ↔ items.findSome? itemError = some f := by
  rw [parseProgram_error, parseInstructions, if_neg (by omega), parseItems_error]

end R10000
