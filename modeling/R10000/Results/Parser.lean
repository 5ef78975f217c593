/-
  What the parser admits: exactly when an accepted instruction is one that the machine can
  run, and when a parsed program runs.
-/
import R10000.Parser
import R10000.Refine.Cycle

namespace R10000

open Scan

/-- The fields of the text are of the kinds that the functions of the ALUs assert: the
    destination and the first operand start with an `x`, the second operand does so except
    in an `addi`. -/
def OperandKinds (instrStr : List Char) : Prop :=
  match scan instructionFormat instrStr with
  | some [name, dest, opA, opB] => dest.head? = some 'x' ∧ opA.head? = some 'x' ∧
      (opB.head? = some 'x' ↔ name ≠ ['a', 'd', 'd', 'i'])
  | _ => False

/-! ## Operands -/

section
variable {s : List Char} {op o : Operand}

theorem parseOperand_reg (h : parseOperand s op = .ok o) (hx : s.head? = some 'x') :
    o.IsReg := by
  unfold parseOperand at h
  rw [if_neg (by simpa using hx)] at h
  simp only at h
  split_ifs at h with hres
  cases h
  refine ⟨rfl, ?_⟩
  have hlt : (atoiReg s.tail).toNat < 32 := Nat.lt_of_not_ge hres
  show (atoiReg s.tail).toUInt8.toNat < 32
  rw [UInt64.toNat_toUInt8]
  omega

theorem parseOperand_imm (h : parseOperand s op = .ok o) (hx : s.head? ≠ some 'x') :
    o.type = .imm := by
  unfold parseOperand at h
  rw [if_pos hx] at h
  cases h
  rfl

theorem parseOperand_isReg_iff (h : parseOperand s op = .ok o) :
    o.IsReg ↔ s.head? = some 'x' := by
  refine ⟨fun hr => ?_, parseOperand_reg h⟩
  by_contra hx
  have ht := hr.1
  rw [parseOperand_imm h hx] at ht
  cases ht

theorem parseOperand_imm_iff (h : parseOperand s op = .ok o) :
    o.type = .imm ↔ s.head? ≠ some 'x' := by
  refine ⟨fun ht hx => ?_, parseOperand_imm h⟩
  rw [(parseOperand_reg h hx).1] at ht
  cases ht

end

/-! ## Instructions -/

theorem getInstructionType_ok {name : List Char} {type : InstructionType}
    (h : getInstructionType name = .ok type) :
    type ≠ .unknownType ∧ (type = .addi ↔ name = ['a', 'd', 'd', 'i']) := by
  unfold getInstructionType at h
  split at h
  · next type' name' hfind =>
    cases h
    have hmem := List.mem_of_find?_eq_some hfind
    have hname := List.find?_some hfind
    simp only [decide_eq_true_eq] at hname
    subst hname
    simp only [namedTypes, typeNames, List.zip_cons_cons, List.zip_nil_right, List.mem_cons,
      List.not_mem_nil, or_false, Prod.mk.injEq] at hmem
    rcases hmem with ⟨rfl, rfl⟩ | ⟨rfl, rfl⟩ | ⟨rfl, rfl⟩ | ⟨rfl, rfl⟩ | ⟨rfl, rfl⟩ | ⟨rfl, rfl⟩
    all_goals simp
  · cases h

/-- An accepted text has four fields, and the instruction is built from them. -/
theorem parseInstruction_fields {s : List Char} {pc : ℕ} {instr x : Instruction}
    (h : parseInstruction s pc instr = .ok x) : ∃ name dest opA opB,
      scan instructionFormat s = some [name, dest, opA, opB] ∧
      getInstructionType name = .ok x.type ∧ parseOperand dest instr.dest = .ok x.dest ∧
      parseOperand opA instr.opA = .ok x.opA ∧ parseOperand opB instr.opB = .ok x.opB ∧
      x.function = instructionFunctions x.type ∧ x.pc = pc ∧
      x.isException = instr.isException := by
  unfold parseInstruction at h
  split at h
  · cases h
  · next name dest opA opB hscan =>
    cases ht : getInstructionType name with
    | error e => rw [ht] at h; cases h
    | ok type =>
      cases hd : parseOperand dest instr.dest with
      | error e => rw [ht, hd] at h; cases h
      | ok d =>
        cases ha : parseOperand opA instr.opA with
        | error e => rw [ht, hd, ha] at h; cases h
        | ok a =>
          cases hb : parseOperand opB instr.opB with
          | error e => rw [ht, hd, ha, hb] at h; cases h
          | ok b =>
            rw [ht, hd, ha, hb] at h
            cases h
            exact ⟨name, dest, opA, opB, hscan, ht, hd, ha, hb, rfl, rfl, rfl⟩
  · cases h

/-- **Exactly when an accepted instruction fits its function.** -/
theorem operandsFit_iff {s : List Char} {pc : ℕ} {instr x : Instruction}
    (h : parseInstruction s pc instr = .ok x) : x.OperandsFit ↔ OperandKinds s := by
  obtain ⟨name, dest, opA, opB, hscan, ht, hd, ha, hb, -, -, -⟩ := parseInstruction_fields h
  have haddi := (getInstructionType_ok ht).2
  have hfit : x.OperandsFit ↔ x.dest.IsReg ∧ x.opA.IsReg ∧
      (if x.type = .addi then x.opB.type = .imm else x.opB.IsReg) :=
    ⟨fun h => ⟨h.dest, h.opA, h.opB⟩, fun h => ⟨h.1, h.2.1, h.2.2⟩⟩
  rw [hfit, parseOperand_isReg_iff hd, parseOperand_isReg_iff ha, parseOperand_isReg_iff hb,
    parseOperand_imm_iff hb, OperandKinds, hscan]
  simp only [ne_eq, ← haddi]
  by_cases htype : x.type = .addi
  · simp [htype]
  · simp [htype]

/-! ## Programs -/

theorem parseItems_getElem : ∀ {items : List (Option (List Char))} {idx : ℕ}
    {instructions : List Instruction}, parseItems idx items = .ok instructions →
    instructions.length = items.length ∧ ∀ i x, instructions[i]? = some x →
      ∃ s, items[i]? = some (some s) ∧ parseInstruction s (idx + i) default = .ok x
  | [], _, _, h => by
    cases h
    exact ⟨rfl, fun i x hx => by cases hx⟩
  | none :: _, _, _, h => by cases h
  | some s :: items, idx, instructions, h => by
    unfold parseItems at h
    cases hp : parseInstruction s idx default with
    | error e => rw [hp] at h; cases h
    | ok x =>
      cases hq : parseItems (idx + 1) items with
      | error e => rw [hp, hq] at h; cases h
      | ok l =>
        rw [hp, hq] at h
        cases h
        obtain ⟨hlen, hl⟩ := parseItems_getElem hq
        refine ⟨congrArg (· + 1) hlen, fun i y hy => ?_⟩
        cases i with
        | zero =>
          rw [List.getElem?_cons_zero, Option.some.injEq] at hy
          subst hy
          exact ⟨s, rfl, hp⟩
        | succ i =>
          obtain ⟨t, ht, hy⟩ := hl i y hy
          exact ⟨t, ht, by rwa [show idx + (i + 1) = idx + 1 + i by omega]⟩

section
variable {items : List (Option (List Char))} {P : Program}
  (h : parseInstructions items = .ok P.instructions)
include h

theorem parsed_getElem : P.instructions.length = items.length ∧
    ∀ i x, P.instructions[i]? = some x →
      ∃ s, items[i]? = some (some s) ∧ parseInstruction s i default = .ok x := by
  unfold parseInstructions at h
  split_ifs at h
  have := parseItems_getElem h
  simpa using this

theorem parsed_fit_iff :
    (∀ x ∈ P.instructions, x.OperandsFit) ↔ ∀ s, some s ∈ items → OperandKinds s := by
  obtain ⟨hlen, hget⟩ := parsed_getElem h
  constructor
  · intro hfit s hs
    obtain ⟨i, hi⟩ := List.mem_iff_getElem?.1 hs
    have hlt : i < P.instructions.length := by
      rw [hlen]
      exact (List.getElem?_eq_some_iff.1 hi).1
    obtain ⟨t, ht, hp⟩ := hget i _ (List.getElem?_eq_getElem hlt)
    rw [hi, Option.some.injEq, Option.some.injEq] at ht
    subst ht
    exact (operandsFit_iff hp).1 (hfit _ (List.getElem_mem hlt))
  · intro hk x hx
    obtain ⟨i, hi⟩ := List.mem_iff_getElem?.1 hx
    obtain ⟨s, hs, hp⟩ := hget i x hi
    exact (operandsFit_iff hp).2 (hk s (List.mem_of_getElem? hs))

/-- A parsed program whose operands fit is well formed. -/
theorem parsed_wellFormed (hfit : ∀ x ∈ P.instructions, x.OperandsFit) : P.WellFormed := by
  intro i x hx
  obtain ⟨s, -, hp⟩ := (parsed_getElem h).2 i x hx
  obtain ⟨name, dest, opA, opB, -, ht, -, -, -, hfun, hpc, hexc⟩ := parseInstruction_fields hp
  exact ⟨⟨⟨(getInstructionType_ok ht).1, hfun⟩, hfit x (List.mem_of_getElem? hx), hexc⟩, hpc⟩

/-- A program parsed from texts whose fields are of the right kinds never fails an assertion or
    accesses a table out of range, in any cycle of any run. -/
theorem parsed_runs (hkinds : ∀ s, some s ∈ items → OperandKinds s) (ready : Bool)
    (uninit : ℕ → ℕ → UInt8) (n : ℕ) : ∃ p, runFrom ready P uninit n = some p := by
  have hwf := parsed_wellFormed h ((parsed_fit_iff h).2 hkinds)
  obtain ⟨p, hp, -⟩ := runFrom_ok hwf ready uninit n
  exact ⟨p, hp⟩

end

/-- **Exactly when the parser admits what the machine can run.**  An accepted instruction has
    operands that fit its function, and a parsed program consists of such instructions and
    never fails an assertion or accesses a table out of range, if and only if the fields of
    the text are of the right kinds. -/
theorem parser_admits_iff {s : List Char} {pc : ℕ} {instr x : Instruction}
    (hx : parseInstruction s pc instr = .ok x) {items : List (Option (List Char))} {P : Program}
    (h : parseInstructions items = .ok P.instructions) :
    (x.OperandsFit ↔ OperandKinds s) ∧
      (((∀ y ∈ P.instructions, y.OperandsFit) ∧
        ∀ ready uninit n, ∃ p, runFrom ready P uninit n = some p) ↔
      ∀ t, some t ∈ items → OperandKinds t) := by
  refine ⟨operandsFit_iff hx, ?_⟩
  constructor
  · exact fun hfit => (parsed_fit_iff h).1 hfit.1
  · exact fun hkinds => ⟨(parsed_fit_iff h).2 hkinds, parsed_runs h hkinds⟩

/-- `add x1, x2, x3` -/
def registerText : List Char :=
  ['a', 'd', 'd', ' ', 'x', '1', ',', ' ', 'x', '2', ',', ' ', 'x', '3']

/-- `add x1, x2, 5` -/
def immediateText : List Char :=
  ['a', 'd', 'd', ' ', 'x', '1', ',', ' ', 'x', '2', ',', ' ', '5']

/-- The instruction `add` with the second operand `opB`. -/
def addInstruction (opB : Operand) : Instruction :=
  ⟨.add, ['a', 'd', 'd'], regOperand 1, regOperand 2, opB, .addFunc, false, 0⟩

/-- The program of this one instruction. -/
def addProgram (opB : Operand) : Program where
  instructions := [addInstruction opB]
  count_lt := by simp

theorem parser_admits_iff_register :
    ((addInstruction (regOperand 3)).OperandsFit ↔ OperandKinds registerText) ∧
      (((∀ y ∈ (addProgram (regOperand 3)).instructions, y.OperandsFit) ∧
        ∀ ready uninit n, ∃ p, runFrom ready (addProgram (regOperand 3)) uninit n = some p) ↔
      ∀ t, some t ∈ [some registerText] → OperandKinds t) :=
  parser_admits_iff
    (show parseInstruction registerText 0 default = .ok (addInstruction (regOperand 3)) from rfl)
    (show parseInstructions [some registerText] = .ok (addProgram (regOperand 3)).instructions
      from rfl)

/-- `add x1, x2, 5` is accepted, and its program fails the assertion of `add_func`. -/
theorem parser_admits_immediate :
    parseInstructions [some immediateText] = .ok (addProgram (immOperand 5)).instructions ∧
      ¬ (∀ x ∈ (addProgram (immOperand 5)).instructions, x.OperandsFit) ∧
      run (addProgram (immOperand 5)) (fun _ _ => 0) 5 = none := by
  refine ⟨by rfl, by decide, ?_⟩
  have hrun : (run (addProgram (immOperand 5)) (fun _ _ => 0) 5).isNone = true := by
    decide +kernel
  exact Option.isNone_iff_eq_none.1 hrun

end R10000
