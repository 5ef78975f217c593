/-
  Which texts the parser reads as written: exactly when an operand is accepted as the grammar
  says, and when parsing undoes printing.
-/
import R10000.Printer

namespace R10000

open Scan

/-! ## Operands -/

/-- `parse_operand` accepts the text if and only if it is an operand of the grammar, and
    rejects it with an error code if not. -/
def FollowsGrammar (t : List Char) : Prop := ∀ op,
  ((∃ o, parseOperand t op = .ok o) ↔ OperandGrammar t) ∧
    ∀ f, parseOperand t op = .error f → ∃ e, f = .err e

/-- The number after the `x` is not a register id, not even up to a multiple of `2 ^ 32`. -/
def InvalidRegister (t : List Char) : Prop :=
  t.head? = some 'x' ∧ ¬ leadingInt t.tail % 2 ^ 32 < 32

theorem OperandGrammar.not_invalid {t : List Char} (h : OperandGrammar t) :
    ¬ InvalidRegister t := by
  rintro ⟨hx, hinv⟩
  cases h with
  | register h hlt =>
    simp only [regLogFileSize] at hlt
    rw [List.tail_cons, leadingInt_of_isDigit h.2] at hinv
    omega
  | immediate h => cases h.2 'x' (List.mem_of_head? hx)
  | signed hsign h =>
    rw [List.head?_cons, Option.some.injEq] at hx
    subst hx
    rcases hsign with hsign | hsign <;> cases hsign

/-- **Exactly when an operand is accepted as the grammar says**: it is one of the grammar, or
    it starts with an `x` and the number that follows is not that of a register. -/
theorem follows_grammar_iff {t : List Char} (hlen : t.length < maxOperandNameLength) :
    FollowsGrammar t ↔ OperandGrammar t ∨ InvalidRegister t := by
  have hlen' : t.length ≤ 18 := by simp only [maxOperandNameLength] at hlen; omega
  have hok : ∀ op, (∃ o, parseOperand t op = .ok o) ↔ ¬ InvalidRegister t := by
    intro op
    rw [parseOperand_ok_iff hlen', InvalidRegister, not_and, not_not]
  simp only [FollowsGrammar, hok]
  constructor
  · intro h
    by_cases hinv : InvalidRegister t
    · exact .inr hinv
    · exact .inl ((h default).1.1 hinv)
  · intro h op
    refine ⟨?_, fun f hf => ⟨_, parseOperand_error hf⟩⟩
    rcases h with hg | hinv
    · exact iff_of_true hg.not_invalid hg
    · exact iff_of_false (not_not_intro hinv) fun hg => hg.not_invalid hinv

theorem follows_grammar_iff_x31 :
    FollowsGrammar ['x', '3', '1'] ↔
      OperandGrammar ['x', '3', '1'] ∨ InvalidRegister ['x', '3', '1'] :=
  follows_grammar_iff (by decide)

/-- `foo` is the immediate `0`, `x` is the register `x0`, and `x5y` is `x5`. -/
theorem grammar_not_followed :
    (parseOperand ['f', 'o', 'o'] default = .ok (immOperand 0) ∧
      ¬ OperandGrammar ['f', 'o', 'o'] ∧ ¬ FollowsGrammar ['f', 'o', 'o']) ∧
    (parseOperand ['x'] default = .ok (regOperand 0) ∧
      ¬ OperandGrammar ['x'] ∧ ¬ FollowsGrammar ['x']) ∧
    (parseOperand ['x', '5', 'y'] default = .ok (regOperand 5) ∧
      ¬ OperandGrammar ['x', '5', 'y'] ∧ ¬ FollowsGrammar ['x', '5', 'y']) := by
  have hnot : ∀ {t o}, parseOperand t default = .ok o → ¬ OperandGrammar t →
      ¬ OperandGrammar t ∧ ¬ FollowsGrammar t := by
    intro t o ho hg
    exact ⟨hg, fun h => hg ((h default).1.1 ⟨o, ho⟩)⟩
  have hfoo : parseOperand ['f', 'o', 'o'] default = .ok (immOperand 0) := by decide
  have hx : parseOperand ['x'] default = .ok (regOperand 0) := by decide
  have hx5y : parseOperand ['x', '5', 'y'] default = .ok (regOperand 5) := by decide
  refine ⟨⟨hfoo, hnot hfoo fun h => ?_⟩, ⟨hx, hnot hx fun h => ?_⟩, hx5y, hnot hx5y fun h => ?_⟩
  · cases h with
    | immediate h => cases h.2 'f' (by simp)
    | signed hsign h => cases h.2 'o' (by simp)
  · cases h with
    | register h => exact h.1 rfl
    | immediate h => cases h.2 'x' (by simp)
    | signed hsign h => exact h.1 rfl
  · cases h with
    | register h => cases h.2 'y' (by simp)
    | immediate h => cases h.2 'x' (by simp)
    | signed hsign h => cases h.2 'y' (by simp)

/-! ## Instructions -/

/-- `parse_instruction` gives the printed instruction back, at pc `i`: its opcode with the
    matching function, the kinds of its operands, its registers and its immediate. -/
def ParsesBack (i : ℕ) (x : Instruction) : Prop := ∀ instr, ∃ y,
  parseInstruction x.text i instr = .ok y ∧ y.From x ∧ y.dest.From x.dest ∧
    y.function = instructionFunctions x.type ∧ y.pc = i

section
variable {x : Instruction} {i : ℕ} {instr : Instruction}

theorem parseOperand_reg_from {o : Operand} (ho : o.IsReg) (op : Operand) :
    ∃ o', parseOperand o.text op = .ok o' ∧ o'.From o := by
  refine ⟨_, parseOperand_regText ho, ho.1.symm, fun _ => rfl, fun h => ?_⟩
  rw [ho.1] at h
  cases h

/-- The fields of a printed instruction are parsed one by one. -/
theorem parseInstruction_text (hx : x.WellFormed)
    (hlen : x.opB.text.length < maxOperandNameLength) {dest opA opB : Operand}
    (hd : parseOperand x.dest.text instr.dest = .ok dest)
    (ha : parseOperand x.opA.text instr.opA = .ok opA)
    (hb : parseOperand x.opB.text instr.opB = .ok opB) :
    parseInstruction x.text i instr = .ok { instr with
      pc := i
      name := (typeName x.type).take (maxTypeNameLength - 1)
      type := x.type
      dest
      opA
      opB
      function := instructionFunctions x.type } := by
  obtain ⟨hname, htype⟩ := typeName_field hx.typed.1
  have hscan := scan_fields hname (text_field (length_regText hx.fit.dest))
    (text_field (length_regText hx.fit.opA)) (text_field hlen)
  rw [parseInstruction, Instruction.text, hscan]
  simp only [htype, hd, ha, hb]
  rfl

theorem parsesBack_iff (hx : x.WellFormed) (hlen : x.opB.text.length < maxOperandNameLength) :
    ParsesBack i x ↔ (x.type = .addi → -2 ^ 31 ≤ x.opB.immInt ∧ x.opB.immInt < 2 ^ 31) := by
  by_cases ht : x.type = .addi
  · have himm : x.opB.type = .imm := by
      have := hx.fit.opB
      rwa [if_pos ht] at this
    have htext : x.opB.text = intText x.opB.immInt := by rw [Operand.text, himm]
    have hback := atoiReg_immText (o := x.opB) (by
      rw [← htext]
      simp only [maxOperandNameLength] at hlen
      omega)
    rw [← hback]
    constructor
    · intro h _
      obtain ⟨y, hy, hfrom, -⟩ := h default
      obtain ⟨d, hd, -⟩ := parseOperand_reg_from hx.fit.dest (default : Instruction).dest
      obtain ⟨a, ha, -⟩ := parseOperand_reg_from hx.fit.opA (default : Instruction).opA
      rw [parseInstruction_text hx hlen hd ha (parseOperand_immText himm), Except.ok.injEq] at hy
      have := hfrom.opB.imm_eq himm
      rw [← hy, Operand.imm_setImm] at this
      exact this
    · intro h instr
      obtain ⟨d, hd, hdf⟩ := parseOperand_reg_from hx.fit.dest instr.dest
      obtain ⟨a, ha, haf⟩ := parseOperand_reg_from hx.fit.opA instr.opA
      refine ⟨_, parseInstruction_text hx hlen hd ha (parseOperand_immText himm),
        ⟨rfl, hdf.logId_eq hx.fit.dest.1, haf, himm.symm, fun hr => ?_, fun _ => ?_⟩, hdf, rfl, rfl⟩
      · rw [himm] at hr
        cases hr
      · rw [Operand.imm_setImm]
        exact h ht
  · refine iff_of_true (fun instr => ?_) fun h => absurd h ht
    have hreg : x.opB.IsReg := by
      have := hx.fit.opB
      rwa [if_neg ht] at this
    obtain ⟨d, hd, hdf⟩ := parseOperand_reg_from hx.fit.dest instr.dest
    obtain ⟨a, ha, haf⟩ := parseOperand_reg_from hx.fit.opA instr.opA
    obtain ⟨b, hb, hbf⟩ := parseOperand_reg_from hreg instr.opB
    exact ⟨_, parseInstruction_text hx hlen hd ha hb,
      ⟨rfl, hdf.logId_eq hx.fit.dest.1, haf, hbf⟩, hdf, rfl, rfl⟩

end

/-- **Exactly when parsing undoes printing**, for every list of well-formed instructions whose
    immediates fit the buffer: the immediates are in the range of `int`. -/
theorem parse_print_iff {l : List Instruction} (hl : ∀ x ∈ l, x.WellFormed)
    (hfit : ∀ x ∈ l, x.type = .addi → x.opB.text.length < maxOperandNameLength) :
    (∀ i x, l[i]? = some x → ParsesBack i x) ↔
      ∀ x ∈ l, x.type = .addi → -2 ^ 31 ≤ x.opB.immInt ∧ x.opB.immInt < 2 ^ 31 := by
  have hlen : ∀ x ∈ l, x.opB.text.length < maxOperandNameLength := by
    intro x hx
    by_cases ht : x.type = .addi
    · exact hfit x hx ht
    · have := (hl x hx).fit.opB
      rw [if_neg ht] at this
      exact length_regText this
  constructor
  · intro h x hx
    obtain ⟨i, hi⟩ := List.mem_iff_getElem?.1 hx
    exact (parsesBack_iff (hl x hx) (hlen x hx)).1 (h i x hi)
  · intro h i x hi
    have hx := List.mem_of_getElem? hi
    exact (parsesBack_iff (hl x hx) (hlen x hx)).2 (h x hx)

/-- `addi x1, x2, v` -/
def addiInstruction (v : UInt64) : Instruction :=
  ⟨.addi, ['a', 'd', 'd', 'i'], regOperand 1, regOperand 2, immOperand v, .addiFunc, false, 0⟩

theorem parse_print_iff_small :
    (∀ i x, [addiInstruction 50, addiInstruction (-7)][i]? = some x → ParsesBack i x) ↔
      ∀ x ∈ [addiInstruction 50, addiInstruction (-7)], x.type = .addi →
        -2 ^ 31 ≤ x.opB.immInt ∧ x.opB.immInt < 2 ^ 31 :=
  parse_print_iff (by decide) (by decide)

/-- The immediate `2147483648` is read as `-2147483648`. -/
theorem parse_print_fails : (addiInstruction 2147483648).WellFormed ∧
    (addiInstruction 2147483648).opB.text.length < maxOperandNameLength ∧
    (addiInstruction 2147483648).opB.immInt = 2147483648 ∧
    ((parseInstruction (addiInstruction 2147483648).text 0 default).toOption.map
      fun y => y.opB.immInt) = some (-2147483648) ∧
    ¬ ∀ i x, [addiInstruction 2147483648][i]? = some x → ParsesBack i x := by
  have hwf : (addiInstruction 2147483648).WellFormed := by decide
  have hlen : (addiInstruction 2147483648).opB.text.length < maxOperandNameLength := by decide
  have himm : (addiInstruction 2147483648).opB.immInt = 2147483648 := by decide
  refine ⟨hwf, hlen, himm, by decide +kernel, fun h => ?_⟩
  have hrange := (parsesBack_iff hwf hlen).1 (h 0 _ rfl) rfl
  rw [himm] at hrange
  exact absurd hrange.2 (by decide)

end R10000
