/-
  The texts of operands and instructions: the grammar of operands, and the printer that the
  parser is to undo.
-/
import R10000.Parser
import R10000.Normal

namespace R10000

open Scan

/-! ## The grammar of operands -/

/-- A non-empty string of decimal digits. -/
def IsNumeral (s : List Char) : Prop := s ≠ [] ∧ ∀ c ∈ s, c.isDigit = true

/-- An operand is a register, `x` and the numeral of its id, or an immediate, a numeral that
    may have a sign. -/
inductive OperandGrammar : List Char → Prop
  | register {s} (h : IsNumeral s) (hlt : digits s < regLogFileSize) : OperandGrammar ('x' :: s)
  | immediate {s} (h : IsNumeral s) : OperandGrammar s
  | signed {sign s} (hsign : sign = '+' ∨ sign = '-') (h : IsNumeral s) :
      OperandGrammar (sign :: s)

/-! ## The printer -/

/-- The name of a type in `type_names`. -/
def typeName (type : InstructionType) : List Char :=
  ((namedTypes.zip typeNames).lookup type).getD []

/-- The immediate of an operand, which is an `int64_t`. -/
def Operand.immInt (o : Operand) : ℤ := o.imm.toInt64.toInt

/-- `xN`, or the immediate in decimal. -/
def Operand.text (o : Operand) : List Char :=
  match o.type with
  | .reg => 'x' :: intText o.logId.toNat
  | .imm => intText o.immInt

/-- `op xD, xA, xB` or `op xD, xA, imm` -/
def Instruction.text (x : Instruction) : List Char :=
  typeName x.type ++ ' ' :: (x.dest.text ++ ',' :: ' ' :: (x.opA.text ++ ',' :: ' ' :: x.opB.text))

/-! ## Reading a number -/

theorem toInt_atoiReg (s : List Char) : (atoiReg s).toInt64.toInt = (strtol s).bmod (2 ^ 32) := by
  have h : (atoi s).toInt = (strtol s).bmod (2 ^ 32) := Int32.toInt_ofInt
  rw [atoiReg, Int64.toInt64_toUInt64, Int32.toInt_toInt64, h]

/-- A `reg_t` read as an `int64_t`, and back. -/
theorem toNat_eq_emod (x : UInt64) : (x.toNat : ℤ) = x.toInt64.toInt % 2 ^ 64 := by
  have h : x.toInt64.toInt = (x.toNat : ℤ).bmod (2 ^ 64) := BitVec.toInt_eq_toNat_bmod x.toBitVec
  have hlt := x.toNat_lt
  rw [h, Int.bmod_def]
  omega

theorem toInt64_inj {x y : UInt64} : x.toInt64.toInt = y.toInt64.toInt ↔ x = y := by
  refine ⟨fun h => UInt64.toNat_inj.1 ?_, fun h => by rw [h]⟩
  have hx := toNat_eq_emod x
  have hy := toNat_eq_emod y
  rw [h] at hx
  exact Int.ofNat_inj.1 (hx.trans hy.symm)

section
variable {s : List Char} (hlen : s.length ≤ 18)
include hlen

/-- The text is read as a register id below 32 if its number is one, up to a multiple of
    `2 ^ 32`. -/
theorem atoiReg_lt_iff : (atoiReg s).toNat < 32 ↔ leadingInt s % 2 ^ 32 < 32 := by
  have h := toNat_eq_emod (atoiReg s)
  rw [toInt_atoiReg, strtol_eq hlen, Int.bmod_def] at h
  omega

/-- An `int` is read as what it is. -/
theorem toInt_atoiReg_eq_iff : (atoiReg s).toInt64.toInt = leadingInt s ↔
    -2 ^ 31 ≤ leadingInt s ∧ leadingInt s < 2 ^ 31 := by
  rw [toInt_atoiReg, strtol_eq hlen, Int.bmod_def]
  omega

end

/-! ## Reading an operand -/

section
variable {t : List Char} {op o : Operand}

/-- What `parse_operand` accepts. -/
theorem parseOperand_ok_iff (hlen : t.length ≤ 18) : (∃ o, parseOperand t op = .ok o) ↔
    (t.head? = some 'x' → leadingInt t.tail % 2 ^ 32 < 32) := by
  have htail : t.tail.length ≤ 18 := by rw [List.length_tail]; omega
  have hlt := atoiReg_lt_iff htail
  unfold parseOperand
  by_cases hx : t.head? = some 'x'
  · simp only [hx, ne_eq, not_true_eq_false, if_false, forall_const, regLogFileSize]
    rw [← hlt]
    split_ifs with hres
    · simp only [exists_const, false_iff]
      omega
    · simp only [Except.ok.injEq, exists_eq', true_iff]
      omega
  · simp [hx]

theorem parseOperand_error {f : Fault} (h : parseOperand t op = .error f) :
    f = .err .invalidLogReg := by
  unfold parseOperand at h
  split_ifs at h
  · simp only at h
    split_ifs at h
    cases h
    rfl

theorem parseOperand_cons (s : List Char) : parseOperand ('x' :: s) op =
    if (atoiReg s).toNat ≥ regLogFileSize then .error (.err .invalidLogReg)
    else .ok { op with type := .reg, logId := (atoiReg s).toUInt8, phyId := 0, value := 0 } :=
  if_neg (by simp)

theorem parseOperand_regText (ho : o.IsReg) : parseOperand o.text op =
    .ok { op with type := .reg, logId := o.logId, phyId := 0, value := 0 } := by
  have hlt : o.logId.toNat < 32 := ho.2
  have hlen : (intText o.logId.toNat).length ≤ 18 := (length_intText (by decide)).2 (by omega)
  have hread := leadingInt_intText o.logId.toNat
  have hint : (atoiReg (intText o.logId.toNat)).toInt64.toInt = o.logId.toNat := by
    rw [(toInt_atoiReg_eq_iff hlen).2 (by omega), hread]
  have hnat : (atoiReg (intText o.logId.toNat)).toNat = o.logId.toNat := by
    have h := toNat_eq_emod (atoiReg (intText o.logId.toNat))
    omega
  have hid : (atoiReg (intText o.logId.toNat)).toUInt8 = o.logId := by
    rw [← UInt8.toNat_inj, UInt64.toNat_toUInt8, hnat]
    omega
  have htext : o.text = 'x' :: intText o.logId.toNat := by rw [Operand.text, ho.1]
  have hres : ¬ (atoiReg (intText o.logId.toNat)).toNat ≥ regLogFileSize := by
    simp only [regLogFileSize]
    omega
  rw [htext, parseOperand_cons, if_neg hres, hid]

theorem immText_head (ho : o.type = .imm) : o.text.head? ≠ some 'x' := by
  intro h
  rw [Operand.text, ho] at h
  rcases mem_intText (List.mem_of_head? h) with h | h <;> cases h

theorem parseOperand_immText (ho : o.type = .imm) : parseOperand o.text op =
    .ok ({ op with type := .imm }.setImm (atoiReg (intText o.immInt))) := by
  rw [parseOperand, if_pos (immText_head ho), Operand.text, ho]

/-- An immediate that is an `int` is read back. -/
theorem atoiReg_immText (hlen : (intText o.immInt).length ≤ 18) :
    atoiReg (intText o.immInt) = o.imm ↔ -2 ^ 31 ≤ o.immInt ∧ o.immInt < 2 ^ 31 := by
  have h := toInt_atoiReg_eq_iff hlen
  rw [leadingInt_intText] at h
  rw [← toInt64_inj]
  exact h

end

/-! ## Reading the fields -/

/-- A text that `sscanf` reads as a field: it fits its buffer, and no character in it ends
    it. -/
structure IsField (t : List Char) (size : ℕ) : Prop where
  ne_nil : t ≠ []
  length_lt : t.length < size
  not_space : ∀ c ∈ t, isSpace c = false
  not_comma : ',' ∉ t

theorem IsField.head {t : List Char} {size : ℕ} (h : IsField t size) (rest : List Char) :
    ∀ c ∈ (t ++ rest).head?, isSpace c = false := by
  obtain ⟨c, t, rfl⟩ := List.exists_cons_of_ne_nil h.ne_nil
  intro d hd
  rw [List.cons_append, List.head?_cons, Option.mem_def, Option.some.injEq] at hd
  exact hd ▸ h.not_space c List.mem_cons_self

/-- **The format takes the fields apart.** -/
theorem scan_fields {name dest opA opB : List Char} (hn : IsField name maxTypeNameLength)
    (hd : IsField dest maxOperandNameLength) (ha : IsField opA maxOperandNameLength)
    (hb : IsField opB maxOperandNameLength) :
    scan instructionFormat
      (name ++ ' ' :: (dest ++ ',' :: ' ' :: (opA ++ ',' :: ' ' :: opB))) =
      some [name, dest, opA, opB] := by
  have hspace : isSpace ' ' = true := by decide
  have hlast : scan [.string maxOperandNameLength] opB = some [opB] := by
    have h : scan [.string maxOperandNameLength] (opB ++ []) = (scan [] []).map (opB :: ·) :=
      scan_string hb.ne_nil hb.not_space hb.length_lt (by simp)
    rw [List.append_nil] at h
    rw [h]
    rfl
  unfold instructionFormat
  rw [scan_string hn.ne_nil hn.not_space hn.length_lt (by simp [hspace]), scan_space (hd.head _),
    scan_until hd.ne_nil hd.not_comma hd.length_lt, scan_literal, scan_space (ha.head _),
    scan_until ha.ne_nil ha.not_comma ha.length_lt, scan_literal,
    scan_space (by have := hb.head []; rwa [List.append_nil] at this), hlast]
  rfl

theorem typeName_field {type : InstructionType} (h : type ≠ .unknownType) :
    IsField (typeName type) maxTypeNameLength ∧ getInstructionType (typeName type) = .ok type := by
  have hspace : ((typeName type).all fun c => !isSpace c) = true := by
    cases type <;> rfl
  have hspace' : ∀ c ∈ typeName type, isSpace c = false := by simpa using hspace
  cases type with
  | unknownType => exact absurd rfl h
  | _ => exact ⟨⟨by decide, by decide, hspace', by decide⟩, by decide⟩

/-- The characters of an operand. -/
theorem mem_text {o : Operand} {c : Char} (h : c ∈ o.text) :
    c = 'x' ∨ c = '-' ∨ c.isDigit = true := by
  rw [Operand.text] at h
  split at h
  · rcases List.mem_cons.1 h with rfl | h
    · exact .inl rfl
    · exact .inr (mem_intText h)
  · exact .inr (mem_intText h)

theorem text_field {o : Operand} (hlen : o.text.length < maxOperandNameLength) :
    IsField o.text maxOperandNameLength where
  ne_nil := by
    rw [Operand.text]
    split
    · exact List.cons_ne_nil _ _
    · exact intText_ne_nil _
  length_lt := hlen
  not_space := by
    intro c hc
    rcases mem_text hc with rfl | rfl | hd
    · decide
    · decide
    · exact not_isSpace hd
  not_comma := by
    intro hc
    rcases mem_text hc with h | h | h <;> cases h

/-- The text of a register fits its buffer. -/
theorem length_regText {o : Operand} (ho : o.IsReg) : o.text.length < maxOperandNameLength := by
  have hlt : o.logId.toNat < 32 := ho.2
  have hlen : (intText o.logId.toNat).length ≤ 2 := (length_intText (by decide)).2 (by omega)
  rw [Operand.text, ho.1]
  simp only [List.length_cons, maxOperandNameLength]
  omega

end R10000
