/-
  What a program means: the sequential execution of its instructions and, for
  instructions executed ahead of a fault, the flow of values along register dependencies.
-/
import R10000.Program
import Mathlib.Logic.Function.Basic
import Mathlib.Tactic.SplitIfs

namespace R10000

/-- The result of an instruction type on two values, none if it divides by zero. -/
def alu : InstructionType → UInt64 → UInt64 → Option UInt64
  | .add, a, b => some (a + b)
  | .addi, a, b => some (a + b)
  | .sub, a, b => some (a - b)
  | .mulu, a, b => some (a * b)
  | .divu, a, b => if b = 0 then none else some (a / b)
  | .remu, a, b => if b = 0 then none else some (a % b)
  | .unknownType, _, _ => none

/-! ## Sequential execution -/

/-- The values of the logical registers. -/
abbrev Regs := UInt8 → UInt64

/-- The value of the second operand. -/
def Instruction.secondValue (x : Instruction) (R : Regs) : UInt64 :=
  match x.opB.type with
  | .imm => x.opB.imm
  | .reg => R x.opB.logId

/-- Execute one instruction, unless it divides by zero. -/
def Instruction.exec (R : Regs) (x : Instruction) : Option Regs :=
  (alu x.type (R x.opA.logId) (x.secondValue R)).map fun v => Function.update R x.dest.logId v

/-- The registers after the first `k` instructions, one by one from zeros, unless one of them
    divides by zero. -/
def Program.exec (P : Program) (k : ℕ) : Option Regs :=
  (P.instructions.take k).foldlM Instruction.exec fun _ => 0

/-- The instruction divides by zero. -/
def Instruction.DividesByZero (x : Instruction) (R : Regs) : Prop :=
  (x.type = .divu ∨ x.type = .remu) ∧ x.secondValue R = 0

/-- Sequential execution reaches instruction `k`, which divides by zero. -/
def Program.FaultsAt (P : Program) (k : ℕ) : Prop :=
  ∃ R x, P.exec k = some R ∧ P.instructions[k]? = some x ∧ x.DividesByZero R

theorem alu_eq_none {t : InstructionType} (ht : t ≠ .unknownType) {a b : UInt64} :
    alu t a b = none ↔ (t = .divu ∨ t = .remu) ∧ b = 0 := by
  cases t with
  | unknownType => exact absurd rfl ht
  | divu | remu => by_cases hb : b = 0 <;> simp [alu, hb]
  | add | addi | sub | mulu => simp [alu]

theorem Instruction.exec_eq_none {x : Instruction} (ht : x.type ≠ .unknownType) {R : Regs} :
    Instruction.exec R x = none ↔ x.DividesByZero R := by
  rw [exec, Option.map_eq_none_iff, alu_eq_none ht, DividesByZero]

namespace Program

variable {P : Program}

@[simp] theorem exec_zero : P.exec 0 = some fun _ => 0 := rfl

theorem exec_succ {k : ℕ} {x : Instruction} (hx : P.instructions[k]? = some x) :
    P.exec (k + 1) = (P.exec k).bind fun R => Instruction.exec R x := by
  rw [exec, exec, List.take_add_one, hx, List.foldlM_append]
  cases h : List.foldlM Instruction.exec (fun _ => 0) (P.instructions.take k) with
  | none => rfl
  | some R => simp

theorem exec_of_le {n : ℕ} {R : Regs} (h : P.exec n = some R) :
    ∀ k ≤ n, ∃ R', P.exec k = some R' := by
  induction n generalizing R with
  | zero => exact fun k hk => ⟨R, by rw [Nat.le_zero.1 hk]; exact h⟩
  | succ n ih =>
    intro k hk
    rcases Nat.lt_or_eq_of_le hk with hk | rfl
    · cases hx : P.instructions[n]? with
      | none =>
        have hlen : P.instructions.length ≤ n := by simpa using hx
        rw [exec, List.take_of_length_le (by omega), ← List.take_of_length_le hlen] at h
        exact ih h k (Nat.le_of_lt_succ hk)
      | some x =>
        rw [exec_succ hx, Option.bind_eq_some_iff] at h
        obtain ⟨R', h1, -⟩ := h
        exact ih h1 k (Nat.le_of_lt_succ hk)
    · exact ⟨R, h⟩

/-- Nothing is executed past a fault. -/
theorem FaultsAt.le {k n : ℕ} (hP : P.WellFormed) (h : P.FaultsAt k) {R : Regs}
    (hn : P.exec n = some R) : n ≤ k := by
  obtain ⟨R', x, h1, h2, h3⟩ := h
  by_contra hlt
  obtain ⟨R'', h4⟩ := exec_of_le hn (k + 1) (by omega)
  rw [exec_succ h2, h1, Option.bind_some,
    (Instruction.exec_eq_none (hP k x h2).1.typed.1).2 h3] at h4
  cases h4

/-- A program has at most one fault. -/
theorem FaultsAt.unique {k k' : ℕ} (hP : P.WellFormed) (h : P.FaultsAt k)
    (h' : P.FaultsAt k') : k = k' := by
  obtain ⟨R, x, h1, -⟩ := id h
  obtain ⟨R', x', h1', -⟩ := id h'
  exact Nat.le_antisymm (h'.le hP h1) (h.le hP h1')

/-! ## The flow of values -/

/-- The value that an instruction produces from registers that may have none. -/
def result (F : UInt8 → Option UInt64) (x : Instruction) : Option UInt64 := do
  let a ← F x.opA.logId
  let b ← match x.opB.type with
    | .imm => some x.opB.imm
    | .reg => F x.opB.logId
  alu x.type a b

/-- The value of the second operand, if there is one. -/
def secondFlow (F : UInt8 → Option UInt64) (x : Instruction) : Option UInt64 :=
  match x.opB.type with
  | .imm => some x.opB.imm
  | .reg => F x.opB.logId

theorem result_of_values {F : UInt8 → Option UInt64} {x : Instruction} {a b : UInt64}
    (ha : F x.opA.logId = some a) (hb : secondFlow F x = some b) :
    result F x = alu x.type a b := by
  unfold secondFlow at hb
  unfold result
  rw [ha]
  cases ht : x.opB.type with
  | imm =>
    rw [ht] at hb
    cases hb
    rfl
  | reg =>
    simp only [ht] at hb ⊢
    rw [hb]
    rfl

/-- The value of a register before instruction `j`: the one that the last older writer
    produces, 0 if there is none; a writer produces none if it divides by zero or if a
    register that it reads has none. -/
def flow (P : Program) : ℕ → UInt8 → Option UInt64
  | 0, _ => some 0
  | j + 1, r => match P.instructions[j]? with
    | none => flow P j r
    | some x => if r = x.dest.logId then result (flow P j) x else flow P j r

/-- The value that instruction `j` produces. -/
def produced (P : Program) (j : ℕ) : Option UInt64 :=
  (P.instructions[j]?).bind (result (P.flow j))

theorem flow_succ {j : ℕ} {x : Instruction} (hx : P.instructions[j]? = some x) (r : UInt8) :
    P.flow (j + 1) r = if r = x.dest.logId then P.produced j else P.flow j r := by
  rw [flow, hx, produced, hx]
  rfl

/-- On registers that all have values, the flow is the sequential execution. -/
theorem result_eq {F : UInt8 → Option UInt64} {R : Regs} (h : ∀ r, F r = some (R r))
    (x : Instruction) : result F x = alu x.type (R x.opA.logId) (x.secondValue R) := by
  unfold result Instruction.secondValue
  cases ht : x.opB.type with
  | imm => simp [h]
  | reg => simp [h]

theorem flow_of_exec : ∀ {k : ℕ} {R : Regs}, P.exec k = some R → ∀ r, P.flow k r = some (R r)
  | 0, R, h, r => by
    rw [exec_zero, Option.some.injEq] at h
    rw [← h, flow]
  | k + 1, R, h, r => by
    cases hx : P.instructions[k]? with
    | none =>
      have hlen : P.instructions.length ≤ k := by simpa using hx
      rw [exec, List.take_of_length_le (by omega), ← List.take_of_length_le hlen] at h
      rw [flow, hx]
      exact flow_of_exec h r
    | some x =>
      rw [exec_succ hx, Option.bind_eq_some_iff] at h
      obtain ⟨R', h1, h2⟩ := h
      have ih := flow_of_exec h1
      rw [Instruction.exec, Option.map_eq_some_iff] at h2
      obtain ⟨v, h3, rfl⟩ := h2
      rw [flow_succ hx, produced, hx, Option.bind_some, result_eq ih, h3, ih r,
        Function.update_apply]
      split_ifs <;> rfl

/-- After a sequential execution the next instruction produces what it executes to. -/
theorem produced_of_exec {k : ℕ} {R : Regs} (h : P.exec k = some R) {x : Instruction}
    (hx : P.instructions[k]? = some x) :
    P.produced k = alu x.type (R x.opA.logId) (x.secondValue R) := by
  rw [produced, hx, Option.bind_some, result_eq (flow_of_exec h)]

end Program

end R10000
