/-
  Signed arithmetic in the ALUs: exactly when every addition and subtraction that a run
  executes is defined in C, read off the operands in the ALUs and read off the program.
-/
import R10000.Lib.SignedOverflow
import R10000.Pace
import R10000.Results.Timing

namespace R10000

open Fallible SignedOverflow

/-! ## What the ALUs execute -/

/-- The state in which a cycle calls `alu_cycle` on the ALU `i`. -/
def atAlu (p : Processor) (i : Fin numAlus) : Processor :=
  endState ((do
    commitCycle
    forM ((List.finRange numAlus).take i) aluCycle : ProcM Unit) p)

/-- A cycle from `p` executes `x` in one of the ALUs. -/
def Executes (p : Processor) (x : Instruction) : Prop :=
  ∃ i : Fin numAlus, ((atAlu p i).alus.get i).forwardingPath = x ∧ x.type ≠ .unknownType

/-- A `reg_t` as an `int64_t`. -/
def sreg (v : UInt64) : ℤ := v.toInt64.toInt

/-- The mathematical result of the signed operation of a function, if it has one. -/
def InstructionFunc.signedResult : InstructionFunc → Operand → Operand → Option ℤ
  | .addFunc, a, b => some (sreg a.value + sreg b.value)
  | .addiFunc, a, b => some (sreg a.value + sreg b.imm)
  | .subFunc, a, b => some (sreg a.value - sreg b.value)
  | _, _, _ => none

/-- The signed operation of an instruction, if it has one, does not overflow. -/
def Defined (x : Instruction) : Prop :=
  ∀ v, x.function.signedResult x.opA x.opB = some v → InRange 63 v

/-- Every instruction executed in the first `n` cycles is defined. -/
def NoOverflow (ready : Bool) (P : Program) (uninit : ℕ → ℕ → UInt8) (n : ℕ) : Prop :=
  ∀ k < n, ∃ p, runFrom ready P uninit k = some p ∧ ∀ x, Executes p x → Defined x

/-! ## The tests on the operands -/

/-- The operands of a type do not make it overflow. -/
def OperandsOk : InstructionType → UInt64 → UInt64 → Prop
  | .add, a, b => AddOk 63 (sreg a) (sreg b)
  | .addi, a, b => AddOk 63 (sreg a) (sreg b)
  | .sub, a, b => SubOk 63 (sreg a) (sreg b)
  | _, _, _ => True

/-- The values that the program gives to the operands of instruction `j` do not make it
    overflow. -/
def Program.OperandsOk (P : Program) (j : ℕ) : Prop :=
  ∀ x a b, P.instructions[j]? = some x → P.flow j x.opA.logId = some a →
    secondFlow (P.flow j) x = some b → R10000.OperandsOk x.type a b

/-- The operands in the last stage of the ALUs do not make their instructions overflow, or the
    cycle raises an exception, which flushes the ALUs. -/
def AlusOk (p : Processor) : Prop :=
  (∃ c e, RaisesAt p c e) ∨ ∀ i : Fin numAlus,
    (p.alus.get i).forwardingPath.type ≠ .unknownType →
    OperandsOk (p.alus.get i).forwardingPath.type (p.alus.get i).forwardingPath.opA.value
      (p.alus.get i).forwardingPath.captured

/-- Instruction `j` is executed in the first `n` cycles. -/
def ExecutedPc (ready : Bool) (P : Program) (uninit : ℕ → ℕ → UInt8) (n j : ℕ) : Prop :=
  ∃ k < n, ∃ p x, runFrom ready P uninit k = some p ∧ Executes p x ∧ x.pc = j

theorem inRange_sreg (v : UInt64) : InRange 63 (sreg v) :=
  ⟨Int64.le_toInt v.toInt64, Int64.toInt_lt v.toInt64⟩

/-- The test on the operands tells whether the operation is defined. -/
theorem defined_iff {x : Instruction} (h : x.InFlight) :
    Defined x ↔ OperandsOk x.type x.opA.value x.captured := by
  obtain ⟨ht, hf⟩ := h.typed
  have hb := h.fit.opB
  have ha := inRange_sreg x.opA.value
  rw [Defined, hf]
  cases htype : x.type with
  | unknownType => exact absurd htype ht
  | add | sub =>
    simp only [htype, reduceCtorEq, if_false] at hb
    simp only [instructionFunctions, InstructionFunc.signedResult, Option.some.injEq, forall_eq',
      OperandsOk, Instruction.captured, hb.1, addOk_iff ha, subOk_iff ha]
  | addi =>
    simp only [htype, if_true] at hb
    simp only [instructionFunctions, InstructionFunc.signedResult, Option.some.injEq, forall_eq',
      OperandsOk, Instruction.captured, hb, addOk_iff ha]
  | mulu | divu | remu =>
    simp [instructionFunctions, InstructionFunc.signedResult, OperandsOk]

theorem sreg_add {u v : UInt64} (h : InRange 63 (sreg u + sreg v)) :
    sreg (u + v) = sreg u + sreg v := by
  have hadd : sreg (u + v) = (sreg u + sreg v).bmod (2 ^ 64) := Int64.toInt_add u.toInt64 v.toInt64
  rw [hadd]
  exact Int.bmod_eq_of_le h.1 h.2

theorem sreg_sub {u v : UInt64} (h : InRange 63 (sreg u - sreg v)) :
    sreg (u - v) = sreg u - sreg v := by
  have hsub : sreg (u - v) = (sreg u - sreg v).bmod (2 ^ 64) := Int64.toInt_sub u.toInt64 v.toInt64
  rw [hsub]
  exact Int.bmod_eq_of_le h.1 h.2

/-- An operation that is defined computes its mathematical result. -/
theorem Defined.result {x : Instruction} (h : x.InFlight) (hd : Defined x) {s : ℤ}
    (hs : x.function.signedResult x.opA x.opB = some s) {v : UInt64}
    (hv : alu x.type x.opA.value x.captured = some v) : sreg v = s := by
  have hr := hd s hs
  obtain ⟨ht, hf⟩ := h.typed
  have hb := h.fit.opB
  rw [hf] at hs
  cases htype : x.type with
  | unknownType => exact absurd htype ht
  | add =>
    simp only [htype, reduceCtorEq, if_false] at hb
    simp only [htype, instructionFunctions, InstructionFunc.signedResult, Option.some.injEq] at hs
    simp only [htype, alu, Instruction.captured, hb.1, Option.some.injEq] at hv
    subst hs hv
    exact sreg_add hr
  | sub =>
    simp only [htype, reduceCtorEq, if_false] at hb
    simp only [htype, instructionFunctions, InstructionFunc.signedResult, Option.some.injEq] at hs
    simp only [htype, alu, Instruction.captured, hb.1, Option.some.injEq] at hv
    subst hs hv
    exact sreg_sub hr
  | addi =>
    simp only [htype, if_true] at hb
    simp only [htype, instructionFunctions, InstructionFunc.signedResult, Option.some.injEq] at hs
    simp only [htype, alu, Instruction.captured, hb, Option.some.injEq] at hv
    subst hs hv
    exact sreg_add hr
  | mulu | divu | remu =>
    rw [htype] at hs
    cases hs

/-! ## The ALUs in a cycle -/

theorem mem_stage1 {p : Processor} {x : Instruction} : x ∈ (view p).stage1 ↔
    ∃ i : Fin numAlus, (p.alus.get i).forwardingPath = x ∧ x.type ≠ .unknownType := by
  simp only [view, inStage, List.mem_filter, List.mem_map, decide_eq_true_eq,
    Vector.mem_toList_iff]
  constructor
  · rintro ⟨⟨a, ha, rfl⟩, hx⟩
    obtain ⟨i, hi, rfl⟩ := Vector.getElem_of_mem ha
    exact ⟨⟨i, hi⟩, rfl, hx⟩
  · rintro ⟨i, rfl, hx⟩
    exact ⟨⟨_, Vector.getElem_mem i.isLt, rfl⟩, hx⟩

/-- An exception flushes the ALUs; otherwise commit leaves them alone. -/
theorem stage1_commitStage (p : Processor) :
    (∃ c e, RaisesAt p c e) ∧ (view p).commitStage.stage1 = [] ∨
      (¬ ∃ c e, RaisesAt p c e) ∧ (view p).commitStage.stage1 = (view p).stage1 := by
  cases hm : p.exceptionMode with
  | true =>
    have hm' : (view p).exceptionMode = true := hm
    obtain ⟨e, b, hend⟩ := endException_frame (view p)
    obtain ⟨al, lo, f, bb, hrec⟩ := recover_frame instructionsPerCycle (view p).endException
    refine .inr ⟨?_, by rw [Machine.commitStage, if_pos hm', hrec, hend]⟩
    rintro ⟨c, e, hr⟩
    rw [hr.1] at hm
    cases hm
  | false =>
    have hm' : ¬ (view p).exceptionMode = true := by simp [view, hm]
    rw [Machine.commitStage, if_neg hm']
    obtain ⟨c, -, -, hc, ⟨hq, hstop⟩ | ⟨hc4, e, he, hd, hexc, hq⟩⟩ :=
      commit_cases instructionsPerCycle (view p)
    · right
      rw [hq]
      refine ⟨?_, rfl⟩
      rintro ⟨c', e', hr⟩
      exact not_raisesAt hc hstop c' e' hr
    · left
      rw [hq]
      exact ⟨⟨c, e, hm, hc4, hc, he, hd, hexc⟩, rfl⟩

section
variable {p : Processor} (hs : Safe (view p))
include hs

theorem atAlu_get (i : Fin numAlus) :
    (atAlu p i).alus.get i = (endState (commitCycle p)).alus.get i := by
  obtain ⟨q, hq, hview⟩ := commitCycle_sim hs
  obtain ⟨q', hq', heq⟩ := aluCycles_sim (stageOk_of_safe (p := q) (hview ▸ hs.commitStage))
    ((List.finRange numAlus).take i)
  have hat : atAlu p i = q' := by
    rw [atAlu, bind_ok hq, hq']
    rfl
  have hend : endState (commitCycle p) = q := by rw [hq]; rfl
  rw [hat, hend]
  have heq' : q' = { q with alus := ((List.finRange numAlus).take i).foldl stepAlu q.alus } := heq
  rw [heq']
  obtain ⟨a, b, c, d, halus⟩ := exists_alus q.alus
  simp only [halus, finRange_numAlus]
  exact match i with
    | 0 => rfl
    | 1 => rfl
    | 2 => rfl
    | 3 => rfl

theorem executes_iff {x : Instruction} : Executes p x ↔ x ∈ (view p).commitStage.stage1 := by
  rw [← view_commitCycle hs]
  simp only [Executes, atAlu_get hs, mem_stage1]

theorem alusOk_iff : (∀ x, Executes p x → Defined x) ↔ AlusOk p := by
  simp only [executes_iff hs, AlusOk]
  rcases stage1_commitStage p with ⟨hr, hst⟩ | ⟨hr, hst⟩
  · rw [hst]
    exact iff_of_true (fun x hx => by cases hx) (.inl hr)
  · rw [hst]
    have hdef : ∀ x ∈ (view p).stage1,
        (Defined x ↔ OperandsOk x.type x.opA.value x.captured) :=
      fun x hx => defined_iff (hs.stage1_ok x hx)
    constructor
    · intro h
      right
      intro i hi
      have hx : (p.alus.get i).forwardingPath ∈ (view p).stage1 := mem_stage1.2 ⟨i, rfl, hi⟩
      exact (hdef _ hx).1 (h _ hx)
    · rintro (h | h) x hx
      · exact absurd h hr
      · obtain ⟨i, rfl, hi⟩ := mem_stage1.1 hx
        exact (hdef _ hx).2 (h i hi)

end

/-! ## Runs -/

/-- The operands of an executed instruction have the values that the program gives them. -/
theorem Correct.executed {k : ℕ} {m : Machine} (hc : Correct k m) (hshort : m.program.Short)
    {x : Instruction} (hx : x ∈ m.commitStage.stage1) :
    ∃ y, m.program.instructions[x.pc]? = some y ∧ y.type = x.type ∧
      m.program.flow x.pc y.opA.logId = some x.opA.value ∧
      Program.secondFlow (m.program.flow x.pc) y = some x.captured := by
  have hs := hc.safe.commitStage
  cases hm : m.exceptionMode with
  | true =>
    have hr := (hc.raised hshort hm).commitStage hc.safe
    rw [hr.stage1] at hx
    cases hx
  | false =>
    have hn := hc.normal hm
    obtain ⟨hv, hi⟩ := hc.val hm
    obtain ⟨c, -, hlen, hd, hret, ⟨heq, -⟩ | ⟨-, e, -, -, -, -, hr⟩⟩ := hn.commitStage
    · obtain ⟨hv', hi'⟩ := Val.retireN c hlen hd hn hv hi
      have hfl := hs.stage1_ok x hx
      rw [heq] at hs hx
      exact operands_flow hs hret hv' hi' (List.mem_append_right _ hx) hfl
    · rw [hr.stage1] at hx
      cases hx

theorem Correct.defined_iff {k : ℕ} {m : Machine} (hc : Correct k m) (hshort : m.program.Short)
    {x : Instruction} (hx : x ∈ m.commitStage.stage1) :
    Defined x ↔ m.program.OperandsOk x.pc := by
  obtain ⟨y, hy, ht, ha, hb⟩ := hc.executed hshort hx
  rw [R10000.defined_iff (hc.safe.commitStage.stage1_ok x hx)]
  constructor
  · intro h y' a b hy' ha' hb'
    obtain rfl := Option.some.inj (hy.symm.trans hy')
    obtain rfl := Option.some.inj (ha.symm.trans ha')
    obtain rfl := Option.some.inj (hb.symm.trans hb')
    rw [ht]
    exact h
  · intro h
    have := h y _ _ hy ha hb
    rwa [ht] at this

section
variable {P : Program} (hP : P.WellFormed) (ready : Bool) (uninit : ℕ → ℕ → UInt8)
include hP

theorem noOverflow_iff_alusOk (n : ℕ) : NoOverflow ready P uninit n ↔
    ∀ k < n, ∃ p, runFrom ready P uninit k = some p ∧ AlusOk p := by
  constructor
  · intro h k hk
    obtain ⟨p, hp, hx⟩ := h k hk
    exact ⟨p, hp, (alusOk_iff (safe_runFrom hP hp)).1 hx⟩
  · intro h k hk
    obtain ⟨p, hp, hx⟩ := h k hk
    exact ⟨p, hp, (alusOk_iff (safe_runFrom hP hp)).2 hx⟩

theorem noOverflow_iff_operandsOk (hshort : P.Short) {n : ℕ}
    (hv : RunHandsValid ready P uninit n) : NoOverflow ready P uninit n ↔
      ∀ j, ExecutedPc ready P uninit n j → P.OperandsOk j := by
  have hdef : ∀ k < n, ∀ p x, runFrom ready P uninit k = some p → Executes p x →
      (Defined x ↔ P.OperandsOk x.pc) := by
    intro k hk p x hp hx
    have hprog : (view p).program = P := program_runFrom hP hp
    have hc := correct_runFrom hP k fun j hj => hv j (hj.trans hk)
    rw [← view_runFrom hP hp] at hc
    have := hc.defined_iff (hprog ▸ hshort) ((executes_iff hc.safe).1 hx)
    rwa [hprog] at this
  constructor
  · rintro h j ⟨k, hk, p, x, hp, hx, rfl⟩
    obtain ⟨p', hp', hall⟩ := h k hk
    obtain rfl := Option.some.inj (hp.symm.trans hp')
    exact (hdef k hk p x hp hx).1 (hall x hx)
  · intro h k hk
    obtain ⟨p, hp, -⟩ := runFrom_ok hP ready uninit k
    refine ⟨p, hp, fun x hx => ?_⟩
    exact (hdef k hk p x hp hx).2 (h x.pc ⟨k, hk, p, x, hp, hx, rfl⟩)

/-- **Exactly when no addition or subtraction overflows**, for programs of any length and any
    bytes: every cycle raises an exception or has only operands in the ALUs that pass the
    tests.  For programs that end before the exception handler, in a run that hands valid bytes
    to `free_list_pop`, the tests are on the values that the program gives to the operands of
    the executed instructions. -/
theorem noOverflow_iff (n : ℕ) :
    (NoOverflow ready P uninit n ↔ ∀ k < n, ∃ p, runFrom ready P uninit k = some p ∧ AlusOk p) ∧
    (P.Short → RunHandsValid ready P uninit n →
      (NoOverflow ready P uninit n ↔ ∀ j, ExecutedPc ready P uninit n j → P.OperandsOk j)) :=
  ⟨noOverflow_iff_alusOk hP ready uninit n,
    fun hshort hv => noOverflow_iff_operandsOk hP ready uninit hshort hv⟩

end

theorem noOverflow_iff_small :
    (NoOverflow false smallProgram (fun _ _ => 0) 9 ↔
      ∀ k < 9, ∃ p, runFrom false smallProgram (fun _ _ => 0) k = some p ∧ AlusOk p) ∧
    (smallProgram.Short → RunHandsValid false smallProgram (fun _ _ => 0) 9 →
      (NoOverflow false smallProgram (fun _ _ => 0) 9 ↔
        ∀ j, ExecutedPc false smallProgram (fun _ _ => 0) 9 j → smallProgram.OperandsOk j)) :=
  noOverflow_iff smallProgram_wellFormed false _ 9

/-- `-2^31` is squared to `2^62`, which is added to itself. -/
def overflowProgram : Program := .ofList
  [(.addi, 1, 0, immOperand (-2147483648)), (.mulu, 2, 1, regOperand 1),
    (.add, 3, 2, regOperand 2)]
  (by decide)

/-- The addition overflows in the ninth cycle. -/
theorem noOverflow_fails : overflowProgram.WellFormed ∧ overflowProgram.Short ∧
    (∃ p x, run overflowProgram (fun _ _ => 0) 8 = some p ∧ Executes p x ∧
      x.function.signedResult x.opA x.opB = some (2 ^ 63)) ∧
    ¬ NoOverflow false overflowProgram (fun _ _ => 0) 9 := by
  have hrun : (run overflowProgram (fun _ _ => 0) 8).map (fun p =>
      let x := ((atAlu p 0).alus.get 0).forwardingPath
      (x.type, x.function, x.opA.value, x.opB.value)) =
      some (InstructionType.add, InstructionFunc.addFunc, 4611686018427387904,
        4611686018427387904) := by
    decide +kernel
  obtain ⟨p, hp, h⟩ := Option.map_eq_some_iff.1 hrun
  simp only [Prod.mk.injEq] at h
  obtain ⟨ht, hf, ha, hb⟩ := h
  have hx : Executes p ((atAlu p 0).alus.get 0).forwardingPath := ⟨0, rfl, by simp [ht]⟩
  have hsum : ((atAlu p 0).alus.get 0).forwardingPath.function.signedResult
      ((atAlu p 0).alus.get 0).forwardingPath.opA
      ((atAlu p 0).alus.get 0).forwardingPath.opB = some (2 ^ 63) := by
    rw [hf, InstructionFunc.signedResult, ha, hb]
    decide
  refine ⟨by decide, by decide, ⟨p, _, hp, hx, hsum⟩, fun hno => ?_⟩
  obtain ⟨q, hq, hdef⟩ := hno 8 (by decide)
  obtain rfl : p = q := Option.some.inj (hp.symm.trans hq)
  have := (hdef _ hx _ hsum).2
  omega

/-! ## Programs without a fault -/

section
variable {P : Program} (hP : P.WellFormed) {ready : Bool} {uninit : ℕ → ℕ → UInt8}
include hP

omit hP in
theorem ExecutedPc.mono {n n' j : ℕ} (h : ExecutedPc ready P uninit n j) (hn : n ≤ n') :
    ExecutedPc ready P uninit n' j := by
  obtain ⟨k, hk, hx⟩ := h
  exact ⟨k, hk.trans_le hn, hx⟩

theorem executed_of_done : ∀ n, (Machine.runFrom ready P uninit n).exceptionMode = false →
    ∀ e ∈ (Machine.runFrom ready P uninit n).activeList, e.isDone = true →
      ExecutedPc ready P uninit n e.pc
  | 0, _, e, he, _ => by cases he
  | n + 1, hm, e, he, hd => by
    obtain ⟨pre, post, post', new, t, -⟩ := turn_runFrom hP hm
    rcases t.origin he with ⟨e₀, he₀, hpc, hdone⟩ | ⟨hnot, -⟩
    · rcases hdone.1 hd with hd₀ | hst
      · have ih := executed_of_done n (mode_before hP hm (Nat.le_succ n)) e₀ he₀ hd₀
        exact hpc ▸ ih.mono (Nat.le_succ n)
      · -- it was in the last stage of an ALU, and commit has not flushed it
        obtain ⟨x, hx, hpc⟩ := List.mem_map.1 hst
        obtain ⟨p, hp, hv⟩ := runFrom_ok hP ready uninit n
        refine ⟨n, Nat.lt_succ_self n, p, x, hp, ?_, hpc⟩
        have hn := (Inv.runFrom hP ready uninit n).normal (mode_of_commitStage (mode_atCommit hm))
        rw [executes_iff (safe_runFrom hP hp), hv, hn.stage1_atCommit (mode_atCommit hm)]
        exact hx
    · rw [hnot] at hd
      cases hd

/-- Every instruction of a program without a fault is executed in the end. -/
theorem exists_executed (hshort : P.Short) (hu : Benign uninit) (hno : ∀ k, ¬ P.FaultsAt k)
    {j : ℕ} (hj : j < P.count) : ∃ n, ExecutedPc ready P uninit n j := by
  obtain ⟨n, hd⟩ := exists_drained ready hP hshort hu
  obtain ⟨p, hp, -⟩ := runFrom_ok hP ready uninit n
  have hall := (complete_of_drained hP hshort (hu.runHandsValid ready P n) hp hd).1 hno
  have hmem : j ∈ committed ready P uninit n := by
    rw [hall.1]
    exact List.mem_range.2 hj
  obtain ⟨n', -, hm, e, he, hdone, rfl⟩ := done_before hP n j (List.mem_append_left _ hmem)
  exact ⟨n', executed_of_done hP n' hm e he hdone⟩

/-- **Exactly when no run of a program overflows**, read off the program alone: for a program
    without a fault, on valid bytes, the values that the program gives to the operands of each
    of its instructions pass the test. -/
theorem overflow_free_iff (hshort : P.Short) (hu : Benign uninit) (hno : ∀ k, ¬ P.FaultsAt k) :
    (∀ n, NoOverflow ready P uninit n) ↔ ∀ j < P.count, P.OperandsOk j := by
  have hiff : ∀ n, NoOverflow ready P uninit n ↔
      ∀ j, ExecutedPc ready P uninit n j → P.OperandsOk j := fun n =>
    noOverflow_iff_operandsOk hP ready uninit hshort (hu.runHandsValid ready P n)
  constructor
  · intro h j hj
    obtain ⟨n, hx⟩ := exists_executed hP hshort hu hno hj
    exact (hiff n).1 (h n) j hx
  · intro h n
    refine (hiff n).2 fun j _ x a b hx => ?_
    exact h j (List.getElem?_eq_some_iff.1 hx).1 x a b hx

end

theorem overflow_free_iff_small :
    (∀ n, NoOverflow false overflowProgram (fun _ _ => 0) n) ↔
      ∀ j < 3, overflowProgram.OperandsOk j :=
  overflow_free_iff (by decide) (by decide) benign_zero (Program.no_fault (by decide))

end R10000
