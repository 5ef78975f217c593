/-
  The out-of-order processor and its program: in a run that hands valid bytes to
  `free_list_pop`, no instruction is lost or reordered, every operand comes from the last
  older writer, and the committed registers are those of sequential execution.
-/
import R10000.Results.Safety

namespace R10000

open Renaming

/-! ## Order -/

/-- The instructions in the queue and in the ALU stages. -/
def inFlight (p : Processor) : List Instruction :=
  p.iq.toList.map (·.instr) ++ (inStage Alu.stage0 p.alus ++ inStage Alu.stage1 p.alus)

/-- Completing an instruction by its pc finds its entry of the Active List and no other. -/
def FindsEntry (p : Processor) (x : Instruction) : Prop :=
  ∃ pre e post marked excepted, p.activeList.toList = pre ++ e :: post ∧
    e.isDone = false ∧ e.pc = x.pc ∧ e.currPhyDest = x.dest.phyId ∧
    (∀ e' ∈ pre ++ post, e'.pc ≠ x.pc) ∧
    activeListMarkDone p.activeList x.pc true = .ok marked ∧
    marked.toList = pre ++ { e with isDone := true } :: post ∧
    activeListMarkException p.activeList x.pc true = .ok excepted ∧
    excepted.toList = pre ++ { e with isException := true } :: post

theorem Normal.findsEntry {p : Processor} {todo : List Instruction} (h : Normal todo (view p))
    {x : Instruction} (hx : x ∈ (view p).flight todo) : FindsEntry p x := by
  obtain ⟨pre, e, post, hl, hd, -, hpc, hcur, -⟩ := h.split hx
  have hl' : p.activeList.toList = pre ++ e :: post := hl
  have hw := h.window
  rw [hl] at hw
  obtain ⟨hpre, hpost⟩ := hw.split_lt
  rw [hpc] at hpre hpost
  have hpre' : ∀ e' ∈ pre, e'.pc ≠ x.pc := fun e' he' => (hpre e' he').ne
  have hpost' : ∀ e' ∈ post, e'.pc ≠ x.pc := fun e' he' => (hpost e' he').ne'
  obtain ⟨q, h1, h2⟩ := activeListMarkDone_ok (q := p.activeList) x.pc
  obtain ⟨q', h3, h4⟩ := activeListMarkException_ok (q := p.activeList) x.pc
  refine ⟨pre, e, post, q, q', hl, hd, hpc, hcur, ?_, h1, ?_, h3, ?_⟩
  · intro e' he'
    rcases List.mem_append.1 he' with he' | he'
    · exact hpre' e' he'
    · exact hpost' e' he'
  · rw [h2, hl', Normal.markFirst_split hpre' hpc]
  · rw [h4, hl', Normal.markFirst_split hpre' hpc]

/-- **No instruction is lost, duplicated, reordered or executed twice.**  Before any
    exception, in a run that hands valid bytes to `free_list_pop`. -/
theorem program_order {P : Program} (hP : P.WellFormed) (ready : Bool)
    (uninit : ℕ → ℕ → UInt8) (n : ℕ) (hv : RunHandsValid ready P uninit n)
    (hr : raised ready P uninit n = []) : ∃ p, runFrom ready P uninit n = some p ∧
      committed ready P uninit n ++ p.activeList.toList.map (·.pc) ++ p.dir.toList.map (·.pc) =
        List.range p.pc ∧
      (p.iq.toList.map (·.instr.pc)).Pairwise (· < ·) ∧
      ((inFlight p).map fun x => (x.pc, x.dest.phyId)).Perm
        ((p.activeList.toList.filter fun e => !e.isDone).map fun e => (e.pc, e.currPhyDest)) ∧
      ((inFlight p).map (·.pc)).Nodup ∧
      ∀ x ∈ inFlight p, FindsEntry p x := by
  obtain ⟨p, h1, h2⟩ := runFrom_ok hP ready uninit n
  have hc := correct_runFrom hP n hv
  have hm : (Machine.runFrom ready P uninit n).exceptionMode = false := by
    rw [raised_eq hP] at hr
    split_ifs at hr with hm
    exact Bool.eq_false_iff.2 hm
  have hn := hc.normal hm
  have hi := (hc.val hm).2
  rw [← h2] at hn hi
  have hflight : ((inFlight p).map Instruction.tag).Perm
      ((p.activeList.toList.filter fun e => !e.isDone).map ActiveListEntry.tag) := hn.flight
  refine ⟨p, h1, ?_, hn.iq_order, hflight, ?_, fun x hx => hn.findsEntry hx⟩
  · have hpcs : p.activeList.toList.map (·.pc) ++ p.dir.toList.map (·.pc) =
        List.range' (committed ready P uninit n).length (view p).pcs.length := hi.pcs
    have hpc : p.pc = _ := hi.pc
    rw [List.append_assoc, hpcs, committed_eq hP n hv, List.length_range', hpc,
      List.range_eq_range', ← List.range'_append_1, Nat.zero_add]
  · -- the pcs in flight are those of different entries
    exact (hn.distinct (safe_runFrom hP h1)).1

theorem runHandsValid_zero (ready : Bool) (P : Program) (n : ℕ) :
    RunHandsValid ready P (fun _ _ => 0) n := benign_zero.runHandsValid ready P n

theorem program_order_small : ∃ p, runFrom false smallProgram (fun _ _ => 0) 4 = some p ∧
    committed false smallProgram (fun _ _ => 0) 4 ++ p.activeList.toList.map (·.pc) ++
      p.dir.toList.map (·.pc) = List.range p.pc ∧
    (p.iq.toList.map (·.instr.pc)).Pairwise (· < ·) ∧
    ((inFlight p).map fun x => (x.pc, x.dest.phyId)).Perm
      ((p.activeList.toList.filter fun e => !e.isDone).map fun e => (e.pc, e.currPhyDest)) ∧
    ((inFlight p).map (·.pc)).Nodup ∧
    ∀ x ∈ inFlight p, FindsEntry p x :=
  program_order smallProgram_wellFormed false _ 4 (runHandsValid_zero _ _ _) (by decide +kernel)

/-- The byte 200 in the first iteration of the first dispatch, 0 elsewhere. -/
def oneBadByte (n i : ℕ) : UInt8 := if n = 1 ∧ i = 0 then 200 else 0

/-- One byte out of range, and instruction 0 is lost: the processor holds the instructions 1
    and 2, and the PC is 3. -/
theorem program_order_fails : ∃ p, runFrom false smallProgram oneBadByte 3 = some p ∧
    raised false smallProgram oneBadByte 3 = [] ∧
    committed false smallProgram oneBadByte 3 ++ p.activeList.toList.map (·.pc) ++
      p.dir.toList.map (·.pc) ≠ List.range p.pc := by
  have hrun : (runFrom false smallProgram oneBadByte 3).map (fun p =>
      (raised false smallProgram oneBadByte 3,
        committed false smallProgram oneBadByte 3 ++ p.activeList.toList.map (·.pc) ++
          p.dir.toList.map (·.pc), p.pc)) = some ([], [1, 2], 3) := by
    decide +kernel
  obtain ⟨p, hp, h⟩ := Option.map_eq_some_iff.1 hrun
  simp only [Prod.mk.injEq] at h
  exact ⟨p, hp, h.1, by rw [h.2.1, h.2.2]; decide⟩

/-! ## Dependencies -/

/-- The register that holds the committed value of `r`: the old destination of the oldest
    entry that writes `r`, or the mapping of `r`. -/
def committedReg (p : Processor) (r : UInt8) : UInt8 :=
  ((p.activeList.toList.find? fun e => e.logDest = r).map (·.oldPhyDest)).getD (rd p.logical r)

/-- The youngest entry older than the instruction with pc `j` that writes `r`. -/
def producer (p : Processor) (j : ℕ) (r : UInt8) : Option ActiveListEntry :=
  (p.activeList.toList.filter fun e => e.pc < j ∧ e.logDest = r).getLast?

/-- The operand `o` of the instruction with pc `j` is renamed to the register of its producer,
    and if it is flagged ready, then the producer has executed without exception and the
    operand has the value that the last older writer in the program produces. -/
def DependencyOk (p : Processor) (j : ℕ) (o : Operand) (isReady : Bool) : Prop :=
  o.type = .reg →
    o.phyId = ((producer p j o.logId).map (·.currPhyDest)).getD (committedReg p o.logId) ∧
    (isReady = true →
      (∀ e ∈ producer p j o.logId, e.isDone = true ∧ e.isException = false) ∧
      p.program.flow j o.logId = some o.value)

theorem archMap_eq_committedReg (p : Processor) (r : UInt8) :
    archMap p.logical p.activeList.toList r = committedReg p r := by
  rw [archMap, before_eq, committedReg, writes, List.find?_map, Option.map_map]
  rfl

theorem mapAt_eq_producer (p : Processor) (j : ℕ) (r : UInt8) :
    mapAt p.logical p.activeList.toList j r =
      ((producer p j r).map (·.currPhyDest)).getD (committedReg p r) := by
  have hfilter : (p.activeList.toList.filter fun e =>
      ((fun w : Write UInt8 UInt8 => decide (w.reg = r)) ∘ ActiveListEntry.write) e &&
        decide (e.pc < j)) =
      p.activeList.toList.filter fun e => decide (e.pc < j ∧ e.logDest = r) :=
    List.filter_congr fun e _ => by rw [Bool.decide_and, Bool.and_comm]; rfl
  rw [mapAt, after_eq, archMap_eq_committedReg, producer, writes, List.filter_map,
    List.filter_filter, hfilter, List.getLast?_map, Option.map_map]
  rfl

theorem Normal.dependency {p : Processor} {k : ℕ} {todo : List Instruction}
    (hs : Safe (view p)) (h : Normal todo (view p)) (hv : Val k (view p))
    (hi : InOrder k (view p)) {x : Instruction} (hx : x ∈ (view p).flight todo) {o : Operand}
    (hlt : o.type = .reg → o.logId.toNat < 32)
    (hr : Renamed (view p).logical (view p).activeList x.pc o) {isReady : Bool}
    (hc : isReady = true → Captured (view p) o) : DependencyOk p x.pc o isReady := by
  intro ht
  have htag := hr ht
  have hprod := mapAt_eq_producer p x.pc o.logId
  refine ⟨htag.trans hprod, fun hready => ⟨fun e he => ?_, ?_⟩⟩
  · have hmem := List.mem_of_mem_getLast? he
    have he' : e ∈ (view p).activeList := List.mem_of_mem_filter hmem
    have hcur : e.currPhyDest = o.phyId := by
      rw [htag]
      refine Eq.trans ?_ hprod.symm
      rw [Option.mem_def.1 he]; rfl
    have hb := (hc hready ht).1
    rw [← hcur] at hb
    have hnp : ¬ e.Pending := by
      intro hp
      rw [(h.window.busy _ (curr_lt hs h.window he')).2 ⟨e, he', rfl, hp⟩] at hb
      cases hb
    simpa [ActiveListEntry.Pending] using hnp
  · exact captured_value hs h hv hi hx ht (hlt ht) hr (hc hready)

/-- **True dependencies are tracked**, and no operand is woken early or with a stale value, in
    a run that hands valid bytes to `free_list_pop`. -/
theorem dependencies_tracked {P : Program} (hP : P.WellFormed) (hshort : P.Short) (ready : Bool)
    (uninit : ℕ → ℕ → UInt8) (n : ℕ) (hv : RunHandsValid ready P uninit n) :
    ∃ p, runFrom ready P uninit n = some p ∧ p.program = P ∧
      (∀ en ∈ p.iq.toList, DependencyOk p en.instr.pc en.instr.opA en.isOpAReady ∧
        DependencyOk p en.instr.pc en.instr.opB en.isOpBReady) ∧
      ∀ x ∈ inStage Alu.stage0 p.alus ++ inStage Alu.stage1 p.alus,
        DependencyOk p x.pc x.opA true ∧ DependencyOk p x.pc x.opB true := by
  obtain ⟨p, h1, h2⟩ := runFrom_ok hP ready uninit n
  have hprog : p.program = P := program_runFrom hP h1
  have hs := safe_runFrom hP h1
  have hc := correct_runFrom hP n hv
  rw [← h2] at hc
  refine ⟨p, h1, hprog, ?_⟩
  cases hm : p.exceptionMode with
  | true =>
    have hr := hc.raised (by rw [show (view p).program = P from hprog]; exact hshort) hm
    have h3 : p.iq.toList = [] := hr.iq
    have h4 : inStage Alu.stage0 p.alus = [] := hr.stage0
    have h5 : inStage Alu.stage1 p.alus = [] := hr.stage1
    rw [h3, h4, h5]
    exact ⟨by simp, by simp⟩
  | false =>
    have hn := hc.normal hm
    obtain ⟨hval, hi⟩ := hc.val hm
    have hok := Normal.inFlight hs hs.stage1_ok
    constructor
    · intro en hen
      have hx : en.instr ∈ (view p).flight (view p).stage1 := mem_flight.2 (.inl ⟨en, hen, rfl⟩)
      obtain ⟨h3, h4⟩ := Normal.operand_lt (hok _ hx)
      obtain ⟨h5, h6⟩ := hn.iq_captured en hen
      have ht := hn.tracked _ hx
      exact ⟨hn.dependency hs hval hi hx (fun _ => h3) ht.opA h5,
        hn.dependency hs hval hi hx h4 ht.opB h6⟩
    · intro x hx'
      have hx : x ∈ (view p).flight (view p).stage1 := List.mem_append_right _ hx'
      obtain ⟨h3, h4⟩ := Normal.operand_lt (hok _ hx)
      obtain ⟨h5, h6⟩ := hn.captured x hx'
      have ht := hn.tracked _ hx
      exact ⟨hn.dependency hs hval hi hx (fun _ => h3) ht.opA fun _ => h5,
        hn.dependency hs hval hi hx h4 ht.opB fun _ => h6⟩

theorem smallProgram_short : smallProgram.Short := by decide

theorem dependencies_tracked_small : ∃ p, runFrom false smallProgram (fun _ _ => 0) 3 = some p ∧
    p.program = smallProgram ∧
    (∀ en ∈ p.iq.toList, DependencyOk p en.instr.pc en.instr.opA en.isOpAReady ∧
      DependencyOk p en.instr.pc en.instr.opB en.isOpBReady) ∧
    ∀ x ∈ inStage Alu.stage0 p.alus ++ inStage Alu.stage1 p.alus,
      DependencyOk p x.pc x.opA true ∧ DependencyOk p x.pc x.opB true :=
  dependencies_tracked smallProgram_wellFormed smallProgram_short false _ 3
    (runHandsValid_zero _ _ _)

/-- With instruction 0 lost, instruction 1 waits in the queue with the value 0 for `x1`, which
    instruction 0 sets to 5. -/
theorem dependencies_tracked_fails : ∃ p, runFrom false smallProgram oneBadByte 3 = some p ∧
    ∃ en ∈ p.iq.toList, ¬ DependencyOk p en.instr.pc en.instr.opA en.isOpAReady := by
  have hrun : (runFrom false smallProgram oneBadByte 3).map (fun p =>
      p.iq.toList.head?.map fun en => (en.instr.opA.type, en.isOpAReady,
        p.program.flow en.instr.pc en.instr.opA.logId, en.instr.opA.value)) =
      some (some (.reg, true, some 5, 0)) := by
    decide +kernel
  obtain ⟨p, hp, h⟩ := Option.map_eq_some_iff.1 hrun
  obtain ⟨en, hen, h⟩ := Option.map_eq_some_iff.1 h
  simp only [Prod.mk.injEq] at h
  obtain ⟨ht, hready, hflow, hval⟩ := h
  refine ⟨p, hp, en, List.mem_of_mem_head? hen, fun hdep => ?_⟩
  obtain ⟨-, h2⟩ := (hdep ht).2 hready
  rw [hflow, hval] at h2
  cases h2

/-! ## Refinement -/

/-- **The processor refines sequential execution in every cycle**, in a run that hands valid
    bytes to `free_list_pop`: the instructions committed so far divide by zero nowhere, the
    committed registers are those after them, and an exception that was raised is the one of
    the next instruction and stops the commits. -/
theorem refines_sequential {P : Program} (hP : P.WellFormed) (hshort : P.Short) (ready : Bool)
    (uninit : ℕ → ℕ → UInt8) (n : ℕ) (hv : RunHandsValid ready P uninit n) :
    ∃ p k R, runFrom ready P uninit n = some p ∧
      k = (committed ready P uninit n).length ∧ P.exec k = some R ∧
      (∀ r : UInt8, r.toNat < 32 → rd p.physical (committedReg p r) = R r) ∧
      (raised ready P uninit n ≠ [] → p.exceptionStatus.exceptionPc = k ∧
        (∃ x, P.instructions[k]? = some x ∧ x.DividesByZero R) ∧
        ∀ n', n ≤ n' → committed ready P uninit n' = committed ready P uninit n) := by
  obtain ⟨p, h1, h2⟩ := runFrom_ok hP ready uninit n
  have hprog : (view p).program = P := program_runFrom hP h1
  have hc := correct_runFrom hP n hv
  rw [← h2] at hc
  have hval : Val (committed ready P uninit n).length (view p) := by
    cases hm : (view p).exceptionMode with
    | true => exact (hc.fault (by rw [hprog]; exact hshort) hm).1
    | false => exact (hc.val hm).1
  obtain ⟨R, hR, hregs⟩ := hval.seq
  rw [hprog] at hR
  refine ⟨p, _, R, h1, rfl, hR, fun r hr => ?_, fun hne => ?_⟩
  · rw [← archMap_eq_committedReg]
    exact hregs r hr
  · have hm : (Machine.runFrom ready P uninit n).exceptionMode = true := by
      rw [raised_eq hP] at hne
      split_ifs at hne with hm
      · exact hm
      · exact absurd rfl hne
    obtain ⟨-, hpc, R', x, hR', hx, hdiv⟩ := hc.fault (by rw [hprog]; exact hshort) (h2 ▸ hm)
    rw [hprog] at hR' hx
    rw [hR, Option.some.injEq] at hR'
    subst hR'
    exact ⟨hpc, ⟨x, hx, hdiv⟩, fun n' hn => (committed_of_raised hP hm n' hn).2⟩

theorem refines_sequential_small : ∃ p k R,
    runFrom false smallProgram (fun _ _ => 0) 9 = some p ∧
    k = (committed false smallProgram (fun _ _ => 0) 9).length ∧ smallProgram.exec k = some R ∧
    (∀ r : UInt8, r.toNat < 32 → rd p.physical (committedReg p r) = R r) ∧
    (raised false smallProgram (fun _ _ => 0) 9 ≠ [] → p.exceptionStatus.exceptionPc = k ∧
      (∃ x, smallProgram.instructions[k]? = some x ∧ x.DividesByZero R) ∧
      ∀ n', 9 ≤ n' → committed false smallProgram (fun _ _ => 0) n' =
        committed false smallProgram (fun _ _ => 0) 9) :=
  refines_sequential smallProgram_wellFormed smallProgram_short false _ 9
    (runHandsValid_zero _ _ _)

/-- With instruction 0 lost, the processor commits instruction 1 alone and raises the exception
    of instruction 2. -/
theorem refines_sequential_fails : ∃ p, runFrom false smallProgram oneBadByte 9 = some p ∧
    raised false smallProgram oneBadByte 9 ≠ [] ∧
    p.exceptionStatus.exceptionPc ≠ (committed false smallProgram oneBadByte 9).length := by
  have hrun : (runFrom false smallProgram oneBadByte 9).map (fun p =>
      ((committed false smallProgram oneBadByte 9).length,
        raised false smallProgram oneBadByte 9, p.exceptionStatus.exceptionPc)) =
      some (1, [2], 2) := by
    decide +kernel
  obtain ⟨p, hp, h⟩ := Option.map_eq_some_iff.1 hrun
  simp only [Prod.mk.injEq] at h
  exact ⟨p, hp, by rw [h.2.1]; exact List.cons_ne_nil _ _, by rw [h.1, h.2.2]; decide⟩

end R10000
