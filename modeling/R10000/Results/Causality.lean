/-
  What a state depends on: on the instructions that can have been fetched, four for each cycle,
  and of the uninitialised bytes only on which of them are out of range.
-/
import R10000.Results.Timing

namespace R10000

/-- The machine with another program to go on with. -/
def Machine.withProgram (m : Machine) (P : Program) : Machine := { m with program := P }

section
variable (m : Machine) (P : Program)

/-! ## The back end does not look at the program -/

theorem commit_withProgram (n : ℕ) :
    (m.withProgram P).commit n = (m.commit n).withProgram P := by
  induction n generalizing m with
  | zero => rfl
  | succ n ih =>
    have hactive : (m.withProgram P).activeList = m.activeList := rfl
    simp only [Machine.commit, hactive]
    rcases m.activeList with _ | ⟨e, rest⟩
    · rfl
    · simp only
      split_ifs
      · rfl
      · rfl
      · exact ih (m.retire e rest)

theorem recover_withProgram (n : ℕ) :
    (m.withProgram P).recover n = (m.recover n).withProgram P := by
  induction n generalizing m with
  | zero => rfl
  | succ n ih =>
    have hactive : (m.withProgram P).activeList = m.activeList := rfl
    simp only [Machine.recover, hactive]
    rcases m.activeList.getLast? with _ | e
    · rfl
    · exact ih (m.rollback e m.activeList.dropLast)

theorem commitStage_withProgram :
    (m.withProgram P).commitStage = m.commitStage.withProgram P := by
  have hend : (m.withProgram P).endException = m.endException.withProgram P := by
    unfold Machine.endException
    change (if m.activeList = [] then _ else _) = _
    split_ifs
    · rfl
    · rfl
  unfold Machine.commitStage
  change (if m.exceptionMode then _ else _) = _
  split_ifs
  · rw [hend, recover_withProgram]
  · rw [commit_withProgram]

theorem backEnd_withProgram : (m.withProgram P).backEnd = m.backEnd.withProgram P := by
  have hwrite : ∀ m : Machine,
      (m.withProgram P).writeBackStage = m.writeBackStage.withProgram P :=
    fun m => List.foldl_hom (fun m : Machine => m.withProgram P) fun _ _ => rfl
  rw [Machine.backEnd, commitStage_withProgram,
    show (m.commitStage.withProgram P).executeStage = m.commitStage.executeStage.withProgram P
      from rfl, hwrite]
  rfl

/-- Dispatch only asks which bytes are out of range. -/
theorem dispatchLoop_withProgram {uninit uninit' : ℕ → UInt8}
    (h : ∀ i, (uninit i).toNat < 64 ↔ (uninit' i).toNat < 64) (n i : ℕ) :
    (m.withProgram P).dispatchLoop uninit' n i =
      ((m.dispatchLoop uninit n i).1.withProgram P, (m.dispatchLoop uninit n i).2) := by
  induction n generalizing i m with
  | zero => rfl
  | succ n ih =>
    have hdir : (m.withProgram P).dir = m.dir := rfl
    have hfree : (m.withProgram P).freeList = m.freeList := rfl
    rw [Machine.dispatchLoop, Machine.dispatchLoop]
    rcases hd : m.dir with _ | ⟨x, dir⟩
    · simp only [hdir, hd]
    · rcases hf : m.freeList with _ | ⟨p, freeList⟩
      · simp only [hdir, hd, hfree, hf]
      · simp only [hdir, hd, hfree, hf, regPhyFileSize, h i]
        split_ifs
        · exact ih (m.dispatch x dir p freeList) (i + 1)
        · rfl

theorem dispatchStage_withProgram {uninit uninit' : ℕ → UInt8}
    (h : ∀ i, (uninit i).toNat < 64 ↔ (uninit' i).toNat < 64) :
    (m.withProgram P).dispatchStage uninit' =
      ((m.dispatchStage uninit).1.withProgram P, (m.dispatchStage uninit).2) := by
  unfold Machine.dispatchStage
  change (if m.stalled then _ else _) = _
  split_ifs
  · rfl
  · exact dispatchLoop_withProgram { m with backpressure := false } P h _ 0

/-! ## Fetch -/

/-- Two programs of which the next four instructions are the same. -/
theorem frontEnd_withProgram
    (h : (P.instructions.drop m.pc).take 4 = (m.program.instructions.drop m.pc).take 4) :
    (m.withProgram P).frontEnd = m.frontEnd.withProgram P := by
  have hlen := congrArg List.length h
  simp only [List.length_take, List.length_drop] at hlen
  have hfetched : (m.withProgram P).fetched = m.fetched := by
    unfold Machine.fetched
    change (if m.backpressure then 0 else min 4 (P.count - m.pc)) = _
    split_ifs
    · rfl
    · exact hlen
  have hfour : m.fetched ≤ 4 := by
    unfold Machine.fetched
    split_ifs
    · exact Nat.zero_le _
    · exact Nat.min_le_left _ _
  have htake : (P.instructions.drop m.pc).take m.fetched =
      (m.program.instructions.drop m.pc).take m.fetched := by
    have := congrArg (List.take m.fetched) h
    rwa [List.take_take, List.take_take, Nat.min_eq_left hfour] at this
  unfold Machine.frontEnd Machine.fetchStage
  rw [hfetched]
  change ({ m with
    dir := m.dir ++ (P.instructions.drop m.pc).take m.fetched
    pc := m.pc + m.fetched
    program := P } : Machine).checkFinished m.fetched = _
  rw [htake]
  rfl

theorem cycle_withProgram {uninit uninit' : ℕ → UInt8}
    (hu : ∀ i, (uninit i).toNat < 64 ↔ (uninit' i).toNat < 64)
    (h : (P.instructions.drop (m.backEnd.dispatchStage uninit).1.pc).take 4 =
      ((m.backEnd.dispatchStage uninit).1.program.instructions.drop
        (m.backEnd.dispatchStage uninit).1.pc).take 4) :
    (m.withProgram P).cycle uninit' = (m.cycle uninit).withProgram P := by
  unfold Machine.cycle
  rw [backEnd_withProgram, dispatchStage_withProgram m.backEnd P hu]
  simp only
  split_ifs
  · exact frontEnd_withProgram _ P h
  · rfl

end

/-! ## Runs -/

/-- The PC at which a cycle fetches. -/
theorem pc_atFetch {P : Program} (hP : P.WellFormed) (hshort : P.Short) (ready : Bool)
    (uninit : ℕ → ℕ → UInt8) (n : ℕ) :
    ((Machine.runFrom ready P uninit n).backEnd.dispatchStage (uninit n)).1.pc ≤ 4 * n ∨
      ((Machine.runFrom ready P uninit n).backEnd.dispatchStage (uninit n)).1.pc =
        pcException := by
  have hinv := Inv.runFrom hP ready uninit n
  obtain ⟨d, f, al, lo, b, q, hframe⟩ :=
    dispatchStage_frame (uninit n) (Machine.runFrom ready P uninit n).backEnd
  rw [hframe]
  cases hm : (Machine.runFrom ready P uninit n).commitStage.exceptionMode with
  | true =>
    have hr := hinv.raised_commitStage (by rw [runFrom_program]; exact hshort) hm
    right
    change (Machine.runFrom ready P uninit n).backEnd.pc = pcException
    rw [show (Machine.runFrom ready P uninit n).backEnd =
      (Machine.runFrom ready P uninit n).commitStage from hr.idle]
    exact hr.pc
  | false =>
    have hm0 := mode_of_commitStage hm
    have hfour := pc_le_four hP n hm0
    obtain ⟨c, -, -, -, -, ⟨hq, -⟩ | ⟨-, e, -, -, -, -, hr⟩⟩ := (hinv.normal hm0).commitStage
    · obtain ⟨ph, b', al', hwb⟩ :=
        writeBackStage_frame (Machine.runFrom ready P uninit n).commitStage.executeStage
      left
      change (Machine.runFrom ready P uninit n).backEnd.pc ≤ 4 * n
      rw [Machine.backEnd, hwb, hq]
      exact hfour
    · rw [hr.mode] at hm
      cases hm

/-- **A run does not look ahead.** -/
theorem runFrom_withProgram {P Q : Program} (hP : P.WellFormed) (hshort : P.Short)
    (hQ : Q.Short) (ready : Bool) {uninit uninit' : ℕ → ℕ → UInt8} : ∀ n,
    P.instructions.take (4 * n) = Q.instructions.take (4 * n) →
    (∀ j < n, ∀ i, (uninit j i).toNat < 64 ↔ (uninit' j i).toNat < 64) →
    Machine.runFrom ready Q uninit' n = (Machine.runFrom ready P uninit n).withProgram Q
  | 0, _, _ => rfl
  | n + 1, h, hu => by
    have hless : ∀ k ≤ 4 * (n + 1), P.instructions.take k = Q.instructions.take k := by
      intro k hk
      have := congrArg (List.take k) h
      rwa [List.take_take, List.take_take, Nat.min_eq_left hk] at this
    have ih := runFrom_withProgram hP hshort hQ ready n (hless _ (by omega))
      fun j hj => hu j (by omega)
    rw [Machine.runFrom, ih, Machine.runFrom]
    refine cycle_withProgram _ Q (hu n (Nat.lt_succ_self n)) ?_
    have hprog : ((Machine.runFrom ready P uninit n).backEnd.dispatchStage
        (uninit n)).1.program = P := by
      obtain ⟨d, f, al, lo, b, q, hframe⟩ :=
        dispatchStage_frame (uninit n) (Machine.runFrom ready P uninit n).backEnd
      obtain ⟨ph, b', al', hwb⟩ :=
        writeBackStage_frame (Machine.runFrom ready P uninit n).commitStage.executeStage
      rw [hframe, Machine.backEnd, hwb]
      change (Machine.runFrom ready P uninit n).commitStage.program = P
      rw [commitStage_program, runFrom_program]
    rw [hprog]
    rcases pc_atFetch hP hshort ready uninit n with hpc | hpc
    · rw [List.take_drop, List.take_drop, hless _ (by omega)]
    · rw [hpc, List.drop_eq_nil_of_le hQ, List.drop_eq_nil_of_le hshort]

/-- **What a state depends on**: the state after `n` cycles is recorded alike for two programs
    that agree in their first `4 * n` instructions, and for uninitialised bytes of which the same
    ones are out of range. -/
theorem records_causal {P Q : Program} (hP : P.WellFormed) (hQ : Q.WellFormed) (hshort : P.Short)
    (hshort' : Q.Short) (ready : Bool) {uninit uninit' : ℕ → ℕ → UInt8} {n : ℕ}
    (h : P.instructions.take (4 * n) = Q.instructions.take (4 * n))
    (hu : ∀ j < n, ∀ i, (uninit j i).toNat < 64 ↔ (uninit' j i).toNat < 64) :
    ∃ p q, runFrom ready P uninit n = some p ∧ runFrom ready Q uninit' n = some q ∧
      processorGetJson q = processorGetJson p ∧ q.finished = p.finished := by
  obtain ⟨p, hp, hv⟩ := runFrom_ok hP ready uninit n
  obtain ⟨q, hq, hv'⟩ := runFrom_ok hQ ready uninit' n
  have hsame : view q = (view p).withProgram Q := by
    rw [hv, hv', runFrom_withProgram hP hshort hshort' ready n h hu]
  refine ⟨p, q, hp, hq, processorGetJson_congr ?_, congrArg Machine.finished hsame⟩
  rw [← recorded_view, hsame]
  rfl

/-- Four sums in a row. -/
def sumProgram : Program := .ofList (List.replicate 4 (.addi, 1, 1, immOperand 1)) (by decide)

/-- The four sums with a division behind them. -/
def quotientProgram : Program :=
  .ofList (List.replicate 4 (.addi, 1, 1, immOperand 1) ++ [(.divu, 2, 1, regOperand 0)])
    (by decide)

theorem records_causal_sum : ∃ p q,
    runFrom false sumProgram (fun _ _ => 0) 1 = some p ∧
    runFrom false quotientProgram (fun _ _ => 63) 1 = some q ∧
    processorGetJson q = processorGetJson p ∧ q.finished = p.finished :=
  records_causal (by decide) (by decide) (by decide) (by decide) false (by decide)
    fun _ _ _ => by decide

end R10000
