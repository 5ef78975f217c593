/-
  Machines at rest.

  In a quiet machine no instruction is left in the pipeline or to be fetched, and no
  exception is told of.  A cycle of it only clears the backpressure and sets the end flags,
  whatever the uninitialised bytes are.  The end test of a cycle is passed by quiet machines
  only.
-/
import R10000.Termination

namespace R10000

/-- Nothing is left in the pipeline or to be fetched, and no exception is told of. -/
structure Quiet (m : Machine) : Prop where
  activeList : m.activeList = []
  dir : m.dir = []
  iq : m.iq = []
  stage0 : m.stage0 = []
  stage1 : m.stage1 = []
  pc : m.program.count ≤ m.pc
  status : m.exceptionStatus.isException = false

section
variable {m : Machine}

theorem Machine.Drained.quiet (hinv : Inv m) (hP : m.program.Short) (h : m.Drained) : Quiet m := by
  unfold Machine.Drained at h
  cases hm : m.exceptionMode with
  | true =>
    rw [hm, if_pos rfl] at h
    have hr := hinv.raised hP hm
    exact ⟨h.1, hr.dir, hr.iq, hr.stage0, hr.stage1, hr.pc ▸ hP, h.2⟩
  | false =>
    rw [hm, if_neg Bool.false_ne_true, Machine.work] at h
    refine ⟨?_, ?_, ?_, ?_, ?_, by omega, (hinv.normal hm).status⟩
    all_goals
      apply List.length_eq_zero_iff.1
      omega

/-- With an empty Active List the commit stage at most clears the backpressure. -/
theorem Quiet.commitStage (h : Quiet m) : ∃ b, m.commitStage = { m with backpressure := b } := by
  unfold Machine.commitStage
  split_ifs
  · have hend : m.endException = { m with backpressure := false } := by
      rw [Machine.endException, if_pos h.activeList, ← h.status]
    refine ⟨false, ?_⟩
    rw [hend]
    simp [Machine.recover, h.activeList]
  · refine ⟨m.backpressure, ?_⟩
    change m.commit instructionsPerCycle = m
    simp [Machine.commit, h.activeList]

theorem Quiet.backEnd (h : Quiet m) : ∃ b, m.backEnd = { m with backpressure := b } := by
  obtain ⟨b, hb⟩ := h.commitStage
  refine ⟨b, ?_⟩
  rw [Machine.backEnd, hb, writeBackStage_idle (by exact h.stage1), Machine.issueStage]
  simp [h.iq, h.stage0, h.stage1, select]

theorem Quiet.dispatchStage (hs : Safe m) (h : Quiet m) (uninit : ℕ → UInt8) :
    m.backEnd.dispatchStage uninit = ({ m with backpressure := false }, true) := by
  obtain ⟨b, hb⟩ := h.backEnd
  have hfree := hs.length_eq
  rw [h.activeList, List.length_nil, Nat.add_zero] at hfree
  have hst : m.backEnd.stalled = false := by
    rw [hb]
    simp only [Machine.stalled, hfree, h.activeList, h.iq, List.length_nil]
    decide
  rw [Machine.dispatchStage, hst, hb]
  simp [h.dir, Machine.dispatchLoop]

/-- **A quiet machine stays as it is**, up to the backpressure and the end flags. -/
theorem Quiet.cycle (hs : Safe m) (h : Quiet m) (uninit : ℕ → UInt8) : m.cycle uninit =
    { m with
      backpressure := false
      finished := m.finished || m.readyToFinish
      readyToFinish := true } := by
  have hpc := h.pc
  have hfetched : Machine.fetched { m with backpressure := false } = 0 := by
    simp only [Machine.fetched, Bool.false_eq_true, if_false]
    omega
  rw [Machine.cycle, h.dispatchStage hs]
  simp only [if_true, Machine.frontEnd, Machine.fetchStage, hfetched, Machine.checkFinished]
  simp [h.activeList, h.status]

theorem Quiet.of_cycle (hs : Safe m) (h : Quiet m) (uninit : ℕ → UInt8) :
    Quiet (m.cycle uninit) := by
  rw [h.cycle hs]
  exact { h with }

theorem cycle_stopped {uninit : ℕ → UInt8} (hok : m.dispatches uninit = false) :
    (m.cycle uninit).finished = m.finished ∧
      (m.cycle uninit).readyToFinish = m.readyToFinish := by
  obtain ⟨d, f, al, lo, b, q, h⟩ := dispatchStage_frame uninit m.backEnd
  have hcycle : m.cycle uninit = (m.backEnd.dispatchStage uninit).1 := by
    rw [Machine.dispatches] at hok
    rw [Machine.cycle, hok, if_neg Bool.false_ne_true]
  rw [hcycle, h]
  exact backEnd_finished m

/-- **The end test is passed by quiet machines only.** -/
theorem quiet_of_test {uninit : ℕ → UInt8} (hinv : Inv m) (hP : m.program.Short)
    (hready : m.readyToFinish = false) (hready' : (m.cycle uninit).readyToFinish = true) :
    Quiet (m.cycle uninit) := by
  have hok : m.dispatches uninit = true := by
    by_contra hok
    rw [(cycle_stopped (by simpa using hok)).2, hready] at hready'
    cases hready'
  have hP' : (m.cycle uninit).program.Short := by
    rw [(cycle_frame uninit m).2.2, commitStage_program]
    exact hP
  rw [(cycle_finished hok).2, hready] at hready'
  simp only [Bool.false_or, Bool.and_eq_true, Bool.not_eq_true', decide_eq_true_eq,
    List.isEmpty_iff] at hready'
  obtain ⟨⟨h1, h2⟩, h3⟩ := hready'
  exact (drained_of_test hinv hok h1 h2 h3).quiet (hinv.cycle uninit) hP'

theorem ready_cycle (uninit : ℕ → UInt8) (h : m.readyToFinish = true) :
    (m.cycle uninit).readyToFinish = true := by
  cases hok : m.dispatches uninit with
  | false => rw [(cycle_stopped hok).2, h]
  | true => rw [(cycle_finished hok).2, h, Bool.true_or]

theorem ready_of_finished {uninit : ℕ → UInt8} (h : m.finished = false)
    (h' : (m.cycle uninit).finished = true) : m.readyToFinish = true := by
  cases hok : m.dispatches uninit with
  | false =>
    rw [(cycle_stopped hok).1, h] at h'
    cases h'
  | true =>
    rw [(cycle_finished hok).1, h] at h'
    exact h'

end

theorem finished_initial (P : Program) (uninit : ℕ → UInt8) :
    ((Machine.initial P true).cycle uninit).finished = true := by
  have hok : (Machine.initial P true).dispatches uninit = true := rfl
  rw [(cycle_finished hok).1]
  rfl

end R10000
