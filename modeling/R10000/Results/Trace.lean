/-
  What a simulation records: the trace ends in the state that the run stops in, and the next
  simulation of the process finds `ready_to_finish` set.
-/
import R10000.Quiet
import R10000.Record
import R10000.Results.Termination

namespace R10000

/-! ## The end of the trace -/

/-- The parts of the state that a simulation records. -/
structure Recorded where
  pc : ℕ
  exceptionStatus : ExceptionStatus
  physical : Vector UInt64 regPhyFileSize
  logical : Vector UInt8 regLogFileSize
  freeList : List UInt8
  isBusy : Vector Bool regPhyFileSize
  activeList : List ActiveListEntry
  dir : List Instruction
  iq : List IqEntry

/-- The recorded parts of a machine. -/
def Machine.recorded (m : Machine) : Recorded :=
  ⟨m.pc, m.exceptionStatus, m.physical, m.logical, m.freeList, m.isBusy, m.activeList, m.dir, m.iq⟩

/-- The recorded parts of a processor. -/
def recorded (p : Processor) : Recorded where
  pc := p.pc
  exceptionStatus := p.exceptionStatus
  physical := p.physical
  logical := p.logical
  freeList := p.freeList.toList
  isBusy := p.isBusy
  activeList := p.activeList.toList
  dir := p.dir.toList
  iq := p.iq.toList

theorem recorded_view (p : Processor) : (view p).recorded = recorded p := rfl

theorem processorGetJson_congr {p q : Processor} (h : recorded p = recorded q) :
    processorGetJson p = processorGetJson q := by
  simp only [recorded, Recorded.mk.injEq] at h
  obtain ⟨h1, h2, h3, h4, h5, h6, h7, h8, h9⟩ := h
  simp only [processorGetJson, queueGetJson, h1, h2, h3, h4, h5, h6, h7, h8, h9]

/-- No instruction is left in the DIR, the queue, the Active List and the ALUs. -/
structure Emptied (p : Processor) : Prop where
  dir : p.dir.toList = []
  iq : p.iq.toList = []
  activeList : p.activeList.toList = []
  alus : ∀ i : Fin numAlus, (p.alus.get i).stage0.type = .unknownType ∧
    (p.alus.get i).stage1.type = .unknownType

theorem Quiet.emptied {p : Processor} (h : Quiet (view p)) : Emptied p where
  dir := h.dir
  iq := h.iq
  activeList := h.activeList
  alus := fun i => ⟨inStage_nil.1 h.stage0 i, inStage_nil.1 h.stage1 i⟩

section
variable {P : Program} {uninit : ℕ → ℕ → UInt8} (hP : P.WellFormed)
include hP

/-- **In a fresh process only a quiet machine is ready to finish.** -/
theorem quiet_of_ready (hshort : P.Short) : ∀ n,
    (Machine.runFrom false P uninit n).readyToFinish = true →
    Quiet (Machine.runFrom false P uninit n)
  | 0, h => by cases h
  | n + 1, h => by
    have hinv := Inv.runFrom hP false uninit n
    cases hr : (Machine.runFrom false P uninit n).readyToFinish with
    | true => exact (quiet_of_ready hshort n hr).of_cycle hinv.safe (uninit n)
    | false => exact quiet_of_test hinv (by rw [runFrom_program]; exact hshort) hr h

theorem quiet_stays {ready : Bool} {n : ℕ} (h : Quiet (Machine.runFrom ready P uninit n)) {n' : ℕ}
    (hn : n ≤ n') : Quiet (Machine.runFrom ready P uninit n') ∧
      (Machine.runFrom ready P uninit n').recorded =
        (Machine.runFrom ready P uninit n).recorded := by
  induction n', hn using Nat.le_induction with
  | base => exact ⟨h, rfl⟩
  | succ k _ ih =>
    obtain ⟨hq, hrec⟩ := ih
    have hs := Safe.runFrom hP ready uninit k
    refine ⟨hq.of_cycle hs (uninit k), ?_⟩
    rw [← hrec, Machine.runFrom, hq.cycle hs]
    rfl

end

/-- The loop of the simulation ends with the first cycle that ends finished; the state that
    this cycle starts in is the last one recorded. -/
theorem simulationLoop_last {P : Program} {ready : Bool} {uninit : ℕ → ℕ → UInt8} :
    ∀ {fuel k : ℕ} {p q : Processor} {states : List Processor},
    simulationLoop uninit fuel k p = some (states, q) → runFrom ready P uninit k = some p →
    p.finished = false → ∃ j last, j + 1 = k + states.length ∧ states.getLast? = some last ∧
      runFrom ready P uninit j = some last ∧ last.finished = false ∧
      runFrom ready P uninit (j + 1) = some q ∧ q.finished = true
  | 0, _, _, _, _, h, _, _ => by cases h
  | fuel + 1, k, p, q, states, h, hp, hfin => by
    rw [simulationLoop] at h
    cases hret : returned (processorCycle (uninit k) p) with
    | none => rw [hret] at h; cases h
    | some p' =>
      have hp' : runFrom ready P uninit (k + 1) = some p' := by
        rw [runFrom, hp]
        exact hret
      cases hfin' : p'.finished with
      | true =>
        simp only [hret, Option.bind_eq_bind, Option.bind_some, hfin', if_true, Option.pure_def,
          Option.some.injEq, Prod.mk.injEq] at h
        obtain ⟨rfl, rfl⟩ := h
        exact ⟨k, p, rfl, rfl, hp, hfin, hp', hfin'⟩
      | false =>
        simp only [hret, Option.bind_eq_bind, Option.bind_some, hfin', Bool.false_eq_true,
          if_false] at h
        obtain ⟨⟨states', q'⟩, hloop, heq⟩ := Option.bind_eq_some_iff.1 h
        cases heq
        obtain ⟨j, last, hlen, hlast, hj⟩ := simulationLoop_last hloop hp' hfin'
        refine ⟨j, last, ?_, by rw [List.getLast?_cons, hlast]; rfl, hj⟩
        change j + 1 = k + (states'.length + 1)
        omega

theorem runSimulation_last {P : Program} (hP : P.WellFormed) {ready : Bool}
    {uninit : ℕ → ℕ → UInt8} {fuel : ℕ} {p₀ p : Processor} {states : List Processor}
    (hinit : initProcessor P ready = .ok p₀)
    (hsim : runSimulation uninit fuel p₀ = some (states, p)) :
    ∃ j last, j + 1 = states.length ∧ states.getLast? = some last ∧
      runFrom ready P uninit j = some last ∧ last.readyToFinish = true ∧
      runFrom ready P uninit (j + 1) = some p := by
  have hrun : runFrom ready P uninit 0 = some p₀ := by
    rw [runFrom, hinit]
    rfl
  have hfin₀ : p₀.finished = false := congrArg Machine.finished (view_runFrom hP hrun)
  obtain ⟨j, last, hlen, hlast, hj, hfin, hj', hfin'⟩ := simulationLoop_last hsim hrun hfin₀
  have hcycle : ((view last).cycle (uninit j)).finished = true := view_step hP hj hj' ▸ hfin'
  have hready := ready_of_finished (m := view last) hfin hcycle
  exact ⟨j, last, by omega, hlast, hj, hready, hj'⟩

/-- When a simulation of `P` in a fresh process is complete, a simulation of `Q` in the same
    process records what it records in a fresh one. -/
def Independent (P Q : Program) (u v : ℕ → ℕ → UInt8) : Prop :=
  ∀ traceP ready, Records false P u traceP ready → ∀ trace,
    (∃ ready', Records ready Q v trace ready') ↔ ∃ ready', Records false Q v trace ready'

section
variable {P : Program} {uninit : ℕ → ℕ → UInt8} (hP : P.WellFormed)
include hP

theorem ready_of_records {ready ready' : Bool} {trace : List StateJson}
    (h : Records ready P uninit trace ready') : ready' = true := by
  obtain ⟨fuel, p₀, states, p, hinit, hsim, -, rfl⟩ := h
  obtain ⟨j, last, -, -, hj, hready, hj'⟩ := runSimulation_last hP hinit hsim
  have hcycle := ready_cycle (m := view last) (uninit j) hready
  rw [← view_step hP hj hj'] at hcycle
  exact hcycle

/-- A simulation that finds `ready_to_finish` set records the initial state only. -/
theorem records_ready (uninit : ℕ → ℕ → UInt8) : ∃ p₀, initProcessor P true = .ok p₀ ∧
    ∃ ready', Records true P uninit [processorGetJson p₀] ready' := by
  obtain ⟨p₀, hinit, hview⟩ := initProcessor_ok P true
  obtain ⟨p, hret, hview'⟩ := returned_cycle (hview ▸ Safe.initial hP true) (uninit 0)
  have hfin : p.finished = true := by
    have h := finished_initial P (uninit 0)
    rw [← hview, ← hview'] at h
    exact h
  refine ⟨p₀, hinit, p.readyToFinish, 1, p₀, [p₀], p, hinit, ?_, rfl, rfl⟩
  simp [runSimulation, simulationLoop, hret, hfin]

theorem length_records {trace : List StateJson} {ready' : Bool}
    (h : Records false P uninit trace ready') : 2 ≤ trace.length := by
  obtain ⟨fuel, p₀, states, p, hinit, hsim, rfl, -⟩ := h
  obtain ⟨j, last, hlen, -, hj, hready, -⟩ := runSimulation_last hP hinit hsim
  rw [List.length_map]
  cases j with
  | zero =>
    have hnot : last.readyToFinish = false :=
      congrArg Machine.readyToFinish (view_runFrom hP hj)
    rw [hnot] at hready
    cases hready
  | succ j => omega

theorem records_differ (uninit : ℕ → ℕ → UInt8) : ∃ trace,
    (∃ ready', Records true P uninit trace ready') ∧
      ¬ ∃ ready', Records false P uninit trace ready' := by
  obtain ⟨p₀, -, hrec⟩ := records_ready hP uninit
  refine ⟨_, hrec, ?_⟩
  rintro ⟨ready', hfresh⟩
  have hlen := length_records hP hfresh
  rw [List.length_singleton] at hlen
  exact absurd hlen (by decide)

end

/-- **The second simulation of a process never records what it would in a fresh one**, for all
    programs `P` whose simulation is complete and all `Q`. -/
theorem simulations_not_independent {P Q : Program} (hP : P.WellFormed) (hQ : Q.WellFormed)
    {u : ℕ → ℕ → UInt8} (h : ∃ trace ready, Records false P u trace ready)
    (v : ℕ → ℕ → UInt8) : ¬ Independent P Q u v := by
  intro hind
  obtain ⟨trace, ready, h⟩ := h
  obtain rfl := ready_of_records hP h
  obtain ⟨trace', hsecond, hfresh⟩ := records_differ hQ v
  exact hfresh ((hind trace true h trace').1 hsecond)

theorem smallProgram_records : ∃ trace ready,
    Records false smallProgram (fun _ _ => 0) trace ready ∧ trace.length = 13 := by
  have hrun : ((initProcessor smallProgram false).toOption.bind
      (runSimulation (fun _ _ => 0) 13)).map (·.1.length) = some 13 := by
    decide +kernel
  obtain ⟨p₀, hinit, -⟩ := initProcessor_ok smallProgram false
  obtain ⟨⟨states, p⟩, hsim, hlen⟩ := Option.map_eq_some_iff.1 hrun
  rw [hinit] at hsim
  exact ⟨states.map processorGetJson, p.readyToFinish,
    ⟨13, p₀, states, p, hinit, hsim, rfl, rfl⟩, by rw [List.length_map]; exact hlen⟩

theorem simulations_not_independent_small :
    ¬ Independent smallProgram smallProgram (fun _ _ => 0) (fun _ _ => 0) :=
  simulations_not_independent smallProgram_wellFormed smallProgram_wellFormed
    (by
      obtain ⟨trace, ready, h, -⟩ := smallProgram_records
      exact ⟨trace, ready, h⟩) _

/-- After the small program, a second simulation of it records one state instead of 13. -/
theorem simulations_leak :
    smallProgram.WellFormed ∧ smallProgram.Short ∧
    (∃ trace, Records false smallProgram (fun _ _ => 0) trace true ∧ trace.length = 13) ∧
    (∃ trace ready, Records true smallProgram (fun _ _ => 0) trace ready ∧ trace.length = 1) ∧
    ¬ Independent smallProgram smallProgram (fun _ _ => 0) (fun _ _ => 0) := by
  obtain ⟨trace, ready, h, hlen⟩ := smallProgram_records
  obtain rfl := ready_of_records smallProgram_wellFormed h
  obtain ⟨p₀, -, ready, hrec⟩ :=
    records_ready smallProgram_wellFormed fun _ _ => 0
  refine ⟨smallProgram_wellFormed, smallProgram_short, ⟨trace, h, hlen⟩,
    ⟨_, ready, hrec, rfl⟩, fun hind => ?_⟩
  obtain ⟨trace', hsecond, hfresh⟩ := records_differ smallProgram_wellFormed fun _ _ => 0
  exact hfresh ((hind trace true h trace').1 hsecond)

end R10000
