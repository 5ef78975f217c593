/-
  Every run ends, and ends complete.
-/
import Mathlib.Data.Nat.Find
import Mathlib.Order.WellFounded
import R10000.History
import R10000.Results.Refinement
import R10000.Termination

namespace R10000

/-! ## Runs of the machine -/

section
variable {P : Program} {uninit : ℕ → ℕ → UInt8} (ready : Bool)
  (hP : P.WellFormed) (hu : Benign uninit)
include hP hu

theorem benign_dispatches (n : ℕ) :
    (Machine.runFrom ready P uninit n).dispatches (uninit n) = true :=
  (dispatchStage_valid (Safe.runFrom hP ready uninit n).backEnd _).2 (.inr fun i _ => hu n i)

theorem exists_raised_or_idle : ∃ n, (Machine.runFrom ready P uninit n).exceptionMode = true ∨
    (Machine.runFrom ready P uninit n).work = 0 := by
  obtain ⟨n, hn⟩ := WellFounded.not_rel_apply_succ (r := (· < ·))
    fun n => (Machine.runFrom ready P uninit n).work
  have hinv := Inv.runFrom hP ready uninit n
  have hok := benign_dispatches ready hP hu n
  cases hm : (Machine.runFrom ready P uninit n).exceptionMode with
  | true => exact ⟨n, .inl hm⟩
  | false =>
    cases hm' : (Machine.runFrom ready P uninit n).commitStage.exceptionMode with
    | true => exact ⟨n + 1, .inl ((cycle_frame _ _).1.trans hm')⟩
    | false =>
      obtain ⟨-, hlt | hzero⟩ := (hinv.normal hm).work_cycle hinv.safe hm' hok
      · exact absurd hlt hn
      · exact ⟨n, .inr hzero⟩

end

section
variable {P : Program} {uninit : ℕ → ℕ → UInt8} (ready : Bool)
  (hP : P.WellFormed) (hshort : P.Short)
include hP hshort

theorem exists_recovered {n : ℕ} (hm : (Machine.runFrom ready P uninit n).exceptionMode = true) :
    ∃ n', (Machine.runFrom ready P uninit n').Drained := by
  obtain ⟨k, hk⟩ := WellFounded.not_rel_apply_succ (r := (· < ·))
    fun k => (Machine.runFrom ready P uninit (n + k)).activeList.length
  have hinv := Inv.runFrom hP ready uninit (n + k)
  have hmk := (committed_of_raised hP hm (n + k) (Nat.le_add_right n k)).1
  have hPk : (Machine.runFrom ready P uninit (n + k)).program.Short := by
    rw [runFrom_program]; exact hshort
  obtain ⟨h1, h2, -⟩ := (hinv.raised hPk hmk).cycle_recovers (uninit (n + k)) hPk hinv.safe
  have hnil : (Machine.runFrom ready P uninit (n + k)).activeList = [] := by
    rw [← Nat.add_assoc, Machine.runFrom, h1, List.length_take] at hk
    exact List.length_eq_zero_iff.1 (by omega)
  have hm' := (committed_of_raised hP hm (n + k + 1) (by omega)).1
  refine ⟨n + k + 1, ?_⟩
  rw [Machine.Drained, if_pos hm', Machine.runFrom, h1, h2, hnil]
  exact ⟨rfl, rfl⟩

variable (hu : Benign uninit)
include hu

/-- Every run comes to a state in which nothing is left. -/
theorem exists_drained : ∃ n, (Machine.runFrom ready P uninit n).Drained := by
  obtain ⟨n, h⟩ := exists_raised_or_idle ready hP hu
  cases hm : (Machine.runFrom ready P uninit n).exceptionMode with
  | true => exact exists_recovered ready hP hshort hm
  | false =>
    refine ⟨n, ?_⟩
    rw [Machine.Drained, hm, if_neg Bool.false_ne_true]
    exact h.resolve_left (by simp [hm])

theorem drained_step {n : ℕ} (h : (Machine.runFrom ready P uninit n).Drained) :
    (Machine.runFrom ready P uninit (n + 1)).Drained ∧
      (Machine.runFrom ready P uninit (n + 1)).readyToFinish = true := by
  have hok := benign_dispatches ready hP hu n
  have hPn : (Machine.runFrom ready P uninit n).program.Short := by
    rw [runFrom_program]; exact hshort
  obtain ⟨h1, h2, h3, h4⟩ := h.cycle (.runFrom hP ready uninit n) hPn hok
  refine ⟨h4, ?_⟩
  rw [Machine.runFrom, (cycle_finished hok).2, h1, h2, h3]
  simp

theorem exists_finished : ∃ n, (Machine.runFrom ready P uninit n).finished = true := by
  obtain ⟨n, h⟩ := exists_drained ready hP hshort hu
  obtain ⟨-, hready⟩ := drained_step ready hP hshort hu h
  refine ⟨n + 2, ?_⟩
  rw [Machine.runFrom, (cycle_finished (benign_dispatches ready hP hu (n + 1))).1, hready,
    Bool.or_true]

/-- **The end test does not fire early**: in a fresh process only a drained machine passes it. -/
theorem drained_of_ready : ∀ n, ((Machine.runFrom false P uninit n).readyToFinish = true ∨
    (Machine.runFrom false P uninit n).finished = true) →
    (Machine.runFrom false P uninit n).Drained
  | 0, h => by simp [Machine.runFrom, Machine.initial] at h
  | n + 1, h => by
    have hok := benign_dispatches false hP hu n
    obtain ⟨hfin, hready⟩ := cycle_finished hok
    have hkeep : (Machine.runFrom false P uninit n).Drained →
        (Machine.runFrom false P uninit (n + 1)).Drained :=
      fun h => (drained_step false hP hshort hu h).1
    rw [Machine.runFrom, hfin, hready] at h
    simp only [Bool.or_eq_true, Bool.and_eq_true, Bool.not_eq_true', decide_eq_true_eq,
      List.isEmpty_iff] at h
    rcases h with (h | ⟨⟨h1, h2⟩, h3⟩) | h
    · exact hkeep (drained_of_ready n (.inl h))
    · exact drained_of_test (.runFrom hP false uninit n) hok h1 h2 h3
    · exact hkeep (drained_of_ready n h.symm)

end

/-! ## What is left at the end -/

section
variable {P : Program} {uninit : ℕ → ℕ → UInt8} {ready : Bool}

theorem pc_le (hP : P.WellFormed) : ∀ n,
    (Machine.runFrom ready P uninit n).exceptionMode = false →
    (Machine.runFrom ready P uninit n).pc ≤ P.count
  | 0, _ => Nat.zero_le _
  | n + 1, hm => by
    have hinv := Inv.runFrom hP ready uninit n
    have hprog : (Machine.runFrom ready P uninit n).program = P := runFrom_program n
    have hmode : (Machine.runFrom ready P uninit n).commitStage.exceptionMode = false :=
      (cycle_frame (uninit n) _).1 ▸ hm
    have hm0 := mode_of_commitStage hmode
    have ih := pc_le hP n hm0
    obtain ⟨c, -, -, -, -, ⟨hq, -⟩ | ⟨-, e, -, -, -, -, hr⟩⟩ := (hinv.normal hm0).commitStage
    · obtain ⟨d, f, al, lo, b, q, h1⟩ :=
        dispatchStage_frame (uninit n) (Machine.runFrom ready P uninit n).backEnd
      obtain ⟨ph, b', al', h2⟩ :=
        writeBackStage_frame (Machine.runFrom ready P uninit n).commitStage.executeStage
      have hb : (Machine.runFrom ready P uninit n).backEnd.pc =
          (Machine.runFrom ready P uninit n).pc ∧
          (Machine.runFrom ready P uninit n).backEnd.program = P := by
        rw [Machine.backEnd, h2, hq]
        exact ⟨rfl, hprog⟩
      have hf := Normal.fetched_le
        ((Machine.runFrom ready P uninit n).backEnd.dispatchStage (uninit n)).1
      rw [h1] at hf
      simp only [hb] at hf
      rw [Machine.runFrom, Machine.cycle]
      split_ifs
      · simp only [h1, Machine.frontEnd, Machine.fetchStage, Machine.checkFinished, hb]
        omega
      · simp only [h1, hb]
        exact ih
    · rw [hr.mode] at hmode
      cases hmode

/-- Without a fault everything is committed and no exception is raised; otherwise what is
    before the fault, and its exception is raised. -/
theorem complete_of_drained (hP : P.WellFormed) (hshort : P.Short) {n : ℕ}
    (hv : RunHandsValid ready P uninit n) {p : Processor}
    (hp : runFrom ready P uninit n = some p) (h : (Machine.runFrom ready P uninit n).Drained) :
    ((∀ k, ¬ P.FaultsAt k) → committed ready P uninit n = List.range P.count ∧
      raised ready P uninit n = [] ∧ p.pc = P.count) ∧
    ∀ k, P.FaultsAt k → committed ready P uninit n = List.range k ∧
      raised ready P uninit n = [k] ∧ p.exceptionStatus = ⟨false, k⟩ ∧
      p.activeList.toList = [] ∧ p.pc = 0x10000 := by
  have hc := correct_runFrom hP n hv
  have hcommitted := committed_eq hP n hv
  have hraised : raised ready P uninit n = _ := raised_eq hP n
  have hpc : (Machine.runFrom ready P uninit n).exceptionMode = false → _ := pc_le hP n
  have hprog : (view p).program = P := program_runFrom hP hp
  rw [← view_runFrom hP hp] at h hc hraised hpc
  rw [← List.range_eq_range'] at hcommitted
  generalize (committed ready P uninit n).length = k at hc hcommitted
  cases hm : (view p).exceptionMode with
  | true =>
    obtain ⟨hval, hstatus, R, x, hR, hx, hdiv⟩ := hc.fault (by rw [hprog]; exact hshort) hm
    have hr := hc.raised (by rw [hprog]; exact hshort) hm
    rw [hprog] at hR hx
    have hfault : P.FaultsAt k := ⟨R, x, hR, hx, hdiv⟩
    rw [hm, if_pos rfl, hstatus] at hraised
    rw [Machine.Drained, hm, if_pos rfl] at h
    refine ⟨fun hno => absurd hfault (hno k), fun k' hk' => ?_⟩
    rw [hk'.unique hP hfault]
    refine ⟨hcommitted, hraised, ?_, h.1, hr.pc⟩
    rw [← hstatus, ← h.2]
    rfl
  | false =>
    obtain ⟨hval, hi⟩ := hc.val hm
    obtain ⟨R, hR, -⟩ := hval.seq
    rw [hprog] at hR
    rw [hm, if_neg Bool.false_ne_true] at hraised
    rw [Machine.Drained, hm, if_neg Bool.false_ne_true, Machine.work, hprog] at h
    have hk : k = P.count := by
      have h1 := hi.pc
      have h2 := hpc hm
      simp only [Machine.pcs, List.length_append, List.length_map] at h1
      omega
    have hpc' : (view p).pc = P.count := by
      have h2 := hpc hm
      omega
    subst hk
    refine ⟨fun _ => ⟨hcommitted, hraised, hpc'⟩, fun k' hk' => ?_⟩
    have hle := hk'.le hP hR
    obtain ⟨-, x, -, hx, -⟩ := hk'
    have hlt := (List.getElem?_eq_some_iff.1 hx).1
    exact absurd hle (Nat.not_le.2 hlt)

/-! ## The simulation -/

theorem run_succ {k : ℕ} {p : Processor} (h : run P uninit k = some p) :
    run P uninit (k + 1) = returned (processorCycle (uninit k) p) := by
  rw [run] at h ⊢
  rw [runFrom, h]
  rfl

theorem simulationLoop_ok {q : Processor} : ∀ (d k : ℕ) (p : Processor),
    run P uninit k = some p → run P uninit (k + d + 1) = some q → q.finished = true →
    (∀ j, k < j → j ≤ k + d → ∃ p', run P uninit j = some p' ∧ p'.finished = false) →
    ∃ states : List Processor, states.length = d + 1 ∧
      (∀ j < d + 1, states[j]? = run P uninit (k + j)) ∧
      ∀ fuel, d + 1 ≤ fuel → simulationLoop uninit fuel k p = some (states, q)
  | 0, k, p, hp, hq, hfin, _ => by
    have hret : returned (processorCycle (uninit k) p) = some q := (run_succ hp).symm.trans hq
    refine ⟨[p], rfl, fun j hj => ?_, fun fuel hfuel => ?_⟩
    · rw [Nat.lt_one_iff.1 hj, Nat.add_zero, hp]
      rfl
    · obtain ⟨fuel, rfl⟩ : ∃ f, fuel = f + 1 := ⟨fuel - 1, by omega⟩
      simp [simulationLoop, hret, hfin]
  | d + 1, k, p, hp, hq, hfin, hnot => by
    obtain ⟨p', hp', hfin'⟩ := hnot (k + 1) (by omega) (by omega)
    have hret : returned (processorCycle (uninit k) p) = some p' := (run_succ hp).symm.trans hp'
    obtain ⟨states, hlen, hget, hloop⟩ := simulationLoop_ok d (k + 1) p' hp'
      (by rw [← hq]; congr 1; omega) hfin fun j h1 h2 => hnot j (by omega) (by omega)
    refine ⟨p :: states, congrArg (· + 1) hlen, fun j hj => ?_, fun fuel hfuel => ?_⟩
    · cases j with
      | zero => exact hp.symm
      | succ j =>
        rw [List.getElem?_cons_succ, hget j (by omega)]
        congr 1
        omega
    · obtain ⟨fuel, rfl⟩ : ∃ f, fuel = f + 1 := ⟨fuel - 1, by omega⟩
      simp [simulationLoop, hret, hfin', hloop fuel (by omega)]

end

/-- **Every run ends, and ends complete**, in a fresh process.  The loop of the simulation stops
    after some number of cycles, in a finished state.  If sequential execution divides by zero
    nowhere, every instruction was committed, no exception was raised and the PC is at the end;
    otherwise exactly the instructions before the first one that divides by zero were committed,
    its exception was raised once, and the recovery is over. -/
theorem simulation_ends {P : Program} (hP : P.WellFormed) (hshort : P.Short)
    {uninit : ℕ → ℕ → UInt8} (hu : Benign uninit) : ∃ p₀ n states p,
      initProcessor P false = .ok p₀ ∧ run P uninit n = some p ∧ p.finished = true ∧
      (∀ fuel, n ≤ fuel → runSimulation uninit fuel p₀ = some (states, p)) ∧
      states.length = n ∧ (∀ j < n, states[j]? = run P uninit j) ∧
      ((∀ k, ¬ P.FaultsAt k) → committed false P uninit n = List.range P.count ∧
        raised false P uninit n = [] ∧ p.pc = P.count) ∧
      ∀ k, P.FaultsAt k → committed false P uninit n = List.range k ∧
        raised false P uninit n = [k] ∧ p.exceptionStatus = ⟨false, k⟩ ∧
        p.activeList.toList = [] ∧ p.pc = 0x10000 := by
  have hex := exists_finished false hP hshort hu
  obtain ⟨p₀, hinit, -⟩ := initProcessor_ok P false
  have hrun0 : run P uninit 0 = some p₀ := by
    rw [run, runFrom, hinit]
    rfl
  obtain ⟨n, hn⟩ : ∃ n, Nat.find hex = n + 1 := by
    refine Nat.exists_eq_succ_of_ne_zero fun h0 => ?_
    have := Nat.find_spec hex
    rw [h0] at this
    cases this
  have hfin := Nat.find_spec hex
  rw [hn] at hfin
  obtain ⟨p, hp, hv⟩ := runFrom_ok hP false uninit (n + 1)
  have hfinp : p.finished = true := by
    rw [← hv] at hfin
    exact hfin
  obtain ⟨states, hlen, hget, hloop⟩ := simulationLoop_ok n 0 p₀ hrun0
    (by rw [Nat.zero_add]; exact hp) hfinp fun j _ hj => by
      obtain ⟨p', hp', hv'⟩ := runFrom_ok hP false uninit j
      have hmin := Nat.find_min hex (show j < Nat.find hex by omega)
      have hnot : ¬ p'.finished = true := by
        rw [← hv'] at hmin
        exact hmin
      exact ⟨p', hp', by simpa using hnot⟩
  have hd := drained_of_ready hP hshort hu (n + 1) (.inr hfin)
  obtain ⟨h1, h2⟩ := complete_of_drained hP hshort (hu.runHandsValid false P (n + 1)) hp hd
  exact ⟨p₀, n + 1, states, p, hinit, hp, hfinp, hloop, hlen, fun j hj => by
    rw [hget j hj, Nat.zero_add], h1, h2⟩

theorem simulation_ends_small : ∃ p₀ n states p,
    initProcessor smallProgram false = .ok p₀ ∧
    run smallProgram (fun _ _ => 0) n = some p ∧ p.finished = true ∧
    (∀ fuel, n ≤ fuel → runSimulation (fun _ _ => 0) fuel p₀ = some (states, p)) ∧
    states.length = n ∧ (∀ j < n, states[j]? = run smallProgram (fun _ _ => 0) j) ∧
    ((∀ k, ¬ smallProgram.FaultsAt k) →
      committed false smallProgram (fun _ _ => 0) n = List.range smallProgram.count ∧
      raised false smallProgram (fun _ _ => 0) n = [] ∧ p.pc = smallProgram.count) ∧
    ∀ k, smallProgram.FaultsAt k →
      committed false smallProgram (fun _ _ => 0) n = List.range k ∧
      raised false smallProgram (fun _ _ => 0) n = [k] ∧ p.exceptionStatus = ⟨false, k⟩ ∧
      p.activeList.toList = [] ∧ p.pc = 0x10000 :=
  simulation_ends smallProgram_wellFormed smallProgram_short benign_zero

end R10000
