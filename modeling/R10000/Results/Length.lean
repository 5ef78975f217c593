/-
  How long a recovery and a simulation take.

  A recovery takes four entries off the Active List in every cycle, one more cycle clears the
  exception, and two more pass the end test.  A simulation takes two cycles for each
  instruction at most, besides the cycles that fill and empty the pipeline.
-/
import R10000.Results.Timing

namespace R10000

/-! ## Recovery -/

theorem not_finished {ready : Bool} {P : Program} {uninit : ℕ → ℕ → UInt8} : ∀ {n : ℕ},
    (∀ k < n, (Machine.runFrom ready P uninit k).readyToFinish = false) →
    (Machine.runFrom ready P uninit n).finished = false
  | 0, _ => rfl
  | n + 1, h => by
    have ih := not_finished fun k hk => h k (Nat.lt_succ_of_lt hk)
    rw [← Bool.not_eq_true]
    intro hfin
    have hready := ready_of_finished ih hfin
    rw [h n (Nat.lt_succ_self n)] at hready
    cases hready

section
variable {P : Program} {uninit : ℕ → ℕ → UInt8} (hP : P.WellFormed) (hshort : P.Short)
include hP hshort

/-- What is left after `j` cycles of the recovery of `a` entries. -/
structure Recovering (a j : ℕ) (m m' : Machine) : Prop where
  activeList : m'.activeList = m.activeList.take (a - 4 * j)
  physical : m'.physical = m.physical
  status : m'.exceptionStatus.isException = true ↔ 4 * j < a + 4
  ready : m'.readyToFinish = true ↔ a + 4 ≤ 4 * j
  finished : m'.finished = true ↔ a + 8 ≤ 4 * j

theorem Recovering.step {ready : Bool} {s j : ℕ} {m : Machine}
    (hm : (Machine.runFrom ready P uninit s).exceptionMode = true)
    (h : Recovering m.activeList.length j m (.runFrom ready P uninit s)) :
    Recovering m.activeList.length (j + 1) m (.runFrom ready P uninit (s + 1)) := by
  have hinv := Inv.runFrom hP ready uninit s
  have hprog : (Machine.runFrom ready P uninit s).program.Short := by
    rw [runFrom_program]
    exact hshort
  have hr := hinv.raised hprog hm
  obtain ⟨hal, hstatus, -⟩ := hr.cycle_recovers (uninit s) hprog hinv.safe
  obtain ⟨hphysical, hfin, hready⟩ := hr.cycle_rest (uninit s) hprog hinv.safe
  have hal' : ((Machine.runFrom ready P uninit s).cycle (uninit s)).activeList =
      m.activeList.take (m.activeList.length - 4 * (j + 1)) := by
    rw [hal, h.activeList, List.take_take, List.length_take]
    congr 1
    omega
  have hempty : ∀ n, (m.activeList.take n).isEmpty = true ↔ n = 0 ∨ m.activeList.length = 0 := by
    intro n
    rw [List.isEmpty_iff, ← List.length_eq_zero_iff, List.length_take]
    omega
  have hstatus' : ((Machine.runFrom ready P uninit s).cycle
      (uninit s)).exceptionStatus.isException = true ↔ 4 * (j + 1) < m.activeList.length + 4 := by
    rw [hstatus, Bool.and_eq_true, Bool.not_eq_true', ← Bool.not_eq_true, h.activeList, hempty,
      h.status]
    omega
  refine ⟨hal', hphysical.trans h.physical, hstatus', ?_, ?_⟩
  · rw [Machine.runFrom, hready, Bool.or_eq_true, Bool.and_eq_true, Bool.not_eq_true',
      ← Bool.not_eq_true, hstatus', hal', hempty, h.ready]
    omega
  · rw [Machine.runFrom, hfin, Bool.or_eq_true, h.finished, h.ready]
    omega

theorem recovering {n : ℕ} (hm : (Machine.runFrom false P uninit n).exceptionMode = false)
    (hm' : (Machine.runFrom false P uninit (n + 1)).exceptionMode = true) :
    (Machine.runFrom false P uninit (n + 1)).activeList ≠ [] ∧
    (∀ k ≤ n + 1, (Machine.runFrom false P uninit k).finished = false) ∧ ∀ j,
      Recovering (Machine.runFrom false P uninit (n + 1)).activeList.length j
        (.runFrom false P uninit (n + 1)) (.runFrom false P uninit (n + 1 + j)) := by
  have hmode := mode_atCommit hm'
  have hn := (Inv.runFrom hP false uninit n).normal hm
  obtain ⟨hal, hstatus, -, hready⟩ := hn.cycle_raises (uninit n) hmode
  -- a machine that is ready to finish is quiet, and raises nothing
  have hnot : ∀ k ≤ n, (Machine.runFrom false P uninit k).readyToFinish = false := by
    intro k hk
    rw [← Bool.not_eq_true]
    intro h
    have hq := (quiet_stays hP (quiet_of_ready hP hshort k h) (Nat.le_succ_of_le hk)).1
    exact hal hq.activeList
  have hnotfin : ∀ k ≤ n + 1, (Machine.runFrom false P uninit k).finished = false :=
    fun k hk => not_finished fun k' hk' => hnot k' (by omega)
  refine ⟨hal, hnotfin, fun j => ?_⟩
  induction j with
  | zero =>
    rw [hnot n le_rfl] at hready
    refine ⟨List.take_length.symm, rfl, ?_, ?_, ?_⟩
    · exact iff_of_true hstatus (by omega)
    · exact iff_of_false (by rw [Nat.add_zero, Machine.runFrom, hready]; decide) (by omega)
    · exact iff_of_false (by rw [Nat.add_zero, hnotfin _ le_rfl]; decide) (by omega)
  | succ j ih =>
    exact Recovering.step hP hshort (committed_of_raised hP hm' _ (Nat.le_add_right _ j)).1 ih

end

/-- **The recovery takes its time**, exactly: `j` cycles after the one that raises an exception
    and leaves `a` entries, the oldest `a - 4 * j` are left, the exception is told of if
    `4 * j < a + 4`, the run is finished if `a + 8 ≤ 4 * j`, and no register has changed. -/
theorem recovery_takes {P : Program} (hP : P.WellFormed) (hshort : P.Short)
    (uninit : ℕ → ℕ → UInt8) {n : ℕ} {p q : Processor}
    (hp : runFrom false P uninit n = some p) (hm : p.exceptionMode = false)
    (hq : runFrom false P uninit (n + 1) = some q) (hm' : q.exceptionMode = true) (j : ℕ) :
    ∃ r, runFrom false P uninit (n + 1 + j) = some r ∧
      r.activeList.toList = q.activeList.toList.take (q.activeList.count - 4 * j) ∧
      r.physical = q.physical ∧
      (r.exceptionStatus.isException = true ↔ 4 * j < q.activeList.count + 4) ∧
      (r.readyToFinish = true ↔ q.activeList.count + 4 ≤ 4 * j) ∧
      (r.finished = true ↔ q.activeList.count + 8 ≤ 4 * j) := by
  obtain ⟨r, hr, hv⟩ := runFrom_ok hP false uninit (n + 1 + j)
  have hview := view_runFrom hP hq
  rw [show p.exceptionMode = (view p).exceptionMode from rfl, view_runFrom hP hp] at hm
  rw [show q.exceptionMode = (view q).exceptionMode from rfl, hview] at hm'
  obtain ⟨h1, h2, h3, h4, h5⟩ := (recovering hP hshort hm hm').2.2 j
  rw [← hv, ← hview] at h1 h2 h3 h4 h5
  have hcount : (view q).activeList.length = q.activeList.count := Fifo.length_toList _
  rw [hcount] at h1 h3 h4 h5
  exact ⟨r, hr, h1, h2, h3, h4, h5⟩

/-- The division is alone in the Active List when its exception is raised. -/
theorem recovery_takes_small : ∃ q r,
    runFrom false smallProgram (fun _ _ => 0) 10 = some q ∧
    runFrom false smallProgram (fun _ _ => 0) (10 + 3) = some r ∧ q.activeList.count = 1 ∧
      r.activeList.toList = q.activeList.toList.take (q.activeList.count - 4 * 3) ∧
      r.physical = q.physical ∧
      (r.exceptionStatus.isException = true ↔ 4 * 3 < q.activeList.count + 4) ∧
      (r.readyToFinish = true ↔ q.activeList.count + 4 ≤ 4 * 3) ∧
      (r.finished = true ↔ q.activeList.count + 8 ≤ 4 * 3) := by
  have hrun : ((run smallProgram (fun _ _ => 0) 9).map (·.exceptionMode),
      (run smallProgram (fun _ _ => 0) 10).map fun p => (p.exceptionMode, p.activeList.count)) =
      (some false, some (true, 1)) := by
    decide +kernel
  rw [Prod.mk.injEq] at hrun
  obtain ⟨p, hp, hm⟩ := Option.map_eq_some_iff.1 hrun.1
  obtain ⟨q, hq, h⟩ := Option.map_eq_some_iff.1 hrun.2
  rw [Prod.mk.injEq] at h
  obtain ⟨r, hr, h'⟩ := recovery_takes smallProgram_wellFormed smallProgram_short _ hp hm hq h.1 3
  exact ⟨q, r, hq, hr, h.2, h'⟩

/-! ## The simulation -/

theorem simulation_of_finished {P : Program} (hP : P.WellFormed) {uninit : ℕ → ℕ → UInt8} {n : ℕ}
    (h : (Machine.runFrom false P uninit n).finished = true) : ∃ p₀ states p,
      initProcessor P false = .ok p₀ ∧ states.length ≤ n ∧
      (∀ fuel, n ≤ fuel → runSimulation uninit fuel p₀ = some (states, p)) ∧
      (Machine.runFrom false P uninit states.length).finished = true ∧
      ∀ k < states.length, (Machine.runFrom false P uninit k).finished = false := by
  have hex : ∃ n, (Machine.runFrom false P uninit n).finished = true := ⟨n, h⟩
  obtain ⟨p₀, hinit, -⟩ := initProcessor_ok P false
  have hrun0 : run P uninit 0 = some p₀ := by
    rw [run, runFrom, hinit]
    rfl
  have hle := Nat.find_min' hex h
  have hfin := Nat.find_spec hex
  have hmin : ∀ k < Nat.find hex, (Machine.runFrom false P uninit k).finished = false :=
    fun k hk => by simpa using Nat.find_min hex hk
  generalize Nat.find hex = k at hle hfin hmin
  obtain ⟨d, rfl⟩ : ∃ d, k = d + 1 := by
    refine Nat.exists_eq_succ_of_ne_zero fun h0 => ?_
    rw [h0] at hfin
    cases hfin
  obtain ⟨p, hp, hv⟩ := runFrom_ok hP false uninit (d + 1)
  obtain ⟨states, hlen, -, hloop⟩ := simulationLoop_ok d 0 p₀ hrun0
    (by rw [Nat.zero_add]; exact hp) (by rw [← hv] at hfin; exact hfin) fun j _ hj => by
      obtain ⟨p', hp', hv'⟩ := runFrom_ok hP false uninit j
      refine ⟨p', hp', ?_⟩
      have hnot := hmin j (by omega)
      rw [← hv'] at hnot
      exact hnot
  rw [← hlen] at hle hfin hmin hloop
  exact ⟨p₀, states, p, hinit, hle, fun fuel hfuel => hloop fuel (hle.trans hfuel), hfin, hmin⟩

section
variable {P : Program} {uninit : ℕ → ℕ → UInt8} (hP : P.WellFormed) (hu : Benign uninit)
include hP hu

theorem places_runFrom {n : ℕ}
    (hm : (Machine.runFrom false P uninit n).exceptionMode = false) :
    (Machine.runFrom false P uninit n).pc = (committed false P uninit n).length +
      (Machine.runFrom false P uninit n).activeList.length +
        (Machine.runFrom false P uninit n).dir.length := by
  have hi := ((correct_runFrom hP n (hu.runHandsValid false P n)).val hm).2.pc
  rw [Machine.pcs, List.length_append, List.length_map, List.length_map] at hi
  omega

theorem supplied_runFrom : ∀ n, (Machine.runFrom false P uninit (n + 1)).exceptionMode = false →
    (Machine.runFrom false P uninit (n + 1)).Supplied
  | n, hm => by
    have hm0 := mode_before hP hm (Nat.le_succ n)
    have hinv := Inv.runFrom hP false uninit n
    have hmode := mode_atCommit hm
    refine (hinv.normal hm0).supplied hinv.safe hmode (benign_dispatches false hP hu n) ?_
    intro hd
    cases n with
    | zero => exact .inr rfl
    | succ n => exact .inl ((supplied_runFrom n hm0).fetched hd)

/-- **The rate of commits**: an instruction is committed after two cycles for each of the
    program up to it, and five cycles more, unless an exception is raised. -/
theorem committed_late {i t : ℕ}
    (hm : (Machine.runFrom false P uninit (1 + t)).exceptionMode = false)
    (hi : i < P.count) (ht : 2 * i + 5 ≤ t) : i < (committed false P uninit (1 + t)).length := by
  have h0 : (committed false P uninit 1).length = 0 :=
    length_committed_succ hP 0
  have hflows := flows hP P.count hm fun t' ht' hlt => by
    have hmt := mode_before hP hm (show 1 + t' ≤ 1 + t by omega)
    have hplaces := places_runFrom hP hu hmt
    rw [Nat.add_comm] at hmt
    have hsup := supplied_runFrom hP hu t' hmt
    rw [Nat.add_comm] at hsup
    refine ⟨benign_dispatches false hP hu _, fun hd => ?_, hsup⟩
    have hpc := hsup.fetched hd
    rw [runFrom_program] at hpc
    rw [hd, List.length_nil] at hplaces
    omega
  have hlag := (lag_bounds (Machine.runFrom false P uninit 1)).2
  have hback := hflows.back_reaches (show 1 ≤ 5 by decide) (by
    simp only [Nat.add_zero, Nat.sub_self, Nat.zero_add]
    omega) hi le_rfl ht
  omega

theorem mode_of_no_fault (hshort : P.Short) (hno : ∀ k, ¬ P.FaultsAt k) (n : ℕ) :
    (Machine.runFrom false P uninit n).exceptionMode = false := by
  have hprog : (Machine.runFrom false P uninit n).program = P := runFrom_program n
  rw [← Bool.not_eq_true]
  intro hm
  have hc := correct_runFrom hP _ (hu.runHandsValid false P n)
  have hdiv := (hc.fault (by rw [hprog]; exact hshort) hm).2.divides
  rw [hprog] at hdiv
  exact hno _ hdiv

theorem finished_of_all (hshort : P.Short) (hno : ∀ k, ¬ P.FaultsAt k) {n : ℕ}
    (hall : P.count ≤ (committed false P uninit (n + 1)).length) :
    (Machine.runFrom false P uninit (n + 2)).finished = true := by
  have hm := mode_of_no_fault hP hu hshort hno (n + 1)
  have hpc := pc_le hP _ hm
  have hplaces := places_runFrom hP hu hm
  -- nothing is left in this state, so that the end test was passed
  have hl : (Machine.runFrom false P uninit (n + 1)).activeList = [] :=
    List.length_eq_zero_iff.1 (by omega)
  have hd : (Machine.runFrom false P uninit (n + 1)).dir = [] :=
    List.length_eq_zero_iff.1 (by omega)
  have hready : (Machine.runFrom false P uninit (n + 1)).readyToFinish = true :=
    cycle_ready (benign_dispatches false hP hu n) hl hd
      ((Inv.runFrom hP false uninit (n + 1)).normal hm).status
  rw [Machine.runFrom, (cycle_finished (benign_dispatches false hP hu _)).1, hready, Bool.or_true]

theorem finished_of_committed (hshort : P.Short) (hno : ∀ k, ¬ P.FaultsAt k) :
    (Machine.runFrom false P uninit (2 * P.count + 5)).finished = true := by
  have hm := mode_of_no_fault hP hu hshort hno (1 + (2 * P.count + 3))
  have hall : P.count ≤ (committed false P uninit (1 + (2 * P.count + 3))).length := by
    by_cases h0 : P.count = 0
    · rw [h0]
      exact Nat.zero_le _
    · have hlt := committed_late (i := P.count - 1) hP hu hm (by omega) (by omega)
      omega
  rw [Nat.add_comm 1] at hall
  exact finished_of_all hP hu hshort hno hall

theorem committed_of_finished (hshort : P.Short) (hno : ∀ k, ¬ P.FaultsAt k) {n : ℕ}
    (hnot : (Machine.runFrom false P uninit n).finished = false)
    (hfin : (Machine.runFrom false P uninit (n + 1)).finished = true) :
    committed false P uninit n = List.range P.count := by
  have hready := ready_of_finished hnot hfin
  have hdrained := drained_of_ready hP hshort hu n (.inl hready)
  obtain ⟨q, hq, -⟩ := runFrom_ok hP false uninit n
  exact ((complete_of_drained hP hshort (hu.runHandsValid false P n) hq hdrained).1 hno).1

/-- With a fault at `k`, the first state with its exception, and what the recovery leaves. -/
theorem raised_of_fault {k : ℕ} (hk : P.FaultsAt k) :
    ∃ n, n + 1 ≤ 2 * k + 6 ∧ (Machine.runFrom false P uninit n).exceptionMode = false ∧
      (Machine.runFrom false P uninit (n + 1)).exceptionMode = true := by
  have hraised : (Machine.runFrom false P uninit (1 + (2 * k + 5))).exceptionMode = true := by
    by_contra hm
    rw [Bool.not_eq_true] at hm
    have hc := correct_runFrom hP _ (hu.runHandsValid false P (1 + (2 * k + 5)))
    obtain ⟨R, hR, -⟩ := (hc.val hm).1.seq
    rw [runFrom_program] at hR
    have hlt : k < P.count := by
      obtain ⟨-, x, -, hx, -⟩ := hk
      exact (List.getElem?_eq_some_iff.1 hx).1
    have hlate := committed_late hP hu hm hlt le_rfl
    have hle := hk.le hP hR
    omega
  have hex : ∃ n, (Machine.runFrom false P uninit n).exceptionMode = true := ⟨_, hraised⟩
  have hle := Nat.find_min' hex hraised
  obtain ⟨n, hn⟩ : ∃ n, Nat.find hex = n + 1 := by
    refine Nat.exists_eq_succ_of_ne_zero fun h0 => ?_
    have hfirst := Nat.find_spec hex
    rw [h0] at hfirst
    cases hfirst
  refine ⟨n, by omega, ?_, hn ▸ Nat.find_spec hex⟩
  have hbefore := Nat.find_min hex (show n < Nat.find hex by omega)
  simpa using hbefore

end

/-- **How long a simulation takes**: without a fault it records at least `count / 4 + 6` states,
    if there is an instruction, and at most `2 * count + 5`, two for each instruction; if
    instruction `k` is the first one to divide by zero, more than `k / 4 + 8` and at most
    `2 * k + 16`. -/
theorem simulation_takes {P : Program} (hP : P.WellFormed) (hshort : P.Short)
    {uninit : ℕ → ℕ → UInt8} (hu : Benign uninit) : ∃ p₀ states p,
      initProcessor P false = .ok p₀ ∧
      runSimulation uninit (2 * P.count + 14) p₀ = some (states, p) ∧
      ((∀ k, ¬ P.FaultsAt k) → P.count ≤ 4 * (states.length - 6) ∧
        states.length ≤ 2 * P.count + 5) ∧
      ∀ k, P.FaultsAt k → k < 4 * (states.length - 8) ∧ states.length ≤ 2 * k + 16 := by
  by_cases hfault : ∃ k, P.FaultsAt k
  · obtain ⟨k, hk⟩ := hfault
    obtain ⟨n, hn, hm, hm'⟩ := raised_of_fault hP hu hk
    obtain ⟨hal, hnotfin, hrec⟩ := recovering hP hshort hm hm'
    have hroom : (Machine.runFrom false P uninit (n + 1)).activeList.length ≤ 32 := by
      have := (Safe.runFrom hP false uninit (n + 1)).length_eq
      omega
    have hlt : k < P.count := by
      obtain ⟨-, x, -, hx, -⟩ := hk
      exact (List.getElem?_eq_some_iff.1 hx).1
    obtain ⟨p₀, states, p, hinit, hle, hsim, hfin, hmin⟩ :=
      simulation_of_finished hP ((hrec 10).finished.2 (by omega))
    refine ⟨p₀, states, p, hinit, hsim _ (by omega), fun hno => absurd hk (hno k), ?_⟩
    intro k' hk'
    obtain rfl := hk.unique hP hk'
    refine ⟨?_, by omega⟩
    -- the exception is raised by the fifth state after the fetch
    have hraised : k ∈ raised false P uninit (n + 1) := by
      have hd := (correct_runFrom hP (n + 1) (hu.runHandsValid false P (n + 1))).fault
        (by rw [runFrom_program]; exact hshort) hm'
      have hdiv := hd.2.divides
      rw [runFrom_program] at hdiv
      rw [raised_eq hP, if_pos hm', hd.2.pc_eq, List.mem_singleton]
      exact hk.unique hP hdiv
    obtain ⟨n', hn', hmn', hfetched⟩ := fetched_before hP (n + 1)
      (List.mem_append_right _ hraised)
    have hfour := pc_le_four hP n' hmn'
    -- and the recovery of its entry takes three cycles more
    have hlast : n + 1 + 3 ≤ states.length := by
      have hpos := List.length_pos_iff.2 hal
      by_contra hlt
      rcases Nat.le_total states.length (n + 1) with hle | hle
      · rw [hnotfin _ hle] at hfin
        cases hfin
      · obtain ⟨j, hj⟩ := Nat.exists_eq_add_of_le hle
        rw [hj] at hfin
        have hfin := (hrec j).finished.1 hfin
        omega
    omega
  · rw [not_exists] at hfault
    obtain ⟨p₀, states, p, hinit, hle, hsim, hfin, hmin⟩ :=
      simulation_of_finished hP (finished_of_committed hP hu hshort hfault)
    refine ⟨p₀, states, p, hinit, hsim _ (by omega), fun _ => ⟨?_, hle⟩,
      fun k hk => absurd hk (hfault k)⟩
    obtain ⟨n, hn⟩ : ∃ n, states.length = n + 1 := by
      refine Nat.exists_eq_succ_of_ne_zero fun h0 => ?_
      rw [h0] at hfin
      cases hfin
    rw [hn] at hfin hmin ⊢
    have hall := committed_of_finished hP hu hshort hfault (hmin n (Nat.lt_succ_self n)) hfin
    by_cases h0 : P.count = 0
    · omega
    · obtain ⟨n', hn', hmn', hfetched⟩ := fetched_before (j := P.count - 1) hP n
        (List.mem_append_left _ (by rw [hall, List.mem_range]; omega))
      have hfour := pc_le_four hP n' hmn'
      omega

theorem simulation_takes_small : ∃ p₀ states p,
    initProcessor smallProgram false = .ok p₀ ∧
    runSimulation (fun _ _ => 0) (2 * smallProgram.count + 14) p₀ = some (states, p) ∧
    ((∀ k, ¬ smallProgram.FaultsAt k) → smallProgram.count ≤ 4 * (states.length - 6) ∧
      states.length ≤ 2 * smallProgram.count + 5) ∧
    ∀ k, smallProgram.FaultsAt k → k < 4 * (states.length - 8) ∧ states.length ≤ 2 * k + 16 :=
  simulation_takes smallProgram_wellFormed smallProgram_short benign_zero

end R10000
