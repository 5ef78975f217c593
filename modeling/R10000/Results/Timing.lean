/-
  How long an instruction takes.

  An instruction is committed within two cycles for each older one in the Active List, and
  five states after its fetch at the earliest, four of them in a cycle.  So the simulation of
  a program without faults takes between a quarter of a cycle and two cycles for each of its
  instructions, besides the cycles that fill and empty the pipeline.
-/
import Mathlib.Data.Nat.Find
import R10000.Lib.Progress
import R10000.Results.Recovery
import R10000.Results.Trace
import R10000.Timing

namespace R10000

/-! ## The cycles of a run -/

section
variable {ready : Bool} {P : Program} {uninit : ℕ → ℕ → UInt8} (hP : P.WellFormed)
include hP

theorem length_committed_succ (n : ℕ) : (committed ready P uninit (n + 1)).length =
    (committed ready P uninit n).length + (Machine.runFrom ready P uninit n).commits := by
  obtain ⟨p, h1, h2⟩ := runFrom_ok hP ready uninit n
  rw [committed, h1, Option.map_some, Option.getD_some, committedPcs_eq (safe_runFrom hP h1), h2,
    List.length_append, List.length_map, List.length_take, Machine.commits]
  split_ifs <;> omega

theorem mode_before {j n : ℕ} (hm : (Machine.runFrom ready P uninit n).exceptionMode = false)
    (hj : j ≤ n) : (Machine.runFrom ready P uninit j).exceptionMode = false := by
  rw [← Bool.not_eq_true] at hm ⊢
  exact fun hj' => hm (committed_of_raised hP hj' n hj).1

omit hP in
theorem mode_atCommit {n : ℕ} {b : Bool}
    (hm : (Machine.runFrom ready P uninit (n + 1)).exceptionMode = b) :
    (Machine.runFrom ready P uninit n).commitStage.exceptionMode = b :=
  (cycle_frame (uninit n) _).1.symm.trans hm

theorem turn_runFrom {n : ℕ} (hm : (Machine.runFrom ready P uninit (n + 1)).exceptionMode = false) :
    ∃ pre post post' new, Turn (Machine.runFrom ready P uninit n)
      (Machine.runFrom ready P uninit (n + 1)) pre post post' new ∧
      ((Machine.runFrom ready P uninit n).backEnd.stalled = true ↔ 28 <
        (Machine.runFrom ready P uninit n).activeList.length -
          (Machine.runFrom ready P uninit n).commits) ∧
      ((Machine.runFrom ready P uninit n).dispatches (uninit n) = true →
        new.length = if (Machine.runFrom ready P uninit n).backEnd.stalled then 0
          else (Machine.runFrom ready P uninit n).dir.length) := by
  have hinv := Inv.runFrom hP ready uninit n
  have hmode := mode_atCommit hm
  exact (hinv.normal (mode_of_commitStage hmode)).turn (uninit n) hinv.safe hmode

/-- The instructions that are committed or in the Active List stay so, in their order. -/
theorem committed_active {n : ℕ} : ∀ t,
    (Machine.runFrom ready P uninit (n + t)).exceptionMode = false →
    committed ready P uninit n ++ (Machine.runFrom ready P uninit n).activeList.map (·.pc) <+:
      committed ready P uninit (n + t) ++
        (Machine.runFrom ready P uninit (n + t)).activeList.map (·.pc)
  | 0, _ => List.prefix_rfl
  | t + 1, hm => by
    have hm0 := mode_before hP hm (Nat.le_succ (n + t))
    refine (committed_active t hm0).trans ?_
    obtain ⟨pre, post, post', new, ht, -⟩ := turn_runFrom (n := n + t) hP hm
    obtain ⟨p, h1, h2⟩ := runFrom_ok hP ready uninit (n + t)
    rw [← Nat.add_assoc, committed, h1, Option.map_some, Option.getD_some,
      committedPcs_eq (safe_runFrom hP h1), h2, ht.pcs, List.map_take, List.append_assoc,
      ← List.append_assoc (List.take _ _), List.take_append_drop, ← List.append_assoc]
    exact List.prefix_append _ _

theorem length_committed_le {n t : ℕ}
    (hm : (Machine.runFrom ready P uninit (n + t)).exceptionMode = false) :
    (committed ready P uninit n).length ≤ (committed ready P uninit (n + t)).length ∧
    (committed ready P uninit n).length + (Machine.runFrom ready P uninit n).activeList.length ≤
      (committed ready P uninit (n + t)).length +
        (Machine.runFrom ready P uninit (n + t)).activeList.length := by
  refine ⟨?_, ?_⟩
  · clear hm
    induction t with
    | zero => exact le_rfl
    | succ t ih =>
      rw [← Nat.add_assoc, length_committed_succ hP]
      omega
  · have hlen := (committed_active hP t hm).length_le
    simp only [List.length_append, List.length_map] at hlen
    exact hlen

/-! ## Progress -/

/-- **The Active List flows**: from state `s` on, counted in the instructions that settle and
    that are committed, as long as everything up to the goal is in the Active List or waits in
    the DIR. -/
theorem flows {s horizon : ℕ} (goal : ℕ)
    (hm : (Machine.runFrom ready P uninit (s + horizon)).exceptionMode = false)
    (hsup : ∀ t < horizon, (committed ready P uninit (s + t)).length +
        (Machine.runFrom ready P uninit (s + t)).activeList.length <
          (committed ready P uninit s).length + goal →
      (Machine.runFrom ready P uninit (s + t)).dispatches (uninit (s + t)) = true ∧
        (Machine.runFrom ready P uninit (s + t)).dir ≠ [] ∧
        (Machine.runFrom ready P uninit (s + t)).Supplied) :
    Progress.Flows
      (fun t => (committed ready P uninit (s + t)).length - (committed ready P uninit s).length +
        (Machine.runFrom ready P uninit (s + t)).settled)
      (fun t => (committed ready P uninit (s + t)).length - (committed ready P uninit s).length)
      (fun t => (Machine.runFrom ready P uninit (s + t)).lag) goal horizon := by
  -- one cycle, with what is committed in it
  have hstep : ∀ t < horizon, ∃ pre post post' new,
      Turn (Machine.runFrom ready P uninit (s + t)) (Machine.runFrom ready P uninit (s + (t + 1)))
        pre post post' new ∧
      (committed ready P uninit (s + (t + 1))).length = (committed ready P uninit (s + t)).length +
        (Machine.runFrom ready P uninit (s + t)).commits ∧
      (committed ready P uninit s).length ≤ (committed ready P uninit (s + t)).length ∧
      ((Machine.runFrom ready P uninit (s + t)).dispatches (uninit (s + t)) = true →
        new.length < (Machine.runFrom ready P uninit (s + t)).dir.length →
        28 < (Machine.runFrom ready P uninit (s + t)).activeList.length -
          (Machine.runFrom ready P uninit (s + t)).commits) := by
    intro t ht
    obtain ⟨pre, post, post', new, hturn, hst, hnew⟩ :=
      turn_runFrom hP (mode_before hP hm (show s + t + 1 ≤ s + horizon by omega))
    refine ⟨pre, post, post', new, hturn, length_committed_succ hP _,
      (length_committed_le hP (mode_before hP hm (by omega))).1, fun hok hlt => hst.1 ?_⟩
    rw [hnew hok] at hlt
    by_contra hfree
    rw [if_neg hfree] at hlt
    exact lt_irrefl _ hlt
  refine ⟨fun t _ => Nat.le_add_right _ _, fun t _ => lag_bounds _, ?_, ?_, ?_, ?_⟩
  · intro t ht
    obtain ⟨pre, post, post', new, hturn, hk, hk0, -⟩ := hstep t ht
    have hle := hturn.settled_le
    omega
  · intro t ht hlag
    obtain ⟨pre, post, post', new, hturn, hk, hk0, -⟩ := hstep t ht
    obtain ⟨hlag', hc⟩ := hturn.lag_blocked hlag
    refine ⟨hlag', ?_⟩
    omega
  · intro t ht
    obtain ⟨pre, post, post', new, hturn, hk, hk0, -⟩ := hstep t ht
    have hc := hturn.commits
    rw [hturn.length] at hc
    omega
  · intro t ht hlag hfront
    obtain ⟨pre, post, post', new, hturn, hk, hk0, hcrowded⟩ := hstep t ht
    have hle := hturn.settled_le
    by_cases hall : (committed ready P uninit (s + t)).length +
        (Machine.runFrom ready P uninit (s + t)).activeList.length <
          (committed ready P uninit s).length + goal
    · obtain ⟨hok, hdir, hs⟩ := hsup t ht hall
      rcases hturn.passes_supplied hs hdir (hcrowded hok) hlag with h | h | h
      · exact .inl h
      · exact .inr (.inr (.inl (by omega)))
      · exact .inr (.inr (.inr (by omega)))
    · rcases hturn.passes hlag with h | h | h
      · exact .inl h
      · exact .inr (.inr (.inl (by omega)))
      · exact .inr (.inl (by omega))

theorem committed_within {n i t : ℕ} (delay : ℕ) (hdelay : 1 ≤ delay)
    (hm : (Machine.runFrom ready P uninit (n + t)).exceptionMode = false)
    (hlag : (Machine.runFrom ready P uninit n).lag ≤
        2 * (Machine.runFrom ready P uninit n).settled + delay ∨
      (Machine.runFrom ready P uninit n).lag = 5)
    (hi : i < (Machine.runFrom ready P uninit n).activeList.length) (ht : 2 * i + delay ≤ t) :
    (committed ready P uninit n).length + i < (committed ready P uninit (n + t)).length := by
  have hflows := flows hP (Machine.runFrom ready P uninit n).activeList.length hm
    fun t' ht' hlt => by
      have hmt := mode_before hP hm (show n + t' ≤ n + t by omega)
      have hle := (length_committed_le hP hmt).2
      omega
  have hall : (Machine.runFrom ready P uninit n).lag = 5 → _ := settled_of_lag
  have hback := hflows.back_reaches hdelay (by
    simp only [Nat.add_zero, Nat.sub_self, Nat.zero_add]
    omega) hi le_rfl ht
  omega

/-- In a crowded Active List the oldest entry that is not settled is about to be. -/
theorem lag_crowded {n : ℕ} (hm : (Machine.runFrom ready P uninit (n + 2)).exceptionMode = false)
    (hl : 12 < (Machine.runFrom ready P uninit (n + 2)).activeList.length) :
    (Machine.runFrom ready P uninit (n + 2)).lag ≤
        2 * (Machine.runFrom ready P uninit (n + 2)).settled + 2 ∨
      (Machine.runFrom ready P uninit (n + 2)).lag = 5 := by
  obtain ⟨pre₁, post₁, post₁', new₁, h₁, -⟩ :=
    turn_runFrom (n := n) hP (mode_before hP hm (Nat.le_succ _))
  obtain ⟨pre₂, post₂, post₂', new₂, h₂, -⟩ := turn_runFrom (n := n + 1) hP hm
  have hfew₁ := h₁.few
  have hfew₂ := h₂.few
  have hlen := h₂.length_after
  have hfour₁ := h₁.lag_four
  have hfour₂ := h₂.lag_four
  have hthree := h₂.lag_three
  have hbounds := lag_bounds (Machine.runFrom ready P uninit (n + 2))
  simp only [Nat.add_assoc, Nat.reduceAdd] at *
  omega

end

/-- **Instructions are committed in time**: one that has `i` older ones in the Active List is
    committed, with them, in any state from `2 * i + 4` cycles on, unless an exception is raised
    by then. -/
theorem commits_within {P : Program} (hP : P.WellFormed) (ready : Bool) (uninit : ℕ → ℕ → UInt8)
    {n i t : ℕ} {p : Processor} (hp : runFrom ready P uninit n = some p)
    (hi : i < p.activeList.count) (ht : 2 * i + 4 ≤ t) :
    raised ready P uninit (n + t) ≠ [] ∨
      committed ready P uninit n ++ (p.activeList.toList.take (i + 1)).map (·.pc) <+:
        committed ready P uninit (n + t) := by
  have hal : (Machine.runFrom ready P uninit n).activeList = p.activeList.toList := by
    rw [← view_runFrom hP hp]
    rfl
  rw [raised_eq hP]
  cases hm : (Machine.runFrom ready P uninit (n + t)).exceptionMode with
  | true => exact .inl (List.cons_ne_nil _ _)
  | false =>
    right
    rw [← Fifo.length_toList, ← hal] at hi
    have hlag : (Machine.runFrom ready P uninit n).lag ≤ 5 := (lag_bounds _).2
    have hlt := committed_within hP 4 (by decide) hm (by omega) hi ht
    have hpre := committed_active hP t hm
    rw [hal, ← List.take_append_drop (i + 1) p.activeList.toList, List.map_append,
      ← List.append_assoc] at hpre
    refine List.prefix_of_prefix_length_le ((List.prefix_append _ _).trans hpre)
      (List.prefix_append _ _) ?_
    rw [List.length_append, List.length_map, List.length_take]
    omega

theorem commits_within_small : ∃ p, runFrom false smallProgram (fun _ _ => 0) 2 = some p ∧
    (raised false smallProgram (fun _ _ => 0) (2 + 8) ≠ [] ∨
      committed false smallProgram (fun _ _ => 0) 2 ++
          (p.activeList.toList.take (2 + 1)).map (·.pc) <+:
        committed false smallProgram (fun _ _ => 0) (2 + 8)) := by
  have hrun : (runFrom false smallProgram (fun _ _ => 0) 2).map (·.activeList.count) = some 3 := by
    decide +kernel
  obtain ⟨p, hp, h⟩ := Option.map_eq_some_iff.1 hrun
  exact ⟨p, hp, commits_within smallProgram_wellFormed false _ hp (i := 2) (by omega) le_rfl⟩

/-! ## Backpressure -/

/-- **Dispatch stalls exactly if less than four entries of the Active List are free**: the other
    two tests of `apply_backpressure` never decide. -/
theorem stalls_iff {P : Program} (hP : P.WellFormed) (hshort : P.Short) (ready : Bool)
    (uninit : ℕ → ℕ → UInt8) (n : ℕ) : ∃ p, runFrom ready P uninit n = some p ∧
      (applyBackpressure (atDispatch p) = true ↔ 28 < (atDispatch p).activeList.count) := by
  obtain ⟨p, hp, -⟩ := runFrom_ok hP ready uninit n
  have hinv := inv_runFrom hP hp
  have hs := hinv.safe.backEnd
  refine ⟨p, hp, ?_⟩
  have hcount : (atDispatch p).activeList.count = (view p).backEnd.activeList.length := by
    rw [← view_atDispatch hinv.safe, ← Fifo.length_toList]
    rfl
  rw [view_stalled, view_atDispatch hinv.safe, hcount]
  cases hm : (view p).commitStage.exceptionMode with
  | false => exact ((hinv.normal (mode_of_commitStage hm)).backEnd hinv.safe hm).stalled_iff hs
  | true =>
    have hr := hinv.raised_commitStage (by
      rw [show (view p).program = P from program_runFrom hP hp]
      exact hshort) hm
    rw [show (view p).backEnd = (view p).commitStage from hr.idle]
    exact hr.stalled hinv.safe.commitStage

/-- Forty instructions that wait for each other and fill the Active List. -/
def fullProgram : Program := .ofList (List.replicate 40 (.addi, 1, 1, immOperand 1)) (by decide)

theorem stalls_iff_full : ∃ p, runFrom false fullProgram (fun _ _ => 0) 12 = some p ∧
    (applyBackpressure (atDispatch p) = true ↔ 28 < (atDispatch p).activeList.count) :=
  stalls_iff (by decide) (by decide) false _ 12

/-- **Backpressure ends**: one of any eight states in a row is without it, unless an exception is
    raised by the last of them. -/
theorem backpressure_ends {P : Program} (hP : P.WellFormed) (ready : Bool)
    (uninit : ℕ → ℕ → UInt8) (n : ℕ) : raised ready P uninit (n + 8) ≠ [] ∨
      ∃ j < 8, ∃ p, runFrom ready P uninit (n + j + 1) = some p ∧ p.backpressure = false := by
  rw [raised_eq hP]
  cases hm : (Machine.runFrom ready P uninit (n + 8)).exceptionMode with
  | true => exact .inl (List.cons_ne_nil _ _)
  | false =>
    right
    by_contra hnot
    -- eight stalled cycles, which dispatch nothing
    have hstalled : ∀ j < 8, (Machine.runFrom ready P uninit (n + j)).backEnd.stalled = true := by
      intro j hj
      obtain ⟨p, hp, hv⟩ := runFrom_ok hP ready uninit (n + j + 1)
      by_contra hfree
      refine hnot ⟨j, hj, p, hp, ?_⟩
      change (view p).backpressure = false
      rw [hv, Machine.runFrom, cycle_backpressure]
      simpa using hfree
    have hcycle : ∀ j < 8, 28 + (Machine.runFrom ready P uninit (n + j)).commits <
          (Machine.runFrom ready P uninit (n + j)).activeList.length ∧
        (Machine.runFrom ready P uninit (n + (j + 1))).activeList.length +
          (Machine.runFrom ready P uninit (n + j)).commits =
            (Machine.runFrom ready P uninit (n + j)).activeList.length := by
      intro j hj
      have hst := hstalled j hj
      obtain ⟨pre, post, post', new, ht, hcrowded, hnew⟩ := turn_runFrom hP (mode_before hP hm
        (show n + j + 1 ≤ n + 8 by omega))
      have hok : (Machine.runFrom ready P uninit (n + j)).dispatches (uninit (n + j)) = true := by
        rw [Machine.dispatches, Machine.dispatchStage, if_pos hst]
      have hlen := ht.length_after
      rw [hnew hok, if_pos hst] at hlen
      have hlt := hcrowded.1 hst
      exact ⟨by omega, hlen⟩
    have hsame : ∀ j ≤ 8, (committed ready P uninit (n + j)).length +
        (Machine.runFrom ready P uninit (n + j)).activeList.length =
          (committed ready P uninit n).length +
            (Machine.runFrom ready P uninit n).activeList.length := by
      intro j
      induction j with
      | zero => exact fun _ => rfl
      | succ j ih =>
        intro hj
        have hk : (committed ready P uninit (n + j + 1)).length = _ :=
          length_committed_succ hP (n + j)
        have hlen := (hcycle j hj).2
        have := ih (by omega)
        rw [← Nat.add_assoc n j 1] at hlen ⊢
        omega
    -- the four oldest entries of the first state are committed in the meantime
    obtain ⟨k, rfl⟩ : ∃ k, n = k + 2 := by
      have h0 := (hcycle 0 (by decide)).1
      rcases n with _ | _ | n
      · exact absurd h0 (Nat.not_lt_zero _)
      · obtain ⟨pre, post, post', new, ht, -⟩ :=
          turn_runFrom (n := 0) hP (mode_before hP hm (by omega))
        have hfew := ht.few
        have hlen := ht.length_after
        have hnil : (Machine.runFrom ready P uninit 0).activeList.length = 0 := rfl
        simp only [Nat.zero_add, Nat.add_zero] at h0 hlen
        omega
      · exact ⟨n, rfl⟩
    have h0 := (hcycle 0 (by decide)).1
    rw [Nat.add_zero] at h0
    have hfour := committed_within (i := 3) (t := 8) hP 2 (by decide) hm
      (lag_crowded hP (mode_before hP hm (Nat.le_add_right _ 8)) (by omega)) (by omega) (by decide)
    have hlast := (hcycle 7 (by decide)).1
    have hk : (committed ready P uninit (k + 2 + 8)).length = _ :=
      length_committed_succ hP (k + 2 + 7)
    have h7 := hsame 7 (by decide)
    have hroom : (Machine.runFrom ready P uninit (k + 2)).activeList.length ≤ 32 := by
      have := (Safe.runFrom hP ready uninit (k + 2)).length_eq
      omega
    omega

/-- The first seven of these states are with backpressure. -/
theorem backpressure_ends_full : raised false fullProgram (fun _ _ => 0) (12 + 8) ≠ [] ∨
    ∃ j < 8, ∃ p, runFrom false fullProgram (fun _ _ => 0) (12 + j + 1) = some p ∧
      p.backpressure = false :=
  backpressure_ends (by decide) false _ 12

/-! ## Latency -/

theorem done_of_left {p : Processor} (hinv : Inv (view p)) (hm : p.exceptionMode = false) {j : ℕ}
    (hj : j ∈ committedPcs p ++ raisedPcs p) :
    ∃ e ∈ (view p).activeList, e.isDone = true ∧ e.pc = j := by
  have hm' : (view p).exceptionMode = false := hm
  obtain ⟨c, -, hcl, hcd, hret, hcase⟩ := (hinv.normal hm').commitStage
  have hcommits : (view p).commits = c := by
    refine commits_eq hm' hcl ?_
    rcases hcase with ⟨hq, -⟩ | ⟨-, e, -, -, -, hq, -⟩
    · rw [hq]
      rfl
    · rw [hq]
      rfl
  rcases List.mem_append.1 hj with hj | hj
  · rw [committedPcs_eq hinv.safe, hcommits] at hj
    obtain ⟨e, he, rfl⟩ := List.mem_map.1 hj
    exact ⟨e, List.mem_of_mem_take he, (hcd e he).1, rfl⟩
  · rw [raisedPcs_eq hinv.safe, hm', if_neg Bool.false_ne_true] at hj
    rcases hcase with ⟨hq, -⟩ | ⟨-, e, he, hd, -, hq, -⟩
    · rw [hq, hret.mode, if_neg Bool.false_ne_true] at hj
      cases hj
    · rw [hq] at hj
      exact ⟨e, List.mem_of_getElem? he, hd, (List.mem_singleton.1 hj).symm⟩

section
variable {ready : Bool} {P : Program} {uninit : ℕ → ℕ → UInt8} (hP : P.WellFormed)
include hP

theorem pc_succ {n : ℕ} (hm : (Machine.runFrom ready P uninit (n + 1)).exceptionMode = false) :
    (Machine.runFrom ready P uninit n).pc ≤ (Machine.runFrom ready P uninit (n + 1)).pc ∧
      (Machine.runFrom ready P uninit (n + 1)).pc ≤
        (Machine.runFrom ready P uninit n).pc + 4 := by
  have hinv := Inv.runFrom hP ready uninit n
  have hmode := mode_atCommit hm
  exact (hinv.normal (mode_of_commitStage hmode)).cycle_pc (uninit n) hmode

theorem pc_mono {n : ℕ} (hm : (Machine.runFrom ready P uninit n).exceptionMode = false) {j : ℕ}
    (hj : j ≤ n) :
    (Machine.runFrom ready P uninit j).pc ≤ (Machine.runFrom ready P uninit n).pc := by
  induction n, hj using Nat.le_induction with
  | base => exact le_rfl
  | succ n _ ih => exact (ih (mode_before hP hm (Nat.le_succ n))).trans (pc_succ hP hm).1

theorem pc_le_four : ∀ n, (Machine.runFrom ready P uninit n).exceptionMode = false →
    (Machine.runFrom ready P uninit n).pc ≤ 4 * n
  | 0, _ => le_rfl
  | n + 1, hm => by
    have ih := pc_le_four n (mode_before hP hm (Nat.le_succ n))
    have hle := (pc_succ hP hm).2
    omega

theorem staged_runFrom : ∀ n, (Machine.runFrom ready P uninit n).exceptionMode = false →
    Staged (fun i => (Machine.runFrom ready P uninit (n - i)).pc) (.runFrom ready P uninit n)
  | 0, _ => by
    constructor
    all_goals
      intro e he
      cases he
  | n + 1, hm => by
    have hm0 := mode_before hP hm (Nat.le_succ n)
    have hinv := Inv.runFrom hP ready uninit n
    have hmode := mode_atCommit hm
    refine (hinv.normal hm0).staged (uninit n) hinv.safe hmode ?_ ?_ le_rfl (staged_runFrom n hm0)
    · intro i
      exact pc_mono hP (mode_before hP hm0 (Nat.sub_le n i)) (by omega)
    · intro i
      rw [Nat.add_sub_add_right]

theorem done_before : ∀ n, ∀ j ∈ committed ready P uninit n ++ raised ready P uninit n,
    ∃ n' < n, (Machine.runFrom ready P uninit n').exceptionMode = false ∧
      ∃ e ∈ (Machine.runFrom ready P uninit n').activeList, e.isDone = true ∧ e.pc = j
  | 0, j, hj => by cases hj
  | n + 1, j, hj => by
    obtain ⟨p, hp, hv⟩ := runFrom_ok hP ready uninit n
    have hsplit : j ∈ committed ready P uninit n ++ raised ready P uninit n ∨
        j ∈ committedPcs p ++ raisedPcs p := by
      simp only [committed, raised, hp, Option.map_some, Option.getD_some, List.mem_append] at hj ⊢
      tauto
    rcases hsplit with hj | hj
    · obtain ⟨n', hn', h⟩ := done_before n j hj
      exact ⟨n', hn'.trans (Nat.lt_succ_self n), h⟩
    · cases hm : p.exceptionMode with
      | true =>
        rw [committedPcs, raisedPcs, if_pos hm, if_pos hm] at hj
        cases hj
      | false =>
        have hdone := done_of_left (inv_runFrom hP hp) hm hj
        rw [hv] at hdone
        refine ⟨n, Nat.lt_succ_self n, ?_, hdone⟩
        rw [← hv]
        exact hm

theorem done_fetched {n : ℕ} (hm : (Machine.runFrom ready P uninit n).exceptionMode = false)
    {e : ActiveListEntry} (he : e ∈ (Machine.runFrom ready P uninit n).activeList)
    (hd : e.isDone = true) : ∃ n', n' + 4 ≤ n ∧
      (Machine.runFrom ready P uninit n').exceptionMode = false ∧
      e.pc < (Machine.runFrom ready P uninit n').pc := by
  have hlt := (staged_runFrom hP n hm).done e he hd
  refine ⟨n - 4, ?_, mode_before hP hm (Nat.sub_le n 4), hlt⟩
  by_contra hn
  rw [Nat.sub_eq_zero_of_le (by omega)] at hlt
  exact Nat.not_lt_zero _ hlt

theorem fetched_before (n : ℕ) {j : ℕ}
    (hj : j ∈ committed ready P uninit n ++ raised ready P uninit n) :
    ∃ n', n' + 5 ≤ n ∧ (Machine.runFrom ready P uninit n').exceptionMode = false ∧
      j < (Machine.runFrom ready P uninit n').pc := by
  obtain ⟨n₁, hlt, hm, e, he, hd, rfl⟩ := done_before hP n j hj
  obtain ⟨n', hn', h⟩ := done_fetched hP hm he hd
  exact ⟨n', by omega, h⟩

end

/-- **An instruction takes five cycles at least**: one that is committed, or raises its
    exception, by the end of the next five cycles is fetched already, and at most four are
    fetched in a cycle. -/
theorem takes_five_cycles {P : Program} (hP : P.WellFormed) (hshort : P.Short) (ready : Bool)
    (uninit : ℕ → ℕ → UInt8) (n : ℕ) : ∃ p, runFrom ready P uninit n = some p ∧
      ∀ j ∈ committed ready P uninit (n + 5) ++ raised ready P uninit (n + 5),
        j < p.pc ∧ j < 4 * n := by
  obtain ⟨p, hp, hv⟩ := runFrom_ok hP ready uninit n
  refine ⟨p, hp, fun j hj => ?_⟩
  obtain ⟨n', hn', hm', hlt⟩ := fetched_before hP (n + 5) hj
  have hfour := pc_le_four hP n' hm'
  refine ⟨?_, by omega⟩
  change j < (view p).pc
  rw [hv]
  cases hm : (Machine.runFrom ready P uninit n).exceptionMode with
  | false => exact hlt.trans_le (pc_mono hP hm (by omega))
  | true =>
    have hinv := Inv.runFrom hP ready uninit n
    have hprog : (Machine.runFrom ready P uninit n).program.Short := by
      rw [runFrom_program]
      exact hshort
    rw [(hinv.raised hprog hm).pc]
    exact (hlt.trans_le (pc_le hP n' hm')).trans_le hshort

theorem takes_five_cycles_small : ∃ p, runFrom false smallProgram (fun _ _ => 0) 2 = some p ∧
    ∀ j ∈ committed false smallProgram (fun _ _ => 0) (2 + 5) ++
        raised false smallProgram (fun _ _ => 0) (2 + 5), j < p.pc ∧ j < 4 * 2 :=
  takes_five_cycles smallProgram_wellFormed smallProgram_short false _ 2

end R10000
