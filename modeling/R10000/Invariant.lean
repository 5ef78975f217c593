/-
  The invariant of the machine over whole runs.

  A machine is in the normal mode, or an exception was raised (`Raised`): the front end
  and the back end are empty and the Active List is undone from its tail.  A program that
  ends before `PC_EXCEPTION` fetches nothing there, so that it stays so.
-/
import R10000.Normal

namespace R10000

/-- An exception was raised and nothing is left in the pipeline but the Active List. -/
structure Raised (m : Machine) : Prop where
  mode : m.exceptionMode = true
  window : Window m.program m.logical m.isBusy m.activeList
  pc : m.pc = pcException
  dir : m.dir = []
  iq : m.iq = []
  stage0 : m.stage0 = []
  stage1 : m.stage1 = []

/-! ## Commit -/

/-- Commit the `c` oldest entries. -/
def Machine.retireN (m : Machine) (c : ℕ) : Machine :=
  { m with
    activeList := m.activeList.drop c
    freeList := m.freeList ++ (m.activeList.take c).map (·.oldPhyDest) }

theorem retireN_zero (m : Machine) : m.retireN 0 = m := by
  simp [Machine.retireN]

theorem retireN_succ {m : Machine} {e : ActiveListEntry} {rest : List ActiveListEntry}
    (hl : m.activeList = e :: rest) (c : ℕ) : m.retireN (c + 1) = (m.retire e rest).retireN c := by
  simp [Machine.retireN, Machine.retire, hl]

/-- **What commit does.**  It retires some entries that are done and not exceptions; it stops
    after `n` of them, at an entry that is not done, or at one whose exception it raises. -/
theorem commit_cases : ∀ (n : ℕ) (m : Machine), ∃ c ≤ n, c ≤ m.activeList.length ∧
    (∀ e ∈ m.activeList.take c, e.isDone = true ∧ e.isException = false) ∧
    (m.commit n = m.retireN c ∧ (c = n ∨ ∀ e ∈ m.activeList[c]?, e.isDone = false) ∨
      c < n ∧ ∃ e, m.activeList[c]? = some e ∧ e.isDone = true ∧ e.isException = true ∧
        m.commit n = (m.retireN c).raise e)
  | 0, m => ⟨0, le_rfl, Nat.zero_le _, by simp, .inl ⟨(retireN_zero m).symm, .inl rfl⟩⟩
  | n + 1, m => by
    unfold Machine.commit
    split
    · next hl =>
      exact ⟨0, Nat.zero_le _, Nat.zero_le _, by simp,
        .inl ⟨(retireN_zero m).symm, .inr (by simp [hl])⟩⟩
    · next e rest hl =>
      split_ifs with hd he
      · exact ⟨0, Nat.zero_le _, Nat.zero_le _, by simp,
          .inl ⟨(retireN_zero m).symm, .inr (by simpa [hl] using hd)⟩⟩
      · refine ⟨0, Nat.zero_le _, Nat.zero_le _, by simp, .inr ⟨Nat.succ_pos _, e, ?_⟩⟩
        exact ⟨by simp [hl], by simpa using hd, he, by rw [retireN_zero]⟩
      · obtain ⟨c, h1, h2, h3, h4⟩ := commit_cases n (m.retire e rest)
        refine ⟨c + 1, Nat.succ_le_succ h1, by rw [hl]; exact Nat.succ_le_succ h2, ?_, ?_⟩
        · intro e' he'
          rw [hl, List.take_succ_cons] at he'
          rcases List.mem_cons.1 he' with rfl | he'
          · exact ⟨by simpa using hd, by simpa using he⟩
          · exact h3 e' he'
        · rw [retireN_succ hl, hl, List.getElem?_cons_succ]
          rcases h4 with ⟨h5, h6⟩ | ⟨h5, h6⟩
          · exact .inl ⟨h5, h6.imp (congrArg (· + 1)) id⟩
          · exact .inr ⟨Nat.succ_lt_succ h5, h6⟩

section
variable {m : Machine} {todo : List Instruction}

theorem Normal.retireN : ∀ (c : ℕ) {m : Machine}, c ≤ m.activeList.length →
    (∀ e ∈ m.activeList.take c, e.isDone = true ∧ e.isException = false) → Normal todo m →
    Normal todo (m.retireN c)
  | 0, m, _, _, h => by rw [retireN_zero]; exact h
  | c + 1, m, hc, hd, h => by
    obtain ⟨e, rest, hl⟩ := List.exists_cons_of_length_pos (Nat.zero_lt_of_lt hc)
    rw [hl] at hc hd
    rw [retireN_succ hl]
    obtain ⟨h1, h2⟩ := hd e (by simp)
    exact Normal.retireN c (Nat.le_of_succ_le_succ hc)
      (fun e' he' => hd e' (by rw [List.take_succ_cons]; exact List.mem_cons_of_mem _ he'))
      (h.retire hl h1 h2)

theorem Normal.raise (h : Normal todo m) (e : ActiveListEntry) : Raised (m.raise e) :=
  ⟨rfl, h.window, rfl, rfl, rfl, rfl, rfl⟩

/-- Commit retires entries and may then raise an exception. -/
theorem Normal.commitStage (h : Normal todo m) : ∃ c ≤ 4, c ≤ m.activeList.length ∧
    (∀ e ∈ m.activeList.take c, e.isDone = true ∧ e.isException = false) ∧
    Normal todo (m.retireN c) ∧
    (m.commitStage = m.retireN c ∧ (c = 4 ∨ ∀ e ∈ m.activeList[c]?, e.isDone = false) ∨
      c < 4 ∧ ∃ e, m.activeList[c]? = some e ∧ e.isDone = true ∧ e.isException = true ∧
        m.commitStage = (m.retireN c).raise e ∧ Raised m.commitStage) := by
  rw [Machine.commitStage, if_neg (by simp [h.mode])]
  obtain ⟨c, h1, h2, h3, h4⟩ := commit_cases instructionsPerCycle m
  refine ⟨c, h1, h2, h3, h.retireN c h2 h3, ?_⟩
  rcases h4 with h4 | ⟨hlt, e, h4, h5, h6, h7⟩
  · exact .inl h4
  · exact .inr ⟨hlt, e, h4, h5, h6, h7, h7 ▸ (h.retireN c h2 h3).raise e⟩

theorem Raised.rollback (hs : Safe m) (h : Raised m) {e : ActiveListEntry}
    {rest : List ActiveListEntry} (hl : m.activeList = rest ++ [e]) :
    Raised (m.rollback e rest) := by
  have hr := hs.logDest_lt e (by simp [hl])
  have hw := h.window
  have hn := curr_nodup hs h.window
  rw [hl] at hw hn
  exact { h with window := hw.rollback hr hn (hs.logical_lt hr) }

theorem Raised.recover (n : ℕ) (hs : Safe m) (h : Raised m) : Raised (m.recover n) := by
  have hkeep := Machine.recover_induction (I := fun m => Safe m ∧ Raised m)
    (fun m e rest hl h => ⟨h.1.rollback hl, h.2.rollback h.1 hl⟩) n m ⟨hs, h⟩
  exact hkeep.2

theorem Raised.endException (h : Raised m) : Raised m.endException := by
  unfold Machine.endException
  split_ifs
  · exact { h with }
  · exact h

theorem Raised.commitStage (hs : Safe m) (h : Raised m) : Raised m.commitStage := by
  rw [Machine.commitStage, if_pos h.mode]
  exact Raised.recover _ hs.endException h.endException

/-! ## The other stages -/

/-- The stages between commit and dispatch do nothing to an empty pipeline. -/
theorem Raised.idle (h : Raised m) :
    m.executeStage.writeBackStage.issueStage = m := by
  have h1 := h.iq
  have h2 := h.stage0
  have h3 := h.stage1
  obtain ⟨pc, program, finished, status, physical, logical, freeList, isBusy, activeList, dir,
    detected, backpressure, iq, stage0, stage1, mode, ready⟩ := m
  simp only at h1 h2 h3
  subst h1 h2 h3
  rfl

theorem Raised.dispatchStage (uninit : ℕ → UInt8) (h : Raised m) :
    m.dispatchStage uninit = ({ m with backpressure := m.stalled }, true) := by
  unfold Machine.dispatchStage
  rw [h.dir]
  split_ifs with hst
  · rw [hst]
  · rw [Bool.eq_false_iff.2 hst]; rfl

/-- A cycle whose commit stage leaves an exception behind only fetches. -/
theorem cycle_of_raised (uninit : ℕ → UInt8) (h : Raised m.commitStage) :
    m.cycle uninit = { m.commitStage with backpressure := m.commitStage.stalled }.frontEnd := by
  have hb : m.backEnd = m.commitStage := h.idle
  simp only [Machine.cycle, hb, h.dispatchStage, if_true]

theorem Raised.frontEnd (hP : m.program.Short) (h : Raised m) : Raised m.frontEnd := by
  have hf : m.fetched = 0 := by
    unfold Machine.fetched
    rw [h.pc]
    unfold Program.Short at hP
    split_ifs
    · rfl
    · omega
  exact { h with
    pc := by simp only [Machine.frontEnd, Machine.fetchStage, Machine.checkFinished, hf]; exact h.pc
    dir := by
      simp only [Machine.frontEnd, Machine.fetchStage, Machine.checkFinished, hf, h.dir]
      simp }

/-- Write-back of all the instructions in the last ALU stage. -/
theorem Normal.foldl_writeBack : ∀ (l : List Instruction) {m : Machine}, Safe m →
    Normal l m → Normal [] (l.foldl Machine.writeBack m)
  | [], _, _, h => h
  | x :: l, _, hs, h => Normal.foldl_writeBack l (hs.writeBack x) (h.writeBack hs)

theorem Normal.executed (hs : Safe m) (h : Normal m.stage1 m) :
    Normal [] m.executeStage.writeBackStage :=
  Normal.foldl_writeBack _ hs.executeStage h.executeStage

/-- What dispatch leaves alone. -/
theorem dispatchLoop_frame (uninit : ℕ → UInt8) (n i : ℕ) (m : Machine) :
    ∃ dir freeList activeList logical isBusy iq, (m.dispatchLoop uninit n i).1 =
      { m with dir, freeList, activeList, logical, isBusy, iq } := by
  refine Machine.dispatchLoop_induction
    (I := fun _ m' => ∃ dir freeList activeList logical isBusy iq, m' =
      { m with dir, freeList, activeList, logical, isBusy, iq })
    (J := fun r => ∃ dir freeList activeList logical isBusy iq, r.1 =
      { m with dir, freeList, activeList, logical, isBusy, iq })
    uninit ?_ ?_ ?_ ?_ n i m ⟨_, _, _, _, _, _, rfl⟩
  · rintro n m' x dir p freeList - - ⟨d, f, al, lo, b, q, rfl⟩
    exact ⟨_, _, _, _, _, _, rfl⟩
  · exact fun m' h => h
  · rintro n m' x dir - ⟨d, f, al, lo, b, q, rfl⟩
    exact ⟨_, _, _, _, _, _, rfl⟩
  · exact fun n m' h => h

theorem dispatchStage_frame (uninit : ℕ → UInt8) (m : Machine) :
    ∃ dir freeList activeList logical isBusy iq, (m.dispatchStage uninit).1 = { m with
      backpressure := m.stalled, dir, freeList, activeList, logical, isBusy, iq } := by
  unfold Machine.dispatchStage
  split_ifs with hst
  · exact ⟨_, _, _, _, _, _, by rw [hst]⟩
  · obtain ⟨d, f, al, lo, b, q, h⟩ :=
      dispatchLoop_frame uninit m.dir.length 0 { m with backpressure := false }
    exact ⟨d, f, al, lo, b, q, by rw [h, Bool.eq_false_iff.2 hst]⟩

theorem writeBackStage_frame (m : Machine) : ∃ physical isBusy activeList,
    m.writeBackStage = { m with physical, isBusy, activeList } := by
  have hfold : ∀ (l : List Instruction) (m : Machine), ∃ physical isBusy activeList,
      l.foldl Machine.writeBack m = { m with physical, isBusy, activeList } := by
    intro l
    induction l with
    | nil => exact fun m => ⟨_, _, _, rfl⟩
    | cons x l ih =>
      intro m
      obtain ⟨ph, b, al, h⟩ := ih (m.writeBack x)
      exact ⟨ph, b, al, h⟩
  exact hfold _ m

theorem recover_frame (n : ℕ) (m : Machine) : ∃ activeList logical freeList isBusy,
    m.recover n = { m with activeList, logical, freeList, isBusy } := by
  refine Machine.recover_induction (I := fun m' => ∃ activeList logical freeList isBusy,
    m' = { m with activeList, logical, freeList, isBusy }) ?_ n m ⟨_, _, _, _, rfl⟩
  rintro m' e rest - ⟨al, lo, f, b, rfl⟩
  exact ⟨_, _, _, _, rfl⟩

/-- Recovery takes the youngest entries off the Active List. -/
theorem recover_activeList : ∀ (n : ℕ) (m : Machine),
    (m.recover n).activeList = m.activeList.take (m.activeList.length - n)
  | 0, m => by simp [Machine.recover]
  | n + 1, m => by
    unfold Machine.recover
    split
    · next hl => rw [List.getLast?_eq_none_iff.1 hl]; simp
    · next e he =>
      rw [recover_activeList n]
      simp only [Machine.rollback]
      rw [List.dropLast_eq_take, List.take_take, List.length_take]
      congr 1
      omega

theorem endException_frame (m : Machine) : ∃ isException backpressure, m.endException =
    { m with exceptionStatus := { m.exceptionStatus with isException }, backpressure } := by
  unfold Machine.endException
  split_ifs
  · exact ⟨_, _, rfl⟩
  · exact ⟨_, _, rfl⟩

/-- What the commit stage leaves alone in the exception mode. -/
theorem commitStage_frame (h : m.exceptionMode = true) :
    ∃ isException backpressure activeList logical freeList isBusy, m.commitStage = { m with
      exceptionStatus := { m.exceptionStatus with isException }
      backpressure, activeList, logical, freeList, isBusy } := by
  rw [Machine.commitStage, if_pos h]
  obtain ⟨al, lo, f, b, h1⟩ := recover_frame instructionsPerCycle m.endException
  obtain ⟨e, bp, h2⟩ := endException_frame m
  exact ⟨e, bp, al, lo, f, b, by rw [h1, h2]⟩

/-! ## One cycle -/

/-- The exception flags and the program are as the commit stage left them. -/
theorem cycle_frame (uninit : ℕ → UInt8) (m : Machine) :
    (m.cycle uninit).exceptionMode = m.commitStage.exceptionMode ∧
      (m.cycle uninit).exceptionStatus = m.commitStage.exceptionStatus ∧
      (m.cycle uninit).program = m.commitStage.program := by
  obtain ⟨d, f, al, lo, b, q, h1⟩ := dispatchStage_frame uninit m.backEnd
  obtain ⟨ph, b', al', h2⟩ := writeBackStage_frame m.commitStage.executeStage
  have hb : m.backEnd.exceptionMode = m.commitStage.exceptionMode ∧
      m.backEnd.exceptionStatus = m.commitStage.exceptionStatus ∧
      m.backEnd.program = m.commitStage.program := by
    rw [Machine.backEnd, h2]; exact ⟨rfl, rfl, rfl⟩
  simp only [Machine.cycle]
  split_ifs
  · simp only [Machine.frontEnd, Machine.checkFinished, Machine.fetchStage, h1]; exact hb
  · rw [h1]; exact hb

/-- The exception mode is never left. -/
theorem commitStage_mode (h : m.exceptionMode = true) : m.commitStage.exceptionMode = true := by
  obtain ⟨e, bp, al, lo, f, b, hc⟩ := commitStage_frame h
  rw [hc]
  exact h

theorem mode_of_commitStage (h : m.commitStage.exceptionMode = false) :
    m.exceptionMode = false := by
  by_contra hm
  rw [commitStage_mode (by simpa using hm)] at h
  cases h

theorem commitStage_program (m : Machine) : m.commitStage.program = m.program := by
  cases hm : m.exceptionMode with
  | true =>
    obtain ⟨e, bp, al, lo, f, b, hc⟩ := commitStage_frame hm
    rw [hc]
  | false =>
    rw [Machine.commitStage, if_neg (by simp [hm])]
    obtain ⟨c, -, -, -, ⟨h, -⟩ | ⟨-, e, -, -, -, h⟩⟩ := commit_cases instructionsPerCycle m
    · rw [h]
      rfl
    · rw [h]
      rfl

/-- Without an exception the stages before dispatch stay in the normal mode. -/
theorem Normal.backEnd (hs : Safe m) (h : Normal m.stage1 m)
    (hm : m.commitStage.exceptionMode = false) : Normal m.backEnd.stage1 m.backEnd := by
  obtain ⟨c, -, -, -, hn, ⟨hc, -⟩ | ⟨-, e, -, -, -, -, hr⟩⟩ := h.commitStage
  · have hs₁ := hs.commitStage
    rw [Machine.backEnd]
    rw [hc] at hs₁ ⊢
    exact (Normal.executed hs₁ hn).issueStage
  · rw [hr.mode] at hm
    cases hm

/-- A cycle stays in the normal mode or raises an exception. -/
theorem Normal.cycle (uninit : ℕ → UInt8) (hs : Safe m) (h : Normal m.stage1 m) :
    Normal (m.cycle uninit).stage1 (m.cycle uninit) ∨ Raised m.commitStage := by
  obtain ⟨c, -, -, -, hn, ⟨hc, -⟩ | ⟨-, e, -, -, -, -, hr⟩⟩ := h.commitStage
  · left
    have hb := h.backEnd hs (by rw [hc]; exact hn.mode)
    have hsb := hs.backEnd
    have hd := hb.dispatchStage uninit hsb hsb.stage1_ok
    have hsd := hsb.dispatchStage uninit
    obtain ⟨d, f, al, lo, b, q, hframe⟩ := dispatchStage_frame uninit m.backEnd
    have hst : (m.backEnd.dispatchStage uninit).1.stage1 = m.backEnd.stage1 := by rw [hframe]
    rw [← hst] at hd
    simp only [Machine.cycle]
    split_ifs
    · exact { hd.fetchStage hsd.program_ok with }
    · exact hd
  · exact .inr hr

/-! ## Runs -/

/-- What holds in every state of a run: with a fault behind it, only of programs that end before the
    exception handler. -/
structure Inv (m : Machine) : Prop where
  safe : Safe m
  normal : m.exceptionMode = false → Normal m.stage1 m
  raised : m.program.Short → m.exceptionMode = true → Raised m

theorem Inv.cycle (uninit : ℕ → UInt8) (h : Inv m) : Inv (m.cycle uninit) := by
  obtain ⟨hmode, -, hprog⟩ := cycle_frame uninit m
  refine ⟨h.safe.cycle uninit, fun hm => ?_, fun hP hm => ?_⟩
  · rw [hmode] at hm
    rcases (h.normal (mode_of_commitStage hm)).cycle uninit h.safe with hn | hr
    · exact hn
    · rw [hr.mode] at hm; cases hm
  · rw [hprog, commitStage_program] at hP
    have hr : Raised m.commitStage := by
      cases hm0 : m.exceptionMode with
      | true => exact (h.raised hP hm0).commitStage h.safe
      | false =>
        rcases (h.normal hm0).cycle uninit h.safe with hn | hr
        · rw [hn.mode] at hm; cases hm
        · exact hr
    rw [cycle_of_raised uninit hr]
    have hr' : Raised { m.commitStage with backpressure := m.commitStage.stalled } := { hr with }
    exact hr'.frontEnd (by rw [commitStage_program]; exact hP)

end

theorem Window.initial (program : Program) :
    Window program (Machine.initial program false).logical
      (Machine.initial program false).isBusy [] where
  linked := trivial
  current := rfl
  order := .nil
  program_dest := by simp
  flag := by simp
  busy := by
    intro p hp
    simp [Machine.initial, rd, hp]

theorem Inv.initial {P : Program} (hP : P.WellFormed) (ready : Bool) :
    Inv (.initial P ready) where
  safe := .initial hP ready
  normal := fun _ => {
    mode := rfl
    status := rfl
    window := .initial P
    order := .nil
    below := by simp [Machine.pcs, Machine.initial]
    dir_program := by simp [Machine.initial]
    flight := .refl _
    tracked := by simp [Machine.flight, Machine.initial]
    captured := by simp [Machine.initial]
    iq_captured := by simp [Machine.initial]
    iq_order := .nil }
  raised := fun _ h => by cases h

theorem Inv.runFrom {P : Program} (hP : P.WellFormed) (ready : Bool) (uninit : ℕ → ℕ → UInt8) :
    ∀ n, Inv (.runFrom ready P uninit n)
  | 0 => .initial hP ready
  | n + 1 => (Inv.runFrom hP ready uninit n).cycle (uninit n)

end R10000
