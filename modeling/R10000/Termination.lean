/-
  Every run of the machine ends.

  `work` counts what is left to do for each instruction of the program: to be fetched,
  dispatched, issued, passed through the two ALU stages, written back and committed.  A
  cycle in the normal mode does some of it, unless nothing is left: the oldest
  instruction in the queue reads committed registers only, so that it never waits.
  After an exception the Active List shrinks until it is empty.
-/
import R10000.Invariant

namespace R10000

/-- What is left to do: six steps for an instruction that is not fetched, one for each that
    waits for its commit.  Every entry that is not done is in the queue or in an ALU. -/
def Machine.work (m : Machine) : ℕ :=
  6 * (m.program.count - m.pc) + 5 * m.dir.length + 3 * m.iq.length + 2 * m.stage0.length +
    m.stage1.length + m.activeList.length

/-! ## The work of the stages -/

section
variable {m : Machine}

theorem work_retireN {c : ℕ} (hc : c ≤ m.activeList.length) :
    (m.retireN c).work + c = m.work := by
  simp only [Machine.work, Machine.retireN, List.length_drop]
  omega

theorem work_writeBackStage (m : Machine) :
    m.executeStage.writeBackStage.work = m.work ∧
      m.executeStage.writeBackStage.stage0 = m.stage0 ∧
      m.executeStage.writeBackStage.stage1.length = m.stage1.length := by
  have hlen : m.executeStage.writeBackStage.activeList.length = m.activeList.length := by
    have hfold : ∀ (l : List Instruction) (m : Machine),
        (l.foldl Machine.writeBack m).activeList.length = m.activeList.length := by
      intro l
      induction l with
      | nil => exact fun m => rfl
      | cons x l ih =>
        intro m
        have h1 := congrArg List.length
          (complete_map (·.pc) (fun _ => rfl) (fun _ => rfl) x m.activeList)
        simp only [List.length_map] at h1
        exact (ih (m.writeBack x)).trans h1
    exact hfold _ _
  obtain ⟨ph, b, al, hw⟩ := writeBackStage_frame m.executeStage
  rw [hw] at hlen ⊢
  simp only at hlen
  simp only [Machine.work, Machine.executeStage, List.length_map, hlen]
  simp

theorem work_issueStage (m : Machine) : m.issueStage.work +
    ((select numAlus (m.iq.map m.refresh)).1.length + m.stage0.length + m.stage1.length) =
      m.work := by
  have hlen := (select_perm numAlus (m.iq.map m.refresh)).length_eq
  simp only [List.length_append, List.length_map] at hlen
  simp only [Machine.work, Machine.issueStage, List.length_map]
  omega

theorem work_dispatchLoop (uninit : ℕ → UInt8) : ∀ (n i : ℕ) (m : Machine),
    (m.dispatchLoop uninit n i).2 = true → (m.dispatchLoop uninit n i).1.work + n = m.work
  | 0, _, _, _ => rfl
  | n + 1, i, m, h => by
    unfold Machine.dispatchLoop at h ⊢
    split at h
    · next x dir p freeList hd hf =>
      split_ifs at h ⊢
      have ih := work_dispatchLoop uninit n (i + 1) _ h
      have hone : (m.dispatch x dir p freeList).work + 1 = m.work := by
        simp only [Machine.work, Machine.dispatch, Machine.allocate, hd, List.length_cons,
          List.length_append, List.length_nil]
        omega
      omega
    · cases h

theorem work_dispatchStage {uninit : ℕ → UInt8} (h : (m.dispatchStage uninit).2 = true) :
    (m.dispatchStage uninit).1.work + (if m.stalled then 0 else m.dir.length) = m.work := by
  unfold Machine.dispatchStage at h ⊢
  split_ifs at h ⊢
  · rfl
  · exact work_dispatchLoop uninit _ 0 { m with backpressure := false } h

theorem work_frontEnd (m : Machine) : m.frontEnd.work + m.fetched = m.work := by
  have hle := Normal.fetched_le m
  have hlen : ((m.program.instructions.drop m.pc).take m.fetched).length = m.fetched := by
    rw [List.length_take, List.length_drop]
    exact Nat.min_eq_left hle
  simp only [Machine.work, Machine.frontEnd, Machine.fetchStage, Machine.checkFinished,
    List.length_append, hlen]
  omega

end

/-! ## Progress -/

section
variable {m : Machine} {todo : List Instruction}

theorem Normal.flight_nil (h : Normal todo m) (hl : m.activeList = []) :
    m.iq = [] ∧ m.stage0 = [] ∧ todo = [] := by
  have hf := h.flight
  rw [hl, List.filter_nil, List.map_nil, List.perm_nil, List.map_eq_nil_iff, Machine.flight,
    List.append_eq_nil_iff, List.append_eq_nil_iff, List.map_eq_nil_iff] at hf
  exact ⟨hf.1, hf.2.1, hf.2.2⟩

theorem Normal.not_stalled (hs : Safe m) (h : Normal todo m) (hl : m.activeList = []) :
    m.stalled = false := by
  have hlen := hs.length_eq
  rw [hl, List.length_nil] at hlen
  obtain ⟨hiq, -, -⟩ := h.flight_nil hl
  simp only [Machine.stalled, regLogFileSize, iqCapacity, instructionsPerCycle, hl, hiq,
    List.length_nil, Bool.or_eq_false_iff, decide_eq_false_iff_not]
  omega

theorem Normal.oldest_ready (hs : Safe m) (h : Normal todo m) {e : ActiveListEntry}
    {rest : List ActiveListEntry} (hl : m.activeList = e :: rest) {o : Operand}
    (hlt : o.type = .reg → o.logId.toNat < 32)
    (hr : Renamed m.logical m.activeList e.pc o) : m.ready o = true := by
  cases ht : o.type with
  | imm => simp [Machine.ready, ht]
  | reg =>
    have hw := h.window
    have hnone : m.activeList.filter (·.pc < e.pc) = [] := by
      rw [List.filter_eq_nil_iff]
      intro e' he'
      rw [hl] at hw he'
      simpa using hw.head_le he'
    have htag : o.phyId = archMap m.logical m.activeList o.logId := by
      rw [hr ht, mapAt, hnone]
      rfl
    have hp : o.phyId.toNat < 64 := by
      rw [htag]
      exact place_lt hs hw (.inl (List.mem_map_of_mem (mem_logRegs.2 (hlt ht))))
    have hbusy : rd m.isBusy o.phyId = false := hw.not_busy hp fun e' he' hc =>
      arch_ne_curr hs hw (hlt ht) he' (htag.symm.trans hc.symm)
    rw [hw.ready_eq ht hp, hbusy]
    rfl

/-- The oldest instruction is the first one in the queue if the ALUs are empty. -/
theorem Normal.oldest_in_iq (h : Normal [] m) (hst : m.stage0 = []) {e : ActiveListEntry}
    {rest : List ActiveListEntry} (hl : m.activeList = e :: rest) (hd : e.isDone = false) :
    ∃ en iq, m.iq = en :: iq ∧ en.instr.pc = e.pc := by
  have hflight : m.flight [] = m.iq.map (·.instr) := by
    rw [Machine.flight, hst, List.append_nil, List.append_nil]
  have hmem : e.tag ∈ (m.flight []).map Instruction.tag := by
    refine h.flight.symm.subset (List.mem_map_of_mem ?_)
    rw [hl, List.mem_filter]
    exact ⟨List.mem_cons_self, by simp [hd]⟩
  rw [hflight, List.map_map] at hmem
  obtain ⟨en', hen', htag⟩ := List.mem_map.1 hmem
  have hpc' : en'.instr.pc = e.pc := congrArg Prod.fst htag
  obtain ⟨en, iq, hiq⟩ := List.exists_cons_of_ne_nil (List.ne_nil_of_mem hen')
  refine ⟨en, iq, hiq, ?_⟩
  -- no instruction in the queue is younger than its first one, or older than the entry `e`
  have hle : en.instr.pc ≤ en'.instr.pc := by
    have ho := h.iq_order
    rw [hiq] at hen'
    rw [hiq, List.map_cons, List.pairwise_cons] at ho
    rcases List.mem_cons.1 hen' with rfl | hen'
    · exact le_rfl
    · exact (ho.1 _ (List.mem_map_of_mem hen')).le
  obtain ⟨e', he', -, hpc, -⟩ := h.entry (x := en.instr) (by rw [hflight, hiq]; simp)
  have hge : e.pc ≤ e'.pc := by
    have hw := h.window
    rw [hl] at hw he'
    exact hw.head_le he'
  omega

/-- **The head of the Active List never waits**: it is issued if the ALUs are empty. -/
theorem Normal.select_pos (hs : Safe m) (h : Normal [] m) (hst : m.stage0 = [])
    {e : ActiveListEntry} {rest : List ActiveListEntry} (hl : m.activeList = e :: rest)
    (hd : e.isDone = false) : 0 < (select numAlus (m.iq.map m.refresh)).1.length := by
  obtain ⟨en, iq, hiq, hpc⟩ := h.oldest_in_iq hst hl hd
  have hen : en ∈ m.iq := by simp [hiq]
  have hx : en.instr ∈ m.flight [] := mem_flight.2 (.inl ⟨en, hen, rfl⟩)
  obtain ⟨hok, hexc⟩ := hs.iq_ok en hen
  obtain ⟨hlt1, hlt2⟩ := Normal.operand_lt hok
  have ht := h.tracked _ hx
  have hA := h.oldest_ready hs hl (fun _ => hlt1) (hpc ▸ ht.opA)
  have hB := h.oldest_ready hs hl hlt2 (hpc ▸ ht.opB)
  have hready : iqEntryIsReady (m.refresh en) = true := by
    simp [iqEntryIsReady, Machine.refresh, hA, hB]
  have hexc' : (m.refresh en).instr.isException = false := hexc
  rw [hiq, List.map_cons]
  simp only [select, hexc', hready, if_true, Bool.false_eq_true, if_false,
    List.length_cons]
  exact Nat.succ_pos _

theorem writeBackStage_idle (h : m.stage1 = []) : m.executeStage.writeBackStage = m := by
  have hexec : m.executeStage = m := by
    obtain ⟨pc, program, finished, status, physical, logical, freeList, isBusy, activeList, dir,
      detected, backpressure, iq, stage0, stage1, mode, ready⟩ := m
    simp only at h
    subst h
    rfl
  rw [hexec, Machine.writeBackStage, h, List.foldl_nil]

theorem cycle_eq {uninit : ℕ → UInt8} (hok : m.dispatches uninit = true) :
    m.cycle uninit = (m.backEnd.dispatchStage uninit).1.frontEnd := by
  have hok' : (m.backEnd.dispatchStage uninit).2 = true := hok
  simp only [Machine.cycle, hok', if_true]

/-- **Work that is left can be done**: there is none if the ALUs are empty, the oldest entry
    is not done, no instruction is ready, and the front end holds nothing back. -/
theorem Normal.work_eq_zero (hs : Safe m) (h : Normal [] m) (hst0 : m.stage0 = [])
    (hst1 : m.stage1 = []) (hhead : ∀ e ∈ m.activeList[0]?, e.isDone = false)
    (hsel : (select numAlus (m.iq.map m.refresh)).1.length = 0)
    (hdir : m.issueStage.stalled = false → m.dir.length = 0)
    (hpc : m.issueStage.stalled = false → m.program.count ≤ m.pc) : m.work = 0 := by
  have hal : m.activeList = [] := by
    rcases hl : m.activeList with _ | ⟨e, rest⟩
    · rfl
    · have hd := hhead e (by rw [hl]; rfl)
      have := h.select_pos hs hst0 hl hd
      omega
  obtain ⟨hiq, -, -⟩ := h.flight_nil hal
  have hst : m.issueStage.stalled = false := h.issueStage.not_stalled hs.issueStage hal
  rw [Machine.work, Nat.sub_eq_zero_of_le (hpc hst), hdir hst, hal, hiq, hst0, hst1]
  rfl

/-- In the normal mode nothing is lost of the work: what a cycle does not do is left. -/
theorem Normal.work_cycle {uninit : ℕ → UInt8} (hs : Safe m) (h : Normal m.stage1 m)
    (hm : m.commitStage.exceptionMode = false) (hok : m.dispatches uninit = true) :
    (m.cycle uninit).work + (m.backEnd.dispatchStage uninit).1.fetched ≤ m.work ∧
      ((m.cycle uninit).work < m.work ∨ m.work = 0) := by
  obtain ⟨c, -, hcl, -, hret, ⟨hq, hstop⟩ | ⟨-, e, -, -, -, -, hr⟩⟩ := h.commitStage
  swap
  · rw [hr.mode] at hm
    cases hm
  have hcycle := cycle_eq hok
  have hback : m.backEnd = (m.retireN c).executeStage.writeBackStage.issueStage := by
    rw [Machine.backEnd, hq]
  have hs₁ : Safe (m.retireN c) := hq ▸ hs.commitStage
  have hs₃ : Safe (m.retireN c).executeStage.writeBackStage := hs₁.executeStage.writeBackStage
  have hn₃ : Normal [] (m.retireN c).executeStage.writeBackStage := hret.executed hs₁
  obtain ⟨hw₃, h0, h1⟩ := work_writeBackStage (m.retireN c)
  have hw₁ := work_retireN hcl
  have hw₄ := work_issueStage (m.retireN c).executeStage.writeBackStage
  have hw₅ := work_dispatchStage hok
  have hw₆ := work_frontEnd (m.backEnd.dispatchStage uninit).1
  rw [← hback, hw₃, h0, h1] at hw₄
  rw [hcycle]
  refine ⟨by omega, ?_⟩
  rw [or_iff_not_imp_left, not_lt]
  intro hle
  -- nothing was done: no commit, empty ALUs, no issue, no dispatch and no fetch
  have hc0 : c = 0 := by omega
  have hfetch : (m.backEnd.dispatchStage uninit).1.fetched = 0 := by omega
  have hs0 : m.stage0 = [] := List.length_eq_zero_iff.1 (by
    have : (m.retireN c).stage0 = m.stage0 := rfl
    rw [this] at hw₄
    omega)
  have hs1 : m.stage1 = [] := List.length_eq_zero_iff.1 (by
    have : (m.retireN c).stage1 = m.stage1 := rfl
    rw [this] at hw₄
    omega)
  subst hc0
  rw [retireN_zero] at hback hn₃ hs₃ hw₄
  rw [writeBackStage_idle hs1] at hback hn₃ hs₃ hw₄
  refine hn₃.work_eq_zero hs₃ hs0 hs1 ?_ (by omega) (fun hst => ?_) (fun hst => ?_)
  · rcases hstop with hstop | hstop
    · cases hstop
    · exact hstop
  · have hbd : m.backEnd.dir = m.dir := by rw [hback]; rfl
    rw [hback, hst, if_neg Bool.false_ne_true, ← hback, hbd] at hw₅
    omega
  · obtain ⟨d, f, al, lo, b, q, hframe⟩ := dispatchStage_frame uninit m.backEnd
    rw [hframe, hback, hst] at hfetch
    simp only [Machine.fetched, Machine.issueStage, Bool.false_eq_true, if_false,
      instructionsPerCycle] at hfetch
    omega

end

/-! ## The end of a run -/

/-- Nothing is left to do: no work, or after an exception nothing to recover. -/
def Machine.Drained (m : Machine) : Prop :=
  if m.exceptionMode then m.activeList = [] ∧ m.exceptionStatus.isException = false
  else m.work = 0

section
variable {m : Machine}

theorem commitStage_finished (m : Machine) : m.commitStage.finished = m.finished ∧
    m.commitStage.readyToFinish = m.readyToFinish := by
  cases hm : m.exceptionMode with
  | true =>
    obtain ⟨e, bp, al, lo, f, b, hc⟩ := commitStage_frame hm
    rw [hc]
    exact ⟨rfl, rfl⟩
  | false =>
    rw [Machine.commitStage, if_neg (by simp [hm])]
    obtain ⟨c, -, -, -, ⟨h, -⟩ | ⟨-, e, -, -, -, h⟩⟩ := commit_cases instructionsPerCycle m
    · rw [h]
      exact ⟨rfl, rfl⟩
    · rw [h]
      exact ⟨rfl, rfl⟩

theorem backEnd_finished (m : Machine) : m.backEnd.finished = m.finished ∧
    m.backEnd.readyToFinish = m.readyToFinish := by
  obtain ⟨ph, b', al', h⟩ := writeBackStage_frame m.commitStage.executeStage
  rw [Machine.backEnd, h]
  exact commitStage_finished m

theorem cycle_finished {uninit : ℕ → UInt8} (hok : m.dispatches uninit = true) :
    (m.cycle uninit).finished = (m.finished || m.readyToFinish) ∧
    (m.cycle uninit).readyToFinish = (m.readyToFinish ||
      ((m.backEnd.dispatchStage uninit).1.fetched = 0 && (m.cycle uninit).activeList.isEmpty &&
        !(m.cycle uninit).exceptionStatus.isException)) := by
  obtain ⟨d, f, al, lo, b, q, h⟩ := dispatchStage_frame uninit m.backEnd
  rw [cycle_eq hok, h]
  simp [Machine.frontEnd, Machine.checkFinished, Machine.fetchStage, backEnd_finished]

theorem Raised.cycle_recovers (uninit : ℕ → UInt8) (hP : m.program.Short) (h : Raised m)
    (hs : Safe m) : (m.cycle uninit).activeList = m.activeList.take (m.activeList.length - 4) ∧
      (m.cycle uninit).exceptionStatus.isException =
        (!m.activeList.isEmpty && m.exceptionStatus.isException) ∧
      (m.backEnd.dispatchStage uninit).1.fetched = 0 := by
  have hr := h.commitStage hs
  have hcommit : m.commitStage = m.endException.recover instructionsPerCycle := by
    rw [Machine.commitStage, if_pos h.mode]
  obtain ⟨e, bp, hend⟩ := endException_frame m
  have hal : m.commitStage.activeList = m.activeList.take (m.activeList.length - 4) := by
    rw [hcommit, recover_activeList, hend]
  have hback : m.backEnd = m.commitStage := hr.idle
  have hfetch : (m.backEnd.dispatchStage uninit).1.fetched = 0 := by
    have hpc := hr.pc
    have hprog : m.commitStage.program.count ≤ pcException := by
      rw [commitStage_program]; exact hP
    rw [hback, hr.dispatchStage]
    simp only [Machine.fetched, hpc]
    split_ifs
    · rfl
    · omega
  refine ⟨?_, ?_, hfetch⟩
  · rw [cycle_of_raised uninit hr]
    exact hal
  · rw [(cycle_frame uninit m).2.1, hcommit]
    obtain ⟨al, lo, f, b, hrec⟩ := recover_frame instructionsPerCycle m.endException
    rw [hrec, Machine.endException]
    split_ifs with hl
    · simp [hl]
    · simp [hl]

/-- The end test is passed only if nothing is left. -/
theorem drained_of_test {uninit : ℕ → UInt8} (hinv : Inv m) (hok : m.dispatches uninit = true)
    (hf : (m.backEnd.dispatchStage uninit).1.fetched = 0) (hl : (m.cycle uninit).activeList = [])
    (hexc : (m.cycle uninit).exceptionStatus.isException = false) : (m.cycle uninit).Drained := by
  unfold Machine.Drained
  cases hm' : (m.cycle uninit).exceptionMode with
  | true => exact ⟨hl, hexc⟩
  | false =>
    have hmode : m.commitStage.exceptionMode = false := (cycle_frame uninit m).1 ▸ hm'
    have hn := hinv.normal (mode_of_commitStage hmode)
    have hb := hn.backEnd hinv.safe hmode
    have hsb := hinv.safe.backEnd
    have hn' := (hinv.cycle uninit).normal hm'
    obtain ⟨hiq, hs0, hs1⟩ := hn'.flight_nil hl
    have hdir := Machine.dispatchStage_dir uninit hok
    obtain ⟨d, f, al, lo, b, q, hframe⟩ := dispatchStage_frame uninit m.backEnd
    -- a stalled dispatch would leave entries
    have hst : m.backEnd.stalled = false := by
      by_contra hst
      have hst' : m.backEnd.stalled = true := by simpa using hst
      have hsame : (m.backEnd.dispatchStage uninit).1.activeList = m.backEnd.activeList := by
        rw [Machine.dispatchStage, if_pos hst']
      have hnil : m.backEnd.activeList = [] := by
        rw [← hsame]
        rw [cycle_eq hok] at hl
        exact hl
      rw [hb.not_stalled hsb hnil] at hst'
      cases hst'
    have hbp : (m.backEnd.dispatchStage uninit).1.backpressure = false := by
      rw [hframe]
      exact hst
    rw [hbp] at hdir
    have hdir' : (m.backEnd.dispatchStage uninit).1.dir = [] := by simpa using hdir
    have hcount : (m.backEnd.dispatchStage uninit).1.program.count -
        (m.backEnd.dispatchStage uninit).1.pc = 0 := by
      rw [Machine.fetched, hbp] at hf
      simp only [Bool.false_eq_true, if_false, instructionsPerCycle] at hf
      omega
    rw [if_neg Bool.false_ne_true]
    rw [cycle_eq hok] at hiq hs0 hs1 hl ⊢
    simp only [Machine.work, hiq, hs0, hs1, hl]
    simp only [Machine.frontEnd, Machine.fetchStage, Machine.checkFinished, hf, hdir']
    simp [hcount]

/-- A drained machine passes the end test, and stays drained. -/
theorem Machine.Drained.cycle {uninit : ℕ → UInt8} (hinv : Inv m) (hP : m.program.Short)
    (hok : m.dispatches uninit = true) (h : m.Drained) :
    (m.backEnd.dispatchStage uninit).1.fetched = 0 ∧ (m.cycle uninit).activeList = [] ∧
      (m.cycle uninit).exceptionStatus.isException = false ∧ (m.cycle uninit).Drained := by
  have htest : (m.backEnd.dispatchStage uninit).1.fetched = 0 ∧
      (m.cycle uninit).activeList = [] ∧
      (m.cycle uninit).exceptionStatus.isException = false := by
    unfold Machine.Drained at h
    cases hm : m.exceptionMode with
    | true =>
      rw [hm, if_pos rfl] at h
      obtain ⟨h1, h2, h3⟩ := (hinv.raised hP hm).cycle_recovers uninit hP hinv.safe
      refine ⟨h3, ?_, ?_⟩
      · rw [h1, h.1]; rfl
      · rw [h2, h.1]; rfl
    | false =>
      rw [hm, if_neg Bool.false_ne_true] at h
      have hn := hinv.normal hm
      have hal : m.activeList = [] := List.length_eq_zero_iff.1 (by
        rw [Machine.work] at h
        omega)
      obtain ⟨c, -, -, -, -, ⟨hq, -⟩ | ⟨-, e, he, -⟩⟩ := hn.commitStage
      · have hmode : m.commitStage.exceptionMode = false := by rw [hq]; exact hm
        obtain ⟨hwork, -⟩ := hn.work_cycle hinv.safe hmode hok
        refine ⟨by omega, List.length_eq_zero_iff.1 ?_, ?_⟩
        · rw [Machine.work] at hwork
          omega
        · rw [(cycle_frame uninit m).2.1, hq]
          exact hn.status
      · rw [hal] at he
        cases he
  obtain ⟨h1, h2, h3⟩ := htest
  exact ⟨h1, h2, h3, drained_of_test hinv hok h1 h2 h3⟩

end

end R10000
