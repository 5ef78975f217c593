/-
  Exception recovery over whole runs: exactly when fetch and dispatch are held off, and
  exactly when the two records of the exception mode agree.
-/
import R10000.Results.Safety

namespace R10000

/-- The front end is held off in a cycle from `p` to `p'`: the backpressure is on, the
    pipeline is empty, the PC is the handler's, and the Active List only shrinks. -/
structure HeldOff (p p' : Processor) : Prop where
  backpressure : p'.backpressure = true
  dir : p'.dir.toList = []
  iq : p'.iq.toList = []
  alus : ∀ i : Fin numAlus, (p'.alus.get i).stage0.type = .unknownType ∧
    (p'.alus.get i).stage1.type = .unknownType
  pc : p'.pc = pcException
  shrinks : p'.activeList.toList.Sublist p.activeList.toList

/-- The cycle from `p` commits `c` entries and raises the exception of the next one, `e`. -/
def RaisesAt (p : Processor) (c : ℕ) (e : ActiveListEntry) : Prop :=
  p.exceptionMode = false ∧ c < 4 ∧
    (∀ e' ∈ p.activeList.toList.take c, e'.isDone = true ∧ e'.isException = false) ∧
    p.activeList.toList[c]? = some e ∧ e.isDone = true ∧ e.isException = true

/-- Nothing is left to recover, and an exception is raised only with more than 28 entries
    left. -/
structure Unrecovered (p : Processor) : Prop where
  recovered : p.exceptionMode = true → p.exceptionStatus.isException = true →
    p.activeList.toList = []
  crowded : ∀ c e, RaisesAt p c e → 28 < p.activeList.toList.length - c

/-! ## The commit stage -/

theorem raisesAt_unique {l : List ActiveListEntry} {c c' : ℕ} {e : ActiveListEntry}
    (hc : ∀ e ∈ l.take c, e.isDone = true ∧ e.isException = false)
    (he : l[c]? = some e) (hexc : e.isException = true)
    (hc' : ∀ e ∈ l.take c', e.isDone = true ∧ e.isException = false)
    (hstop : ∀ e ∈ l[c']?, e.isDone = false ∨ e.isException = true) : c = c' := by
  rcases Nat.lt_trichotomy c c' with h | h | h
  · have hmem : e ∈ l.take c' := List.mem_of_getElem? (i := c) (by
      rw [List.getElem?_take, if_pos h]; exact he)
    rw [(hc' e hmem).2] at hexc
    cases hexc
  · exact h
  · have hlt : c' < l.length := by
      have := (List.getElem?_eq_some_iff.1 he).1
      omega
    have hmem : l[c'] ∈ l.take c := List.mem_of_getElem? (i := c') (by
      rw [List.getElem?_take, if_pos h, List.getElem?_eq_getElem hlt])
    obtain ⟨h1, h2⟩ := hc _ hmem
    rcases hstop _ (by rw [List.getElem?_eq_getElem hlt]; rfl) with h3 | h3
    · rw [h1] at h3; cases h3
    · rw [h2] at h3; cases h3

theorem not_raisesAt {p : Processor} {c : ℕ}
    (hc : ∀ e ∈ p.activeList.toList.take c, e.isDone = true ∧ e.isException = false)
    (hstop : c = 4 ∨ ∀ e ∈ p.activeList.toList[c]?, e.isDone = false) (c' : ℕ)
    (e' : ActiveListEntry) : ¬ RaisesAt p c' e' := by
  rintro ⟨-, hc4', hc', he', hd', hexc'⟩
  rcases hstop with rfl | hstop
  · have hmem : e' ∈ p.activeList.toList.take 4 :=
      List.mem_of_getElem? (i := c') (by rw [List.getElem?_take, if_pos hc4']; exact he')
    rw [(hc e' hmem).2] at hexc'
    cases hexc'
  · have := raisesAt_unique hc' he' hexc' hc fun e he => .inl (hstop e he)
    subst this
    rw [hstop e' he'] at hd'
    cases hd'

section
variable {m : Machine}

theorem Raised.stalled (hs : Safe m) (h : Raised m) :
    m.stalled = true ↔ 28 < m.activeList.length := by
  have hlen := hs.length_eq
  have hiq := h.iq
  simp only [Machine.stalled, regLogFileSize, iqCapacity, instructionsPerCycle, hiq,
    List.length_nil, Bool.or_eq_true, decide_eq_true_eq]
  omega

theorem cycle_backpressure (uninit : ℕ → UInt8) (m : Machine) :
    (m.cycle uninit).backpressure = m.backEnd.stalled := by
  obtain ⟨d, f, al, lo, b, q, h⟩ := dispatchStage_frame uninit m.backEnd
  simp only [Machine.cycle]
  split_ifs
  · simp only [Machine.frontEnd, Machine.checkFinished, Machine.fetchStage, h]
  · rw [h]

theorem cycle_iq (uninit : ℕ → UInt8) (h : m.backEnd.stalled = true) :
    (m.cycle uninit).iq = m.backEnd.iq := by
  simp only [Machine.cycle, Machine.dispatchStage, h, if_true]
  rfl

theorem recovery_not_heldOff (uninit : ℕ → UInt8) (hs : Safe m) (hm : m.exceptionMode = true)
    (hl : m.activeList ≠ []) (hb : (m.cycle uninit).backpressure = true) :
    (m.cycle uninit).iq ≠ [] := by
  rw [cycle_backpressure] at hb
  rw [cycle_iq uninit hb]
  have hal : m.commitStage.activeList.length ≤ 28 := by
    have := hs.length_eq
    rw [Machine.commitStage, if_pos hm, Machine.endException, if_neg hl, recover_activeList,
      List.length_take]
    simp only [instructionsPerCycle]
    omega
  have h1 := hs.commitStage.length_eq
  have h2 := hs.backEnd.length_eq
  obtain ⟨ph, b, al, hw⟩ := writeBackStage_frame m.commitStage.executeStage
  have hf : m.backEnd.freeList = m.commitStage.freeList := by
    rw [Machine.backEnd, hw]; rfl
  rw [hf] at h2
  simp only [Machine.stalled, regLogFileSize, iqCapacity, instructionsPerCycle, hf,
    Bool.or_eq_true, decide_eq_true_eq] at hb
  intro hnil
  rw [hnil, List.length_nil] at hb
  omega

theorem raised_heldOff (uninit : ℕ → UInt8) (h : Raised m.commitStage)
    (hst : m.commitStage.stalled = true) : (m.cycle uninit).backpressure = true ∧
      (m.cycle uninit).dir = [] ∧ (m.cycle uninit).iq = [] ∧ (m.cycle uninit).stage0 = [] ∧
      (m.cycle uninit).stage1 = [] ∧ (m.cycle uninit).pc = pcException ∧
      (m.cycle uninit).activeList = m.commitStage.activeList := by
  rw [cycle_of_raised uninit h, hst]
  have h1 := h.dir
  have h2 := h.iq
  have h3 := h.stage0
  have h4 := h.stage1
  have h5 := h.pc
  simp [Machine.frontEnd, Machine.checkFinished, Machine.fetchStage, Machine.fetched,
    h1, h2, h3, h4, h5]

end

/-- In the exception mode, a cycle that ends with the flag set does not hold the front end
    off, unless the Active List was empty. -/
theorem heldOff_of_mode {p p' : Processor} {uninit : ℕ → UInt8} (hs : Safe (view p))
    (h : view p' = (view p).cycle uninit) (hm : p.exceptionMode = true) :
    (p'.exceptionStatus.isException = true → HeldOff p p') ↔ Unrecovered p := by
  have hm' : (view p).exceptionMode = true := hm
  have hcrowded : ∀ c e, RaisesAt p c e → 28 < p.activeList.toList.length - c := by
    intro c e hr
    rw [hr.1] at hm
    cases hm
  have hstatus : p'.exceptionStatus = (view p).endException.exceptionStatus := by
    have h1 : p'.exceptionStatus = ((view p).cycle uninit).exceptionStatus := by rw [← h]; rfl
    obtain ⟨al, lo, f, b, h2⟩ := recover_frame instructionsPerCycle (view p).endException
    rw [h1, (cycle_frame uninit _).2.1, Machine.commitStage, if_pos hm', h2]
  by_cases hl : p.activeList.toList = []
  · -- the flag is cleared
    have hl' : (view p).activeList = [] := hl
    rw [Machine.endException, if_pos hl'] at hstatus
    refine iff_of_true (fun hexc => ?_) ⟨fun _ _ => hl, hcrowded⟩
    rw [hstatus] at hexc
    cases hexc
  · have hl' : (view p).activeList ≠ [] := hl
    rw [Machine.endException, if_neg hl'] at hstatus
    have hflag : p'.exceptionStatus = p.exceptionStatus := hstatus
    rw [hflag]
    constructor
    · intro hheld
      refine ⟨fun _ hexc => ?_, hcrowded⟩
      have hh := hheld hexc
      have hb : ((view p).cycle uninit).backpressure = true := h ▸ hh.backpressure
      exact absurd (h ▸ hh.iq) (recovery_not_heldOff uninit hs hm' hl' hb)
    · exact fun hu hexc => absurd (hu.recovered hm hexc) hl

/-- In the normal mode, a cycle that raises an exception holds the front end off exactly if
    the Active List is crowded. -/
theorem heldOff_of_normal {p p' : Processor} {uninit : ℕ → UInt8} (hinv : Inv (view p))
    (h : view p' = (view p).cycle uninit) (hm : p.exceptionMode = false) :
    (p'.exceptionStatus.isException = true → HeldOff p p') ↔ Unrecovered p := by
  have hnormal := hinv.normal hm
  have hstatus : p'.exceptionStatus = (view p).commitStage.exceptionStatus := by
    rw [← (cycle_frame uninit _).2.1, ← h]; rfl
  have hrecovered : p.exceptionMode = true → p.exceptionStatus.isException = true →
      p.activeList.toList = [] := by
    intro h1
    rw [hm] at h1
    cases h1
  obtain ⟨c, -, -, hc, -, ⟨hq, hstop⟩ | ⟨hc4, e, he, hd, hexc, hq, hr⟩⟩ := hnormal.commitStage
  · -- nothing is raised
    have hflag : p'.exceptionStatus.isException = false := by
      rw [hstatus, hq]; exact hnormal.status
    refine iff_of_true (fun h1 => ?_) ⟨hrecovered, fun c' e' hr => ?_⟩
    · rw [hflag] at h1; cases h1
    · exact absurd hr (not_raisesAt hc hstop c' e')
  · -- the exception of the entry at `c` is raised
    have hal : (view p).commitStage.activeList = p.activeList.toList.drop c := by
      rw [hq]; rfl
    have hstall : (view p).commitStage.stalled = true ↔ 28 < p.activeList.toList.length - c := by
      rw [hr.stalled hinv.safe.commitStage, hal, List.length_drop]
    have hflag : p'.exceptionStatus.isException = true := by
      rw [hstatus, hq]; rfl
    have hcrowded : Unrecovered p ↔ 28 < p.activeList.toList.length - c := by
      constructor
      · exact fun hu => hu.crowded c e ⟨hm, hc4, hc, he, hd, hexc⟩
      · refine fun hlen => ⟨hrecovered, fun c' e' hr' => ?_⟩
        obtain ⟨-, -, hc', he', hd', hexc'⟩ := hr'
        rwa [raisesAt_unique hc' he' hexc' hc fun e₁ he₁ => .inr ?_]
        rw [Option.mem_unique he₁ he]
        exact hexc
    rw [hcrowded, ← hstall]
    constructor
    · intro hheld
      have hb : ((view p).cycle uninit).backpressure = true := h ▸ (hheld hflag).backpressure
      rw [cycle_backpressure] at hb
      rwa [show (view p).backEnd = (view p).commitStage from hr.idle] at hb
    · intro hst _
      obtain ⟨h1, h2, h3, h4, h5, h6, h7⟩ := raised_heldOff uninit hr hst
      rw [← h] at h1 h2 h3 h4 h5 h6 h7
      exact ⟨h1, h2, h3, fun i => ⟨inStage_nil.1 h4 i, inStage_nil.1 h5 i⟩, h6, by
        rw [show p'.activeList.toList = _ from h7, hal]; exact List.drop_sublist _ _⟩

theorem cycle_heldOff_iff {P : Program} (hP : P.WellFormed) (ready : Bool)
    (uninit : ℕ → ℕ → UInt8) (n : ℕ) : ∃ p p', runFrom ready P uninit n = some p ∧
      runFrom ready P uninit (n + 1) = some p' ∧
      ((p'.exceptionStatus.isException = true → HeldOff p p') ↔ Unrecovered p) := by
  obtain ⟨p, h1, -⟩ := runFrom_ok hP ready uninit n
  obtain ⟨p', -, h3, h4⟩ := runFrom_succ hP h1
  have hinv := inv_runFrom hP h1
  refine ⟨p, p', h1, h3, ?_⟩
  cases hm : p.exceptionMode with
  | true => exact heldOff_of_mode hinv.safe h4 hm
  | false => exact heldOff_of_normal hinv h4 hm

/-- **Exactly when recovery holds the front end off**, for programs of any length and any
    bytes: in every cycle of a run that ends with the exception flag set, fetch and dispatch
    are held off, if and only if no cycle of the run starts with entries left to recover or
    raises an exception with at most 28 entries left. -/
theorem heldOff_iff {P : Program} (hP : P.WellFormed) (ready : Bool) (uninit : ℕ → ℕ → UInt8)
    (n : ℕ) :
    (∀ k < n, ∃ p p', runFrom ready P uninit k = some p ∧
      runFrom ready P uninit (k + 1) = some p' ∧
      (p'.exceptionStatus.isException = true → HeldOff p p')) ↔
    ∀ k < n, ∃ p, runFrom ready P uninit k = some p ∧ Unrecovered p := by
  constructor
  · intro h k hk
    obtain ⟨p, p', h1, h2, h3⟩ := h k hk
    obtain ⟨q, q', h4, h5, h6⟩ := cycle_heldOff_iff hP ready uninit k
    rw [h1, Option.some.injEq] at h4
    rw [h2, Option.some.injEq] at h5
    subst h4 h5
    exact ⟨p, h1, h6.1 h3⟩
  · intro h k hk
    obtain ⟨p, h1, h2⟩ := h k hk
    obtain ⟨q, q', h4, h5, h6⟩ := cycle_heldOff_iff hP ready uninit k
    rw [h1, Option.some.injEq] at h4
    subst h4
    exact ⟨p, q', h1, h5, h6.2 h2⟩

theorem heldOff_iff_small :
    (∀ k < 11, ∃ p p', runFrom false smallProgram (fun _ _ => 0) k = some p ∧
      runFrom false smallProgram (fun _ _ => 0) (k + 1) = some p' ∧
      (p'.exceptionStatus.isException = true → HeldOff p p')) ↔
    ∀ k < 11, ∃ p, runFrom false smallProgram (fun _ _ => 0) k = some p ∧ Unrecovered p :=
  heldOff_iff smallProgram_wellFormed false _ 11

/-- One instruction, which divides by zero. -/
def faultProgram : Program := .ofList [(.divu, 1, 0, regOperand 0)] (by decide)

/-- The cycle that raises the exception of the only instruction ends without backpressure. -/
theorem heldOff_fails : faultProgram.WellFormed ∧
    ∃ p p', run faultProgram (fun _ _ => 0) 5 = some p ∧
      run faultProgram (fun _ _ => 0) 6 = some p' ∧ p.exceptionMode = false ∧
      p'.exceptionStatus.isException = true ∧ ¬ HeldOff p p' := by
  refine ⟨by decide, ?_⟩
  have hrun : ((run faultProgram (fun _ _ => 0) 5).map (·.exceptionMode),
      (run faultProgram (fun _ _ => 0) 6).map fun p =>
        (p.exceptionStatus.isException, p.backpressure)) =
      (some false, some (true, false)) := by
    decide +kernel
  rw [Prod.mk.injEq] at hrun
  obtain ⟨p, hp, h⟩ := Option.map_eq_some_iff.1 hrun.1
  obtain ⟨p', hp', h'⟩ := Option.map_eq_some_iff.1 hrun.2
  rw [Prod.mk.injEq] at h'
  refine ⟨p, p', hp, hp', h, h'.1, fun hheld => ?_⟩
  have := hheld.backpressure
  rw [h'.2] at this
  cases this

/-! ## The two records of the exception mode -/

/-- `commit->exception_mode` and `exception_status->is_exception` agree, so that
    `commit_cycle` recovers exactly while the status tells of an exception. -/
structure RecordsAgree (p : Processor) : Prop where
  iff : p.exceptionMode = true ↔ p.exceptionStatus.isException = true
  commit : commitCycle p =
    if p.exceptionStatus.isException then commitExceptionMode p
    else commitLoop instructionsPerCycle p

theorem recordsAgree {p : Processor} (h : p.exceptionMode = p.exceptionStatus.isException) :
    RecordsAgree p where
  iff := by rw [h]
  commit := by
    rw [← h]
    change (if p.exceptionMode then commitExceptionMode else commitLoop instructionsPerCycle) p = _
    split_ifs <;> rfl

theorem RecordsAgree.eq {p : Processor} (h : RecordsAgree p) :
    p.exceptionMode = p.exceptionStatus.isException := Bool.eq_iff_iff.2 h.iff

section
variable {m : Machine}

theorem commitStage_status (h : m.exceptionMode = true) :
    m.commitStage.exceptionStatus.isException =
      (!m.activeList.isEmpty && m.exceptionStatus.isException) := by
  rw [Machine.commitStage, if_pos h]
  obtain ⟨al, lo, f, b, hrec⟩ := recover_frame instructionsPerCycle m.endException
  rw [hrec]
  change m.endException.exceptionStatus.isException = _
  rw [Machine.endException]
  by_cases hl : m.activeList = []
  · rw [if_pos hl, hl]; rfl
  · rw [if_neg hl, List.isEmpty_eq_false_iff.2 hl, Bool.not_false, Bool.true_and]

theorem commitStage_records {todo : List Instruction} (h : Normal todo m) :
    m.commitStage.exceptionMode = m.commitStage.exceptionStatus.isException := by
  obtain ⟨c, -, -, -, hn, ⟨hc, -⟩ | ⟨-, e, -, -, -, hc, -⟩⟩ := h.commitStage
  · rw [hc, hn.mode, hn.status]
  · rw [hc]; rfl

/-- **One cycle**: records that agree do so after the cycle, unless it starts in the
    exception mode with nothing left to recover. -/
theorem cycle_records (uninit : ℕ → UInt8) (hinv : Inv m)
    (h : m.exceptionMode = m.exceptionStatus.isException) :
    (m.cycle uninit).exceptionMode = (m.cycle uninit).exceptionStatus.isException ↔
      ¬ (m.exceptionMode = true ∧ m.activeList = []) := by
  obtain ⟨hmode, hstatus, -⟩ := cycle_frame uninit m
  rw [hmode, hstatus]
  cases hm : m.exceptionMode with
  | false => exact iff_of_true (commitStage_records (hinv.normal hm)) fun h1 => by cases h1.1
  | true =>
    rw [commitStage_mode hm, commitStage_status hm, ← h, hm, Bool.and_true, eq_comm,
      Bool.not_eq_true', List.isEmpty_eq_false_iff]
    simp

end

/-- **Exactly when the two records agree**, for programs of any length and any bytes: in all
    states up to the `n`-th, if and only if none of the cycles between them starts in the
    exception mode with an empty Active List. -/
theorem records_agree_iff {P : Program} (hP : P.WellFormed) (ready : Bool)
    (uninit : ℕ → ℕ → UInt8) (n : ℕ) :
    (∀ k ≤ n, ∃ p, runFrom ready P uninit k = some p ∧ RecordsAgree p) ↔
      ∀ k < n, ∃ p, runFrom ready P uninit k = some p ∧
        ¬ (p.exceptionMode = true ∧ p.activeList.toList = []) := by
  have hstep : ∀ k p p', runFrom ready P uninit k = some p →
      runFrom ready P uninit (k + 1) = some p' → RecordsAgree p →
      (RecordsAgree p' ↔ ¬ (p.exceptionMode = true ∧ p.activeList.toList = [])) := by
    intro k p p' hp hp' hagree
    have hcycle := cycle_records (uninit k) (inv_runFrom hP hp) hagree.eq
    rw [← view_step hP hp hp'] at hcycle
    exact ⟨fun h => hcycle.1 h.eq, fun h => recordsAgree (hcycle.2 h)⟩
  constructor
  · intro h k hk
    obtain ⟨p, hp, hagree⟩ := h k hk.le
    obtain ⟨p', hp', hagree'⟩ := h (k + 1) hk
    exact ⟨p, hp, (hstep k p p' hp hp' hagree).1 hagree'⟩
  · intro h k hk
    induction k with
    | zero =>
      obtain ⟨p, h1, h2⟩ := initProcessor_ok P ready
      refine ⟨p, by rw [runFrom, h1]; rfl, recordsAgree ?_⟩
      have hmode : (view p).exceptionMode = (view p).exceptionStatus.isException := by
        rw [h2]; rfl
      exact hmode
    | succ k ih =>
      obtain ⟨p, hp, hagree⟩ := ih (Nat.le_of_succ_le hk)
      obtain ⟨q, hq, hcond⟩ := h k hk
      obtain ⟨p', hp', -⟩ := runFrom_ok hP ready uninit (k + 1)
      rw [hp, Option.some.injEq] at hq
      subst hq
      exact ⟨p', hp', (hstep k p p' hp hp' hagree).2 hcond⟩

theorem records_agree_iff_small :
    (∀ k ≤ 7, ∃ p, runFrom false faultProgram (fun _ _ => 0) k = some p ∧ RecordsAgree p) ↔
      ∀ k < 7, ∃ p, runFrom false faultProgram (fun _ _ => 0) k = some p ∧
        ¬ (p.exceptionMode = true ∧ p.activeList.toList = []) :=
  records_agree_iff (by decide) false _ 7

/-- At the end of the recovery the status is cleared and the mode is not. -/
theorem records_disagree : faultProgram.WellFormed ∧
    ∃ p, run faultProgram (fun _ _ => 0) 8 = some p ∧ p.exceptionMode = true ∧
      p.exceptionStatus.isException = false ∧ ¬ RecordsAgree p := by
  refine ⟨by decide, ?_⟩
  have hrun : (run faultProgram (fun _ _ => 0) 8).map (fun p =>
      (p.exceptionMode, p.exceptionStatus.isException)) = some (true, false) := by
    decide +kernel
  obtain ⟨p, hp, h⟩ := Option.map_eq_some_iff.1 hrun
  rw [Prod.mk.injEq] at h
  refine ⟨p, hp, h.1, h.2, fun hagree => ?_⟩
  have := hagree.eq
  rw [h.1, h.2] at this
  cases this

end R10000
