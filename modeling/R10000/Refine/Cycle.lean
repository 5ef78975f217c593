/-
  Dispatch, fetch and a whole cycle refine those of the abstract machine; runs of the
  processor are runs of the machine.
-/
import R10000.Refine.Issue

namespace R10000

open Fallible

/-! ## Dispatch -/

theorem renameOperand_ok {p : Processor} {o : Operand} (ho : o.type = .reg → o.logId.toNat < 32) :
    renameOperand p.logical o = .ok ((view p).rename o) := by
  unfold renameOperand Machine.rename
  by_cases ht : o.type = .reg
  · rw [if_neg (by simpa using ht), if_pos ht, tableGet_eq (ho ht)]; rfl
  · rw [if_pos ht, if_neg ht]

/-- The registers of a well-formed instruction are below 32. -/
theorem Instruction.OperandsFit.opB_lt {x : Instruction} (h : x.OperandsFit)
    (ht : x.opB.type = .reg) : x.opB.logId.toNat < 32 := by
  have := h.opB
  split_ifs at this
  · rw [ht] at this; cases this
  · exact this.2

section
variable {p : Processor} {x : Instruction} {dir : List Instruction} {uninit : UInt8}

theorem dispatchIteration_sim (hs : Safe (view p)) (hd : p.dir.toList = x :: dir) {q : UInt8}
    {freeList : List UInt8} (hf : p.freeList.toList = q :: freeList)
    (hiq : p.iq.toList.length < 32) (hu : uninit.toNat < 64) :
    Sim view (dispatchIteration uninit) p () ((view p).dispatch x dir q freeList) := by
  have hx : x.WellFormed := hs.dir_ok x (by simp [view, hd])
  have hq : q.toNat < 64 := hs.free_lt (by simp [view, hf])
  have hlen := hs.length_eq
  simp only [view, hf, List.length_cons] at hlen
  obtain ⟨d, hd1, hd2⟩ := Fifo.pop_ok hd
  obtain ⟨f, hf1, hf2⟩ := freeListPop_ok hf hu
  obtain ⟨l, hl1, hl2⟩ := activeListPush_ok (q := p.activeList) (by omega)
    ⟨false, false, x.dest.logId, rd p.logical x.dest.logId, q, x.pc⟩
  -- the processor after the allocation of the destination
  let p' : Processor := { p with
    dir := d
    freeList := f
    activeList := l
    logical := wr p.logical x.dest.logId q
    isBusy := wr p.isBusy q true }
  have hv : view p' = (view p).allocate x dir q freeList := by
    simp only [p', view, Machine.allocate, hd2, hf2, hl2]
  have hfl := hs.renamed hx hq
  have hA : ((view p).rename x.opA).type = .reg → ((view p).rename x.opA).phyId.toNat < 64 :=
    fun _ => hfl.opA_lt
  have hB : ((view p).rename x.opB).type = .reg → ((view p).rename x.opB).phyId.toNat < 64 :=
    hfl.opB_lt
  have ha := isOperandReady_ok (p := p') hA
  have hb := isOperandReady_ok (p := p') hB
  have hca := captureOperand_ok (p := p') hA
  have hcb := captureOperand_ok (p := p') hB
  rw [hv] at ha hb hca hcb
  simp only [p'] at ha hb hca hcb
  obtain ⟨i, hi1, hi2⟩ := Fifo.push_ok hiq
    (((view p).allocate x dir q freeList).refresh ⟨{ x with
      dest := { x.dest with phyId := q }
      opA := (view p).rename x.opA
      opB := (view p).rename x.opB }, false, false⟩)
  refine ⟨{ p' with iq := i }, ?_, ?_⟩
  · simp only [Machine.refresh] at hi1
    simp [dispatchIteration, hd1, renameOperand_ok (p := p) fun _ => hx.fit.opA.2,
      renameOperand_ok (p := p) hx.fit.opB_lt, tableGet_eq hx.fit.dest.2, hf1, hl1,
      tableSet_eq hx.fit.dest.2, tableSet_eq hq, ha, hb, hca, hcb, iqEnqueue, hi1, Except.map, p']
  · rw [show view { p' with iq := i } = { view p' with iq := i.toList } from rfl, hv, hi2]
    rfl

/-- The instruction is gone from the DIR when `free_list_pop` fails. -/
theorem dispatchIteration_fails (hs : Safe (view p)) (hd : p.dir.toList = x :: dir)
    (hu : ¬ uninit.toNat < 64) :
    Fails view (dispatchIteration uninit) p (.err .invalidPhyReg) { view p with dir } := by
  have hx : x.WellFormed := hs.dir_ok x (by simp [view, hd])
  obtain ⟨d, hd1, hd2⟩ := Fifo.pop_ok hd
  refine ⟨{ p with dir := d }, ?_, by rw [← hd2]; rfl⟩
  simp [dispatchIteration, hd1, renameOperand_ok (p := p) fun _ => hx.fit.opA.2,
    renameOperand_ok (p := p) hx.fit.opB_lt, tableGet_eq hx.fit.dest.2, freeListPop_uninit hu]

end

/-- A program ends as the machine does: it returns, or stops with `ERR_INVALID_PHY_REG`. -/
def Ends (m : ProcM Unit) (p : Processor) (r : Machine × Bool) : Prop :=
  if r.2 then Sim view m p () r.1 else Fails view m p (.err .invalidPhyReg) r.1

theorem Ends.prepend {m : ProcM Unit} {f : Unit → ProcM Unit} {p : Processor} {t : Machine}
    {r : Machine × Bool} (h : Sim view m p () t) (hf : ∀ p', view p' = t → Ends (f ()) p' r) :
    Ends (m >>= f) p r := by
  unfold Ends at *
  split_ifs with hr
  · exact h.bind fun p' hp' => by simpa [hr] using hf p' hp'
  · exact h.bind_fails fun p' hp' => by simpa [hr] using hf p' hp'

theorem dispatchLoop_ends (uninit : ℕ → UInt8) : ∀ (n i : ℕ) (p : Processor), Safe (view p) →
    n ≤ p.dir.toList.length → n ≤ p.freeList.toList.length → p.iq.toList.length + n ≤ 32 →
    Ends (dispatchLoop uninit n i) p ((view p).dispatchLoop uninit n i)
  | 0, _, p, _, _, _, _ => ⟨p, rfl, rfl⟩
  | n + 1, i, p, hs, hd, hf, hq => by
    obtain ⟨x, dir, hx⟩ := List.exists_cons_of_length_pos (Nat.zero_lt_of_lt hd)
    obtain ⟨q, freeList, hfr⟩ := List.exists_cons_of_length_pos (Nat.zero_lt_of_lt hf)
    have hx' : (view p).dir = x :: dir := hx
    have hfr' : (view p).freeList = q :: freeList := hfr
    rw [Machine.dispatchLoop]
    simp only [hx', hfr', regPhyFileSize]
    by_cases hu : (uninit i).toNat < 64
    · rw [if_pos hu]
      refine .prepend (dispatchIteration_sim hs hx hfr (by omega) hu) fun p' hp' => ?_
      have hs' := hp' ▸ hs.dispatch hx' hfr' (by simp only [view]; omega)
      have h1 := congrArg (·.dir.length) hp'
      have h2 := congrArg (·.freeList.length) hp'
      have h3 := congrArg (·.iq.length) hp'
      simp only [view, Machine.dispatch, Machine.allocate, List.length_append,
        List.length_singleton] at h1 h2 h3
      rw [hx, List.length_cons] at hd
      rw [hfr, List.length_cons] at hf
      rw [← hp']
      exact dispatchLoop_ends uninit n (i + 1) p' hs' (by omega) (by omega) (by omega)
    · rw [if_neg hu, Ends, if_neg Bool.false_ne_true]
      simp only [← hfr']
      exact Fails.bind (f := fun _ => dispatchLoop uninit n (i + 1))
        (dispatchIteration_fails hs hx hu)

theorem view_stalled (p : Processor) : applyBackpressure p = (view p).stalled := by
  simp only [applyBackpressure, Machine.stalled, view, Fifo.length_toList]

theorem renameDispatchCycle_ends {p : Processor} (hs : Safe (view p)) (uninit : ℕ → UInt8) :
    Ends (renameDispatchCycle uninit) p ((view p).dispatchStage uninit) := by
  have hst := view_stalled p
  unfold Machine.dispatchStage
  cases hb : (view p).stalled with
  | true =>
    refine ⟨{ p with backpressure := true }, ?_, rfl⟩
    simp [renameDispatchCycle, hst, hb]
  | false =>
    obtain ⟨h1, -, h3⟩ := hs.room hb
    have h := dispatchLoop_ends uninit p.dir.count 0 { p with backpressure := false }
      (hs.setBackpressure false) (by simp) (by simpa [view] using h1) (by simpa [view] using h3)
    have hlen : (view p).dir.length = p.dir.count := Fifo.length_toList _
    have he : renameDispatchCycle uninit p =
        dispatchLoop uninit p.dir.count 0 { p with backpressure := false } := by
      simp [renameDispatchCycle, hst, hb]
    simp only [Bool.false_eq_true, if_false, hlen]
    unfold Ends Sim Fails at h ⊢
    rw [he]
    exact h

/-! ## Fetch -/

theorem fetchLoop_ok (pc : ℕ) : ∀ (n i : ℕ) (p : Processor), p.dir.toList.length + n ≤ 4 →
    n ≤ p.program.count - (pc + i) → ∃ d, fetchLoop pc n i p = .ok (i + n) { p with dir := d } ∧
      d.toList = p.dir.toList ++ (p.program.instructions.drop (pc + i)).take n
  | 0, i, p, _, _ => ⟨p.dir, rfl, by simp⟩
  | n + 1, i, p, hd, hc => by
    have hlt : pc + i < p.program.instructions.length := by
      simp only [Program.count] at hc; omega
    have hsz : sizeAdd pc i = pc + i := sizeAdd_eq (by have := p.program.count_lt; omega)
    obtain ⟨d, hd1, hd2⟩ := Fifo.push_ok (q := p.dir)
      (show p.dir.toList.length < 4 by omega) p.program.instructions[pc + i]
    obtain ⟨d', h1, h2⟩ := fetchLoop_ok pc n (i + 1) { p with dir := d }
      (by simp only [hd2, List.length_append, List.length_singleton]; omega)
      (by simp only; omega)
    refine ⟨d', ?_, ?_⟩
    · simp only [fetchLoop, get_bind, hsz, List.getElem?_eq_getElem hlt, hd1, modify_bind, h1]
      congr 1
      omega
    · rw [h2, List.drop_eq_getElem_cons hlt, List.take_succ_cons]
      simp only [hd2, List.append_assoc, List.singleton_append, Nat.add_assoc]

theorem fetchDecodeCycle_sim {p : Processor} (hs : Safe (view p))
    (hd : p.backpressure = true ∨ p.dir.toList = []) :
    Sim view fetchDecodeCycle p (view p).fetched (view p).fetchStage := by
  have hx : p.exceptionDetected = false := hs.detected
  unfold Machine.fetchStage
  cases hb : p.backpressure with
  | true =>
    have hf : (view p).fetched = 0 := by simp [Machine.fetched, view, hb]
    refine ⟨p, ?_, ?_⟩
    · rw [hf]; simp [fetchDecodeCycle, hx, hb]
    · rw [hf, List.take_zero, List.append_nil, Nat.add_zero]
  | false =>
    have hdir : p.dir.toList = [] := by simpa [hb] using hd
    have hf : (view p).fetched = min 4 (p.program.count - p.pc) := by
      simp [Machine.fetched, view, hb]
    have hn : min instructionsPerCycle
        (if p.pc < p.program.count then p.program.count - p.pc else 0) = (view p).fetched := by
      rw [hf]; simp only [instructionsPerCycle]; split_ifs <;> omega
    obtain ⟨d, h1, h2⟩ := fetchLoop_ok p.pc (view p).fetched 0 p
      (by rw [hdir, hf, List.length_nil]; omega) (by rw [hf]; omega)
    rw [Nat.zero_add] at h1
    rw [Nat.add_zero] at h2
    have hpc : (view p).fetched > 0 → sizeAdd p.pc (view p).fetched = p.pc + (view p).fetched :=
      fun h => sizeAdd_eq (by
        have := p.program.count_lt
        simp only [Program.count] at hf
        omega)
    refine ⟨{ p with dir := d, pc := p.pc + (view p).fetched }, ?_, ?_⟩
    · simp only [fetchDecodeCycle, get_bind, hx, hb, Bool.false_eq_true, if_false, hn]
      rw [bind_ok h1]
      by_cases h0 : (view p).fetched > 0
      · simp [h0, hpc h0, hx, hb]
      · rw [show (view p).fetched = 0 by omega]; simp [hx, hb]
    · rw [show view { p with dir := d, pc := p.pc + (view p).fetched } = { view p with
        dir := d.toList, pc := p.pc + (view p).fetched } from rfl, h2]
      rfl

/-! ## One cycle -/

theorem view_checkFinished (p : Processor) (n : ℕ) :
    view (checkFinished n p) = (view p).checkFinished n := by
  have : p.activeList.isEmpty = p.activeList.toList.isEmpty := by
    rw [Bool.eq_iff_iff, Fifo.isEmpty_iff, List.isEmpty_iff]
  simp only [view, checkFinished, Machine.checkFinished, this]

theorem frontEnd_sim {p : Processor} (hs : Safe (view p))
    (hd : p.backpressure = true ∨ p.dir.toList = []) :
    Sim view (do let n ← fetchDecodeCycle; modify (checkFinished n)) p ⟨⟩ (view p).frontEnd :=
  (fetchDecodeCycle_sim hs hd).bind fun p' hp' =>
    .modify (by rw [view_checkFinished, hp', Machine.frontEnd])

/-- The stages after issue do what the machine's do. -/
theorem afterIssue_ends {p : Processor} (hs : Safe (view p)) (uninit : ℕ → UInt8) :
    Ends (do
      renameDispatchCycle uninit
      let n ← fetchDecodeCycle
      modify (checkFinished n)) p
      ((view p).afterIssue uninit, ((view p).dispatchStage uninit).2) := by
  have hdisp := renameDispatchCycle_ends hs uninit
  simp only [Machine.afterIssue]
  unfold Ends at hdisp ⊢
  cases hr : ((view p).dispatchStage uninit).2 with
  | false =>
    simp only [hr, Bool.false_eq_true, if_false] at hdisp ⊢
    exact hdisp.bind
  | true =>
    simp only [hr, if_true] at hdisp ⊢
    refine hdisp.bind fun p' hp' => ?_
    have hs' := hp' ▸ hs.dispatchStage uninit
    rw [← hp']
    exact frontEnd_sim hs' (by
      have := Machine.dispatchStage_dir uninit hr
      rwa [← hp'] at this)

/-- **A cycle does what the machine's does.** -/
theorem processorCycle_ends {p : Processor} (hs : Safe (view p)) (uninit : ℕ → UInt8) :
    Ends (processorCycle uninit) p ((view p).cycle uninit, (view p).dispatches uninit) := by
  refine .prepend (backEnd_sim hs) fun p₁ h₁ => ?_
  have hends := afterIssue_ends (h₁ ▸ hs.backEnd) uninit
  rw [h₁] at hends
  exact hends

/-- What ends as the machine does returns. -/
theorem Ends.returned {m : ProcM Unit} {p : Processor} {r : Machine × Bool} (h : Ends m p r) :
    ∃ p', returned (m p) = some p' ∧ view p' = r.1 := by
  unfold Ends at h
  split_ifs at h
  all_goals
    obtain ⟨p', h1, h2⟩ := h
    exact ⟨p', by rw [h1]; rfl, h2⟩

/-- A cycle returns, in a state whose machine made a cycle. -/
theorem returned_cycle {p : Processor} (hs : Safe (view p)) (uninit : ℕ → UInt8) :
    ∃ p', returned (processorCycle uninit p) = some p' ∧ view p' = (view p).cycle uninit :=
  (processorCycle_ends hs uninit).returned

/-! ## Initialisation -/

theorem initQueue_eq (α : Type) [Inhabited α] (cap size : ℕ) (hc : 0 < cap) (hs : 0 < size)
    (h : cap * size < 2 ^ 63) : ∃ q, (Fifo.init cap size : Except Fault (Fifo α cap)) = .ok q := by
  have hq : ∃ q : Queue α, initQueue cap size = .ok q := by
    have hdiv : cap ≤ (2 ^ 64 - 1) / size := by
      rw [Nat.le_div_iff_mul_le hs]; omega
    exact ⟨_, by rw [initQueue, if_neg (by omega), if_neg (by omega), if_neg (by omega)]⟩
  obtain ⟨q, hq⟩ := hq
  unfold Fifo.init
  split
  · exact ⟨_, rfl⟩
  · next e he => rw [hq] at he; cases he

theorem foldl_initFreeListStep : ∀ (l : List ℕ) (q : Fifo UInt8 freeListSize),
    q.toList.length + l.length ≤ 32 →
    (l.foldl initFreeListStep q).toList = q.toList ++ l.map UInt8.ofNat
  | [], q, _ => by simp
  | i :: l, q, h => by
    rw [List.length_cons] at h
    obtain ⟨q', h1, h2⟩ := Fifo.push_ok (q := q)
      (show q.toList.length < 32 by omega) (UInt8.ofNat i)
    have hstep : initFreeListStep q i = q' := by rw [initFreeListStep, h1]
    rw [List.foldl_cons, hstep, foldl_initFreeListStep l q' (by rw [h2]; simp at h ⊢; omega), h2]
    simp

theorem initFreeList_ok : ∃ q, initFreeList = .ok q ∧
    q.toList = (List.range' regLogFileSize freeListSize).map UInt8.ofNat := by
  obtain ⟨q, hq⟩ := initQueue_eq UInt8 freeListSize 1 (by decide) (by decide) (by decide)
  have hnil : q.toList = [] := Fifo.init_ok hq
  refine ⟨_, by rw [initFreeList, hq]; rfl, ?_⟩
  rw [foldl_initFreeListStep _ q (by rw [hnil, List.length_nil, List.length_range']; decide), hnil,
    List.nil_append]

theorem initProcessor_ok (P : Program) (ready : Bool) :
    ∃ p, initProcessor P ready = .ok p ∧ view p = .initial P ready := by
  obtain ⟨f, hf1, hf2⟩ := initFreeList_ok
  obtain ⟨l, hl⟩ := initQueue_eq ActiveListEntry regLogFileSize 16 (by decide) (by decide)
    (by decide)
  obtain ⟨d, hd⟩ := initQueue_eq Instruction instructionsPerCycle 120 (by decide) (by decide)
    (by decide)
  obtain ⟨i, hi⟩ := initQueue_eq IqEntry iqCapacity 128 (by decide) (by decide) (by decide)
  refine ⟨_, by rw [initProcessor, hf1, hl, hd, hi]; rfl, ?_⟩
  have hst : ∀ stage : Alu → Instruction, stage ⟨bubble, bubble⟩ = bubble →
      inStage stage (Vector.replicate numAlus ⟨bubble, bubble⟩) = [] := by
    intro stage h
    simp only [inStage, Vector.toList_replicate, List.map_replicate, h]
    decide
  simp only [view, Machine.initial, hf2, Fifo.init_ok hl, Fifo.init_ok hd, Fifo.init_ok hi,
    hst Alu.stage0 rfl, hst Alu.stage1 rfl]

/-! ## Runs -/

/-- **A run of the processor is a run of the machine.**  In particular no cycle gets stuck in
    a failed assertion or an undefined access. -/
theorem runFrom_ok {P : Program} (h : P.WellFormed) (ready : Bool) (uninit : ℕ → ℕ → UInt8) :
    ∀ n, ∃ p, runFrom ready P uninit n = some p ∧ view p = .runFrom ready P uninit n
  | 0 => by
    obtain ⟨p, h1, h2⟩ := initProcessor_ok P ready
    exact ⟨p, by rw [runFrom, h1]; rfl, h2⟩
  | n + 1 => by
    obtain ⟨p, h1, h2⟩ := runFrom_ok h ready uninit n
    obtain ⟨p', h3, h4⟩ := returned_cycle (h2 ▸ Safe.runFrom h ready uninit n) (uninit n)
    exact ⟨p', by rw [runFrom, h1]; exact h3, by rw [h4, h2]; rfl⟩

section
variable {P : Program} {ready : Bool} {uninit : ℕ → ℕ → UInt8} {n : ℕ} {p : Processor}

theorem view_runFrom (h : P.WellFormed) (hr : runFrom ready P uninit n = some p) :
    view p = .runFrom ready P uninit n := by
  obtain ⟨p', h1, h2⟩ := runFrom_ok h ready uninit n
  rw [hr, Option.some.injEq] at h1
  rw [h1, h2]

theorem safe_runFrom (h : P.WellFormed) (hr : runFrom ready P uninit n = some p) :
    Safe (view p) := view_runFrom h hr ▸ Safe.runFrom h ready uninit n

theorem view_step (h : P.WellFormed) {p' : Processor} (hr : runFrom ready P uninit n = some p)
    (hr' : runFrom ready P uninit (n + 1) = some p') :
    view p' = (view p).cycle (uninit n) := by
  rw [view_runFrom h hr', view_runFrom h hr]
  rfl

/-- The next cycle of a run. -/
theorem runFrom_succ (h : P.WellFormed) (hr : runFrom ready P uninit n = some p) :
    ∃ p', returned (processorCycle (uninit n) p) = some p' ∧
      runFrom ready P uninit (n + 1) = some p' ∧ view p' = (view p).cycle (uninit n) := by
  obtain ⟨p', hret, hview⟩ := returned_cycle (safe_runFrom h hr) (uninit n)
  exact ⟨p', hret, by rw [runFrom, hr]; exact hret, hview⟩

end

end R10000
