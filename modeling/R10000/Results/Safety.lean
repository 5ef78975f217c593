/-
  Safety of the processor: registers are neither lost nor duplicated, no stage fails on
  valid bytes, and dispatch depends on the uninitialised local exactly through the check
  of `free_list_pop`.
-/
import R10000.History

namespace R10000

/-- Three instructions that depend on each other, the last one divides by zero. -/
def smallProgram : Program := .ofList
  [(.addi, 1, 0, immOperand 5), (.addi, 2, 1, immOperand 7), (.divu, 3, 2, regOperand 0)]
  (by decide)

theorem smallProgram_wellFormed : smallProgram.WellFormed := by decide

/-! ## Registers -/

/-- **Physical registers are neither lost nor duplicated**, in normal operation, during
    recovery and after it. -/
theorem registers_perm {P : Program} (hP : P.WellFormed) (ready : Bool) (uninit : ℕ → ℕ → UInt8)
    (n : ℕ) : ∃ p, runFrom ready P uninit n = some p ∧
      (p.logical.toList ++ p.freeList.toList ++
        p.activeList.toList.map (·.oldPhyDest)).Perm allRegs ∧
      p.logical.toList.Nodup ∧ (∀ q ∈ p.freeList.toList, q ∉ p.logical.toList) ∧
      p.freeList.count + p.activeList.count = 32 := by
  obtain ⟨p, h1, -⟩ := runFrom_ok hP ready uninit n
  have hs := safe_runFrom hP h1
  have hn := hs.regs.nodup_iff.2 nodup_allRegs
  rw [List.nodup_append, List.nodup_append] at hn
  obtain ⟨⟨hlog, -, hdisj⟩, -, -⟩ := hn
  have hlen := hs.length_eq
  simp only [view, Fifo.length_toList] at hlen
  refine ⟨p, h1, hs.regs, hlog, ?_, hlen⟩
  intro q hq hq'
  exact hdisj q hq' q hq rfl

/-- During the recovery, with one entry left. -/
theorem registers_perm_small : ∃ p, runFrom false smallProgram (fun _ _ => 0) 10 = some p ∧
    (p.logical.toList ++ p.freeList.toList ++
      p.activeList.toList.map (·.oldPhyDest)).Perm allRegs ∧
    p.logical.toList.Nodup ∧ (∀ q ∈ p.freeList.toList, q ∉ p.logical.toList) ∧
    p.freeList.count + p.activeList.count = 32 :=
  registers_perm smallProgram_wellFormed false _ 10

/-! ## Dispatch -/

/-- What dispatch does with the DIR of `p`: it returns normally, the DIR is empty and each of
    its instructions has an entry at the end of the Active List and of the queue. -/
def DispatchesAll (uninit : ℕ → UInt8) (p : Processor) : Prop :=
  ∃ p' entries queued, renameDispatchCycle uninit p = .ok () p' ∧ p'.dir.toList = [] ∧
    p'.activeList.toList = p.activeList.toList ++ entries ∧
    entries.map (fun e => (e.pc, e.logDest)) =
      p.dir.toList.map (fun x => (x.pc, x.dest.logId)) ∧
    p'.iq.toList = p.iq.toList ++ queued ∧
    queued.map (fun en => (en.instr.pc, en.instr.type)) =
      p.dir.toList.map (fun x => (x.pc, x.type))

theorem dispatchLoop_pushes (uninit : ℕ → UInt8) : ∀ (n i : ℕ) (m : Machine),
    (m.dispatchLoop uninit n i).2 = true → ∃ entries queued,
      (m.dispatchLoop uninit n i).1.activeList = m.activeList ++ entries ∧
      entries.map (fun e => (e.pc, e.logDest)) =
        (m.dir.take n).map (fun x => (x.pc, x.dest.logId)) ∧
      (m.dispatchLoop uninit n i).1.iq = m.iq ++ queued ∧
      queued.map (fun en => (en.instr.pc, en.instr.type)) =
        (m.dir.take n).map (fun x => (x.pc, x.type))
  | 0, _, m, _ => ⟨[], [], by simp [Machine.dispatchLoop]⟩
  | n + 1, i, m, h => by
    unfold Machine.dispatchLoop at h ⊢
    split at h
    · next x dir p freeList hd hf =>
      split_ifs at h ⊢
      obtain ⟨es, qs, h1, h2, h3, h4⟩ := dispatchLoop_pushes uninit n (i + 1) _ h
      refine ⟨⟨false, false, x.dest.logId, rd m.logical x.dest.logId, p, x.pc⟩ :: es,
        (m.allocate x dir p freeList).refresh ⟨{ x with
          dest := { x.dest with phyId := p }
          opA := m.rename x.opA
          opB := m.rename x.opB }, false, false⟩ :: qs, ?_, ?_, ?_, ?_⟩
      · rw [h1]; simp [Machine.dispatch, Machine.allocate]
      · rw [hd, List.take_succ_cons, List.map_cons, List.map_cons, h2]; rfl
      · rw [h3]; simp [Machine.dispatch, Machine.allocate]
      · rw [hd, List.take_succ_cons, List.map_cons, List.map_cons, h4]; rfl
    · cases h

theorem dispatchesAll_of_valid {p : Processor} (hs : Safe (view p)) {uninit : ℕ → UInt8}
    (hst : applyBackpressure p = false) (h : ((view p).dispatchStage uninit).2 = true) :
    DispatchesAll uninit p := by
  have hends := renameDispatchCycle_ends hs uninit
  rw [Ends, if_pos h] at hends
  obtain ⟨p', h1, h2⟩ := hends
  rw [view_stalled] at hst
  have hdir := Machine.dispatchStage_dir uninit h
  obtain ⟨d, f, al, lo, b, q, hframe⟩ := dispatchStage_frame uninit (view p)
  rw [hframe] at hdir
  simp only [hst, Bool.false_eq_true, false_or] at hdir
  rw [Machine.dispatchStage, if_neg (by simp [hst])] at h h2
  obtain ⟨es, qs, h3, h4, h5, h6⟩ := dispatchLoop_pushes uninit _ _ _ h
  rw [List.take_length] at h4 h6
  rw [← h2] at h3 h5
  have hdir' : (view p').dir = [] := by
    rw [h2, ← hdir]
    have := congrArg Machine.dir hframe
    rw [Machine.dispatchStage, if_neg (by simp [hst])] at this
    exact this
  exact ⟨p', es, qs, h1, hdir', h3, h4, h5, h6⟩

/-- Dispatch succeeds on valid bytes only. -/
theorem valid_of_dispatchesAll {p : Processor} (hs : Safe (view p)) {uninit : ℕ → UInt8}
    (h : DispatchesAll uninit p) : ((view p).dispatchStage uninit).2 = true := by
  obtain ⟨p', -, -, h1, -⟩ := h
  have hends := renameDispatchCycle_ends hs uninit
  unfold Ends at hends
  split_ifs at hends with hr
  · exact hr
  · obtain ⟨p'', h2, -⟩ := hends
    rw [h1] at h2
    cases h2

theorem freeListPop_congr (list : FreeList) {u v : UInt8} (hu : u.toNat < 64)
    (hv : v.toNat < 64) : freeListPop list u = freeListPop list v := by
  rw [freeListPop, freeListPop, if_neg (by simp only [regPhyFileSize]; omega),
    if_neg (by simp only [regPhyFileSize]; omega)]

theorem dispatchLoop_congr {u v : ℕ → UInt8} : ∀ (n i : ℕ),
    (∀ j < n, (u (i + j)).toNat < 64 ∧ (v (i + j)).toNat < 64) →
    dispatchLoop u n i = dispatchLoop v n i
  | 0, _, _ => rfl
  | n + 1, i, h => by
    have h0 : (u i).toNat < 64 ∧ (v i).toNat < 64 := h 0 (Nat.succ_pos n)
    have hit : dispatchIteration (u i) = dispatchIteration (v i) := by
      unfold dispatchIteration
      simp only [fun list => freeListPop_congr list h0.1 h0.2]
    rw [dispatchLoop, dispatchLoop, hit, dispatchLoop_congr n (i + 1) fun j hj => by
      have := h (j + 1) (by omega)
      rwa [show i + (j + 1) = i + 1 + j by omega] at this]

/-- Valid bytes are not looked at. -/
theorem processorCycle_congr {u v : ℕ → UInt8} {p : Processor} (hu : HandsValid u p)
    (hv : HandsValid v p) : processorCycle u p = processorCycle v p := by
  have hren : renameDispatchCycle u (atDispatch p) = renameDispatchCycle v (atDispatch p) := by
    simp only [renameDispatchCycle, Fallible.get_bind, Fallible.modify_bind]
    split_ifs with hst
    · rfl
    · rcases hu with hu | hu
      · exact absurd hu hst
      · rcases hv with hv | hv
        · exact absurd hv hst
        · rw [dispatchLoop_congr _ _ fun j hj => by
            rw [Nat.zero_add]; exact ⟨hu j hj, hv j hj⟩]
  unfold processorCycle
  cases hb : backEnd p with
  | error e q => rw [Fallible.bind_error hb, Fallible.bind_error hb]
  | ok a q =>
    have hq : atDispatch p = q := by rw [atDispatch, hb]; rfl
    rw [hq] at hren
    rw [Fallible.bind_ok hb, Fallible.bind_ok hb]
    exact Fallible.bind_congr_left hren

/-- **Dispatch works exactly on valid bytes.**  In every reachable state, a cycle that is not
    stalled dispatches the DIR if and only if the bytes that it hands to `free_list_pop` are
    below 64, and it does the same for all such bytes. -/
theorem dispatch_iff_valid {P : Program} (hP : P.WellFormed) (ready : Bool)
    (uninit : ℕ → ℕ → UInt8) (n : ℕ) : ∃ p, runFrom ready P uninit n = some p ∧
      backEnd p = .ok () (atDispatch p) ∧
      (∀ u, (applyBackpressure (atDispatch p) = false → DispatchesAll u (atDispatch p)) ↔
        HandsValid u p) ∧
      ∀ u v, HandsValid u p → HandsValid v p → processorCycle u p = processorCycle v p := by
  obtain ⟨p, h1, -⟩ := runFrom_ok hP ready uninit n
  have hs := safe_runFrom hP h1
  have hs' : Safe (view (atDispatch p)) := view_atDispatch hs ▸ hs.backEnd
  have hback : backEnd p = .ok () (atDispatch p) := by
    obtain ⟨q, h2, -⟩ := backEnd_sim hs
    rw [atDispatch, h2]; rfl
  refine ⟨p, h1, hback, fun u => ?_, fun u v => processorCycle_congr⟩
  rw [handsValid_iff hs, Machine.dispatches, ← view_atDispatch hs]
  constructor
  · intro h
    rcases Bool.eq_false_or_eq_true (applyBackpressure (atDispatch p)) with hst | hst
    · exact (dispatchStage_valid hs' u).2 (.inl (by rw [← view_stalled]; exact hst))
    · exact valid_of_dispatchesAll hs' (h hst)
  · exact fun h hst => dispatchesAll_of_valid hs' hst h

theorem dispatch_iff_valid_small : ∃ p, runFrom false smallProgram (fun _ _ => 0) 1 = some p ∧
    backEnd p = .ok () (atDispatch p) ∧
    (∀ u, (applyBackpressure (atDispatch p) = false → DispatchesAll u (atDispatch p)) ↔
      HandsValid u p) ∧
    ∀ u v, HandsValid u p → HandsValid v p → processorCycle u p = processorCycle v p :=
  dispatch_iff_valid smallProgram_wellFormed false _ 1

/-- The function returned normally. -/
def isOk {α : Type} : EStateM.Result Fault Processor α → Bool
  | .ok _ _ => true
  | .error _ _ => false

/-- With the byte 200 the first dispatch of a program fails, although it is not stalled. -/
theorem dispatch_fails_on_200 : ∃ p, run smallProgram (fun _ _ => 0) 1 = some p ∧
    applyBackpressure (atDispatch p) = false ∧
    ¬ DispatchesAll (fun _ => 200) (atDispatch p) := by
  have hrun : (run smallProgram (fun _ _ => 0) 1).map (fun p =>
      (applyBackpressure (atDispatch p),
        isOk (renameDispatchCycle (fun _ => 200) (atDispatch p)))) = some (false, false) := by
    decide +kernel
  obtain ⟨p, hp, h⟩ := Option.map_eq_some_iff.1 hrun
  rw [Prod.mk.injEq] at h
  refine ⟨p, hp, h.1, ?_⟩
  rintro ⟨p', -, -, h1, -⟩
  rw [h1] at h
  cases h.2

/-! ## Errors -/

/-- **No error is reachable.**  On valid bytes every stage of every cycle returns normally;
    dispatch takes the whole DIR or, when it is stalled, only sets the backpressure; and the
    fetch takes as many instructions as there are, up to four. -/
theorem cycle_returns {P : Program} (hP : P.WellFormed) (ready : Bool) {uninit : ℕ → ℕ → UInt8}
    (hu : Benign uninit) (n : ℕ) : ∃ p p₁ p₂ p₃ fetched,
      runFrom ready P uninit n = some p ∧
      backEnd p = .ok () p₁ ∧
      renameDispatchCycle (uninit n) p₁ = .ok () p₂ ∧
      fetchDecodeCycle p₂ = .ok fetched p₃ ∧
      processorCycle (uninit n) p = .ok () (checkFinished fetched p₃) ∧
      (applyBackpressure p₁ = true → p₂ = { p₁ with backpressure := true }) ∧
      (applyBackpressure p₁ = false → DispatchesAll (uninit n) p₁) ∧
      fetched = (if p₂.backpressure then 0 else min 4 (p₂.program.count - p₂.pc)) ∧
      p₃.dir.toList = p₂.dir.toList ++ (p₂.program.instructions.drop p₂.pc).take fetched := by
  obtain ⟨p, h1, -⟩ := runFrom_ok hP ready uninit n
  have hs := safe_runFrom hP h1
  obtain ⟨p₁, h2, h3⟩ := backEnd_sim hs
  have hs₁ : Safe (view p₁) := h3 ▸ hs.backEnd
  have hok : ((view p₁).dispatchStage (uninit n)).2 = true :=
    (dispatchStage_valid hs₁ _).2 (.inr fun i _ => hu n i)
  have hends := renameDispatchCycle_ends hs₁ (uninit n)
  rw [Ends, if_pos hok] at hends
  obtain ⟨p₂, h4, h5⟩ := hends
  have hs₂ : Safe (view p₂) := h5 ▸ hs₁.dispatchStage _
  have hdir := Machine.dispatchStage_dir (uninit n) hok
  rw [← h5] at hdir
  obtain ⟨p₃, h6, h7⟩ := fetchDecodeCycle_sim hs₂ hdir
  refine ⟨p, p₁, p₂, p₃, (view p₂).fetched, h1, h2, h4, h6, ?_, fun hst => ?_,
    fun hst => dispatchesAll_of_valid hs₁ hst hok, rfl, congrArg Machine.dir h7⟩
  · rw [processorCycle, Fallible.bind_ok h2, Fallible.bind_ok h4, Fallible.bind_ok h6]; rfl
  · have : renameDispatchCycle (uninit n) p₁ = .ok () { p₁ with backpressure := true } := by
      simp [renameDispatchCycle, hst]
    rw [this] at h4
    cases h4
    rfl

theorem benign_zero : Benign fun _ _ => 0 := fun _ _ => Nat.zero_lt_succ _

theorem cycle_returns_small : ∃ p p₁ p₂ p₃ fetched,
    runFrom false smallProgram (fun _ _ => 0) 3 = some p ∧
    backEnd p = .ok () p₁ ∧
    renameDispatchCycle (fun _ => 0) p₁ = .ok () p₂ ∧
    fetchDecodeCycle p₂ = .ok fetched p₃ ∧
    processorCycle (fun _ => 0) p = .ok () (checkFinished fetched p₃) ∧
    (applyBackpressure p₁ = true → p₂ = { p₁ with backpressure := true }) ∧
    (applyBackpressure p₁ = false → DispatchesAll (fun _ => 0) p₁) ∧
    fetched = (if p₂.backpressure then 0 else min 4 (p₂.program.count - p₂.pc)) ∧
    p₃.dir.toList = p₂.dir.toList ++ (p₂.program.instructions.drop p₂.pc).take fetched :=
  cycle_returns smallProgram_wellFormed false benign_zero 3

end R10000
