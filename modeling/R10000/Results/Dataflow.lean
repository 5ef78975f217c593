/-
  The processor as a dataflow machine: an instruction is issued as soon as the instructions
  that produce its operands have executed, and no register that it reads or writes is used
  for anything else in the meantime.
-/
import R10000.Forwarding
import R10000.Results.Operands
import R10000.Results.Refinement
import R10000.Results.Selection
import R10000.Timing

namespace R10000

open Fallible

/-! ## Issue -/

/-- The operand of the instruction with pc `j` is an immediate, or its producer, if there is one,
    has executed without exception. -/
def sourceDone (p : Processor) (j : ℕ) (o : Operand) : Bool :=
  o.type = .imm || (producer p j o.logId).all retires

/-- The instruction can fire. -/
def sourcesDone (p : Processor) (x : Instruction) : Bool :=
  sourceDone p x.pc x.opA && sourceDone p x.pc x.opB

section
variable {p : Processor} {todo : List Instruction} (hs : Safe (view p)) (h : Normal todo (view p))
include hs h

/-- **An operand is ready exactly if its producer is done.** -/
theorem ready_eq_sourceDone {o : Operand} {j : ℕ} (hlog : o.type = .reg → o.logId.toNat < 32)
    (hphy : o.type = .reg → o.phyId.toNat < 64)
    (hr : Renamed (view p).logical (view p).activeList j o) :
    (view p).ready o = sourceDone p j o := by
  cases ht : o.type with
  | imm =>
    simp only [Machine.ready, sourceDone, ht]
    rfl
  | reg =>
    have hw := h.window
    have htag := hr ht
    rw [show mapAt (view p).logical (view p).activeList j o.logId = _ from
      mapAt_eq_producer p j o.logId] at htag
    rw [hw.ready_eq ht (hphy ht), sourceDone, ht]
    change (!rd p.isBusy o.phyId) = (producer p j o.logId).all retires
    cases hp : producer p j o.logId with
    | none =>
      rw [hp, Option.map_none, Option.getD_none] at htag
      rw [htag, (busyExact hs hw).committed _ (hlog ht)]
      rfl
    | some e =>
      rw [hp, Option.map_some, Option.getD_some] at htag
      have he : e ∈ (view p).activeList := List.mem_of_mem_filter (List.mem_of_mem_getLast? hp)
      have hbusy := (busyExact hs hw).busy o.phyId (hphy ht)
      have hpend : rd p.isBusy o.phyId = true ↔ e.isDone = false ∨ e.isException = true := by
        rw [hbusy]
        constructor
        · rintro ⟨e', he', hcur, hpend⟩
          rwa [List.inj_on_of_nodup_map (curr_nodup hs hw) he' he (hcur.trans htag)] at hpend
        · intro hpend
          exact ⟨e, he, htag.symm, hpend⟩
      rw [Option.all_some, Bool.eq_iff_iff, Bool.not_eq_true', ← Bool.not_eq_true, hpend,
        retires_iff]
      simp

end

theorem normal_atIssue {p : Processor} (hs : Safe (view p)) (h : Live (view p)) :
    (view (atIssue p)).iq = [] ∨ Normal [] (view (atIssue p)) := by
  have hs₁ := hs.commitStage
  rw [view_atIssue hs]
  rcases h with hn | hr
  · obtain ⟨c, -, -, -, hret, ⟨hq, -⟩ | ⟨-, e, -, -, -, -, hr⟩⟩ := hn.commitStage
    · right
      rw [hq] at hs₁ ⊢
      exact Normal.executed hs₁ hret
    · left
      rw [writeBackStage_idle hr.stage1]
      exact hr.iq
  · have hr' := hr.commitStage hs
    left
    rw [writeBackStage_idle hr'.stage1]
    exact hr'.iq

theorem stage0_succ {P : Program} (hP : P.WellFormed) (hshort : P.Short) {ready : Bool}
    {uninit : ℕ → ℕ → UInt8} {n : ℕ} {p p' : Processor}
    (hp : runFrom ready P uninit n = some p) (hp' : runFrom ready P uninit (n + 1) = some p') :
    (inStage Alu.stage0 p'.alus).map (·.pc) =
      ((((atIssue p).iq.toList.map (·.instr)).filter (sourcesDone (atIssue p))).take 4).map
        (·.pc) := by
  have hview' := view_step hP hp hp'
  have hs := safe_runFrom hP hp
  have hview := view_atIssue hs
  have hs₂ : Safe (view (atIssue p)) := by
    rw [hview]
    exact hs.commitStage.executeStage.writeBackStage
  have hstage : inStage Alu.stage0 p'.alus = (view (atIssue p)).issueStage.stage0 := by
    rw [show inStage Alu.stage0 p'.alus = (view p').stage0 from rfl, hview',
      (cycle_queues _ _).2, hview]
    rfl
  have hselect := select_entries numAlus ((view (atIssue p)).iq.map (view (atIssue p)).refresh)
  have hbefore : beforeException ((view (atIssue p)).iq.map (view (atIssue p)).refresh) =
      (view (atIssue p)).iq.map (view (atIssue p)).refresh := by
    refine List.takeWhile_eq_self_iff.2 fun en hen => ?_
    obtain ⟨en₀, hen₀, rfl⟩ := List.mem_map.1 hen
    rw [Bool.not_eq_true']
    exact (hs₂.iq_ok en₀ hen₀).2
  have hfilter : (view (atIssue p)).iq.filter (iqEntryIsReady ∘ (view (atIssue p)).refresh) =
      (view (atIssue p)).iq.filter (sourcesDone (atIssue p) ∘ IqEntry.instr) := by
    refine List.filter_congr fun en hen => ?_
    rcases normal_atIssue hs (live_runFrom hP hshort hp) with hnil | hn
    · rw [hnil] at hen
      cases hen
    · have hx := (hs₂.iq_ok en hen).1
      have htr := hn.tracked _ (mem_flight.2 (.inl ⟨en, hen, rfl⟩))
      obtain ⟨hlogA, hlogB⟩ := Normal.operand_lt hx
      change ((view (atIssue p)).ready en.instr.opA && (view (atIssue p)).ready en.instr.opB) = _
      rw [ready_eq_sourceDone hs₂ hn (fun _ => hlogA) (fun _ => hx.opA_lt) htr.opA,
        ready_eq_sourceDone hs₂ hn hlogB hx.opB_lt htr.opB]
      rfl
  rw [hstage, Machine.issueStage, hselect, hbefore, List.filter_map, hfilter, List.filter_map]
  simp only [List.map_take, List.map_map]
  rfl

/-- **Issue is greedy and in order**: in every cycle of a run, the instructions issued are the
    first four in the queue whose producers are done, or all of them if there are fewer. -/
theorem issues_first_done {P : Program} (hP : P.WellFormed) (hshort : P.Short) (ready : Bool)
    (uninit : ℕ → ℕ → UInt8) (n : ℕ) : ∃ p p', runFrom ready P uninit n = some p ∧
      runFrom ready P uninit (n + 1) = some p' ∧
      (inStage Alu.stage0 p'.alus).map (·.pc) =
        ((((atIssue p).iq.toList.map (·.instr)).filter (sourcesDone (atIssue p))).take 4).map
          (·.pc) := by
  obtain ⟨p, hp, -⟩ := runFrom_ok hP ready uninit n
  obtain ⟨p', hp', -⟩ := runFrom_ok hP ready uninit (n + 1)
  exact ⟨p, p', hp, hp', stage0_succ hP hshort hp hp'⟩

theorem issues_first_done_small : ∃ p p',
    runFrom false smallProgram (fun _ _ => 0) 4 = some p ∧
    runFrom false smallProgram (fun _ _ => 0) (4 + 1) = some p' ∧
    (inStage Alu.stage0 p'.alus).map (·.pc) =
      ((((atIssue p).iq.toList.map (·.instr)).filter (sourcesDone (atIssue p))).take 4).map
        (·.pc) :=
  issues_first_done smallProgram_wellFormed smallProgram_short false _ 4

/-! ## Hazards -/

/-- No register is used for two things at once: what an instruction in flight reads is not free,
    what it writes is not free and holds no committed value, and it reads the destination of an
    older instruction only. -/
structure HazardFree (p : Processor) : Prop where
  reads : ∀ x ∈ inFlight p, ∀ q ∈ p.freeList.toList, ¬ x.Reads q
  writes_free : ∀ x ∈ inFlight p, x.dest.phyId ∉ p.freeList.toList
  writes_committed : ∀ x ∈ inFlight p, ∀ r : UInt8, r.toNat < 32 →
    committedReg p r ≠ x.dest.phyId
  order : ∀ x ∈ inFlight p, ∀ y ∈ inFlight p, x.Reads y.dest.phyId → y.pc < x.pc

theorem reads_older {p : Processor} {todo : List Instruction} (hs : Safe (view p))
    (h : Normal todo (view p)) {o : Operand} (hlog : o.type = .reg → o.logId.toNat < 32) {j : ℕ}
    (hr : Renamed (view p).logical (view p).activeList j o) (ht : o.type = .reg)
    {e : ActiveListEntry} (he : e ∈ (view p).activeList) (hcur : o.phyId = e.currPhyDest) :
    e.pc < j := by
  have hw := h.window
  rcases Renaming.after_mem (archMap (view p).logical (view p).activeList)
    (writes ((view p).activeList.filter (·.pc < j))) o.logId with ⟨w, hw', -, hnew⟩ | ⟨-, hold⟩
  · obtain ⟨e', he', rfl⟩ := List.mem_map.1 hw'
    obtain ⟨hmem, hlt⟩ := List.mem_filter.1 he'
    have heq : e'.currPhyDest = e.currPhyDest := by
      rw [← hcur, hr ht, mapAt, hnew]
      rfl
    rw [← List.inj_on_of_nodup_map (curr_nodup hs hw) hmem he heq]
    simpa using hlt
  · refine absurd ?_ (arch_ne_curr hs hw (hlog ht) he)
    rw [← hcur, hr ht, mapAt, hold]

theorem hazardFree_of_normal {p : Processor} (hs : Safe (view p))
    (h : Normal (view p).stage1 (view p)) : HazardFree p := by
  have hw := h.window
  have hin := Normal.inFlight hs hs.stage1_ok
  have hentry : ∀ x ∈ inFlight p, ∃ e ∈ (view p).activeList, e.pc = x.pc ∧
      e.currPhyDest = x.dest.phyId := by
    intro x hx
    obtain ⟨e, he, -, hpc, hcur⟩ := h.entry hx
    exact ⟨e, he, hpc, hcur⟩
  have hoperand : ∀ x ∈ inFlight p, ∀ q, x.Reads q → ∃ o : Operand, o.type = .reg ∧ o.phyId = q ∧
      o.logId.toNat < 32 ∧ Renamed (view p).logical (view p).activeList x.pc o := by
    intro x hx q hq
    obtain ⟨hlogA, hlogB⟩ := Normal.operand_lt (hin x hx)
    have htr := h.tracked x hx
    rcases hq with ⟨ht, hq⟩ | ⟨ht, hq⟩
    · exact ⟨x.opA, ht, hq, hlogA, htr.opA⟩
    · exact ⟨x.opB, ht, hq, hlogB ht, htr.opB⟩
  constructor
  · intro x hx q hq hreads
    obtain ⟨o, ht, rfl, hlog, hr⟩ := hoperand x hx q hreads
    refine Normal.free_ne_mapAt hs hw (p := o.phyId) hq hlog x.pc (hr ht)
  · intro x hx hq
    obtain ⟨e, he, -, hcur⟩ := hentry x hx
    exact free_ne_curr hs hw (p := x.dest.phyId) hq he hcur.symm
  · intro x hx r hr heq
    obtain ⟨e, he, -, hcur⟩ := hentry x hx
    rw [← archMap_eq_committedReg] at heq
    exact arch_ne_curr hs hw hr he (heq.trans hcur.symm)
  · intro x hx y hy hreads
    obtain ⟨o, ht, heq, hlog, hr⟩ := hoperand x hx _ hreads
    obtain ⟨e, he, hpc, hcur⟩ := hentry y hy
    rw [← hpc]
    exact reads_older hs h (fun _ => hlog) hr ht he (heq.trans hcur.symm)

/-- **No hazards**, in any state of a run: registers are renamed so that an instruction in flight
    never reads or writes one that is free, that holds a committed value it could overwrite, or
    that a younger instruction writes. -/
theorem hazard_free {P : Program} (hP : P.WellFormed) (hshort : P.Short) (ready : Bool)
    (uninit : ℕ → ℕ → UInt8) (n : ℕ) :
    ∃ p, runFrom ready P uninit n = some p ∧ HazardFree p := by
  obtain ⟨p, hp, -⟩ := runFrom_ok hP ready uninit n
  refine ⟨p, hp, ?_⟩
  rcases live_runFrom hP hshort hp with hn | hr
  · exact hazardFree_of_normal (safe_runFrom hP hp) hn
  · have hnil : inFlight p = [] := by
      have h1 : p.iq.toList = [] := hr.iq
      have h2 : inStage Alu.stage0 p.alus = [] := hr.stage0
      have h3 : inStage Alu.stage1 p.alus = [] := hr.stage1
      rw [inFlight, h1, h2, h3]
      rfl
    constructor
    all_goals
      intro x hx
      rw [hnil] at hx
      cases hx

theorem hazard_free_small : ∃ p, runFrom false smallProgram (fun _ _ => 0) 4 = some p ∧
    HazardFree p :=
  hazard_free smallProgram_wellFormed smallProgram_short false _ 4

end R10000
