/-
  Busy bits and operands over whole runs: the busy bits say exactly which registers have no
  result yet, and an operand of the queue that is ready stays so, with its value, until its
  instruction leaves the queue.
-/
import R10000.Operands
import R10000.Results.LifeCycle

namespace R10000

open Fallible

/-- The state in which a cycle calls `issue_cycle`. -/
def atIssue (p : Processor) : Processor :=
  endState ((do
    commitCycle
    forM (List.finRange numAlus) aluCycle
    renameDispatchUpdateStructures : ProcM Unit) p)

/-! ## Busy bits -/

/-- The busy registers are the destinations of the entries that are not done or are
    exceptions; so no free and no committed register is busy, none is with an empty Active
    List, and for the operands in the queue the busy bit alone tells what `is_operand_ready`
    tells. -/
structure BusyExact (p : Processor) : Prop where
  busy : ∀ q : UInt8, q.toNat < 64 → (rd p.isBusy q = true ↔
    ∃ e ∈ p.activeList.toList, e.currPhyDest = q ∧ (e.isDone = false ∨ e.isException = true))
  free : ∀ q ∈ p.freeList.toList, rd p.isBusy q = false
  committed : ∀ r : UInt8, r.toNat < 32 → rd p.isBusy (committedReg p r) = false
  recovered : p.activeList.toList = [] → ∀ q : UInt8, q.toNat < 64 → rd p.isBusy q = false
  scan : ∀ en ∈ p.iq.toList, ∀ o, o = en.instr.opA ∨ o = en.instr.opB → o.type = .reg →
    isOperandReady o p.isBusy p.activeList = (tableGet p.isBusy o.phyId).map fun b => !b

theorem busyExact {p : Processor} (hs : Safe (view p))
    (hw : Window (view p).program (view p).logical (view p).isBusy (view p).activeList) :
    BusyExact p where
  busy := hw.busy
  free := by
    intro q hq
    have hq' : q ∈ (view p).freeList := hq
    exact hw.not_busy (hs.free_lt hq') fun e he => (free_ne_curr hs hw hq' he).symm
  committed := by
    intro r hr
    rw [← archMap_eq_committedReg]
    exact hw.not_busy (place_lt hs hw (.inl (List.mem_map_of_mem (mem_logRegs.2 hr))))
      fun e he => (arch_ne_curr hs hw hr he).symm
  recovered := by
    intro hl q hq
    refine hw.not_busy hq fun e he => ?_
    rw [show (view p).activeList = [] from hl] at he
    cases he
  scan := by
    intro en hen o ho ht
    have hin := (hs.iq_ok en hen).1
    have hlt : o.phyId.toNat < 64 := by
      rcases ho with rfl | rfl
      · exact hin.opA_lt
      · exact hin.opB_lt ht
    rw [isOperandReady_ok fun _ => hlt, tableGet_eq hlt, hw.ready_eq ht hlt]
    rfl

section
variable {p : Processor} (hs : Safe (view p))
include hs

theorem view_atIssue :
    view (atIssue p) = (view p).commitStage.executeStage.writeBackStage :=
  (beforeIssue_sim hs).endState

theorem busyExact_atIssue (h : Live (view p)) : BusyExact (atIssue p) := by
  have hview := view_atIssue hs
  refine busyExact (hview ▸ hs.commitStage.executeStage.writeBackStage) ?_
  rw [hview]
  exact (h.commitStage hs).executeStage.window_writeBackStage hs.commitStage.executeStage

end

/-- **Busy bits are exact**, in every state of a run and, within each cycle, in the state in
    which the queue is refreshed. -/
theorem busy_bits_exact {P : Program} (hP : P.WellFormed) (hshort : P.Short) (ready : Bool)
    (uninit : ℕ → ℕ → UInt8) (n : ℕ) :
    ∃ p, runFrom ready P uninit n = some p ∧ BusyExact p ∧ BusyExact (atIssue p) := by
  obtain ⟨p, h1, -⟩ := runFrom_ok hP ready uninit n
  have hs := safe_runFrom hP h1
  have hlive := live_runFrom hP hshort h1
  exact ⟨p, h1, busyExact hs hlive.window, busyExact_atIssue hs hlive⟩

theorem busy_bits_exact_small : ∃ p, runFrom false smallProgram (fun _ _ => 0) 6 = some p ∧
    BusyExact p ∧ BusyExact (atIssue p) :=
  busy_bits_exact smallProgram_wellFormed smallProgram_short false _ 6

/-! ## Captured operands -/

/-- In the cycle from `q` to `q'` the entry, as the queue of `q` holds it, is issued with the
    operands that it has captured, or an exception empties the queue. -/
def Leaves (q q' : Processor) (en : IqEntry) : Prop :=
  raisedPcs q ≠ [] ∨ ∃ en', en.Keeps en' ∧ iqEntryIsReady en' = true ∧
    en'.instr ∈ inStage Alu.stage0 q'.alus

/-- The queue holds the entry, with the operands that it has captured, and no other one with
    its pc. -/
def Waits (p : Processor) (en : IqEntry) : Prop :=
  ∃ en' ∈ p.iq.toList, en.Keeps en' ∧
    ∀ en'' ∈ p.iq.toList, en''.instr.pc = en.instr.pc → en'' = en'

section
variable {p p' : Processor}

theorem Normal.waits {todo : List Instruction} (h : Normal todo (view p)) {en en' : IqEntry}
    (hen' : en' ∈ p.iq.toList) (hk : en.Keeps en') : Waits p en := by
  refine ⟨en', hen', hk, fun en'' hen'' hpc => ?_⟩
  have hnd : (p.iq.toList.map (·.instr.pc)).Nodup := h.iq_order.imp fun hlt => hlt.ne
  exact List.inj_on_of_nodup_map hnd hen'' hen' (hpc.trans hk.pc.symm)

theorem waits_or_leaves {uninit : ℕ → UInt8} (hs : Safe (view p)) (h : Live (view p))
    (h' : Live (view p')) (hview : view p' = (view p).cycle uninit) {en : IqEntry}
    (hw : Waits p en) : Waits p' en ∨ Leaves p p' en := by
  obtain ⟨en₁, hen₁, hk, -⟩ := hw
  have hiq : en₁ ∈ (view p).iq := hen₁
  rcases h with hn | hr
  · cases hm : (view p).commitStage.exceptionMode with
    | true =>
      right; left
      rw [raisedPcs_eq hs, hn.mode, hm]
      simp
    | false =>
      obtain ⟨en₂, hk₂, hin | ⟨hr, hst⟩⟩ := hn.cycle_keeps uninit hs hm hiq
      · left
        rw [← hview] at hin
        rcases h' with hn' | hr'
        · exact hn'.waits hin (hk.trans hk₂)
        · rw [hr'.iq] at hin
          cases hin
      · right; right
        rw [← hview] at hst
        exact ⟨en₂, hk.trans hk₂, hr, hst⟩
  · rw [hr.iq] at hiq
    cases hiq

end

/-- **A captured operand never regresses.**  An entry that the queue holds in some state of a
    run is still there in every later one, and the operands flagged ready are so with the
    same values, until a cycle in which it is issued with them or an exception empties the
    queue. -/
theorem captured_operands_kept {P : Program} (hP : P.WellFormed) (hshort : P.Short) (ready : Bool)
    (uninit : ℕ → ℕ → UInt8) {n : ℕ} {p : Processor} (hp : runFrom ready P uninit n = some p)
    {en : IqEntry} (hen : en ∈ p.iq.toList) {n' : ℕ} (hn : n ≤ n') :
    (∃ p', runFrom ready P uninit n' = some p' ∧ Waits p' en) ∨
      ∃ k q q', n ≤ k ∧ k < n' ∧ runFrom ready P uninit k = some q ∧
        runFrom ready P uninit (k + 1) = some q' ∧ Waits q en ∧ Leaves q q' en := by
  induction n', hn using Nat.le_induction with
  | base =>
    left
    rcases live_runFrom hP hshort hp with hnorm | hr
    · exact ⟨p, hp, hnorm.waits hen (.refl en)⟩
    · rw [show p.iq.toList = [] from hr.iq] at hen
      cases hen
  | succ k hk ih =>
    rcases ih with ⟨q, hq, hw⟩ | ⟨j, q, q', hj, hjk, h⟩
    · obtain ⟨q', -, hq', hview⟩ := runFrom_succ hP hq
      rcases waits_or_leaves (safe_runFrom hP hq) (live_runFrom hP hshort hq)
        (live_runFrom hP hshort hq') hview hw with hw' | hl
      · exact .inl ⟨q', hq', hw'⟩
      · exact .inr ⟨k, q, q', hk, Nat.lt_succ_self k, hq, hq', hw, hl⟩
    · exact .inr ⟨j, q, q', hj, Nat.lt_succ_of_lt hjk, h⟩

/-- The division waits in the queue for its first operand, with the second one captured. -/
theorem captured_operands_kept_small : ∃ p en,
    runFrom false smallProgram (fun _ _ => 0) 3 = some p ∧ en ∈ p.iq.toList ∧
    en.isOpAReady = false ∧ en.isOpBReady = true ∧
    ((∃ p', runFrom false smallProgram (fun _ _ => 0) 7 = some p' ∧ Waits p' en) ∨
      ∃ k q q', 3 ≤ k ∧ k < 7 ∧ runFrom false smallProgram (fun _ _ => 0) k = some q ∧
        runFrom false smallProgram (fun _ _ => 0) (k + 1) = some q' ∧ Waits q en ∧
        Leaves q q' en) := by
  have hrun : (runFrom false smallProgram (fun _ _ => 0) 3).map (fun p =>
      p.iq.toList.map fun en => (en.isOpAReady, en.isOpBReady)) =
      some [(false, true), (false, true)] := by
    decide +kernel
  obtain ⟨p, hp, h⟩ := Option.map_eq_some_iff.1 hrun
  obtain ⟨en, l, hl, h1, -⟩ := List.map_eq_cons_iff.1 h
  have hen : en ∈ p.iq.toList := by simp [hl]
  rw [Prod.mk.injEq] at h1
  exact ⟨p, en, hp, hen, h1.1, h1.2, captured_operands_kept smallProgram_wellFormed
    smallProgram_short false _ hp hen (by decide)⟩

end R10000
