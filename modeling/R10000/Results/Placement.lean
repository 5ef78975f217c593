/-
  The ALUs have no order: the forwarding paths may be processed in any order, and it does not
  matter which ALU receives which instruction.
-/
import Mathlib.Data.List.FinRange
import R10000.Placement
import R10000.Results.LifeCycle
import R10000.Results.Trace

namespace R10000

open Fallible

/-! ## The order of the forwarding paths -/

/-- `rename_dispatch_update_structures` with the forwarding paths in another order. -/
def updateStructuresIn (order : List (Fin numAlus)) : ProcM Unit := forM order updateIteration

theorem updateStructuresIn_finRange :
    updateStructuresIn (List.finRange numAlus) = renameDispatchUpdateStructures := rfl

/-- Every order of the forwarding paths gives the same registers, busy bits and Active List. -/
def AnyOrder (q : Processor) : Prop :=
  ∀ order : List (Fin numAlus), order.Perm (List.finRange numAlus) →
    ∃ r r', renameDispatchUpdateStructures q = .ok () r ∧ updateStructuresIn order q = .ok () r' ∧
      r'.physical = r.physical ∧ r'.isBusy = r.isBusy ∧
      r'.activeList.toList = r.activeList.toList

/-- The instructions in the last ALU stage are distinct. -/
theorem Live.distinct {m : Machine} (hs : Safe m) (h : Live m) : Distinct m.stage1 := by
  rcases h with hn | hr
  · refine (hn.distinct hs).sublist ?_
    exact (List.sublist_append_right m.stage0 m.stage1).trans (List.sublist_append_right _ _)
  · rw [hr.stage1]
    exact ⟨.nil, .nil⟩

/-- The state in which a cycle calls `rename_dispatch_update_structures`. -/
def atUpdate (p : Processor) : Processor :=
  endState ((do
    commitCycle
    forM (List.finRange numAlus) aluCycle : ProcM Unit) p)

section
variable {p : Processor} (hs : Safe (view p))
include hs

theorem anyOrder (hd : Distinct (view p).stage1) : AnyOrder p := by
  intro order hperm
  have hok := stageOk_of_safe hs
  obtain ⟨r, hr, hview⟩ := writeBackStage_sim hs
  obtain ⟨r', hr', hview'⟩ := updateIterations_sim hok order
  have hstage : ((order.map fun i => (p.alus.get i).stage1).filter
      (·.type ≠ .unknownType)).Perm (view p).stage1 := by
    rw [show (view p).stage1 = inStage Alu.stage1 p.alus from rfl, inStage,
      ← map_forwardingPath]
    exact (hperm.map _).filter _
  have heq : view r' = view r := by
    rw [hview', hview]
    exact (foldl_writeBack_perm hstage.symm hd _).symm
  exact ⟨r, r', hr, hr', congrArg Machine.physical heq, congrArg Machine.isBusy heq,
    congrArg Machine.activeList heq⟩

theorem view_atUpdate : view (atUpdate p) = (view p).commitStage.executeStage := by
  refine Sim.endState (a := ⟨⟩) ((commitCycle_sim hs).bind fun p₁ h₁ => ?_)
  rw [← h₁]
  exact executeStage_sim (h₁ ▸ hs.commitStage)

theorem anyOrder_atUpdate (h : Live (view p)) : AnyOrder (atUpdate p) := by
  have hview := view_atUpdate hs
  have hs' := hs.commitStage.executeStage
  have hd := (h.commitStage hs).executeStage.distinct hs'
  exact anyOrder (hview ▸ hs') (hview ▸ hd)

end

/-! ## The ALUs of the issued instructions -/

/-- `issue_cycle` with the instructions at other ALUs: the ALU `i` receives the one that the
    code gives to the ALU `place i`. -/
def issueCyclePlaced (place : Equiv.Perm (Fin numAlus)) : ProcM ℕ := do
  iqRefreshReady
  let p ← get
  let (entries, iq) ← orReturn (iqGetFirstNReady p.iq numAlus)
  modify fun p => { p with
    iq
    alus := Vector.ofFn fun i : Fin numAlus =>
      aluPushInstruction (p.alus.get i)
        (if h : place i < entries.length then entries[place i].instr else bubble) }
  return entries.length

theorem issueCyclePlaced_refl : issueCyclePlaced (.refl _) = issueCycle := rfl

/-- The stages of `processor_cycle` before rename and dispatch, with the placement `place`. -/
def backEndPlaced (place : Equiv.Perm (Fin numAlus)) : ProcM Unit := do
  commitCycle
  forM (List.finRange numAlus) aluCycle
  renameDispatchUpdateStructures
  discard (issueCyclePlaced place)

/-- `processor_cycle` with the placement `place`. -/
def processorCyclePlaced (place : Equiv.Perm (Fin numAlus)) (uninit : ℕ → UInt8) :
    ProcM Unit := do
  backEndPlaced place
  renameDispatchCycle uninit
  let fetchedInstr ← fetchDecodeCycle
  modify (checkFinished fetchedInstr)

/-- A run with the placement `place n` in the cycle `n`. -/
def runPlaced (place : ℕ → Equiv.Perm (Fin numAlus)) (ready : Bool) (P : Program)
    (uninit : ℕ → ℕ → UInt8) : ℕ → Option Processor
  | 0 => (initProcessor P ready).toOption
  | n + 1 => do
    let p ← runPlaced place ready P uninit n
    returned (processorCyclePlaced (place n) (uninit n) p)

theorem runPlaced_refl (ready : Bool) (P : Program) (uninit : ℕ → ℕ → UInt8) :
    ∀ n, runPlaced (fun _ => .refl _) ready P uninit n = runFrom ready P uninit n
  | 0 => rfl
  | n + 1 => by
    rw [runPlaced, runPlaced_refl ready P uninit n]
    rfl

/-- The stages of the ALUs after an issue, up to the order. -/
theorem inStage_pushPlaced (place : Equiv.Perm (Fin numAlus)) (alus : Vector Alu numAlus)
    (entries : List IqEntry) (hlen : entries.length ≤ 4)
    (hreal : ∀ en ∈ entries, en.instr.type ≠ .unknownType) :
    let alus' : Vector Alu numAlus := Vector.ofFn fun i : Fin numAlus =>
      aluPushInstruction (alus.get i)
        (if h : place i < entries.length then entries[place i].instr else bubble)
    (inStage Alu.stage0 alus').Perm (entries.map IqEntry.instr) ∧
      inStage Alu.stage1 alus' = inStage Alu.stage0 alus := by
  obtain ⟨h0, h1⟩ := inStage_push alus entries hlen hreal
  let slot : Fin numAlus → Instruction := fun i =>
    if h : i < entries.length then entries[i].instr else bubble
  have hpush : ∀ f : Fin numAlus → Instruction,
      (Vector.ofFn fun i => aluPushInstruction (alus.get i) (f i)).toList.map Alu.stage0 =
        List.ofFn f := by
    intro f
    rw [Vector.toList_ofFn, List.map_ofFn]
    rfl
  refine ⟨?_, ?_⟩
  · have hperm := place.ofFn_comp_perm slot
    rw [← hpush, ← hpush slot] at hperm
    rw [← h0]
    exact hperm.filter _
  · rw [← h1]
    obtain ⟨a, b, c, d, rfl⟩ := exists_alus alus
    rfl

section
variable {p : Processor} (hs : Safe (view p)) (place : Equiv.Perm (Fin numAlus))
include hs

theorem issueCyclePlaced_ok : ∃ p', issueCyclePlaced place p =
      .ok (select numAlus (p.iq.toList.map (view p).refresh)).1.length p' ∧
    Rearranged (view p).issueStage (view p') := by
  obtain ⟨q, q', h1, h2, h3⟩ := selectReady_ok hs
  obtain ⟨hst0, hst1⟩ :=
    inStage_pushPlaced place p.alus _ (select_length numAlus _) (selected_real hs)
  generalize halus : (Vector.ofFn fun i : Fin numAlus => aluPushInstruction (p.alus.get i)
    (if h : place i < (select numAlus (p.iq.toList.map (view p).refresh)).1.length then
      (select numAlus (p.iq.toList.map (view p).refresh)).1[place i].instr else bubble)) = alus
    at hst0 hst1
  refine ⟨{ p with iq := q', alus }, ?_, ?_⟩
  · rw [issueCyclePlaced, bind_ok h1]
    simp only [get_bind, h2, orReturn_ok, pure_bind_run, modify_bind, pure_run]
    rw [← halus]
  · refine ⟨inStage Alu.stage0 alus, (view p).stage0, hst0, .refl _, ?_⟩
    rw [show view { p with iq := q', alus } = { view p with
      iq := q'.toList
      stage0 := inStage Alu.stage0 alus
      stage1 := inStage Alu.stage1 alus } from rfl, hst1, h3]
    rfl

/-- The stages before dispatch, with other ALUs. -/
theorem backEndPlaced_ok {m : Machine} (hd : Distinct m.commitStage.executeStage.stage1)
    (h : Rearranged m (view p)) : ∃ p', backEndPlaced place p = .ok () p' ∧
    Rearranged m.backEnd (view p') := by
  obtain ⟨p₁, hview, hthen⟩ := beforeIssue_then hs (issueCyclePlaced place)
  obtain ⟨p', h', hissue⟩ :=
    issueCyclePlaced_ok (hview ▸ hs.commitStage.executeStage.writeBackStage) place
  have hbefore := h.commitStage.executeStage.writeBackStage hd
  rw [← hview] at hbefore
  exact ⟨p', hthen _ p' h', hbefore.issueStage.trans hissue⟩

end

/-- **Two runs, one cycle.**  A cycle from the instructions of `m` in another order, that issues
    to other ALUs, ends as the cycle of `m` does, up to the order. -/
theorem returned_cyclePlaced {m : Machine} {p : Processor} (place : Equiv.Perm (Fin numAlus))
    (uninit : ℕ → UInt8) (hs : Safe m) (hlive : Live m) (h : Rearranged m (view p)) :
    ∃ p', returned (processorCyclePlaced place uninit p) = some p' ∧
      Rearranged (m.cycle uninit) (view p') := by
  have hs₁ := hs.commitStage.executeStage
  have hd := (hlive.commitStage hs).executeStage.distinct hs₁
  obtain ⟨p₄, h₄, hre⟩ := backEndPlaced_ok (h.safe hs) place hd h
  obtain ⟨p', hret, hview⟩ := (afterIssue_ends (hre.safe hs.backEnd) uninit).returned
  refine ⟨p', ?_, ?_⟩
  · rw [processorCyclePlaced, bind_ok h₄]
    exact hret
  · rw [hview, Machine.cycle_afterIssue]
    exact hre.of_blind (blind_afterIssue uninit)

/-- **Two runs.**  With other ALUs in each cycle the run stays the same up to the order. -/
theorem runPlaced_ok {P : Program} (hP : P.WellFormed) (hshort : P.Short) (ready : Bool)
    (uninit : ℕ → ℕ → UInt8) (place : ℕ → Equiv.Perm (Fin numAlus)) :
    ∀ n, ∃ p', runPlaced place ready P uninit n = some p' ∧
      Rearranged (.runFrom ready P uninit n) (view p')
  | 0 => by
    obtain ⟨p, h1, h2⟩ := initProcessor_ok P ready
    refine ⟨p, by rw [runPlaced, h1]; rfl, ?_⟩
    rw [h2]
    exact .refl _
  | n + 1 => by
    obtain ⟨p, hp, -⟩ := runFrom_ok hP ready uninit n
    have hlive := live_runFrom hP hshort hp
    rw [view_runFrom hP hp] at hlive
    obtain ⟨q, hq, hre⟩ := runPlaced_ok hP hshort ready uninit place n
    obtain ⟨q', hret, hre'⟩ := returned_cyclePlaced (place n) (uninit n)
      (Safe.runFrom hP ready uninit n) hlive hre
    exact ⟨q', by rw [runPlaced, hq]; exact hret, hre'⟩

/-- The order in the ALUs is not recorded. -/
theorem Rearranged.recorded {m m' : Machine} (h : Rearranged m m') :
    m'.recorded = m.recorded ∧ m'.finished = m.finished := by
  obtain ⟨s₀, s₁, -, -, rfl⟩ := h
  exact ⟨rfl, rfl⟩

/-- **The order and the placement of the results do not matter.**  In every state of a run,
    and within each cycle where they are processed, the forwarding paths may be taken in any
    order; and a run that issues to other ALUs, in one cycle or in each, records the same. -/
theorem alu_order_irrelevant {P : Program} (hP : P.WellFormed) (hshort : P.Short) (ready : Bool)
    (uninit : ℕ → ℕ → UInt8) (place : ℕ → Equiv.Perm (Fin numAlus)) (n : ℕ) :
    ∃ p p', runFrom ready P uninit n = some p ∧ AnyOrder p ∧ AnyOrder (atUpdate p) ∧
      runPlaced place ready P uninit n = some p' ∧ recorded p' = recorded p ∧
      p'.finished = p.finished := by
  obtain ⟨p, hp, hview⟩ := runFrom_ok hP ready uninit n
  obtain ⟨p', hp', hre⟩ := runPlaced_ok hP hshort ready uninit place n
  have hs := safe_runFrom hP hp
  have hlive := live_runFrom hP hshort hp
  rw [← hview] at hre
  obtain ⟨hrec, hfin⟩ := hre.recorded
  exact ⟨p, p', hp, anyOrder hs (hlive.distinct hs), anyOrder_atUpdate hs hlive, hp', hrec, hfin⟩

theorem alu_order_irrelevant_small : ∃ p p', runFrom false smallProgram (fun _ _ => 0) 5 = some p ∧
    AnyOrder p ∧ AnyOrder (atUpdate p) ∧
    runPlaced (fun _ => Equiv.swap 0 1) false smallProgram (fun _ _ => 0) 5 = some p' ∧
    recorded p' = recorded p ∧ p'.finished = p.finished :=
  alu_order_irrelevant smallProgram_wellFormed smallProgram_short false _ _ 5

end R10000
