/-
  Renaming is static: which physical registers the processor uses depends on the destinations
  of the instructions alone, and registers are used again in the order of the program.
-/
import R10000.Allocation
import R10000.Results.Refinement
import R10000.Termination

namespace R10000

open Renaming Renamer

/-! ## The renamer -/

/-- **The processor renames in program order**, in every state of a run, although it frees
    registers late and executes out of order: its committed mappings, its map table and the
    registers of each entry are those of a renamer that takes the instructions one by one and
    frees the replaced register at once.  Unless an exception was raised, the Free List and the
    registers that the entries replaced are the pool of that renamer. -/
theorem renames_in_order {P : Program} (hP : P.WellFormed) (hshort : P.Short) (ready : Bool)
    (uninit : ℕ → ℕ → UInt8) (n : ℕ) : ∃ p pcs, runFrom ready P uninit n = some p ∧
      pcs = committed ready P uninit n ∧ (∀ r, committedReg p r = (P.renamed pcs).map r) ∧
      rd p.logical = (P.renamed (pcs ++ p.activeList.toList.map (·.pc))).map ∧
      (∀ pre e post, p.activeList.toList = pre ++ e :: post →
        (P.renamed (pcs ++ pre.map (·.pc))).pool.head? = some e.currPhyDest ∧
        e.oldPhyDest = (P.renamed (pcs ++ pre.map (·.pc))).map e.logDest) ∧
      (raised ready P uninit n = [] → p.freeList.toList ++ p.activeList.toList.map (·.oldPhyDest) =
        (P.renamed (pcs ++ p.activeList.toList.map (·.pc))).pool) := by
  obtain ⟨p, h1, h2⟩ := runFrom_ok hP ready uninit n
  obtain ⟨hren, hall⟩ := allocatesAs_runFrom hP hshort ready uninit n
  rw [← h2] at hren hall
  have hprog : (view p).program = P := program_runFrom hP h1
  have hw := (inv_runFrom hP h1).window (by rw [hprog]; exact hshort)
  rw [hprog] at hw
  -- the writes of a part of the Active List rename the destinations of its instructions
  have hregs : ∀ l : List ActiveListEntry, (∀ e ∈ l, e ∈ p.activeList.toList) →
      (P.renamed (committed ready P uninit n)).renames ((writes l).map Write.reg) =
        P.renamed (committed ready P uninit n ++ l.map (·.pc)) := by
    intro l hl
    rw [Program.renamed, Program.renamed, List.map_append, renames_append, writes, List.map_map,
      List.map_map]
    congr 1
    refine List.map_congr_left fun e he => ?_
    obtain ⟨x, hx, hd⟩ := hw.program_dest e (hl e he)
    rw [Function.comp, Function.comp, Program.destOf, hx, write_reg, hd]
    rfl
  refine ⟨p, _, h1, rfl, fun r => ?_, ?_, fun pre e post hl => ?_, fun hr => ?_⟩
  · rw [← archMap_eq_committedReg]
    exact congrFun hren.before r
  · rw [← hregs _ fun e he => he]
    exact hren.map
  · rw [← hregs pre fun e he => by simp [hl, he]]
    have hl' : (view p).activeList = pre ++ e :: post := hl
    rw [RenamesAs, hl', writes_append, writes_cons] at hren
    exact hren.write
  · rw [raised_eq hP, ← h2] at hr
    split_ifs at hr with hm
    rw [← hregs _ fun e he => he]
    refine .trans ?_ (hall (by simpa using hm)).pool
    rw [writes, List.map_map]
    rfl

theorem renames_in_order_small : ∃ p pcs,
    runFrom false smallProgram (fun _ _ => 0) 6 = some p ∧
    pcs = committed false smallProgram (fun _ _ => 0) 6 ∧
    (∀ r, committedReg p r = (smallProgram.renamed pcs).map r) ∧
    rd p.logical = (smallProgram.renamed (pcs ++ p.activeList.toList.map (·.pc))).map ∧
    (∀ pre e post, p.activeList.toList = pre ++ e :: post →
      (smallProgram.renamed (pcs ++ pre.map (·.pc))).pool.head? = some e.currPhyDest ∧
      e.oldPhyDest = (smallProgram.renamed (pcs ++ pre.map (·.pc))).map e.logDest) ∧
    (raised false smallProgram (fun _ _ => 0) 6 = [] →
      p.freeList.toList ++ p.activeList.toList.map (·.oldPhyDest) =
        (smallProgram.renamed (pcs ++ p.activeList.toList.map (·.pc))).pool) :=
  renames_in_order smallProgram_wellFormed smallProgram_short false _ 6

/-! ## The order of reuse -/

section
variable {P : Program} (hP : P.WellFormed) (hshort : P.Short) {ready : Bool}
  {uninit : ℕ → ℕ → UInt8}
include hP hshort

theorem active_pcs : ∀ n, RunHandsValid ready P uninit n →
    (Machine.runFrom ready P uninit n).activeList.map (·.pc) =
      List.range' (committed ready P uninit n).length
        (Machine.runFrom ready P uninit n).activeList.length
  | 0, _ => rfl
  | n + 1, h => by
    have h' : RunHandsValid ready P uninit n := fun j hj => h j (Nat.lt_succ_of_lt hj)
    have ih := active_pcs n h'
    have hinv := Inv.runFrom hP ready uninit n
    have hprog : (Machine.runFrom ready P uninit n).program.Short := by
      rw [runFrom_program]
      exact hshort
    obtain ⟨p, h1, h2⟩ := runFrom_ok hP ready uninit n
    cases hm' : (Machine.runFrom ready P uninit (n + 1)).exceptionMode with
    | false => exact ((correct_runFrom hP (n + 1) h).val hm').2.active
    | true =>
      cases hm : (Machine.runFrom ready P uninit n).exceptionMode with
      | true =>
        have hrec := ((hinv.raised hprog hm).cycle_recovers (uninit n) hprog hinv.safe).1
        rw [(committed_of_raised hP hm (n + 1) (Nat.le_succ n)).2, Machine.runFrom, hrec,
          List.map_take, ih, List.take_range'_of_length_ge (Nat.sub_le ..),
          List.length_take_of_le (Nat.sub_le ..)]
      | false =>
        obtain ⟨c, -, hc, -, hret, ⟨hq, -⟩ | ⟨-, e, -, -, -, hq, hr⟩⟩ :=
          (hinv.normal hm).commitStage
        · rw [Machine.runFrom, (cycle_frame _ _).1, hq, hret.mode] at hm'
          cases hm'
        · have hcommits := commits_eq hm hc (congrArg Machine.activeList hq)
          have hal : (Machine.runFrom ready P uninit (n + 1)).activeList =
              (Machine.runFrom ready P uninit n).activeList.drop c := by
            rw [Machine.runFrom, cycle_of_raised _ hr, hq]
            rfl
          rw [committed, h1, Option.map_some, Option.getD_some,
            committedPcs_eq (safe_runFrom hP h1), h2, hcommits, List.length_append,
            List.length_map, List.length_take_of_le hc, hal, List.map_drop, ih,
            List.drop_range', Nat.mul_one, List.length_drop]

theorem entry_registers {n : ℕ} (hv : RunHandsValid ready P uninit n) {p : Processor}
    (hp : runFrom ready P uninit n = some p) {e : ActiveListEntry}
    (he : e ∈ p.activeList.toList) :
    (P.renamed (List.range e.pc)).pool.head? = some e.currPhyDest ∧
      e.oldPhyDest = (P.renamed (List.range e.pc)).map (P.destOf e.pc) := by
  obtain ⟨q, pcs, hq, rfl, -, -, hentry, -⟩ := renames_in_order hP hshort ready uninit n
  obtain rfl := Option.some.inj (hp.symm.trans hq)
  have hprog : (view p).program = P := program_runFrom hP hp
  have hw := (inv_runFrom hP hp).window (by rw [hprog]; exact hshort)
  have hpcs := active_pcs hP hshort n hv
  rw [← view_runFrom hP hp] at hpcs
  obtain ⟨pre, post, hl⟩ := List.append_of_mem he
  have hl' : (view p).activeList = pre ++ e :: post := hl
  obtain ⟨x, hx, hd⟩ := hw.program_dest e he
  rw [hprog] at hx
  have hdest : P.destOf e.pc = e.logDest := by
    rw [Program.destOf, hx, hd]
    rfl
  -- the instructions before the entry are the first ones of the program
  have hprefix : committed ready P uninit n ++ pre.map (·.pc) = List.range e.pc := by
    rw [hl', List.map_append, List.map_cons, List.length_append, List.length_cons,
      ← List.range'_append_1, List.range'_succ] at hpcs
    obtain ⟨hpre, hrest⟩ := List.append_inj hpcs (by simp)
    rw [hpre, (List.cons.inj hrest).1, committed_eq hP n hv, List.length_range',
      List.range_eq_range', ← List.range'_append_1, Nat.zero_add]
  rw [hdest, ← hprefix]
  exact hentry pre e post hl

end

/-- **Registers are used again in program order**: instruction `j` is given the register
    `32 + j`, or the one that instruction `j - 32` replaced, in a run that hands valid bytes to
    `free_list_pop`. -/
theorem registers_recycled {P : Program} (hP : P.WellFormed) (hshort : P.Short) (ready : Bool)
    (uninit : ℕ → ℕ → UInt8) (n n' : ℕ) (hv : RunHandsValid ready P uninit n)
    (hv' : RunHandsValid ready P uninit n') : ∃ p p', runFrom ready P uninit n = some p ∧
      runFrom ready P uninit n' = some p' ∧ ∀ e ∈ p.activeList.toList,
        (e.pc < 32 → e.currPhyDest = UInt8.ofNat (32 + e.pc)) ∧
        ∀ e' ∈ p'.activeList.toList, e'.pc = e.pc + 32 → e'.currPhyDest = e.oldPhyDest := by
  obtain ⟨p, hp, -⟩ := runFrom_ok hP ready uninit n
  obtain ⟨p', hp', -⟩ := runFrom_ok hP ready uninit n'
  refine ⟨p, p', hp, hp', fun e he => ⟨fun hlt => ?_, fun e' he' hpc => ?_⟩⟩
  · obtain ⟨hnew, -⟩ := entry_registers hP hshort hv hp he
    have hpool : initialRenamer.pool = (List.range' 32 e.pc).map UInt8.ofNat ++
        UInt8.ofNat (32 + e.pc) :: (List.range' (32 + e.pc + 1) (31 - e.pc)).map UInt8.ofNat := by
      rw [← List.map_cons, ← List.map_append, ← List.range'_succ, List.range'_append_1]
      rw [show e.pc + (31 - e.pc + 1) = 32 by omega]
      rfl
    have hhead : (P.renamed (List.range e.pc)).pool.head? = some (UInt8.ofNat (32 + e.pc)) :=
      head_renames hpool (by simp)
    exact Option.some.inj (hnew.symm.trans hhead)
  · obtain ⟨-, hold⟩ := entry_registers hP hshort hv hp he
    obtain ⟨hnew, -⟩ := entry_registers hP hshort hv' hp' he'
    have hrange : List.range (e.pc + 32) =
        List.range e.pc ++ e.pc :: List.range' (e.pc + 1) 31 := by
      rw [← List.range'_succ, List.range_eq_range', List.range_eq_range', ← List.range'_append_1,
        Nat.zero_add]
    have hlen : (initialRenamer.renames ((List.range e.pc).map P.destOf)).pool.length = 32 :=
      length_renames (by decide) _
    rw [hpc, hrange, Program.renamed, List.map_append, List.map_cons, renames_append,
      head_recycled (by rw [List.length_map, List.length_range']; exact hlen.symm)] at hnew
    exact (Option.some.inj hnew).symm.trans hold.symm

/-- One more instruction than there are free registers at the start. -/
def longProgram : Program := .ofList (List.replicate 33 (.addi, 1, 0, immOperand 5)) (by decide)

/-- Instruction 0 is in the Active List after two cycles, instruction 32 after ten. -/
theorem registers_recycled_long : ∃ p p',
    runFrom false longProgram (fun _ _ => 0) 2 = some p ∧
    runFrom false longProgram (fun _ _ => 0) 10 = some p' ∧ ∀ e ∈ p.activeList.toList,
      (e.pc < 32 → e.currPhyDest = UInt8.ofNat (32 + e.pc)) ∧
      ∀ e' ∈ p'.activeList.toList, e'.pc = e.pc + 32 → e'.currPhyDest = e.oldPhyDest :=
  registers_recycled (by decide) (by decide) false _ 2 10 (runHandsValid_zero _ _ _)
    (runHandsValid_zero _ _ _)

end R10000
