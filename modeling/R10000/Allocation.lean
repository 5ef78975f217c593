/-
  Which physical register an instruction is given.

  The Free List is a queue and the registers are freed in the order of the commits.  So the
  processor renames as `initialRenamer` does, which takes the instructions one by one and frees
  the old register of an instruction at once, whatever the order in which they are executed.
-/
import R10000.History
import R10000.Lib.FifoRenaming

namespace R10000

open Renaming Renamer

/-- The mappings and the Free List of `init_processor`. -/
def initialRenamer : Renamer UInt8 UInt8 where
  map := rd (Vector.ofFn fun i : Fin regLogFileSize => UInt8.ofNat i)
  pool := (List.range' regLogFileSize freeListSize).map UInt8.ofNat

/-- The logical destination of instruction `j`. -/
def Program.destOf (P : Program) (j : ℕ) : UInt8 :=
  ((P.instructions[j]?).map (·.dest.logId)).getD 0

/-- The mappings and the free registers after the instructions `pcs`. -/
def Program.renamed (P : Program) (pcs : List ℕ) : Renamer UInt8 UInt8 :=
  initialRenamer.renames (pcs.map P.destOf)

/-- The mappings are those of `s` after the instructions in the Active List. -/
def RenamesAs (s : Renamer UInt8 UInt8) (m : Machine) : Prop :=
  s.Follows (rd m.logical) (writes m.activeList)

/-- So are the free registers. -/
def AllocatesAs (s : Renamer UInt8 UInt8) (m : Machine) : Prop :=
  s.Matches (rd m.logical) m.freeList (writes m.activeList)

section
variable {s : Renamer UInt8 UInt8} {m : Machine}

/-! ## The stages -/

theorem AllocatesAs.retireN : ∀ (c : ℕ) {s : Renamer UInt8 UInt8} {m : Machine},
    c ≤ m.activeList.length → AllocatesAs s m →
    AllocatesAs (s.renames ((m.activeList.take c).map (·.logDest))) (m.retireN c)
  | 0, _, _, _, h => by
    rw [retireN_zero]
    exact h
  | c + 1, s, m, hc, h => by
    obtain ⟨e, rest, hl⟩ := List.exists_cons_of_length_pos (Nat.zero_lt_of_lt hc)
    rw [AllocatesAs, hl] at h
    have hretire : AllocatesAs (s.rename e.logDest) (m.retire e rest) := h.commit
    rw [hl] at hc
    rw [retireN_succ hl, hl, List.take_succ_cons, List.map_cons]
    exact AllocatesAs.retireN c (m := m.retire e rest) (Nat.le_of_succ_le_succ hc) hretire

/-- Write-back keeps the writes. -/
theorem writes_writeBackStage (m : Machine) :
    writes m.writeBackStage.activeList = writes m.activeList := by
  have hfold : ∀ (l : List Instruction) (m : Machine),
      writes (l.foldl Machine.writeBack m).activeList = writes m.activeList := by
    intro l
    induction l with
    | nil => exact fun m => rfl
    | cons x l ih =>
      intro m
      have hcomplete := complete_map ActiveListEntry.write (fun _ => rfl) (fun _ => rfl) x
        m.activeList
      exact (ih (m.writeBack x)).trans hcomplete
  exact hfold _ _

theorem AllocatesAs.executed (h : AllocatesAs s m) :
    AllocatesAs s m.executeStage.writeBackStage.issueStage := by
  have hwrites := writes_writeBackStage m.executeStage
  obtain ⟨ph, b, al, hw⟩ := writeBackStage_frame m.executeStage
  rw [hw] at hwrites ⊢
  have hal : writes al = writes m.activeList := hwrites
  rw [AllocatesAs] at h ⊢
  simp only [Machine.issueStage, Machine.executeStage, hal]
  exact h

theorem AllocatesAs.dispatchStage (uninit : ℕ → UInt8) (hs : Safe m) (h : AllocatesAs s m) :
    AllocatesAs s (m.dispatchStage uninit).1 := by
  unfold Machine.dispatchStage
  split_ifs with hst
  · exact h
  · refine Machine.dispatchLoop_induction
      (I := fun n m => Safe m ∧ m.iq.length + n ≤ 32 ∧ AllocatesAs s m)
      (J := fun r => AllocatesAs s r.1)
      uninit ?_ ?_ ?_ ?_ _ _ _ ⟨hs.setBackpressure false, (hs.room (by simpa using hst)).2.2, h⟩
    · rintro n m x dir p freeList hd hf ⟨hs, hn, h⟩
      have hr : x.dest.logId.toNat < 32 := (hs.dir_ok x (by simp [hd])).fit.dest.2
      refine ⟨hs.dispatch hd hf (by omega), ?_, ?_⟩
      · rw [Machine.length_dispatch_iq]
        omega
      · rw [AllocatesAs, hf] at h
        simp only [AllocatesAs, Machine.dispatch, Machine.allocate, writes_append,
          rd_wr_update hr]
        exact h.allocate x.dest.logId
    · exact fun m h => h.2.2
    · exact fun n m x dir hd h => h.2.2
    · exact fun n m h => h.2.2

/-- Recovery takes the youngest writes back. -/
theorem RenamesAs.recover (n : ℕ) (hs : Safe m) (h : RenamesAs s m) :
    RenamesAs s (m.recover n) := by
  have hkeep := Machine.recover_induction (I := fun m => Safe m ∧ RenamesAs s m)
    (fun m e rest hl h => ?_) n m ⟨hs, h⟩
  · exact hkeep.2
  · have hr := h.1.logDest_lt e (by simp [hl])
    refine ⟨h.1.rollback hl, ?_⟩
    have hlast := h.2
    rw [RenamesAs, hl, writes_append] at hlast
    simp only [RenamesAs, Machine.rollback, rd_wr_update hr]
    exact hlast.rollback

/-! ## One cycle -/

theorem RenamesAs.cycle_raised (uninit : ℕ → UInt8) (hs : Safe m) (hr : Raised m)
    (h : RenamesAs s m) : RenamesAs s (m.cycle uninit) := by
  have hcommit : RenamesAs s m.commitStage := by
    obtain ⟨e, bp, hend⟩ := endException_frame m
    rw [Machine.commitStage, if_pos hr.mode]
    refine RenamesAs.recover _ hs.endException ?_
    rw [hend]
    exact h
  rw [cycle_of_raised uninit (hr.commitStage hs)]
  exact hcommit

/-- In the normal mode a cycle moves the renamer forward by the instructions that it commits; the
    free registers are those of the renamer unless it raises an exception. -/
theorem AllocatesAs.cycle (uninit : ℕ → UInt8) (hs : Safe m) (hn : Normal m.stage1 m)
    (h : AllocatesAs s m) :
    RenamesAs (s.renames ((m.activeList.take m.commits).map (·.logDest))) (m.cycle uninit) ∧
      ((m.cycle uninit).exceptionMode = false →
        AllocatesAs (s.renames ((m.activeList.take m.commits).map (·.logDest)))
          (m.cycle uninit)) := by
  obtain ⟨c, -, hc, -, hret, ⟨hq, -⟩ | ⟨-, e, -, -, -, hq, hr⟩⟩ := hn.commitStage
  · have hcommits := commits_eq hn.mode hc (congrArg Machine.activeList hq)
    have hall : AllocatesAs (s.renames ((m.activeList.take m.commits).map (·.logDest)))
        (m.cycle uninit) := by
      have hback := (h.retireN c hc).executed
      rw [← hq] at hback
      have hdisp := AllocatesAs.dispatchStage uninit hs.backEnd hback
      rw [hcommits]
      simp only [Machine.cycle]
      split_ifs
      · exact hdisp
      · exact hdisp
    exact ⟨hall.toFollows, fun _ => hall⟩
  · have hcommits := commits_eq hn.mode hc (congrArg Machine.activeList hq)
    have hmode : (m.cycle uninit).exceptionMode = true :=
      (cycle_frame uninit m).1.trans hr.mode
    have hcommit : RenamesAs (s.renames ((m.activeList.take c).map (·.logDest)))
        m.commitStage := by
      rw [hq]
      exact (h.retireN c hc).toFollows
    refine ⟨?_, fun hm => ?_⟩
    · rw [hcommits, cycle_of_raised uninit hr]
      exact hcommit
    · rw [hmode] at hm
      cases hm

end

/-! ## Runs -/

/-- The destinations of the entries are those of the program. -/
theorem Window.dests {program : Program} {logical : Vector UInt8 regLogFileSize}
    {isBusy : Vector Bool regPhyFileSize} {al : List ActiveListEntry}
    (h : Window program logical isBusy al) :
    al.map (·.logDest) = (al.map (·.pc)).map program.destOf := by
  rw [List.map_map]
  refine List.map_congr_left fun e he => ?_
  obtain ⟨x, hx, hd⟩ := h.program_dest e he
  rw [Function.comp, Program.destOf, hx, hd]
  rfl

theorem Inv.window {m : Machine} (h : Inv m) (hP : m.program.Short) :
    Window m.program m.logical m.isBusy m.activeList := by
  cases hm : m.exceptionMode with
  | true => exact (h.raised hP hm).window
  | false => exact (h.normal hm).window

section
variable {P : Program} (hP : P.WellFormed) (hshort : P.Short) (ready : Bool)
  (uninit : ℕ → ℕ → UInt8)
include hP hshort

/-- **The processor renames as the renamer does** that has taken the committed instructions. -/
theorem allocatesAs_runFrom : ∀ n,
    RenamesAs (P.renamed (committed ready P uninit n)) (.runFrom ready P uninit n) ∧
      ((Machine.runFrom ready P uninit n).exceptionMode = false →
        AllocatesAs (P.renamed (committed ready P uninit n)) (.runFrom ready P uninit n))
  | 0 => by
    have hinit : AllocatesAs (P.renamed (committed ready P uninit 0))
        (.runFrom ready P uninit 0) := ⟨⟨trivial, rfl⟩, List.append_nil _⟩
    exact ⟨hinit.toFollows, fun _ => hinit⟩
  | n + 1 => by
    obtain ⟨p, h1, h2⟩ := runFrom_ok hP ready uninit n
    obtain ⟨ih, ihn⟩ := allocatesAs_runFrom n
    have hinv := Inv.runFrom hP ready uninit n
    have hprog : (Machine.runFrom ready P uninit n).program = P := runFrom_program n
    have hw := hinv.window (by rw [hprog]; exact hshort)
    have hstep : P.renamed (committed ready P uninit (n + 1)) =
        (P.renamed (committed ready P uninit n)).renames
          (((Machine.runFrom ready P uninit n).activeList.take
            (Machine.runFrom ready P uninit n).commits).map (·.logDest)) := by
      rw [committed, h1, Option.map_some, Option.getD_some,
        committedPcs_eq (safe_runFrom hP h1), h2, List.map_take, List.map_take, hw.dests, hprog,
        Program.renamed, List.map_append, renames_append, List.map_take]
      rfl
    rw [hstep, Machine.runFrom]
    cases hm : (Machine.runFrom ready P uninit n).exceptionMode with
    | true =>
      have hmode : ((Machine.runFrom ready P uninit n).cycle (uninit n)).exceptionMode = true :=
        (cycle_frame _ _).1.trans (commitStage_mode hm)
      have hr := hinv.raised (by rw [hprog]; exact hshort) hm
      rw [Machine.commits, if_pos hm, List.take_zero]
      refine ⟨ih.cycle_raised _ hinv.safe hr, fun hm' => ?_⟩
      rw [hmode] at hm'
      cases hm'
    | false => exact (ihn hm).cycle _ hinv.safe (hinv.normal hm)

end

end R10000
