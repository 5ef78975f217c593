/-
  Safety of the abstract machine, for programs of any length and in any mode: no
  physical register is lost or duplicated, every register id is in range, and every
  instruction in the pipeline is one that the ALUs accept.
-/
import R10000.Machine
import Mathlib.Data.List.Nodup
import Mathlib.Data.List.Perm.Basic

namespace R10000

/-! ## Register ids -/

/-- The ids `0..63`. -/
def allRegs : List UInt8 := (List.range 64).map UInt8.ofNat

theorem toNat_ofNat {i : ℕ} (h : i < 256) : (UInt8.ofNat i).toNat = i := by
  simp [Nat.mod_eq_of_lt h]

theorem mem_allRegs {p : UInt8} : p ∈ allRegs ↔ p.toNat < 64 := by
  simp only [allRegs, List.mem_map, List.mem_range]
  constructor
  · rintro ⟨i, hi, rfl⟩
    rw [toNat_ofNat (by omega)]; exact hi
  · exact fun h => ⟨p.toNat, h, by simp⟩

theorem nodup_allRegs : allRegs.Nodup := by
  refine List.Nodup.map_on (fun i hi j hj h => ?_) List.nodup_range
  simp only [List.mem_range] at hi hj
  have := congrArg UInt8.toNat h
  rwa [toNat_ofNat (by omega), toNat_ofNat (by omega)] at this

theorem length_allRegs : allRegs.length = 64 := by simp [allRegs]

/-! ## Tables as lists -/

section
variable {α : Type} {n : ℕ} {v : Vector α n} {i : UInt8}

theorem toList_wr (x : α) : (wr v i x).toList = v.toList.set i.toNat x := by
  simp [wr]

theorem getElem?_rd [Inhabited α] (h : i.toNat < n) : v.toList[i.toNat]? = some (rd v i) := by
  simp [rd, h]

theorem rd_mem [Inhabited α] (h : i.toNat < n) : rd v i ∈ v.toList :=
  List.mem_of_getElem? (getElem?_rd h)

/-- Replacing an element of a list exchanges the old one for the new one. -/
theorem cons_set_perm {l : List α} {i : ℕ} {y : α} (h : l[i]? = some y) (x : α) :
    (y :: l.set i x).Perm (x :: l) := by
  obtain ⟨hi, rfl⟩ := List.getElem?_eq_some_iff.1 h
  rw [List.set_eq_take_append_cons_drop, if_pos hi]
  calc (l[i] :: (l.take i ++ x :: l.drop (i + 1)))
      _ |>.Perm (l[i] :: x :: (l.take i ++ l.drop (i + 1))) := List.perm_middle.cons _
      _ |>.Perm (x :: l[i] :: (l.take i ++ l.drop (i + 1))) := .swap _ _ _
      _ |>.Perm (x :: (l.take i ++ l[i] :: l.drop (i + 1))) := List.perm_middle.symm.cons _
      _ = x :: l := by rw [List.getElem_cons_drop, List.take_append_drop]

theorem cons_wr_perm [Inhabited α] (h : i.toNat < n) (x : α) :
    (rd v i :: (wr v i x).toList).Perm (x :: v.toList) := by
  rw [toList_wr]; exact cons_set_perm (getElem?_rd h) x

end

/-! ## Safe machines -/

/-- An instruction in the queues and ALUs after renaming: its function accepts its operands
    and its registers are in range. -/
structure Instruction.InFlight (x : Instruction) : Prop where
  typed : x.Typed
  fit : x.OperandsFit
  dest_lt : x.dest.phyId.toNat < 64
  opA_lt : x.opA.phyId.toNat < 64
  opB_lt : x.opB.type = .reg → x.opB.phyId.toNat < 64

/-- An instruction in flight is accepted by its function. -/
theorem Instruction.InFlight.call_ok {x : Instruction} (h : x.InFlight) :
    ∃ v b, x.function.call x.opA x.opB = .ok (v, b) := by
  obtain ⟨h1, h2⟩ := h.typed
  have ha := h.fit.opA.1
  have hb := h.fit.opB
  rw [h2]
  cases ht : x.type with
  | unknownType => exact absurd ht h1
  | addi =>
    simp only [ht, if_true] at hb
    exact ⟨_, _, addiFunc_ok ha hb⟩
  | add | sub | mulu =>
    simp only [ht, reduceCtorEq, if_false] at hb
    exact ⟨_, _, regFunc_ok ha hb.1⟩
  | divu | remu =>
    simp only [ht, reduceCtorEq, if_false] at hb
    exact ⟨_, _, (divFunc_ok ha hb.1).trans rfl⟩

/-- Every register has one place, and every index and every instruction is one that the stages
    accept. -/
structure Safe (m : Machine) : Prop where
  regs : (m.logical.toList ++ m.freeList ++ m.activeList.map (·.oldPhyDest)).Perm allRegs
  logDest_lt : ∀ e ∈ m.activeList, e.logDest.toNat < 32
  dir_le : m.dir.length ≤ 4
  dir_ok : ∀ x ∈ m.dir, x.WellFormed
  iq_le : m.iq.length ≤ 32
  iq_ok : ∀ en ∈ m.iq, en.instr.InFlight ∧ en.instr.isException = false
  stage0_ok : ∀ x ∈ m.stage0, x.InFlight
  stage1_ok : ∀ x ∈ m.stage1, x.InFlight
  detected : m.exceptionDetected = false
  program_ok : m.program.WellFormed

namespace Safe

variable {m : Machine}

/-- Free registers and Active List entries are 32 together. -/
theorem length_eq (h : Safe m) : m.freeList.length + m.activeList.length = 32 := by
  have := h.regs.length_eq
  simp only [List.length_append, Vector.length_toList, List.length_map, length_allRegs,
    regLogFileSize] at this
  omega

theorem mem_lt (h : Safe m) {p : UInt8}
    (hp : p ∈ m.logical.toList ++ m.freeList ++ m.activeList.map (·.oldPhyDest)) :
    p.toNat < 64 := mem_allRegs.1 (h.regs.subset hp)

theorem logical_lt (h : Safe m) {r : UInt8} (hr : r.toNat < 32) :
    (rd m.logical r).toNat < 64 :=
  h.mem_lt (List.mem_append_left _ (List.mem_append_left _ (rd_mem hr)))

theorem free_lt (h : Safe m) {p : UInt8} (hp : p ∈ m.freeList) : p.toNat < 64 :=
  h.mem_lt (List.mem_append_left _ (List.mem_append_right _ hp))

theorem old_lt (h : Safe m) {e : ActiveListEntry} (he : e ∈ m.activeList) :
    e.oldPhyDest.toNat < 64 :=
  h.mem_lt (List.mem_append_right _ (List.mem_map_of_mem he))

/-! ### Commit -/

theorem raise (h : Safe m) (e : ActiveListEntry) : Safe (m.raise e) :=
  { h with
    dir_le := Nat.zero_le _
    dir_ok := by simp [Machine.raise]
    iq_le := Nat.zero_le _
    iq_ok := by simp [Machine.raise]
    stage0_ok := by simp [Machine.raise]
    stage1_ok := by simp [Machine.raise] }

theorem retire (h : Safe m) {e : ActiveListEntry} {rest : List ActiveListEntry}
    (hl : m.activeList = e :: rest) : Safe (m.retire e rest) :=
  { h with
    regs := by
      have := h.regs
      rw [hl] at this
      simp only [Machine.retire, List.map_cons] at this ⊢
      refine .trans ?_ this
      rw [← List.append_assoc, List.append_assoc _ [e.oldPhyDest], List.singleton_append]
    logDest_lt := fun e' he' => h.logDest_lt e' (by rw [hl]; exact List.mem_cons_of_mem _ he') }

theorem commit : ∀ (n : ℕ) {m : Machine}, Safe m → Safe (m.commit n)
  | 0, _, h => h
  | n + 1, m, h => by
    unfold Machine.commit
    split
    · exact h
    · next e rest hl =>
      split_ifs
      · exact h
      · exact h.raise e
      · exact commit n (h.retire hl)

theorem rollback (h : Safe m) {e : ActiveListEntry} {rest : List ActiveListEntry}
    (hl : m.activeList = rest ++ [e]) : Safe (m.rollback e rest) :=
  { h with
    regs := by
      have hr := h.logDest_lt e (by simp [hl])
      have := h.regs
      rw [hl] at this
      simp only [Machine.rollback, List.map_append, List.map_singleton] at this ⊢
      refine .trans ?_ this
      -- the mapping and the free register change places
      have hp : ((wr m.logical e.logDest e.oldPhyDest).toList ++ [rd m.logical e.logDest]).Perm
          (m.logical.toList ++ [e.oldPhyDest]) :=
        (List.perm_append_singleton _ _).trans
          ((cons_wr_perm hr _).trans (List.perm_append_singleton _ _).symm)
      have h1 : ∀ (a b c : List UInt8), (a ++ (b ++ c)).Perm (a ++ c ++ b) := by
        intro a b c
        rw [List.append_assoc]; exact List.perm_append_comm.append_left a
      have h2 : ∀ (a b c d : List UInt8), (a ++ b ++ (c ++ d)).Perm (a ++ d ++ b ++ c) := by
        intro a b c d
        rw [List.append_assoc, List.append_assoc, List.append_assoc]
        refine List.Perm.append_left a ?_
        rw [← List.append_assoc, ← List.append_assoc]
        exact (List.perm_append_comm).trans (by rw [List.append_assoc])
      exact ((h1 _ _ _).append_right _).trans
        (((hp.append_right _).append_right _).trans (h2 _ _ _ _).symm)
    logDest_lt := fun e' he' => h.logDest_lt e' (by
      rw [hl]; exact List.mem_append_left _ he') }

theorem recover (n : ℕ) (h : Safe m) : Safe (m.recover n) :=
  Machine.recover_induction (fun _ _ _ hl h => h.rollback hl) n m h

theorem endException (h : Safe m) : Safe m.endException := by
  unfold Machine.endException
  split_ifs
  · exact { h with }
  · exact h

theorem commitStage (h : Safe m) : Safe m.commitStage := by
  unfold Machine.commitStage
  split_ifs
  · exact h.endException.recover _
  · exact h.commit _

/-! ### Execution and write-back -/

end Safe

theorem Instruction.InFlight.execute {x : Instruction} (h : x.InFlight) : x.execute.InFlight := by
  unfold Instruction.execute
  split
  · exact ⟨h.typed, ⟨h.fit.dest, h.fit.opA, h.fit.opB⟩, h.dest_lt, h.opA_lt, h.opB_lt⟩
  · exact h

theorem markFirst_map {β : Type} (f : ActiveListEntry → β)
    {update : ActiveListEntry → ActiveListEntry} (hf : ∀ e, f (update e) = f e) (pc : ℕ) :
    ∀ l, (markFirst update pc l).map f = l.map f
  | [] => rfl
  | e :: l => by
    unfold markFirst
    split_ifs
    · simp [hf]
    · simp [markFirst_map f hf pc l]

/-- Completion only changes the flags of entries. -/
theorem complete_map {β : Type} (f : ActiveListEntry → β)
    (hd : ∀ e : ActiveListEntry, f { e with isDone := true } = f e)
    (he : ∀ e : ActiveListEntry, f { e with isException := true } = f e)
    (x : Instruction) (l : List ActiveListEntry) : (complete x l).map f = l.map f := by
  unfold complete
  split_ifs
  · rw [markFirst_map f he, markFirst_map f hd]
  · exact markFirst_map f hd _ _

namespace Safe

variable {m : Machine}

theorem executeStage (h : Safe m) : Safe m.executeStage :=
  { h with
    stage1_ok := by
      simp only [Machine.executeStage, List.mem_map, forall_exists_index, and_imp]
      rintro _ x hx rfl
      exact (h.stage1_ok x hx).execute }

theorem writeBack (h : Safe m) (x : Instruction) : Safe (m.writeBack x) :=
  { h with
    regs := by
      simp only [Machine.writeBack]
      rw [complete_map (·.oldPhyDest) (fun _ => rfl) fun _ => rfl]
      exact h.regs
    logDest_lt := by
      have : ∀ r ∈ (complete x m.activeList).map (·.logDest), r.toNat < 32 := by
        rw [complete_map (·.logDest) (fun _ => rfl) fun _ => rfl]
        simpa using h.logDest_lt
      simpa [Machine.writeBack] using this }

theorem foldl_writeBack : ∀ (l : List Instruction) {m : Machine}, Safe m →
    Safe (l.foldl Machine.writeBack m)
  | [], _, h => h
  | x :: l, _, h => foldl_writeBack l (h.writeBack x)

theorem writeBackStage (h : Safe m) : Safe m.writeBackStage := h.foldl_writeBack _

end Safe

/-! ### Issue -/

/-- Selection splits the queue. -/
theorem select_perm : ∀ (n : ℕ) (iq : List IqEntry), ((select n iq).1 ++ (select n iq).2).Perm iq
  | 0, iq => by simp [select]
  | _ + 1, [] => by simp [select]
  | n + 1, entry :: iq => by
    unfold select
    split_ifs
    · exact .refl _
    · exact (select_perm n iq).cons _
    · exact List.perm_middle.trans ((select_perm (n + 1) iq).cons _)

theorem select_subset (n : ℕ) (iq : List IqEntry) :
    (∀ en ∈ (select n iq).1, en ∈ iq) ∧ ∀ en ∈ (select n iq).2, en ∈ iq :=
  ⟨fun _ h => (select_perm n iq).subset (List.mem_append_left _ h),
    fun _ h => (select_perm n iq).subset (List.mem_append_right _ h)⟩

namespace Machine

variable (m : Machine) (o : Operand)

@[simp] theorem capture_type : (m.capture o).type = o.type := by
  unfold capture; split_ifs <;> rfl
@[simp] theorem capture_logId : (m.capture o).logId = o.logId := by
  unfold capture; split_ifs <;> rfl
@[simp] theorem capture_phyId : (m.capture o).phyId = o.phyId := by
  unfold capture; split_ifs <;> rfl
@[simp] theorem capture_imm : (m.capture o).imm = o.imm := by
  unfold capture; split_ifs <;> rfl

@[simp] theorem rename_type : (m.rename o).type = o.type := by
  unfold rename; split_ifs <;> rfl
@[simp] theorem rename_logId : (m.rename o).logId = o.logId := by
  unfold rename; split_ifs <;> rfl

theorem rename_phyId (h : o.type = .reg) : (m.rename o).phyId = rd m.logical o.logId := by
  rw [rename, if_pos h]

end Machine

theorem Instruction.InFlight.refresh {m : Machine} {en : IqEntry} (h : en.instr.InFlight) :
    (m.refresh en).instr.InFlight where
  typed := h.typed
  fit := ⟨h.fit.dest, by simpa [Operand.IsReg, Machine.refresh] using h.fit.opA,
    by simpa [Operand.IsReg, Machine.refresh] using h.fit.opB⟩
  dest_lt := h.dest_lt
  opA_lt := by simpa [Machine.refresh] using h.opA_lt
  opB_lt := by simpa [Machine.refresh] using h.opB_lt

namespace Safe

variable {m : Machine}

theorem refreshed (h : Safe m) : ∀ en ∈ m.iq.map m.refresh,
    en.instr.InFlight ∧ en.instr.isException = false := by
  simp only [List.mem_map, forall_exists_index, and_imp]
  rintro _ en hen rfl
  exact ⟨(h.iq_ok en hen).1.refresh, (h.iq_ok en hen).2⟩

theorem issueStage (h : Safe m) : Safe m.issueStage :=
  { h with
    iq_le := by
      have := (select_perm numAlus (m.iq.map m.refresh)).length_eq
      have := h.iq_le
      simp only [List.length_append, List.length_map] at *
      simp only [Machine.issueStage]; omega
    iq_ok := fun en hen => h.refreshed en ((select_subset _ _).2 en hen)
    stage0_ok := by
      simp only [Machine.issueStage, List.mem_map, forall_exists_index, and_imp]
      rintro _ en hen rfl
      exact (h.refreshed en ((select_subset _ _).1 en hen)).1
    stage1_ok := h.stage0_ok }

theorem backEnd (h : Safe m) : Safe m.backEnd :=
  h.commitStage.executeStage.writeBackStage.issueStage

/-! ### Dispatch -/

/-- The DIR without its first instruction. -/
theorem drop (h : Safe m) {x : Instruction} {dir : List Instruction} (hd : m.dir = x :: dir) :
    Safe { m with dir } :=
  { h with
    dir_le := by
      have := h.dir_le
      simp only [hd, List.length_cons] at this
      exact Nat.le_of_succ_le this
    dir_ok := fun y hy => h.dir_ok y (by rw [hd]; exact List.mem_cons_of_mem _ hy) }

theorem allocate (h : Safe m) {x : Instruction} {dir : List Instruction} {p : UInt8}
    {freeList : List UInt8} (hd : m.dir = x :: dir) (hf : m.freeList = p :: freeList) :
    Safe (m.allocate x dir p freeList) :=
  have hx := h.dir_ok x (by simp [hd])
  { h with
    regs := by
      have hr := hx.fit.dest.2
      have := h.regs
      rw [hf] at this
      simp only [Machine.allocate, List.map_append, List.map_singleton] at this ⊢
      refine .trans ?_ this
      -- the mapping and the new register change places
      have hp := cons_wr_perm (v := m.logical) hr p
      have h1 : ∀ (a b c : List UInt8) (q : UInt8),
          (a ++ b ++ (c ++ [q])).Perm (q :: a ++ (b ++ c)) := by
        intro a b c q
        rw [← List.append_assoc, List.append_assoc a]
        exact (List.perm_append_singleton _ _)
      have h2 : ∀ (a b c : List UInt8) (q : UInt8),
          (q :: a ++ (b ++ c)).Perm (a ++ q :: b ++ c) := by
        intro a b c q
        rw [List.append_assoc, List.cons_append, List.cons_append]
        exact List.perm_middle.symm
      exact (h1 _ _ _ _).trans ((hp.append_right _).trans (h2 _ _ _ _))
    logDest_lt := by
      intro e he
      rcases List.mem_append.1 he with he | he
      · exact h.logDest_lt e he
      · rw [List.mem_singleton.1 he]; exact hx.fit.dest.2
    dir_le := (h.drop hd).dir_le
    dir_ok := (h.drop hd).dir_ok }

/-- The renamed instruction is one for the queue. -/
theorem renamed (h : Safe m) {x : Instruction} (hx : x.WellFormed) {p : UInt8}
    (hp : p.toNat < 64) : Instruction.InFlight { x with
      dest := { x.dest with phyId := p }, opA := m.rename x.opA, opB := m.rename x.opB } where
  typed := hx.typed
  fit := ⟨hx.fit.dest, by simpa [Operand.IsReg] using hx.fit.opA,
    by simpa [Operand.IsReg] using hx.fit.opB⟩
  dest_lt := hp
  opA_lt := by
    simp only [Machine.rename_phyId m _ hx.fit.opA.1]; exact h.logical_lt hx.fit.opA.2
  opB_lt := by
    intro ht
    simp only [Machine.rename_type] at ht
    have := hx.fit.opB
    simp only [Machine.rename_phyId m _ ht]
    split_ifs at this
    · rw [ht] at this; cases this
    · exact h.logical_lt this.2

theorem dispatch (h : Safe m) {x : Instruction} {dir : List Instruction} {p : UInt8}
    {freeList : List UInt8} (hd : m.dir = x :: dir) (hf : m.freeList = p :: freeList)
    (hq : m.iq.length < 32) : Safe (m.dispatch x dir p freeList) :=
  have hx := h.dir_ok x (by simp [hd])
  have hp := h.free_lt (p := p) (by simp [hf])
  { h.allocate hd hf with
    iq_le := by simp only [Machine.dispatch, List.length_append]; exact hq
    iq_ok := by
      intro en hen
      rcases List.mem_append.1 hen with hen | hen
      · exact h.iq_ok en hen
      · rw [List.mem_singleton.1 hen]; exact ⟨(h.renamed hx hp).refresh, hx.fresh⟩ }

theorem dispatchLoop (uninit : ℕ → UInt8) (n i : ℕ) (h : Safe m) (hn : m.iq.length + n ≤ 32) :
    Safe (m.dispatchLoop uninit n i).1 := by
  refine Machine.dispatchLoop_induction (I := fun n m => Safe m ∧ m.iq.length + n ≤ 32)
    (J := fun r => Safe r.1) uninit ?_ ?_ ?_ ?_ n i m ⟨h, hn⟩
  · rintro n m x dir p freeList hd hf ⟨h, hn⟩
    refine ⟨h.dispatch hd hf (by omega), ?_⟩
    rw [Machine.length_dispatch_iq]
    omega
  · exact fun m h => h.1
  · exact fun n m x dir hd h => h.1.drop hd
  · exact fun n m h => h.1

theorem setBackpressure (h : Safe m) (b : Bool) : Safe { m with backpressure := b } := { h with }

/-- A machine that does not stall has room for four instructions. -/
theorem room (h : Safe m) (hs : m.stalled = false) : m.dir.length ≤ m.freeList.length ∧
    m.activeList.length + m.dir.length ≤ 32 ∧
    m.iq.length + m.dir.length ≤ 32 := by
  have := h.dir_le
  simp only [Machine.stalled, regLogFileSize, iqCapacity, instructionsPerCycle,
    Bool.or_eq_false_iff, decide_eq_false_iff_not] at hs
  omega

theorem dispatchStage (h : Safe m) (uninit : ℕ → UInt8) : Safe (m.dispatchStage uninit).1 := by
  unfold Machine.dispatchStage
  split_ifs with hs
  · exact h.setBackpressure true
  · exact (h.setBackpressure false).dispatchLoop uninit _ _ (h.room (by simpa using hs)).2.2

end Safe

namespace Machine

variable {m : Machine}

theorem dispatchLoop_dir (uninit : ℕ → UInt8) : ∀ (n i : ℕ) {m : Machine},
    (m.dispatchLoop uninit n i).2 = true → (m.dispatchLoop uninit n i).1.dir = m.dir.drop n
  | 0, _, _, _ => rfl
  | n + 1, i, m, h => by
    unfold dispatchLoop at h ⊢
    split at h
    · next x dir p freeList hd hf =>
      split_ifs at h ⊢ with hu
      simp only [hd]
      exact dispatchLoop_dir uninit n (i + 1) h
    · cases h

/-- Before the fetch, either fetching is held off or the DIR is empty. -/
theorem dispatchStage_dir (uninit : ℕ → UInt8) (h : (m.dispatchStage uninit).2 = true) :
    (m.dispatchStage uninit).1.backpressure = true ∨ (m.dispatchStage uninit).1.dir = [] := by
  unfold dispatchStage at h ⊢
  split_ifs at h ⊢
  · exact .inl rfl
  · exact .inr (by rw [dispatchLoop_dir _ _ _ h]; simp)

end Machine

namespace Safe

variable {m : Machine}

theorem fetchStage (h : Safe m) (hd : m.backpressure = true ∨ m.dir = []) : Safe m.fetchStage :=
  { h with
    dir_le := by
      simp only [Machine.fetchStage, List.length_append, List.length_take, Machine.fetched]
      rcases hd with hd | hd
      · simpa [hd] using h.dir_le
      · have := min_le_left 4 (m.program.count - m.pc)
        simp only [hd, List.length_nil, instructionsPerCycle]
        split_ifs <;> omega
    dir_ok := by
      intro x hx
      rcases List.mem_append.1 hx with hx | hx
      · exact h.dir_ok x hx
      · obtain ⟨i, hi⟩ := List.mem_iff_getElem?.1 (List.mem_of_mem_drop (List.mem_of_mem_take hx))
        exact (h.program_ok i x hi).1 }

theorem checkFinished (h : Safe m) (n : ℕ) : Safe (m.checkFinished n) := { h with }

/-- **A cycle keeps the machine safe.** -/
theorem cycle (h : Safe m) (uninit : ℕ → UInt8) : Safe (m.cycle uninit) := by
  have hb := h.backEnd.dispatchStage uninit
  simp only [Machine.cycle]
  split_ifs with hr
  · exact (hb.fetchStage (Machine.dispatchStage_dir uninit hr)).checkFinished _
  · exact hb

theorem initial {P : Program} (h : P.WellFormed) (ready : Bool) : Safe (.initial P ready) where
  regs := by
    have : (Vector.ofFn fun i : Fin regLogFileSize => UInt8.ofNat i).toList ++
        (List.range' regLogFileSize freeListSize).map UInt8.ofNat = allRegs := by decide +kernel
    simp only [Machine.initial, List.map_nil, List.append_nil, this]
    exact .refl _
  logDest_lt := by simp [Machine.initial]
  dir_le := Nat.zero_le _
  dir_ok := by simp [Machine.initial]
  iq_le := Nat.zero_le _
  iq_ok := by simp [Machine.initial]
  stage0_ok := by simp [Machine.initial]
  stage1_ok := by simp [Machine.initial]
  detected := rfl
  program_ok := h

theorem runFrom {P : Program} (h : P.WellFormed) (ready : Bool) (uninit : ℕ → ℕ → UInt8) :
    ∀ n, Safe (.runFrom ready P uninit n)
  | 0 => initial h ready
  | n + 1 => (runFrom h ready uninit n).cycle (uninit n)

end Safe

end R10000
