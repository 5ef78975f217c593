/-
  The values in the machine are those of the program.

  `k` is the number of instructions committed so far.  `Val k m`: the committed registers
  hold what the first `k` instructions compute in sequence, and an entry that is done has
  the value that its instruction produces.  `InOrder k m`: from `k` on, the Active List and
  the DIR hold the instructions of the program one after the other, which is so as long as
  no dispatch loses one.
-/
import R10000.Invariant
import R10000.Sequential

namespace R10000

open Renaming

/-- The committed registers are those after `k` instructions, and what is done has its value. -/
structure Val (k : ℕ) (m : Machine) : Prop where
  seq : ∃ R, m.program.exec k = some R ∧ ∀ r : UInt8, r.toNat < 32 →
    rd m.physical (archMap m.logical m.activeList r) = R r
  done : ∀ e ∈ m.activeList, e.isDone = true → m.program.produced e.pc =
    if e.isException then none else some (rd m.physical e.currPhyDest)

/-- The Active List and the DIR go on with the program from instruction `k`. -/
structure InOrder (k : ℕ) (m : Machine) : Prop where
  pcs : m.pcs = List.range' k m.pcs.length
  pc : m.pc = k + m.pcs.length

section
variable {k : ℕ} {m : Machine} {todo : List Instruction}

theorem InOrder.active (h : InOrder k m) :
    m.activeList.map (·.pc) = List.range' k m.activeList.length := by
  have := h.pcs
  rw [Machine.pcs, List.length_append, List.length_map, ← List.range'_append_1] at this
  exact (List.append_inj this (by simp)).1

/-- The entry at place `i` is that of instruction `k + i`. -/
theorem InOrder.pc_eq (h : InOrder k m) {pre post : List ActiveListEntry} {e : ActiveListEntry}
    (hl : m.activeList = pre ++ e :: post) : e.pc = k + pre.length := by
  have := congrArg (·[pre.length]?) h.active
  simpa [hl] using this

/-! ## Reading registers -/

/-- **A mapping that is not busy holds the value of its register.**  The induction is on the
    entries that the mapping accounts for. -/
theorem flow_at (hw : Window m.program m.logical m.isBusy m.activeList) (hs : Safe m)
    (hv : Val k m) (hi : InOrder k m) {r : UInt8} (hr : r.toNat < 32) :
    ∀ (pre post : List ActiveListEntry), m.activeList = pre ++ post →
      rd m.isBusy (after (archMap m.logical m.activeList) (writes pre) r) = false →
      m.program.flow (k + pre.length) r =
        some (rd m.physical (after (archMap m.logical m.activeList) (writes pre) r)) := by
  intro pre
  induction pre using List.reverseRecOn with
  | nil =>
    intro post _ _
    obtain ⟨R, h1, h2⟩ := hv.seq
    rw [writes_nil, after_nil, h2 r hr]
    exact Program.flow_of_exec h1 r
  | append_singleton pre e ih =>
    intro post hl hb
    rw [List.append_assoc, List.singleton_append] at hl
    have he : e ∈ m.activeList := by simp [hl]
    obtain ⟨x, hx, hd⟩ := hw.program_dest e he
    have hpc := hi.pc_eq hl
    rw [writes_append, writes_cons, writes_nil, after_concat, write_reg, write_new] at hb ⊢
    rw [List.length_append, List.length_singleton, ← Nat.add_assoc]
    rw [hpc] at hx
    rw [Program.flow_succ hx]
    by_cases hrd : r = e.logDest
    · subst hrd
      rw [Function.update_self] at hb ⊢
      rw [if_pos hd]
      -- the entry is done, since its register is not busy
      have hnb : ¬ e.Pending := by
        intro hp
        rw [(hw.busy _ (curr_lt hs hw he)).2 ⟨e, he, rfl, hp⟩] at hb
        cases hb
      simp only [ActiveListEntry.Pending, not_or, Bool.not_eq_false, Bool.not_eq_true] at hnb
      have := hv.done e he hnb.1
      rwa [hpc, hnb.2, if_neg (by simp)] at this
    · rw [Function.update_of_ne hrd] at hb ⊢
      rw [if_neg (by rw [← hd]; exact hrd)]
      exact ih _ hl hb

/-- The older entries of an instruction. -/
theorem filter_older (hw : Window m.program m.logical m.isBusy m.activeList)
    {pre post : List ActiveListEntry} {e : ActiveListEntry}
    (hl : m.activeList = pre ++ e :: post) : m.activeList.filter (·.pc < e.pc) = pre := by
  rw [hl] at hw
  obtain ⟨hpre, hpost⟩ := hw.split_lt
  rw [hl, List.filter_append, List.filter_eq_self.2, List.filter_eq_nil_iff.2, List.append_nil]
  · intro e' he'
    rcases List.mem_cons.1 he' with rfl | he'
    · simp
    · simpa using (hpost e' he').le
  · intro e' he'
    simpa using hpre e' he'

/-- A captured operand of an instruction in flight has the value that the last older writer
    produces. -/
theorem captured_value (hs : Safe m) (h : Normal todo m) (hv : Val k m) (hi : InOrder k m)
    {x : Instruction} (hx : x ∈ m.flight todo) {o : Operand} (ht : o.type = .reg)
    (hlt : o.logId.toNat < 32) (hr : Renamed m.logical m.activeList x.pc o)
    (hc : Captured m o) : m.program.flow x.pc o.logId = some o.value := by
  obtain ⟨e, he, -, hpc, -⟩ := h.entry hx
  obtain ⟨pre, post, hl⟩ := List.append_of_mem he
  obtain ⟨hb, hval⟩ := hc ht
  have hmap := hr ht
  rw [mapAt, ← hpc, filter_older h.window hl] at hmap
  rw [hmap] at hb hval
  rw [hval, ← hpc, hi.pc_eq hl]
  exact flow_at h.window hs hv hi hlt pre _ hl hb

/-! ## Execution -/

/-- The instruction carries its result. -/
def Instruction.Executed (x : Instruction) : Prop :=
  x.function.call x.opA x.opB = .ok (x.dest.value, x.isException)

theorem execute_executed {x : Instruction} (h : x.InFlight) : x.execute.Executed := by
  obtain ⟨v, b, hc⟩ := h.call_ok
  unfold Instruction.Executed Instruction.execute
  rw [hc]
  exact hc

/-- The value of the second operand: the immediate, or the captured value. -/
def Instruction.captured (x : Instruction) : UInt64 :=
  match x.opB.type with
  | .imm => x.opB.imm
  | .reg => x.opB.value

/-- The functions of the ALUs compute the results of their types. -/
theorem Instruction.InFlight.call_alu {x : Instruction} (h : x.InFlight) {v : UInt64} {b : Bool}
    (hc : x.function.call x.opA x.opB = .ok (v, b)) :
    alu x.type x.opA.value x.captured = if b then none else some v := by
  obtain ⟨h1, h2⟩ := h.typed
  have ha := h.fit.opA.1
  have hb := h.fit.opB
  rw [h2] at hc
  cases ht : x.type with
  | unknownType => exact absurd ht h1
  | addi =>
    simp only [ht, if_true] at hb
    simp only [ht, instructionFunctions, InstructionFunc.call, addiFunc_ok ha hb, Except.ok.injEq,
      Prod.mk.injEq] at hc
    obtain ⟨rfl, rfl⟩ := hc
    simp [alu, Instruction.captured, hb]
  | add | sub | mulu =>
    simp only [ht, reduceCtorEq, if_false] at hb
    simp only [ht, instructionFunctions, InstructionFunc.call, addFunc, subFunc, muluFunc,
      regFunc_ok ha hb.1, Except.ok.injEq, Prod.mk.injEq] at hc
    obtain ⟨rfl, rfl⟩ := hc
    simp [alu, Instruction.captured, hb.1]
  | divu | remu =>
    simp only [ht, reduceCtorEq, if_false] at hb
    simp only [ht, instructionFunctions, InstructionFunc.call, divuFunc, remuFunc,
      divFunc_ok ha hb.1, Except.ok.injEq] at hc
    rw [Instruction.captured, hb.1, alu]
    by_cases h0 : x.opB.value = 0
    · rw [if_pos h0, Prod.mk.injEq] at hc
      rw [if_pos h0, ← hc.2, if_pos rfl]
    · rw [if_neg h0, Prod.mk.injEq] at hc
      rw [if_neg h0, ← hc.2, ← hc.1, if_neg Bool.false_ne_true]

/-- The operands of an instruction in the ALUs have the values that the program gives them. -/
theorem operands_flow (hs : Safe m) (h : Normal todo m) (hv : Val k m) (hi : InOrder k m)
    {x : Instruction} (hx : x ∈ m.stage0 ++ todo) (hfl : x.InFlight) :
    ∃ y, m.program.instructions[x.pc]? = some y ∧ y.type = x.type ∧
      m.program.flow x.pc y.opA.logId = some x.opA.value ∧
      Program.secondFlow (m.program.flow x.pc) y = some x.captured := by
  have hx' : x ∈ m.flight todo := List.mem_append_right _ hx
  have ht := h.tracked x hx'
  obtain ⟨hc1, hc2⟩ := h.captured x hx
  obtain ⟨hlt1, hlt2⟩ := Normal.operand_lt hfl
  obtain ⟨y, hy, hfrom⟩ := ht.origin
  have hA := captured_value hs h hv hi hx' hfl.fit.opA.1 hlt1 ht.opA hc1
  rw [hfrom.opA.logId_eq (hfrom.opA.type_eq ▸ hfl.fit.opA.1)] at hA
  refine ⟨y, hy, hfrom.type_eq.symm, hA, ?_⟩
  cases hB : x.opB.type with
  | imm =>
    rw [Program.secondFlow, Instruction.captured, ← hfrom.opB.type_eq, hB,
      ← hfrom.opB.imm_eq (hfrom.opB.type_eq ▸ hB)]
  | reg =>
    have hB' := captured_value hs h hv hi hx' hB (hlt2 hB) ht.opB hc2
    rw [hfrom.opB.logId_eq (hfrom.opB.type_eq ▸ hB)] at hB'
    rw [Program.secondFlow, Instruction.captured, ← hfrom.opB.type_eq, hB]
    exact hB'

/-- An executed instruction carries the value that its instruction of the program
    produces. -/
theorem executed_produced (hs : Safe m) (h : Normal todo m) (hv : Val k m) (hi : InOrder k m)
    {x : Instruction} (hx : x ∈ m.stage0 ++ todo) (hfl : x.InFlight) (hex : x.Executed) :
    m.program.produced x.pc = if x.isException then none else some x.dest.value := by
  obtain ⟨y, hy, htype, hA, hB⟩ := operands_flow hs h hv hi hx hfl
  rw [← hfl.call_alu hex, Program.produced, hy, Option.bind_some,
    Program.result_of_values hA hB, htype]

/-! ## The steps keep the values -/

theorem Val.writeBack {x : Instruction} (hs : Safe m) (h : Normal (x :: todo) m) (hv : Val k m)
    (hi : InOrder k m) (hfl : x.InFlight) (hex : x.Executed) : Val k (m.writeBack x) := by
  have hx : x ∈ m.flight (x :: todo) := by simp [Machine.flight]
  obtain ⟨pre, e, post, hl, hd, -, hpc, hcur, hcom⟩ := h.split hx
  have hw := h.window
  have he : e ∈ m.activeList := by simp [hl]
  have hlt := curr_lt hs hw he
  have hn := curr_nodup hs hw
  have hp := executed_produced hs h hv hi (by simp) hfl hex
  have harch : archMap m.logical (complete x m.activeList) = archMap m.logical m.activeList := by
    rw [hcom, hl, archMap_done]
  refine ⟨?_, fun e' he' hd' => ?_⟩
  · obtain ⟨R, h1, h2⟩ := hv.seq
    refine ⟨R, h1, fun r hr => ?_⟩
    simp only [Machine.writeBack]
    rw [harch, rd_wr_ne _ (hcur ▸ arch_ne_curr hs hw hr he)]
    exact h2 r hr
  · simp only [Machine.writeBack, hcom] at he' ⊢
    rw [hl, List.map_append, List.map_cons, List.nodup_append, List.nodup_cons] at hn
    have hother : ∀ e', e' ∈ pre ∨ e' ∈ post → e'.isDone = true →
        m.program.produced e'.pc = if e'.isException then none else
          some (rd (wr m.physical x.dest.phyId x.dest.value) e'.currPhyDest) := by
      intro e' he' hd'
      have hne : e'.currPhyDest ≠ x.dest.phyId := by
        rw [← hcur]
        rcases he' with he' | he'
        · exact hn.2.2 _ (List.mem_map_of_mem he') _ List.mem_cons_self
        · exact fun hc => hn.2.1.1 (hc ▸ List.mem_map_of_mem he')
      rw [rd_wr_ne _ hne]
      exact hv.done e' (by rw [hl]; rcases he' with he' | he' <;> simp [he']) hd'
    rcases List.mem_append.1 he' with he' | he'
    · exact hother e' (.inl he') hd'
    · rcases List.mem_cons.1 he' with rfl | he'
      · rw [done_pc, done_curr, hpc, hp, hcur, rd_wr_same (hcur ▸ hlt)]
        rfl
      · exact hother e' (.inr he') hd'

theorem Val.retire (hw : Window m.program m.logical m.isBusy m.activeList) (hv : Val k m)
    (hi : InOrder k m) {e : ActiveListEntry} {rest : List ActiveListEntry}
    (hl : m.activeList = e :: rest) (hd : e.isDone = true) (he : e.isException = false) :
    Val (k + 1) (m.retire e rest) := by
  obtain ⟨R, h1, h2⟩ := hv.seq
  have hmem : e ∈ m.activeList := by simp [hl]
  obtain ⟨x, hx, hdest⟩ := hw.program_dest e hmem
  have hpc : e.pc = k := by simpa using hi.pc_eq (show m.activeList = [] ++ e :: rest from hl)
  have hp := hv.done e hmem hd
  rw [he, if_neg (by simp), hpc] at hp
  rw [hpc] at hx
  have halu := (Program.produced_of_exec h1 hx).symm.trans hp
  rw [hl] at hw h2
  refine ⟨⟨Function.update R x.dest.logId (rd m.physical e.currPhyDest), ?_, fun r hr => ?_⟩,
    fun e' he' => hv.done e' (by rw [hl]; exact List.mem_cons_of_mem _ he')⟩
  · show m.program.exec (k + 1) = _
    rw [Program.exec_succ hx, h1, Option.bind_some, Instruction.exec, halu, Option.map_some]
  · simp only [Machine.retire]
    rw [archMap_retire hw, Function.update_apply, Function.update_apply, ← hdest]
    split_ifs
    · rfl
    · exact h2 r hr

theorem InOrder.retire (hi : InOrder k m) {e : ActiveListEntry} {rest : List ActiveListEntry}
    (hl : m.activeList = e :: rest) : InOrder (k + 1) (m.retire e rest) := by
  have hp : m.pcs = e.pc :: (m.retire e rest).pcs := by simp [Machine.pcs, Machine.retire, hl]
  obtain ⟨h1, h2⟩ := hi
  rw [hp, List.length_cons] at h1 h2
  rw [List.range'_succ, List.cons.injEq] at h1
  exact ⟨h1.2, by show m.pc = _; omega⟩

theorem Val.retireN : ∀ (c : ℕ) {k : ℕ} {m : Machine}, c ≤ m.activeList.length →
    (∀ e ∈ m.activeList.take c, e.isDone = true ∧ e.isException = false) → Normal todo m →
    Val k m → InOrder k m → Val (k + c) (m.retireN c) ∧ InOrder (k + c) (m.retireN c)
  | 0, k, m, _, _, _, hv, hi => by rw [retireN_zero]; exact ⟨hv, hi⟩
  | c + 1, k, m, hc, hd, h, hv, hi => by
    obtain ⟨e, rest, hl⟩ := List.exists_cons_of_length_pos (Nat.zero_lt_of_lt hc)
    rw [hl] at hc hd
    rw [retireN_succ hl, Nat.add_comm c 1, ← Nat.add_assoc]
    obtain ⟨h1, h2⟩ := hd e (by simp)
    exact Val.retireN c (Nat.le_of_succ_le_succ hc)
      (fun e' he' => hd e' (by rw [List.take_succ_cons]; exact List.mem_cons_of_mem _ he'))
      (h.retire hl h1 h2) (hv.retire h.window hi hl h1 h2) (hi.retire hl)

theorem Val.rollback (hs : Safe m) (hw : Window m.program m.logical m.isBusy m.activeList)
    (hv : Val k m) {e : ActiveListEntry} {rest : List ActiveListEntry}
    (hl : m.activeList = rest ++ [e]) : Val k (m.rollback e rest) := by
  have hr := hs.logDest_lt e (by simp [hl])
  obtain ⟨R, h1, h2⟩ := hv.seq
  refine ⟨⟨R, h1, fun r hr' => ?_⟩, fun e' he' =>
    hv.done e' (by rw [hl]; exact List.mem_append_left _ he')⟩
  rw [hl] at hw h2
  simp only [Machine.rollback]
  rw [archMap_rollback hw.chained hr]
  exact h2 r hr'

section
variable {x : Instruction} {dir : List Instruction} {p : UInt8} {freeList : List UInt8}

theorem Val.dispatch (hs : Safe m) (hw : Window m.program m.logical m.isBusy m.activeList)
    (hv : Val k m) (hd : m.dir = x :: dir) : Val k (m.dispatch x dir p freeList) := by
  have hfit := (hs.dir_ok x (by simp [hd])).fit
  obtain ⟨R, h1, h2⟩ := hv.seq
  refine ⟨⟨R, h1, fun r hr => ?_⟩, fun e he hdone => ?_⟩
  · have := archMap_allocate
      (e := ⟨false, false, x.dest.logId, rd m.logical x.dest.logId, p, x.pc⟩) hw.chained rfl
      hfit.dest.2
    simp only [Machine.dispatch, Machine.allocate]
    rw [this]
    exact h2 r hr
  · rcases List.mem_append.1 he with he | he
    · exact hv.done e he hdone
    · rw [List.mem_singleton.1 he] at hdone; cases hdone

theorem InOrder.dispatch (hi : InOrder k m) (hd : m.dir = x :: dir) :
    InOrder k (m.dispatch x dir p freeList) := by
  have hp : (m.dispatch x dir p freeList).pcs = m.pcs := by
    simp [Machine.pcs, Machine.dispatch, Machine.allocate, hd]
  exact ⟨by rw [hp]; exact hi.pcs, by rw [hp]; exact hi.pc⟩

end

theorem InOrder.fetchStage (hP : m.program.WellFormed) (hi : InOrder k m) :
    InOrder k m.fetchStage := by
  obtain ⟨h1, h2⟩ := hi
  have hp := Normal.fetchStage_pcs hP
  refine ⟨?_, ?_⟩
  · rw [hp, List.length_append, List.length_range', ← List.range'_append_1, ← h1, ← h2]
  · rw [hp, List.length_append, List.length_range']
    simp only [Machine.fetchStage]
    omega

theorem InOrder.writeBack (hi : InOrder k m) (x : Instruction) : InOrder k (m.writeBack x) := by
  have hp : (m.writeBack x).pcs = m.pcs := by
    simp only [Machine.pcs, Machine.writeBack]
    rw [complete_map (·.pc) (fun _ => rfl) fun _ => rfl]
  exact ⟨by rw [hp]; exact hi.pcs, by rw [hp]; exact hi.pc⟩

/-! ## The stages keep the values -/

theorem Val.foldl_writeBack : ∀ (l : List Instruction) {m : Machine}, Safe m → Normal l m →
    (∀ x ∈ l, x.InFlight ∧ x.Executed) → Val k m → InOrder k m →
    Val k (l.foldl Machine.writeBack m) ∧ InOrder k (l.foldl Machine.writeBack m)
  | [], _, _, _, _, hv, hi => ⟨hv, hi⟩
  | x :: l, m, hs, h, hl, hv, hi => by
    obtain ⟨h1, h2⟩ := hl x List.mem_cons_self
    exact Val.foldl_writeBack l (hs.writeBack x) (h.writeBack hs)
      (fun y hy => hl y (List.mem_cons_of_mem _ hy)) (hv.writeBack hs h hi h1 h2)
      (hi.writeBack x)

theorem Val.executed (hs : Safe m) (h : Normal m.stage1 m) (hv : Val k m) (hi : InOrder k m) :
    Val k m.executeStage.writeBackStage ∧ InOrder k m.executeStage.writeBackStage := by
  refine Val.foldl_writeBack _ hs.executeStage h.executeStage (fun x hx => ?_)
    { hv with } { hi with }
  obtain ⟨y, hy, rfl⟩ := List.mem_map.1 hx
  have := hs.stage1_ok y hy
  exact ⟨this.execute, execute_executed this⟩

theorem Val.dispatchLoop (uninit : ℕ → UInt8) (htodo : ∀ x ∈ todo, x.InFlight) (n i : ℕ)
    (hs : Safe m) (hn : m.iq.length + n ≤ 32) (h : Normal todo m) (hv : Val k m)
    (hi : InOrder k m) : (m.dispatchLoop uninit n i).2 = true →
    Val k (m.dispatchLoop uninit n i).1 ∧ InOrder k (m.dispatchLoop uninit n i).1 := by
  refine Machine.dispatchLoop_induction
    (I := fun n m => Safe m ∧ m.iq.length + n ≤ 32 ∧ Normal todo m ∧ Val k m ∧ InOrder k m)
    (J := fun r => r.2 = true → Val k r.1 ∧ InOrder k r.1) uninit ?_ ?_ ?_ ?_ n i m
    ⟨hs, hn, h, hv, hi⟩
  · rintro n m x dir p freeList hd hf ⟨hs, hn, h, hv, hi⟩
    refine ⟨hs.dispatch hd hf (by omega), ?_, h.dispatch hs htodo hd hf,
      hv.dispatch hs h.window hd, hi.dispatch hd⟩
    rw [Machine.length_dispatch_iq]
    omega
  · exact fun m h _ => h.2.2.2
  · exact fun n m x dir hd h hok => absurd hok Bool.false_ne_true
  · exact fun n m h hok => absurd hok Bool.false_ne_true

theorem Val.dispatchStage (uninit : ℕ → UInt8) (hs : Safe m) (htodo : ∀ x ∈ todo, x.InFlight)
    (h : Normal todo m) (hv : Val k m) (hi : InOrder k m)
    (hok : (m.dispatchStage uninit).2 = true) :
    Val k (m.dispatchStage uninit).1 ∧ InOrder k (m.dispatchStage uninit).1 := by
  unfold Machine.dispatchStage at hok ⊢
  split_ifs at hok ⊢ with hst
  · exact ⟨{ hv with }, { hi with }⟩
  · exact Val.dispatchLoop uninit htodo _ _ (hs.setBackpressure false)
      (hs.room (by simpa using hst)).2.2 (h.setBackpressure false) { hv with } { hi with } hok

theorem Val.recover (n : ℕ) (hs : Safe m) (h : Raised m) (hv : Val k m) :
    Val k (m.recover n) := by
  have hkeep := Machine.recover_induction (I := fun m => Safe m ∧ Raised m ∧ Val k m) ?_ n m
    ⟨hs, h, hv⟩
  · exact hkeep.2.2
  · rintro m e rest hl ⟨hs, h, hv⟩
    exact ⟨hs.rollback hl, h.rollback hs hl, hv.rollback hs h.window hl⟩

/-! ## Runs -/

/-- The exception is that of instruction `k`, which divides by zero in sequence. -/
structure DivFault (k : ℕ) (m : Machine) : Prop where
  pc_eq : m.exceptionStatus.exceptionPc = k
  divides : ∃ R x, m.program.exec k = some R ∧ m.program.instructions[k]? = some x ∧
    x.DividesByZero R

/-- A machine that has committed the first `k` instructions of its program. -/
structure Correct (k : ℕ) (m : Machine) : Prop extends Inv m where
  val : m.exceptionMode = false → Val k m ∧ InOrder k m
  fault : m.program.Short → m.exceptionMode = true → Val k m ∧ DivFault k m

theorem Normal.fault (hP : m.program.WellFormed) (h : Normal todo m) (hv : Val k m)
    (hi : InOrder k m) {e : ActiveListEntry} (he : m.activeList[0]? = some e)
    (hd : e.isDone = true) (hexc : e.isException = true) : DivFault k (m.raise e) := by
  obtain ⟨rest, hl⟩ : ∃ rest, m.activeList = e :: rest := by
    rcases hm : m.activeList with _ | ⟨e', rest⟩
    · simp [hm] at he
    · simp only [hm, List.getElem?_cons_zero, Option.some.injEq] at he
      exact ⟨rest, by rw [he]⟩
  have hmem : e ∈ m.activeList := by simp [hl]
  have hpc : e.pc = k := by simpa using hi.pc_eq (show m.activeList = [] ++ e :: rest from hl)
  obtain ⟨x, hx, -⟩ := h.window.program_dest e hmem
  obtain ⟨R, h1, -⟩ := hv.seq
  have hp := hv.done e hmem hd
  rw [hexc, if_pos rfl, hpc] at hp
  rw [hpc] at hx
  refine ⟨hpc, R, x, h1, hx, ?_⟩
  rw [Program.produced_of_exec h1 hx, alu_eq_none (hP k x hx).1.typed.1] at hp
  exact hp

theorem commits_eq {c : ℕ} (hm : m.exceptionMode = false) (hc : c ≤ m.activeList.length)
    (h : m.commitStage.activeList = m.activeList.drop c) : m.commits = c := by
  rw [Machine.commits, if_neg (by simp [hm]), h, List.length_drop]
  omega

/-- A cycle that commits the `c` oldest entries and raises nothing. -/
theorem Val.cycle (uninit : ℕ → UInt8) {c : ℕ} (hs : Safe m) (hn : Normal m.stage1 m.commitStage)
    (hstage : m.commitStage.stage1 = m.stage1) (hv : Val c m.commitStage)
    (hi : InOrder c m.commitStage) (hok : m.dispatches uninit = true) :
    Val c (m.cycle uninit) ∧ InOrder c (m.cycle uninit) := by
  have hs₁ := hs.commitStage
  rw [← hstage] at hn
  obtain ⟨hv₂, hi₂⟩ := Val.executed hs₁ hn hv hi
  have hn₃ := (Normal.executed hs₁ hn).issueStage
  have hs₃ := hs.backEnd
  obtain ⟨hv₄, hi₄⟩ := Val.dispatchStage uninit hs₃ hs₃.stage1_ok hn₃ { hv₂ with } { hi₂ with } hok
  have hs₄ := hs₃.dispatchStage uninit
  rw [Machine.dispatches] at hok
  simp only [Machine.cycle, hok, if_true]
  exact ⟨{ hv₄ with }, { hi₄.fetchStage hs₄.program_ok with }⟩

theorem Raised.val (uninit : ℕ → UInt8) (h : Raised m.commitStage) (hv : Val k m.commitStage)
    (hf : DivFault k m.commitStage) : Val k (m.cycle uninit) ∧ DivFault k (m.cycle uninit) := by
  rw [cycle_of_raised uninit h]
  exact ⟨{ hv with }, { hf with }⟩

/-- **A cycle commits what the program computes**, provided that no byte loses an
    instruction. -/
theorem Correct.cycle (uninit : ℕ → UInt8) (h : Correct k m)
    (hok : m.dispatches uninit = true) : Correct (k + m.commits) (m.cycle uninit) := by
  have hs := h.safe
  have hinv := h.toInv.cycle uninit
  obtain ⟨hmode, -, hprog⟩ := cycle_frame uninit m
  rw [commitStage_program] at hprog
  cases hm : m.exceptionMode with
  | true =>
    have hm' : (m.cycle uninit).exceptionMode = true := by rw [hmode, commitStage_mode hm]
    have hc : m.commits = 0 := by rw [Machine.commits, if_pos hm]
    rw [hc, Nat.add_zero]
    refine ⟨hinv, fun h' => by simp [hm'] at h', fun hP _ => ?_⟩
    rw [hprog] at hP
    have hr := h.raised hP hm
    obtain ⟨hv, hf⟩ := h.fault hP hm
    obtain ⟨e, bp, he⟩ := endException_frame m
    have hv' : Val k m.endException := by rw [he]; exact { hv with }
    have hf' : DivFault k m.endException := by rw [he]; exact { hf with }
    refine (hr.commitStage hs).val uninit ?_ ?_
    · rw [Machine.commitStage, if_pos hm]
      exact hv'.recover _ hs.endException hr.endException
    · rw [Machine.commitStage, if_pos hm]
      obtain ⟨al, lo, f, b, hrec⟩ := recover_frame instructionsPerCycle m.endException
      rw [hrec]
      exact { hf' with }
  | false =>
    have hn := h.normal hm
    obtain ⟨hv, hi⟩ := h.val hm
    obtain ⟨c, -, hc, hd, hret, hcase⟩ := hn.commitStage
    obtain ⟨hv', hi'⟩ := Val.retireN c hc hd hn hv hi
    rcases hcase with ⟨heq, -⟩ | ⟨-, e, he, hdone, hexc, heq, hr⟩
    · rw [commits_eq hm hc (by rw [heq]; rfl)]
      have hm' : (m.cycle uninit).exceptionMode = false := by rw [hmode, heq]; exact hm
      refine ⟨hinv, fun _ => ?_, fun _ h' => by simp [hm'] at h'⟩
      exact Val.cycle uninit hs (heq ▸ hret) (by rw [heq]; rfl) (heq ▸ hv') (heq ▸ hi') hok
    · rw [commits_eq hm hc (by rw [heq]; rfl)]
      have hm' : (m.cycle uninit).exceptionMode = true := by rw [hmode, hr.mode]
      refine ⟨hinv, fun h' => by simp [hm'] at h', fun _ _ => hr.val uninit ?_ ?_⟩
      · rw [heq]; exact { hv' with }
      · rw [heq]
        exact hret.fault (m := m.retireN c) hs.program_ok hv' hi'
          (by simpa [Machine.retireN] using he) hdone hexc

end

theorem Correct.initial {P : Program} (hP : P.WellFormed) (ready : Bool) :
    Correct 0 (.initial P ready) where
  toInv := .initial hP ready
  val := by
    intro _
    refine ⟨⟨⟨fun _ => 0, rfl, fun r hr => ?_⟩, by simp [Machine.initial]⟩, rfl, rfl⟩
    have hlt : (rd (Machine.initial P ready).logical r).toNat < 64 :=
      (Safe.initial hP ready).logical_lt hr
    show rd (Machine.initial P ready).physical (rd (Machine.initial P ready).logical r) = 0
    simp only [Machine.initial, rd, Vector.getElem?_replicate]
    split_ifs <;> rfl
  fault := fun _ h => by cases h

end R10000
