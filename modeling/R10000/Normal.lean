/-
  The invariant of the normal mode, for programs of any length.

  `Normal todo m`: no exception was raised, the Active List is a window of writes, and
  the instructions in flight (the queue, the first ALU stage and the instructions `todo`
  of the last one) are those of the entries that are not done.  Each of them is renamed
  with the map that its place in program order asks for, and an operand that it has
  captured is the value of a register that nobody writes any more.
-/
import R10000.Window

namespace R10000

/-- The operand is the one of the program, up to its tag and value. -/
structure Operand.From (a b : Operand) : Prop where
  type_eq : a.type = b.type
  logId_eq : b.type = .reg → a.logId = b.logId
  imm_eq : b.type = .imm → a.imm = b.imm

/-- The instruction is the one of the program, up to tags, values and its result. -/
structure Instruction.From (x y : Instruction) : Prop where
  type_eq : x.type = y.type
  dest_eq : x.dest.logId = y.dest.logId
  opA : x.opA.From y.opA
  opB : x.opB.From y.opB

/-- The operand is renamed with the map of the instruction with pc `j`. -/
def Renamed (logical : Vector UInt8 regLogFileSize) (al : List ActiveListEntry) (j : ℕ)
    (o : Operand) : Prop := o.type = .reg → o.phyId = mapAt logical al j o.logId

/-- The operand has the value of a register that is not busy. -/
def Captured (m : Machine) (o : Operand) : Prop :=
  o.type = .reg → rd m.isBusy o.phyId = false ∧ o.value = rd m.physical o.phyId

/-- The instruction comes from the program and is renamed in program order. -/
structure Tracked (program : Program) (logical : Vector UInt8 regLogFileSize)
    (al : List ActiveListEntry) (x : Instruction) : Prop where
  origin : ∃ y, program.instructions[x.pc]? = some y ∧ x.From y
  opA : Renamed logical al x.pc x.opA
  opB : Renamed logical al x.pc x.opB

/-- Only the map at the pc of the instruction matters. -/
theorem Tracked.congr {program : Program} {logical logical' : Vector UInt8 regLogFileSize}
    {al al' : List ActiveListEntry} {x : Instruction} (h : Tracked program logical al x)
    (hm : mapAt logical' al' x.pc = mapAt logical al x.pc) : Tracked program logical' al' x := by
  refine ⟨h.origin, fun hr => ?_, fun hr => ?_⟩
  · rw [hm]; exact h.opA hr
  · rw [hm]; exact h.opB hr

/-- Pc and destination register. -/
def Instruction.tag (x : Instruction) : ℕ × UInt8 := (x.pc, x.dest.phyId)

/-- Pc and destination register of an entry. -/
def ActiveListEntry.tag (e : ActiveListEntry) : ℕ × UInt8 := (e.pc, e.currPhyDest)

/-- The instructions in flight, with `todo` in the last ALU stage. -/
def Machine.flight (m : Machine) (todo : List Instruction) : List Instruction :=
  m.iq.map (·.instr) ++ (m.stage0 ++ todo)

theorem mem_flight {m : Machine} {todo : List Instruction} {x : Instruction} :
    x ∈ m.flight todo ↔ (∃ en ∈ m.iq, en.instr = x) ∨ x ∈ m.stage0 ∨ x ∈ todo := by
  simp only [Machine.flight, List.mem_append, List.mem_map]

/-- The pcs in the Active List and the DIR. -/
def Machine.pcs (m : Machine) : List ℕ := m.activeList.map (·.pc) ++ m.dir.map (·.pc)

/-- The invariant of the normal mode, with the instructions `todo` still to be written back. -/
structure Normal (todo : List Instruction) (m : Machine) : Prop where
  mode : m.exceptionMode = false
  status : m.exceptionStatus.isException = false
  window : Window m.program m.logical m.isBusy m.activeList
  order : m.pcs.Pairwise (· < ·)
  below : ∀ j ∈ m.pcs, j < m.pc
  dir_program : ∀ x ∈ m.dir, m.program.instructions[x.pc]? = some x
  flight : ((m.flight todo).map Instruction.tag).Perm
    ((m.activeList.filter fun e => !e.isDone).map ActiveListEntry.tag)
  tracked : ∀ x ∈ m.flight todo, Tracked m.program m.logical m.activeList x
  captured : ∀ x ∈ m.stage0 ++ todo, Captured m x.opA ∧ Captured m x.opB
  iq_captured : ∀ en ∈ m.iq, (en.isOpAReady = true → Captured m en.instr.opA) ∧
    (en.isOpBReady = true → Captured m en.instr.opB)
  iq_order : (m.iq.map (·.instr.pc)).Pairwise (· < ·)

/-- Different pcs and different destinations. -/
def Distinct (l : List Instruction) : Prop :=
  (l.map (·.pc)).Nodup ∧ (l.map (·.dest.phyId)).Nodup

theorem Distinct.sublist {l l' : List Instruction} (h : Distinct l) (hl : l'.Sublist l) :
    Distinct l' :=
  ⟨h.1.sublist (hl.map _), h.2.sublist (hl.map _)⟩

namespace Normal

variable {m : Machine} {todo : List Instruction}

/-- An instruction in flight has an entry that is not done. -/
theorem entry (h : Normal todo m) {x : Instruction} (hx : x ∈ m.flight todo) :
    ∃ e ∈ m.activeList, e.isDone = false ∧ e.pc = x.pc ∧ e.currPhyDest = x.dest.phyId := by
  have := h.flight.subset (List.mem_map_of_mem hx)
  obtain ⟨e, he, ht⟩ := List.mem_map.1 this
  obtain ⟨he, hd⟩ := List.mem_filter.1 he
  simp only [ActiveListEntry.tag, Instruction.tag, Prod.mk.injEq] at ht
  exact ⟨e, he, by simpa using hd, ht.1, ht.2⟩

/-- The instructions in flight are those of different entries. -/
theorem distinct (hs : Safe m) (h : Normal todo m) : Distinct (m.flight todo) := by
  have hpc := h.flight.map Prod.fst
  have hreg := h.flight.map Prod.snd
  rw [List.map_map, List.map_map] at hpc hreg
  refine ⟨hpc.nodup_iff.2 ?_, hreg.nodup_iff.2 ?_⟩
  · exact (h.window.order.imp fun hlt => hlt.ne).sublist (List.filter_sublist.map _)
  · exact (curr_nodup hs h.window).sublist (List.filter_sublist.map _)

/-! ### Commit -/

theorem retire (h : Normal todo m) {e : ActiveListEntry} {rest : List ActiveListEntry}
    (hl : m.activeList = e :: rest) (hd : e.isDone = true) (he : e.isException = false) :
    Normal todo (m.retire e rest) := by
  have hw := h.window
  have ho := h.order
  have hb := h.below
  have hf := h.flight
  rw [Machine.pcs, hl] at ho hb
  rw [hl] at hw hf
  have hyoung : ∀ x ∈ m.flight todo, e.pc < x.pc := by
    intro x hx
    obtain ⟨e', he', hd', hpc, -⟩ := h.entry hx
    rw [hl] at he'
    rcases List.mem_cons.1 he' with rfl | he'
    · rw [hd] at hd'; cases hd'
    · rw [← hpc]
      exact hw.head_lt e' he'
  exact { h with
    window := hw.retire hd he
    order := ho.tail
    below := fun j hj => hb j (List.mem_cons_of_mem _ hj)
    flight := by rw [List.filter_cons, if_neg (by simp [hd])] at hf; exact hf
    tracked := by
      intro x hx
      refine (h.tracked x hx).congr ?_
      rw [hl]
      exact mapAt_retire hw (hyoung x hx) }

/-! ### Execution and write-back -/

theorem executeStage (h : Normal m.stage1 m) :
    Normal (m.stage1.map Instruction.execute) m.executeStage := by
  have htag : ∀ x : Instruction, x.execute.tag = x.tag := by
    intro x
    unfold Instruction.execute Instruction.tag; split <;> rfl
  have htr : ∀ x, Tracked m.program m.logical m.activeList x →
      Tracked m.program m.logical m.activeList x.execute := by
    rintro x ⟨⟨y, h1, h2⟩, h3, h4⟩
    unfold Instruction.execute
    split
    · exact ⟨⟨y, h1, h2.type_eq, h2.dest_eq, h2.opA, h2.opB⟩, h3, h4⟩
    · exact ⟨⟨y, h1, h2⟩, h3, h4⟩
  have hops : ∀ x : Instruction, x.execute.opA = x.opA ∧ x.execute.opB = x.opB := by
    intro x
    unfold Instruction.execute; split <;> exact ⟨rfl, rfl⟩
  exact { h with
    flight := by
      have hf := h.flight
      simp only [Machine.flight, List.map_append, List.map_map] at hf ⊢
      rwa [show Instruction.tag ∘ Instruction.execute = Instruction.tag from funext htag]
    tracked := by
      intro x hx
      rcases mem_flight.1 hx with hx | hx | hx
      · exact h.tracked x (mem_flight.2 (.inl hx))
      · exact h.tracked x (mem_flight.2 (.inr (.inl hx)))
      · obtain ⟨y, hy, rfl⟩ := List.mem_map.1 hx
        exact htr y (h.tracked y (mem_flight.2 (.inr (.inr hy))))
    captured := by
      intro x hx
      rcases List.mem_append.1 hx with hx | hx
      · exact h.captured x (List.mem_append_left _ hx)
      · obtain ⟨y, hy, rfl⟩ := List.mem_map.1 hx
        rw [(hops y).1, (hops y).2]
        exact h.captured y (List.mem_append_right _ hy) }

theorem markFirst_split {update : ActiveListEntry → ActiveListEntry} {pc : ℕ}
    {pre post : List ActiveListEntry} {e : ActiveListEntry} (hpre : ∀ e' ∈ pre, e'.pc ≠ pc)
    (hpc : e.pc = pc) : markFirst update pc (pre ++ e :: post) = pre ++ update e :: post := by
  induction pre with
  | nil => rw [List.nil_append, markFirst, if_pos hpc, List.nil_append]
  | cons a pre ih =>
    rw [List.cons_append, markFirst, if_neg (hpre a List.mem_cons_self),
      ih fun e' he' => hpre e' (List.mem_cons_of_mem _ he'), List.cons_append]

theorem complete_split {x : Instruction} {pre post : List ActiveListEntry} {e : ActiveListEntry}
    (hpre : ∀ e' ∈ pre, e'.pc ≠ x.pc) (hpc : e.pc = x.pc) (he : e.isException = false) :
    complete x (pre ++ e :: post) = pre ++ e.done x.isException :: post := by
  simp only [complete, markFirst_split hpre hpc]
  split_ifs with hx
  · rw [markFirst_split hpre (by exact hpc), hx]; rfl
  · rw [ActiveListEntry.done, Bool.eq_false_iff.2 hx, ← he]

/-- The entry of an instruction in flight, and the Active List after its completion. -/
theorem split (h : Normal todo m) {x : Instruction} (hx : x ∈ m.flight todo) :
    ∃ pre e post, m.activeList = pre ++ e :: post ∧ e.isDone = false ∧ e.isException = false ∧
      e.pc = x.pc ∧ e.currPhyDest = x.dest.phyId ∧
      complete x m.activeList = pre ++ e.done x.isException :: post := by
  obtain ⟨e, he, hd, hpc, hcur⟩ := h.entry hx
  obtain ⟨pre, post, hl⟩ := List.append_of_mem he
  have hexc : e.isException = false := by
    rcases Bool.eq_false_or_eq_true e.isException with hexc | hexc
    · rw [h.window.flag e he hexc] at hd; cases hd
    · exact hexc
  have hpre : ∀ e' ∈ pre, e'.pc ≠ x.pc := by
    have hw := h.window
    rw [hl] at hw
    intro e' he' hpc'
    have := hw.split_lt.1 e' he'
    rw [hpc', hpc] at this
    exact lt_irrefl _ this
  exact ⟨pre, e, post, hl, hd, hexc, hpc, hcur, by rw [hl, complete_split hpre hpc hexc]⟩

/-- A captured operand does not read a register that is being written. -/
theorem writeBack_captured {x : Instruction} {o : Operand} (h : Captured m o)
    (hb : rd m.isBusy x.dest.phyId = true) : Captured (m.writeBack x) o := by
  intro hr
  obtain ⟨h1, h2⟩ := h hr
  have hne : o.phyId ≠ x.dest.phyId := fun e => by rw [e, hb] at h1; cases h1
  simp only [Machine.writeBack]
  rw [rd_wr_ne _ hne, rd_wr_ne _ hne]
  exact ⟨h1, h2⟩

/-- Write-back takes its instruction out of flight and completes the entry. -/
theorem writeBack_flight {x : Instruction} (h : Normal (x :: todo) m) :
    (((m.writeBack x).flight todo).map Instruction.tag).Perm
      (((m.writeBack x).activeList.filter fun e => !e.isDone).map ActiveListEntry.tag) := by
  obtain ⟨pre, e, post, hl, hd, -, hpc, hcur, hcom⟩ :=
    h.split (x := x) (by simp [Machine.flight])
  have hf := h.flight
  rw [hl, List.filter_append, List.filter_cons, if_pos (by simp [hd]), List.map_append,
    List.map_cons] at hf
  have hf' : (x.tag :: ((m.writeBack x).flight todo).map Instruction.tag).Perm
      ((m.flight (x :: todo)).map Instruction.tag) := by
    simp only [Machine.flight, Machine.writeBack, List.map_append, List.map_cons]
    rw [← List.append_assoc, ← List.append_assoc]
    exact List.perm_middle.symm
  have htag : e.tag = x.tag := by simp [ActiveListEntry.tag, Instruction.tag, hpc, hcur]
  have hperm := (hf'.trans hf).trans List.perm_middle
  rw [htag] at hperm
  simp only [Machine.writeBack, hcom]
  rw [List.filter_append, List.filter_cons, if_neg (by simp [ActiveListEntry.done]),
    List.map_append]
  exact (List.perm_cons _).1 hperm

theorem writeBack {x : Instruction} (hs : Safe m) (h : Normal (x :: todo) m) :
    Normal todo (m.writeBack x) := by
  have hx : x ∈ m.flight (x :: todo) := by simp [Machine.flight]
  obtain ⟨pre, e, post, hl, hd, hexc, hpc, hcur, hcom⟩ := h.split hx
  have hn := curr_nodup hs h.window
  have he : e ∈ m.activeList := by simp [hl]
  have hlt := curr_lt hs h.window he
  have hw := h.window
  rw [hl] at hw hn
  have hbusy : rd m.isBusy x.dest.phyId = true := by
    rw [← hcur, h.window.busy _ hlt]
    exact ⟨e, he, rfl, .inl hd⟩
  have hmem : ∀ y ∈ (m.writeBack x).flight todo, y ∈ m.flight (x :: todo) := by
    intro y hy
    simp only [Machine.flight, Machine.writeBack, List.mem_append, List.mem_cons] at hy ⊢
    tauto
  have hpcs : (m.writeBack x).pcs = m.pcs := by
    simp only [Machine.pcs, Machine.writeBack, hcom]
    rw [hl]
    simp
  have hmap : ∀ j, mapAt m.logical (complete x m.activeList) j =
      mapAt m.logical m.activeList j := fun j => by rw [hcom, hl, mapAt_done]
  exact { h with
    window := by
      simp only [Machine.writeBack, hcom, ← hcur]
      exact hw.done x.isException hn hlt
    order := by rw [hpcs]; exact h.order
    below := by rw [hpcs]; exact h.below
    flight := h.writeBack_flight
    tracked := by
      intro y hy
      exact (h.tracked y (hmem y hy)).congr (hmap y.pc)
    captured := by
      intro y hy
      have hy' : y ∈ m.stage0 ++ x :: todo := by
        rcases List.mem_append.1 hy with hy | hy
        · exact List.mem_append_left _ hy
        · exact List.mem_append_right _ (List.mem_cons_of_mem _ hy)
      obtain ⟨h1, h2⟩ := h.captured y hy'
      exact ⟨writeBack_captured h1 hbusy, writeBack_captured h2 hbusy⟩
    iq_captured := by
      intro en hen
      obtain ⟨h1, h2⟩ := h.iq_captured en hen
      exact ⟨fun hr => writeBack_captured (h1 hr) hbusy,
        fun hr => writeBack_captured (h2 hr) hbusy⟩ }

/-! ### Issue -/

end Normal

theorem select_ready : ∀ (n : ℕ) (iq : List IqEntry), ∀ en ∈ (select n iq).1,
    iqEntryIsReady en = true
  | 0, _, en, h => by simp [select] at h
  | _ + 1, [], en, h => by simp [select] at h
  | n + 1, entry :: iq, en, h => by
    unfold select at h
    split_ifs at h with hx hr
    · cases h
    · rcases List.mem_cons.1 h with rfl | h
      · exact hr
      · exact select_ready n iq en h
    · exact select_ready (n + 1) iq en h

theorem select_sublist : ∀ (n : ℕ) (iq : List IqEntry), (select n iq).2.Sublist iq
  | 0, iq => by simp [select]
  | _ + 1, [] => by simp [select]
  | n + 1, entry :: iq => by
    unfold select
    split_ifs
    · exact .refl _
    · exact (select_sublist n iq).cons _
    · exact (select_sublist (n + 1) iq).cons_cons _

theorem ready_busy {m : Machine} {o : Operand} (h : m.ready o = true) (ht : o.type = .reg) :
    rd m.isBusy o.phyId = false := by
  unfold Machine.ready at h
  simp only [ht, Bool.and_eq_true, Bool.not_eq_true'] at h
  exact h.1

theorem captured_of_ready {m : Machine} {o : Operand} (h : m.ready o = true) :
    Captured m (m.capture o) := by
  intro ht
  rw [Machine.capture_type] at ht
  rw [Machine.capture_phyId]
  refine ⟨ready_busy h ht, ?_⟩
  rw [Machine.capture, if_pos ⟨h, ht⟩]

theorem Operand.From.capture {a b : Operand} (h : a.From b) (m : Machine) :
    (m.capture a).From b :=
  ⟨by rw [Machine.capture_type]; exact h.type_eq,
    fun ht => by rw [Machine.capture_logId]; exact h.logId_eq ht,
    fun ht => by rw [Machine.capture_imm]; exact h.imm_eq ht⟩

theorem Renamed.capture {logical : Vector UInt8 regLogFileSize} {al : List ActiveListEntry}
    {j : ℕ} {o : Operand} (h : Renamed logical al j o) (m : Machine) :
    Renamed logical al j (m.capture o) := by
  intro ht
  rw [Machine.capture_type] at ht
  rw [Machine.capture_phyId, Machine.capture_logId]
  exact h ht

theorem Tracked.refresh {program : Program} {logical : Vector UInt8 regLogFileSize}
    {al : List ActiveListEntry} {en : IqEntry} (h : Tracked program logical al en.instr)
    (m : Machine) : Tracked program logical al (m.refresh en).instr := by
  obtain ⟨y, h1, h2⟩ := h.origin
  exact ⟨⟨y, h1, h2.type_eq, h2.dest_eq, h2.opA.capture m, h2.opB.capture m⟩,
    h.opA.capture m, h.opB.capture m⟩

namespace Normal

variable {m : Machine} {todo : List Instruction}

theorem issueStage (h : Normal [] m) : Normal m.issueStage.stage1 m.issueStage := by
  have hperm := select_perm numAlus (m.iq.map m.refresh)
  have hcap : ∀ en ∈ m.iq.map m.refresh,
      (en.isOpAReady = true → Captured m en.instr.opA) ∧
        (en.isOpBReady = true → Captured m en.instr.opB) := by
    intro en hen
    obtain ⟨en', -, rfl⟩ := List.mem_map.1 hen
    exact ⟨fun hr => captured_of_ready hr, fun hr => captured_of_ready hr⟩
  have htr : ∀ en ∈ m.iq.map m.refresh,
      Tracked m.program m.logical m.activeList en.instr := by
    intro en hen
    obtain ⟨en', hen', rfl⟩ := List.mem_map.1 hen
    exact (h.tracked en'.instr (mem_flight.2 (.inl ⟨en', hen', rfl⟩))).refresh m
  obtain ⟨hs1, hs2⟩ := select_subset numAlus (m.iq.map m.refresh)
  exact { h with
    flight := by
      refine .trans ?_ h.flight
      have hmap : (m.iq.map m.refresh).map (·.instr.tag) = m.iq.map (·.instr.tag) := by
        rw [List.map_map]; rfl
      simp only [Machine.flight, Machine.issueStage, List.map_append, List.map_map, List.append_nil]
      rw [← List.append_assoc]
      refine List.Perm.append_right _ ?_
      refine List.perm_append_comm.trans ?_
      rw [show Instruction.tag ∘ (fun en : IqEntry => en.instr) = fun en => en.instr.tag from rfl,
        ← hmap, ← List.map_append]
      exact hperm.map _
    tracked := by
      intro x hx
      rcases mem_flight.1 hx with ⟨en, hen, rfl⟩ | hx | hx
      · exact htr en (hs2 en hen)
      · obtain ⟨en, hen, rfl⟩ := List.mem_map.1 hx
        exact htr en (hs1 en hen)
      · exact h.tracked x (mem_flight.2 (.inr (.inl hx)))
    captured := by
      intro x hx
      rcases List.mem_append.1 hx with hx | hx
      · obtain ⟨en, hen, rfl⟩ := List.mem_map.1 hx
        have hr := select_ready _ _ en hen
        rw [iqEntryIsReady, Bool.and_eq_true] at hr
        obtain ⟨h1, h2⟩ := hcap en (hs1 en hen)
        exact ⟨h1 hr.1, h2 hr.2⟩
      · exact h.captured x (List.mem_append_left _ hx)
    iq_captured := fun en hen => hcap en (hs2 en hen)
    iq_order := by
      refine List.Pairwise.sublist ((select_sublist numAlus (m.iq.map m.refresh)).map _) ?_
      rw [List.map_map]
      exact h.iq_order }

/-! ### Dispatch -/

/-- A free register is not the tag of an operand. -/
theorem free_ne_mapAt (hs : Safe m) (hw : Window m.program m.logical m.isBusy m.activeList)
    {p : UInt8} (hp : p ∈ m.freeList) {r : UInt8} (hr : r.toNat < 32) (j : ℕ) :
    p ≠ mapAt m.logical m.activeList j r := by
  rcases Renaming.after_mem (archMap m.logical m.activeList)
    (writes (m.activeList.filter (·.pc < j))) r with ⟨w, hw', -, h⟩ | ⟨-, h⟩
  · obtain ⟨e, he, rfl⟩ := List.mem_map.1 hw'
    rw [mapAt, h]
    exact free_ne_curr hs hw hp (List.mem_of_mem_filter he)
  · rw [mapAt, h]
    exact free_ne_arch hs hw hp hr

theorem rename_from (m : Machine) (o : Operand) : (m.rename o).From o := by
  unfold Machine.rename
  split_ifs with ht
  · exact ⟨rfl, fun _ => rfl, fun h => by rw [ht] at h; cases h⟩
  · exact ⟨rfl, fun _ => rfl, fun _ => rfl⟩

theorem operand_lt {x : Instruction} (hx : x.InFlight) : x.opA.logId.toNat < 32 ∧
    (x.opB.type = .reg → x.opB.logId.toNat < 32) := by
  refine ⟨hx.fit.opA.2, fun ht => ?_⟩
  have := hx.fit.opB
  split_ifs at this
  · rw [ht] at this; cases this
  · exact this.2

theorem inFlight (hs : Safe m) (ht : ∀ x ∈ todo, x.InFlight) :
    ∀ x ∈ m.flight todo, x.InFlight := by
  intro x hx
  rcases mem_flight.1 hx with ⟨en, hen, rfl⟩ | hx | hx
  · exact (hs.iq_ok en hen).1
  · exact hs.stage0_ok x hx
  · exact ht x hx

section
variable {x : Instruction} {dir : List Instruction} {p : UInt8} {freeList : List UInt8}

/-- A captured operand does not read a register that is being allocated. -/
theorem dispatch_captured (hs : Safe m) (hw : Window m.program m.logical m.isBusy m.activeList)
    (hf : m.freeList = p :: freeList) {o : Operand} (hlt : o.type = .reg → o.logId.toNat < 32)
    {j : ℕ} (hr : Renamed m.logical m.activeList j o) (h : Captured m o) :
    Captured (m.dispatch x dir p freeList) o := by
  intro ht
  have hne : p ≠ o.phyId := by
    rw [hr ht]
    exact free_ne_mapAt hs hw (by simp [hf]) (hlt ht) j
  simp only [Machine.dispatch, Machine.allocate]
  rw [rd_wr_ne _ (Ne.symm hne)]
  exact h ht

theorem older (h : Normal todo m) (hx : x ∈ m.dir) : ∀ e ∈ m.activeList, e.pc < x.pc := by
  have ho := h.order
  rw [Machine.pcs, List.pairwise_append] at ho
  intro e he
  exact ho.2.2 _ (List.mem_map_of_mem he) _ (List.mem_map_of_mem hx)

theorem flight_older (h : Normal todo m) (hx : x ∈ m.dir) : ∀ y ∈ m.flight todo, y.pc < x.pc := by
  intro y hy
  obtain ⟨e, he, -, hpc, -⟩ := h.entry hy
  rw [← hpc]
  exact h.older hx e he

/-- Dispatch changes the map for younger instructions only. -/
theorem dispatch_mapAt (hw : Window m.program m.logical m.isBusy m.activeList)
    (hlt : x.dest.logId.toNat < 32) {j : ℕ} (hj : j ≤ x.pc) :
    mapAt (m.dispatch x dir p freeList).logical (m.dispatch x dir p freeList).activeList j =
      mapAt m.logical m.activeList j :=
  mapAt_allocate (e := ⟨false, false, x.dest.logId, rd m.logical x.dest.logId, p, x.pc⟩)
    hw rfl hlt hj

/-- The instruction of the entry that dispatch puts into the queue. -/
def dispatched (m : Machine) (x : Instruction) (dir : List Instruction) (p : UInt8)
    (freeList : List UInt8) : Instruction :=
  ((m.allocate x dir p freeList).refresh ⟨{ x with
    dest := { x.dest with phyId := p }
    opA := m.rename x.opA
    opB := m.rename x.opB }, false, false⟩).instr

theorem mem_flight_dispatch {y : Instruction}
    (hy : y ∈ (m.dispatch x dir p freeList).flight todo) :
    y ∈ m.flight todo ∨ y = dispatched m x dir p freeList := by
  simp only [Machine.flight, Machine.dispatch, List.map_append, List.mem_append,
    List.map_singleton, List.mem_singleton] at hy
  simp only [Machine.flight, List.mem_append]
  simp only [Machine.allocate] at hy
  tauto

/-- It is renamed with the map at its place in program order. -/
theorem dispatched_tracked (h : Normal todo m) (hx : x ∈ m.dir) (hlt : x.dest.logId.toNat < 32) :
    Tracked m.program (m.dispatch x dir p freeList).logical
      (m.dispatch x dir p freeList).activeList (dispatched m x dir p freeList) := by
  have hren : ∀ o : Operand, Renamed (m.dispatch x dir p freeList).logical
      (m.dispatch x dir p freeList).activeList x.pc (m.rename o) := by
    intro o ht
    rw [Machine.rename_type] at ht
    rw [dispatch_mapAt h.window hlt le_rfl, mapAt_current h.window (h.older hx),
      Machine.rename_phyId m o ht, Machine.rename_logId]
  exact Tracked.refresh ⟨⟨x, h.dir_program x hx, rfl, rfl, rename_from m _, rename_from m _⟩,
    hren _, hren _⟩ _

theorem dispatch (hs : Safe m) (htodo : ∀ x ∈ todo, x.InFlight) (h : Normal todo m)
    (hd : m.dir = x :: dir) (hf : m.freeList = p :: freeList) :
    Normal todo (m.dispatch x dir p freeList) := by
  have hx : x ∈ m.dir := by simp [hd]
  have hlt := (hs.dir_ok x hx).fit.dest.2
  have hp : p.toNat < 64 := hs.free_lt (by simp [hf])
  have hpcs : (m.dispatch x dir p freeList).pcs = m.pcs := by
    simp [Machine.pcs, Machine.dispatch, Machine.allocate, hd]
  exact { h with
    window := h.window.allocate
      (e := ⟨false, false, x.dest.logId, rd m.logical x.dest.logId, p, x.pc⟩)
      rfl hlt rfl rfl (h.older hx) ⟨x, h.dir_program x hx, rfl⟩ hp
    order := by rw [hpcs]; exact h.order
    below := by rw [hpcs]; exact h.below
    dir_program := fun y hy => h.dir_program y (by rw [hd]; exact List.mem_cons_of_mem _ hy)
    flight := by
      have hf := h.flight
      simp only [Machine.flight, Machine.dispatch, Machine.allocate, List.map_append,
        List.map_singleton, List.filter_append, List.append_assoc] at hf ⊢
      refine (List.Perm.append_left _ List.perm_append_comm).trans ?_
      rw [← List.append_assoc]
      exact List.Perm.append hf (.refl _)
    tracked := by
      intro y hy
      rcases mem_flight_dispatch hy with hy | rfl
      · exact (h.tracked y hy).congr (dispatch_mapAt h.window hlt (h.flight_older hx y hy).le)
      · exact h.dispatched_tracked hx hlt
    captured := by
      intro y hy
      have hy' : y ∈ m.flight todo := List.mem_append_right _ hy
      obtain ⟨h1, h2⟩ := h.captured y hy
      obtain ⟨h3, h4⟩ := operand_lt (inFlight hs htodo y hy')
      have ht := h.tracked y hy'
      exact ⟨dispatch_captured hs h.window hf (fun _ => h3) ht.opA h1,
        dispatch_captured hs h.window hf h4 ht.opB h2⟩
    iq_captured := by
      intro en hen
      rcases List.mem_append.1 hen with hen | hen
      · have hy' : en.instr ∈ m.flight todo :=
          List.mem_append_left _ (List.mem_map_of_mem hen)
        obtain ⟨h1, h2⟩ := h.iq_captured en hen
        obtain ⟨h3, h4⟩ := operand_lt (inFlight hs htodo _ hy')
        have ht := h.tracked _ hy'
        exact ⟨fun hr => dispatch_captured hs h.window hf (fun _ => h3) ht.opA (h1 hr),
          fun hr => dispatch_captured hs h.window hf h4 ht.opB (h2 hr)⟩
      · rw [List.mem_singleton.1 hen]
        exact ⟨fun hr => captured_of_ready hr, fun hr => captured_of_ready hr⟩
    iq_order := by
      simp only [Machine.dispatch, List.map_append, List.pairwise_append]
      refine ⟨h.iq_order, by simp, ?_⟩
      intro a ha b hb
      obtain ⟨en, hen, rfl⟩ := List.mem_map.1 ha
      simp only [List.map_cons, List.map_nil, List.mem_singleton] at hb
      rw [hb]
      exact h.flight_older hx _ (List.mem_append_left _ (List.mem_map_of_mem hen)) }

/-- The instruction that a failing dispatch has taken out of the DIR is lost. -/
theorem drop (h : Normal todo m) (hd : m.dir = x :: dir) : Normal todo { m with dir } := by
  have hsub : ({ m with dir } : Machine).pcs.Sublist m.pcs := by
    simp only [Machine.pcs, hd]
    exact List.Sublist.append_left ((List.sublist_cons_self _ _).map _) _
  exact { h with
    order := h.order.sublist hsub
    below := fun j hj => h.below j (hsub.subset hj)
    dir_program := fun y hy => h.dir_program y (by rw [hd]; exact List.mem_cons_of_mem _ hy) }

end

theorem dispatchLoop (uninit : ℕ → UInt8) (htodo : ∀ x ∈ todo, x.InFlight) (n i : ℕ)
    (hs : Safe m) (hn : m.iq.length + n ≤ 32) (h : Normal todo m) :
    Normal todo (m.dispatchLoop uninit n i).1 := by
  refine Machine.dispatchLoop_induction
    (I := fun n m => Safe m ∧ m.iq.length + n ≤ 32 ∧ Normal todo m)
    (J := fun r => Normal todo r.1) uninit ?_ ?_ ?_ ?_ n i m ⟨hs, hn, h⟩
  · rintro n m x dir p freeList hd hf ⟨hs, hn, h⟩
    refine ⟨hs.dispatch hd hf (by omega), ?_, h.dispatch hs htodo hd hf⟩
    rw [Machine.length_dispatch_iq]
    omega
  · exact fun m h => h.2.2
  · exact fun n m x dir hd h => h.2.2.drop hd
  · exact fun n m h => h.2.2

theorem setBackpressure (h : Normal todo m) (b : Bool) :
    Normal todo { m with backpressure := b } := { h with }

theorem dispatchStage (uninit : ℕ → UInt8) (hs : Safe m) (htodo : ∀ x ∈ todo, x.InFlight)
    (h : Normal todo m) : Normal todo (m.dispatchStage uninit).1 := by
  unfold Machine.dispatchStage
  split_ifs with hst
  · exact h.setBackpressure true
  · exact (h.setBackpressure false).dispatchLoop uninit htodo _ _ (hs.setBackpressure false)
      (hs.room (by simpa using hst)).2.2

/-! ### Fetch -/

end Normal

theorem Program.WellFormed.slice_pcs {P : Program} (h : P.WellFormed) (a n : ℕ) :
    ((P.instructions.drop a).take n).map (·.pc) = List.range' a (min n (P.count - a)) := by
  refine List.ext_getElem (by simp [Program.count]) fun i h1 h2 => ?_
  rw [List.length_map, List.length_take, List.length_drop] at h1
  have hi : a + i < P.instructions.length := by omega
  simp only [List.getElem_map, List.getElem_take, List.getElem_drop, List.getElem_range']
  rw [(h (a + i) _ (List.getElem?_eq_getElem hi)).2]
  omega

namespace Normal

variable {m : Machine} {todo : List Instruction}

theorem fetched_le (m : Machine) : m.fetched ≤ m.program.count - m.pc := by
  unfold Machine.fetched
  split_ifs
  · exact Nat.zero_le _
  · exact min_le_right _ _

theorem fetchStage_pcs (hP : m.program.WellFormed) :
    m.fetchStage.pcs = m.pcs ++ List.range' m.pc m.fetched := by
  simp only [Machine.pcs, Machine.fetchStage, List.map_append, hP.slice_pcs,
    Nat.min_eq_left (fetched_le m), List.append_assoc]

theorem fetchStage (hP : m.program.WellFormed) (h : Normal todo m) :
    Normal todo m.fetchStage := by
  have hpcs := fetchStage_pcs hP
  exact { h with
    order := by
      rw [hpcs, List.pairwise_append]
      refine ⟨h.order, List.pairwise_lt_range' _ (by omega), fun a ha b hb => ?_⟩
      exact (h.below a ha).trans_le (by simp at hb; omega)
    below := by
      intro j hj
      rw [hpcs, List.mem_append] at hj
      simp only [Machine.fetchStage]
      rcases hj with hj | hj
      · have := h.below j hj
        omega
      · simp at hj
        omega
    dir_program := by
      intro x hx
      rcases List.mem_append.1 hx with hx | hx
      · exact h.dir_program x hx
      · obtain ⟨i, hi⟩ := List.mem_iff_getElem?.1 (List.mem_of_mem_drop (List.mem_of_mem_take hx))
        have := (hP i x hi).2
        simp only [Machine.fetchStage]
        rw [this, hi] }

end Normal

end R10000
