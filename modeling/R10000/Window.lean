/-
  The Active List as a window of register writes in progress.

  `Window` relates the Active List to the map table and the busy bits: its entries are
  linked writes that lead from the committed map `archMap` to the map table, in program
  order, and the busy registers are the destinations that hold no result.  Each of the
  steps that touch the Active List keeps it: commit of the oldest entry, completion of
  an entry, allocation of a new one and rollback of the youngest.
-/
import R10000.Lib.Renaming
import R10000.Safe

namespace R10000

open Renaming

/-! ## The committed map -/

/-- The write of an entry. -/
def ActiveListEntry.write (e : ActiveListEntry) : Write UInt8 UInt8 :=
  ⟨e.logDest, e.oldPhyDest, e.currPhyDest⟩

@[simp] theorem write_reg (e : ActiveListEntry) : e.write.reg = e.logDest := rfl
@[simp] theorem write_old (e : ActiveListEntry) : e.write.old = e.oldPhyDest := rfl
@[simp] theorem write_new (e : ActiveListEntry) : e.write.new = e.currPhyDest := rfl

/-- The writes of a part of the Active List. -/
def writes (l : List ActiveListEntry) : List (Write UInt8 UInt8) := l.map ActiveListEntry.write

@[simp] theorem writes_nil : writes [] = [] := rfl
@[simp] theorem writes_cons (e : ActiveListEntry) (l : List ActiveListEntry) :
    writes (e :: l) = e.write :: writes l := rfl
@[simp] theorem writes_append (l l' : List ActiveListEntry) :
    writes (l ++ l') = writes l ++ writes l' := List.map_append

/-- The mapping of a register before the writes of the Active List. -/
def archMap (logical : Vector UInt8 regLogFileSize) (al : List ActiveListEntry) : UInt8 → UInt8 :=
  before (rd logical) (writes al)

/-- The mapping of a register that the instruction with pc `j` is renamed with. -/
def mapAt (logical : Vector UInt8 regLogFileSize) (al : List ActiveListEntry) (j : ℕ) :
    UInt8 → UInt8 :=
  after (archMap logical al) (writes (al.filter (·.pc < j)))

/-- The entry has no result for others to read. -/
def ActiveListEntry.Pending (e : ActiveListEntry) : Prop :=
  e.isDone = false ∨ e.isException = true

/-- The Active List `al` of a program explains the map table and the busy bits. -/
structure Window (program : Program) (logical : Vector UInt8 regLogFileSize)
    (isBusy : Vector Bool regPhyFileSize) (al : List ActiveListEntry) : Prop where
  linked : Linked (archMap logical al) (writes al)
  current : after (archMap logical al) (writes al) = rd logical
  order : (al.map (·.pc)).Pairwise (· < ·)
  program_dest : ∀ e ∈ al, ∃ x, program.instructions[e.pc]? = some x ∧ e.logDest = x.dest.logId
  flag : ∀ e ∈ al, e.isException = true → e.isDone = true
  busy : ∀ p : UInt8, p.toNat < 64 →
    (rd isBusy p = true ↔ ∃ e ∈ al, e.currPhyDest = p ∧ e.Pending)

section
variable {program : Program} {logical : Vector UInt8 regLogFileSize}
  {isBusy : Vector Bool regPhyFileSize} {al : List ActiveListEntry}

theorem archMap_eq {M : UInt8 → UInt8} (h : Linked M (writes al))
    (hM : after M (writes al) = rd logical) : archMap logical al = M := by
  rw [archMap, ← hM, before_after h]

/-- The Active List leads from the committed map to the map table. -/
structure Chained (logical : Vector UInt8 regLogFileSize) (al : List ActiveListEntry) : Prop where
  linked : Linked (archMap logical al) (writes al)
  current : after (archMap logical al) (writes al) = rd logical

theorem Chained.intro {M : UInt8 → UInt8} (h : Linked M (writes al))
    (hM : after M (writes al) = rd logical) : Chained logical al where
  linked := by rw [archMap_eq h hM]; exact h
  current := by rw [archMap_eq h hM]; exact hM

theorem Window.chained (h : Window program logical isBusy al) : Chained logical al :=
  ⟨h.linked, h.current⟩

/-- The committed map is the one that links the Active List to the map table. -/
theorem Window.intro {M : UInt8 → UInt8} (h : Linked M (writes al))
    (hM : after M (writes al) = rd logical) (order : (al.map (·.pc)).Pairwise (· < ·))
    (program_dest : ∀ e ∈ al, ∃ x, program.instructions[e.pc]? = some x ∧
      e.logDest = x.dest.logId)
    (flag : ∀ e ∈ al, e.isException = true → e.isDone = true)
    (busy : ∀ p : UInt8, p.toNat < 64 →
      (rd isBusy p = true ↔ ∃ e ∈ al, e.currPhyDest = p ∧ e.Pending)) :
    Window program logical isBusy al where
  linked := (Chained.intro h hM).linked
  current := (Chained.intro h hM).current
  order := order
  program_dest := program_dest
  flag := flag
  busy := busy

/-- The entries stand in program order. -/
theorem Window.split_lt {pre post : List ActiveListEntry} {e : ActiveListEntry}
    (h : Window program logical isBusy (pre ++ e :: post)) :
    (∀ e' ∈ pre, e'.pc < e.pc) ∧ ∀ e' ∈ post, e.pc < e'.pc := by
  have ho := h.order
  rw [List.map_append, List.map_cons, List.pairwise_append, List.pairwise_cons] at ho
  obtain ⟨-, ⟨hpost, -⟩, hpre⟩ := ho
  constructor
  · exact fun e' he' => hpre _ (List.mem_map_of_mem he') _ List.mem_cons_self
  · exact fun e' he' => hpost _ (List.mem_map_of_mem he')

theorem Window.head_lt {e : ActiveListEntry} (h : Window program logical isBusy (e :: al)) :
    ∀ e' ∈ al, e.pc < e'.pc :=
  (show Window program logical isBusy ([] ++ e :: al) from h).split_lt.2

theorem Window.head_le {e e' : ActiveListEntry} (h : Window program logical isBusy (e :: al))
    (he' : e' ∈ e :: al) : e.pc ≤ e'.pc := by
  rcases List.mem_cons.1 he' with rfl | he'
  · exact le_rfl
  · exact (h.head_lt e' he').le

theorem rd_wr_update {α : Type} [Inhabited α] {n : ℕ} {v : Vector α n} {i : UInt8}
    (h : i.toNat < n) (x : α) : rd (wr v i x) = Function.update (rd v) i x := by
  funext j
  rw [rd_wr h, Function.update_apply]

/-! ### Commit -/

theorem archMap_retire {e : ActiveListEntry} (h : Window program logical isBusy (e :: al)) :
    archMap logical al = Function.update (archMap logical (e :: al)) e.logDest e.currPhyDest :=
  archMap_eq h.linked.2 h.current

theorem Window.retire {e : ActiveListEntry} (h : Window program logical isBusy (e :: al))
    (hd : e.isDone = true) (he : e.isException = false) : Window program logical isBusy al := by
  refine .intro h.linked.2 h.current h.order.tail
    (fun e' he' => h.program_dest e' (List.mem_cons_of_mem _ he'))
    (fun e' he' => h.flag e' (List.mem_cons_of_mem _ he')) fun p hp => ?_
  rw [h.busy p hp]
  constructor
  · rintro ⟨e', he', hc, hpend⟩
    rcases List.mem_cons.1 he' with rfl | he'
    · rcases hpend with h' | h'
      · rw [hd] at h'; cases h'
      · rw [he] at h'; cases h'
    · exact ⟨e', he', hc, hpend⟩
  · rintro ⟨e', he', hc, hpend⟩
    exact ⟨e', List.mem_cons_of_mem _ he', hc, hpend⟩

/-- Committing an older entry leaves the mappings of an instruction alone. -/
theorem mapAt_retire {e : ActiveListEntry} (h : Window program logical isBusy (e :: al)) {j : ℕ}
    (hj : e.pc < j) : mapAt logical al j = mapAt logical (e :: al) j := by
  rw [mapAt, mapAt, archMap_retire h, List.filter_cons, if_pos (by simpa using hj)]
  rfl

/-! ### Rollback -/

theorem rollback_map {e : ActiveListEntry} (h : Chained logical (al ++ [e])) :
    Linked (archMap logical (al ++ [e])) (writes al) ∧
      e.oldPhyDest = after (archMap logical (al ++ [e])) (writes al) e.logDest ∧
      e.currPhyDest = rd logical e.logDest := by
  have hl := h.linked
  have hc := h.current
  simp only [writes_append, writes_cons, writes_nil, linked_concat, after_concat, write_reg,
    write_old, write_new] at hl hc
  exact ⟨hl.1, hl.2, by rw [← hc, Function.update_self]⟩

theorem rollback_after {e : ActiveListEntry} (h : Chained logical (al ++ [e]))
    (hr : e.logDest.toNat < 32) : after (archMap logical (al ++ [e])) (writes al) =
      rd (wr logical e.logDest e.oldPhyDest) := by
  have hc := h.current
  simp only [writes_append, writes_cons, writes_nil, after_concat, write_reg, write_new] at hc
  rw [rd_wr_update hr, ← hc, Function.update_idem, (rollback_map h).2.1,
    Function.update_eq_self]

theorem archMap_rollback {e : ActiveListEntry} (h : Chained logical (al ++ [e]))
    (hr : e.logDest.toNat < 32) :
    archMap (wr logical e.logDest e.oldPhyDest) al = archMap logical (al ++ [e]) :=
  archMap_eq (rollback_map h).1 (rollback_after h hr)

theorem Chained.rollback {e : ActiveListEntry} (h : Chained logical (al ++ [e]))
    (hr : e.logDest.toNat < 32) : Chained (wr logical e.logDest e.oldPhyDest) al :=
  .intro (rollback_map h).1 (rollback_after h hr)

theorem Window.rollback {e : ActiveListEntry} (h : Window program logical isBusy (al ++ [e]))
    (hr : e.logDest.toNat < 32) (hn : ((al ++ [e]).map (·.currPhyDest)).Nodup)
    (hlt : (rd logical e.logDest).toNat < 64) :
    Window program (wr logical e.logDest e.oldPhyDest)
      (wr isBusy (rd logical e.logDest) false) al := by
  have hcur := (rollback_map h.chained).2.2
  refine .intro (rollback_map h.chained).1 (rollback_after h.chained hr) ?_
    (fun e' he' => h.program_dest e' (List.mem_append_left _ he'))
    (fun e' he' => h.flag e' (List.mem_append_left _ he')) fun p hp => ?_
  · have := h.order
    rw [List.map_append, List.pairwise_append] at this
    exact this.1
  · rw [rd_wr hlt]
    split_ifs with hpe
    · -- the register belonged to the removed entry only
      simp only [false_iff, not_exists, not_and]
      intro e' he' hc
      rw [List.map_append, List.nodup_append] at hn
      exact absurd (hc.trans (hpe.trans hcur.symm))
        (hn.2.2 _ (List.mem_map_of_mem he') _ (by simp))
    · rw [h.busy p hp]
      constructor
      · rintro ⟨e', he', hc, hpend⟩
        rcases List.mem_append.1 he' with he' | he'
        · exact ⟨e', he', hc, hpend⟩
        · rw [List.mem_singleton.1 he'] at hc
          exact absurd (hc.symm.trans hcur) hpe
      · rintro ⟨e', he', hc, hpend⟩
        exact ⟨e', List.mem_append_left _ he', hc, hpend⟩

/-! ### Allocation -/

section
variable {e : ActiveListEntry} (h : Chained logical al)
  (hold : e.oldPhyDest = rd logical e.logDest) (hr : e.logDest.toNat < 32)
include h hold hr

theorem allocate_linked : Linked (archMap logical al) (writes (al ++ [e])) ∧
    after (archMap logical al) (writes (al ++ [e])) =
      rd (wr logical e.logDest e.currPhyDest) := by
  simp only [writes_append, writes_cons, writes_nil, linked_concat, after_concat, write_reg,
    write_old, write_new]
  rw [h.current, rd_wr_update hr]
  exact ⟨⟨h.linked, hold⟩, rfl⟩

theorem archMap_allocate : archMap (wr logical e.logDest e.currPhyDest) (al ++ [e]) =
    archMap logical al :=
  archMap_eq (allocate_linked h hold hr).1 (allocate_linked h hold hr).2

theorem Chained.allocate : Chained (wr logical e.logDest e.currPhyDest) (al ++ [e]) :=
  .intro (allocate_linked h hold hr).1 (allocate_linked h hold hr).2

end

section
variable {e : ActiveListEntry} (h : Window program logical isBusy al)
  (hold : e.oldPhyDest = rd logical e.logDest) (hr : e.logDest.toNat < 32)
include h hold hr

theorem Window.allocate (hd : e.isDone = false) (he : e.isException = false)
    (hpc : ∀ e' ∈ al, e'.pc < e.pc)
    (hx : ∃ x, program.instructions[e.pc]? = some x ∧ e.logDest = x.dest.logId)
    (hp : e.currPhyDest.toNat < 64) :
    Window program (wr logical e.logDest e.currPhyDest) (wr isBusy e.currPhyDest true)
      (al ++ [e]) := by
  obtain ⟨hl, hc⟩ := allocate_linked h.chained hold hr
  refine .intro hl hc ?_ ?_ ?_ fun p _ => ?_
  · rw [List.map_append, List.pairwise_append]
    refine ⟨h.order, by simp, ?_⟩
    intro a ha b hb
    obtain ⟨e', he', rfl⟩ := List.mem_map.1 ha
    simp only [List.map_cons, List.map_nil, List.mem_singleton] at hb
    exact hb ▸ hpc e' he'
  · intro e' he'
    rcases List.mem_append.1 he' with he' | he'
    · exact h.program_dest e' he'
    · rw [List.mem_singleton.1 he']; exact hx
  · intro e' he'
    rcases List.mem_append.1 he' with he' | he'
    · exact h.flag e' he'
    · rw [List.mem_singleton.1 he', he]; exact fun h => by cases h
  · rw [rd_wr hp]
    split_ifs with hpe
    · simp only [true_iff]
      exact ⟨e, by simp, hpe.symm, .inl hd⟩
    · rw [h.busy p ‹_›]
      constructor
      · rintro ⟨e', he', hc, hpend⟩
        exact ⟨e', List.mem_append_left _ he', hc, hpend⟩
      · rintro ⟨e', he', hc, hpend⟩
        rcases List.mem_append.1 he' with he' | he'
        · exact ⟨e', he', hc, hpend⟩
        · rw [List.mem_singleton.1 he'] at hc
          exact absurd hc.symm hpe

/-- Allocating for a younger instruction leaves the mappings of an older one alone. -/
theorem mapAt_allocate {j : ℕ} (hj : j ≤ e.pc) :
    mapAt (wr logical e.logDest e.currPhyDest) (al ++ [e]) j = mapAt logical al j := by
  rw [mapAt, mapAt, archMap_allocate h.chained hold hr, List.filter_append, List.filter_cons,
    if_neg (by simpa using hj)]
  simp

end

/-- The youngest instruction is renamed with the map table. -/
theorem mapAt_current (h : Window program logical isBusy al) {j : ℕ} (hj : ∀ e ∈ al, e.pc < j) :
    mapAt logical al j = rd logical := by
  rw [mapAt, List.filter_eq_self.2 (by simpa using hj), h.current]

/-! ### Completion -/

/-- The entry of an instruction that has its result. -/
def ActiveListEntry.done (e : ActiveListEntry) (isException : Bool) : ActiveListEntry :=
  { e with isDone := true, isException }

@[simp] theorem done_pc (e : ActiveListEntry) (b : Bool) : (e.done b).pc = e.pc := rfl
@[simp] theorem done_write (e : ActiveListEntry) (b : Bool) : (e.done b).write = e.write := rfl
@[simp] theorem done_curr (e : ActiveListEntry) (b : Bool) :
    (e.done b).currPhyDest = e.currPhyDest := rfl

section
variable {pre post : List ActiveListEntry} {e : ActiveListEntry} (b : Bool)

theorem writes_done : writes (pre ++ e.done b :: post) = writes (pre ++ e :: post) := by
  simp

theorem archMap_done : archMap logical (pre ++ e.done b :: post) =
    archMap logical (pre ++ e :: post) := by
  rw [archMap, archMap, writes_done]

theorem mapAt_done (j : ℕ) : mapAt logical (pre ++ e.done b :: post) j =
    mapAt logical (pre ++ e :: post) j := by
  rw [mapAt, mapAt, archMap_done]
  by_cases hj : e.pc < j
  · simp [hj]
  · simp [hj]

theorem Window.done (h : Window program logical isBusy (pre ++ e :: post))
    (hn : ((pre ++ e :: post).map (·.currPhyDest)).Nodup) (hp : e.currPhyDest.toNat < 64) :
    Window program logical (wr isBusy e.currPhyDest b) (pre ++ e.done b :: post) := by
  have hother : ∀ e', e' ∈ pre ∨ e' ∈ post → e'.currPhyDest ≠ e.currPhyDest := by
    rw [List.map_append, List.map_cons, List.nodup_append, List.nodup_cons] at hn
    rintro e' (he' | he')
    · exact hn.2.2 _ (List.mem_map_of_mem he') _ List.mem_cons_self
    · exact fun hc => hn.2.1.1 (hc ▸ List.mem_map_of_mem he')
  refine .intro (M := archMap logical (pre ++ e :: post)) (by rw [writes_done]; exact h.linked)
    (by rw [writes_done]; exact h.current) (by simpa using h.order) ?_ ?_ fun p hp' => ?_
  · intro e' he'
    rcases List.mem_append.1 he' with he' | he'
    · exact h.program_dest e' (List.mem_append_left _ he')
    · rcases List.mem_cons.1 he' with rfl | he'
      · exact h.program_dest e (by simp)
      · exact h.program_dest e' (by simp [he'])
  · intro e' he'
    rcases List.mem_append.1 he' with he' | he'
    · exact h.flag e' (List.mem_append_left _ he')
    · rcases List.mem_cons.1 he' with rfl | he'
      · exact fun _ => rfl
      · exact h.flag e' (by simp [he'])
  · rw [rd_wr hp]
    split_ifs with hpe
    · subst hpe
      constructor
      · exact fun hb => ⟨e.done b, by simp, rfl, .inr hb⟩
      · rintro ⟨e', he', hc, hpend⟩
        rcases List.mem_append.1 he' with he' | he'
        · exact absurd hc (hother e' (.inl he'))
        · rcases List.mem_cons.1 he' with rfl | he'
          · rcases hpend with h' | h'
            · cases h'
            · exact h'
          · exact absurd hc (hother e' (.inr he'))
    · rw [h.busy p hp']
      constructor
      all_goals
        rintro ⟨e', he', hc, hpend⟩
        simp only [List.mem_append, List.mem_cons] at he'
        rcases he' with he' | rfl | he'
        · exact ⟨e', by simp [he'], hc, hpend⟩
        · exact absurd hc.symm hpe
        · exact ⟨e', by simp [he'], hc, hpend⟩

end

end

/-! ## Where the physical registers are -/

/-- The ids `0..31`. -/
def logRegs : List UInt8 := (List.range 32).map UInt8.ofNat

theorem mem_logRegs {r : UInt8} : r ∈ logRegs ↔ r.toNat < 32 := by
  simp only [logRegs, List.mem_map, List.mem_range]
  constructor
  · rintro ⟨i, hi, rfl⟩
    rw [toNat_ofNat (by omega)]; exact hi
  · exact fun h => ⟨r.toNat, h, by simp⟩

theorem nodup_logRegs : logRegs.Nodup := by decide +kernel

theorem toList_eq_map (v : Vector UInt8 regLogFileSize) : v.toList = logRegs.map (rd v) := by
  refine List.ext_getElem (by simp [logRegs]) fun i h1 h2 => ?_
  have hi : i < 32 := by simpa using h1
  simp only [logRegs, List.map_map, List.getElem_map, List.getElem_range, Function.comp, rd,
    toNat_ofNat (show i < 256 by omega)]
  simp [hi]

/-- The committed registers, the destinations in progress and the free registers are all the
    physical registers. -/
theorem places {m : Machine} (hs : Safe m)
    (hw : Window m.program m.logical m.isBusy m.activeList) :
    (logRegs.map (archMap m.logical m.activeList) ++ m.activeList.map (·.currPhyDest) ++
      m.freeList).Perm allRegs := by
  have h := places_perm nodup_logRegs hw.linked (by
    intro w hw
    obtain ⟨e, he, rfl⟩ := List.mem_map.1 hw
    exact mem_logRegs.2 (hs.logDest_lt e he))
  rw [hw.current, writes, List.map_map, List.map_map] at h
  have hr := hs.regs
  rw [toList_eq_map] at hr
  refine .trans ?_ hr
  calc (logRegs.map (archMap m.logical m.activeList) ++ m.activeList.map (·.currPhyDest) ++
        m.freeList)
      _ |>.Perm (logRegs.map (rd m.logical) ++ m.activeList.map (·.oldPhyDest) ++ m.freeList) :=
        h.symm.append_right _
      _ |>.Perm (logRegs.map (rd m.logical) ++ m.freeList ++
          m.activeList.map (·.oldPhyDest)) := by
        rw [List.append_assoc, List.append_assoc]
        exact List.perm_append_comm.append_left _

section
variable {m : Machine} (hs : Safe m) (hw : Window m.program m.logical m.isBusy m.activeList)
include hs hw

theorem places_nodup : (logRegs.map (archMap m.logical m.activeList) ++
    (m.activeList.map (·.currPhyDest) ++ m.freeList)).Nodup := by
  rw [← List.append_assoc]
  exact (places hs hw).nodup_iff.2 nodup_allRegs

theorem curr_nodup : (m.activeList.map (·.currPhyDest)).Nodup :=
  (List.nodup_append.1 (List.nodup_append.1 (places_nodup hs hw)).2.1).1

theorem place_lt {p : UInt8} (hp : p ∈ logRegs.map (archMap m.logical m.activeList) ∨
    p ∈ m.activeList.map (·.currPhyDest)) : p.toNat < 64 :=
  mem_allRegs.1 ((places hs hw).subset (by
    rw [List.append_assoc]
    rcases hp with hp | hp
    · exact List.mem_append_left _ hp
    · exact List.mem_append_right _ (List.mem_append_left _ hp)))

theorem curr_lt {e : ActiveListEntry} (he : e ∈ m.activeList) : e.currPhyDest.toNat < 64 :=
  place_lt hs hw (.inr (List.mem_map_of_mem he))

theorem arch_ne_curr {r : UInt8} (hr : r.toNat < 32) {e : ActiveListEntry}
    (he : e ∈ m.activeList) : archMap m.logical m.activeList r ≠ e.currPhyDest :=
  (List.nodup_append.1 (places_nodup hs hw)).2.2 _ (List.mem_map_of_mem (mem_logRegs.2 hr)) _
    (List.mem_append_left _ (List.mem_map_of_mem he))

theorem free_ne_curr {p : UInt8} (hp : p ∈ m.freeList) {e : ActiveListEntry}
    (he : e ∈ m.activeList) : p ≠ e.currPhyDest := fun h =>
  (List.nodup_append.1 (List.nodup_append.1 (places_nodup hs hw)).2.1).2.2 _
    (List.mem_map_of_mem he) _ hp h.symm

theorem free_ne_arch {p : UInt8} (hp : p ∈ m.freeList) {r : UInt8} (hr : r.toNat < 32) :
    p ≠ archMap m.logical m.activeList r := fun h =>
  (List.nodup_append.1 (places_nodup hs hw)).2.2 _ (List.mem_map_of_mem (mem_logRegs.2 hr)) _
    (List.mem_append_right _ hp) h.symm

end

/-! ## Busy bits

A busy bit answers for the Active List: an entry that is an exception keeps its register busy,
so that the scan for exceptions adds nothing.
-/

section
variable {m : Machine}

/-- A register that is not the destination of an entry is not busy. -/
theorem Window.not_busy (hw : Window m.program m.logical m.isBusy m.activeList) {q : UInt8}
    (hq : q.toNat < 64) (hne : ∀ e ∈ m.activeList, e.currPhyDest ≠ q) :
    rd m.isBusy q = false := by
  rw [← Bool.not_eq_true, hw.busy q hq]
  rintro ⟨e, he, heq, -⟩
  exact hne e he heq

/-- **The busy bit alone answers for a register operand.** -/
theorem Window.ready_eq (hw : Window m.program m.logical m.isBusy m.activeList) {o : Operand}
    (ht : o.type = .reg) (hlt : o.phyId.toNat < 64) : m.ready o = !rd m.isBusy o.phyId := by
  have hscan : rd m.isBusy o.phyId = false →
      (m.activeList.any fun e => e.currPhyDest = o.phyId ∧ e.isException) = false := by
    intro hb
    rw [← Bool.not_eq_true, hw.busy _ hlt] at hb
    simp only [List.any_eq_false, decide_eq_true_eq]
    rintro e he ⟨heq, hexc⟩
    exact hb ⟨e, he, heq, .inr hexc⟩
  simp only [Machine.ready, ht]
  cases hb : rd m.isBusy o.phyId with
  | true => rfl
  | false => rw [hscan hb]; rfl

end

end R10000
