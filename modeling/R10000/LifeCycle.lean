/-
  The life cycle of a physical register.

  A register is available, pending, finished or architectural, according to the Free
  List, the Active List and the map table.  Each step that handles one instruction moves
  the registers of that instruction along the cycle and leaves all others where they
  are; a register is written only when it goes from pending to finished.
-/
import R10000.Normal

namespace R10000

/-- Where a physical register is in its life cycle. -/
inductive RegState
  | available | pending | finished | architectural
  deriving DecidableEq, Repr

/-- A register that moves. -/
structure Change where
  reg : UInt8
  before : RegState
  after : RegState

/-- Commit: the new register becomes architectural, the replaced one available. -/
def commitChanges (e : ActiveListEntry) : List Change :=
  [⟨e.currPhyDest, .finished, .architectural⟩, ⟨e.oldPhyDest, .architectural, .available⟩]

/-- Recovery: the register becomes available. -/
def recoverChanges (e : ActiveListEntry) : List Change :=
  [⟨e.currPhyDest, if e.isDone then .finished else .pending, .available⟩]

/-- Write-back: the register of the result is finished. -/
def writeBackChanges (x : Instruction) : List Change := [⟨x.dest.phyId, .pending, .finished⟩]

/-- Dispatch: the allocated register is pending. -/
def dispatchChanges (q : UInt8) : List Change := [⟨q, .available, .pending⟩]

namespace Machine

variable {m : Machine}

/-- The register `q` is in the given state: in the Free List, the destination of an entry, or the
    place of a committed value. -/
def InState (m : Machine) (q : UInt8) : RegState → Prop
  | .available => q ∈ m.freeList
  | .pending => ∃ e ∈ m.activeList, e.isDone = false ∧ e.currPhyDest = q
  | .finished => ∃ e ∈ m.activeList, e.isDone = true ∧ e.currPhyDest = q
  | .architectural => ∃ r : UInt8, r.toNat < 32 ∧ archMap m.logical m.activeList r = q

/-- The registers of `changes` move as told and the others stay; only a register that goes
    from pending to finished is written. -/
structure Moves (m m' : Machine) (changes : List Change) : Prop where
  moved : ∀ c ∈ changes, m.InState c.reg c.before ∧ m'.InState c.reg c.after
  kept : ∀ q s, q ∉ changes.map (·.reg) → m.InState q s → m'.InState q s
  written : ∀ q, rd m'.physical q ≠ rd m.physical q → ⟨q, .pending, .finished⟩ ∈ changes

/-- A register that stays in the Free List, in its entry and in the committed mapping keeps
    its state. -/
theorem InState.kept {m' : Machine} {q : UInt8} {s : RegState} (h : m.InState q s)
    (hf : q ∈ m.freeList → q ∈ m'.freeList)
    (he : ∀ e ∈ m.activeList, e.currPhyDest = q → e ∈ m'.activeList)
    (ha : ∀ r : UInt8, r.toNat < 32 → archMap m.logical m.activeList r = q →
      archMap m'.logical m'.activeList r = q) : m'.InState q s := by
  cases s with
  | available => exact hf h
  | pending =>
    obtain ⟨e, hmem, hd, hc⟩ := h
    exact ⟨e, he e hmem hc, hd, hc⟩
  | finished =>
    obtain ⟨e, hmem, hd, hc⟩ := h
    exact ⟨e, he e hmem hc, hd, hc⟩
  | architectural =>
    obtain ⟨r, hr, hc⟩ := h
    exact ⟨r, hr, ha r hr hc⟩

/-- A step that leaves the register file and its bookkeeping alone moves nothing. -/
theorem Moves.refl {m' : Machine} (hf : m'.freeList = m.freeList) (hl : m'.logical = m.logical)
    (ha : m'.activeList = m.activeList) (hp : m'.physical = m.physical) : m.Moves m' [] where
  moved := fun c hc => by cases hc
  kept := by
    intro q s _ h
    refine h.kept ?_ ?_ ?_
    · rw [hf]; exact id
    · rw [ha]; exact fun e he _ => he
    · rw [hl, ha]; exact fun r _ hc => hc
  written := fun q h => by rw [hp] at h; exact absurd rfl h

section
variable (hs : Safe m) (hw : Window m.program m.logical m.isBusy m.activeList)
include hs hw

theorem exists_inState {q : UInt8} (hq : q.toNat < 64) : ∃ s, m.InState q s := by
  have hmem := (places hs hw).symm.subset (mem_allRegs.2 hq)
  rw [List.mem_append, List.mem_append] at hmem
  rcases hmem with (h | h) | h
  · obtain ⟨r, hr, h⟩ := List.mem_map.1 h
    exact ⟨.architectural, r, mem_logRegs.1 hr, h⟩
  · obtain ⟨e, he, h⟩ := List.mem_map.1 h
    cases hd : e.isDone with
    | false => exact ⟨.pending, e, he, hd, h⟩
    | true => exact ⟨.finished, e, he, hd, h⟩
  · exact ⟨.available, h⟩

/-- **Every register is in exactly one state.** -/
theorem inState_unique {q : UInt8} (hq : q.toNat < 64) : ∃! s, m.InState q s := by
  obtain ⟨s, h⟩ := exists_inState hs hw hq
  refine ⟨s, h, fun s' h' => ?_⟩
  have hdone : m.InState q .pending → ¬ m.InState q .finished := by
    rintro ⟨e, he, hd, hc⟩ ⟨e', he', hd', hc'⟩
    have heq : e = e' := List.inj_on_of_nodup_map (curr_nodup hs hw) he he' (hc.trans hc'.symm)
    rw [heq, hd'] at hd
    cases hd
  have hfree : ∀ {e}, e ∈ m.activeList → e.currPhyDest = q → q ∉ m.freeList :=
    fun he h1 h2 => free_ne_curr hs hw h2 he h1.symm
  have harch : ∀ {r e}, UInt8.toNat r < 32 → archMap m.logical m.activeList r = q →
      e ∈ m.activeList → e.currPhyDest ≠ q :=
    fun hr h1 he h2 => arch_ne_curr hs hw hr he (h1.trans h2.symm)
  have hfreeArch : ∀ {r}, UInt8.toNat r < 32 → archMap m.logical m.activeList r = q →
      q ∉ m.freeList := fun hr h1 h2 => free_ne_arch hs hw h2 hr h1.symm
  cases s <;> cases s'
  case available.available | pending.pending | finished.finished |
    architectural.architectural => rfl
  case available.pending | available.finished =>
    obtain ⟨e, he, -, hc⟩ := h'
    exact absurd h (hfree he hc)
  case pending.available | finished.available =>
    obtain ⟨e, he, -, hc⟩ := h
    exact absurd h' (hfree he hc)
  case available.architectural =>
    obtain ⟨r, hr, ha⟩ := h'
    exact absurd h (hfreeArch hr ha)
  case architectural.available =>
    obtain ⟨r, hr, ha⟩ := h
    exact absurd h' (hfreeArch hr ha)
  case pending.architectural | finished.architectural =>
    obtain ⟨e, he, -, hc⟩ := h
    obtain ⟨r, hr, ha⟩ := h'
    exact absurd hc (harch hr ha he)
  case architectural.pending | architectural.finished =>
    obtain ⟨e, he, -, hc⟩ := h'
    obtain ⟨r, hr, ha⟩ := h
    exact absurd hc (harch hr ha he)
  case pending.finished => exact absurd h' (hdone h)
  case finished.pending => exact absurd h (hdone h')

end

/-! ## The registers of one instruction -/

theorem moves_retire {e : ActiveListEntry} {rest : List ActiveListEntry} (hs : Safe m)
    (hw : Window m.program m.logical m.isBusy m.activeList) (hl : m.activeList = e :: rest)
    (hd : e.isDone = true) : m.Moves (m.retire e rest) (commitChanges e) := by
  have hr : e.logDest.toNat < 32 := hs.logDest_lt e (by simp [hl])
  rw [hl] at hw
  have hold : archMap m.logical (e :: rest) e.logDest = e.oldPhyDest := hw.linked.1.symm
  have harch := archMap_retire hw
  refine ⟨fun c hc => ?_, fun q s hq h => ?_, fun q h => absurd rfl h⟩
  · simp only [commitChanges, List.mem_cons, List.not_mem_nil, or_false] at hc
    rcases hc with rfl | rfl
    · refine ⟨⟨e, by simp [hl], hd, rfl⟩, e.logDest, hr, ?_⟩
      exact (congrFun harch _).trans (Function.update_self ..)
    · refine ⟨⟨e.logDest, hr, by rw [hl]; exact hold⟩, ?_⟩
      exact List.mem_append_right _ (List.mem_singleton_self _)
  · simp only [commitChanges, List.map_cons, List.map_nil, List.mem_cons, List.not_mem_nil,
      or_false, not_or] at hq
    refine h.kept (fun h => List.mem_append_left _ h) (fun e' he' hc => ?_) fun r hr' hc => ?_
    · rw [hl] at he'
      rcases List.mem_cons.1 he' with rfl | he'
      · exact absurd hc.symm hq.1
      · exact he'
    · rw [hl] at hc
      have hne : r ≠ e.logDest := fun h => hq.2 (by rw [← hc, h, hold])
      exact (congrFun harch r).trans ((Function.update_of_ne hne ..).trans hc)

theorem moves_rollback {e : ActiveListEntry} {rest : List ActiveListEntry} (hs : Safe m)
    (hw : Window m.program m.logical m.isBusy m.activeList) (hl : m.activeList = rest ++ [e]) :
    m.Moves (m.rollback e rest) (recoverChanges e) := by
  have hr : e.logDest.toNat < 32 := hs.logDest_lt e (by simp [hl])
  rw [hl] at hw
  have harch := archMap_rollback hw.chained hr
  refine ⟨fun c hc => ?_, fun q s hq h => ?_, fun q h => absurd rfl h⟩
  · rw [List.mem_singleton.1 hc]
    refine ⟨?_, ?_⟩
    · cases hd : e.isDone with
      | false => exact ⟨e, by simp [hl], hd, rfl⟩
      | true => exact ⟨e, by simp [hl], hd, rfl⟩
    · refine List.mem_append_right _ (List.mem_singleton.2 ?_)
      exact (rollback_map hw.chained).2.2
  · simp only [recoverChanges, List.map_cons, List.map_nil, List.mem_singleton] at hq
    refine h.kept (fun h => List.mem_append_left _ h) (fun e' he' hc => ?_) fun r hr' hc => ?_
    · rw [hl] at he'
      rcases List.mem_append.1 he' with he' | he'
      · exact he'
      · rw [List.mem_singleton.1 he'] at hc
        exact absurd hc.symm hq
    · rw [hl] at hc
      exact (congrFun harch r).trans hc

theorem moves_writeBack {x : Instruction} {todo : List Instruction} (hs : Safe m)
    (h : Normal (x :: todo) m) : m.Moves (m.writeBack x) (writeBackChanges x) := by
  have hx : x ∈ m.flight (x :: todo) := by simp [Machine.flight]
  obtain ⟨pre, e, post, hl, hd, -, -, hcur, hcom⟩ := h.split hx
  have hlt : x.dest.phyId.toNat < 64 := by
    rw [← hcur]; exact curr_lt hs h.window (by simp [hl])
  have hal : (m.writeBack x).activeList = pre ++ e.done x.isException :: post := hcom
  refine ⟨fun c hc => ?_, fun q s hq h => ?_, fun q hne => ?_⟩
  · rw [List.mem_singleton.1 hc]
    exact ⟨⟨e, by simp [hl], hd, hcur⟩, e.done x.isException, by simp [hal], rfl, hcur⟩
  · simp only [writeBackChanges, List.map_cons, List.map_nil, List.mem_singleton] at hq
    refine h.kept id (fun e' he' hc => ?_) fun r hr hc => ?_
    · -- the entries of the other registers are the same
      rw [hl, List.mem_append, List.mem_cons] at he'
      rw [hal, List.mem_append, List.mem_cons]
      rcases he' with he' | rfl | he'
      · exact .inl he'
      · exact absurd (hc.symm.trans hcur) hq
      · exact .inr (.inr he')
    · rw [hal]
      rw [hl] at hc
      exact (congrFun (archMap_done x.isException) r).trans hc
  · refine List.mem_singleton.2 ?_
    have hq : q = x.dest.phyId := by
      by_contra hq
      exact hne (rd_wr_ne _ hq)
    rw [hq]

theorem moves_dispatch {x : Instruction} {dir : List Instruction} {q : UInt8}
    {freeList : List UInt8} (hs : Safe m)
    (hw : Window m.program m.logical m.isBusy m.activeList) (hd : m.dir = x :: dir)
    (hf : m.freeList = q :: freeList) :
    m.Moves (m.dispatch x dir q freeList) (dispatchChanges q) := by
  have hr : x.dest.logId.toNat < 32 := (hs.dir_ok x (by simp [hd])).fit.dest.2
  have harch : archMap (m.dispatch x dir q freeList).logical
      (m.dispatch x dir q freeList).activeList = archMap m.logical m.activeList :=
    archMap_allocate (e := ⟨false, false, x.dest.logId, rd m.logical x.dest.logId, q, x.pc⟩)
      hw.chained rfl hr
  refine ⟨fun c hc => ?_, fun q' s hq h => ?_, fun q h => absurd rfl h⟩
  · rw [List.mem_singleton.1 hc]
    refine ⟨by simp [InState, hf], ?_⟩
    exact ⟨_, List.mem_append_right _ (List.mem_singleton_self _), rfl, rfl⟩
  · simp only [dispatchChanges, List.map_cons, List.map_nil, List.mem_singleton] at hq
    refine h.kept (fun h => ?_) (fun e' he' _ => List.mem_append_left _ he') fun r hr' hc => ?_
    · rw [hf, List.mem_cons] at h
      exact h.resolve_left hq
    · exact (congrFun harch r).trans hc

end Machine

end R10000
