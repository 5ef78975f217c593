/-
  Captured operands.

  An operand that was captured reads a register that nobody writes any more, so that a
  refresh captures the same value again, and the queue keeps its entries until they are
  issued or an exception empties it.
-/
import R10000.Invariant

namespace R10000

section
variable {m : Machine}

/-! ## Captured operands -/

/-- `en'` is `en` some time later: the operands that `en` has captured are those of `en'`. -/
structure IqEntry.Keeps (en en' : IqEntry) : Prop where
  pc : en'.instr.pc = en.instr.pc
  dest : en'.instr.dest = en.instr.dest
  opA : en.isOpAReady = true → en'.isOpAReady = true ∧ en'.instr.opA = en.instr.opA
  opB : en.isOpBReady = true → en'.isOpBReady = true ∧ en'.instr.opB = en.instr.opB

theorem IqEntry.Keeps.refl (en : IqEntry) : en.Keeps en where
  pc := rfl
  dest := rfl
  opA := fun h => ⟨h, rfl⟩
  opB := fun h => ⟨h, rfl⟩

theorem IqEntry.Keeps.trans {a b c : IqEntry} (h : a.Keeps b) (h' : b.Keeps c) : a.Keeps c where
  pc := h'.pc.trans h.pc
  dest := h'.dest.trans h.dest
  opA := by
    intro hr
    obtain ⟨h1, h2⟩ := h.opA hr
    obtain ⟨h3, h4⟩ := h'.opA h1
    exact ⟨h3, h4.trans h2⟩
  opB := by
    intro hr
    obtain ⟨h1, h2⟩ := h.opB hr
    obtain ⟨h3, h4⟩ := h'.opB h1
    exact ⟨h3, h4.trans h2⟩

theorem Captured.again (hw : Window m.program m.logical m.isBusy m.activeList) {o : Operand}
    (hlt : o.type = .reg → o.phyId.toNat < 64) (h : Captured m o) :
    m.ready o = true ∧ m.capture o = o := by
  cases ht : o.type with
  | imm => simp [Machine.ready, Machine.capture, ht]
  | reg =>
    obtain ⟨hb, hv⟩ := h ht
    have hr : m.ready o = true := by rw [hw.ready_eq ht (hlt ht), hb]; rfl
    refine ⟨hr, ?_⟩
    rw [Machine.capture, if_pos ⟨hr, ht⟩, ← hv]

theorem Normal.refresh_keeps {todo : List Instruction} (hs : Safe m) (h : Normal todo m)
    {en : IqEntry} (hen : en ∈ m.iq) : en.Keeps (m.refresh en) := by
  obtain ⟨hA, hB⟩ := h.iq_captured en hen
  have hin := (hs.iq_ok en hen).1
  exact ⟨rfl, rfl, fun hr => (hA hr).again h.window fun _ => hin.opA_lt,
    fun hr => (hB hr).again h.window hin.opB_lt⟩

/-! ## One cycle -/

theorem dispatchStage_iq (uninit : ℕ → UInt8) (m : Machine) :
    m.iq <+: (m.dispatchStage uninit).1.iq := by
  unfold Machine.dispatchStage
  split_ifs
  · exact List.prefix_rfl
  · refine Machine.dispatchLoop_induction (I := fun _ m' => m.iq <+: m'.iq)
      (J := fun r => m.iq <+: r.1.iq) uninit ?_ ?_ ?_ ?_ m.dir.length 0 _ List.prefix_rfl
    · exact fun _ m' x dir p freeList _ _ h => h.trans (List.prefix_append _ _)
    · exact fun _ h => h
    · exact fun _ _ _ _ _ h => h
    · exact fun _ _ h => h

/-- The entries that issue leaves behind are in the queue after the cycle, and the first ALU
    stage is as issue has filled it. -/
theorem cycle_queues (uninit : ℕ → UInt8) (m : Machine) :
    m.backEnd.iq <+: (m.cycle uninit).iq ∧ (m.cycle uninit).stage0 = m.backEnd.stage0 := by
  obtain ⟨d, f, al, lo, b, q, hframe⟩ := dispatchStage_frame uninit m.backEnd
  have hiq := dispatchStage_iq uninit m.backEnd
  have hst : (m.backEnd.dispatchStage uninit).1.stage0 = m.backEnd.stage0 := by rw [hframe]
  simp only [Machine.cycle]
  split_ifs
  · exact ⟨hiq, hst⟩
  · exact ⟨hiq, hst⟩

/-- **An entry of the queue is issued or stays**, with the operands that it has captured,
    unless an exception is raised. -/
theorem Normal.cycle_keeps (uninit : ℕ → UInt8) (hs : Safe m) (h : Normal m.stage1 m)
    (hm : m.commitStage.exceptionMode = false) {en : IqEntry} (hen : en ∈ m.iq) :
    ∃ en', en.Keeps en' ∧ (en' ∈ (m.cycle uninit).iq ∨
      iqEntryIsReady en' = true ∧ en'.instr ∈ (m.cycle uninit).stage0) := by
  obtain ⟨c, -, -, -, hn, ⟨hc, -⟩ | ⟨-, e, -, -, -, -, hr⟩⟩ := h.commitStage
  · have hs₁ := hs.commitStage
    obtain ⟨hiq, hst⟩ := cycle_queues uninit m
    rw [Machine.backEnd] at hiq hst
    rw [hc] at hs₁ hiq hst
    have hn₁ := Normal.executed hs₁ hn
    have hs₂ := hs₁.executeStage.writeBackStage
    obtain ⟨ph, b, al, hframe⟩ := writeBackStage_frame (m.retireN c).executeStage
    have hen₁ : en ∈ (m.retireN c).executeStage.writeBackStage.iq := by rw [hframe]; exact hen
    refine ⟨_, hn₁.refresh_keeps hs₂ hen₁, ?_⟩
    have hmem : (m.retireN c).executeStage.writeBackStage.refresh en ∈
        (m.retireN c).executeStage.writeBackStage.iq.map
          (m.retireN c).executeStage.writeBackStage.refresh := List.mem_map_of_mem hen₁
    rcases List.mem_append.1 ((select_perm numAlus _).mem_iff.2 hmem) with hsel | hrest
    · right
      rw [hst]
      exact ⟨select_ready _ _ _ hsel, List.mem_map_of_mem hsel⟩
    · exact .inl (hiq.subset hrest)
  · rw [hr.mode] at hm
    cases hm

end

end R10000
