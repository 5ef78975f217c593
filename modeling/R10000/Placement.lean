/-
  The ALUs as a set.

  The instructions in flight have different pcs and different destinations, so that their
  results are written back in any order with one effect.  `Rearranged m m'`: the machine `m'`
  is `m` with the instructions of each ALU stage in another order.  No stage of a cycle looks
  at the order, so that rearranged machines stay rearranged.
-/
import R10000.Invariant

namespace R10000

/-! ## Results commute -/

/-- Updates of the first entries with different pcs commute. -/
theorem markFirst_comm {f g : ActiveListEntry → ActiveListEntry} (hf : ∀ e, (f e).pc = e.pc)
    (hg : ∀ e, (g e).pc = e.pc) {i j : ℕ} (hij : i ≠ j) (l : List ActiveListEntry) :
    markFirst f i (markFirst g j l) = markFirst g j (markFirst f i l) := by
  induction l with
  | nil => rfl
  | cons e l ih =>
    by_cases hi : e.pc = i
    · have hj : e.pc ≠ j := fun h => hij (hi.symm.trans h)
      simp only [markFirst, hi, if_true, hf, if_neg hij]
    · by_cases hj : e.pc = j
      · simp only [markFirst, hj, if_true, hg, if_neg hij.symm]
      · simp only [markFirst, if_neg hi, if_neg hj, ih]

/-- Completions of instructions with different pcs commute. -/
theorem complete_comm {x y : Instruction} (h : x.pc ≠ y.pc) (l : List ActiveListEntry) :
    complete x (complete y l) = complete y (complete x l) := by
  have hcomm : ∀ {f g : ActiveListEntry → ActiveListEntry}, (∀ e, (f e).pc = e.pc) →
      (∀ e, (g e).pc = e.pc) → ∀ l, markFirst f x.pc (markFirst g y.pc l) =
        markFirst g y.pc (markFirst f x.pc l) := fun hf hg => markFirst_comm hf hg h
  have hdone : ∀ e : ActiveListEntry, ({ e with isDone := true } : ActiveListEntry).pc = e.pc :=
    fun _ => rfl
  have hexc : ∀ e : ActiveListEntry,
      ({ e with isException := true } : ActiveListEntry).pc = e.pc := fun _ => rfl
  simp only [complete]
  split_ifs
  · rw [hcomm hdone hexc, hcomm hexc hexc, hcomm hdone hdone, hcomm hexc hdone]
  · rw [hcomm hdone hdone, hcomm hexc hdone]
  · rw [hcomm hdone hexc, hcomm hdone hdone]
  · exact hcomm hdone hdone l

namespace Machine

theorem writeBack_comm {x y : Instruction} (hpc : x.pc ≠ y.pc)
    (hreg : x.dest.phyId ≠ y.dest.phyId) (m : Machine) :
    (m.writeBack x).writeBack y = (m.writeBack y).writeBack x := by
  simp only [writeBack, wr_comm hreg, complete_comm hpc.symm]

end Machine

/-- **Results are written back in any order.** -/
theorem foldl_writeBack_perm {l l' : List Instruction} (h : l.Perm l') (hd : Distinct l)
    (m : Machine) : l.foldl Machine.writeBack m = l'.foldl Machine.writeBack m := by
  refine h.foldl_eq' (fun x hx y hy m => ?_) m
  by_cases hxy : x = y
  · rw [hxy]
  · refine Machine.writeBack_comm (fun hpc => hxy ?_) (fun hreg => hxy ?_) m
    · exact List.inj_on_of_nodup_map hd.1 hx hy hpc
    · exact List.inj_on_of_nodup_map hd.2 hx hy hreg

/-! ## The order within the ALU stages -/

/-- The machine with other instructions in the ALUs. -/
def Machine.place (m : Machine) (stage0 stage1 : List Instruction) : Machine :=
  { m with stage0, stage1 }

/-- `m'` is `m` with the instructions of each ALU stage in another order. -/
def Rearranged (m m' : Machine) : Prop :=
  ∃ stage0 stage1, stage0.Perm m.stage0 ∧ stage1.Perm m.stage1 ∧ m' = m.place stage0 stage1

/-- The stage of the cycle does not look at the ALUs. -/
def Blind (f : Machine → Machine) : Prop :=
  ∀ m stage0 stage1, f (m.place stage0 stage1) = (f m).place stage0 stage1

namespace Rearranged

variable {m m' : Machine}

theorem refl (m : Machine) : Rearranged m m := ⟨m.stage0, m.stage1, .refl _, .refl _, rfl⟩

theorem trans {m'' : Machine} (h : Rearranged m m') (h' : Rearranged m' m'') :
    Rearranged m m'' := by
  obtain ⟨s₀, s₁, h0, h1, rfl⟩ := h
  obtain ⟨t₀, t₁, h0', h1', rfl⟩ := h'
  exact ⟨t₀, t₁, h0'.trans h0, h1'.trans h1, rfl⟩

/-- Safety does not depend on the order. -/
theorem safe (h : Rearranged m m') (hs : Safe m) : Safe m' := by
  obtain ⟨s₀, s₁, h0, h1, rfl⟩ := h
  exact { hs with
    stage0_ok := fun x hx => hs.stage0_ok x (h0.subset hx)
    stage1_ok := fun x hx => hs.stage1_ok x (h1.subset hx) }

theorem of_blind {f : Machine → Machine} (hf : Blind f) (h : Rearranged m m') :
    Rearranged (f m) (f m') := by
  obtain ⟨s₀, s₁, h0, h1, rfl⟩ := h
  -- the stage leaves the ALUs as they are
  have hkeep : f m = (f m).place m.stage0 m.stage1 := hf m m.stage0 m.stage1
  have hk0 : (f m).stage0 = m.stage0 := by rw [hkeep]; rfl
  have hk1 : (f m).stage1 = m.stage1 := by rw [hkeep]; rfl
  exact ⟨s₀, s₁, hk0 ▸ h0, hk1 ▸ h1, hf m s₀ s₁⟩

/-! ### Commit -/

/-- An exception empties the ALUs. -/
theorem commit : ∀ (n : ℕ) {m m' : Machine}, Rearranged m m' →
    Rearranged (m.commit n) (m'.commit n)
  | 0, _, _, h => h
  | n + 1, m, _, ⟨s₀, s₁, h0, h1, rfl⟩ => by
    have hl : (m.place s₀ s₁).activeList = m.activeList := rfl
    unfold Machine.commit
    rw [hl]
    split
    · exact ⟨s₀, s₁, h0, h1, rfl⟩
    · next e rest _ =>
      split_ifs
      · exact ⟨s₀, s₁, h0, h1, rfl⟩
      · exact .refl _
      · exact Rearranged.commit n ⟨s₀, s₁, h0, h1, rfl⟩

end Rearranged

theorem blind_recover : ∀ n, Blind (Machine.recover n)
  | 0, _, _, _ => rfl
  | n + 1, m, s₀, s₁ => by
    have hl : (m.place s₀ s₁).activeList = m.activeList := rfl
    unfold Machine.recover
    rw [hl]
    split
    · rfl
    · next e _ => exact blind_recover n (m.rollback e m.activeList.dropLast) s₀ s₁

theorem blind_endException : Blind Machine.endException := by
  intro m s₀ s₁
  unfold Machine.endException
  by_cases hl : m.activeList = []
  · rw [if_pos hl, if_pos (by exact hl)]
    rfl
  · rw [if_neg hl, if_neg (by exact hl)]

theorem Rearranged.commitStage {m m' : Machine} (h : Rearranged m m') :
    Rearranged m.commitStage m'.commitStage := by
  have hmode : m'.exceptionMode = m.exceptionMode := by
    obtain ⟨s₀, s₁, -, -, rfl⟩ := h
    rfl
  unfold Machine.commitStage
  rw [hmode]
  split_ifs
  · exact (h.of_blind blind_endException).of_blind (blind_recover _)
  · exact h.commit _

/-! ### Execution, write-back and issue -/

theorem Rearranged.executeStage {m m' : Machine} (h : Rearranged m m') :
    Rearranged m.executeStage m'.executeStage := by
  obtain ⟨s₀, s₁, h0, h1, rfl⟩ := h
  exact ⟨s₀, s₁.map Instruction.execute, h0, h1.map _, rfl⟩

/-- Distinct results are written back in any order. -/
theorem Rearranged.writeBackStage {m m' : Machine} (hd : Distinct m.stage1)
    (h : Rearranged m m') : Rearranged m.writeBackStage m'.writeBackStage := by
  have hblind : Blind fun m' => m.stage1.foldl Machine.writeBack m' := fun m' s₀ s₁ =>
    List.foldl_hom (fun m : Machine => m.place s₀ s₁) fun _ _ => rfl
  have hperm : m'.writeBackStage = m.stage1.foldl Machine.writeBack m' := by
    obtain ⟨s₀, s₁, -, h1, rfl⟩ := h
    exact (foldl_writeBack_perm h1.symm hd _).symm
  rw [hperm]
  exact h.of_blind hblind

theorem Rearranged.issueStage {m m' : Machine} (h : Rearranged m m') :
    Rearranged m.issueStage m'.issueStage := by
  obtain ⟨s₀, s₁, h0, h1, rfl⟩ := h
  exact ⟨m.issueStage.stage0, s₀, .refl _, h0, rfl⟩

/-! ### The stages after issue -/

theorem dispatchLoop_place (uninit : ℕ → UInt8) (s₀ s₁ : List Instruction) :
    ∀ (n i : ℕ) (m : Machine), (m.place s₀ s₁).dispatchLoop uninit n i =
      ((m.dispatchLoop uninit n i).1.place s₀ s₁, (m.dispatchLoop uninit n i).2)
  | 0, _, _ => rfl
  | n + 1, i, m => by
    have hd : (m.place s₀ s₁).dir = m.dir := rfl
    have hf : (m.place s₀ s₁).freeList = m.freeList := rfl
    unfold Machine.dispatchLoop
    rw [hd, hf]
    split
    · next x dir p freeList _ _ =>
      split_ifs
      · exact dispatchLoop_place uninit s₀ s₁ n (i + 1) (m.dispatch x dir p freeList)
      · rfl
    · rfl

theorem dispatchStage_place (uninit : ℕ → UInt8) (s₀ s₁ : List Instruction) (m : Machine) :
    (m.place s₀ s₁).dispatchStage uninit =
      ((m.dispatchStage uninit).1.place s₀ s₁, (m.dispatchStage uninit).2) := by
  have hst : (m.place s₀ s₁).stalled = m.stalled := rfl
  unfold Machine.dispatchStage
  rw [hst]
  split_ifs
  · rfl
  · exact dispatchLoop_place uninit s₀ s₁ m.dir.length 0 { m with backpressure := false }

theorem blind_afterIssue (uninit : ℕ → UInt8) : Blind (Machine.afterIssue uninit) := by
  intro m s₀ s₁
  simp only [Machine.afterIssue, dispatchStage_place]
  split_ifs
  · rfl
  · rfl

end R10000
