/-
  The ALUs, write-back and issue refine those of the abstract machine.
-/
import R10000.Refine.Commit

namespace R10000

open Fallible

/-! ## Execution -/

/-- What `alu_cycle` does to its ALU. -/
def aluStep (a : Alu) : Alu :=
  if a.stage1.type = .unknownType then a else ⟨a.stage0, a.stage1.execute⟩

theorem execute_type (x : Instruction) : x.execute.type = x.type := by
  unfold Instruction.execute; split <;> rfl

/-- The real instructions in the last stage are in flight. -/
def StageOk (alus : Vector Alu numAlus) : Prop :=
  ∀ i : Fin numAlus, (alus.get i).stage1.type ≠ .unknownType → (alus.get i).stage1.InFlight

theorem stageOk_of_safe {p : Processor} (hs : Safe (view p)) : StageOk p.alus := by
  intro i ht
  refine hs.stage1_ok _ ?_
  simp only [view, inStage, List.mem_filter, List.mem_map]
  exact ⟨⟨p.alus.get i, Vector.mem_toList_iff.2 (Vector.getElem_mem i.isLt), rfl⟩,
    by simpa using ht⟩

theorem aluCycle_ok {p : Processor} (h : StageOk p.alus) (i : Fin numAlus) :
    aluCycle i p = .ok () { p with alus := p.alus.set i (aluStep (p.alus.get i)) i.isLt } := by
  unfold aluStep
  split_ifs with ht
  · have : p.alus.set i (p.alus.get i) = p.alus := Vector.set_getElem_self i.isLt
    rw [this]
    simp [aluCycle, Alu.forwardingPath, ht]
  · obtain ⟨v, b, hc⟩ := (h i ht).call_ok
    simp [aluCycle, Alu.forwardingPath, ht, hc, Instruction.execute]

theorem get_set (alus : Vector Alu numAlus) (i j : Fin numAlus) (a : Alu) :
    (alus.set i a i.isLt).get j = if i = j then a else alus.get j := by
  simp only [Fin.ext_iff]
  exact Vector.getElem_set i.isLt j.isLt

theorem StageOk.set {alus : Vector Alu numAlus} (h : StageOk alus) (i : Fin numAlus) :
    StageOk (alus.set i (aluStep (alus.get i)) i.isLt) := by
  intro j ht
  rw [get_set] at ht ⊢
  by_cases hij : i = j
  · simp only [hij, if_true] at ht ⊢
    unfold aluStep at ht ⊢
    split_ifs at ht ⊢ with hu
    · exact absurd hu ht
    · exact (h j hu).execute
  · simp only [hij, if_false] at ht ⊢
    exact h j ht

/-- The ALUs after a cycle of the ALU `i`. -/
def stepAlu (alus : Vector Alu numAlus) (i : Fin numAlus) : Vector Alu numAlus :=
  alus.set i (aluStep (alus.get i)) i.isLt

/-- The loop over the ALUs, by the loop rule. -/
theorem aluCycles_sim {p : Processor} (h : StageOk p.alus) (l : List (Fin numAlus)) :
    Sim id (forM l aluCycle) p ⟨⟩ { p with alus := l.foldl stepAlu p.alus } := by
  have hstep : ∀ (i : Fin numAlus) (p : Processor), StageOk p.alus →
      Sim id (aluCycle i) p () { p with alus := stepAlu p.alus i } :=
    fun i p h => ⟨_, aluCycle_ok h i, rfl⟩
  have hloop := Sim.forM (I := fun p : Processor => StageOk p.alus)
    (fun i p h => ⟨hstep i p h, h.set i⟩) l p h
  have hfold : l.foldl (fun p i => { p with alus := stepAlu p.alus i }) p =
      { p with alus := l.foldl stepAlu p.alus } :=
    List.foldl_hom (fun alus => { p with alus }) fun _ _ => rfl
  rw [← hfold]
  exact hloop

/-- A vector of four. -/
theorem exists_alus (alus : Vector Alu numAlus) :
    ∃ a b c d, alus = #v[a, b, c, d] :=
  ⟨alus[0], alus[1], alus[2], alus[3], by
    ext i hi
    rcases i with _ | _ | _ | _ | i
    all_goals first
    | rfl
    | simp only [numAlus] at hi; omega⟩

theorem finRange_numAlus : List.finRange numAlus = [0, 1, 2, 3] := by decide

theorem foldl_stepAlu (alus : Vector Alu numAlus) :
    (List.finRange numAlus).foldl stepAlu alus = alus.map aluStep := by
  obtain ⟨a, b, c, d, rfl⟩ := exists_alus alus
  have hmap : #v[a, b, c, d].map aluStep = #v[aluStep a, aluStep b, aluStep c, aluStep d] := by
    simp
  rw [finRange_numAlus, hmap]
  rfl

theorem inStage_aluStep (alus : Vector Alu numAlus) :
    inStage Alu.stage0 (alus.map aluStep) = inStage Alu.stage0 alus ∧
      inStage Alu.stage1 (alus.map aluStep) =
        (inStage Alu.stage1 alus).map Instruction.execute := by
  have h0 : ∀ a, (aluStep a).stage0 = a.stage0 := fun a => by unfold aluStep; split_ifs <;> rfl
  have h1 : ∀ a, (aluStep a).stage1 =
      if a.stage1.type = .unknownType then a.stage1 else a.stage1.execute := by
    intro a
    unfold aluStep; split_ifs <;> rfl
  simp only [inStage, Vector.toList_map, List.map_map]
  constructor
  · congr 1
    exact List.map_congr_left fun a _ => h0 a
  · induction alus.toList with
    | nil => rfl
    | cons a l ih =>
      simp only [List.map_cons, List.filter_cons, Function.comp, h1] at ih ⊢
      by_cases ht : a.stage1.type = .unknownType
      · simpa [ht] using ih
      · simpa [ht, execute_type] using ih

/-- A stage of the ALUs is empty if each ALU has a bubble there. -/
theorem inStage_nil {stage : Alu → Instruction} {alus : Vector Alu numAlus} :
    inStage stage alus = [] ↔ ∀ i : Fin numAlus, (stage (alus.get i)).type = .unknownType := by
  simp only [inStage, List.filter_eq_nil_iff, List.mem_map, ne_eq, decide_not,
    Bool.not_eq_true', decide_eq_false_iff_not, not_not, forall_exists_index, and_imp,
    forall_apply_eq_imp_iff₂, Vector.mem_toList_iff]
  constructor
  · exact fun h i => h _ (Vector.getElem_mem i.isLt)
  · intro h a ha
    obtain ⟨i, hi, rfl⟩ := Vector.getElem_of_mem ha
    exact h ⟨i, hi⟩

theorem executeStage_sim {p : Processor} (hs : Safe (view p)) :
    Sim view (forM (List.finRange numAlus) aluCycle) p ⟨⟩ (view p).executeStage := by
  obtain ⟨p', h, hp'⟩ := aluCycles_sim (stageOk_of_safe hs) (List.finRange numAlus)
  obtain ⟨h0, h1⟩ := inStage_aluStep p.alus
  rw [foldl_stepAlu] at hp'
  refine ⟨p', h, ?_⟩
  rw [show p' = _ from hp']
  simp only [view, Machine.executeStage, h0, h1]

/-! ## Write-back -/

theorem updateIteration_bubble {p : Processor} {i : Fin numAlus}
    (ht : (p.alus.get i).stage1.type = .unknownType) : updateIteration i p = .ok () p := by
  simp [updateIteration, Alu.forwardingPath, ht]

theorem updateIteration_sim {p : Processor} {i : Fin numAlus}
    (ht : (p.alus.get i).stage1.type ≠ .unknownType)
    (hd : (p.alus.get i).stage1.dest.phyId.toNat < 64) :
    Sim (fun p => (p.alus, view p)) (updateIteration i) p ()
      (p.alus, (view p).writeBack (p.alus.get i).stage1) := by
  obtain ⟨q, hq1, hq2⟩ := activeListMarkDone_ok (q := p.activeList) (p.alus.get i).stage1.pc
  cases he : (p.alus.get i).stage1.isException with
  | false =>
    refine ⟨{ p with
      physical := wr p.physical (p.alus.get i).stage1.dest.phyId
        (p.alus.get i).stage1.dest.value
      isBusy := wr p.isBusy (p.alus.get i).stage1.dest.phyId false
      activeList := q }, ?_, ?_⟩
    · simp [updateIteration, Alu.forwardingPath, ht, tableSet_eq hd, hq1, he]
    · simp only [view, Machine.writeBack, complete, he, Bool.false_eq_true, if_false, hq2]
  | true =>
    obtain ⟨q', hq1', hq2'⟩ := activeListMarkException_ok (q := q) (p.alus.get i).stage1.pc
    refine ⟨{ p with
      physical := wr p.physical (p.alus.get i).stage1.dest.phyId
        (p.alus.get i).stage1.dest.value
      isBusy := wr p.isBusy (p.alus.get i).stage1.dest.phyId true
      activeList := q' }, ?_, ?_⟩
    · simp [updateIteration, Alu.forwardingPath, ht, tableSet_eq hd, hq1, hq1', he]
    · simp only [view, Machine.writeBack, complete, he, if_true, hq2', hq2]

/-- The loop of the write-back, by the loop rule; it does not change the ALUs. -/
theorem updateIterations_sim {p : Processor} (hok : StageOk p.alus) (l : List (Fin numAlus)) :
    Sim view (forM l updateIteration) p ⟨⟩
      (((l.map fun i => (p.alus.get i).stage1).filter (·.type ≠ .unknownType)).foldl
        Machine.writeBack (view p)) := by
  let write (m : Machine) (x : Instruction) : Machine :=
    if x.type ≠ .unknownType then m.writeBack x else m
  have hstep : ∀ (i : Fin numAlus) (p : Processor), StageOk p.alus →
      Sim (fun p => (p.alus, view p)) (updateIteration i) p ()
        (p.alus, write (view p) (p.alus.get i).stage1) := by
    intro i p hok
    by_cases ht : (p.alus.get i).stage1.type = .unknownType
    · exact ⟨p, updateIteration_bubble ht, by simp only [write, ne_eq, ht, not_true, if_false]⟩
    · simp only [write, ne_eq, ht, not_false_eq_true, if_true]
      exact updateIteration_sim ht (hok i ht).dest_lt
  have hloop := Sim.forM (I := fun t : Vector Alu numAlus × Machine => StageOk t.1)
    (g := fun t i => (t.1, write t.2 (t.1.get i).stage1))
    (fun i p h => ⟨hstep i p h, h⟩) l p hok
  have hfold : l.foldl (fun t i => (t.1, write t.2 (t.1.get i).stage1)) (p.alus, view p) =
      (p.alus, l.foldl (fun m i => write m (p.alus.get i).stage1) (view p)) :=
    List.foldl_hom (Prod.mk p.alus) fun _ _ => rfl
  rw [hfold] at hloop
  obtain ⟨p', h, hp'⟩ := hloop
  rw [Prod.mk.injEq] at hp'
  refine ⟨p', h, hp'.2.trans ?_⟩
  rw [List.foldl_filter, List.foldl_map]
  simp only [write, decide_eq_true_eq]

/-- The forwarding paths in the order of the ALUs. -/
theorem map_forwardingPath (alus : Vector Alu numAlus) :
    (List.finRange numAlus).map (fun i => (alus.get i).stage1) = alus.toList.map Alu.stage1 := by
  obtain ⟨a, b, c, d, rfl⟩ := exists_alus alus
  rw [finRange_numAlus]
  rfl

theorem writeBackStage_sim {p : Processor} (hs : Safe (view p)) :
    Sim view renameDispatchUpdateStructures p ⟨⟩ (view p).writeBackStage := by
  have h := updateIterations_sim (stageOk_of_safe hs) (List.finRange numAlus)
  rw [map_forwardingPath] at h
  exact h

/-! ## Issue -/

theorem isOperandReady_ok {p : Processor} {o : Operand}
    (ho : o.type = .reg → o.phyId.toNat < 64) :
    isOperandReady o p.isBusy p.activeList = .ok ((view p).ready o) := by
  unfold isOperandReady Machine.ready
  cases ht : o.type with
  | imm => rfl
  | reg =>
    have hlt := ho ht
    simp only [tableGet_eq hlt, bind, Except.bind]
    cases hb : rd p.isBusy o.phyId with
    | true => simp [view, hb]; rfl
    | false =>
      rw [if_neg (by simp), scanException_ok o.phyId _ 0 (by simp)]
      simp [view, hb]; rfl

theorem captureOperand_ok {p : Processor} {o : Operand}
    (ho : o.type = .reg → o.phyId.toNat < 64) :
    captureOperand o ((view p).ready o) p.physical = .ok ((view p).capture o) := by
  unfold captureOperand Machine.capture
  split_ifs with h
  · rw [tableGet_eq (ho h.2)]; rfl
  · rfl

theorem refreshEntry_ok {p : Processor} {en : IqEntry} (h : en.instr.InFlight) :
    refreshEntry p en = .ok ((view p).refresh en) := by
  simp only [refreshEntry, isOperandReady_ok (p := p) fun _ => h.opA_lt,
    isOperandReady_ok (p := p) h.opB_lt, captureOperand_ok (p := p) fun _ => h.opA_lt,
    captureOperand_ok (p := p) h.opB_lt, bind, Except.bind]
  rfl

/-- Refreshing does not depend on the queue. -/
theorem refresh_view_iq (p : Processor) (iq : Fifo IqEntry iqCapacity) :
    (view { p with iq }).refresh = (view p).refresh := rfl

theorem refreshLoop_ok : ∀ (n i : ℕ) (p : Processor), i + n = p.iq.toList.length →
    (∀ en ∈ p.iq.toList, en.instr.InFlight) → ∃ q,
      refreshLoop n i p = .ok () { p with iq := q } ∧ q.toList =
        p.iq.toList.take i ++ (p.iq.toList.drop i).map (view p).refresh
  | 0, i, p, h, _ => ⟨p.iq, rfl, by
      rw [Nat.add_zero] at h
      rw [h, List.take_length, List.drop_length]; simp⟩
  | n + 1, i, p, h, hok => by
    have hi : i < p.iq.toList.length := by omega
    obtain ⟨q, hq1, hq2⟩ := Fifo.updateLogical_ok hi ((view p).refresh p.iq.toList[i])
    obtain ⟨q', hq1', hq2'⟩ := refreshLoop_ok n (i + 1) { p with iq := q }
      (by simp only [hq2, List.length_set]; omega) (fun en hen => by
        simp only [hq2] at hen
        rcases List.mem_or_eq_of_mem_set hen with hen | rfl
        · exact hok en hen
        · exact (hok _ (List.getElem_mem hi)).refresh)
    refine ⟨q', ?_, ?_⟩
    · simp [refreshLoop, Fifo.peekLogical_ok hi, refreshEntry_ok (p := p)
        (hok _ (List.getElem_mem hi)), hq1, hq1']
    · rw [hq2', refresh_view_iq]
      simp only [hq2]
      rw [List.set_eq_take_append_cons_drop, if_pos hi, List.drop_eq_getElem_cons hi,
        List.map_cons]
      have hlen : (p.iq.toList.take i).length = i := by rw [List.length_take]; omega
      rw [List.take_append, List.drop_append, hlen, show i + 1 - i = 1 by omega,
        List.take_of_length_le (by omega)]
      simp [show min i p.iq.count ≤ i + 1 by omega]

theorem getFirstNReadyLoop_ok (n : ℕ) : ∀ (fuel i : ℕ) (q : Fifo IqEntry iqCapacity)
    (entries : List IqEntry), i + fuel = q.toList.length → ∃ q',
      getFirstNReadyLoop n fuel i q entries =
        .ok (entries ++ (select (n - entries.length) (q.toList.drop i)).1, q') ∧
      q'.toList = q.toList.take i ++ (select (n - entries.length) (q.toList.drop i)).2
  | 0, i, q, entries, h => ⟨q, by
      rw [Nat.add_zero] at h
      rw [h, List.drop_length, List.take_length]
      cases n - entries.length <;> simp [select, getFirstNReadyLoop]⟩
  | fuel + 1, i, q, entries, h => by
    have hi : i < q.toList.length := by omega
    have hi' : i < q.count := by rwa [Fifo.length_toList] at hi
    unfold getFirstNReadyLoop
    by_cases hn : entries.length < n
    · obtain ⟨k, hk⟩ : ∃ k, n - entries.length = k + 1 := ⟨n - entries.length - 1, by omega⟩
      rw [if_pos ⟨hi', hn⟩, hk, List.drop_eq_getElem_cons hi]
      simp only [Fifo.peekLogical_ok hi, bind, Except.bind, select]
      split_ifs with hx hr
      · exact ⟨q, by rw [List.append_nil]; rfl, by
          rw [← List.drop_eq_getElem_cons hi, List.take_append_drop]⟩
      · obtain ⟨q₁, h1, h2⟩ := Fifo.popLogical_ok hi
        have hlen : i + fuel = q₁.toList.length := by
          rw [h2, List.length_eraseIdx, if_pos hi]; omega
        obtain ⟨q', h3, h4⟩ := getFirstNReadyLoop_ok n fuel i q₁ (entries ++ [q.toList[i]]) hlen
        have hk' : n - (entries ++ [q.toList[i]]).length = k := by simp; omega
        have hdrop : q₁.toList.drop i = q.toList.drop (i + 1) := by
          rw [h2, List.eraseIdx_eq_take_drop_succ, List.drop_append_of_le_length (by simp; omega)]
          simp
        have htake : q₁.toList.take i = q.toList.take i := by
          rw [h2, List.eraseIdx_eq_take_drop_succ, List.take_append_of_le_length (by simp; omega),
            List.take_take, Nat.min_self]
        rw [hk', hdrop] at h3 h4
        exact ⟨q', by rw [h1]; exact h3.trans (by rw [List.append_assoc]; rfl), by rw [h4, htake]⟩
      · obtain ⟨q', h3, h4⟩ := getFirstNReadyLoop_ok n fuel (i + 1) q entries (by omega)
        rw [hk] at h3 h4
        exact ⟨q', h3, by
          rw [h4, List.take_add_one, List.getElem?_eq_getElem hi, List.append_assoc]; rfl⟩
    · rw [if_neg (fun h => hn h.2), show n - entries.length = 0 by omega]
      exact ⟨q, by simp [select], by simp [select]⟩

theorem select_length : ∀ (n : ℕ) (iq : List IqEntry), (select n iq).1.length ≤ n
  | 0, _ => by simp [select]
  | _ + 1, [] => by simp [select]
  | n + 1, entry :: iq => by
    unfold select
    split_ifs
    · simp
    · simpa using select_length n iq
    · exact select_length (n + 1) iq

/-- The stages of the ALUs after an issue. -/
theorem inStage_push (alus : Vector Alu numAlus) (entries : List IqEntry)
    (hlen : entries.length ≤ 4) (hreal : ∀ en ∈ entries, en.instr.type ≠ .unknownType) :
    let alus' : Vector Alu numAlus := Vector.ofFn fun i : Fin numAlus =>
      aluPushInstruction (alus.get i) (if h : i < entries.length then entries[i].instr else bubble)
    inStage Alu.stage0 alus' = entries.map IqEntry.instr ∧
      inStage Alu.stage1 alus' = inStage Alu.stage0 alus := by
  obtain ⟨a, b, c, d, rfl⟩ := exists_alus alus
  have hb : decide (bubble.type ≠ .unknownType) = false := by decide
  refine ⟨?_, rfl⟩
  rcases entries with _ | ⟨e₁, _ | ⟨e₂, _ | ⟨e₃, _ | ⟨e₄, _ | ⟨e₅, l⟩⟩⟩⟩⟩
  · rfl
  all_goals
    simp only [List.mem_cons, List.not_mem_nil, or_false, forall_eq_or_imp, forall_eq] at hreal
    simp only [inStage, numAlus, List.length_cons, List.length_nil]
  · change List.filter _ [e₁.instr, bubble, bubble, bubble] = _
    simp [hreal, bubble]
  · change List.filter _ [e₁.instr, e₂.instr, bubble, bubble] = _
    simp [hreal, bubble]
  · change List.filter _ [e₁.instr, e₂.instr, e₃.instr, bubble] = _
    simp [hreal, bubble]
  · change List.filter _ [e₁.instr, e₂.instr, e₃.instr, e₄.instr] = _
    simp [hreal]
  · simp only [List.length_cons] at hlen
    omega

section
variable {p : Processor} (hs : Safe (view p))
include hs

/-- What `issue_cycle` issues, and the queue that it leaves behind. -/
theorem selectReady_ok : ∃ q q', iqRefreshReady p = .ok () { p with iq := q } ∧
    iqGetFirstNReady q numAlus =
      .ok ((select numAlus (p.iq.toList.map (view p).refresh)).1, q') ∧
    q'.toList = (select numAlus (p.iq.toList.map (view p).refresh)).2 := by
  obtain ⟨q, h1, h2⟩ := refreshLoop_ok p.iq.count 0 p (by simp) fun en hen => (hs.iq_ok en hen).1
  obtain ⟨q', h3, h4⟩ := getFirstNReadyLoop_ok numAlus q.count 0 q [] (by simp)
  simp only [List.take_zero, List.drop_zero, List.nil_append, List.length_nil, Nat.sub_zero]
    at h2 h3 h4
  rw [h2] at h3 h4
  exact ⟨q, q', by rw [iqRefreshReady, get_bind, h1], h3, h4⟩

/-- No bubbles are selected. -/
theorem selected_real : ∀ en ∈ (select numAlus (p.iq.toList.map (view p).refresh)).1,
    en.instr.type ≠ .unknownType := fun en hen =>
  (hs.refreshed en ((select_subset _ _).1 en hen)).1.typed.1

theorem issueCycle_sim : Sim view issueCycle p
    (select numAlus ((view p).iq.map (view p).refresh)).1.length (view p).issueStage := by
  obtain ⟨q, q', h1, h2, h3⟩ := selectReady_ok hs
  obtain ⟨hst0, hst1⟩ := inStage_push p.alus _ (select_length numAlus _) (selected_real hs)
  generalize halus : (Vector.ofFn fun i : Fin numAlus => aluPushInstruction (p.alus.get i)
    (if h : i < (select numAlus (p.iq.toList.map (view p).refresh)).1.length then
      (select numAlus (p.iq.toList.map (view p).refresh)).1[i].instr else bubble)) = alus
    at hst0 hst1
  refine ⟨{ p with iq := q', alus }, ?_, ?_⟩
  · rw [issueCycle, bind_ok h1]
    simp only [get_bind, h2, orReturn_ok, pure_bind_run, modify_bind, pure_run]
    rw [← halus]
    rfl
  · rw [show view { p with iq := q', alus } = { view p with
      iq := q'.toList
      stage0 := inStage Alu.stage0 alus
      stage1 := inStage Alu.stage1 alus } from rfl, hst0, hst1, h3]
    rfl

end

/-- The stages before issue. -/
theorem beforeIssue_sim {p : Processor} (hs : Safe (view p)) :
    Sim view (do
      commitCycle
      forM (List.finRange numAlus) aluCycle
      renameDispatchUpdateStructures) p ()
      (view p).commitStage.executeStage.writeBackStage := by
  refine (commitCycle_sim hs).bind fun p₁ h₁ => ?_
  have hs₁ := h₁ ▸ hs.commitStage
  refine (executeStage_sim hs₁).bind fun p₂ h₂ => ?_
  have hs₂ := h₂ ▸ hs₁.executeStage
  have h₃ := writeBackStage_sim hs₂
  rw [h₂, h₁] at h₃
  exact h₃

/-- The stages before dispatch end as issue does. -/
theorem beforeIssue_then {p : Processor} (hs : Safe (view p)) (issue : ProcM ℕ) :
    ∃ p', view p' = (view p).commitStage.executeStage.writeBackStage ∧
      ∀ n p'', issue p' = .ok n p'' → (do
        commitCycle
        forM (List.finRange numAlus) aluCycle
        renameDispatchUpdateStructures
        discard issue : ProcM Unit) p = .ok () p'' := by
  obtain ⟨p', h', hview⟩ := beforeIssue_sim hs
  refine ⟨p', hview, fun n p'' h'' => ?_⟩
  have hassoc : (do
      commitCycle
      forM (List.finRange numAlus) aluCycle
      renameDispatchUpdateStructures
      discard issue : ProcM Unit) = (do
        commitCycle
        forM (List.finRange numAlus) aluCycle
        renameDispatchUpdateStructures) >>= fun _ => issue >>= fun _ => pure () := by
    simp only [bind_assoc]
    rfl
  rw [hassoc, bind_ok h', bind_ok h'']
  rfl

/-- **The stages before dispatch do what the machine's do.** -/
theorem backEnd_sim {p : Processor} (hs : Safe (view p)) :
    Sim view backEnd p () (view p).backEnd := by
  obtain ⟨p', hview, hthen⟩ := beforeIssue_then hs issueCycle
  obtain ⟨p'', h, hissue⟩ :=
    issueCycle_sim (hview ▸ hs.commitStage.executeStage.writeBackStage)
  exact ⟨p'', hthen _ p'' h, by rw [hissue, hview, Machine.backEnd]⟩

end R10000
