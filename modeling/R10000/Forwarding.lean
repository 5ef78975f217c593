/-
  Wake-up by forwarding.

  A result can wake the operands that wait for it in two ways.  `iq_refresh_ready` reads the
  busy bits and the register file anew for every entry; `iq_set_fw` compares the tags of the
  entries with the destination of the instruction at a forwarding path.  At the start of a
  cycle the ready flags are exact, so that the results of the cycle make the difference.
-/
import Mathlib.Data.List.Nodup
import R10000.Operands
import R10000.Refine.Issue

namespace R10000

/-! ## The flags at the start of a cycle -/

/-- An operand is flagged ready exactly if it is. -/
def FlagsExact (m : Machine) : Prop := ∀ en ∈ m.iq,
  en.isOpAReady = m.ready en.instr.opA ∧ en.isOpBReady = m.ready en.instr.opB

section
variable {m : Machine} {todo : List Instruction}

theorem ready_capture (m : Machine) (o : Operand) : m.ready (m.capture o) = m.ready o := by
  unfold Machine.ready
  rw [Machine.capture_type, Machine.capture_phyId]

theorem flagsExact_issueStage (m : Machine) : FlagsExact m.issueStage := by
  intro en hen
  obtain ⟨en₀, -, rfl⟩ := List.mem_map.1 ((select_sublist _ _).subset hen)
  exact ⟨(ready_capture m _).symm, (ready_capture m _).symm⟩

section
variable {x : Instruction} {dir : List Instruction} {p : UInt8} {freeList : List UInt8}
  (hs : Safe m) (htodo : ∀ x ∈ todo, x.InFlight) (h : Normal todo m) (hd : m.dir = x :: dir)
  (hf : m.freeList = p :: freeList)
include hs htodo h hd hf

/-- Dispatch does not make an operand of an older instruction wait. -/
theorem ready_dispatch {o : Operand} (hlog : o.type = .reg → o.logId.toNat < 32)
    (hphy : o.type = .reg → o.phyId.toNat < 64) {j : ℕ}
    (hr : Renamed m.logical m.activeList j o) :
    (m.dispatch x dir p freeList).ready o = m.ready o := by
  cases ht : o.type with
  | imm => simp only [Machine.ready, ht]
  | reg =>
    have hne : p ≠ o.phyId := by
      rw [hr ht]
      exact Normal.free_ne_mapAt hs h.window (by simp [hf]) (hlog ht) j
    rw [h.window.ready_eq ht (hphy ht), (h.dispatch hs htodo hd hf).window.ready_eq ht (hphy ht)]
    simp only [Machine.dispatch, Machine.allocate]
    rw [rd_wr_ne _ hne.symm]

theorem FlagsExact.dispatch (hflags : FlagsExact m) :
    FlagsExact (m.dispatch x dir p freeList) := by
  intro en hen
  rcases List.mem_append.1 hen with hen | hen
  · have hx := (hs.iq_ok en hen).1
    have htr := h.tracked _ (mem_flight.2 (.inl ⟨en, hen, rfl⟩))
    obtain ⟨hlogA, hlogB⟩ := Normal.operand_lt hx
    rw [ready_dispatch hs htodo h hd hf (fun _ => hlogA) (fun _ => hx.opA_lt) htr.opA,
      ready_dispatch hs htodo h hd hf hlogB hx.opB_lt htr.opB]
    exact hflags en hen
  · rw [List.mem_singleton.1 hen]
    exact ⟨(ready_capture _ _).symm, (ready_capture _ _).symm⟩

end

theorem FlagsExact.dispatchStage (uninit : ℕ → UInt8) (hs : Safe m)
    (htodo : ∀ x ∈ todo, x.InFlight) (h : Normal todo m) (hflags : FlagsExact m) :
    FlagsExact (m.dispatchStage uninit).1 := by
  unfold Machine.dispatchStage
  split_ifs with hst
  · exact hflags
  · refine Machine.dispatchLoop_induction
      (I := fun n m => Safe m ∧ m.iq.length + n ≤ 32 ∧ Normal todo m ∧ FlagsExact m)
      (J := fun r => FlagsExact r.1) uninit ?_ ?_ ?_ ?_ _ 0 _
      ⟨hs.setBackpressure false, (hs.room (by simpa using hst)).2.2, h.setBackpressure false,
        hflags⟩
    · rintro n m x dir p freeList hd hf ⟨hs, hn, h, hflags⟩
      refine ⟨hs.dispatch hd hf (by omega), ?_, h.dispatch hs htodo hd hf,
        hflags.dispatch hs htodo h hd hf⟩
      rw [Machine.length_dispatch_iq]
      omega
    · rintro m ⟨-, -, -, hflags⟩
      exact hflags
    · rintro n m x dir - ⟨-, -, -, hflags⟩
      exact hflags
    · rintro n m ⟨-, -, -, hflags⟩
      exact hflags

/-- **At the end of a cycle in the normal mode the flags are exact.** -/
theorem Normal.flagsExact_cycle (uninit : ℕ → UInt8) (hs : Safe m) (h : Normal m.stage1 m)
    (hm : m.commitStage.exceptionMode = false) : FlagsExact (m.cycle uninit) := by
  have hback := h.backEnd hs hm
  have hflags := (flagsExact_issueStage m.commitStage.executeStage.writeBackStage).dispatchStage
    uninit hs.backEnd hs.backEnd.stage1_ok hback
  simp only [Machine.cycle]
  split_ifs
  · exact hflags
  · exact hflags

theorem FlagsExact.retireN {c : ℕ} (hs : Safe m) (h : Normal todo m)
    (h' : Normal todo (m.retireN c)) (hflags : FlagsExact m) :
    FlagsExact (m.retireN c).executeStage := by
  intro en hen
  have hx := (hs.iq_ok en hen).1
  have hsame : ∀ o : Operand, (o.type = .reg → o.phyId.toNat < 64) →
      (m.retireN c).executeStage.ready o = m.ready o := by
    intro o hlt
    cases ht : o.type with
    | imm => simp only [Machine.ready, ht]
    | reg =>
      rw [h.window.ready_eq ht (hlt ht)]
      exact h'.window.ready_eq ht (hlt ht)
  rw [hsame _ fun _ => hx.opA_lt, hsame _ hx.opB_lt]
  exact hflags en hen

end

/-! ## The results of a cycle -/

/-- The results of `l` are broadcast to an operand, one after the other. -/
def broadcastOperand (l : List Instruction) (o : Operand) (isReady : Bool) : Operand × Bool :=
  l.foldl (fun r x => setFwOperand x r.1 r.2) (o, isReady)

/-- The results of `l` are broadcast to an entry. -/
def broadcast (l : List Instruction) (en : IqEntry) : IqEntry :=
  l.foldl (fun en x => setFwEntry x en) en

theorem broadcast_eq (l : List Instruction) (en : IqEntry) : broadcast l en =
    ⟨{ en.instr with
        opA := (broadcastOperand l en.instr.opA en.isOpAReady).1
        opB := (broadcastOperand l en.instr.opB en.isOpBReady).1 },
      (broadcastOperand l en.instr.opA en.isOpAReady).2,
      (broadcastOperand l en.instr.opB en.isOpBReady).2⟩ := by
  induction l generalizing en with
  | nil => rfl
  | cons x l ih => exact ih (setFwEntry x en)

section
variable {l : List Instruction} (hnd : (l.map (·.dest.phyId)).Nodup)
include hnd

/-- At most one result has the tag of an operand. -/
theorem broadcastOperand_cases (o : Operand) (isReady : Bool) :
    (∃ x ∈ l, x.dest.phyId = o.phyId ∧
      broadcastOperand l o isReady = ({ o with value := x.dest.value }, true)) ∨
    (∀ x ∈ l, x.dest.phyId ≠ o.phyId) ∧ broadcastOperand l o isReady = (o, isReady) := by
  induction l generalizing o isReady with
  | nil =>
    right
    exact ⟨by simp, rfl⟩
  | cons x l ih =>
    rw [List.map_cons, List.nodup_cons] at hnd
    by_cases hx : x.dest.phyId = o.phyId
    · left
      refine ⟨x, List.mem_cons_self, hx, ?_⟩
      have hrest : ∀ y ∈ l, y.dest.phyId ≠ o.phyId := by
        intro y hy heq
        exact hnd.1 (List.mem_map.2 ⟨y, hy, heq.trans hx.symm⟩)
      rw [broadcastOperand, List.foldl_cons, setFwOperand, if_pos hx]
      rcases ih hnd.2 { o with value := x.dest.value } true with ⟨y, hy, heq, -⟩ | ⟨-, heq⟩
      · exact absurd heq (hrest y hy)
      · exact heq
    · have hskip : broadcastOperand (x :: l) o isReady = broadcastOperand l o isReady := by
        rw [broadcastOperand, List.foldl_cons, setFwOperand, if_neg hx]
        rfl
      rw [hskip]
      rcases ih hnd.2 o isReady with ⟨y, hy, h⟩ | ⟨hne, heq⟩
      · exact .inl ⟨y, List.mem_cons_of_mem _ hy, h⟩
      · right
        refine ⟨fun y hy => ?_, heq⟩
        rcases List.mem_cons.1 hy with rfl | hy
        · exact hx
        · exact hne y hy

/-- Write-back writes every register once. -/
theorem foldl_writeBack_cases (hlt : ∀ x ∈ l, x.dest.phyId.toNat < 64) (m : Machine) (q : UInt8) :
    (∃ x ∈ l, x.dest.phyId = q ∧ rd (l.foldl Machine.writeBack m).physical q = x.dest.value ∧
      rd (l.foldl Machine.writeBack m).isBusy q = x.isException) ∨
    (∀ x ∈ l, x.dest.phyId ≠ q) ∧
      rd (l.foldl Machine.writeBack m).physical q = rd m.physical q ∧
      rd (l.foldl Machine.writeBack m).isBusy q = rd m.isBusy q := by
  induction l generalizing m with
  | nil =>
    right
    exact ⟨by simp, rfl, rfl⟩
  | cons x l ih =>
    rw [List.map_cons, List.nodup_cons] at hnd
    rw [List.foldl_cons]
    have hx := hlt x List.mem_cons_self
    rcases ih hnd.2 (fun y hy => hlt y (List.mem_cons_of_mem _ hy)) (m.writeBack x) with
      ⟨y, hy, h⟩ | ⟨hne, hp, hb⟩
    · exact .inl ⟨y, List.mem_cons_of_mem _ hy, h⟩
    · rw [hp, hb]
      simp only [Machine.writeBack]
      rw [rd_wr hx, rd_wr hx]
      by_cases hq : q = x.dest.phyId
      · left
        rw [if_pos hq, if_pos hq]
        exact ⟨x, List.mem_cons_self, hq.symm, rfl, rfl⟩
      · right
        rw [if_neg hq, if_neg hq]
        refine ⟨fun y hy => ?_, rfl, rfl⟩
        rcases List.mem_cons.1 hy with rfl | hy
        · exact Ne.symm hq
        · exact hne y hy

end

/-- The operand as the rest of the processor reads it: the value of an immediate is in `imm`. -/
def Operand.observed (o : Operand) : Operand :=
  match o.type with
  | .reg => o
  | .imm => { o with value := 0 }

/-- The entry as the rest of the processor reads it. -/
def IqEntry.observed (en : IqEntry) : IqEntry :=
  { en with instr := { en.instr with
      opA := en.instr.opA.observed
      opB := en.instr.opB.observed } }

/-- The instruction reads the physical register `q`. -/
def Instruction.Reads (x : Instruction) (q : UInt8) : Prop :=
  x.opA.type = .reg ∧ x.opA.phyId = q ∨ x.opB.type = .reg ∧ x.opB.phyId = q

section
variable {m : Machine} (hs : Safe m) (h : Normal m.stage1 m)
include hs h

theorem Normal.stage1_nodup : (m.stage1.map (·.dest.phyId)).Nodup := by
  refine ((h.distinct hs).sublist ?_).2
  exact (List.sublist_append_right m.stage0 m.stage1).trans (List.sublist_append_right _ _)

/-- **One operand**: the broadcast agrees with the refresh after write-back, unless a result
    that the operand waits for is an exception. -/
theorem broadcastOperand_iff {l : List Instruction} (hperm : l.Perm m.stage1) {o : Operand}
    {isReady : Bool} (hlt : o.type = .reg → o.phyId.toNat < 64) (hflag : isReady = m.ready o)
    (hcap : isReady = true → Captured m o) :
    ((broadcastOperand l o isReady).1.observed = (m.writeBackStage.capture o).observed ∧
      (broadcastOperand l o isReady).2 = m.writeBackStage.ready o) ↔
    ∀ x ∈ m.stage1, x.isException = true → o.type = .reg → o.phyId ≠ x.dest.phyId := by
  have hnd := h.stage1_nodup hs
  have hndl : (l.map (·.dest.phyId)).Nodup := (hperm.map _).nodup_iff.2 hnd
  have hw₁ := (Normal.foldl_writeBack _ hs h).window
  cases ht : o.type with
  | imm =>
    refine iff_of_true ?_ fun x _ _ hr => by cases hr
    have hready : ∀ m' : Machine, m'.ready o = true := fun m' => by simp only [Machine.ready, ht]
    have hcapture : m.writeBackStage.capture o = o := by
      rw [Machine.capture, if_neg (by simp [ht])]
    rw [hcapture, hready]
    rw [hready] at hflag
    rcases broadcastOperand_cases hndl o isReady with ⟨x, -, -, heq⟩ | ⟨-, heq⟩
    · rw [heq]
      exact ⟨by simp only [Operand.observed, ht], rfl⟩
    · rw [heq]
      exact ⟨rfl, hflag⟩
  | reg =>
    have hready₁ : m.writeBackStage.ready o = !rd m.writeBackStage.isBusy o.phyId :=
      hw₁.ready_eq ht (hlt ht)
    have hdest : ∀ x ∈ m.stage1, x.dest.phyId.toNat < 64 := fun x hx => (hs.stage1_ok x hx).dest_lt
    have hobs : ∀ o' : Operand, o'.type = .reg → o'.observed = o' := fun o' ht' => by
      simp only [Operand.observed, ht']
    have htcap : (m.writeBackStage.capture o).type = .reg := by rw [Machine.capture_type, ht]
    rw [hobs _ htcap]
    rcases foldl_writeBack_cases hnd hdest m o.phyId with ⟨x, hx, hxo, hv, hb⟩ | ⟨hne, hv, hb⟩
    · -- the operand waits for `x`, or has the tag of a result that it does not wait for
      have hbl : broadcastOperand l o isReady = ({ o with value := x.dest.value }, true) := by
        rcases broadcastOperand_cases hndl o isReady with ⟨y, hy, hyo, heq⟩ | ⟨hnone, -⟩
        · rw [heq, List.inj_on_of_nodup_map hnd (hperm.subset hy) hx (hyo.trans hxo.symm)]
        · exact absurd hxo (hnone x (hperm.symm.subset hx))
      have hrd : m.writeBackStage.ready o = !x.isException := by
        rw [hready₁]
        exact congrArg _ hb
      rw [hbl, hobs _ (by exact ht), hrd]
      cases hexc : x.isException with
      | true =>
        refine iff_of_false (fun hno => by cases hno.2) fun hno => ?_
        exact hno x hx hexc rfl hxo.symm
      | false =>
        refine iff_of_true ⟨?_, rfl⟩ fun y hy hey _ hyo => ?_
        · rw [Machine.capture, if_pos ⟨by rw [hrd, hexc]; rfl, ht⟩]
          exact congrArg (fun v => { o with value := v }) hv.symm
        · rw [List.inj_on_of_nodup_map hnd hy hx (hyo.symm.trans hxo.symm), hexc] at hey
          cases hey
    · -- no result has its tag
      have hbl : broadcastOperand l o isReady = (o, isReady) := by
        rcases broadcastOperand_cases hndl o isReady with ⟨y, hy, hyo, -⟩ | ⟨-, heq⟩
        · exact absurd hyo (hne y (hperm.subset hy))
        · exact heq
      have hrd : m.writeBackStage.ready o = isReady := by
        rw [hready₁, hflag, h.window.ready_eq ht (hlt ht)]
        exact congrArg _ hb
      rw [hbl, hobs _ ht, hrd]
      refine iff_of_true ⟨?_, rfl⟩ fun y hy _ _ hyo => hne y hy hyo.symm
      rw [Machine.capture]
      split_ifs with hr
      · rw [hrd] at hr
        have hval : rd m.writeBackStage.physical o.phyId = o.value := by
          rw [(hcap hr.1 ht).2]
          exact hv
        rw [hval]
      · rfl

theorem broadcast_iff {l : List Instruction} (hperm : l.Perm m.stage1) (hflags : FlagsExact m)
    {en : IqEntry} (hen : en ∈ m.iq) :
    (broadcast l en).observed = (m.writeBackStage.refresh en).observed ↔
      ∀ x ∈ m.stage1, x.isException = true → ¬ en.instr.Reads x.dest.phyId := by
  obtain ⟨hflagA, hflagB⟩ := hflags en hen
  obtain ⟨hcapA, hcapB⟩ := h.iq_captured en hen
  have hin := (hs.iq_ok en hen).1
  have hA := broadcastOperand_iff hs h hperm (fun _ => hin.opA_lt) hflagA hcapA
  have hB := broadcastOperand_iff hs h hperm hin.opB_lt hflagB hcapB
  have hsplit : (broadcast l en).observed = (m.writeBackStage.refresh en).observed ↔
      ((broadcastOperand l en.instr.opA en.isOpAReady).1.observed =
          (m.writeBackStage.capture en.instr.opA).observed ∧
        (broadcastOperand l en.instr.opA en.isOpAReady).2 =
          m.writeBackStage.ready en.instr.opA) ∧
      ((broadcastOperand l en.instr.opB en.isOpBReady).1.observed =
          (m.writeBackStage.capture en.instr.opB).observed ∧
        (broadcastOperand l en.instr.opB en.isOpBReady).2 =
          m.writeBackStage.ready en.instr.opB) := by
    rw [broadcast_eq]
    simp only [IqEntry.observed, Machine.refresh, IqEntry.mk.injEq, Instruction.mk.injEq]
    tauto
  rw [hsplit, hA, hB]
  constructor
  · rintro ⟨h1, h2⟩ x hx hexc (⟨ht, hq⟩ | ⟨ht, hq⟩)
    · exact h1 x hx hexc ht hq
    · exact h2 x hx hexc ht hq
  · intro hno
    exact ⟨fun x hx hexc ht hq => hno x hx hexc (.inl ⟨ht, hq⟩),
      fun x hx hexc ht hq => hno x hx hexc (.inr ⟨ht, hq⟩)⟩

end

/-! ## The loop of `iq_set_fw` -/

theorem setFwEntry_skip {instr : Instruction} {en : IqEntry}
    (h : ¬ (instr.dest.phyId = en.instr.opA.phyId ∨ instr.dest.phyId = en.instr.opB.phyId)) :
    setFwEntry instr en = en := by
  rw [not_or] at h
  rw [setFwEntry, setFwOperand, setFwOperand, if_neg h.1, if_neg h.2]

theorem map_drop_set {α : Type} (f : α → α) (l : List α) {i : ℕ} (hi : i < l.length) :
    (l.set i (f l[i])).take (i + 1) ++ ((l.set i (f l[i])).drop (i + 1)).map f =
      l.take i ++ (l.drop i).map f := by
  have hlen : (l.take i).length = i := by rw [List.length_take]; omega
  have htake : (l.take i).take (i + 1) = l.take i := List.take_of_length_le (by omega)
  have hdrop : (l.take i).drop (i + 1) = [] := List.drop_of_length_le (by omega)
  rw [List.set_eq_take_append_cons_drop, if_pos hi, List.take_append, List.drop_append, hlen, htake,
    hdrop, Nat.add_sub_cancel_left, List.drop_eq_getElem_cons hi, List.map_cons,
    List.append_assoc]
  rfl

theorem setFwLoop_ok (instr : Instruction) : ∀ (n i : ℕ) (iq : Fifo IqEntry iqCapacity),
    i + n = iq.toList.length → ∃ iq', setFwLoop instr n i iq = .ok iq' ∧
      iq'.toList = iq.toList.take i ++ (iq.toList.drop i).map (setFwEntry instr)
  | 0, i, iq, h => by
    refine ⟨iq, rfl, ?_⟩
    rw [Nat.add_zero] at h
    rw [h, List.take_length, List.drop_length, List.map_nil, List.append_nil]
  | n + 1, i, iq, h => by
    have hi : i < iq.toList.length := by omega
    have hstep := map_drop_set (setFwEntry instr) iq.toList hi
    rw [setFwLoop, Fifo.peekLogical_ok hi]
    simp only [bind, Except.bind]
    split_ifs with hm
    · obtain ⟨q, hq, hl⟩ := Fifo.updateLogical_ok hi (setFwEntry instr iq.toList[i])
      obtain ⟨iq', h1, h2⟩ := setFwLoop_ok instr n (i + 1) q (by
        rw [hl, List.length_set]
        omega)
      refine ⟨iq', ?_, ?_⟩
      · rw [hq]
        exact h1
      · rw [h2, hl, hstep]
    · obtain ⟨iq', h1, h2⟩ := setFwLoop_ok instr n (i + 1) iq (by omega)
      rw [setFwEntry_skip hm, List.set_getElem_self] at hstep
      exact ⟨iq', h1, h2.trans hstep⟩

theorem iqSetFw_ok (iq : Fifo IqEntry iqCapacity) (instr : Instruction) : ∃ iq',
    iqSetFw iq instr = .ok iq' ∧ iq'.toList = iq.toList.map (setFwEntry instr) := by
  obtain ⟨iq', h1, h2⟩ :=
    setFwLoop_ok instr iq.count 0 iq (by rw [Nat.zero_add, Fifo.length_toList])
  exact ⟨iq', h1, h2⟩

end R10000
