/-
  How the machine keeps to the schedule of its program: it is never ahead of it, and it meets
  it if the schedule is as fast as the fetches, or as slow as the chain of dependencies.
-/
import Mathlib.Data.List.Sort
import R10000.Pace
import R10000.Results.Dataflow
import R10000.Results.Length

namespace R10000

open Schedule

/-! ## The machine is not ahead of the schedule -/

section
variable {ready : Bool} {P : Program} {uninit : ℕ → ℕ → UInt8}

/-- Instruction `j` is done in the state after `n` cycles, or it was done before. -/
def DoneBy (ready : Bool) (P : Program) (uninit : ℕ → ℕ → UInt8) (n j : ℕ) : Prop :=
  ∃ n' ≤ n, (Machine.runFrom ready P uninit n').exceptionMode = false ∧
    ∃ e ∈ (Machine.runFrom ready P uninit n').activeList, e.isDone = true ∧ e.pc = j

/-- The last writers of what instruction `j` reads were done `d` cycles ago. -/
def SourcesDone (ready : Bool) (P : Program) (uninit : ℕ → ℕ → UInt8) (d n j : ℕ) : Prop :=
  ∀ op, P.ops[j]? = some op → ∀ r ∈ op.sources, ∀ i, lastWriter P.ops j r = some i →
    ∃ n', n' + d ≤ n ∧ DoneBy ready P uninit n' i

theorem SourcesDone.succ {d n j : ℕ} (h : SourcesDone ready P uninit d n j) :
    SourcesDone ready P uninit (d + 1) (n + 1) j := by
  intro op hop r hr i hi
  obtain ⟨n', hn', hdone⟩ := h op hop r hr i hi
  exact ⟨n', by omega, hdone⟩

theorem SourcesDone.later {d n j : ℕ} (h : SourcesDone ready P uninit d n j) :
    SourcesDone ready P uninit d (n + 1) j := by
  intro op hop r hr i hi
  obtain ⟨n', hn', hdone⟩ := h op hop r hr i hi
  exact ⟨n', by omega, hdone⟩

/-- How long ago the sources were done of the instructions in the ALUs and of those done. -/
structure Fed (ready : Bool) (P : Program) (uninit : ℕ → ℕ → UInt8) (n : ℕ) (m : Machine) :
    Prop where
  stage0 : ∀ x ∈ m.stage0, SourcesDone ready P uninit 0 n x.pc
  stage1 : ∀ x ∈ m.stage1, SourcesDone ready P uninit 1 n x.pc
  done : ∀ e ∈ m.activeList, e.isDone = true → SourcesDone ready P uninit 2 n e.pc

variable (hP : P.WellFormed)
include hP

/-- In a run the instructions that are executed had their sources in time. -/
theorem fed_runFrom : ∀ n, RunHandsValid ready P uninit n →
    (Machine.runFrom ready P uninit n).exceptionMode = false →
    Fed ready P uninit n (.runFrom ready P uninit n)
  | 0, _, _ => by
    constructor
    all_goals
      intro e he
      cases he
  | n + 1, hv, hm => by
    have hm0 := mode_before hP hm (Nat.le_succ n)
    have ih := fed_runFrom n (fun j hj => hv j (Nat.lt_succ_of_lt hj)) hm0
    obtain ⟨pre, post, post', new, t, -⟩ := turn_runFrom hP hm
    have hc := correct_runFrom hP (n + 1) hv
    refine ⟨fun x hx => ?_, fun x hx => ?_, fun e he hd => ?_⟩
    · -- what is issued reads committed registers and results that are there
      intro op hop r hr i hi
      have hs := Safe.runFrom hP ready uninit (n + 1)
      have hprog : (Machine.runFrom ready P uninit (n + 1)).program = P := runFrom_program _
      rw [← hprog] at hop hi
      rcases (hc.normal hm).sources_done hs (hc.val hm).2 hx hop hr hi with hlt | hdone
      · have hmem : i ∈ committed ready P uninit (n + 1) := by
          rw [committed_eq hP _ hv, List.mem_range']
          exact ⟨i, hlt, by omega⟩
        obtain ⟨n', hn', h⟩ := done_before hP (n + 1) i (List.mem_append_left _ hmem)
        exact ⟨n', hn'.le, n', le_rfl, h⟩
      · exact ⟨n + 1, le_rfl, n + 1, le_rfl, hm, hdone⟩
    · rw [t.stage1] at hx
      exact (ih.stage0 x hx).succ
    · rcases t.origin he with ⟨e₀, he₀, hpc, hdone⟩ | ⟨hnot, -⟩
      · rcases hdone.1 hd with hd₀ | hstage
        · exact hpc ▸ (ih.done e₀ he₀ hd₀).later
        · obtain ⟨x, hx, hpc⟩ := List.mem_map.1 hstage
          exact hpc ▸ (ih.stage1 x hx).succ
      · rw [hnot] at hd
        cases hd

theorem due_le {n : ℕ} (hv : RunHandsValid ready P uninit n) {j : ℕ}
    (h : DoneBy ready P uninit n j) : P.due j ≤ n := by
  refine earliest_le (fun t j => t ≤ n ∧ DoneBy ready P uninit t j) ?_ ?_ ?_ j n ⟨le_rfl, h⟩
  · rintro t j ⟨-, n', -, hm, e, he, -, rfl⟩
    have hn := (Inv.runFrom hP ready uninit n').normal hm
    obtain ⟨x, hx, -⟩ := hn.window.program_dest e he
    rw [runFrom_program] at hx
    exact ⟨x.op, Program.ops_getElem hx⟩
  · rintro t j ⟨-, n', hn', hm, e, he, hd, rfl⟩
    obtain ⟨n₀, hn₀, hm₀, hlt⟩ := done_fetched hP hm he hd
    have hfour := pc_le_four hP n₀ hm₀
    omega
  · rintro t j op ⟨ht, n', hn', hm, e, he, hd, rfl⟩ hop r hr i hi
    have hv' : RunHandsValid ready P uninit n' := fun j hj => hv j (by omega)
    obtain ⟨n₀, hn₀, hdone⟩ := (fed_runFrom hP n' hv' hm).done e he hd op hop r hr i hi
    exact ⟨n₀, by omega, by omega, hdone⟩

end

/-- **No instruction is ahead of the schedule**: one that is committed, or raises its exception,
    was due before, in a run that hands valid bytes to `free_list_pop`. -/
theorem not_ahead {P : Program} (hP : P.WellFormed) (ready : Bool) (uninit : ℕ → ℕ → UInt8)
    (n : ℕ) (hv : RunHandsValid ready P uninit n) :
    ∀ j ∈ committed ready P uninit n ++ raised ready P uninit n, P.due j < n := by
  intro j hj
  obtain ⟨n', hn', hm, hdone⟩ := done_before hP n j hj
  exact (due_le hP (fun i hi => hv i (by omega)) ⟨n', le_rfl, hm, hdone⟩).trans_lt hn'

theorem not_ahead_small : smallProgram.due 2 < 10 :=
  not_ahead smallProgram_wellFormed false (fun _ _ => 0) 10 (runHandsValid_zero _ _ _) 2
    (by decide +kernel)

/-! ## At the speed of the fetches -/

/-- The machine is `n` cycles on its way, and no stage has waited: four more instructions have
    come through each of them in each cycle. -/
structure OnTime (P : Program) (n : ℕ) (m : Machine) : Prop where
  pc : m.pc = P.fetched n
  dir : m.dir.length + P.fetched (n - 1) = P.fetched n
  stage0 : ∀ e ∈ m.activeList, e.pc < P.fetched (n - 2) →
    e.isDone = true ∨ e.pc ∈ m.stage1.map (·.pc) ∨ e.pc ∈ m.stage0.map (·.pc)
  stage1 : ∀ e ∈ m.activeList, e.pc < P.fetched (n - 3) →
    e.isDone = true ∨ e.pc ∈ m.stage1.map (·.pc)
  done : ∀ e ∈ m.activeList, e.pc < P.fetched (n - 4) → e.isDone = true

section
variable {P : Program} {uninit : ℕ → ℕ → UInt8} (hP : P.WellFormed) (hshort : P.Short)
  (hu : Benign uninit) (hno : ∀ k, ¬ P.FaultsAt k)
include hP hshort hu hno

theorem retires_of_no_fault {n : ℕ} {e : ActiveListEntry}
    (he : e ∈ (Machine.runFrom false P uninit n).activeList) (hd : e.isDone = true) :
    retires e = true := by
  have hm := mode_of_no_fault hP hu hshort hno n
  have hc := correct_runFrom hP n (hu.runHandsValid false P n)
  obtain ⟨x, hx, -⟩ := (hc.normal hm).window.program_dest e he
  have hprod := (hc.val hm).1.done e he hd
  rw [runFrom_program] at hx hprod
  refine retires_iff.2 ⟨hd, ?_⟩
  by_contra hexc
  rw [Bool.not_eq_false] at hexc
  rw [hexc, if_pos rfl] at hprod
  exact Program.produced_of_no_fault hP hno (List.getElem?_eq_some_iff.1 hx).1 hprod

omit hshort hu hno in
theorem pc_le_fetched {n : ℕ} (hm : (Machine.runFrom false P uninit n).exceptionMode = false) :
    (Machine.runFrom false P uninit n).pc ≤ P.fetched n :=
  le_min (pc_le_four hP n hm) (pc_le hP n hm)

theorem OnTime.pcs {n : ℕ} (h : OnTime P n (.runFrom false P uninit n))
    (hlen : (committed false P uninit n).length = P.fetched (n - 5)) :
    (Machine.runFrom false P uninit n).activeList.map (·.pc) =
        List.range' (P.fetched (n - 5)) (P.fetched (n - 1) - P.fetched (n - 5)) ∧
      (Machine.runFrom false P uninit n).dir.map (·.pc) =
        List.range' (P.fetched (n - 1)) (P.fetched n - P.fetched (n - 1)) := by
  have hm := mode_of_no_fault hP hu hshort hno n
  have hi := ((correct_runFrom hP n (hu.runHandsValid false P n)).val hm).2
  have hplaces := places_runFrom hP hu hm
  have hpc := h.pc
  have hdir := h.dir
  have hmono : P.fetched (n - 5) ≤ P.fetched (n - 1) := Program.fetched_mono (by omega)
  have hsplit := hi.pcs
  rw [hlen] at hsplit hplaces
  rw [Machine.pcs, List.length_append, List.length_map, List.length_map, ← List.range'_append_1,
    show (Machine.runFrom false P uninit n).activeList.length =
      P.fetched (n - 1) - P.fetched (n - 5) by omega,
    show (Machine.runFrom false P uninit n).dir.length =
      P.fetched n - P.fetched (n - 1) by omega,
    show P.fetched (n - 5) + (P.fetched (n - 1) - P.fetched (n - 5)) = P.fetched (n - 1) by omega]
    at hsplit
  refine List.append_inj hsplit ?_
  rw [List.length_map, List.length_range']
  omega

theorem OnTime.commits {n : ℕ} (h : OnTime P n (.runFrom false P uninit n))
    (hlen : (committed false P uninit n).length = P.fetched (n - 5)) :
    (committed false P uninit (n + 1)).length = P.fetched (n - 4) := by
  have hm := mode_of_no_fault hP hu hshort hno n
  obtain ⟨pre, post, post', new, t, -⟩ :=
    turn_runFrom hP (mode_of_no_fault hP hu hshort hno (n + 1))
  have hpcs := (h.pcs hP hshort hu hno hlen).1
  have hmono : P.fetched (n - 5) ≤ P.fetched (n - 4) := Program.fetched_mono (by omega)
  have hmono' : P.fetched (n - 4) ≤ P.fetched (n - 1) := Program.fetched_mono (by omega)
  have hfour : P.fetched (n - 4) ≤ P.fetched (n - 5) + 4 := Program.fetched_succ_le (n - 4)
  have hget : ∀ i e, (Machine.runFrom false P uninit n).activeList[i]? = some e →
      e.pc = P.fetched (n - 5) + i := by
    intro i e he
    have hi := congrArg (·[i]?) hpcs
    obtain ⟨hlt, -⟩ := List.getElem?_eq_some_iff.1 he
    have hlength := congrArg List.length hpcs
    rw [List.length_map, List.length_range'] at hlength
    simp only [List.getElem?_map, he, Option.map_some] at hi
    rw [List.getElem?_range' (by omega), Option.some.injEq] at hi
    omega
  rw [t.before] at hget
  have hpost : post.head? = (pre ++ post)[pre.length]? := by
    rw [List.getElem?_append_right le_rfl, Nat.sub_self, List.head?_eq_getElem?]
  have hmin : min 4 pre.length = P.fetched (n - 4) - P.fetched (n - 5) := by
    by_contra hne
    rcases Nat.lt_or_gt_of_ne hne with hlt | hgt
    · -- the oldest entry that is not settled would be done in time
      have hlength := congrArg List.length hpcs
      rw [List.length_map, List.length_range', t.before, List.length_append] at hlength
      obtain ⟨e, he⟩ : ∃ e, post.head? = some e := by
        rw [← Option.ne_none_iff_exists', Ne, List.head?_eq_none_iff]
        rintro rfl
        rw [List.length_nil] at hlength
        omega
      have hpc := hget pre.length e (hpost ▸ he)
      have hmem : e ∈ (Machine.runFrom false P uninit n).activeList := by
        rw [t.before]
        exact List.mem_append_right _ (List.mem_of_mem_head? he)
      have hret := retires_of_no_fault hP hshort hu hno hmem (h.done e hmem (by omega))
      rw [not_retires_unsettled (t.head ▸ he)] at hret
      cases hret
    · -- a settled entry would be done too early
      have hlt : P.fetched (n - 4) - P.fetched (n - 5) < pre.length := by omega
      have he := List.getElem?_eq_getElem hlt
      have hpc := hget _ _ ((List.getElem?_append_left hlt).trans he)
      have hmem : pre[P.fetched (n - 4) - P.fetched (n - 5)] ∈
          (Machine.runFrom false P uninit n).activeList := by
        rw [t.before]
        exact List.mem_append_left _ (List.getElem_mem hlt)
      have hd := (retires_iff.1 (t.settled _ (List.getElem_mem hlt))).1
      have hearly := (staged_runFrom hP n hm).done _ hmem hd
      have hle := pc_le_fetched hP (mode_before hP hm (Nat.sub_le n 4))
      omega
  rw [length_committed_succ hP n, hlen, t.commits, hmin]
  omega

theorem OnTime.front {n : ℕ} (h : OnTime P n (.runFrom false P uninit n))
    (hlen : (committed false P uninit n).length = P.fetched (n - 5)) :
    (Machine.runFrom false P uninit (n + 1)).pc = P.fetched (n + 1) ∧
      (Machine.runFrom false P uninit (n + 1)).dir.length + P.fetched n = P.fetched (n + 1) := by
  have hm := mode_of_no_fault hP hu hshort hno n
  have hm' := mode_of_no_fault hP hu hshort hno (n + 1)
  obtain ⟨pre, post, post', new, t, hst, -⟩ := turn_runFrom hP hm'
  have hlength := congrArg List.length (h.pcs hP hshort hu hno hlen).1
  rw [List.length_map, List.length_range'] at hlength
  have hpc := h.pc
  have hfree : (Machine.runFrom false P uninit n).backEnd.stalled = false := by
    rw [← Bool.not_eq_true, hst]
    unfold Program.fetched at hlength
    omega
  have hfetch := ((Inv.runFrom hP false uninit n).normal hm).cycle_fetches (mode_atCommit hm')
    (benign_dispatches false hP hu n)
  rw [hfree, if_neg Bool.false_ne_true, runFrom_program, hpc] at hfetch
  rw [Machine.runFrom, hfetch.1, hfetch.2, List.length_take, List.length_drop]
  unfold Program.fetched Program.count
  omega

theorem OnTime.executed {n : ℕ} (h : OnTime P n (.runFrom false P uninit n))
    (hlen : (committed false P uninit n).length = P.fetched (n - 5)) :
    (∀ e ∈ (Machine.runFrom false P uninit (n + 1)).activeList, e.pc < P.fetched (n - 3) →
      e.isDone = true) ∧
    ∀ e ∈ (Machine.runFrom false P uninit (n + 1)).activeList, e.pc < P.fetched (n - 2) →
      e.isDone = true ∨
        e.pc ∈ (Machine.runFrom false P uninit (n + 1)).stage1.map (·.pc) := by
  obtain ⟨pre, post, post', new, t, -⟩ :=
    turn_runFrom hP (mode_of_no_fault hP hu hshort hno (n + 1))
  have hdir := (h.pcs hP hshort hu hno hlen).2
  have hmono : P.fetched (n - 2) ≤ P.fetched (n - 1) := Program.fetched_mono (by omega)
  have hmono' : P.fetched (n - 3) ≤ P.fetched (n - 2) := Program.fetched_mono (by omega)
  have hold : ∀ e ∈ (Machine.runFrom false P uninit (n + 1)).activeList,
      e.pc < P.fetched (n - 2) → ∃ e₀ ∈ (Machine.runFrom false P uninit n).activeList,
        e₀.pc = e.pc ∧ (e.isDone = true ↔ e₀.isDone = true ∨
          e.pc ∈ (Machine.runFrom false P uninit n).stage1.map (·.pc)) := by
    intro e he hlt
    refine (t.origin he).resolve_right ?_
    rintro ⟨-, hnew⟩
    rw [hdir, List.mem_range'_1] at hnew
    omega
  constructor
  · intro e he hlt
    obtain ⟨e₀, he₀, hpc, hdone⟩ := hold e he (by omega)
    rw [hdone, ← hpc]
    exact h.stage1 e₀ he₀ (hpc ▸ hlt)
  · intro e he hlt
    obtain ⟨e₀, he₀, hpc, hdone⟩ := hold e he hlt
    rw [hdone, t.stage1, ← hpc, or_assoc]
    exact h.stage0 e₀ he₀ (hpc ▸ hlt)

/-- Each group of four waits in the queue for one cycle. -/
theorem OnTime.queue {n : ℕ} (h : OnTime P n (.runFrom false P uninit n))
    (hlen : (committed false P uninit n).length = P.fetched (n - 5)) :
    (Machine.runFrom false P uninit n).iq.map (·.instr.pc) =
      List.range' (P.fetched (n - 2)) (P.fetched (n - 1) - P.fetched (n - 2)) := by
  have hm := mode_of_no_fault hP hu hshort hno n
  have hn := (Inv.runFrom hP false uninit n).normal hm
  have hpcs := (h.pcs hP hshort hu hno hlen).1
  have hstaged := staged_runFrom hP n hm
  have hbefore : ∀ i, (Machine.runFrom false P uninit (n - i)).pc ≤ P.fetched (n - i) :=
    fun i => pc_le_fetched hP (mode_before hP hm (Nat.sub_le n i))
  have hmono : ∀ {a b : ℕ}, a ≤ b → P.fetched (n - b) ≤ P.fetched (n - a) :=
    fun hab => Program.fetched_mono (by omega)
  refine hn.iq_order.eq_of_mem_iff List.pairwise_lt_range' fun j => ?_
  rw [List.mem_range'_1]
  constructor
  · intro hj
    obtain ⟨en, hen, rfl⟩ := List.mem_map.1 hj
    obtain ⟨e, he, hd, hpc, -⟩ := hn.entry (mem_flight.2 (.inl ⟨en, hen, rfl⟩))
    have hmem : e.pc ∈ (Machine.runFrom false P uninit n).activeList.map (·.pc) :=
      List.mem_map_of_mem he
    rw [hpcs, List.mem_range'_1] at hmem
    have hlow : P.fetched (n - 2) ≤ e.pc := by
      by_contra hlt
      -- it would be in an ALU as well as in the queue
      have hnodup := (hn.distinct (.runFrom hP false uninit n)).1
      rw [Machine.flight, List.map_append, List.map_map, List.map_append] at hnodup
      have hdisj := List.disjoint_of_nodup_append hnodup
      have hq : e.pc ∈ (Machine.runFrom false P uninit n).iq.map
          (Instruction.pc ∘ IqEntry.instr) := by
        rw [hpc]
        exact List.mem_map_of_mem hen
      rcases h.stage0 e he (by omega) with hdone | hst | hst
      · rw [hd] at hdone
        cases hdone
      · exact hdisj hq (List.mem_append_right _ hst)
      · exact hdisj hq (List.mem_append_left _ hst)
    have hle := hmono (show 1 ≤ 2 by decide)
    have hle' := hmono (show 1 ≤ 5 by decide)
    omega
  · rintro ⟨hlow, hhigh⟩
    have hle := hmono (show 2 ≤ 5 by decide)
    have hmem : j ∈ (Machine.runFrom false P uninit n).activeList.map (·.pc) := by
      rw [hpcs, List.mem_range'_1]
      have hle' := hmono (show 1 ≤ 2 by decide)
      omega
    obtain ⟨e, he, rfl⟩ := List.mem_map.1 hmem
    have hd : e.isDone = false := by
      rw [← Bool.not_eq_true]
      intro hd
      have hlt := hstaged.done e he hd
      have h4 := hbefore 4
      have hle4 := hmono (show 2 ≤ 4 by decide)
      omega
    have htag : e.tag ∈ ((Machine.runFrom false P uninit n).flight
        (Machine.runFrom false P uninit n).stage1).map Instruction.tag := by
      refine hn.flight.symm.subset (List.mem_map_of_mem (List.mem_filter.2 ⟨he, ?_⟩))
      rw [hd]
      rfl
    obtain ⟨x, hx, hxe⟩ := List.mem_map.1 htag
    have hpc : x.pc = e.pc := congrArg Prod.fst hxe
    rcases mem_flight.1 hx with ⟨en, hen, rfl⟩ | hx | hx
    · rw [← hpc]
      exact List.mem_map_of_mem hen
    · have hlt := hstaged.stage0 x hx
      have h2 := hbefore 2
      omega
    · have hlt := hstaged.stage1 x hx
      have h3 := hbefore 3
      have hle3 := hmono (show 2 ≤ 3 by decide)
      omega

/-- **Everything in the queue is issued.** -/
theorem OnTime.issued (hfetch : P.FetchBound) {n : ℕ}
    (h : OnTime P n (.runFrom false P uninit n))
    (hlen : (committed false P uninit n).length = P.fetched (n - 5)) :
    (Machine.runFrom false P uninit (n + 1)).stage0.map (·.pc) =
      (Machine.runFrom false P uninit n).iq.map (·.instr.pc) := by
  have hm := mode_of_no_fault hP hu hshort hno n
  have hm' := mode_of_no_fault hP hu hshort hno (n + 1)
  have hn := (Inv.runFrom hP false uninit n).normal hm
  have hqueue := h.queue hP hshort hu hno hlen
  obtain ⟨p, hp, hv⟩ := runFrom_ok hP false uninit n
  obtain ⟨p', hp', hv'⟩ := runFrom_ok hP false uninit (n + 1)
  have hissue := view_atIssue (safe_runFrom hP hp)
  rw [hv] at hissue
  have hiq : (atIssue p).iq.toList = (Machine.runFrom false P uninit n).iq := by
    change (view (atIssue p)).iq = _
    rw [hissue, hn.iq_atIssue (mode_atCommit hm')]
  have hactive : ∀ e ∈ (atIssue p).activeList.toList,
      e ∈ (Machine.runFrom false P uninit (n + 1)).activeList := by
    intro e he
    obtain ⟨new, hnew, -⟩ :=
      dispatchStage_activeList (uninit n) (Machine.runFrom false P uninit n).backEnd
    change e ∈ (view (atIssue p)).activeList at he
    rw [hissue] at he
    rw [Machine.runFrom, (cycle_activeList (uninit n) _).1, hnew]
    exact List.mem_append_left _ he
  have hsource : ∀ x ∈ (atIssue p).iq.toList.map (·.instr), sourcesDone (atIssue p) x = true := by
    intro x hx
    rw [hiq] at hx
    obtain ⟨en, hen, rfl⟩ := List.mem_map.1 hx
    obtain ⟨y, hy, hfrom⟩ := (hn.tracked _ (mem_flight.2 (.inl ⟨en, hen, rfl⟩))).origin
    rw [runFrom_program] at hy
    have hpc : en.instr.pc ∈ (Machine.runFrom false P uninit n).iq.map (·.instr.pc) :=
      List.mem_map_of_mem hen
    rw [hqueue, List.mem_range'_1] at hpc
    have hoperand : ∀ o : Operand, (o.type = .reg → o.logId ∈ y.op.sources) →
        sourceDone (atIssue p) en.instr.pc o = true := by
      intro o ho
      cases ht : o.type with
      | imm =>
        rw [sourceDone, ht]
        rfl
      | reg =>
        rw [sourceDone, ht]
        change (producer (atIssue p) en.instr.pc o.logId).all retires = true
        cases hprod : producer (atIssue p) en.instr.pc o.logId with
        | none => rfl
        | some e =>
          obtain ⟨hmem, hlt⟩ := List.mem_filter.1 (List.mem_of_mem_getLast? hprod)
          have hlt := of_decide_eq_true hlt
          have he := hactive e hmem
          obtain ⟨z, hz, hdest⟩ :=
            ((Inv.runFrom hP false uninit (n + 1)).normal hm').window.program_dest e he
          rw [runFrom_program] at hz
          have hgap := hfetch.source hz hy hlt.1 (by rw [← hdest, hlt.2]; exact ho ht)
          have hcount := (List.getElem?_eq_some_iff.1 hz).1
          have hearly : e.pc < P.fetched (n - 3) := by
            unfold Program.fetched Program.count at hpc ⊢
            omega
          exact retires_of_no_fault hP hshort hu hno he
            ((h.executed hP hshort hu hno hlen).1 e he hearly)
    rw [sourcesDone, Bool.and_eq_true]
    constructor
    · refine hoperand _ fun ht => ?_
      rw [hfrom.opA.logId_eq (hfrom.opA.type_eq ▸ ht)]
      exact List.mem_cons_self
    · refine hoperand _ fun ht => ?_
      have hreg := hfrom.opB.type_eq.symm.trans ht
      rw [hfrom.opB.logId_eq hreg, Instruction.op, if_pos hreg]
      exact List.mem_cons_of_mem _ List.mem_cons_self
  have hstage := stage0_succ hP hshort hp hp'
  rw [List.filter_eq_self.2 hsource, hiq, List.take_of_length_le, List.map_map] at hstage
  · rw [← hv']
    exact hstage
  · have hlength := congrArg List.length hqueue
    have hfour : P.fetched (n - 1) ≤ P.fetched (n - 2) + 4 := Program.fetched_succ_le (n - 1)
    rw [List.length_map, List.length_range'] at hlength
    rw [List.length_map]
    omega

/-- No stage of a run ever waits. -/
theorem onTime_runFrom (hfetch : P.FetchBound) : ∀ n,
    OnTime P n (.runFrom false P uninit n) ∧
      (committed false P uninit n).length = P.fetched (n - 5)
  | 0 => by
    refine ⟨⟨?_, ?_, ?_, ?_, ?_⟩, ?_⟩
    · exact (Nat.zero_min _).symm
    · exact Nat.zero_add _
    · exact fun e he => by cases he
    · exact fun e he => by cases he
    · exact fun e he => by cases he
    · exact (Nat.zero_min _).symm
  | n + 1 => by
    obtain ⟨h, hlen⟩ := onTime_runFrom hfetch n
    obtain ⟨hpc, hdir⟩ := h.front hP hshort hu hno hlen
    obtain ⟨hdone, hstage1⟩ := h.executed hP hshort hu hno hlen
    have hissued := h.issued hP hshort hu hno hfetch hlen
    rw [h.queue hP hshort hu hno hlen] at hissued
    refine ⟨⟨hpc, hdir, fun e he hlt => ?_, fun e he hlt => ?_, fun e he hlt => ?_⟩, ?_⟩
    · have hlt : e.pc < P.fetched (n - 1) := hlt
      by_cases hold : e.pc < P.fetched (n - 2)
      · rcases hstage1 e he hold with hd | hst
        · exact .inl hd
        · exact .inr (.inl hst)
      · right
        right
        rw [hissued, List.mem_range'_1]
        omega
    · exact hstage1 e he hlt
    · exact hdone e he hlt
    · exact h.commits hP hshort hu hno hlen

end

/-- The processor after `n` cycles in each of which every stage has passed on four instructions,
    as long as there were any. -/
structure FullSpeed (P : Program) (n : ℕ) (p : Processor) : Prop where
  pc : p.pc = P.fetched n
  dir : p.dir.toList.map (·.pc) = P.between (n - 1) n
  iq : p.iq.toList.map (·.instr.pc) = P.between (n - 2) (n - 1)
  stage0 : (inStage Alu.stage0 p.alus).map (·.pc) = P.between (n - 3) (n - 2)
  stage1 : (inStage Alu.stage1 p.alus).map (·.pc) = P.between (n - 4) (n - 3)
  activeList : p.activeList.toList.map (·.pc) = P.between (n - 5) (n - 1)
  done : ∀ e ∈ p.activeList.toList, e.isDone = true ↔ e.pc < P.fetched (n - 4)

/-- **At full speed**: if no instruction is due later than its fetch asks for, the processor is a
    pipeline of five stages that takes in four instructions in each cycle and never waits. -/
theorem runs_at_full_speed {P : Program} (hP : P.WellFormed) (hshort : P.Short)
    {uninit : ℕ → ℕ → UInt8} (hu : Benign uninit) (hno : ∀ k, ¬ P.FaultsAt k)
    (hfetch : P.FetchBound) (n : ℕ) : ∃ p, run P uninit n = some p ∧ FullSpeed P n p ∧
      committed false P uninit n = List.range (P.fetched (n - 5)) := by
  obtain ⟨p, hp, hv⟩ := runFrom_ok hP false uninit n
  obtain ⟨h, hlen⟩ := onTime_runFrom hP hshort hu hno hfetch n
  have hm := mode_of_no_fault hP hu hshort hno n
  have hstaged := staged_runFrom hP n hm
  obtain ⟨hactive, hdir⟩ := h.pcs hP hshort hu hno hlen
  have hqueue := h.queue hP hshort hu hno hlen
  have hstage0 : ∀ n, (Machine.runFrom false P uninit n).stage0.map (·.pc) =
      P.between (n - 3) (n - 2) := by
    intro n
    cases n with
    | zero => exact (congrArg (List.range' _) (Nat.sub_self _)).symm
    | succ n =>
      obtain ⟨h, hlen⟩ := onTime_runFrom hP hshort hu hno hfetch n
      rw [h.issued hP hshort hu hno hfetch hlen, h.queue hP hshort hu hno hlen]
      rfl
  have hstage1 : (Machine.runFrom false P uninit n).stage1.map (·.pc) =
      P.between (n - 4) (n - 3) := by
    cases n with
    | zero => exact (congrArg (List.range' _) (Nat.sub_self _)).symm
    | succ n =>
      obtain ⟨pre, post, post', new, t, -⟩ := turn_runFrom hP hm
      rw [t.stage1, hstage0]
      rfl
  have hstage0 := hstage0 n
  have hdone : ∀ e ∈ (Machine.runFrom false P uninit n).activeList,
      e.isDone = true ↔ e.pc < P.fetched (n - 4) := by
    refine fun e he => ⟨fun hd => ?_, h.done e he⟩
    exact (hstaged.done e he hd).trans_le
      (pc_le_fetched hP (mode_before hP hm (Nat.sub_le n 4)))
  have hpc := h.pc
  rw [← hv] at hpc hdir hqueue hstage0 hstage1 hactive hdone
  refine ⟨p, hp, ⟨hpc, hdir, hqueue, hstage0, hstage1, hactive, hdone⟩, ?_⟩
  rw [committed_eq hP n (hu.runHandsValid false P n), hlen, List.range_eq_range']

/-- Five instructions that do not wait for each other. -/
def wideProgram : Program :=
  .ofList [(.addi, 1, 0, immOperand 1), (.addi, 2, 0, immOperand 2),
    (.addi, 3, 0, immOperand 3), (.addi, 4, 0, immOperand 4),
    (.addi, 5, 0, immOperand 5)] (by decide)

theorem wideProgram_no_fault : ∀ k, ¬ wideProgram.FaultsAt k := Program.no_fault (by decide)

theorem wideProgram_fetchBound : wideProgram.FetchBound := by
  unfold Program.FetchBound
  decide

theorem runs_at_full_speed_wide : ∃ p, run wideProgram (fun _ _ => 0) 6 = some p ∧
    FullSpeed wideProgram 6 p ∧
    committed false wideProgram (fun _ _ => 0) 6 = List.range (wideProgram.fetched (6 - 5)) :=
  runs_at_full_speed (by decide) (by decide) benign_zero wideProgram_no_fault
    wideProgram_fetchBound 6

/-! ## At the speed of a chain -/

/-- **One by one**: if each instruction reads what the one before it writes, exactly one is
    committed in every other cycle. -/
theorem runs_as_chain {P : Program} (hP : P.WellFormed) (hshort : P.Short)
    {uninit : ℕ → ℕ → UInt8} (hu : Benign uninit) (hno : ∀ k, ¬ P.FaultsAt k)
    (hchain : P.Chained) (n : ℕ) :
    committed false P uninit n = List.range (min ((n - 4) / 2) P.count) := by
  have hv := hu.runHandsValid false P n
  have hm := mode_of_no_fault hP hu hshort hno n
  have heq := committed_eq hP n hv
  have hall : (committed false P uninit n).length ≤ P.count := by
    have hpc := pc_le hP n hm
    have hplaces := places_runFrom hP hu hm
    omega
  have hlen : (committed false P uninit n).length = min ((n - 4) / 2) P.count := by
    refine le_antisymm (le_min ?_ hall) ?_
    · -- the last one is not ahead of the schedule
      by_contra hlt
      have hmem : (committed false P uninit n).length - 1 ∈ committed false P uninit n := by
        rw [heq, List.mem_range'_1, List.length_range']
        omega
      obtain ⟨n', hn', hm', hdone⟩ := done_before hP n _ (List.mem_append_left _ hmem)
      have hle := due_le hP (hu.runHandsValid false P n') ⟨n', le_rfl, hm', hdone⟩
      have hdue := hchain.due (show (committed false P uninit n).length - 1 < P.count by omega)
      omega
    · -- and every one comes after two cycles
      by_contra hlt
      obtain ⟨t, rfl⟩ : ∃ t, n = 1 + t := ⟨n - 1, by omega⟩
      have hlate := committed_late (i := (committed false P uninit (1 + t)).length) hP hu hm
        (by omega) (by omega)
      exact lt_irrefl _ hlate
  rw [heq, hlen, List.range_eq_range']

/-- Three instructions that count in `x1`. -/
def chainProgram : Program :=
  .ofList [(.addi, 1, 1, immOperand 1), (.addi, 1, 1, immOperand 1),
    (.addi, 1, 1, immOperand 1)] (by decide)

theorem chainProgram_no_fault : ∀ k, ¬ chainProgram.FaultsAt k := Program.no_fault (by decide)

theorem chainProgram_chained : chainProgram.Chained := by
  intro j x y hx hy
  have hj : j < 2 := by
    have hlt := (List.getElem?_eq_some_iff.1 hy).1
    exact Nat.lt_of_succ_lt_succ hlt
  obtain rfl | rfl : j = 0 ∨ j = 1 := by omega
  · cases hx
    cases hy
    decide
  · cases hx
    cases hy
    decide

theorem runs_as_chain_three : committed false chainProgram (fun _ _ => 0) 9 =
    List.range (min ((9 - 4) / 2) chainProgram.count) :=
  runs_as_chain (by decide) (by decide) benign_zero chainProgram_no_fault chainProgram_chained 9

/-! ## The length of a simulation -/

/-- **A simulation is as long as its schedule at least**, and exactly so if the schedule is that
    of the fetches or that of a chain. -/
theorem simulation_paced {P : Program} (hP : P.WellFormed) (hshort : P.Short)
    {uninit : ℕ → ℕ → UInt8} (hu : Benign uninit) (hno : ∀ k, ¬ P.FaultsAt k)
    (hpos : 0 < P.count) : ∃ p₀ states p, initProcessor P false = .ok p₀ ∧
      runSimulation uninit (2 * P.count + 14) p₀ = some (states, p) ∧
      (∀ j < P.count, P.due j + 2 ≤ states.length) ∧
      (P.FetchBound → states.length = (P.count + 3) / 4 + 6) ∧
      (P.Chained → states.length = 2 * P.count + 5) := by
  obtain ⟨p₀, states, p, hinit, hle, hsim, hfin, hmin⟩ :=
    simulation_of_finished hP (finished_of_committed hP hu hshort hno)
  have hdue : ∀ j < P.count, P.due j + 2 ≤ states.length := by
    intro j hj
    obtain ⟨n, hn⟩ : ∃ n, states.length = n + 1 := by
      refine Nat.exists_eq_succ_of_ne_zero fun h0 => ?_
      rw [h0] at hfin
      cases hfin
    rw [hn] at hfin hmin ⊢
    have hall := committed_of_finished hP hu hshort hno (hmin n (Nat.lt_succ_self n)) hfin
    have hmem : j ∈ committed false P uninit n := by
      rw [hall, List.mem_range]
      exact hj
    obtain ⟨n', hn', hm, hdone⟩ := done_before hP n j (List.mem_append_left _ hmem)
    have hlate := due_le hP (hu.runHandsValid false P n') ⟨n', le_rfl, hm, hdone⟩
    omega
  have hlast := hdue (P.count - 1) (by omega)
  refine ⟨p₀, states, p, hinit, hsim _ (by omega), hdue, fun hfetch => ?_, fun hchain => ?_⟩
  · rw [hfetch (P.count - 1) (by omega)] at hlast
    have hall := (onTime_runFrom hP hshort hu hno hfetch ((P.count + 3) / 4 + 4 + 1)).2
    have hfin' := finished_of_all hP hu hshort hno (n := (P.count + 3) / 4 + 4) (by
      rw [hall, Program.fetched]
      omega)
    have hshorter : states.length ≤ (P.count + 3) / 4 + 6 := by
      by_contra hlt
      rw [hmin _ (by omega)] at hfin'
      cases hfin'
    omega
  · have hslow := hchain.due (show P.count - 1 < P.count by omega)
    omega

/-- Eight states for five instructions that do not wait, eleven for a chain of three. -/
theorem simulation_paced_both :
    (∃ p₀ states p, initProcessor wideProgram false = .ok p₀ ∧
      runSimulation (fun _ _ => 0) 24 p₀ = some (states, p) ∧ states.length = 8) ∧
    ∃ p₀ states p, initProcessor chainProgram false = .ok p₀ ∧
      runSimulation (fun _ _ => 0) 20 p₀ = some (states, p) ∧ states.length = 11 := by
  obtain ⟨p₀, states, p, hinit, hsim, -, hwide, -⟩ :=
    simulation_paced (P := wideProgram) (by decide) (by decide) benign_zero wideProgram_no_fault
      (by decide)
  obtain ⟨p₀', states', p', hinit', hsim', -, -, hchain⟩ :=
    simulation_paced (P := chainProgram) (by decide) (by decide) benign_zero
      chainProgram_no_fault (by decide)
  exact ⟨⟨p₀, states, p, hinit, hsim, hwide wideProgram_fetchBound⟩,
    p₀', states', p', hinit', hsim', hchain chainProgram_chained⟩

end R10000
