/-
  How long the instructions in the Active List take.

  An entry is settled if it is done without exception; `settled` counts the settled entries
  at the head of the Active List and `lag` tells how far the oldest entry after them has come.
  All that its operands wait for is settled, so that it never waits in the queue: the
  instruction that it depends on is written back in the cycle that issues it.
-/
import Mathlib.Data.List.Forall2
import Mathlib.Data.List.TakeWhile
import R10000.Operands
import R10000.Results.Commit
import R10000.Termination

namespace R10000

namespace Machine

/-- The settled entries at the head of the Active List. -/
def settled (m : Machine) : ℕ := (m.activeList.takeWhile retires).length

/-- The oldest entry that is not settled. -/
def unsettled (m : Machine) : Option ActiveListEntry := m.activeList.find? fun e => !retires e

/-- How far the oldest entry that is not settled has come: it is an exception, in the last ALU
    stage, in the first one, in the queue, or not in the Active List yet. -/
def lag (m : Machine) : ℕ :=
  match m.unsettled with
  | none => 5
  | some e =>
    if e.isDone then 1
    else if e.pc ∈ m.stage1.map (·.pc) then 2
    else if e.pc ∈ m.stage0.map (·.pc) then 3
    else 4

end Machine

section
variable {m : Machine} {todo : List Instruction}

theorem retires_iff {e : ActiveListEntry} :
    retires e = true ↔ e.isDone = true ∧ e.isException = false := by
  simp [retires]

/-- The Active List, up to its oldest entry that is not settled. -/
theorem settled_split (m : Machine) : ∃ pre post, m.activeList = pre ++ post ∧
    pre.length = m.settled ∧ (∀ e ∈ pre, retires e = true) ∧ post.head? = m.unsettled := by
  refine ⟨m.activeList.takeWhile retires, m.activeList.dropWhile retires,
    List.takeWhile_append_dropWhile.symm, rfl, fun e he => ?_, ?_⟩
  · exact List.mem_takeWhile_imp he
  · rw [Machine.unsettled]
    induction m.activeList with
    | nil => rfl
    | cons e l ih =>
      rw [List.dropWhile_cons, List.find?_cons]
      cases hr : retires e with
      | true => simpa using ih
      | false => rfl

theorem unsettled_append {pre post : List ActiveListEntry} (hl : m.activeList = pre ++ post)
    (hpre : ∀ e ∈ pre, retires e = true) :
    m.unsettled = post.find? (fun e => !retires e) ∧
      m.settled = pre.length + (post.takeWhile retires).length := by
  rw [Machine.unsettled, Machine.settled, hl, List.find?_append, List.takeWhile_append_of_pos hpre,
    List.length_append]
  refine ⟨?_, rfl⟩
  rw [List.find?_eq_none.2 fun e he => by rw [hpre e he]; decide]
  rfl

theorem lag_cases (m : Machine) : (m.unsettled = none ∧ m.lag = 5) ∨
    ∃ e, m.unsettled = some e ∧ (e.isDone = true ∧ m.lag = 1 ∨
      e.isDone = false ∧ e.pc ∈ m.stage1.map (·.pc) ∧ m.lag = 2 ∨
      e.isDone = false ∧ e.pc ∉ m.stage1.map (·.pc) ∧ e.pc ∈ m.stage0.map (·.pc) ∧ m.lag = 3 ∨
      e.isDone = false ∧ e.pc ∉ m.stage1.map (·.pc) ∧ e.pc ∉ m.stage0.map (·.pc) ∧
        m.lag = 4) := by
  unfold Machine.lag
  cases m.unsettled with
  | none => exact .inl ⟨rfl, rfl⟩
  | some e =>
    refine .inr ⟨e, rfl, ?_⟩
    simp only
    split_ifs with h1 h2 h3
    · exact .inl ⟨h1, rfl⟩
    · exact .inr (.inl ⟨by simpa using h1, h2, rfl⟩)
    · exact .inr (.inr (.inl ⟨by simpa using h1, h2, h3, rfl⟩))
    · exact .inr (.inr (.inr ⟨by simpa using h1, h2, h3, rfl⟩))

theorem lag_bounds (m : Machine) : 1 ≤ m.lag ∧ m.lag ≤ 5 := by
  rcases lag_cases m with ⟨-, h⟩ | ⟨e, -, ⟨-, h⟩ | ⟨-, -, h⟩ | ⟨-, -, -, h⟩ | ⟨-, -, -, h⟩⟩
  all_goals
    rw [h]
    decide

theorem settled_of_lag (h : m.lag = 5) : m.settled = m.activeList.length := by
  obtain ⟨pre, post, hl, hlen, -, hhead⟩ := settled_split m
  rcases lag_cases m with ⟨hnone, -⟩ | ⟨e, -, ⟨-, h'⟩ | ⟨-, -, h'⟩ | ⟨-, -, -, h'⟩ | ⟨-, -, -, h'⟩⟩
  · rw [hnone, List.head?_eq_none_iff] at hhead
    rw [hl, hhead, List.append_nil, hlen]
  all_goals
    rw [h] at h'
    cases h'

/-- An entry that is not settled bounds the lag by the place of its instruction. -/
theorem lag_le {e : ActiveListEntry} (he : m.unsettled = some e) :
    m.lag ≤ 4 ∧ (e.isDone = true → m.lag = 1) ∧ (e.pc ∈ m.stage0.map (·.pc) → m.lag ≤ 3) ∧
      (e.pc ∈ m.stage1.map (·.pc) → m.lag ≤ 2) := by
  rcases lag_cases m with ⟨h, -⟩ | ⟨e', he', hcase⟩
  · rw [he] at h
    cases h
  · rw [he, Option.some.injEq] at he'
    subst he'
    rcases hcase with ⟨h1, h⟩ | ⟨h1, h2, h⟩ | ⟨h1, h2, h3, h⟩ | ⟨h1, h2, h3, h⟩
    all_goals simp_all

/-! ## Write-back -/

/-- What write-back of the instructions at `pcs` makes of an entry. -/
structure Finishes (pcs : List ℕ) (e e' : ActiveListEntry) : Prop where
  pc : e'.pc = e.pc
  kept : e.isDone = true → e' = e
  done : e'.isDone = true ↔ e.isDone = true ∨ e.pc ∈ pcs

theorem Finishes.refl {pcs : List ℕ} {e : ActiveListEntry} (h : e.pc ∉ pcs) :
    Finishes pcs e e :=
  ⟨rfl, fun _ => rfl, by simp [h]⟩

theorem Finishes.trans {j : ℕ} {pcs : List ℕ} {a b c : ActiveListEntry}
    (h : Finishes [j] a b) (h' : Finishes pcs b c) : Finishes (j :: pcs) a c where
  pc := h'.pc.trans h.pc
  kept := by
    intro ha
    obtain rfl := h.kept ha
    exact h'.kept ha
  done := by rw [h'.done, h.done, h.pc, List.mem_singleton, List.mem_cons, or_assoc]

/-- Write-back of one instruction completes its entry and leaves the others alone. -/
theorem Normal.writeBack_finishes {x : Instruction} (h : Normal (x :: todo) m) :
    List.Forall₂ (Finishes [x.pc]) m.activeList (m.writeBack x).activeList := by
  obtain ⟨pre, e, post, hl, hd, -, hpc, -, hcom⟩ := h.split (x := x) (by simp [Machine.flight])
  have hw := h.window
  rw [hl] at hw
  obtain ⟨hpre, hpost⟩ := hw.split_lt
  rw [hpc] at hpre hpost
  have hal : (m.writeBack x).activeList = pre ++ e.done x.isException :: post := hcom
  rw [hal, hl]
  refine List.rel_append (List.forall₂_same.2 fun e' he' => ?_)
    (.cons ⟨hpc ▸ rfl, fun h' => ?_, ?_⟩ (List.forall₂_same.2 fun e' he' => ?_))
  · exact .refl (by simpa using (hpre e' he').ne)
  · rw [hd] at h'
    cases h'
  · exact iff_of_true rfl (.inr (by simp [hpc]))
  · exact .refl (by simpa using (hpost e' he').ne')

theorem Normal.foldl_finishes : ∀ (l : List Instruction) {m : Machine}, Safe m → Normal l m →
    List.Forall₂ (Finishes (l.map (·.pc))) m.activeList
      (l.foldl Machine.writeBack m).activeList
  | [], m, _, _ => List.forall₂_same.2 fun e _ => .refl (by simp)
  | x :: l, m, hs, h => by
    have htrans : ∀ {as bs cs : List ActiveListEntry}, List.Forall₂ (Finishes [x.pc]) as bs →
        List.Forall₂ (Finishes (l.map (·.pc))) bs cs →
        List.Forall₂ (Finishes ((x :: l).map (·.pc))) as cs := by
      intro as bs cs hab
      induction hab generalizing cs with
      | nil =>
        intro hbc
        cases hbc
        exact .nil
      | cons hx _ ih =>
        intro hbc
        cases hbc with
        | cons hy hbc => exact .cons (hx.trans hy) (ih hbc)
    exact htrans h.writeBack_finishes (Normal.foldl_finishes l (hs.writeBack x) (h.writeBack hs))

theorem Finishes.exists_of_mem_right {pcs : List ℕ} {l l' : List ActiveListEntry}
    (h : List.Forall₂ (Finishes pcs) l l') {e' : ActiveListEntry} (he' : e' ∈ l') :
    ∃ e ∈ l, Finishes pcs e e' := by
  induction h with
  | nil => cases he'
  | cons hx _ ih =>
    rcases List.mem_cons.1 he' with rfl | he'
    · exact ⟨_, List.mem_cons_self, hx⟩
    · obtain ⟨e, he, hfin⟩ := ih he'
      exact ⟨e, List.mem_cons_of_mem _ he, hfin⟩

theorem Finishes.exists_of_mem_left {pcs : List ℕ} {l l' : List ActiveListEntry}
    (h : List.Forall₂ (Finishes pcs) l l') {e : ActiveListEntry} (he : e ∈ l) :
    ∃ e' ∈ l', Finishes pcs e e' := by
  induction h with
  | nil => cases he
  | cons hx _ ih =>
    rcases List.mem_cons.1 he with rfl | he
    · exact ⟨_, List.mem_cons_self, hx⟩
    · obtain ⟨e', he', hfin⟩ := ih he
      exact ⟨e', List.mem_cons_of_mem _ he', hfin⟩

theorem Finishes.eq_of_done {pcs : List ℕ} {l l' : List ActiveListEntry}
    (h : List.Forall₂ (Finishes pcs) l l') (hd : ∀ e ∈ l, e.isDone = true) : l' = l := by
  induction h with
  | nil => rfl
  | cons hx _ ih =>
    rw [hx.kept (hd _ List.mem_cons_self), ih fun e he => hd e (List.mem_cons_of_mem _ he)]

/-! ## Issue -/

section
variable {pre post : List ActiveListEntry} {e : ActiveListEntry}
  (hl : m.activeList = pre ++ e :: post) (hpre : ∀ e' ∈ pre, retires e' = true)
include hl hpre

theorem Normal.settled_ready (hs : Safe m) (h : Normal todo m) {o : Operand}
    (hlt : o.type = .reg → o.logId.toNat < 32)
    (hr : Renamed m.logical m.activeList e.pc o) : m.ready o = true := by
  cases ht : o.type with
  | imm => simp [Machine.ready, ht]
  | reg =>
    have hw := h.window
    have htag := hr ht
    rw [mapAt, filter_older hw hl] at htag
    have hbusy : o.phyId.toNat < 64 ∧ rd m.isBusy o.phyId = false := by
      rcases Renaming.after_mem (archMap m.logical m.activeList) (writes pre) o.logId with
        ⟨w, hmem, -, hnew⟩ | ⟨-, hold⟩
      · -- the register of a settled entry
        obtain ⟨e', he', rfl⟩ := List.mem_map.1 hmem
        have hin : e' ∈ m.activeList := by simp [hl, he']
        rw [hnew] at htag
        rw [htag]
        refine ⟨curr_lt hs hw hin, ?_⟩
        rw [← Bool.not_eq_true, write_new, hw.busy _ (curr_lt hs hw hin)]
        rintro ⟨e'', hin', hcur, hpend⟩
        obtain rfl := List.inj_on_of_nodup_map (curr_nodup hs hw) hin' hin hcur
        obtain ⟨h1, h2⟩ := retires_iff.1 (hpre _ he')
        rcases hpend with h3 | h3
        · rw [h1] at h3
          cases h3
        · rw [h2] at h3
          cases h3
      · -- a committed register
        rw [hold] at htag
        have hp : o.phyId.toNat < 64 := by
          rw [htag]
          exact place_lt hs hw (.inl (List.mem_map_of_mem (mem_logRegs.2 (hlt ht))))
        exact ⟨hp, hw.not_busy hp fun e' he' hc =>
          arch_ne_curr hs hw (hlt ht) he' (htag.symm.trans hc.symm)⟩
    rw [hw.ready_eq ht hbusy.1, hbusy.2]
    rfl

/-- The instruction of the oldest entry that is not settled is the first one in the queue, if
    it is there. -/
theorem Normal.unsettled_first (h : Normal [] m) (hd : e.isDone = false) :
    e.pc ∈ m.stage0.map (·.pc) ∨ ∃ en iq, m.iq = en :: iq ∧ en.instr.pc = e.pc := by
  have hmem : e.tag ∈ (m.flight []).map Instruction.tag := by
    refine h.flight.symm.subset (List.mem_map_of_mem ?_)
    rw [List.mem_filter, hl]
    exact ⟨by simp, by simp [hd]⟩
  obtain ⟨x, hx, htag⟩ := List.mem_map.1 hmem
  have hpc : x.pc = e.pc := congrArg Prod.fst htag
  rcases mem_flight.1 hx with ⟨en', hen', rfl⟩ | hx | hx
  · right
    obtain ⟨en, iq, hiq⟩ := List.exists_cons_of_ne_nil (List.ne_nil_of_mem hen')
    refine ⟨en, iq, hiq, ?_⟩
    have hle : en.instr.pc ≤ en'.instr.pc := by
      have ho := h.iq_order
      rw [hiq] at hen'
      rw [hiq, List.map_cons, List.pairwise_cons] at ho
      rcases List.mem_cons.1 hen' with rfl | hen'
      · exact le_rfl
      · exact (ho.1 _ (List.mem_map_of_mem hen')).le
    -- its entry is not settled, so that it does not stand before `e`
    obtain ⟨e', he', hd', hpc', -⟩ := h.entry (mem_flight.2 (.inl ⟨en, by simp [hiq], rfl⟩))
    have hge : e.pc ≤ e'.pc := by
      have hw := h.window
      rw [hl] at hw he'
      rcases List.mem_append.1 he' with he' | he'
      · rw [(retires_iff.1 (hpre e' he')).1] at hd'
        cases hd'
      · rcases List.mem_cons.1 he' with rfl | he'
        · exact le_rfl
        · exact (hw.split_lt.2 e' he').le
    omega
  · exact .inl (List.mem_map.2 ⟨x, hx, hpc⟩)
  · cases hx

/-- **The oldest entry that is not settled never waits in the queue.** -/
theorem Normal.unsettled_issued (hs : Safe m) (h : Normal [] m) (hd : e.isDone = false) :
    e.pc ∈ m.issueStage.stage1.map (·.pc) ∨ e.pc ∈ m.issueStage.stage0.map (·.pc) := by
  rcases h.unsettled_first hl hpre hd with hst | ⟨en, iq, hiq, hpc⟩
  · exact .inl hst
  · right
    have hen : en ∈ m.iq := by simp [hiq]
    obtain ⟨hok, hexc⟩ := hs.iq_ok en hen
    obtain ⟨hlt1, hlt2⟩ := Normal.operand_lt hok
    have ht := h.tracked _ (mem_flight.2 (.inl ⟨en, hen, rfl⟩))
    have hA := h.settled_ready hl hpre hs (fun _ => hlt1) (hpc ▸ ht.opA)
    have hB := h.settled_ready hl hpre hs hlt2 (hpc ▸ ht.opB)
    have hready : iqEntryIsReady (m.refresh en) = true := by
      simp [iqEntryIsReady, Machine.refresh, hA, hB]
    have hexc' : (m.refresh en).instr.isException = false := hexc
    have hpc' : (m.refresh en).instr.pc = e.pc := hpc
    simp only [Machine.issueStage, hiq, List.map_cons, select, hexc', hready, if_true,
      Bool.false_eq_true, if_false]
    rw [hpc']
    exact List.mem_cons_self

end

/-! ## One cycle -/

theorem Normal.iq_le (h : Normal todo m) : m.iq.length ≤ m.activeList.length := by
  have hlen := h.flight.length_eq
  have hfilter := List.length_filter_le (fun e : ActiveListEntry => !e.isDone) m.activeList
  simp only [Machine.flight, List.length_map, List.length_append] at hlen
  omega

/-- **The three tests of dispatch are one**: it stalls if less than four entries are left in
    the Active List. -/
theorem Normal.stalled_iff (hs : Safe m) (h : Normal todo m) :
    m.stalled = true ↔ 28 < m.activeList.length := by
  have hlen := hs.length_eq
  have hiq := h.iq_le
  simp only [Machine.stalled, regLogFileSize, iqCapacity, instructionsPerCycle,
    Bool.or_eq_true, decide_eq_true_eq]
  omega

/-- Dispatch puts entries for instructions of the DIR behind those of the Active List. -/
theorem dispatchStage_activeList (uninit : ℕ → UInt8) (m : Machine) : ∃ new,
    (m.dispatchStage uninit).1.activeList = m.activeList ++ new ∧
    (∀ e ∈ new, e.isDone = false ∧ e.pc ∈ m.dir.map (·.pc)) ∧ new.length ≤ m.dir.length ∧
    ((m.dispatchStage uninit).2 = true →
      new.length = if m.stalled then 0 else m.dir.length) := by
  unfold Machine.dispatchStage
  split_ifs with hst
  · exact ⟨[], (List.append_nil _).symm, by simp, Nat.zero_le _, fun _ => rfl⟩
  · refine Machine.dispatchLoop_induction
      (I := fun n m' => ∃ new, m'.activeList = m.activeList ++ new ∧
        (∀ e ∈ new, e.isDone = false ∧ e.pc ∈ m.dir.map (·.pc)) ∧ m'.dir ⊆ m.dir ∧
        new.length + n = m.dir.length)
      (J := fun r => ∃ new, r.1.activeList = m.activeList ++ new ∧
        (∀ e ∈ new, e.isDone = false ∧ e.pc ∈ m.dir.map (·.pc)) ∧ new.length ≤ m.dir.length ∧
        (r.2 = true → new.length = m.dir.length))
      uninit ?_ ?_ ?_ ?_ m.dir.length 0 { m with backpressure := false }
      ⟨[], by simp, by simp, List.Subset.refl _, Nat.zero_add _⟩
    · rintro n m' x dir p freeList hd - ⟨new, h1, h2, h3, h4⟩
      rw [hd] at h3
      refine ⟨new ++ [⟨false, false, x.dest.logId, rd m'.logical x.dest.logId, p, x.pc⟩],
        ?_, ?_, fun y hy => h3 (List.mem_cons_of_mem _ hy), ?_⟩
      · rw [← List.append_assoc, ← h1]
        rfl
      · intro e he
        rcases List.mem_append.1 he with he | he
        · exact h2 e he
        · rw [List.mem_singleton.1 he]
          exact ⟨rfl, List.mem_map_of_mem (h3 List.mem_cons_self)⟩
      · rw [List.length_append, List.length_singleton]
        omega
    · rintro m' ⟨new, h1, h2, -, h4⟩
      exact ⟨new, h1, h2, h4.le, fun _ => h4⟩
    · rintro n m' x dir - ⟨new, h1, h2, -, h4⟩
      exact ⟨new, h1, h2, by omega, fun h => absurd h Bool.false_ne_true⟩
    · rintro n m' ⟨new, h1, h2, -, h4⟩
      exact ⟨new, h1, h2, by omega, fun h => absurd h Bool.false_ne_true⟩

theorem cycle_activeList (uninit : ℕ → UInt8) (m : Machine) :
    (m.cycle uninit).activeList = (m.backEnd.dispatchStage uninit).1.activeList ∧
      (m.cycle uninit).stage1 = m.backEnd.stage1 := by
  obtain ⟨d, f, al, lo, b, q, hframe⟩ := dispatchStage_frame uninit m.backEnd
  have hst : (m.backEnd.dispatchStage uninit).1.stage1 = m.backEnd.stage1 := by rw [hframe]
  simp only [Machine.cycle]
  split_ifs
  · exact ⟨rfl, hst⟩
  · exact ⟨rfl, hst⟩

/-- A cycle in the normal mode.  The Active List consists of the settled entries `pre` and of
    `post`; of the former some are committed, the latter become `post'`, and `new` entries are
    dispatched. -/
structure Turn (m m' : Machine) (pre post post' new : List ActiveListEntry) : Prop where
  before : m.activeList = pre ++ post
  settled : ∀ e ∈ pre, retires e = true
  length : pre.length = m.settled
  head : post.head? = m.unsettled
  commits : m.commits = min 4 pre.length
  stops : m.commits = 4 ∨ ∀ e ∈ post.head?, e.isDone = false
  finishes : List.Forall₂ (Finishes (m.stage1.map (·.pc))) post post'
  after : m'.activeList = pre.drop m.commits ++ (post' ++ new)
  stage1 : m'.stage1 = m.stage0
  issued : ∀ done e rest, post' = done ++ e :: rest → (∀ e' ∈ done, retires e' = true) →
    e.isDone = false → e.pc ∈ m'.stage1.map (·.pc) ∨ e.pc ∈ m'.stage0.map (·.pc)
  fresh : ∀ e ∈ new, e.isDone = false ∧ e.pc ∈ m.dir.map (·.pc)
  few : new.length ≤ 4

theorem not_retires_unsettled {e : ActiveListEntry} (h : m.unsettled = some e) :
    retires e = false := by
  have := List.find?_some h
  simpa using this

theorem commits_settled {pre post : List ActiveListEntry} {c : ℕ}
    (hl : m.activeList = pre ++ post) (hpre : ∀ e ∈ pre, retires e = true)
    (hhead : post.head? = m.unsettled) (hc4 : c ≤ 4) (hcl : c ≤ m.activeList.length)
    (hcd : ∀ e ∈ m.activeList.take c, e.isDone = true ∧ e.isException = false)
    (hstop : c = 4 ∨ ∀ e ∈ m.activeList[c]?, e.isDone = false) :
    c = min 4 pre.length ∧ (c = 4 ∨ ∀ e ∈ post.head?, e.isDone = false) := by
  rw [hl] at hcl hcd hstop
  have hle : c ≤ pre.length := by
    by_contra hlt
    rw [Nat.not_le] at hlt
    rw [List.length_append] at hcl
    obtain ⟨y, post, rfl⟩ := List.exists_cons_of_length_pos
      (show 0 < post.length by omega)
    have hy : y ∈ (pre ++ y :: post).take c := by
      rw [List.take_append, List.mem_append]
      obtain ⟨d, hd⟩ : ∃ d, c - pre.length = d + 1 := ⟨c - pre.length - 1, by omega⟩
      right
      rw [hd, List.take_succ_cons]
      exact List.mem_cons_self
    have hret := retires_iff.2 (hcd y hy)
    rw [not_retires_unsettled hhead.symm] at hret
    cases hret
  rcases hstop with rfl | hstop
  · exact ⟨by omega, .inl rfl⟩
  · have heq : c = pre.length := by
      by_contra hne
      have hlt : c < pre.length := by omega
      have he : (pre ++ post)[c]? = some pre[c] := by
        rw [List.getElem?_append_left hlt, List.getElem?_eq_getElem hlt]
      have h1 := hstop _ he
      rw [(retires_iff.1 (hpre _ (List.getElem_mem hlt))).1] at h1
      cases h1
    subst heq
    refine ⟨by omega, .inr fun e he => hstop e ?_⟩
    rw [List.getElem?_append_right le_rfl, Nat.sub_self, ← List.head?_eq_getElem?]
    exact he

theorem Normal.turn (uninit : ℕ → UInt8) (hs : Safe m) (h : Normal m.stage1 m)
    (hm : m.commitStage.exceptionMode = false) :
    ∃ pre post post' new, Turn m (m.cycle uninit) pre post post' new ∧
      (m.backEnd.stalled = true ↔ 28 < m.activeList.length - m.commits) ∧
      (m.dispatches uninit = true →
        new.length = if m.backEnd.stalled then 0 else m.dir.length) := by
  obtain ⟨c, hc4, hcl, hcd, hret, ⟨hq, hstop⟩ | ⟨-, e, -, -, -, -, hr⟩⟩ := h.commitStage
  swap
  · rw [hr.mode] at hm
    cases hm
  obtain ⟨pre, post, hl, hlen, hpre, hhead⟩ := settled_split m
  have hcommits : m.commits = c := commits_eq h.mode hcl (by rw [hq]; rfl)
  obtain ⟨hc, hstops⟩ := commits_settled hl hpre hhead hc4 hcl hcd hstop
  have hs₁ : Safe (m.retireN c) := hq ▸ hs.commitStage
  have hs₂ : Safe (m.retireN c).executeStage.writeBackStage := hs₁.executeStage.writeBackStage
  have hn₂ : Normal [] (m.retireN c).executeStage.writeBackStage := hret.executed hs₁
  have hback : m.backEnd = (m.retireN c).executeStage.writeBackStage.issueStage := by
    rw [Machine.backEnd, hq]
  -- the entries after write-back
  have hpcs : (m.stage1.map Instruction.execute).map (·.pc) = m.stage1.map (·.pc) := by
    rw [List.map_map]
    refine List.map_congr_left fun x _ => ?_
    unfold Function.comp Instruction.execute
    split <;> rfl
  have hfin : List.Forall₂ (Finishes ((m.stage1.map Instruction.execute).map (·.pc)))
      (m.retireN c).executeStage.activeList
      (m.retireN c).executeStage.writeBackStage.activeList :=
    Normal.foldl_finishes _ hs₁.executeStage (hret.executeStage (m := m.retireN c))
  have hbefore : (m.retireN c).executeStage.activeList = pre.drop c ++ post := by
    change m.activeList.drop c = _
    rw [hl, List.drop_append_of_le_length (by omega)]
  rw [hpcs, hbefore] at hfin
  have hwb : (m.retireN c).executeStage.writeBackStage.activeList =
      pre.drop c ++ (m.retireN c).executeStage.writeBackStage.activeList.drop
        (pre.drop c).length := by
    have htake := List.forall₂_take (pre.drop c).length hfin
    rw [List.take_left] at htake
    have hsame := Finishes.eq_of_done htake fun e he =>
      (retires_iff.1 (hpre e (List.mem_of_mem_drop he))).1
    have happ := (List.take_append_drop (pre.drop c).length
      (m.retireN c).executeStage.writeBackStage.activeList).symm
    rwa [hsame] at happ
  have hdrop := List.forall₂_drop (pre.drop c).length hfin
  rw [List.drop_left] at hdrop
  obtain ⟨hal, hst1⟩ := cycle_activeList uninit m
  obtain ⟨-, hst0⟩ := cycle_queues uninit m
  obtain ⟨new, hnew, hfresh, hfew, hlength⟩ := dispatchStage_activeList uninit m.backEnd
  obtain ⟨ph, b, al, hframe⟩ := writeBackStage_frame (m.retireN c).executeStage
  have hbal : m.backEnd.activeList = pre.drop c ++
      (m.retireN c).executeStage.writeBackStage.activeList.drop (pre.drop c).length := by
    rw [hback]
    exact hwb
  have hdir : m.backEnd.dir = m.dir := by
    rw [hback, hframe]
    rfl
  rw [hdir] at hfresh hfew hlength
  refine ⟨pre, post, _, new, ⟨hl, hpre, hlen, hhead, hcommits.trans hc, hcommits ▸ hstops, hdrop,
    ?_, ?_, ?_, hfresh, hfew.trans hs.dir_le⟩, ?_, hlength⟩
  · rw [hal, hnew, hcommits, ← List.append_assoc, ← hbal]
  · rw [hst1, hback, hframe]
    rfl
  · intro done e rest hpost hdone he
    rw [hst0, hst1, hback]
    have hsplit : (m.retireN c).executeStage.writeBackStage.activeList =
        (pre.drop c ++ done) ++ e :: rest := by
      rw [hwb, List.append_assoc]
      exact congrArg _ hpost
    refine hn₂.unsettled_issued hsplit (fun e' he' => ?_) hs₂ he
    rcases List.mem_append.1 he' with he' | he'
    · exact hpre e' (List.mem_of_mem_drop he')
    · exact hdone e' he'
  · have hn₃ : Normal m.backEnd.stage1 m.backEnd := hback ▸ hn₂.issueStage
    have hlength₃ := congrArg List.length hbal
    rw [hn₃.stalled_iff hs.backEnd, hl, hcommits]
    rw [List.length_append, ← hdrop.length_eq, List.length_drop] at hlength₃
    rw [List.length_append]
    omega

/-! ### What has settled after a cycle -/

section
variable {m' : Machine} {pre post post' new : List ActiveListEntry}
  (t : Turn m m' pre post post' new)
include t

theorem Turn.after_eq : m'.unsettled = (post' ++ new).find? (fun e => !retires e) ∧
    m'.settled + m.commits = m.settled + ((post' ++ new).takeWhile retires).length := by
  obtain ⟨h1, h2⟩ := unsettled_append t.after fun e he => t.settled e (List.mem_of_mem_drop he)
  refine ⟨h1, ?_⟩
  have hc := t.commits
  have hlen := t.length
  rw [h2, List.length_drop]
  omega

/-- An entry after the cycle was there before it, and is done if it was so or was in the last ALU
    stage; or it is new. -/
theorem Turn.origin {e : ActiveListEntry} (he : e ∈ m'.activeList) :
    (∃ e₀ ∈ m.activeList, e₀.pc = e.pc ∧
      (e.isDone = true ↔ e₀.isDone = true ∨ e.pc ∈ m.stage1.map (·.pc))) ∨
    e.isDone = false ∧ e.pc ∈ m.dir.map (·.pc) := by
  rw [t.after] at he
  rcases List.mem_append.1 he with he | he
  · have hmem := List.mem_of_mem_drop he
    have hd := (retires_iff.1 (t.settled e hmem)).1
    refine .inl ⟨e, ?_, rfl, iff_of_true hd (.inl hd)⟩
    rw [t.before]
    exact List.mem_append_left _ hmem
  · rcases List.mem_append.1 he with he | he
    · obtain ⟨e₀, he₀, hfin⟩ := Finishes.exists_of_mem_right t.finishes he
      refine .inl ⟨e₀, ?_, hfin.pc.symm, hfin.pc ▸ hfin.done⟩
      rw [t.before]
      exact List.mem_append_right _ he₀
    · exact .inr (t.fresh e he)

theorem Turn.settled_le : m.settled ≤ m'.settled + m.commits := by
  rw [t.after_eq.2]
  exact Nat.le_add_right _ _

theorem Turn.lag_le_three {z : ActiveListEntry}
    (hz : post'.find? (fun e => !retires e) = some z) :
    m'.unsettled = some z ∧ m'.lag ≤ 3 := by
  have hun : m'.unsettled = some z := by rw [t.after_eq.1, List.find?_append, hz]; rfl
  refine ⟨hun, ?_⟩
  obtain ⟨-, done, rest, hpost, hdone⟩ := List.find?_eq_some_iff_append.1 hz
  obtain ⟨-, h1, h2, h3⟩ := lag_le hun
  cases hd : z.isDone with
  | true => exact (h1 hd).le.trans (by decide)
  | false =>
    rcases t.issued done z rest hpost (fun e he => by simpa using hdone e he) hd with h | h
    · exact (h3 h).trans (by decide)
    · exact h2 h

theorem Turn.unsettled_cons {e : ActiveListEntry} (he : m.unsettled = some e) :
    ∃ rest e' rest', post = e :: rest ∧ post' = e' :: rest' ∧
      Finishes (m.stage1.map (·.pc)) e e' ∧ rest.length = rest'.length := by
  have hhead := t.head
  have hfin := t.finishes
  rw [he] at hhead
  rcases post with _ | ⟨a, rest⟩
  · cases hhead
  · rw [List.head?_cons, Option.some.injEq] at hhead
    subst hhead
    cases hfin with
    | cons h hrest => exact ⟨rest, _, _, rfl, rfl, h, hrest.length_eq⟩

theorem Turn.lag_blocked (hlag : m.lag = 1) : m'.lag = 1 ∧ m.commits = 4 := by
  rcases lag_cases m with ⟨-, h⟩ | ⟨e, he, hcase⟩
  · rw [hlag] at h
    cases h
  · have hd : e.isDone = true := by
      rcases hcase with ⟨hd, -⟩ | ⟨-, -, h⟩ | ⟨-, -, -, h⟩ | ⟨-, -, -, h⟩
      · exact hd
      all_goals
        rw [hlag] at h
        cases h
    obtain ⟨rest, e', rest', rfl, rfl, hfin, -⟩ := t.unsettled_cons he
    obtain rfl := hfin.kept hd
    have hz : (e' :: rest').find? (fun e => !retires e) = some e' :=
      List.find?_cons_of_pos (by rw [not_retires_unsettled he]; rfl)
    obtain ⟨hun, -⟩ := t.lag_le_three hz
    refine ⟨(lag_le hun).2.1 hd, t.stops.resolve_right fun hstop => ?_⟩
    rw [hstop e' rfl] at hd
    cases hd

/-- An entry in the last ALU stage settles or is an exception; the next one follows closely, if
    it was in the Active List. -/
theorem Turn.lag_executed (hlag : m.lag = 2) : m'.lag = 1 ∨
    m.settled + 1 ≤ m'.settled + m.commits ∧
      (m'.lag ≤ 3 ∨ m.activeList.length ≤ m'.settled + m.commits) := by
  rcases lag_cases m with ⟨-, h⟩ | ⟨e, he, hcase⟩
  · rw [hlag] at h
    cases h
  · have hst : e.pc ∈ m.stage1.map (·.pc) := by
      rcases hcase with ⟨-, h⟩ | ⟨-, hst, -⟩ | ⟨-, -, -, h⟩ | ⟨-, -, -, h⟩
      · rw [hlag] at h
        cases h
      · exact hst
      all_goals
        rw [hlag] at h
        cases h
    obtain ⟨rest, e', rest', hpost, rfl, hfin, hlen⟩ := t.unsettled_cons he
    have hd : e'.isDone = true := hfin.done.2 (.inr hst)
    obtain ⟨-, heq⟩ := t.after_eq
    cases hr : retires e' with
    | false =>
      have hz : (e' :: rest').find? (fun e => !retires e) = some e' :=
        List.find?_cons_of_pos (by rw [hr]; rfl)
      exact .inl ((lag_le (t.lag_le_three hz).1).2.1 hd)
    | true =>
      right
      rw [List.cons_append, List.takeWhile_cons, if_pos hr, List.length_cons] at heq
      refine ⟨by omega, ?_⟩
      cases hz : rest'.find? (fun e => !retires e) with
      | some z =>
        left
        refine (t.lag_le_three (z := z) ?_).2
        rw [List.find?_cons_of_neg (by rw [hr]; decide)]
        exact hz
      | none =>
        right
        have hall : ∀ e ∈ rest', retires e = true := by
          simpa using List.find?_eq_none.1 hz
        have hbefore := congrArg List.length t.before
        rw [List.takeWhile_append_of_pos hall, List.length_append] at heq
        rw [hpost, List.length_append, List.length_cons, t.length] at hbefore
        omega

theorem Turn.lag_lt (hlag : m.lag = 3 ∨ m.lag = 4) : m'.lag < m.lag := by
  rcases lag_cases m with ⟨-, h⟩ | ⟨e, he, hcase⟩
  · omega
  · have hplace : e.isDone = false ∧ e.pc ∉ m.stage1.map (·.pc) ∧
        (e.pc ∈ m.stage0.map (·.pc) ∧ m.lag = 3 ∨ m.lag = 4) := by
      rcases hcase with ⟨-, h⟩ | ⟨-, -, h⟩ | ⟨h1, h2, h3, h4⟩ | ⟨h1, h2, h3, h4⟩
      · omega
      · omega
      · exact ⟨h1, h2, .inl ⟨h3, h4⟩⟩
      · exact ⟨h1, h2, .inr h4⟩
    obtain ⟨hd, hst1, hst0⟩ := hplace
    obtain ⟨rest, e', rest', hpost, rfl, hfin, -⟩ := t.unsettled_cons he
    have hd' : e'.isDone = false := by
      rw [← Bool.not_eq_true, hfin.done, hd]
      simpa using hst1
    have hr : retires e' = false := by rw [retires, hd']; rfl
    have hz : (e' :: rest').find? (fun e => !retires e) = some e' :=
      List.find?_cons_of_pos (by rw [hr]; rfl)
    obtain ⟨hun, hle⟩ := t.lag_le_three hz
    rcases hst0 with ⟨hst0, h3⟩ | h4
    · have h2 := (lag_le hun).2.2.2 (by rw [hfin.pc, t.stage1]; exact hst0)
      omega
    · omega

theorem Turn.all_done (hall : m.activeList.length ≤ m'.settled + m.commits) :
    ∀ e ∈ m.activeList, e.isDone = true ∨ e.pc ∈ m.stage1.map (·.pc) := by
  have hlen := congrArg List.length t.before
  rw [t.after_eq.2, hlen, List.length_append, t.length] at hall
  have hinit : post' <+: (post' ++ new).takeWhile retires :=
    List.prefix_of_prefix_length_le (List.prefix_append _ _) (List.takeWhile_prefix _)
      (by rw [← t.finishes.length_eq]; omega)
  intro e he
  rw [t.before] at he
  rcases List.mem_append.1 he with he | he
  · exact .inl (retires_iff.1 (t.settled e he)).1
  · obtain ⟨e', he', hfin⟩ := Finishes.exists_of_mem_left t.finishes he
    exact hfin.done.1 (retires_iff.1 (List.mem_takeWhile_imp (hinit.subset he'))).1

theorem Turn.lag_supplied (hlag : m.lag = 5) (hnew : new ≠ []) : m'.lag ≤ 4 := by
  have hpost : post' = [] := by
    have hlen := congrArg List.length t.before
    rw [← settled_of_lag hlag, List.length_append, t.length] at hlen
    rw [← List.length_eq_zero_iff, ← t.finishes.length_eq]
    omega
  obtain ⟨y, rest, rfl⟩ := List.exists_cons_of_ne_nil hnew
  have hun : m'.unsettled = some y := by
    rw [t.after_eq.1, hpost, List.nil_append]
    refine List.find?_cons_of_pos ?_
    rw [retires, (t.fresh y List.mem_cons_self).1]
    rfl
  exact (lag_le hun).1

theorem Turn.commits_le : m.commits ≤ 4 := by
  rw [t.commits]
  exact min_le_left _ _

/-- **What a cycle does about the oldest entry that is not settled**: it moves on, or is an
    exception, unless everything that was there is settled. -/
theorem Turn.passes (hlag : m.lag ≠ 1) : m'.lag = 1 ∨
    2 * m.settled + m'.lag + 1 ≤ 2 * (m'.settled + m.commits) + m.lag ∨
    m.activeList.length ≤ m'.settled + m.commits := by
  have hle := t.settled_le
  obtain ⟨h1, h5⟩ := lag_bounds m
  have hcases : m.lag = 2 ∨ (m.lag = 3 ∨ m.lag = 4) ∨ m.lag = 5 := by omega
  rcases hcases with h | h | h
  · rcases t.lag_executed h with h' | ⟨hmore, h' | hall⟩
    · exact .inl h'
    · exact .inr (.inl (by omega))
    · exact .inr (.inr hall)
  · have hlt := t.lag_lt h
    exact .inr (.inl (by omega))
  · have hall := settled_of_lag h
    exact .inr (.inr (by omega))

theorem Turn.pcs : m'.activeList.map (·.pc) =
    (m.activeList.map (·.pc)).drop m.commits ++ new.map (·.pc) := by
  have hpcs : post'.map (·.pc) = post.map (·.pc) := by
    have hfin := t.finishes
    generalize m.stage1.map (·.pc) = pcs at hfin
    clear t
    induction hfin with
    | nil => rfl
    | cons h _ ih => rw [List.map_cons, List.map_cons, h.pc, ih]
  have hle : m.commits ≤ pre.length := by
    rw [t.commits]
    exact min_le_right _ _
  rw [t.after, ← List.map_drop, t.before, List.drop_append_of_le_length hle]
  simp only [List.map_append, hpcs, List.append_assoc]

theorem Turn.length_after :
    m'.activeList.length + m.commits = m.activeList.length + new.length := by
  have hpcs := congrArg List.length t.pcs
  have hle : m.commits ≤ m.activeList.length := by
    rw [t.before, List.length_append, t.commits]
    omega
  simp only [List.length_append, List.length_map, List.length_drop] at hpcs
  omega

theorem Turn.lag_four (hlag : m'.lag = 4) : m'.activeList.length ≤ m'.settled + new.length := by
  cases hz : post'.find? (fun e => !retires e) with
  | some z =>
    have hle := (t.lag_le_three hz).2
    omega
  | none =>
    have hall : ∀ e ∈ post', retires e = true := by simpa using List.find?_eq_none.1 hz
    have heq := t.after_eq.2
    have hlen := t.length_after
    rw [List.takeWhile_append_of_pos hall, List.length_append] at heq
    rw [t.before, List.length_append, t.length, t.finishes.length_eq] at hlen
    omega

/-- With nothing settled, what is just issued is new, or was so in the cycle before. -/
theorem Turn.lag_three (hlag : m'.lag = 3) (hsettled : m'.settled = 0) :
    m'.activeList.length ≤ new.length ∨ m.lag = 4 ∧ m.settled ≤ 4 := by
  have hle := t.settled_le
  have hc := t.commits
  rw [t.length] at hc
  obtain ⟨h1, h5⟩ := lag_bounds m
  have hcases : m.lag = 1 ∨ m.lag = 2 ∨ m.lag = 3 ∨ m.lag = 4 ∨ m.lag = 5 := by omega
  rcases hcases with h | h | h | h | h
  · have hlag' := (t.lag_blocked h).1
    omega
  · rcases t.lag_executed h with h' | ⟨h', -⟩
    · omega
    · omega
  · have hlt := t.lag_lt (.inl h)
    omega
  · exact .inr ⟨h, by omega⟩
  · have hall := settled_of_lag h
    have hlen := t.length_after
    exact .inl (by omega)

end

/-! ### The front end keeps up -/

/-- The DIR is empty only if everything is fetched; an instruction waits there only because the
    Active List is full, or because it was fetched when the youngest entry was dispatched. -/
structure Machine.Supplied (m : Machine) : Prop where
  fetched : m.dir = [] → m.program.count ≤ m.pc
  fresh : m.dir ≠ [] → 28 < m.activeList.length ∨
    ∀ e ∈ m.activeList.getLast?, e.isDone = false ∧ e.pc ∉ m.stage1.map (·.pc)

/-- With instructions in the DIR, even then: the next one follows at once, unless there are
    more settled entries than commit takes. -/
theorem Turn.passes_supplied {m' : Machine} {pre post post' new : List ActiveListEntry}
    (t : Turn m m' pre post post' new) (hsup : m.Supplied) (hdir : m.dir ≠ [])
    (hnew : new.length < m.dir.length → 28 < m.activeList.length - m.commits)
    (hlag : m.lag ≠ 1) : m'.lag = 1 ∨
    2 * m.settled + m'.lag + 1 ≤ 2 * (m'.settled + m.commits) + m.lag ∨ 3 ≤ m'.settled := by
  have hle := t.settled_le
  have hc := t.commits_le
  rcases t.passes hlag with h | h | hall
  · exact .inl h
  · exact .inr (.inl h)
  by_cases hcrowded : 28 < m.activeList.length
  · exact .inr (.inr (by omega))
  by_cases h5 : m.lag = 5
  · -- everything is settled, and something is dispatched
    have h4 := t.lag_supplied h5 fun hnil => by
      have hpos := List.length_pos_iff.2 hdir
      have hlt := hnew (by rw [hnil]; exact hpos)
      omega
    exact .inr (.inl (by omega))
  · -- the youngest entry cannot settle in this cycle
    have hne : m.activeList ≠ [] := by
      rintro hnil
      rcases lag_cases m with ⟨-, h⟩ | ⟨e, he, -⟩
      · exact h5 h
      · have hmem := List.mem_of_find?_eq_some he
        rw [hnil] at hmem
        cases hmem
    obtain ⟨hd, hst⟩ := (hsup.fresh hdir).resolve_left hcrowded _
      (List.getLast?_eq_some_getLast hne)
    rcases t.all_done hall _ (List.getLast_mem hne) with h | h
    · rw [hd] at h
      cases h
    · exact absurd h hst

/-- A stalled cycle fetches nothing; another one empties the DIR and fetches what it can. -/
theorem Normal.cycle_fetches {uninit : ℕ → UInt8} (h : Normal m.stage1 m)
    (hm : m.commitStage.exceptionMode = false) (hok : m.dispatches uninit = true) :
    if m.backEnd.stalled then (m.cycle uninit).dir = m.dir ∧ (m.cycle uninit).pc = m.pc
    else (m.cycle uninit).dir = (m.program.instructions.drop m.pc).take 4 ∧
      (m.cycle uninit).pc = m.pc + min 4 (m.program.count - m.pc) := by
  obtain ⟨c, -, -, -, -, ⟨hq, -⟩ | ⟨-, e, -, -, -, -, hr⟩⟩ := h.commitStage
  swap
  · rw [hr.mode] at hm
    cases hm
  obtain ⟨ph, b, al, hwb⟩ := writeBackStage_frame m.commitStage.executeStage
  have hback : m.backEnd.dir = m.dir ∧ m.backEnd.pc = m.pc ∧ m.backEnd.program = m.program := by
    rw [Machine.backEnd, hwb, hq]
    exact ⟨rfl, rfl, rfl⟩
  obtain ⟨h1, h2, h3⟩ := hback
  rw [cycle_eq hok]
  have hdir := Machine.dispatchStage_dir uninit hok
  cases hst : m.backEnd.stalled with
  | true =>
    rw [if_pos rfl, Machine.dispatchStage, if_pos hst]
    simp only [Machine.frontEnd, Machine.checkFinished, Machine.fetchStage, Machine.fetched,
      if_true, List.take_zero, List.append_nil, Nat.add_zero]
    exact ⟨h1, h2⟩
  | false =>
    rw [if_neg Bool.false_ne_true]
    obtain ⟨d, f, al, lo, b, q, hframe⟩ := dispatchStage_frame uninit m.backEnd
    rw [hframe, hst] at hdir ⊢
    have hd : d = [] := by simpa using hdir
    simp only [Machine.frontEnd, Machine.checkFinished, Machine.fetchStage, Machine.fetched,
      Bool.false_eq_true, if_false, h2, h3, hd, List.nil_append, instructionsPerCycle]
    rw [and_true, Program.count, ← List.length_drop, ← List.take_eq_take_min]

theorem Normal.cycle_pc (uninit : ℕ → UInt8) (h : Normal m.stage1 m)
    (hm : m.commitStage.exceptionMode = false) :
    m.pc ≤ (m.cycle uninit).pc ∧ (m.cycle uninit).pc ≤ m.pc + 4 := by
  obtain ⟨c, -, -, -, -, ⟨hq, -⟩ | ⟨-, e, -, -, -, -, hr⟩⟩ := h.commitStage
  swap
  · rw [hr.mode] at hm
    cases hm
  obtain ⟨ph, b, al, hwb⟩ := writeBackStage_frame m.commitStage.executeStage
  have hback : m.backEnd.pc = m.pc := by
    rw [Machine.backEnd, hwb, hq]
    rfl
  obtain ⟨d, f, al, lo, b, q, hframe⟩ := dispatchStage_frame uninit m.backEnd
  have hpc : (m.backEnd.dispatchStage uninit).1.pc = m.pc := by rw [hframe, hback]
  have hfour : (m.backEnd.dispatchStage uninit).1.fetched ≤ 4 := by
    unfold Machine.fetched
    split_ifs
    · exact Nat.zero_le _
    · exact Nat.min_le_left _ _
  simp only [Machine.cycle]
  split_ifs
  · change m.pc ≤ (m.backEnd.dispatchStage uninit).1.pc + _ ∧
      (m.backEnd.dispatchStage uninit).1.pc + _ ≤ m.pc + 4
    omega
  · omega

theorem cycle_fetched {uninit : ℕ → UInt8} (hok : m.dispatches uninit = true)
    (hd : (m.cycle uninit).dir = []) : (m.backEnd.dispatchStage uninit).1.fetched = 0 := by
  rw [cycle_eq hok] at hd
  have hnil := (List.append_eq_nil_iff.1 hd).2
  have hlen := congrArg List.length hnil
  have hle := Normal.fetched_le (m.backEnd.dispatchStage uninit).1
  rw [List.length_take, List.length_drop, List.length_nil] at hlen
  rw [Program.count] at hle
  omega

theorem cycle_ready {uninit : ℕ → UInt8} (hok : m.dispatches uninit = true)
    (hl : (m.cycle uninit).activeList = []) (hd : (m.cycle uninit).dir = [])
    (hstatus : (m.cycle uninit).exceptionStatus.isException = false) :
    (m.cycle uninit).readyToFinish = true := by
  rw [(cycle_finished hok).2, cycle_fetched hok hd, hl, hstatus]
  simp

/-- In a cycle that dispatches, the youngest entry is a new one, which is not in the last ALU
    stage. -/
theorem Turn.youngest {m' : Machine} {pre post post' new : List ActiveListEntry}
    (t : Turn m m' pre post post' new) (h : Normal m.stage1 m) (h' : Normal m'.stage1 m')
    (hnew : new ≠ []) :
    ∀ e ∈ m'.activeList.getLast?, e.isDone = false ∧ e.pc ∉ m'.stage1.map (·.pc) := by
  intro e he
  obtain ⟨front, y, rfl⟩ := List.eq_nil_or_concat new |>.resolve_left hnew
  rw [t.after, List.concat_eq_append, ← List.append_assoc, ← List.append_assoc,
    List.getLast?_concat, Option.mem_some_iff] at he
  subst he
  refine ⟨(t.fresh y (by simp)).1, fun hst => ?_⟩
  -- the instructions in the last stage have entries that are older
  rw [t.stage1] at hst
  obtain ⟨x, hx, hpc⟩ := List.mem_map.1 hst
  obtain ⟨e₀, he₀, hd₀, hpc₀, -⟩ := h.entry (mem_flight.2 (.inr (.inl hx)))
  have hmem : e₀.pc ∈ (m.activeList.map (·.pc)).drop m.commits := by
    rw [← List.map_drop]
    refine List.mem_map_of_mem ?_
    rw [t.before] at he₀ ⊢
    have hle : m.commits ≤ pre.length := by
      rw [t.commits]
      exact min_le_right _ _
    rw [List.drop_append_of_le_length hle]
    refine List.mem_append_right _ ((List.mem_append.1 he₀).resolve_left fun hpre => ?_)
    rw [(retires_iff.1 (t.settled _ hpre)).1] at hd₀
    cases hd₀
  have ho := h'.window.order
  rw [t.pcs, List.pairwise_append] at ho
  have hlt := ho.2.2 _ hmem y.pc (by simp)
  rw [hpc₀, hpc] at hlt
  exact lt_irrefl _ hlt

theorem Normal.supplied {uninit : ℕ → UInt8} (hs : Safe m) (h : Normal m.stage1 m)
    (hm : m.commitStage.exceptionMode = false) (hok : m.dispatches uninit = true)
    (hsup : m.dir = [] → m.program.count ≤ m.pc ∨ m.activeList = []) :
    (m.cycle uninit).Supplied := by
  obtain ⟨pre, post, post', new, t, hst, hnew⟩ := h.turn uninit hs hm
  have hnew := hnew hok
  have hfetch := h.cycle_fetches hm hok
  have hafter := t.length_after
  have hprog : (m.cycle uninit).program = m.program := by
    rw [(cycle_frame uninit m).2.2, commitStage_program]
  have hn' : Normal (m.cycle uninit).stage1 (m.cycle uninit) := by
    rcases h.cycle uninit hs with hn' | hr
    · exact hn'
    · rw [hr.mode] at hm
      cases hm
  cases hstall : m.backEnd.stalled with
  | true =>
    rw [hstall, if_pos rfl] at hnew hfetch
    have hcrowded := hst.1 hstall
    refine ⟨fun hd => ?_, fun _ => .inl (by omega)⟩
    rw [hprog, hfetch.2]
    rcases hsup (hfetch.1 ▸ hd) with hp | hl
    · exact hp
    · rw [hl, List.length_nil] at hcrowded
      omega
  | false =>
    rw [hstall, if_neg Bool.false_ne_true] at hnew hfetch
    have hall : (m.cycle uninit).dir = [] → m.program.count ≤ m.pc := by
      intro hd
      rw [hfetch.1, ← List.length_eq_zero_iff, List.length_take, List.length_drop] at hd
      rw [Program.count]
      omega
    refine ⟨fun hd => ?_, fun hd => .inr ?_⟩
    · rw [hprog, hfetch.2]
      have := hall hd
      omega
    · by_cases hdir : m.dir = []
      · rcases hsup hdir with hp | hl
        · refine absurd ?_ hd
          rw [hfetch.1, List.drop_eq_nil_of_le hp, List.take_nil]
        · have hnil : (m.cycle uninit).activeList = [] := by
            rw [hdir, List.length_nil] at hnew
            rw [hl, List.length_nil] at hafter
            exact List.length_eq_zero_iff.1 (by omega)
          rw [hnil]
          simp
      · refine t.youngest h hn' fun hnil => hdir ?_
        rw [hnil, List.length_nil] at hnew
        exact List.length_eq_zero_iff.1 hnew.symm

/-! ### How early an instruction can be where it is -/

/-- The instructions in the Active List are older than `b 1`, those in the ALUs than `b 2` and
    `b 3`, and those that are done than `b 4`. -/
structure Staged (b : ℕ → ℕ) (m : Machine) : Prop where
  active : ∀ e ∈ m.activeList, e.pc < b 1
  stage0 : ∀ x ∈ m.stage0, x.pc < b 2
  stage1 : ∀ x ∈ m.stage1, x.pc < b 3
  done : ∀ e ∈ m.activeList, e.isDone = true → e.pc < b 4

theorem Normal.iq_atIssue (h : Normal todo m) (hm : m.commitStage.exceptionMode = false) :
    m.commitStage.executeStage.writeBackStage.iq = m.iq := by
  obtain ⟨ph, bb, al, hframe⟩ := writeBackStage_frame m.commitStage.executeStage
  rw [hframe]
  obtain ⟨c, -, -, -, -, ⟨hq, -⟩ | ⟨-, e, -, -, -, -, hr⟩⟩ := h.commitStage
  · rw [hq]
    rfl
  · rw [hr.mode] at hm
    cases hm

theorem Normal.stage1_atCommit (h : Normal todo m) (hm : m.commitStage.exceptionMode = false) :
    m.commitStage.stage1 = m.stage1 := by
  obtain ⟨c, -, -, -, -, ⟨hq, -⟩ | ⟨-, e, -, -, -, -, hr⟩⟩ := h.commitStage
  · rw [hq]
    rfl
  · rw [hr.mode] at hm
    cases hm

/-- **An instruction moves by one stage in a cycle at most.** -/
theorem Normal.staged (uninit : ℕ → UInt8) (hs : Safe m) (h : Normal m.stage1 m)
    (hm : m.commitStage.exceptionMode = false) {b b' : ℕ → ℕ} (hb : ∀ i, b (i + 1) ≤ b i)
    (hb' : ∀ i, b' (i + 1) = b i) (hpc : m.pc ≤ b 0) (hst : Staged b m) :
    Staged b' (m.cycle uninit) := by
  obtain ⟨pre, post, post', new, t, -⟩ := h.turn uninit hs hm
  have hpcs : ∀ j ∈ m.activeList.map (·.pc), j < b 1 := by
    intro j hj
    obtain ⟨e, he, rfl⟩ := List.mem_map.1 hj
    exact hst.active e he
  refine ⟨fun e he => ?_, fun x hx => ?_, fun x hx => ?_, fun e he hd => ?_⟩
  · rw [hb']
    have hmem : e.pc ∈ (m.cycle uninit).activeList.map (·.pc) := List.mem_map_of_mem he
    rw [t.pcs] at hmem
    rcases List.mem_append.1 hmem with hmem | hmem
    · exact (hpcs _ (List.mem_of_mem_drop hmem)).trans_le (hb 0)
    · obtain ⟨e', he', hpc'⟩ := List.mem_map.1 hmem
      have hbelow := h.below _ (List.mem_append_right _ (t.fresh e' he').2)
      exact hpc' ▸ hbelow.trans_le hpc
  · -- what is issued was in the queue
    rw [hb']
    rw [(cycle_queues uninit m).2] at hx
    obtain ⟨en, hen, rfl⟩ := List.mem_map.1 hx
    obtain ⟨en', hen', rfl⟩ := List.mem_map.1 ((select_subset _ _).1 en hen)
    have hq : en' ∈ m.iq := by
      rw [h.iq_atIssue hm] at hen'
      exact hen'
    obtain ⟨e, he, -, hpc', -⟩ := h.entry (mem_flight.2 (.inl ⟨en', hq, rfl⟩))
    have hlt := hst.active e he
    rw [hpc'] at hlt
    exact hlt
  · rw [hb']
    rw [t.stage1] at hx
    exact hst.stage0 x hx
  · rw [hb']
    rcases t.origin he with ⟨e₀, he₀, hpc', hdone⟩ | ⟨hnot, -⟩
    · rcases hdone.1 hd with hd₀ | hst1
      · exact hpc' ▸ (hst.done e₀ he₀ hd₀).trans_le (hb 3)
      · obtain ⟨x, hx, hpc'⟩ := List.mem_map.1 hst1
        exact hpc' ▸ hst.stage1 x hx
    · rw [hnot] at hd
      cases hd

/-! ### After an exception -/

theorem Inv.raised_commitStage (h : Inv m) (hP : m.program.Short)
    (hm : m.commitStage.exceptionMode = true) : Raised m.commitStage := by
  cases hm0 : m.exceptionMode with
  | true => exact (h.raised hP hm0).commitStage h.safe
  | false =>
    obtain ⟨c, -, -, -, hret, ⟨hq, -⟩ | ⟨-, e, -, -, -, -, hr⟩⟩ := (h.normal hm0).commitStage
    · rw [hq, hret.mode] at hm
      cases hm
    · exact hr

theorem Normal.cycle_raises (uninit : ℕ → UInt8) (h : Normal todo m)
    (hm : m.commitStage.exceptionMode = true) : (m.cycle uninit).activeList ≠ [] ∧
      (m.cycle uninit).exceptionStatus.isException = true ∧
      (m.cycle uninit).finished = (m.finished || m.readyToFinish) ∧
      (m.cycle uninit).readyToFinish = m.readyToFinish := by
  obtain ⟨c, -, -, -, hret, ⟨hq, -⟩ | ⟨-, e, he, -, -, hq, hr⟩⟩ := h.commitStage
  · rw [hq, hret.mode] at hm
    cases hm
  · have hok : m.dispatches uninit = true := by
      rw [Machine.dispatches, show m.backEnd = m.commitStage from hr.idle, hr.dispatchStage]
    have hal : (m.cycle uninit).activeList ≠ [] := by
      rw [cycle_of_raised uninit hr, hq]
      change m.activeList.drop c ≠ []
      intro hnil
      obtain ⟨hlt, -⟩ := List.getElem?_eq_some_iff.1 he
      have hlen := congrArg List.length hnil
      rw [List.length_drop, List.length_nil] at hlen
      omega
    obtain ⟨hfin, hready⟩ := cycle_finished hok
    refine ⟨hal, ?_, hfin, ?_⟩
    · rw [(cycle_frame uninit m).2.1, hq]
      rfl
    · rw [hready, List.isEmpty_eq_false_iff.2 hal, Bool.and_false, Bool.false_and, Bool.or_false]

theorem Raised.cycle_rest (uninit : ℕ → UInt8) (hP : m.program.Short) (h : Raised m)
    (hs : Safe m) : (m.cycle uninit).physical = m.physical ∧
      (m.cycle uninit).finished = (m.finished || m.readyToFinish) ∧
      (m.cycle uninit).readyToFinish = (m.readyToFinish || ((m.cycle uninit).activeList.isEmpty &&
        !(m.cycle uninit).exceptionStatus.isException)) := by
  have hr := h.commitStage hs
  have hok : m.dispatches uninit = true := by
    rw [Machine.dispatches, show m.backEnd = m.commitStage from hr.idle, hr.dispatchStage]
  obtain ⟨hfin, hready⟩ := cycle_finished hok
  obtain ⟨-, -, hfetch⟩ := h.cycle_recovers uninit hP hs
  refine ⟨?_, hfin, ?_⟩
  · obtain ⟨e, b, hend⟩ := endException_frame m
    obtain ⟨al, lo, f, b', hrec⟩ := recover_frame instructionsPerCycle m.endException
    rw [cycle_of_raised uninit hr]
    change m.commitStage.physical = m.physical
    rw [Machine.commitStage, if_pos h.mode, hrec, hend]
  · rw [hready, hfetch, decide_eq_true rfl, Bool.true_and]

end

end R10000
