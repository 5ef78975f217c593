/-
  Commit: `commit_cycle` retires the longest prefix of the Active List that it may, at most
  four entries of it, and raises the exception of the next entry if that is what stops it.
-/
import R10000.Results.Safety

namespace R10000

open Fallible

/-! ## What commit does -/

/-- An entry that commit retires. -/
def retires (e : ActiveListEntry) : Bool := e.isDone && !e.isException

/-- The number of entries that are retired, `n` at most. -/
def retireCount (n : ℕ) (l : List ActiveListEntry) : ℕ := min n (l.takeWhile retires).length

/-- Commit stops before `n` entries, at the exception `e`. -/
def Raises (n : ℕ) (l : List ActiveListEntry) (e : ActiveListEntry) : Prop :=
  retireCount n l < n ∧ l[retireCount n l]? = some e ∧ e.isDone = true ∧ e.isException = true

/-- From `p` to `q`, the oldest `c` entries leave the Active List and their old registers
    become free. -/
structure Retired (c : ℕ) (p q : Processor) : Prop where
  activeList : q.activeList.toList = p.activeList.toList.drop c
  freeList : q.freeList.toList =
    p.freeList.toList ++ (p.activeList.toList.take c).map (·.oldPhyDest)

/-- Besides the Active List and the Free List, everything is as before. -/
def OnlyRetired (p q : Processor) : Prop :=
  q = { p with activeList := q.activeList, freeList := q.freeList }

/-- Besides the Active List and the Free List, the exception of `e` is recorded, the pipeline
    is empty and fetch is held off at the handler, and everything else is as before. -/
structure AlsoRaised (e : ActiveListEntry) (p q : Processor) : Prop where
  dir : q.dir.toList = []
  iq : q.iq.toList = []
  alus : ∀ i, q.alus.get i = ⟨bubble, bubble⟩
  frame : q = { p with
    activeList := q.activeList
    freeList := q.freeList
    exceptionStatus := ⟨true, e.pc⟩
    exceptionMode := true
    backpressure := true
    pc := 0x10000
    dir := q.dir
    iq := q.iq
    alus := q.alus }

/-! ## The prefix -/

section
variable {n : ℕ} {e : ActiveListEntry} {rest : List ActiveListEntry}

theorem retireCount_cons (h : retires e = true) :
    retireCount (n + 1) (e :: rest) = retireCount n rest + 1 := by
  rw [retireCount, retireCount, List.takeWhile_cons, if_pos h, List.length_cons,
    Nat.add_min_add_right]

theorem retireCount_stop (h : retires e = false) : retireCount n (e :: rest) = 0 := by
  rw [retireCount, List.takeWhile_cons, if_neg (by simp [h]), List.length_nil, Nat.min_zero]

theorem raises_cons (h : retires e = true) {e' : ActiveListEntry} :
    Raises (n + 1) (e :: rest) e' ↔ Raises n rest e' := by
  rw [Raises, retireCount_cons h, List.getElem?_cons_succ, Nat.add_lt_add_iff_right, Raises]

/-- At an entry that is not retired, commit raises the exception if there is one. -/
theorem raises_stop (h : retires e = false) {e' : ActiveListEntry} :
    Raises (n + 1) (e :: rest) e' ↔ e = e' ∧ e.isDone = true ∧ e.isException = true := by
  rw [Raises, retireCount_stop h, List.getElem?_cons_zero, Option.some.injEq]
  constructor
  · rintro ⟨-, rfl, hd, he⟩
    exact ⟨rfl, hd, he⟩
  · rintro ⟨rfl, hd, he⟩
    exact ⟨Nat.succ_pos n, rfl, hd, he⟩

theorem not_raises_nil {e' : ActiveListEntry} : ¬ Raises n [] e' := by
  rintro ⟨-, h, -⟩
  cases h

end

/-! ## The loop -/

/-- What `n` iterations of the loop of `commit_cycle` do. -/
def LoopCommits (n : ℕ) (p : Processor) : Prop :=
  ∃ activeList freeList,
    Retired (retireCount n p.activeList.toList) p { p with activeList, freeList } ∧
    ((∀ e, ¬ Raises n p.activeList.toList e) →
      commitLoop n p = .ok () { p with activeList, freeList }) ∧
    ∀ e, Raises n p.activeList.toList e →
      commitLoop n p = .ok () (raiseException { p with activeList, freeList } e)

section
variable {n : ℕ} {p : Processor} {e : ActiveListEntry} {rest : List ActiveListEntry}

theorem retired_zero (p : Processor) : Retired 0 p p where
  activeList := List.drop_zero.symm
  freeList := by rw [List.take_zero, List.map_nil, List.append_nil]

/-- The entries that are retired after the oldest one. -/
theorem Retired.cons {c : ℕ} {q r : Processor} (hl : p.activeList.toList = e :: rest)
    (hal : q.activeList.toList = rest)
    (hfl : q.freeList.toList = p.freeList.toList ++ [e.oldPhyDest]) (h : Retired c q r) :
    Retired (c + 1) p r where
  activeList := by rw [h.activeList, hal, hl, List.drop_succ_cons]
  freeList := by
    rw [h.freeList, hfl, hal, hl, List.take_succ_cons, List.map_cons, List.append_assoc,
      List.singleton_append]

theorem loopCommits_zero (p : Processor) : LoopCommits 0 p := by
  refine ⟨p.activeList, p.freeList, ?_, fun _ => rfl, fun e h => ?_⟩
  · rw [retireCount, Nat.zero_min]
    exact retired_zero p
  · exact absurd h.1 (Nat.not_lt_zero _)

theorem loopCommits_nil (hl : p.activeList.toList = []) : LoopCommits (n + 1) p := by
  refine ⟨p.activeList, p.freeList, ?_, fun _ => ?_, fun e h => ?_⟩
  · rw [hl]
    exact retired_zero p
  · rw [commitLoop, bind_ok (commitIteration_empty hl)]
    rfl
  · rw [hl] at h
    exact absurd h not_raises_nil

/-- The loop stops at an entry that is not retired, and raises its exception if it has one. -/
theorem loopCommits_stop (hl : p.activeList.toList = e :: rest) (hret : retires e = false) :
    LoopCommits (n + 1) p := by
  unfold LoopCommits
  rw [hl, retireCount_stop hret, commitLoop]
  refine ⟨p.activeList, p.freeList, retired_zero p, fun h => ?_, fun e' h => ?_⟩
  · have hd : e.isDone = false := by
      by_contra hd
      rw [Bool.not_eq_false] at hd
      have he : e.isException = true := by simpa [retires, hd] using hret
      exact h e ((raises_stop hret).2 ⟨rfl, hd, he⟩)
    rw [bind_ok (commitIteration_wait hl hd)]
    rfl
  · obtain ⟨rfl, hd, he⟩ := (raises_stop hret).1 h
    rw [bind_ok (commitIteration_raise_ok hl hd he)]
    rfl

/-- The loop goes on behind an entry that is retired. -/
theorem loopCommits_retire {activeList : ActiveList} {freeList : FreeList}
    (hl : p.activeList.toList = e :: rest) (hret : retires e = true)
    (hal : activeList.toList = rest)
    (hfl : freeList.toList = p.freeList.toList ++ [e.oldPhyDest])
    (hit : commitIteration p = .ok true { p with activeList, freeList })
    (h : LoopCommits n { p with activeList, freeList }) : LoopCommits (n + 1) p := by
  obtain ⟨al, fl, hlists, hnot, hraise⟩ := h
  simp only [hal] at hlists hnot hraise
  unfold LoopCommits
  rw [hl, retireCount_cons hret, commitLoop, bind_ok hit]
  refine ⟨al, fl, hlists.cons hl hal hfl, fun h => ?_, fun e' h => ?_⟩
  · exact hnot fun e' h' => h e' ((raises_cons hret).2 h')
  · exact hraise e' ((raises_cons hret).1 h)

end

/-- **What the loop does**, by the entry at the head of the Active List. -/
theorem loopCommits : ∀ (n : ℕ) (p : Processor),
    p.freeList.count + p.activeList.count ≤ freeListSize →
    (∀ e ∈ p.activeList.toList, e.oldPhyDest.toNat < regPhyFileSize) → LoopCommits n p
  | 0, p, _, _ => loopCommits_zero p
  | n + 1, p, hroom, hold => by
    rcases hl : p.activeList.toList with _ | ⟨e, rest⟩
    · exact loopCommits_nil hl
    · cases hret : retires e with
      | false => exact loopCommits_stop hl hret
      | true =>
        have hde := hret
        rw [retires, Bool.and_eq_true, Bool.not_eq_true'] at hde
        have hlen : p.freeList.toList.length + (rest.length + 1) ≤ 32 := by
          rw [← Fifo.length_toList, ← Fifo.length_toList, hl] at hroom
          exact hroom
        obtain ⟨fl, al, hit, hfl, hal⟩ := commitIteration_retire_ok hl hde.1 hde.2
          (hold e (by rw [hl]; exact List.mem_cons_self)) (by omega)
        refine loopCommits_retire hl hret hal hfl hit (loopCommits n _ ?_ fun e' he' => ?_)
        · rw [← Fifo.length_toList, ← Fifo.length_toList, hfl, hal, List.length_append]
          exact (Nat.add_right_comm _ _ _).trans_le hlen
        · rw [hal] at he'
          exact hold e' (by rw [hl]; exact List.mem_cons_of_mem _ he')

theorem raiseException_also (p : Processor) (activeList : ActiveList) (freeList : FreeList)
    (e : ActiveListEntry) :
    AlsoRaised e p (raiseException { p with activeList, freeList } e) where
  dir := Fifo.toList_flush _
  iq := Fifo.toList_flush _
  alus := fun i => Vector.getElem_map aluFlush i.isLt
  frame := rfl

/-- **Commit retires exactly the right prefix**, in every state of the normal mode whose Free
    List has room for the old registers of the Active List, which are valid; and so it is in
    every state of every run. -/
theorem commit_retires_prefix :
    (∀ p : Processor, p.exceptionMode = false →
      p.freeList.count + p.activeList.count ≤ freeListSize →
      (∀ e ∈ p.activeList.toList, e.oldPhyDest.toNat < 64) →
      ∃ q, commitCycle p = .ok () q ∧ Retired (retireCount 4 p.activeList.toList) p q ∧
        ((∀ e, ¬ Raises 4 p.activeList.toList e) → OnlyRetired p q) ∧
        ∀ e, Raises 4 p.activeList.toList e → AlsoRaised e p q) ∧
    ∀ P : Program, P.WellFormed → ∀ ready uninit n p, runFrom ready P uninit n = some p →
      p.freeList.count + p.activeList.count ≤ freeListSize ∧
      ∀ e ∈ p.activeList.toList, e.oldPhyDest.toNat < 64 := by
  refine ⟨fun p hm hroom hold => ?_, fun P hP ready uninit n p hp => ?_⟩
  · obtain ⟨al, fl, hlists, hnot, hraise⟩ := loopCommits instructionsPerCycle p hroom hold
    have hloop : commitCycle p = commitLoop instructionsPerCycle p := by simp [commitCycle, hm]
    rw [hloop]
    by_cases h : ∃ e, Raises 4 p.activeList.toList e
    · obtain ⟨e, he⟩ := h
      refine ⟨_, hraise e he, ⟨hlists.activeList, hlists.freeList⟩, fun hno => ?_, fun e' he' => ?_⟩
      · exact absurd he (hno e)
      · obtain rfl : e = e' := Option.some.inj (he.2.1.symm.trans he'.2.1)
        exact raiseException_also p al fl e
    · rw [not_exists] at h
      exact ⟨_, hnot h, hlists, fun _ => rfl, fun e he => absurd he (h e)⟩
  · have hs := safe_runFrom hP hp
    have hlen := hs.length_eq
    simp only [view, Fifo.length_toList] at hlen
    exact ⟨hlen.le, fun e he => hs.old_lt he⟩

/-- The division is alone in the Active List, and its exception is raised. -/
theorem commit_retires_prefix_small : ∃ p q e, run smallProgram (fun _ _ => 0) 9 = some p ∧
    p.activeList.toList = [e] ∧ e.pc = 2 ∧ commitCycle p = .ok () q ∧ Retired 0 p q ∧
    AlsoRaised e p q := by
  have hrun : (run smallProgram (fun _ _ => 0) 9).map (fun p => (p.exceptionMode,
      p.activeList.toList.map fun e => (e.isDone, e.isException, e.pc))) =
      some (false, [(true, true, 2)]) := by
    decide +kernel
  obtain ⟨p, hp, h⟩ := Option.map_eq_some_iff.1 hrun
  rw [Prod.mk.injEq] at h
  obtain ⟨e, hl, he⟩ := List.map_eq_singleton_iff.1 h.2
  simp only [Prod.mk.injEq] at he
  obtain ⟨hroom, hold⟩ :=
    commit_retires_prefix.2 smallProgram smallProgram_wellFormed false _ 9 p hp
  obtain ⟨q, hq, hret, -, hraise⟩ := commit_retires_prefix.1 p h.1 hroom hold
  have hstop : retires e = false := by rw [retires, he.1, he.2.1]; rfl
  rw [hl, retireCount_stop hstop] at hret
  rw [hl] at hraise
  exact ⟨p, q, e, hp, hl, he.2.2, hq, hret,
    hraise e ((raises_stop hstop).2 ⟨rfl, he.1, he.2.1⟩)⟩

end R10000
