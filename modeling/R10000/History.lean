/-
  What happens in a run, read off the functions of the source: the instructions that
  `commit_cycle` commits, the exceptions that it raises, and the bytes that dispatch hands
  to `free_list_pop`.
-/
import R10000.Refine.Cycle
import R10000.Values

namespace R10000

open Fallible

/-! ## Commits and exceptions -/

/-- The pcs of the entries that a cycle commits: those that `commit_cycle` takes off the head
    of the Active List in the normal mode. -/
def committedPcs (p : Processor) : List ℕ :=
  if p.exceptionMode then []
  else (p.activeList.toList.take
    (p.activeList.count - (endState (commitCycle p)).activeList.count)).map (·.pc)

/-- The pc of the exception that a cycle raises: `commit_cycle` enters the exception mode. -/
def raisedPcs (p : Processor) : List ℕ :=
  if p.exceptionMode then []
  else if (endState (commitCycle p)).exceptionMode then
    [(endState (commitCycle p)).exceptionStatus.exceptionPc]
  else []

section
variable (ready : Bool) (P : Program) (uninit : ℕ → ℕ → UInt8)

/-- The pcs committed in the first `n` cycles. -/
def committed : ℕ → List ℕ
  | 0 => []
  | n + 1 => committed n ++ ((runFrom ready P uninit n).map committedPcs).getD []

/-- The pcs of the exceptions raised in the first `n` cycles. -/
def raised : ℕ → List ℕ
  | 0 => []
  | n + 1 => raised n ++ ((runFrom ready P uninit n).map raisedPcs).getD []

end

/-! ## The uninitialised local of dispatch -/

/-- The state in which a cycle calls `rename_dispatch_cycle`. -/
def atDispatch (p : Processor) : Processor := endState (backEnd p)

/-- Every byte that a cycle hands to `free_list_pop` is below 64: the cycle is stalled, or the
    local holds such a byte in the iterations for the instructions in the DIR. -/
def HandsValid (uninit : ℕ → UInt8) (p : Processor) : Prop :=
  applyBackpressure (atDispatch p) = true ∨
    ∀ i < (atDispatch p).dir.count, (uninit i).toNat < 64

/-- Every byte handed to `free_list_pop` in the first `n` cycles is below 64. -/
def RunHandsValid (ready : Bool) (P : Program) (uninit : ℕ → ℕ → UInt8) (n : ℕ) : Prop :=
  ∀ j < n, ∀ p, runFrom ready P uninit j = some p → HandsValid (uninit j) p

theorem Benign.runHandsValid {uninit : ℕ → ℕ → UInt8} (h : Benign uninit) (ready : Bool)
    (P : Program) (n : ℕ) : RunHandsValid ready P uninit n :=
  fun j _ _ _ => .inr fun i _ => h j i

/-! ## The machine's view -/

section
variable {p : Processor} (hs : Safe (view p))
include hs

theorem view_commitCycle : view (endState (commitCycle p)) = (view p).commitStage := by
  obtain ⟨p', h1, h2⟩ := commitCycle_sim hs
  rw [h1]
  exact h2

theorem view_atDispatch : view (atDispatch p) = (view p).backEnd := by
  obtain ⟨p', h1, h2⟩ := backEnd_sim hs
  rw [atDispatch, h1]
  exact h2

theorem committedPcs_eq :
    committedPcs p = ((view p).activeList.take (view p).commits).map (·.pc) := by
  have h := congrArg (·.activeList.length) (view_commitCycle hs)
  simp only [view, Fifo.length_toList] at h
  unfold committedPcs Machine.commits
  cases hm : p.exceptionMode with
  | true => simp [view, hm]
  | false =>
    have hm' : (view p).exceptionMode = false := hm
    rw [if_neg (by simp), if_neg (by simp [hm']), h]
    simp only [view, Fifo.length_toList]

theorem raisedPcs_eq : raisedPcs p =
    if (view p).exceptionMode then []
    else if (view p).commitStage.exceptionMode then
      [(view p).commitStage.exceptionStatus.exceptionPc]
    else [] := by
  rw [← view_commitCycle hs]
  rfl

end

theorem dispatchLoop_valid (uninit : ℕ → UInt8) : ∀ (n i : ℕ) (m : Machine),
    n ≤ m.dir.length → n ≤ m.freeList.length →
    ((m.dispatchLoop uninit n i).2 = true ↔ ∀ j < n, (uninit (i + j)).toNat < 64)
  | 0, i, m, _, _ => by simp [Machine.dispatchLoop]
  | n + 1, i, m, hd, hf => by
    obtain ⟨x, dir, hx⟩ := List.exists_cons_of_length_pos (Nat.zero_lt_of_lt hd)
    obtain ⟨q, freeList, hq⟩ := List.exists_cons_of_length_pos (Nat.zero_lt_of_lt hf)
    rw [Machine.dispatchLoop]
    simp only [hx, hq, regPhyFileSize]
    rw [hx, List.length_cons] at hd
    rw [hq, List.length_cons] at hf
    split_ifs with hu
    · rw [dispatchLoop_valid uninit n (i + 1) _ (Nat.le_of_succ_le_succ hd)
        (Nat.le_of_succ_le_succ hf)]
      constructor
      · intro h j hj
        rcases j with _ | j
        · exact hu
        · have := h j (by omega)
          rwa [show i + 1 + j = i + (j + 1) by omega] at this
      · intro h j hj
        have := h (j + 1) (by omega)
        rwa [show i + (j + 1) = i + 1 + j by omega] at this
    · simp only [false_iff, not_forall]
      exact ⟨0, Nat.succ_pos n, hu⟩

/-- A dispatch goes through exactly if the bytes that it hands out are valid. -/
theorem dispatchStage_valid {m : Machine} (hs : Safe m) (uninit : ℕ → UInt8) :
    (m.dispatchStage uninit).2 = true ↔
      m.stalled = true ∨ ∀ i < m.dir.length, (uninit i).toNat < 64 := by
  unfold Machine.dispatchStage
  cases hst : m.stalled with
  | true => simp
  | false =>
    have hroom := hs.room hst
    simp only [Bool.false_eq_true, if_false, false_or]
    rw [dispatchLoop_valid uninit _ 0 _ (by exact le_rfl) (by exact hroom.1)]
    simp

theorem handsValid_iff {p : Processor} (hs : Safe (view p)) (uninit : ℕ → UInt8) :
    HandsValid uninit p ↔ (view p).dispatches uninit = true := by
  rw [Machine.dispatches, dispatchStage_valid hs.backEnd, HandsValid, view_stalled,
    view_atDispatch hs, ← view_atDispatch hs]
  simp only [view, Fifo.length_toList]

/-! ## Runs -/

section
variable {ready : Bool} {P : Program} {uninit : ℕ → ℕ → UInt8}

theorem runFrom_program : ∀ n, (Machine.runFrom ready P uninit n).program = P
  | 0 => rfl
  | n + 1 => by
    rw [Machine.runFrom, (cycle_frame _ _).2.2, commitStage_program, runFrom_program n]

theorem program_runFrom (hP : P.WellFormed) {n : ℕ} {p : Processor}
    (hr : runFrom ready P uninit n = some p) : p.program = P := by
  rw [show p.program = (view p).program from rfl, view_runFrom hP hr, runFrom_program]

theorem inv_runFrom (hP : P.WellFormed) {n : ℕ} {p : Processor}
    (hr : runFrom ready P uninit n = some p) : Inv (view p) :=
  view_runFrom hP hr ▸ Inv.runFrom hP ready uninit n

/-- **In a run whose bytes are valid the machine is correct**: it has committed the
    instructions `0, 1, …`, and holds their results. -/
theorem correct_runFrom (hP : P.WellFormed) : ∀ n, RunHandsValid ready P uninit n →
    Correct (committed ready P uninit n).length (.runFrom ready P uninit n)
  | 0, _ => .initial hP ready
  | n + 1, h => by
    obtain ⟨p, h1, h2⟩ := runFrom_ok hP ready uninit n
    have hs := safe_runFrom hP h1
    have ih := correct_runFrom hP n fun j hj => h j (Nat.lt_succ_of_lt hj)
    have hok := (handsValid_iff hs _).1 (h n (Nat.lt_succ_self n) p h1)
    rw [h2] at hok
    have hc := ih.cycle (uninit n) hok
    have hlen : (committedPcs p).length = (Machine.runFrom ready P uninit n).commits := by
      rw [committedPcs_eq hs, h2, List.length_map, List.length_take, Machine.commits]
      split_ifs <;> omega
    rw [committed, h1, List.length_append, Option.map_some, Option.getD_some, hlen]
    exact hc

/-- In the normal mode the instructions committed are the first ones of the program. -/
theorem committed_eq (hP : P.WellFormed) : ∀ n, RunHandsValid ready P uninit n →
    committed ready P uninit n = List.range' 0 (committed ready P uninit n).length
  | 0, _ => rfl
  | n + 1, h => by
    obtain ⟨p, h1, h2⟩ := runFrom_ok hP ready uninit n
    have hs := safe_runFrom hP h1
    have h' : RunHandsValid ready P uninit n := fun j hj => h j (Nat.lt_succ_of_lt hj)
    have ih := committed_eq hP n h'
    have hc := correct_runFrom hP n h'
    rw [committed, h1, Option.map_some, Option.getD_some, committedPcs_eq hs, h2]
    cases hm : (Machine.runFrom ready P uninit n).exceptionMode with
    | true =>
      rw [Machine.commits, if_pos hm, List.take_zero, List.map_nil, List.append_nil]
      exact ih
    | false =>
      have hi := (hc.val hm).2.active
      rw [List.length_append, ← List.range'_append_1, ← ih, Nat.zero_add, List.map_take, hi]
      congr 1
      rw [List.take_range'_of_length_ge (by
          rw [Machine.commits, if_neg (by simp [hm])]; omega), List.length_range']

/-- The exceptions raised so far are at most one, the one in the status. -/
theorem raised_eq (hP : P.WellFormed) : ∀ n, raised ready P uninit n =
    if (Machine.runFrom ready P uninit n).exceptionMode then
      [(Machine.runFrom ready P uninit n).exceptionStatus.exceptionPc] else []
  | 0 => rfl
  | n + 1 => by
    obtain ⟨p, h1, h2⟩ := runFrom_ok hP ready uninit n
    have hs := safe_runFrom hP h1
    have ih := raised_eq hP n
    obtain ⟨hmode, hstatus, -⟩ := cycle_frame (uninit n) (Machine.runFrom ready P uninit n)
    rw [raised, h1, Option.map_some, Option.getD_some, raisedPcs_eq hs, h2, ih,
      Machine.runFrom, hmode, hstatus]
    cases hm : (Machine.runFrom ready P uninit n).exceptionMode with
    | true =>
      have hc : (Machine.runFrom ready P uninit n).commitStage.exceptionStatus.exceptionPc =
          (Machine.runFrom ready P uninit n).exceptionStatus.exceptionPc := by
        obtain ⟨e, bp, al, lo, f, b, hc⟩ := commitStage_frame hm
        rw [hc]
      simp [commitStage_mode hm, hc]
    | false => simp

/-- After an exception nothing is committed any more. -/
theorem committed_of_raised (hP : P.WellFormed) {n : ℕ}
    (hm : (Machine.runFrom ready P uninit n).exceptionMode = true) :
    ∀ n', n ≤ n' → (Machine.runFrom ready P uninit n').exceptionMode = true ∧
      committed ready P uninit n' = committed ready P uninit n := by
  intro n' hn
  induction n', hn using Nat.le_induction with
  | base => exact ⟨hm, rfl⟩
  | succ n' _ ih =>
    obtain ⟨p, h1, h2⟩ := runFrom_ok hP ready uninit n'
    refine ⟨?_, ?_⟩
    · rw [Machine.runFrom, (cycle_frame _ _).1]
      exact commitStage_mode ih.1
    · have hp : p.exceptionMode = true := by
        have := ih.1
        rwa [← h2] at this
      rw [committed, h1, Option.map_some, Option.getD_some, committedPcs, if_pos hp,
        List.append_nil]
      exact ih.2

end

end R10000
