/-
  The queue of `data_structures.c` is a bounded list, over every sequence of operations
  from its initialisation on.
-/
import R10000.Lib.BoundedList
import R10000.Queue

namespace R10000

open BoundedList Fallible Mealy

/-- The error code of a failing operation. -/
def errorCode : Failure → ErrorCode
  | .full => .queueFull
  | .empty => .queueEmpty
  | .index => .queueInvalidIndex

section
variable {α : Type} [Inhabited α]

/-- A call of a function of the queue: the element that it returns, if any. -/
def Queue.call : Op α → QueueM α (Option α)
  | .push x => do queuePush x; return none
  | .pop => do return some (← queuePop)
  | .peek i => do return some (← queuePeekLogical i)
  | .delete i => do return some (← queuePopLogical i)
  | .update i x => do queueUpdateLogical i x; return none
  | .flush => do queueFlush; return none

/-- One call on the queue `q`: what it returns, and the queue after it, in which an error leaves
    what was written before it. -/
def Queue.step (q : Queue α) (op : Op α) : Except ErrorCode (Option α) × Queue α :=
  match Queue.call op q with
  | .ok x q' => (.ok x, q')
  | .error e q' => (.error e, q')

theorem Queue.step_ok {q q' : Queue α} {op : Op α} {x : Option α}
    (h : Queue.call op q = .ok x q') : q.step op = (.ok x, q') := by
  rw [step, h]

theorem Queue.step_of_error {q q' : Queue α} {op : Op α} {e : ErrorCode}
    (h : Queue.call op q = .error e q') : q.step op = (.error e, q') := by
  rw [step, h]

/-- **One call of a queue is one step of the bounded list.** -/
theorem Queue.step_refines {q : Queue α} {cap : ℕ} (h : q.Ok ∧ q.capacity = cap) (op : Op α) :
    (q.step op).1 = (BoundedList.step cap q.toList op).1.mapError errorCode ∧
      (q.step op).2.toList = (BoundedList.step cap q.toList op).2 ∧
      (q.step op).2.Ok ∧ (q.step op).2.capacity = cap := by
  obtain ⟨hok, rfl⟩ := h
  have hle := hok.count_le
  cases op with
  | push x =>
    by_cases hc : q.count < q.capacity
    · obtain ⟨q', h1, h2, h3, h4⟩ := queuePush_ok hok hc x
      rw [Queue.step_ok (bind_ok h1)]
      simp only [BoundedList.step, Queue.length_toList, if_pos hc]
      exact ⟨rfl, h4, h2, h3⟩
    · have h1 := queuePush_full (show q.count = q.capacity by omega) x
      rw [Queue.step_of_error (bind_error h1)]
      simp only [BoundedList.step, Queue.length_toList, if_neg hc]
      exact ⟨rfl, trivial, hok, trivial⟩
  | pop =>
    cases hl : q.toList with
    | nil =>
      have hc : q.count = 0 := by rw [← Queue.length_toList, hl]; rfl
      rw [Queue.step_of_error (bind_error (queuePop_empty hc))]
      exact ⟨rfl, hl, hok, rfl⟩
    | cons x xs =>
      obtain ⟨q', h1, h2, h3, h4⟩ := queuePop_ok hok hl
      rw [Queue.step_ok (bind_ok h1)]
      exact ⟨rfl, h4, h2, h3⟩
  | peek i =>
    have h1 := queuePeekLogical_eq hok i
    by_cases hi : i < q.toList.length
    · rw [dif_pos hi] at h1
      rw [Queue.step_ok (bind_ok h1)]
      simp only [BoundedList.step, dif_pos hi]
      exact ⟨rfl, trivial, hok, trivial⟩
    · rw [dif_neg hi] at h1
      rw [Queue.step_of_error (bind_error h1)]
      simp only [BoundedList.step, dif_neg hi]
      exact ⟨rfl, trivial, hok, trivial⟩
  | delete i =>
    by_cases hi : i < q.toList.length
    · obtain ⟨q', h1, h2, h3, h4⟩ := queuePopLogical_ok hok hi
      rw [Queue.step_ok (bind_ok h1)]
      simp only [BoundedList.step, dif_pos hi]
      exact ⟨rfl, h4, h2, h3⟩
    · rw [Queue.step_of_error (bind_error (queuePopLogical_invalid hi))]
      simp only [BoundedList.step, dif_neg hi]
      exact ⟨rfl, trivial, hok, trivial⟩
  | update i x =>
    by_cases hi : i < q.toList.length
    · obtain ⟨q', h1, h2, h3, h4⟩ := queueUpdateLogical_ok hok hi x
      rw [Queue.step_ok (bind_ok h1)]
      simp only [BoundedList.step, if_pos hi]
      exact ⟨rfl, h4, h2, h3⟩
    · rw [Queue.step_of_error (bind_error (queueUpdateLogical_invalid hi x))]
      simp only [BoundedList.step, if_neg hi]
      exact ⟨rfl, trivial, hok, trivial⟩
  | flush =>
    obtain ⟨q', h1, h2, h3, h4⟩ := queueFlush_ok hok
    rw [Queue.step_ok (bind_ok h1)]
    exact ⟨rfl, h4, h2, h3⟩

theorem Queue.call_atomic (op : Op α) : Atomic (Queue.call op) := by
  cases op with
  | push x => exact (queuePush_atomic x).bind_pure _
  | pop => exact queuePop_atomic.bind_pure _
  | peek i => exact (queuePeekLogical_atomic i).bind_pure _
  | delete i => exact (queuePopLogical_atomic i).bind_pure _
  | update i x => exact (queueUpdateLogical_atomic i x).bind_pure _
  | flush => intro q e q' h; cases h

/-- A failing call leaves the queue unchanged: every function checks before it writes. -/
theorem Queue.step_error {q : Queue α} {op : Op α} {e : ErrorCode} (h : (q.step op).1 = .error e) :
    (q.step op).2 = q := by
  cases hc : Queue.call op q with
  | ok x q' => rw [Queue.step_ok hc] at h; cases h
  | error e' q' =>
    rw [Queue.step_of_error hc]
    exact Queue.call_atomic op hc

/-- **The ring buffer is a bounded list.**  After any sequence of calls on an initialised
    queue, the fields are in range, the contents are those of the bounded list, every call
    has returned what the bounded list returns, and a failing call changes nothing. -/
theorem queue_is_bounded_list {capacity size : ℕ} {q₀ : Queue α}
    (h : initQueue capacity size = .ok q₀) (ops : List (Op α)) :
    ∃ outputs q, runWith Queue.step q₀ ops = (outputs, q) ∧ q.capacity = capacity ∧
      q.head < capacity ∧ q.tail < capacity ∧ q.count ≤ capacity ∧
      q.tail = (q.head + q.count) % capacity ∧
      q.toList = (List.range q.count).map (fun i => q.cell ((q.head + i) % capacity)) ∧
      q.toList = (runWith (BoundedList.step capacity) [] ops).2 ∧
      outputs = (runWith (BoundedList.step capacity) [] ops).1.map (·.mapError errorCode) ∧
      ∀ op e, (q.step op).1 = .error e → (q.step op).2 = q := by
  obtain ⟨hok, hcap, hnil⟩ := initQueue_ok h
  obtain ⟨h1, h2, h3, h4⟩ := runWith_refines Queue.toList
    (fun q op hq => Queue.step_refines hq op) ops q₀ ⟨hok, hcap⟩
  rw [hnil] at h1 h2
  refine ⟨_, _, rfl, h4, ?_, ?_, ?_, ?_, ?_, h2, h1, fun op e he => Queue.step_error he⟩
  · exact h4 ▸ h3.head_lt
  · exact h4 ▸ h3.tail_lt
  · exact h4 ▸ h3.count_le
  · exact h4 ▸ h3.tail_eq
  · rw [Queue.toList, h4]; rfl

/-- A queue of two bytes, in which a push into the full queue fails. -/
theorem queue_is_bounded_list_two : ∃ outputs q,
    runWith Queue.step (⟨0, 0, 0, 2, 1, #[0, 0]⟩ : Queue UInt8)
      [.push 5, .push 6, .push 7, .delete 0, .peek 0] = (outputs, q) ∧ q.capacity = 2 ∧
      q.head < 2 ∧ q.tail < 2 ∧ q.count ≤ 2 ∧ q.tail = (q.head + q.count) % 2 ∧
      q.toList = (List.range q.count).map (fun i => q.cell ((q.head + i) % 2)) ∧
      q.toList = (runWith (BoundedList.step 2) []
        [.push 5, .push 6, .push 7, .delete 0, .peek 0]).2 ∧
      outputs = (runWith (BoundedList.step 2) []
        [.push 5, .push 6, .push 7, .delete 0, .peek 0]).1.map (·.mapError errorCode) ∧
      ∀ op e, (q.step op).1 = .error e → (q.step op).2 = q :=
  queue_is_bounded_list (show initQueue 2 1 = .ok _ by decide) _

end

end R10000
