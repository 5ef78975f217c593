/-
  The FIFO queue of `data_structures.c`: a ring buffer in an array of `capacity`
  elements.

  * `Queue` is `queue_t`, its fields `size_t` values; `queuePush`, `queuePop`,
    `queuePeekLogical`, `queuePopLogical`, `queueUpdateLogical` and `queueFlush` are
    the functions of the source, programs on a queue that write its fields one after
    the other, with the `size_t` arithmetic modulo `2 ^ 64`;
  * `Queue.Ok` is what `initQueue` establishes and every operation keeps;
  * `Fifo α cap` is a queue with its invariant and a fixed capacity; each operation
    on it is the operation of the source on the queue inside, and acts on the list
    `toList` of the elements as its name says.
-/
import R10000.Error
import R10000.Lib.Fallible
import R10000.Lib.Ring

namespace R10000

open Fallible

/-! ## `size_t` arithmetic -/

/-- Addition of `size_t` values. -/
def sizeAdd (a b : ℕ) : ℕ := (a + b) % 2 ^ 64

/-- Subtraction of `size_t` values, wrapping around below zero. -/
def sizeSub (a b : ℕ) : ℕ := (a + 2 ^ 64 - b) % 2 ^ 64

theorem sizeAdd_eq {a b : ℕ} (h : a + b < 2 ^ 64) : sizeAdd a b = a + b := Nat.mod_eq_of_lt h

theorem sizeSub_eq {a b : ℕ} (ha : a < 2 ^ 64) (h : b ≤ a) : sizeSub a b = a - b := by
  unfold sizeSub; omega

/-! ## The functions of the source -/

/-- `queue_t`: `data` has room for `capacity` elements of `size_of_element` bytes each. -/
structure Queue (α : Type) where
  head : ℕ
  tail : ℕ
  count : ℕ
  capacity : ℕ
  sizeOfElement : ℕ
  data : Array α
  deriving DecidableEq, Repr

variable {α : Type}

/-- The cell of a logical index (0 = head). -/
def Queue.logicalIndex (q : Queue α) (index : ℕ) : ℕ := sizeAdd q.head index % q.capacity

variable [Inhabited α]

/-- `init_queue`; the `calloc` of glibc refuses objects of `2 ^ 63` bytes or more, and zero
    bytes are the default element. -/
def initQueue (capacity sizeOfElement : ℕ) : Except ErrorCode (Queue α) :=
  if capacity = 0 ∨ sizeOfElement = 0 then .error .queueInit
  else if capacity > (2 ^ 64 - 1) / sizeOfElement then .error .bufferOverflow
  else if capacity * sizeOfElement ≥ 2 ^ 63 then .error .memAlloc
  else .ok ⟨0, 0, 0, capacity, sizeOfElement, Array.replicate capacity default⟩

/-- The element in cell `i` of the data. -/
def Queue.cell (q : Queue α) (i : ℕ) : α := q.data[i]?.getD default

/-- A function of the source on a queue: it writes the fields, and returns a value or stops with
    an error code. -/
abbrev QueueM (α : Type) := EStateM ErrorCode (Queue α)

/-- `queue_push` -/
def queuePush (x : α) : QueueM α Unit := do
  let q ← get
  if q.count = q.capacity then
    throw .queueFull
  else
    modify fun q => { q with data := q.data.setIfInBounds q.tail x }
    modify fun q => { q with tail := sizeAdd q.tail 1 % q.capacity }
    modify fun q => { q with count := q.count + 1 }

/-- `queue_pop` -/
def queuePop : QueueM α α := do
  let q ← get
  if q.count = 0 then
    throw .queueEmpty
  else
    let x := q.cell q.head
    modify fun q => { q with head := sizeAdd q.head 1 % q.capacity }
    modify fun q => { q with count := q.count - 1 }
    return x

/-- `queue_peek_logical` -/
def queuePeekLogical (index : ℕ) : QueueM α α := do
  let q ← get
  if index ≥ q.count then
    throw .queueInvalidIndex
  else
    return q.cell (q.logicalIndex index)

/-- The loop of `queue_pop_logical`: `n` elements from logical index `i + 1` on each move one
    place towards the head, the first of them into the cell `logical`. -/
def shiftLeft (q : Queue α) : (n i logical : ℕ) → Array α → Array α
  | 0, _, _, data => data
  | n + 1, i, logical, data =>
    let next := sizeAdd (sizeAdd q.head i) 1 % q.capacity
    shiftLeft q n (i + 1) next (data.setIfInBounds logical (data[next]?.getD default))

/-- `queue_pop_logical` -/
def queuePopLogical (index : ℕ) : QueueM α α := do
  let q ← get
  if index ≥ q.count then
    throw .queueInvalidIndex
  else
    let logical := q.logicalIndex index
    let x := q.cell logical
    modify fun q => { q with data := shiftLeft q (q.count - 1 - index) index logical q.data }
    modify fun q => { q with tail := sizeAdd (sizeSub q.tail 1) q.capacity % q.capacity }
    modify fun q => { q with count := q.count - 1 }
    return x

/-- `queue_update_logical` -/
def queueUpdateLogical (index : ℕ) (x : α) : QueueM α Unit := do
  let q ← get
  if index ≥ q.count then
    throw .queueInvalidIndex
  else
    modify fun q => { q with data := q.data.setIfInBounds (q.logicalIndex index) x }

/-- `queue_is_empty` -/
def queueIsEmpty (q : Queue α) : Bool := q.count = 0

/-- `queue_flush` -/
def queueFlush : QueueM α Unit := modify fun q => { q with head := 0, tail := 0, count := 0 }

section
variable (q : Queue α) (x : α) (index : ℕ)

omit [Inhabited α] in
theorem queuePush_run : queuePush x q =
    if q.count = q.capacity then .error .queueFull q
    else .ok () { q with
      data := q.data.setIfInBounds q.tail x
      tail := sizeAdd q.tail 1 % q.capacity
      count := q.count + 1 } := by
  rw [queuePush, get_bind]
  split_ifs
  · rfl
  · rfl

theorem queuePop_run : queuePop q =
    if q.count = 0 then .error .queueEmpty q
    else .ok (q.cell q.head) { q with
      head := sizeAdd q.head 1 % q.capacity
      count := q.count - 1 } := by
  rw [queuePop, get_bind]
  split_ifs
  · rfl
  · rfl

theorem queuePeekLogical_run : queuePeekLogical index q =
    if index ≥ q.count then .error .queueInvalidIndex q
    else .ok (q.cell (q.logicalIndex index)) q := by
  rw [queuePeekLogical, get_bind]
  split_ifs
  · rfl
  · rfl

theorem queuePopLogical_run : queuePopLogical index q =
    if index ≥ q.count then .error .queueInvalidIndex q
    else .ok (q.cell (q.logicalIndex index)) { q with
      data := shiftLeft q (q.count - 1 - index) index (q.logicalIndex index) q.data
      tail := sizeAdd (sizeSub q.tail 1) q.capacity % q.capacity
      count := q.count - 1 } := by
  rw [queuePopLogical, get_bind]
  split_ifs
  · rfl
  · rfl

omit [Inhabited α] in
theorem queueUpdateLogical_run : queueUpdateLogical index x q =
    if index ≥ q.count then .error .queueInvalidIndex q
    else .ok () { q with data := q.data.setIfInBounds (q.logicalIndex index) x } := by
  rw [queueUpdateLogical, get_bind]
  split_ifs
  · rfl
  · rfl

end

/-! ### Every function checks before it writes -/

omit [Inhabited α] in
theorem queuePush_atomic (x : α) : Atomic (queuePush x) := by
  intro q e q' h
  rw [queuePush_run] at h
  split_ifs at h
  cases h; rfl

theorem queuePop_atomic : Atomic (queuePop : QueueM α α) := by
  intro q e q' h
  rw [queuePop_run] at h
  split_ifs at h
  cases h; rfl

theorem queuePeekLogical_atomic (index : ℕ) : Atomic (queuePeekLogical index : QueueM α α) := by
  intro q e q' h
  rw [queuePeekLogical_run] at h
  split_ifs at h
  cases h; rfl

theorem queuePopLogical_atomic (index : ℕ) : Atomic (queuePopLogical index : QueueM α α) := by
  intro q e q' h
  rw [queuePopLogical_run] at h
  split_ifs at h
  cases h; rfl

omit [Inhabited α] in
theorem queueUpdateLogical_atomic (index : ℕ) (x : α) : Atomic (queueUpdateLogical index x) := by
  intro q e q' h
  rw [queueUpdateLogical_run] at h
  split_ifs at h
  cases h; rfl

/-! ## The invariant -/

namespace Queue

/-- The invariant of an initialised queue. -/
structure Ok {α : Type} (q : Queue α) : Prop where
  cap_lt : q.capacity < 2 ^ 63
  size_data : q.data.size = q.capacity
  head_lt : q.head < q.capacity
  count_le : q.count ≤ q.capacity
  tail_eq : q.tail = (q.head + q.count) % q.capacity

/-- The elements of the queue, from the head on. -/
def toList (q : Queue α) : List α := Ring.contents q.capacity q.cell q.head q.count

@[simp] theorem length_toList (q : Queue α) : q.toList.length = q.count := Ring.contents_length

omit [Inhabited α] in
theorem Ok.tail_lt {q : Queue α} (h : q.Ok) : q.tail < q.capacity :=
  h.tail_eq ▸ Nat.mod_lt _ (Nat.zero_lt_of_lt h.head_lt)

omit [Inhabited α] in
theorem Ok.tail_slot {q : Queue α} (h : q.Ok) : q.tail = Ring.slot q.capacity q.head q.count :=
  h.tail_eq

omit [Inhabited α] in
theorem Ok.logicalIndex_eq {q : Queue α} (h : q.Ok) {i : ℕ} (hi : i ≤ q.count) :
    q.logicalIndex i = Ring.slot q.capacity q.head i := by
  have := h.cap_lt; have := h.head_lt; have := h.count_le
  rw [logicalIndex, sizeAdd_eq (by omega), Ring.slot]

/-- Storing into the data is an update of the memory `cell`. -/
theorem cell_set {q : Queue α} {i : ℕ} (hi : i < q.data.size) (x : α) (f : Queue α → Queue α)
    (hf : (f q).data = q.data.setIfInBounds i x) : (f q).cell = Function.update q.cell i x := by
  funext j
  simp only [cell, hf, Array.getElem?_setIfInBounds, Function.update_apply, hi, if_true]
  by_cases hj : j = i
  · simp [hj]
  · simp [hj, Ne.symm hj]

end Queue

theorem initQueue_ok {capacity size : ℕ} {q : Queue α} (h : initQueue capacity size = .ok q) :
    q.Ok ∧ q.capacity = capacity ∧ q.toList = [] := by
  unfold initQueue at h
  split_ifs at h with h1 h2 h3
  simp only [Except.ok.injEq] at h
  subst h
  have hs : capacity * 1 ≤ capacity * size := Nat.mul_le_mul_left _ (by omega)
  exact ⟨⟨by simp only; omega, by simp, by simp only; omega, by simp, by simp⟩, rfl, rfl⟩

section
variable {q : Queue α} (h : q.Ok)
include h

theorem queuePush_ok (hc : q.count < q.capacity) (x : α) : ∃ q', queuePush x q = .ok () q' ∧
    q'.Ok ∧ q'.capacity = q.capacity ∧ q'.toList = q.toList ++ [x] := by
  have h1 := h.cap_lt
  have h2 := h.tail_lt
  refine ⟨_, (queuePush_run q x).trans (if_neg (by omega)),
    ⟨h1, by simp [h.size_data], h.head_lt, hc, ?_⟩, rfl, ?_⟩
  · simp only [sizeAdd_eq (show q.tail + 1 < 2 ^ 64 by omega)]
    rw [h.tail_eq, Nat.mod_add_mod, Nat.add_assoc]
  · simp only [Queue.toList]
    rw [Queue.cell_set (i := q.tail) (h.size_data ▸ h2) x (fun q => { q with
      data := q.data.setIfInBounds q.tail x
      tail := sizeAdd q.tail 1 % q.capacity
      count := q.count + 1 }) rfl, h.tail_slot, Ring.contents_push h.head_lt hc]

omit h [Inhabited α] in
theorem queuePush_full (hc : q.count = q.capacity) (x : α) :
    queuePush x q = .error .queueFull q := (queuePush_run q x).trans (if_pos hc)

theorem queuePop_ok {x : α} {xs : List α} (hl : q.toList = x :: xs) : ∃ q',
    queuePop q = .ok x q' ∧ q'.Ok ∧ q'.capacity = q.capacity ∧ q'.toList = xs := by
  have hlen := congrArg List.length hl
  simp only [Queue.length_toList, List.length_cons] at hlen
  have h1 := h.cap_lt
  have h2 := h.head_lt
  have h3 := h.count_le
  have hsl : sizeAdd q.head 1 % q.capacity = Ring.slot q.capacity q.head 1 := by
    rw [sizeAdd_eq (by omega), Ring.slot]
  rw [Queue.toList, hlen, Ring.contents_pop h2, List.cons.injEq] at hl
  refine ⟨{ q with head := sizeAdd q.head 1 % q.capacity, count := q.count - 1 }, ?_,
    ⟨h1, h.size_data, ?_, ?_, ?_⟩, rfl, ?_⟩
  · rw [queuePop_run, if_neg (by omega), hl.1]
  · simp only [hsl]; exact Ring.slot_lt h2 1
  · simp only; omega
  · simp only [hsl, Ring.slot, Nat.mod_add_mod]
    rw [h.tail_eq]; congr 1; omega
  · simp only [Queue.toList, hsl, hlen, Nat.add_sub_cancel]; exact hl.2

omit h in
theorem queuePop_empty (hc : q.count = 0) : queuePop q = .error .queueEmpty q :=
  (queuePop_run q).trans (if_pos hc)

theorem queuePeekLogical_eq (i : ℕ) : queuePeekLogical i q =
    if hi : i < q.toList.length then .ok q.toList[i] q else .error .queueInvalidIndex q := by
  simp only [Queue.length_toList, queuePeekLogical_run]
  split_ifs with h1 h2 h2
  · omega
  · rfl
  · simp only [Queue.toList, Ring.contents_getElem, h.logicalIndex_eq h2.le]
  · omega

theorem queueUpdateLogical_ok {i : ℕ} (hi : i < q.toList.length) (x : α) : ∃ q',
    queueUpdateLogical i x q = .ok () q' ∧ q'.Ok ∧ q'.capacity = q.capacity ∧
      q'.toList = q.toList.set i x := by
  rw [Queue.length_toList] at hi
  refine ⟨_, (queueUpdateLogical_run q x i).trans (if_neg (by omega)),
    ⟨h.cap_lt, by simp [h.size_data], h.head_lt, h.count_le, h.tail_eq⟩, rfl, ?_⟩
  have hsl := h.logicalIndex_eq hi.le
  simp only [Queue.toList]
  rw [Queue.cell_set (i := q.logicalIndex i) ?_ x (fun q => { q with
    data := q.data.setIfInBounds (q.logicalIndex i) x }) rfl, hsl,
    Ring.contents_set h.head_lt h.count_le hi]
  rw [h.size_data, hsl]; exact Ring.slot_lt h.head_lt i

omit h in
theorem queueUpdateLogical_invalid {i : ℕ} (hi : ¬ i < q.toList.length) (x : α) :
    queueUpdateLogical i x q = .error .queueInvalidIndex q :=
  (queueUpdateLogical_run q x i).trans (if_pos (by rw [Queue.length_toList] at hi; omega))

/-- What the loop of `queue_pop_logical` leaves in the cells of the ring. -/
theorem shiftLeft_cell : ∀ (n i : ℕ) (data : Array α), data.size = q.capacity →
    i + n < q.count → (shiftLeft q n i (Ring.slot q.capacity q.head i) data).size = q.capacity ∧
      ∀ j < q.capacity, (shiftLeft q n i (Ring.slot q.capacity q.head i) data)[
          Ring.slot q.capacity q.head j]?.getD default =
        if i ≤ j ∧ j < i + n then data[Ring.slot q.capacity q.head (j + 1)]?.getD default
        else data[Ring.slot q.capacity q.head j]?.getD default
  | 0, i, data, hs, _ => ⟨hs, fun j _ => by rw [if_neg (by omega)]; rfl⟩
  | n + 1, i, data, hs, hn => by
    have h1 := h.cap_lt
    have h2 := h.head_lt
    have h3 := h.count_le
    have hnext : sizeAdd (sizeAdd q.head i) 1 % q.capacity =
        Ring.slot q.capacity q.head (i + 1) := by
      rw [sizeAdd_eq (a := q.head) (by omega), sizeAdd_eq (by omega), Ring.slot, Nat.add_assoc]
    have hget : ∀ (x : α), ∀ j < q.capacity,
        (data.setIfInBounds (Ring.slot q.capacity q.head i) x)[
          Ring.slot q.capacity q.head j]?.getD default =
        if j = i then x else data[Ring.slot q.capacity q.head j]?.getD default := by
      intro x j hj
      have hlt : Ring.slot q.capacity q.head i < data.size := hs ▸ Ring.slot_lt h2 i
      have hinj := Ring.slot_inj h2 (show i < q.capacity by omega) hj
      rw [Array.getElem?_setIfInBounds]
      by_cases hij : j = i
      · subst hij; simp [hlt]
      · rw [if_neg (by rw [hinj]; exact fun e => hij e.symm), if_neg hij]
    simp only [shiftLeft, hnext]
    obtain ⟨ih1, ih2⟩ := shiftLeft_cell n (i + 1)
      (data.setIfInBounds (Ring.slot q.capacity q.head i)
        (data[Ring.slot q.capacity q.head (i + 1)]?.getD default)) (by simp [hs]) (by omega)
    refine ⟨ih1, fun j hj => ?_⟩
    rw [ih2 j hj]
    by_cases hji : i + 1 ≤ j ∧ j < i + 1 + n
    · rw [if_pos hji, if_pos (by omega), hget _ _ (by omega), if_neg (by omega)]
    · rw [if_neg hji, hget _ _ hj]
      by_cases hj' : j = i
      · rw [if_pos hj', if_pos (by omega), hj']
      · rw [if_neg hj', if_neg (by omega)]

theorem queuePopLogical_ok {i : ℕ} (hi : i < q.toList.length) : ∃ q',
    queuePopLogical i q = .ok q.toList[i] q' ∧ q'.Ok ∧ q'.capacity = q.capacity ∧
      q'.toList = q.toList.eraseIdx i := by
  have hi' := hi
  rw [Queue.length_toList] at hi'
  have h1 := h.cap_lt
  have h2 := h.head_lt
  have h3 := h.count_le
  have ht := h.tail_slot
  have htl := h.tail_lt
  rw [Ring.slot_eq h2 h3] at ht
  have hsl := h.logicalIndex_eq hi'.le
  obtain ⟨hs, hc⟩ := shiftLeft_cell h (q.count - 1 - i) i q.data h.size_data (by omega)
  refine ⟨{ q with
    data := shiftLeft q (q.count - 1 - i) i (q.logicalIndex i) q.data
    tail := sizeAdd (sizeSub q.tail 1) q.capacity % q.capacity
    count := q.count - 1 }, ?_, ⟨h1, ?_, h2, ?_, ?_⟩, rfl, ?_⟩
  · rw [queuePopLogical_run, if_neg (by omega)]
    simp only [Queue.toList, Ring.contents_getElem, hsl]
  · simp only [hsl]; exact hs
  · simp only; omega
  · -- the subtraction wraps exactly when the tail is at cell 0
    have htail : sizeAdd (sizeSub q.tail 1) q.capacity % q.capacity =
        if q.tail = 0 then q.capacity - 1 else q.tail - 1 := by
      split_ifs with h0
      · rw [h0, show sizeAdd (sizeSub 0 1) q.capacity = q.capacity - 1 by
          simp only [sizeAdd, sizeSub]; omega]
        exact Nat.mod_eq_of_lt (by omega)
      · rw [sizeSub_eq (by omega) (by omega), sizeAdd_eq (by omega), Nat.add_mod_right]
        exact Nat.mod_eq_of_lt (by omega)
    simp only [htail]
    change _ = Ring.slot q.capacity q.head (q.count - 1)
    rw [Ring.slot_eq h2 (by omega)]
    split_ifs at ht ⊢ <;> omega
  · simp only [Queue.toList, hsl]
    refine Ring.contents_delete hi' (fun j hj => ?_) (fun j hj hj' => ?_)
    · exact (hc j (by omega)).trans (if_neg (by omega))
    · exact (hc j (by omega)).trans (if_pos (by omega))

omit h in
theorem queuePopLogical_invalid {i : ℕ} (hi : ¬ i < q.toList.length) :
    queuePopLogical i q = .error .queueInvalidIndex q :=
  (queuePopLogical_run q i).trans (if_pos (by rw [Queue.length_toList] at hi; omega))

theorem queueFlush_ok : ∃ q', queueFlush q = .ok () q' ∧ q'.Ok ∧ q'.capacity = q.capacity ∧
    q'.toList = [] :=
  ⟨_, rfl, ⟨h.cap_lt, h.size_data, Nat.zero_lt_of_lt h.head_lt, Nat.zero_le _,
    (Nat.zero_mod _).symm⟩, rfl, rfl⟩

end

theorem queueIsEmpty_iff (q : Queue α) : queueIsEmpty q = true ↔ q.toList = [] := by
  simp [queueIsEmpty, ← List.length_eq_zero_iff]

/-! ## Queues of a fixed capacity -/

/-- An initialised queue of capacity `cap`. -/
structure Fifo (α : Type) (cap : ℕ) where
  queue : Queue α
  ok : queue.Ok
  capacity_eq : queue.capacity = cap

namespace Fifo

variable {cap : ℕ}

/-- `init_queue` at a given capacity. -/
def init (cap sizeOfElement : ℕ) : Except Fault (Fifo α cap) :=
  match h : initQueue cap sizeOfElement with
  | .ok q => .ok ⟨q, (initQueue_ok h).1, (initQueue_ok h).2.1⟩
  | .error e => .error (.err e)

/-- The elements of the queue, from the head on. -/
def toList (q : Fifo α cap) : List α := q.queue.toList

/-- `queue->count` -/
def count (q : Fifo α cap) : ℕ := q.queue.count

@[simp] theorem length_toList (q : Fifo α cap) : q.toList.length = q.count :=
  q.queue.length_toList

/-- The result of a function of the source, which keeps the invariant. -/
def keep {β : Type} (r : EStateM.Result ErrorCode (Queue α) β)
    (h : ∀ b q, r = .ok b q → q.Ok ∧ q.capacity = cap) : Except Fault (β × Fifo α cap) :=
  match r, h with
  | .ok b q, h => .ok (b, ⟨q, (h b q rfl).1, (h b q rfl).2⟩)
  | .error e _, _ => .error (.err e)

omit [Inhabited α] in
theorem keep_ok {β : Type} {r : EStateM.Result ErrorCode (Queue α) β}
    {h : ∀ b q, r = .ok b q → q.Ok ∧ q.capacity = cap} {b : β} {q : Queue α}
    (hr : r = .ok b q) : ∃ q' : Fifo α cap, keep r h = .ok (b, q') ∧ q'.queue = q := by
  subst hr; exact ⟨_, rfl, rfl⟩

/-- `queue_push` -/
def push (q : Fifo α cap) (x : α) : Except Fault (Unit × Fifo α cap) :=
  keep (queuePush x q.queue) fun b q' h => by
    have hc := q.capacity_eq
    by_cases hf : q.queue.count = q.queue.capacity
    · rw [queuePush_full hf] at h; cases h
    · obtain ⟨q'', h1, h2, h3, -⟩ := queuePush_ok q.ok (by have := q.ok.count_le; omega) x
      rw [h1] at h; cases h
      exact ⟨h2, h3.trans hc⟩

/-- `queue_pop` -/
def pop (q : Fifo α cap) : Except Fault (α × Fifo α cap) :=
  keep (queuePop q.queue) fun b q' h => by
    rcases hl : q.queue.toList with _ | ⟨x, xs⟩
    · rw [queuePop_empty (by simpa using congrArg List.length hl)] at h; cases h
    · obtain ⟨q'', h1, h2, h3, -⟩ := queuePop_ok q.ok hl
      rw [h1] at h; cases h
      exact ⟨h2, h3.trans q.capacity_eq⟩

/-- `queue_peek_logical` -/
def peekLogical (q : Fifo α cap) (i : ℕ) : Except Fault α :=
  match queuePeekLogical i q.queue with
  | .ok x _ => .ok x
  | .error e _ => .error (.err e)

/-- `queue_pop_logical` -/
def popLogical (q : Fifo α cap) (i : ℕ) : Except Fault (α × Fifo α cap) :=
  keep (queuePopLogical i q.queue) fun b q' h => by
    by_cases hi : i < q.queue.toList.length
    · obtain ⟨q'', h1, h2, h3, -⟩ := queuePopLogical_ok q.ok hi
      rw [h1] at h; cases h
      exact ⟨h2, h3.trans q.capacity_eq⟩
    · rw [queuePopLogical_invalid hi] at h; cases h

/-- `queue_update_logical` -/
def updateLogical (q : Fifo α cap) (i : ℕ) (x : α) : Except Fault (Unit × Fifo α cap) :=
  keep (queueUpdateLogical i x q.queue) fun b q' h => by
    by_cases hi : i < q.queue.toList.length
    · obtain ⟨q'', h1, h2, h3, -⟩ := queueUpdateLogical_ok q.ok hi x
      rw [h1] at h; cases h
      exact ⟨h2, h3.trans q.capacity_eq⟩
    · rw [queueUpdateLogical_invalid hi] at h; cases h

/-- `queue_is_empty` -/
def isEmpty (q : Fifo α cap) : Bool := queueIsEmpty q.queue

/-- `queue_flush` -/
def flush (q : Fifo α cap) : Fifo α cap where
  queue := endState (queueFlush q.queue)
  ok := by
    obtain ⟨q', h1, h2, -, -⟩ := queueFlush_ok q.ok
    rw [h1]
    exact h2
  capacity_eq := q.capacity_eq

/-! ### The operations on the list of elements -/

theorem push_ok {q : Fifo α cap} (hc : q.toList.length < cap) (x : α) :
    ∃ q', q.push x = .ok ((), q') ∧ q'.toList = q.toList ++ [x] := by
  have hc' : q.queue.count < q.queue.capacity := by
    rw [q.capacity_eq]; rwa [length_toList] at hc
  obtain ⟨q'', h1, -, -, h4⟩ := queuePush_ok q.ok hc' x
  obtain ⟨q', h5, h6⟩ := keep_ok h1
  exact ⟨q', h5, by rw [toList, h6]; exact h4⟩

theorem pop_ok {q : Fifo α cap} {x : α} {xs : List α} (hl : q.toList = x :: xs) :
    ∃ q', q.pop = .ok (x, q') ∧ q'.toList = xs := by
  obtain ⟨q'', h1, -, -, h4⟩ := queuePop_ok q.ok hl
  obtain ⟨q', h5, h6⟩ := keep_ok h1
  exact ⟨q', h5, by rw [toList, h6]; exact h4⟩

theorem peekLogical_ok {q : Fifo α cap} {i : ℕ} (hi : i < q.toList.length) :
    q.peekLogical i = .ok q.toList[i] := by
  rw [peekLogical, queuePeekLogical_eq q.ok i, dif_pos (show i < q.queue.toList.length from hi)]
  rfl

theorem popLogical_ok {q : Fifo α cap} {i : ℕ} (hi : i < q.toList.length) :
    ∃ q', q.popLogical i = .ok (q.toList[i], q') ∧ q'.toList = q.toList.eraseIdx i := by
  obtain ⟨q'', h1, -, -, h4⟩ := queuePopLogical_ok q.ok hi
  obtain ⟨q', h5, h6⟩ := keep_ok h1
  exact ⟨q', h5, by rw [toList, h6]; exact h4⟩

theorem updateLogical_ok {q : Fifo α cap} {i : ℕ} (hi : i < q.toList.length) (x : α) :
    ∃ q', q.updateLogical i x = .ok ((), q') ∧ q'.toList = q.toList.set i x := by
  obtain ⟨q'', h1, -, -, h4⟩ := queueUpdateLogical_ok q.ok hi x
  obtain ⟨q', h5, h6⟩ := keep_ok h1
  exact ⟨q', h5, by rw [toList, h6]; exact h4⟩

theorem isEmpty_iff {q : Fifo α cap} : q.isEmpty = true ↔ q.toList = [] := queueIsEmpty_iff q.queue

@[simp] theorem toList_flush (q : Fifo α cap) : q.flush.toList = [] := rfl

theorem init_ok {size : ℕ} {q : Fifo α cap} (h : init cap size = .ok q) : q.toList = [] := by
  unfold init at h
  split at h
  · next q' h' => cases h; exact (initQueue_ok h').2.2
  · cases h

end Fifo

end R10000
