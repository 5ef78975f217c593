/-
  Bounded lists.

  A bounded list holds at most `cap` elements: elements are appended at its end while
  there is room, removed at its head, and read, replaced and deleted at an index.  `step`
  says what each operation returns and leaves behind; an operation that fails leaves the
  list as it is.  `runWith` runs a machine with outputs on a sequence of operations, and
  `runWith_refines` compares two such machines.
-/
import Mathlib.Data.List.Basic

/-! ## Machines with outputs -/

namespace Mealy

variable {σ τ ι ω ω' : Type}

/-- The outputs of a machine on a sequence of operations, and the state that it ends in. -/
def runWith (step : σ → ι → ω × σ) : σ → List ι → List ω × σ
  | s, [] => ([], s)
  | s, op :: ops =>
    ((step s op).1 :: (runWith step (step s op).2 ops).1, (runWith step (step s op).2 ops).2)

/-- **Refinement rule.**  A machine whose steps keep an invariant, and do to the abstract
    states what the abstract machine does, runs like the abstract machine. -/
theorem runWith_refines {step : σ → ι → ω × σ} {step' : τ → ι → ω' × τ} {I : σ → Prop}
    (abs : σ → τ) {out : ω' → ω}
    (h : ∀ s op, I s → (step s op).1 = out (step' (abs s) op).1 ∧
      abs (step s op).2 = (step' (abs s) op).2 ∧ I (step s op).2) :
    ∀ (ops : List ι) (s : σ), I s →
      (runWith step s ops).1 = (runWith step' (abs s) ops).1.map out ∧
      abs (runWith step s ops).2 = (runWith step' (abs s) ops).2 ∧ I (runWith step s ops).2
  | [], _, hs => ⟨rfl, rfl, hs⟩
  | op :: ops, s, hs => by
    obtain ⟨h1, h2, h3⟩ := h s op hs
    obtain ⟨h4, h5, h6⟩ := runWith_refines abs h ops _ h3
    refine ⟨?_, ?_, h6⟩
    · rw [runWith, runWith, h1, h4, h2, List.map_cons]
    · rw [runWith, runWith, h5, h2]

end Mealy

namespace BoundedList

variable {α : Type}

/-- The operations on a bounded list. -/
inductive Op (α : Type) where
  | push (x : α)
  | pop
  | peek (i : ℕ)
  | delete (i : ℕ)
  | update (i : ℕ) (x : α)
  | flush

/-- Why an operation fails. -/
inductive Failure where
  | full
  | empty
  | index
  deriving DecidableEq, Repr

/-- What an operation returns, and the list that it leaves behind. -/
def step (cap : ℕ) (l : List α) : Op α → Except Failure (Option α) × List α
  | .push x => if l.length < cap then (.ok none, l ++ [x]) else (.error .full, l)
  | .pop => match l with
    | [] => (.error .empty, [])
    | x :: xs => (.ok (some x), xs)
  | .peek i => if h : i < l.length then (.ok (some l[i]), l) else (.error .index, l)
  | .delete i =>
    if h : i < l.length then (.ok (some l[i]), l.eraseIdx i) else (.error .index, l)
  | .update i x => if i < l.length then (.ok none, l.set i x) else (.error .index, l)
  | .flush => (.ok none, [])

end BoundedList
