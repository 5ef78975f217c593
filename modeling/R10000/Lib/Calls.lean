/-
  State programs as trees of calls.

  A tree returns a value, looks at the state, or makes a call and goes on with its result.
  `run` is the state program that a tree stands for.  `steps` is the list of the calls that it
  makes from a state, each with the states before and after it; if a call stops with an error,
  it is the last one.  `Every R t s` says that all these calls satisfy `R`; its rules follow a
  tree one call at a time, as those of `Sim` and `Fails` follow the program.
-/
import R10000.Lib.Fallible

namespace Calls

open Fallible

/-- A program over the calls `C`; `Res c` is the type of the result of `c`. -/
inductive Tree {C : Type} (Res : C → Type) (σ α : Type) where
  | pure (a : α)
  | get (k : σ → Tree Res σ α)
  | call (c : C) (k : Res c → Tree Res σ α)

/-- One call, with the states before and after it. -/
structure Step (C σ : Type) where
  before : σ
  call : C
  after : σ

variable {C : Type} {Res : C → Type} {ε σ τ α β : Type}

/-- The list `f a s` after a result `a` in the state `s`, no element after an error. -/
def onOk (r : EStateM.Result ε σ α) (f : α → σ → List β) : List β :=
  match r with
  | .ok a s => f a s
  | .error _ _ => []

theorem onOk_ok {r : EStateM.Result ε σ α} {a : α} {s : σ} (h : r = .ok a s)
    (f : α → σ → List β) : onOk r f = f a s := by
  rw [h, onOk]

theorem onOk_error {r : EStateM.Result ε σ α} {e : ε} {s : σ} (h : r = .error e s)
    (f : α → σ → List β) : onOk r f = [] := by
  rw [h, onOk]

namespace Tree

/-- Go on with the result of a tree. -/
def bind : Tree Res σ α → (α → Tree Res σ β) → Tree Res σ β
  | .pure a, f => f a
  | .get k, f => .get fun s => (k s).bind f
  | .call c k, f => .call c fun a => (k a).bind f

instance : Monad (Tree Res σ) where
  pure := .pure
  bind := bind

/-- The tree that looks at the state and returns it. -/
def state : Tree Res σ σ := .get .pure

/-- The tree of one call. -/
def one (c : C) : Tree Res σ (Res c) := .call c .pure

section
variable (exec : (c : C) → EStateM ε σ (Res c))

/-- The state program of a tree, where `exec` does the calls. -/
def run : Tree Res σ α → EStateM ε σ α
  | .pure a => Pure.pure a
  | .get k => do (k (← MonadState.get)).run
  | .call c k => do (k (← exec c)).run

/-- The calls that a tree makes from a state. -/
def steps : Tree Res σ α → σ → List (Step C σ)
  | .pure _, _ => []
  | .get k, s => (k s).steps s
  | .call c k, s => ⟨s, c, endState (exec c s)⟩ :: onOk (exec c s) fun a s' => (k a).steps s'

/-- All calls of a tree satisfy `R`. -/
def Every (R : Step C σ → Prop) (t : Tree Res σ α) (s : σ) : Prop := ∀ st ∈ t.steps exec s, R st

end

/-! ## The state program -/

section
variable {exec : (c : C) → EStateM ε σ (Res c)}

@[simp] theorem run_pure (a : α) : (Pure.pure a : Tree Res σ α).run exec = Pure.pure a := rfl

@[simp] theorem run_state : (state : Tree Res σ σ).run exec = MonadState.get := rfl

@[simp] theorem run_one (c : C) : (one c : Tree Res σ (Res c)).run exec = exec c :=
  bind_pure (exec c)

@[simp] theorem run_bind (t : Tree Res σ α) (f : α → Tree Res σ β) :
    (t >>= f).run exec = t.run exec >>= fun a => (f a).run exec := by
  induction t with
  | pure a => rfl
  | get k ih => exact (congrArg (MonadState.get >>= ·) (funext ih)).trans (bind_assoc ..).symm
  | call c k ih => exact (congrArg (exec c >>= ·) (funext ih)).trans (bind_assoc ..).symm

@[simp] theorem run_forM {ι : Type} (l : List ι) (f : ι → Tree Res σ PUnit) :
    (forM l f).run exec = forM l fun i => (f i).run exec := by
  induction l with
  | nil => rfl
  | cons i l ih => rw [List.forM_cons, List.forM_cons, run_bind, ih]

/-! ## The calls -/

@[simp] theorem steps_one (c : C) (s : σ) :
    (one c : Tree Res σ (Res c)).steps exec s = [⟨s, c, endState (exec c s)⟩] := by
  unfold one steps
  cases h : exec c s with
  | ok a s' => rw [onOk_ok rfl, steps]
  | error e s' => rw [onOk_error rfl]

/-- The calls of a sequence: those of its first half and, if this returns, those of its second
    half. -/
theorem steps_bind (t : Tree Res σ α) (f : α → Tree Res σ β) (s : σ) :
    (t >>= f).steps exec s =
      t.steps exec s ++ onOk (t.run exec s) fun a s' => (f a).steps exec s' := by
  induction t generalizing s with
  | pure a => rfl
  | get k ih => exact ih s s
  | call c k ih =>
    have hrun : (call c k).run exec s = (exec c >>= fun a => (k a).run exec) s := rfl
    have hbind : (call c k >>= f).steps exec s = ⟨s, c, endState (exec c s)⟩ ::
        onOk (exec c s) fun a s' => (k a >>= f).steps exec s' := rfl
    rw [hrun, hbind, steps, List.cons_append]
    cases h : exec c s with
    | ok a s' => rw [onOk_ok rfl, onOk_ok rfl, bind_ok h, ih]
    | error e s' => rw [onOk_error rfl, onOk_error rfl, onOk_error (bind_error h)]; rfl

end

/-! ## Properties of all calls -/

section
variable {exec : (c : C) → EStateM ε σ (Res c)} {R : Step C σ → Prop} {s : σ}

theorem Every.pure (a : α) : Every exec R (Pure.pure a : Tree Res σ α) s :=
  fun _ h => by cases h

theorem every_one {c : C} :
    Every exec R (one c : Tree Res σ (Res c)) s ↔ R ⟨s, c, endState (exec c s)⟩ := by
  rw [Every, steps_one, List.forall_mem_singleton]

theorem Every.bind {t : Tree Res σ α} {f : α → Tree Res σ β} (ht : Every exec R t s)
    (hf : ∀ a s', t.run exec s = .ok a s' → Every exec R (f a) s') :
    Every exec R (t >>= f) s := by
  intro st hst
  rw [steps_bind, List.mem_append] at hst
  rcases hst with hst | hst
  · exact ht st hst
  · cases h : t.run exec s with
    | ok a s' =>
      rw [onOk_ok h] at hst
      exact hf a s' h st hst
    | error e s' =>
      rw [onOk_error h] at hst
      cases hst

theorem Every.state {f : σ → Tree Res σ β} (hf : Every exec R (f s) s) :
    Every exec R (Tree.state >>= f) s := hf

theorem Every.bind_ok {t : Tree Res σ α} {f : α → Tree Res σ β} {a : α} {s' : σ}
    (ht : Every exec R t s) (h : t.run exec s = .ok a s') (hf : Every exec R (f a) s') :
    Every exec R (t >>= f) s := by
  refine ht.bind fun b s'' hb => ?_
  rw [h] at hb
  cases hb
  exact hf

theorem Every.bind_sim {view : σ → τ} {t : Tree Res σ α} {f : α → Tree Res σ β} {a : α} {u : τ}
    (ht : Every exec R t s) (h : Sim view (t.run exec) s a u)
    (hf : ∀ s', view s' = u → Every exec R (f a) s') : Every exec R (t >>= f) s := by
  obtain ⟨s', h1, h2⟩ := h
  exact ht.bind_ok h1 (hf s' h2)

theorem Every.bind_fails {view : σ → τ} {t : Tree Res σ α} {f : α → Tree Res σ β} {e : ε} {u : τ}
    (ht : Every exec R t s) (h : Fails view (t.run exec) s e u) : Every exec R (t >>= f) s := by
  refine ht.bind fun a s' ha => ?_
  obtain ⟨s'', h1, -⟩ := h
  rw [h1] at ha
  cases ha

/-- **Loop rule.**  All calls of a loop satisfy `R` if those of its body do, under an invariant
    that the body keeps. -/
theorem Every.forM {ι : Type} {body : ι → Tree Res σ PUnit} {I : σ → Prop}
    (hbody : ∀ i s, I s → Every exec R (body i) s ∧
      ∀ s', (body i).run exec s = .ok ⟨⟩ s' → I s') :
    ∀ (l : List ι) (s : σ), I s → Every exec R (forM l body) s
  | [], _, _ => .pure ()
  | i :: l, s, h => by
    obtain ⟨h1, h2⟩ := hbody i s h
    rw [List.forM_cons]
    exact h1.bind fun _ s' hs' => Every.forM hbody l s' (h2 s' hs')

end

end Tree

/-! ## Chains of steps -/

/-- Each step begins in the state in which the one before it ends. -/
def Path : σ → List (Step C σ) → σ → Prop
  | s, [], s' => s = s'
  | s, st :: l, s' => st.before = s ∧ Path st.after l s'

theorem path_append {l l' : List (Step C σ)} {s s' : σ} :
    Path s (l ++ l') s' ↔ ∃ m, Path s l m ∧ Path m l' s' := by
  induction l generalizing s with
  | nil =>
    constructor
    · exact fun h => ⟨s, rfl, h⟩
    · rintro ⟨m, rfl, h⟩
      exact h
  | cons st l ih =>
    rw [List.cons_append, Path, ih]
    constructor
    · rintro ⟨h, m, h1, h2⟩
      exact ⟨m, ⟨h, h1⟩, h2⟩
    · rintro ⟨m, ⟨h, h1⟩, h2⟩
      exact ⟨h, m, h1, h2⟩

/-- What holds before every step of a path and at its end holds after every step. -/
theorem Path.after {Q : σ → Prop} {l : List (Step C σ)} {s s' : σ} (h : Path s l s')
    (hl : ∀ st ∈ l, Q st.before) (hs' : Q s') : ∀ st ∈ l, Q st.after := by
  induction l generalizing s with
  | nil => exact fun st hst => by cases hst
  | cons st l ih =>
    obtain ⟨rfl, h⟩ := h
    have hrest := ih h fun st' hst' => hl st' (List.mem_cons_of_mem _ hst')
    intro st' hst'
    rcases List.mem_cons.1 hst' with rfl | hst'
    · cases l with
      | nil =>
        obtain rfl : st'.after = s' := h
        exact hs'
      | cons next l =>
        obtain ⟨hnext, -⟩ := h
        rw [← hnext]
        exact hl next (by simp)
    · exact hrest st' hst'

section
variable (exec : (c : C) → EStateM ε σ (Res c))

/-- **The calls of a tree lead from the state in which it begins to the one in which its program
    returns or stops.** -/
theorem Tree.path (t : Tree Res σ α) (s : σ) :
    Path s (t.steps exec s) (endState (t.run exec s)) := by
  induction t generalizing s with
  | pure a => rfl
  | get k ih => exact ih s s
  | call c k ih =>
    have hrun : (Tree.call c k).run exec s = (exec c >>= fun a => (k a).run exec) s := rfl
    rw [hrun, Tree.steps]
    refine ⟨rfl, ?_⟩
    cases h : exec c s with
    | ok a s' =>
      rw [bind_ok h, onOk_ok rfl]
      exact ih a s'
    | error e s' =>
      rw [bind_error h, onOk_error rfl]
      rfl

/-- Each step is the execution of its call. -/
theorem Tree.steps_after (t : Tree Res σ α) (s : σ) :
    t.Every exec (fun st => st.after = endState (exec st.call st.before)) s := by
  induction t generalizing s with
  | pure a => exact .pure a
  | get k ih => exact ih s s
  | call c k ih =>
    intro st hst
    rw [Tree.steps, List.mem_cons] at hst
    rcases hst with rfl | hst
    · rfl
    · cases h : exec c s with
      | ok a s' =>
        rw [onOk_ok h] at hst
        exact ih a s' st hst
      | error e s' =>
        rw [onOk_error h] at hst
        cases hst

end

end Calls
