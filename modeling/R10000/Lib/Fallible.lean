/-
  State programs that may fail, and keep the state they have when they do.

  A program is an `EStateM ε σ α`: it returns a value or stops with an `ε`, in
  both cases in a state.  `Sim view m s a t` and `Fails view m s e t` say how a
  program ends when its states are seen through an abstraction `view : σ → τ`;
  the rules below compose them, so that a program over concrete states is
  followed one statement at a time by a function on abstract ones.
-/
import Mathlib.Data.List.Basic

namespace Fallible

variable {ε σ τ α β : Type}

/-! ## Running the primitive programs -/

theorem bind_ok {x : EStateM ε σ α} {f : α → EStateM ε σ β} {s s' : σ} {a : α}
    (h : x s = .ok a s') : (x >>= f) s = f a s' := by
  show EStateM.bind x f s = _
  simp only [EStateM.bind, h]

theorem bind_error {x : EStateM ε σ α} {f : α → EStateM ε σ β} {s s' : σ} {e : ε}
    (h : x s = .error e s') : (x >>= f) s = .error e s' := by
  show EStateM.bind x f s = _
  simp only [EStateM.bind, h]

/-- A sequence depends on what its first half does from the state at hand. -/
theorem bind_congr_left {x y : EStateM ε σ α} {f : α → EStateM ε σ β} {s : σ} (h : x s = y s) :
    (x >>= f) s = (y >>= f) s := by
  show EStateM.bind x f s = EStateM.bind y f s
  simp only [EStateM.bind, h]

@[simp] theorem pure_run (a : α) (s : σ) : (pure a : EStateM ε σ α) s = .ok a s := rfl
@[simp] theorem modify_run (g : σ → σ) (s : σ) :
    (modify g : EStateM ε σ PUnit) s = .ok ⟨⟩ (g s) := rfl
@[simp] theorem map_modify_run (f : PUnit → α) (g : σ → σ) (s : σ) :
    (f <$> modify g : EStateM ε σ α) s = .ok (f ⟨⟩) (g s) := rfl

@[simp] theorem get_bind (f : σ → EStateM ε σ β) (s : σ) : (get >>= f) s = f s s := rfl
@[simp] theorem pure_bind_run (a : α) (f : α → EStateM ε σ β) (s : σ) :
    (pure a >>= f) s = f a s := rfl
@[simp] theorem modify_bind (g : σ → σ) (f : PUnit → EStateM ε σ β) (s : σ) :
    (modify g >>= f) s = f ⟨⟩ (g s) := rfl
@[simp] theorem throw_bind (e : ε) (f : α → EStateM ε σ β) (s : σ) :
    ((throw e : EStateM ε σ α) >>= f) s = .error e s := rfl

/-! ## Programs that check before they write -/

/-- A program that stops has left the state as it was. -/
def Atomic (m : EStateM ε σ α) : Prop := ∀ ⦃s e s'⦄, m s = .error e s' → s' = s

theorem Atomic.bind_pure {m : EStateM ε σ α} (h : Atomic m) (f : α → β) :
    Atomic (m >>= fun a => pure (f a)) := by
  intro s e s' he
  cases hm : m s with
  | ok a t => rw [bind_ok hm] at he; cases he
  | error e' t => rw [bind_error hm] at he; cases he; exact h hm

/-! ## Programs seen through an abstraction -/

variable {view : σ → τ}

/-- From `s` the program returns `a`, in a state seen as `t`. -/
def Sim (view : σ → τ) (m : EStateM ε σ α) (s : σ) (a : α) (t : τ) : Prop :=
  ∃ s', m s = .ok a s' ∧ view s' = t

/-- From `s` the program stops with `e`, in a state seen as `t`. -/
def Fails (view : σ → τ) (m : EStateM ε σ α) (s : σ) (e : ε) (t : τ) : Prop :=
  ∃ s', m s = .error e s' ∧ view s' = t

theorem Sim.modify {s : σ} {t : τ} {g : σ → σ} (h : view (g s) = t) :
    Sim view (modify g : EStateM ε σ PUnit) s ⟨⟩ t := ⟨g s, rfl, h⟩

theorem Sim.bind {x : EStateM ε σ α} {f : α → EStateM ε σ β} {s : σ} {a : α} {b : β} {t u : τ}
    (hx : Sim view x s a t) (hf : ∀ s', view s' = t → Sim view (f a) s' b u) :
    Sim view (x >>= f) s b u := by
  obtain ⟨s', h, hv⟩ := hx
  obtain ⟨s'', h', hv'⟩ := hf s' hv
  exact ⟨s'', (bind_ok h).trans h', hv'⟩

theorem Sim.bind_fails {x : EStateM ε σ α} {f : α → EStateM ε σ β} {s : σ} {a : α} {e : ε}
    {t u : τ} (hx : Sim view x s a t) (hf : ∀ s', view s' = t → Fails view (f a) s' e u) :
    Fails view (x >>= f) s e u := by
  obtain ⟨s', h, hv⟩ := hx
  obtain ⟨s'', h', hv'⟩ := hf s' hv
  exact ⟨s'', (bind_ok h).trans h', hv'⟩

theorem Fails.bind {x : EStateM ε σ α} {f : α → EStateM ε σ β} {s : σ} {e : ε} {t : τ}
    (hx : Fails view x s e t) : Fails view (x >>= f) s e t := by
  obtain ⟨s', h, hv⟩ := hx
  exact ⟨s', bind_error h, hv⟩

/-- **Loop rule.**  A loop over a list is followed by a fold, under an invariant of the
    abstract states. -/
theorem Sim.forM {ι : Type} {body : ι → EStateM ε σ PUnit} {g : τ → ι → τ} {I : τ → Prop}
    (hbody : ∀ i s, I (view s) → Sim view (body i) s ⟨⟩ (g (view s) i) ∧ I (g (view s) i)) :
    ∀ (l : List ι) (s : σ), I (view s) → Sim view (forM l body) s ⟨⟩ (l.foldl g (view s))
  | [], s, _ => ⟨s, rfl, rfl⟩
  | i :: l, s, h => by
    obtain ⟨h1, h2⟩ := hbody i s h
    rw [List.forM_cons]
    exact h1.bind fun s' hs' => by
      rw [List.foldl_cons, ← hs']
      exact Sim.forM hbody l s' (hs' ▸ h2)

/-! ## The state at the end -/

/-- The state in which a program returns or stops. -/
def endState : EStateM.Result ε σ α → σ
  | .ok _ s => s
  | .error _ s => s

theorem Sim.endState {m : EStateM ε σ α} {s : σ} {a : α} {t : τ} (h : Sim view m s a t) :
    view (endState (m s)) = t := by
  obtain ⟨s', h1, h2⟩ := h
  rw [h1]; exact h2

theorem Fails.endState {m : EStateM ε σ α} {s : σ} {e : ε} {t : τ} (h : Fails view m s e t) :
    view (endState (m s)) = t := by
  obtain ⟨s', h1, h2⟩ := h
  rw [h1]; exact h2

end Fallible
