/-
  Loops that need not end.

  The body of a loop goes on with a new state, stops with a result, or fails.  `Ends body s r`
  says that the loop from `s` comes to its end with `r`.  A loop has at most one end; it has
  one if every iteration that goes on lowers a measure, and then a function that unrolls the
  body with enough fuel computes it.
-/
import Mathlib.Order.Basic

namespace Loop

variable {ε σ ρ : Type}

/-- The loop from a state comes to its end, with an error or a result. -/
inductive Ends (body : σ → Except ε (σ ⊕ ρ)) : σ → Except ε ρ → Prop
  | fails {s : σ} {e : ε} (h : body s = .error e) : Ends body s (.error e)
  | stops {s : σ} {r : ρ} (h : body s = .ok (.inr r)) : Ends body s (.ok r)
  | goesOn {s s' : σ} {r : Except ε ρ} (h : body s = .ok (.inl s')) (hr : Ends body s' r) :
    Ends body s r

variable {body : σ → Except ε (σ ⊕ ρ)}

/-- A loop has at most one end. -/
theorem Ends.unique {s : σ} {r r' : Except ε ρ} (h : Ends body s r) (h' : Ends body s r') :
    r = r' := by
  induction h with
  | fails hb =>
    cases h' with
    | fails hb' => rw [hb, Except.error.injEq] at hb'; rw [hb']
    | stops hb' => rw [hb] at hb'; cases hb'
    | goesOn hb' => rw [hb] at hb'; cases hb'
  | stops hb =>
    cases h' with
    | fails hb' => rw [hb] at hb'; cases hb'
    | stops hb' => rw [hb, Except.ok.injEq, Sum.inr.injEq] at hb'; rw [hb']
    | goesOn hb' => rw [hb] at hb'; cases hb'
  | goesOn hb _ ih =>
    cases h' with
    | fails hb' => rw [hb] at hb'; cases hb'
    | stops hb' => rw [hb] at hb'; cases hb'
    | goesOn hb' hr' =>
      rw [hb, Except.ok.injEq, Sum.inl.injEq] at hb'
      subst hb'
      exact ih hr'

/-- **Fuel rule.**  A function that unrolls the body computes the end of the loop with as much
    fuel as the measure of the state. -/
theorem Ends.of_fuel {f : ℕ → σ → Except ε ρ} {μ : σ → ℕ}
    (hlt : ∀ s s', body s = .ok (.inl s') → μ s' < μ s)
    (hzero : ∀ s, μ s = 0 → body s = (f 0 s).map .inr)
    (hsucc : ∀ n s, f (n + 1) s = body s >>= fun r => r.elim (f n) .ok) :
    ∀ n s, μ s ≤ n → Ends body s (f n s)
  | 0, s, h => by
    have hb := hzero s (Nat.le_zero.1 h)
    cases hf : f 0 s with
    | error e => rw [hf] at hb; exact .fails hb
    | ok r => rw [hf] at hb; exact .stops hb
  | n + 1, s, h => by
    rw [hsucc]
    cases hb : body s with
    | error e => exact .fails hb
    | ok r =>
      cases r with
      | inl s' =>
        have hs' := hlt s s' hb
        exact .goesOn hb (of_fuel hlt hzero hsucc n s' (by omega))
      | inr r => exact .stops hb

end Loop
