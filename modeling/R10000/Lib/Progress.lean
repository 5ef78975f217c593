/-
  How fast a queue with a front and a back moves.

  Elements pass the front of a queue one after the other, and then its back, a few at a
  time.  At time `t`, `front t` of them have passed the front and `back t` the back, and
  `lag t` bounds the time until the next one passes the front.  As long as passing takes two
  ticks for each element, in spite of stalls that wait for the back to catch up, the back
  moves by one element every two ticks too.
-/
import Mathlib.Order.Nat

namespace Progress

/-- The front of the queue moves by one in every two ticks before `horizon`, up to the goal,
    unless it is blocked (`lag t = 1`), or well ahead of the back. -/
structure Flows (front back lag : ℕ → ℕ) (goal horizon : ℕ) : Prop where
  behind : ∀ t, t ≤ horizon → back t ≤ front t
  lag_le : ∀ t, t ≤ horizon → 1 ≤ lag t ∧ lag t ≤ 5
  front_le : ∀ t, t < horizon → front t ≤ front (t + 1)
  blocked : ∀ t, t < horizon → lag t = 1 → lag (t + 1) = 1 ∧ back t + 4 ≤ back (t + 1)
  follows : ∀ t, t < horizon → min (back t + 4) (front t) ≤ back (t + 1)
  passes : ∀ t, t < horizon → lag t ≠ 1 → front t < goal → lag (t + 1) = 1 ∨
    goal ≤ front (t + 1) ∨ 2 * front t + lag (t + 1) + 1 ≤ 2 * front (t + 1) + lag t ∨
    back (t + 1) + 3 ≤ front (t + 1)

variable {front back lag : ℕ → ℕ} {goal horizon delay : ℕ}

/-- The potential of the front, and how the back follows it. -/
theorem Flows.potential (h : Flows front back lag goal horizon) (hdelay : 1 ≤ delay)
    (hstart : lag 0 = 1 ∨ goal ≤ front 0 ∨ lag 0 ≤ 2 * front 0 + delay) :
    ∀ t, t ≤ horizon →
      (lag t = 1 ∨ goal ≤ front t ∨ t + lag t ≤ 2 * front t + delay) ∧
      (goal ≤ back t ∨ t < 2 * back t + delay)
  | 0, _ => ⟨by rw [Nat.zero_add]; exact hstart, .inr (by omega)⟩
  | t + 1, ht => by
    obtain ⟨hfront, hback⟩ := h.potential hdelay hstart t (Nat.le_of_succ_le ht)
    have hfollows := h.follows t ht
    have hblocked := h.blocked t ht
    have hle := h.front_le t ht
    have hlag := h.lag_le t (Nat.le_of_succ_le ht)
    have hlag' := h.lag_le (t + 1) ht
    have hbehind := h.behind t (Nat.le_of_succ_le ht)
    have hbehind' := h.behind (t + 1) ht
    -- the back follows the front of the last tick
    have hback' : goal ≤ back (t + 1) ∨ t + 1 < 2 * back (t + 1) + delay := by
      rcases hfront with h1 | h1 | h1
      · have := (hblocked h1).2
        omega
      · omega
      · by_cases hl : lag t = 1
        · have := (hblocked hl).2
          omega
        · omega
    refine ⟨?_, hback'⟩
    by_cases hl : lag t = 1
    · exact .inl (hblocked hl).1
    by_cases hg : goal ≤ front t
    · exact .inr (.inl (hg.trans hle))
    · rcases h.passes t ht hl (Nat.not_le.1 hg) with h1 | h1 | h1 | h1
      · exact .inl h1
      · exact .inr (.inl h1)
      · omega
      · omega

/-- **Flow rule.**  All elements up to the goal are past the back after two ticks each and the
    delay. -/
theorem Flows.back_reaches (h : Flows front back lag goal horizon) (hdelay : 1 ≤ delay)
    (hstart : lag 0 = 1 ∨ goal ≤ front 0 ∨ lag 0 ≤ 2 * front 0 + delay) {n t : ℕ}
    (hn : n < goal) (ht : t ≤ horizon) (hlate : 2 * n + delay ≤ t) : n < back t := by
  obtain ⟨-, hback⟩ := h.potential hdelay hstart t ht
  omega

end Progress
