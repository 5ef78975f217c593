/-
  Signed overflow of integers of `w + 1` bits.

  An operation on signed integers is defined if its mathematical result is in the range of
  the type.  `AddOk` and `SubOk` are the tests on the operands that say so in advance: each
  compares one operand with a bound that is itself in the range.
-/
import Mathlib.Algebra.Order.Ring.Int

namespace SignedOverflow

/-- The integer is one of `w + 1` bits. -/
def InRange (w : ℕ) (v : ℤ) : Prop := -2 ^ w ≤ v ∧ v < 2 ^ w

/-- The sum does not overflow. -/
def AddOk (w : ℕ) (a b : ℤ) : Prop :=
  (0 ≤ b → a ≤ 2 ^ w - 1 - b) ∧ (b < 0 → -2 ^ w - b ≤ a)

/-- The difference does not overflow. -/
def SubOk (w : ℕ) (a b : ℤ) : Prop :=
  (0 ≤ b → -2 ^ w + b ≤ a) ∧ (b < 0 → a ≤ 2 ^ w - 1 + b)

variable {w : ℕ} {a b : ℤ}

theorem addOk_iff (ha : InRange w a) : AddOk w a b ↔ InRange w (a + b) := by
  obtain ⟨h1, h2⟩ := ha
  simp only [AddOk, InRange]
  constructor
  · rintro ⟨hpos, hneg⟩
    rcases le_or_gt 0 b with hb | hb
    · have := hpos hb
      omega
    · have := hneg hb
      omega
  · rintro ⟨h3, h4⟩
    constructor
    · intro _
      omega
    · intro _
      omega

theorem subOk_iff (ha : InRange w a) : SubOk w a b ↔ InRange w (a - b) := by
  obtain ⟨h1, h2⟩ := ha
  simp only [SubOk, InRange]
  constructor
  · rintro ⟨hpos, hneg⟩
    rcases le_or_gt 0 b with hb | hb
    · have := hpos hb
      omega
    · have := hneg hb
      omega
  · rintro ⟨h3, h4⟩
    constructor
    · intro _
      omega
    · intro _
      omega

end SignedOverflow
