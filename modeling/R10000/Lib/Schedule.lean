/-
  Straight-line programs scheduled as soon as possible: every operation has a time before which
  it is not released, and the result of an operation can be used some time after it is finished.
-/
import Mathlib.Logic.Function.Basic
import Mathlib.Order.MinMax
import Mathlib.Tactic.SplitIfs

namespace Schedule

/-- An operation on the variables `R`. -/
structure Op (R : Type) where
  target : R
  sources : List R

variable {R : Type} [DecidableEq R]

/-- The last of the first `j` operations that writes the variable. -/
def lastWriter (ops : List (Op R)) : ℕ → R → Option ℕ
  | 0, _ => none
  | j + 1, r => if (ops[j]?).map Op.target = some r then some j else lastWriter ops j r

section
variable (ops : List (Op R)) (release : ℕ → ℕ) (latency : ℕ)

/-- The maximum of `t` and of the times of some variables. -/
def latest (f : R → ℕ) (t : ℕ) (rs : List R) : ℕ := rs.foldr (fun r t => max (f r) t) t

/-- When the variables can be used by operation `j`. -/
def available : ℕ → R → ℕ
  | 0 => fun _ => 0
  | j + 1 => match ops[j]? with
    | none => available j
    | some op => Function.update (available j) op.target
        (latest (available j) (release j) op.sources + latency)

/-- When operation `j` is finished. -/
def earliest (j : ℕ) : ℕ :=
  latest (available ops release latency j) (release j) (((ops[j]?).map Op.sources).getD [])

end

section
variable {f : R → ℕ} {t b : ℕ} {rs : List R}

omit [DecidableEq R] in
theorem latest_le_iff : latest f t rs ≤ b ↔ t ≤ b ∧ ∀ r ∈ rs, f r ≤ b := by
  induction rs with
  | nil => simp [latest]
  | cons r rs ih =>
    rw [latest, List.foldr_cons, ← latest, max_le_iff, ih, List.forall_mem_cons]
    exact and_left_comm

end

section
variable {ops : List (Op R)} {release : ℕ → ℕ} {latency : ℕ}

theorem lastWriter_lt {j : ℕ} {r : R} {i : ℕ} (h : lastWriter ops j r = some i) : i < j := by
  induction j with
  | zero => cases h
  | succ j ih =>
    rw [lastWriter] at h
    split_ifs at h with ht
    · cases h
      exact Nat.lt_succ_self i
    · exact (ih h).trans (Nat.lt_succ_self j)

/-- An operation that writes the variable is not after its last writer. -/
theorem le_lastWriter {i j : ℕ} {op : Op R} (hop : ops[i]? = some op) (hlt : i < j) :
    ∃ i', lastWriter ops j op.target = some i' ∧ i ≤ i' := by
  induction j with
  | zero => exact absurd hlt (Nat.not_lt_zero i)
  | succ j ih =>
    rw [lastWriter]
    split_ifs with ht
    · exact ⟨j, rfl, Nat.le_of_lt_succ hlt⟩
    · refine ih (Nat.lt_of_le_of_ne (Nat.le_of_lt_succ hlt) ?_)
      rintro rfl
      exact ht (by rw [hop, Option.map_some])

/-- The variables can be used when their last writers are finished. -/
theorem available_eq : ∀ (j : ℕ) (r : R), available ops release latency j r =
    ((lastWriter ops j r).map fun i => earliest ops release latency i + latency).getD 0
  | 0, _ => rfl
  | j + 1, r => by
    have ih := available_eq j r
    rw [available, lastWriter]
    cases hop : ops[j]? with
    | none => exact ih
    | some op =>
      by_cases hr : op.target = r
      · subst hr
        simp [earliest, hop]
      · simp only [Option.map_some, Option.some.injEq, if_neg hr]
        rw [Function.update_of_ne (fun h => hr h.symm)]
        exact ih

theorem earliest_le_iff {j b : ℕ} {op : Op R} (hop : ops[j]? = some op) :
    earliest ops release latency j ≤ b ↔ release j ≤ b ∧ ∀ r ∈ op.sources, ∀ i,
      lastWriter ops j r = some i → earliest ops release latency i + latency ≤ b := by
  rw [earliest, latest_le_iff, hop, Option.map_some, Option.getD_some]
  refine and_congr_right' (forall₂_congr fun r _ => ?_)
  rw [available_eq]
  cases lastWriter ops j r with
  | none => simp
  | some i => simp

/-- **The schedule is the earliest one**: nothing is finished before, if an operation is finished
    in time only when it is released and its sources are. -/
theorem earliest_le (finished : ℕ → ℕ → Prop)
    (hops : ∀ t j, finished t j → ∃ op, ops[j]? = some op)
    (hrelease : ∀ t j, finished t j → release j ≤ t)
    (hsources : ∀ t j op, finished t j → ops[j]? = some op → ∀ r ∈ op.sources, ∀ i,
      lastWriter ops j r = some i → ∃ t', t' + latency ≤ t ∧ finished t' i) (j : ℕ) :
    ∀ t, finished t j → earliest ops release latency j ≤ t := by
  induction j using Nat.strong_induction_on with
  | _ j ih =>
    intro t h
    obtain ⟨op, hop⟩ := hops t j h
    refine (earliest_le_iff hop).2 ⟨hrelease t j h, fun r hr i hi => ?_⟩
    obtain ⟨t', ht', h'⟩ := hsources t j op h hop r hr i hi
    exact (Nat.add_le_add_right (ih i (lastWriter_lt hi) t' h') latency).trans ht'

/-- Along a chain of dependent operations the latencies add up. -/
theorem chain_le {i k : ℕ} (hchain : ∀ j, i < j → j ≤ i + k → ∃ op r, ops[j]? = some op ∧
      r ∈ op.sources ∧ lastWriter ops j r = some (j - 1)) :
    earliest ops release latency i + latency * k ≤ earliest ops release latency (i + k) := by
  induction k with
  | zero => exact le_rfl
  | succ k ih =>
    obtain ⟨op, r, hop, hr, hlast⟩ := hchain (i + (k + 1)) (by omega) le_rfl
    have hself : earliest ops release latency (i + (k + 1)) ≤
      earliest ops release latency (i + (k + 1)) := le_rfl
    have hle := ((earliest_le_iff hop).1 hself).2 r hr _ hlast
    have := ih fun j hj hj' => hchain j hj (by omega)
    rw [Nat.add_sub_assoc (Nat.succ_pos k), Nat.succ_sub_one] at hle
    rw [Nat.mul_succ]
    omega

end

end Schedule
