/-
  The schedule that the program allows: four instructions are fetched in a cycle, and an
  instruction is issued when the last writers of its registers are done.
-/
import R10000.Lib.Schedule
import R10000.Timing
import R10000.Values

namespace R10000

open Renaming Schedule

/-- What the instruction writes and reads. -/
def Instruction.op (x : Instruction) : Op UInt8 where
  target := x.dest.logId
  sources := x.opA.logId :: if x.opB.type = .reg then [x.opB.logId] else []

/-- The program as its reads and writes. -/
def Program.ops (P : Program) : List (Op UInt8) := P.instructions.map Instruction.op

/-- The first state in which instruction `j` can be done: five states after its fetch, two after
    the states in which the last writers of its registers can be done. -/
def Program.due (P : Program) (j : ℕ) : ℕ := earliest P.ops (fun j => j / 4 + 5) 2 j

theorem Program.ops_getElem {P : Program} {j : ℕ} {x : Instruction}
    (hx : P.instructions[j]? = some x) : P.ops[j]? = some x.op := by
  rw [Program.ops, List.getElem?_map, hx]
  rfl

/-! ## Programs without a fault -/

theorem Program.no_fault {P : Program}
    (h : ∀ x ∈ P.instructions, x.type ≠ .divu ∧ x.type ≠ .remu) (k : ℕ) : ¬ P.FaultsAt k := by
  rintro ⟨R, x, -, hx, hdiv, -⟩
  obtain ⟨h1, h2⟩ := h x (List.mem_of_getElem? hx)
  rcases hdiv with hdiv | hdiv
  · exact h1 hdiv
  · exact h2 hdiv

section
variable {P : Program} (hP : P.WellFormed) (hno : ∀ k, ¬ P.FaultsAt k)
include hP hno

theorem Program.exec_of_no_fault : ∀ j ≤ P.count, ∃ R, P.exec j = some R
  | 0, _ => ⟨_, rfl⟩
  | j + 1, hj => by
    obtain ⟨R, hR⟩ := exec_of_no_fault j (by omega)
    have hx := List.getElem?_eq_getElem (show j < P.instructions.length from hj)
    rw [exec_succ hx, hR, Option.bind_some, ← Option.ne_none_iff_exists']
    intro hnone
    exact hno j ⟨R, _, hR, hx, (Instruction.exec_eq_none (hP j _ hx).1.typed.1).1 hnone⟩

theorem Program.produced_of_no_fault {j : ℕ} (hj : j < P.count) : P.produced j ≠ none := by
  obtain ⟨R, hR⟩ := exec_of_no_fault hP hno j hj.le
  have hx := List.getElem?_eq_getElem (show j < P.instructions.length from hj)
  rw [produced_of_exec hR hx]
  intro hnone
  exact hno j ⟨R, _, hR, hx, (alu_eq_none (hP j _ hx).1.typed.1).1 hnone⟩

end

/-! ## The schedule -/

/-- The number of instructions that `n` cycles without backpressure fetch. -/
def Program.fetched (P : Program) (n : ℕ) : ℕ := min (4 * n) P.count

/-- The instructions that are fetched after `a` and before `b` cycles. -/
def Program.between (P : Program) (a b : ℕ) : List ℕ :=
  List.range' (P.fetched a) (P.fetched b - P.fetched a)

theorem Program.fetched_mono {P : Program} {a b : ℕ} (h : a ≤ b) : P.fetched a ≤ P.fetched b :=
  min_le_min_right _ (Nat.mul_le_mul_left 4 h)

theorem Program.fetched_succ_le {P : Program} (n : ℕ) : P.fetched n ≤ P.fetched (n - 1) + 4 := by
  unfold Program.fetched
  omega

/-- The schedule is as fast as the fetches: no instruction waits for an operand. -/
def Program.FetchBound (P : Program) : Prop := ∀ j < P.count, P.due j = j / 4 + 5

/-- Each instruction reads what the one before it writes. -/
def Program.Chained (P : Program) : Prop := ∀ (j : ℕ) (x y : Instruction),
  P.instructions[j]? = some x → P.instructions[j + 1]? = some y → x.dest.logId ∈ y.op.sources

/-- In a chain each instruction is due two states after the one before it. -/
theorem Program.Chained.due {P : Program} (h : P.Chained) {j : ℕ} (hj : j < P.count) :
    2 * j + 5 ≤ P.due j := by
  have hlinks : ∀ i, 0 < i → i ≤ 0 + j → ∃ op r, P.ops[i]? = some op ∧ r ∈ op.sources ∧
      lastWriter P.ops i r = some (i - 1) := by
    intro i hi hij
    obtain ⟨i, rfl⟩ := Nat.exists_eq_succ_of_ne_zero hi.ne'
    have hx := List.getElem?_eq_getElem (show i < P.instructions.length by
      rw [Program.count] at hj
      omega)
    have hy := List.getElem?_eq_getElem (show i + 1 < P.instructions.length by
      rw [Program.count] at hj
      omega)
    refine ⟨_, _, Program.ops_getElem hy, h i _ _ hx hy, ?_⟩
    rw [lastWriter, Program.ops_getElem hx, Option.map_some]
    exact if_pos rfl
  have hchain : P.due 0 + 2 * j ≤ P.due (0 + j) := chain_le hlinks
  have hfirst : 5 ≤ P.due 0 := by
    have hx := List.getElem?_eq_getElem (show 0 < P.instructions.length by
      rw [Program.count] at hj
      omega)
    exact ((earliest_le_iff (Program.ops_getElem hx)).1 (le_refl (P.due 0))).1
  rw [Nat.zero_add] at hchain
  omega

/-- The instruction reads a register only two groups of four after it was written. -/
theorem Program.FetchBound.source {P : Program} (h : P.FetchBound) {i j : ℕ} {x y : Instruction}
    (hx : P.instructions[i]? = some x) (hy : P.instructions[j]? = some y) (hlt : i < j)
    (hr : x.dest.logId ∈ y.op.sources) : i / 4 + 2 ≤ j / 4 := by
  have hj : j < P.count := (List.getElem?_eq_some_iff.1 hy).1
  obtain ⟨i', hlast, hle⟩ := le_lastWriter (Program.ops_getElem hx) hlt
  have hdue := ((earliest_le_iff (Program.ops_getElem hy)).1 (h j hj).le).2 _ hr i' hlast
  have hi' := h i' ((lastWriter_lt hlast).trans hj)
  rw [Program.due] at hi'
  omega

section
variable {k : ℕ} {m : Machine} {todo : List Instruction}

/-- **The last writer of a mapping that is not busy is done.**  The induction is on the entries
    that the mapping accounts for. -/
theorem writer_done (hs : Safe m) (hw : Window m.program m.logical m.isBusy m.activeList)
    (hi : InOrder k m) {r : UInt8} {i : ℕ} :
    ∀ (pre post : List ActiveListEntry), m.activeList = pre ++ post →
      rd m.isBusy (after (archMap m.logical m.activeList) (writes pre) r) = false →
      lastWriter m.program.ops (k + pre.length) r = some i →
      i < k ∨ ∃ e ∈ m.activeList, e.isDone = true ∧ e.pc = i := by
  intro pre
  induction pre using List.reverseRecOn with
  | nil => exact fun post _ _ hlast => .inl (lastWriter_lt hlast)
  | append_singleton pre e ih =>
    intro post hl hb hlast
    rw [List.append_assoc, List.singleton_append] at hl
    have he : e ∈ m.activeList := by simp [hl]
    obtain ⟨x, hx, hd⟩ := hw.program_dest e he
    have htarget : x.op.target = e.logDest := hd.symm
    have hpc := hi.pc_eq hl
    rw [hpc] at hx
    rw [writes_append, writes_cons, writes_nil, after_concat, write_reg, write_new] at hb
    rw [List.length_append, List.length_singleton, ← Nat.add_assoc, lastWriter,
      Program.ops_getElem hx, Option.map_some] at hlast
    by_cases hr : r = e.logDest
    · subst hr
      rw [Function.update_self] at hb
      rw [if_pos (congrArg some htarget), Option.some.injEq] at hlast
      have hnp : ¬ e.Pending := by
        intro hp
        rw [(hw.busy _ (curr_lt hs hw he)).2 ⟨e, he, rfl, hp⟩] at hb
        cases hb
      simp only [ActiveListEntry.Pending, not_or, Bool.not_eq_false] at hnp
      exact .inr ⟨e, he, hnp.1, hpc.trans hlast⟩
    · rw [Function.update_of_ne hr] at hb
      rw [if_neg (fun h => hr ((Option.some.inj h).symm.trans htarget))] at hlast
      exact ih _ hl hb hlast

theorem Normal.sources_done (hs : Safe m) (h : Normal todo m) (hi : InOrder k m)
    {x : Instruction} (hx : x ∈ m.stage0) {op : Op UInt8} (hop : m.program.ops[x.pc]? = some op)
    {r : UInt8} (hr : r ∈ op.sources) {i : ℕ}
    (hlast : lastWriter m.program.ops x.pc r = some i) :
    i < k ∨ ∃ e ∈ m.activeList, e.isDone = true ∧ e.pc = i := by
  have hx' : x ∈ m.flight todo := mem_flight.2 (.inr (.inl hx))
  have ht := h.tracked x hx'
  obtain ⟨hcA, hcB⟩ := h.captured x (List.mem_append_left _ hx)
  obtain ⟨e, he, -, hpc, -⟩ := h.entry hx'
  obtain ⟨pre, post, hl⟩ := List.append_of_mem he
  obtain ⟨y, hy, hfrom⟩ := ht.origin
  rw [Program.ops_getElem hy, Option.some.injEq] at hop
  have hoperand : ∀ o : Operand, o.type = .reg → o.logId = r →
      Renamed m.logical m.activeList x.pc o → Captured m o →
      i < k ∨ ∃ e ∈ m.activeList, e.isDone = true ∧ e.pc = i := by
    rintro o hreg rfl hren hcap
    have hmap := hren hreg
    rw [mapAt, ← hpc, filter_older h.window hl] at hmap
    have hb := (hcap hreg).1
    rw [hmap] at hb
    rw [← hpc, hi.pc_eq hl] at hlast
    exact writer_done hs h.window hi pre _ hl hb hlast
  rw [← hop, Instruction.op, List.mem_cons] at hr
  rcases hr with hr | hr
  · have hreg := (hs.stage0_ok x hx).fit.opA.1
    exact hoperand x.opA hreg ((hfrom.opA.logId_eq (hfrom.opA.type_eq ▸ hreg)).trans hr.symm)
      ht.opA hcA
  · by_cases hreg : y.opB.type = .reg
    · rw [if_pos hreg, List.mem_singleton] at hr
      exact hoperand x.opB (hfrom.opB.type_eq.trans hreg) ((hfrom.opB.logId_eq hreg).trans hr.symm)
        ht.opB hcB
    · rw [if_neg hreg] at hr
      cases hr

end

end R10000
