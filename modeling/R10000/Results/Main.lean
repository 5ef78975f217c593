/-
  From the input file to the output file: which files `main` accepts, and what the last state
  that it writes has computed.
-/
import R10000.Main
import R10000.Results.Length
import R10000.Results.Operands

namespace R10000

/-! ## The last state -/

/-- A state in which nothing is left to do after the first `k` instructions of the program: its
    map table and its registers hold the results of executing them one by one. -/
structure Computed (P : Program) (k : ℕ) (s : StateJson) : Prop where
  activeList : s.activeList = []
  decodedPcs : s.decodedPcs = []
  integerQueue : s.integerQueue = []
  exception : s.exception = false
  idle : ∀ q : UInt8, q.toNat < 64 → rd s.busyBitTable q = false
  registers : ∃ R, P.exec k = some R ∧
    ∀ r : UInt8, r.toNat < 32 → rd s.physicalRegisterFile (rd s.registerMapTable r) = R r

/-- The program is executed to its end, or up to the first instruction that divides by zero. -/
def Program.Result (P : Program) (s : StateJson) : Prop :=
  ((∀ k, ¬ P.FaultsAt k) ∧ Computed P P.count s ∧ s.pc = P.count) ∨
    ∃ k, P.FaultsAt k ∧ Computed P k s ∧ s.pc = pcException ∧ s.exceptionPc = k

section
variable {P : Program} {uninit : ℕ → ℕ → UInt8} (hP : P.WellFormed) (hshort : P.Short)
  (hu : Benign uninit)
include hP hshort hu

/-- **In a fresh process a state that is ready to finish holds the result.** -/
theorem result_of_ready {n : ℕ} {p : Processor} (hp : runFrom false P uninit n = some p)
    (hready : p.readyToFinish = true) : P.Result (processorGetJson p) := by
  have hview := view_runFrom hP hp
  have hprog : (view p).program = P := program_runFrom hP hp
  have hv := hu.runHandsValid false P n
  have hr : (Machine.runFrom false P uninit n).readyToFinish = true := hview ▸ hready
  have hq : Quiet (view p) := hview ▸ quiet_of_ready hP hshort n hr
  have hempty := hq.emptied
  have hbusy : BusyExact p := by
    rcases live_runFrom hP hshort hp with h | h
    · exact busyExact (safe_runFrom hP hp) h.window
    · exact busyExact (safe_runFrom hP hp) h.window
  have hend := complete_of_drained hP hshort hv hp (drained_of_ready hP hshort hu n (.inl hr))
  have hc := correct_runFrom hP n hv
  rw [← hview] at hc
  have hcomputed : ∀ k, (committed false P uninit n).length = k → Val k (view p) →
      Computed P k (processorGetJson p) := by
    rintro k - hval
    obtain ⟨R, hR, hregs⟩ := hval.seq
    rw [hprog] at hR
    refine ⟨?_, ?_, ?_, hq.status, hbusy.recovered hempty.activeList, R, hR, fun r hlt => ?_⟩
    · simp only [processorGetJson, queueGetJson, hempty.activeList, List.map_nil]
    · simp only [processorGetJson, queueGetJson, hempty.dir, List.map_nil]
    · simp only [processorGetJson, queueGetJson, hempty.iq, List.map_nil]
    · rw [← hregs r hlt, hq.activeList]
      rfl
  have hval : Val (committed false P uninit n).length (view p) := by
    cases hm : (view p).exceptionMode with
    | true => exact (hc.fault (by rw [hprog]; exact hshort) hm).1
    | false => exact (hc.val hm).1
  by_cases hfault : ∃ k, P.FaultsAt k
  · obtain ⟨k, hk⟩ := hfault
    obtain ⟨hcommitted, -, hstatus, -, hpc⟩ := hend.2 k hk
    have hlen : (committed false P uninit n).length = k := by
      rw [hcommitted, List.length_range]
    refine .inr ⟨k, hk, hcomputed k hlen (hlen ▸ hval), hpc, ?_⟩
    change p.exceptionStatus.exceptionPc = k
    rw [hstatus]
  · rw [not_exists] at hfault
    obtain ⟨hcommitted, -, hpc⟩ := hend.1 hfault
    have hlen : (committed false P uninit n).length = P.count := by
      rw [hcommitted, List.length_range]
    exact .inl ⟨hfault, hcomputed _ hlen (hlen ▸ hval), hpc⟩

/-- Every simulation is over in time. -/
theorem finished_within : ∃ n ≤ 2 * P.count + 14,
    (Machine.runFrom false P uninit n).finished = true := by
  by_cases hfault : ∃ k, P.FaultsAt k
  · obtain ⟨k, hk⟩ := hfault
    obtain ⟨n, hn, hm, hm'⟩ := raised_of_fault hP hu hk
    obtain ⟨-, -, hrec⟩ := recovering hP hshort hm hm'
    have hroom := (Safe.runFrom hP false uninit (n + 1)).length_eq
    have hlt : k < P.count := by
      obtain ⟨-, x, -, hx, -⟩ := hk
      exact (List.getElem?_eq_some_iff.1 hx).1
    exact ⟨n + 1 + 10, by omega, (hrec 10).finished.2 (by omega)⟩
  · rw [not_exists] at hfault
    exact ⟨2 * P.count + 5, by omega, finished_of_committed hP hu hshort hfault⟩

/-- What `main` does with a program. -/
theorem simulate_ok {fuel : ℕ} (hfuel : 2 * P.count + 14 ≤ fuel) (writable : Bool) :
    ∃ out last, simulate P writable uninit fuel =
        some (if writable then ⟨0, some out⟩ else ⟨errFileParse, none⟩) ∧
      out.getLast? = some last ∧ P.Result last := by
  obtain ⟨n, hn, hfin⟩ := finished_within hP hshort hu
  obtain ⟨p₀, states, p, hinit, hlen, hsim, -⟩ := simulation_of_finished hP hfin
  have hrun := hsim fuel (by omega)
  obtain ⟨j, last, -, hlast, hj, hready, -⟩ := runSimulation_last hP hinit hrun
  refine ⟨states.map processorGetJson, processorGetJson last, ?_, ?_,
    result_of_ready hP hshort hu hj hready⟩
  · rw [simulate, hinit]
    simp only [hrun, Option.bind_eq_bind, Option.bind_some]
    split_ifs
    · rfl
    · rfl
  · rw [List.getLast?_map, hlast]
    rfl

end

/-! ## Accepted files -/

/-- The file is an array of at most `0x10000` items, and every text in it that the parser accepts
    has operands of the right kinds. -/
structure Runnable (items : List (Option (List Char))) : Prop where
  short : items.length ≤ pcException
  kinds : ∀ s, some s ∈ items → itemError (some s) = none → OperandKinds s

section
variable {items : List (Option (List Char))} (h : Runnable items) {uninit : ℕ → ℕ → UInt8}
include h

theorem Runnable.length_lt : items.length * 120 < 2 ^ 63 := by
  have := h.short
  rw [pcException] at this
  omega

/-- A file whose items are all accepted gives a program that the machine can run. -/
theorem Runnable.program (hall : items.findSome? itemError = none) : ∃ P,
    parseProgram items = .ok P ∧ P.WellFormed ∧ P.Short ∧ P.count = items.length := by
  cases hparse : parseProgram items with
  | error f =>
    rw [parseProgram_error_iff h.length_lt, hall] at hparse
    cases hparse
  | ok P =>
    have hp := parseProgram_ok.1 hparse
    have hlen : P.count = items.length := (parsed_getElem hp).1
    refine ⟨P, rfl, parsed_wellFormed hp ((parsed_fit_iff hp).2 fun s hs => ?_), ?_, hlen⟩
    · exact h.kinds s hs (List.findSome?_eq_none_iff.1 hall _ hs)
    · rw [Program.Short, hlen]
      exact h.short

end

/-- What `main` returns and writes. -/
theorem main_array {items : List (Option (List Char))} (hlen : items.length * 120 < 2 ^ 63)
    (writable : Bool) (uninit : ℕ → ℕ → UInt8) (fuel : ℕ) :
    (∀ f, items.findSome? itemError = some f →
      main 3 (.array items) writable uninit fuel = f.exit) ∧
    ∀ P, parseProgram items = .ok P →
      main 3 (.array items) writable uninit fuel = simulate P writable uninit fuel := by
  refine ⟨fun f hf => ?_, fun P hP => ?_⟩
  · rw [← parseProgram_error_iff hlen] at hf
    rw [main, if_neg (by simp)]
    simp only [hf]
  · rw [main, if_neg (by simp)]
    simp only [hP]

/-- **From the input file to the output file**: for a file whose items are all accepted, `main`
    returns 0 after a trace that ends in the results of sequential execution, up to the first
    division by zero if there is one. -/
theorem main_computes {items : List (Option (List Char))} (h : Runnable items)
    (hall : ∀ item ∈ items, itemError item = none) {uninit : ℕ → ℕ → UInt8} (hu : Benign uninit)
    {fuel : ℕ} (hfuel : 2 * items.length + 14 ≤ fuel) :
    ∃ (P : Program) (out : List StateJson) (last : StateJson),
      parseInstructions items = .ok P.instructions ∧
      main 3 (.array items) true uninit fuel = some ⟨0, some out⟩ ∧
      out.getLast? = some last ∧ P.Result last := by
  obtain ⟨P, hparse, hP, hshort, hcount⟩ := h.program (List.findSome?_eq_none_iff.2 hall)
  obtain ⟨out, last, hsim, hlast, hresult⟩ :=
    simulate_ok hP hshort hu (show 2 * P.count + 14 ≤ fuel by omega) true
  rw [← (main_array h.length_lt true uninit fuel).2 P hparse, if_pos rfl] at hsim
  exact ⟨P, out, last, parseProgram_ok.1 hparse, hsim, hlast, hresult⟩

/-- `add x1, x2, x3`, after `addi x2, x0, 5`. -/
def twoTexts : List (Option (List Char)) :=
  [some ['a', 'd', 'd', 'i', ' ', 'x', '2', ',', ' ', 'x', '0', ',', ' ', '5'], some registerText]

theorem runnable_twoTexts : Runnable twoTexts where
  short := by decide
  kinds := by
    intro s hs _
    rw [twoTexts, List.mem_cons, List.mem_singleton, Option.some.injEq, Option.some.injEq] at hs
    rcases hs with rfl | rfl
    · exact ⟨rfl, rfl, iff_of_false (by decide) (by decide)⟩
    · exact ⟨rfl, rfl, iff_of_true (by decide) (by decide)⟩

theorem accepted_twoTexts : ∀ item ∈ twoTexts, itemError item = none := by
  intro item hitem
  rw [twoTexts, List.mem_cons, List.mem_singleton] at hitem
  rcases hitem with rfl | rfl
  · rfl
  · rfl

theorem main_computes_two : ∃ (P : Program) (out : List StateJson) (last : StateJson),
    parseInstructions twoTexts = .ok P.instructions ∧
    main 3 (.array twoTexts) true (fun _ _ => 0) 18 = some ⟨0, some out⟩ ∧
    out.getLast? = some last ∧ P.Result last :=
  main_computes runnable_twoTexts accepted_twoTexts benign_zero
    (show 2 * twoTexts.length + 14 ≤ 18 by decide)

/-- **Exactly when `main` writes a trace**: with three arguments, a file that it can write to and
    no item that is rejected; otherwise the first such item decides what it returns. -/
theorem main_writes_iff {items : List (Option (List Char))} (h : Runnable items)
    {uninit : ℕ → ℕ → UInt8} (hu : Benign uninit) {fuel : ℕ}
    (hfuel : 2 * items.length + 14 ≤ fuel) (argc : ℕ) (writable : Bool) :
    ((∃ e out, main argc (.array items) writable uninit fuel = some e ∧ e.output = some out) ↔
      argc = 3 ∧ writable = true ∧ ∀ item ∈ items, itemError item = none) ∧
    ∀ f, items.findSome? itemError = some f →
      main 3 (.array items) writable uninit fuel = f.exit := by
  have hmain := main_array h.length_lt writable uninit fuel
  refine ⟨?_, hmain.1⟩
  constructor
  · rintro ⟨e, out, hexit, hout⟩
    by_cases hargc : argc = 3
    · subst hargc
      cases hfirst : items.findSome? itemError with
      | some f =>
        rw [hmain.1 f hfirst] at hexit
        cases f with
        | err c => cases hexit; cases hout
        | assertion => cases hexit
        | undefined => cases hexit
      | none =>
        obtain ⟨P, hparse, hP, hshort, hcount⟩ := h.program hfirst
        obtain ⟨out', -, hsim, -⟩ :=
          simulate_ok hP hshort hu (show 2 * P.count + 14 ≤ fuel by omega) writable
        rw [hmain.2 P hparse, hsim, Option.some.injEq] at hexit
        refine ⟨rfl, ?_, List.findSome?_eq_none_iff.1 hfirst⟩
        cases writable with
        | true => rfl
        | false => cases hexit; cases hout
    · rw [main, if_pos hargc] at hexit
      cases hexit
      cases hout
  · rintro ⟨rfl, rfl, hall⟩
    obtain ⟨P, hparse, hP, hshort, hcount⟩ := h.program (List.findSome?_eq_none_iff.2 hall)
    obtain ⟨out, -, hsim, -⟩ :=
      simulate_ok hP hshort hu (show 2 * P.count + 14 ≤ fuel by omega) true
    exact ⟨_, out, (hmain.2 P hparse).trans hsim, rfl⟩

theorem main_writes_iff_two :
    ((∃ e out, main 3 (.array twoTexts) true (fun _ _ => 0) 18 = some e ∧ e.output = some out) ↔
      3 = 3 ∧ true = true ∧ ∀ item ∈ twoTexts, itemError item = none) ∧
    ∀ f, twoTexts.findSome? itemError = some f →
      main 3 (.array twoTexts) true (fun _ _ => 0) 18 = f.exit :=
  main_writes_iff runnable_twoTexts benign_zero (by decide) 3 true

end R10000
