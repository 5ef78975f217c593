/-
  Wake-up: `iq_set_fw` on the forwarding paths, in any order, makes the Integer Queue what
  `iq_refresh_ready` makes it, as long as no operand waits for a result that is an exception.
-/
import R10000.Forwarding
import R10000.Results.Operands

namespace R10000

open Fallible

/-- `iq_set_fw` on the forwarding paths of the ALUs, in the given order; the path of a bubble is
    skipped. -/
def forwardAll (order : List (Fin numAlus)) (p : Processor) :
    Except Fault (Fifo IqEntry iqCapacity) :=
  order.foldlM (fun iq i =>
    if (p.alus.get i).forwardingPath.type = .unknownType then .ok iq
    else iqSetFw iq (p.alus.get i).forwardingPath) p.iq

/-- The instructions at the forwarding paths. -/
def forwarded (order : List (Fin numAlus)) (p : Processor) : List Instruction :=
  (order.map fun i => (p.alus.get i).forwardingPath).filter (·.type ≠ .unknownType)

theorem forwardAll_ok (order : List (Fin numAlus)) (p : Processor) : ∃ iq,
    forwardAll order p = .ok iq ∧ iq.toList = p.iq.toList.map (broadcast (forwarded order p)) := by
  unfold forwardAll forwarded
  generalize p.iq = iq
  induction order generalizing iq with
  | nil => exact ⟨iq, rfl, (List.map_id _).symm⟩
  | cons i order ih =>
    rw [List.foldlM_cons, List.map_cons]
    by_cases ht : (p.alus.get i).forwardingPath.type = .unknownType
    · rw [if_pos ht, List.filter_cons_of_neg (by simpa using ht)]
      exact ih iq
    · obtain ⟨q, hq, hl⟩ := iqSetFw_ok iq (p.alus.get i).forwardingPath
      obtain ⟨iq', h1, h2⟩ := ih q
      rw [if_neg ht, List.filter_cons_of_pos (by simpa using ht), hq]
      refine ⟨iq', h1, ?_⟩
      rw [h2, hl, List.map_map]
      rfl

theorem iqRefreshReady_ok {p : Processor} (hs : Safe (view p)) : ∃ q,
    iqRefreshReady p = .ok () q ∧ q.iq.toList = p.iq.toList.map (view p).refresh := by
  obtain ⟨iq, h1, h2⟩ := refreshLoop_ok p.iq.count 0 p
    (by rw [Nat.zero_add, Fifo.length_toList]) fun en hen => (hs.iq_ok en hen).1
  refine ⟨{ p with iq }, ?_, h2⟩
  rw [← h1]
  rfl

theorem flagsExact_runFrom {P : Program} (hP : P.WellFormed) (ready : Bool)
    (uninit : ℕ → ℕ → UInt8) : ∀ n, (Machine.runFrom ready P uninit n).exceptionMode = false →
    FlagsExact (.runFrom ready P uninit n)
  | 0, _ => by
    intro en hen
    cases hen
  | n + 1, hm => by
    have hinv := Inv.runFrom hP ready uninit n
    have hmode : (Machine.runFrom ready P uninit n).commitStage.exceptionMode = false :=
      (cycle_frame (uninit n) _).1.symm.trans hm
    exact (hinv.normal (mode_of_commitStage hmode)).flagsExact_cycle (uninit n) hinv.safe hmode

theorem flagsExact_executed {m : Machine} (hs : Safe m) (h : Live m)
    (hflags : m.exceptionMode = false → FlagsExact m) :
    m.commitStage.executeStage.iq = [] ∨
      Normal m.commitStage.executeStage.stage1 m.commitStage.executeStage ∧
        FlagsExact m.commitStage.executeStage := by
  rcases h with hn | hr
  · obtain ⟨c, -, -, -, hret, ⟨hq, -⟩ | ⟨-, e, -, -, -, -, hr⟩⟩ := hn.commitStage
    · right
      rw [hq]
      exact ⟨hret.executeStage (m := m.retireN c),
        (hflags hn.mode).retireN hs hn hret⟩
    · exact .inl hr.iq
  · exact .inl (hr.commitStage hs).iq

/-- **Forwarding agrees with the refresh**, in every cycle of a run and whatever the order of the
    forwarding paths is, exactly if no instruction in the queue reads the destination of one at a
    forwarding path that is an exception: the refresh makes such an operand wait for the
    recovery, and forwarding would hand it a value. -/
theorem forwarding_agrees_iff {P : Program} (hP : P.WellFormed) (hshort : P.Short) (ready : Bool)
    (uninit : ℕ → ℕ → UInt8) (n : ℕ) : ∃ p q, runFrom ready P uninit n = some p ∧
      iqRefreshReady (atIssue p) = .ok () q ∧
      ∀ order : List (Fin numAlus), order.Perm (List.finRange numAlus) → ∃ iq,
        forwardAll order (atIssue p) = .ok iq ∧
        (iq.toList.map IqEntry.observed = q.iq.toList.map IqEntry.observed ↔
          ∀ i, ((atIssue p).alus.get i).forwardingPath.type ≠ .unknownType →
            ((atIssue p).alus.get i).forwardingPath.isException = true →
            ∀ en ∈ (atIssue p).iq.toList,
              ¬ en.instr.Reads ((atIssue p).alus.get i).forwardingPath.dest.phyId) := by
  obtain ⟨p, hp, hv⟩ := runFrom_ok hP ready uninit n
  have hs := safe_runFrom hP hp
  have hview := view_atIssue hs
  have hsafe : Safe (view (atIssue p)) := by
    rw [hview]
    exact hs.commitStage.executeStage.writeBackStage
  obtain ⟨q, hq, hql⟩ := iqRefreshReady_ok hsafe
  refine ⟨p, q, hp, hq, fun order horder => ?_⟩
  obtain ⟨iq, hiq, hl⟩ := forwardAll_ok order (atIssue p)
  refine ⟨iq, hiq, ?_⟩
  rw [hl, hql, List.map_map, List.map_map, List.map_inj_left]
  obtain ⟨ph, b, al, hframe⟩ := writeBackStage_frame (view p).commitStage.executeStage
  have hsame : (view (atIssue p)).iq = (view p).commitStage.executeStage.iq ∧
      (view (atIssue p)).stage1 = (view p).commitStage.executeStage.stage1 := by
    rw [hview, hframe]
    exact ⟨rfl, rfl⟩
  have hstage : (forwarded order (atIssue p)).Perm (view p).commitStage.executeStage.stage1 := by
    rw [← hsame.2, show (view (atIssue p)).stage1 = inStage Alu.stage1 (atIssue p).alus from rfl,
      inStage, ← map_forwardingPath]
    exact (horder.map _).filter _
  have hflags : (view p).exceptionMode = false → FlagsExact (view p) := by
    rw [hv]
    exact flagsExact_runFrom hP ready uninit n
  rcases flagsExact_executed hs (live_runFrom hP hshort hp) hflags with hnil | ⟨hn, hexact⟩
  · have hnil' : (atIssue p).iq.toList = [] := hsame.1.trans hnil
    rw [hnil']
    exact iff_of_true (by simp) (by simp)
  · have hentry : ∀ en ∈ (atIssue p).iq.toList,
        ((broadcast (forwarded order (atIssue p)) en).observed =
          ((view (atIssue p)).refresh en).observed ↔
        ∀ x ∈ (view p).commitStage.executeStage.stage1, x.isException = true →
          ¬ en.instr.Reads x.dest.phyId) := by
      intro en hen
      rw [hview]
      exact broadcast_iff hs.commitStage.executeStage hn hstage hexact (hsame.1 ▸ hen)
    have hmem : ∀ x, x ∈ (view p).commitStage.executeStage.stage1 ↔
        ∃ i, ((atIssue p).alus.get i).forwardingPath = x ∧ x.type ≠ .unknownType := by
      intro x
      rw [← hstage.mem_iff, forwarded, List.mem_filter, List.mem_map, decide_eq_true_eq]
      constructor
      · rintro ⟨⟨i, -, hi⟩, ht⟩
        exact ⟨i, hi, ht⟩
      · rintro ⟨i, hi, ht⟩
        exact ⟨⟨i, horder.mem_iff.2 (List.mem_finRange i), hi⟩, ht⟩
    constructor
    · intro hall i ht hexc en hen
      exact (hentry en hen).1 (hall en hen) _ ((hmem _).2 ⟨i, rfl, ht⟩) hexc
    · intro hno en hen
      refine (hentry en hen).2 fun x hx hexc => ?_
      obtain ⟨i, rfl, ht⟩ := (hmem x).1 hx
      exact hno i ht hexc en hen

/-- In the fifth cycle the first sum is at a forwarding path, and the second one waits for it. -/
theorem forwarding_agrees_iff_small : ∃ p q,
    runFrom false smallProgram (fun _ _ => 0) 4 = some p ∧
    iqRefreshReady (atIssue p) = .ok () q ∧
    ∀ order : List (Fin numAlus), order.Perm (List.finRange numAlus) → ∃ iq,
      forwardAll order (atIssue p) = .ok iq ∧
      (iq.toList.map IqEntry.observed = q.iq.toList.map IqEntry.observed ↔
        ∀ i, ((atIssue p).alus.get i).forwardingPath.type ≠ .unknownType →
          ((atIssue p).alus.get i).forwardingPath.isException = true →
          ∀ en ∈ (atIssue p).iq.toList,
            ¬ en.instr.Reads ((atIssue p).alus.get i).forwardingPath.dest.phyId) :=
  forwarding_agrees_iff smallProgram_wellFormed smallProgram_short false _ 4

end R10000
