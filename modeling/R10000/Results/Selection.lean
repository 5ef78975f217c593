/-
  Selection: `iq_get_first_n_ready` ends, takes the oldest ready entries before the first one
  that is an exception, and leaves the others in the queue as they are.
-/
import R10000.Lib.Loop
import R10000.Refine.Issue

namespace R10000

/-! ## What is selected -/

/-- The entries before the first one whose instruction is an exception. -/
def beforeException (l : List IqEntry) : List IqEntry := l.takeWhile fun en => !en.instr.isException

/-- From the queue `l`, `entries` are the first `n` ready ones before an exception, and `rest`
    is what remains: the scan goes through a first part of the queue, takes the ready entries
    out of it and leaves the others, and everything behind it, in their order. -/
structure Selects (n : ℕ) (l entries rest : List IqEntry) : Prop where
  entries_eq : entries = ((beforeException l).filter iqEntryIsReady).take n
  length_eq : entries.length = min n ((beforeException l).filter iqEntryIsReady).length
  remains : ∃ scanned left, l = scanned ++ left ∧ scanned <+: beforeException l ∧
    entries = scanned.filter iqEntryIsReady ∧
    rest = (scanned.filter fun en => !iqEntryIsReady en) ++ left
  perm : (entries ++ rest).Perm l

theorem select_entries : ∀ (n : ℕ) (l : List IqEntry),
    (select n l).1 = ((beforeException l).filter iqEntryIsReady).take n
  | 0, l => by rw [select, List.take_zero]
  | n + 1, [] => rfl
  | n + 1, en :: l => by
    rw [select, beforeException, List.takeWhile_cons]
    cases hx : en.instr.isException with
    | true => rfl
    | false =>
      simp only [Bool.false_eq_true, if_false, Bool.not_false, if_true, List.filter_cons]
      split_ifs with hr
      · rw [List.take_succ_cons, select_entries n l, beforeException]
      · rw [select_entries (n + 1) l, beforeException]

/-- The scan stops behind the last entry that it takes, at an exception or at the end. -/
theorem select_remains : ∀ (n : ℕ) (l : List IqEntry), ∃ scanned left, l = scanned ++ left ∧
    scanned <+: beforeException l ∧ (select n l).1 = scanned.filter iqEntryIsReady ∧
    (select n l).2 = (scanned.filter fun en => !iqEntryIsReady en) ++ left
  | 0, l => ⟨[], l, rfl, List.nil_prefix, by rw [select]; rfl, by rw [select]; rfl⟩
  | n + 1, [] => ⟨[], [], rfl, List.nil_prefix, rfl, rfl⟩
  | n + 1, en :: l => by
    rw [select]
    cases hx : en.instr.isException with
    | true => exact ⟨[], en :: l, rfl, List.nil_prefix, rfl, rfl⟩
    | false =>
      have hbefore : beforeException (en :: l) = en :: beforeException l := by
        rw [beforeException, List.takeWhile_cons, hx]
        rfl
      simp only [Bool.false_eq_true, if_false, hbefore]
      split_ifs with hr
      · obtain ⟨scanned, left, h1, h2, h3, h4⟩ := select_remains n l
        refine ⟨en :: scanned, left, by rw [h1, List.cons_append], ?_, ?_, ?_⟩
        · exact List.cons_prefix_cons.2 ⟨rfl, h2⟩
        · rw [h3, List.filter_cons, if_pos hr]
        · rw [h4, List.filter_cons, if_neg (by simp [hr])]
      · obtain ⟨scanned, left, h1, h2, h3, h4⟩ := select_remains (n + 1) l
        refine ⟨en :: scanned, left, by rw [h1, List.cons_append], ?_, ?_, ?_⟩
        · exact List.cons_prefix_cons.2 ⟨rfl, h2⟩
        · rw [h3, List.filter_cons, if_neg hr]
        · rw [h4, List.filter_cons, if_pos (by simp [hr]), List.cons_append]

theorem select_selects (n : ℕ) (l : List IqEntry) :
    Selects n l (select n l).1 (select n l).2 where
  entries_eq := select_entries n l
  length_eq := by rw [select_entries, List.length_take]
  remains := select_remains n l
  perm := select_perm n l

/-! ## The loop -/

/-- The variables of the loop of `iq_get_first_n_ready`: the index, the queue and the entries
    found so far, whose number is `count`. -/
structure ReadyScan where
  i : ℕ
  iq : Fifo IqEntry iqCapacity
  entries : List IqEntry

/-- One iteration of the loop of `iq_get_first_n_ready`: it goes on, or stops with the entries
    found and the queue. -/
def readyIteration (n : ℕ) (s : ReadyScan) :
    Except Fault (ReadyScan ⊕ (List IqEntry × Fifo IqEntry iqCapacity)) :=
  if s.i < s.iq.count ∧ s.entries.length < n then do
    let entry ← s.iq.peekLogical s.i
    if entry.instr.isException then
      return .inr (s.entries, s.iq)
    else if iqEntryIsReady entry then
      let (_, iq) ← s.iq.popLogical s.i
      return .inl { s with iq, entries := s.entries ++ [entry] }
    else
      return .inl { s with i := s.i + 1 }
  else
    return .inr (s.entries, s.iq)

/-- The entries that are left to look at. -/
def ReadyScan.left (s : ReadyScan) : ℕ := s.iq.count - s.i

/-- An iteration that goes on removes an entry or moves to the next one. -/
theorem readyIteration_left {n : ℕ} {s s' : ReadyScan} (h : readyIteration n s = .ok (.inl s')) :
    s'.left < s.left := by
  unfold readyIteration at h
  split_ifs at h with hg
  · have hi : s.i < s.iq.toList.length := by rw [Fifo.length_toList]; exact hg.1
    simp only [Fifo.peekLogical_ok hi, bind, Except.bind, pure, Except.pure] at h
    split_ifs at h with hx hr
    · cases h
    · obtain ⟨q, hq, hlist⟩ := Fifo.popLogical_ok hi
      rw [hq] at h
      cases h
      have hcount : q.count = s.iq.count - 1 := by
        rw [← Fifo.length_toList, hlist, List.length_eraseIdx_of_lt hi, Fifo.length_toList]
      simp only [ReadyScan.left, hcount]
      omega
    · cases h
      simp only [ReadyScan.left]
      omega
  · cases h

/-- **The loop ends**, with what `iqGetFirstNReady` returns. -/
theorem ends_iqGetFirstNReady (iq : Fifo IqEntry iqCapacity) (n : ℕ) :
    Loop.Ends (readyIteration n) ⟨0, iq, []⟩ (iqGetFirstNReady iq n) := by
  refine Loop.Ends.of_fuel (f := fun fuel s => getFirstNReadyLoop n fuel s.i s.iq s.entries)
    (μ := ReadyScan.left) (fun s s' => readyIteration_left) ?_ ?_ iq.count ⟨0, iq, []⟩
    (Nat.sub_le _ _)
  · intro s hs
    have hi : ¬ s.i < s.iq.count := by
      unfold ReadyScan.left at hs
      omega
    rw [readyIteration, if_neg fun h => hi h.1]
    rfl
  · intro fuel s
    rw [getFirstNReadyLoop, readyIteration]
    split_ifs with hg
    · cases s.iq.peekLogical s.i with
      | error e => rfl
      | ok entry =>
        simp only [bind, Except.bind, pure, Except.pure]
        split_ifs with hx hr
        · rfl
        · cases s.iq.popLogical s.i with
          | error e => rfl
          | ok r => rfl
        · rfl
    · rfl

/-- **Selection is oldest-first and loses nothing**, for every content of the queue in any
    rotation and every `n`: the loop ends, in one way only, and `iq_get_first_n_ready` returns
    the first `n` ready entries before an exception and leaves the others in their order. -/
theorem first_ready_selected (iq : Fifo IqEntry iqCapacity) (n : ℕ) : ∃ entries iq',
    iqGetFirstNReady iq n = .ok (entries, iq') ∧
    (∀ r, Loop.Ends (readyIteration n) ⟨0, iq, []⟩ r ↔ r = .ok (entries, iq')) ∧
    Selects n iq.toList entries iq'.toList := by
  obtain ⟨iq', hret, hrest⟩ := getFirstNReadyLoop_ok n iq.count 0 iq [] (by simp)
  simp only [List.take_zero, List.drop_zero, List.nil_append, List.length_nil, Nat.sub_zero]
    at hret hrest
  have hret' : iqGetFirstNReady iq n = .ok ((select n iq.toList).1, iq') := hret
  have hends := ends_iqGetFirstNReady iq n
  rw [hret'] at hends
  refine ⟨_, iq', hret', fun r => ⟨fun h => h.unique hends, ?_⟩, ?_⟩
  · rintro rfl
    exact hends
  · rw [hrest]
    exact select_selects n iq.toList

end R10000
