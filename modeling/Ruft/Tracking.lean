import Ruft.Rejections
import Ruft.Slots

set_option autoImplicit false

/-!
# Completion tracking

The core remembers which effects were completed as a frontier, below which every sequence
number is, and a sparse set above it. The outcomes are kept in a history of bounded length.
The frontier and the sparse set together are exactly the set of completed sequence numbers,
in whatever order the reports come.

## Main definitions

- `Record.completes` — the completion handler of the step succeeded
- `Tracked` — what the frontier, the sparse set and the history say about a run
-/

namespace Ruft

open Program StepM

variable {C : Type} {c d : RaftCore C} {id : EffectId} {outcome : EffectOutcome}

/-! ## The frontier and the history -/

/-- The merge loop moves sequence numbers from the sparse set to the frontier until there is a
gap. -/
theorem RaftCore.mergeFrontier_spec : ∀ {fuel frontier : Nat} {sparse : Finset Nat},
    frontier ≤ u64Max → (∀ n ∈ sparse, frontier < n ∧ n ≤ u64Max) → sparse.card ≤ fuel →
    (∀ n, (n ≤ (mergeFrontier fuel frontier sparse).1 ∨ n ∈ (mergeFrontier fuel frontier sparse).2) ↔
      (n ≤ frontier ∨ n ∈ sparse)) ∧
    (mergeFrontier fuel frontier sparse).1 ≤ u64Max ∧
    ∀ n ∈ (mergeFrontier fuel frontier sparse).2,
      (mergeFrontier fuel frontier sparse).1 + 1 < n ∧ n ≤ u64Max := by
  intro fuel
  induction fuel with
  | zero =>
    intro frontier sparse hf above enough
    obtain rfl : sparse = ∅ := Finset.card_eq_zero.mp (Nat.le_zero.mp enough)
    exact ⟨fun n => Iff.rfl, hf, by simp [mergeFrontier]⟩
  | succ fuel ih =>
    intro frontier sparse hf above enough
    rw [mergeFrontier]
    split
    · next hmem =>
      obtain ⟨hlt, hle⟩ := above _ hmem
      have hnext : saturatingNext frontier = frontier + 1 := by
        unfold saturatingNext at hlt ⊢
        omega
      rw [hnext] at hmem hle ⊢
      have above' : ∀ n ∈ sparse.erase (frontier + 1), frontier + 1 < n ∧ n ≤ u64Max := by
        intro n hn
        obtain ⟨hne, hin⟩ := Finset.mem_erase.mp hn
        have := above n hin
        omega
      have enough' : (sparse.erase (frontier + 1)).card ≤ fuel := by
        rw [Finset.card_erase_of_mem hmem]
        omega
      -- one number less in the set: the turns that are left are enough
      obtain ⟨same, bound, gap⟩ := ih hle above' enough'
      refine ⟨fun n => (same n).trans ?_, bound, gap⟩
      rw [Finset.mem_erase]
      by_cases hn : n = frontier + 1
      · subst hn
        simp [hmem]
      · simp only [ne_eq, hn, not_false_eq_true, true_and]
        exact or_congr_left (by omega)
    · next hmem =>
      refine ⟨fun n => Iff.rfl, hf, fun n hn => ?_⟩
      have hlt := above n hn
      have hne : n ≠ saturatingNext frontier := fun heq => hmem (heq ▸ hn)
      unfold saturatingNext at hne
      omega

/-- The eviction loop leaves no more ids than the limit, and an outcome only for these. -/
theorem RaftCore.evict_spec {limit : Nat} {order : List EffectId}
    {outcomes : BTreeMap EffectId EffectOutcome} (h : ∀ i ∈ outcomes.keys, i ∈ order) :
    (evict limit order outcomes).1.length ≤ limit ∧
    (∀ i ∈ (evict limit order outcomes).2.keys, i ∈ (evict limit order outcomes).1) := by
  induction order generalizing outcomes with
  | nil => exact ⟨Nat.zero_le _, h⟩
  | cons expired rest ih =>
    rw [evict]
    split
    · refine ih fun i hi => ?_
      obtain ⟨outcome, ho⟩ := BTreeMap.mem_keys.mp hi
      rw [BTreeMap.get_remove] at ho
      split at ho
      · simp at ho
      · next hne =>
        exact (List.mem_cons.mp (h i (BTreeMap.mem_keys.mpr ⟨outcome, ho⟩))).resolve_left hne
    · next hle => exact ⟨Nat.not_lt.mp hle, h⟩

/-- The record of completed effects, as the handlers leave it alone. -/
structure RaftCore.RecordWF (c : RaftCore C) : Prop where
  frontier : c.completedFrontier ≤ u64Max
  gap : ∀ n ∈ c.completedSparse, c.completedFrontier + 1 < n ∧ n ≤ u64Max
  held : ∀ i ∈ c.completedOutcomes.keys, i ∈ c.completionOrder
  bounded : c.completionOrder.length ≤ c.config.completionHistory

/-- The effect with this sequence number is recorded as completed. -/
def RaftCore.HasCompleted (c : RaftCore C) (n : Nat) : Prop :=
  n ≤ c.completedFrontier ∨ n ∈ c.completedSparse

theorem RaftCore.RecordWF.recordCompletion (h : c.RecordWF) (fits : id.sequence ≤ u64Max)
    (fresh : ¬ c.HasCompleted id.sequence) (outcome : EffectOutcome) :
    (c.recordCompletion id outcome).RecordWF ∧
    ∀ n, (c.recordCompletion id outcome).HasCompleted n ↔ c.HasCompleted n ∨ n = id.sequence := by
  simp only [HasCompleted, not_or, Nat.not_le] at fresh
  have evicted := @evict_spec c.config.completionHistory (c.completionOrder ++ [id])
    (c.completedOutcomes.insert id outcome) (by
      intro i hi
      obtain ⟨o, ho⟩ := BTreeMap.mem_keys.mp hi
      rw [BTreeMap.get_insert] at ho
      split at ho
      · next heq => simp [heq]
      · exact List.mem_append_left _ (h.held i (BTreeMap.mem_keys.mpr ⟨o, ho⟩)))
  by_cases hnext : id.sequence = saturatingNext c.completedFrontier
  · have hsucc : id.sequence = c.completedFrontier + 1 := by
      unfold saturatingNext at hnext
      omega
    obtain ⟨same, bound, gap⟩ := @mergeFrontier_spec c.completedSparse.card id.sequence
      c.completedSparse fits (fun n hn => by have := h.gap n hn; omega) le_rfl
    simp only [RaftCore.recordCompletion, if_pos hnext]
    refine ⟨⟨bound, gap, evicted.2, evicted.1⟩, fun n => (same n).trans ?_⟩
    simp only [HasCompleted]
    rw [hsucc]
    by_cases hn : n ∈ c.completedSparse
    · simp [hn]
    · simp only [hn, or_false]
      omega
  · simp only [RaftCore.recordCompletion, if_neg hnext]
    refine ⟨⟨h.frontier, fun n hn => ?_, evicted.2, evicted.1⟩, fun n => ?_⟩
    · rcases Finset.mem_insert.mp hn with rfl | hold
      · unfold saturatingNext at hnext
        have := h.frontier
        show c.completedFrontier + 1 < id.sequence ∧ id.sequence ≤ u64Max
        omega
      · exact h.gap n hold
    · simp only [HasCompleted, Finset.mem_insert]
      tauto

/-! ## The record along a step -/

/-- The bookkeeping without the stop flag. -/
def Bookkeeping.record (b : Bookkeeping) : Bookkeeping := { b with stopped := false, reason := none }

/-- The same effects are recorded as completed. -/
abbrev SameRecord (c d : RaftCore C) : Prop := c.bookkeeping.record = d.bookkeeping.record

theorem SameRecord.fields (h : SameRecord c d) : c.config = d.config ∧
    c.completedFrontier = d.completedFrontier ∧ c.completedSparse = d.completedSparse ∧
    c.completedOutcomes = d.completedOutcomes ∧ c.completionOrder = d.completionOrder ∧
    (c.nextEffectSequence ≤ u64Max) = (d.nextEffectSequence ≤ u64Max) := by
  simp only [SameRecord, Bookkeeping.record, RaftCore.bookkeeping, Bookkeeping.mk.injEq] at h
  obtain ⟨config, frontier, sparse, outcomes, order, -, -, counted⟩ := h
  exact ⟨config, frontier, sparse, outcomes, order, counted⟩

theorem SameRecord.recordWF (h : SameRecord c d) (wf : d.RecordWF) : c.RecordWF := by
  obtain ⟨config, frontier, sparse, outcomes, order, -⟩ := h.fields
  refine ⟨?_, ?_, ?_, ?_⟩
  · rw [frontier]; exact wf.frontier
  · rw [frontier, sparse]; exact wf.gap
  · rw [outcomes, order]; exact wf.held
  · rw [order, config]; exact wf.bounded

theorem SameRecord.hasCompleted (h : SameRecord c d) (n : Nat) :
    c.HasCompleted n ↔ d.HasCompleted n := by
  obtain ⟨-, frontier, sparse, -⟩ := h.fields
  rw [RaftCore.HasCompleted, RaftCore.HasCompleted, frontier, sparse]

theorem SameRecord.recordCompletion (h : SameRecord c d) (id : EffectId) (outcome : EffectOutcome) :
    SameRecord (c.recordCompletion id outcome) (d.recordCompletion id outcome) := by
  obtain ⟨config, frontier, sparse, outcomes, order, counted⟩ := h.fields
  simp only [SameRecord, Bookkeeping.record, RaftCore.bookkeeping, RaftCore.recordCompletion, config,
    frontier, sparse, outcomes, order, counted]

/-- `step` records nothing after the handler. -/
theorem conclude_record (c : RaftCore C) (run : Outcome StepError Unit × Ctx C) :
    SameRecord (conclude c run).2 run.2.core := by
  obtain ⟨r, s⟩ := run
  have finished : SameRecord (s.finished c).core s.core := by
    obtain ⟨proposals, hp⟩ := s.finished_core c
    rw [hp]
    rfl
  cases r with
  | error f =>
    cases f with
    | panic => rfl
    | raise e => cases e <;> rfl
  | ok u =>
    simp only [conclude]
    split <;> exact finished

/-- The completion handler of the step succeeded. -/
def Record.completes [Sha256] (r : Record C) (id : EffectId) : Prop :=
  r.before.stopped = false ∧ ∃ outcome, r.event = .effectCompleted id outcome ∧
    r.before.validateCompletion id outcome = .ok () ∧
    (onEffectCompleted id outcome ⟨r.before, []⟩).1 = .ok ()

/-- A step records an effect exactly when its completion handler succeeds. -/
theorem step_record [Sha256] (running : c.stopped = false) (event : Event C) :
    (∃ id outcome, event = .effectCompleted id outcome ∧
      c.validateCompletion id outcome = .ok () ∧ (onEffectCompleted id outcome ⟨c, []⟩).1 = .ok () ∧
      SameRecord (step c event).2 (c.recordCompletion id outcome)) ∨
    ((∀ id outcome, event = .effectCompleted id outcome →
      c.validateCompletion id outcome = .ok () → (onEffectCompleted id outcome ⟨c, []⟩).1 ≠ .ok ()) ∧
      SameRecord (step c event).2 c) := by
  have follow : ∀ s, handle event ⟨c, []⟩ = (.ok (), s) → SameRecord (step c event).2 s.core := by
    intro s hrun
    rw [step_eq running, process, bind_run_ok hrun]
    exact (conclude_record c _).trans
      (congrArg Bookkeeping.record (@plain_emitApplyIfNeeded C s).1)
  have fail : ∀ f s, handle event ⟨c, []⟩ = (.error f, s) → SameRecord (step c event).2 s.core := by
    intro f s hrun
    rw [step_eq running, process, bind_run_error hrun]
    exact conclude_record c _
  by_cases completed : ∃ id outcome, event = .effectCompleted id outcome ∧
      c.validateCompletion id outcome = .ok () ∧ (onEffectCompleted id outcome ⟨c, []⟩).1 = .ok ()
  · left
    obtain ⟨id, outcome, rfl, valid, ok⟩ := completed
    refine ⟨id, outcome, rfl, valid, ok, ?_⟩
    have orderly := @onEffectCompleted_orderly C c id outcome _
    revert orderly ok
    generalize hr : onEffectCompleted id outcome ⟨c, []⟩ = run
    intro ok orderly
    cases orderly with
    | passed a h => exact absurd h not_false
    | kept r s ends same =>
      obtain rfl : r = .ok () := ok
      refine (follow _ (by rw [handle_completed valid, bind_run_ok hr]; rfl)).trans ?_
      exact SameRecord.recordCompletion (congrArg Bookkeeping.record same) id outcome
    | rejected => simp [Outcome.raise] at ok
    | halted => simp [Outcome.raise] at ok
  · right
    refine ⟨fun id outcome is valid ok => completed ⟨id, outcome, is, valid, ok⟩, ?_⟩
    rcases handle_cases c event with orderly | ⟨id, outcome, s, is, valid, ok, -⟩ | rfl
    · revert orderly
      generalize hrun : handle event ⟨c, []⟩ = run
      intro orderly
      cases orderly with
      | passed a h => exact absurd h not_false
      | kept r s ends same =>
        cases r with
        | ok a => exact (follow s hrun).trans (congrArg Bookkeeping.record same)
        | error f => exact (fail f s hrun).trans (congrArg Bookkeeping.record same)
      | rejected e s same => exact (fail _ s hrun).trans (by rw [same])
      | halted e s stops same => exact (fail _ s hrun).trans (by rw [same]; rfl)
    · exact absurd ⟨id, outcome, is, valid, by rw [ok]⟩ completed
    · exact follow _ rfl

/-! ## The record along runs -/

/-- What the frontier, the sparse set and the history say about a run. -/
structure Tracked [Sha256] (history : List (Record C)) (c : RaftCore C) : Prop where
  exact_ : ∀ n, (1 ≤ n ∧ n ≤ c.completedFrontier) ∨ n ∈ c.completedSparse ↔
    ∃ r ∈ history, ∃ id, r.completes id ∧ id.sequence = n
  gap : ∀ n ∈ c.completedSparse, c.completedFrontier + 1 < n
  bounded : c.completedOutcomes.keys.length ≤ c.config.completionHistory
  rejected : ∀ r ∈ history, ∀ id, r.completes id → c.stopped = false → ∀ outcome,
    (step c (.effectCompleted id outcome)).1 = Outcome.raise (.input .alreadyCompleted) ∨
    (step c (.effectCompleted id outcome)).1 = Outcome.raise (.input .conflictingEffectOutcome)

theorem validateCompletion_eq_ok (h : c.validateCompletion id outcome = .ok ()) :
    id.generation = c.config.generation ∧ ¬ c.HasCompleted id.sequence := by
  unfold RaftCore.validateCompletion at h
  split at h
  · simp at h
  next hg =>
  split at h
  · split at h <;> simp at h
  · split at h
    · simp at h
    · next hf => exact ⟨not_not.mp hg, hf⟩

/-- A recorded effect is not completed again. -/
theorem step_recorded [Sha256] (running : c.stopped = false)
    (generation : id.generation = c.config.generation) (recorded : c.HasCompleted id.sequence)
    (outcome : EffectOutcome) :
    (step c (.effectCompleted id outcome)).1 = Outcome.raise (.input .alreadyCompleted) ∨
    (step c (.effectCompleted id outcome)).1 =
      Outcome.raise (.input .conflictingEffectOutcome) := by
  have raised : ∀ e, c.validateCompletion id outcome = Outcome.raise (.input e) →
      (step c (.effectCompleted id outcome)).1 = Outcome.raise (.input e) := by
    intro e hv
    have hrun : process (.effectCompleted id outcome) ⟨c, []⟩ =
        (Outcome.raise (.input e), ⟨c, []⟩) := by
      show ((liftPure (c.validateCompletion id outcome) >>= _) >>= _) _ = _
      rw [hv]
      rfl
    rw [step_eq running, hrun]
    rfl
  cases ho : c.completedOutcomes.get id with
  | none =>
    exact .inl (raised _ (by
      unfold RaftCore.validateCompletion
      rw [if_neg (not_not_intro generation), ho]
      exact if_pos recorded))
  | some previous =>
    by_cases same : previous = outcome
    · exact .inl (raised _ (by
        unfold RaftCore.validateCompletion
        rw [if_neg (not_not_intro generation), ho]
        exact if_pos same))
    · exact .inr (raised _ (by
        unfold RaftCore.validateCompletion
        rw [if_neg (not_not_intro generation), ho]
        exact if_neg same))

/-- The invariant of the record: what is recorded was completed under the core's generation. -/
structure Recording [Sha256] (init : RaftCore C) (history : List (Record C)) (c : RaftCore C) :
    Prop where
  wf : c.RecordWF
  config : c.config = init.config
  counted : c.nextEffectSequence ≤ u64Max
  recorded : ∀ n, 0 < n → (c.HasCompleted n ↔ ∃ r ∈ history, ∃ id, r.completes id ∧ id.sequence = n)
  generation : ∀ r ∈ history, ∀ id, r.completes id →
    id.generation = c.config.generation ∧ 0 < id.sequence

theorem Recording.same [Sha256] {init c' : RaftCore C} {history : List (Record C)} {r : Record C}
    (h : Recording init history c) (same : SameRecord c' c) (none_ : ∀ id, ¬ r.completes id) :
    Recording init (r :: history) c' := by
  obtain ⟨config, -, -, -, -, counted⟩ := same.fields
  refine ⟨same.recordWF h.wf, config.trans h.config, counted ▸ h.counted, fun n hn => ?_, ?_⟩
  · rw [same.hasCompleted, h.recorded n hn]
    simp [none_]
  · rw [config]
    rintro s hs id hid
    rcases List.mem_cons.mp hs with rfl | hs
    · exact absurd hid (none_ id)
    · exact h.generation s hs id hid

theorem Recording.completed [Sha256] {init c' : RaftCore C} {history : List (Record C)}
    {r : Record C} (h : Recording init history c) (same : SameRecord c' (c.recordCompletion id outcome))
    (valid : c.validateCompletion id outcome = .ok ()) (fits : id.sequence ≤ u64Max)
    (is : ∀ i, r.completes i ↔ i = id) : Recording init (r :: history) c' := by
  obtain ⟨generation, fresh⟩ := validateCompletion_eq_ok valid
  obtain ⟨config, -, -, -, -, counted⟩ := same.fields
  obtain ⟨wf, grown⟩ := h.wf.recordCompletion fits fresh outcome
  have config : c'.config = c.config := config
  refine ⟨same.recordWF wf, config.trans h.config, counted ▸ h.counted, fun n hn => ?_, ?_⟩
  · rw [same.hasCompleted, grown, h.recorded n hn]
    simp [is, or_comm, eq_comm]
  · rw [config]
    intro s hs i hi
    rcases List.mem_cons.mp hs with rfl | hs
    · obtain rfl := (is i).mp hi
      refine ⟨generation, Nat.pos_of_ne_zero fun hz => fresh ?_⟩
      exact .inl (by omega)
    · exact h.generation s hs i hi

theorem Trace.recording [Sha256] {config : Config} {recovered : RecoveredState C}
    {history : List (Record C)} (run : Trace (RaftCore.new config recovered) history c) :
    Recording (RaftCore.new config recovered) history c := by
  induction run with
  | start =>
    refine ⟨⟨Nat.zero_le _, by simp [RaftCore.new], ?_, Nat.zero_le _⟩, rfl, Nat.zero_le _, ?_, by simp⟩
    · intro i hi
      obtain ⟨o, ho⟩ := BTreeMap.mem_keys.mp hi
      simp [RaftCore.new] at ho
    · intro n hn
      simp [RaftCore.HasCompleted, RaftCore.new]
      omega
  | @step history c c' event result earlier allowed run returns ih =>
    by_cases hstop : c.stopped = true
    · obtain ⟨rfl, -⟩ := step_stopped hstop run
      refine ih.same rfl ?_
      rintro id ⟨running, -⟩
      simp [hstop] at running
    have running : c.stopped = false := by simpa using hstop
    have hc' : c' = (Ruft.step c event).2 := by rw [run]
    rcases step_record running event with ⟨id, outcome, rfl, valid, ok, same⟩ | ⟨none_, same⟩
    · have fits : id.sequence ≤ u64Max := by
        obtain ⟨r, hr, e, he, reports⟩ := allowed
        have slots := earlier.slots.resolve_left hstop
        exact (slots.issued e (mem_returnedEffects.mpr ⟨r, hr, he⟩) id reports.id_eq).2.2.trans
          ih.counted
      refine ih.completed (hc' ▸ same) valid fits fun i => ⟨?_, ?_⟩
      · rintro ⟨-, o, is, -⟩
        simp only [Event.effectCompleted.injEq] at is
        exact is.1.symm
      · rintro rfl
        exact ⟨running, outcome, rfl, valid, ok⟩
    · refine ih.same (hc' ▸ same) ?_
      rintro id ⟨-, outcome, is, valid, ok⟩
      exact none_ id outcome is valid ok

/-- The frontier and the sparse set are exactly the completed effects, the history stays within
its bound, and no recorded effect is completed again, along every run. -/
theorem completions_tracked [Sha256] (config : Config) (recovered : RecoveredState C)
    {history : List (Record C)} {c : RaftCore C}
    (run : Trace (RaftCore.new config recovered) history c) : Tracked history c := by
  have h := run.recording
  refine ⟨fun n => ?_, fun n hn => (h.wf.gap n hn).1, ?_, ?_⟩
  · by_cases hn : 0 < n
    · rw [← h.recorded n hn, RaftCore.HasCompleted]
      exact or_congr_left (and_iff_right hn)
    · obtain rfl : n = 0 := by omega
      constructor
      · rintro (⟨hpos, -⟩ | hs)
        · omega
        · have := (h.wf.gap 0 hs).1
          omega
      · rintro ⟨r, hr, id, hid, hz⟩
        have := (h.generation r hr id hid).2
        omega
  · have nodup : c.completedOutcomes.keys.Nodup :=
      c.completedOutcomes.keys_sorted.imp fun hab heq => by
        subst heq
        exact irrefl_of (· < ·) _ hab
    exact (nodup.subperm fun i hi => h.wf.held i hi).length_le.trans h.wf.bounded
  · intro r hr id hid running
    obtain ⟨generation, hpos⟩ := h.generation r hr id hid
    exact step_recorded running generation ((h.recorded _ hpos).mpr ⟨r, hr, id, hid, rfl⟩)

/-- The settings of node 3 with a history of one outcome. -/
def briefConfig : Config :=
  { trioConfig 3 (by decide) with completionHistory := 1, completionHistory_pos := Nat.one_pos }

/-- Node 3 stores an entry and the first chunk of a snapshot, which comes twice. The entry and the
second chunk are reported, and the chunk is reported again. -/
def completeOutOfOrder : List (Event Nat) :=
  let chunk : Event Nat := .messageReceived ⟨0, 1, 3, .installSnapshot 1
    { emptyBody 7 5 1 (Nat.succ_pos 4) Nat.zero_lt_one with size := 2 } 0 [1] false⟩
  let stored : Event Nat := .effectCompleted ⟨0, 3⟩ (.snapshotChunkStored 7 1 none)
  appendPending ++ [chunk, chunk, .effectCompleted ⟨0, 1⟩ .persisted, stored, stored]

/-- Effect 3 waits behind a gap, effect 1 has left the history, and the duplicate is rejected. -/
theorem completions_tracked_gap : ∃ w : Solo Nat,
    @Trace Nat sha256Empty (RaftCore.new briefConfig .initial) w.history w.core ∧
    w.core.completedFrontier = 1 ∧ w.core.completedSparse = {3} ∧
    w.core.completedOutcomes.keys = [⟨0, 3⟩] ∧
    (∃ r ∈ w.history, r.result = Outcome.raise (.input .alreadyCompleted)) ∧
    @Tracked Nat sha256Empty w.history w.core := by
  let _ : Sha256 := sha256Empty
  obtain ⟨w, run, checked⟩ := Solo.exec_any (RaftCore.new briefConfig .initial) completeOutOfOrder
    (fun w => (w.core.completedFrontier = 1) && (w.core.completedSparse = {3}) &&
      (w.core.completedOutcomes.keys = [⟨0, 3⟩]) &&
      w.history.any fun r => r.result = Outcome.raise (.input .alreadyCompleted))
    (by decide +kernel)
  simp only [Bool.and_eq_true, decide_eq_true_eq, List.any_eq_true] at checked
  obtain ⟨⟨⟨frontier, sparse⟩, kept⟩, rejected⟩ := checked
  exact ⟨w, run, frontier, sparse, kept, rejected, completions_tracked briefConfig .initial run⟩

end Ruft
