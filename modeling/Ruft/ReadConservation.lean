import Ruft.ReadAnswers

set_option autoImplicit false

/-!
# Reads are conserved

Between the step in which a node becomes leader and the one in which it stops to lead, every read
that it accepted is pending, in the round in flight, or answered, and only one of these. A step
that releases a round and then fails breaks this: its answers are dropped.

## Main results

- `reads_conserved` — in every run whose steps all meet `AnswersReach`, a leader conserves reads
- `read_lost` — a leader that cannot send on to a follower loses the read it confirmed
-/

namespace Ruft

open Program StepM

variable {C : Type} {c d : RaftCore C} {event : Event C} {s : Ctx C}

/-! ## One step -/

theorem process_config [Sha256] (wf : c.WF) {r : Outcome StepError Unit}
    (run : process event ⟨c, []⟩ = (r, s)) (returns : r ≠ .error .panic) :
    s.core.config = c.config := by
  have ran := process_ran wf event
  rw [run] at ran
  have followed : Path c event s → s.core.config = c.config := by
    rintro ⟨s₀, s, act, rest⟩
    exact (FollowUps.frame rest).config.trans act.config_eq
  cases ran with
  | panicked => exact absurd rfl returns
  | halted e c' stops halted =>
    obtain ⟨-, reads, store, incoming, building, applying, persist, rfl⟩ := halted
    rfl
  | followed r s returns path => exact followed path
  | overflowed s path => exact followed path
  | stuck e s stuck =>
    cases stuck with
    | queued d batch continuation full act slots config => exact config
    | dropped => rfl

/-- A step of a leader that goes on to lead. -/
structure LeaderStep (c : RaftCore C) (event : Event C) (r : Record C) : Prop where
  config : r.after.config = c.config
  reads : (r.after.waiting + readies r.effects : Multiset ReadId) = c.waiting + accepted c event

theorem leader_step [Sha256] (wf : c.WF) (running : c.stopped = false) (leader : c.role = .leader)
    {result : Outcome StepError (StepOutput C)} (run : step c event = (result, d))
    (returns : result ≠ Outcome.panic) (reach : AnswersReach c event)
    (room : d.nextReadContext < u64Max) (leads : d.role = .leader) (goesOn : d.stopped = false) :
    LeaderStep c event ⟨c, event, result, d⟩ := by
  rw [step_eq running] at run
  cases processed : process event ⟨c, []⟩ with
  | mk r s =>
    rw [processed] at run
    cases r with
    | error f => cases f with
      | panic => exact absurd (congrArg Prod.fst run).symm returns
      | raise e =>
        rcases s.core.fatalize_cases e with ⟨-, reason, stops⟩ | ⟨-, same⟩
        · simp only [conclude, stops, Prod.mk.injEq] at run
          obtain ⟨-, rfl⟩ := run
          simp [RaftCore.stop] at goesOn
        · simp only [conclude, same, Prod.mk.injEq] at run
          obtain ⟨rfl, rfl⟩ := run
          refine ⟨process_config wf processed (by simp), ?_⟩
          have ledger := process_ledger wf running leader processed (by simp) leads room
          rw [Ctx.ledger, failed_answers_nothing wf running leader reach processed room] at ledger
          exact ledger
    | ok u =>
      have ends : result = Outcome.panic ∨ d.stopped = true ∨ ∃ output, result = .ok output := by
        rw [conclude] at run
        split at run
        · exact .inl (congrArg Prod.fst run).symm
        · exact .inr (.inl (congrArg (fun r => r.2.stopped) run).symm)
        · exact .inr (.inr ⟨_, (congrArg Prod.fst run).symm⟩)
      rcases ends with panics | stops | ⟨output, rfl⟩
      · exact absurd panics returns
      · rw [goesOn] at stops
        simp at stops
      · obtain ⟨t, same, effects, rfl, -⟩ := conclude_eq_ok run
        obtain ⟨-, rfl⟩ := Prod.mk.inj same
        have role : s.core.role = .leader := by
          obtain ⟨proposals, core⟩ := s.finished_core c
          rwa [core] at leads
        rw [Ctx.finished_leader role] at effects room ⊢
        refine ⟨process_config wf processed (by simp), ?_⟩
        show (s.core.waiting + readies output.effects : Multiset ReadId) = _
        rw [effects]
        exact process_ledger wf running leader processed (by simp) role room

/-! ## A leadership -/

theorem leadership_leader {r : Record C} {earlier : List (Record C)} (leader : r.before.role = .leader) :
    leadership (r :: earlier) = r :: leadership earlier := by
  rw [leadership, if_pos leader]

theorem leadership_began {r : Record C} {earlier : List (Record C)} (other : r.before.role ≠ .leader) :
    leadership (r :: earlier) = [] := by
  rw [leadership, if_neg other]

/-- The first step of a leadership ends with no read. -/
theorem Conserved.began {r : Record C} {earlier : List (Record C)} (other : r.before.role ≠ .leader)
    (clean : StartsClean (r :: earlier)) : Conserved (r :: earlier) r.after := by
  rw [StartsClean, if_neg other] at clean
  obtain ⟨pending, round⟩ := clean
  have none : leadership (r :: earlier) = [] := leadership_began other
  constructor
  · rw [acceptedReads, releasedReads, none, RaftCore.waiting, RaftCore.roundReads, pending, round]
    rfl
  · rw [RaftCore.roundReads, pending, round]
    exact Nat.zero_le _

/-- A step of the leader keeps the account. -/
theorem Conserved.step {r : Record C} {earlier : List (Record C)} (leader : r.before.role = .leader)
    (h : Conserved earlier r.before) (stepped : LeaderStep r.before r.event r) :
    Conserved (r :: earlier) r.after := by
  obtain ⟨config, reads⟩ := stepped
  have taken : acceptedReads (r :: earlier) = acceptedReads earlier ++ accepted r.before r.event := by
    simp [acceptedReads, leadership_leader leader]
  have given : releasedReads (r :: earlier) = releasedReads earlier ++ readies r.effects := by
    simp [releasedReads, leadership_leader leader]
  constructor
  · rw [taken, given, ← Multiset.coe_add, ← Multiset.coe_add, h.same]
    calc r.before.waiting + (releasedReads earlier : Multiset ReadId) + accepted r.before r.event
        = r.before.waiting + accepted r.before r.event + releasedReads earlier := reads_swap _ _ _
      _ = r.after.waiting + readies r.effects + releasedReads earlier := by rw [reads]
      _ = r.after.waiting + (releasedReads earlier + readies r.effects) := by
        rw [Multiset.add_assoc, Multiset.add_comm (readies r.effects : Multiset ReadId)]
  · have size := congrArg Multiset.card reads
    simp only [RaftCore.waiting, Multiset.card_add, Multiset.coe_card] at size
    have bound := h.bound
    have room : (accepted r.before r.event).length = 0 ∨ (accepted r.before r.event).length = 1 ∧
        r.before.pendingReads.length + r.before.roundReads.length < r.before.config.maxPendingReads := by
      unfold accepted
      split
      · split
        · next space => exact .inr ⟨rfl, space.2.2⟩
        · exact .inl rfl
      · exact .inl rfl
    rw [config]
    omega

/-- The law along the runs of one core. -/
theorem Trace.conserves [Sha256] {config : Config} {recovered : RecoveredState C}
    {history : List (Record C)} (trace : Trace (RaftCore.new config recovered) history c)
    (leader : c.role = .leader) (running : c.stopped = false) (clean : StartsClean history)
    (contexts : ∀ r ∈ leadership history, r.after.nextReadContext < u64Max)
    (reach : ∀ r ∈ leadership history, AnswersReach r.before r.event) : Conserved history c := by
  induction trace with
  | start => simp [RaftCore.new] at leader
  | @step history c d event result earlier allowed run returns ih =>
    by_cases stopped : c.stopped = true
    · obtain ⟨rfl, -⟩ := step_stopped stopped run
      rw [running] at stopped
      simp at stopped
    by_cases leads : c.role = .leader
    · have goesOn : c.stopped = false := by simpa using stopped
      have wf := earlier.wf.resolve_left stopped
      rw [leadership_leader leads] at contexts reach
      rw [StartsClean, if_pos leads] at clean
      have before := ih leads goesOn clean (fun r hr => contexts r (List.mem_cons_of_mem _ hr))
        fun r hr => reach r (List.mem_cons_of_mem _ hr)
      exact before.step leads (leader_step wf goesOn leads run returns
        (reach _ List.mem_cons_self) (contexts _ List.mem_cons_self) leader running)
    · exact .began leads clean

/-- A leader conserves reads: from the step in which a node becomes leader without reads, as long
as it leads and is not stopped, the context counter does not run out and every step that answers
reads meets the condition, its accepted reads are the pending ones, those of the round and the
answered ones together, and what waits is within the limit. -/
theorem reads_conserved [Sha256] (config : NodeId → Config) (recovered : NodeId → RecoveredState C)
    {history : List (NodeId × Record C)} {cores : NodeId → RaftCore C}
    (run : Run (fun node => RaftCore.new (config node) (recovered node)) history cores)
    (node : NodeId) (leader : (cores node).role = .leader) (running : (cores node).stopped = false)
    (clean : StartsClean (localHistory history node))
    (contexts : ∀ r ∈ leadership (localHistory history node), r.after.nextReadContext < u64Max)
    (reach : ∀ r ∈ leadership (localHistory history node), AnswersReach r.before r.event) :
    Conserved (localHistory history node) (cores node) :=
  (run.trace node).conserves leader running clean contexts reach

/-! ## Runs -/

instance decideStartsClean : (history : List (Record C)) → Decidable (StartsClean history)
  | [] => isTrue trivial
  | r :: earlier =>
    have := decideStartsClean earlier
    inferInstanceAs (Decidable (if r.before.role = .leader then StartsClean earlier
      else r.after.pendingReads = [] ∧ r.after.readRound = none))

/-- `AckCompletes` as a check, for a leader that has nothing to commit or apply. -/
def ackCompletesCheck (c : RaftCore C) (to_ : NodeId) : Bool :=
  (c.progress.get to_).all (fun p => !p.canSend || decide (p.nextIndex ≤ c.log.lastIndex + 1)) &&
    !asksChunk c to_ && !decide (ApplyDue c) &&
    match quorumCommit c.log c.progress c.config.quorum c.hardState.currentTerm with
    | .ok none => true
    | _ => false

theorem ackCompletes_of_check {to_ : NodeId} (h : ackCompletesCheck c to_ = true) :
    AckCompletes c to_ := by
  simp only [ackCompletesCheck, Bool.and_eq_true, Bool.not_eq_true', decide_eq_false_iff_not] at h
  obtain ⟨⟨⟨known, quiet⟩, idle⟩, found⟩ := h
  split at found
  · next none =>
    refine ⟨fun p hp free => ?_, fun asks => ?_, fun _ => ⟨_, none⟩, ?_, fun _ owed => ?_⟩
    · simpa [hp, free] using known
    · rw [quiet] at asks
      simp at asks
    · rintro ⟨-, i, some⟩
      simp [none] at some
    · exact absurd owed.2 idle
  · simp at found

/-- `AnswersReach` as a check, for a leader whose reads wait for an acknowledgement. -/
def answersReachCheck (c : RaftCore C) : Event C → Bool
  | .messageReceived envelope => match envelope.message with
    | .appendEntriesResponse _ true matchIndex _ (some _) =>
      match c.progress.get envelope.from_ with
      | some p =>
        match (p.acknowledged (min matchIndex c.log.lastIndex) : Outcome StepError _) with
        | .ok (q, _) => !decide (ApplyDue c) &&
            ackCompletesCheck { c with progress := c.progress.insert envelope.from_ q } envelope.from_
        | _ => true
      | none => true
    | _ => true
  | .effectCompleted _ (.applied _) => c.readRound.isNone && c.pendingReads.isEmpty
  | _ => true

theorem answersReach_of_check (h : answersReachCheck c event = true) : AnswersReach c event := by
  intro running leader
  cases event with
  | messageReceived envelope =>
    dsimp only
    split
    · next term matchIndex conflict context message =>
      intro valid current releases p found q changed moved
      rw [answersReachCheck, message] at h
      dsimp only at h
      rw [found] at h
      dsimp only at h
      rw [moved] at h
      simp only [Bool.and_eq_true, Bool.not_eq_true', decide_eq_false_iff_not] at h
      split
      · exact ackCompletes_of_check h.2
      · exact fun owed => absurd owed.2 h.1
    · trivial
  | effectCompleted id outcome =>
    cases outcome with
    | applied through =>
      simp only [answersReachCheck, Bool.and_eq_true, Option.isNone_iff_eq_none,
        List.isEmpty_iff] at h
      rintro - (⟨round, found, -⟩ | ⟨starts, -⟩)
      · rw [h.1] at found
        simp at found
      · exact absurd h.2 starts.queued
    | _ => trivial
  | _ => trivial

/-- Node 1 answers a read that node 2 confirms. -/
def answerRead : List (Move Nat) := Script.commitTwo ++
  [.event 1 (.read 9 []), Script.deliver 18, Script.applied 2 4 1, Script.persisted 2 5,
    Script.deliver 20]

theorem reads_conserved_answered : ∃ w : World Nat,
    @Run Nat sha256Empty trio w.history (w.core trio) ∧
    releasedReads (localHistory w.history 1) = [9] ∧
    Conserved (localHistory w.history 1) (w.core trio 1) := by
  let _ : Sha256 := sha256Empty
  obtain ⟨w, run, checked⟩ := World.exec_any trio answerRead
    (fun w => decide (releasedReads (localHistory w.history 1) = [9]) &&
      decide ((w.core trio 1).role = .leader) && !(w.core trio 1).stopped &&
      decide (StartsClean (localHistory w.history 1)) &&
      (leadership (localHistory w.history 1)).all fun r =>
        decide (r.after.nextReadContext < u64Max) && answersReachCheck r.before r.event)
    (by decide +kernel)
  simp only [Bool.and_eq_true, decide_eq_true_eq, Bool.not_eq_true', List.all_eq_true] at checked
  obtain ⟨⟨⟨⟨answered, leader⟩, running⟩, clean⟩, steps⟩ := checked
  exact ⟨w, run, answered, reads_conserved trioConfigs (fun _ => .initial) run 1 leader running clean
    (fun r hr => (steps r hr).1) fun r hr => answersReach_of_check (steps r hr).2⟩

/-- Node 1 appends four entries in the terms 1 and 2, which nobody gets. Node 3 wins term 3 and
overwrites them with its no-op, and node 1 wins term 4 with the vote of node 2. -/
def truncatedLeader : List (Move Nat) := Script.electFirst ++
  [Script.propose 1 1 7, Script.persisted 1 3, Script.propose 1 2 8, Script.persisted 1 4,
    .event 1 (.tick .heartbeat), Script.elect 1, Script.deliver 8, Script.deliver 10,
    Script.persisted 1 5, Script.deliver 11, Script.persisted 2 2, Script.deliver 12,
    Script.persisted 3 1, Script.deliver 13, Script.persisted 1 6, Script.elect 3,
    Script.deliver 18, Script.deliver 19, Script.persisted 3 2, Script.deliver 21,
    Script.persisted 2 3, Script.deliver 22, Script.persisted 3 3, Script.deliver 23,
    Script.persisted 1 7, Script.deliver 25, Script.deliver 26, Script.persisted 1 8,
    Script.elect 1, Script.deliver 28, Script.deliver 30, Script.persisted 1 9, Script.deliver 31,
    Script.persisted 2 4, Script.deliver 33, Script.persisted 1 10]

/-- Node 2 refuses an old append of term 2 with the index 4 that it was about, and the answer
arrives when node 1 has committed both its entries with node 2. Node 2 then confirms a read. -/
def lastRead : List (Move Nat) := truncatedLeader ++
  [Script.deliver 15, Script.deliver 34, Script.deliver 37, Script.deliver 38,
    Script.persisted 2 5, Script.deliver 39, Script.deliver 40, Script.persisted 2 6,
    Script.deliver 41, Script.persisted 1 11, Script.applied 1 12 2, Script.deliver 36,
    .event 1 (.read 9 []), Script.deliver 43, Script.persisted 2 7, Script.deliver 45]

/-- No snapshot is being received. -/
def ReceivesNothing (c : RaftCore C) : Prop := c.incomingSnapshot = none ∧
  c.pendingChunkStore = none ∧ c.incomingSnapshotState = none

instance (c : RaftCore C) : Decidable (ReceivesNothing c) := inferInstanceAs (Decidable (_ ∧ _ ∧ _))

/-- Node 1 ends with a read that it accepted, does not hold and did not answer. -/
theorem read_lost : ¬ ∀ (history : List (NodeId × Record Nat)) (cores : NodeId → RaftCore Nat),
    @Run Nat sha256Empty trio history cores → ∀ node, (cores node).role = .leader →
    (cores node).stopped = false → StartsClean (localHistory history node) →
    (∀ r ∈ leadership (localHistory history node),
      r.after.nextReadContext < u64Max ∧ ReceivesNothing r.after) →
    Conserved (localHistory history node) (cores node) := by
  let _ : Sha256 := sha256Empty
  intro h
  obtain ⟨w, run, checked⟩ := World.exec_any trio lastRead
    (fun w => decide (acceptedReads (localHistory w.history 1) = [9]) &&
      decide (releasedReads (localHistory w.history 1) = []) &&
      decide ((w.core trio 1).role = .leader) && !(w.core trio 1).stopped &&
      decide ((w.core trio 1).pendingReads = []) && decide ((w.core trio 1).roundReads = []) &&
      decide (StartsClean (localHistory w.history 1)) &&
      (leadership (localHistory w.history 1)).all fun r =>
        decide (r.after.nextReadContext < u64Max) && decide (ReceivesNothing r.after))
    (by decide +kernel)
  simp only [Bool.and_eq_true, decide_eq_true_eq, Bool.not_eq_true', List.all_eq_true] at checked
  obtain ⟨⟨⟨⟨⟨⟨⟨taken, answered⟩, leader⟩, running⟩, pending⟩, round⟩, clean⟩, steps⟩ := checked
  have account := (h _ _ run 1 leader running clean steps).same
  rw [taken, answered, RaftCore.waiting, pending, round] at account
  simp at account

end Ruft
