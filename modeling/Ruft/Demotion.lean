import Ruft.Reports

set_option autoImplicit false

/-!
# Higher terms demote

Every handler compares the term of its message with the current one. All but that of
`InstallSnapshot` step down and take over a newer term at once; the term of a snapshot
arrives with its installation, which leaves the role as it is.

## Main definitions

- `Demotes` — what a step owes to a newer term
- `MeetsTerms` — the events after which it does

## Main results

- `newer_term_demotes` — exactly the steps on such events demote
-/

namespace Ruft

open Program StepM

variable {C : Type} {c c' : RaftCore C} {from_ : NodeId} {event : Event C} {s : Ctx C}

/-- The term that a message carries; that of a pre-vote is only prospective. -/
def Message.carried : Message C → Option Nat
  | .requestVote term _ _ => some term
  | .preVoteResponse term _ => some term
  | .voteResponse term _ => some term
  | .appendEntries term _ _ _ _ _ => some term
  | .appendEntriesResponse term _ _ _ _ => some term
  | .installSnapshot term _ _ _ _ => some term
  | .installSnapshotResponse term _ => some term
  | .preVote _ _ _ | .heartbeat => none

/-- A newer term is taken over by a follower, and a leader leads in one term. -/
structure Demotes (c : RaftCore C) (event : Event C) (c' : RaftCore C) : Prop where
  stepsDown : ∀ envelope term, event = .messageReceived envelope →
    envelope.message.carried = some term → c.hardState.currentTerm < term →
    c'.role = .follower ∧ term ≤ c'.hardState.currentTerm
  keepsTerm : c.role = .leader → c'.role = .leader →
    c'.hardState.currentTerm = c.hardState.currentTerm

/-- No snapshot of a newer term comes in, and none is installed at a leader. -/
def MeetsTerms (c : RaftCore C) : Event C → Prop
  | .messageReceived envelope => ∀ term metadata offset bytes done,
      envelope.message = .installSnapshot term metadata offset bytes done →
      term ≤ c.hardState.currentTerm
  | .effectCompleted id (.snapshotInstalled _) => c.role = .leader → ∀ record from_ term,
      c.incomingSnapshotState = some (.installing id record from_ term) →
      term ≤ c.hardState.currentTerm
  | _ => True

/-! ## Messages of newer terms -/

/-- A message of a newer term that is not a chunk is answered after the term is durable. -/
theorem onMessage_newer {m : Message C} {term : Nat} (wf : c.WF)
    (carried : m.carried = some term) (newer : c.hardState.currentTerm < term)
    (notChunk : ∀ t metadata offset bytes done, m ≠ .installSnapshot t metadata offset bytes done)
    (run : onMessage from_ m ⟨c, []⟩ = (.ok (), s)) :
    s.core.role = .follower ∧ s.core.hardState.currentTerm = term ∧
      s.core.pendingPersist.isSome = true := by
  have raised : beginTermTransition term .none ⟨c, []⟩ = (.ok (), s) →
      s.core.role = .follower ∧ s.core.hardState.currentTerm = term ∧
        s.core.pendingPersist.isSome = true := by
    intro run
    obtain rfl := queuePersist_eq_ok (s := ⟨c.termRaised term, []⟩) run
    exact ⟨rfl, rfl, rfl⟩
  cases m with
  | heartbeat => simp [Message.carried] at carried
  | preVote => simp [Message.carried] at carried
  | installSnapshot t metadata offset bytes done => exact absurd rfl (notChunk _ _ _ _ _)
  | preVoteResponse t granted =>
    obtain rfl := Option.some.inj carried
    have run : (if c.hardState.currentTerm < t then _ else _ : StepM C Unit) _ = _ := run
    rw [if_pos newer] at run
    exact raised run
  | voteResponse t granted =>
    obtain rfl := Option.some.inj carried
    have run : (if c.hardState.currentTerm < t then _ else _ : StepM C Unit) _ = _ := run
    rw [if_pos newer] at run
    exact raised run
  | appendEntriesResponse t success matchIndex conflict context =>
    obtain rfl := Option.some.inj carried
    have run : (if c.hardState.currentTerm < t then _ else _ : StepM C Unit) _ = _ := run
    rw [if_pos newer] at run
    exact raised run
  | installSnapshotResponse t success =>
    obtain rfl := Option.some.inj carried
    have run : (if c.hardState.currentTerm < t then _ else _ : StepM C Unit) _ = _ := run
    rw [if_pos newer] at run
    exact raised run
  | requestVote t index logTerm =>
    obtain rfl := Option.some.inj carried
    have run : (if t < c.hardState.currentTerm then _ else _ : StepM C Unit) _ = _ := run
    rw [if_neg (by omega)] at run
    have run : (if c.hardState.currentTerm < t then _ else _ : StepM C Unit) _ = _ := run
    rw [if_pos newer, bind_run_ok (update_run _ _)] at run
    obtain rfl := queuePersist_eq_ok run
    exact ⟨rfl, rfl, rfl⟩
  | appendEntries t prev prevTerm leaderCommit context entries =>
    obtain rfl := Option.some.inj carried
    have run : onAppendEntries from_ t prev prevTerm leaderCommit context entries _ = _ := run
    rcases mergeAppend_cases wf.becomeFollower.log prev prevTerm leaderCommit entries with
      ⟨e, failed, -⟩ | ⟨hint, rejected, -⟩ | ⟨log, appended, -, -, merge, -, ran⟩
    · rw [onAppendEntries_run newer.le, bind_run_error failed] at run
      simp at run
    · rw [onAppendEntries_run newer.le, bind_run_ok rejected,
        answerAppend_changed (.inl newer)] at run
      obtain rfl := queuePersist_eq_ok run
      exact ⟨rfl, rfl, rfl⟩
    · rcases onAppendEntries_merged wf newer.le merge ran with
        ⟨same, -⟩ | ⟨hardState, -, -, queued⟩
      · omega
      · rw [queued] at run
        obtain rfl := queuePersist_eq_ok run
        exact ⟨rfl, rfl, rfl⟩

theorem step_newer [Sha256] {envelope : Envelope C} {term : Nat} {output : StepOutput C}
    (wf : c.WF) (running : c.stopped = false) (carried : envelope.message.carried = some term)
    (newer : c.hardState.currentTerm < term)
    (notChunk : ∀ t metadata offset bytes done,
      envelope.message ≠ .installSnapshot t metadata offset bytes done)
    (stepped : step c (.messageReceived envelope) = (.ok output, c')) :
    c'.role = .follower ∧ c'.hardState.currentTerm = term := by
  obtain ⟨members, s, s', received, applied, -, core⟩ := step_received running stepped
  have wf' : ({ c with activeMembers := members }).WF :=
    wf.congr rfl rfl rfl rfl rfl rfl rfl rfl rfl rfl rfl
  obtain ⟨role, current, waits⟩ := onMessage_newer wf' carried newer notChunk received
  have same : s' = s := (Prod.mk.inj (applied.symm.trans (emitApply_waits waits))).2
  obtain ⟨proposals, finished⟩ := s'.finished_core c
  rw [core, finished, same]
  exact ⟨role, current⟩

/-! ## Terms of a leader -/

theorem MessageAct.leader_term {m : Message C} (act : MessageAct c from_ m s)
    (leader : s.core.role = .leader) :
    s.core.hardState.currentTerm = c.hardState.currentTerm := by
  cases act with
  | voteFirst term index logTerm same => exact same.symm
  | termRaised | voteNewer | campaigned | appendRejected | appendAccepted => simp [Ctx.queued,
      RaftCore.termRaised, RaftCore.candidacy, RaftCore.merged, RaftCore.becomeFollower] at leader
  | _ => rfl

theorem CompletionAct.leader_term [Sha256] {id : EffectId} {outcome : EffectOutcome}
    (act : CompletionAct c id outcome s) (meets : MeetsTerms c (.effectCompleted id outcome))
    (before : c.role = .leader) : s.core.hardState.currentTerm = c.hardState.currentTerm := by
  cases act with
  | installed snapshotId record from_ term log found =>
    exact max_eq_left (meets before record from_ term found)
  | _ => rfl

theorem Act.leader_term [Sha256] (act : Act c event s) (meets : MeetsTerms c event)
    (before : c.role = .leader) (leader : s.core.role = .leader) :
    s.core.hardState.currentTerm = c.hardState.currentTerm := by
  cases act with
  | message envelope members s known mine act => exact act.leader_term leader
  | completed id outcome s act => exact act.leader_term meets before
  | campaigned notLeader => exact absurd before notLeader
  | readStarted readId =>
    obtain ⟨round, hr⟩ := Ctx.roundStarted_core ⟨c, []⟩ readId
    rw [hr]
  | _ => rfl

/-- A leader that leads on does so in its term. -/
theorem step_leader_term [Sha256] (wf : c.WF) (running : c.stopped = false)
    (meets : MeetsTerms c event) (before : c.role = .leader)
    {result : Outcome StepError (StepOutput C)} (returns : result ≠ Outcome.panic)
    (stepped : step c event = (result, c')) (leader : c'.role = .leader) :
    c'.hardState.currentTerm = c.hardState.currentTerm := by
  have paths : ∀ s, Path c event s → s.core.role = .leader →
      s.core.hardState.currentTerm = c.hardState.currentTerm := by
    rintro s ⟨s₀, _, act, rest⟩ leader
    have frame := FollowUps.frame rest
    rw [frame.term]
    exact act.leader_term meets before (frame.role ▸ leader)
  have cases := step_cases wf running event
  rw [stepped] at cases
  cases cases with
  | panicked => exact absurd rfl returns
  | halted e c' reason halted =>
    obtain ⟨-, reads, store, incoming, building, applying, persist, rfl⟩ := halted
    rfl
  | returned s changed path =>
    obtain ⟨role, hardState⟩ := s.finished_kept c
    exact (congrArg (·.currentTerm) hardState).trans (paths s path (role.symm.trans leader))
  | failed s e path => exact paths s path leader
  | crashed s e reason path => exact paths s path leader
  | invalid s e reason path =>
    obtain ⟨role, hardState⟩ := s.finished_kept c
    exact (congrArg (·.currentTerm) hardState).trans (paths s path (role.symm.trans leader))
  | stuck e s stuck =>
    cases stuck with
    | queued d batch continuation full act =>
      exact act.leader_term (s := Ctx.queued ⟨d, []⟩ batch continuation) meets before leader
    | dropped => rfl

/-! ## Snapshots of newer terms -/

theorem MessageAct.chunk_term {term : Nat} {metadata : SnapshotMetadata} {offset : Nat}
    {bytes : Bytes} {done : Bool}
    (act : MessageAct c from_ (.installSnapshot term metadata offset bytes done) s) :
    s.core.hardState = c.hardState := by
  cases act with
  | termRaised _ term is => simp [Message.responseTerm] at is
  | _ => rfl

/-- A chunk leaves the term as it is. -/
theorem step_chunk [Sha256] {envelope : Envelope C} {term : Nat} {metadata : SnapshotMetadata}
    {offset : Nat} {bytes : Bytes} {done : Bool} {output : StepOutput C} (wf : c.WF)
    (running : c.stopped = false)
    (is : envelope.message = .installSnapshot term metadata offset bytes done)
    (stepped : step c (.messageReceived envelope) = (.ok output, c')) :
    c'.hardState.currentTerm = c.hardState.currentTerm := by
  have cases := step_cases wf running (.messageReceived envelope)
  rw [stepped] at cases
  cases cases with
  | returned s changed path =>
    obtain ⟨s₀, _, act, rest⟩ := path
    obtain ⟨-, hardState⟩ := s.finished_kept c
    refine (congrArg (·.currentTerm) hardState).trans ((FollowUps.frame rest).term.trans ?_)
    cases act with
    | ignored => rfl
    | message _ members _ known mine act =>
      rw [is] at act
      rw [act.chunk_term]

theorem onOutgoingSnapshotCompletion_ok {id : EffectId} {snapshotId : SnapshotId} {b : Bool}
    (run : onOutgoingSnapshotCompletion id (.snapshotInstalled snapshotId) ⟨c, []⟩ = (.ok b, s)) :
    b = false ∧ s = ⟨c, []⟩ := by
  cases hr : c.pendingSnapshotReads.get id with
  | none =>
    rw [onOutgoingSnapshotCompletion_pass hr] at run
    simp only [Prod.mk.injEq, Except.ok.injEq] at run
    exact ⟨run.1.symm, run.2.symm⟩
  | some to_ =>
    rw [onOutgoingSnapshotCompletion, bind_run_ok (core_run _), hr] at run
    dsimp only at run
    rw [bind_run_ok (update_run _ _)] at run
    obtain ⟨sender, t, -, rest⟩ := bind_eq_ok run
    rw [bind_run_ok (update_run _ _)] at rest
    simp [StepM.raise] at rest

theorem onChunkStoreCompletion_ok [Sha256] {id : EffectId} {snapshotId : SnapshotId}
    {b : Option Bool}
    (run : onChunkStoreCompletion id (.snapshotInstalled snapshotId) ⟨c, []⟩ = (.ok b, s)) :
    b = none ∧ s = ⟨c, []⟩ := by
  by_cases other : ∀ p, c.pendingChunkStore = some p → p.id ≠ id
  · rw [onChunkStoreCompletion_pass other] at run
    simp only [Prod.mk.injEq, Except.ok.injEq] at run
    exact ⟨run.1.symm, run.2.symm⟩
  · push Not at other
    obtain ⟨pending, found, mine⟩ := other
    rw [onChunkStoreCompletion, bind_run_ok (core_run _), found] at run
    dsimp only at run
    rw [bind_run_ok (update_run _ _), if_neg (by simpa using mine),
      bind_run_ok (update_run _ _)] at run
    simp [StepM.raise] at run

theorem onInstallCompletion_ok {id : EffectId} {snapshotId : SnapshotId} {record : SnapshotRecord}
    {term : Nat} {b : Bool}
    (found : c.incomingSnapshotState = some (.installing id record from_ term))
    (run : onInstallCompletion id (.snapshotInstalled snapshotId) ⟨c, []⟩ = (.ok b, s)) :
    b = true ∧ s.core.role = c.role ∧
      s.core.hardState.currentTerm = max c.hardState.currentTerm term := by
  rw [onInstallCompletion, bind_run_ok (core_run _), found] at run
  dsimp only at run
  rw [bind_run_ok (update_run _ _), if_pos rfl] at run
  split at run
  · obtain ⟨log, t, installed, rest⟩ := bind_eq_ok run
    obtain ⟨-, rfl⟩ := lift_eq_ok installed
    rw [bind_run_ok (update_run _ _)] at rest
    obtain ⟨lastLogTerm, t, last, rest⟩ := bind_eq_ok rest
    obtain ⟨-, rfl⟩ := lift_eq_ok last
    rw [bind_run_ok (update_run _ _), bind_run_ok (core_run _), bind_run_ok (emit_run _ _)] at rest
    obtain ⟨returned, rfl⟩ := Prod.mk.inj rest
    exact ⟨(Except.ok.inj returned).symm, rfl, rfl⟩
  · rw [bind_run_ok (update_run _ _)] at run
    simp [StepM.raise] at run

/-- What a report of the pending installation does when it is accepted. -/
theorem onEffectCompleted_installed [Sha256] {id : EffectId} {snapshotId : SnapshotId}
    {record : SnapshotRecord} {term : Nat}
    (found : c.incomingSnapshotState = some (.installing id record from_ term))
    (run : onEffectCompleted id (.snapshotInstalled snapshotId) ⟨c, []⟩ = (.ok (), s)) :
    s.core.role = c.role ∧ s.core.hardState.currentTerm = max c.hardState.currentTerm term := by
  rw [onEffectCompleted, bind_run_ok (core_run _)] at run
  dsimp only at run
  split at run
  · simp [StepM.raise] at run
  obtain ⟨_, _, outgoing, rest⟩ := bind_eq_ok run
  obtain ⟨rfl, rfl⟩ := onOutgoingSnapshotCompletion_ok outgoing
  rw [if_neg (by simp)] at rest
  obtain ⟨_, _, incoming, rest⟩ := bind_eq_ok rest
  obtain ⟨_, _, stored, install⟩ := bind_eq_ok incoming
  obtain ⟨rfl, rfl⟩ := onChunkStoreCompletion_ok stored
  obtain ⟨rfl, role, current⟩ := onInstallCompletion_ok found install
  rw [if_pos rfl] at rest
  obtain ⟨-, rfl⟩ := Prod.mk.inj rest
  exact ⟨role, current⟩

/-- The installation of a snapshot leaves the role as it is and raises the term. -/
theorem step_installed [Sha256] {id : EffectId} {snapshotId : SnapshotId}
    {record : SnapshotRecord} {term : Nat} {output : StepOutput C} (running : c.stopped = false)
    (found : c.incomingSnapshotState = some (.installing id record from_ term))
    (stepped : step c (.effectCompleted id (.snapshotInstalled snapshotId)) = (.ok output, c')) :
    c'.role = c.role ∧ c'.hardState.currentTerm = max c.hardState.currentTerm term := by
  rw [step_eq running] at stepped
  obtain ⟨s', processed, -, core, -⟩ := conclude_eq_ok stepped
  obtain ⟨_, s, handled, applied⟩ := bind_eq_ok processed
  rw [handle, bind_run_ok (core_run _)] at handled
  obtain ⟨_, _, valid, rest⟩ := bind_eq_ok handled
  obtain ⟨-, rfl⟩ := lift_eq_ok valid
  obtain ⟨_, t, completed, recorded⟩ := bind_eq_ok rest
  obtain ⟨role, current⟩ := onEffectCompleted_installed found completed
  obtain ⟨-, rfl⟩ := Prod.mk.inj recorded
  obtain ⟨appliedRole, appliedState⟩ := emitApply_kept applied
  obtain ⟨finishedRole, finishedState⟩ := s'.finished_kept c
  rw [core, finishedRole, appliedRole, finishedState, appliedState]
  exact ⟨role, current⟩

/-! ## Exactly the steps that demote -/

/-- A step demotes exactly when no snapshot of a newer term comes in or is installed at a
leader, and a leader then keeps its term also in a step that fails. -/
theorem newer_term_demotes [Sha256] (config : Config) (recovered : RecoveredState C)
    {history : List (Record C)} (run : Trace (RaftCore.new config recovered) history c)
    (event : Event C) (result : Outcome StepError (StepOutput C)) (c' : RaftCore C)
    (stepped : step c event = (result, c')) :
    (c.stopped = false → ∀ output, result = .ok output →
      (Demotes c event c' ↔ MeetsTerms c event)) ∧
    (MeetsTerms c event → result ≠ Outcome.panic → c.role = .leader → c'.role = .leader →
      c'.hardState.currentTerm = c.hardState.currentTerm) := by
  have keepsTerm : MeetsTerms c event → result ≠ Outcome.panic → c.role = .leader →
      c'.role = .leader → c'.hardState.currentTerm = c.hardState.currentTerm := by
    intro meets returns before leader
    by_cases stopped : c.stopped = true
    · rw [(step_stopped stopped stepped).1]
    · exact step_leader_term (run.wf.resolve_left stopped) (by simpa using stopped) meets before
        returns stepped leader
  refine ⟨?_, keepsTerm⟩
  rintro running output rfl
  have wf := run.wf.resolve_left (by simp [running])
  constructor
  · intro demotes
    unfold MeetsTerms
    split
    · next envelope =>
      intro term metadata offset bytes done is
      by_contra newer
      have newer : c.hardState.currentTerm < term := Nat.not_le.mp newer
      have raised := (demotes.stepsDown envelope term rfl (by rw [is]; rfl) newer).2
      -- a chunk leaves the term as it is
      have same := step_chunk wf running is stepped
      omega
    · next id snapshotId =>
      intro leader record from_ term found
      -- an install raises the term and leaves the role
      obtain ⟨role, current⟩ := step_installed running found stepped
      have same := demotes.keepsTerm leader (role.trans leader)
      exact max_eq_left_iff.mp (current.symm.trans same)
    · trivial
  · intro meets
    refine ⟨?_, keepsTerm meets (by simp)⟩
    rintro envelope term rfl carried newer
    have notChunk : ∀ t metadata offset bytes done,
        envelope.message ≠ .installSnapshot t metadata offset bytes done := by
      intro t metadata offset bytes done is
      have le := meets t metadata offset bytes done is
      rw [is] at carried
      obtain rfl := Option.some.inj carried
      omega
    obtain ⟨role, current⟩ := step_newer wf running carried newer notChunk stepped
    exact ⟨role, current.ge⟩

/-- Node 2 asks node 1 for its vote in term 2. -/
def newerRequest : Envelope Nat := ⟨0, 2, 1, .requestVote 2 1 1⟩

/-- Node 1 leads term 1 and is asked for its vote in term 2. -/
theorem newer_term_demotes_leader : ∃ (w : World Nat) (output : StepOutput Nat)
    (c' : RaftCore Nat), @Run Nat sha256Empty trio w.history (w.core trio) ∧
    @step Nat sha256Empty (w.core trio 1) (.messageReceived newerRequest) = (.ok output, c') ∧
    (w.core trio 1).role = .leader ∧
    Demotes (w.core trio 1) (.messageReceived newerRequest) c' := by
  let _ : Sha256 := sha256Empty
  obtain ⟨w, run, checked⟩ := World.exec_any trio Script.electFirst
    (fun w => (!(w.core trio 1).stopped && (w.core trio 1).role = .leader) &&
      (step (w.core trio 1) (.messageReceived newerRequest)).1.isOk)
    (by decide +kernel)
  simp only [Bool.and_eq_true, Bool.not_eq_true', decide_eq_true_eq] at checked
  obtain ⟨⟨running, leader⟩, returned⟩ := checked
  obtain ⟨output, c', stepped⟩ := step_of_isOk returned
  refine ⟨w, output, c', run, stepped, leader, ?_⟩
  refine ((newer_term_demotes (trioConfig 1 (by decide)) .initial (run.trace 1) _ _ _ stepped).1
    running output rfl).mpr ?_
  rintro term metadata offset bytes done ⟨⟩

/-- The first chunk of a snapshot, of term 1. -/
def newerChunk : Envelope Nat :=
  ⟨0, 1, 3, .installSnapshot 1 (emptyBody 7 2 1 Nat.two_pos Nat.zero_lt_one) 0 [] true⟩

/-- Node 3 takes the chunk and stays in term 0. -/
theorem newer_chunk_ignored : ¬ ∀ (history : List (Record Nat)) (c c' : RaftCore Nat)
    (event : Event Nat) (output : StepOutput Nat), @Trace Nat sha256Empty (trio 3) history c →
    c.stopped = false → @step Nat sha256Empty c event = (.ok output, c') →
    Demotes c event c' := by
  let _ : Sha256 := sha256Empty
  intro h
  have returned : (step (trio 3) (.messageReceived newerChunk)).1.isOk = true ∧
      (step (trio 3) (.messageReceived newerChunk)).2.hardState.currentTerm = 0 := by
    decide +kernel
  obtain ⟨output, c', stepped⟩ := step_of_isOk returned.1
  have same : c'.hardState.currentTerm = 0 := by simpa [stepped] using returned.2
  have demotes := h [] (trio 3) c' _ output .start rfl stepped
  have raised := (demotes.stepsDown newerChunk 1 rfl rfl (by decide)).2
  omega

end Ruft
