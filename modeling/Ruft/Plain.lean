import Ruft.Refines

set_option autoImplicit false

/-!
# What the handlers leave alone

Only `record_completion` writes the record of completed effects, and only the failure of an
effect or a shutdown stops the core. Every other handler leaves both alone, and the errors
it raises neither reject an input nor stop the core.

## Main definitions

- `Bookkeeping` — what the handlers leave alone
- `Plain` — a handler that leaves it alone
-/

namespace Ruft

open Program StepM

variable {C : Type}

/-- The configuration, the record of completed effects, the stop flag with its reason, and
whether the effect counter fits its machine word. -/
structure Bookkeeping where
  config : Config
  frontier : Nat
  sparse : Finset Nat
  outcomes : BTreeMap EffectId EffectOutcome
  order : List EffectId
  stopped : Bool
  reason : Option StoppedReason
  counted : Prop

def RaftCore.bookkeeping (c : RaftCore C) : Bookkeeping :=
  ⟨c.config, c.completedFrontier, c.completedSparse, c.completedOutcomes, c.completionOrder,
    c.stopped, c.stoppedReason, c.nextEffectSequence ≤ u64Max⟩

/-- The errors of a computation that could not go on. -/
def StepError.Plain : StepError → Prop
  | .arithmetic _ | .log _ | .entry _ | .invalidSnapshot => True
  | _ => False

abbrev Plain {α : Type} (m : StepM C α) : Prop :=
  Leaves (fun s : Ctx C => s.core.bookkeeping) (fun _ => True) StepError.Plain m

/-! ## Effects, replication and reads -/

theorem plain_core : Plain (core : StepM C _) := fun _ => ⟨rfl, trivial⟩

theorem plain_update (f : RaftCore C → RaftCore C)
    (h : ∀ c, (f c).bookkeeping = c.bookkeeping) : Plain (update f) :=
  fun s => ⟨h s.core, trivial⟩

theorem plain_set {α : Type} {A : α → Prop} {f : RaftCore C → RaftCore C} {g : Unit → StepM C α}
    (h : ∀ c, (f c).bookkeeping = c.bookkeeping)
    (hg : ∀ a, Leaves (fun s : Ctx C => s.core.bookkeeping) A StepError.Plain (g a)) :
    Leaves (fun s : Ctx C => s.core.bookkeeping) A StepError.Plain (update f >>= g) :=
  (plain_update f h).seq hg

theorem plain_emit (e : Effect C) : Plain (emit e) := fun _ => ⟨rfl, trivial⟩

theorem plain_emitAll (es : List (Effect C)) : Plain (emitAll es) := fun _ => ⟨rfl, trivial⟩

theorem plain_liftLog {α : Type} (m : Outcome LogError α) : Plain (liftLog m : StepM C α) := by
  refine Leaves.lift ?_
  cases m with
  | ok a => trivial
  | error e => cases e <;> trivial

theorem plain_liftNext (n : Nat) : Plain (liftNext n : StepM C Nat) := by
  refine Leaves.lift ?_
  cases checkedNext n <;> trivial

theorem plain_liftEntry (m : Except EntryError (Entry C)) : Plain (liftEntry m) := by
  refine Leaves.lift ?_
  cases m <;> trivial

theorem plain_sub (a b : Nat) : Plain (liftPure (Outcome.sub a b) : StepM C Nat) := by
  refine Leaves.lift ?_
  unfold Outcome.sub
  split <;> trivial

theorem expectNext_plain (n : Nat) :
    (expectNext n : Outcome StepError Nat).Satisfies (fun _ => True) StepError.Plain := by
  unfold expectNext
  cases checkedNext n <;> trivial

theorem Progress.sent_plain (p : Progress) (endIndex : Nat) :
    (p.sent endIndex : Outcome StepError Progress).Satisfies (fun _ => True) StepError.Plain := by
  unfold Progress.sent
  dsimp only
  split
  · have := expectNext_plain endIndex
    cases h : (expectNext endIndex : Outcome StepError Nat) with
    | ok n => trivial
    | error e => rw [h] at this; cases e <;> exact this
  · trivial

theorem Progress.new_plain (nextIndex maxInflight : Nat) :
    (Progress.new nextIndex maxInflight : Outcome StepError Progress).Satisfies (fun _ => True)
      StepError.Plain := by
  by_cases fits : maxInflight ≤ maxCapacity
  · rw [Progress.new_eq_ok fits]
    trivial
  · rw [Progress.new_panics (Nat.not_le.mp fits)]
    trivial

theorem plain_initializeProgress : Plain (initializeProgress : StepM C Unit) := by
  refine plain_core.seq fun c => (Leaves.lift (expectNext_plain _)).seq fun next =>
    plain_set (fun _ => rfl) fun _ => Leaves.forEach (fun node => ?_) _
  exact (Leaves.lift (Progress.new_plain _ _)).seq fun _ => plain_update _ fun _ => rfl

theorem plain_nextEffectId : Plain (nextEffectId : StepM C EffectId) := by
  intro s
  by_cases room : s.core.nextEffectSequence < u64Max
  · rw [nextEffectId_run room]
    refine ⟨?_, trivial⟩
    have before : (s.core.nextEffectSequence ≤ u64Max) = True := eq_true room.le
    have after : (s.core.nextEffectSequence + 1 ≤ u64Max) = True := eq_true room
    simp only [RaftCore.bookkeeping, before, after]
  · rw [nextEffectId_overflow room]
    exact ⟨rfl, trivial⟩

theorem plain_queuePersist (batch : PersistBatch C) (k : PersistContinuation) :
    Plain (queuePersist batch k) :=
  plain_nextEffectId.seq fun _ => plain_set (fun _ => rfl) fun _ => plain_emit _

theorem plain_emitApplyIfNeeded : Plain (emitApplyIfNeeded : StepM C Unit) :=
  plain_core.seq fun _ => .ite (.pure trivial) <| (plain_liftNext _).seq fun _ =>
    (plain_liftLog _).seq fun _ => plain_nextEffectId.seq fun _ =>
      plain_set (fun _ => rfl) fun _ => plain_emit _

theorem plain_answerProposals (p : Nat → Bool) (result : Nat → ProposalResult) :
    Plain (answerProposals p result : StepM C Unit) :=
  plain_core.seq fun _ => plain_set (fun _ => rfl) fun _ => plain_emitAll _

theorem plain_replicationBatch (next : Nat) : Plain (replicationBatch next : StepM C _) :=
  plain_core.seq fun _ => .ite (.pure trivial) <| (plain_liftLog _).seq fun _ => .pure trivial

theorem plain_readSnapshotChunk (to_ : NodeId) : Plain (readSnapshotChunk to_ : StepM C Unit) := by
  have rest : Plain (do
      let c ← core
      let sender ← Program.expect (c.snapshotSenders.get to_)
      let id ← nextEffectId
      update fun c => { c with pendingSnapshotReads := c.pendingSnapshotReads.insert id to_ }
      emit (.readSnapshotChunk id sender.snapshot sender.offset c.config.snapshotChunkBytes) :
      StepM C Unit) :=
    plain_core.seq fun _ => Leaves.expect.seq fun _ => plain_nextEffectId.seq fun _ =>
      plain_set (fun _ => rfl) fun _ => plain_emit _
  refine plain_core.seq fun c => .ite (.pure trivial) ?_
  cases c.snapshotSenders.get to_ with
  | some sender => exact rest
  | none =>
    cases c.log.snapshot with
    | some snapshot => exact plain_set (fun _ => rfl) fun _ => rest
    | none =>
      have refused : Plain (StepM.raise .invalidSnapshot : StepM C Unit) := .raise trivial
      exact refused.seq fun _ => rest

theorem plain_replicateTo (to_ : NodeId) : Plain (replicateTo to_ : StepM C Unit) := by
  refine plain_core.seq fun c => ?_
  cases c.progress.get to_ with
  | none => exact .pure trivial
  | some progress =>
    refine .ite (.pure trivial) ((plain_liftLog _).seq fun first => .ite ?_ ?_)
    · exact plain_set (fun _ => rfl) fun _ => plain_readSnapshotChunk to_
    · exact (plain_sub _ _).seq fun _ => (plain_liftLog _).seq fun _ =>
        (plain_replicationBatch _).seq fun _ => (Leaves.lift (Progress.sent_plain _ _)).seq fun _ =>
          plain_set (fun _ => rfl) fun _ => plain_emit _

theorem plain_replicateAll : Plain (replicateAll : StepM C Unit) :=
  plain_core.seq fun _ => Leaves.forEach plain_replicateTo _

theorem plain_advanceCommit : Plain (advanceCommit : StepM C Unit) := by
  refine plain_core.seq fun c => .ite (.pure trivial) ((plain_liftLog _).seq fun commit => ?_)
  cases commit with
  | none => exact .pure trivial
  | some commit =>
    exact (plain_liftLog _).seq fun _ => plain_set (fun _ => rfl) fun _ => plain_queuePersist _ _

theorem plain_requestLocalSnapshot : Plain (requestLocalSnapshot : StepM C Unit) :=
  plain_core.seq fun _ => .ite (.pure trivial) <| plain_nextEffectId.seq fun _ =>
    plain_set (fun _ => rfl) fun _ => plain_emit _

theorem plain_maybeRequestLocalSnapshot : Plain (maybeRequestLocalSnapshot : StepM C Unit) :=
  plain_core.seq fun _ => .ite plain_requestLocalSnapshot (.pure trivial)

theorem plain_releaseReadRound : Plain (releaseReadRound : StepM C Unit) := by
  refine plain_core.seq fun c => ?_
  cases c.readRound with
  | none => exact .pure trivial
  | some round =>
    dsimp only
    cases round.safeIndex with
    | none => exact .pure trivial
    | some index => exact .ite (plain_set (fun _ => rfl) fun _ => plain_emitAll _) (.pure trivial)

theorem plain_startReadRoundThen {next : StepM C Unit} (h : Plain next) (readId : ReadId) :
    Plain (startReadRoundThen next readId) := by
  refine plain_core.seq fun c => (plain_liftNext _).seq fun counter => plain_set (fun _ => rfl)
    fun _ => .ite ?_ ?_
  · exact plain_set (fun _ => rfl) fun _ => plain_releaseReadRound.seq fun _ => h
  · exact plain_core.seq fun _ => Leaves.expect.seq fun _ => (plain_liftLog _).seq fun _ =>
      plain_emitAll _

theorem plain_startPendingReads : Plain (startPendingReads : StepM C Unit) := by
  refine plain_core.seq fun c => ?_
  generalize c.pendingReads.length = turns
  induction turns with
  | zero => exact .pure trivial
  | succ turns ih =>
    refine plain_core.seq fun c => .ite (.pure trivial) ?_
    cases c.pendingReads with
    | nil => exact .pure trivial
    | cons readId rest => exact plain_set (fun _ => rfl) fun _ => plain_startReadRoundThen ih readId

theorem plain_onRead (readId : ReadId) : Plain (onRead readId : StepM C Unit) := by
  refine plain_core.seq fun c => .ite (.pure trivial) (.ite (.pure trivial) (.ite (plain_update _ fun _ => rfl) ?_))
  cases c.readRound with
  | some round => exact plain_update _ fun _ => rfl
  | none => exact plain_startReadRoundThen plain_startPendingReads readId

theorem plain_acknowledgeReadContext (from_ : NodeId) (context : Bytes) :
    Plain (acknowledgeReadContext from_ context : StepM C Unit) := by
  refine plain_core.seq fun c => ?_
  cases c.readRound with
  | none => exact .pure trivial
  | some round =>
    exact .ite (.pure trivial) (plain_set (fun _ => rfl) fun _ => plain_releaseReadRound.seq fun _ =>
      plain_startPendingReads)

theorem plain_onPropose (proposalId : ProposalId) (command : C) (encodedLen : Nat) :
    Plain (onPropose proposalId command encodedLen) :=
  plain_core.seq fun _ => .ite (plain_emit _) <| .ite (plain_emit _) <|
    (plain_liftNext _).seq fun _ => (plain_liftEntry _).seq fun _ => (plain_liftLog _).seq fun _ =>
      plain_set (fun _ => rfl) fun _ => plain_queuePersist _ _

/-! ## Elections and messages -/

theorem plain_beginTermTransition (term : Nat) (k : PersistContinuation) :
    Plain (beginTermTransition term k : StepM C Unit) :=
  plain_set (fun _ => rfl) fun _ => plain_set (fun _ => rfl) fun _ => plain_core.seq fun _ =>
    plain_queuePersist _ _

theorem plain_persistLeaderNoop : Plain (persistLeaderNoop : StepM C Unit) :=
  plain_core.seq fun _ => (plain_liftNext _).seq fun _ => Leaves.expect.seq fun _ =>
    (plain_liftLog _).seq fun _ => plain_set (fun _ => rfl) fun _ => plain_queuePersist _ _

theorem plain_becomeCandidate : Plain (becomeCandidate : StepM C Unit) :=
  plain_core.seq fun _ => (plain_liftNext _).seq fun _ => plain_set (fun _ => rfl) fun _ =>
    plain_core.seq fun _ => plain_queuePersist _ _

theorem plain_startPreVote : Plain (startPreVote : StepM C Unit) :=
  plain_core.seq fun _ => .ite (.pure trivial) <| (plain_liftNext _).seq fun _ =>
    plain_set (fun _ => rfl) fun _ => .ite plain_becomeCandidate
      (plain_core.seq fun _ => plain_emitAll _)

theorem plain_onHeartbeatTick : Plain (onHeartbeatTick : StepM C Unit) :=
  plain_core.seq fun _ => .ite (.pure trivial) <| .ite (plain_update _ fun _ => rfl) <|
    plain_set (fun _ => rfl) fun _ => plain_replicateAll

theorem plain_onVoteRequest (from_ : NodeId) (term index logTerm : Nat) :
    Plain (onVoteRequest from_ term index logTerm : StepM C Unit) :=
  plain_core.seq fun _ => .ite (plain_emit _) <|
    .ite (plain_set (fun _ => rfl) fun _ => plain_queuePersist _ _) <|
    .ite (plain_set (fun _ => rfl) fun _ => plain_queuePersist _ _) (plain_emit _)

theorem plain_onPreVoteResponse (from_ : NodeId) (term : Nat) (granted : Bool) :
    Plain (onPreVoteResponse from_ term granted : StepM C Unit) := by
  refine plain_core.seq fun c => .ite (plain_beginTermTransition _ _) (.ite (.pure trivial) ?_)
  cases c.preVotes with
  | none => exact .pure trivial
  | some votes =>
    exact plain_set (fun _ => rfl) fun _ => .ite plain_becomeCandidate (.ite (plain_update _ fun _ => rfl) (.pure trivial))

theorem plain_onVoteResponse (from_ : NodeId) (term : Nat) (granted : Bool) :
    Plain (onVoteResponse from_ term granted : StepM C Unit) := by
  refine plain_core.seq fun c => .ite (plain_beginTermTransition _ _) (.ite (.pure trivial) ?_)
  cases c.votes with
  | none => exact .pure trivial
  | some votes =>
    exact plain_set (fun _ => rfl) fun _ => .ite plain_persistLeaderNoop
      (.ite (plain_update _ fun _ => rfl) (.pure trivial))

theorem plain_mergeAppend (prev prevTerm leaderCommit : Nat) (entries : List (Entry C)) :
    Plain (mergeAppend prev prevTerm leaderCommit entries) := by
  refine plain_core.seq fun c => (plain_liftLog _).seq fun check => ?_
  cases check with
  | reject conflict => exact .pure trivial
  | match_ =>
    exact (plain_liftLog _).seq fun _ => plain_set (fun _ => rfl) fun _ => (plain_liftLog _).seq fun _ =>
      plain_set (fun _ => rfl) fun _ => (plain_liftLog _).seq fun _ => plain_set (fun _ => rfl) fun _ =>
        .pure trivial

theorem plain_onAppendEntries (from_ : NodeId) (term prev prevTerm leaderCommit : Nat)
    (context : Option Bytes) (entries : List (Entry C)) :
    Plain (onAppendEntries from_ term prev prevTerm leaderCommit context entries) := by
  refine plain_core.seq fun c => .ite (plain_emit _) (plain_set (fun _ => rfl) fun _ =>
    (plain_mergeAppend _ _ _ _).seq fun _ => plain_core.seq fun _ => .ite ?_ ?_)
  · exact plain_set (fun _ => rfl) fun _ => plain_core.seq fun _ =>
      .ite (plain_queuePersist _ _) (plain_emit _)
  · exact plain_core.seq fun _ => .ite (plain_queuePersist _ _) (plain_emit _)

theorem Progress.acknowledged_plain (p : Progress) (index : Nat) :
    (p.acknowledged index : Outcome StepError _).Satisfies (fun _ => True) StepError.Plain := by
  unfold Progress.acknowledged
  dsimp only
  split
  · trivial
  · have := expectNext_plain index
    cases h : (expectNext index : Outcome StepError Nat) with
    | ok n => trivial
    | error e => rw [h] at this; cases e <;> exact this

theorem Progress.reject_plain (p : Progress) (rejected next : Nat) :
    (p.reject rejected next : Outcome StepError _).Satisfies (fun _ => True) StepError.Plain := by
  have advance : ∀ f : Nat → Progress × Bool, Outcome.Satisfies (fun _ => True) StepError.Plain
      ((expectNext p.matchIndex : Outcome StepError Nat) >>= fun floor => .ok (f floor)) := by
    intro f
    have := expectNext_plain p.matchIndex
    cases h : (expectNext p.matchIndex : Outcome StepError Nat) with
    | ok n => trivial
    | error e => cases e <;> simp_all [bind, Except.bind, Outcome.Satisfies]
  simp only [Progress.reject]
  cases checkedNext rejected with
  | error _ => exact advance _
  | ok n =>
    dsimp only
    split
    · trivial
    · exact advance _

theorem plain_afterResponse (from_ : NodeId) (success : Bool) (context : Option Bytes)
    (changed : Bool) : Plain (afterResponse from_ success context changed : StepM C Unit) := by
  have rest : Plain (if changed = true then do replicateTo from_; advanceCommit
      else pure () : StepM C Unit) :=
    .ite ((plain_replicateTo _).seq fun _ => plain_advanceCommit) (.pure trivial)
  cases context with
  | none => exact rest
  | some context =>
    cases success with
    | false => exact rest
    | true => exact (plain_acknowledgeReadContext _ _).seq fun _ => rest

theorem plain_onAppendEntriesResponse (from_ : NodeId) (term : Nat) (success : Bool)
    (matchIndex : Nat) (conflict : Option ConflictHint) (context : Option Bytes) :
    Plain (onAppendEntriesResponse from_ term success matchIndex conflict context :
      StepM C Unit) := by
  refine plain_core.seq fun c => .ite (plain_beginTermTransition _ _) (.ite (.pure trivial) ?_)
  have moved : ∀ (p : Progress) (next : Option Nat), Plain (liftPure (next.elim
      (p.acknowledged (min matchIndex c.log.lastIndex)) (p.reject matchIndex)) >>= fun r => do
        update fun c => { c with progress := c.progress.insert from_ r.1 }
        afterResponse from_ success context r.2 : StepM C Unit) := by
    intro p next
    refine Leaves.seq (Leaves.lift ?_) fun r => plain_set (fun _ => rfl) fun _ =>
      plain_afterResponse _ _ _ _
    cases next with
    | none => exact Progress.acknowledged_plain _ _
    | some n => exact Progress.reject_plain _ _ _
  cases success with
  | true =>
    refine (Leaves.pure trivial).seq fun next => ?_
    cases c.progress.get from_ with
    | none => exact .pure trivial
    | some p => cases next with
      | none => exact moved p none
      | some n => exact moved p (some n)
  | false =>
    refine (plain_liftLog _).seq fun next => ?_
    cases c.progress.get from_ with
    | none => exact .pure trivial
    | some p => exact moved p (some next)

theorem plain_onInstallSnapshotResponse (from_ : NodeId) (term : Nat) (success : Bool) :
    Plain (onInstallSnapshotResponse from_ term success : StepM C Unit) := by
  refine plain_core.seq fun c => .ite (plain_beginTermTransition _ _) (.ite (.pure trivial) ?_)
  cases c.snapshotSenders.get from_ with
  | none => exact .pure trivial
  | some sender =>
    refine plain_set (fun _ => rfl) fun _ => (plain_liftNext _).seq fun next => ?_
    cases c.progress.get from_ with
    | none => exact plain_replicateTo _
    | some p => exact plain_set (fun _ => rfl) fun _ => plain_replicateTo _

theorem plain_receiveChunk (from_ : NodeId) (term : Nat) (metadata : SnapshotMetadata)
    (offset : Nat) (bytes : Bytes) (done : Bool) :
    Plain (receiveChunk from_ term metadata offset bytes done : StepM C Unit) := by
  refine plain_core.seq fun c => Leaves.expect.seq fun receiver => .ite (.raise trivial) ?_
  cases receiver.accept offset bytes done with
  | none => exact .raise trivial
  | some r =>
    exact plain_set (fun _ => rfl) fun _ => .ite (.pure trivial) (plain_nextEffectId.seq fun _ =>
      plain_set (fun _ => rfl) fun _ => plain_emit _)

theorem plain_onInstallSnapshotChunk (from_ : NodeId) (term : Nat) (metadata : SnapshotMetadata)
    (offset : Nat) (bytes : Bytes) (done : Bool) :
    Plain (onInstallSnapshotChunk from_ term metadata offset bytes done : StepM C Unit) := by
  have rest := plain_receiveChunk (C := C) from_ term metadata offset bytes done
  refine plain_core.seq fun c => .ite (plain_emit _) (.ite (.raise trivial) (.ite (.pure trivial)
    (.ite (.ite ?_ ?_) ?_)))
  · exact Leaves.seq (.raise trivial) fun _ => rest
  · exact plain_set (fun _ => rfl) fun _ => rest
  · exact rest

theorem plain_onMessage (from_ : NodeId) (m : Message C) : Plain (onMessage from_ m) := by
  cases m with
  | preVote => exact plain_core.seq fun _ => plain_core.seq fun _ => plain_emit _
  | requestVote => exact plain_onVoteRequest _ _ _ _
  | preVoteResponse => exact plain_onPreVoteResponse _ _ _
  | voteResponse => exact plain_onVoteResponse _ _ _
  | appendEntries => exact plain_onAppendEntries _ _ _ _ _ _ _
  | appendEntriesResponse => exact plain_onAppendEntriesResponse _ _ _ _ _ _
  | installSnapshot => exact plain_onInstallSnapshotChunk _ _ _ _ _ _
  | installSnapshotResponse => exact plain_onInstallSnapshotResponse _ _ _
  | heartbeat => exact .pure trivial

theorem plain_continueWith (k : PersistContinuation) : Plain (continueWith k : StepM C Unit) := by
  cases k with
  | broadcastVoteRequests =>
    exact plain_core.seq fun _ => .ite plain_persistLeaderNoop
      (plain_core.seq fun _ => plain_emitAll _)
  | sendVoteResponse to_ term granted => exact plain_emit _
  | activateLeader =>
    exact plain_set (fun _ => rfl) fun _ => plain_initializeProgress.seq fun _ =>
      plain_replicateAll.seq fun _ => plain_advanceCommit
  | sendAppendEntriesResponse to_ response =>
    exact (plain_emit _).seq fun _ => plain_emitApplyIfNeeded
  | replicateProposal =>
    exact plain_replicateAll.seq fun _ => plain_advanceCommit.seq fun _ => plain_startPendingReads
  | applyCommitted => exact plain_emitApplyIfNeeded.seq fun _ => plain_startPendingReads
  | none => exact .pure trivial

end Ruft
