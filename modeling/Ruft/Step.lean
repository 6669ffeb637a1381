import Ruft.Handlers

set_option autoImplicit false

/-!
# Effect completions and the step function

The completion dispatcher of `core.rs`, which tries the pending slots in a fixed
order, and `RaftCore::step`, the only entry point of the core. A completion handler
takes the content of its slot out and puts it back on every rejecting branch.
-/

namespace Ruft

open StepM

variable {C : Type}

/-! ## Completion of the outgoing snapshot pipeline -/

def onOutgoingSnapshotCompletion (id : EffectId) (outcome : EffectOutcome) : StepM C Bool := do
  let c ← core
  match c.pendingSnapshotReads.get id with
  | none => pure false
  | some to_ => do
    update fun c => { c with pendingSnapshotReads := c.pendingSnapshotReads.remove id }
    let putBack : StepM C Unit := update fun c => { c with
      pendingSnapshotReads := c.pendingSnapshotReads.insert id to_ }
    let sender ← Program.expect (c.snapshotSenders.get to_)
    match outcome with
    | .snapshotChunkRead snapshotId offset bytes done =>
      if snapshotId = sender.snapshot.metadata.id ∧ offset = sender.offset then
        if c.config.snapshotChunkBytes < bytes.length then do
          putBack
          raise (.input .invalidEffectOutcome)
        else match sender.advance bytes.length with
          | none => do
            putBack
            raise (.input .invalidEffectOutcome)
          | some advanced => do
            update fun c => { c with snapshotSenders := c.snapshotSenders.insert to_ advanced }
            -- sent in the current term, whatever the role is by now
            emit (.sendMessage to_ (.installSnapshot c.hardState.currentTerm
              sender.snapshot.metadata offset bytes done))
            if !done then readSnapshotChunk to_
            pure true
      else do
        putBack
        raise (.input .invalidEffectOutcome)
    | .failed => do
      update fun c => { c with stopped := true }
      raise .persistenceFailed
    | _ => do
      putBack
      raise (.input .invalidEffectOutcome)

/-! ## Completion of the incoming snapshot pipeline -/

/-- The chunk-store half of `on_incoming_snapshot_completion`: `none` when the pending
store has another id. -/
def onChunkStoreCompletion [Sha256] (id : EffectId) (outcome : EffectOutcome) :
    StepM C (Option Bool) := do
  let c ← core
  match c.pendingChunkStore with
  -- no store is pending: the report may be for the persist or the install
  | none => pure none
  | some pending => do
    update fun c => { c with pendingChunkStore := none }
    let putBack : StepM C Unit := update fun c => { c with pendingChunkStore := some pending }
    if pending.id ≠ id then do
      putBack
      pure none
    else match outcome with
      | .snapshotChunkStored snapshotId nextOffset snapshotRef => do
        let receiver ← Program.expect c.incomingSnapshot
        if snapshotId ≠ receiver.metadata.id ∨ nextOffset ≠ receiver.nextOffset then do
          putBack
          raise (.input .invalidEffectOutcome)
        else if pending.done then
          if !receiver.isCompleteAndValid then do
            putBack
            raise .invalidSnapshot
          else match snapshotRef with
            | none => do
              putBack
              raise .invalidSnapshot
            | some snapshotRef => do
              let record := receiver.record snapshotRef
              -- not through `queuePersist`, so `pendingPersist` does not hold it
              let persistId ← nextEffectId
              update fun c => { c with
                incomingSnapshotState :=
                  some (.persisting persistId record pending.from_ pending.term) }
              emit (.persist persistId ⟨some ⟨pending.term, none,
                max c.hardState.commitIndex record.metadata.index⟩, [], some record⟩)
              pure (some true)
        else pure (some true)
      | .failed => do
        update fun c => { c with stopped := true }
        raise .persistenceFailed
      | _ => do
        putBack
        raise (.input .invalidEffectOutcome)

/-- The state after the host reports the received snapshot installed. -/
def RaftCore.installed (c : RaftCore C) (log : RaftLog C) (record : SnapshotRecord) (term : Nat) :
    RaftCore C :=
  { c with
    log := log
    snapshotIndex := record.metadata.index
    appliedIndex := max c.appliedIndex record.metadata.index
    hardState := ⟨max c.hardState.currentTerm term, none,
      max c.hardState.commitIndex record.metadata.index⟩
    lastLogIndex := log.lastIndex }

/-- The persist and install half of `on_incoming_snapshot_completion`. -/
def onInstallCompletion (id : EffectId) (outcome : EffectOutcome) : StepM C Bool := do
  let c ← core
  match c.incomingSnapshotState with
  | none => pure false
  | some state => do
    update fun c => { c with incomingSnapshotState := none }
    let putBack : StepM C Unit := update fun c => { c with incomingSnapshotState := some state }
    match state with
    | .persisting expected record from_ term =>
      if expected = id then
        match outcome with
        | .persisted => do
          let installId ← nextEffectId
          update fun c => { c with
            incomingSnapshotState := some (.installing installId record from_ term) }
          emit (.installSnapshot installId record)
          pure true
        | .failed => do
          update fun c => { c with stopped := true }
          raise .persistenceFailed
        | _ => do
          putBack
          raise (.input .invalidEffectOutcome)
      else do
        putBack
        pure false
    | .installing expected record from_ term =>
      if expected = id then
        match outcome with
        | .snapshotInstalled snapshotId =>
          if snapshotId = record.metadata.id then do
            let log ← liftLog (c.log.installSnapshot record)
            update fun c => c.installed log record term
            let lastLogTerm ← liftLog (log.term log.lastIndex)
            update fun c => { c with lastLogTerm := lastLogTerm, incomingSnapshot := none }
            let c ← core
            emit (.sendMessage from_ (.installSnapshotResponse c.hardState.currentTerm true))
            pure true
          else do
            putBack
            raise (.input .invalidEffectOutcome)
        | .failed => do
          update fun c => { c with stopped := true }
          raise .applyFailed
        | _ => do
          putBack
          raise (.input .invalidEffectOutcome)
      else do
        putBack
        pure false

def onIncomingSnapshotCompletion [Sha256] (id : EffectId) (outcome : EffectOutcome) :
    StepM C Bool := do
  match ← onChunkStoreCompletion id outcome with
  | some consumed => pure consumed
  | none => onInstallCompletion id outcome

/-! ## Completion of the local snapshot pipeline -/

def onSnapshotCompletion (id : EffectId) (outcome : EffectOutcome) : StepM C Bool := do
  let c ← core
  let state := c.localSnapshot
  update fun c => { c with localSnapshot := .idle }
  let putBack : StepM C Unit := update fun c => { c with localSnapshot := state }
  match state with
  | .idle => pure false
  | .building expected through =>
    if expected = id then
      match outcome with
      | .snapshotBuilt metadata snapshotRef =>
        match validateLocalSnapshot c metadata snapshotRef through with
        | .error e => do
          putBack
          liftPure (.error e)
        | .ok record => do
          let persistId ← nextEffectId
          update fun c => { c with localSnapshot := .persisting persistId record }
          emit (.persist persistId ⟨none, [], some record⟩)
          pure true
      | .failed => do
        update fun c => { c with stopped := true }
        raise .snapshotFailed
      | _ => do
        putBack
        raise (.input .invalidEffectOutcome)
    else do
      putBack
      pure false
  | .persisting expected record =>
    if expected = id then
      match outcome with
      | .persisted => do
        let compactId ← nextEffectId
        update fun c => { c with localSnapshot := .compacting compactId record }
        emit (.compactLog compactId record.metadata.index)
        pure true
      | .failed => do
        update fun c => { c with stopped := true }
        raise .persistenceFailed
      | _ => do
        putBack
        raise (.input .invalidEffectOutcome)
    else do
      putBack
      pure false
  | .compacting expected record =>
    if expected = id then
      match outcome with
      | .compacted through =>
        if through = record.metadata.index then do
          let log ← liftLog (c.log.compact record)
          update fun c => { c with log := log, snapshotIndex := through }
          pure true
        else do
          putBack
          raise (.input .invalidEffectOutcome)
      | .failed => do
        update fun c => { c with stopped := true }
        raise .compactionFailed
      | _ => do
        putBack
        raise (.input .invalidEffectOutcome)
    else do
      putBack
      pure false

/-! ## Apply and persist completions -/

/-- The apply branch of `on_effect_completed`, entered only with a pending apply. -/
def onApplyCompletion (id : EffectId) (outcome : EffectOutcome) (pending : PendingApply) :
    StepM C Unit := do
  update fun c => { c with pendingApply := none }
  let putBack : StepM C Unit := update fun c => { c with pendingApply := some pending }
  if pending.id ≠ id then do
    putBack
    raise (.input .unknownEffect)
  else match outcome with
    | .applied through =>
      if through = pending.through then do
        update fun c => { c with appliedIndex := through }
        finishApply through
        releaseReadRound
        startPendingReads
        emitApplyIfNeeded
        maybeRequestLocalSnapshot
      else do
        putBack
        raise (.input .invalidEffectOutcome)
    | .failed => do
      update fun c => { c with stopped := true }
      raise .applyFailed
    | _ => do
      putBack
      raise (.input .invalidEffectOutcome)

def activateLeader : StepM C Unit := do
  update fun c => { c with
    role := .leader
    votes := none
    activeMembers := {c.config.localId} }
  initializeProgress
  replicateAll
  advanceCommit

/-- The `match pending.continuation` of `on_effect_completed`. -/
def continueWith : PersistContinuation → StepM C Unit
  | .broadcastVoteRequests => do
    let c ← core
    if c.votes.any QuorumTracker.hasQuorum then persistLeaderNoop
    else broadcastVoteRequest c.hardState.currentTerm
  | .sendVoteResponse to_ term granted => sendVoteResponse to_ term granted
  | .sendAppendEntriesResponse to_ response => do
    sendAppendEntriesResponse to_ response
    emitApplyIfNeeded
  | .replicateProposal => do
    replicateAll
    advanceCommit
    startPendingReads
  | .applyCommitted => do
    emitApplyIfNeeded
    startPendingReads
  | .activateLeader => activateLeader
  | .none => pure ()

/-- The persist branch of `on_effect_completed`. -/
def onPersistCompletion (id : EffectId) (outcome : EffectOutcome) : StepM C Unit := do
  let c ← core
  match c.pendingPersist with
  | none => raise (.input .unknownEffect)
  | some pending => do
    update fun c => { c with pendingPersist := none }
    let putBack : StepM C Unit := update fun c => { c with pendingPersist := some pending }
    if pending.id ≠ id then do
      putBack
      raise (.input .unknownEffect)
    else match outcome with
      | .failed => do
        update fun c => { c with stopped := true }
        raise .persistenceFailed
      | .persisted => do
        match pending.stableThrough with
        | some index =>
          let log ← liftLog (c.log.markStable index)
          update fun c => { c with log := log }
        | none => pure ()
        continueWith pending.continuation
      | _ => do
        putBack
        raise (.input .invalidEffectOutcome)

def onEffectCompleted [Sha256] (id : EffectId) (outcome : EffectOutcome) : StepM C Unit := do
  let c ← core
  if id.generation ≠ c.config.generation then raise (.input .staleEffectGeneration)
  else if ← onOutgoingSnapshotCompletion id outcome then pure ()
  else if ← onIncomingSnapshotCompletion id outcome then pure ()
  else if ← onSnapshotCompletion id outcome then pure ()
  else do
    let c ← core
    match c.pendingApply with
    -- a pending apply hides the pending persist
    | some pending => onApplyCompletion id outcome pending
    | none => onPersistCompletion id outcome

/-! ## The step function -/

def validateEnvelope (c : RaftCore C) (envelope : Envelope C) : Outcome StepError Unit :=
  if envelope.clusterId ≠ c.config.clusterId then Outcome.raise (.input .wrongCluster)
  else if envelope.to_ ≠ c.config.localId then Outcome.raise (.input .wrongRecipient)
  else if envelope.from_ ∉ c.config.members then Outcome.raise (.input .unknownSender)
  else .ok ()

/-- The `match event` of `step`. -/
def handle [Sha256] : Event C → StepM C Unit
  | .tick .election => startPreVote
  | .tick .heartbeat => onHeartbeatTick
  | .messageReceived envelope => do
    let c ← core
    liftPure (validateEnvelope c envelope)
    if c.role = .leader then
      update fun c => { c with activeMembers := insert envelope.from_ c.activeMembers }
    onMessage envelope.from_ envelope.message
  | .effectCompleted id outcome => do
    let c ← core
    liftPure (c.validateCompletion id outcome)
    onEffectCompleted id outcome
    update fun c => c.recordCompletion id outcome
  | .shutdown => update fun c => c.stop .shutdown
  | .propose proposalId command encodedLen => onPropose proposalId command encodedLen
  | .read readId _ => onRead readId
  | .snapshotRequested => requestLocalSnapshot

/-- The handler, then the entries that can be applied. -/
def process [Sha256] (event : Event C) : StepM C Unit := do
  handle event
  emitApplyIfNeeded

/-- `RaftCore::step`: the result together with the core afterwards. -/
def step [Sha256] (c : RaftCore C) (event : Event C) :
    Outcome StepError (StepOutput C) × RaftCore C :=
  if c.stopped then
    match event with
    | .shutdown | .tick _ | .messageReceived _ => (.ok ⟨[], false⟩, c)
    -- completions of effects that were issued before are refused as well
    | _ => match c.stoppedReason with
      | some reason => (Outcome.raise (.stopped reason), c)
      | none => (Outcome.panic, c)
  else match process event ⟨c, []⟩ with
    | (.error .panic, s) => (Outcome.panic, s.core)
    | (.error (.raise e), s) =>
      let (error, core) := s.core.fatalize e
      (Outcome.raise error, core)
    | (.ok (), s) =>
      let s := if c.role = .leader ∧ s.core.role ≠ .leader then (failUncommittedProposals s).2 else s
      match s.core.validateInvariants with
      | .error .panic => (Outcome.panic, s.core)
      | .error (.raise violation) =>
        let (error, core) := s.core.fatal (.invariant violation)
        (Outcome.raise error, core)
      | .ok () => (.ok ⟨s.effects, c.role ≠ s.core.role⟩, s.core)

end Ruft
