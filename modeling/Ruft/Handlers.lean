import Ruft.Core

set_option autoImplicit false

/-!
# The handlers of the core

The methods of `RaftCore` in `core.rs`, from the effect helpers up to the message
handlers. Each keeps the order of the source's reads, writes and early returns.
-/

namespace Ruft

open StepM

variable {C : Type}

/-! ## Effect emission helpers -/

def nextEffectId : StepM C EffectId := do
  let c ← core
  let sequence ← liftNext c.nextEffectSequence
  update fun c => { c with nextEffectSequence := sequence }
  pure ⟨c.config.generation, sequence⟩

def queuePersist (batch : PersistBatch C) (continuation : PersistContinuation) :
    StepM C Unit := do
  let id ← nextEffectId
  update fun c => { c with
    pendingPersist := some ⟨id, batch.entries.getLast?.map (·.index), continuation⟩ }
  emit (.persist id batch)

def emitApplyIfNeeded : StepM C Unit := do
  let c ← core
  if c.pendingPersist.isSome ∨ c.pendingApply.isSome ∨ c.hardState.commitIndex ≤ c.appliedIndex then
    pure ()
  else do
    let from_ ← liftNext c.appliedIndex
    let through := c.hardState.commitIndex
    let entries ← liftLog (c.log.range from_ through)
    let id ← nextEffectId
    update fun c => { c with pendingApply := some ⟨id, through⟩ }
    emit (.apply id entries)

/-- Answers every proposal whose index satisfies `p` and forgets it. -/
def answerProposals (p : Nat → Bool) (result : Nat → ProposalResult) :
    StepM C Unit := do
  let c ← core
  update fun c => { c with proposals := c.proposals.filter fun index => !p index }
  emitAll ((c.proposals.filter p).toList.flatMap fun binding =>
    binding.2.map fun proposalId => .proposalResult proposalId (result binding.1))

def finishApply (through : Nat) : StepM C Unit :=
  answerProposals (fun index => index ≤ through) .applied

def failUncommittedProposals : StepM C Unit := do
  let c ← core
  answerProposals (fun index => c.hardState.commitIndex < index) fun _ => .leadershipLost

def sendPreVoteResponse (to_ : NodeId) (granted : Bool) : StepM C Unit := do
  let c ← core
  emit (.sendMessage to_ (.preVoteResponse c.hardState.currentTerm granted))

def sendAppendEntriesResponse (to_ : NodeId) (response : AppendResponse) : StepM C Unit :=
  emit (.sendMessage to_ (.appendEntriesResponse response.term response.success
    response.matchIndex response.conflict response.readContext))

def sendVoteResponse (to_ : NodeId) (term : Nat) (granted : Bool) : StepM C Unit :=
  emit (.sendMessage to_ (.voteResponse term granted))

/-- One copy of a message for every member except the local node. -/
def toPeers (config : Config) (message : Message C) : List (Effect C) :=
  (config.members.filter (· ≠ config.localId)).map fun node => .sendMessage node message

def broadcastPreVote (term : Nat) : StepM C Unit := do
  let c ← core
  emitAll (toPeers c.config (.preVote term c.lastLogIndex c.lastLogTerm))

def broadcastVoteRequest (term : Nat) : StepM C Unit := do
  let c ← core
  emitAll (toPeers c.config (.requestVote term c.lastLogIndex c.lastLogTerm))

/-! ## Replication -/

/-- The loop of `replication_batch`; `taken` entries of `bytes` bytes are already in the batch. -/
def takeBatch (config : Config) (taken bytes : Nat) : List (Entry C) → List (Entry C)
  | [] => []
  | entry :: rest =>
    let nextBytes := min (bytes + entry.encodedLen) u64Max
    -- the first entry goes out whatever its size
    if taken ≠ 0 ∧ (taken = config.maxEntriesPerRpc ∨ config.maxBytesPerRpc < nextBytes) then []
    else if taken + 1 = config.maxEntriesPerRpc then [entry]
    else entry :: takeBatch config (taken + 1) nextBytes rest

def replicationBatch (next : Nat) : StepM C (List (Entry C)) := do
  let c ← core
  if c.log.lastIndex < next then pure []
  else do
    let entries ← liftLog (c.log.range next c.log.lastIndex)
    pure (takeBatch c.config 0 0 entries)

def readSnapshotChunk (to_ : NodeId) : StepM C Unit := do
  let c ← core
  if to_ ∈ c.pendingSnapshotReads.values then pure ()
  else do
    match c.snapshotSenders.get to_ with
    -- a sender that is still there goes on from its offset
    | some _ => pure ()
    | none =>
      match c.log.snapshot with
      | some snapshot => update fun c => { c with
          snapshotSenders := c.snapshotSenders.insert to_ (SnapshotSender.new snapshot) }
      | none => raise .invalidSnapshot
    let c ← core
    let sender ← Program.expect (c.snapshotSenders.get to_)
    let id ← nextEffectId
    update fun c => { c with pendingSnapshotReads := c.pendingSnapshotReads.insert id to_ }
    emit (.readSnapshotChunk id sender.snapshot sender.offset c.config.snapshotChunkBytes)

def replicateTo (to_ : NodeId) : StepM C Unit := do
  let c ← core
  match c.progress.get to_ with
  | none => pure ()
  | some progress =>
    -- only the probe or the window is asked: a persist may be outstanding
    if !progress.canSend then pure ()
    else do
      let next := progress.nextIndex
      let first ← liftLog c.log.firstIndex
      if next < first then do
        -- what the follower needs next is compacted
        update fun c => { c with progress := c.progress.insert to_ progress.enterSnapshot }
        readSnapshotChunk to_
      else do
        let prevLogIndex ← liftPure (Outcome.sub next 1)
        let prevLogTerm ← liftLog (c.log.term prevLogIndex)
        let entries ← replicationBatch next
        let endIndex := entries.getLast?.elim prevLogIndex (·.index)
        let progress ← liftPure (progress.sent endIndex)
        update fun c => { c with progress := c.progress.insert to_ progress }
        emit (.sendMessage to_ (.appendEntries c.hardState.currentTerm prevLogIndex prevLogTerm
          c.hardState.commitIndex none entries))

def replicateAll : StepM C Unit := do
  let c ← core
  Program.forEach replicateTo c.progress.keys

def initializeProgress : StepM C Unit := do
  let c ← core
  let next ← liftPure (expectNext c.log.lastIndex)
  update fun c => { c with progress := .empty }
  Program.forEach (fun node => do
    let progress ← liftPure (Progress.new next c.config.maxInflightAppends)
    update fun c => { c with progress := c.progress.insert node progress })
    (c.config.members.filter (· ≠ c.config.localId))

def advanceCommit : StepM C Unit := do
  let c ← core
  if c.pendingPersist.isSome then pure ()
  else do
    match ← liftLog (quorumCommit c.log c.progress c.config.quorum c.hardState.currentTerm) with
    | none => pure ()
    | some commit =>
      let log ← liftLog (c.log.commitTo commit)
      let hardState : HardState := ⟨c.hardState.currentTerm, c.hardState.votedFor, commit⟩
      update fun c => { c with log := log, hardState := hardState }
      queuePersist ⟨some hardState, [], none⟩ .applyCommitted

/-! ## Local snapshot requests and proposals -/

def requestLocalSnapshot : StepM C Unit := do
  let c ← core
  if c.localSnapshot ≠ .idle ∨ c.appliedIndex ≤ c.snapshotIndex then pure ()
  else do
    let through := c.appliedIndex
    let id ← nextEffectId
    update fun c => { c with localSnapshot := .building id through }
    emit (.buildSnapshot id through)

def maybeRequestLocalSnapshot : StepM C Unit := do
  let c ← core
  if c.config.snapshotAfterEntries ≤ c.appliedIndex - c.snapshotIndex then requestLocalSnapshot
  else pure ()

def validateLocalSnapshot (c : RaftCore C) (metadata : SnapshotMetadata)
    (snapshotRef : SnapshotRef) (through : Nat) : Outcome StepError SnapshotRecord :=
  if metadata.index ≠ through then Outcome.raise .invalidSnapshot
  else match c.log.term through with
    | .error e => .error (e.map .log)
    | .ok t =>
      if metadata.term ≠ t ∨ metadata.members ≠ c.config.members then
        Outcome.raise .invalidSnapshot
      else .ok ⟨metadata, snapshotRef⟩

def liftEntry (m : Except EntryError (Entry C)) : StepM C (Entry C) := liftPure
  (match m with
    | .ok e => .ok e
    | .error e => Outcome.raise (.entry e))

def onPropose (proposalId : ProposalId) (command : C) (encodedLen : Nat) : StepM C Unit := do
  let c ← core
  if c.role ≠ .leader then emit (.proposalResult proposalId .leadershipLost)
  else if c.pendingPersist.isSome ∨ c.config.maxBytesPerRpc < encodedLen then
    emit (.proposalResult proposalId .rejected)
  else do
    let index ← liftNext c.lastLogIndex
    let entry ← liftEntry (Entry.command index c.hardState.currentTerm command encodedLen)
    let log ← liftLog (c.log.append [entry])
    update fun c => { c with
      log := log
      lastLogIndex := index
      lastLogTerm := c.hardState.currentTerm
      proposals := c.proposals.insert index ((c.proposals.get index).getD [] ++ [proposalId]) }
    queuePersist ⟨none, [entry], none⟩ .replicateProposal

/-! ## Read-index handling -/

/-- `u64::to_be_bytes`. -/
def toBeBytes (n : Nat) : Bytes :=
  [7, 6, 5, 4, 3, 2, 1, 0].map fun i => UInt8.ofNat (n / 256 ^ i)

def sendReadHeartbeats : StepM C Unit := do
  let c ← core
  let round ← Program.expect c.readRound
  let prevLogIndex := c.log.lastIndex
  let prevLogTerm ← liftLog (c.log.term prevLogIndex)
  emitAll (toPeers c.config (.appendEntries c.hardState.currentTerm prevLogIndex prevLogTerm
    c.hardState.commitIndex (some round.context) []))

def releaseReadRound : StepM C Unit := do
  let c ← core
  match c.readRound with
  | none => pure ()
  | some round =>
    match round.safeIndex with
    | none => pure ()
    | some index =>
      if index ≤ c.appliedIndex then do
        update fun c => { c with readRound := none }
        emitAll (round.requests.map fun readId => .readReady readId index)
      else pure ()

/-- `start_read_round`, with what it calls to start the next pending read as an argument. -/
def startReadRoundThen (startPending : StepM C Unit) (readId : ReadId) : StepM C Unit := do
  let c ← core
  -- an error here loses a read that has left the queue
  let counter ← liftNext c.nextReadContext
  let context := toBeBytes c.hardState.currentTerm ++ toBeBytes counter
  let round := ReadRound.new context c.config.members c.config.localId readId
  update fun c => { c with nextReadContext := counter, readRound := some round }
  if round.hasQuorum then do
    update fun c => { c with
      readRound := some (round.setSafeIndex c.hardState.commitIndex) }
    releaseReadRound
    startPending
  else sendReadHeartbeats

/-- `start_pending_reads`. Each turn of its recursion through `start_read_round` removes one
pending read, so the length of the queue bounds the turns; with no turn left the queue is empty. -/
def startPendingReadsUpTo : Nat → StepM C Unit
  | 0 => pure ()
  | turns + 1 => do
    let c ← core
    if c.role ≠ .leader ∨ !c.currentLeaderNoopIsCommitted ∨ c.readRound.isSome then pure ()
    else match c.pendingReads with
      | [] => pure ()
      | readId :: rest => do
        update fun c => { c with pendingReads := rest }
        startReadRoundThen (startPendingReadsUpTo turns) readId

def startPendingReads : StepM C Unit := do
  let c ← core
  startPendingReadsUpTo c.pendingReads.length

def startReadRound (readId : ReadId) : StepM C Unit :=
  startReadRoundThen startPendingReads readId

def onRead (readId : ReadId) : StepM C Unit := do
  let c ← core
  if c.role ≠ .leader then pure ()
  else if c.config.maxPendingReads ≤
      c.pendingReads.length + c.readRound.elim 0 (·.requests.length) then pure ()
  else if !c.currentLeaderNoopIsCommitted then
    update fun c => { c with pendingReads := c.pendingReads ++ [readId] }
  else match c.readRound with
    | some round => update fun c => { c with readRound := some (round.push readId) }
    | none => startReadRound readId

def acknowledgeReadContext (from_ : NodeId) (context : Bytes) : StepM C Unit := do
  let c ← core
  match c.readRound with
  | none => pure ()
  | some round =>
    if round.context ≠ context then pure ()
    else do
      let round := round.acknowledge from_
      update fun c => { c with readRound := some (
        if round.hasQuorum ∧ round.safeIndex = none then
          round.setSafeIndex c.hardState.commitIndex else round) }
      releaseReadRound
      startPendingReads

/-! ## Elections -/

def beginTermTransition (term : Nat) (continuation : PersistContinuation) : StepM C Unit := do
  update RaftCore.becomeFollower
  update fun c => { c with hardState := ⟨term, none, c.hardState.commitIndex⟩ }
  let c ← core
  queuePersist ⟨some c.hardState, [], none⟩ continuation

def persistLeaderNoop : StepM C Unit := do
  let c ← core
  let index ← liftNext c.lastLogIndex
  let entry ← Program.expect (Entry.leaderNoop (C := C) index c.hardState.currentTerm).toOption
  let log ← liftLog (c.log.append [entry])
  update fun c => { c with
    log := log
    lastLogIndex := index
    lastLogTerm := c.hardState.currentTerm
    leaderNoopIndex := some index }
  queuePersist ⟨none, [entry], none⟩ .activateLeader

def becomeCandidate : StepM C Unit := do
  let c ← core
  let term ← liftNext c.hardState.currentTerm
  update fun c => { c with
    role := .candidate
    preVotes := none
    votes := some (QuorumTracker.withLocalVote c.config.members c.config.localId)
    hardState := ⟨term, some c.config.localId, c.hardState.commitIndex⟩ }
  let c ← core
  queuePersist ⟨some c.hardState, [], none⟩ .broadcastVoteRequests

def startPreVote : StepM C Unit := do
  let c ← core
  if c.role = .leader ∨ c.pendingPersist.isSome then pure ()
  else do
    let prospective ← liftNext c.hardState.currentTerm
    let preVotes := QuorumTracker.withLocalVote c.config.members c.config.localId
    update fun c => { c with role := .preCandidate, votes := none, preVotes := some preVotes }
    if preVotes.hasQuorum then becomeCandidate else broadcastPreVote prospective

def onHeartbeatTick : StepM C Unit := do
  let c ← core
  if c.role ≠ .leader ∨ c.pendingPersist.isSome then pure ()
  else if c.activeMembers.card < c.config.quorum then update RaftCore.becomeFollower
  else do
    update fun c => { c with
      activeMembers := {c.config.localId}
      progress := c.progress.mapValues Progress.resetActivity }
    -- a follower whose probe is out or whose window is full gets nothing
    replicateAll

def onVoteRequest (from_ : NodeId) (term : Nat) (index : Nat) (logTerm : Nat) :
    StepM C Unit := do
  let c ← core
  let current := c.hardState.currentTerm
  if term < current then sendVoteResponse from_ current false
  else do
    let logIsCurrent := isLogUpToDate index logTerm c.lastLogIndex c.lastLogTerm
    if current < term then do
      let hardState : HardState :=
        ⟨term, if logIsCurrent then some from_ else none, c.hardState.commitIndex⟩
      -- unlike in `become_follower`, progress, the round and the reads of a leader stay
      update fun c => { c with
        role := .follower, preVotes := none, votes := none, hardState := hardState }
      queuePersist ⟨some hardState, [], none⟩ (.sendVoteResponse from_ term logIsCurrent)
    else do
      let granted := logIsCurrent && c.hardState.votedFor.all (· == from_)
      if granted ∧ c.hardState.votedFor = none then do
        let hardState : HardState := ⟨term, some from_, c.hardState.commitIndex⟩
        update fun c => { c with hardState := hardState }
        queuePersist ⟨some hardState, [], none⟩ (.sendVoteResponse from_ term granted)
      -- a vote given before is answered from memory, durable or not
      else sendVoteResponse from_ term granted

def onPreVoteResponse (from_ : NodeId) (term : Nat) (granted : Bool) : StepM C Unit := do
  let c ← core
  if c.hardState.currentTerm < term then beginTermTransition term .none
  else if c.role ≠ .preCandidate then pure ()
  else match c.preVotes with
    | none => pure ()
    | some votes => do
      let votes := votes.record from_ granted
      update fun c => { c with preVotes := some votes }
      if votes.hasQuorum then becomeCandidate
      else if votes.cannotWin then
        update fun c => { c with role := .follower, preVotes := none }
      else pure ()

def onVoteResponse (from_ : NodeId) (term : Nat) (granted : Bool) : StepM C Unit := do
  let c ← core
  if c.hardState.currentTerm < term then beginTermTransition term .none
  else if term ≠ c.hardState.currentTerm ∨ c.role ≠ .candidate then pure ()
  else match c.votes with
    | none => pure ()
    | some votes => do
      let votes := votes.record from_ granted
      update fun c => { c with votes := some votes }
      if votes.hasQuorum then persistLeaderNoop
      else if votes.cannotWin then
        update fun c => { c with role := .follower, votes := none }
      else pure ()

/-! ## AppendEntries -/

/-- The prefix check, the merge and the commit of `on_append_entries`; returns the
decision's `success`, `conflict` and `appended`. -/
def mergeAppend (prevLogIndex : Nat) (prevLogTerm : Nat) (leaderCommit : Nat)
    (entries : List (Entry C)) : StepM C (Bool × Option ConflictHint × List (Entry C)) := do
  let c ← core
  match ← liftLog (validatePrefix c.log prevLogIndex prevLogTerm) with
  | .reject conflict => pure (false, some conflict, [])
  | .match_ => do
    let (log, appended) ← liftLog (c.log.mergeFromLeader entries)
    update fun c => { c with log := log }
    let log ← liftLog (log.commitTo (min leaderCommit log.lastIndex))
    update fun c => { c with log := log, lastLogIndex := log.lastIndex }
    let lastLogTerm ← liftLog (log.term log.lastIndex)
    update fun c => { c with lastLogTerm := lastLogTerm }
    pure (true, none, appended)

def onAppendEntries (from_ : NodeId) (term : Nat) (prevLogIndex : Nat) (prevLogTerm : Nat)
    (leaderCommit : Nat) (readContext : Option Bytes) (entries : List (Entry C)) :
    StepM C Unit := do
  let c ← core
  let currentTerm := c.hardState.currentTerm
  if term < currentTerm then
    sendAppendEntriesResponse from_ ⟨currentTerm, false, none, prevLogIndex, readContext⟩
  else do
    update RaftCore.becomeFollower
    let termChanged : Bool := currentTerm < term
    let (success, conflict, appended) ← mergeAppend prevLogIndex prevLogTerm leaderCommit entries
    let c ← core
    let commitChanged : Bool := c.hardState.commitIndex ≠ c.log.committed
    if termChanged ∨ commitChanged then
      update fun c => { c with hardState := ⟨term,
        if termChanged then none else c.hardState.votedFor, c.log.committed⟩ }
    let c ← core
    let response : AppendResponse := ⟨c.hardState.currentTerm, success, conflict,
      if success then c.log.lastIndex else prevLogIndex, readContext⟩
    if termChanged ∨ commitChanged ∨ appended ≠ [] then
      queuePersist ⟨if termChanged ∨ commitChanged then some c.hardState else none, appended, none⟩
        (.sendAppendEntriesResponse from_ response)
    -- nothing to persist: answered at once, whatever else is outstanding
    else sendAppendEntriesResponse from_ response

def onAppendEntriesResponse (from_ : NodeId) (term : Nat) (success : Bool)
    (matchIndex : Nat) (conflict : Option ConflictHint) (readContext : Option Bytes) :
    StepM C Unit := do
  let c ← core
  if c.hardState.currentTerm < term then beginTermTransition term .none
  else if c.role ≠ .leader ∨ term ≠ c.hardState.currentTerm then pure ()
  else do
    let next : Option Nat ←
      if success then pure none
      else do
        let next ← liftLog (rejectedNext c.log (conflict.getD ⟨matchIndex, none⟩))
        pure (some next)
    match c.progress.get from_ with
    | none => pure ()
    | some progress => do
      let (progress, changed) ← liftPure (match next with
        | none => progress.acknowledged (min matchIndex c.log.lastIndex)
        | some nextIndex => progress.reject matchIndex nextIndex)
      update fun c => { c with progress := c.progress.insert from_ progress }
      -- the round is released before the steps that can still fail
      match readContext with
      | some context => if success then acknowledgeReadContext from_ context else pure ()
      | none => pure ()
      if changed then do
        replicateTo from_
        advanceCommit
      else pure ()

/-! ## Snapshot messages -/

def onInstallSnapshotResponse (from_ : NodeId) (term : Nat) (success : Bool) :
    StepM C Unit := do
  let c ← core
  if c.hardState.currentTerm < term then beginTermTransition term .none
  else if c.role ≠ .leader ∨ term ≠ c.hardState.currentTerm ∨ !success then pure ()
  else match c.snapshotSenders.get from_ with
    | none => pure ()
    | some sender => do
      update fun c => { c with snapshotSenders := c.snapshotSenders.remove from_ }
      let next ← liftNext sender.snapshot.metadata.index
      match c.progress.get from_ with
      -- the next index may fall to the match index or below
      | some progress => update fun c => { c with
          progress := c.progress.insert from_ (progress.restoreProbe next) }
      | none => pure ()
      replicateTo from_

def onInstallSnapshotChunk (from_ : NodeId) (term : Nat) (metadata : SnapshotMetadata)
    (offset : Nat) (bytes : Bytes) (done : Bool) : StepM C Unit := do
  let c ← core
  if term < c.hardState.currentTerm then
    emit (.sendMessage from_ (.installSnapshotResponse c.hardState.currentTerm false))
  else if c.config.snapshotChunkBytes < bytes.length then raise .invalidSnapshot
  else if metadata.members ≠ c.config.members ∨ metadata.index ≤ c.snapshotIndex then pure ()
  else do
    if c.incomingSnapshot.all fun receiver => receiver.metadata.id ≠ metadata.id then
      if offset ≠ 0 ∨ c.pendingChunkStore.isSome then raise .invalidSnapshot
      else update fun c => { c with incomingSnapshot := some (SnapshotReceiver.new metadata) }
    let c ← core
    let receiver ← Program.expect c.incomingSnapshot
    if receiver.metadata ≠ metadata then raise .invalidSnapshot
    else match receiver.accept offset bytes done with
      | none => raise .invalidSnapshot
      | some (receiver, accepted) => do
        update fun c => { c with incomingSnapshot := some receiver }
        if !accepted then pure ()
        else do
          -- an exact repeat of the last chunk is stored again
          let id ← nextEffectId
          update fun c => { c with pendingChunkStore := some ⟨id, done, from_, term⟩ }
          emit (.storeSnapshotChunk id metadata offset bytes)

/-! ## Message dispatch -/

def onMessage (from_ : NodeId) : Message C → StepM C Unit
  | .preVote term lastLogIndex lastLogTerm => do
    let c ← core
    sendPreVoteResponse from_ (c.hardState.currentTerm < term &&
      isLogUpToDate lastLogIndex lastLogTerm c.lastLogIndex c.lastLogTerm)
  | .requestVote term lastLogIndex lastLogTerm =>
    onVoteRequest from_ term lastLogIndex lastLogTerm
  | .preVoteResponse term granted => onPreVoteResponse from_ term granted
  | .voteResponse term granted => onVoteResponse from_ term granted
  | .appendEntries term prevLogIndex prevLogTerm leaderCommit readContext entries =>
    onAppendEntries from_ term prevLogIndex prevLogTerm leaderCommit readContext entries
  | .installSnapshot term metadata offset bytes done =>
    onInstallSnapshotChunk from_ term metadata offset bytes done
  | .installSnapshotResponse term success => onInstallSnapshotResponse from_ term success
  | .appendEntriesResponse term success matchIndex conflict readContext =>
    onAppendEntriesResponse from_ term success matchIndex conflict readContext
  | .heartbeat => pure ()

end Ruft
