import Ruft.LogFacts
import Ruft.Step

set_option autoImplicit false

/-!
# What a step can do

Every handler does one thing that depends on its event and then a chain of small
follow-ups: it sends appends, reads chunks, commits, applies, releases and starts
reads. `Act` lists what can come first, `FollowUp` one follow-up. The handlers are
shown to stay inside these two relations once; every law of the core is then a case
analysis over them and unfolds no handler.

## Main definitions

- `RaftCore.WF` — the invariant of a core that is not stopped
- `Act` — the first thing the handler of an event does
- `FollowUp` — one of the things it does afterwards
- `Path` — an act and its follow-ups
-/

namespace Ruft

variable {C : Type}

structure RaftCore.WF (c : RaftCore C) : Prop where
  log : c.log.WF
  committed : c.log.committed = c.hardState.commitIndex
  commit_lt : c.hardState.commitIndex < u64Max
  applied_le : c.appliedIndex ≤ c.hardState.commitIndex
  lastLogIndex : c.lastLogIndex = c.log.lastIndex
  lastLogTerm : c.lastLogTerm = lastTermFrom c.log.snapshotTerm c.log.entries
  snapshotIndex : c.snapshotIndex = c.log.snapshotIndex
  votes : c.votes.isSome → 0 < c.hardState.currentTerm
  progress : ∀ n p, c.progress.get n = some p → 0 < p.nextIndex ∧ p.matchIndex < u64Max
  leads : c.role = .leader →
    c.progress.keys = c.config.members.filter (· ≠ c.config.localId)
  applying : ∀ p, c.pendingApply = some p → p.through ≤ c.hardState.commitIndex

/-- The six slots for outstanding effects. -/
structure Slots where
  persist : Option PendingPersist
  apply : Option PendingApply
  chunkStore : Option PendingChunkStore
  incoming : Option IncomingSnapshotState
  building : LocalSnapshotState
  reads : BTreeMap EffectId NodeId

def RaftCore.slots (c : RaftCore C) : Slots :=
  ⟨c.pendingPersist, c.pendingApply, c.pendingChunkStore, c.incomingSnapshotState,
    c.localSnapshot, c.pendingSnapshotReads⟩

namespace Ctx

/-- The id the next effect gets. -/
def allocated (s : Ctx C) : EffectId := ⟨s.core.config.generation, s.core.nextEffectSequence + 1⟩

/-- No entry was handed out to be persisted in this step. -/
def Unqueued (s : Ctx C) : Prop := ∀ id batch, .persist id batch ∈ s.effects → batch.entries = []

@[simp] theorem unqueued_nil (c : RaftCore C) : Unqueued ⟨c, []⟩ := by simp [Unqueued]

/-- The state after `queue_persist`. -/
def queued (s : Ctx C) (batch : PersistBatch C) (continuation : PersistContinuation) : Ctx C :=
  ⟨{ s.core with
      nextEffectSequence := s.core.nextEffectSequence + 1
      pendingPersist :=
        some ⟨s.allocated, batch.entries.getLast?.map (·.index), continuation⟩ },
    s.effects ++ [.persist s.allocated batch]⟩

/-- The heartbeats of a read round. -/
def readHeartbeats (c : RaftCore C) (context : Bytes) : List (Effect C) :=
  toPeers c.config (.appendEntries c.hardState.currentTerm c.log.lastIndex c.lastLogTerm
    c.hardState.commitIndex (some context) [])

/-- The state after `start_read_round`, before the next pending read is looked at. -/
def roundStarted (s : Ctx C) (readId : ReadId) : Ctx C :=
  let counter := s.core.nextReadContext + 1
  let context := toBeBytes s.core.hardState.currentTerm ++ toBeBytes counter
  let round := ReadRound.new context s.core.config.members s.core.config.localId readId
  if round.hasQuorum then
    ⟨{ s.core with
        nextReadContext := counter
        readRound := some (round.setSafeIndex s.core.hardState.commitIndex) }, s.effects⟩
  else
    ⟨{ s.core with nextReadContext := counter, readRound := some round },
      s.effects ++ readHeartbeats s.core context⟩

/-- The state after `answer_proposals`. -/
def answered (s : Ctx C) (p : Nat → Bool) (result : Nat → ProposalResult) : Ctx C :=
  ⟨{ s.core with proposals := s.core.proposals.filter fun index => !p index },
    s.effects ++ (s.core.proposals.filter p).toList.flatMap fun binding =>
      binding.2.map fun proposalId => .proposalResult proposalId (result binding.1)⟩

end Ctx

/-- The core before a step and its event. -/
structure Cause (C : Type) where
  core : RaftCore C
  event : Event C

/-- The handler tries to advance the commit index: an acknowledgement came in, or the leader's
own entry became durable. -/
def Cause.MayCommit (cause : Cause C) : Prop :=
  match cause.event with
  | .messageReceived envelope => ∃ success matchIndex conflict context p,
      envelope.message = .appendEntriesResponse cause.core.hardState.currentTerm success matchIndex
        conflict context ∧
      cause.core.role = .leader ∧ cause.core.progress.get envelope.from_ = some p
  | .effectCompleted id .persisted => ∃ stableThrough,
      cause.core.pendingPersist = some ⟨id, stableThrough, .replicateProposal⟩ ∨
      cause.core.pendingPersist = some ⟨id, stableThrough, .activateLeader⟩
  | _ => False

/-- The handler sends appends to followers: it may commit, a leader's heartbeat is due, or a
follower got a snapshot. -/
def Cause.MayReplicate (cause : Cause C) : Prop :=
  cause.MayCommit ∨ match cause.event with
    | .tick .heartbeat => cause.core.role = .leader ∧ cause.core.pendingPersist = none
    | .messageReceived envelope => cause.core.role = .leader ∧
        envelope.message = .installSnapshotResponse cause.core.hardState.currentTerm true
    | _ => False

/-- The pending proposal became durable. -/
def Cause.Proposed (cause : Cause C) : Prop :=
  match cause.event with
  | .effectCompleted id .persisted => ∃ stableThrough,
      cause.core.pendingPersist = some ⟨id, stableThrough, .replicateProposal⟩
  | _ => False

/-- The handler releases a read round: its context came back, entries were applied, a read came
in, or what pending reads waited for became durable. -/
def Cause.MayRelease (cause : Cause C) : Prop :=
  match cause.event with
  | .read _ _ => True
  | .messageReceived envelope => ∃ term matchIndex conflict context, envelope.message =
      .appendEntriesResponse term true matchIndex conflict (some context)
  | .effectCompleted id (.applied through) => cause.core.pendingApply = some ⟨id, through⟩
  | .effectCompleted id .persisted => ∃ stableThrough continuation,
      cause.core.pendingPersist = some ⟨id, stableThrough, continuation⟩ ∧
      (continuation = .replicateProposal ∨ continuation = .applyCommitted)
  | _ => False

/-- One follow-up of a step. -/
inductive FollowUp (cause : Cause C) : Ctx C → Ctx C → Prop
  | applied (s : Ctx C) (entries : List (Entry C))
      (noPersist : s.core.pendingPersist = none) (noApply : s.core.pendingApply = none)
      (behind : s.core.appliedIndex < s.core.hardState.commitIndex)
      (range : s.core.log.range (s.core.appliedIndex + 1) s.core.hardState.commitIndex = .ok entries) :
      FollowUp cause s ⟨{ s.core with
          nextEffectSequence := s.core.nextEffectSequence + 1
          pendingApply := some ⟨s.allocated, s.core.hardState.commitIndex⟩ },
        s.effects ++ [.apply s.allocated entries]⟩
  | appendSent (s : Ctx C) (to_ : NodeId) (p q : Progress) (prev prevTerm : Nat)
      (entries : List (Entry C)) (found : s.core.progress.get to_ = some p)
      (next : p.nextIndex = prev + 1) (term : s.core.log.term prev = .ok prevTerm)
      (isBatch : ∃ tail, s.core.log.entries.drop (prev - s.core.log.snapshotIndex) = entries ++ tail)
      (held : s.core.log.snapshotIndex ≤ prev)
      (matched : q.matchIndex = p.matchIndex) (nextPos : 0 < q.nextIndex)
      (may : cause.MayReplicate) (leading : s.core.role = .leader ∨ cause.Proposed)
      (free : p.canSend = true)
      (batch : entries = takeBatch s.core.config 0 0
        (s.core.log.entries.drop (prev - s.core.log.snapshotIndex)))
      (moved : p.sent (entries.getLast?.elim prev (·.index)) = (.ok q : Outcome StepError _)) :
      FollowUp cause s ⟨{ s.core with progress := s.core.progress.insert to_ q },
        s.effects ++ [.sendMessage to_ (.appendEntries s.core.hardState.currentTerm prev prevTerm
          s.core.hardState.commitIndex none entries)]⟩
  | snapshotEntered (s : Ctx C) (to_ : NodeId) (p : Progress)
      (found : s.core.progress.get to_ = some p) :
      FollowUp cause s
        ⟨{ s.core with progress := s.core.progress.insert to_ p.enterSnapshot }, s.effects⟩
  | senderCreated (s : Ctx C) (to_ : NodeId) (snapshot : SnapshotRecord)
      (log : s.core.log.snapshot = some snapshot) (fresh : s.core.snapshotSenders.get to_ = none) :
      FollowUp cause s ⟨{ s.core with
          snapshotSenders := s.core.snapshotSenders.insert to_ (SnapshotSender.new snapshot) },
        s.effects⟩
  | chunkRequested (s : Ctx C) (to_ : NodeId) (sender : SnapshotSender)
      (idle : to_ ∉ s.core.pendingSnapshotReads.values)
      (found : s.core.snapshotSenders.get to_ = some sender) :
      FollowUp cause s ⟨{ s.core with
          nextEffectSequence := s.core.nextEffectSequence + 1
          pendingSnapshotReads := s.core.pendingSnapshotReads.insert s.allocated to_ },
        s.effects ++ [.readSnapshotChunk s.allocated sender.snapshot sender.offset
          s.core.config.snapshotChunkBytes]⟩
  | committed (s : Ctx C) (commit : Nat) (may : cause.MayCommit) (noPersist : s.core.pendingPersist = none)
      (quorum : quorumCommit s.core.log s.core.progress s.core.config.quorum
        s.core.hardState.currentTerm = .ok (some commit))
      (fresh : s.core.log.committed < commit) (held : commit ≤ s.core.log.lastIndex)
      (term : s.core.log.term commit = .ok s.core.hardState.currentTerm)
      (leading : s.core.role = .leader ∨ cause.Proposed) :
      FollowUp cause s (Ctx.queued ⟨{ s.core with
          log := { s.core.log with committed := commit }
          hardState := { s.core.hardState with commitIndex := commit } }, s.effects⟩
        ⟨some { s.core.hardState with commitIndex := commit }, [], none⟩ .applyCommitted)
  -- The effect counter overflows: the commit stays in memory and is not persisted.
  | commitStuck (s : Ctx C) (commit : Nat) (may : cause.MayCommit) (noPersist : s.core.pendingPersist = none)
      (quorum : quorumCommit s.core.log s.core.progress s.core.config.quorum
        s.core.hardState.currentTerm = .ok (some commit))
      (fresh : s.core.log.committed < commit) (held : commit ≤ s.core.log.lastIndex)
      (term : s.core.log.term commit = .ok s.core.hardState.currentTerm)
      (leading : s.core.role = .leader ∨ cause.Proposed) :
      FollowUp cause s ⟨{ s.core with
          log := { s.core.log with committed := commit }
          hardState := { s.core.hardState with commitIndex := commit } }, s.effects⟩
  | readAcknowledged (s : Ctx C) (envelope : Envelope C) (term matchIndex : Nat)
      (conflict : Option ConflictHint) (context : Bytes) (round : ReadRound)
      (is : cause.event = .messageReceived envelope)
      (message : envelope.message = .appendEntriesResponse term true matchIndex conflict
        (some context))
      (leader : s.core.role = .leader) (current : term = s.core.hardState.currentTerm)
      (found : s.core.readRound = some round) (same : round.context = context) :
      FollowUp cause s ⟨{ s.core with readRound := some (
          if (round.acknowledge envelope.from_).hasQuorum ∧ round.safeIndex = none then
            (round.acknowledge envelope.from_).setSafeIndex s.core.hardState.commitIndex
          else round.acknowledge envelope.from_) }, s.effects⟩
  | readReleased (s : Ctx C) (round : ReadRound) (index : Nat)
      (found : s.core.readRound = some round) (safe : round.safeIndex = some index)
      (applied : index ≤ s.core.appliedIndex) (may : cause.MayRelease) :
      FollowUp cause s ⟨{ s.core with readRound := none },
        s.effects ++ round.requests.map fun readId => .readReady readId index⟩
  | readStarted (s : Ctx C) (readId : ReadId) (rest : List ReadId)
      (leader : s.core.role = .leader) (noop : s.core.currentLeaderNoopIsCommitted = true)
      (idle : s.core.readRound = none) (queue : s.core.pendingReads = readId :: rest)
      (counter : s.core.nextReadContext < u64Max) :
      FollowUp cause s (Ctx.roundStarted ⟨{ s.core with pendingReads := rest }, s.effects⟩ readId)
  -- The context counter overflows: the read leaves the queue unanswered.
  | readLost (s : Ctx C) (readId : ReadId) (rest : List ReadId)
      (queue : s.core.pendingReads = readId :: rest) (full : ¬ s.core.nextReadContext < u64Max) :
      FollowUp cause s ⟨{ s.core with pendingReads := rest }, s.effects⟩
  | buildRequested (s : Ctx C) (idle : s.core.localSnapshot = .idle)
      (fresh : s.core.snapshotIndex < s.core.appliedIndex) :
      FollowUp cause s ⟨{ s.core with
          nextEffectSequence := s.core.nextEffectSequence + 1
          localSnapshot := .building s.allocated s.core.appliedIndex },
        s.effects ++ [.buildSnapshot s.allocated s.core.appliedIndex]⟩
  | recorded (s : Ctx C) (id : EffectId) (outcome : EffectOutcome)
      (is : cause.event = .effectCompleted id outcome) :
      FollowUp cause s ⟨s.core.recordCompletion id outcome, s.effects⟩

/-- The follow-ups of a step, in their order. -/
abbrev FollowUps (cause : Cause C) : Ctx C → Ctx C → Prop := Relation.ReflTransGen (FollowUp cause)

namespace RaftCore

/-- `begin_term_transition` before it persists. -/
def termRaised (c : RaftCore C) (term : Nat) : RaftCore C :=
  { c.becomeFollower with hardState := ⟨term, none, c.hardState.commitIndex⟩ }

/-- `become_candidate` before it persists. -/
def candidacy (c : RaftCore C) : RaftCore C :=
  { c with
    role := .candidate
    preVotes := none
    votes := some (QuorumTracker.withLocalVote c.config.members c.config.localId)
    hardState := ⟨c.hardState.currentTerm + 1, some c.config.localId, c.hardState.commitIndex⟩ }

/-- `persist_leader_noop` before it persists. -/
def noopAppended (c : RaftCore C) (entry : Entry C) : RaftCore C :=
  { c with
    log := { c.log with
      entries := c.log.entries ++ [entry]
      unstable := c.log.unstable.markRange entry.index entry.index }
    lastLogIndex := entry.index
    lastLogTerm := entry.term
    leaderNoopIndex := some entry.index }

/-- `on_propose` before it persists. -/
def proposalAppended (c : RaftCore C) (entry : Entry C) (proposalId : ProposalId) : RaftCore C :=
  { c with
    log := { c.log with
      entries := c.log.entries ++ [entry]
      unstable := c.log.unstable.markRange entry.index entry.index }
    lastLogIndex := entry.index
    lastLogTerm := entry.term
    proposals := c.proposals.insert entry.index
      ((c.proposals.get entry.index).getD [] ++ [proposalId]) }

/-- `on_append_entries` after it merged a suffix, before it answers. -/
def merged (c : RaftCore C) (term leaderCommit : Nat) (log : RaftLog C) : RaftCore C :=
  { c.becomeFollower with
    log := { log with committed := max log.committed (min leaderCommit log.lastIndex) }
    lastLogIndex := log.lastIndex
    lastLogTerm := lastTermFrom log.snapshotTerm log.entries
    hardState := ⟨term, if c.hardState.currentTerm < term then none else c.hardState.votedFor,
      max log.committed (min leaderCommit log.lastIndex)⟩ }

/-- The core after the pending persist was reported durable. -/
def stabilized (c : RaftCore C) (stableThrough : Option Nat) : RaftCore C :=
  { c with
    pendingPersist := none
    log := { c.log with
      unstable := stableThrough.elim c.log.unstable c.log.unstable.markStableThrough } }

/-- The core after the leader's no-op became durable. -/
def activated (c : RaftCore C) : RaftCore C :=
  { c with
    role := .leader
    votes := none
    activeMembers := {c.config.localId}
    progress := (c.config.members.filter (· ≠ c.config.localId)).foldl
      (fun progress node => progress.insert node
        (Progress.fresh (c.log.lastIndex + 1) c.config.maxInflightAppends))
      .empty }

end RaftCore

/-- A no-op or proposal entry that continues the log in the current term. -/
structure Entry.Continues (entry : Entry C) (c : RaftCore C) : Prop where
  index : entry.index = c.log.lastIndex + 1
  term : entry.term = c.hardState.currentTerm
  terms : lastTermFrom c.log.snapshotTerm c.log.entries ≤ entry.term
  bound : entry.index < u64Max

/-- The replies that promise nothing. -/
inductive Refusal (c : RaftCore C) : Message C → Prop
  | preVote (granted : Bool) : Refusal c (.preVoteResponse c.hardState.currentTerm granted)
  | vote : Refusal c (.voteResponse c.hardState.currentTerm false)
  | append (index : Nat) (conflict : Option ConflictHint) (context : Option Bytes) :
      Refusal c (.appendEntriesResponse c.hardState.currentTerm false index conflict context)
  | install : Refusal c (.installSnapshotResponse c.hardState.currentTerm false)

/-- The term of a response. -/
def Message.responseTerm : Message C → Option Nat
  | .preVoteResponse term _ => some term
  | .voteResponse term _ => some term
  | .appendEntriesResponse term _ _ _ _ => some term
  | .installSnapshotResponse term _ => some term
  | _ => none

/-- What the handler of a message does first. -/
inductive MessageAct (c : RaftCore C) (from_ : NodeId) : Message C → Ctx C → Prop
  | ignored (m : Message C) : MessageAct c from_ m ⟨c, []⟩
  | refused (m reply : Message C) (refusal : Refusal c reply) :
      MessageAct c from_ m ⟨c, [.sendMessage from_ reply]⟩
  | termRaised (m : Message C) (term : Nat) (is : m.responseTerm = some term)
      (newer : c.hardState.currentTerm < term) :
      MessageAct c from_ m (Ctx.queued ⟨c.termRaised term, []⟩
        ⟨some ⟨term, none, c.hardState.commitIndex⟩, [], none⟩ .none)
  -- RequestVote
  | voteNewer (term index logTerm : Nat) (newer : c.hardState.currentTerm < term)
      (vote : Option NodeId) (granted : Bool)
      (decided : granted = isLogUpToDate index logTerm c.lastLogIndex c.lastLogTerm)
      (voted : vote = if granted then some from_ else none) :
      MessageAct c from_ (.requestVote term index logTerm) (Ctx.queued ⟨{ c with
          role := .follower, preVotes := none, votes := none
          hardState := ⟨term, vote, c.hardState.commitIndex⟩ }, []⟩
        ⟨some ⟨term, vote, c.hardState.commitIndex⟩, [], none⟩
        (.sendVoteResponse from_ term granted))
  | voteFirst (term index logTerm : Nat) (same : c.hardState.currentTerm = term)
      (free : c.hardState.votedFor = none)
      (current : isLogUpToDate index logTerm c.lastLogIndex c.lastLogTerm = true) :
      MessageAct c from_ (.requestVote term index logTerm) (Ctx.queued ⟨{ c with
          hardState := ⟨term, some from_, c.hardState.commitIndex⟩ }, []⟩
        ⟨some ⟨term, some from_, c.hardState.commitIndex⟩, [], none⟩
        (.sendVoteResponse from_ term true))
  | voteAgain (term index logTerm : Nat) (same : c.hardState.currentTerm = term)
      (voted : c.hardState.votedFor = some from_)
      (current : isLogUpToDate index logTerm c.lastLogIndex c.lastLogTerm = true) :
      MessageAct c from_ (.requestVote term index logTerm)
        ⟨c, [.sendMessage from_ (.voteResponse term true)]⟩
  -- Election responses
  | preVoteCounted (term : Nat) (granted : Bool) (votes : Option QuorumTracker) (role : Role)
      (roles : role = c.role ∧ votes.isSome = true ∨ role = .follower ∧ votes = none)
      (notLeader : c.role = .preCandidate) (reached : term ≤ c.hardState.currentTerm)
      (counted : ∀ tracker, votes = some tracker → ∃ old, c.preVotes = some old ∧
        tracker = old.record from_ granted) :
      MessageAct c from_ (.preVoteResponse term granted)
        ⟨{ c with role := role, preVotes := votes }, []⟩
  | campaigned (term : Nat) (granted : Bool) (votes : QuorumTracker)
      (notLeader : c.role = .preCandidate) (found : c.preVotes = some votes)
      (won : (votes.record from_ granted).hasQuorum = true)
      (reached : term ≤ c.hardState.currentTerm) :
      MessageAct c from_ (.preVoteResponse term granted) (Ctx.queued ⟨c.candidacy, []⟩
        ⟨some c.candidacy.hardState, [], none⟩ .broadcastVoteRequests)
  | voteCounted (term : Nat) (granted : Bool) (votes : QuorumTracker)
      (same : term = c.hardState.currentTerm) (candidate : c.role = .candidate)
      (found : c.votes = some votes) :
      MessageAct c from_ (.voteResponse term granted)
        ⟨{ c with votes := some (votes.record from_ granted) }, []⟩
  | voteLost (term : Nat) (granted : Bool) (candidate : c.role = .candidate) :
      MessageAct c from_ (.voteResponse term granted)
        ⟨{ c with role := .follower, votes := none }, []⟩
  | elected (term : Nat) (granted : Bool) (votes : QuorumTracker) (entry : Entry C)
      (same : term = c.hardState.currentTerm) (candidate : c.role = .candidate)
      (found : c.votes = some votes) (won : (votes.record from_ granted).hasQuorum = true)
      (next : entry.Continues c) (noop : entry.payload = .leaderNoop) :
      MessageAct c from_ (.voteResponse term granted)
        (Ctx.queued ⟨{ c with votes := some (votes.record from_ granted) }.noopAppended entry, []⟩
          ⟨none, [entry], none⟩ .activateLeader)
  -- AppendEntries
  | appendFailed (term prev prevTerm leaderCommit : Nat) (context : Option Bytes)
      (entries : List (Entry C)) (reached : c.hardState.currentTerm ≤ term)
      (prefix_ : c.log.term prev = .ok prevTerm)
      (failed : ∃ e, c.log.mergeFromLeader entries = Outcome.raise e) :
      MessageAct c from_ (.appendEntries term prev prevTerm leaderCommit context entries)
        ⟨c.becomeFollower, []⟩
  | appendRefused (term prev prevTerm leaderCommit : Nat) (context : Option Bytes)
      (entries : List (Entry C)) (same : c.hardState.currentTerm = term) (reply : Message C)
      (refusal : Refusal c reply) :
      MessageAct c from_ (.appendEntries term prev prevTerm leaderCommit context entries)
        ⟨c.becomeFollower, [.sendMessage from_ reply]⟩
  | appendRejected (term prev prevTerm leaderCommit : Nat) (context : Option Bytes)
      (entries : List (Entry C)) (newer : c.hardState.currentTerm < term)
      (conflict : ConflictHint) :
      MessageAct c from_ (.appendEntries term prev prevTerm leaderCommit context entries)
        (Ctx.queued ⟨c.termRaised term, []⟩ ⟨some ⟨term, none, c.hardState.commitIndex⟩, [], none⟩
          (.sendAppendEntriesResponse from_ ⟨term, false, some conflict, prev, context⟩))
  | appendHeld (term prev prevTerm leaderCommit : Nat) (context : Option Bytes)
      (entries : List (Entry C)) (same : c.hardState.currentTerm = term)
      (prefix_ : c.log.term prev = .ok prevTerm)
      (held : ∀ e ∈ entries, c.log.term e.index = .ok e.term)
      (committed : min leaderCommit c.log.lastIndex ≤ c.log.committed) :
      MessageAct c from_ (.appendEntries term prev prevTerm leaderCommit context entries)
        ⟨c.becomeFollower, [.sendMessage from_
          (.appendEntriesResponse term true c.log.lastIndex none context)]⟩
  | appendAccepted (term prev prevTerm leaderCommit : Nat) (context : Option Bytes)
      (entries : List (Entry C)) (log : RaftLog C) (appended : List (Entry C))
      (hardState : Option HardState) (reached : c.hardState.currentTerm ≤ term)
      (prefix_ : c.log.term prev = .ok prevTerm)
      (run : c.log.mergeFromLeader entries = .ok (log, appended))
      (merge : c.log.Merged entries log appended) (wf : log.WF)
      (changed : c.hardState.currentTerm < term ∨ appended ≠ [] ∨
        c.log.committed < min leaderCommit log.lastIndex)
      (persisted : hardState = if c.hardState.currentTerm < term ∨
          c.log.committed < min leaderCommit log.lastIndex then
        some (c.merged term leaderCommit log).hardState else none) :
      MessageAct c from_ (.appendEntries term prev prevTerm leaderCommit context entries)
        (Ctx.queued ⟨c.merged term leaderCommit log, []⟩ ⟨hardState, appended, none⟩
          (.sendAppendEntriesResponse from_ ⟨term, true, none, log.lastIndex, context⟩))
  -- AppendEntriesResponse
  | acknowledged (term : Nat) (matchIndex : Nat) (conflict : Option ConflictHint)
      (context : Option Bytes) (p q : Progress) (leader : c.role = .leader)
      (same : term = c.hardState.currentTerm) (found : c.progress.get from_ = some p)
      (matched : q.matchIndex = p.matchIndex ∨ q.matchIndex = min matchIndex c.log.lastIndex)
      (nextPos : 0 < q.nextIndex)
      (moved : ∃ changed, p.acknowledged (min matchIndex c.log.lastIndex) =
        (.ok (q, changed) : Outcome StepError _)) :
      MessageAct c from_ (.appendEntriesResponse term true matchIndex conflict context)
        ⟨{ c with progress := c.progress.insert from_ q }, []⟩
  | backedOff (term : Nat) (matchIndex : Nat) (conflict : Option ConflictHint)
      (context : Option Bytes) (p q : Progress) (leader : c.role = .leader)
      (same : term = c.hardState.currentTerm) (found : c.progress.get from_ = some p)
      (matched : q.matchIndex = p.matchIndex) (nextPos : 0 < q.nextIndex)
      (moved : ∃ next changed, rejectedNext c.log (conflict.getD ⟨matchIndex, none⟩) = .ok next ∧
        p.reject matchIndex next = (.ok (q, changed) : Outcome StepError _)) :
      MessageAct c from_ (.appendEntriesResponse term false matchIndex conflict context)
        ⟨{ c with progress := c.progress.insert from_ q }, []⟩
  -- Snapshot transfer
  | senderDone (term : Nat) (sender : SnapshotSender) (progress : BTreeMap NodeId Progress)
      (leader : c.role = .leader) (same : term = c.hardState.currentTerm)
      (found : c.snapshotSenders.get from_ = some sender)
      (restored : progress = c.progress ∨ ∃ p, c.progress.get from_ = some p ∧
        progress = c.progress.insert from_ (p.restoreProbe (sender.snapshot.metadata.index + 1))) :
      MessageAct c from_ (.installSnapshotResponse term true)
        ⟨{ c with snapshotSenders := c.snapshotSenders.remove from_, progress := progress }, []⟩
  | receiverTouched (term : Nat) (metadata : SnapshotMetadata) (offset : Nat) (bytes : Bytes)
      (done : Bool) (receiver : SnapshotReceiver) (reached : c.hardState.currentTerm ≤ term)
      (is : receiver.metadata = metadata)
      (from_old : c.incomingSnapshot = some receiver ∨ (c.pendingChunkStore = none ∧
        receiver = SnapshotReceiver.new metadata)) :
      MessageAct c from_ (.installSnapshot term metadata offset bytes done)
        ⟨{ c with incomingSnapshot := some receiver }, []⟩
  | chunkAccepted (term : Nat) (metadata : SnapshotMetadata) (offset : Nat) (bytes : Bytes)
      (done : Bool) (receiver : SnapshotReceiver) (reached : c.hardState.currentTerm ≤ term)
      (fresh : c.snapshotIndex < metadata.index) (is : receiver.metadata = metadata)
      (members : metadata.members = c.config.members) :
      MessageAct c from_ (.installSnapshot term metadata offset bytes done)
        ⟨{ c with
            incomingSnapshot := some receiver
            nextEffectSequence := c.nextEffectSequence + 1
            pendingChunkStore :=
              some ⟨⟨c.config.generation, c.nextEffectSequence + 1⟩, done, from_, term⟩ },
          [.storeSnapshotChunk ⟨c.config.generation, c.nextEffectSequence + 1⟩ metadata offset
            bytes]⟩

/-- What the handler of an effect completion does first. -/
inductive CompletionAct [Sha256] (c : RaftCore C) (id : EffectId) : EffectOutcome → Ctx C → Prop
  | rejected (outcome : EffectOutcome) : CompletionAct c id outcome ⟨c, []⟩
  -- The outgoing snapshot pipeline
  | chunkRead (snapshotId : SnapshotId) (offset : Nat) (bytes : Bytes) (done : Bool) (to_ : NodeId)
      (sender : SnapshotSender) (advanced : SnapshotSender)
      (pending : c.pendingSnapshotReads.get id = some to_)
      (found : c.snapshotSenders.get to_ = some sender)
      (same : snapshotId = sender.snapshot.metadata.id ∧ offset = sender.offset)
      (moved : sender.advance bytes.length = some advanced)
      (fits : bytes.length ≤ c.config.snapshotChunkBytes) :
      CompletionAct c id (.snapshotChunkRead snapshotId offset bytes done)
        ⟨{ c with
            pendingSnapshotReads := c.pendingSnapshotReads.remove id
            snapshotSenders := c.snapshotSenders.insert to_ advanced },
          [.sendMessage to_ (.installSnapshot c.hardState.currentTerm sender.snapshot.metadata
            offset bytes done)]⟩
  -- The incoming snapshot pipeline
  | chunkStored (snapshotId : SnapshotId) (nextOffset : Nat) (snapshotRef : Option SnapshotRef)
      (pending : PendingChunkStore) (found : c.pendingChunkStore = some pending)
      (same : pending.id = id) (more : pending.done = false) :
      CompletionAct c id (.snapshotChunkStored snapshotId nextOffset snapshotRef)
        ⟨{ c with pendingChunkStore := none }, []⟩
  | transferDone (snapshotId : SnapshotId) (nextOffset : Nat) (snapshotRef : SnapshotRef)
      (pending : PendingChunkStore) (receiver : SnapshotReceiver)
      (found : c.pendingChunkStore = some pending) (same : pending.id = id)
      (done : pending.done = true) (received : c.incomingSnapshot = some receiver)
      (valid : receiver.isCompleteAndValid = true) :
      CompletionAct c id (.snapshotChunkStored snapshotId nextOffset (some snapshotRef))
        ⟨{ c with
            pendingChunkStore := none
            nextEffectSequence := c.nextEffectSequence + 1
            incomingSnapshotState := some (.persisting
              ⟨c.config.generation, c.nextEffectSequence + 1⟩ (receiver.record snapshotRef)
              pending.from_ pending.term) },
          [.persist ⟨c.config.generation, c.nextEffectSequence + 1⟩ ⟨some ⟨pending.term, none,
            max c.hardState.commitIndex receiver.metadata.index⟩, [],
              some (receiver.record snapshotRef)⟩]⟩
  | snapshotPersisted (record : SnapshotRecord) (from_ : NodeId) (term : Nat)
      (found : c.incomingSnapshotState = some (.persisting id record from_ term)) :
      CompletionAct c id .persisted
        ⟨{ c with
            nextEffectSequence := c.nextEffectSequence + 1
            incomingSnapshotState := some (.installing
              ⟨c.config.generation, c.nextEffectSequence + 1⟩ record from_ term) },
          [.installSnapshot ⟨c.config.generation, c.nextEffectSequence + 1⟩ record]⟩
  | installed (snapshotId : SnapshotId) (record : SnapshotRecord) (from_ : NodeId) (term : Nat)
      (log : RaftLog C)
      (found : c.incomingSnapshotState = some (.installing id record from_ term))
      (install : c.log.installSnapshot record = .ok log) :
      CompletionAct c id (.snapshotInstalled snapshotId)
        ⟨{ c.installed log record term with
            lastLogTerm := lastTermFrom log.snapshotTerm log.entries
            incomingSnapshot := none
            incomingSnapshotState := none },
          [.sendMessage from_ (.installSnapshotResponse (max c.hardState.currentTerm term) true)]⟩
  -- The local snapshot pipeline
  | built (metadata : SnapshotMetadata) (snapshotRef : SnapshotRef) (through : Nat)
      (found : c.localSnapshot = .building id through)
      (valid : metadata.index = through ∧ c.log.term through = .ok metadata.term ∧
        metadata.members = c.config.members) :
      CompletionAct c id (.snapshotBuilt metadata snapshotRef)
        ⟨{ c with
            nextEffectSequence := c.nextEffectSequence + 1
            localSnapshot := .persisting ⟨c.config.generation, c.nextEffectSequence + 1⟩
              ⟨metadata, snapshotRef⟩ },
          [.persist ⟨c.config.generation, c.nextEffectSequence + 1⟩
            ⟨none, [], some ⟨metadata, snapshotRef⟩⟩]⟩
  | recordPersisted (record : SnapshotRecord) (found : c.localSnapshot = .persisting id record) :
      CompletionAct c id .persisted
        ⟨{ c with
            nextEffectSequence := c.nextEffectSequence + 1
            localSnapshot := .compacting ⟨c.config.generation, c.nextEffectSequence + 1⟩ record },
          [.compactLog ⟨c.config.generation, c.nextEffectSequence + 1⟩ record.metadata.index]⟩
  | compacted (record : SnapshotRecord) (log : RaftLog C)
      (found : c.localSnapshot = .compacting id record)
      (compact : c.log.compact record = .ok log) :
      CompletionAct c id (.compacted record.metadata.index)
        ⟨{ c with
            localSnapshot := .idle, log := log, snapshotIndex := record.metadata.index }, []⟩
  | compactFailed (record : SnapshotRecord) (found : c.localSnapshot = .compacting id record) :
      CompletionAct c id (.compacted record.metadata.index) ⟨{ c with localSnapshot := .idle }, []⟩
  -- Apply and persist
  | applyDone (pending : PendingApply) (found : c.pendingApply = some pending)
      (same : pending.id = id) :
      CompletionAct c id (.applied pending.through)
        (Ctx.answered ⟨{ c with pendingApply := none, appliedIndex := pending.through }, []⟩
          (fun index => index ≤ pending.through) .applied)
  | persistDropped (stableThrough : Option Nat) (continuation : PersistContinuation)
      (found : c.pendingPersist = some ⟨id, stableThrough, continuation⟩) :
      CompletionAct c id .persisted ⟨{ c with pendingPersist := none }, []⟩
  | persistDone (stableThrough : Option Nat) (continuation : PersistContinuation)
      (found : c.pendingPersist = some ⟨id, stableThrough, continuation⟩) :
      CompletionAct c id .persisted ⟨c.stabilized stableThrough, []⟩
  | votesRequested (stableThrough : Option Nat)
      (found : c.pendingPersist = some ⟨id, stableThrough, .broadcastVoteRequests⟩) :
      CompletionAct c id .persisted ⟨c.stabilized stableThrough,
        toPeers c.config (.requestVote c.hardState.currentTerm c.lastLogIndex c.lastLogTerm)⟩
  | electedAlone (stableThrough : Option Nat) (votes : QuorumTracker) (entry : Entry C)
      (found : c.pendingPersist = some ⟨id, stableThrough, .broadcastVoteRequests⟩)
      (counted : c.votes = some votes) (won : votes.hasQuorum = true)
      (next : entry.Continues c) (noop : entry.payload = .leaderNoop) :
      CompletionAct c id .persisted
        (Ctx.queued ⟨(c.stabilized stableThrough).noopAppended entry, []⟩
          ⟨none, [entry], none⟩ .activateLeader)
  | voteAnswered (stableThrough : Option Nat) (to_ : NodeId) (term : Nat) (granted : Bool)
      (found : c.pendingPersist = some ⟨id, stableThrough, .sendVoteResponse to_ term granted⟩) :
      CompletionAct c id .persisted ⟨c.stabilized stableThrough,
        [.sendMessage to_ (.voteResponse term granted)]⟩
  | appendAnswered (stableThrough : Option Nat) (to_ : NodeId) (r : AppendResponse)
      (found : c.pendingPersist = some ⟨id, stableThrough, .sendAppendEntriesResponse to_ r⟩) :
      CompletionAct c id .persisted ⟨c.stabilized stableThrough,
        [.sendMessage to_ (.appendEntriesResponse r.term r.success r.matchIndex r.conflict
          r.readContext)]⟩
  | activated (stableThrough : Option Nat)
      (found : c.pendingPersist = some ⟨id, stableThrough, .activateLeader⟩) :
      CompletionAct c id .persisted ⟨(c.stabilized stableThrough).activated, []⟩

/-- What the handler of an event does first. -/
inductive Act [Sha256] (c : RaftCore C) : Event C → Ctx C → Prop
  | ignored (event : Event C) : Act c event ⟨c, []⟩
  | preVoteStarted (notLeader : c.role ≠ .leader) (free : c.pendingPersist = none) :
      Act c (.tick .election) ⟨{ c with
          role := .preCandidate, votes := none
          preVotes := some (QuorumTracker.withLocalVote c.config.members c.config.localId) },
        toPeers c.config (.preVote (c.hardState.currentTerm + 1) c.lastLogIndex c.lastLogTerm)⟩
  | campaigned (notLeader : c.role ≠ .leader) (free : c.pendingPersist = none)
      (alone : (QuorumTracker.withLocalVote c.config.members c.config.localId).hasQuorum = true) :
      Act c (.tick .election) (Ctx.queued ⟨c.candidacy, []⟩
        ⟨some c.candidacy.hardState, [], none⟩ .broadcastVoteRequests)
  | quorumLost (leader : c.role = .leader) (free : c.pendingPersist = none) :
      Act c (.tick .heartbeat) ⟨c.becomeFollower, []⟩
  | heartbeat (leader : c.role = .leader) (free : c.pendingPersist = none) :
      Act c (.tick .heartbeat) ⟨{ c with
        activeMembers := {c.config.localId}
        progress := c.progress.mapValues Progress.resetActivity }, []⟩
  | message (envelope : Envelope C) (members : Finset NodeId) (s : Ctx C)
      (known : envelope.from_ ∈ c.config.members) (mine : envelope.to_ = c.config.localId)
      (act : MessageAct { c with activeMembers := members } envelope.from_ envelope.message s)
      (cluster : envelope.clusterId = c.config.clusterId) :
      Act c (.messageReceived envelope) s
  | proposalRefused (proposalId : ProposalId) (command : C) (encodedLen : Nat)
      (result : ProposalResult) (refused : result = .leadershipLost ∨ result = .rejected) :
      Act c (.propose proposalId command encodedLen) ⟨c, [.proposalResult proposalId result]⟩
  | proposed (proposalId : ProposalId) (command : C) (encodedLen : Nat) (entry : Entry C)
      (leader : c.role = .leader) (free : c.pendingPersist = none) (next : entry.Continues c)
      (payload : entry.payload = .command command) :
      Act c (.propose proposalId command encodedLen)
        (Ctx.queued ⟨c.proposalAppended entry proposalId, []⟩ ⟨none, [entry], none⟩
          .replicateProposal)
  | readQueued (readId : ReadId) (context : Bytes) (leader : c.role = .leader)
      (noop : c.currentLeaderNoopIsCommitted = false) :
      Act c (.read readId context) ⟨{ c with pendingReads := c.pendingReads ++ [readId] }, []⟩
  | readJoined (readId : ReadId) (context : Bytes) (round : ReadRound) (leader : c.role = .leader)
      (noop : c.currentLeaderNoopIsCommitted = true) (found : c.readRound = some round)
      (space : c.pendingReads.length + round.requests.length < c.config.maxPendingReads) :
      Act c (.read readId context) ⟨{ c with readRound := some (round.push readId) }, []⟩
  | readStarted (readId : ReadId) (context : Bytes) (leader : c.role = .leader)
      (noop : c.currentLeaderNoopIsCommitted = true) (idle : c.readRound = none)
      (counter : c.nextReadContext < u64Max) :
      Act c (.read readId context) (Ctx.roundStarted ⟨c, []⟩ readId)
  | completed (id : EffectId) (outcome : EffectOutcome) (s : Ctx C)
      (act : CompletionAct c id outcome s) : Act c (.effectCompleted id outcome) s
  | shutDown : Act c .shutdown ⟨c.stop .shutdown, []⟩

/-- What is left of a handler when the effect counter runs out in the middle of what it does
first: the writes it made before it asked for an id. -/
inductive Stuck (c : RaftCore C) (A : Ctx C → Prop) : StepError → Ctx C → Prop
  | queued (d : RaftCore C) (batch : PersistBatch C) (continuation : PersistContinuation)
      (full : ¬ c.nextEffectSequence < u64Max) (act : A (Ctx.queued ⟨d, []⟩ batch continuation))
      (slots : d.slots = c.slots ∨ d.slots = { c.slots with persist := none })
      (config : d.config = c.config) (counter : d.nextEffectSequence = c.nextEffectSequence) :
      Stuck c A (.arithmetic .overflow) ⟨d, []⟩
  | dropped (members : Finset NodeId) (receiver : Option SnapshotReceiver)
      (store : Option PendingChunkStore) (incoming : Option IncomingSnapshotState)
      (building : LocalSnapshotState) (full : ¬ c.nextEffectSequence < u64Max)
      (received : receiver = c.incomingSnapshot ∨ receiver.isSome = true)
      (stored : store = c.pendingChunkStore ∨ store = none)
      (installing : incoming = c.incomingSnapshotState ∨ incoming = none)
      (built : building = c.localSnapshot ∨ building = .idle) :
      Stuck c A (.arithmetic .overflow) ⟨{ c with
        activeMembers := members, incomingSnapshot := receiver, pendingChunkStore := store
        incomingSnapshotState := incoming, localSnapshot := building }, []⟩

theorem Stuck.full {c : RaftCore C} {A : Ctx C → Prop} {e : StepError} {s : Ctx C}
    (h : Stuck c A e s) : ¬ c.nextEffectSequence < u64Max := by
  cases h <;> assumption

theorem Stuck.mono {c : RaftCore C} {A B : Ctx C → Prop} {members : Finset NodeId} {e : StepError}
    {s : Ctx C} (h : Stuck { c with activeMembers := members } A e s) (hab : ∀ s, A s → B s) :
    Stuck c B e s := by
  cases h with
  | queued d batch continuation full act slots config counter =>
    exact .queued d batch continuation full (hab _ act) slots config counter
  | dropped members receiver store incoming building full received stored installing built =>
    exact .dropped members receiver store incoming building full received stored installing built

/-- What a handler does, in order. -/
inductive Path [Sha256] (c : RaftCore C) (event : Event C) : Ctx C → Prop
  | mk (s s' : Ctx C) (act : Act c event s) (rest : FollowUps ⟨c, event⟩ s s') : Path c event s'

/-- The core after a failure was reported for an effect: its slot may be empty and the core
is stopped. -/
structure Halted (c c' : RaftCore C) : Prop where
  stopped : c'.stopped = true
  unchanged : ∃ reads store incoming building applying persist, c' = { c with
    pendingSnapshotReads := reads, pendingChunkStore := store
    incomingSnapshotState := incoming, localSnapshot := building
    pendingApply := applying, pendingPersist := persist, stopped := true }

/-- A chunk read is pending for a follower whose sender is gone. -/
def SenderGone (c : RaftCore C) (id : EffectId) : Prop :=
  ∃ to_, c.pendingSnapshotReads.get id = some to_ ∧ c.snapshotSenders.get to_ = none

/-- A chunk store is pending and the receiver is gone. -/
def ReceiverGone (c : RaftCore C) (id : EffectId) : Prop :=
  c.incomingSnapshot = none ∧ ∃ pending, c.pendingChunkStore = some pending ∧ pending.id = id

/-- A proposal becomes durable and there are too few followers for a quorum. -/
def FollowersGone (c : RaftCore C) (id : EffectId) (outcome : EffectOutcome) : Prop :=
  outcome = .persisted ∧ c.progress.keys.length + 1 < c.config.quorum ∧
    ∃ stableThrough, c.pendingPersist = some ⟨id, stableThrough, .replicateProposal⟩

/-- A no-op becomes durable, and the windows of the followers are larger than a queue can be. -/
def WindowsTooLarge (c : RaftCore C) (id : EffectId) (outcome : EffectOutcome) : Prop :=
  outcome = .persisted ∧ maxCapacity < c.config.maxInflightAppends ∧
    c.config.members.filter (· ≠ c.config.localId) ≠ [] ∧
    ∃ stableThrough, c.pendingPersist = some ⟨id, stableThrough, .activateLeader⟩

/-- The completions on which a running core panics. -/
def Panics (c : RaftCore C) : Event C → Prop
  | .effectCompleted id outcome =>
    SenderGone c id ∨ ReceiverGone c id ∨ FollowersGone c id outcome ∨ WindowsTooLarge c id outcome
  | _ => False

end Ruft
