import Ruft.Protocol

set_option autoImplicit false

/-!
# The core state machine

`core.rs` and `invariant.rs`. A handler of the source, a method on `&mut self` with
an effect vector, is a `Program` over `Ctx`: the core together with the effects
emitted so far. Its writes stay when it returns an error; the effects of a step
that fails are dropped by `step`.
-/

namespace Ruft

inductive Role where
  | follower
  | preCandidate
  | candidate
  | leader
  deriving DecidableEq, Repr

inductive InputError where
  | wrongRecipient
  | wrongCluster
  | unknownSender
  | staleEffectGeneration
  | unknownEffect
  | alreadyCompleted
  | conflictingEffectOutcome
  | invalidEffectOutcome
  deriving DecidableEq, Repr

inductive StepError where
  | input (error : InputError)
  | arithmetic (error : ArithmeticError)
  | log (error : LogError)
  | entry (error : EntryError)
  | applyFailed
  | invalidSnapshot
  | snapshotFailed
  | compactionFailed
  | persistenceFailed
  | fatal (error : FatalError)
  | stopped (reason : StoppedReason)
  deriving DecidableEq, Repr

structure StepOutput (C : Type) where
  effects : List (Effect C)
  softStateChanged : Bool
  deriving DecidableEq

structure AppendResponse where
  term : Nat
  success : Bool
  conflict : Option ConflictHint
  matchIndex : Nat
  readContext : Option Bytes
  deriving DecidableEq, Repr

inductive PersistContinuation where
  | broadcastVoteRequests
  | sendVoteResponse (to_ : NodeId) (term : Nat) (granted : Bool)
  | activateLeader
  | sendAppendEntriesResponse (to_ : NodeId) (response : AppendResponse)
  | replicateProposal
  | applyCommitted
  | none
  deriving DecidableEq, Repr

structure PendingChunkStore where
  id : EffectId
  done : Bool
  from_ : NodeId
  term : Nat
  deriving DecidableEq, Repr

inductive IncomingSnapshotState where
  | persisting (id : EffectId) (record : SnapshotRecord) (from_ : NodeId) (term : Nat)
  | installing (id : EffectId) (record : SnapshotRecord) (from_ : NodeId) (term : Nat)
  deriving DecidableEq

structure PendingApply where
  id : EffectId
  through : Nat
  deriving DecidableEq, Repr

structure PendingPersist where
  id : EffectId
  stableThrough : Option Nat
  continuation : PersistContinuation
  deriving DecidableEq, Repr

structure RaftCore (C : Type) where
  config : Config
  hardState : HardState
  role : Role
  preVotes : Option QuorumTracker
  votes : Option QuorumTracker
  log : RaftLog C
  lastLogIndex : Nat
  lastLogTerm : Nat
  activeMembers : Finset NodeId
  progress : BTreeMap NodeId Progress
  pendingPersist : Option PendingPersist
  pendingApply : Option PendingApply
  appliedIndex : Nat
  proposals : BTreeMap Nat (List ProposalId)
  leaderNoopIndex : Option Nat
  pendingReads : List ReadId
  readRound : Option ReadRound
  nextReadContext : Nat
  localSnapshot : LocalSnapshotState
  incomingSnapshot : Option SnapshotReceiver
  pendingChunkStore : Option PendingChunkStore
  incomingSnapshotState : Option IncomingSnapshotState
  snapshotSenders : BTreeMap NodeId SnapshotSender
  pendingSnapshotReads : BTreeMap EffectId NodeId
  snapshotIndex : Nat
  nextEffectSequence : Nat
  stopped : Bool
  stoppedReason : Option StoppedReason
  completedFrontier : Nat
  completedSparse : Finset Nat
  completedOutcomes : BTreeMap EffectId EffectOutcome
  completionOrder : List EffectId
  deriving DecidableEq

/-- The core and the effects emitted so far in the current step. -/
structure Ctx (C : Type) where
  core : RaftCore C
  effects : List (Effect C)

abbrev StepM (C : Type) := Program (Ctx C) StepError

namespace RaftCore

variable {C : Type}

def new (config : Config) (recovered : RecoveredState C) : RaftCore C :=
  let snapshotIndex := recovered.snapshot.elim 0 (·.metadata.index)
  let snapshotTerm := recovered.snapshot.elim 0 (·.metadata.term)
  { config := config
    hardState := recovered.hardState
    role := .follower
    preVotes := none
    votes := none
    log := RaftLog.fromRecovered recovered
    lastLogIndex := recovered.entries.getLast?.elim snapshotIndex (·.index)
    lastLogTerm := recovered.entries.getLast?.elim snapshotTerm (·.term)
    activeMembers := ∅
    progress := .empty
    pendingPersist := none
    pendingApply := none
    appliedIndex := snapshotIndex
    proposals := .empty
    leaderNoopIndex := none
    pendingReads := []
    readRound := none
    nextReadContext := 0
    localSnapshot := .idle
    incomingSnapshot := none
    pendingChunkStore := none
    incomingSnapshotState := none
    snapshotSenders := .empty
    pendingSnapshotReads := .empty
    snapshotIndex := snapshotIndex
    nextEffectSequence := 0
    stopped := false
    stoppedReason := none
    completedFrontier := 0
    completedSparse := ∅
    completedOutcomes := .empty
    completionOrder := [] }

/-! ## Invariants and lifecycle -/

/-- `invariant::validate`. -/
def validateInvariants (c : RaftCore C) : Outcome InvariantViolation Unit :=
  let commitIndex := c.hardState.commitIndex
  if commitIndex < c.appliedIndex then Outcome.raise .appliedPastCommit
  else if c.log.lastIndex < commitIndex then Outcome.raise .commitPastLog
  else if c.log.committed ≠ commitIndex then Outcome.raise .commitIndexMismatch
  else do
    let committedNext ← checkedNextOr commitIndex InvariantViolation.indexOverflow
    let first ← match c.log.firstIndex with
      | .ok first => .ok first
      | .error e => .error (e.map .log)
    if committedNext < first then Outcome.raise .committedGap
    else if c.lastLogIndex ≠ c.log.lastIndex then Outcome.raise .lastLogMismatch
    else match c.log.term c.log.lastIndex with
      | .error e => .error (e.map .log)
      | .ok t =>
        if c.lastLogTerm ≠ t then Outcome.raise .lastLogMismatch else c.log.validate

/-- The first reason is preserved. -/
def stop (c : RaftCore C) (reason : StoppedReason) : RaftCore C :=
  { c with stopped := true, stoppedReason := c.stoppedReason.or (some reason) }

def fatal (c : RaftCore C) (error : FatalError) : StepError × RaftCore C :=
  (.fatal error, c.stop (.fatal error))

def fatalize (c : RaftCore C) : StepError → StepError × RaftCore C
  | .persistenceFailed | .compactionFailed => c.fatal .storage
  | .applyFailed | .snapshotFailed => c.fatal .stateMachine
  | error => (error, c)

/-- Resets all leader and candidate volatile state. -/
def becomeFollower (c : RaftCore C) : RaftCore C :=
  -- the snapshot senders and their pending reads are not among it
  { c with
    role := .follower
    preVotes := none
    votes := none
    activeMembers := ∅
    progress := .empty
    leaderNoopIndex := none
    pendingReads := []
    readRound := none }

def currentLeaderNoopIsCommitted (c : RaftCore C) : Bool :=
  c.leaderNoopIndex.any fun index => index ≤ c.hardState.commitIndex

/-! ## Effect completion tracking -/

def validateCompletion (c : RaftCore C) (id : EffectId) (outcome : EffectOutcome) :
    Outcome StepError Unit :=
  if id.generation ≠ c.config.generation then Outcome.raise (.input .staleEffectGeneration)
  else match c.completedOutcomes.get id with
    | some previous =>
      if previous = outcome then Outcome.raise (.input .alreadyCompleted)
      else Outcome.raise (.input .conflictingEffectOutcome)
    | none =>
      if id.sequence ≤ c.completedFrontier ∨ id.sequence ∈ c.completedSparse then
        Outcome.raise (.input .alreadyCompleted)
      else .ok ()

/-- `saturating_add(1)`. -/
def saturatingNext (n : Nat) : Nat := min (n + 1) u64Max

/-- The merge loop of `record_completion`. Each turn removes one element of the sparse
set, so its cardinality bounds the number of turns. -/
def mergeFrontier : Nat → Nat → Finset Nat → Nat × Finset Nat
  | 0, frontier, sparse => (frontier, sparse)
  | fuel + 1, frontier, sparse =>
    if saturatingNext frontier ∈ sparse then
      mergeFrontier fuel (saturatingNext frontier) (sparse.erase (saturatingNext frontier))
    else (frontier, sparse)

/-- The eviction loop of `record_completion`: drops the oldest ids beyond the limit. -/
def evict (limit : Nat) : List EffectId → BTreeMap EffectId EffectOutcome →
    List EffectId × BTreeMap EffectId EffectOutcome
  | [], outcomes => ([], outcomes)
  | expired :: rest, outcomes =>
    if limit < (expired :: rest).length then evict limit rest (outcomes.remove expired)
    else (expired :: rest, outcomes)

def recordCompletion (c : RaftCore C) (id : EffectId) (outcome : EffectOutcome) : RaftCore C :=
  let (frontier, sparse) :=
    if id.sequence = saturatingNext c.completedFrontier then
      mergeFrontier c.completedSparse.card id.sequence c.completedSparse
    else (c.completedFrontier, insert id.sequence c.completedSparse)
  let (order, outcomes) := evict c.config.completionHistory (c.completionOrder ++ [id])
    (c.completedOutcomes.insert id outcome)
  { c with
    completedFrontier := frontier
    completedSparse := sparse
    completedOutcomes := outcomes
    completionOrder := order }

end RaftCore

namespace StepM

variable {C : Type}

def core : StepM C (RaftCore C) := fun s => (.ok s.core, s)

def update (f : RaftCore C → RaftCore C) : StepM C Unit := fun s =>
  (.ok (), { s with core := f s.core })

/-- `effects.push(effect)`. -/
def emit (effect : Effect C) : StepM C Unit := fun s =>
  (.ok (), { s with effects := s.effects ++ [effect] })

def emitAll (effects : List (Effect C)) : StepM C Unit := fun s =>
  (.ok (), { s with effects := s.effects ++ effects })

def raise {α : Type} (e : StepError) : StepM C α := Program.raise e

def liftLog {α : Type} (m : Outcome LogError α) : StepM C α := Program.lift .log m

def liftPure {α : Type} (m : Outcome StepError α) : StepM C α := Program.lift id m

def liftNext (n : Nat) : StepM C Nat := liftPure
  (match checkedNext n with
    | .ok m => .ok m
    | .error e => Outcome.raise (.arithmetic e))

@[simp] theorem core_run (s : Ctx C) : (core : StepM C _) s = (.ok s.core, s) := rfl

@[simp] theorem update_run (f : RaftCore C → RaftCore C) (s : Ctx C) :
    (update f : StepM C _) s = (.ok (), { s with core := f s.core }) := rfl

@[simp] theorem emit_run (e : Effect C) (s : Ctx C) :
    (emit e : StepM C _) s = (.ok (), { s with effects := s.effects ++ [e] }) := rfl

@[simp] theorem emitAll_run (es : List (Effect C)) (s : Ctx C) :
    (emitAll es : StepM C _) s = (.ok (), { s with effects := s.effects ++ es }) := rfl

end StepM

end Ruft
