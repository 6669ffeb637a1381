import Ruft.Progress

set_option autoImplicit false

/-!
# Messages, events, effects and the snapshot pipelines

`protocol/mod.rs`, `event.rs`, `effect.rs`, `raft/read_index.rs` and
`raft/snapshot.rs`. The SHA-256 implementation is a parameter; the running hasher
of a receiver is the list of bytes it was fed.
-/

namespace Ruft

/-- The SHA-256 function of the `sha2` crate. -/
class Sha256 where
  digest : Bytes → SnapshotDigest

inductive Message (C : Type) where
  | heartbeat
  | preVote (term : Nat) (lastLogIndex : Nat) (lastLogTerm : Nat)
  | requestVote (term : Nat) (lastLogIndex : Nat) (lastLogTerm : Nat)
  | preVoteResponse (term : Nat) (granted : Bool)
  | voteResponse (term : Nat) (granted : Bool)
  | appendEntries (term : Nat) (prevLogIndex : Nat) (prevLogTerm : Nat)
      (leaderCommit : Nat) (readContext : Option Bytes) (entries : List (Entry C))
  | appendEntriesResponse (term : Nat) (success : Bool) (matchIndex : Nat)
      (conflict : Option ConflictHint) (readContext : Option Bytes)
  | installSnapshot (term : Nat) (metadata : SnapshotMetadata) (offset : Nat) (bytes : Bytes)
      (done : Bool)
  | installSnapshotResponse (term : Nat) (success : Bool)
  deriving DecidableEq

structure Envelope (C : Type) where
  clusterId : ClusterId
  from_ : NodeId
  to_ : NodeId
  message : Message C
  deriving DecidableEq

inductive ProposalResult where
  | applied (index : Nat)
  | leadershipLost
  | rejected
  deriving DecidableEq, Repr

inductive EffectOutcome where
  | persisted
  | applied (through : Nat)
  | snapshotChunkRead (snapshotId : SnapshotId) (offset : Nat) (bytes : Bytes) (done : Bool)
  | snapshotChunkStored (snapshotId : SnapshotId) (nextOffset : Nat)
      (snapshotRef : Option SnapshotRef)
  | snapshotInstalled (snapshotId : SnapshotId)
  | snapshotBuilt (metadata : SnapshotMetadata) (snapshotRef : SnapshotRef)
  | compacted (through : Nat)
  | failed
  deriving DecidableEq

structure PersistBatch (C : Type) where
  hardState : Option HardState
  entries : List (Entry C)
  snapshot : Option SnapshotRecord
  deriving DecidableEq

inductive Effect (C : Type) where
  | sendMessage (to_ : NodeId) (message : Message C)
  | persist (id : EffectId) (batch : PersistBatch C)
  | proposalResult (proposalId : ProposalId) (result : ProposalResult)
  | readReady (readId : ReadId) (readIndex : Nat)
  | apply (id : EffectId) (entries : List (Entry C))
  | readSnapshotChunk (id : EffectId) (snapshot : SnapshotRecord) (offset : Nat) (maxLen : Nat)
  | storeSnapshotChunk (id : EffectId) (metadata : SnapshotMetadata) (offset : Nat) (bytes : Bytes)
  | installSnapshot (id : EffectId) (record : SnapshotRecord)
  | buildSnapshot (id : EffectId) (through : Nat)
  | compactLog (id : EffectId) (through : Nat)
  deriving DecidableEq

inductive TickKind where
  | election
  | heartbeat
  deriving DecidableEq, Repr

inductive Event (C : Type) where
  | tick (kind : TickKind)
  | messageReceived (envelope : Envelope C)
  | propose (proposalId : ProposalId) (command : C) (encodedLen : Nat)
  | read (readId : ReadId) (context : Bytes)
  | snapshotRequested
  | effectCompleted (id : EffectId) (outcome : EffectOutcome)
  | shutdown
  deriving DecidableEq

/-- Requests sharing one heartbeat context and its acknowledgement tracker. -/
structure ReadRound where
  context : Bytes
  acknowledgments : QuorumTracker
  requests : List ReadId
  safeIndex : Option Nat
  deriving DecidableEq

namespace ReadRound

def new (context : Bytes) (members : List NodeId) (localId : NodeId) (readId : ReadId) :
    ReadRound := ⟨context, QuorumTracker.withLocalVote members localId, [readId], none⟩

def push (r : ReadRound) (readId : ReadId) : ReadRound :=
  { r with requests := r.requests ++ [readId] }

def acknowledge (r : ReadRound) (node : NodeId) : ReadRound :=
  { r with acknowledgments := r.acknowledgments.record node true }

def hasQuorum (r : ReadRound) : Bool := r.acknowledgments.hasQuorum

def setSafeIndex (r : ReadRound) (index : Nat) : ReadRound :=
  { r with safeIndex := some index }

end ReadRound

inductive LocalSnapshotState where
  | idle
  | building (id : EffectId) (through : Nat)
  | persisting (id : EffectId) (record : SnapshotRecord)
  | compacting (id : EffectId) (record : SnapshotRecord)
  deriving DecidableEq

structure SnapshotReceiver where
  metadata : SnapshotMetadata
  nextOffset : Nat
  hasher : Bytes
  lastChunk : Option (Nat × Bytes)
  finalChunk : Bool
  deriving DecidableEq

namespace SnapshotReceiver

def new (metadata : SnapshotMetadata) : SnapshotReceiver := ⟨metadata, 0, [], none, false⟩

/-- `none` is the source's `Err(())`, which leaves the receiver as it was. -/
def accept (r : SnapshotReceiver) (offset : Nat) (bytes : Bytes) (done : Bool) :
    Option (SnapshotReceiver × Bool) :=
  if offset < r.nextOffset then
    some (r, r.lastChunk.any fun chunk => chunk.1 == offset && chunk.2 == bytes)
  else if offset ≠ r.nextOffset ∨ r.finalChunk then none
  else if u64Max < offset + bytes.length then none
  else if r.metadata.size < offset + bytes.length then none
  else some ({ r with
    hasher := r.hasher ++ bytes
    nextOffset := offset + bytes.length
    lastChunk := some (offset, bytes)
    finalChunk := done }, true)

def isCompleteAndValid [Sha256] (r : SnapshotReceiver) : Bool :=
  r.finalChunk && r.nextOffset == r.metadata.size && Sha256.digest r.hasher == r.metadata.digest

def record (r : SnapshotReceiver) (snapshotRef : SnapshotRef) : SnapshotRecord :=
  ⟨r.metadata, snapshotRef⟩

end SnapshotReceiver

structure SnapshotSender where
  snapshot : SnapshotRecord
  offset : Nat
  deriving DecidableEq

namespace SnapshotSender

def new (snapshot : SnapshotRecord) : SnapshotSender := ⟨snapshot, 0⟩

def advance (s : SnapshotSender) (bytes : Nat) : Option SnapshotSender :=
  if s.offset + bytes ≤ u64Max then some { s with offset := s.offset + bytes } else none

end SnapshotSender

end Ruft
