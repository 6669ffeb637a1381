import Mathlib.Data.List.Sort
import Ruft.Types

set_option autoImplicit false

/-!
# Validated settings and recovered state

`Config::builder(..).build()`, `SnapshotMetadata::new` and
`RecoveredState::from_parts`. Each of the three types carries what its constructor
checked, so a core can only be started from validated values.
-/

namespace Ruft

/-- The first element that repeats an earlier one. -/
def firstDuplicate (seen : List NodeId) : List NodeId → Option NodeId
  | [] => none
  | node :: rest => if node ∈ seen then some node else firstDuplicate (node :: seen) rest

theorem firstDuplicate_eq_none {seen nodes : List NodeId} (h : firstDuplicate seen nodes = none) :
    nodes.Nodup ∧ ∀ n ∈ nodes, n ∉ seen := by
  induction nodes generalizing seen with
  | nil => simp
  | cons n ns ih =>
    simp only [firstDuplicate] at h
    split at h
    · simp at h
    · next hn =>
      obtain ⟨hnd, hout⟩ := ih h
      refine ⟨List.nodup_cons.mpr ⟨fun hm => hout n hm (by simp), hnd⟩, ?_⟩
      intro m hm
      rcases List.mem_cons.mp hm with rfl | hm
      · exact hn
      · exact fun hs => hout m hm (List.mem_cons_of_mem _ hs)

/-- The nodes of a set in ascending order: `BTreeSet` iteration. -/
def ascending (nodes : List NodeId) : List NodeId := nodes.insertionSort (· ≤ ·)

theorem ascending_sorted {nodes : List NodeId} (h : nodes.Nodup) :
    (ascending nodes).Pairwise (· < ·) := by
  have hle := List.pairwise_insertionSort (· ≤ ·) nodes
  have hnd : (ascending nodes).Nodup := (List.perm_insertionSort _ nodes).nodup_iff.mpr h
  exact (hle.and hnd).imp (fun hab => lt_of_le_of_ne hab.1 hab.2)

theorem mem_ascending {nodes : List NodeId} {n : NodeId} : n ∈ ascending nodes ↔ n ∈ nodes :=
  (List.perm_insertionSort _ nodes).mem_iff

def SnapshotMetadata.new (id : SnapshotId) (lastIncludedIndex : Nat)
    (lastIncludedTerm : Nat) (members : List NodeId) (size : Nat) (digest : SnapshotDigest) :
    Except InitError SnapshotMetadata :=
  if hi : lastIncludedIndex = 0 then
    .error (.invalidSnapshotMetadata "last included index must be greater than zero")
  else if ht : lastIncludedTerm = 0 then
    .error (.invalidSnapshotMetadata "last included term must be greater than zero")
  else if hm : members = [] then
    .error (.invalidSnapshotMetadata "snapshot membership must not be empty")
  else if hd : firstDuplicate [] members = none then
    .ok {
      id := id
      index := lastIncludedIndex
      term := lastIncludedTerm
      members := ascending members
      size := size
      digest := digest
      index_pos := Nat.pos_of_ne_zero hi
      term_pos := Nat.pos_of_ne_zero ht
      members_ne := by
        obtain ⟨n, hn⟩ := List.exists_mem_of_ne_nil members hm
        exact List.ne_nil_of_mem (mem_ascending.mpr hn)
      members_sorted := ascending_sorted (firstDuplicate_eq_none hd).1 }
  else .error (.invalidSnapshotMetadata "snapshot membership contains a duplicate node")

structure ConfigBuilder where
  clusterId : ClusterId := 0
  localId : NodeId
  members : List NodeId
  heartbeatTicks : Nat := 1
  electionTicks : Nat × Nat := (10, 20)
  checkQuorumTicks : Nat := 10
  generation : Nat := 0
  maxUnstableBytes : Nat := 4 * 1024 * 1024
  maxUnappliedEntries : Nat := 16384
  snapshotAfterEntries : Nat := 10000
  snapshotAfterBytes : Nat := 64 * 1024 * 1024
  maxUncompactedBytes : Nat := 256 * 1024 * 1024
  maxEntriesPerRpc : Nat := 256
  maxBytesPerRpc : Nat := 1024 * 1024
  maxInflightAppends : Nat := 256
  maxPendingReads : Nat := 4096
  snapshotChunkBytes : Nat := 64 * 1024
  maxSnapshotRefBytes : Nat := 4 * 1024
  maxMembers : Nat := 1024
  completionHistory : Nat := 8192

namespace ConfigBuilder

def capacityLimits (b : ConfigBuilder) : List (String × Nat) :=
  [("max_unstable_bytes", b.maxUnstableBytes),
   ("max_unapplied_entries", b.maxUnappliedEntries),
   ("snapshot_after_entries", b.snapshotAfterEntries),
   ("snapshot_after_bytes", b.snapshotAfterBytes),
   ("max_uncompacted_bytes", b.maxUncompactedBytes),
   ("max_entries_per_rpc", b.maxEntriesPerRpc),
   ("max_bytes_per_rpc", b.maxBytesPerRpc),
   ("max_inflight_appends", b.maxInflightAppends),
   ("max_pending_reads", b.maxPendingReads),
   ("snapshot_chunk_bytes", b.snapshotChunkBytes),
   ("max_snapshot_ref_bytes", b.maxSnapshotRefBytes),
   ("max_members", b.maxMembers),
   ("completion_history", b.completionHistory)]

def ensureAtLeast (limit : String) (value : Nat) (requiredAtLeast : String) (minimum : Nat) :
    Except InitError Unit :=
  if value < minimum then
    .error (.invalidCapacityRelationship limit value requiredAtLeast minimum)
  else .ok ()

/-- The checks of `build` that do not shape the resulting `Config`. -/
def validateTiming (b : ConfigBuilder) : Except InitError Unit :=
  if b.electionTicks.1 = 0 ∨ b.electionTicks.2 ≤ b.electionTicks.1 then
    .error (.invalidElectionRange b.electionTicks.1 b.electionTicks.2)
  else if b.heartbeatTicks = 0 ∨ b.electionTicks.1 ≤ b.heartbeatTicks then
    .error (.invalidHeartbeatTicks b.heartbeatTicks b.electionTicks.1)
  else if b.checkQuorumTicks < b.electionTicks.1 then
    .error (.invalidCheckQuorumTicks b.checkQuorumTicks b.electionTicks.1)
  else .ok ()

def zeroLimit (b : ConfigBuilder) : Option (String × Nat) :=
  b.capacityLimits.find? (fun limit => limit.2 == 0)

theorem limit_pos {b : ConfigBuilder} (h : b.zeroLimit = none) {n : String} {v : Nat}
    (hm : (n, v) ∈ b.capacityLimits) : 0 < v := by
  have := List.find?_eq_none.mp h (n, v) hm
  simpa [Nat.pos_iff_ne_zero] using this

def build (b : ConfigBuilder) : Except InitError Config :=
  if b.members = [] then .error .emptyMembership
  else match hz : b.zeroLimit with
    | some limit => .error (.zeroCapacityLimit limit.1)
    | none => do
      ensureAtLeast "max_uncompacted_bytes" b.maxUncompactedBytes
        "snapshot_after_bytes" b.snapshotAfterBytes
      ensureAtLeast "max_unstable_bytes" b.maxUnstableBytes
        "max_bytes_per_rpc" b.maxBytesPerRpc
      if b.maxMembers < b.members.length then
        .error (.tooManyMembers b.members.length b.maxMembers)
      else match hd : firstDuplicate [] b.members with
        | some node => .error (.duplicateMember node)
        | none =>
          if hl : b.localId ∈ b.members then do
            b.validateTiming
            .ok {
              clusterId := b.clusterId
              localId := b.localId
              members := ascending b.members
              quorum := (ascending b.members).length / 2 + 1
              generation := b.generation
              snapshotAfterEntries := b.snapshotAfterEntries
              maxEntriesPerRpc := b.maxEntriesPerRpc
              maxBytesPerRpc := b.maxBytesPerRpc
              maxInflightAppends := b.maxInflightAppends
              maxPendingReads := b.maxPendingReads
              snapshotChunkBytes := b.snapshotChunkBytes
              completionHistory := b.completionHistory
              members_sorted := ascending_sorted (firstDuplicate_eq_none hd).1
              local_mem := mem_ascending.mpr hl
              quorum_eq := rfl
              snapshotAfterEntries_pos := limit_pos hz (n := "snapshot_after_entries")
                (by simp [capacityLimits])
              maxEntriesPerRpc_pos := limit_pos hz (n := "max_entries_per_rpc")
                (by simp [capacityLimits])
              maxBytesPerRpc_pos := limit_pos hz (n := "max_bytes_per_rpc")
                (by simp [capacityLimits])
              maxInflightAppends_pos := limit_pos hz (n := "max_inflight_appends")
                (by simp [capacityLimits])
              maxPendingReads_pos := limit_pos hz (n := "max_pending_reads")
                (by simp [capacityLimits])
              snapshotChunkBytes_pos := limit_pos hz (n := "snapshot_chunk_bytes")
                (by simp [capacityLimits])
              completionHistory_pos := limit_pos hz (n := "completion_history")
                (by simp [capacityLimits]) }
          else .error (.localNodeNotMember b.localId)

end ConfigBuilder

inductive RecoveryError where
  | unsupportedFormat (found supported : Nat)
  | logGap (expected actual : Nat)
  | commitBeforeSnapshot (commit snapshot : Nat)
  | commitPastLog (commit last : Nat)
  | termRegression (index : Nat) (previous actual : Nat)
  | currentTermBehindLog (current observed : Nat)
  | votedForNonMember (node : NodeId)
  | indexOverflow (at_ : Nat)
  deriving DecidableEq, Repr

namespace RecoveredState

variable {C : Type}

def formatVersion : Nat := 1

/-- The loop of `from_parts`: the suffix must continue at `expected` with terms that
do not regress below `previousTerm`. Returns the last observed term. -/
def checkSuffix (expected : Nat) (previousTerm : Nat) :
    List (Entry C) → Except RecoveryError Nat
  | [] => .ok previousTerm
  | e :: rest =>
    if e.index ≠ expected then .error (.logGap expected e.index)
    else if e.term < previousTerm then .error (.termRegression e.index previousTerm e.term)
    else match checkedNext expected with
      | .ok next => checkSuffix next e.term rest
      | .error _ => .error (.indexOverflow e.index)

def check (format : Nat) (hardState : HardState) (snapshot : Option SnapshotRecord)
    (entries : List (Entry C)) : Except RecoveryError Unit :=
  let snapshotIndex := snapshot.elim 0 (·.metadata.index)
  let snapshotTerm := snapshot.elim 0 (·.metadata.term)
  let strangeVote := match snapshot, hardState.votedFor with
    | some record, some node => if node ∈ record.metadata.members then none else some node
    | _, _ => none
  if format ≠ formatVersion then .error (.unsupportedFormat format formatVersion)
  else if hardState.commitIndex < snapshotIndex then
    .error (.commitBeforeSnapshot hardState.commitIndex snapshotIndex)
  else match strangeVote with
    | some node => .error (.votedForNonMember node)
    | none =>
      match checkedNext snapshotIndex with
      | .error _ => .error (.indexOverflow snapshotIndex)
      | .ok expected => do
        let observed ← checkSuffix expected snapshotTerm entries
        let lastIndex := entries.getLast?.elim snapshotIndex (·.index)
        if hardState.currentTerm < observed then
          .error (.currentTermBehindLog hardState.currentTerm observed)
        else if lastIndex < hardState.commitIndex then
          .error (.commitPastLog hardState.commitIndex lastIndex)
        else .ok ()

end RecoveredState

/-- Durable input that passed `from_parts`. -/
structure RecoveredState (C : Type) where
  hardState : HardState
  snapshot : Option SnapshotRecord
  entries : List (Entry C)
  format : Nat
  accepted : RecoveredState.check format hardState snapshot entries = .ok ()

namespace RecoveredState

variable {C : Type}

def fromParts (format : Nat) (hardState : HardState) (snapshot : Option SnapshotRecord)
    (entries : List (Entry C)) : Except RecoveryError (RecoveredState C) :=
  match h : check format hardState snapshot entries with
  | .ok () => .ok ⟨hardState, snapshot, entries, format, h⟩
  | .error e => .error e

def new (hardState : HardState) (snapshot : Option SnapshotRecord) (entries : List (Entry C)) :
    Except RecoveryError (RecoveredState C) :=
  fromParts formatVersion hardState snapshot entries

/-- The state of a node that has never persisted anything. -/
def initial : RecoveredState C := ⟨⟨0, none, 0⟩, none, [], formatVersion, rfl⟩

end RecoveredState

end Ruft
