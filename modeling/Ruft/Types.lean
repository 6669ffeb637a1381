import Mathlib.Algebra.GroupWithZero.Nat
import Mathlib.Order.RelClasses
import Mathlib.Data.Nat.Basic
import Ruft.Lib.Program

set_option autoImplicit false

/-!
# Identifiers, log entries and durable records

The value types of `types.rs`, `log/entry.rs`, `error.rs` and the records of
`state.rs`. Terms, log indexes and the other `u64` values are natural numbers; every increment of the source
is checked, and `checkedNext` is that check. `usize` is 64 bits wide, so the
conversions of the source between `u64` and `usize` never fail.
-/

namespace Ruft

abbrev ClusterId := Nat
abbrev NodeId := Nat
abbrev ProposalId := Nat
abbrev ReadId := Nat
abbrev SnapshotId := Nat
abbrev Bytes := List UInt8

def u64Max : Nat := 18446744073709551615

inductive ArithmeticError where
  | overflow
  deriving DecidableEq, Repr

/-- `Term::checked_next`, `LogIndex::checked_next` and `u64::checked_add(1)`. -/
def checkedNext (n : Nat) : Except ArithmeticError Nat :=
  if n < u64Max then .ok (n + 1) else .error .overflow

/-- `checked_next().map_err(|_| e)`. -/
def checkedNextOr {ε : Type} (n : Nat) (e : ε) : Outcome ε Nat :=
  match checkedNext n with
  | .ok m => .ok m
  | .error _ => Outcome.raise e

/-- `checked_next().expect(..)`. -/
def expectNext {ε : Type} (n : Nat) : Outcome ε Nat :=
  match checkedNext n with
  | .ok m => .ok m
  | .error _ => Outcome.panic

theorem checkedNext_eq_ok {n m : Nat} : checkedNext n = .ok m ↔ n < u64Max ∧ m = n + 1 := by
  unfold checkedNext
  split <;> simp_all [eq_comm]

theorem expectNext_eq_ok {ε : Type} {n : Nat} (h : n < u64Max) :
    (expectNext n : Outcome ε Nat) = .ok (n + 1) := by
  simp [expectNext, checkedNext, h]

theorem checkedNextOr_eq_ok {ε : Type} {n : Nat} (e : ε) (h : n < u64Max) :
    checkedNextOr n e = .ok (n + 1) := by
  simp [checkedNextOr, checkedNext, h]

structure EffectId where
  generation : Nat
  sequence : Nat
  deriving DecidableEq, Repr

namespace EffectId

/-- The derived order: generation first, then sequence. -/
instance : LT EffectId where
  lt a b := a.generation < b.generation ∨ (a.generation = b.generation ∧ a.sequence < b.sequence)

instance : DecidableLT EffectId := fun _ _ =>
  inferInstanceAs (Decidable (_ ∨ (_ ∧ _)))

theorem lt_def {a b : EffectId} : a < b ↔
    a.generation < b.generation ∨ (a.generation = b.generation ∧ a.sequence < b.sequence) :=
  Iff.rfl

instance : IsStrictTotalOrder EffectId (· < ·) where
  trichotomous := by
    intro a b hab hba
    cases a; cases b
    simp only [lt_def, EffectId.mk.injEq] at *
    omega
  irrefl := by intro a h; rw [lt_def] at h; omega
  trans := by intro a b c h h'; rw [lt_def] at *; omega

end EffectId

structure SnapshotRef where
  bytes : Bytes
  deriving DecidableEq, Repr

/-- The 32 bytes of a SHA-256 digest. -/
structure SnapshotDigest where
  bytes : Bytes
  deriving DecidableEq, Repr

inductive InitError where
  | emptyMembership
  | duplicateMember (node : NodeId)
  | localNodeNotMember (node : NodeId)
  | tooManyMembers (actual maximum : Nat)
  | invalidElectionRange (min max : Nat)
  | invalidHeartbeatTicks (heartbeat electionMin : Nat)
  | invalidCheckQuorumTicks (checkQuorum electionMin : Nat)
  | zeroCapacityLimit (name : String)
  | invalidCapacityRelationship (limit : String) (value : Nat) (requiredAtLeast : String)
      (minimum : Nat)
  | invalidSnapshotMetadata (reason : String)
  deriving DecidableEq, Repr

/-- Protocol metadata of a snapshot body. The fields after `digest` are what
`SnapshotMetadata::new` checks, and its fields are private. -/
structure SnapshotMetadata where
  id : SnapshotId
  index : Nat
  term : Nat
  members : List NodeId
  size : Nat
  digest : SnapshotDigest
  index_pos : 0 < index
  term_pos : 0 < term
  members_ne : members ≠ []
  members_sorted : members.Pairwise (· < ·)
  deriving DecidableEq

structure SnapshotRecord where
  metadata : SnapshotMetadata
  snapshotRef : SnapshotRef
  deriving DecidableEq

structure HardState where
  currentTerm : Nat
  votedFor : Option NodeId
  commitIndex : Nat
  deriving DecidableEq, Repr

inductive EntryPayload (C : Type) where
  | command (c : C)
  | leaderNoop
  deriving DecidableEq, Repr

/-- A log entry. Its constructors reject index zero and term zero. -/
structure Entry (C : Type) where
  index : Nat
  term : Nat
  encodedLen : Nat
  payload : EntryPayload C
  index_pos : 0 < index
  term_pos : 0 < term
  deriving DecidableEq

inductive EntryError where
  | zeroLogIndex
  | zeroTerm
  | zeroEncodedLength
  deriving DecidableEq, Repr

namespace Entry

variable {C : Type}

def command (index : Nat) (term : Nat) (c : C) (encodedLen : Nat) :
    Except EntryError (Entry C) :=
  if hi : 0 < index then
    if ht : 0 < term then
      if encodedLen = 0 then .error .zeroEncodedLength
      else .ok ⟨index, term, encodedLen, .command c, hi, ht⟩
    else .error .zeroTerm
  else .error .zeroLogIndex

def leaderNoop (index : Nat) (term : Nat) : Except EntryError (Entry C) :=
  if hi : 0 < index then
    if ht : 0 < term then .ok ⟨index, term, 0, .leaderNoop, hi, ht⟩
    else .error .zeroTerm
  else .error .zeroLogIndex

end Entry

inductive LogError where
  | compacted (index snapshotIndex : Nat)
  | unavailable (index last : Nat)
  | invalidRange (first last : Nat)
  | nonContiguousEntries (expected actual : Nat)
  | termRegression (index : Nat) (previous actual : Nat)
  | snapshotBoundaryMismatch (index : Nat) (expected actual : Nat)
  | wouldTruncateCommitted (from_ committed : Nat)
  | stablePastLog (stable last : Nat)
  | compactPastCommit (through committed : Nat)
  | indexOverflow (at_ : Nat)
  deriving DecidableEq, Repr

inductive InvariantViolation where
  | appliedPastCommit
  | commitPastLog
  | committedGap
  | commitIndexMismatch
  | lastLogMismatch
  | indexOverflow
  | log (error : LogError)
  deriving DecidableEq, Repr

inductive FatalError where
  | storage
  | stateMachine
  | invariant (violation : InvariantViolation)
  deriving DecidableEq, Repr

inductive StoppedReason where
  | shutdown
  | fatal (error : FatalError)
  deriving DecidableEq, Repr

/-- The settings the core reads. The timing and byte limits that only the host
reads are left out. -/
structure Config where
  clusterId : ClusterId
  localId : NodeId
  members : List NodeId
  quorum : Nat
  generation : Nat
  snapshotAfterEntries : Nat
  maxEntriesPerRpc : Nat
  maxBytesPerRpc : Nat
  maxInflightAppends : Nat
  maxPendingReads : Nat
  snapshotChunkBytes : Nat
  completionHistory : Nat
  members_sorted : members.Pairwise (· < ·)
  local_mem : localId ∈ members
  quorum_eq : quorum = members.length / 2 + 1
  snapshotAfterEntries_pos : 0 < snapshotAfterEntries
  maxEntriesPerRpc_pos : 0 < maxEntriesPerRpc
  maxBytesPerRpc_pos : 0 < maxBytesPerRpc
  maxInflightAppends_pos : 0 < maxInflightAppends
  maxPendingReads_pos : 0 < maxPendingReads
  snapshotChunkBytes_pos : 0 < snapshotChunkBytes
  completionHistory_pos : 0 < completionHistory
  deriving DecidableEq

end Ruft
