import Mathlib.Data.Finset.Card
import Mathlib.Data.List.Sort
import Ruft.Lib.BTreeMap
import Ruft.Log

set_option autoImplicit false

/-!
# Replication progress, vote accounting and the commit rule

`progress/mod.rs`, `progress/inflights.rs`, `progress/quorum.rs` and the pure
decision functions of `raft/`: the commit rule, the log comparison of elections
and the prefix check of AppendEntries.
-/

namespace Ruft

structure Inflights where
  capacity : Nat
  indexes : List Nat
  deriving DecidableEq, Repr

/-- The most indexes that a queue can be created for: `VecDeque::with_capacity` takes eight bytes
for each and panics when they are more than `isize::MAX`. -/
def maxCapacity : Nat := (2 ^ 63 - 1) / 8

namespace Inflights

variable {ε : Type}

def new (capacity : Nat) : Outcome ε Inflights :=
  if maxCapacity < capacity then .panic else .ok ⟨capacity, []⟩

def isFull (w : Inflights) : Bool := w.capacity ≤ w.indexes.length

/-- Records a request end index; a full window drops it. -/
def push (w : Inflights) (index : Nat) : Inflights :=
  if w.isFull then w else { w with indexes := w.indexes ++ [index] }

def freeThrough (w : Inflights) (index : Nat) : Inflights :=
  { w with indexes := w.indexes.dropWhile (fun front => front ≤ index) }

def clear (w : Inflights) : Inflights := { w with indexes := [] }

def len (w : Inflights) : Nat := w.indexes.length

end Inflights

inductive ProgressState where
  | probe
  | replicate
  | snapshot
  deriving DecidableEq, Repr

structure Progress where
  matchIndex : Nat
  nextIndex : Nat
  state : ProgressState
  inflights : Inflights
  recentlyActive : Bool
  deriving DecidableEq, Repr

namespace Progress

variable {ε : Type}

/-- The record of a follower that nothing was sent to. -/
def fresh (nextIndex : Nat) (maxInflight : Nat) : Progress :=
  ⟨0, nextIndex, .probe, ⟨maxInflight, []⟩, false⟩

def new (nextIndex : Nat) (maxInflight : Nat) : Outcome ε Progress := do
  let inflights ← Inflights.new maxInflight
  .ok ⟨0, nextIndex, .probe, inflights, false⟩

theorem new_eq_ok {nextIndex maxInflight : Nat} (fits : maxInflight ≤ maxCapacity) :
    (new nextIndex maxInflight : Outcome ε Progress) = .ok (fresh nextIndex maxInflight) := by
  rw [new, Inflights.new, if_neg (Nat.not_lt.mpr fits)]
  rfl

theorem new_panics {nextIndex maxInflight : Nat} (large : maxCapacity < maxInflight) :
    (new nextIndex maxInflight : Outcome ε Progress) = .panic := by
  rw [new, Inflights.new, if_pos large]
  rfl

def canSend (p : Progress) : Bool :=
  match p.state with
  | .probe => p.inflights.len = 0
  | .replicate => !p.inflights.isFull
  | .snapshot => false

def sent (p : Progress) (endIndex : Nat) : Outcome ε Progress :=
  let pushed := { p with inflights := p.inflights.push endIndex }
  if p.state = .replicate then do
    let next ← expectNext endIndex
    .ok { pushed with nextIndex := next }
  else .ok pushed

/-- A stale acknowledgement only marks the follower active and returns `false`. -/
def acknowledged (p : Progress) (index : Nat) : Outcome ε (Progress × Bool) :=
  let active := { p with recentlyActive := true }
  if index < p.matchIndex then .ok (active, false)
  else do
    let next ← expectNext index
    .ok ({ active with
      matchIndex := index
      nextIndex := if p.nextIndex < next then next else p.nextIndex
      inflights := p.inflights.freeThrough index
      state := if p.state = .probe then .replicate else p.state }, true)

/-- A stale rejection only marks the follower active and returns `false`. -/
def reject (p : Progress) (rejected nextIndex : Nat) : Outcome ε (Progress × Bool) :=
  let active := { p with recentlyActive := true }
  let stale := match checkedNext rejected with
    | .ok next => decide (next < p.nextIndex)
    | .error _ => false
  if stale then .ok (active, false)
  else do
    let floor ← expectNext p.matchIndex
    .ok ({ active with
      state := .probe
      inflights := p.inflights.clear
      nextIndex := max nextIndex floor }, true)

def resetActivity (p : Progress) : Progress := { p with recentlyActive := false }

def enterSnapshot (p : Progress) : Progress :=
  { p with state := .snapshot, inflights := p.inflights.clear }

def restoreProbe (p : Progress) (nextIndex : Nat) : Progress :=
  { p with state := .probe, nextIndex := nextIndex, inflights := p.inflights.clear }

end Progress

/-- Distinct grants and rejections of one election or read round. -/
structure QuorumTracker where
  members : Finset NodeId
  granted : Finset NodeId
  rejected : Finset NodeId
  deriving DecidableEq

namespace QuorumTracker

def withLocalVote (members : List NodeId) (localId : NodeId) : QuorumTracker :=
  ⟨members.toFinset, {localId}, ∅⟩

/-- The first response of a member is final; others and non-members are ignored. -/
def record (q : QuorumTracker) (node : NodeId) (granted : Bool) : QuorumTracker :=
  if node ∉ q.members ∨ node ∈ q.granted ∨ node ∈ q.rejected then q
  else if granted then { q with granted := insert node q.granted }
  else { q with rejected := insert node q.rejected }

def quorum (q : QuorumTracker) : Nat := q.members.card / 2 + 1

def hasQuorum (q : QuorumTracker) : Bool := q.quorum ≤ q.granted.card

def cannotWin (q : QuorumTracker) : Bool := q.members.card - q.rejected.card < q.quorum

end QuorumTracker

/-- `raft/commit.rs`: the newly committable index, if a current-term majority has one. -/
def quorumCommit {C : Type} (log : RaftLog C) (progress : BTreeMap NodeId Progress)
    (quorum : Nat) (currentTerm : Nat) : Outcome LogError (Option Nat) := do
  let matched :=
    (progress.values.map (·.matchIndex) ++ [log.lastIndex]).insertionSort (· ≤ ·)
  let position ← Outcome.sub matched.length quorum
  let candidate ← Outcome.index matched position
  if log.committed < candidate then do
    let t ← log.term candidate
    .ok (if t = currentTerm then some candidate else none)
  else .ok none

/-- `raft/election.rs`: lexicographic comparison of `(last_term, last_index)`. -/
def isLogUpToDate (candidateIndex : Nat) (candidateTerm : Nat) (localIndex : Nat)
    (localTerm : Nat) : Bool :=
  localTerm < candidateTerm ∨ (candidateTerm = localTerm ∧ localIndex ≤ candidateIndex)

structure ConflictHint where
  index : Nat
  term : Option Nat
  deriving DecidableEq, Repr

inductive PrefixDecision where
  | match_
  | reject (hint : ConflictHint)
  deriving DecidableEq, Repr

def validatePrefix {C : Type} (log : RaftLog C) (prevLogIndex : Nat) (prevLogTerm : Nat) :
    Outcome LogError PrefixDecision :=
  match log.term prevLogIndex with
  | .ok t =>
    if t = prevLogTerm then .ok .match_
    else .ok (.reject ⟨(log.firstIndexOfTerm t).getD prevLogIndex, some t⟩)
  | .error (.raise (.compacted _ _)) => do
    let first ← log.firstIndex
    .ok (.reject ⟨first, none⟩)
  | .error (.raise (.unavailable _ _)) => do
    let next ← checkedNextOr log.lastIndex (LogError.indexOverflow log.lastIndex)
    .ok (.reject ⟨next, none⟩)
  | .error e => .error e

def rejectedNext {C : Type} (log : RaftLog C) (hint : ConflictHint) : Outcome LogError Nat :=
  match hint.term.bind log.lastIndexOfTerm with
  | some index => checkedNextOr index (LogError.indexOverflow index)
  | none => .ok hint.index

end Ruft
