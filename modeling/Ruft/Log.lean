import Mathlib.Data.List.Basic
import Ruft.Config

set_option autoImplicit false

/-!
# The logical log

`log/mod.rs` and `log/unstable.rs`: the suffix of entries above a compacted
snapshot boundary, the commit point and the window of entries not yet confirmed
durable. Every operation is total; an operation that returns a `Result` in the
source, indexes a slice, subtracts or calls `expect` is an `Outcome`.
-/

namespace Ruft

/-- The range of entries that have not yet been confirmed durable. -/
structure Unstable where
  from_ : Option Nat := none
  through : Option Nat := none
  deriving DecidableEq, Repr

namespace Unstable

def markRange (u : Unstable) (from_ through : Nat) : Unstable :=
  ⟨some (u.from_.elim from_ (fun current => min current from_)),
    some (u.through.elim through (fun current => max current through))⟩

/-- `from.get() - 1` is only evaluated when `from` lies above the window's start. -/
def truncateFrom (u : Unstable) (from_ : Nat) : Unstable :=
  match u.from_, u.through with
  | some first, some last =>
    if from_ ≤ first then ⟨none, none⟩
    else if from_ ≤ last then { u with through := some (from_ - 1) }
    else u
  | _, _ => u

def markStableThrough (u : Unstable) (index : Nat) : Unstable :=
  match u.from_, u.through with
  | some from_, some through =>
    if index < from_ then u
    else if through ≤ index then ⟨none, none⟩
    else { u with from_ := (checkedNext index).toOption }
  | _, _ => u

def discardThrough (u : Unstable) (index : Nat) : Unstable := u.markStableThrough index

end Unstable

structure RaftLog (C : Type) where
  snapshot : Option SnapshotRecord
  entries : List (Entry C)
  committed : Nat
  unstable : Unstable
  deriving DecidableEq

namespace RaftLog

variable {C : Type}

def fromRecovered (r : RecoveredState C) : RaftLog C :=
  ⟨r.snapshot, r.entries, r.hardState.commitIndex, {}⟩

/-- The first index still held as an entry; the successor of the snapshot index is an `expect`. -/
def firstIndex (log : RaftLog C) : Outcome LogError Nat :=
  match log.snapshot with
  | none => .ok 1
  | some record => expectNext record.metadata.index

def snapshotIndex (log : RaftLog C) : Nat := log.snapshot.elim 0 (·.metadata.index)

def lastIndex (log : RaftLog C) : Nat :=
  log.entries.getLast?.elim log.snapshotIndex (·.index)

def commitTo (log : RaftLog C) (index : Nat) : Outcome LogError (RaftLog C) :=
  if log.lastIndex < index then Outcome.raise (.unavailable index log.lastIndex)
  else if log.committed < index then .ok { log with committed := index }
  else .ok log

def lastIndexOfTerm (log : RaftLog C) (term : Nat) : Option Nat :=
  ((log.entries.reverse.find? (·.term == term)).map (·.index)).or
    (log.snapshot.bind fun record =>
      if record.metadata.term = term then some record.metadata.index else none)

def firstIndexOfTerm (log : RaftLog C) (term : Nat) : Option Nat :=
  match log.snapshot with
  | some record =>
    if record.metadata.term = term then some record.metadata.index
    else (log.entries.find? (·.term == term)).map (·.index)
  | none => (log.entries.find? (·.term == term)).map (·.index)

def entryAt (log : RaftLog C) (index : Nat) : Outcome LogError (Option (Entry C)) := do
  let first ← log.firstIndex
  if index < first then .ok none else .ok log.entries[index - first]?

def term (log : RaftLog C) (index : Nat) : Outcome LogError Nat :=
  let inSuffix : Outcome LogError Nat := do
    match ← log.entryAt index with
    | some entry => .ok entry.term
    | none => Outcome.raise (.unavailable index log.lastIndex)
  match log.snapshot with
  | none => if index = 0 then .ok 0 else inSuffix
  | some record =>
    if index < record.metadata.index then Outcome.raise (.compacted index record.metadata.index)
    else if index = record.metadata.index then .ok record.metadata.term
    else inSuffix

/-- `entries(start..=end)`. -/
def range (log : RaftLog C) (start last : Nat) : Outcome LogError (List (Entry C)) :=
  if last < start then Outcome.raise (.invalidRange start last)
  else do
    let first ← log.firstIndex
    if start < first then Outcome.raise (.compacted start log.snapshotIndex)
    else if log.lastIndex < last then Outcome.raise (.unavailable last log.lastIndex)
    else do
      let startOffset ← Outcome.sub start first
      let endOffset ← Outcome.sub last first
      Outcome.slice log.entries startOffset endOffset

def termBefore (log : RaftLog C) (first : Nat) : Outcome LogError Nat :=
  if first = 1 ∧ log.snapshot = none then .ok 0
  else do
    let previous ← Outcome.sub first 1
    log.term previous

/-- The loop of `validate_continuity`. -/
def checkContinuity (expected : Nat) (previousTerm : Nat) :
    List (Entry C) → Outcome LogError Unit
  | [] => .ok ()
  | e :: rest =>
    if e.index ≠ expected then Outcome.raise (.nonContiguousEntries expected e.index)
    else if e.term < previousTerm then
      Outcome.raise (.termRegression e.index previousTerm e.term)
    else do
      let next ← checkedNextOr expected (LogError.indexOverflow e.index)
      checkContinuity next e.term rest

def validateContinuity (log : RaftLog C) (entries : List (Entry C)) (expectedFirst : Nat) :
    Outcome LogError Unit := do
  let previousTerm ← log.termBefore expectedFirst
  checkContinuity expectedFirst previousTerm entries

def append (log : RaftLog C) (entries : List (Entry C)) : Outcome LogError (RaftLog C) :=
  match entries with
  | [] => .ok log
  | firstNew :: _ => do
    let expected ← checkedNextOr log.lastIndex (LogError.indexOverflow log.lastIndex)
    log.validateContinuity entries expected
    let lastNew ← Outcome.expect entries.getLast?
    .ok { log with
      entries := log.entries ++ entries
      unstable := log.unstable.markRange firstNew.index lastNew.index }

/-- The comparison loop of `replace_conflict`: the offset of the first incoming entry
that the local log does not hold with the same term. -/
def firstConflict (log : RaftLog C) (offset : Nat) :
    List (Entry C) → Outcome LogError (Option Nat)
  | [] => .ok none
  | e :: rest =>
    let inSuffix : Outcome LogError (Option Nat) := do
      match ← log.entryAt e.index with
      | some existing =>
        if existing.term = e.term then log.firstConflict (offset + 1) rest
        else .ok (some offset)
      | none =>
        let expected ← checkedNextOr log.lastIndex (LogError.indexOverflow log.lastIndex)
        if e.index ≠ expected then Outcome.raise (.nonContiguousEntries expected e.index)
        else .ok (some offset)
    match log.snapshot with
    | none => inSuffix
    | some record =>
      if e.index < record.metadata.index then
        Outcome.raise (.compacted e.index record.metadata.index)
      else if e.index = record.metadata.index then
        if e.term ≠ record.metadata.term then
          Outcome.raise (.snapshotBoundaryMismatch e.index record.metadata.term e.term)
        else log.firstConflict (offset + 1) rest
      else inSuffix

def replaceConflict (log : RaftLog C) (incoming : List (Entry C)) :
    Outcome LogError (RaftLog C) :=
  match incoming with
  | [] => .ok log
  | head :: _ => do
    let expectedAfterLast ← checkedNextOr log.lastIndex (LogError.indexOverflow log.lastIndex)
    if expectedAfterLast < head.index then
      Outcome.raise (.nonContiguousEntries expectedAfterLast head.index)
    else do
      log.validateContinuity incoming head.index
      match ← log.firstConflict 0 incoming with
      | none => .ok log
      | some offset =>
        let conflict ← Outcome.index incoming offset
        if conflict.index ≤ log.committed then
          Outcome.raise (.wouldTruncateCommitted conflict.index log.committed)
        else do
          let first ← log.firstIndex
          let truncateOffset ← Outcome.sub conflict.index first
          let lastNew ← Outcome.expect incoming.getLast?
          .ok { log with
            entries := log.entries.take truncateOffset ++ incoming.drop offset
            unstable := (log.unstable.truncateFrom conflict.index).markRange
              conflict.index lastNew.index }

/-- Whether an incoming entry disagrees with the local log or lies outside it. -/
def differs (log : RaftLog C) (e : Entry C) : Outcome LogError Bool :=
  match log.term e.index with
  | .ok t => .ok (t ≠ e.term)
  | .error (.raise _) => .ok true
  | .error .panic => .error .panic

/-- `incoming.iter().position(..)`. -/
def firstChange (log : RaftLog C) (offset : Nat) : List (Entry C) → Outcome LogError (Option Nat)
  | [] => .ok none
  | e :: rest => do
    if ← log.differs e then .ok (some offset) else log.firstChange (offset + 1) rest

/-- Merges a leader suffix; also returns the entries that need durability. -/
def mergeFromLeader (log : RaftLog C) (incoming : List (Entry C)) :
    Outcome LogError (RaftLog C × List (Entry C)) := do
  match ← log.firstChange 0 incoming with
  | none => .ok (log, [])
  | some offset => do
    let newEntries := incoming.drop offset
    let merged ← log.replaceConflict newEntries
    .ok (merged, newEntries)

def unstableFrom (log : RaftLog C) : Option Nat := log.unstable.from_

def markStable (log : RaftLog C) (index : Nat) : Outcome LogError (RaftLog C) :=
  if log.lastIndex < index then Outcome.raise (.stablePastLog index log.lastIndex)
  else .ok { log with unstable := log.unstable.markStableThrough index }

def validate (log : RaftLog C) : Outcome InvariantViolation Unit :=
  match (do log.validateContinuity log.entries (← log.firstIndex) : Outcome LogError Unit) with
  | .ok () => .ok ()
  | .error e => .error (e.map .log)

def installSnapshot (log : RaftLog C) (snapshot : SnapshotRecord) :
    Outcome LogError (RaftLog C) := do
  let through := snapshot.metadata.index
  let entries ← match log.term through with
    | .error .panic => Outcome.panic
    | .error (.raise _) => .ok []
    | .ok t =>
      if t = snapshot.metadata.term then do
        let first ← log.firstIndex
        .ok (log.entries.drop (min (min (through + 1) u64Max - first) log.entries.length))
      else .ok []
  .ok { log with
    entries := entries
    -- what is above the boundary stays tracked, whatever became of its entries
    unstable := log.unstable.discardThrough through
    snapshot := some snapshot
    committed := max log.committed through }

def compact (log : RaftLog C) (snapshot : SnapshotRecord) : Outcome LogError (RaftLog C) :=
  let through := snapshot.metadata.index
  if log.committed < through then Outcome.raise (.compactPastCommit through log.committed)
  else do
    let t ← log.term through
    if t ≠ snapshot.metadata.term then
      Outcome.raise (.snapshotBoundaryMismatch through t snapshot.metadata.term)
    else do
      let retainedFrom ← checkedNextOr through (LogError.indexOverflow through)
      let first ← log.firstIndex
      let drained := if first < retainedFrom then min (retainedFrom - first) log.entries.length else 0
      .ok { log with
        entries := log.entries.drop drained
        snapshot := some snapshot
        unstable := log.unstable.discardThrough through }

end RaftLog

end Ruft
