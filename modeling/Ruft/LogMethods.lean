import Ruft.LogFacts

set_option autoImplicit false

/-!
# The methods of the log that borrow it mutably

`Ruft.Log` gives each operation as a function from a log to a log. The source mutates
`self` in place, statement by statement, so a method that fails half way could leave a
half-written log behind. The methods are written here in the order of the source's
checks and writes, with its debug assertion and every subtraction, and each is shown to
do what the function of the same name says: it writes only after its last check.

## Main definitions

- `LogMethod` — a method that borrows the log mutably
- `LogMethod.after` — a log after a function of it: replaced on success, kept on failure

## Main results

- `LogMethod.append_run`, `LogMethod.replaceConflict_run`, `LogMethod.mergeFromLeader_run`,
  `LogMethod.compact_run`, `LogMethod.installSnapshot_run` — methods and functions agree
-/

namespace Ruft

variable {C α β : Type}

/-- A method of the log that borrows it mutably. -/
abbrev LogMethod (C α : Type) := Program (RaftLog C) LogError α

namespace LogMethod

/-- Reads the log; a failure is passed on with `?`. -/
def read (f : RaftLog C → Outcome LogError α) : LogMethod C α := fun log => (f log, log)

/-- `self.unstable.mark_range(..)`, with its debug assertion. -/
def markRange (from_ through : Nat) : LogMethod C Unit := do
  if from_ ≤ through then
    Program.modify fun log => { log with unstable := log.unstable.markRange from_ through }
  else Program.panic

/-- `self.unstable.truncate_from(..)`. -/
def truncateFrom (from_ : Nat) : LogMethod C Unit := do
  let log ← Program.get
  match log.unstable.from_, log.unstable.through with
  | some first, some last =>
    if from_ ≤ first then Program.modify fun log => { log with unstable := ⟨none, none⟩ }
    else if from_ ≤ last then do
      let previous ← read fun _ => Outcome.sub from_ 1
      Program.modify fun log =>
        { log with unstable := { log.unstable with through := some previous } }
    else pure ()
  | _, _ => pure ()

def append (entries : List (Entry C)) : LogMethod C Unit :=
  match entries with
  | [] => pure ()
  | firstNew :: _ => do
    let expected ← read fun log => checkedNextOr log.lastIndex (.indexOverflow log.lastIndex)
    read (·.validateContinuity entries expected)
    let lastNew ← Program.expect entries.getLast?
    Program.modify fun log => { log with entries := log.entries ++ entries }
    markRange firstNew.index lastNew.index

def replaceConflict (incoming : List (Entry C)) : LogMethod C Unit :=
  match incoming with
  | [] => pure ()
  | head :: _ => do
    let expectedAfterLast ← read fun log =>
      checkedNextOr log.lastIndex (.indexOverflow log.lastIndex)
    if expectedAfterLast < head.index then
      Program.raise (.nonContiguousEntries expectedAfterLast head.index)
    else do
      read (·.validateContinuity incoming head.index)
      match ← read (·.firstConflict 0 incoming) with
      | none => pure ()
      | some offset =>
        let conflict ← read fun _ => Outcome.index incoming offset
        let log ← Program.get
        if conflict.index ≤ log.committed then
          Program.raise (.wouldTruncateCommitted conflict.index log.committed)
        else do
          let first ← read (·.firstIndex)
          let truncateOffset ← read fun _ => Outcome.sub conflict.index first
          let lastNew ← Program.expect incoming.getLast?
          Program.modify fun log => { log with entries := log.entries.take truncateOffset }
          truncateFrom conflict.index
          Program.modify fun log => { log with entries := log.entries ++ incoming.drop offset }
          markRange conflict.index lastNew.index

def mergeFromLeader (incoming : List (Entry C)) : LogMethod C (List (Entry C)) := do
  match ← read (·.firstChange 0 incoming) with
  | none => pure []
  | some offset =>
    let newEntries := incoming.drop offset
    replaceConflict newEntries
    pure newEntries

def commitTo (index : Nat) : LogMethod C Unit := do
  let log ← Program.get
  if log.lastIndex < index then Program.raise (.unavailable index log.lastIndex)
  else if log.committed < index then Program.modify fun log => { log with committed := index }
  else pure ()

def markStable (index : Nat) : LogMethod C Unit := do
  let log ← Program.get
  if log.lastIndex < index then Program.raise (.stablePastLog index log.lastIndex)
  else Program.modify fun log => { log with unstable := log.unstable.markStableThrough index }

def installSnapshot (snapshot : SnapshotRecord) : LogMethod C Unit := do
  let through := snapshot.metadata.index
  let retainsSuffix ← read fun log => match log.term through with
    | .ok t => .ok (decide (t = snapshot.metadata.term))
    | .error (.raise _) => .ok false
    | .error .panic => Outcome.panic
  if retainsSuffix then do
    let first ← read (·.firstIndex)
    let drain := min (through + 1) u64Max - first
    Program.modify fun log =>
      { log with entries := log.entries.drop (min drain log.entries.length) }
  else Program.modify fun log => { log with entries := [] }
  Program.modify fun log => { log with unstable := log.unstable.discardThrough through }
  Program.modify fun log => { log with snapshot := some snapshot }
  Program.modify fun log =>
    if log.committed < through then { log with committed := through } else log

def compact (snapshot : SnapshotRecord) : LogMethod C Unit := do
  let through := snapshot.metadata.index
  let log ← Program.get
  if log.committed < through then Program.raise (.compactPastCommit through log.committed)
  else do
    let t ← read (·.term through)
    if t ≠ snapshot.metadata.term then
      Program.raise (.snapshotBoundaryMismatch through t snapshot.metadata.term)
    else do
      let retainedFrom ← read fun _ => checkedNextOr through (.indexOverflow through)
      let first ← read (·.firstIndex)
      if first < retainedFrom then do
        let drainTo ← read fun _ => Outcome.sub retainedFrom first
        Program.modify fun log =>
          { log with entries := log.entries.drop (min drainTo log.entries.length) }
      Program.modify fun log => { log with snapshot := some snapshot }
      Program.modify fun log => { log with unstable := log.unstable.discardThrough through }

/-! ## Methods and functions agree -/

/-- A log after a function of it: replaced on success, kept on failure. -/
def after (log : RaftLog C) : Outcome LogError (RaftLog C) → Outcome LogError Unit × RaftLog C
  | .ok log' => (.ok (), log')
  | .error e => (.error e, log)

/-- The same with a value that is returned. -/
def afterWith (log : RaftLog C) :
    Outcome LogError (RaftLog C × α) → Outcome LogError α × RaftLog C
  | .ok (log', a) => (.ok a, log')
  | .error e => (.error e, log)

@[simp] theorem bind_read_run (f : RaftLog C → Outcome LogError α) (g : α → LogMethod C β)
    (log : RaftLog C) : (read f >>= g) log =
      match f log with
      | .ok a => g a log
      | .error e => (.error e, log) := by
  cases h : f log <;> simp [read, bind, h]

@[simp] theorem after_bind (log : RaftLog C) (m : Outcome LogError α)
    (f : α → Outcome LogError (RaftLog C)) : after log (m >>= f) =
      match m with
      | .ok a => after log (f a)
      | .error e => (.error e, log) := by
  cases m <;> rfl

@[simp] theorem afterWith_bind (log : RaftLog C) (m : Outcome LogError α)
    (f : α → Outcome LogError (RaftLog C × β)) : afterWith log (m >>= f) =
      match m with
      | .ok a => afterWith log (f a)
      | .error e => (.error e, log) := by
  cases m <;> rfl

theorem markRange_run {from_ through : Nat} (h : from_ ≤ through) (log : RaftLog C) :
    markRange from_ through log =
      (.ok (), { log with unstable := log.unstable.markRange from_ through }) := by
  rw [markRange, if_pos h]
  rfl

theorem truncateFrom_run {from_ : Nat} (h : 0 < from_) (log : RaftLog C) :
    truncateFrom from_ log =
      (.ok (), { log with unstable := log.unstable.truncateFrom from_ }) := by
  obtain ⟨snapshot, entries, committed, ⟨first, last⟩⟩ := log
  cases first with
  | none => rfl
  | some first =>
    cases last with
    | none => rfl
    | some last =>
      simp only [truncateFrom, Unstable.truncateFrom, Program.bind_get_run]
      split
      · rfl
      · split
        · rw [bind_read_run, Outcome.sub_eq_ok (show 1 ≤ from_ by omega)]
          rfl
        · rfl

theorem validateContinuity_contiguous {log : RaftLog C} {entries : List (Entry C)} {first : Nat}
    (h : log.validateContinuity entries first = .ok ()) : Contiguous first entries := by
  simp only [RaftLog.validateContinuity, bind, Except.bind] at h
  cases ht : log.termBefore first with
  | error f => simp [ht] at h
  | ok t =>
    rw [ht] at h
    exact (RaftLog.checkContinuity_eq_ok h).1

theorem append_run (entries : List (Entry C)) (log : RaftLog C) :
    append entries log = after log (log.append entries) := by
  cases entries with
  | nil => rfl
  | cons firstNew rest =>
    simp only [append, RaftLog.append, bind_read_run, after_bind]
    cases checkedNextOr log.lastIndex (LogError.indexOverflow log.lastIndex) with
    | error e => rfl
    | ok expected =>
      simp only
      cases hv : log.validateContinuity (firstNew :: rest) expected with
      | error e => rfl
      | ok u =>
        have contiguous := validateContinuity_contiguous hv
        obtain ⟨lastNew, hlast⟩ : ∃ g, (firstNew :: rest).getLast? = some g :=
          ⟨_, List.getLast?_cons⟩
        have first := contiguous.1
        have last := contiguous.getLast? hlast
        rw [List.length_cons] at last
        simp only [hlast, Outcome.expect, Program.expect_some]
        exact markRange_run (by omega) _

theorem replaceConflict_run (incoming : List (Entry C)) (log : RaftLog C) :
    replaceConflict incoming log = after log (log.replaceConflict incoming) := by
  cases incoming with
  | nil => rfl
  | cons head rest =>
    simp only [replaceConflict, RaftLog.replaceConflict, bind_read_run, after_bind]
    cases checkedNextOr log.lastIndex (LogError.indexOverflow log.lastIndex) with
    | error e => rfl
    | ok expected =>
      simp only
      split
      · rfl
      simp only [bind_read_run, after_bind]
      cases hv : log.validateContinuity (head :: rest) head.index with
      | error e => rfl
      | ok u =>
        have contiguous := validateContinuity_contiguous hv
        simp only
        cases log.firstConflict 0 (head :: rest) with
        | error e => rfl
        | ok found =>
          cases found with
          | none => rfl
          | some offset =>
            simp only [bind_read_run, after_bind, Outcome.index]
            cases hc : (head :: rest)[offset]? with
            | none => rfl
            | some conflict =>
              simp only [Outcome.expect, Program.bind_get_run]
              split
              · rfl
              simp only [bind_read_run, after_bind]
              cases log.firstIndex with
              | error e => rfl
              | ok first =>
                simp only
                cases (Outcome.sub conflict.index first : Outcome LogError Nat) with
                | error e => rfl
                | ok truncateOffset =>
                  obtain ⟨lastNew, hlast⟩ : ∃ g, (head :: rest).getLast? = some g :=
                    ⟨_, List.getLast?_cons⟩
                  have inside := (List.getElem?_eq_some_iff.mp hc).1
                  have index := contiguous.index hc
                  have last := contiguous.getLast? hlast
                  simp only [hlast, Program.expect_some, Program.bind_pure_run,
                    Program.bind_modify_run]
                  rw [Program.bind_run_ok (truncateFrom_run conflict.index_pos _)]
                  exact markRange_run (by omega) _

theorem mergeFromLeader_run (incoming : List (Entry C)) (log : RaftLog C) :
    mergeFromLeader incoming log = afterWith log (log.mergeFromLeader incoming) := by
  simp only [mergeFromLeader, RaftLog.mergeFromLeader, bind_read_run, afterWith_bind]
  cases log.firstChange 0 incoming with
  | error e => rfl
  | ok found =>
    cases found with
    | none => rfl
    | some offset =>
      simp only [afterWith_bind]
      have run := replaceConflict_run (incoming.drop offset) log
      cases hr : log.replaceConflict (incoming.drop offset) with
      | error e =>
        rw [hr] at run
        exact Program.bind_run_error run _
      | ok merged =>
        rw [hr] at run
        exact Program.bind_run_ok run _

theorem commitTo_run (index : Nat) (log : RaftLog C) :
    commitTo index log = after log (log.commitTo index) := by
  simp only [commitTo, RaftLog.commitTo, Program.bind_get_run]
  split
  · rfl
  · split <;> rfl

theorem markStable_run (index : Nat) (log : RaftLog C) :
    markStable index log = after log (log.markStable index) := by
  simp only [markStable, RaftLog.markStable, Program.bind_get_run]
  split <;> rfl

theorem compact_run (snapshot : SnapshotRecord) (log : RaftLog C) :
    compact snapshot log = after log (log.compact snapshot) := by
  simp only [compact, RaftLog.compact, Program.bind_get_run]
  split
  · rfl
  simp only [bind_read_run, after_bind]
  cases log.term snapshot.metadata.index with
  | error e => rfl
  | ok t =>
    simp only
    split
    · rfl
    simp only [bind_read_run, after_bind]
    cases (checkedNextOr snapshot.metadata.index
        (LogError.indexOverflow snapshot.metadata.index)) with
    | error e => rfl
    | ok retainedFrom =>
      simp only
      cases log.firstIndex with
      | error e => rfl
      | ok first =>
        simp only
        split
        · next above =>
          simp only [bind_read_run, Outcome.sub_eq_ok above.le]
          rfl
        · rfl

/-- The last statement of `install_snapshot`. -/
theorem advance_eq (log : RaftLog C) (through : Nat) :
    (if log.committed < through then { log with committed := through } else log) =
      { log with committed := max log.committed through } := by
  split
  · next h => rw [Nat.max_eq_right h.le]
  · next h => rw [Nat.max_eq_left (by omega)]

theorem installSnapshot_run (snapshot : SnapshotRecord) (log : RaftLog C) :
    installSnapshot snapshot log = after log (log.installSnapshot snapshot) := by
  simp only [installSnapshot, RaftLog.installSnapshot, bind_read_run]
  cases log.term snapshot.metadata.index with
  | error f =>
    cases f with
    | raise e =>
      simp only [Bool.false_eq_true, if_false, Program.bind_modify_run,
        Program.modify_run, advance_eq]
      rfl
    | panic => rfl
  | ok t =>
    by_cases same : t = snapshot.metadata.term
    · simp only [same, decide_true, if_true, bind_read_run]
      cases log.firstIndex with
      | error e => rfl
      | ok first =>
        simp only [Program.bind_modify_run, Program.modify_run, advance_eq]
        rfl
    · simp only [same, decide_false, Bool.false_eq_true, if_false, Program.bind_modify_run,
        Program.modify_run, advance_eq]
      rfl

end LogMethod

end Ruft
