import Ruft.Rejections

set_option autoImplicit false

/-!
# The invariant check

`step` checks the commit index against the log after every event. The check passes and the
log never grows back over what was compacted, as long as a received snapshot is installed
over a log that is not ahead of it.

## Main results

- `never_invalid` — no step of a cluster fails its check
- `stale_install_invalid` — a snapshot that is installed late stops the core
-/

namespace Ruft

open Program StepM

variable {C : Type} {c : RaftCore C} {event : Event C}

/-- A snapshot that is installed has an index with a successor, is not behind the log's own
snapshot, and holds all that is committed or agrees with the log at its boundary. -/
def InstallsAhead : Condition C := fun _ c event =>
  match event with
  | .effectCompleted id (.snapshotInstalled _) => ∀ record from_ term,
      c.incomingSnapshotState = some (.installing id record from_ term) →
      record.metadata.index < u64Max ∧ c.log.snapshotIndex ≤ record.metadata.index ∧
      (c.hardState.commitIndex ≤ record.metadata.index ∨
        c.log.term record.metadata.index = .ok record.metadata.term)
  | _ => True

/-- The commit index lies within the log. -/
structure RaftCore.Bounded (c : RaftCore C) : Prop where
  compacted : c.log.snapshotIndex ≤ c.hardState.commitIndex
  held : c.hardState.commitIndex ≤ c.log.lastIndex

theorem RaftCore.Bounded.congr {d : RaftCore C} (h : c.Bounded) (snapshot : d.log.snapshot = c.log.snapshot)
    (entries : d.log.entries = c.log.entries)
    (commit : d.hardState.commitIndex = c.hardState.commitIndex) : d.Bounded := by
  have index : d.log.snapshotIndex = c.log.snapshotIndex := by simp [RaftLog.snapshotIndex, snapshot]
  have last : d.log.lastIndex = c.log.lastIndex := by simp [RaftLog.lastIndex, entries, index]
  exact ⟨by rw [index, commit]; exact h.compacted, by rw [last, commit]; exact h.held⟩

/-- One more entry. -/
theorem RaftCore.Bounded.append {d : RaftCore C} (h : c.Bounded) {entry : Entry C}
    (next : entry.Continues c) (snapshot : d.log.snapshot = c.log.snapshot)
    (entries : d.log.entries = c.log.entries ++ [entry])
    (commit : d.hardState.commitIndex = c.hardState.commitIndex) : d.Bounded := by
  have index : d.log.snapshotIndex = c.log.snapshotIndex := by simp [RaftLog.snapshotIndex, snapshot]
  have last : d.log.lastIndex = c.log.lastIndex + 1 := by
    simp [RaftLog.lastIndex, entries, next.index]
  refine ⟨by rw [index, commit]; exact h.compacted, ?_⟩
  have := h.held
  omega

/-- A merge keeps what is committed. -/
theorem RaftLog.Merged.committed_le {log log' : RaftLog C} {entries appended : List (Entry C)}
    (merge : log.Merged entries log' appended) (wf : log'.WF) (held : log.committed ≤ log.lastIndex) :
    log.committed ≤ log'.lastIndex := by
  cases merge with
  | same => exact held
  | changed kept e rest j u split heldTerms differs index within uncommitted =>
    have last := wf.lastIndex
    simp only [RaftLog.snapshotIndex, List.length_append, List.length_take, List.length_cons] at last
    simp only [RaftLog.snapshotIndex] at index
    omega

theorem RaftCore.Bounded.messageAct (h : c.Bounded) (wf : c.WF) {from_ : NodeId} {m : Message C}
    {s : Ctx C} (act : MessageAct c from_ m s) :
    s.core.log.snapshot = c.log.snapshot ∧ s.core.Bounded := by
  cases act with
  | elected term granted votes entry same candidate found won next =>
    exact ⟨rfl, h.append next rfl rfl rfl⟩
  | appendAccepted term prev prevTerm leaderCommit context entries log appended hardState reached
      prefix_ run merge logWF =>
    have snapshot := merge.snapshot_eq
    have index : log.snapshotIndex = c.log.snapshotIndex := by
      simp [RaftLog.snapshotIndex, snapshot]
    have committed := merge.committed_eq
    have le := merge.committed_le logWF (wf.committed ▸ h.held)
    have compacted := h.compacted
    have same := wf.committed
    refine ⟨snapshot, ?_, ?_⟩
    · show log.snapshotIndex ≤ max log.committed (min leaderCommit log.lastIndex)
      omega
    · show max log.committed (min leaderCommit log.lastIndex) ≤ log.lastIndex
      omega
  | _ => exact ⟨rfl, h.congr rfl rfl rfl⟩

theorem RaftCore.Bounded.installed (h : c.Bounded) (wf : c.WF) {record : SnapshotRecord}
    {log : RaftLog C} (install : c.log.installSnapshot record = .ok log)
    (bound : record.metadata.index < u64Max) (ahead : c.log.snapshotIndex ≤ record.metadata.index)
    (agrees : c.hardState.commitIndex ≤ record.metadata.index ∨
      c.log.term record.metadata.index = .ok record.metadata.term) :
    log.snapshotIndex = record.metadata.index ∧ record.metadata.index ≤ log.lastIndex ∧
      c.hardState.commitIndex ≤ log.lastIndex := by
  have logWF := wf.log.installed bound install
  have last := logWF.lastIndex
  have old := wf.log.lastIndex
  have held := h.held
  rw [wf.log.installSnapshot, Except.ok.injEq] at install
  subst install
  refine ⟨by simp [RaftLog.snapshotIndex], ?_⟩
  simp only [RaftLog.snapshotIndex, Option.elim_some] at last ahead old
  rw [last]
  refine ⟨by omega, ?_⟩
  rcases agrees with le | same
  · omega
  · rw [RaftLog.retained, if_pos same, List.length_drop]
    have := (wf.log.term_isOk.mp ⟨_, same⟩).2
    simp only [RaftLog.snapshotIndex] at *
    omega

theorem RaftCore.Bounded.completionAct [Sha256] {history : List (Record C)} (h : c.Bounded)
    (wf : c.WF) {id : EffectId} {outcome : EffectOutcome} {s : Ctx C}
    (act : CompletionAct c id outcome s)
    (meets : InstallsAhead history c (.effectCompleted id outcome)) :
    c.log.snapshotIndex ≤ s.core.log.snapshotIndex ∧ s.core.Bounded ∧
      s.core.hardState.commitIndex < u64Max := by
  have lt := wf.commit_lt
  cases act with
  | installed snapshotId record from_ term log found install =>
    obtain ⟨bound, ahead, agrees⟩ := meets record from_ term found
    obtain ⟨index, within, held⟩ := h.installed wf install bound ahead agrees
    refine ⟨?_, ⟨?_, ?_⟩, ?_⟩
    · show c.log.snapshotIndex ≤ log.snapshotIndex
      omega
    · show log.snapshotIndex ≤ max c.hardState.commitIndex record.metadata.index
      omega
    · show max c.hardState.commitIndex record.metadata.index ≤ log.lastIndex
      omega
    · show max c.hardState.commitIndex record.metadata.index < u64Max
      omega
  | compacted record log found compact =>
    have logWF := wf.log.compacted compact
    obtain ⟨committed, term, rfl⟩ := wf.log.compact_eq_ok compact
    obtain ⟨lo, hi⟩ := wf.log.term_isOk.mp ⟨_, term⟩
    have last := logWF.lastIndex
    have old := wf.log.lastIndex
    have same := wf.committed
    have held := h.held
    refine ⟨?_, ⟨?_, ?_⟩, lt⟩
    · simpa [RaftLog.snapshotIndex] using lo
    · simp only [RaftLog.snapshotIndex, Option.elim_some]
      omega
    · simp only [RaftLog.snapshotIndex, Option.elim_some, List.length_drop] at *
      omega
  | electedAlone stableThrough votes entry found counted won next =>
    exact ⟨le_rfl, h.append next rfl rfl rfl, lt⟩
  | _ => exact ⟨le_rfl, h.congr rfl rfl rfl, lt⟩

theorem RaftCore.Bounded.act [Sha256] {history : List (Record C)} (h : c.Bounded) (wf : c.WF)
    {s : Ctx C} (act : Act c event s) (meets : InstallsAhead history c event) :
    c.log.snapshotIndex ≤ s.core.log.snapshotIndex ∧ s.core.Bounded ∧
      s.core.hardState.commitIndex < u64Max := by
  have lt := wf.commit_lt
  cases act with
  | message envelope members s known mine act =>
    have wf' : ({ c with activeMembers := members }).WF :=
      wf.congr rfl rfl rfl rfl rfl rfl rfl rfl rfl rfl rfl
    have h' : ({ c with activeMembers := members }).Bounded := h.congr rfl rfl rfl
    obtain ⟨snapshot, bounded⟩ := h'.messageAct wf' act
    have snapshot : s.core.log.snapshot = c.log.snapshot := snapshot
    refine ⟨by simp [RaftLog.snapshotIndex, snapshot], bounded, ?_⟩
    exact lt_of_le_of_lt bounded.held (wf'.messageAct act).log.lastIndex_lt
  | completed id outcome s act => exact h.completionAct wf act meets
  | proposed proposalId command encodedLen entry leader free next =>
    exact ⟨le_rfl, h.append next rfl rfl rfl, lt⟩
  | readStarted readId =>
    obtain ⟨round, hr⟩ := Ctx.roundStarted_core ⟨c, []⟩ readId
    rw [hr]
    exact ⟨le_rfl, h.congr rfl rfl rfl, lt⟩
  | _ => exact ⟨le_rfl, h.congr rfl rfl rfl, lt⟩

theorem RaftCore.Bounded.followUp {cause : Cause C} {s s' : Ctx C} (h : s.core.Bounded)
    (lt : s.core.hardState.commitIndex < u64Max) (wf : s.core.WF) (hf : FollowUp cause s s') :
    s'.core.log.snapshot = s.core.log.snapshot ∧ s'.core.Bounded ∧
      s'.core.hardState.commitIndex < u64Max := by
  have compacted := h.compacted
  have same := wf.committed
  have last := wf.log.lastIndex_lt
  cases hf with
  | committed commit may noPersist quorum fresh held =>
    refine ⟨rfl, ⟨?_, held⟩, ?_⟩
    · show s.core.log.snapshotIndex ≤ commit
      omega
    · show commit < u64Max
      omega
  | commitStuck commit may noPersist quorum fresh held =>
    refine ⟨rfl, ⟨?_, held⟩, ?_⟩
    · show s.core.log.snapshotIndex ≤ commit
      omega
    · show commit < u64Max
      omega
  | readStarted readId rest =>
    obtain ⟨round, hr⟩ :=
      Ctx.roundStarted_core ⟨{ s.core with pendingReads := rest }, s.effects⟩ readId
    rw [hr]
    exact ⟨rfl, h.congr rfl rfl rfl, lt⟩
  | _ => exact ⟨rfl, h.congr rfl rfl rfl, lt⟩

/-- The first index of the log never decreases. -/
def Record.Grows (r : Record C) : Prop :=
  r.before.log.snapshotIndex ≤ r.after.log.snapshotIndex ∧ r.after.log.snapshotIndex < u64Max

theorem RaftLog.firstIndex_eq {log : RaftLog C} (h : log.snapshotIndex < u64Max) :
    log.firstIndex = .ok (log.snapshotIndex + 1) := by
  unfold RaftLog.firstIndex RaftLog.snapshotIndex at *
  cases hs : log.snapshot with
  | none => rfl
  | some record =>
    simp only [hs, Option.elim_some] at h
    simp [expectNext, checkedNext, h]

theorem Record.Grows.firstIndex {r : Record C} (h : r.Grows) : ∃ first first',
    r.before.log.firstIndex = .ok first ∧ r.after.log.firstIndex = .ok first' ∧ first ≤ first' :=
  ⟨_, _, RaftLog.firstIndex_eq (lt_of_le_of_lt h.1 h.2), RaftLog.firstIndex_eq h.2,
    Nat.succ_le_succ h.1⟩

/-- Of a core at any time: its log only ever lost entries at its start. -/
structure Grown (history : List (Record C)) (c : RaftCore C) : Prop where
  steps : ∀ r ∈ history, r.Grows
  lt : c.log.snapshotIndex < u64Max

theorem Grown.cons {history : List (Record C)} (h : ∀ r ∈ history, r.Grows) {r : Record C}
    (grows : r.Grows) : Grown (r :: history) r.after :=
  ⟨List.forall_mem_cons.mpr ⟨grows, h⟩, grows.2⟩

/-- A core in the middle of a step: the commit index lies within the log, which starts no
earlier than before the step. -/
structure Bounding (history : List (Record C)) (c : RaftCore C) (s : Ctx C) : Prop where
  grow : ∀ r ∈ history, r.Grows
  grows : c.log.snapshotIndex ≤ s.core.log.snapshotIndex
  bounded : s.core.Bounded
  lt : s.core.hardState.commitIndex < u64Max

theorem Bounding.record {history : List (Record C)} {s : Ctx C} {d : RaftCore C}
    (h : Bounding history c s) (same : d.log = s.core.log) (event : Event C)
    (result : Outcome StepError (StepOutput C)) :
    (⟨c, event, result, d⟩ : Record C).Grows := by
  constructor
  · rw [same]; exact h.grows
  · rw [same]; exact lt_of_le_of_lt h.bounded.compacted h.lt

theorem bounded_keeps [Sha256] : Keeps (InstallsAhead : Condition C)
    (fun history c => Grown history c ∧ c.Bounded)
    (fun history c _ s => Bounding history c s) Grown where
  act hs h act := by
    obtain ⟨grows, bounded, lt⟩ := h.2.act hs.wf act hs.meets
    exact ⟨h.1.steps, grows, bounded, lt⟩
  followUp := by
    intro history c event s₀ s s' hs act rest h hf
    have wf : s.core.WF := (act.settled hs.wf rest).resolve_right fun beyond =>
      absurd h.lt (Nat.not_lt.mpr beyond.bound)
    obtain ⟨snapshot, bounded, lt⟩ := h.bounded.followUp h.lt wf hf
    have index : s'.core.log.snapshotIndex = s.core.log.snapshotIndex := by
      simp [RaftLog.snapshotIndex, snapshot]
    exact ⟨h.grow, index ▸ h.grows, bounded, lt⟩
  finished := by
    intro history c event s _ h
    obtain ⟨proposals, hp⟩ := s.finished_core c
    refine ⟨h.grow, ?_, ?_, ?_⟩
    · rw [hp]; exact h.grows
    · rw [hp]; exact h.bounded.congr rfl rfl rfl
    · rw [hp]; exact h.lt
  returned _ _ h := ⟨.cons h.grow (h.record rfl _ _), h.bounded⟩
  failed _ _ h _ := ⟨.cons h.grow (h.record rfl _ _), h.bounded⟩
  safe h := h.1
  ended e reason _ h :=
    .cons h.grow (@Bounding.record _ _ _ _ (RaftCore.stop _ reason) h rfl _ (Outcome.raise e))
  halted := by
    intro history c c' event e reason _ h halted
    obtain ⟨-, reads, store, incoming, building, applying, persist, rfl⟩ := halted
    exact .cons h.1.steps ⟨le_rfl, h.1.lt⟩
  idle _ _ _ _ _ h := .cons h.steps ⟨le_rfl, h.lt⟩

theorem RaftCore.Bounded.stuck [Sha256] {history : List (Record C)} {s : Ctx C} {e : StepError}
    (h : c.Bounded) (wf : c.WF) (meets : InstallsAhead history c event)
    (stuck : Stuck c (Act c event) e s) :
    c.log.snapshotIndex ≤ s.core.log.snapshotIndex ∧ s.core.Bounded := by
  cases stuck with
  | queued d batch continuation full act =>
    obtain ⟨grows, bounded, -⟩ := h.act wf act meets
    exact ⟨grows, bounded.congr rfl rfl rfl⟩
  | dropped => exact ⟨le_rfl, h.congr rfl rfl rfl⟩

theorem RaftCore.new_bounded (config : Config) (recovered : RecoveredState C) :
    (RaftCore.new config recovered).Bounded := by
  obtain ⟨-, -, snapshot, commit⟩ := recovered.facts
  exact ⟨snapshot, commit⟩

theorem Trace.bounded [Sha256] {config : Config} {recovered : RecoveredState C}
    {history : List (Record C)} (run : Trace (RaftCore.new config recovered) history c)
    (ahead : Holds InstallsAhead history) :
    Grown history c ∧ (c.stopped = true ∨ c.WF ∧ c.Bounded) := by
  have wf := RaftCore.new_wf config recovered
  have start := RaftCore.new_bounded config recovered
  have stuck : ∀ {history : List (Record C)} {c : RaftCore C} {event e s},
      Steps InstallsAhead history c event → Grown history c ∧ c.Bounded →
      Stuck c (Act c event) e s → Grown (⟨c, event, Outcome.raise e, s.core⟩ :: history) s.core ∧
        s.core.Bounded := by
    intro history c event e s hs h stuck
    obtain ⟨grows, bounded⟩ := h.2.stuck hs.wf hs.meets stuck
    have lt := lt_of_le_of_lt bounded.compacted (hs.wf.stuck stuck).commit_lt
    exact ⟨.cons h.1.steps ⟨grows, lt⟩, bounded⟩
  obtain ⟨grow, hrun⟩ := Trace.invariant_of_stuck bounded_keeps stuck wf
    ⟨⟨by simp, lt_of_le_of_lt start.compacted wf.commit_lt⟩, start⟩ run ahead
  exact ⟨grow, hrun.imp_right fun h => ⟨h.1, h.2.2⟩⟩

/-! ## The check -/

theorem RaftLog.WF.validate_ok {log : RaftLog C} (h : log.WF) : log.validate = .ok () := by
  unfold RaftLog.validate
  simp only [h.firstIndex, bind, Except.bind, RaftLog.validateContinuity,
    RaftLog.termBefore_eq (Nat.succ_pos _), Nat.succ_sub_one, h.term_snapshot]
  rw [RaftLog.checkContinuity_ok h.contiguous h.terms (by have := h.bound; omega)]

theorem RaftCore.WF.validate_ok (h : c.WF) (bounded : c.Bounded) :
    c.validateInvariants = .ok () := by
  unfold RaftCore.validateInvariants
  have hterm := h.log.term_lastIndex
  have compacted := bounded.compacted
  simp only [checkedNextOr_eq_ok _ h.commit_lt, bind, Except.bind, h.log.firstIndex, hterm]
  rw [if_neg (Nat.not_lt.mpr h.applied_le), if_neg (Nat.not_lt.mpr bounded.held),
    if_neg (not_not_intro h.committed), if_neg (by omega), if_neg (not_not_intro h.lastLogIndex),
    if_neg (not_not_intro h.lastLogTerm)]
  exact h.log.validate_ok

/-- A step that meets the condition passes the check. -/
theorem step_valid [Sha256] {history : List (Record C)} (hs : Steps InstallsAhead history c event)
    (grown : Grown history c) (bounded : c.Bounded) (violation : InvariantViolation) :
    (step c event).1 ≠ Outcome.raise (.fatal (.invariant violation)) := by
  intro h
  obtain ⟨s, hrun, invalid⟩ := step_invalid hs.running h
  have ran := process_ran hs.wf event
  rw [hrun] at ran
  cases ran with
  | followed r s returns path wf quiet =>
    have bounding := bounded_keeps.finished hs (bounded_keeps.path hs ⟨grown, bounded⟩ path)
    obtain ⟨proposals, hp⟩ := s.finished_core c
    have wf' : (s.finished c).core.WF := by
      rw [hp]
      exact wf.congr rfl rfl rfl rfl rfl rfl rfl rfl rfl rfl rfl
    rw [wf'.validate_ok bounding.bounded] at invalid
    simp [Outcome.raise] at invalid
  | overflowed s path beyond =>
    have lt := (bounded_keeps.path hs ⟨grown, bounded⟩ path).lt
    exact absurd lt (Nat.not_lt.mpr beyond.bound)

/-- A stopped core is not checked. -/
theorem step_stopped_valid [Sha256] (stopped : c.stopped = true) (violation : InvariantViolation) :
    (step c event).1 ≠ Outcome.raise (.fatal (.invariant violation)) := by
  unfold step
  rw [if_pos stopped]
  cases event with
  | shutdown => simp [Outcome.raise]
  | tick => simp [Outcome.raise]
  | messageReceived => simp [Outcome.raise]
  | _ => cases c.stoppedReason <;> simp [Outcome.raise, Outcome.panic]

theorem Trace.valid [Sha256] {config : Config} {recovered : RecoveredState C}
    {history : List (Record C)} (run : Trace (RaftCore.new config recovered) history c)
    (ahead : Holds InstallsAhead history) {r : Record C} (hr : r ∈ history)
    (violation : InvariantViolation) :
    r.result ≠ Outcome.raise (.fatal (.invariant violation)) := by
  induction run with
  | start => simp at hr
  | @step history c c' event result earlier allowed run returns ih =>
    rcases List.mem_cons.mp hr with rfl | hr
    · have valid : (Ruft.step c event).1 ≠ Outcome.raise (.fatal (.invariant violation)) := by
        obtain ⟨grown, hc⟩ := earlier.bounded ahead.2
        by_cases stopped : c.stopped = true
        · exact step_stopped_valid stopped violation
        · obtain ⟨wf, bounded⟩ := hc.resolve_left stopped
          exact step_valid ⟨wf, by simpa using stopped, allowed, ahead.1⟩ grown bounded violation
      rwa [run] at valid
    · exact ih ahead.2 hr

/-- No step of a cluster fails the check, and no log grows back over what was compacted, when
snapshots are installed ahead of the log. -/
theorem never_invalid [Sha256] (config : NodeId → Config) (recovered : NodeId → RecoveredState C)
    {history : List (NodeId × Record C)} {cores : NodeId → RaftCore C}
    (run : Run (fun node => RaftCore.new (config node) (recovered node)) history cores)
    (node : NodeId) (ahead : Holds InstallsAhead (localHistory history node)) :
    ∀ r ∈ localHistory history node,
      (∀ violation, r.result ≠ Outcome.raise (.fatal (.invariant violation))) ∧
      ∃ first first', r.before.log.firstIndex = .ok first ∧ r.after.log.firstIndex = .ok first' ∧
        first ≤ first' := by
  intro r hr
  have grown := ((run.trace node).bounded ahead).1
  exact ⟨(run.trace node).valid ahead hr, (grown.steps r hr).firstIndex⟩

/-- `InstallsAhead` as a check. -/
def installsAheadCheck (c : RaftCore C) (event : Event C) : Bool :=
  match event, c.incomingSnapshotState with
  | .effectCompleted _ (.snapshotInstalled _), some (.installing _ record _ _) =>
    record.metadata.index < u64Max && c.log.snapshotIndex ≤ record.metadata.index &&
      c.hardState.commitIndex ≤ record.metadata.index
  | _, _ => true

theorem installsAhead_of_check (history : List (Record C)) (c : RaftCore C) (event : Event C)
    (h : installsAheadCheck c event = true) : InstallsAhead history c event := by
  unfold InstallsAhead
  split
  · intro record from_ term found
    simp only [installsAheadCheck, found, Bool.and_eq_true, decide_eq_true_eq] at h
    exact ⟨h.1.1, h.1.2, .inl h.2⟩
  · trivial

/-- Node 3 installs the snapshot of node 1 at once. -/
theorem never_invalid_installing : ∃ w : World Nat,
    @Run Nat sha256Empty trio w.history (w.core trio) ∧
    (localHistory w.history 3).any (fun r => r.after.log.snapshotIndex = 2) = true ∧
    ∀ r ∈ localHistory w.history 3,
      (∀ violation, r.result ≠ Outcome.raise (.fatal (.invariant violation))) ∧
      ∃ first first', r.before.log.firstIndex = .ok first ∧ r.after.log.firstIndex = .ok first' ∧
        first ≤ first' := by
  let _ : Sha256 := sha256Empty
  obtain ⟨w, run, checked⟩ := World.exec_any trio
    (Script.receiveSnapshot ++ [Script.done 3 6 (.snapshotInstalled 7)])
    (fun w => ((localHistory w.history 3).any fun r => r.after.log.snapshotIndex = 2) &&
      (localHistory w.history 3).all fun r => installsAheadCheck r.before r.event)
    (by decide +kernel)
  rw [Bool.and_eq_true] at checked
  refine ⟨w, run, checked.1, ?_⟩
  exact never_invalid trioConfigs (fun _ => .initial) run 3
    (Holds.of_all installsAhead_of_check checked.2)

/-- While node 3 installs the snapshot of node 1 through index 2, node 2 is elected and
commits index 3 with node 3, which compacts its own log through it. -/
def overtakenInstall : List (Move Nat) := Script.receiveSnapshot ++
  [Script.applied 3 3 1, Script.applied 2 4 1, Script.elect 2, Script.deliver 20,
    Script.deliver 21, Script.persisted 2 5, Script.deliver 23, Script.persisted 3 7,
    Script.deliver 24, Script.persisted 2 6, Script.deliver 26, Script.deliver 27,
    Script.deliver 28, Script.persisted 3 8, Script.deliver 29, Script.deliver 30,
    Script.persisted 3 9, Script.deliver 31, Script.persisted 2 7,
    .event 2 (.tick .heartbeat), Script.deliver 33, Script.persisted 3 10,
    Script.applied 3 11 3, .event 3 .snapshotRequested,
    Script.done 3 12 (.snapshotBuilt (emptyBody 7 3 2 (by decide) Nat.two_pos) ⟨[]⟩),
    Script.persisted 3 13, Script.done 3 14 (.compacted 3)]

/-- The install takes node 3 back behind what it has committed, which stops it. -/
theorem stale_install_invalid : ¬ ∀ (history : List (NodeId × Record Nat))
    (cores : NodeId → RaftCore Nat), @Run Nat sha256Empty trio history cores →
    ∀ node, ∀ r ∈ localHistory history node,
      (∀ violation, r.result ≠ Outcome.raise (.fatal (.invariant violation))) ∧
      ∃ first first', r.before.log.firstIndex = .ok first ∧ r.after.log.firstIndex = .ok first' ∧
        first ≤ first' := by
  let _ : Sha256 := sha256Empty
  intro h
  obtain ⟨w, run, bad⟩ := World.exec_any trio
    (overtakenInstall ++ [Script.done 3 6 (.snapshotInstalled 7)])
    (fun w => (localHistory w.history 3).any fun r =>
      r.result = Outcome.raise (.fatal (.invariant .commitPastLog)))
    (by decide +kernel)
  obtain ⟨r, hr, hbad⟩ := List.any_eq_true.mp bad
  exact (h _ _ run 3 r hr).1 _ (of_decide_eq_true hbad)

end Ruft
