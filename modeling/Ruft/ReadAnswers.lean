import Ruft.Plain
import Ruft.ReadLedger

set_option autoImplicit false

/-!
# Steps that fail after they answered reads

A handler that releases a read round goes on: it sends appends, advances the commit index, emits
an apply or asks for a snapshot. Where one of these gets no effect id, the step returns an error
and what it answered is dropped.

## Main definitions

- `AnswersReach` — the condition under which a step that answers reads does not fail

## Main results

- `failed_answers_nothing` — under the condition a step that fails has answered nothing
-/

namespace Ruft

open Program StepM

variable {C : Type} {c d : RaftCore C} {event : Event C} {s s' : Ctx C}

/-! ## Programs that answer no read -/

/-- The program answers no read. -/
abbrev Spares {α : Type} (m : StepM C α) : Prop :=
  Leaves (fun s : Ctx C => readies s.effects) (fun _ => True) (fun _ => True) m

theorem spares_core : Spares (core : StepM C _) := fun _ => ⟨rfl, trivial⟩

theorem spares_update (f : RaftCore C → RaftCore C) : Spares (update f) :=
  fun _ => ⟨rfl, trivial⟩

theorem spares_emitAll {es : List (Effect C)} (quiet : readies es = []) : Spares (emitAll es) := by
  refine fun s => ⟨?_, trivial⟩
  show readies (s.effects ++ es) = _
  rw [readies_append, quiet, List.append_nil]

theorem spares_emit {e : Effect C} (quiet : readies [e] = []) : Spares (emit e) :=
  spares_emitAll quiet

theorem spares_lift {δ α : Type} {g : δ → StepError} (m : Outcome δ α) :
    Spares (Program.lift g m : StepM C α) := by
  refine Leaves.lift ?_
  cases m with
  | ok a => trivial
  | error e => cases e <;> trivial

theorem spares_liftNext (n : Nat) : Spares (liftNext n : StepM C Nat) := spares_lift _

theorem spares_nextEffectId : Spares (nextEffectId : StepM C EffectId) :=
  spares_core.seq fun _ => (spares_liftNext _).seq fun _ => (spares_update _).seq fun _ =>
    .pure trivial

theorem spares_queuePersist (batch : PersistBatch C) (k : PersistContinuation) :
    Spares (queuePersist batch k) :=
  spares_nextEffectId.seq fun _ => (spares_update _).seq fun _ => spares_emit rfl

theorem spares_emitApplyIfNeeded : Spares (emitApplyIfNeeded : StepM C Unit) :=
  spares_core.seq fun _ => .ite (.pure trivial) <| (spares_liftNext _).seq fun _ =>
    (spares_lift _).seq fun _ => spares_nextEffectId.seq fun _ => (spares_update _).seq fun _ =>
      spares_emit rfl

theorem spares_readSnapshotChunk (to_ : NodeId) : Spares (readSnapshotChunk to_ : StepM C Unit) := by
  have rest : Spares (do
      let c ← core
      let sender ← Program.expect (c.snapshotSenders.get to_)
      let id ← nextEffectId
      update fun c => { c with pendingSnapshotReads := c.pendingSnapshotReads.insert id to_ }
      emit (.readSnapshotChunk id sender.snapshot sender.offset c.config.snapshotChunkBytes) :
      StepM C Unit) :=
    spares_core.seq fun _ => Leaves.expect.seq fun _ => spares_nextEffectId.seq fun _ =>
      (spares_update _).seq fun _ => spares_emit rfl
  refine spares_core.seq fun c => .ite (.pure trivial) ?_
  cases c.snapshotSenders.get to_ with
  | some sender => exact rest
  | none =>
    cases c.log.snapshot with
    | some snapshot => exact (spares_update _).seq fun _ => rest
    | none =>
      have refused : Spares (StepM.raise .invalidSnapshot : StepM C Unit) := .raise trivial
      exact refused.seq fun _ => rest

theorem spares_replicateTo (to_ : NodeId) : Spares (replicateTo to_ : StepM C Unit) := by
  refine spares_core.seq fun c => ?_
  cases c.progress.get to_ with
  | none => exact .pure trivial
  | some progress =>
    refine .ite (.pure trivial) ((spares_lift _).seq fun first => .ite ?_ ?_)
    · exact (spares_update _).seq fun _ => spares_readSnapshotChunk to_
    · have batch : ∀ next, Spares (replicationBatch next : StepM C _) := fun next =>
        spares_core.seq fun _ => .ite (.pure trivial) ((spares_lift _).seq fun _ => .pure trivial)
      exact (spares_lift _).seq fun _ => (spares_lift _).seq fun _ => (batch _).seq fun _ =>
        (spares_lift _).seq fun _ => (spares_update _).seq fun _ => spares_emit rfl

theorem spares_replicateAll : Spares (replicateAll : StepM C Unit) :=
  spares_core.seq fun _ => Leaves.forEach spares_replicateTo _

theorem spares_advanceCommit : Spares (advanceCommit : StepM C Unit) := by
  refine spares_core.seq fun c => .ite (.pure trivial) ((spares_lift _).seq fun commit => ?_)
  cases commit with
  | none => exact .pure trivial
  | some commit =>
    exact (spares_lift _).seq fun _ => (spares_update _).seq fun _ => spares_queuePersist _ _

theorem spares_requestLocalSnapshot : Spares (requestLocalSnapshot : StepM C Unit) :=
  spares_core.seq fun _ => .ite (.pure trivial) <| spares_nextEffectId.seq fun _ =>
    (spares_update _).seq fun _ => spares_emit rfl

theorem spares_beginTermTransition (term : Nat) (k : PersistContinuation) :
    Spares (beginTermTransition term k : StepM C Unit) :=
  (spares_update _).seq fun _ => (spares_update _).seq fun _ => spares_core.seq fun _ =>
    spares_queuePersist _ _

/-! ## Starting and releasing rounds -/

/-- The own acknowledgement is a quorum. -/
def RaftCore.Alone (c : RaftCore C) : Prop :=
  (QuorumTracker.withLocalVote c.config.members c.config.localId).hasQuorum = true

/-- The round is safe at an index that is applied. -/
def ReadRound.Releases (round : ReadRound) (applied : Nat) : Prop :=
  ∃ index, round.safeIndex = some index ∧ index ≤ applied

/-- A pending read can be started. -/
structure RaftCore.StartsRead (c : RaftCore C) : Prop where
  leader : c.role = .leader
  noop : c.currentLeaderNoopIsCommitted = true
  idle : c.readRound = none
  queued : c.pendingReads ≠ []

/-- Only what belongs to reads changed. -/
def ReadsOnly (s s' : Ctx C) : Prop := ∃ counter round pending, s'.core = { s.core with
  nextReadContext := counter, readRound := round, pendingReads := pending }

/-- A read that is started is answered at once by a core that is alone and has applied all that
it committed, and by no other. -/
structure Starts (s s' : Ctx C) : Prop where
  core : ReadsOnly s s'
  quiet : ¬ (s.core.Alone ∧ s.core.hardState.commitIndex ≤ s.core.appliedIndex) →
    readies s'.effects = readies s.effects

/-- The context counter ran out. -/
def OutOfContexts (_ : StepError) (s : Ctx C) : Prop := ¬ s.core.nextReadContext < u64Max

theorem ReadsOnly.refl (s : Ctx C) : ReadsOnly s s := ⟨_, _, _, rfl⟩

theorem ReadsOnly.trans {t : Ctx C} (h : ReadsOnly s s') (h' : ReadsOnly s' t) :
    ReadsOnly s t := by
  obtain ⟨counter, round, pending, same⟩ := h
  obtain ⟨counter', round', pending', same'⟩ := h'
  exact ⟨counter', round', pending', by rw [same', same]⟩

theorem ReadsOnly.wf (h : ReadsOnly s s') (wf : s.core.WF) : s'.core.WF := by
  obtain ⟨counter, round, pending, same⟩ := h
  rw [same]
  exact wf.congr rfl rfl rfl rfl rfl rfl rfl rfl rfl rfl rfl

theorem Starts.refl (s : Ctx C) : Starts s s := ⟨.refl s, fun _ => rfl⟩

theorem Starts.trans {t : Ctx C} (h : Starts s s') (h' : Starts s' t) : Starts s t := by
  refine ⟨h.core.trans h'.core, fun not => ?_⟩
  obtain ⟨counter, round, pending, same⟩ := h.core
  refine (h'.quiet ?_).trans (h.quiet not)
  rw [same]
  exact not

/-- A round is released when it is safe at an applied index, and else nothing happens. -/
theorem releaseReadRound_cases (s : Ctx C) :
    ((∀ round, s.core.readRound = some round → ¬ round.Releases s.core.appliedIndex) ∧
      (releaseReadRound : StepM C Unit) s = (.ok (), s)) ∨
    ∃ round index, s.core.readRound = some round ∧ round.safeIndex = some index ∧
      index ≤ s.core.appliedIndex ∧ (releaseReadRound : StepM C Unit) s =
        (.ok (), ⟨{ s.core with readRound := none },
          s.effects ++ round.requests.map fun readId => .readReady readId index⟩) := by
  rw [releaseReadRound, bind_run_ok (core_run _)]
  cases found : s.core.readRound with
  | none => exact .inl ⟨by simp, rfl⟩
  | some round =>
    cases safe : round.safeIndex with
    | none => exact .inl ⟨by simp [ReadRound.Releases, safe], by simp only [safe]; rfl⟩
    | some index =>
      by_cases applied : index ≤ s.core.appliedIndex
      · exact .inr ⟨round, index, rfl, safe, applied, by simp only [safe, if_pos applied]; rfl⟩
      · exact .inl ⟨by simpa [ReadRound.Releases, safe] using applied,
          by simp only [safe, if_neg applied]; rfl⟩

theorem releaseReadRound_only (s : Ctx C) :
    ∃ s', (releaseReadRound : StepM C Unit) s = (.ok (), s') ∧ ReadsOnly s s' := by
  rcases releaseReadRound_cases s with ⟨-, run⟩ | ⟨round, index, -, -, -, run⟩
  · exact ⟨s, run, .refl s⟩
  · exact ⟨_, run, _, _, _, rfl⟩

theorem Ctx.roundStarted_starts (s : Ctx C) (readId : ReadId) : Starts s (s.roundStarted readId) := by
  obtain ⟨round, core⟩ := s.roundStarted_core readId
  refine ⟨⟨_, _, _, core⟩, fun _ => ?_⟩
  rcases s.roundStarted_effects readId with same | ⟨context, same⟩
  · rw [same]
  · rw [same, readies_append]
    exact (congrArg (_ ++ ·) (readies_toPeers _ _)).trans (List.append_nil _)

theorem Ctx.roundStarted_alone {s : Ctx C} (alone : s.core.Alone) (readId : ReadId) {round : ReadRound}
    (found : (s.roundStarted readId).core.readRound = some round) :
    round.safeIndex = some s.core.hardState.commitIndex := by
  unfold Ctx.roundStarted at found
  dsimp only at found
  rw [if_pos (by exact alone)] at found
  obtain rfl := Option.some.inj found
  rfl

/-- A round that starts, and what it starts after it was released. -/
theorem startReadRoundThen_yields (wf : s.core.WF) {next : StepM C Unit} (readId : ReadId)
    (then_ : ∀ s : Ctx C, s.core.WF → Yields (fun _ => Starts s) OutOfContexts next s) :
    Yields (fun _ => Starts s) OutOfContexts (startReadRoundThen next readId) s := by
  by_cases counter : s.core.nextReadContext < u64Max
  · have started := s.roundStarted_starts readId
    have run := startReadRoundThen_run wf next readId counter
    by_cases alone : s.core.Alone
    · rw [if_pos (by exact alone)] at run
      refine .of_same run ?_
      have released : Yields (fun _ => Starts s) OutOfContexts releaseReadRound
          (s.roundStarted readId) := by
        rcases releaseReadRound_cases (s.roundStarted readId) with
          ⟨-, kept⟩ | ⟨round, index, found, safe, applied, out⟩
        · exact .of_run kept started
        · refine .of_run out ⟨started.core.trans ⟨_, _, _, rfl⟩, fun not => absurd ⟨alone, ?_⟩ not⟩
          rw [Ctx.roundStarted_alone alone readId found, Option.some.injEq] at safe
          obtain ⟨_, _, _, core⟩ := started.core
          rw [safe]
          rwa [core] at applied
      exact released.bind fun _ t h => (then_ t (h.core.wf wf)).mono fun _ _ h' => h.trans h'
    · rw [if_neg (by exact alone)] at run
      exact .of_run run started
  · have failed : startReadRoundThen next readId s = (.error (.raise (.arithmetic .overflow)), s) := by
      show (liftNext s.core.nextReadContext >>= _) s = _
      rw [liftNext_overflow counter]
      rfl
    exact .of_error failed counter

theorem startPendingReadsUpTo_yields (turns : Nat) (wf : s.core.WF) :
    Yields (fun _ => Starts s) OutOfContexts (startPendingReadsUpTo turns : StepM C Unit) s := by
  induction turns generalizing s with
  | zero => exact .pure (.refl s)
  | succ turns ih =>
    show Yields _ _ (if s.core.role ≠ .leader ∨ (!s.core.currentLeaderNoopIsCommitted) = true ∨
      s.core.readRound.isSome = true then _ else _) s
    split
    · exact .pure (.refl s)
    cases s.core.pendingReads with
    | nil => exact .pure (.refl s)
    | cons readId rest =>
      have dequeued : Starts s ⟨{ s.core with pendingReads := rest }, s.effects⟩ :=
        ⟨⟨_, _, _, rfl⟩, fun _ => rfl⟩
      refine Yields.bind (Q := fun _ => Starts s) (.of_run (update_run _ s) dequeued) fun _ t h => ?_
      have started := startReadRoundThen_yields (h.core.wf wf) readId fun s wf => @ih s wf
      exact started.mono fun _ _ h' => h.trans h'

theorem startPendingReads_yields (wf : s.core.WF) :
    Yields (fun _ => Starts s) OutOfContexts (startPendingReads : StepM C Unit) s :=
  startPendingReadsUpTo_yields _ wf

/-- No pending read can be started. -/
theorem startPendingReads_idle (idle : ¬ s.core.StartsRead) :
    (startPendingReads : StepM C Unit) s = (.ok (), s) := by
  show (startPendingReadsUpTo s.core.pendingReads.length : StepM C Unit) s = _
  cases queue : s.core.pendingReads with
  | nil => rfl
  | cons readId rest =>
    show (if s.core.role ≠ .leader ∨ (!s.core.currentLeaderNoopIsCommitted) = true ∨
      s.core.readRound.isSome = true then _ else _ : StepM C Unit) s = _
    rw [if_pos]
    · rfl
    · by_contra ready
      simp only [not_or, ne_eq, not_not, Bool.not_eq_true', Bool.not_eq_false,
        Option.not_isSome_iff_eq_none] at ready
      exact idle ⟨ready.1, ready.2.1, ready.2.2, by simp [queue]⟩

/-- The round, once the follower has acknowledged its context. -/
def RaftCore.acknowledgedRound (c : RaftCore C) (round : ReadRound) (from_ : NodeId) : ReadRound :=
  if (round.acknowledge from_).hasQuorum ∧ (round.acknowledge from_).safeIndex = none then
    (round.acknowledge from_).setSafeIndex c.hardState.commitIndex
  else round.acknowledge from_

/-- The acknowledgement of the context releases the round. -/
def RaftCore.ReleasesOn (c : RaftCore C) (from_ : NodeId) (context : Bytes) : Prop :=
  ∃ round, c.readRound = some round ∧ round.context = context ∧
    (c.acknowledgedRound round from_).Releases c.appliedIndex

/-- An acknowledged context answers reads only if it releases the round. -/
theorem acknowledgeReadContext_yields (wf : s.core.WF) (from_ : NodeId) (context : Bytes) :
    Yields (fun _ s' => ReadsOnly s s' ∧
      (¬ s.core.ReleasesOn from_ context → readies s'.effects = readies s.effects))
      OutOfContexts (acknowledgeReadContext from_ context : StepM C Unit) s := by
  refine .of_same (bind_run_ok (core_run _) _) ?_
  cases found : s.core.readRound with
  | none => exact .pure ⟨.refl s, fun _ => rfl⟩
  | some round =>
    dsimp only
    split
    · exact .pure ⟨.refl s, fun _ => rfl⟩
    next same =>
    have same : round.context = context := by simpa using same
    let t : Ctx C := ⟨{ s.core with readRound := some (s.core.acknowledgedRound round from_) }, s.effects⟩
    have only : ReadsOnly s t := ⟨_, _, _, rfl⟩
    refine Yields.bind (Q := fun _ u => u = t) (.of_run (update_run _ s) rfl) ?_
    rintro _ _ rfl
    rcases releaseReadRound_cases t with ⟨-, run⟩ | ⟨acked, index, is, safe, applied, run⟩
    · refine .of_same (bind_run_ok run _) (.of_run (startPendingReads_idle ?_) ⟨only, fun _ => rfl⟩)
      exact fun starts => by simpa [t] using starts.idle
    · have released : s.core.ReleasesOn from_ context := by
        obtain rfl := Option.some.inj is
        exact ⟨round, found, same, index, safe, applied⟩
      refine .of_same (bind_run_ok run _) ?_
      have only' : ReadsOnly s ⟨{ t.core with readRound := none },
          t.effects ++ acked.requests.map fun readId => .readReady readId index⟩ := ⟨_, _, _, rfl⟩
      exact (startPendingReads_yields (only'.wf wf)).mono fun _ _ h =>
        ⟨only'.trans h.core, fun quiet => absurd released quiet⟩

/-! ## The condition -/

/-- The leader finds an index to commit. -/
def FindsCommit (c : RaftCore C) : Prop := c.pendingPersist = none ∧
  ∃ i, quorumCommit c.log c.progress c.config.quorum c.hardState.currentTerm = .ok (some i)

/-- How many chunks are read for the follower. -/
def chunksAsked (c : RaftCore C) (to_ : NodeId) : Nat := if asksChunk c to_ then 1 else 0

/-- What comes after an acknowledgement that moved the follower on works: the follower can be
sent what is next for it, the commit index can be computed, and there are ids. -/
structure AckCompletes (c : RaftCore C) (to_ : NodeId) : Prop where
  known : ∀ p, c.progress.get to_ = some p → p.canSend = true → p.nextIndex ≤ c.log.lastIndex + 1
  asks : asksChunk c to_ = true → Room c
  computed : c.pendingPersist = none → ∃ result,
    quorumCommit c.log c.progress c.config.quorum c.hardState.currentTerm = .ok result
  commits : FindsCommit c → c.nextEffectSequence + chunksAsked c to_ < u64Max
  applies : ¬ FindsCommit c → ApplyFits c (chunksAsked c to_)

/-- What comes after an apply works. -/
structure ApplyCompletes (c : RaftCore C) : Prop where
  applies : ApplyFits c 0
  builds : c.config.snapshotAfterEntries ≤ c.appliedIndex - c.snapshotIndex →
    c.localSnapshot = .idle → c.snapshotIndex < c.appliedIndex →
    Room c ∧ (ApplyOwed c → c.nextEffectSequence + 1 < u64Max)

/-- The core after entries were applied. -/
def RaftCore.appliedThrough (c : RaftCore C) (through : Nat) : RaftCore C :=
  { c with appliedIndex := through, pendingApply := none }

/-- The applied entries release the round, or a pending read that is answered at once. -/
def RaftCore.ReleasesAt (c : RaftCore C) (through : Nat) : Prop :=
  (∃ round, c.readRound = some round ∧ round.Releases through) ∨
    c.StartsRead ∧ c.Alone ∧ c.hardState.commitIndex ≤ through

/-- When a leader answers reads, what the handler does afterwards works. -/
def AnswersReach (c : RaftCore C) (event : Event C) : Prop :=
  c.stopped = false → c.role = .leader → match event with
  | .messageReceived envelope => match envelope.message with
    | .appendEntriesResponse term true matchIndex _ (some context) =>
      validateEnvelope c envelope = .ok () → term = c.hardState.currentTerm →
      c.ReleasesOn envelope.from_ context → ∀ p, c.progress.get envelope.from_ = some p →
      ∀ q changed,
        (p.acknowledged (min matchIndex c.log.lastIndex) : Outcome StepError _) = .ok (q, changed) →
        if changed then
          AckCompletes { c with progress := c.progress.insert envelope.from_ q } envelope.from_
        else ApplyFits c 0
    | _ => True
  | .effectCompleted id (.applied through) => c.pendingApply = some ⟨id, through⟩ →
      c.ReleasesAt through → ApplyCompletes (c.appliedThrough through)
  | _ => True

/-! ## What comes after the answers -/

theorem ApplyFits.congr {count : Nat} (fits : ApplyFits c count)
    (persist : d.pendingPersist = c.pendingPersist) (apply : d.pendingApply = c.pendingApply)
    (applied : d.appliedIndex = c.appliedIndex) (state : d.hardState = c.hardState)
    (log : d.log = c.log) (counter : d.nextEffectSequence ≤ c.nextEffectSequence + count) :
    ApplyFits d 0 := by
  intro owed
  rw [ApplyOwed, ApplyDue, persist, apply, applied, state] at owed
  rw [applied, state, log]
  obtain ⟨below, held, room⟩ := fits owed
  exact ⟨below, held, Nat.lt_of_le_of_lt counter room⟩

/-- An apply that fits is emitted. -/
theorem emitApply_returns (wf : s.core.WF) (fits : ApplyFits s.core 0) : ∃ s',
    (emitApplyIfNeeded : StepM C Unit) s = (.ok (), s') ∧
    ((¬ ApplyOwed s.core ∧ s' = s) ∨ ApplyOwed s.core ∧ ∃ entries, s' = ⟨{ s.core with
      nextEffectSequence := s.core.nextEffectSequence + 1
      pendingApply := some ⟨s.allocated, s.core.hardState.commitIndex⟩ },
      s.effects ++ [.apply s.allocated entries]⟩) := by
  by_cases owed : ApplyOwed s.core
  · obtain ⟨below, held, room⟩ := fits owed
    rcases emitApply_cases wf owed.1 with ⟨idle, -⟩ | ⟨-, -, -, entries, run⟩ | ⟨-, unfit, -⟩
    · exact absurd owed.2 idle
    · exact ⟨_, run, .inr ⟨owed, entries, rfl⟩⟩
    · exact absurd ⟨below, held, room⟩ unfit
  · exact ⟨s, emitApply_idle owed, .inl ⟨owed, rfl⟩⟩

/-- What `replicate_to` writes. -/
def SentTo (s : Ctx C) (to_ : NodeId) (s' : Ctx C) : Prop := ∃ progress senders sequence reads,
  s'.core = { s.core with
    progress := progress, snapshotSenders := senders, nextEffectSequence := sequence
    pendingSnapshotReads := reads } ∧
  sequence ≤ s.core.nextEffectSequence + chunksAsked s.core to_

theorem replicateTo_returns (wf : s.core.WF) {to_ : NodeId} {p : Progress}
    (found : s.core.progress.get to_ = some p)
    (known : p.canSend = true → p.nextIndex ≤ s.core.log.lastIndex + 1)
    (asks : asksChunk s.core to_ = true → Room s.core) : ∃ s',
    (replicateTo to_ : StepM C Unit) s = (.ok (), s') ∧ SentTo s to_ s' := by
  have turn := replicateTo_turn wf found
  have asked : p.canSend = true → p.nextIndex ≤ s.core.log.snapshotIndex →
      to_ ∉ s.core.pendingSnapshotReads.values → asksChunk s.core to_ = true := by
    intro free compacted idle
    simp [asksChunk, found, free, compacted, idle]
  generalize (replicateTo to_ : StepM C Unit) s = run at turn
  cases turn with
  | full | waits | appends => exact ⟨_, rfl, _, _, _, _, rfl, Nat.le_add_right _ _⟩
  | reads free compacted idle room senders sender =>
    refine ⟨_, rfl, _, _, _, _, rfl, ?_⟩
    rw [chunksAsked, if_pos (asked free compacted idle)]
  | exhausted free compacted idle full => exact absurd (asks (asked free compacted idle)) full
  | missing free beyond => exact absurd (known free) (Nat.not_le.mpr beyond)

theorem quorumCommit_congr {log : RaftLog C} {progress progress' : BTreeMap NodeId Progress}
    (matched : progress'.values.map (·.matchIndex) = progress.values.map (·.matchIndex))
    (quorum term : Nat) :
    quorumCommit log progress' quorum term = quorumCommit log progress quorum term := by
  unfold quorumCommit
  rw [matched]

theorem advanceCommit_returns (wf : s.core.WF) (computed : s.core.pendingPersist = none →
      ∃ result, quorumCommit s.core.log s.core.progress s.core.config.quorum
        s.core.hardState.currentTerm = .ok result)
    (room : FindsCommit s.core → Room s.core) : ∃ s',
    (advanceCommit : StepM C Unit) s = (.ok (), s') ∧
    (FindsCommit s.core ∧ s'.core.pendingPersist ≠ none ∨ ¬ FindsCommit s.core ∧ s' = s) := by
  rw [advanceCommit, bind_run_ok (core_run _)]
  split
  · next waits =>
    exact ⟨s, rfl, .inr ⟨fun h => Option.isSome_iff_ne_none.mp waits h.1, rfl⟩⟩
  next free =>
  have free : s.core.pendingPersist = none := by simpa using free
  obtain ⟨result, found⟩ := computed free
  rw [found]
  cases result with
  | none =>
    refine ⟨s, rfl, .inr ⟨?_, rfl⟩⟩
    rintro ⟨-, i, other⟩
    simp [found] at other
  | some commit =>
    obtain ⟨-, -, fresh, term⟩ := quorumCommit_eq_some.mp found
    have held := (wf.log.term_isOk.mp ⟨_, term⟩).2
    have commits : FindsCommit s.core := ⟨free, commit, found⟩
    have moved : s.core.log.commitTo commit = .ok { s.core.log with committed := commit } := by
      rw [RaftLog.commitTo, if_neg (by omega), if_pos fresh]
    show ∃ s', (liftLog (s.core.log.commitTo commit) >>= _ : StepM C Unit) s = _ ∧ _
    rw [moved]
    let committed : Ctx C := ⟨{ s.core with
      log := { s.core.log with committed := commit }
      hardState := { s.core.hardState with commitIndex := commit } }, s.effects⟩
    show ∃ s', (queuePersist _ .applyCommitted : StepM C Unit) committed = _ ∧ _
    rw [queuePersist_run (by exact room commits)]
    exact ⟨_, rfl, .inl ⟨commits, Option.some_ne_none _⟩⟩

/-- After an acknowledgement that moved the follower on nothing fails. -/
theorem ackCompletes_returns (wf : s.core.WF) {to_ : NodeId} (found : (s.core.progress.get to_).isSome)
    (h : AckCompletes s.core to_) {cause : Cause C} (may : cause.MayReplicate)
    (leader : s.core.role = .leader) : ∃ s',
    (do replicateTo to_; advanceCommit; emitApplyIfNeeded : StepM C Unit) s = (.ok (), s') := by
  obtain ⟨p, found⟩ := Option.isSome_iff_exists.mp found
  obtain ⟨t, sent, progress, senders, sequence, reads, core, counter⟩ :=
    replicateTo_returns wf found (h.known p found) h.asks
  have rest : FollowUps cause s t := (replicateTo_leads to_ may (.inl leader) wf).reaches sent
  have frame := rest.frame
  have wf' := wf.followUps rest
  have matched := frame.matched
  have same : quorumCommit t.core.log t.core.progress t.core.config.quorum
      t.core.hardState.currentTerm = quorumCommit s.core.log s.core.progress s.core.config.quorum
      s.core.hardState.currentTerm := by
    rw [quorumCommit_congr matched, core]
  have persist : t.core.pendingPersist = s.core.pendingPersist := by rw [core]
  have commits : FindsCommit t.core ↔ FindsCommit s.core := by rw [FindsCommit, FindsCommit, same, persist]
  have bound : t.core.nextEffectSequence ≤ s.core.nextEffectSequence + chunksAsked s.core to_ := by
    rw [core]
    exact counter
  obtain ⟨u, advanced, ends⟩ := advanceCommit_returns wf'
    (fun free => same ▸ h.computed (persist ▸ free))
    fun found => Nat.lt_of_le_of_lt bound (h.commits (commits.mp found))
  rw [bind_run_ok sent, bind_run_ok advanced]
  rcases ends with ⟨-, waits⟩ | ⟨idle, rfl⟩
  · exact ⟨u, emitApply_idle fun owed => waits owed.1⟩
  · have fits : ApplyFits u.core 0 := (h.applies fun found => idle (commits.mpr found)).congr
      persist (by rw [core]) (by rw [core]) (by rw [core]) (by rw [core]) bound
    obtain ⟨v, run, -⟩ := emitApply_returns wf' fits
    exact ⟨v, run⟩

/-! ## A step that fails has answered nothing -/

/-- Nothing was answered, unless the context counter ran out. -/
def Unanswered (_ : StepError) (s : Ctx C) : Prop :=
  s.core.nextReadContext < u64Max → readies s.effects = []

/-- What comes after the handler does not fail, or nothing was answered. -/
def Kept (s : Ctx C) : Prop := readies s.effects = [] ∨ ¬ ApplyOwed s.core

theorem OutOfContexts.unanswered {e : StepError} (h : OutOfContexts e s) : Unanswered e s :=
  fun room => absurd room h

/-- Programs that spare reads, run before anything was answered. -/
theorem Spares.yields {α : Type} {m : StepM C α} (h : Spares m) (quiet : readies s.effects = []) :
    Yields (fun _ s' => readies s'.effects = []) Unanswered m s :=
  .of_leaves h (fun _ _ same => same.trans quiet) fun _ _ same _ => same.trans quiet

theorem Kept.yields (kept : Kept s) :
    Yields (fun _ _ => True) Unanswered (emitApplyIfNeeded : StepM C Unit) s := by
  rcases kept with quiet | idle
  · exact (spares_emitApplyIfNeeded.yields quiet).mono fun _ _ _ => trivial
  · exact .of_run (emitApply_idle idle) trivial

/-- Starting reads answers nothing, or nothing is left to apply. -/
theorem Starts.kept (h : Starts s s') (quiet : readies s.effects = []) : Kept s' := by
  by_cases settled : s.core.hardState.commitIndex ≤ s.core.appliedIndex
  · obtain ⟨counter, round, pending, core⟩ := h.core
    refine .inr fun owed => ?_
    rw [core] at owed
    exact absurd owed.2.2 (Nat.not_lt.mpr settled)
  · exact .inl ((h.quiet fun alone => settled alone.2).trans quiet)

theorem startPendingReads_kept (wf : s.core.WF) (quiet : readies s.effects = []) :
    Yields (fun _ s' => Kept s') Unanswered (startPendingReads : StepM C Unit) s :=
  (startPendingReads_yields wf).imp (fun _ _ h => h.kept quiet) fun _ _ h => h.unanswered

theorem FollowUp.unanswered {cause : Cause C} (hf : FollowUp cause s s') (not : ¬ cause.MayRelease) :
    readies s'.effects = readies s.effects := by
  cases hf with
  | readReleased round index found safe applied may => exact absurd may not
  | readStarted readId rest =>
    rcases Ctx.roundStarted_effects ⟨{ s.core with pendingReads := rest }, s.effects⟩ readId with
      same | ⟨context, same⟩
    · rw [same]
    · rw [same, readies_append]
      exact (congrArg (_ ++ ·) (readies_toPeers _ _)).trans (List.append_nil _)
  | _ => simp [Ctx.queued, readies]

theorem FollowUps.unanswered {cause : Cause C} (rest : FollowUps cause s s')
    (not : ¬ cause.MayRelease) : readies s'.effects = readies s.effects := by
  induction rest with
  | refl => rfl
  | tail _ hstep ih => exact (hstep.unanswered not).trans ih

theorem MessageAct.unanswered {from_ : NodeId} {m : Message C} (act : MessageAct c from_ m s) :
    readies s.effects = [] := by
  cases act <;> simp [Ctx.queued, readies]

/-- What the handler of an event does first answers no read. -/
theorem Act.unanswered [Sha256] (act : Act c event s) : readies s.effects = [] := by
  cases act with
  | message envelope members s known mine act => exact act.unanswered
  | completed id outcome s act => exact act.sameReads.quiet
  | preVoteStarted => exact readies_toPeers _ _
  | readStarted readId =>
    have started := Ctx.roundStarted_effects ⟨c, []⟩ readId
    rcases started with same | ⟨context, same⟩
    · rw [same]
      rfl
    · rw [same]
      exact readies_toPeers _ _
  | _ => simp [Ctx.queued, readies]

theorem Handled.unanswered [Sha256] {cause : Cause C} (not : ¬ cause.MayRelease) {id : EffectId}
    {outcome : EffectOutcome} {m : StepM C Bool}
    (h : Handled cause c id outcome (m ⟨c, []⟩)) :
    Yields (fun b s' => b = true ∧ readies s'.effects = [] ∨ b = false ∧ s' = ⟨c, []⟩) Unanswered
      m ⟨c, []⟩ := by
  unfold Yields
  generalize m ⟨c, []⟩ = run at h
  cases h with
  | passed => exact .inr ⟨rfl, rfl⟩
  | panicked => trivial
  | halted => exact fun _ => rfl
  | acted s s' act rest => exact .inl ⟨rfl, (rest.unanswered not).trans act.sameReads.quiet⟩
  | failed s s' e act rest => exact fun _ => (rest.unanswered not).trans act.sameReads.quiet
  | stuck e s stuck => cases stuck <;> exact fun _ => rfl

/-- A completion that the snapshot pipelines pass on is one of an apply or a persist. -/
theorem onEffectCompleted_yields [Sha256] (wf : c.WF) {id : EffectId} {outcome : EffectOutcome}
    (applies : ∀ pending, c.pendingApply = some pending →
      Yields (fun _ s => Kept s) Unanswered (onApplyCompletion id outcome pending) ⟨c, []⟩)
    (persists : c.pendingApply = none →
      Yields (fun _ s => Kept s) Unanswered (onPersistCompletion id outcome) ⟨c, []⟩) :
    Yields (fun _ s => Kept s) Unanswered (onEffectCompleted id outcome) ⟨c, []⟩ := by
  have not : ¬ Cause.MayRelease ⟨c, (.snapshotRequested : Event C)⟩ := fun h => h
  show Yields _ _ (if id.generation ≠ c.config.generation then _ else _ : StepM C Unit) _
  split
  · exact .raise fun _ => rfl
  refine Yields.bind (Handled.unanswered not (onOutgoingSnapshotCompletion_handled wf)) ?_
  rintro _ s (⟨rfl, quiet⟩ | ⟨rfl, rfl⟩)
  · exact .pure (.inl quiet)
  refine Yields.bind (Handled.unanswered not (onIncomingSnapshotCompletion_handled wf)) ?_
  rintro _ s (⟨rfl, quiet⟩ | ⟨rfl, rfl⟩)
  · exact .pure (.inl quiet)
  refine Yields.bind (Handled.unanswered not (onSnapshotCompletion_handled wf)) ?_
  rintro _ s (⟨rfl, quiet⟩ | ⟨rfl, rfl⟩)
  · exact .pure (.inl quiet)
  refine .of_same (bind_run_ok (core_run _) _) ?_
  cases found : c.pendingApply with
  | some pending => exact applies pending found
  | none => exact persists found

theorem process_completed_yields [Sha256] {id : EffectId} {outcome : EffectOutcome}
    (h : Yields (fun _ s => Kept s) Unanswered (onEffectCompleted id outcome) ⟨c, []⟩) :
    Yields (fun _ _ => True) Unanswered (process (.effectCompleted id outcome)) ⟨c, []⟩ := by
  refine Yields.bind (Q := fun _ s => Kept s) ?_ fun _ s kept => kept.yields
  show Yields _ _ (liftPure (c.validateCompletion id outcome) >>= _ : StepM C Unit) _
  cases c.validateCompletion id outcome with
  | error f => cases f with
    | panic => trivial
    | raise e => exact fun _ => rfl
  | ok u =>
    have recorded := h.bind (f := fun _ => update fun c => c.recordCompletion id outcome)
      fun _ s kept => Yields.of_run (Q := fun _ s => Kept s) (update_run _ s) kept
    exact recorded

/-- A snapshot that is asked for after an apply gets an id. -/
theorem maybeRequestLocalSnapshot_returns (idle : ¬ ApplyOwed s.core)
    (builds : s.core.config.snapshotAfterEntries ≤ s.core.appliedIndex - s.core.snapshotIndex →
      s.core.localSnapshot = .idle → s.core.snapshotIndex < s.core.appliedIndex → Room s.core) :
    ∃ s', (maybeRequestLocalSnapshot : StepM C Unit) s = (.ok (), s') ∧ ¬ ApplyOwed s'.core := by
  show ∃ s', (if s.core.config.snapshotAfterEntries ≤ s.core.appliedIndex - s.core.snapshotIndex then
    requestLocalSnapshot else pure () : StepM C Unit) s = _ ∧ _
  split
  · next due =>
    show ∃ s', (if s.core.localSnapshot ≠ .idle ∨ s.core.appliedIndex ≤ s.core.snapshotIndex then
      pure () else _ : StepM C Unit) s = _ ∧ _
    split
    · exact ⟨s, rfl, idle⟩
    next free =>
    simp only [not_or, ne_eq, not_not, Nat.not_le] at free
    have room := builds due free.1 free.2
    show ∃ s', (nextEffectId >>= _ : StepM C Unit) s = _ ∧ _
    rw [bind_run_ok (nextEffectId_run room)]
    exact ⟨_, rfl, idle⟩
  · exact ⟨s, rfl, idle⟩

/-- What comes after the reads that an apply releases works. -/
theorem applyCompletes_returns (wf : s.core.WF) (h : ApplyCompletes s.core) : ∃ s',
    (do emitApplyIfNeeded; maybeRequestLocalSnapshot : StepM C Unit) s = (.ok (), s') ∧
      ¬ ApplyOwed s'.core := by
  obtain ⟨t, emitted, ⟨idle, rfl⟩ | ⟨owed, entries, rfl⟩⟩ := emitApply_returns wf h.applies
  · rw [bind_run_ok emitted]
    exact maybeRequestLocalSnapshot_returns idle fun due free fresh => (h.builds due free fresh).1
  · rw [bind_run_ok emitted]
    refine maybeRequestLocalSnapshot_returns ?_ fun due free fresh => (h.builds due free fresh).2 owed
    exact fun again => Option.some_ne_none _ again.2.1

/-- After an apply the reads that it releases are answered, and the rest works. -/
theorem onApplied_yields (wf : c.WF) {pending : PendingApply} (found : c.pendingApply = some pending)
    (reach : c.ReleasesAt pending.through → ApplyCompletes (c.appliedThrough pending.through)) :
    Yields (fun _ s => Kept s) Unanswered (do
      finishApply pending.through
      releaseReadRound
      startPendingReads
      emitApplyIfNeeded
      maybeRequestLocalSnapshot : StepM C Unit)
      ⟨{ c with pendingApply := none, appliedIndex := pending.through }, []⟩ := by
  let t : Ctx C := Ctx.answered ⟨{ c with pendingApply := none, appliedIndex := pending.through }, []⟩
    (fun index => index ≤ pending.through) .applied
  have wf' : t.core.WF :=
    { wf with applied_le := wf.applying pending found, applying := by rintro p ⟨⟩ }
  have quiet : readies t.effects = [] := readies_eq_nil (by simp [t, Ctx.answered])
  refine Yields.bind (Q := fun _ s => s = t) (.of_run rfl rfl) ?_
  rintro _ _ rfl
  by_cases releases : c.ReleasesAt pending.through
  · have goesOn := reach releases
    have moves : ∀ u, ReadsOnly t u → ApplyCompletes u.core := by
      rintro u ⟨counter, round, reads, core⟩
      rw [core]
      exact ⟨goesOn.applies, goesOn.builds⟩
    obtain ⟨u, run, only⟩ := releaseReadRound_only t
    refine .of_same (bind_run_ok run _) ?_
    have started : Yields (fun _ v => ReadsOnly t v) Unanswered (startPendingReads : StepM C Unit) u :=
      (startPendingReads_yields (only.wf wf')).imp (fun _ _ h => only.trans h.core)
        fun _ _ h => h.unanswered
    refine started.bind fun _ v only' => ?_
    obtain ⟨w, ran, idle⟩ := applyCompletes_returns (only'.wf wf') (moves v only')
    exact .of_run ran (.inr idle)
  · rcases releaseReadRound_cases t with ⟨-, run⟩ | ⟨round, index, is, safe, applied, -⟩
    · refine .of_same (bind_run_ok run _) ?_
      have started : Yields (fun _ s => readies s.effects = []) Unanswered
          (startPendingReads : StepM C Unit) t := by
        by_cases starts : t.core.StartsRead
        · refine (startPendingReads_yields wf').imp (fun _ u h => ?_) fun _ _ h => h.unanswered
          refine (h.quiet fun alone => releases (.inr ⟨?_, alone⟩)).trans quiet
          exact ⟨starts.leader, starts.noop, starts.idle, starts.queued⟩
        · exact .of_run (startPendingReads_idle starts) quiet
      refine started.bind fun _ u quiet => ?_
      refine (spares_emitApplyIfNeeded.yields quiet).bind fun _ v quiet => ?_
      have asks : Spares (maybeRequestLocalSnapshot : StepM C Unit) :=
        spares_core.seq fun _ => .ite spares_requestLocalSnapshot (.pure trivial)
      exact (asks.yields quiet).mono fun _ _ h => .inl h
    · exact absurd (.inl ⟨round, is, index, safe, applied⟩) releases

theorem onApplyCompletion_yields (wf : c.WF) {pending : PendingApply} {id : EffectId}
    {outcome : EffectOutcome} (found : c.pendingApply = some pending)
    (reach : pending.id = id → outcome = .applied pending.through →
      c.ReleasesAt pending.through → ApplyCompletes (c.appliedThrough pending.through)) :
    Yields (fun _ s => Kept s) Unanswered (onApplyCompletion id outcome pending) ⟨c, []⟩ := by
  show Yields _ _ (if pending.id ≠ id then _ else _ : StepM C Unit)
    ⟨{ c with pendingApply := none }, []⟩
  split
  · exact fun _ => rfl
  next mine =>
  have mine : pending.id = id := by simpa using mine
  cases outcome with
  | applied through =>
    show Yields _ _ (if through = pending.through then _ else _ : StepM C Unit) _
    split
    · next is =>
      subst is
      exact onApplied_yields wf found (reach mine rfl)
    · exact fun _ => rfl
  | _ => exact fun _ => rfl

/-- A program that spares reads, run before anything was answered, with its follow-ups. -/
theorem Spares.reaching {cause : Cause C} {m : StepM C Unit} (h : Spares m)
    (leads : Leads (FollowUp cause) m s) (quiet : readies s.effects = []) :
    Yields (fun _ s' => readies s'.effects = [] ∧ FollowUps cause s s') Unanswered m s := by
  have ends := h.yields quiet
  unfold Yields at ends ⊢
  cases run : m s with
  | mk r s' =>
    rw [run] at ends
    cases r with
    | ok u => exact ⟨ends, leads.reaches run⟩
    | error f => cases f with
      | panic => trivial
      | raise e => exact ends

/-- What a durable proposal or commit of a leader lets start. -/
theorem continueWith_yields (wf : c.WF) (leader : c.role = .leader) {id : EffectId}
    {stableThrough : Option Nat} {continuation : PersistContinuation}
    (found : c.pendingPersist = some ⟨id, stableThrough, continuation⟩)
    (continues : continuation = .replicateProposal ∨ continuation = .applyCommitted) :
    Yields (fun _ s => Kept s) Unanswered (continueWith continuation)
      ⟨c.stabilized stableThrough, []⟩ := by
  have wf' := wf.stabilized stableThrough
  rcases continues with rfl | rfl
  · have may : Cause.MayCommit ⟨c, .effectCompleted id .persisted⟩ := ⟨stableThrough, .inl found⟩
    have leading : (c.stabilized stableThrough).role = .leader := leader
    refine Yields.bind (spares_replicateAll.reaching
      (replicateAll_leads (.inl may) (.inl leading) wf') rfl) ?_
    rintro _ s ⟨quiet, rest⟩
    have kept := FollowUps.followers rest
    have leading' : s.core.role = .leader := rest.frame.role.trans leading
    have enough : s.core.config.quorum ≤ s.core.progress.keys.length + 1 :=
      quorum_le _ ((wf'.followUps rest).leads leading')
    refine Yields.bind (spares_advanceCommit.reaching
      (advanceCommit_leads may (.inl leading') (wf'.followUps rest) enough) quiet) ?_
    rintro _ t ⟨quiet', rest'⟩
    exact startPendingReads_kept ((wf'.followUps rest).followUps rest') quiet'
  · refine Yields.bind (spares_emitApplyIfNeeded.reaching
      (@emitApplyIfNeeded_leads C ⟨c, .effectCompleted id .persisted⟩ _ wf') rfl) ?_
    rintro _ s ⟨quiet, rest⟩
    exact startPendingReads_kept (wf'.followUps rest) quiet

theorem onPersistCompletion_yields (wf : c.WF) (leader : c.role = .leader) {id : EffectId}
    {stableThrough : Option Nat} {continuation : PersistContinuation}
    (found : c.pendingPersist = some ⟨id, stableThrough, continuation⟩)
    (continues : continuation = .replicateProposal ∨ continuation = .applyCommitted) :
    Yields (fun _ s => Kept s) Unanswered (onPersistCompletion id .persisted) ⟨c, []⟩ := by
  have continued := continueWith_yields wf leader found continues
  refine .of_same (bind_run_ok (core_run _) _) ?_
  rw [found]
  show Yields _ _ (if id ≠ id then _ else _ : StepM C Unit) _
  rw [if_neg (by simp)]
  cases stableThrough with
  | none => exact continued
  | some index =>
    show Yields _ _ (liftLog (c.log.markStable index) >>= _ : StepM C Unit) _
    cases marked : c.log.markStable index with
    | ok log =>
      obtain rfl := RaftLog.markStable_eq_ok marked
      exact continued
    | error f => cases f with
      | panic => trivial
      | raise e => exact fun _ => rfl

/-- A read is answered at once only where nothing is left to apply. -/
theorem onRead_yields (wf : c.WF) (readId : ReadId) :
    Yields (fun _ s => Kept s) Unanswered (onRead readId) ⟨c, []⟩ := by
  show Yields _ _ (if c.role ≠ .leader then _ else _ : StepM C Unit) _
  split
  · exact .pure (.inl rfl)
  split
  · exact .pure (.inl rfl)
  split
  · exact .of_run (update_run _ _) (.inl rfl)
  · cases c.readRound with
    | some round => exact .of_run (update_run _ _) (.inl rfl)
    | none =>
      have started := startReadRoundThen_yields (s := ⟨c, []⟩) wf readId
        fun s wf => startPendingReads_yields wf
      exact started.imp (fun _ _ h => h.kept rfl) fun _ _ h => h.unanswered

/-- Programs that spare reads, with the apply after them. -/
theorem Spares.ends {m : StepM C Unit} (h : Spares m) (quiet : readies s.effects = []) :
    Yields (fun _ _ => True) Unanswered (do m; emitApplyIfNeeded : StepM C Unit) s := by
  have both : Spares (do m; emitApplyIfNeeded : StepM C Unit) :=
    h.seq fun _ => spares_emitApplyIfNeeded
  exact (both.yields quiet).mono fun _ _ _ => trivial

/-- What comes after an acknowledgement, once the follower's progress is written. -/
theorem afterResponse_yields (wf : s.core.WF) (leader : s.core.role = .leader)
    (quiet : readies s.effects = []) {cause : Cause C} (may : cause.MayReplicate) {from_ : NodeId}
    {context : Bytes} {changed : Bool} (known : (s.core.progress.get from_).isSome)
    (reach : s.core.ReleasesOn from_ context →
      if changed then AckCompletes s.core from_ else ApplyFits s.core 0) :
    Yields (fun _ _ => True) Unanswered (do
      afterResponse from_ true (some context) changed
      emitApplyIfNeeded : StepM C Unit) s := by
  have acknowledged : Yields (fun _ t => ReadsOnly s t ∧ (¬ s.core.ReleasesOn from_ context →
      readies t.effects = readies s.effects)) Unanswered
      (acknowledgeReadContext from_ context : StepM C Unit) s :=
    (acknowledgeReadContext_yields wf from_ context).imp (fun _ _ h => h) fun _ _ h => h.unanswered
  refine .of_same (bind_assoc_run (acknowledgeReadContext from_ context) (fun _ =>
    if changed then (do replicateTo from_; advanceCommit) else pure ()) (fun _ => emitApplyIfNeeded) s) ?_
  refine acknowledged.bind ?_
  rintro _ t ⟨only, kept⟩
  have wf' := only.wf wf
  by_cases released : s.core.ReleasesOn from_ context
  · have reach := reach released
    obtain ⟨counter, round, pending, core⟩ := only
    cases changed with
    | true =>
      rw [if_pos rfl] at reach
      have moves : AckCompletes t.core from_ := by
        rw [core]
        exact ⟨reach.known, reach.asks, reach.computed, reach.commits, reach.applies⟩
      obtain ⟨u, run⟩ := ackCompletes_returns wf' (by rw [core]; exact known) moves may
        (by rw [core]; exact leader)
      exact .of_run ((bind_assoc_run _ _ _ _).trans run) trivial
    | false =>
      rw [if_neg (by simp)] at reach
      have fits : ApplyFits t.core 0 := by
        rw [core]
        exact reach
      obtain ⟨u, run, -⟩ := emitApply_returns wf' fits
      exact .of_run run trivial
  · refine Spares.ends ?_ ((kept released).trans quiet)
    cases changed with
    | true => exact (spares_replicateTo from_).seq fun _ => spares_advanceCommit
    | false => exact .pure trivial

/-- The handler of an append response, and the apply after it. -/
theorem onAppendEntriesResponse_yields (wf : c.WF) (leader : c.role = .leader) {envelope : Envelope C}
    {term matchIndex : Nat} {conflict : Option ConflictHint} {context : Bytes}
    (message : envelope.message = .appendEntriesResponse term true matchIndex conflict (some context))
    (reach : term = c.hardState.currentTerm → c.ReleasesOn envelope.from_ context →
      ∀ p, c.progress.get envelope.from_ = some p → ∀ q changed,
        (p.acknowledged (min matchIndex c.log.lastIndex) : Outcome StepError _) = .ok (q, changed) →
        if changed then
          AckCompletes { c with progress := c.progress.insert envelope.from_ q } envelope.from_
        else ApplyFits c 0) :
    Yields (fun _ _ => True) Unanswered (do
      onAppendEntriesResponse envelope.from_ term true matchIndex conflict (some context)
      emitApplyIfNeeded : StepM C Unit) ⟨c, []⟩ := by
  by_cases newer : c.hardState.currentTerm < term
  · show Yields _ _ ((if c.hardState.currentTerm < term then _ else _ : StepM C Unit) >>= _) _
    rw [if_pos newer]
    exact Spares.ends (spares_beginTermTransition _ _) rfl
  by_cases stale : c.role ≠ .leader ∨ term ≠ c.hardState.currentTerm
  · show Yields _ _ ((if c.hardState.currentTerm < term then _ else if c.role ≠ .leader ∨
      term ≠ c.hardState.currentTerm then _ else _ : StepM C Unit) >>= _) _
    rw [if_neg newer, if_pos stale]
    exact Spares.ends (.pure trivial) rfl
  have current : term = c.hardState.currentTerm := by simpa [leader] using stale
  cases found : c.progress.get envelope.from_ with
  | none =>
    show Yields _ _ ((if c.hardState.currentTerm < term then _ else if c.role ≠ .leader ∨
      term ≠ c.hardState.currentTerm then _ else _ : StepM C Unit) >>= _) _
    rw [if_neg newer, if_neg stale]
    simp only [if_true, found]
    exact Spares.ends (.pure trivial) rfl
  | some p =>
    have last := wf.log.lastIndex_lt
    obtain ⟨positive, below⟩ := wf.progress _ _ found
    obtain ⟨q, changed, moved, matched, next⟩ := Progress.acknowledged_cases (ε := StepError) p
      (show min matchIndex c.log.lastIndex < u64Max by omega) positive
    have run : onAppendEntriesResponse envelope.from_ term true matchIndex conflict (some context)
        ⟨c, []⟩ = _ := onAppendEntriesResponse_run newer stale (.inl ⟨rfl, rfl⟩) found
    rw [Option.elim_none, moved] at run
    have may : Cause.MayCommit ⟨c, .messageReceived envelope⟩ :=
      ⟨_, _, _, _, p, current ▸ message, leader, found⟩
    have wf' : ({ c with progress := c.progress.insert envelope.from_ q } : RaftCore C).WF := by
      refine wf.insert_progress found ⟨next, ?_⟩
      rcases matched with same | same <;> omega
    have rest := @afterResponse_yields C ⟨{ c with
        progress := c.progress.insert envelope.from_ q }, []⟩ wf' leader rfl
      ⟨c, .messageReceived envelope⟩ (.inl may) envelope.from_ context changed
      (by simp [BTreeMap.get_insert]) fun released => reach current released p found q changed moved
    rw [Yields, bind_run] at rest ⊢
    rw [run]
    exact rest

/-- A step that fails has answered no read, as long as contexts do not run out. -/
theorem failed_answers_nothing [Sha256] (wf : c.WF) (running : c.stopped = false)
    (leader : c.role = .leader) (reach : AnswersReach c event)
    {e : StepError} (run : process event ⟨c, []⟩ = (.error (.raise e), s)) : Unanswered e s := by
  by_cases may : Cause.MayRelease ⟨c, event⟩
  · cases event with
    | read readId context =>
      exact ((onRead_yields wf readId).bind fun _ _ kept => kept.yields).error run
    | messageReceived envelope =>
      obtain ⟨term, matchIndex, conflict, context, message⟩ := may
      by_cases valid : validateEnvelope c envelope = .ok ()
      · obtain ⟨members, handled⟩ := handle_message valid
        have reach := reach running leader
        dsimp only at reach
        rw [message] at reach
        have wf' : ({ c with activeMembers := members } : RaftCore C).WF :=
          wf.congr rfl rfl rfl rfl rfl rfl rfl rfl rfl rfl rfl
        have yields := onAppendEntriesResponse_yields wf' leader message
          fun current released p found q changed moved => by
            have fits := reach valid current released p found q changed moved
            cases changed with
            | true => exact ⟨fits.known, fits.asks, fits.computed, fits.commits, fits.applies⟩
            | false => exact fits
        rw [message] at handled
        rw [process, bind_run, handled] at run
        exact yields.error run
      · obtain ⟨f, handled⟩ := handle_refused valid
        rw [process, bind_run_error handled] at run
        obtain ⟨-, rfl⟩ := Prod.mk.inj run
        exact fun _ => rfl
    | effectCompleted id outcome =>
      have reach := reach running leader
      refine (process_completed_yields (onEffectCompleted_yields wf ?_ ?_)).error run
      · intro pending found
        refine onApplyCompletion_yields wf found ?_
        rintro rfl rfl releases
        exact reach found releases
      · intro idle
        cases outcome with
        | persisted =>
          obtain ⟨stableThrough, continuation, found, continues⟩ := may
          exact onPersistCompletion_yields wf leader found continues
        | applied through =>
          have found : c.pendingApply = some ⟨id, through⟩ := may
          rw [idle] at found
          simp at found
        | _ => exact False.elim may
    | _ => exact False.elim may
  · intro room
    have ran := process_ran wf event
    rw [run] at ran
    cases ran with
    | halted => rfl
    | followed r s returns path =>
      obtain ⟨s₀, s, act, rest⟩ := path
      exact (rest.unanswered may).trans act.unanswered
    | stuck e s stuck => cases stuck <;> rfl

end Ruft
