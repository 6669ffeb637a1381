import Ruft.Exec

set_option autoImplicit false

/-!
# Hard states

The term never decreases, a vote stays within its term and the commit index never
decreases, in memory and in what is handed to storage. A received snapshot is persisted
before it is installed, so between the two the storage is ahead of the memory.

## Main definitions

- `HardState.le` — the order of the law
- `WritesHardState` — the events on which a core persists its hard state
- `SnapshotOrder` — snapshots do not overtake the hard state, and the other way round
-/

namespace Ruft

variable {C : Type}

namespace HardState

/-- `k` may follow `h`. -/
def le (h k : HardState) : Prop :=
  h.currentTerm ≤ k.currentTerm ∧
  (h.currentTerm = k.currentTerm → ∀ x, h.votedFor = some x → k.votedFor = some x) ∧
  h.commitIndex ≤ k.commitIndex

instance (h k : HardState) : Decidable (h.le k) :=
  decidable_of_iff (h.currentTerm ≤ k.currentTerm ∧
    (h.currentTerm = k.currentTerm → h.votedFor = none ∨ h.votedFor = k.votedFor) ∧
    h.commitIndex ≤ k.commitIndex) (by
      refine and_congr_right fun _ => and_congr_left fun _ => imp_congr_right fun _ => ?_
      cases h.votedFor <;> simp [eq_comm])

theorem le_refl (h : HardState) : h.le h := ⟨le_rfl, fun _ _ hx => hx, le_rfl⟩

theorem le.trans {h k l : HardState} (hk : h.le k) (kl : k.le l) : h.le l := by
  obtain ⟨hk1, hk2, hk3⟩ := hk
  obtain ⟨kl1, kl2, kl3⟩ := kl
  refine ⟨by omega, fun heq x hx => ?_, by omega⟩
  exact kl2 (by omega) x (hk2 (by omega) x hx)

theorem le_of_term {h k : HardState} (ht : h.currentTerm < k.currentTerm)
    (hc : h.commitIndex ≤ k.commitIndex) : h.le k :=
  ⟨ht.le, fun heq => absurd heq ht.ne, hc⟩

theorem le_of_free {h k : HardState} (ht : h.currentTerm ≤ k.currentTerm)
    (hv : h.currentTerm = k.currentTerm → h.votedFor = none)
    (hc : h.commitIndex ≤ k.commitIndex) : h.le k :=
  ⟨ht, fun heq x hx => by simp [hv heq] at hx, hc⟩

end HardState

/-- The hard states in persist batches, in their order. -/
def hardStates (effects : List (Effect C)) : List HardState :=
  effects.filterMap fun
    | .persist _ batch => batch.hardState
    | _ => none

/-- The hard states handed to storage so far, oldest first. -/
def persistedHardStates (history : List (Record C)) : List HardState :=
  history.reverse.flatMap fun r => hardStates r.effects

def Record.succeeded (r : Record C) : Bool :=
  match r.result with
  | .ok _ => true
  | .error _ => false

/-- The hard states in memory after the steps that succeeded, oldest first. -/
def hardStatesAfter (history : List (Record C)) : List HardState :=
  (history.reverse.filter Record.succeeded).map (·.after.hardState)

/-- The law: both sequences only move forward. -/
def MonotoneHardStates (init : RaftCore C) (history : List (Record C)) : Prop :=
  (init.hardState :: hardStatesAfter history).Pairwise HardState.le ∧
  (persistedHardStates history).Pairwise HardState.le

instance (init : RaftCore C) (history : List (Record C)) :
    Decidable (MonotoneHardStates init history) := inferInstanceAs (Decidable (_ ∧ _))

/-- Term and index of the received snapshot that is persisted or installed. -/
def RaftCore.inFlight (c : RaftCore C) : Option (Nat × Nat) :=
  c.incomingSnapshotState.map fun
    | .persisting _ record _ term => (term, record.metadata.index)
    | .installing _ record _ term => (term, record.metadata.index)

/-- With these followers a quorum in the current term could commit more. -/
def CommitReady (c : RaftCore C) (progress : BTreeMap NodeId Progress) : Prop :=
  ∃ i, quorumCommit c.log progress c.config.quorum c.hardState.currentTerm = .ok (some i)

/-- The messages that make a core persist its hard state. -/
def WrittenBy (c : RaftCore C) (from_ : NodeId) : Message C → Prop
  | .requestVote term index logTerm => c.hardState.currentTerm < term ∨
      (c.hardState.currentTerm = term ∧ c.hardState.votedFor = none ∧
        isLogUpToDate index logTerm c.lastLogIndex c.lastLogTerm = true)
  | .preVoteResponse term granted => c.hardState.currentTerm < term ∨
      (c.role = .preCandidate ∧
        c.preVotes.any fun votes => (votes.record from_ granted).hasQuorum)
  | .voteResponse term _ | .installSnapshotResponse term _ => c.hardState.currentTerm < term
  | .appendEntries term prev prevTerm leaderCommit _ entries => c.hardState.currentTerm < term ∨
      (c.hardState.currentTerm = term ∧ c.log.term prev = .ok prevTerm ∧
        ∃ log appended, c.log.mergeFromLeader entries = .ok (log, appended) ∧
          c.log.committed < min leaderCommit log.lastIndex)
  | .appendEntriesResponse term _ matchIndex _ _ => c.hardState.currentTerm < term ∨
      (c.role = .leader ∧ c.hardState.currentTerm = term ∧
        ∃ p q, c.progress.get from_ = some p ∧
          (q.matchIndex = p.matchIndex ∨ q.matchIndex = min matchIndex c.log.lastIndex) ∧
          CommitReady c (c.progress.insert from_ q))
  | _ => False

/-- The events that make a core persist its hard state. -/
def WritesHardState (c : RaftCore C) : Event C → Prop
  | .tick .election => c.role ≠ .leader ∧ c.pendingPersist = none ∧
      (QuorumTracker.withLocalVote c.config.members c.config.localId).hasQuorum = true
  | .messageReceived envelope => WrittenBy c envelope.from_ envelope.message
  | .effectCompleted id .persisted =>
      (∃ stableThrough continuation, c.pendingPersist = some ⟨id, stableThrough, continuation⟩ ∧
        (continuation = .replicateProposal ∨ continuation = .activateLeader)) ∧
      (CommitReady c c.progress ∨ CommitReady c c.activated.progress)
  | _ => False

/-- The last chunk of a snapshot is stored while the core has not voted in the snapshot's term,
and no other snapshot in flight is further. -/
def TransferInOrder (c : RaftCore C) : Event C → Prop
  | .effectCompleted id (.snapshotChunkStored _ _ _) => ∀ pending receiver,
      c.pendingChunkStore = some pending → pending.id = id → pending.done = true →
      c.incomingSnapshot = some receiver →
      (c.hardState.currentTerm < pending.term ∨
        (c.hardState.currentTerm = pending.term ∧ c.hardState.votedFor = none)) ∧
      ∀ term index, c.inFlight = some (term, index) → term ≤ pending.term ∧
        index ≤ max c.hardState.commitIndex receiver.metadata.index
  | _ => True

/-- A snapshot is only installed over a vote of an older term. -/
def InstallInOrder (c : RaftCore C) : Event C → Prop
  | .effectCompleted id (.snapshotInstalled _) => ∀ record from_ term,
      c.incomingSnapshotState = some (.installing id record from_ term) →
      c.hardState.currentTerm < term ∨ c.hardState.votedFor = none
  | _ => True

/-- While a snapshot that is ahead of the memory is in flight the hard state is not written. -/
def WritesInOrder (c : RaftCore C) (event : Event C) : Prop :=
  ∀ term index, c.inFlight = some (term, index) →
    (term ≤ c.hardState.currentTerm ∧ index ≤ c.hardState.commitIndex) ∨ ¬ WritesHardState c event

def SnapshotOrder : Condition C := fun _ c event =>
  Room c ∧ TransferInOrder c event ∧ InstallInOrder c event ∧ WritesInOrder c event

/-! ## What an act does to the hard state -/

@[simp] theorem hardStates_nil : hardStates ([] : List (Effect C)) = [] := rfl

@[simp] theorem hardStates_append (es fs : List (Effect C)) :
    hardStates (es ++ fs) = hardStates es ++ hardStates fs := List.filterMap_append

theorem hardStates_toPeers (config : Config) (m : Message C) :
    hardStates (toPeers config m) = [] := by
  simp [hardStates, toPeers, List.filterMap_map]

theorem hardStates_answered (s : Ctx C) (p : Nat → Bool) (result : Nat → ProposalResult) :
    hardStates (s.answered p result).effects = hardStates s.effects := by
  simp [Ctx.answered, hardStates, List.filterMap_flatMap, List.filterMap_map]

theorem hardStates_roundStarted (s : Ctx C) (readId : ReadId) :
    hardStates (s.roundStarted readId).effects = hardStates s.effects := by
  rcases s.roundStarted_effects readId with h | ⟨context, h⟩
  · rw [h]
  · simp [h, Ctx.readHeartbeats, hardStates_toPeers]

/-- What an act can do to the hard state and to what is handed to storage. -/
inductive HardStateAct [Sha256] (c : RaftCore C) (event : Event C) (s : Ctx C) : Prop
  | quiet (same : s.core.hardState = c.hardState) (silent : hardStates s.effects = [])
      (flight : s.core.inFlight = c.inFlight)
  | written (le : c.hardState.le s.core.hardState) (one : hardStates s.effects = [s.core.hardState])
      (flight : s.core.inFlight = c.inFlight) (writes : WritesHardState c event)
  | transferred (id : EffectId) (snapshotId : SnapshotId) (nextOffset : Nat)
      (snapshotRef : Option SnapshotRef) (pending : PendingChunkStore) (receiver : SnapshotReceiver)
      (is : event = .effectCompleted id (.snapshotChunkStored snapshotId nextOffset snapshotRef))
      (found : c.pendingChunkStore = some pending) (mine : pending.id = id)
      (done : pending.done = true) (received : c.incomingSnapshot = some receiver)
      (same : s.core.hardState = c.hardState)
      (one : hardStates s.effects = [⟨pending.term, none,
        max c.hardState.commitIndex receiver.metadata.index⟩])
      (flight : s.core.inFlight = some (pending.term, receiver.metadata.index))
  | installed (id : EffectId) (snapshotId : SnapshotId) (record : SnapshotRecord) (from_ : NodeId)
      (term : Nat) (is : event = .effectCompleted id (.snapshotInstalled snapshotId))
      (found : c.incomingSnapshotState = some (.installing id record from_ term))
      (now : s.core.hardState = ⟨max c.hardState.currentTerm term, none,
        max c.hardState.commitIndex record.metadata.index⟩)
      (silent : hardStates s.effects = []) (flight : s.core.inFlight = none)

theorem MessageAct.hardState [Sha256] {c : RaftCore C} (h : c.WF) {envelope : Envelope C}
    {s : Ctx C} (act : MessageAct c envelope.from_ envelope.message s) :
    HardStateAct c (.messageReceived envelope) s := by
  generalize hm : envelope.message = m at act
  have writes : WrittenBy c envelope.from_ m → WritesHardState c (.messageReceived envelope) := by
    intro hw
    rw [← hm] at hw
    exact hw
  cases act with
  | termRaised reply term is newer =>
    refine .written (HardState.le_of_term newer le_rfl) rfl rfl (writes ?_)
    cases m <;> simp only [Message.responseTerm, Option.some.injEq, reduceCtorEq] at is
    all_goals subst is
    · exact .inl newer
    · exact newer
    · exact .inl newer
    · exact newer
  | voteNewer term index logTerm newer =>
    exact .written (HardState.le_of_term newer le_rfl) rfl rfl (writes (.inl newer))
  | voteFirst term index logTerm same free current =>
    exact .written (HardState.le_of_free same.le (fun _ => free) le_rfl) rfl rfl
      (writes (.inr ⟨same, free, current⟩))
  | campaigned term granted votes notLeader found won =>
    refine .written (HardState.le_of_term (Nat.lt_succ_self _) le_rfl) rfl rfl (writes (.inr ⟨notLeader, ?_⟩))
    simp [found, won]
  | appendRejected term prev prevTerm leaderCommit context entries newer =>
    exact .written (HardState.le_of_term newer le_rfl) rfl rfl (writes (.inl newer))
  | appendAccepted term prev prevTerm leaderCommit context entries log appended hardState reached
      prefix_ run merge wf changed persisted =>
    have hcom : c.hardState.commitIndex ≤ max log.committed (min leaderCommit log.lastIndex) := by
      rw [merge.committed_eq, h.committed]
      exact le_max_left _ _
    have hle : c.hardState.le (c.merged term leaderCommit log).hardState := by
      refine ⟨reached, fun heq x hx => ?_, hcom⟩
      have heq : c.hardState.currentTerm = term := heq
      simp only [RaftCore.merged, if_neg (show ¬ c.hardState.currentTerm < term by omega), hx]
    by_cases hw : c.hardState.currentTerm < term ∨
        c.log.committed < min leaderCommit log.lastIndex
    · rw [if_pos hw] at persisted
      subst persisted
      refine .written hle rfl rfl (writes ?_)
      rcases Nat.lt_or_ge c.hardState.currentTerm term with hlt | hge
      · exact .inl hlt
      · exact .inr ⟨by omega, prefix_, log, appended, run, hw.resolve_left (by omega)⟩
    · rw [if_neg hw] at persisted
      subst persisted
      have hmax : max log.committed (min leaderCommit log.lastIndex) = c.hardState.commitIndex := by
        rw [merge.committed_eq, h.committed] at *
        omega
      refine .quiet ?_ rfl rfl
      simp only [Ctx.queued, RaftCore.merged, hmax, if_neg (show ¬ c.hardState.currentTerm < term by
        omega)]
      have : term = c.hardState.currentTerm := by omega
      rw [this]
  | _ => exact .quiet rfl rfl rfl

theorem CompletionAct.hardState [Sha256] {c : RaftCore C} {id : EffectId} {outcome : EffectOutcome}
    {s : Ctx C} (act : CompletionAct c id outcome s) :
    HardStateAct c (.effectCompleted id outcome) s := by
  cases act with
  | transferDone snapshotId nextOffset snapshotRef pending receiver found same done received =>
    exact .transferred id snapshotId nextOffset _ pending receiver rfl found same done received
      rfl rfl rfl
  | snapshotPersisted record from_ term found =>
    refine .quiet rfl rfl ?_
    simp [RaftCore.inFlight, found]
  | installed snapshotId record from_ term log found =>
    exact .installed id snapshotId record from_ term rfl found rfl rfl rfl
  | votesRequested => exact .quiet rfl (hardStates_toPeers _ _) rfl
  | applyDone pending => exact .quiet rfl (hardStates_answered _ _ _) rfl
  | _ => exact .quiet rfl rfl rfl

theorem Act.hardState [Sha256] {c : RaftCore C} (h : c.WF) {event : Event C} {s : Ctx C}
    (act : Act c event s) : HardStateAct c event s := by
  cases act with
  | preVoteStarted => exact .quiet rfl (hardStates_toPeers _ _) rfl
  | campaigned notLeader free alone =>
    exact .written (HardState.le_of_term (Nat.lt_succ_self _) le_rfl) rfl rfl ⟨notLeader, free, alone⟩
  | message envelope members s known mine act =>
    have h₁ : ({ c with activeMembers := members }).WF :=
      h.congr rfl rfl rfl rfl rfl rfl rfl rfl rfl rfl rfl
    cases act.hardState h₁ with
    | quiet same silent flight => exact .quiet same silent flight
    | written le one flight writes => exact .written le one flight writes
    | transferred _ _ _ _ _ _ is => simp at is
    | installed _ _ _ _ _ is => simp at is
  | readStarted readId =>
    obtain ⟨round, hr⟩ := Ctx.roundStarted_core ⟨c, []⟩ readId
    exact .quiet (by rw [hr]) (hardStates_roundStarted _ readId) (by rw [hr]; rfl)
  | completed id outcome s act => exact act.hardState
  | _ => exact .quiet rfl rfl rfl

/-! ## Commits at the end of a step -/

/-- A commit that is possible stays possible in a log that has committed less. -/
theorem quorumCommit_mono {log log' : RaftLog C} {progress progress' : BTreeMap NodeId Progress}
    {q t i : Nat} (h : quorumCommit log' progress' q t = .ok (some i))
    (entries : log'.entries = log.entries) (snapshot : log'.snapshot = log.snapshot)
    (committed : log.committed ≤ log'.committed)
    (matched : progress'.values.map (·.matchIndex) = progress.values.map (·.matchIndex)) :
    quorumCommit log progress q t = .ok (some i) := by
  have hterm : log'.term = log.term := RaftLog.term_congr entries snapshot
  have hsorted : sortedMatches log' progress' = sortedMatches log progress := by
    simp only [sortedMatches, matched, RaftLog.lastIndex, RaftLog.snapshotIndex, entries, snapshot]
  rw [quorumCommit_eq_some, hsorted, hterm] at h
  obtain ⟨hq, hi, fresh, ht⟩ := h
  exact quorumCommit_eq_some.mpr ⟨hq, hi, by omega, ht⟩

theorem CommitReady.congr {c d : RaftCore C} {progress progress' : BTreeMap NodeId Progress}
    (h : CommitReady d progress') (frame : Frame c d)
    (matched : progress'.values.map (·.matchIndex) = progress.values.map (·.matchIndex)) :
    CommitReady c progress := by
  obtain ⟨i, hi⟩ := h
  rw [frame.config, frame.term] at hi
  exact ⟨i, quorumCommit_mono hi frame.entries frame.snapshot frame.commit_le matched⟩

theorem MessageAct.writes {c : RaftCore C} {envelope : Envelope C} {s : Ctx C} {p : Progress}
    {success : Bool} {matchIndex : Nat} {conflict : Option ConflictHint} {context : Option Bytes}
    (act : MessageAct c envelope.from_ envelope.message s)
    (is : envelope.message = .appendEntriesResponse c.hardState.currentTerm success matchIndex
      conflict context)
    (leader : c.role = .leader) (found : c.progress.get envelope.from_ = some p)
    (ready : CommitReady s.core s.core.progress) :
    WrittenBy c envelope.from_ envelope.message := by
  rw [is] at act ⊢
  have same : ∀ q : Progress, q.matchIndex = p.matchIndex →
      c.progress.values.map (·.matchIndex) =
        (c.progress.insert envelope.from_ q).values.map (·.matchIndex) := by
    intro q hq
    exact (BTreeMap.map_values_insert (fun p : Progress => p.matchIndex) found hq).symm
  have idle : CommitReady c c.progress → WrittenBy c envelope.from_
      (.appendEntriesResponse c.hardState.currentTerm success matchIndex conflict context) := by
    intro h
    exact .inr ⟨leader, rfl, p, p, found, .inl rfl, h.congr (.refl c) (same p rfl)⟩
  cases act with
  | ignored => exact idle ready
  | refused => exact idle ready
  | termRaised _ term is newer =>
    simp only [Message.responseTerm, Option.some.injEq] at is
    omega
  | acknowledged term _ _ _ p' q _ _ found' matched =>
    obtain rfl : p' = p := by simpa [found] using found'.symm
    exact .inr ⟨leader, rfl, p', q, found, matched, ready⟩
  | backedOff term _ _ _ p' q _ _ found' matched =>
    obtain rfl : p' = p := by simpa [found] using found'.symm
    exact .inr ⟨leader, rfl, p', q, found, .inl matched, ready⟩

/-- A commit at the end of a step was possible with what the step read. -/
theorem Act.writes [Sha256] {c : RaftCore C} {event : Event C} {s : Ctx C} (act : Act c event s)
    (may : Cause.MayCommit ⟨c, event⟩) (ready : CommitReady s.core s.core.progress) :
    WritesHardState c event := by
  cases act with
  | message envelope members s known mine act =>
    obtain ⟨success, matchIndex, conflict, context, p, is, leader, found⟩ := may
    exact act.writes is leader found ready
  | ignored event =>
    cases event with
    | messageReceived envelope =>
      obtain ⟨success, matchIndex, conflict, context, p, is, leader, found⟩ := may
      exact (MessageAct.ignored (c := c) envelope.message).writes is leader found ready
    | effectCompleted id outcome =>
      cases outcome with
      | persisted =>
        obtain ⟨stableThrough, h | h⟩ := may
        · exact ⟨⟨_, _, h, .inl rfl⟩, .inl ready⟩
        · exact ⟨⟨_, _, h, .inr rfl⟩, .inl ready⟩
      | _ => exact may.elim
    | _ => exact may.elim
  | completed id outcome s act =>
    cases outcome with
    | persisted =>
      have pending : ∃ stableThrough continuation,
          c.pendingPersist = some ⟨id, stableThrough, continuation⟩ ∧
          (continuation = .replicateProposal ∨ continuation = .activateLeader) := by
        obtain ⟨stableThrough, h | h⟩ := may
        · exact ⟨_, _, h, .inl rfl⟩
        · exact ⟨_, _, h, .inr rfl⟩
      refine ⟨pending, ?_⟩
      obtain ⟨stable, continuation, hp, hc⟩ := pending
      cases act with
      | electedAlone stableThrough votes entry found =>
        obtain ⟨-, rfl⟩ : stable = stableThrough ∧ continuation = .broadcastVoteRequests := by
          simpa [hp] using found
        simp at hc
      | activated => exact .inr ready
      | _ => exact .inl ready
    | _ => exact may.elim
  | _ => exact may.elim

/-! ## The law along runs -/

@[simp] theorem persistedHardStates_cons (r : Record C) (history : List (Record C)) :
    persistedHardStates (r :: history) = persistedHardStates history ++ hardStates r.effects := by
  simp [persistedHardStates]

@[simp] theorem hardStatesAfter_cons (r : Record C) (history : List (Record C)) :
    hardStatesAfter (r :: history) =
      hardStatesAfter history ++ if r.succeeded then [r.after.hardState] else [] := by
  cases h : r.succeeded <;> simp [hardStatesAfter, List.filter_append, h]

/-- A hard state in storage is reached by the memory or belongs to the snapshot in flight. -/
def Covered (c : RaftCore C) (b : HardState) : Prop :=
  b.le c.hardState ∨ ∃ term index, c.inFlight = some (term, index) ∧
    b.le ⟨term, none, max c.hardState.commitIndex index⟩

/-- The snapshot in flight is not ahead of the memory. -/
def NotAhead (c : RaftCore C) : Prop :=
  ∀ term index, c.inFlight = some (term, index) →
    term ≤ c.hardState.currentTerm ∧ index ≤ c.hardState.commitIndex

theorem Covered.le {c : RaftCore C} {b : HardState} (h : Covered c b) (behind : NotAhead c) :
    b.le c.hardState := by
  rcases h with h | ⟨term, index, flight, hterm, hvote, hcommit⟩
  · exact h
  · obtain ⟨ht, hi⟩ := behind term index flight
    simp only at hterm hvote hcommit
    refine HardState.le_of_free (by omega) (fun heq => ?_) (by omega)
    cases hv : b.votedFor with
    | none => rfl
    | some x => exact absurd (hvote (by omega) x hv) (by simp)

/-- The invariant: the memory and the storage have moved forward, and the storage is covered. -/
structure Forward (init : RaftCore C) (history : List (Record C)) (s : Ctx C) : Prop where
  memory : (init.hardState :: hardStatesAfter history).Pairwise HardState.le
  reached : ∀ h ∈ init.hardState :: hardStatesAfter history, h.le s.core.hardState
  storage : (persistedHardStates history ++ hardStates s.effects).Pairwise HardState.le
  covered : ∀ b ∈ persistedHardStates history ++ hardStates s.effects, Covered s.core b

variable {init : RaftCore C} {history : List (Record C)}

theorem Forward.quiet {s s' : Ctx C} (h : Forward init history s)
    (same : s'.core.hardState = s.core.hardState)
    (silent : hardStates s'.effects = hardStates s.effects)
    (flight : s'.core.inFlight = s.core.inFlight) : Forward init history s' := by
  obtain ⟨memory, reached, storage, covered⟩ := h
  refine ⟨memory, by rwa [same], by rwa [silent], ?_⟩
  rw [silent]
  simpa only [Covered, same, flight] using covered

theorem Forward.write {s s' : Ctx C} (h : Forward init history s) (behind : NotAhead s.core)
    (le : s.core.hardState.le s'.core.hardState)
    (one : hardStates s'.effects = hardStates s.effects ++ [s'.core.hardState]) :
    Forward init history s' := by
  have below : ∀ b ∈ persistedHardStates history ++ hardStates s.effects,
      b.le s'.core.hardState := fun b hb => ((h.covered b hb).le behind).trans le
  refine ⟨h.memory, fun b hb => (h.reached b hb).trans le, ?_, ?_⟩
  · rw [one, ← List.append_assoc]
    refine List.pairwise_append.mpr ⟨h.storage, by simp, ?_⟩
    rintro b hb d hd
    obtain rfl : d = s'.core.hardState := by simpa using hd
    exact below b hb
  · intro b hb
    rw [one, ← List.append_assoc, List.mem_append] at hb
    rcases hb with hb | hb
    · exact .inl (below b hb)
    · obtain rfl : b = s'.core.hardState := by simpa using hb
      exact .inl (HardState.le_refl _)

theorem Forward.act [Sha256] {c : RaftCore C} {event : Event C} {s : Ctx C}
    (hs : Steps SnapshotOrder history c event) (h : Forward init history ⟨c, []⟩)
    (act : Act c event s) : Forward init history s := by
  obtain ⟨-, transfer, install, writesInOrder⟩ := hs.meets
  cases act.hardState hs.wf with
  | quiet same silent flight => exact h.quiet same silent flight
  | written le one flight writes =>
    refine h.write (fun term index hf => ?_) le one
    exact (writesInOrder term index hf).resolve_right (not_not_intro writes)
  | transferred id snapshotId nextOffset snapshotRef pending receiver is found mine done received
      same one flight =>
    subst is
    obtain ⟨order, further⟩ := transfer pending receiver found mine done received
    have below : ∀ b ∈ persistedHardStates history,
        b.le ⟨pending.term, none, max c.hardState.commitIndex receiver.metadata.index⟩ := by
      intro b hb
      rcases h.covered b (by simpa using hb) with hle | ⟨term, index, hf, hle⟩
      · refine hle.trans ?_
        rcases order with hlt | ⟨heq, hfree⟩
        · exact HardState.le_of_term hlt (le_max_left _ _)
        · exact HardState.le_of_free heq.le (fun _ => hfree) (le_max_left _ _)
      · obtain ⟨ht, hi⟩ := further term index hf
        exact hle.trans (HardState.le_of_free ht (fun _ => rfl) (max_le (le_max_left _ _) hi))
    refine ⟨h.memory, by rw [same]; exact h.reached, ?_, ?_⟩
    · rw [one]
      refine List.pairwise_append.mpr ⟨by simpa using h.storage, by simp, ?_⟩
      rintro b hb d hd
      obtain rfl := List.mem_singleton.mp hd
      exact below b hb
    · intro b hb
      rw [one, List.mem_append] at hb
      refine .inr ⟨pending.term, receiver.metadata.index, flight, ?_⟩
      rw [same]
      rcases hb with hb | hb
      · exact below b hb
      · obtain rfl := List.mem_singleton.mp hb
        exact HardState.le_refl _
  | installed id snapshotId record from_ term is found now silent flight =>
    subst is
    have older := install record from_ term found
    have le : c.hardState.le s.core.hardState := by
      rw [now]
      rcases older with hlt | hfree
      · exact HardState.le_of_term (lt_max_of_lt_right hlt) (le_max_left _ _)
      · exact HardState.le_of_free (le_max_left _ _) (fun _ => hfree) (le_max_left _ _)
    refine ⟨h.memory, fun b hb => (h.reached b hb).trans le, ?_, ?_⟩
    · rw [silent]
      exact h.storage
    · intro b hb
      rw [silent] at hb
      rcases h.covered b hb with hle | ⟨term', index, hf, hle⟩
      · exact .inl (hle.trans le)
      · obtain ⟨rfl, rfl⟩ : term = term' ∧ record.metadata.index = index := by
          simpa [RaftCore.inFlight, found] using hf
        refine .inl (hle.trans ?_)
        rw [now]
        exact HardState.le_of_free (le_max_right _ _) (fun _ => rfl) le_rfl

/-- When the step commits, the snapshot in flight is not ahead of the memory. -/
theorem Steps.notAhead [Sha256] {c : RaftCore C} {event : Event C} {s₀ s : Ctx C} {i : Nat}
    (hs : Steps SnapshotOrder history c event) (act : Act c event s₀)
    (rest : FollowUps ⟨c, event⟩ s₀ s) (may : Cause.MayCommit ⟨c, event⟩)
    (quorum : quorumCommit s.core.log s.core.progress s.core.config.quorum
      s.core.hardState.currentTerm = .ok (some i)) : NotAhead s.core := by
  obtain ⟨-, -, -, writesInOrder⟩ := hs.meets
  have frame := rest.frame
  have ready : CommitReady s₀.core s₀.core.progress :=
    CommitReady.congr ⟨i, quorum⟩ frame frame.matched
  have writes := act.writes may ready
  have start : c.hardState.le s₀.core.hardState ∧ s₀.core.inFlight = c.inFlight := by
    cases act.hardState hs.wf with
    | quiet same silent flight => exact ⟨same ▸ HardState.le_refl _, flight⟩
    | written le one flight => exact ⟨le, flight⟩
    | transferred _ _ _ _ _ _ is => subst is; exact may.elim
    | installed _ _ _ _ _ is => subst is; exact may.elim
  have hcommit : s₀.core.hardState.commitIndex ≤ s.core.hardState.commitIndex := by
    rw [← act.committed_eq hs.wf .refl, ← act.committed_eq hs.wf rest]
    exact frame.commit_le
  intro term index hf
  have hf₀ : c.inFlight = some (term, index) := by
    rw [← start.2, ← hf, RaftCore.inFlight, RaftCore.inFlight, frame.incoming]
  obtain ⟨ht, hi⟩ := (writesInOrder term index hf₀).resolve_right (not_not_intro writes)
  obtain ⟨hle, -, hci⟩ := start.1
  rw [frame.term]
  exact ⟨by omega, by omega⟩

theorem Forward.followUp [Sha256] {c : RaftCore C} {event : Event C} {s₀ s s' : Ctx C}
    (hs : Steps SnapshotOrder history c event) (act : Act c event s₀)
    (rest : FollowUps ⟨c, event⟩ s₀ s) (h : Forward init history s)
    (hf : FollowUp ⟨c, event⟩ s s') : Forward init history s' := by
  have agree := act.committed_eq hs.wf rest
  have quiet : s'.core.hardState = s.core.hardState →
      hardStates s'.effects = hardStates s.effects → Forward init history s' := by
    intro same silent
    refine h.quiet same silent ?_
    rw [RaftCore.inFlight, RaftCore.inFlight, hf.frame.incoming]
  have raised : ∀ commit, s.core.log.committed < commit →
      s.core.hardState.le { s.core.hardState with commitIndex := commit } := by
    intro commit fresh
    exact ⟨le_rfl, fun _ _ hx => hx, by rw [← agree]; exact fresh.le⟩
  cases hf with
  | committed commit may noPersist quorum fresh =>
    exact h.write (hs.notAhead act rest may quorum) (raised commit fresh) (hardStates_append _ _)
  | commitStuck commit may noPersist quorum fresh =>
    have behind := hs.notAhead act rest may quorum
    refine ⟨h.memory, fun b hb => (h.reached b hb).trans (raised commit fresh), h.storage, ?_⟩
    exact fun b hb => .inl (((h.covered b hb).le behind).trans (raised commit fresh))
  | readStarted readId rest =>
    obtain ⟨round, hr⟩ :=
      Ctx.roundStarted_core ⟨{ s.core with pendingReads := rest }, s.effects⟩ readId
    exact quiet (by rw [hr]) (hardStates_roundStarted _ readId)
  | readReleased round index => exact quiet rfl (by simp [hardStates, List.filterMap_map])
  | applied | appendSent | chunkRequested | buildRequested =>
    exact quiet rfl (by simp [hardStates])
  | _ => exact quiet rfl rfl

theorem hardStates_finished (c : RaftCore C) (s : Ctx C) :
    hardStates (s.finished c).effects = hardStates s.effects := by
  unfold Ctx.finished
  split
  · exact hardStates_answered _ _ _
  · rfl

theorem forward_keeps [Sha256] (init : RaftCore C) :
    Keeps SnapshotOrder (fun history c => Forward init history ⟨c, []⟩)
      (fun history _ _ s => Forward init history s)
      fun history c => MonotoneHardStates init history ∧
        ∀ h ∈ init.hardState :: hardStatesAfter history, h.le c.hardState where
  act hs h act := h.act hs act
  followUp hs act rest h hf := h.followUp hs act rest hf
  finished := by
    intro history c event s _ h
    obtain ⟨proposals, hp⟩ := s.finished_core c
    exact h.quiet (by rw [hp]) (hardStates_finished c s) (by rw [hp]; rfl)
  returned := by
    intro history c event s changed _ h
    refine ⟨?_, ?_, ?_, ?_⟩
    · simp only [hardStatesAfter_cons, Record.succeeded, if_true, ← List.cons_append]
      exact List.pairwise_append.mpr ⟨h.memory, by simp, by simpa using h.reached⟩
    · intro b hb
      simp only [hardStatesAfter_cons, Record.succeeded, if_true, ← List.cons_append,
        List.mem_append, List.mem_singleton] at hb
      rcases hb with hb | rfl
      · exact h.reached b hb
      · exact HardState.le_refl _
    · simpa [Record.effects] using h.storage
    · simpa [Record.effects] using h.covered
  failed := by
    intro history c event s e _ h _
    refine ⟨by simpa [Record.succeeded, Outcome.raise] using h.memory,
      by simpa [Record.succeeded, Outcome.raise] using h.reached, ?_, ?_⟩
    · simpa [Record.effects, Outcome.raise] using (List.pairwise_append.mp h.storage).1
    · intro b hb
      refine h.covered b (List.mem_append_left _ ?_)
      simpa [Record.effects, Outcome.raise] using hb
  safe := by
    intro history c h
    exact ⟨⟨h.memory, by simpa using h.storage⟩, h.reached⟩
  ended := by
    intro history c event s e reason _ h
    refine ⟨⟨?_, ?_⟩, ?_⟩
    · simpa [Record.succeeded, Outcome.raise] using h.memory
    · simpa [Record.effects, Outcome.raise] using (List.pairwise_append.mp h.storage).1
    · simpa [Record.succeeded, Outcome.raise, RaftCore.stop] using h.reached
  halted := by
    intro history c c' event e reason _ h hhalt
    obtain ⟨_, _, _, _, _, _, _, rfl⟩ := hhalt
    refine ⟨⟨?_, ?_⟩, ?_⟩
    · simpa [Record.succeeded, Outcome.raise] using h.memory
    · simpa [Record.effects, Outcome.raise] using h.storage
    · simpa [Record.succeeded, Outcome.raise, RaftCore.stop] using h.reached
  idle := by
    intro history c event result _ silent h
    obtain ⟨⟨memory, storage⟩, reached⟩ := h
    refine ⟨⟨?_, by simpa [silent] using storage⟩, ?_⟩
    · simp only [hardStatesAfter_cons, ← List.cons_append]
      split
      · exact List.pairwise_append.mpr ⟨memory, by simp, by simpa using reached⟩
      · simpa using memory
    · intro b hb
      simp only [hardStatesAfter_cons, ← List.cons_append] at hb
      split at hb
      · rcases List.mem_append.mp hb with hb | hb
        · exact reached b hb
        · obtain rfl := List.mem_singleton.mp hb
          exact HardState.le_refl _
      · exact reached b (by simpa using hb)

/-- The hard state only moves forward along every run in which snapshots keep their order with
it. -/
theorem hardState_monotone [Sha256] (config : Config) (recovered : RecoveredState C)
    {history : List (Record C)} {c : RaftCore C}
    (run : Trace (RaftCore.new config recovered) history c) (order : Holds SnapshotOrder history) :
    MonotoneHardStates (RaftCore.new config recovered) history := by
  refine (Trace.invariant (forward_keeps _) (fun _ _ _ h => h.1) (RaftCore.new_wf config recovered)
    ⟨?_, ?_, ?_, ?_⟩ run order).1.1
  · simp [hardStatesAfter]
  · simpa [hardStatesAfter] using HardState.le_refl _
  · simp [persistedHardStates]
  · simp [persistedHardStates]

/-- Nothing is out of order while no snapshot is received. -/
theorem snapshotOrder_of_idle (history : List (Record C)) (c : RaftCore C) (event : Event C)
    (h : decide (c.nextEffectSequence < u64Max ∧ c.pendingChunkStore = none ∧
      c.incomingSnapshotState = none) = true) : SnapshotOrder history c event := by
  obtain ⟨room, chunk, incoming⟩ := of_decide_eq_true h
  refine ⟨room, ?_, ?_, ?_⟩
  · unfold TransferInOrder
    split
    · intro pending receiver hp
      simp [chunk] at hp
    · trivial
  · unfold InstallInOrder
    split
    · intro record from_ term hi
      simp [incoming] at hi
    · trivial
  · intro term index hf
    simp [RaftCore.inFlight, incoming] at hf

/-- A core that votes, and learns of a later term after its vote is durable. -/
def votingScript : List (Event Nat) :=
  [.messageReceived ⟨0, 2, 3, .requestVote 1 0 0⟩, .effectCompleted ⟨0, 1⟩ .persisted,
    .messageReceived ⟨0, 1, 3, .voteResponse 4 false⟩, .effectCompleted ⟨0, 2⟩ .persisted]

theorem hardState_monotone_voting : ∃ w : Solo Nat,
    @Trace Nat sha256Empty (trio 3) w.history w.core ∧
    persistedHardStates w.history = [⟨1, some 2, 0⟩, ⟨4, none, 0⟩] ∧
    MonotoneHardStates (trio 3) w.history := by
  let _ : Sha256 := sha256Empty
  obtain ⟨w, run, checked⟩ := Solo.exec_any (trio 3) votingScript
    (fun w => (persistedHardStates w.history = [⟨1, some 2, 0⟩, ⟨4, none, 0⟩]) &&
      w.history.all fun r => decide (r.before.nextEffectSequence < u64Max ∧
        r.before.pendingChunkStore = none ∧ r.before.incomingSnapshotState = none))
    (by decide +kernel)
  rw [Bool.and_eq_true] at checked
  refine ⟨w, run, of_decide_eq_true checked.1, ?_⟩
  exact hardState_monotone (trioConfig 3 (by decide)) .initial run
    (Holds.of_all snapshotOrder_of_idle checked.2)

/-- Node 1 transfers a snapshot to node 3, which votes for node 2 before it is persisted and
installed. -/
def voteDuringInstall : List (Event Nat) :=
  [.messageReceived ⟨0, 1, 3,
      .installSnapshot 1 (emptyBody 7 1 1 Nat.zero_lt_one Nat.zero_lt_one) 0 [] true⟩,
    .effectCompleted ⟨0, 1⟩ (.snapshotChunkStored 7 0 (some ⟨[]⟩)),
    .messageReceived ⟨0, 2, 3, .requestVote 1 0 0⟩,
    .effectCompleted ⟨0, 2⟩ .persisted, .effectCompleted ⟨0, 3⟩ .persisted,
    .effectCompleted ⟨0, 4⟩ (.snapshotInstalled 7)]

theorem hardState_regresses : ¬ ∀ (history : List (Record Nat)) (c : RaftCore Nat),
    @Trace Nat sha256Empty (trio 3) history c → MonotoneHardStates (trio 3) history := by
  let _ : Sha256 := sha256Empty
  intro h
  obtain ⟨w, run, bad⟩ := Solo.exec_any (trio 3) voteDuringInstall
    (fun w => (w.core.hardState = ⟨1, none, 1⟩) && ¬ MonotoneHardStates (trio 3) w.history)
    (by decide +kernel)
  rw [Bool.and_eq_true] at bad
  exact of_decide_eq_true bad.2 (h _ _ run)

end Ruft
