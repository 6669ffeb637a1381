import Ruft.Transition

set_option autoImplicit false

/-!
# The follow-up handlers

Each handler that runs after the first act of a step only makes follow-ups and does
not panic on a well-formed core.
-/

namespace Ruft

open Program StepM

variable {C : Type} {cause : Cause C} {s : Ctx C}

/-! ## The invariant along follow-ups -/

theorem RaftLog.WF.mem_index_le {log : RaftLog C} (h : log.WF) {e : Entry C}
    (he : e ∈ log.entries) : e.index ≤ log.lastIndex := by
  obtain ⟨i, hi⟩ := List.mem_iff_getElem?.mp he
  have hlt := (List.getElem?_eq_some_iff.mp hi).1
  have := h.contiguous.index hi
  rw [h.lastIndex]
  omega

theorem RaftCore.WF.insert_progress {c : RaftCore C} (h : c.WF) {n : NodeId} {p q : Progress}
    (found : c.progress.get n = some p) (hq : 0 < q.nextIndex ∧ q.matchIndex < u64Max) :
    ({ c with progress := c.progress.insert n q }).WF := by
  refine { h with progress := ?_, leads := ?_ }
  · intro m r hr
    rw [BTreeMap.get_insert] at hr
    split at hr
    · simp only [Option.some.injEq] at hr
      exact hr ▸ hq
    · exact h.progress m r hr
  · intro hl
    rw [BTreeMap.keys_insert found]
    exact h.leads hl

/-- The fields that no part of the invariant reads may change. -/
theorem RaftCore.WF.congr {c d : RaftCore C} (h : c.WF) (log : d.log = c.log)
    (hardState : d.hardState = c.hardState) (applied : d.appliedIndex = c.appliedIndex)
    (lastLogIndex : d.lastLogIndex = c.lastLogIndex) (lastLogTerm : d.lastLogTerm = c.lastLogTerm)
    (snapshotIndex : d.snapshotIndex = c.snapshotIndex) (votes : d.votes = c.votes)
    (progress : d.progress = c.progress) (role : d.role = c.role) (config : d.config = c.config)
    (applying : d.pendingApply = c.pendingApply) : d.WF := by
  constructor
  · rw [log]; exact h.log
  · rw [log, hardState]; exact h.committed
  · rw [hardState]; exact h.commit_lt
  · rw [applied, hardState]; exact h.applied_le
  · rw [lastLogIndex, log]; exact h.lastLogIndex
  · rw [lastLogTerm, log]; exact h.lastLogTerm
  · rw [snapshotIndex, log]; exact h.snapshotIndex
  · rw [votes, hardState]; exact h.votes
  · rw [progress]; exact h.progress
  · rw [role, progress, config]; exact h.leads
  · rw [applying, hardState]; exact h.applying

theorem RaftCore.WF.commit {c : RaftCore C} (h : c.WF) {commit : Nat}
    (fresh : c.log.committed < commit) (held : commit ≤ c.log.lastIndex) :
    ({ c with
        log := { c.log with committed := commit }
        hardState := { c.hardState with commitIndex := commit } }).WF := by
  have hlt := h.log.lastIndex_lt
  have hcom := h.committed
  refine { h with log := h.log.congr rfl rfl, committed := rfl, commit_lt := ?_, applied_le := ?_
                  applying := ?_ }
  · exact lt_of_le_of_lt held hlt
  · have := h.applied_le
    show c.appliedIndex ≤ commit
    omega
  · intro p hp
    have := h.applying p hp
    show p.through ≤ commit
    omega

theorem RaftCore.WF.queued {batch : PersistBatch C} {k : PersistContinuation} (h : s.core.WF) :
    (s.queued batch k).core.WF := h.congr rfl rfl rfl rfl rfl rfl rfl rfl rfl rfl rfl

theorem Ctx.roundStarted_core (s : Ctx C) (readId : ReadId) : ∃ round,
    (s.roundStarted readId).core = { s.core with
      nextReadContext := s.core.nextReadContext + 1, readRound := some round } := by
  unfold Ctx.roundStarted
  dsimp only
  split
  · exact ⟨_, rfl⟩
  · exact ⟨_, rfl⟩

theorem Ctx.roundStarted_effects (s : Ctx C) (readId : ReadId) :
    (s.roundStarted readId).effects = s.effects ∨ ∃ context,
      (s.roundStarted readId).effects = s.effects ++ Ctx.readHeartbeats s.core context := by
  unfold Ctx.roundStarted
  dsimp only
  split
  · exact .inl rfl
  · exact .inr ⟨_, rfl⟩

theorem Ctx.Unqueued.append {c : RaftCore C} {new : List (Effect C)} (h : s.Unqueued)
    (silent : ∀ id batch, .persist id batch ∈ new → batch.entries = []) :
    Unqueued ⟨c, s.effects ++ new⟩ := by
  intro id batch hmem
  rcases List.mem_append.mp hmem with hold | hnew
  · exact h id batch hold
  · exact silent id batch hnew

theorem persist_notMem_toPeers (config : Config) (m : Message C) (id : EffectId)
    (batch : PersistBatch C) : .persist id batch ∉ toPeers config m := by
  simp [toPeers]

theorem Ctx.Unqueued.roundStarted (h : s.Unqueued) (readId : ReadId) :
    (s.roundStarted readId).Unqueued := by
  intro id batch hmem
  rcases s.roundStarted_effects readId with he | ⟨context, he⟩
  · exact h id batch (he ▸ hmem)
  · rw [he] at hmem
    rcases List.mem_append.mp hmem with hold | hnew
    · exact h id batch hold
    · exact absurd hnew (persist_notMem_toPeers _ _ _ _)

theorem RaftCore.WF.roundStarted (h : s.core.WF) (readId : ReadId) :
    (s.roundStarted readId).core.WF := by
  obtain ⟨round, hr⟩ := s.roundStarted_core readId
  rw [hr]
  exact h.congr rfl rfl rfl rfl rfl rfl rfl rfl rfl rfl rfl

theorem RaftCore.WF.followUp {s' : Ctx C} (h : s.core.WF) (hf : FollowUp cause s s') :
    s'.core.WF := by
  cases hf with
  | applied => exact { h with applying := by rintro p ⟨⟩; exact le_rfl }
  | appendSent to_ p q prev prevTerm entries found next term isBatch held matched nextPos =>
    exact h.insert_progress found ⟨nextPos, matched ▸ (h.progress _ _ found).2⟩
  | snapshotEntered to_ p found => exact h.insert_progress found (h.progress _ p found)
  | committed commit may noPersist quorum fresh held => exact (h.commit fresh held).queued
  | commitStuck commit may noPersist quorum fresh held => exact h.commit fresh held
  | readStarted readId rest =>
    exact RaftCore.WF.roundStarted (s := ⟨{ s.core with pendingReads := rest }, s.effects⟩)
      (h.congr rfl rfl rfl rfl rfl rfl rfl rfl rfl rfl rfl) readId
  | _ => exact h.congr rfl rfl rfl rfl rfl rfl rfl rfl rfl rfl rfl

theorem FollowUp.unqueued {s' : Ctx C} (h : s.Unqueued) (hf : FollowUp cause s s') :
    s'.Unqueued := by
  cases hf with
  | committed => exact h.append (by simp)
  | readReleased => exact h.append (by simp)
  | readStarted readId rest =>
    have h₁ : Ctx.Unqueued ⟨{ s.core with pendingReads := rest }, s.effects⟩ := h
    exact h₁.roundStarted readId
  | applied | appendSent | chunkRequested | buildRequested => exact h.append (by simp)
  | _ => exact h

theorem Ctx.Unqueued.followUps {s' : Ctx C} (h : s.Unqueued) (hf : FollowUps cause s s') :
    s'.Unqueued := by
  induction hf with
  | refl => exact h
  | tail _ hstep ih => exact hstep.unqueued ih

theorem keeps_wf (s s' : Ctx C) (h : s.core.WF) (hf : FollowUp cause s s') : s'.core.WF :=
  h.followUp hf

theorem RaftCore.WF.followUps {s' : Ctx C} (h : s.core.WF) (hf : FollowUps cause s s') :
    s'.core.WF := by
  induction hf with
  | refl => exact h
  | tail _ hstep ih => exact ih.followUp hstep

/-! ## What follow-ups leave alone -/

/-- The fields that a follow-up does not write; the commit index only grows, and no
acknowledgement is counted. -/
structure Frame (c d : RaftCore C) : Prop where
  config : d.config = c.config
  role : d.role = c.role
  preVotes : d.preVotes = c.preVotes
  votes : d.votes = c.votes
  term : d.hardState.currentTerm = c.hardState.currentTerm
  votedFor : d.hardState.votedFor = c.hardState.votedFor
  commit_le : c.log.committed ≤ d.log.committed
  entries : d.log.entries = c.log.entries
  snapshot : d.log.snapshot = c.log.snapshot
  unstable : d.log.unstable = c.log.unstable
  lastLogIndex : d.lastLogIndex = c.lastLogIndex
  lastLogTerm : d.lastLogTerm = c.lastLogTerm
  matched : d.progress.values.map (·.matchIndex) = c.progress.values.map (·.matchIndex)
  applied : d.appliedIndex = c.appliedIndex
  proposals : d.proposals = c.proposals
  noop : d.leaderNoopIndex = c.leaderNoopIndex
  receiver : d.incomingSnapshot = c.incomingSnapshot
  chunkStore : d.pendingChunkStore = c.pendingChunkStore
  incoming : d.incomingSnapshotState = c.incomingSnapshotState
  snapshotIndex : d.snapshotIndex = c.snapshotIndex
  sequence_le : c.nextEffectSequence ≤ d.nextEffectSequence
  stopped : d.stopped = c.stopped
  stoppedReason : d.stoppedReason = c.stoppedReason

theorem Frame.refl (c : RaftCore C) : Frame c c := by
  constructor <;> rfl

theorem Frame.trans {c d e : RaftCore C} (h : Frame c d) (k : Frame d e) : Frame c e where
  config := k.config.trans h.config
  role := k.role.trans h.role
  preVotes := k.preVotes.trans h.preVotes
  votes := k.votes.trans h.votes
  term := k.term.trans h.term
  votedFor := k.votedFor.trans h.votedFor
  commit_le := h.commit_le.trans k.commit_le
  entries := k.entries.trans h.entries
  snapshot := k.snapshot.trans h.snapshot
  unstable := k.unstable.trans h.unstable
  lastLogIndex := k.lastLogIndex.trans h.lastLogIndex
  lastLogTerm := k.lastLogTerm.trans h.lastLogTerm
  matched := k.matched.trans h.matched
  applied := k.applied.trans h.applied
  proposals := k.proposals.trans h.proposals
  noop := k.noop.trans h.noop
  receiver := k.receiver.trans h.receiver
  chunkStore := k.chunkStore.trans h.chunkStore
  incoming := k.incoming.trans h.incoming
  snapshotIndex := k.snapshotIndex.trans h.snapshotIndex
  sequence_le := h.sequence_le.trans k.sequence_le
  stopped := k.stopped.trans h.stopped
  stoppedReason := k.stoppedReason.trans h.stoppedReason

theorem FollowUp.frame {s' : Ctx C} (hf : FollowUp cause s s') : Frame s.core s'.core := by
  cases hf with
  | appendSent to_ p q prev prevTerm entries found next term isBatch held same =>
    exact { Frame.refl s.core with
      matched := BTreeMap.map_values_insert (fun p : Progress => p.matchIndex) found same }
  | snapshotEntered to_ p found =>
    exact { Frame.refl s.core with
      matched := BTreeMap.map_values_insert (fun p : Progress => p.matchIndex) found rfl }
  | applied | chunkRequested | buildRequested =>
    exact { Frame.refl s.core with sequence_le := Nat.le_succ _ }
  | committed commit may noPersist quorum fresh =>
    exact { Frame.refl s.core with commit_le := fresh.le, sequence_le := Nat.le_succ _ }
  | commitStuck commit may noPersist quorum fresh =>
    exact { Frame.refl s.core with commit_le := fresh.le }
  | readStarted readId rest =>
    obtain ⟨round, hr⟩ :=
      Ctx.roundStarted_core ⟨{ s.core with pendingReads := rest }, s.effects⟩ readId
    rw [hr]
    exact { Frame.refl s.core with }
  | _ => exact { Frame.refl s.core with }

theorem FollowUps.frame {s' : Ctx C} (hf : FollowUps cause s s') : Frame s.core s'.core := by
  induction hf with
  | refl => exact .refl _
  | tail _ hstep ih => exact ih.trans hstep.frame

/-- A follow-up leaves the pending persist as it is, or waits for a commit. -/
theorem FollowUp.pendingPersist {s' : Ctx C} (hf : FollowUp cause s s') :
    s'.core.pendingPersist = s.core.pendingPersist ∨ ∃ id stable,
      s'.core.pendingPersist = some ⟨id, stable, .applyCommitted⟩ := by
  cases hf with
  | committed => exact .inr ⟨_, _, rfl⟩
  | readStarted readId rest =>
    obtain ⟨round, hr⟩ :=
      Ctx.roundStarted_core ⟨{ s.core with pendingReads := rest }, s.effects⟩ readId
    rw [hr]
    exact .inl rfl
  | _ => exact .inl rfl

/-! ## What follow-ups send -/

/-- The appends that a core sends from its log. -/
inductive Replicates (c : RaftCore C) : Message C → Prop
  | append (prev prevTerm : Nat) (entries : List (Entry C))
      (term : c.log.term prev = .ok prevTerm)
      (isBatch : ∃ tail, c.log.entries.drop (prev - c.log.snapshotIndex) = entries ++ tail)
      (held : c.log.snapshotIndex ≤ prev) :
      Replicates c (.appendEntries c.hardState.currentTerm prev prevTerm c.hardState.commitIndex
        none entries)
  | heartbeat (context : Bytes) :
      Replicates c (.appendEntries c.hardState.currentTerm c.log.lastIndex c.lastLogTerm
        c.hardState.commitIndex (some context) [])

theorem Ctx.roundStarted_sends (readId : ReadId) {to_ : NodeId} {m : Message C}
    (h : .sendMessage to_ m ∈ (s.roundStarted readId).effects) :
    .sendMessage to_ m ∈ s.effects ∨ Replicates s.core m := by
  rcases s.roundStarted_effects readId with he | ⟨context, he⟩
  · exact .inl (he ▸ h)
  · rw [he] at h
    refine (List.mem_append.mp h).imp_right fun hnew => ?_
    obtain ⟨n, -, heq⟩ := List.mem_map.mp hnew
    simp only [Effect.sendMessage.injEq] at heq
    obtain ⟨rfl, rfl⟩ := heq
    exact .heartbeat context

theorem FollowUp.effects_subset {s' : Ctx C} (hf : FollowUp cause s s') :
    s.effects ⊆ s'.effects := by
  cases hf with
  | readStarted readId rest =>
    rcases Ctx.roundStarted_effects ⟨{ s.core with pendingReads := rest }, s.effects⟩ readId with
      he | ⟨context, he⟩
    · exact he.symm ▸ List.Subset.refl _
    · exact he.symm ▸ List.subset_append_left _ _
  | applied | appendSent | chunkRequested | committed | readReleased | buildRequested =>
    exact List.subset_append_left _ _
  | _ => exact List.Subset.refl _

theorem FollowUps.effects_subset {s' : Ctx C} (hf : FollowUps cause s s') :
    s.effects ⊆ s'.effects := by
  induction hf with
  | refl => exact List.Subset.refl _
  | tail _ hstep ih => exact List.Subset.trans ih hstep.effects_subset

/-- The messages of a follow-up are appends. -/
theorem FollowUp.sends {s' : Ctx C} (hf : FollowUp cause s s') {to_ : NodeId} {m : Message C}
    (h : .sendMessage to_ m ∈ s'.effects) : .sendMessage to_ m ∈ s.effects ∨ Replicates s.core m := by
  cases hf with
  | appendSent to_ p q prev prevTerm entries found next term isBatch held =>
    refine (List.mem_append.mp h).imp_right fun hnew => ?_
    simp only [List.mem_singleton, Effect.sendMessage.injEq] at hnew
    obtain ⟨rfl, rfl⟩ := hnew
    exact .append prev prevTerm entries term isBatch held
  | applied | chunkRequested | buildRequested | committed =>
    refine .inl ((List.mem_append.mp h).resolve_right fun hnew => ?_)
    simp at hnew
  | readReleased =>
    refine .inl ((List.mem_append.mp h).resolve_right fun hnew => ?_)
    simp at hnew
  | readStarted readId rest =>
    have := Ctx.roundStarted_sends (s := ⟨{ s.core with pendingReads := rest }, s.effects⟩) readId h
    exact this.imp_right fun hr => by
      cases hr with
      | append prev prevTerm entries term isBatch held =>
        exact .append prev prevTerm entries term isBatch held
      | heartbeat context => exact .heartbeat context
  | _ => exact .inl h

/-! ## Effect ids -/

theorem liftNext_ok {n : Nat} (h : n < u64Max) : (liftNext n : StepM C Nat) = pure (n + 1) := by
  simp only [liftNext, checkedNext, if_pos h]
  rfl

theorem liftNext_overflow {n : Nat} (h : ¬ n < u64Max) :
    (liftNext n : StepM C Nat) = StepM.raise (.arithmetic .overflow) := by
  simp only [liftNext, checkedNext, if_neg h]
  rfl

theorem nextEffectId_run (h : s.core.nextEffectSequence < u64Max) :
    (nextEffectId : StepM C EffectId) s = (.ok s.allocated, ⟨{ s.core with
      nextEffectSequence := s.core.nextEffectSequence + 1 }, s.effects⟩) := by
  show (liftNext s.core.nextEffectSequence >>= _) s = _
  rw [liftNext_ok h]
  rfl

theorem nextEffectId_overflow (h : ¬ s.core.nextEffectSequence < u64Max) :
    (nextEffectId : StepM C EffectId) s = (.error (.raise (.arithmetic .overflow)), s) := by
  show (liftNext s.core.nextEffectSequence >>= _) s = _
  rw [liftNext_overflow h]
  rfl

/-- A program that allocates an id and then makes one follow-up. -/
theorem Leads.allocate {R : Ctx C → Ctx C → Prop} {α : Type} {f : EffectId → StepM C α} {a : α}
    {s' : Ctx C}
    (run : f s.allocated ⟨{ s.core with
      nextEffectSequence := s.core.nextEffectSequence + 1 }, s.effects⟩ = (.ok a, s'))
    (h : R s s') : Leads R (nextEffectId >>= f) s := by
  by_cases hs : s.core.nextEffectSequence < u64Max
  · refine Leads.step (r := a) ?_ h
    simpa [Bind.bind, nextEffectId_run hs] using run
  · refine ⟨?_, ?_⟩ <;> simp [Bind.bind, nextEffectId_overflow hs, Relation.ReflTransGen.refl]

theorem queuePersist_run (h : s.core.nextEffectSequence < u64Max) (batch : PersistBatch C)
    (k : PersistContinuation) : queuePersist batch k s = (.ok (), s.queued batch k) := by
  simp only [queuePersist, Bind.bind, nextEffectId_run h, update_run, emit_run]
  rfl

theorem queuePersist_overflow (h : ¬ s.core.nextEffectSequence < u64Max) (batch : PersistBatch C)
    (k : PersistContinuation) :
    queuePersist batch k s = (.error (.raise (.arithmetic .overflow)), s) := by
  simp only [queuePersist, Bind.bind, nextEffectId_overflow h]

theorem queuePersist_eq_ok {s' : Ctx C} {batch : PersistBatch C} {k : PersistContinuation}
    (run : queuePersist batch k s = (.ok (), s')) : s' = s.queued batch k := by
  by_cases room : s.core.nextEffectSequence < u64Max
  · rw [queuePersist_run room] at run
    exact (Prod.mk.inj run).2.symm
  · rw [queuePersist_overflow room] at run
    simp at run

theorem Leads.liftNext {R : Ctx C → Ctx C → Prop} {α : Type} {n : Nat} {f : Nat → StepM C α}
    (hf : n < u64Max → Leads R (f (n + 1)) s) : Leads R (StepM.liftNext n >>= f) s := by
  by_cases hn : n < u64Max
  · rw [liftNext_ok hn]
    exact hf hn
  · rw [liftNext_overflow hn]
    exact .raise _

/-! ## Applies and local snapshots -/

theorem emitApplyIfNeeded_leads (h : s.core.WF) :
    Leads (FollowUp cause) (emitApplyIfNeeded : StepM C Unit) s := by
  show Leads _ (if _ then _ else _) s
  split
  · exact .pure ()
  · next hn =>
    simp only [not_or, Option.not_isSome_iff_eq_none, Nat.not_le] at hn
    refine Leads.liftNext fun _ => Leads.lift h.log.range_ne_panic fun entries hr => ?_
    exact Leads.allocate rfl (.applied s entries hn.1 hn.2.1 hn.2.2 hr)

theorem requestLocalSnapshot_leads :
    Leads (FollowUp cause) (requestLocalSnapshot : StepM C Unit) s := by
  show Leads _ (if _ then _ else _) s
  split
  · exact .pure ()
  · next hn =>
    simp only [not_or, ne_eq, not_not, Nat.not_le] at hn
    exact Leads.allocate rfl (.buildRequested s hn.1 hn.2)

theorem maybeRequestLocalSnapshot_leads :
    Leads (FollowUp cause) (maybeRequestLocalSnapshot : StepM C Unit) s := by
  show Leads _ (if _ then _ else _) s
  split
  · exact requestLocalSnapshot_leads
  · exact .pure ()

/-! ## Replication -/

theorem takeBatch_split (config : Config) (taken bytes : Nat) (es : List (Entry C)) :
    ∃ tail, es = takeBatch config taken bytes es ++ tail := by
  induction es generalizing taken bytes with
  | nil => exact ⟨[], rfl⟩
  | cons e es ih =>
    simp only [takeBatch]
    split
    · exact ⟨_, rfl⟩
    · split
      · exact ⟨es, rfl⟩
      · obtain ⟨tail, ht⟩ := ih (taken + 1) (min (bytes + e.encodedLen) u64Max)
        exact ⟨tail, by rw [List.cons_append, ← ht]⟩

theorem readSnapshotChunk_leads (h : s.core.WF) (to_ : NodeId) :
    Leads (FollowUp cause) (readSnapshotChunk to_ : StepM C Unit) s := by
  show Leads _ (if _ then _ else _) s
  split
  · exact .pure ()
  · next hn =>
    have read : ∀ s : Ctx C, s.core.WF → to_ ∉ s.core.pendingSnapshotReads.values →
        ∀ sender, s.core.snapshotSenders.get to_ = some sender →
        Leads (FollowUp cause) (do
          let c ← core
          let sender ← Program.expect (c.snapshotSenders.get to_)
          let id ← nextEffectId
          update fun c => { c with pendingSnapshotReads := c.pendingSnapshotReads.insert id to_ }
          emit (.readSnapshotChunk id sender.snapshot sender.offset c.config.snapshotChunkBytes) :
          StepM C Unit) s := by
      intro s _ hn sender hs
      show Leads _ (Program.expect (s.core.snapshotSenders.get to_) >>= _) s
      rw [hs]
      exact Leads.allocate rfl (.chunkRequested s to_ sender hn hs)
    cases hs : s.core.snapshotSenders.get to_ with
    | some sender => exact read s h hn sender hs
    | none =>
      cases hl : s.core.log.snapshot with
      | none => exact .raise _
      | some snapshot =>
        refine Leads.bind keeps_wf h (Leads.step rfl (.senderCreated s to_ snapshot hl hs)) ?_
        intro _ s' run h'
        obtain rfl := (Prod.mk.inj run).2
        exact read _ h' hn _ (by rw [BTreeMap.get_insert, if_pos rfl])

theorem replicationBatch_run (h : s.core.WF) {next : Nat} (hn : s.core.log.snapshotIndex < next) :
    ∃ entries tail, (replicationBatch next : StepM C _) s = (.ok entries, s) ∧
      s.core.log.entries.drop (next - (s.core.log.snapshotIndex + 1)) = entries ++ tail ∧
      entries = takeBatch s.core.config 0 0
        (s.core.log.entries.drop (next - (s.core.log.snapshotIndex + 1))) := by
  have hlast := h.log.lastIndex
  show ∃ entries tail, (if s.core.log.lastIndex < next then _ else _ : StepM C _) s = _ ∧ _
  split
  · have none : s.core.log.entries.drop (next - (s.core.log.snapshotIndex + 1)) = [] :=
      List.drop_eq_nil_of_le (by omega)
    exact ⟨[], _, rfl, rfl, by rw [none]; rfl⟩
  · next hl =>
    have hr := h.log.range hn (Nat.not_lt.mp hl) le_rfl
    rw [List.take_of_length_le (by rw [List.length_drop]; omega)] at hr
    obtain ⟨tail, ht⟩ := takeBatch_split s.core.config 0 0
      (s.core.log.entries.drop (next - (s.core.log.snapshotIndex + 1)))
    exact ⟨_, tail, by rw [hr]; rfl, ht, rfl⟩

/-- The last index of a batch after an index that the log holds. -/
theorem RaftCore.WF.batchEnd_lt {c : RaftCore C} (h : c.WF) {prev n : Nat}
    {entries tail : List (Entry C)} (held : prev ≤ c.log.lastIndex)
    (split : c.log.entries.drop n = entries ++ tail) :
    entries.getLast?.elim prev (·.index) < u64Max := by
  have hlast := h.log.lastIndex_lt
  cases hg : entries.getLast? with
  | none =>
    simp only [Option.elim_none]
    omega
  | some e =>
    have hmem : e ∈ c.log.entries :=
      List.mem_of_mem_drop (split ▸ List.mem_append_left _ (List.mem_of_getLast? hg))
    have := h.log.mem_index_le hmem
    simp only [Option.elim_some]
    omega

theorem Progress.sent_run {ε : Type} (p : Progress) {last : Nat} (hl : last < u64Max)
    (hp : 0 < p.nextIndex) : ∃ q, (p.sent last : Outcome ε Progress) = .ok q ∧
      q.matchIndex = p.matchIndex ∧ 0 < q.nextIndex := by
  unfold Progress.sent
  dsimp only
  split
  · simp only [expectNext_eq_ok hl, bind, Except.bind]
    exact ⟨_, rfl, rfl, Nat.succ_pos last⟩
  · exact ⟨_, rfl, rfl, hp⟩

theorem replicateTo_leads (to_ : NodeId) (may : cause.MayReplicate)
    (leading : s.core.role = .leader ∨ cause.Proposed) (h : s.core.WF) :
    Leads (FollowUp cause) (replicateTo to_ : StepM C Unit) s := by
  refine .of_same (bind_run_ok (core_run _) _) ?_
  cases found : s.core.progress.get to_ with
  | none => exact .pure ()
  | some p =>
    obtain ⟨hnext, hmatch⟩ := h.progress _ _ found
    dsimp only
    split
    · exact .pure ()
    next hfree =>
    refine Leads.lift (by simp [h.log.firstIndex]) fun first hfirst => ?_
    obtain rfl : s.core.log.snapshotIndex + 1 = first := by simpa [h.log.firstIndex] using hfirst
    split
    · exact Leads.bind keeps_wf h (Leads.step rfl (.snapshotEntered s to_ p found))
        fun _ _ _ h' => readSnapshotChunk_leads h' to_
    · next hlow =>
      refine Leads.lift (by simp [Outcome.sub_eq_ok (show 1 ≤ p.nextIndex by omega)])
        fun prev hprev => ?_
      obtain rfl : p.nextIndex - 1 = prev := by
        simpa [Outcome.sub_eq_ok (show 1 ≤ p.nextIndex by omega)] using hprev
      refine Leads.lift h.log.term_ne_panic fun prevTerm hterm => ?_
      obtain ⟨entries, tail, hrun, hsplit, hbatch⟩ :=
        replicationBatch_run h (show s.core.log.snapshotIndex < p.nextIndex by omega)
      have hend := h.batchEnd_lt (h.log.term_isOk.mp ⟨_, hterm⟩).2 hsplit
      obtain ⟨q, hsent, hqm, hqn⟩ := Progress.sent_run (ε := StepError) p hend hnext
      refine Leads.step (r := ()) ?_ (.appendSent s to_ p q (p.nextIndex - 1) prevTerm
        entries found (by omega) hterm ⟨tail, ?_⟩ (by omega) hqm hqn may
        leading (by simpa using hfree) ?_ hsent)
      · rw [bind_run_ok hrun, hsent]
        rfl
      · rw [← hsplit]
        congr 1
        omega
      · rw [hbatch]
        congr 2
        omega

theorem keeps_leading (s s' : Ctx C)
    (h : s.core.WF ∧ (s.core.role = .leader ∨ cause.Proposed)) (hf : FollowUp cause s s') :
    s'.core.WF ∧ (s'.core.role = .leader ∨ cause.Proposed) :=
  ⟨h.1.followUp hf, by rw [hf.frame.role]; exact h.2⟩

theorem replicateAll_leads (may : cause.MayReplicate)
    (leading : s.core.role = .leader ∨ cause.Proposed) (h : s.core.WF) :
    Leads (FollowUp cause) (replicateAll : StepM C Unit) s :=
  Leads.forEach keeps_leading ⟨h, leading⟩ (fun to_ _ h => replicateTo_leads to_ may h.2 h.1)
    s.core.progress.keys

/-! ## Commit -/

theorem quorumCommit_ne_panic {log : RaftLog C} {progress : BTreeMap NodeId Progress} {q t : Nat}
    (h : log.WF) (hq : 0 < q) (hk : q ≤ progress.keys.length + 1) :
    quorumCommit log progress q t ≠ .error .panic := by
  unfold quorumCommit
  have hlen : ((progress.values.map (·.matchIndex) ++ [log.lastIndex]).insertionSort
      (· ≤ ·)).length = progress.keys.length + 1 := by
    simp [BTreeMap.values, BTreeMap.keys]
  dsimp only
  rw [hlen, Outcome.sub_eq_ok hk]
  simp only [bind, Except.bind, Outcome.index]
  rw [List.getElem?_eq_getElem (by omega)]
  simp only [Outcome.expect]
  split
  · intro hp
    cases ht : log.term ((progress.values.map (·.matchIndex) ++ [log.lastIndex]).insertionSort
      (· ≤ ·))[progress.keys.length + 1 - q] with
    | error e => exact h.term_ne_panic (ht.trans (by simpa [ht] using hp))
    | ok t => simp [ht] at hp
  · simp

/-- The indexes the leader and its followers hold, in ascending order. -/
def sortedMatches (log : RaftLog C) (progress : BTreeMap NodeId Progress) : List Nat :=
  (progress.values.map (·.matchIndex) ++ [log.lastIndex]).insertionSort (· ≤ ·)

theorem quorumCommit_eq_some {log : RaftLog C} {progress : BTreeMap NodeId Progress}
    {q t i : Nat} : quorumCommit log progress q t = .ok (some i) ↔
      q ≤ (sortedMatches log progress).length ∧
      (sortedMatches log progress)[(sortedMatches log progress).length - q]? = some i ∧
      log.committed < i ∧ log.term i = .ok t := by
  unfold quorumCommit
  change (do
    let position ← Outcome.sub (sortedMatches log progress).length q
    let candidate ← Outcome.index (sortedMatches log progress) position
    if log.committed < candidate then do
      let u ← log.term candidate
      .ok (if u = t then some candidate else none)
    else .ok none : Outcome LogError (Option Nat)) = _ ↔ _
  by_cases hq : q ≤ (sortedMatches log progress).length
  · rw [Outcome.sub_eq_ok hq]
    simp only [bind, Except.bind, Outcome.index, hq, true_and]
    cases (sortedMatches log progress)[(sortedMatches log progress).length - q]? with
    | none => simp [Outcome.expect, Outcome.panic]
    | some candidate =>
      simp only [Outcome.expect, Option.some.injEq]
      split
      · next hlt =>
        cases ht : log.term candidate with
        | error e =>
          simp only [reduceCtorEq, false_iff]
          rintro ⟨rfl, -, hu⟩
          simp [ht] at hu
        | ok u =>
          simp only [Except.ok.injEq]
          constructor
          · intro h
            split at h
            · next hu => simp only [Option.some.injEq] at h; subst h; exact ⟨rfl, hlt, hu ▸ ht⟩
            · simp at h
          · rintro ⟨rfl, -, hu⟩
            rw [ht] at hu
            rw [if_pos (by simpa using hu)]
      · next hge =>
        simp only [Except.ok.injEq, reduceCtorEq, false_iff]
        rintro ⟨rfl, hlt, -⟩
        exact hge hlt
  · simp [Outcome.sub, hq, bind, Except.bind, Outcome.panic]

theorem advanceCommit_leads (may : cause.MayCommit)
    (leading : s.core.role = .leader ∨ cause.Proposed) (h : s.core.WF)
    (hk : s.core.config.quorum ≤ s.core.progress.keys.length + 1) :
    Leads (FollowUp cause) (advanceCommit : StepM C Unit) s := by
  show Leads _ (if _ then _ else _) s
  split
  · exact .pure ()
  · next hn =>
    have hn : s.core.pendingPersist = none := by simpa using hn
    have hpos : 0 < s.core.config.quorum := by rw [s.core.config.quorum_eq]; omega
    refine Leads.lift (quorumCommit_ne_panic h.log hpos hk) fun result hq => ?_
    cases result with
    | none => exact .pure ()
    | some commit =>
      obtain ⟨-, -, hfresh, hterm⟩ := quorumCommit_eq_some.mp hq
      have hheld := (h.log.term_isOk.mp ⟨_, hterm⟩).2
      have hrun : s.core.log.commitTo commit = .ok { s.core.log with committed := commit } := by
        rw [RaftLog.commitTo, if_neg (by omega), if_pos hfresh]
      refine Leads.lift (by simp [hrun]) fun log hlog => ?_
      obtain rfl : { s.core.log with committed := commit } = log := by simpa [hrun] using hlog
      by_cases hs : s.core.nextEffectSequence < u64Max
      · refine Leads.step (r := ()) ?_ (.committed s commit may hn hq hfresh hheld hterm leading)
        exact (bind_run_ok (update_run _ s) _).trans (queuePersist_run (by exact hs) _ _)
      · refine Leads.fail (e := .arithmetic .overflow) ?_
          (.commitStuck s commit may hn hq hfresh hheld hterm leading)
        exact (bind_run_ok (update_run _ s) _).trans (queuePersist_overflow (by exact hs) _ _)

/-! ## Reads -/

theorem releaseReadRound_leads (may : cause.MayRelease) :
    Leads (FollowUp cause) (releaseReadRound : StepM C Unit) s := by
  refine .of_same (bind_run_ok (core_run _) _) ?_
  cases found : s.core.readRound with
  | none => exact .pure ()
  | some round =>
    cases safe : round.safeIndex with
    | none => simp only [safe]; exact .pure ()
    | some index =>
      simp only [safe]
      split
      · next hle => exact Leads.step rfl (.readReleased s round index found safe hle may)
      · exact .pure ()

theorem sendReadHeartbeats_run (h : s.core.WF) {round : ReadRound}
    (found : s.core.readRound = some round) :
    (sendReadHeartbeats : StepM C Unit) s =
      (.ok (), ⟨s.core, s.effects ++ Ctx.readHeartbeats s.core round.context⟩) := by
  show (Program.expect s.core.readRound >>= _) s = _
  rw [found]
  show (liftLog (s.core.log.term s.core.log.lastIndex) >>= _) s = _
  rw [h.log.term_lastIndex, ← h.lastLogTerm]
  rfl

/-- A round that starts: the state that `Ctx.roundStarted` describes and, with a quorum of one,
its release and the next pending read. -/
theorem startReadRoundThen_run (h : s.core.WF) (startPending : StepM C Unit) (readId : ReadId)
    (counter : s.core.nextReadContext < u64Max) :
    startReadRoundThen startPending readId s =
      if (ReadRound.new (toBeBytes s.core.hardState.currentTerm ++
          toBeBytes (s.core.nextReadContext + 1)) s.core.config.members s.core.config.localId
          readId).hasQuorum then
        (do releaseReadRound; startPending) (s.roundStarted readId)
      else (.ok (), s.roundStarted readId) := by
  show (liftNext s.core.nextReadContext >>= _) s = _
  rw [liftNext_ok counter]
  dsimp only [bind_pure_run]
  rw [bind_run_ok (update_run _ s)]
  unfold Ctx.roundStarted
  dsimp only
  split
  · next hq => rfl
  · next hq =>
    refine (sendReadHeartbeats_run ?_ rfl).trans rfl
    exact h.congr rfl rfl rfl rfl rfl rfl rfl rfl rfl rfl rfl

theorem startPendingReadsUpTo_leads (may : cause.MayRelease) (turns : Nat) (h : s.core.WF) :
    Leads (FollowUp cause) (startPendingReadsUpTo turns : StepM C Unit) s := by
  induction turns generalizing s with
  | zero => exact .pure ()
  | succ turns ih =>
    show Leads _ (if s.core.role ≠ .leader ∨ (!s.core.currentLeaderNoopIsCommitted) = true ∨
      s.core.readRound.isSome = true then _ else _) s
    split
    · exact .pure ()
    next hguard =>
    simp only [not_or, ne_eq, not_not, Bool.not_eq_true', Bool.not_eq_false, Option.not_isSome_iff_eq_none] at hguard
    obtain ⟨leader, noop, idle⟩ := hguard
    cases queue : s.core.pendingReads with
    | nil => exact .pure ()
    | cons readId rest =>
      dsimp only
      have h₁ : ({ s.core with pendingReads := rest }).WF :=
        h.congr rfl rfl rfl rfl rfl rfl rfl rfl rfl rfl rfl
      by_cases counter : s.core.nextReadContext < u64Max
      · have hstep := @FollowUp.readStarted C cause s readId rest leader noop idle queue counter
        have h₂ := h.followUp hstep
        have hrest : Leads (FollowUp cause) (do releaseReadRound; startPendingReadsUpTo turns :
            StepM C Unit)
            (Ctx.roundStarted ⟨{ s.core with pendingReads := rest }, s.effects⟩ readId) :=
          Leads.bind keeps_wf h₂ (releaseReadRound_leads may) fun _ _ _ h' => ih h'
        have hrun := startReadRoundThen_run (s := ⟨{ s.core with pendingReads := rest }, s.effects⟩)
          h₁ (startPendingReadsUpTo turns) readId counter
        unfold Leads
        rw [bind_run_ok (update_run _ s), hrun]
        split
        · exact ⟨hrest.1, .head hstep hrest.2⟩
        · exact ⟨by simp, .single hstep⟩
      · refine Leads.fail (e := .arithmetic .overflow) ?_ (.readLost s readId rest queue counter)
        rw [bind_run_ok (update_run _ s)]
        show (liftNext s.core.nextReadContext >>= _) _ = _
        rw [liftNext_overflow counter]
        rfl

theorem startPendingReads_leads (may : cause.MayRelease) (h : s.core.WF) :
    Leads (FollowUp cause) (startPendingReads : StepM C Unit) s :=
  startPendingReadsUpTo_leads may _ h

theorem acknowledgeReadContext_leads (h : s.core.WF) {envelope : Envelope C}
    {term matchIndex : Nat} {conflict : Option ConflictHint} {context : Bytes}
    (is : cause.event = .messageReceived envelope)
    (message : envelope.message = .appendEntriesResponse term true matchIndex conflict (some context))
    (leader : s.core.role = .leader) (current : term = s.core.hardState.currentTerm) :
    Leads (FollowUp cause) (acknowledgeReadContext envelope.from_ context : StepM C Unit) s := by
  refine .of_same (bind_run_ok (core_run _) _) ?_
  cases found : s.core.readRound with
  | none => exact .pure ()
  | some round =>
    dsimp only
    split
    · exact .pure ()
    · next same =>
      have same : round.context = context := by simpa using same
      refine Leads.bind keeps_wf h (Leads.step rfl (.readAcknowledged s envelope term matchIndex
        conflict context round is message leader current found same)) ?_
      have may : cause.MayRelease := by
        rw [Cause.MayRelease, is]
        exact ⟨term, matchIndex, conflict, context, message⟩
      exact fun _ _ _ h' => Leads.bind keeps_wf h' (releaseReadRound_leads may)
        fun _ _ _ h'' => startPendingReads_leads may h''

end Ruft
