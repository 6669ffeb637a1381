import Ruft.ChunkStores
import Ruft.Followers

set_option autoImplicit false

/-!
# Sending the chunks of a snapshot

A leader sends a follower the chunks of a snapshot one after the other. The cursor of the
transfer outlives the leadership, and an acknowledgement removes it, so a transfer can start
in the middle, and it can start again.

## Main definitions

- `chunksSent` — the chunks sent to a follower in a leadership
- `Leftover`, `Spent` — what earlier cursors of the follower have sent
- `SendsOn` — the condition under which a step continues every transfer

## Main results

- `chunks_sent_in_order` — in every run whose steps all meet the condition, each transfer starts
  at offset 0 and each chunk starts where the one before ends
-/

namespace Ruft

open Program StepM

variable {C : Type} {c d : RaftCore C} {event : Event C} {history : List (Record C)}

/-! ## What is sent -/

/-- Offset and bytes of the chunks of a snapshot that are sent to a follower in a term. -/
def chunksTo (term : Nat) (to_ : NodeId) (id : SnapshotId) (effects : List (Effect C)) :
    List (Nat × Bytes) := effects.filterMap fun
  | .sendMessage node (.installSnapshot term' metadata offset bytes _) =>
    if term' = term ∧ node = to_ ∧ metadata.id = id then some (offset, bytes) else none
  | _ => none

@[simp] theorem chunksTo_append (term : Nat) (to_ : NodeId) (id : SnapshotId)
    (effects later : List (Effect C)) : chunksTo term to_ id (effects ++ later) =
      chunksTo term to_ id effects ++ chunksTo term to_ id later := List.filterMap_append

/-- The chunks of a snapshot that were sent to a follower in a term, since the node became
leader, oldest first. -/
def chunksSent (term : Nat) (to_ : NodeId) (id : SnapshotId) : List (Record C) → List (Nat × Bytes)
  | [] => []
  | r :: earlier =>
    if r.before.role = .leader then
      chunksSent term to_ id earlier ++ chunksTo term to_ id r.effects
    else if r.after.role = .leader then chunksTo term to_ id r.effects
    else []

/-- Every transfer of the leadership starts at offset 0 and goes on where it stopped. -/
def InOrder (history : List (Record C)) : Prop :=
  ∀ term to_ id, LinesUp 0 (chunksSent term to_ id history)

/-! ## The condition -/

/-- The node leads in one term throughout the step. -/
def Record.Stays (r : Record C) : Prop :=
  r.before.role = .leader ∧ r.after.role = .leader ∧
    r.after.hardState.currentTerm = r.before.hardState.currentTerm

instance (r : Record C) : Decidable r.Stays := inferInstanceAs (Decidable (_ ∧ _))

/-- The snapshot whose transfer to the follower is given up, or started again, after some of it
was sent. -/
def Record.gaveUp (r : Record C) (to_ : NodeId) : Option SnapshotId :=
  (r.before.snapshotSenders.get to_).bind fun sender =>
    if 0 < sender.offset ∧ (r.after.snapshotSenders.get to_).all (·.offset = 0) then
      some sender.snapshot.metadata.id
    else none

/-- The cursor of the follower is from before the leadership, and had moved. -/
def Leftover (to_ : NodeId) : List (Record C) → Prop
  | [] => False
  | r :: earlier =>
    if r.Stays then Leftover to_ earlier ∧ r.gaveUp to_ = none
    else (r.after.snapshotSenders.get to_).any (0 < ·.offset) = true

instance Leftover.decidable (to_ : NodeId) :
    (history : List (Record C)) → Decidable (Leftover to_ history)
  | [] => inferInstanceAs (Decidable False)
  | r :: earlier =>
    have := Leftover.decidable to_ earlier
    inferInstanceAs (Decidable (if r.Stays then Leftover to_ earlier ∧ r.gaveUp to_ = none
      else (r.after.snapshotSenders.get to_).any (0 < ·.offset) = true))

/-- The leadership gave up a transfer of the snapshot to the follower after it had sent some
of it. -/
def Spent (to_ : NodeId) (id : SnapshotId) : List (Record C) → Prop
  | [] => False
  | r :: earlier => r.Stays ∧
    (Spent to_ id earlier ∨ ¬ Leftover to_ earlier ∧ r.gaveUp to_ = some id)

instance Spent.decidable (to_ : NodeId) (id : SnapshotId) :
    (history : List (Record C)) → Decidable (Spent to_ id history)
  | [] => inferInstanceAs (Decidable False)
  | r :: earlier =>
    have := Spent.decidable to_ id earlier
    inferInstanceAs (Decidable (r.Stays ∧
      (Spent to_ id earlier ∨ ¬ Leftover to_ earlier ∧ r.gaveUp to_ = some id)))

/-- The chunk that was read is the one that the cursor of the follower is at. -/
structure ReadsOn (c : RaftCore C) (id : EffectId) (snapshotId : SnapshotId) (chunk : Chunk)
    (to_ : NodeId) (sender advanced : SnapshotSender) : Prop where
  pending : c.pendingSnapshotReads.get id = some to_
  found : c.snapshotSenders.get to_ = some sender
  same : snapshotId = sender.snapshot.metadata.id ∧ chunk.offset = sender.offset
  size : chunk.bytes.length ≤ c.config.snapshotChunkBytes
  moved : sender.advance chunk.bytes.length = some advanced

/-- The completion of a read makes the cursor of a follower send a chunk. -/
structure SendsChunk (c : RaftCore C) (id : EffectId) (snapshotId : SnapshotId) (chunk : Chunk)
    (to_ : NodeId) (sender advanced : SnapshotSender) : Prop
    extends ReadsOn c id snapshotId chunk to_ sender advanced where
  running : c.stopped = false
  valid : c.validateCompletion id
    (.snapshotChunkRead snapshotId chunk.offset chunk.bytes chunk.done) = .ok ()

/-- The cursor is from this leadership, which had no other for the snapshot; and the next chunk
can be read after this one. -/
structure GoesOn (history : List (Record C)) (c : RaftCore C) (to_ : NodeId)
    (sender : SnapshotSender) (done : Bool) : Prop where
  own : ¬ Leftover to_ history
  first : ¬ Spent to_ sender.snapshot.metadata.id history
  room : done = false → Room c
  applies : ApplyFits c (if done then 0 else 1)

/-- The condition on a step. -/
def SendsOn : Condition C := fun history c event => match event with
  | .effectCompleted id (.snapshotChunkRead snapshotId offset bytes done) => c.role = .leader →
    ∀ to_ sender advanced, SendsChunk c id snapshotId ⟨offset, bytes, done⟩ to_ sender advanced →
      GoesOn history c to_ sender done
  | _ => True

/-! ## A step that sends a chunk -/

/-- What a completed read leaves behind. -/
structure ChunkSent (c : RaftCore C) (chunk : Chunk) (to_ : NodeId)
    (sender advanced : SnapshotSender) (s : Ctx C) : Prop where
  core : ∃ sequence reads, s.core = { c with
    nextEffectSequence := sequence, pendingSnapshotReads := reads
    snapshotSenders := c.snapshotSenders.insert to_ advanced } ∧
    sequence ≤ c.nextEffectSequence + if chunk.done then 0 else 1
  effects : ∃ asked, s.effects = .sendMessage to_ (.installSnapshot c.hardState.currentTerm
      sender.snapshot.metadata chunk.offset chunk.bytes chunk.done) :: asked ∧
    ∀ e ∈ asked, ∃ id snapshot offset maxLen, e = .readSnapshotChunk id snapshot offset maxLen

/-- `read_snapshot_chunk` where there is a cursor. -/
theorem readSnapshotChunk_again {s : Ctx C} {to_ : NodeId} {sender : SnapshotSender}
    (room : Room s.core) (found : s.core.snapshotSenders.get to_ = some sender) :
    ∃ sequence reads asked, (readSnapshotChunk to_ : StepM C Unit) s = (.ok (), ⟨{ s.core with
      nextEffectSequence := sequence, pendingSnapshotReads := reads }, s.effects ++ asked⟩) ∧
      sequence ≤ s.core.nextEffectSequence + 1 ∧
      ∀ e ∈ asked, ∃ id snapshot offset maxLen, e = .readSnapshotChunk id snapshot offset maxLen := by
  by_cases busy : to_ ∈ s.core.pendingSnapshotReads.values
  · refine ⟨s.core.nextEffectSequence, s.core.pendingSnapshotReads, [], ?_, Nat.le_succ _, by simp⟩
    rw [readSnapshotChunk, bind_run_ok (core_run _), if_pos busy, List.append_nil]
    rfl
  · refine ⟨s.core.nextEffectSequence + 1, s.core.pendingSnapshotReads.insert s.allocated to_,
      [.readSnapshotChunk s.allocated sender.snapshot sender.offset
        s.core.config.snapshotChunkBytes], ?_, le_rfl, by simp⟩
    rw [readSnapshotChunk, bind_run_ok (core_run _), if_neg busy, found]
    exact (requestChunk_run found).1 room

theorem onOutgoingSnapshotCompletion_sends {id : EffectId} {snapshotId : SnapshotId} {chunk : Chunk}
    {to_ : NodeId} {sender advanced : SnapshotSender}
    (sends : SendsChunk c id snapshotId chunk to_ sender advanced)
    (room : chunk.done = false → Room c) : ∃ s, (onOutgoingSnapshotCompletion id
      (.snapshotChunkRead snapshotId chunk.offset chunk.bytes chunk.done) : StepM C Bool) ⟨c, []⟩ =
      (.ok true, s) ∧ ChunkSent c chunk to_ sender advanced s := by
  obtain ⟨⟨pending, found, same, size, moved⟩, -, -⟩ := sends
  rw [onOutgoingSnapshotCompletion, bind_run_ok (core_run _), pending]
  show ∃ s, (Program.expect (c.snapshotSenders.get to_) >>= _ : StepM C Bool) _ = _ ∧ _
  rw [found]
  show ∃ s, (if snapshotId = sender.snapshot.metadata.id ∧ chunk.offset = sender.offset
    then _ else _ : StepM C Bool) _ = _ ∧ _
  rw [if_pos same]
  show ∃ s, (if c.config.snapshotChunkBytes < chunk.bytes.length then _ else _ : StepM C Bool) _ =
    _ ∧ _
  rw [if_neg (Nat.not_lt.mpr size), moved]
  cases more : chunk.done with
  | true =>
    exact ⟨_, rfl, ⟨⟨_, _, rfl, Nat.le_add_right _ _⟩, [], by rw [more]; rfl, by simp⟩⟩
  | false =>
    obtain ⟨sequence, reads, asked, run, le, only⟩ := @readSnapshotChunk_again C
      ⟨{ c with
          pendingSnapshotReads := c.pendingSnapshotReads.remove id
          snapshotSenders := c.snapshotSenders.insert to_ advanced },
        [.sendMessage to_ (.installSnapshot c.hardState.currentTerm sender.snapshot.metadata
          chunk.offset chunk.bytes false)]⟩ to_ advanced (room more) (by simp)
    refine ⟨⟨{ c with
        nextEffectSequence := sequence, pendingSnapshotReads := reads
        snapshotSenders := c.snapshotSenders.insert to_ advanced }, _ :: asked⟩, bind_run_ok run _,
      ⟨sequence, reads, rfl, ?_⟩, asked, ?_, only⟩
    · rw [more]
      exact le
    · rw [more]

theorem handle_sends [Sha256] {id : EffectId} {snapshotId : SnapshotId} {chunk : Chunk}
    {to_ : NodeId} {sender advanced : SnapshotSender}
    (sends : SendsChunk c id snapshotId chunk to_ sender advanced)
    (room : chunk.done = false → Room c) : ∃ s, (handle (.effectCompleted id
      (.snapshotChunkRead snapshotId chunk.offset chunk.bytes chunk.done)) : StepM C Unit) ⟨c, []⟩ =
      (.ok (), ⟨s.core.recordCompletion id
        (.snapshotChunkRead snapshotId chunk.offset chunk.bytes chunk.done), s.effects⟩) ∧
      ChunkSent c chunk to_ sender advanced s := by
  obtain ⟨s, run, sent⟩ := onOutgoingSnapshotCompletion_sends sends room
  have generation : ¬ id.generation ≠ c.config.generation := by
    intro stale
    have valid := sends.valid
    rw [RaftCore.validateCompletion, if_pos stale] at valid
    simp [Outcome.raise] at valid
  have completed : (onEffectCompleted id
      (.snapshotChunkRead snapshotId chunk.offset chunk.bytes chunk.done) : StepM C Unit) ⟨c, []⟩ =
      (.ok (), s) := by
    rw [onEffectCompleted, bind_run_ok (core_run _), if_neg generation, bind_run_ok run]
    rfl
  refine ⟨s, ?_, sent⟩
  show (liftPure (c.validateCompletion id _) >>= _ : StepM C Unit) _ = _
  rw [sends.valid]
  show (onEffectCompleted id _ >>= _ : StepM C Unit) _ = _
  rw [bind_run_ok completed]
  rfl

/-- The chunk a completion sends, and nothing else of a snapshot. -/
theorem ChunkSent.chunksTo {chunk : Chunk} {to_ : NodeId} {sender advanced : SnapshotSender}
    {s : Ctx C} (h : ChunkSent c chunk to_ sender advanced s) (term : Nat) (node : NodeId)
    (id : SnapshotId) : chunksTo term node id s.effects =
      if c.hardState.currentTerm = term ∧ to_ = node ∧ sender.snapshot.metadata.id = id then
        [(chunk.offset, chunk.bytes)]
      else [] := by
  obtain ⟨asked, effects, only⟩ := h.effects
  have silent : Ruft.chunksTo term node id asked = [] := by
    rw [Ruft.chunksTo, List.filterMap_eq_nil_iff]
    intro e mem
    obtain ⟨id, snapshot, offset, maxLen, rfl⟩ := only e mem
    rfl
  rw [effects, Ruft.chunksTo, List.filterMap_cons]
  simp only [← Ruft.chunksTo.eq_def, silent]
  split <;> simp_all

/-- An apply sends nothing. -/
theorem chunksTo_applies {applies : List (Effect C)}
    (all : ∀ e ∈ applies, ∃ id entries, e = .apply id entries) (term : Nat) (to_ : NodeId)
    (id : SnapshotId) : chunksTo term to_ id applies = [] := by
  rw [chunksTo, List.filterMap_eq_nil_iff]
  intro e mem
  obtain ⟨id, entries, rfl⟩ := all e mem
  rfl

/-- A step whose completion sends a chunk moves the cursor and sends the chunk, or stops the
core. -/
structure SendStep (c : RaftCore C) (chunk : Chunk) (to_ : NodeId)
    (sender advanced : SnapshotSender) (r : Record C) : Prop where
  senders : r.after.snapshotSenders = c.snapshotSenders.insert to_ advanced
  role : r.after.role = c.role
  term : r.after.hardState.currentTerm = c.hardState.currentTerm
  sent : (r.after.stopped = true ∧ r.effects = []) ∨ ∀ term node id,
    chunksTo term node id r.effects =
      if c.hardState.currentTerm = term ∧ to_ = node ∧ sender.snapshot.metadata.id = id then
        [(chunk.offset, chunk.bytes)]
      else []

theorem send_step [Sha256] (wf : c.WF) {id : EffectId} {snapshotId : SnapshotId} {chunk : Chunk}
    {to_ : NodeId} {sender advanced : SnapshotSender}
    (sends : SendsChunk c id snapshotId chunk to_ sender advanced)
    (room : chunk.done = false → Room c) (applies : ApplyFits c (if chunk.done then 0 else 1))
    {result : Outcome StepError (StepOutput C)}
    (run : step c (.effectCompleted id
      (.snapshotChunkRead snapshotId chunk.offset chunk.bytes chunk.done)) = (result, d))
    (returns : result ≠ Outcome.panic) : SendStep c chunk to_ sender advanced
      ⟨c, .effectCompleted id
        (.snapshotChunkRead snapshotId chunk.offset chunk.bytes chunk.done), result, d⟩ := by
  obtain ⟨s, handled, sent⟩ := handle_sends sends room
  obtain ⟨sequence, reads, core, le⟩ := sent.core
  obtain ⟨sequence', applying, proposals, stopped, reason, frame, -⟩ := step_frame sends.running
    (.effectCompleted id (.snapshotChunkRead snapshotId chunk.offset chunk.bytes chunk.done))
  rw [run, handled, core] at frame
  obtain rfl : d = _ := frame
  refine ⟨rfl, rfl, rfl, ?_⟩
  have wf' : (s.core.recordCompletion id
      (.snapshotChunkRead snapshotId chunk.offset chunk.bytes chunk.done)).WF := by
    rw [core]
    exact wf.congr rfl rfl rfl rfl rfl rfl rfl rfl rfl rfl rfl
  have completes := handled_returns wf' sends.running handled applies (by rw [core]; rfl)
    (by rw [core]; exact Iff.rfl) (by rw [core]; rfl) (by rw [core]; rfl) (by rw [core]; rfl)
    (by rw [core]; exact le) run returns
  rcases step_effects sends.running run (by rw [handled, core]; rfl) with
    ⟨f, rfl⟩ | ⟨new, all, -, effects⟩
  · exact .inl ⟨completes.resolve_right (by simp), rfl⟩
  · right
    intro term node id
    rw [effects, handled, chunksTo_append, chunksTo_applies all, List.append_nil]
    exact sent.chunksTo term node id

/-! ## The other steps -/

/-- The cursor is kept, given up or new. -/
def CursorMove (before after : Option SnapshotSender) : Prop :=
  after = before ∨ ∀ sender, after = some sender → sender.offset = 0

/-- No chunk is sent, and no cursor goes on. -/
structure SendsNothing (c : RaftCore C) (s : Ctx C) : Prop where
  cursors : ∀ to_, CursorMove (c.snapshotSenders.get to_) (s.core.snapshotSenders.get to_)
  quiet : ∀ to_ term metadata offset bytes done,
    .sendMessage to_ (.installSnapshot term metadata offset bytes done) ∉ s.effects
  term : c.hardState.currentTerm ≤ s.core.hardState.currentTerm

theorem SendsNothing.of_same {s : Ctx C} (senders : s.core.snapshotSenders = c.snapshotSenders)
    (quiet : ∀ to_ term metadata offset bytes done,
      .sendMessage to_ (.installSnapshot term metadata offset bytes done) ∉ s.effects)
    (term : c.hardState.currentTerm ≤ s.core.hardState.currentTerm) : SendsNothing c s :=
  ⟨fun to_ => .inl (by rw [senders]), quiet, term⟩

theorem chunksTo_eq_nil {effects : List (Effect C)}
    (quiet : ∀ to_ term metadata offset bytes done,
      .sendMessage to_ (.installSnapshot term metadata offset bytes done) ∉ effects)
    (term : Nat) (to_ : NodeId) (id : SnapshotId) : chunksTo term to_ id effects = [] := by
  rw [chunksTo, List.filterMap_eq_nil_iff]
  intro e mem
  cases e with
  | sendMessage node m =>
    cases m with
    | installSnapshot => exact absurd mem (quiet _ _ _ _ _ _)
    | _ => rfl
  | _ => rfl

theorem MessageAct.sendsNothing {from_ : NodeId} {m : Message C} {s : Ctx C}
    (act : MessageAct c from_ m s) : SendsNothing c s := by
  cases act with
  | refused m reply refusal => exact .of_same rfl (by cases refusal <;> simp) le_rfl
  | termRaised m term is newer => exact .of_same rfl (by simp [Ctx.queued]) newer.le
  | voteNewer term index logTerm newer => exact .of_same rfl (by simp [Ctx.queued]) newer.le
  | voteFirst term index logTerm same => exact .of_same rfl (by simp [Ctx.queued]) same.le
  | campaigned => exact .of_same rfl (by simp [Ctx.queued]) (Nat.le_succ _)
  | appendRefused term prev prevTerm leaderCommit context entries same reply refusal =>
    exact .of_same rfl (by cases refusal <;> simp) le_rfl
  | appendRejected term prev prevTerm leaderCommit context entries newer =>
    exact .of_same rfl (by simp [Ctx.queued]) newer.le
  | appendAccepted term prev prevTerm leaderCommit context entries log appended hardState reached =>
    exact .of_same rfl (by simp [Ctx.queued]) reached
  | senderDone =>
    refine ⟨fun to_ => ?_, by simp, le_rfl⟩
    by_cases same : to_ = from_
    · exact .inr fun sender found => by simp [same] at found
    · exact .inl (by simp [same])
  | _ => exact .of_same rfl (by simp [Ctx.queued]) le_rfl

theorem CompletionAct.sendsNothing [Sha256] {id : EffectId} {outcome : EffectOutcome} {s : Ctx C}
    (other : ∀ snapshotId chunk to_ sender advanced,
      outcome = .snapshotChunkRead snapshotId chunk.offset chunk.bytes chunk.done →
      ¬ ReadsOn c id snapshotId chunk to_ sender advanced)
    (act : CompletionAct c id outcome s) : SendsNothing c s := by
  cases act with
  | chunkRead snapshotId offset bytes done to_ sender advanced pending found same moved fits =>
    exact absurd ⟨pending, found, same, fits, moved⟩
      (other snapshotId ⟨offset, bytes, done⟩ to_ sender advanced rfl)
  | installed => exact .of_same rfl (by simp) (Nat.le_max_left _ _)
  | applyDone => exact .of_same rfl (by simp [Ctx.answered]) le_rfl
  | _ => exact .of_same rfl (by simp [Ctx.queued, toPeers]) le_rfl

/-- The event is no read of a chunk that a cursor is at. -/
def ReadsNothing (c : RaftCore C) (event : Event C) : Prop :=
  ∀ id snapshotId chunk to_ sender advanced, event = .effectCompleted id
      (.snapshotChunkRead snapshotId chunk.offset chunk.bytes chunk.done) →
    ¬ ReadsOn c id snapshotId chunk to_ sender advanced

theorem SendsNothing.roundStarted {s : Ctx C} (h : SendsNothing c s) (readId : ReadId) :
    SendsNothing c (s.roundStarted readId) := by
  obtain ⟨round, core⟩ := s.roundStarted_core readId
  refine ⟨fun to_ => by rw [core]; exact h.cursors to_, ?_, by rw [core]; exact h.term⟩
  rcases s.roundStarted_effects readId with same | ⟨context, same⟩
  · rw [same]
    exact h.quiet
  · rw [same]
    simp [Ctx.readHeartbeats, toPeers, h.quiet]

theorem Act.sendsNothing [Sha256] {s : Ctx C} (other : ReadsNothing c event) (act : Act c event s) :
    SendsNothing c s := by
  cases act with
  | message envelope members s known mine act =>
    obtain ⟨cursors, quiet, term⟩ := act.sendsNothing
    exact ⟨cursors, quiet, term⟩
  | readStarted readId =>
    have start : SendsNothing c ⟨c, []⟩ := .of_same rfl (by simp) le_rfl
    exact start.roundStarted readId
  | completed id outcome s act =>
    exact act.sendsNothing fun _ _ _ _ _ is => other id _ _ _ _ _ (by rw [is])
  | campaigned => exact .of_same rfl (by simp [Ctx.queued]) (Nat.le_succ _)
  | _ => exact .of_same rfl (by simp [Ctx.queued, toPeers]) le_rfl

theorem FollowUp.sendsNothing {cause : Cause C} {s s' : Ctx C} (h : SendsNothing c s)
    (hf : FollowUp cause s s') : SendsNothing c s' := by
  cases hf with
  | senderCreated to_ snapshot log fresh =>
    refine ⟨fun node => ?_, h.quiet, h.term⟩
    by_cases same : node = to_
    · refine .inr fun sender found => ?_
      simp only [same, BTreeMap.get_insert, if_true, Option.some.injEq] at found
      exact congrArg SnapshotSender.offset found.symm
    · simpa only [BTreeMap.get_insert, if_neg same] using h.cursors node
  | readStarted readId rest =>
    have h' : SendsNothing c ⟨{ s.core with pendingReads := rest }, s.effects⟩ :=
      ⟨h.cursors, h.quiet, h.term⟩
    exact h'.roundStarted readId
  | snapshotEntered | commitStuck | readAcknowledged | readLost | recorded =>
    exact ⟨h.cursors, h.quiet, h.term⟩
  | _ => exact ⟨h.cursors, by simp [Ctx.queued, h.quiet], h.term⟩

theorem Path.sendsNothing [Sha256] {s : Ctx C} (other : ReadsNothing c event)
    (path : Path c event s) : SendsNothing c s := by
  obtain ⟨s₀, s, act, rest⟩ := path
  induction rest with
  | refl => exact act.sendsNothing other
  | tail _ hstep ih => exact hstep.sendsNothing ih

/-- A step that sends no chunk. -/
theorem step_sendsNothing [Sha256] (wf : c.WF) (running : c.stopped = false)
    (other : ReadsNothing c event) {result : Outcome StepError (StepOutput C)}
    (run : step c event = (result, d)) (returns : result ≠ Outcome.panic) :
    SendsNothing c ⟨d, (Record.mk c event result d).effects⟩ := by
  have failed : ∀ {s : Ctx C} {f}, SendsNothing c s → d.snapshotSenders = s.core.snapshotSenders →
      d.hardState = s.core.hardState → result = .error f →
      SendsNothing c ⟨d, (Record.mk c event result d).effects⟩ := by
    rintro s f h senders hard rfl
    exact ⟨fun to_ => by rw [senders]; exact h.cursors to_, by simp [Record.effects],
      by rw [hard]; exact h.term⟩
  have finished : ∀ {s : Ctx C}, SendsNothing c s → SendsNothing c (s.finished c) := by
    intro s h
    unfold Ctx.finished
    split
    · exact ⟨h.cursors, by simp [Ctx.answered, h.quiet], h.term⟩
    · exact h
  have cases := step_cases wf running event
  rw [run] at cases
  cases cases with
  | panicked => exact absurd rfl returns
  | halted e c' reason halted =>
    obtain ⟨-, reads, store, incoming, building, applying, persist, rfl⟩ := halted
    exact .of_same rfl (by simp [Record.effects]) le_rfl
  | returned s changed path => exact finished (path.sendsNothing other)
  | failed s e path => exact failed (path.sendsNothing other) rfl rfl rfl
  | crashed s e reason path => exact failed (path.sendsNothing other) rfl rfl rfl
  | invalid s e reason path => exact failed (finished (path.sendsNothing other)) rfl rfl rfl
  | stuck e s stuck =>
    cases stuck with
    | queued d batch continuation full act =>
      obtain ⟨cursors, -, term⟩ := act.sendsNothing other
      exact ⟨cursors, by simp [Record.effects], term⟩
    | dropped => exact .of_same rfl (by simp [Record.effects]) le_rfl

/-- A completion that was reported before changes nothing. -/
theorem step_reported [Sha256] (running : c.stopped = false) {id : EffectId}
    {outcome : EffectOutcome} (invalid : c.validateCompletion id outcome ≠ .ok ())
    {result : Outcome StepError (StepOutput C)}
    (run : step c (.effectCompleted id outcome) = (result, d)) :
    SendsNothing c ⟨d, (Record.mk c (.effectCompleted id outcome) result d).effects⟩ := by
  obtain ⟨f, handled⟩ : ∃ f, handle (.effectCompleted id outcome) ⟨c, []⟩ = (.error f, ⟨c, []⟩) := by
    show ∃ f, (liftPure (c.validateCompletion id outcome) >>= _ : StepM C Unit) _ = _
    cases h : c.validateCompletion id outcome with
    | ok => exact absurd h invalid
    | error f => cases f with
      | panic => exact ⟨_, rfl⟩
      | raise e => exact ⟨_, rfl⟩
  obtain ⟨f', rfl⟩ := step_error running handled run
  obtain ⟨sequence, applying, proposals, stopped, reason, frame, -⟩ :=
    step_frame running (.effectCompleted id outcome)
  rw [run, handled] at frame
  obtain rfl : d = _ := frame
  exact .of_same rfl (by simp [Record.effects]) le_rfl

/-! ## A run -/

/-- The completion of a read leaves the role. -/
theorem Act.chunkRead_role [Sha256] {id : EffectId} {snapshotId : SnapshotId} {offset : Nat}
    {bytes : Bytes} {done : Bool} {s : Ctx C}
    (act : Act c (.effectCompleted id (.snapshotChunkRead snapshotId offset bytes done)) s) :
    s.core.role = c.role := by
  cases act with
  | ignored => rfl
  | completed id outcome s act => cases act <;> rfl

theorem step_chunkRead_role [Sha256] (wf : c.WF) (running : c.stopped = false) {id : EffectId}
    {snapshotId : SnapshotId} {offset : Nat} {bytes : Bytes} {done : Bool}
    {result : Outcome StepError (StepOutput C)}
    (run : step c (.effectCompleted id (.snapshotChunkRead snapshotId offset bytes done)) =
      (result, d)) (returns : result ≠ Outcome.panic) : d.role = c.role := by
  cases step_ends wf running run returns with
  | kept same => exact same.role
  | moved s path same =>
    obtain ⟨s₀, s, act, rest⟩ := path
    exact same.role.trans (rest.frame.role.trans act.chunkRead_role)
  | stuck s act busy same => exact same.role.trans act.chunkRead_role

/-- How far the transfer of a snapshot got: where the cursor is, if it is of this leadership. -/
inductive SentUpTo (history : List (Record C)) (c : RaftCore C) (to_ : NodeId) (id : SnapshotId) :
    Nat → Prop
  | own (sender : SnapshotSender) (found : c.snapshotSenders.get to_ = some sender)
      (is : sender.snapshot.metadata.id = id) (own : ¬ Leftover to_ history) :
      SentUpTo history c to_ id sender.offset
  | none (other : ∀ sender, c.snapshotSenders.get to_ = some sender →
      sender.snapshot.metadata.id = id → Leftover to_ history) : SentUpTo history c to_ id 0

/-- The invariant. -/
structure SendingInOrder (history : List (Record C)) (c : RaftCore C) : Prop where
  inOrder : InOrder history
  later : ∀ term to_ id, c.hardState.currentTerm < term → chunksSent term to_ id history = []
  upTo : c.role = .leader → c.stopped = false → ∀ to_ id, ¬ Spent to_ id history →
    SentUpTo history c to_ id
      (storedBytes (chunksSent c.hardState.currentTerm to_ id history)).length

variable {r : Record C} {to_ : NodeId} {id : SnapshotId}

theorem Record.gaveUp_kept
    (kept : r.after.snapshotSenders.get to_ = r.before.snapshotSenders.get to_) :
    r.gaveUp to_ = none := by
  rw [Record.gaveUp, kept]
  cases r.before.snapshotSenders.get to_ with
  | none => rfl
  | some sender => exact if_neg fun ⟨moved, zero⟩ => absurd (of_decide_eq_true zero) moved.ne'

theorem leftover_stays (stays : r.Stays) (kept : r.gaveUp to_ = none) :
    Leftover to_ (r :: history) ↔ Leftover to_ history := by
  rw [Leftover, if_pos stays]
  exact and_iff_left kept

/-- Where a cursor that can send has sent nothing. -/
theorem SentUpTo.zero (fresh : ∀ sender, c.snapshotSenders.get to_ = some sender →
    ¬ Leftover to_ history → sender.offset = 0) : SentUpTo history c to_ id 0 := by
  by_cases own : ∃ sender, c.snapshotSenders.get to_ = some sender ∧
      sender.snapshot.metadata.id = id ∧ ¬ Leftover to_ history
  · obtain ⟨sender, found, is, own⟩ := own
    rw [← fresh sender found own]
    exact .own sender found is own
  · refine .none fun sender found is => ?_
    by_contra new
    exact own ⟨sender, found, is, new⟩

theorem SentUpTo.kept {n : Nat} (h : SentUpTo history r.before to_ id n) (stays : r.Stays)
    (kept : r.after.snapshotSenders.get to_ = r.before.snapshotSenders.get to_) :
    SentUpTo (r :: history) r.after to_ id n := by
  have same : Leftover to_ (r :: history) ↔ Leftover to_ history :=
    leftover_stays stays (Record.gaveUp_kept kept)
  cases h with
  | own sender found is own => exact .own sender (kept.trans found) is (mt same.mp own)
  | none other =>
    exact .none fun sender found is => same.mpr (other sender (kept.symm.trans found) is)

theorem SentUpTo.offset {n : Nat} {sender : SnapshotSender} (h : SentUpTo history c to_ id n)
    (found : c.snapshotSenders.get to_ = some sender) (own : ¬ Leftover to_ history)
    (is : sender.snapshot.metadata.id = id) : n = sender.offset := by
  cases h with
  | own sender' found' => rw [Option.some.inj (found.symm.trans found')]
  | none other => exact absurd (other sender found is) own

theorem SentUpTo.other {n : Nat} {sender : SnapshotSender} (h : SentUpTo history c to_ id n)
    (found : c.snapshotSenders.get to_ = some sender)
    (other : sender.snapshot.metadata.id ≠ id) : n = 0 := by
  cases h with
  | own sender' found' is => exact absurd is (Option.some.inj (found.symm.trans found') ▸ other)
  | none => rfl

/-- Nothing is sent of what comes after a transfer that was given up. -/
theorem SentUpTo.renewed {n : Nat} (h : SentUpTo history r.before to_ id n)
    (fresh : ∀ sender, r.after.snapshotSenders.get to_ = some sender → sender.offset = 0)
    (kept : ¬ Leftover to_ history → r.gaveUp to_ ≠ some id) :
    SentUpTo (r :: history) r.after to_ id n := by
  obtain rfl : n = 0 := by
    cases h with
    | none => rfl
    | own sender found is own =>
      by_contra moved
      refine kept own ?_
      rw [Record.gaveUp, found]
      refine (if_pos ⟨Nat.pos_of_ne_zero moved, ?_⟩).trans (congrArg some is)
      rw [Option.all_eq_true]
      exact fun after at_ => decide_eq_true (fresh after at_)
  exact .zero fun sender found _ => fresh sender found

theorem spent_stays (stays : r.Stays) (h : ¬ Spent to_ id (r :: history)) :
    ¬ Spent to_ id history ∧ (¬ Leftover to_ history → r.gaveUp to_ ≠ some id) :=
  ⟨fun spent => h ⟨stays, .inl spent⟩, fun own gave => h ⟨stays, .inr ⟨own, gave⟩⟩⟩

/-- A leadership that begins has sent nothing. -/
theorem SentUpTo.begins (begins : ¬ r.Stays) : SentUpTo (r :: history) r.after to_ id 0 := by
  refine .zero fun sender found own => ?_
  rw [Leftover, if_neg begins, found] at own
  by_contra moved
  exact own (decide_eq_true (Nat.pos_of_ne_zero moved))

/-- A step that sends no chunk. -/
theorem SendingInOrder.nothing {result : Outcome StepError (StepOutput C)}
    (h : SendingInOrder history c) (running : d.stopped = false → c.stopped = false)
    (nothing : SendsNothing c ⟨d, (Record.mk c event result d).effects⟩) :
    SendingInOrder (⟨c, event, result, d⟩ :: history) d := by
  have quiet := chunksTo_eq_nil nothing.quiet
  by_cases leader : c.role = .leader
  · have same : ∀ term to_ id, chunksSent term to_ id (⟨c, event, result, d⟩ :: history) =
        chunksSent term to_ id history := by
      intro term to_ id
      rw [chunksSent, if_pos leader, quiet, List.append_nil]
    refine ⟨fun term to_ id => by rw [same]; exact h.inOrder term to_ id, fun term to_ id above => ?_,
      fun leads runs to_ id first => ?_⟩
    · rw [same]
      exact h.later term to_ id (Nat.lt_of_le_of_lt nothing.term above)
    · rw [same]
      by_cases stays : d.hardState.currentTerm = c.hardState.currentTerm
      · have stays : (Record.mk c event result d).Stays := ⟨leader, leads, stays⟩
        obtain ⟨first, kept⟩ := spent_stays stays first
        rw [stays.2.2]
        have upTo := h.upTo leader (running runs) to_ id first
        rcases nothing.cursors to_ with same | fresh
        · exact upTo.kept stays same
        · exact upTo.renewed fresh kept
      · have newer := Nat.lt_of_le_of_ne nothing.term (Ne.symm stays)
        rw [h.later _ to_ id newer]
        exact .begins fun all => stays all.2.2
  · have none : ∀ term to_ id, chunksSent term to_ id (⟨c, event, result, d⟩ :: history) = [] := by
      intro term to_ id
      rw [chunksSent, if_neg leader, quiet, ite_self]
    refine ⟨fun term to_ id => by rw [none]; trivial, fun term to_ id _ => none term to_ id,
      fun leads runs to_ id first => ?_⟩
    rw [none]
    exact .begins fun all => leader all.1

/-- Where nobody leads, nothing counts. -/
theorem SendingInOrder.follows {result : Outcome StepError (StepOutput C)}
    (before : c.role ≠ .leader) (after : d.role ≠ .leader) :
    SendingInOrder (⟨c, event, result, d⟩ :: history) d := by
  have none : ∀ term to_ id, chunksSent term to_ id (⟨c, event, result, d⟩ :: history) = [] := by
    intro term to_ id
    rw [chunksSent, if_neg before, if_neg after]
  exact ⟨fun term to_ id => by rw [none]; trivial, fun term to_ id _ => none term to_ id,
    fun leads => absurd leads after⟩

theorem SnapshotSender.advance_eq {sender advanced : SnapshotSender} {bytes : Nat}
    (h : sender.advance bytes = some advanced) :
    advanced = { sender with offset := sender.offset + bytes } := by
  rw [SnapshotSender.advance] at h
  split at h
  · exact (Option.some.inj h).symm
  · simp at h

/-- A leader sends the next chunk. -/
theorem SendingInOrder.send {chunk : Chunk} {sender advanced : SnapshotSender}
    {result : Outcome StepError (StepOutput C)} (h : SendingInOrder history c)
    (leader : c.role = .leader) (running : c.stopped = false)
    (found : c.snapshotSenders.get to_ = some sender) (at_ : chunk.offset = sender.offset)
    (moved : sender.advance chunk.bytes.length = some advanced)
    (goesOn : GoesOn history c to_ sender chunk.done)
    (sends : SendStep c chunk to_ sender advanced ⟨c, event, result, d⟩) :
    SendingInOrder (⟨c, event, result, d⟩ :: history) d := by
  obtain ⟨senders, role, term, sent⟩ := sends
  have senders : d.snapshotSenders = c.snapshotSenders.insert to_ advanced := senders
  have role : d.role = c.role := role
  have term : d.hardState.currentTerm = c.hardState.currentTerm := term
  have stays : (Record.mk c event result d).Stays := ⟨leader, role.trans leader, term⟩
  have grows : ∀ term node id, chunksSent term node id (⟨c, event, result, d⟩ :: history) =
      chunksSent term node id history ++
        chunksTo term node id (Record.mk c event result d).effects :=
    fun _ _ _ => if_pos leader
  -- the step stops the core and sends nothing, or sends exactly this chunk
  rcases sent with ⟨stopped, nothing⟩ | sent
  · have same : ∀ term node id, chunksSent term node id (⟨c, event, result, d⟩ :: history) =
        chunksSent term node id history := fun _ _ _ => by rw [grows, nothing]; exact List.append_nil _
    refine ⟨fun term node id => by rw [same]; exact h.inOrder term node id,
      fun term' node id above => ?_, fun _ runs => ?_⟩
    · rw [same]
      exact h.later term' node id (term ▸ above)
    · rw [show d.stopped = true from stopped] at runs
      simp at runs
  · have total : (storedBytes (chunksSent c.hardState.currentTerm to_ sender.snapshot.metadata.id
        history)).length = sender.offset :=
      (h.upTo leader running to_ _ goesOn.first).offset found goesOn.own rfl
    refine ⟨fun term' node id => ?_, fun term' node id above => ?_, fun _ _ node id first => ?_⟩
    · rw [grows, sent]
      split
      · next is =>
        obtain ⟨rfl, rfl, rfl⟩ := is
        refine LinesUp.append.mpr ⟨h.inOrder _ _ _, ?_, trivial⟩
        rw [total, Nat.zero_add]
        exact at_
      · rw [List.append_nil]
        exact h.inOrder term' node id
    · rw [term] at above
      rw [grows, sent, if_neg fun is => absurd above (by rw [is.1]; exact Nat.lt_irrefl _),
        List.append_nil]
      exact h.later term' node id above
    · obtain ⟨first, -⟩ := spent_stays stays first
      have upTo := h.upTo leader running node id first
      rw [grows, sent, term]
      -- only the follower of the chunk, and for it only this snapshot, gets further
      by_cases other : node = to_
      · subst other
        have after : d.snapshotSenders.get node = some advanced := by
          rw [senders, BTreeMap.get_insert, if_pos rfl]
        obtain rfl := SnapshotSender.advance_eq moved
        have kept : (Record.mk c event result d).gaveUp node = none := by
          rw [Record.gaveUp, found, show (Record.mk c event result d).after = d from rfl, after]
          refine if_neg fun ⟨moved, zero⟩ => ?_
          have zero : sender.offset + chunk.bytes.length = 0 := of_decide_eq_true zero
          omega
        have own : ¬ Leftover node (⟨c, event, result, d⟩ :: history) :=
          mt (leftover_stays stays kept).mp goesOn.own
        by_cases is : sender.snapshot.metadata.id = id
        · subst is
          rw [if_pos ⟨rfl, rfl, rfl⟩, storedBytes, List.flatMap_append, List.length_append,
            ← storedBytes, total]
          simpa using SentUpTo.own { sender with offset := sender.offset + chunk.bytes.length }
            after rfl own
        · rw [if_neg fun all => is all.2.2, List.append_nil]
          rw [upTo.other found is]
          refine .none fun sender' found' is' => absurd is' ?_
          rwa [← Option.some.inj (after.symm.trans found')]
      · rw [if_neg fun all => other all.2.1.symm, List.append_nil]
        exact upTo.kept stays (by
          show d.snapshotSenders.get node = c.snapshotSenders.get node
          rw [senders, BTreeMap.get_insert, if_neg other])

/-- In every run whose steps all meet the condition, a leader sends the chunks of each snapshot
in order. -/
theorem Trace.sendingInOrder [Sha256] {config : Config} {recovered : RecoveredState C}
    (run : Trace (RaftCore.new config recovered) history c) (meets : Holds SendsOn history) :
    SendingInOrder history c := by
  induction run with
  | start =>
    exact ⟨fun _ _ _ => trivial, fun _ _ _ _ => rfl, fun leads => by simp [RaftCore.new] at leads⟩
  | @step history c d event result earlier allowed run returns ih =>
    obtain ⟨now, before⟩ := meets
    have h := ih before
    by_cases stopped : c.stopped = true
    · obtain ⟨rfl, nothing⟩ := step_stopped stopped run
      exact h.nothing id (.of_same rfl (by simp [nothing]) le_rfl)
    · have running : c.stopped = false := by simpa using stopped
      have wf := earlier.wf.resolve_left stopped
      by_cases reads : ReadsNothing c event
      · exact h.nothing (fun _ => running) (step_sendsNothing wf running reads run returns)
      · simp only [ReadsNothing, not_forall, not_not] at reads
        obtain ⟨id, snapshotId, chunk, to_, sender, advanced, rfl, reads⟩ := reads
        by_cases valid : c.validateCompletion id
          (.snapshotChunkRead snapshotId chunk.offset chunk.bytes chunk.done) = .ok ()
        · by_cases leader : c.role = .leader
          · have sends : SendsChunk c id snapshotId chunk to_ sender advanced :=
              ⟨reads, running, valid⟩
            have goesOn := now leader to_ sender advanced sends
            exact h.send leader running reads.found reads.same.2 reads.moved goesOn
              (send_step wf sends goesOn.room goesOn.applies run returns)
          · have role := step_chunkRead_role wf running run returns
            exact .follows leader (role ▸ leader)
        · exact h.nothing (fun _ => running) (step_reported running valid run)

/-- In every run whose steps all meet the condition, a leader sends each follower the chunks of
each snapshot in order. -/
theorem chunks_sent_in_order [Sha256] (config : NodeId → Config)
    (recovered : NodeId → RecoveredState C) {history : List (NodeId × Record C)}
    {cores : NodeId → RaftCore C}
    (run : Run (fun node => RaftCore.new (config node) (recovered node)) history cores)
    (node : NodeId) (meets : Holds SendsOn (localHistory history node)) :
    InOrder (localHistory history node) :=
  ((run.trace node).sendingInOrder meets).inOrder

/-- `SendsOn` as a check. -/
def sendsOnCheck (history : List (Record C)) (c : RaftCore C) (event : Event C) : Bool :=
  match event with
  | .effectCompleted id (.snapshotChunkRead _ _ _ _) => Room c && !decide (ApplyDue c) &&
    (c.pendingSnapshotReads.get id).all fun to_ => !decide (Leftover to_ history) &&
      (c.snapshotSenders.get to_).all fun sender =>
        !decide (Spent to_ sender.snapshot.metadata.id history)
  | _ => true

theorem sendsOn_of_check (history : List (Record C)) (c : RaftCore C) (event : Event C)
    (h : sendsOnCheck history c event = true) : SendsOn history c event := by
  unfold SendsOn
  split
  · next id snapshotId offset bytes done =>
    intro _ to_ sender advanced sends
    simp only [sendsOnCheck, sends.pending, sends.found, Option.all_some, Bool.and_eq_true,
      decide_eq_true_eq, Bool.not_eq_true', decide_eq_false_iff_not] at h
    obtain ⟨⟨room, notDue⟩, own, first⟩ := h
    exact ⟨own, first, fun _ => room, fun owed => absurd owed.2 notDue⟩
  · trivial

/-- The snapshot through index 2, of a body of two bytes. -/
def twoByteBody : SnapshotMetadata :=
  { emptyBody 7 2 1 Nat.two_pos Nat.zero_lt_one with size := 2 }

/-- Node 1 compacts its log and sends node 3 the first byte of the snapshot. -/
def sendFirstByte : List (Move Nat) := Script.commitTwo ++
  [.event 1 .snapshotRequested, Script.done 1 8 (.snapshotBuilt twoByteBody ⟨[]⟩),
    Script.persisted 1 9, Script.done 1 10 (.compacted 2), Script.deliver 17,
    Script.done 1 11 (.snapshotChunkRead 7 0 [1] false)]

/-- Node 1 goes on with the second byte. -/
theorem chunks_sent_in_order_bytes : ∃ w : World Nat,
    @Run Nat sha256Empty trio w.history (w.core trio) ∧
    chunksSent 1 3 7 (localHistory w.history 1) = [(0, [1]), (1, [2])] ∧
    InOrder (localHistory w.history 1) := by
  let _ : Sha256 := sha256Empty
  obtain ⟨w, run, checked⟩ := World.exec_any trio
    (sendFirstByte ++ [Script.done 1 12 (.snapshotChunkRead 7 1 [2] true)])
    (fun w => chunksSent 1 3 7 (localHistory w.history 1) = [(0, [1]), (1, [2])] &&
      Meets.check (fun earlier r => sendsOnCheck earlier r.before r.event)
        (localHistory w.history 1)) (by decide +kernel)
  rw [Bool.and_eq_true] at checked
  exact ⟨w, run, of_decide_eq_true checked.1, chunks_sent_in_order trioConfigs (fun _ => .initial)
    run 1 (Holds.of_check sendsOn_of_check checked.2)⟩

/-- Node 1 hears nothing for two heartbeats, is elected again with the vote of node 2 and sends
node 3 the second byte. -/
def electAgain : List (Move Nat) := sendFirstByte ++
  [.event 1 (.tick .heartbeat), .event 1 (.tick .heartbeat), Script.elect 1, Script.deliver 20,
    Script.deliver 22, Script.persisted 1 13, Script.applied 2 4 1, Script.deliver 23,
    Script.persisted 2 5, Script.deliver 25, Script.persisted 1 14,
    Script.done 1 12 (.snapshotChunkRead 7 1 [2] true)]

/-- The leadership of term 2 sends the snapshot from its middle. -/
theorem chunks_sent_from_middle : ¬ ∀ (history : List (NodeId × Record Nat))
    (cores : NodeId → RaftCore Nat), @Run Nat sha256Empty trio history cores →
    ∀ node, InOrder (localHistory history node) := by
  let _ : Sha256 := sha256Empty
  intro h
  obtain ⟨w, run, bad⟩ := World.exec_any trio electAgain
    (fun w => chunksSent 2 3 7 (localHistory w.history 1) = [(1, [2])]) (by decide +kernel)
  have inOrder := h _ _ run 1 2 3 7
  rw [of_decide_eq_true bad] at inOrder
  exact absurd inOrder.1 (by decide)

end Ruft
