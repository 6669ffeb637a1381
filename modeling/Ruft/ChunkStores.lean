import Ruft.Heartbeats
import Ruft.PreVotes
import Ruft.Reassembly

set_option autoImplicit false

/-!
# Storing the chunks of a received snapshot

A follower stores what it is sent of a snapshot once: the stored chunks of a transfer line up
from offset 0 to the bytes that the running digest is of. A redelivered last chunk breaks this,
because `accept` returns true for it and the caller takes that for a new chunk.

## Main definitions

- `transferStores` — the chunks handed out to be stored since the receiver was created
- `StoresOnce` — the condition under which a step stores each chunk once

## Main results

- `chunks_stored_once` — in every run whose steps all meet the condition, the stores line up and
  a redelivery of the last chunk changes nothing
-/

namespace Ruft

open Program StepM

variable {C : Type} {c d : RaftCore C} {event : Event C}

/-! ## What is stored -/

/-- Offsets and bytes of the chunks that are handed out to be stored. -/
def storesOf (effects : List (Effect C)) : List (Nat × Bytes) := effects.filterMap fun
  | .storeSnapshotChunk _ _ offset bytes => some (offset, bytes)
  | _ => none

@[simp] theorem storesOf_append (effects later : List (Effect C)) :
    storesOf (effects ++ later) = storesOf effects ++ storesOf later := List.filterMap_append

/-- The step creates a receiver, or gives one up. -/
def Record.Renews (r : Record C) : Prop :=
  r.after.incomingSnapshot.map (·.metadata) ≠ r.before.incomingSnapshot.map (·.metadata)

instance (r : Record C) : Decidable r.Renews := inferInstanceAs (Decidable (_ ≠ _))

/-- The chunks handed out to be stored since the receiver was created, oldest first. -/
def transferStores : List (Record C) → List (Nat × Bytes)
  | [] => []
  | r :: earlier => (if r.Renews then [] else transferStores earlier) ++ storesOf r.effects

/-- The bytes of the stored chunks. -/
def storedBytes (stores : List (Nat × Bytes)) : Bytes := stores.flatMap (·.2)

/-- Each chunk starts where the one before ends. -/
def LinesUp (start : Nat) : List (Nat × Bytes) → Prop
  | [] => True
  | (offset, bytes) :: later => offset = start ∧ LinesUp (start + bytes.length) later

/-- The stored chunks line up from offset 0, each offset once, to the bytes that the digest is
of. -/
structure Stored (stores : List (Nat × Bytes)) (receiver : SnapshotReceiver) : Prop where
  offsets : LinesUp 0 stores
  once : stores.Pairwise fun earlier later => earlier.1 < later.1
  digest : storedBytes stores = receiver.hasher

/-- The message brings the last chunk of the receiver again. -/
def Redelivers (c : RaftCore C) : Event C → Prop
  | .messageReceived envelope => ∃ term metadata offset bytes done receiver,
      envelope.message = .installSnapshot term metadata offset bytes done ∧
      c.incomingSnapshot = some receiver ∧ receiver.metadata = metadata ∧
      receiver.lastChunk = some (offset, bytes)
  | _ => False

/-- The step leaves the receiver, the pending store and the install pipeline, and emits
nothing. -/
structure Record.Silent (r : Record C) : Prop where
  receiver : r.after.incomingSnapshot = r.before.incomingSnapshot
  store : r.after.pendingChunkStore = r.before.pendingChunkStore
  pipeline : r.after.incomingSnapshotState = r.before.incomingSnapshotState
  effects : r.effects = []

/-- What the receiver took in was stored in order and once, and a chunk that came again did
nothing. -/
structure StoredOnce (history : List (Record C)) (c : RaftCore C) : Prop where
  stored : c.stopped = false → ∀ receiver, c.incomingSnapshot = some receiver →
    Stored (transferStores history) receiver
  silent : ∀ r ∈ history, Redelivers r.before r.event → r.Silent

/-! ## The condition -/

/-- The checks before `accept` let the chunk through. -/
structure ReachesAccept (c : RaftCore C) (term : Nat) (metadata : SnapshotMetadata) (bytes : Bytes) :
    Prop where
  current : c.hardState.currentTerm ≤ term
  size : bytes.length ≤ c.config.snapshotChunkBytes
  members : metadata.members = c.config.members
  fresh : c.snapshotIndex < metadata.index

/-- The receiver that a chunk goes to. -/
inductive Receives (c : RaftCore C) (metadata : SnapshotMetadata) (offset : Nat) :
    SnapshotReceiver → Prop
  | old (receiver : SnapshotReceiver) (found : c.incomingSnapshot = some receiver)
      (is : receiver.metadata = metadata) : Receives c metadata offset receiver
  | opened (fresh : c.incomingSnapshot.all (·.metadata.id ≠ metadata.id) = true)
      (start : offset = 0) (idle : c.pendingChunkStore = none) :
      Receives c metadata offset (SnapshotReceiver.new metadata)

/-- A step emits an apply, whatever the event. -/
def ApplyOwed (c : RaftCore C) : Prop := c.pendingPersist = none ∧ ApplyDue c

/-- The apply that a step may owe can be emitted after so many other effects. -/
def ApplyFits (c : RaftCore C) (count : Nat) : Prop :=
  ApplyOwed c → c.log.snapshotIndex ≤ c.appliedIndex ∧
    c.hardState.commitIndex ≤ c.log.lastIndex ∧ c.nextEffectSequence + count < u64Max

/-- A chunk that is no redelivery, or that does nothing; and one that is taken comes after no
empty one. -/
structure ChunkFits (c : RaftCore C) (term : Nat) (metadata : SnapshotMetadata) (chunk : Chunk)
    (receiver : SnapshotReceiver) : Prop where
  again : receiver.lastChunk = some (chunk.offset, chunk.bytes) →
    ¬ ApplyOwed c ∧ c.hardState.currentTerm ≤ term ∧
      (metadata.index ≤ c.snapshotIndex ∨
        receiver.finalChunk = true ∧ chunk.offset = receiver.nextOffset)
  taken : ReachesAccept c term metadata chunk.bytes → receiver.Takes chunk →
    (∀ last, receiver.lastChunk = some last → last.2 ≠ []) ∧ ApplyFits c 1

/-- The condition on a step. -/
def StoresOnce : Condition C := fun _ c event => Room c ∧ match event with
  | .messageReceived envelope => match envelope.message with
    | .installSnapshot term metadata offset bytes done => validateEnvelope c envelope = .ok () →
      ∀ receiver, Receives c metadata offset receiver →
        ChunkFits c term metadata ⟨offset, bytes, done⟩ receiver
    | _ => True
  | _ => True

/-! ## A step that takes a chunk -/

/-- What the handler of a chunk does. -/
inductive ChunkRun (c : RaftCore C) (from_ : NodeId) (term : Nat) (metadata : SnapshotMetadata)
    (chunk : Chunk) : Outcome StepError Unit × Ctx C → Prop
  | refused (stale : term < c.hardState.currentTerm) : ChunkRun c from_ term metadata chunk
      (.ok (), ⟨c, [.sendMessage from_ (.installSnapshotResponse c.hardState.currentTerm false)]⟩)
  | passed (r : Outcome StepError Unit) (returns : r ≠ .error .panic) :
      ChunkRun c from_ term metadata chunk (r, ⟨c, []⟩)
  | opened (e : StepError)
      (fresh : c.incomingSnapshot.all (·.metadata.id ≠ metadata.id) = true) :
      ChunkRun c from_ term metadata chunk (.error (.raise e),
        ⟨{ c with incomingSnapshot := some (SnapshotReceiver.new metadata) }, []⟩)
  | repeated (receiver : SnapshotReceiver) (reaches : ReachesAccept c term metadata chunk.bytes)
      (receives : Receives c metadata chunk.offset receiver) (below : chunk.offset < receiver.nextOffset)
      (last : receiver.lastChunk = some (chunk.offset, chunk.bytes)) (s : Ctx C) :
      ChunkRun c from_ term metadata chunk (.ok (), s)
  | taken (receiver : SnapshotReceiver) (reaches : ReachesAccept c term metadata chunk.bytes)
      (receives : Receives c metadata chunk.offset receiver) (takes : receiver.Takes chunk) :
      ChunkRun c from_ term metadata chunk (.ok (), ⟨{ c with
          incomingSnapshot := some (receiver.advanceBy chunk)
          nextEffectSequence := c.nextEffectSequence + 1
          pendingChunkStore :=
            some ⟨⟨c.config.generation, c.nextEffectSequence + 1⟩, chunk.done, from_, term⟩ },
        [.storeSnapshotChunk ⟨c.config.generation, c.nextEffectSequence + 1⟩ metadata chunk.offset
          chunk.bytes]⟩)

theorem SnapshotReceiver.accept_takes {r : SnapshotReceiver} {chunk : Chunk} (h : r.Takes chunk) :
    r.accept chunk.offset chunk.bytes chunk.done = some (r.advanceBy chunk, true) := by
  obtain ⟨next, opened, counted, fits⟩ := h
  rw [accept, if_neg (by omega), if_neg (by simp [next, opened]), if_neg (by omega),
    if_neg (by omega)]
  rfl

/-- The handler from `accept` on. -/
theorem receiveChunk_run (from_ : NodeId) {term : Nat} {metadata : SnapshotMetadata} (chunk : Chunk)
    {receiver : SnapshotReceiver} (room : Room c)
    (reaches : ReachesAccept c term metadata chunk.bytes)
    (goes : c.incomingSnapshot = some receiver ∨
      c.incomingSnapshot.all (·.metadata.id ≠ metadata.id) = true ∧ chunk.offset = 0 ∧
        c.pendingChunkStore = none ∧ receiver = SnapshotReceiver.new metadata) :
    ChunkRun c from_ term metadata chunk (receiveChunk from_ term metadata chunk.offset chunk.bytes
      chunk.done ⟨{ c with incomingSnapshot := some receiver }, []⟩) := by
  have untouched : c.incomingSnapshot = some receiver →
      ({ c with incomingSnapshot := some receiver } : RaftCore C) = c := fun found => by rw [← found]
  show ChunkRun c _ _ _ _ ((if receiver.metadata ≠ metadata then _ else _ : StepM C Unit) _)
  split
  · next differs =>
    rcases goes with found | ⟨-, -, -, rfl⟩
    · rw [untouched found]
      exact .passed _ (by simp)
    · exact absurd rfl differs
  next is =>
  have is : receiver.metadata = metadata := by simpa using is
  have receives : Receives c metadata chunk.offset receiver := by
    rcases goes with found | ⟨fresh, start, idle, rfl⟩
    · exact .old receiver found is
    · exact .opened fresh start idle
  by_cases below : chunk.offset < receiver.nextOffset
  · have found : c.incomingSnapshot = some receiver := by
      rcases goes with found | ⟨-, -, -, rfl⟩
      · exact found
      · simp [SnapshotReceiver.new] at below
    rw [SnapshotReceiver.accept, if_pos below]
    cases again : receiver.lastChunk.any fun last =>
        last.1 == chunk.offset && last.2 == chunk.bytes with
    | true =>
      have last : receiver.lastChunk = some (chunk.offset, chunk.bytes) := by
        obtain ⟨last, found, same⟩ := Option.any_eq_true _ _ |>.mp again
        simp only [Bool.and_eq_true, beq_iff_eq] at same
        rw [found, ← same.1, ← same.2]
      show ChunkRun c _ _ _ _ ((nextEffectId >>= _) _)
      rw [bind_run_ok (nextEffectId_run (by exact room))]
      exact .repeated receiver reaches receives below last _
    | false =>
      show ChunkRun c _ _ _ _ (.ok (), ⟨{ c with incomingSnapshot := some receiver }, []⟩)
      rw [untouched found]
      exact .passed _ (by simp)
  · by_cases takes : receiver.Takes chunk
    · rw [SnapshotReceiver.accept_takes takes]
      show ChunkRun c _ _ _ _ ((nextEffectId >>= _) _)
      rw [bind_run_ok (nextEffectId_run (by exact room))]
      exact .taken receiver reaches receives takes
    · rw [SnapshotReceiver.accept_refused below takes]
      rcases goes with found | ⟨fresh, -, -, rfl⟩
      · rw [untouched found]
        exact .passed _ (by simp)
      · exact .opened _ fresh

theorem onInstallSnapshotChunk_run (from_ : NodeId) (term : Nat) (metadata : SnapshotMetadata)
    (chunk : Chunk) (room : Room c) : ChunkRun c from_ term metadata chunk
      (onInstallSnapshotChunk from_ term metadata chunk.offset chunk.bytes chunk.done ⟨c, []⟩) := by
  show ChunkRun c _ _ _ _ ((if term < c.hardState.currentTerm then _ else _ : StepM C Unit) _)
  split
  · next stale => exact .refused stale
  next current =>
  split
  · exact .passed _ (by simp)
  next size =>
  split
  · exact .passed _ (by simp)
  next known =>
  simp only [not_or, ne_eq, not_not, Nat.not_le] at known
  have reaches : ReachesAccept c term metadata chunk.bytes :=
    ⟨Nat.not_lt.mp current, Nat.not_lt.mp size, known.1, known.2⟩
  split
  · next fresh =>
    split
    · exact .passed _ (by simp)
    · next opens =>
      simp only [not_or, ne_eq, not_not, Option.not_isSome_iff_eq_none] at opens
      exact receiveChunk_run from_ chunk room reaches (.inr ⟨fresh, opens.1, opens.2, rfl⟩)
  · next other =>
    obtain ⟨receiver, found⟩ : ∃ receiver, c.incomingSnapshot = some receiver := by
      cases hi : c.incomingSnapshot with
      | none => exact absurd (by simp [hi]) other
      | some receiver => exact ⟨receiver, rfl⟩
    have untouched : ({ c with incomingSnapshot := some receiver } : RaftCore C) = c := by
      rw [← found]
    have run := receiveChunk_run from_ chunk room reaches (.inl found)
    rw [untouched] at run
    exact run

/-- The receiver, the pending store and the install pipeline are the same. -/
structure SameReceiving (c d : RaftCore C) : Prop where
  receiver : d.incomingSnapshot = c.incomingSnapshot
  store : d.pendingChunkStore = c.pendingChunkStore
  pipeline : d.incomingSnapshotState = c.incomingSnapshotState

theorem handle_message [Sha256] {envelope : Envelope C} (valid : validateEnvelope c envelope = .ok ()) :
    ∃ members, handle (.messageReceived envelope) ⟨c, []⟩ =
      onMessage envelope.from_ envelope.message ⟨{ c with activeMembers := members }, []⟩ := by
  show ∃ members, (liftPure (validateEnvelope c envelope) >>= _ : StepM C Unit) _ = _
  rw [valid]
  show ∃ members, (if c.role = .leader then _ else _ : StepM C Unit) _ = _
  split
  · exact ⟨_, rfl⟩
  · exact ⟨c.activeMembers, rfl⟩

theorem handle_refused [Sha256] {envelope : Envelope C} (invalid : validateEnvelope c envelope ≠ .ok ()) :
    ∃ f, handle (.messageReceived envelope) ⟨c, []⟩ = (.error f, ⟨c, []⟩) := by
  show ∃ f, (liftPure (validateEnvelope c envelope) >>= _ : StepM C Unit) _ = _
  cases hv : validateEnvelope c envelope with
  | ok u => exact absurd hv invalid
  | error f => cases f with
    | panic => exact ⟨_, rfl⟩
    | raise e => exact ⟨_, rfl⟩

/-- A step whose handler fails emits nothing. -/
theorem step_error [Sha256] (running : c.stopped = false) {f : Fault StepError} {s : Ctx C}
    (handled : handle event ⟨c, []⟩ = (.error f, s)) {result : Outcome StepError (StepOutput C)}
    (run : step c event = (result, d)) : ∃ f, result = .error f := by
  rw [step_eq running, process, bind_run_error handled] at run
  cases f with
  | panic => exact ⟨_, (congrArg Prod.fst run).symm⟩
  | raise e => exact ⟨_, (congrArg Prod.fst run).symm⟩

/-- The receiver after a step is the one the handler leaves. -/
theorem step_receiving [Sha256] (running : c.stopped = false) {result : Outcome StepError (StepOutput C)}
    (run : step c event = (result, d)) : SameReceiving (handle event ⟨c, []⟩).2.core d := by
  obtain ⟨sequence, applying, proposals, stopped, reason, frame, -⟩ := step_frame running event
  rw [run] at frame
  obtain rfl : d = _ := frame
  exact ⟨rfl, rfl, rfl⟩

/-- No apply is emitted that is not owed. -/
theorem emitApply_idle {s : Ctx C} (idle : ¬ ApplyOwed s.core) :
    (emitApplyIfNeeded : StepM C Unit) s = (.ok (), s) := by
  rw [emitApplyIfNeeded, bind_run_ok (core_run _), if_pos]
  · rfl
  · simp only [ApplyOwed, ApplyDue, not_and] at idle
    by_contra busy
    simp only [not_or, Option.not_isSome_iff_eq_none, Nat.not_le] at busy
    exact idle busy.1 busy.2.1 busy.2.2

/-- A step emits what its handler emits, an apply that is owed and the answers to the proposals
of a leader that lost its role; or it fails. -/
theorem step_effects [Sha256] (running : c.stopped = false) {result : Outcome StepError (StepOutput C)}
    (run : step c event = (result, d)) (role : (handle event ⟨c, []⟩).2.core.role = c.role) :
    (∃ f, result = .error f) ∨
    ∃ applies, (∀ e ∈ applies, ∃ id entries, e = .apply id entries) ∧
      (¬ ApplyOwed (handle event ⟨c, []⟩).2.core → applies = []) ∧
      (Record.mk c event result d).effects = (handle event ⟨c, []⟩).2.effects ++ applies := by
  cases result with
  | error f => exact .inl ⟨f, rfl⟩
  | ok output =>
    right
    rw [step_eq running] at run
    obtain ⟨s', processed, effects, core, -⟩ := conclude_eq_ok run
    obtain ⟨_, s, handled, applied⟩ := bind_eq_ok processed
    obtain ⟨sequence, applying, new, frame, applies⟩ := emitApply_frame s
    rw [applied] at frame
    obtain rfl : s' = _ := frame
    rw [handled] at role ⊢
    have idle : ¬ ApplyOwed s.core → new = [] := by
      intro idle
      rw [emitApply_idle idle] at applied
      simpa using congrArg (fun r => r.2.effects) applied
    refine ⟨new, applies, idle, ?_⟩
    show output.effects = _
    rw [effects, Ctx.finished, if_neg]
    rintro ⟨leader, lost⟩
    exact lost (role.trans leader)

/-- What a step that takes a chunk does. -/
inductive ChunkStep [Sha256] (c : RaftCore C) (envelope : Envelope C) (term : Nat)
    (metadata : SnapshotMetadata) (chunk : Chunk) (r : Record C) : Prop
  | kept (same : SameReceiving c r.after) (quiet : storesOf r.effects = [])
      (silent : (validateEnvelope c envelope = .ok () → ¬ ApplyOwed c) → r.effects = [])
  | stale (same : SameReceiving c r.after) (quiet : storesOf r.effects = [])
      (valid : validateEnvelope c envelope = .ok ()) (stale : term < c.hardState.currentTerm)
  | opened (fresh : c.incomingSnapshot.all (·.metadata.id ≠ metadata.id) = true)
      (receiver : r.after.incomingSnapshot = some (SnapshotReceiver.new metadata))
      (quiet : storesOf r.effects = [])
  | repeated (receiver : SnapshotReceiver) (valid : validateEnvelope c envelope = .ok ())
      (reaches : ReachesAccept c term metadata chunk.bytes)
      (receives : Receives c metadata chunk.offset receiver) (below : chunk.offset < receiver.nextOffset)
      (last : receiver.lastChunk = some (chunk.offset, chunk.bytes))
  | taken (receiver : SnapshotReceiver) (valid : validateEnvelope c envelope = .ok ())
      (reaches : ReachesAccept c term metadata chunk.bytes)
      (receives : Receives c metadata chunk.offset receiver) (takes : receiver.Takes chunk)
      (advanced : r.after.incomingSnapshot = some (receiver.advanceBy chunk))
      (stored : ApplyFits c 1 → r.after.stopped = true ∨
        storesOf r.effects = [(chunk.offset, chunk.bytes)])

/-- An apply stores no chunk. -/
theorem storesOf_applies {applies : List (Effect C)}
    (all : ∀ e ∈ applies, ∃ id entries, e = .apply id entries) : storesOf applies = [] := by
  rw [storesOf, List.filterMap_eq_nil_iff]
  intro e mem
  obtain ⟨id, entries, rfl⟩ := all e mem
  rfl

/-- A step whose handler returns returns too, or stops the core. -/
theorem handled_returns [Sha256] {s : Ctx C} {count : Nat} (wf' : s.core.WF)
    (running : c.stopped = false) (handled : handle event ⟨c, []⟩ = (.ok (), s))
    (fits : ApplyFits c count)
    (slots : s.core.pendingPersist = c.pendingPersist) (due : ApplyDue s.core ↔ ApplyDue c)
    (log : s.core.log = c.log) (applied : s.core.appliedIndex = c.appliedIndex)
    (commit : s.core.hardState = c.hardState)
    (counter : s.core.nextEffectSequence ≤ c.nextEffectSequence + count)
    {result : Outcome StepError (StepOutput C)} (run : step c event = (result, d))
    (returns : result ≠ Outcome.panic) : d.stopped = true ∨ ∃ output, result = .ok output := by
  obtain ⟨s', emitted⟩ : ∃ s', (emitApplyIfNeeded : StepM C Unit) s = (.ok (), s') := by
    by_cases free : s.core.pendingPersist = none
    · rcases emitApply_cases wf' free with ⟨-, run⟩ | ⟨-, -, -, entries, run⟩ | ⟨owed, unfit, -⟩
      · exact ⟨_, run⟩
      · exact ⟨_, run⟩
      · refine absurd ?_ unfit
        rw [log, applied, commit]
        obtain ⟨below, held, room⟩ := fits ⟨slots ▸ free, due.mp owed⟩
        exact ⟨below, held, Nat.lt_of_le_of_lt counter room⟩
    · refine ⟨s, ?_⟩
      rw [emitApplyIfNeeded, bind_run_ok (core_run _),
        if_pos (.inl (Option.isSome_iff_ne_none.mpr free))]
      rfl
  rw [step_eq running] at run
  have processed : process event ⟨c, []⟩ = (.ok (), s') := by
    rw [process, bind_run_ok handled, emitted]
  rw [processed, conclude] at run
  split at run
  · exact absurd (congrArg Prod.fst run).symm returns
  · exact .inl (congrArg (fun r => r.2.stopped) run).symm
  · exact .inr ⟨_, (congrArg Prod.fst run).symm⟩

theorem chunk_step [Sha256] (wf : c.WF) (running : c.stopped = false) (room : Room c)
    {envelope : Envelope C} {term : Nat} {metadata : SnapshotMetadata} (chunk : Chunk)
    (is : envelope.message =
      .installSnapshot term metadata chunk.offset chunk.bytes chunk.done)
    {result : Outcome StepError (StepOutput C)}
    (run : step c (.messageReceived envelope) = (result, d)) (returns : result ≠ Outcome.panic) :
    ChunkStep c envelope term metadata chunk ⟨c, .messageReceived envelope, result, d⟩ := by
  have receiving := step_receiving running run
  have effects := step_effects running run
  by_cases valid : validateEnvelope c envelope = .ok ()
  · obtain ⟨members, handled⟩ := handle_message valid
    have room' : Room { c with activeMembers := members } := room
    have ran := onInstallSnapshotChunk_run envelope.from_ term metadata chunk room'
    rw [is] at handled
    rw [show onMessage envelope.from_ (.installSnapshot term metadata chunk.offset chunk.bytes
      chunk.done) = (onInstallSnapshotChunk envelope.from_ term metadata chunk.offset chunk.bytes
        chunk.done : StepM C Unit) from rfl] at handled
    rw [← handled] at ran
    have reached : ∀ {bytes}, ReachesAccept { c with activeMembers := members } term metadata bytes →
        ReachesAccept c term metadata bytes := fun h => ⟨h.current, h.size, h.members, h.fresh⟩
    have received : ∀ {offset receiver},
        Receives { c with activeMembers := members } metadata offset receiver →
        Receives c metadata offset receiver := by
      intro offset receiver receives
      cases receives with
      | old _ found is => exact .old _ found is
      | opened fresh start idle => exact .opened fresh start idle
    generalize out : handle (.messageReceived envelope) ⟨c, []⟩ = left at ran receiving effects
    obtain ⟨same, store, pipeline⟩ := receiving
    cases ran with
    | refused stale =>
      refine .stale ⟨same, store, pipeline⟩ ?_ valid stale
      rcases effects rfl with ⟨f, rfl⟩ | ⟨applies, all, idle, is⟩
      · rfl
      · rw [is, storesOf_append, storesOf_applies all]
        rfl
    | passed r =>
      rcases effects rfl with ⟨f, rfl⟩ | ⟨applies, all, idle, is⟩
      · exact .kept ⟨same, store, pipeline⟩ rfl (by simp [Record.effects])
      · rw [List.nil_append] at is
        exact .kept ⟨same, store, pipeline⟩ (by rw [is, storesOf_applies all])
          fun owed => by rw [is]; exact idle (owed valid)
    | opened e fresh =>
      refine .opened fresh same ?_
      rcases effects rfl with ⟨f, rfl⟩ | ⟨applies, all, idle, is⟩
      · rfl
      · rw [is, storesOf_append, storesOf_applies all]
        rfl
    | repeated receiver reaches receives below last =>
      exact .repeated receiver valid (reached reaches) (received receives) below last
    | taken receiver reaches receives takes =>
      refine .taken receiver valid (reached reaches) (received receives) takes same fun fits => ?_
      have wf' : ({ c with
          activeMembers := members
          incomingSnapshot := some (receiver.advanceBy chunk)
          nextEffectSequence := c.nextEffectSequence + 1
          pendingChunkStore := some ⟨⟨c.config.generation, c.nextEffectSequence + 1⟩, chunk.done,
            envelope.from_, term⟩ } : RaftCore C).WF :=
        wf.congr rfl rfl rfl rfl rfl rfl rfl rfl rfl rfl rfl
      rcases handled_returns wf' running out fits rfl Iff.rfl rfl rfl rfl le_rfl run returns with
        stopped | ⟨output, rfl⟩
      · exact .inl stopped
      · rcases effects rfl with ⟨f, failed⟩ | ⟨applies, all, -, is⟩
        · simp at failed
        · rw [is, storesOf_append, storesOf_applies all]
          exact .inr rfl
  · obtain ⟨f, handled⟩ := handle_refused valid
    obtain ⟨f', rfl⟩ := step_error running handled run
    rw [handled] at receiving
    exact .kept receiving rfl fun _ => rfl

/-! ## The other steps -/

/-- The event brings no chunk. -/
def BringsNoChunk (event : Event C) : Prop :=
  ∀ envelope term metadata offset bytes done, event = .messageReceived envelope →
    envelope.message ≠ .installSnapshot term metadata offset bytes done

/-- The receiver is kept or given up, and nothing is stored. -/
structure StoresNothing (c : RaftCore C) (s : Ctx C) : Prop where
  receiver : s.core.incomingSnapshot = c.incomingSnapshot ∨ s.core.incomingSnapshot = none
  quiet : ∀ id metadata offset bytes, .storeSnapshotChunk id metadata offset bytes ∉ s.effects

theorem storesOf_eq_nil {effects : List (Effect C)}
    (quiet : ∀ id metadata offset bytes, .storeSnapshotChunk id metadata offset bytes ∉ effects) :
    storesOf effects = [] := by
  rw [storesOf, List.filterMap_eq_nil_iff]
  intro e mem
  cases e with
  | storeSnapshotChunk id metadata offset bytes => exact absurd mem (quiet id metadata offset bytes)
  | _ => rfl

theorem MessageAct.storesNothing {from_ : NodeId} {m : Message C} {s : Ctx C}
    (other : ∀ term metadata offset bytes done, m ≠ .installSnapshot term metadata offset bytes done)
    (act : MessageAct c from_ m s) : StoresNothing c s := by
  cases act with
  | receiverTouched term metadata offset bytes done => exact absurd rfl (other _ _ _ _ _)
  | chunkAccepted term metadata offset bytes done => exact absurd rfl (other _ _ _ _ _)
  | _ => exact ⟨.inl rfl, by simp [Ctx.queued]⟩

theorem Ctx.answered_quiet {s : Ctx C} (p : Nat → Bool) (result : Nat → ProposalResult)
    (h : StoresNothing c s) : StoresNothing c (s.answered p result) :=
  ⟨h.receiver, by simp [Ctx.answered, h.quiet]⟩

theorem CompletionAct.storesNothing [Sha256] {id : EffectId} {outcome : EffectOutcome} {s : Ctx C}
    (act : CompletionAct c id outcome s) : StoresNothing c s := by
  cases act with
  | installed => exact ⟨.inr rfl, by simp⟩
  | applyDone => exact Ctx.answered_quiet _ _ ⟨.inl rfl, by simp⟩
  | _ => exact ⟨.inl rfl, by simp [Ctx.queued, toPeers]⟩

theorem Ctx.roundStarted_quiet {s : Ctx C} (h : StoresNothing c s) (readId : ReadId) :
    StoresNothing c (s.roundStarted readId) := by
  obtain ⟨round, core⟩ := s.roundStarted_core readId
  refine ⟨by rw [core]; exact h.receiver, ?_⟩
  rcases s.roundStarted_effects readId with same | ⟨context, same⟩
  · rw [same]
    exact h.quiet
  · rw [same]
    simp [Ctx.readHeartbeats, toPeers, h.quiet]

theorem Act.storesNothing [Sha256] {s : Ctx C} (other : BringsNoChunk event) (act : Act c event s) :
    StoresNothing c s := by
  cases act with
  | message envelope members s known mine act =>
    obtain ⟨receiver, quiet⟩ := act.storesNothing fun _ _ _ _ _ => other envelope _ _ _ _ _ rfl
    exact ⟨receiver, quiet⟩
  | readStarted readId =>
    have start : StoresNothing c ⟨c, []⟩ := ⟨.inl rfl, by simp⟩
    exact Ctx.roundStarted_quiet start readId
  | completed id outcome s act => exact act.storesNothing
  | _ => exact ⟨.inl rfl, by simp [Ctx.queued, toPeers]⟩

theorem FollowUp.storesNothing {cause : Cause C} {s s' : Ctx C} (h : StoresNothing c s)
    (hf : FollowUp cause s s') : StoresNothing c s' := by
  cases hf with
  | readStarted readId rest =>
    have h' : StoresNothing c ⟨{ s.core with pendingReads := rest }, s.effects⟩ := ⟨h.receiver, h.quiet⟩
    exact Ctx.roundStarted_quiet h' readId
  | snapshotEntered | senderCreated | commitStuck | readAcknowledged | readLost | recorded =>
    exact ⟨h.receiver, h.quiet⟩
  | _ => exact ⟨h.receiver, by simp [Ctx.queued, h.quiet]⟩

theorem Path.storesNothing [Sha256] {s : Ctx C} (other : BringsNoChunk event)
    (path : Path c event s) : StoresNothing c s := by
  obtain ⟨s₀, s, act, rest⟩ := path
  induction rest with
  | refl => exact act.storesNothing other
  | tail _ hstep ih => exact hstep.storesNothing ih

/-- A step that takes no chunk. -/
theorem step_elsewhere [Sha256] (wf : c.WF) (running : c.stopped = false) (room : Room c)
    (other : BringsNoChunk event) {result : Outcome StepError (StepOutput C)}
    (run : step c event = (result, d)) (returns : result ≠ Outcome.panic) :
    StoresNothing c ⟨d, (Record.mk c event result d).effects⟩ := by
  have dropped : ∀ {s : Ctx C} {f}, StoresNothing c s → d.incomingSnapshot = s.core.incomingSnapshot →
      result = .error f → StoresNothing c ⟨d, (Record.mk c event result d).effects⟩ := by
    rintro s f h same rfl
    exact ⟨by rw [same]; exact h.receiver, by simp [Record.effects]⟩
  have finished : ∀ {s : Ctx C}, StoresNothing c s → StoresNothing c (s.finished c) := by
    intro s h
    unfold Ctx.finished
    split
    · exact Ctx.answered_quiet _ _ h
    · exact h
  have cases := step_cases wf running event
  rw [run] at cases
  cases cases with
  | panicked => exact absurd rfl returns
  | halted e c' reason halted =>
    obtain ⟨-, reads, store, incoming, building, applying, persist, rfl⟩ := halted
    exact ⟨.inl rfl, by simp [Record.effects]⟩
  | returned s changed path => exact finished (path.storesNothing other)
  | failed s e path => exact dropped (path.storesNothing other) rfl rfl
  | crashed s e reason path => exact dropped (path.storesNothing other) rfl rfl
  | invalid s e reason path => exact dropped (finished (path.storesNothing other)) rfl rfl
  | stuck e s stuck => exact absurd room stuck.full

/-! ## A run -/

theorem LinesUp.append {start : Nat} {stores later : List (Nat × Bytes)} :
    LinesUp start (stores ++ later) ↔
      LinesUp start stores ∧ LinesUp (start + (storedBytes stores).length) later := by
  induction stores generalizing start with
  | nil => simp [LinesUp, storedBytes]
  | cons chunk stores ih =>
    obtain ⟨offset, bytes⟩ := chunk
    simp only [List.cons_append, LinesUp, ih, and_assoc, storedBytes, List.flatMap_cons,
      List.length_append, Nat.add_assoc]

/-- What the receiver knows of the stores. -/
structure Storing (stores : List (Nat × Bytes)) (receiver : SnapshotReceiver) : Prop
    extends Stored stores receiver where
  next : receiver.nextOffset = receiver.hasher.length
  last : receiver.lastChunk = stores.getLast?

theorem Storing.new (metadata : SnapshotMetadata) : Storing [] (SnapshotReceiver.new metadata) :=
  ⟨⟨trivial, .nil, rfl⟩, rfl, rfl⟩

/-- Behind a chunk with bytes the next offset is a new one. -/
theorem Storing.below {stores : List (Nat × Bytes)} {receiver : SnapshotReceiver}
    (h : Storing stores receiver) (ne : ∀ last, receiver.lastChunk = some last → last.2 ≠ []) :
    ∀ store ∈ stores, store.1 < receiver.nextOffset := by
  rcases List.eq_nil_or_concat stores with rfl | ⟨init, last, rfl⟩
  · simp
  · rw [List.concat_eq_append] at h ⊢
    have bytes := List.length_pos_iff.mpr (ne last (by rw [h.last]; simp))
    have offset := (LinesUp.append.mp h.offsets).2.1
    have count : receiver.nextOffset = (storedBytes init).length + last.2.length := by
      rw [h.next, ← h.digest]
      simp [storedBytes]
    intro store mem
    rcases List.mem_append.mp mem with mem | mem
    · have := (List.pairwise_append.mp h.once).2.2 store mem last (List.mem_singleton_self _)
      omega
    · rw [List.mem_singleton.mp mem]
      omega

theorem Storing.advance {stores : List (Nat × Bytes)} {receiver : SnapshotReceiver} {chunk : Chunk}
    (h : Storing stores receiver) (takes : receiver.Takes chunk)
    (ne : ∀ last, receiver.lastChunk = some last → last.2 ≠ []) :
    Storing (stores ++ [(chunk.offset, chunk.bytes)]) (receiver.advanceBy chunk) where
  offsets := by
    refine LinesUp.append.mpr ⟨h.offsets, ?_, trivial⟩
    rw [h.digest, takes.next, h.next, Nat.zero_add]
  once := by
    refine List.pairwise_append.mpr ⟨h.once, List.pairwise_singleton _ _, fun store mem later is => ?_⟩
    rw [List.mem_singleton.mp is]
    show store.1 < chunk.offset
    rw [takes.next]
    exact h.below ne store mem
  digest := by simp [storedBytes, SnapshotReceiver.advanceBy, ← h.digest]
  next := by
    show chunk.offset + chunk.bytes.length = (receiver.hasher ++ chunk.bytes).length
    rw [takes.next, h.next, List.length_append]
  last := by simp [SnapshotReceiver.advanceBy]

theorem transferStores_kept {history : List (Record C)} {r : Record C}
    (same : r.after.incomingSnapshot.map (·.metadata) = r.before.incomingSnapshot.map (·.metadata)) :
    transferStores (r :: history) = transferStores history ++ storesOf r.effects := by
  rw [transferStores, if_neg (fun renews : r.Renews => renews same)]

theorem transferStores_renewed {history : List (Record C)} {r : Record C}
    {metadata : SnapshotMetadata} {receiver : SnapshotReceiver}
    (fresh : r.before.incomingSnapshot.all (·.metadata.id ≠ metadata.id) = true)
    (found : r.after.incomingSnapshot = some receiver) (is : receiver.metadata = metadata) :
    transferStores (r :: history) = storesOf r.effects := by
  have renews : r.Renews := by
    intro same
    rw [found, Option.map_some, is, eq_comm, Option.map_eq_some_iff] at same
    obtain ⟨old, before, rfl⟩ := same
    simp [before] at fresh
  rw [transferStores, if_pos renews, List.nil_append]

/-- What one step does to the stores of the transfer. -/
theorem storing_step [Sha256] {history : List (Record C)} (wf : c.WF) (running : c.stopped = false)
    (meets : StoresOnce history c event)
    (h : ∀ receiver, c.incomingSnapshot = some receiver → Storing (transferStores history) receiver)
    {result : Outcome StepError (StepOutput C)} (run : step c event = (result, d))
    (returns : result ≠ Outcome.panic) (runs : d.stopped = false) {receiver : SnapshotReceiver}
    (found : d.incomingSnapshot = some receiver) :
    Storing (transferStores (⟨c, event, result, d⟩ :: history)) receiver := by
  obtain ⟨room, fits⟩ := meets
  have same : d.incomingSnapshot = c.incomingSnapshot →
      storesOf (Record.mk c event result d).effects = [] →
      Storing (transferStores (⟨c, event, result, d⟩ :: history)) receiver := by
    intro same quiet
    rw [transferStores_kept (by show d.incomingSnapshot.map _ = _; rw [same]), quiet, List.append_nil]
    exact h receiver (same ▸ found)
  by_cases other : BringsNoChunk event
  · obtain ⟨kept | given, quiet⟩ := step_elsewhere wf running room other run returns
    · exact same kept (storesOf_eq_nil quiet)
    · rw [found] at given
      simp at given
  · simp only [BringsNoChunk, not_forall, not_not] at other
    obtain ⟨envelope, term, metadata, offset, bytes, done, rfl, is⟩ := other
    simp only [is] at fits
    cases chunk_step wf running room ⟨offset, bytes, done⟩ is run returns with
    | kept kept quiet => exact same kept.receiver quiet
    | stale kept quiet => exact same kept.receiver quiet
    | opened fresh opened quiet =>
      obtain rfl := Option.some.inj (found.symm.trans opened)
      rw [transferStores_renewed fresh found rfl, quiet]
      exact .new metadata
    | repeated old valid reaches receives below last =>
      obtain ⟨-, -, installed | ⟨-, atEnd⟩⟩ := (fits valid old receives).again last
      · exact absurd reaches.fresh (Nat.not_lt.mpr installed)
      · exact absurd below (by rw [atEnd]; exact Nat.lt_irrefl _)
    | taken old valid reaches receives takes advanced stored =>
      obtain ⟨ne, applies⟩ := (fits valid old receives).taken reaches takes
      have stored := (stored applies).resolve_left (by simp [runs])
      obtain rfl := Option.some.inj (found.symm.trans advanced)
      cases receives with
      | old _ before about =>
        rw [transferStores_kept, stored]
        · exact (h old before).advance takes ne
        · show d.incomingSnapshot.map _ = c.incomingSnapshot.map _
          rw [found, before]
          rfl
      | opened fresh start idle =>
        rw [transferStores_renewed fresh found rfl, stored]
        exact (Storing.new metadata).advance takes ne

/-- A redelivery that the condition lets through changes nothing. -/
theorem silent_step [Sha256] {history : List (Record C)} (wf : c.WF) (running : c.stopped = false)
    (meets : StoresOnce history c event) (again : Redelivers c event)
    {result : Outcome StepError (StepOutput C)} (run : step c event = (result, d))
    (returns : result ≠ Outcome.panic) : (Record.mk c event result d).Silent := by
  obtain ⟨room, fits⟩ := meets
  cases event with
  | messageReceived envelope =>
    obtain ⟨term, metadata, offset, bytes, done, receiver, is, found, rfl, last⟩ := again
    simp only [is] at fits
    have only : ∀ other, Receives c receiver.metadata offset other → other = receiver := by
      intro other receives
      cases receives with
      | old _ found' => exact Option.some.inj (found'.symm.trans found)
      | opened fresh => simp [found] at fresh
    have receives : Receives c receiver.metadata offset receiver := .old receiver found rfl
    cases chunk_step wf running room ⟨offset, bytes, done⟩ is run returns with
    | kept kept quiet silent =>
      exact ⟨kept.receiver, kept.store, kept.pipeline,
        silent fun valid => ((fits valid receiver receives).again last).1⟩
    | stale kept quiet valid stale =>
      exact absurd ((fits valid receiver receives).again last).2.1 (Nat.not_le.mpr stale)
    | opened fresh => simp [found] at fresh
    | repeated old valid reaches receives' below =>
      obtain rfl := only old receives'
      obtain ⟨-, -, installed | ⟨-, atEnd⟩⟩ := (fits valid old receives).again last
      · exact absurd reaches.fresh (Nat.not_lt.mpr installed)
      · exact absurd below (by rw [atEnd]; exact Nat.lt_irrefl _)
    | taken old valid reaches receives' takes =>
      obtain rfl := only old receives'
      obtain ⟨-, -, installed | ⟨final, -⟩⟩ := (fits valid old receives).again last
      · exact absurd reaches.fresh (Nat.not_lt.mpr installed)
      · exact absurd takes.opened (by simp [final])
  | _ => exact again.elim

/-- In every run whose steps all meet the condition, the chunks of a transfer are stored once. -/
theorem chunks_stored_once [Sha256] (config : Config) (recovered : RecoveredState C)
    {history : List (Record C)} {c : RaftCore C}
    (run : Trace (RaftCore.new config recovered) history c) (meets : Holds StoresOnce history) :
    StoredOnce history c := by
  suffices storing : (c.stopped = false → ∀ receiver, c.incomingSnapshot = some receiver →
      Storing (transferStores history) receiver) ∧
      ∀ r ∈ history, Redelivers r.before r.event → r.Silent from
    ⟨fun running receiver found => (storing.1 running receiver found).toStored, storing.2⟩
  induction run with
  | start => exact ⟨fun _ receiver found => by simp [RaftCore.new] at found, by simp⟩
  | @step history c c' event result earlier allowed run returns ih =>
    obtain ⟨now, before⟩ := meets
    obtain ⟨storing, silent⟩ := ih before
    by_cases stopped : c.stopped = true
    · obtain ⟨rfl, nothing⟩ := step_stopped stopped run
      refine ⟨fun running => by simp [stopped] at running, List.forall_mem_cons.mpr ⟨?_, silent⟩⟩
      exact fun _ => ⟨rfl, rfl, rfl, by simp [nothing]⟩
    · have running : c.stopped = false := by simpa using stopped
      have wf := earlier.wf.resolve_left stopped
      exact ⟨fun runs receiver found => storing_step wf running now (storing running) run returns runs
        found, List.forall_mem_cons.mpr ⟨fun again => silent_step wf running now again run returns,
          silent⟩⟩

/-- The snapshot of a body of two bytes. -/
def twoBytes : SnapshotMetadata :=
  { emptyBody 7 1 1 Nat.zero_lt_one Nat.zero_lt_one with size := 2 }

/-- Node 3 receives both bytes in chunks of their own. -/
def receiveBytes : List (Event Nat) :=
  [.messageReceived ⟨0, 1, 3, .installSnapshot 1 twoBytes 0 [1] false⟩,
    .effectCompleted ⟨0, 1⟩ (.snapshotChunkStored 7 1 none),
    .messageReceived ⟨0, 1, 3, .installSnapshot 1 twoBytes 1 [2] true⟩]

/-- `StoresOnce` as a check that lets no redelivery through. -/
def storesOnceCheck (c : RaftCore C) (event : Event C) : Bool :=
  c.nextEffectSequence < u64Max && match event with
  | .messageReceived envelope => match envelope.message with
    | .installSnapshot _ _ offset bytes _ => !decide (ApplyDue c) &&
      c.incomingSnapshot.all fun receiver => receiver.lastChunk.all fun last =>
        last ≠ (offset, bytes) && last.2 ≠ []
    | _ => true
  | _ => true

theorem storesOnce_of_check (history : List (Record C)) (c : RaftCore C) (event : Event C)
    (h : storesOnceCheck c event = true) : StoresOnce history c event := by
  simp only [storesOnceCheck, Bool.and_eq_true, decide_eq_true_eq] at h
  obtain ⟨room, fits⟩ := h
  refine ⟨room, ?_⟩
  cases event with
  | messageReceived envelope =>
    obtain ⟨group, from_, target, message⟩ := envelope
    cases message with
    | installSnapshot term metadata offset bytes done =>
      simp only [Bool.and_eq_true, Bool.not_eq_true', decide_eq_false_iff_not] at fits
      obtain ⟨notDue, differs⟩ := fits
      have idle : ¬ ApplyOwed c := fun owed => notDue owed.2
      have applies : ApplyFits c 1 := fun owed => absurd owed idle
      intro _ receiver receives
      cases receives with
      | old _ found =>
        simp only [found, Option.all_some, Option.all_eq_true, Bool.and_eq_true,
          decide_eq_true_eq] at differs
        exact ⟨fun last => absurd rfl (differs _ last).1, fun _ _ =>
          ⟨fun last at_ => (differs last at_).2, applies⟩⟩
      | opened => exact ⟨fun last => by simp [SnapshotReceiver.new] at last, fun _ _ =>
          ⟨fun last at_ => by simp [SnapshotReceiver.new] at at_, applies⟩⟩
    | _ => trivial
  | _ => trivial

theorem chunks_stored_once_bytes : ∃ w : Solo Nat,
    @Trace Nat sha256Empty (trio 3) w.history w.core ∧
    transferStores w.history = [(0, [1]), (1, [2])] ∧ StoredOnce w.history w.core := by
  let _ : Sha256 := sha256Empty
  obtain ⟨w, run, checked⟩ := Solo.exec_any (trio 3) receiveBytes
    (fun w => (transferStores w.history = [(0, [1]), (1, [2])]) &&
      w.history.all fun r => storesOnceCheck r.before r.event) (by decide +kernel)
  rw [Bool.and_eq_true] at checked
  exact ⟨w, run, of_decide_eq_true checked.1, chunks_stored_once (trioConfig 3 (by decide)) .initial
    run (Holds.of_all storesOnce_of_check checked.2)⟩

/-- The first chunk comes again before it is stored. -/
def chunkTwice : List (Event Nat) :=
  [.messageReceived ⟨0, 1, 3, .installSnapshot 1 twoBytes 0 [1] false⟩,
    .messageReceived ⟨0, 1, 3, .installSnapshot 1 twoBytes 0 [1] false⟩]

/-- It is stored twice. -/
theorem chunk_stored_twice : ¬ ∀ (history : List (Record Nat)) (c : RaftCore Nat),
    @Trace Nat sha256Empty (trio 3) history c → StoredOnce history c := by
  let _ : Sha256 := sha256Empty
  intro h
  obtain ⟨w, run, bad⟩ := Solo.exec_any (trio 3) chunkTwice
    (fun w => (w.core.stopped = false) && w.core.incomingSnapshot.isSome &&
      (transferStores w.history = [(0, [1]), (0, [1])])) (by decide +kernel)
  simp only [Bool.and_eq_true, decide_eq_true_eq] at bad
  obtain ⟨⟨running, receives⟩, twice⟩ := bad
  obtain ⟨receiver, found⟩ := Option.isSome_iff_exists.mp receives
  have once := ((h _ _ run).stored running receiver found).once
  simp [twice] at once

end Ruft
