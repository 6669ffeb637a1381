import Ruft.Exec

set_option autoImplicit false

/-!
# Effect ids and pending slots

Every effect that the host reports gets a fresh id, and the core keeps the id in one of
six slots. A slot only ever holds the id of an effect of its own kind; a slot that is
overwritten forgets the effect that it held.

## Main definitions

- `Pending` — a slot holds an id, with what it expects the effect to be
- `Slotted` — what one act or follow-up does to the slots
- `SlotsMatch` — the slots agree with the effects emitted so far
-/

namespace Ruft

variable {C : Type}

/-- What a continuation relies on in the batch that it waits for. -/
def PersistContinuation.Fits (localId : NodeId) (batch : PersistBatch C) :
    PersistContinuation → Prop
  | .sendVoteResponse to_ term true => ∃ commit, batch.hardState = some ⟨term, some to_, commit⟩
  | .broadcastVoteRequests => ∃ term commit, batch.hardState = some ⟨term, some localId, commit⟩
  | _ => True

/-- A slot holds the id of an effect that it expects to have the property. -/
inductive Pending (localId : NodeId) (slots : Slots) : EffectId → (Effect C → Prop) → Prop
  | persist (p : PendingPersist) (h : slots.persist = some p) :
      Pending localId slots p.id fun e => ∃ batch, e = .persist p.id batch ∧
        batch.snapshot = none ∧ p.stableThrough = batch.entries.getLast?.map (·.index) ∧
        p.continuation.Fits localId batch
  | apply (p : PendingApply) (h : slots.apply = some p) :
      Pending localId slots p.id fun e => ∃ entries last, e = .apply p.id entries ∧
        entries.getLast? = some last ∧ last.index = p.through
  | chunkStore (p : PendingChunkStore) (h : slots.chunkStore = some p) :
      Pending localId slots p.id fun e => ∃ metadata offset bytes,
        e = .storeSnapshotChunk p.id metadata offset bytes
  | received (id : EffectId) (record : SnapshotRecord) (from_ : NodeId) (term : Nat)
      (h : slots.incoming = some (.persisting id record from_ term)) :
      Pending localId slots id fun e => ∃ hardState,
        e = .persist id ⟨some hardState, [], some record⟩
  | installing (id : EffectId) (record : SnapshotRecord) (from_ : NodeId) (term : Nat)
      (h : slots.incoming = some (.installing id record from_ term)) :
      Pending localId slots id fun e => e = .installSnapshot id record
  | building (id : EffectId) (through : Nat) (h : slots.building = .building id through) :
      Pending localId slots id fun e => e = .buildSnapshot id through
  | recording (id : EffectId) (record : SnapshotRecord)
      (h : slots.building = .persisting id record) :
      Pending localId slots id fun e => e = .persist id ⟨none, [], some record⟩
  | compacting (id : EffectId) (record : SnapshotRecord)
      (h : slots.building = .compacting id record) :
      Pending localId slots id fun e => e = .compactLog id record.metadata.index
  | reading (id : EffectId) (to_ : NodeId) (h : slots.reads.get id = some to_) :
      Pending localId slots id fun e => ∃ snapshot offset maxLen,
        e = .readSnapshotChunk id snapshot offset maxLen

abbrev RaftCore.Pends (c : RaftCore C) (id : EffectId) (kind : Effect C → Prop) : Prop :=
  Pending c.config.localId c.slots id kind

/-- What an act or a follow-up does to the slots. -/
inductive Slotted (s s' : Ctx C) : Prop
  /-- No effect gets an id and no slot is filled. -/
  | quiet (new : List (Effect C)) (effects : s'.effects = s.effects ++ new)
      (silent : ∀ e ∈ new, e.id? = none) (config : s'.core.config = s.core.config)
      (sequence : s'.core.nextEffectSequence = s.core.nextEffectSequence)
      (slots : ∀ id kind, s'.core.Pends id kind → s.core.Pends id kind)
  /-- One effect gets the next id and may fill its slot. -/
  | emitted (e : Effect C) (effects : s'.effects = s.effects ++ [e])
      (id : e.id? = some s.allocated)
      (config : s'.core.config = s.core.config)
      (sequence : s'.core.nextEffectSequence = s.core.nextEffectSequence + 1)
      (slots : ∀ id kind, s'.core.Pends id kind → s.core.Pends id kind ∨
        (id = s.allocated ∧ kind e))

/-- Without a new id no effect has one. -/
theorem Slotted.silent {c : RaftCore C} {s : Ctx C} (h : Slotted ⟨c, []⟩ s)
    (same : s.core.nextEffectSequence = c.nextEffectSequence) : ∀ e ∈ s.effects, e.id? = none := by
  cases h with
  | quiet new effects silent =>
    rw [effects]
    exact silent
  | emitted e effects id config sequence =>
    have : s.core.nextEffectSequence = c.nextEffectSequence + 1 := sequence
    omega

/-- A slot that is emptied pends nothing new. -/
theorem Pending.mono {localId : NodeId} {slots slots' : Slots} {id : EffectId}
    {kind : Effect C → Prop} (h : Pending localId slots' id kind)
    (persist : slots'.persist = none ∨ slots'.persist = slots.persist)
    (apply : slots'.apply = none ∨ slots'.apply = slots.apply)
    (chunkStore : slots'.chunkStore = none ∨ slots'.chunkStore = slots.chunkStore)
    (incoming : slots'.incoming = none ∨ slots'.incoming = slots.incoming)
    (building : slots'.building = .idle ∨ slots'.building = slots.building)
    (reads : ∀ id to_, slots'.reads.get id = some to_ → slots.reads.get id = some to_) :
    Pending localId slots id kind := by
  cases h with
  | persist p h =>
    rcases persist with hn | hs
    · simp [hn] at h
    · exact .persist p (hs ▸ h)
  | apply p h =>
    rcases apply with hn | hs
    · simp [hn] at h
    · exact .apply p (hs ▸ h)
  | chunkStore p h =>
    rcases chunkStore with hn | hs
    · simp [hn] at h
    · exact .chunkStore p (hs ▸ h)
  | received id record from_ term h =>
    rcases incoming with hn | hs
    · simp [hn] at h
    · exact .received id record from_ term (hs ▸ h)
  | installing id record from_ term h =>
    rcases incoming with hn | hs
    · simp [hn] at h
    · exact .installing id record from_ term (hs ▸ h)
  | building id through h =>
    rcases building with hn | hs
    · simp [hn] at h
    · exact .building id through (hs ▸ h)
  | recording id record h =>
    rcases building with hn | hs
    · simp [hn] at h
    · exact .recording id record (hs ▸ h)
  | compacting id record h =>
    rcases building with hn | hs
    · simp [hn] at h
    · exact .compacting id record (hs ▸ h)
  | reading id to_ h => exact .reading id to_ (reads id to_ h)

/-- Queueing a persist fills the persist slot. -/
theorem Slotted.queued {c d : RaftCore C} {batch : PersistBatch C} {k : PersistContinuation}
    {effects : List (Effect C)} (fits : k.Fits c.config.localId batch)
    (slots : { d.slots with persist := none } = { c.slots with persist := none })
    (config : d.config = c.config) (sequence : d.nextEffectSequence = c.nextEffectSequence)
    (ordinary : batch.snapshot = none) :
    Slotted ⟨c, effects⟩ (Ctx.queued ⟨d, effects⟩ batch k) := by
  have same : (⟨d, effects⟩ : Ctx C).allocated = (⟨c, effects⟩ : Ctx C).allocated := by
    simp [Ctx.allocated, config, sequence]
  refine .emitted (.persist (Ctx.allocated ⟨d, effects⟩) batch) rfl (by simp [Effect.id?, same])
    config (by simp [Ctx.queued, sequence]) ?_
  simp only [Slots.mk.injEq, true_and] at slots
  obtain ⟨apply, chunkStore, incoming, building, reads⟩ := slots
  intro id kind h
  cases h with
  | persist p h =>
    simp only [RaftCore.slots, Ctx.queued, Option.some.injEq] at h
    subst h
    exact .inr ⟨same, batch, rfl, ordinary, rfl, by simpa only [Ctx.queued, config] using fits⟩
  | apply p h => exact .inl (.apply p (apply ▸ h))
  | chunkStore p h => exact .inl (.chunkStore p (chunkStore ▸ h))
  | received id record from_ term h =>
    exact .inl (.received id record from_ term (incoming ▸ h))
  | installing id record from_ term h =>
    exact .inl (.installing id record from_ term (incoming ▸ h))
  | building id through h => exact .inl (.building id through (building ▸ h))
  | recording id record h => exact .inl (.recording id record (building ▸ h))
  | compacting id record h => exact .inl (.compacting id record (building ▸ h))
  | reading id to_ h => exact .inl (.reading id to_ (reads ▸ h))

/-! ## Acts and follow-ups -/

theorem id?_toPeers (config : Config) (m : Message C) : ∀ e ∈ toPeers config m, e.id? = none := by
  intro e he
  obtain ⟨n, -, rfl⟩ := List.mem_map.mp he
  rfl

theorem answered_quiet {c : RaftCore C} {s : Ctx C} (p : Nat → Bool)
    (result : Nat → ProposalResult) (config : s.core.config = c.config)
    (sequence : s.core.nextEffectSequence = c.nextEffectSequence)
    (slots : ∀ id kind, s.core.Pends id kind → c.Pends id kind) :
    Slotted ⟨c, s.effects⟩ (s.answered p result) := by
  refine .quiet _ rfl ?_ config sequence slots
  intro e he
  obtain ⟨binding, -, he⟩ := List.mem_flatMap.mp he
  obtain ⟨proposalId, -, rfl⟩ := List.mem_map.mp he
  rfl

theorem roundStarted_quiet (s : Ctx C) (readId : ReadId) : Slotted s (s.roundStarted readId) := by
  obtain ⟨round, hr⟩ := s.roundStarted_core readId
  have slots : ∀ id kind, (s.roundStarted readId).core.Pends id kind → s.core.Pends id kind := by
    rw [hr]
    exact fun _ _ h => h
  rcases s.roundStarted_effects readId with he | ⟨context, he⟩
  · exact .quiet [] (by simp [he]) (by simp) (by rw [hr]) (by rw [hr]) slots
  · exact .quiet _ he (id?_toPeers _ _) (by rw [hr]) (by rw [hr]) slots

theorem MessageAct.slotted {c : RaftCore C} {from_ : NodeId} {m : Message C} {s : Ctx C}
    (act : MessageAct c from_ m s) : Slotted ⟨c, []⟩ s := by
  cases act with
  | termRaised => refine .queued trivial ?_ ?_ ?_ ?_ <;> rfl
  | voteNewer term index logTerm newer vote granted decided voted =>
    refine .queued ?_ rfl rfl rfl rfl
    cases granted with
    | false => trivial
    | true => exact ⟨_, by rw [voted]; rfl⟩
  | voteFirst => refine .queued ⟨_, rfl⟩ ?_ ?_ ?_ ?_ <;> rfl
  | campaigned => refine .queued ⟨_, _, rfl⟩ ?_ ?_ ?_ ?_ <;> rfl
  | elected => refine .queued trivial ?_ ?_ ?_ ?_ <;> rfl
  | appendRejected => refine .queued trivial ?_ ?_ ?_ ?_ <;> rfl
  | appendAccepted => refine .queued trivial ?_ ?_ ?_ ?_ <;> rfl
  | chunkAccepted term metadata offset bytes done receiver =>
    refine .emitted _ rfl rfl rfl rfl ?_
    intro id kind h
    cases h with
    | chunkStore p h =>
      simp only [RaftCore.slots, Option.some.injEq] at h
      subst h
      exact .inr ⟨rfl, _, _, _, rfl⟩
    | persist p h => exact .inl (.persist p h)
    | apply p h => exact .inl (.apply p h)
    | received id record from_ term h => exact .inl (.received id record from_ term h)
    | installing id record from_ term h => exact .inl (.installing id record from_ term h)
    | building id through h => exact .inl (.building id through h)
    | recording id record h => exact .inl (.recording id record h)
    | compacting id record h => exact .inl (.compacting id record h)
    | reading id to_ h => exact .inl (.reading id to_ h)
  | ignored | preVoteCounted | voteCounted | voteLost | appendFailed | acknowledged | backedOff
  | senderDone | receiverTouched => exact .quiet [] rfl (by simp) rfl rfl fun _ _ h => h
  | refused | voteAgain | appendRefused | appendHeld =>
    exact .quiet _ rfl (by simp [Effect.id?]) rfl rfl fun _ _ h => h

/-- The incoming snapshot slot is refilled; the chunk store slot may be emptied. -/
theorem Slotted.incoming {c d : RaftCore C} {e : Effect C} {state : IncomingSnapshotState}
    (slots : d.slots = { c.slots with chunkStore := d.pendingChunkStore, incoming := some state })
    (stored : d.pendingChunkStore = none ∨ d.pendingChunkStore = c.pendingChunkStore)
    (fresh : e.id? = some (Ctx.allocated ⟨c, []⟩))
    (fits : (∃ record from_ term hardState,
        state = .persisting (Ctx.allocated ⟨c, []⟩) record from_ term ∧
          e = .persist (Ctx.allocated ⟨c, []⟩) ⟨some hardState, [], some record⟩) ∨
      ∃ record from_ term, state = .installing (Ctx.allocated ⟨c, []⟩) record from_ term ∧
        e = .installSnapshot (Ctx.allocated ⟨c, []⟩) record)
    (config : d.config = c.config)
    (sequence : d.nextEffectSequence = c.nextEffectSequence + 1) : Slotted ⟨c, []⟩ ⟨d, [e]⟩ := by
  refine .emitted e rfl fresh config sequence ?_
  intro id kind pends
  have pends : Pending c.config.localId d.slots id kind := config ▸ pends
  rw [slots] at pends
  cases pends with
  | chunkStore p h =>
    dsimp only at h
    rcases stored with hn | hs
    · simp [hn] at h
    · exact .inl (.chunkStore p (hs.symm.trans h))
  | received id record from_ term h =>
    rcases fits with ⟨record', from', term', hardState, rfl, rfl⟩ | ⟨record', from', term', rfl, rfl⟩
    · simp only [Option.some.injEq, IncomingSnapshotState.persisting.injEq] at h
      obtain ⟨rfl, rfl, -, -⟩ := h
      exact .inr ⟨rfl, _, rfl⟩
    · simp at h
  | installing id record from_ term h =>
    rcases fits with ⟨record', from', term', hardState, rfl, rfl⟩ | ⟨record', from', term', rfl, rfl⟩
    · simp at h
    · simp only [Option.some.injEq, IncomingSnapshotState.installing.injEq] at h
      obtain ⟨rfl, rfl, -, -⟩ := h
      exact .inr ⟨rfl, rfl⟩
  | persist p h => exact .inl (.persist p h)
  | apply p h => exact .inl (.apply p h)
  | building id through h => exact .inl (.building id through h)
  | recording id record h => exact .inl (.recording id record h)
  | compacting id record h => exact .inl (.compacting id record h)
  | reading id to_ h => exact .inl (.reading id to_ h)

/-- The local snapshot slot is refilled. -/
theorem Slotted.building {c d : RaftCore C} {e : Effect C} {state : LocalSnapshotState}
    {effects : List (Effect C)} (slots : d.slots = { c.slots with building := state })
    (fits : (∃ through, state = .building (Ctx.allocated ⟨c, []⟩) through ∧
        e = .buildSnapshot (Ctx.allocated ⟨c, []⟩) through) ∨
      (∃ record, state = .persisting (Ctx.allocated ⟨c, []⟩) record ∧
        e = .persist (Ctx.allocated ⟨c, []⟩) ⟨none, [], some record⟩) ∨
      ∃ record, state = .compacting (Ctx.allocated ⟨c, []⟩) record ∧
        e = .compactLog (Ctx.allocated ⟨c, []⟩) record.metadata.index)
    (config : d.config = c.config)
    (sequence : d.nextEffectSequence = c.nextEffectSequence + 1) :
    Slotted ⟨c, effects⟩ ⟨d, effects ++ [e]⟩ := by
  have fresh : e.id? = some (Ctx.allocated ⟨c, []⟩) := by
    rcases fits with ⟨_, -, rfl⟩ | ⟨_, -, rfl⟩ | ⟨_, -, rfl⟩ <;> rfl
  refine .emitted e rfl fresh config sequence ?_
  intro id kind pends
  have pends : Pending c.config.localId d.slots id kind := config ▸ pends
  rw [slots] at pends
  cases pends with
  | building id through h =>
    rcases fits with ⟨_, rfl, rfl⟩ | ⟨_, rfl, rfl⟩ | ⟨_, rfl, rfl⟩ <;>
      simp only [LocalSnapshotState.building.injEq, reduceCtorEq] at h
    obtain ⟨rfl, rfl⟩ := h
    exact .inr ⟨rfl, rfl⟩
  | recording id record h =>
    rcases fits with ⟨_, rfl, rfl⟩ | ⟨_, rfl, rfl⟩ | ⟨_, rfl, rfl⟩ <;>
      simp only [LocalSnapshotState.persisting.injEq, reduceCtorEq] at h
    obtain ⟨rfl, rfl⟩ := h
    exact .inr ⟨rfl, rfl⟩
  | compacting id record h =>
    rcases fits with ⟨_, rfl, rfl⟩ | ⟨_, rfl, rfl⟩ | ⟨_, rfl, rfl⟩ <;>
      simp only [LocalSnapshotState.compacting.injEq, reduceCtorEq] at h
    obtain ⟨rfl, rfl⟩ := h
    exact .inr ⟨rfl, rfl⟩
  | persist p h => exact .inl (.persist p h)
  | apply p h => exact .inl (.apply p h)
  | chunkStore p h => exact .inl (.chunkStore p h)
  | received id record from_ term h => exact .inl (.received id record from_ term h)
  | installing id record from_ term h => exact .inl (.installing id record from_ term h)
  | reading id to_ h => exact .inl (.reading id to_ h)

theorem CompletionAct.slotted [Sha256] {c : RaftCore C} {id : EffectId} {outcome : EffectOutcome}
    {s : Ctx C} (act : CompletionAct c id outcome s) : Slotted ⟨c, []⟩ s := by
  cases act with
  | chunkRead snapshotId offset bytes done to_ sender advanced pending found same moved =>
    refine .quiet _ rfl (by simp [Effect.id?]) rfl rfl fun i kind h => h.mono (.inr rfl) (.inr rfl)
      (.inr rfl) (.inr rfl) (.inr rfl) ?_
    intro i n hr
    simp only [RaftCore.slots, BTreeMap.get_remove] at hr
    split at hr
    · simp at hr
    · exact hr
  | chunkStored =>
    exact .quiet [] rfl (by simp) rfl rfl fun i kind h => h.mono (.inr rfl) (.inr rfl)
      (.inl rfl) (.inr rfl) (.inr rfl) fun _ _ h => h
  | transferDone =>
    exact .incoming rfl (.inl rfl) rfl (.inl ⟨_, _, _, _, rfl, rfl⟩) rfl rfl
  | snapshotPersisted =>
    exact .incoming rfl (.inr rfl) rfl (.inr ⟨_, _, _, rfl, rfl⟩) rfl rfl
  | installed =>
    exact .quiet _ rfl (by simp [Effect.id?]) rfl rfl fun i kind h => h.mono (.inr rfl) (.inr rfl)
      (.inr rfl) (.inl rfl) (.inr rfl) fun _ _ h => h
  | built => exact .building rfl (.inr (.inl ⟨_, rfl, rfl⟩)) rfl rfl
  | recordPersisted => exact .building rfl (.inr (.inr ⟨_, rfl, rfl⟩)) rfl rfl
  | compacted | compactFailed =>
    exact .quiet [] rfl (by simp) rfl rfl fun i kind h => h.mono (.inr rfl) (.inr rfl)
      (.inr rfl) (.inr rfl) (.inl rfl) fun _ _ h => h
  | applyDone pending =>
    exact @answered_quiet C c ⟨{ c with pendingApply := none, appliedIndex := pending.through }, []⟩
      _ _ rfl rfl fun i kind h => h.mono (.inr rfl) (.inl rfl) (.inr rfl) (.inr rfl) (.inr rfl)
        fun _ _ h => h
  | persistDropped | persistDone | activated =>
    exact .quiet [] rfl (by simp) rfl rfl fun i kind h => h.mono (.inl rfl) (.inr rfl)
      (.inr rfl) (.inr rfl) (.inr rfl) fun _ _ h => h
  | votesRequested =>
    exact .quiet _ rfl (id?_toPeers _ _) rfl rfl fun i kind h => h.mono (.inl rfl) (.inr rfl)
      (.inr rfl) (.inr rfl) (.inr rfl) fun _ _ h => h
  | voteAnswered | appendAnswered =>
    exact .quiet _ rfl (by simp [Effect.id?]) rfl rfl fun i kind h => h.mono (.inl rfl) (.inr rfl)
      (.inr rfl) (.inr rfl) (.inr rfl) fun _ _ h => h
  | electedAlone => refine .queued trivial ?_ ?_ ?_ ?_ <;> rfl
  | rejected => exact .quiet [] rfl (by simp) rfl rfl fun _ _ h => h

theorem Act.slotted [Sha256] {c : RaftCore C} {event : Event C} {s : Ctx C} (act : Act c event s) :
    Slotted ⟨c, []⟩ s := by
  cases act with
  | preVoteStarted => exact .quiet _ rfl (id?_toPeers _ _) rfl rfl fun _ _ h => h
  | campaigned => refine .queued ⟨_, _, rfl⟩ ?_ ?_ ?_ ?_ <;> rfl
  | proposed => refine .queued trivial ?_ ?_ ?_ ?_ <;> rfl
  | message envelope members s known mine act =>
    cases act.slotted with
    | quiet new effects silent config sequence slots =>
      exact .quiet new effects silent config sequence slots
    | emitted e effects id config sequence slots => exact .emitted e effects id config sequence slots
  | proposalRefused => exact .quiet _ rfl (by simp [Effect.id?]) rfl rfl fun _ _ h => h
  | readStarted readId => exact roundStarted_quiet ⟨c, []⟩ readId
  | completed id outcome s act => exact act.slotted
  | _ => exact .quiet [] rfl (by simp) rfl rfl fun _ _ h => h

theorem FollowUp.slotted {cause : Cause C} {s s' : Ctx C} (hf : FollowUp cause s s')
    (settled : s.core.WF ∨ s.core.Overflowed) : Slotted s s' := by
  cases hf with
  | applied entries noPersist noApply behind range =>
    have wf : s.core.WF := settled.resolve_right fun beyond => by
      have := beyond.applied
      omega
    obtain ⟨last, hlast, hindex⟩ := wf.log.range_getLast range
    refine .emitted _ rfl rfl rfl rfl ?_
    intro id kind pends
    cases pends with
    | apply p h =>
      simp only [RaftCore.slots, Option.some.injEq] at h
      subst h
      exact .inr ⟨rfl, _, last, rfl, hlast, hindex⟩
    | persist p h => exact .inl (.persist p h)
    | chunkStore p h => exact .inl (.chunkStore p h)
    | received id record from_ term h => exact .inl (.received id record from_ term h)
    | installing id record from_ term h => exact .inl (.installing id record from_ term h)
    | building id through h => exact .inl (.building id through h)
    | recording id record h => exact .inl (.recording id record h)
    | compacting id record h => exact .inl (.compacting id record h)
    | reading id to_ h => exact .inl (.reading id to_ h)
  | chunkRequested to_ sender idle found =>
    refine .emitted _ rfl rfl rfl rfl ?_
    intro id kind pends
    cases pends with
    | reading id n h =>
      simp only [RaftCore.slots, BTreeMap.get_insert] at h
      split at h
      · next hid => exact .inr ⟨hid, _, _, _, by rw [hid]⟩
      · exact .inl (.reading id n h)
    | persist p h => exact .inl (.persist p h)
    | apply p h => exact .inl (.apply p h)
    | chunkStore p h => exact .inl (.chunkStore p h)
    | received id record from_ term h => exact .inl (.received id record from_ term h)
    | installing id record from_ term h => exact .inl (.installing id record from_ term h)
    | building id through h => exact .inl (.building id through h)
    | recording id record h => exact .inl (.recording id record h)
    | compacting id record h => exact .inl (.compacting id record h)
  | committed => refine .queued trivial ?_ ?_ ?_ ?_ <;> rfl
  | buildRequested => exact .building rfl (.inl ⟨_, rfl, rfl⟩) rfl rfl
  | appendSent => exact .quiet _ rfl (by simp [Effect.id?]) rfl rfl fun _ _ h => h
  | readReleased round index =>
    refine .quiet _ rfl ?_ rfl rfl fun _ _ h => h
    intro e he
    obtain ⟨r, -, rfl⟩ := List.mem_map.mp he
    rfl
  | readStarted readId rest =>
    cases roundStarted_quiet ⟨{ s.core with pendingReads := rest }, s.effects⟩ readId with
    | quiet new effects silent config sequence slots =>
      exact .quiet new effects silent config sequence slots
    | emitted e effects id config sequence slots => exact .emitted e effects id config sequence slots
  | _ => exact .quiet [] (by simp) (by simp) rfl rfl fun _ _ h => h

/-! ## The slots along runs -/

/-- The effects the host got so far, oldest first. -/
def returnedEffects (history : List (Record C)) : List (Effect C) :=
  history.reverse.flatMap Record.effects

@[simp] theorem returnedEffects_cons (r : Record C) (history : List (Record C)) :
    returnedEffects (r :: history) = returnedEffects history ++ r.effects := by
  simp [returnedEffects]

theorem mem_returnedEffects {history : List (Record C)} {e : Effect C} :
    e ∈ returnedEffects history ↔ ∃ r ∈ history, e ∈ r.effects := by
  simp [returnedEffects]

/-- Ids are distinct and below the counter, and a slot that holds the id of one of the effects
expects that effect. -/
structure SlotsMatch (effects : List (Effect C)) (c : RaftCore C) : Prop where
  issued : ∀ e ∈ effects, ∀ id, e.id? = some id → id.generation = c.config.generation ∧
    0 < id.sequence ∧ id.sequence ≤ c.nextEffectSequence
  distinct : (effects.filterMap Effect.id?).Nodup
  bounded : ∀ id kind, c.Pends id kind →
    id.generation = c.config.generation ∧ id.sequence ≤ c.nextEffectSequence
  fits : ∀ id kind, c.Pends id kind → ∀ e ∈ effects, e.id? = some id → kind e

theorem SlotsMatch.anti {effects effects' : List (Effect C)} {c : RaftCore C}
    (h : SlotsMatch effects c) (sub : effects'.Sublist effects) : SlotsMatch effects' c where
  issued e he := h.issued e (sub.subset he)
  distinct := h.distinct.sublist (sub.filterMap _)
  bounded := h.bounded
  fits id kind hp e he := h.fits id kind hp e (sub.subset he)

theorem SlotsMatch.slotted {earlier : List (Effect C)} {s s' : Ctx C}
    (h : SlotsMatch (earlier ++ s.effects) s.core) (hs : Slotted s s') :
    SlotsMatch (earlier ++ s'.effects) s'.core := by
  cases hs with
  | quiet new effects silent config sequence slots =>
    have old : ∀ e ∈ earlier ++ s'.effects, ∀ id, e.id? = some id →
        e ∈ earlier ++ s.effects := by
      intro e he id hid
      rw [effects, ← List.append_assoc, List.mem_append] at he
      rcases he with he | he
      · exact he
      · simp [silent e he] at hid
    constructor
    · intro e he id hid
      rw [config, sequence]
      exact h.issued e (old e he id hid) id hid
    · have : new.filterMap Effect.id? = [] := List.filterMap_eq_nil_iff.mpr silent
      rw [effects, ← List.append_assoc, List.filterMap_append, this, List.append_nil]
      exact h.distinct
    · intro id kind hp
      rw [config, sequence]
      exact h.bounded id kind (slots id kind hp)
    · intro id kind hp e he hid
      exact h.fits id kind (slots id kind hp) e (old e he id hid) hid
  | emitted e effects id config sequence slots =>
    have cases_ : ∀ e' ∈ earlier ++ s'.effects, e' ∈ earlier ++ s.effects ∨ e' = e := by
      intro e' he'
      rwa [effects, ← List.append_assoc, List.mem_append, List.mem_singleton] at he'
    -- The new id is above every id issued so far.
    have fresh : ∀ e' ∈ earlier ++ s.effects, e'.id? ≠ some s.allocated := by
      intro e' he' hid
      exact absurd (h.issued e' he' _ hid).2.2 (Nat.not_succ_le_self _)
    constructor
    · intro e' he' i hid
      rw [config, sequence]
      rcases cases_ e' he' with hold | rfl
      · obtain ⟨hg, hpos, hs⟩ := h.issued e' hold i hid
        exact ⟨hg, hpos, by omega⟩
      · obtain rfl : s.allocated = i := by simpa [id] using hid
        exact ⟨rfl, Nat.succ_pos _, le_rfl⟩
    · rw [effects, ← List.append_assoc, List.filterMap_append, List.nodup_append]
      refine ⟨h.distinct, by simp [id], ?_⟩
      intro i hi j hj
      obtain ⟨e', he', hid⟩ := List.mem_filterMap.mp hi
      obtain rfl : j = s.allocated := by simpa [id] using hj
      exact fun heq => fresh e' he' (heq ▸ hid)
    · intro i kind hp
      rw [config, sequence]
      rcases slots i kind hp with hold | ⟨rfl, -⟩
      · obtain ⟨hg, hs⟩ := h.bounded i kind hold
        exact ⟨hg, by omega⟩
      · exact ⟨rfl, le_rfl⟩
    · intro i kind hp e' he' hid
      rcases slots i kind hp with hold | ⟨rfl, hk⟩
      · rcases cases_ e' he' with hmem | rfl
        · exact h.fits i kind hold e' hmem hid
        · obtain rfl : s.allocated = i := by simpa [id] using hid
          exact absurd (h.bounded _ kind hold).2 (Nat.not_succ_le_self _)
      · rcases cases_ e' he' with hmem | rfl
        · exact absurd hid (fresh e' hmem)
        · exact hk

theorem finished_slotted (c : RaftCore C) (s : Ctx C) : Slotted s (s.finished c) := by
  unfold Ctx.finished
  split
  · exact answered_quiet _ _ rfl rfl fun _ _ h => h
  · exact .quiet [] (by simp) (by simp) rfl rfl fun _ _ h => h

/-- Only the effect counter matters. -/
def HasRoom : Condition C := fun _ c _ => Room c

theorem Holds.hasRoom {history : List (Record C)}
    (h : (history.all fun r => Room r.before) = true) : Holds HasRoom history :=
  @Holds.of_all C HasRoom (fun c _ => Room c) (fun _ _ _ => of_decide_eq_true) history h

theorem Stuck.slotted {c : RaftCore C} {A : Ctx C → Prop} {e : StepError} {s : Ctx C}
    (h : Stuck c A e s) : Slotted ⟨c, []⟩ ⟨s.core, []⟩ := by
  cases h with
  | queued d batch continuation full act slots config counter =>
    refine .quiet [] rfl (by simp) config counter fun id kind pends => ?_
    have pends : Pending c.config.localId d.slots id kind := config ▸ pends
    rcases slots with hs | hs
    · rwa [hs] at pends
    · rw [hs] at pends
      exact pends.mono (.inl rfl) (.inr rfl) (.inr rfl) (.inr rfl) (.inr rfl) fun _ _ h => h
  | dropped members receiver store incoming building full received stored installing built =>
    refine .quiet [] rfl (by simp) rfl rfl fun id kind pends => ?_
    exact pends.mono (.inr rfl) (.inr rfl) stored.symm installing.symm built.symm fun _ _ h => h

theorem slots_keep [Sha256] {condition : Condition C} : Keeps condition
    (fun history c => SlotsMatch (returnedEffects history) c)
    (fun history _ _ s => SlotsMatch (returnedEffects history ++ s.effects) s.core)
    (fun _ _ => True) where
  act := by
    intro history c event s _ h act
    refine SlotsMatch.slotted (s := ⟨c, []⟩) ?_ act.slotted
    rwa [List.append_nil]
  followUp hs act rest h hf := h.slotted (hf.slotted (act.settled hs.wf rest))
  finished hs h := h.slotted (finished_slotted _ _)
  returned := by
    intro history c event s changed _ h
    rwa [returnedEffects_cons]
  failed := by
    intro history c event s e _ h _
    rw [returnedEffects_cons]
    exact h.anti (List.Sublist.append_left (List.nil_sublist _) _)
  safe _ := trivial
  ended _ _ _ _ := trivial
  halted _ _ _ _ _ := trivial
  idle _ _ _ _ _ _ := trivial

theorem RaftCore.new_slots (config : Config) (recovered : RecoveredState C) :
    SlotsMatch (returnedEffects []) (RaftCore.new config recovered) := by
  have free : ∀ id kind, ¬ (RaftCore.new config recovered).Pends id kind := by
    intro id kind h
    cases h with
    | persist p h => simp [RaftCore.slots, RaftCore.new] at h
    | apply p h => simp [RaftCore.slots, RaftCore.new] at h
    | chunkStore p h => simp [RaftCore.slots, RaftCore.new] at h
    | received id record from_ term h => simp [RaftCore.slots, RaftCore.new] at h
    | installing id record from_ term h => simp [RaftCore.slots, RaftCore.new] at h
    | building id through h => simp [RaftCore.slots, RaftCore.new] at h
    | recording id record h => simp [RaftCore.slots, RaftCore.new] at h
    | compacting id record h => simp [RaftCore.slots, RaftCore.new] at h
    | reading id to_ h => simp [RaftCore.slots, RaftCore.new] at h
  constructor
  · simp [returnedEffects]
  · simp [returnedEffects]
  · exact fun id kind h => absurd h (free id kind)
  · exact fun id kind h => absurd h (free id kind)

theorem Holds.trivial {history : List (Record C)} : Holds (fun _ _ _ => True) history := by
  induction history with
  | nil => exact True.intro
  | cons r earlier ih => exact ⟨True.intro, ih⟩

/-- The slots of a running core match the effects that it returned. -/
theorem Trace.slots [Sha256] {config : Config} {recovered : RecoveredState C}
    {history : List (Record C)} {c : RaftCore C}
    (run : Trace (RaftCore.new config recovered) history c) :
    c.stopped = true ∨ SlotsMatch (returnedEffects history) c := by
  refine (Trace.invariant_of_stuck (@slots_keep C _ fun _ _ _ => True) ?_
    (RaftCore.new_wf config recovered) (RaftCore.new_slots config recovered) run .trivial).2.imp_right
      And.right
  intro history c event e s _ h stuck
  rw [returnedEffects_cons]
  have matched : SlotsMatch (returnedEffects history ++ (⟨c, []⟩ : Ctx C).effects) c := by
    rwa [List.append_nil]
  exact matched.slotted stuck.slotted

end Ruft
