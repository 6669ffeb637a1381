import Ruft.Bare
import Ruft.LogBounds
import Ruft.LogRuns
import Ruft.Safety

set_option autoImplicit false

/-!
# The disk of a host

A host keeps a hard state, a snapshot record and a suffix of entries, and changes them as the
persists and compactions tell it to, in the order in which they were returned. A step of a core
without snapshots writes at most one batch, and the batch takes the disk from the memory before
the step to the memory after it.

## Main definitions

- `Disk` — what a host stores
- `Disk.replay` — the disk after the effects that a core returned
- `Record.Clean` — a step that failed changed nothing that a host stores
- `Acceptable` — durable parts that fit together

## Main results

- `recovery_accepts` — recovery accepts exactly the parts that fit together
- `crash_recovers` — after any number of writes, recovery leads back to a state of the node
-/

namespace Ruft

open StepM Program

variable {C : Type}

/-- What a host stores. -/
structure Disk (C : Type) where
  hardState : HardState
  snapshot : Option SnapshotRecord
  entries : List (Entry C)

namespace Disk

/-- A disk on which nothing was ever written. -/
def blank : Disk C := ⟨⟨0, none, 0⟩, none, []⟩

/-- A batch is written as one: what it leaves out stays, and its entries replace the suffix from
the first of them on. -/
def persist (d : Disk C) (batch : PersistBatch C) : Disk C where
  hardState := batch.hardState.getD d.hardState
  snapshot := batch.snapshot.or d.snapshot
  entries := batch.entries.head?.elim d.entries fun first =>
    truncateAt first.index d.entries ++ batch.entries

def compact (d : Disk C) (through : Nat) : Disk C :=
  { d with entries := d.entries.filter (through < ·.index) }

def execute (d : Disk C) : Effect C → Disk C
  | .persist _ batch => d.persist batch
  | .compactLog _ through => d.compact through
  | _ => d

/-- The disk after the effects, in their order. -/
def replay (d : Disk C) (effects : List (Effect C)) : Disk C := effects.foldl execute d

end Disk

/-- The effect changes the disk. -/
def Effect.writes : Effect C → Bool
  | .persist _ _ | .compactLog _ _ => true
  | _ => false

/-- The effects of a history, in the order in which they were returned. -/
def returned (history : List (Record C)) : List (Effect C) := history.reverse.flatMap (·.effects)

namespace Disk

variable {d : Disk C} {effects : List (Effect C)}

@[simp] theorem replay_nil (d : Disk C) : d.replay [] = d := rfl

theorem replay_append (more : List (Effect C)) :
    d.replay (effects ++ more) = (d.replay effects).replay more := List.foldl_append ..

theorem replay_filter : d.replay (effects.filter (·.writes)) = d.replay effects := by
  induction effects generalizing d with
  | nil => rfl
  | cons e effects ih =>
    cases hw : e.writes with
    | true => rw [List.filter_cons_of_pos hw]; exact ih
    | false =>
      rw [List.filter_cons_of_neg (by simp [hw]), ih]
      have same : d.execute e = d := by cases e <;> first | rfl | simp [Effect.writes] at hw
      show d.replay effects = (d.execute e).replay effects
      rw [same]

/-- The disk holds the memory of a core without snapshots. -/
structure Mirrors (d : Disk C) (c : RaftCore C) : Prop where
  hardState : d.hardState = c.hardState
  snapshot : d.snapshot = none
  entries : d.entries = c.log.entries

end Disk

theorem returned_cons (r : Record C) (history : List (Record C)) :
    returned (r :: history) = returned history ++ r.effects := by
  simp [returned]

/-! ## What a step writes -/

section Step

variable {c : RaftCore C} {event : Event C} {s s' : Ctx C}

/-- The writes of a step and the memory they leave behind. -/
inductive Journaled (cause : Cause C) (s : Ctx C) : Prop
  | quiet (none_ : s.effects.filter (·.writes) = [])
      (hardState : s.core.hardState = cause.core.hardState)
      (entries : s.core.log.entries = cause.core.log.entries)
  | wrote (id : EffectId) (batch : PersistBatch C)
      (one : s.effects.filter (·.writes) = [.persist id batch])
      (slot : s.core.pendingPersist.isSome = true)
      (mirrors : ∀ d : Disk C, d.Mirrors cause.core → (d.persist batch).Mirrors s.core)
  -- The effect counter overflows after a commit: the step fails.
  | raised (none_ : s.effects.filter (·.writes) = []) (may : cause.MayCommit)
      (above : cause.core.hardState.commitIndex < s.core.hardState.commitIndex)
      (slot : s.core.pendingPersist = none)
      (hardState : s.core.hardState =
        { cause.core.hardState with commitIndex := s.core.hardState.commitIndex })
      (entries : s.core.log.entries = cause.core.log.entries)

theorem Journaled.queued {d : RaftCore C} {batch : PersistBatch C}
    {continuation : PersistContinuation}
    (mirrors : ∀ disk : Disk C, disk.Mirrors c → (disk.persist batch).Mirrors d) :
    Journaled ⟨c, event⟩ (Ctx.queued ⟨d, []⟩ batch continuation) :=
  .wrote _ batch rfl rfl fun disk holds => ⟨(mirrors disk holds).1, (mirrors disk holds).2,
    (mirrors disk holds).3⟩

/-- A batch with a hard state only. -/
theorem Disk.Mirrors.hardState_only {disk : Disk C} {d : RaftCore C} {hardState : HardState}
    (h : disk.Mirrors c) (is : hardState = d.hardState) (entries : d.log.entries = c.log.entries) :
    (disk.persist ⟨some hardState, [], none⟩).Mirrors d :=
  ⟨is, h.snapshot, h.entries.trans entries.symm⟩

theorem truncateAt_of_lt {n : Nat} {es : List (Entry C)} {first : Nat} (h : Contiguous n es)
    (beyond : n + es.length ≤ first) : truncateAt first es = es := by
  obtain ⟨j, rfl⟩ := Nat.exists_eq_add_of_le beyond
  rw [Nat.add_assoc, truncateAt_eq_take h, List.take_of_length_le (Nat.le_add_right _ _)]

/-- A batch with an entry that continues the log. -/
theorem Disk.Mirrors.entry_only {disk : Disk C} {d : RaftCore C} {entry : Entry C}
    (h : disk.Mirrors c) (wf : c.log.WF) (index : entry.index = c.log.lastIndex + 1)
    (hardState : d.hardState = c.hardState)
    (entries : d.log.entries = c.log.entries ++ [entry]) :
    (disk.persist ⟨none, [entry], none⟩).Mirrors d := by
  refine ⟨h.hardState.trans hardState.symm, h.snapshot, ?_⟩
  show truncateAt entry.index disk.entries ++ [entry] = _
  rw [h.entries, entries, truncateAt_of_lt wf.contiguous]
  rw [index, wf.lastIndex]
  omega

theorem Disk.Mirrors.merged {disk : Disk C} (h : disk.Mirrors c) (wf : c.WF)
    {term leaderCommit : Nat} {log : RaftLog C} {entries appended : List (Entry C)}
    {hardState : Option HardState} (reached : c.hardState.currentTerm ≤ term)
    (merge : c.log.Merged entries log appended)
    (persisted : hardState = if c.hardState.currentTerm < term ∨
        c.log.committed < min leaderCommit log.lastIndex then
      some (c.merged term leaderCommit log).hardState else none) :
    (disk.persist ⟨hardState, appended, none⟩).Mirrors (c.merged term leaderCommit log) := by
  refine ⟨?_, h.snapshot, ?_⟩
  · show hardState.getD disk.hardState = _
    rw [persisted]
    split
    · rfl
    · next kept =>
      simp only [not_or, Nat.not_lt] at kept
      have term_eq := Nat.le_antisymm reached kept.1
      have commit : max log.committed (min leaderCommit log.lastIndex) = c.hardState.commitIndex := by
        rw [merge.committed_eq, ← wf.committed]
        exact max_eq_left kept.2
      rw [Option.getD_none, h.hardState]
      unfold RaftCore.merged
      rw [commit, if_neg (by omega), ← term_eq]
  · show appended.head?.elim disk.entries _ = log.entries
    rw [h.entries]
    cases merge with
    | same held => rfl
    | changed kept e rest j u split held differs index =>
      show truncateAt e.index c.log.entries ++ e :: rest = _
      rw [index, truncateAt_eq_take wf.log.contiguous]

theorem MessageAct.journaled {members : Finset NodeId} {envelope : Envelope C} (wf : c.WF)
    (plain : envelope.message.bringsSnapshot = false)
    (act : MessageAct { c with activeMembers := members } envelope.from_ envelope.message s) :
    Journaled ⟨c, .messageReceived envelope⟩ s := by
  generalize envelope.message = m at act plain
  cases act with
  | termRaised | campaigned | voteNewer | voteFirst | appendRejected =>
    exact .queued fun disk holds => holds.hardState_only rfl rfl
  | elected term granted votes entry same candidate found won next =>
    exact .queued fun disk holds => holds.entry_only wf.log next.index rfl rfl
  | appendAccepted term prev prevTerm leaderCommit context entries log appended hardState reached
      prefix_ run merge wf' changed persisted =>
    exact .queued fun disk holds => holds.merged wf reached merge persisted
  | chunkAccepted => simp [Message.bringsSnapshot] at plain
  | refused _ reply refusal | appendRefused _ _ _ _ _ _ _ reply refusal =>
    exact .quiet rfl rfl rfl
  | _ => exact .quiet rfl rfl rfl

/-- Effects that write nothing. -/
theorem writes_append {effects more : List (Effect C)} (quiet : ∀ e ∈ more, e.writes = false) :
    (effects ++ more).filter (·.writes) = effects.filter (·.writes) := by
  have none_ : more.filter (·.writes) = [] :=
    List.filter_eq_nil_iff.mpr fun e he => by simp [quiet e he]
  rw [List.filter_append, none_, List.append_nil]

theorem filter_toPeers {config : Config} {m : Message C} :
    (toPeers config m).filter (·.writes) = [] := by
  refine List.filter_eq_nil_iff.mpr fun e he => ?_
  obtain ⟨n, -, rfl⟩ := List.mem_map.mp he
  simp [Effect.writes]

theorem Ctx.answered_writes (t : Ctx C) (p : Nat → Bool) (result : Nat → ProposalResult) :
    (t.answered p result).effects.filter (·.writes) = t.effects.filter (·.writes) := by
  refine writes_append fun e he => ?_
  obtain ⟨binding, -, he⟩ := List.mem_flatMap.mp he
  obtain ⟨proposalId, -, rfl⟩ := List.mem_map.mp he
  rfl

theorem Ctx.roundStarted_writes (t : Ctx C) (readId : ReadId) :
    (t.roundStarted readId).effects.filter (·.writes) = t.effects.filter (·.writes) := by
  rcases t.roundStarted_effects readId with same | ⟨context, more⟩
  · rw [same]
  · rw [more, List.filter_append, Ctx.readHeartbeats, filter_toPeers, List.append_nil]

theorem Act.journaled [Sha256] (wf : c.WF) (bare : c.Bare) (plain : event.bringsSnapshot = false)
    (act : Act c event s) : Journaled ⟨c, event⟩ s := by
  cases act with
  | message envelope members s known mine act => exact act.journaled wf plain
  | campaigned => exact .queued fun disk holds => holds.hardState_only rfl rfl
  | proposed proposalId command encodedLen entry leader free next =>
    exact .queued fun disk holds => holds.entry_only wf.log next.index rfl rfl
  | preVoteStarted => exact .quiet filter_toPeers rfl rfl
  | readStarted readId =>
    obtain ⟨round, hr⟩ := Ctx.roundStarted_core ⟨c, []⟩ readId
    exact .quiet (Ctx.roundStarted_writes _ _) (by rw [hr]) (by rw [hr])
  | completed id outcome s act =>
    cases act with
    | electedAlone stableThrough votes entry found counted won next =>
      exact .queued fun disk holds => holds.entry_only wf.log next.index rfl rfl
    | votesRequested => exact .quiet filter_toPeers rfl rfl
    | applyDone => exact .quiet (Ctx.answered_writes _ _ _) rfl rfl
    | transferDone snapshotId nextOffset snapshotRef pending receiver found =>
      simp [bare.receiving] at found
    | snapshotPersisted record from_ term found => simp [bare.incoming] at found
    | installed snapshotId record from_ term log found => simp [bare.incoming] at found
    | built => simp [Event.bringsSnapshot] at plain
    | recordPersisted record found => exact absurd found (bare.persisting _ _)
    | compacted record log found => exact absurd found (bare.compacting _ _)
    | _ => exact .quiet rfl rfl rfl
  | _ => exact .quiet rfl rfl rfl

/-- A follow-up that is no commit. -/
theorem Journaled.keep {cause : Cause C} (h : Journaled cause s)
    (writes : s'.effects.filter (·.writes) = s.effects.filter (·.writes))
    (slot : s'.core.pendingPersist = s.core.pendingPersist)
    (hardState : s'.core.hardState = s.core.hardState)
    (entries : s'.core.log.entries = s.core.log.entries) : Journaled cause s' := by
  cases h with
  | quiet none_ hard same =>
    exact .quiet (writes.trans none_) (hardState.trans hard) (entries.trans same)
  | wrote id batch one taken mirrors =>
    refine .wrote id batch (writes.trans one) (slot ▸ taken) fun d holds => ?_
    obtain ⟨hard, snapshot, same⟩ := mirrors d holds
    exact ⟨hard.trans hardState.symm, snapshot, same.trans entries.symm⟩
  | raised none_ may above free hard same =>
    exact .raised (writes.trans none_) may (hardState ▸ above) (slot.trans free)
      (hardState ▸ hard) (entries.trans same)

theorem FollowUp.journaled {cause : Cause C} (wf : s.core.WF) (h : Journaled cause s)
    (hf : FollowUp cause s s') : Journaled cause s' := by
  cases hf with
  | committed commit may noPersist quorum fresh held term leading =>
    have batch : ∀ d : Disk C, d.Mirrors cause.core →
        s.core.log.entries = cause.core.log.entries →
        (d.persist ⟨some { s.core.hardState with commitIndex := commit }, [], none⟩).Mirrors
          (Ctx.queued ⟨{ s.core with
            log := { s.core.log with committed := commit }
            hardState := { s.core.hardState with commitIndex := commit } }, s.effects⟩
            ⟨some { s.core.hardState with commitIndex := commit }, [], none⟩ .applyCommitted).core :=
      fun d holds same => holds.hardState_only rfl same
    have more : ∀ {e : Effect C}, s.effects.filter (·.writes) = [] → e.writes = true →
        (s.effects ++ [e]).filter (·.writes) = [e] := by
      intro e none_ writes
      rw [List.filter_append, none_, List.nil_append, List.filter_cons_of_pos writes]
      rfl
    cases h with
    | quiet none_ hard same =>
      exact .wrote _ _ (more none_ rfl) rfl fun d holds => batch d holds same
    | wrote id batch one slot => simp [noPersist] at slot
    | raised none_ may above free hard same =>
      exact .wrote _ _ (more none_ rfl) rfl fun d holds => batch d holds same
  | commitStuck commit may noPersist quorum fresh =>
    rw [wf.committed] at fresh
    cases h with
    | quiet none_ hard same =>
      refine .raised none_ may ?_ noPersist ?_ same
      · rw [hard] at fresh
        exact fresh
      · show ({ s.core.hardState with commitIndex := commit } : HardState) = _
        rw [hard]
    | wrote id batch one slot => simp [noPersist] at slot
    | raised none_ _ above free hard same =>
      refine .raised none_ may (above.trans fresh) noPersist ?_ same
      show ({ s.core.hardState with commitIndex := commit } : HardState) = _
      rw [hard]
  | readStarted readId rest =>
    obtain ⟨round, hr⟩ :=
      Ctx.roundStarted_core ⟨{ s.core with pendingReads := rest }, s.effects⟩ readId
    exact h.keep (Ctx.roundStarted_writes _ _) (by rw [hr]) (by rw [hr]) (by rw [hr])
  | readReleased round index found safe applied =>
    refine h.keep (writes_append fun e he => ?_) rfl rfl rfl
    obtain ⟨readId, -, rfl⟩ := List.mem_map.mp he
    rfl
  | applied | appendSent | chunkRequested | buildRequested =>
    exact h.keep (writes_append (by simp [Effect.writes])) rfl rfl rfl
  | _ => exact h.keep rfl rfl rfl rfl

theorem Path.journaled [Sha256] (wf : c.WF) (bare : c.Bare) (plain : event.bringsSnapshot = false)
    (path : Path c event s) : Journaled ⟨c, event⟩ s := by
  obtain ⟨s₀, s, act, rest⟩ := path
  have journaled := act.journaled wf bare plain
  have wf₀ := bare.act_wf wf act
  induction rest with
  | refl => exact journaled
  | tail before last ih => exact last.journaled (wf₀.followUps before) ih

theorem Ctx.finished_writes (c : RaftCore C) (t : Ctx C) :
    (t.finished c).effects.filter (·.writes) = t.effects.filter (·.writes) := by
  unfold Ctx.finished
  split
  · exact t.answered_writes _ _
  · rfl

end Step

/-! ## Commits are written -/

/-- The program leaves the commit index and the slot alone, a persist is outstanding after it, or
it fails because a counter overflows. -/
def Secures {α : Type} (m : StepM C α) : Prop :=
  ∀ s, (m s).1 = Outcome.raise (.arithmetic .overflow) ∨
    (m s).2.core.pendingPersist.isSome = true ∨
    (m s).2.core.pendingPersist = s.core.pendingPersist ∧
      (m s).2.core.hardState.commitIndex = s.core.hardState.commitIndex

namespace Secures

variable {α β : Type}

theorem same {m : StepM C α} (h : ∀ s, (m s).2.core = s.core) : Secures m :=
  fun s => .inr (.inr ⟨by rw [h s], by rw [h s]⟩)

theorem pure (a : α) : Secures (Pure.pure a : StepM C α) := same fun _ => rfl

theorem raise (e : StepError) : Secures (StepM.raise e : StepM C α) := same fun _ => rfl

theorem core : Secures (StepM.core : StepM C _) := same fun _ => rfl

theorem lift {δ : Type} (g : δ → StepError) (m : Outcome δ α) :
    Secures (Program.lift g m : StepM C α) := same fun _ => by cases m <;> rfl

theorem expect (o : Option α) : Secures (Program.expect o : StepM C α) := by
  cases o with
  | none => exact same fun _ => rfl
  | some a => exact pure a

theorem emitAll (effects : List (Effect C)) : Secures (StepM.emitAll effects) := same fun _ => rfl

theorem emit (e : Effect C) : Secures (StepM.emit e) := emitAll [e]

theorem seq {m : StepM C α} {f : α → StepM C β} (hm : Secures m) (hf : ∀ a, Secures (f a)) :
    Secures (m >>= f) := by
  intro s
  have first := hm s
  cases ran : m s with
  | mk r t =>
    rw [ran] at first
    cases r with
    | error e =>
      rw [bind_run_error ran]
      rcases first with overflow | rest
      · exact .inl (by cases overflow; rfl)
      · exact .inr rest
    | ok a =>
      rw [bind_run_ok ran]
      rcases hf a t with overflow | taken | ⟨slot, commit⟩
      · exact .inl overflow
      · exact .inr (.inl taken)
      · rw [slot, commit]
        exact .inr (first.resolve_left nofun)

theorem ite {p : Prop} [Decidable p] {m n : StepM C α} (hm : Secures m) (hn : Secures n) :
    Secures (if p then m else n) := by
  split
  · exact hm
  · exact hn

theorem forEach {f : α → StepM C Unit} (h : ∀ a, Secures (f a)) (as : List α) :
    Secures (Program.forEach f as) := by
  induction as with
  | nil => exact pure ()
  | cons a as ih => exact (h a).seq fun _ => ih

theorem update {f : RaftCore C → RaftCore C}
    (slot : ∀ c, (f c).pendingPersist = c.pendingPersist)
    (commit : ∀ c, (f c).hardState.commitIndex = c.hardState.commitIndex) :
    Secures (StepM.update f) := fun s => .inr (.inr ⟨slot s.core, commit s.core⟩)

/-- A write that spares the commit index and the slot, and what follows. -/
theorem assign {f : RaftCore C → RaftCore C} {g : Unit → StepM C α}
    (slot : ∀ c, (f c).pendingPersist = c.pendingPersist)
    (commit : ∀ c, (f c).hardState.commitIndex = c.hardState.commitIndex)
    (rest : ∀ a, Secures (g a)) :
    Secures (StepM.update f >>= g) :=
  (update slot commit).seq rest

theorem nextEffectId : Secures (Ruft.nextEffectId : StepM C EffectId) :=
  core.seq fun _ => (lift _ _).seq fun _ =>
    assign (fun _ => rfl) (fun _ => rfl) fun _ => pure _

theorem queuePersist (batch : PersistBatch C) (k : PersistContinuation) :
    Secures (Ruft.queuePersist batch k) := by
  intro s
  by_cases room : s.core.nextEffectSequence < u64Max
  · rw [queuePersist_run room]
    exact .inr (.inl rfl)
  · rw [queuePersist_overflow room]
    exact .inl rfl

/-- What is written before the batch is queued does not matter. -/
theorem queued (f : RaftCore C → RaftCore C) (batch : PersistBatch C) (k : PersistContinuation) :
    Secures (StepM.update f >>= fun _ => Ruft.queuePersist batch k) := by
  intro s
  rw [bind_run_ok (update_run f s)]
  by_cases room : (f s.core).nextEffectSequence < u64Max
  · rw [queuePersist_run (by exact room)]
    exact .inr (.inl rfl)
  · rw [queuePersist_overflow (by exact room)]
    exact .inl rfl

theorem readSnapshotChunk (to_ : NodeId) : Secures (Ruft.readSnapshotChunk to_ : StepM C Unit) := by
  refine core.seq fun c => .ite (pure ()) ?_
  have rest : Secures (do
      let c ← StepM.core
      let sender ← Program.expect (c.snapshotSenders.get to_)
      let id ← Ruft.nextEffectId
      StepM.update fun c => { c with
        pendingSnapshotReads := c.pendingSnapshotReads.insert id to_ }
      StepM.emit (.readSnapshotChunk id sender.snapshot sender.offset c.config.snapshotChunkBytes) :
      StepM C Unit) :=
    core.seq fun _ => (expect _).seq fun _ => nextEffectId.seq fun _ =>
      assign (fun _ => rfl) (fun _ => rfl) fun _ => emit _
  cases c.snapshotSenders.get to_ with
  | some sender => exact rest
  | none =>
    cases c.log.snapshot with
    | some snapshot => exact assign (fun _ => rfl) (fun _ => rfl) fun _ => rest
    | none => exact (raise (α := Unit) _).seq fun _ => rest

theorem replicateTo (to_ : NodeId) : Secures (Ruft.replicateTo to_ : StepM C Unit) := by
  refine core.seq fun c => ?_
  cases c.progress.get to_ with
  | none => exact pure ()
  | some progress =>
    have batch : ∀ next, Secures (replicationBatch next : StepM C _) := fun next =>
      core.seq fun _ => .ite (pure _) ((lift _ _).seq fun _ => pure _)
    refine .ite (pure ()) ((lift _ _).seq fun first => .ite ?_ ?_)
    · exact assign (fun _ => rfl) (fun _ => rfl) fun _ => readSnapshotChunk to_
    · exact (lift _ _).seq fun _ => (lift _ _).seq fun _ => (batch _).seq fun _ =>
        (lift _ _).seq fun _ => assign (fun _ => rfl) (fun _ => rfl) fun _ => emit _

theorem replicateAll : Secures (Ruft.replicateAll : StepM C Unit) :=
  core.seq fun _ => forEach replicateTo _

theorem advanceCommit : Secures (Ruft.advanceCommit : StepM C Unit) := by
  refine core.seq fun c => .ite (pure ()) ((lift _ _).seq fun commit => ?_)
  cases commit with
  | none => exact pure ()
  | some commit => exact (lift _ _).seq fun _ => queued _ _ _

theorem emitApplyIfNeeded : Secures (Ruft.emitApplyIfNeeded : StepM C Unit) :=
  core.seq fun _ => .ite (pure ()) <| (lift _ _).seq fun _ => (lift _ _).seq fun _ =>
    nextEffectId.seq fun _ => assign (fun _ => rfl) (fun _ => rfl) fun _ => emit _

theorem releaseReadRound : Secures (Ruft.releaseReadRound : StepM C Unit) := by
  refine core.seq fun c => ?_
  cases found : c.readRound with
  | none => exact pure ()
  | some round =>
    cases safe : round.safeIndex with
    | none =>
      simp only [safe]
      exact pure ()
    | some index =>
      simp only [safe]
      exact .ite (assign (fun _ => rfl) (fun _ => rfl) fun _ => emitAll _) (pure ())

theorem startReadRoundThen {next : StepM C Unit} (h : Secures next) (readId : ReadId) :
    Secures (Ruft.startReadRoundThen next readId) :=
  core.seq fun _ => (lift _ _).seq fun _ => assign (fun _ => rfl) (fun _ => rfl) fun _ =>
    .ite (assign (fun _ => rfl) (fun _ => rfl) fun _ => releaseReadRound.seq fun _ => h)
      (core.seq fun _ => (expect _).seq fun _ => (lift _ _).seq fun _ => emitAll _)

theorem startPendingReadsUpTo (turns : Nat) :
    Secures (Ruft.startPendingReadsUpTo turns : StepM C Unit) := by
  induction turns with
  | zero => exact pure ()
  | succ turns ih =>
    refine core.seq fun c => .ite (pure ()) ?_
    cases c.pendingReads with
    | nil => exact pure ()
    | cons readId rest =>
      exact assign (fun _ => rfl) (fun _ => rfl) fun _ => startReadRoundThen ih readId

theorem startPendingReads : Secures (Ruft.startPendingReads : StepM C Unit) :=
  core.seq fun _ => startPendingReadsUpTo _

theorem acknowledgeReadContext (from_ : NodeId) (context : Bytes) :
    Secures (Ruft.acknowledgeReadContext from_ context : StepM C Unit) := by
  refine core.seq fun c => ?_
  cases c.readRound with
  | none => exact pure ()
  | some round =>
    exact .ite (pure ()) (assign (fun _ => rfl) (fun _ => rfl) fun _ =>
      releaseReadRound.seq fun _ => startPendingReads)

theorem beginTermTransition (term : Nat) (k : PersistContinuation) :
    Secures (Ruft.beginTermTransition term k : StepM C Unit) :=
  assign (fun _ => rfl) (fun _ => rfl) fun _ =>
    assign (fun _ => rfl) (fun _ => rfl) fun _ => core.seq fun _ => queuePersist _ _

theorem persistLeaderNoop : Secures (Ruft.persistLeaderNoop : StepM C Unit) :=
  core.seq fun _ => (lift _ _).seq fun _ => (expect _).seq fun _ => (lift _ _).seq fun _ =>
    queued _ _ _

theorem afterResponse (from_ : NodeId) (success : Bool) (context : Option Bytes) (changed : Bool) :
    Secures (Ruft.afterResponse from_ success context changed : StepM C Unit) := by
  have rest : Secures (if changed = true then do
        Ruft.replicateTo from_
        Ruft.advanceCommit
      else Pure.pure () : StepM C Unit) :=
    .ite ((replicateTo _).seq fun _ => advanceCommit) (pure ())
  cases context with
  | none => exact rest
  | some context =>
    cases success with
    | false => exact rest
    | true => exact (acknowledgeReadContext _ _).seq fun _ => rest

theorem onAppendEntriesResponse (from_ : NodeId) (term : Nat) (success : Bool) (matchIndex : Nat)
    (conflict : Option ConflictHint) (context : Option Bytes) :
    Secures (Ruft.onAppendEntriesResponse from_ term success matchIndex conflict context :
      StepM C Unit) := by
  refine core.seq fun c => .ite (beginTermTransition _ _) (.ite (pure ()) ?_)
  have moved : ∀ (p : Progress) (next : Option Nat), Secures (liftPure (next.elim
      (p.acknowledged (min matchIndex c.log.lastIndex)) (p.reject matchIndex)) >>= fun r => do
        StepM.update fun c => { c with progress := c.progress.insert from_ r.1 }
        Ruft.afterResponse from_ success context r.2 : StepM C Unit) := fun p next =>
    (lift _ _).seq fun r => assign (fun _ => rfl) (fun _ => rfl) fun _ => afterResponse _ _ _ _
  cases success with
  | true =>
    refine (pure none).seq fun next => ?_
    cases c.progress.get from_ with
    | none => exact pure ()
    | some p => cases next with
      | none => exact moved p none
      | some n => exact moved p (some n)
  | false =>
    refine (lift _ _).seq fun next => ?_
    cases c.progress.get from_ with
    | none => exact pure ()
    | some p => exact moved p (some next)

theorem initializeProgress : Secures (Ruft.initializeProgress : StepM C Unit) := by
  refine core.seq fun c => (lift _ _).seq fun next =>
    assign (fun _ => rfl) (fun _ => rfl) fun _ => forEach (fun node => ?_) _
  exact (lift _ _).seq fun _ => update (fun _ => rfl) fun _ => rfl

theorem activateLeader : Secures (Ruft.activateLeader : StepM C Unit) :=
  assign (fun _ => rfl) (fun _ => rfl) fun _ =>
    initializeProgress.seq fun _ => replicateAll.seq fun _ => advanceCommit

theorem continueWith (k : PersistContinuation) :
    Secures (Ruft.continueWith k : StepM C Unit) := by
  cases k with
  | broadcastVoteRequests =>
    exact core.seq fun _ => .ite persistLeaderNoop (core.seq fun _ => emitAll _)
  | sendVoteResponse to_ term granted => exact emit _
  | sendAppendEntriesResponse to_ response => exact (emit _).seq fun _ => emitApplyIfNeeded
  | replicateProposal => exact replicateAll.seq fun _ => advanceCommit.seq fun _ => startPendingReads
  | applyCommitted => exact emitApplyIfNeeded.seq fun _ => startPendingReads
  | activateLeader => exact activateLeader
  | none => exact pure ()

theorem onOutgoingSnapshotCompletion (id : EffectId) :
    Secures (Ruft.onOutgoingSnapshotCompletion id .persisted : StepM C Bool) := by
  refine core.seq fun c => ?_
  cases c.pendingSnapshotReads.get id with
  | none => exact pure false
  | some to_ =>
    exact assign (fun _ => rfl) (fun _ => rfl) fun _ => (expect _).seq fun _ =>
      assign (fun _ => rfl) (fun _ => rfl) fun _ => raise _

theorem onIncomingSnapshotCompletion [Sha256] (id : EffectId) :
    Secures (Ruft.onIncomingSnapshotCompletion id .persisted : StepM C Bool) := by
  have store : Secures (onChunkStoreCompletion id .persisted : StepM C _) := by
    refine core.seq fun c => ?_
    cases c.pendingChunkStore with
    | none => exact pure none
    | some pending =>
      exact assign (fun _ => rfl) (fun _ => rfl) fun _ =>
        .ite (assign (fun _ => rfl) (fun _ => rfl) fun _ => pure none)
          (assign (fun _ => rfl) (fun _ => rfl) fun _ => raise _)
  have install : Secures (onInstallCompletion id .persisted : StepM C Bool) := by
    refine core.seq fun c => ?_
    cases c.incomingSnapshotState with
    | none => exact pure false
    | some state =>
      refine assign (fun _ => rfl) (fun _ => rfl) fun _ => ?_
      cases state with
      | persisting expected record from_ term =>
        exact .ite (nextEffectId.seq fun _ => assign (fun _ => rfl) (fun _ => rfl) fun _ =>
            (emit _).seq fun _ => pure true)
          (assign (fun _ => rfl) (fun _ => rfl) fun _ => pure false)
      | installing expected record from_ term =>
        exact .ite (assign (fun _ => rfl) (fun _ => rfl) fun _ => raise _)
          (assign (fun _ => rfl) (fun _ => rfl) fun _ => pure false)
  refine store.seq fun consumed => ?_
  cases consumed with
  | none => exact install
  | some consumed => exact pure consumed

theorem onSnapshotCompletion (id : EffectId) :
    Secures (Ruft.onSnapshotCompletion id .persisted : StepM C Bool) := by
  refine core.seq fun c => assign (fun _ => rfl) (fun _ => rfl) fun _ => ?_
  have put : Secures (StepM.update (fun d => { d with localSnapshot := c.localSnapshot }) >>=
      fun _ => Pure.pure false : StepM C Bool) :=
    assign (fun _ => rfl) (fun _ => rfl) fun _ => pure false
  have fail : ∀ e, Secures (StepM.update (fun d => { d with localSnapshot := c.localSnapshot }) >>=
      fun _ => StepM.raise e : StepM C Bool) := fun e =>
    assign (fun _ => rfl) (fun _ => rfl) fun _ => raise e
  cases h : c.localSnapshot with
  | idle => exact pure false
  | building expected through =>
    rw [h] at put fail
    exact .ite (fail _) put
  | persisting expected record =>
    rw [h] at put
    exact .ite (nextEffectId.seq fun _ => assign (fun _ => rfl) (fun _ => rfl) fun _ =>
      (emit _).seq fun _ => pure true) put
  | compacting expected record =>
    rw [h] at put fail
    exact .ite (fail _) put

theorem onApplyCompletion (id : EffectId) (pending : PendingApply) :
    Secures (Ruft.onApplyCompletion id .persisted pending : StepM C Unit) :=
  assign (fun _ => rfl) (fun _ => rfl) fun _ =>
    .ite (assign (fun _ => rfl) (fun _ => rfl) fun _ => raise _)
      (assign (fun _ => rfl) (fun _ => rfl) fun _ => raise _)

end Secures

/-- As `Secures`, of one run of a program that may empty the slot before it commits. -/
def CommitSafe (commit : Nat) {α : Type} (run : Outcome StepError α × Ctx C) : Prop :=
  run.1 = Outcome.raise (.arithmetic .overflow) ∨ run.2.core.pendingPersist.isSome = true ∨
    run.2.core.hardState.commitIndex = commit

section CommitSafe

variable {α β : Type} {s : Ctx C} {commit : Nat} {c : RaftCore C} {id : EffectId}

theorem Secures.commitSafe {m : StepM C α} (h : Secures m)
    (at_ : s.core.hardState.commitIndex = commit) : CommitSafe commit (m s) :=
  (h s).imp_right (.imp_right fun kept => kept.2.trans at_)

theorem CommitSafe.bind {m : StepM C α} {f : α → StepM C β} (hm : CommitSafe commit (m s))
    (hf : ∀ a t, m s = (.ok a, t) → CommitSafe commit (f a t)) : CommitSafe commit ((m >>= f) s) := by
  cases ran : m s with
  | mk r t =>
    cases r with
    | ok a =>
      rw [bind_run_ok ran]
      exact hf a t ran
    | error e =>
      rw [ran] at hm
      rw [bind_run_error ran]
      rcases hm with overflow | rest
      · exact .inl (by cases overflow; rfl)
      · exact .inr rest

theorem CommitSafe.seq {m : StepM C α} {f : α → StepM C β} (hm : CommitSafe commit (m s))
    (hf : ∀ a, Secures (f a)) : CommitSafe commit ((m >>= f) s) := by
  refine hm.bind fun a t ran => ?_
  rw [ran] at hm
  rcases hf a t with overflow | taken | ⟨slot, same⟩
  · exact .inl overflow
  · exact .inr (.inl taken)
  · rcases hm.resolve_left nofun with taken | at_
    · exact .inr (.inl (slot ▸ taken))
    · exact .inr (.inr (same.trans at_))

theorem onPersistCompletion_commitSafe :
    CommitSafe c.hardState.commitIndex (onPersistCompletion id .persisted ⟨c, []⟩) := by
  unfold onPersistCompletion
  rw [bind_run_ok (core_run _)]
  cases found : c.pendingPersist with
  | none => exact .inr (.inr rfl)
  | some pending =>
    dsimp only
    rw [bind_run_ok (update_run _ _)]
    split
    · exact .inr (.inr rfl)
    have continued : ∀ t : Ctx C, t.core.hardState.commitIndex = c.hardState.commitIndex →
        CommitSafe c.hardState.commitIndex (continueWith pending.continuation t) := fun t at_ =>
      (Secures.continueWith _).commitSafe at_
    cases pending.stableThrough with
    | none => exact continued _ rfl
    | some index =>
      refine CommitSafe.bind ((Secures.lift _ _).commitSafe rfl) fun log t ran => ?_
      obtain ⟨-, rfl⟩ := lift_eq_ok ran
      exact continued _ rfl

theorem Handled.of_passed [Sha256] {cause : Cause C} {outcome : EffectOutcome}
    {m : StepM C Bool} {t : Ctx C}
    (h : Handled cause c id outcome (m ⟨c, []⟩)) (ran : m ⟨c, []⟩ = (.ok false, t)) :
    t = ⟨c, []⟩ := by
  rw [ran] at h
  cases h
  rfl

theorem onEffectCompleted_commitSafe [Sha256] (wf : c.WF) :
    CommitSafe c.hardState.commitIndex (onEffectCompleted id .persisted ⟨c, []⟩) := by
  have past : ∀ {m : StepM C Bool} {rest : StepM C Unit}, Secures m →
      Handled ⟨c, .snapshotRequested⟩ c id .persisted (m ⟨c, []⟩) →
      CommitSafe c.hardState.commitIndex (rest ⟨c, []⟩) →
      CommitSafe c.hardState.commitIndex
        ((m >>= fun done => if done = true then pure () else rest) ⟨c, []⟩) := by
    intro m rest secures handled h
    refine (secures.commitSafe rfl).bind fun done t ran => ?_
    cases done with
    | true =>
      have at_ := secures.commitSafe (s := ⟨c, []⟩) rfl
      rw [ran] at at_
      exact .inr (at_.resolve_left nofun)
    | false =>
      rw [handled.of_passed ran]
      exact h
  show CommitSafe _ ((if id.generation ≠ c.config.generation then _ else _ : StepM C Unit) _)
  split
  · exact .inr (.inr rfl)
  refine past (Secures.onOutgoingSnapshotCompletion id) (onOutgoingSnapshotCompletion_handled wf) ?_
  refine past (Secures.onIncomingSnapshotCompletion id) (onIncomingSnapshotCompletion_handled wf) ?_
  refine past (Secures.onSnapshotCompletion id) (onSnapshotCompletion_handled wf) ?_
  rw [bind_run_ok (core_run _)]
  cases c.pendingApply with
  | some pending => exact (Secures.onApplyCompletion id pending).commitSafe rfl
  | none => exact onPersistCompletion_commitSafe

theorem process_commitSafe [Sha256] {event : Event C} (wf : c.WF) (may : Cause.MayCommit ⟨c, event⟩) :
    CommitSafe c.hardState.commitIndex (process event ⟨c, []⟩) := by
  refine CommitSafe.seq ?_ fun _ => Secures.emitApplyIfNeeded
  cases event with
  | messageReceived envelope =>
    obtain ⟨success, matchIndex, conflict, context, p, is, -⟩ := may
    have answered : Secures (onMessage envelope.from_ envelope.message : StepM C Unit) := by
      rw [is]
      exact Secures.onAppendEntriesResponse _ _ _ _ _ _
    refine Secures.commitSafe (.seq .core fun c => (Secures.lift _ _).seq fun _ => ?_) rfl
    split
    · exact Secures.assign (fun _ => rfl) (fun _ => rfl) fun _ => answered
    · exact answered
  | effectCompleted id outcome =>
    obtain rfl : outcome = .persisted := by cases outcome <;> first | rfl | exact may.elim
    show CommitSafe _ ((liftPure (c.validateCompletion id .persisted) >>= _ : StepM C Unit) _)
    refine CommitSafe.bind ((Secures.lift _ _).commitSafe rfl) fun _ t ran => ?_
    obtain ⟨-, rfl⟩ := lift_eq_ok ran
    exact (onEffectCompleted_commitSafe wf).seq fun _ =>
      Secures.update (fun c => rfl) fun c => rfl
  | _ => exact may.elim

/-- A commit of a step that does not overflow is being written when the step ends. -/
theorem step_commitSafe [Sha256] {event : Event C} (wf : c.WF) (running : c.stopped = false)
    (may : Cause.MayCommit ⟨c, event⟩)
    (counts : (step c event).1 ≠ Outcome.raise (.arithmetic .overflow)) :
    (step c event).2.pendingPersist.isSome = true ∨
      (step c event).2.hardState.commitIndex = c.hardState.commitIndex := by
  have h := process_commitSafe wf may
  rw [step_eq running] at counts ⊢
  generalize process event ⟨c, []⟩ = run at h counts
  obtain ⟨r, s⟩ := run
  obtain ⟨proposals, core⟩ := s.finished_core c
  cases r with
  | ok u =>
    have rest := h.resolve_left (by simp)
    simp only [conclude, core]
    split <;> exact rest
  | error f =>
    cases f with
    | panic => exact h.resolve_left (by simp)
    | raise e =>
      have rest := h.resolve_left fun overflow => counts (by cases overflow; rfl)
      rcases s.core.fatalize_cases e with ⟨-, reason, hr⟩ | ⟨-, hr⟩
      · simp only [conclude, hr]
        exact rest
      · simp only [conclude, hr]
        exact rest

end CommitSafe

/-! ## Runs -/

/-- When the step failed and the core still runs, it changed nothing that a host stores. -/
def Record.Clean (r : Record C) : Prop :=
  (∃ output, r.result = .ok output) ∨ r.after.stopped = true ∨
    r.after.hardState = r.before.hardState ∧ r.after.log.entries = r.before.log.entries

/-- The effects hold at most one write, and it takes the disk from one memory to the other. -/
structure Lands (c : RaftCore C) (effects : List (Effect C)) (d : RaftCore C) : Prop where
  atomic : (effects.filter (·.writes)).length ≤ 1
  lands : ∀ disk : Disk C, disk.Mirrors c → (disk.replay effects).Mirrors d

theorem Disk.Mirrors.congr {disk : Disk C} {c d : RaftCore C} (h : disk.Mirrors c)
    (hardState : d.hardState = c.hardState) (entries : d.log.entries = c.log.entries) :
    disk.Mirrors d :=
  ⟨h.hardState.trans hardState.symm, h.snapshot, h.entries.trans entries.symm⟩

theorem Lands.quiet {c d : RaftCore C} {effects : List (Effect C)}
    (none_ : effects.filter (·.writes) = []) (hardState : d.hardState = c.hardState)
    (entries : d.log.entries = c.log.entries) : Lands c effects d := by
  refine ⟨by simp [none_], fun disk holds => ?_⟩
  rw [← Disk.replay_filter, none_]
  exact holds.congr hardState entries

/-- A disk that got a part of the effects holds one of the two memories. -/
theorem Lands.part {c d : RaftCore C} {effects part : List (Effect C)} {disk : Disk C}
    (h : Lands c effects d) (holds : disk.Mirrors c) (cut : part <+: effects) :
    (disk.replay part).Mirrors c ∨ (disk.replay part).Mirrors d := by
  have writes := cut.filter (·.writes)
  rw [← Disk.replay_filter]
  cases first : part.filter (·.writes) with
  | nil => exact .inl holds
  | cons e rest =>
    have whole : part.filter (·.writes) = effects.filter (·.writes) := by
      refine writes.eq_of_length_le (h.atomic.trans ?_)
      rw [first]
      exact Nat.le_add_left 1 _
    rw [← first, whole, Disk.replay_filter]
    exact .inr (h.lands disk holds)

theorem Journaled.lands {c : RaftCore C} {event : Event C} {s : Ctx C}
    (h : Journaled ⟨c, event⟩ s) (secured : Cause.MayCommit ⟨c, event⟩ →
      s.core.pendingPersist.isSome = true ∨
        s.core.hardState.commitIndex = c.hardState.commitIndex) :
    Lands c s.effects s.core := by
  cases h with
  | quiet none_ hardState entries => exact .quiet none_ hardState entries
  | wrote id batch one slot mirrors =>
    refine ⟨by simp [one], fun disk holds => ?_⟩
    rw [← Disk.replay_filter, one]
    exact mirrors disk holds
  | raised none_ may above free hardState entries =>
    rcases secured may with taken | same
    · simp [free] at taken
    · exact absurd above (same ▸ Nat.lt_irrefl _)

section Run

variable [Sha256]

omit [Sha256] in
theorem RaftCore.Bare.installsAhead {c : RaftCore C} (bare : c.Bare) (history : List (Record C))
    {event : Event C} : InstallsAhead history c event := by
  unfold InstallsAhead
  split
  · intro record from_ term found
    simp [bare.incoming] at found
  · trivial

/-- What a step of a running core without snapshots writes. -/
theorem step_lands {c c' : RaftCore C} {event : Event C}
    {result : Outcome StepError (StepOutput C)} (wf : c.WF) (bare : c.Bare)
    (running : c.stopped = false) (meets : Room c ∧ event.bringsSnapshot = false)
    (run : step c event = (result, c')) (returns : result ≠ Outcome.panic)
    (clean : (Record.mk c event result c').Clean)
    (bounded : ∀ s, Path c event s → s.core.Bounded) :
    Lands c (Record.mk c event result c').effects c' ∧ c'.WF ∧ c'.Bounded ∨
      (Record.mk c event result c').effects = [] ∧ c'.stopped = true := by
  have cases_ := step_cases wf running event
  rw [run] at cases_
  cases cases_ with
  | panicked => exact absurd rfl returns
  | halted | crashed | invalid => exact .inr ⟨rfl, rfl⟩
  | returned s changed path wf' =>
    obtain ⟨proposals, core⟩ := s.finished_core c
    have guarded : Cause.MayCommit ⟨c, event⟩ →
        (s.finished c).core.pendingPersist.isSome = true ∨
          (s.finished c).core.hardState.commitIndex = c.hardState.commitIndex := fun may => by
      have kept := step_commitSafe wf running may (by simp [run, Outcome.raise])
      rw [run] at kept
      exact kept
    rw [core] at guarded
    have lands := (path.journaled wf bare meets.2).lands guarded
    refine .inl ⟨⟨?_, fun disk holds => ?_⟩, wf', ?_⟩
    · show ((s.finished c).effects.filter (·.writes)).length ≤ 1
      rw [Ctx.finished_writes]
      exact lands.atomic
    · show (disk.replay (s.finished c).effects).Mirrors (s.finished c).core
      rw [← Disk.replay_filter, Ctx.finished_writes, Disk.replay_filter, core]
      exact (lands.lands disk holds).congr rfl rfl
    · show (s.finished c).core.Bounded
      rw [core]
      exact (bounded s path).congr rfl rfl rfl
  | failed s e path wf' quiet =>
    rcases clean with ⟨output, is⟩ | stopped | ⟨hardState, entries⟩
    · simp at is
    · exact .inr ⟨rfl, stopped⟩
    · exact .inl ⟨.quiet rfl hardState entries, wf', bounded s path⟩
  | stuck e s stuck => exact absurd meets.1 stuck.full

/-- A memory that the host can restore. -/
def Restorable (history : List (Record C)) (init : RaftCore C) (disk : Disk C) : Prop :=
  ∃ c, (c = init ∨ ∃ r ∈ history, r.after = c) ∧ c.WF ∧ c.Bounded ∧ disk.Mirrors c

/-- What the disk holds at any time. -/
structure Recoverable (init : RaftCore C) (history : List (Record C)) (c : RaftCore C) : Prop where
  mirrors : c.stopped = false → (Disk.blank.replay (returned history)).Mirrors c
  stores : ∀ written, written <+: returned history →
    Restorable history init (Disk.blank.replay written)

theorem Trace.seen {init c : RaftCore C} {history : List (Record C)} (run : Trace init history c) :
    c = init ∨ ∃ r ∈ history, r.after = c := by
  cases run with
  | start => exact .inl rfl
  | step => exact .inr ⟨_, List.mem_cons_self .., rfl⟩

/-- A running core without snapshots. -/
theorem Trace.within {config : Config} {history : List (Record C)} {c : RaftCore C}
    (run : Trace (RaftCore.new config .initial) history c) (plain : Holds Snapshotless history)
    (running : c.stopped = false) : c.WF ∧ c.Bare ∧ Grown history c ∧ c.Bounded := by
  obtain ⟨wf, quoted, grown, bounded⟩ := (Trace.invariant
    (quoting_keeps.and bounded_keeps fun _ h => h.bare.installsAhead _) (fun _ _ _ h => h.1)
    (RaftCore.new_wf config _)
    ⟨RaftCore.new_quoted config, ⟨⟨by simp, Nat.zero_lt_succ _⟩, RaftCore.new_bounded config _⟩⟩
    run plain).2.resolve_left (by simp [running])
  exact ⟨wf, quoted.bare, grown, bounded⟩

theorem Trace.recoverable {config : Config} {history : List (Record C)} {c : RaftCore C}
    (run : Trace (RaftCore.new config .initial) history c) (plain : Holds Snapshotless history)
    (clean : ∀ r ∈ history, r.Clean) : Recoverable (RaftCore.new config .initial) history c := by
  induction run with
  | start =>
    have holds : (Disk.blank : Disk C).Mirrors (RaftCore.new config .initial) := ⟨rfl, rfl, rfl⟩
    refine ⟨fun _ => holds, fun written cut => ?_⟩
    obtain rfl : written = [] := List.prefix_nil.mp cut
    exact ⟨_, .inl rfl, RaftCore.new_wf config _, RaftCore.new_bounded config _, holds⟩
  | @step history c c' event result earlier allowed run returns ih =>
    obtain ⟨meets, plain⟩ := plain
    obtain ⟨clean, old⟩ := List.forall_mem_cons.mp clean
    obtain ⟨mirrors, stores⟩ := ih plain old
    have grows : ∀ disk, Restorable history (RaftCore.new config .initial) disk →
        Restorable (⟨c, event, result, c'⟩ :: history) (RaftCore.new config .initial) disk :=
      fun disk ⟨d, seen, rest⟩ =>
        ⟨d, seen.imp_right fun ⟨r, hr, is⟩ => ⟨r, List.mem_cons_of_mem _ hr, is⟩, rest⟩
    have silent : (Record.mk c event result c').effects = [] → c'.stopped = true →
        Recoverable (RaftCore.new config .initial) (⟨c, event, result, c'⟩ :: history) c' := by
      intro none_ stopped
      refine ⟨fun running => by simp [stopped] at running, fun written cut => grows _ ?_⟩
      rw [returned_cons, none_, List.append_nil] at cut
      exact stores written cut
    by_cases stopped : c.stopped = true
    · obtain ⟨rfl, none_⟩ := step_stopped stopped run
      exact silent none_ stopped
    have running : c.stopped = false := by simpa using stopped
    obtain ⟨wf, bare, grown, bounded⟩ := earlier.within plain running
    have holds := mirrors running
    have within : ∀ s, Path c event s → s.core.Bounded := fun s path =>
      (bounded_keeps.path ⟨wf, running, allowed, bare.installsAhead _⟩ ⟨grown, bounded⟩ path).bounded
    rcases step_lands wf bare running meets run returns clean within with
      ⟨lands, wf', bounded'⟩ | ⟨none_, stopped⟩
    · refine ⟨fun _ => ?_, fun written cut => ?_⟩
      · rw [returned_cons, Disk.replay_append]
        exact lands.lands _ holds
      · rw [returned_cons] at cut
        -- the cut lies in the batches of earlier steps or in those of this one
        rcases Nat.le_total written.length (returned history).length with short | long
        · have before := List.prefix_of_prefix_length_le cut (List.prefix_append ..) short
          exact grows _ (stores written before)
        obtain ⟨part, rfl⟩ := List.prefix_of_prefix_length_le (List.prefix_append ..) cut long
        rw [List.prefix_append_right_inj] at cut
        rw [Disk.replay_append]
        rcases lands.part holds cut with old | new
        · exact grows _ ⟨c, earlier.seen, wf, bounded, old⟩
        · exact ⟨c', .inr ⟨_, List.mem_cons_self .., rfl⟩, wf', bounded', new⟩
    · exact silent none_ stopped

end Run

/-! ## What recovery accepts -/

/-- Durable parts that fit together. -/
structure Acceptable (format : Nat) (hardState : HardState) (snapshot : Option SnapshotRecord)
    (entries : List (Entry C)) : Prop where
  version : format = RecoveredState.formatVersion
  above : snapshot.elim 0 (·.metadata.index) ≤ hardState.commitIndex
  vote : ∀ record node, snapshot = some record → hardState.votedFor = some node →
    node ∈ record.metadata.members
  contiguous : Contiguous (snapshot.elim 0 (·.metadata.index) + 1) entries
  terms : TermsFrom (snapshot.elim 0 (·.metadata.term)) entries
  bound : snapshot.elim 0 (·.metadata.index) + entries.length < u64Max
  term : lastTermFrom (snapshot.elim 0 (·.metadata.term)) entries ≤ hardState.currentTerm
  held : hardState.commitIndex ≤ snapshot.elim 0 (·.metadata.index) + entries.length

namespace RecoveredState

variable {format : Nat} {hardState : HardState} {snapshot : Option SnapshotRecord}
  {entries : List (Entry C)}

theorem checkSuffix_ok {n t : Nat} {es : List (Entry C)} (run : Contiguous n es)
    (terms : TermsFrom t es) (bound : n + es.length ≤ u64Max) :
    checkSuffix n t es = .ok (lastTermFrom t es) := by
  induction es generalizing n t with
  | nil => rfl
  | cons e es ih =>
    obtain ⟨index, run⟩ := run
    obtain ⟨above, terms⟩ := terms
    rw [List.length_cons] at bound
    have next : checkedNext n = .ok (n + 1) := checkedNext_eq_ok.mpr ⟨by omega, rfl⟩
    rw [checkSuffix, if_neg (by simpa using index), if_neg (by omega), next, lastTermFrom_cons]
    exact ih run terms (by omega)

theorem lastIndex_eq {index : Nat} (run : Contiguous (index + 1) entries) :
    entries.getLast?.elim index (·.index) = index + entries.length := by
  rcases List.eq_nil_or_concat entries with rfl | ⟨front, last, rfl⟩
  · rfl
  · rw [List.concat_eq_append] at run ⊢
    obtain ⟨index, -⟩ := (Contiguous.append.mp run).2
    simp only [List.getLast?_concat, Option.elim_some, List.length_append, List.length_singleton]
    omega

theorem check_of_acceptable (h : Acceptable format hardState snapshot entries) :
    check format hardState snapshot entries = .ok () := by
  have next : checkedNext (snapshot.elim 0 (·.metadata.index)) =
      .ok (snapshot.elim 0 (·.metadata.index) + 1) :=
    checkedNext_eq_ok.mpr ⟨by have := h.bound; omega, rfl⟩
  have suffix_ := checkSuffix_ok h.contiguous h.terms (by have := h.bound; omega)
  simp only [check]
  rw [if_neg (by simp [h.version]), if_neg (Nat.not_lt.mpr h.above)]
  split
  · next node strange =>
    split at strange
    · next record node' voted =>
      rw [if_pos (h.vote _ _ rfl voted)] at strange
      simp at strange
    · simp at strange
  · rw [next]
    simp only [bind, Except.bind, suffix_]
    rw [if_neg (Nat.not_lt.mpr h.term), lastIndex_eq h.contiguous, if_neg (Nat.not_lt.mpr h.held)]

theorem acceptable_of_check (h : check format hardState snapshot entries = .ok ()) :
    Acceptable format hardState snapshot entries := by
  let r : RecoveredState C := ⟨hardState, snapshot, entries, format, h⟩
  obtain ⟨wf, term, above, held⟩ := r.facts
  refine ⟨?_, above, ?_, wf.contiguous, wf.terms, wf.bound, term, ?_⟩
  · by_contra other
    simp [check, other] at h
  · rintro record node rfl voted
    by_contra strange
    simp only [check, voted, if_neg strange] at h
    split at h
    · simp at h
    · split at h <;> simp at h
  · exact held.trans wf.lastIndex.le

theorem fromParts_of_acceptable (h : Acceptable format hardState snapshot entries) :
    ∃ recovered, fromParts format hardState snapshot entries = .ok recovered ∧
      recovered.hardState = hardState ∧ recovered.snapshot = snapshot ∧
      recovered.entries = entries ∧ recovered.format = format := by
  refine ⟨⟨hardState, snapshot, entries, format, check_of_acceptable h⟩, ?_, rfl, rfl, rfl, rfl⟩
  unfold fromParts
  split
  · rfl
  · next e refused =>
    rw [check_of_acceptable h] at refused
    simp at refused

end RecoveredState

/-- Recovery accepts exactly the durable parts that fit together. -/
theorem recovery_accepts (format : Nat) (hardState : HardState) (snapshot : Option SnapshotRecord)
    (entries : List (Entry C)) :
    (∃ recovered, RecoveredState.fromParts format hardState snapshot entries = .ok recovered ∧
      recovered.hardState = hardState ∧ recovered.snapshot = snapshot ∧
      recovered.entries = entries ∧ recovered.format = format) ↔
      Acceptable format hardState snapshot entries := by
  constructor
  · rintro ⟨recovered, accepted, -⟩
    unfold RecoveredState.fromParts at accepted
    split at accepted
    · next checked => exact RecoveredState.acceptable_of_check checked
    · simp at accepted
  · exact RecoveredState.fromParts_of_acceptable

/-! ## Restarts -/

/-- The restarted core continues where the other one was. -/
structure Resumes (c d : RaftCore C) : Prop where
  hardState : d.hardState = c.hardState
  entries : d.log.entries = c.log.entries
  snapshot : d.log.snapshot = c.log.snapshot
  committed : d.log.committed = c.log.committed
  lastLogIndex : d.lastLogIndex = c.lastLogIndex
  lastLogTerm : d.lastLogTerm = c.lastLogTerm

/-- Recovery accepts the disk, and the restarted core continues where the other one was. -/
def Disk.Restores (disk : Disk C) (c : RaftCore C) : Prop :=
  ∃ recovered, RecoveredState.new disk.hardState disk.snapshot disk.entries = .ok recovered ∧
    ∀ config, Resumes c (RaftCore.new config recovered)

theorem Disk.Mirrors.restores {disk : Disk C} {c : RaftCore C} (h : disk.Mirrors c) (wf : c.WF)
    (bounded : c.Bounded) (bare : c.log.snapshot = none)
    (term : ∀ e ∈ c.log.entries, e.term ≤ c.hardState.currentTerm) : disk.Restores c := by
  have mirrored : disk = ⟨c.hardState, c.log.snapshot, c.log.entries⟩ := by
    obtain ⟨hardState, snapshot, entries⟩ := disk
    obtain ⟨rfl, none_, rfl⟩ := h
    rw [bare, show snapshot = none from none_]
  have last : lastTermFrom c.log.snapshotTerm c.log.entries ≤ c.hardState.currentTerm := by
    rcases List.eq_nil_or_concat c.log.entries with none_ | ⟨front, entry, is⟩
    · rw [none_]
      simp [lastTermFrom, RaftLog.snapshotTerm, bare]
    · rw [List.concat_eq_append] at is
      rw [is, lastTermFrom_append]
      exact term entry (by simp [is])
  have held : c.hardState.commitIndex ≤ c.log.snapshotIndex + c.log.entries.length :=
    bounded.held.trans wf.log.lastIndex.le
  have fits : Acceptable RecoveredState.formatVersion c.hardState c.log.snapshot c.log.entries :=
    { version := rfl
      above := by simp [bare]
      vote := by simp [bare]
      contiguous := wf.log.contiguous
      terms := wf.log.terms
      bound := wf.log.bound
      term := last
      held := held }
  obtain ⟨recovered, accepted, hardState, snapshot, entries, -⟩ :=
    RecoveredState.fromParts_of_acceptable fits
  rw [mirrored]
  refine ⟨recovered, accepted, fun config => ⟨hardState, entries, snapshot, ?_, ?_, ?_⟩⟩
  · show recovered.hardState.commitIndex = _
    rw [hardState, wf.committed]
  · show recovered.entries.getLast?.elim (recovered.snapshot.elim 0 (·.metadata.index)) (·.index) = _
    rw [entries, snapshot, wf.lastLogIndex]
    rfl
  · show recovered.entries.getLast?.elim (recovered.snapshot.elim 0 (·.metadata.term)) (·.term) = _
    rw [entries, snapshot, wf.lastLogTerm]
    rfl

section Cluster

variable [Sha256] {config : NodeId → Config} {members : List NodeId}
  {history : List (NodeId × Record C)} {cores : NodeId → RaftCore C}

theorem Cluster.restores (h : Cluster config members history cores) {c : RaftCore C} {disk : Disk C}
    (seen : Visited (fun node => RaftCore.new (config node) .initial) history c)
    (mirrors : disk.Mirrors c) (wf : c.WF) (bounded : c.Bounded) : disk.Restores c := by
  refine mirrors.restores wf bounded (h.visited seen).2.2 fun e he => ?_
  rcases seen with ⟨node, rfl⟩ | ⟨p, hp, rfl⟩
  · simp [RaftCore.new, RaftLog.fromRecovered, RecoveredState.initial] at he
  · exact h.term_le p hp e he

/-- Whatever part of the returned writes a host has executed when it crashes, recovery accepts its
disk, and the restarted core continues where the crashed one once was. It continues where the
crashed one is when all of them were executed. -/
theorem crash_recovers (config : NodeId → Config) (members : List NodeId)
    (common : ∀ node, (config node).members = members) {history : List (NodeId × Record C)}
    {cores : NodeId → RaftCore C}
    (run : Run (fun node => RaftCore.new (config node) .initial) history cores)
    (unbuilt : NeverBuilt history) (room : ∀ p ∈ history, Room p.2.before)
    (clean : ∀ p ∈ history, p.2.Clean) (node : NodeId) :
    (∀ written, written <+: returned (localHistory history node) →
      ∃ c, (c = RaftCore.new (config node) .initial ∨
          ∃ r ∈ localHistory history node, r.after = c) ∧
        (Disk.blank.replay written).Restores c) ∧
    ((cores node).stopped = false →
      (Disk.blank.replay (returned (localHistory history node))).Restores (cores node)) := by
  have h : Cluster config members history cores := ⟨run, common, unbuilt, room⟩
  have plain := run.snapshotless unbuilt room node
  have trace := run.trace node
  obtain ⟨mirrors, stores⟩ := trace.recoverable plain
    fun r hr => clean _ (mem_localHistory.mp hr)
  constructor
  · intro written cut
    obtain ⟨c, seen, wf, bounded, holds⟩ := stores written cut
    refine ⟨c, seen, h.restores ?_ holds wf bounded⟩
    rcases seen with rfl | ⟨r, hr, rfl⟩
    · exact .inl ⟨node, rfl⟩
    · exact .inr ⟨_, mem_localHistory.mp hr, rfl⟩
  · intro running
    obtain ⟨wf, -, -, bounded⟩ := trace.within plain running
    exact h.restores (run.visited node) (mirrors running) wf bounded

end Cluster

/-- `Record.Clean` as a check. -/
def Record.cleanCheck (r : Record Nat) : Bool :=
  match r.result with
  | .ok _ => true
  | .error _ => r.after.stopped ||
      r.after.hardState = r.before.hardState && r.after.log.entries = r.before.log.entries

theorem Record.clean_of_check {r : Record Nat} (h : r.cleanCheck = true) : r.Clean := by
  unfold Record.cleanCheck at h
  split at h
  · next output is => exact .inl ⟨output, is⟩
  · simp only [Bool.or_eq_true, Bool.and_eq_true, decide_eq_true_eq] at h
    exact .inr h

/-- Node 1 is told to write five times, and crashes after any number of them. -/
theorem crash_recovers_leader : ∃ w : World Nat,
    @Run Nat sha256Empty trio w.history (w.core trio) ∧
    ((returned (localHistory w.history 1)).filter (·.writes)).length = 5 ∧
    (∀ written, written <+: returned (localHistory w.history 1) →
      ∃ c, (c = RaftCore.new (trioConfigs 1) .initial ∨
          ∃ r ∈ localHistory w.history 1, r.after = c) ∧
        (Disk.blank.replay written).Restores c) ∧
    ((w.core trio 1).stopped = false →
      (Disk.blank.replay (returned (localHistory w.history 1))).Restores (w.core trio 1)) := by
  let _ : Sha256 := sha256Empty
  obtain ⟨w, run, checked⟩ := World.exec_any trio Script.commitTwo
    (fun w => (((returned (localHistory w.history 1)).filter (·.writes)).length = 5) &&
      ((w.history.all fun p => !p.2.built) && (w.history.all fun p => Room p.2.before) &&
        w.history.all fun p => p.2.cleanCheck))
    (by decide +kernel)
  simp only [Bool.and_eq_true, decide_eq_true_eq] at checked
  obtain ⟨writes, ⟨plain, room⟩, clean⟩ := checked
  exact ⟨w, run, writes, crash_recovers trioConfigs [1, 2, 3] trioConfigs_members run
    (neverBuilt_of_check plain) (fun p hp => of_decide_eq_true (List.all_eq_true.mp room p hp))
    (fun p hp => Record.clean_of_check (List.all_eq_true.mp clean p hp)) 1⟩

end Ruft
