import Ruft.Durability

set_option autoImplicit false

/-!
# Entries are sent after they are durable

A leader appends a proposal to its log before the proposal is persisted, and every append it
sends is cut from that log. A tick waits for the pending persist, and so does the proposal
itself; a response from a follower does not.

## Main results

- `replicates_durable` — only durable entries are sent when nothing is outstanding
- `proposal_sent_early` — a response makes a leader send a proposal that is not durable
-/

namespace Ruft

variable {C : Type} {init c : RaftCore C} {history : List (Record C)} {event : Event C}

/-- The law: every entry of an append was recovered or reported persisted by the end of the
step that sends it. -/
def ReplicatesDurable (init : RaftCore C) (history : List (Record C)) : Prop :=
  Meets (fun earlier r => ∀ to_ term prev prevTerm commit context entries,
    .sendMessage to_ (.appendEntries term prev prevTerm commit context entries) ∈ r.effects →
    ∀ entry ∈ entries, EntryDurable init earlier r.event entry) history

/-- When the event makes the core send appends, every batch of entries that it handed out has
been reported, the last one perhaps with this event. -/
def ReplicatesWhenStable : Condition C := fun history c event => Room c ∧
  (Cause.MayReplicate ⟨c, event⟩ → ∀ id, Unreported history id →
    event = .effectCompleted id .persisted)

/-! ## What is sent -/

/-- The message is an append of these entries. -/
def Message.Carries (m : Message C) (entries : List (Entry C)) : Prop :=
  ∃ term prev prevTerm commit context,
    m = .appendEntries term prev prevTerm commit context entries

theorem Refusal.carries {m : Message C} {entries : List (Entry C)} (h : Refusal c m) :
    ¬ m.Carries entries := by
  rintro ⟨term, prev, prevTerm, commit, context, rfl⟩
  cases h

/-- Heartbeats carry nothing. -/
theorem Ctx.roundStarted_carries {s : Ctx C} (readId : ReadId) {to_ : NodeId} {m : Message C}
    {entries : List (Entry C)} (h : .sendMessage to_ m ∈ (s.roundStarted readId).effects)
    (carries : m.Carries entries) : .sendMessage to_ m ∈ s.effects ∨ entries = [] := by
  rcases s.roundStarted_effects readId with same | ⟨context, same⟩
  · exact .inl (same ▸ h)
  · rw [same] at h
    refine (List.mem_append.mp h).imp_right fun new => ?_
    obtain ⟨n, -, heq⟩ := List.mem_map.mp new
    simp only [Effect.sendMessage.injEq] at heq
    obtain ⟨-, rfl⟩ := heq
    obtain ⟨term, prev, prevTerm, commit, context, is⟩ := carries
    simp only [Message.appendEntries.injEq] at is
    exact is.2.2.2.2.2.symm

theorem MessageAct.carries {from_ to_ : NodeId} {m sent : Message C} {s : Ctx C}
    {entries : List (Entry C)} (act : MessageAct c from_ m s)
    (h : .sendMessage to_ sent ∈ s.effects) : ¬ sent.Carries entries := by
  cases act with
  | refused m reply refusal =>
    simp only [List.mem_singleton, Effect.sendMessage.injEq] at h
    exact h.2 ▸ refusal.carries
  | appendRefused term prev prevTerm leaderCommit context entries same reply refusal =>
    simp only [List.mem_singleton, Effect.sendMessage.injEq] at h
    exact h.2 ▸ refusal.carries
  | voteAgain | appendHeld =>
    simp only [List.mem_singleton, Effect.sendMessage.injEq] at h
    obtain ⟨-, rfl⟩ := h
    simp [Message.Carries]
  | _ => simp [Ctx.queued] at h

theorem CompletionAct.carries [Sha256] {id : EffectId} {outcome : EffectOutcome} {to_ : NodeId}
    {sent : Message C} {s : Ctx C} {entries : List (Entry C)} (act : CompletionAct c id outcome s)
    (h : .sendMessage to_ sent ∈ s.effects) : ¬ sent.Carries entries := by
  cases act with
  | chunkRead | installed | voteAnswered | appendAnswered =>
    simp only [List.mem_singleton, Effect.sendMessage.injEq] at h
    obtain ⟨-, rfl⟩ := h
    simp [Message.Carries]
  | votesRequested =>
    obtain ⟨n, -, heq⟩ := List.mem_map.mp h
    simp only [Effect.sendMessage.injEq] at heq
    obtain ⟨-, rfl⟩ := heq
    simp [Message.Carries]
  | applyDone => simp [Ctx.answered] at h
  | _ => simp [Ctx.queued] at h

/-- Entries are sent by follow-ups only. -/
theorem Act.carries [Sha256] {s : Ctx C} (act : Act c event s) {to_ : NodeId} {m : Message C}
    {entries : List (Entry C)} (h : .sendMessage to_ m ∈ s.effects)
    (carries : m.Carries entries) : entries = [] := by
  cases act with
  | message envelope members s known mine act => exact absurd carries (act.carries h)
  | completed id outcome s act => exact absurd carries (act.carries h)
  | preVoteStarted =>
    obtain ⟨n, -, heq⟩ := List.mem_map.mp h
    simp only [Effect.sendMessage.injEq] at heq
    obtain ⟨-, rfl⟩ := heq
    simp [Message.Carries] at carries
  | readStarted readId => exact (Ctx.roundStarted_carries readId h carries).resolve_left (by simp)
  | _ => simp [Ctx.queued] at h

/-- A follow-up sends entries of the log, on an event that replicates. -/
theorem FollowUp.carries {cause : Cause C} {s s' : Ctx C} (hf : FollowUp cause s s')
    {to_ : NodeId} {m : Message C} {entries : List (Entry C)}
    (h : .sendMessage to_ m ∈ s'.effects) (carries : m.Carries entries) :
    .sendMessage to_ m ∈ s.effects ∨ entries = [] ∨
      cause.MayReplicate ∧ entries ⊆ s.core.log.entries := by
  cases hf with
  | appendSent node p q prev prevTerm batch found next isTerm isBatch held matched nextPos may =>
    refine (List.mem_append.mp h).imp_right fun new => .inr ⟨may, ?_⟩
    simp only [List.mem_singleton, Effect.sendMessage.injEq] at new
    obtain ⟨-, rfl⟩ := new
    obtain ⟨_, _, _, _, _, is⟩ := carries
    simp only [Message.appendEntries.injEq] at is
    obtain ⟨-, -, -, -, -, rfl⟩ := is
    obtain ⟨tail, split⟩ := isBatch
    exact fun entry he => List.mem_of_mem_drop (split ▸ List.mem_append_left _ he)
  | readStarted readId rest =>
    have sent := @Ctx.roundStarted_carries C ⟨{ s.core with pendingReads := rest }, s.effects⟩
      readId to_ m entries h carries
    exact sent.imp_right .inl
  | applied | chunkRequested | buildRequested | committed =>
    exact .inl ((List.mem_append.mp h).resolve_right (by simp))
  | readReleased => exact .inl ((List.mem_append.mp h).resolve_right (by simp))
  | _ => exact .inl h

/-- What makes a core send appends adds no entry. -/
theorem Act.entries_of_replicate [Sha256] (wf : c.WF) {s : Ctx C} (act : Act c event s)
    (may : Cause.MayReplicate ⟨c, event⟩) {entry : Entry C} (he : entry ∈ s.core.log.entries) :
    entry ∈ c.log.entries := by
  refine (act.entries wf he).resolve_right ?_
  rintro ⟨id, batch, queued, hin⟩
  cases act with
  | message envelope members s known mine act =>
    obtain ⟨cluster, from_, to_, message⟩ := envelope
    dsimp only at act
    cases act with
    | elected | appendAccepted => simp [Cause.MayReplicate, Cause.MayCommit] at may
    | termRaised | voteNewer | voteFirst | campaigned | appendRejected =>
      simp only [Ctx.queued, List.nil_append, List.mem_singleton, Effect.persist.injEq] at queued
      simp [queued.2] at hin
    | _ => simp at queued
  | completed id outcome s act =>
    cases act with
    | electedAlone stableThrough votes entry found =>
      simp [Cause.MayReplicate, Cause.MayCommit, found] at may
    | transferDone | built =>
      simp only [List.mem_singleton, Effect.persist.injEq] at queued
      simp [queued.2] at hin
    | applyDone => simp [Ctx.answered] at queued
    | votesRequested => exact absurd queued (persist_notMem_toPeers _ _ _ _)
    | _ => simp at queued
  | preVoteStarted => exact absurd queued (persist_notMem_toPeers _ _ _ _)
  | campaigned => simp [Cause.MayReplicate, Cause.MayCommit] at may
  | proposed => simp [Cause.MayReplicate, Cause.MayCommit] at may
  | readStarted => simp [Cause.MayReplicate, Cause.MayCommit] at may
  | _ => simp at queued

/-- The appends so far, in earlier steps and in this one. -/
structure Replicating (init : RaftCore C) (history : List (Record C)) (c : RaftCore C)
    (event : Event C) (s : Ctx C) : Prop where
  law : ReplicatesDurable init history
  handedOut : HandsOut init history s
  before : ∀ entry ∈ c.log.entries, HandedOut init (returnedEffects history) entry
  now : ∀ to_ term prev prevTerm commit context entries,
    .sendMessage to_ (.appendEntries term prev prevTerm commit context entries) ∈ s.effects →
    ∀ entry ∈ entries, EntryDurable init history event entry

theorem replicating_keeps [Sha256] (init : RaftCore C) : Keeps ReplicatesWhenStable
    (fun history c => ReplicatesDurable init history ∧
      ∀ entry ∈ c.log.entries, HandedOut init (returnedEffects history) entry)
    (Replicating init) (fun history _ => ReplicatesDurable init history) where
  act hs h act := by
    refine ⟨h.1, .act hs.wf h.2 act, h.2, ?_⟩
    intro to_ term prev prevTerm commit context entries hmem entry he
    simp [act.carries hmem ⟨term, prev, prevTerm, commit, context, rfl⟩] at he
  followUp := by
    intro history c event s₀ s s' hs act rest h hf
    refine ⟨h.law, h.handedOut.followUp hf, h.before, ?_⟩
    intro to_ term prev prevTerm commit context entries hmem entry he
    rcases hf.carries hmem ⟨term, prev, prevTerm, commit, context, rfl⟩ with
      old | rfl | ⟨may, inLog⟩
    · exact h.now to_ term prev prevTerm commit context entries old entry he
    · simp at he
    · have held := inLog he
      rw [(FollowUps.frame rest).entries] at held
      have old := act.entries_of_replicate hs.wf may held
      exact (h.before entry old).durable fun id waits other => other (hs.meets.2 may id waits)
  finished := by
    intro history c event s _ h
    exact ⟨h.law, h.handedOut.finished, h.before, fun to_ term prev prevTerm commit context entries
      hmem => h.now to_ term prev prevTerm commit context entries (Ctx.finished_sends c hmem)⟩
  returned _ _ h := ⟨⟨h.now, h.law⟩, h.handedOut.returned⟩
  failed _ _ h quiet := ⟨⟨by rintro _ _ _ _ _ _ _ ⟨⟩, h.law⟩, h.handedOut.failed quiet⟩
  safe h := h.1
  ended _ _ _ h := ⟨by rintro _ _ _ _ _ _ _ ⟨⟩, h.law⟩
  halted _ _ _ h _ := ⟨by rintro _ _ _ _ _ _ _ ⟨⟩, h.1⟩
  idle := by
    intro history c event result _ silent h
    exact ⟨by simp [silent], h⟩

/-- Every entry that a core sends is durable, along every run in which a core that replicates
waits for nothing. -/
theorem replicates_durable [Sha256] (config : NodeId → Config)
    (recovered : NodeId → RecoveredState C) {history : List (NodeId × Record C)}
    {cores : NodeId → RaftCore C}
    (run : Run (fun node => RaftCore.new (config node) (recovered node)) history cores)
    (node : NodeId) (stable : Holds ReplicatesWhenStable (localHistory history node)) :
    ReplicatesDurable (RaftCore.new (config node) (recovered node)) (localHistory history node) :=
  (Trace.invariant (replicating_keeps _) (fun _ _ _ h => h.1) (RaftCore.new_wf _ _)
    ⟨trivial, fun _ he => .inl he⟩ (run.trace node) stable).1

/-- The event reports the batch. -/
def Event.persisted (event : Event C) (id : EffectId) : Bool :=
  match event with
  | .effectCompleted i .persisted => i = id
  | _ => false

theorem Event.eq_of_persisted {id : EffectId} (h : event.persisted id = true) :
    event = .effectCompleted id .persisted := by
  unfold Event.persisted at h
  split at h
  · rw [of_decide_eq_true h]
  · simp at h

/-- `ReplicatesWhenStable` as a check, for a core that never waits for two batches. -/
def replicatesWhenStableCheck (history : List (Record C)) (c : RaftCore C) (event : Event C) :
    Bool :=
  Room c && (returnedEffects history).all fun
    | .persist id batch => batch.entries.isEmpty || event.persisted id ||
        history.any fun r => r.event.persisted id
    | _ => true

theorem replicatesWhenStable_of_check (history : List (Record C)) (c : RaftCore C)
    (event : Event C) (h : replicatesWhenStableCheck history c event = true) :
    ReplicatesWhenStable history c event := by
  unfold replicatesWhenStableCheck at h
  rw [Bool.and_eq_true] at h
  refine ⟨of_decide_eq_true h.1, ?_⟩
  rintro - id ⟨batch, hmem, hne, unreported⟩
  have seen := List.all_eq_true.mp h.2 _ hmem
  simp only [Bool.or_eq_true, List.isEmpty_iff, hne, false_or] at seen
  refine seen.elim Event.eq_of_persisted fun before => ?_
  obtain ⟨r, hr, hp⟩ := List.any_eq_true.mp before
  exact absurd (Event.eq_of_persisted hp) (unreported r hr)

/-- An append of an entry at the index. -/
def Effect.sends (effect : Effect Nat) (index : Nat) : Bool :=
  match effect with
  | .sendMessage _ (.appendEntries _ _ _ _ _ entries) => entries.any fun e => e.index = index
  | _ => false

/-- A persist of an entry at the index. -/
def Effect.persists (effect : Effect Nat) (index : Nat) : Bool :=
  match effect with
  | .persist _ batch => batch.entries.any fun e => e.index = index
  | _ => false

/-- Node 1 persists a proposal and sends it to node 2. -/
theorem replicates_durable_proposal : ∃ w : World Nat,
    @Run Nat sha256Empty trio w.history (w.core trio) ∧
    (∃ r ∈ localHistory w.history 1, ∃ e ∈ r.effects, e.sends 2 = true) ∧
    ReplicatesDurable (trio 1) (localHistory w.history 1) := by
  let _ : Sha256 := sha256Empty
  obtain ⟨w, run, checked⟩ := World.exec_any trio Script.commitTwo
    (fun w => ((localHistory w.history 1).any fun r => r.effects.any fun e => e.sends 2) &&
      Meets.check (fun earlier r => replicatesWhenStableCheck earlier r.before r.event)
        (localHistory w.history 1))
    (by decide +kernel)
  rw [Bool.and_eq_true] at checked
  obtain ⟨r, hr, sent⟩ := List.any_eq_true.mp checked.1
  obtain ⟨e, he, sent⟩ := List.any_eq_true.mp sent
  refine ⟨w, run, ⟨r, hr, e, he, sent⟩, ?_⟩
  exact replicates_durable trioConfigs (fun _ => .initial) run 1
    (Holds.of_check replicatesWhenStable_of_check checked.2)

/-- Node 2 acknowledges the no-op of node 1 while node 1 persists a proposal. -/
def ackDuringProposal : List (Move Nat) := Script.electFirst ++
  [Script.deliver 6, Script.deliver 8, Script.deliver 9, Script.persisted 2 2,
    Script.propose 1 1 7, Script.deliver 10]

/-- Node 1 answers with the proposal, which it is still persisting. -/
theorem proposal_sent_early : ¬ ∀ (history : List (NodeId × Record Nat))
    (cores : NodeId → RaftCore Nat), @Run Nat sha256Empty trio history cores →
    ∀ node, ReplicatesDurable (trio node) (localHistory history node) := by
  let _ : Sha256 := sha256Empty
  intro h
  obtain ⟨w, run, bad⟩ := World.exec_any trio ackDuringProposal
    (fun w => (localHistory w.history 1).head?.any fun r => (r.effects.any fun e => e.sends 2) &&
      (returnedEffects (localHistory w.history 1).tail).all fun e => !e.persists 2 ||
        e.id?.all fun id => (localHistory w.history 1).all fun r => !r.event.persisted id)
    (by decide +kernel)
  have durable := h _ _ run 1
  cases hl : localHistory w.history 1 with
  | nil => simp [hl] at bad
  | cons r earlier =>
    simp only [hl, List.head?_cons, Option.any_some, Bool.and_eq_true, List.tail_cons] at bad
    obtain ⟨sent, unreported⟩ := bad
    rw [hl] at durable
    obtain ⟨e, he, sent⟩ := List.any_eq_true.mp sent
    unfold Effect.sends at sent
    split at sent
    · next to_ term prev prevTerm commit context entries =>
      obtain ⟨entry, hentry, index⟩ := List.any_eq_true.mp sent
      have index : entry.index = 2 := of_decide_eq_true index
      rcases durable.1 _ _ _ _ _ _ _ he entry hentry with recovered | ⟨batch, ⟨id, hb, rep⟩, hin⟩
      · have recovered : entry ∈ ([] : List (Entry Nat)) := recovered
        simp at recovered
      · have silent := List.all_eq_true.mp unreported _ hb
        rw [Bool.or_eq_true] at silent
        rcases silent with other | never
        · have persists : (Effect.persist id batch).persists 2 = true :=
            List.any_eq_true.mpr ⟨entry, hin, decide_eq_true index⟩
          simp [persists] at other
        · have never : ∀ r' ∈ r :: earlier, r'.event ≠ .effectCompleted id .persisted := by
            intro r' hr' is
            have := List.all_eq_true.mp never r' hr'
            simp [is, Event.persisted] at this
          rcases rep with now | ⟨r', hr', before⟩
          · exact never r List.mem_cons_self now
          · exact never r' (List.mem_cons_of_mem _ hr') before
    · simp at sent

end Ruft
