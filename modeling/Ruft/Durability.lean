import Ruft.Slots

set_option autoImplicit false

/-!
# Promises and durability

A granted vote, a request for votes and an acknowledged append are promises that must
survive a crash. A core makes them when the host has reported the batch that holds what
is promised, or at once when it finds in memory that nothing has to be written. The
memory is ahead of the storage, so the second way can promise too early.

## Main definitions

- `Durable` — the host has reported a batch persisted
- `VotesDurable`, `AcksDurable` — the laws
- `VoteRepeats`, `AcksWait` — when they hold
-/

namespace Ruft

variable {C : Type} {init : RaftCore C} {history : List (Record C)} {event : Event C}

/-- The host has reported the batch of the effect, with the event or before it. -/
def Reported (history : List (Record C)) (event : Event C) (id : EffectId) : Prop :=
  event = .effectCompleted id .persisted ∨ ∃ r ∈ history, r.event = .effectCompleted id .persisted

/-- A batch that the host has reported persisted. -/
def Durable (history : List (Record C)) (event : Event C) (batch : PersistBatch C) : Prop :=
  ∃ id, .persist id batch ∈ returnedEffects history ∧ Reported history event id

/-- The reported effect is one that was returned, so what is reported is durable. -/
theorem Allowed.durable {id : EffectId}
    (allowed : Allowed history (.effectCompleted id .persisted)) :
    ∃ batch, .persist id batch ∈ returnedEffects history ∧
      Durable history (.effectCompleted id .persisted) batch := by
  obtain ⟨r, hr, e, he, hrep⟩ := allowed
  cases hrep with
  | persisted id batch =>
    have hmem := mem_returnedEffects.mpr ⟨r, hr, he⟩
    exact ⟨batch, hmem, id, hmem, .inl rfl⟩

/-! ## Votes -/

/-- A hard state with the vote was recovered or is durable. -/
def VoteDurable (init : RaftCore C) (history : List (Record C)) (event : Event C) (term : Nat)
    (node : NodeId) : Prop :=
  (init.hardState.currentTerm = term ∧ init.hardState.votedFor = some node) ∨
    ∃ batch commit, Durable history event batch ∧ batch.hardState = some ⟨term, some node, commit⟩

/-- The vote that a message promises to have been given: a grant the one for its receiver, a
request the one of the sender for itself. -/
def Message.promise (localId to_ : NodeId) : Message C → Option (Nat × NodeId)
  | .voteResponse term true => some (term, to_)
  | .requestVote term _ _ => some (term, localId)
  | _ => none

/-- The law: every vote that is promised is durable. -/
def VotesDurable (init : RaftCore C) (history : List (Record C)) : Prop :=
  Meets (fun earlier r => ∀ to_ m, .sendMessage to_ m ∈ r.effects →
    ∀ vote, m.promise init.config.localId to_ = some vote →
      VoteDurable init earlier r.event vote.1 vote.2) history

/-- A candidate whose vote is recorded asks again only when the vote is durable, and no snapshot
raises the term while the core waits to ask for votes. -/
def VoteRepeats (init : RaftCore C) : Condition C := fun history c event => Room c ∧
  match event with
  | .messageReceived envelope => ∀ term index logTerm,
      envelope.message = .requestVote term index logTerm → c.hardState.currentTerm = term →
      c.hardState.votedFor = some envelope.from_ →
      isLogUpToDate index logTerm c.lastLogIndex c.lastLogTerm = true →
      VoteDurable init history event term envelope.from_
  | .effectCompleted id (.snapshotInstalled _) => ∀ record from_ term,
      c.incomingSnapshotState = some (.installing id record from_ term) →
      c.hardState.currentTerm < term →
      ∀ p, c.pendingPersist = some p → p.continuation ≠ .broadcastVoteRequests
  | _ => True

/-- The batch that a candidate waits for holds its vote in its term. -/
def Asking (effects : List (Effect C)) (c : RaftCore C) : Prop :=
  ∀ p batch, c.pendingPersist = some p → p.continuation = .broadcastVoteRequests →
    .persist p.id batch ∈ effects →
    ∃ commit, batch.hardState = some ⟨c.hardState.currentTerm, some c.config.localId, commit⟩

/-- New effects do not touch the batch that is waited for. -/
theorem Asking.kept {earlier : List (Effect C)} {s s' : Ctx C}
    (h : Asking (earlier ++ s.effects) s.core) (slots : SlotsMatch (earlier ++ s.effects) s.core)
    (hs : Slotted s s')
    (persist : s'.core.pendingPersist = none ∨ s'.core.pendingPersist = s.core.pendingPersist)
    (term : s'.core.hardState.currentTerm = s.core.hardState.currentTerm) :
    Asking (earlier ++ s'.effects) s'.core := by
  intro p batch hp hk hmem
  have hp : s.core.pendingPersist = some p := by
    rcases persist with hn | hs
    · simp [hn] at hp
    · exact hs ▸ hp
  cases hs with
  | quiet new effects silent config =>
    rw [term, config]
    refine h p batch hp hk ?_
    rw [effects, ← List.append_assoc, List.mem_append] at hmem
    refine hmem.resolve_right fun hnew => ?_
    simpa [Effect.id?] using silent _ hnew
  | emitted e effects id config =>
    rw [term, config]
    refine h p batch hp hk ?_
    rw [effects, ← List.append_assoc, List.mem_append, List.mem_singleton] at hmem
    refine hmem.resolve_right fun hnew => ?_
    -- The id that is waited for was given out before.
    have hid : p.id = s.allocated := by
      subst hnew
      simpa [Effect.id?] using id
    have := (slots.bounded p.id _ (.persist p hp)).2
    rw [hid] at this
    exact absurd this (Nat.not_succ_le_self _)

theorem Asking.queued {effects : List (Effect C)} {c : RaftCore C} {p : PendingPersist}
    (pending : c.pendingPersist = some p) (other : p.continuation ≠ .broadcastVoteRequests) :
    Asking effects c := by
  intro q batch hq hk
  rw [pending, Option.some.injEq] at hq
  exact absurd (hq ▸ hk) other

theorem Asking.campaigned {earlier : List (Effect C)} {c : RaftCore C}
    (slots : SlotsMatch earlier c) : Asking
      (earlier ++ (Ctx.queued ⟨c.candidacy, []⟩ ⟨some c.candidacy.hardState, [], none⟩
        .broadcastVoteRequests).effects)
      (Ctx.queued ⟨c.candidacy, []⟩ ⟨some c.candidacy.hardState, [], none⟩
        .broadcastVoteRequests).core := by
  intro p batch hp hk hmem
  simp only [Ctx.queued, Option.some.injEq] at hp
  subst hp
  rcases List.mem_append.mp hmem with hold | hnew
  · have := (slots.issued _ hold _ rfl).2.2
    exact absurd this (Nat.not_succ_le_self _)
  · simp only [Ctx.queued, List.nil_append, List.mem_singleton, Effect.persist.injEq, true_and]
      at hnew
    exact ⟨_, by rw [hnew]; rfl⟩

theorem Asking.messageAct {effects : List (Effect C)} {c : RaftCore C} {from_ : NodeId}
    {m : Message C} {s : Ctx C} (h : Asking effects c) (slots : SlotsMatch effects c)
    (act : MessageAct c from_ m s) : Asking (effects ++ s.effects) s.core := by
  have h₀ : Asking (effects ++ (Ctx.mk c []).effects) c := by simpa using h
  have slots₀ : SlotsMatch (effects ++ (Ctx.mk c []).effects) c := by simpa using slots
  have hs := act.slotted
  cases act with
  | campaigned => exact .campaigned slots
  | termRaised | voteNewer | voteFirst | elected | appendRejected | appendAccepted =>
    exact .queued rfl (by simp)
  | _ => exact h₀.kept slots₀ hs (.inr rfl) rfl

theorem Asking.completionAct [Sha256] {effects : List (Effect C)} {c : RaftCore C} {id : EffectId}
    {outcome : EffectOutcome} {s : Ctx C} (h : Asking effects c) (slots : SlotsMatch effects c)
    (act : CompletionAct c id outcome s)
    (waits : ∀ snapshotId, outcome = .snapshotInstalled snapshotId → ∀ record from_ term,
      c.incomingSnapshotState = some (.installing id record from_ term) →
      c.hardState.currentTerm < term →
      ∀ p, c.pendingPersist = some p → p.continuation ≠ .broadcastVoteRequests) :
    Asking (effects ++ s.effects) s.core := by
  have h₀ : Asking (effects ++ (Ctx.mk c []).effects) c := by simpa using h
  have slots₀ : SlotsMatch (effects ++ (Ctx.mk c []).effects) c := by simpa using slots
  have hs := act.slotted
  cases act with
  | installed snapshotId record from_ term log found install =>
    by_cases hterm : c.hardState.currentTerm < term
    · intro p batch hp hk
      exact absurd hk (waits snapshotId rfl record from_ term found hterm p hp)
    · exact h₀.kept slots₀ hs (.inr rfl) (Nat.max_eq_left (Nat.not_lt.mp hterm))
  | electedAlone => exact .queued rfl (by simp)
  | persistDropped | persistDone | votesRequested | voteAnswered | appendAnswered | activated =>
    exact h₀.kept slots₀ hs (.inl rfl) rfl
  | _ => exact h₀.kept slots₀ hs (.inr rfl) rfl

theorem Asking.act [Sha256] {effects : List (Effect C)} {c : RaftCore C} {s : Ctx C}
    (h : Asking effects c) (slots : SlotsMatch effects c) (act : Act c event s)
    (meets : VoteRepeats init history c event) : Asking (effects ++ s.effects) s.core := by
  have h₀ : Asking (effects ++ (Ctx.mk c []).effects) c := by simpa using h
  have slots₀ : SlotsMatch (effects ++ (Ctx.mk c []).effects) c := by simpa using slots
  have hs := act.slotted
  cases act with
  | campaigned => exact .campaigned slots
  | proposed => exact .queued rfl (by simp)
  | message envelope members s known mine act =>
    have h₁ : Asking effects { c with activeMembers := members } := h
    exact h₁.messageAct ⟨slots.issued, slots.distinct, slots.bounded, slots.fits⟩ act
  | completed id outcome s act =>
    refine h.completionAct slots act ?_
    rintro snapshotId rfl
    exact meets.2
  | readStarted readId =>
    obtain ⟨round, hr⟩ := Ctx.roundStarted_core ⟨c, []⟩ readId
    exact h₀.kept slots₀ hs (.inr (by rw [hr])) (by rw [hr])
  | _ => exact h₀.kept slots₀ hs (.inr rfl) rfl

theorem Asking.followUp {earlier : List (Effect C)} {cause : Cause C} {s s' : Ctx C}
    (h : Asking (earlier ++ s.effects) s.core) (slots : SlotsMatch (earlier ++ s.effects) s.core)
    (settled : s.core.WF ∨ s.core.Overflowed) (hf : FollowUp cause s s') :
    Asking (earlier ++ s'.effects) s'.core := by
  have hs := hf.slotted settled
  cases hf with
  | committed => exact .queued rfl (by simp)
  | readStarted readId rest =>
    obtain ⟨round, hr⟩ :=
      Ctx.roundStarted_core ⟨{ s.core with pendingReads := rest }, s.effects⟩ readId
    exact h.kept slots hs (.inr (by rw [hr])) (by rw [hr])
  | _ => exact h.kept slots hs (.inr rfl) rfl

/-- Only three acts promise a vote, and each finds it durable. -/
theorem MessageAct.promises {c : RaftCore C} {from_ to_ : NodeId} {m reply : Message C} {s : Ctx C}
    (act : MessageAct c from_ m s) (h : .sendMessage to_ reply ∈ s.effects) {vote : Nat × NodeId}
    (promise : reply.promise c.config.localId to_ = some vote) :
    vote = (c.hardState.currentTerm, from_) ∧ c.hardState.votedFor = some from_ ∧
      ∃ index logTerm, m = .requestVote c.hardState.currentTerm index logTerm ∧
        isLogUpToDate index logTerm c.lastLogIndex c.lastLogTerm = true := by
  cases act with
  | refused m reply refusal =>
    simp only [List.mem_singleton, Effect.sendMessage.injEq] at h
    obtain ⟨rfl, rfl⟩ := h
    cases refusal <;> simp [Message.promise] at promise
  | voteAgain term index logTerm same voted current =>
    simp only [List.mem_singleton, Effect.sendMessage.injEq] at h
    obtain ⟨rfl, rfl⟩ := h
    subst same
    simp only [Message.promise, Option.some.injEq] at promise
    exact ⟨promise.symm, voted, index, logTerm, rfl, current⟩
  | appendRefused term prev prevTerm leaderCommit context entries same reply refusal =>
    simp only [List.mem_singleton, Effect.sendMessage.injEq] at h
    obtain ⟨rfl, rfl⟩ := h
    cases refusal <;> simp [Message.promise] at promise
  | appendHeld =>
    simp only [List.mem_singleton, Effect.sendMessage.injEq] at h
    obtain ⟨rfl, rfl⟩ := h
    simp [Message.promise] at promise
  | _ => simp [Ctx.queued] at h

theorem CompletionAct.promises [Sha256] {c : RaftCore C} {id : EffectId} {outcome : EffectOutcome}
    {to_ : NodeId} {m : Message C} {s : Ctx C} (act : CompletionAct c id outcome s)
    (h : .sendMessage to_ m ∈ s.effects) {vote : Nat × NodeId}
    (promise : m.promise c.config.localId to_ = some vote) :
    outcome = .persisted ∧ ∃ stableThrough k, c.pendingPersist = some ⟨id, stableThrough, k⟩ ∧
      (k = .sendVoteResponse vote.2 vote.1 true ∨
        k = .broadcastVoteRequests ∧ vote = (c.hardState.currentTerm, c.config.localId)) := by
  cases act with
  | votesRequested stableThrough found =>
    obtain ⟨n, -, heq⟩ := List.mem_map.mp h
    simp only [Effect.sendMessage.injEq] at heq
    obtain ⟨rfl, rfl⟩ := heq
    simp only [Message.promise, Option.some.injEq] at promise
    exact ⟨rfl, stableThrough, _, found, .inr ⟨rfl, promise.symm⟩⟩
  | voteAnswered stableThrough n term granted found =>
    simp only [List.mem_singleton, Effect.sendMessage.injEq] at h
    obtain ⟨rfl, rfl⟩ := h
    cases granted with
    | false => simp [Message.promise] at promise
    | true =>
      simp only [Message.promise, Option.some.injEq] at promise
      subst promise
      exact ⟨rfl, stableThrough, _, found, .inl rfl⟩
  | chunkRead | installed | appendAnswered =>
    simp only [List.mem_singleton, Effect.sendMessage.injEq] at h
    obtain ⟨rfl, rfl⟩ := h
    simp [Message.promise] at promise
  | applyDone => simp [Ctx.answered] at h
  | _ => simp [Ctx.queued] at h

theorem Act.promises [Sha256] {c : RaftCore C} {s : Ctx C} (act : Act c event s)
    (slots : SlotsMatch (returnedEffects history) c) (asking : Asking (returnedEffects history) c)
    (allowed : Allowed history event) (meets : VoteRepeats init history c event) {to_ : NodeId}
    {m : Message C} (h : .sendMessage to_ m ∈ s.effects) {vote : Nat × NodeId}
    (promise : m.promise c.config.localId to_ = some vote) :
    VoteDurable init history event vote.1 vote.2 := by
  cases act with
  | message envelope members s known mine act =>
    obtain ⟨rfl, voted, index, logTerm, is, current⟩ := act.promises h promise
    exact meets.2 _ index logTerm is rfl voted current
  | completed id outcome s act =>
    obtain ⟨rfl, stableThrough, k, found, hk⟩ := act.promises h promise
    obtain ⟨batch, hmem, durable⟩ := allowed.durable
    rcases hk with rfl | ⟨rfl, rfl⟩
    · have pends := @Pending.persist C c.config.localId c.slots
        ⟨id, stableThrough, .sendVoteResponse vote.2 vote.1 true⟩ found
      obtain ⟨b, heq, -, -, fits⟩ := slots.fits id _ pends _ hmem rfl
      simp only [Effect.persist.injEq, true_and] at heq
      subst heq
      obtain ⟨commit, hcommit⟩ := fits
      exact .inr ⟨batch, commit, durable, hcommit⟩
    · obtain ⟨commit, hcommit⟩ := asking _ batch found rfl hmem
      exact .inr ⟨batch, commit, durable, hcommit⟩
  | preVoteStarted =>
    obtain ⟨n, -, heq⟩ := List.mem_map.mp h
    simp only [Effect.sendMessage.injEq] at heq
    obtain ⟨rfl, rfl⟩ := heq
    simp [Message.promise] at promise
  | readStarted readId =>
    rcases Ctx.roundStarted_sends readId h with hold | hr
    · simp at hold
    · cases hr <;> simp [Message.promise] at promise
  | _ => simp [Ctx.queued] at h

/-- The votes promised so far, in earlier steps and in this one. -/
structure Promising (init : RaftCore C) (history : List (Record C)) (event : Event C)
    (s : Ctx C) : Prop where
  law : VotesDurable init history
  slots : SlotsMatch (returnedEffects history ++ s.effects) s.core
  asking : Asking (returnedEffects history ++ s.effects) s.core
  config : s.core.config = init.config
  now : ∀ to_ m, .sendMessage to_ m ∈ s.effects → ∀ vote,
    m.promise init.config.localId to_ = some vote → VoteDurable init history event vote.1 vote.2

/-- Effects of a step that fails are dropped. -/
theorem Promising.dropped {s : Ctx C} (h : Promising init history event s) :
    SlotsMatch (returnedEffects history) s.core ∧ Asking (returnedEffects history) s.core :=
  ⟨h.slots.anti (by simp), fun p batch hp hk hmem =>
    h.asking p batch hp hk (List.mem_append_left _ hmem)⟩

theorem promising_keeps [Sha256] (init : RaftCore C) : Keeps (VoteRepeats init)
    (fun history c => VotesDurable init history ∧ c.config = init.config ∧
      SlotsMatch (returnedEffects history) c ∧ Asking (returnedEffects history) c)
    (fun history _ event s => Promising init history event s)
    (fun history _ => VotesDurable init history) where
  act := by
    intro history c event s hs ⟨law, config, slots, asking⟩ act
    have hslot := act.slotted
    refine ⟨law, SlotsMatch.slotted (s := ⟨c, []⟩) (by simpa using slots) hslot,
      asking.act slots act hs.meets, ?_, ?_⟩
    · cases hslot with
      | quiet _ _ _ same => exact same.trans config
      | emitted _ _ _ same => exact same.trans config
    · intro to_ m hmem vote hv
      exact act.promises slots asking hs.allowed hs.meets hmem (config ▸ hv)
  followUp := by
    intro history c event s₀ s s' hs act rest h hf
    have settled := act.settled hs.wf rest
    refine ⟨h.law, h.slots.slotted (hf.slotted settled), h.asking.followUp h.slots settled hf,
      hf.frame.config.trans h.config, ?_⟩
    intro to_ m hmem vote hv
    rcases hf.sends hmem with hold | hr
    · exact h.now to_ m hold vote hv
    · cases hr <;> simp [Message.promise] at hv
  finished := by
    intro history c event s _ h
    have hslot := finished_slotted c s
    obtain ⟨proposals, hp⟩ := s.finished_core c
    refine ⟨h.law, h.slots.slotted hslot, ?_, by rw [hp]; exact h.config, ?_⟩
    · exact h.asking.kept h.slots hslot (.inr (by rw [hp])) (by rw [hp])
    · exact fun to_ m hmem => h.now to_ m (Ctx.finished_sends c hmem)
  returned := by
    intro history c event s changed _ h
    refine ⟨⟨h.now, h.law⟩, h.config, ?_, ?_⟩
    · rw [returnedEffects_cons]; exact h.slots
    · rw [returnedEffects_cons]; exact h.asking
  failed := by
    intro history c event s e _ h _
    obtain ⟨slots, asking⟩ := h.dropped
    refine ⟨⟨by rintro _ _ ⟨⟩, h.law⟩, h.config, ?_, ?_⟩
    · rw [returnedEffects_cons]; exact (List.append_nil _).symm ▸ slots
    · rw [returnedEffects_cons]; exact (List.append_nil _).symm ▸ asking
  safe h := h.1
  ended _ _ _ h := ⟨by rintro _ _ ⟨⟩, h.law⟩
  halted _ _ _ h _ := ⟨by rintro _ _ ⟨⟩, h.1⟩
  idle := by
    intro history c event result _ silent h
    exact ⟨by simp [silent], h⟩

/-- Every vote that a core promises is durable, along every run in which candidates that have
its vote repeat themselves only when it is. -/
theorem votes_durable [Sha256] (config : Config) (recovered : RecoveredState C)
    {history : List (Record C)} {c : RaftCore C}
    (run : Trace (RaftCore.new config recovered) history c)
    (repeats : Holds (VoteRepeats (RaftCore.new config recovered)) history) :
    VotesDurable (RaftCore.new config recovered) history :=
  (Trace.invariant (promising_keeps _) (fun _ _ _ h => h.1) (RaftCore.new_wf config recovered)
    ⟨trivial, rfl, RaftCore.new_slots config recovered, by rintro p batch ⟨⟩⟩ run repeats).1

/-- `VoteRepeats` as a check, when no candidate repeats itself and no snapshot is installed. -/
def noRepeatCheck (c : RaftCore C) (event : Event C) : Bool :=
  Room c && match event with
    | .messageReceived envelope => c.hardState.votedFor ≠ some envelope.from_
    | .effectCompleted _ (.snapshotInstalled _) => false
    | _ => true

theorem voteRepeats_of_check (history : List (Record C)) (c : RaftCore C) (event : Event C)
    (h : noRepeatCheck c event = true) : VoteRepeats init history c event := by
  unfold noRepeatCheck at h
  rw [Bool.and_eq_true] at h
  refine ⟨of_decide_eq_true h.1, ?_⟩
  split
  · exact fun _ _ _ _ _ voted => absurd voted (of_decide_eq_true h.2)
  · simp at h
  · trivial

/-- Node 3 votes for node 2. -/
def voteOnce : List (Event Nat) :=
  [.messageReceived ⟨0, 2, 3, .requestVote 1 0 0⟩, .effectCompleted ⟨0, 1⟩ .persisted]

theorem votes_durable_once : ∃ w : Solo Nat,
    @Trace Nat sha256Empty (trio 3) w.history w.core ∧
    .sendMessage 2 (.voteResponse 1 true) ∈ returnedEffects w.history ∧
    VotesDurable (trio 3) w.history := by
  let _ : Sha256 := sha256Empty
  obtain ⟨w, run, checked⟩ := Solo.exec_any (trio 3) voteOnce
    (fun w => (.sendMessage 2 (.voteResponse 1 true) ∈ returnedEffects w.history) &&
      w.history.all fun r => noRepeatCheck r.before r.event)
    (by decide +kernel)
  rw [Bool.and_eq_true] at checked
  refine ⟨w, run, of_decide_eq_true checked.1, ?_⟩
  exact votes_durable (trioConfig 3 (by decide)) .initial run
    (Holds.of_all voteRepeats_of_check checked.2)

/-- The host has reported nothing. -/
def unreportedCheck (history : List (Record C)) : Bool :=
  history.all fun r => match r.event with
    | .effectCompleted _ _ => false
    | _ => true

theorem not_durable_of_check {r : Record C} {earlier : List (Record C)} {batch : PersistBatch C}
    (h : unreportedCheck (r :: earlier) = true) : ¬ Durable earlier r.event batch := by
  have silent : ∀ r' ∈ r :: earlier, ∀ id, r'.event ≠ .effectCompleted id .persisted := by
    intro r' hr' id hid
    have := List.all_eq_true.mp h r' hr'
    simp [hid] at this
  rintro ⟨id, -, now | ⟨r', hr', before⟩⟩
  · exact silent r List.mem_cons_self id now
  · exact silent r' (List.mem_cons_of_mem _ hr') id before

/-- Node 2 repeats its request before the vote is durable. -/
def voteTwice : List (Event Nat) :=
  [.messageReceived ⟨0, 2, 3, .requestVote 1 0 0⟩, .messageReceived ⟨0, 2, 3, .requestVote 1 0 0⟩]

theorem vote_granted_early : ¬ ∀ (history : List (Record Nat)) (c : RaftCore Nat),
    @Trace Nat sha256Empty (trio 3) history c → VotesDurable (trio 3) history := by
  let _ : Sha256 := sha256Empty
  intro h
  obtain ⟨⟨history, core⟩, run, bad⟩ := Solo.exec_any (trio 3) voteTwice
    (fun w => unreportedCheck w.history && w.history.head?.any fun r =>
      .sendMessage 2 (.voteResponse 1 true) ∈ r.effects)
    (by decide +kernel)
  rw [Bool.and_eq_true] at bad
  obtain ⟨unreported, granted⟩ := bad
  cases history with
  | nil => simp at granted
  | cons r earlier =>
    have granted : .sendMessage 2 (.voteResponse 1 true) ∈ r.effects := by simpa using granted
    rcases (h _ _ run).1 2 _ granted (1, 2) rfl with ⟨-, recovered⟩ | ⟨batch, commit, durable, -⟩
    · exact absurd recovered (by decide)
    · exact not_durable_of_check unreported durable

/-! ## Acknowledged appends -/

/-- The entry was recovered or is part of a durable batch. -/
def EntryDurable (init : RaftCore C) (history : List (Record C)) (event : Event C)
    (entry : Entry C) : Prop :=
  entry ∈ init.log.entries ∨ ∃ batch, Durable history event batch ∧ entry ∈ batch.entries

/-- The law: when a core acknowledges an index, every entry of its log up to it is durable. The
log starts after the installed snapshot. -/
def AcksDurable (init : RaftCore C) (history : List (Record C)) : Prop :=
  Meets (fun earlier r => ∀ to_ term m conflict context,
    .sendMessage to_ (.appendEntriesResponse term true m conflict context) ∈ r.effects →
    ∀ entry ∈ r.after.log.entries, entry.index ≤ m → EntryDurable init earlier r.event entry) history

/-- Entries were handed out in a batch that the host has not reported. -/
def Unreported (history : List (Record C)) (id : EffectId) : Prop :=
  ∃ batch, .persist id batch ∈ returnedEffects history ∧ batch.entries ≠ [] ∧
    ∀ r ∈ history, r.event ≠ .effectCompleted id .persisted

/-- The append is accepted and finds nothing to write. -/
structure Redundant (c : RaftCore C) (term prev prevTerm leaderCommit : Nat)
    (entries : List (Entry C)) : Prop where
  same : c.hardState.currentTerm = term
  prefix_ : c.log.term prev = .ok prevTerm
  held : ∀ e ∈ entries, c.log.term e.index = .ok e.term
  committed : min leaderCommit c.log.lastIndex ≤ c.log.committed

/-- A redundant append arrives when all entries were reported, and the batch of an append is
reported after all other entries were. -/
def AcksWait : Condition C := fun history c event => Room c ∧
  match event with
  | .messageReceived envelope => ∀ term prev prevTerm leaderCommit context entries,
      envelope.message = .appendEntries term prev prevTerm leaderCommit context entries →
      Redundant c term prev prevTerm leaderCommit entries → ∀ id, ¬ Unreported history id
  | .effectCompleted id .persisted => ∀ stableThrough to_ r,
      c.pendingPersist = some ⟨id, stableThrough, .sendAppendEntriesResponse to_ r⟩ →
      r.success = true → ∀ other, Unreported history other → other = id
  | _ => True

/-- The entry was recovered or handed out to be persisted. -/
def HandedOut (init : RaftCore C) (effects : List (Effect C)) (entry : Entry C) : Prop :=
  entry ∈ init.log.entries ∨ ∃ id batch, .persist id batch ∈ effects ∧ entry ∈ batch.entries

/-- What was handed out is durable, unless it is in a batch that waits. -/
theorem HandedOut.durable {entry : Entry C} (h : HandedOut init (returnedEffects history) entry)
    (none : ∀ id, Unreported history id → event ≠ .effectCompleted id .persisted → False) :
    EntryDurable init history event entry := by
  refine h.imp_right ?_
  rintro ⟨id, batch, hout, hin⟩
  refine ⟨batch, ⟨id, hout, ?_⟩, hin⟩
  by_contra unreported
  simp only [Reported, not_or, not_exists, not_and] at unreported
  exact none id ⟨batch, hout, List.ne_nil_of_mem hin, unreported.2⟩ unreported.1

theorem HandedOut.mono {effects effects' : List (Effect C)} {entry : Entry C}
    (h : HandedOut init effects entry) (sub : effects ⊆ effects') :
    HandedOut init effects' entry :=
  h.imp_right fun ⟨id, batch, hmem, he⟩ => ⟨id, batch, sub hmem, he⟩

theorem RaftLog.Merged.mem {log log' : RaftLog C} {incoming appended : List (Entry C)}
    (h : log.Merged incoming log' appended) {entry : Entry C} (he : entry ∈ log'.entries) :
    entry ∈ log.entries ∨ entry ∈ appended := by
  cases h with
  | same => exact .inl he
  | changed kept e rest j u =>
    exact (List.mem_append.mp he).imp_left List.mem_of_mem_take

/-- Entries enter the log together with a batch that holds them. -/
theorem MessageAct.entries {c : RaftCore C} {from_ : NodeId} {m : Message C} {s : Ctx C}
    (act : MessageAct c from_ m s) {entry : Entry C} (he : entry ∈ s.core.log.entries) :
    entry ∈ c.log.entries ∨ ∃ id batch, .persist id batch ∈ s.effects ∧ entry ∈ batch.entries := by
  cases act with
  | elected term granted votes noop =>
    rcases List.mem_append.mp he with hold | hnew
    · exact .inl hold
    · exact .inr ⟨_, _, List.mem_singleton.mpr rfl, hnew⟩
  | appendAccepted term prev prevTerm leaderCommit context entries log appended hardState reached
      prefix_ run merge =>
    exact (merge.mem he).imp_right fun hnew => ⟨_, _, List.mem_singleton.mpr rfl, hnew⟩
  | _ => exact .inl he

theorem CompletionAct.entries [Sha256] {c : RaftCore C} (wf : c.WF) {id : EffectId}
    {outcome : EffectOutcome} {s : Ctx C} (act : CompletionAct c id outcome s) {entry : Entry C}
    (he : entry ∈ s.core.log.entries) :
    entry ∈ c.log.entries ∨ ∃ id batch, .persist id batch ∈ s.effects ∧ entry ∈ batch.entries := by
  cases act with
  | installed snapshotId record from_ term log found install =>
    rw [wf.log.installSnapshot, Except.ok.injEq] at install
    subst install
    simp only [RaftCore.installed, RaftLog.retained] at he
    split at he
    · exact .inl (List.mem_of_mem_drop he)
    · simp at he
  | compacted record log found compact =>
    obtain ⟨-, -, rfl⟩ := wf.log.compact_eq_ok compact
    exact .inl (List.mem_of_mem_drop he)
  | electedAlone =>
    rcases List.mem_append.mp he with hold | hnew
    · exact .inl hold
    · exact .inr ⟨_, _, List.mem_singleton.mpr rfl, hnew⟩
  | _ => exact .inl he

theorem Act.entries [Sha256] {c : RaftCore C} (wf : c.WF) {s : Ctx C} (act : Act c event s)
    {entry : Entry C} (he : entry ∈ s.core.log.entries) :
    entry ∈ c.log.entries ∨ ∃ id batch, .persist id batch ∈ s.effects ∧ entry ∈ batch.entries := by
  cases act with
  | message envelope members s known mine act => exact act.entries he
  | completed id outcome s act => exact act.entries wf he
  | proposed =>
    rcases List.mem_append.mp he with hold | hnew
    · exact .inl hold
    · exact .inr ⟨_, _, List.mem_singleton.mpr rfl, hnew⟩
  | readStarted readId =>
    obtain ⟨round, hr⟩ := Ctx.roundStarted_core ⟨c, []⟩ readId
    rw [hr] at he
    exact .inl he
  | _ => exact .inl he

/-- Every entry of the log was recovered or handed out, in this step or before. -/
def HandsOut (init : RaftCore C) (history : List (Record C)) (s : Ctx C) : Prop :=
  ∀ entry ∈ s.core.log.entries, HandedOut init (returnedEffects history ++ s.effects) entry

theorem HandsOut.act [Sha256] {c : RaftCore C} (wf : c.WF) {s : Ctx C}
    (h : ∀ entry ∈ c.log.entries, HandedOut init (returnedEffects history) entry)
    (act : Act c event s) : HandsOut init history s := by
  intro entry he
  rcases act.entries wf he with hold | ⟨id, batch, hmem, hin⟩
  · exact (h entry hold).mono (List.subset_append_left _ _)
  · exact .inr ⟨id, batch, List.mem_append_right _ hmem, hin⟩

theorem HandsOut.followUp {cause : Cause C} {s s' : Ctx C} (h : HandsOut init history s)
    (hf : FollowUp cause s s') : HandsOut init history s' := by
  intro entry he
  rw [hf.frame.entries] at he
  refine (h entry he).mono (List.append_subset.mpr ⟨?_, ?_⟩)
  · exact List.subset_append_left _ _
  · exact fun _ hx => List.mem_append_right _ (hf.effects_subset hx)

theorem HandsOut.finished {c : RaftCore C} {s : Ctx C} (h : HandsOut init history s) :
    HandsOut init history (s.finished c) := by
  obtain ⟨proposals, hp⟩ := s.finished_core c
  obtain ⟨new, hnew, -⟩ := s.finished_effects c
  unfold HandsOut
  rw [hp, hnew, ← List.append_assoc]
  exact fun entry he => (h entry he).mono (List.subset_append_left _ _)

theorem HandsOut.returned {c : RaftCore C} {s : Ctx C} {changed : Bool}
    (h : HandsOut init history s) : ∀ entry ∈ s.core.log.entries, HandedOut init
      (returnedEffects (⟨c, event, .ok ⟨s.effects, changed⟩, s.core⟩ :: history)) entry := by
  rw [returnedEffects_cons]
  exact h

/-- A step that fails handed out no entries. -/
theorem HandsOut.failed {c : RaftCore C} {s : Ctx C} {e : StepError}
    (h : HandsOut init history s) (quiet : s.Unqueued) : ∀ entry ∈ s.core.log.entries,
      HandedOut init (returnedEffects (⟨c, event, Outcome.raise e, s.core⟩ :: history)) entry := by
  intro entry he
  rw [returnedEffects_cons]
  rcases h entry he with hold | ⟨id, batch, hmem, hin⟩
  · exact .inl hold
  · rcases List.mem_append.mp hmem with hold | hnew
    · exact .inr ⟨id, batch, List.mem_append_left _ hold, hin⟩
    · simp [quiet id batch hnew] at hin

/-- A core acknowledges an append when it is redundant, or when its batch is reported. -/
theorem Act.acks [Sha256] {c : RaftCore C} {s : Ctx C} (act : Act c event s) {to_ : NodeId}
    {term m : Nat} {conflict : Option ConflictHint} {context : Option Bytes}
    (h : .sendMessage to_ (.appendEntriesResponse term true m conflict context) ∈ s.effects) :
    s.core.log.entries = c.log.entries ∧
    ((∃ envelope t prev prevTerm leaderCommit ctx entries, event = .messageReceived envelope ∧
      envelope.message = .appendEntries t prev prevTerm leaderCommit ctx entries ∧
      Redundant c t prev prevTerm leaderCommit entries) ∨
    ∃ id stableThrough r, event = .effectCompleted id .persisted ∧ r.success = true ∧
      c.pendingPersist = some ⟨id, stableThrough, .sendAppendEntriesResponse to_ r⟩) := by
  cases act with
  | message envelope members s known mine act =>
    obtain ⟨cluster, from_, to_, message⟩ := envelope
    dsimp only at act
    cases act with
    | refused m reply refusal =>
      simp only [List.mem_singleton, Effect.sendMessage.injEq] at h
      obtain ⟨-, rfl⟩ := h
      cases refusal
    | appendRefused t prev prevTerm leaderCommit ctx entries same reply refusal =>
      simp only [List.mem_singleton, Effect.sendMessage.injEq] at h
      obtain ⟨-, rfl⟩ := h
      cases refusal
    | appendHeld t prev prevTerm leaderCommit ctx entries same prefix_ held committed =>
      exact ⟨rfl, .inl ⟨_, t, prev, prevTerm, leaderCommit, ctx, entries, rfl, rfl,
        same, prefix_, held, committed⟩⟩
    | voteAgain => simp at h
    | _ => simp [Ctx.queued] at h
  | completed id outcome s act =>
    cases act with
    | appendAnswered stableThrough n r found =>
      simp only [List.mem_singleton, Effect.sendMessage.injEq,
        Message.appendEntriesResponse.injEq] at h
      obtain ⟨rfl, -, success, -⟩ := h
      exact ⟨rfl, .inr ⟨id, stableThrough, r, rfl, success.symm, found⟩⟩
    | votesRequested => simp [toPeers] at h
    | chunkRead | installed | voteAnswered => simp at h
    | applyDone => simp [Ctx.answered] at h
    | _ => simp [Ctx.queued] at h
  | preVoteStarted => simp [toPeers] at h
  | readStarted readId =>
    rcases Ctx.roundStarted_sends readId h with hold | hr
    · simp at hold
    · cases hr
  | _ => simp [Ctx.queued] at h

/-- The acknowledgements so far, in earlier steps and in this one. -/
structure Acking (init : RaftCore C) (history : List (Record C)) (event : Event C)
    (s : Ctx C) : Prop where
  law : AcksDurable init history
  handedOut : HandsOut init history s
  now : ∀ to_ term m conflict context,
    .sendMessage to_ (.appendEntriesResponse term true m conflict context) ∈ s.effects →
    ∀ entry ∈ s.core.log.entries, entry.index ≤ m → EntryDurable init history event entry

theorem Acking.act [Sha256] {c : RaftCore C} {s : Ctx C} (hs : Steps AcksWait history c event)
    (law : AcksDurable init history)
    (handedOut : ∀ entry ∈ c.log.entries, HandedOut init (returnedEffects history) entry)
    (act : Act c event s) : Acking init history event s := by
  refine ⟨law, .act hs.wf handedOut act, ?_⟩
  intro to_ term m conflict context hmem entry he _
  obtain ⟨same, hack⟩ := act.acks hmem
  rw [same] at he
  refine (handedOut entry he).durable fun id pending unreported => ?_
  have meets := hs.meets.2
  rcases hack with ⟨envelope, t, prev, prevTerm, leaderCommit, ctx, entries, rfl, is, redundant⟩ |
    ⟨reported, stableThrough, r, rfl, success, found⟩
  · exact meets t prev prevTerm leaderCommit ctx entries is redundant id pending
  · have := meets stableThrough to_ r found success id pending
    subst this
    exact unreported rfl

theorem acking_keeps [Sha256] (init : RaftCore C) : Keeps AcksWait
    (fun history c => AcksDurable init history ∧
      ∀ entry ∈ c.log.entries, HandedOut init (returnedEffects history) entry)
    (fun history _ event s => Acking init history event s)
    (fun history _ => AcksDurable init history) where
  act hs h act := .act hs h.1 h.2 act
  followUp := by
    intro history c event s₀ s s' hs act rest h hf
    refine ⟨h.law, h.handedOut.followUp hf, ?_⟩
    intro to_ term m conflict context hmem
    rw [hf.frame.entries]
    rcases hf.sends hmem with hold | hr
    · exact h.now to_ term m conflict context hold
    · cases hr
  finished := by
    intro history c event s _ h
    obtain ⟨proposals, hp⟩ := s.finished_core c
    refine ⟨h.law, h.handedOut.finished, ?_⟩
    rw [hp]
    exact fun to_ term m conflict context hmem =>
      h.now to_ term m conflict context (Ctx.finished_sends c hmem)
  returned _ _ h := ⟨⟨h.now, h.law⟩, h.handedOut.returned⟩
  failed _ _ h quiet := ⟨⟨by rintro _ _ _ _ _ ⟨⟩, h.law⟩, h.handedOut.failed quiet⟩
  safe h := h.1
  ended _ _ _ h := ⟨by rintro _ _ _ _ _ ⟨⟩, h.law⟩
  halted _ _ _ h _ := ⟨by rintro _ _ _ _ _ ⟨⟩, h.1⟩
  idle := by
    intro history c event result _ silent h
    exact ⟨by simp [silent], h⟩

/-- Every entry that a core acknowledges is durable, along every run in which acknowledgements
wait for the entries. -/
theorem acks_durable [Sha256] (config : Config) (recovered : RecoveredState C)
    {history : List (Record C)} {c : RaftCore C}
    (run : Trace (RaftCore.new config recovered) history c) (wait : Holds AcksWait history) :
    AcksDurable (RaftCore.new config recovered) history :=
  (Trace.invariant (acking_keeps _) (fun _ _ _ h => h.1) (RaftCore.new_wf config recovered)
    ⟨trivial, fun _ he => .inl he⟩ run wait).1

def Record.persisted (r : Record C) (id : EffectId) : Bool :=
  match r.event with
  | .effectCompleted i .persisted => i = id
  | _ => false

/-- `AcksWait` as a check, when no append is redundant. -/
def acksWaitCheck (history : List (Record C)) (c : RaftCore C) (event : Event C) : Bool :=
  Room c && match event with
    | .messageReceived envelope => match envelope.message with
      | .appendEntries term _ _ _ _ _ => c.hardState.currentTerm ≠ term
      | _ => true
    | .effectCompleted id .persisted => (returnedEffects history).all fun
      | .persist i batch => batch.entries.isEmpty || i = id || history.any fun r => r.persisted i
      | _ => true
    | _ => true

theorem acksWait_of_check (history : List (Record C)) (c : RaftCore C) (event : Event C)
    (h : acksWaitCheck history c event = true) : AcksWait history c event := by
  unfold acksWaitCheck at h
  rw [Bool.and_eq_true] at h
  refine ⟨of_decide_eq_true h.1, ?_⟩
  split
  · intro term prev prevTerm leaderCommit context entries is redundant
    simp only [is] at h
    exact absurd redundant.same (of_decide_eq_true h.2)
  · rintro - - - - - other ⟨batch, hmem, hne, unreported⟩
    have := List.all_eq_true.mp h.2 _ hmem
    simp only [Bool.or_eq_true, List.isEmpty_iff, hne, false_or, decide_eq_true_eq] at this
    refine this.resolve_right fun hany => ?_
    obtain ⟨r, hr, hp⟩ := List.any_eq_true.mp hany
    refine unreported r hr ?_
    unfold Record.persisted at hp
    split at hp
    · next heq => rw [heq, of_decide_eq_true hp]
    · simp at hp
  · trivial

/-- Node 3 gets an entry from node 1. -/
def appendOnce : List (Event Nat) :=
  [.messageReceived ⟨0, 1, 3, .appendEntries 1 0 0 0 none
      [⟨1, 1, 0, .leaderNoop, Nat.zero_lt_one, Nat.zero_lt_one⟩]⟩,
    .effectCompleted ⟨0, 1⟩ .persisted]

theorem acks_durable_once : ∃ w : Solo Nat,
    @Trace Nat sha256Empty (trio 3) w.history w.core ∧
    .sendMessage 1 (.appendEntriesResponse 1 true 1 none none) ∈ returnedEffects w.history ∧
    AcksDurable (trio 3) w.history := by
  let _ : Sha256 := sha256Empty
  obtain ⟨w, run, checked⟩ := Solo.exec_any (trio 3) appendOnce
    (fun w => (.sendMessage 1 (.appendEntriesResponse 1 true 1 none none) ∈
      returnedEffects w.history) && Meets.check (fun earlier r =>
        acksWaitCheck earlier r.before r.event) w.history)
    (by decide +kernel)
  rw [Bool.and_eq_true] at checked
  refine ⟨w, run, of_decide_eq_true checked.1, ?_⟩
  exact acks_durable (trioConfig 3 (by decide)) .initial run
    (Holds.of_check acksWait_of_check checked.2)

/-- The network delivers the append again before its entry is durable. -/
def appendTwice : List (Event Nat) :=
  [.messageReceived ⟨0, 1, 3, .appendEntries 1 0 0 0 none
      [⟨1, 1, 0, .leaderNoop, Nat.zero_lt_one, Nat.zero_lt_one⟩]⟩,
    .messageReceived ⟨0, 1, 3, .appendEntries 1 0 0 0 none
      [⟨1, 1, 0, .leaderNoop, Nat.zero_lt_one, Nat.zero_lt_one⟩]⟩]

theorem ack_sent_early : ¬ ∀ (history : List (Record Nat)) (c : RaftCore Nat),
    @Trace Nat sha256Empty (trio 3) history c → AcksDurable (trio 3) history := by
  let _ : Sha256 := sha256Empty
  intro h
  obtain ⟨⟨history, core⟩, run, bad⟩ := Solo.exec_any (trio 3) appendTwice
    (fun w => unreportedCheck w.history && w.history.head?.any fun r =>
      (.sendMessage 1 (.appendEntriesResponse 1 true 1 none none) ∈ r.effects) &&
        r.after.log.entries.any fun entry => entry.index = 1)
    (by decide +kernel)
  rw [Bool.and_eq_true] at bad
  obtain ⟨unreported, acked⟩ := bad
  cases history with
  | nil => simp at acked
  | cons r earlier =>
    simp only [List.head?_cons, Option.any_some, Bool.and_eq_true, decide_eq_true_eq] at acked
    obtain ⟨entry, he, hi⟩ := List.any_eq_true.mp acked.2
    rcases (h _ _ run).1 1 1 1 none none acked.1 entry he (of_decide_eq_true hi).le with
      recovered | ⟨batch, durable, -⟩
    · have recovered : entry ∈ ([] : List (Entry Nat)) := recovered
      simp at recovered
    · exact not_durable_of_check unreported durable

end Ruft
