import Ruft.Exec

set_option autoImplicit false

/-!
# Who speaks as leader

`AppendEntries` and `InstallSnapshot` are messages of a leader. A core sends them from its
ticks, from responses, from the end of its own election and from reports of chunks it read.
The last of these does not look at the role, and a snapshot that is installed raises the
term without looking at it.

## Main definitions

- `Elected` — the history holds a quorum of votes for the term
- `Speaks` — every message of a leader is sent by a core that leads an election it won

## Main results

- `leader_speaks` — only elected leaders speak when chunks are read and terms are raised in
  the right role
- `deposed_sends_snapshot` — a follower sends the chunk it asked for as leader
-/

namespace Ruft

variable {C : Type} {c : RaftCore C} {event : Event C} {history : List (Record C)}

/-- The term of a message that only a leader sends. -/
def Message.leaderTerm : Message C → Option Nat
  | .appendEntries term _ _ _ _ _ => some term
  | .installSnapshot term _ _ _ _ => some term
  | _ => none

/-- The member granted its vote in the term. -/
def Heard (events : List (Event C)) (term : Nat) (member : NodeId) : Prop :=
  ∃ envelope, .messageReceived envelope ∈ events ∧ envelope.from_ = member ∧
    envelope.message = .voteResponse term true

/-- A tracker that counts the core's own vote and the votes it heard of in its term. -/
structure Counted (events : List (Event C)) (c : RaftCore C) (votes : QuorumTracker) : Prop where
  members : votes.members = c.config.members.toFinset
  granted_subset : votes.granted ⊆ votes.members
  own : c.config.localId ∈ votes.granted
  heard : ∀ n ∈ votes.granted, n = c.config.localId ∨ Heard events c.hardState.currentTerm n

/-- In some state of the history the core had recorded a quorum of votes for the term. -/
def Elected (history : List (Record C)) (term : Nat) : Prop :=
  ∃ r ∈ history, r.after.hardState.currentTerm = term ∧ ∃ votes, r.after.votes = some votes ∧
    votes.hasQuorum = true ∧ Counted (history.map (·.event)) r.after votes

/-- What a leader says in a step, it says as the leader of the term at the end of the step. -/
def Speaks (earlier : List (Record C)) (r : Record C) : Prop :=
  ∀ to_ m term, .sendMessage to_ m ∈ r.effects → m.leaderTerm = some term →
    r.after.role = .leader ∧ r.after.hardState.currentTerm = term ∧ Elected (r :: earlier) term

/-- A chunk is read for a leader. -/
def ReadsInRole (c : RaftCore C) : Event C → Prop
  | .effectCompleted id (.snapshotChunkRead snapshotId offset _ _) => ∀ to_ sender,
      c.pendingSnapshotReads.get id = some to_ → c.snapshotSenders.get to_ = some sender →
      snapshotId = sender.snapshot.metadata.id ∧ offset = sender.offset → c.role = .leader
  | _ => True

/-- An installed snapshot raises the term of a core that neither leads nor counts votes. -/
def InstallsInRole (c : RaftCore C) : Event C → Prop
  | .effectCompleted id (.snapshotInstalled _) => ∀ record from_ term,
      c.incomingSnapshotState = some (.installing id record from_ term) →
      c.hardState.currentTerm < term → c.role ≠ .leader ∧ c.votes = none ∧
        ∀ id stable, c.pendingPersist ≠ some ⟨id, stable, .activateLeader⟩
  | _ => True

def SpeaksInRole : Condition C := fun _ c event =>
  Room c ∧ ReadsInRole c event ∧ InstallsInRole c event

/-! ## Evidence only grows -/

theorem Heard.mono {events events' : List (Event C)} (h : events ⊆ events') {term : Nat}
    {n : NodeId} (heard : Heard events term n) : Heard events' term n := by
  obtain ⟨envelope, hmem, hfrom, hm⟩ := heard
  exact ⟨envelope, h hmem, hfrom, hm⟩

theorem Counted.mono {events events' : List (Event C)} (h : events ⊆ events') {d : RaftCore C}
    {votes : QuorumTracker} (counted : Counted events c votes) (config : d.config = c.config)
    (term : d.hardState.currentTerm = c.hardState.currentTerm) : Counted events' d votes where
  members := by rw [config]; exact counted.members
  granted_subset := counted.granted_subset
  own := by rw [config]; exact counted.own
  heard := by
    intro n hn
    rw [config, term]
    exact (counted.heard n hn).imp_right (Heard.mono h)

theorem Elected.mono {history' : List (Record C)} {term : Nat} (h : history ⊆ history')
    (elected : Elected history term) : Elected history' term := by
  obtain ⟨r, hr, current, votes, found, quorum, counted⟩ := elected
  exact ⟨r, h hr, current, votes, found, quorum, counted.mono (List.map_subset _ h) rfl rfl⟩

/-- The last record may end in another state with the same votes. -/
theorem Elected.after {result result' : Outcome StepError (StepOutput C)} {d d' : RaftCore C}
    {term : Nat} (config : d'.config = d.config)
    (same : d'.hardState.currentTerm = d.hardState.currentTerm) (votes : d'.votes = d.votes)
    (elected : Elected (⟨c, event, result, d⟩ :: history) term) :
    Elected (⟨c, event, result', d'⟩ :: history) term := by
  obtain ⟨r, hr, current, tracker, found, quorum, counted⟩ := elected
  rcases List.mem_cons.mp hr with rfl | hr
  · exact ⟨_, List.mem_cons_self .., same.trans current, tracker, votes.trans found, quorum,
      counted.mono (List.Subset.refl _) config same⟩
  · exact ⟨r, List.mem_cons_of_mem _ hr, current, tracker, found, quorum, counted⟩

/-- A quorum stays one. -/
theorem QuorumTracker.hasQuorum_record {q : QuorumTracker} {n : NodeId} {granted : Bool}
    (h : q.hasQuorum = true) : (q.record n granted).hasQuorum = true := by
  unfold QuorumTracker.record
  split
  · exact h
  split
  · have more := Finset.card_le_card (Finset.subset_insert n q.granted)
    exact decide_eq_true (le_trans (of_decide_eq_true h) more)
  · exact h

/-- A response is counted once. -/
theorem Counted.record {events : List (Event C)} {votes : QuorumTracker}
    (counted : Counted events c votes) {n : NodeId} {granted : Bool}
    (heard : granted = true → Heard events c.hardState.currentTerm n) :
    Counted events c (votes.record n granted) := by
  unfold QuorumTracker.record
  split
  · exact counted
  next known =>
  simp only [not_or, not_not] at known
  split
  · next yes =>
    refine ⟨counted.members, Finset.insert_subset known.1 counted.granted_subset,
      Finset.mem_insert_of_mem counted.own, ?_⟩
    intro m hm
    rcases Finset.mem_insert.mp hm with rfl | hm
    · exact .inr (heard yes)
    · exact counted.heard m hm
  · exact ⟨counted.members, counted.granted_subset, counted.own, counted.heard⟩

theorem Counted.withLocalVote (events : List (Event C)) (c : RaftCore C) :
    Counted events c (QuorumTracker.withLocalVote c.config.members c.config.localId) where
  members := rfl
  granted_subset := by simp [QuorumTracker.withLocalVote, c.config.local_mem]
  own := by simp [QuorumTracker.withLocalVote]
  heard := by simp [QuorumTracker.withLocalVote]

/-! ## The tally of a core -/

/-- A core that leads or is about to has won its term, and it counts the votes of its term. -/
structure Tally (history : List (Record C)) (c : RaftCore C) : Prop where
  leads : c.role = .leader → Elected history c.hardState.currentTerm
  activating : ∀ id stable, c.pendingPersist = some ⟨id, stable, .activateLeader⟩ →
    Elected history c.hardState.currentTerm
  counted : ∀ votes, c.votes = some votes → Counted (history.map (·.event)) c votes
  proposing : ∀ id stable, c.pendingPersist = some ⟨id, stable, .replicateProposal⟩ →
    c.role = .leader ∨ c.progress = .empty

/-- The slot holds what it held, or something that makes no leader speak. -/
def Idles (c d : RaftCore C) : Prop :=
  ∀ pending, d.pendingPersist = some pending → c.pendingPersist = some pending ∨
    pending.continuation ≠ .activateLeader ∧ pending.continuation ≠ .replicateProposal

theorem Idles.same {d : RaftCore C} (h : d.pendingPersist = c.pendingPersist) : Idles c d :=
  fun _ found => .inl (h ▸ found)

theorem Idles.done {d : RaftCore C} (h : d.pendingPersist = none) : Idles c d := by
  intro pending found
  simp [h] at found

theorem Idles.queued {s : Ctx C} {batch : PersistBatch C} {continuation : PersistContinuation}
    (h : continuation ≠ .activateLeader ∧ continuation ≠ .replicateProposal) :
    Idles c (s.queued batch continuation).core := by
  intro pending found
  simp only [Ctx.queued, Option.some.injEq] at found
  subst found
  exact .inr h

theorem Tally.keep {history' : List (Record C)} {d : RaftCore C} (h : Tally history c)
    (grows : history ⊆ history') (config : d.config = c.config)
    (term : d.hardState.currentTerm = c.hardState.currentTerm)
    (votes : d.votes = c.votes ∨ d.votes = none) (slot : Idles c d)
    (role : d.role = .leader → c.role = .leader)
    (progress : c.role = .leader ∨ c.progress = .empty → d.role = .leader ∨ d.progress = .empty) :
    Tally history' d where
  leads leader := by rw [term]; exact (h.leads (role leader)).mono grows
  activating := by
    intro id stable found
    rw [term]
    rcases slot _ found with old | new
    · exact (h.activating id stable old).mono grows
    · simp at new
  counted := by
    intro tracker found
    rcases votes with same | none
    · exact (h.counted tracker (same ▸ found)).mono (List.map_subset _ grows) config term
    · simp [none] at found
  proposing := by
    intro id stable found
    rcases slot _ found with old | new
    · exact progress (h.proposing id stable old)
    · simp at new

/-- A core that starts over and waits for nothing that makes a leader. -/
theorem Tally.fresh {s : Ctx C} {batch : PersistBatch C} {continuation : PersistContinuation}
    (role : s.core.role ≠ .leader)
    (slot : continuation ≠ .activateLeader ∧ continuation ≠ .replicateProposal)
    (counted : ∀ votes, s.core.votes = some votes →
      Counted (history.map (·.event)) s.core votes) :
    Tally history (s.queued batch continuation).core where
  leads leader := absurd leader role
  activating := by
    intro id stable found
    simp only [Ctx.queued, Option.some.injEq, PendingPersist.mk.injEq] at found
    exact absurd found.2.2 slot.1
  counted votes found := (counted votes found).mono (List.Subset.refl _) rfl rfl
  proposing := by
    intro id stable found
    simp only [Ctx.queued, Option.some.injEq, PendingPersist.mk.injEq] at found
    exact absurd found.2.2 slot.2

theorem Tally.messageAct {members : Finset NodeId} (h : Tally history c) {envelope : Envelope C}
    {s : Ctx C} {result : Outcome StepError (StepOutput C)}
    (act : MessageAct { c with activeMembers := members } envelope.from_ envelope.message s) :
    Tally (⟨c, .messageReceived envelope, result, s.core⟩ :: history) s.core := by
  have grows : history ⊆ ⟨c, .messageReceived envelope, result, s.core⟩ :: history :=
    List.subset_cons_self _ _
  have heard : ∀ {term granted}, envelope.message = .voteResponse term granted →
      granted = true → Heard
        (Record.event (C := C) ⟨c, .messageReceived envelope, result, s.core⟩ ::
          history.map (·.event)) term envelope.from_ := by
    rintro term granted hm rfl
    exact ⟨envelope, List.mem_cons_self .., rfl, hm⟩
  generalize hm : envelope.message = m at act heard
  cases act with
  | termRaised =>
    refine .fresh ?_ ?_ ?_ <;> simp [RaftCore.termRaised, RaftCore.becomeFollower]
  | voteNewer => refine .fresh ?_ ?_ ?_ <;> simp
  | voteFirst term index logTerm same =>
    exact h.keep grows rfl same.symm (.inl rfl) (.queued (by simp)) id id
  | preVoteCounted term granted votes role roles notLeader =>
    have notLeader : c.role = .preCandidate := notLeader
    refine h.keep grows rfl rfl (.inl rfl) (.same rfl) ?_ ?_
    · rcases roles with ⟨rfl, -⟩ | ⟨rfl, -⟩
      · exact id
      · simp
    · rw [notLeader]
      simp only [reduceCtorEq, false_or]
      exact .inr
  | campaigned =>
    refine .fresh ?_ ?_ ?_
    · simp [RaftCore.candidacy]
    · simp
    intro votes found
    obtain rfl : QuorumTracker.withLocalVote c.config.members c.config.localId = votes := by
      simpa [RaftCore.candidacy] using found
    exact .withLocalVote _ _
  | voteCounted term granted votes same candidate found =>
    have same : term = c.hardState.currentTerm := same
    subst same
    have counted := (h.counted votes found).mono (List.map_subset _ grows) rfl rfl
    have kept := h.keep (d := { c with activeMembers := members, votes := none }) grows rfl rfl
      (.inr rfl) (.same rfl) id id
    refine ⟨kept.leads, kept.activating, ?_, kept.proposing⟩
    rintro tracker ⟨⟩
    exact (counted.record (heard rfl)).mono (List.Subset.refl _) rfl rfl
  | voteLost term granted candidate =>
    have candidate : c.role = .candidate := candidate
    refine h.keep grows rfl rfl (.inr rfl) (.same rfl) (by simp) ?_
    rw [candidate]
    simp only [reduceCtorEq, false_or]
    exact id
  | elected term granted votes entry same candidate found won next =>
    have candidate : c.role = .candidate := candidate
    have same : term = c.hardState.currentTerm := same
    subst same
    have counted := (h.counted votes found).mono (List.map_subset _ grows) rfl rfl
    have recorded := counted.record (heard rfl)
    refine ⟨?_, ?_, ?_, ?_⟩
    · intro leader
      exact absurd (candidate.symm.trans leader) (by simp)
    · intro id stable _
      exact ⟨_, List.mem_cons_self .., rfl, _, rfl, won,
        recorded.mono (List.Subset.refl _) rfl rfl⟩
    · rintro tracker ⟨⟩
      exact recorded.mono (List.Subset.refl _) rfl rfl
    · intro id stable waiting
      simp [Ctx.queued] at waiting
  | appendFailed | appendRefused | appendHeld =>
    exact h.keep grows rfl rfl (.inr rfl) (.same rfl) (by simp [RaftCore.becomeFollower])
      fun _ => .inr rfl
  | appendRejected =>
    refine .fresh ?_ ?_ ?_ <;> simp [RaftCore.termRaised, RaftCore.becomeFollower]
  | appendAccepted =>
    refine .fresh ?_ ?_ ?_ <;> simp [RaftCore.merged, RaftCore.becomeFollower]
  | acknowledged term matchIndex conflict context p q leader =>
    exact h.keep grows rfl rfl (.inl rfl) (.same rfl) id fun _ => .inl leader
  | backedOff term matchIndex conflict context p q leader =>
    exact h.keep grows rfl rfl (.inl rfl) (.same rfl) id fun _ => .inl leader
  | senderDone term sender progress leader =>
    exact h.keep grows rfl rfl (.inl rfl) (.same rfl) id fun _ => .inl leader
  | _ => exact h.keep grows rfl rfl (.inl rfl) (.same rfl) id id

theorem Tally.completionAct [Sha256] (h : Tally history c) {id : EffectId}
    {outcome : EffectOutcome} {s : Ctx C} {result : Outcome StepError (StepOutput C)}
    (act : CompletionAct c id outcome s) (meets : InstallsInRole c (.effectCompleted id outcome)) :
    Tally (⟨c, .effectCompleted id outcome, result, s.core⟩ :: history) s.core := by
  have grows : history ⊆ ⟨c, .effectCompleted id outcome, result, s.core⟩ :: history :=
    List.subset_cons_self _ _
  cases act with
  | installed snapshotId record from_ term log found install =>
    by_cases newer : c.hardState.currentTerm < term
    · obtain ⟨notLeader, noVotes, idle⟩ := meets record from_ term found newer
      refine ⟨fun leader => absurd leader notLeader, fun id stable waits => ?_, ?_, h.proposing⟩
      · exact absurd waits (idle id stable)
      · intro votes counts
        exact absurd (noVotes.symm.trans counts) (by simp)
    · have term : max c.hardState.currentTerm term = c.hardState.currentTerm := by omega
      exact h.keep grows rfl term (.inl rfl) (.same rfl) (fun leader => leader) fun lead => lead
  | electedAlone stableThrough votes entry found counted won next =>
    have tally := (h.counted votes counted).mono (List.map_subset _ grows) rfl rfl
    refine ⟨fun leader => (h.leads leader).mono grows, ?_, ?_, ?_⟩
    · intro id stable _
      exact ⟨_, List.mem_cons_self .., rfl, votes, counted, won,
        tally.mono (List.Subset.refl _) rfl rfl⟩
    · intro tracker same
      obtain rfl : votes = tracker := Option.some.inj (counted.symm.trans same)
      exact tally.mono (List.Subset.refl _) rfl rfl
    · intro id stable waiting
      simp [Ctx.queued] at waiting
  | activated stableThrough found =>
    refine ⟨fun _ => (h.activating _ _ found).mono grows, ?_, ?_, fun _ _ _ => .inl rfl⟩
    · simp [RaftCore.activated, RaftCore.stabilized]
    · simp [RaftCore.activated]
  | persistDropped | persistDone | votesRequested | voteAnswered | appendAnswered =>
    exact h.keep grows rfl rfl (.inl rfl) (.done rfl) (fun leader => leader) fun lead => lead
  | _ =>
    exact h.keep grows rfl rfl (.inl rfl) (.same rfl) (fun leader => leader) fun lead => lead

theorem Tally.act [Sha256] (h : Tally history c) {s : Ctx C}
    {result : Outcome StepError (StepOutput C)} (act : Act c event s)
    (meets : InstallsInRole c event) :
    Tally (⟨c, event, result, s.core⟩ :: history) s.core := by
  have grows : history ⊆ ⟨c, event, result, s.core⟩ :: history := List.subset_cons_self _ _
  cases act with
  | preVoteStarted notLeader free =>
    refine h.keep grows rfl rfl (.inr rfl) (.same rfl) (by simp) ?_
    exact fun lead => .inr (lead.resolve_left notLeader)
  | campaigned notLeader free alone =>
    refine .fresh ?_ ?_ ?_
    · simp [RaftCore.candidacy]
    · simp
    rintro votes ⟨⟩
    exact .withLocalVote _ _
  | quorumLost =>
    exact h.keep grows rfl rfl (.inr rfl) (.same rfl) (by simp [RaftCore.becomeFollower])
      fun _ => .inr rfl
  | heartbeat leader =>
    exact h.keep grows rfl rfl (.inl rfl) (.same rfl) id fun _ => .inl leader
  | message envelope members s known mine act => exact h.messageAct act
  | proposed proposalId command encodedLen entry leader free next payload =>
    refine ⟨fun leader => (h.leads leader).mono grows, ?_, ?_, fun _ _ _ => .inl leader⟩
    · intro id stable waiting
      simp [Ctx.queued] at waiting
    · intro votes found
      exact (h.counted votes found).mono (List.map_subset _ grows) rfl rfl
  | readStarted readId context leader =>
    obtain ⟨round, hr⟩ := Ctx.roundStarted_core ⟨c, []⟩ readId
    rw [hr] at grows ⊢
    exact h.keep grows rfl rfl (.inl rfl) (.same rfl) id id
  | completed id outcome s act => exact h.completionAct act meets
  | _ => exact h.keep grows rfl rfl (.inl rfl) (.same rfl) id id

/-! ## The messages of a step -/

/-- What a core says as leader, it says in its role and term. -/
def Ctx.Spoken (s : Ctx C) : Prop :=
  ∀ to_ m term, .sendMessage to_ m ∈ s.effects → m.leaderTerm = some term →
    s.core.role = .leader ∧ s.core.hardState.currentTerm = term

theorem Ctx.spoken_silent {s : Ctx C}
    (h : ∀ to_ m, .sendMessage to_ m ∈ s.effects → m.leaderTerm = none) : s.Spoken := by
  intro to_ m term hmem is
  simp [h to_ m hmem] at is

theorem Refusal.leaderTerm {m : Message C} (h : Refusal c m) : m.leaderTerm = none := by
  cases h <;> rfl

/-- No handler of a message speaks as leader at once. -/
theorem MessageAct.silent {from_ to_ : NodeId} {m sent : Message C} {s : Ctx C}
    (act : MessageAct c from_ m s) (hmem : .sendMessage to_ sent ∈ s.effects) :
    sent.leaderTerm = none := by
  cases act with
  | refused m reply refusal =>
    simp only [List.mem_singleton, Effect.sendMessage.injEq] at hmem
    obtain ⟨-, rfl⟩ := hmem
    exact refusal.leaderTerm
  | appendRefused term prev prevTerm leaderCommit context entries same reply refusal =>
    simp only [List.mem_singleton, Effect.sendMessage.injEq] at hmem
    obtain ⟨-, rfl⟩ := hmem
    exact refusal.leaderTerm
  | voteAgain | appendHeld =>
    simp only [List.mem_singleton, Effect.sendMessage.injEq] at hmem
    obtain ⟨-, rfl⟩ := hmem
    rfl
  | _ => simp [Ctx.queued] at hmem

/-- The end of an effect makes the core speak as leader when it was a chunk that was read. -/
theorem CompletionAct.silent [Sha256] {id : EffectId} {outcome : EffectOutcome} {s : Ctx C}
    {to_ : NodeId} {sent : Message C} (act : CompletionAct c id outcome s)
    (hmem : .sendMessage to_ sent ∈ s.effects) :
    sent.leaderTerm = none ∨ ∃ snapshotId offset bytes done n sender,
      outcome = .snapshotChunkRead snapshotId offset bytes done ∧
      c.pendingSnapshotReads.get id = some n ∧ c.snapshotSenders.get n = some sender ∧
      (snapshotId = sender.snapshot.metadata.id ∧ offset = sender.offset) ∧
      s.core.role = c.role ∧ sent.leaderTerm = some s.core.hardState.currentTerm := by
  cases act with
  | chunkRead snapshotId offset bytes done n sender advanced pending found same moved =>
    simp only [List.mem_singleton, Effect.sendMessage.injEq] at hmem
    obtain ⟨-, rfl⟩ := hmem
    exact .inr ⟨snapshotId, offset, bytes, done, n, sender, rfl, pending, found, same, rfl, rfl⟩
  | installed | voteAnswered | appendAnswered =>
    simp only [List.mem_singleton, Effect.sendMessage.injEq] at hmem
    obtain ⟨-, rfl⟩ := hmem
    exact .inl rfl
  | votesRequested =>
    obtain ⟨n, -, heq⟩ := List.mem_map.mp hmem
    simp only [Effect.sendMessage.injEq] at heq
    obtain ⟨-, rfl⟩ := heq
    exact .inl rfl
  | applyDone => simp [Ctx.answered] at hmem
  | _ => simp [Ctx.queued] at hmem

theorem CompletionAct.spoken [Sha256] {id : EffectId} {outcome : EffectOutcome} {s : Ctx C}
    (act : CompletionAct c id outcome s)
    (meets : ReadsInRole c (.effectCompleted id outcome)) : s.Spoken := by
  intro to_ m term hmem is
  rcases act.silent hmem with
    silent | ⟨snapshotId, offset, bytes, done, n, sender, rfl, pending, found, same, role, now⟩
  · simp [silent] at is
  · exact ⟨role.trans (meets n sender pending found same), by simpa [now] using is⟩

/-- The heartbeats of a read round are those of a leader. -/
theorem Ctx.Spoken.roundStarted {s : Ctx C} (h : s.Spoken) (leader : s.core.role = .leader)
    (readId : ReadId) : (s.roundStarted readId).Spoken := by
  obtain ⟨round, hr⟩ := s.roundStarted_core readId
  intro to_ m term hmem is
  rw [hr]
  rcases Ctx.roundStarted_sends readId hmem with old | new
  · exact h to_ m term old is
  · cases new <;> exact ⟨leader, by simpa [Message.leaderTerm] using is⟩

theorem Act.spoken [Sha256] {s : Ctx C} (act : Act c event s) (meets : ReadsInRole c event) :
    s.Spoken := by
  cases act with
  | message envelope members s known mine act => exact Ctx.spoken_silent fun _ _ => act.silent
  | completed id outcome s act => exact act.spoken meets
  | preVoteStarted =>
    refine Ctx.spoken_silent fun to_ m hmem => ?_
    obtain ⟨n, -, heq⟩ := List.mem_map.mp hmem
    simp only [Effect.sendMessage.injEq] at heq
    obtain ⟨-, rfl⟩ := heq
    rfl
  | readStarted readId context leader =>
    exact (Ctx.spoken_silent (by simp)).roundStarted leader readId
  | _ =>
    refine Ctx.spoken_silent fun to_ m hmem => ?_
    simp [Ctx.queued] at hmem

/-- A proposal is made durable in a leader, or in a core that forgot its followers. -/
theorem Act.leading_of_proposed [Sha256] {s : Ctx C} (act : Act c event s)
    (proposed : Cause.Proposed ⟨c, event⟩) (h : c.role = .leader ∨ c.progress = .empty) :
    s.core.role = .leader ∨ s.core.progress = .empty := by
  cases act with
  | completed id outcome s act =>
    cases act with
    | activated => exact .inl rfl
    | _ => exact h
  | ignored => exact h
  | _ => exact absurd proposed not_false

theorem FollowUp.leading {cause : Cause C} {s s' : Ctx C} (hf : FollowUp cause s s')
    (h : s.core.role = .leader ∨ s.core.progress = .empty) :
    s'.core.role = .leader ∨ s'.core.progress = .empty := by
  rcases h with leader | none
  · exact .inl (hf.frame.role.trans leader)
  cases hf with
  | appendSent to_ p q prev prevTerm entries found => simp [none] at found
  | snapshotEntered to_ p found => simp [none] at found
  | readStarted readId rest =>
    obtain ⟨round, hr⟩ :=
      Ctx.roundStarted_core ⟨{ s.core with pendingReads := rest }, s.effects⟩ readId
    rw [hr]
    exact .inr none
  | _ => exact .inr none

theorem FollowUp.idles {cause : Cause C} {s s' : Ctx C} (hf : FollowUp cause s s') :
    Idles s.core s'.core := by
  rcases hf.pendingPersist with same | ⟨id, stable, committing⟩
  · exact .same same
  · intro pending found
    obtain rfl := Option.some.inj (committing.symm.trans found)
    exact .inr (by simp)

/-- The rest of a step keeps the tally. -/
theorem Tally.after {d d' : RaftCore C} {result result' : Outcome StepError (StepOutput C)}
    (h : Tally (⟨c, event, result, d⟩ :: history) d) (config : d'.config = d.config)
    (term : d'.hardState.currentTerm = d.hardState.currentTerm) (votes : d'.votes = d.votes)
    (role : d'.role = d.role) (slot : Idles d d')
    (progress : d.role = .leader ∨ d.progress = .empty → d'.role = .leader ∨ d'.progress = .empty) :
    Tally (⟨c, event, result', d'⟩ :: history) d' := by
  have elected : ∀ {term}, Elected (⟨c, event, result, d⟩ :: history) term →
      Elected (⟨c, event, result', d'⟩ :: history) term := Elected.after config term votes
  refine ⟨?_, ?_, ?_, ?_⟩
  · intro leader
    rw [term]
    exact elected (h.leads (role ▸ leader))
  · intro id stable found
    rw [term]
    rcases slot _ found with old | new
    · exact elected (h.activating id stable old)
    · simp at new
  · intro tracker found
    exact (h.counted tracker (votes ▸ found)).mono (List.Subset.refl _) config term
  · intro id stable found
    rcases slot _ found with old | new
    · exact progress (h.proposing id stable old)
    · simp at new

theorem Tally.followUp {cause : Cause C} {s s' : Ctx C}
    {result : Outcome StepError (StepOutput C)}
    (h : Tally (⟨c, event, result, s.core⟩ :: history) s.core) (hf : FollowUp cause s s') :
    Tally (⟨c, event, result, s'.core⟩ :: history) s'.core :=
  have frame := hf.frame
  h.after frame.config frame.term frame.votes frame.role hf.idles hf.leading

theorem Ctx.Spoken.followUp {s s' : Ctx C} (h : s.Spoken)
    (proposed : Cause.Proposed ⟨c, event⟩ → s.core.role = .leader ∨ s.core.progress = .empty)
    (hf : FollowUp ⟨c, event⟩ s s') : s'.Spoken := by
  have frame := hf.frame
  have old : ∀ to_ m term, .sendMessage to_ m ∈ s.effects → m.leaderTerm = some term →
      s'.core.role = .leader ∧ s'.core.hardState.currentTerm = term := by
    intro to_ m term hmem is
    rw [frame.role, frame.term]
    exact h to_ m term hmem is
  intro to_ m term hmem is
  rcases hf.sends hmem with before | new
  · exact old to_ m term before is
  rw [frame.role, frame.term]
  have current : s.core.hardState.currentTerm = term := by
    cases new <;> simpa [Message.leaderTerm] using is
  cases hf with
  | appendSent node p q prev prevTerm entries found next prevIs isBatch held matched nextPos may
      leading =>
    refine ⟨leading.elim id fun durable => (proposed durable).resolve_right fun none => ?_, current⟩
    simp [none] at found
  | readStarted readId rest leader => exact ⟨leader, current⟩
  | applied | chunkRequested | buildRequested | committed =>
    exact h to_ m term ((List.mem_append.mp hmem).resolve_right (by simp)) is
  | readReleased =>
    exact h to_ m term ((List.mem_append.mp hmem).resolve_right (by simp)) is
  | _ => exact h to_ m term hmem is

/-! ## Whole runs -/

/-- A core in the middle of a step. -/
structure Leading (history : List (Record C)) (c : RaftCore C) (event : Event C) (s : Ctx C) :
    Prop where
  law : Meets Speaks history
  tally : ∀ result, Tally (⟨c, event, result, s.core⟩ :: history) s.core
  proposed : Cause.Proposed ⟨c, event⟩ → s.core.role = .leader ∨ s.core.progress = .empty
  spoken : s.Spoken

theorem leading_keeps [Sha256] : Keeps (SpeaksInRole : Condition C)
    (fun history c => Meets Speaks history ∧ Tally history c) Leading
    (fun history _ => Meets Speaks history) where
  act := by
    intro history c event s hs h act
    obtain ⟨-, reads, installs⟩ := hs.meets
    refine ⟨h.1, fun _ => h.2.act act installs, fun proposed => ?_, act.spoken reads⟩
    refine act.leading_of_proposed proposed ?_
    cases event with
    | effectCompleted id outcome =>
      cases outcome with
      | persisted =>
        obtain ⟨stable, found⟩ := proposed
        exact h.2.proposing id stable found
      | _ => exact absurd proposed not_false
    | _ => exact absurd proposed not_false
  followUp _ _ _ h hf := ⟨h.law, fun result => (h.tally result).followUp hf,
    fun proposed => hf.leading (h.proposed proposed), h.spoken.followUp h.proposed hf⟩
  finished := by
    intro history c event s _ h
    obtain ⟨proposals, hp⟩ := s.finished_core c
    refine ⟨h.law, fun result => ?_, ?_, ?_⟩
    · rw [hp]
      exact (h.tally result).after rfl rfl rfl rfl (.same rfl) id
    · rw [hp]; exact h.proposed
    · intro to_ m term hmem is
      rw [hp]
      exact h.spoken to_ m term (Ctx.finished_sends c hmem) is
  returned := by
    intro history c event s changed _ h
    have tally := h.tally (.ok ⟨s.effects, changed⟩)
    refine ⟨⟨?_, h.law⟩, tally⟩
    intro to_ m term hmem is
    obtain ⟨leader, rfl⟩ := h.spoken to_ m term hmem is
    exact ⟨leader, rfl, tally.leads leader⟩
  failed e _ h _ := ⟨⟨by rintro _ _ _ ⟨⟩, h.law⟩, h.tally (Outcome.raise e)⟩
  safe h := h.1
  ended _ _ _ h := ⟨by rintro _ _ _ ⟨⟩, h.law⟩
  halted _ _ _ h _ := ⟨by rintro _ _ _ ⟨⟩, h.1⟩
  idle := by
    intro history c event result _ silent h
    exact ⟨by simp [Speaks, silent], h⟩

theorem RaftCore.new_tally (config : Config) (recovered : RecoveredState C) :
    Tally [] (RaftCore.new config recovered) where
  leads := by simp [RaftCore.new]
  activating := by simp [RaftCore.new]
  counted := by simp [RaftCore.new]
  proposing := by simp [RaftCore.new]

/-- Only elected leaders speak as leaders, along every run whose chunk reads and installs meet
the core in the right role. -/
theorem leader_speaks [Sha256] (config : NodeId → Config) (recovered : NodeId → RecoveredState C)
    {history : List (NodeId × Record C)} {cores : NodeId → RaftCore C}
    (run : Run (fun node => RaftCore.new (config node) (recovered node)) history cores)
    (node : NodeId) (inRole : Holds SpeaksInRole (localHistory history node)) :
    Meets Speaks (localHistory history node) :=
  (Trace.invariant leading_keeps (fun _ _ _ h => h.1) (RaftCore.new_wf _ _)
    ⟨trivial, RaftCore.new_tally _ _⟩ (run.trace node) inRole).1

/-- `SpeaksInRole` as a check. -/
def speaksInRoleCheck (c : RaftCore C) (event : Event C) : Bool :=
  Room c && match event with
    | .effectCompleted _ (.snapshotChunkRead _ _ _ _) => c.role = .leader
    | .effectCompleted _ (.snapshotInstalled _) => match c.incomingSnapshotState with
      | some (.installing _ _ _ term) => term ≤ c.hardState.currentTerm
      | _ => true
    | _ => true

theorem speaksInRole_of_check (history : List (Record C)) (c : RaftCore C) (event : Event C)
    (h : speaksInRoleCheck c event = true) : SpeaksInRole history c event := by
  unfold speaksInRoleCheck at h
  rw [Bool.and_eq_true] at h
  refine ⟨of_decide_eq_true h.1, ?_, ?_⟩
  · unfold ReadsInRole
    split
    · exact fun _ _ _ _ _ => of_decide_eq_true h.2
    · trivial
  · unfold InstallsInRole
    split
    · intro record from_ term found newer
      simp only [found, decide_eq_true_eq] at h
      omega
    · trivial

/-- The only chunk of the snapshot through index 2, sent to node 3. -/
def emptyChunk (term : Nat) : Effect Nat :=
  .sendMessage 3 (.installSnapshot term (emptyBody 7 2 1 Nat.two_pos Nat.zero_lt_one) 0 [] true)

/-- Node 1 is elected, replicates and sends node 3 a snapshot. -/
theorem leader_speaks_snapshot : ∃ w : World Nat,
    @Run Nat sha256Empty trio w.history (w.core trio) ∧
    (∃ r ∈ localHistory w.history 1, emptyChunk 1 ∈ r.effects) ∧
    Meets Speaks (localHistory w.history 1) := by
  let _ : Sha256 := sha256Empty
  obtain ⟨w, run, checked⟩ := World.exec_any trio Script.sendSnapshot
    (fun w => ((localHistory w.history 1).any fun r => emptyChunk 1 ∈ r.effects) &&
      (localHistory w.history 1).all fun r => speaksInRoleCheck r.before r.event)
    (by decide +kernel)
  rw [Bool.and_eq_true] at checked
  obtain ⟨r, hr, sends⟩ := List.any_eq_true.mp checked.1
  refine ⟨w, run, ⟨r, hr, of_decide_eq_true sends⟩, ?_⟩
  exact leader_speaks trioConfigs (fun _ => .initial) run 1
    (Holds.of_all speaksInRole_of_check checked.2)

/-- Node 1 asks for the chunk as leader and votes for node 2 before it has read it. -/
def deposedReading : List (Move Nat) := Script.commitTwo ++
  [.event 1 .snapshotRequested,
    Script.done 1 8 (.snapshotBuilt (emptyBody 7 2 1 Nat.two_pos Nat.zero_lt_one) ⟨[]⟩),
    Script.persisted 1 9, Script.done 1 10 (.compacted 2), Script.deliver 17,
    Script.applied 2 4 1, Script.elect 2, Script.deliver 19, Script.deliver 20,
    Script.persisted 2 5, Script.deliver 21, Script.done 1 11 (.snapshotChunkRead 7 0 [] true)]

theorem deposed_sends_snapshot : ¬ ∀ (history : List (NodeId × Record Nat))
    (cores : NodeId → RaftCore Nat), @Run Nat sha256Empty trio history cores →
    ∀ node, Meets Speaks (localHistory history node) := by
  let _ : Sha256 := sha256Empty
  intro h
  obtain ⟨w, run, bad⟩ := World.exec_any trio deposedReading
    (fun w => (localHistory w.history 1).head?.any fun r =>
      (emptyChunk 2 ∈ r.effects) && r.after.role = .follower)
    (by decide +kernel)
  have speaks := h _ _ run 1
  cases hl : localHistory w.history 1 with
  | nil => simp [hl] at bad
  | cons r earlier =>
    simp only [hl, List.head?_cons, Option.any_some, Bool.and_eq_true, decide_eq_true_eq] at bad
    rw [hl] at speaks
    have leader := (speaks.1 _ _ _ bad.1 rfl).1
    simp [bad.2] at leader

end Ruft
