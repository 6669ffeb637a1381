import Ruft.LogMatching

set_option autoImplicit false

/-!
# What the leader knows of its followers

A follower that accepts an append acknowledges the last index of its own log, and the leader
takes this as the index up to which their logs agree. They do when the append changed the log,
or reached its end, or found an entry of its own term there.

## Main definitions

- `Acked` — the core accepted an append, and its log then had so many entries
- `ProvesWhole` — an append that is accepted proves the whole log of the follower

## Main results

- `match_index_sound` — what a leader has recorded of a follower is so, when every accepted
  append proves the whole log
- `match_index_overstated` — a leader has recorded an entry that the follower does not have
-/

namespace Ruft

open LeaderLogs

variable {C : Type} {c : RaftCore C} {event : Event C} {history : List (Record C)}

/-- The core accepted an append of the term, and its log then had `m` entries. -/
inductive Accepted (c : RaftCore C) (event : Event C) (d : RaftCore C) (term m : Nat)
    (context : Option Bytes) : Prop
  | mk (envelope : Envelope C) (prev prevTerm leaderCommit : Nat)
      (entries : List (Entry C)) (log : RaftLog C) (appended : List (Entry C))
      (received : event = .messageReceived envelope)
      (message : envelope.message = .appendEntries term prev prevTerm leaderCommit context entries)
      (reached : c.hardState.currentTerm ≤ term) (current : d.hardState.currentTerm = term)
      (prefix_ : c.log.term prev = .ok prevTerm) (merge : c.log.Merged entries log appended)
      (is : d.log.entries = log.entries) (length : d.log.entries.length = m)

def Acked (history : List (Record C)) (term m : Nat) (context : Option Bytes) : Prop :=
  ∃ r ∈ history, Accepted r.before r.event r.after term m context

/-- The member acknowledged the index in the term. -/
def Credited (events : List (Event C)) (term : Nat) (member : NodeId) (m : Nat) : Prop :=
  ∃ envelope matchIndex conflict context, .messageReceived envelope ∈ events ∧
    envelope.from_ = member ∧
    envelope.message = .appendEntriesResponse term true matchIndex conflict context ∧
    m ≤ matchIndex

/-- The core acknowledges `m` entries once they are durable. -/
def RaftCore.Owes (c : RaftCore C) (term m : Nat) (context : Option Bytes) : Prop :=
  ∃ id stable to_ r, c.pendingPersist = some ⟨id, stable, .sendAppendEntriesResponse to_ r⟩ ∧
    r.success = true ∧ r.term = term ∧ r.matchIndex = m ∧ r.readContext = context

/-- What a leader has recorded of its followers was acknowledged in its term. -/
def RaftCore.Credits (events : List (Event C)) (c : RaftCore C) : Prop :=
  c.role = .leader → ∀ n p, c.progress.get n = some p → p.matchIndex = 0 ∨
    p.matchIndex ≤ c.log.entries.length ∧
      Credited events c.hardState.currentTerm n p.matchIndex

theorem Accepted.keep {d d' : RaftCore C} {term m : Nat} {context : Option Bytes}
    (h : Accepted c event d term m context)
    (same : d'.hardState.currentTerm = d.hardState.currentTerm)
    (entries : d'.log.entries = d.log.entries) : Accepted c event d' term m context := by
  obtain ⟨envelope, prev, prevTerm, leaderCommit, es, log, appended, received, message,
    reached, current, prefix_, merge, is, length⟩ := h
  exact ⟨envelope, prev, prevTerm, leaderCommit, es, log, appended, received, message,
    reached, same.trans current, prefix_, merge, entries.trans is, entries ▸ length⟩

theorem Acked.mono {history' : List (Record C)} {term m : Nat} {context : Option Bytes}
    (h : Acked history term m context) (grows : history ⊆ history') :
    Acked history' term m context := by
  obtain ⟨r, hr, accepted⟩ := h
  exact ⟨r, grows hr, accepted⟩

theorem Credited.mono {events events' : List (Event C)} {term m : Nat} {n : NodeId}
    (h : Credited events term n m) (grows : events ⊆ events') : Credited events' term n m := by
  obtain ⟨envelope, matchIndex, conflict, context, received, rest⟩ := h
  exact ⟨envelope, matchIndex, conflict, context, grows received, rest⟩

theorem Credited.le {events : List (Event C)} {term m k : Nat} {n : NodeId}
    (h : Credited events term n m) (le : k ≤ m) : Credited events term n k := by
  obtain ⟨envelope, matchIndex, conflict, context, received, from_, message, reached⟩ := h
  exact ⟨envelope, matchIndex, conflict, context, received, from_, message, le.trans reached⟩

/-! ## Acknowledgements of one step -/

theorem RaftCore.Owes.queued {s : Ctx C} {batch : PersistBatch C} {term m : Nat}
    {context : Option Bytes} {continuation : PersistContinuation}
    (h : (s.queued batch continuation).core.Owes term m context) :
    ∃ to_ r, continuation = .sendAppendEntriesResponse to_ r ∧ r.success = true ∧
      r.term = term ∧ r.matchIndex = m ∧ r.readContext = context := by
  obtain ⟨id, stable, to_, r, found, rest⟩ := h
  simp only [Ctx.queued, Option.some.injEq, PendingPersist.mk.injEq] at found
  exact ⟨to_, r, found.2.2, rest⟩

theorem MessageAct.owes {members : Finset NodeId} {envelope : Envelope C} {s : Ctx C} {term m : Nat}
    {context : Option Bytes} (bare : c.Bare)
    (act : MessageAct { c with activeMembers := members } envelope.from_ envelope.message s)
    (h : s.core.Owes term m context) :
    c.Owes term m context ∨ Accepted c (.messageReceived envelope) s.core term m context := by
  generalize hm : envelope.message = message at act
  cases act with
  | appendAccepted t prev prevTerm leaderCommit ctx entries log appended hardState reached
      prefix_ run merge wf =>
    obtain ⟨to_, r, is, -, rfl, rfl, rfl⟩ := h.queued
    simp only [PersistContinuation.sendAppendEntriesResponse.injEq] at is
    obtain ⟨-, rfl⟩ := is
    refine .inr ⟨envelope, prev, prevTerm, leaderCommit, entries, log, appended, rfl, hm,
      reached, rfl, prefix_, merge, rfl, ?_⟩
    exact (wf.length_eq (merge.snapshot_eq.trans bare.log)).symm
  | appendRejected =>
    obtain ⟨to_, r, is, success, -⟩ := h.queued
    simp only [PersistContinuation.sendAppendEntriesResponse.injEq] at is
    simp [← is.2] at success
  | termRaised | voteNewer | voteFirst | campaigned | elected =>
    obtain ⟨to_, r, is, -⟩ := h.queued
    simp at is
  | _ => exact .inl h

theorem Act.owes [Sha256] {s : Ctx C} {term m : Nat} {context : Option Bytes} (bare : c.Bare)
    (act : Act c event s) (h : s.core.Owes term m context) :
    c.Owes term m context ∨ Accepted c event s.core term m context := by
  cases act with
  | message envelope members s known mine act => exact act.owes bare h
  | completed id outcome s act =>
    cases act with
    | electedAlone =>
      obtain ⟨to_, r, is, -⟩ := h.queued
      simp at is
    | persistDropped | persistDone | votesRequested | voteAnswered | appendAnswered | activated =>
      obtain ⟨i, stable, to_, r, found, -⟩ := h
      simp [RaftCore.activated, RaftCore.stabilized] at found
    | _ => exact .inl h
  | campaigned | proposed =>
    obtain ⟨to_, r, is, -⟩ := h.queued
    simp at is
  | readStarted readId =>
    obtain ⟨round, hr⟩ := Ctx.roundStarted_core ⟨c, []⟩ readId
    rw [hr] at h
    exact .inl h
  | _ => exact .inl h

/-- A core acknowledges an append at once or when its batch is durable. -/
theorem Act.acknowledges [Sha256] {s : Ctx C} {to_ : NodeId} {term m : Nat}
    {conflict : Option ConflictHint} {context : Option Bytes} (wf : c.WF) (bare : c.Bare)
    (act : Act c event s)
    (h : .sendMessage to_ (.appendEntriesResponse term true m conflict context) ∈ s.effects) :
    c.Owes term m context ∨ Accepted c event s.core term m context := by
  cases act with
  | message envelope members s known mine act =>
    obtain ⟨cluster, from_, to_, message⟩ := envelope
    dsimp only at act
    cases act with
    | refused m reply refusal =>
      simp only [List.mem_singleton, Effect.sendMessage.injEq] at h
      obtain ⟨-, rfl⟩ := h
      cases refusal
    | appendRefused t prev prevTerm leaderCommit ctx entries same reply refusal =>
      simp only [List.mem_singleton, Effect.sendMessage.injEq] at h
      obtain ⟨-, rfl⟩ := h
      cases refusal
    | appendHeld t prev prevTerm leaderCommit ctx entries same prefix_ held committed =>
      simp only [List.mem_singleton, Effect.sendMessage.injEq,
        Message.appendEntriesResponse.injEq] at h
      obtain ⟨-, rfl, -, rfl, -, rfl⟩ := h
      have same : c.hardState.currentTerm = term := same
      exact .inr ⟨_, prev, prevTerm, leaderCommit, entries, c.log, [], rfl, rfl, same.le, same,
        prefix_, .same held, rfl, (wf.log.length_eq bare.log).symm⟩
    | voteAgain => simp at h
    | _ => simp [Ctx.queued] at h
  | completed id outcome s act =>
    cases act with
    | appendAnswered stable n r found =>
      simp only [List.mem_singleton, Effect.sendMessage.injEq,
        Message.appendEntriesResponse.injEq] at h
      obtain ⟨-, rfl, success, rfl, -, rfl⟩ := h
      exact .inl ⟨id, stable, n, r, found, success.symm, rfl, rfl, rfl⟩
    | votesRequested => simp [toPeers] at h
    | chunkRead | installed | voteAnswered => simp at h
    | applyDone => simp [Ctx.answered] at h
    | _ => simp [Ctx.queued] at h
  | preVoteStarted => simp [toPeers] at h
  | readStarted readId =>
    rcases Ctx.roundStarted_sends readId h with hold | hr
    · simp at hold
    · cases hr
  | _ => simp [Ctx.queued] at h

theorem FollowUp.owes {cause : Cause C} {s s' : Ctx C} {term m : Nat} {context : Option Bytes}
    (hf : FollowUp cause s s') (h : s'.core.Owes term m context) : s.core.Owes term m context := by
  obtain ⟨id, stable, to_, r, found, rest⟩ := h
  rcases hf.pendingPersist with same | ⟨id', stable', committing⟩
  · exact ⟨id, stable, to_, r, same ▸ found, rest⟩
  · exact absurd (committing.symm.trans found) (by simp)

/-! ## What the leader records -/

theorem RaftCore.Credits.keep {events events' : List (Event C)} {d : RaftCore C}
    (h : c.Credits events) (grows : events ⊆ events') (role : d.role = .leader → c.role = .leader)
    (term : d.hardState.currentTerm = c.hardState.currentTerm)
    (entries : c.log.entries <+: d.log.entries)
    (progress : ∀ n q, d.progress.get n = some q →
      ∃ p, c.progress.get n = some p ∧ q.matchIndex = p.matchIndex) : d.Credits events' := by
  intro leader n q found
  obtain ⟨p, was, same⟩ := progress n q found
  rw [same, term]
  exact (h (role leader) n p was).imp_right fun ⟨le, credited⟩ =>
    ⟨le.trans entries.length_le, credited.mono grows⟩

theorem RaftCore.Credits.same {events events' : List (Event C)} {d : RaftCore C}
    (h : c.Credits events) (grows : events ⊆ events') (role : d.role = .leader → c.role = .leader)
    (term : d.hardState.currentTerm = c.hardState.currentTerm)
    (entries : c.log.entries <+: d.log.entries) (progress : d.progress = c.progress) :
    d.Credits events' :=
  h.keep grows role term entries fun _ q found => ⟨q, progress ▸ found, rfl⟩

theorem RaftCore.Credits.follower {events : List (Event C)} (h : c.role ≠ .leader) :
    c.Credits events := fun leader => absurd leader h

/-- A response of a follower is recorded. -/
theorem RaftCore.Credits.insert {events events' : List (Event C)} (h : c.Credits events)
    (grows : events ⊆ events') {n : NodeId} {p q : Progress} (found : c.progress.get n = some p)
    (matched : q.matchIndex = p.matchIndex ∨ q.matchIndex ≤ c.log.entries.length ∧
      Credited events' c.hardState.currentTerm n q.matchIndex) :
    { c with progress := c.progress.insert n q }.Credits events' := by
  intro leader node q' found'
  simp only [BTreeMap.get_insert] at found'
  split at found'
  · next is =>
    subst is
    obtain rfl := Option.some.inj found'
    rcases matched with same | new
    · rw [same]
      rcases h leader node p found with zero | ⟨le, credited⟩
      · exact .inl zero
      · exact .inr ⟨le, credited.mono grows⟩
    · exact .inr new
  · rcases h leader node q' found' with zero | ⟨le, credited⟩
    · exact .inl zero
    · exact .inr ⟨le, credited.mono grows⟩

theorem MessageAct.credits {events : List (Event C)} {members : Finset NodeId}
    {envelope : Envelope C} {s : Ctx C} (wf : c.WF) (bare : c.Bare) (h : c.Credits events)
    (act : MessageAct { c with activeMembers := members } envelope.from_ envelope.message s) :
    s.core.Credits (.messageReceived envelope :: events) := by
  have grows : events ⊆ .messageReceived envelope :: events := List.subset_cons_self _ _
  have last := wf.log.length_eq bare.log
  have h' : ({ c with activeMembers := members } : RaftCore C).Credits events := h
  generalize hm : envelope.message = message at act
  cases act with
  | acknowledged term matchIndex conflict context p q leader same found matched =>
    refine h'.insert grows found (matched.imp_right fun is => ⟨?_, ?_⟩)
    · rw [is]
      exact (min_le_right _ _).trans last.le
    · rw [← same]
      exact ⟨envelope, matchIndex, conflict, context, List.mem_cons_self .., rfl, hm,
        is.trans_le (min_le_left _ _)⟩
  | backedOff term matchIndex conflict context p q leader same found matched =>
    exact h'.insert grows found (.inl matched)
  | senderDone term sender progress leader same found => simp [bare.senders] at found
  | termRaised | voteNewer | appendFailed | appendRefused | appendRejected | appendHeld
  | appendAccepted => exact .follower (by simp [Ctx.queued, RaftCore.termRaised, RaftCore.merged,
      RaftCore.becomeFollower])
  | preVoteCounted term granted votes role roles notLeader =>
    refine .follower ?_
    have notLeader : c.role = .preCandidate := notLeader
    rcases roles with ⟨rfl, -⟩ | ⟨rfl, -⟩ <;> simp [notLeader]
  | campaigned => exact .follower (by simp [Ctx.queued, RaftCore.candidacy])
  | voteLost => exact .follower (by simp)
  | elected term granted votes entry same candidate =>
    have candidate : c.role = .candidate := candidate
    exact .follower (by simp [Ctx.queued, RaftCore.noopAppended, candidate])
  | voteFirst term index logTerm same =>
    exact h'.same grows id same.symm (List.prefix_refl _) rfl
  | _ => exact h'.same grows id rfl (List.prefix_refl _) rfl

theorem RaftCore.activated_credits (events : List (Event C)) (c : RaftCore C) :
    c.activated.Credits events := by
  intro _ n p found
  simp only [RaftCore.activated] at found
  rw [BTreeMap.get_foldl_insert] at found
  split at found
  · obtain rfl := Option.some.inj found
    exact .inl rfl
  · simp at found

theorem Act.credits [Sha256] {events : List (Event C)} {s : Ctx C} (wf : c.WF) (bare : c.Bare)
    (h : c.Credits events) (act : Act c event s) : s.core.Credits (event :: events) := by
  have grows : events ⊆ event :: events := List.subset_cons_self _ _
  cases act with
  | message envelope members s known mine act => exact act.credits wf bare h
  | completed effect outcome s act =>
    cases act with
    | activated => exact RaftCore.activated_credits _ _
    | electedAlone => exact h.same grows id rfl (List.prefix_append _ _) rfl
    | installed snapshotId record from_ term log found => simp [bare.incoming] at found
    | compacted record log found => exact absurd found (bare.compacting _ _)
    | _ => exact h.same grows id rfl (List.prefix_refl _) rfl
  | preVoteStarted => exact .follower (by simp)
  | campaigned => exact .follower (by simp [Ctx.queued, RaftCore.candidacy])
  | quorumLost => exact .follower (by simp [RaftCore.becomeFollower])
  | heartbeat =>
    refine h.keep grows id rfl (List.prefix_refl _) fun n q found => ?_
    rw [BTreeMap.get_mapValues] at found
    obtain ⟨p, was, rfl⟩ := Option.map_eq_some_iff.mp found
    exact ⟨p, was, rfl⟩
  | proposed => exact h.same grows id rfl (List.prefix_append _ _) rfl
  | readStarted readId =>
    obtain ⟨round, hr⟩ := Ctx.roundStarted_core ⟨c, []⟩ readId
    rw [hr]
    exact h.same grows id rfl (List.prefix_refl _) rfl
  | _ => exact h.same grows id rfl (List.prefix_refl _) rfl

theorem FollowUp.credits {events : List (Event C)} {cause : Cause C} {s s' : Ctx C}
    (hf : FollowUp cause s s') (h : s.core.Credits events) : s'.core.Credits events := by
  cases hf with
  | appendSent to_ p q prev prevTerm entries found next term isBatch held matched =>
    exact h.insert (List.Subset.refl _) found (.inl matched)
  | snapshotEntered to_ p found => exact h.insert (List.Subset.refl _) found (.inl rfl)
  | readStarted readId rest =>
    obtain ⟨round, hr⟩ :=
      Ctx.roundStarted_core ⟨{ s.core with pendingReads := rest }, s.effects⟩ readId
    rw [hr]
    exact h
  | _ => exact h

/-! ## Whole runs -/

/-- The acknowledgements of a core and of the followers it heard. -/
structure Accounts (history : List (Record C)) (c : RaftCore C) : Prop where
  sent : ∀ r ∈ history, ∀ to_ term m conflict context,
    .sendMessage to_ (.appendEntriesResponse term true m conflict context) ∈ r.effects →
      Acked history term m context
  credits : c.Credits (history.map (·.event))

/-- A core in the middle of a step. -/
structure Accounting (history : List (Record C)) (c : RaftCore C) (event : Event C) (s : Ctx C) :
    Prop where
  sent : ∀ r ∈ history, ∀ to_ term m conflict context,
    .sendMessage to_ (.appendEntriesResponse term true m conflict context) ∈ r.effects →
      Acked history term m context
  credits : s.core.Credits (event :: history.map (·.event))
  owes : ∀ term m context, s.core.Owes term m context →
    Acked history term m context ∨ Accepted c event s.core term m context
  acks : ∀ to_ term m conflict context,
    .sendMessage to_ (.appendEntriesResponse term true m conflict context) ∈ s.effects →
      Acked history term m context ∨ Accepted c event s.core term m context

def Unsnapshotted : Condition C := fun _ c event => Room c ∧ c.Bare ∧ event.bringsSnapshot = false

/-- The step ends in a core with the same log and the same followers. -/
theorem Accounting.record {s : Ctx C} {d : RaftCore C} (h : Accounting history c event s)
    (result : Outcome StepError (StepOutput C))
    (sends : ∀ e, e ∈ (Record.mk c event result d).effects → e ∈ s.effects)
    (log : d.log = s.core.log) (term : d.hardState.currentTerm = s.core.hardState.currentTerm)
    (role : d.role = s.core.role) (progress : d.progress = s.core.progress) :
    Accounts (⟨c, event, result, d⟩ :: history) d where
  sent := by
    refine List.forall_mem_cons.mpr ⟨fun to_ t m conflict context sent => ?_,
      fun r hr to_ t m conflict context sent => ?_⟩
    · rcases h.acks to_ t m conflict context (sends _ sent) with old | now
      · exact old.mono (List.subset_cons_self _ _)
      · exact ⟨_, List.mem_cons_self .., now.keep term (by rw [log])⟩
    · exact (h.sent r hr to_ t m conflict context sent).mono (List.subset_cons_self _ _)
  credits := h.credits.same (List.Subset.refl _) (fun leader => role ▸ leader) term
    (by rw [log]) progress

/-- What the core owes after the step. -/
theorem Accounting.owed {s : Ctx C} (h : Accounting history c event s)
    (result : Outcome StepError (StepOutput C)) :
    ∀ term m context, s.core.Owes term m context →
      Acked (⟨c, event, result, s.core⟩ :: history) term m context := by
  intro term m context owes
  rcases h.owes term m context owes with old | now
  · exact old.mono (List.subset_cons_self _ _)
  · exact ⟨_, List.mem_cons_self .., now⟩

theorem accounting_keeps [Sha256] : Keeps (Unsnapshotted : Condition C)
    (fun history c => Accounts history c ∧
      ∀ term m context, c.Owes term m context → Acked history term m context)
    Accounting Accounts where
  act := by
    intro history c event s hs h act
    obtain ⟨accounts, owed⟩ := h
    obtain ⟨-, bare, -⟩ := hs.meets
    refine ⟨accounts.sent, act.credits hs.wf bare accounts.credits, ?_, ?_⟩
    · intro term m context owes
      exact (act.owes bare owes).imp_left (owed term m context)
    · intro to_ term m conflict context sent
      exact (act.acknowledges hs.wf bare sent).imp_left (owed term m context)
  followUp := by
    intro history c event s₀ s s' _ _ _ h hf
    have frame := hf.frame
    refine ⟨h.sent, hf.credits h.credits, ?_, ?_⟩
    · intro term m context owes
      exact (h.owes term m context (hf.owes owes)).imp_right fun now => now.keep frame.term frame.entries
    · intro to_ term m conflict context sent
      rcases hf.sends sent with old | new
      · exact (h.acks to_ term m conflict context old).imp_right fun now =>
          now.keep frame.term frame.entries
      · cases new
  finished := by
    intro history c event s _ h
    obtain ⟨proposals, hp⟩ := s.finished_core c
    refine ⟨h.sent, by rw [hp]; exact h.credits, ?_, ?_⟩
    · rw [hp]
      intro term m context owes
      exact (h.owes term m context owes).imp_right fun now => now.keep rfl rfl
    · rw [hp]
      intro to_ term m conflict context sent
      exact (h.acks to_ term m conflict context (Ctx.finished_sends c sent)).imp_right fun now =>
        now.keep rfl rfl
  returned changed _ h := ⟨h.record _ (fun _ he => he) rfl rfl rfl rfl, h.owed _⟩
  failed e _ h _ := ⟨h.record (Outcome.raise e) (by rintro _ ⟨⟩) rfl rfl rfl rfl, h.owed _⟩
  safe h := h.1
  ended e reason _ h := h.record (Outcome.raise e) (by rintro _ ⟨⟩) rfl rfl rfl rfl
  halted := by
    intro history c c' event e reason _ h halted
    obtain ⟨-, reads, store, incoming, building, applying, persist, rfl⟩ := halted
    refine ⟨List.forall_mem_cons.mpr ⟨by rintro _ _ _ _ _ ⟨⟩, fun r hr to_ t m conflict context sent =>
      (h.1.sent r hr to_ t m conflict context sent).mono (List.subset_cons_self _ _)⟩, ?_⟩
    exact h.1.credits.same (List.subset_cons_self _ _) id rfl (List.prefix_refl _) rfl
  idle := by
    intro history c event result _ silent h
    refine ⟨List.forall_mem_cons.mpr ⟨by simp [silent], fun r hr to_ t m conflict context sent =>
      (h.sent r hr to_ t m conflict context sent).mono (List.subset_cons_self _ _)⟩, ?_⟩
    exact h.credits.same (List.subset_cons_self _ _) id rfl (List.prefix_refl _) rfl

theorem RaftCore.new_accounts (config : Config) :
    Accounts [] (RaftCore.new config (.initial : RecoveredState C)) ∧
      ∀ term m context, (RaftCore.new config (.initial : RecoveredState C)).Owes term m context →
        Acked ([] : List (Record C)) term m context :=
  ⟨⟨by simp, .follower (by simp [RaftCore.new])⟩, by simp [RaftCore.Owes, RaftCore.new]⟩

theorem quotingAccounting_keeps [Sha256] : Keeps (Snapshotless : Condition C)
    (fun history c => Quoted history c ∧ Accounts history c ∧
      ∀ term m context, c.Owes term m context → Acked history term m context)
    (fun history c event s => Quoting history c event s ∧ Accounting history c event s ∧
      Unsnapshotted history c event)
    (fun history c => ((∀ r ∈ history, Faithful history r) ∧ c.log.WF ∧ c.log.snapshot = none) ∧
      Accounts history c) :=
  quoting_keeps.and accounting_keeps fun hs h => ⟨hs.meets.1, h.bare, hs.meets.2⟩

theorem Trace.accounts [Sha256] {config : Config}
    (run : Trace (RaftCore.new config .initial) history c) (plain : Holds Snapshotless history) :
    Accounts history c :=
  (Trace.invariant quotingAccounting_keeps (fun _ _ _ h => h.1) (RaftCore.new_wf config _)
    ⟨RaftCore.new_quoted config, RaftCore.new_accounts config⟩ run plain).1.2

/-! ## The cluster -/

/-- An append that is accepted and changes nothing reaches the end of the log or finds an entry
of its own term there. -/
def ProvesWhole (c : RaftCore C) : Event C → Prop
  | .messageReceived envelope => match envelope.message with
    | .appendEntries term prev prevTerm _ _ entries =>
      c.hardState.currentTerm ≤ term → c.log.term prev = .ok prevTerm →
      (∀ e ∈ entries, c.log.term e.index = .ok e.term) →
      c.log.lastIndex ≤ prev + entries.length ∨ c.log.term c.log.lastIndex = .ok term
    | _ => True
  | _ => True

section Cluster

variable [Sha256] {config : NodeId → Config} {members : List NodeId}
  {history : List (NodeId × Record C)} {cores : NodeId → RaftCore C}

/-- After an append was accepted, the whole log is a copy of the leader's. -/
theorem Cluster.accepted_copies (h : Cluster config members history cores)
    (whole : ∀ p ∈ history, ProvesWhole p.2.before p.2.event) {node : NodeId} {r : Record C}
    (hr : (node, r) ∈ history) {term m : Nat} {context : Option Bytes}
    (accepted : Accepted r.before r.event r.after term m context) :
    ∃ L, LeaderLog history term L ∧ r.after.log.entries <+: L := by
  obtain ⟨copied, wf, bare⟩ := h.visited (h.run.before_cases hr)
  obtain ⟨envelope, prev, prevTerm, leaderCommit, entries, log, appended, received,
    message, reached, current, prefix_, merge, is, length⟩ := accepted
  obtain ⟨s, hs, leads, at_, cut, consecutive, -⟩ :=
    h.append_sent (h.run.sent hr received).2 message
  have copiedS := h.run.copied h.common h.unbuilt h.room _ hs
  have spliced := merge.spliced wf bare consecutive
  have before := (wf.term_eq_ok_iff bare).mp prefix_
  rw [← is] at spliced
  by_cases same : r.after.log.entries = r.before.log.entries
  · have held := spliced.held_of_eq same
    have proves := whole _ hr
    simp only [ProvesWhole, received, message] at proves
    have all : ∀ e ∈ entries, r.before.log.term e.index = .ok e.term := by
      intro e he
      obtain ⟨k, hk⟩ := List.mem_iff_getElem?.mp he
      rw [wf.term_eq_ok_iff bare, consecutive.index hk, Nat.add_right_comm]
      exact held k e hk
    rw [same]
    rcases proves reached prefix_ all with ends | own
    · refine ⟨_, leads, ?_⟩
      have agree := copied.take_held h.comparable copiedS before at_ cut le_rfl
        fun k e _ found => held k e found
      rw [wf.length_eq bare] at ends
      rw [List.take_of_length_le ends] at agree
      rw [agree]
      exact List.take_prefix _ _
    · rw [wf.length_eq bare, wf.term_eq_ok_iff bare] at own
      rcases own with ⟨empty, -⟩ | ⟨e, pos, found, rfl⟩
      · exact ⟨_, leads, by rw [List.eq_nil_of_length_eq_zero empty]; exact List.nil_prefix⟩
      · obtain ⟨L, leadsL, same⟩ := copied _ e found
        rw [Nat.sub_add_cancel pos, List.take_length] at same
        exact ⟨L, leadsL, same ▸ List.take_prefix _ _⟩
  · exact ⟨_, leads, spliced.prefix_of_ne h.comparable copied copiedS before at_ cut same⟩

/-- The log of a leader is a log of the winner of its term. -/
theorem Cluster.leaderLog (h : Cluster config members history cores) {node : NodeId}
    (leader : (cores node).role = .leader) :
    LeaderLog history (cores node).hardState.currentTerm (cores node).log.entries := by
  have won := (h.ledger node).now.leads leader
  rcases h.run.core_cases node with first | ⟨r, hr, is⟩
  · rw [first] at leader
    simp [RaftCore.new] at leader
  · exact ⟨node, r, hr, won, by rw [is], by rw [is]⟩

theorem Cluster.accounts (h : Cluster config members history cores) (node : NodeId) :
    Accounts (localHistory history node) (cores node) :=
  Trace.accounts (h.run.trace node) (h.run.snapshotless h.unbuilt h.room node)

/-- Whoever acknowledged an index had accepted an append of the term. -/
theorem Cluster.acked (h : Cluster config members history cores) {node f : NodeId} {term m : Nat}
    (credited : Credited ((localHistory history node).map (·.event)) term f m) :
    ∃ r k context, (f, r) ∈ history ∧ m ≤ k ∧ Accepted r.before r.event r.after term k context := by
  obtain ⟨envelope, k, conflict, context, received, rfl, message, le⟩ := credited
  obtain ⟨s, hs, is⟩ := List.mem_map.mp received
  obtain ⟨-, q, hq, sent⟩ := h.run.sent (mem_localHistory.mp hs) is
  rw [message] at sent
  obtain ⟨r, hr, accepted⟩ :=
    (h.accounts envelope.from_).sent q (mem_localHistory.mpr hq) _ _ _ _ _ sent
  exact ⟨r, k, context, mem_localHistory.mp hr, le, accepted⟩

end Cluster

/-- Two logs have the same entries at the first `m` indices. -/
def Agrees (c d : RaftCore C) (m : Nat) : Prop :=
  ∀ i, 0 < i → i ≤ m → ∃ e, c.log.entryAt i = .ok (some e) ∧ d.log.entryAt i = .ok (some e)

theorem Agrees.of_shared {c d : RaftCore C} {K : List (Entry C)} (wf : c.log.WF)
    (bare : c.log.snapshot = none) (wf' : d.log.WF) (bare' : d.log.snapshot = none)
    (has : K <+: c.log.entries) (has' : K <+: d.log.entries) : Agrees c d K.length := by
  intro i pos le
  obtain ⟨e, found⟩ : ∃ e, K[i - 1]? = some e :=
    ⟨_, List.getElem?_eq_getElem (by omega)⟩
  refine ⟨e, ?_, ?_⟩
  · rw [wf.entryAt_eq bare, if_pos pos, ← getElem?_of_initial has (by omega), found]
  · rw [wf'.entryAt_eq bare', if_pos pos, ← getElem?_of_initial has' (by omega), found]

/-- What a leader has recorded of a follower: the follower was in the term with a log that agreed
with the leader's, and a later log of the follower in the term still agrees with it. -/
def MatchSound (history : List (NodeId × Record C)) (cores later : NodeId → RaftCore C) : Prop :=
  ∀ n f p, (cores n).role = .leader → (cores n).progress.get f = some p →
    (0 < p.matchIndex → ∃ r, (f, r) ∈ history ∧
      r.after.hardState.currentTerm = (cores n).hardState.currentTerm ∧
      Agrees r.after (cores n) p.matchIndex) ∧
    ((later f).hardState.currentTerm = (cores n).hardState.currentTerm →
      Agrees (later f) (cores n) p.matchIndex)

/-- What a leader has recorded of a follower is so and stays so, when every append that is
accepted proves the whole log of the follower. -/
theorem match_index_sound [Sha256] (config : NodeId → Config) (members : List NodeId)
    (common : ∀ node, (config node).members = members) {history since : List (NodeId × Record C)}
    {cores later : NodeId → RaftCore C}
    (run : Run (fun node => RaftCore.new (config node) .initial) history cores)
    (run' : Run (fun node => RaftCore.new (config node) .initial) (since ++ history) later)
    (unbuilt : NeverBuilt (since ++ history)) (room : ∀ p ∈ since ++ history, Room p.2.before)
    (whole : ∀ p ∈ since ++ history, ProvesWhole p.2.before p.2.event) :
    MatchSound history cores later := by
  intro n f p leader found
  have grows : history ⊆ since ++ history := List.subset_append_right _ _
  have now : Cluster config members history cores :=
    ⟨run, common, fun p hp => unbuilt p (grows hp), fun p hp => room p (grows hp)⟩
  have then_ : Cluster config members (since ++ history) later := ⟨run', common, unbuilt, room⟩
  rcases (now.accounts n).credits leader f p found with zero | ⟨le, credited⟩
  · rw [zero]
    exact ⟨fun pos => absurd pos (Nat.lt_irrefl 0), fun _ i pos le => by omega⟩
  obtain ⟨r, k, context, hr, reaches, accepted⟩ := now.acked credited
  obtain ⟨L, leads, copy⟩ := now.accepted_copies (fun p hp => whole p (grows hp)) hr accepted
  have own := now.leaderLog leader
  obtain ⟨-, wfN, bareN⟩ := now.visited (now.run.visited n)
  obtain ⟨-, wfR, bareR⟩ := now.visited (.inr ⟨(f, r), hr, rfl⟩)
  obtain ⟨-, wfF, bareF⟩ := then_.visited (then_.run.visited f)
  cases accepted with
  | mk _ _ _ _ _ _ _ _ _ _ current _ _ _ length =>
  -- what the follower had when it acknowledged, cut at the recorded index
  let K := (cores n).log.entries.take p.matchIndex
  have size : K.length = p.matchIndex := List.length_take_of_le le
  have hasN : K <+: (cores n).log.entries := List.take_prefix _ _
  have hasR : K <+: r.after.log.entries := by
    rcases now.comparable _ _ _ leads own with pre | pre
    · exact List.prefix_of_prefix_length_le hasN (copy.trans pre) (by omega)
    · exact List.prefix_of_prefix_length_le (hasN.trans pre) copy (by omega)
  have hasF : (later f).hardState.currentTerm = (cores n).hardState.currentTerm →
      K <+: (later f).log.entries := by
    intro same
    refine ((then_.retains f).2 r (mem_localHistory.mpr (grows hr))).2 K hasR ?_
    intro term L' lo hi leads'
    obtain rfl : term = (cores n).hardState.currentTerm := by omega
    rcases then_.comparable _ _ _ leads' (own.mono grows) with pre | pre
    · exact (List.prefix_or_prefix_of_prefix hasN pre)
    · exact .inl (hasN.trans pre)
  refine ⟨fun _ => ⟨r, hr, current, ?_⟩, fun same => ?_⟩
  · exact size ▸ Agrees.of_shared wfR bareR wfN bareN hasR hasN
  · exact size ▸ Agrees.of_shared wfF bareF wfN bareN (hasF same) hasN

/-! ## Runs of three nodes -/

def provesWholeCheck (r : Record C) : Bool :=
  match r.event with
  | .messageReceived envelope => match envelope.message with
    | .appendEntries term prev prevTerm _ _ entries =>
      (r.before.hardState.currentTerm ≤ term → r.before.log.term prev = .ok prevTerm →
        (∀ e ∈ entries, r.before.log.term e.index = .ok e.term) →
        r.before.log.lastIndex ≤ prev + entries.length ∨
          r.before.log.term r.before.log.lastIndex = .ok term)
    | _ => true
  | _ => true

theorem provesWhole_of_check {r : Record C} (h : provesWholeCheck r = true) :
    ProvesWhole r.before r.event := by
  unfold provesWholeCheck at h
  unfold ProvesWhole
  split at h
  · split at h
    · exact of_decide_eq_true h
    · trivial
  · trivial

/-- Node 1 has recorded that node 2 holds the no-op and the command. -/
theorem match_index_sound_committed : ∃ w : World Nat,
    @Run Nat sha256Empty trio w.history (w.core trio) ∧
    ((w.core trio 1).role = .leader ∧
      ∃ p, (w.core trio 1).progress.get 2 = some p ∧ p.matchIndex = 2) ∧
    MatchSound w.history (w.core trio) (w.core trio) := by
  let _ : Sha256 := sha256Empty
  obtain ⟨w, run, checked⟩ := World.exec_any trio Script.commitTwo
    (fun w => (((w.core trio 1).role = .leader) &&
        ((w.core trio 1).progress.get 2).any fun p => p.matchIndex = 2) &&
      ((w.history.all fun p => !p.2.built) && (w.history.all fun p => Room p.2.before) &&
        w.history.all fun p => provesWholeCheck p.2))
    (by decide +kernel)
  simp only [Bool.and_eq_true, decide_eq_true_eq, Option.any_eq_true] at checked
  obtain ⟨recorded, ⟨plain, room⟩, whole⟩ := checked
  refine ⟨w, run, recorded, ?_⟩
  have run' : Run trio ([] ++ w.history) (w.core trio) := run
  exact match_index_sound trioConfigs [1, 2, 3] trioConfigs_members run run'
    (neverBuilt_of_check plain) (fun p hp => of_decide_eq_true (List.all_eq_true.mp room p hp))
    fun p hp => provesWhole_of_check (List.all_eq_true.mp whole p hp)

/-- Node 3 holds an entry of term 2 that node 1, the leader of term 3, does not have. It answers
an old append of term 1 with its own term, which takes node 1 for a rejection of its appends, and
then acknowledges the append of index 1 with its last index. -/
def staleAck : List (Move Nat) := Script.electFirst ++
  [Script.deliver 7, Script.persisted 3 1, Script.deliver 8, Script.deliver 9, Script.persisted 3 2,
    Script.elect 3, Script.deliver 12, Script.deliver 13, Script.persisted 3 3, Script.deliver 14,
    Script.persisted 1 3, Script.deliver 16, Script.persisted 3 4,
    Script.elect 1, Script.deliver 19, Script.deliver 21, Script.persisted 1 4, Script.deliver 22,
    Script.persisted 2 2, Script.deliver 24, Script.persisted 1 5,
    Script.deliver 26, Script.persisted 3 5, Script.deliver 27, Script.deliver 7,
    Script.deliver 29, Script.deliver 30, Script.deliver 31]

theorem match_index_overstated : ¬ ∀ (history : List (NodeId × Record Nat))
    (cores : NodeId → RaftCore Nat), @Run Nat sha256Empty trio history cores →
    NeverBuilt history → MatchSound history cores cores := by
  let _ : Sha256 := sha256Empty
  intro h
  obtain ⟨w, run, bad⟩ := World.exec_any trio staleAck
    (fun w => (((w.core trio 1).role = .leader) &&
        ((w.core trio 1).progress.get 3).any fun p => p.matchIndex = 2) &&
      (((w.core trio 3).hardState.currentTerm = (w.core trio 1).hardState.currentTerm) &&
        (((w.core trio 1).log.entryAt 2).map (·.map (·.term)) = .ok (some 3)) &&
        (((w.core trio 3).log.entryAt 2).map (·.map (·.term)) = .ok (some 2))) &&
      w.history.all fun p => !p.2.built)
    (by decide +kernel)
  simp only [Bool.and_eq_true, decide_eq_true_eq, Option.any_eq_true] at bad
  obtain ⟨⟨⟨leader, p, found, is⟩, ⟨same, own⟩, other⟩, plain⟩ := bad
  obtain ⟨e, at3, at1⟩ := (h _ _ run (neverBuilt_of_check plain) 1 3 p leader found).2 same 2
    (by decide) is.ge
  simp only [at1, at3, Except.map, Option.map_some, Except.ok.injEq, Option.some.injEq] at own other
  omega

end Ruft
