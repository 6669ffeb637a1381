import Ruft.Probing
import Ruft.ReadSafety

set_option autoImplicit false

/-!
# Leaders and appends

A leader starts to probe a follower behind its no-op, and looks at earlier entries only once the
follower has answered in its term. Who is told of a new term by an append has no entry of the term
before it, and rejects it. So a leader never accepts an append, neither of its own term nor of a
newer one, and only appends to its log.

## Main definitions

- `Responded` — a follower answered an append in a term
- `RaftCore.Probes` — what a leader assumes of followers that did not answer yet

## Main results

- `leader_append_only` — a step of a leader keeps its log
-/

namespace Ruft

open LeaderLogs

variable {C : Type} {c : RaftCore C} {event : Event C} {history : List (Record C)}

/-- The follower answered an append in the term. -/
def Responded (events : List (Event C)) (term : Nat) (n : NodeId) : Prop :=
  ∃ envelope success matchIndex conflict context, .messageReceived envelope ∈ events ∧
    envelope.from_ = n ∧
    envelope.message = .appendEntriesResponse term success matchIndex conflict context

theorem Responded.mono {events events' : List (Event C)} {term : Nat} {n : NodeId}
    (h : Responded events term n) (grows : events ⊆ events') : Responded events' term n := by
  obtain ⟨envelope, success, m, conflict, context, among, rest⟩ := h
  exact ⟨envelope, success, m, conflict, context, grows among, rest⟩

/-- The entry before the position has the term of the core. -/
def RaftCore.InTerm (c : RaftCore C) (next : Nat) : Prop :=
  0 < next ∧ TermAt Entry.term c.log.entries (next - 1) c.hardState.currentTerm

/-- The log of a leader ends in its term, and who did not answer yet is probed there. An answer
that waits for its batch is of no later term. -/
structure RaftCore.Probes (events : List (Event C)) (c : RaftCore C) : Prop where
  activating : ∀ id stable, c.pendingPersist = some ⟨id, stable, .activateLeader⟩ →
    c.lastLogTerm = c.hardState.currentTerm
  leads : c.role = .leader → c.lastLogTerm = c.hardState.currentTerm
  probes : c.role = .leader → ∀ n p, c.progress.get n = some p →
    Responded events c.hardState.currentTerm n ∨ c.InTerm p.nextIndex
  owes : ∀ id stable to_ r, c.pendingPersist = some ⟨id, stable, .sendAppendEntriesResponse to_ r⟩ →
    r.term ≤ c.hardState.currentTerm

/-- An append to a follower that did not answer yet follows an entry of the term, and no answer
is of a later term. -/
def RaftCore.Says (events : List (Event C)) (c : RaftCore C) (to_ : NodeId) : Message C → Prop
  | .appendEntries term _ prevTerm _ _ _ =>
    c.role = .leader → Responded events term to_ ∨ prevTerm = term
  | .appendEntriesResponse term _ _ _ _ => term ≤ c.hardState.currentTerm
  | _ => True

theorem RaftCore.Says.keep {events events' : List (Event C)} {d : RaftCore C} {to_ : NodeId}
    {m : Message C} (h : c.Says events to_ m) (grows : events ⊆ events')
    (role : d.role = c.role) (term : c.hardState.currentTerm ≤ d.hardState.currentTerm) :
    d.Says events' to_ m := by
  cases m with
  | appendEntries => exact fun leader => (h (role ▸ leader)).imp_left fun r => r.mono grows
  | appendEntriesResponse => exact le_trans h term
  | _ => trivial

/-! ## One step -/

namespace RaftCore.Probes

variable {events events' : List (Event C)} {d : RaftCore C}

theorem keep (h : c.Probes events) (grows : events ⊆ events')
    (slot : d.pendingPersist = c.pendingPersist ∨ d.pendingPersist = none)
    (role : d.role = .leader → c.role = .leader)
    (term : d.hardState.currentTerm = c.hardState.currentTerm)
    (last : d.lastLogTerm = c.lastLogTerm) (entries : d.log.entries = c.log.entries)
    (progress : ∀ n q, d.progress.get n = some q → ∃ p, c.progress.get n = some p ∧
      q.nextIndex = p.nextIndex) : d.Probes events' where
  activating id stable found := by
    rw [last, term]
    rcases slot with same | free
    · exact h.activating id stable (same ▸ found)
    · simp [free] at found
  leads leader := by
    rw [last, term]
    exact h.leads (role leader)
  probes leader n q found := by
    obtain ⟨p, was, same⟩ := progress n q found
    rw [same, term, InTerm, entries, term]
    exact (h.probes (role leader) n p was).imp_left fun r => r.mono grows
  owes id stable to_ r found := by
    rw [term]
    rcases slot with same | free
    · exact h.owes id stable to_ r (same ▸ found)
    · simp [free] at found

theorem same (h : c.Probes events) (grows : events ⊆ events')
    (slot : d.pendingPersist = c.pendingPersist ∨ d.pendingPersist = none)
    (role : d.role = .leader → c.role = .leader)
    (term : d.hardState.currentTerm = c.hardState.currentTerm)
    (last : d.lastLogTerm = c.lastLogTerm) (entries : d.log.entries = c.log.entries)
    (progress : d.progress = c.progress) : d.Probes events' :=
  h.keep grows slot role term last entries fun _ q found => ⟨q, progress ▸ found, rfl⟩

/-- A core that does not lead keeps its term. -/
theorem follower (h : c.Probes events) (slot : d.pendingPersist = c.pendingPersist)
    (role : d.role ≠ .leader) (term : d.hardState.currentTerm = c.hardState.currentTerm)
    (last : d.lastLogTerm = c.lastLogTerm) : d.Probes events' where
  activating id stable found := by
    rw [last, term]
    exact h.activating id stable (slot ▸ found)
  leads leader := absurd leader role
  probes leader := absurd leader role
  owes id stable to_ r found := by
    rw [term]
    exact h.owes id stable to_ r (slot ▸ found)

/-- A core queues a batch. -/
theorem queued {s : Ctx C} {batch : PersistBatch C} {continuation : PersistContinuation}
    (leads : s.core.role = .leader → s.core.lastLogTerm = s.core.hardState.currentTerm ∧
      ∀ n p, s.core.progress.get n = some p →
        Responded events s.core.hardState.currentTerm n ∨ s.core.InTerm p.nextIndex)
    (activating : continuation = .activateLeader →
      s.core.lastLogTerm = s.core.hardState.currentTerm)
    (owes : ∀ to_ r, continuation = .sendAppendEntriesResponse to_ r →
      r.term ≤ s.core.hardState.currentTerm) :
    (s.queued batch continuation).core.Probes events where
  activating id stable found := by
    simp only [Ctx.queued, Option.some.injEq, PendingPersist.mk.injEq] at found
    exact activating found.2.2
  leads leader := (leads leader).1
  probes leader := (leads leader).2
  owes id stable to_ r found := by
    simp only [Ctx.queued, Option.some.injEq, PendingPersist.mk.injEq] at found
    exact owes to_ r found.2.2

/-- A follower answered. -/
theorem insert (h : c.Probes events) (grows : events ⊆ events') {n : NodeId} {q : Progress}
    (answered : Responded events' c.hardState.currentTerm n) :
    { c with progress := c.progress.insert n q }.Probes events' where
  activating := h.activating
  leads := h.leads
  probes leader node q' found := by
    simp only [BTreeMap.get_insert] at found
    split at found
    · next is => exact .inl (is ▸ answered)
    · exact (h.probes leader node q' found).imp_left fun r => r.mono grows
  owes := h.owes

end RaftCore.Probes

theorem MessageAct.probes {events : List (Event C)} {members : Finset NodeId}
    {envelope : Envelope C} {s : Ctx C} (bare : c.Bare) (h : c.Probes events)
    (act : MessageAct { c with activeMembers := members } envelope.from_ envelope.message s) :
    s.core.Probes (.messageReceived envelope :: events) := by
  have grows : events ⊆ .messageReceived envelope :: events := List.subset_cons_self _ _
  have h' : ({ c with activeMembers := members } : RaftCore C).Probes events :=
    ⟨h.activating, h.leads, h.probes, h.owes⟩
  generalize hm : envelope.message = message at act
  cases act with
  | acknowledged term matchIndex conflict context p q leader same found matched =>
    exact h'.insert grows ⟨envelope, _, _, _, _, List.mem_cons_self .., rfl, same ▸ hm⟩
  | backedOff term matchIndex conflict context p q leader same found matched =>
    exact h'.insert grows ⟨envelope, _, _, _, _, List.mem_cons_self .., rfl, same ▸ hm⟩
  | senderDone term sender progress leader same found => simp [bare.senders] at found
  | termRaised | voteNewer =>
    refine .queued ?_ (by simp) (by simp)
    simp [RaftCore.termRaised, RaftCore.becomeFollower]
  | appendRejected | appendAccepted =>
    refine .queued ?_ (by simp) fun to_ r is => ?_
    · simp [RaftCore.termRaised, RaftCore.merged, RaftCore.becomeFollower]
    simp only [PersistContinuation.sendAppendEntriesResponse.injEq] at is
    obtain ⟨-, rfl⟩ := is
    exact le_rfl
  | appendFailed | appendRefused | appendHeld =>
    exact h'.follower rfl (by simp [RaftCore.becomeFollower]) rfl rfl
  | preVoteCounted term granted votes role roles notLeader =>
    refine h'.same grows (.inl rfl) (fun leader => ?_) rfl rfl rfl rfl
    have notLeader : c.role = .preCandidate := notLeader
    rcases roles with ⟨rfl, -⟩ | ⟨rfl, -⟩
    · exact leader
    · simp at leader
  | campaigned =>
    refine .queued ?_ (by simp) (by simp)
    simp [RaftCore.candidacy]
  | voteLost => exact h'.follower rfl (by simp) rfl rfl
  | elected term granted votes entry same candidate found won next =>
    have candidate : c.role = .candidate := candidate
    refine .queued ?_ (fun _ => next.term) (by simp)
    simp [RaftCore.noopAppended, candidate]
  | voteFirst term index logTerm same =>
    have kept := (h'.same grows (.inl rfl) id (by exact same.symm) rfl rfl rfl :
      RaftCore.Probes _ { c with
        activeMembers := members
        hardState := ⟨term, some envelope.from_, c.hardState.commitIndex⟩ })
    exact .queued (fun leader => ⟨kept.leads leader, kept.probes leader⟩) (by simp) (by simp)
  | _ => exact h'.same grows (.inl rfl) id rfl rfl rfl rfl

/-- The log gets an entry of the term. -/
theorem RaftCore.InTerm.extend {d : RaftCore C} {next : Nat} (h : c.InTerm next)
    (entries : c.log.entries <+: d.log.entries)
    (term : d.hardState.currentTerm = c.hardState.currentTerm) : d.InTerm next :=
  ⟨h.1, term ▸ h.2.extend entries⟩

theorem RaftCore.inTerm_last (wf : c.WF) (bare : c.log.snapshot = none)
    (last : c.lastLogTerm = c.hardState.currentTerm) : c.InTerm (c.log.lastIndex + 1) := by
  refine ⟨Nat.succ_pos _, ?_⟩
  rw [Nat.add_sub_cancel, ← wf.log.term_eq_ok_iff bare, ← last, wf.lastLogTerm]
  exact wf.log.term_lastIndex

theorem Act.probes [Sha256] {events : List (Event C)} {s : Ctx C} (wf : c.WF) (bare : c.Bare)
    (h : c.Probes events) (act : Act c event s) : s.core.Probes (event :: events) := by
  have grows : events ⊆ event :: events := List.subset_cons_self _ _
  cases act with
  | message envelope members s known mine act => exact act.probes bare h
  | completed effect outcome s act =>
    cases act with
    | activated stable found =>
      have last : c.lastLogTerm = c.hardState.currentTerm := h.activating _ _ found
      refine ⟨by simp [RaftCore.activated, RaftCore.stabilized], fun _ => last, ?_,
        by simp [RaftCore.activated, RaftCore.stabilized]⟩
      intro _ n p found
      simp only [RaftCore.activated] at found
      rw [BTreeMap.get_foldl_insert] at found
      split at found
      · obtain rfl := Option.some.inj found
        exact .inr ((RaftCore.inTerm_last wf bare.log last).extend (List.prefix_refl _) rfl)
      · simp at found
    | electedAlone stable votes entry found counted won next =>
      refine .queued (fun leader => ⟨next.term, fun n p found => ?_⟩) (fun _ => next.term) (by simp)
      refine (h.probes leader n p found).imp (fun r => r.mono grows) fun inTerm => ?_
      exact inTerm.extend (List.prefix_append _ _) rfl
    | installed snapshotId record from_ term log found => simp [bare.incoming] at found
    | compacted record log found => exact absurd found (bare.compacting _ _)
    | persistDropped | persistDone | votesRequested | voteAnswered | appendAnswered =>
      exact h.same grows (.inr rfl) id rfl rfl rfl rfl
    | _ => exact h.same grows (.inl rfl) id rfl rfl rfl rfl
  | preVoteStarted => exact h.follower rfl (by simp) rfl rfl
  | campaigned =>
    refine .queued ?_ (by simp) (by simp)
    simp [RaftCore.candidacy]
  | quorumLost => exact h.follower rfl (by simp [RaftCore.becomeFollower]) rfl rfl
  | heartbeat =>
    refine h.keep grows (.inl rfl) id rfl rfl rfl fun n q found => ?_
    rw [BTreeMap.get_mapValues] at found
    obtain ⟨p, was, rfl⟩ := Option.map_eq_some_iff.mp found
    exact ⟨p, was, rfl⟩
  | proposed proposalId command encodedLen entry leader free next =>
    refine .queued (fun _ => ⟨next.term, fun n p found => ?_⟩) (by simp) (by simp)
    refine (h.probes leader n p found).imp (fun r => r.mono grows) fun inTerm => ?_
    exact inTerm.extend (List.prefix_append _ _) rfl
  | readStarted readId =>
    obtain ⟨round, hr⟩ := Ctx.roundStarted_core ⟨c, []⟩ readId
    rw [hr]
    exact h.same grows (.inl rfl) id rfl rfl rfl rfl
  | _ => exact h.same grows (.inl rfl) id rfl rfl rfl rfl

/-- A send moves a follower that is replicated to behind the entries that were sent. -/
theorem Progress.sent_next {p q : Progress} {last : Nat}
    (moved : p.sent last = (.ok q : Outcome StepError _)) :
    q.nextIndex = p.nextIndex ∨ q.nextIndex = last + 1 := by
  unfold Progress.sent at moved
  dsimp only at moved
  split at moved
  · cases next : (expectNext last : Outcome StepError Nat) with
    | error e => simp [next, bind, Except.bind] at moved
    | ok n =>
      simp only [next, bind, Except.bind, Except.ok.injEq] at moved
      subst moved
      right
      unfold expectNext at next
      cases counted : checkedNext last with
      | error e => simp [counted, Outcome.panic] at next
      | ok m =>
        simp only [counted, Except.ok.injEq] at next
        exact next ▸ (checkedNext_eq_ok.mp counted).2
  · simp only [Except.ok.injEq] at moved
    exact .inl (moved ▸ rfl)

/-- The entries that are sent to a follower that did not answer yet are of the term. -/
theorem RaftCore.InTerm.sent {p q : Progress} {prev : Nat} {entries tail : List (Entry C)}
    (wf : c.WF) (bare : c.log.snapshot = none) (ends : c.lastLogTerm = c.hardState.currentTerm)
    (h : c.InTerm p.nextIndex) (next : p.nextIndex = prev + 1)
    (split : c.log.entries.drop prev = entries ++ tail)
    (moved : p.sent (entries.getLast?.elim prev (·.index)) = (.ok q : Outcome StepError _)) :
    c.InTerm q.nextIndex := by
  rcases Progress.sent_next moved with same | next'
  · rw [same]
    exact h
  have zero : c.log.snapshotIndex = 0 := by simp [RaftLog.snapshotIndex, bare]
  have length := wf.log.length_eq bare
  obtain ⟨-, at_⟩ := h
  rw [next, Nat.add_sub_cancel] at at_
  have within : prev ≤ entries.getLast?.elim prev (·.index) ∧
      entries.getLast?.elim prev (·.index) ≤ c.log.lastIndex := by
    cases last : entries.getLast? with
    | none => exact ⟨le_rfl, length ▸ at_.le_length⟩
    | some e =>
      rw [List.getLast?_eq_getElem?] at last
      have found : c.log.entries[prev + (entries.length - 1)]? = some e := by
        rw [← List.getElem?_drop, split,
          List.getElem?_append_left (List.getElem?_eq_some_iff.mp last).1]
        exact last
      have index := wf.log.contiguous.index found
      have inside := (List.getElem?_eq_some_iff.mp found).1
      simp only [Option.elim_some]
      omega
  obtain ⟨t, found⟩ := wf.log.term_isOk.mpr ⟨zero ▸ Nat.zero_le _, within.2⟩
  have last := wf.log.term_lastIndex
  rw [← wf.lastLogTerm, ends] at last
  have above := wf.log.term_mono within.1 ((wf.log.term_eq_ok_iff bare).mpr at_) found
  have below := wf.log.term_mono within.2 found last
  rw [next']
  refine ⟨Nat.succ_pos _, ?_⟩
  rw [Nat.add_sub_cancel, ← Nat.le_antisymm below above]
  exact (wf.log.term_eq_ok_iff bare).mp found

theorem FollowUp.probes {cause : Cause C} {events : List (Event C)} {s s' : Ctx C} (wf : s.core.WF)
    (bare : s.core.log.snapshot = none) (hf : FollowUp cause s s') (h : s.core.Probes events) :
    s'.core.Probes events := by
  have grows : events ⊆ events := List.Subset.refl _
  cases hf with
  | appendSent to_ p q prev prevTerm entries found next term isBatch held matched nextPos may
      leading free batch moved =>
    refine ⟨h.activating, h.leads, fun leader n q' found' => ?_, h.owes⟩
    simp only [BTreeMap.get_insert] at found'
    split at found'
    · next is =>
      subst is
      obtain rfl := Option.some.inj found'
      refine (h.probes leader n p found).imp_right fun inTerm => ?_
      obtain ⟨tail, split⟩ := isBatch
      rw [show s.core.log.snapshotIndex = 0 by simp [RaftLog.snapshotIndex, bare]] at split
      exact (inTerm.sent wf bare (h.leads leader) next split moved).extend (List.prefix_refl _) rfl
    · exact h.probes leader n q' found'
  | snapshotEntered to_ p found =>
    refine h.keep grows (.inl rfl) id rfl rfl rfl fun n q found' => ?_
    simp only [BTreeMap.get_insert] at found'
    split at found'
    · next is =>
      subst is
      obtain rfl := Option.some.inj found'
      exact ⟨p, found, rfl⟩
    · exact ⟨q, found', rfl⟩
  | committed =>
    exact .queued (fun leader => ⟨h.leads leader, h.probes leader⟩) (by simp) (by simp)
  | readStarted readId rest =>
    obtain ⟨round, hr⟩ :=
      Ctx.roundStarted_core ⟨{ s.core with pendingReads := rest }, s.effects⟩ readId
    rw [hr]
    exact h.same grows (.inl rfl) id rfl rfl rfl rfl
  | _ => exact h.same grows (.inl rfl) id rfl rfl rfl rfl

/-! ## What a step says -/

theorem RaftCore.Says.roundStarted {events : List (Event C)} {s : Ctx C} (h : s.core.Probes events)
    (told : ∀ to_ m, .sendMessage to_ m ∈ s.effects → s.core.Says events to_ m) (readId : ReadId) :
    ∀ to_ m, .sendMessage to_ m ∈ (s.roundStarted readId).effects →
      (s.roundStarted readId).core.Says events to_ m := by
  intro to_ m sent
  obtain ⟨round, hr⟩ := s.roundStarted_core readId
  have keep : s.core.Says events to_ m → (s.roundStarted readId).core.Says events to_ m := fun old =>
    old.keep (List.Subset.refl _) (by rw [hr]) (by rw [hr])
  refine keep ?_
  rcases s.roundStarted_effects readId with same | ⟨context, more⟩
  · exact told to_ m (same ▸ sent)
  rw [more] at sent
  rcases List.mem_append.mp sent with old | new
  · exact told to_ m old
  obtain ⟨-, rfl⟩ := mem_toPeers new
  exact fun leader => .inr (h.leads leader)

theorem Act.tells [Sha256] {events : List (Event C)} {s : Ctx C} (bare : c.Bare)
    (h : c.Probes events) (act : Act c event s) :
    ∀ to_ m, .sendMessage to_ m ∈ s.effects → s.core.Says events to_ m := by
  intro to_ m sent
  cases act with
  | message envelope members s known mine act =>
    obtain ⟨cluster, from_, node, message⟩ := envelope
    dsimp only at act
    cases act with
    | refused m reply refusal =>
      simp only [List.mem_singleton, Effect.sendMessage.injEq] at sent
      obtain ⟨-, rfl⟩ := sent
      cases refusal with
      | append => exact le_rfl
      | _ => trivial
    | appendRefused t prev prevTerm leaderCommit ctx entries same reply refusal =>
      simp only [List.mem_singleton, Effect.sendMessage.injEq] at sent
      obtain ⟨-, rfl⟩ := sent
      cases refusal with
      | append => exact le_rfl
      | _ => trivial
    | appendHeld t prev prevTerm leaderCommit ctx entries same =>
      simp only [List.mem_singleton, Effect.sendMessage.injEq] at sent
      obtain ⟨-, rfl⟩ := sent
      exact same.ge
    | voteAgain =>
      simp only [List.mem_singleton, Effect.sendMessage.injEq] at sent
      obtain ⟨-, rfl⟩ := sent
      trivial
    | _ => simp [Ctx.queued] at sent
  | completed id outcome s act =>
    cases act with
    | appendAnswered stable n r found =>
      simp only [List.mem_singleton, Effect.sendMessage.injEq] at sent
      obtain ⟨-, rfl⟩ := sent
      exact h.owes _ _ _ _ found
    | chunkRead snapshotId offset bytes done n sender advanced pending found =>
      simp [bare.senders] at found
    | votesRequested =>
      obtain ⟨-, rfl⟩ := mem_toPeers sent
      trivial
    | voteAnswered | installed =>
      simp only [List.mem_singleton, Effect.sendMessage.injEq] at sent
      obtain ⟨-, rfl⟩ := sent
      trivial
    | applyDone => simp [Ctx.answered] at sent
    | _ => simp [Ctx.queued] at sent
  | readStarted readId =>
    exact RaftCore.Says.roundStarted (s := ⟨c, []⟩) h (by simp) readId to_ m sent
  | preVoteStarted =>
    obtain ⟨-, rfl⟩ := mem_toPeers sent
    trivial
  | _ => simp [Ctx.queued] at sent

theorem FollowUp.tells {cause : Cause C} {events : List (Event C)} {s s' : Ctx C} (wf : s.core.WF)
    (bare : s.core.log.snapshot = none) (hf : FollowUp cause s s') (h : s.core.Probes events)
    (told : ∀ to_ m, .sendMessage to_ m ∈ s.effects → s.core.Says events to_ m) :
    ∀ to_ m, .sendMessage to_ m ∈ s'.effects → s'.core.Says events to_ m := by
  intro to_ m sent
  have frame := hf.frame
  have old : .sendMessage to_ m ∈ s.effects → s'.core.Says events to_ m := fun sent =>
    (told to_ m sent).keep (List.Subset.refl _) frame.role frame.term.ge
  cases hf with
  | appendSent n p q prev prevTerm entries found next term =>
    rcases List.mem_append.mp sent with before | new
    · exact old before
    simp only [List.mem_singleton, Effect.sendMessage.injEq] at new
    obtain ⟨rfl, rfl⟩ := new
    intro leader
    refine (h.probes leader _ p found).imp_right fun ⟨_, at_⟩ => ?_
    rw [next, Nat.add_sub_cancel, ← wf.log.term_eq_ok_iff bare, term] at at_
    exact Except.ok.inj at_
  | readStarted readId rest =>
    have probes : ({ s.core with pendingReads := rest } : RaftCore C).Probes events :=
      ⟨h.activating, h.leads, h.probes, h.owes⟩
    exact RaftCore.Says.roundStarted (s := ⟨{ s.core with pendingReads := rest }, s.effects⟩) probes
      (fun to_ m sent => (told to_ m sent).keep (List.Subset.refl _) rfl le_rfl) readId to_ m sent
  | applied | chunkRequested | buildRequested | committed =>
    exact old ((List.mem_append.mp sent).resolve_right (by simp))
  | readReleased =>
    exact old ((List.mem_append.mp sent).resolve_right (by simp))
  | _ => exact old sent

/-! ## Whole runs -/

/-- What a core has said and what it assumes of its followers. -/
structure Probed (history : List (Record C)) (c : RaftCore C) : Prop where
  told : ∀ r ∈ history, ∀ to_ m, .sendMessage to_ m ∈ r.effects →
    r.after.Says (history.map (·.event)) to_ m
  probes : c.Probes (history.map (·.event))

/-- A core in the middle of a step. -/
structure ProbingNow (history : List (Record C)) (c : RaftCore C) (event : Event C) (s : Ctx C) :
    Prop where
  told : ∀ r ∈ history, ∀ to_ m, .sendMessage to_ m ∈ r.effects →
    r.after.Says (history.map (·.event)) to_ m
  wf : s.core.WF
  bare : s.core.log.snapshot = none
  probes : s.core.Probes (event :: history.map (·.event))
  tells : ∀ to_ m, .sendMessage to_ m ∈ s.effects →
    s.core.Says (event :: history.map (·.event)) to_ m

theorem ProbingNow.record {s : Ctx C} {d : RaftCore C} (h : ProbingNow history c event s)
    (result : Outcome StepError (StepOutput C))
    (sends : ∀ e, e ∈ (Record.mk c event result d).effects → e ∈ s.effects)
    (role : d.role = s.core.role)
    (term : d.hardState.currentTerm = s.core.hardState.currentTerm) :
    ∀ r ∈ (⟨c, event, result, d⟩ :: history : List (Record C)), ∀ to_ m,
      .sendMessage to_ m ∈ r.effects →
        r.after.Says ((⟨c, event, result, d⟩ :: history : List (Record C)).map (·.event)) to_ m :=
  List.forall_mem_cons.mpr ⟨fun to_ m sent =>
      (h.tells to_ m (sends _ sent)).keep (List.Subset.refl _) role term.ge,
    fun r hr to_ m sent => (h.told r hr to_ m sent).keep (List.subset_cons_self _ _) rfl le_rfl⟩

theorem probed_keeps [Sha256] : Keeps (Unsnapshotted : Condition C) Probed ProbingNow
    (fun history _ => ∀ r ∈ history, ∀ to_ m, .sendMessage to_ m ∈ r.effects →
      r.after.Says (history.map (·.event)) to_ m) where
  act := by
    intro history c event s hs h act
    obtain ⟨-, bare, plain⟩ := hs.meets
    have grown : c.Probes (event :: history.map (·.event)) :=
      h.probes.same (List.subset_cons_self _ _) (.inl rfl) id rfl rfl rfl rfl
    exact ⟨h.told, bare.act_wf hs.wf act, (bare.act act plain).log, act.probes hs.wf bare h.probes,
      act.tells bare grown⟩
  followUp := by
    intro history c event s₀ s s' _ _ _ h hf
    exact ⟨h.told, h.wf.followUp hf, hf.frame.snapshot.trans h.bare, hf.probes h.wf h.bare h.probes,
      hf.tells h.wf h.bare h.probes h.tells⟩
  finished := by
    intro history c event s _ h
    obtain ⟨proposals, hp⟩ := s.finished_core c
    refine ⟨h.told, ?_, ?_, ?_, fun to_ m sent => ?_⟩
    · rw [hp]; exact h.wf.congr rfl rfl rfl rfl rfl rfl rfl rfl rfl rfl rfl
    · rw [hp]; exact h.bare
    · rw [hp]; exact ⟨h.probes.activating, h.probes.leads, h.probes.probes, h.probes.owes⟩
    · rw [hp]
      exact (h.tells to_ m (Ctx.finished_sends c sent)).keep (List.Subset.refl _) rfl le_rfl
  returned changed _ h := ⟨h.record _ (fun _ he => he) rfl rfl, h.probes⟩
  failed e _ h _ := ⟨h.record (Outcome.raise e) (by rintro _ ⟨⟩) rfl rfl, h.probes⟩
  safe h := h.told
  ended e reason _ h := h.record (Outcome.raise e) (by rintro _ ⟨⟩) rfl rfl
  halted := by
    intro history c c' event e reason _ h halted
    exact List.forall_mem_cons.mpr ⟨by rintro _ _ ⟨⟩, fun r hr to_ m sent =>
      (h.told r hr to_ m sent).keep (List.subset_cons_self _ _) rfl le_rfl⟩
  idle := by
    intro history c event result _ silent h
    exact List.forall_mem_cons.mpr ⟨by simp [silent], fun r hr to_ m sent =>
      (h r hr to_ m sent).keep (List.subset_cons_self _ _) rfl le_rfl⟩

theorem RaftCore.new_probed (config : Config) :
    Probed [] (RaftCore.new config (.initial : RecoveredState C)) :=
  ⟨by simp, by simp [RaftCore.new], by simp [RaftCore.new], by simp [RaftCore.new],
    by simp [RaftCore.new]⟩

theorem Trace.told [Sha256] {config : Config}
    (run : Trace (RaftCore.new config .initial) history c) (plain : Holds Snapshotless history) :
    ∀ r ∈ history, ∀ to_ m, .sendMessage to_ m ∈ r.effects →
      r.after.Says (history.map (·.event)) to_ m :=
  (Trace.invariant
    (quoting_keeps.and probed_keeps fun hs h => ⟨hs.meets.1, h.bare, hs.meets.2⟩)
    (fun _ _ _ h => h.1) (RaftCore.new_wf config _)
    ⟨RaftCore.new_quoted config, RaftCore.new_probed config⟩ run plain).1.2

/-! ## The cluster -/

/-- An append that the core does not turn away for its term is of a newer term and does not continue
the log. -/
def RaftCore.Refuses (c : RaftCore C) : Event C → Prop
  | .messageReceived envelope => ∀ term prev prevTerm leaderCommit context entries,
      envelope.message = .appendEntries term prev prevTerm leaderCommit context entries →
      c.hardState.currentTerm ≤ term →
      c.hardState.currentTerm < term ∧ c.log.term prev ≠ .ok prevTerm
  | _ => True

section Cluster

variable [Sha256] {config : NodeId → Config} {members : List NodeId}
  {history : List (NodeId × Record C)} {cores : NodeId → RaftCore C}

/-- Every append that a leader hears of is of an older term, or of a newer term and does not
continue its log. -/
theorem Cluster.refuses (h : Cluster config members history cores) {node : NodeId} {q : Record C}
    (hq : (node, q) ∈ history) (leader : q.before.role = .leader) : q.before.Refuses q.event := by
  cases heard : q.event with
  | messageReceived envelope =>
    intro term prev prevTerm leaderCommit context entries is reached
    obtain ⟨later, earlier, rfl⟩ := List.append_of_mem hq
    obtain ⟨cores', now⟩ := h.suffix
    obtain ⟨run, common, unbuilt, room⟩ := now
    have now : Cluster config members _ _ := ⟨run, common, unbuilt, room⟩
    cases run with
    | @step _ cores _ c' event result run local_ allowed delivered ran returns =>
      obtain rfl : event = .messageReceived envelope := heard
      have before := now.earlier run (List.subset_cons_self _ _)
      have won := (before.ledger node).now.leads leader
      rcases Nat.eq_or_lt_of_le reached with same | newer
      · have own : Elected (localHistory
            ((node, ⟨cores node, .messageReceived envelope, result, c'⟩) :: earlier) node) term := by
          rw [localHistory_cons_self]
          exact same ▸ won.mono (List.subset_cons_self _ _)
        exact (now.not_heard own (List.mem_cons_self ..) rfl (by rw [is]; rfl)).elim
      refine ⟨newer, fun found => ?_⟩
      have newer : (cores node).hardState.currentTerm < term := newer
      obtain ⟨to_, r, hr, sent⟩ := delivered
      have plain := before.run.snapshotless before.unbuilt before.room
      have said := (before.run.trace envelope.from_).told (plain _) r (mem_localHistory.mpr hr) _ _ sent
      rw [is] at sent said
      obtain ⟨speaker, -⟩ := (before.faithful hr).speaks _ _ term sent rfl
      have known : (cores node).log.WF ∧ (cores node).log.snapshot = none :=
        (before.visited (before.run.visited node)).2
      rcases said speaker with ⟨answer, success, m, conflict, context', among, by_, answered⟩ | at_
      · obtain ⟨s, hs, event⟩ := List.mem_map.mp among
        obtain ⟨-, a, ha, answers⟩ := before.run.sent (mem_localHistory.mp hs) event
        rw [by_, to_] at ha
        rw [answered] at answers
        have bound : term ≤ a.after.hardState.currentTerm :=
          (before.run.trace node).told (plain _) a (mem_localHistory.mpr ha) _ _ answers
        have := ((before.ledger node).reached a (mem_localHistory.mpr ha)).1
        omega
      · -- an entry of the new term in the log of a node that does not know the term
        rcases (known.1.term_eq_ok_iff known.2).mp (at_ ▸ found) with ⟨-, zero⟩ | ⟨e, -, held, inTerm⟩
        · omega
        have among := List.mem_of_getElem? held
        rcases before.run.core_cases node with first | ⟨s, hs, same⟩
        · simp [first, RaftCore.new, RaftLog.fromRecovered, RecoveredState.initial] at among
        · rw [← same] at among newer
          have bound : e.term ≤ s.after.hardState.currentTerm := before.term_le _ hs e among
          omega
  | _ => trivial

/-- A leader appends to its log. -/
theorem Cluster.appends (h : Cluster config members history cores) {node : NodeId} {q : Record C}
    (hq : (node, q) ∈ history) (leader : q.before.role = .leader) :
    q.before.log.entries <+: q.after.log.entries := by
  have faithful := h.faithful hq
  cases faithful.wrote with
  | kept same => exact same ▸ List.prefix_refl _
  | added entry is => exact is ▸ List.prefix_append _ _
  | merged envelope prev prevTerm leaderCommit context entries log appended received message
      prefix_ =>
    have refuses := h.refuses hq leader
    rw [received] at refuses
    exact absurd prefix_ (refuses _ _ _ _ _ _ message faithful.le.1).2

end Cluster

/-- A step of a leader keeps its log and at most appends to it. -/
theorem leader_append_only [Sha256] (config : NodeId → Config) (members : List NodeId)
    (common : ∀ node, (config node).members = members) {history : List (NodeId × Record C)}
    {cores : NodeId → RaftCore C}
    (run : Run (fun node => RaftCore.new (config node) .initial) history cores)
    (unbuilt : NeverBuilt history) (room : ∀ p ∈ history, Room p.2.before) :
    ∀ p ∈ history, p.2.before.role = .leader →
      p.2.before.log.entries <+: p.2.after.log.entries := by
  have h : Cluster config members history cores := ⟨run, common, unbuilt, room⟩
  rintro ⟨node, q⟩ hq leader
  exact h.appends hq leader

/-- A leader appends its no-op and an entry that was proposed. -/
theorem leader_append_only_proposed : ∃ w : World Nat,
    @Run Nat sha256Empty trio w.history (w.core trio) ∧
    (∃ p ∈ w.history, p.2.before.role = .leader ∧
      p.2.before.log.entries.length < p.2.after.log.entries.length) ∧
    ∀ p ∈ w.history, p.2.before.role = .leader →
      p.2.before.log.entries <+: p.2.after.log.entries := by
  let _ : Sha256 := sha256Empty
  obtain ⟨w, run, checked⟩ := World.exec_any trio Script.commitTwo
    (fun w => (w.history.any fun p => (p.2.before.role = .leader) &&
        (p.2.before.log.entries.length < p.2.after.log.entries.length)) &&
      ((w.history.all fun p => !p.2.built) && w.history.all fun p => Room p.2.before))
    (by decide +kernel)
  simp only [Bool.and_eq_true] at checked
  obtain ⟨appends, plain, room⟩ := checked
  refine ⟨w, run, by simpa using List.any_eq_true.mp appends, ?_⟩
  exact leader_append_only trioConfigs [1, 2, 3] trioConfigs_members run
    (neverBuilt_of_check plain) fun p hp => of_decide_eq_true (List.all_eq_true.mp room p hp)

end Ruft
