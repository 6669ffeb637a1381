import Ruft.Exec

set_option autoImplicit false

/-!
# What a leader does to its followers' progress

A step of a leader moves the progress of a follower in one of a few ways, and its log grows at
its end, is compacted or is replaced by a received snapshot.

## Main definitions

- `LogMove` — what a step does to the log of a leader
- `ProgressMove`, `ProgressSent` — what a step does to the progress of a follower
- `LeaderMove` — both, or the start of a leadership

## Main results

- `Act.leaderMove`, `FollowUp.progress` — every step of a leader does that
-/

namespace Ruft

variable {C : Type} {c : RaftCore C} {event : Event C}

/-- What a step does to the log of a leader, up to commitment and durability. -/
inductive LogMove (c : RaftCore C) (event : Event C) (log : RaftLog C) : Prop
  | same (entries : log.entries = c.log.entries) (snapshot : log.snapshot = c.log.snapshot)
  | appended (entry : Entry C) (next : entry.index = c.log.lastIndex + 1)
      (entries : log.entries = c.log.entries ++ [entry]) (snapshot : log.snapshot = c.log.snapshot)
  | compacted (record : SnapshotRecord) (ok : c.log.compact record = .ok log)
  | installed (id : EffectId) (snapshotId : SnapshotId) (record : SnapshotRecord)
      (from_ : NodeId) (term : Nat) (is : event = .effectCompleted id (.snapshotInstalled snapshotId))
      (found : c.incomingSnapshotState = some (.installing id record from_ term))
      (ok : c.log.installSnapshot record = .ok log)

/-- The same but for its activity. -/
structure Progress.Like (p q : Progress) : Prop where
  matchIndex : q.matchIndex = p.matchIndex
  nextIndex : q.nextIndex = p.nextIndex
  state : q.state = p.state
  inflights : q.inflights = p.inflights

theorem Progress.Like.refl (p : Progress) : p.Like p := ⟨rfl, rfl, rfl, rfl⟩

namespace Progress

variable {p q : Progress} {index rejected next endIndex : Nat} {changed : Bool}

theorem of_acknowledged (h : p.acknowledged index = (.ok (q, changed) : Outcome StepError _)) :
    changed = false ∧ p.Like q ∨
    changed = true ∧ p.matchIndex ≤ index ∧ q.matchIndex = index ∧
      q.nextIndex = max p.nextIndex (index + 1) ∧
      q.state = (if p.state = .probe then .replicate else p.state) ∧
      q.inflights = p.inflights.freeThrough index := by
  unfold acknowledged at h
  split at h
  · simp only [Except.ok.injEq, Prod.mk.injEq] at h
    obtain ⟨rfl, rfl⟩ := h
    exact .inl ⟨rfl, rfl, rfl, rfl, rfl⟩
  · next reached =>
    have room : index < u64Max := by
      by_contra full
      simp [expectNext, checkedNext, full, bind, Except.bind] at h
    simp only [expectNext_eq_ok room, bind, Except.bind, Except.ok.injEq, Prod.mk.injEq] at h
    obtain ⟨rfl, rfl⟩ := h
    refine .inr ⟨rfl, Nat.not_lt.mp reached, rfl, ?_, rfl, rfl⟩
    show (if p.nextIndex < index + 1 then index + 1 else p.nextIndex) = _
    split <;> omega

theorem of_reject (h : p.reject rejected next = (.ok (q, changed) : Outcome StepError _)) :
    p.Like q ∨
    (rejected < u64Max → p.nextIndex ≤ rejected + 1) ∧ q.matchIndex = p.matchIndex ∧
      q.nextIndex = max next (p.matchIndex + 1) ∧ q.state = .probe ∧
      q.inflights = p.inflights.clear := by
  have moved : ∀ {r : Outcome StepError (Progress × Bool)}, (do
      let floor ← expectNext p.matchIndex
      Except.ok ({ p with
        recentlyActive := true
        state := .probe
        inflights := p.inflights.clear
        nextIndex := max next floor }, true)) = r → r = .ok (q, changed) →
      q.matchIndex = p.matchIndex ∧ q.nextIndex = max next (p.matchIndex + 1) ∧ q.state = .probe ∧
        q.inflights = p.inflights.clear := by
    rintro _ rfl ok
    have room : p.matchIndex < u64Max := by
      by_contra full
      simp [expectNext, checkedNext, full, bind, Except.bind] at ok
    simp only [expectNext_eq_ok room, bind, Except.bind, Except.ok.injEq, Prod.mk.injEq] at ok
    obtain ⟨rfl, -⟩ := ok
    exact ⟨rfl, rfl, rfl, rfl⟩
  unfold reject at h
  by_cases within : rejected < u64Max
  · simp only [checkedNext, if_pos within, decide_eq_true_eq] at h
    split at h
    · simp only [Except.ok.injEq, Prod.mk.injEq] at h
      obtain ⟨rfl, -⟩ := h
      exact .inl ⟨rfl, rfl, rfl, rfl⟩
    · next fresh => exact .inr ⟨fun _ => Nat.not_lt.mp fresh, moved rfl h⟩
  · simp only [checkedNext, if_neg within] at h
    exact .inr ⟨fun inside => absurd inside within, moved rfl h⟩

theorem of_sent (h : p.sent endIndex = (.ok q : Outcome StepError _)) :
    q.matchIndex = p.matchIndex ∧ q.state = p.state ∧ q.inflights = p.inflights.push endIndex ∧
      q.nextIndex = if p.state = .replicate then endIndex + 1 else p.nextIndex := by
  unfold sent at h
  simp only at h
  split at h
  · next replicating =>
    have room : endIndex < u64Max := by
      by_contra full
      simp [expectNext, checkedNext, full, bind, Except.bind] at h
    simp only [expectNext_eq_ok room, bind, Except.bind, Except.ok.injEq] at h
    subst h
    exact ⟨rfl, rfl, rfl, by rw [if_pos replicating]⟩
  · next probing =>
    simp only [Except.ok.injEq] at h
    subst h
    exact ⟨rfl, rfl, rfl, by rw [if_neg probing]⟩

end Progress

/-- What the handler of an event does first to the progress of a follower. -/
inductive ProgressMove (c : RaftCore C) (event : Event C) (node : NodeId) (p q : Progress) : Prop
  | kept (like : p.Like q)
  | acknowledged (envelope : Envelope C) (matchIndex : Nat) (conflict : Option ConflictHint)
      (context : Option Bytes) (changed : Bool) (is : event = .messageReceived envelope)
      (from_ : envelope.from_ = node)
      (message : envelope.message = .appendEntriesResponse c.hardState.currentTerm true matchIndex
        conflict context)
      (moved : p.acknowledged (min matchIndex c.log.lastIndex) =
        (.ok (q, changed) : Outcome StepError _))
  | rejected (envelope : Envelope C) (matchIndex : Nat) (conflict : Option ConflictHint)
      (context : Option Bytes) (next : Nat) (changed : Bool) (is : event = .messageReceived envelope)
      (from_ : envelope.from_ = node)
      (message : envelope.message = .appendEntriesResponse c.hardState.currentTerm false matchIndex
        conflict context)
      (hint : rejectedNext c.log (conflict.getD ⟨matchIndex, none⟩) = .ok next)
      (moved : p.reject matchIndex next = (.ok (q, changed) : Outcome StepError _))
  | restored (envelope : Envelope C) (sender : SnapshotSender)
      (is : event = .messageReceived envelope) (from_ : envelope.from_ = node)
      (message : envelope.message = .installSnapshotResponse c.hardState.currentTerm true)
      (found : c.snapshotSenders.get node = some sender)
      (moved : q = p.restoreProbe (sender.snapshot.metadata.index + 1))

/-- The index that the batch behind an index ends at. -/
def RaftLog.batchEnd (log : RaftLog C) (config : Config) (prev : Nat) : Nat :=
  (takeBatch config 0 0 (log.entries.drop (prev - log.snapshotIndex))).getLast?.elim prev (·.index)

theorem RaftLog.WF.batchEnd_eq {log : RaftLog C} (h : log.WF) (config : Config) {prev : Nat}
    (above : log.snapshotIndex ≤ prev) (held : prev ≤ log.lastIndex) :
    log.batchEnd config prev =
      prev + (takeBatch config 0 0 (log.entries.drop (prev - log.snapshotIndex))).length := by
  have last := h.lastIndex
  obtain ⟨tail, split⟩ := takeBatch_split config 0 0 (log.entries.drop (prev - log.snapshotIndex))
  have contiguous := h.contiguous.drop (k := prev - log.snapshotIndex) (by omega)
  rw [split, show log.snapshotIndex + 1 + (prev - log.snapshotIndex) = prev + 1 by omega] at contiguous
  have batch := (Contiguous.append.mp contiguous).1
  unfold RaftLog.batchEnd
  cases ends : (takeBatch config 0 0 (log.entries.drop (prev - log.snapshotIndex))).getLast? with
  | none => simp [List.getLast?_eq_none_iff.mp ends]
  | some e =>
    have index := batch.getLast? ends
    simp only [Option.elim_some]
    omega

/-- A batch ends within the log. -/
theorem RaftLog.WF.batchEnd_le {log : RaftLog C} (h : log.WF) (config : Config) {prev : Nat}
    (above : log.snapshotIndex ≤ prev) (held : prev ≤ log.lastIndex) :
    prev ≤ log.batchEnd config prev ∧ log.batchEnd config prev ≤ log.lastIndex := by
  have last := h.lastIndex
  obtain ⟨tail, split⟩ := takeBatch_split config 0 0 (log.entries.drop (prev - log.snapshotIndex))
  have length := congrArg List.length split
  rw [List.length_append, List.length_drop] at length
  rw [h.batchEnd_eq config above held]
  omega

/-- What a replication does to the progress of a follower. -/
inductive ProgressSent (c : RaftCore C) (p q : Progress) : Prop
  | kept (like : p.Like q)
  | entered (moved : q = p.enterSnapshot)
  | sent (prev : Nat) (wf : c.log.WF) (next : p.nextIndex = prev + 1)
      (above : c.log.snapshotIndex ≤ prev) (held : prev ≤ c.log.lastIndex) (free : p.canSend = true)
      (moved : p.sent (c.log.batchEnd c.config prev) = (.ok q : Outcome StepError _))

/-- What the handler of an event does first at a core that leads after it. -/
inductive LeaderMove (c : RaftCore C) (event : Event C) (d : RaftCore C) : Prop
  | opened (id : EffectId) (stableThrough : Option Nat)
      (found : c.pendingPersist = some ⟨id, stableThrough, .activateLeader⟩)
      (free : d.pendingPersist = none) (started : ∀ node p, d.progress.get node = some p →
        p = Progress.fresh (d.log.lastIndex + 1) d.config.maxInflightAppends)
  | goes (leader : c.role = .leader) (log : LogMove c event d.log)
      (progress : ∀ node q, d.progress.get node = some q →
        ∃ p, c.progress.get node = some p ∧ ProgressMove c event node p q)

/-- A step that leaves log and progress. -/
theorem LeaderMove.of_same {d : RaftCore C} (leader : c.role = .leader)
    (entries : d.log.entries = c.log.entries) (snapshot : d.log.snapshot = c.log.snapshot)
    (progress : d.progress = c.progress) : LeaderMove c event d :=
  .goes leader (.same entries snapshot) fun node q found =>
    ⟨q, by rw [← progress]; exact found, .kept (.refl q)⟩

/-- A step that moves the progress of one follower. -/
theorem LeaderMove.of_insert {d : RaftCore C} {node : NodeId} {p q : Progress} (leader : c.role = .leader)
    (log : d.log = c.log) (found : c.progress.get node = some p)
    (progress : d.progress = c.progress.insert node q) (moved : ProgressMove c event node p q) :
    LeaderMove c event d := by
  refine .goes leader (.same (by rw [log]) (by rw [log])) fun other r found' => ?_
  rw [progress, BTreeMap.get_insert] at found'
  split at found'
  · next same =>
    subst same
    obtain rfl := Option.some.inj found'
    exact ⟨p, found, moved⟩
  · exact ⟨r, found', .kept (.refl r)⟩

/-- The active members do not matter. -/
theorem LeaderMove.of_active {d : RaftCore C} {members : Finset NodeId}
    (h : LeaderMove { c with activeMembers := members } event d) : LeaderMove c event d := by
  cases h with
  | opened id stableThrough found free started => exact .opened id stableThrough found free started
  | goes leader log progress =>
    refine .goes leader ?_ fun node q found => ?_
    · cases log with
      | same entries snapshot => exact .same entries snapshot
      | appended entry next entries snapshot => exact .appended entry next entries snapshot
      | compacted record ok => exact .compacted record ok
      | installed id snapshotId record from_ term is found ok =>
        exact .installed id snapshotId record from_ term is found ok
    · obtain ⟨p, found', move⟩ := progress node q found
      refine ⟨p, found', ?_⟩
      cases move with
      | kept like => exact .kept like
      | acknowledged envelope matchIndex conflict context changed is from_ message moved =>
        exact .acknowledged envelope matchIndex conflict context changed is from_ message moved
      | rejected envelope matchIndex conflict context next changed is from_ message hint moved =>
        exact .rejected envelope matchIndex conflict context next changed is from_ message hint moved
      | restored envelope sender is from_ message found moved =>
        exact .restored envelope sender is from_ message found moved

theorem MessageAct.leaderMove {envelope : Envelope C} {s : Ctx C}
    (act : MessageAct c envelope.from_ envelope.message s) (leader : s.core.role = .leader) :
    LeaderMove c (.messageReceived envelope) s.core := by
  generalize is : envelope.message = m at act
  cases act with
  | acknowledged term matchIndex conflict context p q leader same found matched nextPos moved =>
    obtain ⟨changed, moved⟩ := moved
    exact .of_insert leader rfl found rfl (.acknowledged envelope matchIndex conflict context changed
      rfl rfl (by rw [is, same]) moved)
  | backedOff term matchIndex conflict context p q leader same found matched nextPos moved =>
    obtain ⟨next, changed, hint, moved⟩ := moved
    exact .of_insert leader rfl found rfl (.rejected envelope matchIndex conflict context next changed
      rfl rfl (by rw [is, same]) hint moved)
  | senderDone term sender progress leader same found restored =>
    rcases restored with rfl | ⟨p, found', rfl⟩
    · exact .of_same leader rfl rfl rfl
    · exact .of_insert leader rfl found' rfl (.restored envelope sender rfl rfl (by rw [is, same])
        found rfl)
  | ignored | refused | voteFirst | voteAgain | receiverTouched | chunkAccepted =>
    exact .of_same leader rfl rfl rfl
  | preVoteCounted term granted votes role roles notLeader =>
    rcases roles with ⟨rfl, -⟩ | ⟨rfl, -⟩
    · exact absurd (leader.symm.trans notLeader) (by simp)
    · exact absurd leader (by simp)
  | voteCounted term granted votes same candidate | elected term granted votes entry same candidate =>
    exact absurd (leader.symm.trans candidate) (by simp)
  | campaigned | voteNewer | voteLost =>
    exact absurd leader (by simp [Ctx.queued, RaftCore.candidacy])
  | termRaised | appendFailed | appendRefused | appendRejected | appendHeld | appendAccepted =>
    exact absurd leader (by
      simp [Ctx.queued, RaftCore.termRaised, RaftCore.merged, RaftCore.becomeFollower])

theorem RaftCore.activated_started {node : NodeId} {p : Progress}
    (found : c.activated.progress.get node = some p) :
    p = Progress.fresh (c.activated.log.lastIndex + 1) c.activated.config.maxInflightAppends := by
  simp only [RaftCore.activated, BTreeMap.get_foldl_insert, BTreeMap.get_empty] at found
  split at found
  · exact (Option.some.inj found).symm
  · simp at found

theorem CompletionAct.leaderMove [Sha256] {id : EffectId} {outcome : EffectOutcome} {s : Ctx C}
    (act : CompletionAct c id outcome s) (leader : s.core.role = .leader) :
    LeaderMove c (.effectCompleted id outcome) s.core := by
  cases act with
  | activated stableThrough found =>
    exact .opened id stableThrough found rfl fun node p found => RaftCore.activated_started found
  | installed snapshotId record from_ term log found install =>
    exact .goes leader (.installed id snapshotId record from_ term rfl found install) fun node q found =>
      ⟨q, found, .kept (.refl q)⟩
  | compacted record log found compact =>
    exact .goes leader (.compacted record compact) fun node q found => ⟨q, found, .kept (.refl q)⟩
  | electedAlone stableThrough votes entry found counted won next =>
    exact .goes leader (.appended entry next.index rfl rfl) fun node q found =>
      ⟨q, found, .kept (.refl q)⟩
  | _ => exact .of_same leader rfl rfl rfl

/-- What a handler does first at a core that leads after it. -/
theorem Act.leaderMove [Sha256] {s : Ctx C} (act : Act c event s) (leader : s.core.role = .leader) :
    LeaderMove c event s.core := by
  cases act with
  | message envelope members s known mine act => exact (act.leaderMove leader).of_active
  | completed id outcome s act => exact act.leaderMove leader
  | proposed proposalId command encodedLen entry leads free next =>
    exact .goes leads (.appended entry next.index rfl rfl) fun node q found =>
      ⟨q, found, .kept (.refl q)⟩
  | heartbeat leads =>
    refine .goes leads (.same rfl rfl) fun node q found => ?_
    rw [BTreeMap.get_mapValues] at found
    obtain ⟨p, before, rfl⟩ := Option.map_eq_some_iff.mp found
    exact ⟨p, before, .kept ⟨rfl, rfl, rfl, rfl⟩⟩
  | readStarted readId =>
    obtain ⟨round, hr⟩ := Ctx.roundStarted_core ⟨c, []⟩ readId
    rw [hr] at leader ⊢
    exact .of_same leader rfl rfl rfl
  | preVoteStarted | campaigned | quorumLost =>
    exact absurd leader (by simp [Ctx.queued, RaftCore.candidacy, RaftCore.becomeFollower])
  | _ => exact .of_same leader rfl rfl rfl

theorem Cause.MayReplicate.not_installed {cause : Cause C} {id : EffectId} {snapshotId : SnapshotId}
    (is : cause.event = .effectCompleted id (.snapshotInstalled snapshotId)) :
    ¬ cause.MayReplicate := by
  simp [Cause.MayReplicate, Cause.MayCommit, is]

/-- What a follow-up does to the progress of the followers. -/
theorem FollowUp.progress {cause : Cause C} {s s' : Ctx C}
    (wf : s.core.WF ∨ ∃ id snapshotId,
      cause.event = .effectCompleted id (.snapshotInstalled snapshotId))
    (hf : FollowUp cause s s') {node : NodeId} {q : Progress}
    (found' : s'.core.progress.get node = some q) :
    ∃ p, s.core.progress.get node = some p ∧ ProgressSent s.core p q := by
  have kept : s'.core.progress = s.core.progress →
      ∃ p, s.core.progress.get node = some p ∧ ProgressSent s.core p q := fun same =>
    ⟨q, by rw [← same]; exact found', .kept (.refl q)⟩
  cases hf with
  | appendSent to_ p r prev prevTerm entries found next term isBatch held matched nextPos may leading
      free batch moved =>
    simp only [BTreeMap.get_insert] at found'
    split at found'
    · next same =>
      subst same
      obtain rfl := Option.some.inj found'
      have wf : s.core.WF := wf.resolve_right (by
        rintro ⟨_, _, is⟩
        exact may.not_installed is)
      exact ⟨p, found, .sent prev wf.log next held (wf.log.term_isOk.mp ⟨_, term⟩).2 free
        (by rw [RaftLog.batchEnd, ← batch]; exact moved)⟩
    · exact ⟨q, found', .kept (.refl q)⟩
  | snapshotEntered to_ p found =>
    simp only [BTreeMap.get_insert] at found'
    split at found'
    · next same =>
      subst same
      obtain rfl := Option.some.inj found'
      exact ⟨p, found, .entered rfl⟩
    · exact ⟨q, found', .kept (.refl q)⟩
  | readStarted readId rest =>
    obtain ⟨round, hr⟩ :=
      Ctx.roundStarted_core ⟨{ s.core with pendingReads := rest }, s.effects⟩ readId
    exact kept (by rw [hr])
  | _ => exact kept rfl

/-! ## The core after a step -/

/-- Role, configuration, progress and the stored log are the same. -/
structure SameFollowers (c d : RaftCore C) : Prop where
  role : d.role = c.role
  config : d.config = c.config
  entries : d.log.entries = c.log.entries
  snapshot : d.log.snapshot = c.log.snapshot
  progress : d.progress = c.progress

/-- A step leaves the followers as they were, or as they are on a path of it. -/
inductive StepEnds [Sha256] (c : RaftCore C) (event : Event C) (d : RaftCore C) : Prop
  | kept (same : SameFollowers c d) (slot : d.stopped = true ∨ d.pendingPersist = c.pendingPersist)
  | moved (s : Ctx C) (path : Path c event s) (same : SameFollowers s.core d)
      (slot : d.pendingPersist = s.core.pendingPersist)
  -- The effect counter overflows: what was to be persisted is not.
  | stuck (s : Ctx C) (act : Act c event s) (busy : s.core.pendingPersist ≠ none)
      (same : SameFollowers s.core d)
      (slot : d.pendingPersist = c.pendingPersist ∨ d.pendingPersist = none)

theorem step_ends [Sha256] (wf : c.WF) (running : c.stopped = false) {d : RaftCore C}
    {result : Outcome StepError (StepOutput C)} (run : step c event = (result, d))
    (returns : result ≠ Outcome.panic) : StepEnds c event d := by
  have cases := step_cases wf running event
  rw [run] at cases
  have finished : ∀ s : Ctx C, SameFollowers s.core (s.finished c).core ∧
      (s.finished c).core.pendingPersist = s.core.pendingPersist := by
    intro s
    obtain ⟨proposals, hp⟩ := s.finished_core c
    rw [hp]
    exact ⟨⟨rfl, rfl, rfl, rfl, rfl⟩, rfl⟩
  cases cases with
  | panicked => exact absurd rfl returns
  | halted e c' reason halted =>
    obtain ⟨-, reads, store, incoming, building, applying, persist, rfl⟩ := halted
    exact .kept ⟨rfl, rfl, rfl, rfl, rfl⟩ (.inl rfl)
  | returned s changed path => exact .moved s path (finished s).1 (finished s).2
  | failed s e path => exact .moved s path ⟨rfl, rfl, rfl, rfl, rfl⟩ rfl
  | crashed s e reason path => exact .moved s path ⟨rfl, rfl, rfl, rfl, rfl⟩ rfl
  | invalid s e reason path =>
    obtain ⟨same, slot⟩ := finished s
    exact .moved s path ⟨same.role, same.config, same.entries, same.snapshot, same.progress⟩ slot
  | stuck e s stuck =>
    cases stuck with
    | queued d batch continuation full act slots config counter =>
      exact .stuck _ act (by simp [Ctx.queued]) ⟨rfl, rfl, rfl, rfl, rfl⟩
        (slots.imp (congrArg Slots.persist) (congrArg Slots.persist))
    | dropped => exact .kept ⟨rfl, rfl, rfl, rfl, rfl⟩ (.inr rfl)

/-! ## A leader is activated once -/

/-- What makes a leader is persisted before there is one. -/
def RaftCore.Seated (c : RaftCore C) : Prop :=
  c.role = .leader → ∀ pending, c.pendingPersist = some pending →
    pending.continuation ≠ .activateLeader ∧ pending.continuation ≠ .broadcastVoteRequests

theorem RaftCore.Seated.same {d : RaftCore C} (h : c.Seated) (role : d.role = c.role)
    (slot : d.pendingPersist = c.pendingPersist ∨ d.pendingPersist = none) : d.Seated := by
  intro leader pending found
  rcases slot with same | free
  · exact h (role ▸ leader) pending (same ▸ found)
  · simp [free] at found

theorem RaftCore.Seated.queued {s : Ctx C} {batch : PersistBatch C} {continuation : PersistContinuation}
    (h : continuation ≠ .activateLeader ∧ continuation ≠ .broadcastVoteRequests) :
    (s.queued batch continuation).core.Seated := by
  intro leader pending found
  simp only [Ctx.queued, Option.some.injEq] at found
  subst found
  exact h

theorem RaftCore.Seated.of_role (h : c.role ≠ .leader) : c.Seated :=
  fun leader => absurd leader h

theorem MessageAct.seated {from_ : NodeId} {m : Message C} {s : Ctx C} (h : c.Seated)
    (act : MessageAct c from_ m s) : s.core.Seated := by
  cases act with
  | termRaised | voteNewer | voteFirst | appendRejected | appendAccepted => exact .queued (by simp)
  | preVoteCounted term granted votes role roles notLeader =>
    rcases roles with ⟨rfl, -⟩ | ⟨rfl, -⟩
    · exact .of_role (by simp [notLeader])
    · exact .of_role (by simp)
  | campaigned | voteLost | appendFailed | appendRefused | appendHeld =>
    exact .of_role (by simp [Ctx.queued, RaftCore.candidacy, RaftCore.becomeFollower])
  | elected term granted votes entry same candidate =>
    exact .of_role (by simp [Ctx.queued, RaftCore.noopAppended, candidate])
  | _ => exact h.same rfl (.inl rfl)

theorem CompletionAct.seated [Sha256] {id : EffectId} {outcome : EffectOutcome} {s : Ctx C}
    (h : c.Seated) (act : CompletionAct c id outcome s) : s.core.Seated := by
  cases act with
  | electedAlone stableThrough votes entry found =>
    exact .of_role fun leader => (h leader _ found).2 rfl
  | activated stableThrough found =>
    intro leader pending found
    simp [RaftCore.activated, RaftCore.stabilized] at found
  | persistDropped | persistDone | votesRequested | voteAnswered | appendAnswered =>
    exact h.same rfl (.inr rfl)
  | _ => exact h.same rfl (.inl rfl)

theorem Act.seated [Sha256] {s : Ctx C} (h : c.Seated) (act : Act c event s) : s.core.Seated := by
  cases act with
  | message envelope members s known mine act =>
    have h : ({ c with activeMembers := members }).Seated := h.same rfl (.inl rfl)
    exact act.seated h
  | completed id outcome s act => exact act.seated h
  | preVoteStarted | campaigned | quorumLost =>
    exact .of_role (by simp [Ctx.queued, RaftCore.candidacy, RaftCore.becomeFollower])
  | proposed => exact .queued (by simp)
  | readStarted readId =>
    obtain ⟨round, hr⟩ := Ctx.roundStarted_core ⟨c, []⟩ readId
    rw [hr]
    exact h.same rfl (.inl rfl)
  | _ => exact h.same rfl (.inl rfl)

theorem FollowUp.seated {cause : Cause C} {s s' : Ctx C} (h : s.core.Seated)
    (hf : FollowUp cause s s') : s'.core.Seated := by
  cases hf with
  | committed => exact .queued (by simp)
  | readStarted readId rest =>
    obtain ⟨round, hr⟩ :=
      Ctx.roundStarted_core ⟨{ s.core with pendingReads := rest }, s.effects⟩ readId
    rw [hr]
    exact h.same rfl (.inl rfl)
  | _ => exact h.same rfl (.inl rfl)

theorem FollowUps.seated {cause : Cause C} {s s' : Ctx C} (h : s.core.Seated)
    (hf : FollowUps cause s s') : s'.core.Seated := by
  induction hf with
  | refl => exact h
  | tail _ hstep ih => exact hstep.seated ih

theorem RaftCore.Seated.ends [Sha256] {d : RaftCore C} (h : c.Seated) (ends : StepEnds c event d) :
    d.stopped = true ∨ d.Seated := by
  cases ends with
  | kept same slot => exact slot.imp_right fun slot => h.same same.role (.inl slot)
  | moved s path same slot =>
    obtain ⟨s₀, s, act, rest⟩ := path
    exact .inr ((rest.seated (act.seated h)).same same.role (.inl slot))
  | stuck s act busy same slot =>
    refine .inr fun leader => ?_
    have leads : s.core.role = .leader := same.role ▸ leader
    cases act.leaderMove leads with
    | opened id stableThrough found free => exact absurd free busy
    | goes was => exact h.same (leader.trans was.symm) slot leader

theorem RaftCore.Seated.step [Sha256] {d : RaftCore C} (h : c.Seated) (wf : c.WF)
    (running : c.stopped = false) {result : Outcome StepError (StepOutput C)}
    (run : step c event = (result, d)) (returns : result ≠ Outcome.panic) :
    d.stopped = true ∨ d.Seated :=
  h.ends (step_ends wf running run returns)

theorem Trace.seated [Sha256] {config : Config} {recovered : RecoveredState C}
    {history : List (Record C)} (run : Trace (RaftCore.new config recovered) history c) :
    c.stopped = true ∨ c.Seated := by
  induction run with
  | start => exact .inr (.of_role (by simp [RaftCore.new]))
  | @step history c c' event result earlier allowed run returns ih =>
    by_cases stopped : c.stopped = true
    · obtain ⟨rfl, -⟩ := step_stopped stopped run
      exact .inl stopped
    · exact (ih.resolve_left stopped).step (earlier.wf.resolve_left stopped) (by simpa using stopped)
        run returns

/-! ## What holds of each follower -/

/-- A leader's followers all have the property. -/
def RaftCore.Each (c : RaftCore C) (Q : NodeId → Config → RaftLog C → Progress → Prop) : Prop :=
  c.role = .leader → ∀ node p, c.progress.get node = some p → Q node c.config c.log p

/-- A property of a follower's progress that replication keeps. -/
structure FollowerRule (Q : NodeId → Config → RaftLog C → Progress → Prop) : Prop where
  same : ∀ {node config log log' p q}, log'.entries = log.entries → log'.snapshot = log.snapshot →
    p.Like q → Q node config log p → Q node config log' q
  sent : ∀ {node c p q}, Q node c.config c.log p → ProgressSent c p q → Q node c.config c.log q

variable {Q : NodeId → Config → RaftLog C → Progress → Prop}

theorem FollowerRule.kept (rule : FollowerRule Q) {d : RaftCore C} (h : c.Each Q)
    (same : SameFollowers c d) : d.Each Q := by
  intro leader node p found
  rw [same.config]
  exact rule.same same.entries same.snapshot (.refl p)
    (h (same.role ▸ leader) node p (by rw [← same.progress]; exact found))

theorem FollowerRule.followUp (rule : FollowerRule Q) {cause : Cause C} {s s' : Ctx C}
    (wf : s.core.WF ∨ ∃ id snapshotId,
      cause.event = .effectCompleted id (.snapshotInstalled snapshotId))
    (h : s.core.Each Q) (hf : FollowUp cause s s') : s'.core.Each Q := by
  intro leader node q found
  obtain ⟨p, found, sent⟩ := hf.progress wf found
  rw [hf.frame.config]
  exact rule.same hf.frame.entries hf.frame.snapshot (.refl q)
    (rule.sent (h (hf.frame.role ▸ leader) node p found) sent)

theorem FollowerRule.followUps [Sha256] (rule : FollowerRule Q) {s s' : Ctx C} (wf : c.WF)
    (act : Act c event s) (h : s.core.Each Q) (rest : FollowUps ⟨c, event⟩ s s') :
    s'.core.Each Q := by
  induction rest with
  | refl => exact h
  | tail rest hstep ih => exact rule.followUp (act.settled_wf wf rest) ih hstep

theorem FollowerRule.replicated (rule : FollowerRule Q) {cause : Cause C} {s s' : Ctx C}
    (wf : s.core.WF) (h : s.core.Each Q) (rest : FollowUps cause s s') : s'.core.Each Q := by
  induction rest with
  | refl => exact h
  | tail rest hstep ih => exact rule.followUp (.inl (wf.followUps rest)) ih hstep

/-- What the handler does first decides. -/
theorem FollowerRule.ends [Sha256] (rule : FollowerRule Q) {d : RaftCore C} (wf : c.WF)
    (h : c.Each Q) (ends : StepEnds c event d)
    (first : ∀ s, Act c event s → s.core.log.entries = d.log.entries →
      s.core.log.snapshot = d.log.snapshot → s.core.Each Q) : d.Each Q := by
  cases ends with
  | kept same => exact rule.kept h same
  | moved s path same =>
    obtain ⟨s₀, s, act, rest⟩ := path
    refine rule.kept (rule.followUps wf act (first s₀ act ?_ ?_) rest) same
    · rw [same.entries, rest.frame.entries]
    · rw [same.snapshot, rest.frame.snapshot]
  | stuck s act busy same =>
    exact rule.kept (first s act same.entries.symm same.snapshot.symm) same

/-! ## The log of a leader -/

/-- The log lost entries only at its start and got new ones only at its end. -/
def RaftLog.Grows (log log' : RaftLog C) : Prop :=
  ∃ k added, k ≤ log.entries.length ∧ log'.entries = log.entries.drop k ++ added ∧
    log'.snapshotIndex = log.snapshotIndex + k

theorem RaftLog.Grows.of_same {log log' : RaftLog C} (entries : log'.entries = log.entries)
    (snapshot : log'.snapshot = log.snapshot) : log.Grows log' :=
  ⟨0, [], Nat.zero_le _, by simp [entries], by simp [RaftLog.snapshotIndex, snapshot]⟩

theorem RaftLog.Grows.lastIndex_le {log log' : RaftLog C} (wf : log.WF) (wf' : log'.WF)
    (h : log.Grows log') : log.lastIndex ≤ log'.lastIndex := by
  obtain ⟨k, added, inside, entries, snapshot⟩ := h
  rw [wf.lastIndex, wf'.lastIndex, entries, snapshot, List.length_append, List.length_drop]
  omega

/-- Only an installed snapshot takes entries away from the end. -/
theorem LogMove.grows {log : RaftLog C} (wf : c.log.WF) (move : LogMove c event log) :
    c.log.Grows log ∧ c.log.lastIndex ≤ log.lastIndex ∨
    ∃ id snapshotId record from_ term, event = .effectCompleted id (.snapshotInstalled snapshotId) ∧
      c.incomingSnapshotState = some (.installing id record from_ term) ∧
      c.log.installSnapshot record = .ok log := by
  cases move with
  | same entries snapshot =>
    refine .inl ⟨.of_same entries snapshot, le_of_eq ?_⟩
    simp [RaftLog.lastIndex, RaftLog.snapshotIndex, entries, snapshot]
  | appended entry next entries snapshot =>
    have added : log.snapshotIndex = c.log.snapshotIndex := by simp [RaftLog.snapshotIndex, snapshot]
    refine .inl ⟨⟨0, [entry], Nat.zero_le _, by simp [entries], added⟩, ?_⟩
    have last : log.lastIndex = entry.index := by simp [RaftLog.lastIndex, entries]
    omega
  | compacted record ok =>
    have wf' := wf.compacted ok
    obtain ⟨-, term, rfl⟩ := wf.compact_eq_ok ok
    obtain ⟨above, held⟩ := wf.term_isOk.mp ⟨_, term⟩
    have last := wf.lastIndex
    have grows : c.log.Grows { c.log with
        entries := c.log.entries.drop (record.metadata.index - c.log.snapshotIndex)
        snapshot := some record
        unstable := c.log.unstable.discardThrough record.metadata.index } :=
      ⟨record.metadata.index - c.log.snapshotIndex, [], by omega, (List.append_nil _).symm,
        (Nat.add_sub_cancel' above).symm⟩
    exact .inl ⟨grows, grows.lastIndex_le wf wf'⟩
  | installed id snapshotId record from_ term is found ok =>
    exact .inr ⟨id, snapshotId, record, from_, term, is, found, ok⟩

end Ruft
