import Ruft.Exec

set_option autoImplicit false

/-!
# Role-scoped state

The vote counters belong to an election, the progress map and the reads to a leader. A core
that changes its role drops what belongs to the old one, except a leader that hears of a
newer term in a `RequestVote`: that path resets the counters only.

## Main results

- `role_scoped` — volatile state matches the role along every run without such a request
- `deposed_keeps_progress` — a leader that grants a vote keeps its progress map
-/

namespace Ruft

variable {C : Type} {c : RaftCore C} {event : Event C}

/-- Vote counters exist during an election only, progress and reads in a leader only. -/
structure RaftCore.RoleScoped (c : RaftCore C) : Prop where
  preVotes : c.preVotes.isSome = true ↔ c.role = .preCandidate
  votes : c.votes.isSome = true ↔ c.role = .candidate
  leads : c.role ≠ .leader → c.progress = .empty ∧ c.readRound = none ∧ c.pendingReads = []

/-- A leader takes no `RequestVote` of a newer term. -/
def NotDeposedByVote : Condition C := fun _ c event =>
  match event with
  | .messageReceived envelope => ∀ term index logTerm,
      envelope.message = .requestVote term index logTerm → c.hardState.currentTerm < term →
      c.role ≠ .leader
  | _ => True

/-- The invariant: no pre-vote round is open when a won election is made durable. -/
structure RaftCore.Scoped (c : RaftCore C) : Prop extends c.RoleScoped where
  activating : ∀ id stable, c.pendingPersist = some ⟨id, stable, .activateLeader⟩ →
    c.role ≠ .preCandidate

namespace RaftCore

theorem RoleScoped.congr {d : RaftCore C} (h : c.RoleScoped) (preVotes : d.preVotes = c.preVotes)
    (votes : d.votes = c.votes) (role : d.role = c.role) (progress : d.progress = c.progress)
    (round : d.readRound = c.readRound) (reads : d.pendingReads = c.pendingReads) :
    d.RoleScoped where
  preVotes := by rw [preVotes, role]; exact h.preVotes
  votes := by rw [votes, role]; exact h.votes
  leads := by rw [role, progress, round, reads]; exact h.leads

theorem Scoped.congr {d : RaftCore C} (h : c.Scoped) (preVotes : d.preVotes = c.preVotes)
    (votes : d.votes = c.votes) (role : d.role = c.role) (progress : d.progress = c.progress)
    (round : d.readRound = c.readRound) (reads : d.pendingReads = c.pendingReads)
    (persist : d.pendingPersist = c.pendingPersist ∨ d.pendingPersist = none) : d.Scoped where
  toRoleScoped := h.toRoleScoped.congr preVotes votes role progress round reads
  activating := by
    intro id stable found
    rw [role]
    rcases persist with same | none
    · exact h.activating id stable (same ▸ found)
    · simp [none] at found

/-- A leader may change its progress and its reads. -/
theorem Scoped.leading {d : RaftCore C} (h : c.Scoped) (leader : c.role = .leader)
    (preVotes : d.preVotes = c.preVotes) (votes : d.votes = c.votes) (role : d.role = c.role) :
    d.Scoped where
  preVotes := by rw [preVotes, role]; exact h.preVotes
  votes := by rw [votes, role]; exact h.votes
  leads := fun other => absurd (role.trans leader) other
  activating := by
    intro id stable found
    rw [role, leader]
    simp

/-- A persist that does not activate a leader. -/
theorem RoleScoped.queued {effects : List (Effect C)} {batch : PersistBatch C}
    {continuation : PersistContinuation} (h : c.RoleScoped)
    (other : continuation = .activateLeader → c.role ≠ .preCandidate) :
    (Ctx.queued ⟨c, effects⟩ batch continuation).core.Scoped where
  toRoleScoped := h.congr rfl rfl rfl rfl rfl rfl
  activating := by
    intro id stable found
    simp only [Ctx.queued, Option.some.injEq, PendingPersist.mk.injEq] at found
    exact other found.2.2

theorem becomeFollower_roleScoped (c : RaftCore C) : c.becomeFollower.RoleScoped where
  preVotes := by simp [becomeFollower]
  votes := by simp [becomeFollower]
  leads := fun _ => ⟨rfl, rfl, rfl⟩

theorem becomeFollower_scoped (c : RaftCore C) : c.becomeFollower.Scoped where
  toRoleScoped := c.becomeFollower_roleScoped
  activating := by simp [becomeFollower]

theorem RoleScoped.candidacy (h : c.RoleScoped) (notLeader : c.role ≠ .leader) :
    c.candidacy.RoleScoped where
  preVotes := by simp [RaftCore.candidacy]
  votes := by simp [RaftCore.candidacy]
  leads := fun _ => h.leads notLeader

/-! ## Every act and every follow-up -/

theorem Scoped.messageAct (h : c.Scoped) {from_ : NodeId} {m : Message C} {s : Ctx C}
    (act : MessageAct c from_ m s) (meets : ∀ term index logTerm,
      m = .requestVote term index logTerm → c.hardState.currentTerm < term → c.role ≠ .leader) :
    s.core.Scoped ∧ (s.core.role = .preCandidate → c.role = .preCandidate) := by
  cases act with
  | termRaised m term is newer =>
    have follower : (c.termRaised term).RoleScoped :=
      c.becomeFollower_roleScoped.congr rfl rfl rfl rfl rfl rfl
    exact ⟨follower.queued (by simp), by simp [Ctx.queued, termRaised, becomeFollower]⟩
  | voteNewer term index logTerm newer vote granted =>
    have notLeader := meets term index logTerm rfl newer
    refine ⟨RoleScoped.queued ⟨by simp, by simp, fun _ => h.leads notLeader⟩ (by simp), ?_⟩
    simp [Ctx.queued]
  | voteFirst term =>
    have same : RaftCore.RoleScoped { c with
        hardState := ⟨term, some from_, c.hardState.commitIndex⟩ } :=
      h.toRoleScoped.congr rfl rfl rfl rfl rfl rfl
    exact ⟨same.queued (by simp), id⟩
  | preVoteCounted term granted votes role roles notLeader =>
    have idle := h.leads (by simp [notLeader])
    have votesNone := h.votes
    rw [notLeader] at votesNone
    rcases roles with ⟨rfl, some⟩ | ⟨rfl, rfl⟩
    · exact ⟨⟨⟨by simp [some, notLeader], h.votes, h.leads⟩, h.activating⟩, id⟩
    · exact ⟨⟨⟨by simp, by simpa using votesNone, fun _ => idle⟩, by simp⟩, by simp⟩
  | campaigned term granted votes notLeader =>
    refine ⟨(h.toRoleScoped.candidacy (by simp [notLeader])).queued (by simp), ?_⟩
    simp [Ctx.queued, RaftCore.candidacy]
  | voteCounted term granted votes same candidate found =>
    exact ⟨⟨⟨h.preVotes, by simp [candidate], h.leads⟩, h.activating⟩, id⟩
  | voteLost term granted candidate =>
    have idle := h.leads (by simp [candidate])
    have noPreVotes := h.preVotes
    rw [candidate] at noPreVotes
    exact ⟨⟨⟨by simpa using noPreVotes, by simp, fun _ => idle⟩, by simp⟩, by simp⟩
  | elected term granted votes entry same candidate found won next =>
    have elects : ({ c with votes := some (votes.record from_ granted) }.noopAppended
        entry).RoleScoped := ⟨h.preVotes, by simp [noopAppended, candidate], h.leads⟩
    exact ⟨elects.queued (by simp [noopAppended, candidate]), id⟩
  | appendFailed | appendRefused | appendHeld =>
    exact ⟨c.becomeFollower_scoped, by simp [becomeFollower]⟩
  | appendRejected term =>
    have follower : (c.termRaised term).RoleScoped :=
      c.becomeFollower_roleScoped.congr rfl rfl rfl rfl rfl rfl
    exact ⟨follower.queued (by simp), by simp [Ctx.queued, termRaised, becomeFollower]⟩
  | appendAccepted term prev prevTerm leaderCommit context entries log =>
    have follower : (c.merged term leaderCommit log).RoleScoped :=
      c.becomeFollower_roleScoped.congr rfl rfl rfl rfl rfl rfl
    exact ⟨follower.queued (by simp), by simp [Ctx.queued, merged, becomeFollower]⟩
  | acknowledged term matchIndex conflict context p q leader =>
    exact ⟨h.leading leader rfl rfl rfl, id⟩
  | backedOff term matchIndex conflict context p q leader =>
    exact ⟨h.leading leader rfl rfl rfl, id⟩
  | senderDone term sender progress leader => exact ⟨h.leading leader rfl rfl rfl, id⟩
  | _ => exact ⟨h.congr rfl rfl rfl rfl rfl rfl (.inl rfl), id⟩

theorem Scoped.completionAct [Sha256] (h : c.Scoped) {id : EffectId} {outcome : EffectOutcome}
    {s : Ctx C} (act : CompletionAct c id outcome s) :
    s.core.Scoped ∧ (s.core.role = .preCandidate → c.role = .preCandidate) := by
  cases act with
  | electedAlone stableThrough votes entry found counted won next =>
    have candidate := h.votes.mp (by rw [counted]; rfl)
    have elects : ((c.stabilized stableThrough).noopAppended entry).RoleScoped :=
      h.toRoleScoped.congr rfl rfl rfl rfl rfl rfl
    exact ⟨elects.queued (by simp [noopAppended, stabilized, candidate]), fun role => role⟩
  | activated stableThrough found =>
    have noPreVotes := mt h.preVotes.mp (h.activating _ _ found)
    refine ⟨⟨⟨?_, ?_, ?_⟩, ?_⟩, ?_⟩
    · simpa [RaftCore.activated, stabilized] using noPreVotes
    · simp [RaftCore.activated]
    · simp [RaftCore.activated]
    · simp [RaftCore.activated]
    · simp [RaftCore.activated]
  | persistDropped | persistDone | votesRequested | voteAnswered | appendAnswered =>
    exact ⟨h.congr rfl rfl rfl rfl rfl rfl (.inr rfl), fun role => role⟩
  | _ => exact ⟨h.congr rfl rfl rfl rfl rfl rfl (.inl rfl), fun role => role⟩

theorem Scoped.act [Sha256] {history : List (Record C)} (h : c.Scoped) {s : Ctx C}
    (act : Act c event s) (meets : NotDeposedByVote history c event) :
    s.core.Scoped ∧
      (s.core.role = .preCandidate → c.role = .preCandidate ∨ c.pendingPersist = none) := by
  cases act with
  | preVoteStarted notLeader free =>
    refine ⟨⟨⟨by simp, by simp, fun _ => h.leads notLeader⟩, ?_⟩, fun _ => .inr free⟩
    intro id stable found
    simp [free] at found
  | campaigned notLeader free =>
    refine ⟨(h.toRoleScoped.candidacy notLeader).queued (by simp), ?_⟩
    simp [Ctx.queued, RaftCore.candidacy]
  | quorumLost => exact ⟨c.becomeFollower_scoped, by simp [becomeFollower]⟩
  | heartbeat leader => exact ⟨h.leading leader rfl rfl rfl, .inl⟩
  | message envelope members s known mine act =>
    have h' : ({ c with activeMembers := members }).Scoped :=
      h.congr rfl rfl rfl rfl rfl rfl (.inl rfl)
    obtain ⟨fits, role⟩ := h'.messageAct act meets
    exact ⟨fits, fun pre => .inl (role pre)⟩
  | proposed proposalId command encodedLen entry leader free next payload =>
    have appended : (c.proposalAppended entry proposalId).RoleScoped :=
      h.toRoleScoped.congr rfl rfl rfl rfl rfl rfl
    exact ⟨appended.queued (by simp), .inl⟩
  | readQueued readId context leader => exact ⟨h.leading leader rfl rfl rfl, .inl⟩
  | readJoined readId context round leader => exact ⟨h.leading leader rfl rfl rfl, .inl⟩
  | readStarted readId context leader =>
    obtain ⟨round, hr⟩ := Ctx.roundStarted_core ⟨c, []⟩ readId
    rw [hr]
    exact ⟨h.leading leader rfl rfl rfl, .inl⟩
  | completed id outcome s act =>
    obtain ⟨fits, role⟩ := h.completionAct act
    exact ⟨fits, fun pre => .inl (role pre)⟩
  | shutDown =>
    exact ⟨h.congr rfl rfl rfl rfl rfl rfl (.inl rfl), .inl⟩
  | _ => exact ⟨h, .inl⟩

/-- Progress belongs to a leader. -/
theorem RoleScoped.leader_of_progress (h : c.RoleScoped) {node : NodeId} {p : Progress}
    (found : c.progress.get node = some p) : c.role = .leader := by
  by_contra other
  rw [(h.leads other).1] at found
  simp at found

theorem Scoped.followUp {cause : Cause C} {s s' : Ctx C} (h : s.core.Scoped)
    (hf : FollowUp cause s s') : s'.core.Scoped := by
  cases hf with
  | appendSent to_ p q prev prevTerm entries found =>
    exact h.leading (h.leader_of_progress found) rfl rfl rfl
  | snapshotEntered to_ p found =>
    exact h.leading (h.leader_of_progress found) rfl rfl rfl
  | committed commit may noPersist =>
    have same : RaftCore.RoleScoped { s.core with
        log := { s.core.log with committed := commit }
        hardState := { s.core.hardState with commitIndex := commit } } :=
      h.toRoleScoped.congr rfl rfl rfl rfl rfl rfl
    exact same.queued (by simp)
  | readAcknowledged envelope term matchIndex conflict context round is message leader =>
    exact h.leading leader rfl rfl rfl
  | readReleased round index found =>
    exact ⟨⟨h.preVotes, h.votes, fun other => ⟨(h.leads other).1, rfl, (h.leads other).2.2⟩⟩,
      h.activating⟩
  | readStarted readId rest leader =>
    obtain ⟨round, hr⟩ :=
      Ctx.roundStarted_core ⟨{ s.core with pendingReads := rest }, s.effects⟩ readId
    rw [hr]
    exact h.leading leader rfl rfl rfl
  | readLost readId rest queue =>
    have leader : s.core.role = .leader := by
      by_contra other
      simp [(h.leads other).2.2] at queue
    exact h.leading leader rfl rfl rfl
  | recorded id outcome is =>
    exact h.congr rfl rfl rfl rfl rfl rfl (.inl rfl)
  | _ => exact h.congr rfl rfl rfl rfl rfl rfl (.inl rfl)

theorem Scoped.stuck [Sha256] {history : List (Record C)} {s : Ctx C} {e : StepError}
    (h : c.Scoped) (meets : NotDeposedByVote history c event)
    (stuck : Stuck c (Act c event) e s) : s.core.Scoped := by
  cases stuck with
  | queued d batch continuation full act slots =>
    obtain ⟨fits, role⟩ := h.act act meets
    refine ⟨fits.toRoleScoped.congr rfl rfl rfl rfl rfl rfl, ?_⟩
    intro id stable found pre
    -- The slot still holds what it held before the step.
    have kept : c.pendingPersist = some ⟨id, stable, .activateLeader⟩ := by
      rcases slots with same | same
      · exact (congrArg Slots.persist same).symm.trans found
      · exact absurd ((congrArg Slots.persist same).symm.trans found) (by simp)
    rcases role pre with before | free
    · exact h.activating id stable kept before
    · simp [free] at kept
  | dropped => exact h.congr rfl rfl rfl rfl rfl rfl (.inl rfl)

theorem new_scoped (config : Config) (recovered : RecoveredState C) :
    (RaftCore.new config recovered).Scoped where
  preVotes := by simp [RaftCore.new]
  votes := by simp [RaftCore.new]
  leads := fun _ => ⟨rfl, rfl, rfl⟩
  activating := by simp [RaftCore.new]

end RaftCore

theorem scoped_keeps [Sha256] : Keeps (NotDeposedByVote : Condition C)
    (fun _ c => c.Scoped) (fun _ _ _ s => s.core.Scoped) (fun _ _ => True) where
  act hs h act := (h.act act hs.meets).1
  followUp _ _ _ h hf := h.followUp hf
  finished := by
    intro history c event s _ h
    obtain ⟨proposals, hp⟩ := s.finished_core c
    rw [hp]
    exact h.congr rfl rfl rfl rfl rfl rfl (.inl rfl)
  returned _ _ h := h
  failed _ _ h _ := h
  safe _ := trivial
  ended _ _ _ _ := trivial
  halted _ _ _ _ _ := trivial
  idle _ _ _ _ _ _ := trivial

/-- The volatile state of every running core matches its role, when no leader is deposed by a
`RequestVote`. -/
theorem role_scoped [Sha256] (config : NodeId → Config) (recovered : NodeId → RecoveredState C)
    {history : List (NodeId × Record C)} {cores : NodeId → RaftCore C}
    (run : Run (fun node => RaftCore.new (config node) (recovered node)) history cores)
    (node : NodeId) (stays : Holds NotDeposedByVote (localHistory history node))
    (running : (cores node).stopped = false) : (cores node).RoleScoped := by
  obtain ⟨-, hrun⟩ := Trace.invariant_of_stuck scoped_keeps
    (fun hs h stuck => h.stuck hs.meets stuck) (RaftCore.new_wf _ _) (RaftCore.new_scoped _ _)
    (run.trace node) stays
  exact (hrun.resolve_left (by simp [running])).2.toRoleScoped

/-- `NotDeposedByVote` as a check. -/
def notDeposedCheck (c : RaftCore C) (event : Event C) : Bool :=
  match event with
  | .messageReceived envelope => match envelope.message with
    | .requestVote _ _ _ => c.role ≠ .leader
    | _ => true
  | _ => true

theorem notDeposed_of_check (history : List (Record C)) (c : RaftCore C) (event : Event C)
    (h : notDeposedCheck c event = true) : NotDeposedByVote history c event := by
  unfold NotDeposedByVote
  split
  · intro term index logTerm is _
    simpa [notDeposedCheck, is] using h
  · trivial

/-- Node 1 is elected. -/
theorem role_scoped_elected : ∃ w : World Nat,
    @Run Nat sha256Empty trio w.history (w.core trio) ∧ (w.core trio 1).role = .leader ∧
    (w.core trio 1).RoleScoped := by
  let _ : Sha256 := sha256Empty
  obtain ⟨w, run, checked⟩ := World.exec_any trio Script.electFirst
    (fun w => (w.core trio 1).role = .leader && (w.core trio 1).stopped = false &&
      (localHistory w.history 1).all fun r => notDeposedCheck r.before r.event)
    (by decide +kernel)
  simp only [Bool.and_eq_true, decide_eq_true_eq] at checked
  refine ⟨w, run, checked.1.1, ?_⟩
  exact role_scoped trioConfigs (fun _ => .initial) run 1
    (Holds.of_all notDeposed_of_check checked.2) checked.1.2

/-- Node 2 campaigns with the pre-vote of node 3, and node 1 grants its vote. -/
theorem deposed_keeps_progress : ¬ ∀ (history : List (NodeId × Record Nat))
    (cores : NodeId → RaftCore Nat), @Run Nat sha256Empty trio history cores →
    ∀ node, (cores node).stopped = false → (cores node).RoleScoped := by
  let _ : Sha256 := sha256Empty
  intro h
  obtain ⟨w, run, bad⟩ := World.exec_any trio (Script.electFirst ++
      [Script.elect 2, Script.deliver 9, Script.deliver 10, Script.persisted 2 2,
        Script.deliver 11])
    (fun w => (w.core trio 1).stopped = false && (w.core trio 1).role = .follower &&
      (w.core trio 1).progress.keys = [2, 3])
    (by decide +kernel)
  simp only [Bool.and_eq_true, decide_eq_true_eq] at bad
  obtain ⟨⟨running, follower⟩, keys⟩ := bad
  have idle := (h _ _ run 1 running).leads (by simp [follower])
  rw [idle.1] at keys
  simp [BTreeMap.empty, BTreeMap.keys] at keys

end Ruft
