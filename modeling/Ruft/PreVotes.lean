import Mathlib.Data.List.TakeWhile
import Ruft.Leadership
import Ruft.Exec

set_option autoImplicit false

/-!
# Pre-votes

A core that wants to campaign first asks whether its peers would vote for it, and raises its
term when a quorum would. A response does not say which request it answers, so a late one
from an earlier round counts in the round in progress.

## Main definitions

- `Opens` — an election tick starts a round
- `InRound` — the last round of a node and what happened since it was opened
- `Granted` — a member granted a request of this round
- `Guarded` — who becomes candidate had a quorum in its round
- `RoundOnly` — the condition on the steps of a run

## Main results

- `preVote_guards` — every step of a run whose steps meet the condition is guarded
-/

namespace Ruft

open Program StepM

variable {C : Type} {c d : RaftCore C} {event : Event C} {s : Ctx C}

/-! ## Rounds -/

/-- The core starts a pre-vote round. -/
def Opens (c : RaftCore C) : Event C → Prop
  | .tick .election => c.stopped = false ∧ c.role ≠ .leader ∧ c.pendingPersist.isNone = true ∧
      c.hardState.currentTerm < u64Max
  | _ => False

instance (c : RaftCore C) (event : Event C) : Decidable (Opens c event) :=
  match event with
  | .tick .election => inferInstanceAs (Decidable (_ ∧ _))
  | .tick .heartbeat | .messageReceived _ | .propose _ _ _ | .read _ _ | .snapshotRequested
  | .effectCompleted _ _ | .shutdown => .isFalse id

/-- The history goes back to the step that opened the last round of the node. -/
structure InRound (history : List (NodeId × Record C)) (node : NodeId) (start : Record C)
    (since : List (NodeId × Record C)) : Prop where
  split : ∃ earlier, history = since ++ (node, start) :: earlier
  opens : Opens start.before start.event
  last : ∀ r, (node, r) ∈ since → ¬ Opens r.before r.event

/-- The member granted a pre-vote for the prospective term that the node asked for when it
opened the round in progress. -/
def Granted (history : List (NodeId × Record C)) (node member : NodeId) (prospective : Nat) : Prop :=
  ∃ start since, InRound history node start since ∧ ∃ r request index logTerm term,
    (member, r) ∈ since ∧ r.event = .messageReceived request ∧ request.from_ = node ∧
    request.message = .preVote prospective index logTerm ∧
    .sendMessage member request.message ∈ start.effects ∧
    .sendMessage node (.preVoteResponse term true) ∈ r.effects

/-- The step ends a pre-vote round with the node a candidate. -/
def Campaigns (r : Record C) : Prop :=
  r.after.role = .candidate ∧ (r.before.role = .preCandidate ∨ Opens r.before r.event)

/-- A node that becomes candidate raises its term by one, and a quorum, the node included, has
granted it a pre-vote for that term in the round. -/
def Guarded (earlier : List (NodeId × Record C)) (step : NodeId × Record C) : Prop :=
  Campaigns step.2 →
    step.2.after.hardState.currentTerm = step.2.before.hardState.currentTerm + 1 ∧
    ∃ voters ⊆ step.2.before.config.members.toFinset,
      step.2.before.config.quorum ≤ voters.card ∧ step.1 ∈ voters ∧
      ∀ v ∈ voters, v = step.1 ∨ Granted earlier step.1 v (step.2.before.hardState.currentTerm + 1)

/-- The message answers one that the node sent when it opened the round. -/
def Answers (start : Record C) (since : List (NodeId × Record C)) (node member : NodeId)
    (response : Message C) : Prop :=
  ∃ r request, (member, r) ∈ since ∧ r.event = .messageReceived request ∧ request.from_ = node ∧
    .sendMessage member request.message ∈ start.effects ∧ .sendMessage node response ∈ r.effects

/-- A grant is only counted in the round whose request it answers. -/
def CountsInRound (history : List (NodeId × Record C)) (node : NodeId) (c : RaftCore C) :
    Event C → Prop
  | .messageReceived envelope => ∀ term votes, c.role = .preCandidate → c.preVotes = some votes →
      validateEnvelope c envelope = .ok () → envelope.message = .preVoteResponse term true →
      term ≤ c.hardState.currentTerm → votes.record envelope.from_ true ≠ votes →
      ∃ start since, InRound history node start since ∧
        Answers start since node envelope.from_ envelope.message
  | _ => True

/-- No installed snapshot raises the term in the middle of a round. -/
def KeepsRound (c : RaftCore C) : Event C → Prop
  | .effectCompleted id (.snapshotInstalled _) => ∀ record from_ term,
      c.incomingSnapshotState = some (.installing id record from_ term) →
      c.hardState.currentTerm < term → c.role ≠ .preCandidate
  | _ => True

def RoundOnly (earlier : List (NodeId × Record C)) (step : NodeId × Record C) : Prop :=
  CountsInRound earlier step.1 step.2.before step.2.event ∧ KeepsRound step.2.before step.2.event

/-! ## One step -/

/-- The step counts a response in the pre-vote round, with this outcome. -/
inductive Counts (c : RaftCore C) : Event C → QuorumTracker → Prop
  | mk (envelope : Envelope C) (term : Nat) (granted : Bool) (votes : QuorumTracker)
      (valid : validateEnvelope c envelope = .ok ())
      (is : envelope.message = .preVoteResponse term granted) (role : c.role = .preCandidate)
      (found : c.preVotes = some votes) (reached : term ≤ c.hardState.currentTerm) :
      Counts c (.messageReceived envelope) (votes.record envelope.from_ granted)

/-- What a step that opens no round does to the one in progress. -/
structure Continues (c : RaftCore C) (event : Event C) (d : RaftCore C) : Prop where
  config : d.config = c.config
  round : d.role = .preCandidate → KeepsRound c event → c.role = .preCandidate ∧
    d.hardState.currentTerm = c.hardState.currentTerm ∧
    ∀ votes, d.preVotes = some votes → c.preVotes = some votes ∨ Counts c event votes
  campaign : d.role = .candidate → c.role = .preCandidate →
    d.hardState.currentTerm = c.hardState.currentTerm + 1 ∧
    ∃ votes, Counts c event votes ∧ votes.hasQuorum = true

theorem Continues.congr {d' : RaftCore C} (h : Continues c event d) (config : d'.config = d.config)
    (role : d'.role = d.role) (term : d'.hardState.currentTerm = d.hardState.currentTerm)
    (votes : d'.preVotes = d.preVotes) : Continues c event d' where
  config := config.trans h.config
  round pre keeps := by
    obtain ⟨before, same, counted⟩ := h.round (role ▸ pre) keeps
    exact ⟨before, term.trans same, fun tracker found => counted tracker (votes ▸ found)⟩
  campaign candidate pre := by
    obtain ⟨next, won⟩ := h.campaign (role ▸ candidate) pre
    exact ⟨term.trans next, won⟩

/-- A step that leaves the round as it is. -/
theorem Continues.same (config : d.config = c.config) (role : d.role = c.role)
    (term : d.hardState.currentTerm = c.hardState.currentTerm) (votes : d.preVotes = c.preVotes) :
    Continues c event d where
  config := config
  round pre _ := ⟨role ▸ pre, term, fun _ found => .inl (votes ▸ found)⟩
  campaign candidate pre := absurd (pre.symm.trans (role ▸ candidate)) (by simp)

/-- A step that ends the round without a candidacy. -/
theorem Continues.ends (config : d.config = c.config) (role : d.role ≠ .preCandidate)
    (candidate : d.role ≠ .candidate) : Continues c event d where
  config := config
  round pre := absurd pre role
  campaign won := absurd won candidate

theorem Continues.messageAct {members : Finset NodeId} {envelope : Envelope C}
    (valid : validateEnvelope c envelope = .ok ())
    (act : MessageAct { c with activeMembers := members } envelope.from_ envelope.message s) :
    Continues c (.messageReceived envelope) s.core := by
  generalize hm : envelope.message = m at act
  cases act with
  | preVoteCounted term granted votes role roles notLeader reached counted =>
    rcases roles with ⟨rfl, -⟩ | ⟨rfl, rfl⟩
    · have notLeader : c.role = .preCandidate := notLeader
      refine ⟨rfl, fun _ _ => ⟨notLeader, rfl, fun tracker found => .inr ?_⟩, fun won => ?_⟩
      · obtain ⟨old, before, rfl⟩ := counted tracker found
        exact .mk envelope term granted old valid hm notLeader before reached
      · exact absurd (notLeader.symm.trans won) (by simp)
    · exact .ends rfl (by simp) (by simp)
  | campaigned term granted votes notLeader found won reached =>
    refine ⟨rfl, by simp [Ctx.queued, RaftCore.candidacy], fun _ _ => ⟨rfl, _, ?_, won⟩⟩
    exact .mk envelope term granted votes valid hm notLeader found reached
  | termRaised | voteNewer | appendRejected | appendAccepted =>
    exact .ends rfl (by simp [Ctx.queued, RaftCore.termRaised, RaftCore.merged,
      RaftCore.becomeFollower]) (by simp [Ctx.queued, RaftCore.termRaised, RaftCore.merged,
        RaftCore.becomeFollower])
  | voteFirst term index logTerm same => exact .same rfl rfl same.symm rfl
  | voteLost | appendFailed | appendRefused | appendHeld =>
    exact .ends rfl (by simp [RaftCore.becomeFollower]) (by simp [RaftCore.becomeFollower])
  | _ => exact .same rfl rfl rfl rfl

theorem Continues.completionAct [Sha256] {id : EffectId} {outcome : EffectOutcome}
    (act : CompletionAct c id outcome s) : Continues c (.effectCompleted id outcome) s.core := by
  cases act with
  | installed snapshotId record from_ term log found install =>
    refine ⟨rfl, fun pre keeps => ⟨pre, ?_, fun _ found => .inl found⟩, fun won pre => ?_⟩
    · have old := mt (keeps record from_ term found) (not_not_intro pre)
      exact max_eq_left (Nat.le_of_not_lt old)
    · exact absurd (pre.symm.trans won) (by simp)
  | activated => exact .ends rfl (by simp [RaftCore.activated]) (by simp [RaftCore.activated])
  | _ => exact .same rfl rfl rfl rfl

theorem Continues.act [Sha256] (other : event ≠ .tick .election) (act : Act c event s) :
    Continues c event s.core := by
  cases act with
  | preVoteStarted | campaigned => exact absurd rfl other
  | quorumLost =>
    exact .ends rfl (by simp [RaftCore.becomeFollower]) (by simp [RaftCore.becomeFollower])
  | message envelope members s known mine act cluster =>
    refine Continues.messageAct ?_ act
    simp [validateEnvelope, known, mine, cluster]
  | completed id outcome s act => exact .completionAct act
  | readStarted readId =>
    obtain ⟨round, hr⟩ := Ctx.roundStarted_core ⟨c, []⟩ readId
    rw [hr]
    exact .same rfl rfl rfl rfl
  | _ => exact .same rfl rfl rfl rfl

theorem Continues.path [Sha256] (other : event ≠ .tick .election) (path : Path c event s) :
    Continues c event s.core := by
  obtain ⟨s₀, _, act, rest⟩ := path
  have frame := rest.frame
  exact (Continues.act other act).congr frame.config frame.role frame.term frame.preVotes

theorem Continues.finished (h : Continues c event s.core) :
    Continues c event (s.finished c).core := by
  obtain ⟨proposals, core⟩ := s.finished_core c
  rw [core]
  exact h.congr rfl rfl rfl rfl

theorem Continues.stepped [Sha256] {result : Outcome StepError (StepOutput C)}
    (other : event ≠ .tick .election) (returns : result ≠ Outcome.panic)
    (h : Stepped c event result d) : Continues c event d := by
  cases h with
  | panicked => exact absurd rfl returns
  | halted e c' reason halt =>
    obtain ⟨-, reads, store, incoming, building, applying, persist, rfl⟩ := halt
    exact .same rfl rfl rfl rfl
  | returned s changed path => exact (Continues.path other path).finished
  | failed s e path => exact .path other path
  | crashed s e reason path => exact (Continues.path other path).congr rfl rfl rfl rfl
  | invalid s e reason path => exact (Continues.path other path).finished.congr rfl rfl rfl rfl
  | stuck e s stuck =>
    cases stuck with
    | queued d batch continuation full act => exact (Continues.act other act).congr rfl rfl rfl rfl
    | dropped => exact .same rfl rfl rfl rfl

/-! ## Election ticks -/

theorem conclude_frame (run : Outcome StepError Unit × Ctx C) : ∃ proposals stopped reason,
    (conclude c run).2 = { run.2.core with
      proposals := proposals, stopped := stopped, stoppedReason := reason } := by
  obtain ⟨r, s⟩ := run
  cases r with
  | error f =>
    cases f with
    | panic => exact ⟨_, _, _, rfl⟩
    | raise e =>
      rcases s.core.fatalize_cases e with ⟨-, reason, stops⟩ | ⟨-, stays⟩
      · exact ⟨_, _, _, stops⟩
      · exact ⟨_, _, _, congrArg Prod.snd stays⟩
  | ok u =>
    obtain ⟨proposals, core⟩ := s.finished_core c
    simp only [conclude]
    split <;> rw [core] <;> exact ⟨_, _, _, rfl⟩

/-- What follows the handler of an event writes neither the role nor the term nor the votes, and
sends no message. -/
theorem step_frame [Sha256] (running : c.stopped = false) (event : Event C) :
    ∃ sequence applying proposals stopped reason, (step c event).2 =
      { (handle event ⟨c, []⟩).2.core with
        nextEffectSequence := sequence, pendingApply := applying, proposals := proposals
        stopped := stopped, stoppedReason := reason } ∧
    ∀ output, (step c event).1 = .ok output → ∀ to_ m, .sendMessage to_ m ∈ output.effects →
      .sendMessage to_ m ∈ (handle event ⟨c, []⟩).2.effects := by
  obtain ⟨sequence, applying, new, frame, silent⟩ : ∃ sequence applying new,
      (process event ⟨c, []⟩).2 = ⟨{ (handle event ⟨c, []⟩).2.core with
        nextEffectSequence := sequence, pendingApply := applying },
        (handle event ⟨c, []⟩).2.effects ++ new⟩ ∧ ∀ to_ m, .sendMessage to_ m ∉ new := by
    cases hrun : handle event ⟨c, []⟩ with
    | mk r s =>
      cases r with
      | ok u =>
        rw [process, bind_run_ok hrun]
        obtain ⟨sequence, applying, new, frame, applies⟩ := emitApply_frame s
        refine ⟨sequence, applying, new, frame, fun to_ m sent => ?_⟩
        obtain ⟨id, entries, is⟩ := applies _ sent
        simp at is
      | error f =>
        rw [process, bind_run_error hrun]
        exact ⟨_, _, [], by rw [List.append_nil], by simp⟩
  rw [step_eq running]
  refine ⟨sequence, applying, ?_⟩
  obtain ⟨proposals, stopped, reason, core⟩ := @conclude_frame C c (process event ⟨c, []⟩)
  refine ⟨proposals, stopped, reason, by rw [core, frame], fun output returned to_ m sent => ?_⟩
  obtain ⟨s, run, effects, -⟩ := conclude_eq_ok (Prod.ext returned rfl)
  rw [effects] at sent
  have sent := s.finished_sends c sent
  rw [run] at frame
  rw [show s = _ from frame] at sent
  exact (List.mem_append.mp sent).resolve_right (silent to_ m)

/-- The handler of a tick that opens a round. -/
theorem startPreVote_run (notLeader : c.role ≠ .leader) (free : c.pendingPersist.isNone = true)
    (room : c.hardState.currentTerm < u64Max) : (startPreVote : StepM C Unit) ⟨c, []⟩ =
      if (QuorumTracker.withLocalVote c.config.members c.config.localId).hasQuorum then
        queuePersist ⟨some c.candidacy.hardState, [], none⟩ .broadcastVoteRequests ⟨c.candidacy, []⟩
      else (.ok (), ⟨{ c with
          role := .preCandidate, votes := none
          preVotes := some (QuorumTracker.withLocalVote c.config.members c.config.localId) },
        toPeers c.config (.preVote (c.hardState.currentTerm + 1) c.lastLogIndex c.lastLogTerm)⟩) := by
  have free : c.pendingPersist.isSome = false := by simpa using free
  rw [startPreVote, bind_run_ok (core_run _), if_neg (by simp [notLeader, free]), liftNext_ok room,
    bind_pure_run, bind_run_ok (update_run _ _)]
  split
  · rw [becomeCandidate_run (by exact room)]
    rfl
  · rfl

/-- A tick that opens a round. -/
theorem step_opens [Sha256] (opens : Opens c event) :
    (step c event).2.config = c.config ∧
    ((step c event).2.role = .preCandidate ∧
        (step c event).2.hardState.currentTerm = c.hardState.currentTerm ∧
        (step c event).2.preVotes =
          some (QuorumTracker.withLocalVote c.config.members c.config.localId) ∨
      (step c event).2.role = .candidate ∧
        (step c event).2.hardState.currentTerm = c.hardState.currentTerm + 1 ∧
        (QuorumTracker.withLocalVote c.config.members c.config.localId).hasQuorum = true) ∧
    ∀ output, (step c event).1 = .ok output → ∀ to_ m, .sendMessage to_ m ∈ output.effects →
      m = .preVote (c.hardState.currentTerm + 1) c.lastLogIndex c.lastLogTerm := by
  unfold Opens at opens
  split at opens
  swap
  · exact opens.elim
  obtain ⟨running, notLeader, free, room⟩ := opens
  obtain ⟨sequence, applying, proposals, stopped, reason, core, sends⟩ :=
    step_frame running (.tick .election)
  rw [core]
  have run := startPreVote_run notLeader free room
  change handle (.tick .election) ⟨c, []⟩ = _ at run
  by_cases alone : (QuorumTracker.withLocalVote c.config.members c.config.localId).hasQuorum = true
  · rw [if_pos alone] at run
    have candidate : ∃ sequence persist, (handle (.tick .election) ⟨c, []⟩).2.core =
        { c.candidacy with nextEffectSequence := sequence, pendingPersist := persist } ∧
        ∀ to_ m, .sendMessage to_ m ∉ (handle (.tick .election) ⟨c, []⟩).2.effects := by
      rw [run]
      by_cases free : c.nextEffectSequence < u64Max
      · rw [queuePersist_run (by exact free)]
        exact ⟨_, _, rfl, by simp [Ctx.queued]⟩
      · rw [queuePersist_overflow (by exact free)]
        exact ⟨_, _, rfl, by simp⟩
    obtain ⟨sequence', persist, same, silent⟩ := candidate
    rw [same]
    refine ⟨rfl, .inr ⟨rfl, rfl, alone⟩, fun output returned to_ m sent => ?_⟩
    exact absurd (sends output returned to_ m sent) (silent to_ m)
  · rw [if_neg alone] at run
    rw [run] at sends ⊢
    refine ⟨rfl, .inl ⟨rfl, rfl, rfl⟩, fun output returned to_ m sent => ?_⟩
    obtain ⟨n, -, same⟩ := List.mem_map.mp (sends output returned to_ m sent)
    simp only [Effect.sendMessage.injEq] at same
    exact same.2.symm

/-- A tick that opens no round. -/
theorem step_idleTick [Sha256] (running : c.stopped = false) (closed : ¬ Opens c (.tick .election)) :
    Continues c (.tick .election) (step c (.tick .election)).2 := by
  obtain ⟨sequence, applying, proposals, stopped, reason, core, -⟩ :=
    step_frame running (.tick .election)
  have quiet : ((startPreVote : StepM C Unit) ⟨c, []⟩).2 = ⟨c, []⟩ := by
    rw [startPreVote, bind_run_ok (core_run _)]
    split
    · rfl
    · next guard =>
      simp only [not_or, Bool.not_eq_true, Option.isSome_eq_false_iff] at guard
      rw [liftNext_overflow fun room => closed ⟨running, guard.1, guard.2, room⟩]
      rfl
  change (handle (.tick .election) ⟨c, []⟩).2 = ⟨c, []⟩ at quiet
  rw [core, quiet]
  exact .same rfl rfl rfl rfl

/-- A step that opens no round. -/
theorem step_continues [Sha256] (wf : c.stopped = true ∨ c.WF) (closed : ¬ Opens c event)
    {result : Outcome StepError (StepOutput C)} (run : step c event = (result, d))
    (returns : result ≠ Outcome.panic) : Continues c event d := by
  by_cases stop : c.stopped = true
  · obtain ⟨rfl, -⟩ := step_stopped stop run
    exact .same rfl rfl rfl rfl
  have running : c.stopped = false := by simpa using stop
  by_cases tick : event = .tick .election
  · subst tick
    have continues := step_idleTick running closed
    rwa [run] at continues
  · have stepped := step_cases (wf.resolve_left stop) running event
    rw [run] at stepped
    exact .stepped tick returns stepped

/-! ## Whole runs -/

variable {history since : List (NodeId × Record C)} {node : NodeId} {start : Record C}
  {votes : QuorumTracker}

/-- The step opens a round of the node. -/
def opening (node : NodeId) (step : NodeId × Record C) : Bool :=
  step.1 = node && Opens step.2.before step.2.event

/-- The round in progress is the one that the last opening started. -/
theorem InRound.splits (h : InRound history node start since) :
    history.takeWhile (fun step => !opening node step) = since ∧ ∃ earlier,
      history.dropWhile (fun step => !opening node step) = (node, start) :: earlier := by
  obtain ⟨earlier, rfl⟩ := h.split
  have closed : ∀ step ∈ since, (!opening node step) = true := by
    rintro ⟨n, r⟩ hr
    by_cases own : n = node
    · subst own
      simp [opening, h.last r hr]
    · simp [opening, own]
  have opened : ¬ (!opening node (node, start)) = true := by simp [opening, h.opens]
  rw [List.takeWhile_append_of_pos closed, List.dropWhile_append_of_pos closed,
    List.takeWhile_cons_of_neg (p := fun step => !opening node step) opened,
    List.dropWhile_cons_of_neg (p := fun step => !opening node step) opened]
  exact ⟨List.append_nil _, earlier, rfl⟩

theorem InRound.unique {start' : Record C} {since' : List (NodeId × Record C)}
    (h : InRound history node start since) (h' : InRound history node start' since') :
    start' = start ∧ since' = since := by
  obtain ⟨taken, earlier, dropped⟩ := h.splits
  obtain ⟨taken', earlier', dropped'⟩ := h'.splits
  have same := dropped'.symm.trans dropped
  simp only [List.cons.injEq, Prod.mk.injEq, true_and] at same
  exact ⟨same.1, taken'.symm.trans taken⟩

theorem InRound.cons {n : NodeId} {r : Record C} (h : InRound history node start since)
    (closed : n = node → ¬ Opens r.before r.event) :
    InRound ((n, r) :: history) node start ((n, r) :: since) where
  split := by
    obtain ⟨earlier, rfl⟩ := h.split
    exact ⟨earlier, rfl⟩
  opens := h.opens
  last := by
    intro r' hr'
    rcases List.mem_cons.mp hr' with same | old
    · obtain ⟨rfl, rfl⟩ := Prod.mk.inj same
      exact closed rfl
    · exact h.last r' old

theorem Answers.mono {since' : List (NodeId × Record C)} {member : NodeId} {response : Message C}
    (h : Answers start since node member response) (grows : since ⊆ since') :
    Answers start since' node member response := by
  obtain ⟨r, request, hr, rest⟩ := h
  exact ⟨r, request, grows hr, rest⟩

/-- The tracker of a node that waits for the responses of its round. -/
structure Polling (history : List (NodeId × Record C)) (node : NodeId) (start : Record C)
    (since : List (NodeId × Record C)) (c : RaftCore C) (votes : QuorumTracker) : Prop where
  round : InRound history node start since
  term : c.hardState.currentTerm = start.before.hardState.currentTerm
  asked : ∀ to_ m, .sendMessage to_ m ∈ start.effects → ∃ index logTerm,
    m = .preVote (start.before.hardState.currentTerm + 1) index logTerm
  members : votes.members = c.config.members.toFinset
  granted_subset : votes.granted ⊆ votes.members
  own : node ∈ votes.granted
  answered : ∀ v ∈ votes.granted, v = node ∨ ∃ term,
    Answers start since node v (.preVoteResponse term true)

/-- A pre-candidate counts the grants of its round. -/
def Polls (history : List (NodeId × Record C)) (node : NodeId) (c : RaftCore C) : Prop :=
  c.role = .preCandidate → ∀ votes, c.preVotes = some votes →
    ∃ start since, Polling history node start since c votes

theorem Polling.cons {n : NodeId} {r : Record C} (h : Polling history node start since c votes)
    (closed : n = node → ¬ Opens r.before r.event) (config : d.config = c.config)
    (term : d.hardState.currentTerm = c.hardState.currentTerm) :
    Polling ((n, r) :: history) node start ((n, r) :: since) d votes where
  round := h.round.cons closed
  term := term.trans h.term
  asked := h.asked
  members := by rw [config]; exact h.members
  granted_subset := h.granted_subset
  own := h.own
  answered v hv := by
    refine (h.answered v hv).imp_right ?_
    rintro ⟨responded, answers⟩
    exact ⟨responded, answers.mono (List.subset_cons_self _ _)⟩

/-- A response that is counted belongs to the round. -/
theorem Polling.record {envelope : Envelope C} {term : Nat} {granted : Bool}
    (h : Polling history node start since c votes) (role : c.role = .preCandidate)
    (found : c.preVotes = some votes) (valid : validateEnvelope c envelope = .ok ())
    (is : envelope.message = .preVoteResponse term granted) (reached : term ≤ c.hardState.currentTerm)
    (counts : CountsInRound history node c (.messageReceived envelope)) :
    Polling history node start since c (votes.record envelope.from_ granted) := by
  unfold QuorumTracker.record
  split
  · exact h
  next fresh =>
  simp only [not_or, not_not] at fresh
  split
  · next yes =>
    subst yes
    have changes : votes.record envelope.from_ true ≠ votes := by
      intro same
      have counted : envelope.from_ ∈ (votes.record envelope.from_ true).granted := by
        simp [QuorumTracker.record, fresh]
      exact fresh.2.1 (same ▸ counted)
    obtain ⟨start', since', round, answers⟩ := counts term votes role found valid is reached changes
    obtain ⟨rfl, rfl⟩ := h.round.unique round
    refine ⟨h.round, h.term, h.asked, h.members, Finset.insert_subset fresh.1 h.granted_subset,
      Finset.mem_insert_of_mem h.own, fun v hv => ?_⟩
    rcases Finset.mem_insert.mp hv with rfl | old
    · exact .inr ⟨term, is ▸ answers⟩
    · exact h.answered v old
  · exact ⟨h.round, h.term, h.asked, h.members, h.granted_subset, h.own, h.answered⟩

theorem Polling.granted (h : Polling history node start since c votes) {v : NodeId}
    (hv : v ∈ votes.granted) :
    v = node ∨ Granted history node v (c.hardState.currentTerm + 1) := by
  refine (h.answered v hv).imp_right ?_
  rintro ⟨term, r, request, hr, is, from_, asked, granted⟩
  obtain ⟨index, logTerm, message⟩ := h.asked _ _ asked
  exact ⟨start, since, h.round, r, request, index, logTerm, term, hr, is, from_,
    by rw [message, h.term], asked, granted⟩

/-- A quorum of the members is a quorum of the configuration. -/
theorem RaftCore.quorum_le (members : votes.members = c.config.members.toFinset)
    (won : votes.hasQuorum = true) : c.config.quorum ≤ votes.granted.card := by
  have count : votes.members.card = c.config.members.length := by
    rw [members, List.toFinset_card_of_nodup (c.config.members_sorted.imp ne_of_lt)]
  have enough := of_decide_eq_true won
  rw [QuorumTracker.quorum, count] at enough
  exact c.config.quorum_eq.trans_le enough

/-- The tracker of a round that was just opened. -/
theorem Polling.opened {r : Record C} (opens : Opens r.before r.event)
    (local_ : r.before.config.localId = node) (config : d.config = r.before.config)
    (term : d.hardState.currentTerm = r.before.hardState.currentTerm)
    (asked : ∀ to_ m, .sendMessage to_ m ∈ r.effects → ∃ index logTerm,
      m = .preVote (r.before.hardState.currentTerm + 1) index logTerm) :
    Polling ((node, r) :: history) node r [] d
      (.withLocalVote r.before.config.members r.before.config.localId) where
  round := ⟨⟨history, rfl⟩, opens, by simp⟩
  term := term
  asked := asked
  members := by rw [config]; rfl
  granted_subset := by simp [QuorumTracker.withLocalVote, r.before.config.local_mem]
  own := by simp [QuorumTracker.withLocalVote, local_]
  answered := by simp [QuorumTracker.withLocalVote, local_]

/-- One step of the node. -/
theorem Polls.step [Sha256] (h : Polls history node c) (local_ : c.config.localId = node)
    (wf : c.stopped = true ∨ c.WF) {result : Outcome StepError (StepOutput C)}
    (run : Ruft.step c event = (result, d)) (returns : result ≠ Outcome.panic)
    (meets : RoundOnly history (node, ⟨c, event, result, d⟩)) :
    d.config = c.config ∧ Polls ((node, ⟨c, event, result, d⟩) :: history) node d ∧
      Guarded history (node, ⟨c, event, result, d⟩) := by
  by_cases opens : Opens c event
  · obtain ⟨config, next, asks⟩ := step_opens opens
    rw [run] at config next asks
    refine ⟨config, ?_, ?_⟩
    · intro pre votes found
      rcases next with ⟨-, term, polls⟩ | ⟨candidate, -⟩
      · obtain rfl := Option.some.inj (polls.symm.trans found)
        refine ⟨_, [], .opened opens local_ config term fun to_ m sent => ?_⟩
        cases result with
        | ok output => exact ⟨_, _, asks output rfl to_ m sent⟩
        | error f => simp [Record.effects] at sent
      · exact absurd (pre.symm.trans candidate) (by simp)
    · rintro ⟨won, -⟩
      rcases next with ⟨pre, -⟩ | ⟨-, term, alone⟩
      · exact absurd (pre.symm.trans won) (by simp)
      · refine ⟨term, {c.config.localId}, ?_, RaftCore.quorum_le rfl alone, ?_, ?_⟩
        · simp [c.config.local_mem]
        · exact Finset.mem_singleton.mpr local_.symm
        · exact fun v hv => .inl ((Finset.mem_singleton.mp hv).trans local_)
  · have continues := step_continues wf opens run returns
    refine ⟨continues.config, fun pre votes found => ?_, ?_⟩
    · obtain ⟨before, term, counted⟩ := continues.round pre meets.2
      rcases counted votes found with same | counts
      · obtain ⟨start, since, polling⟩ := h before votes same
        exact ⟨start, _, polling.cons (fun _ => opens) continues.config term⟩
      · cases counts with
        | mk envelope responded granted old valid is role held reached =>
          obtain ⟨start, since, polling⟩ := h before old held
          have polling := polling.record role held valid is reached meets.1
          exact ⟨start, _, polling.cons (fun _ => opens) continues.config term⟩
    · rintro ⟨won, began⟩
      obtain ⟨term, votes, counts, quorum⟩ := continues.campaign won (began.resolve_right opens)
      cases counts with
      | mk envelope responded granted old valid is role found reached =>
        obtain ⟨start, since, polling⟩ := h role old found
        have polling := polling.record role found valid is reached meets.1
        exact ⟨term, _, polling.members ▸ polling.granted_subset, RaftCore.quorum_le polling.members quorum,
          polling.own, fun v hv => polling.granted hv⟩

/-- Who becomes candidate had a quorum of pre-votes in its round, in every run that counts no
grant of another round and installs no newer term into one. -/
theorem preVote_guards [Sha256] (config : NodeId → Config) (recovered : NodeId → RecoveredState C)
    {cores : NodeId → RaftCore C}
    (run : Run (fun node => RaftCore.new (config node) (recovered node)) history cores)
    (meets : Meets RoundOnly history) : Meets Guarded history := by
  have all : Meets Guarded history ∧
      ∀ node, (cores node).config = config node ∧ Polls history node (cores node) := by
    induction run with
    | start => exact ⟨trivial, fun node => ⟨rfl, by simp [Polls, RaftCore.new]⟩⟩
    | @step history cores n c' event result earlier local_ allowed delivered run returns ih =>
      obtain ⟨now, before⟩ := meets
      obtain ⟨guarded, polls⟩ := ih before
      have same : (cores n).config.localId = n := by rw [(polls n).1]; exact local_
      obtain ⟨config', polls', guarded'⟩ :=
        (polls n).2.step same (earlier.trace n).wf run returns now
      refine ⟨⟨guarded', guarded⟩, fun node => ?_⟩
      by_cases own : node = n
      · subst own
        rw [Function.update_self]
        exact ⟨config'.trans (polls node).1, polls'⟩
      · rw [Function.update_of_ne own]
        refine ⟨(polls node).1, fun pre votes found => ?_⟩
        obtain ⟨start, since, polling⟩ := (polls node).2 pre votes found
        exact ⟨start, _, polling.cons (fun is => absurd is.symm own) rfl rfl⟩
  exact all.1

/-! ## Two runs -/

/-- `Answers` in the round in progress, as a check. -/
def answersCheck [DecidableEq C] (history : List (NodeId × Record C)) (node member : NodeId)
    (response : Message C) : Bool :=
  match history.dropWhile fun step => !opening node step with
  | [] => false
  | (_, start) :: _ => (history.takeWhile fun step => !opening node step).any fun (n, r) =>
      n = member && match r.event with
        | .messageReceived request => request.from_ = node &&
            .sendMessage member request.message ∈ start.effects &&
            .sendMessage node response ∈ r.effects
        | _ => false

theorem answers_of_check [DecidableEq C] {member : NodeId} {response : Message C}
    (h : answersCheck history node member response = true) :
    ∃ start since, InRound history node start since ∧ Answers start since node member response := by
  unfold answersCheck at h
  split at h
  · simp at h
  next n start earlier rest =>
  obtain ⟨own, opens⟩ : n = node ∧ Opens start.before start.event := by
    have first := List.head?_dropWhile_not (fun step => !opening node step) history
    rw [rest] at first
    simpa [opening] using first
  subst own
  refine ⟨start, history.takeWhile fun step => !opening n step,
    ⟨⟨earlier, ?_⟩, opens, fun r hr opens => ?_⟩, ?_⟩
  · rw [← rest, List.takeWhile_append_dropWhile]
  · have closed := List.mem_takeWhile_imp hr
    simp [opening, opens] at closed
  · obtain ⟨⟨n', r⟩, hr, checked⟩ := List.any_eq_true.mp h
    simp only [Bool.and_eq_true, decide_eq_true_eq] at checked
    obtain ⟨rfl, checked⟩ := checked
    split at checked
    · next request is =>
      simp only [Bool.and_eq_true, decide_eq_true_eq] at checked
      exact ⟨r, request, hr, is, checked.1.1, checked.1.2, checked.2⟩
    · simp at checked

/-- `RoundOnly` as a check. -/
def roundOnlyCheck [DecidableEq C] (earlier : List (NodeId × Record C)) (step : NodeId × Record C) :
    Bool :=
  match step.2.event with
  | .messageReceived envelope => match envelope.message with
    | .preVoteResponse _ true => answersCheck earlier step.1 envelope.from_ envelope.message
    | _ => true
  | .effectCompleted _ (.snapshotInstalled _) => false
  | _ => true

theorem roundOnly_of_check [DecidableEq C] (earlier : List (NodeId × Record C))
    (step : NodeId × Record C) (h : roundOnlyCheck earlier step = true) :
    RoundOnly earlier step := by
  obtain ⟨node, r⟩ := step
  unfold roundOnlyCheck at h
  refine ⟨?_, ?_⟩
  · unfold CountsInRound
    split
    · next envelope is =>
      intro term votes _ _ _ message _ _
      dsimp only at is h
      simp only [is, message] at h
      exact message ▸ answers_of_check h
    · trivial
  · unfold KeepsRound
    split
    · next is =>
      dsimp only at is h
      simp [is] at h
    · trivial

/-- Node 1 asks, node 2 grants, and node 1 becomes candidate and leader. -/
theorem preVote_guards_elected : ∃ w : World Nat,
    @Run Nat sha256Empty trio w.history (w.core trio) ∧ (∃ step ∈ w.history, Campaigns step.2) ∧
    Meets Guarded w.history := by
  let _ : Sha256 := sha256Empty
  obtain ⟨w, run, checked⟩ := World.exec_any trio Script.electFirst
    (fun w => (w.history.any fun step => (step.2.after.role = .candidate) &&
      (step.2.before.role = .preCandidate)) && Meets.check roundOnlyCheck w.history)
    (by decide +kernel)
  simp only [Bool.and_eq_true, List.any_eq_true, decide_eq_true_eq] at checked
  obtain ⟨⟨step, hstep, candidate, pre⟩, meets⟩ := checked
  exact ⟨w, run, ⟨step, hstep, candidate, .inl pre⟩,
    preVote_guards trioConfigs (fun _ => .initial) run (Meets.of_check roundOnly_of_check meets)⟩

/-- The step granted the node a pre-vote. -/
def Record.grants (r : Record C) (node : NodeId) : Bool :=
  r.effects.any fun
    | .sendMessage to_ (.preVoteResponse _ true) => to_ = node
    | _ => false

/-- Node 1 opens a second round before the grant of the first one reaches it. -/
def grantLate : List (Move Nat) :=
  [Script.elect 1, Script.deliver 0, Script.elect 1, Script.deliver 2]

/-- Node 1 becomes candidate with a grant of its first round. -/
theorem late_grant_counted : ¬ ∀ (history : List (NodeId × Record Nat))
    (cores : NodeId → RaftCore Nat), @Run Nat sha256Empty trio history cores →
    Meets Guarded history := by
  let _ : Sha256 := sha256Empty
  intro h
  obtain ⟨w, run, checked⟩ := World.exec_any trio grantLate
    (fun w => match w.history with
      | [] => false
      | (node, r) :: earlier => (r.after.role = .candidate) && (r.before.role = .preCandidate) &&
          (1 < r.before.config.quorum) &&
          (earlier.takeWhile fun step => !opening node step).all fun step => !step.2.grants node)
    (by decide +kernel)
  have guarded := h _ _ run
  cases hw : w.history with
  | nil => simp [hw] at checked
  | cons step earlier =>
    obtain ⟨node, r⟩ := step
    rw [hw] at guarded
    simp only [hw, Bool.and_eq_true, decide_eq_true_eq, List.all_eq_true] at checked
    obtain ⟨⟨⟨candidate, pre⟩, several⟩, silent⟩ := checked
    obtain ⟨-, voters, -, quorum, -, granted⟩ := guarded.1 ⟨candidate, .inl pre⟩
    obtain ⟨v, hv, other⟩ := Finset.exists_mem_ne (several.trans_le quorum) node
    obtain ⟨start, since, round, g, request, index, logTerm, term, hg, -, -, -, -, sent⟩ :=
      (granted v hv).resolve_left other
    rw [round.splits.1] at silent
    have grants : g.grants node = true := List.any_eq_true.mpr ⟨_, sent, by simp⟩
    simpa [grants] using silent (v, g) hg

end Ruft
