import Ruft.Demotion
import Ruft.LeaderAppends
import Ruft.ProposalLedger

set_option autoImplicit false

/-!
# What the answers to proposals say

A leader that fails to take a step leads on, so that it gives up its uncommitted proposals whenever
it loses its role. What is bound is therefore in the log, and stays there: a leader only appends,
and the bindings of any other core are committed. The answer that a proposal was applied comes with
the report of an apply that contained its entry.

## Main definitions

- `Bindings` — what a core knows about the proposals that wait for their entries
- `Handed` — the entries that were handed out are in the committed log
- `Fulfilled` — a proposal was taken, its entry committed and handed out

## Main results

- `applied_answers_hold` — a proposal is answered as applied only when it was
-/

namespace Ruft

open Program StepM

variable {C : Type} {c d : RaftCore C} {event : Event C} {s : Ctx C}

/-! ## A leader that fails to take a step leads on -/

/-- A newer term is taken over when there is an id for the batch. -/
theorem onMessage_newer_returns {from_ : NodeId} {m : Message C} {term : Nat} (wf : c.WF)
    (room : Room c) (carried : m.carried = some term) (newer : c.hardState.currentTerm < term)
    (notChunk : ∀ t metadata offset bytes done, m ≠ .installSnapshot t metadata offset bytes done)
    (mismatch : ∀ t prev prevTerm leaderCommit context entries,
      m = .appendEntries t prev prevTerm leaderCommit context entries →
      c.log.term prev ≠ .ok prevTerm) : ∃ s, onMessage from_ m ⟨c, []⟩ = (.ok (), s) := by
  have raised : ∃ s, (beginTermTransition term .none : StepM C Unit) ⟨c, []⟩ = (.ok (), s) :=
    ⟨_, queuePersist_run (s := ⟨c.termRaised term, []⟩) room _ _⟩
  cases m with
  | heartbeat => simp [Message.carried] at carried
  | preVote => simp [Message.carried] at carried
  | installSnapshot t metadata offset bytes done => exact absurd rfl (notChunk _ _ _ _ _)
  | preVoteResponse t granted =>
    obtain rfl := Option.some.inj carried
    show ∃ s, (if c.hardState.currentTerm < t then _ else _ : StepM C Unit) _ = _
    rw [if_pos newer]
    exact raised
  | voteResponse t granted =>
    obtain rfl := Option.some.inj carried
    show ∃ s, (if c.hardState.currentTerm < t then _ else _ : StepM C Unit) _ = _
    rw [if_pos newer]
    exact raised
  | appendEntriesResponse t success matchIndex conflict context =>
    obtain rfl := Option.some.inj carried
    show ∃ s, (if c.hardState.currentTerm < t then _ else _ : StepM C Unit) _ = _
    rw [if_pos newer]
    exact raised
  | installSnapshotResponse t success =>
    obtain rfl := Option.some.inj carried
    show ∃ s, (if c.hardState.currentTerm < t then _ else _ : StepM C Unit) _ = _
    rw [if_pos newer]
    exact raised
  | requestVote t index logTerm =>
    obtain rfl := Option.some.inj carried
    show ∃ s, (if t < c.hardState.currentTerm then _ else _ : StepM C Unit) _ = _
    rw [if_neg (Nat.not_lt.mpr newer.le)]
    show ∃ s, (if c.hardState.currentTerm < t then _ else _ : StepM C Unit) _ = _
    rw [if_pos newer, bind_run_ok (update_run _ _)]
    exact ⟨_, queuePersist_run (s := ⟨{ c with
      role := .follower, preVotes := none, votes := none, hardState := _ }, []⟩) room _ _⟩
  | appendEntries t prev prevTerm leaderCommit context entries =>
    obtain rfl := Option.some.inj carried
    show ∃ s, onAppendEntries from_ t prev prevTerm leaderCommit context entries ⟨c, []⟩ = _
    rw [onAppendEntries_run newer.le]
    have mismatch := mismatch _ _ _ _ _ _ rfl
    rcases mergeAppend_cases (c := c.becomeFollower) wf.log prev prevTerm leaderCommit entries with
      ⟨e, -, found, -⟩ | ⟨hint, run, -⟩ | ⟨log, appended, found, -⟩
    · exact absurd found mismatch
    · rw [bind_run_ok run, answerAppend_changed (.inl newer)]
      exact ⟨_, queuePersist_run (s := ⟨{ c.becomeFollower with hardState := _ }, []⟩) room _ _⟩
    · exact absurd found mismatch

/-- The message is no part of a snapshot. -/
def Message.NoChunk (m : Message C) : Prop :=
  ∀ term metadata offset bytes done, m ≠ .installSnapshot term metadata offset bytes done

theorem Message.carried_of_response {m : Message C} {term : Nat} (is : m.responseTerm = some term) :
    m.carried = some term ∧ m.NoChunk := by
  cases m with
  | preVote | requestVote | heartbeat | appendEntries | installSnapshot =>
    simp [Message.responseTerm] at is
  | _ => exact ⟨is, fun _ _ _ _ _ => by simp⟩

/-- A leader that hears of no newer term leads on. -/
theorem MessageAct.leads {from_ : NodeId} {m : Message C} (act : MessageAct c from_ m s)
    (leader : c.role = .leader)
    (old : ∀ term, m.carried = some term → m.NoChunk → ¬ c.hardState.currentTerm < term)
    (appends : ∀ term prev prevTerm leaderCommit context entries,
      m = .appendEntries term prev prevTerm leaderCommit context entries →
      ¬ c.hardState.currentTerm ≤ term) : s.core.role = .leader := by
  cases act with
  | termRaised m term is newer =>
    obtain ⟨carried, noChunk⟩ := Message.carried_of_response is
    exact absurd newer (old term carried noChunk)
  | voteNewer term index logTerm newer =>
    exact absurd newer (old term rfl (fun _ _ _ _ _ => by simp))
  | appendFailed term prev prevTerm leaderCommit context entries reached =>
    exact absurd reached (appends _ _ _ _ _ _ rfl)
  | appendRefused term prev prevTerm leaderCommit context entries same =>
    exact absurd same.le (appends _ _ _ _ _ _ rfl)
  | appendHeld term prev prevTerm leaderCommit context entries same =>
    exact absurd same.le (appends _ _ _ _ _ _ rfl)
  | appendRejected term prev prevTerm leaderCommit context entries newer =>
    exact absurd newer.le (appends _ _ _ _ _ _ rfl)
  | appendAccepted term prev prevTerm leaderCommit context entries log appended hardState reached =>
    exact absurd reached (appends _ _ _ _ _ _ rfl)
  | preVoteCounted term granted votes role roles notLeader => simp [leader] at notLeader
  | campaigned term granted votes notLeader => simp [leader] at notLeader
  | voteCounted term granted votes same candidate => simp [leader] at candidate
  | voteLost term granted candidate => simp [leader] at candidate
  | elected term granted votes entry same candidate => simp [leader] at candidate
  | _ => exact leader

theorem CompletionAct.leads [Sha256] {id : EffectId} {outcome : EffectOutcome}
    (act : CompletionAct c id outcome s) (leader : c.role = .leader) : s.core.role = .leader := by
  cases act with
  | activated => rfl
  | _ => exact leader

/-- When a leader fails to take a message, it leads on. -/
theorem leader_fails_message [Sha256] {envelope : Envelope C} (wf : c.WF) (room : Room c)
    (leader : c.role = .leader) (refuses : c.Refuses (.messageReceived envelope)) {e : StepError}
    (run : process (.messageReceived envelope) ⟨c, []⟩ = (.error (.raise e), s))
    (path : Path c (.messageReceived envelope) s) : s.core.role = .leader := by
  by_cases valid : validateEnvelope c envelope = .ok ()
  · obtain ⟨members, handled⟩ := handle_message valid
    have wf' : ({ c with activeMembers := members } : RaftCore C).WF :=
      wf.congr rfl rfl rfl rfl rfl rfl rfl rfl rfl rfl rfl
    by_cases newer : ∃ term, envelope.message.carried = some term ∧
        c.hardState.currentTerm < term ∧ envelope.message.NoChunk
    · obtain ⟨term, carried, newer, noChunk⟩ := newer
      have mismatch : ∀ t prev prevTerm leaderCommit context entries,
          envelope.message = .appendEntries t prev prevTerm leaderCommit context entries →
          c.log.term prev ≠ .ok prevTerm := by
        intro t prev prevTerm leaderCommit context entries is
        obtain rfl : t = term := by
          rw [is] at carried
          exact Option.some.inj carried
        exact (refuses _ _ _ _ _ _ is newer.le).2
      obtain ⟨t, returns⟩ : ∃ t, onMessage envelope.from_ envelope.message
          ⟨{ c with activeMembers := members }, []⟩ = (.ok (), t) :=
        onMessage_newer_returns wf' room carried newer noChunk mismatch
      obtain ⟨-, -, waits⟩ := onMessage_newer wf' carried newer noChunk returns
      rw [process, bind_run_ok (handled.trans returns), emitApply_waits waits] at run
      simp at run
    · obtain ⟨s₀, s, act, rest⟩ := path
      refine (FollowUps.frame rest).role.trans ?_
      cases act with
      | ignored => exact leader
      | message _ members _ known mine act =>
        refine act.leads leader (fun term carried noChunk reached => ?_)
          fun term prev prevTerm leaderCommit context entries is reached => ?_
        · exact newer ⟨term, carried, reached, noChunk⟩
        · refine newer ⟨term, by rw [is]; rfl, (refuses _ _ _ _ _ _ is reached).1, ?_⟩
          rw [is]
          exact fun _ _ _ _ _ => by simp
  · obtain ⟨f, handled⟩ := handle_refused valid
    rw [process, bind_run_error handled] at run
    obtain ⟨-, rfl⟩ := Prod.mk.inj run
    exact leader

/-- When a leader fails a heartbeat, it leads on. -/
theorem leader_fails_heartbeat [Sha256] (wf : c.WF) (room : Room c) (bounded : c.Bounded)
    (bare : c.log.snapshot = none) (leader : c.role = .leader) {e : StepError}
    (run : process (.tick .heartbeat) ⟨c, []⟩ = (.error (.raise e), s)) : s.core.role = .leader := by
  have ends : ∀ t : Ctx C, t.core.role = .leader →
      (emitApplyIfNeeded : StepM C Unit) t = (.error (.raise e), s) → s.core.role = .leader := by
    intro t leads applied
    obtain ⟨sequence, applying, new, frame, -⟩ := emitApply_frame t
    rw [applied] at frame
    obtain rfl : s = _ := frame
    exact leads
  have run : (onHeartbeatTick >>= fun _ => emitApplyIfNeeded : StepM C Unit) ⟨c, []⟩ =
      (.error (.raise e), s) := run
  rw [onHeartbeatTick, bind_assoc_run, bind_run_ok (core_run _)] at run
  split at run
  · exact ends ⟨c, []⟩ leader run
  split at run
  · have fits : ApplyFits c.becomeFollower 0 := fun _ =>
      ⟨by simp [RaftLog.snapshotIndex, RaftCore.becomeFollower, bare], bounded.held, room⟩
    have wf' : c.becomeFollower.WF := wf.becomeFollower
    obtain ⟨t, applied, -⟩ := emitApply_returns (s := ⟨c.becomeFollower, []⟩) wf' fits
    rw [bind_run_ok (update_run _ _), applied] at run
    simp at run
  · next free _ =>
    rw [bind_assoc_run, bind_run_ok (update_run _ _)] at run
    let t : Ctx C := ⟨{ c with
      activeMembers := {c.config.localId}
      progress := c.progress.mapValues Progress.resetActivity }, []⟩
    have may : Cause.MayReplicate ⟨c, (.tick .heartbeat : Event C)⟩ :=
      .inr ⟨leader, by simpa using (not_or.mp free).2⟩
    obtain ⟨-, rest⟩ := replicateAll_leads (s := t) may (.inl leader) (beat_wf wf)
    have role : (replicateAll t).2.core.role = .leader := (FollowUps.frame rest).role.trans leader
    cases sent : (replicateAll : StepM C Unit) t with
    | mk r u =>
      rw [sent] at role
      cases r with
      | ok _ =>
        rw [bind_run_ok sent] at run
        exact ends u role run
      | error f =>
        rw [bind_run_error sent] at run
        obtain ⟨-, rfl⟩ := Prod.mk.inj run
        exact role

/-- When a leader fails to process an event, it leads on. -/
theorem leader_fails [Sha256] (wf : c.WF) (room : Room c) (bounded : c.Bounded)
    (bare : c.log.snapshot = none) (leader : c.role = .leader) (refuses : c.Refuses event)
    {e : StepError} (run : process event ⟨c, []⟩ = (.error (.raise e), s)) :
    s.core.role = .leader := by
  have ran := process_ran wf event
  rw [run] at ran
  cases ran with
  | halted e c' stops halted =>
    obtain ⟨-, reads, store, incoming, building, applying, persist, rfl⟩ := halted
    exact leader
  | stuck e s stuck => exact absurd room stuck.full
  | followed r s returns path =>
    have acted : (∀ s, Act c event s → s.core.role = .leader) → s.core.role = .leader := by
      intro acts
      obtain ⟨s₀, s, act, rest⟩ := path
      exact (FollowUps.frame rest).role.trans (acts _ act)
    cases event with
    | messageReceived envelope => exact leader_fails_message wf room leader refuses run path
    | tick kind =>
      cases kind with
      | heartbeat => exact leader_fails_heartbeat wf room bounded bare leader run
      | election =>
        refine acted fun s act => ?_
        cases act with
        | preVoteStarted notLeader => exact absurd leader notLeader
        | campaigned notLeader => exact absurd leader notLeader
        | ignored => exact leader
    | effectCompleted id outcome =>
      refine acted fun s act => ?_
      cases act with
      | completed _ _ _ act => exact act.leads leader
      | ignored => exact leader
    | read readId context =>
      refine acted fun s act => ?_
      cases act with
      | readStarted =>
        obtain ⟨round, hr⟩ := Ctx.roundStarted_core ⟨c, []⟩ readId
        rw [hr]
        exact leader
      | _ => exact leader
    | _ => exact acted fun s act => by cases act <;> exact leader

/-- A step in which a leader loses its role returns or stops the core. -/
theorem step_demotes [Sha256] (wf : c.WF) (running : c.stopped = false) (room : Room c)
    (bounded : c.Bounded) (bare : c.log.snapshot = none) (leader : c.role = .leader)
    (refuses : c.Refuses event) {e : StepError} (run : step c event = (.error (.raise e), d))
    (goesOn : d.stopped = false) : d.role = .leader := by
  rw [step_eq running] at run
  cases processed : process event ⟨c, []⟩ with
  | mk r s =>
    rw [processed] at run
    cases r with
    | error f => cases f with
      | panic => exact absurd (congrArg Prod.fst run) (by simp [conclude, Outcome.panic])
      | raise e =>
        rcases s.core.fatalize_cases e with ⟨-, reason, stops⟩ | ⟨-, same⟩
        · simp only [conclude, stops, Prod.mk.injEq] at run
          obtain ⟨-, rfl⟩ := run
          simp [RaftCore.stop] at goesOn
        · simp only [conclude, same, Prod.mk.injEq] at run
          obtain ⟨-, rfl⟩ := run
          exact leader_fails wf room bounded bare leader refuses processed
    | ok u =>
      rw [conclude] at run
      split at run
      · exact absurd (congrArg Prod.fst run) (by simp [Outcome.panic])
      · obtain ⟨-, rfl⟩ := Prod.mk.inj run
        simp [RaftCore.stop] at goesOn
      · exact absurd (congrArg Prod.fst run) (by simp)

/-! ## Bindings -/

/-- The proposal waits for the entry at the index. -/
def RaftCore.Binds (c : RaftCore C) (index : Nat) (id : ProposalId) : Prop :=
  ∃ ids, c.proposals.get index = some ids ∧ id ∈ ids

/-- The step took the proposal of a command and appended the entry to the log of a leader. -/
structure Record.Proposes (q : Record C) (id : ProposalId) (e : Entry C) : Prop where
  asked : ∃ command encodedLen, q.event = .propose id command encodedLen ∧
    e.payload = .command command
  leader : q.before.role = .leader
  next : e.index = q.before.log.lastIndex + 1
  term : e.term = q.before.hardState.currentTerm
  appended : q.after.log.entries = q.before.log.entries ++ [e]

/-- What a step does first to the bindings. -/
inductive Rebinds (c : RaftCore C) (event : Event C) (d : RaftCore C) : Prop
  | kept (proposals : d.proposals = c.proposals) (applied : d.appliedIndex = c.appliedIndex)
  | took (id : ProposalId) (command : C) (encodedLen : Nat) (entry : Entry C)
      (is : event = .propose id command encodedLen) (leader : c.role = .leader)
      (leads : d.role = .leader) (payload : entry.payload = .command command)
      (next : entry.index = c.log.lastIndex + 1) (term : entry.term = c.hardState.currentTerm)
      (entries : d.log.entries = c.log.entries ++ [entry])
      (proposals : d.proposals = c.proposals.insert entry.index
        ((c.proposals.get entry.index).getD [] ++ [id]))
      (applied : d.appliedIndex = c.appliedIndex)
  | answered (pending : PendingApply) (found : c.pendingApply = some pending)
      (is : event = .effectCompleted pending.id (.applied pending.through))
      (proposals : d.proposals = c.proposals.filter fun index => !decide (index ≤ pending.through))
      (applied : d.appliedIndex = pending.through)

theorem Act.rebinds [Sha256] (bare : c.Bare) (act : Act c event s) : Rebinds c event s.core := by
  cases act with
  | message envelope members s known mine act =>
    generalize envelope.message = m at act
    cases act <;> exact .kept rfl rfl
  | completed id outcome s act =>
    cases act with
    | applyDone pending found same => exact .answered pending found (same ▸ rfl) rfl rfl
    | installed snapshotId record from_ term log found => simp [bare.incoming] at found
    | _ => exact .kept rfl rfl
  | proposed id command encodedLen entry leader free next payload =>
    exact .took id command encodedLen entry rfl leader leader payload next.index next.term rfl rfl rfl
  | readStarted readId =>
    obtain ⟨round, hr⟩ := Ctx.roundStarted_core ⟨c, []⟩ readId
    rw [hr]
    exact .kept rfl rfl
  | _ => exact .kept rfl rfl

theorem Path.rebinds [Sha256] (bare : c.Bare) (path : Path c event s) : Rebinds c event s.core := by
  obtain ⟨s₀, s, act, rest⟩ := path
  have frame := FollowUps.frame rest
  cases act.rebinds bare with
  | kept proposals applied =>
    exact .kept (frame.proposals.trans proposals) (frame.applied.trans applied)
  | took id command encodedLen entry is leader leads payload next term entries proposals applied =>
    exact .took id command encodedLen entry is leader (frame.role.trans leads) payload next term
      (frame.entries.trans entries) (frame.proposals.trans proposals) (frame.applied.trans applied)
  | answered pending found is proposals applied =>
    exact .answered pending found is (frame.proposals.trans proposals) (frame.applied.trans applied)

/-- Every binding goes back to the step that took the proposal, whose entry is in the log and not
applied yet. What a core that does not lead has bound is committed. -/
structure Bindings (steps : List (Record C)) (c : RaftCore C) : Prop where
  proposed : ∀ index id, c.Binds index id → ∃ q ∈ steps, ∃ e, q.Proposes id e ∧ e.index = index ∧
    c.log.entries[index - 1]? = some e
  unapplied : ∀ index id, c.Binds index id → c.appliedIndex < index
  settled : c.role ≠ .leader → ∀ index id, c.Binds index id → index ≤ c.log.committed

/-- What a step of a core in a cluster does to its log. -/
structure Record.Steady (r : Record C) : Prop where
  refuses : r.before.role = .leader → r.before.Refuses r.event
  appends : r.before.role = .leader → r.before.log.entries <+: r.after.log.entries
  keeps : r.after.log.entries.take r.before.log.committed =
    r.before.log.entries.take r.before.log.committed
  commits : r.before.log.committed ≤ r.after.log.committed

/-- A committed entry, and every entry of a leader, stays where it is. -/
theorem Record.Steady.holds {r : Record C} (steady : r.Steady) {i : Nat} {e : Entry C}
    (held : r.before.log.entries[i]? = some e)
    (stays : r.before.role = .leader ∨ i < r.before.log.committed) :
    r.after.log.entries[i]? = some e := by
  rcases stays with leader | committed
  · rw [← LeaderLogs.getElem?_of_initial (steady.appends leader) (List.getElem?_eq_some_iff.mp held).1]
    exact held
  · rw [← List.getElem?_take_of_lt committed, steady.keeps, List.getElem?_take_of_lt committed]
    exact held

variable {steps : List (Record C)}

/-- What is bound after answers up to an index was bound before, above the index. -/
theorem RaftCore.Binds.of_filter {through index : Nat} {id : ProposalId} (bound : d.Binds index id)
    (proposals : d.proposals = c.proposals.filter fun index => !decide (index ≤ through)) :
    c.Binds index id ∧ through < index := by
  obtain ⟨ids, bound, among⟩ := bound
  rw [proposals, BTreeMap.get_filter] at bound
  split at bound
  · next above => exact ⟨⟨ids, bound, among⟩, by simpa using above⟩
  · simp at bound

/-- What is bound after a proposal was taken was bound before, or is the proposal. -/
theorem RaftCore.Binds.of_insert {i index : Nat} {id id' : ProposalId} (bound : d.Binds index id')
    (proposals : d.proposals = c.proposals.insert i ((c.proposals.get i).getD [] ++ [id])) :
    c.Binds index id' ∨ index = i ∧ id' = id := by
  obtain ⟨ids, bound, among⟩ := bound
  rw [proposals, BTreeMap.get_insert] at bound
  split at bound
  · next here =>
    obtain rfl := Option.some.inj bound
    rcases List.mem_append.mp among with known | new
    · cases found : c.proposals.get i with
      | none => simp [found] at known
      | some ids' =>
        rw [found] at known
        exact .inl ⟨ids', here ▸ found, known⟩
    · exact .inr ⟨here, List.mem_singleton.mp new⟩
  · exact .inl ⟨ids, bound, among⟩

/-- A binding from before a step goes back to the step that it went back to. -/
theorem Bindings.stays {r : Record C} (h : Bindings steps r.before) (steady : r.Steady) {index : Nat}
    {id : ProposalId} (bound : r.before.Binds index id) :
    ∃ q ∈ r :: steps, ∃ e, q.Proposes id e ∧ e.index = index ∧
      r.after.log.entries[index - 1]? = some e := by
  obtain ⟨q, hq, e, proposes, is, held⟩ := h.proposed index id bound
  have pos := Nat.zero_lt_of_lt (h.unapplied index id bound)
  refine ⟨q, List.mem_cons_of_mem _ hq, e, proposes, is, steady.holds held ?_⟩
  by_cases leader : r.before.role = .leader
  · exact .inl leader
  · have := h.settled leader index id bound
    exact .inr (by omega)

/-- The bindings at the end of a step. -/
theorem Bindings.end_ {r : Record C} (h : Bindings steps r.before) (wf : r.before.WF)
    (bounded : r.before.Bounded) (bare : r.before.log.snapshot = none) (steady : r.Steady)
    (rebinds : Rebinds r.before r.event s.core) (entries : r.after.log.entries = s.core.log.entries)
    (applied : r.after.appliedIndex = s.core.appliedIndex) (role : r.after.role = s.core.role)
    (binds : ∀ index id, r.after.Binds index id → s.core.Binds index id)
    (loses : r.before.role = .leader → r.after.role ≠ .leader →
      ∀ index id, r.after.Binds index id → index ≤ r.after.log.committed) :
    Bindings (r :: steps) r.after := by
  have settled : r.after.role ≠ .leader → (∀ index id, r.after.Binds index id →
      r.before.Binds index id) → ∀ index id, r.after.Binds index id →
      index ≤ r.after.log.committed := by
    intro demoted before index id bound
    by_cases leader : r.before.role = .leader
    · exact loses leader demoted index id bound
    · exact (h.settled leader index id (before index id bound)).trans steady.commits
  cases rebinds with
  | kept proposals same =>
    have before : ∀ index id, r.after.Binds index id → r.before.Binds index id := by
      intro index id bound
      have bound := binds index id bound
      rwa [RaftCore.Binds, proposals] at bound
    refine ⟨fun index id bound => h.stays steady (before index id bound), ?_,
      fun demoted => settled demoted before⟩
    intro index id bound
    rw [applied, same]
    exact h.unapplied index id (before index id bound)
  | answered pending found is proposals same =>
    have before : ∀ index id, r.after.Binds index id →
        r.before.Binds index id ∧ pending.through < index := fun index id bound =>
      (binds index id bound).of_filter proposals
    refine ⟨fun index id bound => h.stays steady (before index id bound).1, ?_,
      fun demoted => settled demoted fun index id bound => (before index id bound).1⟩
    intro index id bound
    rw [applied, same]
    exact (before index id bound).2
  | took id command encodedLen entry is leader leads payload next term appended proposals same =>
    have before : ∀ index id', r.after.Binds index id' →
        r.before.Binds index id' ∨ index = entry.index ∧ id' = id := fun index id' bound =>
      (binds index id' bound).of_insert proposals
    refine ⟨fun index id' bound => ?_, fun index id' bound => ?_, fun demoted => ?_⟩
    · rcases before index id' bound with known | ⟨rfl, rfl⟩
      · exact h.stays steady known
      -- the entry of the new proposal ends the log
      · refine ⟨r, List.mem_cons_self .., entry, ⟨⟨command, encodedLen, is, payload⟩, leader, next,
          term, entries.trans appended⟩, rfl, ?_⟩
        rw [entries, appended, next, Nat.add_sub_cancel, wf.log.length_eq bare,
          List.getElem?_concat_length]
    · rw [applied, same]
      rcases before index id' bound with known | ⟨rfl, -⟩
      · exact h.unapplied index id' known
      · have := wf.applied_le
        have := bounded.held
        omega
    · exact absurd (role.trans leads) demoted

/-! ## Entries that were handed out -/

/-- What was handed out to be applied, and is not applied yet, is in the committed log. -/
def Handed (effects : List (Effect C)) (c : RaftCore C) : Prop :=
  ∀ id es last, .apply id es ∈ effects → es.getLast? = some last →
    ∀ i, c.appliedIndex < i → i ≤ last.index →
      i ≤ c.log.committed ∧ ∃ e ∈ es, c.log.entries[i - 1]? = some e

theorem RaftLog.WF.range_covers {log : RaftLog C} (h : log.WF) (bare : log.snapshot = none)
    {start last i : Nat} {es : List (Entry C)} (range : log.range start last = .ok es)
    (above : start ≤ i) (below : i ≤ last) : ∃ e ∈ es, log.entries[i - 1]? = some e := by
  obtain ⟨contiguous, length⟩ := h.range_contiguous range
  obtain ⟨e, found⟩ : ∃ e, es[i - start]? = some e :=
    ⟨_, List.getElem?_eq_getElem (show i - start < es.length by omega)⟩
  have among := List.mem_of_getElem? found
  have index := contiguous.index found
  obtain ⟨-, held⟩ := h.range_mem range among
  rw [h.entryAt_eq bare, Except.ok.injEq, show e.index = i by omega] at held
  split at held
  · exact ⟨e, among, held⟩
  · simp at held

/-- Effects that are no applies. -/
theorem Handed.more {effects new : List (Effect C)} (h : Handed effects c)
    (entries : d.log.entries = c.log.entries) (committed : c.log.committed ≤ d.log.committed)
    (applied : d.appliedIndex = c.appliedIndex)
    (none_ : ∀ id es, .apply id es ∈ new → .apply id es ∈ effects) : Handed new d := by
  intro id es last handed ends i above below
  obtain ⟨inside, held⟩ := h id es last (none_ id es handed) ends i (applied ▸ above) below
  rw [entries]
  exact ⟨inside.trans committed, held⟩

theorem FollowUp.handed {cause : Cause C} {s s' : Ctx C} (wf : s.core.WF)
    (bare : s.core.log.snapshot = none) (hf : FollowUp cause s s') (h : Handed s.effects s.core) :
    Handed s'.effects s'.core := by
  have frame := hf.frame
  have quiet : (∀ id es, .apply id es ∈ s'.effects → .apply id es ∈ s.effects) →
      Handed s'.effects s'.core := fun none_ =>
    h.more frame.entries frame.commit_le frame.applied none_
  cases hf with
  | applied es noPersist noApply behind range =>
    intro id es' last handed ends i above below
    rcases List.mem_append.mp handed with old | new
    · exact h id es' last old ends i above below
    simp only [List.mem_singleton, Effect.apply.injEq] at new
    obtain ⟨-, rfl⟩ := new
    obtain ⟨last', ends', index⟩ := wf.log.range_getLast range
    obtain rfl := Option.some.inj (ends.symm.trans ends')
    have below : i ≤ s.core.hardState.commitIndex := below.trans_eq index
    exact ⟨below.trans_eq wf.committed.symm, wf.log.range_covers bare range above below⟩
  | appendSent | chunkRequested | buildRequested | committed =>
    exact quiet fun id es handed => (List.mem_append.mp handed).resolve_right (by simp)
  | readReleased =>
    exact quiet fun id es handed => (List.mem_append.mp handed).resolve_right (by simp)
  | readStarted readId rest =>
    refine quiet fun id es handed => ?_
    rcases Ctx.roundStarted_effects ⟨{ s.core with pendingReads := rest }, s.effects⟩ readId with
      same | ⟨context, more⟩
    · exact same ▸ handed
    · rw [more] at handed
      refine (List.mem_append.mp handed).resolve_right fun new => ?_
      simp [Ctx.readHeartbeats, toPeers] at new
  | _ => exact quiet fun _ _ handed => handed

theorem Path.handed [Sha256] (wf : c.WF) (bare : c.Bare) (path : Path c event s)
    (plain : event.bringsSnapshot = false) : Handed s.effects s.core := by
  obtain ⟨s₀, s, act, rest⟩ := path
  have start : Handed s₀.effects s₀.core := fun id es last handed => by
    have none_ := mem_applies.mpr handed
    rw [(act.apply wf).2] at none_
    simp at none_
  have all : s.core.WF ∧ s.core.log.snapshot = none ∧ Handed s.effects s.core := by
    induction rest with
    | refl => exact ⟨bare.act_wf wf act, (bare.act act plain).log, start⟩
    | tail _ last ih =>
      obtain ⟨wf', bare', handed⟩ := ih
      exact ⟨wf'.followUp last, last.frame.snapshot.trans bare', last.handed wf' bare' handed⟩
  exact all.2.2

/-! ## Runs of one core -/

/-- The pending apply reaches beyond what is applied. -/
def RaftCore.Ahead (c : RaftCore C) : Prop :=
  ∀ pending, c.pendingApply = some pending → c.appliedIndex ≤ pending.through

theorem Act.ahead [Sha256] (wf : c.WF) (bare : c.Bare) (h : c.Ahead) (act : Act c event s) :
    s.core.Ahead := by
  intro pending found
  cases (act.apply wf).1 with
  | quiet same applied => exact applied.trans_le (h pending (same ▸ found))
  | applied id through is before mine cleared => simp [cleared] at found
  | installed index same now installed =>
    unfold installedBy at installed
    split at installed
    · next incoming => simp [bare.incoming] at incoming
    · simp at installed

theorem FollowUp.ahead {cause : Cause C} {s s' : Ctx C} (hf : FollowUp cause s s')
    (h : s.core.Ahead) : s'.core.Ahead := by
  cases hf with
  | applied es noPersist noApply behind =>
    intro pending found
    obtain rfl := Option.some.inj found
    exact behind.le
  | readStarted readId rest =>
    obtain ⟨round, hr⟩ :=
      Ctx.roundStarted_core ⟨{ s.core with pendingReads := rest }, s.effects⟩ readId
    rw [hr]
    exact h
  | _ => exact h

theorem Path.ahead [Sha256] (wf : c.WF) (bare : c.Bare) (h : c.Ahead) (path : Path c event s) :
    s.core.Ahead := by
  obtain ⟨s₀, s, act, rest⟩ := path
  induction rest with
  | refl => exact act.ahead wf bare h
  | tail _ last ih => exact last.ahead ih

/-- The bindings, the pending apply, and the entries that were handed out. -/
structure Accountable (steps : List (Record C)) (c : RaftCore C) : Prop where
  bindings : Bindings steps c
  ahead : c.Ahead
  handed : ∀ q ∈ steps, Handed q.effects c

/-- What was handed out before a step. -/
theorem Handed.steady {r : Record C} {effects : List (Effect C)} (h : Handed effects r.before)
    (steady : r.Steady) (applied : r.before.appliedIndex ≤ r.after.appliedIndex) :
    Handed effects r.after := by
  intro id es last handed ends i above below
  obtain ⟨inside, e, among, held⟩ := h id es last handed ends i (by omega) below
  exact ⟨inside.trans steady.commits, e, among, steady.holds held (.inr (by omega))⟩

theorem Rebinds.applied_le (rebinds : Rebinds c event d) (ahead : c.Ahead) :
    c.appliedIndex ≤ d.appliedIndex := by
  cases rebinds with
  | kept proposals applied => exact applied.ge
  | took id command encodedLen entry is leader leads payload next term entries proposals applied =>
    exact applied.ge
  | answered pending found is proposals applied => exact (ahead pending found).trans_eq applied.symm

/-- The bindings after a step that returned were there before its last part, which a leader that
lost its role uses to give up what it did not commit. -/
theorem Ctx.finished_binds {index : Nat} {id : ProposalId} (h : (s.finished c).core.Binds index id) :
    s.core.Binds index id ∧
      (c.role = .leader → s.core.role ≠ .leader → index ≤ s.core.hardState.commitIndex) := by
  unfold Ctx.finished at h
  split at h
  · obtain ⟨ids, found, among⟩ := h
    simp only [Ctx.answered, BTreeMap.get_filter] at found
    split at found
    · next kept => exact ⟨⟨ids, found, among⟩, fun _ _ => by simpa using kept⟩
    · simp at found
  · next stays => exact ⟨h, fun leader demoted => absurd ⟨leader, demoted⟩ stays⟩

/-- What a step in a cluster does to the log of its core. -/
structure Record.Behaves (r : Record C) : Prop where
  refuses : r.before.role = .leader → r.before.Refuses r.event
  appends : r.before.role = .leader → r.before.log.entries <+: r.after.log.entries
  keeps : r.before.log.snapshot = none → r.before.log.committed ≤ r.before.log.entries.length →
    r.after.log.entries.take r.before.log.committed =
      r.before.log.entries.take r.before.log.committed
  commits : r.before.hardState.commitIndex ≤ r.after.hardState.commitIndex

theorem Record.Behaves.steady {r : Record C} (h : r.Behaves) (wf : r.before.WF)
    (bounded : r.before.Bounded) (bare : r.before.log.snapshot = none) (wf' : r.after.WF) :
    r.Steady where
  refuses := h.refuses
  appends := h.appends
  keeps := h.keeps bare (by
    rw [wf.committed, ← wf.log.length_eq bare]
    exact bounded.held)
  commits := by
    rw [wf.committed, wf'.committed]
    exact h.commits

theorem Trace.accountable [Sha256] {config : Config}
    (run : Trace (RaftCore.new config .initial) steps c) (plain : Holds Snapshotless steps)
    (behaves : ∀ r ∈ steps, r.Behaves) (running : c.stopped = false) : Accountable steps c := by
  induction run with
  | start =>
    refine ⟨⟨?_, ?_, ?_⟩, by rintro pending ⟨⟩, by simp⟩
    · rintro index id ⟨ids, ⟨⟩, -⟩
    · rintro index id ⟨ids, ⟨⟩, -⟩
    · rintro - index id ⟨ids, ⟨⟩, -⟩
  | @step steps c d event result earlier allowed run returns ih =>
    obtain ⟨behaves, rest⟩ := List.forall_mem_cons.mp behaves
    have goesOn := step_running run running
    obtain ⟨bindings, ahead, handed⟩ := ih plain.2 rest goesOn
    obtain ⟨wf, bare, -, bounded⟩ := earlier.within plain.2 goesOn
    obtain ⟨room, brings⟩ := plain.1
    have steady := behaves.steady wf bounded bare.log
      ((wf.step goesOn run returns).resolve_left (by simp [running]))
    -- what is left to show once the path is known
    have ends : ∀ s : Ctx C, Path c event s →
        (∃ proposals, d = { s.core with proposals := proposals }) →
        (∀ id es, .apply id es ∈ (Record.mk c event result d).effects → .apply id es ∈ s.effects) →
        (∀ index id, d.Binds index id → s.core.Binds index id) →
        (c.role = .leader → d.role ≠ .leader → ∀ index id, d.Binds index id →
          index ≤ d.log.committed) → Accountable (⟨c, event, result, d⟩ :: steps) d := by
      rintro s path ⟨proposals, core⟩ applies binds loses
      have rebinds := path.rebinds bare
      have applied := rebinds.applied_le ahead
      refine ⟨bindings.end_ (r := ⟨c, event, result, d⟩) wf bounded bare.log steady rebinds
        (by rw [core]) (by rw [core]) (by rw [core]) binds loses, ?_, ?_⟩
      · rw [core]
        exact path.ahead wf bare ahead
      refine List.forall_mem_cons.mpr ⟨?_, fun q hq => (handed q hq).steady steady (by rw [core]; exact applied)⟩
      refine (path.handed wf bare brings).more (by rw [core]) (by rw [core]) (by rw [core]) applies
    have cases_ := step_cases wf goesOn event
    rw [run] at cases_
    cases cases_ with
    | panicked => exact absurd rfl returns
    | halted => simp at running
    | crashed => simp at running
    | invalid => simp at running
    | stuck e s stuck => exact absurd room stuck.full
    | returned s changed path wf' =>
      obtain ⟨role, hardState⟩ := s.finished_kept c
      refine ends s path (s.finished_core c) (fun id es applied => ?_)
        (fun index id bound => (Ctx.finished_binds bound).1) fun leader demoted index id bound => ?_
      · obtain ⟨new, more, results⟩ := s.finished_effects c
        have applied : .apply id es ∈ (s.finished c).effects := applied
        rw [more] at applied
        refine (List.mem_append.mp applied).resolve_right fun among => ?_
        obtain ⟨p, result, is⟩ := results _ among
        simp at is
      · have le := (Ctx.finished_binds bound).2 leader (role ▸ demoted)
        rw [wf'.committed, hardState]
        exact le
    | failed s e path wf' =>
      refine ends s path ⟨s.core.proposals, rfl⟩ (fun id es applied => by cases applied)
        (fun index id bound => bound) fun leader demoted => ?_
      exact absurd (step_demotes wf goesOn room bounded bare.log leader (steady.refuses leader) run
        running) demoted

/-! ## The answers -/

/-- Follow-ups answer no proposal. -/
theorem FollowUp.answersNone {cause : Cause C} {s s' : Ctx C} (hf : FollowUp cause s s')
    {id : ProposalId} {result : ProposalResult} (answers : .proposalResult id result ∈ s'.effects) :
    .proposalResult id result ∈ s.effects := by
  cases hf with
  | applied | appendSent | chunkRequested | buildRequested | committed =>
    exact (List.mem_append.mp answers).resolve_right (by simp)
  | readReleased => exact (List.mem_append.mp answers).resolve_right (by simp)
  | readStarted readId rest =>
    rcases Ctx.roundStarted_effects ⟨{ s.core with pendingReads := rest }, s.effects⟩ readId with
      same | ⟨context, more⟩
    · exact same ▸ answers
    · rw [more] at answers
      refine (List.mem_append.mp answers).resolve_right fun new => ?_
      simp [Ctx.readHeartbeats, toPeers] at new
  | _ => exact answers

/-- Where an answer that a proposal was applied comes from. -/
structure Acknowledges (c : RaftCore C) (event : Event C) (id : ProposalId) (index : Nat)
    (pending : PendingApply) : Prop where
  found : c.pendingApply = some pending
  is : event = .effectCompleted pending.id (.applied pending.through)
  reached : index ≤ pending.through
  bound : c.Binds index id

theorem Act.answers [Sha256] (act : Act c event s) {id : ProposalId} {index : Nat}
    (answers : .proposalResult id (.applied index) ∈ s.effects) :
    ∃ pending, Acknowledges c event id index pending := by
  cases act with
  | message envelope members s known mine act =>
    generalize envelope.message = m at act
    cases act <;> simp [Ctx.queued] at answers
  | completed effect outcome s act =>
    cases act with
    | applyDone pending found same =>
      simp only [Ctx.answered, List.nil_append, List.mem_flatMap, List.mem_map,
        Effect.proposalResult.injEq, ProposalResult.applied.injEq] at answers
      obtain ⟨⟨i, ids⟩, among, id, bound, rfl, rfl⟩ := answers
      rw [BTreeMap.mem_toList, BTreeMap.get_filter] at among
      split at among
      · next reached =>
        exact ⟨pending, found, same ▸ rfl, of_decide_eq_true reached, ids, among, bound⟩
      · simp at among
    | votesRequested => simp [toPeers] at answers
    | _ => simp [Ctx.queued] at answers
  | proposalRefused proposalId command encodedLen result refused =>
    simp only [List.mem_singleton, Effect.proposalResult.injEq] at answers
    rcases refused with rfl | rfl <;> simp at answers
  | readStarted readId =>
    rcases Ctx.roundStarted_effects ⟨c, []⟩ readId with same | ⟨context, more⟩
    · simp [same] at answers
    · simp [more, Ctx.readHeartbeats, toPeers] at answers
  | preVoteStarted => simp [toPeers] at answers
  | _ => simp [Ctx.queued] at answers

theorem Path.answers [Sha256] (path : Path c event s) {id : ProposalId} {index : Nat}
    (answers : .proposalResult id (.applied index) ∈ s.effects) :
    ∃ pending, Acknowledges c event id index pending := by
  obtain ⟨s₀, s, act, rest⟩ := path
  refine act.answers ?_
  induction rest with
  | refl => exact answers
  | tail _ last ih => exact ih (last.answersNone answers)

theorem step_answers [Sha256] (wf : c.WF) (running : c.stopped = false) {output : StepOutput C}
    (run : step c event = (.ok output, d)) {id : ProposalId} {index : Nat}
    (answers : .proposalResult id (.applied index) ∈ output.effects) :
    ∃ pending, Acknowledges c event id index pending := by
  rw [step_eq running] at run
  obtain ⟨s, processed, effects, -, -⟩ := conclude_eq_ok run
  have ran := process_ran wf event
  rw [processed] at ran
  have path : Path c event s := by
    cases ran with
    | followed r s returns path => exact path
    | overflowed s path => exact path
  have answers : .proposalResult id (.applied index) ∈ s.effects := by
    rw [effects, Ctx.finished] at answers
    split at answers
    · refine (List.mem_append.mp answers).resolve_right fun lost => ?_
      simp at lost
    · exact answers
  exact path.answers answers

/-! ## The cluster -/

theorem Effect.Reports.of_applied {effect : Effect C} {id : EffectId} {through : Nat}
    (h : effect.Reports id (.applied through)) :
    ∃ es last, effect = .apply id es ∧ es.getLast? = some last ∧ last.index = through := by
  generalize is : EffectOutcome.applied through = outcome at h
  cases h with
  | applied _ es last ends => exact ⟨es, last, rfl, ends, (EffectOutcome.applied.inj is).symm⟩
  | _ => simp at is

/-- An earlier step of the node took the proposal and appended the entry, which is committed at its
index and was handed out to be applied. -/
structure Fulfilled (earlier : List (NodeId × Record C)) (node : NodeId) (c : RaftCore C)
    (id : ProposalId) (e : Entry C) : Prop where
  proposed : ∃ q, (node, q) ∈ earlier ∧ q.Proposes id e
  held : c.log.entries[e.index - 1]? = some e
  committed : e.index ≤ c.log.committed
  applied : ∃ q, (node, q) ∈ earlier ∧ e ∈ q.applied

section Cluster

variable [Sha256] {config : NodeId → Config} {members : List NodeId}
  {history : List (NodeId × Record C)} {cores : NodeId → RaftCore C}

theorem Cluster.behaves (h : Cluster config members history cores) {node : NodeId} {r : Record C}
    (hr : (node, r) ∈ history) : r.Behaves where
  refuses := h.refuses hr
  appends := h.appends hr
  keeps bare le := (h.faithful hr).wrote.take_committed bare le
  commits := (h.climbs hr).hardState.2.2

theorem Cluster.accountable (h : Cluster config members history cores) {node : NodeId}
    (running : (cores node).stopped = false) : Accountable (localHistory history node) (cores node) :=
  (h.run.trace node).accountable (h.run.snapshotless h.unbuilt h.room node)
    (fun _ hr => h.behaves (mem_localHistory.mp hr)) running

theorem Cluster.fulfilled {later earlier : List (NodeId × Record C)} {node : NodeId} {r : Record C}
    (h : Cluster config members (later ++ (node, r) :: earlier) cores) {id : ProposalId} {index : Nat}
    (answers : .proposalResult id (.applied index) ∈ r.effects) :
    ∃ e, e.index = index ∧ Fulfilled earlier node r.before id e := by
  obtain ⟨cores', run, common, unbuilt, room⟩ := h.suffix
  have now : Cluster config members _ _ := ⟨run, common, unbuilt, room⟩
  cases run with
  | @step _ cores _ d event result run local_ allowed delivered ran returns =>
    have before := now.earlier run (List.subset_cons_self _ _)
    have running : (cores node).stopped = false := by
      by_contra stopped
      obtain ⟨-, silent⟩ := step_stopped (by simpa using stopped) ran
      simp [silent] at answers
    cases result with
    | error f => cases answers
    | ok output =>
      have wf := (run.trace node).wf.resolve_left (by simp [running])
      obtain ⟨pending, found, is, reached, bound⟩ := step_answers wf running ran answers
      obtain ⟨bindings, -, handed⟩ := before.accountable running
      obtain ⟨q, hq, e, proposes, rfl, held⟩ := bindings.proposed index id bound
      have above := bindings.unapplied e.index id bound
      rw [is] at allowed
      obtain ⟨s, hs, effect, he, reports⟩ := allowed
      obtain ⟨es, last, rfl, ends, through⟩ := reports.of_applied
      have reached : e.index ≤ pending.through := reached
      have inside : e.index ≤ (cores node).log.committed := by
        rw [wf.committed]
        exact reached.trans (wf.applying pending found)
      obtain ⟨-, e', among, held'⟩ := handed s hs pending.id es last he ends e.index above (by omega)
      obtain rfl : e' = e := Option.some.inj (held'.symm.trans held)
      exact ⟨e', rfl, ⟨q, mem_localHistory.mp hq, proposes⟩, held, inside, s, mem_localHistory.mp hs,
        mem_applied.mpr ⟨_, es, he, among⟩⟩

end Cluster

/-- When a proposal is answered as applied at an index, an earlier step of the node took it and
appended its entry there, which is committed and was handed out to be applied. -/
theorem applied_answers_hold [Sha256] (config : NodeId → Config) (members : List NodeId)
    (common : ∀ node, (config node).members = members) {history : List (NodeId × Record C)}
    {cores : NodeId → RaftCore C}
    (run : Run (fun node => RaftCore.new (config node) .initial) history cores)
    (unbuilt : NeverBuilt history) (room : ∀ p ∈ history, Room p.2.before) :
    ∀ later node r earlier, history = later ++ (node, r) :: earlier →
    ∀ id index, .proposalResult id (.applied index) ∈ r.effects →
      ∃ e, e.index = index ∧ Fulfilled earlier node r.before id e := by
  rintro later node r earlier rfl id index answers
  exact Cluster.fulfilled ⟨run, common, unbuilt, room⟩ answers

/-- Node 1 answers the proposal that it applied at index 2. -/
theorem applied_answers_hold_two : ∃ w : World Nat,
    @Run Nat sha256Empty trio w.history (w.core trio) ∧
    ∃ later node r earlier, w.history = later ++ (node, r) :: earlier ∧
      .proposalResult 1 (.applied 2) ∈ r.effects ∧
      ∃ e, e.index = 2 ∧ Fulfilled earlier node r.before 1 e := by
  let _ : Sha256 := sha256Empty
  obtain ⟨w, run, checked⟩ := World.exec_any trio Script.commitTwo
    (fun w => (w.history.any fun p => decide (.proposalResult 1 (.applied 2) ∈ p.2.effects)) &&
      ((w.history.all fun p => !p.2.built) && w.history.all fun p => Room p.2.before))
    (by decide +kernel)
  simp only [Bool.and_eq_true] at checked
  obtain ⟨answers, plain, room⟩ := checked
  obtain ⟨⟨node, r⟩, hr, answers⟩ := List.any_eq_true.mp answers
  have answers := of_decide_eq_true answers
  obtain ⟨later, earlier, split⟩ := List.append_of_mem hr
  exact ⟨w, run, later, node, r, earlier, split, answers,
    applied_answers_hold trioConfigs [1, 2, 3] trioConfigs_members run
      (neverBuilt_of_check plain) (fun p hp => of_decide_eq_true (List.all_eq_true.mp room p hp))
      later node r earlier split 1 2 answers⟩

end Ruft
