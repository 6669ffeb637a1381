import Ruft.ProposalResults
import Ruft.Heartbeats
import Ruft.Followers

set_option autoImplicit false

/-!
# Leadership ends

A leader counts the members it hears from. A heartbeat tick empties the count, and a
leader that has not heard from a quorum since the last one steps down. The count is
the set `heard` of the run so far: every step of a leader either starts it anew or
adds the sender of a message.

## Main definitions

- `heard` — the members that a leader heard from since its last heartbeat
- `Beats` — the step checks the quorum
- `Deposes` — what ends a leadership

## Main results

- `check_quorum` — exactly the leaders that heard from a quorum outlast a heartbeat
- `leadership_ends` — leaders go with their quorum or for a newer term
-/

namespace Ruft

open Program StepM

variable {C : Type} {c d : RaftCore C} {event : Event C} {s : Ctx C}

/-- The sender of a message that the core takes. -/
def RaftCore.hears (c : RaftCore C) : Event C → Finset NodeId
  | .messageReceived envelope =>
    if envelope.clusterId = c.config.clusterId ∧ envelope.to_ = c.config.localId ∧
      envelope.from_ ∈ c.config.members then {envelope.from_} else ∅
  | _ => ∅

/-- A leader checks its quorum. -/
def Beats (c : RaftCore C) (event : Event C) : Prop :=
  c.role = .leader ∧ c.pendingPersist = none ∧ event = .tick .heartbeat

instance [DecidableEq C] (c : RaftCore C) (event : Event C) : Decidable (Beats c event) :=
  inferInstanceAs (Decidable (_ ∧ _ ∧ _))

/-- A leader goes on with its count. -/
def Tallies (c : RaftCore C) : Event C → Bool
  | .tick .heartbeat => c.role = .leader && c.pendingPersist.isSome
  | _ => c.role = .leader

/-- The members that a leader heard from since it came into office or checked its quorum; the
newest step comes first. -/
def heard : List (Record C) → Finset NodeId
  | [] => ∅
  | r :: earlier =>
    if Tallies r.before r.event then heard earlier ∪ r.before.hears r.event
    else {r.before.config.localId}

/-! ## The end of a step -/

theorem conclude_kept {p : Outcome StepError Unit × Ctx C} {result : Outcome StepError (StepOutput C)}
    (h : conclude c p = (result, d)) (returns : result ≠ Outcome.panic) :
    p.1 ≠ .error .panic ∧ d.role = p.2.core.role ∧ d.activeMembers = p.2.core.activeMembers ∧
      (d.stopped = false → p.2.core.stopped = false) := by
  obtain ⟨r, s⟩ := p
  have finished : ∀ s : Ctx C, (s.finished c).core.role = s.core.role ∧
      (s.finished c).core.activeMembers = s.core.activeMembers ∧
      (s.finished c).core.stopped = s.core.stopped := by
    intro s
    obtain ⟨proposals, hp⟩ := s.finished_core c
    rw [hp]
    exact ⟨rfl, rfl, rfl⟩
  obtain ⟨role, active, stopped⟩ := finished s
  cases r with
  | error f =>
    cases f with
    | panic => exact absurd (congrArg Prod.fst h).symm returns
    | raise e =>
      obtain rfl : (s.core.fatalize e).2 = d := congrArg Prod.snd h
      refine ⟨by simp, ?_⟩
      rcases s.core.fatalize_cases e with ⟨-, reason, hr⟩ | ⟨-, hr⟩
      · rw [hr]
        exact ⟨rfl, rfl, fun alive => by simp [RaftCore.stop] at alive⟩
      · rw [hr]
        exact ⟨rfl, rfl, id⟩
  | ok u =>
    refine ⟨by simp, ?_⟩
    simp only [conclude] at h
    split at h
    · exact absurd (congrArg Prod.fst h).symm returns
    · obtain rfl := congrArg Prod.snd h
      exact ⟨role, active, fun alive => by simp [RaftCore.stop] at alive⟩
    · obtain rfl := congrArg Prod.snd h
      exact ⟨role, active, fun alive => stopped ▸ alive⟩

/-- After the handler a step leaves role and count, and it stops the core for good. -/
theorem step_handled [Sha256] {result : Outcome StepError (StepOutput C)}
    (running : c.stopped = false) (run : step c event = (result, d))
    (returns : result ≠ Outcome.panic) :
    ∃ r s, handle event ⟨c, []⟩ = (r, s) ∧ r ≠ .error .panic ∧ d.role = s.core.role ∧
      d.activeMembers = s.core.activeMembers ∧ (d.stopped = false → s.core.stopped = false) := by
  rw [step_eq running] at run
  obtain ⟨returned, role, active, alive⟩ := conclude_kept run returns
  cases handled : handle event ⟨c, []⟩ with
  | mk r s =>
    refine ⟨r, s, rfl, ?_⟩
    cases r with
    | error f =>
      rw [process, bind_run_error handled] at returned role active alive
      exact ⟨returned, role, active, alive⟩
    | ok u =>
      rw [process, bind_run_ok handled] at role active alive
      obtain ⟨sequence, applying, new, frame, -⟩ := emitApply_frame s
      rw [frame] at role active alive
      exact ⟨by simp, role, active, alive⟩

theorem FollowUp.active {cause : Cause C} {s s' : Ctx C} (hf : FollowUp cause s s') :
    s'.core.role = s.core.role ∧ s'.core.activeMembers = s.core.activeMembers := by
  cases hf with
  | readStarted readId rest =>
    obtain ⟨round, hr⟩ :=
      Ctx.roundStarted_core ⟨{ s.core with pendingReads := rest }, s.effects⟩ readId
    rw [hr]
    exact ⟨rfl, rfl⟩
  | _ => exact ⟨rfl, rfl⟩

theorem FollowUps.active {cause : Cause C} {s s' : Ctx C} (rest : FollowUps cause s s') :
    s'.core.role = s.core.role ∧ s'.core.activeMembers = s.core.activeMembers := by
  induction rest with
  | refl => exact ⟨rfl, rfl⟩
  | tail _ hstep ih => exact ⟨hstep.active.1.trans ih.1, hstep.active.2.trans ih.2⟩

/-! ## Messages -/

theorem hears_known {envelope : Envelope C} (valid : validateEnvelope c envelope = .ok ()) :
    c.hears (.messageReceived envelope) = {envelope.from_} := by
  obtain ⟨known, mine, cluster⟩ := validateEnvelope_ok valid
  simp [RaftCore.hears, known, mine, cluster]

theorem hears_unknown {envelope : Envelope C} (invalid : validateEnvelope c envelope ≠ .ok ()) :
    c.hears (.messageReceived envelope) = ∅ := by
  unfold RaftCore.hears
  refine if_neg fun ⟨cluster, mine, known⟩ => invalid ?_
  simp [validateEnvelope, known, mine, cluster]

/-- The core that hears a message. -/
def RaftCore.told (c : RaftCore C) (envelope : Envelope C) : RaftCore C :=
  { c with activeMembers :=
      if c.role = .leader then insert envelope.from_ c.activeMembers else c.activeMembers }

theorem handle_told [Sha256] {envelope : Envelope C} (valid : validateEnvelope c envelope = .ok ()) :
    handle (.messageReceived envelope) ⟨c, []⟩ =
      onMessage envelope.from_ envelope.message ⟨c.told envelope, []⟩ := by
  show (liftPure (validateEnvelope c envelope) >>= _ : StepM C Unit) _ = _
  rw [valid]
  show (if c.role = .leader then _ else _ : StepM C Unit) _ = _
  unfold RaftCore.told
  split <;> rfl

/-- What a message does first, when the effect counter has room. -/
theorem message_act [Sha256] {envelope : Envelope C} {r : Outcome StepError Unit} (wf : c.WF)
    (room : Room c) (valid : validateEnvelope c envelope = .ok ())
    (handled : handle (.messageReceived envelope) ⟨c, []⟩ = (r, s)) :
    ∃ s₀, MessageAct (c.told envelope) envelope.from_ envelope.message s₀ ∧
      s.core.role = s₀.core.role ∧ s.core.activeMembers = s₀.core.activeMembers := by
  have wf' : (c.told envelope).WF := wf.congr rfl rfl rfl rfl rfl rfl rfl rfl rfl rfl rfl
  obtain ⟨-, sound⟩ := @onMessage_sound C ⟨c, .messageReceived envelope⟩ _ wf' envelope rfl ⟨_, rfl⟩
  rw [← handle_told valid, handled] at sound
  rcases sound with ⟨s₀, act, -, rest⟩ | ⟨e, -, stuck⟩
  · exact ⟨s₀, act, FollowUps.active rest⟩
  · exact absurd room stuck.full

/-- A message leaves the count of a core that leads after it. -/
theorem MessageAct.active {from_ : NodeId} {m : Message C} (act : MessageAct c from_ m s)
    (leader : s.core.role = .leader) :
    c.role = .leader ∧ s.core.activeMembers = c.activeMembers := by
  cases act with
  | preVoteCounted term granted votes role roles notLeader =>
    rcases roles with ⟨rfl, -⟩ | ⟨rfl, -⟩
    · exact absurd (leader.symm.trans notLeader) (by simp)
    · exact absurd leader (by simp)
  | campaigned | voteNewer | voteLost =>
    exact absurd leader (by simp [Ctx.queued, RaftCore.candidacy])
  | termRaised | appendFailed | appendRefused | appendRejected | appendHeld | appendAccepted =>
    exact absurd leader (by
      simp [Ctx.queued, RaftCore.termRaised, RaftCore.merged, RaftCore.becomeFollower])
  | _ => exact ⟨leader, rfl⟩

/-! ## Other events -/

/-- What an event other than a message does, when the effect counter has room. -/
theorem handled_act [Sha256] {r : Outcome StepError Unit} (wf : c.WF) (room : Room c)
    (handled : handle event ⟨c, []⟩ = (r, s)) (returns : r ≠ .error .panic) :
    s.core.stopped = true ∧ s.core.role = c.role ∨ ∃ s₀, Act c event s₀ ∧
      s.core.role = s₀.core.role ∧ s.core.activeMembers = s₀.core.activeMembers := by
  have ran := handle_ran wf event
  rw [handled] at ran
  cases ran with
  | panicked => exact absurd rfl returns
  | halted e c' stops halted =>
    obtain ⟨stopped, reads, store, incoming, building, applying, persist, rfl⟩ := halted
    exact .inl ⟨stopped, rfl⟩
  | followed r s returns path =>
    obtain ⟨s₀, s, act, rest⟩ := path
    exact .inr ⟨s₀, act, rest.active⟩
  | overflowed s path =>
    obtain ⟨s₀, s, act, rest⟩ := path
    exact .inr ⟨s₀, act, rest.active⟩
  | stuck e s stuck => exact absurd room stuck.full

/-- The count of a core that leads: it goes on, or starts with the core itself. -/
structure Tallied (c : RaftCore C) (s : Ctx C) : Prop where
  goesOn : c.role = .leader → s.core.activeMembers = c.activeMembers
  starts : c.role ≠ .leader → s.core.activeMembers = {c.config.localId}

theorem Tallied.of_leader (leader : c.role = .leader)
    (same : s.core.activeMembers = c.activeMembers) : Tallied c s :=
  ⟨fun _ => same, fun notLeader => absurd leader notLeader⟩

theorem CompletionAct.tallied [Sha256] {id : EffectId} {outcome : EffectOutcome} (seated : c.Seated)
    (act : CompletionAct c id outcome s) (leader : s.core.role = .leader) :
    Tallied c s := by
  cases act with
  | activated stableThrough found =>
    exact ⟨fun leads => absurd rfl (seated leads _ found).1, fun _ => rfl⟩
  | _ => exact .of_leader leader rfl

theorem Act.tallied [Sha256] (seated : c.Seated) (act : Act c event s)
    (leader : s.core.role = .leader) (beat : event ≠ .tick .heartbeat)
    (silent : ∀ envelope, event ≠ .messageReceived envelope) : Tallied c s := by
  cases act with
  | completed id outcome s act => exact act.tallied seated leader
  | message envelope => exact absurd rfl (silent envelope)
  | quorumLost | heartbeat => exact absurd rfl beat
  | preVoteStarted | campaigned =>
    exact absurd leader (by simp [Ctx.queued, RaftCore.candidacy])
  | readStarted readId context leads =>
    obtain ⟨round, hr⟩ := Ctx.roundStarted_core ⟨c, []⟩ readId
    exact .of_leader leads (by rw [hr])
  | _ => exact .of_leader leader rfl

theorem Act.stays_leader [Sha256] (act : Act c event s) (leader : c.role = .leader)
    (beat : event ≠ .tick .heartbeat) (silent : ∀ envelope, event ≠ .messageReceived envelope) :
    s.core.role = .leader := by
  cases act with
  | completed id outcome s act => exact act.leads leader
  | message envelope => exact absurd rfl (silent envelope)
  | quorumLost | heartbeat => exact absurd rfl beat
  | preVoteStarted notLeader | campaigned notLeader => exact absurd leader notLeader
  | readStarted readId =>
    obtain ⟨round, hr⟩ := Ctx.roundStarted_core ⟨c, []⟩ readId
    rw [hr]
    exact leader
  | _ => exact leader

/-! ## The heartbeat -/

theorem onHeartbeatTick_idle (idle : c.role ≠ .leader ∨ c.pendingPersist.isSome) :
    (onHeartbeatTick : StepM C Unit) ⟨c, []⟩ = (.ok (), ⟨c, []⟩) := by
  rw [onHeartbeatTick, bind_run_ok (core_run _), if_pos idle]
  rfl

/-- A heartbeat that checks no quorum leaves the core. -/
theorem heartbeat_idle [Sha256] {r : Outcome StepError Unit}
    (idle : c.role ≠ .leader ∨ c.pendingPersist.isSome)
    (handled : handle (.tick .heartbeat) ⟨c, []⟩ = (r, s)) : s = ⟨c, []⟩ := by
  have run : (onHeartbeatTick : StepM C Unit) ⟨c, []⟩ = (r, s) := handled
  rw [onHeartbeatTick_idle idle] at run
  exact (Prod.mk.inj run).2.symm

theorem onHeartbeatTick_lost (leader : c.role = .leader) (free : c.pendingPersist = none)
    (lost : c.activeMembers.card < c.config.quorum) :
    (onHeartbeatTick : StepM C Unit) ⟨c, []⟩ = (.ok (), ⟨c.becomeFollower, []⟩) := by
  rw [onHeartbeatTick, bind_run_ok (core_run _), if_neg (by simp [leader, free]), if_pos lost]
  rfl

theorem onHeartbeatTick_beats (wf : c.WF) (leader : c.role = .leader)
    (free : c.pendingPersist = none) (active : c.config.quorum ≤ c.activeMembers.card)
    {r : Outcome StepError Unit} (run : (onHeartbeatTick : StepM C Unit) ⟨c, []⟩ = (r, s)) :
    s.core.role = .leader ∧ s.core.activeMembers = {c.config.localId} := by
  have leads := @replicateAll_leads C ⟨c, .tick .heartbeat⟩ ⟨beat c, []⟩ (.inr ⟨leader, free⟩)
    (.inl leader) (beat_wf wf)
  have same : (replicateAll : StepM C Unit) ⟨beat c, []⟩ = (r, s) :=
    (onHeartbeatTick_run leader free active).symm.trans run
  have rest : FollowUps ⟨c, .tick .heartbeat⟩ ⟨beat c, []⟩ s := by
    have := leads.2
    rwa [same] at this
  obtain ⟨role, members⟩ := rest.active
  exact ⟨role.trans leader, members⟩

/-- A heartbeat keeps exactly the leaders with a quorum. -/
theorem heartbeat_role [Sha256] {r : Outcome StepError Unit} (wf : c.WF) (leader : c.role = .leader)
    (free : c.pendingPersist = none) (handled : handle (.tick .heartbeat) ⟨c, []⟩ = (r, s)) :
    (c.config.quorum ≤ c.activeMembers.card ∧ s.core.role = .leader) ∨
    (c.activeMembers.card < c.config.quorum ∧ s.core.role = .follower) := by
  have run : (onHeartbeatTick : StepM C Unit) ⟨c, []⟩ = (r, s) := handled
  by_cases active : c.config.quorum ≤ c.activeMembers.card
  · exact .inl ⟨active, (onHeartbeatTick_beats wf leader free active run).1⟩
  · have lost := Nat.not_le.mp active
    rw [onHeartbeatTick_lost leader free lost] at run
    obtain rfl := (Prod.mk.inj run).2
    exact .inr ⟨lost, rfl⟩

/-! ## One step -/

theorem Tallies.leader (h : Tallies c event = true) : c.role = .leader := by
  unfold Tallies at h
  split at h
  · exact of_decide_eq_true (Bool.and_eq_true_iff.mp h).1
  · exact of_decide_eq_true h

theorem tallies_other (beat : event ≠ .tick .heartbeat) :
    Tallies c event = decide (c.role = .leader) := by
  unfold Tallies
  split
  · exact absurd rfl beat
  · rfl

theorem hears_other (silent : ∀ envelope, event ≠ .messageReceived envelope) :
    c.hears event = ∅ := by
  unfold RaftCore.hears
  split
  · exact absurd rfl (silent _)
  · rfl

/-- A step adds the sender of a message to the count of a leader, or starts the count anew. -/
theorem step_counts [Sha256] {result : Outcome StepError (StepOutput C)} (wf : c.WF)
    (seated : c.Seated) (room : Room c) (running : c.stopped = false)
    (run : step c event = (result, d)) (returns : result ≠ Outcome.panic)
    (alive : d.stopped = false) (leader : d.role = .leader) :
    d.activeMembers =
      if Tallies c event then c.activeMembers ∪ c.hears event else {c.config.localId} := by
  obtain ⟨r, s, handled, returned, role, active, stops⟩ := step_handled running run returns
  rw [active]
  rw [role] at leader
  by_cases beat : event = .tick .heartbeat
  · subst beat
    by_cases leads : c.role = .leader
    · by_cases free : c.pendingPersist = none
      · rw [if_neg (by simp [Tallies, free])]
        rcases heartbeat_role wf leads free handled with ⟨enough, -⟩ | ⟨-, down⟩
        · exact (onHeartbeatTick_beats wf leads free enough handled).2
        · exact absurd (leader.symm.trans down) (by simp)
      · have busy := Option.isSome_iff_ne_none.mpr free
        obtain rfl := heartbeat_idle (.inr busy) handled
        rw [if_pos (by simp [Tallies, leads, busy]), hears_other (by simp), Finset.union_empty]
    · obtain rfl := heartbeat_idle (.inl leads) handled
      exact absurd leader leads
  rw [tallies_other beat]
  by_cases message : ∃ envelope, event = .messageReceived envelope
  · obtain ⟨envelope, rfl⟩ := message
    by_cases valid : validateEnvelope c envelope = .ok ()
    · obtain ⟨s₀, act, role, members⟩ := message_act wf room valid handled
      obtain ⟨leads, same⟩ := act.active (role ▸ leader)
      have leads : c.role = .leader := leads
      -- only the sender was added, before the message was looked at
      rw [members, same, hears_known valid, if_pos (decide_eq_true leads)]
      show (if c.role = .leader then _ else _ : Finset NodeId) = _
      rw [if_pos leads, Finset.insert_eq, Finset.union_comm]
    · obtain ⟨f, refused⟩ := handle_refused valid
      obtain rfl : _ = s := congrArg Prod.snd (refused.symm.trans handled)
      have leads : c.role = .leader := leader
      rw [if_pos (decide_eq_true leads), hears_unknown valid, Finset.union_empty]
  · have silent : ∀ envelope, event ≠ .messageReceived envelope :=
      fun envelope is => message ⟨envelope, is⟩
    rcases handled_act wf room handled returned with ⟨stopped, -⟩ | ⟨s₀, act, role, members⟩
    · exact absurd (stops alive) (by simp [stopped])
    -- no other event names a member; the step that takes office starts with the core itself
    have counted := act.tallied seated (role ▸ leader) beat silent
    rw [members]
    by_cases leads : c.role = .leader
    · rw [counted.goesOn leads, if_pos (decide_eq_true leads), hears_other silent,
        Finset.union_empty]
    · rw [counted.starts leads, if_neg (by simp [leads])]

/-! ## Runs -/

/-- A leader's active members are those it heard from. -/
theorem Trace.counts [Sha256] {config : Config} {recovered : RecoveredState C}
    {history : List (Record C)} (run : Trace (RaftCore.new config recovered) history c)
    (room : ∀ r ∈ history, Room r.before) (running : c.stopped = false)
    (leader : c.role = .leader) : c.activeMembers = heard history := by
  induction run with
  | start => simp [RaftCore.new] at leader
  | @step history c d event result earlier allowed run returns ih =>
    obtain ⟨now, before⟩ := List.forall_mem_cons.mp room
    by_cases stopped : c.stopped = true
    · obtain ⟨rfl, -⟩ := step_stopped stopped run
      exact absurd stopped (by simp [running])
    have stopped' : c.stopped = false := by simpa using stopped
    rw [step_counts (earlier.wf.resolve_left stopped) (earlier.seated.resolve_left stopped) now
      stopped' run returns running leader]
    show _ = if Tallies c event then heard history ∪ c.hears event else {c.config.localId}
    by_cases tallies : Tallies c event = true
    · rw [if_pos tallies, if_pos tallies, ih before stopped' (Tallies.leader tallies)]
    · rw [if_neg tallies, if_neg tallies]

/-- A leader outlasts a heartbeat exactly when it heard from a quorum, itself included, since it
came into office or since its last heartbeat. -/
theorem check_quorum [Sha256] (config : Config) (recovered : RecoveredState C)
    {history : List (Record C)} (run : Trace (RaftCore.new config recovered) history c)
    (room : ∀ r ∈ history, Room r.before) :
    Meets (fun earlier r => r.before.stopped = false → Beats r.before r.event →
      (r.after.role = .leader ↔ r.before.config.quorum ≤ (heard earlier).card)) history := by
  induction run with
  | start => trivial
  | @step history c d event result earlier allowed run returns ih =>
    obtain ⟨-, before⟩ := List.forall_mem_cons.mp room
    refine ⟨fun running beats => ?_, ih before⟩
    obtain ⟨leader, free, rfl⟩ := beats
    have wf := earlier.wf.resolve_left (by simp [show c.stopped = false from running])
    obtain ⟨r, s, handled, -, role, -, -⟩ := step_handled running run returns
    show d.role = .leader ↔ c.config.quorum ≤ (heard history).card
    rw [← earlier.counts before running leader, role]
    rcases heartbeat_role wf leader free handled with ⟨enough, up⟩ | ⟨lost, down⟩
    · exact ⟨fun _ => enough, fun _ => up⟩
    · exact ⟨fun up => absurd (up.symm.trans down) (by simp), fun enough => by omega⟩

/-- Node 1 leads on after a first heartbeat, hears from nobody and steps down at the second. -/
def silentHeartbeats : List (Move Nat) := Script.commitTwo ++
  [.event 1 (.tick .heartbeat), .event 1 (.tick .heartbeat)]

theorem check_quorum_silent : ∃ w : World Nat,
    @Run Nat sha256Empty trio w.history (w.core trio) ∧
    (∀ role ∈ [Role.leader, .follower], ∃ r ∈ localHistory w.history 1,
      r.before.stopped = false ∧ Beats r.before r.event ∧ r.after.role = role) ∧
    Meets (fun earlier r => r.before.stopped = false → Beats r.before r.event →
      (r.after.role = .leader ↔ r.before.config.quorum ≤ (heard earlier).card))
      (localHistory w.history 1) := by
  let _ : Sha256 := sha256Empty
  obtain ⟨w, run, checked⟩ := World.exec_any trio silentHeartbeats
    (fun w => ([Role.leader, .follower].all fun role => (localHistory w.history 1).any fun r =>
        (r.before.stopped = false) && (decide (Beats r.before r.event) && (r.after.role = role))) &&
      (w.history.all fun p => Room p.2.before))
    (by decide +kernel)
  simp only [Bool.and_eq_true] at checked
  obtain ⟨beats, room⟩ := checked
  refine ⟨w, run, fun role hr => ?_, ?_⟩
  · simpa using List.any_eq_true.mp (List.all_eq_true.mp beats role hr)
  · exact check_quorum (trioConfig 1 (by decide)) .initial (run.trace 1)
      fun r hr => of_decide_eq_true (List.all_eq_true.mp room _ (mem_localHistory.mp hr))

/-- What ends a leadership: a heartbeat without a quorum, or a newer term. -/
def Deposes (earlier : List (Record C)) (c : RaftCore C) (event : Event C) : Prop :=
  Beats c event ∧ (heard earlier).card < c.config.quorum ∨
  ∃ envelope term, event = .messageReceived envelope ∧ envelope.message.carried = some term ∧
    c.hardState.currentTerm < term

/-- A leader that turns away the appends of its term steps down for newer terms only. -/
theorem MessageAct.deposes {from_ : NodeId} {m : Message C} (act : MessageAct c from_ m s)
    (leader : c.role = .leader) (lost : s.core.role ≠ .leader)
    (refuses : ∀ term prev prevTerm leaderCommit context entries,
      m = .appendEntries term prev prevTerm leaderCommit context entries →
      c.hardState.currentTerm ≤ term →
      c.hardState.currentTerm < term ∧ c.log.term prev ≠ .ok prevTerm) :
    ∃ term, m.carried = some term ∧ c.hardState.currentTerm < term := by
  by_contra none_
  refine lost (act.leads leader (fun term carried _ newer => none_ ⟨term, carried, newer⟩) ?_)
  intro term prev prevTerm leaderCommit context entries is reached
  exact none_ ⟨term, by rw [is]; rfl, (refuses _ _ _ _ _ _ is reached).1⟩

/-- A leader that turns away the appends of its term steps down at a heartbeat without a quorum,
or for a newer term. -/
theorem step_loses [Sha256] {result : Outcome StepError (StepOutput C)} (wf : c.WF) (room : Room c)
    (running : c.stopped = false) (run : step c event = (result, d))
    (returns : result ≠ Outcome.panic) (leader : c.role = .leader) (refuses : c.Refuses event)
    (lost : d.role ≠ .leader) :
    Beats c event ∧ c.activeMembers.card < c.config.quorum ∨
    ∃ envelope term, event = .messageReceived envelope ∧ envelope.message.carried = some term ∧
      c.hardState.currentTerm < term := by
  obtain ⟨r, s, handled, returned, role, -, -⟩ := step_handled running run returns
  have gone : s.core.role ≠ .leader := fun up => lost (role.trans up)
  by_cases beat : event = .tick .heartbeat
  · subst beat
    by_cases free : c.pendingPersist = none
    · rcases heartbeat_role wf leader free handled with ⟨-, up⟩ | ⟨few, -⟩
      · exact absurd up gone
      · exact .inl ⟨⟨leader, free, rfl⟩, few⟩
    -- a leader that waits for a write does not check its quorum
    · obtain rfl := heartbeat_idle (.inr (Option.isSome_iff_ne_none.mpr free)) handled
      exact absurd leader gone
  by_cases message : ∃ envelope, event = .messageReceived envelope
  · obtain ⟨envelope, rfl⟩ := message
    by_cases valid : validateEnvelope c envelope = .ok ()
    · obtain ⟨s₀, act, same, -⟩ := message_act wf room valid handled
      obtain ⟨term, carried, newer⟩ := act.deposes leader (same ▸ gone) refuses
      exact .inr ⟨envelope, term, rfl, carried, newer⟩
    · obtain ⟨f, refused⟩ := handle_refused valid
      obtain rfl : _ = s := congrArg Prod.snd (refused.symm.trans handled)
      exact absurd leader gone
  · have silent : ∀ envelope, event ≠ .messageReceived envelope :=
      fun envelope is => message ⟨envelope, is⟩
    rcases handled_act wf room handled returned with ⟨-, same⟩ | ⟨s₀, act, same, -⟩
    · exact absurd (same.trans leader) gone
    · exact absurd (same.trans (act.stays_leader leader beat silent)) gone

/-- A leader goes with its quorum or for a newer term, and for both it goes when the step
returns. -/
theorem leadership_ends [Sha256] (config : NodeId → Config) (members : List NodeId)
    (common : ∀ node, (config node).members = members) {history : List (NodeId × Record C)}
    {cores : NodeId → RaftCore C}
    (run : Run (fun node => RaftCore.new (config node) .initial) history cores)
    (unbuilt : NeverBuilt history) (room : ∀ p ∈ history, Room p.2.before) :
    Meets (fun earlier p => p.2.before.stopped = false → p.2.before.role = .leader →
      (p.2.after.role ≠ .leader → Deposes (localHistory earlier p.1) p.2.before p.2.event) ∧
      (Deposes (localHistory earlier p.1) p.2.before p.2.event →
        (∃ output, p.2.result = .ok output) → p.2.after.role = .follower)) history := by
  induction run with
  | start => trivial
  | @step history cores node d event result earlier local_ allowed delivered run returns ih =>
    have now : Cluster config members _ _ :=
      ⟨.step earlier local_ allowed delivered run returns, common, unbuilt, room⟩
    refine ⟨fun running leader => ?_, ih (List.forall_mem_cons.mp unbuilt).2
      (List.forall_mem_cons.mp room).2⟩
    have running : (cores node).stopped = false := running
    have leader : (cores node).role = .leader := leader
    have trace := earlier.trace node
    have wf := trace.wf.resolve_left (by simp [running])
    obtain ⟨roomNow, roomBefore⟩ := List.forall_mem_cons.mp room
    have counts := trace.counts (fun r hr => roomBefore _ (mem_localHistory.mp hr)) running leader
    constructor
    · intro lost
      have loses := step_loses wf roomNow running run returns leader
        (now.refuses (List.mem_cons_self ..) leader) lost
      rwa [counts] at loses
    · rintro (⟨⟨-, free, rfl⟩, few⟩ | ⟨envelope, term, rfl, carried, newer⟩) ⟨output, returned⟩
      · have few : (heard (localHistory history node)).card < (cores node).config.quorum := few
        rw [← counts] at few
        obtain ⟨r, s, handled, -, role, -, -⟩ := step_handled running run returns
        rcases heartbeat_role wf leader free handled with ⟨enough, -⟩ | ⟨-, down⟩
        · omega
        · exact role.trans down
      · obtain rfl : result = .ok output := returned
        have plain := now.run.snapshotless now.unbuilt now.room node
        rw [localHistory_cons_self] at plain
        refine (step_newer wf running carried newer (fun t metadata offset bytes done is => ?_) run).1
        have brings : envelope.message.bringsSnapshot = false := plain.1.2
        simp [is, Message.bringsSnapshot] at brings

/-- The leadership of node 1 ends at its second heartbeat. -/
theorem leadership_ends_silent : ∃ w : World Nat,
    @Run Nat sha256Empty trio w.history (w.core trio) ∧
    (∃ p ∈ w.history, p.2.before.role = .leader ∧ p.2.after.role = .follower) ∧
    Meets (fun earlier p => p.2.before.stopped = false → p.2.before.role = .leader →
      (p.2.after.role ≠ .leader → Deposes (localHistory earlier p.1) p.2.before p.2.event) ∧
      (Deposes (localHistory earlier p.1) p.2.before p.2.event →
        (∃ output, p.2.result = .ok output) → p.2.after.role = .follower)) w.history := by
  let _ : Sha256 := sha256Empty
  obtain ⟨w, run, checked⟩ := World.exec_any trio silentHeartbeats
    (fun w => (w.history.any fun p => (p.2.before.role = .leader) && (p.2.after.role = .follower)) &&
      ((w.history.all fun p => !p.2.built) && w.history.all fun p => Room p.2.before))
    (by decide +kernel)
  simp only [Bool.and_eq_true] at checked
  obtain ⟨ends, plain, room⟩ := checked
  refine ⟨w, run, by simpa using List.any_eq_true.mp ends, ?_⟩
  exact leadership_ends trioConfigs [1, 2, 3] trioConfigs_members run
    (neverBuilt_of_check plain) fun p hp => of_decide_eq_true (List.all_eq_true.mp room p hp)

end Ruft
