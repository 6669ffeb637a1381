import Ruft.Completions

set_option autoImplicit false

/-!
# What `step` can return

`Stepped` is the whole transition relation of a running, well-formed core: the step
panics, stops the core after a failure report, or follows a path and then returns the
effects, an error, or a fatal error of the invariant check.

## Main results

- `step_cases` — `step` stays inside `Stepped`
- `RaftCore.WF.step` — a step keeps the invariant or stops the core
-/

namespace Ruft

open Program StepM

variable {C : Type} {event : Event C} {c : RaftCore C} {from_ : NodeId} {s : Ctx C}

/-! ## The handler and the follow-ups of `step` -/

/-- What the handler of an event can return. -/
inductive Ran [Sha256] (c : RaftCore C) (event : Event C) : Outcome StepError Unit × Ctx C → Prop
  | panicked (s : Ctx C) (h : Panics c event) : Ran c event (.error .panic, s)
  | halted (e : StepError) (c' : RaftCore C) (stops : e.stops = true) (halted : Halted c c') :
      Ran c event (.error (.raise e), ⟨c', []⟩)
  | followed (r : Outcome StepError Unit) (s : Ctx C) (returns : r ≠ .error .panic)
      (path : Path c event s) (wf : s.core.WF) (quiet : r = .ok () ∨ s.Unqueued) : Ran c event (r, s)
  | overflowed (s : Ctx C) (path : Path c event s) (beyond : s.core.Overflowed) :
      Ran c event (.ok (), s)
  | stuck (e : StepError) (s : Ctx C) (stuck : Stuck c (Act c event) e s) :
      Ran c event (.error (.raise e), s)

theorem Ran.of_sound [Sha256] (h : c.WF) {run : Outcome StepError Unit × Ctx C}
    (hr : Sound (Act c event) Ctx.Unqueued (Stuck c (Act c event)) (FollowUp ⟨c, event⟩) run)
    (hne : ∀ id outcome, event ≠ .effectCompleted id outcome) : Ran c event run := by
  obtain ⟨r, s'⟩ := run
  obtain ⟨hp, ⟨s, act, quiet, rest⟩ | ⟨e, he, stuck⟩⟩ := hr
  · rcases h.act act with wf | ⟨-, ⟨id, snapshotId, rfl⟩, -⟩
    · exact .followed r s' hp (.mk s s' act rest) (wf.followUps rest)
        (quiet.imp (fun ⟨_, ha⟩ => ha) fun hq => hq.followUps rest)
    · exact absurd rfl (hne id _)
  · obtain rfl : r = .error (.raise e) := he
    exact .stuck e s' stuck

theorem RaftCore.Overflowed.noApply (h : s.core.Overflowed) :
    (emitApplyIfNeeded : StepM C Unit) s = (.ok (), s) := by
  show (if s.core.pendingPersist.isSome = true ∨ s.core.pendingApply.isSome = true ∨
    s.core.hardState.commitIndex ≤ s.core.appliedIndex then _ else _ : StepM C Unit) s = _
  rw [if_pos (.inr (.inr h.applied.ge))]
  rfl

theorem validateEnvelope_ok {envelope : Envelope C} (h : validateEnvelope c envelope = .ok ()) :
    envelope.from_ ∈ c.config.members ∧ envelope.to_ = c.config.localId ∧
      envelope.clusterId = c.config.clusterId := by
  unfold validateEnvelope at h
  split at h
  · simp at h
  split at h
  · simp at h
  split at h
  · simp at h
  · next h₁ h₂ h₃ => exact ⟨by simpa using h₃, by simpa using h₂, by simpa using h₁⟩

theorem onReceived_sound [Sha256] (h : c.WF)
    (envelope : Envelope C) : Sound (Act c (.messageReceived envelope))
      Ctx.Unqueued (Stuck c (Act c (.messageReceived envelope)))
      (FollowUp ⟨c, .messageReceived envelope⟩) (handle (.messageReceived envelope) ⟨c, []⟩) := by
  show Sound _ _ _ _ ((liftPure (validateEnvelope c envelope) >>= _) _)
  refine Sound.lift (.ignored _) (Ctx.unqueued_nil _) ?_ fun u hv => ?_
  · unfold validateEnvelope
    split
    · simp
    split
    · simp
    split <;> simp
  obtain ⟨known, mine, cluster⟩ := validateEnvelope_ok hv
  have received : ∀ members : Finset NodeId, Sound (Act c (.messageReceived envelope))
      Ctx.Unqueued (Stuck c (Act c (.messageReceived envelope)))
      (FollowUp ⟨c, .messageReceived envelope⟩) (onMessage envelope.from_ envelope.message
        ⟨{ c with activeMembers := members }, []⟩) := by
    intro members
    have sound := @onMessage_sound C ⟨c, .messageReceived envelope⟩ _
      (h.congr (d := { c with activeMembers := members }) rfl rfl rfl rfl rfl rfl rfl rfl rfl rfl
        rfl) envelope rfl ⟨members, rfl⟩
    have acts := fun s (act : MessageAct { c with activeMembers := members } envelope.from_
      envelope.message s) => Act.message envelope members s known mine act cluster
    exact sound.mono acts fun e s stuck => stuck.mono acts
  show Sound _ _ _ _ ((if c.role = .leader then _ else _ : StepM C Unit) _)
  split
  · exact received _
  · exact received c.activeMembers

theorem onCompleted_ran [Sha256] (h : c.WF) (id : EffectId)
    (outcome : EffectOutcome) : Ran c (.effectCompleted id outcome)
      (handle (.effectCompleted id outcome) ⟨c, []⟩) := by
  show Ran _ _ ((liftPure (c.validateCompletion id outcome) >>= _) _)
  cases hv : c.validateCompletion id outcome with
  | error f =>
    cases f with
    | raise e =>
      exact .followed _ _ (by simp [Fault.map]) (.mk _ _ (.ignored _) .refl) h
        (.inr (Ctx.unqueued_nil _))
    | panic =>
      unfold RaftCore.validateCompletion at hv
      split at hv
      · simp at hv
      split at hv
      · split at hv <;> simp at hv
      · split at hv <;> simp at hv
  | ok u =>
    show Ran _ _ ((onEffectCompleted id outcome >>= _) _)
    have hc := onEffectCompleted_completed id outcome h
    revert hc
    generalize hrun : onEffectCompleted id outcome ⟨c, []⟩ = run
    intro hc
    cases hc with
    | panicked s hgone => rw [bind_run_error hrun]; exact .panicked _ hgone
    | halted e c' stops hhalt => rw [bind_run_error hrun]; exact .halted _ _ stops hhalt
    | stuck e s stuck =>
      rw [bind_run_error hrun]
      exact .stuck _ _ (@Stuck.mono C c _ _ c.activeMembers _ _ stuck fun s act =>
        .completed id outcome s act)
    | ran r s s' returns act rest settled quiet =>
      have hact := Act.completed (c := c) id outcome s act
      rcases settled with wf | ⟨rfl, rfl⟩
      · cases r with
        | error f =>
          rw [bind_run_error hrun]
          exact .followed _ _ (by simpa using returns) (.mk _ _ hact rest) (wf.followUps rest)
            (.inr ((quiet.resolve_left (by simp)).followUps rest))
        | ok u =>
          rw [bind_run_ok hrun]
          have rest' := rest.tail (FollowUp.recorded s' id outcome rfl)
          exact .followed _ _ (by simp) (.mk _ _ hact rest') (wf.followUps rest') (.inl rfl)
      · rw [bind_run_ok hrun]
        have rest' := rest.tail (FollowUp.recorded s' id outcome rfl)
        rcases h.completionAct act with wf | ⟨beyond, -⟩
        · exact .followed _ _ (by simp) (.mk _ _ hact rest') (wf.followUps rest') (.inl rfl)
        · exact .overflowed _ (.mk _ _ hact rest') ⟨beyond.bound, beyond.applied, beyond.last,
            beyond.committed, beyond.emptied⟩

theorem handle_ran [Sha256] (h : c.WF) (event : Event C) :
    Ran c event (handle event ⟨c, []⟩) := by
  cases event with
  | tick kind =>
    cases kind with
    | election => exact .of_sound h (startPreVote_sound) (by simp)
    | heartbeat => exact .of_sound h (onHeartbeatTick_sound h) (by simp)
  | messageReceived envelope => exact .of_sound h (onReceived_sound h envelope) (by simp)
  | propose proposalId command encodedLen =>
    exact .of_sound h (onPropose_sound h proposalId command encodedLen) (by simp)
  | read readId context => exact .of_sound h (onRead_sound h readId context) (by simp)
  | snapshotRequested =>
    exact .of_sound h (Sound.leads (.ignored _) (Ctx.unqueued_nil _) requestLocalSnapshot_leads) (by simp)
  | effectCompleted id outcome => exact onCompleted_ran h id outcome
  | shutdown => exact .of_sound h (.ok .shutDown) (by simp)

theorem MessageAct.unqueued_or {m : Message C} (act : MessageAct c from_ m s) :
    s.Unqueued ∨ s.core.pendingPersist.isSome = true := by
  cases act with
  | refused | voteAgain | appendRefused | appendHeld | chunkAccepted =>
    exact .inl (by simp [Ctx.Unqueued])
  | _ => first | exact .inl (Ctx.unqueued_nil _) | exact .inr rfl

theorem CompletionAct.unqueued_or [Sha256] {id : EffectId} {outcome : EffectOutcome}
    (act : CompletionAct c id outcome s) :
    s.Unqueued ∨ s.core.pendingPersist.isSome = true := by
  cases act with
  | chunkRead | transferDone | snapshotPersisted | installed | built | recordPersisted
  | voteAnswered | appendAnswered => exact .inl (by simp [Ctx.Unqueued])
  | applyDone => exact .inl (by simp [Ctx.Unqueued, Ctx.answered])
  | votesRequested => exact .inl (by simp [Ctx.Unqueued, toPeers])
  | _ => first | exact .inl (Ctx.unqueued_nil _) | exact .inr rfl

/-- An act that hands out entries to be persisted waits for them. -/
theorem Act.unqueued_or [Sha256] (act : Act c event s) :
    s.Unqueued ∨ s.core.pendingPersist.isSome = true := by
  cases act with
  | message envelope members s known mine act => exact act.unqueued_or
  | completed id outcome s act => exact act.unqueued_or
  | preVoteStarted => exact .inl (by simp [Ctx.Unqueued, toPeers])
  | proposalRefused => exact .inl (by simp [Ctx.Unqueued])
  | readStarted readId => exact .inl ((Ctx.unqueued_nil c).roundStarted readId)
  | _ => first | exact .inl (Ctx.unqueued_nil _) | exact .inr rfl

theorem FollowUp.waiting {cause : Cause C} {s' : Ctx C} (hf : FollowUp cause s s')
    (h : s.core.pendingPersist.isSome = true) : s'.core.pendingPersist.isSome = true := by
  cases hf with
  | readStarted readId rest =>
    obtain ⟨round, hr⟩ :=
      Ctx.roundStarted_core ⟨{ s.core with pendingReads := rest }, s.effects⟩ readId
    rw [hr]
    exact h
  | committed => rfl
  | _ => exact h

theorem FollowUps.waiting {cause : Cause C} {s' : Ctx C} (rest : FollowUps cause s s')
    (h : s.core.pendingPersist.isSome = true) : s'.core.pendingPersist.isSome = true := by
  induction rest with
  | refl => exact h
  | tail _ hstep ih => exact hstep.waiting ih

theorem emitApply_waits (h : s.core.pendingPersist.isSome = true) :
    (emitApplyIfNeeded : StepM C Unit) s = (.ok (), s) := by
  show (if s.core.pendingPersist.isSome = true ∨ s.core.pendingApply.isSome = true ∨
    s.core.hardState.commitIndex ≤ s.core.appliedIndex then _ else _ : StepM C Unit) s = _
  rw [if_pos (.inl h)]
  rfl

theorem process_ran [Sha256] (h : c.WF) (event : Event C) :
    Ran c event (process event ⟨c, []⟩) := by
  have hran := handle_ran h event
  revert hran
  generalize hrun : handle event ⟨c, []⟩ = run
  intro hran
  cases hran with
  | panicked s hp => rw [process, bind_run_error hrun]; exact .panicked _ hp
  | halted e c' stops hhalt => rw [process, bind_run_error hrun]; exact .halted _ _ stops hhalt
  | followed r s returns path wf quiet =>
    cases r with
    | error f =>
      rw [process, bind_run_error hrun]
      exact .followed _ _ returns path wf quiet
    | ok u =>
      rw [process, bind_run_ok hrun]
      obtain ⟨hp, hr⟩ := @emitApplyIfNeeded_leads C ⟨c, event⟩ _ wf
      obtain ⟨s₀, s', act, rest⟩ := path
      refine .followed _ _ hp (.mk s₀ _ act (rest.trans hr)) (wf.followUps hr) ?_
      rcases act.unqueued_or with quiet | waits
      · exact .inr ((quiet.followUps rest).followUps hr)
      · exact .inl (congrArg Prod.fst (emitApply_waits (rest.waiting waits)))
  | overflowed s path beyond =>
    rw [process, bind_run_ok hrun, beyond.noApply]
    exact .overflowed _ path beyond
  | stuck e s stuck => rw [process, bind_run_error hrun]; exact .stuck _ _ stuck

/-! ## The invariant check and `step` -/

/-- The end of a step that returns: a leader that lost its role fails its proposals. -/
def Ctx.finished (c : RaftCore C) (s : Ctx C) : Ctx C :=
  if c.role = .leader ∧ s.core.role ≠ .leader then
    s.answered (fun index => s.core.hardState.commitIndex < index) fun _ => .leadershipLost
  else s

theorem Ctx.finished_core (c : RaftCore C) (s : Ctx C) : ∃ proposals,
    (s.finished c).core = { s.core with proposals := proposals } := by
  unfold Ctx.finished
  split
  · exact ⟨_, rfl⟩
  · exact ⟨s.core.proposals, rfl⟩

theorem Ctx.finished_kept (c : RaftCore C) (s : Ctx C) :
    (s.finished c).core.role = s.core.role ∧ (s.finished c).core.hardState = s.core.hardState := by
  obtain ⟨proposals, core⟩ := s.finished_core c
  rw [core]
  exact ⟨rfl, rfl⟩

theorem Ctx.finished_effects (c : RaftCore C) (s : Ctx C) : ∃ new,
    (s.finished c).effects = s.effects ++ new ∧ ∀ e ∈ new, ∃ p result, e = .proposalResult p result := by
  unfold Ctx.finished
  split
  · refine ⟨_, rfl, fun e he => ?_⟩
    obtain ⟨binding, -, he⟩ := List.mem_flatMap.mp he
    obtain ⟨p, -, rfl⟩ := List.mem_map.mp he
    exact ⟨p, _, rfl⟩
  · exact ⟨[], by simp, by simp⟩

theorem Ctx.finished_sends (c : RaftCore C) {to_ : NodeId} {m : Message C}
    (h : .sendMessage to_ m ∈ (s.finished c).effects) : .sendMessage to_ m ∈ s.effects := by
  obtain ⟨new, he, hnew⟩ := s.finished_effects c
  rw [he] at h
  refine (List.mem_append.mp h).resolve_right fun hm => ?_
  obtain ⟨p, result, hp⟩ := hnew _ hm
  simp at hp

theorem RaftCore.WF.validate (h : c.WF) : c.validateInvariants ≠ .error .panic := by
  have hfirst := h.log.firstIndex
  have hterm := h.log.term_lastIndex
  have hvalid : c.log.validate ≠ .error .panic := by
    unfold RaftLog.validate
    simp only [hfirst, bind, Except.bind, RaftLog.validateContinuity,
      RaftLog.termBefore_eq (Nat.succ_pos _), Nat.succ_sub_one, h.log.term_snapshot]
    cases hc : RaftLog.checkContinuity (c.log.snapshotIndex + 1) c.log.snapshotTerm c.log.entries with
    | ok u => simp
    | error f =>
      cases f with
      | raise e => simp [Fault.map]
      | panic => exact absurd hc RaftLog.checkContinuity_ne_panic
  unfold RaftCore.validateInvariants
  simp only [checkedNextOr_eq_ok _ h.commit_lt, bind, Except.bind, hfirst, hterm]
  split
  · simp
  split
  · simp
  split
  · simp
  split
  · simp
  split
  · simp
  split
  · simp
  · exact hvalid

theorem RaftCore.Overflowed.validate (h : c.Overflowed) :
    c.validateInvariants = Outcome.raise .indexOverflow := by
  unfold RaftCore.validateInvariants
  simp only [h.applied, h.last, h.committed, lt_irrefl, if_false, ne_eq, not_true_eq_false]
  simp [checkedNextOr, checkedNext, Nat.not_lt.mpr h.bound, bind, Except.bind]

/-- Everything a step of a running, well-formed core can do. -/
inductive Stepped [Sha256] (c : RaftCore C) (event : Event C) :
    Outcome StepError (StepOutput C) → RaftCore C → Prop
  | panicked (c' : RaftCore C) (h : Panics c event) : Stepped c event Outcome.panic c'
  | halted (e : StepError) (c' : RaftCore C) (reason : StoppedReason) (halted : Halted c c') :
      Stepped c event (Outcome.raise e) (c'.stop reason)
  | returned (s : Ctx C) (changed : Bool) (path : Path c event s) (wf : (s.finished c).core.WF) :
      Stepped c event (.ok ⟨(s.finished c).effects, changed⟩) (s.finished c).core
  | failed (s : Ctx C) (e : StepError) (path : Path c event s) (wf : s.core.WF)
      (quiet : s.Unqueued) : Stepped c event (Outcome.raise e) s.core
  | crashed (s : Ctx C) (e : StepError) (reason : StoppedReason) (path : Path c event s) :
      Stepped c event (Outcome.raise e) (s.core.stop reason)
  | invalid (s : Ctx C) (e : StepError) (reason : StoppedReason) (path : Path c event s) :
      Stepped c event (Outcome.raise e) ((s.finished c).core.stop reason)
  | stuck (e : StepError) (s : Ctx C) (stuck : Stuck c (Act c event) e s) :
      Stepped c event (Outcome.raise e) s.core

theorem RaftCore.fatalize_cases (c : RaftCore C) (e : StepError) :
    (e.stops = true ∧ ∃ reason, (c.fatalize e).2 = c.stop reason) ∨
    (e.stops = false ∧ c.fatalize e = (e, c)) := by
  cases e <;> first | exact .inl ⟨rfl, _, rfl⟩ | exact .inr ⟨rfl, rfl⟩

/-- What `step` makes of the run of the handler. -/
def conclude (c : RaftCore C) : Outcome StepError Unit × Ctx C →
    Outcome StepError (StepOutput C) × RaftCore C
  | (.error .panic, s) => (Outcome.panic, s.core)
  | (.error (.raise e), s) => (Outcome.raise (s.core.fatalize e).1, (s.core.fatalize e).2)
  | (.ok (), s) => match (s.finished c).core.validateInvariants with
    | .error .panic => (Outcome.panic, (s.finished c).core)
    | .error (.raise violation) => (Outcome.raise (.fatal (.invariant violation)),
        (s.finished c).core.stop (.fatal (.invariant violation)))
    | .ok () => (.ok ⟨(s.finished c).effects, c.role ≠ (s.finished c).core.role⟩,
        (s.finished c).core)

theorem step_eq [Sha256] (running : c.stopped = false) (event : Event C) :
    step c event = conclude c (process event ⟨c, []⟩) := by
  unfold step
  rw [running]
  rfl

theorem step_cases [Sha256] (h : c.WF)
    (running : c.stopped = false) (event : Event C) :
    Stepped c event (step c event).1 (step c event).2 := by
  have hran := process_ran h event
  revert hran
  generalize hrun : process event ⟨c, []⟩ = run
  intro hran
  rw [step_eq running, hrun]
  cases hran with
  | panicked s hp => exact .panicked _ hp
  | halted e c' stops hhalt =>
    rcases c'.fatalize_cases e with ⟨-, reason, hr⟩ | ⟨hns, -⟩
    · simp only [conclude, hr]
      exact .halted _ _ reason hhalt
    · simp [stops] at hns
  | followed r s returns path wf quiet =>
    cases r with
    | error f =>
      cases f with
      | panic => exact absurd rfl returns
      | raise e =>
        rcases s.core.fatalize_cases e with ⟨-, reason, hr⟩ | ⟨-, hr⟩
        · simp only [conclude, hr]
          exact .crashed s _ reason path
        · simp only [conclude, hr]
          exact .failed s e path wf (quiet.resolve_left (by simp))
    | ok u =>
      have wf' : (s.finished c).core.WF := by
        obtain ⟨proposals, hp⟩ := s.finished_core c
        rw [hp]
        exact wf.congr rfl rfl rfl rfl rfl rfl rfl rfl rfl rfl rfl
      simp only [conclude]
      cases hv : (s.finished c).core.validateInvariants with
      | ok u => exact .returned s _ path wf'
      | error f =>
        cases f with
        | panic => exact absurd hv wf'.validate
        | raise violation => exact .invalid s _ _ path
  | overflowed s path beyond =>
    have beyond' : (s.finished c).core.Overflowed := by
      obtain ⟨proposals, hp⟩ := s.finished_core c
      rw [hp]
      exact ⟨beyond.bound, beyond.applied, beyond.last, beyond.committed, beyond.emptied⟩
    simp only [conclude, beyond'.validate]
    exact .invalid s _ _ path
  | stuck e s stuck =>
    have same : conclude c (.error (.raise e), s) = (Outcome.raise e, s.core) := by
      cases stuck <;> rfl
    rw [same]
    exact .stuck e s stuck

/-- A step that does not panic keeps the invariant or stops the core. -/
theorem RaftCore.WF.step [Sha256] (h : c.WF)
    (running : c.stopped = false) {c' : RaftCore C} {r : Outcome StepError (StepOutput C)}
    (hs : Ruft.step c event = (r, c')) (hr : r ≠ Outcome.panic) : c'.stopped = true ∨ c'.WF := by
  have hcases := step_cases h running event
  rw [hs] at hcases
  cases hcases with
  | panicked => exact absurd rfl hr
  | halted => exact .inl rfl
  | returned s changed path wf => exact .inr wf
  | failed s e path wf => exact .inr wf
  | crashed => exact .inl rfl
  | invalid => exact .inl rfl
  | stuck e s stuck => exact .inr (h.stuck stuck)

/-! ## Steps that returned -/

theorem conclude_eq_ok {run : Outcome StepError Unit × Ctx C} {output : StepOutput C}
    {c' : RaftCore C}
    (h : conclude c run = (.ok output, c')) : ∃ s, run = (.ok (), s) ∧
      output.effects = (s.finished c).effects ∧ c' = (s.finished c).core ∧
      c'.validateInvariants = .ok () := by
  obtain ⟨r, s⟩ := run
  cases r with
  | error f => cases f <;> simp [conclude] at h
  | ok u =>
    refine ⟨s, rfl, ?_⟩
    simp only [conclude] at h
    split at h
    · simp at h
    · simp at h
    · next valid =>
      simp only [Prod.mk.injEq, Except.ok.injEq] at h
      obtain ⟨rfl, rfl⟩ := h
      exact ⟨rfl, rfl, valid⟩

/-- A handler that returned, when the core passes the check. -/
theorem conclude_ok (valid : (s.finished c).core.validateInvariants = .ok ()) :
    ∃ output, conclude c (.ok (), s) = (.ok output, (s.finished c).core) ∧
      output.effects = (s.finished c).effects := by
  simp only [conclude, valid]
  exact ⟨_, rfl, rfl⟩

/-- A core that still leads keeps its proposals. -/
theorem Ctx.finished_leader (leader : s.core.role = .leader) : s.finished c = s := by
  rw [Ctx.finished, if_neg (by simp [leader])]

/-- The parts of a step that returned after a message. -/
theorem step_received [Sha256] {envelope : Envelope C} {output : StepOutput C} {c' : RaftCore C}
    (running : c.stopped = false)
    (run : step c (.messageReceived envelope) = (.ok output, c')) :
    ∃ members s s', onMessage envelope.from_ envelope.message
        ⟨{ c with activeMembers := members }, []⟩ = (.ok (), s) ∧
      (emitApplyIfNeeded : StepM C Unit) s = (.ok (), s') ∧
      output.effects = (s'.finished c).effects ∧ c' = (s'.finished c).core := by
  rw [step_eq running] at run
  obtain ⟨s', processed, effects, core, -⟩ := conclude_eq_ok run
  obtain ⟨_, s, handled, applied⟩ := bind_eq_ok processed
  obtain ⟨c₁, t, read, rest⟩ := bind_eq_ok handled
  obtain ⟨_, t', valid, rest⟩ := bind_eq_ok rest
  obtain ⟨rfl, rfl⟩ : c₁ = c ∧ t = ⟨c, []⟩ := by
    simp only [core_run, Prod.mk.injEq, Except.ok.injEq] at read
    exact ⟨read.1.symm, read.2.symm⟩
  obtain ⟨-, rfl⟩ := lift_eq_ok valid
  by_cases leader : c₁.role = .leader
  · rw [if_pos leader] at rest
    exact ⟨_, s, s', rest, applied, effects, core⟩
  · rw [if_neg leader] at rest
    exact ⟨c₁.activeMembers, s, s', rest, applied, effects, core⟩

/-- The last thing a step does writes a slot and the effect counter and emits at most an apply. -/
theorem emitApply_frame (s : Ctx C) : ∃ sequence applying new,
    ((emitApplyIfNeeded : StepM C Unit) s).2 = ⟨{ s.core with
      nextEffectSequence := sequence, pendingApply := applying }, s.effects ++ new⟩ ∧
    ∀ e ∈ new, ∃ id entries, e = .apply id entries := by
  have same : ∀ {s'}, s' = s → ∃ sequence applying new, s' = ⟨{ s.core with
      nextEffectSequence := sequence, pendingApply := applying }, s.effects ++ new⟩ ∧
      ∀ e ∈ new, ∃ id entries, e = .apply id entries := by
    rintro _ rfl
    exact ⟨_, _, [], by rw [List.append_nil], by simp⟩
  rw [emitApplyIfNeeded, bind_run_ok (core_run _)]
  split
  · exact same rfl
  by_cases next : s.core.appliedIndex < u64Max
  · rw [liftNext_ok next, bind_pure_run]
    cases range : s.core.log.range (s.core.appliedIndex + 1) s.core.hardState.commitIndex with
    | error e => exact same rfl
    | ok entries =>
      rw [liftLog, lift_ok, bind_pure_run]
      by_cases room : s.core.nextEffectSequence < u64Max
      · rw [bind_run_ok (nextEffectId_run room)]
        exact ⟨_, _, [.apply s.allocated entries], rfl, by simp⟩
      · rw [bind_run_error (nextEffectId_overflow room)]
        exact same rfl
  · rw [liftNext_overflow next]
    exact same rfl

theorem emitApply_kept {s' : Ctx C}
    (applied : (emitApplyIfNeeded : StepM C Unit) s = (.ok (), s')) :
    s'.core.role = s.core.role ∧ s'.core.hardState = s.core.hardState := by
  obtain ⟨sequence, applying, new, frame, -⟩ := emitApply_frame s
  rw [applied] at frame
  obtain rfl : s' = _ := frame
  exact ⟨rfl, rfl⟩

theorem emitApply_grows {s' : Ctx C}
    (applied : (emitApplyIfNeeded : StepM C Unit) s = (.ok (), s')) : s.effects ⊆ s'.effects := by
  obtain ⟨sequence, applying, new, frame, -⟩ := emitApply_frame s
  rw [applied] at frame
  obtain rfl : s' = _ := frame
  exact List.subset_append_left _ _

end Ruft
