import Ruft.ReadAnswers
import Ruft.Disk

set_option autoImplicit false

/-!
# Proposals are accounted for

A proposal is answered at once, or bound to the index of its entry until it is answered. Answers
take their proposals out of the map. A step that fails drops its effects, so that a core that
runs out of ids after it answered loses the answers.

## Main definitions

- `RaftCore.bound` — how often a proposal waits for its entry
- `asked`, `taken`, `answered` — how often a run was asked for a proposal, took it, answered it
- `AnswersFit` — what comes after a proposal is bound, or after answers, works

## Main results

- `proposals_answered_once` — no run answers a proposal more often than it was made
- `proposals_conserved` — what was taken is answered or bound
-/

namespace Ruft

open Program StepM

variable {C : Type} {c : RaftCore C} {event : Event C}

/-- The proposal that an effect answers. -/
def Effect.proposal? : Effect C → Option ProposalId
  | .proposalResult proposalId _ => some proposalId
  | _ => none

/-- How often effects answer a proposal. -/
def resolved (proposalId : ProposalId) (effects : List (Effect C)) : Nat :=
  (effects.filterMap Effect.proposal?).count proposalId

/-- How often a proposal waits for its entry. -/
def RaftCore.bound (proposalId : ProposalId) (c : RaftCore C) : Nat :=
  (c.proposals.toList.flatMap (·.2)).count proposalId

/-- How often a proposal waits or was answered in the step. -/
def Ctx.accounted (proposalId : ProposalId) (s : Ctx C) : Nat :=
  s.core.bound proposalId + resolved proposalId s.effects

/-- How often an event makes a proposal. -/
def Event.makes (proposalId : ProposalId) : Event C → Nat
  | .propose id _ _ => [id].count proposalId
  | _ => 0

variable {proposalId : ProposalId}

theorem resolved_append (effects more : List (Effect C)) :
    resolved proposalId (effects ++ more) =
      resolved proposalId effects + resolved proposalId more := by
  rw [resolved, List.filterMap_append, List.count_append]
  rfl

theorem resolved_eq_zero {effects : List (Effect C)} (h : ∀ e ∈ effects, e.proposal? = none) :
    resolved proposalId effects = 0 := by
  rw [resolved, List.filterMap_eq_nil_iff.mpr h]
  rfl

theorem resolved_answers (bindings : List (Nat × List ProposalId)) (result : Nat → ProposalResult) :
    resolved proposalId (bindings.flatMap fun binding =>
      binding.2.map fun id => (.proposalResult id (result binding.1) : Effect C)) =
      (bindings.flatMap (·.2)).count proposalId := by
  have own : ∀ binding : Nat × List ProposalId, (binding.2.map fun id =>
      (.proposalResult id (result binding.1) : Effect C)).filterMap Effect.proposal? =
      binding.2 := fun binding => by
    rw [List.filterMap_map]
    exact List.filterMap_some
  rw [resolved, List.filterMap_flatMap]
  simp only [own]

/-- Answers take the proposals that they answer out of the map. -/
theorem Ctx.answered_accounted (s : Ctx C) (p : Nat → Bool) (result : Nat → ProposalResult) :
    (s.answered p result).accounted proposalId = s.accounted proposalId := by
  have parts := ((List.filter_append_perm (fun b => p b.1) s.core.proposals.toList).flatMap_right
    fun b => b.2).count_eq proposalId
  rw [List.flatMap_append, List.count_append] at parts
  rw [Ctx.accounted, Ctx.answered, resolved_append, resolved_answers]
  show ((s.core.proposals.toList.filter fun b => !p b.1).flatMap (·.2)).count proposalId +
    (resolved proposalId s.effects +
      ((s.core.proposals.toList.filter fun b => p b.1).flatMap (·.2)).count proposalId) =
    (s.core.proposals.toList.flatMap (·.2)).count proposalId + resolved proposalId s.effects
  omega

/-- One proposal more waits. -/
theorem count_insert (m : BTreeMap Nat (List ProposalId)) (index : Nat) (id : ProposalId) :
    ((m.insert index ((m.get index).getD [] ++ [id])).toList.flatMap (·.2)).count proposalId =
      (m.toList.flatMap (·.2)).count proposalId + [id].count proposalId := by
  have now := ((BTreeMap.insert_perm m index
    ((m.get index).getD [] ++ [id])).flatMap_right fun b => b.2).count_eq proposalId
  rw [List.flatMap_cons, List.count_append, List.count_append] at now
  have before : (m.toList.flatMap (·.2)).count proposalId =
      ((m.get index).getD []).count proposalId +
        ((m.remove index).toList.flatMap (·.2)).count proposalId := by
    cases found : m.get index with
    | none =>
      rw [BTreeMap.remove_of_none found, Option.getD_none, List.count_nil, Nat.zero_add]
    | some ids =>
      have same := ((BTreeMap.insert_perm (m.remove index) index
        ids).flatMap_right fun b => b.2).count_eq proposalId
      rw [BTreeMap.insert_remove found, List.flatMap_cons, List.count_append,
        BTreeMap.remove_of_none (by simp)] at same
      exact same
  omega

/-! ## One step -/

theorem accounted_silent {d : RaftCore C} {effects : List (Effect C)}
    (same : d.proposals = c.proposals) (none_ : ∀ e ∈ effects, e.proposal? = none) :
    Ctx.accounted proposalId ⟨d, effects⟩ = c.bound proposalId := by
  rw [Ctx.accounted, resolved_eq_zero none_, Nat.add_zero, RaftCore.bound, same]
  rfl

theorem toPeers_proposal {config : Config} {m : Message C} :
    ∀ e ∈ toPeers config m, e.proposal? = none := by
  intro e he
  obtain ⟨n, -, rfl⟩ := List.mem_map.mp he
  rfl

theorem Ctx.roundStarted_accounted (s : Ctx C) (readId : ReadId) :
    (s.roundStarted readId).accounted proposalId = s.accounted proposalId := by
  obtain ⟨round, hr⟩ := s.roundStarted_core readId
  have same : (s.roundStarted readId).core.bound proposalId = s.core.bound proposalId := by
    rw [hr]
    rfl
  rw [Ctx.accounted, Ctx.accounted, same]
  rcases s.roundStarted_effects readId with silent | ⟨context, more⟩
  · rw [silent]
  · rw [more, resolved_append, Ctx.readHeartbeats, resolved_eq_zero toPeers_proposal, Nat.add_zero]

theorem Act.accounts [Sha256] {s : Ctx C} (act : Act c event s) :
    s.accounted proposalId = c.bound proposalId ∨
      s.accounted proposalId = c.bound proposalId + event.makes proposalId := by
  cases act with
  | proposalRefused id => exact .inr rfl
  | proposed id command encodedLen entry =>
    right
    exact count_insert c.proposals entry.index id
  | message envelope members s known mine act =>
    left
    generalize envelope.message = m at act
    cases act with
    | refused _ reply refusal | appendRefused _ _ _ _ _ _ _ reply refusal =>
      exact accounted_silent rfl (by simp [Effect.proposal?])
    | _ => exact accounted_silent rfl (by simp [Effect.proposal?])
  | completed id outcome s act =>
    left
    cases act with
    | applyDone pending found =>
      rw [Ctx.answered_accounted]
      exact accounted_silent rfl (by simp)
    | votesRequested => exact accounted_silent rfl toPeers_proposal
    | _ => exact accounted_silent rfl (by simp [Effect.proposal?])
  | preVoteStarted => exact .inl (accounted_silent rfl toPeers_proposal)
  | readStarted readId =>
    left
    rw [Ctx.roundStarted_accounted]
    exact accounted_silent rfl (by simp)
  | _ => exact .inl (accounted_silent rfl (by simp [Effect.proposal?]))

theorem FollowUp.accounts {cause : Cause C} {s s' : Ctx C} (hf : FollowUp cause s s') :
    s'.accounted proposalId = s.accounted proposalId := by
  have silent : ∀ {d : RaftCore C} {more : List (Effect C)}, d.proposals = s.core.proposals →
      (∀ e ∈ more, e.proposal? = none) →
      Ctx.accounted proposalId ⟨d, s.effects ++ more⟩ = s.accounted proposalId := by
    intro d more same none_
    rw [Ctx.accounted, resolved_append, resolved_eq_zero none_, Nat.add_zero, RaftCore.bound, same]
    rfl
  cases hf with
  | applied | appendSent | chunkRequested | buildRequested | committed =>
    exact silent rfl (by simp [Effect.proposal?])
  | readReleased round index =>
    refine silent rfl fun e he => ?_
    obtain ⟨readId, -, rfl⟩ := List.mem_map.mp he
    rfl
  | readStarted readId rest => rw [Ctx.roundStarted_accounted]; rfl
  | _ => rfl

theorem Ctx.finished_accounted (c : RaftCore C) (s : Ctx C) :
    (s.finished c).accounted proposalId = s.accounted proposalId := by
  unfold Ctx.finished
  split
  · exact s.answered_accounted _ _
  · rfl

theorem Path.accounts [Sha256] {s : Ctx C} (path : Path c event s) :
    s.accounted proposalId = c.bound proposalId ∨
      s.accounted proposalId = c.bound proposalId + event.makes proposalId := by
  obtain ⟨s₀, s, act, rest⟩ := path
  induction rest with
  | refl => exact act.accounts
  | tail _ last ih => rwa [last.accounts]

theorem emitApplyIfNeeded_accounts {s t : Ctx C}
    (run : (emitApplyIfNeeded : StepM C Unit) s = (.ok (), t)) :
    t.accounted proposalId = s.accounted proposalId := by
  unfold emitApplyIfNeeded at run
  rw [bind_run_ok (core_run _)] at run
  split at run
  · obtain ⟨-, rfl⟩ := Prod.mk.inj run
    rfl
  obtain ⟨from_, s₁, counted, run⟩ := bind_eq_ok run
  obtain ⟨-, rfl⟩ := lift_eq_ok counted
  obtain ⟨entries, s₂, ranged, run⟩ := bind_eq_ok run
  obtain ⟨-, rfl⟩ := lift_eq_ok ranged
  by_cases room : s.core.nextEffectSequence < u64Max
  · rw [bind_run_ok (nextEffectId_run room), bind_run_ok (update_run _ _)] at run
    obtain ⟨-, rfl⟩ := Prod.mk.inj run
    show _ + resolved proposalId (s.effects ++ [_]) = _
    rw [resolved_append]
    rfl
  · rw [bind_run_error (nextEffectId_overflow room)] at run
    simp at run

/-- When a proposal is taken, it is answered or bound. -/
theorem process_propose [Sha256] {id : ProposalId} {command : C} {encodedLen : Nat} {s : Ctx C}
    (run : process (.propose id command encodedLen) ⟨c, []⟩ = (.ok (), s)) :
    s.accounted proposalId = c.bound proposalId + [id].count proposalId := by
  obtain ⟨_, t, proposed, applied⟩ := bind_eq_ok run
  rw [emitApplyIfNeeded_accounts applied]
  have proposed : onPropose id command encodedLen ⟨c, []⟩ = (.ok (), t) := proposed
  unfold onPropose at proposed
  rw [bind_run_ok (core_run _)] at proposed
  split at proposed
  · obtain ⟨-, rfl⟩ := Prod.mk.inj proposed
    rfl
  split at proposed
  · obtain ⟨-, rfl⟩ := Prod.mk.inj proposed
    rfl
  obtain ⟨index, t₁, counted, proposed⟩ := bind_eq_ok proposed
  obtain ⟨-, rfl⟩ := lift_eq_ok counted
  obtain ⟨entry, t₂, built, proposed⟩ := bind_eq_ok proposed
  obtain ⟨-, rfl⟩ := lift_eq_ok built
  obtain ⟨log, t₃, appended, proposed⟩ := bind_eq_ok proposed
  obtain ⟨-, rfl⟩ := lift_eq_ok appended
  rw [bind_run_ok (update_run _ _)] at proposed
  obtain rfl := queuePersist_eq_ok proposed
  exact count_insert c.proposals index id

/-! ## Steps that fail -/

/-- What comes after a proposal is bound, or after answers, works. -/
def AnswersFit (c : RaftCore C) : Event C → Prop
  | .propose .. => Room c
  | .effectCompleted id (.applied through) => c.pendingApply = some ⟨id, through⟩ →
      ApplyCompletes (c.appliedThrough through)
  | _ => True

/-- The proposals are those of before, unless the context counter ran out. -/
def Unbound (c : RaftCore C) (_ : StepError) (s : Ctx C) : Prop :=
  s.core.nextReadContext < u64Max → s.core.proposals = c.proposals

theorem OutOfContexts.unbound {e : StepError} {s : Ctx C} (h : OutOfContexts e s) : Unbound c e s :=
  fun room => absurd room h

/-- A handler that is tried before the apply passes a report of an apply on or refuses it. -/
def Passes (c : RaftCore C) (m : StepM C Bool) : Prop :=
  Yields (fun b s => b = false ∧ s = ⟨c, []⟩) (Unbound c) m ⟨c, []⟩

theorem onOutgoingSnapshotCompletion_passes (id : EffectId) (through : Nat) :
    Passes c (onOutgoingSnapshotCompletion id (.applied through)) := by
  rw [Passes, onOutgoingSnapshotCompletion]
  refine .of_same (bind_run_ok (core_run _) _) ?_
  cases c.pendingSnapshotReads.get id with
  | none => exact .pure ⟨rfl, rfl⟩
  | some to_ =>
    refine .of_same (bind_run_ok (update_run _ _) _) ?_
    cases c.snapshotSenders.get to_ with
    | none => trivial
    | some sender => exact fun _ => rfl

theorem onChunkStoreCompletion_passes [Sha256] (id : EffectId) (through : Nat) :
    Yields (fun b s => b = none ∧ s = ⟨c, []⟩) (Unbound c)
      (onChunkStoreCompletion id (.applied through)) ⟨c, []⟩ := by
  rw [onChunkStoreCompletion]
  refine .of_same (bind_run_ok (core_run _) _) ?_
  cases stored : c.pendingChunkStore with
  | none => exact .pure ⟨rfl, rfl⟩
  | some pending =>
    refine .of_same (bind_run_ok (update_run _ _) _) ?_
    dsimp only
    split
    · exact .of_same (bind_run_ok (update_run _ _) _) (.pure ⟨rfl, by simp [← stored]⟩)
    · exact fun _ => rfl

theorem onInstallCompletion_passes (id : EffectId) (through : Nat) :
    Passes c (onInstallCompletion id (.applied through)) := by
  rw [Passes, onInstallCompletion]
  refine .of_same (bind_run_ok (core_run _) _) ?_
  cases installing : c.incomingSnapshotState with
  | none => exact .pure ⟨rfl, rfl⟩
  | some state =>
    refine .of_same (bind_run_ok (update_run _ _) _) ?_
    cases state with
    | _ =>
      dsimp only
      split
      · exact fun _ => rfl
      · exact .of_same (bind_run_ok (update_run _ _) _) (.pure ⟨rfl, by simp [← installing]⟩)

theorem onSnapshotCompletion_passes (id : EffectId) (through : Nat) :
    Passes c (onSnapshotCompletion id (.applied through)) := by
  rw [Passes, onSnapshotCompletion]
  refine .of_same (bind_run_ok (core_run _) _) ?_
  refine .of_same (bind_run_ok (update_run _ _) _) ?_
  cases built : c.localSnapshot with
  | idle => exact .pure ⟨rfl, by simp [← built]⟩
  | _ =>
    dsimp only
    split
    · exact fun _ => rfl
    · exact .of_same (bind_run_ok (update_run _ _) _) (.pure ⟨rfl, by simp [← built]⟩)

/-- After an apply the answers come with a step that returns. -/
theorem onApplied_returns (wf : c.WF) {pending : PendingApply} (found : c.pendingApply = some pending)
    (fits : ApplyCompletes (c.appliedThrough pending.through)) :
    Yields (fun _ s => ¬ ApplyOwed s.core) (Unbound c) (do
      finishApply pending.through
      releaseReadRound
      startPendingReads
      emitApplyIfNeeded
      maybeRequestLocalSnapshot : StepM C Unit)
      ⟨{ c with pendingApply := none, appliedIndex := pending.through }, []⟩ := by
  let t : Ctx C := Ctx.answered ⟨{ c with pendingApply := none, appliedIndex := pending.through }, []⟩
    (fun index => index ≤ pending.through) .applied
  have wf' : t.core.WF :=
    { wf with applied_le := wf.applying pending found, applying := by rintro p ⟨⟩ }
  have moves : ∀ u, ReadsOnly t u → ApplyCompletes u.core := by
    rintro u ⟨counter, round, reads, core⟩
    rw [core]
    exact ⟨fits.applies, fits.builds⟩
  refine Yields.bind (Q := fun _ s => s = t) (.of_run rfl rfl) ?_
  rintro _ _ rfl
  obtain ⟨u, run, only⟩ := releaseReadRound_only t
  refine .of_same (bind_run_ok run _) ?_
  have started : Yields (fun _ v => ReadsOnly t v) (Unbound c) (startPendingReads : StepM C Unit) u :=
    (startPendingReads_yields (only.wf wf')).imp (fun _ _ h => only.trans h.core)
      fun _ _ h => h.unbound
  refine started.bind fun _ v only' => ?_
  obtain ⟨w, ran, idle⟩ := applyCompletes_returns (only'.wf wf') (moves v only')
  exact .of_run ran idle

theorem onApplyCompletion_returns (wf : c.WF) {pending : PendingApply} {id : EffectId}
    {through : Nat} (found : c.pendingApply = some pending)
    (fits : pending = ⟨id, through⟩ → ApplyCompletes (c.appliedThrough through)) :
    Yields (fun _ s => ¬ ApplyOwed s.core) (Unbound c)
      (onApplyCompletion id (.applied through) pending) ⟨c, []⟩ := by
  show Yields _ _ (if pending.id ≠ id then _ else _ : StepM C Unit)
    ⟨{ c with pendingApply := none }, []⟩
  split
  · exact fun _ => rfl
  next mine =>
  have mine : pending.id = id := by simpa using mine
  show Yields _ _ (if through = pending.through then _ else _ : StepM C Unit) _
  split
  · next is =>
    subst is mine
    exact onApplied_returns wf found (fits rfl)
  · exact fun _ => rfl

theorem onEffectCompleted_returns [Sha256] (wf : c.WF) {id : EffectId} {through : Nat}
    (fits : AnswersFit c (.effectCompleted id (.applied through))) :
    Yields (fun _ s => ¬ ApplyOwed s.core) (Unbound c)
      (onEffectCompleted id (.applied through)) ⟨c, []⟩ := by
  rw [onEffectCompleted]
  refine .of_same (bind_run_ok (core_run _) _) ?_
  split
  · exact .raise fun _ => rfl
  refine Yields.bind (onOutgoingSnapshotCompletion_passes id through) ?_
  rintro _ _ ⟨rfl, rfl⟩
  refine Yields.bind (Q := fun b s => b = false ∧ s = ⟨c, []⟩) ?_ ?_
  · refine Yields.bind (onChunkStoreCompletion_passes id through) ?_
    rintro _ _ ⟨rfl, rfl⟩
    exact onInstallCompletion_passes id through
  rintro _ _ ⟨rfl, rfl⟩
  refine Yields.bind (onSnapshotCompletion_passes id through) ?_
  rintro _ _ ⟨rfl, rfl⟩
  refine .of_same (bind_run_ok (core_run _) _) ?_
  cases found : c.pendingApply with
  | some pending =>
    exact onApplyCompletion_returns wf found fun is => fits (found.trans (congrArg some is))
  | none =>
    rw [onPersistCompletion]
    refine .of_same (bind_run_ok (core_run _) _) ?_
    cases slot : c.pendingPersist with
    | none => exact .raise fun _ => rfl
    | some pending =>
      refine .of_same (bind_run_ok (update_run _ _) _) ?_
      dsimp only
      split
      · exact fun _ => rfl
      · exact fun _ => rfl

/-- What the handler of an event does first to the proposals. -/
theorem Act.bindings [Sha256] {s : Ctx C} (act : Act c event s) : s.core.proposals = c.proposals ∨
    (¬ s.Unqueued ∧ ∃ id command encodedLen, event = .propose id command encodedLen) ∨
      ∃ id through, event = .effectCompleted id (.applied through) := by
  cases act with
  | proposed id command encodedLen entry =>
    refine .inr (.inl ⟨fun quiet => ?_, _, _, _, rfl⟩)
    have none_ := quiet _ _ (List.mem_singleton_self _)
    simp at none_
  | message envelope members s known mine act =>
    generalize envelope.message = m at act
    cases act <;> exact .inl rfl
  | completed id outcome s act =>
    cases act with
    | applyDone => exact .inr (.inr ⟨_, _, rfl⟩)
    | _ => exact .inl rfl
  | readStarted readId =>
    obtain ⟨round, hr⟩ := Ctx.roundStarted_core ⟨c, []⟩ readId
    rw [hr]
    exact .inl rfl
  | _ => exact .inl rfl

/-- A step that answers or binds proposals does not fail. -/
theorem failed_unbound [Sha256] (wf : c.WF) (fits : AnswersFit c event) {e : StepError}
    {s : Ctx C} (run : process event ⟨c, []⟩ = (.error (.raise e), s)) : Unbound c e s := by
  by_cases applies : ∃ id through, event = .effectCompleted id (.applied through)
  · obtain ⟨id, through, rfl⟩ := applies
    have handled : Yields (fun _ s => ¬ ApplyOwed s.core) (Unbound c)
        (handle (.effectCompleted id (.applied through))) ⟨c, []⟩ := by
      rw [handle]
      refine .of_same (bind_run_ok (core_run _) _) ?_
      cases c.validateCompletion id (.applied through) with
      | error f => cases f with
        | panic => trivial
        | raise e => exact fun _ => rfl
      | ok u => exact (onEffectCompleted_returns wf fits).bind fun _ s idle => .of_run (update_run _ s) idle
    refine (handled.bind (R := fun _ _ => True) fun _ s idle => ?_).error run
    exact .of_run (emitApply_idle idle) trivial
  intro room
  have ran := process_ran wf event
  rw [run] at ran
  cases ran with
  | halted e c' stops halted =>
    obtain ⟨-, reads, store, incoming, building, applying, persist, rfl⟩ := halted
    rfl
  | followed r s returns path _ quiet =>
    have quiet := quiet.resolve_left (by simp)
    obtain ⟨s₀, s, act, rest⟩ := path
    rw [(FollowUps.frame rest).proposals]
    rcases act.bindings with same | ⟨queued, -⟩ | applied
    · exact same
    · exact absurd (fun id batch h => quiet id batch (rest.effects_subset h)) queued
    · exact absurd applied applies
  | stuck e s stuck =>
    cases stuck with
    | queued d batch continuation full act =>
      rcases act.bindings with same | ⟨-, id, command, encodedLen, rfl⟩ | applied
      · exact same
      · exact absurd fits full
      · exact absurd applied applies
    | dropped => rfl

/-! ## Runs -/

/-- How often a run was asked for a proposal. -/
def asked (proposalId : ProposalId) (history : List (Record C)) : Nat :=
  (history.map fun r => r.event.makes proposalId).sum

/-- How often a proposal was taken by a step that returned. -/
def Record.takes (proposalId : ProposalId) (r : Record C) : Nat :=
  r.result.toOption.elim 0 fun _ => r.event.makes proposalId

/-- How often a run took a proposal. -/
def taken (proposalId : ProposalId) (history : List (Record C)) : Nat :=
  (history.map (Record.takes proposalId)).sum

/-- How often a run answered a proposal. -/
def answered (proposalId : ProposalId) (history : List (Record C)) : Nat :=
  (history.map fun r => resolved proposalId r.effects).sum

/-- What a step that returns takes is answered or bound. -/
theorem step_accounts [Sha256] (wf : c.WF) (running : c.stopped = false) {output : StepOutput C}
    {d : RaftCore C} (run : step c event = (.ok output, d)) :
    d.bound proposalId + resolved proposalId output.effects =
      c.bound proposalId + event.makes proposalId := by
  have cases_ := step_cases wf running event
  rw [run] at cases_
  rw [step_eq running] at run
  obtain ⟨s, processed, effects, rfl, -⟩ := conclude_eq_ok run
  rw [effects]
  refine (s.finished_accounted c).trans ?_
  by_cases proposes : ∃ id command encodedLen, event = .propose id command encodedLen
  · obtain ⟨id, command, encodedLen, rfl⟩ := proposes
    exact process_propose processed
  have none_ : event.makes proposalId = 0 := by
    cases event with
    | propose id command encodedLen => exact absurd ⟨_, _, _, rfl⟩ proposes
    | _ => rfl
  have ran := process_ran wf event
  rw [processed] at ran
  have path : Path c event s := by
    cases ran with
    | followed r s returns path => exact path
    | overflowed s path => exact path
  rw [none_]
  rcases path.accounts with same | same
  · exact same
  · rw [same, none_]

/-- A step that fails and does not stop the core keeps the proposals. -/
theorem failed_proposals [Sha256] (wf : c.WF) (running : c.stopped = false)
    {d : RaftCore C} (fits : AnswersFit c event) (contexts : d.nextReadContext < u64Max)
    {e : StepError} (run : step c event = (.error (.raise e), d)) (goesOn : d.stopped = false) :
    d.proposals = c.proposals := by
  rw [step_eq running] at run
  cases processed : process event ⟨c, []⟩ with
  | mk r s =>
    rw [processed] at run
    cases r with
    | error f => cases f with
      | panic => exact absurd (congrArg Prod.fst run) (by simp [conclude, Outcome.panic])
      | raise e =>
        rcases s.core.fatalize_cases e with ⟨-, reason, stops⟩ | ⟨-, same⟩
        · simp only [conclude, stops, Prod.mk.injEq] at run
          obtain ⟨-, rfl⟩ := run
          simp [RaftCore.stop] at goesOn
        · simp only [conclude, same, Prod.mk.injEq] at run
          obtain ⟨-, rfl⟩ := run
          exact failed_unbound wf fits processed contexts
    | ok u =>
      rw [conclude] at run
      split at run
      · exact absurd (congrArg Prod.fst run) (by simp [Outcome.panic])
      · obtain ⟨-, rfl⟩ := Prod.mk.inj run
        simp [RaftCore.stop] at goesOn
      · exact absurd (congrArg Prod.fst run) (by simp)

/-- What waits or was answered after a path was made or waited before. -/
theorem Path.bound_le [Sha256] {s : Ctx C} (path : Path c event s) :
    s.core.bound proposalId ≤ c.bound proposalId + event.makes proposalId := by
  have total : s.core.bound proposalId ≤ s.accounted proposalId := Nat.le_add_right _ _
  have accounts : s.accounted proposalId = c.bound proposalId ∨
      s.accounted proposalId = c.bound proposalId + event.makes proposalId := path.accounts
  rcases accounts with same | same <;> omega

/-- A step answers no more than waited or was made, also when it fails. -/
theorem step_bound [Sha256] (wf : c.WF) (running : c.stopped = false)
    {result : Outcome StepError (StepOutput C)} {d : RaftCore C} (run : step c event = (result, d))
    (returns : result ≠ Outcome.panic) :
    d.bound proposalId + resolved proposalId (Record.mk c event result d).effects ≤
      c.bound proposalId + event.makes proposalId := by
  have cases_ := step_cases wf running event
  rw [run] at cases_
  cases cases_ with
  | panicked => exact absurd rfl returns
  | halted e c' reason halted =>
    obtain ⟨-, reads, store, incoming, building, applying, persist, rfl⟩ := halted
    exact Nat.le_add_right _ _
  | returned s changed => exact (step_accounts wf running run).le
  | failed s e path => exact path.bound_le
  | crashed s e reason path => exact path.bound_le
  | invalid s e reason path =>
    have bound : s.core.bound proposalId ≤ c.bound proposalId + event.makes proposalId :=
      path.bound_le
    have kept : (s.finished c).core.bound proposalId ≤ s.core.bound proposalId := by
      have total : (s.finished c).accounted proposalId = s.accounted proposalId :=
        s.finished_accounted c
      obtain ⟨new, more, -⟩ := s.finished_effects c
      rw [Ctx.accounted, Ctx.accounted, more, resolved_append] at total
      omega
    exact kept.trans bound
  | stuck e s stuck =>
    cases stuck with
    | queued d batch continuation full act =>
      let t : Ctx C := Ctx.queued ⟨d, []⟩ batch continuation
      have accounts : t.accounted proposalId = c.bound proposalId ∨
          t.accounted proposalId = c.bound proposalId + event.makes proposalId := act.accounts
      have total : d.bound proposalId ≤ t.accounted proposalId := Nat.le_add_right _ _
      show d.bound proposalId ≤ _
      rcases accounts with same | same <;> omega
    | dropped => exact Nat.le_add_right _ _

/-- A run never answers a proposal more often than it was made. -/
theorem proposals_answered_once [Sha256] (config : Config) (recovered : RecoveredState C)
    {history : List (Record C)} {c : RaftCore C}
    (run : Trace (RaftCore.new config recovered) history c) (proposalId : ProposalId) :
    answered proposalId history + c.bound proposalId ≤ asked proposalId history := by
  induction run with
  | start => exact le_rfl
  | @step history c d event result earlier allowed run returns ih =>
    rw [answered, asked, List.map_cons, List.sum_cons, List.map_cons, List.sum_cons, ← answered,
      ← asked]
    have stepped : d.bound proposalId + resolved proposalId (Record.mk c event result d).effects ≤
        c.bound proposalId + event.makes proposalId := by
      by_cases stopped : c.stopped = true
      · obtain ⟨rfl, silent⟩ := step_stopped stopped run
        rw [silent]
        exact Nat.le_add_right _ _
      · exact step_bound (earlier.wf.resolve_left stopped) (by simpa using stopped) run returns
    show resolved proposalId (Record.mk c event result d).effects + answered proposalId history +
      d.bound proposalId ≤ event.makes proposalId + asked proposalId history
    omega

/-- A core that runs after a step ran before it. -/
theorem step_running [Sha256] {d : RaftCore C} {result : Outcome StepError (StepOutput C)}
    (run : step c event = (result, d)) (running : d.stopped = false) : c.stopped = false := by
  by_contra stopped
  obtain ⟨rfl, -⟩ := step_stopped (by simpa using stopped) run
  exact stopped running

/-- As long as every step that answers or binds proposals meets `AnswersFit`, a core that runs has
answered what it took and no longer waits for. -/
theorem proposals_conserved [Sha256] (config : Config) (recovered : RecoveredState C)
    {history : List (Record C)} {c : RaftCore C}
    (run : Trace (RaftCore.new config recovered) history c) (running : c.stopped = false)
    (fits : ∀ r ∈ history, AnswersFit r.before r.event)
    (contexts : ∀ r ∈ history, r.after.nextReadContext < u64Max) (proposalId : ProposalId) :
    answered proposalId history + c.bound proposalId = taken proposalId history := by
  induction run with
  | start => rfl
  | @step history c d event result earlier allowed run returns ih =>
    rw [List.forall_mem_cons] at fits contexts
    rw [answered, taken, List.map_cons, List.sum_cons, List.map_cons, List.sum_cons, ← answered,
      ← taken]
    have goesOn := step_running run running
    have before := ih goesOn fits.2 contexts.2
    have wf := earlier.wf.resolve_left (by simp [goesOn])
    have stepped : d.bound proposalId + resolved proposalId (Record.mk c event result d).effects =
        c.bound proposalId + (Record.mk c event result d).takes proposalId := by
      cases result with
      | ok output => exact step_accounts wf goesOn run
      | error f =>
        cases f with
        | panic => exact absurd rfl returns
        | raise e =>
          have same : d.proposals = c.proposals := failed_proposals wf goesOn fits.1 contexts.1 run running
          rw [RaftCore.bound, same]
          rfl
    omega

/-- Node 1 answers the proposal that it was asked for. -/
theorem proposals_answered_once_applied : ∃ w : World Nat,
    @Run Nat sha256Empty trio w.history (w.core trio) ∧
    answered 1 (localHistory w.history 1) = 1 ∧ asked 1 (localHistory w.history 1) = 1 ∧
    (w.core trio 1).bound 1 = 0 := by
  let _ : Sha256 := sha256Empty
  obtain ⟨w, run, checked⟩ := World.exec_any trio Script.commitTwo
    (fun w => decide (answered 1 (localHistory w.history 1) = 1) &&
      decide (asked 1 (localHistory w.history 1) = 1)) (by decide +kernel)
  simp only [Bool.and_eq_true, decide_eq_true_eq] at checked
  have once := proposals_answered_once (trioConfigs 1) .initial (run.trace 1) 1
  exact ⟨w, run, checked.1, checked.2, by omega⟩

/-- `AnswersFit` as a check, for a core with ids left. -/
def answersFitCheck (c : RaftCore C) : Event C → Bool
  | .propose .. => decide (Room c)
  | .effectCompleted _ (.applied through) => decide (c.log.snapshotIndex ≤ through) &&
      decide (c.hardState.commitIndex ≤ c.log.lastIndex) && decide (c.nextEffectSequence + 1 < u64Max)
  | _ => true

theorem answersFit_of_check (h : answersFitCheck c event = true) : AnswersFit c event := by
  cases event with
  | propose id command encodedLen =>
    have room : Room c := of_decide_eq_true h
    exact room
  | effectCompleted id outcome =>
    cases outcome with
    | applied through =>
      simp only [answersFitCheck, Bool.and_eq_true, decide_eq_true_eq] at h
      obtain ⟨⟨held, known⟩, room⟩ := h
      intro _
      exact ⟨fun _ => ⟨held, known, by exact Nat.lt_of_succ_lt room⟩,
        fun _ _ _ => ⟨Nat.lt_of_succ_lt room, fun _ => room⟩⟩
    | _ => trivial
  | _ => trivial

/-- Node 1 took one proposal and answered it. -/
theorem proposals_conserved_applied : ∃ w : World Nat,
    @Run Nat sha256Empty trio w.history (w.core trio) ∧ taken 1 (localHistory w.history 1) = 1 ∧
    answered 1 (localHistory w.history 1) + (w.core trio 1).bound 1 = 1 := by
  let _ : Sha256 := sha256Empty
  obtain ⟨w, run, checked⟩ := World.exec_any trio Script.commitTwo
    (fun w => decide (taken 1 (localHistory w.history 1) = 1) && !(w.core trio 1).stopped &&
      (localHistory w.history 1).all fun r =>
        decide (r.after.nextReadContext < u64Max) && answersFitCheck r.before r.event)
    (by decide +kernel)
  simp only [Bool.and_eq_true, decide_eq_true_eq, Bool.not_eq_true', List.all_eq_true] at checked
  obtain ⟨⟨took, running⟩, steps⟩ := checked
  refine ⟨w, run, took, ?_⟩
  exact (proposals_conserved (trioConfigs 1) .initial (run.trace 1) running
    (fun r hr => answersFit_of_check (steps r hr).2) (fun r hr => (steps r hr).1) 1).trans took

end Ruft
