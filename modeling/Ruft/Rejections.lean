import Ruft.Exec
import Ruft.Plain

set_option autoImplicit false

/-!
# Rejected input

A completion handler takes the content of its slot out before it looks at the outcome and
puts it back on every rejecting branch. Whatever the event, a step that rejects its input
leaves the whole core as it was.

## Main definitions

- `Orderly` — how a completion handler may end
-/

namespace Ruft

open Program StepM

variable {C : Type} {α : Type} {c : RaftCore C} {id : EffectId} {outcome : EffectOutcome}

/-- How the run of a completion handler on a core may end: it passes the report on and changes
nothing, or the bookkeeping is as it was, or the input is rejected and the whole core is as it
was, or the core is stopped. -/
inductive Orderly (c : RaftCore C) (passes : α → Prop) : Outcome StepError α × Ctx C → Prop
  | passed (a : α) (h : passes a) : Orderly c passes (.ok a, ⟨c, []⟩)
  | kept (r : Outcome StepError α) (s : Ctx C)
      (ends : r.Satisfies (fun a => ¬ passes a) StepError.Plain)
      (same : s.core.bookkeeping = c.bookkeeping) : Orderly c passes (r, s)
  | rejected (e : InputError) (s : Ctx C) (same : s.core = c) :
      Orderly c passes (Outcome.raise (.input e), s)
  | halted (e : StepError) (s : Ctx C) (stops : e.stops = true)
      (same : s.core.bookkeeping = { c.bookkeeping with stopped := true }) :
      Orderly c passes (Outcome.raise e, s)

theorem orderly_of_leaves {passes : α → Prop} {m : StepM C α} {s : Ctx C}
    (h : Leaves (fun s : Ctx C => s.core.bookkeeping) (fun a => ¬ passes a) StepError.Plain m)
    (same : s.core.bookkeeping = c.bookkeeping) : Orderly c passes (m s) :=
  .kept (m s).1 (m s).2 (h s).2 ((h s).1.trans same)

theorem Plain.orderly {m : StepM C α} {s : Ctx C} (h : Plain m)
    (same : s.core.bookkeeping = c.bookkeeping) : Orderly c (fun _ => False) (m s) := by
  refine orderly_of_leaves (fun s => ⟨(h s).1, ?_⟩) same
  have := (h s).2
  cases hr : (m s).1 with
  | ok a => exact not_false
  | error e => rw [hr] at this; cases e <;> exact this

/-- A handler that puts its slot back and passes the report on. -/
theorem Orderly.handOn {passes : α → Prop} {a : α} {d : RaftCore C} (same : d = c) (h : passes a) :
    Orderly c passes (.ok a, ⟨d, []⟩) := by
  subst same
  exact .passed a h

/-! ## The completion handlers -/

theorem onOutgoingSnapshotCompletion_orderly :
    Orderly c (· = false) (onOutgoingSnapshotCompletion id outcome ⟨c, []⟩) := by
  rw [onOutgoingSnapshotCompletion, bind_run_ok (core_run _)]
  cases hp : c.pendingSnapshotReads.get id with
  | none => exact .passed _ rfl
  | some to_ =>
    have rejected : Orderly c (· = false) (Outcome.raise (.input .invalidEffectOutcome),
        ⟨{ c with pendingSnapshotReads :=
          (c.pendingSnapshotReads.remove id).insert id to_ }, []⟩) :=
      .rejected _ _ (by rw [BTreeMap.insert_remove hp])
    show Orderly _ _ ((Program.expect (c.snapshotSenders.get to_) >>= _) _)
    cases hs : c.snapshotSenders.get to_ with
    | none => exact .kept _ _ trivial rfl
    | some sender =>
      cases outcome with
      | snapshotChunkRead snapshotId offset bytes done =>
        show Orderly _ _ ((if snapshotId = sender.snapshot.metadata.id ∧ offset = sender.offset
          then _ else _ : StepM C Bool) _)
        split
        · split
          · exact rejected
          cases sender.advance bytes.length with
          | none => exact rejected
          | some advanced =>
            refine orderly_of_leaves (plain_set (fun _ => rfl) fun _ => (plain_emit _).seq fun _ =>
              .ite ?_ ?_) rfl
            · exact (plain_readSnapshotChunk _).seq fun _ => .pure (by simp)
            · exact .pure (by simp)
        · exact rejected
      | failed => exact .halted _ _ rfl rfl
      | _ => exact rejected

theorem onChunkStoreCompletion_orderly [Sha256] :
    Orderly c (· ≠ some true) (onChunkStoreCompletion id outcome ⟨c, []⟩) := by
  rw [onChunkStoreCompletion, bind_run_ok (core_run _)]
  cases hp : c.pendingChunkStore with
  | none => exact .passed _ (by simp)
  | some pending =>
    have putBack : ({ c with pendingChunkStore := some pending } : RaftCore C) = c := by rw [← hp]
    show Orderly _ _ ((if pending.id ≠ id then _ else _ : StepM C _) _)
    split
    · exact .handOn putBack (by simp)
    cases outcome with
    | snapshotChunkStored snapshotId nextOffset snapshotRef =>
      show Orderly _ _ ((Program.expect c.incomingSnapshot >>= _) _)
      cases hr : c.incomingSnapshot with
      | none => exact .kept _ _ trivial rfl
      | some receiver =>
        show Orderly _ _ ((if snapshotId ≠ receiver.metadata.id ∨
          nextOffset ≠ receiver.nextOffset then _ else _ : StepM C _) _)
        split
        · exact .rejected _ _ putBack
        split
        · split
          · exact .kept _ _ trivial rfl
          cases snapshotRef with
          | none => exact .kept _ _ trivial rfl
          | some snapshotRef =>
            refine orderly_of_leaves (plain_nextEffectId.seq fun persistId => ?_) rfl
            exact plain_set (fun _ => rfl) fun _ => (plain_emit _).seq fun _ => .pure (by simp)
        · exact .kept _ _ (by simp [Outcome.Satisfies]) rfl
    | failed => exact .halted _ _ rfl rfl
    | _ => exact .rejected _ _ putBack

theorem onInstallCompletion_orderly :
    Orderly c (· = false) (onInstallCompletion id outcome ⟨c, []⟩) := by
  rw [onInstallCompletion, bind_run_ok (core_run _)]
  cases hs : c.incomingSnapshotState with
  | none => exact .passed _ rfl
  | some state =>
    have putBack : ({ c with incomingSnapshotState := some state } : RaftCore C) = c := by
      rw [← hs]
    cases state with
    | persisting expected record from_ term =>
      show Orderly _ _ ((if expected = id then _ else _ : StepM C Bool) _)
      split
      · cases outcome with
        | persisted =>
          refine orderly_of_leaves (plain_nextEffectId.seq fun installId => ?_) rfl
          exact plain_set (fun _ => rfl) fun _ => (plain_emit _).seq fun _ => .pure (by simp)
        | failed => exact .halted _ _ rfl rfl
        | _ => exact .rejected _ _ putBack
      · exact .handOn putBack rfl
    | installing expected record from_ term =>
      show Orderly _ _ ((if expected = id then _ else _ : StepM C Bool) _)
      split
      · cases outcome with
        | snapshotInstalled snapshotId =>
          show Orderly _ _ ((if snapshotId = record.metadata.id then _ else _ : StepM C Bool) _)
          split
          · refine orderly_of_leaves ((plain_liftLog _).seq fun log => ?_) rfl
            exact plain_set (fun _ => rfl) fun _ => (plain_liftLog _).seq fun _ =>
              plain_set (fun _ => rfl) fun _ => plain_core.seq fun _ => (plain_emit _).seq fun _ =>
                .pure (by simp)
          · exact .rejected _ _ putBack
        | failed => exact .halted _ _ rfl rfl
        | _ => exact .rejected _ _ putBack
      · exact .handOn putBack rfl

theorem validateLocalSnapshot_plain (metadata : SnapshotMetadata) (snapshotRef : SnapshotRef)
    (through : Nat) : (validateLocalSnapshot c metadata snapshotRef through).Satisfies
      (fun _ => True) StepError.Plain := by
  unfold validateLocalSnapshot
  split
  · trivial
  · cases c.log.term through with
    | error e => cases e <;> trivial
    | ok t =>
      dsimp only
      split <;> trivial

theorem onSnapshotCompletion_orderly :
    Orderly c (· = false) (onSnapshotCompletion id outcome ⟨c, []⟩) := by
  have putBack : ∀ state, c.localSnapshot = state →
      ({ c with localSnapshot := state } : RaftCore C) = c := by
    rintro state rfl
    rfl
  rw [onSnapshotCompletion, bind_run_ok (core_run _)]
  cases hs : c.localSnapshot with
  | idle => exact .handOn (putBack _ hs) rfl
  | building expected through =>
    show Orderly _ _ ((if expected = id then _ else _ : StepM C Bool) _)
    split
    · cases outcome with
      | snapshotBuilt metadata snapshotRef =>
        have valid := validateLocalSnapshot_plain (c := c) metadata snapshotRef through
        dsimp only
        cases hv : validateLocalSnapshot c metadata snapshotRef through with
        | error e =>
          rw [hv] at valid
          cases e with
          | raise e => exact .kept _ _ valid rfl
          | panic => exact .kept _ _ trivial rfl
        | ok record =>
          refine orderly_of_leaves (plain_nextEffectId.seq fun persistId => ?_) rfl
          exact plain_set (fun _ => rfl) fun _ => (plain_emit _).seq fun _ => .pure (by simp)
      | failed => exact .halted _ _ rfl rfl
      | _ => exact .rejected _ _ (putBack _ hs)
    · exact .handOn (putBack _ hs) rfl
  | persisting expected record =>
    show Orderly _ _ ((if expected = id then _ else _ : StepM C Bool) _)
    split
    · cases outcome with
      | persisted =>
        refine orderly_of_leaves (plain_nextEffectId.seq fun compactId => ?_) rfl
        exact plain_set (fun _ => rfl) fun _ => (plain_emit _).seq fun _ => .pure (by simp)
      | failed => exact .halted _ _ rfl rfl
      | _ => exact .rejected _ _ (putBack _ hs)
    · exact .handOn (putBack _ hs) rfl
  | compacting expected record =>
    show Orderly _ _ ((if expected = id then _ else _ : StepM C Bool) _)
    split
    · cases outcome with
      | compacted through =>
        show Orderly _ _ ((if through = record.metadata.index then _ else _ : StepM C Bool) _)
        split
        · refine orderly_of_leaves ((plain_liftLog _).seq fun log => ?_) rfl
          exact plain_set (fun _ => rfl) fun _ => .pure (by simp)
        · exact .rejected _ _ (putBack _ hs)
      | failed => exact .halted _ _ rfl rfl
      | _ => exact .rejected _ _ (putBack _ hs)
    · exact .handOn (putBack _ hs) rfl

theorem onApplyCompletion_orderly {pending : PendingApply}
    (found : c.pendingApply = some pending) :
    Orderly c (fun _ => False) (onApplyCompletion id outcome pending ⟨c, []⟩) := by
  have putBack : ({ c with pendingApply := some pending } : RaftCore C) = c := by rw [← found]
  show Orderly _ _ ((if pending.id ≠ id then _ else _ : StepM C Unit) _)
  split
  · exact .rejected _ _ putBack
  cases outcome with
  | applied through =>
    show Orderly _ _ ((if through = pending.through then _ else _ : StepM C Unit) _)
    split
    · refine Plain.orderly (plain_set (fun _ => rfl) fun _ => ?_) rfl
      exact (plain_answerProposals _ _).seq fun _ => plain_releaseReadRound.seq fun _ =>
        plain_startPendingReads.seq fun _ => plain_emitApplyIfNeeded.seq fun _ =>
          plain_maybeRequestLocalSnapshot
    · exact .rejected _ _ putBack
  | failed => exact .halted _ _ rfl rfl
  | _ => exact .rejected _ _ putBack

theorem onPersistCompletion_orderly :
    Orderly c (fun _ => False) (onPersistCompletion id outcome ⟨c, []⟩) := by
  rw [onPersistCompletion, bind_run_ok (core_run _)]
  cases found : c.pendingPersist with
  | none => exact .rejected _ _ rfl
  | some pending =>
    have putBack : ({ c with pendingPersist := some pending } : RaftCore C) = c := by rw [← found]
    show Orderly _ _ ((if pending.id ≠ id then _ else _ : StepM C Unit) _)
    split
    · exact .rejected _ _ putBack
    cases outcome with
    | persisted =>
      dsimp only
      cases pending.stableThrough with
      | none => exact (plain_continueWith pending.continuation).orderly rfl
      | some index =>
        exact Plain.orderly ((plain_liftLog _).seq fun _ => plain_set (fun _ => rfl) fun _ =>
          plain_continueWith pending.continuation) rfl
    | failed => exact .halted _ _ rfl rfl
    | _ => exact .rejected _ _ putBack

/-- One stage of the dispatcher. -/
theorem Orderly.orElse {m : StepM C Bool} {k : StepM C Unit}
    (hm : Orderly c (· = false) (m ⟨c, []⟩)) (hk : Orderly c (fun _ => False) (k ⟨c, []⟩)) :
    Orderly c (fun _ => False) ((do if ← m then pure () else k : StepM C Unit) ⟨c, []⟩) := by
  revert hm
  generalize hrun : m ⟨c, []⟩ = run
  intro hm
  cases hm with
  | passed a h =>
    subst h
    rw [bind_run_ok hrun]
    exact hk
  | kept r s ends same =>
    cases r with
    | ok a =>
      obtain rfl : a = true := by simpa [Outcome.Satisfies] using ends
      rw [bind_run_ok hrun]
      exact .kept _ _ not_false same
    | error e =>
      rw [bind_run_error hrun]
      exact .kept _ _ (by cases e <;> exact ends) same
  | rejected e s same => rw [bind_run_error hrun]; exact .rejected e s same
  | halted e s stops same => rw [bind_run_error hrun]; exact .halted e s stops same

theorem onIncomingSnapshotCompletion_orderly [Sha256] :
    Orderly c (· = false) (onIncomingSnapshotCompletion id outcome ⟨c, []⟩) := by
  have stored := @onChunkStoreCompletion_orderly C c id outcome _
  revert stored
  generalize hrun : onChunkStoreCompletion id outcome ⟨c, []⟩ = run
  intro stored
  cases stored with
  | passed a h =>
    rw [onIncomingSnapshotCompletion, bind_run_ok hrun]
    cases a with
    | none => exact onInstallCompletion_orderly
    | some consumed => exact .passed consumed (by simpa using h)
  | kept r s ends same =>
    cases r with
    | ok a =>
      obtain rfl : a = some true := by simpa [Outcome.Satisfies] using ends
      rw [onIncomingSnapshotCompletion, bind_run_ok hrun]
      exact .kept _ _ (by simp [Outcome.Satisfies]) same
    | error e =>
      rw [onIncomingSnapshotCompletion, bind_run_error hrun]
      exact .kept _ _ (by cases e <;> exact ends) same
  | rejected e s same =>
    rw [onIncomingSnapshotCompletion, bind_run_error hrun]
    exact .rejected e s same
  | halted e s stops same =>
    rw [onIncomingSnapshotCompletion, bind_run_error hrun]
    exact .halted e s stops same

theorem onEffectCompleted_orderly [Sha256] :
    Orderly c (fun _ => False) (onEffectCompleted id outcome ⟨c, []⟩) := by
  show Orderly _ _ ((if id.generation ≠ c.config.generation then _ else _ : StepM C Unit) _)
  split
  · exact .rejected _ _ rfl
  refine onOutgoingSnapshotCompletion_orderly.orElse ?_
  refine onIncomingSnapshotCompletion_orderly.orElse ?_
  refine onSnapshotCompletion_orderly.orElse ?_
  rw [bind_run_ok (core_run _)]
  cases found : c.pendingApply with
  | some pending => exact onApplyCompletion_orderly found
  | none => exact onPersistCompletion_orderly

/-! ## The step -/

/-- An envelope is rejected before anything is written. -/
theorem validateEnvelope_input {envelope : Envelope C} {f : Fault StepError}
    (h : validateEnvelope c envelope = .error f) : ∃ e, f = .raise (.input e) := by
  unfold validateEnvelope at h
  split at h
  · exact ⟨_, by simpa [Outcome.raise] using h.symm⟩
  split at h
  · exact ⟨_, by simpa [Outcome.raise] using h.symm⟩
  split at h
  · exact ⟨_, by simpa [Outcome.raise] using h.symm⟩
  · simp at h

theorem validateCompletion_input {f : Fault StepError}
    (h : c.validateCompletion id outcome = .error f) : ∃ e, f = .raise (.input e) := by
  unfold RaftCore.validateCompletion at h
  split at h
  · exact ⟨_, by simpa [Outcome.raise] using h.symm⟩
  split at h
  · split at h <;> exact ⟨_, by simpa [Outcome.raise] using h.symm⟩
  · split at h
    · exact ⟨_, by simpa [Outcome.raise] using h.symm⟩
    · simp at h

/-- What is left of the handler of a report that passes the check of completed effects. -/
theorem handle_completed [Sha256] (valid : c.validateCompletion id outcome = .ok ()) :
    handle (.effectCompleted id outcome) ⟨c, []⟩ = (onEffectCompleted id outcome >>=
      fun _ => update fun c => c.recordCompletion id outcome : StepM C Unit) ⟨c, []⟩ := by
  show (liftPure (c.validateCompletion id outcome) >>= _) _ = _
  rw [valid]
  rfl

/-- How the handler of an event ends, the record of a completed effect left out. -/
theorem handle_cases [Sha256] (c : RaftCore C) (event : Event C) :
    Orderly c (fun _ => False) (handle event ⟨c, []⟩) ∨
    (∃ id outcome s, event = .effectCompleted id outcome ∧
      c.validateCompletion id outcome = .ok () ∧ onEffectCompleted id outcome ⟨c, []⟩ = (.ok (), s) ∧
      s.core.bookkeeping = c.bookkeeping ∧
      handle event ⟨c, []⟩ = (.ok (), ⟨s.core.recordCompletion id outcome, s.effects⟩)) ∨
    event = .shutdown := by
  cases event with
  | tick kind =>
    cases kind with
    | election => exact .inl (plain_startPreVote.orderly rfl)
    | heartbeat => exact .inl (plain_onHeartbeatTick.orderly rfl)
  | messageReceived envelope =>
    left
    show Orderly _ _ ((liftPure (validateEnvelope c envelope) >>= _) _)
    cases hv : validateEnvelope c envelope with
    | error f =>
      obtain ⟨e, rfl⟩ := validateEnvelope_input hv
      exact .rejected e _ rfl
    | ok u =>
      refine Plain.orderly (.ite ?_ ?_) rfl
      · exact plain_set (fun _ => rfl) fun _ => plain_onMessage _ _
      · exact plain_onMessage _ _
  | propose proposalId command encodedLen => exact .inl ((plain_onPropose _ _ _).orderly rfl)
  | read readId context => exact .inl ((plain_onRead _).orderly rfl)
  | snapshotRequested => exact .inl (plain_requestLocalSnapshot.orderly rfl)
  | effectCompleted id outcome =>
    cases hv : c.validateCompletion id outcome with
    | error f =>
      left
      obtain ⟨e, rfl⟩ := validateCompletion_input hv
      show Orderly _ _ ((liftPure (c.validateCompletion id outcome) >>= _) _)
      rw [hv]
      exact .rejected e _ rfl
    | ok u =>
      have orderly := @onEffectCompleted_orderly C c id outcome _
      revert orderly
      rw [handle_completed hv]
      generalize hr : onEffectCompleted id outcome ⟨c, []⟩ = run
      intro orderly
      cases orderly with
      | passed a h => exact absurd h not_false
      | kept r s ends same =>
        cases r with
        | ok a =>
          rw [bind_run_ok hr]
          exact .inr (.inl ⟨id, outcome, s, rfl, hv, hr, same, rfl⟩)
        | error e =>
          rw [bind_run_error hr]
          exact .inl (.kept _ _ ends same)
      | rejected e s same => rw [bind_run_error hr]; exact .inl (.rejected e s same)
      | halted e s stops same => rw [bind_run_error hr]; exact .inl (.halted e s stops same)
  | shutdown => exact .inr (.inr rfl)

theorem RaftCore.fatalize_input {d : RaftCore C} {e : StepError} {i : InputError}
    (h : (d.fatalize e).1 = .input i) : e = .input i ∧ (d.fatalize e).2 = d := by
  cases e <;> simp_all [RaftCore.fatalize, RaftCore.fatal]

/-- `step` hands the rejection of an input on. -/
theorem conclude_input {e : InputError} {run : Outcome StepError Unit × Ctx C}
    (h : (conclude c run).1 = Outcome.raise (.input e)) :
    run.1 = Outcome.raise (.input e) ∧ (conclude c run).2 = run.2.core := by
  obtain ⟨r, s⟩ := run
  cases r with
  | error f =>
    cases f with
    | panic => simp [conclude, Outcome.panic, Outcome.raise] at h
    | raise i =>
      simp only [conclude, Outcome.raise, Except.error.injEq, Fault.raise.injEq] at h ⊢
      obtain ⟨rfl, same⟩ := RaftCore.fatalize_input h
      exact ⟨rfl, same⟩
  | ok u =>
    simp only [conclude] at h
    split at h <;> simp [Outcome.panic, Outcome.raise] at h

/-- The handlers raise no fatal error. -/
theorem process_raises [Sha256] {event : Event C} {e : StepError}
    (h : (process event ⟨c, []⟩).1 = Outcome.raise e) :
    e.Plain ∨ (∃ i, e = .input i) ∨ e.stops = true := by
  -- What follows the handler raises plain errors.
  have follow : ∀ s, handle event ⟨c, []⟩ = (.ok (), s) → e.Plain := by
    intro s hrun
    rw [process, bind_run_ok hrun] at h
    have plain := (@plain_emitApplyIfNeeded C s).2
    rw [h] at plain
    exact plain
  rcases handle_cases c event with orderly | ⟨id, outcome, s, -, -, -, -, hrun⟩ | rfl
  · revert orderly
    generalize hrun : handle event ⟨c, []⟩ = run
    intro orderly
    cases orderly with
    | passed a h => exact absurd h not_false
    | kept r s ends same =>
      cases r with
      | ok a => exact .inl (follow s hrun)
      | error f =>
        rw [process, bind_run_error hrun] at h
        obtain rfl : f = .raise e := by simpa [Outcome.raise] using h
        exact .inl ends
    | rejected i s same =>
      rw [process, bind_run_error hrun] at h
      exact .inr (.inl ⟨i, by simpa [Outcome.raise] using h.symm⟩)
    | halted i s stops same =>
      rw [process, bind_run_error hrun] at h
      obtain rfl : i = e := by simpa [Outcome.raise] using h
      exact .inr (.inr stops)
  · exact .inl (follow _ hrun)
  · exact .inl (follow _ rfl)

/-- A step fails its check only after the handler returned. -/
theorem step_invalid [Sha256] {event : Event C} {violation : InvariantViolation}
    (running : c.stopped = false)
    (h : (step c event).1 = Outcome.raise (.fatal (.invariant violation))) :
    ∃ s, process event ⟨c, []⟩ = (.ok (), s) ∧
      (s.finished c).core.validateInvariants = Outcome.raise violation := by
  rw [step_eq running] at h
  have raises := @process_raises C c _ event
  revert h raises
  generalize process event ⟨c, []⟩ = run
  intro h raises
  obtain ⟨r, s⟩ := run
  cases r with
  | error f =>
    cases f with
    | panic => simp [conclude, Outcome.panic, Outcome.raise] at h
    | raise e =>
      -- Of the errors that stop the core none is a violation.
      have known := raises rfl
      cases e <;> simp_all [conclude, RaftCore.fatalize, RaftCore.fatal, Outcome.raise,
        StepError.Plain, StepError.stops]
  | ok u =>
    refine ⟨s, rfl, ?_⟩
    simp only [conclude] at h
    split at h
    · simp [Outcome.panic, Outcome.raise] at h
    · next v hv =>
      simp only [Outcome.raise, Except.error.injEq, Fault.raise.injEq, StepError.fatal.injEq,
        FatalError.invariant.injEq] at h
      rw [hv, h]
    · simp [Outcome.raise] at h

theorem process_input [Sha256] {event : Event C} {e : InputError}
    (h : (process event ⟨c, []⟩).1 = Outcome.raise (.input e)) :
    (process event ⟨c, []⟩).2.core = c := by
  -- What follows the handler rejects nothing.
  have silent : ∀ s : Ctx C, handle event ⟨c, []⟩ ≠ (.ok (), s) := by
    intro s hrun
    rw [process, bind_run_ok hrun] at h
    have plain := (@plain_emitApplyIfNeeded C s).2
    rw [h] at plain
    exact plain
  rcases handle_cases c event with orderly | ⟨id, outcome, s, -, -, -, -, hrun⟩ | rfl
  · revert orderly
    generalize hrun : handle event ⟨c, []⟩ = run
    intro orderly
    cases orderly with
    | passed a h => exact absurd h not_false
    | kept r s ends same =>
      cases r with
      | ok a => exact absurd hrun (silent s)
      | error f =>
        rw [process, bind_run_error hrun] at h
        obtain rfl : f = .raise (.input e) := by simpa [Outcome.raise] using h
        exact absurd ends not_false
    | rejected i s same =>
      rw [process, bind_run_error hrun]
      exact same
    | halted i s stops same =>
      rw [process, bind_run_error hrun] at h
      obtain rfl : i = .input e := by simpa [Outcome.raise] using h
      simp [StepError.stops] at stops
  · exact absurd hrun (silent _)
  · exact absurd rfl (silent _)

/-- A step that rejects its input leaves the whole core as it was. -/
theorem rejected_unchanged [Sha256] (c : RaftCore C) (event : Event C) (e : InputError)
    (h : (step c event).1 = Outcome.raise (.input e)) : (step c event).2 = c := by
  by_cases hstop : c.stopped = true
  · exact (@step_stopped C _ c _ event _ hstop rfl).1
  have running : c.stopped = false := by simpa using hstop
  rw [step_eq running] at h ⊢
  obtain ⟨raised, same⟩ := conclude_input h
  exact same.trans (process_input raised)

/-- Node 3 holds an entry that is not durable yet. -/
def appendPending : List (Event Nat) :=
  [.messageReceived ⟨0, 1, 3, .appendEntries 1 0 0 0 none
    [⟨1, 1, 0, .leaderNoop, Nat.zero_lt_one, Nat.zero_lt_one⟩]⟩]

/-- The report of an apply for a pending persist is rejected. -/
theorem rejected_unchanged_persist : ∃ w : Solo Nat,
    @Trace Nat sha256Empty (trio 3) w.history w.core ∧ w.core.pendingPersist.isSome = true ∧
    (@step Nat sha256Empty w.core (.effectCompleted ⟨0, 1⟩ (.applied 1))).1 =
      Outcome.raise (.input .invalidEffectOutcome) ∧
    (@step Nat sha256Empty w.core (.effectCompleted ⟨0, 1⟩ (.applied 1))).2 = w.core := by
  let _ : Sha256 := sha256Empty
  obtain ⟨w, run, checked⟩ := Solo.exec_any (trio 3) appendPending
    (fun w => w.core.pendingPersist.isSome && decide ((step w.core (.effectCompleted ⟨0, 1⟩
      (.applied 1))).1 = Outcome.raise (.input .invalidEffectOutcome))) (by decide +kernel)
  rw [Bool.and_eq_true, decide_eq_true_eq] at checked
  exact ⟨w, run, checked.1, checked.2, rejected_unchanged _ _ _ checked.2⟩

end Ruft
