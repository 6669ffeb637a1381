import Ruft.PanicFree
import Ruft.Reports

set_option autoImplicit false

/-!
# Fail-stop

A failed effect stops the core. The failure is recognised in each of the seven completion
branches, so it is lost with the report: when the effect was overtaken the core goes on, and
when a chunk was read for a sender that is gone it panics.

## Main results

- `fails_stop` — a failure stops the core exactly when its report reaches its slot; a stopped
  core has a reason and stays as it is
- `failure_lost` — the failure of a persist is rejected while an apply is outstanding
-/

namespace Ruft

open Program StepM

variable {C : Type} {c : RaftCore C} {id : EffectId}

/-! ## The branch of each slot -/

/-- The handler of a slot stops the core. -/
def Fails {α : Type} (run : Outcome StepError α × Ctx C) : Prop :=
  ∃ e s, run = (.error (.raise e), s) ∧ e.stops = true

theorem Fails.bind {α β : Type} {m : StepM C α} {f : α → StepM C β} {s : Ctx C}
    (h : Fails (m s)) : Fails ((m >>= f) s) := by
  obtain ⟨e, s', run, stops⟩ := h
  exact ⟨e, s', bind_run_error run f, stops⟩

theorem onOutgoingSnapshotCompletion_fails {to_ : NodeId} {sender : SnapshotSender}
    (found : c.pendingSnapshotReads.get id = some to_)
    (sends : c.snapshotSenders.get to_ = some sender) :
    Fails (onOutgoingSnapshotCompletion id .failed ⟨c, []⟩) := by
  rw [onOutgoingSnapshotCompletion, bind_run_ok (core_run _), found]
  dsimp only
  rw [bind_run_ok (update_run _ _), sends]
  exact ⟨_, _, rfl, rfl⟩

theorem onOutgoingSnapshotCompletion_panics {outcome : EffectOutcome}
    (gone : SenderGone c id) :
    ∃ s, onOutgoingSnapshotCompletion id outcome ⟨c, []⟩ = (.error .panic, s) := by
  obtain ⟨to_, found, gone⟩ := gone
  rw [onOutgoingSnapshotCompletion, bind_run_ok (core_run _), found]
  dsimp only
  rw [bind_run_ok (update_run _ _), gone]
  exact ⟨_, rfl⟩

theorem onChunkStoreCompletion_fails [Sha256] {pending : PendingChunkStore}
    (found : c.pendingChunkStore = some pending) (mine : pending.id = id) :
    Fails (onChunkStoreCompletion id .failed ⟨c, []⟩) := by
  rw [onChunkStoreCompletion, bind_run_ok (core_run _), found]
  dsimp only
  rw [bind_run_ok (update_run _ _), if_neg (not_not_intro mine)]
  exact ⟨_, _, rfl, rfl⟩

theorem onInstallCompletion_fails {state : IncomingSnapshotState}
    (found : c.incomingSnapshotState = some state) (mine : state.id = id) :
    Fails (onInstallCompletion id .failed ⟨c, []⟩) := by
  rw [onInstallCompletion, bind_run_ok (core_run _), found]
  dsimp only
  rw [bind_run_ok (update_run _ _)]
  cases state with
  | persisting expected record from_ term =>
    dsimp only
    rw [if_pos (show expected = id from mine)]
    exact ⟨_, _, rfl, rfl⟩
  | installing expected record from_ term =>
    dsimp only
    rw [if_pos (show expected = id from mine)]
    exact ⟨_, _, rfl, rfl⟩

theorem onSnapshotCompletion_fails (mine : c.localSnapshot.id = some id) :
    Fails (onSnapshotCompletion id .failed ⟨c, []⟩) := by
  rw [onSnapshotCompletion, bind_run_ok (core_run _)]
  dsimp only
  rw [bind_run_ok (update_run _ _)]
  cases hs : c.localSnapshot with
  | idle => simp [hs, LocalSnapshotState.id] at mine
  | building expected through | persisting expected record | compacting expected record =>
    have same : expected = id := by simpa [hs, LocalSnapshotState.id] using mine
    dsimp only
    rw [if_pos same]
    exact ⟨_, _, rfl, rfl⟩

theorem onApplyCompletion_fails {pending : PendingApply} (mine : pending.id = id) :
    Fails (onApplyCompletion id .failed pending ⟨c, []⟩) := by
  rw [onApplyCompletion, bind_run_ok (update_run _ _)]
  dsimp only
  rw [if_neg (not_not_intro mine)]
  exact ⟨_, _, rfl, rfl⟩

theorem onPersistCompletion_fails {pending : PendingPersist}
    (found : c.pendingPersist = some pending) (mine : pending.id = id) :
    Fails (onPersistCompletion id .failed ⟨c, []⟩) := by
  rw [onPersistCompletion, bind_run_ok (core_run _)]
  dsimp only
  rw [found]
  dsimp only
  rw [bind_run_ok (update_run _ _), if_neg (not_not_intro mine)]
  exact ⟨_, _, rfl, rfl⟩

/-! ## The dispatcher -/

theorem onIncomingSnapshotCompletion_fails [Sha256]
    (held : (∃ p, c.pendingChunkStore = some p ∧ p.id = id) ∨
      ∃ state, c.incomingSnapshotState = some state ∧ state.id = id) :
    Fails (onIncomingSnapshotCompletion id .failed ⟨c, []⟩) := by
  rw [onIncomingSnapshotCompletion]
  by_cases store : ∃ p, c.pendingChunkStore = some p ∧ p.id = id
  · obtain ⟨p, found, mine⟩ := store
    exact (onChunkStoreCompletion_fails found mine).bind
  · obtain ⟨state, found, mine⟩ := held.resolve_left store
    simp only [not_exists, not_and] at store
    rw [bind_run_ok (onChunkStoreCompletion_pass store)]
    exact onInstallCompletion_fails found mine

/-- The failure of an effect in a slot stops the handler, whichever slots come first. -/
theorem onEffectCompleted_fails [Sha256] (generation : id.generation = c.config.generation)
    (accepts : Accepts c id) (present : ¬ SenderGone c id) :
    Fails (onEffectCompleted id .failed ⟨c, []⟩) := by
  rw [onEffectCompleted, bind_run_ok (core_run _)]
  dsimp only
  rw [if_neg (not_not_intro generation)]
  cases reads : c.pendingSnapshotReads.get id with
  | some to_ =>
    cases sends : c.snapshotSenders.get to_ with
    | none => exact absurd ⟨to_, reads, sends⟩ present
    | some sender => exact (onOutgoingSnapshotCompletion_fails reads sends).bind
  | none =>
    rw [bind_run_ok (onOutgoingSnapshotCompletion_pass reads), if_neg (by simp)]
    by_cases incoming : (∃ p, c.pendingChunkStore = some p ∧ p.id = id) ∨
        ∃ state, c.incomingSnapshotState = some state ∧ state.id = id
    · exact (onIncomingSnapshotCompletion_fails incoming).bind
    have pass : onIncomingSnapshotCompletion id .failed ⟨c, []⟩ = (.ok false, ⟨c, []⟩) := by
      simp only [not_or, not_exists, not_and] at incoming
      rw [onIncomingSnapshotCompletion, bind_run_ok (onChunkStoreCompletion_pass incoming.1)]
      exact onInstallCompletion_pass incoming.2
    rw [bind_run_ok pass, if_neg (by simp)]
    by_cases building : c.localSnapshot.id = some id
    · exact (onSnapshotCompletion_fails building).bind
    rw [bind_run_ok (onSnapshotCompletion_pass building), if_neg (by simp),
      bind_run_ok (core_run _)]
    rcases accepts with hr | hstore | hstate | hl | ⟨p, found, mine⟩ | ⟨free, p, found, mine⟩
    · exact absurd reads hr
    · exact absurd (.inl hstore) incoming
    · exact absurd (.inr hstate) incoming
    · exact absurd hl building
    · dsimp only
      rw [found]
      exact onApplyCompletion_fails mine
    · dsimp only
      rw [free]
      exact onPersistCompletion_fails found mine

/-! ## The step -/

/-- A report of failure stops the core with a fatal error. -/
def FailStops [Sha256] (c : RaftCore C) (id : EffectId) : Prop :=
  (∃ error, (step c (.effectCompleted id .failed)).1 = Outcome.raise (.fatal error)) ∧
    (step c (.effectCompleted id .failed)).2.stopped = true

theorem handle_completed_eq [Sha256] {outcome : EffectOutcome}
    (valid : c.validateCompletion id outcome = .ok ()) :
    handle (.effectCompleted id outcome) ⟨c, []⟩ = (onEffectCompleted id outcome >>=
      fun _ => update fun c => c.recordCompletion id outcome : StepM C Unit) ⟨c, []⟩ := by
  rw [handle, bind_run_ok (core_run _), valid]
  rfl

theorem step_fails [Sha256] (running : c.stopped = false)
    (valid : c.validateCompletion id .failed = .ok ())
    (fails : Fails (onEffectCompleted id .failed ⟨c, []⟩)) : FailStops c id := by
  have handled : Fails (handle (.effectCompleted id .failed) ⟨c, []⟩) := by
    rw [handle_completed_eq valid]
    exact fails.bind
  obtain ⟨e, s, run, stops⟩ : Fails (process (.effectCompleted id .failed) ⟨c, []⟩) :=
    handled.bind
  unfold FailStops
  rw [step_eq running, run]
  cases e <;> simp [StepError.stops] at stops
  all_goals exact ⟨⟨_, rfl⟩, rfl⟩

theorem step_sender_gone [Sha256] {outcome : EffectOutcome} (running : c.stopped = false)
    (valid : c.validateCompletion id outcome = .ok ())
    (generation : id.generation = c.config.generation) (gone : SenderGone c id) :
    (step c (.effectCompleted id outcome)).1 = Outcome.panic := by
  obtain ⟨s, panics⟩ := @onOutgoingSnapshotCompletion_panics C c id outcome gone
  have dispatched : onEffectCompleted id outcome ⟨c, []⟩ = (.error .panic, s) := by
    rw [onEffectCompleted, bind_run_ok (core_run _)]
    dsimp only
    rw [if_neg (not_not_intro generation)]
    exact bind_run_error panics _
  have handled : handle (.effectCompleted id outcome) ⟨c, []⟩ = (.error .panic, s) := by
    rw [handle_completed_eq valid]
    exact bind_run_error dispatched _
  rw [step_eq running, process, bind_run_error handled]
  rfl

/-! ## Stopped cores -/

theorem MessageAct.stopped_eq {from_ : NodeId} {m : Message C} {s : Ctx C}
    (act : MessageAct c from_ m s) : s.core.stopped = c.stopped := by
  cases act <;> rfl

theorem CompletionAct.stopped_eq [Sha256] {outcome : EffectOutcome} {s : Ctx C}
    (act : CompletionAct c id outcome s) : s.core.stopped = c.stopped := by
  cases act <;> rfl

/-- The core is stopped with a reason or goes on. -/
theorem Act.reason [Sha256] {event : Event C} {s : Ctx C} (running : c.stopped = false)
    (act : Act c event s) (stopped : s.core.stopped = true) :
    ∃ reason, s.core.stoppedReason = some reason := by
  cases act with
  | message envelope members s known mine act =>
    exact absurd (running.symm.trans (act.stopped_eq.symm.trans stopped)) (by simp)
  | completed id outcome s act =>
    exact absurd (running.symm.trans (act.stopped_eq.symm.trans stopped)) (by simp)
  | readStarted readId =>
    obtain ⟨round, hr⟩ := Ctx.roundStarted_core ⟨c, []⟩ readId
    rw [hr] at stopped
    exact absurd (running.symm.trans stopped) (by simp)
  | shutDown => exact RaftCore.stop_reason _ _
  | _ => exact absurd (running.symm.trans stopped) (by simp)

/-- A stopped core has a reason. -/
def RaftCore.Reasoned (c : RaftCore C) : Prop :=
  c.stopped = true → ∃ reason, c.stoppedReason = some reason

theorem reasoned_keeps [Sha256] : Keeps (fun _ _ _ => True : Condition C)
    (fun _ c => c.Reasoned) (fun _ _ _ s => s.core.Reasoned) (fun _ c => c.Reasoned) where
  act hs _ act := act.reason hs.running
  followUp _ _ _ h hf := by
    have frame := hf.frame
    unfold RaftCore.Reasoned
    rw [frame.stopped, frame.stoppedReason]
    exact h
  finished := by
    intro history c event s _ h
    obtain ⟨proposals, hp⟩ := s.finished_core c
    rw [hp]
    exact h
  returned _ _ h := h
  failed _ _ h _ := h
  safe h := h
  ended _ _ _ _ := fun _ => RaftCore.stop_reason _ _
  halted _ _ _ _ _ := fun _ => RaftCore.stop_reason _ _
  idle _ _ _ _ _ h := h

theorem Trace.reasoned [Sha256] {config : Config} {recovered : RecoveredState C}
    {history : List (Record C)} (run : Trace (RaftCore.new config recovered) history c) :
    c.Reasoned := by
  refine (Trace.invariant_of_stuck reasoned_keeps ?_ (RaftCore.new_wf config recovered)
    (by simp [RaftCore.Reasoned, RaftCore.new]) run .trivial).1
  intro history c event e s hs _ stuck
  cases stuck with
  | queued d batch continuation full act =>
    have reason := act.reason hs.running
    exact reason
  | dropped => exact fun stopped => absurd (hs.running.symm.trans stopped) (by simp)

/-- A failure stops the core exactly when its effect was not overtaken and no chunk was read
for a sender that is gone. A stopped core has a reason and ignores every event. -/
theorem fails_stop [Sha256] (config : Config) (recovered : RecoveredState C)
    {history : List (Record C)} (run : Trace (RaftCore.new config recovered) history c) :
    (Holds HasRoom history → c.stopped = false → ∀ e ∈ returnedEffects history, ∀ id,
      e.id? = some id → Unprocessed history id →
      (FailStops c id ↔ ¬ Overtaken c e ∧ ¬ SenderGone c id)) ∧
    (c.stopped = true → ∃ reason, c.stoppedReason = some reason) ∧
    (c.stopped = true → ∀ event, (step c event).2 = c ∧
      ∀ output, (step c event).1 = .ok output → output.effects = []) := by
  refine ⟨?_, run.reasoned, ?_⟩
  · intro room running e returned id is unprocessed
    obtain ⟨wf, accounted⟩ := run.accounted room running
    have valid := accounted.valid returned is unprocessed .failed
    have generation := (accounted.slots.issued e returned id is).1
    have accepts := accounted.accepts_iff returned is unprocessed
    constructor
    · rintro ⟨⟨error, fatal⟩, -⟩
      refine ⟨accepts.mp ?_, ?_⟩
      · by_contra refused
        rw [step_unknown running valid refused] at fatal
        simp [Outcome.raise] at fatal
      · intro gone
        rw [step_sender_gone running valid generation gone] at fatal
        simp [Outcome.raise, Outcome.panic] at fatal
    · rintro ⟨kept, present⟩
      exact step_fails running valid (onEffectCompleted_fails generation (accepts.mpr kept) present)
  · intro stopped event
    cases hrun : step c event with
    | mk result c' =>
      obtain ⟨same, silent⟩ := step_stopped stopped hrun
      refine ⟨same, ?_⟩
      rintro output ⟨⟩
      exact silent

/-- Node 3 fails to apply the no-op. -/
theorem fails_stop_applying : ∃ w : World Nat,
    @Run Nat sha256Empty trio w.history (w.core trio) ∧
    @FailStops Nat sha256Empty (w.core trio 3) ⟨0, 3⟩ := by
  let _ : Sha256 := sha256Empty
  obtain ⟨w, run, checked⟩ := World.exec_any trio appendWhileApplying
    (fun w => ((returnedEffects (localHistory w.history 3)).any fun e =>
        e.reports ⟨0, 3⟩ (.applied 1)) &&
      ((localHistory w.history 3).all fun r => !r.reports ⟨0, 3⟩) &&
      ((localHistory w.history 3).all fun r => Room r.before) &&
      !(w.core trio 3).stopped && (w.core trio 3).pendingSnapshotReads.get ⟨0, 3⟩ = none)
    (by decide +kernel)
  simp only [Bool.and_eq_true, Bool.not_eq_true', decide_eq_true_eq] at checked
  obtain ⟨⟨⟨⟨found, unreported⟩, room⟩, running⟩, noRead⟩ := checked
  obtain ⟨e, he, is⟩ := List.any_eq_true.mp found
  refine ⟨w, run, ?_⟩
  cases e with
  | apply id entries =>
    have is : id = ⟨0, 3⟩ := of_decide_eq_true (Bool.and_eq_true_iff.mp is).1
    refine ((fails_stop (trioConfig 3 (by decide)) .initial (run.trace 3)).1 (Holds.hasRoom room)
      running _ he _ (congrArg some is) (.of_unreported unreported)).mpr ⟨not_false, ?_⟩
    rintro ⟨to_, reading, -⟩
    simp [noRead] at reading
  | _ => simp [Effect.reports] at is

/-- Node 3 fails to persist the command while it applies the no-op, and goes on. -/
theorem failure_lost : ¬ ∀ (history : List (NodeId × Record Nat)) (cores : NodeId → RaftCore Nat),
    @Run Nat sha256Empty trio history cores → ∀ node, (cores node).stopped = false →
    ∀ e ∈ returnedEffects (localHistory history node), ∀ id, e.id? = some id →
    Unprocessed (localHistory history node) id → @FailStops Nat sha256Empty (cores node) id := by
  let _ : Sha256 := sha256Empty
  intro h
  obtain ⟨w, run, checked⟩ := World.exec_any trio appendWhileApplying
    (fun w => ((returnedEffects (localHistory w.history 3)).any fun e => e.id? = some ⟨0, 4⟩) &&
      ((localHistory w.history 3).all fun r => !r.reports ⟨0, 4⟩) && !(w.core trio 3).stopped &&
      isUnknown (step (w.core trio 3) (.effectCompleted ⟨0, 4⟩ .failed)).1) (by decide +kernel)
  simp only [Bool.and_eq_true, Bool.not_eq_true'] at checked
  obtain ⟨⟨⟨found, unreported⟩, running⟩, unknown⟩ := checked
  obtain ⟨e, he, is⟩ := List.any_eq_true.mp found
  obtain ⟨⟨error, fatal⟩, -⟩ := h _ _ run 3 running e he _ (of_decide_eq_true is)
    (.of_unreported unreported)
  rw [isUnknown_eq unknown] at fatal
  simp [Outcome.raise] at fatal

end Ruft
