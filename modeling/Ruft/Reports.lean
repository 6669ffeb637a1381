import Ruft.Plain
import Ruft.Slots

set_option autoImplicit false

/-!
# Reports of effects

The host may report effects in any order. A report reaches its effect when the effect's slot
still holds its id. Apply, chunk read, build, record and compaction slots are kept until
their effect is reported; the persist, chunk store and incoming snapshot slots are
overwritten by later requests, and an outstanding apply hides the persist slot.

## Main definitions

- `Overtaken` — the slot of the effect was lost or is hidden
- `Unprocessed` — no report of the effect was processed so far
-/

namespace Ruft

open Program StepM

variable {C : Type}

/-! ## Errors that are no unknown effect -/

def StepError.Known (e : StepError) : Prop := e ≠ .input .unknownEffect

/-- The handler does not raise an unknown effect. -/
abbrev Knows {α : Type} (m : StepM C α) : Prop := Ends (fun _ => True) StepError.Known m

theorem knows_core : Knows (core : StepM C _) := fun _ => trivial

theorem knows_update (f : RaftCore C → RaftCore C) : Knows (update f) := fun _ => trivial

theorem knows_emit (e : Effect C) : Knows (emit e) := fun _ => trivial

theorem Plain.knows {α : Type} {m : StepM C α} (h : Plain m) : Knows m :=
  h.ends fun e he => by rintro rfl; exact he

/-! ## The dispatcher -/

def IncomingSnapshotState.id : IncomingSnapshotState → EffectId
  | .persisting id _ _ _ | .installing id _ _ _ => id

def LocalSnapshotState.id : LocalSnapshotState → Option EffectId
  | .idle => none
  | .building id _ | .persisting id _ | .compacting id _ => some id

variable {c : RaftCore C} {id : EffectId} {outcome : EffectOutcome}

/-- A handler that puts its slot back and rejects the outcome. -/
theorem ends_rejected {α : Type} {A : α → Prop} {n : StepM C Unit} (h : Knows n) :
    Ends A StepError.Known (do n; StepM.raise (.input .invalidEffectOutcome) : StepM C α) :=
  h.seq fun _ => .raise (by simp [StepError.Known])

theorem onOutgoingSnapshotCompletion_ends :
    (onOutgoingSnapshotCompletion id outcome ⟨c, []⟩).1.Satisfies
      (fun consumed => consumed = true ∨ c.pendingSnapshotReads.get id = none)
      StepError.Known := by
  rw [onOutgoingSnapshotCompletion, bind_run_ok (core_run _)]
  cases hp : c.pendingSnapshotReads.get id with
  | none => exact .inr rfl
  | some to_ =>
    refine Ends.seq (knows_update _) (fun _ => Ends.expect.seq fun sender => ?_) ⟨c, []⟩
    cases outcome with
    | snapshotChunkRead snapshotId offset bytes done =>
      refine .ite (.ite (ends_rejected (knows_update _)) ?_) (ends_rejected (knows_update _))
      cases sender.advance bytes.length with
      | none => exact ends_rejected (knows_update _)
      | some advanced =>
        refine (knows_update _).seq fun _ => (knows_emit _).seq fun _ => .ite ?_ ?_
        · exact (plain_readSnapshotChunk _).knows.seq fun _ => .pure (.inl rfl)
        · exact .pure (.inl rfl)
    | failed => exact (knows_update _).seq fun _ => .raise (by simp [StepError.Known])
    | _ => exact ends_rejected (knows_update _)

theorem onChunkStoreCompletion_ends [Sha256] :
    (onChunkStoreCompletion id outcome ⟨c, []⟩).1.Satisfies
      (fun consumed => consumed = some true ∨
        (consumed = none ∧ ∀ p, c.pendingChunkStore = some p → p.id ≠ id))
      StepError.Known := by
  rw [onChunkStoreCompletion, bind_run_ok (core_run _)]
  cases hp : c.pendingChunkStore with
  | none => exact .inr ⟨rfl, by simp⟩
  | some pending =>
    refine Ends.seq (knows_update _) (fun _ => ?_) ⟨c, []⟩
    by_cases hid : pending.id ≠ id
    · rw [if_pos hid]
      refine (knows_update _).seq fun _ => .pure (.inr ⟨rfl, ?_⟩)
      rintro p ⟨⟩
      exact hid
    · rw [if_neg hid]
      cases outcome with
      | snapshotChunkStored snapshotId nextOffset snapshotRef =>
        have invalid : (StepError.invalidSnapshot).Known := by simp [StepError.Known]
        refine Ends.expect.seq fun receiver => .ite (ends_rejected (knows_update _)) (.ite
          (.ite ((knows_update _).seq fun _ => .raise invalid) ?_) (.pure (.inl rfl)))
        cases snapshotRef with
        | none => exact (knows_update _).seq fun _ => .raise invalid
        | some snapshotRef =>
          exact plain_nextEffectId.knows.seq fun _ => (knows_update _).seq fun _ =>
            (knows_emit _).seq fun _ => .pure (.inl rfl)
      | failed => exact (knows_update _).seq fun _ => .raise (by simp [StepError.Known])
      | _ => exact ends_rejected (knows_update _)

theorem onInstallCompletion_ends :
    (onInstallCompletion id outcome ⟨c, []⟩).1.Satisfies
      (fun consumed => consumed = true ∨ ∀ state, c.incomingSnapshotState = some state →
        state.id ≠ id) StepError.Known := by
  rw [onInstallCompletion, bind_run_ok (core_run _)]
  cases hp : c.incomingSnapshotState with
  | none => exact .inr (by simp)
  | some state =>
    refine Ends.seq (knows_update _) (fun _ => ?_) ⟨c, []⟩
    have other : state.id ≠ id → ∀ {n : StepM C Unit}, Knows n →
        Ends (fun consumed => consumed = true ∨ ∀ state', some state = some state' →
          state'.id ≠ id) StepError.Known (do n; pure false : StepM C Bool) := by
      intro hid n hn
      refine hn.seq fun _ => .pure (.inr ?_)
      rintro state' ⟨⟩
      exact hid
    cases state with
    | persisting expected record from_ term =>
      refine .cond (fun hid => ?_) fun hid => ?_
      · cases outcome with
        | persisted =>
          exact plain_nextEffectId.knows.seq fun _ => (knows_update _).seq fun _ =>
            (knows_emit _).seq fun _ => .pure (.inl rfl)
        | failed => exact (knows_update _).seq fun _ => .raise (by simp [StepError.Known])
        | _ => exact ends_rejected (knows_update _)
      · exact other hid (knows_update _)
    | installing expected record from_ term =>
      refine .cond (fun hid => ?_) fun hid => ?_
      · cases outcome with
        | snapshotInstalled snapshotId =>
          refine .ite ?_ (ends_rejected (knows_update _))
          exact (plain_liftLog _).knows.seq fun _ => (knows_update _).seq fun _ =>
            (plain_liftLog _).knows.seq fun _ => (knows_update _).seq fun _ => knows_core.seq fun _ =>
              (knows_emit _).seq fun _ => .pure (.inl rfl)
        | failed => exact (knows_update _).seq fun _ => .raise (by simp [StepError.Known])
        | _ => exact ends_rejected (knows_update _)
      · exact other hid (knows_update _)

theorem validateLocalSnapshot_known (metadata : SnapshotMetadata) (snapshotRef : SnapshotRef)
    (through : Nat) : (validateLocalSnapshot c metadata snapshotRef through).Satisfies
      (fun _ => True) StepError.Known := by
  unfold validateLocalSnapshot
  split
  · exact show (StepError.invalidSnapshot).Known by simp [StepError.Known]
  · cases c.log.term through with
    | error e =>
      cases e with
      | raise e => exact show (StepError.log e).Known by simp [StepError.Known]
      | panic => trivial
    | ok t =>
      dsimp only
      split
      · exact show (StepError.invalidSnapshot).Known by simp [StepError.Known]
      · trivial

theorem onSnapshotCompletion_ends :
    (onSnapshotCompletion id outcome ⟨c, []⟩).1.Satisfies
      (fun consumed => consumed = true ∨ c.localSnapshot.id ≠ some id) StepError.Known := by
  rw [onSnapshotCompletion, bind_run_ok (core_run _)]
  refine Ends.seq (knows_update _) (fun _ => ?_) ⟨c, []⟩
  cases hs : c.localSnapshot with
  | idle => exact .pure (.inr (by simp [LocalSnapshotState.id]))
  | building expected through =>
    refine .cond (fun hid => ?_) fun hid => ?_
    · cases outcome with
      | snapshotBuilt metadata snapshotRef =>
        have hv := validateLocalSnapshot_known (c := c) metadata snapshotRef through
        dsimp only
        cases h : validateLocalSnapshot c metadata snapshotRef through with
        | error e =>
          rw [h] at hv
          refine (knows_update _).seq fun _ s => ?_
          cases e with
          | raise e => exact hv
          | panic => trivial
        | ok record =>
          exact plain_nextEffectId.knows.seq fun _ => (knows_update _).seq fun _ =>
            (knows_emit _).seq fun _ => .pure (.inl rfl)
      | failed => exact (knows_update _).seq fun _ => .raise (by simp [StepError.Known])
      | _ => exact ends_rejected (knows_update _)
    · exact (knows_update _).seq fun _ => .pure (.inr (by simpa [LocalSnapshotState.id] using hid))
  | persisting expected record =>
    refine .cond (fun hid => ?_) fun hid => ?_
    · cases outcome with
      | persisted =>
        exact plain_nextEffectId.knows.seq fun _ => (knows_update _).seq fun _ =>
          (knows_emit _).seq fun _ => .pure (.inl rfl)
      | failed => exact (knows_update _).seq fun _ => .raise (by simp [StepError.Known])
      | _ => exact ends_rejected (knows_update _)
    · exact (knows_update _).seq fun _ => .pure (.inr (by simpa [LocalSnapshotState.id] using hid))
  | compacting expected record =>
    refine .cond (fun hid => ?_) fun hid => ?_
    · cases outcome with
      | compacted through =>
        refine .ite ?_ (ends_rejected (knows_update _))
        exact (plain_liftLog _).knows.seq fun _ => (knows_update _).seq fun _ => .pure (.inl rfl)
      | failed => exact (knows_update _).seq fun _ => .raise (by simp [StepError.Known])
      | _ => exact ends_rejected (knows_update _)
    · exact (knows_update _).seq fun _ => .pure (.inr (by simpa [LocalSnapshotState.id] using hid))

theorem onApplyCompletion_known {pending : PendingApply} (mine : pending.id = id) :
    Knows (onApplyCompletion id outcome pending : StepM C Unit) := by
  refine (knows_update _).seq fun _ => ?_
  rw [if_neg (not_not_intro mine)]
  cases outcome with
  | applied through =>
    refine .ite ?_ (ends_rejected (knows_update _))
    exact (knows_update _).seq fun _ => (plain_answerProposals _ _).knows.seq fun _ =>
      plain_releaseReadRound.knows.seq fun _ => plain_startPendingReads.knows.seq fun _ =>
        plain_emitApplyIfNeeded.knows.seq fun _ => plain_maybeRequestLocalSnapshot.knows
  | failed => exact (knows_update _).seq fun _ => .raise (by simp [StepError.Known])
  | _ => exact ends_rejected (knows_update _)

theorem onPersistCompletion_known {pending : PendingPersist}
    (found : c.pendingPersist = some pending) (mine : pending.id = id) :
    (onPersistCompletion id outcome ⟨c, []⟩).1.Satisfies (fun _ => True) StepError.Known := by
  rw [onPersistCompletion, bind_run_ok (core_run _)]
  rw [found]
  refine Ends.seq (knows_update _) (fun _ => ?_) ⟨c, []⟩
  rw [if_neg (not_not_intro mine)]
  cases outcome with
  | persisted =>
    cases pending.stableThrough with
    | none => exact (plain_continueWith _).knows
    | some index =>
      exact (plain_liftLog _).knows.seq fun _ => (knows_update _).seq fun _ => (plain_continueWith _).knows
  | failed => exact (knows_update _).seq fun _ => .raise (by simp [StepError.Known])
  | _ => exact ends_rejected (knows_update _)

/-- A slot that the dispatcher reaches holds the id. -/
def Accepts (c : RaftCore C) (id : EffectId) : Prop :=
  c.pendingSnapshotReads.get id ≠ none ∨ (∃ p, c.pendingChunkStore = some p ∧ p.id = id) ∨
  (∃ state, c.incomingSnapshotState = some state ∧ state.id = id) ∨
  c.localSnapshot.id = some id ∨ (∃ p, c.pendingApply = some p ∧ p.id = id) ∨
  (c.pendingApply = none ∧ ∃ p, c.pendingPersist = some p ∧ p.id = id)

theorem Handled.passed_eq [Sha256] {cause : Cause C} {s : Ctx C}
    (h : Handled cause c id outcome (.ok false, s)) : s = ⟨c, []⟩ := by
  cases h
  rfl

/-- One stage of the dispatcher: it consumes the report or passes it on. -/
theorem dispatch_known {m : StepM C Bool} {k : StepM C Unit} {Q : Prop}
    (ends : (m ⟨c, []⟩).1.Satisfies (fun consumed => consumed = true ∨ Q) StepError.Known)
    (passed : ∀ s, m ⟨c, []⟩ = (.ok false, s) → s = ⟨c, []⟩)
    (next : Q → (k ⟨c, []⟩).1.Satisfies (fun _ => True) StepError.Known) :
    ((do if ← m then pure () else k : StepM C Unit) ⟨c, []⟩).1.Satisfies
      (fun _ => True) StepError.Known := by
  cases hrun : m ⟨c, []⟩ with
  | mk r s =>
    rw [hrun] at ends
    cases r with
    | error e =>
      rw [bind_run_error hrun]
      cases e with
      | raise e => exact ends
      | panic => trivial
    | ok consumed =>
      rw [bind_run_ok hrun]
      cases consumed with
      | true => trivial
      | false =>
        obtain rfl := passed s hrun
        exact next (ends.resolve_left (by simp))

theorem onIncomingSnapshotCompletion_ends [Sha256] (h : c.WF) :
    (onIncomingSnapshotCompletion id outcome ⟨c, []⟩).1.Satisfies
      (fun consumed => consumed = true ∨ ((∀ p, c.pendingChunkStore = some p → p.id ≠ id) ∧
        ∀ state, c.incomingSnapshotState = some state → state.id ≠ id)) StepError.Known := by
  have ends := @onChunkStoreCompletion_ends C c id outcome _
  have install := @onInstallCompletion_ends C c id outcome
  rcases onChunkStoreCompletion_cases ⟨c, .effectCompleted id outcome⟩ id outcome h with
    hrun | ⟨⟨r, s⟩, -, -, hrun⟩
  · rw [onIncomingSnapshotCompletion, bind_run_ok hrun]
    rw [hrun] at ends
    obtain ⟨-, free⟩ := ends.resolve_left (by simp)
    dsimp only
    cases hi : (onInstallCompletion id outcome ⟨c, []⟩).1 with
    | ok consumed =>
      rw [hi] at install
      exact install.imp_right fun other => ⟨free, other⟩
    | error e =>
      rw [hi] at install
      cases e with
      | raise e => exact install
      | panic => trivial
  · rw [hrun] at ends
    cases r with
    | ok consumed =>
      rw [onIncomingSnapshotCompletion, bind_run_ok hrun]
      rcases ends with hsome | ⟨hnone, -⟩
      · exact .inl (Option.some.inj hsome)
      · simp at hnone
    | error e =>
      rw [onIncomingSnapshotCompletion, bind_run_error hrun]
      cases e with
      | raise e => exact ends
      | panic => trivial

theorem onEffectCompleted_known [Sha256] (h : c.WF)
    (accepts : Accepts c id) : (onEffectCompleted id outcome ⟨c, []⟩).1.Satisfies
      (fun _ => True) StepError.Known := by
  show Outcome.Satisfies _ _ ((if id.generation ≠ c.config.generation then _ else _ :
    StepM C Unit) _).1
  split
  · exact show (StepError.input .staleEffectGeneration).Known by simp [StepError.Known]
  refine dispatch_known onOutgoingSnapshotCompletion_ends (fun s hs => ?_) fun outgoing => ?_
  · have := @onOutgoingSnapshotCompletion_handled C _ ⟨c, .effectCompleted id outcome⟩ c id outcome
      h
    rw [hs] at this
    exact this.passed_eq
  refine dispatch_known (onIncomingSnapshotCompletion_ends h) (fun s hs => ?_) fun incoming => ?_
  · have := @onIncomingSnapshotCompletion_handled C _ ⟨c, .effectCompleted id outcome⟩ c id outcome
      h
    rw [hs] at this
    exact this.passed_eq
  refine dispatch_known onSnapshotCompletion_ends (fun s hs => ?_) fun building => ?_
  · have := @onSnapshotCompletion_handled C _ ⟨c, .effectCompleted id outcome⟩ c id outcome
      h
    rw [hs] at this
    exact this.passed_eq
  rw [bind_run_ok (core_run _)]
  rcases accepts with hr | ⟨p, hp, hid⟩ | ⟨state, hst, hid⟩ | hl | ⟨p, hp, hid⟩ | ⟨hn, p, hp, hid⟩
  · exact absurd outgoing hr
  · exact absurd hid (incoming.1 p hp)
  · exact absurd hid (incoming.2 state hst)
  · exact absurd hl building
  · rw [hp]
    exact onApplyCompletion_known hid ⟨c, []⟩
  · rw [hn]
    exact onPersistCompletion_known hp hid

/-- A report that reaches its slot is not rejected as unknown. -/
theorem step_known [Sha256] (h : c.WF)
    (running : c.stopped = false) (accepts : Accepts c id) :
    (step c (.effectCompleted id outcome)).1 ≠ Outcome.raise (.input .unknownEffect) := by
  have handled : (handle (.effectCompleted id outcome) ⟨c, []⟩).1.Satisfies
      (fun _ => True) StepError.Known := by
    show Outcome.Satisfies _ _ ((liftPure (c.validateCompletion id outcome) >>= _) _).1
    cases hv : c.validateCompletion id outcome with
    | error f =>
      cases f with
      | raise e =>
        show e.Known
        rintro rfl
        unfold RaftCore.validateCompletion at hv
        split at hv
        · simp [Outcome.raise] at hv
        split at hv
        · split at hv <;> simp [Outcome.raise] at hv
        · split at hv <;> simp [Outcome.raise] at hv
      | panic => trivial
    | ok u =>
      show Outcome.Satisfies _ _ ((onEffectCompleted id outcome >>= _) _).1
      exact Ends.after (onEffectCompleted_known h accepts) fun _ => knows_update _
  have processed : (process (.effectCompleted id outcome) ⟨c, []⟩).1.Satisfies
      (fun _ => True) StepError.Known := Ends.after handled fun _ => plain_emitApplyIfNeeded.knows
  rw [step_eq running]
  revert processed
  generalize process (.effectCompleted id outcome) ⟨c, []⟩ = run
  intro processed
  obtain ⟨r, s⟩ := run
  cases r with
  | error f =>
    cases f with
    | panic => simp [conclude, Outcome.panic, Outcome.raise]
    | raise e =>
      have known : e.Known := processed
      cases e <;> simp_all [conclude, RaftCore.fatalize, RaftCore.fatal, StepError.Known,
        Outcome.raise]
  | ok u =>
    simp only [conclude]
    split <;> simp [Outcome.panic, Outcome.raise]

/-! ## Reports that no slot takes -/

theorem onOutgoingSnapshotCompletion_pass (h : c.pendingSnapshotReads.get id = none) :
    onOutgoingSnapshotCompletion id outcome ⟨c, []⟩ = (.ok false, ⟨c, []⟩) := by
  rw [onOutgoingSnapshotCompletion, bind_run_ok (core_run _), h]
  rfl

theorem onChunkStoreCompletion_pass [Sha256] (h : ∀ p, c.pendingChunkStore = some p → p.id ≠ id) :
    onChunkStoreCompletion id outcome ⟨c, []⟩ = (.ok none, ⟨c, []⟩) := by
  rw [onChunkStoreCompletion, bind_run_ok (core_run _)]
  cases hp : c.pendingChunkStore with
  | none => rfl
  | some pending =>
    dsimp only
    rw [bind_run_ok (update_run _ _), if_pos (h pending hp), bind_run_ok (update_run _ _), ← hp]
    rfl

theorem onInstallCompletion_pass
    (h : ∀ state, c.incomingSnapshotState = some state → state.id ≠ id) :
    onInstallCompletion id outcome ⟨c, []⟩ = (.ok false, ⟨c, []⟩) := by
  rw [onInstallCompletion, bind_run_ok (core_run _)]
  cases hp : c.incomingSnapshotState with
  | none => rfl
  | some state =>
    dsimp only
    rw [bind_run_ok (update_run _ _)]
    cases state with
    | persisting expected record from_ term =>
      have hid : expected ≠ id := h _ hp
      dsimp only
      rw [if_neg hid, bind_run_ok (update_run _ _), ← hp]
      rfl
    | installing expected record from_ term =>
      have hid : expected ≠ id := h _ hp
      dsimp only
      rw [if_neg hid, bind_run_ok (update_run _ _), ← hp]
      rfl

theorem onSnapshotCompletion_pass (h : c.localSnapshot.id ≠ some id) :
    onSnapshotCompletion id outcome ⟨c, []⟩ = (.ok false, ⟨c, []⟩) := by
  rw [onSnapshotCompletion, bind_run_ok (core_run _)]
  dsimp only
  rw [bind_run_ok (update_run _ _)]
  cases hs : c.localSnapshot with
  | idle =>
    show (Except.ok false, (⟨{ c with localSnapshot := .idle }, []⟩ : Ctx C)) = _
    rw [← hs]
  | building expected through =>
    have hid : expected ≠ id := by simpa [hs, LocalSnapshotState.id] using h
    dsimp only
    rw [if_neg hid, bind_run_ok (update_run _ _), ← hs]
    rfl
  | persisting expected record =>
    have hid : expected ≠ id := by simpa [hs, LocalSnapshotState.id] using h
    dsimp only
    rw [if_neg hid, bind_run_ok (update_run _ _), ← hs]
    rfl
  | compacting expected record =>
    have hid : expected ≠ id := by simpa [hs, LocalSnapshotState.id] using h
    dsimp only
    rw [if_neg hid, bind_run_ok (update_run _ _), ← hs]
    rfl

/-- A report of an id that no slot holds, or that an apply hides, is rejected as unknown. -/
theorem step_unknown [Sha256] (running : c.stopped = false)
    (valid : c.validateCompletion id outcome = .ok ()) (refused : ¬ Accepts c id) :
    (step c (.effectCompleted id outcome)).1 = Outcome.raise (.input .unknownEffect) := by
  simp only [Accepts, not_or, not_and, not_exists, ne_eq, not_not] at refused
  obtain ⟨reads, store, incoming, building, apply, persist⟩ := refused
  have generation : id.generation = c.config.generation := by
    by_contra hg
    simp [RaftCore.validateCompletion, hg, Outcome.raise] at valid
  have hin : onIncomingSnapshotCompletion id outcome ⟨c, []⟩ = (.ok false, ⟨c, []⟩) := by
    rw [onIncomingSnapshotCompletion, bind_run_ok (onChunkStoreCompletion_pass store)]
    exact onInstallCompletion_pass incoming
  have unknown : onEffectCompleted id outcome ⟨c, []⟩ =
      (.error (.raise (.input .unknownEffect)), ⟨c, []⟩) := by
    rw [onEffectCompleted, bind_run_ok (core_run _)]
    dsimp only
    rw [if_neg (not_not_intro generation), bind_run_ok (onOutgoingSnapshotCompletion_pass reads)]
    rw [if_neg (by simp), bind_run_ok hin, if_neg (by simp),
      bind_run_ok (onSnapshotCompletion_pass building), if_neg (by simp), bind_run_ok (core_run _)]
    cases hp : c.pendingApply with
    | some pending =>
      dsimp only
      rw [onApplyCompletion, bind_run_ok (update_run _ _)]
      dsimp only
      rw [if_pos (apply pending hp), bind_run_ok (update_run _ _), ← hp]
      rfl
    | none =>
      dsimp only
      rw [onPersistCompletion, bind_run_ok (core_run _)]
      cases hq : c.pendingPersist with
      | none => rfl
      | some pending =>
        dsimp only
        rw [bind_run_ok (update_run _ _), if_pos (persist hp pending hq),
          bind_run_ok (update_run _ _), ← hq]
        rfl
  have handled : handle (.effectCompleted id outcome) ⟨c, []⟩ =
      (.error (.raise (.input .unknownEffect)), ⟨c, []⟩) := by
    rw [handle, bind_run_ok (core_run _), valid]
    exact bind_run_error unknown _
  rw [step_eq running, process, bind_run_error handled]
  rfl

/-! ## Slots that are kept -/

/-- The slot of an effect that no later request overwrites still holds the effect. -/
def RaftCore.Retains (c : RaftCore C) : Effect C → Prop
  | .apply id _ => ∃ p, c.pendingApply = some p ∧ p.id = id
  | .readSnapshotChunk id _ _ _ => c.pendingSnapshotReads.get id ≠ none
  | .buildSnapshot id _ | .compactLog id _ => c.localSnapshot.id = some id
  | .persist id batch => batch.hardState = none → batch.snapshot ≠ none →
      c.localSnapshot.id = some id
  | _ => True

/-- No report of the effect was processed: each failed and changed nothing. -/
def Unprocessed (history : List (Record C)) (id : EffectId) : Prop :=
  ∀ r ∈ history, ∀ outcome, r.event = .effectCompleted id outcome →
    (∃ e, r.result = .error e) ∧ r.after = r.before

/-- The slot of the effect was taken by a later effect, or an outstanding apply hides it. -/
def Overtaken (c : RaftCore C) : Effect C → Prop
  | .persist id batch => match batch.snapshot, batch.hardState with
    | none, _ => c.pendingApply ≠ none ∨ ∀ p, c.pendingPersist = some p → p.id ≠ id
    | some _, some _ => ∀ state, c.incomingSnapshotState = some state → state.id ≠ id
    | some _, none => False
  | .storeSnapshotChunk id _ _ _ => ∀ p, c.pendingChunkStore = some p → p.id ≠ id
  | .installSnapshot id _ => ∀ state, c.incomingSnapshotState = some state → state.id ≠ id
  | _ => False

/-- The slot of an effect is only lost where it held the effect's own id. -/
theorem RaftCore.Retains.of_slots {d : RaftCore C} {e : Effect C} (h : c.Retains e)
    (is : e.id? = some id)
    (apply : d.pendingApply = c.pendingApply ∨ ∀ p, c.pendingApply = some p → p.id ≠ id)
    (reads : d.pendingSnapshotReads.get id = c.pendingSnapshotReads.get id)
    (building : d.localSnapshot = c.localSnapshot ∨ c.localSnapshot.id ≠ some id) :
    d.Retains e := by
  cases e with
  | apply i entries =>
    obtain rfl : i = id := by simpa [Effect.id?] using is
    obtain ⟨p, hp, hid⟩ := h
    rcases apply with same | other
    · exact ⟨p, same ▸ hp, hid⟩
    · exact absurd hid (other p hp)
  | readSnapshotChunk i snapshot offset maxLen =>
    obtain rfl : i = id := by simpa [Effect.id?] using is
    simpa only [RaftCore.Retains, reads] using h
  | buildSnapshot i through | compactLog i through =>
    obtain rfl : i = id := by simpa [Effect.id?] using is
    rcases building with same | other
    · simpa only [RaftCore.Retains, same] using h
    · exact absurd h other
  | persist i batch =>
    obtain rfl : i = id := by simpa [Effect.id?] using is
    rcases building with same | other
    · simpa only [RaftCore.Retains, same] using h
    · exact fun hn hs => absurd (h hn hs) other
  | _ => trivial

theorem RaftCore.Retains.of_silent {e : Effect C} (h : e.id? = none) : c.Retains e := by
  cases e <;> simp [Effect.id?] at h <;> trivial

/-- An act keeps the slots of all effects but the one it reports. -/
theorem Act.retains [Sha256] {event : Event C} {s : Ctx C} (act : Act c event s) {e : Effect C}
    (h : c.Retains e) (is : e.id? = some id) :
    s.core.Retains e ∨ ∃ outcome, event = .effectCompleted id outcome := by
  cases act with
  | completed i outcome s act =>
    by_cases hid : i = id
    · exact .inr ⟨outcome, by rw [hid]⟩
    left
    have building : ∀ {state}, c.localSnapshot = state → state.id = some i →
        c.localSnapshot.id ≠ some id := by
      rintro state rfl hs
      simpa [hs] using hid
    cases act with
    | chunkRead =>
      refine h.of_slots is (.inl rfl) ?_ (.inl rfl)
      rw [BTreeMap.get_remove, if_neg (Ne.symm hid)]
    | built metadata snapshotRef through found =>
      exact h.of_slots is (.inl rfl) rfl (.inr (building found rfl))
    | recordPersisted record found =>
      exact h.of_slots is (.inl rfl) rfl (.inr (building found rfl))
    | compacted record log found =>
      exact h.of_slots is (.inl rfl) rfl (.inr (building found rfl))
    | compactFailed record found =>
      exact h.of_slots is (.inl rfl) rfl (.inr (building found rfl))
    | applyDone pending found mine =>
      refine h.of_slots is (.inr ?_) rfl (.inl rfl)
      intro p hp hpid
      obtain rfl : pending = p := by simpa [found] using hp
      exact hid (mine.symm.trans hpid)
    | _ => exact h.of_slots is (.inl rfl) rfl (.inl rfl)
  | message envelope members s known mine act =>
    generalize envelope.message = m at act
    cases act <;> exact .inl (h.of_slots is (.inl rfl) rfl (.inl rfl))
  | readStarted readId =>
    obtain ⟨round, hr⟩ := Ctx.roundStarted_core ⟨c, []⟩ readId
    exact .inl (h.of_slots is (.inl (by rw [hr])) (by rw [hr]) (.inl (by rw [hr])))
  | _ => exact .inl (h.of_slots is (.inl rfl) rfl (.inl rfl))

/-- A persist that was queued needs no lasting slot. -/
theorem retains_queued {d : RaftCore C} {batch : PersistBatch C} {k : PersistContinuation}
    (ordinary : batch.snapshot = none) : ∀ e ∈ (Ctx.queued ⟨d, []⟩ batch k).effects,
      (Ctx.queued ⟨d, []⟩ batch k).core.Retains e := by
  intro e he
  obtain rfl := List.mem_singleton.mp he
  exact fun _ hs => absurd ordinary hs

/-- The effects of an act are in their slots. -/
theorem Act.retains_new [Sha256] {event : Event C} {s : Ctx C} (act : Act c event s) :
    ∀ e ∈ s.effects, s.core.Retains e := by
  have silent : s.core.nextEffectSequence = c.nextEffectSequence →
      ∀ e ∈ s.effects, s.core.Retains e :=
    fun same e he => .of_silent (act.slotted.silent same e he)
  cases act with
  | campaigned => exact retains_queued rfl
  | proposed => exact retains_queued rfl
  | completed i outcome s act =>
    cases act with
    | transferDone | snapshotPersisted | built | recordPersisted =>
      intro e he
      obtain rfl := List.mem_singleton.mp he
      simp [RaftCore.Retains, LocalSnapshotState.id]
    | electedAlone => exact retains_queued rfl
    | _ => exact silent rfl
  | message envelope members s known mine act =>
    generalize envelope.message = m at act
    cases act with
    | termRaised | voteNewer | voteFirst | campaigned | elected | appendRejected | appendAccepted =>
      exact retains_queued rfl
    | chunkAccepted =>
      intro e he
      obtain rfl := List.mem_singleton.mp he
      trivial
    | _ => exact silent rfl
  | readStarted readId =>
    obtain ⟨round, hr⟩ := Ctx.roundStarted_core ⟨c, []⟩ readId
    exact silent (by rw [hr])
  | _ => exact silent rfl

theorem FollowUp.retains {cause : Cause C} {s s' : Ctx C} (hf : FollowUp cause s s')
    {e : Effect C} (h : s.core.Retains e) (is : e.id? = some id) : s'.core.Retains e := by
  cases hf with
  | applied entries noPersist noApply =>
    exact h.of_slots is (.inr (by simp [noApply])) rfl (.inl rfl)
  | chunkRequested to_ sender =>
    cases e with
    | readSnapshotChunk i snapshot offset maxLen =>
      simp only [RaftCore.Retains, BTreeMap.get_insert] at h ⊢
      split
      · simp
      · exact h
    | _ => exact h
  | buildRequested idle =>
    exact h.of_slots is (.inl rfl) rfl (.inr (by simp [idle, LocalSnapshotState.id]))
  | readStarted readId rest =>
    obtain ⟨round, hr⟩ :=
      Ctx.roundStarted_core ⟨{ s.core with pendingReads := rest }, s.effects⟩ readId
    exact h.of_slots is (.inl (by rw [hr])) (by rw [hr]) (.inl (by rw [hr]))
  | _ => exact h.of_slots is (.inl rfl) rfl (.inl rfl)

/-- A new effect of a follow-up is in its slot. -/
theorem FollowUp.retains_new {cause : Cause C} {s s' : Ctx C} (hf : FollowUp cause s s')
    (settled : s.core.WF ∨ s.core.Overflowed) {e : Effect C} (he : e ∈ s'.effects)
    (is : e.id? = some id) : e ∈ s.effects ∨ s'.core.Retains e := by
  have slotted := hf.slotted settled
  have silent : s'.core.nextEffectSequence = s.core.nextEffectSequence →
      e ∈ s.effects ∨ s'.core.Retains e := by
    intro same
    cases slotted with
    | quiet new effects silent =>
      rw [effects, List.mem_append] at he
      exact he.imp_right fun hn => .of_silent (silent e hn)
    | emitted e effects id config sequence => omega
  cases hf with
  | applied | chunkRequested | committed | buildRequested =>
    refine (List.mem_append.mp he).imp_right fun hn => ?_
    obtain rfl := List.mem_singleton.mp hn
    simp [RaftCore.Retains, LocalSnapshotState.id]
  | readStarted readId rest =>
    obtain ⟨round, hr⟩ :=
      Ctx.roundStarted_core ⟨{ s.core with pendingReads := rest }, s.effects⟩ readId
    exact silent (by rw [hr])
  | _ => exact silent rfl

/-! ## Completions that are recorded -/

/-- The core remembers the completion. -/
def Recorded (c : RaftCore C) (id : EffectId) : Prop :=
  c.completedOutcomes.get id ≠ none ∨ id.sequence ≤ c.completedFrontier ∨
    id.sequence ∈ c.completedSparse

theorem mergeFrontier_bound (fuel frontier : Nat) (sparse : Finset Nat) :
    (∀ n, n ≤ (RaftCore.mergeFrontier fuel frontier sparse).1 → n ≤ frontier ∨ n ∈ sparse) ∧
      (RaftCore.mergeFrontier fuel frontier sparse).2 ⊆ sparse := by
  induction fuel generalizing frontier sparse with
  | zero => exact ⟨fun n h => .inl h, Finset.Subset.refl _⟩
  | succ fuel ih =>
    unfold RaftCore.mergeFrontier
    split
    · next hmem =>
      obtain ⟨bound, sub⟩ := ih (RaftCore.saturatingNext frontier)
        (sparse.erase (RaftCore.saturatingNext frontier))
      refine ⟨fun n h => ?_, sub.trans (Finset.erase_subset _ _)⟩
      rcases bound n h with hle | herase
      · by_cases heq : n = RaftCore.saturatingNext frontier
        · exact .inr (heq ▸ hmem)
        · left
          have : RaftCore.saturatingNext frontier ≤ frontier + 1 := Nat.min_le_left _ _
          omega
      · exact .inr (Finset.mem_of_mem_erase herase)
    · exact ⟨fun n h => .inl h, Finset.Subset.refl _⟩

theorem evict_get (limit : Nat) (order : List EffectId)
    (outcomes : BTreeMap EffectId EffectOutcome) (id : EffectId)
    (h : (RaftCore.evict limit order outcomes).2.get id ≠ none) : outcomes.get id ≠ none := by
  induction order generalizing outcomes with
  | nil => exact h
  | cons expired rest ih =>
    unfold RaftCore.evict at h
    split at h
    · have := ih _ h
      rw [BTreeMap.get_remove] at this
      split at this
      · simp at this
      · exact this
    · exact h

theorem Recorded.of_recordCompletion {i : EffectId} {o : EffectOutcome}
    (h : Recorded (c.recordCompletion i o) id) : Recorded c id ∨ id = i ∨
      id.sequence = i.sequence := by
  unfold RaftCore.recordCompletion at h
  rcases h with hout | hfront | hsparse
  · have := evict_get _ _ _ id hout
    rw [BTreeMap.get_insert] at this
    split at this
    · next heq => exact .inr (.inl heq)
    · exact .inl (.inl this)
  · dsimp only at hfront
    split at hfront
    · next heq =>
      rcases (mergeFrontier_bound _ _ _).1 _ hfront with hle | hmem
      · by_cases hs : id.sequence = i.sequence
        · exact .inr (.inr hs)
        · have : RaftCore.saturatingNext c.completedFrontier ≤ c.completedFrontier + 1 :=
            Nat.min_le_left _ _
          exact .inl (.inr (.inl (by omega)))
      · exact .inl (.inr (.inr hmem))
    · exact .inl (.inr (.inl hfront))
  · dsimp only at hsparse
    split at hsparse
    · exact .inl (.inr (.inr ((mergeFrontier_bound _ _ _).2 hsparse)))
    · rcases Finset.mem_insert.mp hsparse with heq | hmem
      · exact .inr (.inr heq)
      · exact .inl (.inr (.inr hmem))

theorem validateCompletion_of_not_recorded (generation : id.generation = c.config.generation)
    (h : ¬ Recorded c id) : c.validateCompletion id outcome = .ok () := by
  simp only [Recorded, not_or, ne_eq, not_not] at h
  obtain ⟨hout, hfront, hsparse⟩ := h
  simp only [RaftCore.validateCompletion, generation, ne_eq, not_true_eq_false, if_false, hout]
  rw [if_neg (not_or.mpr ⟨hfront, hsparse⟩)]

/-! ## The law along runs -/

theorem Act.recorded_iff [Sha256] {event : Event C} {s : Ctx C} (act : Act c event s) :
    Recorded s.core id ↔ Recorded c id := by
  cases act with
  | message envelope members s known mine act =>
    generalize envelope.message = m at act
    cases act <;> exact Iff.rfl
  | completed i outcome s act => cases act <;> exact Iff.rfl
  | readStarted readId =>
    obtain ⟨round, hr⟩ := Ctx.roundStarted_core ⟨c, []⟩ readId
    rw [hr]
    exact Iff.rfl
  | _ => exact Iff.rfl

theorem FollowUp.recorded_of {cause : Cause C} {s s' : Ctx C} (hf : FollowUp cause s s')
    (h : Recorded s'.core id) : Recorded s.core id ∨ ∃ i outcome,
      cause.event = .effectCompleted i outcome ∧ (id = i ∨ id.sequence = i.sequence) := by
  cases hf with
  | recorded i outcome is =>
    exact h.of_recordCompletion.imp_right fun hid => ⟨i, outcome, is, hid⟩
  | readStarted readId rest =>
    obtain ⟨round, hr⟩ :=
      Ctx.roundStarted_core ⟨{ s.core with pendingReads := rest }, s.effects⟩ readId
    rw [hr] at h
    exact .inl h
  | _ => exact .inl h

/-- The invariant: unprocessed effects are retained and not recorded. -/
structure Accounted (history : List (Record C)) (c : RaftCore C) : Prop where
  slots : SlotsMatch (returnedEffects history) c
  retained : ∀ e ∈ returnedEffects history, ∀ id, e.id? = some id → Unprocessed history id →
    c.Retains e
  recorded : ∀ id, id.generation = c.config.generation → 0 < id.sequence → Recorded c id →
    ¬ Unprocessed history id

/-- The invariant in the middle of a step, up to the effect that the step reports. -/
structure StillAccounted (history : List (Record C)) (c : RaftCore C) (event : Event C)
    (s : Ctx C) : Prop where
  start : Accounted history c
  slots : SlotsMatch (returnedEffects history ++ s.effects) s.core
  retained : ∀ e ∈ returnedEffects history ++ s.effects, ∀ id, e.id? = some id →
    Unprocessed history id → s.core.Retains e ∨ ∃ outcome, event = .effectCompleted id outcome
  recorded : ∀ id, id.generation = s.core.config.generation → 0 < id.sequence →
    Recorded s.core id → ¬ Unprocessed history id ∨ ∃ outcome, event = .effectCompleted id outcome

theorem Unprocessed.earlier {history : List (Record C)} {r : Record C}
    (h : Unprocessed (r :: history) id) : Unprocessed history id :=
  fun r' hr' => h r' (List.mem_cons_of_mem _ hr')

theorem accounted_keeps [Sha256] : Keeps (HasRoom : Condition C) Accounted StillAccounted
    (fun _ _ => True) where
  act := by
    intro history c event s hs h act
    refine ⟨h, SlotsMatch.slotted (s := ⟨c, []⟩) (by simpa using h.slots) act.slotted, ?_, ?_⟩
    · intro e he id is fresh
      rcases List.mem_append.mp he with he | he
      · exact act.retains (h.retained e he id is fresh) is
      · exact .inl (act.retains_new e he)
    · intro id hg hpos hr
      have config : s.core.config = c.config := by
        cases act.slotted with
        | quiet new effects silent config => exact config
        | emitted e effects id config => exact config
      rw [config] at hg
      exact .inl (h.recorded id hg hpos (act.recorded_iff.mp hr))
  followUp := by
    intro history c event s₀ s s' hs act rest h hf
    have settled := act.settled hs.wf rest
    refine ⟨h.start, h.slots.slotted (hf.slotted settled), ?_, ?_⟩
    · intro e he id is fresh
      have hcases : e ∈ returnedEffects history ++ s.effects ∨ s'.core.Retains e := by
        rcases List.mem_append.mp he with he | he
        · exact .inl (List.mem_append_left _ he)
        · exact (hf.retains_new settled he is).imp_left (List.mem_append_right _)
      rcases hcases with hold | hnew
      · exact (h.retained e hold id is fresh).imp_left fun hr => hf.retains hr is
      · exact .inl hnew
    · intro id hg hpos hr
      rw [hf.frame.config] at hg
      rcases hf.recorded_of hr with hold | ⟨i, outcome, is, hid⟩
      · exact h.recorded id hg hpos hold
      · have is : event = .effectCompleted i outcome := is
        subst is
        obtain ⟨r, hr, e, he, reports⟩ := hs.allowed
        have issued := h.start.slots.issued e (mem_returnedEffects.mpr ⟨r, hr, he⟩) i reports.id_eq
        have config : s.core.config = c.config := rest.frame.config.trans (by
          cases act.slotted with
          | quiet new effects silent config => exact config
          | emitted e effects id config => exact config)
        have same : id = i := by
          rcases hid with rfl | hseq
          · rfl
          · obtain ⟨ig, iseq⟩ := i
            obtain ⟨jg, jseq⟩ := id
            simp only [EffectId.mk.injEq] at *
            exact ⟨by rw [hg, config, issued.1], hseq⟩
        exact .inr ⟨outcome, by rw [same]⟩
  finished := by
    intro history c event s _ h
    obtain ⟨proposals, hp⟩ := s.finished_core c
    have hslots := h.slots.slotted (finished_slotted c s)
    refine ⟨h.start, hslots, ?_, ?_⟩
    · intro e he id is fresh
      have hold : e ∈ returnedEffects history ++ s.effects := by
        cases finished_slotted c s with
        | quiet new effects silent =>
          rw [effects, ← List.append_assoc, List.mem_append] at he
          rcases he with he | he
          · exact he
          · simp [silent e he] at is
        | emitted e' effects id config sequence =>
          rw [hp] at sequence
          simp at sequence
      refine (h.retained e hold id is fresh).imp_left fun hr => ?_
      rw [hp]
      exact hr.of_slots is (.inl rfl) rfl (.inl rfl)
    · rw [hp]
      exact h.recorded
  returned := by
    intro history c event s changed _ h
    have silent : ∀ id, Unprocessed (⟨c, event, .ok ⟨s.effects, changed⟩, s.core⟩ :: history) id →
        ¬ ∃ outcome, event = .effectCompleted id outcome := by
      rintro id fresh ⟨outcome, rfl⟩
      obtain ⟨⟨e, he⟩, -⟩ := fresh _ (List.mem_cons_self ..) outcome rfl
      simp at he
    refine ⟨by rw [returnedEffects_cons]; exact h.slots, ?_, ?_⟩
    · intro e he id is fresh
      rw [returnedEffects_cons] at he
      exact (h.retained e he id is fresh.earlier).resolve_right (silent id fresh)
    · intro id hg hpos hr fresh
      rcases h.recorded id hg hpos hr with hproc | hrep
      · exact hproc fresh.earlier
      · exact silent id fresh hrep
  failed := by
    intro history c event s e _ h _
    -- A failed report that changed nothing leaves the invariant of before.
    have same : ∀ id, Unprocessed (⟨c, event, Outcome.raise e, s.core⟩ :: history) id →
        (∃ outcome, event = .effectCompleted id outcome) → s.core = c := by
      rintro id fresh ⟨outcome, rfl⟩
      exact (fresh _ (List.mem_cons_self ..) outcome rfl).2
    have heff : returnedEffects (⟨c, event, Outcome.raise e, s.core⟩ :: history) =
        returnedEffects history := by
      rw [returnedEffects_cons]
      exact List.append_nil _
    refine ⟨?_, ?_, ?_⟩
    · rw [heff]
      exact h.slots.anti (List.sublist_append_left _ _)
    · intro e' he' id is fresh
      rw [heff] at he'
      rcases h.retained e' (List.mem_append_left _ he') id is fresh.earlier with hr | hrep
      · exact hr
      · rw [same id fresh hrep]
        exact h.start.retained e' he' id is fresh.earlier
    · intro id hg hpos hr fresh
      rcases h.recorded id hg hpos hr with hproc | hrep
      · exact hproc fresh.earlier
      · rw [same id fresh hrep] at hg hr
        exact h.start.recorded id hg hpos hr fresh.earlier
  safe _ := trivial
  ended _ _ _ _ := trivial
  halted _ _ _ _ _ := trivial
  idle _ _ _ _ _ _ := trivial

/-- An unprocessed effect that was not overtaken is in a slot that the dispatcher reaches. -/
theorem accepts_iff {effects : List (Effect C)} (slots : SlotsMatch effects c) {e : Effect C}
    (he : e ∈ effects) (is : e.id? = some id) (retained : c.Retains e) :
    Accepts c id ↔ ¬ Overtaken c e := by
  have fits : ∀ {kind}, c.Pends id kind → kind e := fun pends => slots.fits id _ pends e he is
  constructor
  -- the slot that takes the report tells the kind of the effect
  · rintro (hr | ⟨p, hp, rfl⟩ | ⟨state, hst, hid⟩ | hl | ⟨p, hp, rfl⟩ | ⟨hn, p, hp, rfl⟩)
    · obtain ⟨to_, hto⟩ := Option.ne_none_iff_exists'.mp hr
      obtain ⟨snapshot, offset, maxLen, rfl⟩ := fits (.reading id to_ hto)
      exact not_false
    · obtain ⟨metadata, offset, bytes, rfl⟩ := fits (.chunkStore p hp)
      exact fun beyond => beyond p hp rfl
    · cases state with
      | persisting i record from_ term =>
        obtain rfl : i = id := hid
        obtain ⟨hardState, rfl⟩ := fits (.received i record from_ term hst)
        exact fun beyond => beyond _ hst rfl
      | installing i record from_ term =>
        obtain rfl : i = id := hid
        obtain rfl := fits (.installing i record from_ term hst)
        exact fun beyond => beyond _ hst rfl
    · cases hs : c.localSnapshot with
      | idle => simp [hs, LocalSnapshotState.id] at hl
      | building i through =>
        obtain rfl : i = id := by simpa [hs, LocalSnapshotState.id] using hl
        obtain rfl := fits (.building i through hs)
        exact not_false
      | persisting i record =>
        obtain rfl : i = id := by simpa [hs, LocalSnapshotState.id] using hl
        obtain rfl := fits (.recording i record hs)
        exact not_false
      | compacting i record =>
        obtain rfl : i = id := by simpa [hs, LocalSnapshotState.id] using hl
        obtain rfl := fits (.compacting i record hs)
        exact not_false
    · obtain ⟨entries, last, rfl, -⟩ := fits (.apply p hp)
      exact not_false
    · obtain ⟨⟨hardState, entries, snapshot⟩, rfl, ordinary, -⟩ := fits (.persist p hp)
      obtain rfl : snapshot = none := ordinary
      rintro (hsome | hother)
      · exact hsome hn
      · exact hother p hp rfl
  · intro kept
    -- the kind of the effect tells the slot in which it still is
    cases e with
    | apply i entries =>
      obtain rfl : i = id := by simpa [Effect.id?] using is
      exact .inr (.inr (.inr (.inr (.inl retained))))
    | readSnapshotChunk i snapshot offset maxLen =>
      obtain rfl : i = id := by simpa [Effect.id?] using is
      exact .inl retained
    | buildSnapshot i through | compactLog i through =>
      obtain rfl : i = id := by simpa [Effect.id?] using is
      exact .inr (.inr (.inr (.inl retained)))
    | storeSnapshotChunk i metadata offset bytes =>
      obtain rfl : i = id := by simpa [Effect.id?] using is
      simp only [Overtaken, not_forall, not_not, exists_prop] at kept
      exact .inr (.inl kept)
    | installSnapshot i record =>
      obtain rfl : i = id := by simpa [Effect.id?] using is
      simp only [Overtaken, not_forall, not_not, exists_prop] at kept
      exact .inr (.inr (.inl kept))
    | persist i batch =>
      obtain rfl : i = id := by simpa [Effect.id?] using is
      obtain ⟨hardState, entries, snapshot⟩ := batch
      cases snapshot with
      | none =>
        simp only [Overtaken, not_or, not_forall, not_not, exists_prop, ne_eq] at kept
        exact .inr (.inr (.inr (.inr (.inr kept))))
      | some record =>
        cases hardState with
        | some hardState =>
          simp only [Overtaken, not_forall, not_not, exists_prop] at kept
          exact .inr (.inr (.inl kept))
        | none => exact .inr (.inr (.inr (.inl (retained rfl (by simp)))))
    | _ => simp [Effect.id?] at is

theorem Trace.accounted [Sha256] {config : Config} {recovered : RecoveredState C}
    {history : List (Record C)} {c : RaftCore C}
    (run : Trace (RaftCore.new config recovered) history c) (room : Holds HasRoom history)
    (running : c.stopped = false) : c.WF ∧ Accounted history c := by
  have start : Accounted [] (RaftCore.new config recovered) := by
    refine ⟨RaftCore.new_slots config recovered, by simp [returnedEffects], ?_⟩
    intro id _ hpos hr
    simp [Recorded, RaftCore.new] at hr
    omega
  obtain ⟨-, hinv⟩ := Trace.invariant accounted_keeps (fun _ _ _ h => h)
    (RaftCore.new_wf config recovered) start run room
  exact hinv.resolve_left (by simp [running])

theorem Accounted.accepts_iff {history : List (Record C)} (h : Accounted history c)
    {e : Effect C} (returned : e ∈ returnedEffects history) (is : e.id? = some id)
    (unprocessed : Unprocessed history id) : Accepts c id ↔ ¬ Overtaken c e :=
  Ruft.accepts_iff h.slots returned is (h.retained e returned id is unprocessed)

/-- The report of an unprocessed effect is one the core has not seen. -/
theorem Accounted.valid {history : List (Record C)} (h : Accounted history c) {e : Effect C}
    (returned : e ∈ returnedEffects history) (is : e.id? = some id)
    (unprocessed : Unprocessed history id) (outcome : EffectOutcome) :
    c.validateCompletion id outcome = .ok () := by
  obtain ⟨hg, hpos, -⟩ := h.slots.issued e returned id is
  exact validateCompletion_of_not_recorded hg fun hr => h.recorded id hg hpos hr unprocessed

/-- The report of an effect that was returned and not processed is rejected as unknown exactly
when the effect was overtaken. -/
theorem report_unknown_iff [Sha256] (config : Config) (recovered : RecoveredState C)
    {history : List (Record C)} {c : RaftCore C}
    (run : Trace (RaftCore.new config recovered) history c) (room : Holds HasRoom history)
    (running : c.stopped = false) {e : Effect C} {id : EffectId}
    {outcome : EffectOutcome} (returned : e ∈ returnedEffects history)
    (reports : e.Reports id outcome) (unprocessed : Unprocessed history id) :
    (step c (.effectCompleted id outcome)).1 ≠ Outcome.raise (.input .unknownEffect) ↔
      ¬ Overtaken c e := by
  obtain ⟨wf, accounted⟩ := run.accounted room running
  rw [← accounted.accepts_iff returned reports.id_eq unprocessed]
  constructor
  · intro known
    by_contra refused
    have valid := accounted.valid returned reports.id_eq unprocessed outcome
    exact known (step_unknown running valid refused)
  · exact step_known wf running

theorem Unprocessed.of_unreported {history : List (Record C)}
    (h : (history.all fun r => !r.reports id) = true) : Unprocessed history id := by
  intro r hr outcome is
  have := List.all_eq_true.mp h r hr
  simp [Record.reports, is] at this

def isUnknown : Outcome StepError (StepOutput C) → Bool
  | .error (.raise (.input .unknownEffect)) => true
  | _ => false

theorem isUnknown_eq {r : Outcome StepError (StepOutput C)} (h : isUnknown r = true) :
    r = Outcome.raise (.input .unknownEffect) := by
  unfold isUnknown at h
  split at h
  · rfl
  · simp at h

/-- Node 3 appends the command while it still applies the no-op. -/
def appendWhileApplying : List (Move Nat) := Script.commitTwo ++ [.deliver 17, .deliver 18]

theorem report_unknown_iff_applying : ∃ (w : World Nat) (e : Effect Nat),
    @Run Nat sha256Empty trio w.history (w.core trio) ∧
    e ∈ returnedEffects (localHistory w.history 3) ∧ e.Reports ⟨0, 3⟩ (.applied 1) ∧
    ((@step Nat sha256Empty (w.core trio 3) (.effectCompleted ⟨0, 3⟩ (.applied 1))).1 ≠
      Outcome.raise (.input .unknownEffect) ↔ ¬ Overtaken (w.core trio 3) e) := by
  let _ : Sha256 := sha256Empty
  obtain ⟨w, run, checked⟩ := World.exec_any trio appendWhileApplying
    (fun w => ((returnedEffects (localHistory w.history 3)).any fun e =>
        e.reports ⟨0, 3⟩ (.applied 1)) &&
      ((localHistory w.history 3).all fun r => !r.reports ⟨0, 3⟩) &&
      ((localHistory w.history 3).all fun r => Room r.before) &&
      !(w.core trio 3).stopped) (by decide +kernel)
  simp only [Bool.and_eq_true, Bool.not_eq_true'] at checked
  obtain ⟨⟨⟨found, unreported⟩, room⟩, running⟩ := checked
  obtain ⟨e, he, reports⟩ := List.any_eq_true.mp found
  have reports := Effect.reports_sound reports
  refine ⟨w, e, run, he, reports, ?_⟩
  exact report_unknown_iff (trioConfig 3 (by decide)) .initial (run.trace 3)
    (Holds.hasRoom room) running he reports (.of_unreported unreported)

theorem report_unknown : ¬ ∀ (history : List (NodeId × Record Nat)) (cores : NodeId → RaftCore Nat),
    @Run Nat sha256Empty trio history cores → ∀ (node : NodeId) (e : Effect Nat) (id : EffectId)
    (outcome : EffectOutcome), e ∈ returnedEffects (localHistory history node) →
    e.Reports id outcome → outcome ≠ .failed → Unprocessed (localHistory history node) id →
    (cores node).stopped = false →
    (@step Nat sha256Empty (cores node) (.effectCompleted id outcome)).1 ≠
      Outcome.raise (.input .unknownEffect) := by
  let _ : Sha256 := sha256Empty
  intro h
  obtain ⟨w, run, checked⟩ := World.exec_any trio appendWhileApplying
    (fun w => ((returnedEffects (localHistory w.history 3)).any fun e =>
        e.reports ⟨0, 4⟩ .persisted) &&
      ((localHistory w.history 3).all fun r => !r.reports ⟨0, 4⟩) && !(w.core trio 3).stopped &&
      isUnknown (step (w.core trio 3) (.effectCompleted ⟨0, 4⟩ .persisted)).1) (by decide +kernel)
  simp only [Bool.and_eq_true, Bool.not_eq_true'] at checked
  obtain ⟨⟨⟨found, unreported⟩, running⟩, unknown⟩ := checked
  obtain ⟨e, he, reports⟩ := List.any_eq_true.mp found
  exact h _ _ run 3 e ⟨0, 4⟩ .persisted he (Effect.reports_sound reports) (by simp)
    (.of_unreported unreported) running (isUnknown_eq unknown)

end Ruft
