import Ruft.WellFormed

set_option autoImplicit false

/-!
# The completion handlers refine the transition relation

The dispatcher tries the pending slots in a fixed order. Each handler passes the
completion on, panics because a cross-slot assumption is broken, stops the core
after a failure report, or does one of the acts of its pipeline.
-/

namespace Ruft

open Program StepM

variable {C : Type} [Sha256] {cause : Cause C} {c : RaftCore C} {id : EffectId}
  {outcome : EffectOutcome}

/-- The errors that stop the core. -/
def StepError.stops : StepError → Bool
  | .persistenceFailed | .compactionFailed | .applyFailed | .snapshotFailed => true
  | _ => false

/-- What a completion handler can return. -/
inductive Handled (cause : Cause C) (c : RaftCore C) (id : EffectId) (outcome : EffectOutcome) :
    Outcome StepError Bool × Ctx C → Prop
  | passed : Handled cause c id outcome (.ok false, ⟨c, []⟩)
  | panicked (s : Ctx C) (h : SenderGone c id ∨ ReceiverGone c id) :
      Handled cause c id outcome (.error .panic, s)
  | halted (e : StepError) (c' : RaftCore C) (stops : e.stops = true) (halted : Halted c c') :
      Handled cause c id outcome (.error (.raise e), ⟨c', []⟩)
  | acted (s s' : Ctx C) (act : CompletionAct c id outcome s) (rest : FollowUps cause s s')
      (settled : s.core.WF ∨ s' = s) : Handled cause c id outcome (.ok true, s')
  | failed (s s' : Ctx C) (e : StepError) (act : CompletionAct c id outcome s)
      (rest : FollowUps cause s s') (wf : s.core.WF) (quiet : s.Unqueued) :
      Handled cause c id outcome (.error (.raise e), s')
  | stuck (e : StepError) (s : Ctx C) (stuck : Stuck c (CompletionAct c id outcome) e s) :
      Handled cause c id outcome (.error (.raise e), s)

omit [Sha256] in
theorem Halted.of_eq {reads : BTreeMap EffectId NodeId} {store : Option PendingChunkStore}
    {incoming : Option IncomingSnapshotState} {building : LocalSnapshotState}
    {applying : Option PendingApply} {persist : Option PendingPersist} : Halted c { c with
      pendingSnapshotReads := reads, pendingChunkStore := store
      incomingSnapshotState := incoming, localSnapshot := building
      pendingApply := applying, pendingPersist := persist, stopped := true } :=
  ⟨rfl, reads, store, incoming, building, applying, persist, rfl⟩

theorem Handled.consumed {s : Ctx C} {m : StepM C Unit} (act : CompletionAct c id outcome s)
    (wf : s.core.WF) (quiet : s.Unqueued) (hm : Leads (FollowUp cause) m s) :
    Handled cause c id outcome ((do m; pure true : StepM C Bool) s) := by
  obtain ⟨hp, hr⟩ := hm
  cases hrun : m s with
  | mk r s' =>
    rw [hrun] at hp hr
    cases r with
    | ok u =>
      rw [bind_run_ok hrun]
      exact .acted s s' act hr (.inl wf)
    | error f =>
      rw [bind_run_error hrun]
      cases f with
      | raise e => exact .failed s s' e act hr wf quiet
      | panic => exact absurd rfl hp

/-! ## The outgoing pipeline -/

theorem onOutgoingSnapshotCompletion_handled (h : c.WF) :
    Handled cause c id outcome (onOutgoingSnapshotCompletion id outcome ⟨c, []⟩) := by
  rw [onOutgoingSnapshotCompletion, bind_run_ok (core_run _)]
  cases hp : c.pendingSnapshotReads.get id with
  | none => exact .passed
  | some to_ =>
    have putBack : ({ c with pendingSnapshotReads :=
        (c.pendingSnapshotReads.remove id).insert id to_ } : RaftCore C) = c := by
      rw [BTreeMap.insert_remove hp]
    have rejected : ∀ e : StepError, Handled cause c id outcome (.error (.raise e),
        ⟨{ c with pendingSnapshotReads :=
          (c.pendingSnapshotReads.remove id).insert id to_ }, []⟩) := by
      intro e
      rw [putBack]
      exact .failed _ _ e (.rejected outcome) .refl h (Ctx.unqueued_nil _)
    show Handled _ _ _ _ ((Program.expect (c.snapshotSenders.get to_) >>= _) _)
    cases hs : c.snapshotSenders.get to_ with
    | none => exact .panicked _ (.inl ⟨to_, hp, hs⟩)
    | some sender =>
      cases outcome with
      | snapshotChunkRead snapshotId offset bytes done =>
        show Handled _ _ _ _ ((if snapshotId = sender.snapshot.metadata.id ∧ offset = sender.offset
          then _ else _ : StepM C Bool) _)
        split
        · next same =>
          split
          · exact rejected _
          next size =>
          cases ha : sender.advance bytes.length with
          | none => exact rejected _
          | some advanced =>
            have act := @CompletionAct.chunkRead C _ c id snapshotId offset bytes done
              to_ sender advanced hp hs same ha (Nat.not_lt.mp size)
            cases done with
            | true => exact .acted _ _ act .refl (.inr rfl)
            | false =>
              have h₁ : ({ c with
                  pendingSnapshotReads := c.pendingSnapshotReads.remove id
                  snapshotSenders := c.snapshotSenders.insert to_ advanced }).WF :=
                h.congr rfl rfl rfl rfl rfl rfl rfl rfl rfl rfl rfl
              exact .consumed act h₁ (by simp [Ctx.Unqueued]) (readSnapshotChunk_leads h₁ to_)
        · exact rejected _
      | failed => exact .halted _ _ rfl Halted.of_eq
      | _ => exact rejected _

/-! ## The incoming pipeline -/

theorem onChunkStoreCompletion_cases (cause : Cause C) (id : EffectId) (outcome : EffectOutcome)
    (h : c.WF) :
    (onChunkStoreCompletion id outcome ⟨c, []⟩ = (.ok none, ⟨c, []⟩)) ∨
    ∃ r, Handled cause c id outcome r ∧ r ≠ (.ok false, ⟨c, []⟩) ∧
      onChunkStoreCompletion id outcome ⟨c, []⟩ = (r.1.map some, r.2) := by
  rw [onChunkStoreCompletion, bind_run_ok (core_run _)]
  cases hp : c.pendingChunkStore with
  | none => exact .inl rfl
  | some pending =>
    have putBack : ({ c with pendingChunkStore := some pending } : RaftCore C) = c := by
      rw [← hp]
    by_cases hid : pending.id = id
    · right
      have rejected : ∀ e : StepError, ∃ r, Handled cause c id outcome r ∧
          r ≠ (.ok false, ⟨c, []⟩) ∧ ((.error (.raise e), ⟨{ c with
            pendingChunkStore := some pending }, []⟩) : Outcome StepError (Option Bool) × Ctx C) =
            (r.1.map some, r.2) := by
        intro e
        rw [putBack]
        exact ⟨(.error (.raise e), ⟨c, []⟩), .failed _ _ e (.rejected outcome) .refl h
          (Ctx.unqueued_nil _), by simp, rfl⟩
      show ∃ r, _ ∧ _ ∧ (if pending.id ≠ id then _ else _ : StepM C _) _ = _
      rw [if_neg (by simpa using hid)]
      cases outcome with
      | snapshotChunkStored snapshotId nextOffset snapshotRef =>
        show ∃ r, _ ∧ _ ∧ (Program.expect c.incomingSnapshot >>= _) _ = _
        cases hr : c.incomingSnapshot with
        | none =>
          exact ⟨(.error .panic, _), .panicked _ (.inr ⟨hr, pending, hp, hid⟩), by simp, rfl⟩
        | some receiver =>
          show ∃ r, _ ∧ _ ∧ (if snapshotId ≠ receiver.metadata.id ∨
            nextOffset ≠ receiver.nextOffset then _ else _ : StepM C _) _ = _
          split
          · exact rejected _
          split
          · next hdone =>
            split
            · exact rejected _
            next hvalid =>
            have hvalid : receiver.isCompleteAndValid = true := by simpa using hvalid
            cases snapshotRef with
            | none => exact rejected _
            | some snapshotRef =>
              dsimp only
              by_cases room : c.nextEffectSequence < u64Max
              · rw [bind_run_ok (nextEffectId_run (by exact room))]
                exact ⟨(.ok true, _), .acted _ _ (.transferDone snapshotId nextOffset snapshotRef
                  pending receiver hp hid hdone hr hvalid) .refl (.inr rfl), by simp, rfl⟩
              · rw [bind_run_error (nextEffectId_overflow (by exact room))]
                exact ⟨(.error (.raise _), _), .stuck _ _ (.dropped c.activeMembers
                  c.incomingSnapshot none c.incomingSnapshotState c.localSnapshot room (.inl rfl)
                  (.inr rfl) (.inl rfl) (.inl rfl)), by simp, rfl⟩
          · next hmore =>
            have hmore : pending.done = false := by simpa using hmore
            exact ⟨(.ok true, _), .acted _ _ (.chunkStored snapshotId nextOffset snapshotRef
              pending hp hid hmore) .refl (.inr rfl), by simp, rfl⟩
      | failed =>
        exact ⟨(.error (.raise _), _), .halted _ _ rfl Halted.of_eq, by simp, rfl⟩
      | _ => exact rejected _
    · left
      show (if pending.id ≠ id then _ else _ : StepM C _) _ = _
      rw [if_pos hid]
      exact congrArg (fun d => ((.ok none, ⟨d, []⟩) : Outcome StepError (Option Bool) × Ctx C))
        putBack

theorem onInstallCompletion_handled (h : c.WF) :
    Handled cause c id outcome (onInstallCompletion id outcome ⟨c, []⟩) := by
  rw [onInstallCompletion, bind_run_ok (core_run _)]
  cases hs : c.incomingSnapshotState with
  | none => exact .passed
  | some state =>
    have putBack : ({ c with incomingSnapshotState := some state } : RaftCore C) = c := by
      rw [← hs]
    have rejected : ∀ e : StepError, Handled cause c id outcome (.error (.raise e),
        ⟨{ c with incomingSnapshotState := some state }, []⟩) := by
      intro e
      rw [putBack]
      exact .failed _ _ e (.rejected outcome) .refl h (Ctx.unqueued_nil _)
    have handOn : Handled cause c id outcome (.ok false,
        ⟨{ c with incomingSnapshotState := some state }, []⟩) := by
      rw [putBack]
      exact .passed
    cases state with
    | persisting expected record from_ term =>
      show Handled _ _ _ _ ((if expected = id then _ else _ : StepM C Bool) _)
      split
      · next hid =>
        subst hid
        cases outcome with
        | persisted =>
          show Handled _ _ _ _ ((nextEffectId >>= _) _)
          by_cases room : c.nextEffectSequence < u64Max
          · rw [bind_run_ok (nextEffectId_run (by exact room))]
            exact .acted _ _ (.snapshotPersisted record from_ term hs) .refl (.inr rfl)
          · rw [bind_run_error (nextEffectId_overflow (by exact room))]
            exact .stuck _ _ (.dropped c.activeMembers c.incomingSnapshot c.pendingChunkStore none
              c.localSnapshot room (.inl rfl) (.inl rfl) (.inr rfl) (.inl rfl))
        | failed => exact .halted _ _ rfl Halted.of_eq
        | _ => exact rejected _
      · exact handOn
    | installing expected record from_ term =>
      show Handled _ _ _ _ ((if expected = id then _ else _ : StepM C Bool) _)
      split
      · next hid =>
        subst hid
        cases outcome with
        | snapshotInstalled snapshotId =>
          show Handled _ _ _ _ ((if snapshotId = record.metadata.id then _ else _ : StepM C Bool) _)
          split
          · have hinst := h.log.installSnapshot record
            show Handled _ _ _ _ ((liftLog (c.log.installSnapshot record) >>= _) _)
            generalize hlog : c.log.installSnapshot record = result at hinst ⊢
            subst hinst
            generalize hnew : (⟨some record, c.log.retained record,
              max c.log.committed record.metadata.index,
              c.log.unstable.discardThrough record.metadata.index⟩ : RaftLog C) = log at hlog ⊢
            have hterm : log.term log.lastIndex =
                .ok (lastTermFrom log.snapshotTerm log.entries) := by
              by_cases hb : record.metadata.index < u64Max
              · exact (h.log.installed hb hlog).term_lastIndex
              · -- A boundary past every index discards the suffix.
                have hout : c.log.term record.metadata.index ≠ .ok record.metadata.term := by
                  intro ht
                  have := (h.log.term_isOk.mp ⟨_, ht⟩).2
                  have := h.log.lastIndex_lt
                  omega
                rw [RaftLog.retained, if_neg hout] at hnew
                subst hnew
                simp [RaftLog.term, RaftLog.lastIndex, RaftLog.snapshotIndex, lastTermFrom,
                  RaftLog.snapshotTerm]
            show Handled _ _ _ _ ((liftLog (log.term log.lastIndex) >>= _) _)
            rw [hterm]
            exact .acted _ _ (.installed snapshotId record from_ term log hs hlog) .refl (.inr rfl)
          · exact rejected _
        | failed => exact .halted _ _ rfl Halted.of_eq
        | _ => exact rejected _
      · exact handOn

theorem onIncomingSnapshotCompletion_handled (h : c.WF) :
    Handled cause c id outcome (onIncomingSnapshotCompletion id outcome ⟨c, []⟩) := by
  rcases onChunkStoreCompletion_cases cause id outcome h with
    hrun | ⟨r, hr, hne, hrun⟩
  · rw [onIncomingSnapshotCompletion, bind_run_ok hrun]
    exact onInstallCompletion_handled h
  · obtain ⟨r, s⟩ := r
    cases r with
    | ok b =>
      rw [onIncomingSnapshotCompletion, bind_run_ok hrun]
      exact hr
    | error f =>
      rw [onIncomingSnapshotCompletion, bind_run_error hrun]
      exact hr

/-! ## The local pipeline -/

omit [Sha256] in
theorem validateLocalSnapshot_cases (h : c.log.WF) (metadata : SnapshotMetadata)
    (snapshotRef : SnapshotRef) (through : Nat) :
    (∃ e, validateLocalSnapshot c metadata snapshotRef through = Outcome.raise e) ∨
    (validateLocalSnapshot c metadata snapshotRef through = .ok ⟨metadata, snapshotRef⟩ ∧
      metadata.index = through ∧ c.log.term through = .ok metadata.term ∧
      metadata.members = c.config.members) := by
  unfold validateLocalSnapshot
  split
  · exact .inl ⟨_, rfl⟩
  next hi =>
  cases ht : c.log.term through with
  | error f =>
    cases f with
    | raise e => exact .inl ⟨.log e, rfl⟩
    | panic => exact absurd ht h.term_ne_panic
  | ok t =>
    dsimp only
    split
    · exact .inl ⟨_, rfl⟩
    next hm =>
    simp only [not_or, ne_eq, not_not] at hi hm
    exact .inr ⟨rfl, hi, by rw [hm.1], hm.2⟩

theorem onSnapshotCompletion_handled (h : c.WF) :
    Handled cause c id outcome (onSnapshotCompletion id outcome ⟨c, []⟩) := by
  have putBack : ∀ state, c.localSnapshot = state →
      ({ c with localSnapshot := state } : RaftCore C) = c := by
    rintro state rfl
    rfl
  have rejected : ∀ state, c.localSnapshot = state → ∀ e : StepError,
      Handled cause c id outcome (.error (.raise e), ⟨{ c with localSnapshot := state }, []⟩) := by
    intro state hs e
    rw [putBack state hs]
    exact .failed _ _ e (.rejected outcome) .refl h (Ctx.unqueued_nil _)
  have handOn : ∀ state, c.localSnapshot = state →
      Handled cause c id outcome (.ok false, ⟨{ c with localSnapshot := state }, []⟩) := by
    intro state hs
    rw [putBack state hs]
    exact .passed
  have emptied : ¬ c.nextEffectSequence < u64Max → Handled cause c id outcome
      (.error (.raise (.arithmetic .overflow)), ⟨{ c with localSnapshot := .idle }, []⟩) :=
    fun full => .stuck _ _ (.dropped c.activeMembers c.incomingSnapshot c.pendingChunkStore
      c.incomingSnapshotState .idle full (.inl rfl) (.inl rfl) (.inl rfl) (.inr rfl))
  rw [onSnapshotCompletion, bind_run_ok (core_run _)]
  cases hs : c.localSnapshot with
  | idle => exact handOn .idle hs
  | building expected through =>
    show Handled _ _ _ _ ((if expected = id then _ else _ : StepM C Bool) _)
    split
    · next hid =>
      subst hid
      cases outcome with
      | snapshotBuilt metadata snapshotRef =>
        dsimp only
        rcases validateLocalSnapshot_cases h.log metadata snapshotRef through with
          ⟨e, hv⟩ | ⟨hv, hvalid⟩
        · rw [hv]
          exact rejected _ hs e
        · rw [hv]
          show Handled _ _ _ _ ((nextEffectId >>= _) _)
          by_cases room : c.nextEffectSequence < u64Max
          · rw [bind_run_ok (nextEffectId_run (by exact room))]
            exact .acted _ _ (.built metadata snapshotRef through hs hvalid) .refl (.inr rfl)
          · rw [bind_run_error (nextEffectId_overflow (by exact room))]
            exact emptied room
      | failed => exact .halted _ _ rfl Halted.of_eq
      | _ => exact rejected _ hs _
    · exact handOn _ hs
  | persisting expected record =>
    show Handled _ _ _ _ ((if expected = id then _ else _ : StepM C Bool) _)
    split
    · next hid =>
      subst hid
      cases outcome with
      | persisted =>
        show Handled _ _ _ _ ((nextEffectId >>= _) _)
        by_cases room : c.nextEffectSequence < u64Max
        · rw [bind_run_ok (nextEffectId_run (by exact room))]
          exact .acted _ _ (.recordPersisted record hs) .refl (.inr rfl)
        · rw [bind_run_error (nextEffectId_overflow (by exact room))]
          exact emptied room
      | failed => exact .halted _ _ rfl Halted.of_eq
      | _ => exact rejected _ hs _
    · exact handOn _ hs
  | compacting expected record =>
    show Handled _ _ _ _ ((if expected = id then _ else _ : StepM C Bool) _)
    split
    · next hid =>
      subst hid
      cases outcome with
      | compacted through =>
        show Handled _ _ _ _ ((if through = record.metadata.index then _ else _ : StepM C Bool) _)
        split
        · next hthrough =>
          subst hthrough
          show Handled _ _ _ _ ((liftLog (c.log.compact record) >>= _) _)
          cases hcompact : c.log.compact record with
          | ok log => exact .acted _ _ (.compacted record log hs hcompact) .refl (.inr rfl)
          | error f =>
            cases f with
            | raise e =>
              exact .failed _ _ _ (.compactFailed record hs) .refl
                (h.congr rfl rfl rfl rfl rfl rfl rfl rfl rfl rfl rfl) (Ctx.unqueued_nil _)
            | panic => exact absurd hcompact h.log.compact_ne_panic
        · exact rejected _ hs _
      | failed => exact .halted _ _ rfl Halted.of_eq
      | _ => exact rejected _ hs _
    · exact handOn _ hs

/-! ## Apply and persist -/

/-- What the dispatcher can return. -/
inductive Completed (cause : Cause C) (c : RaftCore C) (id : EffectId) (outcome : EffectOutcome) :
    Outcome StepError Unit × Ctx C → Prop
  | panicked (s : Ctx C) (h : Panics c (.effectCompleted id outcome)) :
      Completed cause c id outcome (.error .panic, s)
  | halted (e : StepError) (c' : RaftCore C) (stops : e.stops = true) (halted : Halted c c') :
      Completed cause c id outcome (.error (.raise e), ⟨c', []⟩)
  | ran (r : Outcome StepError Unit) (s s' : Ctx C) (returns : r ≠ .error .panic)
      (act : CompletionAct c id outcome s) (rest : FollowUps cause s s')
      (settled : s.core.WF ∨ r = .ok () ∧ s' = s) (quiet : r = .ok () ∨ s.Unqueued) :
      Completed cause c id outcome (r, s')
  | stuck (e : StepError) (s : Ctx C) (stuck : Stuck c (CompletionAct c id outcome) e s) :
      Completed cause c id outcome (.error (.raise e), s)

theorem Completed.leads {s : Ctx C} {m : StepM C Unit} (act : CompletionAct c id outcome s)
    (wf : s.core.WF) (quiet : s.Unqueued) (hm : Leads (FollowUp cause) m s) : Completed cause c id outcome (m s) :=
  .ran (m s).1 s (m s).2 hm.1 act hm.2 (.inl wf) (.inr quiet)

theorem onApplyCompletion_completed (h : c.WF) {pending : PendingApply}
    (found : c.pendingApply = some pending) : Completed ⟨c, .effectCompleted id outcome⟩ c id outcome
      (onApplyCompletion id outcome pending ⟨c, []⟩) := by
  have putBack : ({ c with pendingApply := some pending } : RaftCore C) = c := by rw [← found]
  have rejected : ∀ e : StepError, Completed ⟨c, .effectCompleted id outcome⟩ c id outcome
      (.error (.raise e), ⟨{ c with pendingApply := some pending }, []⟩) := by
    intro e
    rw [putBack]
    exact .ran _ _ _ (by simp) (.rejected outcome) .refl (.inl h) (.inr (Ctx.unqueued_nil _))
  show Completed _ _ _ _ ((if pending.id ≠ id then _ else _ : StepM C Unit) _)
  split
  · exact rejected _
  next hid =>
  have hid : pending.id = id := by simpa using hid
  cases outcome with
  | applied through =>
    show Completed _ _ _ _ ((if through = pending.through then _ else _ : StepM C Unit) _)
    split
    · next hthrough =>
      subst hthrough
      have act := CompletionAct.applyDone (c := c) pending found hid
      have h₁ : (Ctx.answered ⟨{ c with
          pendingApply := none, appliedIndex := pending.through }, []⟩
          (fun index => index ≤ pending.through) .applied).core.WF :=
        { h with applied_le := h.applying pending found, applying := by rintro p ⟨⟩ }
      refine Completed.leads act h₁ (by simp [Ctx.Unqueued]) (m := do
        releaseReadRound; startPendingReads; emitApplyIfNeeded; maybeRequestLocalSnapshot) ?_
      have may : Cause.MayRelease ⟨c, .effectCompleted id (.applied pending.through)⟩ := by
        subst hid
        exact found
      refine Leads.bind keeps_wf h₁ (releaseReadRound_leads may) fun _ _ _ h₂ => ?_
      refine Leads.bind keeps_wf h₂ (startPendingReads_leads may h₂) fun _ _ _ h₃ => ?_
      exact Leads.bind keeps_wf h₃ (emitApplyIfNeeded_leads h₃) fun _ _ _ _ =>
        maybeRequestLocalSnapshot_leads
    · exact rejected _
  | failed => exact .halted _ _ rfl Halted.of_eq
  | _ => exact rejected _

omit [Sha256] in
theorem advanceCommit_short {s : Ctx C}
    (hk : ¬ s.core.config.quorum ≤ s.core.progress.keys.length + 1) :
    ((advanceCommit : StepM C Unit) s = (.error .panic, s)) ∨
      (advanceCommit : StepM C Unit) s = (.ok (), s) := by
  show (if s.core.pendingPersist.isSome = true then _ else _ : StepM C Unit) s = _ ∨
    (if s.core.pendingPersist.isSome = true then _ else _ : StepM C Unit) s = _
  split
  · exact .inr rfl
  · left
    have hlen : ((s.core.progress.values.map (·.matchIndex) ++ [s.core.log.lastIndex]).insertionSort
        (· ≤ ·)).length = s.core.progress.keys.length + 1 := by
      simp [BTreeMap.values, BTreeMap.keys]
    have hq : quorumCommit s.core.log s.core.progress s.core.config.quorum
        s.core.hardState.currentTerm = .error .panic := by
      unfold quorumCommit
      dsimp only
      rw [hlen, Outcome.sub, if_neg hk]
      rfl
    rw [hq]
    rfl

omit [Sha256] in
theorem FollowUps.followers {s s' : Ctx C} (hf : FollowUps cause s s') :
    s'.core.progress.keys = s.core.progress.keys ∧ s'.core.config = s.core.config := by
  induction hf with
  | refl => exact ⟨rfl, rfl⟩
  | tail _ hstep ih => exact ⟨hstep.followers.1.trans ih.1, hstep.followers.2.trans ih.2⟩

/-- The replication of a proposal: too few followers for a quorum make the commit rule
underflow. -/
theorem replicateProposal_completed {s : Ctx C} (h : s.core.WF) (quiet : s.Unqueued)
    (act : CompletionAct c id outcome s) (may : cause.MayCommit) (release : cause.MayRelease)
    (leading : s.core.role = .leader ∨ cause.Proposed)
    (gone : ¬ s.core.config.quorum ≤ s.core.progress.keys.length + 1 →
      FollowersGone c id outcome) :
    Completed cause c id outcome ((do
      replicateAll; advanceCommit; startPendingReads : StepM C Unit) s) := by
  by_cases hk : s.core.config.quorum ≤ s.core.progress.keys.length + 1
  · refine Completed.leads act h quiet (Leads.bind keeps_quorum ⟨h, hk, leading⟩
      (replicateAll_leads (.inl may) leading h) ?_)
    intro _ _ _ h₁
    exact Leads.bind keeps_quorum h₁ (advanceCommit_leads may h₁.2.2 h₁.1 h₁.2.1) fun _ _ _ h₂ =>
      startPendingReads_leads release h₂.1
  obtain ⟨hp, hr⟩ := @replicateAll_leads C cause _ (.inl may) leading h
  cases hrun : (replicateAll : StepM C Unit) s with
  | mk r s₁ =>
    rw [hrun] at hp hr
    cases r with
    | error f =>
      rw [bind_run_error hrun]
      exact .ran _ _ _ (by simpa using hp) act hr (.inl h) (.inr quiet)
    | ok u =>
      have hf := FollowUps.followers hr
      rw [bind_run_ok hrun]
      rcases advanceCommit_short (s := s₁) (by rw [hf.1, hf.2]; exact hk) with hc | hc
      · rw [bind_run_error hc]
        exact .panicked _ (.inr (.inr (.inl (gone hk))))
      · rw [bind_run_ok hc]
        obtain ⟨hp', hr'⟩ := @startPendingReads_leads C cause _ release (h.followUps hr)
        exact .ran _ _ _ hp' act (hr.trans hr') (.inl h) (.inr quiet)

/-- One turn of the loop in `initializeProgress`. -/
def insertFresh (next maxInflight : Nat) (node : NodeId) : StepM C Unit := do
  let progress ← liftPure (Progress.new next maxInflight)
  update fun c => { c with progress := c.progress.insert node progress }

omit [Sha256] in
theorem insertFresh_run {next maxInflight : Nat} (fits : maxInflight ≤ maxCapacity) (node : NodeId)
    (s : Ctx C) : insertFresh next maxInflight node s = (.ok (), { s with core := { s.core with
      progress := s.core.progress.insert node (Progress.fresh next maxInflight) } }) := by
  rw [insertFresh, Progress.new_eq_ok fits]
  rfl

omit [Sha256] in
/-- Every follower of a new leader gets a fresh record. -/
theorem insertFresh_all {next maxInflight : Nat} (fits : maxInflight ≤ maxCapacity)
    (nodes : List NodeId) (s : Ctx C) :
    Program.forEach (insertFresh next maxInflight) nodes s =
      (.ok (), { s with core := { s.core with
        progress := nodes.foldl (fun progress node =>
          progress.insert node (Progress.fresh next maxInflight)) s.core.progress } }) := by
  induction nodes generalizing s with
  | nil => rfl
  | cons node nodes ih =>
    show (_ >>= _ : StepM C Unit) s = _
    rw [bind_run_ok (insertFresh_run fits node s)]
    exact ih _

omit [Sha256] in
theorem initializeProgress_run {s : Ctx C} (h : s.core.log.lastIndex < u64Max) :
    (initializeProgress : StepM C Unit) s =
      Program.forEach (insertFresh (s.core.log.lastIndex + 1) s.core.config.maxInflightAppends)
        (s.core.config.members.filter (· ≠ s.core.config.localId))
        { s with core := { s.core with progress := .empty } } := by
  have next : (liftPure (expectNext s.core.log.lastIndex) : StepM C Nat) s =
      (.ok (s.core.log.lastIndex + 1), s) := by
    rw [expectNext_eq_ok h]
    rfl
  show (liftPure (expectNext s.core.log.lastIndex) >>= _ : StepM C Unit) s = _
  rw [bind_run_ok next]
  rfl

omit [Sha256] in
theorem insertFresh_panics {next maxInflight : Nat} (large : maxCapacity < maxInflight)
    (node : NodeId) (s : Ctx C) : insertFresh next maxInflight node s = (.error .panic, s) := by
  rw [insertFresh, Progress.new_panics large]
  rfl

omit [Sha256] in
theorem activateLeader_run (h : c.WF) (fits : c.config.maxInflightAppends ≤ maxCapacity ∨
    c.config.members.filter (· ≠ c.config.localId) = []) :
    (activateLeader : StepM C Unit) ⟨c, []⟩ =
      (do replicateAll; advanceCommit : StepM C Unit) ⟨c.activated, []⟩ := by
  have opened : (initializeProgress : StepM C Unit) ⟨{ c with
      role := .leader, votes := none, activeMembers := {c.config.localId} }, []⟩ =
      (.ok (), ⟨c.activated, []⟩) := by
    rw [initializeProgress_run h.log.lastIndex_lt]
    rcases fits with fits | alone
    · exact insertFresh_all fits _ _
    · simp only [alone, RaftCore.activated]
      rfl
  show ((initializeProgress : StepM C Unit) >>= _) _ = _
  rw [bind_run_ok opened]

omit [Sha256] in
/-- The queue of the first follower is too large. -/
theorem activateLeader_panics (h : c.WF) (large : maxCapacity < c.config.maxInflightAppends)
    (peers : c.config.members.filter (· ≠ c.config.localId) ≠ []) :
    ∃ s, (activateLeader : StepM C Unit) ⟨c, []⟩ = (.error .panic, s) := by
  obtain ⟨node, nodes, first⟩ := List.exists_cons_of_ne_nil peers
  obtain ⟨s, opened⟩ : ∃ s, (initializeProgress : StepM C Unit) ⟨{ c with
      role := .leader, votes := none, activeMembers := {c.config.localId} }, []⟩ =
      (.error .panic, s) := by
    rw [initializeProgress_run h.log.lastIndex_lt]
    simp only [first]
    exact ⟨_, bind_run_error (insertFresh_panics large node _) _⟩
  refine ⟨s, ?_⟩
  show ((initializeProgress : StepM C Unit) >>= _) _ = _
  rw [bind_run_error opened]

theorem continueWith_completed (h : c.WF)
    {stableThrough : Option Nat} {continuation : PersistContinuation}
    (found : c.pendingPersist = some ⟨id, stableThrough, continuation⟩) :
    Completed ⟨c, .effectCompleted id .persisted⟩ c id .persisted
      (continueWith continuation ⟨c.stabilized stableThrough, []⟩) := by
  have h₁ := h.stabilized stableThrough
  have act := @CompletionAct.persistDone C _ c id stableThrough continuation found
  cases continuation with
  | broadcastVoteRequests =>
    show Completed _ _ _ _ ((if c.votes.any QuorumTracker.hasQuorum = true then _ else _ :
      StepM C Unit) _)
    split
    · next hwon =>
      obtain ⟨votes, hv, won⟩ : ∃ votes, c.votes = some votes ∧ votes.hasQuorum = true := by
        cases hv : c.votes with
        | none => simp [hv] at hwon
        | some votes => exact ⟨votes, rfl, by simpa [hv] using hwon⟩
      rcases persistLeaderNoop_cases h₁ (h₁.votes (by
          show c.votes.isSome = true
          rw [hv]
          rfl)) with ⟨e, hrun⟩ | ⟨entry, next, noop, hrun⟩
      · rw [hrun]
        exact .ran _ _ _ (by simp) act .refl (.inl h₁) (.inr (Ctx.unqueued_nil _))
      · rw [hrun]
        have elected := CompletionAct.electedAlone (c := c) stableThrough votes entry found hv won
          ⟨next.index, next.term, next.terms, next.bound⟩ noop
        by_cases room : c.nextEffectSequence < u64Max
        · rw [queuePersist_run (by exact room)]
          exact .ran _ _ _ (by simp) elected .refl (.inr ⟨rfl, rfl⟩) (.inl rfl)
        · rw [queuePersist_overflow (by exact room)]
          exact .stuck _ _ (.queued _ _ _ room elected (.inr rfl) rfl rfl)
    · exact .ran _ _ _ (by simp) (.votesRequested stableThrough found) .refl (.inl h₁) (.inl rfl)
  | sendVoteResponse to_ term granted =>
    exact .ran _ _ _ (by simp) (.voteAnswered stableThrough to_ term granted found) .refl
      (.inl h₁) (.inl rfl)
  | sendAppendEntriesResponse to_ r =>
    show Completed _ _ _ _ ((emitApplyIfNeeded : StepM C Unit) ⟨c.stabilized stableThrough,
      [.sendMessage to_ (.appendEntriesResponse r.term r.success r.matchIndex r.conflict
        r.readContext)]⟩)
    exact .leads (.appendAnswered stableThrough to_ r found) h₁ (by simp [Ctx.Unqueued])
      (emitApplyIfNeeded_leads h₁)
  | replicateProposal =>
    have may : Cause.MayCommit ⟨c, .effectCompleted id .persisted⟩ := ⟨stableThrough, .inl found⟩
    refine replicateProposal_completed h₁ (Ctx.unqueued_nil _) act may
      ⟨stableThrough, _, found, .inl rfl⟩ (.inr ⟨stableThrough, found⟩) fun hk => ⟨rfl, ?_, stableThrough, found⟩
    exact Nat.not_le.mp hk
  | applyCommitted =>
    exact .leads act h₁ (Ctx.unqueued_nil _) (Leads.bind keeps_wf h₁ (emitApplyIfNeeded_leads h₁) fun _ _ _ h₂ =>
      startPendingReads_leads ⟨stableThrough, _, found, .inr rfl⟩ h₂)
  | activateLeader =>
    show Completed _ _ _ _ ((activateLeader : StepM C Unit) _)
    by_cases large : maxCapacity < c.config.maxInflightAppends ∧
        c.config.members.filter (· ≠ c.config.localId) ≠ []
    · obtain ⟨s, hrun⟩ := activateLeader_panics h₁ large.1 large.2
      rw [hrun]
      exact .panicked _ (.inr (.inr (.inr ⟨rfl, large.1, large.2, stableThrough, found⟩)))
    rw [activateLeader_run h₁ (by rwa [not_and_or, Nat.not_lt, not_not] at large)]
    have h₂ := h₁.activated
    have may : Cause.MayCommit ⟨c, .effectCompleted id .persisted⟩ := ⟨stableThrough, .inr found⟩
    refine .leads (.activated stableThrough found) h₂ (Ctx.unqueued_nil _) (Leads.bind keeps_quorum
      ⟨h₂, quorum_le _ (h₂.leads rfl), .inl rfl⟩ (replicateAll_leads (.inl may) (.inl rfl) h₂)
      fun _ _ _ h₃ => advanceCommit_leads may h₃.2.2 h₃.1 h₃.2.1)
  | none => exact .ran _ _ _ (by simp) act .refl (.inl h₁) (.inl rfl)

theorem onPersistCompletion_completed (h : c.WF) :
    Completed ⟨c, .effectCompleted id outcome⟩ c id outcome (onPersistCompletion id outcome ⟨c, []⟩) := by
  rw [onPersistCompletion, bind_run_ok (core_run _)]
  cases found : c.pendingPersist with
  | none => exact .ran _ _ _ (by simp) (.rejected outcome) .refl (.inl h) (.inr (Ctx.unqueued_nil _))
  | some pending =>
    have putBack : ({ c with pendingPersist := some pending } : RaftCore C) = c := by rw [← found]
    have rejected : ∀ e : StepError, Completed ⟨c, .effectCompleted id outcome⟩ c id outcome
        (.error (.raise e), ⟨{ c with pendingPersist := some pending }, []⟩) := by
      intro e
      rw [putBack]
      exact .ran _ _ _ (by simp) (.rejected outcome) .refl (.inl h) (.inr (Ctx.unqueued_nil _))
    obtain ⟨pid, stableThrough, continuation⟩ := pending
    show Completed _ _ _ _ ((if pid ≠ id then _ else _ : StepM C Unit) _)
    split
    · exact rejected _
    next hid =>
    have hid : pid = id := by simpa using hid
    subst hid
    cases outcome with
    | persisted =>
      cases stableThrough with
      | none => exact continueWith_completed h found
      | some index =>
        show Completed _ _ _ _ ((liftLog (c.log.markStable index) >>= _) _)
        cases hm : c.log.markStable index with
        | ok log =>
          obtain rfl := RaftLog.markStable_eq_ok hm
          exact continueWith_completed h found
        | error f =>
          cases f with
          | raise e =>
            exact .ran _ _ _ (by simp [Fault.map]) (.persistDropped _ _ found) .refl
              (.inl (h.congr rfl rfl rfl rfl rfl rfl rfl rfl rfl rfl rfl)) (.inr (Ctx.unqueued_nil _))
          | panic =>
            unfold RaftLog.markStable at hm
            split at hm <;> simp at hm
    | failed => exact .halted _ _ rfl Halted.of_eq
    | _ => exact rejected _

/-- One stage of the dispatcher: what the handler passes on goes to the next one. -/
theorem Handled.orElse {m : StepM C Bool} {k : StepM C Unit}
    (hm : Handled cause c id outcome (m ⟨c, []⟩))
    (hk : Completed cause c id outcome (k ⟨c, []⟩)) :
    Completed cause c id outcome ((do if ← m then pure () else k : StepM C Unit) ⟨c, []⟩) := by
  revert hm
  generalize hrun : m ⟨c, []⟩ = run
  intro hm
  cases hm with
  | passed => rw [bind_run_ok hrun]; exact hk
  | panicked s hgone => rw [bind_run_error hrun]; exact .panicked _ (hgone.imp_right .inl)
  | halted e c' stops hhalt => rw [bind_run_error hrun]; exact .halted _ _ stops hhalt
  | acted s s' act rest settled =>
    rw [bind_run_ok hrun]
    exact .ran _ _ _ (by simp) act rest (settled.imp_right fun hs => ⟨rfl, hs⟩) (.inl rfl)
  | failed s s' e act rest wf quiet =>
    rw [bind_run_error hrun]
    exact .ran _ _ _ (by simp) act rest (.inl wf) (.inr quiet)
  | stuck e s stuck => rw [bind_run_error hrun]; exact .stuck _ _ stuck

theorem onEffectCompleted_completed (id : EffectId) (outcome : EffectOutcome) (h : c.WF) :
    Completed ⟨c, .effectCompleted id outcome⟩ c id outcome (onEffectCompleted id outcome ⟨c, []⟩) := by
  show Completed _ _ _ _ ((if id.generation ≠ c.config.generation then _ else _ : StepM C Unit) _)
  split
  · exact .ran _ _ _ (by simp) (.rejected outcome) .refl (.inl h) (.inr (Ctx.unqueued_nil _))
  refine Handled.orElse (onOutgoingSnapshotCompletion_handled h) ?_
  refine Handled.orElse (onIncomingSnapshotCompletion_handled h) ?_
  refine Handled.orElse (onSnapshotCompletion_handled h) ?_
  rw [bind_run_ok (core_run _)]
  cases found : c.pendingApply with
  | some pending => exact onApplyCompletion_completed h found
  | none => exact onPersistCompletion_completed h

end Ruft
