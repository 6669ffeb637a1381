import Ruft.FollowUps

set_option autoImplicit false

/-!
# The handlers refine the transition relation

Run on a well-formed core, every handler does one of its acts and then follow-ups,
or the effect counter runs out in the middle of the act.

## Main results

- `process_sound` — what a running core can do on an event, and the completions on
  which it panics instead
- `step_cases` — the same for `step`
-/

namespace Ruft

open Program StepM

variable {C : Type} {cause : Cause C} {c : RaftCore C} {from_ : NodeId}

abbrev MessageSound (cause : Cause C) (c : RaftCore C) (from_ : NodeId) (m : Message C)
    (run : Outcome StepError Unit × Ctx C) : Prop :=
  Sound (MessageAct c from_ m) Ctx.Unqueued (Stuck c (MessageAct c from_ m)) (FollowUp cause) run

/-- A handler that ends with `queue_persist`. -/
theorem queuePersist_sound {A : Ctx C → Prop} {d : RaftCore C} {batch : PersistBatch C}
    {continuation : PersistContinuation} (act : A (Ctx.queued ⟨d, []⟩ batch continuation))
    (slots : d.slots = c.slots) (config : d.config = c.config)
    (counter : d.nextEffectSequence = c.nextEffectSequence) :
    Sound A Ctx.Unqueued (Stuck c A) (FollowUp cause)
      (queuePersist batch continuation ⟨d, []⟩) := by
  by_cases room : d.nextEffectSequence < u64Max
  · rw [queuePersist_run (by exact room)]
    exact .ok act
  · rw [queuePersist_overflow (by exact room)]
    exact .stuck (.queued d batch continuation (counter ▸ room) act (.inl slots) config counter)

/-! ## Elections -/

theorem beginTermTransition_sound {m : Message C}
    {term : Nat} (is : m.responseTerm = some term) (newer : c.hardState.currentTerm < term) :
    MessageSound cause c from_ m (beginTermTransition term .none ⟨c, []⟩) :=
  queuePersist_sound (d := c.termRaised term) (.termRaised m term is newer) rfl rfl rfl

theorem onVoteRequest_sound (term index logTerm : Nat) :
    MessageSound cause c from_ (.requestVote term index logTerm)
      (onVoteRequest from_ term index logTerm ⟨c, []⟩) := by
  show MessageSound _ _ _ _ ((if term < c.hardState.currentTerm then _ else _ : StepM C Unit) _)
  split
  · exact .ok (.refused _ _ .vote)
  next hge =>
  show MessageSound _ _ _ _ ((if c.hardState.currentTerm < term then _ else _ : StepM C Unit) _)
  split
  · next newer =>
    rw [bind_run_ok (update_run _ _)]
    exact queuePersist_sound (.voteNewer term index logTerm newer _ _ rfl rfl) rfl rfl rfl
  next hle =>
  have same : c.hardState.currentTerm = term := by omega
  show MessageSound _ _ _ _ ((if _ ∧ c.hardState.votedFor = none then _ else _ : StepM C Unit) _)
  split
  · next hg =>
    obtain ⟨granted, free⟩ := hg
    have current : isLogUpToDate index logTerm c.lastLogIndex c.lastLogTerm = true := by
      simpa [free] using granted
    rw [bind_run_ok (update_run _ _)]
    simp only [current, free, Option.all_none, Bool.and_self]
    exact queuePersist_sound (.voteFirst term index logTerm same free current) rfl rfl rfl
  · next hng =>
    cases hg : isLogUpToDate index logTerm c.lastLogIndex c.lastLogTerm &&
        c.hardState.votedFor.all (· == from_) with
    | false => exact .ok (.refused _ _ (same ▸ .vote))
    | true =>
      simp only [Bool.and_eq_true] at hg
      obtain ⟨current, hall⟩ := hg
      have voted : c.hardState.votedFor = some from_ := by
        cases hv : c.hardState.votedFor with
        | none => exact absurd ⟨by simp [current, hv], hv⟩ hng
        | some n => simpa [hv] using hall
      exact .ok (.voteAgain term index logTerm same voted current)

theorem becomeCandidate_run (term : c.hardState.currentTerm < u64Max) :
    (becomeCandidate : StepM C Unit) ⟨c, []⟩ = queuePersist
      ⟨some c.candidacy.hardState, [], none⟩ .broadcastVoteRequests ⟨c.candidacy, []⟩ := by
  show (liftNext c.hardState.currentTerm >>= _) _ = _
  rw [liftNext_ok term]
  rfl

theorem becomeCandidate_overflow (term : ¬ c.hardState.currentTerm < u64Max) :
    (becomeCandidate : StepM C Unit) ⟨c, []⟩ =
      (.error (.raise (.arithmetic .overflow)), ⟨c, []⟩) := by
  show (liftNext c.hardState.currentTerm >>= _) _ = _
  rw [liftNext_overflow term]
  rfl

/-- An entry that the log accepted after its last one. -/
theorem RaftCore.WF.continues (h : c.WF) {entry : Entry C} {log : RaftLog C}
    (index : entry.index = c.lastLogIndex + 1) (term : entry.term = c.hardState.currentTerm)
    (append : c.log.append [entry] = .ok log) : entry.Continues c ∧ log = { c.log with
      entries := c.log.entries ++ [entry]
      unstable := c.log.unstable.markRange entry.index entry.index } := by
  obtain ⟨hlog, hwf⟩ := h.log.append append
  have hl := h.log.lastIndex
  have hi := h.lastLogIndex
  refine ⟨⟨by omega, term, ?_, ?_⟩, hlog⟩
  · have := hwf.terms
    rw [hlog] at this
    exact (TermsFrom.append.mp this).2.1
  · have := hwf.bound
    rw [hlog] at this
    simp only [RaftLog.snapshotIndex, List.length_append, List.length_singleton] at this hl
    omega

theorem persistLeaderNoop_cases (h : c.WF)
    (term : 0 < c.hardState.currentTerm) :
    (∃ e, (persistLeaderNoop : StepM C Unit) ⟨c, []⟩ = (.error (.raise e), ⟨c, []⟩)) ∨
    ∃ entry : Entry C, entry.Continues c ∧ entry.payload = .leaderNoop ∧
      (persistLeaderNoop : StepM C Unit) ⟨c, []⟩ =
        queuePersist ⟨none, [entry], none⟩ .activateLeader ⟨c.noopAppended entry, []⟩ := by
  have hlt : c.lastLogIndex < u64Max := h.lastLogIndex ▸ h.log.lastIndex_lt
  have hentry : (Entry.leaderNoop (C := C) (c.lastLogIndex + 1) c.hardState.currentTerm).toOption =
      some ⟨c.lastLogIndex + 1, c.hardState.currentTerm, 0, .leaderNoop, Nat.succ_pos _, term⟩ := by
    simp [Entry.leaderNoop, term, Except.toOption]
  generalize he : (⟨c.lastLogIndex + 1, c.hardState.currentTerm, 0, .leaderNoop, Nat.succ_pos _,
    term⟩ : Entry C) = entry at hentry
  have hrun : (persistLeaderNoop : StepM C Unit) ⟨c, []⟩ =
      (liftLog (c.log.append [entry]) >>= fun log => do
        update fun c => { c with
          log := log
          lastLogIndex := entry.index
          lastLogTerm := c.hardState.currentTerm
          leaderNoopIndex := some entry.index }
        queuePersist ⟨none, [entry], none⟩ .activateLeader : StepM C Unit) ⟨c, []⟩ := by
    show (liftNext c.lastLogIndex >>= _) _ = _
    rw [liftNext_ok hlt]
    show (Program.expect _ >>= _) _ = _
    rw [hentry, ← he]
    rfl
  rw [hrun]
  cases ha : c.log.append [entry] with
  | error f =>
    cases f with
    | raise e => exact .inl ⟨.log e, rfl⟩
    | panic => exact absurd ha h.log.append_ne_panic
  | ok log =>
    obtain ⟨next, rfl⟩ := h.continues (by rw [← he]) (by rw [← he]) ha
    refine .inr ⟨entry, next, by rw [← he], ?_⟩
    simp only [RaftCore.noopAppended, next.term]
    rfl

theorem onPreVoteResponse_sound (term : Nat)
    (granted : Bool) : MessageSound cause c from_ (.preVoteResponse term granted)
      (onPreVoteResponse from_ term granted ⟨c, []⟩) := by
  show MessageSound _ _ _ _ ((if c.hardState.currentTerm < term then _ else _ : StepM C Unit) _)
  split
  · next newer => exact beginTermTransition_sound rfl newer
  next hreached =>
  have reached : term ≤ c.hardState.currentTerm := Nat.le_of_not_lt hreached
  split
  · exact .ok (.ignored _)
  next hrole =>
  have hrole : c.role = .preCandidate := by simpa using hrole
  cases hv : c.preVotes with
  | none => exact .ok (.ignored _)
  | some votes =>
    dsimp only
    rw [bind_run_ok (update_run _ _)]
    have counted : MessageAct c from_ (.preVoteResponse term granted)
        ⟨{ c with preVotes := some (votes.record from_ granted) }, []⟩ :=
      .preVoteCounted term granted _ c.role (.inl ⟨rfl, rfl⟩) hrole reached
        (by rintro tracker ⟨⟩; exact ⟨votes, hv, rfl⟩)
    split
    · by_cases hterm : c.hardState.currentTerm < u64Max
      · rw [becomeCandidate_run (by exact hterm)]
        exact queuePersist_sound (.campaigned term granted votes hrole hv (by assumption) reached)
          rfl rfl rfl
      · rw [becomeCandidate_overflow (by exact hterm)]
        exact .error counted (Ctx.unqueued_nil _)
    · split
      · exact .ok (.preVoteCounted term granted none .follower (.inr ⟨rfl, rfl⟩) hrole reached (by simp))
      · exact .ok counted

theorem onVoteResponse_sound (h : c.WF) (term : Nat)
    (granted : Bool) : MessageSound cause c from_ (.voteResponse term granted)
      (onVoteResponse from_ term granted ⟨c, []⟩) := by
  show MessageSound _ _ _ _ ((if c.hardState.currentTerm < term then _ else _ : StepM C Unit) _)
  split
  · next newer => exact beginTermTransition_sound rfl newer
  split
  · exact .ok (.ignored _)
  next hguard =>
  simp only [not_or, ne_eq, not_not] at hguard
  obtain ⟨same, candidate⟩ := hguard
  cases hv : c.votes with
  | none => exact .ok (.ignored _)
  | some votes =>
    dsimp only
    rw [bind_run_ok (update_run _ _)]
    have counted := @MessageAct.voteCounted C _ from_ term granted votes same candidate hv
    split
    · next won =>
      have h₁ : ({ c with votes := some (votes.record from_ granted) }).WF :=
        { h with votes := fun _ => h.votes (by rw [hv]; rfl) }
      rcases persistLeaderNoop_cases h₁ (h₁.votes rfl) with
        ⟨e, hrun⟩ | ⟨entry, next, noop, hrun⟩
      · rw [hrun]
        exact .error counted (Ctx.unqueued_nil _)
      · rw [hrun]
        exact queuePersist_sound (.elected term granted votes entry same candidate hv won
          ⟨next.index, next.term, next.terms, next.bound⟩ noop) rfl rfl rfl
    · split
      · exact .ok (.voteLost term granted candidate)
      · exact .ok counted

/-! ## AppendEntries -/

theorem validatePrefix_cases {log : RaftLog C} (h : log.WF) (prev prevTerm : Nat) :
    (validatePrefix log prev prevTerm = .ok .match_ ∧ log.term prev = .ok prevTerm) ∨
    ∃ hint, validatePrefix log prev prevTerm = .ok (.reject hint) ∧
      log.term prev ≠ .ok prevTerm := by
  unfold validatePrefix
  rcases h.index_cases prev with hi | rfl | ⟨e, he⟩ | hi
  · rw [h.term_lt hi]
    exact .inr ⟨_, by simp only [h.firstIndex, bind, Except.bind]; rfl, by simp⟩
  · rw [h.term_snapshot]
    by_cases ht : log.snapshotTerm = prevTerm
    · exact .inl ⟨by simp [ht], by rw [ht]⟩
    · exact .inr ⟨_, by simp only [if_neg ht]; rfl, by simpa using ht⟩
  · rw [h.term_entry he]
    by_cases ht : e.term = prevTerm
    · exact .inl ⟨by simp [ht], by rw [ht]⟩
    · exact .inr ⟨_, by simp only [if_neg ht]; rfl, by simpa using ht⟩
  · rw [h.term_gt hi]
    exact .inr ⟨_, by simp only [checkedNextOr_eq_ok _ h.lastIndex_lt, bind, Except.bind]; rfl,
      by simp⟩

/-- What `mergeAppend` does on a core whose log is well formed. -/
theorem mergeAppend_cases (h : c.log.WF) (prev prevTerm leaderCommit : Nat)
    (entries : List (Entry C)) :
    (∃ e, mergeAppend prev prevTerm leaderCommit entries ⟨c, []⟩ = (.error (.raise e), ⟨c, []⟩) ∧
      c.log.term prev = .ok prevTerm ∧ ∃ e, c.log.mergeFromLeader entries = Outcome.raise e) ∨
    (∃ hint, mergeAppend prev prevTerm leaderCommit entries ⟨c, []⟩ =
      (.ok (false, some hint, []), ⟨c, []⟩) ∧ c.log.term prev ≠ .ok prevTerm) ∨
    ∃ log appended, c.log.term prev = .ok prevTerm ∧
      c.log.mergeFromLeader entries = .ok (log, appended) ∧ c.log.Merged entries log appended ∧ log.WF ∧
      mergeAppend prev prevTerm leaderCommit entries ⟨c, []⟩ = (.ok (true, none, appended),
        ⟨{ c with
          log := { log with committed := max log.committed (min leaderCommit log.lastIndex) }
          lastLogIndex := log.lastIndex
          lastLogTerm := lastTermFrom log.snapshotTerm log.entries }, []⟩) := by
  rcases validatePrefix_cases h prev prevTerm with ⟨hp, hterm⟩ | ⟨hint, hp, hne⟩
  · rcases h.mergeFromLeader entries with ⟨err, hm⟩ | ⟨log, appended, hm, merge, wf⟩
    · refine .inl ⟨.log err, ?_, hterm, err, hm⟩
      show (liftLog (validatePrefix c.log prev prevTerm) >>= _) _ = _
      rw [hp]
      show (liftLog (c.log.mergeFromLeader entries) >>= _) _ = _
      rw [hm]
      rfl
    · refine .inr (.inr ⟨log, appended, hterm, hm, merge, wf, ?_⟩)
      show (liftLog (validatePrefix c.log prev prevTerm) >>= _) _ = _
      rw [hp]
      show (liftLog (c.log.mergeFromLeader entries) >>= _) _ = _
      rw [hm]
      show (liftLog (log.commitTo (min leaderCommit log.lastIndex)) >>= _) _ = _
      rw [RaftLog.commitTo_min]
      have wf' : ({ log with committed := max log.committed (min leaderCommit log.lastIndex) }).WF :=
        wf.congr rfl rfl
      show (liftLog (RaftLog.term _ _) >>= _) _ = _
      rw [wf'.term_lastIndex]
      rfl
  · refine .inr (.inl ⟨hint, ?_, hne⟩)
    show (liftLog (validatePrefix c.log prev prevTerm) >>= _) _ = _
    rw [hp]
    rfl

theorem RaftLog.Merged.committed_eq {log log' : RaftLog C} {incoming appended : List (Entry C)}
    (h : log.Merged incoming log' appended) : log'.committed = log.committed := by
  cases h <;> rfl

/-- The last part of `on_append_entries`, after the merge. -/
def answerAppend (from_ : NodeId) (currentTerm term prev : Nat) (context : Option Bytes)
    (result : Bool × Option ConflictHint × List (Entry C)) : StepM C Unit := do
  let termChanged : Bool := currentTerm < term
  let (success, conflict, appended) := result
  let c ← core
  let commitChanged : Bool := c.hardState.commitIndex ≠ c.log.committed
  if termChanged ∨ commitChanged then
    update fun c => { c with hardState := ⟨term,
      if termChanged then none else c.hardState.votedFor, c.log.committed⟩ }
  let c ← core
  let response : AppendResponse := ⟨c.hardState.currentTerm, success, conflict,
    if success then c.log.lastIndex else prev, context⟩
  if termChanged ∨ commitChanged ∨ appended ≠ [] then
    queuePersist ⟨if termChanged ∨ commitChanged then some c.hardState else none, appended, none⟩
      (.sendAppendEntriesResponse from_ response)
  else sendAppendEntriesResponse from_ response

theorem onAppendEntries_run {term prev prevTerm leaderCommit : Nat} {context : Option Bytes}
    {entries : List (Entry C)} (reached : c.hardState.currentTerm ≤ term) :
    onAppendEntries from_ term prev prevTerm leaderCommit context entries ⟨c, []⟩ =
      (mergeAppend prev prevTerm leaderCommit entries >>=
        answerAppend from_ c.hardState.currentTerm term prev context) ⟨c.becomeFollower, []⟩ := by
  show (if term < c.hardState.currentTerm then _ else _ : StepM C Unit) _ = _
  rw [if_neg (Nat.not_lt.mpr reached)]
  rfl

/-- The answer when the hard state has to change. -/
theorem answerAppend_changed {currentTerm term prev : Nat}
    {context : Option Bytes} {success : Bool} {conflict : Option ConflictHint}
    {appended : List (Entry C)}
    (changed : currentTerm < term ∨ c.hardState.commitIndex ≠ c.log.committed) :
    answerAppend from_ currentTerm term prev context (success, conflict, appended) ⟨c, []⟩ =
      queuePersist
        ⟨some ⟨term, if currentTerm < term then none else c.hardState.votedFor, c.log.committed⟩,
          appended, none⟩
        (.sendAppendEntriesResponse from_ ⟨term, success, conflict,
          if success then c.log.lastIndex else prev, context⟩)
        ⟨{ c with hardState := ⟨term,
          if currentTerm < term then none else c.hardState.votedFor, c.log.committed⟩ }, []⟩ := by
  have hb : (decide (currentTerm < term) = true ∨
      decide (c.hardState.commitIndex ≠ c.log.committed) = true) := by simpa using changed
  simp only [answerAppend]
  show (if _ then _ else _ : StepM C Unit) _ = _
  rw [if_pos hb]
  rw [bind_run_ok (update_run _ _)]
  show (if _ then _ else _ : StepM C Unit) _ = _
  rw [if_pos (by tauto), if_pos hb]
  simp only [decide_eq_true_eq]

/-- The answer when the hard state stays as it is. -/
theorem answerAppend_unchanged {currentTerm term prev : Nat}
    {context : Option Bytes} {success : Bool} {conflict : Option ConflictHint}
    {appended : List (Entry C)} (same : ¬ currentTerm < term)
    (committed : c.hardState.commitIndex = c.log.committed) :
    answerAppend from_ currentTerm term prev context (success, conflict, appended) ⟨c, []⟩ =
      if appended ≠ [] then queuePersist ⟨none, appended, none⟩
        (.sendAppendEntriesResponse from_ ⟨c.hardState.currentTerm, success, conflict,
          if success then c.log.lastIndex else prev, context⟩) ⟨c, []⟩
      else (.ok (), ⟨c, [.sendMessage from_ (.appendEntriesResponse c.hardState.currentTerm success
        (if success then c.log.lastIndex else prev) conflict context)]⟩) := by
  have hb : ¬ (decide (currentTerm < term) = true ∨
      decide (c.hardState.commitIndex ≠ c.log.committed) = true) := by simp [same, committed]
  simp only [answerAppend]
  show (if _ then _ else _ : StepM C Unit) _ = _
  rw [if_neg hb]
  show (if _ then _ else _ : StepM C Unit) _ = _
  by_cases happ : appended ≠ []
  · rw [if_pos happ, if_pos (show _ ∨ _ ∨ appended ≠ [] from .inr (.inr happ)), if_neg hb]
  · have hnone : ¬ (decide (currentTerm < term) = true ∨
        decide (c.hardState.commitIndex ≠ c.log.committed) = true ∨ appended ≠ []) :=
      fun hor => hor.elim (fun ha => hb (.inl ha)) fun hor => hor.elim (fun ha => hb (.inr ha)) happ
    rw [if_neg happ, if_neg hnone]
    rfl

/-- What `on_append_entries` does once the prefix has matched and the entries are merged. -/
theorem onAppendEntries_merged (h : c.WF) {term prev prevTerm leaderCommit : Nat}
    {context : Option Bytes} {entries appended : List (Entry C)} {log : RaftLog C}
    (reached : c.hardState.currentTerm ≤ term)
    (merge : c.log.Merged entries log appended)
    (hm : mergeAppend prev prevTerm leaderCommit entries ⟨c.becomeFollower, []⟩ =
      (.ok (true, none, appended), ⟨{ c.becomeFollower with
        log := { log with committed := max log.committed (min leaderCommit log.lastIndex) }
        lastLogIndex := log.lastIndex
        lastLogTerm := lastTermFrom log.snapshotTerm log.entries }, []⟩)) :
    (c.hardState.currentTerm = term ∧ log = c.log ∧
      (∀ e ∈ entries, c.log.term e.index = .ok e.term) ∧
      min leaderCommit c.log.lastIndex ≤ c.log.committed ∧
      onAppendEntries from_ term prev prevTerm leaderCommit context entries ⟨c, []⟩ =
        (.ok (), ⟨c.becomeFollower, [.sendMessage from_
          (.appendEntriesResponse term true c.log.lastIndex none context)]⟩)) ∨
    ∃ hardState, (c.hardState.currentTerm < term ∨ appended ≠ [] ∨
        c.log.committed < min leaderCommit log.lastIndex) ∧
      (hardState = if c.hardState.currentTerm < term ∨
          c.log.committed < min leaderCommit log.lastIndex then
        some (c.merged term leaderCommit log).hardState else none) ∧
      onAppendEntries from_ term prev prevTerm leaderCommit context entries ⟨c, []⟩ =
        queuePersist ⟨hardState, appended, none⟩
          (.sendAppendEntriesResponse from_ ⟨term, true, none, log.lastIndex, context⟩)
          ⟨c.merged term leaderCommit log, []⟩ := by
  have hcom := h.committed
  have hlc := merge.committed_eq
  have hcomm : c.hardState.commitIndex = log.committed := by rw [hlc, hcom]
  rw [onAppendEntries_run reached, bind_run_ok hm]
  by_cases hchange : c.hardState.currentTerm < term ∨
      log.committed < min leaderCommit log.lastIndex
  · have hpers : c.hardState.currentTerm < term ∨
        c.log.committed < min leaderCommit log.lastIndex := by rwa [hcom, hcomm]
    rw [answerAppend_changed (by
      rcases hchange with ht | ht
      · exact .inl ht
      · exact .inr (by simp only [RaftCore.becomeFollower]; omega))]
    exact .inr ⟨some (c.merged term leaderCommit log).hardState, hpers.imp_right .inr,
      by rw [if_pos hpers], rfl⟩
  · simp only [not_or, Nat.not_lt] at hchange
    have same : c.hardState.currentTerm = term := by omega
    have hmax : max log.committed (min leaderCommit log.lastIndex) = log.committed := by omega
    rw [answerAppend_unchanged (by omega) (by rw [hmax]; exact hcomm)]
    split
    · next happ =>
      have hhs : HardState.mk term (if c.hardState.currentTerm < term then none
          else c.hardState.votedFor) (max log.committed (min leaderCommit log.lastIndex)) =
          c.hardState := by
        rw [if_neg (by omega), hmax, ← hcomm, ← same]
      have hmerged : c.merged term leaderCommit log = { c.becomeFollower with
          log := { log with committed := max log.committed (min leaderCommit log.lastIndex) }
          lastLogIndex := log.lastIndex
          lastLogTerm := lastTermFrom log.snapshotTerm log.entries } := by
        unfold RaftCore.merged
        rw [hhs]
        rfl
      refine .inr ⟨none, .inr (.inl happ), by rw [if_neg (by rw [hcom, hcomm]; omega)], ?_⟩
      rw [hmerged, ← same]
      rfl
    · next happ =>
      have happ : appended = [] := by simpa using happ
      cases merge with
      | changed => simp at happ
      | same held =>
        have hcore : ({ c.becomeFollower with
            log := { c.log with
              committed := max c.log.committed (min leaderCommit c.log.lastIndex) }
            lastLogIndex := c.log.lastIndex
            lastLogTerm := lastTermFrom c.log.snapshotTerm c.log.entries } : RaftCore C) =
            c.becomeFollower := by
          rw [hmax]
          simp only [RaftCore.becomeFollower, ← h.lastLogIndex, ← h.lastLogTerm]
        refine .inl ⟨same, rfl, held, hchange.2, ?_⟩
        rw [hcore, show c.becomeFollower.hardState.currentTerm = term from same]
        rfl

theorem onAppendEntries_sound (h : c.WF)
    (term prev prevTerm leaderCommit : Nat) (context : Option Bytes) (entries : List (Entry C)) :
    MessageSound cause c from_ (.appendEntries term prev prevTerm leaderCommit context entries)
      (onAppendEntries from_ term prev prevTerm leaderCommit context entries ⟨c, []⟩) := by
  by_cases hstale : term < c.hardState.currentTerm
  · show MessageSound _ _ _ _ ((if term < c.hardState.currentTerm then _ else _ : StepM C Unit) _)
    rw [if_pos hstale]
    exact .ok (.refused _ _ (.append _ _ _))
  have reached : c.hardState.currentTerm ≤ term := Nat.not_lt.mp hstale
  have hcom := h.committed
  rcases mergeAppend_cases (c := c.becomeFollower) h.log prev prevTerm leaderCommit entries with
    ⟨e, hm, hprefix, failed⟩ | ⟨hint, hm, -⟩ | ⟨log, appended, hprefix, hmerge, merge, wf, hm⟩
  · rw [onAppendEntries_run reached, bind_run_error hm]
    exact .error (.appendFailed _ _ _ _ _ _ reached hprefix failed) (Ctx.unqueued_nil _)
  · rw [onAppendEntries_run reached, bind_run_ok hm]
    by_cases newer : c.hardState.currentTerm < term
    · rw [answerAppend_changed (.inl newer)]
      simp only [newer, if_true, Bool.false_eq_true, if_false]
      have := @MessageAct.appendRejected C c from_ term prev prevTerm leaderCommit
        context entries newer hint
      simp only [RaftCore.termRaised, ← hcom] at this
      exact queuePersist_sound this rfl rfl rfl
    · have same : c.hardState.currentTerm = term := by omega
      rw [answerAppend_unchanged newer (by exact hcom.symm)]
      exact .ok (.appendRefused _ _ _ _ _ _ same _ (.append _ _ _))
  · rcases onAppendEntries_merged h reached merge hm with
      ⟨same, -, held, committed, run⟩ | ⟨hardState, changed, persisted, run⟩
    · rw [run]
      exact .ok (.appendHeld term prev prevTerm leaderCommit context entries same hprefix held
        committed)
    · rw [run]
      exact queuePersist_sound (.appendAccepted term prev prevTerm leaderCommit context entries log
        appended hardState reached hprefix hmerge merge wf changed persisted) rfl rfl rfl

/-! ## Responses of followers -/

theorem Progress.acknowledged_cases {ε : Type} (p : Progress) {index : Nat} (hi : index < u64Max)
    (hp : 0 < p.nextIndex) : ∃ q changed,
      (p.acknowledged index : Outcome ε _) = .ok (q, changed) ∧
      (q.matchIndex = p.matchIndex ∨ q.matchIndex = index) ∧ 0 < q.nextIndex := by
  unfold Progress.acknowledged
  dsimp only
  split
  · exact ⟨_, _, rfl, .inl rfl, hp⟩
  · simp only [expectNext_eq_ok hi, bind, Except.bind]
    refine ⟨_, _, rfl, .inr rfl, ?_⟩
    dsimp only
    split
    · exact Nat.succ_pos index
    · exact hp

theorem Progress.reject_cases {ε : Type} (p : Progress) (rejected next : Nat)
    (hp : 0 < p.nextIndex) (hm : p.matchIndex < u64Max) : ∃ q changed,
      (p.reject rejected next : Outcome ε _) = .ok (q, changed) ∧
      q.matchIndex = p.matchIndex ∧ 0 < q.nextIndex := by
  unfold Progress.reject
  simp only [expectNext_eq_ok hm, bind, Except.bind]
  have hpos : 0 < max next (p.matchIndex + 1) :=
    lt_of_lt_of_le (Nat.succ_pos p.matchIndex) (le_max_right _ _)
  cases checkedNext rejected with
  | error e => exact ⟨_, _, rfl, rfl, hpos⟩
  | ok n =>
    dsimp only
    split
    · exact ⟨_, _, rfl, rfl, hp⟩
    · exact ⟨_, _, rfl, rfl, hpos⟩

theorem lastIndexOfTerm_lt {log : RaftLog C} (h : log.WF) {t i : Nat}
    (hi : log.lastIndexOfTerm t = some i) : i < u64Max := by
  have hlast := h.lastIndex_lt
  have hl := h.lastIndex
  unfold RaftLog.lastIndexOfTerm at hi
  cases hf : log.entries.reverse.find? (·.term == t) with
  | some e =>
    have := h.mem_index_le (List.mem_reverse.mp (List.mem_of_find?_eq_some hf))
    simp only [hf, Option.map_some, Option.some_or, Option.some.injEq] at hi
    omega
  | none =>
    simp only [hf, Option.map_none, Option.none_or] at hi
    cases hs : log.snapshot with
    | none => simp [hs] at hi
    | some record =>
      have : log.snapshotIndex = record.metadata.index := by simp [RaftLog.snapshotIndex, hs]
      simp only [hs, Option.bind_some] at hi
      split at hi
      · simp only [Option.some.injEq] at hi; omega
      · simp at hi

theorem rejectedNext_ok {log : RaftLog C} (h : log.WF) (hint : ConflictHint) :
    ∃ next, rejectedNext log hint = .ok next := by
  unfold rejectedNext
  cases hb : hint.term.bind log.lastIndexOfTerm with
  | none => exact ⟨_, rfl⟩
  | some i =>
    obtain ⟨t, -, hi⟩ := Option.bind_eq_some_iff.mp hb
    exact ⟨_, checkedNextOr_eq_ok _ (lastIndexOfTerm_lt h hi)⟩

theorem quorum_le (config : Config) {keys : List NodeId}
    (h : keys = config.members.filter (· ≠ config.localId)) : config.quorum ≤ keys.length + 1 := by
  have hnd : config.members.Nodup := config.members_sorted.imp (fun hab => Nat.ne_of_lt hab)
  have hlen : keys.length + 1 = config.members.length := by
    have hfilter : config.members.filter (· ≠ config.localId) =
        config.members.erase config.localId := by
      rw [hnd.erase_eq_filter]
      exact List.filter_congr fun n _ => by simp [bne, Bool.beq_eq_decide_eq]
    rw [h, hfilter, List.length_erase_of_mem config.local_mem]
    have := List.length_pos_of_mem config.local_mem
    omega
  rw [config.quorum_eq, hlen]
  have := List.length_pos_of_mem config.local_mem
  omega

/-- What follows the progress update of `on_append_entries_response`. -/
def afterResponse (from_ : NodeId) (success : Bool) (readContext : Option Bytes) (changed : Bool) :
    StepM C Unit := do
  match readContext with
  | some context => if success then acknowledgeReadContext from_ context else pure ()
  | none => pure ()
  if changed then do
    replicateTo from_
    advanceCommit
  else pure ()

/-- Follow-ups bind no new follower. -/
theorem FollowUp.followers {s s' : Ctx C} (hf : FollowUp cause s s') :
    s'.core.progress.keys = s.core.progress.keys ∧ s'.core.config = s.core.config := by
  cases hf with
  | appendSent to_ p q prev prevTerm entries found =>
    exact ⟨BTreeMap.keys_insert found, rfl⟩
  | snapshotEntered to_ p found => exact ⟨BTreeMap.keys_insert found, rfl⟩
  | readStarted =>
    unfold Ctx.roundStarted
    dsimp only
    split <;> exact ⟨rfl, rfl⟩
  | _ => exact ⟨rfl, rfl⟩

theorem keeps_quorum (s s' : Ctx C)
    (h : s.core.WF ∧ s.core.config.quorum ≤ s.core.progress.keys.length + 1 ∧
      (s.core.role = .leader ∨ cause.Proposed))
    (hf : FollowUp cause s s') :
    s'.core.WF ∧ s'.core.config.quorum ≤ s'.core.progress.keys.length + 1 ∧
      (s'.core.role = .leader ∨ cause.Proposed) := by
  refine ⟨h.1.followUp hf, ?_, h.2.2.imp_left hf.frame.role.trans⟩
  rw [hf.followers.1, hf.followers.2]
  exact h.2.1

theorem keeps_leader (s s' : Ctx C) (h : s.core.WF ∧ s.core.role = .leader)
    (hf : FollowUp cause s s') : s'.core.WF ∧ s'.core.role = .leader :=
  ⟨h.1.followUp hf, hf.frame.role.trans h.2⟩

theorem afterResponse_leads {s : Ctx C} (h : s.core.WF) {envelope : Envelope C}
    {term matchIndex : Nat} {success : Bool} {conflict : Option ConflictHint}
    {readContext : Option Bytes} {changed : Bool} (may : cause.MayCommit)
    (is : cause.event = .messageReceived envelope)
    (message : envelope.message =
      .appendEntriesResponse term success matchIndex conflict readContext)
    (leader : s.core.role = .leader) (current : term = s.core.hardState.currentTerm) :
    Leads (FollowUp cause)
      (afterResponse envelope.from_ success readContext changed : StepM C Unit) s := by
  have hrest : ∀ s : Ctx C, (s.core.WF ∧ s.core.role = .leader) →
      Leads (FollowUp cause) (if changed then do replicateTo envelope.from_; advanceCommit
        else pure () : StepM C Unit) s := by
    intro s hs
    split
    · exact Leads.bind keeps_leader hs (replicateTo_leads _ (.inl may) (.inl hs.2) hs.1)
        fun _ s _ hs' =>
          advanceCommit_leads may (.inl hs'.2) hs'.1 (quorum_le s.core.config (hs'.1.leads hs'.2))
    · exact .pure ()
  cases readContext with
  | none => exact Leads.bind keeps_leader ⟨h, leader⟩ (.pure ()) fun _ _ _ hs' => hrest _ hs'
  | some context =>
    cases success with
    | false => exact Leads.bind keeps_leader ⟨h, leader⟩ (.pure ()) fun _ _ _ hs' => hrest _ hs'
    | true =>
      exact Leads.bind keeps_leader ⟨h, leader⟩
        (acknowledgeReadContext_leads h is message leader current) fun _ _ _ hs' => hrest _ hs'

theorem onAppendEntriesResponse_run {term matchIndex : Nat} {success : Bool}
    {conflict : Option ConflictHint} {readContext : Option Bytes} {p : Progress}
    (older : ¬ c.hardState.currentTerm < term)
    (current : ¬ (c.role ≠ .leader ∨ term ≠ c.hardState.currentTerm)) {next : Option Nat}
    (hnext : (success = true ∧ next = none) ∨ (success = false ∧
      ∃ n, next = some n ∧ rejectedNext c.log (conflict.getD ⟨matchIndex, none⟩) = .ok n))
    (found : c.progress.get from_ = some p) :
    onAppendEntriesResponse from_ term success matchIndex conflict readContext ⟨c, []⟩ =
      (liftPure (next.elim (p.acknowledged (min matchIndex c.log.lastIndex))
        (p.reject matchIndex)) >>= fun r => do
          update fun c => { c with progress := c.progress.insert from_ r.1 }
          afterResponse from_ success readContext r.2 : StepM C Unit) ⟨c, []⟩ := by
  show (if c.hardState.currentTerm < term then _ else _ : StepM C Unit) _ = _
  rw [if_neg older]
  show (if c.role ≠ .leader ∨ term ≠ c.hardState.currentTerm then _ else _ : StepM C Unit) _ = _
  rw [if_neg current]
  rcases hnext with ⟨rfl, rfl⟩ | ⟨rfl, n, rfl, hn⟩
  · rw [if_pos rfl, Program.bind_pure_run, found]
    rfl
  · show (liftLog (rejectedNext c.log _) >>= _) _ = _
    rw [hn]
    rw [liftLog, Program.lift_ok, Program.bind_pure_run, Program.bind_pure_run, found]
    rfl

theorem onAppendEntriesResponse_sound (h : c.WF)
    {envelope : Envelope C} {term matchIndex : Nat} {success : Bool}
    {conflict : Option ConflictHint} {readContext : Option Bytes}
    (is : cause.event = .messageReceived envelope)
    (message : envelope.message =
      .appendEntriesResponse term success matchIndex conflict readContext)
    (origin : ∃ members, c = { cause.core with activeMembers := members }) :
    MessageSound cause c envelope.from_
      (.appendEntriesResponse term success matchIndex conflict readContext)
      (onAppendEntriesResponse envelope.from_ term success matchIndex conflict readContext
        ⟨c, []⟩) := by
  by_cases newer : c.hardState.currentTerm < term
  · show MessageSound _ _ _ _ ((if c.hardState.currentTerm < term then _ else _ : StepM C Unit) _)
    rw [if_pos newer]
    exact beginTermTransition_sound rfl newer
  by_cases stale : c.role ≠ .leader ∨ term ≠ c.hardState.currentTerm
  · show MessageSound _ _ _ _ ((if c.hardState.currentTerm < term then _ else _ : StepM C Unit) _)
    rw [if_neg newer]
    show MessageSound _ _ _ _ ((if c.role ≠ .leader ∨ term ≠ c.hardState.currentTerm then _
      else _ : StepM C Unit) _)
    rw [if_pos stale]
    exact .ok (.ignored _)
  have hguard := stale
  simp only [not_or, ne_eq, not_not] at hguard
  obtain ⟨leader, current⟩ := hguard
  have hlast := h.log.lastIndex_lt
  cases found : c.progress.get envelope.from_ with
  | none =>
    show MessageSound _ _ _ _ ((if c.hardState.currentTerm < term then _ else _ : StepM C Unit) _)
    rw [if_neg newer]
    show MessageSound _ _ _ _ ((if c.role ≠ .leader ∨ term ≠ c.hardState.currentTerm then _
      else _ : StepM C Unit) _)
    rw [if_neg stale]
    cases success with
    | true =>
      rw [if_pos rfl, Program.bind_pure_run, found]
      exact .ok (.ignored _)
    | false =>
      obtain ⟨n, hn⟩ := rejectedNext_ok h.log (conflict.getD ⟨matchIndex, none⟩)
      show MessageSound _ _ _ _ ((liftLog (rejectedNext c.log _) >>= _) _)
      rw [hn]
      rw [liftLog, Program.lift_ok, Program.bind_pure_run, Program.bind_pure_run, found]
      exact .ok (.ignored _)
  | some p =>
    obtain ⟨hpn, hpm⟩ := h.progress _ _ found
    have may : cause.MayCommit := by
      obtain ⟨members, rfl⟩ := origin
      simp only [Cause.MayCommit, is]
      exact ⟨_, _, _, _, p, current ▸ message, leader, found⟩
    cases success with
    | true =>
      rw [onAppendEntriesResponse_run newer stale (.inl ⟨rfl, rfl⟩) found]
      obtain ⟨q, changed, hq, matched, hqn⟩ := Progress.acknowledged_cases (ε := StepError) p
        (show min matchIndex c.log.lastIndex < u64Max by omega) hpn
      rw [Option.elim_none, hq]
      show MessageSound _ _ _ _ (afterResponse envelope.from_ true readContext changed
        ⟨{ c with progress := c.progress.insert envelope.from_ q }, []⟩)
      have act := @MessageAct.acknowledged C c envelope.from_ term matchIndex conflict
        readContext p q leader current found matched hqn ⟨changed, hq⟩
      refine Sound.leads act (Ctx.unqueued_nil _) (afterResponse_leads (h.insert_progress found ⟨hqn, ?_⟩) may is message
        (by exact leader) (by exact current))
      rcases matched with hm | hm <;> omega
    | false =>
      obtain ⟨n, hn⟩ := rejectedNext_ok h.log (conflict.getD ⟨matchIndex, none⟩)
      rw [onAppendEntriesResponse_run newer stale (.inr ⟨rfl, n, rfl, hn⟩) found]
      obtain ⟨q, changed, hq, matched, hqn⟩ := Progress.reject_cases (ε := StepError) p matchIndex n
        hpn hpm
      rw [Option.elim_some, hq]
      show MessageSound _ _ _ _ (afterResponse envelope.from_ false readContext changed
        ⟨{ c with progress := c.progress.insert envelope.from_ q }, []⟩)
      have act := @MessageAct.backedOff C c envelope.from_ term matchIndex conflict
        readContext p q leader current found matched hqn ⟨n, changed, hn, hq⟩
      exact Sound.leads act (Ctx.unqueued_nil _) (afterResponse_leads (h.insert_progress found ⟨hqn, matched ▸ hpm⟩)
        may is message (by exact leader) (by exact current))

/-! ## Snapshot transfer -/

theorem onInstallSnapshotResponse_sound (h : c.WF) {envelope : Envelope C} {term : Nat}
    {success : Bool} (is : cause.event = .messageReceived envelope)
    (message : envelope.message = .installSnapshotResponse term success)
    (origin : ∃ members, c = { cause.core with activeMembers := members }) :
    MessageSound cause c from_ (.installSnapshotResponse term success)
      (onInstallSnapshotResponse from_ term success ⟨c, []⟩) := by
  show MessageSound _ _ _ _ ((if c.hardState.currentTerm < term then _ else _ : StepM C Unit) _)
  split
  · next newer => exact beginTermTransition_sound rfl newer
  split
  · exact .ok (.ignored _)
  next hguard =>
  simp only [not_or, ne_eq, not_not, Bool.not_eq_true', Bool.not_eq_false] at hguard
  obtain ⟨leader, current, rfl⟩ := hguard
  have may : cause.MayReplicate := by
    obtain ⟨members, rfl⟩ := origin
    refine .inr ?_
    rw [is]
    exact ⟨leader, current ▸ message⟩
  cases found : c.snapshotSenders.get from_ with
  | none => exact .ok (.ignored _)
  | some sender =>
    dsimp only
    rw [bind_run_ok (update_run _ _)]
    by_cases hn : sender.snapshot.metadata.index < u64Max
    · rw [liftNext_ok hn]
      dsimp only [bind_pure_run]
      cases hp : c.progress.get from_ with
      | none =>
        exact Sound.leads (.senderDone term sender c.progress leader current found (.inl rfl))
          (Ctx.unqueued_nil _) (replicateTo_leads from_ may (.inl leader) (h.congr rfl rfl rfl rfl rfl rfl rfl rfl rfl rfl rfl))
      | some p =>
        show MessageSound _ _ _ _ (replicateTo from_ ⟨{ c with
          snapshotSenders := c.snapshotSenders.remove from_
          progress := c.progress.insert from_
            (p.restoreProbe (sender.snapshot.metadata.index + 1)) }, []⟩)
        refine Sound.leads (.senderDone term sender _ leader current found (.inr ⟨p, hp, rfl⟩))
          (Ctx.unqueued_nil _) (replicateTo_leads from_ may (.inl leader) ?_)
        exact (h.insert_progress hp (q := p.restoreProbe (sender.snapshot.metadata.index + 1))
          ⟨Nat.succ_pos _, (h.progress _ _ hp).2⟩).congr
            rfl rfl rfl rfl rfl rfl rfl rfl rfl rfl rfl
    · rw [liftNext_overflow hn]
      exact .error (.senderDone term sender c.progress leader current found (.inl rfl))
        (Ctx.unqueued_nil _)

theorem SnapshotReceiver.accept_metadata {r r' : SnapshotReceiver} {offset : Nat} {bytes : Bytes}
    {done accepted : Bool} (h : r.accept offset bytes done = some (r', accepted)) :
    r'.metadata = r.metadata ∧ (accepted = false → r' = r) := by
  unfold SnapshotReceiver.accept at h
  split at h
  · simp only [Option.some.injEq, Prod.mk.injEq] at h
    obtain ⟨rfl, -⟩ := h
    exact ⟨rfl, fun _ => rfl⟩
  split at h
  · simp at h
  split at h
  · simp at h
  split at h
  · simp at h
  · simp only [Option.some.injEq, Prod.mk.injEq] at h
    obtain ⟨rfl, rfl⟩ := h
    exact ⟨rfl, by simp⟩

/-- What `on_install_snapshot_chunk` does once a receiver for the stream exists. -/
def receiveChunk (from_ : NodeId) (term : Nat) (metadata : SnapshotMetadata) (offset : Nat)
    (bytes : Bytes) (done : Bool) : StepM C Unit := do
  let c ← core
  let receiver ← Program.expect c.incomingSnapshot
  if receiver.metadata ≠ metadata then StepM.raise .invalidSnapshot
  else match receiver.accept offset bytes done with
    | none => StepM.raise .invalidSnapshot
    | some (receiver, accepted) => do
      update fun c => { c with incomingSnapshot := some receiver }
      if !accepted then pure ()
      else do
        let id ← nextEffectId
        update fun c => { c with pendingChunkStore := some ⟨id, done, from_, term⟩ }
        emit (.storeSnapshotChunk id metadata offset bytes)

theorem receiveChunk_sound {term : Nat}
    {metadata : SnapshotMetadata} (offset : Nat) (bytes : Bytes) (done : Bool)
    (receiver : SnapshotReceiver) (reached : c.hardState.currentTerm ≤ term)
    (fresh : c.snapshotIndex < metadata.index) (members : metadata.members = c.config.members)
    (old : c.incomingSnapshot = some receiver ∨
      (c.pendingChunkStore = none ∧ receiver = SnapshotReceiver.new metadata)) :
    MessageSound cause c from_ (.installSnapshot term metadata offset bytes done)
      (receiveChunk from_ term metadata offset bytes done
        ⟨{ c with incomingSnapshot := some receiver }, []⟩) := by
  show MessageSound _ _ _ _ ((if receiver.metadata ≠ metadata then _ else _ : StepM C Unit) _)
  split
  · next hne =>
    rcases old with hold | ⟨-, rfl⟩
    · have hcore : ({ c with incomingSnapshot := some receiver } : RaftCore C) = c := by
        rw [← hold]
      rw [hcore]
      exact .error (.ignored _) (Ctx.unqueued_nil _)
    · exact absurd rfl hne
  next his =>
  have his : receiver.metadata = metadata := by simpa using his
  have touched := @MessageAct.receiverTouched C c from_ term metadata offset bytes
    done receiver reached his old
  cases ha : receiver.accept offset bytes done with
  | none => exact .error touched (Ctx.unqueued_nil _)
  | some r =>
    obtain ⟨receiver', accepted⟩ := r
    obtain ⟨hmeta, hsame⟩ := SnapshotReceiver.accept_metadata ha
    cases accepted with
    | false =>
      obtain rfl := hsame rfl
      exact .ok touched
    | true =>
      show MessageSound _ _ _ _ ((nextEffectId >>= _) _)
      by_cases room : c.nextEffectSequence < u64Max
      · rw [bind_run_ok (nextEffectId_run (by exact room))]
        exact .ok (.chunkAccepted term metadata offset bytes done receiver' reached fresh
          (hmeta.trans his) members)
      · rw [bind_run_error (nextEffectId_overflow (by exact room))]
        exact .stuck (.dropped c.activeMembers (some receiver') c.pendingChunkStore
          c.incomingSnapshotState c.localSnapshot room (.inr rfl) (.inl rfl) (.inl rfl) (.inl rfl))

theorem onInstallSnapshotChunk_sound (term : Nat)
    (metadata : SnapshotMetadata) (offset : Nat) (bytes : Bytes) (done : Bool) :
    MessageSound cause c from_ (.installSnapshot term metadata offset bytes done)
      (onInstallSnapshotChunk from_ term metadata offset bytes done ⟨c, []⟩) := by
  show MessageSound _ _ _ _ ((if term < c.hardState.currentTerm then _ else _ : StepM C Unit) _)
  split
  · exact .ok (.refused _ _ .install)
  next hge =>
  split
  · exact .error (.ignored _) (Ctx.unqueued_nil _)
  split
  · exact .ok (.ignored _)
  next hfresh =>
  simp only [not_or, ne_eq, not_not, Nat.not_le] at hfresh
  obtain ⟨members, fresh⟩ := hfresh
  have reached : c.hardState.currentTerm ≤ term := Nat.not_lt.mp hge
  split
  · split
    · exact .error (.ignored _) (Ctx.unqueued_nil _)
    · next hnew =>
      simp only [not_or, ne_eq, not_not, Option.not_isSome_iff_eq_none] at hnew
      exact receiveChunk_sound offset bytes done (SnapshotReceiver.new metadata) reached fresh
        members (.inr ⟨hnew.2, rfl⟩)
  · next hold =>
    obtain ⟨receiver, hr⟩ : ∃ receiver, c.incomingSnapshot = some receiver := by
      cases hi : c.incomingSnapshot with
      | none => exact absurd (by simp [hi]) hold
      | some receiver => exact ⟨receiver, rfl⟩
    have hcore : ({ c with incomingSnapshot := some receiver } : RaftCore C) = c := by rw [← hr]
    have := @receiveChunk_sound C cause c from_ _ _ offset bytes done receiver reached fresh
      members (.inl hr)
    rw [hcore] at this
    exact this

theorem onMessage_sound (h : c.WF) (envelope : Envelope C)
    (is : cause.event = .messageReceived envelope)
    (origin : ∃ members, c = { cause.core with activeMembers := members }) :
    MessageSound cause c envelope.from_ envelope.message
      (onMessage envelope.from_ envelope.message ⟨c, []⟩) := by
  cases hm : envelope.message with
  | heartbeat => exact .ok (.ignored _)
  | preVote term index logTerm => exact .ok (.refused _ _ (.preVote _))
  | requestVote term index logTerm => exact onVoteRequest_sound term index logTerm
  | preVoteResponse term granted => exact onPreVoteResponse_sound term granted
  | voteResponse term granted => exact onVoteResponse_sound h term granted
  | appendEntries term prev prevTerm commit context entries =>
    exact onAppendEntries_sound h term prev prevTerm commit context entries
  | appendEntriesResponse term success index conflict context =>
    exact onAppendEntriesResponse_sound h is hm origin
  | installSnapshot term metadata offset bytes done =>
    exact onInstallSnapshotChunk_sound term metadata offset bytes done
  | installSnapshotResponse term success =>
    exact onInstallSnapshotResponse_sound h is hm origin

/-! ## Ticks, proposals and reads -/

theorem startPreVote_sound [Sha256] :
    Sound (Act c (.tick .election)) Ctx.Unqueued (Stuck c (Act c (.tick .election))) (FollowUp ⟨c, .tick .election⟩) (startPreVote ⟨c, []⟩) := by
  show Sound _ _ _ _ ((if c.role = .leader ∨ c.pendingPersist.isSome = true then _ else _ :
    StepM C Unit) _)
  split
  · exact .ok (.ignored _)
  next hguard =>
  simp only [not_or, Option.not_isSome_iff_eq_none] at hguard
  obtain ⟨notLeader, free⟩ := hguard
  by_cases hterm : c.hardState.currentTerm < u64Max
  · rw [liftNext_ok hterm]
    dsimp only [bind_pure_run]
    rw [bind_run_ok (update_run _ _)]
    split
    · rw [becomeCandidate_run (by exact hterm)]
      exact queuePersist_sound (.campaigned notLeader free (by assumption)) rfl rfl rfl
    · exact .ok (.preVoteStarted notLeader free)
  · rw [liftNext_overflow hterm]
    exact .error (.ignored _) (Ctx.unqueued_nil _)

theorem onHeartbeatTick_sound [Sha256] (h : c.WF) :
    Sound (Act c (.tick .heartbeat)) Ctx.Unqueued (Stuck c (Act c (.tick .heartbeat))) (FollowUp ⟨c, .tick .heartbeat⟩) (onHeartbeatTick ⟨c, []⟩) := by
  show Sound _ _ _ _ ((if c.role ≠ .leader ∨ c.pendingPersist.isSome = true then _ else _ :
    StepM C Unit) _)
  split
  · exact .ok (.ignored _)
  next hguard =>
  simp only [not_or, ne_eq, not_not, Option.not_isSome_iff_eq_none] at hguard
  split
  · exact .ok (.quorumLost hguard.1 hguard.2)
  · rw [bind_run_ok (update_run _ _)]
    refine Sound.leads (.heartbeat hguard.1 hguard.2) (Ctx.unqueued_nil _)
      (replicateAll_leads (.inr hguard) (.inl hguard.1) ?_)
    refine { h with progress := ?_, leads := ?_ }
    · intro n p hp
      rw [BTreeMap.get_mapValues] at hp
      obtain ⟨q, hq, rfl⟩ := Option.map_eq_some_iff.mp hp
      exact h.progress n q hq
    · intro hl
      rw [BTreeMap.keys_mapValues]
      exact h.leads hl

theorem onPropose_sound [Sha256] (h : c.WF)
    (proposalId : ProposalId) (command : C) (encodedLen : Nat) :
    Sound (Act c (.propose proposalId command encodedLen)) Ctx.Unqueued (Stuck c (Act c (.propose proposalId command encodedLen))) (FollowUp cause)
      (onPropose proposalId command encodedLen ⟨c, []⟩) := by
  show Sound _ _ _ _ ((if c.role ≠ .leader then _ else _ : StepM C Unit) _)
  split
  · exact .ok (.proposalRefused _ _ _ _ (.inl rfl))
  next hl =>
  have leader : c.role = .leader := by simpa using hl
  split
  · exact .ok (.proposalRefused _ _ _ _ (.inr rfl))
  next hguard =>
  simp only [not_or, Option.not_isSome_iff_eq_none] at hguard
  have hlt : c.lastLogIndex < u64Max := h.lastLogIndex ▸ h.log.lastIndex_lt
  rw [liftNext_ok hlt]
  show Sound _ _ _ _ ((liftEntry (Entry.command (c.lastLogIndex + 1) c.hardState.currentTerm command
    encodedLen) >>= _) _)
  cases he : Entry.command (c.lastLogIndex + 1) c.hardState.currentTerm command encodedLen with
  | error e => exact .error (.ignored _) (Ctx.unqueued_nil _)
  | ok entry =>
    have hentry : entry.index = c.lastLogIndex + 1 ∧ entry.term = c.hardState.currentTerm ∧
        entry.payload = .command command := by
      unfold Entry.command at he
      split at he
      · split at he
        · split at he
          · simp at he
          · simp only [Except.ok.injEq] at he; subst he; exact ⟨rfl, rfl, rfl⟩
        · simp at he
      · simp at he
    refine Sound.lift (.ignored _) (Ctx.unqueued_nil _) h.log.append_ne_panic fun log ha => ?_
    obtain ⟨next, rfl⟩ := h.continues hentry.1 hentry.2.1 ha
    rw [bind_run_ok (update_run _ _)]
    have act := Act.proposed (c := c) proposalId command encodedLen entry leader hguard.1 next
      hentry.2.2
    simp only [RaftCore.proposalAppended, hentry.1, hentry.2.1] at act ⊢
    exact queuePersist_sound act rfl rfl rfl

theorem onRead_sound [Sha256] (h : c.WF) (readId : ReadId) (context : Bytes) :
    Sound (Act c (.read readId context)) Ctx.Unqueued (Stuck c (Act c (.read readId context)))
      (FollowUp ⟨c, .read readId context⟩) (onRead readId ⟨c, []⟩) := by
  show Sound _ _ _ _ ((if c.role ≠ .leader then _ else _ : StepM C Unit) _)
  split
  · exact .ok (.ignored _)
  next hl =>
  have leader : c.role = .leader := by simpa using hl
  split
  · exact .ok (.ignored _)
  next space =>
  split
  · next hn => exact .ok (.readQueued readId context leader (by simpa using hn))
  next hn =>
  have noop : c.currentLeaderNoopIsCommitted = true := by simpa using hn
  cases hr : c.readRound with
  | some round =>
    exact .ok (.readJoined readId context round leader noop hr (by simpa [hr] using space))
  | none =>
    show Sound _ _ _ _ (startReadRoundThen startPendingReads readId _)
    by_cases counter : c.nextReadContext < u64Max
    · rw [startReadRoundThen_run (by exact h) _ _ (by exact counter)]
      have act := Act.readStarted (c := c) readId context leader noop hr counter
      split
      · refine Sound.leads act ((Ctx.unqueued_nil c).roundStarted readId) ?_
        exact Leads.bind keeps_wf (RaftCore.WF.roundStarted (by exact h) readId)
          (releaseReadRound_leads trivial) fun _ _ _ h' => startPendingReads_leads trivial h'
      · exact .ok act
    · show Sound _ _ _ _ ((liftNext c.nextReadContext >>= _) _)
      rw [liftNext_overflow counter]
      exact .error (.ignored _) (Ctx.unqueued_nil _)

end Ruft
