import Ruft.Exec
import Ruft.LogRuns

set_option autoImplicit false

/-!
# What an accepted AppendEntries acknowledges and commits

The follower answers with the last index of its own log, and commits up to it, whatever the
request has proved. Where its log goes on past the request and no entry of the request is
new, both are too much.

## Main definitions

- `Answered` — the response that a step makes, at once or after its batch is durable
- `ProvedOnly` — no more is acknowledged and committed than the request proves
- `EndsWith` — the log ends with the request after the merge

## Main results

- `append_proves_only` — exactly when no more is acknowledged and committed
-/

namespace Ruft

open Program StepM

variable {C : Type} {c c' : RaftCore C} {from_ : NodeId} {s : Ctx C}

/-! ## Acknowledged and committed -/

/-- The response that a step makes: it is sent, or it waits for the batch of the step. -/
inductive Answered (c' : RaftCore C) (effects : List (Effect C)) : AppendResponse → Prop
  | sent (to_ : NodeId) (r : AppendResponse)
      (sends : .sendMessage to_ (.appendEntriesResponse r.term r.success r.matchIndex r.conflict
        r.readContext) ∈ effects) : Answered c' effects r
  | deferred (to_ : NodeId) (r : AppendResponse) (pending : PendingPersist)
      (batch : PersistBatch C) (found : c'.pendingPersist = some pending)
      (fresh : .persist pending.id batch ∈ effects)
      (is : pending.continuation = .sendAppendEntriesResponse to_ r) : Answered c' effects r

/-- No more is acknowledged than the request proves, and no more is committed than before or
than the leader has committed of that. -/
structure ProvedOnly (c : RaftCore C) (proved leaderCommit : Nat) (s : Ctx C) : Prop where
  acknowledged : ∀ r, Answered s.core s.effects r → r.success = true → r.matchIndex ≤ proved
  committed : s.core.hardState.commitIndex ≤
    max c.hardState.commitIndex (min leaderCommit proved)

/-- After the merge the log ends with the request: an entry of it is new, so that what follows
is dropped, or nothing follows. -/
def EndsWith (log : RaftLog C) (prev : Nat) (entries : List (Entry C)) : Prop :=
  (∃ e ∈ entries, log.term e.index ≠ .ok e.term) ∨ log.lastIndex ≤ prev + entries.length

/-- Where the log ends after the merge. -/
theorem EndsWith.lastIndex_le {log log' : RaftLog C} {prev : Nat}
    {entries appended : List (Entry C)} (h : EndsWith log prev entries)
    (merged : log.Merged entries log' appended) (wf : log'.WF)
    (contiguous : Contiguous (prev + 1) entries) : log'.lastIndex ≤ prev + entries.length := by
  have size := wf.lastIndex
  cases merged with
  | same held =>
    rcases h with ⟨e, he, differs⟩ | le
    · exact absurd (held e he) differs
    · exact le
  | changed kept e rest j u split held differs index within uncommitted =>
    subst split
    have first := (Contiguous.append.mp contiguous).2.1
    have kept_size : (log.entries.take j ++ e :: rest).length = j + (rest.length + 1) := by
      rw [List.length_append, List.length_take, Nat.min_eq_left within, List.length_cons]
    have last : RaftLog.lastIndex _ = log.snapshotIndex + (j + (rest.length + 1)) :=
      size.trans (congrArg (log.snapshotIndex + ·) kept_size)
    rw [last, List.length_append, List.length_cons]
    omega

/-- A step that acknowledges nothing. -/
theorem ProvedOnly.of_quiet {proved leaderCommit : Nat} {d : RaftCore C}
    {effects : List (Effect C)}
    (silent : ∀ to_ t m conflict context,
      Effect.sendMessage to_ (.appendEntriesResponse t true m conflict context) ∉ effects)
    (unqueued : ∀ id batch, Effect.persist id batch ∉ effects)
    (commit : d.hardState.commitIndex = c.hardState.commitIndex) :
    ProvedOnly c proved leaderCommit ⟨d, effects⟩ where
  acknowledged := by
    intro r answered success
    cases answered with
    | sent to_ r sends =>
      rw [success] at sends
      exact absurd sends (silent _ _ _ _ _)
    | deferred to_ r pending batch found fresh is => exact absurd fresh (unqueued _ _)
  committed := commit.le.trans (Nat.le_max_left _ _)

/-- A step that hands out one batch and answers when it is durable. -/
theorem ProvedOnly.of_queued {proved leaderCommit : Nat} {d : RaftCore C}
    {batch : PersistBatch C} {to_ : NodeId} {r : AppendResponse}
    (le : r.success = true → r.matchIndex ≤ proved)
    (commit : d.hardState.commitIndex ≤ max c.hardState.commitIndex (min leaderCommit proved)) :
    ProvedOnly c proved leaderCommit
      (Ctx.queued ⟨d, []⟩ batch (.sendAppendEntriesResponse to_ r)) where
  acknowledged := by
    intro r' answered success
    cases answered with
    | sent to_ r' sends => simp [Ctx.queued] at sends
    | deferred to_ r' pending batch found fresh is =>
      obtain rfl := Option.some.inj found
      obtain ⟨rfl, rfl⟩ := PersistContinuation.sendAppendEntriesResponse.inj is
      exact le success
  committed := commit

theorem Refusal.not_success {reply : Message C} (h : Refusal c reply) {t m : Nat}
    {conflict : Option ConflictHint} {context : Option Bytes} :
    reply ≠ .appendEntriesResponse t true m conflict context := by
  cases h <;> simp

/-- What the handler of an AppendEntries does first. -/
theorem MessageAct.provedOnly {term prev prevTerm leaderCommit : Nat} {context : Option Bytes}
    {entries : List (Entry C)} (wf : c.WF)
    (act : MessageAct c from_ (.appendEntries term prev prevTerm leaderCommit context entries) s)
    (ends : EndsWith c.log prev entries) (contiguous : Contiguous (prev + 1) entries) :
    ProvedOnly c (prev + entries.length) leaderCommit s := by
  cases act with
  | ignored => exact .of_quiet (by simp) (by simp) rfl
  | refused _ reply refusal =>
    refine .of_quiet (fun to_ t m conflict context sends => ?_) (by simp) rfl
    simp only [List.mem_singleton, Effect.sendMessage.injEq] at sends
    exact refusal.not_success sends.2.symm
  | termRaised _ term is => simp [Message.responseTerm] at is
  | appendFailed => exact .of_quiet (by simp) (by simp) rfl
  | appendRefused _ _ _ _ _ _ same reply refusal =>
    refine .of_quiet (fun to_ t m conflict context sends => ?_) (by simp) rfl
    simp only [List.mem_singleton, Effect.sendMessage.injEq] at sends
    exact refusal.not_success sends.2.symm
  | appendRejected => exact .of_queued (by simp) (Nat.le_max_left _ _)
  | appendHeld _ _ _ _ _ _ same prefix_ held committed =>
    have le := ends.lastIndex_le (.same held) wf.log contiguous
    refine ⟨fun r answered _ => ?_, Nat.le_max_left _ _⟩
    cases answered with
    | sent to_ r sends =>
      simp only [List.mem_singleton, Effect.sendMessage.injEq,
        Message.appendEntriesResponse.injEq] at sends
      exact sends.2.2.2.1.le.trans le
    | deferred to_ r pending batch found fresh is => simp at fresh
  | appendAccepted _ _ _ _ _ _ log appended hardState reached prefix_ run merge wf' changed persisted =>
    have le := ends.lastIndex_le merge wf' contiguous
    have committed := merge.committed_eq
    have known := wf.committed
    refine .of_queued (fun _ => le) ?_
    show max log.committed (min leaderCommit log.lastIndex) ≤ _
    omega

/-- Follow-ups of an AppendEntries neither answer it nor commit. -/
theorem FollowUp.provedOnly {envelope : Envelope C} {term prev prevTerm leaderCommit proved : Nat}
    {context : Option Bytes} {entries : List (Entry C)} {s' : Ctx C}
    (is : envelope.message = .appendEntries term prev prevTerm leaderCommit context entries)
    (hf : FollowUp ⟨c, .messageReceived envelope⟩ s s')
    (h : ProvedOnly c proved leaderCommit s) : ProvedOnly c proved leaderCommit s' := by
  have noCommit : ¬ Cause.MayCommit ⟨c, .messageReceived envelope⟩ := by
    rintro ⟨success, matchIndex, conflict, readContext, p, message, -⟩
    simp [is] at message
  have same : s'.core.pendingPersist = s.core.pendingPersist ∧
      s'.core.hardState.commitIndex = s.core.hardState.commitIndex ∧
      ∀ id batch, .persist id batch ∈ s'.effects → .persist id batch ∈ s.effects := by
    cases hf with
    | committed commit may => exact absurd may noCommit
    | commitStuck commit may => exact absurd may noCommit
    | readStarted readId rest =>
      obtain ⟨round, hr⟩ :=
        Ctx.roundStarted_core ⟨{ s.core with pendingReads := rest }, s.effects⟩ readId
      refine ⟨by rw [hr], by rw [hr], fun id batch mem => ?_⟩
      rcases Ctx.roundStarted_effects ⟨{ s.core with pendingReads := rest }, s.effects⟩ readId with
        he | ⟨context, he⟩
      · exact he ▸ mem
      · rw [he] at mem
        simpa [Ctx.readHeartbeats, toPeers] using mem
    | _ => exact ⟨rfl, rfl, by simp⟩
  obtain ⟨pending, commit, batches⟩ := same
  refine ⟨fun r answered success => h.acknowledged r ?_ success, commit.le.trans h.committed⟩
  cases answered with
  | sent to_ r sends =>
    rcases hf.sends sends with old | new
    · exact .sent to_ r old
    · cases new
  | deferred to_ r waiting batch found fresh is =>
    exact .deferred to_ r waiting batch (pending ▸ found) (batches _ _ fresh) is

/-- The effects of a step that fails are dropped. -/
theorem ProvedOnly.dropped {proved leaderCommit : Nat} (h : ProvedOnly c proved leaderCommit s)
    {d : RaftCore C} (same : d.hardState.commitIndex = s.core.hardState.commitIndex) :
    ProvedOnly c proved leaderCommit ⟨d, []⟩ where
  acknowledged := by
    intro r answered
    cases answered with
    | sent to_ r sends => simp at sends
    | deferred to_ r pending batch found fresh => simp at fresh
  committed := same.le.trans h.committed

theorem ProvedOnly.finished {proved leaderCommit : Nat} (h : ProvedOnly c proved leaderCommit s) :
    ProvedOnly c proved leaderCommit (s.finished c) := by
  obtain ⟨proposals, core⟩ := s.finished_core c
  obtain ⟨new, effects, results⟩ := s.finished_effects c
  refine ⟨fun r answered success => h.acknowledged r ?_ success, by rw [core]; exact h.committed⟩
  cases answered with
  | sent to_ r sends => exact .sent to_ r (s.finished_sends c sends)
  | deferred to_ r pending batch found fresh is =>
    rw [core] at found
    rw [effects] at fresh
    refine .deferred to_ r pending batch found ((List.mem_append.mp fresh).resolve_right ?_) is
    intro mem
    obtain ⟨p, result, eq⟩ := results _ mem
    simp at eq

/-- Where the log ends with the request, no more is acknowledged and committed. -/
theorem step_provedOnly [Sha256] {envelope : Envelope C}
    {term prev prevTerm leaderCommit : Nat} {context : Option Bytes} {entries : List (Entry C)}
    (wf : c.WF) (running : c.stopped = false)
    (is : envelope.message = .appendEntries term prev prevTerm leaderCommit context entries)
    (ends : EndsWith c.log prev entries) (contiguous : Contiguous (prev + 1) entries)
    {result : Outcome StepError (StepOutput C)}
    (stepped : step c (.messageReceived envelope) = (result, c')) :
    ProvedOnly c (prev + entries.length) leaderCommit
      ⟨c', (Record.mk c (.messageReceived envelope) result c').effects⟩ := by
  have acts : ∀ s, Act c (.messageReceived envelope) s →
      ProvedOnly c (prev + entries.length) leaderCommit s := by
    intro s act
    cases act with
    | ignored => exact .of_quiet (by simp) (by simp) rfl
    | message _ members s known mine act =>
      rw [is] at act
      have wf' : ({ c with activeMembers := members }).WF :=
        wf.congr rfl rfl rfl rfl rfl rfl rfl rfl rfl rfl rfl
      obtain ⟨acknowledged, committed⟩ := act.provedOnly wf' ends contiguous
      exact ⟨acknowledged, committed⟩
  have paths : ∀ s, Path c (.messageReceived envelope) s →
      ProvedOnly c (prev + entries.length) leaderCommit s := by
    rintro s ⟨s₀, _, act, rest⟩
    induction rest with
    | refl => exact acts _ act
    | tail _ next ih => exact next.provedOnly is ih
  have cases := step_cases wf running (.messageReceived envelope)
  rw [stepped] at cases
  cases cases with
  | panicked c' panics => exact panics.elim
  | halted e c' reason halted =>
    obtain ⟨-, reads, store, incoming, building, applying, persist, rfl⟩ := halted
    exact (acts _ (.ignored _)).dropped rfl
  | returned s changed path wf => exact (paths s path).finished
  | failed s e path wf quiet => exact (paths s path).dropped rfl
  | crashed s e reason path => exact (paths s path).dropped rfl
  | invalid s e reason path => exact (paths s path).finished.dropped rfl
  | stuck e s stuck =>
    cases stuck with
    | queued d batch continuation full act => exact (acts _ act).dropped rfl
    | dropped => exact (acts _ (.ignored _)).dropped rfl

/-- The handler of a request whose prefix matches, when it returns. -/
theorem onAppendEntries_ok {term prev prevTerm leaderCommit : Nat} {context : Option Bytes}
    {entries : List (Entry C)} (wf : c.WF) (reached : c.hardState.currentTerm ≤ term)
    (matched : c.log.term prev = .ok prevTerm)
    (run : onAppendEntries from_ term prev prevTerm leaderCommit context entries ⟨c, []⟩ =
      (.ok (), s)) :
    ∃ log appended, c.log.Merged entries log appended ∧
      (log = c.log ∧ s = ⟨c.becomeFollower, [.sendMessage from_
          (.appendEntriesResponse term true c.log.lastIndex none context)]⟩ ∨
        ∃ hardState, s = Ctx.queued ⟨c.merged term leaderCommit log, []⟩
          ⟨hardState, appended, none⟩
          (.sendAppendEntriesResponse from_ ⟨term, true, none, log.lastIndex, context⟩)) := by
  rcases mergeAppend_cases wf.becomeFollower.log prev prevTerm leaderCommit entries with
    ⟨e, failed, -⟩ | ⟨hint, -, differs⟩ | ⟨log, appended, -, -, merge, -, ran⟩
  · rw [onAppendEntries_run reached, bind_run_error failed] at run
    simp at run
  · exact absurd matched differs
  · refine ⟨log, appended, merge, ?_⟩
    rcases onAppendEntries_merged wf reached merge ran with
      ⟨-, same, -, -, sent⟩ | ⟨hardState, -, -, queued⟩
    · exact .inl ⟨same, (Prod.mk.inj (run.symm.trans sent)).2⟩
    · exact .inr ⟨hardState, queuePersist_eq_ok (queued.symm.trans run)⟩

/-- A step that accepted the request answers it with the last index of the log. -/
theorem step_acknowledges [Sha256] {envelope : Envelope C}
    {term prev prevTerm leaderCommit : Nat} {context : Option Bytes} {entries : List (Entry C)}
    (wf : c.WF) (running : c.stopped = false)
    (is : envelope.message = .appendEntries term prev prevTerm leaderCommit context entries)
    (reached : c.hardState.currentTerm ≤ term) (matched : c.log.term prev = .ok prevTerm)
    {output : StepOutput C}
    (stepped : step c (.messageReceived envelope) = (.ok output, c')) :
    ∃ log appended r, c.log.Merged entries log appended ∧ Answered c' output.effects r ∧
      r.success = true ∧ r.matchIndex = log.lastIndex := by
  obtain ⟨members, s, s', received, applied, effects, core⟩ := step_received running stepped
  rw [is] at received
  have wf' : ({ c with activeMembers := members }).WF :=
    wf.congr rfl rfl rfl rfl rfl rfl rfl rfl rfl rfl rfl
  obtain ⟨log, appended, merge, how⟩ := onAppendEntries_ok wf' reached matched received
  obtain ⟨proposals, finished⟩ := s'.finished_core c
  have kept : ∀ e ∈ s'.effects, e ∈ output.effects := by
    obtain ⟨new, more, -⟩ := s'.finished_effects c
    rw [effects, more]
    exact fun e he => List.mem_append_left _ he
  refine ⟨log, appended, ⟨term, true, none, log.lastIndex, context⟩, merge, ?_, rfl, rfl⟩
  rcases how with ⟨rfl, rfl⟩ | ⟨hardState, rfl⟩
  · -- the answer was sent before the entries that can be applied are handed out
    have grows := emitApply_grows applied
    exact .sent envelope.from_ _ (kept _ (grows (List.mem_singleton_self _)))
  · have waits : s' = _ := (Prod.mk.inj (applied.symm.trans (emitApply_waits rfl))).2
    subst waits
    have found : c'.pendingPersist = some ⟨⟨c.config.generation, c.nextEffectSequence + 1⟩,
        appended.getLast?.map (·.index), .sendAppendEntriesResponse envelope.from_
          ⟨term, true, none, log.lastIndex, context⟩⟩ := by
      rw [core, finished]
      rfl
    exact .deferred envelope.from_ _ _ _ found (kept _ (List.mem_singleton_self _)) rfl

/-- An accepted AppendEntries acknowledges and commits no more than it proves exactly when the
log ends with it. Where it does, that holds whatever the step returns. -/
theorem append_proves_only [Sha256] (config : Config) (recovered : RecoveredState C)
    {history : List (Record C)} (run : Trace (RaftCore.new config recovered) history c)
    (running : c.stopped = false) (envelope : Envelope C)
    (term prev prevTerm leaderCommit : Nat) (context : Option Bytes) (entries : List (Entry C))
    (is : envelope.message = .appendEntries term prev prevTerm leaderCommit context entries)
    (reached : c.hardState.currentTerm ≤ term) (matched : c.log.term prev = .ok prevTerm)
    (contiguous : Contiguous (prev + 1) entries) (result : Outcome StepError (StepOutput C))
    (c' : RaftCore C) (stepped : step c (.messageReceived envelope) = (result, c')) :
    (EndsWith c.log prev entries → ProvedOnly c (prev + entries.length) leaderCommit
      ⟨c', (Record.mk c (.messageReceived envelope) result c').effects⟩) ∧
    ∀ output, result = .ok output →
      (ProvedOnly c (prev + entries.length) leaderCommit ⟨c', output.effects⟩ ↔
        EndsWith c.log prev entries) := by
  have wf := run.wf.resolve_left (by simp [running])
  have enough := fun ends => step_provedOnly wf running is ends contiguous stepped
  refine ⟨enough, ?_⟩
  rintro output rfl
  refine ⟨fun proved => ?_, enough⟩
  obtain ⟨log, appended, r, merge, answered, success, last⟩ :=
    step_acknowledges wf running is reached matched stepped
  have le := proved.acknowledged r answered success
  by_contra past
  simp only [EndsWith, not_or, not_exists, not_and, not_not, Nat.not_le] at past
  obtain ⟨held, further⟩ := past
  cases merge with
  | same => omega
  | changed kept e rest j u split _ differs => exact differs (held e (by simp [split]))

/-- Node 1 sends node 2 the entry after index `prev`, of term 1. -/
def resentAppend (prev : Nat) : Envelope Nat :=
  ⟨0, 1, 2, .appendEntries 1 prev (min prev 1) 0 none [noopAt (prev + 1) 1 (by omega) Nat.zero_lt_one]⟩

/-- Node 2, which holds two entries, gets the second one again. -/
theorem append_proves_only_last : ∃ w : World Nat,
    @Run Nat sha256Empty trio w.history (w.core trio) ∧
    ProvedOnly (w.core trio 2) 2 0 ⟨(@step Nat sha256Empty (w.core trio 2)
        (.messageReceived (resentAppend 1))).2,
      (Record.mk (w.core trio 2) (.messageReceived (resentAppend 1))
        (@step Nat sha256Empty (w.core trio 2) (.messageReceived (resentAppend 1))).1
        (@step Nat sha256Empty (w.core trio 2) (.messageReceived (resentAppend 1))).2).effects⟩ := by
  let _ : Sha256 := sha256Empty
  obtain ⟨w, run, checked⟩ := World.exec_any trio Script.commitTwo
    (fun w => (!(w.core trio 2).stopped && (w.core trio 2).hardState.currentTerm ≤ 1) &&
      ((w.core trio 2).log.term 1 = .ok 1 && (w.core trio 2).log.lastIndex ≤ 2))
    (by decide +kernel)
  simp only [Bool.and_eq_true, Bool.not_eq_true', decide_eq_true_eq] at checked
  obtain ⟨⟨running, reached⟩, matched, last⟩ := checked
  exact ⟨w, run, (append_proves_only (trioConfig 2 (by decide)) .initial (run.trace 2) running
    (resentAppend 1) 1 1 1 0 none _ rfl reached matched ⟨rfl, trivial⟩ _ _ rfl).1 (.inr last)⟩

/-- Node 2, which holds two entries, gets the first one again and acknowledges both. -/
theorem append_overstated : ¬ ∀ (history : List (Record Nat)) (c c' : RaftCore Nat)
    (envelope : Envelope Nat) (term prev prevTerm leaderCommit : Nat) (context : Option Bytes)
    (entries : List (Entry Nat)) (output : StepOutput Nat),
    @Trace Nat sha256Empty (trio 2) history c → c.stopped = false →
    envelope.message = .appendEntries term prev prevTerm leaderCommit context entries →
    c.hardState.currentTerm ≤ term → c.log.term prev = .ok prevTerm →
    Contiguous (prev + 1) entries →
    @step Nat sha256Empty c (.messageReceived envelope) = (.ok output, c') →
    ProvedOnly c (prev + entries.length) leaderCommit ⟨c', output.effects⟩ := by
  let _ : Sha256 := sha256Empty
  intro h
  obtain ⟨w, run, bad⟩ := World.exec_any trio Script.commitTwo
    (fun w => (!(w.core trio 2).stopped && (w.core trio 2).hardState.currentTerm ≤ 1) &&
      ((w.core trio 2).log.term 0 = .ok 0 &&
        match (step (w.core trio 2) (.messageReceived (resentAppend 0))).1 with
        | .ok output => decide (.sendMessage 1 (.appendEntriesResponse 1 true 2 none none) ∈
            output.effects)
        | .error _ => false))
    (by decide +kernel)
  simp only [Bool.and_eq_true, Bool.not_eq_true', decide_eq_true_eq] at bad
  obtain ⟨⟨running, reached⟩, matched, sent⟩ := bad
  cases stepped : step (w.core trio 2) (.messageReceived (resentAppend 0)) with
  | mk result c' =>
    rw [stepped] at sent
    cases result with
    | error f => simp at sent
    | ok output =>
      have le := (h _ _ c' (resentAppend 0) 1 0 0 0 none _ output (run.trace 2) running rfl reached
        matched ⟨rfl, trivial⟩ stepped).acknowledged ⟨1, true, none, 2, none⟩
          (.sent 1 _ (of_decide_eq_true sent)) rfl
      exact absurd le (by decide)

end Ruft
