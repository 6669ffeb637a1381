import Ruft.Refines

set_option autoImplicit false

/-!
# The invariant of a running core

Every act keeps `RaftCore.WF`, with one exception: a snapshot whose index has no
successor leaves a core that the invariant check then stops.
-/

namespace Ruft

variable {C : Type} {event : Event C} {c : RaftCore C} {from_ : NodeId} {s : Ctx C}

theorem RaftCore.WF.becomeFollower (h : c.WF) : c.becomeFollower.WF :=
  { h with
    votes := by rintro ⟨⟩
    progress := by intro n p hp; simp [RaftCore.becomeFollower] at hp
    leads := by rintro ⟨⟩ }

theorem RaftCore.WF.termRaised (h : c.WF) (term : Nat) : (c.termRaised term).WF :=
  { h.becomeFollower with votes := by rintro ⟨⟩ }

theorem RaftCore.WF.candidacy (h : c.WF) : c.candidacy.WF :=
  { h with votes := fun _ => Nat.succ_pos _, leads := by rintro ⟨⟩ }

theorem Entry.Continues.wf {entry : Entry C} (next : entry.Continues c) (h : c.log.WF)
    {u : Unstable} : ({ c.log with entries := c.log.entries ++ [entry], unstable := u }).WF ∧
      ({ c.log with entries := c.log.entries ++ [entry], unstable := u }).lastIndex =
        c.log.lastIndex + 1 := by
  have hl := h.lastIndex
  have hwf : ({ c.log with entries := c.log.entries ++ [entry], unstable := u }).WF := by
    refine ⟨?_, ?_, ?_⟩
    · have := next.bound
      have := next.index
      simp only [RaftLog.snapshotIndex, List.length_append, List.length_singleton] at *
      omega
    · refine Contiguous.append.mpr ⟨h.contiguous, ?_, trivial⟩
      rw [next.index, hl]
      simp only [RaftLog.snapshotIndex]
      omega
    · exact TermsFrom.append.mpr ⟨h.terms, next.terms, trivial⟩
  refine ⟨hwf, ?_⟩
  rw [hwf.lastIndex, hl]
  simp only [RaftLog.snapshotIndex, List.length_append, List.length_singleton]
  omega

theorem RaftCore.WF.noopAppended (h : c.WF) {entry : Entry C} (next : entry.Continues c) :
    (c.noopAppended entry).WF := by
  obtain ⟨hwf, hlast⟩ := next.wf h.log (u := c.log.unstable.markRange entry.index entry.index)
  refine { h with log := hwf, lastLogIndex := ?_, lastLogTerm := ?_ }
  · exact next.index.trans hlast.symm
  · exact (lastTermFrom_append c.log.snapshotTerm c.log.entries [entry]).symm

theorem RaftCore.WF.proposalAppended (h : c.WF) {entry : Entry C} (next : entry.Continues c)
    (proposalId : ProposalId) : (c.proposalAppended entry proposalId).WF := by
  obtain ⟨hwf, hlast⟩ := next.wf h.log (u := c.log.unstable.markRange entry.index entry.index)
  refine { h with log := hwf, lastLogIndex := ?_, lastLogTerm := ?_ }
  · exact next.index.trans hlast.symm
  · exact (lastTermFrom_append c.log.snapshotTerm c.log.entries [entry]).symm

theorem RaftLog.Merged.snapshot_eq {log log' : RaftLog C} {incoming appended : List (Entry C)}
    (h : log.Merged incoming log' appended) : log'.snapshot = log.snapshot := by
  cases h <;> rfl

theorem RaftCore.WF.merged (h : c.WF) {term leaderCommit : Nat} {log : RaftLog C}
    {entries appended : List (Entry C)} (merge : c.log.Merged entries log appended) (wf : log.WF) :
    (c.merged term leaderCommit log).WF := by
  have hcom := merge.committed_eq
  have hcc := h.committed
  have hle : c.hardState.commitIndex ≤ max log.committed (min leaderCommit log.lastIndex) := by
    omega
  refine { h.becomeFollower with
    log := wf.congr rfl rfl, committed := rfl, commit_lt := ?_, applied_le := ?_
    lastLogIndex := rfl, lastLogTerm := rfl, snapshotIndex := ?_, votes := by rintro ⟨⟩
    applying := ?_ }
  · have := h.commit_lt
    have := wf.lastIndex_lt
    show max log.committed (min leaderCommit log.lastIndex) < u64Max
    omega
  · exact h.applied_le.trans hle
  · refine h.snapshotIndex.trans ?_
    simp only [RaftLog.snapshotIndex, RaftCore.merged, merge.snapshot_eq]
  · exact fun p hp => (h.applying p hp).trans hle

theorem RaftCore.WF.messageAct (h : c.WF) {m : Message C} (act : MessageAct c from_ m s) :
    s.core.WF := by
  cases act with
  | termRaised => exact (h.termRaised _).queued
  | voteNewer =>
    exact RaftCore.WF.queued { h with votes := by rintro ⟨⟩, leads := by rintro ⟨⟩ }
  | voteFirst term index logTerm same =>
    subst same
    exact RaftCore.WF.queued { h with }
  | preVoteCounted term granted votes role roles notLeader =>
    refine { h with leads := ?_ }
    intro hl
    rcases roles with ⟨rfl, -⟩ | ⟨rfl, -⟩
    · rw [notLeader] at hl; simp at hl
    · simp at hl
  | campaigned => exact h.candidacy.queued
  | voteCounted term granted votes same candidate found =>
    exact { h with votes := fun _ => h.votes (by rw [found]; rfl) }
  | voteLost => exact { h with votes := by rintro ⟨⟩, leads := by rintro ⟨⟩ }
  | elected term granted votes entry same candidate found won next noop =>
    have h₁ : ({ c with votes := some (votes.record from_ granted) }).WF :=
      { h with votes := fun _ => h.votes (by rw [found]; rfl) }
    exact (h₁.noopAppended ⟨next.index, next.term, next.terms, next.bound⟩).queued
  | appendFailed => exact h.becomeFollower
  | appendRefused => exact h.becomeFollower
  | appendRejected term => exact (h.termRaised term).queued
  | appendHeld => exact h.becomeFollower
  | appendAccepted term prev prevTerm leaderCommit context entries log appended hardState reached
      prefix_ run merge wf => exact (h.merged merge wf).queued
  | acknowledged term matchIndex conflict context p q leader same found matched nextPos =>
    refine h.insert_progress found ⟨nextPos, ?_⟩
    have := (h.progress _ _ found).2
    have := h.log.lastIndex_lt
    rcases matched with hm | hm <;> omega
  | backedOff term matchIndex conflict context p q leader same found matched nextPos =>
    exact h.insert_progress found ⟨nextPos, matched ▸ (h.progress _ _ found).2⟩
  | senderDone term sender progress leader same found restored =>
    rcases restored with rfl | ⟨p, hp, rfl⟩
    · exact h.congr rfl rfl rfl rfl rfl rfl rfl rfl rfl rfl rfl
    · exact (h.insert_progress hp (q := p.restoreProbe (sender.snapshot.metadata.index + 1))
        ⟨Nat.succ_pos _, (h.progress _ _ hp).2⟩).congr rfl rfl rfl rfl rfl rfl rfl rfl rfl rfl rfl
  | _ => exact h.congr rfl rfl rfl rfl rfl rfl rfl rfl rfl rfl rfl

theorem RaftCore.WF.stabilized (h : c.WF) (stableThrough : Option Nat) :
    (c.stabilized stableThrough).WF :=
  { h with log := h.log.congr rfl rfl }

theorem RaftCore.WF.activated (h : c.WF) : c.activated.WF := by
  have hlast := h.log.lastIndex_lt
  refine { h with votes := by rintro ⟨⟩, progress := ?_, leads := ?_ }
  · intro n p hp
    simp only [RaftCore.activated, BTreeMap.get_foldl_insert, BTreeMap.get_empty] at hp
    split at hp
    · simp only [Option.some.injEq] at hp
      subst hp
      exact ⟨Nat.succ_pos _, by show 0 < u64Max; omega⟩
    · simp at hp
  · intro _
    have hirr : Std.Irrefl (fun a b : NodeId => a < b) := ⟨fun a => irrefl_of (· < ·) a⟩
    refine (BTreeMap.keys_sorted _).eq_of_mem_iff (c.config.members_sorted.filter _) ?_
    intro n
    rw [BTreeMap.mem_keys]
    simp only [RaftCore.activated, BTreeMap.get_foldl_insert, BTreeMap.get_empty]
    by_cases hn : n ∈ c.config.members.filter (· ≠ c.config.localId)
    · rw [if_pos hn]
      exact ⟨fun _ => hn, fun _ => ⟨_, rfl⟩⟩
    · rw [if_neg hn]
      exact ⟨fun hex => by simp at hex, fun hm => absurd hm hn⟩

/-- The core after a snapshot with an index that has no successor was installed. The
invariant check stops it. -/
structure RaftCore.Overflowed (c : RaftCore C) : Prop where
  bound : u64Max ≤ c.hardState.commitIndex
  applied : c.appliedIndex = c.hardState.commitIndex
  last : c.log.lastIndex = c.hardState.commitIndex
  committed : c.log.committed = c.hardState.commitIndex
  emptied : c.log.entries = []

theorem RaftCore.WF.installed_cases (h : c.WF) {record : SnapshotRecord} {term : Nat}
    {log : RaftLog C} (install : c.log.installSnapshot record = .ok log) :
    ({ c.installed log record term with
        lastLogTerm := lastTermFrom log.snapshotTerm log.entries
        incomingSnapshot := none
        incomingSnapshotState := none }).WF ∨
    ({ c.installed log record term with
        lastLogTerm := lastTermFrom log.snapshotTerm log.entries
        incomingSnapshot := none
        incomingSnapshotState := none }).Overflowed := by
  have hcl := h.commit_lt
  have hal := h.applied_le
  have hcc := h.committed
  have hlog := install
  rw [h.log.installSnapshot, Except.ok.injEq] at hlog
  by_cases hb : record.metadata.index < u64Max
  · left
    have hwf := h.log.installed hb install
    refine { h with
      log := hwf, committed := ?_, commit_lt := ?_, applied_le := ?_, lastLogIndex := rfl
      lastLogTerm := rfl, snapshotIndex := ?_, votes := ?_, applying := ?_ }
    · rw [← hlog]
      simp only [RaftCore.installed, hcc]
    · show max c.hardState.commitIndex record.metadata.index < u64Max
      omega
    · show max c.appliedIndex record.metadata.index ≤
        max c.hardState.commitIndex record.metadata.index
      omega
    · rw [← hlog]
      simp [RaftCore.installed, RaftLog.snapshotIndex]
    · intro hv
      exact lt_of_lt_of_le (h.votes hv) (le_max_left _ _)
    · intro p hp
      exact (h.applying p hp).trans (le_max_left _ _)
  · right
    have hout : c.log.term record.metadata.index ≠ .ok record.metadata.term := by
      intro ht
      have := (h.log.term_isOk.mp ⟨_, ht⟩).2
      have := h.log.lastIndex_lt
      omega
    have hlast : log.lastIndex = record.metadata.index := by
      rw [← hlog, RaftLog.retained, if_neg hout]
      simp [RaftLog.lastIndex, RaftLog.snapshotIndex]
    have hmax : max c.hardState.commitIndex record.metadata.index = record.metadata.index := by
      omega
    have hmaxa : max c.appliedIndex record.metadata.index = record.metadata.index := by omega
    refine ⟨?_, ?_, ?_, ?_, ?_⟩
    · show u64Max ≤ max c.hardState.commitIndex record.metadata.index
      omega
    · show max c.appliedIndex record.metadata.index =
        max c.hardState.commitIndex record.metadata.index
      omega
    · show log.lastIndex = max c.hardState.commitIndex record.metadata.index
      omega
    · show log.committed = max c.hardState.commitIndex record.metadata.index
      rw [← hlog, hcc]
    · show log.entries = []
      rw [← hlog, RaftLog.retained, if_neg hout]

theorem RaftCore.WF.completionAct [Sha256] (h : c.WF) {id : EffectId} {outcome : EffectOutcome}
    (act : CompletionAct c id outcome s) :
    s.core.WF ∨ s.core.Overflowed ∧ (∃ snapshotId, outcome = .snapshotInstalled snapshotId) ∧
      ∃ to_ m, s.effects = [.sendMessage to_ m] := by
  cases act with
  | installed snapshotId record from_ term log found install =>
    exact (h.installed_cases install).imp_right fun ho => ⟨ho, ⟨snapshotId, rfl⟩, _, _, rfl⟩
  | compacted record log found compact =>
    left
    obtain ⟨hle, hterm, rfl⟩ := h.log.compact_eq_ok compact
    have hwf := h.log.compacted compact
    have hlast : ({ c.log with
        entries := c.log.entries.drop (record.metadata.index - c.log.snapshotIndex)
        snapshot := some record
        unstable := c.log.unstable.discardThrough record.metadata.index }).lastIndex =
        c.log.lastIndex := by
      obtain ⟨hlo, hhi⟩ := h.log.term_isOk.mp ⟨_, hterm⟩
      have hl := h.log.lastIndex
      rw [hwf.lastIndex]
      simp only [RaftLog.snapshotIndex, Option.elim_some, List.length_drop] at *
      omega
    refine { h with
      log := hwf, lastLogIndex := h.lastLogIndex.trans hlast.symm, lastLogTerm := ?_
      snapshotIndex := by simp [RaftLog.snapshotIndex] }
    obtain ⟨hlo, -⟩ := h.log.term_isOk.mp ⟨_, hterm⟩
    have hsplit := lastTermFrom_append c.log.snapshotTerm
      (c.log.entries.take (record.metadata.index - c.log.snapshotIndex))
      (c.log.entries.drop (record.metadata.index - c.log.snapshotIndex))
    rw [List.take_append_drop, h.log.take_terms hlo hterm] at hsplit
    exact h.lastLogTerm.trans hsplit
  | electedAlone stableThrough votes entry found counted won next noop =>
    exact .inl ((h.stabilized stableThrough).noopAppended
      ⟨next.index, next.term, next.terms, next.bound⟩).queued
  | applyDone pending found same =>
    exact .inl { h with applied_le := h.applying pending found, applying := by rintro p ⟨⟩ }
  | activated stableThrough found => exact .inl (h.stabilized stableThrough).activated
  | persistDone stableThrough => exact .inl (h.stabilized stableThrough)
  | votesRequested stableThrough => exact .inl (h.stabilized stableThrough)
  | voteAnswered stableThrough => exact .inl (h.stabilized stableThrough)
  | appendAnswered stableThrough => exact .inl (h.stabilized stableThrough)
  | _ => exact .inl (h.congr rfl rfl rfl rfl rfl rfl rfl rfl rfl rfl rfl)

/-- Only the completion of an install can leave the invariant. -/
theorem RaftCore.WF.act [Sha256] (h : c.WF) (act : Act c event s) :
    s.core.WF ∨ s.core.Overflowed ∧
      (∃ id snapshotId, event = .effectCompleted id (.snapshotInstalled snapshotId)) ∧
        ∃ to_ m, s.effects = [.sendMessage to_ m] := by
  cases act with
  | preVoteStarted =>
    exact .inl { h with votes := by rintro ⟨⟩, leads := by rintro ⟨⟩ }
  | campaigned => exact .inl h.candidacy.queued
  | quorumLost => exact .inl h.becomeFollower
  | heartbeat leader =>
    refine .inl { h with progress := ?_, leads := ?_ }
    · intro n p hp
      rw [BTreeMap.get_mapValues] at hp
      obtain ⟨q, hq, rfl⟩ := Option.map_eq_some_iff.mp hp
      exact h.progress n q hq
    · intro hl
      rw [BTreeMap.keys_mapValues]
      exact h.leads hl
  | message envelope members s known mine act =>
    have h₁ : ({ c with activeMembers := members }).WF :=
      h.congr rfl rfl rfl rfl rfl rfl rfl rfl rfl rfl rfl
    exact .inl (h₁.messageAct act)
  | proposed proposalId command encodedLen entry leader free next =>
    exact .inl (h.proposalAppended next proposalId).queued
  | readStarted readId => exact .inl (RaftCore.WF.roundStarted (s := ⟨c, []⟩) h readId)
  | completed id outcome s act =>
    exact (h.completionAct act).imp_right fun ⟨ho, ⟨snapshotId, same⟩, hm⟩ =>
      ⟨ho, ⟨id, snapshotId, by rw [same]⟩, hm⟩
  | _ => exact .inl (h.congr rfl rfl rfl rfl rfl rfl rfl rfl rfl rfl rfl)

/-- What is left when the effect counter runs out is well formed. -/
theorem RaftCore.WF.stuck [Sha256] (h : c.WF) {e : StepError} (stuck : Stuck c (Act c event) e s) :
    s.core.WF := by
  cases stuck with
  | dropped => exact h.congr rfl rfl rfl rfl rfl rfl rfl rfl rfl rfl rfl
  | queued d batch continuation full act =>
    rcases h.act act with wf | ⟨-, -, to_, m, hm⟩
    · exact wf.congr rfl rfl rfl rfl rfl rfl rfl rfl rfl rfl rfl
    · simp [Ctx.queued] at hm

theorem RaftCore.Overflowed.followUp {cause : Cause C} {s' : Ctx C} (h : s.core.Overflowed)
    (hf : FollowUp cause s s') : s'.core.Overflowed := by
  have hc := h.committed
  have hl := h.last
  have ha := h.applied
  cases hf with
  | applied entries noPersist noApply behind => omega
  | committed commit may noPersist quorum fresh held => omega
  | commitStuck commit may noPersist quorum fresh held => omega
  | readStarted readId rest =>
    obtain ⟨round, hr⟩ :=
      Ctx.roundStarted_core ⟨{ s.core with pendingReads := rest }, s.effects⟩ readId
    rw [hr]
    exact ⟨h.bound, ha, hl, hc, h.emptied⟩
  | _ => exact ⟨h.bound, ha, hl, hc, h.emptied⟩

/-- In the middle of a step the core is well formed, or it has installed a snapshot with an
index that has no successor. -/
theorem Act.settled [Sha256] (h : c.WF) {s' : Ctx C} (act : Act c event s)
    (rest : FollowUps ⟨c, event⟩ s s') : s'.core.WF ∨ s'.core.Overflowed := by
  induction rest with
  | refl => exact (h.act act).imp_right And.left
  | tail _ hstep ih => exact ih.imp (fun wf => wf.followUp hstep) fun beyond => beyond.followUp hstep

/-- A step that installs nothing is well formed in its middle. -/
theorem Act.settled_wf [Sha256] (h : c.WF) {s' : Ctx C} (act : Act c event s)
    (rest : FollowUps ⟨c, event⟩ s s') :
    s'.core.WF ∨ ∃ id snapshotId, event = .effectCompleted id (.snapshotInstalled snapshotId) := by
  rcases h.act act with wf | ⟨-, installs, -⟩
  · exact .inl (wf.followUps rest)
  · exact .inr installs

theorem Act.committed_eq [Sha256] (h : c.WF) {s' : Ctx C} (act : Act c event s)
    (rest : FollowUps ⟨c, event⟩ s s') :
    s'.core.log.committed = s'.core.hardState.commitIndex :=
  (act.settled h rest).elim (·.committed) (·.committed)

end Ruft
