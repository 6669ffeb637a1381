import Ruft.Lib.Ranking
import Ruft.ApplyOrder
import Ruft.MatchIndex

set_option autoImplicit false

/-!
# Votes, commits and applies of one core

A core votes for itself when it campaigns and for another candidate when that one's log is not
behind its own; its log stays as it is in that step. It commits what a leader has committed, or
what a quorum has acknowledged in its own term, and applies only what is committed.

## Main definitions

- `Casts` — a vote is given
- `Commits` — the commit index moves
- `Decides` — what a step decides

## Main results

- `Trace.decides` — every step of a core that takes no snapshots decides so
-/

namespace Ruft

open LeaderLogs

variable {C : Type} {c : RaftCore C} {event : Event C} {history : List (Record C)}

/-! ## Quorums -/

/-- Behind an index that the leader may commit stands a quorum of nodes that hold it. -/
theorem quorumCommit_holders {i : Nat} (wf : c.WF)
    (h : quorumCommit c.log c.progress c.config.quorum c.hardState.currentTerm = .ok (some i))
    (leading : c.role = .leader ∨ c.progress = .empty) :
    ∃ holders ⊆ c.config.members.toFinset, c.config.quorum ≤ holders.card ∧
      ∀ n ∈ holders, n = c.config.localId ∨ ∃ p, c.progress.get n = some p ∧ i ≤ p.matchIndex := by
  obtain ⟨le, found, -⟩ := quorumCommit_eq_some.mp h
  have sorted : (sortedMatches c.log c.progress).Pairwise (· ≤ ·) :=
    List.pairwise_insertionSort (· ≤ ·) _
  have count := Ranking.le_countP_of_ascending sorted le found
  let keys := (c.progress.toList.filter fun b => i ≤ b.2.matchIndex).map (·.1)
  have others : ∀ n ∈ keys, n ∈ c.config.members ∧ n ≠ c.config.localId := by
    intro n hn
    obtain ⟨b, hb, rfl⟩ := List.mem_map.mp hn
    have key : b.1 ∈ c.progress.keys := List.mem_map_of_mem (List.mem_filter.mp hb).1
    rcases leading with leader | none
    · rw [wf.leads leader] at key
      simpa using List.mem_filter.mp key
    · simp [none, BTreeMap.keys, BTreeMap.empty] at key
  have nodup : keys.Nodup := by
    have sublist : keys.Sublist c.progress.keys := List.filter_sublist.map _
    exact (c.progress.keys_sorted.imp ne_of_lt).sublist sublist
  refine ⟨insert c.config.localId keys.toFinset, ?_, ?_, ?_⟩
  · intro n hn
    rcases Finset.mem_insert.mp hn with rfl | hn
    · exact List.mem_toFinset.mpr c.config.local_mem
    · exact List.mem_toFinset.mpr (others n (List.mem_toFinset.mp hn)).1
  · have fresh : c.config.localId ∉ keys.toFinset := fun hn =>
      (others _ (List.mem_toFinset.mp hn)).2 rfl
    rw [Finset.card_insert_of_notMem fresh, List.toFinset_card_of_nodup nodup]
    refine count.trans ?_
    rw [sortedMatches, (List.perm_insertionSort _ _).countP_eq, List.countP_append,
      BTreeMap.values, List.map_map, List.countP_map, List.countP_eq_length_filter, List.length_map]
    refine Nat.add_le_add (le_of_eq rfl) ?_
    exact (List.countP_le_length).trans (by simp)
  · intro n hn
    rcases Finset.mem_insert.mp hn with rfl | hn
    · exact .inl rfl
    obtain ⟨b, hb, rfl⟩ := List.mem_map.mp (List.mem_toFinset.mp hn)
    obtain ⟨mem, reached⟩ := List.mem_filter.mp hb
    exact .inr ⟨b.2, BTreeMap.mem_toList.mp mem, by simpa using reached⟩

/-! ## What a step decides -/

/-- A vote is given: to the core itself in a new term, or to a candidate whose log is not behind. -/
inductive Casts (c : RaftCore C) (event : Event C) (d : RaftCore C) (candidate : NodeId) : Prop
  | own (mine : candidate = d.config.localId)
      (newer : c.hardState.currentTerm < d.hardState.currentTerm)
  | asked (envelope : Envelope C) (index logTerm lastTerm : Nat)
      (received : event = .messageReceived envelope) (from_ : envelope.from_ = candidate)
      (message : envelope.message = .requestVote d.hardState.currentTerm index logTerm)
      (last : c.log.term c.log.lastIndex = .ok lastTerm)
      (current : isLogUpToDate index logTerm c.log.lastIndex lastTerm = true)

/-- How the commit index moves. -/
inductive Commits (events : List (Event C)) (c : RaftCore C) (event : Event C) (d : RaftCore C) :
    Prop
  | kept (same : d.log.committed = c.log.committed)
  | told (envelope : Envelope C) (term prev prevTerm leaderCommit : Nat) (context : Option Bytes)
      (entries : List (Entry C)) (received : event = .messageReceived envelope)
      (message : envelope.message = .appendEntries term prev prevTerm leaderCommit context entries)
      (accepted : Accepted c event d term d.log.entries.length context)
      (commit : d.log.committed = max c.log.committed (min leaderCommit d.log.entries.length))
  | counted (at_ : d.log.term d.log.committed = .ok d.hardState.currentTerm)
      (positive : 0 < d.log.committed) (holders : Finset NodeId)
      (known : holders ⊆ d.config.members.toFinset) (quorum : d.config.quorum ≤ holders.card)
      (credited : ∀ n ∈ holders, n = d.config.localId ∨
        Credited events d.hardState.currentTerm n d.log.committed)

/-- What a step decides. -/
structure Decides (events : List (Event C)) (c : RaftCore C) (event : Event C) (s : Ctx C) :
    Prop where
  asks : ∀ to_ term index logTerm, .sendMessage to_ (.requestVote term index logTerm) ∈ s.effects →
    s.core.hardState.currentTerm = term ∧ s.core.log.lastIndex = index ∧
      s.core.log.term index = .ok logTerm
  casts : ∀ candidate, s.core.hardState.votedFor = some candidate →
    c.Votes s.core.hardState.currentTerm candidate ∨
      Casts c event s.core candidate ∧ s.core.log.entries = c.log.entries
  commits : Commits events c event s.core
  applies : ∀ id entries, .apply id entries ∈ s.effects → ∀ e ∈ entries,
    e.index ≤ s.core.log.committed ∧ s.core.log.entryAt e.index = .ok (some e)

theorem RaftCore.WF.lastTerm (wf : c.WF) : c.log.term c.log.lastIndex = .ok c.lastLogTerm := by
  rw [wf.lastLogTerm]
  exact wf.log.term_lastIndex

theorem MessageAct.casts {members : Finset NodeId} {envelope : Envelope C} {s : Ctx C} (wf : c.WF)
    (act : MessageAct { c with activeMembers := members } envelope.from_ envelope.message s)
    {candidate : NodeId} (h : s.core.hardState.votedFor = some candidate) :
    c.Votes s.core.hardState.currentTerm candidate ∨
      Casts c (.messageReceived envelope) s.core candidate ∧
        s.core.log.entries = c.log.entries := by
  generalize hm : envelope.message = message at act
  cases act with
  | termRaised | appendRejected => simp [Ctx.queued, RaftCore.termRaised] at h
  | voteNewer term index logTerm newer vote granted decided voted =>
    have h : vote = some candidate := h
    rw [voted] at h
    split at h
    · next grant =>
      obtain rfl := Option.some.inj h
      refine .inr ⟨.asked envelope index logTerm _ rfl rfl hm wf.lastTerm ?_, rfl⟩
      rw [← wf.lastLogIndex]
      exact decided.symm.trans grant
    · simp at h
  | voteFirst term index logTerm same free current =>
    obtain rfl := Option.some.inj h
    refine .inr ⟨.asked envelope index logTerm _ rfl rfl hm wf.lastTerm ?_, rfl⟩
    rw [← wf.lastLogIndex]
    exact current
  | campaigned =>
    obtain rfl := Option.some.inj h
    exact .inr ⟨.own rfl (Nat.lt_succ_self _), rfl⟩
  | appendAccepted term prev prevTerm leaderCommit context entries log appended hardState reached =>
    simp only [Ctx.queued, RaftCore.merged] at h
    split at h
    · simp at h
    · next old =>
      have old : ¬ c.hardState.currentTerm < term := old
      have reached : c.hardState.currentTerm ≤ term := reached
      exact .inl ⟨Nat.le_antisymm reached (Nat.not_lt.mp old), h⟩
  | _ => exact .inl ⟨rfl, h⟩

theorem Act.casts [Sha256] {s : Ctx C} (wf : c.WF) (bare : c.Bare) (act : Act c event s) {candidate : NodeId}
    (h : s.core.hardState.votedFor = some candidate) :
    c.Votes s.core.hardState.currentTerm candidate ∨
      Casts c event s.core candidate ∧ s.core.log.entries = c.log.entries := by
  cases act with
  | message envelope members s known mine act => exact act.casts wf h
  | campaigned =>
    obtain rfl := Option.some.inj h
    exact .inr ⟨.own rfl (Nat.lt_succ_self _), rfl⟩
  | completed id outcome s act =>
    cases act with
    | installed snapshotId record from_ term log found => simp [bare.incoming] at found
    | _ => exact .inl ⟨rfl, h⟩
  | readStarted readId =>
    obtain ⟨round, hr⟩ := Ctx.roundStarted_core ⟨c, []⟩ readId
    rw [hr] at h ⊢
    exact .inl ⟨rfl, h⟩
  | _ => exact .inl ⟨rfl, h⟩

theorem Act.asks [Sha256] {s : Ctx C} (wf : c.WF) (act : Act c event s) {to_ : NodeId}
    {term index logTerm : Nat} (h : .sendMessage to_ (.requestVote term index logTerm) ∈ s.effects) :
    s.core.hardState.currentTerm = term ∧ s.core.log.lastIndex = index ∧
      s.core.log.term index = .ok logTerm := by
  cases act with
  | message envelope members s known mine act =>
    obtain ⟨cluster, from_, n, message⟩ := envelope
    dsimp only at act
    cases act with
    | refused m reply refusal | appendRefused _ _ _ _ _ _ _ reply refusal =>
      simp only [List.mem_singleton, Effect.sendMessage.injEq] at h
      obtain ⟨-, rfl⟩ := h
      cases refusal
    | _ => simp [Ctx.queued] at h
  | completed id outcome s act =>
    cases act with
    | votesRequested =>
      obtain ⟨-, is⟩ := mem_toPeers h
      simp only [Message.requestVote.injEq] at is
      obtain ⟨rfl, rfl, rfl⟩ := is
      refine ⟨rfl, wf.lastLogIndex.symm, ?_⟩
      rw [wf.lastLogIndex]
      exact wf.lastTerm
    | applyDone => simp [Ctx.answered] at h
    | _ => simp [Ctx.queued] at h
  | preVoteStarted =>
    obtain ⟨-, is⟩ := mem_toPeers h
    simp at is
  | readStarted readId =>
    rcases Ctx.roundStarted_sends readId h with old | new
    · simp at old
    · cases new
  | _ => simp [Ctx.queued] at h

theorem Act.commits [Sha256] {s : Ctx C} (bare : c.Bare) (events : List (Event C))
    (act : Act c event s) : Commits events c event s.core := by
  cases act with
  | message envelope members s known mine act =>
    obtain ⟨cluster, from_, n, message⟩ := envelope
    dsimp only at act
    cases act with
    | appendAccepted t prev prevTerm leaderCommit context entries log appended hardState reached
        prefix_ run merge wf =>
      have last := wf.length_eq (merge.snapshot_eq.trans bare.log)
      refine .told _ t prev prevTerm leaderCommit context entries rfl rfl ?_ ?_
      · exact ⟨_, prev, prevTerm, leaderCommit, entries, log, appended, rfl, rfl,
          reached, rfl, prefix_, merge, rfl, rfl⟩
      · show max log.committed (min leaderCommit log.lastIndex) =
          max c.log.committed (min leaderCommit log.entries.length)
        rw [merge.committed_eq, last]
    | _ => exact .kept rfl
  | readStarted readId =>
    obtain ⟨round, hr⟩ := Ctx.roundStarted_core ⟨c, []⟩ readId
    exact .kept (by rw [hr])
  | completed id outcome s act =>
    cases act with
    | installed snapshotId record from_ term log found => simp [bare.incoming] at found
    | compacted record log found => exact absurd found (bare.compacting _ _)
    | _ => exact .kept rfl
  | _ => exact .kept rfl

/-- A leader commits what a quorum acknowledged. -/
theorem Accounting.counted {s : Ctx C} {commit : Nat} (quoting : Quoting history c event s)
    (h : Accounting history c event s)
    (quorum : quorumCommit s.core.log s.core.progress s.core.config.quorum
      s.core.hardState.currentTerm = .ok (some commit))
    (leading : s.core.role = .leader ∨ Cause.Proposed ⟨c, event⟩) :
    ∃ holders ⊆ s.core.config.members.toFinset, s.core.config.quorum ≤ holders.card ∧
      ∀ n ∈ holders, n = s.core.config.localId ∨
        Credited (event :: history.map (·.event)) s.core.hardState.currentTerm n commit := by
  have leading := leading.elim .inl quoting.proposed
  obtain ⟨holders, known, many, held⟩ := quorumCommit_holders quoting.wf quorum leading
  obtain ⟨-, -, fresh, -⟩ := quorumCommit_eq_some.mp quorum
  refine ⟨holders, known, many, fun n hn => (held n hn).imp_right fun ⟨p, found, reached⟩ => ?_⟩
  rcases leading with leader | none
  · rcases h.credits leader n p found with zero | ⟨-, credited⟩
    · omega
    · exact credited.le reached
  · simp [none] at found

theorem Commits.keep {events : List (Event C)} {d d' : RaftCore C} (h : Commits events c event d)
    (config : d'.config = d.config)
    (term : d'.hardState.currentTerm = d.hardState.currentTerm)
    (entries : d'.log.entries = d.log.entries) (snapshot : d'.log.snapshot = d.log.snapshot)
    (committed : d'.log.committed = d.log.committed) : Commits events c event d' := by
  cases h with
  | kept same => exact .kept (committed.trans same)
  | told envelope t prev prevTerm leaderCommit context es received message accepted commit =>
    refine .told envelope t prev prevTerm leaderCommit context es received message ?_ ?_
    · rw [entries]
      exact accepted.keep term entries
    · rw [committed, entries]
      exact commit
  | counted at_ positive holders known quorum credited =>
    refine .counted ?_ (committed ▸ positive) holders (config ▸ known) (config ▸ quorum) ?_
    · rw [RaftLog.term_congr entries snapshot, committed, term]
      exact at_
    · rw [config, term, committed]
      exact credited

theorem Casts.keep {d d' : RaftCore C} {candidate : NodeId} (h : Casts c event d candidate)
    (term : d'.hardState.currentTerm = d.hardState.currentTerm) (config : d'.config = d.config) :
    Casts c event d' candidate := by
  cases h with
  | own mine newer => exact .own (config ▸ mine) (term ▸ newer)
  | asked envelope index logTerm lastTerm received from_ message last current =>
    exact .asked envelope index logTerm lastTerm received from_ (term ▸ message) last current

theorem FollowUp.commits {s s' : Ctx C} (quoting : Quoting history c event s)
    (accounting : Accounting history c event s) (hf : FollowUp ⟨c, event⟩ s s')
    (h : Commits (event :: history.map (·.event)) c event s.core) :
    Commits (event :: history.map (·.event)) c event s'.core := by
  have frame := hf.frame
  cases hf with
  | committed commit may noPersist quorum fresh held term leading
  | commitStuck commit may noPersist quorum fresh held term leading =>
    obtain ⟨holders, known, many, credited⟩ := accounting.counted quoting quorum leading
    exact .counted term (Nat.zero_lt_of_lt fresh) holders known many credited
  | readStarted readId rest =>
    obtain ⟨round, hr⟩ :=
      Ctx.roundStarted_core ⟨{ s.core with pendingReads := rest }, s.effects⟩ readId
    exact h.keep frame.config frame.term frame.entries frame.snapshot (by rw [hr])
  | _ => exact h.keep frame.config frame.term frame.entries frame.snapshot rfl

/-- Entries are applied from the committed part of the log. -/
theorem FollowUp.applies {cause : Cause C} {s s' : Ctx C} (wf : s.core.WF)
    (hf : FollowUp cause s s') {id : EffectId} {entries : List (Entry C)}
    (h : .apply id entries ∈ s'.effects) : .apply id entries ∈ s.effects ∨
      ∀ e ∈ entries, e.index ≤ s.core.log.committed ∧
        s.core.log.entryAt e.index = .ok (some e) := by
  cases hf with
  | applied es noPersist noApply behind range =>
    refine (List.mem_append.mp h).imp_right fun new e he => ?_
    simp only [List.mem_singleton, Effect.apply.injEq] at new
    obtain ⟨-, rfl⟩ := new
    rw [wf.committed]
    exact wf.log.range_mem range he
  | appendSent | chunkRequested | buildRequested | committed =>
    exact .inl ((List.mem_append.mp h).resolve_right (by simp))
  | readReleased => exact .inl ((List.mem_append.mp h).resolve_right (by simp))
  | readStarted readId rest =>
    rcases Ctx.roundStarted_effects ⟨{ s.core with pendingReads := rest }, s.effects⟩ readId with
      he | ⟨context, he⟩
    · exact .inl (he ▸ h)
    · rw [he] at h
      refine .inl ((List.mem_append.mp h).resolve_right fun new => ?_)
      simp [Ctx.readHeartbeats, toPeers] at new
  | _ => exact .inl h

theorem Decides.mono {events events' : List (Event C)} {s : Ctx C} (h : Decides events c event s)
    (grows : events ⊆ events') : Decides events' c event s := by
  refine ⟨h.asks, h.casts, ?_, h.applies⟩
  cases h.commits with
  | kept same => exact .kept same
  | told envelope term prev prevTerm leaderCommit context entries received message accepted commit =>
    exact .told envelope term prev prevTerm leaderCommit context entries received message accepted
      commit
  | counted at_ positive holders known quorum credited =>
    exact .counted at_ positive holders known quorum fun n hn =>
      (credited n hn).imp_right fun heard => heard.mono grows

/-! ## Whole runs -/

/-- The law of a step after a history. -/
def Deciding (history : List (Record C)) (c : RaftCore C) (event : Event C) (s : Ctx C) : Prop :=
  Decides (event :: history.map (·.event)) c event s

/-- The step ends in a core with the same log and hard state. -/
theorem Decides.keep {events : List (Event C)} {s s' : Ctx C} (h : Decides events c event s)
    (config : s'.core.config = s.core.config) (hardState : s'.core.hardState = s.core.hardState)
    (log : s'.core.log = s.core.log)
    (sends : ∀ to_ m, .sendMessage to_ m ∈ s'.effects → .sendMessage to_ m ∈ s.effects)
    (applies : ∀ id es, .apply id es ∈ s'.effects → .apply id es ∈ s.effects) :
    Decides events c event s' where
  asks to_ term index logTerm sent := by
    rw [hardState, log]
    exact h.asks to_ term index logTerm (sends _ _ sent)
  casts candidate voted := by
    rw [hardState] at voted ⊢
    rw [log]
    exact (h.casts candidate voted).imp_right fun ⟨cast, same⟩ =>
      ⟨cast.keep (by rw [hardState]) config, same⟩
  commits := h.commits.keep config (by rw [hardState]) (by rw [log]) (by rw [log]) (by rw [log])
  applies id es applied := by
    rw [log]
    exact h.applies id es (applies id es applied)

theorem Deciding.followUp {s s' : Ctx C} (quoting : Quoting history c event s)
    (accounting : Accounting history c event s) (h : Deciding history c event s)
    (hf : FollowUp ⟨c, event⟩ s s') : Deciding history c event s' := by
  have frame := hf.frame
  refine ⟨?_, ?_, hf.commits quoting accounting h.commits, ?_⟩
  · intro to_ term index logTerm sent
    rcases hf.sends sent with old | new
    · rw [frame.term, RaftLog.term_congr frame.entries frame.snapshot,
        RaftLog.lastIndex_congr frame.entries frame.snapshot]
      exact h.asks to_ term index logTerm old
    · cases new
  · intro candidate voted
    rw [frame.votedFor] at voted
    rw [frame.term, frame.entries]
    exact (h.casts candidate voted).imp_right fun ⟨cast, same⟩ =>
      ⟨cast.keep frame.term frame.config, same⟩
  · intro id entries applied e he
    have now : e.index ≤ s.core.log.committed ∧ s.core.log.entryAt e.index = .ok (some e) := by
      rcases hf.applies quoting.wf applied with old | new
      · exact h.applies id entries old e he
      · exact new e he
    rw [RaftLog.entryAt_congr frame.entries frame.snapshot]
    exact ⟨now.1.trans frame.commit_le, now.2⟩

theorem deciding_law [Sha256] : StepLaw (Snapshotless : Condition C)
    (fun history c => Quoted history c ∧ Accounts history c ∧
      ∀ term m context, c.Owes term m context → Acked history term m context)
    (fun history c event s => Quoting history c event s ∧ Accounting history c event s ∧
      Unsnapshotted history c event) Deciding where
  act := by
    intro history c event s hs h act _
    have bare := h.1.bare
    refine ⟨fun to_ term index logTerm sent => act.asks hs.wf sent,
      fun candidate voted => act.casts hs.wf bare voted, act.commits bare _, ?_⟩
    intro id entries applied
    have silent := (act.apply hs.wf).2
    rw [← mem_applies, silent] at applied
    simp at applied
  followUp hj h hf := h.followUp hj.1 hj.2.1 hf
  finished := by
    intro history c event s h
    obtain ⟨proposals, hp⟩ := s.finished_core c
    obtain ⟨new, hnew, results⟩ := s.finished_effects c
    refine h.keep (by rw [hp]) (by rw [hp]) (by rw [hp]) (fun _ _ => Ctx.finished_sends c) ?_
    intro id es applied
    rw [hnew] at applied
    refine (List.mem_append.mp applied).resolve_right fun more => ?_
    obtain ⟨p, result, is⟩ := results _ more
    simp at is
  closed := by
    intro history c event s d effects h slowed sub
    obtain ⟨reads, store, incoming, building, applying, persist, stopped, reason, rfl⟩ := slowed
    exact h.keep rfl rfl rfl (fun _ _ sent => sub sent) fun _ _ applied => sub applied
  idle history c event := ⟨by simp, fun candidate voted => .inl ⟨rfl, voted⟩, .kept rfl, by simp⟩

theorem Trace.decides [Sha256] {config : Config}
    (run : Trace (RaftCore.new config .initial) history c) (plain : Holds Snapshotless history) :
    Obeys Deciding history :=
  (Trace.invariant (quotingAccounting_keeps.law deciding_law) (fun _ _ _ h => h.1)
    (RaftCore.new_wf config _)
    ⟨⟨RaftCore.new_quoted config, RaftCore.new_accounts config⟩, trivial⟩ run plain).1.2

end Ruft
