import Ruft.Leadership

set_option autoImplicit false

/-!
# One no-op per leadership

A candidate with a quorum of votes appends its no-op and stays candidate until the no-op is
durable. A vote that arrives in between finds the quorum again and appends another one.

## Main definitions

- `Record.Noop` — the step appended the no-op
- `OneNoop` — no term has two of them, and a leader knows the index of its own
- `NoopOnce` — the condition on the steps of a run
- `Tenure` — the invariant of a core between its candidacy and its leadership

## Main results

- `one_noop` — a run whose steps meet the condition appends one no-op per term
-/

namespace Ruft

variable {C : Type} {c d : RaftCore C} {event : Event C} {history : List (Record C)} {s : Ctx C}

/-- The entries come from another leader. -/
def Event.merges : Event C → Bool
  | .messageReceived envelope => match envelope.message with
    | .appendEntries _ _ _ _ _ _ => true
    | _ => false
  | _ => false

/-- The step appended the entry, a no-op of the core itself. -/
structure Record.Noop (r : Record C) (e : Entry C) : Prop where
  noop : e.payload = .leaderNoop
  own : r.event.merges = false
  held : e ∈ r.after.log.entries
  fresh : e ∉ r.before.log.entries

/-- A no-op of the core's term was appended, and the core knows its index. -/
def Claimed (history : List (Record C)) (c : RaftCore C) : Prop :=
  ∃ r ∈ history, ∃ e, r.Noop e ∧ e.term = c.hardState.currentTerm ∧
    c.leaderNoopIndex = some e.index

/-- No no-op of the term was appended. -/
def Unclaimed (history : List (Record C)) (term : Nat) : Prop :=
  ∀ r ∈ history, ∀ e, r.Noop e → e.term ≠ term

/-- At most one no-op is appended in a term, and a leader knows where that of its term is. -/
structure OneNoop (history : List (Record C)) (c : RaftCore C) : Prop where
  once : history.Pairwise fun later earlier => ∀ e f, later.Noop e → earlier.Noop f →
    e.term ≠ f.term
  single : ∀ r ∈ history, ∀ e f, r.Noop e → r.Noop f → e = f
  leads : c.role = .leader → Claimed history c

/-- A vote is counted only while a quorum is missing, or before the candidate's own vote is
durable. -/
def CountsOnce (c : RaftCore C) : Event C → Prop
  | .messageReceived envelope => ∀ granted votes,
      envelope.message = .voteResponse c.hardState.currentTerm granted → c.role = .candidate →
      c.votes = some votes → votes.hasQuorum = true →
      ∃ id stable, c.pendingPersist = some ⟨id, stable, .broadcastVoteRequests⟩
  | _ => True

/-- While the no-op is being persisted, no other leader of the term speaks, what a leader of a
newer term sends can be merged, and no installed snapshot raises the term; nor does one raise
the term of a leader. -/
def KeepsTenure (c : RaftCore C) : Event C → Prop
  | .messageReceived envelope => ∀ id stable term prev prevTerm leaderCommit context entries,
      c.pendingPersist = some ⟨id, stable, .activateLeader⟩ →
      envelope.message = .appendEntries term prev prevTerm leaderCommit context entries →
      c.hardState.currentTerm ≤ term → c.hardState.currentTerm < term ∧
        (c.log.term prev = .ok prevTerm → ∃ r, c.log.mergeFromLeader entries = .ok r)
  | .effectCompleted id (.snapshotInstalled _) => ∀ record from_ term,
      c.incomingSnapshotState = some (.installing id record from_ term) →
      c.hardState.currentTerm < term → c.role ≠ .leader ∧
        ∀ id stable, c.pendingPersist ≠ some ⟨id, stable, .activateLeader⟩
  | _ => True

def NoopOnce : Condition C := fun _ c event => Room c ∧ CountsOnce c event ∧ KeepsTenure c event

/-! ## The invariant -/

/-- A core whose term has no no-op yet, or that leads or is about to with the one it has. -/
structure Tenure (history : List (Record C)) (c : RaftCore C) : Prop extends OneNoop history c where
  past : ∀ r ∈ history, ∀ e, r.Noop e → e.term ≤ c.hardState.currentTerm
  counting : c.role = .candidate → ∀ votes, c.votes = some votes → votes.hasQuorum = false →
    Unclaimed history c.hardState.currentTerm
  asking : ∀ id stable, c.pendingPersist = some ⟨id, stable, .broadcastVoteRequests⟩ →
    Unclaimed history c.hardState.currentTerm
  activating : ∀ id stable, c.pendingPersist = some ⟨id, stable, .activateLeader⟩ →
    Claimed history c

theorem Claimed.mono {history' : List (Record C)} (h : Claimed history c)
    (grows : history ⊆ history') (term : d.hardState.currentTerm = c.hardState.currentTerm)
    (noop : d.leaderNoopIndex = c.leaderNoopIndex) : Claimed history' d := by
  obtain ⟨r, hr, e, appended, is, index⟩ := h
  exact ⟨r, grows hr, e, appended, is.trans term.symm, noop.trans index⟩

/-- A step that appends no no-op. -/
theorem Tenure.next {r : Record C} (h : Tenure history c) (silent : ∀ e, ¬ r.Noop e)
    (grows : c.hardState.currentTerm ≤ d.hardState.currentTerm)
    (counting : d.role = .candidate → ∀ votes, d.votes = some votes → votes.hasQuorum = false →
      c.hardState.currentTerm < d.hardState.currentTerm ∨
      c.role = .candidate ∧ ∃ votes, c.votes = some votes ∧ votes.hasQuorum = false)
    (asking : ∀ id stable, d.pendingPersist = some ⟨id, stable, .broadcastVoteRequests⟩ →
      c.hardState.currentTerm < d.hardState.currentTerm ∨
      c.pendingPersist = some ⟨id, stable, .broadcastVoteRequests⟩)
    (activating : ∀ id stable, d.pendingPersist = some ⟨id, stable, .activateLeader⟩ →
      c.pendingPersist = some ⟨id, stable, .activateLeader⟩ ∧
      d.hardState.currentTerm = c.hardState.currentTerm ∧ d.leaderNoopIndex = c.leaderNoopIndex)
    (leads : d.role = .leader → Claimed history c ∧
      d.hardState.currentTerm = c.hardState.currentTerm ∧ d.leaderNoopIndex = c.leaderNoopIndex) :
    Tenure (r :: history) d := by
  have old : ∀ {r' e}, r' ∈ r :: history → r'.Noop e → r' ∈ history := by
    intro r' e hr appended
    exact (List.mem_cons.mp hr).resolve_left fun is => silent e (is ▸ appended)
  have unclaimed : (c.hardState.currentTerm < d.hardState.currentTerm ∨
      Unclaimed history c.hardState.currentTerm) →
      Unclaimed (r :: history) d.hardState.currentTerm := by
    intro why r' hr e appended
    have bound := h.past r' (old hr appended) e appended
    rcases why with newer | free
    · omega
    · have := free r' (old hr appended) e appended
      omega
  refine ⟨⟨?_, ?_, ?_⟩, ?_, ?_, ?_, ?_⟩
  · exact List.pairwise_cons.mpr ⟨fun _ _ e _ appended => absurd appended (silent e), h.once⟩
  · exact fun r' hr e f he hf => h.single r' (old hr he) e f he hf
  · intro leader
    obtain ⟨claimed, term, noop⟩ := leads leader
    exact claimed.mono (List.subset_cons_self _ _) term noop
  · exact fun r' hr e appended => (h.past r' (old hr appended) e appended).trans grows
  · intro candidate votes found missing
    refine unclaimed ((counting candidate votes found missing).imp_right ?_)
    rintro ⟨role, votes', found', missing'⟩
    exact h.counting role votes' found' missing'
  · exact fun id stable found => unclaimed ((asking id stable found).imp_right (h.asking id stable))
  · intro id stable found
    obtain ⟨before, term, noop⟩ := activating id stable found
    exact (h.activating id stable before).mono (List.subset_cons_self _ _) term noop

/-- The no-op that wins an election is the only one of its step. -/
theorem Record.noop_appended {r : Record C} {entry : Entry C} (wf : r.before.WF)
    (next : entry.Continues r.before) (noop : entry.payload = .leaderNoop)
    (own : r.event.merges = false)
    (entries : r.after.log.entries = r.before.log.entries ++ [entry]) :
    r.Noop entry ∧ ∀ e, r.Noop e → e = entry := by
  refine ⟨⟨noop, own, by simp [entries], fun old => ?_⟩, fun e appended => ?_⟩
  · have le := wf.log.mem_index_le old
    have index := next.index
    omega
  · have held := appended.held
    rw [entries] at held
    exact List.mem_singleton.mp ((List.mem_append.mp held).resolve_left appended.fresh)

/-- A step that appends the no-op of a term that has none. -/
theorem Tenure.append {r : Record C} {entry : Entry C} (h : Tenure history r.before)
    (wf : r.before.WF) (next : entry.Continues r.before) (noop : entry.payload = .leaderNoop)
    (own : r.event.merges = false)
    (entries : r.after.log.entries = r.before.log.entries ++ [entry])
    (free : Unclaimed history r.before.hardState.currentTerm)
    (term : r.after.hardState.currentTerm = r.before.hardState.currentTerm)
    (index : r.after.leaderNoopIndex = some entry.index)
    (won : ∀ votes, r.after.votes = some votes → votes.hasQuorum = true)
    (slot : ∀ id stable, r.after.pendingPersist ≠ some ⟨id, stable, .broadcastVoteRequests⟩) :
    Tenure (r :: history) r.after := by
  obtain ⟨is, only⟩ := Record.noop_appended wf next noop own entries
  have claimed : Claimed (r :: history) r.after :=
    ⟨r, List.mem_cons_self .., entry, is, next.term.trans term.symm, index⟩
  refine ⟨⟨?_, ?_, fun _ => claimed⟩, ?_, ?_, ?_, fun _ _ _ => claimed⟩
  · refine List.pairwise_cons.mpr ⟨fun r' hr e f appended before => ?_, h.once⟩
    rw [only e appended, next.term]
    exact (free r' hr f before).symm
  · refine List.forall_mem_cons.mpr ⟨fun e f he hf => ?_, h.single⟩
    exact (only e he).trans (only f hf).symm
  · refine List.forall_mem_cons.mpr ⟨fun e appended => ?_, fun r' hr e appended => ?_⟩
    · rw [only e appended, next.term, term]
    · rw [term]
      exact h.past r' hr e appended
  · intro _ votes found missing
    simp [won votes found] at missing
  · exact fun id stable found => absurd found (slot id stable)

/-! ## Acts -/

/-- A step that only drops entries. -/
theorem Record.not_noop {r : Record C} (old : r.after.log.entries ⊆ r.before.log.entries)
    (e : Entry C) : ¬ r.Noop e := fun appended => appended.fresh (old appended.held)

/-- A step that keeps what counts. -/
theorem Tenure.same {r : Record C} (h : Tenure history c) (silent : ∀ e, ¬ r.Noop e)
    (term : d.hardState.currentTerm = c.hardState.currentTerm) (role : d.role = c.role)
    (votes : d.votes = c.votes) (noop : d.leaderNoopIndex = c.leaderNoopIndex)
    (slot : ∀ pending, d.pendingPersist = some pending → c.pendingPersist = some pending ∨
      pending.continuation ≠ .broadcastVoteRequests ∧ pending.continuation ≠ .activateLeader) :
    Tenure (r :: history) d := by
  refine h.next silent term.ge ?_ ?_ ?_ ?_
  · intro candidate tracker found missing
    exact .inr ⟨role ▸ candidate, tracker, votes ▸ found, missing⟩
  · exact fun id stable found => .inr ((slot _ found).resolve_right fun other => other.1 rfl)
  · intro id stable found
    exact ⟨(slot _ found).resolve_right fun other => other.2 rfl, term, noop⟩
  · exact fun leader => ⟨h.leads (role ▸ leader), term, noop⟩

/-- A core that starts over in a newer term. -/
theorem Tenure.raised {r : Record C} (h : Tenure history c) (silent : ∀ e, ¬ r.Noop e)
    (newer : c.hardState.currentTerm < d.hardState.currentTerm) (role : d.role ≠ .leader)
    (slot : ∀ id stable, d.pendingPersist ≠ some ⟨id, stable, .activateLeader⟩) :
    Tenure (r :: history) d :=
  h.next silent newer.le (fun _ _ _ _ => .inl newer) (fun _ _ _ => .inl newer)
    (fun id stable found => absurd found (slot id stable)) fun leader => absurd leader role

/-- A core that follows, with no persist outstanding that an election waits for. -/
theorem Tenure.follower {r : Record C} (h : Tenure history c) (silent : ∀ e, ¬ r.Noop e)
    (grows : c.hardState.currentTerm ≤ d.hardState.currentTerm) (role : d.role = .follower)
    (asking : ∀ id stable, d.pendingPersist = some ⟨id, stable, .broadcastVoteRequests⟩ →
      c.pendingPersist = some ⟨id, stable, .broadcastVoteRequests⟩)
    (activating : ∀ id stable, d.pendingPersist ≠ some ⟨id, stable, .activateLeader⟩) :
    Tenure (r :: history) d :=
  h.next silent grows (by simp [role]) (fun id stable found => .inr (asking id stable found))
    (fun id stable found => absurd found (activating id stable)) (by simp [role])

theorem Tenure.messageAct {members : Finset NodeId} (h : Tenure history c) (wf : c.WF)
    {envelope : Envelope C} {result : Outcome StepError (StepOutput C)}
    (counts : CountsOnce c (.messageReceived envelope))
    (keeps : KeepsTenure c (.messageReceived envelope))
    (act : MessageAct { c with activeMembers := members } envelope.from_ envelope.message s) :
    Tenure (⟨c, .messageReceived envelope, result, s.core⟩ :: history) s.core := by
  have kept : s.core.log.entries = c.log.entries →
      ∀ e, ¬ (Record.mk c (.messageReceived envelope) result s.core).Noop e :=
    fun same => Record.not_noop (by rw [same]; exact List.Subset.refl _)
  generalize hm : envelope.message = m at act
  cases act with
  | termRaised m term is newer =>
    exact h.raised (kept rfl) newer (by simp [RaftCore.termRaised, RaftCore.becomeFollower, Ctx.queued])
      (by simp [Ctx.queued])
  | voteNewer term index logTerm newer =>
    exact h.raised (kept rfl) newer (by simp [Ctx.queued]) (by simp [Ctx.queued])
  | voteFirst term index logTerm same =>
    refine h.same (kept rfl) same.symm rfl rfl rfl fun pending found => .inr ?_
    simp only [Ctx.queued, Option.some.injEq] at found
    simp [← found]
  | preVoteCounted term granted votes role roles notLeader =>
    have notLeader : c.role = .preCandidate := notLeader
    refine h.next (kept rfl) le_rfl ?_ (fun _ _ found => .inr found)
      (fun _ _ found => ⟨found, rfl, rfl⟩) ?_
    · rcases roles with ⟨rfl, -⟩ | ⟨rfl, -⟩ <;> simp [notLeader]
    · rcases roles with ⟨rfl, -⟩ | ⟨rfl, -⟩ <;> simp [notLeader]
  | campaigned =>
    exact h.raised (kept rfl) (Nat.lt_succ_self _) (by simp [Ctx.queued, RaftCore.candidacy])
      (by simp [Ctx.queued])
  | voteCounted term granted votes same candidate found =>
    refine h.next (kept rfl) le_rfl ?_ (fun _ _ found => .inr found)
      (fun _ _ found => ⟨found, rfl, rfl⟩) fun leader => ?_
    · rintro - tracker ⟨⟩ missing
      refine .inr ⟨candidate, votes, found, ?_⟩
      by_contra won
      rw [QuorumTracker.hasQuorum_record (by simpa using won)] at missing
      simp at missing
    · exact absurd (candidate.symm.trans leader) (by simp)
  | voteLost term granted candidate =>
    exact h.next (kept rfl) le_rfl (by simp) (fun _ _ found => .inr found)
      (fun _ _ found => ⟨found, rfl, rfl⟩) (by simp)
  | elected term granted votes entry same candidate found won next noop =>
    have same : term = c.hardState.currentTerm := same
    refine Tenure.append (r := ⟨c, .messageReceived envelope, result, _⟩) h wf
      ⟨next.index, next.term, next.terms, next.bound⟩ noop (by simp [Event.merges, hm]) rfl ?_ rfl
      rfl ?_ (by simp [Ctx.queued])
    · cases quorum : votes.hasQuorum with
      | false => exact h.counting candidate votes found quorum
      | true =>
        obtain ⟨id, stable, waits⟩ := counts granted votes (same ▸ hm) candidate found quorum
        exact h.asking id stable waits
    · rintro tracker ⟨⟩
      exact won
  | appendFailed term prev prevTerm leaderCommit context entries reached prefix_ failed =>
    refine h.follower (kept rfl) le_rfl rfl (fun _ _ found => found) fun id stable found => ?_
    obtain ⟨-, merges⟩ := keeps id stable _ _ _ _ _ _ found hm reached
    obtain ⟨r, ok⟩ := merges prefix_
    obtain ⟨e, error⟩ := failed
    exact absurd (ok.symm.trans error) (by simp)
  | appendRefused term prev prevTerm leaderCommit context entries same =>
    refine h.follower (kept rfl) le_rfl rfl (fun _ _ found => found) fun id stable found => ?_
    exact absurd same (keeps id stable _ _ _ _ _ _ found hm (Nat.le_of_eq same)).1.ne
  | appendHeld term prev prevTerm leaderCommit context entries same =>
    refine h.follower (kept rfl) le_rfl rfl (fun _ _ found => found) fun id stable found => ?_
    exact absurd same (keeps id stable _ _ _ _ _ _ found hm (Nat.le_of_eq same)).1.ne
  | appendRejected term prev prevTerm leaderCommit context entries newer =>
    exact h.raised (kept rfl) newer (by simp [RaftCore.termRaised, RaftCore.becomeFollower, Ctx.queued])
      (by simp [Ctx.queued])
  | appendAccepted term prev prevTerm leaderCommit context entries log appended hardState reached =>
    refine h.follower (fun e appended => ?_) reached rfl (by simp [Ctx.queued]) (by simp [Ctx.queued])
    have own := appended.own
    simp [Event.merges, hm] at own
  | _ => exact h.same (kept rfl) rfl rfl rfl rfl fun _ found => .inl found

theorem Tenure.completionAct [Sha256] (h : Tenure history c) (wf : c.WF) {id : EffectId}
    {outcome : EffectOutcome} {result : Outcome StepError (StepOutput C)}
    (keeps : KeepsTenure c (.effectCompleted id outcome)) (act : CompletionAct c id outcome s) :
    Tenure (⟨c, .effectCompleted id outcome, result, s.core⟩ :: history) s.core := by
  have kept : s.core.log.entries ⊆ c.log.entries →
      ∀ e, ¬ (Record.mk c (.effectCompleted id outcome) result s.core).Noop e :=
    fun sub => Record.not_noop sub
  cases act with
  | installed snapshotId record from_ term log found install =>
    have silent := kept (wf.log.installed_entries install)
    by_cases newer : c.hardState.currentTerm < term
    · obtain ⟨notLeader, idle⟩ := keeps record from_ term found newer
      exact h.raised silent (lt_of_lt_of_le newer (le_max_right _ _)) notLeader idle
    · have same : max c.hardState.currentTerm term = c.hardState.currentTerm := by omega
      exact h.same silent same rfl rfl rfl fun _ found => .inl found
  | compacted record log found compact =>
    obtain ⟨-, -, rfl⟩ := wf.log.compact_eq_ok compact
    exact h.same (kept (List.drop_subset _ _)) rfl rfl rfl rfl fun _ found => .inl found
  | electedAlone stableThrough votes entry found counted won next noop =>
    refine Tenure.append (r := ⟨c, .effectCompleted id .persisted, result, _⟩) h wf next noop rfl rfl
      (h.asking id stableThrough found) rfl rfl ?_ (by simp [Ctx.queued])
    intro tracker held
    obtain rfl : votes = tracker := Option.some.inj (counted.symm.trans held)
    exact won
  | activated stableThrough found =>
    exact h.next (kept (List.Subset.refl _)) le_rfl (by simp [RaftCore.activated])
      (by simp [RaftCore.activated, RaftCore.stabilized])
      (by simp [RaftCore.activated, RaftCore.stabilized])
      fun _ => ⟨h.activating id stableThrough found, rfl, rfl⟩
  | persistDropped | persistDone | votesRequested | voteAnswered | appendAnswered =>
    exact h.same (kept (List.Subset.refl _)) rfl rfl rfl rfl (by simp [RaftCore.stabilized])
  | _ => exact h.same (kept (List.Subset.refl _)) rfl rfl rfl rfl fun _ found => .inl found

theorem Tenure.act [Sha256] (h : Tenure history c) (wf : c.WF)
    {result : Outcome StepError (StepOutput C)} (counts : CountsOnce c event)
    (keeps : KeepsTenure c event) (act : Act c event s) :
    Tenure (⟨c, event, result, s.core⟩ :: history) s.core := by
  have kept : s.core.log.entries = c.log.entries →
      ∀ e, ¬ (Record.mk c event result s.core).Noop e :=
    fun same => Record.not_noop (by rw [same]; exact List.Subset.refl _)
  cases act with
  | message envelope members s known mine act => exact h.messageAct wf counts keeps act
  | completed id outcome s act => exact h.completionAct wf keeps act
  | preVoteStarted notLeader free =>
    exact h.next (kept rfl) le_rfl (by simp) (by simp [free]) (by simp [free]) (by simp)
  | campaigned =>
    exact h.raised (kept rfl) (Nat.lt_succ_self _) (by simp [Ctx.queued, RaftCore.candidacy])
      (by simp [Ctx.queued])
  | quorumLost leader free =>
    exact h.follower (kept rfl) le_rfl rfl (fun _ _ found => found)
      (by simp [RaftCore.becomeFollower, free])
  | proposed proposalId command encodedLen entry leader free next payload =>
    refine h.same (fun e appended => ?_) rfl rfl rfl rfl fun pending found => .inr ?_
    · have held : e ∈ c.log.entries ++ [entry] := appended.held
      obtain rfl := List.mem_singleton.mp ((List.mem_append.mp held).resolve_left appended.fresh)
      exact absurd (payload.symm.trans appended.noop) (by simp)
    · simp only [Ctx.queued, Option.some.injEq] at found
      simp [← found]
  | readStarted readId =>
    obtain ⟨round, hr⟩ := Ctx.roundStarted_core ⟨c, []⟩ readId
    rw [hr] at kept ⊢
    exact h.same (kept rfl) rfl rfl rfl rfl fun _ found => .inl found
  | _ => exact h.same (kept rfl) rfl rfl rfl rfl fun _ found => .inl found

/-! ## Whole runs -/

/-- The rest of a step keeps the tenure. -/
theorem Tenure.after {d' : RaftCore C} {result result' : Outcome StepError (StepOutput C)}
    (h : Tenure (⟨c, event, result, d⟩ :: history) d) (entries : d'.log.entries = d.log.entries)
    (term : d'.hardState.currentTerm = d.hardState.currentTerm) (role : d'.role = d.role)
    (votes : d'.votes = d.votes) (noop : d'.leaderNoopIndex = d.leaderNoopIndex)
    (slot : d'.pendingPersist = d.pendingPersist ∨ ∃ id stable,
      d'.pendingPersist = some ⟨id, stable, .applyCommitted⟩) :
    Tenure (⟨c, event, result', d'⟩ :: history) d' := by
  have same : ∀ e, (Record.mk c event result' d').Noop e ↔ (Record.mk c event result d).Noop e := by
    intro e
    refine ⟨fun a => ⟨a.noop, a.own, ?_, a.fresh⟩, fun a => ⟨a.noop, a.own, ?_, a.fresh⟩⟩
    · exact entries ▸ a.held
    · exact entries.symm ▸ a.held
  have claimed : Claimed (⟨c, event, result, d⟩ :: history) d →
      Claimed (⟨c, event, result', d'⟩ :: history) d' := by
    rintro ⟨r, hr, e, appended, is, index⟩
    rcases List.mem_cons.mp hr with rfl | hr
    · exact ⟨_, List.mem_cons_self .., e, (same e).mpr appended, is.trans term.symm,
        noop.trans index⟩
    · exact ⟨r, List.mem_cons_of_mem _ hr, e, appended, is.trans term.symm, noop.trans index⟩
  have unclaimed : Unclaimed (⟨c, event, result, d⟩ :: history) d.hardState.currentTerm →
      Unclaimed (⟨c, event, result', d'⟩ :: history) d'.hardState.currentTerm := by
    intro free
    rw [term]
    obtain ⟨now, before⟩ := List.forall_mem_cons.mp free
    exact List.forall_mem_cons.mpr ⟨fun e appended => now e ((same e).mp appended), before⟩
  have waits : ∀ pending, pending.continuation ≠ .applyCommitted →
      d'.pendingPersist = some pending → d.pendingPersist = some pending := by
    intro pending other found
    rcases slot with kept | ⟨id, stable, new⟩
    · exact kept ▸ found
    · obtain rfl := Option.some.inj (new.symm.trans found)
      exact absurd rfl other
  refine ⟨⟨?_, ?_, ?_⟩, ?_, ?_, ?_, ?_⟩
  · obtain ⟨now, before⟩ := List.pairwise_cons.mp h.once
    exact List.pairwise_cons.mpr
      ⟨fun r hr e f appended => now r hr e f ((same e).mp appended), before⟩
  · obtain ⟨now, before⟩ := List.forall_mem_cons.mp h.single
    exact List.forall_mem_cons.mpr
      ⟨fun e f he hf => now e f ((same e).mp he) ((same f).mp hf), before⟩
  · exact fun leader => claimed (h.leads (role ▸ leader))
  · rw [term]
    obtain ⟨now, before⟩ := List.forall_mem_cons.mp h.past
    exact List.forall_mem_cons.mpr ⟨fun e appended => now e ((same e).mp appended), before⟩
  · exact fun candidate tracker found missing =>
      unclaimed (h.counting (role ▸ candidate) tracker (votes ▸ found) missing)
  · exact fun id stable found => unclaimed (h.asking id stable (waits _ (by simp) found))
  · exact fun id stable found => claimed (h.activating id stable (waits _ (by simp) found))

/-- A step that appends nothing and leaves the core in its term and role. -/
theorem OneNoop.same {r : Record C} (h : OneNoop history c) (silent : ∀ e, ¬ r.Noop e)
    (term : d.hardState.currentTerm = c.hardState.currentTerm) (role : d.role = c.role)
    (noop : d.leaderNoopIndex = c.leaderNoopIndex) : OneNoop (r :: history) d where
  once := List.pairwise_cons.mpr ⟨fun _ _ e _ appended => absurd appended (silent e), h.once⟩
  single := List.forall_mem_cons.mpr ⟨fun e _ appended => absurd appended (silent e), h.single⟩
  leads leader := (h.leads (role ▸ leader)).mono (List.subset_cons_self _ _) term noop

theorem tenure_keeps [Sha256] : Keeps (NoopOnce : Condition C) Tenure
    (fun history c event s => ∀ result, Tenure (⟨c, event, result, s.core⟩ :: history) s.core)
    OneNoop where
  act hs h act _ := h.act hs.wf hs.meets.2.1 hs.meets.2.2 act
  followUp _ _ _ h hf result := by
    have frame := hf.frame
    exact (h result).after frame.entries frame.term frame.role frame.votes frame.noop
      hf.pendingPersist
  finished := by
    intro history c event s _ h result
    obtain ⟨proposals, core⟩ := s.finished_core c
    rw [core]
    exact (h result).after rfl rfl rfl rfl rfl (.inl rfl)
  returned changed _ h := h _
  failed e _ h _ := h (Outcome.raise e)
  safe h := h.toOneNoop
  ended := by
    intro history c event s e reason _ h
    have stopped : Tenure (⟨c, event, Outcome.raise e, s.core.stop reason⟩ :: history)
        (s.core.stop reason) := (h (Outcome.raise e)).after rfl rfl rfl rfl rfl (.inl rfl)
    exact stopped.toOneNoop
  halted e reason _ h halt := by
    obtain ⟨-, reads, store, incoming, building, applying, persist, rfl⟩ := halt
    exact h.toOneNoop.same (Record.not_noop (List.Subset.refl _)) rfl rfl rfl
  idle c event result _ _ h := h.same (Record.not_noop (List.Subset.refl _)) rfl rfl rfl

theorem RaftCore.new_tenure (config : Config) (recovered : RecoveredState C) :
    Tenure [] (RaftCore.new config recovered) where
  once := .nil
  single := by simp
  leads := by simp [RaftCore.new]
  past := by simp
  counting := by simp [RaftCore.new]
  asking := by simp [RaftCore.new]
  activating := by simp [RaftCore.new]

/-- A core appends at most one no-op per term and knows its index while it leads, along every
run whose steps meet the condition. -/
theorem one_noop [Sha256] (config : Config) (recovered : RecoveredState C)
    (run : Trace (RaftCore.new config recovered) history c) (meets : Holds NoopOnce history) :
    OneNoop history c :=
  (Trace.invariant tenure_keeps (fun _ _ _ h => h.1) (RaftCore.new_wf _ _)
    (RaftCore.new_tenure _ _) run meets).1

/-- `NoopOnce` as a check. -/
def noopOnceCheck (c : RaftCore C) (event : Event C) : Bool :=
  Room c && match event with
    | .messageReceived envelope => match envelope.message with
      | .voteResponse _ _ => c.votes.all fun votes => !votes.hasQuorum
      | .appendEntries _ _ _ _ _ _ => c.pendingPersist.all (·.continuation ≠ .activateLeader)
      | _ => true
    | .effectCompleted _ (.snapshotInstalled _) => false
    | _ => true

theorem noopOnce_of_check (history : List (Record C)) (c : RaftCore C) (event : Event C)
    (h : noopOnceCheck c event = true) : NoopOnce history c event := by
  unfold noopOnceCheck at h
  rw [Bool.and_eq_true] at h
  refine ⟨of_decide_eq_true h.1, ?_, ?_⟩
  · unfold CountsOnce
    split
    · next envelope =>
      intro granted votes is _ found quorum
      simp [is, found, quorum] at h
    · trivial
  · unfold KeepsTenure
    split
    · next envelope =>
      intro id stable term prev prevTerm leaderCommit context entries waits is
      simp [is, waits] at h
    · simp at h
    · trivial

/-- Node 1 wins the first term with one vote and commits two entries. -/
theorem one_noop_elected : ∃ w : World Nat,
    @Run Nat sha256Empty trio w.history (w.core trio) ∧ (w.core trio 1).role = .leader ∧
    OneNoop (localHistory w.history 1) (w.core trio 1) := by
  let _ : Sha256 := sha256Empty
  obtain ⟨w, run, checked⟩ := World.exec_any trio Script.commitTwo
    (fun w => ((w.core trio 1).role = .leader) &&
      (localHistory w.history 1).all fun r => noopOnceCheck r.before r.event)
    (by decide +kernel)
  rw [Bool.and_eq_true, decide_eq_true_eq] at checked
  exact ⟨w, run, checked.1, one_noop (trioConfig 1 (by decide)) .initial (run.trace 1)
    (Holds.of_all noopOnce_of_check checked.2)⟩

/-- The no-ops that the step appended. -/
def Record.noops [DecidableEq C] (r : Record C) : List (Entry C) :=
  if r.event.merges then []
  else r.after.log.entries.filter fun e => e.payload = .leaderNoop && e ∉ r.before.log.entries

theorem Record.noop_of_mem [DecidableEq C] {r : Record C} {e : Entry C} (h : e ∈ r.noops) :
    r.Noop e := by
  unfold Record.noops at h
  split at h
  · simp at h
  · next own =>
    simp only [List.mem_filter, Bool.and_eq_true, decide_eq_true_eq] at h
    exact ⟨h.2.1, by simpa using own, h.1, h.2.2⟩

/-- The vote of node 2 reaches node 1 twice before the no-op is durable. -/
def voteCountedTwice : List (Move Nat) :=
  [Script.elect 1, Script.deliver 0, Script.deliver 2, Script.persisted 1 1, Script.deliver 3,
    Script.persisted 2 1, Script.deliver 5, Script.deliver 5]

/-- Node 1 appends two no-ops of term 1. -/
theorem two_noops : ¬ ∀ (history : List (Record Nat)) (c : RaftCore Nat),
    @Trace Nat sha256Empty (trio 1) history c → OneNoop history c := by
  let _ : Sha256 := sha256Empty
  intro h
  obtain ⟨w, run, checked⟩ := World.exec_any trio voteCountedTwice
    (fun w => match localHistory w.history 1 with
      | [] => false
      | r :: earlier => r.noops.any fun e => earlier.any fun r' => r'.noops.any fun f =>
          e.term = f.term)
    (by decide +kernel)
  have once := (h _ _ (run.trace 1)).once
  cases hl : localHistory w.history 1 with
  | nil => simp [hl] at checked
  | cons r earlier =>
    rw [hl] at once
    simp only [hl, List.any_eq_true, decide_eq_true_eq] at checked
    obtain ⟨e, he, r', hr, f, hf, same⟩ := checked
    exact (List.pairwise_cons.mp once).1 r' hr e f (Record.noop_of_mem he) (Record.noop_of_mem hf)
      same

end Ruft
