import Ruft.HardStates
import Ruft.Leadership

set_option autoImplicit false

/-!
# Election safety

A core votes once in a term and answers a candidate only after it voted for it. Two quorums
share a member, so no term has two winners. A snapshot that is installed can break this: it
drops the vote and raises the term.

## Main definitions

- `Voted` — the core has voted for a candidate in a term
- `Ledger` — what the history of a core says about its votes

## Main results

- `election_safety` — one leader per term when installs spare votes and elections
- `two_leaders` — a vote that an install dropped is given twice
-/

namespace Ruft

variable {C : Type} {c : RaftCore C} {event : Event C} {history : List (Record C)}

/-- The core has voted for the candidate in the term. -/
def Voted (history : List (Record C)) (term : Nat) (candidate : NodeId) : Prop :=
  ∃ r ∈ history, r.after.hardState.currentTerm = term ∧
    r.after.hardState.votedFor = some candidate

/-- Installs keep the vote of a term and do not carry an election into another one. -/
def InstallsSpareVotes : Condition C := fun _ c event =>
  Room c ∧ InstallInOrder c event ∧ InstallsInRole c event

theorem Voted.mono {history' : List (Record C)} {term : Nat} {candidate : NodeId}
    (h : Voted history term candidate) (grows : history ⊆ history') :
    Voted history' term candidate := by
  obtain ⟨r, hr, voted⟩ := h
  exact ⟨r, grows hr, voted⟩

/-! ## Promises -/

/-- The core answers the candidate once its vote is durable. -/
def RaftCore.Promises (c : RaftCore C) (term : Nat) (candidate : NodeId) : Prop :=
  ∃ id stable, c.pendingPersist = some ⟨id, stable, .sendVoteResponse candidate term true⟩

/-- The core has voted for the candidate in its current term. -/
def RaftCore.Votes (c : RaftCore C) (term : Nat) (candidate : NodeId) : Prop :=
  c.hardState.currentTerm = term ∧ c.hardState.votedFor = some candidate

theorem RaftCore.Promises.queued {s : Ctx C} {batch : PersistBatch C} {term : Nat}
    {continuation : PersistContinuation} {candidate : NodeId}
    (h : (s.queued batch continuation).core.Promises term candidate) :
    continuation = .sendVoteResponse candidate term true := by
  obtain ⟨id, stable, found⟩ := h
  simp only [Ctx.queued, Option.some.injEq, PendingPersist.mk.injEq] at found
  exact found.2.2

theorem MessageAct.promises_or_votes {from_ : NodeId} {m : Message C} {s : Ctx C}
    (act : MessageAct c from_ m s) {term : Nat} {candidate : NodeId}
    (h : s.core.Promises term candidate) :
    c.Promises term candidate ∨ s.core.Votes term candidate := by
  cases act with
  | voteNewer t index logTerm newer vote granted decided voted =>
    have same := h.queued
    simp only [PersistContinuation.sendVoteResponse.injEq] at same
    obtain ⟨rfl, rfl, rfl⟩ := same
    exact .inr ⟨rfl, by simpa [Ctx.queued] using voted⟩
  | voteFirst =>
    have same := h.queued
    simp only [PersistContinuation.sendVoteResponse.injEq] at same
    obtain ⟨rfl, rfl, -⟩ := same
    exact .inr ⟨rfl, rfl⟩
  | termRaised | campaigned | elected | appendRejected | appendAccepted =>
    exact absurd h.queued (by simp)
  | _ => exact .inl h

theorem CompletionAct.promises_or_votes [Sha256] {id : EffectId} {outcome : EffectOutcome} {s : Ctx C}
    (act : CompletionAct c id outcome s) {term : Nat} {candidate : NodeId}
    (h : s.core.Promises term candidate) : c.Promises term candidate := by
  cases act with
  | electedAlone => exact absurd h.queued (by simp)
  | persistDropped | persistDone | votesRequested | voteAnswered | appendAnswered | activated =>
    obtain ⟨i, stable, found⟩ := h
    simp [RaftCore.activated, RaftCore.stabilized] at found
  | _ => exact h

theorem Act.promises_or_votes [Sha256] {s : Ctx C} (act : Act c event s) {term : Nat} {candidate : NodeId}
    (h : s.core.Promises term candidate) :
    c.Promises term candidate ∨ s.core.Votes term candidate := by
  cases act with
  | message envelope members s known mine act => exact act.promises_or_votes h
  | completed id outcome s act => exact .inl (act.promises_or_votes h)
  | campaigned | proposed => exact absurd h.queued (by simp)
  | readStarted readId =>
    obtain ⟨round, hr⟩ := Ctx.roundStarted_core ⟨c, []⟩ readId
    rw [hr] at h
    exact .inl h
  | _ => exact .inl h

/-- A granted vote is answered at once or when it is durable. -/
theorem Act.grants [Sha256] {s : Ctx C} (act : Act c event s) {term : Nat} {candidate : NodeId}
    (h : .sendMessage candidate (.voteResponse term true) ∈ s.effects) :
    c.Promises term candidate ∨ s.core.Votes term candidate := by
  cases act with
  | message envelope members s known mine act =>
    obtain ⟨cluster, from_, to_, message⟩ := envelope
    dsimp only at act
    cases act with
    | refused m reply refusal =>
      simp only [List.mem_singleton, Effect.sendMessage.injEq] at h
      obtain ⟨-, rfl⟩ := h
      cases refusal
    | appendRefused t prev prevTerm leaderCommit ctx entries same reply refusal =>
      simp only [List.mem_singleton, Effect.sendMessage.injEq] at h
      obtain ⟨-, rfl⟩ := h
      cases refusal
    | voteAgain t index logTerm same voted =>
      simp only [List.mem_singleton, Effect.sendMessage.injEq, Message.voteResponse.injEq] at h
      obtain ⟨rfl, rfl, -⟩ := h
      exact .inr ⟨same, voted⟩
    | appendHeld => simp at h
    | _ => simp [Ctx.queued] at h
  | completed id outcome s act =>
    cases act with
    | voteAnswered stable to_ t granted found =>
      simp only [List.mem_singleton, Effect.sendMessage.injEq, Message.voteResponse.injEq] at h
      obtain ⟨rfl, rfl, rfl⟩ := h
      exact .inl ⟨id, stable, found⟩
    | chunkRead | installed | appendAnswered => simp at h
    | votesRequested => simp [toPeers] at h
    | applyDone => simp [Ctx.answered] at h
    | _ => simp [Ctx.queued] at h
  | preVoteStarted => simp [toPeers] at h
  | readStarted readId =>
    rcases Ctx.roundStarted_sends readId h with old | new
    · simp at old
    · cases new
  | _ => simp [Ctx.queued] at h

/-! ## A candidate's own vote -/

/-- A core that counts votes has voted for itself. -/
def RaftCore.VotesForItself (c : RaftCore C) : Prop :=
  c.votes.isSome = true → c.hardState.votedFor = some c.config.localId

theorem MessageAct.votesForItself {from_ : NodeId} {m : Message C} {s : Ctx C}
    (act : MessageAct c from_ m s) (h : c.VotesForItself) : s.core.VotesForItself := by
  cases act with
  | voteFirst term index logTerm same free =>
    intro counts
    exact absurd (free.symm.trans (h counts)) (by simp)
  | campaigned => exact fun _ => rfl
  | voteCounted term granted votes same candidate found =>
    exact fun _ => h (by rw [found]; rfl)
  | elected term granted votes entry same candidate found =>
    exact fun _ => h (by rw [found]; rfl)
  | termRaised | voteNewer | voteLost | appendFailed | appendRefused | appendRejected | appendHeld
  | appendAccepted => exact fun counts => absurd counts (by
      simp [Ctx.queued, RaftCore.termRaised, RaftCore.merged, RaftCore.becomeFollower])
  | _ => exact h

theorem Act.votesForItself [Sha256] {s : Ctx C} (act : Act c event s)
    (order : InstallInOrder c event) (role : InstallsInRole c event) (h : c.VotesForItself) :
    s.core.VotesForItself := by
  cases act with
  | message envelope members s known mine act => exact act.votesForItself h
  | completed id outcome s act =>
    cases act with
    | installed snapshotId record from_ term log found =>
      intro counts
      have counts : c.votes.isSome = true := counts
      rcases order record from_ term found with newer | free
      · simp [(role record from_ term found newer).2.1] at counts
      · exact absurd (free.symm.trans (h counts)) (by simp)
    | activated => exact fun counts => absurd counts (by simp [RaftCore.activated])
    | _ => exact h
  | preVoteStarted => exact fun counts => absurd counts (by simp)
  | campaigned => exact fun _ => rfl
  | quorumLost => exact fun counts => absurd counts (by simp [RaftCore.becomeFollower])
  | readStarted readId =>
    obtain ⟨round, hr⟩ := Ctx.roundStarted_core ⟨c, []⟩ readId
    rw [hr]
    exact h
  | _ => exact h

theorem MessageAct.config_eq {from_ : NodeId} {m : Message C} {s : Ctx C}
    (act : MessageAct c from_ m s) : s.core.config = c.config := by
  cases act <;> rfl

theorem Act.config_eq [Sha256] {s : Ctx C} (act : Act c event s) : s.core.config = c.config := by
  cases act with
  | message envelope members s known mine act => exact act.config_eq
  | completed id outcome s act => cases act <;> rfl
  | readStarted readId =>
    obtain ⟨round, hr⟩ := Ctx.roundStarted_core ⟨c, []⟩ readId
    rw [hr]
  | _ => rfl

/-! ## The ledger of a core -/

/-- A state of a core, seen from its history. -/
structure Sworn (config : Config) (history : List (Record C)) (c : RaftCore C) : Prop where
  config : c.config = config
  leads : c.role = .leader → Elected history c.hardState.currentTerm
  own : c.VotesForItself

theorem Sworn.mono {config : Config} {history' : List (Record C)} (h : Sworn config history c)
    (grows : history ⊆ history') : Sworn config history' c :=
  ⟨h.config, fun leader => (h.leads leader).mono grows, h.own⟩

/-- Every state was sworn in, votes never changed within a term, and who got a vote had it. -/
structure Ledger (config : Config) (history : List (Record C)) (c : RaftCore C) : Prop where
  states : ∀ r ∈ history, Sworn config history r.after
  grants : ∀ r ∈ history, ∀ candidate term,
    .sendMessage candidate (.voteResponse term true) ∈ r.effects → Voted history term candidate
  chain : history.Pairwise fun later earlier => earlier.after.hardState.le later.after.hardState
  reached : ∀ r ∈ history, r.after.hardState.le c.hardState
  now : Sworn config history c

theorem Ledger.cons {config : Config} (h : Ledger config history c) {r : Record C}
    (le : c.hardState.le r.after.hardState) (now : Sworn config (r :: history) r.after)
    (grants : ∀ candidate term, .sendMessage candidate (.voteResponse term true) ∈ r.effects →
      Voted (r :: history) term candidate) : Ledger config (r :: history) r.after where
  states := by
    refine List.forall_mem_cons.mpr ⟨now, fun r' hr' => ?_⟩
    exact (h.states r' hr').mono (List.subset_cons_self _ _)
  grants := by
    refine List.forall_mem_cons.mpr ⟨grants, fun r' hr' candidate term sent => ?_⟩
    exact (h.grants r' hr' candidate term sent).mono (List.subset_cons_self _ _)
  chain := List.pairwise_cons.mpr ⟨fun r' hr' => (h.reached r' hr').trans le, h.chain⟩
  reached := by
    refine List.forall_mem_cons.mpr ⟨HardState.le_refl _, fun r' hr' => ?_⟩
    exact (h.reached r' hr').trans le
  now := now

/-- A core votes once in a term. -/
theorem Ledger.voted_unique {config : Config} (h : Ledger config history c) {term : Nat}
    {a b : NodeId} (ha : Voted history term a) (hb : Voted history term b) : a = b := by
  obtain ⟨r, hr, rfl, votedA⟩ := ha
  obtain ⟨r', hr', same, votedB⟩ := hb
  rcases pairwise_cases h.chain hr hr' with rfl | later | earlier
  · exact Option.some.inj (votedA.symm.trans votedB)
  · exact Option.some.inj (votedA.symm.trans (later.2.1 same b votedB))
  · exact Option.some.inj ((earlier.2.1 same.symm a votedA).symm.trans votedB)

/-- A core in the middle of a step. -/
structure Electing (config : Config) (history : List (Record C)) (c : RaftCore C)
    (event : Event C) (s : Ctx C) : Prop where
  ledger : Ledger config history c
  le : c.hardState.le s.core.hardState
  tally : ∀ result, Tally (⟨c, event, result, s.core⟩ :: history) s.core
  config : s.core.config = config
  own : s.core.VotesForItself
  promised : ∀ term candidate, s.core.Promises term candidate →
    Voted history term candidate ∨ s.core.Votes term candidate
  granted : ∀ term candidate, .sendMessage candidate (.voteResponse term true) ∈ s.effects →
    Voted history term candidate ∨ s.core.Votes term candidate

/-- The step ends in a core with the same votes. -/
theorem Electing.record {config : Config} {s : Ctx C} {d : RaftCore C}
    (h : Electing config history c event s) (result : Outcome StepError (StepOutput C)) (sends : ∀ e,
      e ∈ (Record.mk c event result d).effects → e ∈ s.effects)
    (hardState : d.hardState = s.core.hardState) (role : d.role = s.core.role)
    (votes : d.votes = s.core.votes) (same : d.config = s.core.config) :
    Ledger config (⟨c, event, result, d⟩ :: history) d := by
  have term : d.hardState.currentTerm = s.core.hardState.currentTerm := by rw [hardState]
  refine h.ledger.cons (by rw [hardState]; exact h.le) ⟨same.trans h.config, ?_, ?_⟩ ?_
  · intro leader
    have elected := (h.tally result).leads (role ▸ leader)
    rw [term]
    exact elected.after same term votes
  · unfold RaftCore.VotesForItself
    rw [votes, hardState, same]
    exact h.own
  · intro candidate term sent
    rcases h.granted term candidate (sends _ sent) with old | now
    · exact old.mono (List.subset_cons_self _ _)
    · exact ⟨_, List.mem_cons_self .., by rw [hardState]; exact now.1, by rw [hardState]; exact now.2⟩

/-- The core keeps its promises between steps. -/
structure Elects (config : Config) (history : List (Record C)) (c : RaftCore C) : Prop where
  ledger : Ledger config history c
  tally : Tally history c
  promised : ∀ term candidate, c.Promises term candidate → Voted history term candidate

theorem Act.hardState_le [Sha256] (wf : c.WF) {s : Ctx C} (act : Act c event s)
    (order : InstallInOrder c event) : c.hardState.le s.core.hardState := by
  cases act.hardState wf with
  | quiet same => rw [same]; exact HardState.le_refl _
  | written le => exact le
  | transferred _ _ _ _ _ _ _ _ _ _ _ same => rw [same]; exact HardState.le_refl _
  | installed id snapshotId record from_ term is found now =>
    subst is
    rw [now]
    rcases order record from_ term found with newer | free
    · exact HardState.le_of_term (lt_max_of_lt_right newer) (le_max_left _ _)
    · exact HardState.le_of_free (le_max_left _ _) (fun _ => free) (le_max_left _ _)

theorem Electing.act [Sha256] {config : Config} {s : Ctx C}
    (hs : Steps InstallsSpareVotes history c event) (h : Elects config history c)
    (act : Act c event s) : Electing config history c event s := by
  obtain ⟨-, order, role⟩ := hs.meets
  refine ⟨h.ledger, act.hardState_le hs.wf order, fun _ => h.tally.act act role,
    act.config_eq.trans h.ledger.now.config, act.votesForItself order role h.ledger.now.own, ?_, ?_⟩
  · intro term candidate promises
    exact (act.promises_or_votes promises).imp_left (h.promised term candidate)
  · intro term candidate grants
    exact (act.grants grants).imp_left (h.promised term candidate)

theorem RaftCore.Votes.frame {d : RaftCore C} {term : Nat} {candidate : NodeId}
    (h : c.Votes term candidate) (frame : Frame c d) : d.Votes term candidate :=
  ⟨frame.term.trans h.1, frame.votedFor.trans h.2⟩

theorem FollowUp.promises {cause : Cause C} {s s' : Ctx C} (hf : FollowUp cause s s') {term : Nat}
    {candidate : NodeId} (h : s'.core.Promises term candidate) :
    s.core.Promises term candidate := by
  obtain ⟨id, stable, found⟩ := h
  rcases hf.pendingPersist with same | ⟨id', stable', committing⟩
  · exact ⟨id, stable, same ▸ found⟩
  · exact absurd (committing.symm.trans found) (by simp)

theorem FollowUp.hardState_le {cause : Cause C} {s s' : Ctx C} (hf : FollowUp cause s s')
    (wf : s.core.log.committed = s.core.hardState.commitIndex)
    (wf' : s'.core.log.committed = s'.core.hardState.commitIndex) :
    s.core.hardState.le s'.core.hardState := by
  have frame := hf.frame
  have commit := frame.commit_le
  refine ⟨frame.term.ge, fun _ x voted => frame.votedFor.trans voted, ?_⟩
  omega

theorem Electing.followUp [Sha256] {config : Config} {s₀ s s' : Ctx C} (wf : c.WF)
    (act : Act c event s₀) (rest : FollowUps ⟨c, event⟩ s₀ s)
    (h : Electing config history c event s) (hf : FollowUp ⟨c, event⟩ s s') :
    Electing config history c event s' := by
  have frame := hf.frame
  have le := hf.hardState_le (act.committed_eq wf rest) (act.committed_eq wf (rest.tail hf))
  refine ⟨h.ledger, h.le.trans le, fun result => (h.tally result).followUp hf,
    frame.config.trans h.config, ?_, ?_, ?_⟩
  · unfold RaftCore.VotesForItself
    rw [frame.votes, frame.votedFor, frame.config]
    exact h.own
  · intro term candidate promises
    exact (h.promised term candidate (hf.promises promises)).imp_right fun votes => votes.frame frame
  · intro term candidate sent
    rcases hf.sends sent with old | new
    · exact (h.granted term candidate old).imp_right fun votes => votes.frame frame
    · cases new

/-- What the core promised in this step is in the ledger after it. -/
theorem Electing.promised_after {config : Config} {s : Ctx C}
    (h : Electing config history c event s) (result : Outcome StepError (StepOutput C)) :
    ∀ term candidate, s.core.Promises term candidate →
      Voted (⟨c, event, result, s.core⟩ :: history) term candidate := by
  intro term candidate promises
  rcases h.promised term candidate promises with old | now
  · exact old.mono (List.subset_cons_self _ _)
  · exact ⟨_, List.mem_cons_self .., now⟩

theorem elects_keeps [Sha256] (config : Config) : Keeps (InstallsSpareVotes : Condition C)
    (Elects config) (Electing config) (Ledger config) where
  act hs h act := .act hs h act
  followUp hs act rest h hf := h.followUp hs.wf act rest hf
  finished := by
    intro history c event s _ h
    obtain ⟨proposals, hp⟩ := s.finished_core c
    refine ⟨h.ledger, by rw [hp]; exact h.le, fun result => ?_, by rw [hp]; exact h.config,
      by rw [hp]; exact h.own, by rw [hp]; exact h.promised, ?_⟩
    · rw [hp]
      exact (h.tally result).after rfl rfl rfl rfl (.same rfl) id
    · intro term candidate sent
      rw [hp]
      exact h.granted term candidate (Ctx.finished_sends c sent)
  returned changed _ h :=
    ⟨h.record _ (fun _ he => he) rfl rfl rfl rfl, h.tally _, h.promised_after _⟩
  failed e _ h _ :=
    ⟨h.record (Outcome.raise e) (by rintro _ ⟨⟩) rfl rfl rfl rfl, h.tally _, h.promised_after _⟩
  safe h := h.ledger
  ended e reason _ h := h.record (Outcome.raise e) (by rintro _ ⟨⟩) rfl rfl rfl rfl
  halted := by
    intro history c c' event e reason _ h halted
    obtain ⟨-, reads, store, incoming, building, applying, persist, rfl⟩ := halted
    have now := h.ledger.now
    refine h.ledger.cons (HardState.le_refl _) ⟨now.config, fun leader => ?_, now.own⟩
      (by rintro _ _ ⟨⟩)
    exact (now.leads leader).mono (List.subset_cons_self _ _)
  idle := by
    intro history c event result _ silent h
    refine h.cons (HardState.le_refl _) (h.now.mono (List.subset_cons_self _ history)) ?_
    simp [silent]

theorem RaftCore.new_elects (config : Config) :
    Elects config [] (RaftCore.new config (.initial : RecoveredState C)) where
  ledger := ⟨by simp, by simp, .nil, by simp, rfl, by simp [RaftCore.new],
    by simp [RaftCore.VotesForItself, RaftCore.new]⟩
  tally := RaftCore.new_tally _ _
  promised := by simp [RaftCore.Promises, RaftCore.new]

theorem Trace.ledger [Sha256] {config : Config} (run : Trace (RaftCore.new config .initial) history c)
    (spare : Holds InstallsSpareVotes history) : Ledger config history c :=
  (Trace.invariant (elects_keeps config) (fun _ _ _ h => h.1) (RaftCore.new_wf config _)
    (RaftCore.new_elects config) run spare).1

/-! ## The cluster -/

/-- A quorum of the members voted for the node in the term. -/
def Won (members : List NodeId) (history : List (NodeId × Record C)) (node : NodeId)
    (term : Nat) : Prop :=
  ∃ voters ⊆ members.toFinset, members.toFinset.card / 2 + 1 ≤ voters.card ∧
    ∀ n ∈ voters, Voted (localHistory history n) term node

theorem Elected.won [Sha256] {config : NodeId → Config} {history : List (NodeId × Record C)}
    {cores : NodeId → RaftCore C}
    (run : Run (fun node => RaftCore.new (config node) .initial) history cores)
    (ledgers : ∀ n, Ledger (config n) (localHistory history n) (cores n)) {node : NodeId}
    {term : Nat} (h : Elected (localHistory history node) term) :
    Won (config node).members history node term := by
  obtain ⟨r, hr, current, votes, found, quorum, counted⟩ := h
  have sworn := (ledgers node).states r hr
  have localId : (config node).localId = node := run.localId (mem_localHistory.mp hr)
  have members := counted.members
  rw [sworn.config] at members
  refine ⟨votes.granted, members ▸ counted.granted_subset, ?_, ?_⟩
  · simpa [QuorumTracker.hasQuorum, QuorumTracker.quorum, members] using quorum
  intro n hn
  rcases counted.heard n hn with own | ⟨envelope, received, rfl, is⟩
  · rw [sworn.config, localId] at own
    subst own
    refine ⟨r, hr, current, ?_⟩
    rw [sworn.own (by rw [found]; rfl), sworn.config, localId]
  · obtain ⟨r', hr', event⟩ := List.mem_map.mp received
    obtain ⟨rfl, s, hs, sends⟩ := run.sent (mem_localHistory.mp hr') event
    rw [is, current] at sends
    exact (ledgers envelope.from_).grants s (mem_localHistory.mpr hs) _ term sends

/-- Two quorums share a voter, and a voter votes once. -/
theorem Won.unique {config : NodeId → Config} {members : List NodeId}
    {history : List (NodeId × Record C)} {cores : NodeId → RaftCore C}
    (ledgers : ∀ n, Ledger (config n) (localHistory history n) (cores n)) {a b : NodeId}
    {term : Nat} (ha : Won members history a term) (hb : Won members history b term) : a = b := by
  obtain ⟨votersA, subsetA, quorumA, votedA⟩ := ha
  obtain ⟨votersB, subsetB, quorumB, votedB⟩ := hb
  have many : members.toFinset.card < votersA.card + votersB.card := by omega
  obtain ⟨n, hn⟩ := Finset.inter_nonempty_of_card_lt_card_add_card subsetA subsetB many
  obtain ⟨hnA, hnB⟩ := Finset.mem_inter.mp hn
  exact (ledgers n).voted_unique (votedA n hnA) (votedB n hnB)

/-- Two cores that have each led a term are one. -/
def OneLeaderPerTerm (history : List (NodeId × Record C)) : Prop :=
  ∀ a r b r', (a, r) ∈ history → (b, r') ∈ history → r.after.role = .leader →
    r'.after.role = .leader →
    r.after.hardState.currentTerm = r'.after.hardState.currentTerm → a = b

/-- No term has two leaders, along every run whose installs spare votes and elections. -/
theorem election_safety [Sha256] (config : NodeId → Config) (members : List NodeId)
    (common : ∀ node, (config node).members = members) {history : List (NodeId × Record C)}
    {cores : NodeId → RaftCore C}
    (run : Run (fun node => RaftCore.new (config node) .initial) history cores)
    (spare : ∀ node, Holds InstallsSpareVotes (localHistory history node)) :
    OneLeaderPerTerm history := by
  intro a r b r' hr hr' leads leads' same
  have ledgers : ∀ n, Ledger (config n) (localHistory history n) (cores n) :=
    fun n => (run.trace n).ledger (spare n)
  have won := (((ledgers a).states r (mem_localHistory.mpr hr)).leads leads).won run ledgers
  have won' := (((ledgers b).states r' (mem_localHistory.mpr hr')).leads leads').won run ledgers
  rw [common] at won won'
  rw [same] at won
  exact Won.unique ledgers won won'

/-- `InstallsSpareVotes` as a check. -/
def sparesVotesCheck (c : RaftCore C) (event : Event C) : Bool :=
  speaksInRoleCheck c event && match event with
    | .effectCompleted _ (.snapshotInstalled _) => c.hardState.votedFor = none
    | _ => true

theorem installsSpareVotes_of_check (history : List (Record C)) (c : RaftCore C) (event : Event C)
    (h : sparesVotesCheck c event = true) : InstallsSpareVotes history c event := by
  unfold sparesVotesCheck at h
  rw [Bool.and_eq_true] at h
  obtain ⟨room, -, role⟩ := speaksInRole_of_check history c event h.1
  refine ⟨room, ?_, role⟩
  unfold InstallInOrder
  split
  · exact fun _ _ _ _ => .inr (of_decide_eq_true h.2)
  · trivial

theorem trioConfigs_members (node : NodeId) : (trioConfigs node).members = [1, 2, 3] := by
  unfold trioConfigs
  split <;> rfl

/-- Node 1 leads, and node 3 installs the snapshot that node 1 sent. -/
theorem election_safety_installing : ∃ w : World Nat,
    @Run Nat sha256Empty trio w.history (w.core trio) ∧
    (∃ p ∈ w.history, p.1 = 1 ∧ p.2.after.role = .leader) ∧
    (∃ p ∈ w.history, p.1 = 3 ∧ p.2.after.log.snapshotIndex = 2) ∧
    OneLeaderPerTerm w.history := by
  let _ : Sha256 := sha256Empty
  obtain ⟨w, run, checked⟩ := World.exec_any trio
    (Script.receiveSnapshot ++ [Script.applied 3 3 1, Script.done 3 6 (.snapshotInstalled 7)])
    (fun w => (w.history.any fun p => (p.1 = 1) && (p.2.after.role = .leader)) &&
      ((w.history.any fun p => (p.1 = 3) && (p.2.after.log.snapshotIndex = 2)) &&
      w.history.all fun p => sparesVotesCheck p.2.before p.2.event))
    (by decide +kernel)
  simp only [Bool.and_eq_true, List.any_eq_true, decide_eq_true_eq] at checked
  obtain ⟨leads, installed, spare⟩ := checked
  refine ⟨w, run, leads, installed, ?_⟩
  refine election_safety trioConfigs [1, 2, 3] trioConfigs_members run fun node => ?_
  refine Holds.of_all installsSpareVotes_of_check (List.all_eq_true.mpr fun r hr => ?_)
  exact List.all_eq_true.mp spare (node, r) (mem_localHistory.mp hr)

/-- Node 3 votes for node 2 in term 2 while it installs a snapshot of term 1, and for node 1
after that. -/
def voteForBoth : List (Move Nat) := Script.receiveSnapshot ++
  [Script.applied 2 4 1, .event 1 (.tick .heartbeat), .event 1 (.tick .heartbeat), Script.elect 1,
    Script.elect 2, Script.deliver 20, Script.deliver 22, Script.deliver 25, Script.persisted 2 5,
    Script.deliver 27, Script.applied 3 3 1, Script.persisted 3 7, Script.deliver 28,
    Script.persisted 2 6, Script.done 3 6 (.snapshotInstalled 7), Script.deliver 24,
    Script.persisted 1 12, Script.deliver 33, Script.persisted 3 8, Script.deliver 34,
    Script.persisted 1 13]

/-- Nodes 1 and 2 both lead term 2. -/
theorem two_leaders : ¬ ∀ (history : List (NodeId × Record Nat)) (cores : NodeId → RaftCore Nat),
    @Run Nat sha256Empty trio history cores → OneLeaderPerTerm history := by
  let _ : Sha256 := sha256Empty
  intro h
  obtain ⟨w, run, bad⟩ := World.exec_any trio voteForBoth
    (fun w => [1, 2].all fun node => w.history.any fun p => (p.1 = node) &&
      ((p.2.after.role = .leader) && (p.2.after.hardState.currentTerm = 2)))
    (by decide +kernel)
  simp only [List.all_cons, List.all_nil, Bool.and_true, Bool.and_eq_true, List.any_eq_true,
    decide_eq_true_eq] at bad
  obtain ⟨⟨⟨_, r⟩, hr, rfl, leads, term⟩, ⟨⟨_, r'⟩, hr', rfl, leads', term'⟩⟩ := bad
  have same := h _ _ run _ r _ r' hr hr' leads leads' (term.trans term'.symm)
  exact absurd same (by decide)

end Ruft
