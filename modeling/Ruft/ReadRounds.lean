import Ruft.Decisions

set_option autoImplicit false

/-!
# Read rounds

A leader answers a read when a quorum has sent back the context of a heartbeat round. The
context names the term and a counter that the node never uses twice, so an acknowledgement tells
that its sender was in the term of the round after the round started. A read that comes in while
a round is in flight joins it, and rests on acknowledgements that may be older than the read.

## Main definitions

- `Opened` — a step starts a read round
- `Confirms` — what a round in flight rests on
- `Reading` — the reads of a core between its steps
- `AnswersReads` — what a step says about reads

## Main results

- `Trace.answersReads` — every step answers reads so
-/

namespace Ruft

open LeaderLogs

variable {C : Type} {c d : RaftCore C} {event : Event C} {s : Ctx C}
  {history steps steps' : List (Record C)}

/-! ## Contexts -/

def roundContext (term counter : Nat) : Bytes := toBeBytes term ++ toBeBytes counter

theorem toBeBytes_injective {m n : Nat} (hm : m ≤ u64Max) (hn : n ≤ u64Max)
    (h : toBeBytes m = toBeBytes n) : m = n := by
  simp only [toBeBytes, List.map_cons, List.map_nil, List.cons.injEq, and_true,
    ← UInt8.toNat_inj, UInt8.toNat_ofNat'] at h
  unfold u64Max at hm hn
  omega

/-- Rounds with one context have one counter. -/
theorem roundContext_counter {term term' m n : Nat} (hm : m ≤ u64Max) (hn : n ≤ u64Max)
    (h : roundContext term m = roundContext term' n) : m = n :=
  toBeBytes_injective hm hn (List.append_inj' h (by simp [toBeBytes])).2

/-! ## Rounds -/

/-- The hard state and the read counter only move forward. -/
structure Climbs (c d : RaftCore C) : Prop where
  hardState : c.hardState.le d.hardState
  counter : c.nextReadContext ≤ d.nextReadContext

theorem Climbs.refl (c : RaftCore C) : Climbs c c := ⟨HardState.le_refl _, le_rfl⟩

theorem Climbs.trans {e : RaftCore C} (h : Climbs c d) (k : Climbs d e) : Climbs c e :=
  ⟨h.hardState.trans k.hardState, h.counter.trans k.counter⟩

/-- The step starts a round with the counter, as leader of a term whose no-op is at the index. -/
structure Opened (c d : RaftCore C) (counter noop : Nat) : Prop where
  leader : d.role = .leader
  fresh : c.nextReadContext < counter
  used : counter ≤ d.nextReadContext
  bound : counter ≤ u64Max
  held : TermAt Entry.term d.log.entries noop d.hardState.currentTerm

/-- The core was asked for the read as leader and before it used the counter, in no later term
and with no higher commit index. -/
def Asked (steps : List (Record C)) (readId : ReadId) (counter term commit : Nat) : Prop :=
  ∃ r ∈ steps, (∃ context, r.event = .read readId context) ∧ r.before.role = .leader ∧
    r.before.nextReadContext < counter ∧ r.before.hardState.currentTerm ≤ term ∧
    r.before.hardState.commitIndex ≤ commit

/-- A read that the core is asked for now joins the round in flight. -/
structure RaftCore.Joins (c : RaftCore C) (round : ReadRound) : Prop where
  leader : c.role = .leader
  noop : c.currentLeaderNoopIsCommitted = true
  found : c.readRound = some round
  space : c.pendingReads.length + round.requests.length < c.config.maxPendingReads

/-- The core was asked for the read while the round of the counter was in flight. -/
def Joined (steps : List (Record C)) (readId : ReadId) (context : Bytes) (counter : Nat) : Prop :=
  ∃ r ∈ steps, (∃ context, r.event = .read readId context) ∧
    (∃ round, r.before.Joins round ∧ round.context = context) ∧
    counter ≤ r.before.nextReadContext

/-- The member sent the context back to the core, which was leading the term of the response. -/
def Echoed (steps : List (Record C)) (member : NodeId) (context : Bytes) : Prop :=
  ∃ r ∈ steps, ∃ envelope matchIndex conflict, r.event = .messageReceived envelope ∧
    envelope.from_ = member ∧ envelope.message = .appendEntriesResponse
      r.after.hardState.currentTerm true matchIndex conflict (some context) ∧
    r.after.role = .leader

/-- A round that the step `origin` started, when the commit index was `floor`. -/
structure Confirms (steps : List (Record C)) (config : Config) (round : ReadRound)
    (origin : Record C) (counter noop floor : Nat) : Prop where
  started : origin ∈ steps
  opened : Opened origin.before origin.after counter noop
  context : round.context = roundContext origin.after.hardState.currentTerm counter
  noop_le : noop ≤ floor
  since : origin.before.hardState.commitIndex ≤ floor
  known : floor ≤ origin.after.log.committed
  asked : ∀ readId ∈ round.requests,
    Asked steps readId counter origin.after.hardState.currentTerm floor ∨
      Joined steps readId round.context counter
  members : round.acknowledgments.members = config.members.toFinset
  granted_subset : round.acknowledgments.granted ⊆ round.acknowledgments.members
  echoed : ∀ n ∈ round.acknowledgments.granted, n = config.localId ∨ Echoed steps n round.context
  safe : ∀ index, round.safeIndex = some index → floor ≤ index ∧ round.hasQuorum = true

/-- A read was answered with the safe index of a round that a quorum confirmed. -/
def Confirmed (steps : List (Record C)) (config : Config) (readId : ReadId) (index : Nat) : Prop :=
  ∃ round origin counter noop floor, Confirms steps config round origin counter noop floor ∧
    readId ∈ round.requests ∧ round.safeIndex = some index

/-- The log of a core that leads, or is about to, has a no-op of its term where the core says. -/
def RaftCore.HoldsNoop (c : RaftCore C) : Prop :=
  (c.role = .leader ∨ ∃ id stable, c.pendingPersist = some ⟨id, stable, .activateLeader⟩) →
    ∀ index, c.leaderNoopIndex = some index →
      TermAt Entry.term c.log.entries index c.hardState.currentTerm

/-- The reads of a core between its steps. -/
structure Reading (steps : List (Record C)) (c : RaftCore C) : Prop where
  queue : ∀ readId ∈ c.pendingReads, Asked steps readId (c.nextReadContext + 1)
    c.hardState.currentTerm c.hardState.commitIndex
  round : ∀ round, c.readRound = some round → ∃ origin counter noop floor,
    Confirms steps c.config round origin counter noop floor ∧
      floor ≤ c.hardState.commitIndex ∧ counter ≤ c.nextReadContext
  noop : c.HoldsNoop

/-- What a step says about reads. -/
structure AnswersReads (earlier : List (Record C)) (r : Record C) : Prop where
  climbs : Climbs r.before r.after
  committed : r.after.log.committed = r.after.hardState.commitIndex
  answers : ∀ readId index, .readReady readId index ∈ r.effects →
    Confirmed (r :: earlier) r.after.config readId index ∧ index ≤ r.after.appliedIndex
  asks : ∀ to_ term prev prevTerm leaderCommit context entries,
    .sendMessage to_ (.appendEntries term prev prevTerm leaderCommit (some context) entries) ∈
      r.effects → ∃ counter noop, Opened r.before r.after counter noop ∧
        context = roundContext r.after.hardState.currentTerm counter

/-! ## Later steps -/

/-- The role, the term and the entries are the same, and the counter and the commit index have not
gone back. -/
structure Stays (c d : RaftCore C) : Prop where
  role : d.role = c.role
  term : d.hardState.currentTerm = c.hardState.currentTerm
  entries : d.log.entries = c.log.entries
  counter : c.nextReadContext ≤ d.nextReadContext
  commit : c.log.committed ≤ d.log.committed

theorem Stays.refl (c : RaftCore C) : Stays c c := ⟨rfl, rfl, rfl, le_rfl, le_rfl⟩

/-- The steps are among the others, where their last one may have gone on. -/
def Outlives (steps steps' : List (Record C)) : Prop :=
  ∀ r ∈ steps, ∃ r' ∈ steps', r'.before = r.before ∧ r'.event = r.event ∧ Stays r.after r'.after

theorem Outlives.of_subset (sub : steps ⊆ steps') : Outlives steps steps' :=
  fun r hr => ⟨r, sub hr, rfl, rfl, .refl _⟩

theorem Outlives.head {result result' : Outcome StepError (StepOutput C)} {d' : RaftCore C}
    (stays : Stays d d') :
    Outlives (⟨c, event, result, d⟩ :: history) (⟨c, event, result', d'⟩ :: history) := by
  refine List.forall_mem_cons.mpr ⟨⟨_, List.mem_cons_self .., rfl, rfl, stays⟩, fun r hr => ?_⟩
  exact ⟨r, List.mem_cons_of_mem _ hr, rfl, rfl, .refl _⟩

theorem Asked.mono {readId : ReadId} {counter term commit counter' term' commit' : Nat}
    (h : Asked steps readId counter term commit) (out : Outlives steps steps')
    (hcounter : counter ≤ counter') (hterm : term ≤ term') (hcommit : commit ≤ commit') :
    Asked steps' readId counter' term' commit' := by
  obtain ⟨r, hr, ⟨context, is⟩, leader, before, inTerm, bound⟩ := h
  obtain ⟨r', hr', sameBefore, sameEvent, -⟩ := out r hr
  refine ⟨r', hr', ⟨context, sameEvent.trans is⟩, ?_⟩
  rw [sameBefore]
  exact ⟨leader, before.trans_le hcounter, inTerm.trans hterm, bound.trans hcommit⟩

theorem Joined.mono {readId : ReadId} {context : Bytes} {counter : Nat}
    (h : Joined steps readId context counter) (out : Outlives steps steps') :
    Joined steps' readId context counter := by
  obtain ⟨r, hr, ⟨asked, is⟩, inFlight, used⟩ := h
  obtain ⟨r', hr', sameBefore, sameEvent, -⟩ := out r hr
  exact ⟨r', hr', ⟨asked, sameEvent.trans is⟩, sameBefore ▸ inFlight, sameBefore ▸ used⟩

theorem Echoed.mono {member : NodeId} {context : Bytes} (h : Echoed steps member context)
    (out : Outlives steps steps') : Echoed steps' member context := by
  obtain ⟨r, hr, envelope, matchIndex, conflict, received, from_, message, leader⟩ := h
  obtain ⟨r', hr', -, sameEvent, stays⟩ := out r hr
  refine ⟨r', hr', envelope, matchIndex, conflict, sameEvent.trans received, from_, ?_, ?_⟩
  · rw [stays.term]
    exact message
  · rw [stays.role]
    exact leader

theorem Opened.stays {c' d' : RaftCore C} {counter noop : Nat} (h : Opened c d counter noop)
    (before : c' = c) (stays : Stays d d') : Opened c' d' counter noop where
  leader := stays.role.trans h.leader
  fresh := before ▸ h.fresh
  used := h.used.trans stays.counter
  bound := h.bound
  held := by
    rw [stays.entries, stays.term]
    exact h.held

theorem Confirms.mono {config : Config} {round : ReadRound} {origin : Record C}
    {counter noop floor : Nat} (h : Confirms steps config round origin counter noop floor)
    (out : Outlives steps steps') :
    ∃ origin', Confirms steps' config round origin' counter noop floor := by
  obtain ⟨r', hr', sameBefore, -, stays⟩ := out origin h.started
  exact ⟨r', {
    started := hr'
    opened := h.opened.stays sameBefore stays
    context := by rw [stays.term]; exact h.context
    noop_le := h.noop_le
    since := sameBefore ▸ h.since
    known := h.known.trans stays.commit
    asked := fun readId asked => by
      rw [stays.term]
      exact (h.asked readId asked).imp (fun asked => asked.mono out le_rfl le_rfl le_rfl)
        fun joined => joined.mono out
    members := h.members
    granted_subset := h.granted_subset
    echoed := fun n hn => (h.echoed n hn).imp_right fun echoed => echoed.mono out
    safe := h.safe }⟩

theorem Confirmed.mono {config : Config} {readId : ReadId} {index : Nat}
    (h : Confirmed steps config readId index) (out : Outlives steps steps') :
    Confirmed steps' config readId index := by
  obtain ⟨round, origin, counter, noop, floor, confirms, asked, safe⟩ := h
  obtain ⟨origin', confirms⟩ := confirms.mono out
  exact ⟨round, origin', counter, noop, floor, confirms, asked, safe⟩

/-- Reads leave the queue and rounds end. -/
theorem Reading.mono (h : Reading steps c) (out : Outlives steps steps') (climbs : Climbs c d)
    (config : d.config = c.config) (queue : d.pendingReads ⊆ c.pendingReads)
    (round : ∀ round, d.readRound = some round → c.readRound = some round)
    (noop : d.HoldsNoop) : Reading steps' d where
  queue readId queued := (h.queue readId (queue queued)).mono out
    (Nat.succ_le_succ climbs.counter) climbs.hardState.1 climbs.hardState.2.2
  round r found := by
    obtain ⟨origin, counter, index, floor, confirms, le, used⟩ := h.round r (round r found)
    obtain ⟨origin', confirms⟩ := confirms.mono out
    rw [config]
    exact ⟨origin', counter, index, floor, confirms, le.trans climbs.hardState.2.2,
      used.trans climbs.counter⟩
  noop := noop

/-- A started round rests on the step that started it. -/
theorem Ctx.roundStarted_confirms {t : Ctx C} {readId : ReadId} {round : ReadRound}
    {origin : Record C} {noop : Nat} (started : origin ∈ steps)
    (opened : Opened origin.before origin.after (t.core.nextReadContext + 1) noop)
    (term : origin.after.hardState.currentTerm = t.core.hardState.currentTerm)
    (le : noop ≤ t.core.hardState.commitIndex)
    (since : origin.before.hardState.commitIndex ≤ t.core.hardState.commitIndex)
    (known : t.core.hardState.commitIndex ≤ origin.after.log.committed)
    (asked : Asked steps readId (t.core.nextReadContext + 1) t.core.hardState.currentTerm
      t.core.hardState.commitIndex)
    (found : (t.roundStarted readId).core.readRound = some round) :
    Confirms steps t.core.config round origin (t.core.nextReadContext + 1) noop
      t.core.hardState.commitIndex := by
  have is : ∃ safe, round = ⟨roundContext t.core.hardState.currentTerm (t.core.nextReadContext + 1),
      QuorumTracker.withLocalVote t.core.config.members t.core.config.localId, [readId], safe⟩ ∧
      ∀ index, safe = some index → t.core.hardState.commitIndex ≤ index ∧
        (QuorumTracker.withLocalVote t.core.config.members t.core.config.localId).hasQuorum =
          true := by
    unfold Ctx.roundStarted at found
    dsimp only at found
    split at found
    · next quorum =>
      refine ⟨some t.core.hardState.commitIndex, (Option.some.inj found).symm, ?_⟩
      rintro _ ⟨⟩
      exact ⟨le_rfl, quorum⟩
    · exact ⟨none, (Option.some.inj found).symm, by rintro _ ⟨⟩⟩
  obtain ⟨safe, rfl, confirmed⟩ := is
  refine ⟨started, opened, ?_, le, since, known, ?_, rfl, ?_, ?_, confirmed⟩
  · rw [term]
  · rw [term]
    exact List.forall_mem_singleton.mpr (.inl asked)
  · simp [QuorumTracker.withLocalVote, t.core.config.local_mem]
  · simp [QuorumTracker.withLocalVote]

/-- An acknowledgement is counted. -/
theorem Confirms.acknowledge {config : Config} {round : ReadRound} {origin : Record C}
    {counter noop floor commit : Nat} {n : NodeId}
    (h : Confirms steps config round origin counter noop floor) (le : floor ≤ commit)
    (echoed : Echoed steps n round.context) : Confirms steps config
      (if (round.acknowledge n).hasQuorum ∧ round.safeIndex = none then
        (round.acknowledge n).setSafeIndex commit else round.acknowledge n)
      origin counter noop floor := by
  have acknowledged : Confirms steps config (round.acknowledge n) origin counter noop floor := by
    refine ⟨h.started, h.opened, h.context, h.noop_le, h.since, h.known, h.asked, ?_, ?_, ?_, ?_⟩
    · unfold ReadRound.acknowledge QuorumTracker.record
      dsimp only
      split
      · exact h.members
      · exact h.members
    · unfold ReadRound.acknowledge QuorumTracker.record
      dsimp only
      split
      · exact h.granted_subset
      · next known =>
        simp only [not_or, not_not] at known
        exact Finset.insert_subset known.1 h.granted_subset
    · intro m hm
      unfold ReadRound.acknowledge QuorumTracker.record at hm
      dsimp only at hm
      split at hm
      · exact h.echoed m hm
      · rcases Finset.mem_insert.mp hm with rfl | old
        · exact .inr echoed
        · exact h.echoed m old
    · intro index safe
      obtain ⟨reached, quorum⟩ := h.safe index safe
      exact ⟨reached, QuorumTracker.hasQuorum_record quorum⟩
  split
  · next confirmed =>
    refine { acknowledged with safe := ?_ }
    rintro index ⟨⟩
    exact ⟨le, confirmed.1⟩
  · exact acknowledged

/-! ## The no-op of the term -/

theorem RaftCore.HoldsNoop.keep (h : c.HoldsNoop) (role : d.role = .leader → c.role = .leader)
    (slot : ∀ id stable, d.pendingPersist = some ⟨id, stable, .activateLeader⟩ →
      c.role = .leader ∨ c.pendingPersist = some ⟨id, stable, .activateLeader⟩)
    (noop : d.leaderNoopIndex = c.leaderNoopIndex)
    (term : d.hardState.currentTerm = c.hardState.currentTerm)
    (entries : c.log.entries <+: d.log.entries) : d.HoldsNoop := by
  intro leads index found
  rw [term]
  refine TermAt.extend (h ?_ index (noop ▸ found)) entries
  rcases leads with leader | ⟨id, stable, pending⟩
  · exact .inl (role leader)
  · exact (slot id stable pending).imp_right fun before => ⟨id, stable, before⟩

theorem RaftCore.HoldsNoop.same (h : c.HoldsNoop) (role : d.role = c.role)
    (slot : d.pendingPersist = c.pendingPersist) (noop : d.leaderNoopIndex = c.leaderNoopIndex)
    (term : d.hardState.currentTerm = c.hardState.currentTerm)
    (entries : d.log.entries = c.log.entries) : d.HoldsNoop :=
  h.keep (fun leader => role ▸ leader) (fun _ _ pending => .inr (slot ▸ pending)) noop term
    (entries ▸ List.prefix_refl _)

/-- A core that neither leads nor is about to. -/
theorem RaftCore.HoldsNoop.follower (role : d.role ≠ .leader)
    (slot : ∀ id stable, d.pendingPersist ≠ some ⟨id, stable, .activateLeader⟩) : d.HoldsNoop := by
  rintro (leader | ⟨id, stable, pending⟩)
  · exact absurd leader role
  · exact absurd pending (slot id stable)

/-- A core that does not know of a no-op. -/
theorem RaftCore.HoldsNoop.unknown (none : d.leaderNoopIndex = none) : d.HoldsNoop := by
  intro _ index found
  simp [none] at found

theorem RaftCore.HoldsNoop.appended {e : RaftCore C} {entry : Entry C} (wf : c.WF) (bare : c.Bare)
    (next : entry.Continues c) (entries : e.log.entries = c.log.entries ++ [entry])
    (noop : e.leaderNoopIndex = some entry.index)
    (term : e.hardState.currentTerm = c.hardState.currentTerm) : e.HoldsNoop := by
  intro _ index found
  obtain rfl := Option.some.inj (noop.symm.trans found)
  rw [entries, term, next.index, wf.log.length_eq bare.log, ← next.term]
  exact .of_getElem? (by simp)

theorem MessageAct.holdsNoop {members : Finset NodeId} {envelope : Envelope C} (wf : c.WF)
    (bare : c.Bare) (h : c.HoldsNoop)
    (act : MessageAct { c with activeMembers := members } envelope.from_ envelope.message s) :
    s.core.HoldsNoop := by
  generalize envelope.message = m at act
  cases act with
  | termRaised | appendRejected =>
    exact .unknown (by simp [Ctx.queued, RaftCore.termRaised, RaftCore.becomeFollower])
  | appendAccepted =>
    exact .unknown (by simp [Ctx.queued, RaftCore.merged, RaftCore.becomeFollower])
  | appendFailed | appendRefused | appendHeld =>
    exact .unknown (by simp [RaftCore.becomeFollower])
  | voteNewer => exact .follower (by simp [Ctx.queued]) (by simp [Ctx.queued])
  | voteFirst term index logTerm same =>
    refine h.keep (fun leader => leader) ?_ rfl same.symm (List.prefix_refl _)
    simp [Ctx.queued]
  | campaigned =>
    exact .follower (by simp [Ctx.queued, RaftCore.candidacy])
      (by simp [Ctx.queued, RaftCore.candidacy])
  | elected term granted votes entry same candidate found won next =>
    exact .appended wf bare ⟨next.index, next.term, next.terms, next.bound⟩ rfl rfl rfl
  | preVoteCounted term granted votes role roles notLeader =>
    have notLeader : c.role = .preCandidate := notLeader
    refine h.keep (fun leader => ?_) (fun _ _ pending => .inr pending) rfl rfl
      (List.prefix_refl _)
    rcases roles with ⟨rfl, -⟩ | ⟨rfl, -⟩
    · exact leader
    · cases leader
  | voteLost =>
    exact h.keep (by rintro ⟨⟩) (fun _ _ pending => .inr pending) rfl rfl (List.prefix_refl _)
  | _ => exact h.same rfl rfl rfl rfl rfl

theorem CompletionAct.holdsNoop [Sha256] {id : EffectId} {outcome : EffectOutcome} (wf : c.WF)
    (bare : c.Bare) (h : c.HoldsNoop) (act : CompletionAct c id outcome s) : s.core.HoldsNoop := by
  cases act with
  | installed snapshotId record from_ term log found => simp [bare.incoming] at found
  | compacted record log found => exact absurd found (bare.compacting _ _)
  | electedAlone stableThrough votes entry found counted won next =>
    exact .appended wf bare next rfl rfl rfl
  | activated stableThrough found =>
    -- the no-op that was pending is the one of the term
    intro _ index known
    exact h (.inr ⟨id, stableThrough, found⟩) index known
  | persistDropped | persistDone | votesRequested | voteAnswered | appendAnswered =>
    refine h.keep (fun leader => leader) ?_ rfl rfl (List.prefix_refl _)
    simp [RaftCore.stabilized]
  | _ => exact h.same rfl rfl rfl rfl rfl

theorem Act.holdsNoop [Sha256] (wf : c.WF) (bare : c.Bare) (h : c.HoldsNoop)
    (act : Act c event s) : s.core.HoldsNoop := by
  cases act with
  | message envelope members s known mine act => exact act.holdsNoop wf bare h
  | completed id outcome s act => exact act.holdsNoop wf bare h
  | preVoteStarted notLeader free => exact .follower (by simp) (by simp [free])
  | campaigned =>
    exact .follower (by simp [Ctx.queued, RaftCore.candidacy])
      (by simp [Ctx.queued, RaftCore.candidacy])
  | quorumLost => exact .unknown (by simp [RaftCore.becomeFollower])
  | proposed proposalId command encodedLen entry =>
    refine h.keep (fun leader => leader) ?_ rfl rfl (List.prefix_append _ _)
    simp [Ctx.queued]
  | readStarted readId =>
    obtain ⟨round, hr⟩ := Ctx.roundStarted_core ⟨c, []⟩ readId
    rw [hr]
    exact h.same rfl rfl rfl rfl rfl
  | _ => exact h.same rfl rfl rfl rfl rfl

theorem FollowUp.holdsNoop {cause : Cause C} {s s' : Ctx C} (hf : FollowUp cause s s')
    (h : s.core.HoldsNoop) : s'.core.HoldsNoop := by
  have frame := hf.frame
  refine h.keep (fun leader => frame.role ▸ leader) (fun id stable pending => ?_) frame.noop
    frame.term (frame.entries ▸ List.prefix_refl _)
  rcases hf.pendingPersist with same | ⟨id', stable', committing⟩
  · exact .inr (same ▸ pending)
  · exact absurd (committing.symm.trans pending) (by simp)

/-! ## One step -/

/-- What a step does to the reads unless it is asked for one. -/
structure KeepsReads (c d : RaftCore C) : Prop where
  queue : d.pendingReads ⊆ c.pendingReads
  round : ∀ round, d.readRound = some round → c.readRound = some round
  counter : d.nextReadContext = c.nextReadContext

theorem KeepsReads.same (queue : d.pendingReads = c.pendingReads)
    (round : d.readRound = c.readRound) (counter : d.nextReadContext = c.nextReadContext) :
    KeepsReads c d := ⟨queue ▸ List.Subset.refl _, fun _ found => round ▸ found, counter⟩

theorem KeepsReads.dropped (queue : d.pendingReads = []) (round : d.readRound = none)
    (counter : d.nextReadContext = c.nextReadContext) : KeepsReads c d where
  queue := by simp [queue]
  round := by simp [round]
  counter := counter

theorem MessageAct.keepsReads {members : Finset NodeId} {from_ : NodeId} {m : Message C}
    (act : MessageAct { c with activeMembers := members } from_ m s) : KeepsReads c s.core := by
  cases act with
  | termRaised | appendFailed | appendRefused | appendRejected | appendHeld | appendAccepted =>
    exact .dropped rfl rfl rfl
  | _ => exact .same rfl rfl rfl

theorem Act.keepsReads [Sha256] (other : ∀ readId context, event ≠ .read readId context)
    (act : Act c event s) : KeepsReads c s.core := by
  cases act with
  | message envelope members s known mine act => exact act.keepsReads
  | quorumLost => exact .dropped rfl rfl rfl
  | completed id outcome s act => cases act <;> exact .same rfl rfl rfl
  | readQueued readId context | readJoined readId context | readStarted readId context =>
    exact absurd rfl (other readId context)
  | _ => exact .same rfl rfl rfl

/-- No read is answered or asked for. -/
def Mute (effects : List (Effect C)) : Prop :=
  (∀ readId index, .readReady readId index ∉ effects) ∧
  ∀ to_ term prev prevTerm leaderCommit context entries,
    .sendMessage to_ (.appendEntries term prev prevTerm leaderCommit (some context) entries) ∉
      effects

theorem Mute.nil : Mute ([] : List (Effect C)) := by simp [Mute]

theorem Mute.toPeers {config : Config} {m : Message C} (silent : m.leaderTerm = none) :
    Mute (toPeers config m) := by
  refine ⟨fun readId index sent => ?_, fun to_ term prev prevTerm leaderCommit context entries sent => ?_⟩
  · simp [Ruft.toPeers] at sent
  · obtain ⟨-, rfl⟩ := mem_toPeers sent
    simp [Message.leaderTerm] at silent

theorem MessageAct.mute {from_ : NodeId} {m : Message C} (act : MessageAct c from_ m s) :
    Mute s.effects := by
  cases act with
  | refused _ reply refusal | appendRefused _ _ _ _ _ _ _ reply refusal =>
    cases refusal <;> simp [Mute]
  | _ => simp [Mute, Ctx.queued]

theorem Act.mute [Sha256] (other : ∀ readId context, event ≠ .read readId context)
    (act : Act c event s) : Mute s.effects := by
  cases act with
  | message envelope members s known mine act => exact act.mute
  | preVoteStarted => exact .toPeers rfl
  | completed id outcome s act =>
    cases act with
    | votesRequested => exact .toPeers rfl
    | applyDone => simp [Mute, Ctx.answered]
    | _ => simp [Mute, Ctx.queued]
  | readQueued readId context | readJoined readId context | readStarted readId context =>
    exact absurd rfl (other readId context)
  | _ => simp [Mute, Ctx.queued]

/-- The record of the step if it returned here. -/
def Ctx.record (s : Ctx C) (c : RaftCore C) (event : Event C) : Record C :=
  ⟨c, event, .ok ⟨s.effects, true⟩, s.core⟩

/-- A core in the middle of a step. -/
structure Serving (history : List (Record C)) (c : RaftCore C) (event : Event C) (s : Ctx C) :
    Prop where
  wf : s.core.WF
  law : Meets AnswersReads history
  reading : Reading (s.record c event :: history) s.core
  answers : AnswersReads history (s.record c event)

theorem Act.climbs [Sha256] (wf : c.WF) (bare : c.Bare) (act : Act c event s) :
    Climbs c s.core where
  hardState := act.hardState_le wf (bare.undisturbed event).2.2
  counter := by
    cases event with
    | read readId context =>
      cases act with
      | readStarted =>
        obtain ⟨round, hr⟩ := Ctx.roundStarted_core ⟨c, []⟩ readId
        rw [hr]
        exact Nat.le_succ _
      | _ => exact le_rfl
    | _ => exact (act.keepsReads (by simp)).counter.ge

/-- A mute step says nothing about reads. -/
theorem AnswersReads.mute {r : Record C} (climbs : Climbs r.before r.after) (wf : r.after.WF)
    (mute : Mute r.effects) : AnswersReads history r where
  climbs := climbs
  committed := wf.committed
  answers readId index answered := absurd answered (mute.1 readId index)
  asks to_ term prev prevTerm leaderCommit context entries sent :=
    absurd sent (mute.2 to_ term prev prevTerm leaderCommit context entries)

/-- The heartbeats of a round name it. -/
theorem Ctx.roundStarted_asks {t : Ctx C} {readId : ReadId} {to_ : NodeId}
    {term prev prevTerm leaderCommit : Nat} {context : Bytes} {entries : List (Entry C)}
    (h : .sendMessage to_ (.appendEntries term prev prevTerm leaderCommit (some context) entries) ∈
      (t.roundStarted readId).effects) :
    .sendMessage to_ (.appendEntries term prev prevTerm leaderCommit (some context) entries) ∈
      t.effects ∨
      context = roundContext t.core.hardState.currentTerm (t.core.nextReadContext + 1) := by
  unfold Ctx.roundStarted at h
  dsimp only at h
  split at h
  · exact .inl h
  · refine (List.mem_append.mp h).imp_right fun new => ?_
    obtain ⟨-, is⟩ := mem_toPeers new
    simp only [Message.appendEntries.injEq, Option.some.injEq] at is
    exact is.2.2.2.2.1

theorem Ctx.roundStarted_answers {t : Ctx C} {readId : ReadId} {id : ReadId} {index : Nat}
    (h : .readReady id index ∈ (t.roundStarted readId).effects) :
    .readReady id index ∈ t.effects := by
  rcases t.roundStarted_effects readId with same | ⟨context, more⟩
  · exact same ▸ h
  · rw [more] at h
    exact (List.mem_append.mp h).resolve_right (by simp [Ctx.readHeartbeats, toPeers])

/-- A round is started by a leader whose no-op is committed. -/
theorem RaftCore.HoldsNoop.opened {d' : RaftCore C} (holds : d.HoldsNoop)
    (leader : d.role = .leader) (noop : d.currentLeaderNoopIsCommitted = true)
    (room : d.nextReadContext < u64Max) (climbs : Climbs c d) (stays : Stays d d')
    (next : d'.nextReadContext = d.nextReadContext + 1) : ∃ index,
      Opened c d' (d.nextReadContext + 1) index ∧ index ≤ d.hardState.commitIndex := by
  simp only [RaftCore.currentLeaderNoopIsCommitted, Option.any_eq_true, decide_eq_true_eq] at noop
  obtain ⟨index, found, committed⟩ := noop
  refine ⟨index, ⟨stays.role.trans leader, Nat.lt_succ_of_le climbs.counter, next.ge, room, ?_⟩,
    committed⟩
  rw [stays.entries, stays.term]
  exact holds (.inl leader) index found

theorem Ctx.roundStarted_stays (t : Ctx C) (readId : ReadId) :
    Stays t.core (t.roundStarted readId).core ∧
      (t.roundStarted readId).core.nextReadContext = t.core.nextReadContext + 1 := by
  obtain ⟨round, hr⟩ := t.roundStarted_core readId
  rw [hr]
  exact ⟨⟨rfl, rfl, rfl, Nat.le_succ _, le_rfl⟩, rfl⟩

/-- A read joins the round in flight. -/
theorem Confirms.push {config : Config} {round : ReadRound} {origin : Record C}
    {counter noop floor : Nat} {readId : ReadId}
    (h : Confirms steps config round origin counter noop floor)
    (joined : Joined steps readId round.context counter) :
    Confirms steps config (round.push readId) origin counter noop floor where
  started := h.started
  opened := h.opened
  context := h.context
  noop_le := h.noop_le
  since := h.since
  known := h.known
  asked id pushed := by
    rcases List.mem_append.mp pushed with old | new
    · exact h.asked id old
    · obtain rfl := List.mem_singleton.mp new
      exact .inr joined
  members := h.members
  granted_subset := h.granted_subset
  echoed := h.echoed
  safe := h.safe

theorem Act.serving [Sha256] (wf : c.WF) (bare : c.Bare) (law : Meets AnswersReads history)
    (h : Reading history c) (act : Act c event s) : Serving history c event s := by
  have wf' := bare.act_wf wf act
  have climbs := act.climbs wf bare
  have noop := act.holdsNoop wf bare h.noop
  have out : Outlives history (s.record c event :: history) :=
    .of_subset (List.subset_cons_self _ _)
  have config := act.config_eq
  by_cases other : ∀ readId context, event ≠ .read readId context
  · obtain ⟨queue, round, -⟩ := act.keepsReads other
    exact ⟨wf', law, h.mono out climbs config queue round noop, .mute climbs wf' (act.mute other)⟩
  obtain ⟨readId, context, rfl⟩ : ∃ readId context, event = .read readId context := by
    by_contra none
    exact other fun readId context is => none ⟨readId, context, is⟩
  have asked : c.role = .leader → ∀ counter, c.nextReadContext < counter →
      Asked (s.record c (.read readId context) :: history) readId counter
        c.hardState.currentTerm c.hardState.commitIndex := fun leader counter fresh =>
    ⟨_, List.mem_cons_self .., ⟨context, rfl⟩, leader, fresh, le_rfl, le_rfl⟩
  cases act with
  | ignored =>
    exact ⟨wf', law, h.mono out climbs config (List.Subset.refl _) (fun _ found => found) noop,
      .mute climbs wf' .nil⟩
  | readQueued _ _ leader =>
    have kept := h.mono (d := c) out (.refl c) rfl (List.Subset.refl _) (fun _ found => found) h.noop
    refine ⟨wf', law, ⟨fun id queued => ?_, kept.round, noop⟩, .mute climbs wf' .nil⟩
    rcases List.mem_append.mp queued with old | new
    · exact kept.queue id old
    · obtain rfl := List.mem_singleton.mp new
      exact asked leader _ (Nat.lt_succ_self _)
  | readJoined _ _ round leader committed found space =>
    have kept := h.mono (d := c) out (.refl c) rfl (List.Subset.refl _) (fun _ found => found) h.noop
    refine ⟨wf', law, ⟨kept.queue, fun joined is => ?_, noop⟩, .mute climbs wf' .nil⟩
    obtain ⟨origin, counter, index, floor, confirms, le, used⟩ := kept.round round found
    obtain rfl := Option.some.inj is
    exact ⟨origin, counter, index, floor, confirms.push ⟨_, List.mem_cons_self .., ⟨context, rfl⟩,
      ⟨round, ⟨leader, committed, found, space⟩, rfl⟩, used⟩, le, used⟩
  | readStarted _ _ leader committed idle room =>
    obtain ⟨stays, next⟩ := Ctx.roundStarted_stays ⟨c, []⟩ readId
    obtain ⟨index, opened, le⟩ := h.noop.opened leader committed room (.refl c) stays next
    obtain ⟨started, core⟩ := Ctx.roundStarted_core ⟨c, []⟩ readId
    refine ⟨wf', law, ⟨fun id queued => ?_, fun round found => ?_, noop⟩, climbs, wf'.committed,
      fun id i answered => ?_, fun to_ term prev prevTerm leaderCommit ctx entries sent => ?_⟩
    · rw [core] at queued
      exact (h.queue id queued).mono out (Nat.succ_le_succ climbs.counter) climbs.hardState.1
        climbs.hardState.2.2
    · have mem := List.mem_cons_self (a := (Ctx.roundStarted ⟨c, []⟩ readId).record c
        (.read readId context)) (l := history)
      have confirms := Ctx.roundStarted_confirms (t := ⟨c, []⟩) mem opened stays.term
        le le_rfl (wf.committed ▸ stays.commit) (asked leader _ (Nat.lt_succ_self _)) found
      rw [config]
      exact ⟨_, _, index, _, confirms, climbs.hardState.2.2, next.ge⟩
    · exact absurd (Ctx.roundStarted_answers answered) (by simp)
    · rcases Ctx.roundStarted_asks sent with old | is
      · simp at old
      · refine ⟨_, index, opened, is.trans ?_⟩
        exact congrArg (roundContext · _) stays.term.symm

theorem FollowUp.stays {cause : Cause C} {s s' : Ctx C} (hf : FollowUp cause s s') :
    Stays s.core s'.core := by
  have frame := hf.frame
  refine ⟨frame.role, frame.term, frame.entries, ?_, frame.commit_le⟩
  cases hf with
  | readStarted readId rest =>
    exact (Ctx.roundStarted_stays ⟨{ s.core with pendingReads := rest }, s.effects⟩ readId).1.counter
  | _ => exact le_rfl

/-- A follow-up answers the reads of a round. -/
theorem FollowUp.answers {cause : Cause C} {s s' : Ctx C} (hf : FollowUp cause s s')
    {readId : ReadId} {index : Nat} (h : .readReady readId index ∈ s'.effects) :
    .readReady readId index ∈ s.effects ∨ ∃ round, s.core.readRound = some round ∧
      readId ∈ round.requests ∧ round.safeIndex = some index ∧ index ≤ s.core.appliedIndex := by
  cases hf with
  | readReleased round index' found safe applied =>
    refine (List.mem_append.mp h).imp_right fun new => ?_
    obtain ⟨id, asked, is⟩ := List.mem_map.mp new
    simp only [Effect.readReady.injEq] at is
    obtain ⟨rfl, rfl⟩ := is
    exact ⟨round, found, asked, safe, applied⟩
  | readStarted id rest =>
    exact .inl (Ctx.roundStarted_answers (t := ⟨{ s.core with pendingReads := rest }, s.effects⟩) h)
  | applied | appendSent | chunkRequested | buildRequested | committed =>
    exact .inl ((List.mem_append.mp h).resolve_right (by simp))
  | _ => exact .inl h

/-- A follow-up that sends a context has started a round. -/
theorem FollowUp.asks {cause : Cause C} {s s' : Ctx C} (hf : FollowUp cause s s') {to_ : NodeId}
    {term prev prevTerm leaderCommit : Nat} {context : Bytes} {entries : List (Entry C)}
    (h : .sendMessage to_ (.appendEntries term prev prevTerm leaderCommit (some context) entries) ∈
      s'.effects) :
    .sendMessage to_ (.appendEntries term prev prevTerm leaderCommit (some context) entries) ∈
      s.effects ∨ s.core.role = .leader ∧ s.core.currentLeaderNoopIsCommitted = true ∧
        s.core.nextReadContext < u64Max ∧
        s'.core.nextReadContext = s.core.nextReadContext + 1 ∧
        context = roundContext s.core.hardState.currentTerm (s.core.nextReadContext + 1) := by
  cases hf with
  | readStarted readId rest leader noop idle queue room =>
    refine (Ctx.roundStarted_asks (t := ⟨{ s.core with pendingReads := rest }, s.effects⟩) h).imp_right
      fun is => ⟨leader, noop, room, ?_, is⟩
    exact (Ctx.roundStarted_stays ⟨{ s.core with pendingReads := rest }, s.effects⟩ readId).2
  | applied | appendSent | chunkRequested | buildRequested | committed | readReleased =>
    exact .inl ((List.mem_append.mp h).resolve_right (by simp))
  | _ => exact .inl h

theorem FollowUp.reading {s s' : Ctx C} (wf : s.core.WF)
    (h : Reading (s.record c event :: history) s.core) (before : Climbs c s.core)
    (climbs : Climbs s.core s'.core) (hf : FollowUp ⟨c, event⟩ s s') :
    Reading (s'.record c event :: history) s'.core := by
  have stays := hf.stays
  have noop := hf.holdsNoop h.noop
  have out : Outlives (s.record c event :: history) (s'.record c event :: history) := .head stays
  have same := fun queue round => h.mono out climbs hf.frame.config queue round noop
  cases hf with
  | readAcknowledged envelope term matchIndex conflict context round is message leader current
      found context_ =>
    refine ⟨fun id queued => (h.queue id queued).mono out le_rfl le_rfl le_rfl,
      fun counted is_ => ?_, noop⟩
    obtain ⟨origin, counter, index, floor, confirms, le, used⟩ := h.round round found
    obtain ⟨origin', confirms⟩ := confirms.mono out
    have echoed : Echoed (s.record c event :: history) envelope.from_ round.context := by
      refine ⟨_, List.mem_cons_self .., envelope, matchIndex, conflict, is, rfl, ?_, leader⟩
      rw [message, current, context_, Ctx.record]
    obtain rfl := Option.some.inj is_
    exact ⟨origin', counter, index, floor, confirms.acknowledge le (echoed.mono out), le, used⟩
  | readReleased => exact same (List.Subset.refl _) (by simp)
  | readStarted readId rest leader committed idle queue room =>
    let t : Ctx C := ⟨{ s.core with pendingReads := rest }, s.effects⟩
    obtain ⟨now, next⟩ := t.roundStarted_stays readId
    obtain ⟨index, opened, le⟩ := h.noop.opened leader committed room before stays next
    obtain ⟨started, core⟩ := t.roundStarted_core readId
    have asked := h.queue readId (by simp [queue])
    refine ⟨fun id queued => ?_, fun round found => ?_, noop⟩
    · rw [core] at queued
      exact (h.queue id (queue ▸ List.mem_cons_of_mem _ queued)).mono out
        (Nat.succ_le_succ climbs.counter) climbs.hardState.1 climbs.hardState.2.2
    · have mem := List.mem_cons_self (a := (t.roundStarted readId).record c event) (l := history)
      have confirms := Ctx.roundStarted_confirms (t := t) mem opened now.term le
        before.hardState.2.2 (wf.committed ▸ now.commit) (asked.mono out le_rfl le_rfl le_rfl) found
      have config : (t.roundStarted readId).core.config = t.core.config := by rw [core]
      rw [config]
      exact ⟨_, _, index, _, confirms, climbs.hardState.2.2, next.ge⟩
  | readLost readId rest queue => exact same (by simp [queue]) fun _ found => found
  | _ => exact same (List.Subset.refl _) fun _ found => found

theorem FollowUp.serving {s s' : Ctx C} (h : Serving history c event s)
    (hf : FollowUp ⟨c, event⟩ s s') : Serving history c event s' := by
  have wf' := h.wf.followUp hf
  have stays := hf.stays
  have frame := hf.frame
  have climbs : Climbs s.core s'.core :=
    ⟨hf.hardState_le h.wf.committed wf'.committed, stays.counter⟩
  have out : Outlives (s.record c event :: history) (s'.record c event :: history) := .head stays
  have before : Climbs c s.core := h.answers.climbs
  refine ⟨wf', h.law, hf.reading h.wf h.reading before climbs, before.trans climbs, wf'.committed,
    fun readId index answered => ?_, fun to_ term prev prevTerm leaderCommit context entries sent => ?_⟩
  · have now : Confirmed (s.record c event :: history) s.core.config readId index ∧
        index ≤ s.core.appliedIndex := by
      rcases hf.answers answered with old | ⟨round, found, asked, safe, applied⟩
      · exact h.answers.answers readId index old
      · obtain ⟨origin, counter, noop, floor, confirms, -⟩ := h.reading.round round found
        exact ⟨⟨round, origin, counter, noop, floor, confirms, asked, safe⟩, applied⟩
    have config : (s'.record c event).after.config = s.core.config := frame.config
    have applied : (s'.record c event).after.appliedIndex = s.core.appliedIndex := frame.applied
    rw [config, applied]
    exact ⟨now.1.mono out, now.2⟩
  · have term : (s'.record c event).after.hardState.currentTerm = s.core.hardState.currentTerm :=
      stays.term
    rw [term]
    rcases hf.asks sent with old | ⟨leader, committed, room, next, is⟩
    · obtain ⟨counter, noop, opened, is⟩ :=
        h.answers.asks to_ _ prev prevTerm leaderCommit context entries old
      exact ⟨counter, noop, opened.stays rfl stays, is⟩
    · obtain ⟨noop, opened, -⟩ := h.reading.noop.opened leader committed room before stays next
      exact ⟨_, noop, opened, is⟩

/-! ## Whole runs -/

/-- What a step says about reads it says in every state with the same log, reads and hard state. -/
theorem AnswersReads.carry {r r' : Record C} (h : AnswersReads history r)
    (before : r'.before = r.before) (event : r'.event = r.event) (stays : Stays r.after r'.after)
    (hardState : r'.after.hardState = r.after.hardState) (log : r'.after.log = r.after.log)
    (config : r'.after.config = r.after.config)
    (applied : r'.after.appliedIndex = r.after.appliedIndex)
    (answers : ∀ readId index, .readReady readId index ∈ r'.effects →
      .readReady readId index ∈ r.effects)
    (sends : ∀ to_ m, .sendMessage to_ m ∈ r'.effects → .sendMessage to_ m ∈ r.effects) :
    AnswersReads history r' where
  climbs := by
    rw [before]
    exact h.climbs.trans ⟨hardState ▸ HardState.le_refl _, stays.counter⟩
  committed := by
    rw [hardState, log]
    exact h.committed
  answers readId index answered := by
    obtain ⟨confirmed, le⟩ := h.answers readId index (answers readId index answered)
    have out : Outlives (r :: history) (r' :: history) := by
      refine List.forall_mem_cons.mpr ⟨⟨r', List.mem_cons_self .., before, event, stays⟩,
        fun q hq => ⟨q, List.mem_cons_of_mem _ hq, rfl, rfl, .refl _⟩⟩
    rw [config, applied]
    exact ⟨confirmed.mono out, le⟩
  asks to_ term prev prevTerm leaderCommit context entries sent := by
    obtain ⟨counter, noop, opened, is⟩ :=
      h.asks to_ term prev prevTerm leaderCommit context entries (sends _ _ sent)
    rw [stays.term]
    exact ⟨counter, noop, opened.stays before stays, is⟩

theorem Serving.finished (h : Serving history c event s) :
    Serving history c event (s.finished c) := by
  obtain ⟨proposals, core⟩ := s.finished_core c
  obtain ⟨new, effects, only⟩ := s.finished_effects c
  have stays : Stays s.core (s.finished c).core := by
    rw [core]
    exact ⟨rfl, rfl, rfl, le_rfl, le_rfl⟩
  have out : Outlives (s.record c event :: history) ((s.finished c).record c event :: history) :=
    .head stays
  refine ⟨?_, h.law, ?_, ?_⟩
  · rw [core]
    exact h.wf.congr rfl rfl rfl rfl rfl rfl rfl rfl rfl rfl rfl
  · rw [core]
    exact h.reading.mono out ⟨HardState.le_refl _, le_rfl⟩ rfl (List.Subset.refl _)
      (fun _ found => found) (h.reading.noop.same rfl rfl rfl rfl rfl)
  · have kept : (s.finished c).core.hardState = s.core.hardState ∧
        (s.finished c).core.log = s.core.log ∧ (s.finished c).core.config = s.core.config ∧
        (s.finished c).core.appliedIndex = s.core.appliedIndex := by
      rw [core]
      exact ⟨rfl, rfl, rfl, rfl⟩
    refine h.answers.carry rfl rfl stays kept.1 kept.2.1 kept.2.2.1 kept.2.2.2
      (fun readId index answered => ?_) fun to_ m sent => Ctx.finished_sends c sent
    · rw [Ctx.record, Record.effects, effects] at answered
      refine (List.mem_append.mp answered).resolve_right fun fresh => ?_
      obtain ⟨p, result, is⟩ := only _ fresh
      simp at is

/-- The step ends in a core with the same log and the same reads. -/
theorem Serving.end_ {result : Outcome StepError (StepOutput C)} (h : Serving history c event s)
    (slowed : s.core.Slowed d) (effects : (Record.mk c event result d).effects ⊆ s.effects) :
    Meets AnswersReads (⟨c, event, result, d⟩ :: history) := by
  obtain ⟨reads, store, incoming, building, applying, persist, stopped, reason, rfl⟩ := slowed
  exact ⟨h.answers.carry rfl rfl ⟨rfl, rfl, rfl, le_rfl, le_rfl⟩ rfl rfl rfl rfl
    (fun _ _ answered => effects answered) fun _ _ sent => effects sent, h.law⟩

theorem Serving.reading_end {result : Outcome StepError (StepOutput C)}
    (h : Serving history c event s) : Reading (⟨c, event, result, s.core⟩ :: history) s.core :=
  h.reading.mono (.head (.refl _)) (.refl _) rfl (List.Subset.refl _) (fun _ found => found)
    h.reading.noop

/-- A step that leaves the core slowed at most says nothing about reads. -/
theorem AnswersReads.silent {result : Outcome StepError (StepOutput C)}
    (committed : c.log.committed = c.hardState.commitIndex) (slowed : c.Slowed d)
    (silent : (Record.mk c event result d).effects = []) :
    AnswersReads history ⟨c, event, result, d⟩ := by
  obtain ⟨reads, store, incoming, building, applying, persist, stopped, reason, rfl⟩ := slowed
  exact ⟨⟨HardState.le_refl _, le_rfl⟩, committed, by simp [silent], by simp [silent]⟩

theorem reading_keeps [Sha256] : Keeps (Unsnapshotted : Condition C)
    (fun history c => (Meets AnswersReads history ∧ c.log.committed = c.hardState.commitIndex) ∧
      Reading history c) Serving
    (fun history c => Meets AnswersReads history ∧ c.log.committed = c.hardState.commitIndex) where
  act hs h act := act.serving hs.wf hs.meets.2.1 h.1.1 h.2
  followUp _ _ _ h hf := hf.serving h
  finished _ h := h.finished
  returned changed _ h :=
    ⟨⟨h.end_ (.refl _) (List.Subset.refl _), h.wf.committed⟩, h.reading_end⟩
  failed e _ h _ := ⟨⟨h.end_ (.refl _) (List.nil_subset _), h.wf.committed⟩, h.reading_end⟩
  safe h := h.1
  ended e reason _ h := ⟨h.end_ (.stop _ _) (List.nil_subset _), h.wf.committed⟩
  halted := by
    intro history c c' event e reason hs h halted
    obtain ⟨-, reads, store, incoming, building, applying, persist, rfl⟩ := halted
    exact ⟨⟨.silent hs.wf.committed ⟨_, _, _, _, _, _, _, _, rfl⟩ rfl, h.1.1⟩, hs.wf.committed⟩
  idle c event result _ silent h := ⟨⟨.silent h.2 (.refl _) silent, h.1⟩, h.2⟩

theorem RaftCore.new_reading (config : Config) :
    Reading [] (RaftCore.new config (.initial : RecoveredState C)) where
  queue := by simp [RaftCore.new]
  round := by simp [RaftCore.new]
  noop := .unknown rfl

theorem Trace.answersReads [Sha256] {config : Config}
    (run : Trace (RaftCore.new config .initial) history c) (plain : Holds Snapshotless history) :
    Meets AnswersReads history :=
  (Trace.invariant
    (quoting_keeps.and reading_keeps fun hs h => ⟨hs.meets.1, h.bare, hs.meets.2⟩)
    (fun _ _ _ h => h.1) (RaftCore.new_wf config _)
    ⟨RaftCore.new_quoted config, ⟨trivial, rfl⟩, RaftCore.new_reading config⟩ run plain).1.2.1

/-- The states of a core climb when its steps do. -/
theorem Trace.climbs [Sha256] {init : RaftCore C} (run : Trace init history c)
    (each : ∀ r ∈ history, Climbs r.before r.after) :
    (history.Pairwise fun later earlier => Climbs earlier.after later.before) ∧
      ∀ r ∈ history, Climbs r.after c := by
  induction run with
  | start => exact ⟨.nil, by simp⟩
  | @step history c c' event result earlier allowed run returns ih =>
    obtain ⟨now, each⟩ := List.forall_mem_cons.mp each
    obtain ⟨pairs, reached⟩ := ih each
    exact ⟨List.pairwise_cons.mpr ⟨reached, pairs⟩,
      List.forall_mem_cons.mpr ⟨.refl _, fun r hr => (reached r hr).trans now⟩⟩

end Ruft
