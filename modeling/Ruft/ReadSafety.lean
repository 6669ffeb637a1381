import Ruft.ReadRounds
import Ruft.Safety

set_option autoImplicit false

/-!
# Read safety

A read is answered with an index that covers every commit of the cluster before the read came
in. The quorum that sent back the context of the round shares a member with every quorum that
elected a later leader, and the leader of the round holds a committed entry of its own term. A
read that joined a round in flight covers only the commits before the round was started.

## Main definitions

- `Sources` — where a commit index comes from
- `ReadCovers` — what an answer to a read covers
- `ReadsApart` — no read joins a round in flight

## Main results

- `reads_cover_commits` — what a read was answered with covers the commits before it or before the
  round it joined
- `reads_linearizable` — it covers the commits before the read when no read joins a round
- `joined_read_stale` — a read that joined a round misses a commit before it
-/

namespace Ruft

open LeaderLogs

variable {C : Type} {c : RaftCore C} {event : Event C}

/-! ## Where a commit index comes from -/

/-- The commit index of a core is its own, or a leader told it, or the core leads, or needs no
other member. -/
inductive Sources (c : RaftCore C) (event : Event C) (d : RaftCore C) : Prop
  | kept (same : d.log.committed = c.log.committed)
  | told (envelope : Envelope C) (term prev prevTerm leaderCommit : Nat) (context : Option Bytes)
      (entries : List (Entry C)) (received : event = .messageReceived envelope)
      (message : envelope.message = .appendEntries term prev prevTerm leaderCommit context entries)
      (le : d.log.committed ≤ max c.log.committed leaderCommit)
  | led (leader : d.role = .leader)
  | alone (single : d.config.quorum ≤ 1)

theorem Sources.keep {d d' : RaftCore C} (h : Sources c event d) (role : d'.role = d.role)
    (config : d'.config = d.config) (committed : d'.log.committed = d.log.committed) :
    Sources c event d' := by
  cases h with
  | kept same => exact .kept (committed.trans same)
  | told envelope term prev prevTerm leaderCommit context entries received message le =>
    exact .told envelope term prev prevTerm leaderCommit context entries received message
      (committed ▸ le)
  | led leader => exact .led (role.trans leader)
  | alone single => exact .alone (config ▸ single)

theorem Act.sources [Sha256] {s : Ctx C} (bare : c.Bare) (act : Act c event s) :
    Sources c event s.core := by
  cases act.commits bare [] with
  | kept same => exact .kept same
  | told envelope term prev prevTerm leaderCommit context entries received message accepted
      commit =>
    refine .told envelope term prev prevTerm leaderCommit context entries received message ?_
    exact commit.le.trans (max_le_max le_rfl (min_le_left _ _))
  | counted at_ positive holders known quorum credited =>
    refine .alone (quorum.trans (Finset.card_le_one_iff_subset_singleton.mpr
      ⟨s.core.config.localId, fun n hn => Finset.mem_singleton.mpr ?_⟩))
    refine (credited n hn).resolve_right ?_
    rintro ⟨envelope, matchIndex, conflict, context, heard, -⟩
    simp at heard

theorem FollowUp.sources {history : List (Record C)} {s s' : Ctx C}
    (quoting : Quoting history c event s) (hf : FollowUp ⟨c, event⟩ s s')
    (h : Sources c event s.core) : Sources c event s'.core := by
  have frame := hf.frame
  cases hf with
  | committed commit may noPersist quorum fresh held term leading
  | commitStuck commit may noPersist quorum fresh held term leading =>
    rcases leading with leader | durable
    · exact .led leader
    rcases quoting.proposed durable with leader | none
    · exact .led leader
    obtain ⟨holders, -, many, held⟩ := quorumCommit_holders quoting.wf quorum (.inr none)
    refine .alone (many.trans (Finset.card_le_one_iff_subset_singleton.mpr
      ⟨s.core.config.localId, fun n hn => Finset.mem_singleton.mpr ?_⟩))
    refine (held n hn).resolve_right ?_
    rintro ⟨p, found, -⟩
    simp [none] at found
  | readStarted readId rest =>
    obtain ⟨round, hr⟩ :=
      Ctx.roundStarted_core ⟨{ s.core with pendingReads := rest }, s.effects⟩ readId
    exact h.keep frame.role frame.config (by rw [hr])
  | _ => exact h.keep frame.role frame.config rfl

theorem sources_law [Sha256] : StepLaw (Snapshotless : Condition C) Quoted Quoting
    (fun _ c event s => Sources c event s.core) where
  act hs h act _ := act.sources h.bare
  followUp quoting h hf := hf.sources quoting h
  finished := by
    intro history c event s h
    obtain ⟨proposals, hp⟩ := s.finished_core c
    exact h.keep (by rw [hp]) (by rw [hp]) (by rw [hp])
  closed := by
    rintro history c event s _ effects h ⟨_, _, _, _, _, _, _, _, rfl⟩ -
    exact h.keep rfl rfl rfl
  idle _ _ _ := .kept rfl

theorem Trace.sources [Sha256] {config : Config} {history : List (Record C)}
    (run : Trace (RaftCore.new config .initial) history c) (plain : Holds Snapshotless history) :
    ∀ r ∈ history, Sources r.before r.event r.after := by
  intro r hr
  have law := (Trace.invariant (quoting_keeps.law sources_law) (fun _ _ _ h => h.1)
    (RaftCore.new_wf config _) ⟨RaftCore.new_quoted config, trivial⟩ run plain).1.2
  obtain ⟨later, earlier, -, sources⟩ := law.of_mem hr
  exact sources

section Cluster

variable [Sha256] {config : NodeId → Config} {members : List NodeId}
  {history : List (NodeId × Record C)} {cores : NodeId → RaftCore C}

/-- A commit index is backed by a leader that had committed as much, unless there is only one
member. -/
theorem Cluster.backed (h : Cluster config members history cores) :
    ∀ p ∈ history, p.2.after.log.committed = 0 ∨ members.toFinset.card ≤ 1 ∨
      ∃ q ∈ history, q.2.after.role = .leader ∧
        p.2.after.log.committed ≤ q.2.after.log.committed := by
  obtain ⟨run, common, unbuilt, room⟩ := h
  induction run with
  | start => simp
  | @step history cores n c' event result earlier local_ allowed delivered run returns ih =>
    have grows : history ⊆ (n, ⟨cores n, event, result, c'⟩) :: history :=
      List.subset_cons_self _ _
    have now : Cluster config members _ _ :=
      ⟨.step earlier local_ allowed delivered run returns, common, unbuilt, room⟩
    have cluster := now.earlier earlier grows
    have backed := ih cluster.unbuilt cluster.room
    have mono : ∀ k, (k = 0 ∨ members.toFinset.card ≤ 1 ∨ ∃ q ∈ history,
        q.2.after.role = .leader ∧ k ≤ q.2.after.log.committed) →
        k = 0 ∨ members.toFinset.card ≤ 1 ∨ ∃ q ∈ (n, ⟨cores n, event, result, c'⟩) :: history,
          q.2.after.role = .leader ∧ k ≤ q.2.after.log.committed :=
      fun k is => is.imp_right (.imp_right fun ⟨q, hq, more⟩ => ⟨q, grows hq, more⟩)
    have before := mono (cores n).log.committed (by
      rcases earlier.core_cases n with first | ⟨r, hr, is⟩
      · exact .inl (by rw [first]; rfl)
      · rw [← is]
        exact backed _ hr)
    refine List.forall_mem_cons.mpr ⟨?_, fun p hp => mono _ (backed p hp)⟩
    have hr : (⟨cores n, event, result, c'⟩ : Record C) ∈ localHistory
        ((n, ⟨cores n, event, result, c'⟩) :: history) n :=
      mem_localHistory.mpr (List.mem_cons_self ..)
    -- where the commit index of the step comes from
    cases (now.run.trace n).sources (now.run.snapshotless unbuilt room n) _ hr with
    | kept same => exact same ▸ before
    | told envelope term prev prevTerm leaderCommit context entries received message le =>
      have received : event = .messageReceived envelope := received
      subst received
      obtain ⟨-, s, hs, sends⟩ := delivered
      have faithful := cluster.faithful hs
      rw [message] at sends
      obtain ⟨leader, -⟩ := faithful.speaks _ _ term sends rfl
      obtain ⟨-, -, -, known⟩ := faithful.quotes _ _ sends
      by_cases own : leaderCommit ≤ (cores n).log.committed
      · have le := le.trans_eq (max_eq_left own)
        refine before.imp (fun zero => ?_) (.imp_right fun ⟨q, hq, role, reached⟩ =>
          ⟨q, hq, role, le.trans reached⟩)
        exact Nat.eq_zero_of_le_zero (le.trans_eq zero)
      · have le := le.trans_eq (max_eq_right (Nat.le_of_not_le own))
        exact .inr (.inr ⟨_, grows hs, leader, le.trans known⟩)
    | led leader => exact .inr (.inr ⟨_, List.mem_cons_self .., leader, le_rfl⟩)
    | alone single =>
      refine .inr (.inl ?_)
      rw [((now.ledger n).states _ hr).config, (config n).quorum_eq, common] at single
      have := List.toFinset_card_le members
      omega

/-! ## Rounds -/

theorem Run.suffix {init : NodeId → RaftCore C} {later earlier : List (NodeId × Record C)}
    (run : Run init (later ++ earlier) cores) : ∃ cores', Run init earlier cores' := by
  induction later generalizing cores with
  | nil => exact ⟨cores, run⟩
  | cons p later ih =>
    cases run with
    | step before => exact ih before

/-- A prefix of a run is a run of the cluster. -/
theorem Cluster.suffix {later earlier : List (NodeId × Record C)}
    (h : Cluster config members (later ++ earlier) cores) :
    ∃ cores', Cluster config members earlier cores' := by
  obtain ⟨cores', run⟩ := h.run.suffix
  exact ⟨cores', h.earlier run (List.subset_append_right _ _)⟩

theorem Cluster.answersReads (h : Cluster config members history cores) (node : NodeId) :
    Meets AnswersReads (localHistory history node) :=
  (h.run.trace node).answersReads (h.run.snapshotless h.unbuilt h.room node)

theorem Cluster.serves (h : Cluster config members history cores) {node : NodeId} {r : Record C}
    (hr : (node, r) ∈ history) : ∃ steps, AnswersReads steps r := by
  obtain ⟨-, steps, -, serves⟩ := (h.answersReads node).of_mem (mem_localHistory.mpr hr)
  exact ⟨steps, serves⟩

theorem Cluster.climbs (h : Cluster config members history cores) {node : NodeId} {r : Record C}
    (hr : (node, r) ∈ history) : Climbs r.before r.after := by
  obtain ⟨steps, serves⟩ := h.serves hr
  exact serves.climbs

theorem Cluster.climbing (h : Cluster config members history cores) (node : NodeId) :
    (localHistory history node).Pairwise fun later earlier => Climbs earlier.after later.before :=
  ((h.run.trace node).climbs fun _ hr => h.climbs (mem_localHistory.mp hr)).1

/-- A node that takes a step is a member. -/
theorem Cluster.known (h : Cluster config members history cores) {node : NodeId} {r : Record C}
    (hr : (node, r) ∈ history) : node ∈ members.toFinset := by
  have localId : (config node).localId = node := h.run.localId hr
  have mem := (config node).local_mem
  rw [localId, h.common] at mem
  exact List.mem_toFinset.mpr mem

/-- What the node did before a step of its own. -/
theorem Cluster.climbs_to {later earlier : List (NodeId × Record C)} {node : NodeId}
    {q r : Record C} (h : Cluster config members (later ++ (node, q) :: earlier) cores)
    (hr : (node, r) ∈ earlier) : Climbs r.after q.before := by
  have pairs := h.climbing node
  rw [localHistory_append, localHistory_cons_self] at pairs
  exact (List.pairwise_cons.mp (List.pairwise_append.mp pairs).2.1).1 r (mem_localHistory.mpr hr)

/-- A counter of a node names one step. -/
theorem Cluster.opened_unique (h : Cluster config members history cores) {node : NodeId}
    {r r' : Record C} (hr : (node, r) ∈ history) (hr' : (node, r') ∈ history)
    {counter noop noop' : Nat} (opened : Opened r.before r.after counter noop)
    (opened' : Opened r'.before r'.after counter noop') : r = r' := by
  have fresh := opened.fresh
  have used := opened.used
  have fresh' := opened'.fresh
  have used' := opened'.used
  rcases pairwise_cases (h.climbing node) (mem_localHistory.mpr hr) (mem_localHistory.mpr hr') with
    same | after | before
  · exact same
  · have := after.counter
    omega
  · have := before.counter
    omega

/-- Whoever sent back the context of a round accepted an append of its term that the step which
started the round had sent. -/
theorem Cluster.echoed (h : Cluster config members history cores) {node v : NodeId}
    {origin : Record C} (ho : (node, origin) ∈ history) {counter noop : Nat}
    (opened : Opened origin.before origin.after counter noop)
    (echoed : Echoed (localHistory history node) v
      (roundContext origin.after.hardState.currentTerm counter)) :
    ∃ r envelope, (v, r) ∈ history ∧ r.event = .messageReceived envelope ∧
      r.after.hardState.currentTerm = origin.after.hardState.currentTerm ∧
      envelope.from_ = node ∧ ∀ o, (node, o) ∈ history →
        .sendMessage envelope.to_ envelope.message ∈ o.effects → o = origin := by
  obtain ⟨s, hs, envelope, m, conflict, received, rfl, message, leader⟩ := echoed
  have hs := mem_localHistory.mp hs
  obtain ⟨-, t, ht, sends⟩ := h.run.sent hs received
  rw [message] at sends
  obtain ⟨r, hr, accepted⟩ :=
    (h.accounts envelope.from_).sent t (mem_localHistory.mpr ht) _ _ _ _ _ sends
  have hr := mem_localHistory.mp hr
  obtain ⟨append, prev, prevTerm, leaderCommit, entries, log, appended, heard, said, -, current, -⟩ :=
    accepted
  obtain ⟨-, o, hO, brings⟩ := h.run.sent hr heard
  rw [said] at brings
  have faithful := h.faithful hO
  obtain ⟨-, inTerm, won⟩ := faithful.speaks _ _ _ brings rfl
  -- the leader that counted the response leads the term of the append
  have same : append.from_ = node :=
    h.winner_unique won (((h.ledger node).states s (mem_localHistory.mpr hs)).leads leader)
  have only : ∀ o, (node, o) ∈ history →
      .sendMessage append.to_ append.message ∈ o.effects → o = origin := by
    intro o ho' sent
    rw [said] at sent
    obtain ⟨steps, serves⟩ := h.serves ho'
    obtain ⟨counter', noop', opened', is⟩ := serves.asks _ _ _ _ _ _ _ sent
    obtain rfl := roundContext_counter opened.bound opened'.bound is
    exact h.opened_unique ho' ho opened' opened
  rw [same] at hO
  refine ⟨r, append, hr, heard, ?_, same, only⟩
  rw [current, ← inTerm, only o hO (said ▸ brings)]

variable {later earlier : List (NodeId × Record C)} {node : NodeId} {q origin : Record C}
  {counter noop floor : Nat}

/-- Nobody led a later term before the round when a quorum sent back its context. -/
theorem Cluster.no_later_leader (h : Cluster config members (later ++ (node, q) :: earlier) cores)
    (ho : (node, origin) ∈ later ++ (node, q) :: earlier)
    (opened : Opened origin.before origin.after counter noop)
    (fresh : q.before.nextReadContext < counter)
    (inTerm : q.before.hardState.currentTerm ≤ origin.after.hardState.currentTerm)
    {granted : Finset NodeId} (known : granted ⊆ members.toFinset)
    (many : members.toFinset.card / 2 + 1 ≤ granted.card)
    (echoed : ∀ v ∈ granted, v = node ∨ Echoed (localHistory (later ++ (node, q) :: earlier) node) v
      (roundContext origin.after.hardState.currentTerm counter))
    {p : NodeId × Record C} (hp : p ∈ earlier) (leader : p.2.after.role = .leader) :
    p.2.after.hardState.currentTerm ≤ origin.after.hardState.currentTerm := by
  obtain ⟨n, p⟩ := p
  by_contra newer
  have newer : origin.after.hardState.currentTerm < p.after.hardState.currentTerm :=
    Nat.not_le.mp newer
  have split : later ++ (node, q) :: earlier = (later ++ [(node, q)]) ++ earlier := by simp
  obtain ⟨cores', before⟩ := Cluster.suffix (split ▸ h)
  have won := ((before.ledger n).states p (mem_localHistory.mpr hp)).leads leader
  have elected := won.won before.run before.ledger
  rw [h.common] at elected
  obtain ⟨voters, knownVoters, manyVoters, voted⟩ := elected
  -- a member that sent the context back and also voted for the later leader
  obtain ⟨v, hv⟩ := Finset.inter_nonempty_of_card_lt_card_add_card known knownVoters
    (show members.toFinset.card < granted.card + voters.card by omega)
  obtain ⟨confirmed, voter⟩ := Finset.mem_inter.mp hv
  obtain ⟨s, hs, term, -⟩ := voted v voter
  have hs := mem_localHistory.mp hs
  rcases echoed v confirmed with rfl | echoed
  · have := (h.climbs_to hs).hardState.1
    omega
  obtain ⟨r, envelope, hr, heard, current, rfl, only⟩ := h.echoed ho opened echoed
  -- it cannot accept the heartbeat after its vote, which is of a later term
  have old : (v, r) ∈ earlier := by
    have chain := (h.ledger v).chain
    rw [split] at hr chain
    refine (localHistory_cases chain hr hs).resolve_right fun after => ?_
    have := after.1
    omega
  obtain ⟨-, o, hO, sends⟩ := before.run.sent old heard
  -- so the round had been started before: its counter was used up by then
  obtain rfl := only o (by rw [split]; exact List.mem_append_right _ hO) sends
  have := (h.climbs_to hO).counter
  have := opened.used
  omega

/-- A leader of an earlier term had not committed as far as the no-op of the round. -/
theorem Cluster.older_leader (h : Cluster config members history cores)
    (whole : ∀ p ∈ history, ProvesWhole p.2.before p.2.event)
    (ho : (node, origin) ∈ history)
    (held : TermAt Entry.term origin.after.log.entries noop origin.after.hardState.currentTerm)
    (committed : noop ≤ origin.after.log.committed) {p : NodeId × Record C} (hp : p ∈ history)
    (older : p.2.after.hardState.currentTerm < origin.after.hardState.currentTerm) :
    p.2.after.log.committed < noop := by
  by_contra reaches
  have reaches := Nat.not_lt.mp reaches
  have secured := h.secured whole p hp
  have securedO : Secured members history origin.after := h.secured whole _ ho
  rcases held with ⟨rfl, zero⟩ | ⟨e, pos, found, term⟩
  · omega
  have inside := secured.le
  have insideO := securedO.le
  obtain ⟨t, K, chosen, pre⟩ := secured.chosen.resolve_left (by omega)
  obtain ⟨t', K', chosen', pre'⟩ := securedO.chosen.resolve_left (by omega)
  -- both committed the same entry there
  have foundK' : K'[noop - 1]? = some e := by
    rw [← getElem?_of_initial pre' (by rw [List.length_take]; omega),
      List.getElem?_take_of_lt (by omega)]
    exact found
  have short : noop - 1 < (p.2.after.log.entries.take p.2.after.log.committed).length := by
    rw [List.length_take]
    omega
  have foundK := getElem?_of_initial pre short
  have same : K[noop - 1]? = K'[noop - 1]? := by
    have long := (List.getElem?_eq_some_iff.mp foundK').1
    have longK := lt_of_lt_of_le short pre.length_le
    rcases h.chosen_comparable chosen chosen' with first | first
    · exact getElem?_of_initial first longK
    · exact (getElem?_of_initial first long).symm
  rw [same, foundK', List.getElem?_take_of_lt (by omega)] at foundK
  have le := h.term_le p hp e (List.mem_of_getElem? foundK)
  omega

/-- The index of a round covers every commit before a step of the leader in which the round was
still to come. -/
theorem Cluster.floor_covers (h : Cluster config members (later ++ (node, q) :: earlier) cores)
    (whole : ∀ p ∈ later ++ (node, q) :: earlier, ProvesWhole p.2.before p.2.event)
    {steps : List (Record C)} (sub : steps ⊆ localHistory (later ++ (node, q) :: earlier) node)
    {round : ReadRound} (confirms : Confirms steps (config node) round origin counter noop floor)
    (quorum : round.hasQuorum = true) (fresh : q.before.nextReadContext < counter)
    (inTerm : q.before.hardState.currentTerm ≤ origin.after.hardState.currentTerm)
    (bound : q.before.hardState.commitIndex ≤ floor) :
    ∀ p ∈ earlier, p.2.after.hardState.commitIndex ≤ floor := by
  intro p hp
  have old : earlier ⊆ later ++ (node, q) :: earlier :=
    List.subset_append_of_subset_right _ (List.subset_cons_self _ _)
  obtain ⟨cores', before⟩ := Cluster.suffix
    (show Cluster config members ((later ++ [(node, q)]) ++ earlier) cores by simpa using h)
  have ho := mem_localHistory.mp (sub confirms.started)
  have localId : (config node).localId = node := h.run.localId ho
  have own : ∀ r, (node, r) ∈ earlier → r.after.hardState.commitIndex ≤ floor :=
    fun r hr => (h.climbs_to hr).hardState.2.2.trans bound
  have synced : ∀ p ∈ earlier, p.2.after.log.committed = p.2.after.hardState.commitIndex := by
    intro p hp
    obtain ⟨steps, serves⟩ := h.serves (old hp)
    exact serves.committed
  rw [← synced p hp]
  rcases before.backed p hp with zero | single | ⟨⟨n, r⟩, hr, leader, reached⟩
  · omega
  · obtain ⟨n, r⟩ := p
    obtain rfl : n = node := Finset.card_le_one.mp single n (h.known (old hp)) node (h.known ho)
    exact (synced _ hp).le.trans (own r hp)
  -- a leader had committed as much, of the term of the round or of an earlier one
  refine reached.trans ?_
  have members_eq : round.acknowledgments.members = members.toFinset := by
    rw [confirms.members, h.common]
  have le := h.no_later_leader ho confirms.opened fresh inTerm
    (members_eq ▸ confirms.granted_subset) (by
      have := quorum
      simpa [ReadRound.hasQuorum, QuorumTracker.hasQuorum, QuorumTracker.quorum, members_eq]
        using quorum) (fun v hv => by
      rw [← confirms.context]
      exact (confirms.echoed v hv).imp (·.trans localId) fun echoed =>
        echoed.mono (.of_subset sub)) hr leader
  rcases Nat.lt_or_eq_of_le le with older | same
  · have := h.older_leader whole ho confirms.opened.held
      (confirms.noop_le.trans confirms.known) (old hr) older
    exact (this.le).trans confirms.noop_le
  · have wonR := ((h.ledger n).states r (mem_localHistory.mpr (old hr))).leads leader
    have wonO := ((h.ledger node).states origin (mem_localHistory.mpr ho)).leads
      confirms.opened.leader
    have same : r.after.hardState.currentTerm = origin.after.hardState.currentTerm := same
    rw [same] at wonR
    obtain rfl := h.winner_unique wonR wonO
    exact (synced _ hr).le.trans (own r hr)

end Cluster

/-! ## Reads -/

/-- The first step of the cluster comes before the second one. -/
def Precedes (history : List (NodeId × Record C)) (a b : NodeId × Record C) : Prop :=
  ∃ later earlier, history = later ++ b :: earlier ∧ a ∈ earlier

/-- The index covers every commit of the cluster before the step. -/
def Covers (history : List (NodeId × Record C)) (p : NodeId × Record C) (index : Nat) : Prop :=
  ∀ a, Precedes history a p → a.2.after.hardState.commitIndex ≤ index

/-- The step started the round of the context. -/
def Record.StartsRound (r : Record C) (context : Bytes) : Prop :=
  ∃ counter, r.before.nextReadContext < counter ∧ counter ≤ r.after.nextReadContext ∧
    context = roundContext r.after.hardState.currentTerm counter

/-- The index covers every commit before the node was asked for the read, or, when the read joined
a round in flight, before the round was started. -/
def ReadCovers (history : List (NodeId × Record C)) (node : NodeId) (readId : ReadId)
    (index : Nat) : Prop :=
  ∃ q context, (node, q) ∈ history ∧ q.event = .read readId context ∧
    (Covers history (node, q) index ∨ ∃ round o, q.before.readRound = some round ∧
      o.StartsRound round.context ∧ Precedes history (node, o) (node, q) ∧
      Covers history (node, o) index)

/-- No read joins a round in flight. -/
def ReadsApart (c : RaftCore C) (event : Event C) : Prop :=
  ∀ readId context round, event = .read readId context → ¬ c.Joins round

section Cluster

variable [Sha256] {config : NodeId → Config} {members : List NodeId}
  {history : List (NodeId × Record C)} {cores : NodeId → RaftCore C}

/-- A step that used up a counter comes before one that found it used. -/
theorem Cluster.precedes (h : Cluster config members history cores) {node : NodeId}
    {o q : Record C} (ho : (node, o) ∈ history) (hq : (node, q) ∈ history) {counter : Nat}
    (fresh : o.before.nextReadContext < counter) (used : counter ≤ q.before.nextReadContext) :
    Precedes history (node, o) (node, q) := by
  obtain ⟨later, earlier, rfl⟩ := List.append_of_mem hq
  refine ⟨later, earlier, rfl, ?_⟩
  have pairs := h.climbing node
  rw [localHistory_append, localHistory_cons_self] at pairs
  rcases List.mem_append.mp ho with after | now
  · have climbs := (List.pairwise_append.mp pairs).2.2 o (mem_localHistory.mpr after) q
      (List.mem_cons_self ..)
    have := climbs.counter
    have := (h.climbs hq).counter
    omega
  · refine (List.mem_cons.mp now).resolve_left fun same => ?_
    obtain rfl := (Prod.mk.inj same).2
    omega

/-- The index of a confirmed round covers every commit before a step that asked for the read, or
before the one that started the round the read joined. -/
theorem Cluster.confirmed_covers (h : Cluster config members history cores)
    (whole : ∀ p ∈ history, ProvesWhole p.2.before p.2.event) {node : NodeId} {readId : ReadId}
    {index : Nat} (confirmed : Confirmed (localHistory history node) (config node) readId index) :
    ∃ q context, (node, q) ∈ history ∧ q.event = .read readId context ∧
      q.before.role = .leader ∧ (Covers history (node, q) index ∨
        ∃ round o, q.before.Joins round ∧ o.StartsRound round.context ∧
          Precedes history (node, o) (node, q) ∧ Covers history (node, o) index) := by
  obtain ⟨round, origin, counter, noop, floor, confirms, requested, safe⟩ := confirmed
  obtain ⟨le, quorum⟩ := confirms.safe index safe
  have ho := mem_localHistory.mp confirms.started
  have covers : ∀ q : Record C, q.before.nextReadContext < counter →
      q.before.hardState.currentTerm ≤ origin.after.hardState.currentTerm →
      q.before.hardState.commitIndex ≤ floor → Covers history (node, q) index := by
    rintro q fresh inTerm bound a ⟨later, earlier, rfl, before⟩
    exact (h.floor_covers whole (List.Subset.refl _) confirms quorum fresh inTerm bound a
      before).trans le
  -- the read opened the round or joined it in flight
  rcases confirms.asked readId requested with
    ⟨q, hq, ⟨context, is⟩, leader, fresh, inTerm, bound⟩ |
    ⟨q, hq, ⟨context, is⟩, ⟨joined, joins, same⟩, used⟩
  · exact ⟨q, context, mem_localHistory.mp hq, is, leader, .inl (covers q fresh inTerm bound)⟩
  · have hq := mem_localHistory.mp hq
    refine ⟨q, context, hq, is, joins.leader, .inr ⟨joined, origin, joins, ?_, ?_, ?_⟩⟩
    · exact ⟨counter, confirms.opened.fresh, confirms.opened.used, same.trans confirms.context⟩
    · exact h.precedes ho hq confirms.opened.fresh used
    · exact covers origin confirms.opened.fresh (h.climbs ho).hardState.1 confirms.since

/-- A read is answered with an applied index and out of a round that a quorum confirmed. -/
theorem Cluster.confirmed {p : NodeId × Record C} (h : Cluster config members (p :: history) cores)
    {readId : ReadId} {index : Nat} (answered : .readReady readId index ∈ p.2.effects) :
    index ≤ p.2.after.appliedIndex ∧
      Confirmed (localHistory (p :: history) p.1) (config p.1) readId index := by
  obtain ⟨node, r⟩ := p
  have serves := h.answersReads node
  have sworn := ((h.ledger node).states _ (mem_localHistory.mpr (List.mem_cons_self ..))).config
  rw [localHistory_cons_self] at serves ⊢
  obtain ⟨confirmed, applied⟩ := serves.1.answers readId index answered
  exact ⟨applied, sworn ▸ confirmed⟩

/-- What holds of the last step of every cluster holds of every step of a cluster. -/
theorem Cluster.meets {law : List (NodeId × Record C) → NodeId × Record C → Prop}
    (h : Cluster config members history cores)
    (last : ∀ later p earlier cores', history = later ++ p :: earlier →
      Cluster config members (p :: earlier) cores' → law earlier p) : Meets law history := by
  induction history generalizing cores with
  | nil => trivial
  | cons p earlier ih =>
    refine ⟨last [] p earlier cores rfl h, ?_⟩
    obtain ⟨cores', before⟩ :=
      Cluster.suffix (show Cluster config members ([p] ++ earlier) cores from h)
    exact ih before fun later q rest cores' split now =>
      last (p :: later) q rest cores' (by rw [split, List.cons_append]) now

end Cluster

/-- A read is answered with an applied index that covers every commit before the read, or before
the round that it joined, when every append that is accepted proves the whole log. -/
theorem reads_cover_commits [Sha256] (config : NodeId → Config) (members : List NodeId)
    (common : ∀ node, (config node).members = members) {history : List (NodeId × Record C)}
    {cores : NodeId → RaftCore C}
    (run : Run (fun node => RaftCore.new (config node) .initial) history cores)
    (unbuilt : NeverBuilt history) (room : ∀ p ∈ history, Room p.2.before)
    (whole : ∀ p ∈ history, ProvesWhole p.2.before p.2.event) :
    Meets (fun earlier p => ∀ readId index, .readReady readId index ∈ p.2.effects →
      index ≤ p.2.after.appliedIndex ∧ ReadCovers (p :: earlier) p.1 readId index) history := by
  have cluster : Cluster config members history cores := ⟨run, common, unbuilt, room⟩
  refine cluster.meets fun later p earlier cores' split now readId index answered => ?_
  obtain ⟨applied, confirmed⟩ := now.confirmed answered
  have old : p :: earlier ⊆ history := split ▸ List.subset_append_right _ _
  obtain ⟨q, context, hq, is, -, covers⟩ :=
    now.confirmed_covers (fun a ha => whole a (old ha)) confirmed
  refine ⟨applied, q, context, hq, is, covers.imp_right ?_⟩
  rintro ⟨round, o, joins, started, precedes, since⟩
  exact ⟨round, o, joins.found, started, precedes, since⟩

/-- A read is answered with an applied index that covers every commit before a leader was asked
for it, when no read joins a round in flight and every append that is accepted proves the whole
log. -/
theorem reads_linearizable [Sha256] (config : NodeId → Config) (members : List NodeId)
    (common : ∀ node, (config node).members = members) {history : List (NodeId × Record C)}
    {cores : NodeId → RaftCore C}
    (run : Run (fun node => RaftCore.new (config node) .initial) history cores)
    (unbuilt : NeverBuilt history) (room : ∀ p ∈ history, Room p.2.before)
    (whole : ∀ p ∈ history, ProvesWhole p.2.before p.2.event)
    (apart : ∀ p ∈ history, ReadsApart p.2.before p.2.event) :
    Meets (fun earlier p => ∀ readId index, .readReady readId index ∈ p.2.effects →
      index ≤ p.2.after.appliedIndex ∧ ∃ q context, (p.1, q) ∈ p :: earlier ∧
        q.event = .read readId context ∧ q.before.role = .leader ∧
        Covers (p :: earlier) (p.1, q) index) history := by
  have cluster : Cluster config members history cores := ⟨run, common, unbuilt, room⟩
  refine cluster.meets fun later p earlier cores' split now readId index answered => ?_
  obtain ⟨applied, confirmed⟩ := now.confirmed answered
  have old : p :: earlier ⊆ history := split ▸ List.subset_append_right _ _
  obtain ⟨q, context, hq, is, leader, covers⟩ :=
    now.confirmed_covers (fun a ha => whole a (old ha)) confirmed
  refine ⟨applied, q, context, hq, is, leader, covers.resolve_right ?_⟩
  rintro ⟨round, -, joins, -⟩
  exact apart _ (old hq) readId context round is joins

/-! ## Runs of three nodes -/

def Record.answersRead (r : Record C) (readId : ReadId) (index : Nat) : Bool :=
  r.effects.any fun
    | .readReady id i => id = readId && i = index
    | _ => false

theorem Record.mem_of_answersRead {r : Record C} {readId : ReadId} {index : Nat}
    (h : r.answersRead readId index = true) : .readReady readId index ∈ r.effects := by
  obtain ⟨e, he, is⟩ := List.any_eq_true.mp h
  cases e <;> simp only [Bool.false_eq_true, Bool.and_eq_true, decide_eq_true_eq] at is
  obtain ⟨rfl, rfl⟩ := is
  exact he

/-- Node 1 has committed two entries and is asked for read 5. The heartbeat of the round is message
18, and message 20 is the acknowledgement of node 2. -/
def askAfterCommit : List (Move Nat) := Script.commitTwo ++
  [.event 1 (.read 5 []), Script.applied 2 4 1, Script.deliver 18, Script.persisted 2 5]

/-- Node 1 answers the read with index 2. -/
theorem reads_cover_commits_asked : ∃ w : World Nat,
    @Run Nat sha256Empty trio w.history (w.core trio) ∧
    (∃ p ∈ w.history, p.1 = 1 ∧ .readReady 5 2 ∈ p.2.effects) ∧
    Meets (fun earlier p => ∀ readId index, .readReady readId index ∈ p.2.effects →
      index ≤ p.2.after.appliedIndex ∧ ReadCovers (p :: earlier) p.1 readId index) w.history := by
  let _ : Sha256 := sha256Empty
  obtain ⟨w, run, checked⟩ := World.exec_any trio (askAfterCommit ++ [Script.deliver 20])
    (fun w => (w.history.any fun p => (p.1 = 1) && p.2.answersRead 5 2) &&
      ((w.history.all fun p => !p.2.built) && (w.history.all fun p => Room p.2.before) &&
        w.history.all fun p => provesWholeCheck p.2))
    (by decide +kernel)
  simp only [Bool.and_eq_true, List.any_eq_true, decide_eq_true_eq] at checked
  obtain ⟨⟨p, hp, one, answers⟩, ⟨plain, room⟩, whole⟩ := checked
  refine ⟨w, run, ⟨p, hp, one, Record.mem_of_answersRead answers⟩, ?_⟩
  exact reads_cover_commits trioConfigs [1, 2, 3] trioConfigs_members run (neverBuilt_of_check plain)
    (fun p hp => of_decide_eq_true (List.all_eq_true.mp room p hp))
    fun p hp => provesWhole_of_check (List.all_eq_true.mp whole p hp)

/-- The answer leaves node 1 without a round. It commits index 3 with node 2 and is asked for
read 7, which a round of its own confirms. -/
def askTwice : List (Move Nat) := askAfterCommit ++
  [Script.deliver 20, Script.propose 1 2 8, Script.persisted 1 8, Script.applied 2 6 2,
    Script.deliver 22, Script.persisted 2 7, Script.deliver 23, Script.persisted 1 9,
    .event 1 (.read 7 []), Script.deliver 25, Script.persisted 2 8, Script.deliver 27,
    Script.applied 1 10 3]

/-- A check that no read joins a round. -/
def readsApartCheck (c : RaftCore C) : Event C → Bool
  | .read _ _ => c.readRound.all fun round => !(c.role = .leader && c.currentLeaderNoopIsCommitted &&
      decide (c.pendingReads.length + round.requests.length < c.config.maxPendingReads))
  | _ => true

theorem readsApart_of_check (h : readsApartCheck c event = true) : ReadsApart c event := by
  rintro readId context round rfl ⟨leader, noop, found, space⟩
  simp [readsApartCheck, found, leader, noop, space] at h

/-- Node 1 answers the first read with index 2 and the second one with index 3. -/
theorem reads_linearizable_twice : ∃ w : World Nat,
    @Run Nat sha256Empty trio w.history (w.core trio) ∧
    (∃ p ∈ w.history, p.1 = 1 ∧ .readReady 5 2 ∈ p.2.effects) ∧
    (∃ p ∈ w.history, p.1 = 1 ∧ .readReady 7 3 ∈ p.2.effects) ∧
    Meets (fun earlier p => ∀ readId index, .readReady readId index ∈ p.2.effects →
      index ≤ p.2.after.appliedIndex ∧ ∃ q context, (p.1, q) ∈ p :: earlier ∧
        q.event = .read readId context ∧ q.before.role = .leader ∧
        Covers (p :: earlier) (p.1, q) index) w.history := by
  let _ : Sha256 := sha256Empty
  obtain ⟨w, run, checked⟩ := World.exec_any trio askTwice
    (fun w => (w.history.any fun p => (p.1 = 1) && p.2.answersRead 5 2) &&
      (w.history.any fun p => (p.1 = 1) && p.2.answersRead 7 3) &&
      ((w.history.all fun p => !p.2.built) && (w.history.all fun p => Room p.2.before) &&
        (w.history.all fun p => provesWholeCheck p.2) &&
        w.history.all fun p => readsApartCheck p.2.before p.2.event))
    (by decide +kernel)
  simp only [Bool.and_eq_true, List.any_eq_true, decide_eq_true_eq] at checked
  obtain ⟨⟨⟨p, hp, one, first⟩, q, hq, one', second⟩, ⟨⟨plain, room⟩, whole⟩, apart⟩ := checked
  refine ⟨w, run, ⟨p, hp, one, Record.mem_of_answersRead first⟩,
    ⟨q, hq, one', Record.mem_of_answersRead second⟩, ?_⟩
  exact reads_linearizable trioConfigs [1, 2, 3] trioConfigs_members run (neverBuilt_of_check plain)
    (fun p hp => of_decide_eq_true (List.all_eq_true.mp room p hp))
    (fun p hp => provesWhole_of_check (List.all_eq_true.mp whole p hp))
    fun p hp => readsApart_of_check (List.all_eq_true.mp apart p hp)

/-- Before the acknowledgement arrives, node 2 wins term 2 with the vote of node 3 and commits its
no-op at index 3. Node 1 is then asked for read 6, which joins the round. -/
def joinStaleRound : List (Move Nat) := askAfterCommit ++
  [Script.applied 3 3 1, Script.applied 2 6 2, Script.elect 2, Script.deliver 22, Script.deliver 23,
    Script.persisted 2 7, Script.deliver 25, Script.persisted 3 4, Script.deliver 26,
    Script.persisted 2 8, Script.deliver 28, Script.deliver 29, Script.deliver 30,
    Script.persisted 3 5, Script.deliver 31, Script.deliver 32, Script.applied 3 6 2,
    Script.persisted 3 7, Script.deliver 33, Script.persisted 2 9, .event 1 (.read 6 []),
    Script.deliver 20]

def Record.asksRead (r : Record C) (readId : ReadId) : Bool :=
  match r.event with
  | .read id _ => id = readId
  | _ => false

/-- Read 6 is answered with index 2 although index 3 was committed before the node was asked. -/
theorem joined_read_stale : ∃ (history : List (NodeId × Record Nat)) (cores : NodeId → RaftCore Nat),
    @Run Nat sha256Empty trio history cores ∧ NeverBuilt history ∧
    (∀ p ∈ history, ProvesWhole p.2.before p.2.event) ∧
    ∃ p ∈ history, p.1 = 1 ∧ .readReady 6 2 ∈ p.2.effects ∧ ∀ q context, (1, q) ∈ history →
      q.event = .read 6 context → ¬ Covers history (1, q) 2 := by
  let _ : Sha256 := sha256Empty
  obtain ⟨w, run, checked⟩ := World.exec_any trio joinStaleRound
    (fun w => (w.history.any fun p => (p.1 = 1) && p.2.answersRead 6 2) &&
      (Meets.check (fun earlier p => !p.2.asksRead 6 ||
        earlier.any fun a => a.2.after.hardState.commitIndex = 3) w.history &&
      ((w.history.all fun p => !p.2.built) && w.history.all fun p => provesWholeCheck p.2)))
    (by decide +kernel)
  simp only [Bool.and_eq_true, List.any_eq_true, decide_eq_true_eq] at checked
  obtain ⟨⟨p, hp, one, answers⟩, late, plain, whole⟩ := checked
  have late : Meets (fun earlier p => p.2.asksRead 6 = true →
      ∃ a ∈ earlier, a.2.after.hardState.commitIndex = 3) w.history :=
    Meets.of_check (fun earlier p ok asks => by simpa [asks] using ok) late
  refine ⟨w.history, _, run, neverBuilt_of_check plain,
    fun p hp => provesWhole_of_check (List.all_eq_true.mp whole p hp), p, hp, one,
    Record.mem_of_answersRead answers, fun q context hq is covers => ?_⟩
  obtain ⟨later, earlier, split, found⟩ := late.of_mem hq
  obtain ⟨a, ha, commit⟩ := found (by simp [Record.asksRead, is])
  have := covers a ⟨later, earlier, split, ha⟩
  omega

end Ruft
