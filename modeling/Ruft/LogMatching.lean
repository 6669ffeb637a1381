import Ruft.Bare

set_option autoImplicit false

/-!
# Log matching

In a cluster that takes no snapshots every entry was copied from the log of the node that won
its term, and that log only grew. Two logs with one term at an index are therefore equal up to
the index.

## Main definitions

- `Cluster` — a run with one member set, without snapshots, in which no effect counter runs out
- `LeaderLog` — a log that the winner of a term had in it

## Main results

- `log_matching` — two logs with the same term at an index agree up to it
-/

namespace Ruft

open LeaderLogs

variable {C : Type} {config : NodeId → Config} {members : List NodeId}
  {history : List (NodeId × Record C)} {cores : NodeId → RaftCore C}

/-- No snapshot was ever built. -/
def NeverBuilt (history : List (NodeId × Record C)) : Prop :=
  ∀ p ∈ history, ∀ id metadata snapshotRef,
    p.2.event ≠ .effectCompleted id (.snapshotBuilt metadata snapshotRef)

/-- A run of nodes with one member set that start from nothing and take no snapshots. -/
structure Cluster [Sha256] (config : NodeId → Config) (members : List NodeId)
    (history : List (NodeId × Record C)) (cores : NodeId → RaftCore C) : Prop where
  run : Run (fun node => RaftCore.new (config node) .initial) history cores
  common : ∀ node, (config node).members = members
  unbuilt : NeverBuilt history
  room : ∀ p ∈ history, Room p.2.before

theorem localHistory_cons_self (node : NodeId) (r : Record C) :
    localHistory ((node, r) :: history) node = r :: localHistory history node := by
  simp [localHistory]

theorem localHistory_cons_of_ne {node n : NodeId} (h : n ≠ node) (r : Record C) :
    localHistory ((n, r) :: history) node = localHistory history node := by
  simp [localHistory, h]

theorem localHistory_append (later earlier : List (NodeId × Record C)) (node : NodeId) :
    localHistory (later ++ earlier) node =
      localHistory later node ++ localHistory earlier node := by
  simp [localHistory]

theorem localHistory_mono {history' : List (NodeId × Record C)} (grows : history ⊆ history')
    (node : NodeId) : localHistory history node ⊆ localHistory history' node := by
  intro r hr
  exact mem_localHistory.mpr (grows (mem_localHistory.mp hr))

theorem Quotes.bringsSnapshot {c : RaftCore C} {to_ : NodeId} {m : Message C} (h : Quotes c to_ m) :
    m.bringsSnapshot = false := by
  cases m with
  | appendEntries => rfl
  | _ => exact h

/-- No node sees a snapshot when none is built. -/
theorem Run.snapshotless [Sha256]
    (run : Run (fun node => RaftCore.new (config node) .initial) history cores)
    (unbuilt : NeverBuilt history) (room : ∀ p ∈ history, Room p.2.before) (node : NodeId) :
    Holds Snapshotless (localHistory history node) := by
  induction run generalizing node with
  | start => trivial
  | @step history cores n c' event result earlier local_ allowed delivered run returns ih =>
    obtain ⟨unbuiltNow, unbuilt⟩ := List.forall_mem_cons.mp unbuilt
    obtain ⟨roomNow, room⟩ := List.forall_mem_cons.mp room
    have plain := ih unbuilt room
    by_cases same : n = node
    · subst same
      rw [localHistory_cons_self]
      refine ⟨⟨roomNow, ?_⟩, plain n⟩
      cases event with
      | messageReceived envelope =>
        obtain ⟨-, r, hr, sends⟩ := delivered
        have faithful := (Trace.faithful (earlier.trace _) (plain envelope.from_)).1 r
          (mem_localHistory.mpr hr)
        exact (faithful.quotes _ _ sends).bringsSnapshot
      | effectCompleted id outcome =>
        cases outcome with
        | snapshotBuilt metadata snapshotRef => exact absurd rfl (unbuiltNow id metadata snapshotRef)
        | _ => rfl
      | _ => rfl
    · rw [localHistory_cons_of_ne same]
      exact plain node

/-! ## One core over time -/

/-- While a core hears no append of its term, its log only grows in the term. -/
theorem Trace.grows [Sha256] {init c : RaftCore C} {history all : List (Record C)}
    (run : Trace init history c) (faithful : ∀ r ∈ history, Faithful all r) {term : Nat}
    (untold : ∀ r ∈ history, ∀ envelope, r.event = .messageReceived envelope →
      envelope.message.leaderTerm ≠ some term) :
    (history.Pairwise fun later earlier => earlier.after.hardState.currentTerm = term →
      later.after.hardState.currentTerm = term →
      earlier.after.log.entries <+: later.after.log.entries) ∧
    ∀ r ∈ history, r.after.hardState.currentTerm ≤ c.hardState.currentTerm ∧
      (r.after.hardState.currentTerm = term → c.hardState.currentTerm = term →
        r.after.log.entries <+: c.log.entries) := by
  induction run with
  | start => exact ⟨.nil, by simp⟩
  | @step history c c' event result earlier allowed run returns ih =>
    obtain ⟨now, faithful⟩ := List.forall_mem_cons.mp faithful
    obtain ⟨untoldNow, untold⟩ := List.forall_mem_cons.mp untold
    obtain ⟨pairs, reached⟩ := ih faithful untold
    have le : c.hardState.currentTerm ≤ c'.hardState.currentTerm := now.le.1
    have grown : c'.hardState.currentTerm = term → c.log.entries <+: c'.log.entries := by
      intro current
      cases now.wrote with
      | kept same => exact same ▸ List.prefix_refl _
      | added entry is => exact is ▸ List.prefix_append _ _
      | merged envelope prev prevTerm leaderCommit context entries log appended received message =>
        have current : c'.hardState.currentTerm = term := current
        exact absurd (by rw [message, ← current]; rfl) (untoldNow envelope received)
    have later : ∀ r ∈ history, r.after.hardState.currentTerm = term →
        c'.hardState.currentTerm = term → r.after.log.entries <+: c'.log.entries := by
      intro r hr then_ current
      have before := (reached r hr).1
      exact ((reached r hr).2 then_ (by omega)).trans (grown current)
    refine ⟨List.pairwise_cons.mpr ⟨later, pairs⟩, List.forall_mem_cons.mpr ⟨?_, fun r hr => ?_⟩⟩
    · exact ⟨le_rfl, fun _ _ => List.prefix_refl _⟩
    · exact ⟨(reached r hr).1.trans le, later r hr⟩

/-- The core of a node is its first one or the one after its last step. -/
theorem Run.core_cases [Sha256] {init : NodeId → RaftCore C} (run : Run init history cores)
    (node : NodeId) : cores node = init node ∨ ∃ r, (node, r) ∈ history ∧ r.after = cores node := by
  induction run with
  | start => exact .inl rfl
  | @step history cores n c' event result earlier local_ allowed delivered run returns ih =>
    by_cases same : n = node
    · subst same
      exact .inr ⟨_, List.mem_cons_self .., (Function.update_self n c' cores).symm⟩
    · rw [Function.update_of_ne (Ne.symm same)]
      exact ih.imp_right fun ⟨r, hr, is⟩ => ⟨r, List.mem_cons_of_mem _ hr, is⟩

/-! ## The logs of the winners -/

/-- A log that the winner of a term had in it. -/
def LeaderLog (history : List (NodeId × Record C)) (term : Nat) (entries : List (Entry C)) : Prop :=
  ∃ node r, (node, r) ∈ history ∧ Elected (localHistory history node) term ∧
    r.after.hardState.currentTerm = term ∧ r.after.log.entries = entries

theorem LeaderLog.mono {history' : List (NodeId × Record C)} {term : Nat} {entries : List (Entry C)}
    (h : LeaderLog history term entries) (grows : history ⊆ history') :
    LeaderLog history' term entries := by
  obtain ⟨node, r, hr, won, current, is⟩ := h
  exact ⟨node, r, grows hr, won.mono (localHistory_mono grows node), current, is⟩

/-- Everything in the log was copied from the winners of its terms. -/
abbrev Copied (history : List (NodeId × Record C)) (entries : List (Entry C)) : Prop :=
  Attributed Entry.term (LeaderLog history) entries

theorem Copied.cons {entries : List (Entry C)} (h : Copied history entries)
    (p : NodeId × Record C) : Copied (p :: history) entries := by
  intro i e found
  obtain ⟨L, leader, same⟩ := h i e found
  exact ⟨L, leader.mono (List.subset_cons_self _ _), same⟩

namespace Cluster

variable [Sha256]

theorem faithful (h : Cluster config members history cores) {node : NodeId} {r : Record C}
    (hr : (node, r) ∈ history) : Faithful (localHistory history node) r :=
  (Trace.faithful (h.run.trace node) (h.run.snapshotless h.unbuilt h.room node)).1 r
    (mem_localHistory.mpr hr)

theorem ledger (h : Cluster config members history cores) (node : NodeId) :
    Ledger (config node) (localHistory history node) (cores node) :=
  (Trace.faithful (h.run.trace node) (h.run.snapshotless h.unbuilt h.room node)).2

/-- A term has one winner. -/
theorem winner_unique (h : Cluster config members history cores) {a b : NodeId} {term : Nat}
    (ha : Elected (localHistory history a) term) (hb : Elected (localHistory history b) term) :
    a = b := by
  have wonA := ha.won h.run h.ledger
  have wonB := hb.won h.run h.ledger
  rw [h.common] at wonA wonB
  exact Won.unique h.ledger wonA wonB

/-- Appends of a term come from its winner, which sends none to itself. -/
theorem not_heard (h : Cluster config members history cores) {node : NodeId} {term : Nat}
    (won : Elected (localHistory history node) term) {r : Record C} (hr : (node, r) ∈ history)
    {envelope : Envelope C} (is : r.event = .messageReceived envelope)
    (said : envelope.message.leaderTerm = some term) : False := by
  obtain ⟨to_, s, hs, sends⟩ := h.run.sent hr is
  have faithful := h.faithful hs
  have same := h.winner_unique (faithful.speaks _ _ term sends said).2.2 won
  have localId : s.after.config.localId = node := by
    rw [((h.ledger envelope.from_).states s (mem_localHistory.mpr hs)).config, same]
    exact h.run.localId hr
  have quotes := faithful.quotes _ _ sends
  cases hm : envelope.message with
  | appendEntries t prev prevTerm leaderCommit context entries =>
    rw [hm] at quotes
    exact quotes.1 (to_.trans localId.symm)
  | installSnapshot => rw [hm] at quotes; exact absurd quotes.bringsSnapshot (by simp [Message.bringsSnapshot])
  | _ => simp [hm, Message.leaderTerm] at said

/-- The log of the winner of a term only grows in it. -/
theorem winner_grows (h : Cluster config members history cores) {node : NodeId} {term : Nat}
    (won : Elected (localHistory history node) term) :
    (localHistory history node).Pairwise fun later earlier =>
      earlier.after.hardState.currentTerm = term → later.after.hardState.currentTerm = term →
      earlier.after.log.entries <+: later.after.log.entries := by
  have faithful : ∀ r ∈ localHistory history node, Faithful (localHistory history node) r :=
    fun r hr => h.faithful (mem_localHistory.mp hr)
  exact ((h.run.trace node).grows faithful fun r hr envelope is said =>
    h.not_heard won (mem_localHistory.mp hr) is said).1

/-- The logs of the winner of a term extend each other. -/
theorem comparable (h : Cluster config members history cores) :
    Comparable (LeaderLog history) := by
  rintro term L L' ⟨a, r, hr, wonA, currentA, rfl⟩ ⟨b, r', hr', wonB, currentB, rfl⟩
  obtain rfl := h.winner_unique wonA wonB
  rcases pairwise_cases (h.winner_grows wonA) (mem_localHistory.mpr hr) (mem_localHistory.mpr hr') with
    rfl | later | earlier
  · exact .inl (List.prefix_refl _)
  · exact .inr (later currentB currentA)
  · exact .inl (earlier currentA currentB)

/-- An append was cut from a log that its sender had as winner of the term. -/
theorem append_sent (h : Cluster config members history cores) {envelope : Envelope C}
    (sent : Sent history envelope) {term prev prevTerm leaderCommit : Nat} {context : Option Bytes}
    {entries : List (Entry C)}
    (is : envelope.message = .appendEntries term prev prevTerm leaderCommit context entries) :
    ∃ r, (envelope.from_, r) ∈ history ∧ LeaderLog history term r.after.log.entries ∧
      TermAt Entry.term r.after.log.entries prev prevTerm ∧
      entries <+: r.after.log.entries.drop prev ∧ Contiguous (prev + 1) entries ∧
      leaderCommit ≤ r.after.log.committed := by
  obtain ⟨r, hr, sends⟩ := sent
  have faithful := h.faithful hr
  rw [is] at sends
  obtain ⟨-, current, won⟩ := faithful.speaks _ _ term sends rfl
  obtain ⟨-, before, cut, known⟩ := faithful.quotes _ _ sends
  refine ⟨r, hr, ⟨_, r, hr, won, current, rfl⟩, before, cut, ?_, known⟩
  have consecutive := faithful.log.contiguous
  rw [show r.after.log.snapshotIndex = 0 by simp [RaftLog.snapshotIndex, faithful.bare]] at consecutive
  obtain ⟨tail, split⟩ := cut
  have dropped := consecutive.drop before.le_length
  rw [← split] at dropped
  rw [Nat.add_comm]
  simpa using (Contiguous.append.mp dropped).1

end Cluster

theorem RaftCore.new_copied (config : Config) :
    Copied history (RaftCore.new config .initial).log.entries := by
  intro i e found
  simp [RaftCore.new, RaftLog.fromRecovered, RecoveredState.initial] at found

/-- Every log of the cluster was copied from the logs of winners. -/
theorem Run.copied [Sha256]
    (run : Run (fun node => RaftCore.new (config node) .initial) history cores)
    (common : ∀ node, (config node).members = members) (unbuilt : NeverBuilt history)
    (room : ∀ p ∈ history, Room p.2.before) :
    ∀ p ∈ history, Copied history p.2.after.log.entries := by
  induction run with
  | start => simp
  | @step history cores n c' event result earlier local_ allowed delivered run returns ih =>
    have now : Cluster config members _ _ :=
      ⟨.step earlier local_ allowed delivered run returns, common, unbuilt, room⟩
    have unbuilt := (List.forall_mem_cons.mp unbuilt).2
    have room := (List.forall_mem_cons.mp room).2
    have cluster : Cluster config members history cores := ⟨earlier, common, unbuilt, room⟩
    have copied := ih unbuilt room
    have faithful := now.faithful (List.mem_cons_self ..)
    have before : Copied history (cores n).log.entries ∧ (cores n).log.WF ∧
        (cores n).log.snapshot = none := by
      rcases earlier.core_cases n with first | ⟨r, hr, is⟩
      · rw [first]
        exact ⟨RaftCore.new_copied _, (RaftCore.new_wf _ _).log, (RaftCore.new_bare _).log⟩
      · rw [← is]
        exact ⟨copied _ hr, (cluster.faithful hr).log, (cluster.faithful hr).bare⟩
    refine List.forall_mem_cons.mpr ⟨?_, fun p hp => (copied p hp).cons _⟩
    cases faithful.wrote with
    | kept same => exact same ▸ before.1.cons _
    | added entry is term won =>
      refine is ▸ (before.1.cons _).append ?_
      exact ⟨n, _, List.mem_cons_self .., won, term.symm, is⟩
    | merged envelope prev prevTerm leaderCommit context entries log appended received message
        prefix_ merge is =>
      have received : event = .messageReceived envelope := received
      subst received
      obtain ⟨r, hr, -, at_, cut, consecutive, -⟩ := cluster.append_sent delivered.2 message
      have spliced := merge.spliced before.2.1 before.2.2 consecutive
      have old := (before.2.1.term_eq_ok_iff before.2.2).mp prefix_
      have now : Copied history log.entries :=
        before.1.splice cluster.comparable (copied _ hr) old at_ cut spliced
      exact is ▸ now.cons _

/-- A state that a node was in. -/
def Visited (init : NodeId → RaftCore C) (history : List (NodeId × Record C)) (c : RaftCore C) :
    Prop :=
  (∃ node, c = init node) ∨ ∃ p ∈ history, c = p.2.after

/-- Two logs with the same term at an index are equal there and before. -/
def LogsMatch (c d : RaftCore C) : Prop :=
  ∀ i e e', c.log.entryAt i = .ok (some e) → d.log.entryAt i = .ok (some e') → e.term = e'.term →
    ∀ j ≤ i, c.log.entryAt j = d.log.entryAt j

theorem Cluster.visited [Sha256] (h : Cluster config members history cores) {c : RaftCore C}
    (seen : Visited (fun node => RaftCore.new (config node) .initial) history c) :
    Copied history c.log.entries ∧ c.log.WF ∧ c.log.snapshot = none := by
  rcases seen with ⟨node, rfl⟩ | ⟨p, hp, rfl⟩
  · exact ⟨RaftCore.new_copied _, (RaftCore.new_wf _ _).log, (RaftCore.new_bare _).log⟩
  · exact ⟨h.run.copied h.common h.unbuilt h.room p hp, (h.faithful hp).log, (h.faithful hp).bare⟩

theorem Run.visited [Sha256] {init : NodeId → RaftCore C} (run : Run init history cores)
    (node : NodeId) : Visited init history (cores node) := by
  rcases run.core_cases node with first | ⟨r, hr, is⟩
  · exact .inl ⟨node, first⟩
  · exact .inr ⟨(node, r), hr, is.symm⟩

theorem Visited.mono {init : NodeId → RaftCore C} {history' : List (NodeId × Record C)}
    {c : RaftCore C} (h : Visited init history c) (grows : history ⊆ history') :
    Visited init history' c :=
  h.imp_right fun ⟨p, hp, is⟩ => ⟨p, grows hp, is⟩

/-! ## One log over time -/

theorem Run.before_cases [Sha256] {init : NodeId → RaftCore C} (run : Run init history cores)
    {node : NodeId} {r : Record C} (hr : (node, r) ∈ history) : Visited init history r.before := by
  induction run with
  | start => simp at hr
  | step earlier local_ allowed delivered run returns ih =>
    rcases List.mem_cons.mp hr with same | old
    · obtain ⟨rfl, rfl⟩ := Prod.mk.inj same
      exact (earlier.visited node).mono (List.subset_cons_self _ _)
    · exact (ih old).mono (List.subset_cons_self _ _)

/-- A step makes the log longer, or splices a batch of a leader of its term into it. -/
def Evolves (history : List (NodeId × Record C)) (r : Record C) : Prop :=
  r.before.log.entries <+: r.after.log.entries ∨ ∃ L prev prevTerm batch,
    LeaderLog history r.after.hardState.currentTerm L ∧ Copied history L ∧
    batch <+: L.drop prev ∧ TermAt Entry.term L prev prevTerm ∧
    TermAt Entry.term r.before.log.entries prev prevTerm ∧
    Spliced Entry.term r.before.log.entries prev batch r.after.log.entries

theorem Cluster.evolves [Sha256] (h : Cluster config members history cores) {node : NodeId}
    {r : Record C} (hr : (node, r) ∈ history) : Evolves history r := by
  obtain ⟨-, wf, bare⟩ := h.visited (h.run.before_cases hr)
  cases (h.faithful hr).wrote with
  | kept same => exact .inl (same ▸ List.prefix_refl _)
  | added entry is => exact .inl (is ▸ List.prefix_append _ _)
  | merged envelope prev prevTerm leaderCommit context entries log appended received message
      prefix_ merge is =>
    obtain ⟨s, hs, leads, at_, cut, consecutive, -⟩ :=
      h.append_sent (h.run.sent hr received).2 message
    refine .inr ⟨_, prev, prevTerm, entries, leads, h.run.copied h.common h.unbuilt h.room _ hs,
      cut, at_, (wf.term_eq_ok_iff bare).mp prefix_, ?_⟩
    rw [is]
    exact merge.spliced wf bare consecutive

/-- What a log holds and every leader since agrees with, it still holds. -/
def Retains (history : List (NodeId × Record C)) (c d : RaftCore C) : Prop :=
  ∀ K, K <+: c.log.entries → (∀ term L, c.hardState.currentTerm ≤ term →
    term ≤ d.hardState.currentTerm → LeaderLog history term L → K <+: L ∨ L <+: K) →
    K <+: d.log.entries

theorem Trace.retains [Sha256] {init c : RaftCore C} {steps : List (Record C)}
    (run : Trace init steps c)
    (evolves : ∀ r ∈ steps, r.before.hardState.currentTerm ≤ r.after.hardState.currentTerm ∧
      Evolves history r) :
    (steps.Pairwise fun later earlier =>
      earlier.after.hardState.currentTerm ≤ later.before.hardState.currentTerm ∧
      Retains history earlier.after later.before) ∧
    ∀ r ∈ steps, r.after.hardState.currentTerm ≤ c.hardState.currentTerm ∧
      Retains history r.after c := by
  induction run with
  | start => exact ⟨.nil, by simp⟩
  | @step steps c c' event result earlier allowed run returns ih =>
    obtain ⟨⟨le, now⟩, evolves⟩ := List.forall_mem_cons.mp evolves
    obtain ⟨pairs, reached⟩ := ih evolves
    have le : c.hardState.currentTerm ≤ c'.hardState.currentTerm := le
    refine ⟨List.pairwise_cons.mpr ⟨reached, pairs⟩, List.forall_mem_cons.mpr ⟨?_, fun r hr => ?_⟩⟩
    · exact ⟨le_rfl, fun K has _ => has⟩
    · obtain ⟨before, held⟩ := reached r hr
      refine ⟨before.trans le, fun K has agree => ?_⟩
      have held := held K has fun term L lo hi => agree term L lo (hi.trans le)
      rcases now with grown | ⟨L, prev, prevTerm, batch, leads, -, cut, -, -, spliced⟩
      · exact held.trans grown
      · exact spliced.keeps cut held (agree _ L (before.trans le) le_rfl leads)

theorem Cluster.retains [Sha256] (h : Cluster config members history cores) (node : NodeId) :
    ((localHistory history node).Pairwise fun later earlier =>
      earlier.after.hardState.currentTerm ≤ later.before.hardState.currentTerm ∧
      Retains history earlier.after later.before) ∧
    ∀ r ∈ localHistory history node,
      r.after.hardState.currentTerm ≤ (cores node).hardState.currentTerm ∧
      Retains history r.after (cores node) :=
  (h.run.trace node).retains fun _ hr => ⟨(h.faithful (mem_localHistory.mp hr)).le.1,
    h.evolves (mem_localHistory.mp hr)⟩

/-! ## Two logs -/

theorem RaftLog.WF.entryAt_eq {log : RaftLog C} (h : log.WF) (bare : log.snapshot = none) (i : Nat) :
    log.entryAt i = .ok (if 0 < i then log.entries[i - 1]? else none) := by
  have zero : log.snapshotIndex = 0 := by simp [RaftLog.snapshotIndex, bare]
  rw [h.entryAt, RaftLog.get?, zero]

theorem RaftLog.WF.termAt_of_entryAt {log : RaftLog C} (h : log.WF) (bare : log.snapshot = none)
    {i : Nat} {e : Entry C} (found : log.entryAt i = .ok (some e)) :
    TermAt Entry.term log.entries i e.term := by
  rw [h.entryAt_eq bare, Except.ok.injEq] at found
  split at found
  · next pos => exact .inr ⟨e, pos, found, rfl⟩
  · simp at found

/-- Two logs of a cluster without snapshots that share a term at an index agree up to it, as
long as no effect counter runs out. -/
theorem log_matching [Sha256] (config : NodeId → Config) (members : List NodeId)
    (common : ∀ node, (config node).members = members) {history : List (NodeId × Record C)}
    {cores : NodeId → RaftCore C}
    (run : Run (fun node => RaftCore.new (config node) .initial) history cores)
    (unbuilt : NeverBuilt history) (room : ∀ p ∈ history, Room p.2.before) :
    ∀ c d, Visited (fun node => RaftCore.new (config node) .initial) history c →
      Visited (fun node => RaftCore.new (config node) .initial) history d → LogsMatch c d := by
  intro c d seenC seenD i e e' found found' same j le
  have cluster : Cluster config members history cores := ⟨run, common, unbuilt, room⟩
  obtain ⟨copied, wf, bare⟩ := cluster.visited seenC
  obtain ⟨copied', wf', bare'⟩ := cluster.visited seenD
  have at_ := wf.termAt_of_entryAt bare found
  have at_' := wf'.termAt_of_entryAt bare' found'
  rw [← same] at at_'
  have agree := copied.take_eq cluster.comparable copied' at_ at_'
  rw [wf.entryAt_eq bare, wf'.entryAt_eq bare']
  split
  · have := congrArg (·[j - 1]?) agree
    simpa [List.getElem?_take_of_lt (show j - 1 < i by omega)] using this
  · rfl

def Record.built (r : Record C) : Bool :=
  match r.event with
  | .effectCompleted _ (.snapshotBuilt _ _) => true
  | _ => false

theorem neverBuilt_of_check {history : List (NodeId × Record C)}
    (h : (history.all fun p => !p.2.built) = true) : NeverBuilt history := by
  intro p hp id metadata snapshotRef is
  have := List.all_eq_true.mp h p hp
  simp [Record.built, is] at this

/-- Nodes 1 and 2 hold the no-op and the command of term 1. -/
theorem log_matching_committed : ∃ w : World Nat,
    @Run Nat sha256Empty trio w.history (w.core trio) ∧
    (∀ node ∈ [1, 2], ∃ p ∈ w.history, p.1 = node ∧ p.2.after.log.entries.length = 2) ∧
    ∀ c d, Visited trio w.history c → Visited trio w.history d → LogsMatch c d := by
  let _ : Sha256 := sha256Empty
  obtain ⟨w, run, checked⟩ := World.exec_any trio Script.commitTwo
    (fun w => ([1, 2].all fun node => w.history.any fun p =>
        (p.1 = node) && (p.2.after.log.entries.length = 2)) &&
      (w.history.all fun p => !p.2.built) && w.history.all fun p => Room p.2.before)
    (by decide +kernel)
  simp only [Bool.and_eq_true] at checked
  obtain ⟨⟨long, plain⟩, room⟩ := checked
  refine ⟨w, run, fun node hn => ?_, ?_⟩
  · simpa using List.any_eq_true.mp (List.all_eq_true.mp long node hn)
  · exact log_matching trioConfigs [1, 2, 3] trioConfigs_members run (neverBuilt_of_check plain)
      fun p hp => of_decide_eq_true (List.all_eq_true.mp room p hp)

end Ruft
