import Ruft.LogMatching

set_option autoImplicit false

/-!
# Runs that use up the effect counter

Node 2 asks for the vote of node 1 in one term after the other, and both persist their hard
state once in every term. The `u64` counter of their effects runs out after as many terms. A
core that cannot get an id for an effect returns an error and keeps what it wrote before: it
may be in a new term and still become leader once an older no-op is durable.

## Main results

- `terms_pass` — the two nodes reach every term with the counter at the term
- `logs_differ` — with no ids left, a core leads a term that it did not win
-/

namespace Ruft

/-! ## The nodes -/

/-- The settings of `trio`, with one outcome kept. -/
def lapConfig (node : NodeId) (h : node ∈ [1, 2, 3]) : Config :=
  { trioConfig node h with completionHistory := 1, completionHistory_pos := Nat.zero_lt_one }

def lapConfigs (node : NodeId) : Config :=
  if h : node ∈ [1, 2, 3] then lapConfig node h else lapConfig 1 first_member

/-- The nodes of the cluster, each started from nothing. -/
def laps (node : NodeId) : RaftCore Nat := RaftCore.new (lapConfigs node) .initial

/-- A core that has voted for node 2 in every term up to `k`. -/
def RaftCore.worn (c : RaftCore Nat) (k : Nat) : RaftCore Nat := { c with
  hardState := ⟨k, some 2, 0⟩
  nextEffectSequence := k
  completedFrontier := k
  completedOutcomes := BTreeMap.empty.insert ⟨0, k⟩ .persisted
  completionOrder := [⟨0, k⟩] }

/-- The core waits for its vote in the next term to be durable. -/
def RaftCore.waits (c : RaftCore Nat) (k : Nat) (continuation : PersistContinuation) :
    RaftCore Nat := { c with
  hardState := ⟨k + 1, some 2, 0⟩
  nextEffectSequence := k + 1
  pendingPersist := some ⟨⟨0, k + 1⟩, none, continuation⟩ }

/-- Node 1, which votes. -/
def voter (k : Nat) : RaftCore Nat := (laps 1).worn k

/-- Node 2, which asks for votes. -/
def asker (k : Nat) : RaftCore Nat := { laps 2 with
  role := .candidate, votes := some (QuorumTracker.withLocalVote [1, 2, 3] 2) }.worn k

/-- Node 2, which asks who would vote for it. -/
def poller (k : Nat) : RaftCore Nat := { asker k with
  role := .preCandidate, votes := none
  preVotes := some (QuorumTracker.withLocalVote [1, 2, 3] 2) }

/-! ## One term -/

section Term

open Program StepM

variable {k : Nat}

variable [Sha256]

theorem asker_tick (room : k < u64Max) : step (asker k) (.tick .election) =
    (.ok ⟨toPeers (lapConfigs 2) (.preVote (k + 1) 0 0), true⟩, poller k) := by
  simp [step, process, handle, bind_run, startPreVote, broadcastPreVote, emitApplyIfNeeded,
    liftNext_ok room, QuorumTracker.hasQuorum, QuorumTracker.quorum, QuorumTracker.withLocalVote,
    asker, poller, RaftCore.worn, laps, lapConfigs, lapConfig, trioConfig, RaftCore.new,
    RecoveredState.initial]
  rfl

theorem voter_preVote : step (voter k) (.messageReceived ⟨0, 2, 1, .preVote (k + 1) 0 0⟩) =
    (.ok ⟨[.sendMessage 2 (.preVoteResponse k true)], false⟩, voter k) := by
  simp [step, process, handle, bind_run, liftPure, validateEnvelope, onMessage,
    sendPreVoteResponse, isLogUpToDate, emitApplyIfNeeded, voter, RaftCore.worn, laps, lapConfigs,
    lapConfig, trioConfig, RaftCore.new, RecoveredState.initial]
  rfl

theorem poller_response (room : k < u64Max) :
    step (poller k) (.messageReceived ⟨0, 1, 2, .preVoteResponse k true⟩) =
      (.ok ⟨[.persist ⟨0, k + 1⟩ ⟨some ⟨k + 1, some 2, 0⟩, [], none⟩], true⟩,
        (asker k).waits k .broadcastVoteRequests) := by
  simp [step, process, handle, bind_run, liftPure, validateEnvelope, onMessage, onPreVoteResponse,
    becomeCandidate, queuePersist, nextEffectId, emitApplyIfNeeded, liftNext_ok room,
    QuorumTracker.record, QuorumTracker.hasQuorum, QuorumTracker.quorum,
    QuorumTracker.withLocalVote, asker, poller, RaftCore.worn, laps, lapConfigs, lapConfig,
    trioConfig, RaftCore.new, RecoveredState.initial]
  rfl

theorem voter_request (room : k < u64Max) :
    step (voter k) (.messageReceived ⟨0, 2, 1, .requestVote (k + 1) 0 0⟩) =
      (.ok ⟨[.persist ⟨0, k + 1⟩ ⟨some ⟨k + 1, some 2, 0⟩, [], none⟩], false⟩,
        (voter k).waits k (.sendVoteResponse 2 (k + 1) true)) := by
  have newer : ¬ k + 1 < k := by omega
  simp [step, process, handle, bind_run, liftPure, validateEnvelope, onMessage, onVoteRequest,
    newer, isLogUpToDate, queuePersist, nextEffectId, emitApplyIfNeeded, liftNext_ok room, voter,
    RaftCore.worn, laps, lapConfigs, lapConfig, trioConfig, RaftCore.new, RecoveredState.initial]
  rfl

omit [Sha256] in
theorem RaftCore.validate_worn {c : RaftCore Nat} (generation : c.config.generation = 0)
    (sparse : c.completedSparse = ∅) (continuation : PersistContinuation) :
    ((c.worn k).waits k continuation).validateCompletion ⟨0, k + 1⟩ .persisted = .ok () := by
  simp [RaftCore.validateCompletion, RaftCore.worn, RaftCore.waits, generation, sparse]

omit [Sha256] in
theorem RaftCore.record_worn {c : RaftCore Nat} (room : k < u64Max)
    (limit : c.config.completionHistory = 1) (sparse : c.completedSparse = ∅)
    (free : c.pendingPersist = none) (continuation : PersistContinuation) :
    { (c.worn k).waits k continuation with pendingPersist := none }.recordCompletion ⟨0, k + 1⟩
      .persisted = c.worn (k + 1) := by
  have next : min (k + 1) u64Max = k + 1 := by omega
  have evicted : ((BTreeMap.empty.insert (⟨0, k⟩ : EffectId) EffectOutcome.persisted).insert
      ⟨0, k + 1⟩ .persisted).remove ⟨0, k⟩ = BTreeMap.empty.insert ⟨0, k + 1⟩ .persisted := by
    ext id
    simp only [BTreeMap.get_remove, BTreeMap.get_insert, BTreeMap.get_empty]
    grind
  simp [RaftCore.recordCompletion, RaftCore.worn, RaftCore.waits, limit, sparse, free, next,
    evicted, RaftCore.saturatingNext, RaftCore.mergeFrontier, RaftCore.evict]

/-- A hard state is durable, and nothing else is outstanding. -/
theorem step_persisted {c d : RaftCore Nat} {id : EffectId} {continuation : PersistContinuation}
    {effects : List (Effect Nat)} (running : c.stopped = false)
    (generation : id.generation = c.config.generation) (reads : c.pendingSnapshotReads = .empty)
    (store : c.pendingChunkStore = none) (incoming : c.incomingSnapshotState = none)
    (building : c.localSnapshot = .idle) (applying : c.pendingApply = none)
    (found : c.pendingPersist = some ⟨id, none, continuation⟩)
    (valid : c.validateCompletion id .persisted = .ok ())
    (run : continueWith continuation ⟨{ c with pendingPersist := none }, []⟩ =
      (.ok (), ⟨{ c with pendingPersist := none }, effects⟩))
    (record : { c with pendingPersist := none }.recordCompletion id .persisted = d)
    (applied : d.hardState.commitIndex ≤ d.appliedIndex) (role : d.role = c.role)
    (sound : d.validateInvariants = .ok ()) :
    step c (.effectCompleted id .persisted) = (.ok ⟨effects, false⟩, d) := by
  have handled : onEffectCompleted id .persisted ⟨c, []⟩ =
      (.ok (), ⟨{ c with pendingPersist := none }, effects⟩) := by
    rw [← run]
    cases c
    simp only at *
    subst_vars
    simp [onEffectCompleted, generation, bind_run, onOutgoingSnapshotCompletion,
      onIncomingSnapshotCompletion, onChunkStoreCompletion, onInstallCompletion,
      onSnapshotCompletion, onPersistCompletion]
  have processed : process (.effectCompleted id .persisted) ⟨c, []⟩ = (.ok (), ⟨d, effects⟩) := by
    simp only [process, handle, bind_run, core_run, liftPure, valid, Program.lift_ok,
      Program.pure_run, handled, update_run, record, emitApplyIfNeeded]
    rw [if_pos (.inr (.inr applied))]
    rfl
  simp [step, running, processed, sound, role]

theorem voter_persisted (room : k < u64Max) :
    step ((voter k).waits k (.sendVoteResponse 2 (k + 1) true))
      (.effectCompleted ⟨0, k + 1⟩ .persisted) =
      (.ok ⟨[.sendMessage 2 (.voteResponse (k + 1) true)], false⟩, voter (k + 1)) :=
  step_persisted rfl rfl rfl rfl rfl rfl rfl rfl (RaftCore.validate_worn rfl rfl _) rfl
    (RaftCore.record_worn room rfl rfl rfl _) le_rfl rfl rfl

theorem asker_persisted (room : k < u64Max) :
    step ((asker k).waits k .broadcastVoteRequests) (.effectCompleted ⟨0, k + 1⟩ .persisted) =
      (.ok ⟨toPeers (lapConfigs 2) (.requestVote (k + 1) 0 0), false⟩, asker (k + 1)) :=
  step_persisted rfl rfl rfl rfl rfl rfl rfl rfl (RaftCore.validate_worn rfl rfl _) rfl
    (RaftCore.record_worn room rfl rfl rfl _) le_rfl rfl rfl

end Term

/-! ## Term after term -/

section Terms

variable [Sha256]

/-- A run of the three nodes in which no snapshot is built. -/
def Laps (history : List (NodeId × Record Nat)) (cores : NodeId → RaftCore Nat) : Prop :=
  Run laps history cores ∧ NeverBuilt history

theorem Laps.congr {history : List (NodeId × Record Nat)} {cores cores' : NodeId → RaftCore Nat}
    (run : Laps history cores) (same : ∀ node, cores node = cores' node) : Laps history cores' :=
  funext same ▸ run

/-- A node takes a step that succeeds. -/
theorem Laps.go {history : List (NodeId × Record Nat)} {cores : NodeId → RaftCore Nat}
    {c c' : RaftCore Nat} {event : Event Nat} {output : StepOutput Nat}
    (run : Laps history cores) (node : NodeId) (at_ : cores node = c)
    (steps : step c event = (.ok output, c')) (local_ : (laps node).config.localId = node)
    (allowed : Allowed (localHistory history node) event)
    (delivered : Delivered history node event)
    (other : ∀ id metadata snapshotRef,
      event ≠ .effectCompleted id (.snapshotBuilt metadata snapshotRef)) :
    Laps ((node, ⟨c, event, .ok output, c'⟩) :: history) (Function.update cores node c') := by
  subst at_
  exact ⟨.step run.1 local_ allowed delivered steps (by simp),
    List.forall_mem_cons.mpr ⟨other, run.2⟩⟩

/-- Node 2 asks in the next term, and node 1 votes for it. -/
theorem Laps.next {history : List (NodeId × Record Nat)} {cores : NodeId → RaftCore Nat}
    {a p b d v w u : RaftCore Nat} {k : Nat} (run : Laps history cores) (one : cores 1 = v)
    (two : cores 2 = a)
    (tick : step a (.tick .election) =
      (.ok ⟨toPeers (lapConfigs 2) (.preVote (k + 1) 0 0), true⟩, p))
    (polled : step v (.messageReceived ⟨0, 2, 1, .preVote (k + 1) 0 0⟩) =
      (.ok ⟨[.sendMessage 2 (.preVoteResponse k true)], false⟩, v))
    (response : step p (.messageReceived ⟨0, 1, 2, .preVoteResponse k true⟩) =
      (.ok ⟨[.persist ⟨0, k + 1⟩ ⟨some ⟨k + 1, some 2, 0⟩, [], none⟩], true⟩, b))
    (asked : step b (.effectCompleted ⟨0, k + 1⟩ .persisted) =
      (.ok ⟨toPeers (lapConfigs 2) (.requestVote (k + 1) 0 0), false⟩, d))
    (request : step v (.messageReceived ⟨0, 2, 1, .requestVote (k + 1) 0 0⟩) =
      (.ok ⟨[.persist ⟨0, k + 1⟩ ⟨some ⟨k + 1, some 2, 0⟩, [], none⟩], false⟩, w))
    (voted : step w (.effectCompleted ⟨0, k + 1⟩ .persisted) =
      (.ok ⟨[.sendMessage 2 (.voteResponse (k + 1) true)], false⟩, u)) :
    ∃ history', Laps history' (Function.update (Function.update cores 1 u) 2 d) := by
  have sends : ∀ m : Message Nat, .sendMessage 1 m ∈ toPeers (lapConfigs 2) m := by
    intro m
    simp [toPeers, lapConfigs, lapConfig, trioConfig]
  have run := run.go 2 two tick rfl trivial trivial (by simp)
  have run := run.go 1 one polled rfl trivial
    ⟨rfl, _, List.mem_cons_self .., sends _⟩ (by simp)
  have run := run.go 2 rfl response rfl trivial
    ⟨rfl, _, List.mem_cons_self .., List.mem_singleton_self _⟩ (by simp)
  have run := run.go 2 rfl asked rfl
    ⟨_, List.mem_cons_self .., _, List.mem_singleton_self _, .persisted _ _⟩ trivial (by simp)
  have run := run.go 1 rfl request rfl trivial
    ⟨rfl, _, List.mem_cons_self .., sends _⟩ (by simp)
  have run := run.go 1 rfl voted rfl
    ⟨_, List.mem_cons_self .., _, List.mem_singleton_self _, .persisted _ _⟩ trivial (by simp)
  refine ⟨_, run.congr fun node => ?_⟩
  simp only [Function.update]
  grind

/-- The nodes after `k` terms. -/
def lapped (k : Nat) (node : NodeId) : RaftCore Nat :=
  if node = 1 then voter k else if node = 2 then asker k else laps node

theorem terms_pass (k : Nat) (pos : 0 < k) (room : k ≤ u64Max) :
    ∃ history, Laps history (lapped k) := by
  induction k with
  | zero => omega
  | succ k ih =>
    by_cases first : k = 0
    · subst first
      have start : Laps [] laps := ⟨.start, by simp [NeverBuilt]⟩
      obtain ⟨history, run⟩ := start.next (k := 0) (d := asker 1) (u := voter 1) rfl rfl rfl rfl
        rfl rfl rfl rfl
      refine ⟨history, run.congr fun node => ?_⟩
      simp only [lapped, Function.update]
      grind
    · obtain ⟨history, run⟩ := ih (by omega) (by omega)
      have room : k < u64Max := room
      obtain ⟨history, run⟩ := run.next (k := k) rfl rfl (asker_tick room) voter_preVote
        (poller_response room) (asker_persisted room) (voter_request room) (voter_persisted room)
      refine ⟨history, run.congr fun node => ?_⟩
      simp only [lapped, Function.update]
      grind

end Terms

/-! ## The last ids -/

/-- Node 1 wins the term before the last one and gets its last id for the no-op. Node 3 wins the
last term and appends a command. Its request for a vote moves node 1 to the last term, where the
no-op of node 1 becomes durable and node 1 takes a command as leader. -/
def lastIds : List (Move Nat) :=
  [Script.elect 1, Script.deliver 0, Script.deliver 2, Script.persisted 1 (u64Max - 1),
    Script.deliver 3, Script.deliver 4, Script.persisted 3 1, Script.persisted 2 (u64Max - 1),
    Script.deliver 5, Script.elect 3, Script.deliver 8, Script.deliver 9, Script.persisted 3 2,
    Script.deliver 11, Script.persisted 2 u64Max, Script.deliver 12, Script.persisted 3 3,
    Script.propose 3 1 7, Script.deliver 10, Script.persisted 1 u64Max, Script.propose 1 2 8]

/-- The logs have the same term at index 2 and different terms at index 1. -/
def mismatch (c d : RaftCore Nat) : Bool :=
  match c.log.entryAt 2, d.log.entryAt 2, c.log.entryAt 1, d.log.entryAt 1 with
  | .ok (some e), .ok (some e'), .ok (some f), .ok (some f') =>
    e.term = e'.term && f.term ≠ f'.term
  | _, _, _, _ => false

theorem mismatch_sound {c d : RaftCore Nat} (h : mismatch c d = true) : ¬ LogsMatch c d := by
  intro matching
  unfold mismatch at h
  split at h
  · next e e' f f' atC atD beforeC beforeD =>
    simp only [Bool.and_eq_true, decide_eq_true_eq] at h
    have same := matching 2 e e' atC atD h.1 1 (by decide)
    rw [beforeC, beforeD] at same
    simp only [Except.ok.injEq, Option.some.injEq] at same
    exact h.2 (by rw [same])
  · simp at h

/-- Nodes 1 and 3 end with one term at index 2 and different terms at index 1. -/
theorem logs_differ : ¬ ∀ (history : List (NodeId × Record Nat)) (cores : NodeId → RaftCore Nat),
    @Run Nat sha256Empty laps history cores → NeverBuilt history →
    ∀ c d, Visited laps history c → Visited laps history d → LogsMatch c d := by
  let _ : Sha256 := sha256Empty
  intro h
  obtain ⟨earlier, run, unbuilt⟩ := terms_pass (u64Max - 2) (by decide) (by decide)
  obtain ⟨w, rest, checked⟩ := World.exec_any (lapped (u64Max - 2)) lastIds
    (fun w => (w.history.all fun p => !p.2.built) &&
      w.history.any fun p => w.history.any fun q => mismatch p.2.after q.2.after)
    (by decide +kernel)
  simp only [Bool.and_eq_true, List.any_eq_true] at checked
  obtain ⟨plain, p, hp, q, hq, differ⟩ := checked
  have same : ∀ node, (lapped (u64Max - 2) node).config.localId = (laps node).config.localId := by
    intro node
    unfold lapped
    split
    · next is => rw [is]; rfl
    · split
      · next is => rw [is]; rfl
      · rfl
  refine mismatch_sound differ (h _ _ (run.append same rest) ?_ _ _ ?_ ?_)
  · exact List.forall_mem_append.mpr ⟨neverBuilt_of_check plain, unbuilt⟩
  · exact .inr ⟨p, List.mem_append_left _ hp, rfl⟩
  · exact .inr ⟨q, List.mem_append_left _ hq, rfl⟩

end Ruft
