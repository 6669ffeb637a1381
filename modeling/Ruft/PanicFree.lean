import Ruft.Exec

set_option autoImplicit false

/-!
# Panics

A step panics when an effect is reported whose counterpart is gone: the receiver of a
stored chunk, the sender of a chunk that was read, or the followers that a proposal is
to be sent to. Each of them is there as long as nothing removes it early. And a leader
that comes into office panics when the queues of its followers are too large to create.

## Main results

- `step_ne_panic` — no step of a cluster panics while every removal waits
- `duplicate_chunk_panics` — a chunk that the network duplicates makes a follower panic
-/

namespace Ruft

variable {C : Type}

/-- A receiver is not removed while one of its chunks is being stored, a sender is not removed
while one of its chunks is being read, a proposal becomes durable on a leader, and a leader comes
into office alone or with windows that a queue can hold. -/
def CounterpartStays : Condition C := fun _ c event => Room c ∧
  match event with
  | .effectCompleted id (.snapshotInstalled _) => ∀ record from_ term,
      c.incomingSnapshotState = some (.installing id record from_ term) → c.pendingChunkStore = none
  | .messageReceived envelope => ∀ term, envelope.message = .installSnapshotResponse term true →
      c.role = .leader → term = c.hardState.currentTerm →
      envelope.from_ ∉ c.pendingSnapshotReads.values
  | .effectCompleted id .persisted => ∀ stableThrough,
      (c.pendingPersist = some ⟨id, stableThrough, .replicateProposal⟩ →
        c.role = .leader ∨ c.config.quorum = 1) ∧
      (c.pendingPersist = some ⟨id, stableThrough, .activateLeader⟩ →
        c.config.maxInflightAppends ≤ maxCapacity ∨ c.config.quorum = 1)
  | _ => True

/-- Every outstanding chunk has its counterpart, and a core that has stopped knows why. -/
structure Counterparts (c : RaftCore C) : Prop where
  receiver : ∀ pending, c.pendingChunkStore = some pending → ∃ r, c.incomingSnapshot = some r
  sender : ∀ id to_, c.pendingSnapshotReads.get id = some to_ →
    ∃ sender, c.snapshotSenders.get to_ = some sender
  reason : c.stopped = true → ∃ reason, c.stoppedReason = some reason

theorem Counterparts.congr {c d : RaftCore C} (h : Counterparts c)
    (store : d.pendingChunkStore = c.pendingChunkStore ∨ d.pendingChunkStore = none)
    (receiver : d.incomingSnapshot = c.incomingSnapshot)
    (reads : d.pendingSnapshotReads = c.pendingSnapshotReads)
    (senders : d.snapshotSenders = c.snapshotSenders) (stopped : d.stopped = c.stopped)
    (reason : d.stoppedReason = c.stoppedReason) : Counterparts d := by
  refine ⟨?_, ?_, ?_⟩
  · intro pending hp
    rw [receiver]
    rcases store with hs | hs
    · exact h.receiver pending (hs ▸ hp)
    · simp [hs] at hp
  · rw [reads, senders]
    exact h.sender
  · rw [stopped, reason]
    exact h.reason

/-- Another sender takes the place of one, or joins them. -/
theorem Counterparts.insert_sender {c : RaftCore C} (h : Counterparts c) (to_ : NodeId)
    (sender : SnapshotSender) :
    Counterparts { c with snapshotSenders := c.snapshotSenders.insert to_ sender } := by
  refine ⟨h.receiver, ?_, h.reason⟩
  intro id n hn
  obtain ⟨old, hold⟩ := h.sender id n hn
  by_cases hto : n = to_
  · exact ⟨sender, by simp [BTreeMap.get_insert, hto]⟩
  · exact ⟨old, by simp [BTreeMap.get_insert, hto, hold]⟩

theorem Counterparts.messageAct {c : RaftCore C} {from_ : NodeId} {m : Message C} {s : Ctx C}
    (h : Counterparts c) (act : MessageAct c from_ m s)
    (stays : ∀ term, m = .installSnapshotResponse term true → c.role = .leader →
      term = c.hardState.currentTerm → from_ ∉ c.pendingSnapshotReads.values) :
    Counterparts s.core := by
  cases act with
  | senderDone term sender progress leader same found restored =>
    refine ⟨h.receiver, ?_, h.reason⟩
    intro id n hn
    obtain ⟨old, hold⟩ := h.sender id n hn
    have hne : n ≠ from_ := by
      rintro rfl
      exact stays term rfl leader same (BTreeMap.mem_values.mpr ⟨id, hn⟩)
    exact ⟨old, by simp [BTreeMap.get_remove, hne, hold]⟩
  | receiverTouched term metadata offset bytes done receiver =>
    exact ⟨fun _ _ => ⟨receiver, rfl⟩, h.sender, h.reason⟩
  | chunkAccepted term metadata offset bytes done receiver =>
    exact ⟨fun _ _ => ⟨receiver, rfl⟩, h.sender, h.reason⟩
  | _ => exact h.congr (.inl rfl) rfl rfl rfl rfl rfl

theorem Counterparts.completionAct [Sha256] {c : RaftCore C} {id : EffectId}
    {outcome : EffectOutcome} {s : Ctx C} (h : Counterparts c) (act : CompletionAct c id outcome s)
    (stays : ∀ snapshotId, outcome = .snapshotInstalled snapshotId → ∀ record from_ term,
      c.incomingSnapshotState = some (.installing id record from_ term) →
      c.pendingChunkStore = none) : Counterparts s.core := by
  cases act with
  | chunkRead snapshotId offset bytes done to_ sender advanced pending found same moved =>
    have h₁ := h.insert_sender to_ advanced
    refine ⟨h₁.receiver, ?_, h₁.reason⟩
    intro i n hn
    rw [BTreeMap.get_remove] at hn
    split at hn
    · simp at hn
    · exact h₁.sender i n hn
  | installed snapshotId record from_ term log found install =>
    refine ⟨?_, h.sender, h.reason⟩
    intro pending hp
    have hp : c.pendingChunkStore = some pending := hp
    simp [stays snapshotId rfl record from_ term found] at hp
  | chunkStored => exact h.congr (.inr rfl) rfl rfl rfl rfl rfl
  | transferDone => exact h.congr (.inr rfl) rfl rfl rfl rfl rfl
  | _ => exact h.congr (.inl rfl) rfl rfl rfl rfl rfl

theorem Counterparts.act [Sha256] {history : List (Record C)} {c : RaftCore C} {event : Event C}
    {s : Ctx C} (h : Counterparts c) (act : Act c event s)
    (stays : CounterpartStays history c event) : Counterparts s.core := by
  cases act with
  | message envelope members s known mine act =>
    have h₁ : Counterparts { c with activeMembers := members } :=
      h.congr (.inl rfl) rfl rfl rfl rfl rfl
    exact h₁.messageAct act stays.2
  | completed id outcome s act =>
    refine h.completionAct act ?_
    rintro snapshotId rfl
    exact stays.2
  | shutDown =>
    refine ⟨h.receiver, h.sender, fun _ => ?_⟩
    cases hr : c.stoppedReason with
    | none => exact ⟨.shutdown, by simp [RaftCore.stop, hr]⟩
    | some reason => exact ⟨reason, by simp [RaftCore.stop, hr]⟩
  | readStarted readId =>
    obtain ⟨round, hr⟩ := Ctx.roundStarted_core ⟨c, []⟩ readId
    rw [hr]
    exact h.congr (.inl rfl) rfl rfl rfl rfl rfl
  | _ => exact h.congr (.inl rfl) rfl rfl rfl rfl rfl

theorem Counterparts.followUp {cause : Cause C} {s s' : Ctx C} (h : Counterparts s.core)
    (hf : FollowUp cause s s') : Counterparts s'.core := by
  cases hf with
  | senderCreated to_ snapshot => exact h.insert_sender to_ _
  | chunkRequested to_ sender idle found =>
    refine ⟨h.receiver, ?_, h.reason⟩
    intro id n hn
    rw [BTreeMap.get_insert] at hn
    split at hn
    · simp only [Option.some.injEq] at hn
      exact hn ▸ ⟨sender, found⟩
    · exact h.sender id n hn
  | readStarted readId rest =>
    obtain ⟨round, hr⟩ :=
      Ctx.roundStarted_core ⟨{ s.core with pendingReads := rest }, s.effects⟩ readId
    rw [hr]
    exact h.congr (.inl rfl) rfl rfl rfl rfl rfl
  | _ => exact h.congr (.inl rfl) rfl rfl rfl rfl rfl

theorem RaftCore.stop_reason (c : RaftCore C) (reason : StoppedReason) :
    ∃ r, (c.stop reason).stoppedReason = some r := by
  cases hr : c.stoppedReason with
  | none => exact ⟨reason, by simp [RaftCore.stop, hr]⟩
  | some r => exact ⟨r, by simp [RaftCore.stop, hr]⟩

theorem counterparts_keep [Sha256] : Keeps (CounterpartStays : Condition C)
    (fun _ c => Counterparts c) (fun _ _ _ s => Counterparts s.core)
    (fun _ c => c.stopped = true → ∃ reason, c.stoppedReason = some reason) where
  act hs h act := h.act act hs.meets
  followUp _ _ _ h hf := h.followUp hf
  finished := by
    intro history c event s _ h
    obtain ⟨proposals, hp⟩ := s.finished_core c
    rw [hp]
    exact h.congr (.inl rfl) rfl rfl rfl rfl rfl
  returned _ _ h := h
  failed _ _ h _ := h
  safe h := h.reason
  ended _ _ _ _ := fun _ => RaftCore.stop_reason _ _
  halted _ _ _ _ _ := fun _ => RaftCore.stop_reason _ _
  idle _ _ _ _ _ h := h

/-- A cluster whose quorum is one node has no other. -/
theorem Config.peers_eq_nil (config : Config) (alone : config.quorum = 1) :
    config.members.filter (· ≠ config.localId) = [] := by
  have count := config.quorum_eq
  obtain ⟨node, members⟩ : ∃ node, config.members = [node] :=
    List.length_eq_one_iff.mp (by have := List.length_pos_of_mem config.local_mem; omega)
  have mine := config.local_mem
  rw [members, List.mem_singleton] at mine
  simp [members, mine]

/-- A report panics only when its counterpart is gone, or windows are too large. -/
theorem Counterparts.not_panics {history : List (Record C)} {c : RaftCore C} {event : Event C}
    (h : Counterparts c) (wf : c.WF) (stays : CounterpartStays history c event) :
    ¬ Panics c event := by
  cases event with
  | effectCompleted id outcome =>
    rintro (⟨to_, found, gone⟩ | ⟨gone, pending, found, -⟩ | ⟨rfl, few, stableThrough, found⟩ |
      ⟨rfl, large, peers, stableThrough, found⟩)
    · obtain ⟨sender, hs⟩ := h.sender id to_ found
      simp [gone] at hs
    · obtain ⟨receiver, hr⟩ := h.receiver pending found
      simp [gone] at hr
    · have enough : c.config.quorum ≤ c.progress.keys.length + 1 := by
        rcases (stays.2 stableThrough).1 found with leader | alone
        · exact quorum_le c.config (wf.leads leader)
        · omega
      omega
    · rcases (stays.2 stableThrough).2 found with fits | alone
      · omega
      · exact peers (c.config.peers_eq_nil alone)
  | _ => exact id

theorem RaftCore.new_counterparts (config : Config) (recovered : RecoveredState C) :
    Counterparts (RaftCore.new config recovered) where
  receiver := by rintro pending ⟨⟩
  sender := by intro id to_ h; simp [RaftCore.new] at h
  reason := by rintro ⟨⟩

/-- No step of a cluster panics while no counterpart of an outstanding effect is removed and the
windows of a new leader can be created. -/
theorem step_ne_panic [Sha256] (config : NodeId → Config) (recovered : NodeId → RecoveredState C)
    {history : List (NodeId × Record C)} {cores : NodeId → RaftCore C}
    (run : Run (fun node => RaftCore.new (config node) (recovered node)) history cores)
    (node : NodeId) (stay : Holds CounterpartStays (localHistory history node)) (event : Event C)
    (stays : CounterpartStays (localHistory history node) (cores node) event) :
    (step (cores node) event).1 ≠ Outcome.panic := by
  intro hpanic
  obtain ⟨reason, hrun⟩ := Trace.invariant counterparts_keep (fun _ _ _ h => h.1)
    (RaftCore.new_wf _ _) (RaftCore.new_counterparts _ _) (run.trace node) stay
  by_cases hstop : (cores node).stopped = true
  · obtain ⟨r, hr⟩ := reason hstop
    unfold step at hpanic
    rw [if_pos hstop, hr] at hpanic
    cases event <;> simp at hpanic
  · obtain ⟨wf, counterparts⟩ := hrun.resolve_left hstop
    have hcases := step_cases wf (by simpa using hstop) event
    rw [hpanic] at hcases
    generalize (step (cores node) event).2 = c' at hcases
    cases hcases with
    | panicked _ panics => exact counterparts.not_panics wf stays panics

/-- `CounterpartStays` as a check. -/
def counterpartStaysCheck (c : RaftCore C) (event : Event C) : Bool :=
  Room c && match event with
    | .effectCompleted _ (.snapshotInstalled _) => c.pendingChunkStore = none
    | .messageReceived envelope => match envelope.message with
      | .installSnapshotResponse _ true => envelope.from_ ∉ c.pendingSnapshotReads.values
      | _ => true
    | .effectCompleted _ .persisted => match c.pendingPersist with
      | some ⟨_, _, .replicateProposal⟩ => c.role = .leader
      | some ⟨_, _, .activateLeader⟩ => c.config.maxInflightAppends ≤ maxCapacity
      | _ => true
    | _ => true

theorem counterpartStays_of_check (history : List (Record C)) (c : RaftCore C) (event : Event C)
    (h : counterpartStaysCheck c event = true) : CounterpartStays history c event := by
  unfold counterpartStaysCheck at h
  rw [Bool.and_eq_true] at h
  refine ⟨of_decide_eq_true h.1, ?_⟩
  split
  · exact fun _ _ _ _ => of_decide_eq_true h.2
  · intro term is _ _
    simpa [is] using h.2
  · refine fun stableThrough => ⟨fun found => ?_, fun found => ?_⟩
    · simp only [found] at h
      exact .inl (of_decide_eq_true h.2)
    · simp only [found] at h
      exact .inl (of_decide_eq_true h.2)
  · trivial

/-- SHA-256 of a body that is the letter `a`. -/
@[reducible] def sha256Letter : Sha256 := ⟨fun _ => ⟨[
  0xca, 0x97, 0x81, 0x12, 0xca, 0x1b, 0xbd, 0xca, 0xfa, 0xc2, 0x31, 0xb3, 0x9a, 0x23, 0xdc, 0x4d,
  0xa7, 0x86, 0xef, 0xf8, 0x14, 0x7c, 0x4e, 0x72, 0xb9, 0x80, 0x77, 0x85, 0xaf, 0xee, 0x48, 0xbb]⟩⟩

def letterBody : SnapshotMetadata :=
  { emptyBody 7 2 1 Nat.two_pos Nat.zero_lt_one with
    size := 1, digest := sha256Letter.digest [0x61] }

/-- Node 3 gets the only chunk of a snapshot from node 1 and is about to install it. -/
def letterReceived : List (Move Nat) := Script.commitTwo ++
  [.event 1 .snapshotRequested, Script.done 1 8 (.snapshotBuilt letterBody ⟨[]⟩),
    Script.persisted 1 9, Script.done 1 10 (.compacted 2), Script.deliver 17,
    Script.done 1 11 (.snapshotChunkRead 7 0 [0x61] true), Script.deliver 18,
    Script.done 3 4 (.snapshotChunkStored 7 1 (some ⟨[]⟩)), Script.persisted 3 5]

/-- The chunk is not duplicated, and the install returns. -/
theorem step_ne_panic_installing : ∃ w : World Nat,
    @Run Nat sha256Letter trio w.history (w.core trio) ∧
    (@step Nat sha256Letter (w.core trio 3)
      (.effectCompleted ⟨0, 6⟩ (.snapshotInstalled 7))).1 ≠ Outcome.panic := by
  let _ : Sha256 := sha256Letter
  obtain ⟨w, run, checked⟩ := World.exec_any trio letterReceived
    (fun w => ((localHistory w.history 3).all fun r => counterpartStaysCheck r.before r.event) &&
      counterpartStaysCheck (w.core trio 3) (.effectCompleted ⟨0, 6⟩ (.snapshotInstalled 7)))
    (by decide +kernel)
  rw [Bool.and_eq_true] at checked
  refine ⟨w, run, ?_⟩
  exact step_ne_panic trioConfigs (fun _ => .initial) run 3
    (Holds.of_all counterpartStays_of_check checked.1) _ (counterpartStays_of_check _ _ _ checked.2)

/-- The network delivers the chunk again, and its second store outlives the receiver. -/
theorem duplicate_chunk_panics : ¬ ∀ (history : List (NodeId × Record Nat))
    (cores : NodeId → RaftCore Nat), @Run Nat sha256Letter trio history cores →
    ∀ (node : NodeId) (event : Event Nat), Allowed (localHistory history node) event →
      Delivered history node event →
      (@step Nat sha256Letter (cores node) event).1 ≠ Outcome.panic := by
  let _ : Sha256 := sha256Letter
  intro h
  let stored : Event Nat := .effectCompleted ⟨0, 7⟩ (.snapshotChunkStored 7 1 (some ⟨[]⟩))
  obtain ⟨w, run, bad⟩ := World.exec_any trio
    (letterReceived ++ [Script.deliver 18, Script.done 3 6 (.snapshotInstalled 7)])
    (fun w => w.allowed 3 stored && (step (w.core trio 3) stored).1 = Outcome.panic)
    (by decide +kernel)
  rw [Bool.and_eq_true] at bad
  obtain ⟨allowed, delivered⟩ := World.allowed_sound bad.1
  exact h _ _ run 3 stored allowed delivered (of_decide_eq_true bad.2)

end Ruft
