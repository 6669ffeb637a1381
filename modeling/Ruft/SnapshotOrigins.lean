import Ruft.LogMatching

set_option autoImplicit false

/-!
# Where snapshots come from

A snapshot description moves through a cluster in messages, in storage effects and in
the fields of the two pipelines. No step makes one up: what a core holds after a step
it held before, or the event brought it in, in a chunk of a snapshot or in the report
of a build that the core had asked for and has checked against its log.

## Main definitions

- `RaftCore.About`, `Effect.About` — the snapshots of a core or an effect have a property
- `Brings` — the event brings a snapshot in
- `Origin` — a snapshot that was built by a core of the run, or that a node started with

## Main results

- `snapshots_built` — every snapshot in a cluster has an origin
-/

namespace Ruft

open Program StepM

variable {C : Type} {c d : RaftCore C} {event : Event C} {s : Ctx C}
  {P : SnapshotMetadata → Prop}

def IncomingSnapshotState.record : IncomingSnapshotState → SnapshotRecord
  | .persisting _ record _ _ | .installing _ record _ _ => record

def LocalSnapshotState.record? : LocalSnapshotState → Option SnapshotRecord
  | .persisting _ record | .compacting _ record => some record
  | .idle | .building _ _ => none

/-- The snapshot that an effect is about. -/
def Effect.snapshot? : Effect C → Option SnapshotMetadata
  | .sendMessage _ (.installSnapshot _ metadata _ _ _) => some metadata
  | .persist _ batch => batch.snapshot.map (·.metadata)
  | .readSnapshotChunk _ snapshot _ _ => some snapshot.metadata
  | .storeSnapshotChunk _ metadata _ _ => some metadata
  | .installSnapshot _ record => some record.metadata
  | _ => none

def Effect.About (P : SnapshotMetadata → Prop) (e : Effect C) : Prop :=
  ∀ m, e.snapshot? = some m → P m

/-- Every snapshot that the core stores, sends, receives, installs or writes has the property. -/
structure RaftCore.About (P : SnapshotMetadata → Prop) (c : RaftCore C) : Prop where
  stored : ∀ record, c.log.snapshot = some record → P record.metadata
  sending : ∀ node sender, c.snapshotSenders.get node = some sender → P sender.snapshot.metadata
  receiving : ∀ receiver, c.incomingSnapshot = some receiver → P receiver.metadata
  installing : ∀ state, c.incomingSnapshotState = some state → P state.record.metadata
  writing : ∀ record, c.localSnapshot.record? = some record → P record.metadata

structure Ctx.About (P : SnapshotMetadata → Prop) (s : Ctx C) : Prop where
  core : s.core.About P
  effects : ∀ e ∈ s.effects, e.About P

/-- The event brings the snapshot in: as a chunk, or as the report of a build that the core
asked for and that its log bears out. -/
inductive Brings (c : RaftCore C) : Event C → SnapshotMetadata → Prop
  | chunk (envelope : Envelope C) (term : Nat) (metadata : SnapshotMetadata) (offset : Nat)
      (bytes : Bytes) (done : Bool)
      (message : envelope.message = .installSnapshot term metadata offset bytes done) :
      Brings c (.messageReceived envelope) metadata
  | built (id : EffectId) (metadata : SnapshotMetadata) (snapshotRef : SnapshotRef)
      (asked : c.localSnapshot = .building id metadata.index)
      (term : c.log.term metadata.index = .ok metadata.term)
      (members : metadata.members = c.config.members) :
      Brings c (.effectCompleted id (.snapshotBuilt metadata snapshotRef)) metadata

/-! ## What a step does first -/

theorem Effect.About.of_none {e : Effect C} (plain : e.snapshot? = none) : e.About P := by
  intro m is
  simp [plain] at is

/-- The only effect names a snapshot with the property. -/
theorem Effect.About.only {e : Effect C} {m : SnapshotMetadata} (names : e.snapshot? = some m)
    (h : P m) : ∀ e' ∈ [e], e'.About P := by
  intro e' among m' named
  obtain rfl := List.mem_singleton.mp among
  obtain rfl := Option.some.inj (names.symm.trans named)
  exact h

/-- The only effect names none. -/
theorem Effect.About.silent {e : Effect C} (plain : e.snapshot? = none) :
    ∀ e' ∈ [e], e'.About P := by
  intro e' among
  obtain rfl := List.mem_singleton.mp among
  exact .of_none plain

/-- A step that leaves the snapshots and names none. -/
theorem Ctx.About.same (h : c.About P) (log : s.core.log.snapshot = c.log.snapshot)
    (senders : s.core.snapshotSenders = c.snapshotSenders)
    (receiver : s.core.incomingSnapshot = c.incomingSnapshot)
    (incoming : s.core.incomingSnapshotState = c.incomingSnapshotState)
    (building : s.core.localSnapshot = c.localSnapshot)
    (plain : ∀ e ∈ s.effects, e.snapshot? = none) : s.About P where
  core := ⟨by rw [log]; exact h.stored, by rw [senders]; exact h.sending,
    by rw [receiver]; exact h.receiving, by rw [incoming]; exact h.installing,
    by rw [building]; exact h.writing⟩
  effects e he := .of_none (plain e he)

theorem Refusal.plain {reply : Message C} (refusal : Refusal c reply) (to_ : NodeId) :
    ∀ e ∈ [Effect.sendMessage to_ reply], e.snapshot? = none := by
  intro e he
  obtain rfl := List.mem_singleton.mp he
  cases refusal <;> rfl

theorem toPeers_plain {config : Config} {m : Message C}
    (plain : ∀ to_, (Effect.sendMessage to_ m).snapshot? = none) :
    ∀ e ∈ toPeers config m, e.snapshot? = none := by
  intro e he
  obtain ⟨to_, -, rfl⟩ := List.mem_map.mp he
  exact plain to_

theorem MessageAct.about {envelope : Envelope C} (h : c.About P)
    (act : MessageAct c envelope.from_ envelope.message s)
    (brings : ∀ m, Brings c (.messageReceived envelope) m → P m) : s.About P := by
  generalize is : envelope.message = m at act
  cases act with
  | refused m reply refusal => exact .same h rfl rfl rfl rfl rfl (refusal.plain _)
  | appendRefused term prev prevTerm leaderCommit context entries same reply refusal =>
    exact .same h rfl rfl rfl rfl rfl (refusal.plain _)
  | appendAccepted term prev prevTerm leaderCommit context entries log appended hardState reached
      prefix_ run merge =>
    exact .same h merge.snapshot_eq rfl rfl rfl rfl (by simp [Ctx.queued, Effect.snapshot?])
  | senderDone =>
    refine ⟨{ h with sending := fun node sender found => ?_ }, by simp⟩
    rw [BTreeMap.get_remove] at found
    split at found
    · simp at found
    · exact h.sending node sender found
  | receiverTouched term metadata offset bytes done receiver reached same =>
    refine ⟨{ h with receiving := fun other found => ?_ }, by simp⟩
    obtain rfl := Option.some.inj found
    exact same ▸ brings metadata (.chunk envelope term metadata offset bytes done is)
  | chunkAccepted term metadata offset bytes done receiver reached fresh same =>
    have brought : P metadata := brings metadata (.chunk envelope term metadata offset bytes done is)
    refine ⟨{ h with receiving := fun other found => ?_ }, .only rfl brought⟩
    obtain rfl := Option.some.inj found
    exact same ▸ brought
  | _ => exact .same h rfl rfl rfl rfl rfl (by simp [Ctx.queued, Effect.snapshot?])

theorem CompletionAct.about [Sha256] {id : EffectId} {outcome : EffectOutcome} (wf : c.WF)
    (h : c.About P) (act : CompletionAct c id outcome s)
    (brings : ∀ m, Brings c (.effectCompleted id outcome) m → P m) : s.About P := by
  cases act with
  | chunkRead snapshotId offset bytes done to_ sender advanced pending found same moved =>
    have kept : P sender.snapshot.metadata := h.sending to_ sender found
    -- a sender that moves on keeps its snapshot
    have snapshot : advanced.snapshot = sender.snapshot := by
      unfold SnapshotSender.advance at moved
      split at moved
      · obtain rfl := Option.some.inj moved
        rfl
      · simp at moved
    refine ⟨{ h with sending := fun node other found' => ?_ }, .only rfl kept⟩
    rw [BTreeMap.get_insert] at found'
    split at found'
    · obtain rfl := Option.some.inj found'
      exact snapshot ▸ kept
    · exact h.sending node other found'
  | transferDone snapshotId nextOffset snapshotRef pending receiver found same done received =>
    have kept : P receiver.metadata := h.receiving receiver received
    refine ⟨{ h with installing := fun state found' => ?_ }, .only rfl kept⟩
    obtain rfl := Option.some.inj found'
    exact kept
  | snapshotPersisted record from_ term found =>
    have kept : P record.metadata := h.installing _ found
    refine ⟨{ h with installing := fun state found' => ?_ }, .only rfl kept⟩
    obtain rfl := Option.some.inj found'
    exact kept
  | installed snapshotId record from_ term log found install =>
    have kept : P record.metadata := h.installing _ found
    refine ⟨{ h with
      stored := fun other found' => ?_, receiving := by simp, installing := by simp }, .silent rfl⟩
    rw [wf.log.installSnapshot, Except.ok.injEq] at install
    subst install
    obtain rfl := Option.some.inj found'
    exact kept
  | built metadata snapshotRef through found valid =>
    obtain ⟨rfl, term, members⟩ := valid
    have brought : P metadata := brings metadata (.built id metadata snapshotRef found term members)
    refine ⟨{ h with writing := fun other found' => ?_ }, .only rfl brought⟩
    obtain rfl := Option.some.inj found'
    exact brought
  | recordPersisted record found =>
    have kept : P record.metadata := h.writing record (by rw [found]; rfl)
    refine ⟨{ h with writing := fun other found' => ?_ }, .silent rfl⟩
    obtain rfl := Option.some.inj found'
    exact kept
  | compacted record log found compact =>
    have kept : P record.metadata := h.writing record (by rw [found]; rfl)
    refine ⟨{ h with stored := fun other found' => ?_, writing := fun other found' => ?_ }, by simp⟩
    · obtain ⟨-, -, rfl⟩ := wf.log.compact_eq_ok compact
      obtain rfl := Option.some.inj found'
      exact kept
    · simp [LocalSnapshotState.record?] at found'
  | compactFailed record found =>
    refine ⟨{ h with writing := fun other found' => ?_ }, by simp⟩
    simp [LocalSnapshotState.record?] at found'
  | applyDone =>
    refine .same h rfl rfl rfl rfl rfl fun e he => ?_
    obtain ⟨binding, -, he⟩ := List.mem_flatMap.mp he
    obtain ⟨proposalId, -, rfl⟩ := List.mem_map.mp he
    rfl
  | votesRequested => exact .same h rfl rfl rfl rfl rfl (toPeers_plain fun _ => rfl)
  | _ => exact .same h rfl rfl rfl rfl rfl (by simp [Ctx.queued, Effect.snapshot?])

theorem Ctx.roundStarted_plain (s : Ctx C) (readId : ReadId)
    (plain : ∀ e ∈ s.effects, e.About P) : ∀ e ∈ (s.roundStarted readId).effects, e.About P := by
  unfold Ctx.roundStarted
  dsimp only
  split
  · exact plain
  · intro e he
    rcases List.mem_append.mp he with he | he
    · exact plain e he
    · exact .of_none (toPeers_plain (fun _ => rfl) e he)

theorem Act.about [Sha256] (wf : c.WF) (h : c.About P) (act : Act c event s)
    (brings : ∀ m, Brings c event m → P m) : s.About P := by
  cases act with
  | message envelope members s known mine act =>
    refine act.about (c := { c with activeMembers := members }) { h with } fun m hm => ?_
    cases hm with
    | chunk _ term metadata offset bytes done message =>
      exact brings _ (.chunk envelope term m offset bytes done message)
  | completed id outcome s act => exact act.about wf h brings
  | preVoteStarted => exact .same h rfl rfl rfl rfl rfl (toPeers_plain fun _ => rfl)
  | readStarted readId =>
    obtain ⟨round, hr⟩ := Ctx.roundStarted_core ⟨c, []⟩ readId
    exact ⟨by rw [hr]; exact { h with }, Ctx.roundStarted_plain _ _ (by simp)⟩
  | _ => exact .same h rfl rfl rfl rfl rfl (by simp [Ctx.queued, Effect.snapshot?])

/-! ## Follow-ups -/

theorem Ctx.About.append {new : List (Effect C)} (h : s.About P) (core : d.About P)
    (named : ∀ e ∈ new, e.About P) : Ctx.About P ⟨d, s.effects ++ new⟩ where
  core := core
  effects e he := (List.mem_append.mp he).elim (h.effects e) (named e)

theorem FollowUp.about {cause : Cause C} {s s' : Ctx C} (h : s.About P)
    (hf : FollowUp cause s s') : s'.About P := by
  obtain ⟨core, effects⟩ := h
  have kept : ∀ {d : RaftCore C} {new : List (Effect C)}, d.About P →
      (∀ e ∈ new, e.snapshot? = none) → Ctx.About P ⟨d, s.effects ++ new⟩ := fun about plain =>
    Ctx.About.append ⟨core, effects⟩ about fun e he => .of_none (plain e he)
  cases hf with
  | applied entries => exact kept { core with } (by simp [Effect.snapshot?])
  | appendSent => exact kept { core with } (by simp [Effect.snapshot?])
  | senderCreated to_ snapshot log =>
    refine ⟨{ core with sending := fun node sender found => ?_ }, effects⟩
    rw [BTreeMap.get_insert] at found
    split at found
    · obtain rfl := Option.some.inj found
      exact core.stored snapshot log
    · exact core.sending node sender found
  | chunkRequested to_ sender idle found =>
    exact Ctx.About.append ⟨core, effects⟩ { core with } (.only rfl (core.sending to_ sender found))
  | committed => exact kept { core with } (by simp [Effect.snapshot?])
  | readReleased round index =>
    exact kept { core with } (by simp [Effect.snapshot?])
  | readStarted readId rest =>
    obtain ⟨round, hr⟩ :=
      Ctx.roundStarted_core ⟨{ s.core with pendingReads := rest }, s.effects⟩ readId
    exact ⟨by rw [hr]; exact { core with },
      Ctx.roundStarted_plain _ _ effects⟩
  | buildRequested idle =>
    refine kept { core with writing := fun other found => ?_ } (by simp [Effect.snapshot?])
    simp [LocalSnapshotState.record?] at found
  | _ => exact ⟨{ core with }, effects⟩

theorem FollowUps.about {cause : Cause C} {s s' : Ctx C} (h : s.About P)
    (rest : FollowUps cause s s') : s'.About P := by
  induction rest with
  | refl => exact h
  | tail _ hstep ih => exact hstep.about ih

/-! ## Steps and runs -/

/-- A step of a core with room for its effects is about snapshots it held, or got with the
event. -/
theorem step_about [Sha256] {result : Outcome StepError (StepOutput C)} (wf : c.WF) (h : c.About P)
    (room : Room c) (running : c.stopped = false) (run : step c event = (result, d))
    (returns : result ≠ Outcome.panic) (brings : ∀ m, Brings c event m → P m) :
    (d.stopped = false → d.About P) ∧ ∀ e ∈ (Record.mk c event result d).effects, e.About P := by
  have cases := step_cases wf running event
  rw [run] at cases
  have followed : ∀ {s : Ctx C}, Path c event s → s.About P := by
    rintro s ⟨s₀, s, act, rest⟩
    exact FollowUps.about (act.about wf h brings) rest
  cases cases with
  | panicked => exact absurd rfl returns
  | halted | crashed | invalid =>
    exact ⟨fun alive => by simp at alive, by simp [Record.effects]⟩
  | failed s e path => exact ⟨fun _ => (followed path).core, by simp [Record.effects]⟩
  | stuck e s stuck => exact absurd room stuck.full
  | returned s changed path =>
    obtain ⟨core, effects⟩ := followed path
    obtain ⟨proposals, hp⟩ := s.finished_core c
    obtain ⟨new, he, results⟩ := s.finished_effects c
    have about : (s.finished c).core.About P := by
      rw [hp]
      exact { core with }
    refine ⟨fun _ => about, fun e among => ?_⟩
    have among : e ∈ (s.finished c).effects := among
    rw [he] at among
    rcases List.mem_append.mp among with old | fresh
    · exact effects e old
    · obtain ⟨p, result, rfl⟩ := results e fresh
      exact .of_none rfl

/-- A snapshot that a node started with, or that a core of the run asked its host for and
checked. -/
inductive Origin (recovered : NodeId → RecoveredState C) (history : List (NodeId × Record C))
    (m : SnapshotMetadata) : Prop
  | recovered (node : NodeId) (record : SnapshotRecord)
      (found : (recovered node).snapshot = some record) (is : record.metadata = m)
  | built (node : NodeId) (r : Record C) (among : (node, r) ∈ history) (id : EffectId)
      (snapshotRef : SnapshotRef)
      (event : r.event = .effectCompleted id (.snapshotBuilt m snapshotRef))
      (asked : r.before.localSnapshot = .building id m.index)
      (term : r.before.log.term m.index = .ok m.term)
      (members : m.members = r.before.config.members)

theorem Origin.mono {recovered : NodeId → RecoveredState C}
    {history history' : List (NodeId × Record C)} {m : SnapshotMetadata}
    (h : Origin recovered history m) (grows : history ⊆ history') : Origin recovered history' m := by
  cases h with
  | recovered node record found is => exact .recovered node record found is
  | built node r among id snapshotRef event asked term members =>
    exact .built node r (grows among) id snapshotRef event asked term members

theorem RaftCore.About.imp {Q : SnapshotMetadata → Prop} (h : c.About P)
    (implies : ∀ m, P m → Q m) : c.About Q where
  stored record found := implies _ (h.stored record found)
  sending node sender found := implies _ (h.sending node sender found)
  receiving receiver found := implies _ (h.receiving receiver found)
  installing state found := implies _ (h.installing state found)
  writing record found := implies _ (h.writing record found)

/-- In a cluster whose cores take and exchange snapshots, every snapshot that a step names or
that a running core holds was built and checked earlier by some core, or a node started with it. -/
theorem snapshots_built [Sha256] (config : NodeId → Config) (recovered : NodeId → RecoveredState C)
    {history : List (NodeId × Record C)} {cores : NodeId → RaftCore C}
    (run : Run (fun node => RaftCore.new (config node) (recovered node)) history cores)
    (room : ∀ p ∈ history, Room p.2.before) :
    Meets (fun earlier p =>
      (p.2.after.stopped = false → p.2.after.About (Origin recovered (p :: earlier))) ∧
      ∀ e ∈ p.2.effects, e.About (Origin recovered (p :: earlier))) history := by
  induction run with
  | start => trivial
  | @step history cores node d event result earlier local_ allowed delivered run returns ih =>
    obtain ⟨roomNow, roomBefore⟩ := List.forall_mem_cons.mp room
    have before := ih roomBefore
    refine ⟨?_, before⟩
    show (d.stopped = false → d.About _) ∧ ∀ e ∈ (Record.mk (cores node) event result d).effects, _
    by_cases stopped : (cores node).stopped = true
    · obtain ⟨rfl, silent⟩ := step_stopped stopped run
      exact ⟨fun alive => absurd stopped (by simp [alive]), by rw [silent]; simp⟩
    have running : (cores node).stopped = false := by simpa using stopped
    have wf := (earlier.trace node).wf.resolve_left stopped
    have held : (cores node).About (Origin recovered history) := by
      rcases earlier.core_cases node with first | ⟨r, hr, same⟩
      · rw [first]
        exact ⟨fun record found => .recovered node record found rfl, by simp [RaftCore.new],
          by simp [RaftCore.new], by simp [RaftCore.new],
          by simp [RaftCore.new, LocalSnapshotState.record?]⟩
      · obtain ⟨later, old, rfl, about, -⟩ := before.of_mem hr
        rw [← same] at running ⊢
        exact (about running).imp fun m h => h.mono (List.subset_append_right _ _)
    refine step_about wf (held.imp fun m h => h.mono (List.subset_cons_self _ _)) roomNow running run
      returns fun m brings => ?_
    cases brings with
    | chunk envelope term metadata offset bytes done message =>
      -- the envelope was sent by an earlier step, which named the snapshot
      obtain ⟨-, r, hr, sent⟩ := delivered
      obtain ⟨later, old, rfl, -, about⟩ := before.of_mem hr
      rw [message] at sent
      exact (about _ sent m rfl).mono fun p hp =>
        List.mem_cons_of_mem _ (List.mem_append_right _ hp)
    | built id metadata snapshotRef asked term members =>
      exact .built node _ (List.mem_cons_self ..) id snapshotRef rfl asked term members

/-- Node 3 installs the snapshot that node 1 built. -/
theorem snapshots_built_installed : ∃ w : World Nat,
    @Run Nat sha256Empty trio w.history (w.core trio) ∧
    (∃ p ∈ w.history, ∃ e ∈ p.2.effects, p.1 = 3 ∧ e.snapshot?.map (·.id) = some 7) ∧
    Meets (fun earlier p =>
      (p.2.after.stopped = false → p.2.after.About (Origin (fun _ => .initial) (p :: earlier))) ∧
      ∀ e ∈ p.2.effects, e.About (Origin (fun _ => .initial) (p :: earlier))) w.history := by
  let _ : Sha256 := sha256Empty
  obtain ⟨w, run, checked⟩ := World.exec_any trio Script.receiveSnapshot
    (fun w => (w.history.any fun p => p.2.effects.any fun e =>
        (p.1 = 3) && (e.snapshot?.map (·.id) = some 7)) &&
      (w.history.all fun p => Room p.2.before))
    (by decide +kernel)
  simp only [Bool.and_eq_true] at checked
  obtain ⟨installs, room⟩ := checked
  refine ⟨w, run, by simpa using installs, ?_⟩
  exact snapshots_built trioConfigs (fun _ => .initial) run
    fun p hp => of_decide_eq_true (List.all_eq_true.mp room p hp)

end Ruft
