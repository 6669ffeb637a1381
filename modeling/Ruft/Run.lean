import Ruft.StepCases

set_option autoImplicit false

/-!
# Runs

A `Trace` is a run of one core under arbitrary messages, a `Run` one of a cluster in
which a message is only delivered after it was sent, any number of times and in any
order. In both the host only reports outcomes of effects that a step returned. A run
does not continue after a panic.

## Main definitions

- `Trace`, `Run` — the runs of one core and of a cluster
- `Meets` — every step of a history satisfies a condition on what came before it
- `Keeps` — an invariant over histories, checked act by act
-/

namespace Ruft

variable {C : Type}

/-- One step of a core. -/
structure Record (C : Type) where
  before : RaftCore C
  event : Event C
  result : Outcome StepError (StepOutput C)
  after : RaftCore C

/-- The effects the host got: those of a step that returned. -/
def Record.effects (r : Record C) : List (Effect C) :=
  match r.result with
  | .ok output => output.effects
  | .error _ => []

/-- The step took a report of the effect. -/
def Record.reports (r : Record C) (id : EffectId) : Bool :=
  match r.event with
  | .effectCompleted i _ => i = id
  | _ => false

/-- The id under which the host reports an effect. -/
def Effect.id? : Effect C → Option EffectId
  | .persist id _ | .apply id _ | .readSnapshotChunk id _ _ _ | .storeSnapshotChunk id _ _ _
  | .installSnapshot id _ | .buildSnapshot id _ | .compactLog id _ => some id
  | _ => none

/-- The outcomes a host may report for an effect: success with the effect's own data, or
failure. -/
inductive Effect.Reports : Effect C → EffectId → EffectOutcome → Prop
  | persisted (id : EffectId) (batch : PersistBatch C) : Reports (.persist id batch) id .persisted
  | applied (id : EffectId) (entries : List (Entry C)) (last : Entry C)
      (h : entries.getLast? = some last) : Reports (.apply id entries) id (.applied last.index)
  | chunkRead (id : EffectId) (snapshot : SnapshotRecord) (offset maxLen : Nat) (bytes : Bytes)
      (done : Bool) (h : bytes.length ≤ maxLen) :
      Reports (.readSnapshotChunk id snapshot offset maxLen) id
        (.snapshotChunkRead snapshot.metadata.id offset bytes done)
  | chunkStored (id : EffectId) (metadata : SnapshotMetadata) (offset : Nat) (bytes : Bytes)
      (snapshotRef : Option SnapshotRef) : Reports (.storeSnapshotChunk id metadata offset bytes) id
        (.snapshotChunkStored metadata.id (offset + bytes.length) snapshotRef)
  | installed (id : EffectId) (record : SnapshotRecord) :
      Reports (.installSnapshot id record) id (.snapshotInstalled record.metadata.id)
  | built (id : EffectId) (through : Nat) (metadata : SnapshotMetadata) (snapshotRef : SnapshotRef)
      (h : metadata.index = through) :
      Reports (.buildSnapshot id through) id (.snapshotBuilt metadata snapshotRef)
  | compacted (id : EffectId) (through : Nat) :
      Reports (.compactLog id through) id (.compacted through)
  | failed (effect : Effect C) (id : EffectId) (h : effect.id? = some id) :
      Reports effect id .failed

theorem Effect.Reports.id_eq {e : Effect C} {id : EffectId} {outcome : EffectOutcome}
    (h : e.Reports id outcome) : e.id? = some id := by
  cases h with
  | failed effect id h => exact h
  | _ => rfl

/-- An outcome is only reported for an effect that an earlier step returned. -/
def Allowed (history : List (Record C)) : Event C → Prop
  | .effectCompleted id outcome => ∃ r ∈ history, ∃ e ∈ r.effects, e.Reports id outcome
  | _ => True

/-- The runs of one core; the newest step comes first. -/
inductive Trace [Sha256] (init : RaftCore C) : List (Record C) → RaftCore C → Prop
  | start : Trace init [] init
  | step {history : List (Record C)} {c c' : RaftCore C} {event : Event C}
      {result : Outcome StepError (StepOutput C)} (earlier : Trace init history c)
      (allowed : Allowed history event) (run : step c event = (result, c'))
      (returns : result ≠ Outcome.panic) :
      Trace init (⟨c, event, result, c'⟩ :: history) c'

/-- The steps of one node. -/
def localHistory (history : List (NodeId × Record C)) (node : NodeId) : List (Record C) :=
  (history.filter (·.1 = node)).map (·.2)

/-- The envelope was sent by an earlier step of its sender. -/
def Sent (history : List (NodeId × Record C)) (envelope : Envelope C) : Prop :=
  ∃ r, (envelope.from_, r) ∈ history ∧ .sendMessage envelope.to_ envelope.message ∈ r.effects

def Delivered (history : List (NodeId × Record C)) (node : NodeId) : Event C → Prop
  | .messageReceived envelope => envelope.to_ = node ∧ Sent history envelope
  | _ => True

/-- The runs of a cluster. -/
inductive Run [Sha256] (init : NodeId → RaftCore C) :
    List (NodeId × Record C) → (NodeId → RaftCore C) → Prop
  | start : Run init [] init
  | step {history : List (NodeId × Record C)} {cores : NodeId → RaftCore C} {node : NodeId}
      {c' : RaftCore C} {event : Event C} {result : Outcome StepError (StepOutput C)}
      (earlier : Run init history cores) (local_ : (init node).config.localId = node)
      (allowed : Allowed (localHistory history node) event)
      (delivered : Delivered history node event) (run : step (cores node) event = (result, c'))
      (returns : result ≠ Outcome.panic) :
      Run init ((node, ⟨cores node, event, result, c'⟩) :: history)
        (Function.update cores node c')

/-- A node of a cluster runs as a core of its own. -/
theorem Run.trace [Sha256] {init : NodeId → RaftCore C} {history : List (NodeId × Record C)}
    {cores : NodeId → RaftCore C} (h : Run init history cores) (node : NodeId) :
    Trace (init node) (localHistory history node) (cores node) := by
  induction h with
  | start => exact .start
  | @step history cores n c' event result earlier local_ allowed delivered run returns ih =>
    by_cases hn : n = node
    · subst hn
      have : localHistory ((n, ⟨cores n, event, result, c'⟩) :: history) n =
          ⟨cores n, event, result, c'⟩ :: localHistory history n := by simp [localHistory]
      rw [this, Function.update_self]
      exact .step ih allowed run returns
    · have : localHistory ((n, ⟨cores n, event, result, c'⟩) :: history) node =
          localHistory history node := by simp [localHistory, hn]
      rw [this, Function.update_of_ne (Ne.symm hn)]
      exact ih

theorem mem_localHistory {history : List (NodeId × Record C)} {node : NodeId} {r : Record C} :
    r ∈ localHistory history node ↔ (node, r) ∈ history := by
  simp [localHistory]

/-- A node that takes a step runs under its own id. -/
theorem Run.localId [Sha256] {init : NodeId → RaftCore C} {history : List (NodeId × Record C)}
    {cores : NodeId → RaftCore C} (h : Run init history cores) {node : NodeId} {r : Record C}
    (hr : (node, r) ∈ history) : (init node).config.localId = node := by
  induction h with
  | start => simp at hr
  | step earlier local_ allowed delivered run returns ih =>
    rcases List.mem_cons.mp hr with same | old
    · obtain rfl := (Prod.mk.inj same).1
      exact local_
    · exact ih old

/-- A message that a node received was sent to it. -/
theorem Run.sent [Sha256] {init : NodeId → RaftCore C} {history : List (NodeId × Record C)}
    {cores : NodeId → RaftCore C} (h : Run init history cores) {node : NodeId} {r : Record C}
    {envelope : Envelope C} (hr : (node, r) ∈ history) (is : r.event = .messageReceived envelope) :
    envelope.to_ = node ∧ Sent history envelope := by
  induction h with
  | start => simp at hr
  | step earlier local_ allowed delivered run returns ih =>
    rcases List.mem_cons.mp hr with same | old
    · obtain ⟨rfl, rfl⟩ := Prod.mk.inj same
      subst is
      obtain ⟨rfl, s, hs, sends⟩ := delivered
      exact ⟨rfl, s, List.mem_cons_of_mem _ hs, sends⟩
    · obtain ⟨rfl, s, hs, sends⟩ := ih old
      exact ⟨rfl, s, List.mem_cons_of_mem _ hs, sends⟩

theorem Allowed.mono {history history' : List (Record C)} {event : Event C}
    (h : Allowed history event) (grows : history ⊆ history') : Allowed history' event := by
  cases event with
  | effectCompleted id outcome =>
    obtain ⟨r, hr, e, he, reports⟩ := h
    exact ⟨r, grows hr, e, he, reports⟩
  | _ => trivial

theorem Delivered.mono {history history' : List (NodeId × Record C)} {node : NodeId}
    {event : Event C} (h : Delivered history node event) (grows : history ⊆ history') :
    Delivered history' node event := by
  cases event with
  | messageReceived envelope =>
    obtain ⟨mine, r, hr, sends⟩ := h
    exact ⟨mine, r, grows hr, sends⟩
  | _ => trivial

/-- A run goes on as a run of the cores it reached. -/
theorem Run.append [Sha256] {init cores cores' : NodeId → RaftCore C}
    {history history' : List (NodeId × Record C)} (h : Run init history cores)
    (same : ∀ node, (cores node).config.localId = (init node).config.localId)
    (h' : Run cores history' cores') : Run init (history' ++ history) cores' := by
  induction h' with
  | start => exact h
  | step earlier local_ allowed delivered run returns ih =>
    refine .step ih ((same _).symm.trans local_) (allowed.mono fun r hr => ?_)
      (delivered.mono (List.subset_append_left _ _)) run returns
    exact mem_localHistory.mpr (List.mem_append_left _ (mem_localHistory.mp hr))

/-- Two elements of an ordered list are equal or stand in one of the two orders. -/
theorem pairwise_cases {α : Type} {R : α → α → Prop} {l : List α} (h : l.Pairwise R) {a b : α}
    (ha : a ∈ l) (hb : b ∈ l) : a = b ∨ R a b ∨ R b a := by
  obtain ⟨i, hi, rfl⟩ := List.mem_iff_getElem.mp ha
  obtain ⟨j, hj, rfl⟩ := List.mem_iff_getElem.mp hb
  have order := List.pairwise_iff_getElem.mp h
  rcases lt_trichotomy i j with lt | rfl | gt
  · exact .inr (.inl (order i j hi hj lt))
  · exact .inl rfl
  · exact .inr (.inr (order j i hj hi gt))

/-- Every step of a history satisfies a condition on the steps before it. -/
def Meets {R : Type} (condition : List R → R → Prop) : List R → Prop
  | [] => True
  | r :: earlier => condition earlier r ∧ Meets condition earlier

/-- A law of every step, wherever in the history the step is. -/
theorem Meets.of_mem {R : Type} {law : List R → R → Prop} {history : List R}
    (h : Meets law history) {r : R} (hr : r ∈ history) :
    ∃ later earlier, history = later ++ r :: earlier ∧ law earlier r := by
  induction history with
  | nil => simp at hr
  | cons r' history ih =>
    rcases List.mem_cons.mp hr with rfl | hr
    · exact ⟨[], history, rfl, h.1⟩
    · obtain ⟨later, earlier, rfl, law⟩ := ih h.2 hr
      exact ⟨r' :: later, earlier, rfl, law⟩

/-- A condition on the history, the core before the step and the event. -/
abbrev Condition (C : Type) := List (Record C) → RaftCore C → Event C → Prop

/-- Every step of the history satisfies the condition. -/
def Holds (condition : Condition C) (history : List (Record C)) : Prop :=
  Meets (fun earlier r => condition earlier r.before r.event) history

/-- The effect counter has not run out. -/
def Room (c : RaftCore C) : Prop := c.nextEffectSequence < u64Max

instance (c : RaftCore C) : Decidable (Room c) := inferInstanceAs (Decidable (_ < _))

/-- A core starts well formed. -/
theorem RaftCore.new_wf (config : Config) (recovered : RecoveredState C) :
    (RaftCore.new config recovered).WF := by
  obtain ⟨wf, hterm, hsnap, hcommit⟩ := recovered.facts
  refine ⟨wf, rfl, lt_of_le_of_lt hcommit wf.lastIndex_lt, hsnap, rfl, rfl, rfl, ?_, ?_, ?_, ?_⟩
  · rintro ⟨⟩
  · intro n p hp
    simp [RaftCore.new] at hp
  · rintro ⟨⟩
  · rintro p ⟨⟩

/-! ## Invariants of one core -/

/-- What is known when a running core takes a step. -/
structure Steps (condition : Condition C) (history : List (Record C)) (c : RaftCore C)
    (event : Event C) : Prop where
  wf : c.WF
  running : c.stopped = false
  allowed : Allowed history event
  meets : condition history c event

theorem Steps.imp {condition condition' : Condition C} {history : List (Record C)} {c : RaftCore C}
    {event : Event C} (hs : Steps condition history c event)
    (meets : condition' history c event) : Steps condition' history c event :=
  ⟨hs.wf, hs.running, hs.allowed, meets⟩

/-- An invariant `I` between the steps, `J` in the middle of a step, and what `I` implies, `P`,
which also holds of a core that has stopped. Effects of a step that fails are dropped. -/
structure Keeps [Sha256] (condition : Condition C) (I : List (Record C) → RaftCore C → Prop)
    (J : List (Record C) → RaftCore C → Event C → Ctx C → Prop)
    (P : List (Record C) → RaftCore C → Prop) : Prop where
  act : ∀ {history c event s}, Steps condition history c event → I history c →
    Act c event s → J history c event s
  followUp : ∀ {history c event s₀ s s'}, Steps condition history c event → Act c event s₀ →
    FollowUps ⟨c, event⟩ s₀ s → J history c event s → FollowUp ⟨c, event⟩ s s' →
    J history c event s'
  finished : ∀ {history c event s}, Steps condition history c event → J history c event s →
    J history c event (s.finished c)
  returned : ∀ {history c event s} (changed : Bool), Steps condition history c event →
    J history c event s → I (⟨c, event, .ok ⟨s.effects, changed⟩, s.core⟩ :: history) s.core
  failed : ∀ {history c event s} (e : StepError), Steps condition history c event →
    J history c event s → s.Unqueued → I (⟨c, event, Outcome.raise e, s.core⟩ :: history) s.core
  safe : ∀ {history c}, I history c → P history c
  ended : ∀ {history c event s} (e : StepError) (reason : StoppedReason),
    Steps condition history c event → J history c event s →
    P (⟨c, event, Outcome.raise e, s.core.stop reason⟩ :: history) (s.core.stop reason)
  halted : ∀ {history c c' event} (e : StepError) (reason : StoppedReason),
    Steps condition history c event → I history c → Halted c c' →
    P (⟨c, event, Outcome.raise e, c'.stop reason⟩ :: history) (c'.stop reason)
  idle : ∀ {history} (c : RaftCore C) (event : Event C) (result : Outcome StepError _),
    c.stopped = true → (Record.mk c event result c).effects = [] → P history c →
    P (⟨c, event, result, c⟩ :: history) c

/-- The core differs at most in its slots and in having stopped. -/
def RaftCore.Slowed (c d : RaftCore C) : Prop :=
  ∃ reads store incoming building applying persist stopped reason, d = { c with
    pendingSnapshotReads := reads, pendingChunkStore := store
    incomingSnapshotState := incoming, localSnapshot := building
    pendingApply := applying, pendingPersist := persist, stopped := stopped
    stoppedReason := reason }

theorem RaftCore.Slowed.refl (c : RaftCore C) : c.Slowed c := ⟨_, _, _, _, _, _, _, _, rfl⟩

theorem RaftCore.Slowed.stop (c : RaftCore C) (reason : StoppedReason) : c.Slowed (c.stop reason) :=
  ⟨_, _, _, _, _, _, _, _, rfl⟩

variable [Sha256] {condition : Condition C} {I P : List (Record C) → RaftCore C → Prop}
  {J : List (Record C) → RaftCore C → Event C → Ctx C → Prop}

theorem Keeps.path (hI : Keeps condition I J P) {history : List (Record C)} {c : RaftCore C}
    {event : Event C} {s : Ctx C} (hs : Steps condition history c event)
    (h : I history c) (hp : Path c event s) : J history c event s := by
  obtain ⟨s₀, s, act, rest⟩ := hp
  have h₀ := hI.act hs h act
  induction rest with
  | refl => exact h₀
  | tail hrest hstep ih => exact hI.followUp hs act hrest ih hstep

/-- Two invariants side by side. What the first one knows between steps may be used to meet the
condition of the second. -/
theorem Keeps.and {condition' : Condition C} {I' P' : List (Record C) → RaftCore C → Prop}
    {J' : List (Record C) → RaftCore C → Event C → Ctx C → Prop} (hI : Keeps condition I J P)
    (hI' : Keeps condition' I' J' P')
    (meets : ∀ {history c event}, Steps condition history c event → I history c →
      condition' history c event) :
    Keeps condition (fun history c => I history c ∧ I' history c)
      (fun history c event s => J history c event s ∧ J' history c event s ∧
        condition' history c event)
      (fun history c => P history c ∧ P' history c) where
  act hs h act := ⟨hI.act hs h.1 act, hI'.act (hs.imp (meets hs h.1)) h.2 act, meets hs h.1⟩
  followUp hs act rest h hf := ⟨hI.followUp hs act rest h.1 hf,
    hI'.followUp (hs.imp h.2.2) act rest h.2.1 hf, h.2.2⟩
  finished hs h := ⟨hI.finished hs h.1, hI'.finished (hs.imp h.2.2) h.2.1, h.2.2⟩
  returned changed hs h := ⟨hI.returned changed hs h.1, hI'.returned changed (hs.imp h.2.2) h.2.1⟩
  failed e hs h quiet := ⟨hI.failed e hs h.1 quiet, hI'.failed e (hs.imp h.2.2) h.2.1 quiet⟩
  safe h := ⟨hI.safe h.1, hI'.safe h.2⟩
  ended e reason hs h := ⟨hI.ended e reason hs h.1, hI'.ended e reason (hs.imp h.2.2) h.2.1⟩
  halted e reason hs h halt :=
    ⟨hI.halted e reason hs h.1 halt, hI'.halted e reason (hs.imp (meets hs h.1)) h.2 halt⟩
  idle c event result stopped silent h :=
    ⟨hI.idle c event result stopped silent h.1, hI'.idle c event result stopped silent h.2⟩

/-- A law of single steps that holds in the middle of each step, over an invariant. -/
structure StepLaw (condition : Condition C) (I : List (Record C) → RaftCore C → Prop)
    (J L : List (Record C) → RaftCore C → Event C → Ctx C → Prop) : Prop where
  act : ∀ {history c event s}, Steps condition history c event → I history c →
    Act c event s → J history c event s → L history c event s
  followUp : ∀ {history c event s s'}, J history c event s → L history c event s →
    FollowUp ⟨c, event⟩ s s' → L history c event s'
  finished : ∀ {history c event s}, L history c event s → L history c event (s.finished c)
  closed : ∀ {history c event s d effects}, L history c event s → s.core.Slowed d →
    effects ⊆ s.effects → L history c event ⟨d, effects⟩
  idle : ∀ (history c event), L history c event ⟨c, []⟩

/-- Every step of the history obeys the law. -/
abbrev Obeys (L : List (Record C) → RaftCore C → Event C → Ctx C → Prop)
    (history : List (Record C)) : Prop :=
  Meets (fun earlier r => L earlier r.before r.event ⟨r.after, r.effects⟩) history

theorem Keeps.law {L : List (Record C) → RaftCore C → Event C → Ctx C → Prop}
    (hI : Keeps condition I J P) (hL : StepLaw condition I J L) :
    Keeps condition (fun history c => I history c ∧ Obeys L history)
      (fun history c event s => J history c event s ∧ L history c event s ∧ Obeys L history)
      (fun history c => P history c ∧ Obeys L history) where
  act hs h act := ⟨hI.act hs h.1 act, hL.act hs h.1 act (hI.act hs h.1 act), h.2⟩
  followUp hs act rest h hf :=
    ⟨hI.followUp hs act rest h.1 hf, hL.followUp h.1 h.2.1 hf, h.2.2⟩
  finished hs h := ⟨hI.finished hs h.1, hL.finished h.2.1, h.2.2⟩
  returned changed hs h := ⟨hI.returned changed hs h.1,
    hL.closed h.2.1 (.refl _) (List.Subset.refl _), h.2.2⟩
  failed e hs h quiet := ⟨hI.failed e hs h.1 quiet,
    hL.closed h.2.1 (.refl _) (List.nil_subset _), h.2.2⟩
  safe h := ⟨hI.safe h.1, h.2⟩
  ended e reason hs h := ⟨hI.ended e reason hs h.1,
    hL.closed h.2.1 (.stop _ reason) (List.nil_subset _), h.2.2⟩
  halted e reason hs h halt := by
    refine ⟨hI.halted e reason hs h.1 halt, ?_, h.2⟩
    obtain ⟨-, reads, store, incoming, building, applying, persist, rfl⟩ := halt
    exact hL.closed (hL.idle _ _ _) ⟨_, _, _, _, _, _, _, _, rfl⟩ (List.nil_subset _)
  idle c event result stopped silent h := by
    refine ⟨hI.idle c event result stopped silent h.1, ?_, h.2⟩
    beta_reduce
    rw [silent]
    exact hL.idle _ _ _

/-- A stopped core answers with an error or nothing, and stays as it is. -/
theorem step_stopped {c c' : RaftCore C} {event : Event C}
    {result : Outcome StepError (StepOutput C)} (hstop : c.stopped = true)
    (run : step c event = (result, c')) :
    c' = c ∧ (Record.mk c event result c').effects = [] := by
  unfold step at run
  rw [hstop] at run
  simp only [if_true] at run
  cases event with
  | shutdown => simp only [Prod.mk.injEq] at run; obtain ⟨rfl, rfl⟩ := run; exact ⟨rfl, rfl⟩
  | tick => simp only [Prod.mk.injEq] at run; obtain ⟨rfl, rfl⟩ := run; exact ⟨rfl, rfl⟩
  | messageReceived => simp only [Prod.mk.injEq] at run; obtain ⟨rfl, rfl⟩ := run; exact ⟨rfl, rfl⟩
  | _ =>
    simp only at run
    split at run <;> (simp only [Prod.mk.injEq] at run; obtain ⟨rfl, rfl⟩ := run; exact ⟨rfl, rfl⟩)

/-- The invariant and the well-formedness of a running core hold along every trace whose
steps all meet the condition, when the invariant survives an exhausted effect counter. -/
theorem Trace.invariant_of_stuck {init : RaftCore C} (hI : Keeps condition I J P)
    (hstuck : ∀ {history c event e s}, Steps condition history c event → I history c →
      Stuck c (Act c event) e s → I (⟨c, event, Outcome.raise e, s.core⟩ :: history) s.core)
    (wf : init.WF) (start : I [] init) {history : List (Record C)} {c : RaftCore C}
    (ht : Trace init history c) (hm : Holds condition history) :
    P history c ∧ (c.stopped = true ∨ c.WF ∧ I history c) := by
  induction ht with
  | start => exact ⟨hI.safe start, .inr ⟨wf, start⟩⟩
  | @step history c c' event result earlier allowed run returns ih =>
    obtain ⟨hcond, hm⟩ := hm
    obtain ⟨hsafe, hwf⟩ := ih hm
    by_cases hstop : c.stopped = true
    · obtain ⟨rfl, heff⟩ := step_stopped hstop run
      exact ⟨hI.idle c' event result hstop heff hsafe, .inl hstop⟩
    have running : c.stopped = false := by simpa using hstop
    obtain ⟨hwf, hinv⟩ := hwf.resolve_left hstop
    have hsteps : Steps condition history c event := ⟨hwf, running, allowed, hcond⟩
    have hcases := step_cases hwf running event
    rw [run] at hcases
    have hpath : ∀ s, Path c event s → J history c event s := fun s => hI.path hsteps hinv
    cases hcases with
    | panicked => exact absurd rfl returns
    | halted e c' reason hhalt => exact ⟨hI.halted e reason hsteps hinv hhalt, .inl rfl⟩
    | returned s changed path wf =>
      have := hI.returned changed hsteps (hI.finished hsteps (hpath s path))
      exact ⟨hI.safe this, .inr ⟨wf, this⟩⟩
    | failed s e path wf quiet =>
      have := hI.failed e hsteps (hpath s path) quiet
      exact ⟨hI.safe this, .inr ⟨wf, this⟩⟩
    | crashed s e reason path => exact ⟨hI.ended e reason hsteps (hpath s path), .inl rfl⟩
    | invalid s e reason path =>
      exact ⟨hI.ended e reason hsteps (hI.finished hsteps (hpath s path)), .inl rfl⟩
    | stuck e s stuck =>
      have := hstuck hsteps hinv stuck
      exact ⟨hI.safe this, .inr ⟨hwf.stuck stuck, this⟩⟩

/-- The same when the condition leaves room in the effect counter. -/
theorem Trace.invariant {init : RaftCore C} (hI : Keeps condition I J P)
    (room : ∀ h c e, condition h c e → Room c) (wf : init.WF) (start : I [] init)
    {history : List (Record C)} {c : RaftCore C} (ht : Trace init history c)
    (hm : Holds condition history) :
    P history c ∧ (c.stopped = true ∨ c.WF ∧ I history c) :=
  Trace.invariant_of_stuck hI (fun hs _ stuck => absurd (room _ _ _ hs.meets) stuck.full)
    wf start ht hm

/-- A core that was started and is running is well formed. -/
theorem Trace.wf {config : Config} {recovered : RecoveredState C}
    {history : List (Record C)} {c : RaftCore C} (run : Trace (RaftCore.new config recovered) history c) :
    c.stopped = true ∨ c.WF := by
  induction run with
  | start => exact .inr (RaftCore.new_wf config recovered)
  | @step history c c' event result earlier allowed run returns ih =>
    by_cases stopped : c.stopped = true
    · obtain ⟨rfl, -⟩ := step_stopped stopped run
      exact .inl stopped
    · exact (ih.resolve_left stopped).step (by simpa using stopped) run returns

end Ruft
