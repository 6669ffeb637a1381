import Ruft.Run

set_option autoImplicit false

/-!
# Executable runs

Runs a script of moves and checks that each is legal, so that a property of one
concrete run can be evaluated. What `Solo.exec` accepts is a `Trace` of one core, what
`World.exec` accepts a `Run` of a cluster.
-/

namespace Ruft

variable {C : Type}

/-- `Effect.Reports` as a check. -/
def Effect.reports (e : Effect C) (id : EffectId) : EffectOutcome → Bool
  | .failed => e.id? = some id
  | outcome => match e, outcome with
    | .persist i _, .persisted => i = id
    | .apply i entries, .applied through =>
      i = id && entries.getLast?.any fun last => last.index = through
    | .readSnapshotChunk i snapshot offset maxLen, .snapshotChunkRead s o bytes _ =>
      i = id && s = snapshot.metadata.id && o = offset && bytes.length ≤ maxLen
    | .storeSnapshotChunk i metadata offset bytes, .snapshotChunkStored s o _ =>
      i = id && s = metadata.id && o = offset + bytes.length
    | .installSnapshot i record, .snapshotInstalled s => i = id && s = record.metadata.id
    | .buildSnapshot i through, .snapshotBuilt metadata _ => i = id && metadata.index = through
    | .compactLog i through, .compacted t => i = id && t = through
    | _, _ => false

theorem Effect.reports_sound {e : Effect C} {id : EffectId} {outcome : EffectOutcome}
    (h : e.reports id outcome = true) : e.Reports id outcome := by
  cases outcome with
  | failed => exact .failed e id (by simpa [Effect.reports] using h)
  | persisted =>
    cases e <;> simp only [Effect.reports, Bool.false_eq_true, decide_eq_true_eq] at h
    exact h ▸ .persisted _ _
  | applied through =>
    cases e <;> simp only [Effect.reports, Bool.false_eq_true, Bool.and_eq_true,
      decide_eq_true_eq] at h
    case apply i entries =>
      obtain ⟨rfl, h⟩ := h
      cases hl : entries.getLast? with
      | none => simp [hl] at h
      | some last =>
        have hi : last.index = through := by simpa [hl] using h
        exact hi ▸ .applied _ _ last hl
  | snapshotChunkRead s o bytes done =>
    cases e <;> simp only [Effect.reports, Bool.false_eq_true, Bool.and_eq_true,
      decide_eq_true_eq] at h
    case readSnapshotChunk i snapshot offset maxLen =>
      obtain ⟨⟨⟨rfl, rfl⟩, rfl⟩, hl⟩ := h
      exact .chunkRead _ _ _ _ _ _ hl
  | snapshotChunkStored s o ref =>
    cases e <;> simp only [Effect.reports, Bool.false_eq_true, Bool.and_eq_true,
      decide_eq_true_eq] at h
    case storeSnapshotChunk i metadata offset bytes =>
      obtain ⟨⟨rfl, rfl⟩, rfl⟩ := h
      exact .chunkStored _ _ _ _ _
  | snapshotInstalled s =>
    cases e <;> simp only [Effect.reports, Bool.false_eq_true, Bool.and_eq_true,
      decide_eq_true_eq] at h
    case installSnapshot i record =>
      obtain ⟨rfl, rfl⟩ := h
      exact .installed _ _
  | snapshotBuilt metadata ref =>
    cases e <;> simp only [Effect.reports, Bool.false_eq_true, Bool.and_eq_true,
      decide_eq_true_eq] at h
    case buildSnapshot i through =>
      obtain ⟨rfl, hi⟩ := h
      exact .built _ _ _ _ hi
  | compacted t =>
    cases e <;> simp only [Effect.reports, Bool.false_eq_true, Bool.and_eq_true,
      decide_eq_true_eq] at h
    case compactLog i through =>
      obtain ⟨rfl, rfl⟩ := h
      exact .compacted _ _

/-! ## One core -/

/-- A core and its history. -/
structure Solo (C : Type) where
  history : List (Record C)
  core : RaftCore C

namespace Solo

def allowed (w : Solo C) : Event C → Bool
  | .effectCompleted id outcome =>
    w.history.any fun r => r.effects.any fun e => e.reports id outcome
  | _ => true

def step [Sha256] (w : Solo C) (event : Event C) : Option (Solo C) :=
  if w.allowed event then
    match Ruft.step w.core event with
    | (.error .panic, _) => none
    | (result, c') => some ⟨⟨w.core, event, result, c'⟩ :: w.history, c'⟩
  else none

def exec [Sha256] (w : Solo C) : List (Event C) → Option (Solo C)
  | [] => some w
  | event :: events => match w.step event with
    | some w' => w'.exec events
    | none => none

variable [Sha256] {init : RaftCore C}

theorem step_trace {w w' : Solo C} (h : Trace init w.history w.core) {event : Event C}
    (hs : w.step event = some w') : Trace init w'.history w'.core := by
  unfold step at hs
  split at hs
  · next ha =>
    have hallowed : Allowed w.history event := by
      cases event with
      | effectCompleted id outcome =>
        simp only [Solo.allowed, List.any_eq_true] at ha
        obtain ⟨r, hr, e, he, hrep⟩ := ha
        exact ⟨r, hr, e, he, Effect.reports_sound hrep⟩
      | _ => trivial
    cases hr : Ruft.step w.core event with
    | mk result c' =>
      have hnext : ∀ (returns : result ≠ Outcome.panic),
          some (⟨⟨w.core, event, result, c'⟩ :: w.history, c'⟩ : Solo C) = some w' →
          Trace init w'.history w'.core := by
        intro returns he
        simp only [Option.some.injEq] at he
        subst he
        exact .step h hallowed hr returns
      rw [hr] at hs
      cases result with
      | ok output => exact hnext (by simp) hs
      | error f =>
        cases f with
        | panic => simp at hs
        | raise e => exact hnext (by simp) hs
  · simp at hs

theorem exec_trace {w w' : Solo C} (h : Trace init w.history w.core) {events : List (Event C)}
    (hx : w.exec events = some w') : Trace init w'.history w'.core := by
  induction events generalizing w with
  | nil =>
    simp only [exec, Option.some.injEq] at hx
    exact hx ▸ h
  | cons event events ih =>
    simp only [exec] at hx
    cases hs : w.step event with
    | none => simp [hs] at hx
    | some w₁ =>
      simp only [hs] at hx
      exact ih (step_trace h hs) hx

/-- A check that succeeds after a script is one of a run. -/
theorem exec_any (init : RaftCore C) (events : List (Event C)) (p : Solo C → Bool)
    (h : ((⟨[], init⟩ : Solo C).exec events).any p = true) :
    ∃ w : Solo C, Trace init w.history w.core ∧ p w = true := by
  obtain ⟨w, hw, hp⟩ := Option.any_eq_true _ _ |>.mp h
  exact ⟨w, exec_trace .start hw, hp⟩

end Solo

/-- A condition that follows from a check of the core and the event holds along a history
that passes the check. -/
theorem Holds.of_all {condition : Condition C} {check : RaftCore C → Event C → Bool}
    (sound : ∀ history c event, check c event = true → condition history c event)
    {history : List (Record C)}
    (h : (history.all fun r => check r.before r.event) = true) : Holds condition history := by
  induction history with
  | nil => trivial
  | cons r earlier ih =>
    rw [List.all_cons, Bool.and_eq_true] at h
    exact ⟨sound _ _ _ h.1, ih h.2⟩

def Meets.check {R : Type} (p : List R → R → Bool) : List R → Bool
  | [] => true
  | r :: earlier => p earlier r && check p earlier

theorem Meets.of_check {R : Type} {condition : List R → R → Prop} {check : List R → R → Bool}
    (sound : ∀ earlier r, check earlier r = true → condition earlier r) {history : List R}
    (h : Meets.check check history = true) : Meets condition history := by
  induction history with
  | nil => trivial
  | cons r earlier ih =>
    rw [Meets.check, Bool.and_eq_true] at h
    exact ⟨sound _ _ h.1, ih h.2⟩

/-- The same for a check that reads the history. -/
theorem Holds.of_check {condition : Condition C} {check : List (Record C) → RaftCore C → Event C → Bool}
    (sound : ∀ history c event, check history c event = true → condition history c event)
    {history : List (Record C)}
    (h : Meets.check (fun earlier r => check earlier r.before r.event) history = true) :
    Holds condition history :=
  Meets.of_check (fun _ _ => sound _ _ _) h

/-! ## A cluster -/

/-- The cores that have taken a step, newest first, and the history. -/
structure World (C : Type) where
  history : List (NodeId × Record C)
  cores : List (NodeId × RaftCore C)

/-- One instruction of a script. -/
inductive Move (C : Type) where
  | event (node : NodeId) (event : Event C)
  /-- Delivers the message that was sent as number `k`. -/
  | deliver (k : Nat)

namespace World

def core (init : NodeId → RaftCore C) (w : World C) (node : NodeId) : RaftCore C :=
  (w.cores.lookup node).getD (init node)

def messages (node : NodeId) (effects : List (Effect C)) : List (Envelope C) :=
  effects.filterMap fun
    | .sendMessage to_ message => some ⟨0, node, to_, message⟩
    | _ => none

/-- The messages sent so far, oldest first. -/
def sent (w : World C) : List (Envelope C) :=
  w.history.reverse.flatMap fun step => messages step.1 step.2.effects

def allowed (w : World C) (node : NodeId) : Event C → Bool
  | .effectCompleted id outcome =>
    (localHistory w.history node).any fun r => r.effects.any fun e => e.reports id outcome
  | .messageReceived _ => false
  | _ => true

/-- A step of one node, with the message that it gets taken from those sent. -/
def step [Sha256] (init : NodeId → RaftCore C) (w : World C) (node : NodeId) (event : Event C) :
    Option (World C) :=
  if (init node).config.localId = node then
    match Ruft.step (w.core init node) event with
    | (.error .panic, _) => none
    | (result, c') =>
      some ⟨(node, ⟨w.core init node, event, result, c'⟩) :: w.history, (node, c') :: w.cores⟩
  else none

def move [Sha256] (init : NodeId → RaftCore C) (w : World C) : Move C → Option (World C)
  | .event node event => if w.allowed node event then w.step init node event else none
  | .deliver k => match w.sent[k]? with
    | some envelope => w.step init envelope.to_ (.messageReceived envelope)
    | none => none

def exec [Sha256] (init : NodeId → RaftCore C) (w : World C) : List (Move C) → Option (World C)
  | [] => some w
  | m :: ms => match w.move init m with
    | some w' => w'.exec init ms
    | none => none

theorem mem_messages {node : NodeId} {effects : List (Effect C)} {envelope : Envelope C}
    (h : envelope ∈ messages node effects) :
    envelope.from_ = node ∧ .sendMessage envelope.to_ envelope.message ∈ effects := by
  obtain ⟨e, he, hm⟩ := List.mem_filterMap.mp h
  cases e <;> simp only [reduceCtorEq, Option.some.injEq] at hm
  subst hm
  exact ⟨rfl, he⟩

theorem sent_sound {w : World C} {envelope : Envelope C} (h : envelope ∈ w.sent) :
    Sent w.history envelope := by
  obtain ⟨⟨node, r⟩, hr, hm⟩ := List.mem_flatMap.mp h
  obtain ⟨hfrom, hmem⟩ := mem_messages hm
  exact ⟨r, by rw [hfrom]; exact List.mem_reverse.mp hr, hmem⟩

theorem allowed_sound {w : World C} {node : NodeId} {event : Event C}
    (h : w.allowed node event = true) :
    Allowed (localHistory w.history node) event ∧ Delivered w.history node event := by
  cases event with
  | effectCompleted id outcome =>
    simp only [World.allowed, List.any_eq_true] at h
    obtain ⟨r, hr, e, he, hrep⟩ := h
    exact ⟨⟨r, hr, e, he, Effect.reports_sound hrep⟩, trivial⟩
  | messageReceived => simp [World.allowed] at h
  | _ => exact ⟨trivial, trivial⟩

variable [Sha256] {init : NodeId → RaftCore C}

theorem step_run {w w' : World C} (h : Run init w.history (w.core init)) {node : NodeId}
    {event : Event C} (allowed : Allowed (localHistory w.history node) event)
    (delivered : Delivered w.history node event) (hs : w.step init node event = some w') :
    Run init w'.history (w'.core init) := by
  unfold step at hs
  split at hs
  · next hl =>
    cases hr : Ruft.step (w.core init node) event with
    | mk result c' =>
      have hcores : ∀ (w' : World C), w'.cores = (node, c') :: w.cores →
          w'.core init = Function.update (w.core init) node c' := by
        intro w' hw'
        funext n
        by_cases hn : n = node
        · subst hn; simp [core, hw']
        · have hb : (n == node) = false := by simpa using hn
          simp [core, hw', List.lookup_cons, hb, Function.update_of_ne hn]
      have hnext : ∀ (returns : result ≠ Outcome.panic), some (⟨(node,
          ⟨w.core init node, event, result, c'⟩) :: w.history, (node, c') :: w.cores⟩ : World C) =
          some w' → Run init w'.history (w'.core init) := by
        intro returns he
        simp only [Option.some.injEq] at he
        subst he
        rw [hcores ⟨_, (node, c') :: w.cores⟩ rfl]
        exact .step h hl allowed delivered hr returns
      rw [hr] at hs
      cases result with
      | ok output => exact hnext (by simp) hs
      | error f =>
        cases f with
        | panic => simp at hs
        | raise e => exact hnext (by simp) hs
  · simp at hs

theorem move_run {w w' : World C} (h : Run init w.history (w.core init)) {m : Move C}
    (hm : w.move init m = some w') : Run init w'.history (w'.core init) := by
  cases m with
  | event node event =>
    simp only [move] at hm
    split at hm
    · next ha =>
      obtain ⟨allowed, delivered⟩ := allowed_sound ha
      exact step_run h allowed delivered hm
    · simp at hm
  | deliver k =>
    simp only [move] at hm
    cases hk : w.sent[k]? with
    | none => simp [hk] at hm
    | some envelope =>
      simp only [hk] at hm
      have hallowed : Allowed (localHistory w.history envelope.to_) (.messageReceived envelope) :=
        trivial
      exact step_run h hallowed ⟨rfl, sent_sound (List.mem_of_getElem? hk)⟩ hm

/-- What a script does is a run of the cluster. -/
theorem exec_run {w w' : World C} (h : Run init w.history (w.core init)) {ms : List (Move C)}
    (hx : w.exec init ms = some w') : Run init w'.history (w'.core init) := by
  induction ms generalizing w with
  | nil =>
    simp only [exec, Option.some.injEq] at hx
    exact hx ▸ h
  | cons m ms ih =>
    simp only [exec] at hx
    cases hm : w.move init m with
    | none => simp [hm] at hx
    | some w₁ =>
      simp only [hm] at hx
      exact ih (move_run h hm) hx

/-- A check that succeeds after a script from the start is one of a reachable world. -/
theorem exec_any (init : NodeId → RaftCore C) (ms : List (Move C)) (p : World C → Bool)
    (h : ((⟨[], []⟩ : World C).exec init ms).any p = true) :
    ∃ w : World C, Run init w.history (w.core init) ∧ p w = true := by
  obtain ⟨w, hw, hp⟩ := Option.any_eq_true _ _ |>.mp h
  exact ⟨w, exec_run .start hw, hp⟩

end World

/-- A check that a step returned. -/
theorem step_of_isOk {r : Outcome StepError (StepOutput C) × RaftCore C}
    (h : r.1.isOk = true) : ∃ output c', r = (.ok output, c') := by
  obtain ⟨_ | output, c'⟩ := r
  · simp [Except.isOk, Except.toBool] at h
  · exact ⟨output, c', rfl⟩

/-! ## A cluster of three -/

/-- The settings of the nodes 1, 2 and 3, with one entry per append. -/
def trioConfig (node : NodeId) (h : node ∈ [1, 2, 3]) : Config where
  clusterId := 0
  localId := node
  members := [1, 2, 3]
  quorum := 2
  generation := 0
  snapshotAfterEntries := 100
  maxEntriesPerRpc := 1
  maxBytesPerRpc := 100
  maxInflightAppends := 4
  maxPendingReads := 10
  snapshotChunkBytes := 10
  completionHistory := 100
  members_sorted := by decide
  local_mem := h
  quorum_eq := by decide
  snapshotAfterEntries_pos := by decide
  maxEntriesPerRpc_pos := Nat.zero_lt_one
  maxBytesPerRpc_pos := by decide
  maxInflightAppends_pos := by decide
  maxPendingReads_pos := by decide
  snapshotChunkBytes_pos := by decide
  completionHistory_pos := by decide

theorem first_member : (1 : NodeId) ∈ [1, 2, 3] := List.mem_cons_self

/-- The settings of every node; ids outside the cluster run as node 1 and take no step. -/
def trioConfigs (node : NodeId) : Config :=
  if h : node ∈ [1, 2, 3] then trioConfig node h else trioConfig 1 first_member

/-- The nodes of the cluster, each started from nothing. -/
def trio (node : NodeId) : RaftCore Nat := RaftCore.new (trioConfigs node) .initial

/-- SHA-256 on the empty input, the body of every snapshot in the scripts. -/
@[reducible] def sha256Empty : Sha256 := ⟨fun _ => ⟨[
  0xe3, 0xb0, 0xc4, 0x42, 0x98, 0xfc, 0x1c, 0x14, 0x9a, 0xfb, 0xf4, 0xc8, 0x99, 0x6f, 0xb9, 0x24,
  0x27, 0xae, 0x41, 0xe4, 0x64, 0x9b, 0x93, 0x4c, 0xa4, 0x95, 0x99, 0x1b, 0x78, 0x52, 0xb8, 0x55]⟩⟩

/-- Metadata of a snapshot with an empty body. -/
def emptyBody (id index term : Nat) (hi : 0 < index) (ht : 0 < term) : SnapshotMetadata where
  id := id
  index := index
  term := term
  members := [1, 2, 3]
  size := 0
  digest := sha256Empty.digest []
  index_pos := hi
  term_pos := ht
  members_ne := by decide
  members_sorted := by decide

namespace Script

abbrev deliver (k : Nat) : Move Nat := .deliver k

def elect (node : NodeId) : Move Nat := .event node (.tick .election)

def propose (node : NodeId) (proposalId : ProposalId) (command : Nat) : Move Nat :=
  .event node (.propose proposalId command 1)

def done (node : NodeId) (sequence : Nat) (outcome : EffectOutcome) : Move Nat :=
  .event node (.effectCompleted ⟨0, sequence⟩ outcome)

def persisted (node : NodeId) (sequence : Nat) : Move Nat := done node sequence .persisted

def applied (node : NodeId) (sequence through : Nat) : Move Nat :=
  done node sequence (.applied through)

/-- Node 1 becomes leader of term 1 with the vote of node 2. -/
def electFirst : List (Move Nat) :=
  [elect 1, deliver 0, deliver 2, persisted 1 1, deliver 3, persisted 2 1, deliver 5, persisted 1 2]

/-- Node 1 commits its no-op and one command with node 2 and applies both. Node 3 gets the
no-op, which it is still applying. -/
def commitTwo : List (Move Nat) := electFirst ++
  [deliver 7, deliver 6, persisted 3 1, deliver 8, deliver 10, persisted 2 2, deliver 11,
    persisted 1 3, deliver 9, applied 1 4 1, propose 1 1 7, persisted 1 5, deliver 14,
    persisted 2 3, deliver 15, persisted 1 6, applied 1 7 2, deliver 13, persisted 3 2]

/-- Node 1 compacts its log and sends node 3 a snapshot through index 2, as message 18. -/
def sendSnapshot : List (Move Nat) := commitTwo ++
  [.event 1 .snapshotRequested,
    done 1 8 (.snapshotBuilt (emptyBody 7 2 1 Nat.two_pos Nat.zero_lt_one) ⟨[]⟩), persisted 1 9,
    done 1 10 (.compacted 2), deliver 17, done 1 11 (.snapshotChunkRead 7 0 [] true)]

/-- Node 3 receives the snapshot and persists it. Its installation is effect 6. -/
def receiveSnapshot : List (Move Nat) := sendSnapshot ++
  [deliver 18, done 3 4 (.snapshotChunkStored 7 0 (some ⟨[]⟩)), persisted 3 5]

end Script

end Ruft
