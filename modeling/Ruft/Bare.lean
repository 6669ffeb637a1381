import Ruft.Lib.LeaderLogs
import Ruft.Elections

set_option autoImplicit false

/-!
# Runs without snapshots

As long as no snapshot is built, no core has one, none is sent and none is received. Such a
core changes its log in two ways: it adds an entry of a term it was elected in, and it merges
the entries of an append. What it sends in an append, it quotes from its own log.

## Main definitions

- `Wrote` — how a step changes the log
- `Quotes` — an append and the log it was cut from
- `Faithful` — what every step does with the log

## Main results

- `Trace.faithful` — every step of a run without snapshots is faithful
-/

namespace Ruft

variable {C : Type} {c : RaftCore C} {event : Event C} {history : List (Record C)}

/-- A core without a snapshot and without a snapshot on its way. -/
structure RaftCore.Bare (c : RaftCore C) : Prop where
  log : c.log.snapshot = none
  senders : ∀ n, c.snapshotSenders.get n = none
  receiving : c.pendingChunkStore = none
  incoming : c.incomingSnapshotState = none
  persisting : ∀ id record, c.localSnapshot ≠ .persisting id record
  compacting : ∀ id record, c.localSnapshot ≠ .compacting id record

def Message.bringsSnapshot : Message C → Bool
  | .installSnapshot _ _ _ _ _ => true
  | _ => false

/-- A snapshot was built, or a part of one is received. -/
def Event.bringsSnapshot : Event C → Bool
  | .effectCompleted _ (.snapshotBuilt _ _) => true
  | .messageReceived envelope => envelope.message.bringsSnapshot
  | _ => false

def Snapshotless : Condition C := fun _ c event => Room c ∧ event.bringsSnapshot = false

theorem RaftCore.new_bare (config : Config) : (RaftCore.new config (.initial : RecoveredState C)).Bare where
  log := rfl
  senders := fun _ => rfl
  receiving := rfl
  incoming := rfl
  persisting := by simp [RaftCore.new]
  compacting := by simp [RaftCore.new]

/-- The snapshot fields are left alone, except that the core may start to build one. -/
theorem RaftCore.Bare.congr {d : RaftCore C} (h : c.Bare) (log : d.log.snapshot = c.log.snapshot)
    (senders : d.snapshotSenders = c.snapshotSenders)
    (receiving : d.pendingChunkStore = c.pendingChunkStore)
    (incoming : d.incomingSnapshotState = c.incomingSnapshotState)
    (building : d.localSnapshot = c.localSnapshot ∨ ∃ id through, d.localSnapshot = .building id through) :
    d.Bare where
  log := log.trans h.log
  senders := by rw [senders]; exact h.senders
  receiving := receiving.trans h.receiving
  incoming := incoming.trans h.incoming
  persisting := by
    rcases building with same | ⟨id, through, is⟩
    · rw [same]; exact h.persisting
    · simp [is]
  compacting := by
    rcases building with same | ⟨id, through, is⟩
    · rw [same]; exact h.compacting
    · simp [is]

theorem RaftCore.Bare.messageAct {from_ : NodeId} {m : Message C} {s : Ctx C} (h : c.Bare)
    (act : MessageAct c from_ m s) (plain : m.bringsSnapshot = false) :
    s.core.Bare := by
  cases act with
  | senderDone term sender progress leader same found => simp [h.senders] at found
  | receiverTouched | chunkAccepted => simp [Message.bringsSnapshot] at plain
  | appendAccepted term prev prevTerm leaderCommit context entries log appended hardState reached
      prefix_ run merge => exact h.congr merge.snapshot_eq rfl rfl rfl (.inl rfl)
  | _ => exact h.congr rfl rfl rfl rfl (.inl rfl)

theorem RaftCore.Bare.act [Sha256] {s : Ctx C} (h : c.Bare) (act : Act c event s)
    (plain : event.bringsSnapshot = false) : s.core.Bare := by
  cases act with
  | message envelope members s known mine act =>
    exact (h.congr (d := { c with activeMembers := members }) rfl rfl rfl rfl (.inl rfl)).messageAct
      act plain
  | completed id outcome s act =>
    cases act with
    | chunkRead snapshotId offset bytes done to_ sender advanced pending found =>
      simp [h.senders] at found
    | chunkStored snapshotId nextOffset snapshotRef pending found => simp [h.receiving] at found
    | transferDone snapshotId nextOffset snapshotRef pending receiver found =>
      simp [h.receiving] at found
    | snapshotPersisted record from_ term found => simp [h.incoming] at found
    | installed snapshotId record from_ term log found => simp [h.incoming] at found
    | built => simp [Event.bringsSnapshot] at plain
    | recordPersisted record found => exact absurd found (h.persisting _ _)
    | compacted record log found => exact absurd found (h.compacting _ _)
    | compactFailed record found => exact absurd found (h.compacting _ _)
    | _ => exact h.congr rfl rfl rfl rfl (.inl rfl)
  | readStarted readId =>
    obtain ⟨round, hr⟩ := Ctx.roundStarted_core ⟨c, []⟩ readId
    rw [hr]
    exact h.congr rfl rfl rfl rfl (.inl rfl)
  | _ => exact h.congr rfl rfl rfl rfl (.inl rfl)

theorem RaftCore.Bare.followUp {cause : Cause C} {s s' : Ctx C} (h : s.core.Bare)
    (hf : FollowUp cause s s') : s'.core.Bare := by
  cases hf with
  | senderCreated to_ snapshot log => simp [h.log] at log
  | buildRequested => exact h.congr rfl rfl rfl rfl (.inr ⟨_, _, rfl⟩)
  | readStarted readId rest =>
    obtain ⟨round, hr⟩ :=
      Ctx.roundStarted_core ⟨{ s.core with pendingReads := rest }, s.effects⟩ readId
    rw [hr]
    exact h.congr rfl rfl rfl rfl (.inl rfl)
  | _ => exact h.congr rfl rfl rfl rfl (.inl rfl)

/-- A core without snapshots stays well formed in the middle of a step. -/
theorem RaftCore.Bare.act_wf [Sha256] {s : Ctx C} (h : c.Bare) (wf : c.WF) (act : Act c event s) :
    s.core.WF := by
  rcases wf.act act with wf' | ⟨beyond, -, -⟩
  · exact wf'
  have same : s.core.hardState.commitIndex = c.hardState.commitIndex → s.core.WF := by
    intro same
    have bound := beyond.bound
    have fits := wf.commit_lt
    omega
  cases act with
  | message envelope members s known mine act =>
    have wf : ({ c with activeMembers := members }).WF :=
      wf.congr rfl rfl rfl rfl rfl rfl rfl rfl rfl rfl rfl
    exact wf.messageAct act
  | completed id outcome s act =>
    cases act with
    | installed snapshotId record from_ term log found => simp [h.incoming] at found
    | _ => exact same rfl
  | readStarted readId =>
    exact RaftCore.WF.roundStarted (s := ⟨c, []⟩) wf readId
  | _ => exact same rfl

/-- Nothing that the snapshots of a core could disturb is there. -/
theorem RaftCore.Bare.undisturbed (h : c.Bare) (event : Event C) :
    ReadsInRole c event ∧ InstallsInRole c event ∧ InstallInOrder c event := by
  refine ⟨?_, ?_, ?_⟩
  · unfold ReadsInRole
    split
    · intro to_ sender _ found
      simp [h.senders] at found
    · trivial
  · unfold InstallsInRole
    split
    · intro record from_ term found
      simp [h.incoming] at found
    · trivial
  · unfold InstallInOrder
    split
    · intro record from_ term found
      simp [h.incoming] at found
    · trivial

/-! ## Positions in a log without a snapshot -/

open LeaderLogs

theorem RaftLog.WF.term_eq_ok_iff {log : RaftLog C} (h : log.WF) (bare : log.snapshot = none)
    {i t : Nat} : log.term i = .ok t ↔ TermAt Entry.term log.entries i t := by
  have zero : log.snapshotIndex = 0 := by simp [RaftLog.snapshotIndex, bare]
  have none : log.snapshotTerm = 0 := by simp [RaftLog.snapshotTerm, bare]
  constructor
  · intro found
    rcases h.term_eq_ok found with ⟨rfl, rfl⟩ | ⟨e, he, rfl⟩
    · exact .inl ⟨zero, none⟩
    · rw [RaftLog.get?, zero] at he
      split at he
      · next pos => exact .inr ⟨e, pos, he, rfl⟩
      · simp at he
  · rintro (⟨rfl, rfl⟩ | ⟨e, pos, he, rfl⟩)
    · have := h.term_snapshot
      rwa [zero, none] at this
    · refine h.term_entry ?_
      rw [RaftLog.get?, zero, if_pos pos]
      exact he

theorem RaftLog.WF.length_eq {log : RaftLog C} (h : log.WF) (bare : log.snapshot = none) :
    log.lastIndex = log.entries.length := by
  rw [h.lastIndex]
  simp [RaftLog.snapshotIndex, bare]

/-- A merge of a batch with consecutive indexes. -/
theorem RaftLog.Merged.spliced {log log' : RaftLog C} {batch appended : List (Entry C)}
    (merge : log.Merged batch log' appended) (h : log.WF) (bare : log.snapshot = none) {prev : Nat}
    (consecutive : Contiguous (prev + 1) batch) :
    Spliced Entry.term log.entries prev batch log'.entries := by
  have indexed : ∀ {k e}, batch[k]? = some e → e.index = prev + k + 1 := by
    intro k e found
    rw [consecutive.index found]
    omega
  cases merge with
  | same held =>
    refine .held fun k e found => ?_
    rw [← h.term_eq_ok_iff bare, ← indexed found]
    exact held e (List.mem_of_getElem? found)
  | changed kept e rest j u split held differs index within =>
    have at_ : batch[kept.length]? = some e := by simp [split]
    have zero : log.snapshotIndex = 0 := by simp [RaftLog.snapshotIndex, bare]
    obtain rfl : j = prev + kept.length := by
      have := indexed at_
      omega
    refine .cut kept e rest split ?_ ?_ within
    · intro k x found
      have lt := (List.getElem?_eq_some_iff.mp found).1
      rw [← h.term_eq_ok_iff bare, ← indexed (by rw [split, List.getElem?_append_left lt]; exact found)]
      exact held x (List.mem_of_getElem? found)
    · rw [← h.term_eq_ok_iff bare, ← indexed at_]
      exact differs

/-! ## What a step does with the log -/

/-- How a step changes the log. The history ends with the step. -/
inductive Wrote (history : List (Record C)) (c : RaftCore C) (event : Event C) (d : RaftCore C) :
    Prop
  | kept (same : d.log.entries = c.log.entries)
  | added (entry : Entry C) (is : d.log.entries = c.log.entries ++ [entry])
      (term : entry.term = d.hardState.currentTerm) (won : Elected history entry.term)
  | merged (envelope : Envelope C) (prev prevTerm leaderCommit : Nat) (context : Option Bytes)
      (entries : List (Entry C)) (log : RaftLog C) (appended : List (Entry C))
      (received : event = .messageReceived envelope)
      (message : envelope.message = .appendEntries d.hardState.currentTerm prev prevTerm
        leaderCommit context entries)
      (prefix_ : c.log.term prev = .ok prevTerm) (merge : c.log.Merged entries log appended)
      (is : d.log.entries = log.entries)

theorem Wrote.after {result result' : Outcome StepError (StepOutput C)} {d d' : RaftCore C}
    (h : Wrote (⟨c, event, result, d⟩ :: history) c event d) (config : d'.config = d.config)
    (term : d'.hardState.currentTerm = d.hardState.currentTerm) (votes : d'.votes = d.votes)
    (entries : d'.log.entries = d.log.entries) :
    Wrote (⟨c, event, result', d'⟩ :: history) c event d' := by
  cases h with
  | kept same => exact .kept (entries.trans same)
  | added entry is of won =>
    exact .added entry (entries.trans is) (of.trans term.symm) (won.after config term votes)
  | merged envelope prev prevTerm leaderCommit context es log appended received message prefix_
      merge is =>
    rw [← term] at message
    exact .merged envelope prev prevTerm leaderCommit context es log appended received message
      prefix_ merge (entries.trans is)

theorem Wrote.mono {history' : List (Record C)} {d : RaftCore C} (h : Wrote history c event d)
    (grows : history ⊆ history') : Wrote history' c event d := by
  cases h with
  | kept same => exact .kept same
  | added entry is of won => exact .added entry is of (won.mono grows)
  | merged envelope prev prevTerm leaderCommit context es log appended received message prefix_
      merge is =>
    exact .merged envelope prev prevTerm leaderCommit context es log appended received message
      prefix_ merge is

theorem Act.wrote [Sha256] {s : Ctx C} (bare : c.Bare) (act : Act c event s)
    {result : Outcome StepError (StepOutput C)}
    (tally : Tally (⟨c, event, result, s.core⟩ :: history) s.core) :
    Wrote (⟨c, event, result, s.core⟩ :: history) c event s.core := by
  cases act with
  | message envelope members s known mine act =>
    obtain ⟨cluster, from_, to_, message⟩ := envelope
    dsimp only at act
    cases act with
    | elected term granted votes entry same candidate found won next noop =>
      refine .added entry rfl next.term ?_
      rw [next.term]
      exact tally.activating _ _ rfl
    | appendAccepted term prev prevTerm leaderCommit context entries log appended hardState reached
        prefix_ run merge =>
      exact .merged _ prev prevTerm leaderCommit context entries log appended rfl rfl prefix_ merge rfl
    | _ => exact .kept rfl
  | proposed proposalId command encodedLen entry leader free next payload =>
    refine .added entry rfl next.term ?_
    rw [next.term]
    exact tally.leads leader
  | readStarted readId =>
    obtain ⟨round, hr⟩ := Ctx.roundStarted_core ⟨c, []⟩ readId
    exact .kept (by rw [hr])
  | completed id outcome s act =>
    cases act with
    | installed snapshotId record from_ term log found => simp [bare.incoming] at found
    | compacted record log found => exact absurd found (bare.compacting _ _)
    | electedAlone stableThrough votes entry found counted won next noop =>
      refine .added entry rfl next.term ?_
      rw [next.term]
      exact tally.activating _ _ rfl
    | _ => exact .kept rfl
  | _ => exact .kept rfl

/-- An append is cut from the log of its sender and goes to another node. -/
def Quotes (c : RaftCore C) (to_ : NodeId) : Message C → Prop
  | .appendEntries _ prev prevTerm leaderCommit _ entries => to_ ≠ c.config.localId ∧
      TermAt Entry.term c.log.entries prev prevTerm ∧ entries <+: c.log.entries.drop prev ∧
      leaderCommit ≤ c.log.committed
  | m => m.bringsSnapshot = false

/-- The log may have been committed further since. -/
theorem Quotes.keep {d : RaftCore C} {to_ : NodeId} {m : Message C} (h : Quotes c to_ m)
    (config : d.config = c.config) (entries : d.log.entries = c.log.entries)
    (commit : c.log.committed ≤ d.log.committed) : Quotes d to_ m := by
  cases m with
  | appendEntries term prev prevTerm leaderCommit context es =>
    obtain ⟨other, found, cut, known⟩ := h
    exact ⟨config ▸ other, entries ▸ found, entries ▸ cut, known.trans commit⟩
  | _ => exact h

theorem Quotes.of_silent {to_ : NodeId} {m : Message C} (silent : m.leaderTerm = none) :
    Quotes c to_ m := by
  cases m with
  | appendEntries | installSnapshot => simp [Message.leaderTerm] at silent
  | _ => rfl

theorem mem_toPeers {config : Config} {m m' : Message C} {to_ : NodeId}
    (h : .sendMessage to_ m' ∈ toPeers config m) : to_ ≠ config.localId ∧ m' = m := by
  simp only [toPeers, List.mem_map, List.mem_filter, Effect.sendMessage.injEq] at h
  obtain ⟨n, ⟨-, other⟩, rfl, rfl⟩ := h
  exact ⟨by simpa using other, rfl⟩

/-- The heartbeats of a read round quote the end of the log. -/
theorem Quotes.roundStarted {s : Ctx C} (wf : s.core.WF) (bare : s.core.log.snapshot = none)
    (quotes : ∀ to_ m, .sendMessage to_ m ∈ s.effects → Quotes s.core to_ m) (readId : ReadId) :
    ∀ to_ m, .sendMessage to_ m ∈ (s.roundStarted readId).effects →
      Quotes (s.roundStarted readId).core to_ m := by
  intro to_ m sent
  obtain ⟨round, hr⟩ := s.roundStarted_core readId
  have keep : Quotes s.core to_ m → Quotes (s.roundStarted readId).core to_ m := by
    intro old
    exact old.keep (by rw [hr]) (by rw [hr]) (by rw [hr])
  refine keep ?_
  rcases s.roundStarted_effects readId with he | ⟨context, he⟩
  · exact quotes to_ m (he ▸ sent)
  rw [he] at sent
  rcases List.mem_append.mp sent with old | new
  · exact quotes to_ m old
  obtain ⟨other, rfl⟩ := mem_toPeers new
  have last := wf.log.length_eq bare
  refine ⟨other, ?_, by simp, wf.committed.ge⟩
  rw [← wf.log.term_eq_ok_iff bare, wf.lastLogTerm]
  exact wf.log.term_lastIndex

theorem Act.quotes [Sha256] {s : Ctx C} (wf : c.WF) (bare : c.Bare) (act : Act c event s) :
    ∀ to_ m, .sendMessage to_ m ∈ s.effects → Quotes s.core to_ m := by
  cases act with
  | message envelope members s known mine act =>
    intro to_ m sent
    exact .of_silent (act.silent sent)
  | completed id outcome s act =>
    intro to_ m sent
    rcases act.silent sent with silent | ⟨-, -, -, -, n, sender, -, -, found, -⟩
    · exact .of_silent silent
    · simp [bare.senders] at found
  | preVoteStarted =>
    intro to_ m sent
    obtain ⟨-, rfl⟩ := mem_toPeers sent
    rfl
  | readStarted readId =>
    exact Quotes.roundStarted (s := ⟨c, []⟩) wf bare.log (by simp) readId
  | _ => simp [Ctx.queued]

/-! ## Whole runs -/

/-- What a step does with the log and what it says about it. -/
structure Faithful (history : List (Record C)) (r : Record C) : Prop where
  log : r.after.log.WF
  bare : r.after.log.snapshot = none
  le : r.before.hardState.le r.after.hardState
  wrote : Wrote history r.before r.event r.after
  quotes : ∀ to_ m, .sendMessage to_ m ∈ r.effects → Quotes r.after to_ m
  speaks : ∀ to_ m term, .sendMessage to_ m ∈ r.effects → m.leaderTerm = some term →
    r.after.role = .leader ∧ r.after.hardState.currentTerm = term ∧ Elected history term

theorem Faithful.mono {history' : List (Record C)} {r : Record C} (h : Faithful history r)
    (grows : history ⊆ history') : Faithful history' r where
  log := h.log
  bare := h.bare
  le := h.le
  wrote := h.wrote.mono grows
  quotes := h.quotes
  speaks to_ m term sent is := by
    obtain ⟨leader, current, won⟩ := h.speaks to_ m term sent is
    exact ⟨leader, current, won.mono grows⟩

/-- A core in the middle of a step. -/
structure Quoting (history : List (Record C)) (c : RaftCore C) (event : Event C) (s : Ctx C) :
    Prop extends Leading history c event s where
  inRole : SpeaksInRole history c event
  faithful : ∀ r ∈ history, Faithful history r
  wf : s.core.WF
  bare : s.core.Bare
  le : c.hardState.le s.core.hardState
  wrote : ∀ result, Wrote (⟨c, event, result, s.core⟩ :: history) c event s.core
  quotes : ∀ to_ m, .sendMessage to_ m ∈ s.effects → Quotes s.core to_ m

/-- The step ends in a core with the same log and the same part in elections. -/
theorem Quoting.record {s : Ctx C} {d : RaftCore C} (h : Quoting history c event s)
    (result : Outcome StepError (StepOutput C))
    (sends : ∀ e, e ∈ (Record.mk c event result d).effects → e ∈ s.effects)
    (config : d.config = s.core.config) (log : d.log = s.core.log)
    (hardState : d.hardState = s.core.hardState) (role : d.role = s.core.role)
    (votes : d.votes = s.core.votes) :
    ∀ r ∈ (⟨c, event, result, d⟩ :: history : List (Record C)),
      Faithful (⟨c, event, result, d⟩ :: history) r := by
  have term : d.hardState.currentTerm = s.core.hardState.currentTerm := by rw [hardState]
  refine List.forall_mem_cons.mpr ⟨⟨?_, ?_, ?_, ?_, ?_, ?_⟩, fun r hr => ?_⟩
  · rw [log]; exact h.wf.log
  · rw [log]; exact h.bare.log
  · rw [hardState]; exact h.le
  · exact (h.wrote result).after config term votes (by rw [log])
  · intro to_ m sent
    exact (h.quotes to_ m (sends _ sent)).keep config (by rw [log]) (by rw [log])
  · intro to_ m t sent is
    obtain ⟨leader, rfl⟩ := h.spoken to_ m t (sends _ sent) is
    exact ⟨role.trans leader, term, ((h.tally result).leads leader).after config term votes⟩
  · exact (h.faithful r hr).mono (List.subset_cons_self _ _)

theorem Quoting.followUp {s s' : Ctx C} (h : Quoting history c event s)
    (leading : Leading history c event s') (hf : FollowUp ⟨c, event⟩ s s') :
    Quoting history c event s' := by
  have frame := hf.frame
  have le := hf.hardState_le h.wf.committed (h.wf.followUp hf).committed
  refine ⟨leading, h.inRole, h.faithful, h.wf.followUp hf, h.bare.followUp hf, h.le.trans le,
    fun result => ?_, fun to_ m sent => ?_⟩
  · exact (h.wrote result).after frame.config frame.term frame.votes frame.entries
  have old : .sendMessage to_ m ∈ s.effects → Quotes s'.core to_ m := fun sent =>
    (h.quotes to_ m sent).keep frame.config frame.entries frame.commit_le
  cases hf with
  | appendSent n p q prev prevTerm entries found next term isBatch held matched nextPos may leads =>
    rcases List.mem_append.mp sent with before | new
    · exact old before
    simp only [List.mem_singleton, Effect.sendMessage.injEq] at new
    obtain ⟨rfl, rfl⟩ := new
    have leader : s.core.role = .leader := leads.elim id fun durable =>
      (h.proposed durable).resolve_right fun none => by simp [none] at found
    have peer : to_ ∈ s.core.progress.keys := BTreeMap.mem_keys.mpr ⟨p, found⟩
    rw [h.wf.leads leader] at peer
    have zero : s.core.log.snapshotIndex = 0 := by simp [RaftLog.snapshotIndex, h.bare.log]
    obtain ⟨tail, is⟩ := isBatch
    rw [zero, Nat.sub_zero] at is
    refine ⟨by simpa using (List.mem_filter.mp peer).2, ?_, ⟨tail, is.symm⟩, h.wf.committed.ge⟩
    exact (h.wf.log.term_eq_ok_iff h.bare.log).mp term
  | applied | chunkRequested | buildRequested | committed =>
    exact old ((List.mem_append.mp sent).resolve_right (by simp))
  | readReleased =>
    exact old ((List.mem_append.mp sent).resolve_right (by simp))
  | readStarted readId rest =>
    have wf : ({ s.core with pendingReads := rest }).WF :=
      h.wf.congr rfl rfl rfl rfl rfl rfl rfl rfl rfl rfl rfl
    exact Quotes.roundStarted (s := ⟨{ s.core with pendingReads := rest }, s.effects⟩) wf
      h.bare.log (fun n m sent => (h.quotes n m sent).keep rfl rfl le_rfl) readId to_ m sent
  | _ => exact old sent

theorem Snapshotless.speaksInRole (h : Snapshotless history c event) (bare : c.Bare) :
    SpeaksInRole history c event :=
  ⟨h.1, (bare.undisturbed event).1, (bare.undisturbed event).2.1⟩

theorem Snapshotless.sparesVotes (h : Snapshotless history c event) (bare : c.Bare) :
    InstallsSpareVotes history c event :=
  ⟨h.1, (bare.undisturbed event).2.2, (bare.undisturbed event).2.1⟩

/-- What is known of a core between the steps of a run without snapshots. -/
structure Quoted (history : List (Record C)) (c : RaftCore C) : Prop where
  law : Meets Speaks history
  tally : Tally history c
  faithful : ∀ r ∈ history, Faithful history r
  log : c.log.WF
  bare : c.Bare

theorem quoting_keeps [Sha256] : Keeps (Snapshotless : Condition C) Quoted Quoting
    (fun history c => (∀ r ∈ history, Faithful history r) ∧ c.log.WF ∧ c.log.snapshot = none) where
  act := by
    intro history c event s hs h act
    have inRole := hs.meets.speaksInRole h.bare
    have leading := leading_keeps.act (hs.imp inRole) ⟨h.law, h.tally⟩ act
    exact ⟨leading, inRole, h.faithful, h.bare.act_wf hs.wf act, h.bare.act act hs.meets.2,
      act.hardState_le hs.wf (h.bare.undisturbed event).2.2,
      fun result => act.wrote h.bare (leading.tally result), act.quotes hs.wf h.bare⟩
  followUp hs act rest h hf :=
    h.followUp (leading_keeps.followUp (hs.imp h.inRole) act rest h.toLeading hf) hf
  finished := by
    intro history c event s hs h
    have leading := leading_keeps.finished (hs.imp h.inRole) h.toLeading
    obtain ⟨proposals, hp⟩ := s.finished_core c
    refine ⟨leading, h.inRole, h.faithful, ?_, ?_, ?_, fun result => ?_, fun to_ m sent => ?_⟩
    · rw [hp]; exact h.wf.congr rfl rfl rfl rfl rfl rfl rfl rfl rfl rfl rfl
    · rw [hp]; exact h.bare.congr rfl rfl rfl rfl (.inl rfl)
    · rw [hp]; exact h.le
    · rw [hp]; exact (h.wrote result).after rfl rfl rfl rfl
    · rw [hp]; exact (h.quotes to_ m (Ctx.finished_sends c sent)).keep rfl rfl le_rfl
  returned := by
    intro history c event s changed hs h
    obtain ⟨law, tally⟩ := leading_keeps.returned changed (hs.imp h.inRole) h.toLeading
    exact ⟨law, tally, h.record _ (fun _ he => he) rfl rfl rfl rfl rfl, h.wf.log, h.bare⟩
  failed := by
    intro history c event s e hs h quiet
    obtain ⟨law, tally⟩ := leading_keeps.failed e (hs.imp h.inRole) h.toLeading quiet
    exact ⟨law, tally, h.record _ (by rintro _ ⟨⟩) rfl rfl rfl rfl rfl, h.wf.log, h.bare⟩
  safe h := ⟨h.faithful, h.log, h.bare.log⟩
  ended e reason _ h :=
    ⟨h.record (Outcome.raise e) (by rintro _ ⟨⟩) rfl rfl rfl rfl rfl, h.wf.log, h.bare.log⟩
  halted := by
    intro history c c' event e reason hs h halted
    obtain ⟨-, reads, store, incoming, building, applying, persist, rfl⟩ := halted
    refine ⟨?_, hs.wf.log, h.bare.log⟩
    refine List.forall_mem_cons.mpr ⟨⟨hs.wf.log, h.bare.log, HardState.le_refl _, .kept rfl, ?_, ?_⟩,
      fun r hr => ?_⟩
    · rintro _ _ ⟨⟩
    · rintro _ _ _ ⟨⟩
    · exact (h.faithful r hr).mono (List.subset_cons_self _ _)
  idle := by
    intro history c event result _ silent ⟨faithful, wf, bare⟩
    refine ⟨List.forall_mem_cons.mpr ⟨⟨wf, bare, HardState.le_refl _, .kept rfl, ?_, ?_⟩,
      fun r hr => ?_⟩, wf, bare⟩
    · simp [silent]
    · simp [silent]
    · exact (faithful r hr).mono (List.subset_cons_self _ _)

theorem RaftCore.new_quoted (config : Config) :
    Quoted [] (RaftCore.new config (.initial : RecoveredState C)) where
  law := trivial
  tally := RaftCore.new_tally _ _
  faithful := by simp
  log := (RaftCore.new_wf _ _).log
  bare := RaftCore.new_bare config

/-- A core that is run without snapshots does with its log what it says, and keeps a ledger. -/
theorem Trace.faithful [Sha256] {config : Config}
    (run : Trace (RaftCore.new config .initial) history c) (plain : Holds Snapshotless history) :
    (∀ r ∈ history, Faithful history r) ∧ Ledger config history c := by
  have keeps := (quoting_keeps (C := C)).and (elects_keeps config)
    fun hs h => hs.meets.sparesVotes h.bare
  obtain ⟨⟨⟨faithful, -⟩, ledger⟩, -⟩ := Trace.invariant keeps (fun _ _ _ h => h.1)
    (RaftCore.new_wf config _) ⟨RaftCore.new_quoted config, RaftCore.new_elects config⟩ run plain
  exact ⟨faithful, ledger⟩

end Ruft
