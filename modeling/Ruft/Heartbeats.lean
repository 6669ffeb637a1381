import Ruft.Slots
import Ruft.Exec

set_option autoImplicit false

/-!
# What a heartbeat sends again

On a heartbeat a leader goes through its followers and sends to those whose window has
room. A request that was lost keeps its place in the window, so a follower whose probe or
whose whole window was lost gets nothing.

## Main definitions

- `Turn` — what one turn of `replicate_all` does
- `Round` — the state in the middle of `replicate_all`
- `Retries` — every follower that waits for no snapshot gets something
- `CanRetry` — the states in which that happens

## Main results

- `heartbeat_retries` — exactly in these states a heartbeat serves every follower
-/

namespace Ruft

open Program StepM

variable {C : Type} {c d : RaftCore C} {s s' : Ctx C} {to_ : NodeId} {p : Progress}

/-! ## What is sent and when -/

/-- Something is sent to the follower, or the next chunk is read for it where its next entry
is compacted. -/
def Served (c : RaftCore C) (p : Progress) (s : Ctx C) (to_ : NodeId) : Prop :=
  (∃ term prev prevTerm commit context entries,
    .sendMessage to_ (.appendEntries term prev prevTerm commit context entries) ∈ s.effects) ∨
  p.nextIndex ≤ c.log.snapshotIndex ∧ ∃ id record offset maxLen,
    .readSnapshotChunk id record offset maxLen ∈ s.effects ∧
    s.core.pendingSnapshotReads.get id = some to_

/-- The step returns, and every follower that waits for no snapshot is served. -/
def Retries (c : RaftCore C) (stepped : Outcome StepError (StepOutput C) × RaftCore C) : Prop :=
  ∃ output, stepped.1 = .ok output ∧ ∀ to_ p, c.progress.get to_ = some p →
    p.state ≠ .snapshot → Served c p ⟨stepped.2, output.effects⟩ to_

/-- The window has room, and the entry before the next one is held or no chunk is on its way. -/
def Ready (c : RaftCore C) (to_ : NodeId) (p : Progress) : Prop :=
  p.canSend = true ∧ (p.nextIndex ≤ c.log.snapshotIndex → to_ ∉ c.pendingSnapshotReads.values) ∧
    p.nextIndex ≤ c.log.lastIndex + 1

/-- A chunk is read for the follower. -/
def asksChunk (c : RaftCore C) (to_ : NodeId) : Bool :=
  (c.progress.get to_).any fun p => p.canSend && decide (p.nextIndex ≤ c.log.snapshotIndex) &&
    decide (to_ ∉ c.pendingSnapshotReads.values)

/-- Committed entries wait to be applied. -/
def ApplyDue (c : RaftCore C) : Prop :=
  c.pendingApply = none ∧ c.appliedIndex < c.hardState.commitIndex

instance (c : RaftCore C) : Decidable (ApplyDue c) := inferInstanceAs (Decidable (_ ∧ _))

/-- How many effects of a heartbeat get an id. -/
def idsNeeded (c : RaftCore C) : Nat :=
  c.progress.keys.countP (asksChunk c) + if ApplyDue c then 1 else 0

/-- Every follower that waits for no snapshot can be sent to, and the rest of the step works:
the core passes its own check, what is to be applied is not compacted, and there are ids. -/
structure CanRetry (c : RaftCore C) : Prop where
  ready : ∀ to_ p, c.progress.get to_ = some p → p.state ≠ .snapshot → Ready c to_ p
  valid : c.validateInvariants = .ok ()
  applies : ApplyDue c → c.log.snapshotIndex ≤ c.appliedIndex
  ids : idsNeeded c = 0 ∨ c.nextEffectSequence + idsNeeded c ≤ u64Max

/-! ## One follower -/

/-- What one turn of `replicate_all` can do for a follower. -/
inductive Turn (s : Ctx C) (to_ : NodeId) (p : Progress) : Outcome StepError Unit × Ctx C → Prop
  | full (busy : p.canSend = false) : Turn s to_ p (.ok (), s)
  | waits (free : p.canSend = true) (compacted : p.nextIndex ≤ s.core.log.snapshotIndex)
      (reading : to_ ∈ s.core.pendingSnapshotReads.values) : Turn s to_ p (.ok (),
        ⟨{ s.core with progress := s.core.progress.insert to_ p.enterSnapshot }, s.effects⟩)
  | reads (free : p.canSend = true) (compacted : p.nextIndex ≤ s.core.log.snapshotIndex)
      (idle : to_ ∉ s.core.pendingSnapshotReads.values) (room : Room s.core)
      (senders : BTreeMap NodeId SnapshotSender) (sender : SnapshotSender) :
      Turn s to_ p (.ok (), ⟨{ s.core with
          progress := s.core.progress.insert to_ p.enterSnapshot
          snapshotSenders := senders
          nextEffectSequence := s.core.nextEffectSequence + 1
          pendingSnapshotReads := s.core.pendingSnapshotReads.insert s.allocated to_ },
        s.effects ++ [.readSnapshotChunk s.allocated sender.snapshot sender.offset
          s.core.config.snapshotChunkBytes]⟩)
  | exhausted (free : p.canSend = true) (compacted : p.nextIndex ≤ s.core.log.snapshotIndex)
      (idle : to_ ∉ s.core.pendingSnapshotReads.values) (full : ¬ Room s.core) (e : StepError)
      (s' : Ctx C) : Turn s to_ p (.error (.raise e), s')
  | appends (free : p.canSend = true) (held : s.core.log.snapshotIndex < p.nextIndex)
      (known : p.nextIndex ≤ s.core.log.lastIndex + 1) (q : Progress) (prevTerm : Nat)
      (entries : List (Entry C)) : Turn s to_ p (.ok (),
        ⟨{ s.core with progress := s.core.progress.insert to_ q },
          s.effects ++ [.sendMessage to_ (.appendEntries s.core.hardState.currentTerm
            (p.nextIndex - 1) prevTerm s.core.hardState.commitIndex none entries)]⟩)
  | missing (free : p.canSend = true) (beyond : s.core.log.lastIndex + 1 < p.nextIndex)
      (e : StepError) : Turn s to_ p (.error (.raise e), s)

/-- The end of `read_snapshot_chunk`, once the sender is there. -/
theorem requestChunk_run {sender : SnapshotSender}
    (found : s.core.snapshotSenders.get to_ = some sender) :
    let request : StepM C Unit := do
      let c ← core
      let sender ← Program.expect (c.snapshotSenders.get to_)
      let id ← nextEffectId
      update fun c => { c with pendingSnapshotReads := c.pendingSnapshotReads.insert id to_ }
      emit (.readSnapshotChunk id sender.snapshot sender.offset c.config.snapshotChunkBytes)
    (Room s.core → request s = (.ok (), ⟨{ s.core with
        nextEffectSequence := s.core.nextEffectSequence + 1
        pendingSnapshotReads := s.core.pendingSnapshotReads.insert s.allocated to_ },
      s.effects ++ [.readSnapshotChunk s.allocated sender.snapshot sender.offset
        s.core.config.snapshotChunkBytes]⟩)) ∧
    (¬ Room s.core → request s = (.error (.raise (.arithmetic .overflow)), s)) := by
  intro request
  have start : request s = (nextEffectId >>= fun id => do
      update fun c => { c with pendingSnapshotReads := c.pendingSnapshotReads.insert id to_ }
      emit (.readSnapshotChunk id sender.snapshot sender.offset s.core.config.snapshotChunkBytes) :
      StepM C Unit) s := by
    show (Program.expect (s.core.snapshotSenders.get to_) >>= _) s = _
    rw [found]
    rfl
  rw [start]
  refine ⟨fun room => ?_, fun full => ?_⟩
  · rw [bind_run_ok (nextEffectId_run room)]
    rfl
  · rw [bind_run_error (nextEffectId_overflow full)]

theorem readSnapshotChunk_run (compacted : 0 < s.core.log.snapshotIndex)
    (idle : to_ ∉ s.core.pendingSnapshotReads.values) :
    ∃ (senders : BTreeMap NodeId SnapshotSender) (sender : SnapshotSender),
      (Room s.core → (readSnapshotChunk to_ : StepM C Unit) s = (.ok (), ⟨{ s.core with
          snapshotSenders := senders
          nextEffectSequence := s.core.nextEffectSequence + 1
          pendingSnapshotReads := s.core.pendingSnapshotReads.insert s.allocated to_ },
        s.effects ++ [.readSnapshotChunk s.allocated sender.snapshot sender.offset
          s.core.config.snapshotChunkBytes]⟩)) ∧
      (¬ Room s.core → ∃ e s', (readSnapshotChunk to_ : StepM C Unit) s =
        (.error (.raise e), s')) := by
  cases found : s.core.snapshotSenders.get to_ with
  | some sender =>
    refine ⟨s.core.snapshotSenders, sender, ?_⟩
    rw [readSnapshotChunk, bind_run_ok (core_run _), if_neg idle, found]
    obtain ⟨reads, fails⟩ := requestChunk_run found
    exact ⟨reads, fun full => ⟨_, _, fails full⟩⟩
  | none =>
    cases held : s.core.log.snapshot with
    | none => simp [RaftLog.snapshotIndex, held] at compacted
    | some record =>
      refine ⟨s.core.snapshotSenders.insert to_ (SnapshotSender.new record),
        SnapshotSender.new record, ?_⟩
      rw [readSnapshotChunk, bind_run_ok (core_run _), if_neg idle, found, held]
      dsimp only
      rw [bind_run_ok (update_run _ _)]
      obtain ⟨reads, fails⟩ := @requestChunk_run C ⟨{ s.core with
        snapshotSenders := s.core.snapshotSenders.insert to_ (SnapshotSender.new record) },
        s.effects⟩ to_ _
        ((BTreeMap.get_insert _ _ _ _).trans (if_pos rfl))
      exact ⟨reads, fun full => ⟨_, _, fails full⟩⟩

theorem replicateTo_turn (wf : s.core.WF) (found : s.core.progress.get to_ = some p) :
    Turn s to_ p ((replicateTo to_ : StepM C Unit) s) := by
  obtain ⟨positive, -⟩ := wf.progress _ _ found
  have last := wf.log.lastIndex
  rw [replicateTo, bind_run_ok (core_run _), found]
  dsimp only
  cases window : p.canSend with
  | false => exact .full window
  | true =>
    rw [if_neg (by simp), wf.log.firstIndex]
    show Turn s to_ p ((if p.nextIndex < s.core.log.snapshotIndex + 1 then _ else _ :
      StepM C Unit) s)
    split
    · next below_ =>
      have compacted : p.nextIndex ≤ s.core.log.snapshotIndex := by omega
      rw [bind_run_ok (update_run _ _)]
      by_cases idle : to_ ∈ s.core.pendingSnapshotReads.values
      · rw [readSnapshotChunk, bind_run_ok (core_run _), if_pos (by exact idle)]
        exact .waits window compacted idle
      · obtain ⟨senders, sender, reads, fails⟩ := @readSnapshotChunk_run C ⟨{ s.core with
          progress := s.core.progress.insert to_ p.enterSnapshot }, s.effects⟩ to_
          (by show 0 < s.core.log.snapshotIndex; omega) idle
        by_cases room : Room s.core
        · rw [reads room]
          exact .reads window compacted idle room senders sender
        · obtain ⟨e, s', failed⟩ := fails room
          rw [failed]
          exact .exhausted window compacted idle room e s'
    · next held =>
      rw [Outcome.sub_eq_ok (show 1 ≤ p.nextIndex by omega)]
      show Turn s to_ p ((liftLog (s.core.log.term (p.nextIndex - 1)) >>= _) s)
      by_cases known : p.nextIndex ≤ s.core.log.lastIndex + 1
      · obtain ⟨prevTerm, term⟩ := wf.log.term_isOk.mpr
          ⟨show s.core.log.snapshotIndex ≤ p.nextIndex - 1 by omega,
            show p.nextIndex - 1 ≤ s.core.log.lastIndex by omega⟩
        rw [term]
        show Turn s to_ p ((replicationBatch p.nextIndex >>= _) s)
        obtain ⟨entries, tail, batch, split, -⟩ :=
          replicationBatch_run wf (show s.core.log.snapshotIndex < p.nextIndex by omega)
        obtain ⟨q, sent, -, -⟩ := Progress.sent_run (ε := StepError) p
          (wf.batchEnd_lt (show p.nextIndex - 1 ≤ s.core.log.lastIndex by omega) split) positive
        rw [bind_run_ok batch, sent]
        exact .appends window (by omega) known q prevTerm entries
      · cases term : s.core.log.term (p.nextIndex - 1) with
        | ok u =>
          have := (wf.log.term_isOk.mp ⟨u, term⟩).2
          omega
        | error f =>
          cases f with
          | panic => exact absurd term wf.log.term_ne_panic
          | raise e => exact .missing window (by omega) (.log e)

/-! ## All followers -/

/-- The state in the middle of `replicate_all`: `d` is the core it started from, `ks` are the
followers still to come. -/
structure Round (d : RaftCore C) (ks : List NodeId) (s : Ctx C) : Prop where
  kept : ∃ progress senders sequence reads, s.core = { d with
    progress := progress, snapshotSenders := senders, nextEffectSequence := sequence
    pendingSnapshotReads := reads }
  wf : s.core.WF
  progress : ∀ k ∈ ks, s.core.progress.get k = d.progress.get k
  reading : ∀ k ∈ ks, k ∈ s.core.pendingSnapshotReads.values ↔ k ∈ d.pendingSnapshotReads.values
  bounded : ∀ id k, s.core.pendingSnapshotReads.get id = some k →
    id.sequence ≤ s.core.nextEffectSequence
  count : s.core.nextEffectSequence + ks.countP (asksChunk d) =
    d.nextEffectSequence + d.progress.keys.countP (asksChunk d)
  grown : d.nextEffectSequence ≤ s.core.nextEffectSequence
  room : s.core.nextEffectSequence = d.nextEffectSequence ∨ s.core.nextEffectSequence ≤ u64Max
  served : ∀ k p, d.progress.get k = some p → k ∉ ks → Ready d k p → Served d p s k
  only : ∀ e ∈ s.effects, ∃ k p, d.progress.get k = some p ∧ Ready d k p ∧
    ((∃ m, e = .sendMessage k m) ∨ ∃ id record offset maxLen,
      e = .readSnapshotChunk id record offset maxLen ∧
      s.core.pendingSnapshotReads.get id = some k)

theorem Round.start (wf : d.WF)
    (bounded : ∀ id k, d.pendingSnapshotReads.get id = some k → id.sequence ≤ d.nextEffectSequence) :
    Round d d.progress.keys ⟨d, []⟩ where
  kept := ⟨_, _, _, _, rfl⟩
  wf := wf
  progress _ _ := rfl
  reading _ _ := .rfl
  bounded := bounded
  count := rfl
  grown := le_rfl
  room := .inl rfl
  served k p found done _ := absurd (BTreeMap.mem_keys.mpr ⟨p, found⟩) done
  only := by simp

/-- What was served stays served while reads are added. -/
theorem Served.mono (h : Served d p s to_) (effects : s.effects ⊆ s'.effects)
    (reads : ∀ id k, s.core.pendingSnapshotReads.get id = some k →
      s'.core.pendingSnapshotReads.get id = some k) : Served d p s' to_ := by
  rcases h with ⟨term, prev, prevTerm, commit, context, entries, sends⟩ |
    ⟨compacted, id, record, offset, maxLen, reading, pending⟩
  · exact .inl ⟨term, prev, prevTerm, commit, context, entries, effects sends⟩
  · exact .inr ⟨compacted, id, record, offset, maxLen, effects reading, reads _ _ pending⟩

/-- A follower is done: what its turn changed, and what it sent. -/
theorem Round.next {k : NodeId} {ks : List NodeId} (h : Round d (k :: ks) s) (fresh : k ∉ ks)
    (found : d.progress.get k = some p)
    (kept : ∃ progress senders sequence reads, s'.core = { s.core with
      progress := progress, snapshotSenders := senders, nextEffectSequence := sequence
      pendingSnapshotReads := reads })
    (wf : s'.core.WF)
    (progress : ∀ j, j ≠ k → s'.core.progress.get j = s.core.progress.get j)
    (old : ∀ id j, s.core.pendingSnapshotReads.get id = some j →
      s'.core.pendingSnapshotReads.get id = some j)
    (reads : ∀ id j, s'.core.pendingSnapshotReads.get id = some j →
      s.core.pendingSnapshotReads.get id = some j ∨
        j = k ∧ id.sequence ≤ s'.core.nextEffectSequence)
    (sequence : s'.core.nextEffectSequence =
      s.core.nextEffectSequence + if asksChunk d k then 1 else 0)
    (room : s'.core.nextEffectSequence = s.core.nextEffectSequence ∨
      s'.core.nextEffectSequence ≤ u64Max)
    {new : List (Effect C)} (effects : s'.effects = s.effects ++ new)
    (only : ∀ e ∈ new, Ready d k p ∧ ((∃ m, e = .sendMessage k m) ∨ ∃ id record offset maxLen,
      e = .readSnapshotChunk id record offset maxLen ∧
      s'.core.pendingSnapshotReads.get id = some k))
    (served : Ready d k p → Served d p s' k) : Round d ks s' where
  kept := by
    obtain ⟨progress, senders, sequence, reads, core⟩ := h.kept
    obtain ⟨progress', senders', sequence', reads', core'⟩ := kept
    exact ⟨progress', senders', sequence', reads', by rw [core', core]⟩
  wf := wf
  progress j hj := by
    rw [progress j (ne_of_mem_of_not_mem hj fresh)]
    exact h.progress j (List.mem_cons_of_mem _ hj)
  reading := by
    intro j hj
    rw [← h.reading j (List.mem_cons_of_mem _ hj), BTreeMap.mem_values, BTreeMap.mem_values]
    refine exists_congr fun id => ⟨fun now => ?_, old id j⟩
    exact (reads id j now).resolve_right fun new => ne_of_mem_of_not_mem hj fresh new.1
  bounded := by
    intro id j now
    rcases reads id j now with before | new
    · have := h.bounded id j before
      omega
    · exact new.2
  count := by
    have count := h.count
    rw [List.countP_cons] at count
    omega
  grown := by
    have grown := h.grown
    omega
  room := by
    have before := h.room
    omega
  served := by
    intro j q held done ready
    by_cases same : j = k
    · subst same
      obtain rfl : p = q := Option.some.inj (found.symm.trans held)
      exact served ready
    · refine (h.served j q held ?_ ready).mono (effects ▸ List.subset_append_left _ _) old
      exact fun mem => (List.mem_cons.mp mem).elim same done
  only := by
    intro e he
    rw [effects] at he
    rcases List.mem_append.mp he with he | he
    · obtain ⟨j, q, held, ready, is⟩ := h.only e he
      refine ⟨j, q, held, ready, is.imp_right ?_⟩
      rintro ⟨id, record, offset, maxLen, eq, pending⟩
      exact ⟨id, record, offset, maxLen, eq, old _ _ pending⟩
    · obtain ⟨ready, is⟩ := only e he
      exact ⟨k, p, found, ready, is⟩

/-- A turn that returned. -/
theorem Round.turn {k : NodeId} {ks : List NodeId} (h : Round d (k :: ks) s) (fresh : k ∉ ks)
    (found : d.progress.get k = some p) (wf : s'.core.WF) (turn : Turn s k p (.ok (), s')) :
    Round d ks s' := by
  have log : s.core.log = d.log := by
    obtain ⟨_, _, _, _, core⟩ := h.kept
    rw [core]
  have reading := h.reading k (List.mem_cons_self ..)
  have asks : asksChunk d k = (p.canSend && decide (p.nextIndex ≤ d.log.snapshotIndex) &&
      decide (k ∉ d.pendingSnapshotReads.values)) := by
    simp [asksChunk, found]
  have others : ∀ (q : Progress) j, j ≠ k →
      (s.core.progress.insert k q).get j = s.core.progress.get j := by
    intro q j other
    rw [BTreeMap.get_insert, if_neg other]
  cases turn with
  | full busy =>
    refine h.next fresh found ⟨_, _, _, _, rfl⟩ wf (fun _ _ => rfl) (fun _ _ held => held)
      (fun _ _ held => .inl held) (by simp [asks, busy]) (.inl rfl) (List.append_nil _).symm
      (by simp) fun ready => ?_
    simp [Ready, busy] at ready
  | waits free compacted busy =>
    rw [log] at compacted
    refine h.next fresh found ⟨_, _, _, _, rfl⟩ wf (others _) (fun _ _ held => held)
      (fun _ _ held => .inl held) (by simp [asks, reading.mp busy]) (.inl rfl)
      (List.append_nil _).symm (by simp) fun ready => ?_
    exact absurd (reading.mp busy) (ready.2.1 compacted)
  | reads free compacted idle room senders sender =>
    rw [log] at compacted
    have unread : k ∉ d.pendingSnapshotReads.values := fun busy => idle (reading.mpr busy)
    have last := h.wf.log.lastIndex
    rw [log] at last
    have ready : Ready d k p := ⟨free, fun _ => unread, by omega⟩
    have old : ∀ id j, s.core.pendingSnapshotReads.get id = some j →
        (s.core.pendingSnapshotReads.insert s.allocated k).get id = some j := by
      intro id j pending
      have below_ := h.bounded id j pending
      rw [BTreeMap.get_insert, if_neg, pending]
      rintro rfl
      simp only [Ctx.allocated] at below_
      omega
    refine h.next fresh found ⟨_, _, _, _, rfl⟩ wf (others _) old ?_
      (by simp [asks, free, compacted, unread]) (.inr room) rfl ?_ ?_
    · intro id j pending
      rw [BTreeMap.get_insert] at pending
      split at pending
      · next is => exact .inr ⟨(Option.some.inj pending).symm, by rw [is]; exact le_rfl⟩
      · exact .inl pending
    · intro e he
      obtain rfl := List.mem_singleton.mp he
      exact ⟨ready, .inr ⟨_, _, _, _, rfl, (BTreeMap.get_insert _ _ _ _).trans (if_pos rfl)⟩⟩
    · intro _
      exact .inr ⟨compacted, _, _, _, _, List.mem_append_right _ (List.mem_singleton_self _),
        (BTreeMap.get_insert _ _ _ _).trans (if_pos rfl)⟩
  | appends free held known q prevTerm entries =>
    rw [log] at held known
    have ready : Ready d k p := ⟨free, fun compacted => by omega, known⟩
    refine h.next fresh found ⟨_, _, _, _, rfl⟩ wf (others _) (fun _ _ held => held)
      (fun _ _ held => .inl held) (by simp [asks, held]) (.inl rfl) rfl ?_ ?_
    · intro e he
      obtain rfl := List.mem_singleton.mp he
      exact ⟨ready, .inl ⟨_, rfl⟩⟩
    · intro _
      exact .inl ⟨_, _, _, _, _, _, List.mem_append_right _ (List.mem_singleton_self _)⟩

/-- The followers that wait for no snapshot are ready, and there are ids for the chunks. -/
theorem Round.turns {k : NodeId} {ks : List NodeId} (h : Round d (k :: ks) s)
    (found : d.progress.get k = some p) (ready : p.canSend = true → Ready d k p)
    (ids : d.nextEffectSequence + d.progress.keys.countP (asksChunk d) ≤ u64Max ∨
      d.progress.keys.countP (asksChunk d) = 0) {r : Outcome StepError Unit}
    (turn : Turn s k p (r, s')) : r = .ok () := by
  have log : s.core.log = d.log := by
    obtain ⟨_, _, _, _, core⟩ := h.kept
    rw [core]
  cases turn with
  | full | waits | reads | appends => rfl
  | exhausted free compacted idle full e s' =>
    have reading := h.reading k (List.mem_cons_self ..)
    rw [log] at compacted
    have asks : asksChunk d k = true := by
      have unread : k ∉ d.pendingSnapshotReads.values := fun busy => idle (reading.mpr busy)
      simp [asksChunk, found, free, compacted, unread]
    have count := h.count
    have grown := h.grown
    rw [List.countP_cons, if_pos asks] at count
    have full : ¬ s.core.nextEffectSequence < u64Max := full
    omega
  | missing free beyond =>
    have known := (ready free).2.2
    rw [log] at beyond
    omega

/-- The turns keep the core well formed. -/
theorem Round.replicateTo_wf {ks : List NodeId} {r : Outcome StepError Unit}
    (leader : d.role = .leader) (free : d.pendingPersist = none) (h : Round d ks s)
    (run : (replicateTo to_ : StepM C Unit) s = (r, s')) : s'.core.WF := by
  obtain ⟨progress, senders, sequence, reads, core⟩ := h.kept
  have leads : s.core.role = .leader := by rw [core]; exact leader
  have idle : s.core.pendingPersist = none := by rw [core]; exact free
  have rest := (@replicateTo_leads C ⟨s.core, .tick .heartbeat⟩ s to_ (.inr ⟨leads, idle⟩)
    (.inl leads) h.wf).2
  rw [run] at rest
  exact h.wf.followUps rest

/-- What `replicate_all` leaves when it returns. -/
theorem Round.forEach {ks : List NodeId} (leader : d.role = .leader)
    (free : d.pendingPersist = none) (known : ∀ k ∈ ks, ∃ p, d.progress.get k = some p)
    (nodup : ks.Nodup) (h : Round d ks s)
    (run : (Program.forEach replicateTo ks : StepM C Unit) s = (.ok (), s')) : Round d [] s' := by
  induction ks generalizing s with
  | nil =>
    obtain ⟨-, rfl⟩ := Prod.mk.inj run
    exact h
  | cons k ks ih =>
    obtain ⟨fresh, nodup⟩ := List.nodup_cons.mp nodup
    obtain ⟨p, found⟩ := known k (List.mem_cons_self ..)
    obtain ⟨_, t, first, rest⟩ := bind_eq_ok run
    have turn := replicateTo_turn h.wf ((h.progress k (List.mem_cons_self ..)).trans found)
    rw [first] at turn
    have next := h.turn fresh found (h.replicateTo_wf leader free first) turn
    exact ih (fun j hj => known j (List.mem_cons_of_mem _ hj)) nodup next rest

/-- `replicate_all` returns when every follower that can be sent to is ready. -/
theorem Round.forEach_runs {ks : List NodeId} (leader : d.role = .leader)
    (free : d.pendingPersist = none)
    (ready : ∀ k ∈ ks, ∃ p, d.progress.get k = some p ∧ (p.canSend = true → Ready d k p))
    (ids : d.nextEffectSequence + d.progress.keys.countP (asksChunk d) ≤ u64Max ∨
      d.progress.keys.countP (asksChunk d) = 0)
    (nodup : ks.Nodup) (h : Round d ks s) :
    ∃ s', (Program.forEach replicateTo ks : StepM C Unit) s = (.ok (), s') := by
  induction ks generalizing s with
  | nil => exact ⟨s, rfl⟩
  | cons k ks ih =>
    obtain ⟨fresh, nodup⟩ := List.nodup_cons.mp nodup
    obtain ⟨p, found, sendable⟩ := ready k (List.mem_cons_self ..)
    have turn := replicateTo_turn h.wf ((h.progress k (List.mem_cons_self ..)).trans found)
    generalize first : (replicateTo k : StepM C Unit) s = run at turn
    obtain ⟨r, t⟩ := run
    obtain rfl := h.turns found sendable ids turn
    have next := h.turn fresh found (h.replicateTo_wf leader free first) turn
    obtain ⟨s', rest⟩ := ih (fun j hj => ready j (List.mem_cons_of_mem _ hj)) nodup next
    exact ⟨s', (bind_run_ok first _).trans rest⟩

/-! ## The whole step -/

/-- The core after the activity of the followers is reset. -/
def beat (c : RaftCore C) : RaftCore C :=
  { c with
    activeMembers := {c.config.localId}
    progress := c.progress.mapValues Progress.resetActivity }

theorem onHeartbeatTick_run (leader : c.role = .leader) (free : c.pendingPersist = none)
    (active : c.config.quorum ≤ c.activeMembers.card) :
    (onHeartbeatTick : StepM C Unit) ⟨c, []⟩ =
      (Program.forEach replicateTo (beat c).progress.keys : StepM C Unit) ⟨beat c, []⟩ := by
  rw [onHeartbeatTick, bind_run_ok (core_run _), if_neg (by simp [leader, free]),
    if_neg (Nat.not_lt.mpr active), bind_run_ok (update_run _ _)]
  rfl

theorem beat_wf (wf : c.WF) : (beat c).WF := by
  refine { wf with progress := ?_, leads := ?_ }
  · intro n p found
    rw [beat, BTreeMap.get_mapValues] at found
    obtain ⟨q, before, rfl⟩ := Option.map_eq_some_iff.mp found
    exact wf.progress n q before
  · intro leader
    rw [beat, BTreeMap.keys_mapValues]
    exact wf.leads leader

theorem beat_keys : (beat c).progress.keys = c.progress.keys := BTreeMap.keys_mapValues ..

theorem beat_get {k : NodeId} (found : c.progress.get k = some p) :
    (beat c).progress.get k = some p.resetActivity := by
  rw [beat, BTreeMap.get_mapValues, found]
  rfl

/-- Activity decides nothing that is sent. -/
theorem asksChunk_beat : asksChunk (beat c) = asksChunk c := by
  funext k
  simp only [asksChunk, beat, BTreeMap.get_mapValues]
  cases c.progress.get k <;> rfl

/-- `emit_apply_if_needed` with no persist outstanding. -/
theorem emitApply_cases (wf : s.core.WF) (free : s.core.pendingPersist = none) :
    (¬ ApplyDue s.core ∧ (emitApplyIfNeeded : StepM C Unit) s = (.ok (), s)) ∨
    (ApplyDue s.core ∧ s.core.log.snapshotIndex ≤ s.core.appliedIndex ∧ Room s.core ∧
      ∃ entries, (emitApplyIfNeeded : StepM C Unit) s = (.ok (), ⟨{ s.core with
          nextEffectSequence := s.core.nextEffectSequence + 1
          pendingApply := some ⟨s.allocated, s.core.hardState.commitIndex⟩ },
        s.effects ++ [.apply s.allocated entries]⟩)) ∨
    (ApplyDue s.core ∧ ¬ (s.core.log.snapshotIndex ≤ s.core.appliedIndex ∧
        s.core.hardState.commitIndex ≤ s.core.log.lastIndex ∧ Room s.core) ∧
      ∃ e s', (emitApplyIfNeeded : StepM C Unit) s = (.error (.raise e), s')) := by
  rw [emitApplyIfNeeded, bind_run_ok (core_run _)]
  by_cases due : ApplyDue s.core
  · obtain ⟨idle, behind⟩ := due
    have bound := wf.commit_lt
    rw [if_neg (by simp [free, idle, behind]), liftNext_ok (show _ < u64Max by omega)]
    dsimp only [bind_pure_run]
    by_cases held : s.core.log.snapshotIndex ≤ s.core.appliedIndex ∧
        s.core.hardState.commitIndex ≤ s.core.log.lastIndex
    · have range := wf.log.range (Nat.lt_succ_of_le held.1) behind held.2
      generalize (s.core.log.entries.drop _).take _ = entries at range
      rw [range]
      by_cases room : Room s.core
      · refine .inr (.inl ⟨⟨idle, behind⟩, held.1, room, entries, ?_⟩)
        show (nextEffectId >>= _) s = _
        rw [bind_run_ok (nextEffectId_run room)]
        rfl
      · refine .inr (.inr ⟨⟨idle, behind⟩, fun ok => room ok.2.2, .arithmetic .overflow, s, ?_⟩)
        show (nextEffectId >>= _) s = _
        rw [bind_run_error (nextEffectId_overflow room)]
    · refine .inr (.inr ⟨⟨idle, behind⟩, fun ok => held ⟨ok.1, ok.2.1⟩, ?_⟩)
      cases range : s.core.log.range (s.core.appliedIndex + 1) s.core.hardState.commitIndex with
      | ok entries =>
        obtain ⟨above, -, known⟩ := wf.log.range_eq_ok range
        exact absurd ⟨Nat.le_of_lt_succ above, known⟩ held
      | error f =>
        cases f with
        | panic => exact absurd range wf.log.range_ne_panic
        | raise e => exact ⟨.log e, s, rfl⟩
  · refine .inl ⟨due, ?_⟩
    rw [if_pos]
    · rfl
    · by_contra wanted
      simp only [not_or, Option.not_isSome_iff_eq_none, Nat.not_le] at wanted
      exact due wanted.2

/-- Where the commit index is past the log, the core's own check fails. -/
theorem RaftCore.commit_le_of_valid (valid : c.validateInvariants = .ok ()) :
    c.hardState.commitIndex ≤ c.log.lastIndex := by
  by_contra past
  unfold RaftCore.validateInvariants at valid
  dsimp only at valid
  split at valid
  · simp at valid
  · rw [if_pos (Nat.not_le.mp past)] at valid
    simp at valid

/-- The end of a step that returned tells that every follower could be sent to. -/
theorem Round.canRetry (free : c.pendingPersist = none) (h : Round (beat c) [] s)
    (applied : (emitApplyIfNeeded : StepM C Unit) s = (.ok (), s'))
    (valid : s'.core.validateInvariants = .ok ())
    (served : ∀ to_ p, c.progress.get to_ = some p → p.state ≠ .snapshot → Served c p s' to_) :
    CanRetry c := by
  obtain ⟨progress, senders, sequence, reads, core⟩ := h.kept
  have idle : s.core.pendingPersist = none := by rw [core]; exact free
  have count := h.count
  have room := h.room
  rw [asksChunk_beat, beat_keys, List.countP_nil, Nat.add_zero] at count
  have same : (beat c).nextEffectSequence = c.nextEffectSequence := rfl
  -- what the apply adds is not sent to anybody
  have ready : ∀ effects, (∀ e ∈ effects, e ∈ s.effects ∨ ∃ id entries, e = .apply id entries) →
      ∀ to_ p, c.progress.get to_ = some p →
      Served c p ⟨s.core, effects⟩ to_ → Ready c to_ p := by
    intro effects old to_ p found served
    rcases served with ⟨term, prev, prevTerm, commit, context, entries, sends⟩ |
      ⟨-, id, record, offset, maxLen, reading, pending⟩
    · obtain before | ⟨id, entries, is⟩ := old _ sends
      · obtain ⟨k, q, found', ready, ⟨m, is⟩ | ⟨_, _, _, _, is, -⟩⟩ := h.only _ before
        · obtain ⟨rfl, -⟩ := Effect.sendMessage.inj is
          obtain rfl := Option.some.inj ((beat_get found).symm.trans found')
          exact ready
        · simp at is
      · simp at is
    · obtain before | ⟨id, entries, is⟩ := old _ reading
      · obtain ⟨k, q, found', ready, ⟨m, is⟩ | ⟨_, _, _, _, is, mine⟩⟩ := h.only _ before
        · simp at is
        · obtain ⟨rfl, -⟩ := Effect.readSnapshotChunk.inj is
          obtain rfl : to_ = k := Option.some.inj (pending.symm.trans mine)
          obtain rfl := Option.some.inj ((beat_get found).symm.trans found')
          exact ready
      · simp at is
  rcases emitApply_cases h.wf idle with ⟨due, run⟩ | ⟨due, above, more, entries, run⟩ |
    ⟨-, -, e, t, run⟩
  · obtain ⟨-, rfl⟩ := Prod.mk.inj (applied.symm.trans run)
    rw [core] at valid due
    have due : ¬ ApplyDue c := due
    refine ⟨?_, valid, fun wanted => absurd wanted due, ?_⟩
    · exact fun to_ p found state => ready _ (fun e he => .inl he) to_ p found
        (served to_ p found state)
    · rw [idsNeeded, if_neg due]
      omega
  · obtain ⟨-, rfl⟩ := Prod.mk.inj (applied.symm.trans run)
    have more : s.core.nextEffectSequence < u64Max := more
    rw [core] at valid due above
    have due : ApplyDue c := due
    refine ⟨?_, valid, fun _ => above, ?_⟩
    · intro to_ p found state
      refine ready _ (fun e he => ?_) to_ p found (served to_ p found state)
      exact (List.mem_append.mp he).imp_right fun new => ⟨_, _, List.mem_singleton.mp new⟩
    · rw [idsNeeded, if_pos due]
      omega
  · rw [applied] at run
    simp at run

/-- The rest of a step that can serve every follower works. -/
theorem Round.retries (free : c.pendingPersist = none) (can : CanRetry c)
    (h : Round (beat c) [] s) : ∃ s', (emitApplyIfNeeded : StepM C Unit) s = (.ok (), s') ∧
      s'.core.role = c.role ∧ s'.core.validateInvariants = .ok () ∧
      ∀ to_ p, c.progress.get to_ = some p → p.state ≠ .snapshot → Served c p s' to_ := by
  obtain ⟨progress, senders, sequence, reads, core⟩ := h.kept
  have idle : s.core.pendingPersist = none := by rw [core]; exact free
  have count := h.count
  rw [asksChunk_beat, beat_keys, List.countP_nil, Nat.add_zero] at count
  have same : (beat c).nextEffectSequence = c.nextEffectSequence := rfl
  have served : ∀ to_ p, c.progress.get to_ = some p → p.state ≠ .snapshot →
      Served c p s to_ := by
    intro to_ p found state
    have ready : Ready (beat c) to_ p.resetActivity := can.ready to_ p found state
    exact h.served to_ p.resetActivity (beat_get found) (by simp) ready
  rcases emitApply_cases h.wf idle with ⟨due, run⟩ | ⟨due, above, more, entries, run⟩ |
    ⟨due, fails, e, t, run⟩
  · refine ⟨s, run, by rw [core]; rfl, ?_, served⟩
    rw [core]
    exact can.valid
  · refine ⟨_, run, by rw [core]; rfl, ?_, fun to_ p found state => ?_⟩
    · rw [core]
      exact can.valid
    · exact (served to_ p found state).mono (List.subset_append_left _ _) fun _ _ mine => mine
  · refine absurd ?_ fails
    have ids := can.ids
    rw [core] at due
    have due : ApplyDue c := due
    rw [idsNeeded, if_pos due] at ids
    have room : Room s.core := by
      show s.core.nextEffectSequence < u64Max
      omega
    refine ⟨?_, ?_, room⟩
    · rw [core]
      exact can.applies due
    · rw [core]
      exact RaftCore.commit_le_of_valid can.valid

/-- A heartbeat of a leader serves every follower exactly when each of them can be sent to and
nothing else fails in the step. -/
theorem heartbeat_retries [Sha256] (config : Config) (recovered : RecoveredState C)
    {history : List (Record C)} (run : Trace (RaftCore.new config recovered) history c)
    (running : c.stopped = false) (leader : c.role = .leader) (free : c.pendingPersist = none)
    (active : c.config.quorum ≤ c.activeMembers.card) :
    Retries c (step c (.tick .heartbeat)) ↔ CanRetry c := by
  have stopped : ¬ c.stopped = true := by simp [running]
  have wf := beat_wf (run.wf.resolve_left stopped)
  have start : Round (beat c) (beat c).progress.keys ⟨beat c, []⟩ := by
    refine .start wf fun id k pending => ?_
    exact ((run.slots.resolve_left stopped).bounded id _ (.reading id k pending)).2
  have nodup : (beat c).progress.keys.Nodup := (beat c).progress.keys_sorted.imp fun h => h.ne
  have known : ∀ k ∈ (beat c).progress.keys, ∃ p, (beat c).progress.get k = some p :=
    fun k hk => BTreeMap.mem_keys.mp hk
  have leads : (beat c).role = .leader := leader
  have idle : (beat c).pendingPersist = none := free
  constructor
  · rintro ⟨output, returned, served⟩
    obtain ⟨c', stepped⟩ : ∃ c', step c (.tick .heartbeat) = (.ok output, c') :=
      ⟨_, Prod.ext returned rfl⟩
    rw [stepped] at served
    rw [step_eq running] at stepped
    obtain ⟨s', processed, effects, core, valid⟩ := conclude_eq_ok stepped
    obtain ⟨_, s, handled, applied⟩ := bind_eq_ok processed
    have handled : (onHeartbeatTick : StepM C Unit) ⟨c, []⟩ = (.ok (), s) := handled
    rw [onHeartbeatTick_run leader free active] at handled
    have round := start.forEach leads idle known nodup handled
    have still : s'.core.role = .leader := by
      obtain ⟨role, -⟩ := emitApply_kept applied
      obtain ⟨progress, senders, sequence, reads, kept⟩ := round.kept
      rw [role, kept]
      exact leader
    rw [Ctx.finished_leader still] at effects core
    subst core
    rw [effects] at served
    exact round.canRetry free applied valid served
  · intro can
    have ids := can.ids
    have ready : ∀ k ∈ (beat c).progress.keys, ∃ p, (beat c).progress.get k = some p ∧
        (p.canSend = true → Ready (beat c) k p) := by
      intro k hk
      obtain ⟨p, found⟩ := BTreeMap.mem_keys.mp (beat_keys ▸ hk)
      refine ⟨p.resetActivity, beat_get found, fun sends => ?_⟩
      refine can.ready k p found fun waits => ?_
      have sends : p.canSend = true := sends
      simp [Progress.canSend, waits] at sends
    have enough : (beat c).nextEffectSequence +
        (beat c).progress.keys.countP (asksChunk (beat c)) ≤ u64Max ∨
        (beat c).progress.keys.countP (asksChunk (beat c)) = 0 := by
      rw [asksChunk_beat, beat_keys]
      have same : (beat c).nextEffectSequence = c.nextEffectSequence := rfl
      unfold idsNeeded at ids
      omega
    -- every follower that waits is ready, and there are ids for all chunks that are asked for
    obtain ⟨s, handled⟩ := start.forEach_runs leads idle ready enough nodup
    have round := start.forEach leads idle known nodup handled
    obtain ⟨s', applied, role, valid, served⟩ := round.retries free can
    rw [← onHeartbeatTick_run leader free active] at handled
    have processed : process (.tick .heartbeat) ⟨c, []⟩ = (.ok (), s') :=
      (bind_run_ok handled _).trans applied
    have done := Ctx.finished_leader (c := c) (role.trans leader)
    obtain ⟨output, concluded, effects⟩ := conclude_ok (c := c) (s := s') (by rwa [done])
    rw [done] at concluded effects
    rw [step_eq running, processed, concluded]
    refine ⟨output, rfl, fun to_ p found state => ?_⟩
    rw [effects]
    exact served to_ p found state

instance (c : RaftCore C) (to_ : NodeId) (p : Progress) : Decidable (Ready c to_ p) :=
  inferInstanceAs (Decidable (_ ∧ (_ → _) ∧ _))

/-- `CanRetry` as a check. -/
def canRetryCheck (c : RaftCore C) : Bool :=
  (c.progress.toList.all fun (to_, p) => p.state = .snapshot || decide (Ready c to_ p)) &&
    decide (c.validateInvariants = .ok ()) &&
    decide (ApplyDue c → c.log.snapshotIndex ≤ c.appliedIndex) &&
    decide (idsNeeded c = 0 ∨ c.nextEffectSequence + idsNeeded c ≤ u64Max)

theorem canRetry_of_check (h : canRetryCheck c = true) : CanRetry c := by
  simp only [canRetryCheck, Bool.and_eq_true, decide_eq_true_eq] at h
  obtain ⟨⟨⟨ready, valid⟩, applies⟩, ids⟩ := h
  refine ⟨fun to_ p found state => ?_, valid, applies, ids⟩
  have checked := List.all_eq_true.mp ready (to_, p) (BTreeMap.mem_toList.mpr found)
  simpa [state] using checked

/-- Node 1 leads with answers of nodes 2 and 3, and its heartbeat serves both. -/
theorem heartbeat_retries_both : ∃ w : World Nat,
    @Run Nat sha256Empty trio w.history (w.core trio) ∧
    Retries (w.core trio 1) (@step Nat sha256Empty (w.core trio 1) (.tick .heartbeat)) := by
  let _ : Sha256 := sha256Empty
  obtain ⟨w, run, checked⟩ := World.exec_any trio (Script.commitTwo ++ [Script.deliver 17])
    (fun w => (!(w.core trio 1).stopped && (w.core trio 1).role = .leader) &&
      ((w.core trio 1).pendingPersist.isNone && (w.core trio 1).config.quorum ≤
        (w.core trio 1).activeMembers.card) && canRetryCheck (w.core trio 1))
    (by decide +kernel)
  simp only [Bool.and_eq_true, Bool.not_eq_true', decide_eq_true_eq, Option.isNone_iff_eq_none]
    at checked
  obtain ⟨⟨⟨running, leader⟩, free, active⟩, can⟩ := checked
  exact ⟨w, run, (heartbeat_retries (trioConfig 1 (by decide)) .initial (run.trace 1) running
    leader free active).mpr (canRetry_of_check can)⟩

/-- Nothing is sent to the node. -/
def silentFor (to_ : NodeId) (r : Outcome StepError (StepOutput Nat)) : Bool :=
  match r with
  | .ok output => output.effects.all fun
    | .sendMessage n _ => n ≠ to_
    | _ => true
  | .error _ => true

/-- The probe of node 3 is not answered, and the heartbeat of node 1 sends node 3 nothing. -/
theorem heartbeat_silent : ¬ ∀ (history : List (Record Nat)) (c : RaftCore Nat),
    @Trace Nat sha256Empty (trio 1) history c → c.stopped = false → c.role = .leader →
    c.pendingPersist = none → c.config.quorum ≤ c.activeMembers.card →
    Retries c (@step Nat sha256Empty c (.tick .heartbeat)) := by
  let _ : Sha256 := sha256Empty
  intro h
  obtain ⟨w, run, checked⟩ := World.exec_any trio Script.commitTwo
    (fun w => (!(w.core trio 1).stopped && (w.core trio 1).role = .leader) &&
      ((w.core trio 1).pendingPersist.isNone && (w.core trio 1).config.quorum ≤
        (w.core trio 1).activeMembers.card) &&
      ((w.core trio 1).progress.get 3).any (fun p => p.state = .probe &&
        (w.core trio 1).log.snapshotIndex < p.nextIndex) &&
      silentFor 3 (step (w.core trio 1) (.tick .heartbeat)).1)
    (by decide +kernel)
  simp only [Bool.and_eq_true, Bool.not_eq_true', decide_eq_true_eq, Option.isNone_iff_eq_none,
    Option.any_eq_true] at checked
  obtain ⟨⟨⟨⟨running, leader⟩, free, active⟩, p, found, probing, held⟩, silent⟩ := checked
  obtain ⟨output, returned, served⟩ := h _ _ (run.trace 1) running leader free active
  rw [returned] at silent
  rcases served 3 p found (by simp [probing]) with ⟨_, _, _, _, _, _, sends⟩ | ⟨compacted, -⟩
  · simpa using List.all_eq_true.mp silent _ sends
  · omega

end Ruft
