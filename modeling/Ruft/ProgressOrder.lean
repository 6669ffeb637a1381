import Ruft.Exec
import Ruft.Followers
import Ruft.Probing

set_option autoImplicit false

/-!
# The order of a follower's progress

What a follower has acknowledged lies below its next position, which lies within the leader's
log or right behind it. Three things break this: a rejection with a hint beyond the log, a
snapshot response that comes when the follower has already acknowledged more than the snapshot,
and the installation of a received snapshot that cuts the log of a leader.

## Main definitions

- `Progress.Ordered` — the order
- `OrderKept` — the condition under which a step keeps it

## Main results

- `progress_ordered` — every leader of a run whose steps meet the condition orders its progress
-/

namespace Ruft

variable {C : Type} {c : RaftCore C} {event : Event C}

/-- `match_index < next_index <= last_index + 1`. -/
def Progress.Ordered (p : Progress) (last : Nat) : Prop :=
  p.matchIndex < p.nextIndex ∧ p.nextIndex ≤ last + 1

/-- The progress of each follower of a leader is ordered. -/
def RaftCore.ProgressOrdered (c : RaftCore C) : Prop :=
  c.role = .leader → ∀ node p, c.progress.get node = some p → p.Ordered c.log.lastIndex

/-- A rejection at or above the next position hints at a term that the leader has, or at an
index within its log or right behind it. -/
def RejectionFits (c : RaftCore C) (p : Progress) (matchIndex : Nat) (hint : ConflictHint) : Prop :=
  p.nextIndex ≤ matchIndex + 1 → hint.term.bind c.log.lastIndexOfTerm = none →
    hint.index ≤ c.log.lastIndex + 1

/-- The leader's log reaches the snapshot that the follower has, and the follower has not
acknowledged more. -/
def RestoreFits (c : RaftCore C) (p : Progress) (sender : SnapshotSender) : Prop :=
  p.matchIndex ≤ sender.snapshot.metadata.index ∧ sender.snapshot.metadata.index ≤ c.log.lastIndex

/-- A received snapshot leaves the suffix of a leader's log, or no follower is further. -/
def InstallFits (c : RaftCore C) (record : SnapshotRecord) : Prop :=
  c.log.term record.metadata.index = .ok record.metadata.term ∨
    ∀ node p, c.progress.get node = some p → p.nextIndex ≤ record.metadata.index + 1

/-- The condition on a step of a leader. -/
def OrderKept : Condition C := fun _ c event => c.role = .leader → match event with
  | .messageReceived envelope => ∀ p, c.progress.get envelope.from_ = some p →
    match envelope.message with
    | .appendEntriesResponse term false matchIndex conflict _ =>
      term = c.hardState.currentTerm →
        RejectionFits c p matchIndex (conflict.getD ⟨matchIndex, none⟩)
    | .installSnapshotResponse term true =>
      term = c.hardState.currentTerm →
        ∀ sender, c.snapshotSenders.get envelope.from_ = some sender → RestoreFits c p sender
    | _ => True
  | .effectCompleted id (.snapshotInstalled _) => ∀ record from_ term,
    c.incomingSnapshotState = some (.installing id record from_ term) → InstallFits c record
  | _ => True

/-! ## The moves -/

namespace Progress.Ordered

variable {p q : Progress} {last : Nat}

theorem mono {last' : Nat} (h : p.Ordered last) (le : last ≤ last') : p.Ordered last' :=
  ⟨h.1, h.2.trans (Nat.succ_le_succ le)⟩

theorem like (h : p.Ordered last) (like : p.Like q) : q.Ordered last := by
  rw [Progress.Ordered, like.matchIndex, like.nextIndex]
  exact h

theorem acknowledged {index : Nat} {changed : Bool} (h : p.Ordered last) (held : index ≤ last)
    (moved : p.acknowledged index = (.ok (q, changed) : Outcome StepError _)) : q.Ordered last := by
  rcases Progress.of_acknowledged moved with ⟨-, like⟩ | ⟨-, -, matched, next, -, -⟩
  · exact h.like like
  · obtain ⟨below, within⟩ := h
    constructor <;> omega

theorem reject {rejected next : Nat} {changed : Bool} (h : p.Ordered last) (room : last < u64Max)
    (fits : p.nextIndex ≤ rejected + 1 → next ≤ last + 1)
    (moved : p.reject rejected next = (.ok (q, changed) : Outcome StepError _)) :
    q.Ordered last := by
  obtain ⟨below, within⟩ := h
  rcases Progress.of_reject moved with like | ⟨fresh, matched, position, -, -⟩
  · exact Progress.Ordered.like ⟨below, within⟩ like
  · have reached : p.nextIndex ≤ rejected + 1 := by
      by_cases inside : rejected < u64Max
      · exact fresh inside
      · omega
    have := fits reached
    constructor <;> omega

theorem sent {ends : Nat} (h : p.Ordered last) (after : p.nextIndex ≤ ends + 1) (held : ends ≤ last)
    (moved : p.sent ends = (.ok q : Outcome StepError _)) : q.Ordered last := by
  obtain ⟨below, within⟩ := h
  obtain ⟨matched, -, -, next⟩ := Progress.of_sent moved
  split at next <;> constructor <;> omega

end Progress.Ordered

/-- A hint at a term that the log has leads into the log. -/
theorem rejectedNext_le {log : RaftLog C} {hint : ConflictHint} {next : Nat} (wf : log.WF)
    (ok : rejectedNext log hint = .ok next)
    (fits : hint.term.bind log.lastIndexOfTerm = none → hint.index ≤ log.lastIndex + 1) :
    next ≤ log.lastIndex + 1 := by
  unfold rejectedNext at ok
  split at ok
  · next index found =>
    obtain ⟨term, hint_, found⟩ := Option.bind_eq_some_iff.mp found
    have below := lastIndexOfTerm_lt wf found
    have held := (wf.term_isOk.mp ⟨_, (wf.lastIndexOfTerm_eq_some found).1⟩).2
    rw [checkedNextOr_eq_ok _ below, Except.ok.injEq] at ok
    omega
  · next none_ =>
    rw [Except.ok.injEq] at ok
    exact ok ▸ fits none_

/-- The order is kept by replication. -/
theorem ordered_rule : FollowerRule fun _ _ (log : RaftLog C) p => p.Ordered log.lastIndex where
  same entries snapshot like h := by
    have last : ∀ {log log' : RaftLog C}, log'.entries = log.entries → log'.snapshot = log.snapshot →
        log'.lastIndex = log.lastIndex := fun entries snapshot => by
      simp [RaftLog.lastIndex, RaftLog.snapshotIndex, entries, snapshot]
    rw [last entries snapshot]
    exact h.like like
  sent h sent := by
    cases sent with
    | kept like => exact h.like like
    | entered moved =>
      subst moved
      exact h
    | sent prev wf next above held free moved =>
      obtain ⟨after, within⟩ := wf.batchEnd_le _ above held
      exact h.sent (by omega) within moved

/-- What the handler does first to one follower. -/
theorem Progress.Ordered.move {history : List (Record C)} {node : NodeId} {p q : Progress}
    (h : p.Ordered c.log.lastIndex) (wf : c.WF) (leader : c.role = .leader)
    (found : c.progress.get node = some p) (kept : OrderKept history c event)
    (move : ProgressMove c event node p q) : q.Ordered c.log.lastIndex := by
  have room := wf.log.lastIndex_lt
  cases move with
  | kept like => exact h.like like
  | acknowledged envelope matchIndex conflict context changed is from_ message moved =>
    exact h.acknowledged (min_le_right _ _) moved
  | rejected envelope matchIndex conflict context next changed is from_ message hint moved =>
    subst is from_
    have fits := kept leader p found
    simp only [message] at fits
    exact h.reject room (fun reached => rejectedNext_le wf.log hint (fits trivial reached)) moved
  | restored envelope sender is from_ message sending moved =>
    subst is from_ moved
    have fits := kept leader p found
    simp only [message] at fits
    obtain ⟨matched, held⟩ := fits trivial sender sending
    exact ⟨Nat.lt_succ_of_le matched, Nat.succ_le_succ held⟩

/-- A leader's log after the installation of a snapshot. -/
theorem Progress.Ordered.installed {p : Progress} {node : NodeId} {record : SnapshotRecord}
    {log : RaftLog C} (h : p.Ordered c.log.lastIndex) (wf : c.WF)
    (found : c.progress.get node = some p) (fits : InstallFits c record)
    (install : c.log.installSnapshot record = .ok log) : p.Ordered log.lastIndex := by
  rw [wf.log.installSnapshot, Except.ok.injEq] at install
  by_cases term : c.log.term record.metadata.index = .ok record.metadata.term
  · have entries : log.entries = c.log.entries.drop (record.metadata.index - c.log.snapshotIndex) := by
      rw [← install, RaftLog.retained, if_pos term]
    have snapshot : log.snapshot = some record := by rw [← install]
    have wf' := wf.log.boundary term snapshot entries
    obtain ⟨above, held⟩ := wf.log.term_isOk.mp ⟨_, term⟩
    have last := wf.log.lastIndex
    refine h.mono (le_of_eq ?_)
    rw [wf'.lastIndex, entries, List.length_drop, RaftLog.snapshotIndex, snapshot, Option.elim_some]
    omega
  · have last : log.lastIndex = record.metadata.index := by
      rw [← install, RaftLog.retained, if_neg term]
      rfl
    rw [last]
    exact ⟨h.1, fits.resolve_left term node p found⟩

theorem RaftCore.ProgressOrdered.act [Sha256] {history : List (Record C)} {s : Ctx C} (wf : c.WF)
    (h : c.ProgressOrdered) (kept : OrderKept history c event) (act : Act c event s) :
    s.core.ProgressOrdered := by
  intro leader node q found
  cases act.leaderMove leader with
  | opened id stableThrough pending free started =>
    rw [started node q found]
    exact ⟨Nat.succ_pos _, le_rfl⟩
  | goes was log progress =>
    obtain ⟨p, found, move⟩ := progress node q found
    have ordered := h was node p found
    rcases log.grows wf.log with ⟨-, grown⟩ | ⟨id, snapshotId, record, from_, term, is, installing, ok⟩
    · exact (ordered.move wf was found kept move).mono grown
    · have fits := kept was
      subst is
      -- A completion moves no progress.
      have like : p.Like q := by
        cases move with
        | kept like => exact like
        | acknowledged _ _ _ _ _ is | rejected _ _ _ _ _ _ is | restored _ _ is => simp at is
      exact (ordered.installed wf found (fits record from_ term installing) ok).like like

/-- A step that meets the condition. -/
theorem RaftCore.ProgressOrdered.step [Sha256] {history : List (Record C)} {d : RaftCore C}
    (h : c.ProgressOrdered) (wf : c.WF) (kept : OrderKept history c event)
    (ends : StepEnds c event d) : d.ProgressOrdered :=
  ordered_rule.ends wf h ends fun _ act _ _ => h.act wf kept act

/-- In every run whose steps all meet the condition, every core orders its progress. -/
theorem Trace.progressOrdered [Sha256] {config : Config} {recovered : RecoveredState C}
    {history : List (Record C)} (run : Trace (RaftCore.new config recovered) history c)
    (kept : Holds OrderKept history) : c.ProgressOrdered := by
  induction run with
  | start => exact fun leader => by simp [RaftCore.new] at leader
  | @step history c c' event result earlier allowed run returns ih =>
    obtain ⟨now, before⟩ := kept
    by_cases stopped : c.stopped = true
    · obtain ⟨rfl, -⟩ := step_stopped stopped run
      exact ih before
    · have wf := earlier.wf.resolve_left stopped
      exact (ih before).step wf now (step_ends wf (by simpa using stopped) run returns)

/-- In every run of a cluster, a leader whose steps all meet the condition orders its progress. -/
theorem progress_ordered [Sha256] (config : NodeId → Config) (recovered : NodeId → RecoveredState C)
    {history : List (NodeId × Record C)} {cores : NodeId → RaftCore C}
    (run : Run (fun node => RaftCore.new (config node) (recovered node)) history cores)
    (node : NodeId) (kept : Holds OrderKept (localHistory history node)) :
    (cores node).ProgressOrdered :=
  (run.trace node).progressOrdered kept

instance (c : RaftCore C) (p : Progress) (matchIndex : Nat) (hint : ConflictHint) :
    Decidable (RejectionFits c p matchIndex hint) := inferInstanceAs (Decidable (_ → _))

instance (c : RaftCore C) (p : Progress) (sender : SnapshotSender) :
    Decidable (RestoreFits c p sender) := inferInstanceAs (Decidable (_ ∧ _))

/-- `OrderKept` as a check of a core that installs no snapshot. -/
def orderKeptCheck (c : RaftCore C) : Event C → Bool
  | .messageReceived envelope => (c.progress.get envelope.from_).all fun p =>
    match envelope.message with
    | .appendEntriesResponse _ false matchIndex conflict _ =>
      RejectionFits c p matchIndex (conflict.getD ⟨matchIndex, none⟩)
    | .installSnapshotResponse _ true =>
      (c.snapshotSenders.get envelope.from_).all fun sender => RestoreFits c p sender
    | _ => true
  | .effectCompleted _ (.snapshotInstalled _) => c.incomingSnapshotState = none
  | _ => true

theorem orderKept_of_check (history : List (Record C)) (c : RaftCore C) (event : Event C)
    (h : orderKeptCheck c event = true) : OrderKept history c event := by
  intro leader
  split
  · next envelope =>
    intro p found
    simp only [orderKeptCheck, found, Option.all_some] at h
    split
    · next term matchIndex conflict context is =>
      simp only [is, decide_eq_true_eq] at h
      exact fun _ => h
    · next term is =>
      intro _ sender sending
      simpa only [is, sending, Option.all_some, decide_eq_true_eq] using h
    · trivial
  · next id snapshotId =>
    intro record from_ term installing
    simp [orderKeptCheck, installing] at h
  · trivial

/-- Node 1 probes node 3 behind the snapshot once node 3 has installed it. -/
theorem progress_ordered_restored : ∃ w : World Nat,
    @Run Nat sha256Empty trio w.history (w.core trio) ∧
    (w.core trio 1).role = .leader ∧
    ((w.core trio 1).progress.get 3).map (fun p => (p.matchIndex, p.nextIndex)) = some (1, 3) ∧
    (w.core trio 1).ProgressOrdered := by
  let _ : Sha256 := sha256Empty
  obtain ⟨w, run, checked⟩ := World.exec_any trio
    (Script.receiveSnapshot ++ [Script.done 3 6 (.snapshotInstalled 7), Script.deliver 19])
    (fun w => ((w.core trio 1).role = .leader) &&
      ((((w.core trio 1).progress.get 3).map fun p => (p.matchIndex, p.nextIndex)) = some (1, 3)) &&
      (localHistory w.history 1).all fun r => orderKeptCheck r.before r.event)
    (by decide +kernel)
  simp only [Bool.and_eq_true, decide_eq_true_eq] at checked
  exact ⟨w, run, checked.1.1, checked.1.2, progress_ordered trioConfigs (fun _ => .initial) run 1
    (Holds.of_all orderKept_of_check checked.2)⟩

/-- Node 3 installs the snapshot through index 2, rejects a read heartbeat, and acknowledges
index 3, before node 1 gets the response to the snapshot. -/
def lateSnapshotResponse : List (Move Nat) := Script.sendSnapshot ++
  [Script.applied 3 3 1, Script.deliver 18, Script.done 3 4 (.snapshotChunkStored 7 0 (some ⟨[]⟩)),
    Script.persisted 3 5, Script.done 3 6 (.snapshotInstalled 7), Script.propose 1 2 8,
    Script.persisted 1 12, .event 1 (.read 5 []), Script.deliver 22, Script.deliver 23,
    Script.deliver 24, Script.persisted 3 7, Script.deliver 25, Script.deliver 19]

/-- Node 1 has index 3 acknowledged, and sends it to node 3 again. -/
theorem progress_disordered : ¬ ∀ (history : List (NodeId × Record Nat))
    (cores : NodeId → RaftCore Nat), @Run Nat sha256Empty trio history cores →
    ∀ node, (cores node).ProgressOrdered := by
  let _ : Sha256 := sha256Empty
  intro h
  obtain ⟨w, run, bad⟩ := World.exec_any trio lateSnapshotResponse
    (fun w => ((w.core trio 1).role = .leader) &&
      ((((w.core trio 1).progress.get 3).map fun p => (p.matchIndex, p.nextIndex)) = some (3, 3)))
    (by decide +kernel)
  simp only [Bool.and_eq_true, decide_eq_true_eq] at bad
  obtain ⟨p, found, is⟩ := Option.map_eq_some_iff.mp bad.2
  obtain ⟨matched, next⟩ := Prod.mk.inj is
  have below := (h _ _ run 1 bad.1 3 p found).1
  omega

end Ruft
