import Ruft.Batches
import Ruft.Elections
import Ruft.Exec
import Ruft.Followers

set_option autoImplicit false

/-!
# The inflight window of a follower

Within one leadership, as long as the log of the leader only grows at its end or is compacted,
the end indexes of the requests in flight never decrease, whatever the followers answer. Each of
them lies below the end of every batch that can still be sent, because a later batch never ends
earlier. So an acknowledgement, which pops from the front, releases exactly the requests that
end at or below it.

## Main definitions

- `Progress.Window` — what holds of the requests in flight
- `LeaderCall` — a call that a leader takes: an event or `replicate_to`

## Main results

- `inflight_window` — the window after any calls of a leadership, and what one more call keeps
-/

namespace Ruft

variable {C : Type} {c : RaftCore C} {event : Event C}

/-- The requests in flight to a follower. -/
structure Progress.Window (p : Progress) (config : Config) (last : Nat) : Prop where
  sorted : p.inflights.indexes.Pairwise (· ≤ ·)
  held : ∀ i ∈ p.inflights.indexes, i ≤ last
  count : p.inflights.indexes.length ≤ config.maxInflightAppends
  probing : p.state = .probe → p.inflights.indexes.length ≤ 1
  released : ∀ index q, p.acknowledged index = (.ok (q, true) : Outcome StepError _) →
    q.inflights.indexes = p.inflights.indexes.filter (index < ·)

/-- Every batch that can still be sent ends behind the requests in flight. -/
structure Progress.Covered (p : Progress) (config : Config) (log : RaftLog C) : Prop where
  capacity : p.inflights.capacity = config.maxInflightAppends
  sorted : p.inflights.indexes.Pairwise (· ≤ ·)
  held : ∀ i ∈ p.inflights.indexes, i ≤ log.lastIndex
  count : p.inflights.indexes.length ≤ p.inflights.capacity
  probing : p.state = .probe → p.inflights.indexes.length ≤ 1
  behind : ∀ i ∈ p.inflights.indexes, ∀ prev, p.nextIndex ≤ prev + 1 → log.snapshotIndex ≤ prev →
    prev ≤ log.lastIndex → i ≤ log.batchEnd config prev

/-! ## The end of a batch -/

namespace RaftLog

variable {log log' : RaftLog C}

/-- A later batch ends no earlier. -/
theorem WF.batchEnd_mono (h : log.WF) (config : Config) {prev prev' : Nat}
    (above : log.snapshotIndex ≤ prev) (later : prev ≤ prev') (held : prev' ≤ log.lastIndex) :
    log.batchEnd config prev ≤ log.batchEnd config prev' := by
  have last := h.lastIndex
  have ends := h.batchEnd_le config above (later.trans held)
  have ends' := h.batchEnd_le config (above.trans later) held
  by_cases atEnd : prev' = log.lastIndex
  · omega
  · have inside : prev' - prev < (log.entries.drop (prev - log.snapshotIndex)).length := by
      rw [List.length_drop]
      omega
    have mono := batch_end_mono config inside
    rw [List.drop_drop, show prev - log.snapshotIndex + (prev' - prev) = prev' - log.snapshotIndex by
      omega] at mono
    rw [h.batchEnd_eq config above (later.trans held),
      h.batchEnd_eq config (above.trans later) held]
    omega

/-- A batch of a longer log ends no earlier. -/
theorem Grows.batchEnd_le (grows : log.Grows log') (h : log.WF) (h' : log'.WF) (config : Config)
    {prev : Nat} (above : log'.snapshotIndex ≤ prev) (held : prev ≤ log.lastIndex) :
    log.batchEnd config prev ≤ log'.batchEnd config prev := by
  have held' := held.trans (grows.lastIndex_le h h')
  have last := h.lastIndex
  obtain ⟨k, added, inside, entries, snapshot⟩ := grows
  have rest : log'.entries.drop (prev - log'.snapshotIndex) =
      log.entries.drop (prev - log.snapshotIndex) ++ added := by
    rw [entries, List.drop_append_of_le_length (by rw [List.length_drop]; omega), List.drop_drop,
      show k + (prev - log'.snapshotIndex) = prev - log.snapshotIndex by omega]
  rw [h.batchEnd_eq config (by omega) held, h'.batchEnd_eq config above held', rest]
  refine Nat.add_le_add_left ?_ _
  by_cases none_ : log.entries.drop (prev - log.snapshotIndex) = []
  · simp [none_, takeBatch]
  · exact (batch_longest config none_).length_mono
      (batch_longest config (List.append_ne_nil_of_left_ne_nil none_ _)) (List.prefix_append _ _)

end RaftLog

/-! ## What the moves do to the window -/

/-- What is popped from the front of a sorted window is what ends at or below the index. -/
theorem dropWhile_le_eq_filter {ends : List Nat} (sorted : ends.Pairwise (· ≤ ·)) (index : Nat) :
    ends.dropWhile (fun front => front ≤ index) = ends.filter (index < ·) := by
  induction ends with
  | nil => rfl
  | cons front rest ih =>
    obtain ⟨first, sorted⟩ := List.pairwise_cons.mp sorted
    by_cases done : front ≤ index
    · rw [List.dropWhile_cons_of_pos (by simpa using done),
        List.filter_cons_of_neg (by simpa using done), ih sorted]
    · rw [List.dropWhile_cons_of_neg (by simpa using done), List.filter_eq_self.mpr]
      intro i mem
      rcases List.mem_cons.mp mem with rfl | mem
      · simpa using done
      · have := first i mem
        simp only [decide_eq_true_eq]
        omega

namespace Progress.Covered

variable {p q : Progress} {config : Config} {log log' : RaftLog C}

/-- Nothing is in flight. -/
theorem clear (capacity : q.inflights.capacity = config.maxInflightAppends)
    (none_ : q.inflights.indexes = []) : q.Covered config log where
  capacity := capacity
  sorted := by simp [none_]
  held := by simp [none_]
  count := by simp [none_]
  probing := by simp [none_]
  behind := by simp [none_]

/-- Some of the requests are released and the next position moves up. -/
theorem released (h : p.Covered config log) (capacity : q.inflights.capacity = p.inflights.capacity)
    (part : q.inflights.indexes.Sublist p.inflights.indexes) (next : p.nextIndex ≤ q.nextIndex)
    (probing : q.state = .probe → p.state = .probe) : q.Covered config log where
  capacity := capacity.trans h.capacity
  sorted := h.sorted.sublist part
  held i flying := h.held i (part.subset flying)
  count := capacity ▸ part.length_le.trans h.count
  probing probe := part.length_le.trans (h.probing (probing probe))
  behind i flying prev reached above held :=
    h.behind i (part.subset flying) prev (next.trans reached) above held

theorem like (h : p.Covered config log) (like : p.Like q) : q.Covered config log :=
  h.released (by rw [like.inflights]) (by rw [like.inflights]) like.nextIndex.ge
    fun probe => like.state ▸ probe

theorem acknowledged {index : Nat} {changed : Bool} (h : p.Covered config log)
    (moved : p.acknowledged index = (.ok (q, changed) : Outcome StepError _)) :
    q.Covered config log := by
  rcases Progress.of_acknowledged moved with ⟨-, like⟩ | ⟨-, -, -, next, state, inflights⟩
  · exact h.like like
  · refine h.released (by rw [inflights]; rfl) ?_ (by omega) ?_
    · rw [inflights]
      exact List.dropWhile_sublist _
    · rw [state]
      split <;> simp_all

theorem reject {rejected next : Nat} {changed : Bool} (h : p.Covered config log)
    (moved : p.reject rejected next = (.ok (q, changed) : Outcome StepError _)) :
    q.Covered config log := by
  rcases Progress.of_reject moved with like | ⟨-, -, -, -, inflights⟩
  · exact h.like like
  · exact .clear (by rw [inflights]; exact h.capacity) (by rw [inflights]; rfl)

theorem sent {prev : Nat} (h : p.Covered config log) (wf : log.WF) (next : p.nextIndex = prev + 1)
    (above : log.snapshotIndex ≤ prev) (held : prev ≤ log.lastIndex) (free : p.canSend = true)
    (moved : p.sent (log.batchEnd config prev) = (.ok q : Outcome StepError _)) :
    q.Covered config log := by
  obtain ⟨-, state, inflights, position⟩ := Progress.of_sent moved
  have ends := wf.batchEnd_le config above held
  have later : prev + 1 ≤ q.nextIndex := by
    rw [position]
    split <;> omega
  by_cases full : p.inflights.isFull = true
  · have same : q.inflights = p.inflights := by rw [inflights, Inflights.push, if_pos full]
    exact h.released (by rw [same]) (by rw [same]) (by omega) fun probe => state ▸ probe
  · have pushed : q.inflights.indexes = p.inflights.indexes ++ [log.batchEnd config prev] := by
      rw [inflights, Inflights.push, if_neg full]
    have capacity : q.inflights.capacity = p.inflights.capacity := by
      rw [inflights, Inflights.push, if_neg full]
    have room : p.inflights.indexes.length < p.inflights.capacity := by
      simpa [Inflights.isFull] using full
    have below : ∀ i ∈ p.inflights.indexes, i ≤ log.batchEnd config prev := fun i flying =>
      h.behind i flying prev next.le above held
    refine ⟨capacity.trans h.capacity, ?_, ?_, ?_, ?_, ?_⟩
    · rw [pushed, List.pairwise_append]
      exact ⟨h.sorted, List.pairwise_singleton _ _, fun i flying j is => by
        rw [List.mem_singleton.mp is]
        exact below i flying⟩
    · rw [pushed]
      intro i flying
      rcases List.mem_append.mp flying with flying | is
      · exact h.held i flying
      · rw [List.mem_singleton.mp is]
        exact ends.2
    · rw [pushed, capacity, List.length_append, List.length_singleton]
      exact room
    · intro probe
      have idle : p.inflights.indexes.length = 0 := by
        rw [state] at probe
        simpa [Progress.canSend, probe, Inflights.len] using free
      rw [pushed, List.length_append, List.length_singleton, idle]
    · rw [pushed]
      intro i flying prev' reached above' held'
      have mono := wf.batchEnd_mono config above (show prev ≤ prev' by omega) held'
      rcases List.mem_append.mp flying with flying | is
      · exact (below i flying).trans mono
      · rw [List.mem_singleton.mp is]
        exact mono

/-- The log of the leader grew or was compacted. -/
theorem grown (h : p.Covered config log) (grows : log.Grows log') (wf : log.WF) (wf' : log'.WF) :
    p.Covered config log' where
  capacity := h.capacity
  sorted := h.sorted
  held i flying := (h.held i flying).trans (grows.lastIndex_le wf wf')
  count := h.count
  probing := h.probing
  behind i flying prev reached above held := by
    by_cases old : prev ≤ log.lastIndex
    · have start : log.snapshotIndex ≤ log'.snapshotIndex := by
        obtain ⟨k, -, -, -, snapshot⟩ := grows
        omega
      exact (h.behind i flying prev reached (start.trans above) old).trans
        (grows.batchEnd_le wf wf' config above old)
    · have := h.held i flying
      have := (wf'.batchEnd_le config above held).1
      omega

theorem same (h : p.Covered config log) (entries : log'.entries = log.entries)
    (snapshot : log'.snapshot = log.snapshot) : p.Covered config log' := by
  have start : log'.snapshotIndex = log.snapshotIndex := by rw [RaftLog.snapshotIndex, snapshot]; rfl
  have last : log'.lastIndex = log.lastIndex := by rw [RaftLog.lastIndex, entries, start]; rfl
  refine ⟨h.capacity, h.sorted, last ▸ h.held, h.count, h.probing, ?_⟩
  intro i flying prev reached above held
  have ends : log'.batchEnd config prev = log.batchEnd config prev := by
    rw [RaftLog.batchEnd, entries, start]
    rfl
  rw [ends]
  exact h.behind i flying prev reached (start ▸ above) (last ▸ held)

theorem window (h : p.Covered config log) : p.Window config log.lastIndex where
  sorted := h.sorted
  held := h.held
  count := h.capacity ▸ h.count
  probing := h.probing
  released index q moved := by
    rcases Progress.of_acknowledged moved with ⟨stale, -⟩ | ⟨-, -, -, -, -, inflights⟩
    · simp at stale
    · rw [inflights]
      exact dropWhile_le_eq_filter h.sorted index

end Progress.Covered

/-! ## The window of a leadership -/

theorem covered_rule : FollowerRule fun _ config (log : RaftLog C) p => p.Covered config log where
  same entries snapshot like h := (h.same entries snapshot).like like
  sent h sent := by
    cases sent with
    | kept like => exact h.like like
    | entered moved => exact .clear (by rw [moved]; exact h.capacity) (by rw [moved]; rfl)
    | sent prev wf next above held free moved => exact h.sent wf next above held free moved

/-- The followers of a leader have acknowledged at least so much. -/
theorem matched_rule (node : NodeId) (least : Nat) :
    FollowerRule fun other _ (_ : RaftLog C) p => other = node → least ≤ p.matchIndex where
  same _ _ like h := fun is => like.matchIndex ▸ h is
  sent h sent := by
    intro is
    have matched := h is
    cases sent with
    | kept like => rwa [like.matchIndex]
    | entered moved => rwa [moved]
    | sent prev wf next above held free moved => rwa [(Progress.of_sent moved).1]

theorem ProgressMove.matched {node : NodeId} {p q : Progress} (move : ProgressMove c event node p q) :
    p.matchIndex ≤ q.matchIndex := by
  cases move with
  | kept like => exact like.matchIndex.ge
  | acknowledged envelope matchIndex conflict context changed is from_ message moved =>
    rcases Progress.of_acknowledged moved with ⟨-, like⟩ | ⟨-, reached, matched, -⟩
    · exact like.matchIndex.ge
    · omega
  | rejected envelope matchIndex conflict context next changed is from_ message hint moved =>
    rcases Progress.of_reject moved with like | ⟨-, matched, -⟩
    · exact like.matchIndex.ge
    · exact matched.ge
  | restored envelope sender is from_ message found moved => exact moved ▸ le_rfl

theorem ProgressMove.covered {node : NodeId} {p q : Progress} (move : ProgressMove c event node p q)
    (h : p.Covered c.config c.log) : q.Covered c.config c.log := by
  cases move with
  | kept like => exact h.like like
  | acknowledged envelope matchIndex conflict context changed is from_ message moved =>
    exact h.acknowledged moved
  | rejected envelope matchIndex conflict context next changed is from_ message hint moved =>
    exact h.reject moved
  | restored envelope sender is from_ message found moved =>
    exact .clear (by rw [moved]; exact h.capacity) (by rw [moved]; rfl)

/-- A call that a leader takes: an event, or a replication to a follower. -/
inductive LeaderCall [Sha256] (c : RaftCore C) : RaftCore C → Prop
  | event (event : Event C) (result : Outcome StepError (StepOutput C)) (d : RaftCore C)
      (run : step c event = (result, d)) (returns : result ≠ Outcome.panic) : LeaderCall c d
  | replicateTo (to_ : NodeId) (result : Outcome StepError Unit) (s : Ctx C)
      (run : replicateTo to_ ⟨c, []⟩ = (result, s)) : LeaderCall c s.core

/-- A call of one leadership, which only appends to the log or compacts it. -/
structure Serves [Sha256] (c d : RaftCore C) : Prop where
  call : LeaderCall c d
  running : c.stopped = false
  leads : c.role = .leader
  leads' : d.role = .leader
  grows : c.log.Grows d.log

theorem RaftLog.Grows.congr {log log' log'' : RaftLog C} (h : log.Grows log')
    (entries : log''.entries = log'.entries) (snapshot : log''.snapshot = log'.snapshot) :
    log.Grows log'' := by
  obtain ⟨k, added, inside, is, start⟩ := h
  refine ⟨k, added, inside, entries.trans is, ?_⟩
  rw [← start, RaftLog.snapshotIndex, snapshot]
  rfl

/-- A log that only grew has not run out of indexes. -/
theorem RaftLog.Grows.not_overflowed {d : RaftCore C} (grows : c.log.Grows d.log) (wf : c.WF) :
    ¬ d.Overflowed := by
  rintro beyond
  obtain ⟨k, added, inside, -, start⟩ := grows
  have last := wf.log.lastIndex
  have room := wf.log.lastIndex_lt
  have bound := beyond.bound
  have ends : d.log.lastIndex = d.log.snapshotIndex := by
    rw [RaftLog.lastIndex, beyond.emptied]
    rfl
  have := beyond.last
  omega

/-- A leader replicates as after a snapshot response. -/
theorem replicateTo_followUps (wf : c.WF) (leads : c.role = .leader) {to_ : NodeId}
    {result : Outcome StepError Unit} {s : Ctx C} (run : replicateTo to_ ⟨c, []⟩ = (result, s)) :
    ∃ cause : Cause C, FollowUps cause ⟨c, []⟩ s := by
  let cause : Cause C := ⟨c, .messageReceived ⟨c.config.clusterId, to_, c.config.localId,
    .installSnapshotResponse c.hardState.currentTerm true⟩⟩
  have may : cause.MayReplicate := .inr ⟨leads, rfl⟩
  have rest := (replicateTo_leads (s := ⟨c, []⟩) to_ may (.inl leads) wf).2
  rw [run] at rest
  exact ⟨cause, rest⟩

/-- What a leader's call leaves when what the handler of an event does first leaves it. -/
theorem Serves.each [Sha256] {d : RaftCore C} {Q : NodeId → Config → RaftLog C → Progress → Prop}
    (serves : Serves c d) (wf : c.WF) (seated : c.Seated) (rule : FollowerRule Q) (h : c.Each Q)
    (moved : ∀ (event : Event C) node p q (log : RaftLog C), c.log.Grows log → log.WF →
      ProgressMove c event node p q → Q node c.config c.log p → Q node c.config log q) :
    d.Each Q := by
  cases serves.call with
  | event event result d run returns =>
    refine rule.ends wf h (step_ends wf serves.running run returns) ?_
    intro s act entries snapshot leader node q found
    have grows := serves.grows.congr entries snapshot
    have wf' : s.core.WF := (wf.act act).resolve_right fun ⟨beyond, _⟩ =>
      grows.not_overflowed wf beyond
    cases act.leaderMove leader with
    | opened id stableThrough pending => exact absurd rfl (seated serves.leads _ pending).1
    | goes was log progress =>
      obtain ⟨p, found, move⟩ := progress node q found
      rw [act.config_eq]
      exact moved event node p q _ grows wf'.log move (h was node p found)
  | replicateTo to_ result s run =>
    obtain ⟨cause, rest⟩ := replicateTo_followUps wf serves.leads run
    exact rule.replicated (s := ⟨c, []⟩) wf h rest

/-- The core that is left can take the next call. -/
theorem Serves.ready [Sha256] {d : RaftCore C} (serves : Serves c d) (wf : c.WF)
    (seated : c.Seated) : d.stopped = true ∨ d.WF ∧ d.Seated := by
  cases serves.call with
  | event event result d run returns =>
    rcases wf.step serves.running run returns, seated.step wf serves.running run returns with
      ⟨stopped | wf', stopped | seated'⟩
    · exact .inl stopped
    · exact .inl stopped
    · exact .inl stopped
    · exact .inr ⟨wf', seated'⟩
  | replicateTo to_ result s run =>
    obtain ⟨cause, rest⟩ := replicateTo_followUps wf serves.leads run
    exact .inr ⟨RaftCore.WF.followUps (s := ⟨c, []⟩) wf rest, rest.seated (s := ⟨c, []⟩) seated⟩

/-- No call of a leadership takes an acknowledgement back. -/
theorem Serves.matched [Sha256] {d : RaftCore C} (serves : Serves c d) (wf : c.WF)
    (seated : c.Seated) {node : NodeId} {p q : Progress} (found : c.progress.get node = some p)
    (found' : d.progress.get node = some q) : p.matchIndex ≤ q.matchIndex := by
  have start : c.Each fun other _ _ r => other = node → p.matchIndex ≤ r.matchIndex := by
    rintro - other r there rfl
    rw [Option.some.inj (found.symm.trans there)]
  have least := serves.each wf seated (matched_rule node p.matchIndex) start
    fun event other r r' log _ _ move h is => (h is).trans move.matched
  exact least serves.leads' node q found' rfl

/-- The windows of a leadership that began with a step of the core `c₀`. -/
theorem covered_of_calls [Sha256] {d e : RaftCore C} {result : Outcome StepError (StepOutput C)}
    (wf : c.WF) (seated : c.Seated) (running : c.stopped = false) (before : c.role ≠ .leader)
    (elected : step c event = (result, d)) (returns : result ≠ Outcome.panic)
    (calls : Relation.ReflTransGen Serves d e) :
    (e.Each fun _ config log p => p.Covered config log) ∧ (e.stopped = true ∨ e.WF ∧ e.Seated) := by
  induction calls with
  | refl =>
    constructor
    · refine covered_rule.ends wf (fun leader => absurd leader before)
        (step_ends wf running elected returns) ?_
      intro s act _ _ leader node p found
      cases act.leaderMove leader with
      | opened id stableThrough pending free started =>
        rw [started node p found]
        exact .clear rfl rfl
      | goes was => exact absurd was before
    · rcases wf.step running elected returns, seated.step wf running elected returns with
        ⟨stopped | wf', stopped | seated'⟩
      · exact .inl stopped
      · exact .inl stopped
      · exact .inl stopped
      · exact .inr ⟨wf', seated'⟩
  | tail _ serves ih =>
    obtain ⟨covered, ready⟩ := ih
    obtain ⟨wf', seated'⟩ := ready.resolve_left (by simp [serves.running])
    exact ⟨serves.each wf' seated' covered_rule covered
      fun event node p q log grows wf'' move h => (move.covered h).grown grows wf'.log wf'',
      serves.ready wf' seated'⟩

/-- After any calls of a leadership, every follower's window is in order, and no further call
takes an acknowledgement back. -/
theorem inflight_window [Sha256] (config : Config) (recovered : RecoveredState C)
    {history : List (Record C)} {d e : RaftCore C} {result : Outcome StepError (StepOutput C)}
    (run : Trace (RaftCore.new config recovered) history c) (running : c.stopped = false)
    (before : c.role ≠ .leader) (elected : step c event = (result, d))
    (returns : result ≠ Outcome.panic) (leads : d.role = .leader)
    (calls : Relation.ReflTransGen Serves d e) {node : NodeId} {p : Progress}
    (found : e.progress.get node = some p) :
    p.Window e.config e.log.lastIndex ∧ ∀ f, Serves e f → ∀ q, f.progress.get node = some q →
      p.matchIndex ≤ q.matchIndex := by
  have wf := run.wf.resolve_left (by simp [running])
  have seated := run.seated.resolve_left (by simp [running])
  obtain ⟨covered, ready⟩ := covered_of_calls wf seated running before elected returns calls
  have leads' : e.role = .leader := by
    cases calls with
    | refl => exact leads
    | tail _ serves => exact serves.leads'
  refine ⟨(covered leads' node p found).window, fun f serves q found' => ?_⟩
  obtain ⟨wf', seated'⟩ := ready.resolve_left (by simp [serves.running])
  exact serves.matched wf' seated' found found'

/-- Node 1 wins the votes of term 1 and persists its no-op. -/
def awaitsLeadership : List (Event Nat) :=
  [.tick .election, .messageReceived ⟨0, 2, 1, .preVoteResponse 0 true⟩,
    .effectCompleted ⟨0, 1⟩ .persisted, .messageReceived ⟨0, 2, 1, .voteResponse 1 true⟩]

def acknowledge (index : Nat) : Event Nat :=
  .messageReceived ⟨0, 2, 1, .appendEntriesResponse 1 true index none none⟩

/-- Node 2 acknowledges the no-op, and node 1 sends it two proposals, one after the other. -/
def sendsTwo : List (Event Nat) :=
  [acknowledge 1, .effectCompleted ⟨0, 3⟩ .persisted, .effectCompleted ⟨0, 4⟩ (.applied 1),
    .propose 1 7 1, .effectCompleted ⟨0, 5⟩ .persisted, .propose 2 8 1,
    .effectCompleted ⟨0, 6⟩ .persisted]

/-- The event is a call of one leadership, which only appends. -/
def servesCheck [Sha256] (c : RaftCore Nat) (event : Event Nat) : Bool :=
  let (result, d) := step c event
  (c.stopped = false) && (c.role = .leader) && result.isOk && (d.role = .leader) &&
    (d.log.entries = c.log.entries ++ d.log.entries.drop c.log.entries.length) &&
    (d.log.snapshot = c.log.snapshot)

theorem serves_of_check [Sha256] {c : RaftCore Nat} {event : Event Nat}
    (h : servesCheck c event = true) : Serves c (step c event).2 := by
  simp only [servesCheck, Bool.and_eq_true, decide_eq_true_eq] at h
  obtain ⟨⟨⟨⟨⟨running, leads⟩, ok⟩, leads'⟩, entries⟩, snapshot⟩ := h
  obtain ⟨output, d, ran⟩ := step_of_isOk ok
  rw [ran] at leads' entries snapshot ⊢
  refine ⟨.event event _ d ran (by simp), running, leads, leads', ?_⟩
  refine ⟨0, d.log.entries.drop c.log.entries.length, Nat.zero_le _, entries, ?_⟩
  rw [RaftLog.snapshotIndex, RaftLog.snapshotIndex, snapshot, Nat.add_zero]

/-- The core after some events. -/
def afterEvents [Sha256] (c : RaftCore Nat) : List (Event Nat) → RaftCore Nat
  | [] => c
  | event :: events => afterEvents (step c event).2 events

def callsCheck [Sha256] (c : RaftCore Nat) : List (Event Nat) → Bool
  | [] => true
  | event :: events => servesCheck c event && callsCheck (step c event).2 events

theorem calls_of_check [Sha256] (c : RaftCore Nat) (events : List (Event Nat))
    (h : callsCheck c events = true) : Relation.ReflTransGen Serves c (afterEvents c events) := by
  induction events generalizing c with
  | nil => exact .refl
  | cons event events ih =>
    rw [callsCheck, Bool.and_eq_true] at h
    exact .head (serves_of_check h.1) (ih _ h.2)

/-- Node 2 has three requests in flight, and its next acknowledgement releases two of them before
node 1 sends on. -/
theorem inflight_window_replicating : ∃ (e f : RaftCore Nat) (p q : Progress),
    e.progress.get 2 = some p ∧ f.progress.get 2 = some q ∧ p.state = .replicate ∧
    p.inflights.indexes = [1, 2, 3] ∧ q.inflights.indexes = [3, 3] ∧
    p.Window e.config e.log.lastIndex ∧ p.matchIndex ≤ q.matchIndex := by
  let _ : Sha256 := sha256Empty
  let elects : Event Nat := .effectCompleted ⟨0, 2⟩ .persisted
  obtain ⟨w, run, checked⟩ := Solo.exec_any (trio 1) awaitsLeadership (fun w =>
    let d := (step w.core elects).2
    let e := afterEvents d sendsTwo
    (w.core.stopped = false) && (w.core.role ≠ .leader) && (step w.core elects).1.isOk &&
      (d.role = .leader) && callsCheck d sendsTwo && servesCheck e (acknowledge 2) &&
      ((e.progress.get 2).any fun p => (p.state = .replicate) && p.inflights.indexes = [1, 2, 3]) &&
      ((step e (acknowledge 2)).2.progress.get 2).any fun q => q.inflights.indexes = [3, 3])
    (by decide +kernel)
  simp only [Bool.and_eq_true, decide_eq_true_eq, Option.any_eq_true] at checked
  obtain ⟨⟨⟨⟨⟨⟨⟨running, before⟩, elected⟩, leads⟩, sends⟩, takes⟩, p, foundP, state, three⟩,
    q, foundQ, two⟩ := checked
  obtain ⟨output, d, ran⟩ := step_of_isOk elected
  rw [ran] at leads sends takes foundP foundQ
  obtain ⟨window, keeps⟩ := inflight_window (trioConfig 1 (by decide)) .initial run running before
    ran (by simp) leads (calls_of_check d sendsTwo sends) foundP
  exact ⟨_, _, p, q, foundP, foundQ, state, three, two, window,
    keeps _ (serves_of_check takes) q foundQ⟩

end Ruft
