import Ruft.Decisions

set_option autoImplicit false

/-!
# State machine safety

What a quorum acknowledged in a term is in the logs of all later leaders: some voter of every
later leader held it, and a candidate is voted for only when its log is not behind. Whatever a
core commits is therefore part of one sequence of entries, and no two cores apply different
entries at an index.

## Main definitions

- `Chosen` — a quorum held the entries in the term of the last one
- `AppliesAgree` — entries that are applied at one index are equal

## Main results

- `Cluster.complete` — the logs of later leaders hold what was chosen
- `state_machine_safety` — no two cores apply different entries, when every accepted append
  proves the whole log
- `applied_differently` — two cores apply different entries after an unproved acknowledgement
-/

namespace Ruft

open LeaderLogs

variable {C : Type} {config : NodeId → Config} {members : List NodeId}
  {history : List (NodeId × Record C)} {cores : NodeId → RaftCore C}

/-! ## First times -/

/-- A step of a run, with what came before and after it. -/
structure StepOf [Sha256] (init : NodeId → RaftCore C) (history : List (NodeId × Record C))
    (later : List (NodeId × Record C)) (node : NodeId) (r : Record C)
    (earlier : List (NodeId × Record C)) (cores : NodeId → RaftCore C) : Prop where
  split : history = later ++ (node, r) :: earlier
  run : Run init earlier cores
  before : r.before = cores node
  delivered : Delivered earlier node r.event
  next : Run init ((node, r) :: earlier) (Function.update cores node r.after)

/-- What became true became true in some step. -/
theorem Run.first [Sha256] {init : NodeId → RaftCore C} (run : Run init history cores)
    {Q : List (NodeId × Record C) → Prop} (start : ¬ Q []) (now : Q history) :
    ∃ later node r earlier cores', StepOf init history later node r earlier cores' ∧
      Q ((node, r) :: earlier) ∧ ¬ Q earlier := by
  induction run with
  | start => exact absurd now start
  | @step history cores n c' event result earlier local_ allowed delivered run returns ih =>
    by_cases before : Q history
    · obtain ⟨later, node, r, rest, cores', step, found⟩ := ih before
      exact ⟨_ :: later, node, r, rest, cores', { step with split := by rw [step.split]; rfl }, found⟩
    · exact ⟨[], n, _, history, cores, ⟨rfl, earlier, rfl, delivered,
        .step earlier local_ allowed delivered run returns⟩, now, before⟩

theorem localHistory_cases {later earlier : List (NodeId × Record C)} {v : NodeId}
    {R : Record C → Record C → Prop} (pairs : (localHistory (later ++ earlier) v).Pairwise R)
    {q s : Record C} (hq : (v, q) ∈ later ++ earlier) (hs : (v, s) ∈ earlier) :
    (v, q) ∈ earlier ∨ R q s := by
  rw [localHistory_append] at pairs
  rcases List.mem_append.mp hq with after | before
  · exact .inr ((List.pairwise_append.mp pairs).2.2 q (mem_localHistory.mpr after) s
      (mem_localHistory.mpr hs))
  · exact .inl before

namespace StepOf

variable [Sha256] {init : NodeId → RaftCore C} {later earlier : List (NodeId × Record C)}
  {node : NodeId} {r : Record C}

theorem subset (h : StepOf init history later node r earlier cores) : earlier ⊆ history := by
  rw [h.split]
  exact List.subset_append_of_subset_right _ (List.subset_cons_self _ _)

theorem now_subset (h : StepOf init history later node r earlier cores) :
    (node, r) :: earlier ⊆ history := by
  rw [h.split]
  exact List.subset_append_right _ _

/-- A message that a step of the run so far received was sent before this step. -/
theorem sent (h : StepOf init history later node r earlier cores) {v : NodeId} {s : Record C}
    (hs : (v, s) ∈ (node, r) :: earlier) {envelope : Envelope C}
    (is : s.event = .messageReceived envelope) : Sent earlier envelope := by
  rcases List.mem_cons.mp hs with same | old
  · obtain ⟨rfl, rfl⟩ := Prod.mk.inj same
    have delivered := h.delivered
    rw [is] at delivered
    exact delivered.2
  · exact (h.run.sent old is).2

/-- A step of a node lies in the part of the run so far or comes after it. -/
theorem cases (h : StepOf init history later node r earlier cores) {v : NodeId}
    {R : Record C → Record C → Prop} (pairs : (localHistory history v).Pairwise R) {q s : Record C}
    (hq : (v, q) ∈ history) (hs : (v, s) ∈ (node, r) :: earlier) :
    (v, q) ∈ (node, r) :: earlier ∨ R q s := by
  rw [h.split] at hq pairs
  exact localHistory_cases pairs hq hs

theorem cases_before (h : StepOf init history later node r earlier cores) {v : NodeId}
    {R : Record C → Record C → Prop} (pairs : (localHistory history v).Pairwise R) {q s : Record C}
    (hq : (v, q) ∈ history) (hs : (v, s) ∈ earlier) : (v, q) ∈ earlier ∨ R q s := by
  rw [h.split, List.append_cons] at hq pairs
  exact localHistory_cases pairs hq hs

theorem visited (h : StepOf init history later node r earlier cores) {v : NodeId} {s : Record C}
    (hs : (v, s) ∈ (node, r) :: earlier) : Visited init earlier s.before := by
  rcases List.mem_cons.mp hs with same | old
  · obtain ⟨rfl, rfl⟩ := Prod.mk.inj same
    rw [h.before]
    exact h.run.visited v
  · exact h.run.before_cases old

end StepOf

theorem Trace.first [Sha256] {init c : RaftCore C} {steps : List (Record C)}
    (run : Trace init steps c) {Q : RaftCore C → Prop} (start : ¬ Q init) :
    (Q c → ∃ r ∈ steps, Q r.after ∧ ¬ Q r.before) ∧
    ∀ r ∈ steps, Q r.after → ∃ r ∈ steps, Q r.after ∧ ¬ Q r.before := by
  induction run with
  | start => exact ⟨fun now => absurd now start, by simp⟩
  | @step steps c c' event result earlier allowed run returns ih =>
    have found : Q c' → ∃ r ∈ (⟨c, event, result, c'⟩ :: steps : List (Record C)),
        Q r.after ∧ ¬ Q r.before := by
      intro now
      by_cases before : Q c
      · obtain ⟨r, hr, is⟩ := ih.1 before
        exact ⟨r, List.mem_cons_of_mem _ hr, is⟩
      · exact ⟨_, List.mem_cons_self .., now, before⟩
    refine ⟨found, List.forall_mem_cons.mpr ⟨found, fun r hr now => ?_⟩⟩
    obtain ⟨r, hr, is⟩ := ih.2 r hr now
    exact ⟨r, List.mem_cons_of_mem _ hr, is⟩

/-- A log that no step of a term changes is the same throughout the term. -/
theorem Trace.steady [Sha256] {init c : RaftCore C} {steps : List (Record C)}
    (run : Trace init steps c) (term : Nat)
    (le : ∀ r ∈ steps, r.before.hardState.currentTerm ≤ r.after.hardState.currentTerm)
    (kept : ∀ r ∈ steps, r.after.hardState.currentTerm = term →
      r.after.log.entries = r.before.log.entries) :
    (steps.Pairwise fun later earlier => later.after.hardState.currentTerm = term →
      earlier.after.hardState.currentTerm = term →
      later.after.log.entries = earlier.after.log.entries) ∧
    ∀ r ∈ steps, r.after.hardState.currentTerm ≤ c.hardState.currentTerm ∧
      (c.hardState.currentTerm = term → r.after.hardState.currentTerm = term →
        c.log.entries = r.after.log.entries) := by
  induction run with
  | start => exact ⟨.nil, by simp⟩
  | @step steps c c' event result earlier allowed run returns ih =>
    obtain ⟨le, les⟩ := List.forall_mem_cons.mp le
    obtain ⟨kept, keeps⟩ := List.forall_mem_cons.mp kept
    obtain ⟨pairs, reached⟩ := ih les keeps
    have le : c.hardState.currentTerm ≤ c'.hardState.currentTerm := le
    have later : ∀ r ∈ steps, c'.hardState.currentTerm = term →
        r.after.hardState.currentTerm = term → c'.log.entries = r.after.log.entries := by
      intro r hr now before
      have between := (reached r hr).1
      exact (kept now).trans ((reached r hr).2 (by omega) before)
    refine ⟨List.pairwise_cons.mpr ⟨later, pairs⟩, List.forall_mem_cons.mpr ⟨?_, fun r hr => ?_⟩⟩
    · exact ⟨le_rfl, fun _ _ => rfl⟩
    · exact ⟨(reached r hr).1.trans le, later r hr⟩

theorem RaftLog.WF.ascending {log : RaftLog C} (h : log.WF) : Ascending Entry.term log.entries := by
  intro i j a b le foundA foundB
  rcases Nat.lt_or_eq_of_le le with lt | rfl
  · obtain ⟨insideA, rfl⟩ := List.getElem?_eq_some_iff.mp foundA
    obtain ⟨insideB, rfl⟩ := List.getElem?_eq_some_iff.mp foundB
    exact List.pairwise_iff_getElem.mp h.terms.pairwise i j insideA insideB lt
  · rw [foundA] at foundB
    exact (congrArg Entry.term (Option.some.inj foundB)).le

/-- A prefix of a run with one member set is one. -/
theorem Cluster.earlier [Sha256] (h : Cluster config members history cores)
    {history' : List (NodeId × Record C)} {cores' : NodeId → RaftCore C}
    (run : Run (fun node => RaftCore.new (config node) .initial) history' cores')
    (sub : history' ⊆ history) : Cluster config members history' cores' :=
  ⟨run, h.common, fun p hp => h.unbuilt p (sub hp), fun p hp => h.room p (sub hp)⟩

theorem Cluster.decides [Sha256] (h : Cluster config members history cores) {node : NodeId}
    {r : Record C} (hr : (node, r) ∈ history) :
    Decides ((localHistory history node).map (·.event)) r.before r.event ⟨r.after, r.effects⟩ := by
  have law := (h.run.trace node).decides (h.run.snapshotless h.unbuilt h.room node)
  obtain ⟨later, earlier, split, decides⟩ := law.of_mem (mem_localHistory.mpr hr)
  refine Decides.mono decides ?_
  rw [split, List.map_append]
  exact List.subset_append_right _ _

/-- The terms of a log are not above the term of its core. -/
theorem Cluster.term_le [Sha256] (h : Cluster config members history cores) :
    ∀ p ∈ history, ∀ e ∈ p.2.after.log.entries, e.term ≤ p.2.after.hardState.currentTerm := by
  obtain ⟨run, common, unbuilt, room⟩ := h
  induction run with
  | start => simp
  | @step history cores n c' event result earlier local_ allowed delivered run returns ih =>
    have now : Cluster config members _ _ :=
      ⟨.step earlier local_ allowed delivered run returns, common, unbuilt, room⟩
    have cluster := now.earlier earlier (List.subset_cons_self _ _)
    have bound := ih cluster.unbuilt cluster.room
    have faithful := now.faithful (List.mem_cons_self ..)
    have le : (cores n).hardState.currentTerm ≤ c'.hardState.currentTerm := faithful.le.1
    have before : ∀ e ∈ (cores n).log.entries, e.term ≤ c'.hardState.currentTerm := by
      intro e he
      rcases earlier.core_cases n with first | ⟨r, hr, is⟩
      · simp [first, RaftCore.new, RaftLog.fromRecovered, RecoveredState.initial] at he
      · rw [← is] at he le
        exact (bound _ hr e he).trans le
    refine List.forall_mem_cons.mpr ⟨fun e he => ?_, bound⟩
    cases faithful.wrote with
    | kept same => exact before e (same ▸ he)
    | added entry is term =>
      rw [is] at he
      rcases List.mem_append.mp he with old | new
      · exact before e old
      · obtain rfl := List.mem_singleton.mp new
        exact term.le
    | merged envelope prev prevTerm leaderCommit context entries log appended received message
        prefix_ merge is =>
      have received : event = .messageReceived envelope := received
      subst received
      obtain ⟨r, hr, ⟨node, r', hr', -, current, same⟩, -, cut, -⟩ :=
        cluster.append_sent delivered.2 message
      rw [is] at he
      rcases merge.mem_incoming he with old | new
      · exact before e old
      · have sent := List.mem_of_mem_drop (cut.subset new)
        rw [← same] at sent
        exact (bound _ hr' e sent).trans current.le

/-! ## Leader completeness -/

/-- Every vote was given in a step that left the log as it was. -/
theorem Cluster.cast [Sha256] (h : Cluster config members history cores) {v candidate : NodeId}
    {term : Nat} (voted : Voted (localHistory history v) term candidate) :
    ∃ r, (v, r) ∈ history ∧ r.after.hardState.currentTerm = term ∧
      Casts r.before r.event r.after candidate ∧ r.after.log.entries = r.before.log.entries := by
  obtain ⟨r, hr, votes⟩ := voted
  have start : ¬ (RaftCore.new (config v) (.initial : RecoveredState C)).Votes term candidate := by
    simp [RaftCore.Votes, RaftCore.new, RecoveredState.initial]
  obtain ⟨r, hr, ⟨current, votes⟩, before⟩ :=
    ((h.run.trace v).first (Q := fun c => c.Votes term candidate) start).2 r hr votes
  have hr := mem_localHistory.mp hr
  rcases (h.decides hr).casts candidate votes with old | ⟨cast, same⟩
  · exact absurd (current ▸ old) before
  · exact ⟨r, hr, current, cast, same⟩

/-- What a node held in a lower term it had before the step, unless a leader in between
disagreed. -/
theorem Cluster.retained [Sha256] (h : Cluster config members history cores)
    {later earlier : List (NodeId × Record C)} {node v : NodeId} {r q s : Record C}
    {cores' : NodeId → RaftCore C}
    (step : StepOf (fun node => RaftCore.new (config node) .initial) history later node r earlier
      cores') (hs : (v, s) ∈ (node, r) :: earlier) (hq : (v, q) ∈ history)
    (lower : q.after.hardState.currentTerm < s.after.hardState.currentTerm) :
    Retains earlier q.after s.before := by
  have before := h.earlier step.run step.subset
  have upward : ∀ p, (v, p) ∈ history →
      p.before.hardState.currentTerm ≤ p.after.hardState.currentTerm :=
    fun p hp => (h.faithful hp).le.1
  have qUp := upward q hq
  have sUp := upward s (step.now_subset hs)
  have old : (v, q) ∈ (node, r) :: earlier := by
    refine (step.cases (h.retains v).1 hq hs).resolve_right fun after => ?_
    have := after.1
    omega
  rcases List.mem_cons.mp hs with now | inside
  · obtain ⟨rfl, rfl⟩ := Prod.mk.inj now
    rcases List.mem_cons.mp old with same | old
    · obtain ⟨-, rfl⟩ := Prod.mk.inj same
      omega
    · rw [step.before]
      exact ((before.retains v).2 q (mem_localHistory.mpr old)).2
  · have old : (v, q) ∈ earlier := by
      refine (List.mem_cons.mp old).resolve_left fun now => ?_
      obtain ⟨rfl, rfl⟩ := Prod.mk.inj now
      have after := (before.retains v).2 s (mem_localHistory.mpr inside)
      rw [← step.before] at after
      omega
    rcases pairwise_cases (before.retains v).1 (mem_localHistory.mpr inside)
      (mem_localHistory.mpr old) with rfl | ⟨-, retains⟩ | ⟨after, -⟩
    · omega
    · exact retains
    · omega

/-- A quorum of the members held the entries in the term of the last one. -/
structure Chosen (members : List NodeId) (history : List (NodeId × Record C)) (term : Nat)
    (K : List (Entry C)) : Prop where
  ne : K ≠ []
  last : TermAt Entry.term K K.length term
  leads : ∃ L, LeaderLog history term L ∧ K <+: L
  held : ∃ holders ⊆ members.toFinset, members.toFinset.card / 2 + 1 ≤ holders.card ∧
    ∀ n ∈ holders, ∃ r, (n, r) ∈ history ∧ r.after.hardState.currentTerm = term ∧
      K <+: r.after.log.entries

/-- Until it has won the term, the winner does not touch its log in the term. -/
theorem Cluster.steady [Sha256] (h : Cluster config members history cores)
    {earlier : List (NodeId × Record C)} {cores' : NodeId → RaftCore C} {n : NodeId} {term : Nat}
    (before : Cluster config members earlier cores') (sub : earlier ⊆ history)
    (won : Elected (localHistory history n) term) (unwon : ¬ Elected (localHistory earlier n) term)
    {r s : Record C} (hr : (n, r) ∈ earlier) (hs : (n, s) ∈ earlier)
    (current : r.after.hardState.currentTerm = term)
    (current' : s.after.hardState.currentTerm = term) :
    r.after.log.entries = s.after.log.entries := by
  have steady := ((before.run.trace n).steady term
    (fun r hr => (before.faithful (mem_localHistory.mp hr)).le.1) ?_).1
  · rcases pairwise_cases steady (mem_localHistory.mpr hr) (mem_localHistory.mpr hs) with
      rfl | later | later
    · rfl
    · exact later current current'
    · exact (later current' current).symm
  intro r hr now
  have hr := mem_localHistory.mp hr
  cases (before.faithful hr).wrote with
  | kept same => exact same
  | added entry is of won' => exact absurd (now ▸ of ▸ won') unwon
  | merged envelope prev prevTerm leaderCommit context entries log appended received message =>
    refine (h.not_heard won (sub hr) received ?_).elim
    rw [message, now]
    rfl

/-- A candidate whose log is not behind has what the voter has, when the leaders in between have
it. -/
theorem Cluster.carried [Sha256] (h : Cluster config members history cores) {c : RaftCore C}
    (seen : Visited (fun node => RaftCore.new (config node) .initial) history c) {n : NodeId}
    {x : Record C} (hx : (n, x) ∈ history) {term logTerm lastTerm : Nat} {K : List (Entry C)}
    (has : K <+: c.log.entries) (ne : K ≠ []) (lastK : TermAt Entry.term K K.length term)
    (newer : term < x.after.hardState.currentTerm)
    (lastX : x.after.log.term x.after.log.lastIndex = .ok logTerm)
    (last : c.log.term c.log.lastIndex = .ok lastTerm)
    (upToDate : isLogUpToDate x.after.log.lastIndex logTerm c.log.lastIndex lastTerm = true)
    (leaderless : ∀ L, ¬ LeaderLog history x.after.hardState.currentTerm L)
    (agreed : ∀ t L, term < t → t < x.after.hardState.currentTerm → LeaderLog history t L →
      K <+: L) : K <+: x.after.log.entries := by
  obtain ⟨copied, wf, bare⟩ := h.visited seen
  obtain ⟨copiedX, wfX, bareX⟩ := h.visited (.inr ⟨(n, x), hx, rfl⟩)
  rw [wf.length_eq bare] at last upToDate
  rw [wfX.length_eq bareX] at lastX upToDate
  rw [wf.term_eq_ok_iff bare] at last
  rw [wfX.term_eq_ok_iff bareX] at lastX
  have within : logTerm < x.after.hardState.currentTerm := by
    rcases lastX with ⟨-, rfl⟩ | ⟨e, pos, found, rfl⟩
    · omega
    · obtain ⟨L, leads, -⟩ := copiedX _ e found
      have le := h.term_le _ hx e (List.mem_of_getElem? found)
      exact lt_of_le_of_ne le fun same => leaderless L (same ▸ leads)
  refine copied.carries h.comparable copiedX wf.ascending has ne lastK last lastX within ?_ agreed
  simpa [isLogUpToDate] using upToDate

/-- What was chosen is in the logs of all later leaders. -/
theorem Cluster.complete [Sha256] (h : Cluster config members history cores) {term : Nat}
    {K : List (Entry C)} (chosen : Chosen members history term K) (term' : Nat)
    (newer : term < term') : ∀ L, LeaderLog history term' L → K <+: L := by
  induction term' using Nat.strong_induction_on with
  | h term' ih =>
  rintro _ ⟨n, y, hy, won, current, rfl⟩
  obtain ⟨later, node, p, earlier, cores', step, wins, unwon⟩ := h.run.first
    (Q := fun history => Elected (localHistory history n) term')
    (by rintro ⟨r, hr, -⟩; simp [localHistory] at hr) won
  have before := h.earlier step.run step.subset
  have next := h.earlier step.next step.now_subset
  have leaderless : ∀ L, ¬ LeaderLog earlier term' L := by
    rintro L ⟨a, r, hr, wonA, -⟩
    obtain rfl := h.winner_unique (wonA.mono (localHistory_mono step.subset a)) won
    exact unwon wonA
  -- a voter of the winner that held the entries
  obtain ⟨holders, known, many, held⟩ := chosen.held
  have elected := wins.won next.run next.ledger
  rw [h.common] at elected
  obtain ⟨voters, knownVoters, manyVoters, voted⟩ := elected
  obtain ⟨v, hv⟩ := Finset.inter_nonempty_of_card_lt_card_add_card known knownVoters
    (show members.toFinset.card < holders.card + voters.card by omega)
  obtain ⟨hvHeld, hvVoted⟩ := Finset.mem_inter.mp hv
  obtain ⟨q, hq, qTerm, has⟩ := held v hvHeld
  obtain ⟨s, hs, sTerm, cast, same⟩ := next.cast (voted v hvVoted)
  have agreed : ∀ t L, term < t → t < term' → LeaderLog earlier t L → K <+: L := by
    intro t L lo hi leads
    exact ih t hi lo L (leads.mono step.subset)
  have hasV : K <+: s.before.log.entries := by
    refine h.retained step hs hq (by omega) K has fun t L lo hi leads => ?_
    have le := (next.faithful hs).le.1
    rcases Nat.lt_trichotomy t term' with lower | rfl | higher
    · rcases Nat.lt_or_eq_of_le lo with lt | eq
      · exact .inl (agreed t L (by omega) lower leads)
      · obtain ⟨L₀, leads₀, pre⟩ := chosen.leads
        obtain rfl : t = term := by omega
        rcases h.comparable _ _ _ (leads.mono step.subset) leads₀ with shorter | longer
        · exact List.prefix_or_prefix_of_prefix pre shorter
        · exact .inl (pre.trans longer)
    · exact absurd leads (leaderless L)
    · omega
  have grows := h.winner_grows won
  cases cast with
  | own mine raised =>
    -- the winner itself, when it campaigned
    obtain rfl : n = v := by
      rw [mine, ((next.ledger v).states s (mem_localHistory.mpr hs)).config]
      exact next.run.localId hs
    rw [← same] at hasV
    rcases pairwise_cases ((h.retains n).1.and grows) (mem_localHistory.mpr hy)
      (mem_localHistory.mpr (step.now_subset hs)) with rfl | ⟨-, grown⟩ | ⟨⟨after, -⟩, -⟩
    · exact hasV
    · exact hasV.trans (grown sTerm current)
    · omega
  | asked envelope index logTerm lastTerm received from_ message last upToDate =>
    obtain ⟨x, hx, sends⟩ := step.sent hs received
    rw [from_] at hx
    rw [message, sTerm] at sends
    obtain ⟨xTerm, rfl, xLast⟩ := (before.decides hx).asks _ _ _ _ sends
    have hasX : K <+: x.after.log.entries := by
      subst xTerm
      exact before.carried (step.visited hs) hx hasV chosen.ne chosen.last newer xLast last upToDate
        leaderless agreed
    rcases step.cases_before grows hy hx with inside | grown
    · rw [h.steady before step.subset won unwon inside hx current xTerm]
      exact hasX
    · exact hasX.trans (grown xTerm current)

/-! ## Commits -/

theorem Chosen.mono {history' : List (NodeId × Record C)} {term : Nat} {K : List (Entry C)}
    (h : Chosen members history term K) (grows : history ⊆ history') :
    Chosen members history' term K := by
  obtain ⟨L, leads, pre⟩ := h.leads
  obtain ⟨holders, known, many, held⟩ := h.held
  refine ⟨h.ne, h.last, ⟨L, leads.mono grows, pre⟩, holders, known, many, fun n hn => ?_⟩
  obtain ⟨r, hr, rest⟩ := held n hn
  exact ⟨r, grows hr, rest⟩

/-- Whatever was chosen is one sequence. -/
theorem Cluster.chosen_comparable [Sha256] (h : Cluster config members history cores)
    {term term' : Nat} {K K' : List (Entry C)} (chosen : Chosen members history term K)
    (chosen' : Chosen members history term' K') : K <+: K' ∨ K' <+: K := by
  obtain ⟨L, leads, pre⟩ := chosen.leads
  obtain ⟨L', leads', pre'⟩ := chosen'.leads
  rcases Nat.lt_trichotomy term term' with lt | rfl | gt
  · exact List.prefix_or_prefix_of_prefix (h.complete chosen term' lt L' leads') pre'
  · rcases h.comparable _ _ _ leads leads' with shorter | longer
    · exact List.prefix_or_prefix_of_prefix (pre.trans shorter) pre'
    · exact List.prefix_or_prefix_of_prefix pre (pre'.trans longer)
  · exact List.prefix_or_prefix_of_prefix pre (h.complete chosen' term gt L leads)

/-- What the core has committed was chosen. -/
structure Secured (members : List NodeId) (history : List (NodeId × Record C)) (c : RaftCore C) :
    Prop where
  le : c.log.committed ≤ c.log.entries.length
  chosen : c.log.committed = 0 ∨ ∃ term K, Chosen members history term K ∧
    c.log.entries.take c.log.committed <+: K

theorem Secured.mono {history' : List (NodeId × Record C)} {c : RaftCore C}
    (h : Secured members history c) (grows : history ⊆ history') : Secured members history' c :=
  ⟨h.le, h.chosen.imp_right fun ⟨term, K, chosen, pre⟩ => ⟨term, K, chosen.mono grows, pre⟩⟩

theorem Secured.keep {c d : RaftCore C} (h : Secured members history c)
    (committed : d.log.committed = c.log.committed)
    (take : d.log.entries.take c.log.committed = c.log.entries.take c.log.committed) :
    Secured members history d := by
  refine ⟨?_, ?_⟩
  · have size := congrArg List.length take
    rw [List.length_take, List.length_take, Nat.min_eq_left h.le] at size
    omega
  · rw [committed, take]
    exact h.chosen

/-- A step keeps the committed entries. -/
theorem Wrote.take_committed {c d : RaftCore C} {event : Event C} {steps : List (Record C)}
    (h : Wrote steps c event d) (bare : c.log.snapshot = none)
    (le : c.log.committed ≤ c.log.entries.length) :
    d.log.entries.take c.log.committed = c.log.entries.take c.log.committed := by
  cases h with
  | kept same => rw [same]
  | added entry is => rw [is, List.take_append_of_le_length le]
  | merged envelope prev prevTerm leaderCommit context entries log appended received message
      prefix_ merge is =>
    rw [is]
    exact merge.take_committed (by simp [RaftLog.snapshotIndex, bare])

section Commits

variable [Sha256]

/-- What a leader committed was chosen. -/
theorem Cluster.counted (h : Cluster config members history cores)
    (whole : ∀ p ∈ history, ProvesWhole p.2.before p.2.event) {node : NodeId} {r : Record C}
    (hr : (node, r) ∈ history)
    (at_ : r.after.log.term r.after.log.committed = .ok r.after.hardState.currentTerm)
    (positive : 0 < r.after.log.committed) {holders : Finset NodeId}
    (known : holders ⊆ r.after.config.members.toFinset)
    (quorum : r.after.config.quorum ≤ holders.card)
    (credited : ∀ n ∈ holders, n = r.after.config.localId ∨
      Credited ((localHistory history node).map (·.event)) r.after.hardState.currentTerm n
        r.after.log.committed) : Secured members history r.after := by
  obtain ⟨copied, wf, bare⟩ := h.visited (.inr ⟨(node, r), hr, rfl⟩)
  have configured := ((h.ledger node).states r (mem_localHistory.mpr hr)).config
  rw [wf.term_eq_ok_iff bare] at at_
  have le := at_.le_length
  rw [configured, h.common] at known
  rw [configured, (config node).quorum_eq, h.common] at quorum
  let K := r.after.log.entries.take r.after.log.committed
  have size : K.length = r.after.log.committed := List.length_take_of_le le
  have has : K <+: r.after.log.entries := List.take_prefix _ _
  have last : TermAt Entry.term K K.length r.after.hardState.currentTerm := by
    rw [size]
    exact at_.take le_rfl
  have ne : K ≠ [] := List.length_pos_iff.mp (size ▸ positive)
  -- what is committed ends in an entry of the current term, so a leader of the term wrote it
  obtain ⟨L, leads, pre⟩ := (copied.initial has).copy ne last
  have many : members.toFinset.card / 2 + 1 ≤ holders.card := by
    have := List.toFinset_card_le members
    omega
  refine ⟨le, .inr ⟨_, K, ⟨ne, last, ⟨L, leads, pre⟩, holders, known, many, fun n hn => ?_⟩,
    List.prefix_refl _⟩⟩
  rcases credited n hn with rfl | heard
  · refine ⟨r, ?_, rfl, has⟩
    have localId : (config node).localId = node := h.run.localId hr
    rw [configured, localId]
    exact hr
  · obtain ⟨q, k, context, hq, reaches, accepted⟩ := h.acked heard
    obtain ⟨L', leads', copy⟩ := h.accepted_copies whole hq accepted
    cases accepted with
    | mk _ _ _ _ _ _ _ _ _ _ current _ _ _ length =>
    refine ⟨q, hq, current, ?_⟩
    -- both logs copy logs of leaders of one term
    rcases h.comparable _ _ _ leads leads' with shorter | longer
    · exact List.prefix_of_prefix_length_le (pre.trans shorter) copy (by omega)
    · exact List.prefix_of_prefix_length_le pre (copy.trans longer) (by omega)

/-- What a follower learns to be committed was chosen. -/
theorem Cluster.told (h : Cluster config members history cores)
    (whole : ∀ p ∈ history, ProvesWhole p.2.before p.2.event) {node : NodeId} {r : Record C}
    (hr : (node, r) ∈ history) {term leaderCommit : Nat} {context : Option Bytes}
    (accepted : Accepted r.before r.event r.after term r.after.log.entries.length context)
    {s : Record C} (leads : LeaderLog history term s.after.log.entries)
    (secured : Secured members history s.after) (known : leaderCommit ≤ s.after.log.committed)
    (commit : r.after.log.committed = min leaderCommit r.after.log.entries.length) :
    Secured members history r.after := by
  obtain ⟨L, leads', copy⟩ := h.accepted_copies whole hr accepted
  have le : r.after.log.committed ≤ s.after.log.committed := by omega
  have taken : r.after.log.entries.take r.after.log.committed <+:
      s.after.log.entries.take s.after.log.committed := by
    have short : (r.after.log.entries.take r.after.log.committed).length ≤
        (s.after.log.entries.take s.after.log.committed).length := by
      rw [List.length_take, List.length_take, Nat.min_eq_left secured.le]
      omega
    have own := (List.take_prefix r.after.log.committed r.after.log.entries).trans copy
    have sender := List.take_prefix s.after.log.committed s.after.log.entries
    rcases h.comparable _ _ _ leads leads' with shorter | longer
    · exact List.prefix_of_prefix_length_le own (sender.trans shorter) short
    · exact List.prefix_of_prefix_length_le (own.trans longer) sender short
  refine ⟨by omega, ?_⟩
  rcases secured.chosen with zero | ⟨t, K, chosen, pre⟩
  · exact .inl (by omega)
  · exact .inr ⟨t, K, chosen, taken.trans pre⟩

/-- Everything that is committed was chosen. -/
theorem Cluster.secured (h : Cluster config members history cores)
    (whole : ∀ p ∈ history, ProvesWhole p.2.before p.2.event) :
    ∀ p ∈ history, Secured members history p.2.after := by
  obtain ⟨run, common, unbuilt, room⟩ := h
  induction run with
  | start => simp
  | @step history cores n c' event result earlier local_ allowed delivered run returns ih =>
    have grows : history ⊆ (n, ⟨cores n, event, result, c'⟩) :: history :=
      List.subset_cons_self _ _
    have now : Cluster config members _ _ :=
      ⟨.step earlier local_ allowed delivered run returns, common, unbuilt, room⟩
    have cluster := now.earlier earlier grows
    have secured := ih (fun p hp => whole p (grows hp)) cluster.unbuilt cluster.room
    have hr : (n, (⟨cores n, event, result, c'⟩ : Record C)) ∈
        (n, ⟨cores n, event, result, c'⟩) :: history := List.mem_cons_self ..
    have before : Secured members history (cores n) := by
      rcases earlier.core_cases n with first | ⟨r, hr, is⟩
      · rw [first]
        exact ⟨by simp [RaftCore.new, RaftLog.fromRecovered, RecoveredState.initial],
          .inl (by simp [RaftCore.new, RaftLog.fromRecovered, RecoveredState.initial])⟩
      · rw [← is]
        exact secured _ hr
    have bare := (cluster.visited (earlier.visited n)).2.2
    have kept : c'.log.committed = (cores n).log.committed → Secured members _ c' := fun same =>
      (before.mono grows).keep same ((now.faithful hr).wrote.take_committed bare before.le)
    refine List.forall_mem_cons.mpr ⟨?_, fun p hp => (secured p hp).mono grows⟩
    cases (now.decides hr).commits with
    | kept same => exact kept same
    | told envelope term prev prevTerm leaderCommit context entries received message accepted
        commit =>
      have received : event = .messageReceived envelope := received
      subst received
      obtain ⟨s, hs, leads, -, -, -, known⟩ := cluster.append_sent delivered.2 message
      by_cases raised : (cores n).log.committed < min leaderCommit c'.log.entries.length
      · refine now.told whole hr accepted (leads.mono grows) ((secured _ hs).mono grows) known ?_
        exact commit.trans (Nat.max_eq_right raised.le)
      · exact kept (commit.trans (Nat.max_eq_left (Nat.not_lt.mp raised)))
    | counted at_ positive holders known quorum credited =>
      exact now.counted whole hr at_ positive known quorum credited

end Commits

/-! ## Applies -/

/-- Entries that are applied at one index are equal. -/
def AppliesAgree (history : List (NodeId × Record C)) : Prop :=
  ∀ p ∈ history, ∀ q ∈ history, ∀ id es id' es', .apply id es ∈ p.2.effects →
    .apply id' es' ∈ q.2.effects → ∀ e ∈ es, ∀ e' ∈ es', e.index = e'.index → e = e'

/-- What is applied at an index was chosen there. -/
theorem Cluster.applied [Sha256] (h : Cluster config members history cores)
    (whole : ∀ p ∈ history, ProvesWhole p.2.before p.2.event) {node : NodeId} {r : Record C}
    (hr : (node, r) ∈ history) {id : EffectId} {es : List (Entry C)}
    (applies : .apply id es ∈ r.effects) {e : Entry C} (he : e ∈ es) :
    ∃ term K, Chosen members history term K ∧ K[e.index - 1]? = some e := by
  obtain ⟨-, wf, bare⟩ := h.visited (.inr ⟨(node, r), hr, rfl⟩)
  obtain ⟨within, found⟩ := (h.decides hr).applies id es applies e he
  have within : e.index ≤ r.after.log.committed := within
  have secured : Secured members history r.after := h.secured whole _ hr
  rw [wf.entryAt_eq bare, Except.ok.injEq] at found
  split at found
  · next pos =>
    rcases secured.chosen with zero | ⟨term, K, chosen, pre⟩
    · omega
    refine ⟨term, K, chosen, ?_⟩
    have inside := secured.le
    rw [← getElem?_of_initial pre (by rw [List.length_take]; omega),
      List.getElem?_take_of_lt (by omega)]
    exact found
  · simp at found

/-- No two cores apply different entries at an index, when every append that is accepted proves
the whole log of the follower. -/
theorem state_machine_safety [Sha256] (config : NodeId → Config) (members : List NodeId)
    (common : ∀ node, (config node).members = members) {history : List (NodeId × Record C)}
    {cores : NodeId → RaftCore C}
    (run : Run (fun node => RaftCore.new (config node) .initial) history cores)
    (unbuilt : NeverBuilt history) (room : ∀ p ∈ history, Room p.2.before)
    (whole : ∀ p ∈ history, ProvesWhole p.2.before p.2.event) : AppliesAgree history := by
  intro p hp q hq id es id' es' applies applies' e he e' he' same
  have cluster : Cluster config members history cores := ⟨run, common, unbuilt, room⟩
  obtain ⟨term, K, chosen, found⟩ := cluster.applied whole hp applies he
  obtain ⟨term', K', chosen', found'⟩ := cluster.applied whole hq applies' he'
  rw [← same] at found'
  have inside := (List.getElem?_eq_some_iff.mp found).1
  have inside' := (List.getElem?_eq_some_iff.mp found').1
  rcases cluster.chosen_comparable chosen chosen' with pre | pre
  · rw [getElem?_of_initial pre inside, found'] at found
    exact (Option.some.inj found).symm
  · rw [getElem?_of_initial pre inside', found] at found'
    exact Option.some.inj found'

theorem mem_applied {r : Record C} {e : Entry C} :
    e ∈ r.applied ↔ ∃ id es, .apply id es ∈ r.effects ∧ e ∈ es := by
  simp only [Record.applied, List.mem_flatMap, Prod.exists, mem_applies]

/-- Nodes 1 and 3 apply the no-op of term 1. -/
theorem state_machine_safety_committed : ∃ w : World Nat,
    @Run Nat sha256Empty trio w.history (w.core trio) ∧
    (∀ node ∈ [1, 3], ∃ p ∈ w.history, p.1 = node ∧ ∃ e ∈ p.2.applied, e.index = 1) ∧
    AppliesAgree w.history := by
  let _ : Sha256 := sha256Empty
  obtain ⟨w, run, checked⟩ := World.exec_any trio Script.commitTwo
    (fun w => ([1, 3].all fun node => w.history.any fun p =>
        (p.1 = node) && p.2.applied.any fun e => e.index = 1) &&
      ((w.history.all fun p => !p.2.built) && (w.history.all fun p => Room p.2.before) &&
        w.history.all fun p => provesWholeCheck p.2))
    (by decide +kernel)
  simp only [Bool.and_eq_true] at checked
  obtain ⟨applied, ⟨plain, room⟩, whole⟩ := checked
  refine ⟨w, run, fun node hn => ?_, ?_⟩
  · simpa using List.any_eq_true.mp (List.all_eq_true.mp applied node hn)
  · exact state_machine_safety trioConfigs [1, 2, 3] trioConfigs_members run
      (neverBuilt_of_check plain) (fun p hp => of_decide_eq_true (List.all_eq_true.mp room p hp))
      fun p hp => provesWhole_of_check (List.all_eq_true.mp whole p hp)

/-- Node 1 commits its entry of term 3 on the acknowledgement of node 3, which wins term 4 with
the vote of node 2 and commits its own entry of term 2. -/
def commitTwice : List (Move Nat) := staleAck ++
  [Script.persisted 1 6, Script.elect 3, Script.deliver 34, Script.deliver 35, Script.persisted 3 6,
    Script.deliver 37, Script.persisted 2 3, Script.deliver 38, Script.persisted 3 7,
    Script.deliver 40, Script.deliver 41, Script.deliver 42, Script.persisted 2 4,
    Script.deliver 43, Script.deliver 44, Script.persisted 2 5, Script.deliver 45,
    Script.deliver 46, Script.persisted 2 6, Script.deliver 47, Script.persisted 3 8]

theorem applied_differently : ¬ ∀ (history : List (NodeId × Record Nat))
    (cores : NodeId → RaftCore Nat), @Run Nat sha256Empty trio history cores →
    NeverBuilt history → AppliesAgree history := by
  let _ : Sha256 := sha256Empty
  intro h
  obtain ⟨w, run, bad⟩ := World.exec_any trio commitTwice
    (fun w => ([(1, 3), (3, 2)].all fun (node, term) => w.history.any fun p =>
        (p.1 = node) && p.2.applied.any fun e => (e.index = 2) && (e.term = term)) &&
      w.history.all fun p => !p.2.built)
    (by decide +kernel)
  simp only [List.all_cons, List.all_nil, Bool.and_true, Bool.and_eq_true, List.any_eq_true,
    decide_eq_true_eq] at bad
  obtain ⟨⟨⟨p, hp, -, e, he, index, term⟩, q, hq, -, e', he', index', term'⟩, plain⟩ := bad
  obtain ⟨id, es, applies, he⟩ := mem_applied.mp he
  obtain ⟨id', es', applies', he'⟩ := mem_applied.mp he'
  have same := h _ _ run (neverBuilt_of_check plain) p hp q hq id es id' es' applies applies' e he
    e' he' (index.trans index'.symm)
  rw [same, term'] at term
  exact absurd term (by decide)

end Ruft
