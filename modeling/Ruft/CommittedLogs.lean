import Ruft.ReadSafety

set_option autoImplicit false

/-!
# Committed logs

What a core has committed was chosen in a term that is not above its own. Every leader of a later
term therefore holds it, and of two cores one has committed a prefix of what the other has.

## Main definitions

- `ChosenBy` — what the core has committed was chosen by its term

## Main results

- `committed_logs_agree` — two cores agree up to the lower of their commit indices
- `leader_completeness` — a later leader holds what a core has committed
-/

namespace Ruft

open LeaderLogs

variable {C : Type} {config : NodeId → Config} {members : List NodeId}
  {history : List (NodeId × Record C)} {cores : NodeId → RaftCore C}

/-- What the core has committed. -/
def RaftCore.committedLog (c : RaftCore C) : List (Entry C) := c.log.entries.take c.log.committed

/-- What the core has committed was chosen in its term or before. -/
def ChosenBy (members : List NodeId) (history : List (NodeId × Record C)) (c : RaftCore C) : Prop :=
  c.log.committed = 0 ∨ ∃ term ≤ c.hardState.currentTerm, ∃ K, Chosen members history term K ∧
    c.committedLog <+: K

theorem Secured.length {c : RaftCore C} (h : Secured members history c) :
    c.committedLog.length = c.log.committed := List.length_take_of_le h.le

theorem ChosenBy.mono {history' : List (NodeId × Record C)} {c : RaftCore C}
    (h : ChosenBy members history c) (grows : history ⊆ history') : ChosenBy members history' c :=
  h.imp_right fun ⟨term, le, K, chosen, pre⟩ => ⟨term, le, K, chosen.mono grows, pre⟩

/-- A core that goes on in the same term or a later one and commits no more. -/
theorem ChosenBy.keep {c d : RaftCore C} (h : ChosenBy members history c)
    (le : c.hardState.currentTerm ≤ d.hardState.currentTerm)
    (committed : d.log.committed = c.log.committed) (same : d.committedLog = c.committedLog) :
    ChosenBy members history d := by
  rcases h with zero | ⟨term, bound, K, chosen, pre⟩
  · exact .inl (committed.trans zero)
  · exact .inr ⟨term, bound.trans le, K, chosen, same ▸ pre⟩

section Cluster

variable [Sha256]

/-- Of two cores of a cluster one has committed a prefix of what the other has. -/
theorem Cluster.committed_prefix (h : Cluster config members history cores)
    (whole : ∀ p ∈ history, ProvesWhole p.2.before p.2.event) {p q : NodeId × Record C}
    (hp : p ∈ history) (hq : q ∈ history)
    (le : p.2.after.log.committed ≤ q.2.after.log.committed) :
    p.2.after.committedLog <+: q.2.after.committedLog := by
  have secured := h.secured whole p hp
  have securedQ := h.secured whole q hq
  have short : p.2.after.committedLog.length ≤ q.2.after.committedLog.length := by
    rw [secured.length, securedQ.length]
    exact le
  rcases secured.chosen with zero | ⟨term, K, chosen, pre⟩
  · have empty : p.2.after.committedLog = [] :=
      List.eq_nil_of_length_eq_zero (secured.length.trans zero)
    rw [empty]
    exact List.nil_prefix
  rcases securedQ.chosen with zero | ⟨term', K', chosen', pre'⟩
  · have empty : p.2.after.committedLog = [] :=
      List.eq_nil_of_length_eq_zero (secured.length.trans (by omega))
    rw [empty]
    exact List.nil_prefix
  rcases h.chosen_comparable chosen chosen' with first | first
  · exact List.prefix_of_prefix_length_le (pre.trans first) pre' short
  · exact List.prefix_of_prefix_length_le pre (pre'.trans first) short

/-- What a leader counted was chosen in its own term. -/
theorem Cluster.counted_chosen (h : Cluster config members history cores)
    (whole : ∀ p ∈ history, ProvesWhole p.2.before p.2.event) {node : NodeId} {r : Record C}
    (hr : (node, r) ∈ history)
    (at_ : r.after.log.term r.after.log.committed = .ok r.after.hardState.currentTerm)
    (positive : 0 < r.after.log.committed) {holders : Finset NodeId}
    (known : holders ⊆ r.after.config.members.toFinset)
    (quorum : r.after.config.quorum ≤ holders.card)
    (credited : ∀ n ∈ holders, n = r.after.config.localId ∨
      Credited ((localHistory history node).map (·.event)) r.after.hardState.currentTerm n
        r.after.log.committed) :
    Chosen members history r.after.hardState.currentTerm r.after.committedLog := by
  obtain ⟨copied, wf, bare⟩ := h.visited (.inr ⟨(node, r), hr, rfl⟩)
  have configured := ((h.ledger node).states r (mem_localHistory.mpr hr)).config
  have localId : (config node).localId = node := h.run.localId hr
  rw [wf.term_eq_ok_iff bare] at at_
  rw [configured, h.common] at known
  rw [configured, (config node).quorum_eq, h.common] at quorum
  rw [configured, localId] at credited
  have size : r.after.committedLog.length = r.after.log.committed :=
    List.length_take_of_le at_.le_length
  have has : r.after.committedLog <+: r.after.log.entries := List.take_prefix _ _
  have last : TermAt Entry.term r.after.committedLog r.after.committedLog.length
      r.after.hardState.currentTerm := by
    rw [size]
    exact at_.take le_rfl
  have ne : r.after.committedLog ≠ [] := List.length_pos_iff.mp (size ▸ positive)
  obtain ⟨L, leads, pre⟩ := (copied.initial has).copy ne last
  refine ⟨ne, last, ⟨L, leads, pre⟩, holders, known, ?_, fun n hn => ?_⟩
  · have := List.toFinset_card_le members
    omega
  rcases credited n hn with rfl | heard
  · exact ⟨r, hr, rfl, has⟩
  obtain ⟨q, k, context, hq, reaches, accepted⟩ := h.acked heard
  obtain ⟨L', leads', copy⟩ := h.accepted_copies whole hq accepted
  cases accepted with
  | mk _ _ _ _ _ _ _ _ _ _ current _ _ _ length =>
  refine ⟨q, hq, current, ?_⟩
  have short : r.after.committedLog.length ≤ q.after.log.entries.length := by omega
  rcases h.comparable _ _ _ leads leads' with shorter | longer
  · exact List.prefix_of_prefix_length_le (pre.trans shorter) copy short
  · exact List.prefix_of_prefix_length_le pre (copy.trans longer) short

/-- Everything that is committed was chosen in a term that the core has reached. -/
theorem Cluster.chosenBy (h : Cluster config members history cores)
    (whole : ∀ p ∈ history, ProvesWhole p.2.before p.2.event) :
    ∀ p ∈ history, ChosenBy members history p.2.after := by
  obtain ⟨run, common, unbuilt, room⟩ := h
  induction run with
  | start => simp
  | @step history cores n c' event result earlier local_ allowed delivered run returns ih =>
    have grows : history ⊆ (n, ⟨cores n, event, result, c'⟩) :: history :=
      List.subset_cons_self _ _
    have now : Cluster config members _ _ :=
      ⟨.step earlier local_ allowed delivered run returns, common, unbuilt, room⟩
    have cluster := now.earlier earlier grows
    have chosenBy := ih (fun p hp => whole p (grows hp)) cluster.unbuilt cluster.room
    have hr : (n, (⟨cores n, event, result, c'⟩ : Record C)) ∈
        (n, ⟨cores n, event, result, c'⟩) :: history := List.mem_cons_self ..
    have le : (cores n).hardState.currentTerm ≤ c'.hardState.currentTerm := (now.faithful hr).le.1
    have bare := (cluster.visited (earlier.visited n)).2.2
    have kept : c'.log.committed = (cores n).log.committed →
        ChosenBy members ((n, ⟨cores n, event, result, c'⟩) :: history) c' := by
      intro same
      have before : ChosenBy members history (cores n) ∧
          (cores n).log.committed ≤ (cores n).log.entries.length := by
        rcases earlier.core_cases n with first | ⟨r, hr, is⟩
        · rw [first]
          exact ⟨.inl rfl, Nat.zero_le _⟩
        · rw [← is]
          exact ⟨chosenBy _ hr,
            (cluster.secured (fun p hp => whole p (grows hp)) _ hr).le⟩
      refine (before.1.mono grows).keep le same ?_
      have taken := (now.faithful hr).wrote.take_committed bare before.2
      unfold RaftCore.committedLog
      rw [same]
      exact taken
    refine List.forall_mem_cons.mpr ⟨?_, fun p hp => (chosenBy p hp).mono grows⟩
    -- the commit index stays, is told by a leader or is counted by the leader itself
    cases (now.decides hr).commits with
    | kept same => exact kept same
    | told envelope term prev prevTerm leaderCommit context entries received message accepted
        commit =>
      have received : event = .messageReceived envelope := received
      subst received
      obtain ⟨-, s, hs, sends⟩ := delivered
      rw [message] at sends
      obtain ⟨-, sent, -⟩ := (cluster.faithful hs).speaks _ _ term sends rfl
      obtain ⟨-, -, -, known⟩ := (cluster.faithful hs).quotes _ _ sends
      by_cases raised : (cores n).log.committed < min leaderCommit c'.log.entries.length
      · have commit : c'.log.committed = min leaderCommit c'.log.entries.length :=
          commit.trans (Nat.max_eq_right raised.le)
        have le : c'.log.committed ≤ s.after.log.committed :=
          commit.trans_le ((min_le_left _ _).trans known)
        -- what is committed here begins what the sender had committed
        have pre := now.committed_prefix whole hr (grows hs) le
        rcases chosenBy _ hs with zero | ⟨t, bound, K, chosen, preK⟩
        · exact .inl (Nat.eq_zero_of_le_zero (le.trans_eq zero))
        · cases accepted with
          | mk _ _ _ _ _ _ _ _ _ _ current =>
          exact .inr ⟨t, (bound.trans_eq sent).trans_eq current.symm, K, chosen.mono grows,
            pre.trans preK⟩
      · exact kept (commit.trans (Nat.max_eq_left (Nat.not_lt.mp raised)))
    | counted at_ positive holders known quorum credited =>
      exact .inr ⟨_, le_rfl, _, now.counted_chosen whole hr at_ positive known quorum credited,
        List.prefix_refl _⟩

/-- A later leader has in its log what the core has committed. -/
theorem Cluster.leads_committed (h : Cluster config members history cores)
    (whole : ∀ p ∈ history, ProvesWhole p.2.before p.2.event) {p q : NodeId × Record C}
    (hp : p ∈ history) (hq : q ∈ history) (leader : q.2.after.role = .leader)
    (newer : p.2.after.hardState.currentTerm < q.2.after.hardState.currentTerm) :
    p.2.after.committedLog <+: q.2.after.log.entries := by
  rcases h.chosenBy whole p hp with zero | ⟨term, le, K, chosen, pre⟩
  · have empty : p.2.after.committedLog = [] := by
      unfold RaftCore.committedLog
      rw [zero, List.take_zero]
    rw [empty]
    exact List.nil_prefix
  · have won := ((h.ledger q.1).states q.2 (mem_localHistory.mpr hq)).leads leader
    exact pre.trans (h.complete chosen _ (le.trans_lt newer) _ ⟨q.1, q.2, hq, won, rfl, rfl⟩)

theorem Cluster.committedLog_length (h : Cluster config members history cores)
    (whole : ∀ p ∈ history, ProvesWhole p.2.before p.2.event) {p : NodeId × Record C}
    (hp : p ∈ history) : p.2.after.committedLog.length = p.2.after.hardState.commitIndex := by
  obtain ⟨steps, serves⟩ := h.serves hp
  rw [← serves.committed]
  exact (h.secured whole p hp).length

/-- Two cores that share the beginning of their logs. -/
theorem Cluster.agrees (h : Cluster config members history cores) {p q : NodeId × Record C}
    (hp : p ∈ history) (hq : q ∈ history) {K : List (Entry C)}
    (has : K <+: p.2.after.log.entries) (has' : K <+: q.2.after.log.entries) :
    Agrees p.2.after q.2.after K.length := by
  obtain ⟨-, wf, bare⟩ := h.visited (.inr ⟨p, hp, rfl⟩)
  obtain ⟨-, wf', bare'⟩ := h.visited (.inr ⟨q, hq, rfl⟩)
  exact .of_shared wf bare wf' bare' has has'

end Cluster

/-! ## Agreement -/

theorem RaftCore.committedLog_prefix (c : RaftCore C) : c.committedLog <+: c.log.entries :=
  List.take_prefix _ _

/-- Two cores have the same entries up to the lower of their commit indices, when every append
that is accepted proves the whole log. -/
theorem committed_logs_agree [Sha256] (config : NodeId → Config) (members : List NodeId)
    (common : ∀ node, (config node).members = members) {history : List (NodeId × Record C)}
    {cores : NodeId → RaftCore C}
    (run : Run (fun node => RaftCore.new (config node) .initial) history cores)
    (unbuilt : NeverBuilt history) (room : ∀ p ∈ history, Room p.2.before)
    (whole : ∀ p ∈ history, ProvesWhole p.2.before p.2.event) :
    ∀ p ∈ history, ∀ q ∈ history, Agrees p.2.after q.2.after
      (min p.2.after.hardState.commitIndex q.2.after.hardState.commitIndex) := by
  intro p hp q hq
  have h : Cluster config members history cores := ⟨run, common, unbuilt, room⟩
  rw [← h.committedLog_length whole hp, ← h.committedLog_length whole hq]
  have own := p.2.after.committedLog_prefix
  have own' := q.2.after.committedLog_prefix
  rcases Nat.le_total p.2.after.log.committed q.2.after.log.committed with le | le
  · have pre := h.committed_prefix whole hp hq le
    rw [Nat.min_eq_left pre.length_le]
    exact h.agrees hp hq own (pre.trans own')
  · have pre := h.committed_prefix whole hq hp le
    rw [Nat.min_eq_right pre.length_le]
    exact h.agrees hp hq (pre.trans own) own'

/-- Nodes 1 and 3 have committed two entries and one. -/
theorem committed_logs_agree_committed : ∃ w : World Nat,
    @Run Nat sha256Empty trio w.history (w.core trio) ∧
    (∀ x ∈ [(1, 2), (3, 1)], ∃ p ∈ w.history, p.1 = x.1 ∧ p.2.after.hardState.commitIndex = x.2) ∧
    ∀ p ∈ w.history, ∀ q ∈ w.history, Agrees p.2.after q.2.after
      (min p.2.after.hardState.commitIndex q.2.after.hardState.commitIndex) := by
  let _ : Sha256 := sha256Empty
  obtain ⟨w, run, checked⟩ := World.exec_any trio Script.commitTwo
    (fun w => ([(1, 2), (3, 1)].all fun x => w.history.any fun p =>
        (p.1 = x.1) && (p.2.after.hardState.commitIndex = x.2)) &&
      ((w.history.all fun p => !p.2.built) && (w.history.all fun p => Room p.2.before) &&
        w.history.all fun p => provesWholeCheck p.2))
    (by decide +kernel)
  simp only [Bool.and_eq_true] at checked
  obtain ⟨committed, ⟨plain, room⟩, whole⟩ := checked
  refine ⟨w, run, fun x hx => by simpa using List.any_eq_true.mp (List.all_eq_true.mp committed x hx), ?_⟩
  exact committed_logs_agree trioConfigs [1, 2, 3] trioConfigs_members run
    (neverBuilt_of_check plain) (fun p hp => of_decide_eq_true (List.all_eq_true.mp room p hp))
    fun p hp => provesWhole_of_check (List.all_eq_true.mp whole p hp)

/-- A leader holds everything that a core has committed in a lower term, when every append that
is accepted proves the whole log. -/
theorem leader_completeness [Sha256] (config : NodeId → Config) (members : List NodeId)
    (common : ∀ node, (config node).members = members) {history : List (NodeId × Record C)}
    {cores : NodeId → RaftCore C}
    (run : Run (fun node => RaftCore.new (config node) .initial) history cores)
    (unbuilt : NeverBuilt history) (room : ∀ p ∈ history, Room p.2.before)
    (whole : ∀ p ∈ history, ProvesWhole p.2.before p.2.event) :
    ∀ p ∈ history, ∀ q ∈ history, q.2.after.role = .leader →
      p.2.after.hardState.currentTerm < q.2.after.hardState.currentTerm →
      Agrees p.2.after q.2.after p.2.after.hardState.commitIndex := by
  intro p hp q hq leader newer
  have h : Cluster config members history cores := ⟨run, common, unbuilt, room⟩
  rw [← h.committedLog_length whole hp]
  exact h.agrees hp hq p.2.after.committedLog_prefix
    (h.leads_committed whole hp hq leader newer)

/-- Node 1 has committed two entries in term 1, and node 2 leads term 2. -/
theorem leader_completeness_later : ∃ w : World Nat,
    @Run Nat sha256Empty trio w.history (w.core trio) ∧
    (∃ p ∈ w.history, ∃ q ∈ w.history, p.2.after.hardState.commitIndex = 2 ∧
      q.2.after.role = .leader ∧
      p.2.after.hardState.currentTerm < q.2.after.hardState.currentTerm) ∧
    ∀ p ∈ w.history, ∀ q ∈ w.history, q.2.after.role = .leader →
      p.2.after.hardState.currentTerm < q.2.after.hardState.currentTerm →
      Agrees p.2.after q.2.after p.2.after.hardState.commitIndex := by
  let _ : Sha256 := sha256Empty
  obtain ⟨w, run, checked⟩ := World.exec_any trio joinStaleRound
    (fun w => (w.history.any fun p => w.history.any fun q =>
        (p.2.after.hardState.commitIndex = 2) && (q.2.after.role = .leader) &&
          (p.2.after.hardState.currentTerm < q.2.after.hardState.currentTerm)) &&
      ((w.history.all fun p => !p.2.built) && (w.history.all fun p => Room p.2.before) &&
        w.history.all fun p => provesWholeCheck p.2))
    (by decide +kernel)
  simp only [Bool.and_eq_true, List.any_eq_true, decide_eq_true_eq] at checked
  obtain ⟨⟨p, hp, q, hq, ⟨committed, leader⟩, newer⟩, ⟨plain, room⟩, whole⟩ := checked
  refine ⟨w, run, ⟨p, hp, q, hq, committed, leader, newer⟩, ?_⟩
  exact leader_completeness trioConfigs [1, 2, 3] trioConfigs_members run
    (neverBuilt_of_check plain) (fun p hp => of_decide_eq_true (List.all_eq_true.mp room p hp))
    fun p hp => provesWhole_of_check (List.all_eq_true.mp whole p hp)

end Ruft
