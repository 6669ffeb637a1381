import Ruft.CommittedLogs
import Ruft.ProposalResults

set_option autoImplicit false

/-!
# Linearizability

The longest log that any core has committed is the order in which the proposals take effect. Every
core applies it, every proposal that was answered as applied stands in it at the index of the
answer, and what is proposed after an answer stands behind it: a leader could only append an entry
at or below the index of the answer if the entry had been in a log before it was made.

## Main definitions

- `Linearized` — a log is the order in which the proposals of a run take effect

## Main results

- `linearizable` — every run has such a log
-/

namespace Ruft

open LeaderLogs

variable {C : Type}

/-- The log is the order in which the proposals of a run take effect. -/
structure Linearized (history : List (NodeId × Record C)) (L : List (Entry C)) : Prop where
  indexed : ∀ i e, L[i]? = some e → e.index = i + 1
  applies : ∀ p ∈ history, ∀ e ∈ p.2.applied, L[e.index - 1]? = some e
  answers : ∀ node r, (node, r) ∈ history → ∀ id index,
    .proposalResult id (.applied index) ∈ r.effects →
    ∃ q e, (node, q) ∈ history ∧ q.Proposes id e ∧ e.index = index ∧ L[index - 1]? = some e
  ordered : ∀ later p earlier, history = later ++ p :: earlier →
    ∀ id index, .proposalResult id (.applied index) ∈ p.2.effects →
    ∀ q ∈ later, ∀ id' e, q.2.Proposes id' e → L[e.index - 1]? = some e → index < e.index

/-- What a core has committed stands in every list that begins with its committed log. -/
theorem RaftCore.committed_initial {c : RaftCore C} {L : List (Entry C)}
    (initial : c.committedLog <+: L) {i : Nat} (inside : i < c.log.committed) {e : Entry C}
    (held : c.log.entries[i]? = some e) : L[i]? = some e := by
  have own : c.committedLog[i]? = some e := by
    rw [RaftCore.committedLog, List.getElem?_take_of_lt inside]
    exact held
  rw [← getElem?_of_initial initial (List.getElem?_eq_some_iff.mp own).1]
  exact own

section Cluster

variable [Sha256] {config : NodeId → Config} {members : List NodeId}
  {history : List (NodeId × Record C)} {cores : NodeId → RaftCore C}

/-- An entry is in no log before it is made. -/
theorem Cluster.fresh {later earlier : List (NodeId × Record C)} {node : NodeId} {q : Record C}
    (h : Cluster config members (later ++ (node, q) :: earlier) cores) {id : ProposalId}
    {e : Entry C} (proposes : q.Proposes id e) {p : NodeId × Record C} (hp : p ∈ earlier) :
    p.2.after.log.entries[e.index - 1]? ≠ some e := by
  intro held
  obtain ⟨cores', run, common, unbuilt, room⟩ := h.suffix
  have now : Cluster config members _ _ := ⟨run, common, unbuilt, room⟩
  obtain ⟨-, wf, bare⟩ := now.visited (run.before_cases (List.mem_cons_self ..))
  have pairs := (now.retains node).1
  rw [localHistory_cons_self] at pairs
  cases run with
  | @step _ cores _ d event result run local_ allowed delivered ran returns =>
    have before := now.earlier run (List.subset_cons_self _ _)
    have won := (before.ledger node).now.leads proposes.leader
    obtain ⟨copied, -⟩ := before.visited (.inr ⟨p, hp, rfl⟩)
    obtain ⟨L, ⟨n, r, hr, leads, current, rfl⟩, same⟩ := copied (e.index - 1) e held
    rw [proposes.term] at leads current
    obtain rfl := before.winner_unique leads won
    obtain ⟨-, kept⟩ := (List.pairwise_cons.mp pairs).1 r (mem_localHistory.mpr hr)
    have grown : r.after.log.entries <+: (cores n).log.entries := by
      refine kept _ (List.prefix_refl _) fun term L above below leads' => ?_
      obtain rfl : term = r.after.hardState.currentTerm := le_antisymm (below.trans_eq current.symm) above
      refine now.comparable _ _ _ ⟨n, r, List.mem_cons_of_mem _ hr, ?_, rfl, rfl⟩ leads'
      rw [localHistory_cons_self, current]
      exact leads.mono (List.subset_cons_self _ _)
    have found : r.after.log.entries[e.index - 1]? = some e := by
      rw [← List.getElem?_take_of_lt (Nat.lt_succ_self _), same,
        List.getElem?_take_of_lt (Nat.lt_succ_self _)]
      exact held
    have inside := (List.getElem?_eq_some_iff.mp found).1
    have shorter := grown.length_le
    have length : (cores n).log.lastIndex = (cores n).log.entries.length := wf.length_eq bare
    have next : e.index = (cores n).log.lastIndex + 1 := proposes.next
    omega

/-- The longest of the committed logs. -/
theorem Cluster.longest (h : Cluster config members history cores)
    (whole : ∀ p ∈ history, ProvesWhole p.2.before p.2.event) (some_ : List (NodeId × Record C))
    (among : some_ ⊆ history) : ∃ L : List (Entry C), (∀ p ∈ some_, p.2.after.committedLog <+: L) ∧
      (L = [] ∨ ∃ p ∈ some_, L = p.2.after.committedLog) := by
  induction some_ with
  | nil => exact ⟨[], by simp, .inl rfl⟩
  | cons p rest ih =>
    have hp := among (List.mem_cons_self ..)
    obtain ⟨L, extends_, from_⟩ := ih fun q hq => among (List.mem_cons_of_mem _ hq)
    rcases from_ with rfl | ⟨q, hq, rfl⟩
    · refine ⟨p.2.after.committedLog, List.forall_mem_cons.mpr ⟨List.prefix_refl _, fun q hq => ?_⟩,
        .inr ⟨p, List.mem_cons_self .., rfl⟩⟩
      exact (extends_ q hq).trans List.nil_prefix
    have hq' := among (List.mem_cons_of_mem _ hq)
    rcases Nat.le_total p.2.after.log.committed q.2.after.log.committed with le | le
    · exact ⟨_, List.forall_mem_cons.mpr ⟨h.committed_prefix whole hp hq' le, extends_⟩,
        .inr ⟨q, List.mem_cons_of_mem _ hq, rfl⟩⟩
    · have pre := h.committed_prefix whole hq' hp le
      exact ⟨_, List.forall_mem_cons.mpr ⟨List.prefix_refl _, fun r hr => (extends_ r hr).trans pre⟩,
        .inr ⟨p, List.mem_cons_self .., rfl⟩⟩

/-- A core was in its state since an earlier step of the node, or from the start. -/
theorem Cluster.before_cases {later earlier : List (NodeId × Record C)} {node : NodeId}
    {r : Record C} (h : Cluster config members (later ++ (node, r) :: earlier) cores) :
    r.before = RaftCore.new (config node) .initial ∨
      ∃ s, (node, s) ∈ earlier ∧ s.after = r.before := by
  obtain ⟨cores', run, -⟩ := h.suffix
  cases run with
  | step run => exact run.core_cases node

/-- What a core had committed before it answered a proposal. -/
theorem Cluster.answered_committed {later earlier : List (NodeId × Record C)} {node : NodeId}
    {r : Record C} (h : Cluster config members (later ++ (node, r) :: earlier) cores)
    {id : ProposalId} {index : Nat} (answers : .proposalResult id (.applied index) ∈ r.effects) :
    ∃ s e q, (node, s) ∈ earlier ∧ (node, q) ∈ earlier ∧ q.Proposes id e ∧ e.index = index ∧
      index ≤ s.after.log.committed ∧ s.after.log.entries[index - 1]? = some e := by
  obtain ⟨e, rfl, ⟨q, hq, proposes⟩, held, committed, -⟩ := h.fulfilled answers
  rcases h.before_cases with first | ⟨s, hs, same⟩
  · have pos := e.index_pos
    have none : r.before.log.committed = 0 := by rw [first]; rfl
    omega
  · rw [← same] at held committed
    exact ⟨s, e, q, hs, hq, proposes, rfl, committed, held⟩

/-- What a core applies stands at its index in what it has committed. -/
theorem Cluster.applies_committed (h : Cluster config members history cores) {node : NodeId}
    {r : Record C} (hr : (node, r) ∈ history) {L : List (Entry C)}
    (initial : r.after.committedLog <+: L) {e : Entry C} (applied : e ∈ r.applied) :
    L[e.index - 1]? = some e := by
  obtain ⟨id, es, applies, he⟩ := mem_applied.mp applied
  obtain ⟨-, wf, bare⟩ := h.visited (.inr ⟨(node, r), hr, rfl⟩)
  obtain ⟨within, found⟩ := (h.decides hr).applies id es applies e he
  have within : e.index ≤ r.after.log.committed := within
  rw [wf.entryAt_eq bare, Except.ok.injEq, if_pos e.index_pos] at found
  have pos := e.index_pos
  exact RaftCore.committed_initial initial (by omega) found

/-- The longest of the committed logs is the order of the proposals. -/
theorem Cluster.linearized (h : Cluster config members history cores)
    (whole : ∀ p ∈ history, ProvesWhole p.2.before p.2.event) : ∃ L, Linearized history L := by
  obtain ⟨L, longest, from_⟩ := h.longest whole history (List.Subset.refl _)
  refine ⟨L, ?_, ?_, ?_, ?_⟩
  · intro i e found
    rcases from_ with rfl | ⟨p, hp, rfl⟩
    · simp at found
    obtain ⟨-, wf, bare⟩ := h.visited (.inr ⟨p, hp, rfl⟩)
    have held : p.2.after.log.entries[i]? = some e := by
      rw [← getElem?_of_initial p.2.after.committedLog_prefix (List.getElem?_eq_some_iff.mp found).1]
      exact found
    have index := wf.contiguous.index held
    rw [show p.2.after.log.snapshotIndex = 0 by simp [RaftLog.snapshotIndex, bare]] at index
    omega
  · rintro ⟨node, r⟩ hr e applied
    exact h.applies_committed hr (longest (node, r) hr) applied
  · intro node r hr id index answers
    obtain ⟨later, earlier, rfl⟩ := List.append_of_mem hr
    obtain ⟨s, e, q, hs, hq, proposes, rfl, committed, held⟩ := h.answered_committed answers
    have before : earlier ⊆ later ++ (node, r) :: earlier :=
      List.subset_append_of_subset_right _ (List.subset_cons_self _ _)
    have pos := e.index_pos
    exact ⟨q, e, before hq, proposes, rfl,
      RaftCore.committed_initial (longest (node, s) (before hs)) (by simp only; omega) held⟩
  · rintro later ⟨node, r⟩ earlier rfl id index answers ⟨n, q⟩ hq id' e proposes found
    obtain ⟨s, -, -, hs, -, -, -, committed, -⟩ := h.answered_committed answers
    by_contra behind
    have before : earlier ⊆ later ++ (node, r) :: earlier :=
      List.subset_append_of_subset_right _ (List.subset_cons_self _ _)
    -- the entry was already in the log of the core that answered
    have held : s.after.log.entries[e.index - 1]? = some e := by
      have pos := e.index_pos
      have prefix_ := longest (node, s) (before hs)
      have size := (h.secured whole (node, s) (before hs)).length
      have inside : e.index - 1 < s.after.committedLog.length := by
        rw [size]
        simp only
        omega
      rw [← getElem?_of_initial s.after.committedLog_prefix inside,
        getElem?_of_initial prefix_ inside]
      exact found
    obtain ⟨after, between, rfl⟩ := List.append_of_mem hq
    rw [List.append_assoc, List.cons_append] at h
    exact h.fresh proposes (List.mem_append_right _ (List.mem_cons_of_mem _ hs)) held

end Cluster

/-- When every append that is accepted proves the whole log, there is an order in which the
proposals of a run take effect: every core applies it, what was answered as applied stands in it at
the index of the answer, and what is proposed after an answer stands behind it. -/
theorem linearizable [Sha256] (config : NodeId → Config) (members : List NodeId)
    (common : ∀ node, (config node).members = members) {history : List (NodeId × Record C)}
    {cores : NodeId → RaftCore C}
    (run : Run (fun node => RaftCore.new (config node) .initial) history cores)
    (unbuilt : NeverBuilt history) (room : ∀ p ∈ history, Room p.2.before)
    (whole : ∀ p ∈ history, ProvesWhole p.2.before p.2.event) : ∃ L, Linearized history L :=
  Cluster.linearized ⟨run, common, unbuilt, room⟩ whole

/-- Node 1 answers a second proposal after the first. -/
def commitThree : List (Move Nat) := Script.commitTwo ++
  [Script.propose 1 2 8, Script.persisted 1 8, Script.applied 2 4 1, Script.deliver 18,
    Script.persisted 2 5, Script.deliver 19, Script.persisted 1 9, Script.applied 1 10 3]

theorem linearizable_twice : ∃ w : World Nat,
    @Run Nat sha256Empty trio w.history (w.core trio) ∧
    (∀ answer ∈ [(1, 2), (2, 3)], ∃ p ∈ w.history,
      .proposalResult answer.1 (.applied answer.2) ∈ p.2.effects) ∧
    ∃ L, Linearized w.history L := by
  let _ : Sha256 := sha256Empty
  obtain ⟨w, run, checked⟩ := World.exec_any trio commitThree
    (fun w => ([(1, 2), (2, 3)].all fun answer => w.history.any fun p =>
        decide (.proposalResult answer.1 (.applied answer.2) ∈ p.2.effects)) &&
      ((w.history.all fun p => !p.2.built) && (w.history.all fun p => Room p.2.before) &&
        w.history.all fun p => provesWholeCheck p.2))
    (by decide +kernel)
  simp only [Bool.and_eq_true] at checked
  obtain ⟨answers, ⟨plain, room⟩, whole⟩ := checked
  refine ⟨w, run, fun answer among => ?_, ?_⟩
  · simpa using List.any_eq_true.mp (List.all_eq_true.mp answers answer among)
  · exact linearizable trioConfigs [1, 2, 3] trioConfigs_members run
      (neverBuilt_of_check plain) (fun p hp => of_decide_eq_true (List.all_eq_true.mp room p hp))
      fun p hp => provesWhole_of_check (List.all_eq_true.mp whole p hp)

end Ruft
