import Ruft.Lib.Ranking
import Ruft.FollowUps
import Ruft.LogRuns

set_option autoImplicit false

/-!
# The commit rule

`raft/commit.rs` looks at one candidate, the index that a quorum of the sorted match indexes
reaches, and tests its term. On a log whose terms do not decrease and stay at or below the
current term that one test finds the greatest index that may be committed.

## Main definitions

- `replicas` — how many members hold an index
- `Committable` — past the commit point, of the current term and held by a quorum

## Main results

- `quorum_commit_exact` — `quorum_commit` returns the greatest committable index
-/

namespace Ruft

variable {C : Type} {log : RaftLog C} {progress : BTreeMap NodeId Progress}

/-- The members that have replicated through an index; the leader counts at its last index. -/
def replicas (log : RaftLog C) (progress : BTreeMap NodeId Progress) (index : Nat) : Nat :=
  progress.values.countP (index ≤ ·.matchIndex) + if index ≤ log.lastIndex then 1 else 0

/-- What makes an index committable for a leader of the current term. -/
structure Committable (log : RaftLog C) (progress : BTreeMap NodeId Progress)
    (quorum currentTerm index : Nat) : Prop where
  fresh : log.committed < index
  current : log.term index = .ok currentTerm
  replicated : quorum ≤ replicas log progress index

theorem replicas_eq (index : Nat) :
    replicas log progress index = (sortedMatches log progress).countP (index ≤ ·) := by
  rw [sortedMatches, (List.perm_insertionSort _ _).countP_eq, List.countP_append, List.countP_map]
  simp only [replicas, List.countP_singleton, decide_eq_true_eq]
  rfl

theorem length_sortedMatches :
    (sortedMatches log progress).length = progress.values.length + 1 := by
  simp [sortedMatches]

theorem sortedMatches_sorted : (sortedMatches log progress).Pairwise (· ≤ ·) :=
  List.pairwise_insertionSort (· ≤ ·) _

theorem le_lastIndex_of_mem_sortedMatches
    (bounded : ∀ p ∈ progress.values, p.matchIndex ≤ log.lastIndex) {i : Nat}
    (h : i ∈ sortedMatches log progress) : i ≤ log.lastIndex := by
  rw [sortedMatches, List.mem_insertionSort, List.mem_append, List.mem_map,
    List.mem_singleton] at h
  rcases h with ⟨p, mem, rfl⟩ | rfl
  · exact bounded p mem
  · exact le_rfl

namespace RaftLog

/-- Between the commit point and the end of the log every index is an entry. -/
theorem Coherent.entry_between (h : log.Coherent) (u64 : log.lastIndex ≤ u64Max) {i : Nat}
    (above : log.committed < i) (le : i ≤ log.lastIndex) :
    ∃ e, log.entries[i - (log.snapshotIndex + 1)]? = some e ∧ log.term i = .ok e.term := by
  have boundary := h.snapshot_le
  have last := lastIndex_of_contiguous h.contiguous
  have inside : i - (log.snapshotIndex + 1) < log.entries.length := by omega
  refine ⟨_, List.getElem?_eq_getElem inside, ?_⟩
  rw [term_above (by omega),
    entryAt_of_firstIndex (firstIndex_of_lt (by omega)) (by omega),
    List.getElem?_eq_getElem inside]
  rfl

/-- Above the commit point terms do not decrease. -/
theorem Coherent.term_mono (h : log.Coherent) (u64 : log.lastIndex ≤ u64Max) {i j t u : Nat}
    (above : log.committed < i) (le : i ≤ j) (last : j ≤ log.lastIndex)
    (ti : log.term i = .ok t) (tj : log.term j = .ok u) : t ≤ u := by
  obtain ⟨e, he, hi⟩ := h.entry_between u64 above (le.trans last)
  obtain ⟨f, hf, hj⟩ := h.entry_between u64 (above.trans_le le) last
  rw [ti, Except.ok.injEq] at hi
  rw [tj, Except.ok.injEq] at hj
  subst hi hj
  obtain ⟨inside, rfl⟩ := List.getElem?_eq_some_iff.mp he
  obtain ⟨inside', rfl⟩ := List.getElem?_eq_some_iff.mp hf
  rcases Nat.eq_or_lt_of_le le with rfl | lt
  · exact le_rfl
  · have boundary := h.snapshot_le
    exact List.pairwise_iff_getElem.mp h.terms.pairwise _ _ inside inside' (by omega)

end RaftLog

/-- The three ways `quorum_commit` ends, given the index that a quorum has reached. -/
theorem quorumCommit_cases {quorum currentTerm candidate : Nat}
    (le : quorum ≤ (sortedMatches log progress).length)
    (found : (sortedMatches log progress)[(sortedMatches log progress).length - quorum]? =
      some candidate) :
    quorumCommit log progress quorum currentTerm =
      if log.committed < candidate then
        (log.term candidate).map fun t => if t = currentTerm then some candidate else none
      else .ok none := by
  unfold quorumCommit
  change (do
    let position ← Outcome.sub (sortedMatches log progress).length quorum
    let index ← Outcome.index (sortedMatches log progress) position
    if log.committed < index then do
      let t ← log.term index
      .ok (if t = currentTerm then some index else none)
    else .ok none : Outcome LogError (Option Nat)) = _
  rw [Outcome.sub_eq_ok le]
  simp only [bind, Except.bind, Outcome.index, found, Outcome.expect]
  split
  · cases log.term candidate <;> rfl
  · rfl

/-- The commit rule is exact: on a coherent log whose terms are at or below the current one,
with a follower for every other member and match indexes inside the log, it neither underflows
nor fails, returns an index exactly when that is the greatest committable one, and nothing
exactly when there is none. -/
theorem quorum_commit_exact (log : RaftLog C) (progress : BTreeMap NodeId Progress)
    (n quorum currentTerm : Nat) (coherent : log.Coherent) (u64 : log.lastIndex ≤ u64Max)
    (terms : ∀ e ∈ log.entries, e.term ≤ currentTerm)
    (followers : progress.values.length + 1 = n) (majority : quorum = n / 2 + 1)
    (bounded : ∀ p ∈ progress.values, p.matchIndex ≤ log.lastIndex) :
    ∃ result, quorumCommit log progress quorum currentTerm = .ok result ∧
      (∀ c, result = some c ↔ Committable log progress quorum currentTerm c ∧
        ∀ c', Committable log progress quorum currentTerm c' → c' ≤ c) ∧
      (result = none ↔ ∀ c, ¬ Committable log progress quorum currentTerm c) := by
  have size : (sortedMatches log progress).length = progress.values.length + 1 :=
    length_sortedMatches
  have le : quorum ≤ (sortedMatches log progress).length := by omega
  have inside : (sortedMatches log progress).length - quorum <
      (sortedMatches log progress).length := by omega
  obtain ⟨candidate, found⟩ : ∃ i,
      (sortedMatches log progress)[(sortedMatches log progress).length - quorum]? = some i :=
    ⟨_, List.getElem?_eq_getElem inside⟩
  have last : candidate ≤ log.lastIndex :=
    le_lastIndex_of_mem_sortedMatches bounded (List.mem_of_getElem? found)
  have reached : ∀ c, quorum ≤ replicas log progress c ↔ c ≤ candidate := fun c => by
    rw [replicas_eq, Ranking.le_countP_iff sortedMatches_sorted le found]
  rw [quorumCommit_cases le found]
  by_cases fresh : log.committed < candidate
  · obtain ⟨e, he, ht⟩ := coherent.entry_between u64 fresh last
    have bound := terms e (List.mem_of_getElem? he)
    rw [if_pos fresh, ht]
    by_cases current : e.term = currentTerm
    · have best : Committable log progress quorum currentTerm candidate :=
        ⟨fresh, current ▸ ht, (reached candidate).mpr le_rfl⟩
      have greatest : ∀ c, Committable log progress quorum currentTerm c → c ≤ candidate :=
        fun c h => (reached c).mp h.replicated
      refine ⟨some candidate, by simp [Except.map, current], fun c => ?_, ?_⟩
      · rw [Option.some.injEq]
        constructor
        · rintro rfl
          exact ⟨best, greatest⟩
        · rintro ⟨h, max⟩
          exact le_antisymm (max candidate best) (greatest c h)
      · simp only [reduceCtorEq, false_iff, not_forall, not_not]
        exact ⟨candidate, best⟩
    · -- an older candidate has only older terms below it
      have no : ∀ c, ¬ Committable log progress quorum currentTerm c := by
        intro c h
        have mono := coherent.term_mono u64 h.fresh ((reached c).mp h.replicated) last
          h.current ht
        omega
      refine ⟨none, by simp [Except.map, current], fun c => ?_, by simpa using no⟩
      simp only [reduceCtorEq, false_iff]
      exact fun h => no c h.1
  · have no : ∀ c, ¬ Committable log progress quorum currentTerm c := by
      intro c h
      have := (reached c).mp h.replicated
      have := h.fresh
      omega
    refine ⟨none, by rw [if_neg fresh], fun c => ?_, by simpa using no⟩
    simp only [reduceCtorEq, false_iff]
    exact fun h => no c h.1

/-- One follower has caught up with the leader of three, the other holds nothing. -/
def oneCaughtUp : BTreeMap NodeId Progress :=
  (BTreeMap.empty.insert 2 ⟨2, 3, .replicate, ⟨1, []⟩, true⟩).insert 3 (.fresh 1 1)

theorem quorum_commit_exact_three :
    Committable twoEntries oneCaughtUp 2 1 2 ∧
      ∀ c, Committable twoEntries oneCaughtUp 2 1 c → c ≤ 2 := by
  obtain ⟨result, run, greatest, -⟩ := quorum_commit_exact twoEntries oneCaughtUp 3 2 1
    twoEntries_coherent (by decide) (by decide) rfl rfl (by decide)
  have computed : quorumCommit twoEntries oneCaughtUp 2 1 = .ok (some 2) := rfl
  rw [computed, Except.ok.injEq] at run
  exact (greatest 2).mp run.symm

end Ruft
