import Ruft.LogMethods

set_option autoImplicit false

/-!
# What the methods of the log promise

The merge of a leader suffix agrees with a durable replay of what it returns, local
compaction agrees with the installation of the same snapshot, and the representation
invariant holds after every sequence of calls with arbitrary arguments.

## Main definitions

- `RaftLog.Coherent` — the shape of a log between two calls
- `truncateAt` — durable truncation of a suffix
- `LogOp`, `LogOp.runAll` — calls with arbitrary arguments, and the log after them

## Main results

- `merge_replays` — `merge_from_leader` and the durable replay of its result
- `compaction_transparent` — `compact` and `install_snapshot`
- `log_representation` — the invariant over every sequence of calls
-/

namespace Ruft

variable {C : Type}

namespace RaftLog

/-- The shape of a log between two calls. No bound on the indexes is part of it. -/
structure Coherent (log : RaftLog C) : Prop where
  contiguous : Contiguous (log.snapshotIndex + 1) log.entries
  terms : TermsFrom log.snapshotTerm log.entries
  snapshot_le : log.snapshotIndex ≤ log.committed
  committed_le : log.committed ≤ log.lastIndex

variable {log : RaftLog C}

theorem Coherent.wf (h : log.Coherent)
    (bound : log.snapshotIndex + log.entries.length < u64Max) : log.WF :=
  ⟨bound, h.contiguous, h.terms⟩

theorem lastIndex_of_contiguous (h : Contiguous (log.snapshotIndex + 1) log.entries) :
    log.lastIndex = log.snapshotIndex + log.entries.length := by
  unfold RaftLog.lastIndex
  cases he : log.entries.getLast? with
  | none => simp [List.getLast?_eq_none_iff.mp he]
  | some e =>
    have := h.getLast? he
    simp only [Option.elim_some]
    omega

/-- Two logs with one boundary hold the same entry where their suffixes do. -/
theorem get?_congr {log' : RaftLog C} {i : Nat} (snapshot : log'.snapshot = log.snapshot)
    (same : ∀ k, log.snapshotIndex + 1 + k = i → log'.entries[k]? = log.entries[k]?) :
    log'.get? i = log.get? i := by
  have boundary : log'.snapshotIndex = log.snapshotIndex := by
    simp only [snapshotIndex, snapshot]
  unfold get?
  rw [boundary]
  split
  · exact same _ (by omega)
  · rfl

theorem WF.get?_of_mem (h : log.WF) {e : Entry C} (he : e ∈ log.entries) :
    log.get? e.index = some e := by
  obtain ⟨k, hk⟩ := List.mem_iff_getElem?.mp he
  have index := h.contiguous.index hk
  rw [get?, if_pos (by omega), show e.index - (log.snapshotIndex + 1) = k by omega, hk]

theorem firstIndex_of_lt (h : log.snapshotIndex < u64Max) :
    log.firstIndex = .ok (log.snapshotIndex + 1) := by
  unfold RaftLog.firstIndex
  unfold snapshotIndex at h ⊢
  cases hs : log.snapshot with
  | none => rfl
  | some record =>
    rw [hs] at h
    exact expectNext_eq_ok h

/-- Above the boundary a term is read from the suffix. -/
theorem term_above {i : Nat} (h : log.snapshotIndex < i) : log.term i = (do
    match ← log.entryAt i with
    | some entry => .ok entry.term
    | none => Outcome.raise (.unavailable i log.lastIndex)) := by
  unfold RaftLog.term
  unfold snapshotIndex at h
  cases hs : log.snapshot with
  | none =>
    rw [hs] at h
    exact if_neg (Nat.ne_of_gt h)
  | some record =>
    rw [hs, Option.elim_some] at h
    exact (if_neg (Nat.not_lt.mpr h.le)).trans (if_neg (Nat.ne_of_gt h))

theorem entryAt_of_firstIndex {i : Nat} (first : log.firstIndex = .ok (log.snapshotIndex + 1))
    (h : log.snapshotIndex < i) :
    log.entryAt i = .ok log.entries[i - (log.snapshotIndex + 1)]? := by
  rw [RaftLog.entryAt, first]
  exact if_neg (by omega)

theorem firstIndex_eq_ok {first : Nat} (h : log.firstIndex = .ok first) :
    first = log.snapshotIndex + 1 := by
  unfold RaftLog.firstIndex at h
  unfold snapshotIndex
  cases hs : log.snapshot with
  | none =>
    simp only [hs, Except.ok.injEq] at h
    exact h.symm
  | some record =>
    simp only [hs, expectNext] at h
    cases hn : checkedNext record.metadata.index with
    | error e => simp [hn] at h
    | ok next =>
      simp only [hn, Except.ok.injEq] at h
      rw [← h]
      exact (checkedNext_eq_ok.mp hn).2

/-! ## Merging a leader suffix -/

/-- Every incoming entry is held with its term. -/
def Holds (log : RaftLog C) (incoming : List (Entry C)) : Prop :=
  ∀ e ∈ incoming, log.term e.index = .ok e.term

/-- A merge leaves what stands below the first incoming entry that is not held. -/
theorem Merged.get?_below {incoming appended : List (Entry C)} {log' : RaftLog C}
    (merged : log.Merged incoming log' appended) {i : Nat}
    (below : ∀ e ∈ incoming, e.index ≤ i → log.term e.index = .ok e.term) :
    log'.get? i = log.get? i := by
  cases merged with
  | same => rfl
  | changed kept e rest j u split held differs index within uncommitted =>
    have lt : i < e.index := by
      by_contra reached
      exact differs (below e (by simp [split]) (by omega))
    refine get?_congr rfl fun k hk => ?_
    show (log.entries.take j ++ e :: rest)[k]? = _
    rw [List.getElem?_append_left (by rw [List.length_take]; omega),
      List.getElem?_take_of_lt (by omega)]

/-- A log that keeps an entry keeps its term. -/
theorem WF.term_eq_of_get? {log' : RaftLog C} (h : log.WF) (h' : log'.WF) {i t : Nat}
    (snapshot : log'.snapshot = log.snapshot) (same : log'.get? i = log.get? i)
    (ht : log.term i = .ok t) : log'.term i = .ok t := by
  rcases h.term_eq_ok ht with ⟨rfl, rfl⟩ | ⟨e, he, rfl⟩
  · have boundary := h'.term_snapshot
    simpa only [snapshotIndex, snapshotTerm, snapshot] using boundary
  · exact h'.term_entry (same.trans he)

theorem Merged.frame_eq {incoming appended : List (Entry C)} {log' : RaftLog C}
    (merged : log.Merged incoming log' appended) :
    log'.snapshot = log.snapshot ∧ log'.committed = log.committed := by
  cases merged <;> exact ⟨rfl, rfl⟩

/-- After a merge the incoming terms stand at the incoming indexes. -/
theorem Merged.holds {incoming appended : List (Entry C)} {log' : RaftLog C} {start : Nat}
    (merged : log.Merged incoming log' appended) (h : log.WF) (h' : log'.WF)
    (contiguous : Contiguous start incoming) : log'.Holds incoming := by
  intro e he
  cases merged with
  | same held => exact held e he
  | changed kept first rest j u split held differs index within uncommitted =>
    subst split
    rcases List.mem_append.mp he with kept' | new
    · -- a held entry stands below the cut
      have merged : log.Merged (kept ++ first :: rest) _ (first :: rest) :=
        .changed kept first rest j u rfl held differs index within uncommitted
      refine h.term_eq_of_get? h' rfl (merged.get?_below ?_) (held e kept')
      intro f hf le
      rcases List.mem_append.mp hf with hf | hf
      · exact held f hf
      · obtain ⟨k, hk⟩ := List.mem_iff_getElem?.mp kept'
        obtain ⟨l, hl⟩ := List.mem_iff_getElem?.mp hf
        obtain ⟨before, behind⟩ := Contiguous.append.mp contiguous
        have := (List.getElem?_eq_some_iff.mp hk).1
        have := before.index hk
        have := behind.index hl
        omega
    · exact h'.term_entry (h'.get?_of_mem (List.mem_append_right _ new))

end RaftLog

/-- Durable truncation: every entry from `first` on is dropped. -/
def truncateAt (first : Nat) (suffix : List (Entry C)) : List (Entry C) :=
  suffix.filter (·.index < first)

theorem truncateAt_eq_take {n j : Nat} {suffix : List (Entry C)} (h : Contiguous n suffix) :
    truncateAt (n + j) suffix = suffix.take j := by
  induction suffix generalizing n j with
  | nil => simp [truncateAt]
  | cons e es ih =>
    cases j with
    | zero =>
      have none : ∀ f ∈ e :: es, ¬ f.index < n := by
        intro f hf
        obtain ⟨k, hk⟩ := List.mem_iff_getElem?.mp hf
        have := h.index hk
        omega
      simpa [truncateAt] using none
    | succ j =>
      have rest := ih (n := n + 1) (j := j) h.2
      have head := h.1
      rw [Nat.add_right_comm, Nat.add_assoc] at rest
      rw [truncateAt, List.filter_cons_of_pos (by simp; omega), List.take_succ_cons, ← rest]
      rfl

namespace RaftLog

variable {log : RaftLog C}

theorem differs_eq_false {e : Entry C} (h : log.differs e = .ok false) :
    log.term e.index = .ok e.term := by
  unfold RaftLog.differs at h
  cases ht : log.term e.index with
  | ok t =>
    simp only [ht, ne_eq, Except.ok.injEq, decide_eq_false_iff_not, not_not] at h
    rw [h]
  | error f => cases f <;> simp [ht] at h

/-- The scan of `merge_from_leader`, on any log. -/
theorem firstChange_eq_ok {incoming : List (Entry C)} {offset : Nat} {found : Option Nat}
    (h : log.firstChange offset incoming = .ok found) :
    (found = none ∧ log.Holds incoming) ∨
      ∃ k, found = some (offset + k) ∧ k < incoming.length := by
  induction incoming generalizing offset with
  | nil => exact .inl ⟨by simpa [RaftLog.firstChange] using h.symm, by simp [Holds]⟩
  | cons e rest ih =>
    simp only [RaftLog.firstChange, bind, Except.bind] at h
    cases hd : log.differs e with
    | error f => simp [hd] at h
    | ok differs =>
      cases differs with
      | true =>
        simp only [hd, if_true, Except.ok.injEq] at h
        exact .inr ⟨0, h.symm, by simp⟩
      | false =>
        simp only [hd, Bool.false_eq_true, if_false] at h
        rcases ih h with ⟨none, all⟩ | ⟨k, some, lt⟩
        · exact .inl ⟨none, by simpa [Holds, differs_eq_false hd] using all⟩
        · exact .inr ⟨k + 1, by rw [some]; congr 1; omega, by simpa using lt⟩

/-- A log whose last index has no successor takes no entry. -/
theorem replaceConflict_full {e : Entry C} {rest : List (Entry C)}
    (full : u64Max ≤ log.lastIndex) :
    log.replaceConflict (e :: rest) = Outcome.raise (.indexOverflow log.lastIndex) := by
  simp [RaftLog.replaceConflict, checkedNextOr, checkedNext, Nat.not_lt.mpr full, bind,
    Except.bind]

/-- What a merge did, on any coherent log. -/
theorem Coherent.merged (h : log.Coherent) {incoming appended : List (Entry C)}
    {log' : RaftLog C} (ok : log.mergeFromLeader incoming = .ok (log', appended)) :
    (log' = log ∧ appended = [] ∧ log.Holds incoming) ∨
      (log.WF ∧ log.Merged incoming log' appended ∧ log'.WF) := by
  rcases Nat.lt_or_ge (log.snapshotIndex + log.entries.length) u64Max with bound | full
  · right
    have wf := h.wf bound
    rcases wf.mergeFromLeader incoming with ⟨err, failed⟩ | ⟨merged, new, run, how, wf'⟩
    · simp [failed] at ok
    · rw [run] at ok
      simp only [Except.ok.injEq, Prod.mk.injEq] at ok
      obtain ⟨rfl, rfl⟩ := ok
      exact ⟨wf, how, wf'⟩
  · left
    rw [← lastIndex_of_contiguous h.contiguous] at full
    simp only [RaftLog.mergeFromLeader, bind, Except.bind] at ok
    cases hf : log.firstChange 0 incoming with
    | error f => simp [hf] at ok
    | ok found =>
      rcases firstChange_eq_ok hf with ⟨rfl, all⟩ | ⟨k, rfl, lt⟩
      · simp only [hf, Except.ok.injEq, Prod.mk.injEq] at ok
        exact ⟨ok.1.symm, ok.2.symm, all⟩
      · obtain ⟨e, rest, cut⟩ : ∃ e rest, incoming.drop k = e :: rest :=
          List.exists_cons_of_length_pos (by rw [List.length_drop]; omega)
        simp [hf, cut, replaceConflict_full full] at ok

end RaftLog

/-- What `merge_from_leader` promises when it returns `Ok(r)`. -/
structure MergeContract (log : RaftLog C) (incoming : List (Entry C)) (r : List (Entry C))
    (log' : RaftLog C) : Prop where
  holds : log'.Holds incoming
  /-- What stands before the first incoming entry that differs is unchanged. -/
  unchanged : ∀ i, (∀ e ∈ incoming, e.index ≤ i → log.term e.index = .ok e.term) →
    log'.entryAt i = log.entryAt i
  matching : log.Holds incoming → log' = log ∧ r = []
  /-- The returned entries replay the change. -/
  replays : ¬ log.Holds incoming → ∃ head, r.head? = some head ∧
    log'.entries = truncateAt head.index log.entries ++ r
  committed : ∀ i ≤ log.committed, log'.entryAt i = log.entryAt i
  frame : log'.snapshot = log.snapshot ∧ log'.committed = log.committed

theorem MergeContract.of_same {log : RaftLog C} {incoming : List (Entry C)}
    (held : log.Holds incoming) : MergeContract log incoming [] log where
  holds := held
  unchanged := fun _ _ => rfl
  matching := fun _ => ⟨rfl, rfl⟩
  replays := fun changed => absurd held changed
  committed := fun _ _ => rfl
  frame := ⟨rfl, rfl⟩

theorem RaftLog.Merged.contract {log log' : RaftLog C} {incoming appended : List (Entry C)}
    {start : Nat} (merged : log.Merged incoming log' appended) (h : log.WF) (h' : log'.WF)
    (contiguous : Contiguous start incoming) : MergeContract log incoming appended log' := by
  have holds := merged.holds h h' contiguous
  have unchanged : ∀ i, (∀ e ∈ incoming, e.index ≤ i → log.term e.index = .ok e.term) →
      log'.entryAt i = log.entryAt i := by
    intro i below
    rw [h.entryAt, h'.entryAt, merged.get?_below below]
  have frame := merged.frame_eq
  cases merged with
  | same held => exact .of_same held
  | changed kept e rest j u split held differs index within uncommitted =>
    refine ⟨holds, unchanged, ?_, ?_, ?_, frame⟩
    · intro all
      exact absurd (all e (by simp [split])) differs
    · intro _
      refine ⟨e, rfl, ?_⟩
      rw [index, truncateAt_eq_take h.contiguous]
    · intro i le
      refine unchanged i fun f hf lef => ?_
      subst split
      rcases List.mem_append.mp hf with hf | hf
      · exact held f hf
      · obtain ⟨k, hk⟩ := List.mem_iff_getElem?.mp hf
        have behind := (Contiguous.append.mp contiguous).2
        have := behind.index hk
        have := behind.1
        omega

/-- Merging a leader suffix and replaying what the merge returns agree: the incoming terms
stand at the incoming indexes, nothing before the first difference and nothing committed
changes, a matching suffix is never truncated, and the old suffix cut at the first returned
entry and followed by the returned entries is the new one. A merge that fails changes nothing.
Neither the terms of the batch nor where it starts matter: the method checks both. -/
theorem merge_replays (log : RaftLog C) (coherent : log.Coherent) (incoming : List (Entry C))
    (start : Nat) (contiguous : Contiguous start incoming) :
    (∀ r log', LogMethod.mergeFromLeader incoming log = (.ok r, log') →
      MergeContract log incoming r log') ∧
    ∀ e log', LogMethod.mergeFromLeader incoming log = (.error (.raise e), log') →
      log' = log := by
  rw [LogMethod.mergeFromLeader_run]
  cases hm : log.mergeFromLeader incoming with
  | error f =>
    refine ⟨fun r log' run => ?_, fun e log' run => ?_⟩
    · simp [LogMethod.afterWith] at run
    · exact (Prod.mk.inj run).2.symm
  | ok result =>
    obtain ⟨merged, appended⟩ := result
    refine ⟨fun r log' run => ?_, fun e log' run => ?_⟩
    · simp only [LogMethod.afterWith, Prod.mk.injEq, Except.ok.injEq] at run
      obtain ⟨rfl, rfl⟩ := run
      rcases coherent.merged hm with ⟨rfl, rfl, held⟩ | ⟨wf, how, wf'⟩
      · exact .of_same held
      · exact how.contract wf wf' contiguous
    · simp [LogMethod.afterWith] at run

def noopAt (index term : Nat) (index_pos : 0 < index) (term_pos : 0 < term) : Entry Nat :=
  ⟨index, term, 0, .leaderNoop, index_pos, term_pos⟩

/-- Two entries of term 1, the first of them committed. -/
def twoEntries : RaftLog Nat :=
  ⟨none, [noopAt 1 1 (by decide) (by decide), noopAt 2 1 (by decide) (by decide)], 1, {}⟩

theorem twoEntries_coherent : twoEntries.Coherent :=
  ⟨⟨rfl, rfl, trivial⟩, ⟨by decide, by decide, trivial⟩, by decide, by decide⟩

/-- A leader of term 2 replaces the second entry. -/
def replacement : List (Entry Nat) :=
  [noopAt 1 1 (by decide) (by decide), noopAt 2 2 (by decide) (by decide)]

theorem merge_replays_conflict :
    ∃ log', LogMethod.mergeFromLeader replacement twoEntries = (.ok (replacement.drop 1), log') ∧
      MergeContract twoEntries replacement (replacement.drop 1) log' :=
  ⟨_, rfl, (merge_replays twoEntries twoEntries_coherent replacement 1
    ⟨rfl, rfl, trivial⟩).1 _ _ rfl⟩

/-! ## Compaction and installation -/

namespace RaftLog

variable {log : RaftLog C}

/-- What `compact` has checked and written, on any log. -/
theorem compact_eq_ok {record : SnapshotRecord} {log' : RaftLog C}
    (ok : log.compact record = .ok log') :
    record.metadata.index ≤ log.committed ∧ record.metadata.index < u64Max ∧
    log.term record.metadata.index = .ok record.metadata.term ∧
    log.firstIndex = .ok (log.snapshotIndex + 1) ∧
    log' = { log with
      entries := log.entries.drop (min (record.metadata.index - log.snapshotIndex)
        log.entries.length)
      snapshot := some record
      unstable := log.unstable.discardThrough record.metadata.index } := by
  simp only [RaftLog.compact, bind, Except.bind] at ok
  split at ok
  · simp at ok
  next le =>
  cases ht : log.term record.metadata.index with
  | error f => simp [ht] at ok
  | ok t =>
    simp only [ht] at ok
    split at ok
    · simp at ok
    next same =>
    by_cases lt : record.metadata.index < u64Max
    · rw [checkedNextOr_eq_ok _ lt] at ok
      cases hf : log.firstIndex with
      | error f => simp [hf] at ok
      | ok first =>
        have first_eq : first = log.snapshotIndex + 1 := firstIndex_eq_ok hf
        have drained : (if first < record.metadata.index + 1 then
            min (record.metadata.index + 1 - first) log.entries.length else 0) =
            min (record.metadata.index - log.snapshotIndex) log.entries.length := by
          split <;> omega
        simp only [hf, drained, Except.ok.injEq] at ok
        exact ⟨Nat.not_lt.mp le, lt, by rw [Decidable.not_not.mp same], by rw [first_eq], ok.symm⟩
    · simp [checkedNextOr, checkedNext, lt] at ok

/-- The boundary that `compact` accepts lies inside the log. -/
theorem Coherent.boundary_mem (h : log.Coherent) {record : SnapshotRecord}
    (le : record.metadata.index ≤ log.committed)
    (ht : log.term record.metadata.index = .ok record.metadata.term) :
    log.snapshotIndex ≤ record.metadata.index ∧
      record.metadata.index - log.snapshotIndex ≤ log.entries.length := by
  have last := lastIndex_of_contiguous h.contiguous
  have committed := h.committed_le
  refine ⟨?_, by omega⟩
  by_contra below
  unfold RaftLog.term at ht
  unfold snapshotIndex at below
  cases hs : log.snapshot with
  | none => simp [hs] at below
  | some old =>
    rw [hs, Option.elim_some, Nat.not_le] at below
    simp [hs, below] at ht

end RaftLog

/-- What `compact` leaves alone and where the log begins after it. -/
structure CompactContract (log : RaftLog C) (record : SnapshotRecord) (log' : RaftLog C) :
    Prop where
  lastIndex : log'.lastIndex = log.lastIndex
  committed : log'.committed = log.committed
  term : ∀ i, record.metadata.index ≤ i → log'.term i = log.term i
  entryAt : ∀ i, record.metadata.index < i → log'.entryAt i = log.entryAt i
  firstIndex : log'.firstIndex = .ok (record.metadata.index + 1)

theorem RaftLog.Coherent.compactContract {log log' : RaftLog C} (h : log.Coherent)
    {record : SnapshotRecord} (ok : log.compact record = .ok log') :
    CompactContract log record log' := by
  obtain ⟨le, lt, ht, first, rfl⟩ := RaftLog.compact_eq_ok ok
  obtain ⟨lo, within⟩ := h.boundary_mem le ht
  rw [Nat.min_eq_left within]
  generalize hl : ({ log with
    entries := log.entries.drop (record.metadata.index - log.snapshotIndex)
    snapshot := some record
    unstable := log.unstable.discardThrough record.metadata.index } : RaftLog C) = log'
  have entries : log'.entries = log.entries.drop (record.metadata.index - log.snapshotIndex) := by
    rw [← hl]
  have boundary : log'.snapshotIndex = record.metadata.index := by rw [← hl]; rfl
  have first' : log'.firstIndex = .ok (log'.snapshotIndex + 1) :=
    RaftLog.firstIndex_of_lt (by rw [boundary]; exact lt)
  have contiguous := h.contiguous.drop within
  rw [show log.snapshotIndex + 1 + (record.metadata.index - log.snapshotIndex) =
    log'.snapshotIndex + 1 by omega, ← entries] at contiguous
  have lastIndex : log'.lastIndex = log.lastIndex := by
    rw [RaftLog.lastIndex_of_contiguous contiguous,
      RaftLog.lastIndex_of_contiguous h.contiguous, entries, List.length_drop]
    omega
  have entryAt : ∀ i, record.metadata.index < i → log'.entryAt i = log.entryAt i := by
    intro i above
    rw [RaftLog.entryAt_of_firstIndex first' (by omega),
      RaftLog.entryAt_of_firstIndex first (by omega), entries, List.getElem?_drop]
    congr 2
    omega
  refine ⟨lastIndex, by rw [← hl], ?_, entryAt, by rw [first', boundary]⟩
  intro i reached
  rcases Nat.eq_or_lt_of_le reached with rfl | above
  · rw [ht, ← hl]
    simp [RaftLog.term]
  · rw [RaftLog.term_above (by omega), RaftLog.term_above (by omega), entryAt i above, lastIndex]

/-- The two ways to a snapshot agree wherever `compact` succeeds. -/
theorem RaftLog.installSnapshot_of_compact {log log' : RaftLog C} {record : SnapshotRecord}
    (ok : log.compact record = .ok log') : log.installSnapshot record = .ok log' := by
  obtain ⟨le, lt, ht, first, rfl⟩ := RaftLog.compact_eq_ok ok
  have drained : min (record.metadata.index + 1) u64Max - (log.snapshotIndex + 1) =
      record.metadata.index - log.snapshotIndex := by omega
  simp only [RaftLog.installSnapshot, ht, first, drained, if_true, bind, Except.bind,
    Nat.max_eq_left le]

/-- A snapshot that the log does not lead up to discards the whole suffix. -/
theorem RaftLog.Coherent.installSnapshot_divergent {log : RaftLog C} (h : log.Coherent)
    {record : SnapshotRecord} (u64 : record.metadata.index ≤ u64Max)
    (above : log.committed < record.metadata.index)
    (diverges : log.term record.metadata.index ≠ .ok record.metadata.term) :
    log.installSnapshot record = .ok {
      snapshot := some record
      entries := []
      committed := record.metadata.index
      unstable := log.unstable.discardThrough record.metadata.index } := by
  have le := h.snapshot_le
  have past : log.snapshotIndex < record.metadata.index := by omega
  have reads := RaftLog.term_above past
  rw [RaftLog.entryAt_of_firstIndex (RaftLog.firstIndex_of_lt (by omega)) (by omega)] at reads
  simp only [RaftLog.installSnapshot, Nat.max_eq_right above.le]
  cases ht : log.term record.metadata.index with
  | ok t =>
    have other : t ≠ record.metadata.term := by
      rintro rfl
      exact diverges ht
    simp only [if_neg other, bind, Except.bind]
  | error f =>
    cases f with
    | raise e => rfl
    | panic =>
      rw [ht] at reads
      simp only [bind, Except.bind] at reads
      split at reads <;> simp at reads

/-- Compaction is transparent above its boundary, and installing the record that was
compacted to gives the same log. A record past the commit point that the log does not lead up
to leaves an empty suffix that ends, committed, at its index. -/
theorem compaction_transparent (log : RaftLog C) (coherent : log.Coherent)
    (record : SnapshotRecord) :
    (∀ log', LogMethod.compact record log = (.ok (), log') →
      CompactContract log record log' ∧
      LogMethod.installSnapshot record log = (.ok (), log')) ∧
    (record.metadata.index ≤ u64Max → log.committed < record.metadata.index →
      log.term record.metadata.index ≠ .ok record.metadata.term →
      ∃ log', LogMethod.installSnapshot record log = (.ok (), log') ∧ log'.entries = [] ∧
        log'.lastIndex = record.metadata.index ∧ log'.committed = record.metadata.index) := by
  rw [LogMethod.compact_run, LogMethod.installSnapshot_run]
  constructor
  · intro log' run
    cases ok : log.compact record with
    | error f => simp [ok, LogMethod.after] at run
    | ok compacted =>
      simp only [ok, LogMethod.after, Prod.mk.injEq, true_and] at run
      subst run
      exact ⟨coherent.compactContract ok, by rw [RaftLog.installSnapshot_of_compact ok]; rfl⟩
  · intro u64 above diverges
    rw [coherent.installSnapshot_divergent u64 above diverges]
    exact ⟨_, rfl, rfl, rfl, rfl⟩

/-- A snapshot of one member through the given boundary. -/
def snapshotAt (index term : Nat) (index_pos : 0 < index) (term_pos : 0 < term) :
    SnapshotRecord :=
  ⟨⟨1, index, term, [1], 0, ⟨[]⟩, index_pos, term_pos, by decide, by decide⟩, ⟨[]⟩⟩

theorem compaction_transparent_two :
    (∃ log', LogMethod.compact (snapshotAt 1 1 (by decide) (by decide)) twoEntries =
        (.ok (), log') ∧
      CompactContract twoEntries (snapshotAt 1 1 (by decide) (by decide)) log' ∧
      LogMethod.installSnapshot (snapshotAt 1 1 (by decide) (by decide)) twoEntries =
        (.ok (), log')) ∧
    ∃ log', LogMethod.installSnapshot (snapshotAt 2 2 (by decide) (by decide)) twoEntries =
        (.ok (), log') ∧ log'.entries = [] ∧ log'.lastIndex = 2 ∧ log'.committed = 2 :=
  ⟨⟨_, rfl, (compaction_transparent twoEntries twoEntries_coherent _).1 _ rfl⟩,
    (compaction_transparent twoEntries twoEntries_coherent
      (snapshotAt 2 2 (by decide) (by decide))).2 (by decide) (by decide) (by decide)⟩

/-! ## Any sequence of calls -/

/-- A call of one of the methods that keep the log valid, with any arguments. -/
inductive LogOp (C : Type) where
  | append (entries : List (Entry C))
  | replaceConflict (incoming : List (Entry C))
  | mergeFromLeader (incoming : List (Entry C))
  | commitTo (index : Nat)
  | markStable (index : Nat)
  | compact (snapshot : SnapshotRecord)

namespace LogOp

def call : LogOp C → LogMethod C Unit
  | .append entries => LogMethod.append entries
  | .replaceConflict incoming => LogMethod.replaceConflict incoming
  | .mergeFromLeader incoming => do
    let _ ← LogMethod.mergeFromLeader incoming
    pure ()
  | .commitTo index => LogMethod.commitTo index
  | .markStable index => LogMethod.markStable index
  | .compact snapshot => LogMethod.compact snapshot

/-- The log after a sequence of calls, whatever each of them returned. -/
def runAll (log : RaftLog C) (ops : List (LogOp C)) : RaftLog C :=
  ops.foldl (fun log op => (op.call log).2) log

/-- The functions that the methods agree with. -/
def apply (log : RaftLog C) : LogOp C → Outcome LogError (RaftLog C)
  | .append entries => log.append entries
  | .replaceConflict incoming => log.replaceConflict incoming
  | .mergeFromLeader incoming => (log.mergeFromLeader incoming).map (·.1)
  | .commitTo index => log.commitTo index
  | .markStable index => log.markStable index
  | .compact snapshot => log.compact snapshot

theorem call_eq (op : LogOp C) (log : RaftLog C) :
    op.call log = LogMethod.after log (op.apply log) := by
  cases op with
  | append entries => exact LogMethod.append_run entries log
  | replaceConflict incoming => exact LogMethod.replaceConflict_run incoming log
  | mergeFromLeader incoming =>
    have run := LogMethod.mergeFromLeader_run incoming log
    simp only [call, apply]
    cases hm : log.mergeFromLeader incoming with
    | error f =>
      rw [hm] at run
      exact Program.bind_run_error run _
    | ok result =>
      rw [hm] at run
      exact Program.bind_run_ok run _
  | commitTo index => exact LogMethod.commitTo_run index log
  | markStable index => exact LogMethod.markStable_run index log
  | compact snapshot => exact LogMethod.compact_run snapshot log

end LogOp

namespace RaftLog

/-- The representation invariant, with what it gives a reader of the log. -/
structure Represented (log : RaftLog C) : Prop where
  firstIndex : log.firstIndex = .ok (log.snapshotIndex + 1)
  lastIndex : log.lastIndex = log.snapshotIndex + log.entries.length
  contiguous : Contiguous (log.snapshotIndex + 1) log.entries
  terms : TermsFrom log.snapshotTerm log.entries
  snapshot_le : log.snapshotIndex ≤ log.committed
  committed_le : log.committed ≤ log.lastIndex
  lastIndex_lt : log.lastIndex < u64Max
  reads : ∀ i, log.snapshotIndex < i → i ≤ log.lastIndex →
    ∃ e, log.range i i = .ok [e] ∧ e.index = i ∧ log.term i = .ok e.term
  term_ne_panic : ∀ i, log.term i ≠ .error .panic
  range_ne_panic : ∀ start last, log.range start last ≠ .error .panic

/-- What later calls keep of a log: commitment, and every committed entry until it is
compacted away. -/
structure Preserved (log log' : RaftLog C) : Prop where
  committed : log.committed ≤ log'.committed
  snapshot : log.snapshotIndex ≤ log'.snapshotIndex
  entryAt : ∀ i ≤ log.committed, log'.snapshotIndex < i → log'.entryAt i = log.entryAt i

theorem Preserved.refl (log : RaftLog C) : Preserved log log :=
  ⟨le_rfl, le_rfl, fun _ _ _ => rfl⟩

theorem Preserved.trans {a b c : RaftLog C} (h : Preserved a b) (h' : Preserved b c) :
    Preserved a c where
  committed := h.committed.trans h'.committed
  snapshot := h.snapshot.trans h'.snapshot
  entryAt := fun i le above =>
    (h'.entryAt i (le.trans h.committed) above).trans
      (h.entryAt i le (h'.snapshot.trans_lt above))

/-- The invariant that every call keeps. -/
structure Valid (log : RaftLog C) : Prop where
  wf : log.WF
  snapshot_le : log.snapshotIndex ≤ log.committed
  committed_le : log.committed ≤ log.lastIndex

variable {log : RaftLog C}

theorem Valid.coherent (h : log.Valid) : log.Coherent :=
  ⟨h.wf.contiguous, h.wf.terms, h.snapshot_le, h.committed_le⟩

theorem Valid.represented (h : log.Valid) : log.Represented where
  firstIndex := h.wf.firstIndex
  lastIndex := h.wf.lastIndex
  contiguous := h.wf.contiguous
  terms := h.wf.terms
  snapshot_le := h.snapshot_le
  committed_le := h.committed_le
  lastIndex_lt := h.wf.lastIndex_lt
  reads := by
    intro i above le
    obtain ⟨e, he⟩ := Option.isSome_iff_exists.mp (h.wf.get?_isSome.mpr ⟨above, le⟩)
    have found : log.entries[i - (log.snapshotIndex + 1)]? = some e := by
      rw [get?, if_pos above] at he
      exact he
    refine ⟨e, ?_, h.wf.get?_index he, h.wf.term_entry he⟩
    obtain ⟨inside, eq⟩ := List.getElem?_eq_some_iff.mp found
    rw [h.wf.range above le_rfl le, List.drop_eq_getElem_cons inside, eq, Nat.add_sub_cancel_left]
    rfl
  term_ne_panic := fun _ => h.wf.term_ne_panic
  range_ne_panic := fun _ _ => h.wf.range_ne_panic

/-- A call that writes neither entries nor the boundary. -/
theorem Valid.committing (h : log.Valid) {log' : RaftLog C} (entries : log'.entries = log.entries)
    (snapshot : log'.snapshot = log.snapshot) (le : log.committed ≤ log'.committed)
    (last : log'.committed ≤ log.lastIndex) : log'.Valid ∧ Preserved log log' := by
  have boundary : log'.snapshotIndex = log.snapshotIndex := by
    simp only [snapshotIndex, snapshot]
  refine ⟨⟨h.wf.congr snapshot entries, ?_, ?_⟩, le, boundary.ge, fun _ _ _ => ?_⟩
  · exact boundary.le.trans (h.snapshot_le.trans le)
  · exact last.trans (lastIndex_congr entries snapshot).ge
  · rw [entryAt_congr entries snapshot]

theorem Valid.appended (h : log.Valid) {es : List (Entry C)} {log' : RaftLog C}
    (ok : log.append es = .ok log') : log'.Valid ∧ Preserved log log' := by
  cases es with
  | nil =>
    rw [RaftLog.append, Except.ok.injEq] at ok
    subst ok
    exact ⟨h, .refl log⟩
  | cons e rest =>
    obtain ⟨last, -, rfl, wf⟩ := h.wf.append_cons ok
    have grown := wf.lastIndex
    have size := h.wf.lastIndex
    have le := h.committed_le
    simp only [List.length_append] at grown
    refine ⟨⟨wf, h.snapshot_le, ?_⟩, le_rfl, le_rfl, ?_⟩
    · have : log.committed ≤ log.snapshotIndex + (log.entries.length + (e :: rest).length) := by
        omega
      exact this.trans grown.ge
    · intro i committed above
      rw [wf.entryAt, h.wf.entryAt]
      refine congrArg Except.ok (get?_congr rfl fun k hk => ?_)
      exact List.getElem?_append_left (by omega)

theorem Merged.le_lastIndex {incoming appended : List (Entry C)} {log' : RaftLog C}
    (merged : log.Merged incoming log' appended) (h : log.Valid) (wf : log'.WF) :
    log.committed ≤ log'.lastIndex := by
  have size := wf.lastIndex
  cases merged with
  | same => exact h.committed_le
  | changed kept e rest j u split held differs index within uncommitted =>
    have kept_size : (log.entries.take j ++ e :: rest).length = j + (rest.length + 1) := by
      rw [List.length_append, List.length_take, Nat.min_eq_left within, List.length_cons]
    have size' : RaftLog.lastIndex _ = log.snapshotIndex + (j + (rest.length + 1)) :=
      size.trans (congrArg (log.snapshotIndex + ·) kept_size)
    rw [size']
    omega

theorem Valid.merged (h : log.Valid) {incoming appended : List (Entry C)} {log' : RaftLog C}
    (how : log.Merged incoming log' appended) (wf : log'.WF) :
    log'.Valid ∧ Preserved log log' := by
  obtain ⟨snapshot, committed⟩ := how.frame_eq
  have boundary : log'.snapshotIndex = log.snapshotIndex := by
    simp only [snapshotIndex, snapshot]
  have last := how.le_lastIndex h wf
  refine ⟨⟨wf, ?_, by omega⟩, committed.ge, boundary.ge, fun i le above => ?_⟩
  · have := h.snapshot_le
    omega
  · rw [wf.entryAt, h.wf.entryAt]
    refine congrArg Except.ok (get?_congr snapshot fun k hk => ?_)
    have kept := how.take_committed (k := k + 1) (by omega)
    have read := congrArg (·[k]?) kept
    simpa only [List.getElem?_take_of_lt (Nat.lt_succ_self k)] using read

theorem Valid.compacted (h : log.Valid) {record : SnapshotRecord} {log' : RaftLog C}
    (ok : log.compact record = .ok log') : log'.Valid ∧ Preserved log log' := by
  have contract := h.coherent.compactContract ok
  have wf := h.wf.compacted ok
  obtain ⟨le, -, ht, -, rfl⟩ := compact_eq_ok ok
  obtain ⟨lo, -⟩ := h.coherent.boundary_mem le ht
  refine ⟨⟨wf, le, ?_⟩, le_rfl, lo, fun i _ above => contract.entryAt i above⟩
  exact h.committed_le.trans contract.lastIndex.ge

/-- One call on a valid log fails without a trace or keeps the invariant. -/
theorem Valid.apply (h : log.Valid) (op : LogOp C) :
    (∃ e, op.apply log = Outcome.raise e) ∨
      ∃ log', op.apply log = .ok log' ∧ log'.Valid ∧ Preserved log log' := by
  cases op with
  | append es =>
    cases ha : log.append es with
    | ok log' => exact .inr ⟨log', ha, h.appended ha⟩
    | error f =>
      cases f with
      | raise e => exact .inl ⟨e, ha⟩
      | panic => exact absurd ha h.wf.append_ne_panic
  | replaceConflict incoming =>
    rcases h.wf.replaceConflict incoming with failed | ⟨merged, appended, ok, how, wf⟩
    · exact .inl failed
    · exact .inr ⟨merged, ok, h.merged how wf⟩
  | mergeFromLeader incoming =>
    rcases h.wf.mergeFromLeader incoming with ⟨e, failed⟩ | ⟨merged, appended, ok, how, wf⟩
    · exact .inl ⟨e, by rw [LogOp.apply, failed]; rfl⟩
    · exact .inr ⟨merged, by rw [LogOp.apply, ok]; rfl, h.merged how wf⟩
  | commitTo index =>
    cases hc : log.commitTo index with
    | ok log' =>
      obtain ⟨le, rfl⟩ := commitTo_eq_ok hc
      exact .inr ⟨_, hc, h.committing rfl rfl (Nat.le_max_left _ _)
        (Nat.max_le.mpr ⟨h.committed_le, le⟩)⟩
    | error f =>
      cases f with
      | raise e => exact .inl ⟨e, hc⟩
      | panic =>
        unfold RaftLog.commitTo at hc
        split at hc
        · simp at hc
        · split at hc <;> simp at hc
  | markStable index =>
    cases hs : log.markStable index with
    | ok log' =>
      have eq := markStable_eq_ok hs
      subst eq
      exact .inr ⟨_, hs, h.committing rfl rfl le_rfl h.committed_le⟩
    | error f =>
      cases f with
      | raise e => exact .inl ⟨e, hs⟩
      | panic =>
        unfold RaftLog.markStable at hs
        split at hs <;> simp at hs
  | compact record =>
    cases hc : log.compact record with
    | ok log' => exact .inr ⟨log', hc, h.compacted hc⟩
    | error f =>
      cases f with
      | raise e => exact .inl ⟨e, hc⟩
      | panic => exact absurd hc h.wf.compact_ne_panic

theorem Valid.call (h : log.Valid) (op : LogOp C) :
    (op.call log).2.Valid ∧ Preserved log (op.call log).2 := by
  rw [op.call_eq]
  rcases h.apply op with ⟨e, failed⟩ | ⟨log', ok, valid, preserved⟩
  · rw [failed]
    exact ⟨h, .refl log⟩
  · rw [ok]
    exact ⟨valid, preserved⟩

theorem Valid.runAll (h : log.Valid) (ops : List (LogOp C)) :
    (LogOp.runAll log ops).Valid ∧ Preserved log (LogOp.runAll log ops) := by
  induction ops generalizing log with
  | nil => exact ⟨h, .refl log⟩
  | cons op ops ih =>
    obtain ⟨valid, preserved⟩ := h.call op
    obtain ⟨valid', later⟩ := ih valid
    exact ⟨valid', preserved.trans later⟩

theorem Valid.fromRecovered (r : RecoveredState C) : (RaftLog.fromRecovered r).Valid := by
  obtain ⟨wf, -, snapshot_le, committed_le⟩ := r.facts
  exact ⟨wf, snapshot_le, committed_le⟩

end RaftLog

/-- The log keeps its representation invariant: after any calls with any arguments on a
recovered log the invariant holds, later calls keep what is committed, and one more call
neither panics nor, when it fails, changes the log. -/
theorem log_representation (r : RecoveredState C) (earlier later : List (LogOp C))
    (op : LogOp C) :
    let log := LogOp.runAll (RaftLog.fromRecovered r) earlier
    log.Represented ∧
    RaftLog.Preserved log (LogOp.runAll log later) ∧
    (op.call log).1 ≠ .error .panic ∧
    ∀ e, (op.call log).1 = .error (.raise e) → (op.call log).2 = log := by
  intro log
  have valid : log.Valid := ((RaftLog.Valid.fromRecovered r).runAll earlier).1
  refine ⟨valid.represented, (valid.runAll later).2, ?_, ?_⟩
  · rw [op.call_eq]
    rcases valid.apply op with ⟨e, failed⟩ | ⟨log', ok, -⟩
    · simp [failed, LogMethod.after]
    · simp [ok, LogMethod.after]
  · intro e failed
    rw [op.call_eq] at failed ⊢
    cases ha : op.apply log with
    | ok log' => simp [ha, LogMethod.after] at failed
    | error f => rfl

end Ruft
