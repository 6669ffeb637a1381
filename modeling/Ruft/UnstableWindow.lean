import Mathlib.Data.List.TakeWhile
import Mathlib.Order.Interval.Finset.Nat
import Ruft.LogRuns

set_option autoImplicit false

/-!
# The unstable window

The window that a log keeps of its unconfirmed entries against the set of indexes that were
written and neither confirmed, nor covered by a snapshot, nor truncated away.

## Main definitions

- `LogCall` — a call of the log, installation included
- `LogCall.unconfirmed` — what a call does to the set of unconfirmed indexes
- `WindowExact` — the window is that set
- `InstallTrims` — no installation discards a suffix that ends behind its snapshot unconfirmed

## Main results

- `window_exact` — the window is exact after every call of a sequence if and only if each
  installation of the sequence trims
-/

namespace Ruft

variable {C : Type}

/-! ## The window as a set -/

/-- The window is empty, or it begins behind `low` and ends at `last`; either way it is the set. -/
inductive Windowed (low last : Nat) : Unstable → Finset Nat → Prop where
  | clean : Windowed low last ⟨none, none⟩ ∅
  | from_ (f : Nat) (above : low < f) (le : f ≤ last) :
      Windowed low last ⟨some f, some last⟩ (Finset.Icc f last)

namespace Windowed

variable {low last : Nat} {u : Unstable} {set : Finset Nat}

theorem eq (h : Windowed low last u set) : (u = ⟨none, none⟩ ∧ set = ∅) ∨
    ∃ f, u = ⟨some f, some last⟩ ∧ low < f ∧ f ≤ last ∧ set = Finset.Icc f last := by
  cases h with
  | clean => exact .inl ⟨rfl, rfl⟩
  | from_ f above le => exact .inr ⟨f, rfl, above, le, rfl⟩

/-- Durability, or a snapshot, through an index. -/
theorem confirm (h : Windowed low last u set) (bound : last < u64Max) {low' k : Nat}
    (boundary : low' ≤ max low k) :
    Windowed low' last (u.markStableThrough k) (set.filter (k < ·)) := by
  cases h with
  | clean => exact .clean
  | from_ f above le =>
    simp only [Unstable.markStableThrough]
    split
    · next before =>
      have all : (Finset.Icc f last).filter (k < ·) = Finset.Icc f last :=
        Finset.filter_true_of_mem fun i inside => before.trans_le (Finset.mem_Icc.mp inside).1
      rw [all]
      exact .from_ f (by omega) le
    · split
      · next reached =>
        have none_ : (Finset.Icc f last).filter (k < ·) = ∅ :=
          Finset.filter_false_of_mem fun i inside => by have := (Finset.mem_Icc.mp inside).2; omega
        rw [none_]
        exact .clean
      · next inside open_ =>
        have rest : (Finset.Icc f last).filter (k < ·) = Finset.Icc (k + 1) last := by
          ext i
          simp only [Finset.mem_filter, Finset.mem_Icc]
          omega
        rw [rest, checkedNext, if_pos (by omega)]
        exact .from_ (k + 1) (by omega) (by omega)

/-- A suffix that replaces everything from `i` on. -/
theorem rewrite (h : Windowed low last u set) {i last' : Nat} (above : low < i)
    (next : i ≤ last + 1) (le : i ≤ last') :
    Windowed low last' ((u.truncateFrom i).markRange i last')
      (set.filter (· < i) ∪ Finset.Icc i last') := by
  cases h with
  | clean =>
    rw [Finset.filter_empty, Finset.empty_union]
    exact .from_ i above le
  | from_ f before inside =>
    simp only [Unstable.truncateFrom]
    by_cases all : i ≤ f
    · rw [if_pos all]
      have none_ : (Finset.Icc f last).filter (· < i) = ∅ :=
        Finset.filter_false_of_mem fun j among => by have := (Finset.mem_Icc.mp among).1; omega
      rw [none_, Finset.empty_union]
      exact .from_ i above le
    · have kept : (Finset.Icc f last).filter (· < i) ∪ Finset.Icc i last' = Finset.Icc f last' := by
        ext j
        simp only [Finset.mem_union, Finset.mem_filter, Finset.mem_Icc]
        omega
      rw [kept, if_neg all]
      have grown : ∀ through, through < i →
          Windowed low last' (Unstable.markRange ⟨some f, some through⟩ i last')
            (Finset.Icc f last') := fun through lt => by
        have marked : Unstable.markRange ⟨some f, some through⟩ i last' = ⟨some f, some last'⟩ := by
          simp only [Unstable.markRange, Option.elim_some, Nat.min_eq_left (Nat.le_of_not_le all),
            Nat.max_eq_right (lt.le.trans le)]
        rw [marked]
        exact .from_ f before ((Nat.le_of_not_le all).trans le)
      split
      · exact grown _ (by omega)
      · exact grown _ (by omega)

/-- Nothing of the window or of the set lies behind the last index. -/
theorem truncate_next (h : Windowed low last u set) :
    u.truncateFrom (last + 1) = u ∧ set.filter (· < last + 1) = set := by
  cases h with
  | clean => exact ⟨rfl, rfl⟩
  | from_ f above le =>
    refine ⟨?_, Finset.filter_true_of_mem fun i inside => ?_⟩
    · simp only [Unstable.truncateFrom]
      rw [if_neg (by omega), if_neg (by omega)]
    · have := (Finset.mem_Icc.mp inside).2
      omega

end Windowed

/-! ## Calls -/

/-- A call of the log, installation included, with any arguments. -/
inductive LogCall (C : Type) where
  | method (op : LogOp C)
  | installSnapshot (record : SnapshotRecord)

/-- The indexes of a run of entries. -/
def indexSet (es : List (Entry C)) : Finset Nat := (es.map (·.index)).toFinset

theorem Contiguous.indexSet {n last : Nat} {es : List (Entry C)} (h : Contiguous n es)
    (size : n + es.length = last + 1) : indexSet es = Finset.Icc n last := by
  induction es generalizing n with
  | nil =>
    rw [List.length_nil] at size
    exact (Finset.Icc_eq_empty (by omega)).symm
  | cons e es ih =>
    obtain ⟨rfl, rest⟩ := h
    rw [List.length_cons] at size
    have tail := ih rest (by omega)
    rw [Ruft.indexSet, List.map_cons, List.toFinset_cons]
    rw [Ruft.indexSet] at tail
    rw [tail]
    ext i
    simp only [Finset.mem_insert, Finset.mem_Icc]
    omega

namespace LogCall

def call : LogCall C → LogMethod C Unit
  | .method op => op.call
  | .installSnapshot record => LogMethod.installSnapshot record

/-- The functions that the methods agree with. -/
def apply (log : RaftLog C) : LogCall C → Outcome LogError (RaftLog C)
  | .method op => op.apply log
  | .installSnapshot record => log.installSnapshot record

theorem call_eq (call : LogCall C) (log : RaftLog C) :
    call.call log = LogMethod.after log (call.apply log) := by
  cases call with
  | method op => exact op.call_eq log
  | installSnapshot record => exact LogMethod.installSnapshot_run record log

/-- The incoming entries from the first that the log does not hold on: those that are written. -/
def written (log : RaftLog C) (incoming : List (Entry C)) : List (Entry C) :=
  incoming.dropWhile fun e => decide (log.term e.index = .ok e.term)

/-- What a call that returned does to the set of indexes that were written and are neither
confirmed, nor covered, nor truncated away. -/
def returned (log : RaftLog C) (set : Finset Nat) : LogCall C → Finset Nat
  | .method (.append entries) => set ∪ indexSet entries
  | .method (.replaceConflict incoming) | .method (.mergeFromLeader incoming) =>
    match written log incoming with
    | [] => set
    | e :: rest => set.filter (· < e.index) ∪ indexSet (e :: rest)
  | .method (.commitTo _) => set
  | .method (.markStable index) => set.filter (index < ·)
  | .method (.compact record) => set.filter (record.metadata.index < ·)
  | .installSnapshot record =>
    if log.term record.metadata.index = .ok record.metadata.term then
      set.filter (record.metadata.index < ·)
    else ∅

/-- A call that failed does nothing to it. -/
def unconfirmed (log : RaftLog C) (set : Finset Nat) (call : LogCall C) : Finset Nat :=
  match (call.call log).1 with
  | .ok () => call.returned log set
  | .error _ => set

/-- The log and the set after a sequence of calls, whatever each of them returned. -/
def runAll (s : RaftLog C × Finset Nat) (calls : List (LogCall C)) : RaftLog C × Finset Nat :=
  calls.foldl (fun s call => ((call.call s.1).2, call.unconfirmed s.1 s.2)) s

theorem runAll_append (s : RaftLog C × Finset Nat) (calls : List (LogCall C)) (call : LogCall C) :
    runAll s (calls ++ [call]) = ((call.call (runAll s calls).1).2,
      call.unconfirmed (runAll s calls).1 (runAll s calls).2) := by
  rw [runAll, List.foldl_append]
  rfl

end LogCall

/-- The window is empty or reaches from an index of the log to its end, and it begins at the
lowest index of the set. -/
structure WindowExact (log : RaftLog C) (set : Finset Nat) : Prop where
  shape : log.unstable = ⟨none, none⟩ ∨ ∃ first f, log.firstIndex = .ok first ∧
    log.unstable = ⟨some f, some log.lastIndex⟩ ∧ first ≤ f ∧ f ≤ log.lastIndex
  lowest : ∀ f, log.unstableFrom = some f ↔ IsLeast (set : Set Nat) f

/-- An installation that discards the suffix finds the window empty or covers it. -/
def InstallTrims (log : RaftLog C) (call : LogCall C) : Prop :=
  ∀ record, call = .installSnapshot record →
    log.term record.metadata.index ≠ .ok record.metadata.term →
    ∀ through, log.unstable.through = some through → through ≤ record.metadata.index

namespace RaftLog

variable {log : RaftLog C} {set : Finset Nat}

/-- What the calls keep: the window of a log that takes entries, or no window at all in one
whose snapshot reaches the end of the index type. -/
inductive Tracks (log : RaftLog C) (set : Finset Nat) : Prop where
  | open_ (wf : log.WF) (window : Windowed log.snapshotIndex log.lastIndex log.unstable set)
  | full (reached : u64Max ≤ log.snapshotIndex) (entries : log.entries = [])
      (window : log.unstable = ⟨none, none⟩) (none_ : set = ∅)

theorem Tracks.exact (h : log.Tracks set) : WindowExact log set := by
  cases h with
  | open_ wf window =>
    rcases window.eq with ⟨none_, rfl⟩ | ⟨f, from_, above, le, rfl⟩
    · refine ⟨.inl none_, fun f => ?_⟩
      simp [RaftLog.unstableFrom, none_, IsLeast]
    · refine ⟨.inr ⟨_, f, wf.firstIndex, from_, above, le⟩, fun g => ?_⟩
      rw [RaftLog.unstableFrom, from_, Finset.coe_Icc, (isLeast_Icc le).isLeast_iff_eq,
        Option.some.injEq]
  | full reached entries window none_ =>
    refine ⟨.inl window, fun f => ?_⟩
    simp [RaftLog.unstableFrom, window, none_, IsLeast]

/-- A log that takes no entry any more. -/
theorem full_lastIndex (reached : u64Max ≤ log.snapshotIndex) (entries : log.entries = []) :
    u64Max ≤ log.lastIndex := by
  rwa [RaftLog.lastIndex, entries]

/-- A log that was cut and continued by a suffix. -/
theorem Tracks.rewritten (wf : log.WF)
    (window : Windowed log.snapshotIndex log.lastIndex log.unstable set) {e last : Entry C}
    {rest : List (Entry C)} {j : Nat} {log' : RaftLog C} (wf' : log'.WF)
    (snapshot : log'.snapshot = log.snapshot)
    (entries : log'.entries = log.entries.take j ++ e :: rest) (within : j ≤ log.entries.length)
    (isLast : (e :: rest).getLast? = some last)
    (marked : log'.unstable = (log.unstable.truncateFrom e.index).markRange e.index last.index) :
    log'.Tracks (set.filter (· < e.index) ∪ indexSet (e :: rest)) := by
  have boundary : log'.snapshotIndex = log.snapshotIndex := by simp only [snapshotIndex, snapshot]
  have size := wf.lastIndex
  have kept : (log.entries.take j).length = j := by rw [List.length_take, Nat.min_eq_left within]
  have contiguous := wf'.contiguous
  rw [entries] at contiguous
  have contiguous := (Contiguous.append.mp contiguous).2
  rw [boundary, kept] at contiguous
  have index : e.index = log.snapshotIndex + 1 + j := contiguous.1
  have end_ := contiguous.getLast? isLast
  have ends : log'.lastIndex = last.index := by
    rw [RaftLog.lastIndex, entries, List.getLast?_append, isLast]
    rfl
  rw [List.length_cons] at end_
  have set_eq : indexSet (e :: rest) = Finset.Icc e.index last.index :=
    Contiguous.indexSet (index ▸ contiguous) (by rw [List.length_cons]; omega)
  refine .open_ wf' ?_
  rw [boundary, ends, marked, set_eq]
  exact window.rewrite (by omega) (by omega) (by omega)

theorem Tracks.append (h : log.Tracks set) {es : List (Entry C)} {log' : RaftLog C}
    (ok : log.append es = .ok log') : log'.Tracks (set ∪ indexSet es) := by
  cases es with
  | nil =>
    rw [RaftLog.append, Except.ok.injEq] at ok
    subst ok
    rwa [indexSet, List.map_nil, List.toFinset_nil, Finset.union_empty]
  | cons e rest =>
    cases h with
    | open_ wf window =>
      obtain ⟨last, isLast, rfl, wf'⟩ := wf.append_cons ok
      have size := wf.lastIndex
      have next : e.index = log.lastIndex + 1 := by
        have contiguous := (Contiguous.append.mp wf'.contiguous).2
        rw [size, Nat.add_right_comm]
        exact contiguous.1
      obtain ⟨truncated, filtered⟩ := window.truncate_next
      rw [← next] at truncated filtered
      have all : log.entries ++ e :: rest = log.entries.take log.entries.length ++ e :: rest := by
        rw [List.take_length]
      have after := Tracks.rewritten wf window wf' rfl all le_rfl isLast (by rw [truncated])
      rwa [filtered] at after
    | full reached entries window none_ =>
      have full := full_lastIndex reached entries
      simp [RaftLog.append, checkedNextOr, checkedNext, Nat.not_lt.mpr full, bind,
        Except.bind] at ok

theorem written_held {incoming : List (Entry C)}
    (held : ∀ e ∈ incoming, log.term e.index = .ok e.term) : LogCall.written log incoming = [] :=
  List.dropWhile_eq_nil_iff.mpr (by simpa using held)

theorem written_differs {kept rest : List (Entry C)} {e : Entry C}
    (held : ∀ e ∈ kept, log.term e.index = .ok e.term) (differs : log.term e.index ≠ .ok e.term) :
    LogCall.written log (kept ++ e :: rest) = e :: rest := by
  rw [LogCall.written, List.dropWhile_append_of_pos (by simpa using held),
    List.dropWhile_cons_of_neg (by simpa using differs)]

/-- The comparison passes over a run of entries that are held. -/
theorem WF.firstConflict_append (h : log.WF) {kept : List (Entry C)} (rest : List (Entry C))
    (offset : Nat) (held : ∀ e ∈ kept, log.term e.index = .ok e.term) :
    log.firstConflict offset (kept ++ rest) = log.firstConflict (offset + kept.length) rest := by
  induction kept generalizing offset with
  | nil => rfl
  | cons e kept ih =>
    rw [List.cons_append, h.firstConflict_held _ _ (held e (by simp)),
      ih _ fun f among => held f (List.mem_cons_of_mem _ among), List.length_cons]
    congr 1
    omega

/-- The window after a replacement. -/
theorem WF.replaceConflict_unstable (h : log.WF) {kept rest : List (Entry C)} {e : Entry C}
    {log' : RaftLog C} (held : ∀ e ∈ kept, log.term e.index = .ok e.term)
    (differs : log.term e.index ≠ .ok e.term)
    (ok : log.replaceConflict (kept ++ e :: rest) = .ok log') :
    ∃ last, (e :: rest).getLast? = some last ∧
      log'.unstable = (log.unstable.truncateFrom e.index).markRange e.index last.index := by
  obtain ⟨last, isLast⟩ : ∃ g, (e :: rest).getLast? = some g := ⟨_, List.getLast?_cons⟩
  have isLast' : (kept ++ e :: rest).getLast? = some last := by
    rw [List.getLast?_append, isLast]
    rfl
  have conflict : (kept ++ e :: rest)[0 + kept.length]? = some e := by
    rw [Nat.zero_add, List.getElem?_append_right le_rfl, Nat.sub_self]
    rfl
  have found := h.firstConflict_append (e :: rest) 0 held
  refine ⟨last, isLast, ?_⟩
  generalize kept ++ e :: rest = incoming at ok found isLast' conflict
  cases incoming with
  | nil => simp at isLast'
  | cons head tail =>
    simp only [RaftLog.replaceConflict, checkedNextOr_eq_ok _ h.lastIndex_lt, bind, Except.bind,
      found] at ok
    split at ok
    · simp at ok
    · cases hv : log.validateContinuity (head :: tail) head.index with
      | error f => simp [hv] at ok
      | ok v =>
        simp only [hv] at ok
        rcases h.firstConflict_differs rest (0 + kept.length) differs with ⟨at_, above, -⟩ | ⟨err, failed⟩
        · simp only [at_, Outcome.index, conflict, Outcome.expect, isLast', h.firstIndex,
            Outcome.sub_eq_ok (show log.snapshotIndex + 1 ≤ e.index by omega)] at ok
          split at ok
          · simp at ok
          · rw [← Except.ok.inj ok]
        · rw [failed] at ok
          simp at ok

theorem Tracks.replaced (h : log.Tracks set) {incoming : List (Entry C)} {log' : RaftLog C}
    (ok : log.replaceConflict incoming = .ok log') :
    log'.Tracks ((LogCall.method (.replaceConflict incoming)).returned log set) := by
  cases h with
  | open_ wf window =>
    obtain ⟨merged, appended, run, how, wf'⟩ := (wf.replaceConflict incoming).resolve_left
      (by rintro ⟨err, failed⟩; simp [failed] at ok)
    obtain rfl := Except.ok.inj (run.symm.trans ok)
    cases how with
    | same held =>
      rw [LogCall.returned, written_held held]
      exact .open_ wf window
    | changed kept e rest j u split held differs index within uncommitted =>
      subst split
      obtain ⟨last, isLast, marked⟩ := wf.replaceConflict_unstable held differs ok
      rw [LogCall.returned, written_differs held differs]
      exact Tracks.rewritten wf window wf' rfl rfl within isLast marked
  | full reached entries window none_ =>
    cases incoming with
    | nil =>
      rw [RaftLog.replaceConflict, Except.ok.injEq] at ok
      subst ok
      exact .full reached entries window none_
    | cons e rest => simp [replaceConflict_full (full_lastIndex reached entries)] at ok

theorem Tracks.merged (h : log.Tracks set) {incoming appended : List (Entry C)} {log' : RaftLog C}
    (ok : log.mergeFromLeader incoming = .ok (log', appended)) :
    log'.Tracks ((LogCall.method (.mergeFromLeader incoming)).returned log set) := by
  have same : log.Holds incoming → log' = log →
      log'.Tracks ((LogCall.method (.mergeFromLeader incoming)).returned log set) := by
    rintro held rfl
    rwa [LogCall.returned, written_held held]
  simp only [RaftLog.mergeFromLeader, bind, Except.bind] at ok
  cases h with
  | open_ wf window =>
    rcases wf.firstChange 0 incoming with ⟨none_, all⟩ | ⟨kept, e, rest, rfl, held, differs, found⟩
    · simp only [none_, Except.ok.injEq, Prod.mk.injEq] at ok
      exact same all ok.1.symm
    · simp only [found, Nat.zero_add, List.drop_left] at ok
      cases hr : log.replaceConflict (e :: rest) with
      | error f => simp [hr] at ok
      | ok replaced =>
        simp only [hr, Except.ok.injEq, Prod.mk.injEq] at ok
        obtain ⟨rfl, -⟩ := ok
        have after := (Tracks.open_ wf window).replaced hr
        rw [LogCall.returned, ← List.nil_append (e :: rest),
          written_differs (fun _ among => absurd among List.not_mem_nil) differs] at after
        rwa [LogCall.returned, written_differs held differs]
  | full reached entries window none_ =>
    cases hf : log.firstChange 0 incoming with
    | error f => simp [hf] at ok
    | ok found =>
      rcases firstChange_eq_ok hf with ⟨rfl, all⟩ | ⟨k, rfl, lt⟩
      · simp only [hf, Except.ok.injEq, Prod.mk.injEq] at ok
        exact same all ok.1.symm
      · obtain ⟨e, rest, cut⟩ : ∃ e rest, incoming.drop k = e :: rest :=
          List.exists_cons_of_length_pos (by rw [List.length_drop]; omega)
        simp [hf, cut, replaceConflict_full (full_lastIndex reached entries)] at ok

theorem Tracks.committing (h : log.Tracks set) {index : Nat} {log' : RaftLog C}
    (ok : log.commitTo index = .ok log') : log'.Tracks set := by
  obtain ⟨-, rfl⟩ := commitTo_eq_ok ok
  cases h with
  | open_ wf window => exact .open_ (wf.congr rfl rfl) window
  | full reached entries window none_ => exact .full reached entries window none_

theorem Tracks.confirmed (h : log.Tracks set) {k : Nat} {log' : RaftLog C}
    (ok : log.markStable k = .ok log') : log'.Tracks (set.filter (k < ·)) := by
  obtain rfl := markStable_eq_ok ok
  cases h with
  | open_ wf window =>
    exact .open_ (wf.congr rfl rfl) (window.confirm wf.lastIndex_lt (Nat.le_max_left _ _))
  | full reached entries window none_ =>
    subst none_
    exact .full reached entries (by rw [window]; rfl) (Finset.filter_empty _)

/-- The log above a boundary that it holds. -/
theorem Tracks.cut (wf : log.WF) (window : Windowed log.snapshotIndex log.lastIndex log.unstable set)
    {record : SnapshotRecord} (ht : log.term record.metadata.index = .ok record.metadata.term)
    {log' : RaftLog C} (snapshot : log'.snapshot = some record)
    (entries : log'.entries = log.entries.drop (record.metadata.index - log.snapshotIndex))
    (discarded : log'.unstable = log.unstable.discardThrough record.metadata.index) :
    log'.Tracks (set.filter (record.metadata.index < ·)) := by
  have wf' := wf.boundary ht snapshot entries
  obtain ⟨lo, hi⟩ := wf.term_isOk.mp ⟨_, ht⟩
  have boundary : log'.snapshotIndex = record.metadata.index := by
    rw [snapshotIndex, snapshot, Option.elim_some]
  have last : log'.lastIndex = log.lastIndex := by
    have size := wf.lastIndex
    rw [wf'.lastIndex, boundary, entries, List.length_drop]
    omega
  refine .open_ wf' ?_
  rw [boundary, last, discarded]
  exact window.confirm wf.lastIndex_lt (Nat.le_max_right _ _)

theorem term_below {i : Nat} (below : i < log.snapshotIndex) :
    log.term i = Outcome.raise (.compacted i log.snapshotIndex) := by
  unfold RaftLog.term
  cases hs : log.snapshot with
  | none => simp [snapshotIndex, hs] at below
  | some record =>
    simp only [snapshotIndex, hs, Option.elim_some] at below
    simp [below, snapshotIndex, hs]

theorem Tracks.compacted (h : log.Tracks set) {record : SnapshotRecord} {log' : RaftLog C}
    (ok : log.compact record = .ok log') : log'.Tracks (set.filter (record.metadata.index < ·)) := by
  cases h with
  | open_ wf window =>
    obtain ⟨-, ht, rfl⟩ := wf.compact_eq_ok ok
    exact Tracks.cut wf window ht rfl rfl rfl
  | full reached entries window none_ =>
    obtain ⟨-, lt, ht, -⟩ := RaftLog.compact_eq_ok ok
    rw [term_below (lt.trans_le reached)] at ht
    simp at ht

/-- A log whose suffix an installation has discarded. -/
theorem Tracks.discarded {record : SnapshotRecord} {log' : RaftLog C}
    (snapshot : log'.snapshot = some record) (entries : log'.entries = [])
    (window : log'.unstable = ⟨none, none⟩) : log'.Tracks ∅ := by
  have boundary : log'.snapshotIndex = record.metadata.index := by
    rw [snapshotIndex, snapshot, Option.elim_some]
  rcases Nat.lt_or_ge record.metadata.index u64Max with lt | reached
  · refine .open_ ⟨?_, ?_, ?_⟩ ?_
    · rwa [entries, boundary, List.length_nil]
    · rw [entries]
      trivial
    · rw [entries]
      trivial
    · rw [window]
      exact .clean
  · exact .full (boundary ▸ reached) entries window rfl

/-- An installation that returned discards the suffix of a log that takes no entry. -/
theorem installSnapshot_full (reached : u64Max ≤ log.snapshotIndex) {record : SnapshotRecord}
    {log' : RaftLog C} (ok : log.installSnapshot record = .ok log') :
    log.term record.metadata.index ≠ .ok record.metadata.term ∧ log'.snapshot = some record ∧
      log'.entries = [] ∧ log'.unstable = log.unstable.discardThrough record.metadata.index := by
  have first : log.firstIndex = .error .panic := by
    unfold RaftLog.firstIndex
    cases hs : log.snapshot with
    | none => simp [snapshotIndex, hs, u64Max] at reached
    | some old =>
      rw [snapshotIndex, hs, Option.elim_some] at reached
      simp [expectNext, checkedNext, Nat.not_lt.mpr reached]
  simp only [RaftLog.installSnapshot, bind, Except.bind] at ok
  cases ht : log.term record.metadata.index with
  | error f =>
    cases f with
    | panic => simp [ht] at ok
    | raise e =>
      simp only [ht, Except.ok.injEq] at ok
      subst ok
      exact ⟨by simp, rfl, rfl, rfl⟩
  | ok t =>
    simp only [ht, first] at ok
    split at ok
    · simp at ok
    · next differs =>
      simp only [Except.ok.injEq] at ok
      subst ok
      exact ⟨by simpa using differs, rfl, rfl, rfl⟩

theorem Tracks.installed (h : log.Tracks set) {record : SnapshotRecord} {log' : RaftLog C}
    (ok : log.installSnapshot record = .ok log') (trims : InstallTrims log (.installSnapshot record)) :
    log'.Tracks ((LogCall.installSnapshot record).returned log set) := by
  rw [LogCall.returned]
  cases h with
  | open_ wf window =>
    obtain rfl := Except.ok.inj ((wf.installSnapshot record).symm.trans ok)
    by_cases ht : log.term record.metadata.index = .ok record.metadata.term
    · rw [if_pos ht]
      exact Tracks.cut wf window ht rfl (by simp [retained, ht]) rfl
    · rw [if_neg ht]
      refine Tracks.discarded rfl (by simp [retained, ht]) ?_
      rcases window.eq with ⟨none_, -⟩ | ⟨f, from_, -, le, -⟩
      · simp [none_, Unstable.discardThrough, Unstable.markStableThrough]
      · have covered := trims record rfl ht log.lastIndex (by rw [from_])
        simp only [from_, Unstable.discardThrough, Unstable.markStableThrough]
        rw [if_neg (by omega), if_pos covered]
  | full reached entries window none_ =>
    obtain ⟨differs, snapshot, entries', discarded⟩ := installSnapshot_full reached ok
    rw [if_neg differs]
    exact Tracks.discarded snapshot entries' (by rw [discarded, window]; rfl)

/-- An installation that does not trim leaves a window behind the last index. -/
theorem Tracks.untrimmed (h : log.Tracks set) {call : LogCall C} (untrimmed : ¬ InstallTrims log call)
    (set' : Finset Nat) : ¬ WindowExact (call.call log).2 set' := by
  simp only [InstallTrims, not_forall] at untrimmed
  obtain ⟨record, rfl, differs, through, ends, ahead⟩ := untrimmed
  cases h with
  | open_ wf window =>
    rcases window.eq with ⟨none_, -⟩ | ⟨f, from_, -, le, -⟩
    · simp [none_] at ends
    · rw [from_, Option.some.injEq] at ends
      subst ends
      have run : (LogCall.installSnapshot record).call log = _ :=
        LogMethod.installSnapshot_run record log
      rw [run, wf.installSnapshot]
      rintro ⟨shape, -⟩
      have kept : (log.unstable.discardThrough record.metadata.index).through =
          some log.lastIndex := by
        simp only [from_, Unstable.discardThrough, Unstable.markStableThrough, if_neg ahead]
        split <;> rfl
      simp only [LogMethod.after, retained, if_neg differs, RaftLog.lastIndex, List.getLast?_nil,
        Option.elim_none, snapshotIndex, Option.elim_some] at shape
      rcases shape with none_ | ⟨first, g, -, some_, -⟩
      · simp [none_] at kept
      · rw [some_, Option.some.injEq] at kept
        exact ahead kept.ge
  | full reached entries window none_ => simp [window] at ends

/-- What one call does. -/
theorem Tracks.step (h : log.Tracks set) {call : LogCall C} (trims : InstallTrims log call) :
    (call.call log).2.Tracks (call.unconfirmed log set) := by
  rw [LogCall.unconfirmed, call.call_eq]
  cases ok : call.apply log with
  | error f => exact h
  | ok log' =>
    show log'.Tracks (call.returned log set)
    cases call with
    | installSnapshot record => exact h.installed ok trims
    | method op =>
      cases op with
      | append entries => exact h.append ok
      | replaceConflict incoming => exact h.replaced ok
      | mergeFromLeader incoming =>
        cases hm : log.mergeFromLeader incoming with
        | error f => simp [LogCall.apply, LogOp.apply, hm, Except.map] at ok
        | ok result =>
          simp only [LogCall.apply, LogOp.apply, hm, Except.map, Except.ok.injEq] at ok
          subst ok
          exact h.merged hm
      | commitTo index => exact h.committing ok
      | markStable index => exact h.confirmed ok
      | compact record => exact h.compacted ok

/-- What a sequence of calls does. -/
theorem Tracks.runAll (h : log.Tracks set) (calls : List (LogCall C))
    (trims : ∀ earlier call, earlier ++ [call] <+: calls →
      InstallTrims (LogCall.runAll (log, set) earlier).1 call) :
    (LogCall.runAll (log, set) calls).1.Tracks (LogCall.runAll (log, set) calls).2 := by
  induction calls using List.reverseRecOn with
  | nil => exact h
  | append_singleton calls call ih =>
    rw [LogCall.runAll_append]
    have before := ih fun earlier other part => trims earlier other (part.trans (List.prefix_append _ _))
    exact before.step (trims calls call List.prefix_rfl)

theorem Tracks.fromRecovered (r : RecoveredState C) : (RaftLog.fromRecovered r).Tracks ∅ :=
  .open_ r.facts.1 .clean

end RaftLog

/-- The log and the set that a recovered log and a sequence of calls lead to. -/
def LogCall.after (r : RecoveredState C) (calls : List (LogCall C)) : RaftLog C × Finset Nat :=
  LogCall.runAll (RaftLog.fromRecovered r, ∅) calls

/-- The window is exact after every call of a sequence if and only if every installation of it
trims. -/
theorem window_exact (r : RecoveredState C) (calls : List (LogCall C)) :
    (∀ earlier, earlier <+: calls →
      WindowExact (LogCall.after r earlier).1 (LogCall.after r earlier).2) ↔
    ∀ earlier call, earlier ++ [call] <+: calls → InstallTrims (LogCall.after r earlier).1 call := by
  constructor
  · intro exact_
    -- What is exact after a call was tracked before it, so the call has trimmed.
    have trims : ∀ earlier call, earlier ++ [call] <+: calls →
        (LogCall.after r earlier).1.Tracks (LogCall.after r earlier).2 →
        InstallTrims (LogCall.after r earlier).1 call := by
      intro earlier call part tracks
      by_contra untrimmed
      have after := exact_ _ part
      rw [LogCall.after, LogCall.runAll_append] at after
      exact tracks.untrimmed untrimmed _ after
    have tracks : ∀ earlier, earlier <+: calls →
        (LogCall.after r earlier).1.Tracks (LogCall.after r earlier).2 := by
      intro earlier
      induction earlier using List.reverseRecOn with
      | nil => exact fun _ => RaftLog.Tracks.fromRecovered r
      | append_singleton earlier call ih =>
        intro part
        have before := ih ((List.prefix_append _ _).trans part)
        rw [LogCall.after, LogCall.runAll_append]
        exact before.step (trims earlier call part before)
    exact fun earlier call part =>
      trims earlier call part (tracks earlier ((List.prefix_append _ _).trans part))
  · intro trims earlier initial
    exact ((RaftLog.Tracks.fromRecovered r).runAll earlier fun before call part =>
      trims before call (part.trans initial)).exact

/-- Two entries of term 1, then a snapshot of term 2 at the first of them. -/
def divergentInstall : List (LogCall Nat) :=
  [.method (.append [noopAt 1 1 Nat.zero_lt_one Nat.zero_lt_one,
      noopAt 2 1 Nat.two_pos Nat.zero_lt_one]),
    .installSnapshot (snapshotAt 1 2 Nat.zero_lt_one Nat.two_pos)]

/-- The suffix is gone and the window still ends at 2. -/
theorem window_outlives_suffix : ¬ ∀ (r : RecoveredState Nat) (calls : List (LogCall Nat)),
    WindowExact (LogCall.after r calls).1 (LogCall.after r calls).2 := by
  intro h
  have window : (LogCall.after .initial divergentInstall).1.unstable = ⟨some 2, some 2⟩ ∧
      (LogCall.after .initial divergentInstall).1.lastIndex = 1 := by decide
  rcases (h .initial divergentInstall).shape with none_ | ⟨first, f, -, from_, -⟩
  · rw [window.1] at none_
    simp at none_
  · rw [window.1, window.2] at from_
    simp at from_

end Ruft
