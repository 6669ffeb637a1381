import Ruft.Lib.LongestPrefix
import Ruft.Exec

set_option autoImplicit false

/-!
# Replication batches

A leader sends a follower the longest run of its log from the follower's next index on that
stays within the two limits of a request; one entry goes out whatever its size.

## Main definitions

- `Config.Admits` — a run of entries stays within the limits of a request
- `Batched` — the batch of an index is the longest such run

## Main results

- `replication_batches` — every batch of a running core is one, and a later one ends no earlier
-/

namespace Ruft

open LongestPrefix

variable {C : Type} {config : Config} {es batch : List (Entry C)}

/-- The encoded length of a run, which saturates. -/
def encodedLength (batch : List (Entry C)) : Nat := min (batch.map (·.encodedLen)).sum u64Max

/-- A run that may go out in one request. -/
structure Config.Admits (config : Config) (batch : List (Entry C)) : Prop where
  ne : batch ≠ []
  entries : batch.length ≤ config.maxEntriesPerRpc
  bytes : batch.length = 1 ∨ encodedLength batch ≤ config.maxBytesPerRpc

/-- A run that may follow `taken` entries of so many bytes. -/
def Config.AdmitsMore (config : Config) (taken bytes : Nat) (batch : List (Entry C)) : Prop :=
  batch = [] ∨ taken + batch.length ≤ config.maxEntriesPerRpc ∧
    min (bytes + (batch.map (·.encodedLen)).sum) u64Max ≤ config.maxBytesPerRpc

namespace Config

theorem AdmitsMore.nil {taken bytes : Nat} : config.AdmitsMore taken bytes ([] : List (Entry C)) :=
  .inl rfl

theorem AdmitsMore.cons {taken bytes : Nat} {entry : Entry C}
    (room : taken + 1 ≤ config.maxEntriesPerRpc)
    (fits : min (bytes + entry.encodedLen) u64Max ≤ config.maxBytesPerRpc) :
    config.AdmitsMore taken bytes (entry :: batch) ↔
      config.AdmitsMore (taken + 1) (min (bytes + entry.encodedLen) u64Max) batch := by
  cases batch with
  | nil => simp [AdmitsMore, room, fits]
  | cons next rest =>
    simp only [AdmitsMore, reduceCtorEq, List.length_cons, List.map_cons, List.sum_cons, false_or]
    omega

/-- Nothing fits behind an entry that does not. -/
theorem AdmitsMore.full {taken bytes : Nat} {entry : Entry C}
    (full : config.maxEntriesPerRpc ≤ taken ∨
      config.maxBytesPerRpc < min (bytes + entry.encodedLen) u64Max) :
    ¬ config.AdmitsMore taken bytes (entry :: batch) := by
  rintro (empty | ⟨entries, bytes⟩)
  · simp at empty
  · rw [List.length_cons] at entries
    rw [List.map_cons, List.sum_cons] at bytes
    omega

theorem Admits.cons {entry : Entry C} :
    config.Admits (entry :: batch) ↔
      config.AdmitsMore 1 (min (0 + entry.encodedLen) u64Max) batch := by
  have pos := config.maxEntriesPerRpc_pos
  constructor
  · rintro ⟨-, entries, bytes⟩
    cases batch with
    | nil => exact .nil
    | cons next rest =>
      simp only [encodedLength, List.length_cons, List.map_cons, List.sum_cons] at entries bytes
      refine .inr ⟨by rw [List.length_cons]; omega, ?_⟩
      rw [List.map_cons, List.sum_cons]
      omega
  · rintro (rfl | ⟨entries, bytes⟩)
    · exact ⟨List.cons_ne_nil _ _, pos, .inl rfl⟩
    · refine ⟨List.cons_ne_nil _ _, by rw [List.length_cons]; omega, .inr ?_⟩
      rw [encodedLength, List.map_cons, List.sum_cons]
      omega

/-- A run still fits without its first entry. -/
theorem Admits.tail {entry : Entry C} (ne : es ≠ []) (h : config.Admits (entry :: es)) :
    config.Admits es := by
  have entries := h.entries
  rw [List.length_cons] at entries
  refine ⟨ne, by omega, ?_⟩
  rcases h.bytes with single | bytes
  · exact absurd (List.length_eq_zero_iff.mp (by simpa using single)) ne
  · simp only [encodedLength, List.map_cons, List.sum_cons] at bytes ⊢
    exact .inr (by omega)

end Config

/-- Behind a first entry the loop takes the longest run that may follow. -/
theorem takeBatch_longest {taken bytes : Nat} (started : taken ≠ 0)
    (room : taken ≤ config.maxEntriesPerRpc) :
    Longest (config.AdmitsMore taken bytes) es (takeBatch config taken bytes es) := by
  induction es generalizing taken bytes with
  | nil => exact .nil .nil fun a rest initial => by simp at initial
  | cons entry es ih =>
    simp only [takeBatch]
    split
    · next stops =>
      refine .nil .nil fun a rest initial fits => ?_
      obtain ⟨rfl, -⟩ := List.cons_prefix_cons.mp initial
      exact Config.AdmitsMore.full (stops.2.imp Eq.ge id) fits
    · next goes =>
      push Not at goes
      obtain ⟨count, fits⟩ := goes started
      have room : taken + 1 ≤ config.maxEntriesPerRpc := by omega
      split
      · next last =>
        refine .cons (.nil .nil fun a rest _ => ?_) fun _ => Config.AdmitsMore.cons room fits
        exact Config.AdmitsMore.full (.inl last.ge)
      · exact (ih (Nat.succ_ne_zero _) room).cons fun _ => Config.AdmitsMore.cons room fits

/-- The batch of a log is the longest run of it that may go out. -/
theorem batch_longest (config : Config) (ne : es ≠ []) : Longest config.Admits es (takeBatch config 0 0 es) := by
  have pos := config.maxEntriesPerRpc_pos
  cases es with
  | nil => exact absurd rfl ne
  | cons entry es =>
    simp only [takeBatch, ne_eq, not_true_eq_false, false_and, if_false, Nat.zero_add]
    split
    · next last =>
      refine .cons (.nil .nil fun a rest _ => ?_) fun _ => Config.Admits.cons
      exact Config.AdmitsMore.full (.inl last.ge)
    · rw [← Nat.zero_add entry.encodedLen]
      exact (takeBatch_longest one_ne_zero pos).cons fun _ => Config.Admits.cons

/-- The batch of an index: the longest run of the log from there on that may go out. -/
structure Batched (c : RaftCore C) (next : Nat) (batch : List (Entry C)) : Prop where
  run : ∀ effects, replicationBatch next ⟨c, effects⟩ = (.ok batch, ⟨c, effects⟩)
  contiguous : Contiguous next batch
  longest : ∃ rest, c.log.range next c.log.lastIndex = .ok rest ∧ Longest c.config.Admits rest batch

theorem RaftCore.WF.batched {c : RaftCore C} (h : c.WF) {next : Nat}
    (above : c.log.snapshotIndex < next) (held : next ≤ c.log.lastIndex) :
    Batched c next (takeBatch c.config 0 0 (c.log.entries.drop (next - (c.log.snapshotIndex + 1)))) := by
  have last := h.log.lastIndex
  have range := h.log.range above held le_rfl
  rw [List.take_of_length_le (by rw [List.length_drop]; omega)] at range
  have ne : c.log.entries.drop (next - (c.log.snapshotIndex + 1)) ≠ [] :=
    List.ne_nil_of_length_pos (by rw [List.length_drop]; omega)
  have longest := batch_longest c.config ne
  refine ⟨fun effects => ?_, ?_, _, range, longest⟩
  · show (if c.log.lastIndex < next then _ else _ : StepM C _) ⟨c, effects⟩ = _
    rw [if_neg (Nat.not_lt.mpr held), range]
    rfl
  · obtain ⟨tail, split⟩ := longest.initial
    have contiguous := (h.log.range_contiguous range).1
    rw [← split] at contiguous
    exact (Contiguous.append.mp contiguous).1

/-- A batch from a later index ends no earlier. -/
theorem batch_end_mono (config : Config) {k : Nat} (later : k < es.length) :
    (takeBatch config 0 0 es).length ≤ k + (takeBatch config 0 0 (es.drop k)).length :=
  (batch_longest config (List.ne_nil_of_length_pos (Nat.zero_lt_of_lt later))).end_mono
    (fun _ _ ne fits => fits.tail ne)
    (batch_longest config (List.ne_nil_of_length_pos (by rw [List.length_drop]; omega)))

/-- Every batch of a running core is the longest run that may go out, and a batch from a later
index ends no earlier. -/
theorem replication_batches [Sha256] {config : Config} {recovered : RecoveredState C}
    {history : List (Record C)} {c : RaftCore C}
    (run : Trace (RaftCore.new config recovered) history c) (running : c.stopped = false)
    {first next : Nat} (isFirst : c.log.firstIndex = .ok first) (above : first ≤ next)
    (held : next ≤ c.log.lastIndex) :
    ∃ batch, Batched c next batch ∧ ∀ next', next ≤ next' → next' ≤ c.log.lastIndex →
      ∃ batch', Batched c next' batch' ∧ next + batch.length ≤ next' + batch'.length := by
  have h : c.WF := run.wf.resolve_left (by simp [running])
  obtain rfl := Except.ok.inj (h.log.firstIndex.symm.trans isFirst)
  refine ⟨_, h.batched above held, fun next' later held' => ⟨_, h.batched (by omega) held', ?_⟩⟩
  have last := h.log.lastIndex
  have inside : next' - next < (c.log.entries.drop (next - (c.log.snapshotIndex + 1))).length := by
    rw [List.length_drop]
    omega
  have mono := batch_end_mono c.config inside
  rw [List.drop_drop, show next - (c.log.snapshotIndex + 1) + (next' - next) =
    next' - (c.log.snapshotIndex + 1) by omega] at mono
  omega

/-- Node 1 wins the first term and appends two entries. -/
theorem replication_batches_two : ∃ (history : List (Record Nat)) (c : RaftCore Nat),
    @Trace Nat sha256Empty (trio 1) history c ∧ c.role = .leader ∧
    ∃ batch, Batched c 1 batch ∧ ∀ next', 1 ≤ next' → next' ≤ c.log.lastIndex →
      ∃ batch', Batched c next' batch' ∧ 1 + batch.length ≤ next' + batch'.length := by
  let _ : Sha256 := sha256Empty
  obtain ⟨w, run, checked⟩ := World.exec_any trio Script.commitTwo
    (fun w => (w.core trio 1).role = .leader && (w.core trio 1).stopped = false &&
      ((w.core trio 1).log.firstIndex.toOption = some 1 && 1 ≤ (w.core trio 1).log.lastIndex))
    (by decide +kernel)
  simp only [Bool.and_eq_true, decide_eq_true_eq] at checked
  obtain ⟨⟨leads, running⟩, first, held⟩ := checked
  have isFirst : (w.core trio 1).log.firstIndex = .ok 1 := by
    cases is : (w.core trio 1).log.firstIndex with
    | ok n => rw [is] at first; exact congrArg _ (Option.some.inj first)
    | error e => rw [is] at first; simp [Except.toOption] at first
  have started : Trace (RaftCore.new (trioConfig 1 (by decide)) .initial) (localHistory w.history 1)
      (w.core trio 1) := run.trace 1
  exact ⟨_, _, started, leads, replication_batches started running isFirst le_rfl held⟩

end Ruft
