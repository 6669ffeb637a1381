import Ruft.LogBounds
import Ruft.Probing

set_option autoImplicit false

/-!
# Recovery

What `from_parts` accepts, the runtime check accepts of the core that is built from it, and the
first apply hands the host the recovered entries that are committed.

## Main definitions

- `committedSuffix` — the recovered entries behind the snapshot that are committed
- `Recovers` — what holds of a core that was built from accepted parts

## Main results

- `recovery_valid` — it holds for every format, hard state, snapshot and suffix
-/

namespace Ruft

variable {C : Type}

theorem Contiguous.filter {n m : Nat} {es : List (Entry C)} (h : Contiguous n es) :
    es.filter (fun e => n ≤ e.index && e.index ≤ m) = es.take (m + 1 - n) := by
  induction es generalizing n with
  | nil => simp
  | cons e es ih =>
    obtain ⟨rfl, rest⟩ := h
    have later : ∀ f ∈ es, e.index + 1 ≤ f.index := fun f among => by
      obtain ⟨k, found⟩ := List.mem_iff_getElem?.mp among
      have := rest.index found
      omega
    have same : es.filter (fun f => e.index ≤ f.index && f.index ≤ m) =
        es.filter (fun f => e.index + 1 ≤ f.index && f.index ≤ m) := by
      refine List.filter_congr fun f among => ?_
      have := later f among
      rw [decide_eq_true (show e.index ≤ f.index by omega), decide_eq_true this]
    by_cases inside : e.index ≤ m
    · rw [List.filter_cons_of_pos (by simpa using inside), same, ih rest,
        show m + 1 - e.index = m + 1 - (e.index + 1) + 1 by omega, List.take_succ_cons]
    · rw [List.filter_cons_of_neg (by simpa using inside), same, ih rest,
        show m + 1 - e.index = 0 by omega, show m + 1 - (e.index + 1) = 0 by omega]
      rfl

/-- The recovered entries behind the snapshot that are committed. -/
def committedSuffix (hardState : HardState) (snapshot : Option SnapshotRecord)
    (entries : List (Entry C)) : List (Entry C) :=
  entries.filter fun e =>
    snapshot.elim 0 (·.metadata.index) + 1 ≤ e.index && e.index ≤ hardState.commitIndex

/-- What holds of a core that was built from accepted parts. -/
structure Recovers (hardState : HardState) (snapshot : Option SnapshotRecord)
    (entries : List (Entry C)) (c : RaftCore C) : Prop where
  valid : c.validateInvariants = .ok ()
  terms : ∀ index term, c.log.term index = .ok term → term ≤ hardState.currentTerm
  applies : committedSuffix hardState snapshot entries ≠ [] → ∀ effects,
    emitApplyIfNeeded ⟨c, effects⟩ = (.ok (), ⟨{ c with
      nextEffectSequence := 1
      pendingApply := some ⟨⟨c.config.generation, 1⟩, hardState.commitIndex⟩ },
      effects ++ [.apply ⟨c.config.generation, 1⟩ (committedSuffix hardState snapshot entries)]⟩)
  idles : committedSuffix hardState snapshot entries = [] → ∀ effects,
    emitApplyIfNeeded ⟨c, effects⟩ = (.ok (), ⟨c, effects⟩)

theorem RecoveredState.fromParts_eq_ok {format : Nat} {hardState : HardState}
    {snapshot : Option SnapshotRecord} {entries : List (Entry C)} {recovered : RecoveredState C}
    (h : fromParts format hardState snapshot entries = .ok recovered) :
    recovered.hardState = hardState ∧ recovered.snapshot = snapshot ∧
      recovered.entries = entries := by
  unfold fromParts at h
  split at h
  · cases h
    exact ⟨rfl, rfl, rfl⟩
  · simp at h

/-- The committed entries are the first of the suffix. -/
theorem RecoveredState.committedSuffix_eq (r : RecoveredState C) :
    committedSuffix r.hardState r.snapshot r.entries =
      r.entries.take (r.hardState.commitIndex - r.snapshot.elim 0 (·.metadata.index)) := by
  have contiguous : Contiguous (r.snapshot.elim 0 (·.metadata.index) + 1) r.entries :=
    r.facts.1.contiguous
  rw [committedSuffix, contiguous.filter, Nat.add_sub_add_right]

theorem RecoveredState.recovers (config : Config) (r : RecoveredState C) :
    Recovers r.hardState r.snapshot r.entries (RaftCore.new config r) := by
  obtain ⟨wf, term, above, held⟩ := r.facts
  have last : (RaftLog.fromRecovered r).lastIndex =
    r.snapshot.elim 0 (·.metadata.index) + r.entries.length := wf.lastIndex
  have above : r.snapshot.elim 0 (·.metadata.index) ≤ r.hardState.commitIndex := above
  refine ⟨(RaftCore.new_wf config r).validate_ok (RaftCore.new_bounded config r), ?_, ?_, ?_⟩
  · intro index t at_
    exact (wf.term_mono (wf.term_isOk.mp ⟨t, at_⟩).2 at_ wf.term_lastIndex).trans term
  · intro due effects
    rw [r.committedSuffix_eq] at due ⊢
    have ahead : r.snapshot.elim 0 (·.metadata.index) < r.hardState.commitIndex := by
      by_contra ahead
      rw [Nat.sub_eq_zero_of_le (Nat.not_lt.mp ahead), List.take_zero] at due
      exact due rfl
    have range : (RaftLog.fromRecovered r).range (r.snapshot.elim 0 (·.metadata.index) + 1)
        r.hardState.commitIndex = .ok (r.entries.take
          (r.hardState.commitIndex - r.snapshot.elim 0 (·.metadata.index))) := by
      have range := wf.range (Nat.lt_succ_self _) ahead held
      rw [Nat.sub_self, List.drop_zero, Nat.succ_sub_succ] at range
      exact range
    show (if _ then _ else _ : StepM C Unit) ⟨RaftCore.new config r, effects⟩ = _
    rw [if_neg (by simpa [RaftCore.new] using ahead)]
    show (StepM.liftNext (r.snapshot.elim 0 (·.metadata.index)) >>= _ : StepM C Unit) _ = _
    rw [liftNext_ok (by have := wf.lastIndex_lt; omega)]
    show (StepM.liftLog ((RaftLog.fromRecovered r).range (r.snapshot.elim 0 (·.metadata.index) + 1)
      r.hardState.commitIndex) >>= _ : StepM C Unit) _ = _
    rw [range]
    rfl
  · intro none_ effects
    have settled : r.hardState.commitIndex ≤ r.snapshot.elim 0 (·.metadata.index) := by
      rw [r.committedSuffix_eq, List.take_eq_nil_iff] at none_
      rcases none_ with none_ | none_
      · omega
      · rw [none_, List.length_nil] at last
        exact held.trans last.le
    show (if _ then _ else _ : StepM C Unit) ⟨RaftCore.new config r, effects⟩ = _
    rw [if_pos (.inr (.inr settled))]
    rfl

/-- Whatever parts are accepted, the core that is built from them passes the runtime check, no
term of its log is ahead of the current one, and its first apply is of the committed entries. -/
theorem recovery_valid (config : Config) {format : Nat} {hardState : HardState}
    {snapshot : Option SnapshotRecord} {entries : List (Entry C)} {recovered : RecoveredState C}
    (accepted : RecoveredState.fromParts format hardState snapshot entries = .ok recovered) :
    Recovers hardState snapshot entries (RaftCore.new config recovered) := by
  obtain ⟨rfl, rfl, rfl⟩ := RecoveredState.fromParts_eq_ok accepted
  exact recovered.recovers config

/-- A snapshot at index 1, one committed entry behind it and one that is not. -/
theorem recovery_valid_suffix : ∃ (snapshot : SnapshotRecord) (e f : Entry Nat)
    (recovered : RecoveredState Nat), e ≠ f ∧
    RecoveredState.fromParts 1 ⟨1, none, 2⟩ (some snapshot) [e, f] = .ok recovered ∧
    Recovers ⟨1, none, 2⟩ (some snapshot) [e, f] (RaftCore.new (trioConfig 1 (by decide)) recovered) := by
  let snapshot : SnapshotRecord := ⟨emptyBody 1 1 1 (by decide) (by decide), ⟨[]⟩⟩
  let e : Entry Nat := ⟨2, 1, 0, .leaderNoop, by decide, by decide⟩
  let f : Entry Nat := ⟨3, 1, 0, .leaderNoop, by decide, by decide⟩
  have accepted : RecoveredState.fromParts 1 ⟨1, none, 2⟩ (some snapshot) [e, f] =
      .ok ⟨⟨1, none, 2⟩, some snapshot, [e, f], 1, rfl⟩ := rfl
  exact ⟨snapshot, e, f, _, by decide, accepted, recovery_valid (trioConfig 1 (by decide)) accepted⟩

end Ruft
