import Ruft.Progress
import Ruft.LogRuns

set_option autoImplicit false

/-!
# Probing for the point of agreement

A leader probes a follower at a position, the follower checks the term before it and answers
a rejection with a hint (`validate_prefix`), and the leader picks its next position from the
hint (`rejected_next`). The jump over a whole term neither passes the last index on which the
logs agree nor stays where it is.

## Main definitions

- `SharedHistory` — two logs that come from one append-only sequence per term
- `probeRound` — one probe and its answer
- `ProbeEnds` — where repeated probing ends

## Main results

- `probing_converges` — every probe above the agreement is rejected towards it, and repeated
  probing ends there
-/

namespace Ruft

variable {C : Type} {log L F : RaftLog C}

/-! ## The indexes of a term -/

namespace RaftLog

theorem WF.le_of_mem_append {before after : List (Entry C)} {e f : Entry C} (h : log.WF)
    (split : log.entries = before ++ e :: after) (mem : f ∈ before ++ [e]) :
    f.index ≤ e.index := by
  have contiguous := h.contiguous
  rw [split] at contiguous
  obtain ⟨first, rest⟩ := Contiguous.append.mp contiguous
  rcases List.mem_append.mp mem with mem | mem
  · obtain ⟨k, hk⟩ := List.mem_iff_getElem?.mp mem
    have := (List.getElem?_eq_some_iff.mp hk).1
    have := first.index hk
    have := rest.1
    omega
  · rw [List.mem_singleton.mp mem]

theorem mem_of_get? {i : Nat} {e : Entry C} (h : log.get? i = some e) : e ∈ log.entries := by
  unfold get? at h
  split at h
  · exact List.mem_of_getElem? h
  · simp at h

/-- What `last_index_of_term` finds. -/
theorem WF.lastIndexOfTerm_eq_some (h : log.WF) {t q : Nat}
    (found : log.lastIndexOfTerm t = some q) :
    log.term q = .ok t ∧ ∀ j, log.term j = .ok t → j ≤ q := by
  unfold RaftLog.lastIndexOfTerm at found
  cases hf : log.entries.reverse.find? (·.term == t) with
  | some e =>
    simp only [hf, Option.map_some, Option.some_or, Option.some.injEq] at found
    subst found
    -- the search runs from the end, so no later entry has the term
    obtain ⟨is, after, before, split, none⟩ := List.find?_eq_some_iff_append.mp hf
    have term : e.term = t := by simpa using is
    have order : log.entries = before.reverse ++ e :: after.reverse := by
      have := congrArg List.reverse split
      simpa using this
    have mem : e ∈ log.entries := by simp [order]
    refine ⟨term ▸ h.term_entry (h.get?_of_mem mem), fun j hj => ?_⟩
    have above : log.snapshotIndex < e.index := by
      have := h.get?_isSome.mp (Option.isSome_iff_exists.mpr ⟨e, h.get?_of_mem mem⟩)
      exact this.1
    rcases h.term_eq_ok hj with ⟨rfl, -⟩ | ⟨f, hf, same⟩
    · exact above.le
    · have held := mem_of_get? hf
      rw [← h.get?_index hf]
      rw [order, List.append_cons, List.mem_append] at held
      rcases held with held | held
      · exact h.le_of_mem_append order held
      · have := none f (List.mem_reverse.mp held)
        simp [same] at this
  | none =>
    simp only [hf, Option.map_none, Option.none_or] at found
    -- no entry has the term, which leaves the snapshot boundary
    cases hs : log.snapshot with
    | none => simp [hs] at found
    | some record =>
      have boundary := h.term_snapshot
      simp only [snapshotIndex, snapshotTerm, hs, Option.elim_some] at boundary
      simp only [hs, Option.bind_some] at found
      split at found
      · next same =>
        rw [Option.some.injEq] at found
        subst found
        refine ⟨same ▸ boundary, fun j hj => ?_⟩
        rcases h.term_eq_ok hj with ⟨rfl, -⟩ | ⟨f, hget, same'⟩
        · simp [snapshotIndex, hs]
        · have := List.find?_eq_none.mp hf f (List.mem_reverse.mpr (mem_of_get? hget))
          simp [same'] at this
      · simp at found

/-- What it means that `last_index_of_term` finds nothing. -/
theorem WF.lastIndexOfTerm_eq_none (h : log.WF) {t : Nat} (none : log.lastIndexOfTerm t = none)
    {j : Nat} (pos : 0 < j) : log.term j ≠ .ok t := by
  intro hj
  unfold RaftLog.lastIndexOfTerm at none
  rw [Option.or_eq_none_iff, Option.map_eq_none_iff] at none
  obtain ⟨entries, boundary⟩ := none
  rcases h.term_eq_ok hj with ⟨rfl, same⟩ | ⟨f, hget, same⟩
  · cases hs : log.snapshot with
    | none => simp [snapshotIndex, hs] at pos
    | some record => simp [hs, snapshotTerm] at boundary same; exact boundary same.symm
  · have := List.find?_eq_none.mp entries f (List.mem_reverse.mpr (mem_of_get? hget))
    simp [same] at this

/-- The first entry of a term lies at or before every other one. -/
theorem WF.find_term (h : log.WF) {t p : Nat} {e : Entry C} (held : log.get? p = some e)
    (term : e.term = t) : ∃ f, log.entries.find? (·.term == t) = some f ∧
      log.term f.index = .ok t ∧ f.index ≤ p := by
  have mem := mem_of_get? held
  obtain ⟨f, hf⟩ : ∃ f, log.entries.find? (·.term == t) = some f :=
    Option.isSome_iff_exists.mp (List.find?_isSome.mpr ⟨e, mem, by simpa using term⟩)
  obtain ⟨is, before, after, split, none⟩ := List.find?_eq_some_iff_append.mp hf
  have same : f.term = t := by simpa using is
  refine ⟨f, hf, same ▸ h.term_entry (h.get?_of_mem (by simp [split])), ?_⟩
  rw [← h.get?_index held]
  have contiguous := h.contiguous
  rw [split] at contiguous mem
  rcases List.mem_append.mp mem with earlier | later
  · have := none e earlier
    simp [term] at this
  · obtain ⟨k, hk⟩ := List.mem_iff_getElem?.mp later
    have rest := (Contiguous.append.mp contiguous).2
    have := rest.index hk
    have := rest.1
    omega

/-- What `first_index_of_term` finds for a term that the log reports. -/
theorem WF.firstIndexOfTerm (h : log.WF) {t p : Nat} (pos : 0 < p) (reported : log.term p = .ok t) :
    ∃ f, log.firstIndexOfTerm t = some f ∧ log.term f = .ok t ∧ 0 < f ∧ f ≤ p := by
  have le : log.snapshotIndex ≤ p := (h.term_isOk.mp ⟨t, reported⟩).1
  have boundary := h.term_snapshot
  have inSuffix : ∀ e, log.get? p = some e → e.term = t → ∃ f,
      (log.entries.find? (·.term == t)).map (·.index) = some f ∧ log.term f = .ok t ∧
        0 < f ∧ f ≤ p := by
    intro e held term
    obtain ⟨f, found, reports, before⟩ := h.find_term held term
    exact ⟨f.index, by rw [found]; rfl, reports, f.index_pos, before⟩
  unfold RaftLog.firstIndexOfTerm
  cases hs : log.snapshot with
  | none =>
    rcases h.term_eq_ok reported with ⟨rfl, -⟩ | ⟨e, held, term⟩
    · simp [snapshotIndex, hs] at pos
    · exact inSuffix e held term
  | some record =>
    simp only [snapshotIndex, snapshotTerm, hs, Option.elim_some] at boundary le
    by_cases same : record.metadata.term = t
    · simp only [if_pos same]
      exact ⟨_, rfl, same ▸ boundary, record.metadata.index_pos, le⟩
    · simp only [if_neg same]
      rcases h.term_eq_ok reported with ⟨-, term⟩ | ⟨e, held, term⟩
      · simp only [snapshotTerm, hs, Option.elim_some] at term
        exact absurd term.symm same
      · exact inSuffix e held term

/-- Terms do not decrease along a log. -/
theorem WF.term_mono (h : log.WF) {i j t u : Nat} (le : i ≤ j) (ti : log.term i = .ok t)
    (tj : log.term j = .ok u) : t ≤ u := by
  rcases h.term_eq_ok tj with ⟨rfl, rfl⟩ | ⟨f, hf, rfl⟩
  · rcases h.term_eq_ok ti with ⟨-, rfl⟩ | ⟨e, he, -⟩
    · exact le_rfl
    · have := (h.get?_isSome.mp (Option.isSome_iff_exists.mpr ⟨e, he⟩)).1
      omega
  · rcases h.term_eq_ok ti with ⟨-, rfl⟩ | ⟨e, he, rfl⟩
    · exact h.terms.le (mem_of_get? hf)
    · have above := (h.get?_isSome.mp (Option.isSome_iff_exists.mpr ⟨e, he⟩)).1
      rw [get?, if_pos above] at he
      rw [get?, if_pos (by omega)] at hf
      obtain ⟨inside, rfl⟩ := List.getElem?_eq_some_iff.mp he
      obtain ⟨inside', rfl⟩ := List.getElem?_eq_some_iff.mp hf
      rcases Nat.eq_or_lt_of_le le with rfl | lt
      · exact le_rfl
      · exact List.pairwise_iff_getElem.mp h.terms.pairwise _ _ inside inside' (by omega)

/-- Index zero is only reported by a log without a snapshot, with term zero. -/
theorem term_zero {t : Nat} (h : log.term 0 = .ok t) : t = 0 := by
  unfold RaftLog.term at h
  cases hs : log.snapshot with
  | none => simpa [hs] using h.symm
  | some record => simp [hs, record.metadata.index_pos] at h

end RaftLog

/-! ## One probe -/

/-- Both logs report one term at the index. -/
def SameTerm (L F : RaftLog C) (i : Nat) : Prop := ∃ t, L.term i = .ok t ∧ F.term i = .ok t

/-- The two logs report no different terms at or below the index. -/
def AgreeThrough (L F : RaftLog C) (i : Nat) : Prop :=
  ∀ k ≤ i, ∀ t u, L.term k = .ok t → F.term k = .ok u → t = u

/-- The logs come from one append-only sequence per term: where one holds a term at an index
that the other has reached in that term, they agree up to there. -/
structure SharedHistory (L F : RaftLog C) : Prop where
  leading : ∀ t i j, F.term i = .ok t → L.term j = .ok t → i ≤ j → AgreeThrough L F i
  following : ∀ t i j, L.term i = .ok t → F.term j = .ok t → i ≤ j → AgreeThrough L F i

/-- The follower's snapshot boundary is an index of agreement or lies below the leader's. -/
def BoundaryKnown (L F : RaftLog C) : Prop :=
  ∀ record, F.snapshot = some record →
    SameTerm L F record.metadata.index ∨ record.metadata.index < L.snapshotIndex

/-- One probe: the leader sends the term before its position, and either the follower accepts
it (`none`) or the leader moves to the position that the rejection suggests. -/
def probeRound (L F : RaftLog C) (n : Nat) : Outcome LogError (Option Nat) := do
  let prevLogTerm ← L.term (n - 1)
  match ← validatePrefix F (n - 1) prevLogTerm with
  | .match_ => .ok none
  | .reject hint => do
    let next ← rejectedNext L hint
    .ok (some next)

/-- A rejected probe moves back, but not past an index of agreement. -/
def MovesBack (L F : RaftLog C) (p : Nat) : Prop :=
  ∃ t hint next, L.term p = .ok t ∧ validatePrefix F p t = .ok (.reject hint) ∧
    rejectedNext L hint = .ok next ∧ next ≤ p ∧ ∀ a, SameTerm L F a → a < p → a + 1 ≤ next

/-- The follower holds another term at the probed index. -/
theorem movesBack_of_conflict (wl : L.WF) (wf : F.WF) (shared : SharedHistory L F) {p t u : Nat}
    (tl : L.term p = .ok t) (tf : F.term p = .ok u) (differs : t ≠ u) : MovesBack L F p := by
  have pos : 0 < p := by
    by_contra zero
    obtain rfl : p = 0 := by omega
    rw [RaftLog.term_zero tl, RaftLog.term_zero tf] at differs
    exact differs rfl
  obtain ⟨f, found, tff, fpos, fle⟩ := wf.firstIndexOfTerm pos tf
  have answer : validatePrefix F p t = .ok (.reject ⟨f, some u⟩) := by
    simp only [validatePrefix, tf, if_neg (Ne.symm differs), found, Option.getD_some]
  cases hq : L.lastIndexOfTerm u with
  | some q =>
    obtain ⟨tq, last⟩ := wl.lastIndexOfTerm_eq_some hq
    -- a leader that had reached the probed index in the follower's term would agree there
    have before : q < p := by
      by_contra reached
      exact differs (shared.leading u p q tf tq (by omega) p le_rfl t u tl tf)
    have bound := (wl.term_isOk.mp ⟨u, tq⟩).2
    have jump : rejectedNext L ⟨f, some u⟩ = .ok (q + 1) := by
      simp only [rejectedNext, Option.bind_some, hq]
      exact checkedNextOr_eq_ok _ (bound.trans_lt wl.lastIndex_lt)
    refine ⟨t, _, _, tl, answer, jump, before, fun a same lt => ?_⟩
    obtain ⟨v, va, fa⟩ := same
    by_contra passed
    have low := wl.term_mono (show q ≤ a by omega) tq va
    have high := wf.term_mono lt.le fa tf
    obtain rfl : v = u := by omega
    have := last a va
    omega
  | none =>
    have stay : rejectedNext L ⟨f, some u⟩ = .ok f := by
      simp only [rejectedNext, Option.bind_some, hq]
    refine ⟨t, _, _, tl, answer, stay, fle, fun a same lt => ?_⟩
    obtain ⟨v, va, fa⟩ := same
    by_contra passed
    have low := wf.term_mono (show f ≤ a by omega) tff fa
    have high := wf.term_mono lt.le fa tf
    obtain rfl : v = u := by omega
    exact wl.lastIndexOfTerm_eq_none hq (by omega) va

/-- A probe above every index of agreement is rejected. -/
theorem movesBack_above (wl : L.WF) (wf : F.WF) (shared : SharedHistory L F)
    (boundary : BoundaryKnown L F) {p t : Nat} (tl : L.term p = .ok t)
    (above : ∀ a, SameTerm L F a → a < p) : MovesBack L F p := by
  rcases wf.index_cases p with compacted | rfl | ⟨e, he⟩ | past
  · -- the boundary lies above the probe, so it is neither agreed on nor below the leader's
    exfalso
    cases hs : F.snapshot with
    | none => simp [RaftLog.snapshotIndex, hs] at compacted
    | some record =>
      simp only [RaftLog.snapshotIndex, hs, Option.elim_some] at compacted
      have available := (wl.term_isOk.mp ⟨t, tl⟩).1
      rcases boundary record hs with same | below
      · have := above _ same
        omega
      · omega
  · refine movesBack_of_conflict wl wf shared tl wf.term_snapshot fun same => ?_
    exact lt_irrefl _ (above _ ⟨t, tl, same ▸ wf.term_snapshot⟩)
  · refine movesBack_of_conflict wl wf shared tl (wf.term_entry he) fun same => ?_
    exact lt_irrefl _ (above _ ⟨t, tl, same ▸ wf.term_entry he⟩)
  · have answer : validatePrefix F p t = .ok (.reject ⟨F.lastIndex + 1, none⟩) := by
      simp only [validatePrefix, wf.term_gt past, Outcome.raise,
        checkedNextOr_eq_ok _ wf.lastIndex_lt, bind, Except.bind]
    refine ⟨t, _, F.lastIndex + 1, tl, answer, rfl, past, fun a same _ => ?_⟩
    obtain ⟨v, -, fa⟩ := same
    have := (wf.term_isOk.mp ⟨v, fa⟩).2
    omega

/-! ## Repeated probing -/

/-- Where repeated probing from a position ends: at a match, or below the leader's first
index, where there is no entry left to send. -/
inductive ProbeEnds (L F : RaftLog C) : Nat → Nat → Prop
  | matched {n : Nat} (available : L.snapshotIndex < n) (match_ : probeRound L F n = .ok none) :
      ProbeEnds L F n n
  | compacted {n : Nat} (below : n ≤ L.snapshotIndex) : ProbeEnds L F n n
  | again {n next m : Nat} (available : L.snapshotIndex < n)
      (rejected : probeRound L F n = .ok (some next)) (rest : ProbeEnds L F next m) :
      ProbeEnds L F n m

theorem MovesBack.round {p : Nat} (h : MovesBack L F p) : ∃ next,
    probeRound L F (p + 1) = .ok (some next) ∧ next ≤ p ∧
      ∀ a, SameTerm L F a → a < p → a + 1 ≤ next := by
  obtain ⟨t, hint, next, tl, answer, jump, back, kept⟩ := h
  refine ⟨next, ?_, back, kept⟩
  simp only [probeRound, Nat.add_sub_cancel, tl, answer, jump, bind, Except.bind]

theorem SameTerm.accepted {a : Nat} (h : SameTerm L F a) :
    ∃ t, L.term a = .ok t ∧ validatePrefix F a t = .ok .match_ := by
  obtain ⟨t, tl, tf⟩ := h
  exact ⟨t, tl, by simp only [validatePrefix, tf, if_true]⟩

theorem SameTerm.round {a : Nat} (h : SameTerm L F a) :
    probeRound L F (a + 1) = .ok none := by
  obtain ⟨t, tl, accepted⟩ := h.accepted
  simp only [probeRound, Nat.add_sub_cancel, tl, accepted, bind, Except.bind]

/-- From a position above it, probing ends at the greatest index of agreement. -/
theorem ProbeEnds.at_agreement (wl : L.WF) (wf : F.WF) (shared : SharedHistory L F)
    (boundary : BoundaryKnown L F) {a : Nat} (same : SameTerm L F a)
    (greatest : ∀ b, SameTerm L F b → b ≤ a) (n : Nat) (reached : a + 1 ≤ n)
    (le : n ≤ L.lastIndex + 1) : ProbeEnds L F n (a + 1) := by
  have start : L.snapshotIndex ≤ a := by
    obtain ⟨t, tl, -⟩ := same
    exact (wl.term_isOk.mp ⟨t, tl⟩).1
  -- a rejection moves back, so the induction is on the position
  induction n using Nat.strong_induction_on with
  | _ n ih =>
    rcases Nat.eq_or_lt_of_le reached with rfl | above
    · exact .matched (by omega) same.round
    · obtain ⟨p, rfl⟩ : ∃ p, n = p + 1 := ⟨n - 1, by omega⟩
      obtain ⟨t, tl⟩ := wl.term_isOk.mpr ⟨show L.snapshotIndex ≤ p by omega, by omega⟩
      have back := movesBack_above wl wf shared boundary tl fun b hb => by
        have := greatest b hb
        omega
      obtain ⟨next, round, before, kept⟩ := back.round
      have := kept a same (by omega)
      exact .again (by omega) round (ih next (by omega) (by omega) (by omega))

/-- Without an index of agreement probing ends below the leader's first index. -/
theorem ProbeEnds.below_first (wl : L.WF) (wf : F.WF) (shared : SharedHistory L F)
    (boundary : BoundaryKnown L F) (none : ∀ a, ¬ SameTerm L F a) (n : Nat)
    (le : n ≤ L.lastIndex + 1) : ∃ m ≤ L.snapshotIndex, ProbeEnds L F n m := by
  induction n using Nat.strong_induction_on with
  | _ n ih =>
    rcases Nat.lt_or_ge L.snapshotIndex n with available | compacted
    · obtain ⟨p, rfl⟩ : ∃ p, n = p + 1 := ⟨n - 1, by omega⟩
      obtain ⟨t, tl⟩ := wl.term_isOk.mpr ⟨show L.snapshotIndex ≤ p by omega, by omega⟩
      have back := movesBack_above wl wf shared boundary tl fun b hb => absurd hb (none b)
      obtain ⟨next, round, before, -⟩ := back.round
      obtain ⟨m, low, rest⟩ := ih next (by omega) (by omega)
      exact ⟨m, low, .again available round rest⟩
    · exact ⟨n, compacted, .compacted compacted⟩

/-- Probing converges exactly. Above the greatest index of agreement `a` every probe is
rejected and moves to a smaller position that is not below `a + 1`, and the probe at `a + 1`
matches; without an index of agreement every probe is rejected and moves back. So repeated
probing ends, at `a + 1` or below the leader's first index. -/
theorem probing_converges (L F : RaftLog C) (wl : L.WF) (wf : F.WF)
    (shared : SharedHistory L F) (boundary : BoundaryKnown L F) :
    (∀ a, SameTerm L F a → (∀ b, SameTerm L F b → b ≤ a) →
      (∀ n, a + 1 < n → n ≤ L.lastIndex + 1 → ∃ t hint next, L.term (n - 1) = .ok t ∧
        validatePrefix F (n - 1) t = .ok (.reject hint) ∧ rejectedNext L hint = .ok next ∧
        a + 1 ≤ next ∧ next < n) ∧
      (∃ t, L.term a = .ok t ∧ validatePrefix F a t = .ok .match_) ∧
      ∀ n, a + 1 ≤ n → n ≤ L.lastIndex + 1 → ProbeEnds L F n (a + 1)) ∧
    ((∀ a, ¬ SameTerm L F a) →
      (∀ n t, 0 < n → L.term (n - 1) = .ok t → ∃ hint next,
        validatePrefix F (n - 1) t = .ok (.reject hint) ∧ rejectedNext L hint = .ok next ∧
        next < n) ∧
      ∀ n, n ≤ L.lastIndex + 1 → ∃ m ≤ L.snapshotIndex, ProbeEnds L F n m) := by
  constructor
  · intro a same greatest
    refine ⟨fun n above le => ?_, same.accepted,
      ProbeEnds.at_agreement wl wf shared boundary same greatest⟩
    have start : L.snapshotIndex ≤ a := by
      obtain ⟨t, tl, -⟩ := same
      exact (wl.term_isOk.mp ⟨t, tl⟩).1
    obtain ⟨t, tl⟩ := wl.term_isOk.mpr ⟨show L.snapshotIndex ≤ n - 1 by omega, by omega⟩
    have back := movesBack_above wl wf shared boundary tl fun b hb => by
      have := greatest b hb
      omega
    obtain ⟨u, hint, next, tu, answer, jump, before, kept⟩ := back
    exact ⟨u, hint, next, tu, answer, jump, kept a same (by omega), by omega⟩
  · intro none
    refine ⟨fun n t pos tl => ?_, ProbeEnds.below_first wl wf shared boundary none⟩
    have back := movesBack_above wl wf shared boundary tl fun b hb => absurd hb (none b)
    obtain ⟨u, hint, next, tu, answer, jump, before, -⟩ := back
    rw [tl, Except.ok.injEq] at tu
    subst tu
    exact ⟨hint, next, answer, jump, by omega⟩

/-- A leader of term 2 that keeps the first of the two entries of term 1. -/
def newerLeader : RaftLog Nat := ⟨none, replacement, 1, {}⟩

theorem twoEntries_wf : twoEntries.WF := twoEntries_coherent.wf (by decide)

theorem newerLeader_wf : newerLeader.WF :=
  ⟨by decide, ⟨rfl, rfl, trivial⟩, ⟨by decide, by decide, trivial⟩⟩

/-- The logs differ at index 2 only, and no term of one reaches index 2 in the other. -/
theorem newerLeader_agrees {i : Nat} (below : i < 2) : AgreeThrough newerLeader twoEntries i := by
  intro k le t u tl tf
  obtain rfl | rfl : k = 0 ∨ k = 1 := by omega
  · rw [RaftLog.term_zero tl, RaftLog.term_zero tf]
  · exact Except.ok.inj (tl.symm.trans (show newerLeader.term 1 = twoEntries.term 1 from rfl)
      |>.trans tf)

theorem newerLeader_shared : SharedHistory newerLeader twoEntries := by
  have second : ∀ {i : Nat} {t : Nat}, twoEntries.term i = .ok t → i ≤ 2 := fun h =>
    (twoEntries_wf.term_isOk.mp ⟨_, h⟩).2
  have second' : ∀ {i : Nat} {t : Nat}, newerLeader.term i = .ok t → i ≤ 2 := fun h =>
    (newerLeader_wf.term_isOk.mp ⟨_, h⟩).2
  have apart : ∀ t, twoEntries.term 2 = .ok t → newerLeader.term 2 ≠ .ok t := by
    intro t tf tl
    have := Except.ok.inj (tl.symm.trans (show newerLeader.term 2 = .ok 2 from rfl))
    have := Except.ok.inj (tf.symm.trans (show twoEntries.term 2 = .ok 1 from rfl))
    omega
  constructor
  · intro t i j tf tl le
    rcases Nat.lt_or_ge i 2 with below | reached
    · exact newerLeader_agrees below
    · have := second' tl
      obtain rfl : i = 2 := by omega
      obtain rfl : j = 2 := by omega
      exact absurd tl (apart t tf)
  · intro t i j tl tf le
    rcases Nat.lt_or_ge i 2 with below | reached
    · exact newerLeader_agrees below
    · have := second tf
      obtain rfl : i = 2 := by omega
      obtain rfl : j = 2 := by omega
      exact absurd tl (apart t tf)

theorem probing_converges_two : ProbeEnds newerLeader twoEntries 3 2 := by
  have same : SameTerm newerLeader twoEntries 1 := ⟨1, rfl, rfl⟩
  have greatest : ∀ b, SameTerm newerLeader twoEntries b → b ≤ 1 := by
    rintro b ⟨t, tl, tf⟩
    have le := (twoEntries_wf.term_isOk.mp ⟨t, tf⟩).2
    by_contra above
    obtain rfl : b = 2 := by
      have : b ≤ 2 := le
      omega
    have := Except.ok.inj (tl.symm.trans (show newerLeader.term 2 = .ok 2 from rfl))
    have := Except.ok.inj (tf.symm.trans (show twoEntries.term 2 = .ok 1 from rfl))
    omega
  exact ((probing_converges newerLeader twoEntries newerLeader_wf twoEntries_wf
    newerLeader_shared (fun _ none => by simp [twoEntries] at none)).1 1 same greatest).2.2 3
      (by decide) (by decide)

end Ruft
