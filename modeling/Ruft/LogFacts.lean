import Ruft.Log

set_option autoImplicit false

/-!
# The logical log, operation by operation

`RaftLog.WF` is the representation invariant: the suffix continues the snapshot
index without a gap, its terms do not regress, and every index has a successor in
`u64`. Each operation of the log gets one lemma that says what it returns on a
well-formed log and that the result is well formed.
-/

namespace Ruft

variable {C : Type}

/-- The entries have the consecutive indexes `n`, `n + 1`, and so on. -/
def Contiguous : Nat → List (Entry C) → Prop
  | _, [] => True
  | n, e :: es => e.index = n ∧ Contiguous (n + 1) es

/-- The terms do not decrease and start at `t` or above. -/
def TermsFrom : Nat → List (Entry C) → Prop
  | _, [] => True
  | t, e :: es => t ≤ e.term ∧ TermsFrom e.term es

/-- The term of the last entry, or `t` when there is none. -/
def lastTermFrom (t : Nat) (es : List (Entry C)) : Nat := es.getLast?.elim t (·.term)

theorem Contiguous.append {n : Nat} {es fs : List (Entry C)} :
    Contiguous n (es ++ fs) ↔ Contiguous n es ∧ Contiguous (n + es.length) fs := by
  induction es generalizing n with
  | nil => simp [Contiguous]
  | cons e es ih =>
    simp only [List.cons_append, Contiguous, ih, List.length_cons, and_assoc]
    rw [Nat.add_right_comm, Nat.add_assoc]

theorem Contiguous.index {n : Nat} {es : List (Entry C)} (h : Contiguous n es) {i : Nat}
    {e : Entry C} (he : es[i]? = some e) : e.index = n + i := by
  induction es generalizing n i with
  | nil => simp at he
  | cons a as ih =>
    cases i with
    | zero => simp at he; subst he; simpa using h.1
    | succ i =>
      have := ih h.2 (by simpa using he)
      omega

theorem Contiguous.getLast? {n : Nat} {es : List (Entry C)} (h : Contiguous n es) {e : Entry C}
    (he : es.getLast? = some e) : e.index + 1 = n + es.length := by
  rw [List.getLast?_eq_getElem?] at he
  have hlen : es ≠ [] := by rintro rfl; simp at he
  have := h.index he
  have := List.length_pos_iff.mpr hlen
  omega

theorem Contiguous.take {n k : Nat} {es : List (Entry C)} (h : Contiguous n es) :
    Contiguous n (es.take k) := by
  rw [← List.take_append_drop k es] at h
  exact (Contiguous.append.mp h).1

theorem Contiguous.drop {n k : Nat} {es : List (Entry C)} (h : Contiguous n es)
    (hk : k ≤ es.length) : Contiguous (n + k) (es.drop k) := by
  rw [← List.take_append_drop k es] at h
  simpa [Nat.min_eq_left hk] using (Contiguous.append.mp h).2

theorem lastTermFrom_cons (t : Nat) (e : Entry C) (es : List (Entry C)) :
    lastTermFrom t (e :: es) = lastTermFrom e.term es := by
  cases es with
  | nil => rfl
  | cons f fs =>
    have : ((f :: fs).getLast?).isSome := by simp
    obtain ⟨g, hg⟩ := Option.isSome_iff_exists.mp this
    simp [lastTermFrom, List.getLast?_cons_cons, hg]

theorem lastTermFrom_append (t : Nat) (es fs : List (Entry C)) :
    lastTermFrom t (es ++ fs) = lastTermFrom (lastTermFrom t es) fs := by
  induction es generalizing t with
  | nil => rfl
  | cons e es ih => rw [List.cons_append, lastTermFrom_cons, lastTermFrom_cons, ih]

theorem TermsFrom.append {t : Nat} {es fs : List (Entry C)} :
    TermsFrom t (es ++ fs) ↔ TermsFrom t es ∧ TermsFrom (lastTermFrom t es) fs := by
  induction es generalizing t with
  | nil => simp [TermsFrom, lastTermFrom]
  | cons e es ih => simp only [List.cons_append, TermsFrom, ih, lastTermFrom_cons, and_assoc]

theorem TermsFrom.take {t : Nat} {k : Nat} {es : List (Entry C)} (h : TermsFrom t es) :
    TermsFrom t (es.take k) := by
  rw [← List.take_append_drop k es] at h
  exact (TermsFrom.append.mp h).1

theorem TermsFrom.le {t : Nat} {es : List (Entry C)} (h : TermsFrom t es) {e : Entry C}
    (he : e ∈ es) : t ≤ e.term := by
  induction es generalizing t with
  | nil => simp at he
  | cons a as ih =>
    rcases List.mem_cons.mp he with rfl | he
    · exact h.1
    · exact h.1.trans (ih h.2 he)

theorem TermsFrom.pairwise {t : Nat} {es : List (Entry C)} (h : TermsFrom t es) :
    es.Pairwise (fun a b => a.term ≤ b.term) := by
  induction es generalizing t with
  | nil => exact List.Pairwise.nil
  | cons a as ih => exact List.Pairwise.cons (fun b hb => h.2.le hb) (ih h.2)

/-- The term at the last entry of a prefix is the term of that entry. -/
theorem lastTermFrom_take {t : Nat} {es : List (Entry C)} {k : Nat} {e : Entry C}
    (he : es[k]? = some e) : lastTermFrom t (es.take (k + 1)) = e.term := by
  have hk : k < es.length := (List.getElem?_eq_some_iff.mp he).1
  have : (es.take (k + 1)).getLast? = some e := by
    have hlen : (es.take (k + 1)).length = k + 1 := by simp; omega
    rw [List.getLast?_eq_getElem?, hlen, Nat.add_sub_cancel,
      List.getElem?_take_of_lt (Nat.lt_succ_self k), he]
  simp [lastTermFrom, this]

namespace RaftLog

def snapshotTerm (log : RaftLog C) : Nat := log.snapshot.elim 0 (·.metadata.term)

structure WF (log : RaftLog C) : Prop where
  bound : log.snapshotIndex + log.entries.length < u64Max
  contiguous : Contiguous (log.snapshotIndex + 1) log.entries
  terms : TermsFrom log.snapshotTerm log.entries

/-- The entry at an index of the suffix. -/
def get? (log : RaftLog C) (index : Nat) : Option (Entry C) :=
  if log.snapshotIndex < index then log.entries[index - (log.snapshotIndex + 1)]? else none

variable {log : RaftLog C}

theorem WF.firstIndex (h : log.WF) : log.firstIndex = .ok (log.snapshotIndex + 1) := by
  have hb := h.bound
  unfold RaftLog.firstIndex
  cases hs : log.snapshot with
  | none => simp [snapshotIndex, hs]
  | some record =>
    have : record.metadata.index < u64Max := by
      simp only [snapshotIndex, hs, Option.elim_some] at hb
      omega
    simpa [snapshotIndex, hs] using expectNext_eq_ok this

theorem WF.lastIndex (h : log.WF) :
    log.lastIndex = log.snapshotIndex + log.entries.length := by
  unfold RaftLog.lastIndex
  cases he : log.entries.getLast? with
  | none => simp [List.getLast?_eq_none_iff.mp he]
  | some e =>
    have := h.contiguous.getLast? he
    simp only [Option.elim_some]
    omega

theorem WF.lastIndex_lt (h : log.WF) : log.lastIndex < u64Max := h.lastIndex ▸ h.bound

theorem WF.entryAt (h : log.WF) (index : Nat) : log.entryAt index = .ok (log.get? index) := by
  simp only [RaftLog.entryAt, h.firstIndex, bind, Except.bind, get?, Nat.lt_succ_iff]
  split
  · next hi => rw [if_neg (by omega)]
  · next hi => rw [if_pos (by omega)]

theorem WF.get?_index (h : log.WF) {i : Nat} {e : Entry C} (he : log.get? i = some e) :
    e.index = i := by
  simp only [get?] at he
  split at he
  · have := h.contiguous.index he
    omega
  · simp at he

theorem WF.get?_isSome (h : log.WF) {i : Nat} :
    (log.get? i).isSome ↔ log.snapshotIndex < i ∧ i ≤ log.lastIndex := by
  rw [h.lastIndex]
  simp only [get?]
  split
  · rw [Option.isSome_iff_ne_none, ne_eq, List.getElem?_eq_none_iff]
    omega
  · simp only [Option.isSome_none, Bool.false_eq_true, false_iff]
    omega

theorem WF.term_snapshot (_h : log.WF) : log.term log.snapshotIndex = .ok log.snapshotTerm := by
  unfold RaftLog.term snapshotIndex snapshotTerm
  cases log.snapshot <;> simp

theorem WF.term_entry (h : log.WF) {i : Nat} {e : Entry C} (he : log.get? i = some e) :
    log.term i = .ok e.term := by
  have hi : log.snapshotIndex < i := by
    by_contra hn
    simp [get?, hn] at he
  have hin : log.entryAt i = .ok (some e) := by rw [h.entryAt, he]
  unfold RaftLog.term
  cases hs : log.snapshot with
  | none => simp [snapshotIndex, hs] at hi; simp [hin, bind, Except.bind, Nat.pos_iff_ne_zero.mp hi]
  | some record =>
    simp only [snapshotIndex, hs, Option.elim_some] at hi
    simp [hin, bind, Except.bind, Nat.not_lt.mpr hi.le, Nat.ne_of_gt hi]

theorem WF.term_lt (_h : log.WF) {i : Nat} (hi : i < log.snapshotIndex) :
    log.term i = Outcome.raise (.compacted i log.snapshotIndex) := by
  unfold RaftLog.term
  cases hs : log.snapshot with
  | none => simp [snapshotIndex, hs] at hi
  | some record =>
    simp only [snapshotIndex, hs, Option.elim_some] at hi
    simp [hi, snapshotIndex, hs]

theorem WF.term_gt (h : log.WF) {i : Nat} (hi : log.lastIndex < i) :
    log.term i = Outcome.raise (.unavailable i log.lastIndex) := by
  have hl := h.lastIndex
  have hnone : log.get? i = none := by
    by_contra hn
    have := h.get?_isSome.mp (Option.isSome_iff_ne_none.mpr hn)
    omega
  have hin : log.entryAt i = .ok none := by rw [h.entryAt, hnone]
  have hsi : log.snapshotIndex < i := by omega
  unfold RaftLog.term
  cases hs : log.snapshot with
  | none => simp [hin, bind, Except.bind, show i ≠ 0 by omega]
  | some record =>
    simp only [snapshotIndex, hs, Option.elim_some] at hsi
    simp [hin, bind, Except.bind, Nat.not_lt.mpr hsi.le, Nat.ne_of_gt hsi]

/-- Every index is compacted, the snapshot boundary, an entry, or past the log. -/
theorem WF.index_cases (h : log.WF) (i : Nat) : i < log.snapshotIndex ∨
    i = log.snapshotIndex ∨ (∃ e, log.get? i = some e) ∨ log.lastIndex < i := by
  rcases Nat.lt_trichotomy i log.snapshotIndex with hi | hi | hi
  · exact .inl hi
  · exact .inr (.inl hi)
  · rcases Nat.lt_or_ge log.lastIndex i with hl | hl
    · exact .inr (.inr (.inr hl))
    · exact .inr (.inr (.inl (Option.isSome_iff_exists.mp (h.get?_isSome.mpr ⟨hi, hl⟩))))

theorem WF.term_eq_ok (h : log.WF) {i : Nat} {t : Nat} (ht : log.term i = .ok t) :
    (i = log.snapshotIndex ∧ t = log.snapshotTerm) ∨ ∃ e, log.get? i = some e ∧ e.term = t := by
  rcases h.index_cases i with hi | rfl | ⟨e, he⟩ | hi
  · rw [h.term_lt hi] at ht; simp at ht
  · rw [h.term_snapshot] at ht; exact .inl ⟨rfl, by simpa using ht.symm⟩
  · rw [h.term_entry he] at ht; exact .inr ⟨e, he, by simpa using ht⟩
  · rw [h.term_gt hi] at ht; simp at ht

theorem WF.term_lastIndex (h : log.WF) :
    log.term log.lastIndex = .ok (lastTermFrom log.snapshotTerm log.entries) := by
  cases he : log.entries.getLast? with
  | none =>
    have : log.lastIndex = log.snapshotIndex := by simp [RaftLog.lastIndex, he]
    rw [this, h.term_snapshot]
    simp [lastTermFrom, he]
  | some e =>
    have hlast : log.lastIndex = e.index := by simp [RaftLog.lastIndex, he]
    have hpos : log.entries.length ≠ 0 := by
      intro h0; rw [List.length_eq_zero_iff.mp h0] at he; simp at he
    have hent : log.get? log.lastIndex = some e := by
      have hl := h.lastIndex
      rw [get?, if_pos (by omega), hl, ← he, List.getLast?_eq_getElem?]
      congr 1
      omega
    rw [h.term_entry hent]
    simp [lastTermFrom, he]

/-! ## Reading a range -/

theorem WF.range (h : log.WF) {start last : Nat} (hs : log.snapshotIndex < start)
    (hsl : start ≤ last) (hl : last ≤ log.lastIndex) : log.range start last =
      .ok ((log.entries.drop (start - (log.snapshotIndex + 1))).take (last + 1 - start)) := by
  have hlast := h.lastIndex
  simp only [RaftLog.range, if_neg (Nat.not_lt.mpr hsl), h.firstIndex, bind, Except.bind,
    if_neg (show ¬ start < log.snapshotIndex + 1 by omega), if_neg (Nat.not_lt.mpr hl),
    Outcome.sub_eq_ok (show log.snapshotIndex + 1 ≤ start by omega),
    Outcome.sub_eq_ok (show log.snapshotIndex + 1 ≤ last by omega), Outcome.slice]
  rw [if_pos (by omega), show last - (log.snapshotIndex + 1) + 1 -
    (start - (log.snapshotIndex + 1)) = last + 1 - start by omega]

/-- A range that was returned lies inside the suffix. -/
theorem WF.range_eq_ok (h : log.WF) {start last : Nat} {es : List (Entry C)}
    (hr : log.range start last = .ok es) :
    log.snapshotIndex < start ∧ start ≤ last ∧ last ≤ log.lastIndex := by
  unfold RaftLog.range at hr
  split at hr
  · simp at hr
  · simp only [h.firstIndex, bind, Except.bind] at hr
    split at hr
    · simp at hr
    · split at hr
      · simp at hr
      · omega

/-- The entries of a range are those of its indexes. -/
theorem WF.range_contiguous (h : log.WF) {start last : Nat} {es : List (Entry C)}
    (hr : log.range start last = .ok es) :
    Contiguous start es ∧ es.length = last + 1 - start := by
  obtain ⟨hs, hsl, hl⟩ := h.range_eq_ok hr
  rw [h.range hs hsl hl, Except.ok.injEq] at hr
  have hlast := h.lastIndex
  have hdrop := h.contiguous.drop (k := start - (log.snapshotIndex + 1)) (by omega)
  rw [show log.snapshotIndex + 1 + (start - (log.snapshotIndex + 1)) = start by omega] at hdrop
  rw [← hr]
  exact ⟨hdrop.take, by rw [List.length_take, List.length_drop]; omega⟩

theorem WF.range_getLast (h : log.WF) {start last : Nat} {es : List (Entry C)}
    (hr : log.range start last = .ok es) : ∃ e, es.getLast? = some e ∧ e.index = last := by
  obtain ⟨hs, hsl, hl⟩ := h.range_eq_ok hr
  obtain ⟨hc, hlen⟩ := h.range_contiguous hr
  cases he : es.getLast? with
  | none =>
    rw [List.getLast?_eq_none_iff] at he
    simp [he] at hlen
    omega
  | some e => exact ⟨e, rfl, by have := hc.getLast? he; omega⟩

theorem WF.range_mem (h : log.WF) {start last : Nat} {es : List (Entry C)}
    (hr : log.range start last = .ok es) {e : Entry C} (he : e ∈ es) :
    e.index ≤ last ∧ log.entryAt e.index = .ok (some e) := by
  obtain ⟨hs, hsl, hl⟩ := h.range_eq_ok hr
  obtain ⟨hc, hlen⟩ := h.range_contiguous hr
  obtain ⟨k, hk⟩ := List.mem_iff_getElem?.mp he
  have inside := (List.getElem?_eq_some_iff.mp hk).1
  have index := hc.index hk
  refine ⟨by omega, ?_⟩
  rw [h.range hs hsl hl, Except.ok.injEq] at hr
  rw [← hr, List.getElem?_take_of_lt (by omega), List.getElem?_drop] at hk
  rw [h.entryAt, get?, if_pos (by omega), ← hk]
  congr 2
  omega

/-- Reading a log looks at its entries and its snapshot. -/
theorem term_congr {log' : RaftLog C} (entries : log'.entries = log.entries)
    (snapshot : log'.snapshot = log.snapshot) : log'.term = log.term := by
  funext j
  simp only [RaftLog.term, RaftLog.entryAt, RaftLog.firstIndex, RaftLog.lastIndex,
    RaftLog.snapshotIndex, entries, snapshot]

theorem lastIndex_congr {log' : RaftLog C} (entries : log'.entries = log.entries)
    (snapshot : log'.snapshot = log.snapshot) : log'.lastIndex = log.lastIndex := by
  simp only [RaftLog.lastIndex, RaftLog.snapshotIndex, entries, snapshot]

theorem entryAt_congr {log' : RaftLog C} (entries : log'.entries = log.entries)
    (snapshot : log'.snapshot = log.snapshot) : log'.entryAt = log.entryAt := by
  funext j
  simp only [RaftLog.entryAt, RaftLog.firstIndex, entries, snapshot]

theorem WF.range_ne_panic (h : log.WF) {start last : Nat} :
    log.range start last ≠ .error .panic := by
  intro hp
  by_cases hin : log.snapshotIndex < start ∧ start ≤ last ∧ last ≤ log.lastIndex
  · rw [h.range hin.1 hin.2.1 hin.2.2] at hp
    simp at hp
  · unfold RaftLog.range at hp
    split at hp
    · simp at hp
    · simp only [h.firstIndex, bind, Except.bind] at hp
      split at hp
      · simp at hp
      · split at hp
        · simp at hp
        · omega

theorem WF.term_ne_panic (h : log.WF) {i : Nat} : log.term i ≠ .error .panic := by
  rcases h.index_cases i with hi | rfl | ⟨e, he⟩ | hi
  · simp [h.term_lt hi]
  · simp [h.term_snapshot]
  · simp [h.term_entry he]
  · simp [h.term_gt hi]

theorem WF.term_isOk (h : log.WF) {i : Nat} :
    (∃ t, log.term i = .ok t) ↔ log.snapshotIndex ≤ i ∧ i ≤ log.lastIndex := by
  have hl := h.lastIndex
  constructor
  · rintro ⟨t, ht⟩
    rcases h.term_eq_ok ht with ⟨rfl, -⟩ | ⟨e, he, -⟩
    · omega
    · have := h.get?_isSome.mp (Option.isSome_iff_exists.mpr ⟨e, he⟩)
      omega
  · rintro ⟨h1, h2⟩
    rcases h.index_cases i with hi | rfl | ⟨e, he⟩ | hi
    · omega
    · exact ⟨_, h.term_snapshot⟩
    · exact ⟨_, h.term_entry he⟩
    · omega

/-! ## Appending -/

theorem checkContinuity_eq_ok {n t : Nat} {es : List (Entry C)}
    (h : checkContinuity n t es = .ok ()) :
    Contiguous n es ∧ TermsFrom t es ∧ (es ≠ [] → n + es.length ≤ u64Max) := by
  induction es generalizing n t with
  | nil => simp [Contiguous, TermsFrom]
  | cons e es ih =>
    simp only [checkContinuity] at h
    split at h
    · simp at h
    · next hi =>
      split at h
      · simp at h
      · next ht =>
        by_cases hn : n < u64Max
        · rw [checkedNextOr_eq_ok _ hn] at h
          obtain ⟨hc, htf, hb⟩ := ih h
          refine ⟨⟨by simpa using hi, hc⟩, ⟨by omega, htf⟩, fun _ => ?_⟩
          rcases eq_or_ne es [] with rfl | hne
          · simp; omega
          · have := hb hne
            simp; omega
        · simp [checkedNextOr, checkedNext, hn, bind, Except.bind] at h

theorem checkContinuity_ok {n t : Nat} {es : List (Entry C)} (contiguous : Contiguous n es)
    (terms : TermsFrom t es) (bound : n + es.length ≤ u64Max) : checkContinuity n t es = .ok () := by
  induction es generalizing n t with
  | nil => rfl
  | cons e es ih =>
    simp only [List.length_cons] at bound
    rw [checkContinuity, if_neg (not_not_intro contiguous.1), if_neg (Nat.not_lt.mpr terms.1),
      checkedNextOr_eq_ok _ (show n < u64Max by omega)]
    exact ih contiguous.2 terms.2 (by omega)

theorem checkContinuity_ne_panic {n t : Nat} {es : List (Entry C)} :
    checkContinuity n t es ≠ .error .panic := by
  induction es generalizing n t with
  | nil => simp [checkContinuity]
  | cons e es ih =>
    simp only [checkContinuity]
    split
    · simp
    · split
      · simp
      · by_cases hn : n < u64Max
        · rw [checkedNextOr_eq_ok _ hn]
          exact ih
        · simp [checkedNextOr, checkedNext, hn, bind, Except.bind]

theorem termBefore_eq {first : Nat} (hf : 0 < first) :
    log.termBefore first = log.term (first - 1) := by
  unfold RaftLog.termBefore
  split
  · next hn => simp [hn.1, RaftLog.term, hn.2]
  · simp [Outcome.sub_eq_ok (show 1 ≤ first by omega), bind, Except.bind]

/-- The continuity check of a suffix that follows the log. -/
theorem WF.validateContinuity_next (h : log.WF) (es : List (Entry C)) :
    log.validateContinuity es (log.lastIndex + 1) =
      checkContinuity (log.lastIndex + 1) (lastTermFrom log.snapshotTerm log.entries) es := by
  simp only [RaftLog.validateContinuity, termBefore_eq (Nat.succ_pos _), Nat.succ_sub_one,
    h.term_lastIndex, bind, Except.bind]

/-- A suffix that passes the continuity check extends the log. -/
theorem WF.extended (h : log.WF) {e : Entry C} {rest : List (Entry C)} {u : Unstable}
    (hc : checkContinuity (log.lastIndex + 1) (lastTermFrom log.snapshotTerm log.entries)
      (e :: rest) = .ok ()) :
    { log with entries := log.entries ++ e :: rest, unstable := u }.WF := by
  have hl := h.lastIndex
  obtain ⟨hcont, hterm, hbound⟩ := checkContinuity_eq_ok hc
  refine ⟨?_, ?_, ?_⟩
  · have := hbound (by simp)
    simp only [snapshotIndex, List.length_append] at *
    omega
  · refine Contiguous.append.mpr ⟨h.contiguous, ?_⟩
    simpa [hl, snapshotIndex, Nat.add_right_comm] using hcont
  · exact TermsFrom.append.mpr ⟨h.terms, hterm⟩

theorem WF.append_cons (h : log.WF) {e : Entry C} {rest : List (Entry C)} {log' : RaftLog C}
    (ha : log.append (e :: rest) = .ok log') : ∃ last, (e :: rest).getLast? = some last ∧
      log' = { log with
        entries := log.entries ++ e :: rest
        unstable := log.unstable.markRange e.index last.index } ∧ log'.WF := by
  obtain ⟨last, hlast⟩ : ∃ g, (e :: rest).getLast? = some g := ⟨_, List.getLast?_cons⟩
  simp only [RaftLog.append, checkedNextOr_eq_ok _ h.lastIndex_lt, bind, Except.bind,
    h.validateContinuity_next] at ha
  cases hc : checkContinuity (log.lastIndex + 1) (lastTermFrom log.snapshotTerm log.entries)
      (e :: rest) with
  | error f => simp [hc] at ha
  | ok u =>
    simp only [hc, Outcome.expect, hlast, Except.ok.injEq] at ha
    subst ha
    exact ⟨last, hlast, rfl, h.extended hc⟩

theorem WF.append (h : log.WF) {e : Entry C} {log' : RaftLog C}
    (ha : log.append [e] = .ok log') : log' = { log with
      entries := log.entries ++ [e]
      unstable := log.unstable.markRange e.index e.index } ∧ log'.WF := by
  obtain ⟨last, hlast, appended⟩ := h.append_cons ha
  rw [List.getLast?_singleton, Option.some.injEq] at hlast
  subst hlast
  exact appended

theorem WF.append_ne_panic (h : log.WF) {es : List (Entry C)} :
    log.append es ≠ .error .panic := by
  cases es with
  | nil => simp [RaftLog.append]
  | cons e rest =>
    obtain ⟨last, hlast⟩ : ∃ g, (e :: rest).getLast? = some g := ⟨_, List.getLast?_cons⟩
    simp only [RaftLog.append, checkedNextOr_eq_ok _ h.lastIndex_lt, bind, Except.bind,
      h.validateContinuity_next]
    cases hc : checkContinuity (log.lastIndex + 1) (lastTermFrom log.snapshotTerm log.entries)
        (e :: rest) with
    | error f =>
      intro hp
      exact checkContinuity_ne_panic (hc.trans (by simpa using hp))
    | ok u => simp [Outcome.expect, hlast]

/-! ## Merging a leader suffix -/

/-- The invariant reads the snapshot and the entries only. -/
theorem WF.congr (h : log.WF) {log' : RaftLog C} (hs : log'.snapshot = log.snapshot)
    (he : log'.entries = log.entries) : log'.WF := by
  refine ⟨?_, ?_, ?_⟩
  · simpa [snapshotIndex, hs, he] using h.bound
  · simpa [snapshotIndex, hs, he] using h.contiguous
  · simpa [snapshotTerm, hs, he] using h.terms

/-- What `merge_from_leader` returns: the log as it was when every incoming entry is held
with its term; otherwise the log cut at the first entry that is not, followed by the rest of
the incoming entries. -/
inductive Merged (log : RaftLog C) (incoming : List (Entry C)) :
    RaftLog C → List (Entry C) → Prop
  | same (held : ∀ e ∈ incoming, log.term e.index = .ok e.term) : Merged log incoming log []
  | changed (kept : List (Entry C)) (e : Entry C) (rest : List (Entry C)) (j : Nat) (u : Unstable)
      (split : incoming = kept ++ e :: rest)
      (held : ∀ e ∈ kept, log.term e.index = .ok e.term)
      (differs : log.term e.index ≠ .ok e.term)
      (index : e.index = log.snapshotIndex + 1 + j)
      (within : j ≤ log.entries.length)
      (uncommitted : log.committed < e.index) :
      Merged log incoming { log with entries := log.entries.take j ++ e :: rest, unstable := u }
        (e :: rest)

theorem Merged.mem_incoming {incoming appended : List (Entry C)} {log' : RaftLog C}
    (h : log.Merged incoming log' appended) {e : Entry C} (he : e ∈ log'.entries) :
    e ∈ log.entries ∨ e ∈ incoming := by
  cases h with
  | same => exact .inl he
  | changed kept e' rest j u split =>
    refine (List.mem_append.mp he).imp List.mem_of_mem_take fun new => ?_
    rw [split]
    exact List.mem_append_right _ new

/-- Entries that are held may stand before those that are merged. -/
theorem Merged.after_held {kept rest appended : List (Entry C)} {e : Entry C} {log' : RaftLog C}
    (h : log.Merged (e :: rest) log' appended)
    (held : ∀ e ∈ kept, log.term e.index = .ok e.term)
    (differs : log.term e.index ≠ .ok e.term) :
    log.Merged (kept ++ e :: rest) log' (e :: rest) := by
  cases h with
  | same all => exact absurd (all e (by simp)) differs
  | changed more f later j u split moreHeld _ index within uncommitted =>
    cases more with
    | nil =>
      simp only [List.nil_append, List.cons.injEq] at split
      obtain ⟨rfl, rfl⟩ := split
      exact .changed kept e rest j u rfl held differs index within uncommitted
    | cons g more =>
      simp only [List.cons_append, List.cons.injEq] at split
      obtain ⟨rfl, -⟩ := split
      exact absurd (moreHeld e (by simp)) differs

/-- A merge keeps what is committed. -/
theorem Merged.take_committed {incoming appended : List (Entry C)} {log' : RaftLog C}
    (h : log.Merged incoming log' appended) {k : Nat}
    (le : log.snapshotIndex + k ≤ log.committed) :
    log'.entries.take k = log.entries.take k := by
  cases h with
  | same => rfl
  | changed kept e rest j u split held differs index within uncommitted =>
    have before : k ≤ j := by omega
    have size : k ≤ (log.entries.take j).length := by
      rw [List.length_take]
      omega
    rw [List.take_append_of_le_length size, List.take_take, Nat.min_eq_left before]

theorem WF.differs (h : log.WF) (e : Entry C) :
    log.differs e = .ok (decide (log.term e.index ≠ .ok e.term)) := by
  unfold RaftLog.differs
  cases ht : log.term e.index with
  | ok t => simp
  | error f =>
    cases f with
    | raise err => simp
    | panic => exact absurd ht h.term_ne_panic

theorem WF.firstChange (h : log.WF) (offset : Nat) (es : List (Entry C)) :
    (log.firstChange offset es = .ok none ∧ ∀ e ∈ es, log.term e.index = .ok e.term) ∨
    ∃ kept e rest, es = kept ++ e :: rest ∧ (∀ e ∈ kept, log.term e.index = .ok e.term) ∧
      log.term e.index ≠ .ok e.term ∧ log.firstChange offset es = .ok (some (offset + kept.length)) := by
  induction es generalizing offset with
  | nil => simp [RaftLog.firstChange]
  | cons e es ih =>
    simp only [RaftLog.firstChange, h.differs, bind, Except.bind]
    by_cases hd : log.term e.index = .ok e.term
    · simp only [hd, ne_eq, not_true_eq_false, decide_false, Bool.false_eq_true, ↓reduceIte]
      rcases ih (offset + 1) with ⟨hn, hall⟩ | ⟨kept, f, rest, rfl, hkept, hf, hres⟩
      · exact .inl ⟨hn, by simpa [hd] using hall⟩
      · refine .inr ⟨e :: kept, f, rest, rfl, by simpa [hd] using hkept, hf, ?_⟩
        rw [hres, List.length_cons]
        congr 2
        omega
    · exact .inr ⟨[], e, es, rfl, by simp, hd, by simp [hd]⟩

/-- A list whose head is not held conflicts at its head, or the comparison fails. -/
theorem WF.firstConflict_differs (h : log.WF) {e : Entry C} (rest : List (Entry C)) (offset : Nat)
    (hd : log.term e.index ≠ .ok e.term) :
    (log.firstConflict offset (e :: rest) = .ok (some offset) ∧ log.snapshotIndex < e.index ∧
      e.index ≤ log.lastIndex + 1) ∨
    ∃ err, log.firstConflict offset (e :: rest) = Outcome.raise err := by
  have hl := h.lastIndex
  rcases h.index_cases e.index with hi | hi | ⟨f, hf⟩ | hi
  · right
    -- below the boundary: the entry is compacted
    cases hs : log.snapshot with
    | none => simp [snapshotIndex, hs] at hi
    | some record =>
      simp only [snapshotIndex, hs, Option.elim_some] at hi
      exact ⟨_, by simp only [RaftLog.firstConflict, hs, if_pos hi]; rfl⟩
  · right
    -- at the boundary: another term than that of the snapshot
    rw [hi, h.term_snapshot] at hd
    cases hs : log.snapshot with
    | none =>
      have := e.index_pos
      simp [snapshotIndex, hs] at hi
      omega
    | some record =>
      simp only [snapshotIndex, snapshotTerm, hs, Option.elim_some, ne_eq, Except.ok.injEq] at hi hd
      exact ⟨_, by simp [RaftLog.firstConflict, hs, hi, Ne.symm hd]; rfl⟩
  · left
    -- an entry of another term is held
    have hb := h.get?_isSome.mp (Option.isSome_iff_exists.mpr ⟨f, hf⟩)
    rw [h.term_entry hf] at hd
    refine ⟨?_, hb.1, by omega⟩
    have hne : f.term ≠ e.term := by simpa using hd
    cases hs : log.snapshot with
    | none => simp [RaftLog.firstConflict, hs, h.entryAt, hf, bind, Except.bind, hne]
    | some record =>
      have hlt : record.metadata.index < e.index := by simpa [snapshotIndex, hs] using hb.1
      simp [RaftLog.firstConflict, hs, h.entryAt, hf, bind, Except.bind, hne,
        Nat.not_lt.mpr hlt.le, Nat.ne_of_gt hlt]
  -- past the end: it conflicts when it is the next one
  · have hnone : log.get? e.index = none := by
      by_contra hn
      have := h.get?_isSome.mp (Option.isSome_iff_ne_none.mpr hn)
      omega
    have hconf : log.firstConflict offset (e :: rest) =
        if e.index ≠ log.lastIndex + 1 then
          Outcome.raise (.nonContiguousEntries (log.lastIndex + 1) e.index)
        else .ok (some offset) := by
      cases hs : log.snapshot with
      | none => simp [RaftLog.firstConflict, hs, h.entryAt, hnone, bind, Except.bind,
          checkedNextOr_eq_ok _ h.lastIndex_lt]
      | some record =>
        have hlt : record.metadata.index < e.index := by
          have : log.snapshotIndex < e.index := by omega
          simpa [snapshotIndex, hs] using this
        simp [RaftLog.firstConflict, hs, h.entryAt, hnone, bind, Except.bind,
          checkedNextOr_eq_ok _ h.lastIndex_lt, Nat.not_lt.mpr hlt.le, Nat.ne_of_gt hlt]
    rw [hconf]
    split
    · exact .inr ⟨_, rfl⟩
    · next he => exact .inl ⟨rfl, by omega, by omega⟩

theorem WF.take_terms (h : log.WF) {i t : Nat} (hi : log.snapshotIndex ≤ i)
    (ht : log.term i = .ok t) :
    lastTermFrom log.snapshotTerm (log.entries.take (i - log.snapshotIndex)) = t := by
  rcases h.term_eq_ok ht with ⟨rfl, rfl⟩ | ⟨e, he, rfl⟩
  · simp [lastTermFrom]
  · have hlt : log.snapshotIndex < i := by
      by_contra hn
      simp [get?, hn] at he
    simp only [get?, if_pos hlt] at he
    have := lastTermFrom_take (t := log.snapshotTerm) he
    rwa [show i - (log.snapshotIndex + 1) + 1 = i - log.snapshotIndex by omega] at this

/-- The comparison passes over an entry that is held. -/
theorem WF.firstConflict_held (h : log.WF) {e : Entry C} (rest : List (Entry C)) (offset : Nat)
    (held : log.term e.index = .ok e.term) :
    log.firstConflict offset (e :: rest) = log.firstConflict (offset + 1) rest := by
  rcases h.term_eq_ok held with ⟨hi, ht⟩ | ⟨f, hf, ht⟩
  · cases hs : log.snapshot with
    | none =>
      have := e.index_pos
      simp [snapshotIndex, hs] at hi
      omega
    | some record =>
      simp only [snapshotIndex, snapshotTerm, hs, Option.elim_some] at hi ht
      rw [RaftLog.firstConflict, hs]
      simp [hi, ht]
  · have hb := h.get?_isSome.mp (Option.isSome_iff_exists.mpr ⟨f, hf⟩)
    cases hs : log.snapshot with
    | none =>
      rw [RaftLog.firstConflict, hs]
      simp [h.entryAt, hf, bind, Except.bind, ht]
    | some record =>
      have hlt : record.metadata.index < e.index := by simpa [snapshotIndex, hs] using hb.1
      rw [RaftLog.firstConflict, hs]
      simp [h.entryAt, hf, bind, Except.bind, ht, Nat.not_lt.mpr hlt.le, Nat.ne_of_gt hlt]

/-- The comparison loop finds the first entry that is not held, or fails there. -/
theorem WF.firstConflict (h : log.WF) (es : List (Entry C)) (offset : Nat) :
    (∃ err, log.firstConflict offset es = Outcome.raise err) ∨
    (log.firstConflict offset es = .ok none ∧ ∀ e ∈ es, log.term e.index = .ok e.term) ∨
    ∃ kept e rest, es = kept ++ e :: rest ∧ (∀ e ∈ kept, log.term e.index = .ok e.term) ∧
      log.term e.index ≠ .ok e.term ∧ log.snapshotIndex < e.index ∧
      e.index ≤ log.lastIndex + 1 ∧
      log.firstConflict offset es = .ok (some (offset + kept.length)) := by
  induction es generalizing offset with
  | nil => exact .inr (.inl ⟨by simp [RaftLog.firstConflict], by simp⟩)
  | cons e es ih =>
    by_cases held : log.term e.index = .ok e.term
    · rw [h.firstConflict_held es offset held]
      rcases ih (offset + 1) with failed | ⟨none, all⟩ | ⟨kept, f, rest, rfl, hkept, hf, lo, hi, hres⟩
      · exact .inl failed
      · exact .inr (.inl ⟨none, by simpa [held] using all⟩)
      · refine .inr (.inr ⟨e :: kept, f, rest, rfl, by simpa [held] using hkept, hf, lo, hi, ?_⟩)
        rw [hres, List.length_cons]
        congr 2
        omega
    · rcases h.firstConflict_differs es offset held with ⟨found, lo, hi⟩ | failed
      · exact .inr (.inr ⟨[], e, es, rfl, by simp, held, lo, hi, found⟩)
      · exact .inl failed

/-- The continuity check passes only after the term before the first entry was read. -/
theorem WF.validateContinuity (h : log.WF) (es : List (Entry C)) {first : Nat} (pos : 0 < first) :
    (∃ err, log.validateContinuity es first = Outcome.raise err) ∨
    ∃ t, log.term (first - 1) = .ok t ∧ log.validateContinuity es first = .ok () ∧
      Contiguous first es ∧ TermsFrom t es ∧ (es ≠ [] → first + es.length ≤ u64Max) := by
  simp only [RaftLog.validateContinuity, termBefore_eq pos, bind, Except.bind]
  cases ht : log.term (first - 1) with
  | error f =>
    cases f with
    | raise err => exact .inl ⟨err, rfl⟩
    | panic => exact absurd ht h.term_ne_panic
  | ok t =>
    simp only
    cases hc : checkContinuity first t es with
    | error f =>
      cases f with
      | raise err => exact .inl ⟨err, rfl⟩
      | panic => exact absurd hc checkContinuity_ne_panic
    | ok u => exact .inr ⟨t, rfl, rfl, checkContinuity_eq_ok hc⟩

/-- A log cut below an entry that continues it, followed by that entry and a suffix. -/
theorem WF.spliced (h : log.WF) {e : Entry C} {rest : List (Entry C)} {j t : Nat} {u : Unstable}
    (index : e.index = log.snapshotIndex + 1 + j) (within : j ≤ log.entries.length)
    (before : log.term (e.index - 1) = .ok t) (contiguous : Contiguous e.index (e :: rest))
    (terms : TermsFrom t (e :: rest)) (bound : e.index + (e :: rest).length ≤ u64Max) :
    { log with entries := log.entries.take j ++ e :: rest, unstable := u }.WF := by
  refine ⟨?_, ?_, ?_⟩
  · simp only [snapshotIndex, List.length_append, List.length_take] at *
    omega
  · refine Contiguous.append.mpr ⟨h.contiguous.take, ?_⟩
    rw [List.length_take, Nat.min_eq_left within]
    exact index ▸ contiguous
  · refine TermsFrom.append.mpr ⟨h.terms.take, ?_⟩
    have last := h.take_terms (show log.snapshotIndex ≤ e.index - 1 by omega) before
    rw [show e.index - 1 - log.snapshotIndex = j by omega] at last
    simpa [snapshotTerm] using last ▸ terms

/-- What `replace_conflict` returns. -/
theorem WF.replaceConflict (h : log.WF) (incoming : List (Entry C)) :
    (∃ err, log.replaceConflict incoming = Outcome.raise err) ∨
    ∃ merged appended, log.replaceConflict incoming = .ok merged ∧
      Merged log incoming merged appended ∧ merged.WF := by
  have hl := h.lastIndex
  cases incoming with
  | nil => exact .inr ⟨log, [], rfl, .same (by simp), h⟩
  | cons head tail =>
    simp only [RaftLog.replaceConflict, checkedNextOr_eq_ok _ h.lastIndex_lt, bind, Except.bind]
    split
    · exact .inl ⟨_, rfl⟩
    rcases h.validateContinuity (head :: tail) head.index_pos with
      ⟨err, failed⟩ | ⟨t, ht, valid, contiguous, terms, bound⟩
    · exact .inl ⟨err, by simp [failed]⟩
    simp only [valid]
    rcases h.firstConflict (head :: tail) 0 with
      ⟨err, failed⟩ | ⟨none, all⟩ | ⟨kept, e, rest, split, hkept, hd, lo, hi, found⟩
    · exact .inl ⟨err, by simp [failed]⟩
    · exact .inr ⟨log, [], by simp [none], .same all, h⟩
    · have conflict : (head :: tail)[0 + kept.length]? = some e := by
        rw [split, Nat.zero_add, List.getElem?_append_right le_rfl, Nat.sub_self]
        rfl
      simp only [found, Outcome.index, conflict, Outcome.expect]
      split
      · exact .inl ⟨_, rfl⟩
      next uncommitted =>
      obtain ⟨g, hg⟩ : ∃ g, (head :: tail).getLast? = some g := ⟨_, List.getLast?_cons⟩
      have size : (head :: tail).length = kept.length + (e :: rest).length := by
        rw [split, List.length_append]
      have index := contiguous.index conflict
      have bounded := bound (by simp)
      rw [split] at contiguous terms
      have hcont := (Contiguous.append.mp contiguous).2
      rw [show head.index + kept.length = e.index by omega] at hcont
      -- the term below the cut is that of the last entry that was held
      have before : log.term (e.index - 1) = .ok (lastTermFrom t kept) := by
        cases hk : kept.getLast? with
        | none =>
          have empty := List.getLast?_eq_none_iff.mp hk
          rw [empty, List.length_nil] at index
          simp only [lastTermFrom, hk, Option.elim_none]
          rw [← ht]
          congr 2
        | some last =>
          have hlast := ((Contiguous.append.mp contiguous).1).getLast? hk
          rw [show e.index - 1 = last.index by omega,
            hkept last (List.mem_of_getLast? hk)]
          simp [lastTermFrom, hk]
      have cut : (head :: tail).drop (0 + kept.length) = e :: rest := by
        rw [split, Nat.zero_add, List.drop_left]
      simp only [h.firstIndex, hg, cut,
        Outcome.sub_eq_ok (show log.snapshotIndex + 1 ≤ e.index by omega)]
      exact .inr ⟨_, e :: rest, rfl,
        .changed kept e rest _ _ split hkept hd (by omega) (by omega) (by omega),
        h.spliced (by omega) (by omega) before hcont (TermsFrom.append.mp terms).2 (by omega)⟩

theorem WF.mergeFromLeader (h : log.WF) (incoming : List (Entry C)) :
    (∃ err, log.mergeFromLeader incoming = Outcome.raise err) ∨
    ∃ merged appended, log.mergeFromLeader incoming = .ok (merged, appended) ∧
      Merged log incoming merged appended ∧ merged.WF := by
  simp only [RaftLog.mergeFromLeader, bind, Except.bind]
  rcases h.firstChange 0 incoming with ⟨hn, hall⟩ | ⟨kept, e, rest, rfl, hkept, hd, hres⟩
  · exact .inr ⟨log, [], by simp [hn], .same hall, h⟩
  · simp only [hres, Nat.zero_add, List.drop_left]
    rcases h.replaceConflict (e :: rest) with ⟨err, herr⟩ | ⟨merged, appended, hok, how, hwf⟩
    · exact .inl ⟨err, by simp [herr]⟩
    · exact .inr ⟨merged, e :: rest, by simp only [hok], how.after_held hkept hd, hwf⟩

/-! ## Commit, durability and snapshots -/

theorem commitTo_min (log : RaftLog C) (index : Nat) :
    log.commitTo (min index log.lastIndex) =
      .ok { log with committed := max log.committed (min index log.lastIndex) } := by
  unfold commitTo
  rw [if_neg (by omega)]
  split
  · next h => rw [Nat.max_eq_right h.le]
  · next h => rw [Nat.max_eq_left (by omega)]

theorem commitTo_eq_ok {log log' : RaftLog C} {index : Nat} (h : log.commitTo index = .ok log') :
    index ≤ log.lastIndex ∧ log' = { log with committed := max log.committed index } := by
  unfold commitTo at h
  split at h
  · simp at h
  · split at h
    · next hlt => exact ⟨by omega, by rw [Nat.max_eq_right hlt.le]; simpa using h.symm⟩
    · next hlt => exact ⟨by omega, by rw [Nat.max_eq_left (by omega)]; simpa using h.symm⟩

theorem markStable_eq_ok {log log' : RaftLog C} {index : Nat} (h : log.markStable index = .ok log') :
    log' = { log with unstable := log.unstable.markStableThrough index } := by
  unfold markStable at h
  split at h
  · simp at h
  · simpa using h.symm

/-- The suffix that stays above a snapshot boundary whose term agrees with the log. -/
theorem WF.boundary (h : log.WF) {record : SnapshotRecord}
    (ht : log.term record.metadata.index = .ok record.metadata.term) {log' : RaftLog C}
    (hs : log'.snapshot = some record)
    (he : log'.entries = log.entries.drop (record.metadata.index - log.snapshotIndex)) :
    log'.WF := by
  have hb := h.bound
  have hl := h.lastIndex
  obtain ⟨hlo, hhi⟩ := h.term_isOk.mp ⟨_, ht⟩
  refine ⟨?_, ?_, ?_⟩
  · simp only [snapshotIndex, hs, he, Option.elim_some, List.length_drop] at *
    omega
  · have := h.contiguous.drop (k := record.metadata.index - log.snapshotIndex) (by omega)
    rw [show log.snapshotIndex + 1 + (record.metadata.index - log.snapshotIndex) =
      record.metadata.index + 1 by omega] at this
    simpa [snapshotIndex, hs, he] using this
  · have hsplit := h.terms
    rw [← List.take_append_drop (record.metadata.index - log.snapshotIndex) log.entries] at hsplit
    have := (TermsFrom.append.mp hsplit).2
    rw [h.take_terms hlo ht] at this
    simpa [snapshotTerm, hs, he] using this

/-- What `install_snapshot` keeps of the suffix: all of it above a boundary with the same
term, and nothing otherwise. -/
def retained (log : RaftLog C) (record : SnapshotRecord) : List (Entry C) :=
  if log.term record.metadata.index = .ok record.metadata.term then
    log.entries.drop (record.metadata.index - log.snapshotIndex)
  else []

theorem WF.installSnapshot (h : log.WF) (record : SnapshotRecord) :
    log.installSnapshot record = .ok {
      snapshot := some record
      entries := log.retained record
      committed := max log.committed record.metadata.index
      unstable := log.unstable.discardThrough record.metadata.index } := by
  have hl := h.lastIndex
  have hb := h.bound
  simp only [RaftLog.installSnapshot, retained, bind, Except.bind]
  cases ht : log.term record.metadata.index with
  | error f =>
    cases f with
    | raise err => simp
    | panic => exact absurd ht h.term_ne_panic
  | ok t =>
    by_cases heq : t = record.metadata.term
    · subst heq
      obtain ⟨hlo, hhi⟩ := h.term_isOk.mp ⟨_, ht⟩
      simp only [h.firstIndex, ↓reduceIte]
      rw [show min (min (record.metadata.index + 1) u64Max - (log.snapshotIndex + 1))
        log.entries.length = record.metadata.index - log.snapshotIndex by omega]
    · simp [heq]

theorem WF.installed (h : log.WF) {record : SnapshotRecord} (hr : record.metadata.index < u64Max)
    {log' : RaftLog C} (hi : log.installSnapshot record = .ok log') : log'.WF := by
  rw [h.installSnapshot] at hi
  simp only [Except.ok.injEq] at hi
  subst hi
  by_cases ht : log.term record.metadata.index = .ok record.metadata.term
  · exact h.boundary ht rfl (by simp [retained, ht])
  · refine ⟨?_, ?_, ?_⟩ <;> simp [retained, ht, snapshotIndex, Contiguous, TermsFrom, hr]

theorem WF.installed_entries (h : log.WF) {record : SnapshotRecord} {log' : RaftLog C}
    (hi : log.installSnapshot record = .ok log') : log'.entries ⊆ log.entries := by
  rw [h.installSnapshot, Except.ok.injEq] at hi
  subst hi
  show log.retained record ⊆ _
  unfold retained
  split
  · exact List.drop_subset _ _
  · exact List.nil_subset _

theorem WF.compact_eq_ok (h : log.WF) {record : SnapshotRecord} {log' : RaftLog C}
    (hc : log.compact record = .ok log') :
    record.metadata.index ≤ log.committed ∧
    log.term record.metadata.index = .ok record.metadata.term ∧
    log' = { log with
      entries := log.entries.drop (record.metadata.index - log.snapshotIndex)
      snapshot := some record
      unstable := log.unstable.discardThrough record.metadata.index } := by
  have hl := h.lastIndex
  have hb := h.bound
  simp only [RaftLog.compact] at hc
  split at hc
  · simp at hc
  · next hcom =>
    simp only [bind, Except.bind] at hc
    cases ht : log.term record.metadata.index with
    | error f => simp [ht] at hc
    | ok t =>
      obtain ⟨hlo, hhi⟩ := h.term_isOk.mp ⟨_, ht⟩
      simp only [ht] at hc
      split at hc
      · simp at hc
      · next hne =>
        have heq : t = record.metadata.term := by simpa using hne
        rw [checkedNextOr_eq_ok _ (show record.metadata.index < u64Max by omega)] at hc
        simp only [h.firstIndex] at hc
        refine ⟨by omega, by rw [heq], ?_⟩
        have hdrop : (if log.snapshotIndex + 1 < record.metadata.index + 1 then
            min (record.metadata.index + 1 - (log.snapshotIndex + 1)) log.entries.length else 0) =
            record.metadata.index - log.snapshotIndex := by
          split <;> omega
        rw [hdrop] at hc
        simpa using hc.symm

theorem WF.compacted (h : log.WF) {record : SnapshotRecord} {log' : RaftLog C}
    (hc : log.compact record = .ok log') : log'.WF := by
  obtain ⟨-, ht, rfl⟩ := h.compact_eq_ok hc
  exact h.boundary ht rfl rfl

theorem WF.compact_ne_panic (h : log.WF) {record : SnapshotRecord} :
    log.compact record ≠ .error .panic := by
  simp only [RaftLog.compact]
  split
  · simp
  · simp only [bind, Except.bind]
    cases ht : log.term record.metadata.index with
    | error f =>
      intro hp
      exact h.term_ne_panic (ht.trans (by simpa using hp))
    | ok t =>
      obtain ⟨hlo, hhi⟩ := h.term_isOk.mp ⟨_, ht⟩
      have := h.lastIndex_lt
      simp only
      split
      · simp
      · rw [checkedNextOr_eq_ok _ (show record.metadata.index < u64Max by omega)]
        simp [h.firstIndex]

theorem checkSuffix_eq_ok {n t u : Nat} {es : List (Entry C)}
    (h : RecoveredState.checkSuffix n t es = .ok u) (hn : n ≤ u64Max) :
    Contiguous n es ∧ TermsFrom t es ∧ u = lastTermFrom t es ∧ n + es.length ≤ u64Max := by
  induction es generalizing n t with
  | nil => simp_all [RecoveredState.checkSuffix, Contiguous, TermsFrom, lastTermFrom]
  | cons e es ih =>
    simp only [RecoveredState.checkSuffix] at h
    split at h
    · simp at h
    · next hi =>
      split at h
      · simp at h
      · next ht =>
        cases hc : checkedNext n with
        | error f => simp [hc] at h
        | ok m =>
          obtain ⟨hlt, rfl⟩ := checkedNext_eq_ok.mp hc
          simp only [hc] at h
          obtain ⟨hcont, hterm, hu, hb⟩ := ih h (by omega)
          refine ⟨⟨by simpa using hi, hcont⟩, ⟨by omega, hterm⟩, ?_, by simp; omega⟩
          rw [hu, lastTermFrom_cons]

end RaftLog

/-- What `from_parts` has checked. -/
theorem RecoveredState.facts (r : RecoveredState C) :
    (RaftLog.fromRecovered r).WF ∧
    lastTermFrom (RaftLog.fromRecovered r).snapshotTerm r.entries ≤ r.hardState.currentTerm ∧
    (RaftLog.fromRecovered r).snapshotIndex ≤ r.hardState.commitIndex ∧
    r.hardState.commitIndex ≤ (RaftLog.fromRecovered r).lastIndex := by
  have h := r.accepted
  simp only [RecoveredState.check] at h
  split at h
  · simp at h
  split at h
  · simp at h
  next hcs =>
  split at h
  · simp at h
  split at h
  · simp at h
  next expected hn =>
  obtain ⟨hlt, rfl⟩ := checkedNext_eq_ok.mp hn
  simp only [bind, Except.bind] at h
  cases hk : RecoveredState.checkSuffix (r.snapshot.elim 0 (·.metadata.index) + 1)
      (r.snapshot.elim 0 (·.metadata.term)) r.entries with
  | error f => simp [hk] at h
  | ok u =>
    simp only [hk] at h
    obtain ⟨hcont, hterm, rfl, hb⟩ := RaftLog.checkSuffix_eq_ok hk (by omega)
    split at h
    · simp at h
    · next hterm' =>
      split at h
      · simp at h
      · next hlast =>
        refine ⟨⟨?_, hcont, hterm⟩, Nat.not_lt.mp hterm', Nat.not_lt.mp hcs, Nat.not_lt.mp hlast⟩
        simp only [RaftLog.fromRecovered, RaftLog.snapshotIndex]
        omega

end Ruft
