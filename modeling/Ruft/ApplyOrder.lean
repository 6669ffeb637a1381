import Ruft.Slots

set_option autoImplicit false

/-!
# The order of applies

Committed entries are handed to the state machine once each and in the order of their
indexes. A snapshot that is installed takes the place of the entries that it covers.
The order breaks when a snapshot overtakes an apply: the late completion of the apply
moves the applied index back.

## Main definitions

- `coveredThrough` — the highest index applied or covered by an installed snapshot
- `AppliesInOrder` — the law
- `ApplyAhead` — no snapshot has overtaken the apply that is reported
-/

namespace Ruft

variable {C : Type}

/-- The applies among the effects. -/
def applies (effects : List (Effect C)) : List (EffectId × List (Entry C)) :=
  effects.filterMap fun
    | .apply id entries => some (id, entries)
    | _ => none

/-- The entries that a step hands to the state machine. -/
def Record.applied (r : Record C) : List (Entry C) := (applies r.effects).flatMap (·.2)

/-- The index of the snapshot that the step installed: its completion emptied the slot. -/
def installedBy (c : RaftCore C) (event : Event C) (after : RaftCore C) : Option Nat :=
  match event, c.incomingSnapshotState with
  | .effectCompleted id (.snapshotInstalled _), some (.installing i record _ _) =>
    if i = id ∧ after.incomingSnapshotState = none then some record.metadata.index else none
  | _, _ => none

def Record.installed (r : Record C) : Option Nat := installedBy r.before r.event r.after

/-- The highest index applied, or covered by an installed snapshot. -/
def coveredThrough (init : RaftCore C) : List (Record C) → Nat
  | [] => init.appliedIndex
  | r :: earlier => r.applied.getLast?.elim
      (max (coveredThrough init earlier) (r.installed.getD 0)) (·.index)

/-- The applies that were returned and not yet reported. -/
def outstandingApplies (history : List (Record C)) : List EffectId :=
  ((applies (returnedEffects history)).map (·.1)).filter fun id => !history.any (·.reports id)

/-- Everything below the first log index is applied. -/
def RaftCore.AppliedBelow (c : RaftCore C) : Prop :=
  ∀ first, c.log.firstIndex = .ok first → first ≤ c.appliedIndex + 1

/-- The law. -/
structure AppliesInOrder (init : RaftCore C) (history : List (Record C)) : Prop where
  monotone : ∀ r ∈ history, r.before.appliedIndex ≤ r.after.appliedIndex
  below : ∀ r ∈ history, r.after.AppliedBelow
  single : (outstandingApplies history).length ≤ 1
  consecutive : Meets (fun earlier r => (∀ a ∈ applies r.effects, a.2 ≠ []) ∧
    Contiguous (max (coveredThrough init earlier) (r.installed.getD 0) + 1) r.applied) history

/-- The apply that is reported reaches at least the applied index. -/
def ApplyAhead : Condition C := fun _ c event => Room c ∧
  match event with
  | .effectCompleted id (.applied _) => ∀ pending, c.pendingApply = some pending →
      pending.id = id → c.appliedIndex ≤ pending.through
  | _ => True

/-! ## What acts do to the applied index -/

/-- The index up to which a local snapshot in progress reaches. -/
def LocalSnapshotState.through : LocalSnapshotState → Nat
  | .idle => 0
  | .building _ through => through
  | .persisting _ record | .compacting _ record => record.metadata.index

inductive ApplyAct (c : RaftCore C) (event : Event C) (s : Ctx C) : Prop
  | quiet (pending : s.core.pendingApply = c.pendingApply)
      (applied : s.core.appliedIndex = c.appliedIndex)
      (installed : installedBy c event s.core = none)
      (snapshot : s.core.log.snapshotIndex = c.log.snapshotIndex ∨
        s.core.log.snapshotIndex = c.localSnapshot.through)
      (building : s.core.localSnapshot.through ≤ c.localSnapshot.through)
  | applied (id : EffectId) (pending : PendingApply)
      (is : event = .effectCompleted id (.applied pending.through))
      (found : c.pendingApply = some pending) (mine : pending.id = id)
      (cleared : s.core.pendingApply = none) (now : s.core.appliedIndex = pending.through)
      (snapshot : s.core.log.snapshotIndex = c.log.snapshotIndex)
      (building : s.core.localSnapshot = c.localSnapshot)
  | installed (index : Nat) (pending : s.core.pendingApply = c.pendingApply)
      (now : s.core.appliedIndex = max c.appliedIndex index)
      (installed : installedBy c event s.core = some index)
      (snapshot : s.core.log.snapshotIndex = index)
      (building : s.core.localSnapshot = c.localSnapshot)

theorem applies_eq_nil {effects : List (Effect C)}
    (h : ∀ e ∈ effects, e.id? = none) : applies effects = [] := by
  rw [applies, List.filterMap_eq_nil_iff]
  intro e he
  have := h e he
  cases e <;> simp_all [Effect.id?]

theorem CompletionAct.apply [Sha256] {c : RaftCore C} (h : c.WF) {id : EffectId}
    {outcome : EffectOutcome} {s : Ctx C} (act : CompletionAct c id outcome s) :
    ApplyAct c (.effectCompleted id outcome) s ∧ applies s.effects = [] := by
  cases act with
  | rejected =>
    refine ⟨.quiet rfl rfl ?_ (.inl rfl) le_rfl, rfl⟩
    unfold installedBy
    split
    · next hi => simp [hi]
    · rfl
  | installed snapshotId record from_ term log found install =>
    rw [h.log.installSnapshot, Except.ok.injEq] at install
    refine ⟨.installed record.metadata.index rfl rfl ?_ ?_ rfl, rfl⟩
    · simp [installedBy, found]
    · rw [← install]
      simp [RaftCore.installed, RaftLog.snapshotIndex]
  | built metadata snapshotRef through found valid =>
    refine ⟨.quiet rfl rfl rfl (.inl rfl) ?_, rfl⟩
    simp [LocalSnapshotState.through, found, valid.1]
  | recordPersisted record found =>
    refine ⟨.quiet rfl rfl rfl (.inl rfl) ?_, rfl⟩
    simp [LocalSnapshotState.through, found]
  | compacted record log found compact =>
    obtain ⟨-, -, rfl⟩ := h.log.compact_eq_ok compact
    refine ⟨.quiet rfl rfl rfl (.inr ?_) (Nat.zero_le _), rfl⟩
    simp [LocalSnapshotState.through, found, RaftLog.snapshotIndex]
  | compactFailed => exact ⟨.quiet rfl rfl rfl (.inl rfl) (Nat.zero_le _), rfl⟩
  | applyDone pending found mine =>
    refine ⟨.applied id pending rfl found mine rfl rfl rfl rfl, ?_⟩
    simp [Ctx.answered, applies, List.filterMap_flatMap, List.filterMap_map]
  | votesRequested => exact ⟨.quiet rfl rfl rfl (.inl rfl) le_rfl, applies_eq_nil (id?_toPeers _ _)⟩
  | _ => exact ⟨.quiet rfl rfl rfl (.inl rfl) le_rfl, rfl⟩

theorem Act.apply [Sha256] {c : RaftCore C} (h : c.WF) {event : Event C} {s : Ctx C}
    (act : Act c event s) : ApplyAct c event s ∧ applies s.effects = [] := by
  cases act with
  | preVoteStarted => exact ⟨.quiet rfl rfl rfl (.inl rfl) le_rfl, applies_eq_nil (id?_toPeers _ _)⟩
  | message envelope members s known mine act =>
    generalize envelope.message = m at act
    cases act with
    | appendAccepted term prev prevTerm leaderCommit context entries log appended hardState reached
        prefix_ run merge =>
      refine ⟨.quiet rfl rfl rfl (.inl ?_) le_rfl, rfl⟩
      simp only [RaftLog.snapshotIndex, Ctx.queued, RaftCore.merged, merge.snapshot_eq]
    | _ => exact ⟨.quiet rfl rfl rfl (.inl rfl) le_rfl, rfl⟩
  | readStarted readId =>
    obtain ⟨round, hr⟩ := Ctx.roundStarted_core ⟨c, []⟩ readId
    refine ⟨.quiet (by rw [hr]) (by rw [hr]) rfl (.inl (by rw [hr])) (by rw [hr]), ?_⟩
    rcases Ctx.roundStarted_effects ⟨c, []⟩ readId with he | ⟨context, he⟩
    · rw [he]; rfl
    · rw [he, List.nil_append]
      exact applies_eq_nil (id?_toPeers _ _)
  | completed id outcome s act => exact act.apply h
  | ignored event =>
    refine ⟨.quiet rfl rfl ?_ (.inl rfl) le_rfl, rfl⟩
    unfold installedBy
    split
    · next hi => simp [hi]
    · rfl
  | _ => exact ⟨.quiet rfl rfl rfl (.inl rfl) le_rfl, rfl⟩

/-! ## The law along runs -/

/-- How far the entries handed out so far reach. A slot whose apply was lost in a step that
failed stands for nothing. -/
def Reached (effects : List (Effect C)) (c : RaftCore C) (through : Nat) : Prop :=
  match c.pendingApply with
  | none => c.appliedIndex = through
  | some p => ((∃ e ∈ effects, e.id? = some p.id) ∧ max c.appliedIndex p.through = through) ∨
      ((∀ e ∈ effects, e.id? ≠ some p.id) ∧ c.appliedIndex = through)

/-- The invariant between the steps. -/
structure Applying (init : RaftCore C) (history : List (Record C)) (c : RaftCore C) : Prop where
  law : AppliesInOrder init history
  slots : SlotsMatch (returnedEffects history) c
  snapshot : c.log.snapshotIndex ≤ c.appliedIndex
  building : c.localSnapshot.through ≤ c.appliedIndex
  reached : Reached (returnedEffects history) c (coveredThrough init history)
  held : ∀ id ∈ outstandingApplies history, ∃ p, c.pendingApply = some p ∧ p.id = id

/-- The invariant in the middle of a step: nothing was handed out in it yet, or one apply. -/
structure StillApplying (init : RaftCore C) (history : List (Record C)) (c : RaftCore C)
    (event : Event C) (s : Ctx C) : Prop where
  law : AppliesInOrder init history
  slots : SlotsMatch (returnedEffects history ++ s.effects) s.core
  snapshot : s.core.log.snapshotIndex ≤ s.core.appliedIndex
  building : s.core.localSnapshot.through ≤ s.core.appliedIndex
  forward : c.appliedIndex ≤ s.core.appliedIndex
  held : ∀ id ∈ outstandingApplies history, (∃ outcome, event = .effectCompleted id outcome) ∨
    ∃ p, s.core.pendingApply = some p ∧ p.id = id
  reached : (applies s.effects = [] ∧ Reached (returnedEffects history) s.core
      (max (coveredThrough init history) ((installedBy c event s.core).getD 0))) ∨
    ∃ p entries, s.core.pendingApply = some p ∧ applies s.effects = [(p.id, entries)] ∧
      s.core.appliedIndex =
        max (coveredThrough init history) ((installedBy c event s.core).getD 0) ∧
      Contiguous (s.core.appliedIndex + 1) entries ∧
      ∃ last, entries.getLast? = some last ∧ last.index = p.through

variable {init : RaftCore C} {history : List (Record C)}

theorem outstandingApplies_allowed {id : EffectId} {through : Nat}
    (allowed : Allowed history (.effectCompleted id (.applied through))) :
    ∃ e ∈ returnedEffects history, e.id? = some id := by
  obtain ⟨r, hr, e, he, reports⟩ := allowed
  refine ⟨e, mem_returnedEffects.mpr ⟨r, hr, he⟩, ?_⟩
  cases reports
  rfl

theorem StillApplying.of_act [Sha256] {c : RaftCore C} {event : Event C} {s : Ctx C}
    (hs : Steps ApplyAhead history c event) (h : Applying init history c) (act : Act c event s) :
    StillApplying init history c event s := by
  obtain ⟨apply, silent⟩ := act.apply hs.wf
  have slots : SlotsMatch (returnedEffects history ++ s.effects) s.core :=
    SlotsMatch.slotted (s := ⟨c, []⟩) (by simpa using h.slots) act.slotted
  have reached := h.reached
  unfold Reached at reached
  cases apply with
  | quiet pending applied installed snapshot building =>
    have hb := h.building
    have hs := h.snapshot
    refine ⟨h.law, slots, by omega, by omega, applied.ge, ?_, .inl ⟨silent, ?_⟩⟩
    · rw [pending]
      exact fun id hid => .inr (h.held id hid)
    · rw [installed, Option.getD_none, Nat.max_zero, Reached, pending, applied]
      exact reached
  | applied id pending is found mine cleared now snapshot building =>
    subst is
    have ahead : c.appliedIndex ≤ pending.through := hs.meets.2 pending found mine
    have covered : pending.through = coveredThrough init history := by
      obtain ⟨e, he, hid⟩ := outstandingApplies_allowed hs.allowed
      rw [found] at reached
      rcases reached with ⟨-, hmax⟩ | ⟨lost, -⟩
      · omega
      · exact absurd (mine ▸ hid) (lost e he)
    refine ⟨h.law, slots, ?_, ?_, ?_, ?_, .inl ⟨silent, ?_⟩⟩
    · have := h.snapshot
      omega
    · have := h.building
      rw [building]
      omega
    · omega
    · intro i hi
      obtain ⟨p, hp, rfl⟩ := h.held i hi
      obtain rfl : pending = p := by simpa [found] using hp
      exact .inl ⟨_, by rw [mine]⟩
    · rw [Reached, cleared, now, covered]
      simp [installedBy]
  | installed index pending now installed snapshot building =>
    have hsn := h.snapshot
    have hbu := h.building
    refine ⟨h.law, slots, by omega, by rw [building]; omega, by omega, ?_, .inl ⟨silent, ?_⟩⟩
    · rw [pending]
      exact fun id hid => .inr (h.held id hid)
    · rw [installed, Option.getD_some, Reached, pending, now]
      cases hp : c.pendingApply with
      | none =>
        simp only [hp] at reached ⊢
        rw [reached]
      | some p =>
        simp only [hp] at reached ⊢
        rcases reached with ⟨handed, hmax⟩ | ⟨lost, heq⟩
        · exact .inl ⟨handed, by omega⟩
        · exact .inr ⟨lost, by rw [heq]⟩

theorem StillApplying.followUp {c : RaftCore C} {event : Event C} {s s' : Ctx C}
    (settled : s.core.WF ∨ s.core.Overflowed) (h : StillApplying init history c event s)
    (hf : FollowUp ⟨c, event⟩ s s') : StillApplying init history c event s' := by
  have frame := hf.frame
  have slots := h.slots.slotted (hf.slotted settled)
  have snapshot : s'.core.log.snapshotIndex ≤ s'.core.appliedIndex := by
    rw [frame.applied, RaftLog.snapshotIndex, frame.snapshot]
    exact h.snapshot
  have forward : c.appliedIndex ≤ s'.core.appliedIndex := frame.applied ▸ h.forward
  have installed : installedBy c event s'.core = installedBy c event s.core := by
    unfold installedBy
    rw [frame.incoming]
  have quiet : s'.core.pendingApply = s.core.pendingApply →
      applies s'.effects = applies s.effects →
      s'.core.localSnapshot.through ≤ s'.core.appliedIndex →
      StillApplying init history c event s' := by
    intro pending silent building
    refine ⟨h.law, slots, snapshot, building, forward, ?_, ?_⟩
    · rw [pending]
      exact h.held
    · rw [silent, installed, Reached, pending, frame.applied]
      exact h.reached
  have building : s'.core.localSnapshot = s.core.localSnapshot →
      s'.core.localSnapshot.through ≤ s'.core.appliedIndex := by
    intro same
    rw [same, frame.applied]
    exact h.building
  cases hf with
  | applied entries noPersist noApply behind range =>
    have wf : s.core.WF := settled.resolve_right fun beyond => by
      have := beyond.applied
      omega
    obtain ⟨last, hlast, hindex⟩ := wf.log.range_getLast range
    rcases h.reached with ⟨silent, reached⟩ | ⟨p, entries', pending, -⟩
    · rw [Reached, noApply] at reached
      refine ⟨h.law, slots, snapshot, building rfl, forward, ?_, .inr ⟨_, entries, rfl, ?_, reached,
        (wf.log.range_contiguous range).1, last, hlast, hindex⟩⟩
      · intro id hid
        refine (h.held id hid).imp_right ?_
        rintro ⟨p, hp, -⟩
        simp [noApply] at hp
      · simpa [applies] using silent
    · simp [noApply] at pending
  | buildRequested => exact quiet rfl (by simp [applies]) le_rfl
  | appendSent | chunkRequested | committed =>
    exact quiet rfl (by simp [applies, Ctx.queued]) (building rfl)
  | readReleased => exact quiet rfl (by simp [applies, List.filterMap_map]) (building rfl)
  | readStarted readId rest =>
    obtain ⟨round, hr⟩ :=
      Ctx.roundStarted_core ⟨{ s.core with pendingReads := rest }, s.effects⟩ readId
    refine quiet (by rw [hr]) ?_ (building (by rw [hr]))
    rcases Ctx.roundStarted_effects ⟨{ s.core with pendingReads := rest }, s.effects⟩ readId with
      he | ⟨context, he⟩
    · rw [he]
    · rw [he, applies, List.filterMap_append]
      have : applies (Ctx.readHeartbeats { s.core with pendingReads := rest } context) = [] :=
        applies_eq_nil (id?_toPeers _ _)
      rw [applies] at this
      rw [this, List.append_nil, applies]
  | _ => exact quiet rfl rfl (building rfl)

theorem RaftCore.appliedBelow_of_snapshot {c : RaftCore C}
    (h : c.log.snapshotIndex ≤ c.appliedIndex) : c.AppliedBelow := by
  intro first hf
  unfold RaftLog.firstIndex at hf
  unfold RaftLog.snapshotIndex at h
  cases hs : c.log.snapshot with
  | none =>
    simp only [hs, Except.ok.injEq] at hf
    omega
  | some record =>
    simp only [hs, expectNext, Option.elim_some] at hf h
    cases hn : checkedNext record.metadata.index with
    | error e => simp [hn, Outcome.panic] at hf
    | ok m =>
      simp only [hn, Except.ok.injEq] at hf
      have := (checkedNext_eq_ok.mp hn).2
      omega

theorem applies_append (es fs : List (Effect C)) : applies (es ++ fs) = applies es ++ applies fs :=
  List.filterMap_append

theorem mem_applies {effects : List (Effect C)} {id : EffectId} {entries : List (Entry C)} :
    (id, entries) ∈ applies effects ↔ .apply id entries ∈ effects := by
  rw [applies, List.mem_filterMap]
  constructor
  · rintro ⟨e, he, heq⟩
    cases e <;> simp only [reduceCtorEq, Option.some.injEq, Prod.mk.injEq] at heq
    obtain ⟨rfl, rfl⟩ := heq
    exact he
  · exact fun he => ⟨_, he, rfl⟩

theorem applies_sublist (effects : List (Effect C)) :
    ((applies effects).map (·.1)).Sublist (effects.filterMap Effect.id?) := by
  induction effects with
  | nil => exact .slnil
  | cons e es ih =>
    cases e <;> simp only [applies, List.filterMap_cons, Effect.id?] at ih ⊢ <;>
      first | exact ih | exact ih.cons _ | exact ih.cons_cons _

theorem mem_outstandingApplies {id : EffectId} : id ∈ outstandingApplies history ↔
    (∃ entries, (id, entries) ∈ applies (returnedEffects history)) ∧
      (history.any (·.reports id)) = false := by
  simp [outstandingApplies, List.mem_filter]

theorem outstandingApplies_silent {r : Record C} (silent : r.effects = []) :
    (outstandingApplies (r :: history)).Sublist (outstandingApplies history) := by
  unfold outstandingApplies
  rw [returnedEffects_cons, silent, List.append_nil]
  refine List.monotone_filter_right _ fun id h => ?_
  simp only [List.any_cons, Bool.not_or, Bool.and_eq_true] at h
  exact h.2

theorem length_le_one {α : Type} {l : List α} (nodup : l.Nodup) {a : α} (h : ∀ b ∈ l, b = a) :
    l.length ≤ 1 := by
  match l with
  | [] => simp
  | [b] => simp
  | b :: d :: rest =>
    have hb := h b (by simp)
    have hd := h d (by simp)
    simp [hb, hd] at nodup

/-- A step that hands nothing out keeps the law. -/
theorem AppliesInOrder.silent (h : AppliesInOrder init history) {r : Record C}
    (silent : r.effects = []) (forward : r.before.appliedIndex ≤ r.after.appliedIndex)
    (below : r.after.AppliedBelow) : AppliesInOrder init (r :: history) where
  monotone := List.forall_mem_cons.mpr ⟨forward, h.monotone⟩
  below := List.forall_mem_cons.mpr ⟨below, h.below⟩
  single := (outstandingApplies_silent silent).length_le.trans h.single
  consecutive := by
    refine ⟨?_, h.consecutive⟩
    simp [Record.applied, silent, applies, Contiguous]

/-- The slot still holds what is outstanding after the step. -/
theorem StillApplying.holds {c : RaftCore C} {event : Event C} {s : Ctx C}
    (h : StillApplying init history c event s) {r : Record C} (is : r.event = event)
    (returned : r.effects = s.effects ∨ r.effects = []) :
    ∀ id ∈ outstandingApplies (r :: history), ∃ p, s.core.pendingApply = some p ∧ p.id = id := by
  intro id hid
  obtain ⟨⟨entries, he⟩, unreported⟩ := mem_outstandingApplies.mp hid
  simp only [List.any_cons, Bool.or_eq_false_iff] at unreported
  rw [returnedEffects_cons, applies_append, List.mem_append] at he
  rcases he with he | he
  · rcases h.held id (mem_outstandingApplies.mpr ⟨⟨entries, he⟩, unreported.2⟩) with
      ⟨outcome, hev⟩ | hp
    · simp [Record.reports, is, hev] at unreported
    · exact hp
  · rcases returned with hr | hr
    · rw [hr] at he
      rcases h.reached with ⟨silent, -⟩ | ⟨p, entries', hp, one, -⟩
      · simp [silent] at he
      · rw [one, List.mem_singleton, Prod.mk.injEq] at he
        exact ⟨p, hp, he.1.symm⟩
    · simp [hr, applies] at he

theorem StillApplying.returned {c : RaftCore C} {event : Event C} {s : Ctx C}
    (h : StillApplying init history c event s) (changed : Bool) :
    Applying init (⟨c, event, .ok ⟨s.effects, changed⟩, s.core⟩ :: history) s.core := by
  have held := h.holds (r := ⟨c, event, .ok ⟨s.effects, changed⟩, s.core⟩) rfl (.inl rfl)
  have slots : SlotsMatch (returnedEffects (⟨c, event, .ok ⟨s.effects, changed⟩, s.core⟩ :: history))
      s.core := by
    rw [returnedEffects_cons]
    exact h.slots
  have single : (outstandingApplies (⟨c, event, .ok ⟨s.effects, changed⟩, s.core⟩ ::
      history)).length ≤ 1 := by
    have nodup := (slots.distinct.sublist (applies_sublist _)).filter fun id =>
      !(Record.mk c event (.ok ⟨s.effects, changed⟩) s.core :: history).any (·.reports id)
    -- whatever is outstanding is the pending apply
    cases hp : s.core.pendingApply with
    | none =>
      refine length_le_one nodup (a := ⟨0, 0⟩) fun id hid => ?_
      obtain ⟨p, hp', -⟩ := held id hid
      simp [hp] at hp'
    | some p =>
      refine length_le_one nodup (a := p.id) fun id hid => ?_
      obtain ⟨p', hp', rfl⟩ := held id hid
      obtain rfl : p = p' := by simpa [hp] using hp'
      rfl
  have applied : Record.applied ⟨c, event, .ok ⟨s.effects, changed⟩, s.core⟩ =
      (applies s.effects).flatMap (·.2) := rfl
  refine ⟨⟨List.forall_mem_cons.mpr ⟨h.forward, h.law.monotone⟩, List.forall_mem_cons.mpr
    ⟨RaftCore.appliedBelow_of_snapshot h.snapshot, h.law.below⟩, single, ⟨?_, ?_⟩,
    h.law.consecutive⟩, slots, h.snapshot, h.building, ?_, held⟩
  · rcases h.reached with ⟨silent, -⟩ | ⟨p, entries, -, one, -, -, last, hlast, -⟩
    · simp [Record.effects, silent]
    · simp only [Record.effects, one, List.mem_singleton, forall_eq]
      rintro rfl
      simp at hlast
  · rcases h.reached with ⟨silent, -⟩ | ⟨p, entries, -, one, now, contiguous, -⟩
    · rw [applied, silent]
      trivial
    · rw [applied, one]
      rw [now] at contiguous
      simpa [Record.installed] using contiguous
  · rw [coveredThrough, applied, returnedEffects_cons]
    rcases h.reached with ⟨silent, reached⟩ | ⟨p, entries, hp, one, now, contiguous, last, hlast, hi⟩
    · rw [silent]
      show Reached _ _ (max (coveredThrough init history) ((installedBy c event s.core).getD 0))
      unfold Reached at reached ⊢
      cases hp : s.core.pendingApply with
      | none => simpa only [hp] using reached
      | some p =>
        simp only [hp] at reached ⊢
        rcases reached with ⟨⟨e, he, hid⟩, hmax⟩ | ⟨lost, heq⟩
        · exact .inl ⟨⟨e, List.mem_append_left _ he, hid⟩, hmax⟩
        · refine .inr ⟨fun e he hid => ?_, heq⟩
          rcases List.mem_append.mp he with he | he
          · exact lost e he hid
          · obtain ⟨entries, last, rfl, -⟩ := h.slots.fits _ _ (.apply p hp) e
              (List.mem_append_right _ he) hid
            have hmem : (p.id, entries) ∈ applies s.effects := mem_applies.mpr he
            simp [silent] at hmem
    · rw [one]
      unfold Reached
      simp only [hp, List.flatMap_cons, List.flatMap_nil, List.append_nil, hlast, Option.elim_some]
      have hmem : (p.id, entries) ∈ applies s.effects := by rw [one]; simp
      refine .inl ⟨⟨_, List.mem_append_right _ (mem_applies.mp hmem), rfl⟩, ?_⟩
      have := contiguous.getLast? hlast
      have : 0 < entries.length := List.length_pos_of_ne_nil (by rintro rfl; simp at hlast)
      omega

theorem StillApplying.failed {c : RaftCore C} {event : Event C} {s : Ctx C}
    (h : StillApplying init history c event s) (e : StepError) :
    Applying init (⟨c, event, Outcome.raise e, s.core⟩ :: history) s.core := by
  refine ⟨h.law.silent rfl h.forward (RaftCore.appliedBelow_of_snapshot h.snapshot), ?_, h.snapshot,
    h.building, ?_, h.holds rfl (.inr rfl)⟩
  · rw [returnedEffects_cons]
    exact h.slots.anti (List.Sublist.append_left (List.nil_sublist _) _)
  · have hcov : coveredThrough init (⟨c, event, Outcome.raise e, s.core⟩ :: history) =
        max (coveredThrough init history) ((installedBy c event s.core).getD 0) := rfl
    have heff : returnedEffects (⟨c, event, Outcome.raise e, s.core⟩ :: history) =
        returnedEffects history := by
      rw [returnedEffects_cons]
      exact List.append_nil _
    rw [hcov, heff]
    rcases h.reached with ⟨-, reached⟩ | ⟨p, entries, hp, one, now, -⟩
    · exact reached
    · unfold Reached
      simp only [hp]
      refine .inr ⟨fun e' he' hid => ?_, now⟩
      -- The id of the lost apply was given out in this step.
      have distinct := h.slots.distinct
      rw [List.filterMap_append, List.nodup_append] at distinct
      have hmem : .apply p.id entries ∈ s.effects := mem_applies.mp (by rw [one]; simp)
      exact distinct.2.2 p.id (List.mem_filterMap.mpr ⟨e', he', hid⟩) p.id
        (List.mem_filterMap.mpr ⟨_, hmem, rfl⟩) rfl

theorem applying_keeps [Sha256] (init : RaftCore C) :
    Keeps ApplyAhead (Applying init) (StillApplying init) fun history c =>
      AppliesInOrder init history ∧ c.AppliedBelow where
  act hs h act := .of_act hs h act
  followUp hs act rest h hf := h.followUp (act.settled hs.wf rest) hf
  finished := by
    intro history c event s _ h
    obtain ⟨proposals, hp⟩ := s.finished_core c
    have silent : applies (s.finished c).effects = applies s.effects := by
      unfold Ctx.finished
      split
      · simp [Ctx.answered, applies, List.filterMap_flatMap, List.filterMap_map]
      · rfl
    refine ⟨h.law, h.slots.slotted (finished_slotted c s), ?_, ?_, ?_, ?_, ?_⟩
    · rw [hp]; exact h.snapshot
    · rw [hp]; exact h.building
    · rw [hp]; exact h.forward
    · rw [hp]; exact h.held
    · rw [silent, hp]; exact h.reached
  returned changed _ h := h.returned changed
  failed e _ h _ := h.failed e
  safe h := ⟨h.law, RaftCore.appliedBelow_of_snapshot h.snapshot⟩
  ended := by
    intro history c event s e reason _ h
    have below : (s.core.stop reason).AppliedBelow := RaftCore.appliedBelow_of_snapshot h.snapshot
    exact ⟨h.law.silent rfl h.forward below, below⟩
  halted := by
    intro history c c' event e reason _ h hhalt
    obtain ⟨_, _, _, _, _, _, _, rfl⟩ := hhalt
    have below : c.AppliedBelow := RaftCore.appliedBelow_of_snapshot h.snapshot
    exact ⟨h.law.silent rfl le_rfl below, below⟩
  idle := by
    intro history c event result _ silent h
    exact ⟨h.1.silent silent le_rfl h.2, h.2⟩

/-- Entries are applied once each and in order along every run in which no snapshot overtakes
an apply. -/
theorem applies_in_order [Sha256] (config : Config) (recovered : RecoveredState C)
    {history : List (Record C)} {c : RaftCore C}
    (run : Trace (RaftCore.new config recovered) history c) (ahead : Holds ApplyAhead history) :
    AppliesInOrder (RaftCore.new config recovered) history := by
  refine (Trace.invariant (applying_keeps _) (fun _ _ _ h => h.1) (RaftCore.new_wf config recovered)
    ⟨⟨?_, ?_, ?_, trivial⟩, RaftCore.new_slots config recovered, ?_, ?_, rfl, ?_⟩ run ahead).1.1
  · simp
  · simp
  · simp [outstandingApplies, returnedEffects, applies]
  · exact le_rfl
  · exact Nat.zero_le _
  · simp [outstandingApplies, returnedEffects, applies]

/-- `ApplyAhead` as a check. -/
def applyAheadCheck (c : RaftCore C) (event : Event C) : Bool :=
  Room c && match event with
    | .effectCompleted id (.applied _) =>
      c.pendingApply.all fun pending => pending.id ≠ id || c.appliedIndex ≤ pending.through
    | _ => true

theorem applyAhead_of_check (history : List (Record C)) (c : RaftCore C) (event : Event C)
    (h : applyAheadCheck c event = true) : ApplyAhead history c event := by
  unfold applyAheadCheck at h
  rw [Bool.and_eq_true] at h
  refine ⟨of_decide_eq_true h.1, ?_⟩
  split
  · intro pending found mine
    simpa [found, mine] using h.2
  · trivial

/-- The apply completes before the snapshot is installed. -/
def appliedFirst : List (Move Nat) := Script.receiveSnapshot ++
  [Script.applied 3 3 1, Script.done 3 6 (.snapshotInstalled 7)]

theorem applies_in_order_installing : ∃ w : World Nat,
    @Run Nat sha256Empty trio w.history (w.core trio) ∧ (w.core trio 3).appliedIndex = 2 ∧
    AppliesInOrder (trio 3) (localHistory w.history 3) := by
  let _ : Sha256 := sha256Empty
  obtain ⟨w, run, checked⟩ := World.exec_any trio appliedFirst
    (fun w => (w.core trio 3).appliedIndex = 2 &&
      (localHistory w.history 3).all fun r => applyAheadCheck r.before r.event)
    (by decide +kernel)
  rw [Bool.and_eq_true] at checked
  refine ⟨w, run, of_decide_eq_true checked.1, ?_⟩
  exact applies_in_order (trioConfig 3 (by decide)) .initial (run.trace 3)
    (Holds.of_all applyAhead_of_check checked.2)

/-- The snapshot is installed while the apply of index 1 is outstanding. -/
def installedFirst : List (Move Nat) := Script.receiveSnapshot ++
  [Script.done 3 6 (.snapshotInstalled 7), Script.applied 3 3 1]

theorem apply_overtaken : ¬ ∀ (history : List (NodeId × Record Nat)) (cores : NodeId → RaftCore Nat),
    @Run Nat sha256Empty trio history cores →
    AppliesInOrder (trio 3) (localHistory history 3) := by
  let _ : Sha256 := sha256Empty
  intro h
  obtain ⟨w, run, bad⟩ := World.exec_any trio installedFirst
    (fun w => (localHistory w.history 3).any fun r => r.after.appliedIndex < r.before.appliedIndex)
    (by decide +kernel)
  obtain ⟨r, hr, hlt⟩ := List.any_eq_true.mp bad
  exact absurd ((h _ _ run).monotone r hr) (Nat.not_le.mpr (of_decide_eq_true hlt))

end Ruft
