import Ruft.StateMachines

set_option autoImplicit false

/-!
# Cores that wait for nothing

Every step that returns ends with an attempt to hand out what is committed. A core that waits
neither for a write nor for an apply has nothing left: its state machine was handed exactly what
the core has committed. Before that it was handed an initial part of it.

## Main definitions

- `RaftCore.Waits` — a write or an apply is pending

## Main results

- `idle_cores_caught_up` — without snapshots, what is handed out is what is committed
-/

namespace Ruft

open Program StepM ReplicatedLog

variable {C : Type}

/-- A write or an apply is pending. -/
def RaftCore.Waits (c : RaftCore C) : Prop :=
  c.pendingPersist.isSome ∨ c.pendingApply.isSome

instance (c : RaftCore C) : Decidable c.Waits := inferInstanceAs (Decidable (_ ∨ _))

/-! ## One step -/

theorem emitApplyIfNeeded_waits {s t : Ctx C}
    (run : (emitApplyIfNeeded : StepM C Unit) s = (.ok (), t)) :
    t.core.Waits ∨ t.core.hardState.commitIndex ≤ t.core.appliedIndex := by
  unfold emitApplyIfNeeded at run
  rw [bind_run_ok (core_run _)] at run
  split at run
  · next done =>
    obtain ⟨-, rfl⟩ := Prod.mk.inj run
    exact or_assoc.mpr done
  obtain ⟨from_, s₁, counted, run⟩ := bind_eq_ok run
  obtain ⟨-, rfl⟩ := lift_eq_ok counted
  obtain ⟨entries, s₂, ranged, run⟩ := bind_eq_ok run
  obtain ⟨-, rfl⟩ := lift_eq_ok ranged
  by_cases room : s.core.nextEffectSequence < u64Max
  · rw [bind_run_ok (nextEffectId_run room), bind_run_ok (update_run _ _)] at run
    obtain ⟨-, rfl⟩ := Prod.mk.inj run
    exact .inl (.inr rfl)
  · rw [bind_run_error (nextEffectId_overflow room)] at run
    simp at run

/-- After a step that returns, a core waits or has applied what it has committed. -/
theorem step_waits [Sha256] {c d : RaftCore C} {event : Event C} {output : StepOutput C}
    (running : c.stopped = false) (run : step c event = (.ok output, d)) :
    d.Waits ∨ d.hardState.commitIndex ≤ d.appliedIndex := by
  rw [step_eq running] at run
  obtain ⟨s, processed, -, rfl, -⟩ := conclude_eq_ok run
  obtain ⟨-, t, -, emitted⟩ := bind_eq_ok processed
  obtain ⟨proposals, finished⟩ := s.finished_core c
  rw [finished]
  exact emitApplyIfNeeded_waits emitted

/-! ## One core -/

theorem length_handed (steps : List (Record C)) :
    (steps.reverse.flatMap Record.applied).length = handedOut steps := by
  simp [handedOut, List.length_flatMap]

/-- What was committed stays at the front of what is. -/
theorem Record.Steady.committedLog {r : Record C} (steady : r.Steady) :
    r.before.committedLog <+: r.after.committedLog := by
  rw [RaftCore.committedLog, ← steady.keeps]
  exact List.take_prefix_take_left steady.commits

section Core

variable [Sha256] {config : Config} {steps : List (Record C)} {c : RaftCore C}

/-- A running core has handed out an initial part of what it has committed. -/
theorem Trace.hands_committed (run : Trace (RaftCore.new config .initial) steps c)
    (plain : Holds Snapshotless steps) (behaves : ∀ r ∈ steps, r.Behaves)
    (stand : ∀ r ∈ steps, ∀ e ∈ r.applied, r.after.committedLog[e.index - 1]? = some e)
    (running : c.stopped = false) : steps.reverse.flatMap Record.applied <+: c.committedLog := by
  have handsOn := (run.handsOn plain behaves).2
  induction run with
  | start => exact List.nil_prefix
  | @step steps c d event result earlier allowed run returns ih =>
    obtain ⟨behaved, behaves⟩ := List.forall_mem_cons.mp behaves
    obtain ⟨stands, stand⟩ := List.forall_mem_cons.mp stand
    have goesOn := step_running run running
    have earlier_ := ih plain.2 behaves stand goesOn handsOn.2
    obtain ⟨wf, bare, -, bounded⟩ := earlier.within plain.2 goesOn
    have steady := behaved.steady wf bounded bare.log
      ((wf.step goesOn run returns).resolve_left (by simp [running]))
    have next := handsOn.1.initial_drop stands
    rw [← length_handed steps] at next
    rw [List.reverse_cons, List.flatMap_append, List.flatMap_singleton]
    exact append_initial (earlier_.trans steady.committedLog) next

end Core

/-! ## The cluster -/

theorem handedTo_handovers (node : NodeId) (history : List (NodeId × Record C)) :
    handedTo node (handovers history) =
      (localHistory history node).reverse.flatMap Record.applied := by
  induction history with
  | nil => rfl
  | cons p history ih =>
    obtain ⟨n, r⟩ := p
    by_cases mine : n = node
    · subst mine
      rw [localHistory_cons_self, List.reverse_cons, List.flatMap_append, List.flatMap_singleton, ← ih]
      exact if_pos rfl
    · rw [localHistory_cons_of_ne mine, ← ih]
      exact if_neg mine

section Cluster

variable [Sha256] {config : NodeId → Config} {members : List NodeId}
  {history : List (NodeId × Record C)} {cores : NodeId → RaftCore C}

theorem Cluster.hands_committed (h : Cluster config members history cores) {node : NodeId}
    (running : (cores node).stopped = false) :
    handedTo node (handovers history) <+: (cores node).committedLog := by
  rw [handedTo_handovers]
  refine (h.run.trace node).hands_committed (h.run.snapshotless h.unbuilt h.room node)
    (fun _ hr => h.behaves (mem_localHistory.mp hr)) (fun r hr e applied => ?_) running
  exact h.applies_committed (mem_localHistory.mp hr) (List.prefix_refl _) applied

/-- A core that waits for nothing after a step that returned. -/
theorem Cluster.caught_up (h : Cluster config members history cores) {node : NodeId}
    (running : (cores node).stopped = false) (idle : ¬ (cores node).Waits) {r : Record C}
    {earlier : List (Record C)} (last : localHistory history node = r :: earlier)
    {output : StepOutput C} (returned : r.result = .ok output) :
    (cores node).appliedIndex = (cores node).log.committed ∧
      handedTo node (handovers history) = (cores node).committedLog := by
  have trace := h.run.trace node
  have before := trace.running_before running r (last ▸ List.mem_cons_self ..)
  obtain ⟨wf, -⟩ := trace.within (h.run.snapshotless h.unbuilt h.room node) running
  obtain ⟨above, below⟩ := h.handedOut_bounds running
  -- the last step ended with an attempt to hand out what was left
  have done : (cores node).hardState.commitIndex ≤ (cores node).appliedIndex := by
    rw [last] at trace
    cases trace with
    | step _ _ run =>
      obtain rfl : _ = Except.ok output := returned
      exact (step_waits before run).resolve_left idle
  have committed := wf.committed
  refine ⟨by omega, (h.hands_committed running).eq_of_length_le ?_⟩
  rw [handedTo_handovers, length_handed]
  exact (List.length_take_le _ _).trans (by omega)

end Cluster

/-- Without snapshots, what the state machine of a running core was handed is an initial part of
what the core has committed. When its last step returned and it waits for no write and no apply,
it has applied all that it has committed, and its state machine was handed exactly that. -/
theorem idle_cores_caught_up [Sha256] (config : NodeId → Config) (members : List NodeId)
    (common : ∀ node, (config node).members = members) {history : List (NodeId × Record C)}
    {cores : NodeId → RaftCore C}
    (run : Run (fun node => RaftCore.new (config node) .initial) history cores)
    (unbuilt : NeverBuilt history) (room : ∀ p ∈ history, Room p.2.before) :
    ∀ node, (cores node).stopped = false →
      handedTo node (handovers history) <+: (cores node).committedLog ∧
      (¬ (cores node).Waits → ∀ r earlier, localHistory history node = r :: earlier →
        (∃ output, r.result = .ok output) →
        (cores node).appliedIndex = (cores node).log.committed ∧
          handedTo node (handovers history) = (cores node).committedLog) := by
  intro node running
  have cluster : Cluster config members history cores := ⟨run, common, unbuilt, room⟩
  refine ⟨cluster.hands_committed running, ?_⟩
  rintro idle r earlier last ⟨output, returned⟩
  exact cluster.caught_up running idle last returned

/-- Node 1 has applied its three entries and waits for nothing. -/
theorem idle_cores_caught_up_three : ∃ w : World Nat,
    @Run Nat sha256Empty trio w.history (w.core trio) ∧
    (w.core trio 1).appliedIndex = 3 ∧ (w.core trio 1).stopped = false ∧
    handedTo 1 (handovers w.history) = (w.core trio 1).committedLog := by
  let _ : Sha256 := sha256Empty
  obtain ⟨w, run, checked⟩ := World.exec_any trio commitThree
    (fun w => ((w.core trio 1).appliedIndex = 3) && (!(w.core trio 1).stopped &&
        (decide (¬ (w.core trio 1).Waits) &&
        ((localHistory w.history 1).head?.any fun r => r.result.toOption.isSome))) &&
      ((w.history.all fun p => !p.2.built) && w.history.all fun p => Room p.2.before))
    (by decide +kernel)
  simp only [Bool.and_eq_true] at checked
  obtain ⟨⟨applied, running, idle, returned⟩, plain, room⟩ := checked
  have running : (w.core trio 1).stopped = false := by simpa using running
  have holds := idle_cores_caught_up trioConfigs [1, 2, 3] trioConfigs_members run
    (neverBuilt_of_check plain) (fun p hp => of_decide_eq_true (List.all_eq_true.mp room p hp))
    1 running
  cases last : localHistory w.history 1 with
  | nil => simp [last] at returned
  | cons r earlier =>
    have returned : ∃ output, r.result = .ok output := by
      cases is : r.result with
      | ok output => exact ⟨output, rfl⟩
      | error e => simp [last, is, Except.toOption] at returned
    exact ⟨w, run, of_decide_eq_true applied, running,
      (holds.2 (of_decide_eq_true idle) r earlier last returned).2⟩

end Ruft
