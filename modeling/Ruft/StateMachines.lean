import Ruft.Linearizable
import Ruft.ApplyOrder
import Ruft.Lib.ReplicatedLog

set_option autoImplicit false

/-!
# The cluster as a replicated log

The longest log that any core has committed is the log of a replicated log machine: each step of a
run makes it longer and hands the entries that come next to the state machine of one node. The
entries that a core has handed out reach at least as far as what it knows to be applied, and no
further than what it has committed.

## Main definitions

- `handovers` — the steps of a run as what they hand to whom
- `Mirrors` — the replicated log of a run

## Main results

- `state_machines_agree` — every run of the cluster is a run of a replicated log
-/

namespace Ruft

open ReplicatedLog

variable {C : Type}

/-- How many entries the steps hand to the state machine. -/
def handedOut (steps : List (Record C)) : Nat := (steps.flatMap Record.applied).length

/-- The steps of a run as what they hand to whom. -/
def handovers (history : List (NodeId × Record C)) : List (NodeId × List (Entry C)) :=
  history.map fun p => (p.1, p.2.applied)

@[simp] theorem handedOut_cons (r : Record C) (steps : List (Record C)) :
    handedOut (r :: steps) = handedOut steps + r.applied.length := by
  simp [handedOut, Nat.add_comm]

theorem Record.applied_silent {r : Record C} (silent : r.effects = []) : r.applied = [] := by
  rw [Record.applied, silent]
  rfl

/-- Entries with consecutive indexes that stand at them in a list follow its initial part. -/
theorem Contiguous.initial_drop {k : Nat} {es L : List (Entry C)} (h : Contiguous (k + 1) es)
    (stand : ∀ e ∈ es, L[e.index - 1]? = some e) : es <+: L.drop k := by
  induction es generalizing k with
  | nil => exact List.nil_prefix
  | cons e es ih =>
    obtain ⟨index, rest⟩ := h
    obtain ⟨found, later⟩ := List.forall_mem_cons.mp stand
    rw [index, Nat.add_sub_cancel] at found
    obtain ⟨inside, rfl⟩ := List.getElem?_eq_some_iff.mp found
    rw [List.drop_eq_getElem_cons inside]
    exact (List.prefix_cons_inj _).mpr (ih rest later)

/-! ## One core -/

theorem RaftCore.new_applying (config : Config) :
    Applying (RaftCore.new config (.initial : RecoveredState C)) [] (RaftCore.new config .initial) where
  law := ⟨by simp, by simp, by simp [outstandingApplies, returnedEffects, applies], trivial⟩
  slots := RaftCore.new_slots config .initial
  snapshot := le_rfl
  building := Nat.zero_le _
  reached := rfl
  held := by simp [outstandingApplies, returnedEffects, applies]

section Core

variable [Sha256] {config : Config} {steps : List (Record C)} {c : RaftCore C}

theorem Trace.running_before {init : RaftCore C} (run : Trace init steps c)
    (running : c.stopped = false) : ∀ r ∈ steps, r.before.stopped = false := by
  induction run with
  | start => simp
  | step earlier allowed run returns ih =>
    have goesOn := step_running run running
    exact List.forall_mem_cons.mpr ⟨goesOn, ih goesOn⟩

theorem Trace.applying (run : Trace (RaftCore.new config .initial) steps c)
    (ahead : Holds ApplyAhead steps) :
    AppliesInOrder (RaftCore.new config .initial) steps ∧
      (c.stopped = true ∨ c.WF ∧ Applying (RaftCore.new config .initial) steps c) := by
  obtain ⟨⟨law, -⟩, goesOn⟩ := Trace.invariant (applying_keeps _) (fun _ _ _ h => h.1)
    (RaftCore.new_wf config .initial) (RaftCore.new_applying config) run ahead
  exact ⟨law, goesOn⟩

/-- Without snapshots nothing overtakes an apply. -/
theorem Trace.applyAhead (run : Trace (RaftCore.new config .initial) steps c)
    (plain : Holds Snapshotless steps) (behaves : ∀ r ∈ steps, r.Behaves)
    (running : ∀ r ∈ steps, r.before.stopped = false) : Holds ApplyAhead steps := by
  induction run with
  | start => trivial
  | step earlier allowed run returns ih =>
    obtain ⟨now, rest⟩ := List.forall_mem_cons.mp running
    obtain ⟨-, behaved⟩ := List.forall_mem_cons.mp behaves
    refine ⟨⟨plain.1.1, ?_⟩, ih plain.2 behaved rest⟩
    split
    · intro pending found _
      exact (earlier.accountable plain.2 behaved now).ahead pending found
    · trivial

/-- Without snapshots none is installed. -/
theorem Trace.installsNone (run : Trace (RaftCore.new config .initial) steps c)
    (plain : Holds Snapshotless steps) : ∀ r ∈ steps, r.installed = none := by
  induction run with
  | start => simp
  | @step steps c d event result earlier allowed run returns ih =>
    refine List.forall_mem_cons.mpr ⟨?_, ih plain.2⟩
    unfold Record.installed installedBy
    split
    · next incoming =>
      cases stopped : c.stopped with
      | true =>
        obtain ⟨rfl, -⟩ := step_stopped stopped run
        refine if_neg ?_
        rintro ⟨-, cleared⟩
        have cleared : d.incomingSnapshotState = none := cleared
        simp [cleared] at incoming
      | false =>
        obtain ⟨-, bare, -⟩ := earlier.within plain.2 stopped
        simp [bare.incoming] at incoming
    · rfl

/-- A core hands out the entry behind the last one that it handed out. -/
theorem Trace.handsOn (run : Trace (RaftCore.new config .initial) steps c)
    (plain : Holds Snapshotless steps) (behaves : ∀ r ∈ steps, r.Behaves) :
    coveredThrough (RaftCore.new config .initial) steps = handedOut steps ∧
    Meets (fun earlier r => Contiguous (handedOut earlier + 1) r.applied) steps := by
  have installs := run.installsNone plain
  induction run with
  | start => exact ⟨rfl, trivial⟩
  | @step steps c d event result earlier allowed run returns ih =>
    obtain ⟨installed, installs⟩ := List.forall_mem_cons.mp installs
    obtain ⟨-, behaved⟩ := List.forall_mem_cons.mp behaves
    obtain ⟨covered, contiguous⟩ := ih plain.2 behaved installs
    have next : Contiguous (handedOut steps + 1) (Record.mk c event result d).applied := by
      cases stopped : c.stopped with
      | true =>
        -- a stopped core hands nothing out
        rw [Record.applied_silent (step_stopped stopped run).2]
        trivial
      | false =>
        have whole : Trace (RaftCore.new config .initial) (⟨c, event, result, d⟩ :: steps) d :=
          .step earlier allowed run returns
        have ahead := whole.applyAhead plain behaves
          (List.forall_mem_cons.mpr ⟨stopped, earlier.running_before stopped⟩)
        have law := (whole.applying ahead).1.consecutive.1.2
        -- no snapshot was installed, so the entries follow the last one that was handed out
        rwa [covered, installed, Option.getD_none, Nat.max_zero] at law
    refine ⟨?_, next, contiguous⟩
    rw [coveredThrough, covered, installed, handedOut_cons]
    cases last : (Record.mk c event result d).applied.getLast? with
    | none => simp [List.getLast?_eq_none_iff.mp last]
    | some e =>
      have := next.getLast? last
      simp only [Option.elim_some]
      omega

/-- What a running core has handed out lies between what is applied and what is committed. -/
theorem Trace.handedOut_bounds (run : Trace (RaftCore.new config .initial) steps c)
    (plain : Holds Snapshotless steps) (behaves : ∀ r ∈ steps, r.Behaves)
    (running : c.stopped = false) :
    c.appliedIndex ≤ handedOut steps ∧ handedOut steps ≤ c.log.committed := by
  have ahead := run.applyAhead plain behaves (run.running_before running)
  obtain ⟨wf, applying⟩ := (run.applying ahead).2.resolve_left (by simp [running])
  have reached := applying.reached
  rw [(run.handsOn plain behaves).1] at reached
  have applied := wf.applied_le
  have committed := wf.committed
  unfold Reached at reached
  split at reached
  · omega
  · next pending found =>
    have within := wf.applying pending found
    rcases reached with ⟨-, reached⟩ | ⟨-, reached⟩ <;> omega

end Core

/-! ## The cluster -/

/-- The replicated log of a run. Its log is the longest that a core has committed. -/
structure Mirrors (history : List (NodeId × Record C)) (cores : NodeId → RaftCore C)
    (s : Replicas NodeId (Entry C)) : Prop where
  holds : ∀ p ∈ history, p.2.after.committedLog <+: s.log
  committed : s.log = [] ∨ ∃ p ∈ history, s.log = p.2.after.committedLog
  reached : ∀ node, s.reached node = handedOut (localHistory history node)
  bounds : ∀ node, (cores node).stopped = false →
    (cores node).appliedIndex ≤ s.reached node ∧ s.reached node ≤ (cores node).log.committed

section Cluster

variable [Sha256] {config : NodeId → Config} {members : List NodeId}
  {history : List (NodeId × Record C)} {cores : NodeId → RaftCore C}

theorem Cluster.handsOn (h : Cluster config members history cores) (node : NodeId) :
    Meets (fun earlier r => Contiguous (handedOut earlier + 1) r.applied)
      (localHistory history node) :=
  ((h.run.trace node).handsOn (h.run.snapshotless h.unbuilt h.room node)
    fun _ hr => h.behaves (mem_localHistory.mp hr)).2

theorem Cluster.handedOut_bounds (h : Cluster config members history cores) {node : NodeId}
    (running : (cores node).stopped = false) :
    (cores node).appliedIndex ≤ handedOut (localHistory history node) ∧
      handedOut (localHistory history node) ≤ (cores node).log.committed :=
  (h.run.trace node).handedOut_bounds (h.run.snapshotless h.unbuilt h.room node)
    (fun _ hr => h.behaves (mem_localHistory.mp hr)) running

/-- A step of the cluster is a step of the replicated log. -/
theorem Cluster.mirrors_step {node : NodeId} {r : Record C} {cores' : NodeId → RaftCore C}
    (h : Cluster config members ((node, r) :: history) cores)
    (whole : ∀ p ∈ (node, r) :: history, ProvesWhole p.2.before p.2.event)
    {s : Replicas NodeId (Entry C)} (mirrors : Mirrors history cores' s) :
    ∃ s', s.Step node r.applied s' ∧ Mirrors ((node, r) :: history) cores s' := by
  obtain ⟨L, longest, from_⟩ := h.longest whole _ (List.Subset.refl _)
  -- the log so far is what one of the cores had committed
  have grows : s.log <+: L := by
    rcases mirrors.committed with none | ⟨p, hp, is⟩
    · exact none ▸ List.nil_prefix
    · exact is ▸ longest p (List.mem_cons_of_mem _ hp)
  have next : r.applied <+: L.drop (s.reached node) := by
    have contiguous := h.handsOn node
    rw [localHistory_cons_self] at contiguous
    rw [mirrors.reached node]
    exact contiguous.1.initial_drop fun e applied => h.applies_committed (List.mem_cons_self ..)
      (longest _ (List.mem_cons_self ..)) applied
  obtain ⟨s', rfl, step⟩ : ∃ s' : Replicas NodeId (Entry C), s'.log = L ∧ s.Step node r.applied s' :=
    ⟨⟨L, Function.update s.reached node (s.reached node + r.applied.length)⟩, rfl, grows, next, rfl⟩
  have reached : ∀ n, s'.reached n = handedOut (localHistory ((node, r) :: history) n) := by
    intro n
    by_cases mine : n = node
    · subst mine
      rw [step.reached_self, localHistory_cons_self, handedOut_cons, mirrors.reached n]
    · rw [step.reached_of_ne mine, localHistory_cons_of_ne (Ne.symm mine), mirrors.reached n]
  refine ⟨s', step, longest, from_, reached, fun n running => ?_⟩
  rw [reached n]
  exact h.handedOut_bounds running

/-- A run of the cluster is a run of the replicated log. -/
theorem Cluster.hands (h : Cluster config members history cores)
    (whole : ∀ p ∈ history, ProvesWhole p.2.before p.2.event) :
    ∃ s, Hands (handovers history) s ∧ Mirrors history cores s := by
  obtain ⟨run, common, unbuilt, room⟩ := h
  induction run with
  | start =>
    refine ⟨_, .start, by simp, .inl rfl, fun _ => rfl, fun _ _ => ⟨le_rfl, Nat.zero_le _⟩⟩
  | @step history cores node d event result earlier local_ allowed delivered run returns ih =>
    obtain ⟨-, wholeBefore⟩ := List.forall_mem_cons.mp whole
    obtain ⟨s, hands, mirrors⟩ := ih wholeBefore (fun p hp => unbuilt p (List.mem_cons_of_mem _ hp))
      fun p hp => room p (List.mem_cons_of_mem _ hp)
    have now : Cluster config members _ _ :=
      ⟨.step earlier local_ allowed delivered run returns, common, unbuilt, room⟩
    obtain ⟨s', step, mirrors'⟩ := now.mirrors_step whole mirrors
    exact ⟨s', hands.step step, mirrors'⟩

end Cluster

/-- When every append that is accepted proves the whole log, every run is a run of a replicated
log: its log is the longest that a core has committed, and every node's state machine is handed an
initial part of it, which covers what the core knows to be applied and lies in what it has
committed. -/
theorem state_machines_agree [Sha256] (config : NodeId → Config) (members : List NodeId)
    (common : ∀ node, (config node).members = members) {history : List (NodeId × Record C)}
    {cores : NodeId → RaftCore C}
    (run : Run (fun node => RaftCore.new (config node) .initial) history cores)
    (unbuilt : NeverBuilt history) (room : ∀ p ∈ history, Room p.2.before)
    (whole : ∀ p ∈ history, ProvesWhole p.2.before p.2.event) :
    ∃ s, Hands (handovers history) s ∧ Mirrors history cores s ∧
      ∀ node, handedTo node (handovers history) = s.log.take (s.reached node) := by
  have cluster : Cluster config members history cores := ⟨run, common, unbuilt, room⟩
  obtain ⟨s, hands, mirrors⟩ := cluster.hands whole
  exact ⟨s, hands, mirrors, hands.eq_take⟩

/-- The nodes of a run are handed the three entries that they have committed. -/
theorem state_machines_agree_three : ∃ w : World Nat,
    @Run Nat sha256Empty trio w.history (w.core trio) ∧
    (handedTo 1 (handovers w.history)).map (·.index) = [1, 2, 3] ∧
    ∃ s, Hands (handovers w.history) s ∧ Mirrors w.history (w.core trio) s ∧
      ∀ node, handedTo node (handovers w.history) = s.log.take (s.reached node) := by
  let _ : Sha256 := sha256Empty
  obtain ⟨w, run, checked⟩ := World.exec_any trio commitThree
    (fun w => (handedTo 1 (handovers w.history)).map (·.index) = [1, 2, 3] &&
      ((w.history.all fun p => !p.2.built) && (w.history.all fun p => Room p.2.before) &&
        w.history.all fun p => provesWholeCheck p.2))
    (by decide +kernel)
  simp only [Bool.and_eq_true] at checked
  obtain ⟨handed, ⟨plain, room⟩, whole⟩ := checked
  exact ⟨w, run, of_decide_eq_true handed,
    state_machines_agree trioConfigs [1, 2, 3] trioConfigs_members run (neverBuilt_of_check plain)
      (fun p hp => of_decide_eq_true (List.all_eq_true.mp room p hp))
      fun p hp => provesWhole_of_check (List.all_eq_true.mp whole p hp)⟩

end Ruft
