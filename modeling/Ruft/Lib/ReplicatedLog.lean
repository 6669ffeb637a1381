import Mathlib.Data.List.Infix
import Mathlib.Logic.Function.Basic

set_option autoImplicit false

/-!
# A replicated log

One log for all nodes. It grows at its end, and a step hands the entries that come next to one
node. Over a run every node is handed an initial part of the log.
-/

namespace ReplicatedLog

variable {N E : Type} [DecidableEq N]

/-- The log, and how much of it each node was handed. -/
structure Replicas (N E : Type) where
  log : List E
  reached : N → Nat

/-- The log grows, and the node is handed the entries that come next for it. -/
structure Replicas.Step (s : Replicas N E) (node : N) (entries : List E) (s' : Replicas N E) :
    Prop where
  grows : s.log <+: s'.log
  next : entries <+: s'.log.drop (s.reached node)
  reached : s'.reached = Function.update s.reached node (s.reached node + entries.length)

/-- A run, as the list of what was handed to whom, the newest first. -/
inductive Hands : List (N × List E) → Replicas N E → Prop
  | start : Hands [] ⟨[], fun _ => 0⟩
  | step {steps : List (N × List E)} {s s' : Replicas N E} {node : N} {entries : List E}
      (earlier : Hands steps s) (step : s.Step node entries s') :
      Hands ((node, entries) :: steps) s'

/-- What a node was handed, the oldest first. -/
def handedTo (node : N) : List (N × List E) → List E
  | [] => []
  | (n, entries) :: steps => if n = node then handedTo node steps ++ entries else handedTo node steps

variable {steps : List (N × List E)} {s s' : Replicas N E} {node : N} {entries : List E}

theorem Replicas.Step.reached_self (step : s.Step node entries s') :
    s'.reached node = s.reached node + entries.length := by
  rw [step.reached, Function.update_self]

theorem Replicas.Step.reached_of_ne (step : s.Step node entries s') {n : N} (other : n ≠ node) :
    s'.reached n = s.reached n := by
  rw [step.reached, Function.update_of_ne other]

/-- Entries that follow an initial part of a list make it longer. -/
theorem append_initial {es L : List E} (initial : es <+: L) (next : entries <+: L.drop es.length) :
    es ++ entries <+: L := by
  obtain ⟨tail, rfl⟩ := initial
  rw [List.drop_left] at next
  exact (List.prefix_append_right_inj es).mpr next

/-- A node is handed an initial part of the log, as long as it has reached. -/
theorem Hands.initial (run : Hands steps s) (node : N) :
    handedTo node steps <+: s.log ∧ (handedTo node steps).length = s.reached node := by
  induction run with
  | start => exact ⟨List.prefix_refl _, rfl⟩
  | @step steps s s' n entries earlier step ih =>
    obtain ⟨initial, length⟩ := ih
    have initial := initial.trans step.grows
    by_cases mine : n = node
    · subst mine
      rw [handedTo, if_pos rfl, List.length_append, length]
      exact ⟨append_initial initial (length ▸ step.next), step.reached_self.symm⟩
    · rw [handedTo, if_neg mine, step.reached_of_ne (Ne.symm mine)]
      exact ⟨initial, length⟩

theorem Hands.eq_take (run : Hands steps s) (node : N) :
    handedTo node steps = s.log.take (s.reached node) := by
  obtain ⟨initial, length⟩ := run.initial node
  rw [← length]
  exact List.prefix_iff_eq_take.mp initial

end ReplicatedLog
