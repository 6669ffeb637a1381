import Mathlib.Data.Multiset.AddSub
import Ruft.ChunkStores
import Ruft.LogMatching

set_option autoImplicit false

/-!
# What becomes of the reads of a leader

A read that a leader accepts waits in a queue, then in a read round, until the round is
released. A handler moves reads between the three, and takes one in with every read that the
leader has a place for.

## Main definitions

- `acceptedReads`, `releasedReads` — the reads that went in and out in a leadership
- `Conserved` — none is lost and none is answered twice

## Main results

- `process_ledger` — what a handler leaves of the reads, also when it fails
-/

namespace Ruft

open Program StepM

variable {C : Type} {c d : RaftCore C} {event : Event C} {s s' : Ctx C}

/-! ## Reads -/

/-- The reads that are answered. -/
def readies (effects : List (Effect C)) : List ReadId := effects.filterMap fun
  | .readReady readId _ => some readId
  | _ => none

@[simp] theorem readies_append (effects later : List (Effect C)) :
    readies (effects ++ later) = readies effects ++ readies later := List.filterMap_append

theorem readies_eq_nil {effects : List (Effect C)}
    (quiet : ∀ readId index, .readReady readId index ∉ effects) : readies effects = [] := by
  rw [readies, List.filterMap_eq_nil_iff]
  intro e mem
  cases e with
  | readReady readId index => exact absurd mem (quiet readId index)
  | _ => rfl

/-- The reads of the round in flight. -/
def RaftCore.roundReads (c : RaftCore C) : List ReadId := c.readRound.elim [] (·.requests)

theorem RaftCore.roundReads_length (c : RaftCore C) :
    c.roundReads.length = c.readRound.elim 0 (·.requests.length) := by
  rw [roundReads]
  cases c.readRound <;> rfl

theorem reads_swap (a b c : Multiset ReadId) : a + b + c = a + c + b := by
  rw [Multiset.add_assoc, Multiset.add_comm b, Multiset.add_assoc]

/-- The reads that a core holds. -/
def RaftCore.waiting (c : RaftCore C) : Multiset ReadId := c.pendingReads + c.roundReads

/-- The reads that the event adds. -/
def accepted (c : RaftCore C) : Event C → List ReadId
  | .read readId _ =>
    if c.stopped = false ∧ c.role = .leader ∧
        c.pendingReads.length + c.roundReads.length < c.config.maxPendingReads then [readId]
    else []
  | _ => []

/-- The steps that the node has taken as leader since it became leader, newest first. -/
def leadership : List (Record C) → List (Record C)
  | [] => []
  | r :: earlier => if r.before.role = .leader then r :: leadership earlier else []

/-- The reads accepted since the node became leader. -/
def acceptedReads (history : List (Record C)) : List ReadId :=
  (leadership history).reverse.flatMap fun r => accepted r.before r.event

/-- The reads answered since the node became leader. -/
def releasedReads (history : List (Record C)) : List ReadId :=
  (leadership history).reverse.flatMap fun r => readies r.effects

/-- The node became leader with no read pending and no round in flight. -/
def StartsClean : List (Record C) → Prop
  | [] => True
  | r :: earlier =>
    if r.before.role = .leader then StartsClean earlier
    else r.after.pendingReads = [] ∧ r.after.readRound = none

/-- Every accepted read waits or was answered, once, and no more wait than the limit allows. -/
structure Conserved (history : List (Record C)) (c : RaftCore C) : Prop where
  same : (acceptedReads history : Multiset ReadId) = c.waiting + releasedReads history
  bound : c.pendingReads.length + c.roundReads.length ≤ c.config.maxPendingReads

/-! ## The handlers keep the reads -/

/-- The reads that are held or were answered in the step. -/
def Ctx.ledger (s : Ctx C) : Multiset ReadId := s.core.waiting + readies s.effects

/-- No read is touched. -/
structure SameReads (c : RaftCore C) (s : Ctx C) : Prop where
  pending : s.core.pendingReads = c.pendingReads
  round : s.core.readRound = c.readRound
  counter : s.core.nextReadContext = c.nextReadContext
  quiet : readies s.effects = []

theorem SameReads.ledger (h : SameReads c s) : s.ledger = c.waiting := by
  obtain ⟨pending, round, -, quiet⟩ := h
  rw [Ctx.ledger, quiet, RaftCore.waiting, RaftCore.roundReads, pending, round]
  exact Multiset.add_zero _

theorem readies_toPeers (config : Config) (m : Message C) : readies (toPeers config m) = [] :=
  readies_eq_nil (by simp [toPeers])

theorem MessageAct.sameReads {from_ : NodeId} {m : Message C} (act : MessageAct c from_ m s)
    (leader : s.core.role = .leader) : SameReads c s := by
  cases act with
  | termRaised | appendRejected =>
    simp [Ctx.queued, RaftCore.termRaised, RaftCore.becomeFollower] at leader
  | appendFailed | appendRefused | appendHeld | appendAccepted =>
    simp [Ctx.queued, RaftCore.merged, RaftCore.becomeFollower] at leader
  | _ => exact ⟨rfl, rfl, rfl, rfl⟩

theorem CompletionAct.sameReads [Sha256] {id : EffectId} {outcome : EffectOutcome}
    (act : CompletionAct c id outcome s) : SameReads c s := by
  cases act with
  | applyDone =>
    exact ⟨rfl, rfl, rfl, readies_eq_nil (by simp [Ctx.answered])⟩
  | votesRequested => exact ⟨rfl, rfl, rfl, readies_toPeers _ _⟩
  | _ => exact ⟨rfl, rfl, rfl, rfl⟩

theorem Act.sameReads [Sha256] (act : Act c event s) (leader : s.core.role = .leader)
    (other : ∀ readId context, event ≠ .read readId context) : SameReads c s := by
  cases act with
  | message envelope members s known mine act =>
    obtain ⟨pending, round, counter, quiet⟩ := act.sameReads leader
    exact ⟨pending, round, counter, quiet⟩
  | completed id outcome s act => exact act.sameReads
  | quorumLost => simp [RaftCore.becomeFollower] at leader
  | preVoteStarted => exact ⟨rfl, rfl, rfl, readies_toPeers _ _⟩
  | readQueued | readJoined | readStarted => exact absurd rfl (other _ _)
  | _ => exact ⟨rfl, rfl, rfl, rfl⟩

/-- A round that starts takes the read in. -/
theorem Ctx.roundStarted_ledger (idle : s.core.readRound = none) (readId : ReadId) :
    (s.roundStarted readId).ledger = s.ledger + {readId} ∧
      (s.roundStarted readId).core.nextReadContext = s.core.nextReadContext + 1 := by
  have beats : ∀ context, readies (Ctx.readHeartbeats s.core context) = [] :=
    fun context => readies_toPeers _ _
  have waits : (s.core.waiting : Multiset ReadId) = s.core.pendingReads := by
    rw [RaftCore.waiting, RaftCore.roundReads, idle]
    exact Multiset.add_zero _
  have core : ∀ round : ReadRound, round.requests = [readId] → ∀ counter,
      ({ s.core with nextReadContext := counter, readRound := some round } : RaftCore C).waiting =
        s.core.waiting + {readId} := by
    intro round requests counter
    rw [waits, RaftCore.waiting, RaftCore.roundReads]
    show (s.core.pendingReads : Multiset ReadId) + round.requests = _
    rw [requests]
    rfl
  unfold Ctx.roundStarted
  dsimp only
  split
  · refine ⟨?_, rfl⟩
    rw [Ctx.ledger, core _ rfl, Ctx.ledger]
    exact reads_swap _ _ _
  · refine ⟨?_, rfl⟩
    rw [Ctx.ledger, core _ rfl, Ctx.ledger, readies_append, beats, List.append_nil]
    exact reads_swap _ _ _

/-- A follow-up moves reads, and loses none while there is a context left. -/
theorem FollowUp.ledger {cause : Cause C} (hf : FollowUp cause s s') :
    s.core.nextReadContext ≤ s'.core.nextReadContext ∧
      (s'.core.nextReadContext < u64Max → s'.ledger = s.ledger) := by
  cases hf with
  | readAcknowledged envelope term matchIndex conflict context round is message leader current found =>
    refine ⟨le_rfl, fun _ => ?_⟩
    simp only [Ctx.ledger, RaftCore.waiting, RaftCore.roundReads, found, Option.elim_some]
    split <;> rfl
  | readReleased round index found =>
    refine ⟨le_rfl, fun _ => ?_⟩
    have out : readies (round.requests.map fun readId => (.readReady readId index : Effect C)) =
        round.requests := by
      rw [readies, List.filterMap_map]
      exact List.filterMap_some
    simp only [Ctx.ledger, RaftCore.waiting, RaftCore.roundReads, found, readies_append, out,
      Option.elim_some, Option.elim_none]
    rw [← Multiset.coe_add, Multiset.coe_nil, Multiset.add_zero]
    exact reads_swap _ _ _ |>.trans (Multiset.add_assoc _ _ _) |>.symm
  | readStarted readId rest leader noop idle queue =>
    obtain ⟨same, counter⟩ := @Ctx.roundStarted_ledger C
      ⟨{ s.core with pendingReads := rest }, s.effects⟩ idle readId
    refine ⟨by rw [counter]; exact Nat.le_succ _, fun _ => ?_⟩
    rw [same]
    simp only [Ctx.ledger, RaftCore.waiting, RaftCore.roundReads, queue]
    rw [← Multiset.cons_coe, ← Multiset.singleton_add, Multiset.add_comm {readId}]
    rw [reads_swap _ (readies s.effects : Multiset ReadId), reads_swap _ _ {readId}]
  | readLost readId rest queue full => exact ⟨le_rfl, fun room => absurd room full⟩
  | recorded => exact ⟨le_rfl, fun _ => rfl⟩
  | _ =>
    exact ⟨le_rfl, fun _ => by
      simp [Ctx.ledger, Ctx.queued, RaftCore.waiting, RaftCore.roundReads, readies]⟩

theorem FollowUps.ledger {cause : Cause C} (rest : FollowUps cause s s') :
    s.core.nextReadContext ≤ s'.core.nextReadContext ∧
      (s'.core.nextReadContext < u64Max → s'.ledger = s.ledger) := by
  induction rest with
  | refl => exact ⟨le_rfl, fun _ => rfl⟩
  | tail _ hstep ih =>
    obtain ⟨le, same⟩ := ih
    obtain ⟨le', same'⟩ := hstep.ledger
    exact ⟨le.trans le', fun room => (same' room).trans (same (Nat.lt_of_le_of_lt le' room))⟩

theorem Path.ledger [Sha256] (path : Path c event s) (leader : s.core.role = .leader)
    (other : ∀ readId context, event ≠ .read readId context)
    (room : s.core.nextReadContext < u64Max) : s.ledger = c.waiting := by
  obtain ⟨s₀, s, act, rest⟩ := path
  exact (rest.ledger.2 room).trans (act.sameReads (rest.frame.role ▸ leader) other).ledger

/-- A round that is started takes the read in. -/
theorem startReadRound_ledger {cause : Cause C} (may : cause.MayRelease) (wf : s.core.WF)
    (idle : s.core.readRound = none) (readId : ReadId) {r : Outcome StepError Unit}
    (run : startReadRound readId s = (r, s')) : ∃ s₀, FollowUps cause s₀ s' ∧ s'.core.WF ∧
      (s'.core.nextReadContext < u64Max → s₀.ledger = s.ledger + {readId}) := by
  by_cases counter : s.core.nextReadContext < u64Max
  · change startReadRoundThen startPendingReads readId s = _ at run
    rw [startReadRoundThen_run wf _ _ counter] at run
    have wf' := wf.roundStarted readId
    have started := (s.roundStarted_ledger idle readId).1
    split at run
    · have rest : FollowUps cause (s.roundStarted readId) s' :=
        (Leads.bind keeps_wf wf' (releaseReadRound_leads may)
          fun _ _ _ h => startPendingReads_leads may h).reaches run
      exact ⟨_, rest, wf'.followUps rest, fun _ => started⟩
    · obtain ⟨-, rfl⟩ := Prod.mk.inj run
      exact ⟨_, .refl, wf', fun _ => started⟩
  · change (liftNext s.core.nextReadContext >>= _) s = _ at run
    rw [liftNext_overflow counter] at run
    obtain ⟨-, rfl⟩ := Prod.mk.inj run
    exact ⟨_, .refl, wf, fun room => absurd room counter⟩

/-- The handler of a read takes the read in, or it has no place for it. -/
theorem onRead_ledger (wf : c.WF) (running : c.stopped = false) (leader : c.role = .leader)
    (readId : ReadId) (context : Bytes) {r : Outcome StepError Unit}
    (run : onRead readId ⟨c, []⟩ = (r, s)) : ∃ s₀,
      FollowUps ⟨c, .read readId context⟩ s₀ s ∧ s.core.WF ∧ (s.core.nextReadContext < u64Max →
        s₀.ledger = c.waiting + accepted c (.read readId context)) := by
  change (if c.role ≠ .leader then _ else if c.config.maxPendingReads ≤
    c.pendingReads.length + c.readRound.elim 0 (·.requests.length) then _ else _ : StepM C Unit) _ = _
    at run
  rw [if_neg (not_not_intro leader), ← c.roundReads_length] at run
  by_cases space : c.pendingReads.length + c.roundReads.length < c.config.maxPendingReads
  · rw [accepted, if_pos ⟨running, leader, space⟩]
    rw [if_neg (Nat.not_le.mpr space)] at run
    by_cases noop : c.currentLeaderNoopIsCommitted = true
    · rw [if_neg (by simp [noop])] at run
      cases found : c.readRound with
      | some round =>
        rw [found] at run
        obtain ⟨-, rfl⟩ := Prod.mk.inj run
        refine ⟨_, .refl, wf.congr rfl rfl rfl rfl rfl rfl rfl rfl rfl rfl rfl, fun _ => ?_⟩
        show ((c.pendingReads : Multiset ReadId) + (round.requests ++ [readId] : List ReadId)) + 0 = _
        rw [← Multiset.coe_add, Multiset.add_zero, RaftCore.waiting, RaftCore.roundReads, found]
        exact (Multiset.add_assoc _ _ _).symm
      | none =>
        rw [found] at run
        obtain ⟨s₀, rest, wf', same⟩ := @startReadRound_ledger C ⟨c, []⟩ s ⟨c, .read readId context⟩
          trivial wf found readId r run
        exact ⟨s₀, rest, wf', fun room => (same room).trans (congrArg (· + _) (Multiset.add_zero _))⟩
    · rw [if_pos (by simp [noop])] at run
      obtain ⟨-, rfl⟩ := Prod.mk.inj run
      refine ⟨_, .refl, wf.congr rfl rfl rfl rfl rfl rfl rfl rfl rfl rfl rfl, fun _ => ?_⟩
      show (((c.pendingReads ++ [readId] : List ReadId) : Multiset ReadId) + c.roundReads) + 0 = _
      rw [← Multiset.coe_add, Multiset.add_zero, RaftCore.waiting]
      exact reads_swap _ _ _
  · rw [accepted, if_neg fun h => space h.2.2]
    rw [if_pos (Nat.not_lt.mp space)] at run
    obtain ⟨-, rfl⟩ := Prod.mk.inj run
    exact ⟨_, .refl, wf, fun _ => rfl⟩

/-- The handler of an event keeps the reads that it takes in, as long as the core leads. -/
theorem process_ledger [Sha256] (wf : c.WF) (running : c.stopped = false)
    (leader : c.role = .leader) {r : Outcome StepError Unit}
    (run : process event ⟨c, []⟩ = (r, s)) (returns : r ≠ .error .panic)
    (leads : s.core.role = .leader) (room : s.core.nextReadContext < u64Max) :
    s.ledger = c.waiting + accepted c event := by
  by_cases other : ∀ readId context, event ≠ .read readId context
  · have none : accepted c event = [] := by
      cases event with
      | read readId context => exact absurd rfl (other readId context)
      | _ => rfl
    rw [none, Multiset.coe_nil, Multiset.add_zero]
    have ran := process_ran wf event
    rw [run] at ran
    cases ran with
    | panicked => exact absurd rfl returns
    | halted e c' stops halted =>
      obtain ⟨-, reads, store, incoming, building, applying, persist, rfl⟩ := halted
      exact Multiset.add_zero _
    | followed r s returns path => exact path.ledger leads other room
    | overflowed s path => exact path.ledger leads other room
    | stuck e s stuck =>
      cases stuck with
      | queued d batch continuation full act =>
        obtain ⟨pending, round, counter, -⟩ := act.sameReads leads other
        exact SameReads.ledger ⟨pending, round, counter, rfl⟩
      | dropped => exact Multiset.add_zero _
  · obtain ⟨readId, context, rfl⟩ : ∃ readId context, event = .read readId context := by
      simpa using other
    cases handled : onRead readId ⟨c, []⟩ with
    | mk r' t =>
      obtain ⟨s₀, rest, wf', same⟩ := onRead_ledger wf running leader readId context handled
      have taken : FollowUps ⟨c, .read readId context⟩ t s := by
        change (onRead readId >>= fun _ => emitApplyIfNeeded) ⟨c, []⟩ = _ at run
        cases r' with
        | ok u =>
          rw [bind_run_ok handled] at run
          exact (emitApplyIfNeeded_leads wf').reaches run
        | error f =>
          rw [bind_run_error handled] at run
          obtain ⟨-, rfl⟩ := Prod.mk.inj run
          exact .refl
      obtain ⟨le, kept⟩ := taken.ledger
      obtain ⟨le', kept'⟩ := rest.ledger
      rw [kept room, kept' (Nat.lt_of_le_of_lt le room), same (Nat.lt_of_le_of_lt le room)]

end Ruft
