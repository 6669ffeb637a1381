import Mathlib.Data.List.Permutation
import Ruft.Progress

set_option autoImplicit false

/-!
# Vote accounting

An election, a pre-vote round and a read round count the first response of every member. The
sets of a tracker are determined by these first responses alone, whatever else arrives and in
whatever order.

## Main definitions

- `QuorumTracker.recordAll` — the tracker after a sequence of responses
- `firstResponse` — what a node answered first
- `CountsFirst` — the tracker tells who has a majority and who cannot get one any more

## Main results

- `vote_accounting` — every tracker that starts with the local vote counts so
-/

namespace Ruft

/-- A response and who sent it. -/
abbrev Response := NodeId × Bool

def QuorumTracker.recordAll (q : QuorumTracker) (responses : List Response) : QuorumTracker :=
  responses.foldl (fun q response => q.record response.1 response.2) q

def firstResponse (responses : List Response) (node : NodeId) : Option Bool :=
  (responses.find? fun response => response.1 = node).map (·.2)

/-- The responses that are the first of their senders. -/
def firstResponses : List Response → List Response
  | [] => []
  | response :: rest => response :: (firstResponses rest).filter fun later => later.1 ≠ response.1

/-- A round among the members after the responses. -/
def votingRound (members : List NodeId) (localId : NodeId) (responses : List Response) : QuorumTracker :=
  (QuorumTracker.withLocalVote members localId).recordAll responses

/-- The round counts the first response of each member, the local node's own being a grant, and
tells when a majority has granted and when none can any more. -/
structure CountsFirst (members : List NodeId) (localId : NodeId) (responses : List Response) :
    Prop where
  granted : ∀ node, node ∈ (votingRound members localId responses).granted ↔
    node ∈ members ∧ (node = localId ∨ firstResponse responses node = some true)
  rejected : ∀ node, node ∈ (votingRound members localId responses).rejected ↔
    node ∈ members ∧ node ≠ localId ∧ firstResponse responses node = some false
  disjoint : Disjoint (votingRound members localId responses).granted
    (votingRound members localId responses).rejected
  quorum : (votingRound members localId responses).hasQuorum = true ↔
    members.toFinset.card < 2 * (members.toFinset.filter fun node =>
      node = localId ∨ firstResponse responses node = some true).card
  hopeless : (votingRound members localId responses).cannotWin = true ↔
    ∀ more, (votingRound members localId (responses ++ more)).hasQuorum = false
  exclusive : ¬ ((votingRound members localId responses).hasQuorum = true ∧
    (votingRound members localId responses).cannotWin = true)
  permuted : ∀ responses', responses'.Perm (firstResponses responses) →
    (votingRound members localId responses').hasQuorum = (votingRound members localId responses).hasQuorum ∧
    (votingRound members localId responses').cannotWin = (votingRound members localId responses).cannotWin

theorem firstResponse_cons (response : Response) (responses : List Response) (node : NodeId) :
    firstResponse (response :: responses) node =
      if response.1 = node then some response.2 else firstResponse responses node := by
  unfold firstResponse
  rw [List.find?_cons]
  by_cases is : response.1 = node
  · simp [is]
  · simp [is]

theorem firstResponse_append (responses more : List Response) (node : NodeId) :
    firstResponse (responses ++ more) node =
      (firstResponse responses node).or (firstResponse more node) := by
  induction responses with
  | nil => rfl
  | cons response rest ih =>
    rw [List.cons_append, firstResponse_cons, firstResponse_cons, ih]
    split
    · rfl
    · rfl

/-- What a node answered, when no one answers twice. -/
theorem firstResponse_eq_some {responses : List Response} (once : (responses.map (·.1)).Nodup)
    {node : NodeId} {granted : Bool} :
    firstResponse responses node = some granted ↔ (node, granted) ∈ responses := by
  induction responses with
  | nil => simp [firstResponse]
  | cons response rest ih =>
    rw [List.map_cons, List.nodup_cons] at once
    obtain ⟨n, b⟩ := response
    rw [firstResponse_cons]
    split
    · next is =>
      have is : n = node := is
      subst is
      have absent : (n, granted) ∉ rest := fun again => once.1 (List.mem_map.mpr ⟨_, again, rfl⟩)
      simp [absent, eq_comm]
    · next other =>
      have other : ¬ node = n := fun is => other is.symm
      simp [ih once.2, other]

theorem firstResponse_filter {responses : List Response} {n node : NodeId} (other : n ≠ node) :
    firstResponse (responses.filter fun later => later.1 ≠ n) node =
      firstResponse responses node := by
  induction responses with
  | nil => rfl
  | cons response rest ih =>
    rw [List.filter_cons, firstResponse_cons]
    split
    · rw [firstResponse_cons, ih]
    · next is =>
      have is : response.1 = n := by simpa using is
      rw [ih, is, if_neg other]

theorem firstResponses_nodup (responses : List Response) :
    ((firstResponses responses).map (·.1)).Nodup := by
  induction responses with
  | nil => exact List.nodup_nil
  | cons response rest ih =>
    rw [firstResponses, List.map_cons, List.nodup_cons]
    refine ⟨?_, ih.sublist (List.filter_sublist.map _)⟩
    simp

theorem firstResponse_firstResponses (responses : List Response) (node : NodeId) :
    firstResponse (firstResponses responses) node = firstResponse responses node := by
  induction responses with
  | nil => rfl
  | cons response rest ih =>
    rw [firstResponses, firstResponse_cons, firstResponse_cons]
    split
    · rfl
    · next other => rw [firstResponse_filter other, ih]

/-- The order of the first responses does not matter. -/
theorem firstResponse_perm {responses responses' : List Response}
    (perm : responses'.Perm (firstResponses responses)) (node : NodeId) :
    firstResponse responses' node = firstResponse responses node := by
  have once : (responses'.map (·.1)).Nodup :=
    (perm.map _).nodup_iff.mpr (firstResponses_nodup responses)
  rw [← firstResponse_firstResponses responses]
  refine Option.ext fun granted => ?_
  rw [firstResponse_eq_some once, firstResponse_eq_some (firstResponses_nodup responses)]
  exact perm.mem_iff

namespace QuorumTracker

variable {q : QuorumTracker} {node n : NodeId} {granted answer : Bool} {responses : List Response}

/-- Who gave the answer. -/
def given (q : QuorumTracker) : Bool → Finset NodeId
  | true => q.granted
  | false => q.rejected

/-- The sets of a tracker hold members, and no one twice. -/
structure Valid (q : QuorumTracker) : Prop where
  given_subset : ∀ answer, q.given answer ⊆ q.members
  disjoint : Disjoint q.granted q.rejected

theorem Valid.not_mem (h : q.Valid) (hn : n ∈ q.given answer) : n ∉ q.given (!answer) := by
  cases answer with
  | true => exact Finset.disjoint_left.mp h.disjoint hn
  | false => exact Finset.disjoint_right.mp h.disjoint hn

@[simp] theorem record_members : (q.record node granted).members = q.members := by
  unfold record
  split
  · rfl
  · split <;> rfl

theorem mem_given_record (answer : Bool) : n ∈ (q.record node granted).given answer ↔ n ∈ q.given answer ∨
    (n = node ∧ granted = answer ∧ n ∈ q.members ∧ n ∉ q.given (!answer)) := by
  unfold record
  split
  · next locked =>
    refine ⟨.inl, ?_⟩
    rintro (old | ⟨rfl, rfl, member, free⟩)
    · exact old
    · have answered := locked.resolve_left (not_not_intro member)
      cases granted with
      | true => exact answered.resolve_right free
      | false => exact answered.resolve_left free
  · next unanswered =>
    simp only [not_or, not_not] at unanswered
    obtain ⟨member, noGrant, noRejection⟩ := unanswered
    cases granted <;> cases answer <;> simp only [given, if_true, if_false, Finset.mem_insert,
      Bool.false_eq_true, Bool.true_eq_false, Bool.not_true, Bool.not_false, false_and, and_false,
      or_false, true_and]
    all_goals
      constructor
      · rintro (rfl | old)
        · exact .inr ⟨rfl, member, by assumption⟩
        · exact .inl old
      · rintro (old | ⟨rfl, -⟩)
        · exact .inr old
        · exact .inl rfl

theorem Valid.record (h : q.Valid) : (q.record node granted).Valid where
  given_subset answer n hn := by
    rw [record_members]
    rcases (mem_given_record answer).mp hn with old | ⟨-, -, member, -⟩
    · exact h.given_subset answer old
    · exact member
  disjoint := by
    refine Finset.disjoint_left.mpr fun n yes no => ?_
    rcases (mem_given_record true).mp yes with yes | ⟨rfl, is, -, free⟩
    · rcases (mem_given_record false).mp no with no | ⟨-, -, -, free⟩
      · exact Finset.disjoint_left.mp h.disjoint yes no
      · exact free yes
    · rcases (mem_given_record false).mp no with no | ⟨-, isNot, -, -⟩
      · exact free no
      · exact absurd (is.symm.trans isNot) (by simp)

theorem Valid.withLocalVote {members : List NodeId} {localId : NodeId} (h : localId ∈ members) :
    (QuorumTracker.withLocalVote members localId).Valid where
  given_subset answer := by
    cases answer <;> simp [given, QuorumTracker.withLocalVote, h]
  disjoint := by simp [QuorumTracker.withLocalVote]

theorem Valid.recordAll (h : q.Valid) (responses : List Response) : (q.recordAll responses).Valid := by
  induction responses generalizing q with
  | nil => exact h
  | cons response rest ih => exact ih h.record

@[simp] theorem recordAll_members (responses : List Response) :
    (q.recordAll responses).members = q.members := by
  induction responses generalizing q with
  | nil => rfl
  | cons response rest ih => exact ih.trans record_members

/-- Who gave an answer gave it before, or gave it first. -/
theorem mem_given_recordAll (answer : Bool) (responses : List Response) (n : NodeId) (h : q.Valid) :
    n ∈ (q.recordAll responses).given answer ↔
    n ∈ q.given answer ∨
      (n ∈ q.members ∧ n ∉ q.given (!answer) ∧ firstResponse responses n = some answer) := by
  induction responses generalizing q with
  | nil => simp [recordAll, firstResponse]
  | cons response rest ih =>
    obtain ⟨node, granted⟩ := response
    have step : q.recordAll ((node, granted) :: rest) = (q.record node granted).recordAll rest := rfl
    rw [step, ih h.record, record_members, mem_given_record answer, mem_given_record (!answer),
      firstResponse_cons]
    by_cases is : node = n
    · subst is
      -- the answer is decided here, whatever the node says later
      have apart := fun hn : node ∈ q.given answer => h.not_mem hn
      cases granted <;> cases answer <;> simp_all
    · have other : ¬ n = node := fun same => is same.symm
      simp [is, other]

end QuorumTracker

/-! ## Rounds -/

variable {members : List NodeId} {localId : NodeId} {responses : List Response}

theorem votingRound_valid (own : localId ∈ members) (responses : List Response) :
    (votingRound members localId responses).Valid :=
  (QuorumTracker.Valid.withLocalVote own).recordAll responses

theorem votingRound_members (members : List NodeId) (localId : NodeId) (responses : List Response) :
    (votingRound members localId responses).members = members.toFinset :=
  QuorumTracker.recordAll_members responses

theorem mem_votingRound_granted (own : localId ∈ members) {node : NodeId} :
    node ∈ (votingRound members localId responses).granted ↔
      node ∈ members ∧ (node = localId ∨ firstResponse responses node = some true) := by
  have answered := QuorumTracker.mem_given_recordAll true responses node
    (QuorumTracker.Valid.withLocalVote own)
  refine answered.trans ?_
  simp only [QuorumTracker.given, QuorumTracker.withLocalVote, Finset.mem_singleton,
    List.mem_toFinset, Bool.not_true, Finset.notMem_empty, not_false_eq_true, true_and]
  constructor
  · rintro (rfl | first)
    · exact ⟨own, .inl rfl⟩
    · exact ⟨first.1, .inr first.2⟩
  · rintro ⟨member, own | first⟩
    · exact .inl own
    · exact .inr ⟨member, first⟩

theorem mem_votingRound_rejected (own : localId ∈ members) {node : NodeId} :
    node ∈ (votingRound members localId responses).rejected ↔
      node ∈ members ∧ node ≠ localId ∧ firstResponse responses node = some false := by
  have answered := QuorumTracker.mem_given_recordAll false responses node
    (QuorumTracker.Valid.withLocalVote own)
  refine answered.trans ?_
  simp [QuorumTracker.given, QuorumTracker.withLocalVote]

theorem votingRound_quorum (own : localId ∈ members) :
    (votingRound members localId responses).hasQuorum = true ↔
      members.toFinset.card < 2 * (members.toFinset.filter fun node =>
        node = localId ∨ firstResponse responses node = some true).card := by
  have granted : (votingRound members localId responses).granted =
      members.toFinset.filter fun node =>
        node = localId ∨ firstResponse responses node = some true := by
    ext node
    rw [mem_votingRound_granted own, Finset.mem_filter, List.mem_toFinset]
  rw [QuorumTracker.hasQuorum, decide_eq_true_eq, QuorumTracker.quorum, votingRound_members, granted]
  omega

theorem votingRound_cannotWin :
    (votingRound members localId responses).cannotWin = true ↔
      2 * (members.toFinset.card - (votingRound members localId responses).rejected.card) ≤
        members.toFinset.card := by
  rw [QuorumTracker.cannotWin, decide_eq_true_eq, QuorumTracker.quorum, votingRound_members]
  omega

theorem votingRound_rejected_subset (own : localId ∈ members) (responses : List Response) :
    (votingRound members localId responses).rejected ⊆ members.toFinset := by
  have known := (votingRound_valid own responses).given_subset false
  rwa [votingRound_members] at known

/-- Members that rejected do not grant later, so no more than the others ever do. -/
theorem votingRound_granted_le (own : localId ∈ members) (responses more : List Response) :
    (votingRound members localId (responses ++ more)).granted.card ≤
      members.toFinset.card - (votingRound members localId responses).rejected.card := by
  rw [← Finset.card_sdiff_of_subset (votingRound_rejected_subset own responses)]
  refine Finset.card_le_card fun node hn => Finset.mem_sdiff.mpr ⟨?_, fun no => ?_⟩
  · exact List.mem_toFinset.mpr ((mem_votingRound_granted own).mp hn).1
  · obtain ⟨-, other, first⟩ := (mem_votingRound_rejected own).mp no
    rcases ((mem_votingRound_granted own).mp hn).2 with is | yes
    · exact other is
    · rw [firstResponse_append, first] at yes
      simp at yes

/-- When everyone who has not rejected grants, so many do. -/
theorem votingRound_all_grant (own : localId ∈ members) :
    (votingRound members localId (responses ++ members.map fun node => (node, true))).granted.card =
      members.toFinset.card - (votingRound members localId responses).rejected.card := by
  refine le_antisymm (votingRound_granted_le own _ _) ?_
  rw [← Finset.card_sdiff_of_subset (votingRound_rejected_subset own responses)]
  refine Finset.card_le_card fun node hn => ?_
  obtain ⟨member, kept⟩ := Finset.mem_sdiff.mp hn
  have member := List.mem_toFinset.mp member
  have asked : firstResponse (members.map fun node => (node, true)) node = some true := by
    cases found : firstResponse (members.map fun node => (node, true)) node with
    | none =>
      simp only [firstResponse, Option.map_eq_none_iff, List.find?_eq_none, List.mem_map] at found
      simpa using found (node, true) ⟨node, member, rfl⟩
    | some answer =>
      obtain ⟨response, isFirst, rfl⟩ := Option.map_eq_some_iff.mp found
      obtain ⟨_, -, rfl⟩ := List.mem_map.mp (List.mem_of_find?_eq_some isFirst)
      rfl
  refine (mem_votingRound_granted own).mpr ⟨member, ?_⟩
  rw [firstResponse_append, asked]
  cases first : firstResponse responses node with
  | none => exact .inr rfl
  | some answer =>
    cases answer with
    | true => exact .inr rfl
    | false =>
      by_contra unmoved
      simp only [not_or] at unmoved
      exact kept ((mem_votingRound_rejected own).mpr ⟨member, unmoved.1, first⟩)

/-- Every round counts the first responses of its members. -/
theorem vote_accounting (members : List NodeId) (localId : NodeId) (own : localId ∈ members)
    (responses : List Response) : CountsFirst members localId responses where
  granted _ := mem_votingRound_granted own
  rejected _ := mem_votingRound_rejected own
  disjoint := (votingRound_valid own responses).disjoint
  quorum := votingRound_quorum own
  hopeless := by
    rw [votingRound_cannotWin]
    constructor
    · intro few more
      have le := votingRound_granted_le own responses more
      rw [QuorumTracker.hasQuorum, decide_eq_false_iff_not, QuorumTracker.quorum,
        votingRound_members]
      omega
    · intro never
      -- the best that can still come: every member that has not answered grants
      have most := never (members.map fun node => (node, true))
      rw [QuorumTracker.hasQuorum, decide_eq_false_iff_not, QuorumTracker.quorum,
        votingRound_members, votingRound_all_grant own] at most
      omega
  exclusive := by
    rintro ⟨won, lost⟩
    have le := votingRound_granted_le own responses []
    rw [votingRound_cannotWin] at lost
    rw [QuorumTracker.hasQuorum, decide_eq_true_eq, QuorumTracker.quorum,
      votingRound_members] at won
    rw [List.append_nil] at le
    omega
  permuted responses' perm := by
    have first := firstResponse_perm perm
    have granted : (votingRound members localId responses').granted =
        (votingRound members localId responses).granted := by
      ext node
      rw [mem_votingRound_granted own, mem_votingRound_granted own, first]
    have rejected : (votingRound members localId responses').rejected =
        (votingRound members localId responses).rejected := by
      ext node
      rw [mem_votingRound_rejected own, mem_votingRound_rejected own, first]
    have same : (votingRound members localId responses').members =
        (votingRound members localId responses).members := by
      rw [votingRound_members, votingRound_members]
    constructor
    · rw [QuorumTracker.hasQuorum, QuorumTracker.hasQuorum, QuorumTracker.quorum,
        QuorumTracker.quorum, granted, same]
    · rw [QuorumTracker.cannotWin, QuorumTracker.cannotWin, QuorumTracker.quorum,
        QuorumTracker.quorum, rejected, same]

/-- One of three members answers twice: its first response stands, and two grants decide. -/
theorem vote_accounting_trio : CountsFirst [1, 2, 3] 1 [(2, true), (2, false), (7, true)] ∧
    (votingRound [1, 2, 3] 1 [(2, true), (2, false), (7, true)]).hasQuorum = true :=
  ⟨vote_accounting [1, 2, 3] 1 (by decide) _, by decide⟩

end Ruft
