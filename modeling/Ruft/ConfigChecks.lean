import Ruft.Config

set_option autoImplicit false

/-!
# What a configuration may be

`build` makes its checks one after the other and stops at the first that fails. Together they
accept the builders whose settings fit together, and what is built carries them.

## Main definitions

- `ConfigBuilder.Fits` — settings that fit together
- `ConfigBuilder.Carries` — the configuration has the settings of the builder

## Main results

- `config_accepts` — `build` accepts exactly the settings that fit together
-/

namespace Ruft

/-- Settings that fit together. -/
structure ConfigBuilder.Fits (b : ConfigBuilder) : Prop where
  limits : ∀ limit ∈ b.capacityLimits, 0 < limit.2
  uncompacted : b.snapshotAfterBytes ≤ b.maxUncompactedBytes
  unstable : b.maxBytesPerRpc ≤ b.maxUnstableBytes
  count : b.members.length ≤ b.maxMembers
  distinct : b.members.Nodup
  local_ : b.localId ∈ b.members
  election : 0 < b.electionTicks.1 ∧ b.electionTicks.1 < b.electionTicks.2
  heartbeat : 0 < b.heartbeatTicks ∧ b.heartbeatTicks < b.electionTicks.1
  checkQuorum : b.electionTicks.1 ≤ b.checkQuorumTicks

/-- The configuration has the settings of the builder, and the majority of its members. -/
structure ConfigBuilder.Carries (b : ConfigBuilder) (config : Config) : Prop where
  clusterId : config.clusterId = b.clusterId
  localId : config.localId = b.localId
  members : ∀ n, n ∈ config.members ↔ n ∈ b.members
  quorum : config.quorum = b.members.length / 2 + 1
  generation : config.generation = b.generation
  snapshotAfterEntries : config.snapshotAfterEntries = b.snapshotAfterEntries
  maxEntriesPerRpc : config.maxEntriesPerRpc = b.maxEntriesPerRpc
  maxBytesPerRpc : config.maxBytesPerRpc = b.maxBytesPerRpc
  maxInflightAppends : config.maxInflightAppends = b.maxInflightAppends
  maxPendingReads : config.maxPendingReads = b.maxPendingReads
  snapshotChunkBytes : config.snapshotChunkBytes = b.snapshotChunkBytes
  completionHistory : config.completionHistory = b.completionHistory

variable {b : ConfigBuilder} {config : Config}

theorem firstDuplicate_of_nodup {seen nodes : List NodeId} (distinct : nodes.Nodup)
    (fresh : ∀ n ∈ nodes, n ∉ seen) : firstDuplicate seen nodes = none := by
  induction nodes generalizing seen with
  | nil => rfl
  | cons n nodes ih =>
    obtain ⟨new, rest⟩ := List.nodup_cons.mp distinct
    obtain ⟨first, others⟩ := List.forall_mem_cons.mp fresh
    rw [firstDuplicate, if_neg first]
    refine ih rest fun m hm repeated => ?_
    rcases List.mem_cons.mp repeated with rfl | old
    · exact new hm
    · exact others m hm old

theorem length_ascending (nodes : List NodeId) : (ascending nodes).length = nodes.length :=
  (List.perm_insertionSort _ nodes).length_eq

namespace ConfigBuilder

theorem ensureAtLeast_eq_ok {limit requiredAtLeast : String} {value minimum : Nat} :
    ensureAtLeast limit value requiredAtLeast minimum = .ok () ↔ minimum ≤ value := by
  unfold ensureAtLeast
  split
  · next low => simp [Nat.not_le.mpr low]
  · next enough => simp [Nat.not_lt.mp enough]

theorem validateTiming_eq_ok : b.validateTiming = .ok () ↔
    (0 < b.electionTicks.1 ∧ b.electionTicks.1 < b.electionTicks.2) ∧
    (0 < b.heartbeatTicks ∧ b.heartbeatTicks < b.electionTicks.1) ∧
    b.electionTicks.1 ≤ b.checkQuorumTicks := by
  unfold validateTiming
  split
  · simp only [reduceCtorEq, false_iff]
    omega
  split
  · simp only [reduceCtorEq, false_iff]
    omega
  split
  · simp only [reduceCtorEq, false_iff]
    omega
  · simp only [true_iff]
    omega

theorem zeroLimit_eq_none : b.zeroLimit = none ↔ ∀ limit ∈ b.capacityLimits, 0 < limit.2 := by
  simp [zeroLimit, List.find?_eq_none, Nat.pos_iff_ne_zero]

theorem except_bind_eq_ok {ε α β : Type} {m : Except ε α} {f : α → Except ε β} {y : β}
    (h : (m >>= f) = .ok y) : ∃ x, m = .ok x ∧ f x = .ok y := by
  cases m with
  | error e => simp [bind, Except.bind] at h
  | ok x => exact ⟨x, rfl, h⟩

theorem fits_of_build (built : b.build = .ok config) : b.Fits ∧ b.Carries config := by
  unfold build at built
  split at built
  · simp at built
  split at built
  · simp at built
  next limits =>
  obtain ⟨_, uncompacted, built⟩ := except_bind_eq_ok built
  obtain ⟨_, unstable, built⟩ := except_bind_eq_ok built
  split at built
  · simp at built
  next count =>
  split at built
  · simp at built
  next distinct =>
  split at built
  · next mine =>
    obtain ⟨_, timing, built⟩ := except_bind_eq_ok built
    obtain ⟨election, heartbeat, checkQuorum⟩ := validateTiming_eq_ok.mp timing
    obtain rfl := Except.ok.inj built
    refine ⟨⟨zeroLimit_eq_none.mp limits, ensureAtLeast_eq_ok.mp uncompacted,
      ensureAtLeast_eq_ok.mp unstable, Nat.not_lt.mp count, (firstDuplicate_eq_none distinct).1, mine,
      election, heartbeat, checkQuorum⟩, ?_⟩
    have quorum := congrArg (· / 2 + 1) (length_ascending b.members)
    exact ⟨rfl, rfl, fun n => mem_ascending, quorum, rfl, rfl, rfl, rfl, rfl, rfl, rfl, rfl⟩
  · simp at built

theorem Fits.build (fits : b.Fits) : ∃ config, b.build = .ok config := by
  unfold ConfigBuilder.build
  rw [if_neg (List.ne_nil_of_mem fits.local_)]
  split
  · next limit found =>
    simp [zeroLimit_eq_none.mpr fits.limits] at found
  rw [ensureAtLeast_eq_ok.mpr fits.uncompacted, ensureAtLeast_eq_ok.mpr fits.unstable]
  simp only [bind, Except.bind]
  rw [if_neg (Nat.not_lt.mpr fits.count)]
  split
  · next node repeated =>
    have unique : firstDuplicate [] b.members = none :=
      firstDuplicate_of_nodup fits.distinct fun _ _ => List.not_mem_nil
    simp [unique] at repeated
  rw [dif_pos fits.local_,
    validateTiming_eq_ok.mpr ⟨fits.election, fits.heartbeat, fits.checkQuorum⟩]
  exact ⟨_, rfl⟩

end ConfigBuilder

/-- `build` accepts exactly the settings that fit together, and what it returns carries them. -/
theorem config_accepts (b : ConfigBuilder) :
    ((∃ config, b.build = .ok config) ↔ b.Fits) ∧
    ∀ config, b.build = .ok config → b.Carries config := by
  refine ⟨⟨?_, ConfigBuilder.Fits.build⟩, fun config built => (ConfigBuilder.fits_of_build built).2⟩
  rintro ⟨config, built⟩
  exact (ConfigBuilder.fits_of_build built).1

end Ruft
