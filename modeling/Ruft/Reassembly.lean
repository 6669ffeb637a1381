import Ruft.Exec

set_option autoImplicit false

/-!
# Snapshot reassembly

A receiver takes calls with any offsets, bytes and flags. The chunks that advance it line up
to one body, which the running digest is of; in-order chunks of a body always do.

## Main definitions

- `acceptChunk` — `SnapshotReceiver::accept` on the receiver in place
- `advancing` — the chunks of a run of calls that brought new bytes
- `Reassembles` — what the receiver holds after a run of calls

## Main results

- `snapshot_reassembly` — every run of calls reassembles, and every split of a body completes
- `repeated_flag_advances` — a repeat may carry the final flag and close nothing
-/

namespace Ruft

/-- The arguments of a call to `accept`. -/
structure Chunk where
  offset : Nat
  bytes : Bytes
  done : Bool
  deriving DecidableEq

/-- The bytes of a run of chunks. -/
def bodyOf (chunks : List Chunk) : Bytes := chunks.flatMap (·.bytes)

@[simp] theorem bodyOf_append (chunks later : List Chunk) :
    bodyOf (chunks ++ later) = bodyOf chunks ++ bodyOf later := List.flatMap_append

@[simp] theorem bodyOf_singleton (chunk : Chunk) : bodyOf [chunk] = chunk.bytes := by
  simp [bodyOf]

namespace SnapshotReceiver

/-- `accept` on the receiver in place: what comes before the first update may return early. -/
def acceptChunk (chunk : Chunk) : StateM SnapshotReceiver (Except Unit Bool) := do
  let r ← get
  if chunk.offset < r.nextOffset then
    return .ok (r.lastChunk.any fun last => last.1 == chunk.offset && last.2 == chunk.bytes)
  if chunk.offset ≠ r.nextOffset ∨ r.finalChunk then
    return .error ()
  if u64Max < chunk.offset + chunk.bytes.length then
    return .error ()
  if r.metadata.size < chunk.offset + chunk.bytes.length then
    return .error ()
  modify fun r => { r with hasher := r.hasher ++ chunk.bytes }
  modify fun r => { r with nextOffset := chunk.offset + chunk.bytes.length }
  modify fun r => { r with lastChunk := some (chunk.offset, chunk.bytes) }
  modify fun r => { r with finalChunk := chunk.done }
  return .ok true

variable {metadata : SnapshotMetadata} {r : SnapshotReceiver} {chunk : Chunk}
  {advanced calls : List Chunk}

/-- The receiver that a chunk has advanced. -/
def advanceBy (r : SnapshotReceiver) (chunk : Chunk) : SnapshotReceiver :=
  ⟨r.metadata, chunk.offset + chunk.bytes.length, r.hasher ++ chunk.bytes,
    some (chunk.offset, chunk.bytes), chunk.done⟩

/-- The chunk is the next one and fits. -/
structure Takes (r : SnapshotReceiver) (chunk : Chunk) : Prop where
  next : chunk.offset = r.nextOffset
  opened : r.finalChunk = false
  counted : chunk.offset + chunk.bytes.length ≤ u64Max
  fits : chunk.offset + chunk.bytes.length ≤ r.metadata.size

theorem acceptChunk_below (below : chunk.offset < r.nextOffset) : acceptChunk chunk r =
    (.ok (r.lastChunk.any fun last => last.1 == chunk.offset && last.2 == chunk.bytes), r) := by
  show (if _ then _ else _ : StateM SnapshotReceiver _) r = _
  rw [if_pos below]
  rfl

theorem acceptChunk_takes (h : r.Takes chunk) :
    acceptChunk chunk r = (.ok true, r.advanceBy chunk) := by
  obtain ⟨next, opened, counted, fits⟩ := h
  show (if _ then _ else if _ then _ else if _ then _ else if _ then _ else _ :
    StateM SnapshotReceiver _) r = _
  rw [if_neg (by omega), if_neg (by simp [next, opened]), if_neg (by omega), if_neg (by omega)]
  rfl

theorem acceptChunk_refused (above : ¬ chunk.offset < r.nextOffset) (h : ¬ r.Takes chunk) :
    acceptChunk chunk r = (.error (), r) := by
  show (if _ then _ else if _ then _ else if _ then _ else if _ then _ else _ :
    StateM SnapshotReceiver _) r = _
  rw [if_neg above]
  split
  · rfl
  · next open_ =>
    push Not at open_
    split
    · rfl
    · next counted =>
      split
      · rfl
      · next fits =>
        exact absurd ⟨open_.1, by simpa using open_.2, Nat.not_lt.mp counted, Nat.not_lt.mp fits⟩ h

theorem accept_refused (above : ¬ chunk.offset < r.nextOffset) (h : ¬ r.Takes chunk) :
    r.accept chunk.offset chunk.bytes chunk.done = none := by
  rw [accept, if_neg above]
  split
  · rfl
  · next open_ =>
    push Not at open_
    split
    · rfl
    · next counted =>
      split
      · rfl
      · next fits =>
        exact absurd ⟨open_.1, by simpa using open_.2, Nat.not_lt.mp counted, Nat.not_lt.mp fits⟩ h

/-- The call in place agrees with the function that the core's step uses. -/
theorem acceptChunk_run (r : SnapshotReceiver) (chunk : Chunk) :
    acceptChunk chunk r = match r.accept chunk.offset chunk.bytes chunk.done with
      | none => (.error (), r)
      | some (r', fresh) => (.ok fresh, r') := by
  by_cases below : chunk.offset < r.nextOffset
  · rw [acceptChunk_below below, accept, if_pos below]
  · by_cases takes : r.Takes chunk
    · rw [acceptChunk_takes takes, accept, if_neg below]
      obtain ⟨next, opened, counted, fits⟩ := takes
      rw [if_neg (by simp [next, opened]), if_neg (by omega), if_neg (by omega)]
      rfl
    · rw [acceptChunk_refused below takes, accept_refused below takes]

/-- The receiver after a run of calls. -/
def feed (r : SnapshotReceiver) (calls : List Chunk) : SnapshotReceiver :=
  calls.foldl (fun r chunk => (acceptChunk chunk r).2) r

/-- The call is accepted and is no repeat. -/
def Advances (r : SnapshotReceiver) (chunk : Chunk) : Prop :=
  (acceptChunk chunk r).1 = .ok true ∧ ¬ chunk.offset < r.nextOffset

theorem advances_iff : r.Advances chunk ↔ r.Takes chunk := by
  constructor
  · rintro ⟨accepted, above⟩
    by_contra refused
    rw [acceptChunk_refused above refused] at accepted
    simp at accepted
  · intro takes
    exact ⟨by rw [acceptChunk_takes takes], by rw [takes.next]; exact Nat.lt_irrefl _⟩

instance : Decidable (r.Takes chunk) :=
  decidable_of_iff (chunk.offset = r.nextOffset ∧ r.finalChunk = false ∧
      chunk.offset + chunk.bytes.length ≤ u64Max ∧
      chunk.offset + chunk.bytes.length ≤ r.metadata.size)
    ⟨fun ⟨next, opened, counted, fits⟩ => ⟨next, opened, counted, fits⟩,
      fun ⟨next, opened, counted, fits⟩ => ⟨next, opened, counted, fits⟩⟩

instance : Decidable (r.Advances chunk) := decidable_of_iff _ advances_iff.symm

/-- The chunks of a run of calls that advanced the receiver. -/
def advancing (r : SnapshotReceiver) : List Chunk → List Chunk
  | [] => []
  | chunk :: calls =>
    let after := (acceptChunk chunk r).2
    if r.Advances chunk then chunk :: after.advancing calls else after.advancing calls

/-- What does not advance the receiver leaves it as it was. -/
theorem acceptChunk_stays (h : ¬ r.Advances chunk) : (acceptChunk chunk r).2 = r := by
  rw [advances_iff] at h
  by_cases below : chunk.offset < r.nextOffset
  · rw [acceptChunk_below below]
  · rw [acceptChunk_refused below h]

theorem advancing_cons : r.advancing (chunk :: calls) =
    r.advancing [chunk] ++ (acceptChunk chunk r).2.advancing calls := by
  simp only [advancing]
  split <;> rfl

/-- The receiver holds what the chunks so far add up to. -/
structure Assembles (metadata : SnapshotMetadata) (advanced : List Chunk) (r : SnapshotReceiver) :
    Prop where
  about : r.metadata = metadata
  hasher : r.hasher = bodyOf advanced
  offset : r.nextOffset = (bodyOf advanced).length
  bounded : r.nextOffset ≤ metadata.size
  final : r.finalChunk = advanced.getLast?.any (·.done)
  opened : r.finalChunk = false → ∀ earlier ∈ advanced, earlier.done = false
  once : advanced.Pairwise fun earlier _ => earlier.done = false

theorem Assembles.new : Assembles metadata [] (new metadata) :=
  ⟨rfl, rfl, rfl, Nat.zero_le _, rfl, fun _ _ among => absurd among List.not_mem_nil, .nil⟩

theorem Assembles.advance (h : Assembles metadata advanced r) (takes : r.Takes chunk) :
    Assembles metadata (advanced ++ [chunk]) (r.advanceBy chunk) where
  about := h.about
  hasher := by simp [advanceBy, h.hasher]
  offset := by simp [advanceBy, takes.next, h.offset]
  bounded := h.about ▸ takes.fits
  final := by simp [advanceBy]
  opened unfinished earlier among := by
    rcases List.mem_append.mp among with among | among
    · exact h.opened takes.opened earlier among
    · exact List.mem_singleton.mp among ▸ unfinished
  once := List.pairwise_append.mpr ⟨h.once, List.pairwise_singleton _ _,
    fun earlier among _ _ => h.opened takes.opened earlier among⟩

/-- What one call preserves. -/
theorem Assembles.call (h : Assembles metadata advanced r) (chunk : Chunk) :
    Assembles metadata (advanced ++ r.advancing [chunk]) (acceptChunk chunk r).2 := by
  by_cases advances : r.Advances chunk
  · have takes := advances_iff.mp advances
    rw [acceptChunk_takes takes]
    simpa [advancing, advances] using h.advance takes
  · rw [acceptChunk_stays advances]
    simpa [advancing, advances] using h

/-- What a run of calls preserves. -/
theorem Assembles.feed (h : Assembles metadata advanced r) (calls : List Chunk) :
    Assembles metadata (advanced ++ r.advancing calls) (r.feed calls) := by
  induction calls generalizing advanced r with
  | nil => simpa [advancing, SnapshotReceiver.feed] using h
  | cons chunk calls ih =>
    rw [advancing_cons, ← List.append_assoc]
    exact ih (h.call chunk)

/-- Soundness: what the receiver of a snapshot holds after a run of calls. -/
structure Reassembles [Sha256] (metadata : SnapshotMetadata) (advanced : List Chunk)
    (r : SnapshotReceiver) : Prop where
  /-- The offset counts the bytes of the chunks that advanced the receiver. -/
  offset : r.nextOffset = (bodyOf advanced).length
  bounded : r.nextOffset ≤ metadata.size
  /-- Behind a final chunk that advanced the receiver nothing advances. -/
  once : advanced.Pairwise fun earlier _ => earlier.done = false
  /-- An error leaves the receiver as it was, and so does a repeat, whatever its flag. -/
  error : ∀ chunk, (acceptChunk chunk r).1 = .error () → (acceptChunk chunk r).2 = r
  repeated : ∀ chunk, chunk.offset < r.nextOffset → (acceptChunk chunk r).2 = r
  complete : r.isCompleteAndValid = true ↔
    (∃ last, advanced.getLast? = some last ∧ last.done = true) ∧
      (bodyOf advanced).length = metadata.size ∧ Sha256.digest (bodyOf advanced) = metadata.digest

theorem Assembles.reassembles [Sha256] (h : Assembles metadata advanced r) :
    Reassembles metadata advanced r where
  offset := h.offset
  bounded := h.bounded
  once := h.once
  error chunk failed := acceptChunk_stays fun advances => by simp [advances.1] at failed
  repeated chunk below := acceptChunk_stays fun advances => advances.2 below
  complete := by
    rw [isCompleteAndValid, h.final, h.offset, h.hasher, h.about]
    cases advanced.getLast? <;> simp [and_assoc]

/-- The chunks of a body that is cut into pieces. -/
def inOrder (offset : Nat) : List Bytes → List Chunk
  | [] => []
  | [piece] => [⟨offset, piece, true⟩]
  | piece :: pieces => ⟨offset, piece, false⟩ :: inOrder (offset + piece.length) pieces

theorem feed_inOrder (r : SnapshotReceiver) {pieces : List Bytes} (ne : pieces ≠ []) (opened : r.finalChunk = false)
    (counted : r.nextOffset + pieces.flatten.length ≤ u64Max)
    (fits : r.nextOffset + pieces.flatten.length ≤ r.metadata.size) :
    (r.feed (inOrder r.nextOffset pieces)).metadata = r.metadata ∧
    (r.feed (inOrder r.nextOffset pieces)).finalChunk = true ∧
    (r.feed (inOrder r.nextOffset pieces)).nextOffset = r.nextOffset + pieces.flatten.length ∧
    (r.feed (inOrder r.nextOffset pieces)).hasher = r.hasher ++ pieces.flatten := by
  induction pieces generalizing r with
  | nil => exact absurd rfl ne
  | cons piece pieces ih =>
    rw [List.flatten_cons, List.length_append] at counted fits
    have takes : ∀ done, r.Takes ⟨r.nextOffset, piece, done⟩ := fun done =>
      ⟨rfl, opened, by show r.nextOffset + piece.length ≤ _; omega,
        by show r.nextOffset + piece.length ≤ _; omega⟩
    cases pieces with
    | nil =>
      simp only [inOrder, feed, List.foldl_cons, List.foldl_nil, acceptChunk_takes (takes true)]
      simp [advanceBy]
    | cons next rest =>
      simp only [inOrder, feed, List.foldl_cons, acceptChunk_takes (takes false)]
      have after := ih (r.advanceBy ⟨r.nextOffset, piece, false⟩) (List.cons_ne_nil _ _) rfl
        (by simp only [advanceBy]; omega) (by simp only [advanceBy]; omega)
      simpa [feed, advanceBy, Nat.add_assoc] using after

end SnapshotReceiver

open SnapshotReceiver in
/-- Every run of calls reassembles the chunks that advanced the receiver, and every body that is
cut into pieces and delivered in order completes its transfer. -/
theorem snapshot_reassembly [Sha256] (metadata : SnapshotMetadata) (counted : metadata.size ≤ u64Max) :
    (∀ calls, Reassembles metadata ((SnapshotReceiver.new metadata).advancing calls)
      ((SnapshotReceiver.new metadata).feed calls)) ∧
    ∀ body pieces, body.length = metadata.size → Sha256.digest body = metadata.digest →
      pieces ≠ [] → pieces.flatten = body →
      ((SnapshotReceiver.new metadata).feed (inOrder 0 pieces)).isCompleteAndValid = true := by
  refine ⟨fun calls => (Assembles.new.feed calls).reassembles, ?_⟩
  rintro _ pieces size digest ne rfl
  obtain ⟨about, final, offset, hasher⟩ := feed_inOrder (SnapshotReceiver.new metadata) ne rfl
    (by simp only [SnapshotReceiver.new]; omega) (by simp only [SnapshotReceiver.new]; omega)
  have start : (SnapshotReceiver.new metadata).nextOffset = 0 := rfl
  rw [start] at about final offset hasher
  rw [isCompleteAndValid, final, offset, about, hasher]
  simp [SnapshotReceiver.new, size, digest]

/-- SHA-256 of a body that is the letters `abc`. -/
@[reducible] def sha256Letters : Sha256 := ⟨fun _ => ⟨[
  0xba, 0x78, 0x16, 0xbf, 0x8f, 0x01, 0xcf, 0xea, 0x41, 0x41, 0x40, 0xde, 0x5d, 0xae, 0x22, 0x23,
  0xb0, 0x03, 0x61, 0xa3, 0x96, 0x17, 0x7a, 0x9c, 0xb4, 0x10, 0xff, 0x61, 0xf2, 0x00, 0x15, 0xad]⟩⟩

def lettersBody : SnapshotMetadata :=
  { emptyBody 1 1 1 Nat.zero_lt_one Nat.zero_lt_one with
    size := 3, digest := sha256Letters.digest [0x61, 0x62, 0x63] }

/-- Three letters in three pieces, one of them empty. -/
theorem snapshot_reassembly_letters : @SnapshotReceiver.isCompleteAndValid sha256Letters
    ((SnapshotReceiver.new lettersBody).feed
      (SnapshotReceiver.inOrder 0 [[0x61, 0x62], [], [0x63]])) = true := by
  let _ : Sha256 := sha256Letters
  exact (snapshot_reassembly lettersBody (by decide)).2 [0x61, 0x62, 0x63]
    [[0x61, 0x62], [], [0x63]] rfl rfl (by decide) rfl

open SnapshotReceiver in
/-- The first chunk is repeated with the flag set: it is accepted, and the next one advances. -/
theorem repeated_flag_advances : ¬ ∀ (metadata : SnapshotMetadata) (calls between : List Chunk)
    (final next : Chunk), final.done = true →
    (acceptChunk final ((SnapshotReceiver.new metadata).feed calls)).1 = .ok true →
    ¬ ((SnapshotReceiver.new metadata).feed (calls ++ final :: between)).Advances next := by
  intro h
  refine h lettersBody [⟨0, [0x61], false⟩] [] ⟨0, [0x61], true⟩ ⟨1, [0x62, 0x63], true⟩ rfl rfl ?_
  exact advances_iff.mpr ⟨rfl, rfl, by decide, by decide⟩

end Ruft
