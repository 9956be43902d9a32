import Sub0Log.Producer.Writer

/-!
# Sequence numbers of a chunk's records

`reserve` numbers the reservations of a chunk in offset order, `commit` copies the number into
the head word it stores, whenever that is. The number is the ordinal of the reservation in
sixteen bits (`Ordinals`), so what is committed increases with the offset as long as a chunk
has at most `2 ^ 16` reservations, however they are committed, and for no longer: the record
behind those is number zero again (`increases_iff`).
-/

namespace Sub0Log.Producer

open Wire

/-! ### A writer's reservations and commits -/

/-- The word `commit` stores: the caller's head under the number of the reservation. -/
def commitWord (slot : Reservation) (head : RecordHead) : Nat :=
  RecordHead.pack { head with sequence := slot.sequence }

/-- `Logger.commit` stores that word. -/
theorem commit_stores {τ : Type} (lg : Logger τ) (slot : Reservation) (kind : RecordKind)
    (flags : UInt8) (payloadBytes : Nat) (publishes : Option Written) (sequence : UInt16) :
    lg.commit slot kind flags payloadBytes publishes = lg.storeHeadWord slot.headWord
      (commitWord slot ⟨UInt16.ofNat payloadBytes, kind, flags, sequence⟩) publishes := rfl

/-- What a thread does with the writer of its chunk: it asks for a slot, or it commits the
slot that it was given as the `index`-th. -/
inductive WriterOp
  | reserve (payloadBytes : UInt32)
  | commit (index : Nat) (head : RecordHead)

/-- A writer, the reservations it handed out and the head words stored, with their addresses. -/
structure WriterRun where
  writer : ChunkWriter
  slots : List Reservation
  words : List (Nat × Nat)

namespace WriterRun

/-- The writer of a freshly claimed chunk. -/
def start (body : Nat) (chunkBytes : UInt32) : WriterRun :=
  ⟨⟨body, chunkBytes.toNat - sizeofChunkHeader, 0, 0⟩, [], []⟩

/-- One operation; only a slot that was handed out can be committed. -/
def step (s : WriterRun) : WriterOp → Option WriterRun
  | .reserve payloadBytes =>
    match s.writer.reserve payloadBytes.toNat with
    | none => some s
    | some (slot, writer) => some { s with writer := writer, slots := s.slots ++ [slot] }
  | .commit index head =>
    s.slots[index]?.map fun slot =>
      { s with words := s.words ++ [(slot.headWord, commitWord slot head)] }

def run (s : WriterRun) (ops : List WriterOp) : Option WriterRun := ops.foldlM step s

/-- The committed numbers increase with the address of the record. -/
def SequenceIncreases (s : WriterRun) : Prop :=
  ∀ p ∈ s.words, ∀ q ∈ s.words, p.1 < q.1 →
    (RecordHead.unpack p.2).sequence < (RecordHead.unpack q.2).sequence

theorem run_cons (s : WriterRun) (op : WriterOp) (ops : List WriterOp) :
    s.run (op :: ops) = (s.step op).bind fun s' => s'.run ops := rfl

theorem run_append (s : WriterRun) (xs ys : List WriterOp) :
    s.run (xs ++ ys) = (s.run xs).bind fun s' => s'.run ys := List.foldlM_append

theorem step_of_fits {s : WriterRun} {payloadBytes : UInt32}
    (h : s.writer.Fits payloadBytes.toNat) : s.step (.reserve payloadBytes) = some { s with
      writer := s.writer.advance payloadBytes.toNat, slots := s.slots ++ [s.writer.slot] } := by
  show (match s.writer.reserve payloadBytes.toNat with
    | none => some s
    | some (slot, writer) => some { s with writer := writer, slots := s.slots ++ [slot] }) = _
  rw [ChunkWriter.reserve_of_fits h]

/-- A refused reservation moves nothing. -/
theorem step_of_not_fits {s : WriterRun} {payloadBytes : UInt32}
    (h : ¬s.writer.Fits payloadBytes.toNat) : s.step (.reserve payloadBytes) = some s := by
  show (match s.writer.reserve payloadBytes.toNat with
    | none => some s
    | some (slot, writer) => some { s with writer := writer, slots := s.slots ++ [slot] }) = _
  rw [ChunkWriter.reserve_of_not_fits h]

theorem step_commit {s : WriterRun} {index : Nat} (h : index < s.slots.length)
    (head : RecordHead) : s.step (.commit index head) = some { s with
      words := s.words ++ [(s.slots[index].headWord, commitWord s.slots[index] head)] } :=
  congrArg (Option.map _) (List.getElem?_eq_getElem h)

theorem commitWord_sequence (slot : Reservation) (head : RecordHead) :
    (RecordHead.unpack (commitWord slot head)).sequence = slot.sequence := by
  obtain ⟨payloadBytes, kind, flags, -⟩ := head
  have h₁ := payloadBytes.toNat_lt
  have h₂ := kind.toByte.toNat_lt
  have h₃ := flags.toNat_lt
  have h₄ := slot.sequence.toNat_lt
  have hfield : commitWord slot ⟨payloadBytes, kind, flags, slot.sequence⟩ / 2 ^ 32 % 2 ^ 16 =
      slot.sequence.toNat := by
    show (payloadBytes.toNat + kind.toByte.toNat * 2 ^ 16 + flags.toNat * 2 ^ 24
      + slot.sequence.toNat * 2 ^ 32 + cCommitTag * 2 ^ 48) / 2 ^ 32 % 2 ^ 16 = _
    omega
  show UInt16.ofNat (commitWord slot ⟨payloadBytes, kind, flags, slot.sequence⟩ / 2 ^ 32
    % 2 ^ 16) = _
  rw [hfield, UInt16.ofNat_toNat]

/-! ### The ordinals -/

/-- The `i`-th reservation has number `i`, as far as sixteen bits go, and lies behind those
before it; what is committed are reservations under their numbers. -/
structure Ordinals (s : WriterRun) : Prop where
  next : s.writer.sequence = UInt16.ofNat s.slots.length
  ordinal : ∀ i slot, s.slots[i]? = some slot → slot.sequence = UInt16.ofNat i
  below : ∀ slot ∈ s.slots, slot.headWord < s.writer.body + s.writer.offset
  increasing : s.slots.Pairwise fun a b => a.headWord < b.headWord
  committed : ∀ p ∈ s.words, ∃ slot ∈ s.slots, ∃ head, p = (slot.headWord, commitWord slot head)

variable {s s' : WriterRun} {ops : List WriterOp} {op : WriterOp}

theorem ordinals_start (body : Nat) (chunkBytes : UInt32) : (start body chunkBytes).Ordinals where
  next := rfl
  ordinal _ _ hslot := by cases hslot
  below _ hslot := by cases hslot
  increasing := List.Pairwise.nil
  committed _ hp := by cases hp

/-- One operation keeps the ordinals. -/
theorem Ordinals.step (h : s.Ordinals) (hstep : s.step op = some s') : s'.Ordinals := by
  cases op with
  | reserve payloadBytes =>
    by_cases hfits : s.writer.Fits payloadBytes.toNat
    · rw [step_of_fits hfits] at hstep
      obtain rfl := Option.some.inj hstep
      have hpos : 0 < recordFootprint payloadBytes.toNat :=
        lt_of_lt_of_le (by decide : 0 < 8) (Nat.le_add_right _ _)
      refine ⟨?_, fun i slot hslot => ?_, fun slot hslot => ?_, ?_, fun p hp => ?_⟩
      · show s.writer.sequence + 1 = UInt16.ofNat (s.slots ++ [s.writer.slot]).length
        rw [h.next, List.length_append, UInt16.ofNat_add]
        rfl
      · -- the new reservation is the last
        rcases Nat.lt_trichotomy i s.slots.length with hlt | rfl | hgt
        · rw [List.getElem?_append_left hlt] at hslot
          exact h.ordinal i slot hslot
        · rw [List.getElem?_concat_length] at hslot
          obtain rfl := Option.some.inj hslot
          exact h.next
        · rw [List.getElem?_eq_none (by rw [List.length_append]; exact hgt)] at hslot
          cases hslot
      · show slot.headWord < s.writer.body + (s.writer.offset + recordFootprint payloadBytes.toNat)
        rcases List.mem_append.mp hslot with hold | hnew
        · have hbelow := h.below slot hold
          omega
        · rw [List.mem_singleton.mp hnew]
          show s.writer.body + s.writer.offset < _
          omega
      · refine List.pairwise_append.mpr ⟨h.increasing, List.pairwise_singleton _ _, ?_⟩
        intro a ha b hb
        rw [List.mem_singleton.mp hb]
        exact h.below a ha
      · obtain ⟨slot, hslot, hword⟩ := h.committed p hp
        exact ⟨slot, List.mem_append_left _ hslot, hword⟩
    · rw [step_of_not_fits hfits] at hstep
      obtain rfl := Option.some.inj hstep
      exact h
  | commit index head =>
    obtain ⟨slot, hslot, rfl⟩ := Option.map_eq_some_iff.mp hstep
    refine ⟨h.next, h.ordinal, h.below, h.increasing, fun p hp => ?_⟩
    rcases List.mem_append.mp hp with hold | hnew
    · exact h.committed p hold
    · exact ⟨slot, List.mem_of_getElem? hslot, head, List.mem_singleton.mp hnew⟩

theorem Ordinals.run (h : s.Ordinals) (hrun : s.run ops = some s') : s'.Ordinals := by
  induction ops generalizing s with
  | nil =>
    obtain rfl := Option.some.inj hrun
    exact h
  | cons op ops ih =>
    rw [run_cons] at hrun
    obtain ⟨mid, hstep, hrest⟩ := Option.bind_eq_some_iff.mp hrun
    exact ih (h.step hstep) hrest

/-- Up to `2 ^ 16` reservations the ordinals are the numbers. -/
theorem Ordinals.increases (h : s.Ordinals) (hcount : s.slots.length ≤ 2 ^ 16) :
    s.SequenceIncreases := by
  intro p hp q hq hlt
  obtain ⟨a, ha, head, rfl⟩ := h.committed p hp
  obtain ⟨b, hb, head', rfl⟩ := h.committed q hq
  rw [commitWord_sequence, commitWord_sequence]
  obtain ⟨i, hi, rfl⟩ := List.getElem_of_mem ha
  obtain ⟨j, hj, rfl⟩ := List.getElem_of_mem hb
  rw [h.ordinal i _ (List.getElem?_eq_getElem hi), h.ordinal j _ (List.getElem?_eq_getElem hj)]
  -- the addresses say which of the two was reserved first
  have hij : i < j := by
    refine Nat.lt_of_not_le fun hle => ?_
    rcases Nat.eq_or_lt_of_le hle with rfl | hji
    · exact Nat.lt_irrefl _ hlt
    · exact Nat.lt_asymm hlt (List.pairwise_iff_getElem.mp h.increasing j i hj hi hji)
  rw [UInt16.lt_iff_toNat_lt, UInt16.toNat_ofNat_of_lt' (lt_of_lt_of_le hi hcount),
    UInt16.toNat_ofNat_of_lt' (lt_of_lt_of_le hj hcount)]
  exact hij

/-- Two commits are enough to show that the numbers begin again. -/
theorem Ordinals.begins_again (h : s.Ordinals) (hcount : 2 ^ 16 < s.slots.length)
    (head : RecordHead) :
    ∃ s', s.run [.commit 0 head, .commit (2 ^ 16) head] = some s' ∧ s'.slots = s.slots ∧
      ¬s'.SequenceIncreases := by
  have hfirst : 0 < s.slots.length := lt_trans (by decide) hcount
  refine ⟨{ s with words := s.words ++ [(s.slots[0].headWord, commitWord s.slots[0] head)] ++
    [(s.slots[2 ^ 16].headWord, commitWord s.slots[2 ^ 16] head)] }, ?_, rfl, fun hincreases => ?_⟩
  · have hsecond := step_commit (s := { s with
      words := s.words ++ [(s.slots[0].headWord, commitWord s.slots[0] head)] }) hcount head
    rw [run_cons, step_commit hfirst, Option.bind_some, run_cons, hsecond]
    rfl
  · have hlt := hincreases (s.slots[0].headWord, commitWord s.slots[0] head)
      (List.mem_append_left _ (List.mem_append_right _ List.mem_cons_self))
      (s.slots[2 ^ 16].headWord, commitWord s.slots[2 ^ 16] head)
      (List.mem_append_right _ List.mem_cons_self)
      (List.pairwise_iff_getElem.mp h.increasing 0 (2 ^ 16) hfirst hcount (by decide))
    rw [commitWord_sequence, commitWord_sequence,
      h.ordinal 0 _ (List.getElem?_eq_getElem hfirst),
      h.ordinal (2 ^ 16) _ (List.getElem?_eq_getElem hcount)] at hlt
    exact absurd hlt (by decide)

/-- Commits hand out no slot. -/
theorem slots_of_commits (hops : ∀ op ∈ ops, ∃ index head, op = .commit index head)
    (hrun : s.run ops = some s') : s'.slots = s.slots := by
  induction ops generalizing s with
  | nil => rw [Option.some.inj hrun]
  | cons op ops ih =>
    rw [run_cons] at hrun
    obtain ⟨mid, hstep, hrest⟩ := Option.bind_eq_some_iff.mp hrun
    obtain ⟨index, head, rfl⟩ := hops op List.mem_cons_self
    obtain ⟨slot, -, rfl⟩ := Option.map_eq_some_iff.mp hstep
    exact ih (s := { s with words := s.words ++ [(slot.headWord, commitWord slot head)] })
      (fun op hop => hops op (List.mem_cons_of_mem _ hop)) hrest

/-- **As long as the ordinals fit.** However what was reserved in a run is committed, the
numbers increase with the offset, if and only if no more than `2 ^ 16` were reserved. -/
theorem increases_iff {body : Nat} {chunkBytes : UInt32}
    (hrun : (start body chunkBytes).run ops = some s) :
    (∀ commits s', (∀ op ∈ commits, ∃ index head, op = .commit index head) →
      s.run commits = some s' → s'.SequenceIncreases) ↔ s.slots.length ≤ 2 ^ 16 := by
  have hs := (ordinals_start body chunkBytes).run hrun
  constructor
  · intro hall
    by_contra hcount
    obtain ⟨s', hcommits, -, hnot⟩ := hs.begins_again (Nat.lt_of_not_le hcount)
      ⟨0, .message, 0, 0⟩
    refine hnot (hall _ s' ?_ hcommits)
    intro op hop
    rcases List.mem_cons.mp hop with rfl | hlast
    · exact ⟨_, _, rfl⟩
    · exact ⟨_, _, List.mem_singleton.mp hlast⟩
  · intro hcount commits s' hops hcommits
    refine (hs.run hcommits).increases ?_
    rw [slots_of_commits hops hcommits]
    exact hcount

/-- A Message is committed after its Continuation. -/
theorem increases_iff_chain :
    (∀ commits s', (∀ op ∈ commits, ∃ index head, op = .commit index head) →
      WriterRun.run ⟨⟨32, 96, 64, 2⟩, [⟨32, 0⟩, ⟨64, 1⟩],
        [(64, commitWord ⟨64, 1⟩ ⟨17, .continuation, 0, 0⟩),
          (32, commitWord ⟨32, 0⟩ ⟨24, .message, 4, 0⟩)]⟩ commits = some s' →
      s'.SequenceIncreases) ↔ 2 ≤ 2 ^ 16 :=
  @increases_iff _ [.reserve 24, .reserve 17, .commit 1 ⟨17, .continuation, 0, 0⟩,
    .commit 0 ⟨24, .message, 4, 0⟩] 32 128 rfl

/-! ### A chunk with more records -/

/-- Reservations of one size, as long as there is room. -/
theorem run_reserves {n : Nat} {payloadBytes : UInt32} (hshort : payloadBytes.toNat ≤ 0xFFFF)
    (hroom : s.writer.offset + n * recordFootprint payloadBytes.toNat ≤ s.writer.size) :
    ∃ s', s.run (List.replicate n (.reserve payloadBytes)) = some s' ∧
      s'.slots.length = s.slots.length + n := by
  induction n generalizing s with
  | zero => exact ⟨s, rfl, rfl⟩
  | succ n ih =>
    rw [Nat.succ_mul] at hroom
    have hfits : s.writer.Fits payloadBytes.toNat := ⟨hshort, by omega⟩
    obtain ⟨s', hrest, hlength⟩ := @ih { s with
        writer := s.writer.advance payloadBytes.toNat, slots := s.slots ++ [s.writer.slot] }
      (by
        show s.writer.offset + recordFootprint payloadBytes.toNat + _ ≤ s.writer.size
        omega)
    refine ⟨s', ?_, ?_⟩
    · rw [List.replicate_succ, run_cons, step_of_fits hfits]
      exact hrest
    · rw [hlength, List.length_append, Nat.add_assoc, Nat.add_comm n]
      rfl

/-- In a chunk of 4 MiB the 65537th record without arguments has the number of the first. -/
theorem sequence_begins_again :
    Segment.validateChunkBytes 0x400000 = true ∧
    ∃ s, (start 64 0x400000).run (List.replicate 65537 (.reserve 24) ++
        [.commit 0 ⟨24, .message, 0, 0⟩, .commit (2 ^ 16) ⟨24, .message, 0, 0⟩]) = some s ∧
      ¬s.SequenceIncreases := by
  refine ⟨by decide, ?_⟩
  obtain ⟨mid, hreserves, hlength⟩ := @run_reserves (start 64 0x400000) 65537 24 (by decide)
    (by decide)
  have hcount : 2 ^ 16 < mid.slots.length := by
    rw [hlength]
    decide
  obtain ⟨s, hcommits, -, hnot⟩ := ((ordinals_start 64 0x400000).run hreserves).begins_again
    hcount ⟨24, .message, 0, 0⟩
  refine ⟨s, ?_, hnot⟩
  rw [run_append, hreserves]
  exact hcommits

end WriterRun

end Sub0Log.Producer
