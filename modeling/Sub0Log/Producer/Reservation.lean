import Sub0Log.Library.Tiling
import Sub0Log.Producer.Chain

/-!
# Reserving a chain on any writer

`reserveChain` works out what a Message and its Continuations take before it reserves the
first of them. Here it is a function of the writer alone, whatever its state, the Message's
size and the overflows; `reserveChain_refines` says that the program of that name, run by a
thread, does what the function says for the overflows of the arguments.
-/

open Interleaving Tiling

namespace Sub0Log.Producer

open Wire

/-- `ArgOverflow`: the bytes still to place and the argument they belong to. -/
structure ArgOverflow where
  tail : List UInt8
  argIndex : UInt8

/-- `recordFootprint`, in the arithmetic of its 32-bit argument. -/
def recordFootprint32 (payloadBytes : Nat) : Nat :=
  8 + (payloadBytes + (cRecordAlign - 1)) % 2 ^ 32 / cRecordAlign * cRecordAlign

/-- What the slices of an overflow of `remaining` bytes take. -/
def sliceNeed (remaining : Nat) : Nat :=
  if remaining = 0 then 0
  else
    let sliceLen := min remaining cInlineBytesCap
    recordFootprint32 (sizeofContinuationPayload + sliceLen) + sliceNeed (remaining - sliceLen)
termination_by remaining
decreasing_by
  unfold cInlineBytesCap
  omega

/-- `needed`. -/
def chainNeed (messagePayloadBytes : UInt32) (overflows : List ArgOverflow) : Nat :=
  overflows.foldl (fun needed o => needed + sliceNeed o.tail.length)
    (recordFootprint32 messagePayloadBytes.toNat)

/-- The writer and the output arguments of `reserveChain`; `slotCount` is the number of
`contSlots`. -/
structure ChainState where
  writer : ChunkWriter
  messageSlot : Option Reservation
  contSlots : List (Reservation × ContinuationSlot)

/-- The inner loop: the slices of one overflow. -/
def reserveSlices (maxSlots : Nat) (argIndex : UInt8) (source : List UInt8) (c : ChainState) :
    Bool × ChainState :=
  if source = [] then (true, c)
  else
    let slice := source.take cInlineBytesCap
    match c.writer.reserve (sizeofContinuationPayload + slice.length) with
    | none => (false, c)
    | some (slot, writer) =>
      if maxSlots ≤ c.contSlots.length then (false, { c with writer := writer })
      else
        reserveSlices maxSlots argIndex (source.drop cInlineBytesCap)
          { c with writer := writer, contSlots := c.contSlots ++ [(slot, ⟨argIndex, slice⟩)] }
termination_by source.length
decreasing_by
  have hpos : 0 < source.length := List.length_pos_iff.mpr ‹_›
  rw [List.length_drop]
  unfold cInlineBytesCap
  omega

/-- The outer loop. -/
def reserveOverflows (maxSlots : Nat) : List ArgOverflow → ChainState → Bool × ChainState
  | [], c => (true, c)
  | o :: rest, c =>
    match reserveSlices maxSlots o.argIndex o.tail c with
    | (false, c) => (false, c)
    | (true, c) => reserveOverflows maxSlots rest c

/-- `reserveChain`. -/
def ChunkWriter.reserveChain (w : ChunkWriter) (maxSlots : Nat) (messagePayloadBytes : UInt32)
    (overflows : List ArgOverflow) : Bool × ChainState :=
  if w.remaining < chainNeed messagePayloadBytes overflows then (false, ⟨w, .none, []⟩)
  else
    match w.reserve messagePayloadBytes.toNat with
    | .none => (false, ⟨w, .none, []⟩)
    | some (slot, writer) => reserveOverflows maxSlots overflows ⟨writer, some slot, []⟩

/-- The overflows `emitChained` works out. -/
def overflowsOf (args : List Arg) : List ArgOverflow :=
  args.zipIdx.filterMap fun (a, i) =>
    if 0 < a.overflowLen then some ⟨a.tail, UInt8.ofNat i⟩ else none

/-! ### The need -/

/-- The Continuations of some overflows. -/
def overflowSlots (overflows : List ArgOverflow) : List ContinuationSlot :=
  overflows.flatMap fun o => (slices o.tail).map fun bytes => ⟨o.argIndex, bytes⟩

theorem recordFootprint32_eq {payloadBytes : Nat} (h : payloadBytes ≤ 0xFFFFFF) :
    recordFootprint32 payloadBytes = recordFootprint payloadBytes := by
  unfold recordFootprint32 recordFootprint paddedPayload
  rw [Nat.mod_eq_of_lt]
  unfold cRecordAlign
  omega

theorem continuation_short {slot : ContinuationSlot} (h : slot.bytes.length ≤ cInlineBytesCap) :
    continuationPayloadBytes slot ≤ 0xFFFF := by
  unfold continuationPayloadBytes sizeofContinuationPayload
  unfold cInlineBytesCap at h
  omega

/-- The first loop counts what the slices of an overflow take. -/
theorem sliceNeed_eq (argIndex : UInt8) (source : List UInt8) :
    sliceNeed source.length =
      slotBytes ((slices source).map fun bytes => ⟨argIndex, bytes⟩) := by
  fun_induction slices source with
  | case1 => rw [sliceNeed, if_pos List.length_nil]; rfl
  | case2 source hne ih =>
    have hlength : source.length ≠ 0 := fun h => hne (List.length_eq_zero_iff.mp h)
    have hshort : sizeofContinuationPayload + min source.length cInlineBytesCap ≤ 0xFFFFFF := by
      unfold sizeofContinuationPayload cInlineBytesCap
      omega
    have hrest : source.length - min source.length cInlineBytesCap =
        (source.drop cInlineBytesCap).length := by
      rw [List.length_drop]
      omega
    rw [sliceNeed, if_neg hlength]
    show recordFootprint32 _ + sliceNeed _ = _
    rw [recordFootprint32_eq hshort, hrest, ih, List.map_cons]
    show _ = recordFootprint (sizeofContinuationPayload + (source.take cInlineBytesCap).length) + _
    rw [List.length_take, Nat.min_comm]
    rfl

theorem slotBytes_append (xs ys : List ContinuationSlot) :
    slotBytes (xs ++ ys) = slotBytes xs + slotBytes ys := by
  unfold slotBytes
  rw [List.map_append, List.sum_append]

theorem chainNeed_eq (messagePayloadBytes : UInt32) (overflows : List ArgOverflow) :
    chainNeed messagePayloadBytes overflows =
      recordFootprint32 messagePayloadBytes.toNat + slotBytes (overflowSlots overflows) := by
  unfold chainNeed
  generalize recordFootprint32 messagePayloadBytes.toNat = needed
  induction overflows generalizing needed with
  | nil => rfl
  | cons o rest ih =>
    rw [List.foldl_cons, ih, sliceNeed_eq o.argIndex, Nat.add_assoc, ← slotBytes_append]
    rfl

theorem mem_overflowSlots {overflows : List ArgOverflow} {slot : ContinuationSlot}
    (h : slot ∈ overflowSlots overflows) :
    0 < slot.bytes.length ∧ slot.bytes.length ≤ cInlineBytesCap := by
  obtain ⟨o, -, hslot⟩ := List.mem_flatMap.mp h
  obtain ⟨bytes, hbytes, rfl⟩ := List.mem_map.mp hslot
  exact mem_slices hbytes

/-- The slot array is long enough. -/
theorem overflowSlots_length_le {overflows : List ArgOverflow}
    (h : ∀ o ∈ overflows, o.tail.length ≤ cInlineBytesCap * cMaxContinuations) :
    (overflowSlots overflows).length ≤ overflows.length * cMaxContinuations := by
  unfold overflowSlots
  rw [List.length_flatMap]
  refine le_trans (List.sum_le_card_nsmul _ cMaxContinuations fun n hn => ?_) ?_
  · obtain ⟨o, ho, rfl⟩ := List.mem_map.mp hn
    rw [List.length_map]
    exact slices_length_le (h o ho)
  · rw [List.length_map, smul_eq_mul]

/-! ### The reservations -/

namespace ChunkWriter

variable {w : ChunkWriter} {maxSlots : Nat} {messagePayloadBytes : UInt32}
  {overflows : List ArgOverflow} {slots : List ContinuationSlot}

theorem behind_append (w : ChunkWriter) (xs ys : List ContinuationSlot) :
    w.behind (xs ++ ys) = (w.behind xs).behind ys := by
  unfold behind
  rw [List.map_append, List.foldl_append]

theorem behind_eq (w : ChunkWriter) (slots : List ContinuationSlot) :
    w.behind slots = { w with
      offset := w.offset + slotBytes slots
      sequence := w.sequence + UInt16.ofNat slots.length } := by
  unfold behind
  rw [foldl_advance, List.map_map, List.length_map]
  rfl

/-- The Continuations with their reservations. -/
def reserved (w : ChunkWriter) (slots : List ContinuationSlot) :
    List (Reservation × ContinuationSlot) := (w.reservations slots).zip slots

theorem reserved_cons (w : ChunkWriter) (slot : ContinuationSlot)
    (rest : List ContinuationSlot) : w.reserved (slot :: rest) =
      (w.slot, slot) :: (w.advance (continuationPayloadBytes slot)).reserved rest := rfl

theorem reserved_append (w : ChunkWriter) (xs ys : List ContinuationSlot) :
    w.reserved (xs ++ ys) = w.reserved xs ++ (w.behind xs).reserved ys := by
  induction xs generalizing w with
  | nil => rfl
  | cons x xs ih =>
    rw [List.cons_append, reserved_cons, reserved_cons, ih]
    rfl

theorem reserved_slots (w : ChunkWriter) (slots : List ContinuationSlot) :
    (w.reserved slots).map Prod.snd = slots :=
  List.map_snd_zip (le_of_eq (reservations_length w slots).symm)

theorem reserved_length (w : ChunkWriter) (slots : List ContinuationSlot) :
    (w.reserved slots).length = slots.length := by
  rw [← List.length_map Prod.snd, reserved_slots]

end ChunkWriter

/-- The state behind the reservations of `slots`. -/
def ChainState.behind (c : ChainState) (slots : List ContinuationSlot) : ChainState :=
  ⟨c.writer.behind slots, c.messageSlot, c.contSlots ++ c.writer.reserved slots⟩

theorem ChainState.behind_append (c : ChainState) (xs ys : List ContinuationSlot) :
    c.behind (xs ++ ys) = (c.behind xs).behind ys := by
  unfold behind
  rw [ChunkWriter.behind_append, ChunkWriter.reserved_append, List.append_assoc]

/-- There is room for the slots in the chunk and in the slot array. -/
structure ChainState.Room (maxSlots : Nat) (slots : List ContinuationSlot) (c : ChainState) :
    Prop where
  chunk : c.writer.offset + slotBytes slots ≤ c.writer.size
  array : c.contSlots.length + slots.length ≤ maxSlots

theorem ChainState.Room.rest {maxSlots : Nat} {xs ys : List ContinuationSlot} {c : ChainState}
    (h : c.Room maxSlots (xs ++ ys)) : c.Room maxSlots xs ∧ (c.behind xs).Room maxSlots ys := by
  obtain ⟨hchunk, harray⟩ := h
  rw [slotBytes_append] at hchunk
  rw [List.length_append] at harray
  refine ⟨⟨by omega, by omega⟩, ?_, ?_⟩
  · show (c.writer.behind xs).offset + _ ≤ (c.writer.behind xs).size
    rw [ChunkWriter.behind_eq]
    show c.writer.offset + slotBytes xs + slotBytes ys ≤ c.writer.size
    omega
  · show (c.contSlots ++ c.writer.reserved xs).length + _ ≤ _
    rw [List.length_append, ChunkWriter.reserved_length]
    omega

/-- With room, the inner loop reserves every slice. -/
theorem reserveSlices_eq {maxSlots : Nat} (argIndex : UInt8) (source : List UInt8)
    {c : ChainState}
    (h : c.Room maxSlots ((slices source).map fun bytes => ⟨argIndex, bytes⟩)) :
    reserveSlices maxSlots argIndex source c =
      (true, c.behind ((slices source).map fun bytes => ⟨argIndex, bytes⟩)) := by
  induction hn : source.length using Nat.strong_induction_on generalizing source c with
  | _ n ih =>
    by_cases hne : source = []
    · subst hne
      rw [reserveSlices, if_pos rfl, slices_nil]
      show _ = (true, (⟨c.writer, c.messageSlot, c.contSlots ++ []⟩ : ChainState))
      rw [List.append_nil]
    · rw [slices_of_ne hne, List.map_cons] at h ⊢
      generalize hslot :
        (⟨argIndex, source.take cInlineBytesCap⟩ : ContinuationSlot) = slot at h ⊢
      have hbytes : sizeofContinuationPayload + (source.take cInlineBytesCap).length =
          continuationPayloadBytes slot := by
        rw [← hslot]
        rfl
      have hshort : slot.bytes.length ≤ cInlineBytesCap := by
        rw [← hslot]
        show (source.take cInlineBytesCap).length ≤ _
        rw [List.length_take]
        exact Nat.min_le_left _ _
      obtain ⟨hfirst, hrest⟩ := @ChainState.Room.rest maxSlots [slot] _ c h
      have hfits : c.writer.Fits (continuationPayloadBytes slot) :=
        ⟨continuation_short hshort, hfirst.chunk⟩
      have hcount : ¬maxSlots ≤ c.contSlots.length := Nat.not_le.mpr hfirst.array
      have hpos : 0 < source.length := List.length_pos_iff.mpr hne
      have hdrop : (source.drop cInlineBytesCap).length < n := by
        rw [List.length_drop, ← hn]
        unfold cInlineBytesCap
        omega
      rw [reserveSlices, if_neg hne]
      simp only [hbytes, ChunkWriter.reserve_of_fits hfits, if_neg hcount, hslot]
      refine Eq.trans (ih _ hdrop (source.drop cInlineBytesCap) hrest rfl) ?_
      exact congrArg (Prod.mk true) (ChainState.behind_append c [slot] _).symm

/-- With room, every overflow is reserved. -/
theorem reserveOverflows_eq {maxSlots : Nat} (overflows : List ArgOverflow) {c : ChainState}
    (h : c.Room maxSlots (overflowSlots overflows)) :
    reserveOverflows maxSlots overflows c = (true, c.behind (overflowSlots overflows)) := by
  induction overflows generalizing c with
  | nil =>
    show (true, c) = (true, (⟨c.writer, c.messageSlot, c.contSlots ++ []⟩ : ChainState))
    rw [List.append_nil]
  | cons o rest ih =>
    have hcons : overflowSlots (o :: rest) =
        ((slices o.tail).map fun bytes => ⟨o.argIndex, bytes⟩) ++ overflowSlots rest := rfl
    rw [hcons] at h ⊢
    obtain ⟨hfirst, hrest⟩ := h.rest
    rw [reserveOverflows, reserveSlices_eq _ _ hfirst, ChainState.behind_append]
    exact ih hrest

/-- `reserveChain` reserves everything when the sizes say that it fits, and nothing otherwise. -/
theorem reserveChain_eq {w : ChunkWriter} {maxSlots : Nat} {messagePayloadBytes : UInt32}
    {overflows : List ArgOverflow} (harray : (overflowSlots overflows).length ≤ maxSlots) :
    w.reserveChain maxSlots messagePayloadBytes overflows =
      if messagePayloadBytes.toNat ≤ 0xFFFF ∧
          w.offset + chainNeed messagePayloadBytes overflows ≤ w.size then
        (true, ChainState.behind ⟨w.advance messagePayloadBytes.toNat, some w.slot, []⟩
          (overflowSlots overflows))
      else (false, ⟨w, none, []⟩) := by
  have hpos : 0 < chainNeed messagePayloadBytes overflows := by
    rw [chainNeed_eq]
    unfold recordFootprint32
    omega
  unfold ChunkWriter.reserveChain
  by_cases hroom : w.offset + chainNeed messagePayloadBytes overflows ≤ w.size
  · rw [if_neg (Nat.not_lt_of_le ((ChunkWriter.le_remaining hpos).mpr hroom))]
    by_cases hword : messagePayloadBytes.toNat ≤ 0xFFFF
    · rw [if_pos ⟨hword, hroom⟩]
      rw [chainNeed_eq, recordFootprint32_eq (le_trans hword (by decide))] at hroom
      have hfits : w.Fits messagePayloadBytes.toNat := ⟨hword, by omega⟩
      rw [ChunkWriter.reserve_of_fits hfits]
      refine reserveOverflows_eq overflows ⟨?_, ?_⟩
      · show w.offset + recordFootprint messagePayloadBytes.toNat + _ ≤ w.size
        omega
      · show 0 + (overflowSlots overflows).length ≤ maxSlots
        rw [Nat.zero_add]
        exact harray
    · -- the length does not fit its field: `reserve` refuses before it moves the writer
      have hfits : ¬w.Fits messagePayloadBytes.toNat := fun hfits => hword hfits.1
      rw [ChunkWriter.reserve_of_not_fits hfits, if_neg fun h => hword h.1]
  · rw [if_pos (Nat.lt_of_not_le fun hle => hroom ((ChunkWriter.le_remaining hpos).mp hle)),
      if_neg fun h => hroom h.2]

/-! ### All or nothing -/

/-- Where the Message and the Continuations lie, and how many bytes they take. -/
def extents (messagePayloadBytes : UInt32) (message : Reservation)
    (contSlots : List (Reservation × ContinuationSlot)) : List (Nat × Nat) :=
  (message.headWord, recordFootprint messagePayloadBytes.toNat) ::
    contSlots.map fun p => (p.1.headWord, recordFootprint (continuationPayloadBytes p.2))

/-- The slots hold the bytes of the overflows, one overflow after the other and each in order. -/
def Partitions (overflows : List ArgOverflow) (slots : List ContinuationSlot) : Prop :=
  ∃ groups : List (List ContinuationSlot), groups.flatten = slots ∧
    List.Forall₂ (fun o group => (∀ slot ∈ group, slot.argIndex = o.argIndex) ∧
      (group.map ContinuationSlot.bytes).flatten = o.tail) overflows groups

/-- The whole chain is reserved from what was free of the writer's chunk. -/
structure ChainReserved (w : ChunkWriter) (maxSlots : Nat) (messagePayloadBytes : UInt32)
    (overflows : List ArgOverflow) (message : Reservation) (c : ChainState) : Prop where
  reserved : c.messageSlot = some message
  chunk : c.writer.body = w.body ∧ c.writer.size = w.size
  claimed : c.writer.offset = w.offset + chainNeed messagePayloadBytes overflows
  consecutive : Tiled (w.body + w.offset) (extents messagePayloadBytes message c.contSlots)
    (w.body + c.writer.offset)
  disjoint : (extents messagePayloadBytes message c.contSlots).Pairwise Before
  inside : ∀ e ∈ extents messagePayloadBytes message c.contSlots,
    w.body ≤ e.1 ∧ e.1 + e.2 ≤ w.body + w.size
  slotCount : c.contSlots.length ≤ maxSlots
  slice : ∀ p ∈ c.contSlots, 0 < p.2.bytes.length ∧ p.2.bytes.length ≤ cInlineBytesCap
  partition : Partitions overflows (c.contSlots.map Prod.snd)

theorem partitions_overflowSlots (overflows : List ArgOverflow) :
    Partitions overflows (overflowSlots overflows) := by
  refine ⟨overflows.map fun o => (slices o.tail).map fun bytes => ⟨o.argIndex, bytes⟩,
    List.flatMap_def.symm, ?_⟩
  rw [List.forall₂_map_right_iff, List.forall₂_same]
  intro o _
  refine ⟨fun slot hslot => ?_, ?_⟩
  · obtain ⟨bytes, -, rfl⟩ := List.mem_map.mp hslot
    rfl
  · rw [List.map_map]
    show ((slices o.tail).map id).flatten = o.tail
    rw [List.map_id, slices_flatten]

/-- Reservations lie end to end. -/
theorem tiled_reserved (w : ChunkWriter) (slots : List ContinuationSlot) :
    Tiled (w.body + w.offset)
      ((w.reserved slots).map fun p =>
        (p.1.headWord, recordFootprint (continuationPayloadBytes p.2)))
      (w.body + (w.behind slots).offset) := by
  induction slots generalizing w with
  | nil => exact tiled_nil.mpr rfl
  | cons slot rest ih =>
    rw [ChunkWriter.reserved_cons, List.map_cons]
    refine tiled_cons.mpr ⟨rfl, ?_⟩
    have hrest := ih (w.advance (continuationPayloadBytes slot))
    show Tiled (w.body + w.offset + _) _ _
    rw [Nat.add_assoc]
    exact hrest

/-- **All or nothing.** -/
theorem reserveChain_all_or_nothing (w : ChunkWriter) (maxSlots : Nat)
    (messagePayloadBytes : UInt32) (overflows : List ArgOverflow)
    (hlength : ∀ o ∈ overflows, o.tail.length ≤ cInlineBytesCap * cMaxContinuations)
    (hcount : overflows.length ≤ maxSlots / cMaxContinuations) :
    ((w.reserveChain maxSlots messagePayloadBytes overflows).1 = false →
      (w.reserveChain maxSlots messagePayloadBytes overflows).2.writer = w) ∧
    ((w.reserveChain maxSlots messagePayloadBytes overflows).1 = true →
      ∃ message, ChainReserved w maxSlots messagePayloadBytes overflows message
        (w.reserveChain maxSlots messagePayloadBytes overflows).2) := by
  have harray : (overflowSlots overflows).length ≤ maxSlots := by
    calc (overflowSlots overflows).length
        ≤ overflows.length * cMaxContinuations := overflowSlots_length_le hlength
      _ ≤ maxSlots / cMaxContinuations * cMaxContinuations := Nat.mul_le_mul_right _ hcount
      _ ≤ maxSlots := Nat.div_mul_le_self _ _
  rw [reserveChain_eq harray]
  by_cases hfits : messagePayloadBytes.toNat ≤ 0xFFFF ∧
      w.offset + chainNeed messagePayloadBytes overflows ≤ w.size
  · rw [if_pos hfits]
    refine ⟨fun hfalse => (by cases hfalse), fun _ => ⟨w.slot, ?_⟩⟩
    obtain ⟨hword, hroom⟩ := hfits
    have hneed : chainNeed messagePayloadBytes overflows =
        recordFootprint messagePayloadBytes.toNat + slotBytes (overflowSlots overflows) := by
      rw [chainNeed_eq, recordFootprint32_eq (le_trans hword (by decide))]
    have hoffset : ((w.advance messagePayloadBytes.toNat).behind
        (overflowSlots overflows)).offset = w.offset + chainNeed messagePayloadBytes overflows := by
      rw [ChunkWriter.behind_eq, hneed, ← Nat.add_assoc]
      rfl
    have htiled : Tiled (w.body + w.offset) (extents messagePayloadBytes w.slot
        ((w.advance messagePayloadBytes.toNat).reserved (overflowSlots overflows)))
        (w.body + ((w.advance messagePayloadBytes.toNat).behind
          (overflowSlots overflows)).offset) := by
      refine tiled_cons.mpr ⟨rfl, ?_⟩
      show Tiled (w.body + w.offset + _) _ _
      rw [Nat.add_assoc]
      exact tiled_reserved (w.advance messagePayloadBytes.toNat) _
    refine ⟨rfl, ?_, hoffset, htiled, htiled.disjoint, fun e he => ?_, ?_, fun p hp => ?_, ?_⟩
    · show ((w.advance messagePayloadBytes.toNat).behind (overflowSlots overflows)).body = _ ∧
        ((w.advance messagePayloadBytes.toNat).behind (overflowSlots overflows)).size = _
      rw [ChunkWriter.behind_eq]
      exact ⟨rfl, rfl⟩
    · obtain ⟨hstart, hend⟩ := htiled.inside he
      rw [hoffset] at hend
      exact ⟨by omega, by omega⟩
    · show ((w.advance messagePayloadBytes.toNat).reserved (overflowSlots overflows)).length ≤ _
      rw [ChunkWriter.reserved_length]
      exact harray
    · suffices hmem : p.2 ∈ overflowSlots overflows from mem_overflowSlots hmem
      rw [← ChunkWriter.reserved_slots (w.advance messagePayloadBytes.toNat)
        (overflowSlots overflows)]
      exact List.mem_map_of_mem hp
    · show Partitions overflows (((w.advance messagePayloadBytes.toNat).reserved
        (overflowSlots overflows)).map Prod.snd)
      rw [ChunkWriter.reserved_slots]
      exact partitions_overflowSlots overflows
  · rw [if_neg hfits]
    exact ⟨fun _ => rfl, fun htrue => (by cases htrue)⟩

theorem reserveChain_all_or_nothing_two_slices :
    let w : ChunkWriter := ⟨64, 4096, 0, 0⟩
    let overflows : List ArgOverflow := [⟨List.replicate 600 7, 0⟩]
    ((w.reserveChain 7 538 overflows).1 = false → (w.reserveChain 7 538 overflows).2.writer = w) ∧
    ((w.reserveChain 7 538 overflows).1 = true →
      ∃ message, ChainReserved w 7 538 overflows message (w.reserveChain 7 538 overflows).2) :=
  reserveChain_all_or_nothing ⟨64, 4096, 0, 0⟩ 7 538 [⟨List.replicate 600 7, 0⟩]
    (by
      intro o ho
      rw [List.mem_singleton.mp ho, List.length_replicate]
      decide)
    (by decide)

/-! ### What a thread runs -/

theorem overflowSlots_overflowsOf (args : List Arg) :
    overflowSlots (overflowsOf args) = contSlots args := by
  unfold overflowSlots overflowsOf contSlots
  generalize args.zipIdx = indexed
  induction indexed with
  | nil => rfl
  | cons p rest ih =>
    obtain ⟨a, i⟩ := p
    rw [List.flatMap_cons, ← ih]
    by_cases hover : 0 < a.overflowLen
    · simp only [List.filterMap_cons, if_pos hover]
      rfl
    · -- an argument that does not overflow has no slices
      have htail : a.tail = [] := by
        refine List.length_eq_zero_iff.mp ?_
        rw [a.tail_length]
        exact Nat.eq_zero_of_not_pos hover
      simp only [List.filterMap_cons, if_neg hover, htail, slices_nil]
      rfl

theorem messagePayloadBytes_le {args : List Arg} (h : args.length ≤ 255) :
    messagePayloadBytes args ≤ 0xFFFFFF := by
  have hone : ∀ n ∈ args.map Arg.inlineBytes, n ≤ 514 := by
    intro n hn
    obtain ⟨a, -, rfl⟩ := List.mem_map.mp hn
    have hinline := a.inlineLen_le
    unfold cInlineBytesCap at hinline
    unfold Arg.inlineBytes
    split
    · omega
    · -- a fixed size is at most eight
      cases a <;> simp [Arg.fixedWireSize]
  have hsum := List.sum_le_card_nsmul _ 514 hone
  rw [List.length_map, smul_eq_mul] at hsum
  unfold messagePayloadBytes sizeofMessagePayload
  omega

namespace Setting

variable {τ : Type} {S : Setting τ} {t : τ} {h : List (Event τ)} {c : Nat} {w : ChunkWriter}
  [DecidableEq τ]

/-- A thread's `reserveChain` does to its writer what the function does. -/
theorem reserveChain_refines {args : List Arg} (hargs : args.length ≤ 255) :
    S.Meets t (S.Ready t h c w) (reserveChain args) fun r s =>
      let result := w.reserveChain (args.length * cMaxContinuations)
        (UInt32.ofNat (messagePayloadBytes args)) (overflowsOf args)
      r = (if result.1 then
          result.2.messageSlot.map fun slot => (slot, result.2.contSlots.map Prod.fst)
        else none) ∧
      S.Ready t h c result.2.writer s := by
  have hsmall := messagePayloadBytes_le hargs
  have hbytes : (UInt32.ofNat (messagePayloadBytes args)).toNat = messagePayloadBytes args :=
    UInt32.toNat_ofNat_of_lt' (lt_of_le_of_lt hsmall (by decide))
  have hneed : chainNeed (UInt32.ofNat (messagePayloadBytes args)) (overflowsOf args) =
      chainBytes args := by
    rw [chainNeed_eq, hbytes, recordFootprint32_eq hsmall, overflowSlots_overflowsOf,
      chainBytes_eq]
  have harray : (overflowSlots (overflowsOf args)).length ≤ args.length * cMaxContinuations := by
    rw [overflowSlots_overflowsOf]
    exact contSlots_length_le args
  rw [reserveChain_eq harray, hneed, hbytes, overflowSlots_overflowsOf]
  refine Spec.Triple.conseq (reserveChain_meets args) (fun _ _ hP => hP) ?_
  rintro r s - (⟨⟨hfits, rfl⟩, hready⟩ | ⟨⟨hnot, rfl⟩, hready⟩)
  · unfold ChunkWriter.FitsChain at hfits
    rw [if_pos hfits]
    refine ⟨?_, hready⟩
    show _ = some (w.slot, (((w.advance _).reservations (contSlots args)).zip _).map Prod.fst)
    rw [List.map_fst_zip (le_of_eq (ChunkWriter.reservations_length _ _))]
  · unfold ChunkWriter.FitsChain at hnot
    rw [if_neg hnot]
    exact ⟨rfl, hready⟩

end Setting

end Sub0Log.Producer
