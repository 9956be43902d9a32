import Sub0Log.Producer.Segment
import Sub0Log.Reader.Uniform

/-!
# What a reader sees of a producer's segment

The image of a segment is its memory, cut to `segmentBytes` (`Segment.image`). As long as
the header is in place (`Segment.Headed`) the image opens, and the reader takes over the
producer's geometry (`openImage_image`).

The reader steps from chunk to chunk by what the chunk headers stamp. A producer stamps
one size class or has not stamped any yet, and both mean `chunkBytes`
(`uniformSlots_of_class`); the visit is then the sequence of the walks of the slots at
`headerBytes + i * chunkBytes` (**`visit_image`**).
-/

open Bytes Checked

namespace Sub0Log.System

open Wire Reader Producer

variable {seg : Segment} {header : SegmentHeader} {m : Mem}

/-- The image of a segment whose memory is `m`. -/
def image (seg : Segment) (m : Mem) : Image where
  bytes := m.slice 0 seg.segmentBytes
  size_le := by
    rw [Mem.slice_length]
    exact seg.segmentBytes_le

@[simp] theorem image_size (seg : Segment) (m : Mem) :
    (image seg m).size = seg.segmentBytes := Mem.slice_length _ _ _

/-- Inside the segment the image has the bytes of the memory. -/
theorem image_mem (m : Mem) {x : Nat} (h : x < seg.segmentBytes) : (image seg m).mem x = m x := by
  have hget := Mem.slice_getElem? m 0 seg.segmentBytes x h
  change (m.slice 0 seg.segmentBytes).getD x 0 = m x
  rw [List.getD_eq_getElem?_getD, hget, Option.getD_some, Nat.zero_add]

theorem image_slice (m : Mem) {a n : Nat} (h : a + n ≤ seg.segmentBytes) :
    (image seg m).mem.slice a n = m.slice a n :=
  Mem.slice_congr fun _ _ hx => image_mem m (by omega)

/-! ### Opening -/

theorem sane_image (hs : seg.Sound) (hh : seg.Headed header m) :
    GeometrySane header (image seg m).size := by
  have hcursor := hs.cursor_inside
  have hchunk := hs.chunkBytes_ge
  have hfits := hs.segmentBytes_ge
  unfold Segment.cMinChunkBytes sizeofChunkHeader cRecordAlign at hchunk
  unfold cCompactSegmentHeaderBytes cNextChunkOffset at hcursor
  constructor
  case headerBytes_ge => rw [hh.headerBytes]; unfold sizeofSegmentHeader; omega
  case chunkBytes_gt => rw [hh.chunkBytes]; unfold sizeofChunkHeader; omega
  case segmentBytes_ge => rw [hh.headerBytes, hh.segmentBytes]; exact hfits
  case headerBytes_le => rw [hh.headerBytes, image_size]; exact hfits

/-- The reader of a segment's image. -/
def reader (hs : seg.Sound) (hh : seg.Headed header m) : SegmentReader :=
  ⟨image seg m, header, sane_image hs hh⟩

theorem openImage_image (hs : seg.Sound) (hh : seg.Headed header m) :
    openImage (image seg m) = .ok (reader hs hh) := by
  have hcursor := hs.cursor_inside
  have hfits := hs.segmentBytes_ge
  have hsize : sizeofSegmentHeader ≤ seg.segmentBytes := by
    unfold sizeofSegmentHeader
    unfold cCompactSegmentHeaderBytes cNextChunkOffset at hcursor
    omega
  refine openImage_of_slice ?_ ?_ hh.magic hh.version (sane_image hs hh)
  · rwa [image_size]
  · rw [image_slice m (by omega), hh.header_bytes]

/-- The geometry a reader takes over from the producer. -/
def geometry (hs : seg.Sound) : Geometry where
  headerBytes := seg.headerBytes
  chunkBytes := seg.chunkBytes
  segmentBytes := seg.segmentBytes
  generation := seg.generation
  chunkBytes_gt := lt_of_lt_of_le (by decide) hs.chunkBytes_ge

theorem reader_geometry (hs : seg.Sound) (hh : seg.Headed header m) :
    (reader hs hh).geometry = geometry hs := by
  simp only [SegmentReader.geometry, geometry, reader, hh.headerBytes, hh.chunkBytes,
    hh.segmentBytes, hh.generation]

/-! ### The slots -/

theorem slotStart_eq (hs : seg.Sound) (i : Nat) :
    (geometry hs).slotStart i = seg.chunkBase i := rfl

/-- Chunks are slots. -/
theorem lt_slotCount (hs : seg.Sound) {i : Nat} (h : i < seg.chunkCount) :
    i < (geometry hs).slotCount := by
  have hinside := hs.chunk_inside h
  have hpos : 0 < seg.chunkBytes := (geometry hs).chunkBytes_pos
  rw [(geometry hs).lt_slotCount]
  change seg.chunkBase i < seg.segmentBytes
  omega

/-- No class and the segment's own class both stand for `chunkBytes`. -/
theorem classBytes_eq (hs : seg.Sound) {c : UInt8} (h : c = 0 ∨ c = seg.sizeClass) :
    (geometry hs).classBytes c = some seg.chunkBytes := by
  rcases h with rfl | rfl
  · rfl
  · rcases hs.sizeClass with hzero | ⟨hne, hle, hbytes⟩
    · rw [hzero]
      rfl
    · unfold Geometry.classBytes
      rw [if_neg hne, if_pos hle, hbytes]

/-- The next slot is `chunkBytes` further, whatever else the header says. -/
theorem stride_eq (hs : seg.Sound) {mem : Mem} {start : Nat}
    (h : (Geometry.headerAt mem start).chunkSizeClass = 0 ∨
      (Geometry.headerAt mem start).chunkSizeClass = seg.sizeClass) :
    (geometry hs).stride ((geometry hs).slot mem seg.segmentBytes start) = seg.chunkBytes := by
  cases hslot : (geometry hs).slot mem seg.segmentBytes start with
  | current owner bytes =>
    obtain ⟨-, hjudge⟩ := (geometry hs).slot_current hslot
    obtain ⟨-, -, -, hbytes, -⟩ := (geometry hs).judge_current hjudge
    rw [classBytes_eq hs h] at hbytes
    exact (Option.some.inj hbytes).symm
  | headless | refused | unclaimed => rfl

/-- Where no header was ever stamped, or only one of the segment's class, the slots have
one size. -/
theorem uniformSlots_of_class (hs : seg.Sound) {mem : Mem}
    (h : ∀ i, i < (geometry hs).slotCount →
      sizeofChunkHeader ≤ (geometry hs).available seg.segmentBytes (seg.chunkBase i) →
      (Geometry.headerAt mem (seg.chunkBase i)).chunkSizeClass = 0 ∨
        (Geometry.headerAt mem (seg.chunkBase i)).chunkSizeClass = seg.sizeClass) :
    (geometry hs).UniformSlots mem := by
  intro i hi
  by_cases havail : sizeofChunkHeader ≤ (geometry hs).available seg.segmentBytes (seg.chunkBase i)
  · exact stride_eq hs (h i hi havail)
  · -- too short for a header: no header is read
    have hslot : (geometry hs).slot mem seg.segmentBytes (seg.chunkBase i) = .headless :=
      if_pos (Nat.lt_of_not_le havail)
    rw [slotStart_eq]
    change (geometry hs).stride ((geometry hs).slot mem seg.segmentBytes _) = _
    rw [hslot]
    rfl

/-- What the reader makes of slot `i`. -/
def slotWalk (hs : seg.Sound) (m : Mem) (i : Nat) : Walk :=
  (geometry hs).walkSlot (image seg m).mem seg.segmentBytes (seg.chunkBase i) (UInt32.ofNat i)

/-- **The visit of a producer's segment**, slot by slot. -/
theorem visit_image (hs : seg.Sound) (hh : seg.Headed header m)
    (huniform : (geometry hs).UniformSlots (image seg m).mem) :
    ∃ v, visit (reader hs hh) = .ok v ∧
      v.unreadableBytes =
        ((List.range (geometry hs).slotCount).map fun i => (slotWalk hs m i).unreadable).sum ∧
      v.slots = (List.range (geometry hs).slotCount).flatMap fun i => (slotWalk hs m i).slots := by
  obtain ⟨steps, -, hvisit⟩ := (reader hs hh).visit_eq_walk
  rw [reader_geometry hs hh] at hvisit
  have hwalk : (geometry hs).walk (reader hs hh).image.mem (reader hs hh).image.size
      (reader hs hh).header.headerBytes.toNat 0 =
      Walk.concat ((List.range (geometry hs).slotCount).map (slotWalk hs m)) := by
    have hsize : (reader hs hh).image.size = seg.segmentBytes := image_size seg m
    have hheader : (reader hs hh).header.headerBytes.toNat = seg.headerBytes := hh.headerBytes
    rw [hsize, hheader]
    exact (geometry hs).walk_uniform huniform
  rw [hwalk] at hvisit
  refine ⟨_, hvisit, ?_, ?_⟩
  · rw [Walk.concat_unreadable, List.map_map]
    rfl
  · rw [Walk.concat_slots, List.flatMap_map]

/-- A chunk's whole header is in reach. -/
theorem slot_chunk (hs : seg.Sound) (mem : Mem) {i : Nat} (h : i < seg.chunkCount) :
    (geometry hs).slot mem seg.segmentBytes (seg.chunkBase i) =
      (geometry hs).judge (Geometry.headerAt mem (seg.chunkBase i)) := by
  have hinside := hs.chunk_inside h
  have hmin := hs.chunkBytes_gt
  have havail : ¬(geometry hs).available seg.segmentBytes (seg.chunkBase i) <
      sizeofChunkHeader := by
    change ¬min (min (seg.chunkBase i + seg.chunkBytes) seg.segmentBytes) seg.segmentBytes
      - seg.chunkBase i < sizeofChunkHeader
    omega
  unfold Geometry.slot
  rw [if_neg havail]

/-- The header `claimChunk` stamps is that of a chunk of this segment. -/
theorem judge_chunkHeader (hs : seg.Sound) (owner time : UInt64) :
    (geometry hs).judge (seg.chunkHeader owner time) = .current owner seg.chunkBytes := by
  have hcorrupt : (seg.chunkHeader owner time).corrupt = false := by
    unfold ChunkHeader.corrupt
    rw [Bool.and_eq_false_iff]
    exact Or.inr (bne_eq_false_iff_eq.mpr rfl)
  have hgeneration : (seg.chunkHeader owner time).generation ≠ 0 := hs.generation_ne
  have hmatch : ¬(seg.chunkHeader owner time).generation ≠ (geometry hs).generation :=
    not_not_intro rfl
  have hclass : (geometry hs).classBytes (seg.chunkHeader owner time).chunkSizeClass =
      some seg.chunkBytes := classBytes_eq hs (Or.inr rfl)
  unfold Geometry.judge
  rw [hcorrupt, if_neg Bool.false_ne_true, if_neg hgeneration, if_neg hmatch, hclass]
  rfl

/-- The chunk header the image has at `a`. -/
theorem headerAt_image (m : Mem) {a : Nat} {h : ChunkHeader}
    (hin : a + sizeofChunkHeader ≤ seg.segmentBytes)
    (hbytes : m.slice a sizeofChunkHeader = h.toBytes) :
    Geometry.headerAt (image seg m).mem a = h := by
  unfold Geometry.headerAt
  rw [image_slice m hin, hbytes, ChunkHeader.ofBytes_toBytes]

/-- **The walk of a stamped chunk** covers exactly the producer's chunk. -/
theorem slotWalk_stamped (hs : seg.Sound) {i : Nat} (h : i < seg.chunkCount)
    {owner time : UInt64} (hbytes : m.slice (seg.chunkBase i) sizeofChunkHeader =
      (seg.chunkHeader owner time).toBytes) :
    slotWalk hs m i =
      ⟨[⟨seg.chunkBase i, seg.chunkBase i + seg.chunkBytes,
          (body (image seg m).mem (seg.chunkBase i + seg.chunkBytes)
            (seg.chunkBase i + sizeofChunkHeader)).offsets.map
            (viewAt (image seg m).mem (UInt32.ofNat i) owner)⟩],
        (body (image seg m).mem (seg.chunkBase i + seg.chunkBytes)
          (seg.chunkBase i + sizeofChunkHeader)).unreadable,
        (body (image seg m).mem (seg.chunkBase i + seg.chunkBytes)
          (seg.chunkBase i + sizeofChunkHeader)).unwritten⟩ := by
  have hinside := hs.chunk_inside h
  have hmin := hs.chunkBytes_gt
  have hbodyEnd : (geometry hs).bodyEnd seg.segmentBytes (seg.chunkBase i) seg.chunkBytes =
      seg.chunkBase i + seg.chunkBytes := by
    unfold Geometry.bodyEnd geometry
    simp only
    omega
  have htail : min (seg.chunkBase i + seg.chunkBytes) (geometry hs).segmentBytes
      - (seg.chunkBase i + seg.chunkBytes) = 0 := by omega
  unfold slotWalk Geometry.walkSlot
  rw [slot_chunk hs _ h, headerAt_image m (by omega) hbytes, judge_chunkHeader hs]
  simp only [hbodyEnd, htail, Nat.add_zero]

/-- A header of zeros is space nobody claimed. -/
theorem ofBytes_zero : ChunkHeader.ofBytes (List.replicate sizeofChunkHeader 0) =
    ⟨0, 0, 0, 0#32, 0⟩ := by decide

theorem slice_eq_zero {a n : Nat} (h : ∀ x, a ≤ x → x < a + n → m x = 0) :
    m.slice a n = List.replicate n 0 := by
  induction n generalizing a with
  | zero => rfl
  | succ n ih =>
    rw [Mem.slice, h a (Nat.le_refl a) (by omega), List.replicate_succ,
      ih fun x h₁ h₂ => h x (by omega) (by omega)]

theorem headerAt_zero {a : Nat} (h : ∀ x, a ≤ x → x < a + sizeofChunkHeader → m x = 0) :
    Geometry.headerAt m a = ⟨0, 0, 0, 0#32, 0⟩ := by
  unfold Geometry.headerAt
  rw [slice_eq_zero h, ofBytes_zero]

/-- Every slot is visited once, where it starts. -/
theorem slotWalk_slots (hs : seg.Sound) (m : Mem) (i : Nat) :
    ∃ s, (slotWalk hs m i).slots = [s] ∧ s.chunkStart = seg.chunkBase i := by
  unfold slotWalk Geometry.walkSlot
  split <;> exact ⟨_, rfl, rfl⟩

/-- The `i`-th slot a visit goes through is slot `i`. -/
theorem getElem?_visit_slots (hs : seg.Sound) {slots : List SlotVisit}
    (h : slots = (List.range (geometry hs).slotCount).flatMap fun i => (slotWalk hs m i).slots)
    {i : Nat} (hi : i < (geometry hs).slotCount) :
    slots[i]? = (slotWalk hs m i).slots.head? := by
  -- one slot each, so the list of slots is a map over the indices
  have hmap : slots.map some =
      (List.range (geometry hs).slotCount).map fun j => (slotWalk hs m j).slots.head? := by
    rw [h, List.map_flatMap, List.map_eq_flatMap]
    refine List.flatMap_congr fun j _ => ?_
    obtain ⟨s, hslots, -⟩ := slotWalk_slots hs m j
    rw [hslots]
    rfl
  have hget : (slots.map some)[i]? = some (slotWalk hs m i).slots.head? := by
    rw [hmap, List.getElem?_map, List.getElem?_range hi]
    rfl
  rw [List.getElem?_map] at hget
  obtain ⟨s, hs', heq⟩ := Option.map_eq_some_iff.mp hget
  rw [hs', heq]

/-- A body of zeros has no records. -/
theorem body_zero {bodyEnd cursor : Nat} (h : ∀ x, cursor ≤ x → x < bodyEnd → m x = 0) :
    body m bodyEnd cursor = ⟨[], 0, bodyEnd - cursor⟩ := by
  unfold body
  split
  · rw [Nat.sub_eq_zero_of_le ‹_›]
  · split
    · rfl
    · have hword : m.word cursor 8 = 0 :=
        Mem.word_eq_zero_of_zero fun x h₁ h₂ => h x h₁ (by omega)
      rw [hword, if_pos (by decide), if_pos rfl]

end Sub0Log.System
