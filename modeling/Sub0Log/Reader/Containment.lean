import Sub0Log.Reader.Walk

/-!
# Conservation and containment of a visit

Two guarantees of the tolerant reader, for every image `openImage` accepts.

* **`visit_conserves`** — every byte of the declared body is counted exactly once:
  as unreadable, as unwritten, as a chunk header or as part of a record.
* **`visit_contained`** — the visit ends within as many steps as the image has
  bytes, reads nothing outside the image, and every record it yields is `Sound`:
  committed, inside a chunk whose own header says it belongs to this segment, and
  disjoint from every other record.

The walk of one body gives the bounds of its records (`mem_body_offsets`,
`body_offsets_pairwise`); the induction over slots carries them to the whole image.
-/

open Bytes Checked

namespace Sub0Log.Reader

open Wire

/-! ### Opening -/

/-- What an opened reader has read. -/
theorem openImage_eq_ok {image : Image} {r : SegmentReader} (h : openImage image = .ok r) :
    r.image = image ∧ sizeofSegmentHeader ≤ image.size ∧
      r.header = SegmentHeader.ofBytes (image.mem.slice 0 sizeofSegmentHeader) ∧
      r.header.magic = cMagic ∧ r.header.formatVersion = cFormatVersion := by
  unfold openImage at h
  by_cases hsize : image.size < sizeofSegmentHeader
  · rw [if_pos hsize] at h
    cases h
  rw [if_neg hsize] at h
  simp only at h
  split at h
  · cases h
  · split at h
    · cases h
    · split at h
      · cases h
        refine ⟨rfl, Nat.le_of_not_lt hsize, rfl, ?_, ?_⟩
        · simpa using ‹¬_ ≠ cMagic›
        · simpa using ‹¬_ ≠ cFormatVersion›
      · cases h

/-- An image that begins with a header of this format and sane geometry opens. -/
theorem openImage_of_slice {image : Image} {header : SegmentHeader}
    (hsize : sizeofSegmentHeader ≤ image.size)
    (hbytes : image.mem.slice 0 sizeofSegmentHeader = header.toBytes)
    (hmagic : header.magic = cMagic) (hversion : header.formatVersion = cFormatVersion)
    (sane : GeometrySane header image.size) :
    openImage image = .ok ⟨image, header, sane⟩ := by
  have hheader : SegmentHeader.ofBytes (image.mem.slice 0 sizeofSegmentHeader) = header := by
    rw [hbytes, SegmentHeader.ofBytes_toBytes]
  unfold openImage
  rw [if_neg (Nat.not_lt_of_le hsize)]
  simp only [hheader]
  rw [if_neg (not_not_intro hmagic), if_neg (not_not_intro hversion), dif_pos sane]

/-! ### The records of one body -/

/-- Every record of a body starts and ends inside it, and is committed. -/
theorem mem_body_offsets {m : Mem} {bodyEnd cursor a : Nat}
    (h : a ∈ (body m bodyEnd cursor).offsets) :
    cursor ≤ a ∧ a + 8 + payloadAt m a ≤ bodyEnd ∧
      RecordHead.isCommitted (m.word a 8) = true := by
  fun_induction body m bodyEnd cursor with
  | case1 | case2 | case3 | case4 | case5 => cases h
  | case6 cursor h₁ h₂ h₃ h₄ rest ih =>
    rcases List.mem_cons.mp h with heq | htail
    · subst heq
      exact ⟨Nat.le_refl _, by omega, by simpa using h₃⟩
    · obtain ⟨ha, hend, hcommitted⟩ := ih htail
      exact ⟨by omega, hend, hcommitted⟩

/-- A record begins where the one before it ends, padding included. -/
theorem body_offsets_pairwise (m : Mem) (bodyEnd cursor : Nat) :
    (body m bodyEnd cursor).offsets.Pairwise
      fun a b => a + 8 + paddedPayload (payloadAt m a) ≤ b := by
  fun_induction body m bodyEnd cursor with
  | case1 | case2 | case3 | case4 | case5 => exact List.Pairwise.nil
  | case6 cursor h₁ h₂ h₃ h₄ rest ih =>
    refine List.pairwise_cons.mpr ⟨fun b hb => ?_, ih⟩
    exact (mem_body_offsets hb).1

/-! ### The records of the walk -/

/-- What the reader guarantees of a record yielded in a slot: the slot's header is
in the image, intact and of this segment's generation; the record is the committed
one at its offset; head word and payload lie behind the chunk header and inside the
chunk, the segment and the image. -/
structure Sound (r : SegmentReader) (s : SlotVisit) (view : RecordView) : Prop where
  intact : (Geometry.headerAt r.image.mem s.chunkStart).headerChecksum = 0#32 ∨
    (Geometry.headerAt r.image.mem s.chunkStart).headerChecksum =
      (Geometry.headerAt r.image.mem s.chunkStart).checksum
  generation : (Geometry.headerAt r.image.mem s.chunkStart).generation = r.header.generation
  owner : view.ownerThread = (Geometry.headerAt r.image.mem s.chunkStart).ownerThread
  committed : RecordHead.isCommitted (r.image.mem.word view.recordOffset 8) = true
  head : view.head = RecordHead.unpack (r.image.mem.word view.recordOffset 8)
  length : view.payload.length = view.head.payloadBytes.toNat
  payload : view.payload = r.image.mem.slice (view.recordOffset + 8) view.payload.length
  behindHeader : s.chunkStart + sizeofChunkHeader ≤ view.recordOffset
  inBody : view.recordOffset + 8 + view.payload.length ≤ s.bodyEnd
  inChunk : ∃ bytes,
    thisChunkBytes r.header (Geometry.headerAt r.image.mem s.chunkStart) = some bytes ∧
    s.bodyEnd ≤ s.chunkStart + bytes
  inSegment : s.bodyEnd ≤ r.header.segmentBytes.toNat
  inImage : s.bodyEnd ≤ r.image.size

/-- The records of `s` lie between `lo` and `hi`, one after another. -/
structure Ordered (lo hi : Nat) (records : List RecordView) : Prop where
  lower : ∀ view ∈ records, lo ≤ view.recordOffset
  upper : ∀ view ∈ records, view.recordOffset + 8 + view.payload.length ≤ hi
  pairwise : records.Pairwise
    fun a b => a.recordOffset + 8 + a.payload.length ≤ b.recordOffset

theorem not_corrupt {h : ChunkHeader} (hc : h.corrupt = false) :
    h.headerChecksum = 0#32 ∨ h.headerChecksum = h.checksum := by
  unfold ChunkHeader.corrupt at hc
  simp only [Bool.and_eq_false_iff, bne_eq_false_iff_eq] at hc
  exact hc

/-- A slot's records are found by the body walk of a current chunk. -/
theorem mem_walkSlot {g : Geometry} {m : Mem} {size chunkStart : Nat} {chunkIndex : UInt32}
    {s : SlotVisit} (hs : s ∈ (g.walkSlot m size chunkStart chunkIndex).slots)
    {view : RecordView} (hview : view ∈ s.records) :
    ∃ owner bytes a, g.slot m size chunkStart = .current owner bytes ∧
      s.chunkStart = chunkStart ∧ s.bodyEnd = g.bodyEnd size chunkStart bytes ∧
      a ∈ (body m s.bodyEnd (chunkStart + sizeofChunkHeader)).offsets ∧
      view = viewAt m chunkIndex owner a := by
  unfold Geometry.walkSlot at hs
  cases hslot : g.slot m size chunkStart with
  | current owner bytes =>
    rw [hslot] at hs
    simp only [List.mem_singleton] at hs
    subst hs
    obtain ⟨a, ha, rfl⟩ := List.mem_map.mp hview
    exact ⟨owner, bytes, a, rfl, rfl, rfl, ha, rfl⟩
  | _ =>
    rw [hslot] at hs
    simp only [List.mem_singleton] at hs
    subst hs
    cases hview

/-- The records of one slot stay inside it. -/
theorem walkSlot_ordered (g : Geometry) (m : Mem) (size chunkStart : Nat)
    (chunkIndex : UInt32) :
    Ordered (chunkStart + sizeofChunkHeader)
      (chunkStart + g.stride (g.slot m size chunkStart))
      (g.walkSlot m size chunkStart chunkIndex).records := by
  unfold Geometry.walkSlot
  cases hslot : g.slot m size chunkStart with
  | current owner bytes =>
    have hend : g.bodyEnd size chunkStart bytes ≤ chunkStart + bytes :=
      le_trans (Nat.min_le_left _ _) (Nat.min_le_left _ _)
    have hpair := body_offsets_pairwise m (g.bodyEnd size chunkStart bytes)
      (chunkStart + sizeofChunkHeader)
    simp only [Walk.records, List.flatMap_cons, List.flatMap_nil, List.append_nil]
    refine ⟨fun view hview => ?_, fun view hview => ?_, ?_⟩
    · obtain ⟨a, ha, rfl⟩ := List.mem_map.mp hview
      exact (mem_body_offsets ha).1
    · obtain ⟨a, ha, rfl⟩ := List.mem_map.mp hview
      have hupper := (mem_body_offsets ha).2.1
      rw [viewAt_payload_length, Geometry.stride]
      exact le_trans hupper hend
    · refine List.pairwise_map.mpr (hpair.imp fun {a b} hab => ?_)
      have hpad := le_paddedPayload (payloadAt m a)
      rw [viewAt_payload_length]
      change a + 8 + payloadAt m a ≤ b
      omega
  | _ =>
    simp only [Walk.records, List.flatMap_cons, List.flatMap_nil, List.append_nil]
    exact ⟨by simp, by simp, List.Pairwise.nil⟩

/-- Every record of a walk lies behind the header of the slot the walk starts at. -/
theorem walk_lower (g : Geometry) (m : Mem) (size chunkStart : Nat) (chunkIndex : UInt32) :
    ∀ view ∈ (g.walk m size chunkStart chunkIndex).records,
      chunkStart + sizeofChunkHeader ≤ view.recordOffset := by
  fun_induction Geometry.walk g m size chunkStart chunkIndex with
  | case1 | case2 => simp [Walk.records]
  | case3 chunkStart chunkIndex h₁ h₂ ih =>
    intro view hview
    rw [Walk.records_append, List.mem_append] at hview
    rcases hview with hview | hview
    · exact (walkSlot_ordered g m size chunkStart chunkIndex).lower view hview
    · have hlow := ih view hview
      omega

/-- The records of a walk come one behind the other. -/
theorem walk_pairwise (g : Geometry) (m : Mem) (size chunkStart : Nat) (chunkIndex : UInt32) :
    (g.walk m size chunkStart chunkIndex).records.Pairwise
      fun a b => a.recordOffset + 8 + a.payload.length ≤ b.recordOffset := by
  fun_induction Geometry.walk g m size chunkStart chunkIndex with
  | case1 | case2 => exact List.Pairwise.nil
  | case3 chunkStart chunkIndex h₁ h₂ ih =>
    have hslot := walkSlot_ordered g m size chunkStart chunkIndex
    rw [Walk.records_append]
    refine List.pairwise_append.mpr ⟨hslot.pairwise, ih, fun a ha b hb => ?_⟩
    -- the next slot starts where this one's chunk ends
    have hupper := hslot.upper a ha
    have hlower := walk_lower g m size _ _ b hb
    omega

theorem mem_walk_slots {g : Geometry} {m : Mem} {size chunkStart : Nat} {chunkIndex : UInt32}
    {s : SlotVisit} (hs : s ∈ (g.walk m size chunkStart chunkIndex).slots) :
    ∃ start index, s ∈ (g.walkSlot m size start index).slots := by
  fun_induction Geometry.walk g m size chunkStart chunkIndex with
  | case1 | case2 => cases hs
  | case3 chunkStart chunkIndex h₁ h₂ ih =>
    rcases List.mem_append.mp hs with hs | hs
    · exact ⟨chunkStart, chunkIndex, hs⟩
    · exact ih hs

theorem sound_of_mem {r : SegmentReader} {s : SlotVisit}
    (hs : s ∈ (r.geometry.walk r.image.mem r.image.size r.header.headerBytes.toNat 0).slots)
    {view : RecordView} (hview : view ∈ s.records) : Sound r s view := by
  obtain ⟨start, index, hs⟩ := mem_walk_slots hs
  obtain ⟨owner, bytes, a, hslot, hstart, hend, ha, rfl⟩ := mem_walkSlot hs hview
  obtain ⟨-, hjudge⟩ := r.geometry.slot_current hslot
  obtain ⟨hintact, -, hgen, hbytes, howner⟩ := r.geometry.judge_current hjudge
  obtain ⟨hlower, hupper, hcommitted⟩ := mem_body_offsets ha
  have hbody : s.bodyEnd =
      min (min (start + bytes) r.header.segmentBytes.toNat) r.image.size := hend
  rw [← hstart] at hintact hgen howner hbytes hlower hbody
  have hlength := viewAt_payload_length r.image.mem index owner a
  constructor
  case intact => exact not_corrupt hintact
  case generation => exact hgen
  case owner => exact howner
  case committed => exact hcommitted
  case head => rfl
  case length => exact hlength
  case payload =>
    rw [hlength]
    simp only [viewAt]
  case behindHeader => exact hlower
  case inBody => rw [hlength]; exact hupper
  case inChunk => exact ⟨bytes, hbytes, by omega⟩
  case inSegment => omega
  case inImage => omega

/-! ### The two guarantees -/

/-- The 32-byte header of a visited slot is inside the image and inside the declared
segment, and it either fails its checksum or has a nonzero generation. -/
def headerCounted (r : SegmentReader) (s : SlotVisit) : Bool :=
  decide (s.chunkStart + sizeofChunkHeader ≤ r.image.size) &&
    decide (s.chunkStart + sizeofChunkHeader ≤ r.header.segmentBytes.toNat) &&
    ((Geometry.headerAt r.image.mem s.chunkStart).corrupt ||
      (Geometry.headerAt r.image.mem s.chunkStart).generation != 0)

theorem headerCharge_eq_ite (r : SegmentReader) (s : SlotVisit) :
    r.geometry.headerCharge r.image.mem r.image.size s.chunkStart =
      if headerCounted r s then sizeofChunkHeader else 0 := by
  have hcb := r.geometry.chunkBytes_gt
  have hseg : r.geometry.segmentBytes = r.header.segmentBytes.toNat := rfl
  have hiff : sizeofChunkHeader ≤ r.geometry.available r.image.size s.chunkStart ↔
      s.chunkStart + sizeofChunkHeader ≤ r.image.size ∧
        s.chunkStart + sizeofChunkHeader ≤ r.header.segmentBytes.toNat := by
    unfold Geometry.available sizeofChunkHeader at *
    omega
  unfold Geometry.headerCharge headerCounted
  simp only [hiff, Bool.and_eq_true, Bool.or_eq_true, decide_eq_true_eq, bne_iff_ne]

theorem sum_ite_eq_countP {α : Type} (p : α → Bool) (n : Nat) (l : List α) :
    (l.map fun a => if p a then n else 0).sum = n * l.countP p := by
  induction l with
  | nil => simp
  | cons a l ih =>
    rw [List.map_cons, List.sum_cons, ih, List.countP_cons]
    split <;> simp [Nat.mul_add, Nat.add_comm]

/-- **Byte conservation.** After one visit of an opened image, the unreadable and the
unwritten bytes, the headers counted apart and the records' bytes add up to the
declared body; the visit does not fault, so no intermediate value wraps. -/
theorem visit_conserves (image : Image) (r : SegmentReader) (_h : openImage image = .ok r) :
    ∃ v, visit r = .ok v ∧
      v.unreadableBytes + v.unwrittenBytes + 32 * v.slots.countP (headerCounted r)
        + (v.slots.map fun s => (s.records.map fun view =>
            8 + min (paddedPayload view.head.payloadBytes.toNat)
              (s.bodyEnd - (view.recordOffset + 8))).sum).sum =
        r.header.segmentBytes.toNat - r.header.headerBytes.toNat ∧
      v.accountedBytes ≤ r.header.segmentBytes.toNat - r.header.headerBytes.toNat := by
  obtain ⟨steps, -, hvisit⟩ := r.visit_eq_walk
  have htotal := r.geometry.walk_total r.image.mem r.image.size r.header.headerBytes.toNat 0
  have hseg : r.geometry.segmentBytes = r.header.segmentBytes.toNat := rfl
  rw [funext fun s => headerCharge_eq_ite r s, sum_ite_eq_countP, hseg] at htotal
  refine ⟨_, hvisit, htotal, ?_⟩
  unfold Visit.accountedBytes
  dsimp only
  omega

/-- A segment of 72 bytes whose last slot has 8 bytes inside it, in an image that
goes on behind the segment's end with what reads as a chunk header. -/
def overhangHeader : SegmentHeader where
  magic := cMagic
  formatVersion := cFormatVersion
  headerBytes := 64
  chunkBytes := 48
  segmentBytes := 72
  generation := 1
  processId := 0
  anchorMonoNs := 0
  anchorWallNs := 0

def overhangImage : Image where
  bytes := overhangHeader.toBytes ++ 1 :: List.replicate 31 0
  size_le := by simp [sizeofSegmentHeader]

def overhangReader : SegmentReader := ⟨overhangImage, overhangHeader, by decide⟩

theorem openImage_overhang : openImage overhangImage = .ok overhangReader :=
  openImage_of_slice (by decide) (by decide +kernel) rfl rfl _

theorem visit_overhang : visit overhangReader = .ok ⟨8, 0, 1, [⟨64, 64, []⟩]⟩ := by
  decide +kernel

theorem visit_conserves_overhang : ∃ v, visit overhangReader = .ok v ∧
    v.unreadableBytes + v.unwrittenBytes + 32 * v.slots.countP (headerCounted overhangReader)
      + (v.slots.map fun s => (s.records.map fun view =>
          8 + min (paddedPayload view.head.payloadBytes.toNat)
            (s.bodyEnd - (view.recordOffset + 8))).sum).sum =
      overhangReader.header.segmentBytes.toNat - overhangReader.header.headerBytes.toNat ∧
    v.accountedBytes ≤
      overhangReader.header.segmentBytes.toNat - overhangReader.header.headerBytes.toNat :=
  visit_conserves overhangImage overhangReader openImage_overhang

/-- A header that is in the image but crosses the segment's end is never read, so
counting it too does not balance. -/
theorem visit_conserves_needs_segment : ¬ ∀ (image : Image) (r : SegmentReader),
    openImage image = .ok r → ∃ v, visit r = .ok v ∧
      v.unreadableBytes + v.unwrittenBytes
        + 32 * v.slots.countP (fun s =>
            decide (s.chunkStart + sizeofChunkHeader ≤ r.image.size) &&
            ((Geometry.headerAt r.image.mem s.chunkStart).corrupt ||
              (Geometry.headerAt r.image.mem s.chunkStart).generation != 0))
        + (v.slots.map fun s => (s.records.map fun view =>
            8 + min (paddedPayload view.head.payloadBytes.toNat)
              (s.bodyEnd - (view.recordOffset + 8))).sum).sum =
        r.header.segmentBytes.toNat - r.header.headerBytes.toNat := by
  intro hall
  obtain ⟨v, hvisit, htotal⟩ := hall overhangImage overhangReader openImage_overhang
  rw [visit_overhang] at hvisit
  cases hvisit
  revert htotal
  decide +kernel

/-- **Containment and termination.** Every byte string is refused, or the visit ends
without a fault within as many steps as the image has bytes, every record it yields is
sound, and the records have strictly increasing offsets and disjoint byte ranges. -/
theorem visit_contained (image : Image) :
    (∃ e, openImage image = .error e) ∨
    ∃ r v, openImage image = .ok r ∧ r.image = image ∧ visit r = .ok v ∧
      v.steps ≤ image.size ∧
      (∀ s ∈ v.slots, ∀ view ∈ s.records, Sound r s view) ∧
      v.records.Pairwise (fun a b => a.recordOffset < b.recordOffset ∧
        a.recordOffset + 8 + a.payload.length ≤ b.recordOffset) := by
  cases hopen : openImage image with
  | error e => exact Or.inl ⟨e, rfl⟩
  | ok r =>
    obtain ⟨himage, -, -, -, -⟩ := openImage_eq_ok hopen
    obtain ⟨steps, hsteps, hvisit⟩ := r.visit_eq_walk
    refine Or.inr ⟨r, _, rfl, himage, hvisit, by rw [← himage]; exact hsteps, ?_, ?_⟩
    · intro s hs view hview
      exact sound_of_mem hs hview
    · have hpair := walk_pairwise r.geometry r.image.mem r.image.size
        r.header.headerBytes.toNat 0
      refine hpair.imp fun {a b} hab => ⟨by omega, hab⟩

end Sub0Log.Reader
