import Sub0Log.System.Image

/-!
# A created segment is one that readers accept

`Accepted` says what a producer owes its readers when it hands out a segment: the stores
of `initialise` stay inside the segment's bytes, the image opens, the opened header
carries the geometry the producer uses, and the chunks it claims are the chunks a visit
walks, one by one.

`createInMemory` refuses storage that cannot hold the header area and one chunk, so what
it creates is always accepted. `create` checks the chunk size only: a file shorter than
the header area is created, and no reader opens it (**`create_accepted_iff`**).
-/

open Bytes Checked

namespace Sub0Log.System

open Wire Reader Producer

/-- The memory after chunks `0 … n - 1` were claimed, chunk `i` by thread `(stamp i).1` at
time `(stamp i).2`. -/
def claimed (seg : Segment) (m : Mem) (stamp : Nat → UInt64 × UInt64) : (n : Nat) → Mem
  | 0 => m
  | n + 1 => (claimed seg m stamp n).store (seg.chunkBase n)
      (seg.chunkHeader (stamp n).1 (stamp n).2).toBytes

/-- What readers ask of a segment. -/
structure Accepted (seg : Segment) (m : Mem) : Prop where
  stores_inside : ∀ header, ∀ s ∈ Segment.initialiseStores header,
    s.1 + s.2.length ≤ seg.segmentBytes
  opened : ∃ r, openImage (image seg m) = .ok r ∧
    r.header.headerBytes.toNat = seg.headerBytes ∧
    r.header.chunkBytes.toNat = seg.chunkBytes ∧
    r.header.segmentBytes.toNat = seg.segmentBytes ∧
    r.header.generation = seg.generation
  walked : ∀ stamp n, n ≤ seg.chunkCount →
    ∃ r v, openImage (image seg (claimed seg m stamp n)) = .ok r ∧ visit r = .ok v ∧
      ∀ i, i < n → v.slots[i]? =
        some ⟨seg.chunkBase i, seg.chunkBase i + seg.chunkBytes, []⟩

/-- An accepted segment has room for its header area. -/
theorem Accepted.headerBytes_le {seg : Segment} {m : Mem} (h : Accepted seg m) :
    seg.headerBytes ≤ seg.segmentBytes := by
  obtain ⟨r, -, hheader, -, hsegment, -⟩ := h.opened
  have hsane := r.sane.segmentBytes_ge
  rwa [hheader, hsegment] at hsane

section Claims

variable {seg : Segment} {header : SegmentHeader} {m : Mem} {stamp : Nat → UInt64 × UInt64}

/-- Claims write nothing in front of the first chunk. -/
theorem claimed_of_lt (n : Nat) {x : Nat} (h : x < seg.headerBytes) :
    claimed seg m stamp n x = m x := by
  induction n with
  | zero => rfl
  | succ n ih =>
    rw [claimed, Mem.store_of_lt, ih]
    unfold Segment.chunkBase
    omega

/-- A chunk is as it was before its own claim. -/
theorem claimed_of_ge (hs : seg.Sound) {n x : Nat} (h : seg.chunkBase n ≤ x) :
    claimed seg m stamp n x = m x := by
  have hmin : sizeofChunkHeader < seg.chunkBytes := hs.chunkBytes_gt
  induction n with
  | zero => rfl
  | succ n ih =>
    have hnext := seg.chunkBase_add_le (show n < n + 1 by omega)
    rw [claimed, Mem.store_of_ge, ih (by omega)]
    rw [ChunkHeader.toBytes_length]
    omega

/-- A claimed chunk keeps its header, and nothing but its header was written in it. -/
theorem claimed_chunk (hs : seg.Sound) (m : Mem) (stamp : Nat → UInt64 × UInt64) {n i : Nat}
    (h : i < n) :
    (claimed seg m stamp n).slice (seg.chunkBase i) sizeofChunkHeader =
        (seg.chunkHeader (stamp i).1 (stamp i).2).toBytes ∧
      ∀ x, seg.chunkBase i + sizeofChunkHeader ≤ x → x < seg.chunkBase i + seg.chunkBytes →
        claimed seg m stamp n x = m x := by
  have hmin : sizeofChunkHeader < seg.chunkBytes := hs.chunkBytes_gt
  induction n with
  | zero => omega
  | succ n ih =>
    have hlength := (seg.chunkHeader (stamp n).1 (stamp n).2).toBytes_length
    by_cases heq : i = n
    · subst heq
      refine ⟨?_, fun x h₁ h₂ => ?_⟩
      · rw [claimed, Mem.slice_store_eq hlength]
      · rw [claimed, Mem.store_of_ge (by omega), claimed_of_ge hs (by omega)]
    · -- a later claim stamps a later chunk
      have hlater := seg.chunkBase_add_le (show i < n by omega)
      obtain ⟨hheader, hbody⟩ := ih (by omega)
      refine ⟨?_, fun x h₁ h₂ => ?_⟩
      · rw [claimed, Mem.slice_store_of_disjoint (Or.inl (by omega)), hheader]
      · rw [claimed, Mem.store_of_lt (by omega), hbody x h₁ h₂]

/-- The headers a reader meets after some claims: stamped ones, then zeros. -/
theorem claimed_uniform (hs : seg.Sound) (hf : seg.Fresh header m) {n : Nat}
    (hn : n ≤ seg.chunkCount) :
    (geometry hs).UniformSlots (image seg (claimed seg m stamp n)).mem := by
  have hcursor := hs.cursor_inside
  refine uniformSlots_of_class hs fun i hi havail => ?_
  obtain ⟨hsegment, -⟩ := (geometry hs).le_of_available havail
  change _ ≤ seg.segmentBytes at hsegment
  by_cases hclaimed : i < n
  · rw [headerAt_image _ hsegment (claimed_chunk hs m stamp hclaimed).1]
    exact Or.inr rfl
  · refine Or.inl ?_
    rw [headerAt_zero fun x h₁ h₂ => ?_]
    have hle : seg.chunkBase n ≤ seg.chunkBase i := by
      unfold Segment.chunkBase
      exact Nat.add_le_add_left (Nat.mul_le_mul_right _ (by omega)) _
    rw [image_mem _ (by omega), claimed_of_ge hs (by omega)]
    refine hf.zero x ?_ (by omega)
    unfold Segment.chunkBase at h₁
    unfold cCompactSegmentHeaderBytes cNextChunkOffset at hcursor
    unfold sizeofSegmentHeader
    omega

/-- **A sound fresh segment is accepted.** -/
theorem accepted_of_sound (hs : seg.Sound) (hf : seg.Fresh header m) : Accepted seg m := by
  have hcursor := hs.cursor_inside
  have hfits := hs.segmentBytes_ge
  have hmin : sizeofChunkHeader < seg.chunkBytes := hs.chunkBytes_gt
  have hhead : sizeofSegmentHeader ≤ seg.headerBytes := le_trans (by decide) hcursor
  constructor
  case stores_inside =>
    intro header' s hs'
    unfold cCompactSegmentHeaderBytes cNextChunkOffset at hcursor
    simp only [Segment.initialiseStores, List.mem_cons, List.not_mem_nil, or_false] at hs'
    rcases hs' with rfl | rfl
    · rw [SegmentHeader.toBytes_length]
      omega
    · rw [leBytes_length]
      unfold cNextChunkOffset
      omega
  case opened =>
    exact ⟨_, openImage_image hs hf.toHeaded, hf.headerBytes, hf.chunkBytes, hf.segmentBytes,
      hf.generation⟩
  case walked =>
    intro stamp n hn
    have hh : seg.Headed header (claimed seg m stamp n) :=
      hf.toHeaded.congr fun x hx => claimed_of_lt n (by omega)
    obtain ⟨v, hvisit, -, hslots⟩ := visit_image hs hh (claimed_uniform hs hf hn)
    refine ⟨_, v, openImage_image hs hh, hvisit, fun i hi => ?_⟩
    have hi' : i < seg.chunkCount := by omega
    have hinside := hs.chunk_inside hi'
    obtain ⟨hheader, hbody⟩ := claimed_chunk hs m stamp hi
    -- nothing behind the header was ever written
    have hzero : ∀ x, seg.chunkBase i + sizeofChunkHeader ≤ x →
        x < seg.chunkBase i + seg.chunkBytes →
        (image seg (claimed seg m stamp n)).mem x = 0 := by
      intro x h₁ h₂
      rw [image_mem _ (by omega), hbody x h₁ h₂]
      refine hf.zero x ?_ (by omega)
      unfold Segment.chunkBase at h₁
      omega
    have hget := getElem?_visit_slots hs hslots (lt_slotCount hs hi')
    rw [slotWalk_stamped hs hi' hheader, body_zero hzero] at hget
    exact hget

end Claims

/-- **What `create` and `createInMemory` owe their readers.** A file segment is accepted
exactly when it is at least as long as the header area `create` reserves; an in-memory one
always is. -/
theorem create_accepted_iff (p : Platform) (options : SegmentOptions) (storage : Storage)
    (seg : Segment) (m : Mem) :
    (Segment.create p options = .ok (seg, m) →
      (Accepted seg m ↔ cSegmentHeaderBytes ≤ options.segmentBytes.toNat)) ∧
    (Segment.createInMemory p storage options = .ok (seg, m) → Accepted seg m) := by
  refine ⟨fun hcreate => ⟨fun haccepted => ?_, fun hfits => ?_⟩, fun hcreate => ?_⟩
  · have hle := haccepted.headerBytes_le
    obtain ⟨-, hsize, heq⟩ := Segment.create_eq_ok hcreate
    rw [(Prod.mk.inj heq).1] at hle
    exact hle
  · obtain ⟨header, hf⟩ := Segment.create_fresh hcreate
    exact accepted_of_sound (Segment.create_sound hcreate hfits) hf
  · obtain ⟨header, hf⟩ := Segment.createInMemory_fresh hcreate
    exact accepted_of_sound (Segment.createInMemory_sound hcreate) hf

/-- A platform whose clocks stand still. -/
def stillPlatform : Platform where
  processId := 7
  anchorMonoNs := 1
  anchorWallNs := 2
  generation := 3
  generation_ne := by decide
  split := false
  splitKey := 1
  splitKey_ne := by decide

/-- A file of one header area and one chunk of 48 bytes is accepted. -/
theorem create_accepted_one_chunk :
    ∃ seg m, Segment.create stillPlatform ⟨4144, 48⟩ = .ok (seg, m) ∧ Accepted seg m := by
  refine ⟨_, _, rfl, ?_⟩
  exact ((create_accepted_iff stillPlatform ⟨4144, 48⟩ ⟨0, 0, by decide, fun _ => 0⟩ _ _).1
    rfl).mpr (by decide)

/-- A file of 200 bytes is created, and not accepted. -/
theorem create_not_accepted :
    ∃ seg m, Segment.create stillPlatform ⟨200, 48⟩ = .ok (seg, m) ∧ ¬Accepted seg m := by
  refine ⟨_, _, rfl, fun haccepted => ?_⟩
  exact absurd haccepted.headerBytes_le (by decide)

end Sub0Log.System
