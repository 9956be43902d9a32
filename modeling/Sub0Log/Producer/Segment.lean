import Sub0Log.Wire.Headers

/-!
# Creating a segment

`Segment::create` and `Segment::createInMemory` (`segment.hpp`): the checks on the
requested geometry, and `initialise`, which stamps the segment header and the claim
cursor over the segment's bytes and records the geometry.

A file's mapping is the platform's: it succeeds for every size that is not zero and
that `off_t` can carry, and hands out a zero-filled span of exactly that size. The
file's name and path are left out, nothing below looks at them.

`Segment.Sound` collects what the rest of the producer relies on. Both creation paths
give it, `create` only when the segment is as long as the header area it reserves
(`createInMemory_sound`, `create_sound`).
-/

open Bytes

namespace Sub0Log.Producer

open Wire

/-! ### Inputs -/

/-- `SegmentOptions`. -/
structure SegmentOptions where
  segmentBytes : UInt64
  chunkBytes : UInt32

/-- What the platform answers while a segment is created: the process id, the two
clocks, `randomGeneration` (never zero), whether the target takes the split atomics
path, and there the next announce key (never zero either). -/
structure Platform where
  processId : UInt64
  anchorMonoNs : UInt64
  anchorWallNs : UInt64
  generation : UInt64
  generation_ne : generation ≠ 0
  split : Bool
  splitKey : UInt32
  splitKey_ne : splitKey ≠ 0

/-- Memory the caller owns: its address, its size and what it holds. -/
structure Storage where
  address : Nat
  size : Nat
  size_le : size ≤ 2 ^ 63 - 1
  contents : Mem

inductive CreateError
  | chunkBytes
  | misaligned
  | storageTooSmall
  | mapping
  deriving DecidableEq, Repr

/-! ### The segment -/

/-- The producer's record of a segment's geometry. -/
structure Segment where
  segmentBytes : Nat
  segmentBytes_le : segmentBytes ≤ 2 ^ 63 - 1
  headerBytes : Nat
  chunkBytes : Nat
  chunkCount : Nat
  sizeClass : UInt8
  generation : UInt64
  announceKey : UInt64

namespace Segment

/-- Where chunk `index` starts. -/
def chunkBase (seg : Segment) (index : Nat) : Nat := seg.headerBytes + index * seg.chunkBytes

/-- Where the body of chunk `index` starts. -/
def bodyBase (seg : Segment) (index : Nat) : Nat := seg.chunkBase index + sizeofChunkHeader

/-- The bytes of a chunk behind its header. -/
def capacity (seg : Segment) : Nat := seg.chunkBytes - sizeofChunkHeader

/-- Address `x` is in chunk `index`. -/
def InChunk (seg : Segment) (index x : Nat) : Prop :=
  seg.chunkBase index ≤ x ∧ x < seg.chunkBase index + seg.chunkBytes

/-- The chunk an address behind the header area is in. -/
def chunkOf (seg : Segment) (x : Nat) : Nat := (x - seg.headerBytes) / seg.chunkBytes

/-- The chunk header `claimChunk` stamps, checksum last. -/
def chunkHeader (seg : Segment) (ownerThread claimMonoNs : UInt64) : ChunkHeader where
  generation := seg.generation
  ownerThread := ownerThread
  claimMonoNs := claimMonoNs
  headerChecksum :=
    computeChunkHeaderChecksum seg.generation ownerThread claimMonoNs seg.sizeClass
  chunkSizeClass := seg.sizeClass

/-- The smallest chunk size: a header and room for one aligned word behind a head. -/
def cMinChunkBytes : Nat := sizeofChunkHeader + 2 * cRecordAlign

/-- `validateChunkBytes` finds nothing wrong. -/
def validateChunkBytes (chunkBytes : UInt32) : Bool :=
  decide (cMinChunkBytes ≤ chunkBytes.toNat) && decide (chunkBytes.toNat % cRecordAlign = 0)

/-- The header `initialise` writes. -/
def segmentHeader (p : Platform) (segmentBytes headerBytes : Nat) (chunkBytes : UInt32) :
    SegmentHeader where
  magic := cMagic
  formatVersion := cFormatVersion
  headerBytes := UInt32.ofNat headerBytes
  chunkBytes := chunkBytes
  segmentBytes := UInt64.ofNat segmentBytes
  generation := p.generation
  processId := p.processId
  anchorMonoNs := p.anchorMonoNs
  anchorWallNs := p.anchorWallNs

/-- The stores `initialise` makes, in order: the header, then the claim cursor. -/
def initialiseStores (header : SegmentHeader) : List (Nat × List UInt8) :=
  [(0, header.toBytes), (cNextChunkOffset, leBytes 8 0)]

/-- `Segment::initialise`: its stores are made over `m`, and the geometry is recorded. -/
def initialise (p : Platform) (m : Mem) (segmentBytes : Nat)
    (segmentBytes_le : segmentBytes ≤ 2 ^ 63 - 1) (headerBytes : Nat) (chunkBytes : UInt32) :
    Segment × Mem :=
  ({ segmentBytes := segmentBytes
     segmentBytes_le := segmentBytes_le
     headerBytes := headerBytes
     chunkBytes := chunkBytes.toNat
     chunkCount :=
       if segmentBytes > headerBytes then
         (segmentBytes - headerBytes) / chunkBytes.toNat % 2 ^ 32
       else 0
     sizeClass := UInt8.ofNat ((sizeClassForChunkBytes chunkBytes.toNat).getD 0)
     generation := p.generation
     announceKey := if p.split then p.splitKey.toUInt64 else p.generation },
   (initialiseStores (segmentHeader p segmentBytes headerBytes chunkBytes)).foldl
     (fun m s => m.store s.1 s.2) m)

/-- `FileMapping::create`: the size of the mapped, zero-filled span. -/
def mapFile (bytes : UInt64) : Option { size : Nat // size ≤ 2 ^ 63 - 1 } :=
  if h : 0 < bytes.toNat ∧ bytes.toNat < 2 ^ 63 then some ⟨bytes.toNat, by omega⟩ else none

/-- `Segment::create`. -/
def create (p : Platform) (options : SegmentOptions) : Except CreateError (Segment × Mem) :=
  if validateChunkBytes options.chunkBytes = false then .error .chunkBytes
  else match mapFile options.segmentBytes with
    | none => .error .mapping
    | some size =>
      .ok (initialise p (fun _ => 0) size.1 size.2 cSegmentHeaderBytes options.chunkBytes)

/-- `Segment::createInMemory`: the storage is zeroed before it is initialised. -/
def createInMemory (p : Platform) (storage : Storage) (options : SegmentOptions) :
    Except CreateError (Segment × Mem) :=
  if validateChunkBytes options.chunkBytes = false then .error .chunkBytes
  else if storage.address = 0 ∨ storage.address % cRecordAlign ≠ 0 then .error .misaligned
  else if storage.size < cCompactSegmentHeaderBytes + options.chunkBytes.toNat then
    .error .storageTooSmall
  else
    .ok (initialise p (storage.contents.store 0 (List.replicate storage.size 0)) storage.size
      storage.size_le cCompactSegmentHeaderBytes options.chunkBytes)

/-! ### What a sound segment is -/

/-- The geometry every part of the producer relies on. -/
structure Sound (seg : Segment) : Prop where
  cursor_inside : cCompactSegmentHeaderBytes ≤ seg.headerBytes
  headerBytes_lt : seg.headerBytes < 2 ^ 32
  headerBytes_dvd : 8 ∣ seg.headerBytes
  chunkBytes_ge : cMinChunkBytes ≤ seg.chunkBytes
  chunkBytes_lt : seg.chunkBytes < 2 ^ 32
  chunkBytes_dvd : 8 ∣ seg.chunkBytes
  segmentBytes_ge : seg.headerBytes ≤ seg.segmentBytes
  chunks_inside : seg.headerBytes + seg.chunkCount * seg.chunkBytes ≤ seg.segmentBytes
  generation_ne : seg.generation ≠ 0
  sizeClass : seg.sizeClass = 0 ∨
    (seg.sizeClass.toNat ≠ 0 ∧ seg.sizeClass.toNat ≤ cMaxChunkSizeClass ∧
      chunkBytesForSizeClass seg.sizeClass.toNat = seg.chunkBytes)

namespace Sound

variable {seg : Segment} (hs : seg.Sound)
include hs

theorem chunkBytes_gt : sizeofChunkHeader < seg.chunkBytes :=
  lt_of_lt_of_le (by decide) hs.chunkBytes_ge

theorem capacity_add : sizeofChunkHeader + seg.capacity = seg.chunkBytes :=
  Nat.add_sub_of_le (Nat.le_of_lt hs.chunkBytes_gt)

theorem capacity_dvd : 8 ∣ seg.capacity :=
  Nat.dvd_sub hs.chunkBytes_dvd (by decide)

theorem capacity_pos : 0 < seg.capacity := Nat.sub_pos_of_lt hs.chunkBytes_gt

theorem bodyBase_add (index : Nat) :
    seg.bodyBase index + seg.capacity = seg.chunkBase index + seg.chunkBytes := by
  have h := hs.capacity_add
  unfold bodyBase
  omega

/-- A chunk lies inside the segment. -/
theorem chunk_inside {index : Nat} (h : index < seg.chunkCount) :
    seg.chunkBase index + seg.chunkBytes ≤ seg.segmentBytes := by
  have hinside := hs.chunks_inside
  have hmul : index * seg.chunkBytes + seg.chunkBytes ≤ seg.chunkCount * seg.chunkBytes := by
    rw [← Nat.succ_mul]
    exact Nat.mul_le_mul_right _ h
  unfold chunkBase
  omega

/-- An address is in one chunk only. -/
theorem chunkOf_eq {index x : Nat} (h : seg.InChunk index x) : seg.chunkOf x = index := by
  obtain ⟨h₁, h₂⟩ := h
  unfold chunkBase at h₁ h₂
  unfold chunkOf
  refine Nat.div_eq_of_lt_le ?_ ?_
  · omega
  · rw [Nat.succ_mul]
    omega

end Sound

/-- Chunks follow one another. -/
theorem chunkBase_add_le (seg : Segment) {i j : Nat} (h : i < j) :
    seg.chunkBase i + seg.chunkBytes ≤ seg.chunkBase j := by
  have hmul : i * seg.chunkBytes + seg.chunkBytes ≤ j * seg.chunkBytes := by
    rw [← Nat.succ_mul]
    exact Nat.mul_le_mul_right _ h
  unfold chunkBase
  omega

/-- The class recorded for a chunk size is `0` or stands for that size. -/
theorem sizeClass_recorded (bytes : Nat) :
    UInt8.ofNat ((sizeClassForChunkBytes bytes).getD 0) = 0 ∨
      ((UInt8.ofNat ((sizeClassForChunkBytes bytes).getD 0)).toNat ≠ 0 ∧
        (UInt8.ofNat ((sizeClassForChunkBytes bytes).getD 0)).toNat ≤ cMaxChunkSizeClass ∧
        chunkBytesForSizeClass (UInt8.ofNat ((sizeClassForChunkBytes bytes).getD 0)).toNat =
          bytes) := by
  cases hclass : sizeClassForChunkBytes bytes with
  | none => exact Or.inl rfl
  | some c =>
    obtain ⟨hpos, hle, hbytes⟩ := sizeClassForChunkBytes_some hclass
    have hc : (UInt8.ofNat c).toNat = c := by
      rw [UInt8.toNat_ofNat']
      unfold cMaxChunkSizeClass at hle
      omega
    rw [Option.getD_some, hc]
    exact Or.inr ⟨by omega, hle, hbytes⟩

theorem validateChunkBytes_facts {chunkBytes : UInt32}
    (h : validateChunkBytes chunkBytes = true) :
    cMinChunkBytes ≤ chunkBytes.toNat ∧ 8 ∣ chunkBytes.toNat := by
  unfold validateChunkBytes at h
  rw [Bool.and_eq_true, decide_eq_true_eq, decide_eq_true_eq] at h
  exact ⟨h.1, Nat.dvd_of_mod_eq_zero h.2⟩

/-- `initialise` over a span that holds the header area gives a sound segment. -/
theorem initialise_sound (p : Platform) (m : Mem) {segmentBytes headerBytes : Nat}
    {chunkBytes : UInt32} (hchunk : validateChunkBytes chunkBytes = true)
    (hheader : cCompactSegmentHeaderBytes ≤ headerBytes) (hlt : headerBytes < 2 ^ 32)
    (hdvd : 8 ∣ headerBytes) (hfits : headerBytes ≤ segmentBytes)
    (hsize : segmentBytes ≤ 2 ^ 63 - 1) :
    (initialise p m segmentBytes hsize headerBytes chunkBytes).1.Sound := by
  obtain ⟨hmin, hdvd'⟩ := validateChunkBytes_facts hchunk
  refine ⟨hheader, hlt, hdvd, hmin, chunkBytes.toNat_lt, hdvd', hfits, ?_,
    p.generation_ne, sizeClass_recorded _⟩
  -- the count is a floor division, and cutting it to 32 bits only lowers it
  have hcount : (segmentBytes - headerBytes) / chunkBytes.toNat % 2 ^ 32 * chunkBytes.toNat ≤
      segmentBytes - headerBytes :=
    le_trans (Nat.mul_le_mul_right _ (Nat.mod_le _ _)) (Nat.div_mul_le_self _ _)
  simp only [initialise]
  split <;> omega

theorem create_eq_ok {p : Platform} {options : SegmentOptions} {seg : Segment} {m : Mem}
    (h : create p options = .ok (seg, m)) :
    validateChunkBytes options.chunkBytes = true ∧
      ∃ hsize : options.segmentBytes.toNat ≤ 2 ^ 63 - 1,
        (seg, m) = initialise p (fun _ => 0) options.segmentBytes.toNat hsize
          cSegmentHeaderBytes options.chunkBytes := by
  unfold create mapFile at h
  split at h
  · cases h
  · by_cases hsize : 0 < options.segmentBytes.toNat ∧ options.segmentBytes.toNat < 2 ^ 63
    · rw [dif_pos hsize] at h
      exact ⟨by simpa using ‹¬_ = false›, by omega, (Except.ok.inj h).symm⟩
    · rw [dif_neg hsize] at h
      cases h

theorem createInMemory_eq_ok {p : Platform} {storage : Storage} {options : SegmentOptions}
    {seg : Segment} {m : Mem} (h : createInMemory p storage options = .ok (seg, m)) :
    validateChunkBytes options.chunkBytes = true ∧
      cCompactSegmentHeaderBytes + options.chunkBytes.toNat ≤ storage.size ∧
      (seg, m) = initialise p (storage.contents.store 0 (List.replicate storage.size 0))
        storage.size storage.size_le cCompactSegmentHeaderBytes options.chunkBytes := by
  unfold createInMemory at h
  split at h
  · cases h
  · split at h
    · cases h
    · split at h
      · cases h
      · exact ⟨by simpa using ‹¬_ = false›, by omega, (Except.ok.inj h).symm⟩

theorem create_sound {p : Platform} {options : SegmentOptions} {seg : Segment} {m : Mem}
    (h : create p options = .ok (seg, m))
    (hfits : cSegmentHeaderBytes ≤ options.segmentBytes.toNat) : seg.Sound := by
  obtain ⟨hchunk, hsize, heq⟩ := create_eq_ok h
  rw [(Prod.mk.inj heq).1]
  exact initialise_sound p (fun _ => 0) hchunk (by decide) (by decide) (by decide) hfits hsize

theorem createInMemory_sound {p : Platform} {storage : Storage} {options : SegmentOptions}
    {seg : Segment} {m : Mem} (h : createInMemory p storage options = .ok (seg, m)) :
    seg.Sound := by
  obtain ⟨hchunk, hfits, heq⟩ := createInMemory_eq_ok h
  rw [(Prod.mk.inj heq).1]
  exact initialise_sound p (storage.contents.store 0 (List.replicate storage.size 0)) hchunk
    (by decide) (by decide) (by decide) (by omega) storage.size_le

/-! ### The initial memory -/

/-- The header in front of the memory is that of the segment. -/
structure Headed (seg : Segment) (header : SegmentHeader) (m : Mem) : Prop where
  header_bytes : m.slice 0 sizeofSegmentHeader = header.toBytes
  magic : header.magic = cMagic
  version : header.formatVersion = cFormatVersion
  headerBytes : header.headerBytes.toNat = seg.headerBytes
  chunkBytes : header.chunkBytes.toNat = seg.chunkBytes
  segmentBytes : header.segmentBytes.toNat = seg.segmentBytes
  generation : header.generation = seg.generation

/-- A header stays in front as long as its bytes do. -/
theorem Headed.congr {seg : Segment} {header : SegmentHeader} {m m' : Mem}
    (h : Headed seg header m) (hm : ∀ x, x < sizeofSegmentHeader → m' x = m x) :
    Headed seg header m' :=
  { h with
    header_bytes := by
      rw [← h.header_bytes]
      exact Mem.slice_congr fun x _ hx => hm x (by omega) }

/-- The memory of a freshly created segment: the header in front, zeros behind it, the
claim cursor among them. -/
structure Fresh (seg : Segment) (header : SegmentHeader) (m : Mem) : Prop
    extends Headed seg header m where
  zero : ∀ x, sizeofSegmentHeader ≤ x → x < seg.segmentBytes → m x = 0

theorem initialise_fresh (p : Platform) {m : Mem} {segmentBytes headerBytes : Nat}
    {chunkBytes : UInt32} (hlt : headerBytes < 2 ^ 32) (hsize : segmentBytes ≤ 2 ^ 63 - 1)
    (hzero : ∀ x, x < segmentBytes → m x = 0) :
    Fresh (initialise p m segmentBytes hsize headerBytes chunkBytes).1
      (segmentHeader p segmentBytes headerBytes chunkBytes)
      (initialise p m segmentBytes hsize headerBytes chunkBytes).2 := by
  refine ⟨⟨?header_bytes, rfl, rfl, Nat.mod_eq_of_lt hlt, rfl, ?segmentBytes, rfl⟩, ?zero⟩
  case header_bytes =>
    simp only [initialise, initialiseStores, List.foldl_cons, List.foldl_nil]
    rw [Mem.slice_store_of_disjoint (Or.inl (by decide)),
      Mem.slice_store_eq (SegmentHeader.toBytes_length _)]
  case zero =>
    intro x hx hx'
    have hcursor : m.store 0 (segmentHeader p segmentBytes headerBytes chunkBytes).toBytes x = 0 := by
      rw [Mem.store_of_ge (by rw [SegmentHeader.toBytes_length]; omega)]
      exact hzero x hx'
    simp only [initialise, initialiseStores, List.foldl_cons, List.foldl_nil]
    -- the cursor that is stored is zero
    rw [leBytes_zero]
    unfold Mem.store at hcursor ⊢
    split
    · rw [List.getD_eq_getElem?_getD, List.getElem?_replicate]
      split
      · rfl
      · exact hcursor
    · exact hcursor
  case segmentBytes =>
    change segmentBytes % 2 ^ 64 = segmentBytes
    omega

theorem create_fresh {p : Platform} {options : SegmentOptions} {seg : Segment} {m : Mem}
    (h : create p options = .ok (seg, m)) : ∃ header, Fresh seg header m := by
  obtain ⟨-, hsize, heq⟩ := create_eq_ok h
  obtain ⟨rfl, rfl⟩ := Prod.mk.inj heq
  exact ⟨_, initialise_fresh p (by decide) hsize fun _ _ => rfl⟩

theorem createInMemory_fresh {p : Platform} {storage : Storage} {options : SegmentOptions}
    {seg : Segment} {m : Mem} (h : createInMemory p storage options = .ok (seg, m)) :
    ∃ header, Fresh seg header m := by
  obtain ⟨-, -, heq⟩ := createInMemory_eq_ok h
  obtain ⟨rfl, rfl⟩ := Prod.mk.inj heq
  refine ⟨_, initialise_fresh p (by decide) storage.size_le fun x hx => ?_⟩
  unfold Mem.store
  rw [if_pos (Nat.zero_le x), List.getD_eq_getElem?_getD, List.getElem?_replicate,
    if_pos (by omega)]
  rfl

end Segment

end Sub0Log.Producer
