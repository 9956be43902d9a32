import Sub0Log.Library.Checked
import Sub0Log.Wire.Headers

/-!
# The raw layer of the reader

`SegmentReader` (`reader.hpp`): `openImage` judges the segment header, `visit`
walks the image slot by slot and yields the committed records it finds. Both are
written over `Checked`, so a sum that leaves 64 bits, a difference below zero, a
read outside the image or a loop that outlives its bound would surface as a fault.

* `openImage` — the checks of `SegmentReader::open`, in the source's order.
* `visitRecords` — the inner loop: the record walk through one chunk's body.
* `visitChunks` — the outer loop: one slot after another.

A reader that failed to open carries its `SegmentError` and visits nothing; here
it is the `Except.error` of `openImage`, and a `SegmentReader` is one that opened,
with what `open` checked as fields.
-/

open Bytes Checked

namespace Sub0Log.Reader

open Wire

/-- A borrowed byte image. A span is never longer than `PTRDIFF_MAX`. -/
structure Image where
  bytes : List UInt8
  size_le : bytes.length ≤ 2 ^ 63 - 1

namespace Image

def size (image : Image) : Nat := image.bytes.length

/-- The bytes of the image at their offsets. -/
def mem (image : Image) : Mem := Mem.ofList image.bytes

/-- The `n` bytes at offset `off`, if the image has them. -/
def read (image : Image) (off n : Nat) : Checked (List UInt8) := Checked.read image.bytes off n

theorem read_eq {image : Image} {off n : Nat} (h : off + n ≤ image.size) :
    image.read off n = .ok (image.mem.slice off n) := by
  rw [Image.read, Checked.read_eq h, mem, Mem.slice_ofList h]

end Image

/-- A committed record as found in a chunk. -/
structure RecordView where
  head : RecordHead
  payload : List UInt8
  chunkIndex : UInt32
  ownerThread : UInt64
  recordOffset : Nat
  deriving DecidableEq, Repr

/-- Why a segment could not be opened at all. -/
inductive SegmentError
  | tooSmall
  | badMagic
  | unknownVersion
  | badGeometry
  deriving DecidableEq, Repr

/-- The header's geometry makes sense for an image of `size` bytes. -/
structure GeometrySane (header : SegmentHeader) (size : Nat) : Prop where
  headerBytes_ge : sizeofSegmentHeader ≤ header.headerBytes.toNat
  chunkBytes_gt : sizeofChunkHeader < header.chunkBytes.toNat
  segmentBytes_ge : header.headerBytes.toNat ≤ header.segmentBytes.toNat
  headerBytes_le : header.headerBytes.toNat ≤ size

instance (header : SegmentHeader) (size : Nat) : Decidable (GeometrySane header size) :=
  decidable_of_iff (sizeofSegmentHeader ≤ header.headerBytes.toNat ∧
      sizeofChunkHeader < header.chunkBytes.toNat ∧
      header.headerBytes.toNat ≤ header.segmentBytes.toNat ∧
      header.headerBytes.toNat ≤ size)
    ⟨fun ⟨h₁, h₂, h₃, h₄⟩ => ⟨h₁, h₂, h₃, h₄⟩, fun ⟨h₁, h₂, h₃, h₄⟩ => ⟨h₁, h₂, h₃, h₄⟩⟩

/-- A reader that opened. -/
structure SegmentReader where
  image : Image
  header : SegmentHeader
  sane : GeometrySane header image.size

/-- `SegmentReader::open`: size before any field is read, magic before version,
version before geometry. -/
def openImage (image : Image) : Except SegmentError SegmentReader :=
  if image.size < sizeofSegmentHeader then .error .tooSmall
  else
    let header := SegmentHeader.ofBytes (image.mem.slice 0 sizeofSegmentHeader)
    if header.magic ≠ cMagic then .error .badMagic
    else if header.formatVersion ≠ cFormatVersion then .error .unknownVersion
    else if sane : GeometrySane header image.size then .ok ⟨image, header, sane⟩
    else .error .badGeometry

/-- One slot the walk has been through: where it starts, where the body that was
walked ends (the slot's own start when no body was walked), and what it yielded. -/
structure SlotVisit where
  chunkStart : Nat
  bodyEnd : Nat
  records : List RecordView
  deriving DecidableEq, Repr

/-- A visit so far: the two counters of the reader, the number of loop iterations
made, and the slots in the order they were walked. -/
structure Visit where
  unreadableBytes : Nat
  unwrittenBytes : Nat
  steps : Nat
  slots : List SlotVisit
  deriving DecidableEq, Repr

namespace Visit

/-- The calls of the callback, in order. -/
def records (v : Visit) : List RecordView := v.slots.flatMap SlotVisit.records

/-- Every byte not part of a committed record. -/
def accountedBytes (v : Visit) : Nat := v.unreadableBytes + v.unwrittenBytes

/-- A visit with its counters reset. -/
def start : Visit := ⟨0, 0, 0, []⟩

def countUnreadable (v : Visit) (n : Nat) : Checked Visit := do
  let total ← add64 v.unreadableBytes n
  return { v with unreadableBytes := total }

def countUnwritten (v : Visit) (n : Nat) : Checked Visit := do
  let total ← add64 v.unwrittenBytes n
  return { v with unwrittenBytes := total }

/-- One more iteration of either loop. -/
def tick (v : Visit) : Visit := { v with steps := v.steps + 1 }

/-- The walk is done with a slot. -/
def leave (v : Visit) (slot : SlotVisit) : Visit := { v with slots := v.slots ++ [slot] }

end Visit

/-- The inner loop of `visit`: from `cursor` to the end of the chunk's body. The
records yielded so far in this chunk are passed along. -/
def visitRecords (image : Image) (chunkHead : ChunkHeader) (chunkIndex : UInt32)
    (bodyEnd : Nat) : (fuel cursor : Nat) → Visit → List RecordView →
    Checked (Visit × List RecordView)
  | 0, _, _, _ => .error .outOfFuel
  | fuel + 1, cursor, v, records =>
    if cursor < bodyEnd then do
      let v := v.tick
      let remaining ← sub64 bodyEnd cursor
      if remaining < 8 then
        let v ← v.countUnwritten remaining
        return (v, records)
      let bytes ← image.read cursor 8
      let word := leNat bytes
      if RecordHead.isCommitted word = false then
        -- a zero word is the chunk's unwritten remainder, any other a torn record
        if word = 0 then
          let v ← v.countUnwritten remaining
          return (v, records)
        else
          let v ← v.countUnreadable remaining
          return (v, records)
      let head := RecordHead.unpack word
      let afterHead ← add64 cursor 8
      let spaceLeft ← sub64 bodyEnd afterHead
      if head.payloadBytes.toNat > spaceLeft then
        let v ← v.countUnreadable remaining
        return (v, records)
      let payload ← image.read afterHead head.payloadBytes.toNat
      let view : RecordView := ⟨head, payload, chunkIndex, chunkHead.ownerThread, cursor⟩
      let next ← add64 afterHead (paddedPayload head.payloadBytes.toNat)
      visitRecords image chunkHead chunkIndex bodyEnd fuel next v (records ++ [view])
    else
      return (v, records)

/-- The size the chunk's own header stamps, if the class is one the format has. -/
def thisChunkBytes (header : SegmentHeader) (chunkHead : ChunkHeader) : Option Nat :=
  if chunkHead.chunkSizeClass.toNat = 0 then some header.chunkBytes.toNat
  else if chunkHead.chunkSizeClass.toNat ≤ cMaxChunkSizeClass then
    some (chunkBytesForSizeClass chunkHead.chunkSizeClass.toNat)
  else none

/-- One iteration of the outer loop on a slot the image reaches into: the visit
after it and the start of the next slot. -/
def visitChunk (r : SegmentReader) (chunkStart : Nat) (chunkIndex : UInt32) (v : Visit) :
    Checked (Visit × Nat) := do
  let imageBytes := r.image.size
  let segEnd := r.header.segmentBytes.toNat
  let fallbackNominalEnd ← add64 chunkStart r.header.chunkBytes.toNat
  let fallbackLogicalEnd := min fallbackNominalEnd segEnd
  let fallbackNominalBytes ← sub64 fallbackLogicalEnd chunkStart
  let fallbackAvailable ← sub64 (min fallbackLogicalEnd imageBytes) chunkStart
  let fallbackMissingTail ← sub64 fallbackNominalBytes fallbackAvailable
  let skipped : SlotVisit := ⟨chunkStart, chunkStart, []⟩
  if fallbackAvailable < sizeofChunkHeader then
    let v ← v.countUnreadable fallbackNominalBytes
    return (v.leave skipped, fallbackNominalEnd)
  let bytes ← r.image.read chunkStart sizeofChunkHeader
  let chunkHead := ChunkHeader.ofBytes bytes
  let body ← sub64 fallbackAvailable sizeofChunkHeader
  let lost ← add64 body fallbackMissingTail
  if chunkHead.corrupt then
    let v ← v.countUnreadable lost
    return (v.leave skipped, fallbackNominalEnd)
  if chunkHead.generation = 0 then
    let v ← v.countUnwritten fallbackNominalBytes
    return (v.leave skipped, fallbackNominalEnd)
  if chunkHead.generation ≠ r.header.generation then
    let v ← v.countUnreadable lost
    return (v.leave skipped, fallbackNominalEnd)
  match thisChunkBytes r.header chunkHead with
  | none =>
    let v ← v.countUnreadable lost
    return (v.leave skipped, fallbackNominalEnd)
  | some bytes =>
    let nominalEnd ← add64 chunkStart bytes
    let chunkLogicalEnd := min nominalEnd segEnd
    let chunkNominalBytes ← sub64 chunkLogicalEnd chunkStart
    let presentEnd := min chunkLogicalEnd imageBytes
    let availableInChunk ← sub64 presentEnd chunkStart
    let missingTail ← sub64 chunkNominalBytes availableInChunk
    let bodyStart ← add64 chunkStart sizeofChunkHeader
    let bodyEnd ← add64 chunkStart availableInChunk
    let (v, records) ← visitRecords r.image chunkHead chunkIndex bodyEnd
      (imageBytes + 1) bodyStart v []
    let v ← v.countUnreadable missingTail
    return (v.leave ⟨chunkStart, bodyEnd, records⟩, nominalEnd)

/-- The outer loop of `visit`. -/
def visitChunks (r : SegmentReader) : (fuel chunkStart : Nat) → (chunkIndex : UInt32) →
    Visit → Checked Visit
  | 0, _, _, _ => .error .outOfFuel
  | fuel + 1, chunkStart, chunkIndex, v =>
    if chunkStart < r.header.segmentBytes.toNat then do
      let v := v.tick
      if r.image.size ≤ chunkStart then
        -- a truncated tail, counted in one step
        let tail ← sub64 r.header.segmentBytes.toNat chunkStart
        v.countUnreadable tail
      else
        let (v, next) ← visitChunk r chunkStart chunkIndex v
        visitChunks r fuel next (chunkIndex + 1) v
    else
      return v

/-- `SegmentReader::visit`, its loops given the size of the image as their bound. -/
def visit (r : SegmentReader) : Checked Visit :=
  visitChunks r (r.image.size + 1) r.header.headerBytes.toNat 0 Visit.start

end Sub0Log.Reader
