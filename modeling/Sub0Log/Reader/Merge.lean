import Sub0Log.Reader.Accounting

/-!
# Merging decoded segments

`Merger` (`merge.hpp`): each segment that opens is decoded by a decoder of its own, and
`merged` puts the records of all of them onto one timeline. A record's place on it is
`alignedNs`, its time moved by the anchors of its own segment; a record from before the
anchor stays at the anchor. The sort is stable, so records the order does not tell apart
keep the order in which their segments were added.
-/

open Bytes Checked

namespace Sub0Log.Reader

open Wire

/-- `MergedRecord`. -/
structure MergedRecord where
  record : DecodedRecord
  processId : UInt64
  alignedNs : UInt64
  deriving DecidableEq

/-- `Merger::Totals`. -/
structure Totals where
  unreadableBytes : UInt64
  unwrittenBytes : UInt64
  undecodableRecords : UInt64
  skippedRecords : UInt64
  deriving DecidableEq, Repr

/-- What one more segment adds to the totals. -/
def Totals.add (t : Totals) (v : Visit) (d : Decoder) : Totals where
  unreadableBytes := t.unreadableBytes + UInt64.ofNat v.unreadableBytes
  unwrittenBytes := t.unwrittenBytes + UInt64.ofNat v.unwrittenBytes
  undecodableRecords := t.undecodableRecords + UInt64.ofNat d.undecodable
  skippedRecords := t.skippedRecords + UInt64.ofNat d.skipped

/-- One segment that was added. -/
structure Loaded where
  decoder : Decoder
  records : List DecodedRecord
  header : SegmentHeader

structure Merger where
  segments : List Loaded
  totals : Totals

/-- The time of a record on the common timeline. -/
def alignedNs (header : SegmentHeader) (rec : DecodedRecord) : UInt64 :=
  if header.anchorMonoNs ≤ rec.monoNs then
    header.anchorWallNs + (rec.monoNs - header.anchorMonoNs)
  else header.anchorWallNs

/-- The order of the timeline, ties broken by process, thread and time. -/
def MergedRecord.precedes (a b : MergedRecord) : Bool :=
  if a.alignedNs ≠ b.alignedNs then decide (a.alignedNs < b.alignedNs)
  else if a.processId ≠ b.processId then decide (a.processId < b.processId)
  else if a.record.ownerThread ≠ b.record.ownerThread then
    decide (a.record.ownerThread < b.record.ownerThread)
  else decide (a.record.monoNs < b.record.monoNs)

/-- The records of one segment with their places on the timeline. -/
def Loaded.entries (l : Loaded) : List MergedRecord :=
  l.records.map fun rec => ⟨rec, l.header.processId, alignedNs l.header rec⟩

/-- A record that was moved from has no arguments left. -/
def Loaded.moved (l : Loaded) : Loaded :=
  { l with records := l.records.map fun rec => { rec with args := [] } }

/-- `Decoder::subsystemName`, empty when nobody declared it. -/
def Decoder.subsystemName (d : Decoder) (subsystem : UInt32) : List UInt8 :=
  match d.subsystemNames.find? fun entry => entry.1 == subsystem with
  | none => []
  | some entry => entry.2

namespace Merger

/-- A merger without segments. -/
def empty : Merger := ⟨[], ⟨0, 0, 0, 0⟩⟩

/-- `Merger::addSegment`: the merger after the call, and why the segment could not be
opened. The counters are those of the visit the decoder made. -/
def addSegment (m : Merger) (image : Image) : Checked (Merger × Option SegmentError) :=
  match openImage image with
  | .error error => return (m, some error)
  | .ok reader => do
    let (records, decoder) ← decodeAll Decoder.fresh reader
    let v ← visit reader
    return (⟨m.segments ++ [⟨decoder, records, reader.header⟩], m.totals.add v decoder⟩, none)

/-- `Merger::merged`: the records in the order of the timeline, and the merger they were
moved out of. -/
def merged (m : Merger) : List MergedRecord × Merger :=
  ((m.segments.flatMap Loaded.entries).mergeSort fun a b => !b.precedes a,
    { m with segments := m.segments.map Loaded.moved })

/-- `Merger::subsystemName`: the first segment that has a name gives it. -/
def subsystemName (m : Merger) (subsystem : UInt32) : List UInt8 :=
  ((m.segments.map fun l => l.decoder.subsystemName subsystem).find? fun name => name ≠ []).getD []

/-- A segment is added or refused, the merger does not fault. -/
theorem addSegment_ok (m : Merger) (image : Image) :
    ∃ m' error, m.addSegment image = .ok (m', error) := by
  unfold addSegment
  cases hopen : openImage image with
  | error e => exact ⟨m, some e, rfl⟩
  | ok reader =>
    obtain ⟨v, d, s, hvisit, -, hdecode, -⟩ := decodeAll_run reader
    generalize ({ d with undecodable := s.finish.undecodable, skipped := s.finish.skipped } :
      Decoder) = decoder at hdecode
    refine ⟨⟨m.segments ++ [⟨decoder, s.finish.result, reader.header⟩], m.totals.add v decoder⟩,
      none, ?_⟩
    show (decodeAll Decoder.fresh reader >>= _) = _
    rw [hdecode]
    show (visit reader >>= _) = _
    rw [hvisit]
    rfl

end Merger

end Sub0Log.Reader
