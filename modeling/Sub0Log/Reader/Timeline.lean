import Sub0Log.Library.StableSort
import Sub0Log.Reader.Merge

/-!
# The merged timeline

What `merged` returns for any list of images, and how far it depends on them.

* `key` — the four numbers the timeline is sorted by; `precedes` compares keys;
* **`merged_complete`** — every record of every accepted image is there once, by key, records
  of one key in the order they were decoded in; the totals are the sums of the counts, modulo
  2^64;
* **`merged_order_iff`** — the order in which the images are added does not matter exactly
  when no two of them have different records of one key;
* **`alignedNs_monotone_iff`** — the places of a segment's records respect their times exactly
  when all of the sums `anchorWall + (mono - anchorMono)` are below 2^64, or none is.
-/

open Bytes Checked

namespace Sub0Log.Reader

open Wire StableSort

/-! ### The order of the timeline -/

namespace MergedRecord

/-- What the timeline is sorted by, most significant first. -/
def key (a : MergedRecord) : ℕ ×ₗ ℕ ×ₗ ℕ ×ₗ ℕ :=
  toLex (a.alignedNs.toNat, toLex (a.processId.toNat,
    toLex (a.record.ownerThread.toNat, a.record.monoNs.toNat)))

/-- What `merged` sorts with: `b` does not come before `a`. -/
def inOrder (a b : MergedRecord) : Bool := !b.precedes a

/-- The comparator compares keys. -/
theorem precedes_iff (a b : MergedRecord) : a.precedes b = true ↔ a.key < b.key := by
  have hne : ∀ x y : UInt64, x ≠ y ↔ x.toNat ≠ y.toNat := fun x y => not_congr UInt64.toNat_inj.symm
  unfold precedes key
  simp only [Prod.Lex.toLex_lt_toLex]
  split
  · rename_i h
    rw [decide_eq_true_iff, UInt64.lt_iff_toNat_lt]
    have h' := (hne _ _).mp h
    constructor
    · exact Or.inl
    · rintro (hlt | ⟨heq, -⟩)
      · exact hlt
      · exact absurd heq h'
  rename_i haligned
  have haligned' := UInt64.toNat_inj.mpr (not_not.mp haligned)
  split
  · rename_i h
    rw [decide_eq_true_iff, UInt64.lt_iff_toNat_lt]
    have h' := (hne _ _).mp h
    constructor
    · exact fun hlt => Or.inr ⟨haligned', Or.inl hlt⟩
    · rintro (hlt | ⟨-, hlt | ⟨heq, -⟩⟩)
      · omega
      · exact hlt
      · exact absurd heq h'
  rename_i hprocess
  have hprocess' := UInt64.toNat_inj.mpr (not_not.mp hprocess)
  split
  · rename_i h
    rw [decide_eq_true_iff, UInt64.lt_iff_toNat_lt]
    have h' := (hne _ _).mp h
    constructor
    · exact fun hlt => Or.inr ⟨haligned', Or.inr ⟨hprocess', Or.inl hlt⟩⟩
    · rintro (hlt | ⟨-, hlt | ⟨-, hlt | ⟨heq, -⟩⟩⟩)
      · omega
      · omega
      · exact hlt
      · exact absurd heq h'
  rename_i hthread
  have hthread' := UInt64.toNat_inj.mpr (not_not.mp hthread)
  rw [decide_eq_true_iff, UInt64.lt_iff_toNat_lt]
  constructor
  · exact fun hlt => Or.inr ⟨haligned', Or.inr ⟨hprocess', Or.inr ⟨hthread', hlt⟩⟩⟩
  · rintro (hlt | ⟨-, hlt | ⟨-, hlt | ⟨-, hlt⟩⟩⟩)
    · omega
    · omega
    · omega
    · exact hlt

theorem inOrder_iff (a b : MergedRecord) : a.inOrder b = true ↔ a.key ≤ b.key := by
  unfold inOrder
  rw [Bool.not_eq_true', ← Bool.not_eq_true, precedes_iff, not_lt]

theorem inOrder_trans (a b c : MergedRecord) (hab : a.inOrder b = true) (hbc : b.inOrder c = true) :
    a.inOrder c = true :=
  (inOrder_iff a c).mpr (((inOrder_iff a b).mp hab).trans ((inOrder_iff b c).mp hbc))

theorem inOrder_total (a b : MergedRecord) : (a.inOrder b || b.inOrder a) = true := by
  rw [Bool.or_eq_true, inOrder_iff, inOrder_iff]
  exact le_total _ _

/-- Records the order does not tell apart have one key. -/
theorem tied_iff_key (a b : MergedRecord) : Tied inOrder a b = decide (b.key = a.key) := by
  rw [Bool.eq_iff_iff, tied_iff, inOrder_iff, inOrder_iff, decide_eq_true_iff]
  exact ⟨fun h => le_antisymm h.2 h.1, fun h => ⟨h.ge, h.le⟩⟩

/-- Sorting leaves the records of one key in their order. -/
theorem filter_key_mergeSort (l : List MergedRecord) (key : ℕ ×ₗ ℕ ×ₗ ℕ ×ₗ ℕ) :
    ((l.mergeSort inOrder).filter fun a : MergedRecord => a.key = key) =
      l.filter fun a => a.key = key := by
  by_cases hex : ∃ a : MergedRecord, a.key = key
  · obtain ⟨a, rfl⟩ := hex
    have hstable := filter_tied_mergeSort inOrder_trans inOrder_total a l
    have htied : Tied inOrder a = fun b => decide (b.key = a.key) := funext (tied_iff_key a)
    rwa [htied] at hstable
  · -- no record at all has the key
    have hnone : ∀ l : List MergedRecord, (l.filter fun a => a.key = key) = [] := by
      intro l
      refine List.filter_eq_nil_iff.mpr fun a _ => ?_
      rw [decide_eq_true_iff]
      exact fun ha => hex ⟨a, ha⟩
    rw [hnone, hnone]

end MergedRecord

/-! ### What the images hold -/

/-- A segment that was read: what is loaded of it, and the counters of the visit. -/
structure Read extends Loaded where
  visit : Visit

/-- What reading an image leaves, nothing when it does not open. -/
def readImage (image : Image) : Option Read :=
  match openImage image with
  | .error _ => none
  | .ok reader =>
    match decodeAll Decoder.fresh reader, Reader.visit reader with
    | .ok (records, decoder), .ok v => some ⟨⟨decoder, records, reader.header⟩, v⟩
    | _, _ => none

/-- The accepted images, read. -/
def accepted (images : List Image) : List Read := images.filterMap readImage

/-- The records of an image with their places, in the order they were decoded in. -/
def timelineOf (image : Image) : List MergedRecord :=
  ((readImage image).map fun read => read.toLoaded.entries).getD []

/-- An image that opens is read without a fault. -/
theorem readImage_ok {image : Image} {reader : SegmentReader}
    (hopen : openImage image = .ok reader) : ∃ v records decoder,
      decodeAll Decoder.fresh reader = .ok (records, decoder) ∧ visit reader = .ok v ∧
      readImage image = some ⟨⟨decoder, records, reader.header⟩, v⟩ ∧
      records.Pairwise fun a b => a.recordOffset < b.recordOffset := by
  obtain ⟨v, d, s, hvisit, hpair, hdecode, -, -, hinv⟩ := decodeAll_run reader
  refine ⟨v, s.finish.result, _, hdecode, hvisit, ?_, finish_sorted hinv hpair⟩
  unfold readImage
  rw [hopen]
  simp only [hdecode, hvisit]

theorem readImage_error {image : Image} {error : SegmentError}
    (hopen : openImage image = .error error) : readImage image = none := by
  unfold readImage
  rw [hopen]

/-- An image is read exactly when it opens, and what is read is what `decodeAll` returns. -/
theorem readImage_eq_some {image : Image} {read : Read} (h : readImage image = some read) :
    ∃ reader, openImage image = .ok reader ∧ reader.header = read.header ∧
      decodeAll Decoder.fresh reader = .ok (read.records, read.decoder) ∧
      visit reader = .ok read.visit ∧
      read.records.Pairwise fun a b => a.recordOffset < b.recordOffset := by
  cases hopen : openImage image with
  | error e =>
    rw [readImage_error hopen] at h
    cases h
  | ok reader =>
    obtain ⟨v, records, decoder, hdecode, hvisit, hread, hsorted⟩ := readImage_ok hopen
    obtain rfl := Option.some.inj (hread.symm.trans h)
    exact ⟨reader, rfl, rfl, hdecode, hvisit, hsorted⟩

/-- The records of one image are told apart by their offsets. -/
theorem timelineOf_nodup (image : Image) : (timelineOf image).Nodup := by
  unfold timelineOf
  cases hread : readImage image with
  | none => exact List.nodup_nil
  | some read =>
    obtain ⟨-, -, -, -, -, hsorted⟩ := readImage_eq_some hread
    refine List.Nodup.map_on ?_ (hsorted.imp fun {a b} hlt => ?_)
    · intro a _ b _ h
      exact congrArg MergedRecord.record h
    · rintro rfl
      exact Nat.lt_irrefl _ hlt

theorem accepted_entries (images : List Image) :
    (accepted images).flatMap (fun read => read.toLoaded.entries) =
      images.flatMap timelineOf := by
  induction images with
  | nil => rfl
  | cons image images ih =>
    rw [List.flatMap_cons, ← ih]
    unfold accepted timelineOf
    cases hread : readImage image with
    | none => rw [List.filterMap_cons_none hread]; rfl
    | some read => rw [List.filterMap_cons_some hread]; rfl

/-! ### Adding images -/

/-- The totals of the segments that were read, in 64-bit counters. -/
def Totals.of (reads : List Read) : Totals where
  unreadableBytes := UInt64.ofNat (reads.map fun read => read.visit.unreadableBytes).sum
  unwrittenBytes := UInt64.ofNat (reads.map fun read => read.visit.unwrittenBytes).sum
  undecodableRecords := UInt64.ofNat (reads.map fun read => read.decoder.undecodable).sum
  skippedRecords := UInt64.ofNat (reads.map fun read => read.decoder.skipped).sum

theorem Totals.of_concat (reads : List Read) (read : Read) :
    Totals.of (reads ++ [read]) = (Totals.of reads).add read.visit read.decoder := by
  unfold Totals.of Totals.add
  simp only [List.map_append, List.map_cons, List.map_nil, List.sum_append, List.sum_singleton,
    UInt64.ofNat_add]

namespace Merger

/-- A merger that was given images one after the other. -/
def addSegments (images : List Image) : Checked Merger :=
  images.foldlM (fun m image => do
    let (m, _) ← m.addSegment image
    return m) Merger.empty

/-- One more image: it is refused, or what is read of it is added. -/
theorem addSegment_eq (m : Merger) (image : Image) :
    (∃ error, openImage image = .error error ∧ readImage image = none ∧
      m.addSegment image = .ok (m, some error)) ∨
    ∃ read, readImage image = some read ∧ m.addSegment image =
      .ok (⟨m.segments ++ [read.toLoaded], m.totals.add read.visit read.decoder⟩, none) := by
  unfold addSegment
  cases hopen : openImage image with
  | error e => exact Or.inl ⟨e, rfl, readImage_error hopen, rfl⟩
  | ok reader =>
    obtain ⟨v, records, decoder, hdecode, hvisit, hread, -⟩ := readImage_ok hopen
    refine Or.inr ⟨_, hread, ?_⟩
    simp only [hdecode, hvisit, ok_bind]
    rfl

/-- **What a merger holds** after any list of images. -/
theorem addSegments_eq (images : List Image) : addSegments images =
    .ok ⟨(accepted images).map Read.toLoaded, Totals.of (accepted images)⟩ := by
  obtain ⟨m, hm, hfinal⟩ := foldlM_ok (f := fun m image => do
      let (m, _) ← addSegment m image
      return m) (b := Merger.empty)
    (motive := fun done m => m = ⟨(accepted done).map Read.toLoaded, Totals.of (accepted done)⟩)
    images rfl (by
      rintro done image m rfl
      have happend : accepted (done ++ [image]) = accepted done ++ (readImage image).toList := by
        unfold accepted
        rw [List.filterMap_append]
        cases hread : readImage image with
        | none => rw [List.filterMap_cons_none hread]; rfl
        | some read => rw [List.filterMap_cons_some hread]; rfl
      rcases addSegment_eq ⟨(accepted done).map Read.toLoaded, Totals.of (accepted done)⟩ image with
        ⟨error, -, hnone, hadd⟩ | ⟨read, hread, hadd⟩
      · refine ⟨_, by rw [hadd]; rfl, ?_⟩
        rw [happend, hnone, Option.toList_none, List.append_nil]
      · refine ⟨_, by rw [hadd]; rfl, ?_⟩
        rw [happend, hread, Option.toList_some, List.map_append, Totals.of_concat]
        rfl)
  rw [← hfinal]
  exact hm

end Merger

/-- The timeline of a list of images: the first `merged` after all of them were added. -/
def timeline (images : List Image) : Checked (List MergedRecord) := do
  let m ← Merger.addSegments images
  return m.merged.1

theorem timeline_eq (images : List Image) : timeline images =
    .ok ((images.flatMap timelineOf).mergeSort MergedRecord.inOrder) := by
  unfold timeline
  rw [Merger.addSegments_eq]
  simp only [ok_bind, pure_eq_ok]
  unfold Merger.merged
  rw [List.flatMap_map, accepted_entries]
  rfl

/-! ### Complete and sorted -/

/-- **What `merged` returns**, and what `totals` counts, after any list of images. -/
theorem merged_complete (images : List Image) :
    ∃ m, Merger.addSegments images = .ok m ∧
      m.merged.1.Perm ((accepted images).flatMap fun read => read.toLoaded.entries) ∧
      m.merged.1.Pairwise (fun a b => a.key ≤ b.key) ∧
      (∀ key, (m.merged.1.filter fun a : MergedRecord => a.key = key) =
        ((accepted images).flatMap fun read => read.toLoaded.entries).filter
          fun a => a.key = key) ∧
      m.totals = Totals.of (accepted images) ∧
      ∀ image ∈ images,
        (∀ error, openImage image = .error error → readImage image = none) ∧
        ∀ reader, openImage image = .ok reader → ∃ v records decoder,
          decodeAll Decoder.fresh reader = .ok (records, decoder) ∧ visit reader = .ok v ∧
          readImage image = some ⟨⟨decoder, records, reader.header⟩, v⟩ := by
  refine ⟨_, Merger.addSegments_eq images, ?_, ?_, ?_, rfl, ?_⟩
  · unfold Merger.merged
    rw [List.flatMap_map]
    exact List.mergeSort_perm _ _
  · refine (List.pairwise_mergeSort MergedRecord.inOrder_trans MergedRecord.inOrder_total _).imp ?_
    intro a b hab
    exact (MergedRecord.inOrder_iff a b).mp hab
  · intro key
    unfold Merger.merged
    rw [List.flatMap_map]
    exact MergedRecord.filter_key_mergeSort _ key
  · intro image _
    refine ⟨fun error => readImage_error, fun reader hopen => ?_⟩
    obtain ⟨v, records, decoder, hdecode, hvisit, hread, -⟩ := readImage_ok hopen
    exact ⟨v, records, decoder, hdecode, hvisit, hread⟩

/-- A header alone, of a segment that should have been as long as it can be. -/
def vastHeader : SegmentHeader where
  magic := cMagic
  formatVersion := cFormatVersion
  headerBytes := 64
  chunkBytes := 48
  segmentBytes := 2 ^ 64 - 1
  generation := 0
  processId := 0
  anchorMonoNs := 0
  anchorWallNs := 0

def vastImage : Image where
  bytes := vastHeader.toBytes
  size_le := by decide +kernel

def vastReader : SegmentReader := ⟨vastImage, vastHeader, by decide +kernel⟩

theorem openImage_vast : openImage vastImage = .ok vastReader :=
  openImage_of_slice (by decide +kernel) (by decide +kernel) rfl rfl _

theorem visit_vast : visit vastReader = .ok ⟨18446744073709551551, 0, 1, []⟩ := by
  decide +kernel

/-- The totals are 64-bit words: two such segments are missing more bytes than one holds. -/
theorem totals_wrap : ¬ ∀ (images : List Image) (m : Merger),
    Merger.addSegments images = .ok m →
      m.totals.unreadableBytes.toNat =
        ((accepted images).map fun read => read.visit.unreadableBytes).sum := by
  intro h
  obtain ⟨v, records, decoder, -, hvisit, hread, -⟩ := readImage_ok openImage_vast
  obtain rfl : _ = v := Except.ok.inj (visit_vast.symm.trans hvisit)
  have haccepted : accepted [vastImage, vastImage] =
      [⟨⟨decoder, records, vastReader.header⟩, ⟨18446744073709551551, 0, 1, []⟩⟩,
        ⟨⟨decoder, records, vastReader.header⟩, ⟨18446744073709551551, 0, 1, []⟩⟩] := by
    unfold accepted
    rw [List.filterMap_cons_some hread, List.filterMap_cons_some hread]
    rfl
  have hsum := h _ _ (Merger.addSegments_eq [vastImage, vastImage])
  rw [haccepted] at hsum
  simp only [Totals.of, List.map_cons, List.map_nil, List.sum_cons, List.sum_nil] at hsum
  revert hsum
  decide

/-! ### The order of the images -/

/-- The records of an image that have one key. -/
def recordsAt (image : Image) (key : ℕ ×ₗ ℕ ×ₗ ℕ ×ₗ ℕ) : List MergedRecord :=
  (timelineOf image).filter fun a => a.key = key

/-- The timeline tells the records of the two images apart: where both have records of one
key, these are the same records. -/
def Separated (a b : Image) : Prop :=
  ∀ key, recordsAt a key = [] ∨ recordsAt b key = [] ∨ recordsAt a key = recordsAt b key

/-- Two lists of images have one timeline exactly when they agree on every key. -/
theorem timeline_eq_iff (a b : List Image) : timeline a = timeline b ↔
    ∀ key, (a.flatMap fun image => recordsAt image key) =
      b.flatMap fun image => recordsAt image key := by
  have hclass : ∀ (images : List Image) (key : ℕ ×ₗ ℕ ×ₗ ℕ ×ₗ ℕ),
      (images.flatMap fun image => recordsAt image key) =
        (images.flatMap timelineOf).filter fun x => x.key = key :=
    fun images key => List.filter_flatMap.symm
  rw [timeline_eq, timeline_eq, Except.ok.injEq]
  constructor
  · intro h key
    rw [hclass, hclass, ← MergedRecord.filter_key_mergeSort, h, MergedRecord.filter_key_mergeSort]
  · intro h
    refine (mergeSort_eq_iff MergedRecord.inOrder_trans MergedRecord.inOrder_total).mpr fun x => ?_
    have htied : Tied MergedRecord.inOrder x = fun y => decide (y.key = x.key) :=
      funext (MergedRecord.tied_iff_key x)
    rw [htied, ← hclass, ← hclass]
    exact h x.key

/-- **When the order of the images does not matter.** -/
theorem merged_order_iff (images : List Image) :
    (∀ a b : List Image, a.Perm images → b.Perm images → timeline a = timeline b) ↔
      images.Pairwise Separated := by
  have hcommute : ∀ (a b : Image) (key : ℕ ×ₗ ℕ ×ₗ ℕ ×ₗ ℕ),
      recordsAt a key ++ recordsAt b key = recordsAt b key ++ recordsAt a key ↔
        recordsAt a key = [] ∨ recordsAt b key = [] ∨ recordsAt a key = recordsAt b key :=
    fun a b key => append_comm_iff ((timelineOf_nodup a).filter _) ((timelineOf_nodup b).filter _)
  constructor
  · intro h
    refine List.pairwise_iff_forall_sublist.mpr fun {a b} hab key => ?_
    refine (hcommute a b key).mp ?_
    have hkey : ∀ l' : List Image, l'.Perm images →
        (l'.flatMap fun image => recordsAt image key) =
          images.flatMap fun image => recordsAt image key :=
      fun l' hperm => (timeline_eq_iff l' images).mp (h l' images hperm (List.Perm.refl _)) key
    exact List.pairwise_iff_forall_sublist.mp ((flatMap_perm_iff _).mp hkey) hab
  · intro h a b ha hb
    refine (timeline_eq_iff a b).mpr fun key => ?_
    have hkey := (flatMap_perm_iff fun image => recordsAt image key).mpr
      (h.imp fun {a b} hab => (hcommute a b key).mpr (hab key))
    rw [hkey a ha, hkey b hb]

/-- A segment of one process and one thread: a site without arguments, and two Messages. -/
def clockHeader (generation anchorMonoNs anchorWallNs : UInt64) : SegmentHeader where
  magic := cMagic
  formatVersion := cFormatVersion
  headerBytes := 64
  chunkBytes := 136
  segmentBytes := 200
  generation := generation
  processId := 3
  anchorMonoNs := anchorMonoNs
  anchorWallNs := anchorWallNs

def clockBytes (header : SegmentHeader) (first second : UInt64) : List UInt8 :=
  header.toBytes ++ (ChunkHeader.mk header.generation 5 0 0 0).toBytes ++
    leBytes 8 (RecordHead.mk 28 .siteDefinition 0 0).pack ++
    (SiteDefinitionPayload.mk 16 0 1 2 0).toBytes ++ List.replicate 8 0 ++
    leBytes 8 (RecordHead.mk 24 .message 0 1).pack ++ (MessagePayload.mk 16 first 0).toBytes ++
    leBytes 8 (RecordHead.mk 24 .message 0 1).pack ++ (MessagePayload.mk 16 second 0).toBytes

/-- The segment before a rotation, and the one after it: the clock has not moved. -/
def beforeRotation : Image where
  bytes := clockBytes (clockHeader 1 0 0) 6 7
  size_le := by decide +kernel

def afterRotation : Image where
  bytes := clockBytes (clockHeader 2 0 0) 7 8
  size_le := by decide +kernel

/-- The two orders of a rotated pair give two timelines. -/
theorem merged_order_rotation : ¬ ∀ images a b : List Image,
    a.Perm images → b.Perm images → timeline a = timeline b := by
  intro h
  have hsame := h [beforeRotation, afterRotation] [beforeRotation, afterRotation]
    [afterRotation, beforeRotation] (List.Perm.refl _) (List.Perm.swap _ _ _)
  have hkey := (timeline_eq_iff _ _).mp hsame (toLex (7, toLex (3, toLex (5, 7))))
  revert hkey
  decide +kernel

/-! ### Places and times -/

/-- The place of a record before it is cut to a word. -/
def sumNs (header : SegmentHeader) (rec : DecodedRecord) : ℕ :=
  header.anchorWallNs.toNat + (rec.monoNs.toNat - header.anchorMonoNs.toNat)

theorem alignedNs_toNat (header : SegmentHeader) (rec : DecodedRecord) :
    (alignedNs header rec).toNat = sumNs header rec % 2 ^ 64 := by
  have hwall := header.anchorWallNs.toNat_lt
  unfold alignedNs sumNs
  split
  · rename_i h
    rw [UInt64.toNat_add, UInt64.toNat_sub_of_le _ _ h]
  · rename_i h
    have hlt : rec.monoNs.toNat < header.anchorMonoNs.toNat :=
      UInt64.lt_iff_toNat_lt.mp (UInt64.not_le.mp h)
    rw [Nat.sub_eq_zero_of_le hlt.le, Nat.add_zero, Nat.mod_eq_of_lt hwall]

/-- **The places of a segment's records respect their times**, and the timeline keeps the
order of its threads, exactly when all of the sums wrap or none does. -/
theorem alignedNs_monotone_iff (image : Image) (reader : SegmentReader)
    (hopen : openImage image = .ok reader) :
    ((∀ a ∈ timelineOf image, ∀ b ∈ timelineOf image,
        a.record.monoNs ≤ b.record.monoNs → a.alignedNs ≤ b.alignedNs) ∧
      ∀ (images : List Image) (thread : UInt64) (out : List MergedRecord), image ∈ images →
        timeline images = .ok out →
        ((timelineOf image).filter fun a => a.record.ownerThread = thread).Pairwise
          (fun a b => a.record.monoNs ≤ b.record.monoNs) →
        ((timelineOf image).filter fun a => a.record.ownerThread = thread).Sublist out) ↔
      (∀ a ∈ timelineOf image, sumNs reader.header a.record < 2 ^ 64) ∨
        ∀ a ∈ timelineOf image, 2 ^ 64 ≤ sumNs reader.header a.record := by
  -- every record has the process of the header, and its sum is its place
  have hentry : ∀ a ∈ timelineOf image, a.processId = reader.header.processId ∧
      a.alignedNs.toNat = sumNs reader.header a.record % 2 ^ 64 := by
    obtain ⟨v, records, decoder, -, -, hread, -⟩ := readImage_ok hopen
    intro a ha
    unfold timelineOf at ha
    rw [hread] at ha
    obtain ⟨rec, -, rfl⟩ := List.mem_map.mp ha
    exact ⟨rfl, alignedNs_toNat reader.header rec⟩
  have hwall := reader.header.anchorWallNs.toNat_lt
  have hsum : ∀ rec : DecodedRecord, sumNs reader.header rec < 2 ^ 64 + 2 ^ 64 := by
    intro rec
    have hmono := rec.monoNs.toNat_lt
    unfold sumNs
    omega
  have hmono : ∀ r s : DecodedRecord, r.monoNs ≤ s.monoNs →
      sumNs reader.header r ≤ sumNs reader.header s := by
    intro r s hrs
    have hrs' := UInt64.le_iff_toNat_le.mp hrs
    unfold sumNs
    omega
  constructor
  · rintro ⟨horder, -⟩
    by_contra hmixed
    simp only [not_or, not_forall, Nat.not_lt, Nat.not_le] at hmixed
    obtain ⟨⟨b, hb, hwrap⟩, ⟨a, ha, hbelow⟩⟩ := hmixed
    -- the sum that wraps is the later one and lands before the anchor
    have hab : a.record.monoNs ≤ b.record.monoNs := by
      refine UInt64.le_iff_toNat_le.mpr ?_
      unfold sumNs at hwrap hbelow
      omega
    have hplace := UInt64.le_iff_toNat_le.mp (horder a ha b hb hab)
    rw [(hentry a ha).2, (hentry b hb).2, Nat.mod_eq_of_lt hbelow,
      Nat.mod_eq_sub_mod hwrap] at hplace
    have hb' := hsum b.record
    have hbmono := b.record.monoNs.toNat_lt
    rw [Nat.mod_eq_of_lt (by omega)] at hplace
    unfold sumNs at hplace hwrap
    omega
  · intro hall
    have horder : ∀ a ∈ timelineOf image, ∀ b ∈ timelineOf image,
        a.record.monoNs ≤ b.record.monoNs → a.alignedNs ≤ b.alignedNs := by
      intro a ha b hb hab
      have hle := hmono _ _ hab
      have ha' := hsum a.record
      have hb' := hsum b.record
      refine UInt64.le_iff_toNat_le.mpr ?_
      rw [(hentry a ha).2, (hentry b hb).2]
      rcases hall with hall | hall
      · rw [Nat.mod_eq_of_lt (hall a ha), Nat.mod_eq_of_lt (hall b hb)]
        exact hle
      · have hwrapa := hall a ha
        have hwrapb := hall b hb
        omega
    refine ⟨horder, fun images thread out hmem hout hpair => ?_⟩
    rw [timeline_eq] at hout
    obtain rfl := Except.ok.inj hout
    have hsub : (timelineOf image).Sublist (images.flatMap timelineOf) := by
      rw [List.flatMap_def]
      exact List.sublist_flatten_of_mem (List.mem_map_of_mem hmem)
    -- the sort keeps what already is in order
    refine List.sublist_mergeSort MergedRecord.inOrder_trans MergedRecord.inOrder_total ?_
      (List.filter_sublist.trans hsub)
    refine hpair.imp_of_mem fun {a b} ha hb hab => ?_
    obtain ⟨ha, hthreada⟩ := List.mem_filter.mp ha
    obtain ⟨hb, hthreadb⟩ := List.mem_filter.mp hb
    have hthread : a.record.ownerThread = b.record.ownerThread :=
      (of_decide_eq_true hthreada).trans (of_decide_eq_true hthreadb).symm
    have hprocess : a.processId = b.processId := (hentry a ha).1.trans (hentry b hb).1.symm
    have hplace := UInt64.le_iff_toNat_le.mp (horder a ha b hb hab)
    have htime := UInt64.le_iff_toNat_le.mp hab
    refine (MergedRecord.inOrder_iff a b).mpr ?_
    unfold MergedRecord.key
    rw [hthread, hprocess]
    refine Prod.Lex.toLex_le_toLex'.mpr ⟨hplace, fun _ => ?_⟩
    refine Prod.Lex.toLex_le_toLex'.mpr ⟨le_rfl, fun _ => ?_⟩
    exact Prod.Lex.toLex_le_toLex'.mpr ⟨le_rfl, fun _ => htime⟩

def beforeReader : SegmentReader :=
  ⟨beforeRotation, clockHeader 1 0 0, by decide +kernel⟩

theorem openImage_before : openImage beforeRotation = .ok beforeReader :=
  openImage_of_slice (by decide +kernel) (by decide +kernel) rfl rfl _

theorem alignedNs_monotone_iff_before :
    ((∀ a ∈ timelineOf beforeRotation, ∀ b ∈ timelineOf beforeRotation,
        a.record.monoNs ≤ b.record.monoNs → a.alignedNs ≤ b.alignedNs) ∧
      ∀ (images : List Image) (thread : UInt64) (out : List MergedRecord),
        beforeRotation ∈ images → timeline images = .ok out →
        ((timelineOf beforeRotation).filter fun a => a.record.ownerThread = thread).Pairwise
          (fun a b => a.record.monoNs ≤ b.record.monoNs) →
        ((timelineOf beforeRotation).filter fun a => a.record.ownerThread = thread).Sublist out) ↔
      (∀ a ∈ timelineOf beforeRotation, sumNs beforeReader.header a.record < 2 ^ 64) ∨
        ∀ a ∈ timelineOf beforeRotation, 2 ^ 64 ≤ sumNs beforeReader.header a.record :=
  alignedNs_monotone_iff beforeRotation beforeReader openImage_before

/-- An anchor at the end of the clock: the next nanosecond is at its beginning. -/
def lastSecond : Image where
  bytes := clockBytes (clockHeader 1 0 (2 ^ 64 - 1)) 0 1
  size_le := by decide +kernel

theorem alignedNs_monotone_lastSecond : ¬ ∀ image, ∀ a ∈ timelineOf image,
    ∀ b ∈ timelineOf image, a.record.monoNs ≤ b.record.monoNs → a.alignedNs ≤ b.alignedNs := by
  intro h
  have himage := h lastSecond
  revert himage
  decide +kernel

end Sub0Log.Reader
