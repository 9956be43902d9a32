import Sub0Log.Library.InPlace
import Sub0Log.Reader.Uniform

/-!
# The raw layer, reading in place

`SegmentReader` has no copy: a span of somebody's memory, which a producer may be writing. What
the module `Segment` computes of an image is here the program of loads that it is:
`openInPlace` loads the header of the segment once, `visitChunksInPlace` each chunk header once,
and `visitRecordsInPlace` each head word through `loadHeadWord`, the half with the tag before the
other, and then the payload, which the callback has before the walk goes on.

On a memory that stands still the program is the visit of its image (**`look_readInPlace`**). It
goes up through the memory (`readInPlace_goes`), and what it loads is what the walk is made of
(**`loads_readInPlace`**).
-/

open Bytes Checked InPlace InPlace.Attempt

namespace Sub0Log.Reader

open Wire

/-! ### The program -/

/-- The `n` bytes at offset `off`. -/
def loadBytes (size off n : Nat) : Attempt (List UInt8) := load size (.bytes off n)

/-- `loadHeadWord`: the half with the tag, then the other. -/
def loadHeadWord (size cursor : Nat) : Attempt Nat := load size (.word cursor)

/-- A reader that opened on `size` bytes of memory. -/
structure InPlaceReader where
  size : Nat
  header : SegmentHeader
  sane : GeometrySane header size

/-- `SegmentReader::open`. -/
def openInPlace (size : Nat) : Attempt (Except SegmentError InPlaceReader) :=
  if size < sizeofSegmentHeader then return .error .tooSmall
  else do
    let header := SegmentHeader.ofBytes (← loadBytes size 0 sizeofSegmentHeader)
    if header.magic ≠ cMagic then return .error .badMagic
    else if header.formatVersion ≠ cFormatVersion then return .error .unknownVersion
    else if sane : GeometrySane header size then return .ok ⟨size, header, sane⟩
    else return .error .badGeometry

/-- The inner loop of `visit`. -/
def visitRecordsInPlace (size : Nat) (chunkHead : ChunkHeader) (chunkIndex : UInt32)
    (bodyEnd : Nat) : (fuel cursor : Nat) → Visit → List RecordView →
    Attempt (Visit × List RecordView)
  | 0, _, _, _ => throw .outOfFuel
  | fuel + 1, cursor, v, records =>
    if cursor < bodyEnd then do
      let v := v.tick
      let remaining ← sub64 bodyEnd cursor
      if remaining < 8 then
        let v ← v.countUnwritten remaining
        return (v, records)
      let word ← loadHeadWord size cursor
      if RecordHead.isCommitted word = false then
        if word = 0 then
          let v ← v.countUnwritten remaining
          return (v, records)
        else
          let v ← v.countUnreadable remaining
          return (v, records)
      let head := RecordHead.unpack word
      let afterHead ← add64 cursor 8
      let spaceLeft ← sub64 bodyEnd afterHead
      if head.payloadBytes.toNat > spaceLeft then
        let v ← v.countUnreadable remaining
        return (v, records)
      let payload ← loadBytes size afterHead head.payloadBytes.toNat
      let view : RecordView := ⟨head, payload, chunkIndex, chunkHead.ownerThread, cursor⟩
      let next ← add64 afterHead (paddedPayload head.payloadBytes.toNat)
      visitRecordsInPlace size chunkHead chunkIndex bodyEnd fuel next v (records ++ [view])
    else
      return (v, records)

/-- One iteration of the outer loop. -/
def visitChunkInPlace (r : InPlaceReader) (chunkStart : Nat) (chunkIndex : UInt32) (v : Visit) :
    Attempt (Visit × Nat) := do
  let imageBytes := r.size
  let segEnd := r.header.segmentBytes.toNat
  let fallbackNominalEnd ← add64 chunkStart r.header.chunkBytes.toNat
  let fallbackLogicalEnd := min fallbackNominalEnd segEnd
  let fallbackNominalBytes ← sub64 fallbackLogicalEnd chunkStart
  let fallbackAvailable ← sub64 (min fallbackLogicalEnd imageBytes) chunkStart
  let fallbackMissingTail ← sub64 fallbackNominalBytes fallbackAvailable
  let skipped : SlotVisit := ⟨chunkStart, chunkStart, []⟩
  if fallbackAvailable < sizeofChunkHeader then
    let v ← v.countUnreadable fallbackNominalBytes
    return (v.leave skipped, fallbackNominalEnd)
  let chunkHead := ChunkHeader.ofBytes (← loadBytes r.size chunkStart sizeofChunkHeader)
  let body ← sub64 fallbackAvailable sizeofChunkHeader
  let lost ← add64 body fallbackMissingTail
  if chunkHead.corrupt then
    let v ← v.countUnreadable lost
    return (v.leave skipped, fallbackNominalEnd)
  if chunkHead.generation = 0 then
    let v ← v.countUnwritten fallbackNominalBytes
    return (v.leave skipped, fallbackNominalEnd)
  if chunkHead.generation ≠ r.header.generation then
    let v ← v.countUnreadable lost
    return (v.leave skipped, fallbackNominalEnd)
  match thisChunkBytes r.header chunkHead with
  | none =>
    let v ← v.countUnreadable lost
    return (v.leave skipped, fallbackNominalEnd)
  | some bytes =>
    let nominalEnd ← add64 chunkStart bytes
    let chunkLogicalEnd := min nominalEnd segEnd
    let chunkNominalBytes ← sub64 chunkLogicalEnd chunkStart
    let presentEnd := min chunkLogicalEnd imageBytes
    let availableInChunk ← sub64 presentEnd chunkStart
    let missingTail ← sub64 chunkNominalBytes availableInChunk
    let bodyStart ← add64 chunkStart sizeofChunkHeader
    let bodyEnd ← add64 chunkStart availableInChunk
    let (v, records) ← visitRecordsInPlace r.size chunkHead chunkIndex bodyEnd
      (imageBytes + 1) bodyStart v []
    let v ← v.countUnreadable missingTail
    return (v.leave ⟨chunkStart, bodyEnd, records⟩, nominalEnd)

/-- The outer loop of `visit`. -/
def visitChunksInPlace (r : InPlaceReader) : (fuel chunkStart : Nat) → (chunkIndex : UInt32) →
    Visit → Attempt Visit
  | 0, _, _, _ => throw .outOfFuel
  | fuel + 1, chunkStart, chunkIndex, v =>
    if chunkStart < r.header.segmentBytes.toNat then do
      let v := v.tick
      if r.size ≤ chunkStart then
        let tail ← sub64 r.header.segmentBytes.toNat chunkStart
        v.countUnreadable tail
      else
        let (v, next) ← visitChunkInPlace r chunkStart chunkIndex v
        visitChunksInPlace r fuel next (chunkIndex + 1) v
    else
      return v

/-- `SegmentReader::visit`. -/
def visitInPlace (r : InPlaceReader) : Attempt Visit :=
  visitChunksInPlace r (r.size + 1) r.header.headerBytes.toNat 0 Visit.start

/-- Open `size` bytes of memory and visit them. -/
def readInPlace (size : Nat) : Attempt (Except SegmentError Visit) := do
  match ← openInPlace size with
  | .error e => return .error e
  | .ok r => return .ok (← visitInPlace r)

/-! ### A memory that stands still -/

/-- The image has the bytes of memory `m`. -/
def Shows (m : Mem) (image : Image) : Prop := ∀ x, x < image.size → image.mem x = m x

section Standing

variable {m : Mem} {image : Image} {chunkHead : ChunkHeader} {chunkIndex : UInt32}

theorem Shows.slice (h : Shows m image) {off n : Nat} (hin : off + n ≤ image.size) :
    image.mem.slice off n = m.slice off n :=
  Mem.slice_congr fun x _ hx => h x (lt_of_lt_of_le hx hin)

theorem look_loadBytes (h : Shows m image) (off n : Nat) :
    look m (loadBytes image.size off n).run = image.read off n := by
  by_cases hin : off + n ≤ image.size
  · rw [Image.read_eq hin, h.slice hin]
    exact look_load m hin
  · rw [Image.read, Checked.read]
    change ¬off + n ≤ image.bytes.length at hin
    rw [if_neg hin]
    exact look_load_out m hin

theorem look_loadHeadWord (h : Shows m image) (cursor : Nat) :
    look m (loadHeadWord image.size cursor).run =
      (image.read cursor 8 >>= fun bytes => pure (leNat bytes)) := by
  by_cases hin : cursor + 8 ≤ image.size
  · rw [Image.read_eq hin, h.slice hin]
    exact look_load m hin
  · rw [Image.read, Checked.read]
    change ¬cursor + 8 ≤ image.bytes.length at hin
    rw [if_neg hin]
    exact look_load_out m hin

theorem look_visitRecords (h : Shows m image) (bodyEnd fuel cursor : Nat) (v : Visit)
    (records : List RecordView) :
    look m (visitRecordsInPlace image.size chunkHead chunkIndex bodyEnd fuel cursor v records).run =
      visitRecords image chunkHead chunkIndex bodyEnd fuel cursor v records := by
  induction fuel generalizing cursor v records with
  | zero => rfl
  | succ fuel ih =>
    unfold visitRecordsInPlace visitRecords
    simp only [apply_ite (fun x : Attempt _ => look m x.run), look_run_bind, look_lift, look_pure,
      look_loadHeadWord h, look_loadBytes h, ih, bind_assoc, pure_eq_ok, ok_bind]

theorem look_visitChunk {r : InPlaceReader} {r' : SegmentReader} (h : Shows m r'.image)
    (hsize : r.size = r'.image.size) (hheader : r.header = r'.header) (chunkStart : Nat)
    (v : Visit) :
    look m (visitChunkInPlace r chunkStart chunkIndex v).run =
      visitChunk r' chunkStart chunkIndex v := by
  unfold visitChunkInPlace visitChunk
  rw [hsize, hheader]
  simp only [apply_ite (fun x : Attempt _ => look m x.run), look_run_bind, look_lift, look_pure,
    look_loadBytes h, pure_eq_ok]
  -- the two programs go the same way up to the size the header stamps
  refine bind_congr fun _ => bind_congr fun _ => bind_congr fun _ => bind_congr fun _ => ?_
  refine ite_congr rfl (fun _ => rfl) fun _ => ?_
  refine bind_congr fun bytes => bind_congr fun _ => bind_congr fun _ => ?_
  refine ite_congr rfl (fun _ => rfl) fun _ => ite_congr rfl (fun _ => rfl) fun _ =>
    ite_congr rfl (fun _ => rfl) fun _ => ?_
  cases thisChunkBytes r'.header (ChunkHeader.ofBytes bytes) with
  | none => simp only [look_run_bind, look_lift, look_pure]
  | some bytes =>
    simp only [look_run_bind, look_lift, look_pure, look_visitRecords h]

theorem look_visitChunks {r : InPlaceReader} {r' : SegmentReader} (h : Shows m r'.image)
    (hsize : r.size = r'.image.size) (hheader : r.header = r'.header) (fuel chunkStart : Nat)
    (chunkIndex : UInt32) (v : Visit) :
    look m (visitChunksInPlace r fuel chunkStart chunkIndex v).run =
      visitChunks r' fuel chunkStart chunkIndex v := by
  induction fuel generalizing chunkStart chunkIndex v with
  | zero => rfl
  | succ fuel ih =>
    unfold visitChunksInPlace visitChunks
    simp only [apply_ite (fun x : Attempt _ => look m x.run), look_run_bind, look_lift, look_pure,
      look_visitChunk h hsize hheader, ih, hsize, hheader, pure_eq_ok]

/-- The reader of an image, without the image. -/
def SegmentReader.inPlace (r : SegmentReader) : InPlaceReader := ⟨r.image.size, r.header, r.sane⟩

theorem look_visitInPlace {r : SegmentReader} (h : Shows m r.image) :
    look m (visitInPlace r.inPlace).run = visit r :=
  look_visitChunks h rfl rfl _ _ _ _

/-- **On a memory that stands still** the reader returns what the visit of its image does. -/
theorem look_readInPlace (h : Shows m image) :
    look m (readInPlace image.size).run = match openImage image with
      | .error e => .ok (.error e)
      | .ok r => visit r >>= fun v => .ok (.ok v) := by
  unfold readInPlace openInPlace openImage
  by_cases hsmall : image.size < sizeofSegmentHeader
  · rw [if_pos hsmall, if_pos hsmall]
    rfl
  rw [if_neg hsmall, if_neg hsmall, look_run_bind, look_run_bind, look_loadBytes h,
    Image.read_eq (by omega)]
  simp only [ok_bind]
  generalize SegmentHeader.ofBytes (image.mem.slice 0 sizeofSegmentHeader) = header
  by_cases hmagic : header.magic ≠ cMagic
  · rw [if_pos hmagic, if_pos hmagic]
    rfl
  rw [if_neg hmagic, if_neg hmagic]
  by_cases hversion : header.formatVersion ≠ cFormatVersion
  · rw [if_pos hversion, if_pos hversion]
    rfl
  rw [if_neg hversion, if_neg hversion]
  by_cases hsane : GeometrySane header image.size
  · rw [dif_pos hsane, dif_pos hsane]
    simp only [look_pure, ok_bind, look_run_bind]
    exact congrArg (· >>= fun v => Except.ok (Except.ok v))
      (look_visitInPlace (r := ⟨image, header, hsane⟩) h)
  · rw [dif_neg hsane, dif_neg hsane]
    rfl

end Standing

/-! ### Going up -/

section Ascent

variable {size : Nat} {chunkHead : ChunkHeader} {chunkIndex : UInt32}

/-- The record walk loads nothing behind the body. -/
theorem visitRecords_goes {bodyEnd : Nat} (fuel : Nat) {a cursor : Nat} (v : Visit)
    (records : List RecordView) (hcursor : a ≤ cursor) (hend : a ≤ bodyEnd) :
    Goes (fun _ b => b ≤ bodyEnd) a
      (visitRecordsInPlace size chunkHead chunkIndex bodyEnd fuel cursor v records) := by
  induction fuel generalizing a cursor v records with
  | zero => exact Goes.throw _
  | succ fuel ih =>
    unfold visitRecordsInPlace
    by_cases hlt : cursor < bodyEnd
    · rw [if_pos hlt]
      refine Goes.lift fun remaining hremaining => ?_
      obtain ⟨-, rfl⟩ := of_sub64 hremaining
      by_cases hshort : bodyEnd - cursor < 8
      · rw [if_pos hshort]
        exact Goes.lift fun _ _ => Goes.pure hend
      rw [if_neg hshort]
      refine Goes.load hcursor fun word => ?_
      have hword : cursor + 8 ≤ bodyEnd := by omega
      split
      · split
        · exact Goes.lift fun _ _ => Goes.pure hword
        · exact Goes.lift fun _ _ => Goes.pure hword
      refine Goes.lift fun afterHead hafter => Goes.lift fun spaceLeft hspace => ?_
      obtain rfl := of_add64 hafter
      obtain ⟨-, rfl⟩ := of_sub64 hspace
      split
      · exact Goes.lift fun _ _ => Goes.pure hword
      · -- the payload is in the body, its padding need not be
        refine Goes.load (Nat.le_refl _) fun payload => Goes.lift fun next hnext => ?_
        have hpad := le_paddedPayload (RecordHead.unpack word).payloadBytes.toNat
        have hnext := of_add64 hnext
        refine ih _ _ ?_ ?_
        · show cursor + 8 + (RecordHead.unpack word).payloadBytes.toNat ≤ next
          omega
        · show cursor + 8 + (RecordHead.unpack word).payloadBytes.toNat ≤ bodyEnd
          omega
    · rw [if_neg hlt]
      exact Goes.pure hend

/-- The header's geometry. -/
def InPlaceReader.geometry (r : InPlaceReader) : Geometry where
  headerBytes := r.header.headerBytes.toNat
  chunkBytes := r.header.chunkBytes.toNat
  segmentBytes := r.header.segmentBytes.toNat
  generation := r.header.generation
  chunkBytes_gt := r.sane.chunkBytes_gt

theorem thisChunkBytes_gt (r : InPlaceReader) {bytes : Nat}
    (h : thisChunkBytes r.header chunkHead = some bytes) : sizeofChunkHeader < bytes :=
  r.geometry.classBytes_gt h

/-- The walk of a slot loads nothing of the next one. -/
theorem visitChunk_goes (r : InPlaceReader) {a chunkStart : Nat} (v : Visit)
    (hstart : a ≤ chunkStart) :
    Goes (fun x b => b ≤ x.2) a (visitChunkInPlace r chunkStart chunkIndex v) := by
  unfold visitChunkInPlace
  refine Goes.lift fun fallbackEnd hend => Goes.lift fun nominal hnominal =>
    Goes.lift fun available havailable => Goes.lift fun tail htail => ?_
  obtain rfl := of_add64 hend
  obtain ⟨-, rfl⟩ := of_sub64 havailable
  split
  · refine Goes.lift fun _ _ => Goes.pure ?_
    show a ≤ _
    omega
  have hin : chunkStart + sizeofChunkHeader ≤ chunkStart + r.header.chunkBytes.toNat := by
    have hgt := r.sane.chunkBytes_gt
    omega
  refine Goes.load hstart fun bytes => ?_
  refine Goes.lift fun body hbody => Goes.lift fun lost hlost => ?_
  split
  · exact Goes.lift fun _ _ => Goes.pure hin
  split
  · exact Goes.lift fun _ _ => Goes.pure hin
  split
  · exact Goes.lift fun _ _ => Goes.pure hin
  cases hbytes : thisChunkBytes r.header (ChunkHeader.ofBytes bytes) with
  | none => exact Goes.lift fun _ _ => Goes.pure hin
  | some bytes =>
    have hgt := thisChunkBytes_gt r hbytes
    refine Goes.lift fun nominalEnd hnominal => Goes.lift fun _ _ =>
      Goes.lift fun available havailable => Goes.lift fun _ _ => Goes.lift fun _ hstart =>
        Goes.lift fun bodyEnd hbodyEnd => ?_
    obtain rfl := of_add64 hnominal
    obtain rfl := of_add64 hstart
    obtain ⟨-, rfl⟩ := of_sub64 havailable
    obtain rfl := of_add64 hbodyEnd
    refine Goes.bind (visitRecords_goes _ _ _ (Nat.le_refl _) ?_) fun x b hb => ?_
    · show chunkStart + sizeofChunkHeader ≤ _
      omega
    · refine Goes.lift fun _ _ => Goes.pure ?_
      show b ≤ chunkStart + bytes
      omega

theorem visitChunks_goes (r : InPlaceReader) (fuel : Nat) {a chunkStart : Nat} (v : Visit)
    (hstart : a ≤ chunkStart) :
    Goes (fun _ _ => True) a (visitChunksInPlace r fuel chunkStart chunkIndex v) := by
  induction fuel generalizing a chunkStart chunkIndex v with
  | zero => exact Goes.throw _
  | succ fuel ih =>
    unfold visitChunksInPlace
    split
    · split
      · exact Goes.lift fun _ _ => Goes.checked fun _ _ => trivial
      · exact Goes.bind (visitChunk_goes r _ hstart) fun x b hb => ih x.1 hb
    · exact Goes.pure trivial

/-- **The reader goes up** through the memory and loads no byte twice. -/
theorem readInPlace_goes (size : Nat) : Goes (fun _ _ => True) 0 (readInPlace size) := by
  refine Goes.bind (P := fun x b => ∀ r, x = .ok r → b ≤ r.header.headerBytes.toNat) ?_
    fun x b hx => ?_
  · unfold openInPlace
    split
    · exact Goes.pure nofun
    · refine Goes.load (Nat.le_refl 0) fun bytes => ?_
      dsimp only
      split
      · exact Goes.pure nofun
      split
      · exact Goes.pure nofun
      split
      · refine Goes.pure fun r hr => ?_
        obtain rfl := Except.ok.inj hr
        exact GeometrySane.headerBytes_ge ‹_›
      · exact Goes.pure nofun
  · cases x with
    | error e => exact Goes.pure trivial
    | ok r => exact Goes.bind (visitChunks_goes r _ _ (hx r rfl)) fun _ _ _ => Goes.pure trivial

end Ascent

/-! ### The loads -/

/-- What the record walk loads from `cursor` on: a head word, then its payload. -/
def bodyLoads (m : Mem) (bodyEnd cursor : Nat) : List Load :=
  if bodyEnd ≤ cursor then []
  else if bodyEnd < cursor + 8 then []
  else .word cursor :: (
    if RecordHead.isCommitted (m.word cursor 8) = false then []
    else if bodyEnd < cursor + 8 + payloadAt m cursor then []
    else .bytes (cursor + 8) (payloadAt m cursor) ::
      bodyLoads m bodyEnd (cursor + 8 + paddedPayload (payloadAt m cursor)))
termination_by bodyEnd - cursor
decreasing_by omega

namespace Geometry

variable (g : Geometry)

/-- What the walk of a slot loads. -/
def slotLoads (m : Mem) (size chunkStart : Nat) : List Load :=
  match g.slot m size chunkStart with
  | .headless => []
  | .refused | .unclaimed => [.bytes chunkStart sizeofChunkHeader]
  | .current _ bytes => .bytes chunkStart sizeofChunkHeader ::
      bodyLoads m (g.bodyEnd size chunkStart bytes) (chunkStart + sizeofChunkHeader)

/-- What the walk loads from `chunkStart` on. -/
def walkLoads (m : Mem) (size chunkStart : Nat) : List Load :=
  if g.segmentBytes ≤ chunkStart then []
  else if size ≤ chunkStart then []
  else g.slotLoads m size chunkStart ++
    walkLoads m size (chunkStart + g.stride (g.slot m size chunkStart))
termination_by size - chunkStart
decreasing_by
  have h := g.stride_gt m size chunkStart
  omega

end Geometry

section Loads

variable {m : Mem} {size : Nat} {chunkHead : ChunkHeader} {chunkIndex : UInt32}

theorem of_loadHeadWord {α : Type} {cursor : Nat} {f : Nat → Attempt α} {r : α}
    (h : look m (loadHeadWord size cursor >>= f).run = .ok r) :
    look m (f (m.word cursor 8)).run = .ok r ∧
      loads m (loadHeadWord size cursor >>= f).run =
        .word cursor :: loads m (f (m.word cursor 8)).run :=
  of_load (i := .word cursor) h

theorem of_loadBytes {α : Type} {off n : Nat} {f : List UInt8 → Attempt α} {r : α}
    (h : look m (loadBytes size off n >>= f).run = .ok r) :
    look m (f (m.slice off n)).run = .ok r ∧
      loads m (loadBytes size off n >>= f).run =
        .bytes off n :: loads m (f (m.slice off n)).run :=
  of_load (i := .bytes off n) h

theorem loads_visitRecords {bodyEnd fuel cursor : Nat} {v : Visit} {records : List RecordView}
    {x : Visit × List RecordView} (h : look m (visitRecordsInPlace size chunkHead chunkIndex bodyEnd
      fuel cursor v records).run = .ok x) :
    loads m (visitRecordsInPlace size chunkHead chunkIndex bodyEnd fuel cursor v records).run =
      bodyLoads m bodyEnd cursor := by
  induction fuel generalizing cursor v records with
  | zero => cases h
  | succ fuel ih =>
    unfold visitRecordsInPlace at h ⊢
    by_cases hlt : cursor < bodyEnd
    · rw [if_pos hlt] at h ⊢
      rw [bodyLoads, if_neg (Nat.not_le_of_lt hlt)]
      obtain ⟨remaining, hremaining, h, hloads⟩ := of_lift h
      obtain ⟨-, rfl⟩ := of_sub64 hremaining
      rw [hloads]
      clear hloads
      by_cases hshort : bodyEnd < cursor + 8
      · rw [if_pos (by omega)] at h ⊢
        rw [if_pos hshort]
        obtain ⟨_, -, -, hloads⟩ := of_lift h
        exact hloads
      rw [if_neg (by omega)] at h ⊢
      rw [if_neg hshort]
      obtain ⟨h, hloads⟩ := of_loadHeadWord h
      refine hloads.trans (congrArg _ ?_)
      clear hloads
      by_cases hcommitted : RecordHead.isCommitted (m.word cursor 8) = false
      · rw [if_pos hcommitted] at h ⊢
        rw [if_pos hcommitted]
        split at h
        · rw [if_pos ‹_›]
          obtain ⟨_, -, -, hloads⟩ := of_lift h
          exact hloads
        · rw [if_neg ‹_›]
          obtain ⟨_, -, -, hloads⟩ := of_lift h
          exact hloads
      rw [if_neg hcommitted] at h ⊢
      rw [if_neg hcommitted]
      obtain ⟨afterHead, hafter, h, hloads⟩ := of_lift h
      rw [hloads]
      obtain rfl := of_add64 hafter
      obtain ⟨spaceLeft, hspace, h, hloads⟩ := of_lift h
      rw [hloads]
      obtain ⟨hle, rfl⟩ := of_sub64 hspace
      have hpayload : (RecordHead.unpack (m.word cursor 8)).payloadBytes.toNat =
          payloadAt m cursor := rfl
      rw [hpayload] at h ⊢
      by_cases hlong : bodyEnd < cursor + 8 + payloadAt m cursor
      · rw [if_pos (by omega)] at h ⊢
        rw [if_pos hlong]
        obtain ⟨_, -, -, hloads⟩ := of_lift h
        exact hloads
      rw [if_neg (by omega)] at h ⊢
      rw [if_neg hlong]
      obtain ⟨h, hloads⟩ := of_loadBytes h
      refine hloads.trans (congrArg _ ?_)
      obtain ⟨next, hnext, h, hloads⟩ := of_lift h
      rw [hloads]
      obtain rfl := of_add64 hnext
      exact ih h
    · rw [if_neg hlt, bodyLoads, if_pos (Nat.le_of_not_lt hlt)]
      rfl

/-- The walk of a slot loads it, and says where the next one is. -/
theorem loads_visitChunk {r : InPlaceReader} {chunkStart next : Nat} {v v' : Visit}
    (h : look m (visitChunkInPlace r chunkStart chunkIndex v).run = .ok (v', next)) :
    loads m (visitChunkInPlace r chunkStart chunkIndex v).run =
        r.geometry.slotLoads m r.size chunkStart ∧
      next = chunkStart + r.geometry.stride (r.geometry.slot m r.size chunkStart) := by
  unfold visitChunkInPlace at h ⊢
  obtain ⟨fallbackEnd, hend, h, hloads⟩ := of_lift h
  rw [hloads]
  obtain ⟨nominal, hnominal, h, hloads⟩ := of_lift h
  rw [hloads]
  obtain ⟨available, havailable, h, hloads⟩ := of_lift h
  rw [hloads]
  obtain ⟨tail, htail, h, hloads⟩ := of_lift h
  rw [hloads]
  obtain rfl := of_add64 hend
  obtain ⟨-, rfl⟩ := of_sub64 havailable
  have havail : min (min (chunkStart + r.header.chunkBytes.toNat) r.header.segmentBytes.toNat)
      r.size - chunkStart = r.geometry.available r.size chunkStart := rfl
  rw [havail] at h ⊢
  unfold Geometry.slotLoads Geometry.slot
  by_cases hheadless : r.geometry.available r.size chunkStart < sizeofChunkHeader
  · rw [if_pos hheadless] at h ⊢
    rw [if_pos hheadless]
    obtain ⟨_, -, h, hloads⟩ := of_lift h
    exact ⟨hloads, (Prod.mk.inj (Except.ok.inj h)).2.symm⟩
  rw [if_neg hheadless] at h ⊢
  rw [if_neg hheadless]
  obtain ⟨h, hloads⟩ := of_loadBytes h
  rw [hloads]
  have hheader : ChunkHeader.ofBytes (m.slice chunkStart sizeofChunkHeader) =
      Geometry.headerAt m chunkStart := rfl
  rw [hheader] at h ⊢
  generalize Geometry.headerAt m chunkStart = head at h ⊢
  obtain ⟨body, -, h, hloads⟩ := of_lift h
  rw [hloads]
  obtain ⟨lost, -, h, hloads⟩ := of_lift h
  rw [hloads]
  unfold Geometry.judge
  by_cases hcorrupt : head.corrupt = true
  · rw [if_pos hcorrupt] at h ⊢
    rw [if_pos hcorrupt]
    obtain ⟨_, -, h, hloads⟩ := of_lift h
    exact ⟨congrArg _ hloads, (Prod.mk.inj (Except.ok.inj h)).2.symm⟩
  rw [if_neg hcorrupt] at h ⊢
  rw [if_neg hcorrupt]
  by_cases hgeneration : head.generation = 0
  · rw [if_pos hgeneration] at h ⊢
    rw [if_pos hgeneration]
    obtain ⟨_, -, h, hloads⟩ := of_lift h
    exact ⟨congrArg _ hloads, (Prod.mk.inj (Except.ok.inj h)).2.symm⟩
  rw [if_neg hgeneration] at h ⊢
  rw [if_neg hgeneration]
  have hcurrent : r.geometry.generation = r.header.generation := rfl
  rw [hcurrent]
  by_cases hmatch : head.generation ≠ r.header.generation
  · rw [if_pos hmatch] at h ⊢
    rw [if_pos hmatch]
    obtain ⟨_, -, h, hloads⟩ := of_lift h
    exact ⟨congrArg _ hloads, (Prod.mk.inj (Except.ok.inj h)).2.symm⟩
  rw [if_neg hmatch] at h ⊢
  rw [if_neg hmatch]
  have hclass : r.geometry.classBytes head.chunkSizeClass = thisChunkBytes r.header head := rfl
  rw [hclass]
  cases hbytes : thisChunkBytes r.header head with
  | none =>
    rw [hbytes] at h
    obtain ⟨_, -, h, hloads⟩ := of_lift h
    exact ⟨congrArg _ hloads, (Prod.mk.inj (Except.ok.inj h)).2.symm⟩
  | some bytes =>
    rw [hbytes] at h
    obtain ⟨nominalEnd, hnominal, h, hloads⟩ := of_lift h
    rw [hloads]
    obtain ⟨_, -, h, hloads⟩ := of_lift h
    rw [hloads]
    obtain ⟨available, havailable, h, hloads⟩ := of_lift h
    rw [hloads]
    obtain ⟨_, -, h, hloads⟩ := of_lift h
    rw [hloads]
    obtain ⟨bodyStart, hstart, h, hloads⟩ := of_lift h
    rw [hloads]
    obtain ⟨bodyEnd, hbodyEnd, h, hloads⟩ := of_lift h
    rw [hloads]
    obtain rfl := of_add64 hnominal
    obtain rfl := of_add64 hstart
    obtain ⟨hle, rfl⟩ := of_sub64 havailable
    obtain rfl := of_add64 hbodyEnd
    rw [Nat.add_sub_of_le hle] at h ⊢
    obtain ⟨x, hx, h, hloads⟩ := of_bind h
    rw [hloads, loads_visitRecords hx]
    obtain ⟨_, -, h, hloads⟩ := of_lift h
    rw [hloads, loads_pure, List.append_nil]
    exact ⟨rfl, (Prod.mk.inj (Except.ok.inj h)).2.symm⟩

theorem loads_visitChunks {r : InPlaceReader} {fuel chunkStart : Nat} {v v' : Visit}
    (h : look m (visitChunksInPlace r fuel chunkStart chunkIndex v).run = .ok v') :
    loads m (visitChunksInPlace r fuel chunkStart chunkIndex v).run =
      r.geometry.walkLoads m r.size chunkStart := by
  induction fuel generalizing chunkStart chunkIndex v with
  | zero => cases h
  | succ fuel ih =>
    have hsegment : r.geometry.segmentBytes = r.header.segmentBytes.toNat := rfl
    unfold visitChunksInPlace at h ⊢
    rw [Geometry.walkLoads, hsegment]
    by_cases hlt : chunkStart < r.header.segmentBytes.toNat
    · rw [if_pos hlt] at h ⊢
      rw [if_neg (Nat.not_le_of_lt hlt)]
      by_cases habsent : r.size ≤ chunkStart
      · rw [if_pos habsent] at h ⊢
        rw [if_pos habsent]
        obtain ⟨_, -, -, hloads⟩ := of_lift h
        exact hloads
      · rw [if_neg habsent] at h ⊢
        rw [if_neg habsent]
        obtain ⟨⟨v'', next⟩, hx, h, hloads⟩ := of_bind h
        obtain ⟨hslot, rfl⟩ := loads_visitChunk hx
        rw [hloads, hslot, ih h]
    · rw [if_neg hlt, if_pos (Nat.le_of_not_lt hlt)]
      rfl

theorem loads_openInPlace {image : Image} {r : SegmentReader} (h : Shows m image)
    (hopen : openImage image = .ok r) :
    look m (openInPlace image.size).run = .ok (.ok r.inPlace) ∧
      loads m (openInPlace image.size).run = [.bytes 0 sizeofSegmentHeader] := by
  obtain ⟨rfl, hsize, hheader, hmagic, hversion⟩ := openImage_eq_ok hopen
  have hread : look m (loadBytes r.image.size 0 sizeofSegmentHeader).run =
      .ok (m.slice 0 sizeofSegmentHeader) := look_load m (i := .bytes 0 sizeofSegmentHeader) hsize
  have hload : loads m (loadBytes r.image.size 0 sizeofSegmentHeader).run =
      [.bytes 0 sizeofSegmentHeader] := loads_load m (i := .bytes 0 sizeofSegmentHeader) hsize
  rw [h.slice hsize] at hheader
  unfold openInPlace
  rw [if_neg (Nat.not_lt_of_le hsize), look_run_bind, loads_run_bind hread, hread, hload]
  simp only [ok_bind, ← hheader]
  rw [if_neg (not_not_intro hmagic), if_neg (not_not_intro hversion), dif_pos r.sane]
  exact ⟨rfl, rfl⟩

/-- **What a reader loads**: the header of the segment, and what its walk is made of. -/
theorem loads_readInPlace {image : Image} {r : SegmentReader} {v : Visit} (h : Shows m image)
    (hopen : openImage image = .ok r) (hvisit : visit r = .ok v) :
    loads m (readInPlace image.size).run =
      .bytes 0 sizeofSegmentHeader :: r.geometry.walkLoads m image.size r.geometry.headerBytes := by
  obtain ⟨hlook, hloads⟩ := loads_openInPlace h hopen
  have himage : r.image = image := (openImage_eq_ok hopen).1
  have hwalk : look m (visitInPlace r.inPlace).run = .ok v := by
    rw [look_visitInPlace (himage ▸ h)]
    exact hvisit
  unfold readInPlace
  rw [loads_run_bind hlook, hloads]
  simp only
  rw [loads_run_bind hwalk, loads_pure, List.append_nil]
  have hvisited := loads_visitChunks hwalk
  subst himage
  exact congrArg _ hvisited

/-- Slots of one size are loaded one after another. -/
theorem walkLoads_uniform {g : Geometry} (h : g.UniformSlots m) :
    g.walkLoads m g.segmentBytes g.headerBytes =
      (List.range g.slotCount).flatMap fun i => g.slotLoads m g.segmentBytes (g.slotStart i) := by
  -- from slot `i` on, there are `k` slots left
  have hgo : ∀ k i, i + k = g.slotCount →
      g.walkLoads m g.segmentBytes (g.slotStart i) =
        (List.range' i k).flatMap fun i => g.slotLoads m g.segmentBytes (g.slotStart i) := by
    intro k
    induction k with
    | zero =>
      intro i hi
      have hend : ¬g.slotStart i < g.segmentBytes := by
        rw [← g.lt_slotCount]
        omega
      rw [Geometry.walkLoads, if_pos (Nat.le_of_not_lt hend)]
      rfl
    | succ k ih =>
      intro i hi
      have hlt : g.slotStart i < g.segmentBytes := g.lt_slotCount.mp (by omega)
      rw [Geometry.walkLoads, if_neg (Nat.not_le_of_lt hlt), if_neg (Nat.not_le_of_lt hlt),
        h i (by omega), ← g.slotStart_succ, ih (i + 1) (by omega), List.range'_succ,
        List.flatMap_cons]
  have h0 := hgo g.slotCount 0 (Nat.zero_add _)
  have hstart : g.slotStart 0 = g.headerBytes := by unfold Geometry.slotStart; omega
  rw [hstart] at h0
  rw [List.range_eq_range']
  exact h0

end Loads

end Sub0Log.Reader
