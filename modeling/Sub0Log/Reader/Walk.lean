import Sub0Log.Reader.Segment

/-!
# What a visit computes

`visit` threads counters and checks every sum. This file states the walk it makes
in plain arithmetic, over a memory, a size and a `Geometry`:

* `body` — the offsets of the committed head words of one chunk's body, and the
  two remainders it is left with;
* `Geometry.slot` — what the walk makes of a slot: no header in reach, a header
  it does not trust, space never claimed, or a chunk of this segment;
* `Geometry.walk` — slot after slot, to the end of the segment or of the image.

Each of the three accounts for exactly the bytes it walks over (`body_total`,
`walkSlot_total`, `walk_total`), which bounds every counter by the declared size
of the segment. **`visit_eq_walk`** uses that bound to show that the checked visit
never faults, takes no more steps than the image has bytes, and returns the walk.
-/

open Bytes Checked

namespace Sub0Log.Reader

open Wire

/-! ### One chunk's body -/

/-- The payload length the word at `a` declares. -/
def payloadAt (m : Mem) (a : Nat) : Nat :=
  (RecordHead.unpack (m.word a 8)).payloadBytes.toNat

/-- The committed record whose head word is at `a`. -/
def viewAt (m : Mem) (chunkIndex : UInt32) (ownerThread : UInt64) (a : Nat) : RecordView where
  head := RecordHead.unpack (m.word a 8)
  payload := m.slice (a + 8) (payloadAt m a)
  chunkIndex := chunkIndex
  ownerThread := ownerThread
  recordOffset := a

@[simp] theorem viewAt_payload_length (m : Mem) (chunkIndex : UInt32) (owner : UInt64)
    (a : Nat) : (viewAt m chunkIndex owner a).payload.length = payloadAt m a := by
  simp only [viewAt, Mem.slice_length]

/-- A walked body: where its records are, and the bytes that are none. -/
structure Body where
  offsets : List Nat
  unreadable : Nat
  unwritten : Nat

/-- The record walk from `cursor` to `bodyEnd`. -/
def body (m : Mem) (bodyEnd cursor : Nat) : Body :=
  if bodyEnd ≤ cursor then ⟨[], 0, 0⟩
  else if bodyEnd < cursor + 8 then ⟨[], 0, bodyEnd - cursor⟩
  else if RecordHead.isCommitted (m.word cursor 8) = false then
    if m.word cursor 8 = 0 then ⟨[], 0, bodyEnd - cursor⟩ else ⟨[], bodyEnd - cursor, 0⟩
  else if bodyEnd < cursor + 8 + payloadAt m cursor then ⟨[], bodyEnd - cursor, 0⟩
  else
    let rest := body m bodyEnd (cursor + 8 + paddedPayload (payloadAt m cursor))
    { rest with offsets := cursor :: rest.offsets }
termination_by bodyEnd - cursor
decreasing_by omega

/-- The bytes of its body that the record at `a` takes: its head word and its
padded payload, as far as the body reaches. -/
def taken (m : Mem) (bodyEnd a : Nat) : Nat :=
  8 + min (paddedPayload (payloadAt m a)) (bodyEnd - (a + 8))

/-- Every byte of the body is a record's, unreadable or unwritten. -/
theorem body_total (m : Mem) {bodyEnd cursor : Nat} (h : cursor ≤ bodyEnd) :
    (body m bodyEnd cursor).unreadable + (body m bodyEnd cursor).unwritten
      + ((body m bodyEnd cursor).offsets.map (taken m bodyEnd)).sum = bodyEnd - cursor := by
  fun_induction body m bodyEnd cursor with
  | case1 => simp only [List.map_nil, List.sum_nil]; omega
  | case2 => simp
  | case3 => simp
  | case4 => simp
  | case5 => simp
  | case6 cursor h₁ h₂ h₃ h₄ rest ih =>
    simp only [List.map_cons, List.sum_cons]
    have htaken : taken m bodyEnd cursor =
        8 + min (paddedPayload (payloadAt m cursor)) (bodyEnd - (cursor + 8)) := rfl
    by_cases hend : cursor + 8 + paddedPayload (payloadAt m cursor) ≤ bodyEnd
    · have ih : rest.unreadable + rest.unwritten + (rest.offsets.map (taken m bodyEnd)).sum =
          bodyEnd - (cursor + 8 + paddedPayload (payloadAt m cursor)) := ih hend
      omega
    · -- the padding of the last record leaves the body: nothing is walked after it
      have hrest : rest = ⟨[], 0, 0⟩ := by
        change body m bodyEnd _ = _
        rw [body, if_pos (by omega)]
      rw [hrest]
      simp only [List.map_nil, List.sum_nil]
      omega

/-- The walk of one body, with every counter in range, is the checked inner loop. -/
theorem visitRecords_eq {image : Image} {chunkHead : ChunkHeader} {chunkIndex : UInt32}
    {bodyEnd : Nat} (hend : bodyEnd ≤ image.size) {fuel cursor : Nat}
    (hfuel : bodyEnd - cursor < fuel) (v : Visit) (records : List RecordView)
    (hunreadable : v.unreadableBytes + (bodyEnd - cursor) < 2 ^ 64)
    (hunwritten : v.unwrittenBytes + (bodyEnd - cursor) < 2 ^ 64) :
    ∃ n, n ≤ (bodyEnd - cursor + 7) / 8 ∧
      visitRecords image chunkHead chunkIndex bodyEnd fuel cursor v records =
        .ok (⟨v.unreadableBytes + (body image.mem bodyEnd cursor).unreadable,
              v.unwrittenBytes + (body image.mem bodyEnd cursor).unwritten,
              v.steps + n, v.slots⟩,
            records ++ (body image.mem bodyEnd cursor).offsets.map
              (viewAt image.mem chunkIndex chunkHead.ownerThread)) := by
  have hsize := image.size_le
  change image.size ≤ 2 ^ 63 - 1 at hsize
  induction fuel generalizing cursor v records with
  | zero => omega
  | succ fuel ih =>
    unfold visitRecords
    by_cases hlt : cursor < bodyEnd
    · rw [if_pos hlt]
      unfold body
      rw [if_neg (by omega), sub64_eq (by omega)]
      simp only [ok_bind]
      -- the first half of the walk: fewer than eight bytes left
      by_cases hshort : bodyEnd < cursor + 8
      · rw [if_pos (by omega), if_pos hshort]
        refine ⟨1, by omega, ?_⟩
        simp only [Visit.countUnwritten, Visit.tick, add64_eq hunwritten, ok_bind, pure_eq_ok,
          List.map_nil, List.append_nil, Nat.add_zero]
      rw [if_neg (by omega), if_neg hshort, Image.read_eq (by omega)]
      simp only [ok_bind]
      have hword : leNat (image.mem.slice cursor 8) = image.mem.word cursor 8 := rfl
      rw [hword]
      by_cases hcommitted : RecordHead.isCommitted (image.mem.word cursor 8) = false
      · rw [if_pos hcommitted, if_pos hcommitted]
        by_cases hzero : image.mem.word cursor 8 = 0
        · rw [if_pos hzero, if_pos hzero]
          refine ⟨1, by omega, ?_⟩
          simp only [Visit.countUnwritten, Visit.tick, add64_eq hunwritten, ok_bind, pure_eq_ok,
            List.map_nil, List.append_nil, Nat.add_zero]
        · rw [if_neg hzero, if_neg hzero]
          refine ⟨1, by omega, ?_⟩
          simp only [Visit.countUnreadable, Visit.tick, add64_eq hunreadable, ok_bind, pure_eq_ok,
            List.map_nil, List.append_nil, Nat.add_zero]
      rw [if_neg hcommitted, if_neg hcommitted, add64_eq (by omega)]
      simp only [ok_bind]
      rw [sub64_eq (by omega)]
      simp only [ok_bind]
      have hpay : (RecordHead.unpack (image.mem.word cursor 8)).payloadBytes.toNat =
          payloadAt image.mem cursor := rfl
      rw [hpay]
      by_cases hlong : bodyEnd < cursor + 8 + payloadAt image.mem cursor
      · rw [if_pos (by omega), if_pos hlong]
        refine ⟨1, by omega, ?_⟩
        simp only [Visit.countUnreadable, Visit.tick, add64_eq hunreadable, ok_bind, pure_eq_ok,
          List.map_nil, List.append_nil, Nat.add_zero]
      -- a record: its payload is inside the image, and the walk goes on behind its padding
      have hpad := le_paddedPayload (payloadAt image.mem cursor)
      have hpad' := paddedPayload_lt (payloadAt image.mem cursor)
      rw [if_neg (by omega), if_neg hlong, Image.read_eq (by omega)]
      simp only [ok_bind]
      rw [add64_eq (by omega)]
      simp only [ok_bind]
      obtain ⟨n, hn, hrest⟩ := @ih (cursor + 8 + paddedPayload (payloadAt image.mem cursor))
        (by omega) v.tick
        (records ++ [viewAt image.mem chunkIndex chunkHead.ownerThread cursor])
        (by change v.unreadableBytes + _ < _; omega) (by change v.unwrittenBytes + _ < _; omega)
      have hview : (⟨RecordHead.unpack (image.mem.word cursor 8),
          image.mem.slice (cursor + 8) (payloadAt image.mem cursor), chunkIndex,
          chunkHead.ownerThread, cursor⟩ : RecordView) =
          viewAt image.mem chunkIndex chunkHead.ownerThread cursor := rfl
      have hsteps : v.tick.steps + n = v.steps + (n + 1) := by
        change v.steps + 1 + n = _
        omega
      refine ⟨n + 1, by omega, ?_⟩
      rw [hview, hrest, hsteps, List.append_assoc]
      rfl
    · rw [if_neg hlt]
      unfold body
      rw [if_pos (by omega)]
      exact ⟨0, by omega, by simp⟩

/-! ### One slot -/

/-- What the walk needs to know of an opened segment. -/
structure Geometry where
  headerBytes : Nat
  chunkBytes : Nat
  segmentBytes : Nat
  generation : UInt64
  chunkBytes_gt : sizeofChunkHeader < chunkBytes

/-- What the walk makes of one slot. -/
inductive Slot
  /-- No whole chunk header in reach. -/
  | headless
  /-- A header in reach that is not evidence of a chunk of this segment. -/
  | refused
  /-- Space no thread ever claimed. -/
  | unclaimed
  /-- A chunk of this segment, with its owner and the size it stamps. -/
  | current (ownerThread : UInt64) (bytes : Nat)
  deriving DecidableEq, Repr

namespace Geometry

variable (g : Geometry)

/-- The nominal bytes of a slot: one uniform stride, cut at the segment's end. -/
def nominal (chunkStart : Nat) : Nat :=
  min (chunkStart + g.chunkBytes) g.segmentBytes - chunkStart

/-- The nominal bytes the image has. -/
def available (size chunkStart : Nat) : Nat :=
  min (min (chunkStart + g.chunkBytes) g.segmentBytes) size - chunkStart

/-- The end of the body of a chunk of `bytes` bytes. -/
def bodyEnd (size chunkStart bytes : Nat) : Nat :=
  min (min (chunkStart + bytes) g.segmentBytes) size

/-- The chunk header at `chunkStart`. -/
def headerAt (m : Mem) (chunkStart : Nat) : ChunkHeader :=
  ChunkHeader.ofBytes (m.slice chunkStart sizeofChunkHeader)

/-- The size a class stamps, if it is one the format has. -/
def classBytes (chunkSizeClass : UInt8) : Option Nat :=
  if chunkSizeClass.toNat = 0 then some g.chunkBytes
  else if chunkSizeClass.toNat ≤ cMaxChunkSizeClass then
    some (chunkBytesForSizeClass chunkSizeClass.toNat)
  else none

/-- The verdict on a header in reach. -/
def judge (head : ChunkHeader) : Slot :=
  if head.corrupt then .refused
  else if head.generation = 0 then .unclaimed
  else if head.generation ≠ g.generation then .refused
  else match g.classBytes head.chunkSizeClass with
    | none => .refused
    | some bytes => .current head.ownerThread bytes

/-- The verdict on the slot at `chunkStart`. -/
def slot (m : Mem) (size chunkStart : Nat) : Slot :=
  if g.available size chunkStart < sizeofChunkHeader then .headless
  else g.judge (headerAt m chunkStart)

/-- How far the next slot is. -/
def stride : Slot → Nat
  | .current _ bytes => bytes
  | _ => g.chunkBytes

theorem classBytes_gt {c : UInt8} {bytes : Nat} (h : g.classBytes c = some bytes) :
    sizeofChunkHeader < bytes := by
  have hg := g.chunkBytes_gt
  unfold classBytes at h
  split at h
  · cases h; exact hg
  · split at h
    · cases h
      have hunit := cChunkSizeUnit_le_chunkBytesForSizeClass c.toNat
      unfold cChunkSizeUnit sizeofChunkHeader at *
      omega
    · cases h

theorem classBytes_lt {c : UInt8} {bytes : Nat} (hg : g.chunkBytes < 2 ^ 32)
    (h : g.classBytes c = some bytes) : bytes < 2 ^ 32 := by
  unfold classBytes at h
  split at h
  · cases h; exact hg
  · split at h
    · cases h; exact chunkBytesForSizeClass_lt ‹_›
    · cases h

theorem judge_current {head : ChunkHeader} {owner : UInt64} {bytes : Nat}
    (h : g.judge head = .current owner bytes) :
    head.corrupt = false ∧ head.generation ≠ 0 ∧ head.generation = g.generation ∧
      g.classBytes head.chunkSizeClass = some bytes ∧ owner = head.ownerThread := by
  unfold judge at h
  split at h
  · cases h
  · split at h
    · cases h
    · split at h
      · cases h
      · split at h
        · cases h
        · injection h with hown hbytes
          subst hown hbytes
          refine ⟨?_, ?_, ?_, ?_, rfl⟩
          · simpa using ‹¬head.corrupt = true›
          · assumption
          · simpa using ‹¬head.generation ≠ g.generation›
          · assumption

theorem slot_current {m : Mem} {size chunkStart : Nat} {owner : UInt64} {bytes : Nat}
    (h : g.slot m size chunkStart = .current owner bytes) :
    sizeofChunkHeader ≤ g.available size chunkStart ∧
      g.judge (headerAt m chunkStart) = .current owner bytes := by
  unfold slot at h
  split at h
  · cases h
  · exact ⟨by omega, h⟩

theorem stride_gt (m : Mem) (size chunkStart : Nat) :
    sizeofChunkHeader < g.stride (g.slot m size chunkStart) := by
  cases hslot : g.slot m size chunkStart with
  | current owner bytes =>
    obtain ⟨-, hjudge⟩ := g.slot_current hslot
    obtain ⟨-, -, -, hbytes, -⟩ := g.judge_current hjudge
    exact g.classBytes_gt hbytes
  | _ => exact g.chunkBytes_gt

/-- A slot with a header in reach is at least that long, in the segment and in the
image. -/
theorem le_of_available {size chunkStart : Nat}
    (h : sizeofChunkHeader ≤ g.available size chunkStart) :
    chunkStart + sizeofChunkHeader ≤ g.segmentBytes ∧ chunkStart + sizeofChunkHeader ≤ size := by
  unfold available sizeofChunkHeader at *
  omega

theorem le_bodyEnd {size chunkStart bytes : Nat}
    (h : sizeofChunkHeader ≤ g.available size chunkStart) (hbytes : sizeofChunkHeader < bytes) :
    chunkStart + sizeofChunkHeader ≤ g.bodyEnd size chunkStart bytes := by
  obtain ⟨h₁, h₂⟩ := g.le_of_available h
  unfold bodyEnd
  omega

end Geometry

/-! ### The whole walk -/

/-- What was found over a range of slots. -/
structure Walk where
  slots : List SlotVisit
  unreadable : Nat
  unwritten : Nat

namespace Walk

/-- One range after another. -/
def append (w w' : Walk) : Walk :=
  ⟨w.slots ++ w'.slots, w.unreadable + w'.unreadable, w.unwritten + w'.unwritten⟩

/-- The records found, in order. -/
def records (w : Walk) : List RecordView := w.slots.flatMap SlotVisit.records

@[simp] theorem records_append (w w' : Walk) :
    (w.append w').records = w.records ++ w'.records := by
  simp [records, append]

end Walk

namespace Geometry

variable (g : Geometry)

/-- The walk of one slot the image reaches into. -/
def walkSlot (m : Mem) (size chunkStart : Nat) (chunkIndex : UInt32) : Walk :=
  match g.slot m size chunkStart with
  | .headless => ⟨[⟨chunkStart, chunkStart, []⟩], g.nominal chunkStart, 0⟩
  | .refused => ⟨[⟨chunkStart, chunkStart, []⟩], g.nominal chunkStart - sizeofChunkHeader, 0⟩
  | .unclaimed => ⟨[⟨chunkStart, chunkStart, []⟩], 0, g.nominal chunkStart⟩
  | .current owner bytes =>
    let bodyEnd := g.bodyEnd size chunkStart bytes
    let b := body m bodyEnd (chunkStart + sizeofChunkHeader)
    ⟨[⟨chunkStart, bodyEnd, b.offsets.map (viewAt m chunkIndex owner)⟩],
      b.unreadable + (min (chunkStart + bytes) g.segmentBytes - bodyEnd), b.unwritten⟩

/-- The walk from `chunkStart` to the end of the segment. -/
def walk (m : Mem) (size chunkStart : Nat) (chunkIndex : UInt32) : Walk :=
  if g.segmentBytes ≤ chunkStart then ⟨[], 0, 0⟩
  else if size ≤ chunkStart then ⟨[], g.segmentBytes - chunkStart, 0⟩
  else (g.walkSlot m size chunkStart chunkIndex).append
    (walk m size (chunkStart + g.stride (g.slot m size chunkStart)) (chunkIndex + 1))
termination_by size - chunkStart
decreasing_by
  have h := g.stride_gt m size chunkStart
  omega

theorem walk_of_le {m : Mem} {size chunkStart : Nat} {chunkIndex : UInt32}
    (h : g.segmentBytes ≤ chunkStart) : g.walk m size chunkStart chunkIndex = ⟨[], 0, 0⟩ := by
  rw [walk, if_pos h]

theorem walk_of_absent {m : Mem} {size chunkStart : Nat} {chunkIndex : UInt32}
    (h : chunkStart < g.segmentBytes) (hsize : size ≤ chunkStart) :
    g.walk m size chunkStart chunkIndex = ⟨[], g.segmentBytes - chunkStart, 0⟩ := by
  rw [walk, if_neg (Nat.not_le_of_lt h), if_pos hsize]

theorem walk_of_lt {m : Mem} {size chunkStart : Nat} {chunkIndex : UInt32}
    (h : chunkStart < g.segmentBytes) (hsize : chunkStart < size) :
    g.walk m size chunkStart chunkIndex =
      (g.walkSlot m size chunkStart chunkIndex).append
        (g.walk m size (chunkStart + g.stride (g.slot m size chunkStart)) (chunkIndex + 1)) := by
  rw [walk, if_neg (Nat.not_le_of_lt h), if_neg (Nat.not_le_of_lt hsize)]

/-- The header bytes of a slot that are counted apart: those of a header in reach
that either fails its checksum or has a nonzero generation. -/
def headerCharge (m : Mem) (size chunkStart : Nat) : Nat :=
  if sizeofChunkHeader ≤ g.available size chunkStart ∧
      ((headerAt m chunkStart).corrupt = true ∨ (headerAt m chunkStart).generation ≠ 0)
  then sizeofChunkHeader else 0

/-- The bytes of a slot that are part of a record. -/
def recordCharge (s : SlotVisit) : Nat :=
  (s.records.map fun view => 8 + min (paddedPayload view.head.payloadBytes.toNat)
    (s.bodyEnd - (view.recordOffset + 8))).sum

/-- What a slot's verdict says about its header's charge. -/
theorem headerCharge_eq (m : Mem) (size chunkStart : Nat) :
    g.headerCharge m size chunkStart =
      match g.slot m size chunkStart with
      | .headless => 0
      | .unclaimed => 0
      | _ => sizeofChunkHeader := by
  unfold headerCharge slot
  by_cases havail : g.available size chunkStart < sizeofChunkHeader
  · rw [if_pos havail, if_neg (by omega)]
  rw [if_neg havail]
  have havail' : sizeofChunkHeader ≤ g.available size chunkStart := Nat.le_of_not_lt havail
  unfold judge
  by_cases hcorrupt : (headerAt m chunkStart).corrupt = true
  · rw [if_pos hcorrupt, if_pos ⟨havail', Or.inl hcorrupt⟩]
  rw [if_neg hcorrupt]
  by_cases hgen : (headerAt m chunkStart).generation = 0
  · rw [if_pos hgen, if_neg (fun h => h.2.elim hcorrupt (fun h' => h' hgen))]
  rw [if_neg hgen, if_pos ⟨havail', Or.inr hgen⟩]
  by_cases hmatch : (headerAt m chunkStart).generation ≠ g.generation
  · rw [if_pos hmatch]
  rw [if_neg hmatch]
  cases g.classBytes (headerAt m chunkStart).chunkSizeClass with
  | none => rfl
  | some bytes => rfl

theorem recordCharge_body (m : Mem) (chunkIndex : UInt32) (owner : UInt64) (s e : Nat)
    (offsets : List Nat) :
    recordCharge ⟨s, e, offsets.map (viewAt m chunkIndex owner)⟩ =
      (offsets.map (taken m e)).sum := by
  unfold recordCharge
  rw [List.map_map]
  rfl

/-- A slot's bytes, each counted once. -/
theorem walkSlot_total (m : Mem) (size : Nat) {chunkStart : Nat} (chunkIndex : UInt32)
    (hseg : chunkStart < g.segmentBytes) :
    (g.walkSlot m size chunkStart chunkIndex).unreadable
      + (g.walkSlot m size chunkStart chunkIndex).unwritten
      + g.headerCharge m size chunkStart
      + ((g.walkSlot m size chunkStart chunkIndex).slots.map recordCharge).sum =
    min (chunkStart + g.stride (g.slot m size chunkStart)) g.segmentBytes - chunkStart := by
  rw [headerCharge_eq]
  unfold walkSlot
  have hg := g.chunkBytes_gt
  cases hslot : g.slot m size chunkStart with
  | headless => simp [recordCharge, nominal, stride]
  | unclaimed => simp [recordCharge, nominal, stride]
  | refused =>
    -- a header in reach, so the slot is at least as long as one
    have havail : sizeofChunkHeader ≤ g.available size chunkStart := by
      by_contra hlt
      rw [slot, if_pos (by omega)] at hslot
      cases hslot
    obtain ⟨h₁, -⟩ := g.le_of_available havail
    simp only [recordCharge, nominal, stride, List.map_cons, List.map_nil, List.sum_cons,
      List.sum_nil]
    omega
  | current owner bytes =>
    obtain ⟨havail, hjudge⟩ := g.slot_current hslot
    obtain ⟨-, -, -, hbytes, -⟩ := g.judge_current hjudge
    have hle := g.le_bodyEnd havail (g.classBytes_gt hbytes)
    have htotal := body_total m hle
    have hbodyEnd : g.bodyEnd size chunkStart bytes ≤ min (chunkStart + bytes) g.segmentBytes :=
      Nat.min_le_left _ _
    simp only [stride, List.map_cons, List.map_nil, List.sum_cons, List.sum_nil,
      recordCharge_body]
    omega

/-- **Conservation.** The bytes from `chunkStart` to the end of the segment, each
counted once. -/
theorem walk_total (m : Mem) (size chunkStart : Nat) (chunkIndex : UInt32) :
    (g.walk m size chunkStart chunkIndex).unreadable
      + (g.walk m size chunkStart chunkIndex).unwritten
      + ((g.walk m size chunkStart chunkIndex).slots.map
          fun s => g.headerCharge m size s.chunkStart).sum
      + ((g.walk m size chunkStart chunkIndex).slots.map recordCharge).sum =
    g.segmentBytes - chunkStart := by
  fun_induction walk g m size chunkStart chunkIndex with
  | case1 => simp; omega
  | case2 => simp
  | case3 chunkStart chunkIndex h₁ h₂ ih =>
    have hslot := g.walkSlot_total m size chunkIndex (Nat.lt_of_not_le h₁)
    have hstart : ∀ s ∈ (g.walkSlot m size chunkStart chunkIndex).slots,
        s.chunkStart = chunkStart := by
      unfold walkSlot
      split <;> simp
    have hcharge : ((g.walkSlot m size chunkStart chunkIndex).slots.map
        fun s => g.headerCharge m size s.chunkStart).sum = g.headerCharge m size chunkStart := by
      unfold walkSlot
      split <;> simp
    simp only [Walk.append, List.map_append, List.sum_append]
    omega

/-- A walk's counters stay below the bytes it walks over. -/
theorem walkSlot_le (m : Mem) (size : Nat) {chunkStart : Nat} (chunkIndex : UInt32)
    (hseg : chunkStart < g.segmentBytes) :
    (g.walkSlot m size chunkStart chunkIndex).unreadable
      + (g.walkSlot m size chunkStart chunkIndex).unwritten ≤
    min (chunkStart + g.stride (g.slot m size chunkStart)) g.segmentBytes - chunkStart := by
  have h := g.walkSlot_total m size chunkIndex hseg
  omega

end Geometry

/-! ### The checked visit is the walk -/

namespace SegmentReader

variable (r : SegmentReader)

/-- The geometry of an opened segment. -/
def geometry : Geometry where
  headerBytes := r.header.headerBytes.toNat
  chunkBytes := r.header.chunkBytes.toNat
  segmentBytes := r.header.segmentBytes.toNat
  generation := r.header.generation
  chunkBytes_gt := r.sane.chunkBytes_gt

theorem thisChunkBytes_eq (head : ChunkHeader) :
    thisChunkBytes r.header head = r.geometry.classBytes head.chunkSizeClass := rfl

/-- The part of an iteration behind a header of this segment: the body is walked and
what the image no longer has of it is counted. -/
private theorem visitChunk_current {chunkStart bytes : Nat} {chunkIndex : UInt32} {v : Visit}
    {head : ChunkHeader} (hsize : chunkStart < r.image.size)
    (hfit : chunkStart + sizeofChunkHeader ≤ r.header.segmentBytes.toNat)
    (hfit' : chunkStart + sizeofChunkHeader ≤ r.image.size)
    (hclass : r.geometry.classBytes head.chunkSizeClass = some bytes)
    (hcount : v.unreadableBytes + v.unwrittenBytes
      + (r.header.segmentBytes.toNat - chunkStart) < 2 ^ 64)
    (hbound : (body r.image.mem (r.geometry.bodyEnd r.image.size chunkStart bytes)
          (chunkStart + sizeofChunkHeader)).unreadable
        + (min (chunkStart + bytes) r.header.segmentBytes.toNat
          - r.geometry.bodyEnd r.image.size chunkStart bytes)
        + (body r.image.mem (r.geometry.bodyEnd r.image.size chunkStart bytes)
          (chunkStart + sizeofChunkHeader)).unwritten ≤
      min (chunkStart + bytes) r.header.segmentBytes.toNat - chunkStart) :
    ∃ n, n + 1 ≤ min bytes (r.image.size - chunkStart) ∧
      (do
        let nominalEnd ← add64 chunkStart bytes
        let chunkLogicalEnd := min nominalEnd r.header.segmentBytes.toNat
        let chunkNominalBytes ← sub64 chunkLogicalEnd chunkStart
        let presentEnd := min chunkLogicalEnd r.image.size
        let availableInChunk ← sub64 presentEnd chunkStart
        let missingTail ← sub64 chunkNominalBytes availableInChunk
        let bodyStart ← add64 chunkStart sizeofChunkHeader
        let bodyEnd ← add64 chunkStart availableInChunk
        let (v, records) ← visitRecords r.image head chunkIndex bodyEnd
          (r.image.size + 1) bodyStart v []
        let v ← v.countUnreadable missingTail
        pure (v.leave ⟨chunkStart, bodyEnd, records⟩, nominalEnd)) =
      Except.ok (ε := Fault)
        (⟨v.unreadableBytes +
            ((body r.image.mem (r.geometry.bodyEnd r.image.size chunkStart bytes)
              (chunkStart + sizeofChunkHeader)).unreadable
            + (min (chunkStart + bytes) r.header.segmentBytes.toNat
              - r.geometry.bodyEnd r.image.size chunkStart bytes)),
          v.unwrittenBytes + (body r.image.mem (r.geometry.bodyEnd r.image.size chunkStart bytes)
              (chunkStart + sizeofChunkHeader)).unwritten,
          v.steps + n,
          v.slots ++ [⟨chunkStart, r.geometry.bodyEnd r.image.size chunkStart bytes,
            (body r.image.mem (r.geometry.bodyEnd r.image.size chunkStart bytes)
              (chunkStart + sizeofChunkHeader)).offsets.map
              (viewAt r.image.mem chunkIndex head.ownerThread)⟩]⟩,
        chunkStart + bytes) := by
  have himage : r.image.size ≤ 2 ^ 63 - 1 := r.image.size_le
  have hgt := r.geometry.classBytes_gt hclass
  have hlt : bytes < 2 ^ 32 := r.geometry.classBytes_lt r.header.chunkBytes.toNat_lt hclass
  have hbodyEnd : min (min (chunkStart + bytes) r.header.segmentBytes.toNat) r.image.size =
      r.geometry.bodyEnd r.image.size chunkStart bytes := rfl
  generalize r.geometry.bodyEnd r.image.size chunkStart bytes = bodyEnd at hbodyEnd hbound ⊢
  have hback : chunkStart + (bodyEnd - chunkStart) = bodyEnd := by omega
  obtain ⟨n, hn, hwalk⟩ := @visitRecords_eq r.image head chunkIndex bodyEnd (by omega)
    (r.image.size + 1) (chunkStart + sizeofChunkHeader) (by omega) v [] (by omega) (by omega)
  unfold sizeofChunkHeader at hfit hfit' hn
  refine ⟨n, by omega, ?_⟩
  rw [add64_eq (by omega)]
  simp only [ok_bind, hbodyEnd]
  rw [sub64_eq (by omega), sub64_eq (by omega)]
  simp only [ok_bind]
  rw [sub64_eq (by omega), add64_eq (by unfold sizeofChunkHeader; omega)]
  simp only [ok_bind]
  rw [add64_eq (by omega), hback]
  simp only [ok_bind]
  rw [hwalk]
  simp only [ok_bind, Visit.countUnreadable]
  have hmissing : min (chunkStart + bytes) r.header.segmentBytes.toNat - chunkStart
      - (bodyEnd - chunkStart) = min (chunkStart + bytes) r.header.segmentBytes.toNat - bodyEnd := by
    omega
  rw [hmissing, add64_eq (by omega)]
  simp only [ok_bind, pure_eq_ok, Visit.leave, List.nil_append, Nat.add_assoc]

/-- One iteration of the checked outer loop is the walk of one slot. -/
theorem visitChunk_eq {chunkStart : Nat} (chunkIndex : UInt32) {v : Visit}
    (hseg : chunkStart < r.header.segmentBytes.toNat) (hsize : chunkStart < r.image.size)
    (hcount : v.unreadableBytes + v.unwrittenBytes
      + (r.header.segmentBytes.toNat - chunkStart) < 2 ^ 64) :
    ∃ n, n + 1 ≤ min (r.geometry.stride (r.geometry.slot r.image.mem r.image.size chunkStart))
        (r.image.size - chunkStart) ∧
      visitChunk r chunkStart chunkIndex v =
        .ok (⟨v.unreadableBytes +
                (r.geometry.walkSlot r.image.mem r.image.size chunkStart chunkIndex).unreadable,
              v.unwrittenBytes +
                (r.geometry.walkSlot r.image.mem r.image.size chunkStart chunkIndex).unwritten,
              v.steps + n,
              v.slots ++
                (r.geometry.walkSlot r.image.mem r.image.size chunkStart chunkIndex).slots⟩,
            chunkStart + r.geometry.stride
              (r.geometry.slot r.image.mem r.image.size chunkStart)) := by
  have hbound := r.geometry.walkSlot_le r.image.mem r.image.size chunkIndex hseg
  have hstride := r.geometry.stride_gt r.image.mem r.image.size chunkStart
  have himage : r.image.size ≤ 2 ^ 63 - 1 := r.image.size_le
  have hcb : r.header.chunkBytes.toNat < 2 ^ 32 := r.header.chunkBytes.toNat_lt
  have hcb' : sizeofChunkHeader < r.header.chunkBytes.toNat := r.sane.chunkBytes_gt
  have hnominal : min (chunkStart + r.header.chunkBytes.toNat) r.header.segmentBytes.toNat
      - chunkStart = r.geometry.nominal chunkStart := rfl
  have havailable : min (min (chunkStart + r.header.chunkBytes.toNat)
      r.header.segmentBytes.toNat) r.image.size - chunkStart =
      r.geometry.available r.image.size chunkStart := rfl
  have hle : r.geometry.available r.image.size chunkStart ≤ r.geometry.nominal chunkStart := by
    rw [← hnominal, ← havailable]
    omega
  unfold visitChunk
  rw [add64_eq (by omega)]
  simp only [ok_bind]
  rw [sub64_eq (by omega), sub64_eq (by omega)]
  simp only [ok_bind, hnominal, havailable]
  rw [sub64_eq hle]
  simp only [ok_bind]
  unfold Geometry.walkSlot at hbound ⊢
  by_cases hheadless : r.geometry.available r.image.size chunkStart < sizeofChunkHeader
  · have hslot : r.geometry.slot r.image.mem r.image.size chunkStart = .headless :=
      if_pos hheadless
    rw [hslot] at hbound hstride ⊢
    rw [if_pos hheadless]
    refine ⟨0, ?_, ?_⟩
    · unfold sizeofChunkHeader at hstride
      omega
    simp only [Visit.countUnreadable]
    rw [add64_eq (by dsimp only at hbound; omega)]
    rfl
  -- a header in reach: it is read, and judged
  have havail : sizeofChunkHeader ≤ r.geometry.available r.image.size chunkStart :=
    Nat.le_of_not_lt hheadless
  have hslot : r.geometry.slot r.image.mem r.image.size chunkStart =
      r.geometry.judge (Geometry.headerAt r.image.mem chunkStart) := if_neg hheadless
  obtain ⟨hfit, hfit'⟩ := r.geometry.le_of_available havail
  have hhead : ChunkHeader.ofBytes (r.image.mem.slice chunkStart sizeofChunkHeader) =
      Geometry.headerAt r.image.mem chunkStart := rfl
  rw [if_neg hheadless, Image.read_eq hfit']
  simp only [ok_bind, hhead]
  rw [sub64_eq havail]
  simp only [ok_bind]
  have hlost : r.geometry.available r.image.size chunkStart - sizeofChunkHeader
      + (r.geometry.nominal chunkStart - r.geometry.available r.image.size chunkStart) =
      r.geometry.nominal chunkStart - sizeofChunkHeader := by omega
  rw [add64_eq (by rw [hlost, ← hnominal]; omega), hlost]
  simp only [ok_bind]
  -- the three faults of a header are one outcome
  have hrefused : r.geometry.slot r.image.mem r.image.size chunkStart = .refused →
      (do
        let v ← v.countUnreadable (r.geometry.nominal chunkStart - sizeofChunkHeader)
        pure (v.leave ⟨chunkStart, chunkStart, []⟩, chunkStart + r.header.chunkBytes.toNat)) =
      Except.ok (ε := Fault) (⟨v.unreadableBytes +
          (r.geometry.nominal chunkStart - sizeofChunkHeader), v.unwrittenBytes + 0,
        v.steps + 0, v.slots ++ [⟨chunkStart, chunkStart, []⟩]⟩,
        chunkStart + r.header.chunkBytes.toNat) := by
    intro h
    rw [h] at hbound
    simp only [Visit.countUnreadable]
    rw [add64_eq (by dsimp only at hbound; omega)]
    rfl
  have hroom : 0 + 1 ≤ min r.header.chunkBytes.toNat (r.image.size - chunkStart) := by
    unfold sizeofChunkHeader at hcb' hfit'
    omega
  unfold Geometry.judge at hslot
  by_cases hcorrupt : (Geometry.headerAt r.image.mem chunkStart).corrupt = true
  · rw [if_pos hcorrupt] at hslot ⊢
    rw [hrefused hslot, hslot]
    exact ⟨0, hroom, rfl⟩
  rw [if_neg hcorrupt] at hslot ⊢
  by_cases hzero : (Geometry.headerAt r.image.mem chunkStart).generation = 0
  · rw [if_pos hzero] at hslot ⊢
    rw [hslot] at hbound ⊢
    refine ⟨0, hroom, ?_⟩
    simp only [Visit.countUnwritten]
    rw [add64_eq (by dsimp only at hbound; omega)]
    rfl
  rw [if_neg hzero] at hslot ⊢
  by_cases hgen : (Geometry.headerAt r.image.mem chunkStart).generation ≠ r.header.generation
  · have hgen' : (Geometry.headerAt r.image.mem chunkStart).generation ≠ r.geometry.generation :=
      hgen
    rw [if_pos hgen'] at hslot
    rw [if_pos hgen, hrefused hslot, hslot]
    exact ⟨0, hroom, rfl⟩
  have hgen' : ¬(Geometry.headerAt r.image.mem chunkStart).generation ≠ r.geometry.generation :=
    hgen
  rw [if_neg hgen'] at hslot
  rw [if_neg hgen, r.thisChunkBytes_eq]
  cases hclass : r.geometry.classBytes
      (Geometry.headerAt r.image.mem chunkStart).chunkSizeClass with
  | none =>
    rw [hclass] at hslot
    dsimp only at hslot ⊢
    rw [hrefused hslot, hslot]
    exact ⟨0, hroom, rfl⟩
  | some bytes =>
    rw [hclass] at hslot
    dsimp only at hslot ⊢
    rw [hslot] at hbound hstride ⊢
    exact r.visitChunk_current hsize hfit hfit' hclass hcount hbound

/-- The checked outer loop is the walk. -/
theorem visitChunks_eq {fuel : Nat} (chunkStart : Nat) (chunkIndex : UInt32) {v : Visit}
    (hfuel : r.image.size - chunkStart < fuel)
    (hcount : v.unreadableBytes + v.unwrittenBytes
      + (r.header.segmentBytes.toNat - chunkStart) < 2 ^ 64) :
    ∃ n, n ≤ r.image.size - chunkStart + 1 ∧
      visitChunks r fuel chunkStart chunkIndex v =
        .ok ⟨v.unreadableBytes +
              (r.geometry.walk r.image.mem r.image.size chunkStart chunkIndex).unreadable,
            v.unwrittenBytes +
              (r.geometry.walk r.image.mem r.image.size chunkStart chunkIndex).unwritten,
            v.steps + n,
            v.slots ++
              (r.geometry.walk r.image.mem r.image.size chunkStart chunkIndex).slots⟩ := by
  induction fuel generalizing chunkStart chunkIndex v with
  | zero => omega
  | succ fuel ih =>
    unfold visitChunks
    by_cases hseg : chunkStart < r.header.segmentBytes.toNat
    · rw [if_pos hseg]
      by_cases hsize : r.image.size ≤ chunkStart
      · rw [if_pos hsize, sub64_eq (by omega), r.geometry.walk_of_absent hseg hsize]
        refine ⟨1, by omega, ?_⟩
        simp only [ok_bind, Visit.countUnreadable, Visit.tick]
        rw [add64_eq (by omega)]
        simp only [ok_bind, pure_eq_ok, List.append_nil, Nat.add_zero]
        rfl
      · rw [if_neg hsize, r.geometry.walk_of_lt hseg (Nat.lt_of_not_le hsize)]
        obtain ⟨n, hn, hchunk⟩ := r.visitChunk_eq chunkIndex (v := v.tick) hseg
          (by omega) hcount
        have hbound := r.geometry.walkSlot_le r.image.mem r.image.size chunkIndex hseg
        have hsegEq : r.geometry.segmentBytes = r.header.segmentBytes.toNat := rfl
        rw [hsegEq] at hbound
        have hticks : v.tick.unreadableBytes = v.unreadableBytes ∧
            v.tick.unwrittenBytes = v.unwrittenBytes ∧ v.tick.steps = v.steps + 1 ∧
            v.tick.slots = v.slots := ⟨rfl, rfl, rfl, rfl⟩
        obtain ⟨h₁, h₂, h₃, h₄⟩ := hticks
        rw [hchunk, h₁, h₂, h₃, h₄]
        simp only [ok_bind]
        generalize r.geometry.stride (r.geometry.slot r.image.mem r.image.size chunkStart) = d
          at hn hbound ⊢
        obtain ⟨k, hk, hrest⟩ := ih (chunkStart + d) (chunkIndex + 1)
          (v := ⟨v.unreadableBytes +
                (r.geometry.walkSlot r.image.mem r.image.size chunkStart chunkIndex).unreadable,
              v.unwrittenBytes +
                (r.geometry.walkSlot r.image.mem r.image.size chunkStart chunkIndex).unwritten,
              v.steps + 1 + n,
              v.slots ++
                (r.geometry.walkSlot r.image.mem r.image.size chunkStart chunkIndex).slots⟩)
          (by omega) (by dsimp only; omega)
        refine ⟨1 + n + k, by omega, ?_⟩
        rw [hrest]
        simp only [Walk.append, Nat.add_assoc, List.append_assoc]
    · rw [if_neg hseg, r.geometry.walk_of_le (Nat.le_of_not_lt hseg)]
      exact ⟨0, by omega, by simp⟩

/-- **The visit is the walk.** On an opened reader the checked visit never faults:
no sum or difference leaves 64 bits, every read is inside the image, both loops end
within as many iterations as the image has bytes, and the result is the walk's. -/
theorem visit_eq_walk :
    ∃ steps, steps ≤ r.image.size ∧
      visit r = .ok
        ⟨(r.geometry.walk r.image.mem r.image.size r.header.headerBytes.toNat 0).unreadable,
          (r.geometry.walk r.image.mem r.image.size r.header.headerBytes.toNat 0).unwritten,
          steps,
          (r.geometry.walk r.image.mem r.image.size r.header.headerBytes.toNat 0).slots⟩ := by
  have hseg : r.header.segmentBytes.toNat < 2 ^ 64 := r.header.segmentBytes.toNat_lt
  have hheader : 64 ≤ r.header.headerBytes.toNat := r.sane.headerBytes_ge
  have hfit := r.sane.headerBytes_le
  obtain ⟨n, hn, hvisit⟩ := @visitChunks_eq r (r.image.size + 1) r.header.headerBytes.toNat 0
    Visit.start (by omega) (by change 0 + 0 + _ < _; omega)
  refine ⟨n, by omega, ?_⟩
  unfold visit
  rw [hvisit]
  simp only [Visit.start, Nat.zero_add, List.nil_append]

end SegmentReader

end Sub0Log.Reader
