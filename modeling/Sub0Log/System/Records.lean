import Sub0Log.Producer.Chunk
import Sub0Log.Reader.Truncation
import Sub0Log.System.Image

/-!
# The records of a chunk, read back

A memory may show what a chunk holds without being the producer's memory of one moment: a
copy mixes several moments. What the record walk needs of it is `Legible`: the records lie
encoded at the front of the body, and the word behind them carries no commit tag. A chunk
that is `Consistent` is legible, header apart.

The walk of a legible body finds exactly its records (`Legible.body`), each as the view of
its entry (`entryView`). Which owner it names, and whether it looks into the body at all,
is the header's business: `slotWalk_legible` leaves both open, and `slotWalk_stamped` of
the module before settles them for a header that is complete. **`visit_records`** puts the
slots together.
-/

open Bytes Checked

namespace Sub0Log.System

open Wire Reader Producer

/-! ### Entries and views -/

/-- How a reader sees an entry of chunk `chunkIndex`. -/
def entryView (chunkIndex : UInt32) (owner : UInt64) (p : Nat × Entry) : RecordView where
  head := p.2.head
  payload := p.2.payload
  chunkIndex := chunkIndex
  ownerThread := owner
  recordOffset := p.1

variable {m : Mem} {a bodyEnd : Nat} {es : List Entry} {p : Nat × Entry}

/-- Memory that holds the encoded records is memory they were stored to. -/
theorem store_encode_self (h : m.slice a (sizes es) = encode es) : m.store a (encode es) = m := by
  rw [← h, Mem.store_slice_self]

theorem word_of_place (h : m.slice a (sizes es) = encode es) (hp : p ∈ place a es) :
    m.word p.1 8 = p.2.head.pack := by
  have hhead := slice_store_head (m := m) hp
  rw [store_encode_self h] at hhead
  rw [Mem.word, hhead, leNat_leBytes_of_lt p.2.head.pack_lt]

theorem payloadAt_of_place (h : m.slice a (sizes es) = encode es) (hwf : ∀ e ∈ es, e.Wf)
    (hp : p ∈ place a es) : payloadAt m p.1 = p.2.payload.length := by
  have he := hwf p.2 (mem_place hp).2.2
  rw [payloadAt, word_of_place h hp, RecordHead.unpack_pack he.named]
  show (UInt16.ofNat p.2.payload.length).toNat = p.2.payload.length
  rw [UInt16.toNat_ofNat', Nat.mod_eq_of_lt he.length_lt]

/-- The record at an entry's address is the entry. -/
theorem viewAt_of_place (h : m.slice a (sizes es) = encode es) (hwf : ∀ e ∈ es, e.Wf)
    (hp : p ∈ place a es) (chunkIndex : UInt32) (owner : UInt64) :
    viewAt m chunkIndex owner p.1 = entryView chunkIndex owner p := by
  have he := hwf p.2 (mem_place hp).2.2
  have hpayload := slice_store_payload (m := m) hp
  rw [store_encode_self h] at hpayload
  unfold viewAt entryView
  rw [payloadAt_of_place h hwf hp, word_of_place h hp, RecordHead.unpack_pack he.named, hpayload]

/-- The walk steps over the records that are there, and goes on behind them. -/
theorem body_encode (h : m.slice a (sizes es) = encode es) (hwf : ∀ e ∈ es, e.Wf)
    (hin : a + sizes es ≤ bodyEnd) :
    body m bodyEnd a =
      ⟨(place a es).map Prod.fst ++ (body m bodyEnd (a + sizes es)).offsets,
        (body m bodyEnd (a + sizes es)).unreadable,
        (body m bodyEnd (a + sizes es)).unwritten⟩ := by
  induction es generalizing a with
  | nil => rfl
  | cons e es ih =>
    have hhere : (a, e) ∈ place a (e :: es) := List.mem_cons_self
    have hword : m.word a 8 = e.head.pack := word_of_place (p := (a, e)) h hhere
    have hpayload : payloadAt m a = e.payload.length :=
      payloadAt_of_place (p := (a, e)) h hwf hhere
    have hsize : e.size = 8 + paddedPayload e.payload.length := rfl
    have hpad := le_paddedPayload e.payload.length
    rw [sizes_cons] at h hin ⊢
    -- what is behind the first record
    have hrest : m.slice (a + e.size) (sizes es) = encode es := by
      rw [Mem.slice_add, encode_cons] at h
      exact (List.append_inj h (by rw [Mem.slice_length, Entry.bytes_length])).2
    have hnext : a + 8 + paddedPayload e.payload.length = a + e.size := by omega
    have hcommitted : ¬RecordHead.isCommitted (m.word a 8) = false := by
      rw [hword, RecordHead.isCommitted_pack]
      decide
    rw [body, if_neg (by omega), if_neg (by omega), if_neg hcommitted, hpayload,
      if_neg (by omega), hnext, ih hrest (fun e he => hwf e (List.mem_cons_of_mem _ he))
        (by omega), ← Nat.add_assoc]
    rfl

/-! ### Legible chunks -/

/-- A reader finds exactly these publications in the body of chunk `c`. -/
structure Legible (seg : Segment) (c : Nat) (ws : List Written) (m : Mem) : Prop where
  fits : sizes (seg.entries ws) ≤ seg.capacity
  content : m.slice (seg.bodyBase c) (sizes (seg.entries ws)) = encode (seg.entries ws)
  wf : ∀ e ∈ seg.entries ws, e.Wf
  stop : sizes (seg.entries ws) + 8 ≤ seg.capacity →
    RecordHead.isCommitted (m.word (seg.frontier c ws) 8) = false

variable {seg : Segment} {header : SegmentHeader} {c i : Nat} {ws : List Written}

/-- A word whose tag bytes are zero is not committed. -/
theorem not_isCommitted_of_tag (h₆ : m (a + 6) = 0) (h₇ : m (a + 7) = 0) :
    RecordHead.isCommitted (m.word a 8) = false := by
  refine RecordHead.not_isCommitted_of_lt ?_
  have hsplit := Mem.word_add m a 6 2
  have hlow := Mem.word_lt m a 6
  have htag : m.word (a + 6) 2 = 0 := by
    refine Mem.word_eq_zero_of_zero fun x h₁ h₂ => ?_
    obtain rfl | rfl : x = a + 6 ∨ x = a + 7 := by omega
    · exact h₆
    · exact h₇
  rw [htag, Nat.mul_zero, Nat.add_zero] at hsplit
  rw [hsplit]
  exact lt_of_lt_of_eq hlow (by decide)

theorem Legible.of_consistent {owner : UInt64} (h : Consistent seg c owner ws m) :
    Legible seg c ws m :=
  ⟨h.fits, h.content, h.wf, fun hroom =>
    not_isCommitted_of_tag (h.stop hroom).1 (h.stop hroom).2⟩

/-- Legibility is about the bytes of the chunk's body. -/
theorem Legible.congr {m' : Mem} (h : Legible seg c ws m) (hs : seg.Sound)
    (hm : ∀ x, seg.InChunk c x → m' x = m x) : Legible seg c ws m' := by
  have hbody := hs.bodyBase_add c
  have hhead : seg.bodyBase c = seg.chunkBase c + sizeofChunkHeader := rfl
  have hfits := h.fits
  have hfront : seg.frontier c ws = seg.bodyBase c + sizes (seg.entries ws) := rfl
  refine ⟨h.fits, ?_, h.wf, fun hroom => ?_⟩
  · rw [← h.content]
    exact Mem.slice_congr fun x h₁ h₂ => hm x ⟨by omega, by omega⟩
  · rw [← h.stop hroom]
    exact congrArg _ (Mem.word_congr fun x h₁ h₂ => hm x ⟨by omega, by omega⟩)

/-- **The walk of a legible body** finds its records. -/
theorem Legible.body (h : Legible seg c ws m) (hs : seg.Sound) :
    (body m (seg.chunkBase c + seg.chunkBytes) (seg.bodyBase c)).offsets =
      (place (seg.bodyBase c) (seg.entries ws)).map Prod.fst := by
  have hend := hs.bodyBase_add c
  have hfits := h.fits
  have hdvd := hs.capacity_dvd
  have hdvd' := sizes_dvd (seg.entries ws)
  rw [body_encode h.content h.wf (by omega)]
  -- what is left is a multiple of eight: nothing, or a word without a tag
  have hrest : (Reader.body m (seg.chunkBase c + seg.chunkBytes)
      (seg.bodyBase c + sizes (seg.entries ws))).offsets = [] := by
    by_cases hroom : sizes (seg.entries ws) + 8 ≤ seg.capacity
    · exact body_offsets_nil (Or.inr (h.stop hroom))
    · exact body_offsets_nil (Or.inl (by omega))
  show List.map Prod.fst _ ++ _ = _
  rw [hrest, List.append_nil]

/-- The records a visit yields from chunk `c` when these publications are in it. -/
def chunkViews (seg : Segment) (c : Nat) (owner : UInt64) (ws : List Written) :
    List RecordView :=
  (place (seg.bodyBase c) (seg.entries ws)).map (entryView (UInt32.ofNat c) owner)

theorem Legible.views (h : Legible seg c ws m) (hs : seg.Sound) (owner : UInt64) :
    (Reader.body m (seg.chunkBase c + seg.chunkBytes)
        (seg.chunkBase c + sizeofChunkHeader)).offsets.map (viewAt m (UInt32.ofNat c) owner) =
      chunkViews seg c owner ws := by
  have hoffsets := h.body hs
  rw [show seg.chunkBase c + sizeofChunkHeader = seg.bodyBase c from rfl, hoffsets,
    List.map_map]
  exact List.map_congr_left fun p hp => viewAt_of_place h.content h.wf hp _ owner

/-! ### Slots -/

/-- The class byte of the header at `a`. -/
theorem headerAt_class (m : Mem) (a : Nat) :
    (Geometry.headerAt m a).chunkSizeClass = m (a + 28) := by
  show UInt8.ofNat (field (m.slice a 32) 28 1) = _
  have hbyte : (((m.slice a 32).drop 28).take 1) = [m (a + 28)] :=
    Mem.slice_drop_take m a 32 28 1 (by decide)
  rw [field, hbyte]
  simp

/-- The class byte of a stamped header. -/
theorem chunkHeader_class (seg : Segment) (owner time : UInt64) :
    (seg.chunkHeader owner time).toBytes.getD 28 0 = seg.sizeClass := by
  have hclass := headerAt_class (Mem.ofList (seg.chunkHeader owner time).toBytes) 0
  have hslice : (Mem.ofList (seg.chunkHeader owner time).toBytes).slice 0 sizeofChunkHeader =
      (seg.chunkHeader owner time).toBytes := by
    rw [Mem.slice_ofList (by rw [ChunkHeader.toBytes_length, Nat.zero_add]), List.drop_zero,
      List.take_of_length_le (by rw [ChunkHeader.toBytes_length])]
  unfold Geometry.headerAt at hclass
  rw [hslice, ChunkHeader.ofBytes_toBytes] at hclass
  exact hclass.symm

variable (hs : seg.Sound)

/-- The walk of a legible chunk yields nothing or its records, under the owner its header
names. -/
theorem slotWalk_legible (hi : i < seg.chunkCount)
    (hclass : m (seg.chunkBase i + 28) = 0 ∨ m (seg.chunkBase i + 28) = seg.sizeClass)
    (h : Legible seg i ws m) :
    (slotWalk hs m i).records = [] ∨
      (slotWalk hs m i).records =
        chunkViews seg i (Geometry.headerAt m (seg.chunkBase i)).ownerThread ws := by
  have hinside := hs.chunk_inside hi
  have hgt := hs.chunkBytes_gt
  have hheader : Geometry.headerAt (image seg m).mem (seg.chunkBase i) =
      Geometry.headerAt m (seg.chunkBase i) := by
    unfold Geometry.headerAt
    rw [image_slice m (by omega)]
  have hslot := slot_chunk hs (image seg m).mem hi
  rw [hheader] at hslot
  rw [← headerAt_class m] at hclass
  unfold slotWalk Geometry.walkSlot
  rw [hslot]
  cases hjudge : (geometry hs).judge (Geometry.headerAt m (seg.chunkBase i)) with
  | headless | refused | unclaimed => exact Or.inl rfl
  | current owner bytes =>
    right
    obtain ⟨-, -, -, hbytes, howner⟩ := (geometry hs).judge_current hjudge
    rw [classBytes_eq hs hclass] at hbytes
    obtain rfl : seg.chunkBytes = bytes := Option.some.inj hbytes
    have hend : (geometry hs).bodyEnd seg.segmentBytes (seg.chunkBase i) seg.chunkBytes =
        seg.chunkBase i + seg.chunkBytes := by
      unfold Geometry.bodyEnd geometry
      simp only
      omega
    have himage : Legible seg i ws (image seg m).mem :=
      h.congr hs fun x hx => image_mem m (by have := hx.2; omega)
    simp only [hend, Walk.records, List.flatMap_cons, List.flatMap_nil, List.append_nil]
    rw [← howner]
    exact himage.views hs owner

/-- A complete header and a legible body: the records under the thread that claimed it. -/
theorem slotWalk_records (hi : i < seg.chunkCount) {owner time : UInt64}
    (hheader : m.slice (seg.chunkBase i) sizeofChunkHeader =
      (seg.chunkHeader owner time).toBytes) (h : Legible seg i ws m) :
    (slotWalk hs m i).records = chunkViews seg i owner ws := by
  have hinside := hs.chunk_inside hi
  have himage : Legible seg i ws (image seg m).mem :=
    h.congr hs fun x hx => image_mem m (by have := hx.2; omega)
  rw [slotWalk_stamped hs hi hheader, Walk.records, List.flatMap_cons, List.flatMap_nil,
    List.append_nil]
  exact himage.views hs owner

theorem chunkViews_nil (seg : Segment) (c : Nat) (owner : UInt64) :
    chunkViews seg c owner [] = [] := rfl

/-- The class byte of a consistent chunk. -/
theorem class_of_consistent {owner : UInt64} (h : Consistent seg c owner ws m) :
    m (seg.chunkBase c + 28) = 0 ∨ m (seg.chunkBase c + 28) = seg.sizeClass := by
  obtain ⟨time, hbytes, -⟩ := h.header
  have hbyte := hbytes 28 (by decide)
  rwa [chunkHeader_class] at hbyte

/-- What a visit yields from a consistent chunk. -/
theorem slotWalk_consistent {owner : UInt64} (hi : i < seg.chunkCount)
    (h : Consistent seg i owner ws m) :
    (slotWalk hs m i).records = chunkViews seg i owner ws := by
  obtain ⟨time, -, hstamped⟩ := h.header
  by_cases hws : ws = []
  · -- nothing to show, whatever the header says
    subst hws
    rw [chunkViews_nil]
    rcases slotWalk_legible hs hi (class_of_consistent h) (Legible.of_consistent h) with
      hnone | hviews
    · exact hnone
    · rw [hviews, chunkViews_nil]
  · exact slotWalk_records hs hi (hstamped hws) (Legible.of_consistent h)

/-- Where nothing was stored there is nothing to find. -/
theorem slotWalk_zero (hzero : ∀ x, seg.chunkBase i ≤ x → x < seg.segmentBytes → m x = 0) :
    slotWalk hs m i = ⟨[⟨seg.chunkBase i, seg.chunkBase i, []⟩],
        if (geometry hs).available seg.segmentBytes (seg.chunkBase i) < sizeofChunkHeader then
          (geometry hs).nominal (seg.chunkBase i) else 0,
        if (geometry hs).available seg.segmentBytes (seg.chunkBase i) < sizeofChunkHeader then 0
        else (geometry hs).nominal (seg.chunkBase i)⟩ := by
  unfold slotWalk Geometry.walkSlot Geometry.slot
  by_cases havail : (geometry hs).available seg.segmentBytes (seg.chunkBase i) < sizeofChunkHeader
  · rw [if_pos havail, if_pos havail, if_pos havail]
  · obtain ⟨hsegment, -⟩ := (geometry hs).le_of_available (Nat.le_of_not_lt havail)
    change _ ≤ seg.segmentBytes at hsegment
    have hheader : Geometry.headerAt (image seg m).mem (seg.chunkBase i) = ⟨0, 0, 0, 0#32, 0⟩ :=
      headerAt_zero fun x h₁ h₂ => by
        rw [image_mem m (by omega)]
        exact hzero x h₁ (by omega)
    rw [if_neg havail, if_neg havail, if_neg havail, hheader]
    rfl

/-! ### The whole visit -/

/-- Stamped, half stamped or not stamped: the slots of a segment are uniform as long as
no class byte is another than the segment's. -/
theorem uniformSlots_of_bytes {k : Nat}
    (hclass : ∀ i, i < k → m (seg.chunkBase i + 28) = 0 ∨ m (seg.chunkBase i + 28) = seg.sizeClass)
    (hzero : ∀ x, seg.chunkBase k ≤ x → x < seg.segmentBytes → m x = 0) :
    (geometry hs).UniformSlots (image seg m).mem := by
  refine uniformSlots_of_class hs fun i hi havail => ?_
  obtain ⟨hsegment, -⟩ := (geometry hs).le_of_available havail
  change _ ≤ seg.segmentBytes at hsegment
  unfold sizeofChunkHeader at hsegment
  rw [headerAt_class, image_mem m (by omega)]
  by_cases hik : i < k
  · exact hclass i hik
  · have hle : seg.chunkBase k ≤ seg.chunkBase i :=
      Nat.add_le_add_left (Nat.mul_le_mul_right _ (Nat.le_of_not_lt hik)) _
    exact Or.inl (hzero _ (by omega) (by omega))

/-- **The records of a visit** are those of the first `k` chunks, when nothing was stored
behind them. -/
theorem visit_records (hh : seg.Headed header m) {k : Nat} (hk : k ≤ seg.chunkCount)
    (hclass : ∀ i, i < k → m (seg.chunkBase i + 28) = 0 ∨ m (seg.chunkBase i + 28) = seg.sizeClass)
    (hzero : ∀ x, seg.chunkBase k ≤ x → x < seg.segmentBytes → m x = 0) :
    ∃ v, visit (reader hs hh) = .ok v ∧
      v.records = (List.range k).flatMap fun i => (slotWalk hs m i).records := by
  obtain ⟨v, hvisit, -, hslots⟩ := visit_image hs hh (uniformSlots_of_bytes hs hclass hzero)
  refine ⟨v, hvisit, ?_⟩
  have hle : k ≤ (geometry hs).slotCount := by
    obtain _ | k := k
    · exact Nat.zero_le _
    · exact lt_slotCount hs (Nat.lt_of_succ_le hk)
  obtain ⟨extra, hextra⟩ := Nat.exists_eq_add_of_le hle
  -- the slots behind the chunks are empty
  have hempty : (List.range extra).flatMap (fun i => (slotWalk hs m (k + i)).records) = [] := by
    refine List.flatMap_eq_nil_iff.mpr fun i _ => ?_
    have hbase : seg.chunkBase k ≤ seg.chunkBase (k + i) :=
      Nat.add_le_add_left (Nat.mul_le_mul_right _ (Nat.le_add_right k i)) _
    rw [slotWalk_zero hs fun x h₁ h₂ => hzero x (le_trans hbase h₁) h₂]
    rfl
  unfold Visit.records
  rw [hslots, List.flatMap_assoc, hextra, List.range_add, List.flatMap_append,
    List.flatMap_map]
  exact (congrArg _ hempty).trans (List.append_nil _)

end Sub0Log.System
