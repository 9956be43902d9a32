import Sub0Log.System.Log

/-!
# The damage a reader counts where there is none

When all threads have returned no write is under way: every claimed chunk is `Quiet`, and
nothing was stored behind the claimed ones. The walk of a quiet chunk counts nothing as
unreadable (`slotWalk_quiet`), and neither does that of a slot of zeros that a chunk header
fits in.

What is left is the end of the segment. The producer claims whole chunks, the reader walks
to the segment's last byte, so the bytes behind the last whole chunk (`leftover`) are one
more slot. When they are fewer than a chunk header has, the reader counts them as
damage (`visit_finished`): it finds none exactly when there are no such bytes, or enough
of them for a header (**`healthy_iff`**).
-/

open Bytes Checked Interleaving

namespace Sub0Log.System

open Wire Reader Producer

/-- The bytes of a segment behind its last whole chunk. -/
def leftover (seg : Segment) : Nat := (seg.segmentBytes - seg.headerBytes) % seg.chunkBytes

/-- What a reader counts as damage when nothing is damaged. -/
def headless (seg : Segment) : Nat :=
  if leftover seg < sizeofChunkHeader then leftover seg else 0

theorem headless_eq_zero (seg : Segment) :
    headless seg = 0 ↔ leftover seg = 0 ∨ sizeofChunkHeader ≤ leftover seg := by
  unfold headless
  split
  · exact ⟨Or.inl, fun h => h.resolve_right (by omega)⟩
  · exact ⟨fun _ => Or.inr (by omega), fun _ => rfl⟩

section Slots

variable {seg : Segment} {m : Mem} {c i : Nat} {owner : UInt64} {ws : List Written}

/-- The body of a quiet chunk: its records, then space never written. -/
theorem body_quiet (hs : seg.Sound) (h : Quiet seg c owner ws m) :
    (body m (seg.chunkBase c + seg.chunkBytes) (seg.bodyBase c)).unreadable = 0 := by
  have hend := hs.bodyBase_add c
  have hfits := h.fits
  have hrest : body m (seg.chunkBase c + seg.chunkBytes) (seg.frontier c ws) =
      ⟨[], 0, seg.chunkBase c + seg.chunkBytes - seg.frontier c ws⟩ :=
    body_zero fun x h₁ h₂ => h.zero x h₁ (by omega)
  rw [body_encode h.content h.wf (by omega)]
  show (body m _ (seg.frontier c ws)).unreadable = 0
  rw [hrest]

variable (hs : seg.Sound)

theorem slotWalk_quiet (hi : i < seg.chunkCount) (h : Quiet seg i owner ws m) :
    (slotWalk hs m i).unreadable = 0 := by
  have hinside := hs.chunk_inside hi
  obtain ⟨time, htime⟩ := h.header
  have himage : Quiet seg i owner ws (image seg m).mem :=
    h.congr hs fun x hx => image_mem m (lt_of_lt_of_le hx.2 hinside)
  rw [slotWalk_stamped hs hi htime]
  exact body_quiet hs himage

/-- The whole chunks that fit, and the rest. -/
theorem whole_add_leftover (seg : Segment) :
    seg.chunkBytes * ((seg.segmentBytes - seg.headerBytes) / seg.chunkBytes) + leftover seg =
      seg.segmentBytes - seg.headerBytes := Nat.div_add_mod _ _

/-- The reader meets the chunks that fit, and one more slot if something is left over. -/
theorem slotCount_eq :
    (geometry hs).slotCount = (seg.segmentBytes - seg.headerBytes) / seg.chunkBytes +
      if leftover seg = 0 then 0 else 1 := by
  have hpos : 0 < seg.chunkBytes := (geometry hs).chunkBytes_pos
  have hmod : leftover seg < seg.chunkBytes := Nat.mod_lt _ hpos
  have hwhole := whole_add_leftover seg
  have hcount : (geometry hs).slotCount =
      (leftover seg + (seg.chunkBytes - 1) +
        seg.chunkBytes * ((seg.segmentBytes - seg.headerBytes) / seg.chunkBytes)) /
          seg.chunkBytes := by
    unfold Geometry.slotCount geometry
    refine congrArg (· / seg.chunkBytes) ?_
    show seg.segmentBytes - seg.headerBytes + (seg.chunkBytes - 1) = _
    omega
  rw [hcount, Nat.add_mul_div_left _ _ hpos, Nat.add_comm]
  refine congrArg _ ?_
  split
  · exact Nat.div_eq_of_lt (by omega)
  · exact Nat.div_eq_of_lt_le (by omega) (by omega)

/-- A slot of zeros is damage when no header fits in it. -/
theorem slotWalk_zero_unreadable
    (hzero : ∀ x, seg.chunkBase i ≤ x → x < seg.segmentBytes → m x = 0) :
    (slotWalk hs m i).unreadable =
      if i < (seg.segmentBytes - seg.headerBytes) / seg.chunkBytes then 0
      else if seg.segmentBytes - seg.chunkBase i < sizeofChunkHeader then
        seg.segmentBytes - seg.chunkBase i else 0 := by
  have hgt := hs.chunkBytes_gt
  have hpos : 0 < seg.chunkBytes := (geometry hs).chunkBytes_pos
  have hmod : leftover seg < seg.chunkBytes := Nat.mod_lt _ hpos
  have hwhole := whole_add_leftover seg
  have hheader := hs.segmentBytes_ge
  have hbase : seg.chunkBase i = seg.headerBytes + seg.chunkBytes * i := by
    unfold Segment.chunkBase
    rw [Nat.mul_comm]
  have havail : (geometry hs).available seg.segmentBytes (seg.chunkBase i) =
      min (seg.chunkBase i + seg.chunkBytes) seg.segmentBytes - seg.chunkBase i := by
    unfold Geometry.available geometry
    simp only [Nat.min_assoc, Nat.min_self]
  have hnominal : (geometry hs).nominal (seg.chunkBase i) =
      min (seg.chunkBase i + seg.chunkBytes) seg.segmentBytes - seg.chunkBase i := rfl
  rw [slotWalk_zero hs hzero]
  show (if _ then _ else _) = _
  rw [havail, hnominal]
  by_cases hi : i < (seg.segmentBytes - seg.headerBytes) / seg.chunkBytes
  · -- a whole chunk fits
    have hmul := Nat.mul_le_mul_left seg.chunkBytes hi
    rw [Nat.mul_succ] at hmul
    rw [if_pos hi, if_neg (by omega)]
  · have hmul := Nat.mul_le_mul_left seg.chunkBytes (Nat.le_of_not_lt hi)
    have hmin : min (seg.chunkBase i + seg.chunkBytes) seg.segmentBytes - seg.chunkBase i =
        seg.segmentBytes - seg.chunkBase i := by omega
    rw [if_neg hi, hmin]

/-- **The damage of a segment at rest**: `k` quiet chunks, then zeros. -/
theorem unreadable_quiet {k : Nat} (hk : k ≤ seg.chunkCount)
    (hcount : seg.chunkCount ≤ (seg.segmentBytes - seg.headerBytes) / seg.chunkBytes)
    (hquiet : ∀ i, i < k → (slotWalk hs m i).unreadable = 0)
    (hzero : ∀ x, seg.chunkBase k ≤ x → x < seg.segmentBytes → m x = 0) :
    ((List.range (geometry hs).slotCount).map fun i => (slotWalk hs m i).unreadable).sum =
      headless seg := by
  have hheader := hs.segmentBytes_ge
  have hbehind : ∀ i, k ≤ i → ∀ x, seg.chunkBase i ≤ x → x < seg.segmentBytes → m x = 0 := by
    intro i hi x h₁ h₂
    have hbase : seg.chunkBase k ≤ seg.chunkBase i :=
      Nat.add_le_add_left (Nat.mul_le_mul_right _ hi) _
    exact hzero x (le_trans hbase h₁) h₂
  -- no whole chunk is damaged
  have hwhole : ((List.range ((seg.segmentBytes - seg.headerBytes) / seg.chunkBytes)).map
      fun i => (slotWalk hs m i).unreadable).sum = 0 := by
    refine List.sum_eq_zero fun n hn => ?_
    obtain ⟨i, hi, rfl⟩ := List.mem_map.mp hn
    by_cases hik : i < k
    · exact hquiet i hik
    · rw [slotWalk_zero_unreadable hs (hbehind i (Nat.le_of_not_lt hik)),
        if_pos (List.mem_range.mp hi)]
  rw [slotCount_eq hs]
  by_cases hleft : leftover seg = 0
  · rw [if_pos hleft, Nat.add_zero, hwhole]
    unfold headless
    rw [hleft]
    rfl
  · rw [if_neg hleft, List.range_succ, List.map_append, List.sum_append, hwhole, Nat.zero_add,
      List.map_singleton, List.sum_singleton,
      slotWalk_zero_unreadable hs (hbehind _ (le_trans hk hcount)), if_neg (Nat.lt_irrefl _)]
    have hend : seg.segmentBytes -
        seg.chunkBase ((seg.segmentBytes - seg.headerBytes) / seg.chunkBytes) = leftover seg := by
      have hadd := whole_add_leftover seg
      unfold Segment.chunkBase
      rw [Nat.mul_comm]
      omega
    rw [hend]
    rfl

end Slots

/-! ### Segments as they are created -/

/-- The producer claims no more chunks than fit. -/
theorem Creates.chunkCount_le {seg : Segment} {m : Mem} (h : Creates seg m) :
    seg.chunkCount ≤ (seg.segmentBytes - seg.headerBytes) / seg.chunkBytes := by
  have hinitialise : ∀ (p : Platform) (m' : Mem) (segmentBytes headerBytes : Nat)
      (hsize : segmentBytes ≤ 2 ^ 63 - 1) (chunkBytes : UInt32),
      (Segment.initialise p m' segmentBytes hsize headerBytes chunkBytes).1.chunkCount ≤
        (segmentBytes - headerBytes) / chunkBytes.toNat := by
    intro p m' segmentBytes headerBytes hsize chunkBytes
    unfold Segment.initialise
    simp only
    split
    · exact Nat.mod_le _ _
    · exact Nat.zero_le _
  cases h with
  | file p options h =>
    obtain ⟨-, hsize, heq⟩ := Segment.create_eq_ok h
    rw [(Prod.mk.inj heq).1]
    exact hinitialise p (fun _ => 0) _ _ hsize _
  | memory p storage options h =>
    obtain ⟨-, -, heq⟩ := Segment.createInMemory_eq_ok h
    rw [(Prod.mk.inj heq).1]
    exact hinitialise p (fun _ => 0) _ _ storage.size_le _

/-! ### Completed runs -/

variable {τ : Type} [DecidableEq τ] {lg : Logger τ} {L : Launch lg} {calls : τ → List (Call lg)}
  {p : Pool Op.Answer τ (State τ) Unit}

/-- Where all threads have returned, what a reader counts as damage is the headless rest. -/
theorem visit_finished (hrun : Reachable (sem lg) (L.pool calls) p) (hfinished : p.Finished) :
    ∃ r v, openImage (image lg.segment p.shared.mapped) = .ok r ∧ visit r = .ok v ∧
      v.unreadableBytes = headless lg.segment := by
  obtain ⟨hinv, hreturned⟩ := Launch.finished hrun hfinished
  have hlayout := hinv.layout
  have hheaded := mapped_headed hlayout
  have hzero : ∀ x, lg.segment.chunkBase (p.shared.claimedChunks lg.segment) ≤ x →
      x < lg.segment.segmentBytes → p.shared.mapped x = 0 := by
    intro x h₁ h₂
    rw [mapped_of_ge (L.setting calls) (le_trans (Nat.le_add_right _ _) h₁)]
    exact hlayout.unclaimed x h₁ h₂
  have hclass : ∀ i, i < p.shared.claimedChunks lg.segment →
      p.shared.mapped (lg.segment.chunkBase i + 28) = 0 ∨
        p.shared.mapped (lg.segment.chunkBase i + 28) = lg.segment.sizeClass := by
    intro i hi
    obtain ⟨t, -, ht⟩ := ownerOf_claimed hlayout hi
    exact class_of_consistent (mapped_consistent hlayout ht)
  have hquiet : ∀ i, i < p.shared.claimedChunks lg.segment →
      (slotWalk L.sound p.shared.mapped i).unreadable = 0 := by
    intro i hi
    obtain ⟨t, -, ht⟩ := ownerOf_claimed hlayout hi
    -- its owner has returned, and left it quiet
    obtain ⟨h, -, hidle⟩ := hreturned t
    rw [hidle.hist] at ht
    have hmapped : Quiet lg.segment i (lg.threadId t) (writtenIn lg.segment i h)
        p.shared.mapped :=
      (hidle.quiet i ht).congr L.sound fun x hx => mapped_inChunk (L.setting calls) hx
    exact slotWalk_quiet L.sound (lt_of_lt_of_le hi (claimedChunks_le _ _)) hmapped
  obtain ⟨v, hvisit, hunreadable, -⟩ := visit_image L.sound hheaded
    (uniformSlots_of_bytes L.sound hclass hzero)
  refine ⟨_, v, openImage_image L.sound hheaded, hvisit, ?_⟩
  rw [hunreadable]
  exact unreadable_quiet L.sound (claimedChunks_le _ _) L.created.chunkCount_le hquiet hzero

/-- **Healthy means zero damage** exactly when the segment ends with a whole chunk or with
room for a chunk header. -/
theorem healthy_iff (hrun : Reachable (sem lg) (L.pool calls) p) (hfinished : p.Finished) :
    ∃ r v, openImage (image lg.segment p.shared.mapped) = .ok r ∧ visit r = .ok v ∧
      (v.unreadableBytes = 0 ↔
        leftover lg.segment = 0 ∨ sizeofChunkHeader ≤ leftover lg.segment) := by
  obtain ⟨r, v, hopen, hvisit, hunreadable⟩ := visit_finished hrun hfinished
  refine ⟨r, v, hopen, hvisit, ?_⟩
  rw [hunreadable]
  exact headless_eq_zero lg.segment

/-- One thread emits and declares a subsystem. -/
def healthyCalls (_ : Unit) : List (Call (smallLogger 3 plainSite)) :=
  [plainEmit 3 0, .declareSubsystem 4 [97]]

/-- It has returned. -/
def healthyRun : Pool Op.Answer Unit (State Unit) Unit :=
  runThread (smallLogger 3 plainSite) () ((smallLaunch three_chunks plainSite).pool healthyCalls)

theorem healthy_iff_returned :
    ∃ r v, openImage (image (smallLogger 3 plainSite).segment healthyRun.shared.mapped) = .ok r ∧
      visit r = .ok v ∧ (v.unreadableBytes = 0 ↔
        leftover (smallLogger 3 plainSite).segment = 0 ∨
          sizeofChunkHeader ≤ leftover (smallLogger 3 plainSite).segment) :=
  healthy_iff (L := smallLaunch (by decide) plainSite)
    (runThread_reachable _ () _).reachable fun _ => ⟨(), rfl⟩

/-! A segment in 248 bytes of storage: a header area of 192, one chunk of 48, and 8 more. -/

def tailStorage : Storage where
  address := 8
  size := 248
  size_le := by decide
  contents := fun _ => 0

/-- The segment in it, and its memory. -/
def tailSegment : Segment × Mem :=
  Segment.initialise stillPlatform (Mem.store (fun _ => 0) 0 (List.replicate 248 0)) 248 (by decide)
    cCompactSegmentHeaderBytes 48

theorem tailSegment_created :
    Segment.createInMemory stillPlatform tailStorage ⟨0, 48⟩ = .ok tailSegment := rfl

def tailLogger : Logger Unit where
  address := 8
  segment := tailSegment.1
  split := false
  rootCorrelation := 0
  sites := fun _ => plainSite
  threadId := fun _ => 5

def tailLaunch : Launch tailLogger where
  mem := tailSegment.2
  created := .memory _ _ _ tailSegment_created
  opens := by
    obtain ⟨header, hfresh⟩ := Segment.createInMemory_fresh tailSegment_created
    exact ⟨_, openImage_image (Segment.createInMemory_sound tailSegment_created)
      hfresh.toHeaded⟩
  start := ⟨tailSegment.2, 0, fun _ => 0, fun _ => ⟨0, 0, ChunkWriter.none⟩, 0, 0, []⟩
  untouched := ⟨rfl, rfl, fun _ => show (0 : UInt64) ≠ 3 by decide,
    fun _ howner => absurd howner (show (0 : Nat) ≠ 8 by decide), rfl, rfl, rfl⟩

/-- Nothing is logged into it, and a reader counts its last eight bytes as damage. -/
theorem unhealthy_tail :
    ¬ ∀ (lg : Logger Unit) (L : Launch lg) (calls : Unit → List (Call lg))
      (p : Pool Op.Answer Unit (State Unit) Unit), Reachable (sem lg) (L.pool calls) p →
      p.Finished → ∃ r v, openImage (image lg.segment p.shared.mapped) = .ok r ∧
        visit r = .ok v ∧ v.unreadableBytes = 0 := by
  intro hall
  have hrun : Reachable (sem tailLogger) (tailLaunch.pool fun _ => [])
      (tailLaunch.pool fun _ => []) := .refl
  have hreturned : (tailLaunch.pool fun _ => []).Finished := fun _ => ⟨(), rfl⟩
  obtain ⟨r, v, hopen, hvisit, hzero⟩ :=
    hall tailLogger tailLaunch (fun _ => []) _ hrun hreturned
  obtain ⟨r', v', hopen', hvisit', height⟩ := visit_finished hrun hreturned
  rw [hopen] at hopen'
  cases hopen'
  rw [hvisit] at hvisit'
  cases hvisit'
  rw [hzero] at height
  have hheadless : headless tailLogger.segment = 8 := by decide
  rw [hheadless] at height
  cases height

end Sub0Log.System
