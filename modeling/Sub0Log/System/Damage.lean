import Sub0Log.Reader.Locality
import Sub0Log.System.Log

/-!
# Damage stays in its chunk

The walk of a slot looks at its own bytes, so damage in one chunk can reach another only
through the size that is read out of its header: it says where the next chunk starts.

A damaged body leaves the header alone. One changed byte of a header leaves the class byte
alone, or it is the class byte itself, and then a header that was completely stamped no
longer agrees with its checksum (`checksum_class_ne`). Either way the next slot is
`chunkBytes` further (`stride_damaged`), and every other slot is walked as before
(**`damage_isolated`**).

A header whose stamp was interrupted has no checksum yet, which readers take for one that was
never there. Its class byte is believed, and chunks behind it are lost
(`damage_spreads`).
-/

open Bytes Checked Interleaving

namespace Sub0Log.System

open Wire Reader Producer

/-- What a corruption of chunk `c` makes of a memory: any bytes of the body, or one byte of
the header. -/
inductive Damaged (seg : Segment) (c : Nat) (m m' : Mem) : Prop
  | body (h : ∀ x, ¬(seg.bodyBase c ≤ x ∧ x < seg.chunkBase c + seg.chunkBytes) → m' x = m x)
  | header (k : Nat) (hk : k < sizeofChunkHeader)
      (hchanged : m' (seg.chunkBase c + k) ≠ m (seg.chunkBase c + k))
      (h : ∀ x, x ≠ seg.chunkBase c + k → m' x = m x)

/-- Chunk `c` has a complete header. -/
def Stamped (seg : Segment) (c : Nat) (m : Mem) : Prop :=
  ∃ owner time, m.slice (seg.chunkBase c) sizeofChunkHeader =
    (seg.chunkHeader owner time).toBytes

section Slots

variable {seg : Segment} {m m' : Mem} {c i : Nat} (hs : seg.Sound)

/-- Damage is inside its chunk. -/
theorem Damaged.outside (hs : seg.Sound) (h : Damaged seg c m m') {x : Nat}
    (hx : ¬seg.InChunk c x) : m' x = m x := by
  have hgt := hs.chunkBytes_gt
  have hbody : seg.bodyBase c = seg.chunkBase c + sizeofChunkHeader := rfl
  cases h with
  | body h => exact h x fun hin => hx ⟨by omega, hin.2⟩
  | header k hk hchanged h => exact h x fun heq => hx ⟨by omega, by omega⟩

/-- Images of memories that agree somewhere agree there. -/
theorem image_congr {x : Nat} (h : m' x = m x) :
    (image seg m').mem x = (image seg m).mem x := by
  by_cases hx : x < seg.segmentBytes
  · rw [image_mem m' hx, image_mem m hx, h]
  · have hend : ∀ m : Mem, (image seg m).mem x = 0 := fun m => by
      show (m.slice 0 seg.segmentBytes).getD x 0 = 0
      rw [List.getD_eq_getElem?_getD, List.getElem?_eq_none (by rw [Mem.slice_length]; omega)]
      rfl
    rw [hend, hend]

/-- A header with one byte of its class changed. -/
theorem headerAt_class_changed {a : Nat} (h : ∀ x, x ≠ a + 28 → m' x = m x) :
    Geometry.headerAt m' a = { Geometry.headerAt m a with chunkSizeClass := m' (a + 28) } := by
  have hfield : ∀ off n, (off + n ≤ 28 ∨ 29 ≤ off) → off + n ≤ 32 →
      field (m'.slice a 32) off n = field (m.slice a 32) off n := by
    intro off n hoff hin
    unfold field
    rw [Mem.slice_drop_take m' a 32 off n hin, Mem.slice_drop_take m a 32 off n hin]
    exact congrArg leNat (Mem.slice_congr fun x h₁ h₂ => h x (by omega))
  have hclass := headerAt_class m' a
  unfold Geometry.headerAt ChunkHeader.ofBytes sizeofChunkHeader at hclass ⊢
  rw [hfield 0 8 (by omega) (by omega), hfield 8 8 (by omega) (by omega),
    hfield 16 8 (by omega) (by omega), hfield 24 4 (by omega) (by omega)]
  simp only at hclass ⊢
  rw [hclass]

/-- The class byte of a complete header cannot change unnoticed. -/
theorem corrupt_of_class (seg : Segment) (owner time : UInt64) {k : UInt8}
    (h : k ≠ seg.sizeClass) :
    { seg.chunkHeader owner time with chunkSizeClass := k : ChunkHeader }.corrupt = true := by
  have hpresent : (seg.chunkHeader owner time).headerChecksum ≠ 0#32 :=
    checksum_ne_zero (seg.chunkHeader owner time)
  have hother := checksum_class_ne seg.generation owner time (Ne.symm h)
  unfold ChunkHeader.corrupt
  rw [Bool.and_eq_true, bne_iff_ne, bne_iff_ne]
  exact ⟨hpresent, hother⟩

/-- Behind a damaged chunk the next one starts where it did. -/
theorem stride_damaged (hc : c < seg.chunkCount) (h : Damaged seg c m m')
    (hclass : m (seg.chunkBase c + 28) = 0 ∨ m (seg.chunkBase c + 28) = seg.sizeClass)
    (hstamped : m' (seg.chunkBase c + 28) ≠ m (seg.chunkBase c + 28) → Stamped seg c m) :
    (geometry hs).stride ((geometry hs).slot (image seg m').mem seg.segmentBytes
      (seg.chunkBase c)) = seg.chunkBytes := by
  have hinside := hs.chunk_inside hc
  have hgt := hs.chunkBytes_gt
  unfold sizeofChunkHeader at hgt
  by_cases hsame : m' (seg.chunkBase c + 28) = m (seg.chunkBase c + 28)
  · -- the class byte is what it was
    refine stride_eq hs ?_
    rw [headerAt_class, image_mem m' (by omega), hsame]
    exact hclass
  · -- it is the one byte that changed, and the checksum tells
    obtain ⟨owner, time, hheader⟩ := hstamped hsame
    have hchange : ∀ x, x ≠ seg.chunkBase c + 28 → m' x = m x := by
      cases h with
      | body h =>
        have hbody : seg.bodyBase c = seg.chunkBase c + 32 := rfl
        exact absurd (h _ (by omega)) hsame
      | header k hk hchanged h =>
        obtain rfl : k = 28 := by
          by_contra hne
          exact hsame (h _ (by omega))
        exact h
    have hstamp : Geometry.headerAt (image seg m).mem (seg.chunkBase c) =
        seg.chunkHeader owner time :=
      headerAt_image m (by unfold sizeofChunkHeader; omega) hheader
    have hdamaged : Geometry.headerAt (image seg m').mem (seg.chunkBase c) =
        { seg.chunkHeader owner time with
          chunkSizeClass := (image seg m').mem (seg.chunkBase c + 28) } := by
      rw [headerAt_class_changed fun x hx => image_congr (hchange x hx), hstamp]
    have hstampedClass : m (seg.chunkBase c + 28) = seg.sizeClass := by
      have hread := headerAt_class (image seg m).mem (seg.chunkBase c)
      rw [hstamp, image_mem m (by omega)] at hread
      exact hread.symm
    have hchanged : (image seg m').mem (seg.chunkBase c + 28) ≠ seg.sizeClass := by
      rw [image_mem m' (by omega), ← hstampedClass]
      exact hsame
    have hcorrupt := corrupt_of_class seg owner time hchanged
    rw [← hdamaged] at hcorrupt
    have hrefused : (geometry hs).slot (image seg m').mem seg.segmentBytes (seg.chunkBase c) =
        .refused := by
      rw [slot_chunk hs _ hc]
      exact if_pos hcorrupt
    rw [hrefused]
    rfl

/-- The slots a visit goes through, one a slot of the geometry. -/
theorem visit_slots_length {slots : List SlotVisit}
    (h : slots = (List.range (geometry hs).slotCount).flatMap fun i => (slotWalk hs m i).slots) :
    slots.length = (geometry hs).slotCount := by
  have hone : ∀ i, (slotWalk hs m i).slots.length = 1 := fun i => by
    obtain ⟨s, hslots, -⟩ := slotWalk_slots hs m i
    rw [hslots]
    rfl
  rw [h, List.length_flatMap]
  simp only [hone, List.map_const', List.sum_replicate, List.length_range, smul_eq_mul, mul_one]

end Slots

/-! ### Images of runs -/

variable {τ : Type} [DecidableEq τ] {lg : Logger τ}

/-- **Damage in one chunk leaves the others readable.** Whatever state a run has come to, if
any bytes of a claimed chunk's body or one byte of its header change, the image opens, and
every other slot is visited as it was. The one exception is the class byte of a header that
was not completely stamped. -/
theorem damage_isolated (L : Launch lg) {calls : τ → List (Call lg)}
    {p : Pool Op.Answer τ (State τ) Unit} (hrun : Reachable (sem lg) (L.pool calls) p) {c : Nat}
    (hc : c < p.shared.claimedChunks lg.segment) {m' : Mem}
    (hdamage : Damaged lg.segment c p.shared.mapped m')
    (hstamped : m' (lg.segment.chunkBase c + 28) ≠
      p.shared.mapped (lg.segment.chunkBase c + 28) → Stamped lg.segment c p.shared.mapped) :
    ∃ r v r' v', openImage (image lg.segment p.shared.mapped) = .ok r ∧ visit r = .ok v ∧
      openImage (image lg.segment m') = .ok r' ∧ visit r' = .ok v' ∧
      v'.slots.length = v.slots.length ∧ ∀ i, i ≠ c → v'.slots[i]? = v.slots[i]? := by
  have hs := L.sound
  have hlayout := (Launch.reachable hrun).1.layout
  have hheaded := mapped_headed hlayout
  have hcount := claimedChunks_le p.shared lg.segment
  have hcursor := hs.cursor_inside
  unfold cCompactSegmentHeaderBytes cNextChunkOffset at hcursor
  have hheaded' : lg.segment.Headed (L.setting calls).header m' :=
    hheaded.congr fun x hx => hdamage.outside hs fun hin => by
      have hbase : lg.segment.headerBytes ≤ lg.segment.chunkBase c := Nat.le_add_right _ _
      unfold sizeofSegmentHeader at hx
      have := hin.1
      omega
  have hzero : ∀ x, lg.segment.chunkBase (p.shared.claimedChunks lg.segment) ≤ x →
      x < lg.segment.segmentBytes → p.shared.mapped x = 0 := by
    intro x h₁ h₂
    rw [mapped_of_ge (L.setting calls) (le_trans (Nat.le_add_right _ _) h₁)]
    exact hlayout.unclaimed x h₁ h₂
  have hclass : ∀ i, i < p.shared.claimedChunks lg.segment →
      p.shared.mapped (lg.segment.chunkBase i + 28) = 0 ∨
        p.shared.mapped (lg.segment.chunkBase i + 28) = lg.segment.sizeClass := by
    intro i hi
    obtain ⟨t, -, ht⟩ := ownerOf_claimed hlayout hi
    exact class_of_consistent (mapped_consistent hlayout ht)
  have huniform := uniformSlots_of_bytes hs hclass hzero
  -- the bytes of another slot are what they were
  have hother : ∀ i, i ≠ c → ∀ x, lg.segment.chunkBase i ≤ x →
      x < lg.segment.chunkBase i + lg.segment.chunkBytes →
      (image lg.segment m').mem x = (image lg.segment p.shared.mapped).mem x := by
    intro i hi x h₁ h₂
    refine image_congr (hdamage.outside hs fun hin => hi ?_)
    exact (hs.chunkOf_eq ⟨h₁, h₂⟩).symm.trans (hs.chunkOf_eq hin)
  have huniform' : (geometry hs).UniformSlots (image lg.segment m').mem := by
    intro i hi
    by_cases hic : i = c
    · subst hic
      exact stride_damaged hs (lt_of_lt_of_le hc hcount) hdamage (hclass i hc) hstamped
    · have hgt := hs.chunkBytes_gt
      rw [slotStart_eq, ← huniform i hi, slotStart_eq]
      refine congrArg _ ((geometry hs).slot_congr fun x h₁ h₂ => hother i hic x h₁ ?_)
      omega
  obtain ⟨v, hvisit, -, hslots⟩ := visit_image hs hheaded huniform
  obtain ⟨v', hvisit', -, hslots'⟩ := visit_image hs hheaded' huniform'
  refine ⟨_, v, _, v', openImage_image hs hheaded, hvisit, openImage_image hs hheaded', hvisit',
    ?_, fun i hi => ?_⟩
  · rw [visit_slots_length hs hslots', visit_slots_length hs hslots]
  · by_cases hslot : i < (geometry hs).slotCount
    · rw [getElem?_visit_slots hs hslots' hslot, getElem?_visit_slots hs hslots hslot]
      have hwalk : slotWalk hs m' i = slotWalk hs p.shared.mapped i := by
        refine (geometry hs).walkSlot_congr fun x h₁ h₂ => hother i hi x h₁ ?_
        rw [← slotStart_eq hs] at h₂
        change x < _ + (geometry hs).stride ((geometry hs).slot _ (geometry hs).segmentBytes _)
          at h₂
        rw [huniform i hslot] at h₂
        exact h₂
      rw [hwalk]
    · rw [List.getElem?_eq_none (by rw [visit_slots_length hs hslots']; omega),
        List.getElem?_eq_none (by rw [visit_slots_length hs hslots]; omega)]

/-! ### A stamp that was interrupted

Two threads log into two chunks. One has claimed the first chunk and stored the generation of
its header, the other emits into the second. -/

def pairLogger : Logger Bool :=
  { smallLogger 2 plainSite with threadId := fun t => if t then 6 else 5 }

def pairLaunch : Launch pairLogger where
  mem := (smallSegment 2).2
  created := .memory _ _ _ (smallSegment_created two_chunks)
  opens := (smallLaunch two_chunks plainSite).opens
  start := ⟨(smallSegment 2).2, 0, fun _ => 0, fun _ => ⟨0, 0, ChunkWriter.none⟩, 0, 0, []⟩
  untouched := ⟨rfl, rfl, fun _ => show (0 : UInt64) ≠ 3 by decide,
    fun _ howner => absurd howner (show (0 : Nat) ≠ 8 by decide), rfl, rfl, rfl⟩

def pairCalls (_ : Bool) : List (Call pairLogger) := [.emit ⟨16, [], 0⟩ rfl]

def pairRun : Pool Op.Answer Bool (State Bool) Unit :=
  runThread pairLogger true (runOps pairLogger false 14 (pairLaunch.pool pairCalls))

theorem pairRun_reachable : Reachable (sem pairLogger) (pairLaunch.pool pairCalls) pairRun :=
  (runOps_reachable pairLogger false 14 _).reachable.trans
    (runThread_reachable pairLogger true _).reachable

/-- A byte in the body of the second chunk was changed. -/
def pairDamaged : Mem := pairRun.shared.mapped.store (pairLogger.segment.chunkBase 1 + 40) [255]

theorem damage_isolated_body :
    ∃ r v r' v', openImage (image pairLogger.segment pairRun.shared.mapped) = .ok r ∧
      visit r = .ok v ∧ openImage (image pairLogger.segment pairDamaged) = .ok r' ∧
      visit r' = .ok v' ∧ v'.slots.length = v.slots.length ∧
      ∀ i, i ≠ 1 → v'.slots[i]? = v.slots[i]? := by
  have houtside : ∀ x, x ≠ pairLogger.segment.chunkBase 1 + 40 →
      pairDamaged x = pairRun.shared.mapped x := by
    intro x hx
    rcases Nat.lt_or_gt_of_ne hx with hlt | hgt
    · exact Mem.store_of_lt hlt
    · exact Mem.store_of_ge hgt
  have hbase : pairLogger.segment.chunkBase 1 = 320 ∧ pairLogger.segment.bodyBase 1 = 352 ∧
      pairLogger.segment.chunkBytes = 128 := by decide
  obtain ⟨hchunk, hbody, hbytes⟩ := hbase
  refine damage_isolated pairLaunch pairRun_reachable (c := 1) (by decide +kernel)
    (.body fun x hx => houtside x fun heq => hx ⟨by omega, by omega⟩) fun hclass => ?_
  exact absurd (houtside _ (by omega)) hclass

/-- How many records a visit yields from a slot. -/
def recordsIn (img : Image) (i : Nat) : Option Nat :=
  match openImage img with
  | .error _ => none
  | .ok r => match visit r with
    | .error _ => none
    | .ok v => v.slots[i]?.map fun s => s.records.length

theorem recordsIn_eq {img : Image} {r : SegmentReader} {v : Visit} (hopen : openImage img = .ok r)
    (hvisit : visit r = .ok v) (i : Nat) :
    recordsIn img i = v.slots[i]?.map fun s => s.records.length := by
  unfold recordsIn
  rw [hopen]
  simp only
  rw [hvisit]

/-- The class byte of the header without a checksum is changed: both records of the second
chunk are lost. -/
theorem damage_spreads :
    ¬ ∀ (lg : Logger Bool) (L : Launch lg) (calls : Bool → List (Call lg))
      (p : Pool Op.Answer Bool (State Bool) Unit), Reachable (sem lg) (L.pool calls) p →
      ∀ c, c < p.shared.claimedChunks lg.segment → ∀ m', Damaged lg.segment c p.shared.mapped m' →
        ∃ r v r' v', openImage (image lg.segment p.shared.mapped) = .ok r ∧ visit r = .ok v ∧
          openImage (image lg.segment m') = .ok r' ∧ visit r' = .ok v' ∧
          ∀ i, i ≠ c → v'.slots[i]? = v.slots[i]? := by
  intro hall
  have hdamaged : Damaged pairLogger.segment 0 pairRun.shared.mapped
      (pairRun.shared.mapped.store (pairLogger.segment.chunkBase 0 + 28) [5]) := by
    refine .header 28 (by decide) (by decide +kernel) fun x hx => ?_
    rcases Nat.lt_or_gt_of_ne hx with hlt | hgt
    · exact Mem.store_of_lt hlt
    · exact Mem.store_of_ge hgt
  obtain ⟨r, v, r', v', hopen, hvisit, hopen', hvisit', hsame⟩ :=
    hall pairLogger pairLaunch pairCalls pairRun pairRun_reachable 0 (by decide +kernel) _ hdamaged
  have htwo : recordsIn (image pairLogger.segment pairRun.shared.mapped) 1 = some 2 := by
    decide +kernel
  have hnone : recordsIn (image pairLogger.segment
      (pairRun.shared.mapped.store (pairLogger.segment.chunkBase 0 + 28) [5])) 1 = none := by
    decide +kernel
  rw [recordsIn_eq hopen hvisit, ← hsame 1 (by decide), ← recordsIn_eq hopen' hvisit', hnone]
    at htwo
  cases htwo

end Sub0Log.System
