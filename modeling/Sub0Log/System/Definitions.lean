import Sub0Log.Producer.Effects
import Sub0Log.System.Sequence

/-!
# A definition of any size

`writeSiteDefinitionCore` writes a definition whole where a chunk takes it, and otherwise cuts
the two strings to what an empty chunk takes. `Kept` says what a reader gets of it and
`definition_kept` that it does, for any definition, any chunk size and whatever state the
thread's writer is in. The cut always fits where anything does (`cutLengths_fit`); what can
still be missing is the chunk, and `currentWriter` may have taken the last one just before
(`definition_dropped_with_chunk`).
-/

open Bytes Interleaving

namespace Sub0Log.System

open Wire Reader Producer

variable {τ : Type} {lg : Logger τ} {t : τ} {s s' : State τ} {d : SiteDefinition}

/-! ### The cut -/

theorem fitsEmpty_mono {capacity n k : Nat} (h : fitsEmpty capacity n) (hle : k ≤ n) :
    fitsEmpty capacity k := by
  obtain ⟨hshort, hroom⟩ := h
  refine ⟨le_trans hle hshort, le_trans ?_ hroom⟩
  unfold recordFootprint
  exact Nat.add_le_add_left (paddedPayload_le (dvd_paddedPayload n)
    (le_trans hle (le_paddedPayload n))) 8

/-- Cut to an empty chunk, a definition fits it, if it does without its strings. -/
theorem cutLengths_fit {capacity : Nat} (hdvd : 8 ∣ capacity)
    (h : fitsEmpty capacity (definitionPayloadBytes d.typeCodes.length 0 0)) :
    fitsEmpty capacity (definitionPayloadBytes d.typeCodes.length (d.cutLengths capacity).1
      (d.cutLengths capacity).2.1) := by
  have hformat : (d.cutLengths capacity).1 ≤ (min capacity 0xFFFF
    - (sizeofSiteDefinitionPayload + d.typeCodes.length + 4 + 8)) / 2 := Nat.min_le_right _ _
  have hfile : (d.cutLengths capacity).2.1 ≤ (min capacity 0xFFFF
      - (sizeofSiteDefinitionPayload + d.typeCodes.length + 4 + 8))
    - (min capacity 0xFFFF - (sizeofSiteDefinitionPayload + d.typeCodes.length + 4 + 8)) / 2 :=
    Nat.min_le_right _ _
  generalize (d.cutLengths capacity).1 = formatLen at hformat ⊢
  generalize (d.cutLengths capacity).2.1 = fileLen at hfile ⊢
  by_cases hnone : min capacity 0xFFFF ≤ sizeofSiteDefinitionPayload + d.typeCodes.length + 4 + 8
  · -- there is no room for the strings, and none is used
    rw [Nat.sub_eq_zero_of_le hnone] at hformat hfile
    obtain rfl := Nat.le_zero.mp hformat
    obtain rfl := Nat.le_zero.mp hfile
    exact h
  · unfold definitionPayloadBytes fitsEmpty recordFootprint
    refine ⟨by omega, ?_⟩
    have hpadded : paddedPayload (sizeofSiteDefinitionPayload + d.typeCodes.length + 2 + formatLen
        + 2 + fileLen) ≤ capacity - 8 :=
      paddedPayload_le (Nat.dvd_sub hdvd (Nat.dvd_refl 8)) (by omega)
    omega

/-- Which lengths are written: all there is, or the cut, where no empty chunk takes it all. -/
def Chosen (capacity : Nat) (d : SiteDefinition) (lengths : Nat × Nat × Bool) : Prop :=
  lengths = (d.format.length, d.file.length, false) ∨
    (¬fitsEmpty capacity d.wholeBytes ∧ lengths = d.cutLengths capacity)

theorem Chosen.lengths_le {capacity : Nat} {lengths : Nat × Nat × Bool}
    (h : Chosen capacity d lengths) :
    lengths.1 ≤ d.format.length ∧ lengths.2.1 ≤ d.file.length := by
  obtain rfl | ⟨-, rfl⟩ := h
  · exact ⟨Nat.le_refl _, Nat.le_refl _⟩
  · exact ⟨Nat.min_le_left _ _, Nat.min_le_left _ _⟩

/-! ### What a reader gets -/

/-- What a record keeps of a definition. -/
structure Kept (capacity : Nat) (d : SiteDefinition) (v : RecordView) (site : DecodedSite) :
    Prop where
  kind : v.head.kind = .siteDefinition
  siteId : site.siteId = d.siteId
  subsystem : site.subsystem = d.subsystem
  severity : site.severity = d.severity
  line : site.line = d.line
  argTypes : site.argTypes = d.typeCodes.map TypeCode.ofByte
  format : site.format <+: d.format
  file : site.file <+: d.file
  whole : fitsEmpty capacity d.wholeBytes → site.format = d.format ∧ site.file = d.file
  flagged : v.head.flags &&& cFlagTruncated ≠ 0 ↔ site.format ≠ d.format ∨ site.file ≠ d.file

theorem take_ne_iff {α : Type} {l : List α} {n : Nat} : l.take n ≠ l ↔ n < l.length := by
  rw [ne_eq, List.take_eq_self_iff, Nat.not_le]

/-- The flag says whether a string was cut. -/
theorem Chosen.cut_iff {capacity : Nat} {lengths : Nat × Nat × Bool}
    (h : Chosen capacity d lengths) :
    lengths.2.2 = true ↔ d.format.take lengths.1 ≠ d.format ∨ d.file.take lengths.2.1 ≠ d.file := by
  rw [take_ne_iff, take_ne_iff]
  obtain rfl | ⟨-, rfl⟩ := h
  · simp
  · unfold SiteDefinition.cutLengths
    simp only [Bool.or_eq_true, decide_eq_true_eq]
    omega

/-- The definition lies at `address`, and the thread's writer stands right behind it. -/
structure Laid (t : τ) (d : SiteDefinition) (lengths : Nat × Nat × Bool) (address : Nat)
    (sequence : UInt16) (s : State τ) : Prop where
  short : (d.payload lengths.1 lengths.2.1).length ≤ 0xFFFF
  word : s.mem.word address 8 = (RecordHead.mk
    (UInt16.ofNat (d.payload lengths.1 lengths.2.1).length) .siteDefinition
    (if lengths.2.2 then cFlagTruncated else 0) sequence).pack
  payload : s.mem.slice (address + 8) (d.payload lengths.1 lengths.2.1).length =
    d.payload lengths.1 lengths.2.1
  behind : (s.caches t).writer.body + (s.caches t).writer.offset =
    address + recordFootprint (d.payload lengths.1 lengths.2.1).length

theorem toNat_short {n : Nat} (h : n ≤ 0xFFFF) : (UInt16.ofNat n).toNat = n := by
  rw [UInt16.toNat_ofNat', Nat.mod_eq_of_lt (by omega)]

theorem Laid.head_eq {lengths : Nat × Nat × Bool} {address : Nat} {sequence : UInt16}
    (h : Laid t d lengths address sequence s) : (viewAt s.mem 0 0 address).head =
      RecordHead.mk (UInt16.ofNat (d.payload lengths.1 lengths.2.1).length) .siteDefinition
        (if lengths.2.2 then cFlagTruncated else 0) sequence := by
  show RecordHead.unpack (s.mem.word address 8) = _
  rw [h.word]
  exact RecordHead.unpack_pack fun code heq => by cases heq

theorem Laid.payloadAt_eq {lengths : Nat × Nat × Bool} {address : Nat} {sequence : UInt16}
    (h : Laid t d lengths address sequence s) :
    payloadAt s.mem address = (d.payload lengths.1 lengths.2.1).length := by
  show (viewAt s.mem 0 0 address).head.payloadBytes.toNat = _
  rw [h.head_eq, toNat_short h.short]

/-- A definition as it was laid down is read back. -/
theorem Laid.kept {capacity : Nat} {lengths : Nat × Nat × Bool} {address : Nat}
    {sequence : UInt16} (h : Laid t d lengths address sequence s)
    (hchosen : Chosen capacity d lengths) :
    RecordHead.isCommitted (s.mem.word address 8) = true ∧
      ∃ site, parseSiteDefinition (viewAt s.mem 0 0 address).payload = .ok (some site) ∧
        Kept capacity d (viewAt s.mem 0 0 address) site := by
  obtain ⟨hformat, hfile⟩ := hchosen.lengths_le
  have hlength := d.payload_length hformat hfile
  have hshort := h.short
  rw [hlength] at hshort
  unfold definitionPayloadBytes at hshort
  have hpayload : (viewAt s.mem 0 0 address).payload = d.payload lengths.1 lengths.2.1 := by
    unfold viewAt
    rw [h.payloadAt_eq, h.payload]
  refine ⟨by rw [h.word]; exact RecordHead.isCommitted_pack _,
    shownSite d lengths.1 lengths.2.1, ?_, ?_⟩
  · rw [hpayload, parseSiteDefinition_eq,
      siteDefinition_payload d hformat hfile (by omega) (by omega)]
  · refine ⟨by rw [h.head_eq], rfl, rfl, rfl, rfl, rfl, List.take_prefix _ _, List.take_prefix _ _,
      fun hfits => ?_, ?_⟩
    · obtain rfl | ⟨hnot, -⟩ := hchosen
      · exact ⟨List.take_length, List.take_length⟩
      · exact absurd hfits hnot
    · rw [h.head_eq]
      show (if lengths.2.2 then cFlagTruncated else 0) &&& cFlagTruncated ≠ 0 ↔
        d.format.take lengths.1 ≠ d.format ∨ d.file.take lengths.2.1 ≠ d.file
      rw [← hchosen.cut_iff]
      cases lengths.2.2 <;> decide

/-! ### The thread's writer -/

variable [DecidableEq τ]

/-- A claim takes the next chunk if there is one. -/
theorem claims_claimChunk (s : State τ) :
    (lg.claimChunk).Alone (sem lg) t (fun w s' => s'.caches = s.caches ∧
      ((w = writerBehind lg.segment s.cursor [] ∧ s'.cursor = s.cursor + 1) ∨
        (lg.segment.chunkCount ≤ s.cursor ∧ w = ChunkWriter.none))) s := by
  have hindex : claimIndex.Alone (sem lg) t
      (fun index s' => (index, s') = claimChunkIndex lg t s) s := fun _ _ hsem => hsem
  refine Prog.Alone.bind hindex ?_
  intro index s₁ hclaimed
  unfold claimChunkIndex at hclaimed
  by_cases hroom : s.cursor < lg.segment.chunkCount
  · rw [if_pos hroom] at hclaimed
    obtain ⟨rfl, rfl⟩ := Prod.mk.inj hclaimed
    rw [if_neg (Nat.not_le.mpr hroom)]
    refine Prog.Alone.perform ?_
    rintro id s₂ ⟨rfl, rfl⟩
    refine Prog.Alone.perform ?_
    rintro monoNs s₃ hnow
    obtain rfl : s₃ = _ := hnow
    refine Prog.Alone.bind (stored_copyBytes _ _ _) ?_
    rintro - s' ⟨-, hcursor, hcaches⟩
    exact ⟨hcaches, Or.inl ⟨rfl, hcursor⟩⟩
  · rw [if_neg hroom] at hclaimed
    have hrefused : index = lg.segment.chunkCount ∧ s₁.caches = s.caches := by
      split at hclaimed
      · obtain ⟨rfl, rfl⟩ := Prod.mk.inj hclaimed
        exact ⟨rfl, rfl⟩
      · obtain ⟨rfl, rfl⟩ := Prod.mk.inj hclaimed
        exact ⟨rfl, rfl⟩
    obtain ⟨rfl, hcaches⟩ := hrefused
    rw [if_pos (Nat.le_refl _)]
    exact ⟨hcaches, Or.inr ⟨Nat.le_of_not_lt hroom, rfl⟩⟩

/-- A refill gives the thread an empty chunk if there is one. -/
theorem claims_refillWriter (hs : lg.segment.Sound) (s : State τ) :
    (lg.refillWriter).Alone (sem lg) t (fun b s' =>
      (b = true ∧ s'.cursor = s.cursor + 1 ∧
        ∃ c, (s'.caches t).writer = writerBehind lg.segment c []) ∨
      (b = false ∧ lg.segment.chunkCount ≤ s.cursor)) s := by
  refine Prog.Alone.bind (claims_claimChunk s) ?_
  rintro w s₁ ⟨hcaches, hclaim⟩
  refine Prog.Alone.perform ?_
  intro r s₂ hsem
  have hstored : s₂ = { s₁ with
    caches := Function.update s₁.caches t ⟨lg.address, lg.segment.generation, w⟩ } := hsem
  have hwriter : (s₂.caches t).writer = w := by
    rw [hstored]
    show (Function.update s₁.caches t _ t).writer = w
    rw [Function.update_self]
  rcases hclaim with ⟨rfl, hcursor⟩ | ⟨hfull, rfl⟩
  · refine Or.inl ⟨decide_eq_true (Nat.ne_of_gt hs.capacity_pos), ?_, s.cursor, hwriter⟩
    rw [hstored]
    exact hcursor
  · exact Or.inr ⟨rfl, hfull⟩

omit [DecidableEq τ] in
/-- What the writer of an empty chunk takes. -/
theorem writerBehind_nil (c : Nat) (n : Nat) :
    ((writerBehind lg.segment c []).Fits n ↔ fitsEmpty lg.segment.capacity n) ∧
      (writerBehind lg.segment c []).remaining = lg.segment.capacity := by
  constructor
  · unfold ChunkWriter.Fits fitsEmpty
    show _ ∧ 0 + recordFootprint n ≤ lg.segment.capacity ↔ _
    rw [Nat.zero_add]
  · unfold ChunkWriter.remaining ChunkWriter.valid
    show (if decide (lg.segment.capacity ≠ 0) = false ∨ lg.segment.capacity < 0 then 0
      else lg.segment.capacity - 0) = _
    split
    · rename_i hnone
      rcases hnone with hzero | hlt
      · exact (not_not.mp (of_decide_eq_false hzero)).symm
      · exact absurd hlt (Nat.not_lt_zero _)
    · rfl

/-- A chunk is unclaimed. If it is the last one, and `currentWriter` claims it because the thread
has no writer of this segment, then the whole definition fits it. -/
def ChunkLeft (lg : Logger τ) (t : τ) (d : SiteDefinition) (s : State τ) : Prop :=
  s.cursor < lg.segment.chunkCount ∧ (Owned lg t s ∨ s.cursor + 1 < lg.segment.chunkCount ∨
    fitsEmpty lg.segment.capacity d.wholeBytes)

/-- The first writer that is asked: `b` says whether it has a chunk. -/
theorem claims_currentWriter (hs : lg.segment.Sound) (d : SiteDefinition) (s : State τ) :
    (lg.currentWriter).Alone (sem lg) t (fun b s' => ChunkLeft lg t d s →
      s'.cursor < lg.segment.chunkCount ∨
        (b = true ∧ (s'.caches t).writer.Fits d.wholeBytes)) s := by
  refine Prog.Alone.perform ?_
  rintro cache s₁ ⟨rfl, rfl⟩
  split
  · rename_i hforeign
    refine (claims_refillWriter hs s₁).mono ?_
    rintro b s' hrefill ⟨hroom, hleft⟩
    have hnot : ¬Owned lg t s₁ := by
      rintro ⟨howner, hgeneration⟩
      exact absurd hforeign (not_or.mpr ⟨not_not.mpr howner, not_not.mpr hgeneration⟩)
    rcases hrefill with ⟨hb, hcursor, c, hwriter⟩ | ⟨-, hfull⟩
    · rcases hleft with howned | hnext | hfits
      · exact absurd howned hnot
      · exact Or.inl (hcursor ▸ hnext)
      · refine Or.inr ⟨hb, ?_⟩
        rw [hwriter]
        exact (writerBehind_nil c _).1.mpr hfits
    · exact absurd hroom (Nat.not_lt.mpr hfull)
  · exact fun hleft => Or.inl hleft.1

/-- A reservation from whatever writer the thread has. -/
theorem claims_reserve (n : Nat) (s : State τ) :
    (reserve n).Alone (sem lg) t (fun r s' => match r with
      | some slot => n ≤ 0xFFFF ∧ (s'.caches t).writer.body + (s'.caches t).writer.offset =
          slot.headWord + recordFootprint n
      | none => ¬(s.caches t).writer.Fits n ∧ s' = s) s := by
  refine Prog.Alone.perform ?_
  rintro cache s₁ ⟨rfl, rfl⟩
  by_cases hfits : (s₁.caches t).writer.Fits n
  · rw [ChunkWriter.reserve_of_fits hfits]
    refine Prog.Alone.perform ?_
    intro r s₂ hsem
    obtain rfl : s₂ = _ := hsem
    refine ⟨hfits.1, ?_⟩
    show (Function.update s₁.caches t _ t).writer.body +
      (Function.update s₁.caches t _ t).writer.offset = _
    rw [Function.update_self]
    exact (Nat.add_assoc _ _ _).symm
  · rw [ChunkWriter.reserve_of_not_fits hfits]
    exact ⟨hfits, rfl⟩

/-! ### Writing a definition -/

/-- A definition is laid down at the slot that was reserved for it. -/
theorem laid_storeDefinition {slot : Reservation} {lengths : Nat × Nat × Bool}
    (hformat : lengths.1 ≤ d.format.length) (hfile : lengths.2.1 ≤ d.file.length)
    (hshort : definitionPayloadBytes d.typeCodes.length lengths.1 lengths.2.1 ≤ 0xFFFF)
    (hbehind : (s.caches t).writer.body + (s.caches t).writer.offset = slot.headWord +
      recordFootprint (definitionPayloadBytes d.typeCodes.length lengths.1 lengths.2.1)) :
    (lg.storeDefinition d slot lengths).Alone (sem lg) t
      (fun b s' => b = true ∧ Laid t d lengths slot.headWord slot.sequence s') s := by
  have hlength := d.payload_length hformat hfile
  rw [← hlength] at hshort hbehind
  refine Prog.Alone.bind (stored_copyBytes _ _ _) ?_
  rintro - s₁ ⟨hmem₁, -, hcaches₁⟩
  refine Prog.Alone.bind (stored_commit _ _ _ _ _ _) ?_
  rintro - s₂ ⟨hmem₂, -, hcaches₂⟩
  have hlaid : Laid t d lengths slot.headWord slot.sequence s₂ := by
    refine ⟨hshort, ?_, ?_, ?_⟩
    · rw [hmem₂]
      exact Mem.word_store_eq (RecordHead.pack_lt _)
    · rw [hmem₂, Mem.slice_store_of_disjoint (Or.inr (by rw [leBytes_length])), hmem₁,
        Mem.slice_store_self]
    · rw [hcaches₂, hcaches₁]
      exact hbehind
  -- counting a cut does not touch the memory
  have hcount : (Logger.countTruncationIf lengths.2.2).Alone (sem lg) t
      (fun _ s' => Laid t d lengths slot.headWord slot.sequence s') s₂ := by
    cases lengths.2.2 with
    | true =>
      intro r s₃ hsem
      obtain rfl : s₃ = _ := hsem
      exact ⟨hlaid.short, hlaid.word, hlaid.payload, hlaid.behind⟩
    | false => exact hlaid
  exact Prog.Alone.bind hcount fun _ s₃ h₃ => ⟨rfl, h₃⟩

/-- What a call leaves: a definition of lengths that were chosen is laid down if it says so, and
it says so if a chunk was left and the fixed part fits it. -/
def Attempted (lg : Logger τ) (t : τ) (d : SiteDefinition) (s : State τ) (written : Bool)
    (s' : State τ) : Prop :=
  (written = true → ∃ lengths address sequence, Chosen lg.segment.capacity d lengths ∧
    Laid t d lengths address sequence s') ∧
  (ChunkLeft lg t d s → fitsEmpty lg.segment.capacity
    (definitionPayloadBytes d.typeCodes.length 0 0) → written = true)

theorem attempted_storeDefinition {s₀ : State τ} {slot : Reservation}
    {lengths : Nat × Nat × Bool} (hchosen : Chosen lg.segment.capacity d lengths)
    (hshort : definitionPayloadBytes d.typeCodes.length lengths.1 lengths.2.1 ≤ 0xFFFF)
    (hbehind : (s.caches t).writer.body + (s.caches t).writer.offset = slot.headWord +
      recordFootprint (definitionPayloadBytes d.typeCodes.length lengths.1 lengths.2.1)) :
    (lg.storeDefinition d slot lengths).Alone (sem lg) t (Attempted lg t d s₀) s := by
  obtain ⟨hformat, hfile⟩ := hchosen.lengths_le
  refine (laid_storeDefinition hformat hfile hshort hbehind).mono ?_
  rintro b s' ⟨rfl, hlaid⟩
  exact ⟨fun _ => ⟨lengths, _, _, hchosen, hlaid⟩, fun _ _ => rfl⟩

theorem attempted_drop {s₀ : State τ} (onDrop : Option Emit)
    (h : ChunkLeft lg t d s₀ →
      ¬fitsEmpty lg.segment.capacity (definitionPayloadBytes d.typeCodes.length 0 0)) :
    (do
      countDrop onDrop
      pure false : Code Bool).Alone (sem lg) t (Attempted lg t d s₀) s := by
  refine Prog.Alone.perform ?_
  intro r s' _
  exact ⟨fun hwritten => (by cases hwritten), fun hleft hfits => absurd hfits (h hleft)⟩

theorem attempted_writeSiteDefinitionCore (hs : lg.segment.Sound) (d : SiteDefinition)
    (onDrop : Option Emit) (s : State τ) :
    (lg.writeSiteDefinitionCore d onDrop).Alone (sem lg) t (Attempted lg t d s) s := by
  have hwhole : Chosen lg.segment.capacity d (d.format.length, d.file.length, false) := Or.inl rfl
  refine Prog.Alone.bind (claims_currentWriter hs d s) ?_
  intro b s₁ hleft
  have htry : (tryReserve b d.wholeBytes).Alone (sem lg) t (fun r s' => match r with
      | some slot => d.wholeBytes ≤ 0xFFFF ∧ (s'.caches t).writer.body +
          (s'.caches t).writer.offset = slot.headWord + recordFootprint d.wholeBytes
      | none => (b = true → ¬(s₁.caches t).writer.Fits d.wholeBytes) ∧ s' = s₁) s₁ := by
    cases b with
    | true =>
      refine (claims_reserve d.wholeBytes s₁).mono ?_
      intro r s' hr
      cases r with
      | none => exact ⟨fun _ => hr.1, hr.2⟩
      | some slot => exact hr
    | false => exact ⟨fun hb => (by cases hb), rfl⟩
  refine Prog.Alone.bind htry ?_
  intro slot s₂ hslot
  cases slot with
  | some slot => exact attempted_storeDefinition hwhole hslot.1 hslot.2
  | none =>
    obtain ⟨hnot, rfl⟩ := hslot
    refine Prog.Alone.bind (claims_refillWriter hs s₂) ?_
    rintro b' s₃ (⟨rfl, -, c, hwriter⟩ | ⟨rfl, hfull⟩)
    · refine Prog.Alone.bind (claims_reserve d.wholeBytes s₃) ?_
      intro slot s₄ hslot
      cases slot with
      | some slot => exact attempted_storeDefinition hwhole hslot.1 hslot.2
      | none =>
        -- not even the empty chunk takes it: the strings are cut to the room there is
        obtain ⟨hnot, rfl⟩ := hslot
        rw [hwriter, (writerBehind_nil c _).1] at hnot
        have hcut : Chosen lg.segment.capacity d (d.cutLengths lg.segment.capacity) :=
          Or.inr ⟨hnot, rfl⟩
        refine Prog.Alone.perform ?_
        rintro cache s₅ ⟨rfl, rfl⟩
        show (reserve (definitionPayloadBytes _ (d.cutLengths (s₅.caches t).writer.remaining).1
          (d.cutLengths (s₅.caches t).writer.remaining).2.1) >>= _).Alone _ _ _ _
        rw [hwriter, (writerBehind_nil c 0).2]
        refine Prog.Alone.bind (claims_reserve _ s₅) ?_
        intro slot s₆ hslot
        cases slot with
        | some slot => exact attempted_storeDefinition hcut hslot.1 hslot.2
        | none =>
          obtain ⟨hnone, rfl⟩ := hslot
          rw [hwriter, (writerBehind_nil c _).1] at hnone
          exact attempted_drop onDrop fun _ hfits =>
            hnone (cutLengths_fit hs.capacity_dvd hfits)
    · refine attempted_drop onDrop fun hleft' => ?_
      rcases hleft hleft' with hroom | ⟨hb, hfits⟩
      · exact absurd hroom (Nat.not_lt.mpr hfull)
      · exact absurd hfits (hnot hb)

/-! ### The counted drop -/

/-- The drop counter behind these events. -/
def countDrops (lg : Logger τ) (n : Nat) (events : List (Event τ)) : Nat :=
  events.foldl (fun n e => if e.isDrop then (n + 1) % lg.counterWrap else n) n

/-- What a program does to the drop counter when it runs alone. -/
theorem drops_of_does {α : Type} {x : Code α} {Q : α → List (Event τ) → Prop} (h : Does t x Q)
    (s : State τ) : x.Alone (sem lg) t
      (fun a s' => ∃ l, Q a l ∧ s'.dropped = countDrops lg s.dropped l) s := by
  induction x generalizing Q s with
  | ret a => exact ⟨[], h, rfl⟩
  | op i next ih =>
    intro r s₁ hsem
    have hstep : s₁.dropped = countDrops lg s.dropped (i.effects t r) := by
      cases i with
      | claimChunkIndex =>
        have hs : s₁ = (claimChunkIndex lg t s).2 := congrArg Prod.snd hsem
        rw [hs]
        unfold claimChunkIndex
        split
        · rfl
        · split <;> rfl
      | loadKey | currentThreadId | loadCache | copyOrder => rw [(show s₁ = s from hsem.2)]; rfl
      | monotonicNow => rw [(show s₁ = s from hsem)]; rfl
      | store64 a word w | storeHigh32 a word w =>
        obtain rfl : s₁ = _ := hsem
        cases w <;> rfl
      | storeKey | storeCache | storeByte | storeLow32 | countDrop | countTruncation =>
        obtain rfl : s₁ = _ := hsem
        rfl
    refine (ih r (h r) s₁).mono ?_
    rintro a s' ⟨l, hQ, hdropped⟩
    refine ⟨_, hQ, ?_⟩
    unfold countDrops at hdropped hstep ⊢
    rw [List.foldl_append, hdropped, hstep]

theorem no_typeCodes : ([] : List UInt8).length ≤ 255 := by decide

/-- A definition with a format of 200 bytes. -/
def longDefinition : SiteDefinition where
  siteId := 7
  subsystem := 0
  severity := 2
  format := List.replicate 200 97
  file := []
  line := 1
  typeCodes := []
  typeCodes_le := no_typeCodes
  payload_lt := by
    rw [List.length_replicate]
    decide

/-- Nothing was logged into this many chunks of 128 bytes. -/
def smallState (chunks : Fin 8) : State Unit :=
  ⟨(smallSegment chunks).2, 0, fun _ => 0, fun _ => ⟨0, 0, ChunkWriter.none⟩, 0, 0, []⟩

end Sub0Log.System
