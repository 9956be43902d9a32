import Sub0Log.Library.Copying
import Sub0Log.System.Ledger

/-!
# Reading a segment that is being written

A reader copies the segment from its first byte on, one aligned word a step, while the
threads of the producer run (`LiveCopy`). The copy is then opened, visited and decoded like
any other image, but no state of the run need have had these bytes.

Two facts carry the argument. At every moment of the run a chunk is `Consistent` with what
its owner had published by then (`consistent_before`), and the publications of a chunk grow
upwards; so the copy of a chunk is `Legible`, with the publications of the moment at which
the walk of the copy stops (`legible_copy`). `SeenChunk` adds what the header of the copied
chunk leaves open, and `visit_copy` puts the chunks together: a visit of the copy yields
publications of the run, whole, in the order of their addresses.

* **`live_copy`** — what a decoder returns for the copy.
-/

open Bytes Interleaving Copying

namespace Sub0Log.System

open Wire Reader Producer

variable {τ : Type}

/-! ### Earlier moments of a run -/

section Moments

variable [DecidableEq τ]

theorem hist_grows {s s' : State τ} (h : s.trace <+: s'.trace) (t : τ) :
    s.hist t <+: s'.hist t := List.IsPrefix.filter _ h

theorem claims_grow {s s' : State τ} (h : s.trace <+: s'.trace) {t : τ} {c : Nat}
    (hc : c ∈ claims (s.hist t)) : c ∈ claims (s'.hist t) :=
  (List.IsPrefix.filterMap _ (hist_grows h t)).subset hc

theorem writtenIn_grows {s s' : State τ} (h : s.trace <+: s'.trace) (seg : Segment) (c : Nat)
    (t : τ) : writtenIn seg c (s.hist t) <+: writtenIn seg c (s'.hist t) :=
  List.IsPrefix.filterMap _ (hist_grows h t)

variable {lg : Logger τ} {L : Launch lg} {calls : τ → List (Call lg)}
  {p q : Pool Op.Answer τ (State τ) Unit}

/-- Behind the claimed chunks the mapped bytes are zero. -/
theorem mapped_unclaimed (hp : Reachable (sem lg) (L.pool calls) p) {x : Nat}
    (h₁ : lg.segment.chunkBase (p.shared.claimedChunks lg.segment) ≤ x)
    (h₂ : x < lg.segment.segmentBytes) : p.shared.mapped x = 0 := by
  have hlayout := (Launch.reachable hp).1.layout
  rw [mapped_of_ge (L.setting calls) (le_trans (Nat.le_add_right _ _) h₁)]
  exact hlayout.unclaimed x h₁ h₂

/-- A chunk that is claimed by now was at every earlier moment consistent with what its
owner had published by then. -/
theorem consistent_before (hp : Reachable (sem lg) (L.pool calls) p)
    (hpq : Reachable (sem lg) p q) {t : τ} {c : Nat} (hc : c ∈ claims (q.shared.hist t)) :
    Consistent lg.segment c (lg.threadId t) (writtenIn lg.segment c (p.shared.hist t))
      p.shared.mapped := by
  have hlayout := (Launch.reachable hp).1.layout
  have hlater := (Launch.reachable (hp.trans hpq)).1.layout
  by_cases hclaimed : c ∈ claims (p.shared.hist t)
  · exact mapped_consistent hlayout hclaimed
  · -- nobody had claimed it: a chunk of zeros, which consists with no publications at all
    have hbehind : p.shared.claimedChunks lg.segment ≤ c := by
      refine Nat.le_of_not_lt fun hlt => hclaimed ?_
      obtain ⟨t', ht'⟩ := (hlayout.claimed c).mpr hlt
      obtain rfl : t' = t :=
        hlater.exclusive t' t c (claims_grow (trace_of_reachable hpq) ht') hc
      exact ht'
    have hcount : c < lg.segment.chunkCount :=
      lt_of_lt_of_le ((hlater.claimed c).mp ⟨t, hc⟩) (claimedChunks_le _ _)
    have hinside := L.sound.chunk_inside hcount
    have hbase : lg.segment.chunkBase (p.shared.claimedChunks lg.segment) ≤
        lg.segment.chunkBase c := Nat.add_le_add_left (Nat.mul_le_mul_right _ hbehind) _
    have hzero : ∀ x, lg.segment.InChunk c x → p.shared.mapped x = 0 := fun x hx =>
      mapped_unclaimed hp (le_trans hbase hx.1) (lt_of_lt_of_le hx.2 hinside)
    have hnone : writtenIn lg.segment c (p.shared.hist t) = [] :=
      Setting.writtenIn_eq_nil fun hcommit => hclaimed (hlayout.placed t c hcommit)
    have hgt := L.sound.chunkBytes_gt
    have hbody := L.sound.bodyBase_add c
    have hhead : lg.segment.bodyBase c = lg.segment.chunkBase c + sizeofChunkHeader := rfl
    rw [hnone]
    exact @consistent_nil _ _ _ _ L.sound 0
      (fun i hi => Or.inl (hzero _ ⟨Nat.le_add_right _ _, by omega⟩))
      fun x h₁ h₂ => hzero x ⟨by omega, h₂⟩

end Moments

/-! ### Chunks that grow -/

section Growth

variable {seg : Segment} {c : Nat} {owner : UInt64} {ws ws' : List Written} {m m' : Mem}

/-- More publications, more records. -/
theorem entries_grow (seg : Segment) (h : ws <+: ws') : seg.entries ws <+: seg.entries ws' := by
  obtain ⟨new, rfl⟩ := h
  induction new using List.reverseRecOn with
  | nil => rw [List.append_nil]
  | append_singleton new w ih =>
    rw [← List.append_assoc, entries_concat]
    exact ih.trans (List.prefix_append _ _)

theorem sizes_grow {es es' : List Entry} (h : es <+: es') : sizes es ≤ sizes es' := by
  obtain ⟨new, rfl⟩ := h
  rw [sizes_append]
  exact Nat.le_add_right _ _

theorem frontier_grows (seg : Segment) (c : Nat) (h : ws <+: ws') :
    seg.frontier c ws ≤ seg.frontier c ws' :=
  Nat.add_le_add_left (sizes_grow (entries_grow seg h)) _

/-- What was published is not written again: where the shorter list has its records, two
memories that show it agree. -/
theorem mem_of_growth (h : ws <+: ws')
    (hm : m.slice (seg.bodyBase c) (sizes (seg.entries ws)) = encode (seg.entries ws))
    (hm' : m'.slice (seg.bodyBase c) (sizes (seg.entries ws')) = encode (seg.entries ws'))
    {x : Nat} (h₁ : seg.bodyBase c ≤ x) (h₂ : x < seg.frontier c ws) : m x = m' x := by
  obtain ⟨new, hnew⟩ := entries_grow seg h
  rw [← hnew, sizes_append, Mem.slice_add, encode_append] at hm'
  have hfront := (List.append_inj hm' (by rw [Mem.slice_length, encode_length])).1
  exact Mem.eq_of_slice_eq (hm.trans hfront.symm) x h₁ h₂

/-- A record starts at a whole word. -/
theorem frontier_dvd (hs : seg.Sound) (c : Nat) (ws : List Written) : 8 ∣ seg.frontier c ws := by
  have hheader := hs.headerBytes_dvd
  have hchunk := Nat.dvd_mul_left_of_dvd hs.chunkBytes_dvd c
  have hsizes := sizes_dvd (seg.entries ws)
  show 8 ∣ seg.headerBytes + c * seg.chunkBytes + sizeofChunkHeader + sizes (seg.entries ws)
  unfold sizeofChunkHeader
  omega

end Growth

/-! ### The copy of a chunk -/

section Copies

variable [DecidableEq τ] {lg : Logger τ} {L : Launch lg} {calls : τ → List (Call lg)}

/-- The threads of a Logger run while a reader copies the segment. -/
abbrev LiveCopy (lg : Logger τ) :
    Reading (Pool Op.Answer τ (State τ) Unit) → Reading (Pool Op.Answer τ (State τ) Unit) →
    Prop :=
  Copies (Interleaving.Step (sem lg)) (fun p => p.shared.mapped) lg.segment.segmentBytes

/-- The moments of a live copy. -/
abbrev LiveMoments (L : Launch lg) (calls : τ → List (Call lg))
    (q : Reading (Pool Op.Answer τ (State τ) Unit))
    (moment : Nat → Pool Op.Answer τ (State τ) Unit) : Prop :=
  Moments (Interleaving.Step (sem lg)) (fun p => p.shared.mapped) lg.segment.segmentBytes
    (L.pool calls) q moment

variable {q : Reading (Pool Op.Answer τ (State τ) Unit)}
  {moment : Nat → Pool Op.Answer τ (State τ) Unit}

/-- The bytes of a copied chunk, each consistent with the publications of its own moment. -/
theorem moment_consistent (h : LiveMoments L calls q moment) {t : τ} {c : Nat}
    (hc : c ∈ claims (q.system.shared.hist t)) (k : Nat) :
    Consistent lg.segment c (lg.threadId t)
      (writtenIn lg.segment c ((moment k).shared.hist t)) (moment k).shared.mapped :=
  consistent_before (h.reached k) (h.now k) hc

/-- **The copy of a chunk is legible**, with the publications of one moment. -/
theorem legible_copy (h : LiveMoments L calls q moment)
    (hwhole : q.copied.length = lg.segment.segmentBytes) {t : τ} {c : Nat}
    (hc : c ∈ claims (q.system.shared.hist t)) (hcount : c < lg.segment.chunkCount) :
    ∃ k, Legible lg.segment c (writtenIn lg.segment c ((moment k).shared.hist t))
      (Mem.ofList q.copied) := by
  have hconsistent := moment_consistent h hc
  have hwritten : ∀ j k, j ≤ k → writtenIn lg.segment c ((moment j).shared.hist t) <+:
      writtenIn lg.segment c ((moment k).shared.hist t) := fun j k hjk =>
    writtenIn_grows (trace_of_reachable (h.ordered j k hjk)) _ _ _
  have hinside := L.sound.chunk_inside hcount
  have hbody := L.sound.bodyBase_add c
  have hbyte : ∀ x, x < lg.segment.chunkBase c + lg.segment.chunkBytes →
      Mem.ofList q.copied x = (moment (x / 8)).shared.mapped x :=
    fun x hx => h.mem (by omega)
  -- the walk of the copy stops where the log stood still for the reader
  obtain ⟨k, hfixed, hbelow⟩ := exists_stop
    (f := fun k => lg.segment.frontier c (writtenIn lg.segment c ((moment k).shared.hist t)))
    (n := lg.segment.bodyBase c + lg.segment.capacity)
    (fun j k hjk => frontier_grows _ _ (hwritten j k hjk))
    (fun k => Nat.le_add_right (lg.segment.bodyBase c) _)
    (fun k => Nat.add_le_add_left (hconsistent k).fits _)
  have hk := hconsistent k
  have hfits := hk.fits
  have hfront : lg.segment.frontier c (writtenIn lg.segment c ((moment k).shared.hist t)) =
      lg.segment.bodyBase c +
        sizes (lg.segment.entries (writtenIn lg.segment c ((moment k).shared.hist t))) := rfl
  refine ⟨k, hk.fits, ?_, hk.wf, fun hroom => ?_⟩
  · -- below the stop: each byte had been published when it was copied
    rw [← hk.content]
    refine Mem.slice_congr fun x h₁ h₂ => ?_
    have hlt := hbelow x h₁ (by omega)
    have hle : x / 8 ≤ k := by
      rw [← hfixed]
      exact Nat.div_le_div_right (by omega)
    rw [hbyte x (by omega)]
    exact mem_of_growth (hwritten _ _ hle) (hconsistent _).content hk.content h₁ hlt
  · -- the word at the stop: all of it from the moment that had published no more
    have hdvd := frontier_dvd L.sound c (writtenIn lg.segment c ((moment k).shared.hist t))
    have hword : (Mem.ofList q.copied).word (lg.segment.frontier c
          (writtenIn lg.segment c ((moment k).shared.hist t))) 8 =
        (moment k).shared.mapped.word (lg.segment.frontier c
          (writtenIn lg.segment c ((moment k).shared.hist t))) 8 := by
      refine Mem.word_congr fun x h₁ h₂ => ?_
      have hx : x / 8 = k := by
        change lg.segment.frontier c (writtenIn lg.segment c ((moment k).shared.hist t)) / 8 = k
          at hfixed
        omega
      rw [hbyte x (by omega), hx]
    rw [hword]
    exact (Legible.of_consistent hk).stop hroom

/-- The class byte of a copied chunk is that of the segment or not stamped yet. -/
theorem class_of_copy (h : LiveMoments L calls q moment)
    (hwhole : q.copied.length = lg.segment.segmentBytes) {t : τ} {c : Nat}
    (hc : c ∈ claims (q.system.shared.hist t)) (hcount : c < lg.segment.chunkCount) :
    Mem.ofList q.copied (lg.segment.chunkBase c + 28) = 0 ∨
      Mem.ofList q.copied (lg.segment.chunkBase c + 28) = lg.segment.sizeClass := by
  have hinside := L.sound.chunk_inside hcount
  have hgt := L.sound.chunkBytes_gt
  unfold sizeofChunkHeader at hgt
  rw [h.mem (by omega)]
  exact class_of_consistent (moment_consistent h hc _)

/-- The header of the segment is stored before the run. -/
theorem headed_copy (h : LiveMoments L calls q moment)
    (hwhole : q.copied.length = lg.segment.segmentBytes) :
    lg.segment.Headed L.header (Mem.ofList q.copied) := by
  have hcursor := L.sound.cursor_inside
  have hfits := L.sound.segmentBytes_ge
  refine L.fresh.toHeaded.congr fun x hx => ?_
  have hin : x < q.copied.length := by
    unfold sizeofSegmentHeader at hx
    unfold cCompactSegmentHeaderBytes cNextChunkOffset at hcursor
    omega
  have hheaded := (Launch.reachable (h.reached (x / 8))).1.layout.headed
  have hbytes := hheaded.header_bytes.trans L.fresh.header_bytes.symm
  rw [h.mem hin, mapped_of_lt hx]
  exact Mem.eq_of_slice_eq hbytes x (Nat.zero_le x) (by omega)

/-- Chunks nobody has claimed by now are zeros in the copy. -/
theorem zero_of_copy (h : LiveMoments L calls q moment) {x : Nat}
    (hwhole : q.copied.length = lg.segment.segmentBytes)
    (h₁ : lg.segment.chunkBase (q.system.shared.claimedChunks lg.segment) ≤ x)
    (h₂ : x < lg.segment.segmentBytes) : Mem.ofList q.copied x = 0 := by
  rw [h.mem (by omega)]
  refine mapped_unclaimed (h.reached _) (le_trans ?_ h₁) h₂
  -- a run claims more and more chunks
  refine Nat.add_le_add_left (Nat.mul_le_mul_right _ (Nat.le_of_not_lt fun hlt => ?_)) _
  have hthen := (Launch.reachable (h.reached (x / 8))).1.layout
  have hnow := (Launch.reachable ((h.reached (x / 8)).trans (h.now _))).1.layout
  obtain ⟨t, ht⟩ := (hthen.claimed _).mpr hlt
  have hclaimed := claims_grow (trace_of_reachable (h.now (x / 8))) ht
  exact Nat.lt_irrefl _ ((hnow.claimed _).mp ⟨t, hclaimed⟩)

/-- The owner the copied header of chunk `c` names. -/
def copiedOwner (seg : Segment) (copied : List UInt8) (c : Nat) : UInt64 :=
  (Geometry.headerAt (Mem.ofList copied) (seg.chunkBase c)).ownerThread

/-- A chunk header that passes the checks of a visit. -/
def Passes (seg : Segment) (h : ChunkHeader) : Prop :=
  h.corrupt = false ∧ h.generation = seg.generation

omit [DecidableEq τ] in
/-- Which owner a legible chunk is read under, and whether it is read at all, is up to its
header. -/
theorem slotWalk_passes {seg : Segment} (hs : seg.Sound) {c : Nat} {ws : List Written} {m : Mem}
    (hcount : c < seg.chunkCount)
    (hclass : m (seg.chunkBase c + 28) = 0 ∨ m (seg.chunkBase c + 28) = seg.sizeClass)
    (h : Legible seg c ws m) :
    (Passes seg (Geometry.headerAt m (seg.chunkBase c)) ∧ (slotWalk hs m c).records =
        chunkViews seg c (Geometry.headerAt m (seg.chunkBase c)).ownerThread ws) ∨
      (¬Passes seg (Geometry.headerAt m (seg.chunkBase c)) ∧ (slotWalk hs m c).records = []) := by
  have hinside := hs.chunk_inside hcount
  have hgt := hs.chunkBytes_gt
  have hheader : Geometry.headerAt (image seg m).mem (seg.chunkBase c) =
      Geometry.headerAt m (seg.chunkBase c) := by
    unfold Geometry.headerAt
    rw [image_slice m (by omega)]
  have hslot := slot_chunk hs (image seg m).mem hcount
  rw [hheader] at hslot
  by_cases hpasses : Passes seg (Geometry.headerAt m (seg.chunkBase c))
  · refine Or.inl ⟨hpasses, ?_⟩
    obtain ⟨hcorrupt, hgeneration⟩ := hpasses
    have himage : Legible seg c ws (image seg m).mem :=
      h.congr hs fun x hx => image_mem m (by have := hx.2; omega)
    have hjudge : (geometry hs).judge (Geometry.headerAt m (seg.chunkBase c)) =
        .current (Geometry.headerAt m (seg.chunkBase c)).ownerThread seg.chunkBytes := by
      rw [← headerAt_class m] at hclass
      have hmatch : ¬seg.generation ≠ (geometry hs).generation := not_not_intro rfl
      unfold Geometry.judge
      rw [hcorrupt, hgeneration, if_neg Bool.false_ne_true, if_neg hs.generation_ne,
        if_neg hmatch, classBytes_eq hs hclass]
    have hend : (geometry hs).bodyEnd seg.segmentBytes (seg.chunkBase c) seg.chunkBytes =
        seg.chunkBase c + seg.chunkBytes := by
      unfold Geometry.bodyEnd geometry
      simp only
      omega
    unfold slotWalk Geometry.walkSlot
    rw [hslot, hjudge]
    simp only [hend, Walk.records, List.flatMap_cons, List.flatMap_nil, List.append_nil]
    exact himage.views hs _
  · refine Or.inr ⟨hpasses, ?_⟩
    unfold slotWalk Geometry.walkSlot
    rw [hslot]
    cases hjudge : (geometry hs).judge (Geometry.headerAt m (seg.chunkBase c)) with
    | headless | refused | unclaimed => rfl
    | current owner bytes =>
      obtain ⟨hcorrupt, -, hgeneration, -⟩ := (geometry hs).judge_current hjudge
      exact absurd ⟨hcorrupt, hgeneration⟩ hpasses

/-- The header of chunk `c` as it was copied. -/
def copiedHeader (seg : Segment) (copied : List UInt8) (c : Nat) : ChunkHeader :=
  Geometry.headerAt (Mem.ofList copied) (seg.chunkBase c)

/-- The first record of chunk `c` was copied with its commit tag. -/
def CopiedRecord (seg : Segment) (copied : List UInt8) (c : Nat) : Prop :=
  RecordHead.isCommitted ((Mem.ofList copied).word (seg.bodyBase c) 8) = true

/-- Chunk `c` of a copy, as a visit sees it: publications of the thread that claimed it,
those it had made by some moment, under the owner that was copied. There are any when the
copied header passes and the first record is there. -/
structure SeenChunk (hs : lg.segment.Sound) (q : Reading (Pool Op.Answer τ (State τ) Unit))
    (c : Nat) (ws : List Written) : Prop where
  grows : ∃ t, c ∈ claims (q.system.shared.hist t) ∧
    ws <+: writtenIn lg.segment c (q.system.shared.hist t)
  wf : ∀ e ∈ lg.segment.entries ws, e.Wf
  fits : sizes (lg.segment.entries ws) ≤ lg.segment.capacity
  records : (slotWalk hs (Mem.ofList q.copied) c).records =
    chunkViews lg.segment c (copiedHeader lg.segment q.copied c).ownerThread ws
  shown : ws ≠ [] ↔ Passes lg.segment (copiedHeader lg.segment q.copied c) ∧
    CopiedRecord lg.segment q.copied c

omit [DecidableEq τ] in
/-- A legible chunk has records when its first head word has the commit tag. -/
theorem copiedRecord_iff {copied : List UInt8} {c : Nat} {ws : List Written}
    (hs : lg.segment.Sound) (h : Legible lg.segment c ws (Mem.ofList copied)) :
    CopiedRecord lg.segment copied c ↔ ws ≠ [] := by
  have hdvd := hs.capacity_dvd
  have hpos := hs.capacity_pos
  cases ws with
  | nil =>
    have hstop := h.stop (show 0 + 8 ≤ lg.segment.capacity by omega)
    change RecordHead.isCommitted ((Mem.ofList copied).word (lg.segment.bodyBase c) 8) = false
      at hstop
    unfold CopiedRecord
    rw [hstop]
    exact ⟨(fun h => by cases h), fun h => absurd rfl h⟩
  | cons w ws =>
    refine ⟨fun _ => List.cons_ne_nil _ _, fun _ => ?_⟩
    obtain ⟨e, es, hentries⟩ : ∃ e es, lg.segment.entries (w :: ws) = e :: es := by
      have hsizes := entries_pos lg.segment.capacity (UInt16.ofNat 0) w
      unfold Segment.entries
      rw [layout]
      cases hw : w.entries lg.segment.capacity (UInt16.ofNat 0) with
      | nil =>
        rw [hw, sizes_nil] at hsizes
        omega
      | cons e es => exact ⟨e, _, rfl⟩
    have hcontent := h.content
    rw [hentries] at hcontent
    have hhead := word_of_place hcontent (List.mem_cons_self : (_, e) ∈ place _ (e :: es))
    unfold CopiedRecord
    rw [hhead]
    exact RecordHead.isCommitted_pack _

/-- **What a visit makes of a copied chunk.** -/
theorem seen_chunk (h : LiveMoments L calls q moment)
    (hwhole : q.copied.length = lg.segment.segmentBytes) {t : τ} {c : Nat}
    (hc : c ∈ claims (q.system.shared.hist t)) (hcount : c < lg.segment.chunkCount) :
    ∃ ws, SeenChunk L.sound q c ws := by
  obtain ⟨k, hlegible⟩ := legible_copy h hwhole hc hcount
  have hrecord := copiedRecord_iff L.sound hlegible
  rcases slotWalk_passes L.sound hcount (class_of_copy h hwhole hc hcount) hlegible with
    ⟨hpasses, hviews⟩ | ⟨hfails, hnone⟩
  · refine ⟨_, ⟨t, hc, writtenIn_grows (trace_of_reachable (h.now k)) _ _ _⟩, hlegible.wf,
      hlegible.fits, hviews, ?_⟩
    rw [← hrecord]
    exact ⟨fun hcopied => ⟨hpasses, hcopied⟩, fun hboth => hboth.2⟩
  · -- a header that was copied too early hides what is behind it
    refine ⟨[], ⟨t, hc, List.nil_prefix⟩, (fun e he => by cases he), Nat.zero_le _, ?_,
      fun hne => absurd rfl hne, fun hboth => absurd hboth.1 hfails⟩
    rw [hnone, chunkViews_nil]

end Copies

/-! ### The visit of a copy -/

section Visits

variable {seg : Segment} {c : Nat} {owner : UInt64} {ws ws' : List Written}

/-- The publications that are there already keep their places. -/
theorem shownFrom_append (a n : Nat) (ws ws' : List Written) :
    ∃ a' n', shownFrom seg c owner a n (ws ++ ws') =
      shownFrom seg c owner a n ws ++ shownFrom seg c owner a' n' ws' := by
  induction ws generalizing a n with
  | nil => exact ⟨a, n, rfl⟩
  | cons w ws ih =>
    obtain ⟨a', n', hrest⟩ := ih (a + sizes (w.entries seg.capacity (UInt16.ofNat n)))
      (n + (w.entries seg.capacity (UInt16.ofNat n)).length)
    refine ⟨a', n', ?_⟩
    rw [List.cons_append, shownFrom, hrest, shownFrom, List.cons_append]

theorem shownIn_of_growth (h : ws <+: ws') {p : Shown} (hp : p ∈ shownIn seg c owner ws) :
    p ∈ shownIn seg c owner ws' := by
  obtain ⟨new, rfl⟩ := h
  obtain ⟨a', n', happend⟩ := @shownFrom_append seg c owner (seg.bodyBase c) 0 ws new
  unfold shownIn at hp ⊢
  rw [happend]
  exact List.mem_append_left _ hp

/-- The owner is a label on the publications. -/
theorem shownFrom_owner (owner owner' : UInt64) (a n : Nat) (ws : List Written) :
    shownFrom seg c owner' a n ws =
      (shownFrom seg c owner a n ws).map fun p => { p with owner := owner' } := by
  induction ws generalizing a n with
  | nil => rfl
  | cons w ws ih => rw [shownFrom, ih, shownFrom, List.map_cons]

/-- Chunk after chunk, publications go up through the segment. -/
theorem shown_pairwise (hs : seg.Sound) {k : Nat} {o : Nat → UInt64} {w : Nat → List Written}
    (hfits : ∀ c, c < k → sizes (seg.entries (w c)) ≤ seg.capacity) :
    ((List.range k).flatMap fun c => shownIn seg c (o c) (w c)).Pairwise
      fun p p' => p.address < p'.address := by
  have hin : ∀ c, c < k → ∀ p ∈ shownIn seg c (o c) (w c),
      seg.chunkBase c ≤ p.address ∧ p.address < seg.chunkBase c + seg.chunkBytes := by
    intro c hc p hp
    obtain ⟨-, -, hle, hend, -⟩ := mem_shownFrom hp
    have hbody := hs.bodyBase_add c
    have hpos := entries_pos seg.capacity p.sequence p.written
    change 8 ≤ sizes (p.entries seg.capacity) at hpos
    have hhead : seg.bodyBase c = seg.chunkBase c + sizeofChunkHeader := rfl
    have hsize : sizes (layout seg.capacity 0 (w c)) ≤ seg.capacity := hfits c hc
    exact ⟨by omega, by omega⟩
  rw [List.pairwise_flatMap]
  refine ⟨fun c _ => shownFrom_pairwise _ _, ?_⟩
  refine List.pairwise_lt_range.imp_of_mem fun {c c'} hc hc' hlt p hp p' hp' => ?_
  have hfirst := (hin c (List.mem_range.mp hc) p hp).2
  have hsecond := (hin c' (List.mem_range.mp hc') p' hp').1
  have hbase := seg.chunkBase_add_le hlt
  omega

end Visits

section Visits

variable [DecidableEq τ] {lg : Logger τ} {L : Launch lg} {calls : τ → List (Call lg)}
  {q : Reading (Pool Op.Answer τ (State τ) Unit)}
  {moment : Nat → Pool Op.Answer τ (State τ) Unit}

/-- The publications a copy shows, chunk after chunk. -/
def copyLog (seg : Segment) (copied : List UInt8) (k : Nat) (wss : Nat → List Written) :
    List Shown :=
  (List.range k).flatMap fun c => shownIn seg c (copiedHeader seg copied c).ownerThread (wss c)

/-- **A visit of a copy** yields what it shows of each claimed chunk. -/
theorem visit_copy (h : LiveMoments L calls q moment)
    (hwhole : q.copied.length = lg.segment.segmentBytes) :
    ∃ r v wss, openImage (image lg.segment (Mem.ofList q.copied)) = .ok r ∧ visit r = .ok v ∧
      v.records = (copyLog lg.segment q.copied (q.system.shared.claimedChunks lg.segment)
        wss).flatMap (Shown.views lg.segment.capacity) ∧
      ∀ c, c < q.system.shared.claimedChunks lg.segment → SeenChunk L.sound q c (wss c) := by
  have hlayout := (Launch.reachable ((h.reached 0).trans (h.now 0))).1.layout
  have hle := claimedChunks_le q.system.shared lg.segment
  have hseen : ∀ c, ∃ ws, c < q.system.shared.claimedChunks lg.segment →
      SeenChunk L.sound q c ws := by
    intro c
    by_cases hc : c < q.system.shared.claimedChunks lg.segment
    · obtain ⟨t, ht⟩ := (hlayout.claimed c).mpr hc
      obtain ⟨ws, hws⟩ := seen_chunk h hwhole ht (lt_of_lt_of_le hc hle)
      exact ⟨ws, fun _ => hws⟩
    · exact ⟨[], fun hlt => absurd hlt hc⟩
  choose wss hwss using hseen
  obtain ⟨v, hvisit, hrecords⟩ := visit_records L.sound (headed_copy h hwhole) hle
    (fun c hc => by
      obtain ⟨t, ht⟩ := (hlayout.claimed c).mpr hc
      exact class_of_copy h hwhole ht (lt_of_lt_of_le hc hle))
    (fun x h₁ h₂ => zero_of_copy h hwhole h₁ h₂)
  refine ⟨_, v, wss, openImage_image L.sound (headed_copy h hwhole), hvisit, ?_, hwss⟩
  rw [hrecords, copyLog, List.flatMap_assoc]
  refine List.flatMap_congr fun c hc => ?_
  rw [(hwss c (List.mem_range.mp hc)).records, chunkViews_eq]

/-- What a copy shows of a chunk was published in it, and is read under the owner that was
copied. -/
theorem mem_copyLog (hlayout : (L.setting calls).Layout q.system.shared)
    {wss : Nat → List Written} (hwss : ∀ c, c < q.system.shared.claimedChunks lg.segment →
      SeenChunk L.sound q c (wss c)) {p : Shown}
    (hp : p ∈ copyLog lg.segment q.copied (q.system.shared.claimedChunks lg.segment) wss) :
    p.chunk < q.system.shared.claimedChunks lg.segment ∧ wss p.chunk ≠ [] ∧
      p.owner = (copiedHeader lg.segment q.copied p.chunk).ownerThread ∧
      (∃ t, (t, { p with owner := lg.threadId t }) ∈ log lg q.system.shared) ∧
      ∀ e ∈ p.entries lg.segment.capacity, e.Wf := by
  obtain ⟨c, hc, hmem⟩ := List.mem_flatMap.mp hp
  have hlt := List.mem_range.mp hc
  obtain ⟨⟨t, ht, hgrows⟩, hwf, -⟩ := hwss c hlt
  obtain ⟨hchunk, howner, -, -, hentries⟩ := mem_shownFrom hmem
  have hne : wss c ≠ [] := by
    rintro hnil
    rw [hnil] at hmem
    cases hmem
  refine ⟨by rwa [hchunk], by rwa [hchunk], by rw [howner, hchunk], ⟨t, ?_⟩,
    fun e he => hwf e (hentries e he)⟩
  refine (mem_log hlayout).mpr ⟨?_, ?_⟩
  · show p.chunk ∈ _
    rwa [hchunk]
  · show _ ∈ shownIn lg.segment p.chunk _ (writtenIn lg.segment p.chunk _)
    rw [hchunk]
    refine shownIn_of_growth hgrows ?_
    unfold shownIn at hmem ⊢
    rw [shownFrom_owner (copiedHeader lg.segment q.copied c).ownerThread]
    exact List.mem_map.mpr ⟨p, hmem, by rw [← hchunk]; rfl⟩

end Visits

/-! ### A copy that meets a stamp -/

/-- One emit of a plain site. -/
def stampedEmit (_ : Unit) : List (Call (smallLogger 1 plainSite)) := [plainEmit 1 0]

/-- The only chunk is claimed and the generation in its header stored. -/
def stampBegun : Pool Op.Answer Unit (State Unit) Unit :=
  runOps (smallLogger 1 plainSite) () 14 ((smallLaunch one_chunk plainSite).pool stampedEmit)

/-- Up to here the reader copies: the two headers. -/
def headersCopied : Reading (Pool Op.Answer Unit (State Unit) Unit) :=
  copyWords (fun p => p.shared.mapped) 320 28 ⟨stampBegun, []⟩

/-- The emit is completed, then the rest is copied. -/
def midStamp : Reading (Pool Op.Answer Unit (State Unit) Unit) :=
  copyWords (fun p => p.shared.mapped) 320 12
    ⟨runThread (smallLogger 1 plainSite) () headersCopied.system, headersCopied.copied⟩

theorem midStamp_live : LiveCopy (smallLogger 1 plainSite)
    ⟨(smallLaunch (by decide) plainSite).pool stampedEmit, []⟩ midStamp := by
  have hbegun : LiveCopy (smallLogger 1 plainSite)
      ⟨(smallLaunch (by decide) plainSite).pool stampedEmit, []⟩ ⟨stampBegun, []⟩ :=
    Copies.of_run (runOps_reachable (smallLogger 1 plainSite) () 14 _).reachable
  have hheaders : LiveCopy (smallLogger 1 plainSite) ⟨stampBegun, []⟩ headersCopied :=
    copyWords_copies _ _ _ _ _
  have hemitted : LiveCopy (smallLogger 1 plainSite) headersCopied
      ⟨runThread (smallLogger 1 plainSite) () headersCopied.system, headersCopied.copied⟩ :=
    Copies.of_run (runThread_reachable (smallLogger 1 plainSite) () _).reachable
  have hrest : LiveCopy (smallLogger 1 plainSite)
      ⟨runThread (smallLogger 1 plainSite) () headersCopied.system, headersCopied.copied⟩
      midStamp := copyWords_copies _ _ _ _ _
  exact ((hbegun.trans hheaders).trans hemitted).trans hrest

theorem midStamp_whole :
    midStamp.copied.length = (smallLogger 1 plainSite).segment.segmentBytes := by
  decide +kernel

/-! ### Decoding a copy -/

/-- The publications a decoder returns a record for: Messages whose site is defined among
them. -/
def returned (capacity : Nat) (ps : List Shown) : List Shown :=
  ps.filter fun p => (messageOf p.written).isSome &&
    !p.undefined (ps.filterMap (Shown.site? capacity))

/-- The Messages it cannot decode. -/
def undecodable (capacity : Nat) (ps : List Shown) : List Shown :=
  ps.filter (Shown.undefined (ps.filterMap (Shown.site? capacity)))

/-- A Message cannot be decoded when none of the publications defines its site. -/
theorem mem_undecodable {capacity : Nat} {ps : List Shown} {p : Shown} :
    p ∈ undecodable capacity ps ↔ p ∈ ps ∧ ∃ e, p.written = .message e ∧
      ∀ p' ∈ ps, ∀ d, p'.written = .definition d → d.siteId ≠ e.siteId := by
  unfold undecodable
  rw [List.mem_filter]
  refine and_congr_right fun _ => ?_
  unfold Shown.undefined
  cases hp : p.written with
  | definition d => exact ⟨(fun h => by cases h), fun ⟨e, he, _⟩ => by cases he⟩
  | subsystem id name => exact ⟨(fun h => by cases h), fun ⟨e, he, _⟩ => by cases he⟩
  | message e =>
    show (siteFor (ps.filterMap (Shown.site? capacity)) e.siteId).isNone = true ↔ _
    unfold siteFor
    rw [Option.isNone_iff_eq_none, List.find?_eq_none]
    constructor
    · intro hnone
      refine ⟨e, rfl, fun p' hp' d hd heq => hnone (shownSite d (d.lengths capacity).1
        (d.lengths capacity).2.1) (List.mem_filterMap.mpr ⟨p', hp', ?_⟩) ?_⟩
      · unfold Shown.site?
        rw [hd]
      · exact beq_iff_eq.mpr heq
    · rintro ⟨e', he', hnone⟩ site hsite
      obtain rfl : e = e' := Written.message.inj he'
      obtain ⟨p', hp', hdefines⟩ := List.mem_filterMap.mp hsite
      unfold Shown.site? at hdefines
      cases hd : p'.written with
      | message _ => rw [hd] at hdefines; cases hdefines
      | subsystem _ _ => rw [hd] at hdefines; cases hdefines
      | definition d =>
        rw [hd] at hdefines
        obtain rfl := Option.some.inj hdefines
        exact fun heq => hnone p' hp' d hd (beq_iff_eq.mp heq)

/-- `rec` is the Message of `p`, decoded. -/
def Shown.Returns (lg : Logger τ) (p : Shown) (rec : DecodedRecord) : Prop :=
  ∃ e, p.written = .message e ∧ Delivers lg e rec ∧ rec.ownerThread = p.owner ∧
    rec.recordOffset = p.address

/-- A decoder returns the Messages whose sites are defined, in order, and counts the
others. -/
theorem decode_stream {S : Setting τ} (hone : S.OneDefinition) {ps : List Shown}
    (hexpected : ∀ p ∈ ps, S.Expected p.written)
    (hwf : ∀ p ∈ ps, ∀ e ∈ p.entries S.lg.segment.capacity, e.Wf) {r : SegmentReader} {v : Visit}
    (hvisit : visit r = .ok v)
    (hrecords : v.records = ps.flatMap (Shown.views S.lg.segment.capacity)) :
    ∃ recs d, decodeAll Decoder.fresh r = .ok (recs, d) ∧
      List.Forall₂ (Shown.Returns S.lg) (returned S.lg.segment.capacity ps) recs ∧
      d.undecodable = (undecodable S.lg.segment.capacity ps).length := by
  obtain ⟨d, hdecode, hundecodable, -⟩ := decodeAll_shown hvisit hrecords fun p hp =>
    decodable_of_expected hone hexpected hp (hwf p hp)
  refine ⟨_, d, hdecode, ?_, ?_⟩
  · unfold returned
    rw [← List.filterMap_eq_filter]
    refine forall₂_filterMap fun p hp => ?_
    unfold Shown.record? Shown.undefined
    cases hwritten : p.written with
    | definition d => exact Or.inl ⟨by simp [hwritten, messageOf], rfl⟩
    | subsystem id name => exact Or.inl ⟨by simp [hwritten, messageOf], rfl⟩
    | message e =>
      cases hsite : siteFor (ps.filterMap (Shown.site? S.lg.segment.capacity)) e.siteId with
      | none => exact Or.inl ⟨by simp [hwritten, messageOf, hsite], by simp [hsite]⟩
      | some site =>
        obtain rfl := siteFor_published hone hexpected hsite
        exact Or.inr ⟨p, _, by simp [hwritten, messageOf, hsite], by simp only [hsite]; rfl,
          e, hwritten, ⟨rfl, rfl, rfl, rfl, rfl⟩, rfl, rfl⟩
  · rw [hundecodable, List.countP_eq_length_filter]
    rfl

section Decoding

variable [DecidableEq τ]

omit [DecidableEq τ] in
/-- Records have the order of their publications. -/
theorem returns_pairwise {lg : Logger τ} {ps : List Shown} {recs : List DecodedRecord}
    (h : List.Forall₂ (Shown.Returns lg) ps recs)
    (hsorted : ps.Pairwise fun p p' => p.address < p'.address) :
    recs.Pairwise fun rec rec' => rec.recordOffset < rec'.recordOffset := by
  induction h with
  | nil => exact List.Pairwise.nil
  | cons hrec hrest ih =>
    obtain ⟨hfirst, hothers⟩ := List.pairwise_cons.mp hsorted
    refine List.pairwise_cons.mpr ⟨fun rec' hrec' => ?_, ih hothers⟩
    obtain ⟨p', hp', -, -, -, -, hoffset'⟩ := mem_of_forall₂ hrest hrec'
    obtain ⟨-, -, -, -, hoffset⟩ := hrec
    rw [hoffset, hoffset']
    exact hfirst p' hp'

/-- Every Message in the log is that of an emit of its thread. -/
theorem emit_of_log {S : Setting τ} {s : State τ} (h : S.Inv s) {t : τ} {p : Shown} {e : Emission}
    (hp : (t, p) ∈ log S.lg s) (he : p.written = .message e) :
    ∃ emit ∈ S.emits t, S.lg.OutcomeOf emit (.written e) := by
  obtain ⟨a, ha⟩ := committed_of_log h.layout hp
  rw [he] at ha
  exact emit_of_committed h ha

omit [DecidableEq τ] in
/-- The image of a whole copy has its bytes. -/
theorem copy_bytes {seg : Segment} {copied : List UInt8} (h : copied.length = seg.segmentBytes) :
    (image seg (Mem.ofList copied)).bytes = copied := by
  show (Mem.ofList copied).slice 0 seg.segmentBytes = copied
  rw [Mem.slice_ofList (by rw [h, Nat.zero_add]), List.drop_zero, ← h, List.take_length]

end Decoding

end Sub0Log.System
