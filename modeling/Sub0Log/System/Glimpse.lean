import Sub0Log.Library.InPlace
import Sub0Log.System.Live
import Sub0Log.System.Stamps

/-!
# What a reader sees of a running segment

A reader of a segment that threads are writing has some bytes of it, no two of which need be of
one moment of the run. What a visit and a decoder make of them follows from little (`Glimpse`):
every byte is of some moment of the reading, and the body of a chunk shows what had been published
in it at one of them. A copy is a `Glimpse` (`glimpse_of_copy`), and so is what a reader in place
has loaded.

What had been published before the reading began is seen, under the owner that published it: the
header of such a chunk is never stored into again (`stamp_stays`).

* **`Glimpse.decode`** — what a decoder returns for what was seen.
-/

open Bytes Checked Interleaving InPlace Copying

namespace Sub0Log.System

open Wire Reader Producer

variable {τ : Type} [DecidableEq τ] {lg : Logger τ} {L : Launch lg} {calls : τ → List (Call lg)}

/-! ### Publications stay -/

section Published

variable {p q s e : Pool Op.Answer τ (State τ) Unit} {t : τ} {c : Nat}

/-- What thread `t` has published in chunk `c` in state `s` of a run. -/
abbrev publishedIn (lg : Logger τ) (c : Nat) (t : τ) (s : Pool Op.Answer τ (State τ) Unit) :
    List Written :=
  writtenIn lg.segment c (s.shared.hist t)

theorem publishedIn_grows (h : Reachable (sem lg) s e) :
    publishedIn lg c t s <+: publishedIn lg c t e :=
  writtenIn_grows (trace_of_reachable h) _ _ _

/-- Published bytes stay as they are. -/
theorem published_stays (hs : Reachable (sem lg) (L.pool calls) s) (hse : Reachable (sem lg) s e)
    (heq : Reachable (sem lg) e q) (hc : c ∈ claims (q.shared.hist t)) {x : Nat}
    (h₁ : lg.segment.bodyBase c ≤ x) (h₂ : x < lg.segment.frontier c (publishedIn lg c t s)) :
    e.shared.mapped x = s.shared.mapped x :=
  (mem_of_growth (publishedIn_grows hse) (consistent_before hs (hse.trans heq) hc).content
    (consistent_before (hs.trans hse) heq hc).content h₁ h₂).symm

/-- A run claims more and more chunks. -/
theorem claimedChunks_grows (hp : Reachable (sem lg) (L.pool calls) p)
    (hpq : Reachable (sem lg) p q) :
    p.shared.claimedChunks lg.segment ≤ q.shared.claimedChunks lg.segment := by
  refine Nat.le_of_not_lt fun hlt => ?_
  have hthen := (Launch.reachable hp).1.layout
  have hnow := (Launch.reachable (hp.trans hpq)).1.layout
  obtain ⟨t, ht⟩ := (hthen.claimed _).mpr hlt
  exact Nat.lt_irrefl _ ((hnow.claimed _).mp ⟨t, claims_grow (trace_of_reachable hpq) ht⟩)

end Published

/-! ### Bytes of a run -/

section Moments

variable {p q : Pool Op.Answer τ (State τ) Unit} {m : Mem}

/-- Every byte of the segment in `m` is of a moment between `p` and `q`. -/
abbrev FromMoments (lg : Logger τ) (p q : Pool Op.Answer τ (State τ) Unit) (m : Mem) : Prop :=
  ∀ x, x < lg.segment.segmentBytes →
    Between (Interleaving.Step (sem lg)) (fun p => p.shared.mapped) p q x (m x)

omit [DecidableEq τ] in
/-- The class byte of a chunk lies in the segment. -/
theorem class_inside {seg : Segment} (hs : seg.Sound) {c : Nat} (hc : c < seg.chunkCount) :
    seg.chunkBase c + 28 < seg.segmentBytes := by
  have hchunk := hs.chunk_inside hc
  have hgt := hs.chunkBytes_gt
  unfold sizeofChunkHeader at hgt
  omega

theorem headed_of_moments (hp : Reachable (sem lg) (L.pool calls) p)
    (hfrom : FromMoments lg p q m) : lg.segment.Headed L.header m := by
  have hcursor := L.sound.cursor_inside
  have hsegment := L.sound.segmentBytes_ge
  refine L.fresh.toHeaded.congr fun x hx => ?_
  have hin : x < lg.segment.segmentBytes := by
    unfold sizeofSegmentHeader at hx
    unfold cCompactSegmentHeaderBytes cNextChunkOffset at hcursor
    omega
  obtain ⟨k, hpk, -, hk⟩ := hfrom x hin
  have hheaded := (Launch.reachable (hp.trans hpk)).1.layout.headed
  have hbytes := hheaded.header_bytes.trans L.fresh.header_bytes.symm
  rw [hk]
  exact (mapped_of_lt hx).trans (Mem.eq_of_slice_eq hbytes x (Nat.zero_le x) (by omega))

theorem class_of_moments (hp : Reachable (sem lg) (L.pool calls) p)
    (hfrom : FromMoments lg p q m) {t : τ} {c : Nat} (hc : c ∈ claims (q.shared.hist t))
    (hcount : c < lg.segment.chunkCount) :
    m (lg.segment.chunkBase c + 28) = 0 ∨
      m (lg.segment.chunkBase c + 28) = lg.segment.sizeClass := by
  obtain ⟨k, hpk, hkq, hk⟩ := hfrom _ (class_inside L.sound hcount)
  rw [hk]
  exact class_of_consistent (consistent_before (hp.trans hpk) hkq hc)

theorem zero_of_moments (hp : Reachable (sem lg) (L.pool calls) p)
    (hfrom : FromMoments lg p q m) {x : Nat}
    (h₁ : lg.segment.chunkBase (q.shared.claimedChunks lg.segment) ≤ x)
    (h₂ : x < lg.segment.segmentBytes) : m x = 0 := by
  obtain ⟨k, hpk, hkq, hk⟩ := hfrom x h₂
  rw [hk]
  refine mapped_unclaimed (hp.trans hpk) (le_trans ?_ h₁) h₂
  exact Nat.add_le_add_left (Nat.mul_le_mul_right _ (claimedChunks_grows (hp.trans hpk) hkq)) _

/-- The slots of such a memory have one size. -/
theorem uniform_of_moments (hp : Reachable (sem lg) (L.pool calls) p)
    (hpq : Reachable (sem lg) p q) (hfrom : FromMoments lg p q m) :
    (geometry L.sound).UniformSlots m := by
  have hlayout := (Launch.reachable (hp.trans hpq)).1.layout
  have hle := claimedChunks_le q.shared lg.segment
  refine uniformSlots_of_class L.sound fun i hi havail => ?_
  obtain ⟨hsegment, -⟩ := (geometry L.sound).le_of_available havail
  change _ ≤ lg.segment.segmentBytes at hsegment
  unfold sizeofChunkHeader at hsegment
  rw [headerAt_class]
  by_cases hclaimed : i < q.shared.claimedChunks lg.segment
  · obtain ⟨t, ht⟩ := (hlayout.claimed i).mpr hclaimed
    exact class_of_moments hp hfrom ht (lt_of_lt_of_le hclaimed hle)
  · have hbase : lg.segment.chunkBase (q.shared.claimedChunks lg.segment) ≤
        lg.segment.chunkBase i :=
      Nat.add_le_add_left (Nat.mul_le_mul_right _ (Nat.le_of_not_lt hclaimed)) _
    exact Or.inl (zero_of_moments hp hfrom (by omega) (by omega))

/-- The header of a chunk that showed something at the start is seen as it was stamped. -/
theorem header_of_moments (hp : Reachable (sem lg) (L.pool calls) p)
    (hfrom : FromMoments lg p q m) {t : τ} {c : Nat} (hc : c ∈ claims (q.shared.hist t))
    (hcount : c < lg.segment.chunkCount) (hpq : Reachable (sem lg) p q)
    (hne : publishedIn lg c t p ≠ []) :
    ∃ time, Geometry.headerAt m (lg.segment.chunkBase c) =
      lg.segment.chunkHeader (lg.threadId t) time := by
  obtain ⟨time, -, hstamped⟩ := (consistent_before hp hpq hc).header
  have hcommitted : c ∈ commitChunks lg.segment (p.shared.hist t) := by
    by_contra hnone
    exact hne (Setting.writtenIn_eq_nil hnone)
  have hgt := L.sound.chunkBytes_gt
  have hinside := L.sound.chunk_inside hcount
  refine ⟨time, ?_⟩
  have hsame : m.slice (lg.segment.chunkBase c) sizeofChunkHeader =
      p.shared.mapped.slice (lg.segment.chunkBase c) sizeofChunkHeader := by
    refine Mem.slice_congr fun x h₁ h₂ => ?_
    obtain ⟨k, hpk, -, hk⟩ := hfrom x (by omega)
    have hin : lg.segment.InChunk c x := ⟨h₁, by omega⟩
    have hstays := stamp_stays hp hpk hcommitted (i := x - lg.segment.chunkBase c) (by omega)
    rw [Nat.add_sub_of_le h₁] at hstays
    rw [hk]
    exact (mapped_inChunk (L.setting calls) hin).trans
      (hstays.trans (mapped_inChunk (L.setting calls) hin).symm)
  unfold Geometry.headerAt
  rw [hsame, hstamped hne, ChunkHeader.ofBytes_toBytes]

end Moments

/-! ### Headers -/

section Headers

variable {seg : Segment} {m : Mem}

/-- A header that passes makes its slot a chunk. -/
theorem judge_passes (hs : seg.Sound) {head : ChunkHeader}
    (hclass : head.chunkSizeClass = 0 ∨ head.chunkSizeClass = seg.sizeClass)
    (h : Passes seg head) : (geometry hs).judge head = .current head.ownerThread seg.chunkBytes := by
  obtain ⟨hcorrupt, hgeneration⟩ := h
  have hmatch : ¬seg.generation ≠ (geometry hs).generation := not_not_intro rfl
  unfold Geometry.judge
  rw [hcorrupt, hgeneration, if_neg Bool.false_ne_true, if_neg hs.generation_ne, if_neg hmatch,
    classBytes_eq hs hclass]

theorem passes_chunkHeader (hs : seg.Sound) (owner time : UInt64) :
    Passes seg (seg.chunkHeader owner time) := by
  obtain ⟨hcorrupt, -, hgeneration, -⟩ :=
    (geometry hs).judge_current (judge_chunkHeader hs owner time)
  exact ⟨hcorrupt, hgeneration⟩

/-- One that fails hides its chunk. -/
theorem slotWalk_fails (hs : seg.Sound) {c : Nat} (hcount : c < seg.chunkCount)
    (h : ¬Passes seg (Geometry.headerAt m (seg.chunkBase c))) : (slotWalk hs m c).records = [] := by
  have hinside := hs.chunk_inside hcount
  have hgt := hs.chunkBytes_gt
  have hheader : Geometry.headerAt (image seg m).mem (seg.chunkBase c) =
      Geometry.headerAt m (seg.chunkBase c) := by
    unfold Geometry.headerAt
    rw [image_slice m (by omega)]
  unfold slotWalk Geometry.walkSlot
  rw [slot_chunk hs _ hcount, hheader]
  cases hjudge : (geometry hs).judge (Geometry.headerAt m (seg.chunkBase c)) with
  | headless | refused | unclaimed => rfl
  | current owner bytes =>
    obtain ⟨hcorrupt, -, hgeneration, -⟩ := (geometry hs).judge_current hjudge
    exact absurd ⟨hcorrupt, hgeneration⟩ h

end Headers

/-! ### Glimpses -/

section Glimpses

/-- What a reader has of a segment that runs from `p` on: bytes of moments of the run, and of a
claimed chunk whose header passes, what had been published in it at one moment. -/
structure Glimpse (lg : Logger τ) (p : Pool Op.Answer τ (State τ) Unit)
    (q : Reading (Pool Op.Answer τ (State τ) Unit)) : Prop where
  runs : Reachable (sem lg) p q.system
  whole : q.copied.length = lg.segment.segmentBytes
  moments : FromMoments lg p q.system (Mem.ofList q.copied)
  legible : ∀ t c, c ∈ claims (q.system.shared.hist t) →
    Passes lg.segment (copiedHeader lg.segment q.copied c) →
    ∃ k, Reachable (sem lg) p k ∧ Reachable (sem lg) k q.system ∧
      Legible lg.segment c (publishedIn lg c t k) (Mem.ofList q.copied)

variable {p : Pool Op.Answer τ (State τ) Unit} {q : Reading (Pool Op.Answer τ (State τ) Unit)}

/-- A copy that begins when the run is in state `p`. -/
theorem glimpse_of_copy (hp : Reachable (sem lg) (L.pool calls) p)
    (hrun : LiveCopy lg ⟨p, []⟩ q) (hwhole : q.copied.length = lg.segment.segmentBytes) :
    Glimpse lg p q := by
  obtain ⟨moment, hmoments⟩ := hrun.moments
  have hlive : LiveMoments L calls q moment :=
    { hmoments with reached := fun k => hp.trans (hmoments.reached k) }
  refine ⟨hrun.system, hwhole, fun x hx => ?_, fun t c hc _ => ?_⟩
  · exact ⟨_, hmoments.reached _, hmoments.now _, hmoments.mem (hwhole ▸ hx)⟩
  · have hcount : c < lg.segment.chunkCount :=
      lt_of_lt_of_le (((Launch.reachable (hp.trans hrun.system)).1.layout.claimed c).mp ⟨t, hc⟩)
        (claimedChunks_le _ _)
    obtain ⟨k, hlegible⟩ := legible_copy hlive hwhole hc hcount
    exact ⟨moment k, hmoments.reached k, hmoments.now k, hlegible⟩

/-- **What a reader makes of a claimed chunk.** -/
theorem Glimpse.chunk (h : Glimpse lg p q) (hp : Reachable (sem lg) (L.pool calls) p) {t : τ}
    {c : Nat} (hc : c ∈ claims (q.system.shared.hist t)) (hcount : c < lg.segment.chunkCount) :
    ∃ ws, SeenChunk L.sound q c ws ∧ publishedIn lg c t p <+: ws ∧
      (publishedIn lg c t p ≠ [] →
        (copiedHeader lg.segment q.copied c).ownerThread = lg.threadId t) := by
  have howner : publishedIn lg c t p ≠ [] →
      Passes lg.segment (copiedHeader lg.segment q.copied c) ∧
        (copiedHeader lg.segment q.copied c).ownerThread = lg.threadId t := by
    intro hne
    obtain ⟨time, htime⟩ := header_of_moments hp h.moments hc hcount h.runs hne
    unfold copiedHeader
    rw [htime]
    exact ⟨passes_chunkHeader L.sound _ _, rfl⟩
  by_cases hpasses : Passes lg.segment (copiedHeader lg.segment q.copied c)
  · obtain ⟨k, hpk, hkq, hlegible⟩ := h.legible t c hc hpasses
    refine ⟨publishedIn lg c t k, ⟨⟨t, hc, publishedIn_grows hkq⟩, hlegible.wf, hlegible.fits,
      ?_, ?_⟩, publishedIn_grows hpk, fun hne => (howner hne).2⟩
    · rcases slotWalk_passes L.sound hcount (class_of_moments hp h.moments hc hcount) hlegible with
        ⟨-, hviews⟩ | ⟨hfails, -⟩
      · exact hviews
      · exact absurd hpasses hfails
    · rw [← copiedRecord_iff L.sound hlegible]
      exact ⟨fun hcopied => ⟨hpasses, hcopied⟩, fun hboth => hboth.2⟩
  · -- nothing was published here when the reading began
    have hnone : publishedIn lg c t p = [] := by
      by_contra hne
      exact hpasses (howner hne).1
    rw [hnone]
    refine ⟨[], ⟨⟨t, hc, List.nil_prefix⟩, fun e he => absurd he List.not_mem_nil, Nat.zero_le _,
      slotWalk_fails L.sound hcount hpasses, ?_⟩, List.prefix_refl _, fun hne => absurd rfl hne⟩
    exact ⟨fun hne => absurd rfl hne, fun hboth => absurd hboth.1 hpasses⟩

/-- **What a visit makes of a glimpse**: publications of the run, chunk by chunk. -/
theorem Glimpse.visit (h : Glimpse lg p q) (hp : Reachable (sem lg) (L.pool calls) p) :
    ∃ r v wss, openImage (image lg.segment (Mem.ofList q.copied)) = .ok r ∧
      r.header = L.header ∧ Reader.visit r = .ok v ∧
      v.records = (copyLog lg.segment q.copied (q.system.shared.claimedChunks lg.segment)
        wss).flatMap (Shown.views lg.segment.capacity) ∧
      ∀ c, c < q.system.shared.claimedChunks lg.segment → SeenChunk L.sound q c (wss c) ∧
        ∀ t, c ∈ claims (q.system.shared.hist t) → publishedIn lg c t p <+: wss c ∧
          (publishedIn lg c t p ≠ [] →
            (copiedHeader lg.segment q.copied c).ownerThread = lg.threadId t) := by
  have hlayout := (Launch.reachable (hp.trans h.runs)).1.layout
  have hle := claimedChunks_le q.system.shared lg.segment
  have hheaded := headed_of_moments hp h.moments
  obtain ⟨v, hvisit, hrecords⟩ := visit_records L.sound hheaded hle
    (fun c hc => by
      obtain ⟨t, ht⟩ := (hlayout.claimed c).mpr hc
      exact class_of_moments hp h.moments ht (lt_of_lt_of_le hc hle))
    (fun x h₁ h₂ => zero_of_moments hp h.moments h₁ h₂)
  have hseen : ∀ c, ∃ ws, c < q.system.shared.claimedChunks lg.segment →
      SeenChunk L.sound q c ws ∧
        ∀ t, c ∈ claims (q.system.shared.hist t) → publishedIn lg c t p <+: ws ∧
          (publishedIn lg c t p ≠ [] →
            (copiedHeader lg.segment q.copied c).ownerThread = lg.threadId t) := by
    intro c
    by_cases hc : c < q.system.shared.claimedChunks lg.segment
    · obtain ⟨t, ht⟩ := (hlayout.claimed c).mpr hc
      obtain ⟨ws, hws, hgrows⟩ := h.chunk hp ht (lt_of_lt_of_le hc hle)
      refine ⟨ws, fun _ => ⟨hws, fun t' ht' => ?_⟩⟩
      obtain rfl := hlayout.exclusive t t' c ht ht'
      exact hgrows
    · exact ⟨[], fun hlt => absurd hlt hc⟩
  choose wss hwss using hseen
  refine ⟨_, v, wss, openImage_image L.sound hheaded, rfl, hvisit, ?_, hwss⟩
  rw [hrecords, copyLog, List.flatMap_assoc]
  refine List.flatMap_congr fun c hc => ?_
  rw [(hwss c (List.mem_range.mp hc)).1.records, chunkViews_eq]

end Glimpses

/-! ### Decoding a glimpse -/

omit [DecidableEq τ] in
/-- Publications in the order of their addresses are found in the same order. -/
theorem sublist_of_addresses {ps ps' : List Shown}
    (hps : ps.Pairwise fun p p' => p.address < p'.address)
    (hps' : ps'.Pairwise fun p p' => p.address < p'.address) (hsubset : ps ⊆ ps') :
    ps.Sublist ps' := by
  have : Std.Irrefl fun p p' : Shown => p.address < p'.address := ⟨fun _ => Nat.lt_irrefl _⟩
  have : Std.Antisymm fun p p' : Shown => p.address < p'.address :=
    ⟨fun _ _ h h' => absurd h (Nat.lt_asymm h')⟩
  exact List.sublist_of_subperm_of_pairwise (List.subperm_of_subset hps.nodup hsubset) hps hps'

omit [DecidableEq τ] in
/-- The Messages of a log are the Messages among its publications. -/
theorem forall₂_messages (ps : List (τ × Shown)) :
    List.Forall₂ (fun (x : τ × Emission) (p : Shown) => p.written = .message x.2 ∧
        (x.1, p) ∈ ps) (messages ps)
      ((ps.map Prod.snd).filter fun p => (messageOf p.written).isSome) := by
  rw [← List.filterMap_eq_filter, List.filterMap_map]
  refine forall₂_filterMap fun x hx => ?_
  cases hwritten : x.2.written with
  | message e => exact Or.inr ⟨_, x.2, rfl, by simp [hwritten, messageOf], hwritten, hx⟩
  | definition d => exact Or.inl ⟨rfl, by simp [hwritten, messageOf]⟩
  | subsystem id name => exact Or.inl ⟨rfl, by simp [hwritten, messageOf]⟩

/-- A pairing of some items, and then one of all. -/
theorem sublistForall₂_trans {α β γ : Type} {R : α → β → Prop} {R' : β → γ → Prop}
    {T : α → γ → Prop} {l₁ : List α} {l₂ : List β} {l₃ : List γ} (h : List.SublistForall₂ R l₁ l₂)
    (h' : List.Forall₂ R' l₂ l₃) (hT : ∀ a b c, R a b → R' b c → T a c) :
    List.SublistForall₂ T l₁ l₃ := by
  induction h generalizing l₃ with
  | nil => exact .nil
  | cons hR _ ih =>
    cases h' with
    | cons hR' hrest => exact .cons (hT _ _ _ hR hR') (ih hrest)
  | cons_right _ ih =>
    cases h' with
    | cons _ hrest => exact .cons_right (ih hrest)


/-- What a decoder makes of a segment that runs from `p` on, when the run has come to `q`: `ps`
are the publications that were seen, `recs` the records returned for them. -/
structure Decoding (L : Launch lg) (p q : Pool Op.Answer τ (State τ) Unit) (r : SegmentReader)
    (v : Visit) (ps : List Shown) (recs : List DecodedRecord) (d : Decoder) : Prop where
  header : r.header = L.header
  visits : visit r = .ok v
  records : v.records = ps.flatMap (Shown.views lg.segment.capacity)
  published : ∀ x ∈ ps, ∃ t, (t, { x with owner := lg.threadId t }) ∈ log lg q.shared
  early : ∀ x ∈ log lg p.shared, x.2 ∈ ps
  told : ∀ x ∈ log lg p.shared, (messageOf x.2.written).isSome = true →
    x.2 ∈ returned lg.segment.capacity ps
  ordered : ps.Pairwise fun x x' => x.address < x'.address
  decodes : decodeAll Decoder.fresh r = .ok (recs, d)
  returns : List.Forall₂ (Shown.Returns lg) (returned lg.segment.capacity ps) recs
  offsets : recs.Pairwise fun rec rec' => rec.recordOffset < rec'.recordOffset
  generation : ∀ rec ∈ recs, rec.segmentGeneration = lg.segment.generation

/-- What was published before the reading began is returned, in order and under its thread. -/
theorem Decoding.delivers {p q : Pool Op.Answer τ (State τ) Unit}
    (hp : Reachable (sem lg) (L.pool calls) p) {r : SegmentReader} {v : Visit} {ps : List Shown}
    {recs : List DecodedRecord} {d : Decoder} (h : Decoding L p q r v ps recs d) :
    List.SublistForall₂ (DeliversFrom lg) (messages (log lg p.shared)) recs := by
  have hlayout := (Launch.reachable hp).1.layout
  have hsorted : ((log lg p.shared).map Prod.snd).Pairwise fun x x' => x.address < x'.address :=
    List.pairwise_map.mpr (log_pairwise hlayout)
  have hearly : (((log lg p.shared).map Prod.snd).filter
      fun x => (messageOf x.written).isSome).Sublist (returned lg.segment.capacity ps) := by
    refine sublist_of_addresses (hsorted.sublist List.filter_sublist)
      (h.ordered.sublist List.filter_sublist) fun x hx => ?_
    obtain ⟨hmem, hmessage⟩ := List.mem_filter.mp hx
    obtain ⟨y, hy, rfl⟩ := List.mem_map.mp hmem
    exact h.told y hy hmessage
  refine sublistForall₂_trans
    (List.sublistForall₂_iff.mpr ⟨_, forall₂_messages _, hearly⟩) h.returns ?_
  rintro ⟨t, e⟩ x rec ⟨hwritten, hlog⟩ ⟨e', he', hdelivers, howner, -⟩
  obtain rfl : e = e' := Written.message.inj (hwritten.symm.trans he')
  exact ⟨hdelivers, howner.trans (log_owner hlayout hlog)⟩

/-- **What a decoder makes of a glimpse.** It returns one record for each Message whose site is
defined among the publications that were seen; everything published before is among them. -/
theorem Glimpse.decode (hone : (L.setting calls).OneDefinition)
    {p : Pool Op.Answer τ (State τ) Unit} {q : Reading (Pool Op.Answer τ (State τ) Unit)}
    (h : Glimpse lg p q) (hp : Reachable (sem lg) (L.pool calls) p) :
    ∃ r v ps recs d, openImage (image lg.segment (Mem.ofList q.copied)) = .ok r ∧
      Decoding L p q.system r v ps recs d := by
  obtain ⟨r, v, wss, hopen, hheader, hvisit, hrecords, hwss⟩ := h.visit hp
  have hthen := (Launch.reachable hp).1
  have hinv := (Launch.reachable (hp.trans h.runs)).1
  have hps : ∀ x ∈ copyLog lg.segment q.copied (q.system.shared.claimedChunks lg.segment) wss,
      (∃ t, (t, { x with owner := lg.threadId t }) ∈ log lg q.system.shared) ∧
        ∀ e ∈ x.entries lg.segment.capacity, e.Wf := by
    intro x hx
    obtain ⟨-, -, -, hlog, hwf⟩ := mem_copyLog hinv.layout (fun c hc => (hwss c hc).1) hx
    exact ⟨hlog, hwf⟩
  have hsorted := shown_pairwise L.sound (k := q.system.shared.claimedChunks lg.segment)
    (o := fun c => (copiedHeader lg.segment q.copied c).ownerThread)
    (w := wss) fun c hc => (hwss c hc).1.fits
  -- what was published when the reading began, under its own thread
  have hearly : ∀ x ∈ log lg p.shared, x.2 ∈
      copyLog lg.segment q.copied (q.system.shared.claimedChunks lg.segment) wss := by
    intro x hx
    obtain ⟨hclaim, hmem⟩ := (mem_log (t := x.1) (p := x.2) hthen.layout).mp hx
    have hclaim' := claims_grow (trace_of_reachable h.runs) hclaim
    have hlt := (hinv.layout.claimed x.2.chunk).mp ⟨x.1, hclaim'⟩
    obtain ⟨hgrows, howner⟩ := (hwss x.2.chunk hlt).2 x.1 hclaim'
    refine List.mem_flatMap.mpr ⟨x.2.chunk, List.mem_range.mpr hlt, ?_⟩
    rw [howner fun hnil => ?_]
    · exact shownIn_of_growth hgrows hmem
    · change writtenIn lg.segment x.2.chunk (p.shared.hist x.1) = [] at hnil
      change x.2 ∈ shownIn lg.segment x.2.chunk _ (writtenIn lg.segment x.2.chunk _) at hmem
      rw [hnil] at hmem
      cases hmem
  change (copyLog lg.segment q.copied (q.system.shared.claimedChunks lg.segment) wss).Pairwise _
    at hsorted
  generalize copyLog lg.segment q.copied (q.system.shared.claimedChunks lg.segment) wss = ps
    at hrecords hps hsorted hearly
  have hexpected : ∀ x ∈ ps, (L.setting calls).Expected x.written := by
    intro x hx
    obtain ⟨⟨t, hlog⟩, -⟩ := hps x hx
    have hshown := log_expected hinv (List.mem_map_of_mem (f := Prod.snd) hlog)
    exact hshown
  obtain ⟨recs, d, hdecode, hreturns, -⟩ :=
    decode_stream hone hexpected (fun x hx => (hps x hx).2) hvisit hrecords
  have hgeneration := decodeAll_generation hdecode
  rw [hheader, L.fresh.generation] at hgeneration
  refine ⟨r, v, ps, recs, d, hopen, hheader, hvisit, hrecords, fun x hx => (hps x hx).1, hearly,
    fun x hx hmessage => ?_, hsorted, hdecode, hreturns,
    returns_pairwise hreturns (hsorted.sublist List.filter_sublist), hgeneration⟩
  -- a Message of them has its site defined
  refine List.mem_filter.mpr ⟨hearly x hx, ?_⟩
  rw [hmessage, Bool.true_and]
  cases hwritten : x.2.written with
  | definition d' => rw [hwritten] at hmessage; cases hmessage
  | subsystem id name => rw [hwritten] at hmessage; cases hmessage
  | message e =>
    obtain ⟨a, ha⟩ := committed_of_log hthen.layout (t := x.1) (p := x.2) hx
    rw [hwritten] at ha
    obtain ⟨t', a', hdefines⟩ := hthen.naming.defined _ a e ha
    obtain ⟨z, hz, hd⟩ := log_of_committed hthen.layout hdefines
    have hsite : siteFor (ps.filterMap (Shown.site? lg.segment.capacity)) e.siteId = some _ :=
      siteFor_of_definition hone hexpected (hearly _ hz) hd
    unfold Shown.undefined
    rw [hwritten]
    simp only [hsite]
    rfl

end Sub0Log.System
