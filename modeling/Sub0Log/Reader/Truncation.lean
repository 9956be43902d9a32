import Sub0Log.Reader.Containment

/-!
# Reading a truncated image

An image cut short shows exactly the records that were whole before the cut.
**`visit_truncated`** compares the two visits; no hypothesis is made on the image,
so sizes, classes and damage are as they come.

Up to the cut both walks see the same bytes and take the same branches. The slot the
cut falls into is the only one they walk differently, and there are two cases: the
cut is in its body (`body_truncated`), or it is in its header, and then nothing behind
it is whole in either image (`walk_cut_header`).
-/

open Bytes Checked

namespace Sub0Log.Reader

open Wire

/-! ### One body -/

theorem body_offsets_nil {m : Mem} {bodyEnd cursor : Nat}
    (h : bodyEnd < cursor + 8 + payloadAt m cursor ∨
      RecordHead.isCommitted (m.word cursor 8) = false) :
    (body m bodyEnd cursor).offsets = [] := by
  unfold body
  by_cases h₁ : bodyEnd ≤ cursor
  · rw [if_pos h₁]
  rw [if_neg h₁]
  by_cases h₂ : bodyEnd < cursor + 8
  · rw [if_pos h₂]
  rw [if_neg h₂]
  by_cases h₃ : RecordHead.isCommitted (m.word cursor 8) = false
  · rw [if_pos h₃]
    split <;> rfl
  rw [if_neg h₃, if_pos (h.resolve_right h₃)]

theorem body_offsets_cons {m : Mem} {bodyEnd cursor : Nat}
    (h : cursor + 8 + payloadAt m cursor ≤ bodyEnd)
    (hcommitted : RecordHead.isCommitted (m.word cursor 8) = true) :
    (body m bodyEnd cursor).offsets =
      cursor :: (body m bodyEnd (cursor + 8 + paddedPayload (payloadAt m cursor))).offsets := by
  rw [body, if_neg (by omega), if_neg (by omega), if_neg (by rw [hcommitted]; decide),
    if_neg (by omega)]

theorem payloadAt_congr {m m' : Mem} {a : Nat} (h : m.word a 8 = m'.word a 8) :
    payloadAt m a = payloadAt m' a := by
  rw [payloadAt, payloadAt, h]

/-- A body cut at `n` keeps the records that end at or before `n`. -/
theorem body_truncated {m m' : Mem} {n : Nat} (hm : ∀ x, x < n → m' x = m x)
    (bodyEnd cursor : Nat) :
    (body m' (min bodyEnd n) cursor).offsets =
      (body m bodyEnd cursor).offsets.filter fun a => a + 8 + payloadAt m a ≤ n := by
  have hword : ∀ a, a + 8 ≤ n → m'.word a 8 = m.word a 8 :=
    fun a ha => Mem.word_congr fun x _ hx => hm x (by omega)
  fun_induction body m bodyEnd cursor with
  | case1 cursor h₁ => exact body_offsets_nil (Or.inl (by omega))
  | case2 cursor h₁ h₂ => exact body_offsets_nil (Or.inl (by omega))
  | case3 cursor h₁ h₂ h₃ h₄ | case4 cursor h₁ h₂ h₃ h₄ =>
    refine body_offsets_nil ?_
    by_cases hn : cursor + 8 ≤ n
    · exact Or.inr (by rw [hword cursor hn]; exact h₃)
    · exact Or.inl (by omega)
  | case5 cursor h₁ h₂ h₃ h₄ =>
    refine body_offsets_nil (Or.inl ?_)
    by_cases hn : cursor + 8 ≤ n
    · rw [payloadAt_congr (hword cursor hn)]
      omega
    · omega
  | case6 cursor h₁ h₂ h₃ h₄ rest ih =>
    have hpad := le_paddedPayload (payloadAt m cursor)
    have hcommitted : RecordHead.isCommitted (m.word cursor 8) = true := by simpa using h₃
    by_cases hkeep : cursor + 8 + payloadAt m cursor ≤ n
    · -- the record is whole in both, and both walks go on behind it
      have hsame := hword cursor (by omega)
      have hpayload := payloadAt_congr hsame
      rw [body_offsets_cons (by rw [hpayload]; omega) (by rw [hsame]; exact hcommitted),
        List.filter_cons_of_pos (by simpa using hkeep), hpayload, ih]
    · -- the cut is inside the record, so nothing behind it is whole either
      rw [List.filter_cons_of_neg (by simpa using hkeep)]
      have hrest : rest.offsets.filter (fun a => decide (a + 8 + payloadAt m a ≤ n)) = [] := by
        rw [List.filter_eq_nil_iff]
        intro a ha
        have hlow := (mem_body_offsets ha).1
        simp only [decide_eq_true_eq]
        omega
      rw [hrest]
      refine body_offsets_nil (Or.inl ?_)
      by_cases hn : cursor + 8 ≤ n
      · rw [payloadAt_congr (hword cursor hn)]
        omega
      · omega

/-! ### The walk -/

/-- The record's head word and unpadded payload end at or before `n`. -/
def RecordView.endsBy (n : Nat) (view : RecordView) : Bool :=
  decide (view.recordOffset + 8 + view.payload.length ≤ n)

theorem viewAt_congr {m m' : Mem} {n a : Nat} (hm : ∀ x, x < n → m' x = m x)
    (ha : a + 8 + payloadAt m a ≤ n) (chunkIndex : UInt32) (owner : UInt64) :
    viewAt m' chunkIndex owner a = viewAt m chunkIndex owner a := by
  have hword : m'.word a 8 = m.word a 8 := Mem.word_congr fun x _ hx => hm x (by omega)
  have hslice : m'.slice (a + 8) (payloadAt m a) = m.slice (a + 8) (payloadAt m a) :=
    Mem.slice_congr fun x _ hx => hm x (by omega)
  unfold viewAt
  rw [hword, payloadAt_congr hword, hslice]

section Cut

variable (g : Geometry) {m m' : Mem} {n size : Nat}

/-- A slot whose header is before the cut is judged alike. -/
theorem slot_truncated (hm : ∀ x, x < n → m' x = m x) (hn : n ≤ size) {chunkStart : Nat}
    (hheader : chunkStart + sizeofChunkHeader ≤ n) :
    g.slot m' n chunkStart = g.slot m size chunkStart := by
  have hcb := g.chunkBytes_gt
  have havail : g.available n chunkStart < sizeofChunkHeader ↔
      g.available size chunkStart < sizeofChunkHeader := by
    unfold Geometry.available
    omega
  have hhead : Geometry.headerAt m' chunkStart = Geometry.headerAt m chunkStart := by
    unfold Geometry.headerAt
    rw [Mem.slice_congr fun x _ hx => hm x (by omega)]
  unfold Geometry.slot
  simp only [havail, hhead]

/-- The records of such a slot are cut where the image is. -/
theorem walkSlot_truncated (hm : ∀ x, x < n → m' x = m x) (hn : n ≤ size) {chunkStart : Nat}
    (chunkIndex : UInt32) (hheader : chunkStart + sizeofChunkHeader ≤ n) :
    (g.walkSlot m' n chunkStart chunkIndex).records =
      (g.walkSlot m size chunkStart chunkIndex).records.filter (RecordView.endsBy n) := by
  unfold Geometry.walkSlot
  rw [slot_truncated g hm hn hheader]
  cases g.slot m size chunkStart with
  | current owner bytes =>
    have hend : g.bodyEnd n chunkStart bytes = min (g.bodyEnd size chunkStart bytes) n := by
      unfold Geometry.bodyEnd
      omega
    simp only [Walk.records, List.flatMap_cons, List.flatMap_nil, List.append_nil]
    rw [hend, body_truncated hm, List.filter_map]
    have hends : RecordView.endsBy n ∘ viewAt m chunkIndex owner =
        fun a => decide (a + 8 + payloadAt m a ≤ n) := by
      funext a
      simp only [Function.comp_apply, RecordView.endsBy, viewAt_payload_length]
      rfl
    rw [hends]
    refine List.map_congr_left fun a ha => ?_
    exact viewAt_congr hm (by simpa using (List.mem_filter.mp ha).2) chunkIndex owner
  | _ => rfl

/-- Behind a header the cut falls into, nothing is found. -/
theorem walk_cut_header {chunkStart : Nat} (chunkIndex : UInt32)
    (hheader : n < chunkStart + sizeofChunkHeader) :
    (g.walk m' n chunkStart chunkIndex).records = [] := by
  rw [List.eq_nil_iff_forall_not_mem]
  intro view hview
  by_cases hseg : g.segmentBytes ≤ chunkStart
  · rw [g.walk_of_le hseg] at hview
    cases hview
  · by_cases hsize : n ≤ chunkStart
    · rw [g.walk_of_absent (Nat.lt_of_not_le hseg) hsize] at hview
      cases hview
    · have hslot : g.slot m' n chunkStart = .headless :=
        if_pos (by unfold Geometry.available; omega)
      have hcb := g.chunkBytes_gt
      rw [g.walk_of_lt (Nat.lt_of_not_le hseg) (Nat.lt_of_not_le hsize), hslot] at hview
      unfold Geometry.walkSlot Geometry.stride at hview
      simp only [hslot] at hview
      by_cases hend : g.segmentBytes ≤ chunkStart + g.chunkBytes
      · rw [g.walk_of_le hend] at hview
        cases hview
      · rw [g.walk_of_absent (Nat.lt_of_not_le hend) (by omega)] at hview
        cases hview

/-- The walk of a cut memory finds the records that end before the cut. -/
theorem walk_truncated (hm : ∀ x, x < n → m' x = m x) (hn : n ≤ size) (chunkStart : Nat)
    (chunkIndex : UInt32) :
    (g.walk m' n chunkStart chunkIndex).records =
      (g.walk m size chunkStart chunkIndex).records.filter (RecordView.endsBy n) := by
  by_cases hheader : n < chunkStart + sizeofChunkHeader
  · rw [walk_cut_header g chunkIndex hheader, eq_comm, List.filter_eq_nil_iff]
    intro view hview
    have hlow := walk_lower g m size chunkStart chunkIndex view hview
    simp only [RecordView.endsBy, decide_eq_true_eq]
    omega
  fun_induction Geometry.walk g m size chunkStart chunkIndex with
  | case1 chunkStart chunkIndex h₁ => rw [g.walk_of_le h₁]; rfl
  | case2 chunkStart chunkIndex h₁ h₂ =>
    rw [g.walk_of_absent (Nat.lt_of_not_le h₁) (by omega)]
    rfl
  | case3 chunkStart chunkIndex h₁ h₂ ih =>
    have hle : chunkStart + sizeofChunkHeader ≤ n := Nat.le_of_not_lt hheader
    have hpos : 0 < sizeofChunkHeader := by decide
    rw [g.walk_of_lt (Nat.lt_of_not_le h₁) (by omega), Walk.records_append,
      Walk.records_append, List.filter_append, walkSlot_truncated g hm hn chunkIndex hle,
      slot_truncated g hm hn hle]
    congr 1
    generalize chunkStart + g.stride (g.slot m size chunkStart) = next at ih ⊢
    by_cases hnext : n < next + sizeofChunkHeader
    · rw [walk_cut_header g _ hnext, eq_comm, List.filter_eq_nil_iff]
      intro view hview
      have hlow := walk_lower g m size next _ view hview
      simp only [RecordView.endsBy, decide_eq_true_eq]
      omega
    · exact ih hnext

end Cut

/-! ### The two visits -/

theorem filter_isPrefix {α : Type} {p : α → Bool} {l : List α}
    (h : l.Pairwise fun a b => p b = true → p a = true) : l.filter p <+: l := by
  induction l with
  | nil => exact List.nil_prefix
  | cons a l ih =>
    obtain ⟨hhead, htail⟩ := List.pairwise_cons.mp h
    by_cases ha : p a = true
    · rw [List.filter_cons_of_pos ha]
      exact List.cons_prefix_cons.mpr ⟨rfl, ih htail⟩
    · -- the predicate fails from here on
      have hnil : l.filter p = [] := by
        rw [List.filter_eq_nil_iff]
        exact fun b hb hpb => ha (hhead b hb hpb)
      rw [List.filter_cons_of_neg ha, hnil]
      exact List.nil_prefix

/-- **Truncation keeps exactly a prefix.** A prefix of an image that still holds the
segment header area opens with the same header, and its visit yields, in the same
order and unchanged, the records of the whole image that end at or before the cut;
so the longer image only appends to them. -/
theorem visit_truncated (I J : Image) (r : SegmentReader) (hopen : openImage I = .ok r)
    (hpre : J.bytes <+: I.bytes) (hsize : sizeofSegmentHeader ≤ J.size)
    (hheader : r.header.headerBytes.toNat ≤ J.size) :
    ∃ rJ vI vJ, openImage J = .ok rJ ∧ rJ.header = r.header ∧
      visit r = .ok vI ∧ visit rJ = .ok vJ ∧
      vJ.records = vI.records.filter
        (fun view => decide (view.recordOffset + 8 + view.payload.length ≤ J.size)) ∧
      vJ.records <+: vI.records := by
  obtain ⟨himage, hsizeI, hbytes, hmagic, hversion⟩ := openImage_eq_ok hopen
  have hle : J.size ≤ I.size := hpre.length_le
  have hmem : ∀ x, x < J.size → J.mem x = I.mem x := by
    intro x hx
    obtain ⟨rest, hrest⟩ := hpre
    unfold Image.mem Mem.ofList
    rw [← hrest]
    simp only [List.getD_eq_getElem?_getD]
    rw [List.getElem?_append_left hx]
  have hslice : J.mem.slice 0 sizeofSegmentHeader = I.mem.slice 0 sizeofSegmentHeader :=
    Mem.slice_congr fun x _ hx => hmem x (by omega)
  -- the header's geometry is sane for the shorter image too
  have sane : GeometrySane r.header J.size :=
    ⟨r.sane.headerBytes_ge, r.sane.chunkBytes_gt, r.sane.segmentBytes_ge, hheader⟩
  have hopenJ : openImage J = .ok ⟨J, r.header, sane⟩ := by
    unfold openImage
    rw [if_neg (Nat.not_lt_of_le hsize)]
    simp only [hslice, ← hbytes]
    rw [if_neg (not_not_intro hmagic), if_neg (not_not_intro hversion), dif_pos sane]
  obtain ⟨stepsI, -, hvisitI⟩ := r.visit_eq_walk
  obtain ⟨stepsJ, -, hvisitJ⟩ := SegmentReader.visit_eq_walk ⟨J, r.header, sane⟩
  have hwalk := walk_truncated r.geometry hmem hle r.header.headerBytes.toNat 0
  rw [← himage] at hwalk
  have hpair := walk_pairwise r.geometry r.image.mem r.image.size
    r.header.headerBytes.toNat 0
  refine ⟨_, _, _, hopenJ, rfl, hvisitI, hvisitJ, hwalk, ?_⟩
  change (r.geometry.walk J.mem J.size r.header.headerBytes.toNat 0).records <+:
    (r.geometry.walk r.image.mem r.image.size r.header.headerBytes.toNat 0).records
  rw [hwalk]
  refine filter_isPrefix (hpair.imp fun {a b} hab hb => ?_)
  simp only [RecordView.endsBy, decide_eq_true_eq] at hb ⊢
  omega

/-- The overhanging image, cut inside what follows its segment. -/
theorem visit_truncated_overhang :
    ∃ rJ vI vJ, openImage ⟨overhangImage.bytes.take 72, by decide⟩ = .ok rJ ∧
      rJ.header = overhangReader.header ∧
      visit overhangReader = .ok vI ∧ visit rJ = .ok vJ ∧
      vJ.records = vI.records.filter
        (fun view => decide (view.recordOffset + 8 + view.payload.length ≤
          Image.size ⟨overhangImage.bytes.take 72, by decide⟩)) ∧
      vJ.records <+: vI.records :=
  visit_truncated overhangImage ⟨overhangImage.bytes.take 72, by decide⟩ overhangReader
    openImage_overhang (List.take_prefix 72 _) (by decide) (by decide)

end Sub0Log.Reader
