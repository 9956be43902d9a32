import Sub0Log.Reader.Truncation

/-!
# What the walk of one slot looks at

The walk reads a slot's header and, behind a header it trusts, the body that header
declares. It looks at nothing else, so two memories with the same bytes in a slot are walked
alike there (**`walkSlot_congr`**).
-/

open Bytes

namespace Sub0Log.Reader

open Wire

variable {m m' : Mem}

/-- The record walk looks at the bytes of the body. -/
theorem body_congr {bodyEnd cursor : Nat} (hm : ∀ x, cursor ≤ x → x < bodyEnd → m' x = m x) :
    body m' bodyEnd cursor = body m bodyEnd cursor := by
  fun_induction body m bodyEnd cursor with
  | case1 cursor h => rw [body, if_pos h]
  | case2 cursor h₁ h₂ => rw [body, if_neg h₁, if_pos h₂]
  | case3 cursor h₁ h₂ h₃ h₄ =>
    have hword : m'.word cursor 8 = m.word cursor 8 :=
      Mem.word_congr fun x hx hx' => hm x hx (by omega)
    rw [body, hword, if_neg h₁, if_neg h₂, if_pos h₃, if_pos h₄]
  | case4 cursor h₁ h₂ h₃ h₄ =>
    have hword : m'.word cursor 8 = m.word cursor 8 :=
      Mem.word_congr fun x hx hx' => hm x hx (by omega)
    rw [body, hword, if_neg h₁, if_neg h₂, if_pos h₃, if_neg h₄]
  | case5 cursor h₁ h₂ h₃ h₄ =>
    have hword : m'.word cursor 8 = m.word cursor 8 :=
      Mem.word_congr fun x hx hx' => hm x hx (by omega)
    have hpayload : payloadAt m' cursor = payloadAt m cursor := payloadAt_congr hword
    rw [body, hword, hpayload, if_neg h₁, if_neg h₂, if_neg h₃, if_pos h₄]
  | case6 cursor h₁ h₂ h₃ h₄ rest ih =>
    have hword : m'.word cursor 8 = m.word cursor 8 :=
      Mem.word_congr fun x hx hx' => hm x hx (by omega)
    have hpayload : payloadAt m' cursor = payloadAt m cursor := payloadAt_congr hword
    rw [body, hword, hpayload, if_neg h₁, if_neg h₂, if_neg h₃, if_neg h₄,
      ih fun x hx hx' => hm x (by omega) hx']

/-- So does what it yields. -/
theorem body_views_congr {bodyEnd cursor : Nat}
    (hm : ∀ x, cursor ≤ x → x < bodyEnd → m' x = m x) (chunkIndex : UInt32) (owner : UInt64) :
    (body m bodyEnd cursor).offsets.map (viewAt m' chunkIndex owner) =
      (body m bodyEnd cursor).offsets.map (viewAt m chunkIndex owner) := by
  refine List.map_congr_left fun a ha => ?_
  obtain ⟨h₁, h₂, -⟩ := mem_body_offsets ha
  have hword : m'.word a 8 = m.word a 8 :=
    Mem.word_congr fun x hx hx' => hm x (by omega) (by omega)
  have hpayload : payloadAt m' a = payloadAt m a := payloadAt_congr hword
  have hslice : m'.slice (a + 8) (payloadAt m a) = m.slice (a + 8) (payloadAt m a) :=
    Mem.slice_congr fun x hx hx' => hm x (by omega) (by omega)
  unfold viewAt
  rw [hpayload, hword, hslice]

namespace Geometry

variable (g : Geometry)

/-- The verdict on a slot is read from its header. -/
theorem slot_congr {size chunkStart : Nat}
    (hm : ∀ x, chunkStart ≤ x → x < chunkStart + sizeofChunkHeader → m' x = m x) :
    g.slot m' size chunkStart = g.slot m size chunkStart := by
  have hheader : headerAt m' chunkStart = headerAt m chunkStart :=
    congrArg ChunkHeader.ofBytes (Mem.slice_congr hm)
  unfold slot
  rw [hheader]

/-- **The walk of a slot looks at its own bytes.** -/
theorem walkSlot_congr {size chunkStart : Nat} {chunkIndex : UInt32}
    (hm : ∀ x, chunkStart ≤ x → x < chunkStart + g.stride (g.slot m size chunkStart) →
      m' x = m x) :
    g.walkSlot m' size chunkStart chunkIndex = g.walkSlot m size chunkStart chunkIndex := by
  have hgt := g.stride_gt m size chunkStart
  have hslot : g.slot m' size chunkStart = g.slot m size chunkStart :=
    g.slot_congr fun x h₁ h₂ => hm x h₁ (by omega)
  unfold walkSlot
  rw [hslot]
  cases hcase : g.slot m size chunkStart with
  | headless | refused | unclaimed => rfl
  | current owner bytes =>
    have hend : g.bodyEnd size chunkStart bytes ≤ chunkStart + bytes := by
      unfold bodyEnd
      omega
    rw [hcase] at hm
    have hbody : ∀ x, chunkStart + sizeofChunkHeader ≤ x →
        x < g.bodyEnd size chunkStart bytes → m' x = m x :=
      fun x h₁ h₂ => hm x (by omega) (lt_of_lt_of_le h₂ hend)
    simp only [body_congr hbody, body_views_congr hbody]

end Geometry

end Sub0Log.Reader
