import Sub0Log.Reader.Accounting

/-!
# Messages without a chain

A Message that promises no Continuation is settled by the step that meets it: it is among
the results from then on, or it is counted. The steps before may leave a chain open, those
behind it only add results (`step_grows`), so whatever else a segment holds,
**`decodeAll_single`** says what becomes of such a Message: its record is returned exactly
when its payload can be read under the first definition of its site.
-/

open Bytes Checked

namespace Sub0Log.Reader

open Wire

variable {sites : List DecodedSite} {generation : UInt64} {s s' : PassTwo} {v : RecordView}

/-! ### Results only grow -/

theorem finalizePending_grows (s : PassTwo) : s.result <+: s.finalizePending.result := by
  unfold PassTwo.finalizePending
  split
  · exact List.prefix_rfl
  · show s.result <+: if s.damaged then s.result else s.result ++ [_]
    split
    · exact List.prefix_rfl
    · exact List.prefix_append _ _

theorem handleRecord_grows (h : PassTwo.handleRecord sites generation s v = .ok s') :
    s.result <+: s'.result := by
  by_cases hmessage : v.head.kind = .message
  · rw [handleRecord_message hmessage] at h
    split at h
    · cases h
      exact List.prefix_rfl
    · split at h
      · cases h
        exact List.prefix_rfl
      · cases h
        exact List.prefix_append _ _
  · unfold PassTwo.handleRecord at h
    rw [if_pos hmessage] at h
    split at h
    · cases h
      exact List.prefix_rfl
    · cases h
      exact List.prefix_rfl

/-- A slice is joined or does damage; what was returned stays. -/
theorem consumeSlice_result {payload : List UInt8} (h : s.consumeSlice payload = .ok s') :
    s'.result = s.result := by
  unfold PassTwo.consumeSlice at h
  split at h
  · cases h
    rfl
  · unfold PassTwo.joinSlice at h
    obtain ⟨bytes, -, h⟩ := bind_eq_ok h
    dsimp only at h
    by_cases hvalid : s.validTarget (ContinuationPayload.ofBytes bytes).argIndex.toNat = false
    · rw [if_pos hvalid] at h
      cases h
      rfl
    · rw [if_neg hvalid] at h
      cases hpending : s.pending with
      | none =>
        rw [hpending] at h
        cases h
        rfl
      | some rec =>
        rw [hpending] at h
        obtain ⟨owned, -, h⟩ := bind_eq_ok h
        obtain ⟨left, -, h⟩ := bind_eq_ok h
        obtain ⟨tail, -, h⟩ := bind_eq_ok h
        cases h
        rfl

theorem step_grows (h : PassTwo.step sites generation s v = .ok s') : s.result <+: s'.result := by
  unfold PassTwo.step at h
  split at h
  · split at h
    · exact (finalizePending_grows s.damage).trans (handleRecord_grows h)
    · obtain ⟨s₁, hslice, h⟩ := bind_eq_ok h
      have hsame := consumeSlice_result hslice
      rw [← hsame]
      split at h
      · cases h
        exact List.prefix_rfl
      · cases h
        exact finalizePending_grows s₁
  · exact handleRecord_grows h

theorem foldlM_grows {records : List RecordView}
    (h : records.foldlM (PassTwo.step sites generation) s = .ok s') : s.result <+: s'.result := by
  induction records generalizing s with
  | nil =>
    cases h
    exact List.prefix_rfl
  | cons v records ih =>
    rw [List.foldlM_cons] at h
    obtain ⟨s₁, hstep, h⟩ := bind_eq_ok h
    exact (step_grows hstep).trans (ih h)

theorem finish_grows (s : PassTwo) : s.result <+: s.finish.result := by
  unfold PassTwo.finish
  split
  · exact finalizePending_grows s.damage
  · exact finalizePending_grows s

/-! ### The step that meets the Message -/

/-- A Message that can be read is returned at once. -/
theorem step_single {rec : DecodedRecord} (hkind : v.head.kind = .message)
    (hsingle : PassTwo.continued v = false) (hrec : message sites generation v = some rec)
    (h : PassTwo.step sites generation s v = .ok s') : rec ∈ s'.result := by
  have hhandled : ∀ {s₁ : PassTwo}, PassTwo.handleRecord sites generation s₁ v = .ok s' →
      rec ∈ s'.result := by
    intro s₁ h₁
    rw [handleRecord_message hkind, hrec] at h₁
    simp only [hsingle] at h₁
    cases h₁
    exact List.mem_append_right _ (List.mem_singleton.mpr rfl)
  unfold PassTwo.step at h
  split at h
  · rw [if_pos (by rw [hkind]; decide)] at h
    exact hhandled h
  · exact hhandled h

/-- **What becomes of a Message without a chain**, in any segment: the returned record with
its offset is the one its payload reads as, under the first definition of its site. -/
theorem decodeAll_single {r : SegmentReader} {visited : Visit} (hvisit : visit r = .ok visited)
    (hv : v ∈ visited.records) (hkind : v.head.kind = .message)
    (hsingle : PassTwo.continued v = false) :
    ∃ recs d, decodeAll Decoder.fresh r = .ok (recs, d) ∧
      ∀ rec, (rec ∈ recs ∧ rec.recordOffset = v.recordOffset) ↔
        message (definitions visited.records) r.header.generation v = some rec := by
  obtain ⟨visited', d, s, hvisit', hpair, hdecode, hfold, hinv₁, hinv₂⟩ := decodeAll_run r
  obtain rfl : visited' = visited := Except.ok.inj (hvisit'.symm.trans hvisit)
  have hsites := message_congr r.header.generation v hinv₁.sites
  refine ⟨s.finish.result, _, hdecode, fun rec => ?_⟩
  rw [← hsites]
  -- the record of a Message that can be read is returned
  have hreturned : ∀ rec, message d.sites r.header.generation v = some rec →
      rec ∈ s.finish.result := by
    intro rec hrec
    obtain ⟨before, after, hsplit⟩ := List.append_of_mem hv
    rw [hsplit, List.foldlM_append] at hfold
    obtain ⟨s₁, -, hfold⟩ := bind_eq_ok hfold
    rw [List.foldlM_cons] at hfold
    obtain ⟨s₂, hstep, hfold⟩ := bind_eq_ok hfold
    exact ((foldlM_grows hfold).trans (finish_grows s)).subset
      (step_single hkind hsingle hrec hstep)
  constructor
  · rintro ⟨hmem, hoffset⟩
    obtain ⟨-, hsub⟩ := finish_facts hinv₂
    obtain ⟨m, hm, -, base, hbase, hext⟩ := hinv₂.decoded rec (hsub.subset hmem)
    obtain ⟨-, -, hm_offset⟩ := message_some hbase
    have hrec_offset : rec.recordOffset = base.recordOffset := by rw [hext.rest]
    -- no two Messages share an offset, and no two returned records
    have hsame : m = v := by
      have hapart : (visited'.records.map RecordView.recordOffset).Nodup :=
        List.pairwise_map.mpr (hpair.imp fun {a b} hab => Nat.ne_of_lt (by omega))
      exact List.inj_on_of_nodup_map hapart hm hv (by rw [← hm_offset, ← hrec_offset, hoffset])
    subst hsame
    have hunique : (s.finish.result.map DecodedRecord.recordOffset).Nodup :=
      List.pairwise_map.mpr ((finish_sorted hinv₂ hpair).imp fun {a b} hab => Nat.ne_of_lt hab)
    rw [hbase, List.inj_on_of_nodup_map hunique hmem (hreturned base hbase) hrec_offset]
  · intro hrec
    exact ⟨hreturned rec hrec, (message_some hrec).2.2⟩

end Sub0Log.Reader
