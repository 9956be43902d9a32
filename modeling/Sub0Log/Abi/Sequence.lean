import Sub0Log.Abi.Runs
import Sub0Log.System.Sequence

/-!
# One thread's calls of the table

A plugin's definitions and Messages reach the segment through `writeSiteDefinitionCore` and
`reserveRecord`, so a thread that calls the table alone, one Logger being bound, writes a
`System.Sequence`: each call adds the record it writes, or none (`EntryOf`, `call_writes`).

**`calls_visit`** is what the reader finds when the thread has returned: the records are
those of some of the calls, in the order of the calls, and each is as its call wrote it
(`ShowsCall`).
-/

open Bytes Interleaving

namespace Sub0Log.Abi

open Wire Producer Reader Sub0Log.System SiteAnnounceTable

variable {κ τ : Type} [DecidableEq κ] [DecidableEq τ] {lg : κ → Logger τ} {t : τ} {k : κ}

/-! ### A Logger of the host -/

/-- Code of the producer that runs alone does on a Logger of the host what it does. -/
theorem alone_onLogger {α : Type} {x : Code α} {Q : α → State τ → Prop} {s : HostState κ τ}
    (h : x.Alone (Producer.sem (lg k)) t Q (s.view k)) :
    (onLogger k x).Alone (sem lg) t
      (fun a s' => Q a (s'.view k) ∧ s'.active = s.active) s := by
  induction x generalizing s with
  | ret a => exact ⟨h, rfl⟩
  | op i next ih =>
    rintro r s' ⟨v, new, hsem, -, rfl⟩
    have hview : ({ s with
        logs := Function.update s.logs k v
        caches := v.caches
        trace := s.trace ++ new.map (.logged k) ++ [] } : HostState κ τ).view k = v := by
      show { Function.update s.logs k v k with caches := v.caches } = v
      rw [Function.update_self]
    exact ih r (hview ▸ h r v hsem)

/-- What the table and the thread's own notes do to the state is nothing to a Logger. -/
def Kept (k : κ) (s s' : HostState κ τ) : Prop := s'.view k = s.view k ∧ s'.active = s.active

omit [DecidableEq κ] [DecidableEq τ] in
theorem Kept.trans {s s' s'' : HostState κ τ} (h : Kept k s s') (h' : Kept k s' s'') :
    Kept k s s'' := ⟨h'.1.trans h.1, h'.2.trans h.2⟩

theorem alone_generationFrom (siteId : UInt64) (tries : Nat) (slot : UInt64)
    (s : HostState κ τ) :
    (generationFrom siteId tries slot).Alone (sem lg) t (fun _ => Kept k s) s := by
  induction tries generalizing slot with
  | zero =>
    refine Prog.Alone.perform ?_
    intro r s' hsem
    obtain rfl : s' = _ := hsem
    exact ⟨rfl, rfl⟩
  | succ tries ih =>
    refine Prog.Alone.perform ?_
    rintro key s' ⟨-, rfl⟩
    split
    · rintro generation s'' ⟨-, rfl⟩
      exact ⟨rfl, rfl⟩
    · split
      · exact ⟨rfl, rfl⟩
      · exact ih _

theorem alone_recordFrom (siteId generation : UInt64) (tries : Nat) (slot : UInt64)
    (s : HostState κ τ) :
    (recordFrom siteId generation tries slot).Alone (sem lg) t (fun _ => Kept k s) s := by
  induction tries generalizing slot s with
  | zero =>
    intro r s' hsem
    obtain rfl : s' = _ := hsem
    exact ⟨rfl, rfl⟩
  | succ tries ih =>
    refine Prog.Alone.perform ?_
    intro (found : UInt64) s' hsem
    have hclaimed : Kept k s s' := by
      have hs : s' = (s.claimSiteId slot siteId).2 := congrArg Prod.snd hsem
      rw [hs]
      unfold HostState.claimSiteId
      split <;> exact ⟨rfl, rfl⟩
    split
    · intro r s'' hstore
      obtain rfl : s'' = _ := hstore
      exact hclaimed
    · exact (ih _ s').mono fun _ _ hkept => hclaimed.trans hkept

/-! ### What a call writes -/

/-- Thread `t` wrote these records into the segment of Logger `k`, which is bound. -/
def HostSequence (lg : κ → Logger τ) (header : SegmentHeader) (t : τ) (k : κ) (es : List Entry)
    (s : HostState κ τ) : Prop :=
  Sequence (lg k) header t es (s.view k) ∧ s.active = some k

omit [DecidableEq κ] [DecidableEq τ] in
theorem HostSequence.kept {header : SegmentHeader} {es : List Entry} {s s' : HostState κ τ}
    (h : HostSequence lg header t k es s) (hkept : Kept k s s') :
    HostSequence lg header t k es s' := by
  unfold HostSequence
  rw [hkept.1, hkept.2]
  exact h

/-- A Message as the host writes it. -/
def messageEntry (r : AbiRecord) (monoNs correlationId : UInt64) (sequence : UInt16) : Entry where
  kind := .message
  flags := if r.payloadTruncated then cFlagTruncated else 0
  sequence := sequence
  payload := (MessagePayload.mk r.siteId monoNs correlationId).toBytes ++ r.encoded

/-- The record a call writes into a segment whose chunks have this capacity. -/
inductive EntryOf (capacity : Nat) : HostCall κ → Entry → Prop
  | definition (d : SiteDefinition) (sequence : UInt16) :
      EntryOf capacity (.defineSite d) (definitionEntry capacity d sequence)
  | message (r : AbiRecord) (monoNs correlationId : UInt64) (sequence : UInt16) :
      EntryOf capacity (.emitRecord (some r)) (messageEntry r monoNs correlationId sequence)

/-- What lies behind the Message's own payload has the length that was reserved. -/
theorem AbiRecord.encoded_length (r : AbiRecord) : r.encoded.length = r.writtenBytes := by
  unfold AbiRecord.encoded
  cases hpayload : r.payload with
  | none => exact List.length_replicate
  | some bytes =>
    show (bytes.take r.writtenBytes).length = r.writtenBytes
    rw [List.length_take, r.payload_length bytes hpayload]
    unfold AbiRecord.writtenBytes AbiRecord.payloadTruncated
    split
    · rename_i hcut
      exact Nat.min_eq_left (Nat.le_of_lt (of_decide_eq_true hcut))
    · exact Nat.min_self _

variable {header : SegmentHeader} {es : List Entry} {s : HostState κ τ}

/-- The store that makes a Message visible. -/
theorem alone_publish {op : Op} {m : Message} {R : State τ → Prop}
    (hop : ∀ r v, Producer.sem (lg k) t op (s.view k) r v → R v) :
    (Prog.perform (HostOp.publish k op m) : HostCode κ op.Answer).Alone (sem lg) t
      (fun _ s' => R (s'.view k) ∧ s'.active = s.active) s := by
  rintro r s' ⟨v, new, hsem, -, rfl⟩
  have hview : ({ s with
      logs := Function.update s.logs k v
      caches := v.caches
      trace := s.trace ++ new.map (.logged k) ++ [.message t k m] } : HostState κ τ).view k = v := by
    show { Function.update s.logs k v k with caches := v.caches } = v
    rw [Function.update_self]
  refine ⟨?_, rfl⟩
  rw [hview]
  exact hop r v hsem

/-- The head word of a Message. -/
theorem alone_commitMessage (slot : Reservation) (flags : UInt8) (totalBytes : Nat)
    (m : Message) (s : HostState κ τ) :
    (commitMessage lg k slot flags totalBytes m).Alone (sem lg) t (fun _ s' =>
      Stored ((s.view k).mem.store slot.headWord (leBytes 8
        (RecordHead.mk (UInt16.ofNat totalBytes) .message flags slot.sequence).pack))
        (s.view k) (s'.view k) ∧ s'.active = s.active) s := by
  unfold commitMessage
  by_cases hsplit : (lg k).split = true
  · simp only [if_pos hsplit]
    have hlow : ∀ half, (storeLow32 slot.headWord half).Alone (Producer.sem (lg k)) t
        (fun _ v => Stored ((s.view k).mem.store slot.headWord (leBytes 4 half)) (s.view k) v)
        (s.view k) := by
      intro half r v hsem
      obtain rfl : v = _ := hsem
      exact ⟨rfl, rfl, rfl⟩
    refine Prog.Alone.bind (alone_onLogger (hlow _)) ?_
    rintro - s₁ ⟨hstored, hactive⟩
    refine Prog.Alone.mono (alone_publish (R := Stored _ (s.view k)) fun r v hsem => ?_)
      fun _ s₂ h₂ => ⟨h₂.1, h₂.2.trans hactive⟩
    obtain rfl : v = _ := hsem
    refine ⟨?_, hstored.cursor, hstored.caches⟩
    show (s₁.view k).mem.store (slot.headWord + 4) _ = _
    rw [hstored.mem, ← Setting.Publication.halves, ← Mem.store_store_append, leBytes_length]
  · simp only [if_neg hsplit]
    refine alone_publish (R := Stored _ (s.view k)) fun r v hsem => ?_
    obtain rfl : v = _ := hsem
    exact ⟨rfl, rfl, rfl⟩

/-- The copies of a payload: the Message's own part, and the record's, zeros when there are
none to copy. -/
theorem alone_storeEncoded {r : AbiRecord} {slot : Reservation}
    {own : List UInt8} (hown : own.length = sizeofMessagePayload) {v : State τ}
    (hreserved : Reserved (lg k) header t es (sizeofMessagePayload + r.writtenBytes) slot v.mem v)
    (hcopied : Stored (v.mem.store (slot.headWord + 8) own) v (s.view k)) :
    (storeEncoded k r slot).Alone (sem lg) t (fun _ s' =>
      Stored (v.mem.store (slot.headWord + 8) (own ++ r.encoded)) v (s'.view k) ∧
        s'.active = s.active) s := by
  have hzero : ∀ x, slot.headWord + 8 + own.length ≤ x →
      x < slot.headWord + 8 + own.length + r.writtenBytes → v.mem x = 0 := fun x h₁ h₂ => by
    have hpad := le_paddedPayload (sizeofMessagePayload + r.writtenBytes)
    refine hreserved.zero (by omega) ?_
    unfold recordFootprint
    omega
  unfold storeEncoded AbiRecord.encoded
  cases hpayload : r.payload with
  | none =>
    refine ⟨?_, rfl⟩
    show Stored (v.mem.store (slot.headWord + 8) (own ++ List.replicate r.writtenBytes 0)) v
      (s.view k)
    rw [Mem.store_append_zeros hzero]
    exact hcopied
  | some bytes =>
    show (if 0 < r.writtenBytes then onLogger k (copyBytes _ (bytes.take r.writtenBytes))
      else pure ()).Alone _ _ _ _
    by_cases hsome : 0 < r.writtenBytes
    · rw [if_pos hsome]
      refine (alone_onLogger (stored_copyBytes _ _ _)).mono ?_
      rintro - s' ⟨hstored, hactive⟩
      refine ⟨⟨?_, hstored.cursor.trans hcopied.cursor, hstored.caches.trans hcopied.caches⟩,
        hactive⟩
      rw [hstored.mem, hcopied.mem, ← hown, Mem.store_store_append]
    · have hnone : r.writtenBytes = 0 := Nat.eq_zero_of_not_pos hsome
      rw [if_neg hsome]
      refine ⟨?_, rfl⟩
      show Stored (v.mem.store (slot.headWord + 8) (own ++ bytes.take r.writtenBytes)) v
        (s.view k)
      rw [hnone, List.take_zero, List.append_nil]
      exact hcopied

/-- The part of `sub0logAbiHostEmit` behind its reservation. -/
theorem sequence_storeMessage (hs : (lg k).segment.Sound) {r : AbiRecord} {slot : Reservation}
    (h : Reserved (lg k) header t es (sizeofMessagePayload + r.writtenBytes) slot (s.view k).mem
      (s.view k)) (hactive : s.active = some k) :
    (storeMessage lg k r slot).Alone (sem lg) t (fun _ s' => ∃ monoNs correlationId sequence,
      HostSequence lg header t k (es ++ [messageEntry r monoNs correlationId sequence]) s') s := by
  refine Prog.Alone.perform ?_
  intro scope s₁ hscope
  obtain rfl : s₁ = s := hscope
  have hclock : monotonicNow.Alone (Producer.sem (lg k)) t (fun _ v => v = s₁.view k)
      (s₁.view k) := fun _ _ hnow => hnow
  refine Prog.Alone.bind (alone_onLogger hclock) ?_
  rintro monoNs s₂ ⟨hview₂, hactive₂⟩
  refine Prog.Alone.bind (alone_onLogger (stored_copyBytes _ _ _)) ?_
  rintro - s₃ ⟨hstored₃, hactive₃⟩
  rw [hview₂] at hstored₃
  refine Prog.Alone.bind (alone_storeEncoded (MessagePayload.toBytes_length _) h hstored₃) ?_
  rintro - s₄ ⟨hstored₄, hactive₄⟩
  refine Prog.Alone.bind (alone_commitMessage _ _ _ _ s₄) ?_
  rintro - s₅ ⟨hstored₅, hactive₅⟩
  -- the record is there
  let e := messageEntry r monoNs ((lg k).correlation scope) slot.sequence
  have hlength : e.payload.length = sizeofMessagePayload + r.writtenBytes := by
    show ((MessagePayload.mk r.siteId monoNs _).toBytes ++ r.encoded).length = _
    rw [List.length_append, MessagePayload.toBytes_length, r.encoded_length]
  have hcommitted : Stored ((s₁.view k).mem.store slot.headWord e.bytes) (s₁.view k)
      (s₅.view k) := by
    refine ⟨?_, hstored₅.cursor.trans hstored₄.cursor, hstored₅.caches.trans hstored₄.caches⟩
    rw [hstored₅.mem, hstored₄.mem, ← h.bytes hlength]
    show _ = Mem.store _ slot.headWord (leBytes 8 (RecordHead.mk _ .message _ _).pack)
    rw [← hlength]
    rfl
  have hsequence := h.committed hs (e := e) hlength (fun _ hother => by cases hother) rfl hcommitted
  refine Prog.Alone.mono (alone_onLogger (sequence_countTruncationIf hsequence _)) ?_
  rintro - s₆ ⟨hsequence₆, hactive₆⟩
  refine ⟨monoNs, (lg k).correlation scope, slot.sequence, hsequence₆, ?_⟩
  rw [hactive₆, hactive₅, hactive₄, hactive₃, hactive₂, hactive]

/-- What a call leaves: the records there were, and one it may have written. -/
def Wrote (lg : κ → Logger τ) (header : SegmentHeader) (t : τ) (k : κ) (es : List Entry)
    (c : HostCall κ) (s : HostState κ τ) : Prop :=
  HostSequence lg header t k es s ∨ ∃ e, EntryOf (lg k).segment.capacity c e ∧
    HostSequence lg header t k (es ++ [e]) s

/-- The bound Logger is found. -/
theorem sequence_loadActive (h : HostSequence lg header t k es s) :
    loadActive.Alone (sem lg) t (fun found s' => found = some k ∧
      HostSequence lg header t k es s') s := by
  rintro found s' ⟨rfl, rfl⟩
  exact ⟨h.2, h⟩

theorem sequence_loadThreshold (h : HostSequence lg header t k es s) (subsystem : UInt32) :
    (loadThreshold k subsystem).Alone (sem lg) t (fun _ => HostSequence lg header t k es) s := by
  intro value s' hsem
  obtain rfl : s' = _ := hsem
  exact h

/-- `sub0logAbiHostDefineSite`. -/
theorem defineSite_writes (hs : (lg k).segment.Sound) (h : HostSequence lg header t k es s)
    (d : SiteDefinition) :
    (defineSite lg d).Alone (sem lg) t (fun _ => Wrote lg header t k es (.defineSite d)) s := by
  refine Prog.Alone.bind (sequence_loadActive h) ?_
  rintro found s₁ ⟨rfl, hsequence, hactive⟩
  refine Prog.Alone.bind (alone_onLogger
    (sequence_writeSiteDefinitionCore hs hsequence d none)) ?_
  rintro written s₂ ⟨hdefined, hactive₂⟩
  have hbound : s₂.active = some k := hactive₂.trans hactive
  cases written with
  | true =>
    obtain ⟨sequence, hsequence₂⟩ := hdefined
    refine (alone_recordFrom (k := k) _ _ _ _ s₂).mono fun _ s₃ hkept => Or.inr ?_
    exact ⟨_, .definition d sequence, HostSequence.kept ⟨hsequence₂, hbound⟩ hkept⟩
  | false => exact Or.inl ⟨hdefined, hbound⟩

/-- `sub0logAbiHostEmit`. -/
theorem emitRecord_writes (hs : (lg k).segment.Sound) (h : HostSequence lg header t k es s)
    (record : Option AbiRecord) :
    (emitRecord lg record).Alone (sem lg) t (fun _ => Wrote lg header t k es (.emitRecord record))
      s := by
  cases record with
  | none => exact Or.inl h
  | some r =>
    refine Prog.Alone.bind (sequence_loadActive h) ?_
    rintro found s₁ ⟨rfl, h₁⟩
    refine Prog.Alone.bind (sequence_loadThreshold h₁ _) ?_
    intro threshold s₂ h₂
    split
    · exact Or.inl h₂
    refine Prog.Alone.bind (alone_generationFrom (k := k) _ _ _ s₂) ?_
    intro generation s₃ hkept
    have h₃ := h₂.kept hkept
    split
    · -- not announced: counted
      refine (alone_onLogger (sequence_countDrop h₃.1 none)).mono ?_
      rintro - s₄ ⟨hsequence₄, hactive₄⟩
      exact Or.inl ⟨hsequence₄, hactive₄.trans h₃.2⟩
    · refine Prog.Alone.bind (alone_onLogger (sequence_reserveRecord hs h₃.1 _ none)) ?_
      rintro slot s₄ ⟨hslot, hactive₄⟩
      have hbound : s₄.active = some k := hactive₄.trans h₃.2
      cases slot with
      | none => exact Or.inl ⟨hslot, hbound⟩
      | some slot =>
        refine (sequence_storeMessage hs hslot hbound).mono ?_
        rintro - s₅ ⟨monoNs, correlationId, sequence, h₅⟩
        exact Or.inr ⟨_, .message r monoNs correlationId sequence, h₅⟩

/-- One call that leaves the Logger bound. -/
theorem call_writes (hs : (lg k).segment.Sound) (h : HostSequence lg header t k es s)
    {c : HostCall κ} (hc : ∀ k', c ≠ .rebind k') :
    (call lg c).Alone (sem lg) t (fun _ => Wrote lg header t k es c) s := by
  cases c with
  | defineSite d => exact defineSite_writes hs h d
  | emitRecord record => exact emitRecord_writes hs h record
  | rebind k' => exact absurd rfl (hc k')

/-- All calls: those that wrote a record, in order, with their records. -/
theorem thread_writes (hs : (lg k).segment.Sound) {calls : List (HostCall κ)}
    (hcalls : ∀ k', .rebind k' ∉ calls) (h : HostSequence lg header t k es s) :
    (thread lg calls).Alone (sem lg) t (fun _ s' => ∃ done : List (HostCall κ × Entry),
      (done.map Prod.fst).Sublist calls ∧
      (∀ p ∈ done, EntryOf (lg k).segment.capacity p.1 p.2) ∧
      HostSequence lg header t k (es ++ done.map Prod.snd) s') s := by
  induction calls generalizing es s with
  | nil => exact ⟨[], .slnil, (fun p hp => by cases hp), by simpa using h⟩
  | cons c calls ih =>
    have hrest : ∀ k', .rebind k' ∉ calls := fun k' hmem =>
      hcalls k' (List.mem_cons_of_mem _ hmem)
    refine Prog.Alone.bind (call_writes hs h fun k' heq => hcalls k' (heq ▸ List.mem_cons_self)) ?_
    rintro - s₁ (hnone | ⟨e, hentry, hone⟩)
    · refine (ih hrest hnone).mono ?_
      rintro - s₂ ⟨done, hsub, hentries, h₂⟩
      exact ⟨done, hsub.cons _, hentries, h₂⟩
    · refine (ih hrest hone).mono ?_
      rintro - s₂ ⟨done, hsub, hentries, h₂⟩
      refine ⟨(c, e) :: done, hsub.cons_cons _, ?_, ?_⟩
      · intro p hp
        rcases List.mem_cons.mp hp with rfl | hp
        · exact hentry
        · exact hentries p hp
      · rw [List.map_cons, ← List.singleton_append, ← List.append_assoc]
        exact h₂

/-! ### What the reader finds -/

/-- Logger `k` is bound to a created segment that readers open; nothing was logged. -/
structure HostState.Bound (lg : κ → Logger τ) (k : κ) (s : HostState κ τ) : Prop where
  active : s.active = some k
  launched : ∃ mem, Creates (lg k).segment mem ∧
    (∃ r, openImage (image (lg k).segment mem) = .ok r) ∧ Untouched (lg k) mem (s.view k)

/-- A view is that of the record a call wrote. -/
def ShowsCall (lg : Logger τ) (t : τ) (c : HostCall κ) (v : RecordView) : Prop :=
  ∃ e, EntryOf lg.segment.capacity c e ∧ ShownAs (lg.threadId t) e v

/-- The calls behind the records a reader finds. -/
structure Recorded (lg : Logger τ) (t : τ) (calls : List (HostCall κ)) (records : List RecordView)
    (done : List (HostCall κ × RecordView)) : Prop where
  calls : (done.map Prod.fst).Sublist calls
  records : done.map Prod.snd = records
  shown : ∀ q ∈ done, ShowsCall lg t q.1 q.2

/-- **What a thread's calls leave**, no other thread taking a step: a segment whose records
are those of calls of the thread, in their order. -/
theorem calls_visit {calls : List (HostCall κ)} (hcalls : ∀ k', .rebind k' ∉ calls)
    {p p' : Pool (ι := HostOp κ) HostOp.Answer τ (HostState κ τ) Unit}
    (hbound : p.shared.Bound lg k) (hprog : p.prog t = thread lg calls)
    (hrun : ReachableBy (sem lg) t p p') (hreturned : p'.prog t = .ret ()) :
    ∃ r v done, openImage (image (lg k).segment (p'.shared.view k).mapped) = .ok r ∧
      visit r = .ok v ∧ Recorded (lg k) t calls v.records done := by
  obtain ⟨mem, hcreates, ⟨r₀, hopens⟩, huntouched⟩ := hbound.launched
  have hs := hcreates.sound hopens
  obtain ⟨header, hfresh⟩ := hcreates.fresh
  have hstart : HostSequence lg header t k [] p.shared :=
    ⟨sequence_untouched hs hfresh huntouched, hbound.active⟩
  have halone := thread_writes hs hcalls hstart
  rw [← hprog] at halone
  obtain ⟨done, hsub, hentries, hsequence, -⟩ := halone.returned hrun hreturned
  obtain ⟨r, v, hopen, hvisit, hshown⟩ := hsequence.visit hs
  rw [List.nil_append] at hshown
  have hlength : done.length = v.records.length := by
    rw [← hshown.length_eq, List.length_map]
  refine ⟨r, v, (done.map Prod.fst).zip v.records, hopen, hvisit, ?_, ?_, ?_⟩
  · rw [List.map_fst_zip (by rw [List.length_map, hlength])]
    exact hsub
  · exact List.map_snd_zip (by rw [List.length_map, hlength])
  · intro q hq
    obtain ⟨i, hi, hget⟩ := List.mem_iff_getElem.mp hq
    rw [List.getElem_zip] at hget
    subst hget
    have hi' : i < done.length := by
      rw [List.length_zip, List.length_map] at hi
      omega
    refine ⟨done[i].2, ?_, ?_⟩
    · rw [List.getElem_map]
      exact hentries _ (List.getElem_mem hi')
    · have hat := hshown.get (i := i) (by rw [List.length_map]; exact hi') (hlength ▸ hi')
      simpa using hat

/-! ### Definitions -/

/-- What a segment with chunks of this capacity keeps of a definition. -/
def keptSite (capacity : Nat) (d : SiteDefinition) : DecodedSite :=
  shownSite d (d.lengths capacity).1 (d.lengths capacity).2.1

/-- The definition a call may have written. -/
def HostCall.site? (capacity : Nat) : HostCall κ → Option DecodedSite
  | .defineSite d => some (keptSite capacity d)
  | .emitRecord _ | .rebind _ => none

/-- A definition is cut to what a head word can describe. -/
theorem definition_length_lt (capacity : Nat) (d : SiteDefinition) :
    (d.payload (d.lengths capacity).1 (d.lengths capacity).2.1).length < 2 ^ 16 := by
  obtain ⟨hformat, hfile⟩ := d.lengths_le capacity
  rw [d.payload_length hformat hfile]
  have hcodes := d.typeCodes_le
  unfold SiteDefinition.lengths
  by_cases hfits : fitsEmpty capacity d.wholeBytes
  · rw [if_pos hfits]
    exact Nat.lt_of_le_of_lt hfits.1 (by decide)
  · rw [if_neg hfits]
    unfold SiteDefinition.cutLengths definitionPayloadBytes sizeofSiteDefinitionPayload
    simp only
    omega

omit [DecidableEq κ] [DecidableEq τ] in
/-- A reader has the definition a call wrote. -/
theorem definitionOf_shown {lg : Logger τ} {c : HostCall κ} {v : RecordView}
    (h : ShowsCall lg t c v) : definitionOf v = c.site? lg.segment.capacity := by
  obtain ⟨e, hentry, hshown⟩ := h
  cases hentry with
  | definition d sequence =>
    have hkind : v.head.kind = .siteDefinition := by rw [hshown.head]; rfl
    have hpayload : v.payload = d.payload (d.lengths lg.segment.capacity).1
      (d.lengths lg.segment.capacity).2.1 := hshown.payload
    unfold definitionOf
    rw [if_pos hkind, hpayload, siteDefinition_shown (definition_length_lt _ d)]
    rfl
  | message r monoNs correlationId sequence =>
    refine if_neg ?_
    rw [hshown.head]
    exact fun heq => by cases heq

omit [DecidableEq κ] [DecidableEq τ] in
/-- The definitions a reader collects are those of the calls that wrote one. -/
theorem Recorded.definitions {lg : Logger τ} {calls : List (HostCall κ)}
    {records : List RecordView} {done : List (HostCall κ × RecordView)}
    (h : Recorded lg t calls records done) :
    definitions records = done.filterMap fun q => q.1.site? lg.segment.capacity := by
  unfold Reader.definitions
  rw [← h.records, List.filterMap_map]
  exact List.filterMap_congr fun q hq => definitionOf_shown (h.shown q hq)

omit [DecidableEq τ] in
/-- The small host's Logger is bound. -/
theorem smallStart_bound {chunks : Fin 8} (h : 0 < chunks.val) (threadId : τ → UInt64) :
    (smallStart τ chunks).Bound (smallHost τ chunks threadId) () := by
  refine ⟨rfl, (smallSegment chunks).2, .memory _ _ _ (smallSegment_created h), ?_, ?_⟩
  · obtain ⟨header, hfresh⟩ := Segment.createInMemory_fresh (smallSegment_created h)
    exact ⟨_, openImage_image (Segment.createInMemory_sound (smallSegment_created h))
      hfresh.toHeaded⟩
  · exact ⟨rfl, rfl, fun _ => show (0 : UInt64) ≠ 3 by decide,
      fun _ howner => absurd howner (show (0 : Nat) ≠ 8 by decide), rfl, rfl, rfl⟩

end Sub0Log.Abi
