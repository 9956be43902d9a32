import Sub0Log.Reader.Accounting

/-!
# What is spliced into a record

A Message whose flags promise a Continuation is returned with the slices of a chain joined
to its arguments. `Spliced` says which: the records that come right behind the Message in
the order of the visit, all of them Continuations, each but the last promising another,
each naming a Bytes argument of the Message's site.

**`decodeAll_splices`** holds of every image: what is returned is spliced so, and what is
not is counted. The records of one chunk lie one right behind the other
(`body_offsets_chain`), so a chain has no gap inside a chunk; it stays in its Message's chunk
unless a chunk begins with a Continuation, which no producer writes. The site a Continuation
names is redundant by design and is not compared (`splices_stray`).
-/

open Bytes Checked

namespace Sub0Log.Reader

open Wire

/-! ### Chains -/

/-- The argument a Continuation extends. -/
def sliceIndex (c : RecordView) : Nat :=
  (ContinuationPayload.ofBytes (c.payload.take sizeofContinuationPayload)).argIndex.toNat

/-- The bytes it extends the argument by. -/
def sliceBytes (c : RecordView) : List UInt8 := c.payload.drop sizeofContinuationPayload

/-- The arguments with one slice joined. -/
def splice (args : List DecodedArg) (c : RecordView) : List DecodedArg :=
  match args[sliceIndex c]? with
  | some (.bytes value) => args.set (sliceIndex c) (.bytes (value ++ sliceBytes c))
  | _ => args

/-- A Continuation that may extend a record of `site`. -/
structure Legitimate (site : DecodedSite) (c : RecordView) : Prop where
  kind : c.head.kind = .continuation
  size : sizeofContinuationPayload ≤ c.payload.length
  target : site.argTypes[sliceIndex c]? = some .bytes

/-- `rec` is the Message `m` with the slices of `chain` joined. -/
structure Joined (sites : List DecodedSite) (generation : UInt64) (m : RecordView)
    (chain : List RecordView) (rec : DecodedRecord) : Prop where
  kind : m.head.kind = .message
  base : ∃ base, message sites generation m = some base ∧
    rec = { base with args := chain.foldl splice base.args }
  slices : ∀ c ∈ chain, Legitimate rec.site c

/-- `Joined`, and the chain is whole: every record but the last promises another one. -/
structure Spliced (sites : List DecodedSite) (generation : UInt64) (m : RecordView)
    (chain : List RecordView) (rec : DecodedRecord) : Prop
    extends Joined sites generation m chain rec where
  promised : ∀ x ∈ (m :: chain).dropLast, PassTwo.continued x = true
  ended : ∀ x ∈ (m :: chain).getLast?, PassTwo.continued x = false

/-- One more slice. -/
theorem Joined.concat {sites : List DecodedSite} {generation : UInt64} {m c : RecordView}
    {chain : List RecordView} {rec : DecodedRecord} (h : Joined sites generation m chain rec)
    (hc : Legitimate rec.site c) :
    Joined sites generation m (chain ++ [c]) { rec with args := splice rec.args c } := by
  obtain ⟨base, hbase, rfl⟩ := h.base
  refine ⟨h.kind, ⟨base, hbase, ?_⟩, fun c' hc' => ?_⟩
  · rw [List.foldl_append]
    rfl
  · rcases List.mem_append.mp hc' with hold | hnew
    · exact h.slices c' hold
    · rw [List.mem_singleton.mp hnew]
      exact hc

/-! ### The second pass -/

/-- What the second pass has spliced after the records `done`. -/
structure SpliceInv (sites : List DecodedSite) (generation : UInt64) (done : List RecordView)
    (s : PassTwo) : Prop where
  returned : ∀ rec ∈ s.result, ∃ before m chain after, done = before ++ m :: chain ++ after ∧
    Spliced sites generation m chain rec
  pending : ∀ rec, s.pending = some rec → s.damaged = false →
    ∃ before m chain, done = before ++ m :: chain ∧ Joined sites generation m chain rec ∧
      ∀ x ∈ m :: chain, PassTwo.continued x = true

section PassTwo

variable {sites : List DecodedSite} {generation : UInt64} {done : List RecordView} {s : PassTwo}

/-- Returned records stay spliced while the stream goes on. -/
theorem returned_concat (v : RecordView)
    (h : ∀ rec ∈ s.result, ∃ before m chain after, done = before ++ m :: chain ++ after ∧
      Spliced sites generation m chain rec) :
    ∀ rec ∈ s.result, ∃ before m chain after,
      done ++ [v] = before ++ m :: chain ++ after ∧ Spliced sites generation m chain rec := by
  intro rec hrec
  obtain ⟨before, m, chain, after, hdone, hspliced⟩ := h rec hrec
  exact ⟨before, m, chain, after ++ [v], by rw [hdone, List.append_assoc], hspliced⟩

/-- A slice is joined to the pending record, or it damages the chain. -/
theorem consumeSlice_cases {rec : DecodedRecord} (hpending : s.pending = some rec)
    (hinv : PendingInv rec s.pendingOwned) {v : RecordView}
    (hkind : v.head.kind = .continuation) :
    s.consumeSlice v.payload = .ok s.damage ∨
      (s.damaged = false ∧ Legitimate rec.site v ∧ ∃ owned, s.consumeSlice v.payload =
        .ok { s with
          pending := some { rec with args := splice rec.args v }
          pendingOwned := owned }) := by
  have hindex : (ContinuationPayload.ofBytes
      ((v.payload.drop 0).take sizeofContinuationPayload)).argIndex.toNat = sliceIndex v := rfl
  by_cases hshort : v.payload.length < sizeofContinuationPayload
  · left
    unfold PassTwo.consumeSlice
    rw [if_pos hshort]
    rfl
  have hsize : sizeofContinuationPayload ≤ v.payload.length := Nat.le_of_not_lt hshort
  have hconsume : s.consumeSlice v.payload = s.joinSlice v.payload := if_neg hshort
  rw [hconsume]
  by_cases hvalid : s.validTarget (sliceIndex v) = false
  · left
    unfold PassTwo.joinSlice
    rw [Checked.read_eq (by omega)]
    simp only [ok_bind, hindex]
    rw [if_pos hvalid]
    rfl
  have htargets := hvalid
  unfold PassTwo.validTarget at htargets
  rw [hpending] at htargets
  simp only [Bool.not_eq_false, Bool.and_eq_true, beq_iff_eq, Bool.not_eq_true'] at htargets
  obtain ⟨⟨hdamaged, -⟩, htarget⟩ := htargets
  obtain ⟨value, hvalue, hjoined⟩ := joinedSoFar_eq hinv htarget
  refine Or.inr ⟨hdamaged, ⟨hkind, hsize, htarget⟩,
    s.pendingOwned.set (sliceIndex v) (some (value ++ sliceBytes v)), ?_⟩
  have hsplice : splice rec.args v =
      rec.args.set (sliceIndex v) (.bytes (value ++ sliceBytes v)) := by
    unfold splice
    rw [hvalue]
  have htail : (v.payload.drop sizeofContinuationPayload).take
      (v.payload.length - sizeofContinuationPayload) = sliceBytes v :=
    List.take_of_length_le (by rw [List.length_drop])
  unfold PassTwo.joinSlice
  rw [Checked.read_eq (by omega)]
  simp only [ok_bind, hindex]
  rw [if_neg hvalid, hpending]
  simp only
  rw [hjoined, ok_bind, sub64_eq hsize]
  simp only [ok_bind]
  rw [Checked.read_eq (by omega), htail, hsplice]
  rfl

/-- A record outside any chain. -/
theorem handleRecord_splices (v : RecordView) (hpending : s.pending = none)
    (hreturned : ∀ rec ∈ s.result, ∃ before m chain after,
      done = before ++ m :: chain ++ after ∧ Spliced sites generation m chain rec)
    {s' : PassTwo} (hstep : PassTwo.handleRecord sites generation s v = .ok s') :
    SpliceInv sites generation (done ++ [v]) s' := by
  have hkeep : SpliceInv sites generation (done ++ [v]) s := by
    refine ⟨returned_concat v hreturned, fun rec hrec => ?_⟩
    rw [hpending] at hrec
    cases hrec
  unfold PassTwo.handleRecord at hstep
  split at hstep
  · cases hstep
    exact ⟨hkeep.returned, hkeep.pending⟩
  split at hstep
  · cases hstep
    exact hkeep
  rename_i hmessage
  have hkind : v.head.kind = .message := by simpa using hmessage
  rw [decodeMessage_eq] at hstep
  simp only [ok_bind] at hstep
  cases hdecoded : message sites generation v with
  | none =>
    rw [hdecoded] at hstep
    cases hstep
    exact ⟨hkeep.returned, hkeep.pending⟩
  | some rec =>
    rw [hdecoded] at hstep
    simp only at hstep
    have hjoined : Joined sites generation v [] rec :=
      ⟨hkind, ⟨rec, hdecoded, rfl⟩, fun c hc => by cases hc⟩
    by_cases hcontinued : PassTwo.continued v = true
    · -- a chain opens
      rw [if_pos hcontinued] at hstep
      cases hstep
      refine ⟨hkeep.returned, fun rec' hrec' _ => ⟨done, v, [], rfl, ?_, ?_⟩⟩
      · cases hrec'
        exact hjoined
      · intro x hx
        rw [List.mem_singleton.mp hx]
        exact hcontinued
    · rw [if_neg hcontinued] at hstep
      cases hstep
      refine ⟨fun rec' hrec' => ?_, hkeep.pending⟩
      rcases List.mem_append.mp hrec' with hold | hnew
      · exact hkeep.returned rec' hold
      · rw [List.mem_singleton.mp hnew]
        refine ⟨done, v, [], [], (List.append_nil _).symm, hjoined, ?_, ?_⟩
        · intro x hx
          cases hx
        · rintro x ⟨⟩
          simpa using hcontinued

/-- Ending the chain returns the pending record unless it is damaged. -/
theorem finalizePending_returned
    (hreturned : ∀ rec ∈ s.result, ∃ before m chain after,
      done = before ++ m :: chain ++ after ∧ Spliced sites generation m chain rec)
    (hpending : ∀ rec, s.pending = some rec → s.damaged = false →
      ∃ before m chain after, done = before ++ m :: chain ++ after ∧
        Spliced sites generation m chain rec) :
    ∀ rec ∈ s.finalizePending.result, ∃ before m chain after,
      done = before ++ m :: chain ++ after ∧ Spliced sites generation m chain rec := by
  unfold PassTwo.finalizePending
  cases hsome : s.pending with
  | none => exact hreturned
  | some rec =>
    cases hdamaged : s.damaged with
    | true => exact hreturned
    | false =>
      intro rec' hrec'
      rcases List.mem_append.mp hrec' with hold | hnew
      · exact hreturned rec' hold
      · rw [List.mem_singleton.mp hnew]
        exact hpending rec hsome hdamaged

/-- A Continuation that the pending record was waiting for. -/
theorem consumeContinuation_splices {v : RecordView} {rec : DecodedRecord}
    (h : SpliceInv sites generation done s) (hpending : s.pending = some rec)
    (hinv : PendingInv rec s.pendingOwned) (hkind : v.head.kind = .continuation) {s' : PassTwo}
    (hstep : s.consumeContinuation v = .ok s') : SpliceInv sites generation (done ++ [v]) s' := by
  unfold PassTwo.consumeContinuation at hstep
  rcases consumeSlice_cases hpending hinv hkind with hdamage | ⟨hdamaged, hlegitimate, owned, hjoin⟩
  · -- the chain is damaged: nothing of it is returned any more
    have hreturned := returned_concat v h.returned
    rw [hdamage] at hstep
    simp only [ok_bind] at hstep
    split at hstep
    · cases hstep
      exact ⟨hreturned, fun rec' _ hundamaged => by cases hundamaged⟩
    · cases hstep
      refine ⟨finalizePending_returned (s := s.damage) hreturned fun rec' _ hundamaged => ?_,
        fun rec' hrec' => ?_⟩
      · cases hundamaged
      · unfold PassTwo.finalizePending PassTwo.damage at hrec'
        rw [hpending] at hrec'
        cases hrec'
  · obtain ⟨before, m, chain, hdone, hjoined, hcontinued⟩ := h.pending rec hpending hdamaged
    have hjoined' := hjoined.concat hlegitimate
    have hsplit : done ++ [v] = before ++ m :: (chain ++ [v]) := by
      rw [hdone, List.append_assoc, List.cons_append]
    rw [hjoin] at hstep
    simp only [ok_bind] at hstep
    split at hstep
    · rename_i hmore
      cases hstep
      refine ⟨returned_concat v h.returned, fun rec' hrec' _ =>
        ⟨before, m, chain ++ [v], hsplit, ?_, fun x hx => ?_⟩⟩
      · cases hrec'
        exact hjoined'
      · rw [← List.cons_append] at hx
        rcases List.mem_append.mp hx with hold | hnew
        · exact hcontinued x hold
        · rw [List.mem_singleton.mp hnew]
          exact hmore
    · rename_i hlast
      cases hstep
      have hpublished : ∃ before m chain after, done ++ [v] = before ++ m :: chain ++ after ∧
          Spliced sites generation m chain { rec with args := splice rec.args v } := by
        refine ⟨before, m, chain ++ [v], [], by rw [List.append_nil, hsplit], hjoined', ?_, ?_⟩
        · rw [← List.cons_append, List.dropLast_concat]
          exact hcontinued
        · rw [← List.cons_append, List.getLast?_concat]
          rintro x ⟨⟩
          simpa using hlast
      refine ⟨fun rec' hrec' => ?_, fun rec' hrec' => by cases hrec'⟩
      refine finalizePending_returned (s := { s with
        pending := some { rec with args := splice rec.args v }, pendingOwned := owned })
        (returned_concat v h.returned) (fun rec'' hrec'' _ => ?_) rec' hrec'
      cases hrec''
      exact hpublished

/-- **One record of pass two**, and what is spliced. -/
theorem step_splices {undecodable skipped : Nat} {v : RecordView}
    (hchain : ChainInv sites generation undecodable skipped done s)
    (h : SpliceInv sites generation done s) {s' : PassTwo}
    (hstep : PassTwo.step sites generation s v = .ok s') :
    SpliceInv sites generation (done ++ [v]) s' := by
  unfold PassTwo.step at hstep
  cases hpending : s.pending with
  | none =>
    have hexpecting : s.expectingContinuation = false := by rw [hchain.expecting, hpending]; rfl
    rw [if_neg (by rw [hexpecting]; decide)] at hstep
    exact handleRecord_splices v hpending h.returned hstep
  | some rec =>
    have hexpecting : s.expectingContinuation = true := by rw [hchain.expecting, hpending]; rfl
    rw [if_pos hexpecting] at hstep
    split at hstep
    · -- the chain is cut by another record
      refine handleRecord_splices v ?_ ?_ hstep
      · unfold PassTwo.finalizePending PassTwo.damage
        rw [hpending]
      · exact finalizePending_returned (s := s.damage) h.returned
          fun rec' _ hundamaged => by cases hundamaged
    · rename_i hkind
      exact consumeContinuation_splices h hpending (hchain.owned rec hpending)
        (not_not.mp hkind) hstep

/-- The end of the stream returns nothing that is still pending. -/
theorem finish_splices
    (h : SpliceInv sites generation done s) :
    ∀ rec ∈ s.finish.result, ∃ before m chain after,
      done = before ++ m :: chain ++ after ∧ Spliced sites generation m chain rec := by
  unfold PassTwo.finish
  cases hpending : s.pending with
  | none =>
    refine finalizePending_returned h.returned fun rec hrec => ?_
    rw [hpending] at hrec
    cases hrec
  | some rec =>
    exact finalizePending_returned (s := s.damage) h.returned
      fun rec' _ hundamaged => by cases hundamaged

end PassTwo

/-! ### Chains and chunks -/

/-- The first record of a body is at its beginning. -/
theorem body_offsets_head {m : Mem} {bodyEnd cursor a : Nat}
    (h : a ∈ (body m bodyEnd cursor).offsets.head?) : a = cursor := by
  rw [body] at h
  split at h
  · cases h
  split at h
  · cases h
  split at h
  · split at h <;> cases h
  split at h
  · cases h
  · cases h
    rfl

/-- The records of a body lie one right behind the other. -/
theorem body_offsets_chain (m : Mem) (bodyEnd cursor : Nat) :
    (body m bodyEnd cursor).offsets.IsChain
      fun a b => b = a + 8 + paddedPayload (payloadAt m a) := by
  fun_induction body m bodyEnd cursor with
  | case1 | case2 | case3 | case4 | case5 => exact List.IsChain.nil
  | case6 cursor h₁ h₂ h₃ h₄ rest ih =>
    show (cursor :: rest.offsets).IsChain _
    cases hrest : rest.offsets with
    | nil => exact List.IsChain.singleton _
    | cons b offsets =>
      have hhead : b ∈ (body m bodyEnd (cursor + 8 + paddedPayload
          (payloadAt m cursor))).offsets.head? := by
        show b ∈ rest.offsets.head?
        rw [hrest]
        rfl
      exact List.IsChain.cons_cons (body_offsets_head hhead) (hrest ▸ ih)

/-- No gap between the records of one chunk. -/
def Contiguous (a b : RecordView) : Prop :=
  b.recordOffset = a.recordOffset + 8 + paddedPayload a.payload.length

/-- The records of one slot are contiguous. -/
theorem walkSlot_contiguous {g : Geometry} {m : Mem} {size chunkStart : Nat}
    {chunkIndex : UInt32} {s : SlotVisit}
    (hs : s ∈ (g.walkSlot m size chunkStart chunkIndex).slots) :
    s.records.IsChain Contiguous := by
  unfold Geometry.walkSlot at hs
  cases hslot : g.slot m size chunkStart with
  | current owner bytes =>
    rw [hslot] at hs
    obtain rfl := List.mem_singleton.mp hs
    refine (List.isChain_map _).mpr
      ((body_offsets_chain m _ _).imp fun a b hab => ?_)
    unfold Contiguous
    rw [viewAt_payload_length]
    exact hab
  | _ =>
    rw [hslot] at hs
    obtain rfl := List.mem_singleton.mp hs
    exact List.IsChain.nil

/-- What a joined list begins with, one of the lists begins with. -/
theorem head_of_flatten {α : Type} {ls : List (List α)} {a : α} {rest : List α}
    (h : ls.flatten = a :: rest) : ∃ l ∈ ls, a ∈ l.head? := by
  obtain ⟨pre, l, post, rfl, -, -⟩ := List.flatten_eq_cons_iff.mp h
  exact ⟨a :: l, by simp, rfl⟩

/-- A stretch of a joined list lies in one of the lists, if none of them begins with what
the stretch goes on with. -/
theorem infix_of_flatten {α : Type} {p : α → Prop} {ls : List (List α)}
    {before chain after : List α} {a : α} (h : ls.flatten = before ++ a :: chain ++ after)
    (hchain : ∀ x ∈ chain, p x) (hheads : ∀ l ∈ ls, ∀ x ∈ l.head?, ¬p x) :
    ∃ l ∈ ls, a :: chain <:+: l := by
  induction ls generalizing before with
  | nil => simp at h
  | cons l ls ih =>
    have hrest := fun l' hl' => hheads l' (List.mem_cons_of_mem _ hl')
    rw [List.flatten_cons, List.append_assoc] at h
    rcases List.append_eq_append_iff.mp h with ⟨mid, hbefore, htail⟩ | ⟨mid, hl, htail⟩
    · -- the stretch begins behind this list
      have hlater : ls.flatten = mid ++ a :: chain ++ after := by rw [htail, List.append_assoc]
      obtain ⟨l', hl', hinfix⟩ := ih hlater hrest
      exact ⟨l', List.mem_cons_of_mem _ hl', hinfix⟩
    · cases mid with
      | nil =>
        -- it begins exactly behind this list
        have hlater : ls.flatten = [] ++ a :: chain ++ after := htail.symm
        obtain ⟨l', hl', hinfix⟩ := ih hlater hrest
        exact ⟨l', List.mem_cons_of_mem _ hl', hinfix⟩
      | cons x mid =>
        obtain ⟨rfl, hmid⟩ := List.cons.inj htail
        refine ⟨l, List.mem_cons_self, ?_⟩
        rw [hl]
        rcases List.append_eq_append_iff.mp hmid with ⟨more, rfl, -⟩ | ⟨more, hmore, hflatten⟩
        · exact ⟨before, more, by rw [List.append_assoc, List.cons_append]⟩
        · cases more with
          | nil =>
            rw [List.append_nil] at hmore
            exact ⟨before, [], by rw [List.append_nil, hmore]⟩
          | cons c more =>
            -- the chain would go on at the head of a later list
            obtain ⟨l', hl', hhead⟩ := head_of_flatten hflatten
            refine absurd (hchain c ?_) (hrest l' hl' c hhead)
            rw [hmore]
            exact List.mem_append_right _ List.mem_cons_self

/-! ### The whole call -/

theorem Spliced.congr {sites sites' : List DecodedSite} {generation : UInt64} {m : RecordView}
    {chain : List RecordView} {rec : DecodedRecord} (h : Spliced sites generation m chain rec)
    (hsites : ∀ id, siteFor sites id = siteFor sites' id) :
    Spliced sites' generation m chain rec := by
  obtain ⟨base, hbase, hrec⟩ := h.base
  exact ⟨⟨h.kind, ⟨base, (message_congr generation m hsites) ▸ hbase, hrec⟩, h.slices⟩,
    h.promised, h.ended⟩

/-- A spliced record is named by its Message's offset. -/
theorem Spliced.recordOffset_eq {sites : List DecodedSite} {generation : UInt64}
    {m : RecordView} {chain : List RecordView} {rec : DecodedRecord}
    (h : Spliced sites generation m chain rec) : rec.recordOffset = m.recordOffset := by
  obtain ⟨base, hbase, rfl⟩ := h.base
  exact (message_some hbase).2.2

/-- **Chain splicing.** For every image that opens: each returned record is its Message with
the slices of the Continuations that follow it at once in the order of the visit; the
records of one chunk have no gap between them; where no chunk begins with a Continuation the
whole chain lies in the Message's chunk. Every other Message is counted undecodable. -/
theorem decodeAll_splices (image : Image) : (∃ e, openImage image = .error e) ∨
    ∃ r v recs d, openImage image = .ok r ∧ visit r = .ok v ∧
      decodeAll Decoder.fresh r = .ok (recs, d) ∧
      (∀ rec ∈ recs, ∃ before m chain after, v.records = before ++ m :: chain ++ after ∧
        rec.recordOffset = m.recordOffset ∧
        Spliced (definitions v.records) r.header.generation m chain rec ∧
        ((∀ s ∈ v.slots, ∀ x ∈ s.records.head?, x.head.kind ≠ .continuation) →
          ∃ s ∈ v.slots, m :: chain <:+: s.records)) ∧
      (∀ s ∈ v.slots, s.records.IsChain Contiguous) ∧
      recs.Pairwise (fun a b => a.recordOffset < b.recordOffset) ∧
      recs.length + d.undecodable = v.records.countP isMessage
        + v.records.countP malformedSite + v.records.countP malformedSubsystem := by
  cases hopen : openImage image with
  | error e => exact Or.inl ⟨e, rfl⟩
  | ok r =>
    obtain ⟨v, d, s, hvisit, hpair, hdecode, htwo, hinv₁, hinv₂⟩ := decodeAll_run r
    -- the second pass once more, for what it splices
    obtain ⟨s', htwo', -, hsplices⟩ := foldlM_ok
      (f := PassTwo.step d.sites r.header.generation)
      (motive := fun done s =>
        ChainInv d.sites r.header.generation d.undecodable d.skipped done s ∧
          SpliceInv d.sites r.header.generation done s)
      (b := PassTwo.start d) v.records
      ⟨⟨by simp [PassTwo.start], rfl, rfl, rfl, fun _ => rfl, by simp [PassTwo.start],
        by simp [PassTwo.start], by simp [PassTwo.start]⟩,
        ⟨by simp [PassTwo.start], by simp [PassTwo.start]⟩⟩
      (by
        rintro done x s ⟨hchain, hsplice⟩
        obtain ⟨s', hstep, hchain'⟩ := step_inv done x s hchain
        exact ⟨s', hstep, hchain', step_splices hchain hsplice hstep⟩)
    obtain rfl : s = s' := by
      rw [htwo] at htwo'
      exact Except.ok.inj htwo'
    obtain ⟨hcount, -⟩ := finish_facts hinv₂
    obtain ⟨steps, -, hwalk⟩ := r.visit_eq_walk
    rw [hvisit] at hwalk
    have hslots : v.slots =
        (r.geometry.walk r.image.mem r.image.size r.header.headerBytes.toNat 0).slots := by
      rw [Except.ok.inj hwalk]
    refine Or.inr ⟨r, v, s.finish.result, _, rfl, hvisit, hdecode, ?_, ?_, ?_, ?_⟩
    · intro rec hrec
      obtain ⟨before, m, chain, after, hsplit, hspliced⟩ := finish_splices hsplices rec hrec
      refine ⟨before, m, chain, after, hsplit, hspliced.recordOffset_eq,
        hspliced.congr hinv₁.sites, fun hheads => ?_⟩
      have hflat : (v.slots.map SlotVisit.records).flatten = before ++ m :: chain ++ after := by
        rw [← hsplit]
        rfl
      obtain ⟨l, hl, hinfix⟩ := infix_of_flatten (p := fun x => x.head.kind = .continuation) hflat
        (fun c hc => (hspliced.slices c hc).kind) (by
          rintro l hl x hx
          obtain ⟨slot, hslot, rfl⟩ := List.mem_map.mp hl
          exact hheads slot hslot x hx)
      obtain ⟨slot, hslot, rfl⟩ := List.mem_map.mp hl
      exact ⟨slot, hslot, hinfix⟩
    · intro slot hslot
      rw [hslots] at hslot
      obtain ⟨start, index, hmem⟩ := mem_walk_slots hslot
      exact walkSlot_contiguous hmem
    · exact finish_sorted hinv₂ hpair
    · simp only
      rw [hcount, hinv₁.undecodable]
      omega

/-- A site with one Bytes argument, a Message of it at the end of the first chunk, and in
the second chunk a Continuation that names another site. -/
def strayHeader : SegmentHeader where
  magic := cMagic
  formatVersion := cFormatVersion
  headerBytes := 64
  chunkBytes := 112
  segmentBytes := 288
  generation := 1
  processId := 0
  anchorMonoNs := 0
  anchorWallNs := 0

def strayImage : Image where
  bytes := strayHeader.toBytes ++
    (ChunkHeader.mk 1 5 0 0 0).toBytes ++
    leBytes 8 (RecordHead.mk 29 .siteDefinition 0 0).pack ++
    (SiteDefinitionPayload.mk 16 0 1 2 1).toBytes ++ [TypeCode.bytes.toByte] ++
      List.replicate 7 0 ++
    leBytes 8 (RecordHead.mk 27 .message cFlagContinued 1).pack ++
    (MessagePayload.mk 16 0 0).toBytes ++ [1, 0, 97] ++ List.replicate 5 0 ++
    (ChunkHeader.mk 1 7 0 0 0).toBytes ++
    leBytes 8 (RecordHead.mk 17 .continuation 0 0).pack ++
    (ContinuationPayload.mk 99 0).toBytes ++ [98] ++ List.replicate 55 0
  size_le := by decide +kernel

def strayReader : SegmentReader := ⟨strayImage, strayHeader, by decide +kernel⟩

theorem openImage_stray : openImage strayImage = .ok strayReader :=
  openImage_of_slice (by decide +kernel) (by decide +kernel) rfl rfl _

def strayDefinition : RecordView where
  head := ⟨29, .siteDefinition, 0, 0⟩
  payload := (SiteDefinitionPayload.mk 16 0 1 2 1).toBytes ++ [13, 0, 0, 0, 0]
  chunkIndex := 0
  ownerThread := 5
  recordOffset := 96

def strayMessage : RecordView where
  head := ⟨27, .message, cFlagContinued, 1⟩
  payload := (MessagePayload.mk 16 0 0).toBytes ++ [1, 0, 97]
  chunkIndex := 0
  ownerThread := 5
  recordOffset := 136

def strayContinuation : RecordView where
  head := ⟨17, .continuation, 0, 0⟩
  payload := (ContinuationPayload.mk 99 0).toBytes ++ [98]
  chunkIndex := 1
  ownerThread := 7
  recordOffset := 208

theorem visit_stray : visit strayReader = .ok ⟨0, 48, 6,
    [⟨64, 176, [strayDefinition, strayMessage]⟩, ⟨176, 288, [strayContinuation]⟩]⟩ := by
  decide +kernel

/-- The record that is returned. -/
def strayRecord : DecodedRecord where
  site := ⟨16, 0, 2, 1, [], [], [.bytes]⟩
  monoNs := 0
  correlationId := 0
  ownerThread := 5
  truncated := false
  args := [.bytes [97, 98]]
  segmentGeneration := 1
  recordOffset := 136

theorem decodeAll_stray :
    (decodeAll Decoder.fresh strayReader).map Prod.fst = .ok [strayRecord] := by
  decide +kernel

/-- The site a Continuation names. -/
def sliceSite (c : RecordView) : UInt64 :=
  (ContinuationPayload.ofBytes (c.payload.take sizeofContinuationPayload)).siteId

/-- Neither the chunk nor the site of a Continuation is looked at: a record whose arguments
are more than its Message holds need not have a Continuation in the Message's chunk, nor one
that names its site. -/
theorem splices_stray : ¬ ∀ (image : Image) (r : SegmentReader) (v : Visit)
    (recs : List DecodedRecord) (d : Decoder), openImage image = .ok r → visit r = .ok v →
      decodeAll Decoder.fresh r = .ok (recs, d) →
      ∀ rec ∈ recs, ∀ m ∈ v.records, rec.recordOffset = m.recordOffset →
        message (definitions v.records) r.header.generation m ≠ some rec →
        ∃ c ∈ v.records, c.head.kind = .continuation ∧
          (c.chunkIndex = m.chunkIndex ∨ sliceSite c = (messageFixed m.payload).siteId) := by
  intro hall
  have hdecode := decodeAll_stray
  cases hrun : decodeAll Decoder.fresh strayReader with
  | error e =>
    rw [hrun] at hdecode
    cases hdecode
  | ok result =>
    obtain ⟨recs, d⟩ := result
    rw [hrun] at hdecode
    obtain rfl : recs = [strayRecord] := Except.ok.inj hdecode
    obtain ⟨c, hc, hkind, hnamed⟩ := hall strayImage strayReader _ _ d openImage_stray
      visit_stray hrun strayRecord List.mem_cons_self strayMessage
      (List.mem_cons_of_mem _ List.mem_cons_self) rfl (by decide +kernel)
    change c ∈ [strayDefinition, strayMessage, strayContinuation] at hc
    simp only [List.mem_cons, List.not_mem_nil, or_false] at hc
    rcases hc with rfl | rfl | rfl
    · cases hkind
    · cases hkind
    · revert hnamed
      decide +kernel

end Sub0Log.Reader
