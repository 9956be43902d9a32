import Sub0Log.System.Refusal

/-!
# A segment that one thread writes

While one thread writes and no other takes a step, what the segment holds is a list of
records: chunk after chunk, in each chunk record behind record, the last chunk being the one
the thread's writer stands in (`Sequence`). The record may be of any kind; this is what the
writers share that publish records of their own.

A reservation leaves the list and moves the writer on (`Reserved`). When the payload and the
head word are in their place the list is one record longer (`Reserved.committed`). A visit of
the image finds the list (**`Sequence.visit`**).
-/

open Bytes Interleaving

namespace Sub0Log.System

open Wire Reader Producer

variable {τ : Type} {lg : Logger τ} {header : SegmentHeader} {t : τ}
  {es : List Entry} {chunks : List (List Entry)} {s s' : State τ} {m : Mem}

/-! ### The records of a state -/

/-- The claimed chunks hold these records, and nothing was stored behind them. -/
structure Filled (lg : Logger τ) (header : SegmentHeader) (t : τ) (chunks : List (List Entry))
    (s : State τ) : Prop where
  headed : lg.segment.Headed header s.mem
  count : s.claimedChunks lg.segment = chunks.length
  holds : ∀ c es, chunks[c]? = some es → Holds lg.segment c (lg.threadId t) es s.mem
  unclaimed : ∀ x, lg.segment.chunkBase chunks.length ≤ x → x < lg.segment.segmentBytes →
    s.mem x = 0

/-- The writer behind these records of chunk `c`. -/
def writerBehind (seg : Segment) (c : Nat) (es : List Entry) : ChunkWriter :=
  ⟨seg.bodyBase c, seg.capacity, sizes es, UInt16.ofNat es.length⟩

/-- The thread's writer, if it has one of this Logger, stands behind the last record. -/
def AtEnd (lg : Logger τ) (t : τ) (chunks : List (List Entry)) (s : State τ) : Prop :=
  Owned lg t s → (s.caches t).writer.valid = true → ∃ before last, chunks = before ++ [last] ∧
    (s.caches t).writer = writerBehind lg.segment before.length last

/-- Thread `t` has written these records and is about to write another. -/
def Sequence (lg : Logger τ) (header : SegmentHeader) (t : τ) (es : List Entry) (s : State τ) :
    Prop :=
  ∃ chunks, chunks.flatten = es ∧ Filled lg header t chunks s ∧ AtEnd lg t chunks s

/-- A record with `n` bytes of payload may be laid down at `slot`. Since the reservation only
`m` was stored to, which is what the memory was. -/
def Reserved (lg : Logger τ) (header : SegmentHeader) (t : τ) (es : List Entry) (n : Nat)
    (slot : Reservation) (m : Mem) (s : State τ) : Prop :=
  ∃ before last, (before ++ [last]).flatten = es ∧
    Filled lg header t (before ++ [last]) { s with mem := m } ∧
    (writerBehind lg.segment before.length last).Fits n ∧
    slot = (writerBehind lg.segment before.length last).slot ∧
    (s.caches t).writer = (writerBehind lg.segment before.length last).advance n

/-- The writer behind one more record. -/
theorem writerBehind_concat (seg : Segment) (c : Nat) (es : List Entry) (e : Entry) :
    writerBehind seg c (es ++ [e]) = (writerBehind seg c es).advance e.payload.length := by
  unfold writerBehind ChunkWriter.advance
  rw [sizes_append, sizes_cons, sizes_nil, Nat.add_zero, List.length_append]
  refine congrArg _ ?_
  show UInt16.ofNat (es.length + 1) = UInt16.ofNat es.length + 1
  rw [UInt16.ofNat_add]
  rfl

/-- What a state is filled with is a matter of its memory and its cursor. -/
theorem Filled.congr (h : Filled lg header t chunks s) (hmem : s'.mem = s.mem)
    (hcursor : s'.claimedChunks lg.segment = s.claimedChunks lg.segment) :
    Filled lg header t chunks s' := by
  refine ⟨?_, hcursor.trans h.count, fun c es hc => ?_, fun x h₁ h₂ => ?_⟩
  · rw [hmem]
    exact h.headed
  · rw [hmem]
    exact h.holds c es hc
  · rw [hmem]
    exact h.unclaimed x h₁ h₂

theorem Filled.length_le (h : Filled lg header t chunks s) :
    chunks.length ≤ lg.segment.chunkCount := by
  rw [← h.count]
  exact Nat.min_le_right _ _

/-- What one chunk holds may change when nothing else does. -/
theorem Filled.concat {before : List (List Entry)} {last last' : List Entry}
    (h : Filled lg header t (before ++ [last]) s) (hs : lg.segment.Sound)
    (hcursor : s'.claimedChunks lg.segment = s.claimedChunks lg.segment)
    (helse : ∀ x, ¬lg.segment.InChunk before.length x → s'.mem x = s.mem x)
    (hlast : Holds lg.segment before.length (lg.threadId t) last' s'.mem) :
    Filled lg header t (before ++ [last']) s' := by
  have hlength : (before ++ [last']).length = (before ++ [last]).length := by
    rw [List.length_append, List.length_append]
    rfl
  have hapart : ∀ c x, c ≠ before.length → lg.segment.InChunk c x → s'.mem x = s.mem x := by
    intro c x hne hx
    refine helse x fun hx' => hne ?_
    rw [← hs.chunkOf_eq hx, hs.chunkOf_eq hx']
  have hsize := hs.cursor_inside
  refine ⟨h.headed.congr fun x hx => helse x fun hin => ?_, ?_, fun c es hc => ?_,
    fun x h₁ h₂ => ?_⟩
  · -- the header lies in front of all chunks
    have hbase : lg.segment.headerBytes ≤ lg.segment.chunkBase before.length :=
      Nat.le_add_right _ _
    have hfront := hin.1
    unfold sizeofSegmentHeader at hx
    unfold cCompactSegmentHeaderBytes at hsize
    omega
  · rw [hcursor, h.count, hlength]
  · by_cases heq : c = before.length
    · subst heq
      rw [List.getElem?_append_right (Nat.le_refl _), Nat.sub_self] at hc
      obtain rfl : last' = es := Option.some.inj hc
      exact hlast
    · have hold : (before ++ [last])[c]? = some es := by
        rcases Nat.lt_or_gt_of_ne heq with hlt | hgt
        · rw [List.getElem?_append_left hlt] at hc ⊢
          exact hc
        · rw [List.getElem?_append_right (Nat.le_of_lt hgt), List.getElem?_eq_none (by
            simp only [List.length_cons, List.length_nil]
            omega)] at hc
          cases hc
      exact (h.holds c es hold).congr hs fun x hx => hapart c x heq hx
  · rw [hlength] at h₁
    rw [← h.unclaimed x h₁ h₂]
    refine helse x fun hin => ?_
    have hnext : lg.segment.chunkBase (before ++ [last]).length =
        lg.segment.chunkBase before.length + lg.segment.chunkBytes := by
      rw [List.length_append]
      exact (Nat.add_assoc _ _ _).symm ▸ congrArg _ (Nat.succ_mul _ _)
    have := hin.2
    omega

/-! ### Copies and head words -/

section Code

variable [DecidableEq τ]

/-- Only the memory changed, to `m`. -/
structure Stored (m : Mem) (s s' : State τ) : Prop where
  mem : s'.mem = m
  cursor : s'.cursor = s.cursor
  caches : s'.caches = s.caches

/-- A copy stores every byte once, whatever the order. -/
theorem stored_copyBytes (address : Nat) (bytes : List UInt8) (s : State τ) :
    (copyBytes address bytes).Alone (sem lg) t
      (fun _ s' => Stored (s.mem.store address bytes) s s') s := by
  -- the bytes that the rest of an order stores
  have hstores : ∀ (order : List Nat) (s₁ : State τ),
      (storeBytes address bytes order).Alone (sem lg) t (fun _ s' =>
        (∀ x, s'.mem x = if address ≤ x ∧ x - address ∈ order then bytes.getD (x - address) 0
          else s₁.mem x) ∧ s'.cursor = s₁.cursor ∧ s'.caches = s₁.caches) s₁ := by
    intro order
    induction order with
    | nil => exact fun s₁ => ⟨fun x => by simp, rfl, rfl⟩
    | cons i rest ih =>
      intro s₁ r s₂ hsem
      obtain rfl : s₂ = _ := hsem
      refine (ih _).mono ?_
      rintro - s' ⟨hmem, hcursor, hcaches⟩
      refine ⟨fun x => ?_, hcursor, hcaches⟩
      rw [hmem]
      by_cases hrest : address ≤ x ∧ x - address ∈ rest
      · rw [if_pos hrest, if_pos ⟨hrest.1, List.mem_cons_of_mem _ hrest.2⟩]
      · rw [if_neg hrest]
        show (s₁.mem.store (address + i) [bytes.getD i 0]) x = _
        by_cases hx : x = address + i
        · subst hx
          rw [if_pos ⟨Nat.le_add_right _ _, by rw [Nat.add_sub_cancel_left]; exact List.mem_cons_self⟩,
            Nat.add_sub_cancel_left]
          unfold Mem.store
          rw [if_pos (Nat.le_refl _), Nat.sub_self]
          rfl
        · rw [if_neg ?_]
          · rcases Nat.lt_or_gt_of_ne hx with hlt | hgt
            · exact Mem.store_of_lt hlt
            · exact Mem.store_of_ge hgt
          · rintro ⟨hle, hmem'⟩
            rcases List.mem_cons.mp hmem' with heq | htail
            · omega
            · exact hrest ⟨hle, htail⟩
  intro (order : List Nat) s₁ hsem
  obtain ⟨hperm, rfl⟩ := hsem
  refine (hstores order s₁).mono ?_
  rintro - s' ⟨hmem, hcursor, hcaches⟩
  refine ⟨funext fun x => ?_, hcursor, hcaches⟩
  rw [hmem]
  have hin : x - address ∈ order ↔ x - address < bytes.length := by
    rw [hperm.mem_iff, List.mem_range]
  by_cases hx : address ≤ x ∧ x - address ∈ order
  · rw [if_pos hx]
    unfold Mem.store
    rw [if_pos hx.1, List.getD_eq_getElem?_getD, List.getD_eq_getElem?_getD,
      List.getElem?_eq_getElem (hin.mp hx.2)]
    rfl
  · rw [if_neg hx]
    by_cases hle : address ≤ x
    · exact (Mem.store_of_ge (by have := mt hin.mpr fun h => hx ⟨hle, h⟩; omega)).symm
    · exact (Mem.store_of_lt (Nat.lt_of_not_le hle)).symm

/-- The head word, as one store or as two. -/
theorem stored_commit (slot : Reservation) (kind : RecordKind) (flags : UInt8)
    (payloadBytes : Nat) (publishes : Option Written) (s : State τ) :
    (lg.commit slot kind flags payloadBytes publishes).Alone (sem lg) t
      (fun _ s' => Stored (s.mem.store slot.headWord (leBytes 8
        (RecordHead.mk (UInt16.ofNat payloadBytes) kind flags slot.sequence).pack)) s s') s := by
  unfold Logger.commit Logger.storeHeadWord
  by_cases hsplit : lg.split = true
  · rw [if_pos hsplit]
    intro r s₁ hlow r' s₂ hhigh
    obtain rfl : s₁ = _ := hlow
    obtain rfl : s₂ = _ := hhigh
    refine ⟨?_, rfl, rfl⟩
    rw [← Setting.Publication.halves, ← Mem.store_store_append, leBytes_length]
  · rw [if_neg hsplit]
    intro r s₁ hsem
    obtain rfl : s₁ = _ := hsem
    exact ⟨rfl, rfl, rfl⟩

/-! ### Chunks -/

/-- A claim adds an empty chunk, or finds none. -/
theorem filled_claimChunk (hs : lg.segment.Sound) (h : Filled lg header t chunks s) :
    (lg.claimChunk).Alone (sem lg) t (fun w s' => s'.caches = s.caches ∧
      ((w = writerBehind lg.segment chunks.length [] ∧ Filled lg header t (chunks ++ [[]]) s') ∨
        (w = ChunkWriter.none ∧ Filled lg header t chunks s'))) s := by
  have hindex : claimIndex.Alone (sem lg) t
      (fun index s' => (index, s') = claimChunkIndex lg t s) s := fun _ _ hsem => hsem
  refine Prog.Alone.bind hindex ?_
  intro index s₁ hclaimed
  have hcount := h.count
  unfold State.claimedChunks at hcount
  unfold claimChunkIndex at hclaimed
  by_cases hroom : s.cursor < lg.segment.chunkCount
  · rw [if_pos hroom] at hclaimed
    obtain ⟨rfl, rfl⟩ := Prod.mk.inj hclaimed
    have hlength : s.cursor = chunks.length := by omega
    rw [if_neg (Nat.not_le.mpr hroom)]
    refine Prog.Alone.perform ?_
    rintro id s₂ ⟨rfl, rfl⟩
    refine Prog.Alone.perform ?_
    rintro monoNs s₃ hnow
    obtain rfl : s₃ = _ := hnow
    refine Prog.Alone.bind (stored_copyBytes _ _ _) ?_
    rintro - s' ⟨hmem, hcursor, hcaches⟩
    refine ⟨hcaches, Or.inl ⟨by rw [hlength]; rfl, ?_⟩⟩
    rw [hlength] at hmem
    have hinside := hs.chunk_inside (hlength ▸ hroom)
    have hend := hs.bodyBase_add chunks.length
    have hhead : lg.segment.bodyBase chunks.length =
      lg.segment.chunkBase chunks.length + sizeofChunkHeader := rfl
    have hlen : (lg.segment.chunkHeader (lg.threadId t) monoNs).toBytes.length =
      sizeofChunkHeader := ChunkHeader.toBytes_length _
    have hempty : Filled lg header t (chunks ++ [[]]) s' := by
      have hnext : lg.segment.chunkBase (chunks ++ [[]]).length =
          lg.segment.chunkBase chunks.length + lg.segment.chunkBytes := by
        rw [List.length_append]
        exact (Nat.add_assoc _ _ _).symm ▸ congrArg _ (Nat.succ_mul _ _)
      refine ⟨h.headed.congr fun x hx => ?_, ?_, fun c es hc => ?_, fun x h₁ h₂ => ?_⟩
      · have hsize := hs.cursor_inside
        have hbase : lg.segment.headerBytes ≤ lg.segment.chunkBase chunks.length :=
          Nat.le_add_right _ _
        unfold sizeofSegmentHeader at hx
        unfold cCompactSegmentHeaderBytes at hsize
        rw [hmem]
        exact Mem.store_of_lt (by omega)
      · unfold State.claimedChunks
        rw [hcursor, List.length_append, ← hlength]
        exact Nat.min_eq_left hroom
      · by_cases heq : c = chunks.length
        · subst heq
          rw [List.getElem?_append_right (Nat.le_refl _), Nat.sub_self] at hc
          obtain rfl : [] = es := Option.some.inj hc
          have hheader : s'.mem.slice (lg.segment.chunkBase chunks.length) sizeofChunkHeader =
              (lg.segment.chunkHeader (lg.threadId t) monoNs).toBytes := by
            rw [hmem]
            exact Mem.slice_store_eq hlen
          refine Holds.nil hs hheader fun x h₁ h₂ => ?_
          rw [hmem, Mem.store_of_ge (by omega)]
          exact h.unclaimed x (by omega) (by omega)
        · have hlt : c < chunks.length := by
            obtain ⟨hc', -⟩ := List.getElem?_eq_some_iff.mp hc
            rw [List.length_append] at hc'
            simp only [List.length_cons, List.length_nil] at hc'
            omega
          rw [List.getElem?_append_left hlt] at hc
          refine (h.holds c es hc).congr hs fun x hx => ?_
          rw [hmem]
          have hbefore := lg.segment.chunkBase_add_le hlt
          have := hx.2
          exact Mem.store_of_lt (by omega)
      · rw [hnext] at h₁
        rw [hmem, Mem.store_of_ge (by omega)]
        exact h.unclaimed x (by omega) h₂
    exact hempty
  · rw [if_neg hroom] at hclaimed
    have hrefused : index = lg.segment.chunkCount ∧ s₁.mem = s.mem ∧ s₁.caches = s.caches ∧
        s.cursor ≤ s₁.cursor := by
      split at hclaimed
      · obtain ⟨rfl, rfl⟩ := Prod.mk.inj hclaimed
        exact ⟨rfl, rfl, rfl, Nat.le_refl _⟩
      · obtain ⟨rfl, rfl⟩ := Prod.mk.inj hclaimed
        exact ⟨rfl, rfl, rfl, Nat.le_succ _⟩
    obtain ⟨rfl, hmem, hcaches, hcursor⟩ := hrefused
    rw [if_pos (Nat.le_refl _)]
    refine ⟨hcaches, Or.inr ⟨rfl, h.congr hmem ?_⟩⟩
    unfold State.claimedChunks
    omega

/-- The thread has a writer of this Logger: `b` says whether it has a chunk, `fresh` that the
chunk is an empty one. -/
structure Current (lg : Logger τ) (header : SegmentHeader) (t : τ) (es : List Entry)
    (fresh : Prop) (b : Bool) (s : State τ) : Prop where
  sequence : Sequence lg header t es s
  owned : Owned lg t s
  valid : b = (s.caches t).writer.valid
  empty : fresh → b = true → (s.caches t).writer.offset = 0

/-- A refill leaves the thread with an empty chunk behind all records, or with none. -/
theorem current_refillWriter (hs : lg.segment.Sound) (h : Filled lg header t chunks s) :
    (lg.refillWriter).Alone (sem lg) t (Current lg header t chunks.flatten True) s := by
  refine Prog.Alone.bind (filled_claimChunk hs h) ?_
  rintro w s₁ ⟨hcaches, hclaim⟩
  refine Prog.Alone.perform ?_
  intro r s₂ hsem
  have hstored : s₂ = { s₁ with
    caches := Function.update s₁.caches t ⟨lg.address, lg.segment.generation, w⟩ } := hsem
  have hcache : s₂.caches t = ⟨lg.address, lg.segment.generation, w⟩ := by
    rw [hstored]
    exact Function.update_self _ _ _
  have howned : Owned lg t s₂ := by
    unfold Owned
    rw [hcache]
    exact ⟨rfl, rfl⟩
  have hkept : ∀ {chunks' : List (List Entry)}, Filled lg header t chunks' s₁ →
      Filled lg header t chunks' s₂ := fun h' =>
    h'.congr (by rw [hstored]) (by rw [hstored]; rfl)
  have hvalid : w.valid = (s₂.caches t).writer.valid := by rw [hcache]
  show Current lg header t chunks.flatten True w.valid s₂
  rcases hclaim with ⟨rfl, hfilled⟩ | ⟨rfl, hfilled⟩
  · refine ⟨⟨_, ?_, hkept hfilled, fun _ _ => ⟨chunks, [], rfl, ?_⟩⟩, howned, hvalid, ?_⟩
    · rw [List.flatten_append]
      exact List.append_nil _
    · rw [hcache]
    · rw [hcache]
      exact fun _ _ => rfl
  · refine ⟨⟨_, rfl, hkept hfilled, fun _ hwriter => ?_⟩, howned, hvalid, fun _ hwriter => ?_⟩
    · rw [hcache] at hwriter
      cases hwriter
    · cases hwriter

/-- What `currentWriter` leaves. -/
theorem current_currentWriter (hs : lg.segment.Sound) (h : Sequence lg header t es s) :
    (lg.currentWriter).Alone (sem lg) t (Current lg header t es False) s := by
  refine Prog.Alone.perform ?_
  rintro cache s₁ ⟨rfl, rfl⟩
  obtain ⟨chunks, rfl, hfilled, hend⟩ := h
  split
  · exact (current_refillWriter hs hfilled).mono fun b s' hcurrent =>
      ⟨hcurrent.sequence, hcurrent.owned, hcurrent.valid, fun hfalse => hfalse.elim⟩
  · rename_i hours
    have howned : Owned lg t s₁ := by
      unfold Owned
      tauto
    exact ⟨⟨chunks, rfl, hfilled, hend⟩, howned, rfl, fun hfalse => hfalse.elim⟩

/-- A refill asks for nothing but the records. -/
theorem Current.refill {fresh : Prop} {b : Bool} (hs : lg.segment.Sound)
    (h : Current lg header t es fresh b s) :
    (lg.refillWriter).Alone (sem lg) t (Current lg header t es True) s := by
  obtain ⟨chunks, rfl, hfilled, -⟩ := h.sequence
  exact current_refillWriter hs hfilled

/-! ### Reservations -/

variable {n : Nat} {slot : Reservation}

/-- A reservation is made, or it does not fit and nothing changes. -/
theorem reserved_reserve {fresh : Prop} (h : Current lg header t es fresh true s) (n : Nat) :
    (reserve n).Alone (sem lg) t (fun r s' => match r with
      | some slot => (s.caches t).writer.Fits n ∧ Reserved lg header t es n slot s'.mem s'
      | none => ¬(s.caches t).writer.Fits n ∧ s' = s) s := by
  obtain ⟨chunks, rfl, hfilled, hend⟩ := h.sequence
  obtain ⟨before, last, rfl, hwriter⟩ := hend h.owned h.valid.symm
  refine Prog.Alone.perform ?_
  rintro cache s₁ ⟨rfl, rfl⟩
  by_cases hfits : (s₁.caches t).writer.Fits n
  · rw [ChunkWriter.reserve_of_fits hfits]
    refine Prog.Alone.perform ?_
    intro r s₂ hsem
    obtain rfl : s₂ = _ := hsem
    rw [hwriter] at hfits
    refine ⟨hwriter ▸ hfits, before, last, rfl, hfilled.congr rfl rfl, hfits, ?_, ?_⟩
    · rw [hwriter]
    · show (Function.update s₁.caches t _ t).writer = _
      rw [Function.update_self, hwriter]
  · rw [ChunkWriter.reserve_of_not_fits hfits]
    exact ⟨hfits, rfl⟩

theorem reserved_tryReserve {fresh : Prop} {b : Bool} (h : Current lg header t es fresh b s)
    (n : Nat) :
    (tryReserve b n).Alone (sem lg) t (fun r s' => match r with
      | some slot => b = true ∧ (s.caches t).writer.Fits n ∧
          Reserved lg header t es n slot s'.mem s'
      | none => s' = s) s := by
  cases b with
  | true =>
    refine (reserved_reserve h n).mono ?_
    intro r s' hr
    cases r with
    | none => exact hr.2
    | some slot => exact ⟨rfl, hr⟩
  | false => exact rfl

omit [DecidableEq τ] in
/-- Nothing was stored in the reserved place before. -/
theorem Reserved.zero (h : Reserved lg header t es n slot m s) {x : Nat}
    (hfront : slot.headWord ≤ x) (hbehind : x < slot.headWord + recordFootprint n) : m x = 0 := by
  obtain ⟨before, last, -, hfilled, hfits, rfl, -⟩ := h
  have hold : Holds lg.segment before.length (lg.threadId t) last m :=
    hfilled.holds before.length last (by
      rw [List.getElem?_append_right (Nat.le_refl _), Nat.sub_self]
      rfl)
  have haddress : (writerBehind lg.segment before.length last).slot.headWord =
    lg.segment.bodyBase before.length + sizes last := rfl
  have hroom : sizes last + recordFootprint n ≤ lg.segment.capacity := hfits.2
  exact hold.zero x (by omega) (by omega)

omit [DecidableEq τ] in
/-- Storing the payload and then the head word stores the record, padding and all. -/
theorem Reserved.bytes (h : Reserved lg header t es n slot m s) {e : Entry}
    (hn : e.payload.length = n) :
    (m.store (slot.headWord + 8) e.payload).store slot.headWord (leBytes 8 e.head.pack) =
      m.store slot.headWord e.bytes := by
  subst hn
  have hpad := le_paddedPayload e.payload.length
  have hhead : (leBytes 8 e.head.pack).length = 8 := leBytes_length 8 _
  have hfront := Mem.store_store_front m slot.headWord (leBytes 8 e.head.pack) e.payload
  rw [hhead] at hfront
  rw [hfront]
  unfold Entry.bytes
  rw [← List.append_assoc]
  refine (Mem.store_append_zeros fun x h₁ h₂ => ?_).symm
  rw [List.length_append, hhead] at h₁ h₂
  refine h.zero (by omega) ?_
  unfold recordFootprint
  omega

omit [DecidableEq τ] in
/-- **A record is complete** when its bytes are in the reserved place. -/
theorem Reserved.committed (hs : lg.segment.Sound) (h : Reserved lg header t es n slot m s)
    {e : Entry} (hn : e.payload.length = n) (hkind : e.kind.Named)
    (hsequence : e.sequence = slot.sequence)
    (hstored : Stored (m.store slot.headWord e.bytes) s s') :
    Sequence lg header t (es ++ [e]) s' := by
  obtain ⟨before, last, rfl, hfilled, hfits, rfl, hwriter⟩ := h
  subst hn
  have hbytes : e.bytes = encode [e] := by
    rw [encode_cons, encode_nil, List.append_nil]
  have hsize : sizes [e] = recordFootprint e.payload.length := by
    rw [sizes_cons, sizes_nil, Nat.add_zero]
    rfl
  have hroom : sizes last + sizes [e] ≤ lg.segment.capacity := by
    rw [hsize]
    exact hfits.2
  have hwf : ∀ e' ∈ [e], e'.Wf := by
    intro e' he'
    obtain rfl := List.mem_singleton.mp he'
    exact ⟨Nat.lt_of_le_of_lt hfits.1 (by decide), hkind⟩
  have hold : Holds lg.segment before.length (lg.threadId t) last m :=
    hfilled.holds before.length last (by
      rw [List.getElem?_append_right (Nat.le_refl _), Nat.sub_self]
      rfl)
  have hbody := hs.bodyBase_add before.length
  have hhead : lg.segment.bodyBase before.length =
    lg.segment.chunkBase before.length + sizeofChunkHeader := rfl
  have hmem : s'.mem = m.store (lg.segment.bodyBase before.length + sizes last)
      (encode [e]) := by
    rw [hstored.mem, ← hbytes]
    rfl
  refine ⟨before ++ [last ++ [e]], ?_, ?_, fun _ _ => ⟨before, last ++ [e], rfl, ?_⟩⟩
  · rw [List.flatten_append, List.flatten_append]
    simp
  · refine hfilled.concat hs ?_ (fun x hx => ?_) ?_
    · exact congrArg (fun c => min c lg.segment.chunkCount) hstored.cursor
    · -- the record lies in its chunk
      rw [hmem]
      by_cases hfront : x < lg.segment.bodyBase before.length + sizes last
      · exact Mem.store_of_lt hfront
      · refine Mem.store_of_ge ?_
        rw [encode_length]
        by_contra hin
        exact hx ⟨by omega, by omega⟩
    · rw [hmem]
      exact hold.append hs hroom hwf
  · rw [hstored.caches, hwriter]
    exact (writerBehind_concat _ _ _ e).symm

/-- The payload is copied, then the head word is stored. -/
theorem Reserved.record {α : Type} {f : Unit → Code α} {Q : α → State τ → Prop}
    (hs : lg.segment.Sound) (h : Reserved lg header t es n slot s.mem s)
    {kind : RecordKind} (hkind : kind.Named) (flags : UInt8) {payload : List UInt8}
    (hn : payload.length = n) (publishes : Option Written)
    (hf : ∀ s', Sequence lg header t (es ++ [⟨kind, flags, slot.sequence, payload⟩]) s' →
      (f ()).Alone (sem lg) t Q s') :
    (copyBytes (slot.headWord + 8) payload >>= fun _ =>
      lg.commit slot kind flags payload.length publishes >>= f).Alone (sem lg) t Q s := by
  refine Prog.Alone.bind (stored_copyBytes _ _ _) ?_
  rintro - s₁ hcopied
  refine Prog.Alone.bind (stored_commit _ _ _ _ _ s₁) ?_
  rintro - s₂ hcommitted
  have hbytes := h.bytes (e := ⟨kind, flags, slot.sequence, payload⟩) hn
  refine hf s₂ (h.committed hs (e := ⟨kind, flags, slot.sequence, payload⟩) hn hkind rfl
    ⟨?_, ?_, ?_⟩)
  · rw [hcommitted.mem, hcopied.mem, ← hbytes]
    rfl
  · rw [hcommitted.cursor, hcopied.cursor]
  · rw [hcommitted.caches, hcopied.caches]

omit [DecidableEq τ] in
/-- Neither counter is part of the records. -/
theorem Sequence.congr (h : Sequence lg header t es s) (hstored : Stored s.mem s s') :
    Sequence lg header t es s' := by
  obtain ⟨chunks, rfl, hfilled, hend⟩ := h
  refine ⟨chunks, rfl, hfilled.congr hstored.mem ?_, fun howned hvalid => ?_⟩
  · exact congrArg (fun c => min c lg.segment.chunkCount) hstored.cursor
  · unfold Owned at howned
    rw [hstored.caches] at howned hvalid ⊢
    exact hend howned hvalid

theorem sequence_countDrop (h : Sequence lg header t es s) (emit : Option Emit) :
    (countDrop emit).Alone (sem lg) t (fun _ => Sequence lg header t es) s := by
  intro r s₁ hsem
  obtain rfl : s₁ = _ := hsem
  exact h.congr ⟨rfl, rfl, rfl⟩

theorem sequence_countTruncationIf (h : Sequence lg header t es s) (truncated : Bool) :
    (Logger.countTruncationIf truncated).Alone (sem lg) t (fun _ => Sequence lg header t es)
      s := by
  cases truncated with
  | true =>
    intro r s₁ hsem
    obtain rfl : s₁ = _ := hsem
    exact h.congr ⟨rfl, rfl, rfl⟩
  | false => exact h

/-- `reserveRecord`. -/
theorem sequence_reserveRecord (hs : lg.segment.Sound) (h : Sequence lg header t es s) (n : Nat)
    (onDrop : Option Emit) :
    (lg.reserveRecord n onDrop).Alone (sem lg) t (fun r s' => match r with
      | some slot => Reserved lg header t es n slot s'.mem s'
      | none => Sequence lg header t es s') s := by
  refine Prog.Alone.bind (current_currentWriter hs h) fun b s₁ hcurrent => ?_
  refine Prog.Alone.bind (reserved_tryReserve hcurrent n) fun slot s₂ hslot => ?_
  cases slot with
  | some slot => exact hslot.2.2
  | none =>
    obtain rfl : s₂ = s₁ := hslot
    refine Prog.Alone.bind (hcurrent.refill hs) fun b' s₃ hcurrent' => ?_
    refine Prog.Alone.bind (reserved_tryReserve hcurrent' n) fun slot s₄ hslot => ?_
    cases slot with
    | some slot => exact hslot.2.2
    | none =>
      obtain rfl : s₄ = s₃ := hslot
      exact Prog.Alone.bind (sequence_countDrop hcurrent'.sequence onDrop) fun _ _ h' => h'

/-! ### Definitions -/

/-- A definition as it is written: the strings cut where no chunk takes them whole. -/
def definitionEntry (capacity : Nat) (d : SiteDefinition) (sequence : UInt16) : Entry where
  kind := .siteDefinition
  flags := if (d.lengths capacity).2.2 then cFlagTruncated else 0
  sequence := sequence
  payload := d.payload (d.lengths capacity).1 (d.lengths capacity).2.1

/-- What a call leaves that writes a definition or gives it up. -/
def Defined (lg : Logger τ) (header : SegmentHeader) (t : τ) (es : List Entry)
    (d : SiteDefinition) (written : Bool) (s : State τ) : Prop :=
  if written then ∃ sequence, Sequence lg header t
    (es ++ [definitionEntry lg.segment.capacity d sequence]) s
  else Sequence lg header t es s

/-- The part of `writeSiteDefinitionCore` behind its reservation. -/
theorem sequence_storeDefinition (hs : lg.segment.Sound) {d : SiteDefinition}
    {lengths : Nat × Nat × Bool} (hlengths : d.lengths lg.segment.capacity = lengths)
    (h : Reserved lg header t es
      (definitionPayloadBytes d.typeCodes.length lengths.1 lengths.2.1) slot s.mem s) :
    (lg.storeDefinition d slot lengths).Alone (sem lg) t (Defined lg header t es d) s := by
  subst hlengths
  obtain ⟨hformat, hfile⟩ := d.lengths_le lg.segment.capacity
  refine h.record hs (fun _ hother => by cases hother) _ (d.payload_length hformat hfile) _
    fun s₁ hsequence => ?_
  refine Prog.Alone.bind (sequence_countTruncationIf hsequence _) ?_
  rintro - s₂ hsequence'
  exact ⟨slot.sequence, hsequence'⟩

omit [DecidableEq τ] in
/-- What fits a chunk of the segment fits an empty one. -/
theorem Current.fitsEmpty {fresh : Prop} (h : Current lg header t es fresh true s)
    (hfits : (s.caches t).writer.Fits n) : fitsEmpty lg.segment.capacity n := by
  obtain ⟨chunks, rfl, -, hend⟩ := h.sequence
  obtain ⟨before, last, rfl, hwriter⟩ := hend h.owned h.valid.symm
  rw [hwriter] at hfits
  exact ⟨hfits.1, le_trans (Nat.le_add_left _ _) hfits.2⟩

omit [DecidableEq τ] in
/-- An empty chunk: what it takes, and how much room there is. -/
theorem Current.room (h : Current lg header t es True true s) :
    ((s.caches t).writer.Fits n ↔ Producer.fitsEmpty lg.segment.capacity n) ∧
      (s.caches t).writer.remaining = lg.segment.capacity := by
  have hoffset := h.empty trivial rfl
  have hvalid := h.valid.symm
  obtain ⟨chunks, rfl, -, hend⟩ := h.sequence
  obtain ⟨before, last, rfl, hwriter⟩ := hend h.owned hvalid
  have hsize : (s.caches t).writer.size = lg.segment.capacity := by
    rw [hwriter]
    rfl
  constructor
  · unfold ChunkWriter.Fits Producer.fitsEmpty
    rw [hoffset, hsize, Nat.zero_add]
  · unfold ChunkWriter.remaining
    rw [hvalid, hoffset, hsize]
    exact if_neg (fun hor => hor.elim (fun hfalse => by cases hfalse) (Nat.not_lt_zero _))

/-- `writeSiteDefinitionCore`. -/
theorem sequence_writeSiteDefinitionCore (hs : lg.segment.Sound)
    (h : Sequence lg header t es s) (d : SiteDefinition) (onDrop : Option Emit) :
    (lg.writeSiteDefinitionCore d onDrop).Alone (sem lg) t (Defined lg header t es d) s := by
  have hdrop : ∀ s₁, Sequence lg header t es s₁ → (do
      countDrop onDrop
      pure false : Code Bool).Alone (sem lg) t (Defined lg header t es d) s₁ := fun s₁ h₁ =>
    Prog.Alone.bind (sequence_countDrop h₁ onDrop) fun _ _ h' => h'
  have hwhole : Producer.fitsEmpty lg.segment.capacity d.wholeBytes →
      d.lengths lg.segment.capacity = (d.format.length, d.file.length, false) := fun hfits =>
    if_pos hfits
  refine Prog.Alone.bind (current_currentWriter hs h) fun b s₁ hcurrent => ?_
  refine Prog.Alone.bind (reserved_tryReserve hcurrent d.wholeBytes) fun slot s₂ hslot => ?_
  cases slot with
  | some slot =>
    obtain ⟨rfl, hfits, hreserved⟩ := hslot
    exact sequence_storeDefinition hs (hwhole (hcurrent.fitsEmpty hfits)) hreserved
  | none =>
    obtain rfl : s₂ = s₁ := hslot
    refine Prog.Alone.bind (hcurrent.refill hs) fun b' s₃ hcurrent' => ?_
    cases b' with
    | false => exact hdrop s₃ hcurrent'.sequence
    | true =>
      refine Prog.Alone.bind (reserved_reserve hcurrent' d.wholeBytes) fun slot s₄ hslot => ?_
      cases slot with
      | some slot =>
        exact sequence_storeDefinition hs (hwhole (hcurrent'.fitsEmpty hslot.1)) hslot.2
      | none =>
        -- not even an empty chunk takes it
        obtain ⟨hnot, rfl⟩ := hslot
        have hcut : d.lengths lg.segment.capacity = d.cutLengths lg.segment.capacity :=
          if_neg fun hempty => hnot (hcurrent'.room.1.mpr hempty)
        refine Prog.Alone.perform ?_
        rintro cache s₅ ⟨rfl, rfl⟩
        show (reserve (definitionPayloadBytes _ (d.cutLengths (s₅.caches t).writer.remaining).1
          (d.cutLengths (s₅.caches t).writer.remaining).2.1) >>= _).Alone _ _ _ _
        rw [(hcurrent'.room (n := 0)).2]
        refine Prog.Alone.bind (reserved_reserve hcurrent' _) fun slot s₆ hslot => ?_
        cases slot with
        | some slot => exact sequence_storeDefinition hs hcut hslot.2
        | none =>
          obtain ⟨-, rfl⟩ := hslot
          exact hdrop _ hcurrent'.sequence

end Code

/-! ### What a reader finds -/

/-- The view of an entry. -/
structure ShownAs (owner : UInt64) (e : Entry) (v : RecordView) : Prop where
  head : v.head = e.head
  payload : v.payload = e.payload
  owner : v.ownerThread = owner

/-- The views of the records of a chunk. -/
theorem forall₂_place (chunkIndex : UInt32) (owner : UInt64) (a : Nat) (es : List Entry) :
    List.Forall₂ (ShownAs owner) es ((place a es).map (entryView chunkIndex owner)) := by
  induction es generalizing a with
  | nil => exact .nil
  | cons e es ih => exact .cons ⟨rfl, rfl, rfl⟩ (ih _)

/-- What a visit yields of a chunk is what it holds. -/
theorem slotWalk_holds (hs : lg.segment.Sound) {c : Nat} (hc : c < lg.segment.chunkCount)
    {owner : UInt64} (h : Holds lg.segment c owner es m) :
    List.Forall₂ (ShownAs owner) es (slotWalk hs m c).records := by
  obtain ⟨time, hheader⟩ := h.header
  have hend := hs.bodyBase_add c
  have hhead : lg.segment.bodyBase c = lg.segment.chunkBase c + sizeofChunkHeader := rfl
  have hinside := hs.chunk_inside hc
  have hfits := h.fits
  have hdvd := hs.capacity_dvd
  have hdvd' := sizes_dvd es
  have himage : Holds lg.segment c owner es (image lg.segment m).mem :=
    h.congr hs fun x hx => image_mem m (by have := hx.2; omega)
  -- behind the records there is room for no head word, or a word of zeros
  have hrest : (body (image lg.segment m).mem (lg.segment.chunkBase c + lg.segment.chunkBytes)
      (lg.segment.bodyBase c + sizes es)).offsets = [] := by
    by_cases hroom : sizes es + 8 ≤ lg.segment.capacity
    · refine body_offsets_nil (Or.inr (not_isCommitted_of_tag ?_ ?_))
      · exact himage.zero _ (by omega) (by omega)
      · exact himage.zero _ (by omega) (by omega)
    · exact body_offsets_nil (Or.inl (by omega))
  have hoffsets : (body (image lg.segment m).mem
      (lg.segment.chunkBase c + lg.segment.chunkBytes)
      (lg.segment.chunkBase c + sizeofChunkHeader)).offsets =
        (place (lg.segment.bodyBase c) es).map Prod.fst := by
    rw [← hhead, body_encode himage.content himage.wf (by omega)]
    show List.map Prod.fst _ ++ _ = _
    rw [hrest, List.append_nil]
  have hviews : (slotWalk hs m c).records =
      (place (lg.segment.bodyBase c) es).map (entryView (UInt32.ofNat c) owner) := by
    rw [slotWalk_stamped hs hc hheader, Walk.records, List.flatMap_cons, List.flatMap_nil,
      List.append_nil, hoffsets, List.map_map]
    exact List.map_congr_left fun p hp => viewAt_of_place himage.content himage.wf hp _ owner
  rw [hviews]
  exact forall₂_place _ owner _ es

/-- **A visit of the image** finds the records, in the order they were written. -/
theorem Filled.visit (hs : lg.segment.Sound) (h : Filled lg header t chunks s) :
    ∃ r v, openImage (image lg.segment s.mapped) = .ok r ∧ visit r = .ok v ∧
      List.Forall₂ (ShownAs (lg.threadId t)) chunks.flatten v.records := by
  have hcursor := hs.cursor_inside
  unfold cCompactSegmentHeaderBytes at hcursor
  have hbehind : ∀ x, lg.segment.headerBytes ≤ x → s.mapped x = s.mem x := fun x hx =>
    Mem.store_of_ge (by rw [leBytes_length]; omega)
  have hinChunk : ∀ c x, lg.segment.InChunk c x → s.mapped x = s.mem x := fun c x hx =>
    hbehind x (le_trans (Nat.le_add_right _ _) hx.1)
  have hheaded : lg.segment.Headed header s.mapped := h.headed.congr fun x hx => by
    unfold sizeofSegmentHeader at hx
    exact Mem.store_of_lt (by unfold cNextChunkOffset; omega)
  have hholds : ∀ c (hc : c < chunks.length),
      Holds lg.segment c (lg.threadId t) chunks[c] s.mapped := fun c hc =>
    (h.holds c _ (List.getElem?_eq_getElem hc)).congr hs (hinChunk c)
  have hzero : ∀ x, lg.segment.chunkBase chunks.length ≤ x → x < lg.segment.segmentBytes →
      s.mapped x = 0 := fun x h₁ h₂ => by
    rw [hbehind x (le_trans (Nat.le_add_right _ _) h₁)]
    exact h.unclaimed x h₁ h₂
  have hclass : ∀ i, i < chunks.length → s.mapped (lg.segment.chunkBase i + 28) = 0 ∨
      s.mapped (lg.segment.chunkBase i + 28) = lg.segment.sizeClass := by
    intro i hi
    obtain ⟨time, hheader⟩ := (hholds i hi).header
    have hbyte := Mem.slice_getElem? s.mapped (lg.segment.chunkBase i) sizeofChunkHeader 28
      (by decide)
    have hget := chunkHeader_class lg.segment (lg.threadId t) time
    rw [hheader] at hbyte
    rw [List.getD_eq_getElem?_getD, hbyte] at hget
    exact Or.inr hget
  obtain ⟨v, hvisit, hrecords⟩ := visit_records hs hheaded h.length_le hclass hzero
  refine ⟨_, v, openImage_image hs hheaded, hvisit, ?_⟩
  rw [hrecords]
  -- chunk by chunk
  have hall : ∀ k, k ≤ chunks.length → List.Forall₂ (ShownAs (lg.threadId t))
      (chunks.take k).flatten
      ((List.range k).flatMap fun i => (slotWalk hs s.mapped i).records) := by
    intro k
    induction k with
    | zero => exact fun _ => .nil
    | succ k ih =>
      intro hk
      have hlt : k < chunks.length := hk
      rw [List.range_succ, List.flatMap_append, List.flatMap_cons, List.flatMap_nil,
        List.append_nil, List.take_succ_eq_append_getElem hlt, List.flatten_append,
        List.flatten_cons, List.flatten_nil, List.append_nil]
      exact List.rel_append (ih (Nat.le_of_lt hlt))
        (slotWalk_holds hs (lt_of_lt_of_le hlt h.length_le) (hholds k hlt))
  have htake := hall chunks.length (Nat.le_refl _)
  rwa [List.take_length] at htake

theorem Sequence.visit (hs : lg.segment.Sound) (h : Sequence lg header t es s) :
    ∃ r v, openImage (image lg.segment s.mapped) = .ok r ∧ visit r = .ok v ∧
      List.Forall₂ (ShownAs (lg.threadId t)) es v.records := by
  obtain ⟨chunks, rfl, hfilled, -⟩ := h
  exact hfilled.visit hs

/-! ### Before the first record -/

/-- A Logger bound to a created segment: there are no records. -/
theorem sequence_untouched {mem : Mem} (hs : lg.segment.Sound)
    (hfresh : lg.segment.Fresh header mem) (h : Untouched lg mem s) :
    Sequence lg header t [] s := by
  refine ⟨[], rfl, ⟨?_, ?_, fun c es hc => ?_, fun x h₁ h₂ => ?_⟩, fun howned => ?_⟩
  · rw [h.mem]
    exact hfresh.toHeaded
  · unfold State.claimedChunks
    rw [h.cursor]
    exact Nat.zero_min _
  · rw [List.getElem?_nil] at hc
    cases hc
  · have hcursor := hs.cursor_inside
    unfold cCompactSegmentHeaderBytes at hcursor
    have hbase : lg.segment.headerBytes ≤ x := le_trans (Nat.le_add_right _ _) h₁
    rw [h.mem]
    exact hfresh.zero x (by unfold sizeofSegmentHeader; omega) h₂
  · exact absurd howned.2 (h.caches t howned.1)

end Sub0Log.System
