import Sub0Log.Producer.Publication

/-!
# Reserving and writing a chain

A Message and its Continuations are reserved one behind the other (`reserveChain_meets`),
copied, and committed last to first: the Continuations from the front, then the Message
(`storeChain_meets`). `ChunkWriter.reservations` says where the Continuations go; that they
go where `Written.entries` has them is `place_continuations`.
-/

open Bytes Interleaving

namespace Sub0Log.Producer

open Wire

variable {τ : Type}

/-! ### Reservations of a chain -/

namespace ChunkWriter

/-- The reservations of Continuations. -/
def reservations : (w : ChunkWriter) → List ContinuationSlot → List Reservation
  | _, [] => []
  | w, slot :: rest => w.slot :: reservations (w.advance (continuationPayloadBytes slot)) rest

/-- The writer behind the Continuations. -/
def behind (w : ChunkWriter) (slots : List ContinuationSlot) : ChunkWriter :=
  (slots.map continuationPayloadBytes).foldl advance w

/-- The whole chain fits behind the writer. -/
def FitsChain (w : ChunkWriter) (args : List Arg) : Prop :=
  messagePayloadBytes args ≤ 0xFFFF ∧ w.offset + chainBytes args ≤ w.size

theorem reservations_length (w : ChunkWriter) (slots : List ContinuationSlot) :
    (w.reservations slots).length = slots.length := by
  induction slots generalizing w with
  | nil => rfl
  | cons slot rest ih => rw [reservations, List.length_cons, ih, List.length_cons]

theorem le_remaining {w : ChunkWriter} {n : Nat} (hn : 0 < n) :
    n ≤ w.remaining ↔ w.offset + n ≤ w.size := by
  unfold remaining valid
  split
  · rename_i h
    rw [decide_eq_false_iff_not] at h
    omega
  · rename_i h
    rw [not_or, decide_eq_false_iff_not] at h
    omega

end ChunkWriter

/-- The bytes of the Continuations. -/
def slotBytes (slots : List ContinuationSlot) : Nat :=
  (slots.map fun slot => recordFootprint (continuationPayloadBytes slot)).sum

theorem chainBytes_eq (args : List Arg) : chainBytes args =
    recordFootprint (messagePayloadBytes args) + slotBytes (contSlots args) := rfl

/-- A Continuation's payload is short. -/
theorem continuationPayloadBytes_le {args : List Arg} {slot : ContinuationSlot}
    (h : slot ∈ contSlots args) : continuationPayloadBytes slot ≤ 0xFFFF := by
  have hle := mem_contSlots h
  unfold continuationPayloadBytes sizeofContinuationPayload
  unfold cInlineBytesCap at hle
  omega

namespace Setting

variable {S : Setting τ} {t : τ} {h : List (Event τ)} {c : Nat} {s s' : State τ} {m : Mem}
  {w : ChunkWriter} {wr : Written} {siteId : UInt64} {slots : List ContinuationSlot}
  {W : Nat → Prop} {R : WriterCache → Prop}

/-! ### Where a chain lies -/

/-- The addresses of some records' payloads. -/
def Payloads (ps : List (Nat × Entry)) (x : Nat) : Prop :=
  ∃ p ∈ ps, Range (p.1 + 8) p.2.payload.length x

/-- The addresses of some records' head words. -/
def Heads (ps : List (Nat × Entry)) (x : Nat) : Prop := ∃ p ∈ ps, Range p.1 8 x

/-- The Continuations where their reservations put them. -/
def continuationsAt (w : ChunkWriter) (siteId : UInt64) (slots : List ContinuationSlot) :
    List (Nat × Entry) :=
  place (w.body + w.offset) (continuationEntries siteId w.sequence slots)

theorem continuationsAt_cons (slot : ContinuationSlot) (rest : List ContinuationSlot) : continuationsAt w siteId (slot :: rest) =
      (w.body + w.offset, ⟨.continuation, if rest = [] then 0 else cFlagContinued, w.sequence,
        slot.payload siteId⟩) ::
        continuationsAt (w.advance (continuationPayloadBytes slot)) siteId rest := by
  unfold continuationsAt
  rw [continuationEntries, place]
  refine congrArg (List.cons _) ?_
  show place (w.body + w.offset + recordFootprint (slot.payload siteId).length) _ = _
  rw [slot.payload_length, Nat.add_assoc]
  rfl

/-- Where the records of a Message lie. -/
theorem placed_message (h : List (Event τ)) (c : Nat) {m : Emission}
    (hslots : m.slots S.lg.segment.capacity = slots) :
    S.placed h c (.message m) = (S.frontierAt h c, ⟨.message,
        Emission.messageFlags (m.anyTruncated S.lg.segment.capacity) (decide (slots ≠ [])),
        (S.writerAt h c).sequence, m.payload⟩) ::
      continuationsAt ((S.writerAt h c).advance (messagePayloadBytes m.args)) m.siteId slots := by
  subst hslots
  unfold placed
  show place _ (_ :: _) = _
  rw [place]
  refine congrArg (List.cons _) ?_
  show place (S.frontierAt h c + recordFootprint m.payload.length) _ = _
  rw [m.payload_length]
  unfold continuationsAt
  show _ = place ((S.writerAt h c).body + ((S.writerAt h c).offset + _)) _
  rw [← Nat.add_assoc]
  rfl

/-- The Continuations lie behind the Message's head word. -/
theorem behind_message {n : Nat} {p : Nat × Entry}
    (hmem : p ∈ continuationsAt ((S.writerAt h c).advance n) siteId slots) :
    S.frontierAt h c + 8 ≤ p.1 := by
  have hge := (mem_place hmem).1
  have hbase : ((S.writerAt h c).advance n).body + ((S.writerAt h c).advance n).offset =
      S.frontierAt h c + recordFootprint n := (Nat.add_assoc _ _ _).symm
  rw [hbase] at hge
  unfold recordFootprint at hge
  omega

/-- The sizes of a chain's records. -/
theorem sizes_continuationEntries (sequence : UInt16) :
    sizes (continuationEntries siteId sequence slots) = slotBytes slots := by
  induction slots generalizing sequence with
  | nil => rfl
  | cons slot rest ih =>
    rw [continuationEntries, sizes_cons, ih]
    show recordFootprint (slot.payload siteId).length + _ = _
    rw [slot.payload_length]
    rfl

theorem wf_continuationEntries {sequence : UInt16}
    (hshort : ∀ slot ∈ slots, continuationPayloadBytes slot ≤ 0xFFFF) {e : Entry}
    (he : e ∈ continuationEntries siteId sequence slots) : e.Wf := by
  induction slots generalizing sequence with
  | nil => cases he
  | cons slot rest ih =>
    rcases List.mem_cons.mp he with rfl | hrest
    · refine ⟨?_, fun code heq => by cases heq⟩
      show (slot.payload siteId).length < 2 ^ 16
      rw [slot.payload_length]
      exact Nat.lt_succ_of_le (hshort slot List.mem_cons_self)
    · exact ih (fun slot' hslot' => hshort slot' (List.mem_cons_of_mem _ hslot')) hrest

theorem Publication.allows_payloads (hp : S.Publication t h c m wr) {ps : List (Nat × Entry)}
    (hps : ∀ p ∈ ps, p ∈ S.placed h c wr) : hp.plan.Allows (Payloads ps) := by
  rintro x ⟨p, hp', hx⟩
  exact hp.allows_payload (hps p hp') x hx

theorem Publication.allows_heads (hp : S.Publication t h c m wr) {ps : List (Nat × Entry)}
    (hps : ∀ p ∈ ps, p ∈ S.placed h c wr) (hlater : ∀ p ∈ ps, S.frontierAt h c + 8 ≤ p.1) :
    hp.plan.Allows (Heads ps) := by
  rintro x ⟨p, hp', hx⟩
  exact hp.allows_head (hps p hp') (hlater p hp') x hx

theorem map_length_continuationEntries (sequence : UInt16) :
    (continuationEntries siteId sequence slots).map (fun e => e.payload.length) =
      slots.map continuationPayloadBytes := by
  induction slots generalizing sequence with
  | nil => rfl
  | cons slot rest ih =>
    rw [continuationEntries, List.map_cons, List.map_cons, ih]
    exact congrArg (fun n => n :: _) (slot.payload_length siteId)

/-! ### Reserving -/

variable [DecidableEq τ]

/-- The Continuations of a chain that fits are all reserved. -/
theorem reserveSlots_meets {maxSlots count : Nat}
    (hroom : w.offset + slotBytes slots ≤ w.size)
    (hshort : ∀ slot ∈ slots, continuationPayloadBytes slot ≤ 0xFFFF)
    (hcount : count + slots.length ≤ maxSlots) :
    S.Meets t (S.Ready t h c w) (reserveSlots maxSlots count slots) fun r s =>
      r = some (w.reservations slots) ∧ S.Ready t h c (w.behind slots) s := by
  induction slots generalizing w count with
  | nil => exact Spec.Triple.pure fun s _ hP => ⟨rfl, hP⟩
  | cons slot rest ih =>
    have hsum : slotBytes (slot :: rest) =
        recordFootprint (continuationPayloadBytes slot) + slotBytes rest := rfl
    have hlength : (slot :: rest).length = rest.length + 1 := rfl
    have hfits : w.Fits (continuationPayloadBytes slot) :=
      ⟨hshort slot List.mem_cons_self, by omega⟩
    refine Spec.Triple.bind (reserve_meets _) fun r => Spec.Triple.of_or ?_ ?_
    · refine Spec.Triple.of_pure fun ⟨_, hr⟩ => ?_
      subst hr
      show S.Meets t _ (if maxSlots ≤ count then pure none else _) _
      rw [if_neg (by omega)]
      have hrest := @ih (w.advance (continuationPayloadBytes slot)) (count + 1)
        (by show w.offset + recordFootprint (continuationPayloadBytes slot) + _ ≤ w.size; omega)
        (fun slot' hslot' => hshort slot' (List.mem_cons_of_mem _ hslot')) (by omega)
      refine Spec.Triple.bind hrest fun others => Spec.Triple.of_pure fun hothers => ?_
      subst hothers
      exact Spec.Triple.pure fun s _ hP => ⟨rfl, hP⟩
    · exact Spec.Triple.of_pure fun ⟨hnot, _⟩ => absurd hfits hnot

/-- `reserveChain` reserves the whole chain or nothing. -/
theorem reserveChain_meets (args : List Arg) :
    S.Meets t (S.Ready t h c w) (reserveChain args) fun r s =>
      ((w.FitsChain args ∧
          r = some (w.slot,
            (w.advance (messagePayloadBytes args)).reservations (contSlots args))) ∧
        S.Ready t h c ((w.advance (messagePayloadBytes args)).behind (contSlots args)) s) ∨
      ((¬w.FitsChain args ∧ r = none) ∧ S.Ready t h c w s) := by
  have hpos : 0 < chainBytes args := lt_of_lt_of_le (by decide : 0 < 8) <| by
    rw [chainBytes_eq]
    unfold recordFootprint
    omega
  refine Spec.Triple.bind remaining_meets fun left => Spec.Triple.of_pure fun hleft => ?_
  subst hleft
  by_cases hroom : w.offset + chainBytes args ≤ w.size
  · rw [if_neg (Nat.not_lt_of_le ((ChunkWriter.le_remaining hpos).mpr hroom))]
    rw [chainBytes_eq] at hroom
    refine Spec.Triple.bind (reserve_meets _) fun r => Spec.Triple.of_or ?_ ?_
    · refine Spec.Triple.of_pure fun ⟨hfits, hr⟩ => ?_
      subst hr
      have hslots := @reserveSlots_meets τ S t h c (w.advance (messagePayloadBytes args))
        (contSlots args) _ (args.length * cMaxContinuations) 0
        (by show w.offset + recordFootprint (messagePayloadBytes args) + _ ≤ w.size; omega)
        (fun slot hslot => continuationPayloadBytes_le hslot)
        (by rw [Nat.zero_add]; exact contSlots_length_le args)
      refine Spec.Triple.bind hslots fun others => Spec.Triple.of_pure fun hothers => ?_
      subst hothers
      exact Spec.Triple.pure fun s _ hP => Or.inl ⟨⟨⟨hfits.1, hroom⟩, rfl⟩, hP⟩
    · refine Spec.Triple.of_pure fun ⟨hnot, hr⟩ => ?_
      subst hr
      refine Spec.Triple.pure fun s _ hP => Or.inr ⟨⟨fun hchain => hnot ⟨hchain.1, ?_⟩, rfl⟩, hP⟩
      omega
  · rw [if_pos (Nat.lt_of_not_le fun hle => hroom ((ChunkWriter.le_remaining hpos).mp hle))]
    exact Spec.Triple.pure fun s _ hP => Or.inr ⟨⟨fun hchain => hroom hchain.2, rfl⟩, hP⟩

/-! ### The stores of a chain -/

/-- The payloads of the Continuations are copied. -/
theorem storeContinuations_meets (hp : S.Publication t h c m wr)
    (hps : ∀ p ∈ continuationsAt w siteId slots, p ∈ S.placed h c wr) (hW : hp.plan.Allows W) :
    S.Meets t (S.Writing t h c hp.plan.before hp.plan.after W R)
      (storeContinuations siteId ((w.reservations slots).zip slots)) fun _ =>
      S.Writing t h c hp.plan.before hp.plan.after
        (fun x => W x ∨ Payloads (continuationsAt w siteId slots) x) R := by
  induction slots generalizing w W with
  | nil =>
    refine Spec.Triple.pure fun s _ hP => hP.congr fun x => (or_iff_left ?_).symm
    rintro ⟨p, hmem, -⟩
    cases hmem
  | cons slot rest ih =>
    rw [continuationsAt_cons] at hps
    have hfirst := hps _ List.mem_cons_self
    refine Spec.Triple.bind (hp.copyPayload_meets hfirst hW) fun _ => ?_
    refine Spec.Triple.conseq (ih (fun p hmem => hps p (List.mem_cons_of_mem _ hmem))
      (hW.or (hp.allows_payload hfirst))) (fun _ _ hP => hP) fun _ s _ hP => hP.congr fun x => ?_
    rw [continuationsAt_cons, or_assoc]
    unfold Payloads
    simp only [List.mem_cons, exists_eq_or_imp]

/-- The Continuations are committed. -/
theorem commitContinuations_meets (hp : S.Publication t h c m wr)
    (hps : ∀ p ∈ continuationsAt w siteId slots, p ∈ S.placed h c wr)
    (hlater : ∀ p ∈ continuationsAt w siteId slots, S.frontierAt h c + 8 ≤ p.1)
    (hW : hp.plan.Allows W) :
    S.Meets t (S.Writing t h c hp.plan.before hp.plan.after W R)
      (S.lg.commitContinuations ((w.reservations slots).zip slots)) fun _ =>
      S.Writing t h c hp.plan.before hp.plan.after
        (fun x => W x ∨ Heads (continuationsAt w siteId slots) x) R := by
  induction slots generalizing w W with
  | nil =>
    refine Spec.Triple.pure fun s _ hP => hP.congr fun x => (or_iff_left ?_).symm
    rintro ⟨p, hmem, -⟩
    cases hmem
  | cons slot rest ih =>
    rw [continuationsAt_cons] at hps hlater
    have hfirst := hps _ List.mem_cons_self
    have hbehind := hlater _ List.mem_cons_self
    -- the last pair is that of the last slot
    have hempty : ((w.advance (continuationPayloadBytes slot)).reservations rest).zip rest = [] ↔
        rest = [] := by
      rw [← List.length_eq_zero_iff, List.length_zip, ChunkWriter.reservations_length,
        Nat.min_self, List.length_eq_zero_iff]
    have hcommit : S.lg.commit w.slot .continuation
        (if ((w.advance (continuationPayloadBytes slot)).reservations rest).zip rest = [] then 0
          else cFlagContinued) (continuationPayloadBytes slot) none =
        S.lg.storeHeadWord (w.body + w.offset) (Entry.mk .continuation
          (if rest = [] then 0 else cFlagContinued) w.sequence (slot.payload siteId)).head.pack
          none := by
      rw [← slot.payload_length siteId, commit_eq, slot.payload_length siteId]
      simp only [hempty]
    have hstep : S.lg.commitContinuations
        ((w.reservations (slot :: rest)).zip (slot :: rest)) =
        (S.lg.commit w.slot .continuation
          (if ((w.advance (continuationPayloadBytes slot)).reservations rest).zip rest = [] then 0
            else cFlagContinued) (continuationPayloadBytes slot) none >>= fun _ =>
          S.lg.commitContinuations
            (((w.advance (continuationPayloadBytes slot)).reservations rest).zip rest)) := rfl
    rw [hstep, hcommit]
    refine Spec.Triple.bind (hp.commitHead_meets hfirst hbehind hW) fun _ => ?_
    refine Spec.Triple.conseq (ih (fun p hmem => hps p (List.mem_cons_of_mem _ hmem))
      (fun p hmem => hlater p (List.mem_cons_of_mem _ hmem))
      (hW.or (hp.allows_head hfirst hbehind))) (fun _ _ hP => hP)
      fun _ s _ hP => hP.congr fun x => ?_
    rw [continuationsAt_cons, or_assoc]
    unfold Heads
    simp only [List.mem_cons, exists_eq_or_imp]

/-- There is room for a chain. -/
structure ChainFits (S : Setting τ) (h : List (Event τ)) (c : Nat) (args : List Arg)
    (slots : List ContinuationSlot) : Prop where
  message : messagePayloadBytes args ≤ 0xFFFF
  room : (S.writerAt h c).offset + (recordFootprint (messagePayloadBytes args) +
    slotBytes slots) ≤ S.lg.segment.capacity
  short : ∀ slot ∈ slots, continuationPayloadBytes slot ≤ 0xFFFF

omit [DecidableEq τ] in
/-- The records of a Message. -/
theorem nextEntries_message (h : List (Event τ)) (c : Nat) {m : Emission}
    (hslots : m.slots S.lg.segment.capacity = slots) :
    S.lg.segment.nextEntries (writtenIn S.lg.segment c h) (.message m) = ⟨.message,
        Emission.messageFlags (m.anyTruncated S.lg.segment.capacity) (decide (slots ≠ [])),
        (S.writerAt h c).sequence, m.payload⟩ ::
      continuationEntries m.siteId ((S.writerAt h c).sequence + 1) slots := by
  subst hslots
  rfl

omit [DecidableEq τ] in
/-- A Message whose chain fits may be published. -/
theorem ChainFits.publication {m : Emission} (hfits : S.ChainFits h c m.args slots)
    (hslots : m.slots S.lg.segment.capacity = slots) {mem : Mem} (hquiet : S.QuietIn t h c mem)
    (hexpected : S.Expected (.message m))
    (hfollows : S.lg.Follows (S.emits t) (outcomes h ++ [.written m])) :
    S.Publication t h c mem (.message m) := by
  have hnext := nextEntries_message (S := S) h c hslots
  refine ⟨hquiet, ?_, ?_, hexpected, fun m' heq => ?_⟩
  · rw [hnext, sizes_cons, sizes_continuationEntries]
    show (S.writerAt h c).offset + (recordFootprint m.payload.length + _) ≤ _
    rw [m.payload_length]
    exact hfits.room
  · intro entry hentry
    rw [hnext] at hentry
    rcases List.mem_cons.mp hentry with rfl | hrest
    · refine ⟨?_, fun code heq => by cases heq⟩
      show m.payload.length < 2 ^ 16
      rw [m.payload_length]
      exact Nat.lt_succ_of_le hfits.message
    · exact wf_continuationEntries hfits.short hrest
  · cases heq
    exact hfollows

/-- What `storeChain` does once the Message is known: the chain is copied, its Continuations
are committed, then the Message. -/
theorem writeChain_meets {m : Emission} (hfits : S.ChainFits h c m.args slots)
    (hslots : m.slots S.lg.segment.capacity = slots) (hexpected : S.Expected (.message m))
    (hfollows : S.lg.Follows (S.emits t) (outcomes h ++ [.written m]))
    {conts : List (Reservation × ContinuationSlot)}
    (hconts : conts =
      (((S.writerAt h c).advance (messagePayloadBytes m.args)).reservations slots).zip slots) :
    S.Meets t
      (fun s => S.Ready t h c
        (((S.writerAt h c).advance (messagePayloadBytes m.args)).behind slots) s ∧
        S.Known (.message m) s)
      (do
        copyBytes ((S.writerAt h c).slot.headWord + 8) m.payload
        storeContinuations m.siteId conts
        S.lg.commitContinuations conts
        S.lg.commit (S.writerAt h c).slot .message
          (Emission.messageFlags (m.anyTruncated S.lg.segment.capacity) (decide (conts ≠ [])))
          (messagePayloadBytes m.args) (some (.message m)))
      fun _ => S.Idle t (h ++ [.committed t (S.frontierAt h c) (.message m)]) := by
  have hnext := nextEntries_message (S := S) h c hslots
  have hplaced := placed_message (S := S) h c hslots
  refine of_ready (fun mem => mem.store (S.frontierAt h c)
    (encode (S.lg.segment.nextEntries (writtenIn S.lg.segment c h) (.message m))))
    fun mem hquiet => ?_
  have hp := hfits.publication hslots hquiet hexpected hfollows
  have hps : ∀ p ∈ continuationsAt ((S.writerAt h c).advance (messagePayloadBytes m.args))
      m.siteId slots, p ∈ S.placed h c (.message m) := by
    intro p hmem
    rw [hplaced]
    exact List.mem_cons_of_mem _ hmem
  have hfirst := Publication.first_placed hnext
  have hallows₁ : hp.plan.Allows fun x =>
      False ∨ Range (S.frontierAt h c + 8) m.payload.length x := by
    rintro x (hfalse | hx)
    · exact hfalse.elim
    · exact hp.allows_payload hfirst x hx
  have hallows₂ := hallows₁.or (hp.allows_payloads hps)
  have hallows₃ := hallows₂.or (hp.allows_heads hps fun p hmem => behind_message hmem)
  have hframe : ∀ s s' : State τ, s.trace <+: s'.trace → S.Known (.message m) s →
    S.Known (.message m) s' := fun _ _ htrace hk => hk.mono htrace
  -- the zipped list is empty when there are no Continuations
  have hempty : conts ≠ [] ↔ slots ≠ [] := by
    rw [not_iff_not, hconts, ← List.length_eq_zero_iff, List.length_zip,
      ChunkWriter.reservations_length, Nat.min_self, List.length_eq_zero_iff]
  have hcommit : S.lg.commit (S.writerAt h c).slot .message
      (Emission.messageFlags (m.anyTruncated S.lg.segment.capacity) (decide (conts ≠ [])))
      (messagePayloadBytes m.args) (some (.message m)) =
      S.lg.storeHeadWord (S.frontierAt h c) (Entry.mk .message
        (Emission.messageFlags (m.anyTruncated S.lg.segment.capacity) (decide (slots ≠ [])))
        (S.writerAt h c).sequence m.payload).head.pack (some (.message m)) := by
    rw [← m.payload_length, commit_eq]
    simp only [hempty]
    rfl
  subst hconts
  refine Spec.Triple.bind (frame_of_trace hframe
    (hp.copyPayload_meets hfirst fun x hfalse => hfalse.elim)) fun _ => ?_
  refine Spec.Triple.bind (frame_of_trace hframe
    (storeContinuations_meets hp hps hallows₁)) fun _ => ?_
  refine Spec.Triple.bind (frame_of_trace hframe (commitContinuations_meets hp hps
    (fun p hmem => behind_message hmem) hallows₂)) fun _ => ?_
  rw [hcommit]
  have hpublish := @Publication.publish_meets τ S t h c mem (.message m) _
    (fun cache => cache = S.cacheOf
      (((S.writerAt h c).advance (messagePayloadBytes m.args)).behind slots)) _ hp _ _ hnext
    hallows₃
  refine Spec.Triple.conseq (hpublish ?_) (fun _ _ hP => hP) ?_
  · -- every byte of a head word or a payload is stored
    intro p hmem x h₁ h₂
    rw [hplaced] at hmem
    rcases List.mem_cons.mp hmem with rfl | hrest
    · by_cases hhead : x < S.frontierAt h c + 8
      · exact Or.inr ⟨h₁, hhead⟩
      · exact Or.inl (Or.inl (Or.inl (Or.inr ⟨Nat.le_of_not_lt hhead, h₂⟩)))
    · by_cases hhead : x < p.1 + 8
      · exact Or.inl (Or.inr ⟨p, hrest, h₁, hhead⟩)
      · exact Or.inl (Or.inl (Or.inr ⟨p, hrest, Nat.le_of_not_lt hhead, h₂⟩))
  · rintro _ s _ ⟨⟨hheld, hlast⟩, hcache⟩
    refine Ready.idle ⟨hheld, hlast, hcache.trans ?_⟩
    have hinside : S.lg.segment.InChunk c (S.frontierAt h c) :=
      (hp.placed_inside hfirst).2 _ (Nat.le_refl _)
        (Nat.lt_add_of_pos_right (lt_of_lt_of_le (by decide) (Entry.size_pos _)))
    rw [writerAt_committed h hinside, hnext, List.map_cons, List.foldl_cons,
      map_length_continuationEntries, m.payload_length]
    rfl

/-- The part of `emitChained` behind its reservations: the chain becomes visible with its
Message. -/
theorem storeChain_meets {e : Emit} {cut : Bool}
    (hslots : ∀ m : Emission, m.args = e.args → m.slots S.lg.segment.capacity = slots ∧
      m.anyTruncated S.lg.segment.capacity = cut)
    (hfits : S.ChainFits h c e.args slots) (htyped : S.lg.Typed e)
    (hfollows : ∀ o, S.lg.OutcomeOf e o → S.lg.Follows (S.emits t) (outcomes h ++ [o])) :
    S.Meets t
      (fun s => S.Ready t h c
        (((S.writerAt h c).advance (messagePayloadBytes e.args)).behind slots) s ∧
        s.Defined S.lg e.site)
      (S.lg.storeChain e (S.writerAt h c).slot
        ((((S.writerAt h c).advance (messagePayloadBytes e.args)).reservations slots).zip slots)
        cut)
      fun _ s => ∃ m, (S.lg.OutcomeOf e (.written m) ∧
          m.anyTruncated S.lg.segment.capacity = cut) ∧
        S.Idle t (h ++ [.committed t (S.frontierAt h c) (.message m)] ++ cutEvents t cut) s := by
  refine Spec.Triple.bind (frame_defined e.site (monotonicNow_meets ready_stable)) fun monoNs => ?_
  have hm := hslots ⟨e.site, monoNs, S.lg.correlation e.correlation, e.args⟩ rfl
  have houtcome : S.lg.OutcomeOf e
    (.written ⟨e.site, monoNs, S.lg.correlation e.correlation, e.args⟩) := ⟨rfl, rfl, rfl⟩
  obtain ⟨hmslots, hmcut⟩ := hm
  have hwrite := @writeChain_meets τ S t h c slots _ _ hfits hmslots htyped
    (hfollows _ houtcome) _ rfl
  rw [hmcut] at hwrite
  have hcount := fun _ : Unit => Spec.Triple.conseq (@countTruncationIf_meets τ S _ t
    (h ++ [.committed t (S.frontierAt h c)
      (.message ⟨e.site, monoNs, S.lg.correlation e.correlation, e.args⟩)]) cut)
    (fun _ _ hP => hP) fun _ s _ hP => (⟨_, ⟨houtcome, hmcut⟩, hP⟩ : ∃ m,
      (S.lg.OutcomeOf e (.written m) ∧ m.anyTruncated S.lg.segment.capacity = cut) ∧
        S.Idle t (h ++ [.committed t (S.frontierAt h c) (.message m)] ++ cutEvents t cut) s)
  have hall := Spec.Triple.bind hwrite hcount
  simp only [Prog.bind_assoc] at hall
  refine Spec.Triple.conseq hall (fun s _ hP => ⟨hP.1, fun m' heq => ?_⟩) fun _ _ _ hQ => hQ
  cases heq
  exact hP.2

end Setting

end Sub0Log.Producer
