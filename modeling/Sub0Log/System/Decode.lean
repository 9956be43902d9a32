import Sub0Log.Reader.Accounting
import Sub0Log.System.Payloads
import Sub0Log.System.Records

/-!
# What a decoder makes of publications

A visit of a producer's memory yields the records of publications, one publication after
another (`Shown`). This module says what `decodeAll` returns on such a stream:

* `foldlM_continuations` — the Continuations of one chain, joined to the Message that is
  pending: every string argument comes out whole (`joinSlots_contSlots`);
* `foldlM_views` — one publication, from a second pass with no chain open to a second pass
  with no chain open;
* **`decodeAll_shown`** — the whole stream: one record for each Message whose site is
  defined somewhere in it, and nothing else.
-/

open Bytes Checked

namespace Sub0Log.System

open Wire Reader Producer

/-! ### Publications as a reader meets them -/

/-- A publication in an image: the chunk it is in, the owner the chunk's header names,
where its first record is, and that record's sequence number. -/
structure Shown where
  chunk : Nat
  owner : UInt64
  address : Nat
  sequence : UInt16
  written : Written

namespace Shown

/-- Its records. -/
def entries (capacity : Nat) (p : Shown) : List Entry := p.written.entries capacity p.sequence

/-- Its records as a visit yields them. -/
def views (capacity : Nat) (p : Shown) : List RecordView :=
  (place p.address (p.entries capacity)).map (entryView (UInt32.ofNat p.chunk) p.owner)

/-- The site it defines, if it is a definition. -/
def site? (capacity : Nat) (p : Shown) : Option DecodedSite :=
  match p.written with
  | .definition d => some (shownSite d (d.lengths capacity).1 (d.lengths capacity).2.1)
  | .message _ | .subsystem _ _ => none

/-- The record a decoder returns for a Message: its arguments up to the ceiling when the
whole chain is there, else up to the inline cap. -/
def record (capacity : Nat) (generation : UInt64) (p : Shown) (e : Emission)
    (site : DecodedSite) : DecodedRecord where
  site := site
  monoNs := e.monoNs
  correlationId := e.correlationId
  ownerThread := p.owner
  truncated := e.anyTruncated capacity
  args := e.args.map (shownArg (if e.chained capacity then cArgCeiling else cInlineBytesCap))
  segmentGeneration := generation
  recordOffset := p.address

/-- The record it decodes to under these sites. -/
def record? (capacity : Nat) (generation : UInt64) (sites : List DecodedSite) (p : Shown) :
    Option DecodedRecord :=
  match p.written with
  | .message e => (siteFor sites e.siteId).map (p.record capacity generation e)
  | .definition _ | .subsystem _ _ => none

/-- A Message whose site is not among these. -/
def undefined (sites : List DecodedSite) (p : Shown) : Bool :=
  match p.written with
  | .message e => (siteFor sites e.siteId).isNone
  | .definition _ | .subsystem _ _ => false

/-- The Continuations nobody waits for, since their Message was not decoded. -/
def orphaned (capacity : Nat) (sites : List DecodedSite) (p : Shown) : Nat :=
  match p.written with
  | .message e => if (siteFor sites e.siteId).isNone then (e.slots capacity).length else 0
  | .definition _ | .subsystem _ _ => 0

/-- What the decoder needs of a publication: lengths that fit a head word, and a Message's
arguments as its site announces them. -/
structure Decodable (capacity : Nat) (sites : List DecodedSite) (p : Shown) : Prop where
  wf : ∀ e ∈ p.entries capacity, e.Wf
  arity : ∀ e, p.written = .message e → e.args.length ≤ 255
  typed : ∀ e site, p.written = .message e → siteFor sites e.siteId = some site →
    site.argTypes = e.args.map Arg.typeCode

end Shown

/-! ### Flags -/

/-- The flags of a Message say what they were made from. -/
theorem messageFlags_read (truncated continued : Bool) :
    (Emission.messageFlags truncated continued &&& cFlagTruncated != 0) = truncated ∧
      (Emission.messageFlags truncated continued &&& cFlagContinued != 0) = continued := by
  cases truncated <;> cases continued <;> decide

theorem continuation_flags_read (last : Prop) [Decidable last] :
    ((if last then (0 : UInt8) else cFlagContinued) &&& cFlagContinued != 0) = !decide last := by
  by_cases h : last
  · rw [if_pos h, decide_eq_true h]
    decide
  · rw [if_neg h, decide_eq_false h]
    decide

/-! ### Joining a chain -/

/-- One slice joined to the string argument it names. -/
def joinSlot (args : List DecodedArg) (slot : ContinuationSlot) : List DecodedArg :=
  match args[slot.argIndex.toNat]? with
  | some (.bytes value) => args.set slot.argIndex.toNat (.bytes (value ++ slot.bytes))
  | _ => args

def joinSlots (args : List DecodedArg) (slots : List ContinuationSlot) : List DecodedArg :=
  slots.foldl joinSlot args

/-- The slices of one argument are joined to it. -/
theorem joinSlots_slices (pre post : List DecodedArg) (value : List UInt8)
    (slices : List (List UInt8)) (hpre : pre.length < 256) :
    joinSlots (pre ++ .bytes value :: post)
        (slices.map fun bytes => ⟨UInt8.ofNat pre.length, bytes⟩) =
      pre ++ .bytes (value ++ slices.flatten) :: post := by
  induction slices generalizing value with
  | nil => simp [joinSlots]
  | cons bytes slices ih =>
    have hindex : (UInt8.ofNat pre.length).toNat = pre.length := by
      rw [UInt8.toNat_ofNat', Nat.mod_eq_of_lt hpre]
    have hone : joinSlot (pre ++ .bytes value :: post) ⟨UInt8.ofNat pre.length, bytes⟩ =
        pre ++ .bytes (value ++ bytes) :: post := by
      unfold joinSlot
      simp only [hindex, List.getElem?_append_right (Nat.le_refl _), Nat.sub_self,
        List.getElem?_cons_zero, List.set_append_right _ _ (Nat.le_refl _), List.set_cons_zero]
    rw [List.map_cons, joinSlots, List.foldl_cons, hone]
    change joinSlots _ _ = _
    rw [ih, List.flatten_cons, List.append_assoc]

/-- A fixed-size argument has no overflow. -/
theorem tail_fixed {a : Arg} (h : a.isBytes = false) : a.tail = [] := by
  refine List.length_eq_zero_iff.mp ?_
  rw [a.tail_length, Arg.overflowLen, h]
  rfl

/-- A fixed-size argument is shown whole under any limit. -/
theorem shownArg_fixed {a : Arg} (h : a.isBytes = false) (limit limit' : Nat) :
    shownArg limit a = shownArg limit' a := by
  cases a with
  | view | cstring => cases h
  | _ => rfl

/-- **A whole chain** restores every string argument, up to the ceiling. -/
theorem joinSlots_contSlots {args : List Arg} (h : args.length ≤ 255) :
    joinSlots (args.map (shownArg cInlineBytesCap)) (contSlots args) =
      args.map (shownArg cArgCeiling) := by
  -- the arguments in front are done, those from `pre.length` on are not
  have hgo : ∀ (args : List Arg) (pre : List DecodedArg), pre.length + args.length ≤ 255 →
      joinSlots (pre ++ args.map (shownArg cInlineBytesCap))
          ((args.zipIdx pre.length).flatMap fun p =>
            (slices p.1.tail).map fun bytes => ⟨UInt8.ofNat p.2, bytes⟩) =
        pre ++ args.map (shownArg cArgCeiling) := by
    intro args
    induction args with
    | nil => intro pre _; rfl
    | cons a args ih =>
      intro pre hlength
      rw [List.length_cons] at hlength
      have hfirst : joinSlots (pre ++ (a :: args).map (shownArg cInlineBytesCap))
          ((slices a.tail).map fun bytes => ⟨UInt8.ofNat pre.length, bytes⟩) =
          (pre ++ [shownArg cArgCeiling a]) ++ args.map (shownArg cInlineBytesCap) := by
        by_cases hbytes : a.isBytes = true
        · rw [List.map_cons, shownArg_bytes hbytes, shownArg_bytes hbytes,
            joinSlots_slices pre _ _ _ (by omega), slices_flatten, ← take_inlineLen hbytes,
            take_inlineLen_tail hbytes, List.append_assoc]
          rfl
        · have hfixed : a.isBytes = false := by simpa using hbytes
          rw [tail_fixed hfixed, slices_nil, List.map_cons, shownArg_fixed hfixed _ cArgCeiling,
            List.append_assoc]
          rfl
      have hrest := ih (pre ++ [shownArg cArgCeiling a]) (by
        rw [List.length_append, List.length_singleton]
        omega)
      rw [List.length_append, List.length_singleton] at hrest
      rw [List.zipIdx_cons, List.flatMap_cons, joinSlots, List.foldl_append]
      change joinSlots (joinSlots _ _) _ = _
      rw [hfirst, hrest, List.append_assoc]
      rfl
  exact hgo args [] (by simpa using h)

/-- Slices are cut from string arguments. -/
theorem contSlots_bytes {args : List Arg} (h : args.length ≤ 255) {slot : ContinuationSlot}
    (hslot : slot ∈ contSlots args) :
    (args.map Arg.typeCode)[slot.argIndex.toNat]? = some .bytes := by
  obtain ⟨⟨a, i⟩, ha, hmem⟩ := List.mem_flatMap.mp hslot
  obtain ⟨bytes, hbytes, rfl⟩ := List.mem_map.mp hmem
  obtain ⟨hi, heq⟩ := List.mem_zipIdx' ha
  have hindex : (UInt8.ofNat i).toNat = i := by
    rw [UInt8.toNat_ofNat', Nat.mod_eq_of_lt (by omega)]
  have hstring : a.isBytes = true := by
    by_contra hfixed
    rw [tail_fixed (by simpa using hfixed), slices_nil] at hbytes
    cases hbytes
  show (args.map Arg.typeCode)[(UInt8.ofNat i).toNat]? = _
  rw [hindex, List.getElem?_map, List.getElem?_eq_getElem hi, ← heq, Option.map_some,
    a.isBytes_iff.mp hstring]

/-! ### One chain through the second pass -/

section Chain

variable {sites : List DecodedSite} {generation : UInt64} {s : PassTwo}

/-- A slice of the open chain. -/
theorem consumeSlice_slot {rec : DecodedRecord} (hpending : s.pending = some rec)
    (hdamaged : s.damaged = false) (hinv : PendingInv rec s.pendingOwned)
    {slot : ContinuationSlot}
    (htarget : rec.site.argTypes[slot.argIndex.toNat]? = some .bytes) (siteId : UInt64) :
    ∃ owned, s.consumeSlice (slot.payload siteId) =
        .ok { s with
          pending := some { rec with args := joinSlot rec.args slot }
          pendingOwned := owned } ∧
      PendingInv { rec with args := joinSlot rec.args slot } owned := by
  have hlength := slot.payload_length siteId
  have hlong : ¬(slot.payload siteId).length < sizeofContinuationPayload := by
    rw [hlength]
    unfold continuationPayloadBytes
    omega
  -- what the payload says
  have hfixed : ContinuationPayload.ofBytes
      (((slot.payload siteId).drop 0).take sizeofContinuationPayload) = ⟨siteId, slot.argIndex⟩ := by
    unfold ContinuationSlot.payload
    rw [List.drop_zero, List.take_left' (ContinuationPayload.toBytes_length _),
      ContinuationPayload.ofBytes_toBytes]
  have htail : ((slot.payload siteId).drop sizeofContinuationPayload).take
      ((slot.payload siteId).length - sizeofContinuationPayload) = slot.bytes := by
    rw [hlength]
    unfold ContinuationSlot.payload continuationPayloadBytes
    rw [List.drop_left' (ContinuationPayload.toBytes_length _), Nat.add_sub_cancel_left,
      List.take_length]
  obtain ⟨value, hvalue, hjoined⟩ := joinedSoFar_eq hinv htarget
  have hlt : slot.argIndex.toNat < rec.args.length := (List.getElem?_eq_some_iff.mp hvalue).1
  have hvalid : ¬s.validTarget slot.argIndex.toNat = false := by
    unfold PassTwo.validTarget
    rw [hdamaged, hpending, hinv.length, decide_eq_true hlt]
    simp [htarget]
  have hjoin : joinSlot rec.args slot =
      rec.args.set slot.argIndex.toNat (.bytes (value ++ slot.bytes)) := by
    unfold joinSlot
    rw [hvalue]
  refine ⟨s.pendingOwned.set slot.argIndex.toNat (some (value ++ slot.bytes)), ?consumed, ?inv⟩
  case inv =>
    rw [hjoin]
    exact hinv.set hvalue
  case consumed =>
    unfold PassTwo.consumeSlice PassTwo.joinSlice
    rw [if_neg hlong, Checked.read_eq (by omega)]
    simp only [ok_bind, hfixed]
    rw [if_neg hvalid, hpending]
    simp only
    rw [hjoined, ok_bind, sub64_eq (by omega)]
    simp only [ok_bind]
    rw [Checked.read_eq (by omega), htail, hjoin]
    rfl

/-- The Continuations of the chain that is open, to its end. -/
theorem foldlM_continuations {rec : DecodedRecord} {slots : List ContinuationSlot}
    (hne : slots ≠ []) (hpending : s.pending = some rec) (hdamaged : s.damaged = false)
    (hexpecting : s.expectingContinuation = true) (hinv : PendingInv rec s.pendingOwned)
    (htarget : ∀ slot ∈ slots, rec.site.argTypes[slot.argIndex.toNat]? = some .bytes)
    (siteId : UInt64) (sequence : UInt16) (a : Nat) (chunkIndex : UInt32) (owner : UInt64) :
    ((place a (continuationEntries siteId sequence slots)).map (entryView chunkIndex owner)).foldlM
        (PassTwo.step sites generation) s =
      .ok ⟨s.result ++ [{ rec with args := joinSlots rec.args slots }], none, [], false, false,
        s.undecodable, s.skipped⟩ := by
  induction slots generalizing s rec sequence a with
  | nil => exact absurd rfl hne
  | cons slot rest ih =>
    obtain ⟨owned, hconsume, hinv'⟩ := consumeSlice_slot hpending hdamaged hinv
      (htarget slot List.mem_cons_self) siteId
    rw [continuationEntries, place, List.map_cons, List.foldlM_cons]
    -- the first slice, whatever its flags promise
    have hstep : ∀ v : RecordView, v.head.kind = .continuation → v.payload = slot.payload siteId →
        PassTwo.step sites generation s v = (do
          let s' ← Except.ok { s with
            pending := some { rec with args := joinSlot rec.args slot }
            pendingOwned := owned }
          if PassTwo.continued v then return { s' with expectingContinuation := true }
          else return s'.finalizePending) := by
      intro v hkind hpayload
      unfold PassTwo.step PassTwo.consumeContinuation
      rw [if_pos hexpecting, if_neg (not_not_intro hkind), hpayload, hconsume]
    rw [hstep _ rfl rfl]
    simp only [ok_bind]
    have hflags : PassTwo.continued (entryView chunkIndex owner (a, ⟨.continuation,
        if rest = [] then 0 else cFlagContinued, sequence, slot.payload siteId⟩)) =
        !decide (rest = []) := continuation_flags_read (rest = [])
    rw [hflags]
    by_cases hrest : rest = []
    · subst hrest
      simp only [decide_true, Bool.not_true, Bool.false_eq_true, if_false, pure_eq_ok, ok_bind,
        PassTwo.finalizePending, hdamaged, continuationEntries, place, List.map_nil,
        List.foldlM_nil]
      rfl
    · rw [decide_eq_false hrest]
      simp only [Bool.not_false, if_true, pure_eq_ok, ok_bind]
      have hnext : PassTwo.pending { s with
          pending := some { rec with args := joinSlot rec.args slot }
          pendingOwned := owned, expectingContinuation := true } =
          some { rec with args := joinSlot rec.args slot } := rfl
      have hrun := ih hrest hnext hdamaged rfl hinv'
        (fun slot' hslot' => htarget slot' (List.mem_cons_of_mem _ hslot'))
      exact hrun _ _

/-- Continuations no chain waits for are skipped. -/
theorem foldlM_orphans {slots : List ContinuationSlot}
    (hexpecting : s.expectingContinuation = false)
    (siteId : UInt64) (sequence : UInt16) (a : Nat) (chunkIndex : UInt32) (owner : UInt64) :
    ((place a (continuationEntries siteId sequence slots)).map (entryView chunkIndex owner)).foldlM
        (PassTwo.step sites generation) s =
      .ok { s with skipped := s.skipped + slots.length } := by
  induction slots generalizing s sequence a with
  | nil => rfl
  | cons slot rest ih =>
    rw [continuationEntries, place, List.map_cons, List.foldlM_cons]
    have hstep : ∀ v : RecordView, v.head.kind = .continuation →
        PassTwo.step sites generation s v = .ok { s with skipped := s.skipped + 1 } := by
      intro v hkind
      unfold PassTwo.step PassTwo.handleRecord
      rw [if_neg (by rw [hexpecting]; decide), if_pos hkind]
      rfl
    rw [hstep _ rfl]
    simp only [ok_bind]
    rw [ih (s := { s with skipped := s.skipped + 1 }) hexpecting, List.length_cons,
      Nat.add_assoc, Nat.add_comm 1]

end Chain

/-! ### One publication through the second pass -/

section Publications

variable {capacity : Nat} {sites : List DecodedSite} {generation : UInt64} {p : Shown}

/-- The record a Message decodes to before any Continuation. -/
def Shown.opening (capacity : Nat) (generation : UInt64) (p : Shown) (e : Emission)
    (site : DecodedSite) : DecodedRecord :=
  { p.record capacity generation e site with args := e.args.map (shownArg cInlineBytesCap) }

/-- The head of a Message, decoded. -/
theorem message_shown {e : Emission} (h : p.Decodable capacity sites) (hp : p.written = .message e)
    {v : RecordView} (hpayload : v.payload = e.payload)
    (hcut : (v.head.flags &&& cFlagTruncated != 0) = e.anyTruncated capacity)
    (howner : v.ownerThread = p.owner) (hoffset : v.recordOffset = p.address) :
    message sites generation v =
      (siteFor sites e.siteId).map (p.opening capacity generation e) := by
  have hlength : sizeofMessagePayload ≤ e.payload.length := by
    rw [e.payload_length]
    exact Nat.le_add_right _ _
  unfold message
  rw [hpayload, if_pos hlength, messageFixed_payload, hcut, howner, hoffset]
  cases hsite : siteFor sites e.siteId with
  | none => rfl
  | some site =>
    have htyped := h.typed e site hp hsite
    simp only [Option.map_some]
    rw [htyped, argsAt_payload]
    rfl

/-- A second pass between two publications. -/
def between (result : List DecodedRecord) (undecodable skipped : Nat) : PassTwo :=
  ⟨result, none, [], false, false, undecodable, skipped⟩

variable (generation)

/-- **One publication**: a Message of a known site is one more record, one of an unknown
site is counted, its Continuations with it, and everything else is passed over. -/
theorem foldlM_views (h : p.Decodable capacity sites) (result : List DecodedRecord)
    (undecodable skipped : Nat) :
    (p.views capacity).foldlM (PassTwo.step sites generation)
        (between result undecodable skipped) =
      .ok (between (result ++ (p.record? capacity generation sites).toList)
        (undecodable + if p.undefined sites then 1 else 0)
        (skipped + p.orphaned capacity sites)) := by
  have hdirect : ∀ v, PassTwo.step sites generation (between result undecodable skipped) v =
      PassTwo.handleRecord sites generation (between result undecodable skipped) v := fun v =>
    if_neg Bool.false_ne_true
  cases hp : p.written with
  | definition d =>
    unfold Shown.views Shown.entries Shown.record? Shown.undefined Shown.orphaned
    rw [hp]
    simp only [Written.entries, place, List.map_cons, List.map_nil, List.foldlM_cons,
      List.foldlM_nil, hdirect, Option.toList_none, List.append_nil]
    rfl
  | subsystem id name =>
    unfold Shown.views Shown.entries Shown.record? Shown.undefined Shown.orphaned
    rw [hp]
    simp only [Written.entries, place, List.map_cons, List.map_nil, List.foldlM_cons,
      List.foldlM_nil, hdirect, Option.toList_none, List.append_nil]
    rfl
  | message e =>
    generalize hflags : Emission.messageFlags (e.anyTruncated capacity)
      (decide (e.slots capacity ≠ [])) = flags
    obtain ⟨hcut, hcontinued⟩ := messageFlags_read (e.anyTruncated capacity)
      (decide (e.slots capacity ≠ []))
    rw [hflags] at hcut hcontinued
    have hhead : message sites generation (entryView (UInt32.ofNat p.chunk) p.owner
        (p.address, ⟨.message, flags, p.sequence, e.payload⟩)) =
        (siteFor sites e.siteId).map (p.opening capacity generation e) :=
      message_shown h hp rfl hcut rfl rfl
    have hviews : p.views capacity =
        entryView (UInt32.ofNat p.chunk) p.owner
            (p.address, ⟨.message, flags, p.sequence, e.payload⟩) ::
          (place (p.address + Entry.size ⟨.message, flags, p.sequence, e.payload⟩)
            (continuationEntries e.siteId (p.sequence + 1) (e.slots capacity))).map
              (entryView (UInt32.ofNat p.chunk) p.owner) := by
      unfold Shown.views Shown.entries
      rw [hp, ← hflags]
      rfl
    rw [hviews, List.foldlM_cons, hdirect, handleRecord_message rfl, hhead]
    cases hsite : siteFor sites e.siteId with
    | none =>
      have hrecord : p.record? capacity generation sites = none := by
        simp only [Shown.record?, hp, hsite, Option.map_none]
      have hundefined : p.undefined sites = true := by
        simp only [Shown.undefined, hp, hsite, Option.isNone_none]
      have horphaned : p.orphaned capacity sites = (e.slots capacity).length := by
        simp only [Shown.orphaned, hp, hsite, Option.isNone_none, if_true]
      rw [hrecord, hundefined, horphaned, Option.toList_none, List.append_nil, if_pos rfl]
      exact foldlM_orphans (by rfl) _ _ _ _ _
    | some site =>
      have hrecord : p.record? capacity generation sites =
          some (p.record capacity generation e site) := by
        simp only [Shown.record?, hp, hsite, Option.map_some]
      have hundefined : p.undefined sites = false := by
        simp only [Shown.undefined, hp, hsite, Option.isNone_some]
      have horphaned : p.orphaned capacity sites = 0 := by
        simp only [Shown.orphaned, hp, hsite, Option.isNone_some, Bool.false_eq_true, if_false]
      rw [hrecord, hundefined, horphaned, Option.toList_some, if_neg Bool.false_ne_true,
        Nat.add_zero, Nat.add_zero, Option.map_some]
      simp only
      have hpromise : PassTwo.continued (entryView (UInt32.ofNat p.chunk) p.owner
          (p.address, ⟨.message, flags, p.sequence, e.payload⟩)) =
          decide (e.slots capacity ≠ []) := hcontinued
      rw [hpromise]
      have harity := h.arity e hp
      by_cases hslots : e.slots capacity = []
      · -- nothing follows: the inline parts are all there is
        have hwhole : p.opening capacity generation e site = p.record capacity generation e site := by
          unfold Shown.opening Shown.record
          cases hchained : e.chained capacity with
          | false => rfl
          | true =>
            have hcont : contSlots e.args = [] := by
              unfold Emission.slots at hslots
              rwa [if_pos hchained] at hslots
            have hjoin := joinSlots_contSlots harity
            rw [hcont] at hjoin
            rw [if_pos rfl, ← hjoin]
            rfl
        rw [hslots, decide_eq_false (not_not_intro rfl), hwhole]
        rfl
      · have hchained : e.chained capacity = true := by
          by_contra hnot
          exact hslots (if_neg hnot)
        have hcont : e.slots capacity = contSlots e.args := if_pos hchained
        have htyped := h.typed e site hp hsite
        have hinv : PendingInv (p.opening capacity generation e site)
            (List.replicate (p.opening capacity generation e site).args.length none) := by
          refine ⟨List.length_replicate, fun idx hidx => ?_, fun idx value hidx => ?_⟩
          · obtain ⟨-, hbytes⟩ := argsAt_some (argsAt_payload e)
            rw [← htyped] at hbytes
            exact hbytes idx hidx
          · rw [List.getElem?_replicate] at hidx
            split at hidx <;> cases hidx
        have htarget : ∀ slot ∈ contSlots e.args,
            (p.opening capacity generation e site).site.argTypes[slot.argIndex.toNat]? =
              some .bytes := by
          intro slot hslot
          show site.argTypes[slot.argIndex.toNat]? = some .bytes
          rw [htyped]
          exact contSlots_bytes harity hslot
        have hwhole : (⟨site, e.monoNs, e.correlationId, p.owner, e.anyTruncated capacity,
            joinSlots (p.opening capacity generation e site).args (contSlots e.args), generation,
            p.address⟩ : DecodedRecord) = p.record capacity generation e site := by
          unfold Shown.opening Shown.record
          rw [if_pos hchained, ← joinSlots_contSlots harity]
        rw [decide_eq_true hslots]
        simp only [if_true, ok_bind]
        rw [hcont] at hslots ⊢
        have hrun := @foldlM_continuations sites generation
          { between result undecodable skipped with
            pending := some (p.opening capacity generation e site)
            pendingOwned :=
              List.replicate (p.opening capacity generation e site).args.length none
            expectingContinuation := true
            damaged := false }
          _ _ hslots rfl rfl rfl hinv htarget e.siteId (p.sequence + 1)
        rw [← hwhole]
        exact hrun _ _ _

/-- A stream of publications through the second pass. -/
theorem foldlM_stream {ps : List Shown} (h : ∀ p ∈ ps, p.Decodable capacity sites)
    (result : List DecodedRecord) (undecodable skipped : Nat) :
    (ps.flatMap (Shown.views capacity)).foldlM (PassTwo.step sites generation)
        (between result undecodable skipped) =
      .ok (between (result ++ ps.filterMap (Shown.record? capacity generation sites))
        (undecodable + ps.countP (Shown.undefined sites))
        (skipped + (ps.map (Shown.orphaned capacity sites)).sum)) := by
  induction ps generalizing result undecodable skipped with
  | nil =>
    rw [List.filterMap_nil, List.append_nil]
    rfl
  | cons p ps ih =>
    have hfirst := foldlM_views generation (h p List.mem_cons_self) result
      undecodable skipped
    have hcons : (p :: ps).filterMap (Shown.record? capacity generation sites) =
        (p.record? capacity generation sites).toList ++
          ps.filterMap (Shown.record? capacity generation sites) := by
      cases hrecord : p.record? capacity generation sites with
      | none => rw [List.filterMap_cons_none hrecord]; rfl
      | some rec => rw [List.filterMap_cons_some hrecord]; rfl
    rw [List.flatMap_cons, List.foldlM_append, hfirst, ok_bind,
      ih (fun q hq => h q (List.mem_cons_of_mem _ hq)), hcons, List.append_assoc,
      List.countP_cons, List.map_cons, List.sum_cons, Nat.add_assoc, Nat.add_assoc,
      Nat.add_comm (if p.undefined sites then 1 else 0)]

end Publications

/-! ### The first pass -/

section Definitions

variable {capacity : Nat} {p : Shown}

/-- A definition that a head word can describe is read back. -/
theorem siteDefinition_shown {d : SiteDefinition}
    (h : (d.payload (d.lengths capacity).1 (d.lengths capacity).2.1).length < 2 ^ 16) :
    siteDefinition (d.payload (d.lengths capacity).1 (d.lengths capacity).2.1) =
      some (shownSite d (d.lengths capacity).1 (d.lengths capacity).2.1) := by
  obtain ⟨hformat, hfile⟩ := d.lengths_le capacity
  rw [d.payload_length hformat hfile] at h
  unfold definitionPayloadBytes at h
  exact siteDefinition_payload d hformat hfile (by omega) (by omega)

/-- The definitions of a publication: its own, if it is one. -/
theorem definitions_views (h : ∀ e ∈ p.entries capacity, e.Wf) :
    definitions (p.views capacity) = (p.site? capacity).toList := by
  have hnone : ∀ (es : List Entry) (a : Nat), (∀ e ∈ es, e.kind ≠ .siteDefinition) →
      definitions ((place a es).map (entryView (UInt32.ofNat p.chunk) p.owner)) = [] := by
    intro es a hkind
    refine List.filterMap_eq_nil_iff.mpr fun v hv => ?_
    obtain ⟨q, hq, rfl⟩ := List.mem_map.mp hv
    exact if_neg (hkind q.2 (mem_place hq).2.2)
  unfold Shown.entries at h
  unfold Shown.views Shown.entries Shown.site?
  cases hp : p.written with
  | message e =>
    refine hnone _ _ fun entry hentry => ?_
    rcases List.mem_cons.mp hentry with rfl | hcont
    · exact fun heq => by cases heq
    · rw [mem_continuationEntries hcont]
      exact fun heq => by cases heq
  | subsystem id name =>
    refine hnone _ _ fun entry hentry => ?_
    rw [List.mem_singleton.mp hentry]
    exact fun heq => by cases heq
  | definition d =>
    rw [hp] at h
    exact List.filterMap_cons_some (siteDefinition_shown (h _ List.mem_cons_self).length_lt)

theorem definitions_append (records records' : List RecordView) :
    definitions (records ++ records') = definitions records ++ definitions records' :=
  List.filterMap_append

/-- The definitions of a stream of publications. -/
theorem definitions_stream {ps : List Shown} (h : ∀ p ∈ ps, ∀ e ∈ p.entries capacity, e.Wf) :
    definitions (ps.flatMap (Shown.views capacity)) = ps.filterMap (Shown.site? capacity) := by
  induction ps with
  | nil => rfl
  | cons p ps ih =>
    rw [List.flatMap_cons, definitions_append, definitions_views (h p List.mem_cons_self),
      ih fun q hq => h q (List.mem_cons_of_mem _ hq)]
    cases hsite : p.site? capacity with
    | none => rw [List.filterMap_cons_none hsite]; rfl
    | some site => rw [List.filterMap_cons_some hsite]; rfl

/-- No record of a publication is malformed or of a kind the decoder does not know. -/
theorem wellKnown_views (h : ∀ e ∈ p.entries capacity, e.Wf) {v : RecordView}
    (hv : v ∈ p.views capacity) :
    malformedSite v = false ∧ malformedSubsystem v = false ∧ isOther v = false := by
  obtain ⟨q, hq, rfl⟩ := List.mem_map.mp hv
  have hmem : q.2 ∈ p.entries capacity := (mem_place hq).2.2
  have hwf := h q.2 hmem
  unfold malformedSite malformedSubsystem isOther
  show (q.2.kind == .siteDefinition && (siteDefinition q.2.payload).isNone) = false ∧
    (q.2.kind == .subsystemDefinition && (subsystemDefinition q.2.payload).isNone) = false ∧
    (!(q.2.kind == .message || q.2.kind == .siteDefinition || q.2.kind == .subsystemDefinition ||
      q.2.kind == .continuation)) = false
  unfold Shown.entries at hmem
  cases hp : p.written with
  | message e =>
    rw [hp] at hmem
    have hkind : q.2.kind = .message ∨ q.2.kind = .continuation := by
      rcases List.mem_cons.mp hmem with heq | hcont
      · exact Or.inl (heq ▸ rfl)
      · exact Or.inr (mem_continuationEntries hcont)
    rcases hkind with hkind | hkind <;> rw [hkind] <;> exact ⟨rfl, rfl, rfl⟩
  | subsystem id name =>
    rw [hp] at hmem
    have heq := List.mem_singleton.mp hmem
    have hlt : (name.take cInlineBytesCap).length < 2 ^ 16 :=
      lt_of_le_of_lt (List.length_take_le _ _) (by decide)
    rw [heq]
    simp only [subsystemDefinition_payload id hlt]
    exact ⟨rfl, rfl, rfl⟩
  | definition d =>
    rw [hp] at hmem
    have heq := List.mem_singleton.mp hmem
    rw [heq] at hwf ⊢
    simp only [siteDefinition_shown hwf.length_lt]
    exact ⟨rfl, rfl, rfl⟩

end Definitions

/-! ### The whole call -/

/-- What becomes of a publication depends on the sites through lookups only. -/
theorem lookups_congr (capacity : Nat) (generation : UInt64) {sites sites' : List DecodedSite}
    (h : ∀ id, siteFor sites id = siteFor sites' id) :
    Shown.record? capacity generation sites = Shown.record? capacity generation sites' ∧
      Shown.undefined sites = Shown.undefined sites' ∧
      Shown.orphaned capacity sites = Shown.orphaned capacity sites' := by
  refine ⟨funext fun p => ?_, funext fun p => ?_, funext fun p => ?_⟩
  · unfold Shown.record?
    cases p.written <;> simp only [h]
  · unfold Shown.undefined
    cases p.written <;> simp only [h]
  · unfold Shown.orphaned
    cases p.written <;> simp only [h]

/-- What `decodeAll` returns when its two passes end like this. -/
theorem decodeAll_of_passes {r : SegmentReader} {v : Visit} {d : Decoder} {s : PassTwo}
    (hvisit : visit r = .ok v) (hone : v.records.foldlM passOne Decoder.fresh = .ok d)
    (htwo : v.records.foldlM (PassTwo.step d.sites r.header.generation)
      (between [] d.undecodable d.skipped) = .ok s) :
    decodeAll Decoder.fresh r =
      .ok (s.finish.result,
        { d with undecodable := s.finish.undecodable, skipped := s.finish.skipped }) := by
  unfold decodeAll
  rw [hvisit]
  simp only [ok_bind]
  rw [hone]
  simp only [ok_bind]
  unfold between at htwo
  rw [htwo]
  rfl

/-- **What a decoder returns for a stream of publications**: one record for each Message
whose site is defined in the stream, in order. What it counts are the other Messages and
their Continuations. -/
theorem decodeAll_shown {r : SegmentReader} {v : Visit} {capacity : Nat} {ps : List Shown}
    (hvisit : visit r = .ok v) (hrecords : v.records = ps.flatMap (Shown.views capacity))
    (h : ∀ p ∈ ps, p.Decodable capacity (ps.filterMap (Shown.site? capacity))) :
    ∃ d, decodeAll Decoder.fresh r =
        .ok (ps.filterMap (Shown.record? capacity r.header.generation
          (ps.filterMap (Shown.site? capacity))), d) ∧
      d.undecodable = ps.countP (Shown.undefined (ps.filterMap (Shown.site? capacity))) ∧
      d.skipped =
        (ps.map (Shown.orphaned capacity (ps.filterMap (Shown.site? capacity)))).sum := by
  generalize hsites : ps.filterMap (Shown.site? capacity) = sites at h
  -- pass one: no record is malformed, none unknown, and lookups are those of the definitions
  obtain ⟨d, hone, hundecodable, hskipped, hlookup⟩ := foldlM_ok (f := passOne)
    (motive := PassOneInv) (b := Decoder.fresh) v.records ⟨rfl, rfl, fun id => rfl⟩ passOne_step
  have hknown : ∀ view ∈ v.records,
      malformedSite view = false ∧ malformedSubsystem view = false ∧ isOther view = false := by
    intro view hview
    rw [hrecords] at hview
    obtain ⟨p, hp, hview⟩ := List.mem_flatMap.mp hview
    exact wellKnown_views (h p hp).wf hview
  have hzero : ∀ f : RecordView → Bool, (∀ view ∈ v.records, f view = false) →
      v.records.countP f = 0 := by
    intro f hf
    refine List.countP_eq_zero.mpr fun view hview => ?_
    rw [hf view hview]
    exact Bool.false_ne_true
  rw [hzero _ fun view hview => (hknown view hview).1,
    hzero _ fun view hview => (hknown view hview).2.1] at hundecodable
  rw [hzero _ fun view hview => (hknown view hview).2.2] at hskipped
  have hsame : ∀ id, siteFor d.sites id = siteFor sites id := by
    intro id
    rw [hlookup, hrecords, definitions_stream fun p hp => (h p hp).wf, hsites]
  -- pass two
  have hdecodable : ∀ p ∈ ps, p.Decodable capacity d.sites := fun p hp =>
    ⟨(h p hp).wf, (h p hp).arity, fun e site he hsite =>
      (h p hp).typed e site he (by rw [← hsame]; exact hsite)⟩
  have htwo := foldlM_stream r.header.generation hdecodable [] d.undecodable
    d.skipped
  obtain ⟨hrecord, hundefined, horphaned⟩ := lookups_congr capacity r.header.generation hsame
  rw [← hrecords, hrecord, hundefined, horphaned] at htwo
  refine ⟨_, decodeAll_of_passes hvisit hone htwo, ?_, ?_⟩
  · show d.undecodable + _ = _
    rw [hundecodable, Nat.zero_add]
  · show d.skipped + _ = _
    rw [hskipped, Nat.zero_add]

end Sub0Log.System
