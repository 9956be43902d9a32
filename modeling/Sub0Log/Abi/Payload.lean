import Sub0Log.Abi.Sequence
import Sub0Log.Reader.Single

/-!
# Payloads a plugin encodes

A plugin hands over its arguments already encoded, and the host copies the bytes without
looking at them: what is longer than a head word can say is cut (`AbiRecord.encoded`). The
decoder goes by the type codes of the site and asks for every argument in full.

An encoding that is cut anywhere ends inside one of its arguments (`argsAt_cut`), so a payload
that is too long is not a shorter record for the decoder but no record at all:
**`oversized_payload_iff`**.
-/

open Bytes Checked Interleaving

namespace Sub0Log.Abi

open Wire Producer Reader Sub0Log.System

/-! ### Arguments on the wire -/

/-- An argument as a plugin encodes it: the bytes of a value of fixed size, or counted bytes. -/
inductive PluginArg
  | fixed (code : TypeCode) (raw : List UInt8) (size : raw.length = fixedSizeOf code)
      (sized : fixedSizeOf code ≠ 0)
  | bytes (value : List UInt8) (counted : value.length < 2 ^ 16)

namespace PluginArg

def code : PluginArg → TypeCode
  | fixed code _ _ _ => code
  | bytes _ _ => .bytes

def encode : PluginArg → List UInt8
  | fixed _ raw _ _ => raw
  | bytes value _ => leBytes 2 value.length ++ value

/-- The value a decoder makes of it. -/
def decoded : PluginArg → DecodedArg
  | fixed code raw _ _ => decodeFixedArg code raw
  | bytes value _ => .bytes value

/-- The first arguments of a list, as far as `n` bytes hold them in full. -/
def complete : (n : Nat) → List PluginArg → List PluginArg
  | _, [] => []
  | n, a :: args => if a.encode.length ≤ n then a :: complete (n - a.encode.length) args else []

theorem code_ne_bytes {code : TypeCode} (h : fixedSizeOf code ≠ 0) : code ≠ .bytes := by
  rintro rfl
  exact h rfl

end PluginArg

/-- An argument is read back from where it lies. -/
theorem argAt_encode (pre rest : List UInt8) (a : PluginArg) :
    argAt (pre ++ (a.encode ++ rest)) a.code pre.length =
      some (a.decoded, pre.length + a.encode.length) := by
  cases a with
  | fixed code raw size sized =>
    have hfits : pre.length + fixedSizeOf code ≤ (pre ++ (raw ++ rest)).length := by
      rw [List.length_append, List.length_append, size]
      omega
    show argAt (pre ++ (raw ++ rest)) code pre.length = some (decodeFixedArg code raw,
      pre.length + raw.length)
    unfold argAt
    rw [if_neg (PluginArg.code_ne_bytes sized), if_pos ⟨sized, hfits⟩, List.drop_left' rfl,
      List.take_left' size, size]
  | bytes value counted =>
    show argAt (pre ++ (leBytes 2 value.length ++ value ++ rest)) .bytes pre.length =
      some (.bytes value, pre.length + (leBytes 2 value.length ++ value).length)
    unfold argAt
    rw [if_pos rfl, List.append_assoc, counted_here rfl counted, List.length_append,
      leBytes_length, Nat.add_assoc]
    rfl

/-- An argument that is not there in full is not read. -/
theorem argAt_cut (pre : List UInt8) (a : PluginArg) {n : Nat} (h : n < a.encode.length) :
    argAt (pre ++ a.encode.take n) a.code pre.length = none := by
  have hlength : (pre ++ a.encode.take n).length = pre.length + n := by
    rw [List.length_append, List.length_take, Nat.min_eq_left (Nat.le_of_lt h)]
  unfold argAt
  cases a with
  | fixed code raw size sized =>
    change n < raw.length at h
    show (if code = .bytes then _ else _) = none
    rw [if_neg (PluginArg.code_ne_bytes sized), if_neg]
    rintro ⟨-, hfits⟩
    rw [hlength] at hfits
    change pre.length + fixedSizeOf code ≤ pre.length + n at hfits
    omega
  | bytes value counted =>
    show (if TypeCode.bytes = .bytes then _ else _) = none
    rw [if_pos rfl]
    refine Option.map_eq_none_iff.mpr (if_neg ?_)
    rw [hlength]
    intro hfits
    change n < (leBytes 2 value.length ++ value).length at h
    rw [List.length_append, leBytes_length] at h
    by_cases htwo : n < 2
    · omega
    · -- the length is there, and says more than is left
      obtain ⟨k, rfl⟩ := Nat.exists_eq_add_of_le (Nat.le_of_not_lt htwo)
      have htake : (PluginArg.bytes value counted).encode.take (2 + k) =
          leBytes 2 value.length ++ (value.take k ++ []) := by
        show (leBytes 2 value.length ++ value).take (2 + k) = _
        rw [List.append_nil]
        have hsplit : (leBytes 2 value.length ++ value).take ((leBytes 2 value.length).length + k) =
            leBytes 2 value.length ++ value.take k := List.take_length_add_append k
        rwa [leBytes_length] at hsplit
      have hfield : field (pre ++ (PluginArg.bytes value counted).encode.take (2 + k)) pre.length 2 =
          value.length := by
        rw [htake, field_skip (Nat.le_refl _), Nat.sub_self, field_here]
        exact Nat.mod_eq_of_lt counted
      rw [hfield] at hfits
      omega

/-- A payload that was not cut. -/
theorem argsAt_encode (pre : List UInt8) (args : List PluginArg) :
    argsAt (pre ++ args.flatMap PluginArg.encode) (args.map PluginArg.code) pre.length =
      some (args.map PluginArg.decoded) := by
  induction args generalizing pre with
  | nil => rfl
  | cons a args ih =>
    have hrest := ih (pre ++ a.encode)
    rw [List.length_append, List.append_assoc] at hrest
    rw [List.flatMap_cons, List.map_cons, List.map_cons, argsAt, argAt_encode]
    simp only [hrest, Option.map_some]

/-- **A payload that was cut** ends inside an argument. -/
theorem argsAt_cut (pre : List UInt8) (args : List PluginArg) {n : Nat}
    (h : n < (args.flatMap PluginArg.encode).length) :
    argsAt (pre ++ (args.flatMap PluginArg.encode).take n) (args.map PluginArg.code) pre.length =
      none := by
  induction args generalizing pre n with
  | nil => exact absurd h (Nat.not_lt_zero n)
  | cons a args ih =>
    rw [List.flatMap_cons, List.length_append] at h
    rw [List.flatMap_cons, List.map_cons, argsAt]
    by_cases hfirst : n < a.encode.length
    · rw [List.take_append_of_le_length (Nat.le_of_lt hfirst), argAt_cut pre a hfirst]
    · -- the first argument is complete
      obtain ⟨k, rfl⟩ := Nat.exists_eq_add_of_le (Nat.le_of_not_lt hfirst)
      have hrest := ih (pre ++ a.encode) (n := k) (by omega)
      rw [List.length_append, List.append_assoc] at hrest
      rw [List.take_length_add_append, argAt_encode]
      simp only [hrest, Option.map_none]

/-! ### Messages of the host -/

variable {κ τ : Type} {lg : κ → Logger τ} {t : τ} {k : κ}

/-- What a Message of the host reads as: its payload is its own part and the record's bytes,
its flags say whether those were cut. -/
theorem message_ofCall {r : AbiRecord} {v : RecordView}
    (h : ShowsCall (κ := κ) (lg k) t (.emitRecord (some r)) v) :
    v.head.kind = .message ∧ PassTwo.continued v = false ∧
      ∃ own : MessagePayload, ∀ sites generation, message sites generation v =
        (siteFor sites r.siteId).bind fun site =>
          (argsAt (own.toBytes ++ r.encoded) site.argTypes own.toBytes.length).map fun args =>
            { site, monoNs := own.monoNs, correlationId := own.correlationId,
              ownerThread := v.ownerThread, truncated := r.payloadTruncated, args,
              segmentGeneration := generation, recordOffset := v.recordOffset } := by
  obtain ⟨e, hentry, hshown⟩ := h
  cases hentry with
  | message r monoNs correlationId sequence =>
    have hkind : v.head.kind = .message := by rw [hshown.head]; rfl
    have hflags : v.head.flags = if r.payloadTruncated then cFlagTruncated else 0 := by
      rw [hshown.head]
      rfl
    refine ⟨hkind, ?_, ⟨r.siteId, monoNs, correlationId⟩, fun sites generation => ?_⟩
    · unfold PassTwo.continued
      rw [hflags]
      cases r.payloadTruncated <;> rfl
    · generalize hown : MessagePayload.mk r.siteId monoNs correlationId = own
      have hpayload : v.payload = own.toBytes ++ r.encoded := by
        rw [hshown.payload, ← hown]
        rfl
      have hlength : own.toBytes.length = sizeofMessagePayload := own.toBytes_length
      have hfixed : messageFixed v.payload = own := by
        unfold messageFixed
        rw [hpayload, List.take_left' hlength, MessagePayload.ofBytes_toBytes]
      have hid : own.siteId = r.siteId := by rw [← hown]
      have htruncated : (v.head.flags &&& cFlagTruncated != 0) = r.payloadTruncated := by
        rw [hflags]
        cases r.payloadTruncated <;> rfl
      unfold message
      rw [if_pos (by rw [hpayload, List.length_append, hlength]; exact Nat.le_add_right _ _),
        hfixed, hid, htruncated, hpayload, hlength]
      cases siteFor sites r.siteId <;> rfl

/-- The record of an emit: under its site, and where the payload had to be cut flagged, with
the arguments that were not. -/
structure CutVisibly (recs : List DecodedRecord) (v : RecordView) (r : AbiRecord)
    (site : DecodedSite) (args : List PluginArg) (rec : DecodedRecord) : Prop where
  mem : rec ∈ recs
  offset : rec.recordOffset = v.recordOffset
  site : rec.site = site
  cut : cMaxPayload < r.payloadBytes.toNat → rec.truncated = true ∧
    (PluginArg.complete cMaxPayload args).map PluginArg.decoded <+: rec.args

/-- The record carries these encoded arguments; where there are none its pointer may be null. -/
structure AbiRecord.Carries (r : AbiRecord) (bytes : List UInt8) : Prop where
  payload : r.payload.getD [] = bytes
  length : bytes.length = r.payloadBytes.toNat

/-- Encoded arguments are what is written as long as a head word can say their length. -/
theorem encoded_eq {r : AbiRecord} {bytes : List UInt8} (hcarries : r.Carries bytes)
    (h : r.payloadBytes.toNat ≤ cMaxPayload) : r.encoded = bytes := by
  have hwhole : r.writtenBytes = bytes.length := by
    unfold AbiRecord.writtenBytes AbiRecord.payloadTruncated
    rw [decide_eq_false (Nat.not_lt.mpr h), hcarries.length]
    rfl
  have hbytes := hcarries.payload
  unfold AbiRecord.encoded
  rw [hwhole]
  cases hpayload : r.payload with
  | none =>
    rw [hpayload] at hbytes
    obtain rfl : [] = bytes := hbytes
    rfl
  | some copied =>
    rw [hpayload] at hbytes
    obtain rfl : copied = bytes := hbytes
    exact List.take_length

theorem encoded_cut {r : AbiRecord} {bytes : List UInt8} (hcarries : r.Carries bytes)
    (h : cMaxPayload < r.payloadBytes.toNat) :
    r.encoded = bytes.take cMaxPayload ∧ cMaxPayload < bytes.length := by
  have hlong : cMaxPayload < bytes.length := hcarries.length ▸ h
  have hcut : r.writtenBytes = cMaxPayload := by
    unfold AbiRecord.writtenBytes AbiRecord.payloadTruncated
    rw [decide_eq_true h]
    rfl
  have hbytes := hcarries.payload
  refine ⟨?_, hlong⟩
  unfold AbiRecord.encoded
  rw [hcut]
  cases hpayload : r.payload with
  | none =>
    -- nothing to copy is not too long
    rw [hpayload] at hbytes
    obtain rfl : [] = bytes := hbytes
    exact absurd hlong (Nat.not_lt_zero _)
  | some copied =>
    rw [hpayload] at hbytes
    obtain rfl : copied = bytes := hbytes
    rfl

/-- A Message whose payload is well-formed for the site the reader has for it. -/
theorem cutVisibly_iff {r : SegmentReader} {visited : Visit} {recs : List DecodedRecord}
    {d : Decoder} (hvisit : visit r = .ok visited)
    (hdecode : decodeAll Decoder.fresh r = .ok (recs, d)) {record : AbiRecord} {v : RecordView}
    (hv : v ∈ visited.records)
    (hshown : ShowsCall (κ := κ) (lg k) t (.emitRecord (some record)) v)
    {site : DecodedSite} {args : List PluginArg}
    (hsite : siteFor (definitions visited.records) record.siteId = some site)
    (hcodes : site.argTypes = args.map PluginArg.code)
    (hcarries : record.Carries (args.flatMap PluginArg.encode)) :
    (∃ rec, CutVisibly recs v record site args rec) ↔
      record.payloadBytes.toNat ≤ cMaxPayload := by
  obtain ⟨hkind, hsingle, own, hmessage⟩ := message_ofCall hshown
  obtain ⟨recs', d', hdecode', hreturns⟩ := decodeAll_single hvisit hv hkind hsingle
  obtain ⟨rfl, -⟩ := Prod.mk.inj (Except.ok.inj (hdecode.symm.trans hdecode'))
  have hreads := hmessage (definitions visited.records) r.header.generation
  rw [hsite, Option.bind_some, hcodes] at hreads
  rcases Nat.lt_or_ge cMaxPayload record.payloadBytes.toNat with hlong | hshort
  · -- cut: the last argument that is begun is not read, and nothing is returned
    obtain ⟨hencoded, hlt⟩ := encoded_cut hcarries hlong
    rw [hencoded, argsAt_cut _ _ hlt] at hreads
    refine ⟨?_, fun hle => absurd hlong (Nat.not_lt.mpr hle)⟩
    rintro ⟨rec, hrec⟩
    have hnone := (hreturns rec).mp ⟨hrec.mem, hrec.offset⟩
    rw [hreads] at hnone
    cases hnone
  · rw [encoded_eq hcarries hshort, argsAt_encode] at hreads
    refine ⟨fun _ => hshort, fun _ => ?_⟩
    obtain ⟨hmem, hoffset⟩ := (hreturns _).mpr hreads
    exact ⟨_, hmem, hoffset, rfl, fun hlong => absurd hlong (Nat.not_lt.mpr hshort)⟩

variable [DecidableEq κ] [DecidableEq τ]

/-- **An oversized payload is destroyed**: of the emits that are written, with a payload that
is well-formed for the site the reader has for them, those decode as they should whose payload
the host did not cut. -/
theorem oversized_payload_iff {calls : List (HostCall κ)} (hcalls : ∀ k', .rebind k' ∉ calls)
    {p p' : Pool (ι := HostOp κ) HostOp.Answer τ (HostState κ τ) Unit}
    (hbound : p.shared.Bound lg k) (hprog : p.prog t = thread lg calls)
    (hrun : ReachableBy (sem lg) t p p') (hreturned : p'.prog t = .ret ()) :
    ∃ r visited done recs d,
      openImage (image (lg k).segment (p'.shared.view k).mapped) = .ok r ∧
      visit r = .ok visited ∧ Recorded (lg k) t calls visited.records done ∧
      decodeAll Decoder.fresh r = .ok (recs, d) ∧
      ∀ record v site args, (.emitRecord (some record), v) ∈ done →
        siteFor (definitions visited.records) record.siteId = some site →
        site.argTypes = args.map PluginArg.code →
        record.Carries (args.flatMap PluginArg.encode) →
        ((∃ rec, CutVisibly recs v record site args rec) ↔
          record.payloadBytes.toNat ≤ cMaxPayload) := by
  obtain ⟨r, visited, done, hopen, hvisit, hrecorded⟩ :=
    calls_visit hcalls hbound hprog hrun hreturned
  obtain ⟨visited', d, s, hvisit', -, hdecode, -, -, -⟩ := decodeAll_run r
  obtain rfl : visited' = visited := Except.ok.inj (hvisit'.symm.trans hvisit)
  refine ⟨r, visited', done, _, _, hopen, hvisit, hrecorded, hdecode, ?_⟩
  intro record v site args hdone hsite hcodes hcarries
  refine cutVisibly_iff hvisit hdecode ?_ (hrecorded.shown _ hdone) hsite hcodes hcarries
  rw [← hrecorded.records]
  exact List.mem_map_of_mem hdone

/-- A plugin defines a site without arguments and emits one record. -/
def plainCalls : List (HostCall Unit) :=
  [.defineSite (plainDefinition 1 111), .emitRecord (some (plainRecord 1))]

/-- The host that is to answer the calls. -/
def plainHost : Unit → Logger Unit := smallHost Unit 2 fun _ => 5

def plainPool : Pool (ι := HostOp Unit) HostOp.Answer Unit (HostState Unit Unit) Unit :=
  ⟨smallStart Unit 2, fun _ => thread plainHost plainCalls⟩

theorem plainPool_bound : plainPool.shared.Bound plainHost () :=
  smallStart_bound (by decide) fun _ => 5

theorem oversized_payload_iff_plain :
    ∃ r visited done recs d,
      openImage (image (plainHost ()).segment
        ((runThread plainHost () plainPool).shared.view ()).mapped) = .ok r ∧
      visit r = .ok visited ∧ Recorded (plainHost ()) () plainCalls visited.records done ∧
      decodeAll Decoder.fresh r = .ok (recs, d) ∧
      ∀ record v site args, (.emitRecord (some record), v) ∈ done →
        siteFor (definitions visited.records) record.siteId = some site →
        site.argTypes = args.map PluginArg.code →
        record.Carries (args.flatMap PluginArg.encode) →
        ((∃ rec, CutVisibly recs v record site args rec) ↔
          record.payloadBytes.toNat ≤ cMaxPayload) :=
  oversized_payload_iff (fun k' hmem => by simp [plainCalls] at hmem)
    plainPool_bound rfl (runThread_reachable plainHost () plainPool)
    (show Function.update plainPool.prog () (.ret ()) () = .ret () from Function.update_self _ _ _)

/-! ### One argument that is too long -/

/-- Storage for the header area and one chunk of 128 KiB. -/
def wideStorage : Storage where
  address := 8
  size := 192 + 131072
  size_le := by omega
  contents := fun _ => 0

def wideSegment : Segment × Mem :=
  Segment.initialise stillPlatform (Mem.store (fun _ => 0) 0 (List.replicate (192 + 131072) 0))
    (192 + 131072) (by omega) cCompactSegmentHeaderBytes 131072

theorem wideSegment_created :
    Segment.createInMemory stillPlatform wideStorage ⟨0, 131072⟩ = .ok wideSegment := by
  have hroom : ¬wideStorage.size < cCompactSegmentHeaderBytes + (131072 : UInt32).toNat := by
    decide
  have haligned : ¬(wideStorage.address = 0 ∨ wideStorage.address % cRecordAlign ≠ 0) := by decide
  unfold Segment.createInMemory
  rw [if_neg (by decide), if_neg haligned, if_neg hroom]
  rfl

def wideHost : Unit → Logger Unit := fun _ =>
  { smallLogger 1 plainSite with segment := wideSegment.1 }

def wideStart : HostState Unit Unit :=
  { smallStart Unit 1 with
    logs := fun _ => ⟨wideSegment.2, 0, fun _ => 0, fun _ => ⟨0, 0, ChunkWriter.none⟩, 0, 0, []⟩ }

theorem wideStart_bound : wideStart.Bound wideHost () := by
  refine ⟨rfl, wideSegment.2, .memory _ _ _ wideSegment_created, ?_, ?_⟩
  · obtain ⟨header, hfresh⟩ := Segment.createInMemory_fresh wideSegment_created
    exact ⟨_, openImage_image (Segment.createInMemory_sound wideSegment_created)
      hfresh.toHeaded⟩
  · exact ⟨rfl, rfl, fun _ => show (0 : UInt64) ≠ 3 by decide,
      fun _ howner => absurd howner (show (0 : Nat) ≠ 8 by decide), rfl, rfl, rfl⟩

/-- A definition with one argument of counted bytes. -/
def bytesDefinition : SiteDefinition where
  siteId := 1
  subsystem := 0
  severity := 2
  format := [111]
  file := []
  line := 1
  typeCodes := [13]
  typeCodes_le := by decide
  payload_lt := by
    show definitionPayloadBytes 1 1 0 < 2 ^ 32
    decide

/-- The argument is 65510 bytes, its encoding one more than a Message of the host takes. -/
def longArg : PluginArg := .bytes (List.replicate 65510 0) (by
  rw [List.length_replicate]
  decide)

theorem longArg_length : longArg.encode.length = 65512 := by
  show (leBytes 2 _ ++ List.replicate 65510 0).length = 65512
  rw [List.length_append, leBytes_length, List.length_replicate]

def longRecord : AbiRecord where
  siteId := 1
  subsystem := 0
  severity := 2
  payload := some longArg.encode
  payloadBytes := 65512
  payload_length := fun bytes h => by
    obtain rfl := Option.some.inj h
    rw [longArg_length]
    rfl

theorem longRecord_carries : longRecord.Carries ([longArg].flatMap PluginArg.encode) := by
  have hone : [longArg].flatMap PluginArg.encode = longArg.encode := List.append_nil _
  rw [hone]
  exact ⟨rfl, longArg_length⟩

def longCalls : List (HostCall Unit) :=
  [.defineSite bytesDefinition, .emitRecord (some longRecord)]

def longPool : Pool (ι := HostOp Unit) HostOp.Answer Unit (HostState Unit Unit) Unit :=
  ⟨wideStart, fun _ => thread wideHost longCalls⟩

/-- The two calls, and the second one's operations up to its reservation, each with its answer
and the state behind it. -/
def longDefined : Unit × HostState Unit Unit :=
  (call wideHost (.defineSite bytesDefinition)).exec (answer wideHost ()) wideStart

def longEmitted : Unit × HostState Unit Unit :=
  (call wideHost (.emitRecord (some longRecord))).exec (answer wideHost ()) longDefined.2

def longActive : Option Unit × HostState Unit Unit :=
  loadActive.exec (answer wideHost ()) longDefined.2

def longThreshold : UInt8 × HostState Unit Unit :=
  (loadThreshold () longRecord.subsystem).exec (answer wideHost ()) longActive.2

def longGeneration : UInt64 × HostState Unit Unit :=
  (SiteAnnounceTable.generationFor longRecord.siteId).exec (answer wideHost ()) longThreshold.2

def longSlot : Option Reservation × HostState Unit Unit :=
  (onLogger () ((wideHost ()).reserveRecord (sizeofMessagePayload + longRecord.writtenBytes)
    none)).exec (answer wideHost ()) longGeneration.2

theorem runThread_longPool : (runThread wideHost () longPool).shared = longEmitted.2 :=
  runThread_pair wideHost () (.defineSite bytesDefinition) (.emitRecord (some longRecord)) wideStart

/-- The definition was written. -/
theorem longDefined_sequence (hs : (wideHost ()).segment.Sound) {header : SegmentHeader}
    (hstart : HostSequence wideHost header () () [] wideStart) :
    ∃ e, EntryOf (wideHost ()).segment.capacity (.defineSite bytesDefinition : HostCall Unit) e ∧
      HostSequence wideHost header () () [e] longDefined.2 := by
  have hwrote : Wrote wideHost header () () [] (.defineSite bytesDefinition) longDefined.2 :=
    (call_writes (c := .defineSite bytesDefinition) hs hstart fun k' h => by cases h).exec
      (sem_answer wideHost ())
  rcases hwrote with ⟨⟨chunks, hnil, -, hend⟩, -⟩ | hwritten
  · -- the thread has a writer, which has moved
    exfalso
    have howned : Owned (wideHost ()) () (longDefined.2.view ()) := by
      unfold Owned
      decide +kernel
    have hmoved : ((longDefined.2.view ()).caches ()).writer.valid = true ∧
        ((longDefined.2.view ()).caches ()).writer.offset ≠ 0 := by
      decide +kernel
    obtain ⟨before, last, rfl, hwriter⟩ := hend howned hmoved.1
    have hlast : last = [] := by
      rw [List.flatten_append, List.flatten_singleton] at hnil
      exact (List.append_eq_nil_iff.mp hnil).2
    refine hmoved.2 ?_
    rw [hwriter, hlast]
    rfl
  · exact hwritten

/-- So was the Message. -/
theorem longEmitted_sequence (hs : (wideHost ()).segment.Sound) {header : SegmentHeader}
    {es : List Entry} (h : HostSequence wideHost header () () es longDefined.2) :
    ∃ e, EntryOf (wideHost ()).segment.capacity (.emitRecord (some longRecord) : HostCall Unit) e ∧
      HostSequence wideHost header () () (es ++ [e]) longEmitted.2 := by
  have hactive : longActive.1 = some () := by decide +kernel
  have hthreshold : ¬longRecord.severity < longThreshold.1 := by decide +kernel
  have hgeneration : longGeneration.1 = (wideHost ()).segment.generation := by decide +kernel
  have hroom : longSlot.1.isSome = true := by decide +kernel
  have h₁ : HostSequence wideHost header () () es longActive.2 :=
    ((sequence_loadActive h).exec (sem_answer wideHost ())).2
  have h₂ : HostSequence wideHost header () () es longThreshold.2 :=
    (sequence_loadThreshold h₁ _).exec (sem_answer wideHost ())
  have h₃ : HostSequence wideHost header () () es longGeneration.2 :=
    h₂.kept ((alone_generationFrom (k := ()) _ _ _ _).exec (sem_answer wideHost ()))
  obtain ⟨slot, hslot⟩ := Option.isSome_iff_exists.mp hroom
  have hreserve := sequence_reserveRecord hs h₃.1 (sizeofMessagePayload + longRecord.writtenBytes)
    none
  have halone : Prog.Alone (sem wideHost) () (onLogger () _) _ longGeneration.2 :=
    alone_onLogger hreserve
  obtain ⟨hreserved, hactive₄⟩ := halone.exec (sem_answer wideHost ())
  change longSlot.2.active = _ at hactive₄
  have hreservation : (onLogger () ((wideHost ()).reserveRecord
      (sizeofMessagePayload + longRecord.writtenBytes) none)).exec (answer wideHost ())
        longGeneration.2 = longSlot := rfl
  simp only [hreservation, hslot] at hreserved
  obtain ⟨monoNs, correlationId, sequence, hwritten⟩ :=
    (sequence_storeMessage hs hreserved (hactive₄.trans h₃.2)).exec (sem_answer wideHost ())
  have hsteps : longEmitted = (storeMessage wideHost () longRecord slot).exec (answer wideHost ())
      longSlot.2 := by
    have hloaded : loadActive.exec (answer wideHost ()) longDefined.2 = longActive := rfl
    have hcompared : (loadThreshold () longRecord.subsystem).exec (answer wideHost ())
        longActive.2 = longThreshold := rfl
    have hprobed : (SiteAnnounceTable.generationFor longRecord.siteId).exec (answer wideHost ())
        longThreshold.2 = longGeneration := rfl
    unfold longEmitted call emitRecord
    simp only [exec_bind, hloaded, hactive, hcompared, if_neg hthreshold, hprobed, hgeneration,
      ne_eq, not_true_eq_false, if_false, hreservation, hslot]
  rw [hsteps]
  exact ⟨_, .message longRecord monoNs correlationId sequence, hwritten⟩

/-- The segment holds both records. -/
theorem longPool_visit {r : SegmentReader} {visited : Visit}
    (hopen : openImage (image (wideHost ()).segment
      ((runThread wideHost () longPool).shared.view ()).mapped) = .ok r)
    (hvisit : visit r = .ok visited) : visited.records.length = 2 := by
  obtain ⟨mem, hcreates, ⟨r₀, hopens⟩, huntouched⟩ := wideStart_bound.launched
  have hs := hcreates.sound hopens
  obtain ⟨header, hfresh⟩ := hcreates.fresh
  have hstart : HostSequence wideHost header () () [] wideStart :=
    ⟨sequence_untouched hs hfresh huntouched, rfl⟩
  obtain ⟨e, -, hdefined⟩ := longDefined_sequence hs hstart
  obtain ⟨e', -, hemitted, -⟩ := longEmitted_sequence hs hdefined
  obtain ⟨r', visited', hopen', hvisit', hshown⟩ := hemitted.visit hs
  rw [runThread_longPool] at hopen
  obtain rfl : r' = r := Except.ok.inj (hopen'.symm.trans hopen)
  obtain rfl : visited' = visited := Except.ok.inj (hvisit'.symm.trans hvisit)
  exact hshown.length_eq.symm

/-- The record is written, its payload cut by one byte, and no record is decoded. -/
theorem oversized_payload_lost :
    ¬ ∀ (calls : List (HostCall Unit)), (∀ k', .rebind k' ∉ calls) →
      ∀ (p p' : Pool (ι := HostOp Unit) HostOp.Answer Unit (HostState Unit Unit) Unit),
      p.shared.Bound wideHost () → p.prog () = thread wideHost calls →
      ReachableBy (sem wideHost) () p p' → p'.prog () = .ret () →
      ∃ r visited done recs d,
        openImage (image (wideHost ()).segment (p'.shared.view ()).mapped) = .ok r ∧
        visit r = .ok visited ∧ Recorded (wideHost ()) () calls visited.records done ∧
        decodeAll Decoder.fresh r = .ok (recs, d) ∧
        ∀ record v site args, (.emitRecord (some record), v) ∈ done →
          siteFor (definitions visited.records) record.siteId = some site →
          site.argTypes = args.map PluginArg.code →
          record.Carries (args.flatMap PluginArg.encode) →
          ∃ rec, CutVisibly recs v record site args rec := by
  intro hall
  obtain ⟨r, visited, done, recs, d, hopen, hvisit, hrecorded, hdecode, hcut⟩ :=
    hall longCalls (fun k' hmem => by simp [longCalls] at hmem) longPool
      (runThread wideHost () longPool) wideStart_bound rfl
      (runThread_reachable wideHost () longPool)
      (show Function.update longPool.prog () (.ret ()) () = .ret () from
        Function.update_self _ _ _)
  have hcalls : done.map Prod.fst = longCalls := by
    refine hrecorded.calls.eq_of_length ?_
    rw [List.length_map, ← List.length_map (f := Prod.snd), hrecorded.records,
      longPool_visit hopen hvisit]
    rfl
  obtain ⟨⟨c₁, v₁⟩, done₁, rfl, rfl, hone⟩ := List.map_eq_cons_iff.mp hcalls
  obtain ⟨⟨c₂, v₂⟩, done₂, rfl, rfl, hnone⟩ := List.map_eq_cons_iff.mp hone
  obtain rfl := List.map_eq_nil_iff.mp hnone
  -- the site the reader has
  have hsite : siteFor (definitions visited.records) longRecord.siteId =
      some (keptSite (wideHost ()).segment.capacity bytesDefinition) := by
    rw [hrecorded.definitions]
    show siteFor [keptSite (wideHost ()).segment.capacity bytesDefinition] 1 = _
    rw [siteFor_single]
    rfl
  have hv : v₂ ∈ visited.records := by
    rw [← hrecorded.records]
    simp
  have hshown := hrecorded.shown (.emitRecord (some longRecord), v₂) (by simp)
  have hdecoded := hcut longRecord v₂ _ [longArg] (by simp) hsite rfl longRecord_carries
  have hshort := (cutVisibly_iff hvisit hdecode hv hshown hsite rfl longRecord_carries).mp hdecoded
  revert hshort
  decide

end Sub0Log.Abi
