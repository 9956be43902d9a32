import Sub0Log.Producer.Machine

/-!
# The producer's code

The functions of `chunk.hpp`, `segment.hpp`, `instance.hpp` and `detail/emit.hpp` that run
when a thread logs, as programs over the operations of the machine. A pointer to the
calling thread's writer is a `Bool`: it is null or it is the cache's.

What the bytes of a payload are is worked out before they are copied; the source stores
them field by field, which is one of the orders `copyBytes` allows.
-/

open Bytes Interleaving

namespace Sub0Log.Producer

open Wire

/-- The code of one thread. -/
abbrev Code (α : Type) : Type := Prog Op.Answer α

/-! ### The operations as code -/

def loadKey (site : UInt64) : Code UInt64 := Prog.perform (Op.loadKey site)
def storeKey (site key : UInt64) : Code Unit := Prog.perform (Op.storeKey site key)
def claimIndex : Code Nat := Prog.perform Op.claimChunkIndex
def currentThreadId : Code UInt64 := Prog.perform Op.currentThreadId
def monotonicNow : Code UInt64 := Prog.perform Op.monotonicNow
def loadCache : Code WriterCache := Prog.perform Op.loadCache
def storeCache (cache : WriterCache) : Code Unit := Prog.perform (Op.storeCache cache)
def copyOrder (n : Nat) : Code (List Nat) := Prog.perform (Op.copyOrder n)
def storeByte (address : Nat) (byte : UInt8) : Code Unit :=
  Prog.perform (Op.storeByte address byte)
def store64 (address word : Nat) (publishes : Option Written) : Code Unit :=
  Prog.perform (Op.store64 address word publishes)
def storeLow32 (address half : Nat) : Code Unit := Prog.perform (Op.storeLow32 address half)
def storeHigh32 (address half : Nat) (publishes : Option Written) : Code Unit :=
  Prog.perform (Op.storeHigh32 address half publishes)
def countDrop (emit : Option Emit) : Code Unit := Prog.perform (Op.countDrop emit)
def countTruncation : Code Unit := Prog.perform Op.countTruncation

/-! ### Copies -/

/-- The bytes of a copy that are still to be stored. -/
def storeBytes (address : Nat) (bytes : List UInt8) : List Nat → Code Unit
  | [] => pure ()
  | i :: rest => do
    storeByte (address + i) (bytes.getD i 0)
    storeBytes address bytes rest

/-- A copy: every byte is stored once, in any order. -/
def copyBytes (address : Nat) (bytes : List UInt8) : Code Unit := do
  let order ← copyOrder bytes.length
  storeBytes address bytes order

namespace Logger

variable {τ : Type} (lg : Logger τ)

/-! ### Chunks -/

/-- `Segment::claimChunk`. -/
def claimChunk : Code ChunkWriter := do
  let index ← claimIndex
  if lg.segment.chunkCount ≤ index then
    pure ChunkWriter.none
  else do
    let ownerThread ← currentThreadId
    let claimMonoNs ← monotonicNow
    copyBytes (lg.segment.chunkBase index)
      (lg.segment.chunkHeader ownerThread claimMonoNs).toBytes
    pure ⟨lg.segment.bodyBase index, lg.segment.capacity, 0, 0⟩

/-- `Logger::refillWriter`. -/
def refillWriter : Code Bool := do
  let writer ← lg.claimChunk
  storeCache ⟨lg.address, lg.segment.generation, writer⟩
  pure writer.valid

/-- `Logger::currentWriter`. -/
def currentWriter : Code Bool := do
  let cache ← loadCache
  if cache.owner ≠ lg.address ∨ cache.generation ≠ lg.segment.generation then
    lg.refillWriter
  else
    pure cache.writer.valid

end Logger

/-- `writer->remaining()`. -/
def remaining : Code Nat := do
  let cache ← loadCache
  pure cache.writer.remaining

/-- `writer->reserve(payloadBytes)`. -/
def reserve (payloadBytes : Nat) : Code (Option Reservation) := do
  let cache ← loadCache
  match cache.writer.reserve payloadBytes with
  | none => pure none
  | some (slot, writer) => do
    storeCache { cache with writer := writer }
    pure (some slot)

/-- A reservation from a writer that may be null. -/
def tryReserve (writer : Bool) (payloadBytes : Nat) : Code (Option Reservation) :=
  if writer then reserve payloadBytes else pure none

namespace Logger

variable {τ : Type} (lg : Logger τ)

/-- `detail::storeHeadWord`. -/
def storeHeadWord (address word : Nat) (publishes : Option Written) : Code Unit :=
  if lg.split then do
    storeLow32 address (word % 2 ^ 32)
    storeHigh32 address (word / 2 ^ 32) publishes
  else
    store64 address word publishes

/-- `ChunkWriter::commit`; the payload's length is that of the record. -/
def commit (slot : Reservation) (kind : RecordKind) (flags : UInt8) (payloadBytes : Nat)
    (publishes : Option Written) : Code Unit :=
  lg.storeHeadWord slot.headWord
    (RecordHead.mk (UInt16.ofNat payloadBytes) kind flags slot.sequence).pack publishes

/-- `reserveRecord`. -/
def reserveRecord (payloadBytes : Nat) (onDrop : Option Emit) : Code (Option Reservation) := do
  let writer ← lg.currentWriter
  let slot ← tryReserve writer payloadBytes
  match slot with
  | some slot => pure (some slot)
  | none => do
    let writer ← lg.refillWriter
    let slot ← tryReserve writer payloadBytes
    match slot with
    | some slot => pure (some slot)
    | none => do
      countDrop onDrop
      pure none

/-- `if (truncated) logger.countTruncation()`. -/
def countTruncationIf (truncated : Bool) : Code Unit :=
  if truncated then countTruncation else pure ()

/-! ### Definitions -/

/-- The part of `writeSiteDefinitionCore` behind its reservation. -/
def storeDefinition (d : SiteDefinition) (slot : Reservation) (lengths : Nat × Nat × Bool) :
    Code Bool := do
  let payload := d.payload lengths.1 lengths.2.1
  copyBytes (slot.headWord + 8) payload
  lg.commit slot .siteDefinition (if lengths.2.2 then cFlagTruncated else 0) payload.length
    (some (.definition d))
  countTruncationIf lengths.2.2
  pure true

/-- `writeSiteDefinitionCore`. -/
def writeSiteDefinitionCore (d : SiteDefinition) (onDrop : Option Emit) : Code Bool := do
  let whole := (d.format.length, d.file.length, false)
  let writer ← lg.currentWriter
  let slot ← tryReserve writer d.wholeBytes
  match slot with
  | some slot => lg.storeDefinition d slot whole
  | none => do
    let writer ← lg.refillWriter
    if writer = false then do
      countDrop onDrop
      pure false
    else do
      let slot ← reserve d.wholeBytes
      match slot with
      | some slot => lg.storeDefinition d slot whole
      | none => do
        -- not even an empty chunk takes it: the two strings are cut
        let emptyRemaining ← remaining
        let lengths := d.cutLengths emptyRemaining
        let slot ← reserve
          (definitionPayloadBytes d.typeCodes.length lengths.1 lengths.2.1)
        match slot with
        | some slot => lg.storeDefinition d slot lengths
        | none => do
          countDrop onDrop
          pure false

/-- `writeSubsystemDefinition`. -/
def writeSubsystemDefinition (id : UInt32) (name : List UInt8) : Code Bool := do
  let truncated := decide (cInlineBytesCap < name.length)
  let payload := subsystemPayload id (name.take cInlineBytesCap)
  let slot ← lg.reserveRecord payload.length none
  match slot with
  | none => pure false
  | some slot => do
    copyBytes (slot.headWord + 8) payload
    lg.commit slot .subsystemDefinition (if truncated then cFlagTruncated else 0)
      payload.length (some (.subsystem id name))
    countTruncationIf truncated
    pure true

end Logger

/-! ### Messages -/

/-- The second loop of `reserveChain`; `count` slots are reserved already. -/
def reserveSlots (maxSlots : Nat) : (count : Nat) → List ContinuationSlot →
    Code (Option (List Reservation))
  | _, [] => pure (some [])
  | count, slot :: rest => do
    let reservation ← reserve (continuationPayloadBytes slot)
    match reservation with
    | none => pure none
    | some reservation =>
      if maxSlots ≤ count then pure none
      else do
        let others ← reserveSlots maxSlots (count + 1) rest
        pure (others.map (reservation :: ·))

/-- `reserveChain`: the Message's reservation and those of its Continuations. -/
def reserveChain (args : List Arg) : Code (Option (Reservation × List Reservation)) := do
  let left ← remaining
  if left < chainBytes args then
    pure none
  else do
    let message ← reserve (messagePayloadBytes args)
    match message with
    | none => pure none
    | some message => do
      let others ← reserveSlots (args.length * cMaxContinuations) 0 (contSlots args)
      pure (others.map (message, ·))

/-- `reserveChain` from a writer that may be null. -/
def tryReserveChain (writer : Bool) (args : List Arg) :
    Code (Option (Reservation × List Reservation)) :=
  if writer then reserveChain args else pure none

/-- The payloads of the Continuations are copied. -/
def storeContinuations (siteId : UInt64) : List (Reservation × ContinuationSlot) → Code Unit
  | [] => pure ()
  | (reservation, slot) :: rest => do
    copyBytes (reservation.headWord + 8) (slot.payload siteId)
    storeContinuations siteId rest

namespace Logger

variable {τ : Type} (lg : Logger τ)

/-- The Continuations are committed, in order. -/
def commitContinuations : List (Reservation × ContinuationSlot) → Code Unit
  | [] => pure ()
  | (reservation, slot) :: rest => do
    lg.commit reservation .continuation (if rest = [] then 0 else cFlagContinued)
      (continuationPayloadBytes slot) none
    commitContinuations rest

/-- The part of `emitChained` behind its reservations. -/
def storeChain (e : Emit) (message : Reservation)
    (conts : List (Reservation × ContinuationSlot)) (anyTruncated : Bool) : Code Unit := do
  let monoNs ← monotonicNow
  let emission := Emission.mk e.site monoNs (lg.correlation e.correlation) e.args
  copyBytes (message.headWord + 8) emission.payload
  storeContinuations e.site conts
  -- every Continuation becomes visible before the Message that promises it
  lg.commitContinuations conts
  lg.commit message .message
    (Emission.messageFlags anyTruncated (decide (conts ≠ [])))
    (messagePayloadBytes e.args) (some (.message emission))
  countTruncationIf anyTruncated

/-- `emitChained`. -/
def emitChained (e : Emit) : Code Unit := do
  let overCeiling := e.args.any fun a => a.isBytes && a.overCeiling
  let writer ← lg.currentWriter
  let reserved ← tryReserveChain writer e.args
  match reserved with
  | some (message, others) =>
    lg.storeChain e message (others.zip (contSlots e.args)) overCeiling
  | none => do
    let writer ← lg.refillWriter
    let reserved ← tryReserveChain writer e.args
    match reserved with
    | some (message, others) =>
      lg.storeChain e message (others.zip (contSlots e.args)) overCeiling
    | none =>
      if writer = false then
        countDrop (some e)
      else do
        -- not even an empty chunk holds the chain: the Message alone, cut
        let message ← reserve (messagePayloadBytes e.args)
        match message with
        | none => countDrop (some e)
        | some message => lg.storeChain e message [] true

/-- The path of `emitRecord` for a pack without a Bytes argument. -/
def emitFixed (e : Emit) : Code Unit := do
  let payloadBytes := sizeofMessagePayload + upperBoundSize e.args
  let slot ← lg.reserveRecord payloadBytes (some e)
  match slot with
  | none => pure ()
  | some slot => do
    let monoNs ← monotonicNow
    let emission := Emission.mk e.site monoNs (lg.correlation e.correlation) e.args
    let encoded := encodeArgs (payloadBytes - sizeofMessagePayload) e.args
    let payload := (MessagePayload.mk emission.siteId emission.monoNs
      emission.correlationId).toBytes ++ encoded.bytes
    copyBytes (slot.headWord + 8) payload
    lg.commit slot .message (if encoded.truncated then cFlagTruncated else 0) payload.length
      (some (.message emission))
    countTruncationIf encoded.truncated

/-- The part of `emitRecord` behind the site's announcement. -/
def emitMessage (e : Emit) : Code Unit :=
  if cHasByteArg e.args then lg.emitChained e else lg.emitFixed e

/-- `emitRecord`, a Logger being bound. -/
def emitRecord (e : Emit) : Code Unit := do
  let key ← loadKey e.site
  if key ≠ lg.segment.announceKey then do
    let announced ← lg.writeSiteDefinitionCore ((lg.sites e.site).definition e.site) (some e)
    if announced then do
      storeKey e.site lg.segment.announceKey
      lg.emitMessage e
    else
      pure ()
  else
    lg.emitMessage e

/-! ### Threads -/

/-- One call. -/
def call : Call lg → Code Unit
  | .emit e _ => lg.emitRecord e
  | .declareSubsystem id name => do
    let _ ← lg.writeSubsystemDefinition id name
    pure ()
  | .defineSite d => do
    let _ ← lg.writeSiteDefinitionCore d none
    pure ()

/-- A thread's calls, one after another. -/
def thread : List (Call lg) → Code Unit
  | [] => pure ()
  | c :: calls => do
    lg.call c
    thread calls

end Logger

end Sub0Log.Producer
