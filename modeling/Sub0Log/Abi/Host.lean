import Sub0Log.Producer.Program
import Sub0Log.Producer.Unbound

/-!
# The host side of the plugin ABI

`abi_host.hpp`: plugins define their sites and emit records through a table of functions,
and the host writes them into the segment of whichever Logger is bound. What the host
remembers of the definitions is `SiteAnnounceTable`, for each site the generation of the
segment that was last told of it.

The host runs the producer's code on one of several Loggers, so its shared state has one
producer state a Logger and what they have in common: the threads' writer caches, the
bound Logger, the table. Other loads of the host are of the present value; a relaxed load
of a slot's generation may answer any that was ever stored there (`HostOp.loadGeneration`).
-/

open Bytes Interleaving

namespace Sub0Log.Abi

open Wire Producer

variable {κ τ : Type}

/-! ### What plugins pass -/

/-- `Sub0LogAbiRecord`; the pointer to the payload may be null. -/
structure AbiRecord where
  siteId : UInt64
  subsystem : UInt32
  severity : UInt8
  payload : Option (List UInt8)
  payloadBytes : UInt32
  payload_length : ∀ bytes, payload = some bytes → bytes.length = payloadBytes.toNat

/-- A Message as the host writes it. -/
structure Message where
  siteId : UInt64
  monoNs : UInt64
  correlationId : UInt64
  encoded : List UInt8
  truncated : Bool

/-- `cMaxPayload`: what the head word's length leaves for the encoded arguments. -/
def cMaxPayload : Nat := 0xFFFF - sizeofMessagePayload

namespace AbiRecord

variable (r : AbiRecord)

def payloadTruncated : Bool := decide (cMaxPayload < r.payloadBytes.toNat)

/-- The bytes of the payload that are written. -/
def writtenBytes : Nat := if r.payloadTruncated then cMaxPayload else r.payloadBytes.toNat

/-- What lies behind the Message's own payload: the record's, cut, or the zeros of the chunk
when its pointer is null. -/
def encoded : List UInt8 :=
  match r.payload with
  | some bytes => bytes.take r.writtenBytes
  | none => List.replicate r.writtenBytes 0

end AbiRecord

/-! ### The state -/

/-- What happened. -/
inductive HostEvent (κ τ : Type)
  /-- A function of the table found this Logger bound. -/
  | active (thread : τ) (found : Option κ)
  /-- A threshold was compared with. -/
  | threshold (thread : τ) (logger : κ) (value : UInt8)
  /-- An event of a Logger's producer. -/
  | logged (logger : κ) (e : Event τ)
  /-- The head word of a Message was stored. -/
  | message (thread : τ) (logger : κ) (m : Message)

def HostEvent.thread : HostEvent κ τ → τ
  | active t _ | threshold t _ _ | message t _ _ => t
  | logged _ e => e.thread

/-- `logs` without their caches: those are thread-local, for all Loggers. `generations` are
those stored in a slot so far, the last one last. -/
structure HostState (κ τ : Type) where
  logs : κ → State τ
  caches : τ → WriterCache
  active : Option κ
  siteIds : UInt64 → UInt64
  generations : UInt64 → List UInt64
  siteTableExhausted : UInt64
  unboundEmits : UInt64
  trace : List (HostEvent κ τ)

/-- The state of one Logger's producer. -/
def HostState.view (s : HostState κ τ) (k : κ) : State τ := { s.logs k with caches := s.caches }

/-! ### The operations -/

inductive HostOp (κ : Type)
  /-- An operation of the producer's code on a Logger. -/
  | logger (k : κ) (op : Op)
  /-- The same; the operation is the store that makes `m` visible. -/
  | publish (k : κ) (op : Op) (m : Message)
  /-- `Logger::active`, and what binding and unbinding store. -/
  | loadActive
  | storeActive (k : Option κ)
  /-- `Logger::threshold`, which may be set at any time. -/
  | loadThreshold (k : κ) (subsystem : UInt32)
  /-- `currentCorrelation` of the calling thread. -/
  | currentCorrelation
  | loadSiteId (slot : UInt64)
  /-- The compare-exchange of a slot's site id with zero; the answer is what was found. -/
  | claimSiteId (slot siteId : UInt64)
  | loadGeneration (slot : UInt64)
  | storeGeneration (slot generation : UInt64)
  | countExhausted
  /-- The two steps of `countUnboundEmit`. -/
  | loadUnbound
  | incrementUnbound

def HostOp.Answer : HostOp κ → Type
  | logger _ op => op.Answer
  | publish _ op _ => op.Answer
  | loadActive => Option κ
  | loadThreshold _ _ => UInt8
  | currentCorrelation | loadSiteId _ | claimSiteId _ _ | loadGeneration _ | loadUnbound => UInt64
  | storeActive _ | storeGeneration _ _ | countExhausted | incrementUnbound => Unit

/-- Every operation of the producer has some answer. -/
theorem Op.answerable (op : Op) : Nonempty op.Answer := by
  cases op with
  | loadKey | currentThreadId | monotonicNow => exact ⟨(0 : UInt64)⟩
  | claimChunkIndex => exact ⟨(0 : Nat)⟩
  | loadCache => exact ⟨(⟨0, 0, ChunkWriter.none⟩ : WriterCache)⟩
  | copyOrder => exact ⟨([] : List Nat)⟩
  | _ => exact ⟨()⟩

theorem HostOp.answerable (op : HostOp κ) : Nonempty op.Answer := by
  cases op with
  | logger k op | publish k op => exact Op.answerable op
  | loadActive => exact ⟨(none : Option κ)⟩
  | loadThreshold => exact ⟨(0 : UInt8)⟩
  | currentCorrelation | loadSiteId | claimSiteId | loadGeneration | loadUnbound =>
    exact ⟨(0 : UInt64)⟩
  | storeActive | storeGeneration | countExhausted | incrementUnbound => exact ⟨()⟩

/-- The compare-exchange of a slot's site id, which was zero when it succeeds. -/
def HostState.claimSiteId (s : HostState κ τ) (slot siteId : UInt64) : UInt64 × HostState κ τ :=
  if s.siteIds slot = 0 then
    (0, { s with siteIds := Function.update s.siteIds slot siteId })
  else (s.siteIds slot, s)

section Semantics

variable [DecidableEq κ] [DecidableEq τ]

/-- An operation on Logger `k` takes `s` to `s'`; what the producer notes goes into the trace. -/
def OnLogger (lg : κ → Logger τ) (t : τ) (k : κ) (op : Op) (s : HostState κ τ) (answer : op.Answer)
    (after : List (HostEvent κ τ)) (s' : HostState κ τ) : Prop :=
  ∃ v new, Producer.sem (lg k) t op (s.view k) answer v ∧ v.trace = (s.logs k).trace ++ new ∧
    s' = { s with
      logs := Function.update s.logs k v
      caches := v.caches
      trace := s.trace ++ new.map (.logged k) ++ after }

/-- What each operation may answer and do. -/
def sem (lg : κ → Logger τ) : Sem (ι := HostOp κ) HostOp.Answer τ (HostState κ τ) := fun t op s answer s' =>
  match op, answer with
  | .logger k op, answer => OnLogger lg t k op s answer [] s'
  | .publish k op m, answer => OnLogger lg t k op s answer [.message t k m] s'
  | .loadActive, found => found = s.active ∧ s' = { s with trace := s.trace ++ [.active t found] }
  | .storeActive k, _ => s' = { s with active := k }
  | .loadThreshold k _, value => s' = { s with trace := s.trace ++ [.threshold t k value] }
  | .currentCorrelation, _ => s' = s
  | .loadSiteId slot, key => key = s.siteIds slot ∧ s' = s
  | .claimSiteId slot siteId, found => (found, s') = s.claimSiteId slot siteId
  | .loadGeneration slot, generation => generation ∈ (0 : UInt64) :: s.generations slot ∧ s' = s
  | .storeGeneration slot generation, _ => s' = { s with
      generations := Function.update s.generations slot (s.generations slot ++ [generation]) }
  | .countExhausted, _ => s' = { s with siteTableExhausted := s.siteTableExhausted + 1 }
  | .loadUnbound, count => count = s.unboundEmits ∧ s' = s
  | .incrementUnbound, _ => s' = { s with unboundEmits := s.unboundEmits + 1 }

end Semantics

/-! ### The code -/

/-- The code of one thread of the host. -/
abbrev HostCode (κ α : Type) : Type := Prog (ι := HostOp κ) HostOp.Answer α

/-- Code of the producer, on Logger `k`. -/
def onLogger {α : Type} (k : κ) : Code α → HostCode κ α
  | .ret a => .ret a
  | .op i next => .op (.logger k i) fun r => onLogger k (next r)

def loadActive : HostCode κ (Option κ) := Prog.perform HostOp.loadActive
def storeActive (k : Option κ) : HostCode κ Unit := Prog.perform (HostOp.storeActive k)
def loadThreshold (k : κ) (subsystem : UInt32) : HostCode κ UInt8 :=
  Prog.perform (HostOp.loadThreshold k subsystem)
def currentCorrelation : HostCode κ UInt64 := Prog.perform HostOp.currentCorrelation
def loadSiteId (slot : UInt64) : HostCode κ UInt64 := Prog.perform (HostOp.loadSiteId slot)
def claimSiteId (slot siteId : UInt64) : HostCode κ UInt64 :=
  Prog.perform (HostOp.claimSiteId slot siteId)
def loadGeneration (slot : UInt64) : HostCode κ UInt64 := Prog.perform (HostOp.loadGeneration slot)
def storeGeneration (slot generation : UInt64) : HostCode κ Unit :=
  Prog.perform (HostOp.storeGeneration slot generation)
def countExhausted : HostCode κ Unit := Prog.perform HostOp.countExhausted
def loadUnbound : HostCode κ UInt64 := Prog.perform HostOp.loadUnbound
def incrementUnbound : HostCode κ Unit := Prog.perform HostOp.incrementUnbound
def publish64 (k : κ) (address word : Nat) (m : Message) : HostCode κ Unit :=
  Prog.perform (HostOp.publish k (.store64 address word none) m)
def publishHigh32 (k : κ) (address half : Nat) (m : Message) : HostCode κ Unit :=
  Prog.perform (HostOp.publish k (.storeHigh32 address half none) m)

/-- `countUnboundEmit`. -/
def countUnboundEmit : HostCode κ Unit := do
  let count ← loadUnbound
  if count.toNat < cUnboundEmitCap then incrementUnbound else pure ()

namespace SiteAnnounceTable

def cSlots : UInt64 := 4096

def cProbeLimit : Nat := 32

/-- `probeStart`: a step of splitmix64. -/
def probeStart (siteId : UInt64) : UInt64 :=
  let x := siteId + 0x9E3779B97F4A7C15
  let x := (x ^^^ (x >>> 30)) * 0xBF58476D1CE4E5B9
  let x := (x ^^^ (x >>> 27)) * 0x94D049BB133111EB
  (x ^^^ (x >>> 31)) &&& (cSlots - 1)

def nextSlot (slot : UInt64) : UInt64 := (slot + 1) &&& (cSlots - 1)

/-- The loop of `generationFor`. -/
def generationFrom (siteId : UInt64) : (tries : Nat) → (slot : UInt64) → HostCode κ UInt64
  | 0, _ => do
    countExhausted
    pure 0
  | tries + 1, slot => do
    let key ← loadSiteId slot
    if key = siteId then loadGeneration slot
    else if key = 0 then pure 0
    else generationFrom siteId tries (nextSlot slot)

def generationFor (siteId : UInt64) : HostCode κ UInt64 :=
  generationFrom siteId cProbeLimit (probeStart siteId)

/-- The loop of `record`. -/
def recordFrom (siteId generation : UInt64) : (tries : Nat) → (slot : UInt64) → HostCode κ Unit
  | 0, _ => countExhausted
  | tries + 1, slot => do
    let expected ← claimSiteId slot siteId
    if expected = 0 ∨ expected = siteId then storeGeneration slot generation
    else recordFrom siteId generation tries (nextSlot slot)

def record (siteId generation : UInt64) : HostCode κ Unit :=
  recordFrom siteId generation cProbeLimit (probeStart siteId)

end SiteAnnounceTable

open SiteAnnounceTable

section Functions

variable (lg : κ → Logger τ)

/-- `sub0logAbiHostDefineSite`. -/
def defineSite (d : SiteDefinition) : HostCode κ Unit := do
  let logger ← loadActive
  match logger with
  | none => countUnboundEmit
  | some k => do
    let written ← onLogger k ((lg k).writeSiteDefinitionCore d none)
    if written then record d.siteId (lg k).segment.generation
    else pure ()

/-- `writer->commit(slot, head)`, the store of the head word publishing `m`. -/
def commitMessage (k : κ) (slot : Reservation) (flags : UInt8) (totalBytes : Nat) (m : Message) :
    HostCode κ Unit :=
  let word := (RecordHead.mk (UInt16.ofNat totalBytes) .message flags slot.sequence).pack
  if (lg k).split then do
    onLogger k (storeLow32 slot.headWord (word % 2 ^ 32))
    publishHigh32 k slot.headWord (word / 2 ^ 32) m
  else
    publish64 k slot.headWord word m

/-- The arguments the plugin encoded are copied behind the Message's own payload. -/
def storeEncoded (k : κ) (r : AbiRecord) (slot : Reservation) : HostCode κ Unit :=
  match r.payload with
  | none => pure ()
  | some bytes =>
    if 0 < r.writtenBytes then
      onLogger k (copyBytes (slot.headWord + 8 + sizeofMessagePayload) (bytes.take r.writtenBytes))
    else pure ()

/-- The part of `sub0logAbiHostEmit` behind its reservation. -/
def storeMessage (k : κ) (r : AbiRecord) (slot : Reservation) : HostCode κ Unit := do
  let scope ← currentCorrelation
  let correlation := (lg k).correlation scope
  let monoNs ← onLogger k monotonicNow
  onLogger k (copyBytes (slot.headWord + 8)
    (MessagePayload.mk r.siteId monoNs correlation).toBytes)
  storeEncoded k r slot
  commitMessage lg k slot (if r.payloadTruncated then cFlagTruncated else 0)
    (sizeofMessagePayload + r.writtenBytes)
    ⟨r.siteId, monoNs, correlation, r.encoded, r.payloadTruncated⟩
  onLogger k (Logger.countTruncationIf r.payloadTruncated)

/-- `sub0logAbiHostEmit`; the pointer to the record may be null. -/
def emitRecord (record : Option AbiRecord) : HostCode κ Unit :=
  match record with
  | none => pure ()
  | some r => do
    let logger ← loadActive
    match logger with
    | none => countUnboundEmit
    | some k => do
      let threshold ← loadThreshold k r.subsystem
      if r.severity < threshold then pure ()
      else do
        let generation ← generationFor r.siteId
        if generation ≠ (lg k).segment.generation then onLogger k (countDrop none)
        else do
          let slot ← onLogger k
            ((lg k).reserveRecord (sizeofMessagePayload + r.writtenBytes) none)
          match slot with
          | none => pure ()
          | some slot => storeMessage lg k r slot

/-- What a thread of the process may do: call the table, or bind a Logger or none. -/
inductive HostCall (κ : Type)
  | defineSite (d : SiteDefinition)
  | emitRecord (record : Option AbiRecord)
  | rebind (k : Option κ)

/-- One call. -/
def call : HostCall κ → HostCode κ Unit
  | .defineSite d => defineSite lg d
  | .emitRecord record => emitRecord lg record
  | .rebind k => storeActive k

/-- A thread's calls, one after another. -/
def thread : List (HostCall κ) → HostCode κ Unit
  | [] => pure ()
  | c :: calls => do
    call lg c
    thread calls

end Functions

end Sub0Log.Abi
