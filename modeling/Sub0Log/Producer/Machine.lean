import Sub0Log.Library.Interleaving
import Sub0Log.Producer.Record
import Sub0Log.Producer.Segment

/-!
# The producer as interleaving programs

One bound `Logger`, any number of threads. A thread's code is a program over the
operations below; each operation is one step, so two threads interleave anywhere between
two of them. Memory is sequentially consistent and stores are made byte by byte, with
two exceptions that the code makes atomic: the head word of a record (one 64-bit store,
or two 32-bit stores on the split path, the half with the commit tag last) and the claim
cursor. A copy of several bytes stores them in any order (`copyOrder`).

* `State` — what the threads share, each thread's writer cache, and the `trace` of what
  happened so far. The trace is for stating properties: no operation reads it. Operations
  that publish or give up a record say in an argument what they write into it.
* `Op`, `sem` — the operations and what each may do.

The claim cursor is kept beside the memory and counts without bound: it wraps after
`2 ^ 64` claims. A reader finds its eight low bytes in the image (`State.mapped`).
-/

open Bytes Interleaving

namespace Sub0Log.Producer

open Wire

/-! ### Call sites and calls -/

/-- `SiteDescriptor`, with the types of the argument pack its one call site passes. -/
structure SiteDescriptor where
  format : List UInt8
  file : List UInt8
  line : UInt32
  subsystem : UInt32
  severity : UInt8
  argTypes : List TypeCode
  argTypes_le : argTypes.length ≤ 255
  payload_lt : definitionPayloadBytes argTypes.length format.length file.length < 2 ^ 32

/-- What `writeSiteDefinition` passes on; the site's identity is its address. -/
def SiteDescriptor.definition (site : SiteDescriptor) (id : UInt64) : SiteDefinition where
  siteId := id
  subsystem := site.subsystem
  severity := site.severity
  format := site.format
  file := site.file
  line := site.line
  typeCodes := site.argTypes.map TypeCode.toByte
  typeCodes_le := by
    rw [List.length_map]
    exact site.argTypes_le
  payload_lt := by
    rw [List.length_map]
    exact site.payload_lt

/-- One call of `emitRecord`: the site, the arguments, and the calling thread's
correlation scope, `0` when there is none. -/
structure Emit where
  site : UInt64
  args : List Arg
  correlation : UInt64
  deriving DecidableEq

/-- A bound `Logger`: what is constant while threads log into it. There is one site an
address. -/
structure Logger (τ : Type) where
  address : Nat
  segment : Segment
  split : Bool
  rootCorrelation : UInt64
  sites : UInt64 → SiteDescriptor
  threadId : τ → UInt64

namespace Logger

variable {τ : Type} (lg : Logger τ)

/-- The correlation a Message is stamped with. -/
def correlation (scope : UInt64) : UInt64 :=
  if scope ≠ 0 then scope else lg.rootCorrelation

/-- The arguments have the types of the site's pack. -/
def Typed (e : Emit) : Prop := e.args.map Arg.typeCode = (lg.sites e.site).argTypes

/-- What the relaxed counters wrap at. -/
def counterWrap : Nat := if lg.split then 2 ^ 32 else 2 ^ 64

end Logger

/-- What a thread may be asked to do: emit, declare a subsystem, or define a site whose
description comes from outside (the C ABI). -/
inductive Call {τ : Type} (lg : Logger τ)
  | emit (e : Emit) (typed : lg.Typed e)
  | declareSubsystem (id : UInt32) (name : List UInt8)
  | defineSite (d : SiteDefinition)

/-- The emit of a call, if it is one. -/
def Call.emit? {τ : Type} {lg : Logger τ} : Call lg → Option Emit
  | emit e _ => some e
  | declareSubsystem _ _ | defineSite _ => none

/-! ### The state -/

/-- `ChunkWriter`: the address and length of its body, the next free offset, the next
sequence number. An empty body is no chunk. -/
structure ChunkWriter where
  body : Nat
  size : Nat
  offset : Nat
  sequence : UInt16
  deriving DecidableEq

/-- `ChunkWriter::Reservation`: the payload lies behind the head word. -/
structure Reservation where
  headWord : Nat
  sequence : UInt16
  deriving DecidableEq

namespace ChunkWriter

/-- A default-constructed writer. -/
def none : ChunkWriter := ⟨0, 0, 0, 0⟩

def valid (w : ChunkWriter) : Bool := decide (w.size ≠ 0)

def remaining (w : ChunkWriter) : Nat :=
  if w.valid = false ∨ w.size < w.offset then 0 else w.size - w.offset

/-- `ChunkWriter::reserve`: the reservation, and the writer after it. -/
def reserve (w : ChunkWriter) (payloadBytes : Nat) : Option (Reservation × ChunkWriter) :=
  if 0xFFFF < payloadBytes then Option.none
  else
    let total := 8 + paddedPayload payloadBytes
    if w.valid = false ∨ w.remaining < total then Option.none
    else some (⟨w.body + w.offset, w.sequence⟩,
      { w with offset := w.offset + total, sequence := w.sequence + 1 })

end ChunkWriter

/-- `WriterCache`; a null `owner_` is address `0`. -/
structure WriterCache where
  owner : Nat
  generation : UInt64
  writer : ChunkWriter
  deriving DecidableEq

/-- What happened, as far as properties speak of it. -/
inductive Event (τ : Type)
  /-- A chunk was claimed. -/
  | claimed (thread : τ) (chunk : Nat)
  /-- The head word at `address` made `written` visible. -/
  | committed (thread : τ) (address : Nat) (written : Written)
  /-- A record was given up and counted, that of an emit or of another call. -/
  | dropped (thread : τ) (emit : Option Emit)
  /-- A cut record was counted. -/
  | truncated (thread : τ)

def Event.thread {τ : Type} : Event τ → τ
  | claimed t _ | committed t _ _ | dropped t _ | truncated t => t

structure State (τ : Type) where
  mem : Mem
  cursor : Nat
  keys : UInt64 → UInt64
  caches : τ → WriterCache
  dropped : Nat
  truncated : Nat
  trace : List (Event τ)

/-- The segment's bytes, the claim cursor in its place. -/
def State.mapped {τ : Type} (s : State τ) : Mem :=
  s.mem.store cNextChunkOffset (leBytes 8 s.cursor)

/-! ### The operations -/

inductive Op
  /-- `announcedKey_.load` and `announcedKey_.store` of the site at an address. -/
  | loadKey (site : UInt64)
  | storeKey (site key : UInt64)
  /-- `detail::claimChunkIndex`. The compare-exchange loop of the split path takes effect
  at the exchange that succeeds, or at the load that finds the cursor at the end. -/
  | claimChunkIndex
  | currentThreadId
  | monotonicNow
  /-- The calling thread's `WriterCache`, which no other thread reaches. -/
  | loadCache
  | storeCache (cache : WriterCache)
  /-- In which order the bytes of a copy are stored. -/
  | copyOrder (n : Nat)
  | storeByte (address : Nat) (byte : UInt8)
  /-- The head word as one 64-bit store, or its two halves. -/
  | store64 (address word : Nat) (publishes : Option Written)
  | storeLow32 (address half : Nat)
  | storeHigh32 (address half : Nat) (publishes : Option Written)
  | countDrop (emit : Option Emit)
  | countTruncation

def Op.Answer : Op → Type
  | loadKey _ => UInt64
  | claimChunkIndex => Nat
  | currentThreadId => UInt64
  | monotonicNow => UInt64
  | loadCache => WriterCache
  | copyOrder _ => List Nat
  | storeKey _ _ | storeCache _ | storeByte _ _ | store64 _ _ _ | storeLow32 _ _
  | storeHigh32 _ _ _ | countDrop _ | countTruncation => Unit

section Semantics

variable {τ : Type} [DecidableEq τ]

/-- The events of a head-word store. -/
def publication (t : τ) (address : Nat) : Option Written → List (Event τ)
  | none => []
  | some written => [.committed t address written]

/-- The claim of the next chunk. On the 64-bit path refused claims keep counting. -/
def claimChunkIndex (lg : Logger τ) (t : τ) (s : State τ) : Nat × State τ :=
  if s.cursor < lg.segment.chunkCount then
    (s.cursor, { s with cursor := s.cursor + 1, trace := s.trace ++ [.claimed t s.cursor] })
  else if lg.split then (lg.segment.chunkCount, s)
  else (lg.segment.chunkCount, { s with cursor := s.cursor + 1 })

/-- What each operation may answer and do. -/
def sem (lg : Logger τ) : Sem Op.Answer τ (State τ) := fun t op s answer s' =>
  match op, answer with
  | .loadKey site, key => key = s.keys site ∧ s' = s
  | .storeKey site key, _ => s' = { s with keys := Function.update s.keys site key }
  | .claimChunkIndex, index => (index, s') = claimChunkIndex lg t s
  | .currentThreadId, id => id = lg.threadId t ∧ s' = s
  | .monotonicNow, _ => s' = s
  | .loadCache, cache => cache = s.caches t ∧ s' = s
  | .storeCache cache, _ => s' = { s with caches := Function.update s.caches t cache }
  | .copyOrder n, order => List.Perm order (List.range n) ∧ s' = s
  | .storeByte address byte, _ => s' = { s with mem := s.mem.store address [byte] }
  | .store64 address word publishes, _ =>
    s' = { s with
      mem := s.mem.store address (leBytes 8 word)
      trace := s.trace ++ publication t address publishes }
  | .storeLow32 address half, _ => s' = { s with mem := s.mem.store address (leBytes 4 half) }
  | .storeHigh32 address half publishes, _ =>
    s' = { s with
      mem := s.mem.store (address + 4) (leBytes 4 half)
      trace := s.trace ++ publication t address publishes }
  | .countDrop emit, _ =>
    s' = { s with
      dropped := (s.dropped + 1) % lg.counterWrap
      trace := s.trace ++ [.dropped t emit] }
  | .countTruncation, _ =>
    s' = { s with
      truncated := (s.truncated + 1) % lg.counterWrap
      trace := s.trace ++ [.truncated t] }

end Semantics

end Sub0Log.Producer
