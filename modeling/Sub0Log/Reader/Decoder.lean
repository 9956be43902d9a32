import Sub0Log.Reader.Segment
import Sub0Log.Wire.Payloads

/-!
# The typed layer of the reader

`Decoder` (`reader.hpp`): two streaming passes over what `visit` yields. The first
collects the site and subsystem definitions, the second turns every Message into a
`DecodedRecord` or counts it, joining the Continuations that follow it.

Every access to a payload goes through `Checked.read`, every remaining length
through `sub64`, and reading a decoded argument as a string through `badVariant`, so
an access outside a payload or a wrong alternative would be a fault. Offsets only
grow by lengths that were compared with what is left of the payload.

The tables are lists in the order of insertion with the first entry winning, as
`try_emplace` keeps it; a view into the image or into `continuationStorage_` is the
list of its bytes.
-/

open Bytes Checked

namespace Sub0Log.Reader

open Wire

/-! ### Decoded values -/

/-- An argument as the producer typed it. A `double` is kept as its bits. -/
inductive DecodedArg
  | bool (value : Bool)
  | char (value : UInt8)
  | i64 (value : Int64)
  | u64 (value : UInt64)
  | f64 (bits : UInt64)
  | bytes (value : List UInt8)
  deriving DecidableEq

/-- The constant half, reassembled from a SiteDefinition record. -/
structure DecodedSite where
  siteId : UInt64
  subsystem : UInt32
  severity : UInt8
  line : UInt32
  format : List UInt8
  file : List UInt8
  argTypes : List TypeCode
  deriving DecidableEq

/-- One message, typed. -/
structure DecodedRecord where
  site : DecodedSite
  monoNs : UInt64
  correlationId : UInt64
  ownerThread : UInt64
  truncated : Bool
  args : List DecodedArg
  segmentGeneration : UInt64
  recordOffset : Nat
  deriving DecidableEq

/-- The decoder's own state: the two tables and the two counters. -/
structure Decoder where
  sites : List DecodedSite
  subsystemNames : List (UInt32 × List UInt8)
  undecodable : Nat
  skipped : Nat

/-- A fresh decoder. -/
def Decoder.fresh : Decoder := ⟨[], [], 0, 0⟩

/-- `Decoder::siteFor`. -/
def siteFor (sites : List DecodedSite) (siteId : UInt64) : Option DecodedSite :=
  sites.find? fun site => site.siteId == siteId

/-! ### Arguments -/

/-- The bits of the double a float widens to. Every float is a double, so nothing is
rounded; a signalling NaN comes out quiet. -/
def widenF32 (bits : UInt32) : UInt64 :=
  let n := bits.toNat
  let sign := n / 2 ^ 31
  let exponent := n / 2 ^ 23 % 2 ^ 8
  let mantissa := n % 2 ^ 23
  let body :=
    if exponent = 255 then
      if mantissa = 0 then 2047 * 2 ^ 52 else 2047 * 2 ^ 52 + 2 ^ 51 + mantissa % 2 ^ 22 * 2 ^ 29
    else if exponent = 0 then
      -- zero, or a subnormal float: normal as a double
      if mantissa = 0 then 0
      else (mantissa.log2 + 874) * 2 ^ 52 + (mantissa - 2 ^ mantissa.log2) * 2 ^ (52 - mantissa.log2)
    else (exponent + 896) * 2 ^ 52 + mantissa * 2 ^ 29
  UInt64.ofNat (sign * 2 ^ 63 + body)

/-- `Decoder::decodeFixedArg`, on the `fixedSizeOf code` bytes of the argument. -/
def decodeFixedArg (code : TypeCode) (bs : List UInt8) : DecodedArg :=
  let n := leNat bs
  match code with
  | .bool => .bool (n ≠ 0)
  | .char => .char (UInt8.ofNat n)
  | .i8 => .i64 (UInt8.ofNat n).toInt8.toInt64
  | .u8 => .u64 (UInt8.ofNat n).toUInt64
  | .i16 => .i64 (UInt16.ofNat n).toInt16.toInt64
  | .u16 => .u64 (UInt16.ofNat n).toUInt64
  | .i32 => .i64 (UInt32.ofNat n).toInt32.toInt64
  | .u32 => .u64 (UInt32.ofNat n).toUInt64
  | .i64 => .i64 (UInt64.ofNat n).toInt64
  | .u64 => .u64 (UInt64.ofNat n)
  | .f32 => .f64 (widenF32 (UInt32.ofNat n))
  | .f64 => .f64 (UInt64.ofNat n)
  | .pointer => .u64 (UInt64.ofNat n)
  | .bytes | .invalid | .other _ => .u64 0

/-- A `u16` length at `offset`, checked against the payload, and that many bytes behind
it: the shape of the two strings of a definition and of a Bytes argument. -/
def readCounted (payload : List UInt8) (offset : Nat) : Checked (Option (List UInt8 × Nat)) := do
  let left ← sub64 payload.length offset
  if 2 > left then
    return none
  let lenBytes ← Checked.read payload offset 2
  let len := leNat lenBytes
  let offset := offset + 2
  let left ← sub64 payload.length offset
  if len > left then
    return none
  let bytes ← Checked.read payload offset len
  return some (bytes, offset + len)

/-- One argument of a Message, and where the next one starts. -/
def decodeArg (payload : List UInt8) (code : TypeCode) (offset : Nat) :
    Checked (Option (DecodedArg × Nat)) :=
  if code = .bytes then do
    let counted ← readCounted payload offset
    return counted.map fun (value, next) => (.bytes value, next)
  else do
    let sz := fixedSizeOf code
    let left ← sub64 payload.length offset
    if sz = 0 ∨ sz > left then
      return none
    let bs ← Checked.read payload offset sz
    return some (decodeFixedArg code bs, offset + sz)

/-- The arguments of a Message, in the order of the site's type codes. -/
def decodeArgs (payload : List UInt8) : List TypeCode → (offset : Nat) →
    Checked (Option (List DecodedArg))
  | [], _ => return some []
  | code :: codes, offset => do
    let first ← decodeArg payload code offset
    match first with
    | none => return none
    | some (arg, next) =>
      let rest ← decodeArgs payload codes next
      return rest.map (arg :: ·)

/-! ### Definitions -/

/-- `Decoder::parseSiteDefinition`. -/
def parseSiteDefinition (payload : List UInt8) : Checked (Option DecodedSite) := do
  if payload.length < sizeofSiteDefinitionPayload then
    return none
  let bytes ← Checked.read payload 0 sizeofSiteDefinitionPayload
  let fixed := SiteDefinitionPayload.ofBytes bytes
  let offset := sizeofSiteDefinitionPayload
  let argCount := fixed.argCount.toNat
  let left ← sub64 payload.length offset
  if argCount > left then
    return none
  let codes ← Checked.read payload offset argCount
  let offset := offset + argCount
  let format ← readCounted payload offset
  match format with
  | none => return none
  | some (format, offset) =>
    let file ← readCounted payload offset
    match file with
    | none => return none
    | some (file, _) =>
      return some ⟨fixed.siteId, fixed.subsystemId, fixed.severity, fixed.line, format, file,
        codes.map TypeCode.ofByte⟩

/-- `Decoder::parseSubsystemDefinition`. -/
def parseSubsystemDefinition (payload : List UInt8) :
    Checked (Option (UInt32 × List UInt8)) := do
  if payload.length < sizeofSubsystemDefinitionPayload then
    return none
  let bytes ← Checked.read payload 0 sizeofSubsystemDefinitionPayload
  let fixed := SubsystemDefinitionPayload.ofBytes bytes
  let offset := sizeofSubsystemDefinitionPayload
  let left ← sub64 payload.length offset
  if fixed.nameLen.toNat > left then
    return none
  let name ← Checked.read payload offset fixed.nameLen.toNat
  return some (fixed.subsystemId, name)

/-! ### Pass one -/

/-- The first pass on one record: definitions go into the tables, kinds this layer has
no shape for are counted. -/
def passOne (d : Decoder) (v : RecordView) : Checked Decoder :=
  match v.head.kind with
  | .siteDefinition => do
    let site ← parseSiteDefinition v.payload
    match site with
    | none => return { d with undecodable := d.undecodable + 1 }
    | some site =>
      -- keep the first of an id
      if (siteFor d.sites site.siteId).isSome then return d
      else return { d with sites := d.sites ++ [site] }
  | .subsystemDefinition => do
    let name ← parseSubsystemDefinition v.payload
    match name with
    | none => return { d with undecodable := d.undecodable + 1 }
    | some (id, name) =>
      if (d.subsystemNames.find? fun entry => entry.1 == id).isSome then return d
      else return { d with subsystemNames := d.subsystemNames ++ [(id, name)] }
  | .message => return d
  | .continuation => return d
  | .invalid | .blob | .childOutput | .childStart | .childExit | .other _ =>
    return { d with skipped := d.skipped + 1 }

/-! ### Pass two -/

/-- The second pass: the records published so far, the record whose chain is open with
the joined bytes of its arguments, and the counters. -/
structure PassTwo where
  result : List DecodedRecord
  pending : Option DecodedRecord
  pendingOwned : List (Option (List UInt8))
  expectingContinuation : Bool
  damaged : Bool
  undecodable : Nat
  skipped : Nat

namespace PassTwo

/-- A slice seen was no legitimate part of the chain. -/
def damage (s : PassTwo) : PassTwo := { s with damaged := true }

/-- `finalizePending`: publish the pending record, or count it when its chain is
damaged. -/
def finalizePending (s : PassTwo) : PassTwo :=
  match s.pending with
  | none => s
  | some rec =>
    { s with
      result := if s.damaged then s.result else s.result ++ [rec]
      undecodable := if s.damaged then s.undecodable + 1 else s.undecodable
      pending := none
      pendingOwned := []
      expectingContinuation := false
      damaged := false }

/-- The slice extends a Bytes argument of an undamaged pending record. -/
def validTarget (s : PassTwo) (idx : Nat) : Bool :=
  !s.damaged && decide (idx < s.pendingOwned.length) &&
    match s.pending with
    | none => false
    | some rec => rec.site.argTypes[idx]? == some .bytes

/-- The bytes joined for an argument so far: its owned string, or the bytes that were
decoded inline. -/
def joinedSoFar (s : PassTwo) (rec : DecodedRecord) (idx : Nat) : Checked (List UInt8) :=
  match s.pendingOwned[idx]?.join with
  | some owned => return owned
  | none =>
    match rec.args[idx]? with
    | some (.bytes value) => return value
    | _ => .error .badVariant

/-- The slice a Continuation carries is appended to its argument. -/
def joinSlice (s : PassTwo) (payload : List UInt8) : Checked PassTwo := do
  let bytes ← Checked.read payload 0 sizeofContinuationPayload
  let fixed := ContinuationPayload.ofBytes bytes
  let idx := fixed.argIndex.toNat
  if s.validTarget idx = false then
    return s.damage
  match s.pending with
  | none => return s.damage
  | some rec =>
    let owned ← s.joinedSoFar rec idx
    let left ← sub64 payload.length sizeofContinuationPayload
    let tail ← Checked.read payload sizeofContinuationPayload left
    return { s with
      pendingOwned := s.pendingOwned.set idx (some (owned ++ tail))
      pending := some { rec with args := rec.args.set idx (.bytes (owned ++ tail)) } }

/-- A record's flags promise that a Continuation follows it. -/
def continued (v : RecordView) : Bool := v.head.flags &&& cFlagContinued != 0

/-- What a Continuation's payload does to the pending record. -/
def consumeSlice (s : PassTwo) (payload : List UInt8) : Checked PassTwo :=
  if payload.length < sizeofContinuationPayload then return s.damage else s.joinSlice payload

/-- A Continuation that a chain was waiting for. -/
def consumeContinuation (s : PassTwo) (v : RecordView) : Checked PassTwo := do
  let s ← s.consumeSlice v.payload
  if continued v then return { s with expectingContinuation := true }
  else return s.finalizePending

/-- A Message, decoded under the site it names. -/
def decodeMessage (sites : List DecodedSite) (generation : UInt64) (v : RecordView) :
    Checked (Option DecodedRecord) := do
  if v.payload.length < sizeofMessagePayload then
    return none
  let bytes ← Checked.read v.payload 0 sizeofMessagePayload
  let fixed := MessagePayload.ofBytes bytes
  match siteFor sites fixed.siteId with
  | none => return none
  | some site =>
    let args ← decodeArgs v.payload site.argTypes sizeofMessagePayload
    return args.map fun args =>
      { site, monoNs := fixed.monoNs, correlationId := fixed.correlationId,
        ownerThread := v.ownerThread, truncated := v.head.flags &&& cFlagTruncated != 0,
        args, segmentGeneration := generation, recordOffset := v.recordOffset }

/-- A record outside any chain. -/
def handleRecord (sites : List DecodedSite) (generation : UInt64) (s : PassTwo)
    (v : RecordView) : Checked PassTwo :=
  if v.head.kind = .continuation then return { s with skipped := s.skipped + 1 }
  else if v.head.kind ≠ .message then return s
  else do
    let decoded ← decodeMessage sites generation v
    match decoded with
    | none => return { s with undecodable := s.undecodable + 1 }
    | some rec =>
      if continued v then
        return { s with
          pending := some rec
          pendingOwned := List.replicate rec.args.length none
          expectingContinuation := true
          damaged := false }
      else return { s with result := s.result ++ [rec] }

/-- The second pass on one record. -/
def step (sites : List DecodedSite) (generation : UInt64) (s : PassTwo) (v : RecordView) :
    Checked PassTwo :=
  if s.expectingContinuation then
    if v.head.kind ≠ .continuation then
      -- the promised link never came; the record itself is handled like any other
      handleRecord sites generation s.damage.finalizePending v
    else s.consumeContinuation v
  else handleRecord sites generation s v

/-- The end of the stream: a chain still open is damaged. -/
def finish (s : PassTwo) : PassTwo :=
  if s.pending.isSome then s.damage.finalizePending else s.finalizePending

end PassTwo

/-- `Decoder::decodeAll`: the decoded records and the decoder after the call. -/
def decodeAll (d : Decoder) (r : SegmentReader) : Checked (List DecodedRecord × Decoder) := do
  let v ← visit r
  let d ← v.records.foldlM passOne d
  let v ← visit r
  let s ← v.records.foldlM (PassTwo.step d.sites r.header.generation)
    ⟨[], none, [], false, false, d.undecodable, d.skipped⟩
  let s := s.finish
  return (s.result, { d with undecodable := s.undecodable, skipped := s.skipped })

end Sub0Log.Reader
