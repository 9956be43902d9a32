import Sub0Log.Wire.Headers

/-!
# Payload layouts

The fixed part of each record payload the typed layer reads and the producer
writes, laid down by `toBytes` and read back by `ofBytes`. What follows it in the
record (argument bytes, type codes, length-prefixed strings, a slice of an
argument) is the encoder's and the decoder's business.
-/

open Bytes

namespace Sub0Log.Wire

/-! ### Message -/

structure MessagePayload where
  siteId : UInt64
  monoNs : UInt64
  correlationId : UInt64
  deriving DecidableEq, Repr

namespace MessagePayload

def toBytes (p : MessagePayload) : List UInt8 :=
  leBytes 8 p.siteId.toNat ++ (leBytes 8 p.monoNs.toNat ++ leBytes 8 p.correlationId.toNat)

def ofBytes (bs : List UInt8) : MessagePayload where
  siteId := UInt64.ofNat (field bs 0 8)
  monoNs := UInt64.ofNat (field bs 8 8)
  correlationId := UInt64.ofNat (field bs 16 8)

@[simp] theorem toBytes_length (p : MessagePayload) :
    p.toBytes.length = sizeofMessagePayload := by
  simp [toBytes, sizeofMessagePayload]

theorem ofBytes_toBytes (p : MessagePayload) : ofBytes p.toBytes = p := by
  simp only [ofBytes, toBytes, field_here, field_last, field_skip_word, Nat.reduceLeDiff,
    Nat.reduceSub, u64_field]

end MessagePayload

/-! ### Continuation -/

/-- `ContinuationPayload`; its reserved fields are zero. -/
structure ContinuationPayload where
  siteId : UInt64
  argIndex : UInt8
  deriving DecidableEq, Repr

namespace ContinuationPayload

def toBytes (p : ContinuationPayload) : List UInt8 :=
  leBytes 8 p.siteId.toNat ++ (leBytes 1 p.argIndex.toNat ++ leBytes 7 0)

def ofBytes (bs : List UInt8) : ContinuationPayload where
  siteId := UInt64.ofNat (field bs 0 8)
  argIndex := UInt8.ofNat (field bs 8 1)

@[simp] theorem toBytes_length (p : ContinuationPayload) :
    p.toBytes.length = sizeofContinuationPayload := by
  simp [toBytes, sizeofContinuationPayload]

theorem ofBytes_toBytes (p : ContinuationPayload) : ofBytes p.toBytes = p := by
  simp only [ofBytes, toBytes, field_here, field_skip_word, Nat.reduceLeDiff,
    Nat.reduceSub, u64_field, u8_field]

end ContinuationPayload

/-! ### SiteDefinition -/

/-- `SiteDefinitionPayload`; its reserved fields are zero. The severity stays the
byte it is on the wire. -/
structure SiteDefinitionPayload where
  siteId : UInt64
  subsystemId : UInt32
  line : UInt32
  severity : UInt8
  argCount : UInt8
  deriving DecidableEq, Repr

namespace SiteDefinitionPayload

def toBytes (p : SiteDefinitionPayload) : List UInt8 :=
  leBytes 8 p.siteId.toNat ++ (leBytes 4 p.subsystemId.toNat ++ (leBytes 4 p.line.toNat ++
  (leBytes 1 p.severity.toNat ++ (leBytes 1 p.argCount.toNat ++ leBytes 6 0))))

def ofBytes (bs : List UInt8) : SiteDefinitionPayload where
  siteId := UInt64.ofNat (field bs 0 8)
  subsystemId := UInt32.ofNat (field bs 8 4)
  line := UInt32.ofNat (field bs 12 4)
  severity := UInt8.ofNat (field bs 16 1)
  argCount := UInt8.ofNat (field bs 17 1)

@[simp] theorem toBytes_length (p : SiteDefinitionPayload) :
    p.toBytes.length = sizeofSiteDefinitionPayload := by
  simp [toBytes, sizeofSiteDefinitionPayload]

theorem ofBytes_toBytes (p : SiteDefinitionPayload) : ofBytes p.toBytes = p := by
  simp only [ofBytes, toBytes, field_here, field_skip_word, Nat.reduceLeDiff,
    Nat.reduceSub, u64_field, u32_field, u8_field]

end SiteDefinitionPayload

/-! ### SubsystemDefinition -/

/-- `SubsystemDefinitionPayload`; its reserved field is zero. -/
structure SubsystemDefinitionPayload where
  subsystemId : UInt32
  nameLen : UInt16
  deriving DecidableEq, Repr

namespace SubsystemDefinitionPayload

def toBytes (p : SubsystemDefinitionPayload) : List UInt8 :=
  leBytes 4 p.subsystemId.toNat ++ (leBytes 2 p.nameLen.toNat ++ leBytes 2 0)

def ofBytes (bs : List UInt8) : SubsystemDefinitionPayload where
  subsystemId := UInt32.ofNat (field bs 0 4)
  nameLen := UInt16.ofNat (field bs 4 2)

@[simp] theorem toBytes_length (p : SubsystemDefinitionPayload) :
    p.toBytes.length = sizeofSubsystemDefinitionPayload := by
  simp [toBytes, sizeofSubsystemDefinitionPayload]

theorem ofBytes_toBytes (p : SubsystemDefinitionPayload) : ofBytes p.toBytes = p := by
  simp only [ofBytes, toBytes, field_here, field_skip_word, Nat.reduceLeDiff,
    Nat.reduceSub, u32_field, u16_field]

end SubsystemDefinitionPayload

/-! ### Children -/

def sizeofChildStartPayload : Nat := 32
def sizeofChildOutputPayload : Nat := 24
def sizeofChildExitPayload : Nat := 24

/-- `ChildStartPayload`. -/
structure ChildStartPayload where
  childId : UInt64
  childPid : UInt64
  correlationId : UInt64
  monoNs : UInt64
  deriving DecidableEq, Repr

def ChildStartPayload.toBytes (p : ChildStartPayload) : List UInt8 :=
  leBytes 8 p.childId.toNat ++ (leBytes 8 p.childPid.toNat ++
  (leBytes 8 p.correlationId.toNat ++ leBytes 8 p.monoNs.toNat))

/-- `ChildOutputPayload`; its reserved fields are zero. -/
structure ChildOutputPayload where
  childId : UInt64
  monoNs : UInt64
  stream : UInt8
  deriving DecidableEq, Repr

def ChildOutputPayload.toBytes (p : ChildOutputPayload) : List UInt8 :=
  leBytes 8 p.childId.toNat ++ (leBytes 8 p.monoNs.toNat ++ (leBytes 1 p.stream.toNat ++ leBytes 7 0))

/-- `ChildExitPayload`. -/
structure ChildExitPayload where
  childId : UInt64
  monoNs : UInt64
  exitCode : Int32
  signal : Int32
  deriving DecidableEq, Repr

def ChildExitPayload.toBytes (p : ChildExitPayload) : List UInt8 :=
  leBytes 8 p.childId.toNat ++ (leBytes 8 p.monoNs.toNat ++
  (leBytes 4 p.exitCode.toUInt32.toNat ++ leBytes 4 p.signal.toUInt32.toNat))

end Sub0Log.Wire
