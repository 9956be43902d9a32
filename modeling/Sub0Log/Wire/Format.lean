import Sub0Log.Library.Bytes

/-!
# The on-disk format

The one contract producer and reader share (`wire.hpp`): the constants, the
record kinds and argument type codes, the record head word, the segment and
chunk headers and the payload layouts, each with its byte image and the reading
of it.

Lengths, offsets and sizes are `Nat`; a field with a fixed width of its own keeps
that width (`UInt8` … `UInt64`, and `BitVec 32` for the header checksum). Kinds
and type codes are bytes read off a file, so both types keep an `other` case for
a byte no enumerator names.
-/

open Bytes

namespace Sub0Log.Wire

/-! ### Constants -/

def cMagic : UInt64 := 0x1E474F4C30425553
def cFormatVersion : UInt16 := 1
def cCommitTag : Nat := 0xC511

def cSegmentHeaderBytes : Nat := 4096
def cRecordAlign : Nat := 8
def cChunkSizeUnit : Nat := 128
def cMaxChunkSizeClass : Nat := 17
def cInlineBytesCap : Nat := 512
def cMaxContinuations : Nat := 7

/-- Offset of the chunk-claim cursor within the header area. -/
def cNextChunkOffset : Nat := 128

/-- The header area of an in-memory segment: the cursor's cache line and nothing
after it. -/
def cCompactSegmentHeaderBytes : Nat := cNextChunkOffset + 64

/-- `sizeof` of the on-disk structures. -/
def sizeofSegmentHeader : Nat := 64
def sizeofChunkHeader : Nat := 32
def sizeofMessagePayload : Nat := 24
def sizeofContinuationPayload : Nat := 16
def sizeofSiteDefinitionPayload : Nat := 24
def sizeofSubsystemDefinitionPayload : Nat := 8

def cFlagTruncated : UInt8 := 0x01
def cFlagContinued : UInt8 := 0x02

/-! ### Chunk size classes -/

/-- The chunk size a class stands for; `sizeClass` is in `[1, cMaxChunkSizeClass]`. -/
def chunkBytesForSizeClass (sizeClass : Nat) : Nat := cChunkSizeUnit <<< (sizeClass - 1)

/-- The class encoding `bytes` exactly, if there is one: the source's loop over
the classes in increasing order. -/
def sizeClassForChunkBytes (bytes : Nat) : Option Nat :=
  (List.range' 1 cMaxChunkSizeClass).find? fun sizeClass =>
    chunkBytesForSizeClass sizeClass == bytes

theorem sizeClassForChunkBytes_some {bytes c : Nat} (h : sizeClassForChunkBytes bytes = some c) :
    1 ≤ c ∧ c ≤ cMaxChunkSizeClass ∧ chunkBytesForSizeClass c = bytes := by
  have hmem := List.mem_of_find?_eq_some h
  have heq := List.find?_some h
  rw [List.mem_range'_1] at hmem
  simp only [cMaxChunkSizeClass, beq_iff_eq] at hmem heq ⊢
  exact ⟨hmem.1, by omega, heq⟩

/-- Every class a chunk may carry stands for at least one size unit. -/
theorem cChunkSizeUnit_le_chunkBytesForSizeClass (c : Nat) :
    cChunkSizeUnit ≤ chunkBytesForSizeClass c := by
  rw [chunkBytesForSizeClass, Nat.shiftLeft_eq]
  exact Nat.le_mul_of_pos_right _ (Nat.two_pow_pos _)

theorem chunkBytesForSizeClass_lt {c : Nat} (h : c ≤ cMaxChunkSizeClass) :
    chunkBytesForSizeClass c < 2 ^ 32 := by
  rw [chunkBytesForSizeClass, Nat.shiftLeft_eq]
  have hpow : 2 ^ (c - 1) ≤ 2 ^ 16 :=
    Nat.pow_le_pow_right (by decide) (by unfold cMaxChunkSizeClass at h; omega)
  unfold cChunkSizeUnit
  omega

/-! ### Record kinds -/

/-- `RecordKind`; a byte that names no enumerator is `other`. -/
inductive RecordKind
  | invalid
  | message
  | siteDefinition
  | continuation
  | blob
  | childOutput
  | childStart
  | childExit
  | subsystemDefinition
  | other (code : UInt8)
  deriving DecidableEq, Repr

namespace RecordKind

def toByte : RecordKind → UInt8
  | invalid => 0
  | message => 1
  | siteDefinition => 2
  | continuation => 3
  | blob => 4
  | childOutput => 5
  | childStart => 6
  | childExit => 7
  | subsystemDefinition => 8
  | other code => code

def ofByte (b : UInt8) : RecordKind :=
  match b.toNat with
  | 0 => invalid
  | 1 => message
  | 2 => siteDefinition
  | 3 => continuation
  | 4 => blob
  | 5 => childOutput
  | 6 => childStart
  | 7 => childExit
  | 8 => subsystemDefinition
  | _ => other b

/-- A kind that an enumerator names. -/
def Named (k : RecordKind) : Prop := ∀ code, k ≠ other code

theorem ofByte_toByte {k : RecordKind} (h : k.Named) : ofByte k.toByte = k := by
  cases k with
  | other code => exact absurd rfl (h code)
  | _ => rfl

end RecordKind

/-! ### Argument type codes -/

/-- `TypeCode`; a byte that names no enumerator is `other`. -/
inductive TypeCode
  | invalid
  | bool
  | i8 | u8
  | i16 | u16
  | i32 | u32
  | i64 | u64
  | f32 | f64
  | char
  | bytes
  | pointer
  | other (code : UInt8)
  deriving DecidableEq, Repr

namespace TypeCode

def toByte : TypeCode → UInt8
  | invalid => 0
  | bool => 1
  | i8 => 2
  | u8 => 3
  | i16 => 4
  | u16 => 5
  | i32 => 6
  | u32 => 7
  | i64 => 8
  | u64 => 9
  | f32 => 10
  | f64 => 11
  | char => 12
  | bytes => 13
  | pointer => 14
  | other code => code

def ofByte (b : UInt8) : TypeCode :=
  match b.toNat with
  | 0 => invalid
  | 1 => bool
  | 2 => i8
  | 3 => u8
  | 4 => i16
  | 5 => u16
  | 6 => i32
  | 7 => u32
  | 8 => i64
  | 9 => u64
  | 10 => f32
  | 11 => f64
  | 12 => char
  | 13 => bytes
  | 14 => pointer
  | _ => other b

/-- A code that an enumerator names. -/
def Named (c : TypeCode) : Prop := ∀ code, c ≠ other code

theorem ofByte_toByte {c : TypeCode} (h : c.Named) : ofByte c.toByte = c := by
  cases c with
  | other code => exact absurd rfl (h code)
  | _ => rfl

end TypeCode

/-- Wire size of a fixed-size type code; `0` for a variable-length one. -/
def fixedSizeOf : TypeCode → Nat
  | .bool | .i8 | .u8 | .char => 1
  | .i16 | .u16 => 2
  | .i32 | .u32 | .f32 => 4
  | .i64 | .u64 | .f64 | .pointer => 8
  | .bytes | .invalid => 0
  | .other _ => 0

/-! ### The record head word -/

/-- The head of a record, as the one aligned word in front of its payload packs
it. -/
structure RecordHead where
  payloadBytes : UInt16
  kind : RecordKind
  flags : UInt8
  sequence : UInt16
  deriving DecidableEq, Repr

namespace RecordHead

/-- The head word: payload length, kind, flags, sequence, commit tag, from the
low bits up. The fields do not overlap, so the source's `|` is `+`. -/
def pack (h : RecordHead) : Nat :=
  h.payloadBytes.toNat + h.kind.toByte.toNat * 2 ^ 16 + h.flags.toNat * 2 ^ 24
    + h.sequence.toNat * 2 ^ 32 + cCommitTag * 2 ^ 48

/-- Unpacks without judging validity. -/
def unpack (word : Nat) : RecordHead where
  payloadBytes := UInt16.ofNat (word % 2 ^ 16)
  kind := RecordKind.ofByte (UInt8.ofNat (word / 2 ^ 16 % 2 ^ 8))
  flags := UInt8.ofNat (word / 2 ^ 24 % 2 ^ 8)
  sequence := UInt16.ofNat (word / 2 ^ 32 % 2 ^ 16)

/-- The record exists. -/
def isCommitted (word : Nat) : Bool := word / 2 ^ 48 % 2 ^ 16 == cCommitTag

theorem pack_lt (h : RecordHead) : h.pack < 256 ^ 8 := by
  have h₁ := h.payloadBytes.toNat_lt
  have h₂ := h.kind.toByte.toNat_lt
  have h₃ := h.flags.toNat_lt
  have h₄ := h.sequence.toNat_lt
  unfold pack cCommitTag
  omega

theorem isCommitted_pack (h : RecordHead) : isCommitted h.pack = true := by
  have h₁ := h.payloadBytes.toNat_lt
  have h₂ := h.kind.toByte.toNat_lt
  have h₃ := h.flags.toNat_lt
  have h₄ := h.sequence.toNat_lt
  unfold isCommitted pack cCommitTag
  rw [beq_iff_eq]
  omega

theorem unpack_pack {h : RecordHead} (hk : h.kind.Named) : unpack h.pack = h := by
  have h₁ := h.payloadBytes.toNat_lt
  have h₂ := h.kind.toByte.toNat_lt
  have h₃ := h.flags.toNat_lt
  have h₄ := h.sequence.toNat_lt
  have e₁ : h.pack % 2 ^ 16 = h.payloadBytes.toNat := by unfold pack cCommitTag; omega
  have e₂ : h.pack / 2 ^ 16 % 2 ^ 8 = h.kind.toByte.toNat := by unfold pack cCommitTag; omega
  have e₃ : h.pack / 2 ^ 24 % 2 ^ 8 = h.flags.toNat := by unfold pack cCommitTag; omega
  have e₄ : h.pack / 2 ^ 32 % 2 ^ 16 = h.sequence.toNat := by unfold pack cCommitTag; omega
  unfold unpack
  rw [e₁, e₂, e₃, e₄, UInt16.ofNat_toNat, UInt8.ofNat_toNat, UInt8.ofNat_toNat,
    UInt16.ofNat_toNat, RecordKind.ofByte_toByte hk]

/-- A word whose tag half is zero is not committed, whatever its low half says. -/
theorem not_isCommitted_of_lt {word : Nat} (h : word < 2 ^ 48) : isCommitted word = false := by
  unfold isCommitted cCommitTag
  rw [beq_eq_false_iff_ne]
  omega

end RecordHead

/-- Storage consumed by a payload: padded to record alignment. -/
def paddedPayload (payloadBytes : Nat) : Nat :=
  (payloadBytes + (cRecordAlign - 1)) / cRecordAlign * cRecordAlign

theorem le_paddedPayload (n : Nat) : n ≤ paddedPayload n := by
  unfold paddedPayload cRecordAlign
  omega

theorem paddedPayload_lt (n : Nat) : paddedPayload n < n + 8 := by
  unfold paddedPayload cRecordAlign
  omega

theorem dvd_paddedPayload (n : Nat) : 8 ∣ paddedPayload n := Nat.dvd_mul_left 8 _

/-- The least multiple of the alignment that holds the payload. -/
theorem paddedPayload_le {n k : Nat} (hk : 8 ∣ k) (h : n ≤ k) : paddedPayload n ≤ k := by
  obtain ⟨j, rfl⟩ := hk
  unfold paddedPayload cRecordAlign
  omega

end Sub0Log.Wire
