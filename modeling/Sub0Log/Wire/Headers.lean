import Sub0Log.Wire.Format
import Sub0Log.Library.Crc

/-!
# Headers and their checksum

The segment header, the chunk header and its checksum, and the payload prefixes of
the record kinds this development reads and writes. Each structure has its byte
image (`toBytes`, what `storeUnaligned` lays down) and its reading (`ofBytes`, what
`loadUnaligned` returns from the bytes it is given); `ofBytes_toBytes` says the
second undoes the first.

`crc32` works half a byte at a time through `cCrc32NibbleTable`; `crc32_eq_run`
identifies it with the bit-serial recurrence of the library, so the library's
linearity is available for it.
-/

open Bytes

namespace Sub0Log.Wire

/-! ### Fixed-width fields -/

theorem u64_field (x : UInt64) : UInt64.ofNat (x.toNat % 256 ^ 8) = x := by
  have h : x.toNat < 256 ^ 8 := x.toNat_lt
  rw [Nat.mod_eq_of_lt h, UInt64.ofNat_toNat]

theorem u32_field (x : UInt32) : UInt32.ofNat (x.toNat % 256 ^ 4) = x := by
  have h : x.toNat < 256 ^ 4 := x.toNat_lt
  rw [Nat.mod_eq_of_lt h, UInt32.ofNat_toNat]

theorem u16_field (x : UInt16) : UInt16.ofNat (x.toNat % 256 ^ 2) = x := by
  have h : x.toNat < 256 ^ 2 := x.toNat_lt
  rw [Nat.mod_eq_of_lt h, UInt16.ofNat_toNat]

theorem u8_field (x : UInt8) : UInt8.ofNat (x.toNat % 256 ^ 1) = x := by
  have h : x.toNat < 256 ^ 1 := x.toNat_lt
  rw [Nat.mod_eq_of_lt h, UInt8.ofNat_toNat]

theorem bv32_field (x : BitVec 32) : BitVec.ofNat 32 (x.toNat % 256 ^ 4) = x := by
  have h : x.toNat < 256 ^ 4 := x.isLt
  rw [Nat.mod_eq_of_lt h, BitVec.ofNat_toNat, BitVec.setWidth_eq]

/-! ### The segment header -/

structure SegmentHeader where
  magic : UInt64
  formatVersion : UInt16
  headerBytes : UInt32
  chunkBytes : UInt32
  segmentBytes : UInt64
  generation : UInt64
  processId : UInt64
  anchorMonoNs : UInt64
  anchorWallNs : UInt64
  deriving DecidableEq, Repr

namespace SegmentHeader

/-- The 64 bytes of the header; `reserved0_` and `reserved1_` are zero. -/
def toBytes (h : SegmentHeader) : List UInt8 :=
  leBytes 8 h.magic.toNat ++ (leBytes 2 h.formatVersion.toNat ++ (leBytes 2 0 ++
  (leBytes 4 h.headerBytes.toNat ++ (leBytes 4 h.chunkBytes.toNat ++ (leBytes 4 0 ++
  (leBytes 8 h.segmentBytes.toNat ++ (leBytes 8 h.generation.toNat ++
  (leBytes 8 h.processId.toNat ++ (leBytes 8 h.anchorMonoNs.toNat ++
  leBytes 8 h.anchorWallNs.toNat)))))))))

def ofBytes (bs : List UInt8) : SegmentHeader where
  magic := UInt64.ofNat (field bs 0 8)
  formatVersion := UInt16.ofNat (field bs 8 2)
  headerBytes := UInt32.ofNat (field bs 12 4)
  chunkBytes := UInt32.ofNat (field bs 16 4)
  segmentBytes := UInt64.ofNat (field bs 24 8)
  generation := UInt64.ofNat (field bs 32 8)
  processId := UInt64.ofNat (field bs 40 8)
  anchorMonoNs := UInt64.ofNat (field bs 48 8)
  anchorWallNs := UInt64.ofNat (field bs 56 8)

@[simp] theorem toBytes_length (h : SegmentHeader) : h.toBytes.length = sizeofSegmentHeader := by
  simp [toBytes, sizeofSegmentHeader]

theorem ofBytes_toBytes (h : SegmentHeader) : ofBytes h.toBytes = h := by
  simp only [ofBytes, toBytes, field_here, field_last, field_skip_word, Nat.reduceLeDiff,
    Nat.reduceSub, u64_field, u32_field, u16_field]

end SegmentHeader

/-! ### The chunk header -/

structure ChunkHeader where
  generation : UInt64
  ownerThread : UInt64
  claimMonoNs : UInt64
  headerChecksum : BitVec 32
  chunkSizeClass : UInt8
  deriving DecidableEq, Repr

namespace ChunkHeader

/-- The 32 bytes of the header; the three reserved bytes are zero. -/
def toBytes (h : ChunkHeader) : List UInt8 :=
  leBytes 8 h.generation.toNat ++ (leBytes 8 h.ownerThread.toNat ++
  (leBytes 8 h.claimMonoNs.toNat ++ (leBytes 4 h.headerChecksum.toNat ++
  (leBytes 1 h.chunkSizeClass.toNat ++ leBytes 3 0))))

def ofBytes (bs : List UInt8) : ChunkHeader where
  generation := UInt64.ofNat (field bs 0 8)
  ownerThread := UInt64.ofNat (field bs 8 8)
  claimMonoNs := UInt64.ofNat (field bs 16 8)
  headerChecksum := BitVec.ofNat 32 (field bs 24 4)
  chunkSizeClass := UInt8.ofNat (field bs 28 1)

@[simp] theorem toBytes_length (h : ChunkHeader) : h.toBytes.length = sizeofChunkHeader := by
  simp [toBytes, sizeofChunkHeader]

theorem ofBytes_toBytes (h : ChunkHeader) : ofBytes h.toBytes = h := by
  simp only [ofBytes, toBytes, field_here, field_skip_word, Nat.reduceLeDiff,
    Nat.reduceSub, u64_field, u8_field, bv32_field]

end ChunkHeader

/-! ### The header checksum -/

/-- The polynomial of CRC-32 (ISO 3309), reflected. -/
def crc32Polynomial : BitVec 32 := 0xEDB88320#32

/-- One bit of the table's computation. -/
def crc32NibbleBit (crc : BitVec 32) : BitVec 32 :=
  if crc &&& 1#32 ≠ 0#32 then (crc >>> 1) ^^^ crc32Polynomial else crc >>> 1

/-- The 16 remainders of `0 … 15` under the reflected polynomial. -/
def cCrc32NibbleTable : Array (BitVec 32) :=
  (Array.range 16).map fun n =>
    crc32NibbleBit (crc32NibbleBit (crc32NibbleBit (crc32NibbleBit (BitVec.ofNat 32 n))))

/-- Half a byte: one table lookup. -/
def crc32Nibble (crc : BitVec 32) : BitVec 32 :=
  (crc >>> 4) ^^^ cCrc32NibbleTable[(crc &&& 0xF#32).toNat]!

/-- One byte of `crc32`'s loop: two lookups. -/
def crc32Byte (crc : BitVec 32) (b : UInt8) : BitVec 32 :=
  crc32Nibble (crc32Nibble (crc ^^^ b.toBitVec.setWidth 32))

/-- CRC-32, incremental: the value returned from one call feeds the next. -/
def crc32 (crc : BitVec 32) (data : List UInt8) : BitVec 32 :=
  ~~~ (data.foldl crc32Byte (~~~ crc))

/-- The checksum of the four fields a reader decodes, `0` remapped to `1`. -/
def computeChunkHeaderChecksum (generation ownerThread claimMonoNs : UInt64)
    (chunkSizeClass : UInt8) : BitVec 32 :=
  let crc := crc32 0#32 (leBytes 8 generation.toNat ++
    (leBytes 8 ownerThread.toNat ++ leBytes 8 claimMonoNs.toNat))
  let crc := crc32 crc [chunkSizeClass]
  if crc = 0#32 then 1#32 else crc

/-- The checksum a header's own fields compute to. -/
def ChunkHeader.checksum (h : ChunkHeader) : BitVec 32 :=
  computeChunkHeaderChecksum h.generation h.ownerThread h.claimMonoNs h.chunkSizeClass

/-- The stored checksum is present and disagrees with the header's own fields. -/
def ChunkHeader.corrupt (h : ChunkHeader) : Bool :=
  h.headerChecksum != 0#32 && h.headerChecksum != h.checksum

theorem checksum_ne_zero (h : ChunkHeader) : h.checksum ≠ 0#32 := by
  unfold ChunkHeader.checksum computeChunkHeaderChecksum
  simp only
  split
  · decide
  · assumption

theorem crc32NibbleBit_eq_step (crc : BitVec 32) :
    crc32NibbleBit crc = Crc.step crc32Polynomial crc := by
  have hbit : (crc &&& 1#32 ≠ 0#32) ↔ crc.getLsbD 0 = true := by
    rw [BitVec.and_one_eq_setWidth_ofBool_getLsbD]
    cases crc.getLsbD 0 <;> decide
  unfold crc32NibbleBit Crc.step
  simp only [hbit]

theorem cCrc32NibbleTable_get {n : Nat} (h : n < 16) :
    cCrc32NibbleTable[n]! = Crc.steps crc32Polynomial 4 (BitVec.ofNat 32 n) := by
  have hget : cCrc32NibbleTable[n]! = crc32NibbleBit (crc32NibbleBit (crc32NibbleBit
      (crc32NibbleBit (BitVec.ofNat 32 n)))) := by
    unfold cCrc32NibbleTable
    rw [getElem!_pos _ n (by simpa using h)]
    simp
  rw [hget]
  simp only [crc32NibbleBit_eq_step]
  rfl

theorem low_nibble_mask (i : Nat) (hi : i < 32) : (0xF#32).getLsbD i = decide (i < 4) := by
  have h : (0xF#32).getLsbD i = (15 : Nat).testBit i := by
    rw [BitVec.getLsbD_ofNat]; simp [hi]
  rw [h, show (15 : Nat) = 2 ^ 4 - 1 by rfl, Nat.testBit_two_pow_sub_one]

theorem crc32Nibble_eq_steps (crc : BitVec 32) :
    crc32Nibble crc = Crc.steps crc32Polynomial 4 crc := by
  have hlt : (crc &&& 0xF#32).toNat < 16 := by
    rw [BitVec.toNat_and]
    exact lt_of_le_of_lt Nat.and_le_right (by decide)
  rw [crc32Nibble, cCrc32NibbleTable_get hlt, BitVec.ofNat_toNat, BitVec.setWidth_eq,
    ← Crc.steps_split crc32Polynomial low_nibble_mask]

theorem crc32Byte_eq_byteStep (crc : BitVec 32) (b : UInt8) :
    crc32Byte crc b = Crc.byteStep crc32Polynomial crc b := by
  rw [crc32Byte, crc32Nibble_eq_steps, crc32Nibble_eq_steps, ← Crc.steps_add]
  rfl

/-- The table-driven loop is the bit-serial recurrence. -/
theorem crc32_eq_run (crc : BitVec 32) (data : List UInt8) :
    crc32 crc data = ~~~ (Crc.run crc32Polynomial (~~~ crc) data) := by
  unfold crc32 Crc.run
  simp only [funext fun x => funext fun b => crc32Byte_eq_byteStep x b]

/-- Feeding the value of one call into the next is one call on the whole. -/
theorem crc32_crc32 (crc : BitVec 32) (as bs : List UInt8) :
    crc32 (crc32 crc as) bs = crc32 crc (as ++ bs) := by
  rw [crc32_eq_run, crc32_eq_run, crc32_eq_run, BitVec.not_not, ← Crc.run_append]

/-- A difference in the last byte only is carried to one that is neither clear nor one. -/
theorem steps_byte_ne (d : BitVec 8) (h : d ≠ 0#8) :
    Crc.steps crc32Polynomial 8 (d.setWidth 32) ≠ 0#32 ∧
      Crc.steps crc32Polynomial 8 (d.setWidth 32) ≠ 1#32 := by
  have hall : ∀ n : Fin 256, n ≠ 0 → Crc.steps crc32Polynomial 8 (BitVec.ofNat 32 n) ≠ 0#32 ∧
      Crc.steps crc32Polynomial 8 (BitVec.ofNat 32 n) ≠ 1#32 := by
    decide +kernel
  have hd := hall ⟨d.toNat, d.isLt⟩ fun heq => h (BitVec.eq_of_toNat_eq (congrArg Fin.val heq))
  rwa [BitVec.ofNat_toNat] at hd

/-- **Two classes never share a checksum**, the remapped zero included. -/
theorem checksum_class_ne (generation ownerThread claimMonoNs : UInt64) {c c' : UInt8}
    (h : c ≠ c') : computeChunkHeaderChecksum generation ownerThread claimMonoNs c ≠
      computeChunkHeaderChecksum generation ownerThread claimMonoNs c' := by
  have hbyte : c.toBitVec ^^^ c'.toBitVec ≠ 0#8 := fun hzero =>
    h (UInt8.toBitVec_inj.mp (BitVec.xor_eq_zero_iff.mp hzero))
  obtain ⟨hzero, hone⟩ := steps_byte_ne _ hbyte
  unfold computeChunkHeaderChecksum
  simp only
  generalize crc32 0#32 _ = crc
  -- the two values are apart by the class bytes' difference, carried through eight steps
  have hdiffer : crc32 crc [c] ^^^ crc32 crc [c'] =
      Crc.steps crc32Polynomial 8 ((c.toBitVec ^^^ c'.toBitVec).setWidth 32) := by
    have hrun := Crc.run_xor_of_differ (p := crc32Polynomial) (~~~crc) [] [] c c'
    rw [crc32_eq_run, crc32_eq_run, ← BitVec.not_xor_left, ← BitVec.not_xor_right,
      BitVec.not_not, BitVec.setWidth_xor]
    exact hrun
  rw [← hdiffer] at hzero hone
  intro heq
  split at heq <;> split at heq
  · exact hzero (by rw [‹crc32 crc [c] = 0#32›, ‹crc32 crc [c'] = 0#32›]; rfl)
  · exact hone (by rw [‹crc32 crc [c] = 0#32›, ← heq]; rfl)
  · exact hone (by rw [‹crc32 crc [c'] = 0#32›, heq]; rfl)
  · exact hzero (BitVec.xor_eq_zero_iff.mpr heq)

end Sub0Log.Wire
