import Sub0Log.Wire.Headers

/-!
# The checksum against its definition

`crc32` looks half a byte up in a table at a time. `crc32Bitwise` is what it stands for:
the reflected CRC-32 register fed one message bit at a time, complemented in and out.
**`crc32_eq_bitwise`** says that they agree for every seed and every byte string, that
the value of one call feeds the next, and what that makes of a chunk header's checksum.
-/

open Bytes

namespace Sub0Log.Wire

/-- CRC-32 bit by bit. -/
def crc32Bitwise (crc : BitVec 32) (data : List UInt8) : BitVec 32 :=
  ~~~ (Crc.serial crc32Polynomial (~~~ crc) data)

/-- The bytes of a stored header that its checksum covers: the three words in front of the
checksum's own place, and the class byte behind it. -/
def ChunkHeader.coveredBytes (h : ChunkHeader) : List UInt8 :=
  h.toBytes.take 24 ++ (h.toBytes.drop 28).take 1

theorem coveredBytes_eq (h : ChunkHeader) :
    h.coveredBytes = (leBytes 8 h.generation.toNat ++
      (leBytes 8 h.ownerThread.toNat ++ leBytes 8 h.claimMonoNs.toNat)) ++ [h.chunkSizeClass] := by
  have hclass : leBytes 1 h.chunkSizeClass.toNat = [h.chunkSizeClass] := by
    show [UInt8.ofNat h.chunkSizeClass.toNat] = _
    rw [UInt8.ofNat_toNat]
  have hsplit : h.toBytes = (leBytes 8 h.generation.toNat ++ (leBytes 8 h.ownerThread.toNat ++
      leBytes 8 h.claimMonoNs.toNat)) ++ (leBytes 4 h.headerChecksum.toNat ++
      ([h.chunkSizeClass] ++ leBytes 3 0)) := by
    simp only [ChunkHeader.toBytes, hclass, List.append_assoc]
  have hlead : (leBytes 8 h.generation.toNat ++ (leBytes 8 h.ownerThread.toNat ++
      leBytes 8 h.claimMonoNs.toNat)).length = 24 := by simp
  have hbehind : (leBytes 4 h.headerChecksum.toNat).length = 4 := leBytes_length 4 _
  rw [ChunkHeader.coveredBytes, hsplit]
  generalize leBytes 8 h.generation.toNat ++ (leBytes 8 h.ownerThread.toNat ++
    leBytes 8 h.claimMonoNs.toNat) = lead at hlead ⊢
  rw [List.take_left' hlead, show 28 = lead.length + 4 by rw [hlead], List.drop_length_add_append,
    List.drop_left' hbehind]
  rfl

theorem coveredBytes_length (h : ChunkHeader) : h.coveredBytes.length = 25 := by
  rw [coveredBytes_eq]
  simp

/-- The two calls of `computeChunkHeaderChecksum` are one over the covered bytes. -/
theorem checksum_covered (h : ChunkHeader) :
    h.checksum = if crc32 0#32 h.coveredBytes = 0#32 then 1#32 else crc32 0#32 h.coveredBytes := by
  unfold ChunkHeader.checksum computeChunkHeaderChecksum
  simp only
  rw [crc32_crc32, ← coveredBytes_eq]

theorem crc32_serial (crc : BitVec 32) (data : List UInt8) :
    crc32 crc data = crc32Bitwise crc data := by
  rw [crc32_eq_run, Crc.run_eq_serial crc32Polynomial (by decide)]
  rfl

/-- **The nibble table is CRC-32.** For every seed, every byte string and every cut of it,
and for every chunk header. -/
theorem crc32_eq_bitwise (seed : BitVec 32) (xs ys : List UInt8) (h : ChunkHeader) :
    crc32 seed xs = crc32Bitwise seed xs ∧
      crc32 (crc32 seed xs) ys = crc32 seed (xs ++ ys) ∧
      h.coveredBytes.length = 25 ∧
      computeChunkHeaderChecksum h.generation h.ownerThread h.claimMonoNs h.chunkSizeClass =
        if crc32Bitwise 0#32 h.coveredBytes = 0#32 then 1#32
        else crc32Bitwise 0#32 h.coveredBytes := by
  refine ⟨crc32_serial seed xs, crc32_crc32 seed xs ys, coveredBytes_length h, ?_⟩
  rw [← crc32_serial]
  exact checksum_covered h

/-- The check value every description of CRC-32 gives: that of the digits one to nine. -/
example : crc32 0#32 [0x31, 0x32, 0x33, 0x34, 0x35, 0x36, 0x37, 0x38, 0x39] = 0xCBF43926#32 := by
  decide +kernel

end Sub0Log.Wire
