import Sub0Log.Producer.Record
import Sub0Log.Reader.Typed

/-!
# Payloads, written and read back

What the decoder's parsers return on the payloads the producer lays down: a Message's
arguments (`argsAt_flatMap`), a Message (`message_entry`), a site's definition
(`siteDefinition_payload`). Encoder and decoder share no layout code, so each lemma here
compares two independent descriptions of the same bytes: sizes come from the encoder's
constructors on one side and from the type codes on the other.
-/

open Bytes

namespace Sub0Log.System

open Wire Reader Producer

/-! ### Arguments -/

/-- The argument a decoder returns when `limit` bytes of a Bytes argument were kept: a
fixed value widened to the alternative of its type code. -/
def shownArg (limit : Nat) : Arg → DecodedArg
  | .bool value => .bool value
  | .char value => .char value
  | .i8 value => .i64 value.toInt64
  | .u8 value => .u64 value.toUInt64
  | .i16 value => .i64 value.toInt64
  | .u16 value => .u64 value.toUInt64
  | .i32 value => .i64 value.toInt64
  | .u32 value => .u64 value.toUInt64
  | .i64 value => .i64 value
  | .u64 value => .u64 value
  | .f32 bits => .f64 (widenF32 bits)
  | .f64 bits => .f64 bits
  | .pointer address => .u64 address
  | a@(.view _) | a@(.cstring _) => .bytes (a.value.take limit)

theorem shownArg_bytes {a : Arg} (h : a.isBytes = true) (limit : Nat) :
    shownArg limit a = .bytes (a.value.take limit) := by
  cases a with
  | view | cstring => rfl
  | _ => cases h

theorem leNat_leBytes_u8 (x : UInt8) : UInt8.ofNat (leNat (leBytes 1 x.toNat)) = x := by
  rw [leNat_leBytes, u8_field]

theorem leNat_leBytes_u16 (x : UInt16) : UInt16.ofNat (leNat (leBytes 2 x.toNat)) = x := by
  rw [leNat_leBytes, u16_field]

theorem leNat_leBytes_u32 (x : UInt32) : UInt32.ofNat (leNat (leBytes 4 x.toNat)) = x := by
  rw [leNat_leBytes, u32_field]

theorem leNat_leBytes_u64 (x : UInt64) : UInt64.ofNat (leNat (leBytes 8 x.toNat)) = x := by
  rw [leNat_leBytes, u64_field]

/-- A fixed-size argument is read back as it was written. -/
theorem decodeFixedArg_encode {a : Arg} (h : a.isBytes = false) (limit : Nat) :
    decodeFixedArg a.typeCode a.encodeFixedOne = shownArg limit a := by
  cases a with
  | bool value => cases value <;> rfl
  | view | cstring => cases h
  | _ =>
    simp only [Arg.typeCode, Arg.encodeFixedOne, decodeFixedArg, shownArg, leNat_leBytes_u8,
      leNat_leBytes_u16, leNat_leBytes_u32, leNat_leBytes_u64, Int8.toInt8_toUInt8,
      Int16.toInt16_toUInt16, Int32.toInt32_toUInt32, Int64.toInt64_toUInt64]

/-- Counted bytes, somewhere in a payload. -/
theorem counted_here {pre bytes rest : List UInt8} {n : Nat} (hn : bytes.length = n)
    (hlt : n < 2 ^ 16) :
    counted (pre ++ (leBytes 2 n ++ (bytes ++ rest))) pre.length =
      some (bytes, pre.length + 2 + n) := by
  have hfield : field (pre ++ (leBytes 2 n ++ (bytes ++ rest))) pre.length 2 = n := by
    rw [field_skip (Nat.le_refl _), Nat.sub_self, field_here]
    exact Nat.mod_eq_of_lt hlt
  have hdrop : (pre ++ (leBytes 2 n ++ (bytes ++ rest))).drop (pre.length + 2) =
      bytes ++ rest := by
    rw [← List.append_assoc pre, List.drop_left']
    rw [List.length_append, leBytes_length]
  unfold counted
  rw [hfield, if_pos (by simp only [List.length_append, leBytes_length]; omega), hdrop,
    List.take_left' hn]

/-- The inline part of a Bytes argument. -/
theorem take_inlineLen {a : Arg} (h : a.isBytes = true) :
    a.rawBytesOf.take a.inlineLen = a.value.take cInlineBytesCap := by
  obtain ⟨htake, -⟩ := a.rawBytesOf_eq
  have hcap : cInlineBytesCap ≤ cArgCeiling := by decide
  -- below the ceiling the bytes that are read are the value's
  have hinline : a.rawBytesOf.take a.inlineLen = (a.rawBytesOf.take cArgCeiling).take
      cInlineBytesCap := by
    unfold Arg.inlineLen Arg.rawLen
    rw [if_pos h, List.take_take, Nat.min_assoc, Nat.min_comm a.rawBytesOf.length,
      Nat.min_eq_right hcap, Nat.min_eq_left hcap]
    exact List.take_eq_take_min.symm
  rw [hinline, htake, List.take_take, Nat.min_eq_left hcap]

/-- The inline part and the overflow are the argument, up to the ceiling. -/
theorem take_inlineLen_tail {a : Arg} (h : a.isBytes = true) :
    a.rawBytesOf.take a.inlineLen ++ a.tail = a.value.take cArgCeiling := by
  obtain ⟨htake, -⟩ := a.rawBytesOf_eq
  have hle : a.inlineLen ≤ a.rawLen := by
    unfold Arg.inlineLen
    rw [if_pos h]
    exact Nat.min_le_left _ _
  have hoverflow : a.inlineLen + a.overflowLen = a.rawLen := by
    unfold Arg.overflowLen
    rw [if_pos h]
    omega
  unfold Arg.tail
  rw [← List.take_add, hoverflow, ← htake]
  unfold Arg.rawLen
  rw [Nat.min_comm]
  exact List.take_eq_take_min.symm

/-- One argument is read back from where it was written. -/
theorem argAt_writeOne (pre rest : List UInt8) (a : Arg) :
    argAt (pre ++ (a.writeOne ++ rest)) a.typeCode pre.length =
      some (shownArg cInlineBytesCap a, pre.length + a.inlineBytes) := by
  by_cases hbytes : a.isBytes = true
  · have hcode : a.typeCode = .bytes := a.isBytes_iff.mp hbytes
    have hlength : (a.rawBytesOf.take a.inlineLen).length = a.inlineLen := by
      have hwrite := a.writeOne_length
      unfold Arg.writeOne Arg.inlineBytes at hwrite
      rw [if_pos hbytes, if_pos hbytes, List.length_append, leBytes_length] at hwrite
      omega
    have hlt : a.inlineLen < 2 ^ 16 := lt_of_le_of_lt a.inlineLen_le (by decide)
    unfold argAt Arg.writeOne Arg.inlineBytes
    rw [if_pos hcode, if_pos hbytes, if_pos hbytes, List.append_assoc,
      counted_here hlength hlt, take_inlineLen hbytes, shownArg_bytes hbytes, ← Nat.add_assoc]
    rfl
  · have hfixed : a.isBytes = false := by simpa using hbytes
    have hcode : a.typeCode ≠ .bytes := fun h => hbytes (a.isBytes_iff.mpr h)
    have hsize : fixedSizeOf a.typeCode = a.encodeFixedOne.length := by
      rw [a.encodeFixedOne_length, a.fixedWireSize_eq]
    have hpos : fixedSizeOf a.typeCode ≠ 0 := by
      cases a with
      | view | cstring => exact absurd rfl hcode
      | _ => exact Nat.succ_ne_zero _
    have hle : pre.length + fixedSizeOf a.typeCode ≤
        (pre ++ (a.encodeFixedOne ++ rest)).length := by
      rw [List.length_append, List.length_append, hsize]
      omega
    unfold argAt Arg.writeOne Arg.inlineBytes
    rw [if_neg hcode, if_neg hbytes, if_neg hbytes, if_pos ⟨hpos, hle⟩, List.drop_left' rfl,
      hsize, List.take_left' rfl, decodeFixedArg_encode hfixed cInlineBytesCap,
      a.encodeFixedOne_length]

/-- The arguments of a Message are read back in order. -/
theorem argsAt_flatMap (pre : List UInt8) (args : List Arg) :
    argsAt (pre ++ args.flatMap Arg.writeOne) (args.map Arg.typeCode) pre.length =
      some (args.map (shownArg cInlineBytesCap)) := by
  induction args generalizing pre with
  | nil => rfl
  | cons a args ih =>
    have hrest := ih (pre ++ a.writeOne)
    rw [List.length_append, a.writeOne_length, List.append_assoc] at hrest
    rw [List.flatMap_cons, List.map_cons, List.map_cons, argsAt, argAt_writeOne]
    simp only [hrest, Option.map_some]

/-! ### Definitions -/

/-- The site a definition describes when its strings are cut to these lengths. -/
def shownSite (d : SiteDefinition) (formatLen fileLen : Nat) : DecodedSite where
  siteId := d.siteId
  subsystem := d.subsystem
  severity := d.severity
  line := d.line
  format := d.format.take formatLen
  file := d.file.take fileLen
  argTypes := d.typeCodes.map TypeCode.ofByte

/-- A definition is read back with the strings it was given. -/
theorem siteDefinition_payload (d : SiteDefinition) {formatLen fileLen : Nat}
    (hformat : formatLen ≤ d.format.length) (hfile : fileLen ≤ d.file.length)
    (hformat' : formatLen < 2 ^ 16) (hfile' : fileLen < 2 ^ 16) :
    siteDefinition (d.payload formatLen fileLen) = some (shownSite d formatLen fileLen) := by
  have hcodes : (UInt8.ofNat d.typeCodes.length).toNat = d.typeCodes.length := by
    rw [UInt8.toNat_ofNat', Nat.mod_eq_of_lt (lt_of_le_of_lt d.typeCodes_le (by decide))]
  have hlength := d.payload_length hformat hfile
  generalize hfixed : SiteDefinitionPayload.mk d.siteId d.subsystem d.line d.severity
    (UInt8.ofNat d.typeCodes.length) = fixed at hlength
  have hfixedLength : fixed.toBytes.length = sizeofSiteDefinitionPayload :=
    fixed.toBytes_length
  have hpayload : d.payload formatLen fileLen = fixed.toBytes ++ (d.typeCodes ++
      (leBytes 2 formatLen ++ (d.format.take formatLen ++
        (leBytes 2 fileLen ++ (d.file.take fileLen ++ []))))) := by
    unfold SiteDefinition.payload
    rw [hfixed, List.append_nil]
  have hsiteFixed : siteFixed (d.payload formatLen fileLen) = fixed := by
    unfold siteFixed
    rw [hpayload, List.take_left' hfixedLength, SiteDefinitionPayload.ofBytes_toBytes]
  have hcount : fixed.argCount.toNat = d.typeCodes.length := by
    rw [← hfixed]
    exact hcodes
  -- the two strings, one behind the other
  have hfirst : counted (d.payload formatLen fileLen)
      (sizeofSiteDefinitionPayload + d.typeCodes.length) =
      some (d.format.take formatLen,
        sizeofSiteDefinitionPayload + d.typeCodes.length + 2 + formatLen) := by
    have h := @counted_here (fixed.toBytes ++ d.typeCodes) (d.format.take formatLen)
      (leBytes 2 fileLen ++ (d.file.take fileLen ++ [])) formatLen
      (by rw [List.length_take, Nat.min_eq_left hformat]) hformat'
    rwa [List.length_append, hfixedLength, List.append_assoc, ← hpayload] at h
  have hsecond : counted (d.payload formatLen fileLen)
      (sizeofSiteDefinitionPayload + d.typeCodes.length + 2 + formatLen) =
      some (d.file.take fileLen,
        sizeofSiteDefinitionPayload + d.typeCodes.length + 2 + formatLen + 2 + fileLen) := by
    have h := @counted_here
      (fixed.toBytes ++ (d.typeCodes ++ (leBytes 2 formatLen ++ d.format.take formatLen)))
      (d.file.take fileLen) [] fileLen (by rw [List.length_take, Nat.min_eq_left hfile]) hfile'
    simp only [List.length_append, hfixedLength, leBytes_length, List.length_take,
      Nat.min_eq_left hformat, List.append_assoc] at h
    rw [← hpayload] at h
    simp only [← Nat.add_assoc] at h
    exact h
  have hcodesAt : ((d.payload formatLen fileLen).drop sizeofSiteDefinitionPayload).take
      d.typeCodes.length = d.typeCodes := by
    rw [hpayload, List.drop_left' hfixedLength, List.take_left' rfl]
  have hle : sizeofSiteDefinitionPayload + d.typeCodes.length ≤
      (d.payload formatLen fileLen).length := by
    rw [hlength]
    unfold definitionPayloadBytes
    omega
  unfold siteDefinition
  simp only [hsiteFixed, hcount]
  rw [if_pos hle, hfirst]
  simp only
  rw [hsecond]
  simp only [hcodesAt, ← hfixed]
  rfl

/-- The type codes of a site's definition are read back as they are. -/
theorem map_ofByte_toByte {codes : List TypeCode} (h : ∀ c ∈ codes, c.Named) :
    (codes.map TypeCode.toByte).map TypeCode.ofByte = codes := by
  rw [List.map_map]
  refine (List.map_congr_left fun c hc => ?_).trans (List.map_id codes)
  exact TypeCode.ofByte_toByte (h c hc)

theorem typeCode_named (a : Arg) : a.typeCode.Named := by
  intro code
  cases a <;> exact fun h => by cases h

/-- A subsystem's name is read back. -/
theorem subsystemDefinition_payload (id : UInt32) {name : List UInt8}
    (h : name.length < 2 ^ 16) :
    subsystemDefinition (subsystemPayload id name) = some (id, name) := by
  have hlength : (UInt16.ofNat name.length).toNat = name.length := by
    rw [UInt16.toNat_ofNat', Nat.mod_eq_of_lt h]
  have hfixed := SubsystemDefinitionPayload.toBytes_length ⟨id, UInt16.ofNat name.length⟩
  unfold subsystemDefinition subsystemPayload
  rw [List.take_left' hfixed, SubsystemDefinitionPayload.ofBytes_toBytes]
  simp only [hlength]
  rw [if_pos (by rw [List.length_append, hfixed]), List.drop_left' hfixed, List.take_length]

/-! ### Messages -/

/-- The fixed part of a Message's payload. -/
theorem messageFixed_payload (e : Emission) :
    messageFixed e.payload = ⟨e.siteId, e.monoNs, e.correlationId⟩ := by
  unfold messageFixed Emission.payload
  rw [List.take_left' (MessagePayload.toBytes_length _), MessagePayload.ofBytes_toBytes]

/-- The arguments of a Message's payload. -/
theorem argsAt_payload (e : Emission) :
    argsAt e.payload (e.args.map Arg.typeCode) sizeofMessagePayload =
      some (e.args.map (shownArg cInlineBytesCap)) := by
  have h := argsAt_flatMap (MessagePayload.mk e.siteId e.monoNs e.correlationId).toBytes e.args
  rwa [MessagePayload.toBytes_length] at h

end Sub0Log.System
