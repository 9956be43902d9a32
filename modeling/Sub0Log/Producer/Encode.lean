import Sub0Log.Wire.Payloads

/-!
# Sizing and encoding arguments

What `encode.hpp` does with an argument pack, and the arithmetic `detail/emit.hpp` does
before it reserves anything: the inline part of every Bytes argument, what overflows it,
the slices the overflow is cut into and the bytes the whole chain takes.

A pack is a list of `Arg`. What a template decides from the C++ type is decided here by
the constructor; an enum is its underlying integer, a floating-point value its bits, a
view the bytes it views, a C string the bytes at its pointer.
-/

open Bytes

namespace Sub0Log.Producer

open Wire

/-! ### Arguments -/

/-- One argument of a call site. The end of a C string's `text` stands for its
terminator, `none` for a null pointer. -/
inductive Arg
  | bool (value : Bool)
  | char (value : UInt8)
  | i8 (value : Int8)
  | u8 (value : UInt8)
  | i16 (value : Int16)
  | u16 (value : UInt16)
  | i32 (value : Int32)
  | u32 (value : UInt32)
  | i64 (value : Int64)
  | u64 (value : UInt64)
  | f32 (bits : UInt32)
  | f64 (bits : UInt64)
  | pointer (address : UInt64)
  | view (data : List UInt8)
  | cstring (text : Option (List UInt8))
  deriving DecidableEq

/-- `cArgCeiling`: the inline cap plus the most a chain carries. -/
def cArgCeiling : Nat := cInlineBytesCap * (1 + cMaxContinuations)

/-- How far a scan for the terminator gets, at most to `limit`. -/
def scanLength : (limit : Nat) → (text : List UInt8) → Nat
  | 0, _ => 0
  | _ + 1, [] => 0
  | limit + 1, c :: rest => if c = 0 then 0 else scanLength limit rest + 1

theorem scanLength_eq (limit : Nat) (text : List UInt8) :
    scanLength limit text = min limit (text.takeWhile (· ≠ 0)).length := by
  induction limit generalizing text with
  | zero => simp [scanLength]
  | succ limit ih =>
    cases text with
    | nil => simp [scanLength]
    | cons c rest =>
      by_cases hc : c = 0
      · simp [scanLength, hc]
      · rw [scanLength, if_neg hc, ih, List.takeWhile_cons_of_pos (by simpa using hc),
          List.length_cons]
        omega

namespace Arg

/-- `typeCodeFor`. -/
def typeCode : Arg → TypeCode
  | bool _ => .bool
  | char _ => .char
  | i8 _ => .i8
  | u8 _ => .u8
  | i16 _ => .i16
  | u16 _ => .u16
  | i32 _ => .i32
  | u32 _ => .u32
  | i64 _ => .i64
  | u64 _ => .u64
  | f32 _ => .f32
  | f64 _ => .f64
  | pointer _ => .pointer
  | view _ => .bytes
  | cstring _ => .bytes

/-- `ByteView`, `CStringLike` or `StringViewLike`. -/
def isBytes : Arg → Bool
  | view _ | cstring _ => true
  | _ => false

/-- The bytes a Bytes argument stands for. -/
def value : Arg → List UInt8
  | view data => data
  | cstring (some text) => text.takeWhile (· ≠ 0)
  | _ => []

/-- `fixedWireSize`. -/
def fixedWireSize : Arg → Nat
  | bool _ | char _ | i8 _ | u8 _ => 1
  | i16 _ | u16 _ => 2
  | i32 _ | u32 _ | f32 _ => 4
  | i64 _ | u64 _ | f64 _ | pointer _ => 8
  | view _ | cstring _ => 0

/-- `boundedLength`. -/
def boundedLength : Option (List UInt8) → Nat
  | none => 0
  | some text => scanLength cInlineBytesCap text

/-- `rawBytesOf`: the bytes from its pointer on, as many as its length says. -/
def rawBytesOf : Arg → List UInt8
  | view data => data
  | cstring (some text) => text.take (scanLength (cArgCeiling + 1) text)
  | _ => []

/-- `upperBoundOne`. -/
def upperBoundOne : Arg → Nat
  | view data => 2 + min data.length cInlineBytesCap
  | cstring text => 2 + boundedLength text
  | arg => arg.fixedWireSize

/-- `encodeFixedOne`: the bytes it writes. -/
def encodeFixedOne : Arg → List UInt8
  | bool value => leBytes 1 (if value then 1 else 0)
  | char value => leBytes 1 value.toNat
  | i8 value => leBytes 1 value.toUInt8.toNat
  | u8 value => leBytes 1 value.toNat
  | i16 value => leBytes 2 value.toUInt16.toNat
  | u16 value => leBytes 2 value.toNat
  | i32 value => leBytes 4 value.toUInt32.toNat
  | u32 value => leBytes 4 value.toNat
  | i64 value => leBytes 8 value.toUInt64.toNat
  | u64 value => leBytes 8 value.toNat
  | f32 bits => leBytes 4 bits.toNat
  | f64 bits => leBytes 8 bits.toNat
  | pointer address => leBytes 8 address.toNat
  | view _ | cstring _ => []

/-- The two size tables agree. -/
theorem fixedWireSize_eq (a : Arg) : a.fixedWireSize = fixedSizeOf a.typeCode := by
  cases a <;> rfl

theorem isBytes_iff (a : Arg) : a.isBytes = true ↔ a.typeCode = .bytes := by
  cases a <;> simp [isBytes, typeCode]

@[simp] theorem encodeFixedOne_length (a : Arg) :
    a.encodeFixedOne.length = a.fixedWireSize := by
  cases a <;> simp [encodeFixedOne, fixedWireSize]

/-- A scan reaches one byte past the ceiling, which tells a longer argument from one that
ends there. -/
theorem rawBytesOf_eq (a : Arg) :
    (a.rawBytesOf).take cArgCeiling = a.value.take cArgCeiling ∧
      (cArgCeiling < a.rawBytesOf.length ↔ cArgCeiling < a.value.length) := by
  cases a with
  | cstring text =>
    cases text with
    | none => simp [rawBytesOf, value]
    | some text =>
      -- the scan stops at the terminator or one byte past the ceiling
      have hpref : text.take (scanLength (cArgCeiling + 1) text) =
          (text.takeWhile (· ≠ 0)).take (cArgCeiling + 1) := by
        have heq : text.takeWhile (· ≠ 0) = text.take (text.takeWhile (· ≠ 0)).length :=
          List.prefix_iff_eq_take.mp (List.takeWhile_prefix _)
        conv_rhs => rw [heq]
        rw [scanLength_eq, List.take_take]
      simp only [rawBytesOf, value, hpref, List.take_take, List.length_take]
      refine ⟨?_, by omega⟩
      rw [Nat.min_eq_left (Nat.le_succ _)]
  | _ => simp [rawBytesOf, value]

/-! ### The inline part and the overflow -/

/-- The length `emitChained` works with: clamped at the ceiling. -/
def rawLen (a : Arg) : Nat := min a.rawBytesOf.length cArgCeiling

/-- The clamp cut real data. -/
def overCeiling (a : Arg) : Bool := decide (cArgCeiling < a.rawBytesOf.length)

/-- `inlineLen[i]`; `0` for a fixed-size argument. -/
def inlineLen (a : Arg) : Nat := if a.isBytes then min a.rawLen cInlineBytesCap else 0

/-- `overflowLen[i]`; `0` for a fixed-size argument. -/
def overflowLen (a : Arg) : Nat := if a.isBytes then a.rawLen - a.inlineLen else 0

/-- What the argument adds to `argsBytes`. -/
def inlineBytes (a : Arg) : Nat := if a.isBytes then 2 + a.inlineLen else a.fixedWireSize

/-- `writeOne`: the bytes an argument takes in the Message. -/
def writeOne (a : Arg) : List UInt8 :=
  if a.isBytes then leBytes 2 a.inlineLen ++ a.rawBytesOf.take a.inlineLen
  else a.encodeFixedOne

/-- The overflow: what is left of the argument behind its inline part. -/
def tail (a : Arg) : List UInt8 := (a.rawBytesOf.drop a.inlineLen).take a.overflowLen

theorem inlineLen_le (a : Arg) : a.inlineLen ≤ cInlineBytesCap := by
  unfold inlineLen
  split <;> omega

@[simp] theorem writeOne_length (a : Arg) : a.writeOne.length = a.inlineBytes := by
  unfold writeOne inlineBytes
  split
  · have hle : a.inlineLen ≤ a.rawBytesOf.length := by
      unfold inlineLen rawLen
      split <;> omega
    rw [List.length_append, leBytes_length, List.length_take, Nat.min_eq_left hle]
  · exact a.encodeFixedOne_length

@[simp] theorem tail_length (a : Arg) : a.tail.length = a.overflowLen := by
  unfold tail
  rw [List.length_take, List.length_drop, Nat.min_eq_left]
  unfold overflowLen rawLen
  split <;> omega

end Arg

/-- `cHasByteArg`. -/
def cHasByteArg (args : List Arg) : Bool := args.any Arg.isBytes

/-! ### `encodeArgs` -/

/-- `EncodeResult`, with the bytes written in place of their number. -/
structure EncodeResult where
  bytes : List UInt8
  truncated : Bool

/-- `encodeBytesOne`: what it writes, and whether a clamp cut real data. -/
def encodeBytesOne (capacityLeft : Nat) (data : List UInt8) : List UInt8 × Bool :=
  if capacityLeft < 2 then ([], decide (0 < data.length))
  else
    let cap := min cInlineBytesCap (capacityLeft - 2)
    let copyLen := min data.length cap
    (leBytes 2 copyLen ++ data.take copyLen, decide (copyLen < data.length))

/-- One step of `encodeArgs`. -/
def encodeOne (capacity : Nat) (r : EncodeResult) (a : Arg) : EncodeResult :=
  let left := capacity - r.bytes.length
  match a with
  | .view data =>
    let (bytes, cut) := encodeBytesOne left data
    ⟨r.bytes ++ bytes, r.truncated || cut⟩
  | .cstring text =>
    let (bytes, cut) := encodeBytesOne left ((text.getD []).take (Arg.boundedLength text))
    ⟨r.bytes ++ bytes, r.truncated || cut⟩
  | a => ⟨r.bytes ++ a.encodeFixedOne, r.truncated⟩

def encodeArgs (capacity : Nat) (args : List Arg) : EncodeResult :=
  args.foldl (encodeOne capacity) ⟨[], false⟩

/-- `upperBoundSize`. -/
def upperBoundSize (args : List Arg) : Nat := (args.map Arg.upperBoundOne).sum

/-- A pack of fixed-size arguments, as both paths of `emitRecord` would encode it. -/
theorem encodeArgs_fixed (capacity : Nat) {args : List Arg} (h : cHasByteArg args = false) :
    encodeArgs capacity args = ⟨args.flatMap Arg.writeOne, false⟩ ∧
      upperBoundSize args = (args.map Arg.inlineBytes).sum := by
  have hgo : ∀ (args : List Arg) (r : EncodeResult), (∀ a ∈ args, a.isBytes = false) →
      args.foldl (encodeOne capacity) r = ⟨r.bytes ++ args.flatMap Arg.writeOne, r.truncated⟩ ∧
        upperBoundSize args = (args.map Arg.inlineBytes).sum := by
    intro args
    induction args with
    | nil => intro r _; simp [upperBoundSize]
    | cons a args ih =>
      intro r hfixed
      have ha : a.isBytes = false := hfixed a List.mem_cons_self
      have hone : encodeOne capacity r a = ⟨r.bytes ++ a.writeOne, r.truncated⟩ ∧
          a.upperBoundOne = a.inlineBytes := by
        cases a with
        | view | cstring => cases ha
        | _ => exact ⟨rfl, rfl⟩
      obtain ⟨hfold, hsum⟩ := ih ⟨r.bytes ++ a.writeOne, r.truncated⟩
        fun b hb => hfixed b (List.mem_cons_of_mem _ hb)
      refine ⟨?_, ?_⟩
      · rw [List.foldl_cons, hone.1, hfold, List.flatMap_cons, List.append_assoc]
      · unfold upperBoundSize at hsum ⊢
        rw [List.map_cons, List.map_cons, List.sum_cons, List.sum_cons, hone.2, hsum]
  have hfixed : ∀ a ∈ args, a.isBytes = false := by
    simpa [cHasByteArg, List.any_eq_false] using h
  exact hgo args ⟨[], false⟩ hfixed

/-! ### Chains -/

/-- `recordFootprint`: the head word and the padded payload. -/
def recordFootprint (payloadBytes : Nat) : Nat := 8 + paddedPayload payloadBytes

/-- The slices an overflow is cut into. -/
def slices (tail : List UInt8) : List (List UInt8) :=
  if tail = [] then []
  else tail.take cInlineBytesCap :: slices (tail.drop cInlineBytesCap)
termination_by tail.length
decreasing_by
  have hpos : 0 < tail.length := List.length_pos_iff.mpr ‹_›
  rw [List.length_drop]
  unfold cInlineBytesCap
  omega

/-- One Continuation of a chain: which argument it extends, and with what. -/
structure ContinuationSlot where
  argIndex : UInt8
  bytes : List UInt8

/-- The Continuations of a pack, argument by argument. -/
def contSlots (args : List Arg) : List ContinuationSlot :=
  args.zipIdx.flatMap fun (a, i) =>
    (slices a.tail).map fun bytes => ⟨UInt8.ofNat i, bytes⟩

/-- `messagePayloadBytes`. -/
def messagePayloadBytes (args : List Arg) : Nat :=
  sizeofMessagePayload + (args.map Arg.inlineBytes).sum

/-- The payload of a Continuation. -/
def continuationPayloadBytes (slot : ContinuationSlot) : Nat :=
  sizeofContinuationPayload + slot.bytes.length

/-- `needed`: what the whole chain takes in one chunk. -/
def chainBytes (args : List Arg) : Nat :=
  recordFootprint (messagePayloadBytes args)
    + ((contSlots args).map fun slot => recordFootprint (continuationPayloadBytes slot)).sum

theorem slices_nil : slices [] = [] := by rw [slices, if_pos rfl]

theorem slices_of_ne {tail : List UInt8} (h : tail ≠ []) :
    slices tail = tail.take cInlineBytesCap :: slices (tail.drop cInlineBytesCap) := by
  rw [slices, if_neg h]

/-- The slices put together are the overflow. -/
theorem slices_flatten (tail : List UInt8) : (slices tail).flatten = tail := by
  fun_induction slices tail with
  | case1 => rfl
  | case2 tail h ih => rw [List.flatten_cons, ih, List.take_append_drop]

theorem mem_slices {tail s : List UInt8} (h : s ∈ slices tail) :
    0 < s.length ∧ s.length ≤ cInlineBytesCap := by
  fun_induction slices tail with
  | case1 => cases h
  | case2 tail hne ih =>
    rcases List.mem_cons.mp h with rfl | hrest
    · have hpos : 0 < tail.length := List.length_pos_iff.mpr hne
      rw [List.length_take]
      unfold cInlineBytesCap
      omega
    · exact ih hrest

/-- As many slices as are started. -/
theorem slices_length_le {tail : List UInt8} {n : Nat} (h : tail.length ≤ cInlineBytesCap * n) :
    (slices tail).length ≤ n := by
  fun_induction slices tail generalizing n with
  | case1 => exact Nat.zero_le n
  | case2 tail hne ih =>
    have hpos : 0 < tail.length := List.length_pos_iff.mpr hne
    obtain _ | n := n
    · omega
    · refine Nat.succ_le_succ (ih ?_)
      rw [List.length_drop]
      rw [Nat.mul_succ] at h
      omega

/-- What the ceiling leaves overflows into `cMaxContinuations` slices at most. -/
theorem overflowLen_le (a : Arg) : a.overflowLen ≤ cInlineBytesCap * cMaxContinuations := by
  have hceiling : cArgCeiling = cInlineBytesCap + cInlineBytesCap * cMaxContinuations := rfl
  unfold Arg.overflowLen Arg.inlineLen Arg.rawLen
  split <;> omega

/-- The bound of the slot array of `emitChained` is never met. -/
theorem contSlots_length_le (args : List Arg) :
    (contSlots args).length ≤ args.length * cMaxContinuations := by
  unfold contSlots
  rw [List.length_flatMap]
  refine le_trans (List.sum_le_card_nsmul _ cMaxContinuations fun n hn => ?_) ?_
  · obtain ⟨⟨a, i⟩, -, rfl⟩ := List.mem_map.mp hn
    rw [List.length_map]
    exact slices_length_le (by rw [a.tail_length]; exact overflowLen_le a)
  · rw [List.length_map, List.length_zipIdx, smul_eq_mul]

theorem mem_contSlots {args : List Arg} {slot : ContinuationSlot} (h : slot ∈ contSlots args) :
    slot.bytes.length ≤ cInlineBytesCap := by
  unfold contSlots at h
  obtain ⟨⟨a, i⟩, -, hslot⟩ := List.mem_flatMap.mp h
  obtain ⟨bytes, hbytes, rfl⟩ := List.mem_map.mp hslot
  exact (mem_slices hbytes).2

/-- A pack of fixed-size arguments has no Continuations. -/
theorem contSlots_fixed {args : List Arg} (h : cHasByteArg args = false) :
    contSlots args = [] := by
  refine List.flatMap_eq_nil_iff.mpr ?_
  rintro ⟨a, i⟩ ha
  have hmem : a ∈ args := (List.mem_zipIdx' ha).2 ▸ List.getElem_mem _
  have hfixed : a.isBytes = false := by
    have hall := List.any_eq_false.mp h a hmem
    simpa using hall
  have htail : a.tail = [] := by
    refine List.length_eq_zero_iff.mp ?_
    rw [a.tail_length]
    unfold Arg.overflowLen
    rw [hfixed]
    rfl
  simp only [htail, slices_nil, List.map_nil]

end Sub0Log.Producer
