import Sub0Log.Producer.Encode

/-!
# The records a producer publishes

One publication is one store of a head word that makes something visible: a Message with
its whole chain, a site's definition or a subsystem's (`Written`). `Written.entries` says
which records it consists of in a chunk whose body has `capacity` bytes, and `Entry.bytes`
what they look like there. This is the target the writing code is checked against; the
code itself is in the modules after this one.

Two choices the writing code makes while it runs are functions of the arguments and the
capacity alone, since a record that fits the rest of a chunk fits an empty one: whether a
Message carries its chain (`Emission.chained`), and how much of a definition's strings is
kept (`SiteDefinition.lengths`).
-/

open Bytes

namespace Sub0Log.Producer

open Wire

/-! ### Records in a chunk -/

/-- One record as it lies in a chunk. -/
structure Entry where
  kind : RecordKind
  flags : UInt8
  sequence : UInt16
  payload : List UInt8

namespace Entry

def head (e : Entry) : RecordHead where
  payloadBytes := UInt16.ofNat e.payload.length
  kind := e.kind
  flags := e.flags
  sequence := e.sequence

/-- The bytes it takes, head word and padding included. -/
def size (e : Entry) : Nat := recordFootprint e.payload.length

/-- The record as it lies in memory; nothing is ever stored into the padding. -/
def bytes (e : Entry) : List UInt8 :=
  leBytes 8 e.head.pack ++
    (e.payload ++ List.replicate (paddedPayload e.payload.length - e.payload.length) 0)

/-- The head word can say how long the payload is and what it is. -/
structure Wf (e : Entry) : Prop where
  length_lt : e.payload.length < 2 ^ 16
  named : e.kind.Named

@[simp] theorem bytes_length (e : Entry) : e.bytes.length = e.size := by
  have h := le_paddedPayload e.payload.length
  simp only [bytes, size, recordFootprint, List.length_append, leBytes_length,
    List.length_replicate]
  omega

theorem size_pos (e : Entry) : 8 ≤ e.size := Nat.le_add_right _ _

theorem size_dvd (e : Entry) : 8 ∣ e.size :=
  Nat.dvd_add (Nat.dvd_refl 8) (dvd_paddedPayload _)

end Entry

/-- The records of a list, one behind the other. -/
def encode (es : List Entry) : List UInt8 := es.flatMap Entry.bytes

/-- The bytes a list of records takes. -/
def sizes (es : List Entry) : Nat := (es.map Entry.size).sum

@[simp] theorem encode_nil : encode [] = [] := rfl

theorem encode_cons (e : Entry) (es : List Entry) : encode (e :: es) = e.bytes ++ encode es := rfl

theorem encode_append (es es' : List Entry) : encode (es ++ es') = encode es ++ encode es' :=
  List.flatMap_append

@[simp] theorem sizes_nil : sizes [] = 0 := rfl

@[simp] theorem sizes_cons (e : Entry) (es : List Entry) :
    sizes (e :: es) = e.size + sizes es := rfl

theorem sizes_append (es es' : List Entry) : sizes (es ++ es') = sizes es + sizes es' := by
  unfold sizes
  rw [List.map_append, List.sum_append]

@[simp] theorem encode_length (es : List Entry) : (encode es).length = sizes es := by
  induction es with
  | nil => rfl
  | cons e es ih => rw [encode_cons, List.length_append, ih, Entry.bytes_length, sizes_cons]

theorem sizes_dvd (es : List Entry) : 8 ∣ sizes es := by
  induction es with
  | nil => exact Nat.dvd_zero 8
  | cons e es ih => exact Nat.dvd_add e.size_dvd ih

/-! ### Fit -/

/-- What `reserve` asks of a payload and an empty chunk's body. -/
def fitsEmpty (capacity payloadBytes : Nat) : Prop :=
  payloadBytes ≤ 0xFFFF ∧ recordFootprint payloadBytes ≤ capacity

instance (capacity payloadBytes : Nat) : Decidable (fitsEmpty capacity payloadBytes) :=
  inferInstanceAs (Decidable (_ ∧ _))

/-! ### Messages -/

/-- What one Message says. -/
structure Emission where
  siteId : UInt64
  monoNs : UInt64
  correlationId : UInt64
  args : List Arg
  deriving DecidableEq

namespace Emission

def payload (e : Emission) : List UInt8 :=
  (MessagePayload.mk e.siteId e.monoNs e.correlationId).toBytes ++ e.args.flatMap Arg.writeOne

@[simp] theorem payload_length (e : Emission) :
    e.payload.length = messagePayloadBytes e.args := by
  unfold payload messagePayloadBytes
  rw [List.length_append, MessagePayload.toBytes_length, List.length_flatMap]
  refine congrArg (fun l => sizeofMessagePayload + List.sum l) (List.map_congr_left ?_)
  exact fun a _ => a.writeOne_length

/-- The whole chain fits an empty chunk. -/
def chained (capacity : Nat) (e : Emission) : Bool :=
  decide (fitsEmpty capacity (messagePayloadBytes e.args)) &&
    decide (chainBytes e.args ≤ capacity)

/-- The Continuations that are written. -/
def slots (capacity : Nat) (e : Emission) : List ContinuationSlot :=
  if e.chained capacity then contSlots e.args else []

/-- Some argument lost bytes: the ceiling cut it, or the chain was given up. -/
def anyTruncated (capacity : Nat) (e : Emission) : Bool :=
  !e.chained capacity || e.args.any fun a => a.isBytes && a.overCeiling

/-- The flags of a Message. -/
def messageFlags (truncated continued : Bool) : UInt8 :=
  (if truncated then cFlagTruncated else 0) ||| (if continued then cFlagContinued else 0)

end Emission

/-- The payload of a Continuation. -/
def ContinuationSlot.payload (siteId : UInt64) (slot : ContinuationSlot) : List UInt8 :=
  (ContinuationPayload.mk siteId slot.argIndex).toBytes ++ slot.bytes

@[simp] theorem ContinuationSlot.payload_length (siteId : UInt64) (slot : ContinuationSlot) :
    (slot.payload siteId).length = continuationPayloadBytes slot := by
  unfold payload continuationPayloadBytes
  rw [List.length_append, ContinuationPayload.toBytes_length]

/-- The Continuations of a chain, the first with sequence number `sequence`; all but the
last promise another. -/
def continuationEntries (siteId : UInt64) : (sequence : UInt16) → List ContinuationSlot →
    List Entry
  | _, [] => []
  | sequence, slot :: rest =>
    ⟨.continuation, if rest = [] then 0 else cFlagContinued, sequence, slot.payload siteId⟩ ::
      continuationEntries siteId (sequence + 1) rest

theorem mem_continuationEntries {siteId : UInt64} {sequence : UInt16}
    {slots : List ContinuationSlot} {e : Entry} (h : e ∈ continuationEntries siteId sequence slots) :
    e.kind = .continuation := by
  induction slots generalizing sequence with
  | nil => cases h
  | cons slot rest ih =>
    rcases List.mem_cons.mp h with rfl | htail
    · rfl
    · exact ih htail

/-! ### Definitions -/

/-- `definitionPayloadBytes`. -/
def definitionPayloadBytes (argCount formatLen fileLen : Nat) : Nat :=
  sizeofSiteDefinitionPayload + argCount + 2 + formatLen + 2 + fileLen

/-- What `writeSiteDefinitionCore` is given. No call site carries four gigabytes of text,
so the source's 32-bit sum of the lengths does not wrap. -/
structure SiteDefinition where
  siteId : UInt64
  subsystem : UInt32
  severity : UInt8
  format : List UInt8
  file : List UInt8
  line : UInt32
  typeCodes : List UInt8
  typeCodes_le : typeCodes.length ≤ 255
  payload_lt : definitionPayloadBytes typeCodes.length format.length file.length < 2 ^ 32

namespace SiteDefinition

variable (d : SiteDefinition)

/-- The whole definition. -/
def wholeBytes : Nat :=
  definitionPayloadBytes d.typeCodes.length d.format.length d.file.length

/-- The lengths the two strings are cut to when even an empty chunk with `remaining` bytes
cannot take the whole definition, and whether either was cut. -/
def cutLengths (remaining : Nat) : Nat × Nat × Bool :=
  let emptyCapacity := min remaining 0xFFFF
  let fixedBytes := sizeofSiteDefinitionPayload + d.typeCodes.length + 4 + 8
  let available := emptyCapacity - fixedBytes
  let formatCap := available / 2
  let fileCap := available - formatCap
  (min d.format.length formatCap, min d.file.length fileCap,
    decide (formatCap < d.format.length) || decide (fileCap < d.file.length))

/-- The lengths that are written into a chunk of this capacity. -/
def lengths (capacity : Nat) : Nat × Nat × Bool :=
  if fitsEmpty capacity d.wholeBytes then (d.format.length, d.file.length, false)
  else d.cutLengths capacity

/-- The payload with the strings cut to the given lengths. -/
def payload (formatLen fileLen : Nat) : List UInt8 :=
  (SiteDefinitionPayload.mk d.siteId d.subsystem d.line d.severity
      (UInt8.ofNat d.typeCodes.length)).toBytes ++
    (d.typeCodes ++ (leBytes 2 formatLen ++ (d.format.take formatLen ++
      (leBytes 2 fileLen ++ d.file.take fileLen))))

theorem payload_length {formatLen fileLen : Nat} (hformat : formatLen ≤ d.format.length)
    (hfile : fileLen ≤ d.file.length) :
    (d.payload formatLen fileLen).length =
      definitionPayloadBytes d.typeCodes.length formatLen fileLen := by
  simp only [payload, List.length_append, SiteDefinitionPayload.toBytes_length, leBytes_length,
    List.length_take, Nat.min_eq_left hformat, Nat.min_eq_left hfile, definitionPayloadBytes]
  omega

/-- No string is lengthened. -/
theorem lengths_le (capacity : Nat) :
    (d.lengths capacity).1 ≤ d.format.length ∧ (d.lengths capacity).2.1 ≤ d.file.length := by
  unfold lengths cutLengths
  split
  · exact ⟨Nat.le_refl _, Nat.le_refl _⟩
  · exact ⟨Nat.min_le_left _ _, Nat.min_le_left _ _⟩

end SiteDefinition

/-- The payload of a subsystem's definition; the name was capped before. -/
def subsystemPayload (id : UInt32) (name : List UInt8) : List UInt8 :=
  (SubsystemDefinitionPayload.mk id (UInt16.ofNat name.length)).toBytes ++ name

/-! ### Publications -/

/-- What one publication makes visible. -/
inductive Written
  | message (e : Emission)
  | definition (d : SiteDefinition)
  | subsystem (id : UInt32) (name : List UInt8)

namespace Written

/-- The records of a publication, the first with sequence number `sequence`. -/
def entries (capacity : Nat) (sequence : UInt16) : Written → List Entry
  | message e =>
    ⟨.message,
      Emission.messageFlags (e.anyTruncated capacity) (decide (e.slots capacity ≠ [])),
      sequence, e.payload⟩ :: continuationEntries e.siteId (sequence + 1) (e.slots capacity)
  | definition d =>
    [⟨.siteDefinition, if (d.lengths capacity).2.2 then cFlagTruncated else 0, sequence,
      d.payload (d.lengths capacity).1 (d.lengths capacity).2.1⟩]
  | subsystem id name =>
    [⟨.subsystemDefinition, if cInlineBytesCap < name.length then cFlagTruncated else 0,
      sequence, subsystemPayload id (name.take cInlineBytesCap)⟩]

end Written

/-- The records of a chunk that holds these publications, from the `sequence`-th
reservation on. -/
def layout (capacity : Nat) : (sequence : Nat) → List Written → List Entry
  | _, [] => []
  | sequence, w :: ws =>
    w.entries capacity (UInt16.ofNat sequence) ++
      layout capacity (sequence + (w.entries capacity (UInt16.ofNat sequence)).length) ws

theorem layout_concat (capacity sequence : Nat) (ws : List Written) (w : Written) :
    layout capacity sequence (ws ++ [w]) =
      layout capacity sequence ws ++
        w.entries capacity (UInt16.ofNat (sequence + (layout capacity sequence ws).length)) := by
  induction ws generalizing sequence with
  | nil => simp [layout]
  | cons v ws ih =>
    rw [List.cons_append, layout, layout, ih, List.append_assoc, List.length_append,
      Nat.add_assoc]

end Sub0Log.Producer
