import Sub0Log.Reader.Decoder

/-!
# What the typed layer computes

The parsers of `Decoder` as plain functions of their payload: `counted`, `argsAt`,
`siteDefinition`, `subsystemDefinition` and `message`. Each says in one comparison
which lengths must fit, and each `…_eq` lemma says that the checked parser returns
it, so no access of a parser leaves its payload.

`definitions` lists the well-formed site definitions of a stream in order;
`siteFor (definitions records)` is the first of an id.
-/

open Bytes Checked

namespace Sub0Log.Reader

open Wire

/-! ### Counted bytes and arguments -/

/-- The bytes counted by the `u16` at `offset`, if both fit, and the offset behind. -/
def counted (payload : List UInt8) (offset : Nat) : Option (List UInt8 × Nat) :=
  if offset + 2 + field payload offset 2 ≤ payload.length then
    some ((payload.drop (offset + 2)).take (field payload offset 2),
      offset + 2 + field payload offset 2)
  else none

theorem counted_some {payload : List UInt8} {offset next : Nat} {bytes : List UInt8}
    (h : counted payload offset = some (bytes, next)) :
    offset ≤ next ∧ next ≤ payload.length := by
  unfold counted at h
  split at h
  · cases h
    exact ⟨by omega, by assumption⟩
  · cases h

theorem readCounted_eq {payload : List UInt8} {offset : Nat} (h : offset ≤ payload.length) :
    readCounted payload offset = .ok (counted payload offset) := by
  unfold readCounted
  rw [sub64_eq h]
  simp only [ok_bind]
  by_cases hlen : 2 > payload.length - offset
  · rw [if_pos hlen, counted, if_neg (by omega)]
    rfl
  rw [if_neg hlen, Checked.read_eq (by omega)]
  simp only [ok_bind]
  have hfield : leNat ((payload.drop offset).take 2) = field payload offset 2 := rfl
  rw [sub64_eq (by omega), hfield]
  simp only [ok_bind]
  by_cases hfit : field payload offset 2 > payload.length - (offset + 2)
  · rw [if_pos hfit, counted, if_neg (by omega)]
    rfl
  · rw [if_neg hfit, Checked.read_eq (by omega), counted, if_pos (by omega)]
    rfl

/-- One argument, if it fits, and the offset behind it. -/
def argAt (payload : List UInt8) (code : TypeCode) (offset : Nat) : Option (DecodedArg × Nat) :=
  if code = .bytes then (counted payload offset).map fun (value, next) => (.bytes value, next)
  else if fixedSizeOf code ≠ 0 ∧ offset + fixedSizeOf code ≤ payload.length then
    some (decodeFixedArg code ((payload.drop offset).take (fixedSizeOf code)),
      offset + fixedSizeOf code)
  else none

theorem argAt_some {payload : List UInt8} {code : TypeCode} {offset next : Nat}
    {arg : DecodedArg} (h : argAt payload code offset = some (arg, next)) :
    next ≤ payload.length ∧ (code = .bytes → ∃ value, arg = .bytes value) := by
  unfold argAt at h
  split at h
  · obtain ⟨⟨value, next'⟩, hcounted, heq⟩ := Option.map_eq_some_iff.mp h
    cases heq
    exact ⟨(counted_some hcounted).2, fun _ => ⟨value, rfl⟩⟩
  · split at h
    · cases h
      exact ⟨by omega, fun hcode => absurd hcode ‹_›⟩
    · cases h

theorem decodeArg_eq {payload : List UInt8} {code : TypeCode} {offset : Nat}
    (h : offset ≤ payload.length) :
    decodeArg payload code offset = .ok (argAt payload code offset) := by
  unfold decodeArg argAt
  by_cases hcode : code = .bytes
  · rw [if_pos hcode, if_pos hcode, readCounted_eq h]
    rfl
  rw [if_neg hcode, if_neg hcode, sub64_eq h]
  simp only [ok_bind]
  by_cases hsz : fixedSizeOf code = 0 ∨ fixedSizeOf code > payload.length - offset
  · rw [if_pos hsz, if_neg (by omega)]
    rfl
  · rw [if_neg hsz, if_pos (by omega), Checked.read_eq (by omega)]
    rfl

/-- The arguments of the given type codes from `offset` on, if they all fit. -/
def argsAt (payload : List UInt8) : List TypeCode → (offset : Nat) → Option (List DecodedArg)
  | [], _ => some []
  | code :: codes, offset =>
    match argAt payload code offset with
    | none => none
    | some (arg, next) => (argsAt payload codes next).map (arg :: ·)

theorem decodeArgs_eq {payload : List UInt8} {codes : List TypeCode} {offset : Nat}
    (h : offset ≤ payload.length) :
    decodeArgs payload codes offset = .ok (argsAt payload codes offset) := by
  induction codes generalizing offset with
  | nil => rfl
  | cons code codes ih =>
    unfold decodeArgs argsAt
    rw [decodeArg_eq h]
    simp only [ok_bind]
    cases harg : argAt payload code offset with
    | none => rfl
    | some found =>
      obtain ⟨arg, next⟩ := found
      simp only
      rw [ih (argAt_some harg).1]
      rfl

/-- Decoded arguments follow the type codes: one each, and a string where the code is
Bytes. -/
theorem argsAt_some {payload : List UInt8} {codes : List TypeCode} {offset : Nat}
    {args : List DecodedArg} (h : argsAt payload codes offset = some args) :
    args.length = codes.length ∧
      ∀ idx : Nat, codes[idx]? = some .bytes → ∃ value, args[idx]? = some (.bytes value) := by
  induction codes generalizing offset args with
  | nil =>
    cases h
    exact ⟨rfl, fun idx hidx => by simp at hidx⟩
  | cons code codes ih =>
    unfold argsAt at h
    cases harg : argAt payload code offset with
    | none => rw [harg] at h; cases h
    | some found =>
      obtain ⟨arg, next⟩ := found
      rw [harg] at h
      obtain ⟨rest, hrest, rfl⟩ := Option.map_eq_some_iff.mp h
      obtain ⟨hlength, hbytes⟩ := ih hrest
      refine ⟨by rw [List.length_cons, List.length_cons, hlength], fun idx hidx => ?_⟩
      cases idx with
      | zero =>
        rw [List.getElem?_cons_zero, Option.some.injEq] at hidx
        obtain ⟨value, rfl⟩ := (argAt_some harg).2 hidx
        exact ⟨value, rfl⟩
      | succ idx =>
        rw [List.getElem?_cons_succ] at hidx ⊢
        exact hbytes idx hidx

/-! ### Definitions -/

/-- The fixed part of a site definition. -/
def siteFixed (payload : List UInt8) : SiteDefinitionPayload :=
  SiteDefinitionPayload.ofBytes (payload.take sizeofSiteDefinitionPayload)

/-- The site a definition describes: the fixed part, its type codes and the two counted
strings must fit. -/
def siteDefinition (payload : List UInt8) : Option DecodedSite :=
  let fixed := siteFixed payload
  let offset := sizeofSiteDefinitionPayload + fixed.argCount.toNat
  if offset ≤ payload.length then
    match counted payload offset with
    | none => none
    | some (format, next) =>
      match counted payload next with
      | none => none
      | some (file, _) =>
        some ⟨fixed.siteId, fixed.subsystemId, fixed.severity, fixed.line, format, file,
          ((payload.drop sizeofSiteDefinitionPayload).take fixed.argCount.toNat).map
            TypeCode.ofByte⟩
  else none

theorem parseSiteDefinition_eq (payload : List UInt8) :
    parseSiteDefinition payload = .ok (siteDefinition payload) := by
  unfold parseSiteDefinition siteDefinition
  by_cases hsize : payload.length < sizeofSiteDefinitionPayload
  · rw [if_pos hsize, if_neg (by omega)]
    rfl
  have hfixed : SiteDefinitionPayload.ofBytes
      ((payload.drop 0).take sizeofSiteDefinitionPayload) = siteFixed payload := rfl
  rw [if_neg hsize, Checked.read_eq (by omega)]
  simp only [ok_bind, hfixed]
  rw [sub64_eq (by omega)]
  simp only [ok_bind]
  by_cases hcount : (siteFixed payload).argCount.toNat
      > payload.length - sizeofSiteDefinitionPayload
  · rw [if_pos hcount, if_neg (by omega)]
    rfl
  rw [if_neg hcount, if_pos (by omega), Checked.read_eq (by omega)]
  simp only [ok_bind]
  rw [readCounted_eq (by omega)]
  simp only [ok_bind]
  cases hformat : counted payload
      (sizeofSiteDefinitionPayload + (siteFixed payload).argCount.toNat) with
  | none => rfl
  | some found =>
    obtain ⟨format, next⟩ := found
    simp only
    rw [readCounted_eq (counted_some hformat).2]
    simp only [ok_bind]
    cases counted payload next with
    | none => rfl
    | some found => rfl

/-- The name a subsystem definition gives. -/
def subsystemDefinition (payload : List UInt8) : Option (UInt32 × List UInt8) :=
  let fixed := SubsystemDefinitionPayload.ofBytes (payload.take sizeofSubsystemDefinitionPayload)
  if sizeofSubsystemDefinitionPayload + fixed.nameLen.toNat ≤ payload.length then
    some (fixed.subsystemId,
      (payload.drop sizeofSubsystemDefinitionPayload).take fixed.nameLen.toNat)
  else none

theorem parseSubsystemDefinition_eq (payload : List UInt8) :
    parseSubsystemDefinition payload = .ok (subsystemDefinition payload) := by
  unfold parseSubsystemDefinition subsystemDefinition
  by_cases hsize : payload.length < sizeofSubsystemDefinitionPayload
  · rw [if_pos hsize, if_neg (by omega)]
    rfl
  rw [if_neg hsize, Checked.read_eq (by omega)]
  simp only [ok_bind, List.drop_zero]
  rw [sub64_eq (by omega)]
  simp only [ok_bind]
  generalize SubsystemDefinitionPayload.ofBytes
    (payload.take sizeofSubsystemDefinitionPayload) = fixed
  by_cases hlen : fixed.nameLen.toNat > payload.length - sizeofSubsystemDefinitionPayload
  · rw [if_pos hlen, if_neg (by omega)]
    rfl
  · rw [if_neg hlen, if_pos (by omega), Checked.read_eq (by omega)]
    rfl

/-! ### Messages -/

/-- The fixed part of a message. -/
def messageFixed (payload : List UInt8) : MessagePayload :=
  MessagePayload.ofBytes (payload.take sizeofMessagePayload)

/-- The record a Message decodes to under the given sites, before any Continuation. -/
def message (sites : List DecodedSite) (generation : UInt64) (v : RecordView) :
    Option DecodedRecord :=
  if sizeofMessagePayload ≤ v.payload.length then
    match siteFor sites (messageFixed v.payload).siteId with
    | none => none
    | some site =>
      (argsAt v.payload site.argTypes sizeofMessagePayload).map fun args =>
        { site, monoNs := (messageFixed v.payload).monoNs,
          correlationId := (messageFixed v.payload).correlationId,
          ownerThread := v.ownerThread, truncated := v.head.flags &&& cFlagTruncated != 0,
          args, segmentGeneration := generation, recordOffset := v.recordOffset }
  else none

theorem decodeMessage_eq (sites : List DecodedSite) (generation : UInt64) (v : RecordView) :
    PassTwo.decodeMessage sites generation v = .ok (message sites generation v) := by
  unfold PassTwo.decodeMessage message
  by_cases hsize : v.payload.length < sizeofMessagePayload
  · rw [if_pos hsize, if_neg (by omega)]
    rfl
  have hfixed : MessagePayload.ofBytes ((v.payload.drop 0).take sizeofMessagePayload) =
      messageFixed v.payload := rfl
  rw [if_neg hsize, if_pos (by omega), Checked.read_eq (by omega)]
  simp only [ok_bind, hfixed]
  cases siteFor sites (messageFixed v.payload).siteId with
  | none => rfl
  | some site =>
    simp only
    rw [decodeArgs_eq (by omega)]
    rfl

/-- A decoded message: its site, its arguments and its offset. -/
theorem message_some {sites : List DecodedSite} {generation : UInt64} {v : RecordView}
    {rec : DecodedRecord} (h : message sites generation v = some rec) :
    siteFor sites (messageFixed v.payload).siteId = some rec.site ∧
      argsAt v.payload rec.site.argTypes sizeofMessagePayload = some rec.args ∧
      rec.recordOffset = v.recordOffset := by
  unfold message at h
  split at h
  · split at h
    · cases h
    · obtain ⟨args, hargs, rfl⟩ := Option.map_eq_some_iff.mp h
      exact ⟨by assumption, hargs, rfl⟩
  · cases h

/-- Decoding a message looks at its site's definition only. -/
theorem message_congr {sites sites' : List DecodedSite} (generation : UInt64) (v : RecordView)
    (h : ∀ id, siteFor sites id = siteFor sites' id) :
    message sites generation v = message sites' generation v := by
  unfold message
  rw [h]

/-! ### The site table -/

/-- The well-formed site definition a record is, if it is one. -/
def definitionOf (v : RecordView) : Option DecodedSite :=
  if v.head.kind = .siteDefinition then siteDefinition v.payload else none

/-- The well-formed site definitions of a stream, in order. -/
def definitions (records : List RecordView) : List DecodedSite := records.filterMap definitionOf

theorem siteFor_append (sites sites' : List DecodedSite) (id : UInt64) :
    siteFor (sites ++ sites') id = (siteFor sites id).or (siteFor sites' id) := by
  unfold siteFor
  rw [List.find?_append]

theorem siteFor_single (site : DecodedSite) (id : UInt64) :
    siteFor [site] id = if site.siteId = id then some site else none := by
  unfold siteFor
  by_cases h : site.siteId = id
  · simp [h]
  · simp [h]

/-- Adding a site unless its id is known is, for every lookup, adding it. -/
theorem siteFor_tryEmplace (sites : List DecodedSite) (site : DecodedSite) (id : UInt64) :
    siteFor (if (siteFor sites site.siteId).isSome then sites else sites ++ [site]) id =
      siteFor (sites ++ [site]) id := by
  by_cases hknown : (siteFor sites site.siteId).isSome = true
  · rw [if_pos hknown, siteFor_append, siteFor_single]
    obtain ⟨first, hfirst⟩ := Option.isSome_iff_exists.mp hknown
    by_cases hid : site.siteId = id
    · subst hid
      rw [hfirst, Option.some_or]
    · rw [if_neg hid, Option.or_none]
  · rw [if_neg hknown]

end Sub0Log.Reader
