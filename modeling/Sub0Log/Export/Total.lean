import Sub0Log.Cat.Follow
import Sub0Log.Export.Json
import Sub0Log.Reader.Timeline

/-!
# Exporting never throws on data

The exporter refuses a record whose arguments are not what its type codes say, and the filter
of `sub0log-cat` indexes the type codes by the place of an argument. Both rely on the decoder:
whatever the image holds, a decoded record has one argument for each code, of the alternative
the code prescribes, and no code that is none (`decodeAll_matching`). Joining a chain only
extends strings, so it keeps the alternatives.

**`export_total`** puts the three together.
-/

open Bytes Checked

namespace Sub0Log.Export

open Reader Wire

/-! ### Decoded records -/

/-- A fixed argument is of the alternative of its code. -/
theorem holds_decodeFixedArg {code : TypeCode} (hsize : fixedSizeOf code ≠ 0)
    (bs : List UInt8) : holds code (decodeFixedArg code bs) = true := by
  cases code <;> first
    | rfl
    | exact absurd rfl hsize

/-- The arguments that are read follow their codes. -/
theorem argsAt_holds {payload : List UInt8} {codes : List TypeCode} {offset : Nat}
    {args : List DecodedArg} (h : argsAt payload codes offset = some args) :
    List.Forall₂ (fun code arg => holds code arg = true) codes args := by
  induction codes generalizing offset args with
  | nil =>
    cases h
    exact List.Forall₂.nil
  | cons code codes ih =>
    unfold argsAt at h
    cases harg : argAt payload code offset with
    | none =>
      rw [harg] at h
      cases h
    | some found =>
      obtain ⟨arg, next⟩ := found
      rw [harg] at h
      obtain ⟨rest, hrest, rfl⟩ := Option.map_eq_some_iff.mp h
      refine List.Forall₂.cons ?_ (ih hrest)
      unfold argAt at harg
      split at harg
      · rename_i hcode
        obtain ⟨⟨value, next'⟩, -, heq⟩ := Option.map_eq_some_iff.mp harg
        cases heq
        rw [hcode]
        rfl
      · split at harg
        · rename_i hfit
          cases harg
          exact holds_decodeFixedArg hfit.1 _
        · cases harg

/-- A string that was extended is a string. -/
theorem holds_extends {code : TypeCode} {a b : DecodedArg} (h : holds code a = true)
    (hext : ArgExtends a b) : holds code b = true := by
  rcases hext with rfl | ⟨x, y, rfl, rfl⟩
  · exact h
  · cases code <;> first
      | rfl
      | exact absurd h Bool.false_ne_true

/-- A Message with its slices joined follows the codes of its site. -/
theorem matching_of_decodedFrom {sites : List DecodedSite} {generation : UInt64} {m : RecordView}
    {record : DecodedRecord} (h : DecodedFrom sites generation m record) : Matching record := by
  obtain ⟨-, base, hbase, hext⟩ := h
  have hargs := argsAt_holds (message_some hbase).2.1
  have hsite : record.site = base.site := by rw [hext.rest]
  unfold Matching
  rw [hsite]
  refine List.forall₂_iff_get.mpr ⟨hargs.length_eq.trans hext.length.symm, fun idx hcode harg => ?_⟩
  have hbaseArg : idx < base.args.length := hext.length ▸ harg
  obtain ⟨b, hb, hab⟩ := hext.args idx (base.args.get ⟨idx, hbaseArg⟩)
    (List.getElem?_eq_getElem hbaseArg)
  have hget : record.args.get ⟨idx, harg⟩ = b :=
    Option.some.inj ((List.getElem?_eq_getElem harg).symm.trans hb)
  rw [hget]
  exact holds_extends ((List.forall₂_iff_get.mp hargs).2 idx hcode hbaseArg) hab

/-- **Whatever a decoder returns follows the codes**, whatever it has read before. -/
theorem decodeAll_matching {d d' : Decoder} {reader : SegmentReader}
    {records : List DecodedRecord} (h : decodeAll d reader = .ok (records, d')) :
    ∀ record ∈ records, Matching record := by
  unfold decodeAll at h
  obtain ⟨v, -, h⟩ := bind_eq_ok h
  obtain ⟨d₁, -, h⟩ := bind_eq_ok h
  obtain ⟨v', -, h⟩ := bind_eq_ok h
  obtain ⟨s, htwo, h⟩ := bind_eq_ok h
  obtain ⟨s', htwo', hinv⟩ := foldlM_ok (f := PassTwo.step d₁.sites reader.header.generation)
    (motive := ChainInv d₁.sites reader.header.generation d₁.undecodable d₁.skipped)
    (b := PassTwo.start d₁) v'.records
    ⟨by simp [PassTwo.start], rfl, rfl, rfl, fun _ => rfl, by simp [PassTwo.start],
      by simp [PassTwo.start], by simp [PassTwo.start]⟩ step_inv
  obtain rfl : s' = s := Except.ok.inj (htwo'.symm.trans htwo)
  obtain ⟨rfl, -⟩ := Prod.mk.inj (Except.ok.inj h)
  intro record hrecord
  obtain ⟨m, -, hfrom⟩ := hinv.decoded record ((finish_facts hinv).2.subset hrecord)
  exact matching_of_decodedFrom hfrom

/-- The fourteen type codes. -/
def validCodes : List TypeCode :=
  [.bool, .i8, .u8, .i16, .u16, .i32, .u32, .i64, .u64, .f32, .f64, .char, .bytes, .pointer]

theorem mem_validCodes_of_holds {code : TypeCode} {arg : DecodedArg} (h : holds code arg = true) :
    code ∈ validCodes := by
  cases code <;> first
    | exact absurd h Bool.false_ne_true
    | decide

/-! ### The exporter -/

/-- The only exception left is a conversion of a number that fails. -/
def Converts {α : Type} (x : Except JsonError α) : Prop := ∀ e, x = .error e → e = .runtimeError

theorem Converts.ok {α : Type} (a : α) : Converts (.ok a : Except JsonError α) :=
  fun _ h => by cases h

theorem Converts.bind {α β : Type} {x : Except JsonError α} {f : α → Except JsonError β}
    (hx : Converts x) (hf : ∀ a, Converts (f a)) : Converts (x >>= f) := by
  intro e h
  cases hxe : x with
  | error e' =>
    rw [hxe] at h
    cases h
    exact hx _ hxe
  | ok a =>
    rw [hxe] at h
    exact hf a e h

theorem appendInteger_converts (digits10 : Nat) (out : List UInt8) (value : ℤ) :
    Converts (appendInteger digits10 out value) := by
  unfold appendInteger
  intro e h
  split at h
  · cases h
    rfl
  · cases h

theorem appendFloat_converts (chars : DoubleChars) (out : List UInt8) (bits : UInt64) :
    Converts (appendFloat chars out bits) := by
  unfold appendFloat
  intro e h
  split at h
  · cases h
  split at h
  · cases h
  split at h
  · cases h
  split at h
  · cases h
    rfl
  · cases h

theorem appendArgValue_converts (chars : DoubleChars) (out : List UInt8) {code : TypeCode}
    {arg : DecodedArg} (h : holds code arg = true) :
    Converts (appendArgValue chars out code arg) := by
  have hinteger : ∀ (digits10 : Nat) (value : ℤ), Converts (do
      let out ← appendInteger digits10 (out ++ literal "\"") value
      return out ++ literal "\"" : Except JsonError (List UInt8)) :=
    fun digits10 value => (appendInteger_converts _ _ _).bind fun _ => Converts.ok _
  cases arg <;> cases code <;> first
    | exact absurd h Bool.false_ne_true
    | exact Converts.ok _
    | exact hinteger _ _
    | exact appendFloat_converts _ _ _

theorem appendArgs_converts (chars : DoubleChars) (args : List (TypeCode × DecodedArg))
    (h : ∀ arg ∈ args, holds arg.1 arg.2 = true) (first : Bool) (out : List UInt8) :
    Converts (appendArgs chars first out args) := by
  induction args generalizing first out with
  | nil => exact Converts.ok _
  | cons arg rest ih =>
    obtain ⟨code, value⟩ := arg
    have hvalue : Converts (appendArg chars (if first then out else out ++ literal ",") code value) :=
      (appendInteger_converts _ _ _).bind fun _ =>
        (appendArgValue_converts chars _ (h _ List.mem_cons_self)).bind fun _ => Converts.ok _
    exact hvalue.bind fun out => ih (fun x hx => h x (List.mem_cons_of_mem _ hx)) false out

/-- A record that follows its codes is not refused. -/
theorem formatJson_converts (chars : DoubleChars) {entry : MergedRecord}
    (h : Matching entry.record) (subsystemName : List UInt8) :
    Converts (formatJson chars entry subsystemName) := by
  obtain ⟨hlength, hholds⟩ := List.forall₂_iff_zip.mp h
  have hargs := appendArgs_converts chars (entry.record.site.argTypes.zip entry.record.args)
    fun arg harg => hholds harg
  unfold formatJson
  simp only [hlength, ne_eq, not_true_eq_false, if_false]
  -- eleven integers, then the arguments
  refine (appendInteger_converts _ _ _).bind fun _ => ?_
  refine (appendInteger_converts _ _ _).bind fun _ => ?_
  refine (appendInteger_converts _ _ _).bind fun _ => ?_
  refine (appendInteger_converts _ _ _).bind fun _ => ?_
  refine (appendInteger_converts _ _ _).bind fun _ => ?_
  refine (appendInteger_converts _ _ _).bind fun _ => ?_
  refine (appendInteger_converts _ _ _).bind fun _ => ?_
  refine (appendInteger_converts _ _ _).bind fun _ => ?_
  refine (appendInteger_converts _ _ _).bind fun _ => ?_
  refine (appendInteger_converts _ _ _).bind fun _ => ?_
  refine (appendInteger_converts _ _ _).bind fun _ => ?_
  exact (hargs true _).bind fun _ => Converts.ok _

/-! ### The filter -/

/-- The argument `--arg-uint` asks for, with the access to the type codes checked. -/
def hasArgChecked (record : DecodedRecord) (index : Nat) (value : UInt64) : Checked Bool :=
  match record.args[index]? with
  | none => return false
  | some arg =>
    match record.site.argTypes[index]? with
    | none => .error .outOfBounds
    | some .u8 | some .u16 | some .u32 | some .u64 => return decide (arg = .u64 value)
    | some _ => return false

/-- `wanted`, with the access to the type codes checked. -/
def wantedChecked (o : Cat.Options) (record : DecodedRecord) : Checked Bool :=
  if Cat.atLeast record.site.severity o.minimum = false then return false
  else if (match o.correlation with
      | none => true
      | some id => decide (record.correlationId = id)) = false then return false
  else if (o.subsystems.isEmpty || o.subsystems.contains record.site.subsystem) = false then
    return false
  else
    match o.argUint with
    | none => return true
    | some (index, value) => hasArgChecked record index value

/-- With a code for every argument the access is inside the list. -/
theorem hasArgChecked_eq {record : DecodedRecord}
    (h : record.site.argTypes.length = record.args.length) (index : Nat) (value : UInt64) :
    hasArgChecked record index value = .ok (Cat.hasArg record index value) := by
  unfold hasArgChecked Cat.hasArg
  cases harg : record.args[index]? with
  | none => rfl
  | some arg =>
    obtain ⟨hlt, -⟩ := List.getElem?_eq_some_iff.mp harg
    have hcode : index < record.site.argTypes.length := h ▸ hlt
    rw [List.getElem?_eq_getElem hcode]
    generalize record.site.argTypes[index] = code
    cases code <;> rfl

theorem wantedChecked_eq {record : DecodedRecord}
    (h : record.site.argTypes.length = record.args.length) (o : Cat.Options) :
    wantedChecked o record = .ok (Cat.wanted o record) := by
  have hchain : ∀ (level correlation subsystem last : Bool) (x : Checked Bool), x = .ok last →
      (if level = false then return false
        else if correlation = false then return false
        else if subsystem = false then return false
        else x : Checked Bool) = .ok (level && correlation && subsystem && last) := by
    rintro (_ | _) (_ | _) (_ | _) last x rfl <;> rfl
  refine hchain _ _ _ _ _ ?_
  cases o.argUint with
  | none => rfl
  | some wanted => exact hasArgChecked_eq h wanted.1 wanted.2

/-! ### Every image -/

/-- **Exporting never throws on data.** -/
theorem export_total :
    (∀ (image : Image) (reader : SegmentReader) (d d' : Decoder) (records : List DecodedRecord),
      openImage image = .ok reader → decodeAll d reader = .ok (records, d') →
        ∀ record ∈ records, record.args.length = record.site.argTypes.length ∧
          (∀ code ∈ record.site.argTypes, code ∈ validCodes) ∧
          (∀ (idx : Nat) code arg, record.site.argTypes[idx]? = some code →
            record.args[idx]? = some arg → holds code arg = true) ∧
          ∀ o, wantedChecked o record = .ok (Cat.wanted o record)) ∧
      ∀ (images : List Image) (entries : List MergedRecord), timeline images = .ok entries →
        ∀ entry ∈ entries, ∀ (chars : DoubleChars) (subsystemName : List UInt8),
          formatJson chars entry subsystemName ≠ .error .invalidArgument ∧
            formatJson chars entry subsystemName ≠ .error .badVariantAccess := by
  constructor
  · intro image reader d d' records _ hdecode record hrecord
    have hmatching := decodeAll_matching hdecode record hrecord
    have hlength : record.site.argTypes.length = record.args.length := hmatching.length_eq
    refine ⟨hlength.symm, fun code hcode => ?_, fun idx code arg hcode harg => ?_,
      fun o => wantedChecked_eq hlength o⟩
    · obtain ⟨idx, hidx, hget⟩ := List.getElem_of_mem hcode
      have hholds := (List.forall₂_iff_get.mp hmatching).2 idx hidx (hlength ▸ hidx)
      exact hget ▸ mem_validCodes_of_holds hholds
    · obtain ⟨hidx, rfl⟩ := List.getElem?_eq_some_iff.mp hcode
      obtain ⟨hidx', rfl⟩ := List.getElem?_eq_some_iff.mp harg
      exact (List.forall₂_iff_get.mp hmatching).2 idx hidx hidx'
  · intro images entries htimeline entry hentry chars subsystemName
    rw [timeline_eq] at htimeline
    obtain rfl := Except.ok.inj htimeline
    -- the sort only moves the records of the images
    have hmem := (List.mergeSort_perm _ _).subset hentry
    obtain ⟨image, -, himage⟩ := List.mem_flatMap.mp hmem
    have hmatching : Matching entry.record := by
      unfold timelineOf at himage
      cases hread : readImage image with
      | none =>
        rw [hread] at himage
        cases himage
      | some read =>
        rw [hread] at himage
        obtain ⟨reader, -, -, hdecode, -, -⟩ := readImage_eq_some hread
        obtain ⟨record, hrecord, rfl⟩ := List.mem_map.mp himage
        exact decodeAll_matching hdecode record hrecord
    have hconverts := formatJson_converts chars hmatching subsystemName
    exact ⟨fun h => JsonError.noConfusion (hconverts _ h),
      fun h => JsonError.noConfusion (hconverts _ h)⟩

end Sub0Log.Export
