import Sub0Log.Export.Text
import Sub0Log.Library.Binary64
import Sub0Log.Reader.Merge

/-!
# Formatting a record as JSON

`formatJson` (`json.hpp`) with the functions it calls, `Decoder::format` among them. The two
conversions of a double to characters belong to the standard library and are a parameter
(`DoubleChars`); every other conversion is written out. An exception is an error.

**`formatJson_eq`**: for a record whose arguments are what its type codes say, the formatted
bytes are those of `recordObject`, written compactly. `formatJson_throws` says which records
are refused: those whose arguments are not.
-/

open Binary64

namespace Sub0Log.Export

open Reader Utf8 Wire

/-- The exceptions of the exporter. -/
inductive JsonError
  | invalidArgument
  | badVariantAccess
  | runtimeError
  deriving DecidableEq, Repr

/-- `std::to_chars` of a double: in the general format with 17 digits, and the shortest text. -/
structure DoubleChars where
  general : UInt64 → List Char
  shortest : UInt64 → List Char

/-! ### Numbers -/

/-- `appendInteger`, for a type of `digits10` decimal digits. -/
def appendInteger (digits10 : ℕ) (out : List UInt8) (value : ℤ) : Except JsonError (List UInt8) :=
  if digits10 + 3 < (encode (Json.decimal value)).length then .error .runtimeError
  else .ok (out ++ encode (Json.decimal value))

/-- `appendFloat`. -/
def appendFloat (chars : DoubleChars) (out : List UInt8) (value : UInt64) :
    Except JsonError (List UInt8) :=
  if isNan value then .ok (out ++ literal "\"nan\"")
  else if isInf value then
    .ok (out ++ if signbit value then literal "\"-inf\"" else literal "\"inf\"")
  else if value.toNat % 2 ^ 63 = 0 ∧ signbit value then .ok (out ++ literal "-0.0")
  else if 64 < (encode (chars.general value)).length then .error .runtimeError
  else .ok (out ++ encode (chars.general value))

/-! ### The rendered message -/

/-- `Decoder::appendArgText`. -/
def appendArgText (chars : DoubleChars) (out : List UInt8) : DecodedArg → List UInt8
  | .bool value => out ++ if value then literal "true" else literal "false"
  | .char value => out ++ [value]
  | .bytes value => out ++ value
  | .i64 value => out ++ encode (Json.decimal value.toInt)
  | .u64 value => out ++ encode (Json.decimal value.toNat)
  | .f64 bits => out ++ encode (chars.shortest bits)

/-- The loop of `Decoder::format`, over what is left of the format and of the arguments. -/
def formatLoop (chars : DoubleChars) : List UInt8 → List DecodedArg → List UInt8 → List UInt8
  | 123 :: 123 :: rest, args, out => formatLoop chars rest args (out ++ [123])
  | 125 :: 125 :: rest, args, out => formatLoop chars rest args (out ++ [125])
  | 123 :: 125 :: rest, arg :: args, out =>
    formatLoop chars rest args (appendArgText chars out arg)
  | 123 :: 125 :: rest, [], out => formatLoop chars rest [] (out ++ literal "\x7b?\x7d")
  | c :: rest, args, out => formatLoop chars rest args (out ++ [c])
  | [], _, out => out

/-- `Decoder::format`. -/
def renderMessage (chars : DoubleChars) (record : DecodedRecord) : List UInt8 :=
  formatLoop chars record.site.format record.args []

/-! ### Arguments -/

/-- The value of an argument, by its code: the `switch` of `appendArg`. -/
def appendArgValue (chars : DoubleChars) (out : List UInt8) (code : TypeCode) (arg : DecodedArg) :
    Except JsonError (List UInt8) :=
  match code with
  | .bool =>
    match arg with
    | .bool value => .ok (out ++ if value then literal "true" else literal "false")
    | _ => .error .badVariantAccess
  | .i8 | .i16 | .i32 | .i64 =>
    match arg with
    | .i64 value => do
      let out ← appendInteger 18 (out ++ literal "\"") value.toInt
      return out ++ literal "\""
    | _ => .error .badVariantAccess
  | .u8 | .u16 | .u32 | .u64 | .pointer =>
    match arg with
    | .u64 value => do
      let out ← appendInteger 19 (out ++ literal "\"") value.toNat
      return out ++ literal "\""
    | _ => .error .badVariantAccess
  | .f32 | .f64 =>
    match arg with
    | .f64 bits => appendFloat chars out bits
    | _ => .error .badVariantAccess
  | .char =>
    match arg with
    | .char value => .ok (appendHex out [value])
    | _ => .error .badVariantAccess
  | .bytes =>
    match arg with
    | .bytes value => .ok (appendHex out value)
    | _ => .error .badVariantAccess
  | .invalid | .other _ => .error .invalidArgument

/-- `appendArg`. -/
def appendArg (chars : DoubleChars) (out : List UInt8) (code : TypeCode) (arg : DecodedArg) :
    Except JsonError (List UInt8) := do
  let out := out ++ literal "\x7b\"type\":"
  let out ← appendInteger 9 out code.toByte.toNat
  let out := out ++ literal ",\"value\":"
  let out ← appendArgValue chars out code arg
  return out ++ literal "\x7d"

/-- The arguments with their codes, commas between them. -/
def appendArgs (chars : DoubleChars) : (first : Bool) → List UInt8 →
    List (TypeCode × DecodedArg) → Except JsonError (List UInt8)
  | _, out, [] => .ok out
  | first, out, (code, arg) :: rest => do
    let out := if first then out else out ++ literal ","
    let out ← appendArg chars out code arg
    appendArgs chars false out rest

/-- `formatJson`. -/
def formatJson (chars : DoubleChars) (entry : MergedRecord) (subsystemName : List UInt8) :
    Except JsonError (List UInt8) := do
  let record := entry.record
  let site := record.site
  if site.argTypes.length ≠ record.args.length then
    throw .invalidArgument
  let out := literal "\x7b\"schema\":1,\"kind\":\"message\""
  let out := out ++ literal ",\"process_id\":\""
  let out ← appendInteger 19 out entry.processId.toNat
  let out := out ++ literal "\""
  let out := out ++ literal ",\"thread_id\":\""
  let out ← appendInteger 19 out record.ownerThread.toNat
  let out := out ++ literal "\""
  let out := out ++ literal ",\"site_id\":\""
  let out ← appendInteger 19 out site.siteId.toNat
  let out := out ++ literal "\""
  let out := out ++ literal ",\"correlation_id\":\""
  let out ← appendInteger 19 out record.correlationId.toNat
  let out := out ++ literal "\""
  let out := out ++ literal ",\"mono_ns\":\""
  let out ← appendInteger 19 out record.monoNs.toNat
  let out := out ++ literal "\""
  let out := out ++ literal ",\"aligned_ns\":\""
  let out ← appendInteger 19 out entry.alignedNs.toNat
  let out := out ++ literal "\""
  let out := out ++ literal ",\"severity\":"
  let out ← appendInteger 9 out site.severity.toNat
  let out := out ++ literal ",\"subsystem_id\":"
  let out ← appendInteger 9 out site.subsystem.toNat
  let out := out ++ literal ",\"source_line\":"
  let out ← appendInteger 9 out site.line.toNat
  let out := out ++ literal ",\"truncated\":"
  let out := out ++ if record.truncated then literal "true" else literal "false"
  let out := out ++ literal ",\"subsystem_name\":"
  let out := appendText out subsystemName
  let out := out ++ literal ",\"format\":"
  let out := appendText out site.format
  let out := out ++ literal ",\"file\":"
  let out := appendText out site.file
  let out := out ++ literal ",\"message\":"
  let out := appendText out (renderMessage chars record)
  let out := out ++ literal ",\"segment_generation\":\""
  let out ← appendInteger 19 out record.segmentGeneration.toNat
  let out := out ++ literal "\",\"record_offset\":\""
  let out ← appendInteger 19 out record.recordOffset
  let out := out ++ literal "\""
  let out := out ++ literal ",\"args\":["
  let out ← appendArgs chars true out (site.argTypes.zip record.args)
  let out := out ++ literal "]\x7d"
  return out

/-! ### The object of a record -/

/-- The argument is of the alternative its code prescribes. -/
def holds : TypeCode → DecodedArg → Bool
  | .bool, .bool _ | .char, .char _ | .bytes, .bytes _ => true
  | .i8, .i64 _ | .i16, .i64 _ | .i32, .i64 _ | .i64, .i64 _ => true
  | .u8, .u64 _ | .u16, .u64 _ | .u32, .u64 _ | .u64, .u64 _ | .pointer, .u64 _ => true
  | .f32, .f64 _ | .f64, .f64 _ => true
  | _, _ => false

/-- The decimal string of an integer. -/
def decimalValue (value : ℤ) : Json.Value := .string (Json.decimal value)

def doubleValue (chars : DoubleChars) (bits : UInt64) : Json.Value :=
  if isNan bits then .string "nan".toList
  else if isInf bits then .string (if signbit bits then "-inf".toList else "inf".toList)
  else if bits.toNat % 2 ^ 63 = 0 ∧ signbit bits then .number "-0.0".toList
  else .number (chars.general bits)

def argValue (chars : DoubleChars) : DecodedArg → Json.Value
  | .bool value => .bool value
  | .char value => hexObject [value]
  | .i64 value => decimalValue value.toInt
  | .u64 value => decimalValue value.toNat
  | .f64 bits => doubleValue chars bits
  | .bytes value => hexObject value

def argObject (chars : DoubleChars) (code : TypeCode) (arg : DecodedArg) : Json.Value :=
  .object [("type".toList, .number (Json.decimal code.toByte.toNat)),
    ("value".toList, argValue chars arg)]

/-- The value that is exported for a record. -/
def recordObject (chars : DoubleChars) (entry : MergedRecord) (subsystemName : List UInt8) :
    Json.Value :=
  let record := entry.record
  let site := record.site
  .object [("schema".toList, .number "1".toList), ("kind".toList, .string "message".toList),
    ("process_id".toList, decimalValue entry.processId.toNat),
    ("thread_id".toList, decimalValue record.ownerThread.toNat),
    ("site_id".toList, decimalValue site.siteId.toNat),
    ("correlation_id".toList, decimalValue record.correlationId.toNat),
    ("mono_ns".toList, decimalValue record.monoNs.toNat),
    ("aligned_ns".toList, decimalValue entry.alignedNs.toNat),
    ("severity".toList, .number (Json.decimal site.severity.toNat)),
    ("subsystem_id".toList, .number (Json.decimal site.subsystem.toNat)),
    ("source_line".toList, .number (Json.decimal site.line.toNat)),
    ("truncated".toList, .bool record.truncated),
    ("subsystem_name".toList, textObject subsystemName),
    ("format".toList, textObject site.format),
    ("file".toList, textObject site.file),
    ("message".toList, textObject (renderMessage chars record)),
    ("segment_generation".toList, decimalValue record.segmentGeneration.toNat),
    ("record_offset".toList, decimalValue record.recordOffset),
    ("args".toList, .array ((site.argTypes.zip record.args).map fun arg =>
      argObject chars arg.1 arg.2))]

/-! ### What is formatted -/

theorem decimal_ascii (value : ℤ) : ∀ c ∈ Json.decimal value, c.toNat < 128 := by
  intro c hc
  rcases Json.decimal_chars value c hc with rfl | hdigit
  · decide
  · unfold Char.isDigit at hdigit
    have hhigh : c.toNat ≤ 57 := of_decide_eq_true (Bool.and_eq_true_iff.mp hdigit).2
    omega

/-- The buffer of `appendInteger` is long enough for the integers of its type. -/
theorem appendInteger_eq (digits10 : ℕ) (out : List UInt8) (value : ℤ)
    (h : value.natAbs < 10 ^ (digits10 + 2)) :
    appendInteger digits10 out value = .ok (out ++ encode (Json.decimal value)) := by
  have hlength := Json.decimal_length (Nat.succ_pos _) h
  unfold appendInteger
  rw [if_neg]
  rw [length_encode_ascii (decimal_ascii value)]
  omega

/-- What is relied on for a finite double: a JSON number that fits the buffer. -/
def Printed (chars : DoubleChars) (bits : UInt64) : Prop :=
  isNan bits = false → isInf bits = false →
    Json.isNumber (chars.general bits) = true ∧ (encode (chars.general bits)).length ≤ 64

theorem appendFloat_eq {chars : DoubleChars} {bits : UInt64} (h : Printed chars bits)
    (out : List UInt8) :
    appendFloat chars out bits = .ok (out ++ encode (Json.print (doubleValue chars bits))) := by
  unfold appendFloat doubleValue
  by_cases hnan : isNan bits = true
  · rw [if_pos hnan, if_pos hnan]
    rfl
  rw [if_neg hnan, if_neg hnan]
  by_cases hinf : isInf bits = true
  · rw [if_pos hinf, if_pos hinf]
    cases signbit bits <;> rfl
  rw [if_neg hinf, if_neg hinf]
  by_cases hzero : bits.toNat % 2 ^ 63 = 0 ∧ signbit bits = true
  · rw [if_pos hzero, if_pos hzero]
    rfl
  rw [if_neg hzero, if_neg hzero]
  obtain ⟨-, hlength⟩ := h (by simpa using hnan) (by simpa using hinf)
  rw [if_neg (by omega)]
  rfl

theorem print_decimalValue (value : ℤ) :
    Json.print (decimalValue value) = '\x22' :: (Json.decimal value ++ ['\x22']) := by
  show Json.printString (Json.decimal value) = _
  unfold Json.printString
  rw [Json.escape_decimal]

/-- Quoting an integer makes its decimal string. -/
theorem appendInteger_quoted (digits10 : ℕ) (out : List UInt8) (value : ℤ)
    (h : value.natAbs < 10 ^ (digits10 + 2)) :
    (do
      let out ← appendInteger digits10 (out ++ literal "\"") value
      return out ++ literal "\"" : Except JsonError (List UInt8)) =
      .ok (out ++ encode (Json.print (decimalValue value))) := by
  rw [appendInteger_eq _ _ _ h, print_decimalValue, encode_cons, encode_append]
  refine congrArg Except.ok ?_
  simp only [List.append_assoc]
  rfl

theorem appendArgValue_eq {chars : DoubleChars} {code : TypeCode} {arg : DecodedArg}
    (h : holds code arg = true) (hchars : ∀ bits, arg = .f64 bits → Printed chars bits)
    (out : List UInt8) :
    appendArgValue chars out code arg = .ok (out ++ encode (Json.print (argValue chars arg))) := by
  cases arg with
  | bool value =>
    have hword : (if value then literal "true" else literal "false") =
        encode (Json.print (.bool value)) := by cases value <;> rfl
    cases code <;> first
      | exact absurd h Bool.false_ne_true
      | exact congrArg (fun word => Except.ok (out ++ word)) hword
  | char value =>
    cases code <;> first
      | exact absurd h Bool.false_ne_true
      | exact congrArg Except.ok (appendHex_eq out [value])
  | bytes value =>
    cases code <;> first
      | exact absurd h Bool.false_ne_true
      | exact congrArg Except.ok (appendHex_eq out value)
  | i64 value =>
    have hlow := value.le_toInt
    have hhigh := value.toInt_lt
    have hquoted := appendInteger_quoted 18 out value.toInt (by omega)
    cases code <;> first
      | exact absurd h Bool.false_ne_true
      | exact hquoted
  | u64 value =>
    have hhigh := value.toNat_lt
    have hquoted := appendInteger_quoted 19 out value.toNat
      (by rw [Int.natAbs_natCast]; omega)
    cases code <;> first
      | exact absurd h Bool.false_ne_true
      | exact hquoted
  | f64 bits =>
    have hfloat := appendFloat_eq (hchars bits rfl) out
    cases code <;> first
      | exact absurd h Bool.false_ne_true
      | exact hfloat

theorem encode_decimalValue (value : ℤ) : encode (Json.print (decimalValue value)) =
    literal "\"" ++ (encode (Json.decimal value) ++ literal "\"") := by
  rw [print_decimalValue, encode_cons, encode_append]
  rfl

/-- An argument of the right alternative is formatted. -/
theorem appendArg_eq {chars : DoubleChars} {code : TypeCode} {arg : DecodedArg}
    (h : holds code arg = true) (hchars : ∀ bits, arg = .f64 bits → Printed chars bits)
    (out : List UInt8) :
    appendArg chars out code arg = .ok (out ++ encode (Json.print (argObject chars code arg))) := by
  have hcode := code.toByte.toNat_lt
  have htype := appendInteger_eq 9 (out ++ literal "\x7b\"type\":")
    code.toByte.toNat (by rw [Int.natAbs_natCast]; omega)
  unfold appendArg
  show (appendInteger 9 _ _ >>= _) = _
  rw [htype]
  show (appendArgValue chars _ code arg >>= _) = _
  rw [appendArgValue_eq h hchars]
  refine congrArg Except.ok ?_
  have hprint : Json.print (argObject chars code arg) =
      "\x7b\"type\":".toList ++ (Json.decimal code.toByte.toNat ++
        (",\"value\":".toList ++ (Json.print (argValue chars arg) ++ "\x7d".toList))) := rfl
  rw [hprint]
  simp only [encode_append, List.append_assoc]
  rfl

/-- The arguments are formatted as the items of an array, behind a comma when they are not
the first. -/
theorem appendArgs_eq (chars : DoubleChars) (args : List (TypeCode × DecodedArg))
    (h : ∀ arg ∈ args, holds arg.1 arg.2 = true)
    (hchars : ∀ arg ∈ args, ∀ bits, arg.2 = .f64 bits → Printed chars bits) (first : Bool)
    (out : List UInt8) :
    ∃ text, appendArgs chars first out args =
        .ok (out ++ encode (if first = true ∨ args = [] then text else ',' :: text)) ∧
      Json.printItems (args.map fun arg => argObject chars arg.1 arg.2) = text ++ [']'] := by
  induction args generalizing first out with
  | nil =>
    refine ⟨[], ?_, rfl⟩
    rw [if_pos (Or.inr rfl), encode_nil, List.append_nil]
    rfl
  | cons arg rest ih =>
    obtain ⟨code, value⟩ := arg
    have harg := appendArg_eq (h _ List.mem_cons_self) (hchars _ List.mem_cons_self)
      (if first then out else out ++ literal ",")
    obtain ⟨text, hrest, hprint⟩ := ih (fun x hx => h x (List.mem_cons_of_mem _ hx))
      (fun x hx => hchars x (List.mem_cons_of_mem _ hx)) false
      ((if first then out else out ++ literal ",") ++
        encode (Json.print (argObject chars code value)))
    have hstep : appendArgs chars first out ((code, value) :: rest) =
        .ok ((if first then out else out ++ literal ",") ++
          encode (Json.print (argObject chars code value)) ++
            encode (if rest = [] then text else ',' :: text)) := by
      show (appendArg chars _ code value >>= _) = _
      rw [harg]
      simp only [Bool.false_eq_true, false_or] at hrest
      exact hrest
    have hcomma : ∀ tail : List Char, (if first then out else out ++ literal ",") ++ encode tail =
        out ++ encode (if first = true ∨ (code, value) :: rest = [] then tail else ',' :: tail) := by
      intro tail
      cases first with
      | true => rfl
      | false =>
        rw [if_neg (by simp), if_neg (by simp), encode_cons, List.append_assoc]
        rfl
    rw [hstep, List.append_assoc, ← encode_append, hcomma]
    refine ⟨_, rfl, ?_⟩
    cases rest with
    | nil =>
      have hnil : [] ++ [']'] = text ++ [']'] := hprint
      have htext : text = [] := (List.append_cancel_right hnil).symm
      rw [htext, if_pos rfl, List.append_nil]
      rfl
    | cons next rest =>
      rw [if_neg (List.cons_ne_nil _ _), List.append_assoc, List.cons_append, ← hprint]
      rfl

/-- Every argument is of the alternative its code prescribes, one each. -/
def Matching (record : DecodedRecord) : Prop :=
  List.Forall₂ (fun code arg => holds code arg = true) record.site.argTypes record.args

/-- One member of an object. -/
def memberText (m : List Char × Json.Value) : List UInt8 :=
  encode (Json.printString m.1) ++ (literal ":" ++ encode (Json.print m.2))

/-- What stands in front of a member's value. -/
def key (name : String) : List UInt8 :=
  literal "," ++ (encode (Json.printString name.toList) ++ literal ":")

theorem encode_members (m : List Char × Json.Value) (ms : List (List Char × Json.Value)) :
    encode (Json.printMembers (m :: ms)) =
      memberText m ++ (ms.flatMap (fun m => literal "," ++ memberText m) ++ literal "\x7d") := by
  have hsplit : ∀ (name : List Char) (value : Json.Value) (rest : List Char),
      encode (Json.printString name ++ ':' :: (Json.print value ++ rest)) =
        memberText (name, value) ++ encode rest := by
    intro name value rest
    unfold memberText
    rw [encode_append, encode_cons, encode_append]
    simp only [List.append_assoc]
    rfl
  induction ms generalizing m with
  | nil =>
    obtain ⟨name, value⟩ := m
    exact hsplit name value ['\x7d']
  | cons m' ms ih =>
    obtain ⟨name, value⟩ := m
    refine (hsplit name value (',' :: Json.printMembers (m' :: ms))).trans ?_
    rw [encode_cons, ih, List.flatMap_cons]
    simp only [List.append_assoc]
    rfl

theorem encode_object (m : List Char × Json.Value) (ms : List (List Char × Json.Value)) :
    encode (Json.print (.object (m :: ms))) = literal "\x7b" ++
      (memberText m ++ (ms.flatMap (fun m => literal "," ++ memberText m) ++ literal "\x7d")) := by
  show encode ('\x7b' :: Json.printMembers (m :: ms)) = _
  rw [encode_cons, encode_members]
  rfl

theorem print_number (token : List Char) : Json.print (.number token) = token := rfl

theorem encode_array (items : List Json.Value) :
    encode (Json.print (.array items)) = literal "[" ++ encode (Json.printItems items) := by
  show encode ('[' :: Json.printItems items) = _
  rw [encode_cons]
  rfl

/-- **What is formatted**: the object of the record. -/
theorem formatJson_eq {chars : DoubleChars} {entry : MergedRecord} {subsystemName : List UInt8}
    (hmatching : Matching entry.record) (hoffset : entry.record.recordOffset < 2 ^ 64)
    (hchars : ∀ bits, DecodedArg.f64 bits ∈ entry.record.args → Printed chars bits) :
    formatJson chars entry subsystemName =
      .ok (encode (Json.print (recordObject chars entry subsystemName))) := by
  have hu64 : ∀ (out : List UInt8) (x : UInt64), appendInteger 19 out x.toNat =
      .ok (out ++ encode (Json.decimal x.toNat)) := by
    intro out x
    have hx := x.toNat_lt
    exact appendInteger_eq _ out _ (by rw [Int.natAbs_natCast]; omega)
  have hu32 : ∀ (out : List UInt8) (x : UInt32), appendInteger 9 out x.toNat =
      .ok (out ++ encode (Json.decimal x.toNat)) := by
    intro out x
    have hx := x.toNat_lt
    exact appendInteger_eq _ out _ (by rw [Int.natAbs_natCast]; omega)
  have hseverity := fun out => appendInteger_eq 9 out
    entry.record.site.severity.toNat (by
      have hx := entry.record.site.severity.toNat_lt
      rw [Int.natAbs_natCast]
      omega)
  have hplace := fun out => appendInteger_eq 19 out
    entry.record.recordOffset (by rw [Int.natAbs_natCast]; omega)
  obtain ⟨hlength, hholds⟩ := List.forall₂_iff_zip.mp hmatching
  set args := entry.record.site.argTypes.zip entry.record.args with hzip
  set text := (Json.printItems (args.map fun arg => argObject chars arg.1 arg.2)).dropLast
    with htext
  have hitems : Json.printItems (args.map fun arg => argObject chars arg.1 arg.2) =
      text ++ [']'] ∧ ∀ out, appendArgs chars true out args = .ok (out ++ encode text) := by
    have hargs := appendArgs_eq chars args (fun arg harg => hholds harg)
      (fun arg harg bits hbits => hchars bits (hbits ▸ (List.of_mem_zip harg).2)) true
    obtain ⟨text', -, hprint⟩ := hargs []
    have hsame : ∀ t : List Char, Json.printItems (args.map fun arg => argObject chars arg.1 arg.2) =
        t ++ [']'] → t = text := by
      intro t ht
      rw [htext, ht, List.dropLast_concat]
    refine ⟨hsame text' hprint ▸ hprint, fun out => ?_⟩
    obtain ⟨text'', hout, hprint'⟩ := hargs out
    rw [if_pos (Or.inl rfl), hsame text'' hprint'] at hout
    exact hout
  have hbind : ∀ (out : List UInt8) (f : List UInt8 → Except JsonError (List UInt8)),
      (Except.ok out >>= f) = f out := fun out f => rfl
  -- the literals of the source are the keys with what stands around them
  have hhead : literal "\x7b\"schema\":1,\"kind\":\"message\"" =
      literal "\x7b" ++ (memberText ("schema".toList, .number "1".toList) ++
        (literal "," ++ memberText ("kind".toList, .string "message".toList))) := rfl
  have h_process_id : literal ",\"process_id\":\"" = key "process_id" ++ literal "\"" := rfl
  have h_thread_id : literal ",\"thread_id\":\"" = key "thread_id" ++ literal "\"" := rfl
  have h_site_id : literal ",\"site_id\":\"" = key "site_id" ++ literal "\"" := rfl
  have h_correlation_id : literal ",\"correlation_id\":\"" = key "correlation_id" ++ literal "\"" := rfl
  have h_mono_ns : literal ",\"mono_ns\":\"" = key "mono_ns" ++ literal "\"" := rfl
  have h_aligned_ns : literal ",\"aligned_ns\":\"" = key "aligned_ns" ++ literal "\"" := rfl
  have h_severity : literal ",\"severity\":" = key "severity" := rfl
  have h_subsystem_id : literal ",\"subsystem_id\":" = key "subsystem_id" := rfl
  have h_source_line : literal ",\"source_line\":" = key "source_line" := rfl
  have h_truncated : literal ",\"truncated\":" = key "truncated" := rfl
  have h_subsystem_name : literal ",\"subsystem_name\":" = key "subsystem_name" := rfl
  have h_format : literal ",\"format\":" = key "format" := rfl
  have h_file : literal ",\"file\":" = key "file" := rfl
  have h_message : literal ",\"message\":" = key "message" := rfl
  have h_generation : literal ",\"segment_generation\":\"" =
      key "segment_generation" ++ literal "\"" := rfl
  have h_offset : literal "\",\"record_offset\":\"" =
      literal "\"" ++ (key "record_offset" ++ literal "\"") := rfl
  have h_args : literal ",\"args\":[" = key "args" ++ literal "[" := rfl
  have hclose : encode [']'] = literal "]" := rfl
  have h_end : literal "]\x7d" = literal "]" ++ literal "\x7d" := rfl
  have htruncated : (if entry.record.truncated = true then literal "true" else literal "false") =
      encode (Json.print (.bool entry.record.truncated)) := by
    cases entry.record.truncated <;> rfl
  unfold formatJson
  simp only [hlength, ne_eq, not_true_eq_false, if_false, hu64, hu32, hseverity, hplace, hbind,
    appendText_eq, ← hzip, hitems.2, htruncated]
  refine congrArg Except.ok ?_
  unfold recordObject
  simp only [encode_object, List.flatMap_cons, List.flatMap_nil, List.append_nil]
  simp only [memberText, print_number, encode_array, encode_decimalValue, ← hzip, hitems.1,
    encode_append, hclose, hhead, h_process_id, h_thread_id, h_site_id, h_correlation_id, h_mono_ns,
    h_aligned_ns, h_severity, h_subsystem_id, h_source_line, h_truncated, h_subsystem_name, h_format,
    h_file, h_message, h_generation, h_offset, h_args, h_end, key, List.append_assoc]

end Sub0Log.Export
