import Sub0Log.Export.Json

/-!
# Reading an exported line back

What a consumer of the exported lines does (`docs/json-export.md`): parse the line as JSON,
take the documented members, and decode the byte objects and the decimal strings. `Exported`
is everything the schema promises of a record; a NaN is exported as one.

**`formatJson_roundTrip`**: an exported line holds no control character, is UTF-8, parses as a
JSON object, and gives the record back; so records that differ in anything exported have
different lines.
-/

open Binary64

namespace Sub0Log.Export

open Reader Utf8 Wire

/-! ### What is exported -/

/-- The NaN that stands for all of them. -/
def cNan : UInt64 := 0x7ff8000000000000

/-- An argument as it is exported. -/
def exportedArg : DecodedArg → DecodedArg
  | .f64 bits => .f64 (if isNan bits then cNan else bits)
  | arg => arg

/-- What an exported line promises of its record. -/
structure Exported where
  processId : ℤ
  threadId : ℤ
  siteId : ℤ
  correlationId : ℤ
  monoNs : ℤ
  alignedNs : ℤ
  severity : ℤ
  subsystemId : ℤ
  sourceLine : ℤ
  truncated : Bool
  subsystemName : List UInt8
  format : List UInt8
  file : List UInt8
  message : List UInt8
  segmentGeneration : ℤ
  recordOffset : ℤ
  args : List (ℤ × DecodedArg)
  deriving DecidableEq

def exported (chars : DoubleChars) (entry : MergedRecord) (subsystemName : List UInt8) :
    Exported where
  processId := entry.processId.toNat
  threadId := entry.record.ownerThread.toNat
  siteId := entry.record.site.siteId.toNat
  correlationId := entry.record.correlationId.toNat
  monoNs := entry.record.monoNs.toNat
  alignedNs := entry.alignedNs.toNat
  severity := entry.record.site.severity.toNat
  subsystemId := entry.record.site.subsystem.toNat
  sourceLine := entry.record.site.line.toNat
  truncated := entry.record.truncated
  subsystemName := subsystemName
  format := entry.record.site.format
  file := entry.record.site.file
  message := renderMessage chars entry.record
  segmentGeneration := entry.record.segmentGeneration.toNat
  recordOffset := entry.record.recordOffset
  args := (entry.record.site.argTypes.zip entry.record.args).map fun arg =>
    ((arg.1.toByte.toNat : ℤ), exportedArg arg.2)

/-! ### Reading a value -/

/-- A decimal string. -/
def readString : Json.Value → Option ℤ
  | .string text => Json.readDecimal text
  | _ => none

/-- An integer number. -/
def readNumber : Json.Value → Option ℤ
  | .number token => Json.readDecimal token
  | _ => none

def readBool : Json.Value → Option Bool
  | .bool value => some value
  | _ => none

/-- An encoded byte object. -/
def readBytes (v : Json.Value) : Option (List UInt8) := do
  let encoding ← v.member "encoding"
  let value ← v.member "value"
  match encoding, value with
  | .string encoding, .string text =>
    if encoding = "hex".toList then Json.readHex text
    else if encoding = "utf8".toList then some (encode text)
    else none
  | _, _ => none

/-- A finite number, or one of the three that JSON has no number for. -/
def readDouble : Json.Value → Option UInt64
  | .number token => some (UInt64.ofNat (ofToken token))
  | .string text =>
    if text = "nan".toList then some cNan
    else if text = "inf".toList then some 0x7ff0000000000000
    else if text = "-inf".toList then some 0xfff0000000000000
    else none
  | _ => none

/-- The value of an argument, by the number of its type code. -/
def readArgValue (code : ℤ) (v : Json.Value) : Option DecodedArg :=
  if code = 1 then (readBool v).map .bool
  else if code = 2 ∨ code = 4 ∨ code = 6 ∨ code = 8 then
    (readString v).map fun n => .i64 (Int64.ofInt n)
  else if code = 3 ∨ code = 5 ∨ code = 7 ∨ code = 9 ∨ code = 14 then
    (readString v).map fun n => .u64 (UInt64.ofNat n.toNat)
  else if code = 10 ∨ code = 11 then (readDouble v).map .f64
  else if code = 12 then
    match readBytes v with
    | some [byte] => some (.char byte)
    | _ => none
  else if code = 13 then (readBytes v).map .bytes
  else none

def readArg (v : Json.Value) : Option (ℤ × DecodedArg) := do
  let code ← (v.member "type").bind readNumber
  let arg ← (v.member "value").bind (readArgValue code)
  return (code, arg)

def readArgs : Json.Value → Option (List (ℤ × DecodedArg))
  | .array items => items.mapM readArg
  | _ => none

/-- A parsed line. -/
def readObject (v : Json.Value) : Option Exported := do
  let processId ← (v.member "process_id").bind readString
  let threadId ← (v.member "thread_id").bind readString
  let siteId ← (v.member "site_id").bind readString
  let correlationId ← (v.member "correlation_id").bind readString
  let monoNs ← (v.member "mono_ns").bind readString
  let alignedNs ← (v.member "aligned_ns").bind readString
  let severity ← (v.member "severity").bind readNumber
  let subsystemId ← (v.member "subsystem_id").bind readNumber
  let sourceLine ← (v.member "source_line").bind readNumber
  let truncated ← (v.member "truncated").bind readBool
  let subsystemName ← (v.member "subsystem_name").bind readBytes
  let format ← (v.member "format").bind readBytes
  let file ← (v.member "file").bind readBytes
  let message ← (v.member "message").bind readBytes
  let segmentGeneration ← (v.member "segment_generation").bind readString
  let recordOffset ← (v.member "record_offset").bind readString
  let args ← (v.member "args").bind readArgs
  return ⟨processId, threadId, siteId, correlationId, monoNs, alignedNs, severity, subsystemId,
    sourceLine, truncated, subsystemName, format, file, message, segmentGeneration, recordOffset,
    args⟩

/-- A line. -/
def readLine (line : List UInt8) : Option Exported := do
  let text ← decode line
  let v ← Json.parse text
  readObject v

/-! ### Values are read back -/

theorem readHex_hexText (bytes : List UInt8) : Json.readHex (hexText bytes) = some bytes := by
  induction bytes with
  | nil => rfl
  | cons b bytes ih =>
    have hb := b.toNat_lt
    have hsum : b.toNat / 16 * 16 + b.toNat % 16 = b.toNat := by omega
    show Json.readHex (_ :: _ :: hexText bytes) = _
    rw [Json.readHex, Json.hexValue_digitChar _ (by omega), Json.hexValue_digitChar _ (by omega), ih]
    show some (UInt8.ofNat (b.toNat / 16 * 16 + b.toNat % 16) :: bytes) = _
    rw [hsum, UInt8.ofNat_toNat]

theorem readBytes_hexObject (bytes : List UInt8) : readBytes (hexObject bytes) = some bytes :=
  readHex_hexText bytes

theorem readBytes_textObject (bytes : List UInt8) : readBytes (textObject bytes) = some bytes := by
  unfold textObject
  by_cases hvalid : validUtf8 bytes = false
  · rw [if_pos hvalid]
    exact readBytes_hexObject bytes
  · obtain ⟨text, rfl⟩ := (validUtf8_iff bytes).mp (by simpa using hvalid)
    rw [if_neg hvalid, decode_encode]
    rfl

theorem readString_decimalValue (value : ℤ) : readString (decimalValue value) = some value :=
  Json.decimal_readDecimal value

/-- What is relied on for a finite double: a JSON number that fits the buffer and is the
double's again. -/
def Faithful (chars : DoubleChars) (bits : UInt64) : Prop :=
  isNan bits = false → isInf bits = false →
    Json.isNumber (chars.general bits) = true ∧ (encode (chars.general bits)).length ≤ 64 ∧
      ofToken (chars.general bits) = bits.toNat

theorem Faithful.printed {chars : DoubleChars} {bits : UInt64} (h : Faithful chars bits) :
    Printed chars bits := fun hnan hinf => ⟨(h hnan hinf).1, (h hnan hinf).2.1⟩

/-- An infinity has one of two values. -/
theorem isInf_cases {bits : UInt64} (h : isInf bits = true) :
    bits = if signbit bits then 0xfff0000000000000 else 0x7ff0000000000000 := by
  have hlt := bits.toNat_lt
  unfold isInf at h
  obtain ⟨hexponent, hmantissa⟩ := Bool.and_eq_true_iff.mp h
  have hexponent' := of_decide_eq_true hexponent
  have hmantissa' := of_decide_eq_true hmantissa
  apply UInt64.toNat_inj.mp
  unfold signbit
  by_cases hsign : 2 ^ 63 ≤ bits.toNat
  · rw [if_pos (decide_eq_true hsign)]
    change bits.toNat = 18442240474082181120
    omega
  · rw [if_neg (by rw [decide_eq_false hsign]; exact Bool.false_ne_true)]
    change bits.toNat = 9218868437227405312
    omega

theorem readDouble_doubleValue {chars : DoubleChars} {bits : UInt64} (h : Faithful chars bits) :
    readDouble (doubleValue chars bits) = some (if isNan bits then cNan else bits) := by
  unfold doubleValue
  by_cases hnan : isNan bits = true
  · rw [if_pos hnan, if_pos hnan]
    rfl
  rw [if_neg hnan, if_neg hnan]
  by_cases hinf : isInf bits = true
  · have hbits := isInf_cases hinf
    rw [if_pos hinf]
    cases hsign : signbit bits with
    | true =>
      rw [hsign] at hbits
      rw [hbits]
      rfl
    | false =>
      rw [hsign] at hbits
      rw [hbits]
      rfl
  rw [if_neg hinf]
  by_cases hzero : bits.toNat % 2 ^ 63 = 0 ∧ signbit bits = true
  · have hsign : 2 ^ 63 ≤ bits.toNat := of_decide_eq_true hzero.2
    have hlt := bits.toNat_lt
    have htoken : ofToken "-0.0".toList = 2 ^ 63 := by decide +kernel
    rw [if_pos hzero]
    show some (UInt64.ofNat (ofToken "-0.0".toList)) = _
    rw [htoken]
    refine congrArg some (UInt64.toNat_inj.mp ?_)
    change 9223372036854775808 = bits.toNat
    omega
  · rw [if_neg hzero]
    obtain ⟨-, -, hback⟩ := h (by simpa using hnan) (by simpa using hinf)
    show some (UInt64.ofNat (ofToken (chars.general bits))) = _
    rw [hback, UInt64.ofNat_toNat]

/-- An argument is read back as what is exported of it. -/
theorem readArgValue_argValue {chars : DoubleChars} {code : TypeCode} {arg : DecodedArg}
    (h : holds code arg = true) (hchars : ∀ bits, arg = .f64 bits → Faithful chars bits) :
    readArgValue code.toByte.toNat (argValue chars arg) = some (exportedArg arg) := by
  cases arg with
  | bool value =>
    cases code <;> first
      | exact absurd h Bool.false_ne_true
      | rfl
  | char value =>
    have hread : (match readBytes (hexObject [value]) with
        | some [byte] => some (DecodedArg.char byte)
        | _ => none) = some (.char value) := by
      rw [readBytes_hexObject]
    cases code <;> first
      | exact absurd h Bool.false_ne_true
      | exact hread
  | bytes value =>
    have hread : (readBytes (hexObject value)).map DecodedArg.bytes = some (.bytes value) := by
      rw [readBytes_hexObject]
      rfl
    cases code <;> first
      | exact absurd h Bool.false_ne_true
      | exact hread
  | i64 value =>
    have hread : ((readString (decimalValue value.toInt)).map fun n => DecodedArg.i64 (Int64.ofInt n)) =
        some (.i64 value) := by
      rw [readString_decimalValue, Option.map_some, Int64.ofInt_toInt]
    cases code <;> first
      | exact absurd h Bool.false_ne_true
      | exact hread
  | u64 value =>
    have hread : ((readString (decimalValue value.toNat)).map fun n =>
        DecodedArg.u64 (UInt64.ofNat n.toNat)) = some (.u64 value) := by
      rw [readString_decimalValue, Option.map_some, Int.toNat_natCast, UInt64.ofNat_toNat]
    cases code <;> first
      | exact absurd h Bool.false_ne_true
      | exact hread
  | f64 bits =>
    have hread : (readDouble (doubleValue chars bits)).map DecodedArg.f64 =
        some (exportedArg (.f64 bits)) := by
      rw [readDouble_doubleValue (hchars bits rfl)]
      rfl
    cases code <;> first
      | exact absurd h Bool.false_ne_true
      | exact hread

theorem readArg_argObject {chars : DoubleChars} {code : TypeCode} {arg : DecodedArg}
    (h : holds code arg = true) (hchars : ∀ bits, arg = .f64 bits → Faithful chars bits) :
    readArg (argObject chars code arg) = some ((code.toByte.toNat : ℤ), exportedArg arg) := by
  have htype : ((argObject chars code arg).member "type").bind readNumber =
      some (code.toByte.toNat : ℤ) := Json.decimal_readDecimal _
  have hvalue : ((argObject chars code arg).member "value").bind
      (readArgValue code.toByte.toNat) = some (exportedArg arg) := readArgValue_argValue h hchars
  unfold readArg
  rw [htype]
  show (((argObject chars code arg).member "value").bind (readArgValue code.toByte.toNat) >>= _) = _
  rw [hvalue]
  rfl

theorem readArgs_argObjects (chars : DoubleChars) (args : List (TypeCode × DecodedArg))
    (h : ∀ arg ∈ args, holds arg.1 arg.2 = true)
    (hchars : ∀ arg ∈ args, ∀ bits, arg.2 = .f64 bits → Faithful chars bits) :
    readArgs (.array (args.map fun arg => argObject chars arg.1 arg.2)) =
      some (args.map fun arg => ((arg.1.toByte.toNat : ℤ), exportedArg arg.2)) := by
  show (args.map _).mapM readArg = _
  induction args with
  | nil => rfl
  | cons arg rest ih =>
    rw [List.map_cons, List.mapM_cons, readArg_argObject (h _ List.mem_cons_self)
      (hchars _ List.mem_cons_self), ih (fun x hx => h x (List.mem_cons_of_mem _ hx))
      fun x hx => hchars x (List.mem_cons_of_mem _ hx)]
    rfl

/-! ### Every number is one -/

theorem textObject_wellFormed (bytes : List UInt8) : (textObject bytes).wellFormed = true := by
  unfold textObject
  split <;> rfl

theorem argValue_wellFormed {chars : DoubleChars} {arg : DecodedArg}
    (hchars : ∀ bits, arg = .f64 bits → Faithful chars bits) :
    (argValue chars arg).wellFormed = true := by
  cases arg with
  | bool value => rfl
  | char value => rfl
  | i64 value => rfl
  | u64 value => rfl
  | bytes value => rfl
  | f64 bits =>
    show (doubleValue chars bits).wellFormed = true
    unfold doubleValue
    by_cases hnan : isNan bits = true
    · rw [if_pos hnan]
      rfl
    rw [if_neg hnan]
    by_cases hinf : isInf bits = true
    · rw [if_pos hinf]
      rfl
    rw [if_neg hinf]
    split
    · show Json.isNumber "-0.0".toList = true
      decide
    · exact (hchars bits rfl (by simpa using hnan) (by simpa using hinf)).1

theorem argObjects_wellFormed (chars : DoubleChars) (args : List (TypeCode × DecodedArg))
    (hchars : ∀ arg ∈ args, ∀ bits, arg.2 = .f64 bits → Faithful chars bits) :
    Json.itemsWellFormed (args.map fun arg => argObject chars arg.1 arg.2) = true := by
  induction args with
  | nil => rfl
  | cons arg rest ih =>
    have hcode : Json.isNumber (Json.decimal arg.1.toByte.toNat) = true := Json.isNumber_decimal _
    have hvalue := argValue_wellFormed (hchars _ List.mem_cons_self)
    have hrest := ih fun x hx => hchars x (List.mem_cons_of_mem _ hx)
    show ((Json.isNumber (Json.decimal arg.1.toByte.toNat) &&
      ((argValue chars arg.2).wellFormed && true)) && _) = true
    rw [hcode, hvalue, hrest]
    rfl

theorem recordObject_wellFormed {chars : DoubleChars} {entry : MergedRecord}
    (hchars : ∀ bits, DecodedArg.f64 bits ∈ entry.record.args → Faithful chars bits)
    (subsystemName : List UInt8) :
    (recordObject chars entry subsystemName).wellFormed = true := by
  have hargs := argObjects_wellFormed chars
    (entry.record.site.argTypes.zip entry.record.args)
    fun arg harg bits hbits => hchars bits (hbits ▸ (List.of_mem_zip harg).2)
  have hargs' : (Json.Value.array ((entry.record.site.argTypes.zip entry.record.args).map fun arg =>
      argObject chars arg.1 arg.2)).wellFormed = true := hargs
  have hnumber : ∀ n : ℕ, (Json.Value.number (Json.decimal n)).wellFormed = true :=
    Json.isNumber_decimal
  have hstring : ∀ n : ℤ, (decimalValue n).wellFormed = true := fun n => rfl
  have hbool : ∀ b : Bool, (Json.Value.bool b).wellFormed = true := fun b => rfl
  have hone : (Json.Value.number "1".toList).wellFormed = true := by
    show Json.isNumber "1".toList = true
    decide
  have hkind : (Json.Value.string "message".toList).wellFormed = true := rfl
  have hobject : ∀ members, (Json.Value.object members).wellFormed = Json.membersWellFormed members :=
    fun members => rfl
  unfold recordObject
  simp only [hobject, Json.membersWellFormed, hone, hkind, hstring, hnumber, hbool,
    textObject_wellFormed, hargs', Bool.and_self]

/-! ### The line -/

theorem readObject_recordObject {chars : DoubleChars} {entry : MergedRecord}
    (hmatching : Matching entry.record)
    (hchars : ∀ bits, DecodedArg.f64 bits ∈ entry.record.args → Faithful chars bits)
    (subsystemName : List UInt8) :
    readObject (recordObject chars entry subsystemName) =
      some (exported chars entry subsystemName) := by
  have hargs := readArgs_argObjects chars
    (entry.record.site.argTypes.zip entry.record.args)
    (fun arg harg => (List.forall₂_iff_zip.mp hmatching).2 harg)
    fun arg harg bits hbits => hchars bits (hbits ▸ (List.of_mem_zip harg).2)
  set v := recordObject chars entry subsystemName with hv
  have h₁ : (v.member "process_id").bind readString = some (entry.processId.toNat : ℤ) :=
    readString_decimalValue _
  have h₂ : (v.member "thread_id").bind readString = some (entry.record.ownerThread.toNat : ℤ) :=
    readString_decimalValue _
  have h₃ : (v.member "site_id").bind readString = some (entry.record.site.siteId.toNat : ℤ) :=
    readString_decimalValue _
  have h₄ : (v.member "correlation_id").bind readString =
      some (entry.record.correlationId.toNat : ℤ) := readString_decimalValue _
  have h₅ : (v.member "mono_ns").bind readString = some (entry.record.monoNs.toNat : ℤ) :=
    readString_decimalValue _
  have h₆ : (v.member "aligned_ns").bind readString = some (entry.alignedNs.toNat : ℤ) :=
    readString_decimalValue _
  have h₇ : (v.member "severity").bind readNumber =
      some (entry.record.site.severity.toNat : ℤ) := Json.decimal_readDecimal _
  have h₈ : (v.member "subsystem_id").bind readNumber =
      some (entry.record.site.subsystem.toNat : ℤ) := Json.decimal_readDecimal _
  have h₉ : (v.member "source_line").bind readNumber =
      some (entry.record.site.line.toNat : ℤ) := Json.decimal_readDecimal _
  have h₁₀ : (v.member "truncated").bind readBool = some entry.record.truncated := rfl
  have h₁₁ : (v.member "subsystem_name").bind readBytes = some subsystemName :=
    readBytes_textObject _
  have h₁₂ : (v.member "format").bind readBytes = some entry.record.site.format :=
    readBytes_textObject _
  have h₁₃ : (v.member "file").bind readBytes = some entry.record.site.file :=
    readBytes_textObject _
  have h₁₄ : (v.member "message").bind readBytes = some (renderMessage chars entry.record) :=
    readBytes_textObject _
  have h₁₅ : (v.member "segment_generation").bind readString =
      some (entry.record.segmentGeneration.toNat : ℤ) := readString_decimalValue _
  have h₁₆ : (v.member "record_offset").bind readString = some (entry.record.recordOffset : ℤ) :=
    readString_decimalValue _
  have h₁₇ : (v.member "args").bind readArgs = some ((entry.record.site.argTypes.zip
      entry.record.args).map fun arg => ((arg.1.toByte.toNat : ℤ), exportedArg arg.2)) := hargs
  unfold readObject
  rw [h₁, h₂, h₃, h₄, h₅, h₆, h₇, h₈, h₉, h₁₀, h₁₁, h₁₂, h₁₃, h₁₄, h₁₅, h₁₆, h₁₇]
  rfl

/-- No byte of a text without control characters is one. -/
theorem encode_printable {text : List Char} (h : ∀ c ∈ text, 32 ≤ c.toNat) :
    ∀ b ∈ encode text, 32 ≤ b.toNat := by
  intro b hb
  obtain ⟨c, hc, hbc⟩ := List.mem_flatMap.mp hb
  by_cases hascii : c.toNat < 128
  · rw [encodeChar_ascii hascii, List.mem_singleton] at hbc
    have hlow := h c hc
    rw [hbc, UInt8.toNat_ofNat', Nat.mod_eq_of_lt (by omega)]
    exact hlow
  · have hhigh := encodeChar_high (by omega) b hbc
    omega

/-- What can be exported: arguments of the alternatives of their codes, an offset that is a
`size_t`, and doubles that the library prints as it promises. -/
structure Exportable (chars : DoubleChars) (entry : MergedRecord) : Prop where
  matching : Matching entry.record
  offset : entry.record.recordOffset < 2 ^ 64
  doubles : ∀ bits, DecodedArg.f64 bits ∈ entry.record.args → Faithful chars bits

theorem formatJson_readLine {chars : DoubleChars} {entry : MergedRecord}
    (h : Exportable chars entry) (subsystemName : List UInt8) :
    ∃ text members, formatJson chars entry subsystemName = .ok (encode text) ∧
      Json.parse text = some (.object members) ∧ (∀ c ∈ text, 32 ≤ c.toNat) ∧
      readLine (encode text) = some (exported chars entry subsystemName) := by
  have hwellFormed := recordObject_wellFormed h.doubles subsystemName
  have hparse := Json.parse_print hwellFormed
  refine ⟨_, _, formatJson_eq h.matching h.offset fun bits hbits => (h.doubles bits hbits).printed,
    hparse, Json.print_printable _ hwellFormed, ?_⟩
  unfold readLine
  rw [decode_encode]
  show (Json.parse _ >>= _) = _
  rw [hparse]
  exact readObject_recordObject h.matching h.doubles subsystemName

/-- **JSON export round trip.** -/
theorem formatJson_roundTrip (chars : DoubleChars) (entry : MergedRecord)
    (subsystemName : List UInt8) (h : Exportable chars entry) :
    ∃ line, formatJson chars entry subsystemName = .ok line ∧
      (∀ b ∈ line, 0x20 ≤ b.toNat) ∧
      (∃ text members, line = encode text ∧ Json.parse text = some (.object members)) ∧
      readLine line = some (exported chars entry subsystemName) ∧
      ∀ (entry' : MergedRecord) (subsystemName' : List UInt8), Exportable chars entry' →
        exported chars entry' subsystemName' ≠ exported chars entry subsystemName →
          formatJson chars entry' subsystemName' ≠ .ok line := by
  obtain ⟨text, members, hformat, hparse, hprintable, hread⟩ := formatJson_readLine h subsystemName
  refine ⟨encode text, hformat, encode_printable hprintable, ⟨text, members, rfl, hparse⟩, hread,
    fun entry' subsystemName' h' hne hsame => ?_⟩
  obtain ⟨text', -, hformat', -, -, hread'⟩ := formatJson_readLine h' subsystemName'
  -- one line has one reading
  have hline : encode text' = encode text := Except.ok.inj (hformat'.symm.trans hsame)
  rw [hline, hread] at hread'
  exact hne (Option.some.inj hread').symm

/-- A record with an integer, a double and bytes that are no text. -/
def sampleEntry : MergedRecord where
  record :=
    { site := ⟨16, 2, 3, 40, [123, 125, 34], [97, 10], [.u8, .f64, .bytes]⟩
      monoNs := 5
      correlationId := 0
      ownerThread := 9
      truncated := true
      args := [.u64 7, .f64 0x3ff8000000000000, .bytes [34, 255]]
      segmentGeneration := 1
      recordOffset := 96 }
  processId := 11
  alignedNs := 1005

/-- The texts of 1.5. -/
def sampleChars : DoubleChars := ⟨fun _ => "1.5".toList, fun _ => "1.5".toList⟩

theorem sample_exportable : Exportable sampleChars sampleEntry where
  matching := List.Forall₂.cons rfl (List.Forall₂.cons rfl (List.Forall₂.cons rfl List.Forall₂.nil))
  offset := by decide
  doubles := by
    intro bits hbits
    have hargs : DecodedArg.f64 bits ∈
        [DecodedArg.u64 7, .f64 0x3ff8000000000000, .bytes [34, 255]] := hbits
    simp only [List.mem_cons, List.not_mem_nil, or_false, reduceCtorEq, false_or,
      DecodedArg.f64.injEq] at hargs
    subst hargs
    exact fun _ _ => by decide +kernel

theorem formatJson_roundTrip_sample :
    ∃ line, formatJson sampleChars sampleEntry [110] = .ok line ∧
      (∀ b ∈ line, 0x20 ≤ b.toNat) ∧
      (∃ text members, line = encode text ∧ Json.parse text = some (.object members)) ∧
      readLine line = some (exported sampleChars sampleEntry [110]) ∧
      ∀ (entry' : MergedRecord) (subsystemName' : List UInt8), Exportable sampleChars entry' →
        exported sampleChars entry' subsystemName' ≠ exported sampleChars sampleEntry [110] →
          formatJson sampleChars entry' subsystemName' ≠ .ok line :=
  formatJson_roundTrip sampleChars sampleEntry [110] sample_exportable

end Sub0Log.Export
