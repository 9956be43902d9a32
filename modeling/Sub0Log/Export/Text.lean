import Sub0Log.Library.Json
import Sub0Log.Library.Utf8

/-!
# Bytes in the exported text

The four functions of `json.hpp` that put arbitrary bytes into a JSON text: `validUtf8`,
`appendQuoted`, `appendHex` and `appendText`.

**`validUtf8_iff`**: the validator accepts exactly the bytes of texts, so what is quoted is
text. `appendQuoted_encode` and `appendText_spec` say what the appended bytes are: the bytes
of a JSON value written by `Json.print`.
-/

namespace Sub0Log.Export

open Utf8

/-- The bytes of a literal of the source. -/
def literal (s : String) : List UInt8 := encode s.toList

/-! ### The validator -/

/-- What a first byte above 0x7f announces: the bytes to come, its own bits of the code, and
the least code that needs so many bytes. -/
def utf8Lead (first : UInt8) : Option (ℕ × ℕ × ℕ) :=
  if 0xc2 ≤ first ∧ first ≤ 0xdf then some (1, (first &&& 0x1f).toNat, 0x80)
  else if 0xe0 ≤ first ∧ first ≤ 0xef then some (2, (first &&& 0x0f).toNat, 0x800)
  else if 0xf0 ≤ first ∧ first ≤ 0xf4 then some (3, (first &&& 0x07).toNat, 0x10000)
  else none

/-- The bytes that were announced, each with six more bits of the code. -/
def utf8Tail (code : ℕ) : (count : ℕ) → List UInt8 → Option (ℕ × List UInt8)
  | 0, rest => some (code, rest)
  | _ + 1, [] => none
  | count + 1, next :: rest =>
    if next &&& 0xc0 ≠ 0x80 then none
    else utf8Tail (code <<< 6 ||| (next &&& 0x3f).toNat) count rest

/-- One iteration of the validator: what is left behind one character. -/
def utf8Step (first : UInt8) (rest : List UInt8) : Option (List UInt8) :=
  if first < 0x80 then some rest
  else
    match utf8Lead first with
    | none => none
    | some (count, code, minimum) =>
      if rest.length < count then none
      else
        match utf8Tail code count rest with
        | none => none
        | some (code, rest) =>
          if code < minimum ∨ 0x10ffff < code ∨ (0xd800 ≤ code ∧ code ≤ 0xdfff) then none
          else some rest

def validUtf8Loop : (fuel : ℕ) → List UInt8 → Bool
  | _, [] => true
  | 0, _ :: _ => false
  | fuel + 1, first :: rest =>
    match utf8Step first rest with
    | none => false
    | some rest => validUtf8Loop fuel rest

/-- `validUtf8`. Every iteration takes a byte. -/
def validUtf8 (text : List UInt8) : Bool := validUtf8Loop text.length text

/-- A byte continues a character when its two high bits say so. -/
theorem continues_iff (b : UInt8) : b &&& 0xc0 = 0x80 ↔ 128 ≤ b.toNat ∧ b.toNat < 192 := by
  have hall : ∀ n < 256, n &&& 192 = 128 ↔ 128 ≤ n ∧ n < 192 := by decide +kernel
  rw [← UInt8.toNat_inj, UInt8.toNat_and]
  exact hall b.toNat b.toNat_lt

theorem utf8Tail_cons (code count : ℕ) (next : UInt8) (rest : List UInt8) :
    utf8Tail code (count + 1) (next :: rest) =
      if 128 ≤ next.toNat ∧ next.toNat < 192 then
        utf8Tail (code * 64 + next.toNat % 64) count rest
      else none := by
  have hbits : (next &&& 0x3f).toNat = next.toNat % 64 := by
    rw [UInt8.toNat_and]
    exact Nat.and_two_pow_sub_one_eq_mod next.toNat 6
  have hcode : code <<< 6 ||| (next &&& 0x3f).toNat = code * 64 + next.toNat % 64 := by
    rw [hbits, ← Nat.shiftLeft_add_eq_or_of_lt (Nat.mod_lt _ (by decide)), Nat.shiftLeft_eq]
  rw [utf8Tail, hcode]
  by_cases hcont : next &&& 0xc0 = 0x80
  · rw [if_neg (not_not_intro hcont), if_pos ((continues_iff next).mp hcont)]
  · rw [if_pos hcont, if_neg fun h => hcont ((continues_iff next).mpr h)]

theorem utf8Lead_two {first : UInt8} (h : 194 ≤ first.toNat ∧ first.toNat ≤ 223) :
    utf8Lead first = some (1, first.toNat % 32, 128) := by
  have hbits : (first &&& 0x1f).toNat = first.toNat % 32 := by
    rw [UInt8.toNat_and]
    exact Nat.and_two_pow_sub_one_eq_mod first.toNat 5
  unfold utf8Lead
  rw [hbits]
  exact if_pos h

theorem utf8Lead_three {first : UInt8} (h : 224 ≤ first.toNat ∧ first.toNat ≤ 239) :
    utf8Lead first = some (2, first.toNat % 16, 2048) := by
  have hbits : (first &&& 0x0f).toNat = first.toNat % 16 := by
    rw [UInt8.toNat_and]
    exact Nat.and_two_pow_sub_one_eq_mod first.toNat 4
  have htwo : ¬ (194 ≤ first.toNat ∧ first.toNat ≤ 223) := by omega
  unfold utf8Lead
  rw [hbits]
  exact (if_neg htwo).trans (if_pos h)

theorem utf8Lead_four {first : UInt8} (h : 240 ≤ first.toNat ∧ first.toNat ≤ 244) :
    utf8Lead first = some (3, first.toNat % 8, 65536) := by
  have hbits : (first &&& 0x07).toNat = first.toNat % 8 := by
    rw [UInt8.toNat_and]
    exact Nat.and_two_pow_sub_one_eq_mod first.toNat 3
  have htwo : ¬ (194 ≤ first.toNat ∧ first.toNat ≤ 223) := by omega
  have hthree : ¬ (224 ≤ first.toNat ∧ first.toNat ≤ 239) := by omega
  unfold utf8Lead
  rw [hbits]
  exact (if_neg htwo).trans ((if_neg hthree).trans (if_pos h))

/-- The three shapes of a first byte above 0x7f. -/
theorem utf8Lead_cases {first : UInt8} {lead : ℕ × ℕ × ℕ} (h : utf8Lead first = some lead) :
    (194 ≤ first.toNat ∧ first.toNat ≤ 223) ∨ (224 ≤ first.toNat ∧ first.toNat ≤ 239) ∨
      240 ≤ first.toNat ∧ first.toNat ≤ 244 := by
  by_contra hnone
  simp only [not_or] at hnone
  have hlead : utf8Lead first = none := by
    unfold utf8Lead
    exact (if_neg hnone.1).trans ((if_neg hnone.2.1).trans (if_neg hnone.2.2))
  rw [hlead] at h
  cases h

/-- A code the validator lets through is a scalar value. -/
theorem isValidChar_of_code {code minimum : ℕ}
    (h : ¬ (code < minimum ∨ 0x10ffff < code ∨ (0xd800 ≤ code ∧ code ≤ 0xdfff))) :
    minimum ≤ code ∧ code.isValidChar := by
  refine ⟨by omega, ?_⟩
  change code < 55296 ∨ 57343 < code ∧ code < 1114112
  omega

/-- The character whose code was read. -/
theorem exists_char {code : ℕ} (h : code.isValidChar) : ∃ c : Char, c.toNat = code :=
  ⟨Char.ofNat code, toNat_ofNat h⟩

theorem ofNat_eq {n : ℕ} {b : UInt8} (h : n = b.toNat) : UInt8.ofNat n = b := by
  rw [h]
  exact UInt8.ofNat_toNat

/-- What one iteration takes are the bytes of a character. -/
theorem utf8Step_sound {first : UInt8} {rest left : List UInt8}
    (h : utf8Step first rest = some left) :
    ∃ c : Char, first :: rest = String.utf8EncodeChar c ++ left := by
  have hbyte := first.toNat_lt
  unfold utf8Step at h
  split at h
  · rename_i hascii
    have hlt : first.toNat < 128 := hascii
    obtain ⟨c, hc⟩ := exists_char (Or.inl (by omega) : first.toNat.isValidChar)
    obtain rfl := Option.some.inj h
    refine ⟨c, ?_⟩
    rw [encodeChar_ascii (by omega), ofNat_eq hc]
    rfl
  cases hlead : utf8Lead first with
  | none =>
    rw [hlead] at h
    cases h
  | some lead =>
    rcases utf8Lead_cases hlead with hrange | hrange | hrange
    · rw [utf8Lead_two hrange] at h
      simp only at h
      match rest with
      | [] => cases h
      | b :: rest =>
        rw [if_neg (by simp), utf8Tail_cons] at h
        by_cases hb : 128 ≤ b.toNat ∧ b.toNat < 192
        · rw [if_pos hb, utf8Tail] at h
          simp only at h
          split at h
          · cases h
          rename_i hcode
          obtain ⟨hmin, hvalid⟩ := isValidChar_of_code hcode
          obtain ⟨c, hc⟩ := exists_char hvalid
          obtain rfl := Option.some.inj h
          refine ⟨c, ?_⟩
          rw [encodeChar_two (by omega) (by omega), ofNat_eq (b := first) (by omega),
            ofNat_eq (b := b) (by omega)]
          rfl
        · rw [if_neg hb] at h
          cases h
    · rw [utf8Lead_three hrange] at h
      simp only at h
      match rest with
      | [] => cases h
      | [_] => cases h
      | b :: b' :: rest =>
        rw [if_neg (by simp), utf8Tail_cons] at h
        by_cases hb : 128 ≤ b.toNat ∧ b.toNat < 192
        · rw [if_pos hb, utf8Tail_cons] at h
          by_cases hb' : 128 ≤ b'.toNat ∧ b'.toNat < 192
          · rw [if_pos hb', utf8Tail] at h
            simp only at h
            split at h
            · cases h
            rename_i hcode
            obtain ⟨hmin, hvalid⟩ := isValidChar_of_code hcode
            obtain ⟨c, hc⟩ := exists_char hvalid
            obtain rfl := Option.some.inj h
            refine ⟨c, ?_⟩
            rw [encodeChar_three (by omega) (by omega), ofNat_eq (b := first) (by omega),
              ofNat_eq (b := b) (by omega), ofNat_eq (b := b') (by omega)]
            rfl
          · rw [if_neg hb'] at h
            cases h
        · rw [if_neg hb] at h
          cases h
    · rw [utf8Lead_four hrange] at h
      simp only at h
      match rest with
      | [] => cases h
      | [_] => cases h
      | [_, _] => cases h
      | b :: b' :: b'' :: rest =>
        rw [if_neg (by simp), utf8Tail_cons] at h
        by_cases hb : 128 ≤ b.toNat ∧ b.toNat < 192
        · rw [if_pos hb, utf8Tail_cons] at h
          by_cases hb' : 128 ≤ b'.toNat ∧ b'.toNat < 192
          · rw [if_pos hb', utf8Tail_cons] at h
            by_cases hb'' : 128 ≤ b''.toNat ∧ b''.toNat < 192
            · rw [if_pos hb'', utf8Tail] at h
              simp only at h
              split at h
              · cases h
              rename_i hcode
              obtain ⟨hmin, hvalid⟩ := isValidChar_of_code hcode
              obtain ⟨c, hc⟩ := exists_char hvalid
              obtain rfl := Option.some.inj h
              refine ⟨c, ?_⟩
              rw [encodeChar_four (by omega), ofNat_eq (b := first) (by omega),
                ofNat_eq (b := b) (by omega), ofNat_eq (b := b') (by omega),
                ofNat_eq (b := b'') (by omega)]
              rfl
            · rw [if_neg hb''] at h
              cases h
          · rw [if_neg hb'] at h
            cases h
        · rw [if_neg hb] at h
          cases h

/-- The bytes of a character are taken by one iteration. -/
theorem utf8Step_encodeChar (c : Char) (rest : List UInt8) :
    ∃ first more, String.utf8EncodeChar c = first :: more ∧
      utf8Step first (more ++ rest) = some rest := by
  have hlt := toNat_lt c
  have hvalid : c.toNat < 55296 ∨ 57343 < c.toNat := by
    have hvalid := c.valid
    change c.toNat < 55296 ∨ 57343 < c.toNat ∧ c.toNat < 1114112 at hvalid
    omega
  have hof : ∀ n < 256, (UInt8.ofNat n).toNat = n := fun n h => UInt8.toNat_ofNat_of_lt' h
  by_cases hone : c.toNat < 128
  · refine ⟨_, [], encodeChar_ascii hone, if_pos ?_⟩
    have hbyte := hof c.toNat (by omega)
    change (UInt8.ofNat c.toNat).toNat < 128
    omega
  have hhigh : ∀ first : UInt8, 128 ≤ first.toNat → ¬ first < 0x80 := by
    intro first h hlt
    change first.toNat < 128 at hlt
    omega
  by_cases htwo : c.toNat < 2048
  · have hfirst := hof (c.toNat / 64 + 192) (by omega)
    have hsecond := hof (c.toNat % 64 + 128) (by omega)
    refine ⟨_, _, encodeChar_two (by omega) htwo, ?_⟩
    unfold utf8Step
    rw [if_neg (hhigh _ (by omega)), utf8Lead_two (by omega)]
    simp only [List.cons_append, List.nil_append]
    rw [if_neg (by simp), utf8Tail_cons, if_pos (by omega), utf8Tail]
    simp only
    rw [if_neg (by omega)]
  by_cases hthree : c.toNat < 65536
  · have hfirst := hof (c.toNat / 4096 + 224) (by omega)
    have hsecond := hof (c.toNat / 64 % 64 + 128) (by omega)
    have hthird := hof (c.toNat % 64 + 128) (by omega)
    refine ⟨_, _, encodeChar_three (by omega) hthree, ?_⟩
    unfold utf8Step
    rw [if_neg (hhigh _ (by omega)), utf8Lead_three (by omega)]
    simp only [List.cons_append, List.nil_append]
    rw [if_neg (by simp), utf8Tail_cons, if_pos (by omega), utf8Tail_cons, if_pos (by omega),
      utf8Tail]
    simp only
    rw [if_neg (by omega)]
  · have hfirst := hof (c.toNat / 262144 + 240) (by omega)
    have hsecond := hof (c.toNat / 4096 % 64 + 128) (by omega)
    have hthird := hof (c.toNat / 64 % 64 + 128) (by omega)
    have hfourth := hof (c.toNat % 64 + 128) (by omega)
    refine ⟨_, _, encodeChar_four (by omega), ?_⟩
    unfold utf8Step
    rw [if_neg (hhigh _ (by omega)), utf8Lead_four (by omega)]
    simp only [List.cons_append, List.nil_append]
    rw [if_neg (by simp), utf8Tail_cons, if_pos (by omega), utf8Tail_cons, if_pos (by omega),
      utf8Tail_cons, if_pos (by omega), utf8Tail]
    simp only
    rw [if_neg (by omega)]

/-- **The validator accepts exactly the bytes of texts.** -/
theorem validUtf8_iff (bytes : List UInt8) :
    validUtf8 bytes = true ↔ ∃ text, bytes = encode text := by
  unfold validUtf8
  constructor
  · generalize bytes.length = fuel
    intro h
    induction fuel generalizing bytes with
    | zero =>
      match bytes with
      | [] => exact ⟨[], rfl⟩
      | _ :: _ => cases h
    | succ fuel ih =>
      match bytes with
      | [] => exact ⟨[], rfl⟩
      | first :: rest =>
        rw [validUtf8Loop] at h
        cases hstep : utf8Step first rest with
        | none =>
          rw [hstep] at h
          cases h
        | some left =>
          rw [hstep] at h
          obtain ⟨c, hc⟩ := utf8Step_sound hstep
          obtain ⟨text, rfl⟩ := ih left h
          exact ⟨c :: text, hc⟩
  · rintro ⟨text, rfl⟩
    -- as many iterations as there are bytes are enough
    have hfuel : ∀ fuel, (encode text).length ≤ fuel → validUtf8Loop fuel (encode text) = true := by
      induction text with
      | nil => intro fuel _; cases fuel <;> rfl
      | cons c text ih =>
        intro fuel hfuel
        obtain ⟨first, more, hchar, hstep⟩ := utf8Step_encodeChar c (encode text)
        rw [encode_cons, hchar, List.cons_append] at hfuel ⊢
        rw [List.length_cons, List.length_append] at hfuel
        obtain ⟨fuel, rfl⟩ : ∃ n, fuel = n + 1 := ⟨fuel - 1, by omega⟩
        rw [validUtf8Loop, hstep]
        exact ih fuel (by omega)
    exact hfuel _ (Nat.le_refl _)

/-! ### Quoting -/

/-- `cHexDigits`. -/
def cHexDigits : List UInt8 := literal "0123456789abcdef"

def hexDigit (n : UInt8) : UInt8 := cHexDigits.getD n.toNat 0

/-- One byte of a quoted text. -/
def quotedByte (byte : UInt8) : List UInt8 :=
  if byte = 34 ∨ byte = 92 then [92, byte]
  else if byte < 0x20 then literal "\\u00" ++ [hexDigit (byte >>> 4), hexDigit (byte &&& 0x0f)]
  else [byte]

/-- `appendQuoted`. -/
def appendQuoted (out text : List UInt8) : List UInt8 :=
  out ++ literal "\"" ++ text.flatMap quotedByte ++ literal "\""

/-- `appendHex`. -/
def appendHex (out bytes : List UInt8) : List UInt8 :=
  out ++ literal "\x7b\"encoding\":\"hex\",\"value\":\"" ++
    (bytes.flatMap fun byte : UInt8 => [hexDigit (byte >>> 4), hexDigit (byte &&& 0x0f)]) ++
    literal "\"\x7d"

/-- `appendText`. -/
def appendText (out bytes : List UInt8) : List UInt8 :=
  if validUtf8 bytes = false then appendHex out bytes
  else
    appendQuoted (out ++ literal "\x7b\"encoding\":\"utf8\",\"value\":") bytes ++ literal "\x7d"

/-- Quoting the bytes of a character is escaping the character. -/
theorem quotedByte_encodeChar (c : Char) :
    (String.utf8EncodeChar c).flatMap quotedByte = encode (Json.escape c) := by
  by_cases hascii : c.toNat < 128
  · have hall : ∀ n < 128, quotedByte (UInt8.ofNat n) = encode (Json.escape (Char.ofNat n)) := by
      decide +kernel
    have hc := hall c.toNat hascii
    rw [Char.ofNat_toNat] at hc
    rw [encodeChar_ascii hascii, List.flatMap_cons, List.flatMap_nil, List.append_nil, hc]
  · have hhigh := encodeChar_high (c := c) (by omega)
    have hplain : ∀ b ∈ String.utf8EncodeChar c, quotedByte b = [b] := by
      intro b hb
      have hb' := hhigh b hb
      have hne : ∀ n : UInt8, n.toNat < 128 → b ≠ n := by
        rintro n hn rfl
        omega
      have hlow : ¬ b < 0x20 := by
        intro hlt
        change b.toNat < 32 at hlt
        omega
      unfold quotedByte
      rw [if_neg, if_neg hlow]
      rintro (h | h)
      · exact hne 34 (by decide) h
      · exact hne 92 (by decide) h
    have hescape : Json.escape c = [c] := by
      unfold Json.escape
      rw [if_neg, if_neg (by omega)]
      rintro (rfl | rfl) <;> exact hascii (by decide)
    rw [hescape, List.flatMap_congr hplain, encode_cons, encode_nil, List.append_nil,
      List.flatMap_singleton']

theorem quotedByte_encode (text : List Char) :
    (encode text).flatMap quotedByte = encode (text.flatMap Json.escape) := by
  induction text with
  | nil => rfl
  | cons c text ih =>
    rw [encode_cons, List.flatMap_append, quotedByte_encodeChar, ih, List.flatMap_cons,
      encode_append]

/-- A quoted text is a JSON string. -/
theorem appendQuoted_encode (out : List UInt8) (text : List Char) :
    appendQuoted out (encode text) = out ++ encode (Json.printString text) := by
  unfold appendQuoted Json.printString literal
  rw [quotedByte_encode, encode_cons, encode_append]
  simp only [List.append_assoc]
  rfl

/-! ### Byte objects -/

/-- The hexadecimal digits of some bytes. -/
def hexText (bytes : List UInt8) : List Char :=
  bytes.flatMap fun b => [Nat.digitChar (b.toNat / 16), Nat.digitChar (b.toNat % 16)]

def hexObject (bytes : List UInt8) : Json.Value :=
  .object [("encoding".toList, .string "hex".toList), ("value".toList, .string (hexText bytes))]

/-- The object of some bytes: as text when they are one's. -/
def textObject (bytes : List UInt8) : Json.Value :=
  if validUtf8 bytes = false then hexObject bytes
  else .object [("encoding".toList, .string "utf8".toList),
    ("value".toList, .string ((decode bytes).getD []))]

theorem hexDigits_byte (b : UInt8) : [hexDigit (b >>> 4), hexDigit (b &&& 0x0f)] =
    encode [Nat.digitChar (b.toNat / 16), Nat.digitChar (b.toNat % 16)] := by
  have hall : ∀ n < 256,
      [hexDigit (UInt8.ofNat n >>> 4), hexDigit (UInt8.ofNat n &&& 0x0f)] =
        encode [Nat.digitChar (n / 16), Nat.digitChar (n % 16)] := by decide +kernel
  have hb := hall b.toNat b.toNat_lt
  rwa [UInt8.ofNat_toNat] at hb

theorem hexDigits_encode (bytes : List UInt8) :
    (bytes.flatMap fun byte : UInt8 => [hexDigit (byte >>> 4), hexDigit (byte &&& 0x0f)]) =
      encode (hexText bytes) := by
  induction bytes with
  | nil => rfl
  | cons b bytes ih =>
    rw [List.flatMap_cons, ih, hexDigits_byte, ← encode_append]
    rfl

theorem escape_hexText (bytes : List UInt8) :
    (hexText bytes).flatMap Json.escape = hexText bytes := by
  have hplain : ∀ d < 16, Json.escape (Nat.digitChar d) = [Nat.digitChar d] := by decide
  unfold hexText
  rw [List.flatMap_assoc]
  refine List.flatMap_congr fun b _ => ?_
  have hb := b.toNat_lt
  rw [List.flatMap_cons, List.flatMap_cons, List.flatMap_nil, hplain _ (by omega),
    hplain _ (by omega)]
  rfl

theorem appendHex_eq (out bytes : List UInt8) :
    appendHex out bytes = out ++ encode (Json.print (hexObject bytes)) := by
  have hprint : Json.print (hexObject bytes) =
      "\x7b\"encoding\":\"hex\",\"value\":\"".toList ++ hexText bytes ++ "\"\x7d".toList := by
    have hstring : Json.printString (hexText bytes) = '\x22' :: (hexText bytes ++ ['\x22']) := by
      unfold Json.printString
      rw [escape_hexText]
    show _ :: (_ ++ _ :: (_ ++ _ :: (_ ++ _ :: (Json.printString (hexText bytes) ++ _)))) = _
    rw [hstring]
    simp only [List.append_assoc, List.cons_append, List.nil_append]
    rfl
  unfold appendHex literal
  rw [hprint, encode_append, encode_append, hexDigits_encode]
  simp only [List.append_assoc]

theorem appendText_eq (out bytes : List UInt8) :
    appendText out bytes = out ++ encode (Json.print (textObject bytes)) := by
  unfold appendText textObject
  by_cases hvalid : validUtf8 bytes = false
  · rw [if_pos hvalid, if_pos hvalid, appendHex_eq]
  · rw [if_neg hvalid, if_neg hvalid]
    obtain ⟨text, rfl⟩ := (validUtf8_iff bytes).mp (by simpa using hvalid)
    have hprint : Json.print (.object [("encoding".toList, .string "utf8".toList),
        ("value".toList, .string text)]) =
        "\x7b\"encoding\":\"utf8\",\"value\":".toList ++ Json.printString text ++
          "\x7d".toList := by
      show _ :: (_ ++ _ :: (_ ++ _ :: (_ ++ _ :: (Json.printString text ++ _)))) = _
      simp only [List.append_assoc]
      rfl
    rw [decode_encode, appendQuoted_encode, Option.getD_some, hprint]
    unfold literal
    rw [encode_append, encode_append]
    simp only [List.append_assoc]

end Sub0Log.Export
