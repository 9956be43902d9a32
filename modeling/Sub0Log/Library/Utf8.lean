import Mathlib

/-!
# UTF-8 texts as byte lists

`encode` gives the bytes of a text and `decode` the text back, both from the character
encoding of the core library. Characters are Unicode scalar values, so a byte list is valid
UTF-8 exactly when it is an `encode`.

`WellFormed` is the same without characters, as RFC 3629 has it: the shortest encodings of
some scalar values, one after another (`wellFormed_iff`).
-/

namespace Utf8

/-- The bytes of a text. -/
def encode (text : List Char) : List UInt8 := text.flatMap String.utf8EncodeChar

/-- The text of some bytes, if they are one's. -/
def decode (bytes : List UInt8) : Option (List Char) :=
  bytes.toByteArray.utf8Decode?.map Array.toList

@[simp] theorem encode_nil : encode [] = [] := rfl

@[simp] theorem encode_cons (c : Char) (text : List Char) :
    encode (c :: text) = String.utf8EncodeChar c ++ encode text := List.flatMap_cons

@[simp] theorem encode_append (a b : List Char) : encode (a ++ b) = encode a ++ encode b :=
  List.flatMap_append

/-- Decoding undoes encoding. -/
theorem decode_encode (text : List Char) : decode (encode text) = some text := by
  have hbytes : (encode text).toByteArray = text.utf8Encode := rfl
  unfold decode
  rw [hbytes, List.utf8Decode?_utf8Encode]
  rfl

theorem encode_injective {a b : List Char} (h : encode a = encode b) : a = b := by
  have hdecode := congrArg decode h
  rw [decode_encode, decode_encode] at hdecode
  exact Option.some.inj hdecode

/-! ### One character -/

theorem toNat_lt (c : Char) : c.toNat < 1114112 := by
  have hvalid := c.valid
  change c.toNat < 55296 ∨ 57343 < c.toNat ∧ c.toNat < 1114112 at hvalid
  omega

/-- A character of seven bits is its own byte. -/
theorem encodeChar_ascii {c : Char} (h : c.toNat < 128) :
    String.utf8EncodeChar c = [UInt8.ofNat c.toNat] := by
  unfold String.utf8EncodeChar
  exact if_pos (Nat.le_of_lt_succ h)

/-- A text of seven-bit characters has as many bytes. -/
theorem length_encode_ascii {text : List Char} (h : ∀ c ∈ text, c.toNat < 128) :
    (encode text).length = text.length := by
  induction text with
  | nil => rfl
  | cons c text ih =>
    rw [encode_cons, encodeChar_ascii (h c List.mem_cons_self), List.length_append, List.length_cons,
      ih fun x hx => h x (List.mem_cons_of_mem _ hx)]
    exact Nat.add_comm _ _

/-- Every byte of another character has its eighth bit set. -/
theorem encodeChar_high {c : Char} (h : 128 ≤ c.toNat) :
    ∀ b ∈ String.utf8EncodeChar c, 128 ≤ b.toNat := by
  have hle := toNat_lt c
  have hnot : ¬ c.val.toNat ≤ 127 := by
    change ¬ c.toNat ≤ 127
    omega
  change 128 ≤ c.val.toNat at h
  change c.val.toNat < 1114112 at hle
  generalize hn : c.val.toNat = n at h hle hnot
  intro b hb
  unfold String.utf8EncodeChar at hb
  simp only [hn] at hb
  rw [if_neg hnot] at hb
  split at hb
  · simp only [List.mem_cons, List.not_mem_nil, or_false] at hb
    rcases hb with rfl | rfl <;> rw [UInt8.toNat_ofNat'] <;> omega
  split at hb
  · simp only [List.mem_cons, List.not_mem_nil, or_false] at hb
    rcases hb with rfl | rfl | rfl <;> rw [UInt8.toNat_ofNat'] <;> omega
  · simp only [List.mem_cons, List.not_mem_nil, or_false] at hb
    rcases hb with rfl | rfl | rfl | rfl <;> rw [UInt8.toNat_ofNat'] <;> omega

theorem toNat_ofNat {n : ℕ} (h : n.isValidChar) : (Char.ofNat n).toNat = n := by
  unfold Char.ofNat
  rw [dif_pos h]
  rfl

/-- The bytes of a character of two, three and four bytes. -/
theorem encodeChar_two {c : Char} (hlow : 128 ≤ c.toNat) (hhigh : c.toNat < 2048) :
    String.utf8EncodeChar c =
      [UInt8.ofNat (c.toNat / 64 + 192), UInt8.ofNat (c.toNat % 64 + 128)] := by
  change 128 ≤ c.val.toNat at hlow
  change c.val.toNat < 2048 at hhigh
  unfold String.utf8EncodeChar Char.toNat
  simp only
  rw [if_neg (by omega), if_pos (by omega), Nat.mod_eq_of_lt (by omega : c.val.toNat / 64 < 32)]

theorem encodeChar_three {c : Char} (hlow : 2048 ≤ c.toNat) (hhigh : c.toNat < 65536) :
    String.utf8EncodeChar c =
      [UInt8.ofNat (c.toNat / 4096 + 224), UInt8.ofNat (c.toNat / 64 % 64 + 128),
        UInt8.ofNat (c.toNat % 64 + 128)] := by
  change 2048 ≤ c.val.toNat at hlow
  change c.val.toNat < 65536 at hhigh
  unfold String.utf8EncodeChar Char.toNat
  simp only
  rw [if_neg (by omega), if_neg (by omega), if_pos (by omega),
    Nat.mod_eq_of_lt (by omega : c.val.toNat / 4096 < 16)]

theorem encodeChar_four {c : Char} (hlow : 65536 ≤ c.toNat) :
    String.utf8EncodeChar c =
      [UInt8.ofNat (c.toNat / 262144 + 240), UInt8.ofNat (c.toNat / 4096 % 64 + 128),
        UInt8.ofNat (c.toNat / 64 % 64 + 128), UInt8.ofNat (c.toNat % 64 + 128)] := by
  have hhigh := toNat_lt c
  change 65536 ≤ c.val.toNat at hlow
  change c.val.toNat < 1114112 at hhigh
  unfold String.utf8EncodeChar Char.toNat
  simp only
  rw [if_neg (by omega), if_neg (by omega), if_neg (by omega),
    Nat.mod_eq_of_lt (by omega : c.val.toNat / 262144 < 8)]

/-! ### Well-formed byte strings -/

/-- A Unicode scalar value: a code point that is not a surrogate. -/
def Scalar (n : ℕ) : Prop := n < 0xD800 ∨ 0xDFFF < n ∧ n ≤ 0x10FFFF

/-- The shortest encoding of a code point: seven, eleven, sixteen or twenty-one bits in one
to four bytes. -/
def shortest (n : ℕ) : List UInt8 :=
  if n < 0x80 then [UInt8.ofNat n]
  else if n < 0x800 then [UInt8.ofNat (0xC0 + n / 64), UInt8.ofNat (0x80 + n % 64)]
  else if n < 0x10000 then
    [UInt8.ofNat (0xE0 + n / 4096), UInt8.ofNat (0x80 + n / 64 % 64), UInt8.ofNat (0x80 + n % 64)]
  else
    [UInt8.ofNat (0xF0 + n / 262144), UInt8.ofNat (0x80 + n / 4096 % 64),
      UInt8.ofNat (0x80 + n / 64 % 64), UInt8.ofNat (0x80 + n % 64)]

/-- Well-formed UTF-8. -/
def WellFormed (bytes : List UInt8) : Prop :=
  ∃ scalars : List ℕ, (∀ n ∈ scalars, Scalar n) ∧ bytes = scalars.flatMap shortest

theorem encodeChar_shortest (c : Char) : String.utf8EncodeChar c = shortest c.toNat := by
  unfold shortest
  split
  · exact encodeChar_ascii ‹_›
  split
  · rw [encodeChar_two (by omega) ‹_›, Nat.add_comm 0xC0, Nat.add_comm 0x80]
  split
  · rw [encodeChar_three (by omega) ‹_›, Nat.add_comm 0xE0, Nat.add_comm 0x80, Nat.add_comm 0x80]
  · rw [encodeChar_four (by omega), Nat.add_comm 0xF0, Nat.add_comm 0x80, Nat.add_comm 0x80,
      Nat.add_comm 0x80]

theorem encode_shortest (text : List Char) : encode text = (text.map Char.toNat).flatMap shortest := by
  unfold encode
  rw [List.flatMap_map]
  exact List.flatMap_congr fun c _ => encodeChar_shortest c

theorem scalar_toNat (c : Char) : Scalar c.toNat := by
  have hvalid := c.valid
  change c.toNat < 0xD800 ∨ 0xDFFF < c.toNat ∧ c.toNat < 0x110000 at hvalid
  unfold Scalar
  omega

/-- The scalar values are the codes of the characters. -/
theorem wellFormed_iff (bytes : List UInt8) : WellFormed bytes ↔ ∃ text, bytes = encode text := by
  constructor
  · rintro ⟨scalars, hscalars, rfl⟩
    have hvalid : ∀ n ∈ scalars, (Char.ofNat n).toNat = n := by
      intro n hn
      have hn' := hscalars n hn
      unfold Scalar at hn'
      exact toNat_ofNat (show n < 0xD800 ∨ 0xDFFF < n ∧ n < 0x110000 by omega)
    refine ⟨scalars.map Char.ofNat, ?_⟩
    rw [encode_shortest, List.map_map]
    exact congrArg _ ((List.map_id scalars).symm.trans
      (List.map_congr_left fun n hn => (hvalid n hn).symm))
  · rintro ⟨text, rfl⟩
    refine ⟨text.map Char.toNat, ?_, encode_shortest text⟩
    intro n hn
    obtain ⟨c, -, rfl⟩ := List.mem_map.mp hn
    exact scalar_toNat c

end Utf8
