import Mathlib

/-!
# JSON texts

Values, a compact writer (`print`) and a reader of all of JSON (`parse`: white space, every
escape, surrogate pairs, numbers as their tokens). Texts are lists of Unicode scalar values.

**`parse_print`**: what is written is read back, whatever the strings hold.
-/

namespace Json

/-- A value. A number is its token. -/
inductive Value
  | null
  | bool (value : Bool)
  | number (token : List Char)
  | string (text : List Char)
  | array (items : List Value)
  | object (members : List (List Char × Value))

/-! ### Numbers -/

/-- What is left behind one digit or more. -/
def skipDigits : List Char → Option (List Char)
  | [] => none
  | c :: rest => if c.isDigit then some (rest.dropWhile Char.isDigit) else none

/-- The integer part: a zero, or digits. -/
def skipInteger : List Char → Option (List Char)
  | '0' :: rest => some rest
  | text => skipDigits text

/-- The fraction, if there is one. -/
def skipFraction : List Char → Option (List Char)
  | '.' :: rest => skipDigits rest
  | text => some text

/-- The exponent, if there is one. -/
def skipExponent : List Char → Option (List Char)
  | 'e' :: '+' :: rest | 'e' :: '-' :: rest | 'E' :: '+' :: rest | 'E' :: '-' :: rest =>
    skipDigits rest
  | 'e' :: rest | 'E' :: rest => skipDigits rest
  | text => some text

/-- The token is a number. -/
def isNumber (token : List Char) : Bool :=
  let unsigned := match token with
    | '-' :: rest => rest
    | _ => token
  ((skipInteger unsigned).bind skipFraction).bind skipExponent == some []

/-- The characters numbers are made of. -/
def isNumberChar (c : Char) : Bool :=
  c.isDigit || c == '-' || c == '+' || c == '.' || c == 'e' || c == 'E'

/-! ### Strings -/

/-- How a character stands in a string. -/
def escape (c : Char) : List Char :=
  if c = '\x22' ∨ c = '\x5c' then ['\x5c', c]
  else if c.toNat < 32 then
    ['\x5c', 'u', '0', '0', Nat.digitChar (c.toNat / 16), Nat.digitChar (c.toNat % 16)]
  else [c]

def printString (text : List Char) : List Char :=
  '\x22' :: (text.flatMap escape ++ ['\x22'])

/-- The value of a hexadecimal digit, of either case. -/
def hexValue (c : Char) : Option ℕ :=
  if c.isDigit then some (c.toNat - 48)
  else if 97 ≤ c.toNat ∧ c.toNat < 103 then some (c.toNat - 87)
  else if 65 ≤ c.toNat ∧ c.toNat < 71 then some (c.toNat - 55)
  else none

/-- The code unit of four hexadecimal digits. -/
def codeUnit (a b c d : Char) : Option ℕ := do
  let a ← hexValue a
  let b ← hexValue b
  let c ← hexValue c
  let d ← hexValue d
  return ((a * 16 + b) * 16 + c) * 16 + d

/-- The escapes of two characters. -/
def shortEscape (c : Char) : Option Char :=
  if c = '\x22' ∨ c = '\x5c' ∨ c = '/' then some c
  else if c = 'b' then some '\x08'
  else if c = 'f' then some '\x0c'
  else if c = 'n' then some '\x0a'
  else if c = 'r' then some '\x0d'
  else if c = 't' then some '\x09'
  else none

/-- A string behind its opening quote, and what is left behind the closing one. -/
def parseString : List Char → Option (List Char × List Char)
  | [] => none
  | '\x22' :: rest => some ([], rest)
  | '\x5c' :: 'u' :: a :: b :: c :: d :: rest =>
    match codeUnit a b c d with
    | none => none
    | some unit =>
      if 55296 ≤ unit ∧ unit < 56320 then
        -- the first half of a pair
        match rest with
        | '\x5c' :: 'u' :: a :: b :: c :: d :: rest =>
          match codeUnit a b c d with
          | none => none
          | some low =>
            if 56320 ≤ low ∧ low < 57344 then
              (parseString rest).map fun (text, rest) =>
                (Char.ofNat (65536 + (unit - 55296) * 1024 + (low - 56320)) :: text, rest)
            else none
        | _ => none
      else if 56320 ≤ unit ∧ unit < 57344 then none
      else (parseString rest).map fun (text, rest) => (Char.ofNat unit :: text, rest)
  | '\x5c' :: e :: rest =>
    match shortEscape e with
    | none => none
    | some c => (parseString rest).map fun (text, rest) => (c :: text, rest)
  | c :: rest =>
    if c.toNat < 32 then none
    else (parseString rest).map fun (text, rest) => (c :: text, rest)

/-! ### Values -/

mutual

def print : Value → List Char
  | .null => ['n', 'u', 'l', 'l']
  | .bool true => ['t', 'r', 'u', 'e']
  | .bool false => ['f', 'a', 'l', 's', 'e']
  | .number token => token
  | .string text => printString text
  | .array items => '[' :: printItems items
  | .object members => '\x7b' :: printMembers members

/-- The items of an array behind its bracket. -/
def printItems : List Value → List Char
  | [] => [']']
  | [item] => print item ++ [']']
  | item :: items => print item ++ ',' :: printItems items

/-- The members of an object behind its brace. -/
def printMembers : List (List Char × Value) → List Char
  | [] => ['\x7d']
  | [(name, value)] => printString name ++ ':' :: (print value ++ ['\x7d'])
  | (name, value) :: members =>
    printString name ++ ':' :: (print value ++ ',' :: printMembers members)

end

def isSpace (c : Char) : Bool := c == ' ' || c == '\x09' || c == '\x0a' || c == '\x0d'

def skipSpace (text : List Char) : List Char := text.dropWhile isSpace

def parseNumber (text : List Char) : Option (Value × List Char) :=
  let token := text.takeWhile isNumberChar
  if isNumber token then some (.number token, text.dropWhile isNumberChar) else none

mutual

/-- A value, and what is left behind it. -/
def parseValue : ℕ → List Char → Option (Value × List Char)
  | 0, _ => none
  | n + 1, text =>
    match skipSpace text with
    | '\x22' :: rest => (parseString rest).map fun (text, rest) => (.string text, rest)
    | '[' :: rest =>
      match skipSpace rest with
      | ']' :: rest => some (.array [], rest)
      | rest => (parseItems n rest).map fun (items, rest) => (.array items, rest)
    | '\x7b' :: rest =>
      match skipSpace rest with
      | '\x7d' :: rest => some (.object [], rest)
      | rest => (parseMembers n rest).map fun (members, rest) => (.object members, rest)
    | 'n' :: 'u' :: 'l' :: 'l' :: rest => some (.null, rest)
    | 't' :: 'r' :: 'u' :: 'e' :: rest => some (.bool true, rest)
    | 'f' :: 'a' :: 'l' :: 's' :: 'e' :: rest => some (.bool false, rest)
    | text => parseNumber text

/-- One item or more, up to the closing bracket. -/
def parseItems : ℕ → List Char → Option (List Value × List Char)
  | 0, _ => none
  | n + 1, text =>
    match parseValue n text with
    | none => none
    | some (item, rest) =>
      match skipSpace rest with
      | ',' :: rest => (parseItems n rest).map fun (items, rest) => (item :: items, rest)
      | ']' :: rest => some ([item], rest)
      | _ => none

/-- One member or more, up to the closing brace. -/
def parseMembers : ℕ → List Char → Option (List (List Char × Value) × List Char)
  | 0, _ => none
  | n + 1, text =>
    match skipSpace text with
    | '\x22' :: rest =>
      match parseString rest with
      | none => none
      | some (name, rest) =>
        match skipSpace rest with
        | ':' :: rest =>
          match parseValue n rest with
          | none => none
          | some (value, rest) =>
            match skipSpace rest with
            | ',' :: rest =>
              (parseMembers n rest).map fun (members, rest) => ((name, value) :: members, rest)
            | '\x7d' :: rest => some ([(name, value)], rest)
            | _ => none
        | _ => none
    | _ => none

end

/-- A whole text. A value is nested no deeper than its text is long. -/
def parse (text : List Char) : Option Value :=
  match parseValue (text.length + 1) text with
  | none => none
  | some (value, rest) => if skipSpace rest = [] then some value else none

/-! ### Reading numbers back -/

/-- `text` is `rest` behind some of the characters of numbers. -/
def Behind (text rest : List Char) : Prop :=
  ∃ taken, text = taken ++ rest ∧ ∀ c ∈ taken, isNumberChar c = true

theorem Behind.refl (text : List Char) : Behind text text :=
  ⟨[], rfl, fun c hc => by cases hc⟩

theorem Behind.trans {a b c : List Char} (h : Behind a b) (h' : Behind b c) : Behind a c := by
  obtain ⟨taken, rfl, hchars⟩ := h
  obtain ⟨taken', rfl, hchars'⟩ := h'
  refine ⟨taken ++ taken', (List.append_assoc _ _ _).symm, fun x hx => ?_⟩
  rcases List.mem_append.mp hx with hold | hnew
  · exact hchars x hold
  · exact hchars' x hnew

theorem Behind.cons {c : Char} {text rest : List Char} (hc : isNumberChar c = true)
    (h : Behind text rest) : Behind (c :: text) rest := by
  obtain ⟨taken, rfl, hchars⟩ := h
  refine ⟨c :: taken, rfl, fun x hx => ?_⟩
  rcases List.mem_cons.mp hx with rfl | hx
  · exact hc
  · exact hchars x hx

theorem isNumberChar_of_isDigit {c : Char} (h : c.isDigit = true) : isNumberChar c = true := by
  unfold isNumberChar
  rw [h]
  rfl

theorem behind_skipDigits {text rest : List Char} (h : skipDigits text = some rest) :
    Behind text rest := by
  cases text with
  | nil => cases h
  | cons c text =>
    rw [skipDigits] at h
    by_cases hc : c.isDigit = true
    · rw [if_pos hc] at h
      cases h
      refine Behind.cons (isNumberChar_of_isDigit hc)
        ⟨text.takeWhile Char.isDigit, List.takeWhile_append_dropWhile.symm, fun x hx => ?_⟩
      exact isNumberChar_of_isDigit (List.mem_takeWhile_imp hx)
    · rw [if_neg hc] at h
      cases h

theorem behind_skipInteger {text rest : List Char} (h : skipInteger text = some rest) :
    Behind text rest := by
  unfold skipInteger at h
  split at h
  · cases h
    exact Behind.cons rfl (Behind.refl _)
  · exact behind_skipDigits h

theorem behind_skipFraction {text rest : List Char} (h : skipFraction text = some rest) :
    Behind text rest := by
  unfold skipFraction at h
  split at h
  · exact Behind.cons rfl (behind_skipDigits h)
  · cases h
    exact Behind.refl _

theorem behind_skipExponent {text rest : List Char} (h : skipExponent text = some rest) :
    Behind text rest := by
  unfold skipExponent at h
  split at h
  · exact Behind.cons rfl (Behind.cons rfl (behind_skipDigits h))
  · exact Behind.cons rfl (Behind.cons rfl (behind_skipDigits h))
  · exact Behind.cons rfl (Behind.cons rfl (behind_skipDigits h))
  · exact Behind.cons rfl (Behind.cons rfl (behind_skipDigits h))
  · exact Behind.cons rfl (behind_skipDigits h)
  · exact Behind.cons rfl (behind_skipDigits h)
  · cases h
    exact Behind.refl _

/-- A number consists of the characters of numbers and begins with a digit or a sign. -/
theorem isNumber_chars {token : List Char} (h : isNumber token = true) :
    (∀ c ∈ token, isNumberChar c = true) ∧
      ∃ c rest, token = c :: rest ∧ (c = '-' ∨ c.isDigit = true) := by
  unfold isNumber at h
  rw [beq_iff_eq] at h
  simp only [Option.bind_eq_some_iff] at h
  obtain ⟨rest₂, ⟨rest₁, hinteger, hfraction⟩, hexponent⟩ := h
  have hbehind := (behind_skipInteger hinteger).trans
    ((behind_skipFraction hfraction).trans (behind_skipExponent hexponent))
  obtain ⟨taken, htaken, hchars⟩ := hbehind
  rw [List.append_nil] at htaken
  subst htaken
  constructor
  · split at hchars
    · intro c hc
      rcases List.mem_cons.mp hc with rfl | hc
      · rfl
      · exact hchars c hc
    · exact hchars
  · split at hinteger
    · exact ⟨_, _, rfl, Or.inl rfl⟩
    · unfold skipInteger at hinteger
      split at hinteger
      · exact ⟨_, _, rfl, Or.inr rfl⟩
      · unfold skipDigits at hinteger
        split at hinteger
        · cases hinteger
        · split at hinteger
          · exact ⟨_, _, rfl, Or.inr ‹_›⟩
          · cases hinteger

/-- What follows a value does not carry on a number. -/
def Ends (rest : List Char) : Prop := ∀ c ∈ rest.head?, isNumberChar c = false

theorem ends_nil : Ends [] := fun c hc => by cases hc

theorem ends_cons {c : Char} (rest : List Char) (h : isNumberChar c = false) : Ends (c :: rest) := by
  rintro x ⟨⟩
  exact h

theorem parseNumber_append {token rest : List Char} (h : isNumber token = true)
    (hrest : Ends rest) : parseNumber (token ++ rest) = some (.number token, rest) := by
  obtain ⟨hchars, -⟩ := isNumber_chars h
  have hstop : rest.takeWhile isNumberChar = [] ∧ rest.dropWhile isNumberChar = rest := by
    cases rest with
    | nil => exact ⟨rfl, rfl⟩
    | cons c rest =>
      have hc := hrest c rfl
      exact ⟨List.takeWhile_cons_of_neg (by rw [hc]; exact Bool.false_ne_true),
        List.dropWhile_cons_of_neg (by rw [hc]; exact Bool.false_ne_true)⟩
  unfold parseNumber
  rw [List.takeWhile_append_of_pos hchars, List.dropWhile_append_of_pos hchars, hstop.1, hstop.2,
    List.append_nil]
  exact if_pos h

/-! ### Reading strings back -/

theorem hexValue_digitChar : ∀ d < 16, hexValue (Nat.digitChar d) = some d := by decide

/-- The escape of a character is read back as the character. -/
theorem parseString_escape (c : Char) (rest : List Char) :
    parseString (escape c ++ rest) =
      (parseString rest).map fun (text, rest) => (c :: text, rest) := by
  unfold escape
  split
  · rename_i h
    rcases h with rfl | rfl <;> rfl
  rename_i hplain
  obtain ⟨hquote, hslash⟩ := not_or.mp hplain
  split
  · rename_i hcontrol
    have hunit : codeUnit '0' '0' (Nat.digitChar (c.toNat / 16)) (Nat.digitChar (c.toNat % 16)) =
        some c.toNat := by
      have hzero : hexValue '0' = some 0 := by decide
      unfold codeUnit
      rw [hzero, hexValue_digitChar _ (by omega), hexValue_digitChar _ (by omega)]
      have hsum : ((0 * 16 + 0) * 16 + c.toNat / 16) * 16 + c.toNat % 16 = c.toNat := by omega
      exact congrArg some hsum
    show parseString ('\x5c' :: 'u' :: '0' :: '0' :: _ :: _ :: rest) = _
    rw [parseString, hunit]
    simp only
    rw [if_neg (by omega), if_neg (by omega), Char.ofNat_toNat]
  · rename_i hcontrol
    show parseString (c :: rest) = _
    rw [parseString.eq_def]
    split
    · rename_i heq
      cases heq
    · rename_i heq
      exact absurd (List.cons.inj heq).1 hquote
    · rename_i heq
      exact absurd (List.cons.inj heq).1 hslash
    · rename_i heq
      exact absurd (List.cons.inj heq).1 hslash
    · rename_i heq
      obtain ⟨rfl, rfl⟩ := List.cons.inj heq
      rw [if_neg hcontrol]

theorem parseString_print (text rest : List Char) :
    parseString (text.flatMap escape ++ '\x22' :: rest) = some (text, rest) := by
  induction text with
  | nil => rfl
  | cons c text ih =>
    rw [List.flatMap_cons, List.append_assoc, parseString_escape, ih]
    rfl

/-! ### Reading values back -/

mutual

/-- Every number of the value is one. -/
def Value.wellFormed : Value → Bool
  | .number token => isNumber token
  | .array items => itemsWellFormed items
  | .object members => membersWellFormed members
  | _ => true

def itemsWellFormed : List Value → Bool
  | [] => true
  | item :: items => item.wellFormed && itemsWellFormed items

def membersWellFormed : List (List Char × Value) → Bool
  | [] => true
  | (_, value) :: members => value.wellFormed && membersWellFormed members

end

theorem skipSpace_cons {c : Char} (text : List Char) (h : isSpace c = false) :
    skipSpace (c :: text) = c :: text :=
  List.dropWhile_cons_of_neg (by rw [h]; exact Bool.false_ne_true)

/-- A character a number begins with begins nothing else. -/
theorem parseValue_number {c : Char} {text : List Char} (n : ℕ)
    (hc : c = '-' ∨ c.isDigit = true) :
    parseValue (n + 1) (c :: text) = parseNumber (c :: text) := by
  have hne : ∀ x : Char, x.isDigit = false → x ≠ '-' → c ≠ x := by
    rintro x hdigit hminus rfl
    rcases hc with rfl | hc
    · exact hminus rfl
    · rw [hdigit] at hc
      cases hc
  have hspace : isSpace c = false := by
    unfold isSpace
    rw [beq_false_of_ne (hne ' ' rfl (by decide)), beq_false_of_ne (hne '\x09' rfl (by decide)),
      beq_false_of_ne (hne '\x0a' rfl (by decide)), beq_false_of_ne (hne '\x0d' rfl (by decide))]
    rfl
  unfold parseValue
  rw [skipSpace_cons text hspace]
  split
  · rename_i heq
    exact absurd (List.cons.inj heq).1 (hne _ rfl (by decide))
  · rename_i heq
    exact absurd (List.cons.inj heq).1 (hne _ rfl (by decide))
  · rename_i heq
    exact absurd (List.cons.inj heq).1 (hne _ rfl (by decide))
  · rename_i heq
    exact absurd (List.cons.inj heq).1 (hne _ rfl (by decide))
  · rename_i heq
    exact absurd (List.cons.inj heq).1 (hne _ rfl (by decide))
  · rename_i heq
    exact absurd (List.cons.inj heq).1 (hne _ rfl (by decide))
  · rfl

/-- A written value begins with no space and no closing bracket. -/
theorem print_head {v : Value} (h : v.wellFormed = true) :
    ∃ c text, print v = c :: text ∧ isSpace c = false ∧ c ≠ ']' := by
  cases v with
  | null => exact ⟨_, _, rfl, rfl, by decide⟩
  | bool value => cases value <;> exact ⟨_, _, rfl, rfl, by decide⟩
  | string text => exact ⟨_, _, rfl, rfl, by decide⟩
  | array items => exact ⟨_, _, rfl, rfl, by decide⟩
  | object members => exact ⟨_, _, rfl, rfl, by decide⟩
  | number token =>
    obtain ⟨-, c, text, rfl, hc⟩ := isNumber_chars h
    refine ⟨c, text, rfl, ?_, ?_⟩
    · cases hspace : isSpace c with
      | false => rfl
      | true =>
        unfold isSpace at hspace
        simp only [Bool.or_eq_true, beq_iff_eq] at hspace
        rcases hc with rfl | hc
        · rcases hspace with ((h | h) | h) | h <;> cases h
        · rcases hspace with ((rfl | rfl) | rfl) | rfl <;> cases hc
    · rintro rfl
      rcases hc with h | h <;> cases h

theorem printItems_cons (item : Value) (items : List Value) :
    ∃ text, printItems (item :: items) = print item ++ text ∧ 0 < text.length ∧
      (items = [] ∧ text = [']'] ∨ items ≠ [] ∧ text = ',' :: printItems items) := by
  cases items with
  | nil => exact ⟨_, rfl, Nat.one_pos, Or.inl ⟨rfl, rfl⟩⟩
  | cons next items => exact ⟨_, rfl, Nat.succ_pos _, Or.inr ⟨List.cons_ne_nil _ _, rfl⟩⟩

theorem printMembers_cons (name : List Char) (value : Value) (members : List (List Char × Value)) :
    ∃ text, printMembers ((name, value) :: members) =
      printString name ++ ':' :: (print value ++ text) ∧
      (members = [] ∧ text = ['\x7d'] ∨ members ≠ [] ∧ text = ',' :: printMembers members) := by
  cases members with
  | nil => exact ⟨_, rfl, Or.inl ⟨rfl, rfl⟩⟩
  | cons next members => exact ⟨_, rfl, Or.inr ⟨List.cons_ne_nil _ _, rfl⟩⟩

mutual

theorem parseValue_print (v : Value) (n : ℕ) (rest : List Char) (hv : v.wellFormed = true)
    (hn : (print v).length ≤ n) (hrest : Ends rest) :
    parseValue n (print v ++ rest) = some (v, rest) := by
  obtain ⟨n, rfl⟩ : ∃ m, n = m + 1 := by
    obtain ⟨c, text, hprint, -, -⟩ := print_head hv
    rw [hprint, List.length_cons] at hn
    exact ⟨n - 1, by omega⟩
  match v with
  | .null => rfl
  | .bool true => rfl
  | .bool false => rfl
  | .number token =>
    obtain ⟨-, c, text, htoken, hc⟩ := isNumber_chars hv
    have hparse := parseNumber_append hv hrest
    show parseValue (n + 1) (token ++ rest) = _
    rw [htoken] at hparse ⊢
    exact (parseValue_number n hc).trans hparse
  | .string text =>
    show (parseString ((text.flatMap escape ++ ['\x22']) ++ rest)).map _ = _
    rw [List.append_assoc, List.singleton_append, parseString_print]
    rfl
  | .array [] => rfl
  | .array (item :: items) =>
    have hitems := parseItems_print (item :: items) n rest (List.cons_ne_nil _ _) hv
      (Nat.le_of_succ_le_succ hn)
    obtain ⟨text, hprint, -, -⟩ := printItems_cons item items
    obtain ⟨hitem, -⟩ := Bool.and_eq_true_iff.mp hv
    obtain ⟨c, tail, hhead, hspace, hbracket⟩ := print_head hitem
    have hsplit : printItems (item :: items) ++ rest = c :: (tail ++ text ++ rest) := by
      rw [hprint, hhead]
      simp only [List.cons_append]
    have hskip : skipSpace (printItems (item :: items) ++ rest) =
        printItems (item :: items) ++ rest := by
      rw [hsplit]
      exact skipSpace_cons _ hspace
    show parseValue (n + 1) ('[' :: (printItems (item :: items) ++ rest)) = _
    unfold parseValue
    rw [skipSpace_cons _ rfl]
    simp only
    split
    · rename_i heq
      rw [hskip, hsplit] at heq
      exact absurd (List.cons.inj heq).1 hbracket
    · rw [hskip, hitems]
      rfl
  | .object [] => rfl
  | .object ((name, value) :: members) =>
    have hmembers := parseMembers_print ((name, value) :: members) n rest (List.cons_ne_nil _ _) hv
      (Nat.le_of_succ_le_succ hn)
    obtain ⟨text, hprint, -⟩ := printMembers_cons name value members
    have hskip : skipSpace (printMembers ((name, value) :: members) ++ rest) =
        printMembers ((name, value) :: members) ++ rest := by
      rw [hprint]
      exact skipSpace_cons _ rfl
    show parseValue (n + 1) ('\x7b' :: (printMembers ((name, value) :: members) ++ rest)) = _
    unfold parseValue
    rw [skipSpace_cons _ rfl]
    simp only
    split
    · rename_i heq
      rw [hskip, hprint] at heq
      cases (List.cons.inj heq).1
    · rw [hskip, hmembers]
      rfl

theorem parseItems_print (items : List Value) (n : ℕ) (rest : List Char) (hne : items ≠ [])
    (hv : itemsWellFormed items = true) (hn : (printItems items).length ≤ n) :
    parseItems n (printItems items ++ rest) = some (items, rest) := by
  match items with
  | [] => exact absurd rfl hne
  | item :: items =>
    obtain ⟨text, hprint, hpos, hcases⟩ := printItems_cons item items
    obtain ⟨hitem, hitems⟩ := Bool.and_eq_true_iff.mp hv
    rw [hprint, List.length_append] at hn
    obtain ⟨n, rfl⟩ : ∃ m, n = m + 1 := ⟨n - 1, by omega⟩
    have hends : Ends (text ++ rest) := by
      rcases hcases with ⟨-, rfl⟩ | ⟨-, rfl⟩ <;> exact ends_cons _ rfl
    have hvalue := parseValue_print item n (text ++ rest) hitem (by omega) hends
    rw [hprint, List.append_assoc, parseItems, hvalue]
    rcases hcases with ⟨rfl, rfl⟩ | ⟨hmore, rfl⟩
    · rfl
    · rw [List.length_cons] at hn
      have hrec := parseItems_print items n rest hmore hitems (by omega)
      rw [List.cons_append]
      simp only
      rw [skipSpace_cons _ rfl]
      simp only
      rw [hrec]
      rfl

theorem parseMembers_print (members : List (List Char × Value)) (n : ℕ) (rest : List Char)
    (hne : members ≠ []) (hv : membersWellFormed members = true)
    (hn : (printMembers members).length ≤ n) :
    parseMembers n (printMembers members ++ rest) = some (members, rest) := by
  match members with
  | [] => exact absurd rfl hne
  | (name, value) :: members =>
    obtain ⟨text, hprint, hcases⟩ := printMembers_cons name value members
    obtain ⟨hvalue, hmembers⟩ := Bool.and_eq_true_iff.mp hv
    rw [hprint] at hn ⊢
    simp only [List.length_append, List.length_cons] at hn
    obtain ⟨n, rfl⟩ : ∃ m, n = m + 1 := ⟨n - 1, by omega⟩
    have hends : Ends (text ++ rest) := by
      rcases hcases with ⟨-, rfl⟩ | ⟨-, rfl⟩ <;> exact ends_cons _ rfl
    have hparse := parseValue_print value n (text ++ rest) hvalue (by omega) hends
    have hshape : printString name ++ ':' :: (print value ++ text) ++ rest =
        '\x22' :: (name.flatMap escape ++ '\x22' :: ':' :: (print value ++ (text ++ rest))) := by
      unfold printString
      simp only [List.cons_append, List.append_assoc, List.nil_append]
    rw [hshape, parseMembers, skipSpace_cons _ rfl]
    simp only
    rw [parseString_print]
    simp only
    rw [skipSpace_cons _ rfl]
    simp only
    rw [hparse]
    rcases hcases with ⟨rfl, rfl⟩ | ⟨hmore, rfl⟩
    · rfl
    · rw [List.length_cons] at hn
      have hrec := parseMembers_print members n rest hmore hmembers (by omega)
      rw [List.cons_append]
      simp only
      rw [skipSpace_cons _ rfl]
      simp only
      rw [hrec]
      rfl

end

/-! ### One line -/

theorem isNumberChar_printable {c : Char} (h : isNumberChar c = true) : 32 ≤ c.toNat := by
  unfold isNumberChar at h
  simp only [Bool.or_eq_true, beq_iff_eq] at h
  rcases h with ((((h | rfl) | rfl) | rfl) | rfl) | rfl
  · unfold Char.isDigit at h
    have hlow := (Bool.and_eq_true_iff.mp h).1
    have hlow' : 48 ≤ c.toNat := of_decide_eq_true hlow
    omega
  all_goals decide

theorem digitChar_printable : ∀ d < 16, 32 ≤ (Nat.digitChar d).toNat := by decide

theorem escape_printable (c : Char) : ∀ x ∈ escape c, 32 ≤ x.toNat := by
  intro x hx
  unfold escape at hx
  split at hx
  · rename_i h
    simp only [List.mem_cons, List.not_mem_nil, or_false] at hx
    rcases hx with rfl | rfl
    · decide
    · rcases h with rfl | rfl <;> decide
  split at hx
  · rename_i h
    simp only [List.mem_cons, List.not_mem_nil, or_false] at hx
    rcases hx with rfl | rfl | rfl | rfl | rfl | rfl
    · decide
    · decide
    · decide
    · decide
    · exact digitChar_printable _ (by omega)
    · exact digitChar_printable _ (by omega)
  · rw [List.mem_singleton.mp hx]
    omega

theorem printString_printable (text : List Char) : ∀ x ∈ printString text, 32 ≤ x.toNat := by
  intro x hx
  rcases List.mem_cons.mp hx with rfl | hx
  · decide
  rcases List.mem_append.mp hx with hx | hx
  · obtain ⟨c, -, hc⟩ := List.mem_flatMap.mp hx
    exact escape_printable c x hc
  · rw [List.mem_singleton.mp hx]
    decide

theorem word_printable (value : Value) (word : List Char) (hprint : print value = word)
    (hword : word.all (32 ≤ ·.toNat) = true) : ∀ x ∈ print value, 32 ≤ x.toNat := by
  intro x hx
  rw [hprint] at hx
  exact of_decide_eq_true (List.all_eq_true.mp hword x hx)

mutual

/-- No control character is written. -/
theorem print_printable (v : Value) (hv : v.wellFormed = true) :
    ∀ x ∈ print v, 32 ≤ x.toNat := by
  match v with
  | .null => exact word_printable .null _ rfl (by decide)
  | .bool true => exact word_printable (.bool true) _ rfl (by decide)
  | .bool false => exact word_printable (.bool false) _ rfl (by decide)
  | .number token => exact fun x hx => isNumberChar_printable ((isNumber_chars hv).1 x hx)
  | .string text => exact printString_printable text
  | .array items =>
    intro x hx
    rcases List.mem_cons.mp hx with rfl | hx
    · decide
    · exact printItems_printable items hv x hx
  | .object members =>
    intro x hx
    rcases List.mem_cons.mp hx with rfl | hx
    · decide
    · exact printMembers_printable members hv x hx

theorem printItems_printable (items : List Value) (hv : itemsWellFormed items = true) :
    ∀ x ∈ printItems items, 32 ≤ x.toNat := by
  match items with
  | [] =>
    intro x hx
    rw [List.mem_singleton.mp hx]
    decide
  | item :: items =>
    obtain ⟨hitem, hitems⟩ := Bool.and_eq_true_iff.mp hv
    obtain ⟨text, hprint, -, hcases⟩ := printItems_cons item items
    intro x hx
    rw [hprint] at hx
    rcases List.mem_append.mp hx with hx | hx
    · exact print_printable item hitem x hx
    rcases hcases with ⟨-, rfl⟩ | ⟨-, rfl⟩
    · rw [List.mem_singleton.mp hx]
      decide
    · rcases List.mem_cons.mp hx with rfl | hx
      · decide
      · exact printItems_printable items hitems x hx

theorem printMembers_printable (members : List (List Char × Value))
    (hv : membersWellFormed members = true) : ∀ x ∈ printMembers members, 32 ≤ x.toNat := by
  match members with
  | [] =>
    intro x hx
    rw [List.mem_singleton.mp hx]
    decide
  | (name, value) :: members =>
    obtain ⟨hvalue, hmembers⟩ := Bool.and_eq_true_iff.mp hv
    obtain ⟨text, hprint, hcases⟩ := printMembers_cons name value members
    intro x hx
    rw [hprint] at hx
    rcases List.mem_append.mp hx with hx | hx
    · exact printString_printable name x hx
    rcases List.mem_cons.mp hx with rfl | hx
    · decide
    rcases List.mem_append.mp hx with hx | hx
    · exact print_printable value hvalue x hx
    rcases hcases with ⟨-, rfl⟩ | ⟨-, rfl⟩
    · rw [List.mem_singleton.mp hx]
      decide
    · rcases List.mem_cons.mp hx with rfl | hx
      · decide
      · exact printMembers_printable members hmembers x hx

end

/-- **What is written is read back.** -/
theorem parse_print {v : Value} (h : v.wellFormed = true) : parse (print v) = some v := by
  have hparse := parseValue_print v ((print v).length + 1) [] h (Nat.le_succ _) ends_nil
  rw [List.append_nil] at hparse
  unfold parse
  rw [hparse]
  rfl

/-! ### Members and hexadecimal strings -/

/-- The value of a member. -/
def Value.member (name : String) : Value → Option Value
  | .object members => (members.find? fun m => m.1 == name.toList).map Prod.snd
  | _ => none

/-- The bytes of a string of hexadecimal digits. -/
def readHex : List Char → Option (List UInt8)
  | [] => some []
  | [_] => none
  | a :: b :: rest => do
    let high ← hexValue a
    let low ← hexValue b
    let bytes ← readHex rest
    return UInt8.ofNat (high * 16 + low) :: bytes

/-! ### Integers -/

/-- An integer in decimal digits. -/
def decimal (value : ℤ) : List Char :=
  if value < 0 then '-' :: Nat.toDigits 10 value.natAbs else Nat.toDigits 10 value.natAbs

def readDigits (text : List Char) : Option ℕ :=
  if text ≠ [] ∧ text.all Char.isDigit then some (Nat.ofDigitChars 10 text 0) else none

/-- The integer of some decimal digits, with a sign or without. -/
def readDecimal : List Char → Option ℤ
  | '-' :: digits => (readDigits digits).map fun (n : ℕ) => -(n : ℤ)
  | digits => (readDigits digits).map fun (n : ℕ) => (n : ℤ)

theorem readDigits_toDigits (n : ℕ) : readDigits (Nat.toDigits 10 n) = some n := by
  have hdigits : (Nat.toDigits 10 n).all Char.isDigit = true :=
    List.all_eq_true.mpr fun c hc => Nat.isDigit_of_mem_toDigits (by decide) (by decide) hc
  unfold readDigits
  rw [if_pos ⟨Nat.toDigits_ne_nil, hdigits⟩, Nat.ofDigitChars_ten_toDigits]

/-- Only zero begins with a zero. -/
theorem toDigits_head (n : ℕ) :
    ∃ c rest, Nat.toDigits 10 n = c :: rest ∧ c.isDigit = true ∧ (c = '0' → rest = []) := by
  induction n using Nat.strong_induction_on with
  | _ n ih =>
    by_cases hsmall : n < 10
    · refine ⟨Nat.digitChar n, [], Nat.toDigits_of_lt_base hsmall, ?_, fun _ => rfl⟩
      exact Nat.isDigit_of_mem_toDigits (b := 10) (n := n) (by decide) (by decide)
        (by rw [Nat.toDigits_of_lt_base hsmall]; exact List.mem_cons_self)
    · obtain ⟨c, rest, hdigits, hdigit, hzero⟩ := ih (n / 10) (by omega)
      rw [Nat.toDigits_of_base_le (by decide) (by omega), hdigits]
      refine ⟨c, _, List.cons_append, hdigit, ?_⟩
      rintro rfl
      -- the number without its last digit would be zero
      have hnil := hzero rfl
      have hback := Nat.ofDigitChars_ten_toDigits (n := n / 10)
      rw [hdigits, hnil] at hback
      change 0 = n / 10 at hback
      omega

theorem decimal_readDecimal (value : ℤ) : readDecimal (decimal value) = some value := by
  unfold decimal
  split
  · rename_i hneg
    have hvalue : -(value.natAbs : ℤ) = value := by omega
    rw [readDecimal, readDigits_toDigits, Option.map_some, hvalue]
  · rename_i hnonneg
    obtain ⟨c, rest, hdigits, hdigit, -⟩ := toDigits_head value.natAbs
    have hplain : readDecimal (Nat.toDigits 10 value.natAbs) =
        (readDigits (Nat.toDigits 10 value.natAbs)).map fun (n : ℕ) => (n : ℤ) := by
      rw [hdigits]
      unfold readDecimal
      split
      · rename_i heq
        obtain ⟨rfl, -⟩ := List.cons.inj heq
        exact absurd hdigit (by decide)
      · rfl
    have hvalue : (value.natAbs : ℤ) = value := by omega
    rw [hplain, readDigits_toDigits, Option.map_some, hvalue]

/-- An integer is written in digits behind at most a sign. -/
theorem decimal_chars (value : ℤ) : ∀ c ∈ decimal value, c = '-' ∨ c.isDigit = true := by
  intro c hc
  have hdigit : ∀ n, c ∈ Nat.toDigits 10 n → c.isDigit = true :=
    fun n h => Nat.isDigit_of_mem_toDigits (by decide) (by decide) h
  unfold decimal at hc
  split at hc
  · rcases List.mem_cons.mp hc with rfl | hc
    · exact Or.inl rfl
    · exact Or.inr (hdigit _ hc)
  · exact Or.inr (hdigit _ hc)

theorem escape_decimal (value : ℤ) : (decimal value).flatMap escape = decimal value := by
  have hplain : ∀ c ∈ decimal value, escape c = [c] := by
    intro c hc
    have hlow := isNumberChar_printable (c := c) (by
      rcases decimal_chars value c hc with rfl | hdigit
      · rfl
      · exact isNumberChar_of_isDigit hdigit)
    unfold escape
    rw [if_neg, if_neg (by omega)]
    rcases decimal_chars value c hc with rfl | hdigit
    · decide
    · rintro (rfl | rfl) <;> cases hdigit
  rw [List.flatMap_congr hplain, List.flatMap_singleton']

theorem decimal_length {value : ℤ} {digits : ℕ} (hdigits : 0 < digits)
    (h : value.natAbs < 10 ^ digits) : (decimal value).length ≤ digits + 1 := by
  have hlength := (Nat.length_toDigits_le_iff (b := 10) (by decide) hdigits).mpr h
  unfold decimal
  split
  · rw [List.length_cons]
    omega
  · omega

theorem dropWhile_digits (n : ℕ) {c : Char} {rest : List Char}
    (h : Nat.toDigits 10 n = c :: rest) : rest.dropWhile Char.isDigit = [] := by
  refine List.dropWhile_eq_nil_iff.mpr fun x hx => ?_
  exact Nat.isDigit_of_mem_toDigits (b := 10) (n := n) (by decide) (by decide)
    (by rw [h]; exact List.mem_cons_of_mem _ hx)

/-- A natural number is a JSON number. -/
theorem isNumber_decimal (n : ℕ) : isNumber (decimal n) = true := by
  obtain ⟨c, rest, hdigits, hdigit, hzero⟩ := toDigits_head n
  have hdecimal : decimal n = c :: rest := by
    unfold decimal
    rw [if_neg (by omega)]
    exact hdigits
  have hsigned : (match c :: rest with
      | '-' :: rest => rest
      | _ => c :: rest) = c :: rest := by
    split
    · rename_i heq
      obtain ⟨rfl, -⟩ := List.cons.inj heq
      exact absurd hdigit (by decide)
    · rfl
  have hinteger : skipInteger (c :: rest) = some [] := by
    unfold skipInteger
    split
    · rename_i heq
      obtain ⟨rfl, rfl⟩ := List.cons.inj heq
      exact congrArg some (hzero rfl)
    · rw [skipDigits, if_pos hdigit, dropWhile_digits n hdigits]
  unfold isNumber
  rw [hdecimal]
  simp only [hsigned, hinteger]
  rfl

end Json
