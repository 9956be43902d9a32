import Mathlib

/-!
# Decimal numerals as bytes

What `std::to_string` writes of an unsigned integer, and what the two readers of the C++ library
make of a text: `from_chars`, which takes digits and nothing else, and `strtoull`, which skips
blanks, takes a sign and saturates.

A numeral (`Numeral`) is one digit or more; `numeral_written` says that what is written is one of
the number, and the two readers are described by the numerals they accept (`fromChars_all`,
`strtoull_numeral`).
-/

namespace Decimal

/-- `'0'` to `'9'`. -/
def isDigit (c : UInt8) : Bool := decide (48 ≤ c.toNat) && decide (c.toNat ≤ 57)

/-- The number some digits stand for. -/
def value (text : List UInt8) : ℕ := text.foldl (fun n c => 10 * n + (c.toNat - 48)) 0

/-- The text is a numeral of `n`; it may begin with zeros. -/
structure Numeral (text : List UInt8) (n : ℕ) : Prop where
  ne_nil : text ≠ []
  digits : ∀ c ∈ text, isDigit c = true
  value_eq : value text = n

/-- `std::to_string` of an unsigned integer. -/
def written (n : ℕ) : List UInt8 := (Nat.toDigits 10 n).map fun c => UInt8.ofNat c.toNat

/-! ### Writing -/

/-- A digit has seven bits. -/
theorem toNat_ofDigit {c : Char} (h : c.isDigit = true) :
    48 ≤ c.toNat ∧ c.toNat ≤ 57 ∧ (UInt8.ofNat c.toNat).toNat = c.toNat := by
  have hbounds : 48 ≤ c.toNat ∧ c.toNat ≤ 57 := by
    unfold Char.isDigit at h
    rw [Bool.and_eq_true, decide_eq_true_eq, decide_eq_true_eq] at h
    exact h
  refine ⟨hbounds.1, hbounds.2, ?_⟩
  rw [UInt8.toNat_ofNat']
  exact Nat.mod_eq_of_lt (lt_of_le_of_lt hbounds.2 (by norm_num))

theorem isDigit_of_mem_written {n : ℕ} {c : UInt8} (h : c ∈ written n) : isDigit c = true := by
  obtain ⟨d, hd, rfl⟩ := List.mem_map.mp h
  obtain ⟨hlow, hhigh, hsame⟩ := toNat_ofDigit
    (Nat.isDigit_of_mem_toDigits (b := 10) (n := n) (by norm_num) (by norm_num) hd)
  unfold isDigit
  rw [hsame, decide_eq_true hlow, decide_eq_true hhigh]
  rfl

/-- What is written is read back. -/
theorem value_written (n : ℕ) : value (written n) = n := by
  have hfold : ∀ (digits : List Char) (start : ℕ), (∀ c ∈ digits, c.isDigit = true) →
      (digits.map fun c => UInt8.ofNat c.toNat).foldl (fun m c => 10 * m + (c.toNat - 48)) start =
        Nat.ofDigitChars 10 digits start := by
    intro digits
    induction digits with
    | nil => exact fun _ _ => rfl
    | cons d digits ih =>
      intro start hall
      rw [List.map_cons, List.foldl_cons, (toNat_ofDigit (hall d List.mem_cons_self)).2.2]
      exact ih _ fun c hc => hall c (List.mem_cons_of_mem _ hc)
  calc value (written n)
      = Nat.ofDigitChars 10 (Nat.toDigits 10 n) 0 := by
        apply hfold
        intro c hc
        exact Nat.isDigit_of_mem_toDigits (b := 10) (n := n) (by norm_num) (by norm_num) hc
    _ = n := Nat.ofDigitChars_ten_toDigits

theorem written_ne_nil (n : ℕ) : written n ≠ [] := by
  intro hnil
  exact Nat.toDigits_ne_nil (List.map_eq_nil_iff.mp hnil)

/-- What is written of a number is a numeral of it. -/
theorem numeral_written (n : ℕ) : Numeral (written n) n :=
  ⟨written_ne_nil n, fun _ hc => isDigit_of_mem_written hc, value_written n⟩

/-- The digits in front of something else. -/
theorem span_numeral {text rest : List UInt8} {n : ℕ} (h : Numeral text n)
    (hrest : ∀ c, rest.head? = some c → isDigit c = false) :
    (text ++ rest).takeWhile isDigit = text ∧ (text ++ rest).dropWhile isDigit = rest := by
  have hrest' : rest.takeWhile isDigit = [] ∧ rest.dropWhile isDigit = rest := by
    cases rest with
    | nil => exact ⟨rfl, rfl⟩
    | cons c rest =>
      have hc := hrest c rfl
      exact ⟨List.takeWhile_cons_of_neg (Bool.not_eq_true _ ▸ hc),
        List.dropWhile_cons_of_neg (Bool.not_eq_true _ ▸ hc)⟩
  rw [List.takeWhile_append_of_pos h.digits, List.dropWhile_append_of_pos h.digits, hrest'.1,
    hrest'.2, List.append_nil]
  exact ⟨rfl, rfl⟩

/-! ### `from_chars` -/

/-- `std::from_chars` in base 10 for an unsigned type whose largest value is `max`: the value,
unless there is no digit or it is out of range, and what is left behind the digits. -/
def fromChars (max : ℕ) (text : List UInt8) : Option ℕ × List UInt8 :=
  let digits := text.takeWhile isDigit
  let rest := text.dropWhile isDigit
  if digits = [] ∨ max < value digits then (none, rest) else (some (value digits), rest)

/-- The whole text is taken exactly when it is a numeral in range. -/
theorem fromChars_all {max n : ℕ} {text : List UInt8} :
    fromChars max text = (some n, []) ↔ Numeral text n ∧ n ≤ max := by
  unfold fromChars
  constructor
  · intro h
    by_cases hnone : text.takeWhile isDigit = [] ∨ max < value (text.takeWhile isDigit)
    · simp only [if_pos hnone] at h
      cases (Prod.mk.inj h).1
    · simp only [if_neg hnone] at h
      obtain ⟨hvalue, hrest⟩ := Prod.mk.inj h
      obtain ⟨hne, hrange⟩ := not_or.mp hnone
      -- nothing is left, so the digits are the text
      have hall : text.takeWhile isDigit = text := by
        have hsplit := List.takeWhile_append_dropWhile (p := isDigit) (l := text)
        rwa [hrest, List.append_nil] at hsplit
      rw [hall] at hne hvalue hrange
      obtain rfl := Option.some.inj hvalue
      exact ⟨⟨hne, List.takeWhile_eq_self_iff.mp hall, rfl⟩, Nat.le_of_not_lt hrange⟩
  · rintro ⟨h, hrange⟩
    have hspan := @span_numeral text [] n h (fun _ hc => by cases hc)
    rw [List.append_nil] at hspan
    rw [hspan.1, hspan.2, if_neg, h.value_eq]
    rintro (hnil | hlt)
    · exact h.ne_nil hnil
    · rw [h.value_eq] at hlt
      exact Nat.not_lt_of_le hrange hlt

/-! ### `strtoull` -/

/-- `isspace` in the C locale. -/
def isSpace (c : UInt8) : Bool := c == 32 || (decide (9 ≤ c.toNat) && decide (c.toNat ≤ 13))

/-- `strtoull` in base 10, for 64 bits: the value, unless no digit is found, and the text behind
the last digit that is taken. A number out of range is the largest one, and a minus sign negates
modulo `2 ^ 64`. -/
def strtoull (text : List UInt8) : Option (ℕ × List UInt8) :=
  let unsigned (negative : Bool) (text : List UInt8) : Option (ℕ × List UInt8) :=
    let digits := text.takeWhile isDigit
    let rest := text.dropWhile isDigit
    if digits = [] then none
    else if 2 ^ 64 ≤ value digits then some (2 ^ 64 - 1, rest)
    else if negative then some ((2 ^ 64 - value digits) % 2 ^ 64, rest)
    else some (value digits, rest)
  match text.dropWhile isSpace with
  | 45 :: rest => unsigned true rest
  | 43 :: rest => unsigned false rest
  | rest => unsigned false rest

/-- A numeral in range is read, whatever follows its digits. -/
theorem strtoull_numeral {text rest : List UInt8} {n : ℕ} (h : Numeral text n) (hn : n < 2 ^ 64)
    (hrest : ∀ c, rest.head? = some c → isDigit c = false) :
    strtoull (text ++ rest) = some (n, rest) := by
  obtain ⟨c, tail, rfl⟩ := List.exists_cons_of_ne_nil h.ne_nil
  -- a digit is neither a blank nor a sign
  have hc : 48 ≤ c.toNat ∧ c.toNat ≤ 57 := by
    have hdigit := h.digits c List.mem_cons_self
    unfold isDigit at hdigit
    rwa [Bool.and_eq_true, decide_eq_true_eq, decide_eq_true_eq] at hdigit
  have hspace : isSpace c = false := by
    unfold isSpace
    rw [Bool.or_eq_false_iff, Bool.and_eq_false_iff]
    refine ⟨beq_false_of_ne ?_, Or.inr (decide_eq_false (by omega))⟩
    rintro rfl
    exact absurd hc.1 (by decide)
  have hsigns : c ≠ 45 ∧ c ≠ 43 := by
    constructor
    · rintro rfl
      exact absurd hc.1 (by decide)
    · rintro rfl
      exact absurd hc.1 (by decide)
  have hdrop : (c :: tail ++ rest).dropWhile isSpace = c :: (tail ++ rest) :=
    List.dropWhile_cons_of_neg (Bool.not_eq_true _ ▸ hspace)
  obtain ⟨htake, hleft⟩ := span_numeral h hrest
  rw [List.cons_append] at htake hleft
  unfold strtoull
  rw [hdrop]
  split
  · rename_i heq
    exact absurd (List.cons.inj heq).1 hsigns.1
  · rename_i heq
    exact absurd (List.cons.inj heq).1 hsigns.2
  · simp only [htake, hleft, h.value_eq, if_neg h.ne_nil, if_neg (Nat.not_le_of_lt hn),
      Bool.false_eq_true, if_false]

/-- What `std::to_string` writes is read back. -/
theorem strtoull_written {n : ℕ} (hn : n < 2 ^ 64) : strtoull (written n) = some (n, []) := by
  have h := @strtoull_numeral _ [] n (numeral_written n) hn (fun _ hc => by cases hc)
  rwa [List.append_nil] at h

end Decimal
