import Mathlib

/-!
# Decimals as binary64 numbers

What a decimal token means as a double: the nearest one, ties to the even one, infinity
behind the largest. Doubles are kept as their 64 bits; a zero has the sign of its token.
-/

namespace Binary64

/-- The quotient, rounded to the nearest, ties to even. -/
def roundEven (n d : ℕ) : ℕ :=
  if 2 * (n % d) < d ∨ 2 * (n % d) = d ∧ n / d % 2 = 0 then n / d else n / d + 1

/-- The bits of the double nearest to `num / den`. -/
def nearest (num den : ℕ) : ℕ :=
  if num = 0 then 0
  else
    let scaled (e : ℤ) : ℕ × ℕ := (num * 2 ^ (-e).toNat, den * 2 ^ e.toNat)
    -- the last place: a significand of 53 bits, or the last place of the subnormals
    let low : ℤ := max (num.log2 - den.log2 - 53) (-1074)
    let e := if (scaled low).1 / (scaled low).2 < 2 ^ 53 then low else low + 1
    min ((e + 1074).toNat * 2 ^ 52 + roundEven (scaled e).1 (scaled e).2) (2047 * 2 ^ 52)

/-- The exponent behind an `e`. -/
def exponentOf : List Char → ℤ
  | [] => 0
  | _ :: '-' :: digits => -Nat.ofDigitChars 10 digits 0
  | _ :: '+' :: digits => Nat.ofDigitChars 10 digits 0
  | _ :: digits => Nat.ofDigitChars 10 digits 0

/-- The bits of the double a decimal token names. -/
def ofToken (token : List Char) : ℕ :=
  let sign := token.head? = some '-'
  let unsigned := if sign then token.drop 1 else token
  let integer := unsigned.takeWhile Char.isDigit
  let rest := unsigned.dropWhile Char.isDigit
  let fraction := if rest.head? = some '.' then (rest.drop 1).takeWhile Char.isDigit else []
  let rest := if rest.head? = some '.' then (rest.drop 1).dropWhile Char.isDigit else rest
  let mantissa := Nat.ofDigitChars 10 (integer ++ fraction) 0
  let exponent := exponentOf rest - fraction.length
  (if sign then 2 ^ 63 else 0) +
    nearest (mantissa * 10 ^ exponent.toNat) (10 ^ (-exponent).toNat)

/-- The bits of a NaN, and of a finite double. -/
def isNan (bits : UInt64) : Bool :=
  bits.toNat / 2 ^ 52 % 2 ^ 11 = 2047 && bits.toNat % 2 ^ 52 ≠ 0

def isInf (bits : UInt64) : Bool :=
  bits.toNat / 2 ^ 52 % 2 ^ 11 = 2047 && bits.toNat % 2 ^ 52 = 0

def signbit (bits : UInt64) : Bool := 2 ^ 63 ≤ bits.toNat

end Binary64
