import ArithMips.Text.Basic

/-!
# Numerals

Decimal texts of natural and signed numbers, and texts of a fixed number of digits in any base up to sixteen.
A fixed-width text shows the lowest digits of the number, the most significant one first.
-/

namespace ArithMips.Text

/-- The decimal digits of a natural number, without leading zeros. -/
def decimal (n : Nat) : Text := Nat.toDigits 10 n

/-- The decimal text of a signed number, with a `-` in front of a negative one. -/
def signedDecimal (z : Int) : Text :=
  if z < 0 then '-' :: decimal z.natAbs else decimal z.natAbs

/-- The number written by a run of decimal digits. -/
def decimalValue (digits : Text) : Nat := Nat.ofDigitChars 10 digits 0

/-- The number written by a text of decimal digits with an optional `+` in front, if it is below `bound`. -/
def boundedDecimal? (bound : Nat) (s : Text) : Option Nat :=
  let digits := match s with
    | '+' :: rest => rest
    | _ => s
  if digits ≠ [] ∧ digits.all Char.isDigit ∧ decimalValue digits < bound then some (decimalValue digits)
  else none

/-- The upper-case digit of a value below sixteen. -/
def upperDigit (d : Nat) : Char := (Nat.digitChar d).toUpper

/-- The lowest `width` digits of a number in the given base, the most significant one first. -/
def fixedDigits (base : Nat) : (width n : Nat) → Text
  | 0, _ => []
  | width + 1, n => fixedDigits base width (n / base) ++ [upperDigit (n % base)]

@[simp] theorem length_fixedDigits (base width n : Nat) : (fixedDigits base width n).length = width := by
  induction width generalizing n with
  | zero => rfl
  | succ width ih => simp [fixedDigits, ih]

/-- The text followed by blanks up to the given number of characters; a longer text is kept whole. -/
def padRight (width : Nat) (s : Text) : Text := s ++ List.replicate (width - s.length) ' '

end ArithMips.Text
