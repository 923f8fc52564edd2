import ArithMips.Text.Decimal
import ArithMips.Text.Unprintable

/-!
# Quoted text

A text between double quotes on one line: quotes, backslashes and the common control characters have short
escapes, any other unprintable character is written by its code point.
-/

namespace ArithMips.Text

/-- A character as it stands inside a quoted text. -/
def quotedChar (c : Char) : Text :=
  if c = '"' then ['\\', '"']
  else if c = '\\' then ['\\', '\\']
  else if c = '\n' then ['\\', 'n']
  else if c = '\t' then ['\\', 't']
  else if c = '\r' then ['\\', 'r']
  else if c = '\x00' then ['\\', '0']
  else if isUnprintable c then '\\' :: 'u' :: '\x7b' :: Nat.toDigits 16 c.toNat ++ ['\x7d']
  else [c]

/-- The text between double quotes, with its special characters escaped. -/
def quoted (s : Text) : Text := '"' :: s.flatMap quotedChar ++ ['"']

end ArithMips.Text
