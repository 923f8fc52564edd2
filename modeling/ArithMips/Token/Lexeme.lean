import ArithMips.Token.Basic

/-!
# Lexemes

A text is cut, from left to right, into lexemes: numerals, words and single characters.  A numeral is a maximal
run of digits together with a `-` that stands directly before it, whatever stands before the `-`.  A word is a
maximal run of letters, digits and underscores that does not start with a digit.

The cut loses nothing: the texts of the lexemes, put together, are the text (`flatMap_text_lexemes`).
-/

namespace ArithMips

/-- A piece of an expression's text. -/
inductive Lexeme where
  | space (c : Char)
  | numeral (negative : Bool) (digits : Text)
  | word (identifier : Text)
  | operator (op : Operator)
  | lparen
  | rparen
  | unknown (c : Char)
  deriving DecidableEq, Repr

namespace Lexeme

def text : Lexeme → Text
  | space c => [c]
  | numeral negative digits => if negative then '-' :: digits else digits
  | word identifier => identifier
  | operator op => [op.symbol]
  | lparen => ['(']
  | rparen => [')']
  | unknown c => [c]

/-- The lexeme of a character that starts neither a numeral nor a word. -/
def ofChar (c : Char) : Lexeme :=
  if Text.isSpace c then space c
  else if c = '+' then operator .add
  else if c = '-' then operator .sub
  else if c = '*' then operator .mul
  else if c = '/' then operator .div
  else if c = '(' then lparen
  else if c = ')' then rparen
  else unknown c

@[simp] theorem text_ofChar (c : Char) : (ofChar c).text = [c] := by
  unfold ofChar
  repeat' split
  all_goals simp_all [text, Operator.symbol]

end Lexeme

namespace Text

/-- The characters a word starts with. -/
def isWordStart (c : Char) : Bool := c.isAlpha || c == '_'

/-- The characters a word goes on with. -/
def isWordChar (c : Char) : Bool := c.isAlphanum || c == '_'

def startsWithDigit : Text → Bool
  | [] => false
  | c :: _ => c.isDigit

/-- The lexemes of a text, from left to right. -/
def lexemes : Text → List Lexeme
  | [] => []
  | c :: cs =>
    if c.isDigit then
      .numeral false (c :: cs.takeWhile Char.isDigit) :: lexemes (cs.dropWhile Char.isDigit)
    else if c = '-' ∧ startsWithDigit cs then
      .numeral true (cs.takeWhile Char.isDigit) :: lexemes (cs.dropWhile Char.isDigit)
    else if isWordStart c then
      .word (c :: cs.takeWhile isWordChar) :: lexemes (cs.dropWhile isWordChar)
    else
      Lexeme.ofChar c :: lexemes cs
termination_by s => s.length
decreasing_by
  all_goals simp only [List.length_cons]
  · exact Nat.lt_succ_of_le (List.dropWhile_sublist _).length_le
  · exact Nat.lt_succ_of_le (List.dropWhile_sublist _).length_le
  · exact Nat.lt_succ_of_le (List.dropWhile_sublist _).length_le
  · exact Nat.lt_succ_self _

theorem flatMap_text_lexemes (s : Text) : s.lexemes.flatMap Lexeme.text = s := by
  fun_induction lexemes s with
  | case1 => rfl
  | case2 c cs hc ih => simp [Lexeme.text, ih]
  | case3 c cs hc hm ih => simp [Lexeme.text, ih, hm.1]
  | case4 c cs hc hm hw ih => simp [Lexeme.text, ih]
  | case5 c cs hc hm hw ih => simp [ih]

end Text

end ArithMips
