import ArithMips.Text.Quoted

/-!
# Tokens

The words of an expression: signed 64-bit literals, variable names, the four operators, parentheses and a mark
for the end of the text.  Operators carry their precedence and their meaning on values (`Operator.apply`), which
wraps at 64 bits.
-/

namespace ArithMips

inductive Operator where
  | add
  | sub
  | mul
  | div
  deriving DecidableEq, Repr

namespace Operator

def symbol : Operator → Char
  | add => '+'
  | sub => '-'
  | mul => '*'
  | div => '/'

def precedence : Operator → Nat
  | add | sub => 1
  | mul | div => 2

/-- The value of an operator.  Results wrap at 64 bits, division rounds toward zero, and a quotient by zero
is zero. -/
def apply : Operator → Int64 → Int64 → Int64
  | add, x, y => x + y
  | sub, x, y => x - y
  | mul, x, y => x * y
  | div, x, y => x / y

end Operator

inductive Token where
  | literal (value : Int64)
  | name (identifier : Text)
  | operator (op : Operator)
  | lparen
  | rparen
  | stop
  deriving DecidableEq, Repr

namespace Token

/-- A token as it is written in an expression. -/
def text : Token → Text
  | literal value => Text.signedDecimal value.toInt
  | name identifier => identifier
  | operator op => [op.symbol]
  | lparen => ['(']
  | rparen => [')']
  | stop => "<end>".toList

/-- A token with its kind, as traces show it. -/
def description : Token → Text
  | literal value => "Number(".toList ++ Text.signedDecimal value.toInt ++ [')']
  | name identifier => "Variable(".toList ++ Text.quoted identifier ++ [')']
  | operator .add => "Plus".toList
  | operator .sub => "Minus".toList
  | operator .mul => "Mult".toList
  | operator .div => "Div".toList
  | lparen => "LeftParen".toList
  | rparen => "RightParen".toList
  | stop => "End".toList

/-- Whether a token stands for a value. -/
def isOperand : Token → Bool
  | literal _ | name _ => true
  | _ => false

def isOperator : Token → Bool
  | operator _ => true
  | _ => false

/-- How tightly a token binds; only operators bind at all. -/
def precedence : Token → Nat
  | operator op => op.precedence
  | _ => 0

end Token

end ArithMips
