import ArithMips.Text.Basic

/-!
# Limits and options

What a compilation may use, and the choices that steer it.
-/

namespace ArithMips

/-- The resources a compilation may run out of. -/
inductive Resource where
  | tokens
  | symbols
  | instructions
  deriving DecidableEq, Repr

/-- The word for a resource in a message. -/
def Resource.noun : Resource → Text
  | tokens => "tokens".toList
  | symbols => "variables".toList
  | instructions => "instructions".toList

/-- How much a compilation may use. -/
structure Limits where
  /-- Tokens of one expression, the end mark not counted. -/
  tokens : Nat := 500
  symbols : Nat := 100
  instructions : Nat := 4096
  identifierLength : Nat := 31
  deriving DecidableEq, Repr

/-- The choices that steer a compilation. -/
structure Options where
  limits : Limits := {}
  /-- Whether unbalanced parentheses are an error. -/
  strictParens : Bool := false
  /-- Whether the tokens of every expression are traced. -/
  traceTokens : Bool := false
  /-- Whether every expression is traced in reverse Polish order. -/
  tracePolish : Bool := false
  deriving DecidableEq, Repr

end ArithMips
