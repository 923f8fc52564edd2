import ArithMips.Error
import ArithMips.Token.Basic

/-!
# Reverse Polish order

`Token.polish` reorders the tokens of an expression so that every operator follows its operands.  Operators and
open parentheses wait on a stack; an operator sends those before it that bind at least as tightly to the output,
which makes all of them associate to the left.

Parentheses that do not match are tolerated unless the caller is strict: a `)` without partner sends all waiting
operators to the output, and a `(` that stays open is dropped.
-/

namespace ArithMips

/-- What waits for its place in the output. -/
inductive Waiting where
  | paren
  | operator (op : Operator)
  deriving DecidableEq, Repr

/-- The tokens in reverse Polish order, and whether all parentheses found a partner. -/
structure Polish where
  output : List Token
  balanced : Bool
  deriving DecidableEq, Repr

namespace Polish

/-- Puts operators in front of the output. -/
def prepend (ops : List Operator) (p : Polish) : Polish :=
  { p with output := ops.map .operator ++ p.output }

/-- The waiting operators above the innermost open parenthesis, and what waits below it.  Without an open
parenthesis these are all waiting operators, and there is nothing below. -/
def close : List Waiting → List Operator × Option (List Waiting)
  | [] => ([], none)
  | .paren :: below => ([], some below)
  | .operator op :: stack =>
    let (ops, below) := close stack
    (op :: ops, below)

/-- The operators on top of the stack that go before an operator of the given precedence, and the rest. -/
def yielding (precedence : Nat) : List Waiting → List Operator × List Waiting
  | [] => ([], [])
  | .paren :: below => ([], .paren :: below)
  | .operator op :: stack =>
    if precedence ≤ op.precedence then
      let (ops, below) := yielding precedence stack
      (op :: ops, below)
    else ([], .operator op :: stack)

/-- The end of the output: every waiting operator, and no partner for an open parenthesis. -/
def finish : List Waiting → Polish
  | [] => { output := [], balanced := true }
  | .paren :: stack => { finish stack with balanced := false }
  | .operator op :: stack => (finish stack).prepend [op]

/-- Reorders tokens up to the end mark while a stack of operators and parentheses waits. -/
def ofTokens : List Token → List Waiting → Polish
  | [], stack => finish stack
  | .stop :: _, stack => finish stack
  | .literal value :: rest, stack =>
    let p := ofTokens rest stack
    { p with output := .literal value :: p.output }
  | .name identifier :: rest, stack =>
    let p := ofTokens rest stack
    { p with output := .name identifier :: p.output }
  | .lparen :: rest, stack => ofTokens rest (.paren :: stack)
  | .rparen :: rest, stack =>
    match close stack with
    | (ops, some below) => (ofTokens rest below).prepend ops
    | (ops, none) => { (ofTokens rest []).prepend ops with balanced := false }
  | .operator op :: rest, stack =>
    let (ops, below) := yielding op.precedence stack
    (ofTokens rest (.operator op :: below)).prepend ops

end Polish

/-- The tokens of an expression in reverse Polish order.  A strict caller gets an error for parentheses that do
not match. -/
def Token.polish (strict : Bool) (tokens : List Token) : Except Error (List Token) :=
  let p := Polish.ofTokens tokens []
  if strict && !p.balanced then .error .unbalancedParenthesis else .ok p.output

end ArithMips
