import ArithMips.Error
import ArithMips.Token.Lexeme

/-!
# Scanning expressions

`Text.scan` turns the text of an expression into tokens.  Space is dropped, unknown characters are noted and
skipped.  The first lexeme that breaks a rule ends the scan: a numeral outside 64 bits, an identifier above the
length limit, or a token above the token limit, in this order when one lexeme breaks two of them.  What was
skipped before that point stays known.
-/

namespace ArithMips

/-- What a scan found: the unknown characters it skipped, and the tokens or the error that ended it. -/
structure Scan where
  skipped : List Char
  result : Except Error (List Token)

/-- What one lexeme contributes to a scan. -/
inductive Lexeme.Reading where
  | nothing
  | skipped (c : Char)
  | token (t : Token)
  | error (e : Error)
  deriving DecidableEq

/-- The signed 64-bit number with the given value, if there is one. -/
def int64? (z : Int) : Option Int64 :=
  if Int64.minValue.toInt ≤ z ∧ z ≤ Int64.maxValue.toInt then some (Int64.ofInt z) else none

/-- The number that a numeral writes. -/
def Lexeme.numeralValue (negative : Bool) (digits : Text) : Int :=
  if negative then -(Text.decimalValue digits : Int) else Text.decimalValue digits

def Lexeme.read (limits : Limits) : Lexeme → Lexeme.Reading
  | space _ => .nothing
  | numeral negative digits =>
    match int64? (numeralValue negative digits) with
    | some value => .token (.literal value)
    | none => .error (.integerOutOfRange (numeral negative digits).text)
  | word identifier =>
    if limits.identifierLength < identifier.length then
      .error (.identifierTooLong identifier limits.identifierLength)
    else .token (.name identifier)
  | operator op => .token (.operator op)
  | lparen => .token .lparen
  | rparen => .token .rparen
  | unknown c => .skipped c

namespace Scan

/-- Scans the rest of an expression after `count` tokens. -/
def ofLexemes (limits : Limits) (count : Nat) : List Lexeme → Scan
  | [] => { skipped := [], result := .ok [.stop] }
  | l :: rest =>
    match l.read limits with
    | .nothing => ofLexemes limits count rest
    | .skipped c =>
      let scan := ofLexemes limits count rest
      { scan with skipped := c :: scan.skipped }
    | .error e => { skipped := [], result := .error e }
    | .token t =>
      if limits.tokens ≤ count then { skipped := [], result := .error (.tooMany .tokens limits.tokens) }
      else
        let scan := ofLexemes limits (count + 1) rest
        { scan with result := scan.result.map (t :: ·) }

end Scan

/-- The tokens of an expression's text, the end mark included. -/
def Text.scan (limits : Limits) (s : Text) : Scan := Scan.ofLexemes limits 0 s.lexemes

end ArithMips
