import ArithMips.Error
import ArithMips.Token.Lexeme

/-!
# Programs and statements

A program is a sequence of statements that end with semicolons.  Before it is cut into statements, runs of space
inside it become single blanks.  A statement that starts with the word `int` declares a variable, any other one is
a bare expression.
-/

namespace ArithMips

namespace Text

/-- The text with every run of space inside it made a single blank, and none at the ends. -/
def normalizeSpace (s : Text) : Text := List.intercalate [' '] s.words

/-- The statements of a program, trimmed, without the empty ones. -/
def statements (program : Text) : List Text := trimmedPieces ';' program

/-- What follows the last semicolon of a program. -/
def afterLastSemicolon (program : Text) : Text := (program.reverse.takeWhile (· ≠ ';')).reverse

/-- Refuses a program with anything but white space after its last semicolon. -/
def checkSemicolons (program : Text) : Except Error Unit :=
  if program.afterLastSemicolon.trim = [] then .ok () else .error .missingSemicolon

end Text

inductive Statement where
  /-- Declares a variable and gives it a value. -/
  | declaration (name expression : Text)
  /-- Computes a value and drops it. -/
  | expression (expression : Text)
  | empty
  deriving DecidableEq, Repr

namespace Statement

/-- What follows the word `int` and the space after it, if a text starts so. -/
def afterKeyword? : Text → Option Text
  | 'i' :: 'n' :: 't' :: c :: rest => if Text.isSpace c then some (Text.trimStart (c :: rest)) else none
  | _ => none

/-- Whether a text starts as a variable name does. -/
def startsName : Text → Bool
  | [] => false
  | c :: _ => Text.isWordStart c

/-- Reads a declaration after its keyword.  The name ends at the first space; whatever stands between it and the
first `=` is passed over. -/
def parseDeclaration (limits : Limits) (s : Text) : Except Error Statement :=
  match s.dropWhile (· ≠ '=') with
  | [] => .error .missingAssignment
  | _ :: value =>
    let name := (s.takeWhile (· ≠ '=')).takeWhile (!Text.isSpace ·)
    if !startsName name then .error (.invalidName name)
    else if limits.identifierLength < name.length then
      .error (.identifierTooLong name limits.identifierLength)
    else .ok (.declaration name (Text.trim value))

def parse (limits : Limits) (s : Text) : Except Error Statement :=
  let s := s.trim
  if s = [] then .ok .empty
  else
    match afterKeyword? s with
    | some rest => parseDeclaration limits rest
    | none => .ok (.expression s)

end Statement

end ArithMips
