import ArithMips.Limits
import ArithMips.Text.Quoted

/-!
# Errors

`Error` lists the causes for which a program is rejected and `Error.message` words them.  A `Diagnostic` is an
error together with the statement in which it arose.  A `Failure` also admits causes that only come as a text.
-/

namespace ArithMips

/-- Where in the compiler an internal error was raised. -/
structure Origin where
  file : Text
  line : Nat
  deriving DecidableEq, Repr

/-- The causes for which a program, or a part of it, is rejected. -/
inductive Error where
  | unknownCharacter (c : Char)
  | identifierTooLong (name : Text) (limit : Nat)
  /-- A numeral outside the signed 64-bit range. -/
  | integerOutOfRange (numeral : Text)
  /-- A declared name that starts with neither a letter nor an underscore. -/
  | invalidName (name : Text)
  | missingAssignment
  /-- A variable that no declaration has introduced. -/
  | undeclared (name : Text)
  /-- An expression whose operators and operands do not fit together. -/
  | malformedExpression
  | unbalancedParenthesis
  | tooMany (resource : Resource) (limit : Nat)
  | missingSemicolon
  /-- A source file that could not be made or read. -/
  | file (description : Text)
  /-- A broken assumption of the compiler itself. -/
  | internal (description : Text) (origin : Origin)
  deriving DecidableEq, Repr

namespace Error

def message : Error → Text
  | unknownCharacter c => "Unknown character `".toList ++ c :: "` in expression".toList
  | identifierTooLong name limit =>
    "Identifier `".toList ++ name ++ "` is longer than ".toList ++ Text.decimal limit ++ " characters".toList
  | integerOutOfRange numeral => "Integer literal `".toList ++ numeral ++ "` does not fit in 64 bits".toList
  | invalidName name => "Invalid variable name `".toList ++ name ++ "`".toList
  | missingAssignment => "Missing '=' in declaration".toList
  | undeclared name => "Variable `".toList ++ name ++ "` is not declared".toList
  | malformedExpression => "Invalid expression".toList
  | unbalancedParenthesis => "Unbalanced parenthesis".toList
  | tooMany resource limit =>
    "Too many ".toList ++ resource.noun ++ " (limit is ".toList ++ Text.decimal limit ++ [')']
  | missingSemicolon => "Missing semicolon at end of statement".toList
  | file description => description
  | internal description origin =>
    "Bug: ".toList ++ Text.quoted description ++ " at ".toList ++ Text.quoted origin.file ++
      ':' :: Text.decimal origin.line

end Error

/-- An error together with the statement in which it arose, if it arose in one. -/
structure Diagnostic where
  error : Error
  statement : Option Text
  deriving DecidableEq, Repr

/-- The line that reports a diagnostic. -/
def Diagnostic.text (d : Diagnostic) : Text :=
  "Error: ".toList ++ d.error.message ++
    match d.statement with
    | some statement => " (in '".toList ++ statement ++ "')".toList
    | none => []

/-- The reasons for which a run ends early: an error of the compiler, or any other cause by its text. -/
inductive Failure where
  | error (e : Error)
  | other (description : Text)
  deriving DecidableEq, Repr

namespace Failure

/-- The error behind a failure; a cause known only by its text counts as an internal error. -/
def toError : Failure → Error
  | error e => e
  | other description => .internal description { file := "failure".toList, line := 0 }

def message : Failure → Text
  | error e => e.message
  | other description => description

end Failure

end ArithMips
