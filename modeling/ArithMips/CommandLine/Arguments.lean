import ArithMips.Limits
import ArithMips.Text.Decimal

/-!
# Command line arguments

Arguments are read from left to right, and the first one that breaks a rule ends the reading.  A value that stands
in an argument of its own is settled late: at the next known option, at the program's path, or at the end of the
arguments.  An argument that is refused for itself before that goes first.
-/

namespace ArithMips

/-- The forms of output. -/
inductive Format where
  | console
  | json
  deriving DecidableEq, Repr

namespace Format

def name : Format → Text
  | console => "console".toList
  | json => "json".toList

def ofName? (s : Text) : Option Format :=
  if s = console.name then some console else if s = json.name then some json else none

@[simp] theorem ofName?_name (f : Format) : ofName? f.name = some f := by
  cases f <;> decide

end Format

/-- What the command line asks for. -/
structure Settings where
  path : Text := "input.txt".toList
  listing : Option Text := none
  format : Format := .console
  options : Options := {}
  deriving DecidableEq, Repr

namespace CommandLine

/-- Why a command line asks for no compilation. -/
inductive Refusal where
  | unknownArgument
  | missingValue
  | unexpectedValue
  | repeated
  | invalidValue
  | help
  | version
  deriving DecidableEq, Repr

inductive Parameter where
  | listing
  | format
  | maxTokens
  | maxVariables
  | maxInstructions
  | maxIdentifierLength
  deriving DecidableEq, Repr

inductive Flag where
  | traceTokens
  | tracePolish
  | strictParens
  deriving DecidableEq, Repr

inductive Switch where
  | parameter (p : Parameter)
  | flag (f : Flag)
  | help
  | version
  deriving DecidableEq, Repr

def Switch.ofName? (name : Text) : Option Switch :=
  [("output", parameter .listing), ("format", parameter .format), ("max-tokens", parameter .maxTokens),
    ("max-variables", parameter .maxVariables), ("max-instructions", parameter .maxInstructions),
    ("max-identifier-len", parameter .maxIdentifierLength), ("dump-tokens", flag .traceTokens),
    ("dump-rpn", flag .tracePolish), ("strict-parens", flag .strictParens), ("help", help),
    ("version", version)].findSome? fun (known, switch) => if known.toList = name then some switch else none

/-- An argument by its shape, where options are looked for. -/
inductive Shape where
  /-- The mark after which all arguments are plain. -/
  | endOfOptions
  /-- A known option, with the value attached to it. -/
  | switch (s : Switch) (value : Option Text)
  | unknown
  | plain
  deriving DecidableEq, Repr

/-- The shape of an option's text after `--`. -/
def Shape.ofLong (s : Text) : Shape :=
  let value := match s.dropWhile (· ≠ '=') with
    | [] => none
    | _ :: value => some value
  match Switch.ofName? (s.takeWhile (· ≠ '=')) with
  | some known => .switch known value
  | none => .unknown

/-- The shape of an option's text after a single `-`.  A value may follow its letter directly or after a `=`. -/
def Shape.ofShort : Text → Shape
  | ['o'] => .switch (.parameter .listing) none
  | 'o' :: '=' :: value => .switch (.parameter .listing) (some value)
  | 'o' :: value => .switch (.parameter .listing) (some value)
  | 'h' :: _ => .switch .help none
  | 'V' :: _ => .switch .version none
  | _ => .unknown

def Shape.ofArgument : Text → Shape
  | ['-', '-'] => .endOfOptions
  | '-' :: '-' :: s => .ofLong s
  | ['-'] => .plain
  | '-' :: s => .ofShort s
  | _ => .plain

/-- How far the arguments were read. -/
structure Progress where
  settings : Settings := {}
  /-- The program's path, once it was given. -/
  path : Option Text := none
  parameters : List Parameter := []
  flags : List Flag := []
  /-- The option that still waits to be settled, with its value if that was read. -/
  pending : Option (Parameter × Option Text) := none
  deriving DecidableEq, Repr

/-- The number that a text writes in decimal, if it fits in 64 bits. -/
def number? (s : Text) : Option Nat := Text.boundedDecimal? UInt64.size s

def Parameter.apply (p : Parameter) (value : Text) (s : Settings) : Option Settings :=
  let limits := s.options.limits
  let limited (limits : Limits) : Settings := { s with options := { s.options with limits } }
  match p with
  | listing => some { s with listing := some value }
  | format => (Format.ofName? value).map fun format => { s with format }
  | maxTokens => (number? value).map fun n => limited { limits with tokens := n }
  | maxVariables => (number? value).map fun n => limited { limits with symbols := n }
  | maxInstructions => (number? value).map fun n => limited { limits with instructions := n }
  | maxIdentifierLength => (number? value).map fun n => limited { limits with identifierLength := n }

def Flag.apply (f : Flag) (s : Settings) : Settings :=
  match f with
  | traceTokens => { s with options := { s.options with traceTokens := true } }
  | tracePolish => { s with options := { s.options with tracePolish := true } }
  | strictParens => { s with options := { s.options with strictParens := true } }

namespace Progress

/-- Gives an option its value, unless it already has one. -/
def assign (p : Parameter) (value : Text) (st : Progress) : Except Refusal Progress :=
  if p ∈ st.parameters then .error .repeated
  else
    match p.apply value st.settings with
    | some settings => .ok { st with settings, parameters := p :: st.parameters }
    | none => .error .invalidValue

def settle (st : Progress) : Except Refusal Progress :=
  match st.pending with
  | none => .ok st
  | some (_, none) => .error .missingValue
  | some (p, some value) => { st with pending := none }.assign p value

def switch (s : Switch) (value : Option Text) (st : Progress) : Except Refusal Progress :=
  match s, value with
  | .parameter p, some value => do (← st.settle).assign p value
  | .parameter p, none => do return { ← st.settle with pending := some (p, none) }
  | .flag f, none => do
    let st ← st.settle
    if f ∈ st.flags then throw .repeated
    return { st with settings := f.apply st.settings, flags := f :: st.flags }
  | .help, none => do
    let _ ← st.settle
    throw .help
  | .version, none => do
    let _ ← st.settle
    throw .version
  | _, some _ => .error .unexpectedValue

/-- Reads the program's path; there is only one. -/
def plain (s : Text) (st : Progress) : Except Refusal Progress := do
  if st.path.isSome then throw .unknownArgument
  return { ← st.settle with path := some s }

/-- Reads arguments after the end of the options. -/
def readPlain : List Text → Progress → Except Refusal Progress
  | [], st => st.settle
  | a :: rest, st => do readPlain rest (← st.plain a)

def read : List Text → Progress → Except Refusal Progress
  | [], st => st.settle
  | a :: rest, st =>
    match Shape.ofArgument a with
    | .endOfOptions => readPlain rest st
    | .unknown => .error .unknownArgument
    | .switch s value => do read rest (← st.switch s value)
    | .plain =>
      match st.pending with
      | some (p, none) => read rest { st with pending := some (p, some a) }
      | _ => do read rest (← st.plain a)

end Progress

end CommandLine

/-- The settings that the arguments of a command line ask for. -/
def Settings.ofArguments (arguments : List Text) : Except CommandLine.Refusal Settings := do
  let st ← CommandLine.Progress.read arguments {}
  return { st.settings with path := st.path.getD st.settings.path }

end ArithMips
