import ArithMips.CommandLine.Arguments
import ArithMips.FileSystem
import ArithMips.Report.Console

/-!
# Running the program

`CommandLine.run` is the program on its arguments, over any file system: it reads the program text, compiles it,
reports, and writes the listing if one is wanted.  A missing program file is made with a sample program first.
-/

namespace ArithMips

/-- The program that a missing file is made with. -/
def sampleProgram : Text := "int a = -50 ;\nint b = a + 10;\nint c = b * 2 + 5;\n".toList

def readProgram {m : Type → Type} [Monad m] (fs : FileSystem m) (path : Text) : m (Except Error Text) := do
  unless ← fs.exists? path do
    if let .error e ← fs.write path sampleProgram then
      return .error (.file ("Cannot create ".toList ++ path ++ ": ".toList ++ e.message))
  match ← fs.read path with
  | .ok program => return .ok program
  | .error e => return .error (.file ("Cannot open source file ".toList ++ path ++ ": ".toList ++ e.message))

namespace CommandLine

/-- What a run leaves behind: its exit status and what it printed. -/
structure Outcome where
  status : UInt32
  output : Output
  deriving DecidableEq, Repr

def versionText : Text := "bisdac 0.1.0\n".toList

def helpText : Text :=
  ("Compiles integer declarations and expressions to MIPS64 instructions\n\n" ++
    "Usage: bisdac [OPTIONS] [FILENAME]\n\n" ++
    "Arguments:\n" ++
    "  [FILENAME]  Program file, made with a sample program if missing [default: input.txt]\n\n" ++
    "Options:\n" ++
    "  -o, --output <FILE>           Write an assembly listing to this file\n" ++
    "      --format <FORMAT>         Output format, console or json [default: console]\n" ++
    "      --dump-tokens             Print the tokens of every expression\n" ++
    "      --dump-rpn                Print every expression in postfix order\n" ++
    "      --strict-parens           Reject unbalanced parentheses\n" ++
    "      --max-tokens <N>          Most tokens in an expression [default: 500]\n" ++
    "      --max-variables <N>       Most variables [default: 100]\n" ++
    "      --max-instructions <N>    Most instructions [default: 4096]\n" ++
    "      --max-identifier-len <N>  Most characters in an identifier [default: 31]\n" ++
    "  -h, --help                    Print help\n" ++
    "  -V, --version                 Print version\n").toList

/-- What is wrong with a refused command line. -/
def Refusal.message : Refusal → Text
  | unknownArgument => "error: unexpected argument found\n".toList
  | missingValue => "error: a value is required but none was supplied\n".toList
  | unexpectedValue => "error: unexpected value for a flag\n".toList
  | repeated => "error: an option cannot be used multiple times\n".toList
  | invalidValue => "error: invalid value for an option\n".toList
  | help => []
  | version => []

def Refusal.outcome : Refusal → Outcome
  | help => { status := 0, output := { stdout := helpText } }
  | version => { status := 0, output := { stdout := versionText } }
  | refusal => { status := 2, output := { stderr := refusal.message } }

/-- The report on a compiled program in the chosen form, after its traces. -/
def report (coloured : Bool) (format : Format) (program : Text) (c : Compilation) : Output :=
  Console.traces coloured c ++
    match format with
    | .console => Console.report coloured program c
    | .json => { stdout := c.json.text ++ ['\n'] }

/-- The output of a run that ends early. -/
def failureOutput (f : Failure) : Output := { stderr := "Error: ".toList ++ f.message ++ ['\n'] }

def runWith {m : Type → Type} [Monad m] (fs : FileSystem m) (coloured : Bool) (settings : Settings) :
    m Outcome := do
  match ← readProgram fs settings.path with
  | .error e => return { status := 1, output := failureOutput (.error e) }
  | .ok program =>
    let c := Compilation.ofProgram settings.options program
    let output := report coloured settings.format program c
    let status := if c.succeeded then 0 else 1
    match settings.listing with
    | none => return { status, output }
    | some path =>
      match ← fs.write path c.listing with
      | .ok _ => return { status, output }
      | .error e => return { status := 1, output := output ++ failureOutput (.other e.message) }

def run {m : Type → Type} [Monad m] (fs : FileSystem m) (coloured : Bool) (arguments : List Text) : m Outcome :=
  match Settings.ofArguments arguments with
  | .ok settings => runWith fs coloured settings
  | .error refusal => return refusal.outcome

end CommandLine

end ArithMips
