import ArithMips.CommandLine.Run

/-!
# The program

The command line over the files of the machine.
-/

namespace ArithMips

/-- The cause of a failed file operation.  The machine tells a path through a file from a path to a directory by
the code 20, and a name that is too long by the code 36; it also gives them negated. -/
def FileError.ofMachine : IO.Error → FileError
  | .noFileOrDirectory .. => .notFound
  | .inappropriateType _ code _ => if code = 20 ∨ code = 0 - 20 then .notDirectory else .isDirectory
  | .invalidArgument _ code text =>
    if code = 36 ∨ code = 0 - 36 then .nameTooLong else .other text.toList
  | e => .other e.toString.toList

/-- Runs an operation on a path of the machine. -/
def onPath {α : Type} (path : Text) (operation : String → IO α) : IO (Except FileError α) :=
  match FileSystem.checkPath path with
  | .error e => return .error e
  | .ok _ =>
    try return .ok (← operation (String.ofList path))
    catch e => return .error (.ofMachine e)

/-- The bytes of a file of the machine. -/
def readBytes (path : Text) : IO (Except FileError ByteArray) :=
  onPath path fun path => IO.FS.readBinFile path

/-- The file operations of the machine. -/
def machineFiles : FileSystem IO where
  exists? path := do
    match ← readBytes path with
    | .error e => return e ∉ [.notFound, .notDirectory, .nameTooLong, .nulInName]
    | .ok _ => return true
  read path := do
    match ← readBytes path with
    | .error e => return .error e
    | .ok bytes =>
      match Utf8.text? bytes with
      | some s => return .ok s
      | none => return .error .notText
  write path content := onPath path fun path => IO.FS.writeFile path (String.ofList content)

end ArithMips

/-- Runs the program, with colours on a terminal. -/
def main (arguments : List String) : IO UInt32 := do
  let coloured ← (← IO.getStdout).isTty
  let outcome ← ArithMips.CommandLine.run ArithMips.machineFiles coloured (arguments.map String.toList)
  IO.print (String.ofList outcome.output.stdout)
  IO.eprint (String.ofList outcome.output.stderr)
  return outcome.status
