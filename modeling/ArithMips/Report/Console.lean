import ArithMips.Report.Listing
import ArithMips.Report.Trace

/-!
# Console report

What a run prints: the program, its diagnostics on the error channel, and, if there are none, the variables, the
instructions with their words, and the final values.
-/

namespace ArithMips

/-- Text for the two output channels. -/
structure Output where
  stdout : Text := []
  stderr : Text := []
  deriving DecidableEq, Repr

namespace Output

/-- One output after the other, on each channel. -/
def append (a b : Output) : Output := { stdout := a.stdout ++ b.stdout, stderr := a.stderr ++ b.stderr }

instance : Append Output := ⟨append⟩

end Output

namespace Console

/-- The names of the fields of an instruction word. -/
def fieldLegend : Text := "[Opcode][ rs ][ rt ][ rd ][shmt][funct]".toList

/-- An instruction with its word, in four lines and an empty one. -/
def recordDump? (coloured : Bool) (r : Mips.Record) : Option Text := do
  let fields ← r.fields?
  return " Assembly: ".toList ++ r.assembly ++
    "\n Binary:   ".toList ++ List.intercalate [' '] fields ++
    "\n           ".toList ++ Style.dimmed.paint coloured fieldLegend ++
    "\n            Hex: 0x".toList ++ r.hex ++ "\n\n".toList

/-- All instructions with their words.  There is no dump if a record's binary text has no fields. -/
def dump? (coloured : Bool) (records : List Mips.Record) : Option Text := do
  let dumps ← records.mapM (recordDump? coloured)
  return Style.red.paint coloured "MIPS64 Instructions:".toList ++ '\n' :: dumps.flatten

/-- A coloured heading with a rule below it. -/
def heading (coloured : Bool) (style : Style) (title : String) : Text :=
  style.paint coloured title.toList ++ '\n' :: List.replicate title.length '=' ++ ['\n']

def errorLines (coloured : Bool) (diagnostics : List Diagnostic) : Text :=
  diagnostics.flatMap fun d => Style.red.paint coloured d.text ++ ['\n']

/-- The diagnostics of a compilation, on the error channel. -/
def errors (coloured : Bool) (c : Compilation) : Output :=
  { stderr := errorLines coloured c.diagnostics.toList }

def programText (coloured : Bool) (program : Text) : Text :=
  heading coloured .cyan "Input Code:" ++ program ++ "\n===========\n\n".toList

/-- The verdict on a program with errors. -/
def failure (coloured : Bool) (count : Nat) : Text :=
  '\n' :: Style.red.paint coloured ("[BUILD FAILED] ".toList ++ Text.decimal count ++ " error(s) found.".toList) ++
    ['\n']

/-- The variables, instructions and final values of a program without errors.  The records of instructions have
fields, so their dump exists. -/
def success (coloured : Bool) (c : Compilation) : Text :=
  heading coloured .green "MIPS64 ASSEMBLY OUTPUT:" ++ "\n.data\n".toList ++
    c.placements.flatMap (fun (name, offset) => Listing.placement name offset ++ ['\n']) ++
    '\n' :: (dump? coloured c.records).getD [] ++
    heading coloured .green "FINAL VARIABLE VALUES:" ++
    c.symbols.entries.flatMap fun v =>
      ' ' :: v.name ++ " = ".toList ++ Text.signedDecimal v.value.toInt ++ ['\n']

def traces (coloured : Bool) (c : Compilation) : Output :=
  { stdout := c.traces.toList.flatMap (Trace.text coloured) }

def report (coloured : Bool) (program : Text) (c : Compilation) : Output :=
  { stdout := programText coloured program } ++ errors coloured c ++
    { stdout := if c.succeeded then success coloured c else failure coloured c.diagnostics.size }

end Console

end ArithMips
