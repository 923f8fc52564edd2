import ArithMips.Compilation
import ArithMips.Json
import ArithMips.Mips.Record

/-!
# Summary of a compilation

The outcome of a compilation as a JSON value: whether it succeeded, its diagnostics, its variables and its
instructions.  The keys of every object are in alphabetical order.
-/

namespace ArithMips

/-- The records of the instructions of a compilation. -/
def Compilation.records (c : Compilation) : List Mips.Record :=
  c.code.toList.map Mips.Instruction.record

/-- An instruction record as a JSON object. -/
def Mips.Record.json (r : Mips.Record) : Json :=
  .obj [("assembly".toList, .str r.assembly), ("binary".toList, .str r.binary), ("hex".toList, .str r.hex)]

/-- A variable as a JSON object. -/
def Variable.json (v : Variable) : Json :=
  .obj [("name".toList, .str v.name), ("offset".toList, .int v.offset.toInt), ("value".toList, .int v.value.toInt)]

/-- The outcome of a compilation as a JSON object. -/
def Compilation.json (c : Compilation) : Json :=
  .obj [
    ("errors".toList, .arr (c.diagnostics.toList.map (.str ·.text))),
    ("instructions".toList, .arr (c.records.map (·.json))),
    ("ok".toList, .bool c.succeeded),
    ("variables".toList, .arr (c.symbols.entries.map (·.json)))]

end ArithMips
