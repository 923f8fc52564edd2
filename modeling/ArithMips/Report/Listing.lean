import ArithMips.Report.Summary

/-!
# Listings

An assembly file: the variables with their offsets as comments of the data section, then one instruction a line
with its word in hexadecimal digits as a comment.
-/

namespace ArithMips

namespace Listing

/-- The width to which the assembly of an instruction is padded. -/
def assemblyWidth : Nat := 24

/-- What every report says about the place of a variable. -/
def placement (name : Text) (offset : Int) : Text :=
  name ++ " offset --> ".toList ++ Text.signedDecimal offset

def symbolLine (name : Text) (offset : Int) : Text := "  # ".toList ++ placement name offset ++ ['\n']

def recordLine (r : Mips.Record) : Text :=
  "  ".toList ++ Text.padRight assemblyWidth r.assembly ++ " # 0x".toList ++ r.hex ++ ['\n']

/-- The listing of variables, by name and offset, and instructions. -/
def render (symbols : List (Text × Int)) (records : List Mips.Record) : Text :=
  ".data\n".toList ++ symbols.flatMap (fun (name, offset) => symbolLine name offset) ++
    "\n.text\n".toList ++ records.flatMap recordLine

end Listing

/-- The names and offsets of the variables of a compilation. -/
def Compilation.placements (c : Compilation) : List (Text × Int) :=
  c.symbols.entries.map fun v => (v.name, v.offset.toInt)

def Compilation.listing (c : Compilation) : Text := Listing.render c.placements c.records

end ArithMips
