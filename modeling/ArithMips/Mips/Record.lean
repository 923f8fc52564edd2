import ArithMips.Mips.Word

/-!
# Instruction records

The three texts that show an instruction: its assembly line, and its word in binary and in hexadecimal digits.
The binary text falls into the six fields of the register format (`Record.fields?`).
-/

namespace ArithMips

namespace Text

/-- Cuts a text after the given number of bytes of its UTF-8 form, if it is that long and the cut does not fall
inside a character. -/
def cutBytes : (bytes : Nat) → Text → Option (Text × Text)
  | 0, s => some ([], s)
  | _ + 1, [] => none
  | bytes + 1, c :: s =>
    if c.utf8Size ≤ bytes + 1 then
      (cutBytes (bytes + 1 - c.utf8Size) s).map fun (first, rest) => (c :: first, rest)
    else none
termination_by _ s => s.length

/-- Consecutive pieces of the given widths in bytes; what follows the last one is dropped. -/
def cutWidths : (widths : List Nat) → Text → Option (List Text)
  | [], _ => some []
  | width :: widths, s => do
    let (piece, rest) ← cutBytes width s
    return piece :: (← cutWidths widths rest)

end Text

namespace Mips

/-- The texts that show an instruction. -/
structure Record where
  assembly : Text
  binary : Text
  hex : Text
  deriving DecidableEq, Repr

/-- The widths of the fields of the register format: opcode, three registers, shift amount, function code. -/
def fieldWidths : List Nat := [6, 5, 5, 5, 5, 6]

/-- The fields of a record's binary text, if it has at least 32 bytes and no field ends inside a character. -/
def Record.fields? (r : Record) : Option (List Text) := Text.cutWidths fieldWidths r.binary

def Instruction.record (i : Instruction) : Record where
  assembly := i.assembly
  binary := Text.fixedDigits 2 32 i.word.toNat
  hex := Text.fixedDigits 16 8 i.word.toNat

end Mips

end ArithMips
