import ArithMips.Mips.Instruction

/-!
# Instruction words

The 32-bit word of an instruction.  Bits 31 to 26 hold the opcode, bits 25 to 21 and 20 to 16 two registers, and
bits 15 to 0 either a third register with a function code or an immediate.  Only the immediate is cut to its
field: a register number above 31 runs into the fields above its own.
-/

namespace ArithMips.Mips

/-- A 32-bit instruction word, or a field of one. -/
abbrev Word := UInt32

/-- The function code that tells instructions on registers apart. -/
def RegisterOp.funct : RegisterOp → Word
  | daddu => 0x2D
  | dsubu => 0x2F
  | dmult => 0x1C
  | ddiv => 0x1E
  | mflo => 0x12

/-- The opcode of an instruction with an immediate; instructions on registers share the opcode zero. -/
def ImmediateOp.opcode : ImmediateOp → Word
  | daddiu => 0x19
  | ld => 0x37
  | sd => 0x3F

/-- The low sixteen bits of an immediate. -/
def Immediate.field (imm : Immediate) : Word := imm.number.toUInt64.toUInt32 &&& 0xFFFF

/-- The 32-bit word of an instruction. -/
def Instruction.word : Instruction → Word
  | register op rs rt rd =>
    (rs.number <<< 21) ||| (rt.number <<< 16) ||| (rd.number <<< 11) ||| op.funct
  | immediate op rs rt imm =>
    (op.opcode <<< 26) ||| (rs.number <<< 21) ||| (rt.number <<< 16) ||| imm.field

end ArithMips.Mips
