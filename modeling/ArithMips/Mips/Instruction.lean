import ArithMips.Text.Decimal

/-!
# MIPS64 instructions

The few instructions of the MIPS64 set that arithmetic on variables needs, in their two formats: three registers
with a function code, or two registers with an immediate.  An immediate is a plain number or the offset of a
named variable.
-/

namespace ArithMips.Mips

/-- A register by its number.  The machine has 32 of them; larger numbers arise in long expressions. -/
structure Register where
  number : UInt32
  deriving DecidableEq, Repr

namespace Register

/-- The register that always holds zero. -/
def zero : Register := ⟨0⟩

/-- The register that holds the value of a declaration before it is stored. -/
def result : Register := ⟨3⟩

/-- The register that holds the address of the variables. -/
def base : Register := ⟨29⟩

/-- A register as assembly names it. -/
def text (r : Register) : Text := 'r' :: Text.decimal r.number.toNat

end Register

inductive Immediate where
  | value (v : Int64)
  | symbol (name : Text) (offset : Int64)
  deriving DecidableEq, Repr

namespace Immediate

def number : Immediate → Int64
  | value v => v
  | symbol _ offset => offset

/-- An immediate as assembly shows it: a number, or the name of a variable. -/
def text : Immediate → Text
  | value v => Text.signedDecimal v.toInt
  | symbol name _ => name

end Immediate

/-- The instructions on three registers. -/
inductive RegisterOp where
  | daddu
  | dsubu
  | dmult
  | ddiv
  | mflo
  deriving DecidableEq, Repr

def RegisterOp.mnemonic : RegisterOp → Text
  | daddu => "DADDU".toList
  | dsubu => "DSUBU".toList
  | dmult => "DMULT".toList
  | ddiv => "DDIV".toList
  | mflo => "MFLO".toList

/-- The instructions with an immediate. -/
inductive ImmediateOp where
  | daddiu
  | ld
  | sd
  deriving DecidableEq, Repr

def ImmediateOp.mnemonic : ImmediateOp → Text
  | daddiu => "DADDIU".toList
  | ld => "LD".toList
  | sd => "SD".toList

/-- An instruction with all the fields of its format, also those it does not use. -/
inductive Instruction where
  | register (op : RegisterOp) (rs rt rd : Register)
  | immediate (op : ImmediateOp) (rs rt : Register) (imm : Immediate)
  deriving DecidableEq, Repr

namespace Instruction

/-- Puts a number into a register. -/
def li (rd : Register) (value : Int64) : Instruction := .immediate .daddiu .zero rd (.value value)

def mv (rd rs : Register) : Instruction := .register .daddu rs .zero rd

def daddu (rd rs rt : Register) : Instruction := .register .daddu rs rt rd

def dsubu (rd rs rt : Register) : Instruction := .register .dsubu rs rt rd

/-- The product of two registers, left in the machine's own product register. -/
def dmult (rs rt : Register) : Instruction := .register .dmult rs rt .zero

/-- The quotient of two registers, left in the machine's own product register. -/
def ddiv (rs rt : Register) : Instruction := .register .ddiv rs rt .zero

/-- Takes the low half of the machine's product register. -/
def mflo (rd : Register) : Instruction := .register .mflo .zero .zero rd

def ld (rt : Register) (name : Text) (offset : Int64) : Instruction :=
  .immediate .ld .base rt (.symbol name offset)

def sd (rt : Register) (name : Text) (offset : Int64) : Instruction :=
  .immediate .sd .base rt (.symbol name offset)

def operandList (operands : List Text) : Text := List.intercalate [',', ' '] operands

/-- An immediate with the register it is added to. -/
def address (imm : Immediate) (rs : Register) : Text := imm.text ++ '(' :: rs.text ++ [')']

/-- The operands of an instruction, in the order in which assembly lists them. -/
def operands : Instruction → List Text
  | register .daddu rs rt rd | register .dsubu rs rt rd => [rd.text, rs.text, rt.text]
  | register .dmult rs rt _ | register .ddiv rs rt _ => [rs.text, rt.text]
  | register .mflo _ _ rd => [rd.text]
  | immediate .daddiu rs rt imm => [rt.text, rs.text, imm.text]
  | immediate .ld rs rt imm | immediate .sd rs rt imm => [rt.text, address imm rs]

def mnemonic : Instruction → Text
  | register op _ _ _ => op.mnemonic
  | immediate op _ _ _ => op.mnemonic

def assembly (i : Instruction) : Text := i.mnemonic ++ ' ' :: operandList i.operands

end Instruction

end ArithMips.Mips
