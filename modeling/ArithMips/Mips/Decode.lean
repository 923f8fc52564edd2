import ArithMips.Mips.Machine
import ArithMips.Mips.Word

/-!
# Reading instruction words

The fields of a 32-bit word, and the instruction they write, if they write one.  A register field has five bits;
an immediate field has sixteen and is read as a signed number.  The codes are those of the machine, so reading the word
of an instruction gives back its operation (`Word.registerOp?_funct`, `Word.immediateOp?_opcode`).
-/

namespace ArithMips.Mips

namespace Word

/-- Bits 31 to 26. -/
def opcode (w : Word) : Word := w >>> 26

/-- The register in bits 25 to 21. -/
def rs (w : Word) : Register := ⟨(w >>> 21) &&& 31⟩

/-- The register in bits 20 to 16. -/
def rt (w : Word) : Register := ⟨(w >>> 16) &&& 31⟩

/-- The register in bits 15 to 11. -/
def rd (w : Word) : Register := ⟨(w >>> 11) &&& 31⟩

/-- Bits 5 to 0. -/
def funct (w : Word) : Word := w &&& 63

/-- Bits 15 to 0 as a signed number. -/
def immediate (w : Word) : Int64 := w.toUInt16.toInt16.toInt64

/-- The instruction on registers with a function code. -/
def registerOp? : Word → Option RegisterOp
  | 0x12 => some .mflo
  | 0x1C => some .dmult
  | 0x1E => some .ddiv
  | 0x2D => some .daddu
  | 0x2F => some .dsubu
  | _ => none

/-- The instruction with an immediate that has an opcode. -/
def immediateOp? : Word → Option ImmediateOp
  | 0x19 => some .daddiu
  | 0x37 => some .ld
  | 0x3F => some .sd
  | _ => none

def decode? (w : Word) : Option Instruction :=
  if w.opcode = 0 then (registerOp? w.funct).map fun op => .register op w.rs w.rt w.rd
  else (immediateOp? w.opcode).map fun op => .immediate op w.rs w.rt (.value w.immediate)

@[simp] theorem registerOp?_funct (op : RegisterOp) : registerOp? op.funct = some op := by
  cases op <;> decide

@[simp] theorem immediateOp?_opcode (op : ImmediateOp) : immediateOp? op.opcode = some op := by
  cases op <;> decide

end Word

/-- Executes the instruction that a word writes; a word that writes none does nothing. -/
def Machine.stepWord (m : Machine) (w : Word) : Machine :=
  match Word.decode? w with
  | some i => m.step i
  | none => m

def Machine.runWords (m : Machine) (words : List Word) : Machine := words.foldl stepWord m

end ArithMips.Mips
