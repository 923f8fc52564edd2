import ArithMips.Mips.Instruction

/-!
# A machine for the instructions

Registers of 64 bits, of which register 0 always reads zero, a product register and a memory of 64-bit cells.
An instruction uses its immediate as it stands, at full width; arithmetic wraps at 64 bits, division rounds toward
zero, and a quotient by zero is zero.
-/

namespace ArithMips.Mips

structure Machine where
  registers : Register → Int64
  lo : Int64
  memory : Int64 → Int64

namespace Machine

def read (m : Machine) (r : Register) : Int64 := if r = .zero then 0 else m.registers r

def write (m : Machine) (r : Register) (value : Int64) : Machine :=
  { m with registers := fun s => if s = r then value else m.registers s }

def store (m : Machine) (address value : Int64) : Machine :=
  { m with memory := fun a => if a = address then value else m.memory a }

/-- The address of an immediate relative to a register. -/
def address (m : Machine) (rs : Register) (imm : Immediate) : Int64 := m.read rs + imm.number

def step (m : Machine) : Instruction → Machine
  | .register .daddu rs rt rd => m.write rd (m.read rs + m.read rt)
  | .register .dsubu rs rt rd => m.write rd (m.read rs - m.read rt)
  | .register .dmult rs rt _ => { m with lo := m.read rs * m.read rt }
  | .register .ddiv rs rt _ => { m with lo := m.read rs / m.read rt }
  | .register .mflo _ _ rd => m.write rd m.lo
  | .immediate .daddiu rs rt imm => m.write rt (m.read rs + imm.number)
  | .immediate .ld rs rt imm => m.write rt (m.memory (m.address rs imm))
  | .immediate .sd rs rt imm => m.store (m.address rs imm) (m.read rt)

def run (m : Machine) (code : List Instruction) : Machine := code.foldl step m

@[simp] theorem read_zero (m : Machine) : m.read .zero = 0 := if_pos rfl

theorem read_write_self (m : Machine) {r : Register} (h : r ≠ .zero) (value : Int64) :
    (m.write r value).read r = value := by
  simp [read, write, h]

theorem read_write_of_ne (m : Machine) {r s : Register} (h : s ≠ r) (value : Int64) :
    (m.write r value).read s = m.read s := by
  simp [read, write, h]

@[simp] theorem run_cons (m : Machine) (i : Instruction) (code : List Instruction) :
    m.run (i :: code) = (m.step i).run code := rfl

theorem run_append (m : Machine) (code code' : List Instruction) :
    m.run (code ++ code') = (m.run code).run code' := List.foldl_append

end Machine

end ArithMips.Mips
