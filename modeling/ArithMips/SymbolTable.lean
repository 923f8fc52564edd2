import ArithMips.Error

/-!
# Symbol tables

The declared variables in the order of their declaration.  Each one owns a slot of eight bytes in memory: the
first starts at offset 8, every further one where the one before ends.  A table holds at most as many variables
as its capacity says, and declaring a name again changes nothing.
-/

namespace ArithMips

/-- A declared variable with the value it is known to hold. -/
structure Variable where
  name : Text
  value : Int64
  offset : Int64
  declared : Bool
  deriving DecidableEq, Repr

/-- The size of a variable's slot, in bytes. -/
def Variable.slotSize : Int64 := 8

/-- The declared variables, oldest first. -/
structure SymbolTable where
  capacity : Nat
  entries : List Variable := []
  nextOffset : Int64 := Variable.slotSize
  deriving DecidableEq, Repr

namespace SymbolTable

def size (t : SymbolTable) : Nat := t.entries.length

def isEmpty (t : SymbolTable) : Bool := t.entries.isEmpty

def find? (t : SymbolTable) (name : Text) : Option Variable :=
  t.entries.find? (·.name = name)

/-- Adds a variable of value zero behind the others. -/
def add (t : SymbolTable) (name : Text) : SymbolTable :=
  { t with
    entries := t.entries ++ [{ name, value := 0, offset := t.nextOffset, declared := true }]
    nextOffset := t.nextOffset + Variable.slotSize }

/-- Makes sure that a name is declared.  A known name is left as it is; a new one needs room in the table. -/
def declare (t : SymbolTable) (name : Text) : Except Error SymbolTable :=
  if (t.find? name).isSome then .ok t
  else if t.capacity ≤ t.size then .error (.tooMany .symbols t.capacity)
  else .ok (t.add name)

/-- Records the value of a variable; an unknown name is ignored. -/
def assign (t : SymbolTable) (name : Text) (value : Int64) : SymbolTable :=
  { t with entries := t.entries.map fun v => if v.name = name then { v with value } else v }

end SymbolTable

end ArithMips
