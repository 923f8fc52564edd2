import ArithMips.Error
import ArithMips.Mips.Instruction

/-!
# Emission of code

An emitter holds the code written so far and the number of the next free register.  Emission fails when the
code has reached its limit; what was emitted before stays.
-/

namespace ArithMips

open Mips (Instruction Register)

/-- The code written so far, and the next free register. -/
structure Emitter where
  code : Array Instruction := #[]
  nextRegister : UInt32 := 1

/-- Computations that write code and may fail. -/
abbrev Emit := ExceptT Error (StateM Emitter)

namespace Emitter

def fresh : Emit Register := do
  let e ← get
  set { e with nextRegister := e.nextRegister + 1 }
  return ⟨e.nextRegister⟩

/-- Makes register 1 the next free one. -/
def resetRegisters : Emit Unit := modify fun e => { e with nextRegister := 1 }

/-- Writes an instruction if there are less than `limit` of them. -/
def emit (limit : Nat) (i : Instruction) : Emit Unit := do
  if limit ≤ (← get).code.size then throw (.tooMany .instructions limit)
  else modify fun e => { e with code := e.code.push i }

def emitAll (limit : Nat) : List Instruction → Emit Unit
  | [] => return
  | i :: rest => do
    emit limit i
    emitAll limit rest

theorem emit_of_le {limit : Nat} {e : Emitter} (h : limit ≤ e.code.size) (i : Instruction) :
    emit limit i e = (.error (.tooMany .instructions limit), e) := by
  show (if limit ≤ e.code.size then _ else _ : Emit Unit) e = _
  rw [if_pos h]
  rfl

theorem emit_of_lt {limit : Nat} {e : Emitter} (h : e.code.size < limit) (i : Instruction) :
    emit limit i e = (.ok (), { e with code := e.code.push i }) := by
  show (if limit ≤ e.code.size then _ else _ : Emit Unit) e = _
  rw [if_neg (Nat.not_le.2 h)]
  rfl

theorem emitAll_nil (limit : Nat) (e : Emitter) : emitAll limit [] e = (.ok (), e) := rfl

/-- Writing several instructions stops at the first one that does not fit. -/
theorem emitAll_cons (limit : Nat) (i : Instruction) (rest : List Instruction) (e : Emitter) :
    emitAll limit (i :: rest) e =
      match emit limit i e with
      | (.ok _, e') => emitAll limit rest e'
      | (.error err, e') => (.error err, e') := by
  show (emit limit i >>= fun _ => emitAll limit rest) e = _
  simp only [bind, ExceptT.bind, ExceptT.mk, StateT.bind]
  rcases emit limit i e with ⟨_ | _, e'⟩ <;> rfl

end Emitter

end ArithMips
