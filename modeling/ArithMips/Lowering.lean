import ArithMips.Emitter
import ArithMips.SymbolTable
import ArithMips.Token.Basic

/-!
# Lowering expressions to code

An expression in reverse Polish order is lowered token by token over a stack of operands.  An operand is a
register together with the value it is known to hold.  A token takes one fresh register for its result:

* a literal is put into it, a variable is loaded into it;
* an operator takes the two topmost operands, the right one first.

`lowerToken` says what a single token does, without emitting anything; `lower` runs it over an expression.
-/

namespace ArithMips

open Mips (Instruction Register)

/-- A register with the value it is known to hold. -/
structure Operand where
  register : Register
  value : Int64
  deriving DecidableEq, Repr

/-- What lowering a token gives: its result, its code, and the operands it left on the stack. -/
structure Lowered where
  operand : Operand
  code : List Instruction
  rest : List Operand
  deriving DecidableEq, Repr

def Operator.code (op : Operator) (rd rs rt : Register) : List Instruction :=
  match op with
  | add => [.daddu rd rs rt]
  | sub => [.dsubu rd rs rt]
  | mul => [.dmult rs rt, .mflo rd]
  | div => [.ddiv rs rt, .mflo rd]

/-- The error for a token that has no place in reverse Polish order. -/
def Error.strayToken (t : Token) : Error :=
  .internal ("`".toList ++ t.text ++ "` in a postfix sequence".toList) { file := "lowering".toList, line := 0 }

/-- Lowers one token whose result goes to the register `rd`. -/
def lowerToken (symbols : SymbolTable) (rd : Register) : Token → List Operand → Except Error Lowered
  | .literal value, stack => .ok { operand := ⟨rd, value⟩, code := [.li rd value], rest := stack }
  | .name identifier, stack =>
    match symbols.find? identifier with
    | some v => .ok { operand := ⟨rd, v.value⟩, code := [.ld rd identifier v.offset], rest := stack }
    | none => .error (.undeclared identifier)
  | .operator op, right :: left :: stack =>
    .ok { operand := ⟨rd, op.apply left.value right.value⟩
          code := op.code rd left.register right.register
          rest := stack }
  | .operator _, _ => .error .malformedExpression
  | t, _ => .error (.strayToken t)

/-- Lowers the rest of an expression over a stack of operands; at the end exactly one operand must be left. -/
def lowerOn (symbols : SymbolTable) (limit : Nat) : List Token → List Operand → Emit Operand
  | [], [result] => return result
  | [], _ => throw .malformedExpression
  | t :: rest, stack => do
    let lowered ← lowerToken symbols ⟨(← get).nextRegister⟩ t stack
    discard Emitter.fresh
    Emitter.emitAll limit lowered.code
    lowerOn symbols limit rest (lowered.operand :: lowered.rest)

/-- Lowering a token that fails takes no register and writes no code. -/
theorem lowerOn_cons_of_error {symbols : SymbolTable} {t : Token} {stack : List Operand} {e : Emitter} {err : Error}
    (h : lowerToken symbols ⟨e.nextRegister⟩ t stack = .error err) (limit : Nat) (rest : List Token) :
    lowerOn symbols limit (t :: rest) stack e = (.error err, e) := by
  show (do let lowered ← lowerToken symbols ⟨e.nextRegister⟩ t stack
           discard Emitter.fresh
           Emitter.emitAll limit lowered.code
           lowerOn symbols limit rest (lowered.operand :: lowered.rest) : Emit Operand) e = _
  rw [h]
  rfl

/-- Lowering a token takes a register, writes its code, and goes on with its result on the stack. -/
theorem lowerOn_cons_of_ok {symbols : SymbolTable} {t : Token} {stack : List Operand} {e : Emitter} {l : Lowered}
    (h : lowerToken symbols ⟨e.nextRegister⟩ t stack = .ok l) (limit : Nat) (rest : List Token) :
    lowerOn symbols limit (t :: rest) stack e =
      match Emitter.emitAll limit l.code { e with nextRegister := e.nextRegister + 1 } with
      | (.ok _, e') => lowerOn symbols limit rest (l.operand :: l.rest) e'
      | (.error err, e') => (.error err, e') := by
  show (do let lowered ← lowerToken symbols ⟨e.nextRegister⟩ t stack
           discard Emitter.fresh
           Emitter.emitAll limit lowered.code
           lowerOn symbols limit rest (lowered.operand :: lowered.rest) : Emit Operand) e = _
  rw [h]
  show (Emitter.emitAll limit l.code >>= fun _ => lowerOn symbols limit rest (l.operand :: l.rest))
    { e with nextRegister := e.nextRegister + 1 } = _
  simp only [bind, ExceptT.bind, ExceptT.mk, StateT.bind]
  rcases Emitter.emitAll limit l.code { e with nextRegister := e.nextRegister + 1 } with ⟨_ | _, e'⟩ <;> rfl

def lower (symbols : SymbolTable) (limit : Nat) (tokens : List Token) : Emit Operand :=
  lowerOn symbols limit tokens []

end ArithMips
