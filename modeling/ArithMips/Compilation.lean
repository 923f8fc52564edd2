import ArithMips.Lowering
import ArithMips.Statement
import ArithMips.Token.Analysis

/-!
# Compilation

A `Compilation` is the state of a run: the variables, the code, the diagnostics and the traces so far.  Statements
are compiled one after the other (`Compilation.process`); an error in one of them is noted together with its text
and does not stop the others.
-/

namespace ArithMips

open Mips (Instruction Register)

/-- The state of a run. -/
structure Compilation where
  options : Options
  symbols : SymbolTable
  emitter : Emitter := {}
  diagnostics : Array Diagnostic := #[]
  traces : Array Trace := #[]
  current : Option Text := none

/-- Computations that change the state of a run and may fail. -/
abbrev Compile := ExceptT Error (StateM Compilation)

namespace Compilation

def start (options : Options) : Compilation where
  options
  symbols := { capacity := options.limits.symbols }

def code (c : Compilation) : Array Instruction := c.emitter.code

def succeeded (c : Compilation) : Bool := c.diagnostics.isEmpty

def enter (statement : Text) (c : Compilation) : Compilation := { c with current := some statement }

def leave (c : Compilation) : Compilation := { c with current := none }

/-- Notes an error in the current statement. -/
def report (e : Error) (c : Compilation) : Compilation :=
  { c with diagnostics := c.diagnostics.push { error := e, statement := c.current } }

/-- The diagnostic of an unknown character in the current statement. -/
def unknownCharacter (c : Compilation) (ch : Char) : Diagnostic :=
  { error := .unknownCharacter ch, statement := c.current }

/-- Notes the skipped characters and the traces of an analysed expression. -/
def note (a : Analysis) (c : Compilation) : Compilation :=
  { c with
    diagnostics := c.diagnostics ++ a.skipped.map c.unknownCharacter
    traces := c.traces ++ a.traces }

end Compilation

/-- The error for a declared variable that the table has lost. -/
def Error.vanished (name : Text) : Error :=
  .internal ("`".toList ++ name ++ "` vanished after declaration".toList) { file := "compilation".toList, line := 0 }

namespace Compile

/-- Runs a computation on the code of a run. -/
def onEmitter {α : Type} (x : Emit α) : Compile α := fun c =>
  let (result, emitter) := x c.emitter
  (result, { c with emitter })

def emit (i : Instruction) : Compile Unit := do
  onEmitter (Emitter.emit (← get).options.limits.instructions i)

def declare (name : Text) : Compile Unit := do
  let symbols ← (← get).symbols.declare name
  modify fun c => { c with symbols }

def assign (name : Text) (value : Int64) : Compile Unit :=
  modify fun c => { c with symbols := c.symbols.assign name value }

def lower (tokens : List Token) : Compile Operand := do
  let c ← get
  onEmitter (ArithMips.lower c.symbols c.options.limits.instructions tokens)

/-- Compiles the text of an expression.  Unknown characters are noted and skipped. -/
def expression (s : Text) : Compile Operand := do
  let analysis := s.analyse (← get).options
  modify (Compilation.note analysis)
  let tokens ← analysis.result
  onEmitter Emitter.resetRegisters
  lower tokens

/-- An expression whose analysis fails changes nothing but the notes about it. -/
theorem expression_of_error {s : Text} {c : Compilation} {e : Error}
    (h : (s.analyse c.options).result = .error e) :
    expression s c = (.error e, c.note (s.analyse c.options)) := by
  show (do let tokens ← (s.analyse c.options).result
           onEmitter Emitter.resetRegisters
           lower tokens : Compile Operand) (c.note (s.analyse c.options)) = _
  rw [h]
  rfl

/-- An expression that passes its analysis is lowered with register 1 as the next free one. -/
theorem expression_of_ok {s : Text} {c : Compilation} {tokens : List Token}
    (h : (s.analyse c.options).result = .ok tokens) :
    expression s c =
      lower tokens { c.note (s.analyse c.options) with emitter := { c.emitter with nextRegister := 1 } } := by
  show (do let tokens ← (s.analyse c.options).result
           onEmitter Emitter.resetRegisters
           lower tokens : Compile Operand) (c.note (s.analyse c.options)) = _
  rw [h]
  rfl

/-- Stores the value of an operand in a declared variable, by way of the result register. -/
def store (name : Text) (value : Operand) : Compile Unit := do
  match (← get).symbols.find? name with
  | none => throw (.vanished name)
  | some v =>
    if value.register ≠ .result then emit (.mv .result value.register)
    emit (.sd .result name v.offset)
    assign name value.value

def statement (s : Text) : Compile Unit := do
  match ← Statement.parse (← get).options.limits s with
  | .empty => return
  | .expression e => discard (expression e)
  | .declaration name e =>
    declare name
    store name (← expression e)

end Compile

namespace Compilation

/-- Compiles a statement and notes the error that it ends with, if any. -/
def process (c : Compilation) (s : Text) : Compilation :=
  let (result, c) := Compile.statement s (c.enter s.trim)
  match result with
  | .ok _ => c.leave
  | .error e => (c.report e).leave

def processAll (c : Compilation) (statements : List Text) : Compilation := statements.foldl process c

def ofProgram (options : Options) (program : Text) : Compilation :=
  let c := start options
  let c := match program.checkSemicolons with
    | .ok _ => c
    | .error e => c.report e
  c.processAll program.normalizeSpace.statements

end Compilation

end ArithMips
