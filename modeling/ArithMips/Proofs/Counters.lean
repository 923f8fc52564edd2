import ArithMips.Proofs.Execution
import ArithMips.Proofs.Lexing
import ArithMips.Proofs.Raising

/-!
# Counters that do not overflow

A run has two counters of a fixed width: the number of the next register, which every lowered token increases, and the
offset of the next slot, which every new variable increases.  Neither of them is checked where it is increased.

To say what happens there, a run is done over with a guard that is asked before every increase and that ends the run if
it refuses (`Guard.ofProgram`).  A guard that allows the first registers, as many as a text may have tokens, and the
offsets of the slots that a table has room for, is never in the way (`Guard.ofProgram_eq_some`), and while the limits
are within their bounds, the increases that these are do not overflow (`Compilation.ofProgram_guarded`).

The registers are bounded by the tokens: lowering takes one for each token in reverse Polish order and starts over at
register 1, and the order is no longer than the tokens of the text, which the limit bounds
(`Text.length_le_of_analyse`).
-/

namespace ArithMips

open Mips (Register)

/-! ### Computations that may be stopped -/

/-- Computations that may fail and that may be stopped short, without a result and without a state. -/
abbrev Checked (σ : Type) := ExceptT Error (StateT σ Option)

namespace Checked

variable {σ α β : Type}

/-- A computation that is not stopped. -/
def lift (x : ExceptT Error (StateM σ) α) : Checked σ α := fun s => some (x s)

/-- A result that may be missing. -/
def ofOption (x : Option (Except Error α)) : Checked σ α := fun s => x.map (·, s)

/-- Runs a computation on the code of a run. -/
def onEmitter (x : Checked Emitter α) : Checked Compilation α := fun c =>
  (x c.emitter).map fun (result, emitter) => (result, { c with emitter })

/-- From the state `s` on, a computation is not stopped and does the same as `x`. -/
def Mirrors (x' : Checked σ α) (x : ExceptT Error (StateM σ) α) (s : σ) : Prop := x' s = some (x s)

theorem Mirrors.bind {x' : Checked σ α} {x : ExceptT Error (StateM σ) α} {f' : α → Checked σ β}
    {f : α → ExceptT Error (StateM σ) β} {s : σ} (hx : Mirrors x' x s)
    (hf : ∀ a t, x s = (.ok a, t) → Mirrors (f' a) (f a) t) : Mirrors (x' >>= f') (x >>= f) s := by
  unfold Mirrors at hx hf ⊢
  simp only [Bind.bind, ExceptT.bind, ExceptT.mk, StateT.bind, hx, Option.bind_some]
  rcases h : x s with ⟨e | a, t⟩
  · rfl
  · exact hf a t h

theorem Mirrors.discard {x' : Checked σ α} {x : ExceptT Error (StateM σ) α} {s : σ} (h : Mirrors x' x s) :
    Mirrors (discard x') (discard x) s := by
  unfold Mirrors at h ⊢
  simp only [Functor.discard, Functor.mapConst, Function.comp_apply, ExceptT.map, ExceptT.mk, Bind.bind, StateT.bind, h,
    Option.bind_some]
  rcases x s with ⟨_ | _, t⟩ <;> rfl

theorem Mirrors.onEmitter {x' : Checked Emitter α} {x : Emit α} {c : Compilation} (h : Mirrors x' x c.emitter) :
    Mirrors (onEmitter x') (Compile.onEmitter x) c := by
  unfold Mirrors at h ⊢
  rw [Checked.onEmitter, h]
  rfl

end Checked

open Checked (Mirrors)

/-! ### Guarded runs

A run once more, with the guard asked where a register is taken (`Guard.fresh`) and where a slot is given to a variable
(`Guard.add`). -/

/-- Which values of the counters may be increased. -/
structure Guard where
  register : UInt32 → Bool := fun _ => true
  offset : Int64 → Bool := fun _ => true

namespace Guard

variable (g : Guard)

/-- Takes the next register if it may be increased. -/
def fresh : Checked Emitter Register := fun e => if g.register e.nextRegister then some (Emitter.fresh e) else none

def lowerOn (symbols : SymbolTable) (limit : Nat) : List Token → List Operand → Checked Emitter Operand
  | [], stack => Checked.lift (ArithMips.lowerOn symbols limit [] stack)
  | t :: rest, stack => do
    let lowered ← lowerToken symbols ⟨(← get).nextRegister⟩ t stack
    discard g.fresh
    Checked.lift (Emitter.emitAll limit lowered.code)
    lowerOn symbols limit rest (lowered.operand :: lowered.rest)

def expression (s : Text) : Checked Compilation Operand := do
  let analysis := s.analyse (← get).options
  modify (Compilation.note analysis)
  let tokens ← analysis.result
  Checked.lift (Compile.onEmitter Emitter.resetRegisters)
  let c ← get
  Checked.onEmitter (g.lowerOn c.symbols c.options.limits.instructions tokens [])

/-- Adds a variable if the offset of its slot may be increased. -/
def add (t : SymbolTable) (name : Text) : Option SymbolTable :=
  if g.offset t.nextOffset then some (t.add name) else none

def declareIn (t : SymbolTable) (name : Text) : Option (Except Error SymbolTable) :=
  if (t.find? name).isSome then some (.ok t)
  else if t.capacity ≤ t.size then some (.error (.tooMany .symbols t.capacity))
  else (g.add t name).map .ok

def declare (name : Text) : Checked Compilation Unit := do
  let symbols ← Checked.ofOption (g.declareIn (← get).symbols name)
  modify fun c => { c with symbols }

def statement (s : Text) : Checked Compilation Unit := do
  match ← Statement.parse (← get).options.limits s with
  | .empty => return
  | .expression e => discard (g.expression e)
  | .declaration name e =>
    g.declare name
    Checked.lift (Compile.store name (← g.expression e))

def process (c : Compilation) (s : Text) : Option Compilation := do
  let (result, c) ← g.statement s (c.enter s.trim)
  match result with
  | .ok _ => some c.leave
  | .error e => some (c.report e).leave

def processAll (c : Compilation) (statements : List Text) : Option Compilation := statements.foldlM g.process c

/-- The run of a program, unless it increases a counter from a value that the guard refuses. -/
def ofProgram (options : Options) (program : Text) : Option Compilation :=
  g.processAll (.opening options program) program.normalizeSpace.statements

end Guard

/-! ### The number of tokens -/

/-- The reverse Polish order is no longer than what it reorders. -/
private theorem Polish.length_ofTokens_le {ts : List Token} (h : .stop ∉ ts) :
    (ofTokens ts []).output.length ≤ ts.length := by
  have hoperands := congrArg List.length (filter_isOperand_ofTokens h [])
  have hoperators := (filter_isOperator_ofTokens h []).length_eq
  rw [waiting, List.append_nil] at hoperators
  calc (ofTokens ts []).output.length
      = (ofTokens ts []).output.countP (fun t => t.isOperand || t.isOperator) :=
        (List.countP_eq_length.2 fun t ht => by simpa using isOperand_or_isOperator_of_mem_ofTokens ht).symm
    _ = ts.countP (fun t => t.isOperand || t.isOperator) := by
        rw [countP_isOperand_or_isOperator, countP_isOperand_or_isOperator, List.countP_eq_length_filter,
          List.countP_eq_length_filter, hoperands, hoperators, List.countP_eq_length_filter,
          List.countP_eq_length_filter]
    _ ≤ ts.length := List.countP_le_length

namespace Text

/-- What an expression passes on to lowering is no longer than its tokens, and those are bounded by the limit. -/
theorem length_le_of_analyse {options : Options} {s : Text} {polish : List Token}
    (h : (s.analyse options).result = .ok polish) :
    ∃ ts : List Token, (s.scan options.limits).result = .ok (ts ++ [.stop]) ∧ polish.length ≤ ts.length ∧
      ts.length ≤ options.limits.tokens := by
  obtain ⟨tokens, hscan, hpolish⟩ := analyse_eq_ok h
  obtain ⟨ts, rfl, hstop⟩ := Scan.exists_append_stop hscan
  obtain ⟨-, hfits, us, hus, hdenotes⟩ := Scan.forall₂_denotes (Nat.zero_le _) hscan
  obtain rfl := List.append_cancel_right hus
  refine ⟨ts, hscan, ?_, ?_⟩
  · rw [← (Polish.polish_eq_ok_iff.1 hpolish).2, Polish.ofTokens_append_stop hstop]
    exact Polish.length_ofTokens_le hstop
  · rw [← hdenotes.length_eq, ← List.countP_eq_length_filter]
    omega

end Text

/-! ### Guards that are not in the way -/

private theorem Emitter.nextRegister_emitAll (limit : Nat) (code : List Mips.Instruction) (e : Emitter) :
    (emitAll limit code e).2.nextRegister = e.nextRegister := by
  rw [emitAll_apply]

namespace Guard

/-- Whether a guard allows the first registers, one for each of some tokens, and the offsets of some slots. -/
structure Allows (g : Guard) (tokens slots : Nat) : Prop where
  register : ∀ k < tokens, g.register (1 + .ofNat k) = true
  offset : ∀ i < slots, g.offset (SymbolTable.offsetAt i) = true

variable {g : Guard}

private theorem mirrors_fresh {e : Emitter} (h : g.register e.nextRegister = true) :
    Mirrors g.fresh Emitter.fresh e := by
  rw [Mirrors, fresh, if_pos h]

/-- Lowering takes no more registers than there are tokens, one after the other. -/
private theorem mirrors_lowerOn {symbols : SymbolTable} {limit : Nat} {tokens : List Token} {stack : List Operand}
    {e : Emitter} (h : ∀ k < tokens.length, g.register (e.nextRegister + .ofNat k) = true) :
    Mirrors (g.lowerOn symbols limit tokens stack) (ArithMips.lowerOn symbols limit tokens stack) e := by
  induction tokens generalizing stack e with
  | nil => rfl
  | cons t rest ih =>
    have hfresh : Mirrors g.fresh Emitter.fresh e := by
      apply mirrors_fresh
      have h0 := h 0 (Nat.succ_pos _)
      rwa [show UInt32.ofNat 0 = 0 from rfl, UInt32.add_zero] at h0
    refine Mirrors.bind (x := get) rfl ?_
    rintro _ _ ⟨⟩
    refine Mirrors.bind rfl ?_
    intro lowered _ hlowered
    obtain ⟨-, rfl⟩ := Prod.mk.inj hlowered
    -- The one place where the guard is asked.
    refine Mirrors.bind hfresh.discard ?_
    rintro _ _ ⟨⟩
    refine Mirrors.bind rfl ?_
    intro _ e' hemit
    apply ih
    intro k hk
    have hnext : e'.nextRegister = e.nextRegister + 1 := by
      have hkept := Emitter.nextRegister_emitAll limit lowered.code { e with nextRegister := e.nextRegister + 1 }
      rwa [hemit] at hkept
    have hk' := h (k + 1) (Nat.succ_lt_succ hk)
    rwa [hnext, UInt32.add_assoc, UInt32.add_comm 1, ← UInt32.ofNat_one, ← UInt32.ofNat_add]

/-- Lowering an expression starts over at register 1 and has no more tokens than the limit. -/
private theorem mirrors_expression {s : Text} {c : Compilation} {slots : Nat}
    (h : g.Allows c.options.limits.tokens slots) :
    Mirrors (g.expression s) (Compile.expression s) c := by
  refine Mirrors.bind (x := get) rfl ?_
  rintro _ _ ⟨⟩
  refine Mirrors.bind rfl ?_
  rintro _ _ ⟨⟩
  refine Mirrors.bind rfl ?_
  intro tokens _ htokens
  obtain ⟨hanalyse, rfl⟩ := Prod.mk.inj htokens
  refine Mirrors.bind rfl ?_
  rintro _ _ ⟨⟩
  refine Mirrors.bind rfl ?_
  rintro _ _ ⟨⟩
  apply Mirrors.onEmitter
  apply mirrors_lowerOn
  intro k hk
  obtain ⟨ts, -, hpolish, hts⟩ := Text.length_le_of_analyse hanalyse
  exact h.register k (by omega)

/-- A variable is added behind the others, at the offset of the first position that is free. -/
private theorem declareIn_eq_some {t : SymbolTable} (hwf : t.WellFormed) {tokens : Nat} (h : g.Allows tokens t.capacity)
    (name : Text) :
    g.declareIn t name = some (t.declare name) := by
  rw [declareIn, SymbolTable.declare]
  split
  · rfl
  · split
    · rfl
    · next hroom =>
      rw [add, hwf.nextOffset, if_pos (h.offset _ (Nat.not_le.1 hroom))]
      rfl

private theorem mirrors_declare {name : Text} {c : Compilation} (hwf : c.symbols.WellFormed) {tokens : Nat}
    (h : g.Allows tokens c.symbols.capacity) :
    Mirrors (g.declare name) (Compile.declare name) c := by
  refine Mirrors.bind (x := get) rfl ?_
  rintro _ _ ⟨⟩
  refine Mirrors.bind ?_ fun _ _ _ => rfl
  rw [declareIn_eq_some hwf h]
  rfl

private theorem mirrors_statement {s : Text} {c : Compilation} (hwf : c.symbols.WellFormed)
    (h : g.Allows c.options.limits.tokens c.symbols.capacity) :
    Mirrors (g.statement s) (Compile.statement s) c := by
  refine Mirrors.bind (x := get) rfl ?_
  rintro _ _ ⟨⟩
  refine Mirrors.bind rfl ?_
  intro parsed _ hparsed
  obtain ⟨-, rfl⟩ := Prod.mk.inj hparsed
  cases parsed with
  | empty => rfl
  | expression e => exact (mirrors_expression h).discard
  | declaration name e =>
    refine Mirrors.bind (mirrors_declare hwf h) ?_
    intro _ c' hdeclare
    have hoptions : c'.options = c.options := by
      rw [Compile.declare_apply] at hdeclare
      split at hdeclare
      · cases hdeclare
        rfl
      · cases hdeclare
    rw [← hoptions] at h
    exact Mirrors.bind (mirrors_expression h) fun _ _ _ => rfl

/-- One statement: neither what it reads nor how it ends matters to the counters. -/
private theorem process_eq_some {c : Compilation} (hwf : c.symbols.WellFormed)
    (h : g.Allows c.options.limits.tokens c.symbols.capacity) (s : Text) :
    g.process c s = some (c.process s) := by
  have hstatement : Mirrors (g.statement s) (Compile.statement s) (c.enter s.trim) :=
    mirrors_statement hwf h
  rw [Mirrors] at hstatement
  rw [process, hstatement, Compilation.process]
  rcases Compile.statement s (c.enter s.trim) with ⟨_ | _, c'⟩ <;> rfl

private theorem processAll_eq_some {c : Compilation} (hwf : c.symbols.WellFormed)
    (h : g.Allows c.options.limits.tokens c.symbols.capacity) (statements : List Text) :
    g.processAll c statements = some (c.processAll statements) := by
  induction statements generalizing c with
  | nil => rfl
  | cons s rest ih =>
    rw [processAll, List.foldlM_cons, process_eq_some hwf h, Compilation.processAll_cons]
    apply ih (Compilation.wellFormed_process hwf s)
    rwa [Compilation.options_process, Compilation.capacity_process]

/-- A guard is not in the way of a program if it allows as many registers as the limit allows tokens, from the first one
on, and the offsets of as many slots as the limit allows variables. -/
theorem ofProgram_eq_some {options : Options} (h : g.Allows options.limits.tokens options.limits.symbols)
    (program : Text) : g.ofProgram options program = some (.ofProgram options program) := by
  rw [ofProgram, Compilation.ofProgram_eq]
  apply processAll_eq_some
  · rw [Compilation.symbols_opening]
    exact SymbolTable.wellFormed_empty _
  · rwa [Compilation.options_opening, Compilation.symbols_opening]

/-- Registers may be increased up to `bound`, and not past the last number that there is. -/
def registersUpTo (bound : Nat) : Guard where
  register r := (r + 1).toNat = r.toNat + 1 ∧ (r + 1).toNat ≤ bound

/-- Offsets may be increased by the size of a slot unless that overflows. -/
def exactOffsets : Guard where
  offset o := (o + Variable.slotSize).toInt = o.toInt + Variable.slotSize.toInt

private theorem allows_registersUpTo {tokens : Nat} (h : tokens ≤ 2 ^ 32 - 2) (slots : Nat) :
    (registersUpTo (tokens + 1)).Allows tokens slots := by
  refine ⟨fun k hk => ?_, fun _ _ => rfl⟩
  have hr : (1 + UInt32.ofNat k).toNat = k + 1 := by
    rw [← UInt32.ofNat_one, ← UInt32.ofNat_add, UInt32.toNat_ofNat_of_lt' (by simp [UInt32.size]; omega), Nat.add_comm]
  have hsucc := toNat_succ_register (r := 1 + .ofNat k) (by omega)
  exact decide_eq_true ⟨hsucc, by omega⟩

private theorem allows_exactOffsets {slots : Nat} (h : slots < 2 ^ 60 - 1) (tokens : Nat) :
    exactOffsets.Allows tokens slots := by
  refine ⟨fun _ _ => rfl, fun i hi => ?_⟩
  have hslot : Variable.slotSize.toInt = 8 := rfl
  apply decide_eq_true
  rw [← SymbolTable.offsetAt_succ, SymbolTable.toInt_offsetAt (by omega), SymbolTable.toInt_offsetAt (by omega)]
  push_cast
  omega

end Guard

namespace Compilation

/-- No counter overflows in a run.  Every increase of the next register is exact and leads to at most one more than the
limit of tokens, which itself bounds what each expression passes on to lowering, and every increase of the next offset
is exact. -/
theorem ofProgram_guarded (options : Options) (program : Text) :
    (options.limits.tokens ≤ 2 ^ 32 - 2 →
      (Guard.registersUpTo (options.limits.tokens + 1)).ofProgram options program =
        some (ofProgram options program)) ∧
      (options.limits.symbols < 2 ^ 60 - 1 →
        Guard.exactOffsets.ofProgram options program = some (ofProgram options program)) ∧
      ∀ (s : Text) (polish : List Token), (s.analyse options).result = .ok polish →
        ∃ ts : List Token, (s.scan options.limits).result = .ok (ts ++ [.stop]) ∧ polish.length ≤ ts.length ∧
          ts.length ≤ options.limits.tokens := by
  refine ⟨?_, ?_, ?_⟩
  · intro htokens
    exact Guard.ofProgram_eq_some (Guard.allows_registersUpTo htokens _) program
  · intro hsymbols
    exact Guard.ofProgram_eq_some (Guard.allows_exactOffsets hsymbols _) program
  · intro s polish hanalyse
    exact Text.length_le_of_analyse hanalyse

/-- Statements that fail among others that take all the registers and slots that the limits allow: the bound is reached,
so a lower one would end the run. -/
theorem ofProgram_guarded_full :
    let options : Options := { limits := { tokens := 3, symbols := 1 } }
    let program := "int x = 1 + 2; 4 *; int y = 5; x - y; 1 + 2 + 3; x / x;".toList
    (Guard.registersUpTo 4).ofProgram options program = some (ofProgram options program) ∧
      (Guard.registersUpTo 3).ofProgram options program = none ∧
      Guard.exactOffsets.ofProgram options program = some (ofProgram options program) := by
  intro options program
  obtain ⟨hregisters, hoffsets, -⟩ := ofProgram_guarded options program
  have hlower : ((Guard.registersUpTo 3).ofProgram options program).isNone = true := by decide +kernel
  exact ⟨hregisters (by decide), Option.isNone_iff_eq_none.1 hlower, hoffsets (by decide)⟩

end Compilation

end ArithMips
