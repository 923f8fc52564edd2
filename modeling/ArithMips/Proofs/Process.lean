import ArithMips.Compilation
import ArithMips.Proofs.Lowering
import ArithMips.Proofs.SymbolTable

/-!
# What a statement does

The effect of a statement if there is room for all its code is a function of the options, the table and the text
alone (`Effect.ofStatement`): it declares its variable, skips unknown characters, writes code, and ends with an
error or with a table in which the variable has its value.  Compiling the statement carries the effect out as far
as there is room (`code_process`, `symbols_process`, `diagnostics_process`); a statement whose code does not fit
ends with an error and assigns nothing.

`Effect.cases` lists everything that a statement can do.
-/

namespace ArithMips

open Mips (Instruction Register)

/-- The code that stores an operand in the slot of a variable. -/
def Operand.storeCode (o : Operand) (name : Text) (offset : Int64) : List Instruction :=
  (if o.register = .result then [] else [.mv .result o.register]) ++ [.sd .result name offset]

/-- What a statement does if there is room for all its code: the table with the variable that it declares, the
unknown characters of its expression, its code, and the table at its end or the error that ended it. -/
structure Effect where
  declared : SymbolTable
  skipped : List Char := []
  code : List Instruction := []
  result : Except Error SymbolTable

namespace Effect

/-- The effect of an expression whose value is passed on. -/
def ofExpression (options : Options) (symbols : SymbolTable) (s : Text)
    (use : Operand → List Instruction × Except Error SymbolTable) : Effect :=
  let skipped := (s.analyse options).skipped
  match (s.analyse options).result with
  | .error e => { declared := symbols, skipped, result := .error e }
  | .ok tokens =>
    let p := plan symbols 1 tokens []
    match p.result with
    | .error e => { declared := symbols, skipped, code := p.code, result := .error e }
    | .ok o => { declared := symbols, skipped, code := p.code ++ (use o).1, result := (use o).2 }

theorem ofExpression_of_plan {options : Options} {symbols : SymbolTable} {s : Text} {tokens : List Token} {o : Operand}
    (ha : (s.analyse options).result = .ok tokens) (hp : (plan symbols 1 tokens []).result = .ok o)
    (use : Operand → List Instruction × Except Error SymbolTable) :
    ofExpression options symbols s use =
      { declared := symbols, skipped := (s.analyse options).skipped,
        code := (plan symbols 1 tokens []).code ++ (use o).1, result := (use o).2 } := by
  simp only [ofExpression, ha, hp]

/-- How a declaration uses the value of its expression. -/
def storing (symbols : SymbolTable) (name : Text) (o : Operand) : List Instruction × Except Error SymbolTable :=
  match symbols.find? name with
  | none => ([], .error (.vanished name))
  | some v => (o.storeCode name v.offset, .ok (symbols.assign name o.value))

def ofStatement (options : Options) (symbols : SymbolTable) (s : Text) : Effect :=
  match Statement.parse options.limits s with
  | .error e => { declared := symbols, result := .error e }
  | .ok .empty => { declared := symbols, result := .ok symbols }
  | .ok (.expression e) => ofExpression options symbols e fun _ => ([], .ok symbols)
  | .ok (.declaration name e) =>
    match symbols.declare name with
    | .error err => { declared := symbols, result := .error err }
    | .ok declared => ofExpression options declared e (storing declared name)

/-- The result of a statement if there is room for a number of instructions only. -/
def outcome (limit room : Nat) (f : Effect) : Except Error SymbolTable :=
  if f.code.length ≤ room then f.result else .error (.tooMany .instructions limit)

/-- The table that a statement leaves. -/
def table (limit room : Nat) (f : Effect) : SymbolTable :=
  match f.outcome limit room with
  | .ok t => t
  | .error _ => f.declared

/-- The errors of a statement, in the order in which they are noted. -/
def errors (limit room : Nat) (f : Effect) : List Error :=
  f.skipped.map .unknownCharacter ++
    match f.outcome limit room with
    | .ok _ => []
    | .error e => [e]

end Effect

/-! ### Running the parts of a statement -/

namespace Compile

theorem bind_apply {α β : Type} (x : Compile α) (f : α → Compile β) (c : Compilation) :
    (x >>= f) c =
      match x c with
      | (.ok a, c') => f a c'
      | (.error e, c') => (.error e, c') := by
  simp only [bind, ExceptT.bind, ExceptT.mk, StateT.bind]
  rcases x c with ⟨_ | _, c'⟩ <;> rfl

private theorem emit_apply (i : Instruction) (c : Compilation) :
    emit i c =
      ((Emitter.emit c.options.limits.instructions i c.emitter).1,
        { c with emitter := (Emitter.emit c.options.limits.instructions i c.emitter).2 }) := rfl

theorem store_apply {name : Text} {v : Variable} {c : Compilation} (h : c.symbols.find? name = some v)
    (o : Operand) :
    store name o c =
      match Emitter.emitAll c.options.limits.instructions (o.storeCode name v.offset) c.emitter with
      | (.ok _, e) => (.ok (), { c with emitter := e, symbols := c.symbols.assign name o.value })
      | (.error err, e) => (.error err, { c with emitter := e }) := by
  have hs : store name o c =
      (do if o.register ≠ .result then emit (.mv .result o.register)
          emit (.sd .result name v.offset)
          assign name o.value : Compile Unit) c := by
    show (match c.symbols.find? name with
      | none => throw (.vanished name)
      | some v => _ : Compile Unit) c = _
    rw [h]
  rw [hs, Operand.storeCode]
  by_cases hr : o.register = .result
  · simp only [hr, ne_eq, not_true_eq_false, ↓reduceIte, List.nil_append, Emitter.emitAll_cons,
      Emitter.emitAll_nil, bind_apply, emit_apply]
    rcases Emitter.emit c.options.limits.instructions (.sd .result name v.offset) c.emitter with ⟨_ | _, e⟩ <;> rfl
  · simp only [hr, ne_eq, not_false_eq_true, ↓reduceIte, List.cons_append, List.nil_append,
      Emitter.emitAll_cons, Emitter.emitAll_nil, bind_apply, emit_apply]
    rcases Emitter.emit c.options.limits.instructions (.mv .result o.register) c.emitter with ⟨_ | _, e⟩
    · rfl
    · -- The copy was written, the store may still fail.
      simp only
      rcases Emitter.emit c.options.limits.instructions (.sd .result name v.offset) e with ⟨_ | _, e'⟩ <;> rfl

theorem store_of_find?_eq_none {name : Text} {c : Compilation} (h : c.symbols.find? name = none) (o : Operand) :
    store name o c = (.error (.vanished name), c) := by
  show (match c.symbols.find? name with
    | none => throw (.vanished name)
    | some v => _ : Compile Unit) c = _
  rw [h]
  rfl

theorem discard_apply {α : Type} (x : Compile α) (c : Compilation) :
    (discard x : Compile Unit) c =
      match x c with
      | (.ok _, c') => (.ok (), c')
      | (.error e, c') => (.error e, c') := by
  simp only [discard, Functor.mapConst, Function.comp_apply, ExceptT.map, ExceptT.mk, bind, StateT.bind]
  rcases x c with ⟨_ | _, c'⟩ <;> rfl

theorem discard_eq_bind {α : Type} (x : Compile α) : (discard x : Compile Unit) = x >>= fun _ => pure () := by
  funext c
  rw [discard_apply, bind_apply]
  rfl

theorem expression_apply {s : Text} {c : Compilation} {tokens : List Token}
    (h : (s.analyse c.options).result = .ok tokens) :
    expression s c =
      ((lowerOn c.symbols c.options.limits.instructions tokens [] { c.emitter with nextRegister := 1 }).1,
        { c.note (s.analyse c.options) with
          emitter := (lowerOn c.symbols c.options.limits.instructions tokens []
            { c.emitter with nextRegister := 1 }).2 }) := by
  rw [expression_of_ok h]
  rfl

theorem declare_apply (name : Text) (c : Compilation) :
    declare name c =
      match c.symbols.declare name with
      | .ok symbols => (.ok (), { c with symbols })
      | .error e => (.error e, c) := by
  show (do let symbols ← c.symbols.declare name
           modify fun c => { c with symbols } : Compile Unit) c = _
  rcases c.symbols.declare name with _ | _ <;> rfl

theorem statement_apply (s : Text) (c : Compilation) :
    statement s c =
      match Statement.parse c.options.limits s with
      | .error e => (.error e, c)
      | .ok .empty => (.ok (), c)
      | .ok (.expression e) => (discard (expression e) : Compile Unit) c
      | .ok (.declaration name e) => (declare name >>= fun _ => expression e >>= store name) c := by
  have hget : (get : Compile Compilation) c = (.ok c, c) := rfl
  have hlift : (liftM (Statement.parse c.options.limits s) : Compile Statement) c =
      (Statement.parse c.options.limits s, c) := rfl
  rw [statement, bind_apply, hget]
  dsimp only
  rw [bind_apply, hlift]
  rcases Statement.parse c.options.limits s with _ | (_ | _ | _) <;> rfl

end Compile

/-- The number of instructions that there is room for. -/
def Compilation.room (c : Compilation) : Nat := c.emitter.room c.options.limits.instructions

/-- An expression ends as its plan does, as far as there is room. -/
theorem Compile.fst_expression {s : Text} {c : Compilation} {tokens : List Token}
    (h : (s.analyse c.options).result = .ok tokens) :
    (expression s c).1 = (plan c.symbols 1 tokens []).outcome c.options.limits.instructions c.room := by
  rw [expression_apply h, (lowerOn_spec _ _ _ _ _).1]
  rfl

theorem Compile.fst_expression_eq_ok {s : Text} {c : Compilation} {o : Operand} :
    (expression s c).1 = .ok o ↔ ∃ tokens, (s.analyse c.options).result = .ok tokens ∧
      (plan c.symbols 1 tokens []).code.length ≤ c.room ∧ (plan c.symbols 1 tokens []).result = .ok o := by
  rcases ha : (s.analyse c.options).result with e | tokens
  · rw [expression_of_error ha]
    simp
  · rw [fst_expression ha, Plan.outcome]
    by_cases hfit : (plan c.symbols 1 tokens []).code.length ≤ c.room
    · simp [hfit]
    · simp [hfit]

/-- An expression leaves the table as it is, and notes only the characters that its analysis skipped. -/
theorem Compile.expression_keeps (s : Text) (c : Compilation) :
    (expression s c).2.symbols = c.symbols ∧
      (expression s c).2.diagnostics.toList =
        c.diagnostics.toList ++ (s.analyse c.options).skipped.map c.unknownCharacter := by
  rcases ha : (s.analyse c.options).result with err | tokens
  · rw [expression_of_error ha]
    exact ⟨rfl, by simp [Compilation.note]⟩
  · rw [expression_apply ha]
    exact ⟨rfl, by simp [Compilation.note]⟩

/-- How a state comes out of carrying out an effect as far as there is room. -/
structure CarriedOut (c : Compilation) (f : Effect) (x : Except Error Unit × Compilation) : Prop where
  result : x.1 = (f.outcome c.options.limits.instructions c.room).map fun _ => ()
  options : x.2.options = c.options
  current : x.2.current = c.current
  symbols : x.2.symbols = f.table c.options.limits.instructions c.room
  code : x.2.code.toList = c.code.toList ++ f.code.take c.room
  diagnostics : x.2.diagnostics.toList = c.diagnostics.toList ++ f.skipped.map c.unknownCharacter

namespace CarriedOut

private theorem of_nil {c c' : Compilation} {f : Effect} {r : Except Error Unit} (hcode : f.code = [])
    (hresult : r = f.result.map fun _ => ()) (hoptions : c'.options = c.options) (hcurrent : c'.current = c.current)
    (hsymbols : c'.symbols = match f.result with | .ok t => t | .error _ => f.declared)
    (hemitter : c'.code = c.code)
    (hdiagnostics : c'.diagnostics.toList = c.diagnostics.toList ++ f.skipped.map c.unknownCharacter) :
    CarriedOut c f (r, c') := by
  have hout : ∀ limit room, f.outcome limit room = f.result := by
    intro limit room
    rw [Effect.outcome, hcode]
    exact if_pos (Nat.zero_le _)
  refine ⟨?_, hoptions, hcurrent, ?_, ?_, hdiagnostics⟩
  · rw [hout, hresult]
  · rw [hsymbols, Effect.table, hout]
  · rw [hcode, hemitter, List.take_nil, List.append_nil]

/-- Code in front of a statement that has room for it. -/
theorem append {c c' : Compilation} {f : Effect} {code : List Instruction} {skipped : List Char}
    {x : Except Error Unit × Compilation} (h : CarriedOut c' f x) (hf : f.skipped = [])
    (hoptions : c'.options = c.options) (hcurrent : c'.current = c.current)
    (hfit : code.length ≤ c.room) (hcode : c'.code.toList = c.code.toList ++ code)
    (hdiagnostics : c'.diagnostics.toList = c.diagnostics.toList ++ skipped.map c.unknownCharacter) :
    CarriedOut c { f with skipped, code := code ++ f.code } x := by
  have hroom : c'.room = c.room - code.length := by
    have hs := congrArg List.length hcode
    simp only [List.length_append, Array.length_toList, Compilation.code] at hs
    simp only [Compilation.room, Emitter.room, hoptions, hs]
    omega
  have hout : ({ f with skipped, code := code ++ f.code } : Effect).outcome c.options.limits.instructions c.room =
      f.outcome c'.options.limits.instructions c'.room := by
    simp only [Effect.outcome, List.length_append, hoptions, hroom]
    congr 1
    exact propext ⟨fun _ => by omega, fun _ => by omega⟩
  refine ⟨?_, h.options.trans hoptions, h.current.trans hcurrent, ?_, ?_, ?_⟩
  · rw [hout]; exact h.result
  · rw [Effect.table, hout]; exact h.symbols
  · rw [h.code, hcode, hroom, List.take_append, List.take_of_length_le hfit, List.append_assoc]
  · rw [h.diagnostics, hf, hdiagnostics, List.map_nil, List.append_nil]

private theorem of_cut {c c' : Compilation} {f : Effect} {code more : List Instruction} (hf : f.code = code ++ more)
    (hcut : c.room < code.length) (hoptions : c'.options = c.options) (hcurrent : c'.current = c.current)
    (hsymbols : c'.symbols = f.declared) (hcode : c'.code.toList = c.code.toList ++ code.take c.room)
    (hdiagnostics : c'.diagnostics.toList = c.diagnostics.toList ++ f.skipped.map c.unknownCharacter) :
    CarriedOut c f (.error (.tooMany .instructions c.options.limits.instructions), c') := by
  have hout : f.outcome c.options.limits.instructions c.room =
      .error (.tooMany .instructions c.options.limits.instructions) := by
    rw [Effect.outcome, hf, List.length_append]
    exact if_neg (by omega)
  refine ⟨?_, hoptions, hcurrent, ?_, ?_, hdiagnostics⟩
  · rw [hout]; rfl
  · rw [Effect.table, hout]; exact hsymbols
  · rw [hcode, hf, List.take_append_of_le_length (Nat.le_of_lt hcut)]

theorem expression {c : Compilation} {use : Operand → List Instruction × Except Error SymbolTable}
    {k : Operand → Compile Unit} (s : Text)
    (hk : ∀ o c', c'.symbols = c.symbols →
      CarriedOut c' { declared := c.symbols, code := (use o).1, result := (use o).2 } (k o c')) :
    CarriedOut c (.ofExpression c.options c.symbols s use) ((Compile.expression s >>= k) c) := by
  have hnote : (c.note (s.analyse c.options)).diagnostics.toList =
      c.diagnostics.toList ++ (s.analyse c.options).skipped.map c.unknownCharacter := by
    simp [Compilation.note]
  rw [Compile.bind_apply, Effect.ofExpression]
  rcases ha : (s.analyse c.options).result with err | tokens
  · rw [Compile.expression_of_error ha]
    exact of_nil rfl rfl rfl rfl rfl rfl hnote
  · rw [Compile.expression_apply ha]
    obtain ⟨hresult, hcode⟩ := lowerOn_spec c.symbols c.options.limits.instructions tokens []
      { c.emitter with nextRegister := 1 }
    have hroom : ({ c.emitter with nextRegister := 1 } : Emitter).room c.options.limits.instructions = c.room := rfl
    rw [hroom] at hresult hcode
    generalize lowerOn c.symbols c.options.limits.instructions tokens [] { c.emitter with nextRegister := 1 } = x
      at hresult hcode ⊢
    obtain ⟨r, e⟩ := x
    simp only at hresult hcode ⊢
    generalize plan c.symbols 1 tokens [] = p at hresult hcode ⊢
    subst hresult
    by_cases hfit : p.code.length ≤ c.room
    · rw [List.take_of_length_le hfit] at hcode
      rw [Plan.outcome, if_pos hfit]
      rcases hp : p.result with err | o
      · -- All code was written, and the expression is not well formed.
        have h : CarriedOut { c.note (s.analyse c.options) with emitter := e }
            { declared := c.symbols, result := .error err }
            (.error err, { c.note (s.analyse c.options) with emitter := e }) :=
          of_nil rfl rfl rfl rfl rfl rfl (by simp)
        have h' : CarriedOut c { declared := c.symbols, skipped := _, code := p.code ++ [], result := .error err } _ :=
          h.append rfl rfl rfl hfit hcode hnote
        rw [List.append_nil] at h'
        exact h'
      · have h := hk o { c.note (s.analyse c.options) with emitter := e } rfl
        exact h.append rfl rfl rfl hfit hcode hnote
    · have hcut : c.room < p.code.length := Nat.lt_of_not_le hfit
      rw [Plan.outcome, if_neg hfit]
      rcases hp : p.result with err | o
      · exact of_cut (List.append_nil _).symm hcut rfl rfl rfl hcode hnote
      · exact of_cut rfl hcut rfl rfl rfl hcode hnote

theorem store {c : Compilation} {name : Text} {v : Variable} (h : c.symbols.find? name = some v) (o : Operand) :
    CarriedOut c { declared := c.symbols, code := (Effect.storing c.symbols name o).1,
                   result := (Effect.storing c.symbols name o).2 } (Compile.store name o c) := by
  rw [Compile.store_apply h, Emitter.emitAll_apply]
  simp only [Effect.storing, h]
  have hroom : c.emitter.room c.options.limits.instructions = c.room := rfl
  rw [hroom]
  by_cases hfit : (o.storeCode name v.offset).length ≤ c.room
  · rw [if_pos hfit]
    refine ⟨?_, rfl, rfl, ?_, ?_, ?_⟩
    · simp [Effect.outcome, hfit, Except.map]
    · simp [Effect.table, Effect.outcome, hfit]
    · simp [Compilation.code]
    · simp
  · rw [if_neg hfit]
    refine of_cut (List.append_nil _).symm (Nat.lt_of_not_le hfit) rfl rfl rfl ?_ ?_
    · simp [Compilation.code]
    · simp

/-- A statement has its effect, as far as there is room. -/
theorem statement (c : Compilation) (s : Text) :
    CarriedOut c (.ofStatement c.options c.symbols s) (Compile.statement s c) := by
  rw [Compile.statement_apply, Effect.ofStatement]
  rcases Statement.parse c.options.limits s with err | (⟨name, e⟩ | e | _)
  · exact of_nil rfl rfl rfl rfl rfl rfl (by simp)
  · dsimp only
    rw [Compile.bind_apply, Compile.declare_apply]
    rcases hd : c.symbols.declare name with err | symbols
    · exact of_nil rfl rfl rfl rfl rfl rfl (by simp)
    · obtain ⟨v, hv⟩ := SymbolTable.exists_find?_of_declare hd
      have h : CarriedOut { c with symbols } (.ofExpression c.options symbols e (Effect.storing symbols name))
          ((Compile.expression e >>= Compile.store name) { c with symbols }) :=
        expression e fun o c' hc' => by
          have hv' : c'.symbols.find? name = some v := by rw [hc']; exact hv
          have hstore := store hv' o
          rw [hc'] at hstore
          exact hstore
      exact ⟨h.result, h.options, h.current, h.symbols, h.code, h.diagnostics⟩
  · dsimp only
    rw [Compile.discard_eq_bind]
    exact expression e fun o c' hc' => of_nil rfl rfl rfl rfl hc' rfl (by simp)
  · exact of_nil rfl rfl rfl rfl rfl rfl (by simp)

end CarriedOut

/-! ### Processing a statement -/

namespace Compilation

def effect (c : Compilation) (s : Text) : Effect := .ofStatement c.options c.symbols s

private theorem process_spec (c : Compilation) (s : Text) :
    (c.process s).options = c.options ∧ (c.process s).current = none ∧
      (c.process s).symbols = (c.effect s).table c.options.limits.instructions c.room ∧
      (c.process s).code.toList = c.code.toList ++ (c.effect s).code.take c.room ∧
      (c.process s).diagnostics.toList = c.diagnostics.toList ++
        ((c.effect s).errors c.options.limits.instructions c.room).map fun e =>
          { error := e, statement := some s.trim } := by
  have h := CarriedOut.statement (c.enter s.trim) s
  rw [process]
  generalize Compile.statement s (c.enter s.trim) = x at h
  obtain ⟨r, c'⟩ := x
  have hresult : r = ((c.effect s).outcome c.options.limits.instructions c.room).map fun _ => () := h.result
  have hdiagnostics : c'.diagnostics.toList = c.diagnostics.toList ++
      (c.effect s).skipped.map fun ch => { error := .unknownCharacter ch, statement := some s.trim } := h.diagnostics
  have hcurrent : c'.current = some s.trim := h.current
  subst hresult
  rcases hout : (c.effect s).outcome c.options.limits.instructions c.room with err | t
  · refine ⟨h.options, rfl, h.symbols, h.code, ?_⟩
    simp [leave, report, Effect.errors, hout, hdiagnostics, hcurrent, Except.map]
  · refine ⟨h.options, rfl, h.symbols, h.code, ?_⟩
    simp [leave, Effect.errors, hout, hdiagnostics, Except.map]

/-- A statement ends as its effect does, as far as there is room. -/
theorem fst_statement (c : Compilation) (s : Text) :
    (Compile.statement s (c.enter s.trim)).1 =
      ((c.effect s).outcome c.options.limits.instructions c.room).map fun _ => () :=
  (CarriedOut.statement (c.enter s.trim) s).result

@[simp] theorem options_process (c : Compilation) (s : Text) : (c.process s).options = c.options :=
  (c.process_spec s).1

@[simp] theorem current_process (c : Compilation) (s : Text) : (c.process s).current = none :=
  (c.process_spec s).2.1

theorem symbols_process (c : Compilation) (s : Text) :
    (c.process s).symbols = (c.effect s).table c.options.limits.instructions c.room :=
  (c.process_spec s).2.2.1

theorem code_process (c : Compilation) (s : Text) :
    (c.process s).code.toList = c.code.toList ++ (c.effect s).code.take c.room :=
  (c.process_spec s).2.2.2.1

theorem diagnostics_process (c : Compilation) (s : Text) :
    (c.process s).diagnostics.toList = c.diagnostics.toList ++
      ((c.effect s).errors c.options.limits.instructions c.room).map fun e =>
        { error := e, statement := some s.trim } :=
  (c.process_spec s).2.2.2.2

end Compilation

/-! ### Everything that a statement can do -/

/-- The tokens that a statement passes on to lowering, if it gets that far. -/
def Statement.lowered (options : Options) (symbols : SymbolTable) (s : Text) : Option (List Token) :=
  match Statement.parse options.limits s with
  | .ok (.expression e) => (e.analyse options).result.toOption
  | .ok (.declaration name e) =>
    match symbols.declare name with
    | .ok _ => (e.analyse options).result.toOption
    | .error _ => none
  | _ => none

namespace Effect

/-- The code and the result of an expression whose value is passed on: nothing, or its plan, or its plan and what
its value is used for. -/
private theorem ofExpression_cases (options : Options) (symbols : SymbolTable) (s : Text)
    (use : Operand → List Instruction × Except Error SymbolTable) :
    (ofExpression options symbols s use).declared = symbols ∧
      ((∃ e, (ofExpression options symbols s use).code = [] ∧
          (ofExpression options symbols s use).result = .error e) ∨
        ∃ tokens, (s.analyse options).result.toOption = some tokens ∧
          ((∃ e, (ofExpression options symbols s use).code = (plan symbols 1 tokens []).code ∧
              (ofExpression options symbols s use).result = .error e) ∨
            ∃ o, (plan symbols 1 tokens []).result = .ok o ∧
              (ofExpression options symbols s use).code = (plan symbols 1 tokens []).code ++ (use o).1 ∧
              (ofExpression options symbols s use).result = (use o).2)) := by
  rw [ofExpression]
  rcases (s.analyse options).result with err | tokens
  · exact ⟨rfl, .inl ⟨err, rfl, rfl⟩⟩
  · rcases hp : (plan symbols 1 tokens []).result with err | o
    · refine ⟨?_, .inr ⟨tokens, rfl, .inl ⟨err, ?_, ?_⟩⟩⟩ <;> simp only [hp]
    · refine ⟨?_, .inr ⟨tokens, rfl, .inr ⟨o, hp, ?_, ?_⟩⟩⟩ <;> simp only [hp]

/-- A statement keeps the table or declares a variable in it.  Then it writes nothing, or the code of its
expression, or that and the code that stores the value in the variable; only the last one assigns. -/
theorem cases (options : Options) (symbols : SymbolTable) (s : Text) (f : Effect)
    (hf : f = ofStatement options symbols s) :
    (f.declared = symbols ∨ ∃ name, symbols.declare name = .ok f.declared) ∧
      ((f.code = [] ∧ ∀ t, f.result = .ok t → t = f.declared) ∨
        ∃ tokens, Statement.lowered options symbols s = some tokens ∧
          ((f.code = (plan f.declared 1 tokens []).code ∧ ∀ t, f.result = .ok t → t = f.declared) ∨
            ∃ o name v, (plan f.declared 1 tokens []).result = .ok o ∧ f.declared.find? name = some v ∧
              f.code = (plan f.declared 1 tokens []).code ++ o.storeCode name v.offset ∧
              f.result = .ok (f.declared.assign name o.value))) := by
  subst hf
  rw [ofStatement, Statement.lowered]
  rcases Statement.parse options.limits s with err | (⟨name, e⟩ | e | _)
  · exact ⟨.inl rfl, .inl ⟨rfl, fun t h => by cases h⟩⟩
  · dsimp only
    rcases hd : symbols.declare name with err | declared
    · exact ⟨.inl rfl, .inl ⟨rfl, fun t h => by cases h⟩⟩
    · dsimp only
      obtain ⟨v, hv⟩ := SymbolTable.exists_find?_of_declare hd
      obtain ⟨hdecl, h⟩ := ofExpression_cases options declared e (storing declared name)
      simp only [storing, hv] at hdecl h ⊢
      rw [hdecl]
      refine ⟨.inr ⟨name, hd⟩, ?_⟩
      rcases h with ⟨err, hcode, hres⟩ | ⟨tokens, ht, ⟨err, hcode, hres⟩ | ⟨o, hp, hcode, hres⟩⟩
      · exact .inl ⟨hcode, fun t h => by rw [hres] at h; cases h⟩
      · exact .inr ⟨tokens, ht, .inl ⟨hcode, fun t h => by rw [hres] at h; cases h⟩⟩
      · exact .inr ⟨tokens, ht, .inr ⟨o, name, v, hp, hv, hcode, hres⟩⟩
  · dsimp only
    obtain ⟨hdecl, h⟩ := ofExpression_cases options symbols e fun _ => ([], .ok symbols)
    rw [hdecl]
    refine ⟨.inl rfl, ?_⟩
    rcases h with ⟨err, hcode, hres⟩ | ⟨tokens, ht, ⟨err, hcode, hres⟩ | ⟨o, hp, hcode, hres⟩⟩
    · exact .inl ⟨hcode, fun t h => by rw [hres] at h; cases h⟩
    · exact .inr ⟨tokens, ht, .inl ⟨hcode, fun t h => by rw [hres] at h; cases h⟩⟩
    · rw [List.append_nil] at hcode
      exact .inr ⟨tokens, ht, .inl ⟨hcode, fun t h => by rw [hres] at h; cases h; rfl⟩⟩
  · exact ⟨.inl rfl, .inl ⟨rfl, fun t h => by cases h; rfl⟩⟩

/-- A statement declares nothing unless it is a declaration. -/
theorem declared_ofStatement (options : Options) (symbols : SymbolTable) (s : Text) (f : Effect)
    (hf : f = ofStatement options symbols s) :
    f.declared = symbols ∨
      ∃ x e, Statement.parse options.limits s = .ok (.declaration x e) ∧ symbols.declare x = .ok f.declared := by
  rw [ofStatement] at hf
  rcases hparse : Statement.parse options.limits s with err | (⟨x, e⟩ | e | _)
  · rw [hparse] at hf
    exact .inl (hf ▸ rfl)
  · rw [hparse] at hf
    dsimp only at hf
    rcases hd : symbols.declare x with err | u
    · rw [hd] at hf
      exact .inl (hf ▸ rfl)
    · rw [hd] at hf
      rw [hf, (ofExpression_cases options u e (storing u x)).1]
      exact .inr ⟨x, e, rfl, hd⟩
  · rw [hparse] at hf
    rw [hf, (ofExpression_cases options symbols e _).1]
    exact .inl rfl
  · rw [hparse] at hf
    exact .inl (hf ▸ rfl)

theorem outcome_eq_ok {limit room : Nat} {f : Effect} {t : SymbolTable} :
    f.outcome limit room = .ok t ↔ f.code.length ≤ room ∧ f.result = .ok t := by
  rw [outcome]
  by_cases hfit : f.code.length ≤ room
  · simp [hfit]
  · simp [hfit]

theorem outcome_eq_error {limit room : Nat} {f : Effect} {e : Error} :
    f.outcome limit room = .error e ↔
      (f.code.length ≤ room ∧ f.result = .error e) ∨ (room < f.code.length ∧ e = .tooMany .instructions limit) := by
  rw [outcome]
  by_cases hfit : f.code.length ≤ room
  · simp [hfit, Nat.not_lt.2 hfit]
  · simp [hfit, Nat.lt_of_not_le hfit, eq_comm]

/-- The errors of a statement are the unknown characters and the error that ended it. -/
theorem mem_errors {limit room : Nat} {f : Effect} {e : Error} :
    e ∈ f.errors limit room ↔ (∃ ch ∈ f.skipped, .unknownCharacter ch = e) ∨ f.outcome limit room = .error e := by
  rw [errors, List.mem_append, List.mem_map]
  rcases f.outcome limit room with err | t
  · simp [eq_comm]
  · simp

private theorem ofExpression_eq_ok {options : Options} {symbols t : SymbolTable} {s : Text}
    {use : Operand → List Instruction × Except Error SymbolTable}
    (h : (ofExpression options symbols s use).result = .ok t) :
    ∃ tokens o, (s.analyse options).result = .ok tokens ∧ (plan symbols 1 tokens []).result = .ok o ∧
      (use o).2 = .ok t ∧ (ofExpression options symbols s use).code = (plan symbols 1 tokens []).code ++ (use o).1 := by
  obtain ⟨-, ⟨e, -, hres⟩ | ⟨tokens, ht, ⟨e, -, hres⟩ | ⟨o, hp, hcode, hres⟩⟩⟩ :=
    ofExpression_cases options symbols s use
  · rw [hres] at h
    cases h
  · rw [hres] at h
    cases h
  · rcases ha : (s.analyse options).result with e | tokens'
    · rw [ha] at ht
      cases ht
    · rw [ha] at ht
      cases ht
      exact ⟨tokens, o, rfl, hp, hres ▸ h, hcode⟩

/-- The ways in which a statement ends well. -/
theorem ofStatement_eq_ok {options : Options} {symbols t : SymbolTable} {s : Text} (f : Effect)
    (hf : f = ofStatement options symbols s) (h : f.result = .ok t) :
    (Statement.parse options.limits s = .ok .empty ∧ f.code = [] ∧ t = symbols) ∨
      (∃ e tokens o, Statement.parse options.limits s = .ok (.expression e) ∧
        (e.analyse options).result = .ok tokens ∧ (plan symbols 1 tokens []).result = .ok o ∧
        f.code = (plan symbols 1 tokens []).code ∧ t = symbols) ∨
      ∃ x e tokens o v, Statement.parse options.limits s = .ok (.declaration x e) ∧
        symbols.declare x = .ok f.declared ∧ (e.analyse options).result = .ok tokens ∧
        (plan f.declared 1 tokens []).result = .ok o ∧ f.declared.find? x = some v ∧
        f.code = (plan f.declared 1 tokens []).code ++ o.storeCode x v.offset ∧ t = f.declared.assign x o.value := by
  rw [ofStatement] at hf
  rcases hparse : Statement.parse options.limits s with err | (⟨x, e⟩ | e | _)
  · rw [hparse] at hf
    subst hf
    cases h
  · rw [hparse] at hf
    dsimp only at hf
    rcases hd : symbols.declare x with err | u
    · rw [hd] at hf
      subst hf
      cases h
    · rw [hd] at hf
      subst hf
      obtain ⟨v, hv⟩ := SymbolTable.exists_find?_of_declare hd
      obtain ⟨tokens, o, ha, hp, huse, hcode⟩ := ofExpression_eq_ok h
      have hdecl := (ofExpression_cases options u e (storing u x)).1
      rw [storing, hv] at huse
      simp only [storing, hv] at hcode hdecl ⊢
      rw [hdecl]
      exact .inr (.inr ⟨x, e, tokens, o, v, rfl, hd, ha, hp, hv, hcode, (Except.ok.inj huse).symm⟩)
  · rw [hparse] at hf
    subst hf
    obtain ⟨tokens, o, ha, hp, huse, hcode⟩ := ofExpression_eq_ok h
    rw [List.append_nil] at hcode
    exact .inr (.inl ⟨e, tokens, o, rfl, ha, hp, hcode, (Except.ok.inj huse).symm⟩)
  · rw [hparse] at hf
    subst hf
    exact .inl ⟨rfl, rfl, (Except.ok.inj h).symm⟩

/-- The table that a statement leaves is the one with its declaration, unless all its code was written and it
assigned a value. -/
theorem table_cases (limit room : Nat) (f : Effect) :
    f.table limit room = f.declared ∨ (f.code.length ≤ room ∧ f.result = .ok (f.table limit room)) := by
  by_cases hfit : f.code.length ≤ room
  · rcases hr : f.result with err | t
    · left; simp [table, outcome, hfit, hr]
    · right; simp [table, outcome, hfit, hr]
  · left; simp [table, outcome, hfit]

/-- However much of a statement is carried out, it declares, or it declares and assigns. -/
theorem table_ofStatement (options : Options) (symbols : SymbolTable) (s : Text) (limit room : Nat) (f : Effect)
    (hf : f = ofStatement options symbols s) :
    f.table limit room = f.declared ∨ ∃ name value, f.table limit room = f.declared.assign name value := by
  obtain ⟨-, h⟩ := cases options symbols s f hf
  rcases f.table_cases limit room with ht | ⟨-, ht⟩
  · exact .inl ht
  · rcases h with ⟨-, hr⟩ | ⟨tokens, -, ⟨-, hr⟩ | ⟨o, name, v, -, -, -, hr⟩⟩
    · exact .inl (hr _ ht)
    · exact .inl (hr _ ht)
    · rw [hr] at ht
      exact .inr ⟨name, o.value, (Except.ok.inj ht).symm⟩

end Effect

namespace Compilation

private theorem symbols_process_cases (c : Compilation) (s : Text) :
    ((c.process s).symbols = (c.effect s).declared ∨
        ∃ name value, (c.process s).symbols = (c.effect s).declared.assign name value) ∧
      ((c.effect s).declared = c.symbols ∨ ∃ name, c.symbols.declare name = .ok (c.effect s).declared) := by
  rw [symbols_process]
  exact ⟨Effect.table_ofStatement c.options c.symbols s _ _ _ rfl, (Effect.cases c.options c.symbols s _ rfl).1⟩

theorem wellFormed_declared {c : Compilation} (h : c.symbols.WellFormed) (s : Text) :
    (c.effect s).declared.WellFormed := by
  obtain ⟨-, hd | ⟨name, hd⟩⟩ := c.symbols_process_cases s
  · rw [hd]; exact h
  · exact h.declare hd

theorem wellFormed_process {c : Compilation} (h : c.symbols.WellFormed) (s : Text) :
    (c.process s).symbols.WellFormed := by
  have hwf := wellFormed_declared h s
  obtain ⟨hs | ⟨name, value, hs⟩, -⟩ := c.symbols_process_cases s
  · rw [hs]; exact hwf
  · rw [hs]; exact hwf.assign name value

/-- A statement takes the room of its code, or all that there is. -/
theorem room_process (c : Compilation) (s : Text) : (c.process s).room = c.room - (c.effect s).code.length := by
  have hsize := congrArg List.length (code_process c s)
  rw [List.length_append, List.length_take, Array.length_toList, Array.length_toList] at hsize
  simp only [room, Emitter.room, options_process, code] at hsize ⊢
  omega

/-- A statement that ends well and whose code fits notes nothing, and takes the room of its code. -/
theorem process_of_fits {c : Compilation} {s : Text} {t : SymbolTable} (hskipped : (c.effect s).skipped = [])
    (hresult : (c.effect s).result = .ok t) (hfit : (c.effect s).code.length ≤ c.room) :
    (c.process s).symbols = t ∧ (c.process s).diagnostics = c.diagnostics ∧
      (c.process s).room = c.room - (c.effect s).code.length := by
  have hout : (c.effect s).outcome c.options.limits.instructions c.room = .ok t := by
    rw [Effect.outcome, if_pos hfit, hresult]
  refine ⟨?_, ?_, ?_⟩
  · rw [symbols_process, Effect.table, hout]
  · have h := diagnostics_process c s
    rw [Effect.errors, hout, hskipped] at h
    simpa using h
  · exact c.room_process s

theorem size_declared_le_process (c : Compilation) (s : Text) :
    c.symbols.size ≤ (c.effect s).declared.size ∧ (c.effect s).declared.size = (c.process s).symbols.size := by
  obtain ⟨hs, hd⟩ := c.symbols_process_cases s
  refine ⟨?_, ?_⟩
  · rcases hd with hd | ⟨name, hd⟩
    · exact Nat.le_of_eq (by rw [hd])
    · exact SymbolTable.size_le_of_declare hd
  · rcases hs with hs | ⟨name, value, hs⟩
    · rw [hs]
    · rw [hs, SymbolTable.size_assign]

/-! ### Runs -/

@[simp] theorem processAll_nil (c : Compilation) : c.processAll [] = c := rfl

@[simp] theorem processAll_cons (c : Compilation) (s : Text) (rest : List Text) :
    c.processAll (s :: rest) = (c.process s).processAll rest := rfl

theorem processAll_append (c : Compilation) (statements rest : List Text) :
    c.processAll (statements ++ rest) = (c.processAll statements).processAll rest := List.foldl_append

@[simp] theorem options_processAll (c : Compilation) (statements : List Text) :
    (c.processAll statements).options = c.options := by
  induction statements generalizing c with
  | nil => rfl
  | cons s rest ih => rw [processAll_cons, ih, options_process]

theorem wellFormed_processAll {c : Compilation} (h : c.symbols.WellFormed) (statements : List Text) :
    (c.processAll statements).symbols.WellFormed := by
  induction statements generalizing c with
  | nil => exact h
  | cons s rest ih => exact ih (wellFormed_process h s)

private theorem size_le_processAll (c : Compilation) (statements : List Text) :
    c.symbols.size ≤ (c.processAll statements).symbols.size := by
  induction statements generalizing c with
  | nil => exact Nat.le_refl _
  | cons s rest ih =>
    obtain ⟨h1, h2⟩ := c.size_declared_le_process s
    exact Nat.le_trans (h2 ▸ h1) (ih (c.process s))

/-- The token lists that statements pass on to lowering when they are compiled one after the other. -/
def lowered (c : Compilation) : List Text → List (List Token)
  | [] => []
  | s :: rest => (Statement.lowered c.options c.symbols s).toList ++ (c.process s).lowered rest

/-- What every statement keeps holds after a run.  A statement may count on the tables of the run being smaller than
`n` and on what is known of the tokens that it passes on. -/
theorem processAll_induction {P : Compilation → Prop} {Q : List Token → Prop} {n : Nat}
    (hstep : ∀ (c : Compilation) (s : Text), P c →
      (∀ tokens, Statement.lowered c.options c.symbols s = some tokens → Q tokens) →
      (c.process s).symbols.size < n → P (c.process s))
    {c : Compilation} {statements : List Text} (h : P c) (hQ : ∀ tokens ∈ c.lowered statements, Q tokens)
    (hsize : (c.processAll statements).symbols.size < n) : P (c.processAll statements) := by
  induction statements generalizing c with
  | nil => exact h
  | cons s rest ih =>
    rw [processAll_cons] at hsize ⊢
    have hle := (c.process s).size_le_processAll rest
    have hhead : ∀ tokens, Statement.lowered c.options c.symbols s = some tokens → Q tokens := by
      intro tokens ht
      exact hQ tokens (List.mem_append_left _ (by simp [ht]))
    have hrest : ∀ tokens ∈ (c.process s).lowered rest, Q tokens := by
      intro tokens ht
      exact hQ tokens (List.mem_append_right _ ht)
    exact ih (hstep c s h hhead (by omega)) hrest hsize

/-- The state in which the first statement of a program is compiled. -/
def opening (options : Options) (program : Text) : Compilation :=
  match program.checkSemicolons with
  | .ok _ => start options
  | .error e => (start options).report e

theorem ofProgram_eq (options : Options) (program : Text) :
    ofProgram options program = (opening options program).processAll program.normalizeSpace.statements := rfl

theorem options_opening (options : Options) (program : Text) : (opening options program).options = options := by
  unfold opening
  split <;> rfl

theorem options_ofProgram (options : Options) (program : Text) : (ofProgram options program).options = options := by
  rw [ofProgram_eq, options_processAll, options_opening]

theorem symbols_opening (options : Options) (program : Text) :
    (opening options program).symbols = { capacity := options.limits.symbols } := by
  unfold opening
  split <;> rfl

theorem wellFormed_ofProgram (options : Options) (program : Text) : (ofProgram options program).symbols.WellFormed := by
  rw [ofProgram_eq]
  apply wellFormed_processAll
  rw [symbols_opening]
  exact SymbolTable.wellFormed_empty _

theorem code_opening (options : Options) (program : Text) : (opening options program).code.toList = [] := by
  unfold opening
  split <;> rfl

/-- The token lists that the expressions of a program pass on to lowering. -/
def expressions (options : Options) (program : Text) : List (List Token) :=
  (opening options program).lowered program.normalizeSpace.statements

end Compilation

end ArithMips
