import ArithMips.Proofs.Polish
import ArithMips.Proofs.Postorder
import ArithMips.Proofs.Process
import ArithMips.Proofs.Scan

/-!
# Where errors come from

A statement goes through four stages: it is read, its variable is declared, its expression is analysed, and the
expression is lowered.  Each stage raises errors of its own (`Error.Raised`), and what a statement that fails has done
so far follows from the stage (`Effect.raised_of_ofStatement`).

No stage raises an internal error (`Compilation.isInternal_ofProgram`).  Reordering leaves operands and operators
only, also where parentheses do not match, so lowering meets no other token; and compiling an expression keeps the
table, so the variable of a declaration is still there when its value is stored.
-/

namespace ArithMips

open Mips (Instruction Register)

/-- The stages of a statement. -/
inductive Stage where
  | reading
  | declaring
  | analysing
  | lowering
  deriving DecidableEq, Repr

/-- The errors of a stage. -/
inductive Error.Raised : Stage → Error → Prop where
  | missingAssignment : Raised .reading .missingAssignment
  | invalidName (x : Text) : Raised .reading (.invalidName x)
  | nameTooLong (x : Text) (limit : Nat) : Raised .reading (.identifierTooLong x limit)
  | tooManySymbols (limit : Nat) : Raised .declaring (.tooMany .symbols limit)
  | integerOutOfRange (numeral : Text) : Raised .analysing (.integerOutOfRange numeral)
  | identifierTooLong (x : Text) (limit : Nat) : Raised .analysing (.identifierTooLong x limit)
  | tooManyTokens (limit : Nat) : Raised .analysing (.tooMany .tokens limit)
  | unbalancedParenthesis : Raised .analysing .unbalancedParenthesis
  | undeclared (x : Text) : Raised .lowering (.undeclared x)
  | malformedExpression : Raised .lowering .malformedExpression

/-! ### The errors of each stage -/

private theorem Statement.raised_of_parse {limits : Limits} {s : Text} {e : Error} (h : parse limits s = .error e) :
    e.Raised .reading := by
  rw [parse] at h
  split at h
  · cases h
  · split at h
    · rw [parseDeclaration] at h
      split at h
      · cases h
        exact .missingAssignment
      · dsimp only at h
        split at h
        · cases h
          exact .invalidName _
        · split at h
          · cases h
            exact .nameTooLong _ _
          · cases h
    · cases h

theorem SymbolTable.raised_of_declare {t : SymbolTable} {x : Text} {e : Error} (h : t.declare x = .error e) :
    e.Raised .declaring := by
  rw [declare] at h
  split at h
  · cases h
  · split at h
    · cases h
      exact .tooManySymbols _
    · cases h

private theorem Lexeme.raised_of_read {limits : Limits} {l : Lexeme} {e : Error} (h : l.read limits = .error e) :
    e.Raised .analysing := by
  cases l with
  | space | operator | lparen | rparen | unknown => cases h
  | numeral negative digits =>
    rw [read] at h
    split at h
    · cases h
    · cases h
      exact .integerOutOfRange _
  | word x =>
    rw [read] at h
    split at h
    · cases h
      exact .identifierTooLong _ _
    · cases h

private theorem Scan.raised_of_ofLexemes {limits : Limits} {count : Nat} {ls : List Lexeme} {e : Error}
    (h : (ofLexemes limits count ls).result = .error e) : e.Raised .analysing := by
  induction ls generalizing count with
  | nil => cases h
  | cons l rest ih =>
    rw [ofLexemes] at h
    split at h
    · exact ih h
    · exact ih h
    · next hl =>
      cases h
      exact Lexeme.raised_of_read hl
    · split at h
      · cases h
        exact .tooManyTokens _
      · dsimp only at h
        rcases hr : (ofLexemes limits (count + 1) rest).result with err | ts
        · rw [hr] at h
          cases h
          exact ih hr
        · rw [hr] at h
          cases h

private theorem Text.raised_of_analyse {options : Options} {s : Text} {e : Error}
    (h : (s.analyse options).result = .error e) :
    e.Raised .analysing := by
  rw [analyse] at h
  dsimp only at h
  split at h
  · next hscan =>
    cases h
    exact Scan.raised_of_ofLexemes hscan
  · split at h
    · next hpolish =>
      cases h
      obtain ⟨-, -, rfl⟩ := Polish.polish_eq_error_iff.1 hpolish
      exact .unbalancedParenthesis
    · cases h

/-- An expression that passes its analysis has operands and operators only. -/
theorem Text.isOperand_or_isOperator_of_analyse {options : Options} {s : Text} {tokens : List Token}
    (h : (s.analyse options).result = .ok tokens) : ∀ t ∈ tokens, t.isOperand = true ∨ t.isOperator = true := by
  obtain ⟨ts, -, hpolish⟩ := analyse_eq_ok h
  obtain ⟨-, rfl⟩ := Polish.polish_eq_ok_iff.1 hpolish
  intro t ht
  exact Polish.isOperand_or_isOperator_of_mem_ofTokens ht

theorem raised_of_plan {symbols : SymbolTable} {r : UInt32} {tokens : List Token} {stack : List Operand} {e : Error}
    (htokens : ∀ t ∈ tokens, t.isOperand = true ∨ t.isOperator = true)
    (h : (plan symbols r tokens stack).result = .error e) : e.Raised .lowering := by
  rcases plan_eq_error h with ⟨x, -, -, rfl⟩ | rfl | ⟨t, ht, hoperand, hoperator, -⟩
  · exact .undeclared x
  · exact .malformedExpression
  · have htoken := htokens t ht
    simp [hoperand, hoperator] at htoken

/-! ### The errors of a statement -/

namespace Effect

/-- What a statement has done when a stage fails: nothing before its expression is analysed, only its declaration
before the expression is lowered. -/
structure FailsAt (stage : Stage) (symbols : SymbolTable) (f : Effect) : Prop where
  declared : stage = .reading ∨ stage = .declaring → f.declared = symbols ∧ f.skipped = []
  code : stage ≠ .lowering → f.code = []

/-- An expression whose use does not fail is rejected by its analysis or by lowering. -/
private theorem raised_of_ofExpression {options : Options} {symbols t : SymbolTable} {s : Text}
    {use : Operand → List Instruction × Except Error SymbolTable} (huse : ∀ o, ∃ u, (use o).2 = .ok u) {e : Error}
    {f : Effect} (hf : f = ofExpression options t s use) (h : f.result = .error e) :
    ∃ stage, e.Raised stage ∧ f.FailsAt stage symbols := by
  rw [ofExpression] at hf
  dsimp only at hf
  split at hf
  · next ha =>
    subst hf
    cases h
    exact ⟨.analysing, Text.raised_of_analyse ha, by simp, fun _ => rfl⟩
  · next tokens ha =>
    split at hf
    · next hp =>
      subst hf
      cases h
      exact ⟨.lowering, raised_of_plan (Text.isOperand_or_isOperator_of_analyse ha) hp, by simp, by simp⟩
    · next o hp =>
      subst hf
      obtain ⟨u, hu⟩ := huse o
      rw [hu] at h
      cases h

/-- A statement that fails does so at one of its stages. -/
theorem raised_of_ofStatement {options : Options} {symbols : SymbolTable} {s : Text} {e : Error} {f : Effect}
    (hf : f = ofStatement options symbols s) (h : f.result = .error e) :
    ∃ stage, e.Raised stage ∧ f.FailsAt stage symbols := by
  rw [ofStatement] at hf
  split at hf
  · next hparse =>
    subst hf
    cases h
    exact ⟨.reading, Statement.raised_of_parse hparse, fun _ => ⟨rfl, rfl⟩, fun _ => rfl⟩
  · subst hf
    cases h
  · exact raised_of_ofExpression (fun _ => ⟨symbols, rfl⟩) hf h
  · next x _ _ =>
    split at hf
    · next hd =>
      subst hf
      cases h
      exact ⟨.declaring, SymbolTable.raised_of_declare hd, fun _ => ⟨rfl, rfl⟩, fun _ => rfl⟩
    · next t hd =>
      -- The variable is in the table, so storing its value does not fail.
      obtain ⟨v, hv⟩ := SymbolTable.exists_find?_of_declare hd
      refine raised_of_ofExpression (fun o => ?_) hf h
      rw [storing, hv]
      exact ⟨_, rfl⟩

end Effect

/-! ### Internal errors -/

/-- Whether an error blames the compiler itself. -/
def Error.isInternal : Error → Bool
  | internal _ _ => true
  | _ => false

private theorem Error.Raised.isInternal_eq_false {stage : Stage} {e : Error} (h : e.Raised stage) :
    e.isInternal = false := by
  cases h <;> rfl

private theorem Statement.isOperand_or_isOperator_of_lowered {options : Options} {symbols : SymbolTable} {s : Text}
    {tokens : List Token} (h : lowered options symbols s = some tokens) :
    ∀ t ∈ tokens, t.isOperand = true ∨ t.isOperator = true := by
  have hanalyse : ∀ e : Text, (e.analyse options).result.toOption = some tokens →
      ∀ t ∈ tokens, t.isOperand = true ∨ t.isOperator = true := by
    intro e he
    rcases ha : (e.analyse options).result with err | ts
    · rw [ha] at he
      cases he
    · rw [ha] at he
      cases he
      exact Text.isOperand_or_isOperator_of_analyse ha
  rw [lowered] at h
  split at h
  · exact hanalyse _ h
  · split at h
    · exact hanalyse _ h
    · cases h
  · cases h

/-- A variable is found when the expression of its declaration has been compiled. -/
private theorem Compile.exists_find?_of_expression {c c' : Compilation} {x e : Text} {o : Operand}
    (h : (declare x >>= fun _ => expression e) c = (.ok o, c')) : ∃ v, c'.symbols.find? x = some v := by
  rw [bind_apply, declare_apply] at h
  rcases hd : c.symbols.declare x with err | t
  · rw [hd] at h
    cases h
  · rw [hd] at h
    obtain ⟨v, hv⟩ := SymbolTable.exists_find?_of_declare hd
    refine ⟨v, ?_⟩
    have hkeeps := (expression_keeps e { c with symbols := t }).1
    dsimp only at h
    rw [h] at hkeeps
    rw [hkeeps]
    exact hv

namespace Compilation

private theorem isInternal_of_mem_process {c : Compilation} {s : Text} {d : Diagnostic}
    (hd : d ∈ (c.process s).diagnostics.toList) : d ∈ c.diagnostics.toList ∨ d.error.isInternal = false := by
  rw [diagnostics_process] at hd
  rcases List.mem_append.1 hd with hd | hd
  · exact .inl hd
  · obtain ⟨e, he, rfl⟩ := List.mem_map.1 hd
    right
    rcases Effect.mem_errors.1 he with ⟨ch, -, rfl⟩ | hout
    · rfl
    · rcases Effect.outcome_eq_error.1 hout with ⟨-, hresult⟩ | ⟨-, rfl⟩
      · obtain ⟨stage, hraised, -⟩ := Effect.raised_of_ofStatement rfl hresult
        exact hraised.isInternal_eq_false
      · rfl

private theorem isInternal_of_mem_processAll {c : Compilation}
    (hc : ∀ d ∈ c.diagnostics.toList, d.error.isInternal = false)
    (statements : List Text) : ∀ d ∈ (c.processAll statements).diagnostics.toList, d.error.isInternal = false := by
  induction statements generalizing c with
  | nil => exact hc
  | cons s rest ih => exact ih fun d hd => (isInternal_of_mem_process hd).elim (hc d) id

private theorem isOperand_or_isOperator_of_mem_lowered {c : Compilation} {statements : List Text} {tokens : List Token}
    (h : tokens ∈ c.lowered statements) : ∀ t ∈ tokens, t.isOperand = true ∨ t.isOperator = true := by
  induction statements generalizing c with
  | nil => cases h
  | cons s rest ih =>
    rw [lowered] at h
    rcases List.mem_append.1 h with h | h
    · exact Statement.isOperand_or_isOperator_of_lowered (Option.mem_toList.1 h)
    · exact ih h

/-- No diagnostic of a program is an internal error: lowering is given operands and operators only, and the variable of
a declaration is found when its expression has been compiled. -/
theorem isInternal_ofProgram (options : Options) (program : Text) :
    (∀ d ∈ (ofProgram options program).diagnostics.toList, d.error.isInternal = false) ∧
      (∀ tokens ∈ expressions options program, ∀ t ∈ tokens, t.isOperand = true ∨ t.isOperator = true) ∧
      ∀ (c c' : Compilation) (x e : Text) (o : Operand),
        (Compile.declare x >>= fun _ => Compile.expression e) c = (.ok o, c') → ∃ v, c'.symbols.find? x = some v := by
  refine ⟨?_, fun tokens ht => isOperand_or_isOperator_of_mem_lowered ht,
    fun c c' x e o h => Compile.exists_find?_of_expression h⟩
  rw [ofProgram_eq]
  refine isInternal_of_mem_processAll (fun d hd => ?_) _
  rw [opening] at hd
  split at hd
  · cases hd
  · next err herr =>
    rw [Text.checkSemicolons] at herr
    split at herr
    · cases herr
    · cases herr
      rw [List.mem_singleton.1 hd]
      rfl

/-- A program with parentheses that do not match, and an expression that uses the variable that it is the value of. -/
theorem isInternal_ofProgram_unbalanced :
    let program := "int a = (2 + ; ) * a; 3 $ (4".toList
    ((ofProgram {} program).diagnostics.size = 5 ∧
        ∀ d ∈ (ofProgram {} program).diagnostics.toList, d.error.isInternal = false) ∧
      ∃ v, ((Compile.declare "b".toList >>= fun _ => Compile.expression "b + 1".toList)
        (ofProgram {} program)).2.symbols.find? "b".toList = some v := by
  intro program
  obtain ⟨hdiagnostics, -, hfound⟩ := isInternal_ofProgram {} program
  refine ⟨⟨by decide +kernel, hdiagnostics⟩, ?_⟩
  have hok : ((Compile.declare "b".toList >>= fun _ => Compile.expression "b + 1".toList) (ofProgram {} program)).1 =
      .ok { register := ⟨3⟩, value := 1 } := by
    decide +kernel
  exact hfound _ _ _ _ _ (Prod.ext hok rfl)

end Compilation

end ArithMips
