import ArithMips.Proofs.Contribution
import ArithMips.Proofs.Declarations
import ArithMips.Proofs.Frame

/-!
# What a failed statement leaves untouched

A statement is ended by the first error that is no unknown character (`Compilation.Fails`).  What it has changed by then
follows from the error:

* an error found before the expression is lowered leaves the code and the next register as they are
  (`Compilation.emitter_of_fails`);
* an error found before the variable is declared leaves the table as it is, too (`Compilation.symbols_of_fails`).  An
  identifier that is too long may be the name of the variable or stand in the expression, and it is the former if it is
  the name that the text declares (`Statement.target?`);
* only the errors of lowering and of a full code leave code behind (`Compilation.isLate_of_fails`), and it does not
  write the memory (`Effect.isStore_of_outcome_eq_error`).
-/

namespace ArithMips

open Mips (Instruction Machine)

/-! ### The two kinds of errors -/

namespace Error

/-- The errors that are found before any code of a statement is written. -/
def isEarly : Error → Bool
  | missingAssignment | invalidName _ | integerOutOfRange _ | unbalancedParenthesis | identifierTooLong _ _
  | tooMany .tokens _ | tooMany .symbols _ => true
  | _ => false

/-- The errors that may leave code of a statement behind. -/
def isLate : Error → Bool
  | undeclared _ | malformedExpression | tooMany .instructions _ => true
  | _ => false

theorem Raised.isLate {e : Error} (h : e.Raised .lowering) : e.isLate = true := by
  cases h <;> rfl

private theorem isEarly_eq_false_of_isLate {e : Error} (h : e.isLate = true) : e.isEarly = false := by
  unfold isLate at h
  split at h
  · rfl
  · rfl
  · rfl
  · cases h

end Error

/-! ### Code and registers -/

namespace Compile

/-- An expression that passes its analysis fails late, if it fails. -/
private theorem isLate_of_expression {s : Text} {c : Compilation} {tokens : List Token} {e : Error}
    (ha : (s.analyse c.options).result = .ok tokens) (h : (expression s c).1 = .error e) : e.isLate = true := by
  rw [fst_expression ha, Plan.outcome] at h
  split at h
  · exact (raised_of_plan (Text.isOperand_or_isOperator_of_analyse ha) h).isLate
  · cases h
    rfl

/-- Storing a value fails for want of room, or because the variable is gone. -/
private theorem isEarly_of_store {x : Text} {o : Operand} {c : Compilation} {e : Error}
    (h : (store x o c).1 = .error e) :
    e.isEarly = false := by
  rcases hv : c.symbols.find? x with _ | v
  · rw [store_of_find?_eq_none hv] at h
    cases h
    rfl
  · rw [store_apply hv, Emitter.emitAll_apply] at h
    split at h
    · cases h
    · next herr =>
      cases h
      split at herr
      · cases herr
      · cases herr
        rfl

/-- An early error in an expression, or in what is done with its value, leaves the code and the next register alone. -/
private theorem emitter_of_expression_bind {s : Text} {k : Operand → Compile Unit} {c : Compilation} {e : Error}
    (hk : ∀ o c', (k o c').1 = .error e → e.isEarly = false) (h : ((expression s >>= k) c).1 = .error e)
    (he : e.isEarly = true) : ((expression s >>= k) c).2.emitter = c.emitter := by
  rcases ha : (s.analyse c.options).result with err | tokens
  · rw [bind_apply, expression_of_error ha]
    rfl
  · -- The registers are reset from here on, and every error is a late one.
    have hlate : e.isEarly = false := by
      rw [bind_apply] at h
      rcases hx : expression s c with ⟨err | o, c'⟩
      · rw [hx] at h
        cases h
        exact Error.isEarly_eq_false_of_isLate (isLate_of_expression ha (by rw [hx]))
      · rw [hx] at h
        exact hk o c' h
    rw [hlate] at he
    cases he

private theorem emitter_of_statement {s : Text} {c : Compilation} {e : Error} (h : (statement s c).1 = .error e)
    (he : e.isEarly = true) : (statement s c).2.emitter = c.emitter := by
  rw [statement_apply] at h ⊢
  -- A text that cannot be read and the empty statement change nothing.
  rcases hp : Statement.parse c.options.limits s with err | (⟨x, t⟩ | t | _) <;> rw [hp] at h <;> dsimp only at h ⊢
  · rw [bind_apply, declare_apply] at h ⊢
    rcases hd : c.symbols.declare x with err | u
    · rfl
    · rw [hd] at h
      exact emitter_of_expression_bind (fun o c' hstore => isEarly_of_store hstore) h he
  · rw [discard_eq_bind] at h ⊢
    exact emitter_of_expression_bind (fun o c' hpure => by cases hpure) h he

end Compile

/-! ### Names that are too long -/

namespace Statement

/-- The name that a text declares if it has the form of a declaration, fit for a variable or not. -/
def target? (s : Text) : Option Text :=
  (afterKeyword? s.trim).bind fun rest =>
    if '=' ∈ rest then some ((rest.takeWhile (· ≠ '=')).takeWhile (!Text.isSpace ·)) else none

private theorem target?_of_parse {limits : Limits} {s x t : Text} (h : parse limits s = .ok (.declaration x t)) :
    target? s = some x ∧ x.length ≤ limits.identifierLength := by
  obtain ⟨rest, hrest, hparse⟩ := parse_eq_declaration h
  obtain ⟨target, value, rfl, htarget, hlength, hd⟩ := parseDeclaration_eq_ok hparse
  obtain ⟨rfl, -⟩ := Statement.declaration.inj hd
  have htake : (target ++ '=' :: value).takeWhile (· ≠ '=') = target :=
    (Text.takeWhile_append_of_head (Text.forall_ne_of_notMem htarget) (by simp)).1
  refine ⟨?_, hlength⟩
  rw [target?, hrest, Option.bind_some, if_pos (by simp), htake]

end Statement

private theorem Lexeme.length_lt_of_read {limits : Limits} {l : Lexeme} {x : Text} {limit : Nat}
    (h : l.read limits = .error (.identifierTooLong x limit)) : limits.identifierLength < x.length := by
  cases l with
  | space | operator | lparen | rparen | unknown => cases h
  | numeral negative digits =>
    rw [read] at h
    split at h <;> cases h
  | word y =>
    rw [read] at h
    split at h
    · next hlong =>
      cases h
      exact hlong
    · cases h

private theorem Text.length_lt_of_analyse {options : Options} {s x : Text} {limit : Nat}
    (h : (s.analyse options).result = .error (.identifierTooLong x limit)) :
    options.limits.identifierLength < x.length := by
  rw [analyse] at h
  dsimp only at h
  split at h
  · next hscan =>
    cases h
    obtain ⟨before, l, after, -, hoffends, -⟩ := @Scan.exists_offends options.limits [] s.lexemes _
      (fun b hb => by cases hb) (Nat.zero_le _) hscan
    rcases hoffends.breaks with hread | ⟨-, -, htokens⟩
    · exact Lexeme.length_lt_of_read hread
    · cases htokens
  · split at h
    · next hpolish =>
      cases h
      obtain ⟨-, -, heq⟩ := Polish.polish_eq_error_iff.1 hpolish
      cases heq
    · cases h

/-- A declaration whose variable is in the table is ended by an identifier only if that is too long. -/
private theorem Effect.length_lt_of_ofStatement {options : Options} {symbols u : SymbolTable} {s x y t : Text}
    {limit : Nat} (hparse : Statement.parse options.limits s = .ok (.declaration y t)) (hd : symbols.declare y = .ok u)
    (h : (ofStatement options symbols s).result = .error (.identifierTooLong x limit)) :
    options.limits.identifierLength < x.length := by
  have heffect : ofStatement options symbols s = ofExpression options u t (storing u y) := by
    simp only [ofStatement, hparse, hd]
  obtain ⟨v, hv⟩ := SymbolTable.exists_find?_of_declare hd
  rw [heffect, ofExpression] at h
  rcases ha : (t.analyse options).result with err | tokens
  · rw [ha] at h
    cases h
    exact Text.length_lt_of_analyse ha
  · simp only [ha] at h
    rcases hp : (plan u 1 tokens []).result with err | o
    · rw [hp] at h
      cases h
      cases raised_of_plan (Text.isOperand_or_isOperator_of_analyse ha) hp
    · rw [hp] at h
      simp [storing, hv] at h

/-! ### Statements that fail -/

namespace Compilation

/-- The error `e` ends the statement: it is noted for it, and it is no unknown character. -/
def Fails (c : Compilation) (s : Text) (e : Error) : Prop :=
  (∃ d ∈ (c.contribution s).diagnostics, d.error = e) ∧ ∀ ch, e ≠ .unknownCharacter ch

theorem Fails.outcome {c : Compilation} {s : Text} {e : Error} (h : c.Fails s e) :
    (c.effect s).outcome c.options.limits.instructions c.room = .error e := by
  obtain ⟨⟨d, hd, rfl⟩, hfatal⟩ := h
  rw [diagnostics_contribution] at hd
  obtain ⟨e, he, rfl⟩ := List.mem_map.1 hd
  rcases Effect.mem_errors.1 he with ⟨ch, -, hch⟩ | hout
  · exact absurd hch.symm (hfatal ch)
  · exact hout

private theorem emitter_process (c : Compilation) (s : Text) :
    (c.process s).emitter = (Compile.statement s (c.enter s.trim)).2.emitter := by
  rw [process]
  rcases Compile.statement s (c.enter s.trim) with ⟨e | _, d⟩ <;> rfl

/-- An early error leaves the code and the next register as they are. -/
theorem emitter_of_fails {c : Compilation} {s : Text} {e : Error} (h : c.Fails s e) (he : e.isEarly = true) :
    (c.process s).emitter = c.emitter := by
  have hends := c.fst_statement s
  rw [h.outcome] at hends
  rw [emitter_process, Compile.emitter_of_statement hends he]
  rfl

/-- The errors of a text that cannot declare a variable, or of a table that has no room for it. -/
inductive Undeclaring (s : Text) : Error → Prop where
  | missingAssignment : Undeclaring s .missingAssignment
  | invalidName (x : Text) : Undeclaring s (.invalidName x)
  | tooManySymbols (limit : Nat) : Undeclaring s (.tooMany .symbols limit)
  | nameTooLong {x : Text} (limit : Nat) (h : Statement.target? s = some x) : Undeclaring s (.identifierTooLong x limit)

/-- A statement that fails leaves the table with its declaration. -/
theorem Fails.symbols_process {c : Compilation} {s : Text} {e : Error} (h : c.Fails s e) :
    (c.process s).symbols = (c.effect s).declared := by
  rw [Compilation.symbols_process, Effect.table, h.outcome]

/-- An error that is found before the variable is declared leaves the table as it is. -/
theorem symbols_of_fails {c : Compilation} {s : Text} {e : Error} (h : c.Fails s e) (he : Undeclaring s e) :
    (c.process s).symbols = c.symbols := by
  rw [h.symbols_process]
  rcases Effect.outcome_eq_error.1 h.outcome with ⟨-, hresult⟩ | ⟨-, rfl⟩
  · obtain ⟨stage, hraised, hfails⟩ := Effect.raised_of_ofStatement rfl hresult
    cases he with
    | missingAssignment =>
      cases hraised
      exact (hfails.declared (.inl rfl)).1
    | invalidName x =>
      cases hraised
      exact (hfails.declared (.inl rfl)).1
    | tooManySymbols limit =>
      cases hraised
      exact (hfails.declared (.inr rfl)).1
    | nameTooLong limit htarget =>
      rcases Effect.declared_ofStatement c.options c.symbols s (c.effect s) rfl with hd | ⟨y, t, hparse, hd⟩
      · exact hd
      · -- The text was read as a declaration, so its name is short enough, and the error is about another one.
        obtain ⟨htarget', hlength⟩ := Statement.target?_of_parse hparse
        obtain rfl := Option.some.inj (htarget.symm.trans htarget')
        have hlong := Effect.length_lt_of_ofStatement hparse hd hresult
        omega
  · cases he

/-- An error behind which code is left is a late one. -/
theorem isLate_of_fails {c : Compilation} {s : Text} {e : Error} (h : c.Fails s e)
    (hcode : (c.process s).code ≠ c.code) : e.isLate = true := by
  have hne : (c.effect s).code ≠ [] := by
    intro hnil
    refine hcode (Array.toList_inj.1 ?_)
    rw [code_process, hnil, List.take_nil, List.append_nil]
  rcases Effect.outcome_eq_error.1 h.outcome with ⟨-, hresult⟩ | ⟨-, rfl⟩
  · obtain ⟨stage, hraised, hfails⟩ := Effect.raised_of_ofStatement rfl hresult
    have hstage : stage = .lowering := by
      by_contra hother
      exact hne (hfails.code hother)
    rw [hstage] at hraised
    exact hraised.isLate
  · rfl

/-- What a statement has changed when an error ends it.  An early error leaves the code and the next register; an error
about the declaration itself leaves the table, too; and only late errors leave code behind, which changes registers but
not the memory. -/
theorem process_of_fails {c : Compilation} {s : Text} {e : Error} (h : c.Fails s e) :
    (e.isEarly = true →
        (c.process s).code = c.code ∧ (c.process s).emitter.nextRegister = c.emitter.nextRegister) ∧
      (Undeclaring s e → (c.process s).symbols = c.symbols) ∧
      ((c.process s).code ≠ c.code → e.isLate = true) ∧
      ∃ added, (c.process s).code.toList = c.code.toList ++ added ∧
        ∀ i ∈ added, ∀ m : Machine, (m.step i).memory = m.memory := by
  refine ⟨fun he => ?_, symbols_of_fails h, isLate_of_fails h, ?_⟩
  · rw [code, emitter_of_fails h he]
    exact ⟨rfl, rfl⟩
  · exact ⟨_, code_process c s, fun i hi m => Machine.memory_step (Effect.isStore_of_outcome_eq_error h.outcome hi) m⟩

/-- A numeral that does not fit, a name that is too long, and a variable that is not declared behind a product. -/
theorem process_of_fails_thrice :
    let c := (start { limits := { identifierLength := 4 } }).processAll ["int a = 2 + 3".toList]
    let range := "int b = 1 $ + 9223372036854775808".toList
    let long := "int count = 1".toList
    let late := "int b = a * a - z".toList
    ((c.process range).code = c.code ∧ (c.process range).emitter.nextRegister = c.emitter.nextRegister) ∧
      (c.process long).symbols = c.symbols ∧
      (c.process late).code ≠ c.code ∧ ∃ added, (c.process late).code.toList = c.code.toList ++ added ∧
        ∀ i ∈ added, ∀ m : Machine, (m.step i).memory = m.memory := by
  intro c range long late
  have hrange : c.Fails range (.integerOutOfRange "9223372036854775808".toList) :=
    ⟨by decide +kernel, fun ch hch => by cases hch⟩
  have hlong : c.Fails long (.identifierTooLong "count".toList 4) := ⟨by decide +kernel, fun ch hch => by cases hch⟩
  have hlate : c.Fails late (.undeclared "z".toList) := ⟨by decide +kernel, fun ch hch => by cases hch⟩
  exact ⟨(process_of_fails hrange).1 rfl, (process_of_fails hlong).2.1 (.nameTooLong 4 (by decide +kernel)),
    by decide +kernel, (process_of_fails hlate).2.2.2⟩

end Compilation

end ArithMips
