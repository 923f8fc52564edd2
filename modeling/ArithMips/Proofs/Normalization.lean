import ArithMips.Proofs.Process
import ArithMips.Proofs.Spelling

/-!
# Normal space is invisible

A program is compiled from its text with normal space.  Compiling the text as it stands would give the same code, the
same variables and the same errors, and only the texts of statements in the diagnostics would show their own space
(`Compilation.processAll_statements`).  Statements are the same up to their space by then, and two facts remain:

* squeezing a statement neither joins nor splits lexemes, nor does it move the end of a name or the `=` of a
  declaration (`Text.filter_lexemes_squeeze`, `Statement.parse_squeeze`);
* a statement is compiled without a look at the texts that diagnostics carry (`Compile.Indifferent`).
-/

namespace ArithMips

/-! ### Lexemes -/

def Lexeme.isSpace : Lexeme → Bool
  | space _ => true
  | _ => false

namespace Text

/-- A run of characters that are no space is not changed, and the rest of the text is squeezed. -/
private theorem takeWhile_squeeze {p : Char → Bool} (hp : ∀ c, isSpace c = true → p c = false) (s : Text) :
    (squeeze s).takeWhile p = s.takeWhile p ∧ (squeeze s).dropWhile p = squeeze (s.dropWhile p) := by
  induction s with
  | nil => exact ⟨rfl, rfl⟩
  | cons c s ih =>
    by_cases hspace : isSpace c = true
    · have hblank : p ' ' = false := hp ' ' (by decide)
      rw [List.takeWhile_cons_of_neg (by simp [hp c hspace]), List.dropWhile_cons_of_neg (by simp [hp c hspace]),
        squeeze_cons_of_isSpace hspace]
      rcases squeeze s with _ | ⟨d, t⟩
      · exact ⟨rfl, rfl⟩
      · by_cases hd : d = ' ' <;> simp [blank, hd, hblank]
    · rw [squeeze_cons_of_not_isSpace (by simpa using hspace)]
      by_cases hc : p c = true
      · simp [hc, ih.1, ih.2]
      · simp [hc, hspace]

private theorem takeWhile_append_gap {p : Char → Bool} (hp : ∀ c, isSpace c = true → p c = false) (s : Text)
    {gap : Text} (h : IsGap gap) : (s ++ gap).takeWhile p = s.takeWhile p := by
  induction s with
  | nil =>
    cases gap with
    | nil => rfl
    | cons c gap => exact List.takeWhile_cons_of_neg (by simp [hp c (h c List.mem_cons_self)])
  | cons c s ih => rw [List.cons_append, List.takeWhile_cons, List.takeWhile_cons, ih]

private theorem startsWithDigit_squeeze (s : Text) : startsWithDigit (squeeze s) = startsWithDigit s := by
  cases s with
  | nil => rfl
  | cons c s =>
    by_cases hspace : isSpace c = true
    · rw [squeeze_cons_of_isSpace hspace, startsWithDigit, not_isDigit_of_isSpace hspace]
      rcases squeeze s with _ | ⟨d, t⟩
      · rfl
      · by_cases hd : d = ' ' <;> simp [blank, hd, startsWithDigit]
    · rw [squeeze_cons_of_not_isSpace (by simpa using hspace)]
      rfl

/-- The lexemes of a squeezed text are those of the text, space apart. -/
theorem filter_lexemes_squeeze (s : Text) :
    (lexemes (squeeze s)).filter (!·.isSpace) = (lexemes s).filter (!·.isSpace) := by
  fun_induction lexemes s with
  | case1 => rw [squeeze, lexemes]
  | case2 c cs hc ih =>
    obtain ⟨htake, hdrop⟩ := takeWhile_squeeze (fun _ => not_isDigit_of_isSpace) cs
    have hspace := not_isSpace_of_isWordChar (isWordChar_of_isDigit hc)
    rw [squeeze_cons_of_not_isSpace hspace, lexemes, if_pos hc, htake, hdrop, List.filter_cons, List.filter_cons, ih]
  | case3 c cs hc hm ih =>
    obtain ⟨htake, hdrop⟩ := takeWhile_squeeze (fun _ => not_isDigit_of_isSpace) cs
    have hspace : isSpace c = false := by
      rw [hm.1]
      decide
    rw [squeeze_cons_of_not_isSpace hspace, lexemes, if_neg hc, if_pos ⟨hm.1, by rw [startsWithDigit_squeeze, hm.2]⟩,
      htake, hdrop, List.filter_cons, List.filter_cons, ih]
  | case4 c cs hc hm hw ih =>
    obtain ⟨htake, hdrop⟩ := takeWhile_squeeze (fun _ => not_isWordChar_of_isSpace) cs
    have hspace := not_isSpace_of_isWordChar (isWordChar_of_isWordStart hw)
    rw [squeeze_cons_of_not_isSpace hspace, lexemes, if_neg hc, if_neg (by rwa [startsWithDigit_squeeze]), if_pos hw,
      htake, hdrop, List.filter_cons, List.filter_cons, ih]
  | case5 c cs hc hm hw ih =>
    by_cases hspace : isSpace c = true
    · have hblank : ∀ t : Text, (lexemes (blank t)).filter (!·.isSpace) = (lexemes t).filter (!·.isSpace) := by
        intro t
        rcases t with _ | ⟨d, t⟩
        · rfl
        · by_cases hd : d = ' '
          · rw [hd]
            rfl
          · rw [blank_cons_of_ne hd, lexemes_cons_of_isSpace (by decide)]
            rfl
      rw [squeeze_cons_of_isSpace hspace, hblank, ih, Lexeme.ofChar, if_pos hspace]
      rfl
    · rw [squeeze_cons_of_not_isSpace (by simpa using hspace), lexemes, if_neg hc,
        if_neg (by rwa [startsWithDigit_squeeze]), if_neg hw, List.filter_cons, List.filter_cons, ih]

end Text

private theorem Scan.ofLexemes_filter (limits : Limits) (count : Nat) (ls : List Lexeme) :
    ofLexemes limits count (ls.filter (!·.isSpace)) = ofLexemes limits count ls := by
  induction ls generalizing count with
  | nil => rfl
  | cons l rest ih =>
    cases l with
    | space c => exact ih count
    | numeral | word | operator | lparen | rparen | unknown =>
      rw [List.filter_cons_of_pos rfl]
      simp only [ofLexemes, ih]

private theorem Text.scan_squeeze (limits : Limits) (s : Text) : s.squeeze.scan limits = s.scan limits := by
  rw [scan, ← Scan.ofLexemes_filter, filter_lexemes_squeeze, Scan.ofLexemes_filter, scan]

private theorem Text.analyse_squeeze (options : Options) (s : Text) :
    s.squeeze.analyse options = s.analyse options := by
  rw [analyse, scan_squeeze, analyse]

/-! ### Statements -/

namespace Statement

/-- The same statement with another text of its expression. -/
def mapExpression (f : Text → Text) : Statement → Statement
  | .declaration name e => .declaration name (f e)
  | .expression e => .expression (f e)
  | .empty => .empty

/-- A declaration is cut at the same places. -/
private theorem parseDeclaration_squeeze (limits : Limits) (s : Text) :
    parseDeclaration limits s.squeeze = (parseDeclaration limits s).map (mapExpression Text.squeeze) := by
  by_cases hs : '=' ∈ s
  · obtain ⟨target, value, rfl, htarget⟩ := List.eq_append_cons_of_mem hs
    obtain ⟨gap, hgap, hsqueeze⟩ := Text.squeeze_append_cons target (c := '=') (by decide) value
    have hgap' := Text.isGap_of_eq hgap
    have htarget' : '=' ∉ Text.squeeze target ++ gap := by
      rw [List.mem_append, not_or]
      exact ⟨fun h => htarget (Text.mem_squeeze (by decide) h), fun h => by cases hgap' _ h⟩
    have hspace : ∀ c, Text.isSpace c = true → (!Text.isSpace c) = false := by simp
    rw [hsqueeze, parseDeclaration_append_cons htarget', parseDeclaration_append_cons htarget, Text.trim_squeeze,
      Text.takeWhile_append_gap hspace _ hgap', (Text.takeWhile_squeeze hspace target).1]
    -- Both read the same name, and so they fail alike or go on alike.
    split
    · rfl
    · split <;> rfl
  · rw [parseDeclaration_of_notMem hs, parseDeclaration_of_notMem fun h => hs (Text.mem_squeeze (by decide) h)]
    rfl

/-- Space behind the keyword stays, unless it ends the text. -/
private theorem afterKeyword?_keyword_squeeze {rest : Text} (hlast : ∀ c ∈ rest.getLast?, Text.isWhite c = false) :
    afterKeyword? ('i' :: 'n' :: 't' :: rest.squeeze) =
      (afterKeyword? ('i' :: 'n' :: 't' :: rest)).map Text.squeeze := by
  cases rest with
  | nil => rfl
  | cons c rest =>
    by_cases hc : Text.isSpace c = true
    · obtain ⟨t, ht⟩ := Text.exists_squeeze_eq_blank_cons hc hlast
      have hrest : afterKeyword? ('i' :: 'n' :: 't' :: c :: rest) = some (Text.trimStart (c :: rest)) := if_pos hc
      rw [hrest, Option.map_some, ← Text.trimStart_squeeze, ht]
      rfl
    · have hnone : ∀ t : Text, afterKeyword? ('i' :: 'n' :: 't' :: c :: t) = none := fun t => if_neg hc
      rw [Text.squeeze_cons_of_not_isSpace (by simpa using hc), hnone, hnone]
      rfl

theorem afterKeyword?_eq_none {s : Text} (h : ¬∃ rest, s = 'i' :: 'n' :: 't' :: rest) : afterKeyword? s = none := by
  unfold afterKeyword?
  split
  · exact absurd ⟨_, rfl⟩ h
  · rfl

private theorem afterKeyword?_squeeze {s : Text} (hlast : ∀ c ∈ s.getLast?, Text.isWhite c = false) :
    afterKeyword? s.squeeze = (afterKeyword? s).map Text.squeeze := by
  by_cases hs : ∃ rest, s = 'i' :: 'n' :: 't' :: rest
  · obtain ⟨rest, rfl⟩ := hs
    refine afterKeyword?_keyword_squeeze fun c hc => hlast c ?_
    cases rest with
    | nil => cases hc
    | cons d rest => simpa using hc
  · rw [afterKeyword?_eq_none hs, afterKeyword?_eq_none]
    · rfl
    · rintro ⟨rest, hrest⟩
      obtain ⟨s₁, rfl, h₁⟩ := Text.exists_of_squeeze_eq_cons hrest (by decide)
      obtain ⟨s₂, rfl, h₂⟩ := Text.exists_of_squeeze_eq_cons h₁ (by decide)
      obtain ⟨s₃, rfl, -⟩ := Text.exists_of_squeeze_eq_cons h₂ (by decide)
      exact hs ⟨s₃, rfl⟩

theorem parse_squeeze (limits : Limits) (s : Text) :
    parse limits s.squeeze = (parse limits s).map (mapExpression Text.squeeze) := by
  simp only [parse, Text.trim_squeeze]
  by_cases hs : s.trim = []
  · rw [hs]
    rfl
  · rw [if_neg hs, if_neg (Text.squeeze_trim_ne_nil hs), afterKeyword?_squeeze Text.not_isWhite_getLast_trim]
    rcases afterKeyword? s.trim with _ | rest
    · rfl
    · exact parseDeclaration_squeeze limits rest

private theorem parse_normalizeSpace (limits : Limits) (s : Text) :
    parse limits s.normalizeSpace = parse limits s.squeeze := by
  simp only [parse, Text.trim_normalizeSpace, Text.trim_squeeze, Text.squeeze_trim]

end Statement

/-! ### Compiling a statement -/

namespace Compile

private theorem expression_squeeze (s : Text) : expression s.squeeze = expression s := by
  unfold expression
  simp only [Text.analyse_squeeze]

private theorem statement_normalizeSpace (s : Text) : statement s.normalizeSpace = statement s := by
  funext c
  rw [statement_apply, statement_apply, Statement.parse_normalizeSpace, Statement.parse_squeeze]
  rcases Statement.parse c.options.limits s with err | (⟨name, e⟩ | e | _)
  · rfl
  · simp only [Except.map, Statement.mapExpression, expression_squeeze]
  · simp only [Except.map, Statement.mapExpression, expression_squeeze]
  · rfl

end Compile

/-- The same diagnostic with another text of its statement. -/
def Diagnostic.mapStatement (f : Text → Text) (d : Diagnostic) : Diagnostic :=
  { d with statement := d.statement.map f }

/-- The same state with other texts of statements. -/
def Compilation.mapStatements (f : Text → Text) (c : Compilation) : Compilation :=
  { c with diagnostics := c.diagnostics.map (Diagnostic.mapStatement f), current := c.current.map f }

/-- A computation that does not look at the texts of statements. -/
def Compile.Indifferent {α : Type} (x : Compile α) : Prop :=
  ∀ (f : Text → Text) (c : Compilation), x (c.mapStatements f) = ((x c).1, (x c).2.mapStatements f)

namespace Compile.Indifferent

theorem bind {α β : Type} {x : Compile α} {g : α → Compile β} (hx : x.Indifferent) (hg : ∀ a, (g a).Indifferent) :
    (x >>= g).Indifferent := by
  intro f c
  rw [bind_apply, bind_apply, hx f c]
  rcases x c with ⟨e | a, c'⟩
  · rfl
  · exact hg a f c'

/-- What is read off the state is not the text of a statement. -/
private theorem get_bind {α : Type} {g : Compilation → Compile α} (hg : ∀ c, (g c).Indifferent)
    (hsame : ∀ f c, g (c.mapStatements f) = g c) : (get >>= g).Indifferent := by
  intro f c
  have hget : ∀ d, (get >>= g) d = g d d := fun _ => rfl
  rw [hget, hget, hsame, hg c f c]

theorem liftM {α : Type} (r : Except Error α) : (liftM r : Compile α).Indifferent := by
  intro f c
  cases r <;> rfl

theorem onEmitter {α : Type} (x : Emit α) : (Compile.onEmitter x).Indifferent := fun _ _ => rfl

theorem note (a : Analysis) : (modify (Compilation.note a) : Compile PUnit).Indifferent := by
  intro f c
  have hdiagnostics : ((c.mapStatements f).note a).diagnostics = ((c.note a).mapStatements f).diagnostics := by
    refine Array.toList_inj.1 ?_
    simp only [Compilation.note, Compilation.mapStatements, Array.toList_appendList, Array.toList_map, List.map_append,
      List.map_map]
    rfl
  have hnote : (c.mapStatements f).note a = (c.note a).mapStatements f :=
    (Compilation.mk.injEq ..).mpr ⟨rfl, rfl, rfl, hdiagnostics, rfl, rfl⟩
  exact congrArg (Prod.mk (Except.ok PUnit.unit)) hnote

theorem discard {α : Type} {x : Compile α} (hx : x.Indifferent) : (discard x : Compile Unit).Indifferent := by
  intro f c
  rw [discard_apply, discard_apply, hx f c]
  rcases x c with ⟨e | a, c'⟩ <;> rfl

theorem expression (s : Text) : (Compile.expression s).Indifferent := by
  refine get_bind (fun c => ?_) fun _ _ => rfl
  refine (note _).bind fun _ => (liftM _).bind fun tokens => (onEmitter _).bind fun _ => ?_
  exact get_bind (fun c => onEmitter _) fun _ _ => rfl

theorem emit (i : Mips.Instruction) : (Compile.emit i).Indifferent := get_bind (fun _ => onEmitter _) fun _ _ => rfl

theorem store (name : Text) (o : Operand) : (Compile.store name o).Indifferent := by
  refine get_bind (fun c => ?_) fun _ _ => rfl
  split
  · exact fun _ _ => rfl
  · have hassign (v : Variable) : (do
        Compile.emit (.sd .result name v.offset)
        Compile.assign name o.value : Compile Unit).Indifferent :=
      (emit _).bind fun _ _ _ => rfl
    dsimp only
    split
    · exact (emit _).bind fun _ => hassign _
    · exact hassign _

theorem declare (name : Text) : (Compile.declare name).Indifferent :=
  get_bind (fun _ => (liftM _).bind fun _ _ _ => rfl) fun _ _ => rfl

theorem statement (s : Text) : (Compile.statement s).Indifferent := by
  refine get_bind (fun c => (liftM _).bind fun statement => ?_) fun _ _ => rfl
  cases statement with
  | declaration name e => exact (declare name).bind fun _ => (expression e).bind fun o => store name o
  | expression e => exact (expression e).discard
  | empty => exact fun _ _ => rfl

end Compile.Indifferent

/-! ### Runs -/

namespace Compilation

private theorem process_mapStatements (c : Compilation) (s : Text) :
    (c.mapStatements Text.normalizeSpace).process s.normalizeSpace =
      (c.process s).mapStatements Text.normalizeSpace := by
  have henter : (c.mapStatements Text.normalizeSpace).enter s.normalizeSpace.trim =
      (c.enter s.trim).mapStatements Text.normalizeSpace := by
    rw [Text.trim_normalizeSpace]
    rfl
  rw [process, process, henter, Compile.statement_normalizeSpace, Compile.Indifferent.statement s]
  rcases Compile.statement s (c.enter s.trim) with ⟨e | _, d⟩
  · simp [report, leave, mapStatements, Diagnostic.mapStatement]
  · rfl

private theorem processAll_mapStatements (c : Compilation) (statements : List Text) :
    (c.mapStatements Text.normalizeSpace).processAll (statements.map Text.normalizeSpace) =
      (c.processAll statements).mapStatements Text.normalizeSpace := by
  induction statements generalizing c with
  | nil => rfl
  | cons s rest ih => rw [List.map_cons, processAll_cons, processAll_cons, process_mapStatements, ih]

/-- From a state without diagnostics, the statements of a program and those of its normal text are compiled alike, but
for the texts of statements. -/
theorem processAll_statements (options : Options) (program : Text) :
    (start options).processAll program.normalizeSpace.statements =
      ((start options).processAll program.statements).mapStatements Text.normalizeSpace := by
  have hstart : start options = (start options).mapStatements Text.normalizeSpace := by simp [start, mapStatements]
  rw [Text.statements_normalizeSpace_eq_map, hstart, processAll_mapStatements, ← hstart]

private theorem current_processAll {c : Compilation} (h : c.current = none) (statements : List Text) :
    (c.processAll statements).current = none := by
  induction statements generalizing c with
  | nil => exact h
  | cons s rest ih => exact ih (c.current_process s)

/-- The statements of a program as they stand and those of its normal text lead to states that differ in their
diagnostics only, and there only in the texts of statements, which are the normal texts in the second one.  And a
program and its normal text give the very same state. -/
theorem ofProgram_normalizeSpace (options : Options) (program : Text) :
    let raw := (start options).processAll program.statements
    let normal := (start options).processAll program.normalizeSpace.statements
    normal = { raw with diagnostics := normal.diagnostics } ∧
      normal.diagnostics.map Diagnostic.error = raw.diagnostics.map Diagnostic.error ∧
      normal.diagnostics.map Diagnostic.statement = raw.diagnostics.map (·.statement.map Text.normalizeSpace) ∧
      normal.diagnostics.map (·.statement.map Text.normalizeSpace) =
        raw.diagnostics.map (·.statement.map Text.normalizeSpace) ∧
      ofProgram options program.normalizeSpace = ofProgram options program := by
  intro raw normal
  have hnormal : normal = raw.mapStatements Text.normalizeSpace := processAll_statements options program
  have hcurrent : raw.current = none := current_processAll rfl _
  have hdiagnostics : normal.diagnostics = raw.diagnostics.map (Diagnostic.mapStatement Text.normalizeSpace) := by
    rw [hnormal]
    rfl
  refine ⟨?_, ?_, ?_, ?_, ?_⟩
  · have hsame : raw.current.map Text.normalizeSpace = raw.current := by rw [hcurrent, Option.map_none]
    rw [hnormal]
    exact (Compilation.mk.injEq ..).mpr ⟨rfl, rfl, rfl, rfl, rfl, hsame⟩
  · rw [hdiagnostics, Array.map_map]
    rfl
  · rw [hdiagnostics, Array.map_map]
    rfl
  · -- The normal text of a normal text is the text itself.
    rw [hdiagnostics, Array.map_map]
    congr 1
    funext d
    simp [Diagnostic.mapStatement, Function.comp_def, Text.normalizeSpace_normalizeSpace]
  · rw [ofProgram_eq, ofProgram_eq, opening, Text.checkSemicolons_normalizeSpace, Text.normalizeSpace_normalizeSpace]
    rfl

/-- Space of every kind inside the statements, at their ends and before the last semicolon. -/
example :
    let program : Text := "\tint\na  = 1 -\r 2 ;\x0b;b\t\t#\n1\u2003 \n;".toList
    let raw := (start {}).processAll program.statements
    let normal := (start {}).processAll program.normalizeSpace.statements
    raw.diagnostics.toList.map (fun d => (d.error, d.statement.map String.ofList)) =
        [(Error.unknownCharacter '#', some "b\t\t#\n1"), (Error.undeclared ['b'], some "b\t\t#\n1")] ∧
      normal.diagnostics.toList.map (fun d => (d.error, d.statement.map String.ofList)) =
        [(Error.unknownCharacter '#', some "b # 1"), (Error.undeclared ['b'], some "b # 1")] := by
  decide +kernel

end Compilation

end ArithMips
