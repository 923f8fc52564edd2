import ArithMips.Proofs.Process
import ArithMips.Proofs.Space

/-!
# Programs put together

Two programs with a semicolon between them have the statements of the first one and then those of the second one, though
space is made normal in the whole text before it is cut and each piece is trimmed of more than space.  A semicolon is
missing exactly if a statement stands behind the last one (`Text.checkSemicolons_of_isTail`).

So the second program can be compiled in the state that the first one leaves (`Compilation.ofProgram_append`).  Only the
complaint about a missing semicolon moves: it comes before all statements, and no statement looks at the diagnostics in
front of its own (`Compilation.Behind`).
-/

namespace ArithMips

namespace Text

/-- The text behind the last semicolon of a program, or all of it if there is no semicolon. -/
structure IsTail (program tail : Text) : Prop where
  semicolon_notMem : ';' ∉ tail
  eq : program = tail ∨ ∃ before, program = before ++ ';' :: tail

private theorem isTail_afterLastSemicolon (program : Text) : IsTail program program.afterLastSemicolon := by
  induction program using semicolon_induction with
  | piece s hs =>
    rw [afterLastSemicolon_of_notMem hs]
    exact ⟨hs, .inl rfl⟩
  | append s program _ ih =>
    rw [afterLastSemicolon_append]
    refine ⟨ih.semicolon_notMem, .inr ?_⟩
    rcases ih.eq with heq | ⟨before, heq⟩
    · exact ⟨s, congrArg (s ++ ';' :: ·) heq⟩
    · refine ⟨s ++ ';' :: before, ?_⟩
      calc s ++ ';' :: program = s ++ ';' :: (before ++ ';' :: program.afterLastSemicolon) :=
            congrArg (s ++ ';' :: ·) heq
        _ = s ++ ';' :: before ++ ';' :: program.afterLastSemicolon := by simp

/-- A piece of a program is a statement unless it is white. -/
private theorem statements_normalizeSpace_eq_nil_iff {s : Text} (h : ';' ∉ s) :
    s.normalizeSpace.statements = [] ↔ s.trim = [] := by
  rw [statements_normalizeSpace_eq_map, List.map_eq_nil_iff, statements_of_notMem h]
  simp

/-- A semicolon is missing if a statement stands behind the last one, and only then. -/
theorem checkSemicolons_of_isTail {program tail : Text} (h : IsTail program tail) :
    program.checkSemicolons =
      if tail.normalizeSpace.statements = [] then .ok () else .error .missingSemicolon := by
  have htail : program.checkSemicolons = tail.checkSemicolons := by
    rcases h.eq with rfl | ⟨before, rfl⟩
    · rfl
    · exact checkSemicolons_append before tail
  rw [htail, checkSemicolons_of_notMem h.semicolon_notMem]
  simp only [statements_normalizeSpace_eq_nil_iff h.semicolon_notMem]

end Text

namespace Compilation

/-- The state `c` is the state `d` with the diagnostics `front` before its own. -/
structure Behind (front : List Diagnostic) (c d : Compilation) : Prop where
  options : c.options = d.options
  symbols : c.symbols = d.symbols
  code : c.code = d.code
  diagnostics : c.diagnostics.toList = front ++ d.diagnostics.toList

namespace Behind

variable {front : List Diagnostic} {c d : Compilation}

theorem process (h : Behind front c d) (s : Text) : Behind front (c.process s) (d.process s) := by
  have heffect : c.effect s = d.effect s := by rw [effect, effect, h.options, h.symbols]
  have hroom : c.room = d.room := by
    have hcode := h.code
    simp only [Compilation.code] at hcode
    rw [room, room, Emitter.room, Emitter.room, h.options, hcode]
  constructor
  · rw [options_process, options_process, h.options]
  · rw [symbols_process, symbols_process, heffect, hroom, h.options]
  · refine Array.toList_inj.1 ?_
    rw [code_process, code_process, heffect, hroom, h.code]
  · rw [diagnostics_process, diagnostics_process, heffect, hroom, h.options, h.diagnostics, List.append_assoc]

theorem processAll (h : Behind front c d) (statements : List Text) :
    Behind front (c.processAll statements) (d.processAll statements) := by
  induction statements generalizing c d with
  | nil => exact h
  | cons s rest ih => exact ih (h.process s)

end Behind

/-- The complaint about a missing semicolon, if there is cause for one. -/
def complaint (program : Text) : List Diagnostic :=
  match program.checkSemicolons with
  | .ok _ => []
  | .error e => [{ error := e, statement := none }]

private theorem behind_opening (options : Options) (program : Text) :
    Behind (complaint program) (opening options program) (start options) := by
  rw [complaint, opening]
  rcases program.checkSemicolons with e | _
  · exact ⟨rfl, rfl, rfl, rfl⟩
  · exact ⟨rfl, rfl, rfl, rfl⟩

/-- The statements of two programs with a semicolon between them are those of the first one and those of the second one;
a program lacks its last semicolon exactly if the text behind the last one holds a statement; and the code and the table
of two programs are what the second one makes of the state that the first one leaves.  The diagnostics are so too, but
for a complaint about the last semicolon. -/
theorem ofProgram_append (options : Options) (p q : Text) :
    (p ++ ';' :: q).normalizeSpace.statements = p.normalizeSpace.statements ++ q.normalizeSpace.statements ∧
      (p.IsTail p.afterLastSemicolon ∧ p.checkSemicolons =
        if p.afterLastSemicolon.normalizeSpace.statements = [] then .ok () else .error .missingSemicolon) ∧
      let whole := ofProgram options (p ++ ';' :: q)
      let parts := (ofProgram options (p ++ [';'])).processAll q.normalizeSpace.statements
      whole.code = parts.code ∧ whole.symbols = parts.symbols ∧
        whole.diagnostics.toList = complaint q ++ parts.diagnostics.toList := by
  have htail := p.isTail_afterLastSemicolon
  refine ⟨Text.statements_append p q, ⟨htail, Text.checkSemicolons_of_isTail htail⟩, ?_⟩
  -- The first program ends with its semicolon, so that its own run starts without a complaint.
  have hfirst : ofProgram options (p ++ [';']) = (start options).processAll p.normalizeSpace.statements := by
    have hcheck : (p ++ [';']).checkSemicolons = .ok () := Text.checkSemicolons_append p []
    have hnone : (Text.normalizeSpace []).statements = [] := rfl
    rw [ofProgram_eq, opening, hcheck, Text.statements_append, hnone, List.append_nil]
  have hcomplaint : complaint (p ++ ';' :: q) = complaint q := by
    rw [complaint, complaint, Text.checkSemicolons_append]
  have hbehind := (behind_opening options (p ++ ';' :: q)).processAll
    (p.normalizeSpace.statements ++ q.normalizeSpace.statements)
  rw [hcomplaint, ← Text.statements_append, ← ofProgram_eq, Text.statements_append, processAll_append, ← hfirst]
    at hbehind
  exact ⟨hbehind.code, hbehind.symbols, hbehind.diagnostics⟩

/-- A piece that is white but no space is no statement, and the last piece of the second program lacks its semicolon. -/
example :
    let p : Text := "int a = 2;\u2003 ".toList
    let q : Text := "\n\u00a0;a * a ; int\tb  = a".toList
    p.checkSemicolons = .ok () ∧ q.normalizeSpace.statements.map String.ofList = ["a * a", "int b = a"] ∧
      complaint (p ++ ';' :: q) = [{ error := .missingSemicolon, statement := none }] := by
  decide +kernel

end Compilation

end ArithMips
