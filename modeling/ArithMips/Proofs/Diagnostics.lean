import ArithMips.Proofs.Causes
import ArithMips.Proofs.Spelling

/-!
# The diagnostics of a program

The diagnostics of a program are one block for each of its statements, in order, behind a possible complaint about a
missing semicolon (`Compilation.diagnostics_ofProgram`).  A block starts with the unknown characters of the
statement's expression, as far as it was scanned, and ends with the error that ended the statement, if there was one.

* Unknown characters are lexemes of their own, so those that a scan skips are those of the text before the place where
  it ends (`Text.meets_skipped`).
* The error that ends a statement is never an unknown character (`Effect.endsStatement_of_ofStatement`), so the two
  parts of a block cannot be confused.
-/

namespace ArithMips

open Mips (Instruction Register)

/-! ### Unknown characters -/

namespace Text

/-- The characters that have a place in an expression. -/
def isKnown (c : Char) : Bool :=
  isSpace c || c.isAlpha || c.isDigit || c == '_' || ['+', '-', '*', '/', '(', ')'].contains c

/-- The unknown characters of a text, in order. -/
def unknown (s : Text) : List Char := s.filter fun c => !isKnown c

private theorem unknown_eq_nil {s : Text} (h : ∀ c ∈ s, isKnown c = true) : s.unknown = [] :=
  List.filter_eq_nil_iff.2 fun c hc => by simp [h c hc]

theorem isKnown_of_isDigit {c : Char} (h : c.isDigit = true) : isKnown c = true := by simp [isKnown, h]

theorem isKnown_of_isWordChar {c : Char} (h : isWordChar c = true) : isKnown c = true := by
  simp only [isWordChar, Char.isAlphanum, Bool.or_eq_true] at h
  rcases h with (h | h) | h <;> simp [isKnown, h]

end Text

namespace Lexeme

/-- The character that a scan skips for a lexeme, if it skips it. -/
def skips : Lexeme → List Char
  | unknown c => [c]
  | _ => []

private theorem skips_eq (l : Lexeme) (limits : Limits) :
    l.skips = match l.read limits with
      | .skipped c => [c]
      | _ => [] := by
  cases l with
  | space | operator | lparen | rparen | unknown => rfl
  | numeral negative digits =>
    rw [read]
    rcases int64? (numeralValue negative digits) with _ | value <;> rfl
  | word x =>
    rw [read]
    by_cases hx : limits.identifierLength < x.length
    · rw [if_pos hx]
      rfl
    · rw [if_neg hx]
      rfl

private theorem unknown_text_ofChar {c : Char} (hdigit : c.isDigit = false) (hstart : Text.isWordStart c = false) :
    (ofChar c).text.unknown = (ofChar c).skips := by
  simp only [Text.isWordStart, Bool.or_eq_false_iff] at hstart
  by_cases hspace : Text.isSpace c = true
  · simp [ofChar, hspace, text, skips, Text.unknown, Text.isKnown]
  by_cases hc : c ∈ ['+', '-', '*', '/', '(', ')']
  · simp only [List.mem_cons, List.not_mem_nil, or_false] at hc
    rcases hc with rfl | rfl | rfl | rfl | rfl | rfl <;> decide
  · simp only [List.mem_cons, List.not_mem_nil, or_false, not_or] at hc
    have hunknown : ofChar c = unknown c := by simp [ofChar, hspace, hc]
    rw [hunknown]
    simp [text, skips, Text.unknown, Text.isKnown, hspace, hstart, hdigit, hc]

end Lexeme

namespace Text

/-- Only a lexeme of its own is an unknown character. -/
private theorem unknown_text_of_mem_lexemes {s : Text} {l : Lexeme} (h : l ∈ s.lexemes) : l.text.unknown = l.skips := by
  fun_induction lexemes s with
  | case1 => cases h
  | case2 c cs hc ih =>
    rcases List.mem_cons.1 h with rfl | h
    · refine unknown_eq_nil fun d hd => isKnown_of_isDigit ?_
      rcases List.mem_cons.1 hd with rfl | hd
      · exact hc
      · exact List.mem_takeWhile_imp hd
    · exact ih h
  | case3 c cs hc hm ih =>
    rcases List.mem_cons.1 h with rfl | h
    · refine unknown_eq_nil fun d hd => ?_
      rcases List.mem_cons.1 hd with rfl | hd
      · decide
      · exact isKnown_of_isDigit (List.mem_takeWhile_imp hd)
    · exact ih h
  | case4 c cs hc hm hw ih =>
    rcases List.mem_cons.1 h with rfl | h
    · refine unknown_eq_nil fun d hd => isKnown_of_isWordChar ?_
      rcases List.mem_cons.1 hd with rfl | hd
      · exact isWordChar_of_isWordStart hw
      · exact List.mem_takeWhile_imp hd
    · exact ih h
  | case5 c cs hc hm hw ih =>
    rcases List.mem_cons.1 h with rfl | h
    · exact Lexeme.unknown_text_ofChar (by simpa using hc) (by simpa using hw)
    · exact ih h

/-- The unknown characters of a piece of text that is cut into lexemes. -/
private theorem unknown_flatMap_text {s : Text} {ls : List Lexeme} (h : ∀ l ∈ ls, l ∈ s.lexemes) :
    unknown (ls.flatMap Lexeme.text) = ls.flatMap Lexeme.skips := by
  rw [unknown, List.filter_flatMap]
  exact List.flatMap_congr fun l hl => unknown_text_of_mem_lexemes (h l hl)

end Text

/-! ### Where a scan ends -/

namespace Lexeme

def isToken (limits : Limits) (l : Lexeme) : Bool :=
  match l.read limits with
  | .token _ => true
  | _ => false

/-- How a lexeme ends a scan that has `count` tokens so far: it breaks a rule of its own, or it is a token too many. -/
def Breaks (limits : Limits) (count : Nat) (l : Lexeme) (e : Error) : Prop :=
  l.read limits = .error e ∨ l.isToken limits = true ∧ limits.tokens ≤ count ∧ e = .tooMany .tokens limits.tokens

/-- Whether a scan that has `count` tokens so far goes on behind a lexeme. -/
def Passes (limits : Limits) (count : Nat) (l : Lexeme) : Prop :=
  (∀ e, l.read limits ≠ .error e) ∧ (l.isToken limits = true → count < limits.tokens)

/-- The first lexeme of a text that ends its scan, behind the lexemes `before`. -/
structure Offends (limits : Limits) (before : List Lexeme) (l : Lexeme) (e : Error) : Prop where
  readable : ∀ b ∈ before, ∀ e', b.read limits ≠ .error e'
  fits : before.countP (isToken limits) ≤ limits.tokens
  breaks : l.Breaks limits (before.countP (isToken limits)) e

private theorem breaks_or_passes (limits : Limits) (count : Nat) (l : Lexeme) :
    (∃ e, l.Breaks limits count e) ∨ l.Passes limits count := by
  rcases hl : l.read limits with _ | c | t | e
  · exact .inr ⟨by simp [hl], by simp [isToken, hl]⟩
  · exact .inr ⟨by simp [hl], by simp [isToken, hl]⟩
  · by_cases hfull : limits.tokens ≤ count
    · exact .inl ⟨_, .inr ⟨by simp [isToken, hl], hfull, rfl⟩⟩
    · exact .inr ⟨by simp [hl], fun _ => Nat.lt_of_not_le hfull⟩
  · exact .inl ⟨e, .inl hl⟩

end Lexeme

namespace Scan

private theorem ofLexemes_of_breaks {limits : Limits} {count : Nat} {l : Lexeme} {e : Error}
    (h : l.Breaks limits count e)
    (rest : List Lexeme) : ofLexemes limits count (l :: rest) = { skipped := [], result := .error e } := by
  rcases h with h | ⟨htoken, hfull, rfl⟩
  · rw [ofLexemes, h]
  · rw [Lexeme.isToken] at htoken
    split at htoken
    · next t ht =>
      rw [ofLexemes, ht]
      exact if_pos hfull
    · cases htoken

private theorem ofLexemes_of_passes {limits : Limits} {count : Nat} {l : Lexeme} (h : l.Passes limits count)
    (rest : List Lexeme) {scan : Scan}
    (hscan : scan = ofLexemes limits (count + [l].countP (Lexeme.isToken limits)) rest) :
    (ofLexemes limits count (l :: rest)).skipped = l.skips ++ scan.skipped ∧
      ∀ e, (ofLexemes limits count (l :: rest)).result = .error e ↔ scan.result = .error e := by
  obtain ⟨hread, hroom⟩ := h
  rw [ofLexemes, l.skips_eq limits]
  rcases hl : l.read limits with _ | c | t | e
  · simp only [List.countP_singleton, Lexeme.isToken, hl] at hscan
    subst hscan
    exact ⟨rfl, fun e => Iff.rfl⟩
  · simp only [List.countP_singleton, Lexeme.isToken, hl] at hscan
    subst hscan
    exact ⟨rfl, fun e => Iff.rfl⟩
  · simp only [List.countP_singleton, Lexeme.isToken, hl, if_true] at hscan
    subst hscan
    dsimp only
    rw [if_neg (Nat.not_le_of_lt (hroom (by simp [Lexeme.isToken, hl])))]
    refine ⟨rfl, fun e => ?_⟩
    rcases (ofLexemes limits (count + 1) rest).result with _ | _ <;> simp [Except.map]
  · exact absurd hl (hread e)

theorem skipped_of_ne_error {limits : Limits} {count : Nat} {ls : List Lexeme}
    (h : ∀ e, (ofLexemes limits count ls).result ≠ .error e) :
    (ofLexemes limits count ls).skipped = ls.flatMap Lexeme.skips := by
  induction ls generalizing count with
  | nil => rfl
  | cons l rest ih =>
    rcases l.breaks_or_passes limits count with ⟨e, hbreaks⟩ | hpasses
    · rw [ofLexemes_of_breaks hbreaks] at h
      exact absurd rfl (h e)
    · obtain ⟨hskipped, hresult⟩ := ofLexemes_of_passes hpasses rest rfl
      rw [hskipped, ih fun e he => h e ((hresult e).2 he), List.flatMap_cons]

/-- A scan that fails ends at an offending lexeme and has skipped what is unknown before it. -/
theorem exists_offends {limits : Limits} {before ls : List Lexeme} {e : Error}
    (hbefore : ∀ b ∈ before, ∀ e', b.read limits ≠ .error e')
    (hcount : before.countP (Lexeme.isToken limits) ≤ limits.tokens)
    (h : (ofLexemes limits (before.countP (Lexeme.isToken limits)) ls).result = .error e) :
    ∃ more l after, ls = more ++ l :: after ∧ Lexeme.Offends limits (before ++ more) l e ∧
      (ofLexemes limits (before.countP (Lexeme.isToken limits)) ls).skipped = more.flatMap Lexeme.skips := by
  induction ls generalizing before with
  | nil => cases h
  | cons l rest ih =>
    rcases l.breaks_or_passes limits (before.countP (Lexeme.isToken limits)) with ⟨e', hbreaks⟩ | hpasses
    · rw [ofLexemes_of_breaks hbreaks] at h ⊢
      cases h
      refine ⟨[], l, rest, rfl, ?_, rfl⟩
      rw [List.append_nil]
      exact ⟨hbefore, hcount, hbreaks⟩
    · -- The lexeme joins those that were read.
      obtain ⟨hskipped, hresult⟩ := ofLexemes_of_passes hpasses rest rfl
      obtain ⟨hread, hroom⟩ := hpasses
      rw [← List.countP_append] at hskipped hresult
      have hfits : (before ++ [l]).countP (Lexeme.isToken limits) ≤ limits.tokens := by
        rw [List.countP_append, List.countP_singleton]
        split
        · next htoken => exact hroom htoken
        · exact hcount
      have hreadable : ∀ b ∈ before ++ [l], ∀ e', b.read limits ≠ .error e' := by
        intro b hb
        rcases List.mem_append.1 hb with hb | hb
        · exact hbefore b hb
        · rw [List.mem_singleton.1 hb]
          exact hread
      obtain ⟨more, o, after, rfl, hoffends, hmore⟩ := ih hreadable hfits ((hresult e).1 h)
      refine ⟨l :: more, o, after, rfl, ?_, ?_⟩
      · rwa [List.append_assoc] at hoffends
      · rw [hskipped, hmore, List.flatMap_cons]

end Scan

namespace Text

/-- The unknown characters that the scan of a text comes across: all of them if it succeeds, and those before the
lexeme at which it fails. -/
def Meets (limits : Limits) (s : Text) (chars : List Char) : Prop :=
  match (s.scan limits).result with
  | .ok _ => chars = s.unknown
  | .error e => ∃ before l after, s.lexemes = before ++ l :: after ∧ Lexeme.Offends limits before l e ∧
      chars = unknown (before.flatMap Lexeme.text)

theorem meets_skipped (limits : Limits) (s : Text) : s.Meets limits (s.scan limits).skipped := by
  rw [Meets]
  rcases h : (s.scan limits).result with e | tokens
  · obtain ⟨before, l, after, hs, hoffends, hskipped⟩ := @Scan.exists_offends limits [] s.lexemes e
      (fun b hb => by cases hb) (Nat.zero_le _) h
    refine ⟨before, l, after, hs, hoffends, hskipped.trans (unknown_flatMap_text (s := s) fun b hb => ?_).symm⟩
    rw [hs]
    exact List.mem_append_left _ hb
  · calc (s.scan limits).skipped = s.lexemes.flatMap Lexeme.skips := Scan.skipped_of_ne_error fun e he => by
          rw [← scan, h] at he
          cases he
      _ = unknown (s.lexemes.flatMap Lexeme.text) := (unknown_flatMap_text fun l hl => hl).symm
      _ = s.unknown := by rw [flatMap_text_lexemes]

end Text

/-! ### The error that ends a statement -/

/-- The errors that a statement can end with if there is room for its code. -/
def Error.endsStatement : Error → Bool
  | unknownCharacter _ | missingSemicolon | file _ | tooMany .instructions _ => false
  | _ => true

theorem Error.Raised.endsStatement {stage : Stage} {e : Error} (h : e.Raised stage) : e.endsStatement = true := by
  cases h <;> rfl

theorem Effect.endsStatement_of_ofStatement {options : Options} {symbols : SymbolTable} {s : Text} {e : Error}
    (h : (ofStatement options symbols s).result = .error e) : e.endsStatement = true := by
  obtain ⟨stage, hraised, -⟩ := raised_of_ofStatement rfl h
  exact hraised.endsStatement

/-- A statement is said to run out of instructions exactly if there is no room for all its code. -/
theorem Compilation.exists_tooMany_errors (c : Compilation) (s : Text) (limit : Nat) :
    (∃ e ∈ (c.effect s).errors limit c.room, ∃ n, e = .tooMany .instructions n) ↔
      c.room < (c.effect s).code.length := by
  constructor
  · rintro ⟨e, he, n, rfl⟩
    rcases Effect.mem_errors.1 he with ⟨ch, -, hunknown⟩ | hout
    · cases hunknown
    · rcases Effect.outcome_eq_error.1 hout with ⟨-, hresult⟩ | ⟨hcut, -⟩
      · -- A statement with room for its code ends with an error of another kind.
        cases Effect.endsStatement_of_ofStatement hresult
      · exact hcut
  · intro hcut
    exact ⟨_, Effect.mem_errors.2 (.inr (Effect.outcome_eq_error.2 (.inr ⟨hcut, rfl⟩))), limit, rfl⟩

private theorem Statement.parse_ne_empty {limits : Limits} {s : Text} (h : s.trim ≠ []) :
    parse limits s ≠ .ok .empty := by
  intro hparse
  rw [parse, if_neg h] at hparse
  split at hparse
  · rw [parseDeclaration] at hparse
    split at hparse
    · cases hparse
    · dsimp only at hparse
      split at hparse
      · cases hparse
      · split at hparse <;> cases hparse
  · cases hparse

/-! ### Blocks of diagnostics -/

/-- What one statement adds to the diagnostics: the unknown characters of its expression, and the error that ended it,
if there was one. -/
structure Block where
  unknown : List Char
  fatal : Option Error

/-- The diagnostics of a block, all with the text of the statement. -/
def Block.diagnostics (s : Text) (b : Block) : List Diagnostic :=
  (b.unknown.map Error.unknownCharacter ++ b.fatal.toList).map fun error => { error, statement := some s }

namespace Compilation

/-- The unknown characters that a statement meets.  It meets none if it does not get to its expression. -/
def Meets (c : Compilation) (s : Text) (chars : List Char) : Prop :=
  match Statement.parse c.options.limits s with
  | .error _ | .ok .empty => chars = []
  | .ok (.expression e) => e.Meets c.options.limits chars
  | .ok (.declaration x e) =>
    match c.symbols.declare x with
    | .error _ => chars = []
    | .ok _ => e.Meets c.options.limits chars

/-- Whether a statement is completed: the whole code that its expression has in plan is written and, if it is a
declaration, behind it the code that stores the value in the variable, to which the value is assigned. -/
def Completes (c : Compilation) (s : Text) : Prop :=
  match Statement.parse c.options.limits s with
  | .error _ | .ok .empty => False
  | .ok (.expression e) => ∃ tokens o, (e.analyse c.options).result = .ok tokens ∧
      (Compile.expression e c).1 = .ok o ∧
      (c.process s).code.toList = c.code.toList ++ (plan c.symbols 1 tokens []).code
  | .ok (.declaration x e) => ∃ t v tokens o, c.symbols.declare x = .ok t ∧ t.find? x = some v ∧
      (e.analyse c.options).result = .ok tokens ∧
      (Compile.expression e { c with symbols := t }).1 = .ok o ∧
      (c.process s).code.toList = c.code.toList ++ (plan t 1 tokens []).code ++ o.storeCode x v.offset ∧
      (c.process s).symbols = t.assign x o.value

theorem meets_skipped (c : Compilation) (s : Text) : c.Meets s (c.effect s).skipped := by
  have hexpression (e : Text) (t : SymbolTable) (use : Operand → List Instruction × Except Error SymbolTable) :
      (Effect.ofExpression c.options t e use).skipped = (e.scan c.options.limits).skipped := by
    rw [Effect.ofExpression, ← Text.skipped_analyse]
    dsimp only
    split
    · rfl
    · split <;> rfl
  rw [Meets, effect, Effect.ofStatement]
  rcases Statement.parse c.options.limits s with err | (⟨x, e⟩ | e | _)
  · rfl
  · dsimp only
    rcases c.symbols.declare x with err | t
    · rfl
    · dsimp only
      rw [hexpression]
      exact e.meets_skipped c.options.limits
  · dsimp only
    rw [hexpression]
    exact e.meets_skipped c.options.limits
  · rfl

private theorem exists_outcome_of_completes {c : Compilation} {s : Text} (h : c.Completes s) :
    ∃ t, (c.effect s).outcome c.options.limits.instructions c.room = .ok t := by
  rw [Completes] at h
  rcases hparse : Statement.parse c.options.limits s with err | (⟨x, e⟩ | e | _)
  · rw [hparse] at h
    cases h
  · rw [hparse] at h
    obtain ⟨t, v, tokens, o, hd, hv, ha, ho, hcode, -⟩ := h
    obtain ⟨tokens', ha', -, hp⟩ := Compile.fst_expression_eq_ok.1 ho
    obtain rfl : tokens' = tokens := Except.ok.inj (ha'.symm.trans ha)
    have heffect : c.effect s = .ofExpression c.options t e (Effect.storing t x) := by
      simp only [effect, Effect.ofStatement, hparse, hd]
    rw [Effect.ofExpression_of_plan ha hp, Effect.storing, hv] at heffect
    -- All code of the statement was written, so there was room for it.
    rw [List.append_assoc, code_process] at hcode
    have hroom := congrArg List.length (List.append_cancel_left hcode)
    rw [heffect, List.length_take] at hroom
    have hfit := Nat.le_trans (Nat.le_of_eq hroom.symm) (Nat.min_le_left _ _)
    rw [heffect]
    exact ⟨t.assign x o.value, Effect.outcome_eq_ok.2 ⟨hfit, rfl⟩⟩
  · rw [hparse] at h
    obtain ⟨_, o, -, ho, -⟩ := h
    obtain ⟨tokens, ha, hfit, hp⟩ := Compile.fst_expression_eq_ok.1 ho
    have heffect : c.effect s = .ofExpression c.options c.symbols e fun _ => ([], .ok c.symbols) := by
      simp only [effect, Effect.ofStatement, hparse]
    rw [Effect.ofExpression_of_plan ha hp, List.append_nil] at heffect
    rw [heffect]
    exact ⟨c.symbols, Effect.outcome_eq_ok.2 ⟨hfit, rfl⟩⟩
  · rw [hparse] at h
    cases h

private theorem completes_of_outcome {c : Compilation} {s : Text} (hs : s.trim ≠ []) {t : SymbolTable}
    (h : (c.effect s).outcome c.options.limits.instructions c.room = .ok t) : c.Completes s := by
  obtain ⟨hfit, hresult⟩ := Effect.outcome_eq_ok.1 h
  have hcode := c.code_process s
  rw [List.take_of_length_le hfit] at hcode
  rw [Completes]
  rcases Effect.ofStatement_eq_ok (c.effect s) rfl hresult with
    ⟨hparse, -, -⟩ | ⟨e, tokens, o, hparse, ha, hp, hplan, -⟩ |
    ⟨x, e, tokens, o, v, hparse, hd, ha, hp, hv, hplan, ht⟩
  · exact absurd hparse (Statement.parse_ne_empty hs)
  · rw [hparse]
    rw [hplan] at hfit hcode
    exact ⟨tokens, o, ha, Compile.fst_expression_eq_ok.2 ⟨tokens, ha, hfit, hp⟩, hcode⟩
  · rw [hparse]
    have hfit' : (plan (c.effect s).declared 1 tokens []).code.length ≤ c.room := by
      rw [hplan, List.length_append] at hfit
      omega
    refine ⟨(c.effect s).declared, v, tokens, o, hd, hv, ha,
      Compile.fst_expression_eq_ok.2 ⟨tokens, ha, hfit', hp⟩, ?_, ?_⟩
    · rw [hcode, hplan, List.append_assoc]
    · rw [symbols_process, Effect.table, h, ht]

private theorem completes_iff {c : Compilation} {s : Text} (hs : s.trim ≠ []) :
    c.Completes s ↔ ∃ t, (c.effect s).outcome c.options.limits.instructions c.room = .ok t :=
  ⟨exists_outcome_of_completes, fun ⟨_, ht⟩ => completes_of_outcome hs ht⟩

end Compilation

/-- How the block of a statement comes about. -/
structure Block.Describes (c : Compilation) (s : Text) (b : Block) : Prop where
  unknown : c.Meets s b.unknown
  fatal : (Compile.statement s (c.enter s)).1 = b.fatal.elim (.ok ()) .error
  ne_unknownCharacter : ∀ ch, b.fatal ≠ some (.unknownCharacter ch)
  completes : b.fatal = none ↔ c.Completes s

namespace Compilation

private theorem exists_block (c : Compilation) {s : Text} (htrim : s.trim = s) (hs : s ≠ []) :
    ∃ b : Block, (c.process s).diagnostics.toList = c.diagnostics.toList ++ b.diagnostics s ∧ b.Describes c s := by
  have hdiagnostics := c.diagnostics_process s
  have hends := c.fst_statement s
  rw [htrim] at hdiagnostics hends
  have hcompletes := completes_iff (c := c) (htrim ▸ hs)
  rw [Effect.errors] at hdiagnostics
  rcases hout : (c.effect s).outcome c.options.limits.instructions c.room with e | t
  · rw [hout] at hdiagnostics hends hcompletes
    refine ⟨⟨(c.effect s).skipped, some e⟩, hdiagnostics, c.meets_skipped s, hends, fun ch hch => ?_, ?_⟩
    · cases hch
      rw [Effect.outcome] at hout
      split at hout
      · cases Effect.endsStatement_of_ofStatement hout
      · cases hout
    · rw [hcompletes]
      simp
  · rw [hout] at hdiagnostics hends hcompletes
    refine ⟨⟨(c.effect s).skipped, none⟩, hdiagnostics, c.meets_skipped s, hends, fun ch hch => ?_, ?_⟩
    · cases hch
    · rw [hcompletes]
      simp

private theorem exists_blocks (c : Compilation) {statements : List Text} (h : ∀ s ∈ statements, s.trim = s ∧ s ≠ []) :
    ∃ blocks : List Block, blocks.length = statements.length ∧
      (c.processAll statements).diagnostics.toList =
        c.diagnostics.toList ++ (List.zipWith Block.diagnostics statements blocks).flatten ∧
      ∀ (i : Nat) (b : Block) (s : Text), blocks[i]? = some b → statements[i]? = some s →
        b.Describes (c.processAll (statements.take i)) s := by
  induction statements generalizing c with
  | nil => exact ⟨[], rfl, by simp, fun i b s hb => by simp at hb⟩
  | cons s rest ih =>
    obtain ⟨htrim, hs⟩ := h s List.mem_cons_self
    obtain ⟨b, hdiagnostics, hb⟩ := c.exists_block htrim hs
    obtain ⟨blocks, hlength, hrest, hblocks⟩ := ih (c.process s) fun s' hs' => h s' (List.mem_cons_of_mem _ hs')
    refine ⟨b :: blocks, by simp [hlength], ?_, fun i b' s' hb' hs' => ?_⟩
    · rw [processAll_cons, hrest, hdiagnostics, List.zipWith_cons_cons, List.flatten_cons, List.append_assoc]
    · cases i with
      | zero =>
        cases hb'
        cases hs'
        exact hb
      | succ i => exact hblocks i b' s' hb' hs'

theorem diagnostics_opening (options : Options) (program : Text) :
    (opening options program).diagnostics.toList =
      match program.checkSemicolons with
      | .ok _ => []
      | .error _ => [{ error := .missingSemicolon, statement := none }] := by
  rw [opening, Text.checkSemicolons]
  by_cases h : program.afterLastSemicolon.trim = []
  · rw [if_pos h]
    rfl
  · rw [if_neg h]
    rfl

/-- The diagnostics of a program are the complaint about a missing semicolon, if there is one, and a block for each
statement, in order, with the statement's own text.  The block of a statement describes what became of it in the state
that the statements before it left. -/
theorem diagnostics_ofProgram (options : Options) (program : Text) :
    ∃ blocks : List Block, blocks.length = program.normalizeSpace.statements.length ∧
      (ofProgram options program).diagnostics.toList =
        (match program.checkSemicolons with
          | .ok _ => []
          | .error _ => [{ error := .missingSemicolon, statement := none }]) ++
          (List.zipWith Block.diagnostics program.normalizeSpace.statements blocks).flatten ∧
      ∀ (i : Nat) (b : Block) (s : Text), blocks[i]? = some b → program.normalizeSpace.statements[i]? = some s →
        b.Describes ((opening options program).processAll (program.normalizeSpace.statements.take i)) s := by
  have htrim : ∀ s ∈ program.normalizeSpace.statements, s.trim = s ∧ s ≠ [] :=
    fun s hs => Text.trim_of_mem_statements hs
  obtain ⟨blocks, hlength, hdiagnostics, hblocks⟩ := (opening options program).exists_blocks htrim
  refine ⟨blocks, hlength, ?_, hblocks⟩
  rw [ofProgram_eq, hdiagnostics, diagnostics_opening]

/-- Two unknown characters and a variable that is not declared in the first statement, none in the second one, and a
third one without semicolon that is scanned up to a numeral that does not fit. -/
example :
    (ofProgram {} "int a = 1 # + b $; a * 2; @ 9223372036854775808 %".toList).diagnostics.toList.map
        (fun d => (d.error, d.statement.map String.ofList)) =
      [(.missingSemicolon, none), (.unknownCharacter '#', "int a = 1 # + b $"),
        (.unknownCharacter '$', "int a = 1 # + b $"), (.undeclared ['b'], "int a = 1 # + b $"),
        (.unknownCharacter '@', "@ 9223372036854775808 %"),
        (.integerOutOfRange "9223372036854775808".toList, "@ 9223372036854775808 %")] := by
  decide +kernel

end Compilation

end ArithMips
